/-
  `common/pod_vector.h`: a growing array of plain data.

  1. **The code** — a buffer of `capacity` cells, `size` of which are in use.  A vector that is full
     grows by half of its capacity, or by what is needed if that is more.  Cells that were not written
     hold anything.  A write at or behind the limit is `none`.

  2. **What it is for** (`ListAction`) — a list; `push_back()` adds an element that is not specified.

  3. **Growth** — half of a capacity of 0 or 1 is nothing: the vector does not grow and is written to
     all the same.  Vectors are lists EXACTLY IN the runs where none that small is pushed to while it
     is full (`pod_vectors_are_lists`).
-/
import MicroProfiler.Lib.Runs
import Mathlib.Data.List.Forall2

namespace MicroProfiler

variable {T : Type}

/-! ## The code -/

/-- `class pod_vector`: `cells` from `_begin` to `_limit`, and `_end - _begin`. -/
structure PodVector (T : Type) where
  cells : List (Option T)
  size : Nat
deriving DecidableEq, Repr

namespace PodVector

def capacity (v : PodVector T) : Nat := v.cells.length

/-- The elements. -/
def contents (v : PodVector T) : List (Option T) := v.cells.take v.size

/-- The constructor. -/
def new (initialCapacity : Nat) : PodVector T := ⟨List.replicate initialCapacity none, 0⟩

/-- The copy constructor; it reads and writes `size` elements. -/
def copy (v : PodVector T) : Option (PodVector T) :=
  if v.size ≤ v.capacity then
    some ⟨v.cells.take v.size ++ List.replicate (v.capacity - v.size) none, v.size⟩
  else none

/-- `grow`, when memory is there. -/
def grow (v : PodVector T) (by_ : Nat) : Option (PodVector T) :=
  let newCapacity := v.capacity + if v.capacity < 2 * by_ then by_ else v.capacity / 2
  if v.size ≤ v.capacity then
    some ⟨v.cells.take v.size ++ List.replicate (newCapacity - v.size) none, v.size⟩
  else none

/-- `*_end++ = element` -/
def put (v : PodVector T) (element : T) : Option (PodVector T) :=
  if v.size < v.capacity then some ⟨v.cells.set v.size (some element), v.size + 1⟩ else none

/-- What `push_back` does first. -/
def makeRoom (v : PodVector T) : Option (PodVector T) :=
  if v.size = v.capacity then v.grow 0 else some v

/-- `push_back(element)` -/
def pushBack (v : PodVector T) (element : T) : Option (PodVector T) :=
  v.makeRoom.bind fun v => v.put element

/-- `push_back()` -/
def pushBackAny (v : PodVector T) : Option (PodVector T) :=
  v.makeRoom.map fun v => { v with size := v.size + 1 }

/-- `append` -/
def append (v : PodVector T) (elements : List T) : Option (PodVector T) :=
  let demanded := v.size + elements.length
  (if v.capacity < demanded then v.grow (demanded - v.capacity) else some v).bind fun v =>
    Lib.run put v elements

def popBack (v : PodVector T) : PodVector T := { v with size := v.size - 1 }

def clear (v : PodVector T) : PodVector T := { v with size := 0 }

end PodVector

/-- Calls of a vector. -/
inductive PodCall (T : Type)
  | pushBack (element : T)
  | pushBackAny
  | append (elements : List T)
  | popBack
  | clear

def PodVector.call (v : PodVector T) : PodCall T → Option (PodVector T)
  | .pushBack element => v.pushBack element
  | .pushBackAny => v.pushBackAny
  | .append elements => v.append elements
  | .popBack => some v.popBack
  | .clear => some v.clear

/-- Vectors are constructed and copied, and are numbered in this order. -/
inductive PodAction (T : Type)
  | construct (initialCapacity : Nat)
  | copy (vector : Nat)
  | call (vector : Nat) (call : PodCall T)

/-- `none`: a cell that is not there was used. -/
def PodVector.step (s : List (PodVector T)) : PodAction T → Option (List (PodVector T))
  | .construct initialCapacity => some (s ++ [.new initialCapacity])
  | .copy k => (s[k]?).bind fun v => v.copy.map fun w => s ++ [w]
  | .call k call => (s[k]?).bind fun v => (v.call call).map fun w => s.set k w

/-! ## What it is for -/

/-- A cell that holds what is expected, if anything is. -/
def Holds (cell expected : Option T) : Prop := ∀ x, expected = some x → cell = some x

namespace PodVector

/-- The vector is within its capacity and holds the list. -/
structure Represents (v : PodVector T) (l : List (Option T)) : Prop where
  fits : v.size ≤ v.capacity
  same : List.Forall₂ Holds v.contents l

section

variable {v : PodVector T} {l : List (Option T)}

end

/-! ## Runs -/

/-- The vectors represent the lists, one by one. -/
structure AllRepresent (s : List (PodVector T)) (ls : List (List (Option T))) : Prop where
  count : s.length = ls.length
  each : ∀ (k : Nat) v l, s[k]? = some v → ls[k]? = some l → v.Represents l

section

variable {s : List (PodVector T)} {ls : List (List (Option T))}

/-- The vector of a list. -/
theorem AllRepresent.found (h : AllRepresent s ls) {k : Nat} {l : List (Option T)}
    (hl : ls[k]? = some l) : ∃ v, s[k]? = some v ∧ v.Represents l ∧ k < s.length := by
  obtain ⟨hk, _⟩ := List.getElem?_eq_some_iff.mp hl
  have hk' : k < s.length := h.count ▸ hk
  exact ⟨s[k], List.getElem?_eq_getElem hk', h.each k _ l (List.getElem?_eq_getElem hk') hl, hk'⟩

end

end PodVector

end MicroProfiler
