/-
  Forward iterators, and what it is for a view to PRESENT a list.

  1. **Program** — a view is `begin()`, `end()` and the three operations of its iterators: `deref`,
     `next` (pre-increment) and `eq`.  Each of them is partial: `none` is an iterator used where it
     must not be used (dereferenced at the end, incremented past it, compared with one of another
     range), or a search inside the operation that has run out of fuel.

  2. **Specification** — `Presents V xs At`: the relation `At k it` says that `it` stands at
     position `k` of `xs`, and under it the operations do EXACTLY what positions do.  An adapter is
     verified by deriving `Presents` of the adapted view from `Presents` of the underlying one.

  3. **What follows** — `Presents.collect`: walking from `begin()` to `end()` terminates and yields
     `xs`; `Presents.eq_obtained`: iterators, however obtained from `begin()`, `end()` and
     increments, compare equal exactly at the same position.

  `Store` is the view every container gives: iterators carry the container they belong to, and
  those of two containers cannot be compared.
-/
import Mathlib.Data.List.Basic

namespace MicroProfiler.Lib

variable {ι α κ : Type}

/-- The operations of an iterator type. -/
structure IterOps (ι α : Type) where
  deref : ι → Option α
  next : ι → Option ι
  eq : ι → ι → Option Bool

/-- A view: where it begins and ends, and its iterators. -/
structure View (ι α : Type) extends IterOps ι α where
  first : Option ι
  last : Option ι

/-- `for (; it != last; ++it) out.push_back(*it);` -/
def IterOps.collect (ops : IterOps ι α) (last : ι) : Nat → ι → Option (List α)
  | 0, _ => none
  | fuel + 1, it => do
    if (← ops.eq it last) then return []
    else
      let x ← ops.deref it
      let it' ← ops.next it
      let xs ← ops.collect last fuel it'
      return x :: xs

/-- What a client reads from `begin()` to `end()`. -/
def View.toList (V : View ι α) (fuel : Nat) : Option (List α) := do
  V.collect (← V.last) fuel (← V.first)

/-- The iterators a client can hold of a view of `n` elements, with the position each is at. -/
inductive View.Obtained (V : View ι α) (n : Nat) : Nat → ι → Prop
  | first {it : ι} : V.first = some it → Obtained V n 0 it
  | last {it : ι} : V.last = some it → Obtained V n n it
  | next {k : Nat} {it it' : ι} : Obtained V n k it → k < n → V.next it = some it' →
      Obtained V n (k + 1) it'

/-- `first` and `last` delimit the range `xs`, and the operations follow the positions in it. -/
structure IterOps.Spans (ops : IterOps ι α) (first last : ι) (xs : List α) (At : Nat → ι → Prop) :
    Prop where
  atFirst : At 0 first
  atLast : At xs.length last
  deref : ∀ {k it}, At k it → k < xs.length → ops.deref it = xs[k]?
  next : ∀ {k it}, At k it → k < xs.length → ∃ it', ops.next it = some it' ∧ At (k + 1) it'
  eq : ∀ {j k it it'}, At j it → At k it' → ops.eq it it' = some (decide (j = k))

/-- The view has a first and a last iterator, and they span `xs`. -/
def View.Presents (V : View ι α) (xs : List α) (At : Nat → ι → Prop) : Prop :=
  ∃ first last, V.first = some first ∧ V.last = some last ∧ V.Spans first last xs At

/-- The end test of a loop. -/
theorem IterOps.Spans.eq_last {ops : IterOps ι α} {first last : ι} {xs : List α}
    {At : Nat → ι → Prop} (h : ops.Spans first last xs At) {k : Nat} {it : ι} (hit : At k it) :
    ops.eq it last = some (decide (k = xs.length)) := h.eq hit h.atLast

/-- Walking from position `k` reads the rest of the range, given fuel for it. -/
theorem IterOps.Spans.collect_drop {ops : IterOps ι α} {first last : ι} {xs : List α}
    {At : Nat → ι → Prop} (h : ops.Spans first last xs At) :
    ∀ {fuel k : Nat} {it : ι}, At k it → k ≤ xs.length → xs.length < k + fuel →
      ops.collect last fuel it = some (xs.drop k) := by
  intro fuel
  induction fuel with
  | zero => intro k it _ hk hfuel; omega
  | succ fuel ih =>
    intro k it hit hk hfuel
    have hend := h.eq_last hit
    by_cases hkn : k = xs.length
    · simp [IterOps.collect, hend, hkn]
    · have hlt : k < xs.length := by omega
      obtain ⟨it', hnext, hit'⟩ := h.next hit hlt
      have hrest := ih hit' hlt (by omega)
      have hx : ops.deref it = some xs[k] := by
        rw [h.deref hit hlt, List.getElem?_eq_getElem hlt]
      rw [List.drop_eq_getElem_cons hlt]
      simp [IterOps.collect, hend, hkn, hx, hnext, hrest]

/-- **Iteration.** A client that walks the view reads exactly the list it presents. -/
theorem View.Presents.toList {V : View ι α} {xs : List α} {At : Nat → ι → Prop}
    (h : V.Presents xs At) {fuel : Nat} (hfuel : xs.length < fuel) : V.toList fuel = some xs := by
  obtain ⟨first, last, hfirst, hlast, hspans⟩ := h
  have hwalk := hspans.collect_drop hspans.atFirst (Nat.zero_le _)
    (show xs.length < 0 + fuel by omega)
  simp [View.toList, hfirst, hlast, hwalk]

/-- However an iterator was obtained, it stands where its count of increments says. -/
theorem View.Presents.at_obtained {V : View ι α} {xs : List α} {At : Nat → ι → Prop}
    (h : V.Presents xs At) {k : Nat} {it : ι} (hit : V.Obtained xs.length k it) : At k it := by
  obtain ⟨first, last, hfirst, hlast, hspans⟩ := h
  induction hit with
  | first hit =>
    rw [hfirst] at hit
    exact Option.some.inj hit ▸ hspans.atFirst
  | last hit =>
    rw [hlast] at hit
    exact Option.some.inj hit ▸ hspans.atLast
  | next _ hk hnext ih =>
    obtain ⟨it', hnext', hit'⟩ := hspans.next ih hk
    rw [hnext] at hnext'
    exact Option.some.inj hnext' ▸ hit'

/-- **Comparison.** Two iterators of one view are equal EXACTLY at the same position. -/
theorem View.Presents.eq_obtained {V : View ι α} {xs : List α} {At : Nat → ι → Prop}
    (h : V.Presents xs At) {j k : Nat} {it it' : ι} (hit : V.Obtained xs.length j it)
    (hit' : V.Obtained xs.length k it') : V.eq it it' = some (decide (j = k)) := by
  have hj := h.at_obtained hit
  have hk := h.at_obtained hit'
  obtain ⟨_, _, _, _, hspans⟩ := h
  exact hspans.eq hj hk

/-- Every position is reached by an iterator. -/
theorem View.Presents.exists_obtained {V : View ι α} {xs : List α} {At : Nat → ι → Prop}
    (h : V.Presents xs At) : ∀ {k : Nat}, k ≤ xs.length → ∃ it, V.Obtained xs.length k it := by
  intro k
  induction k with
  | zero =>
    intro _
    obtain ⟨first, _, hfirst, _⟩ := h
    exact ⟨first, .first hfirst⟩
  | succ k ih =>
    intro hk
    obtain ⟨it, hit⟩ := ih (by omega)
    have hat := h.at_obtained hit
    obtain ⟨_, _, _, _, hspans⟩ := h
    obtain ⟨it', hnext, _⟩ := hspans.next hat hk
    exact ⟨it', .next hit hk hnext⟩

/-! ## Containers -/

/-- An iterator of a container: which one, and where in it. -/
structure Iter (κ : Type) where
  container : κ
  pos : Nat
deriving DecidableEq, Repr

/-- The contents of the containers there are. -/
abbrev Store (κ α : Type) := κ → List α

/-- The iterators of the containers of a store. -/
def Store.ops [DecidableEq κ] (store : Store κ α) : IterOps (Iter κ) α where
  deref it := (store it.container)[it.pos]?
  next it :=
    if it.pos < (store it.container).length then some { it with pos := it.pos + 1 } else none
  eq it it' :=
    if it.container = it'.container then some (decide (it.pos = it'.pos)) else none

/-- A range `[lo, hi)` inside one container of the store. -/
structure Span (store : Store κ α) where
  container : κ
  lo : Nat
  hi : Nat
  ordered : lo ≤ hi
  inside : hi ≤ (store container).length

/-- The elements of a range. -/
def Span.elems {store : Store κ α} (s : Span store) : List α :=
  ((store s.container).take s.hi).drop s.lo

@[simp] theorem Span.length_elems {store : Store κ α} (s : Span store) :
    s.elems.length = s.hi - s.lo := by
  have := s.inside
  simp [Span.elems, Nat.min_eq_left this]

/-- Where a container's iterator stands, relative to a range of it. -/
def Span.At {store : Store κ α} (s : Span store) (k : Nat) (it : Iter κ) : Prop :=
  it = ⟨s.container, s.lo + k⟩

/-- A range of a container is spanned by its two iterators. -/
theorem Span.spans [DecidableEq κ] {store : Store κ α} (s : Span store) :
    store.ops.Spans ⟨s.container, s.lo⟩ ⟨s.container, s.hi⟩ s.elems s.At where
  atFirst := rfl
  atLast := by
    have := s.ordered
    simp only [Span.At, Span.length_elems, Iter.mk.injEq, true_and]
    omega
  deref := by
    rintro k it rfl hk
    rw [Span.length_elems] at hk
    have hin : s.lo + k < s.hi := by omega
    simp [Store.ops, Span.elems, List.getElem?_drop, hin]
  next := by
    rintro k it rfl hk
    rw [Span.length_elems] at hk
    have := s.inside
    have hin : s.lo + k < (store s.container).length := by omega
    exact ⟨⟨s.container, s.lo + (k + 1)⟩, by simp [Store.ops, hin]; omega, rfl⟩
  eq := by
    rintro j k it it' rfl rfl
    simp [Store.ops]

/-! ## Positions in a concatenation -/

variable {ω γ : Type}

/-- Where the part of element `i` begins in `xs.flatMap g`. -/
def offset (g : ω → List γ) (xs : List ω) (i : Nat) : Nat := ((xs.take i).flatMap g).length

@[simp] theorem offset_zero (g : ω → List γ) (xs : List ω) : offset g xs 0 = 0 := by
  simp [offset]

theorem offset_length (g : ω → List γ) (xs : List ω) :
    offset g xs xs.length = (xs.flatMap g).length := by
  rw [offset, List.take_length]

theorem offset_succ (g : ω → List γ) (xs : List ω) {i : Nat} (hi : i < xs.length) :
    offset g xs (i + 1) = offset g xs i + (g xs[i]).length := by
  rw [offset, offset, ← List.take_append_getElem hi, List.flatMap_append, List.length_append,
    List.flatMap_singleton]

theorem offset_mono (g : ω → List γ) (xs : List ω) {i i' : Nat} (h : i ≤ i') :
    offset g xs i ≤ offset g xs i' := by
  obtain ⟨rest, hrest⟩ := List.take_prefix_take_left (l := xs) h
  rw [offset, offset, ← hrest, List.flatMap_append, List.length_append]
  omega

/-- An element of part `i` stands before every later part. -/
theorem offset_add_lt (g : ω → List γ) (xs : List ω) {i i' j : Nat} (hi : i < xs.length)
    (hj : j < (g xs[i]).length) (h : i < i') : offset g xs i + j < offset g xs i' := by
  have hsucc := offset_succ g xs hi
  have hmono := offset_mono g xs (show i + 1 ≤ i' from h)
  omega

/-- Element `j` of part `i` is where the concatenation has it. -/
theorem getElem?_offset (g : ω → List γ) (xs : List ω) {i j : Nat} (hi : i < xs.length)
    (hj : j < (g xs[i]).length) : (xs.flatMap g)[offset g xs i + j]? = (g xs[i])[j]? := by
  have hsplit : xs.flatMap g
      = (xs.take i).flatMap g ++ (g xs[i] ++ (xs.drop (i + 1)).flatMap g) := by
    have hcut : xs = xs.take i ++ xs[i] :: xs.drop (i + 1) := by simp
    have hmap := congrArg (List.flatMap g) hcut
    rwa [List.flatMap_append, List.flatMap_cons] at hmap
  rw [hsplit, List.getElem?_append_right (by rw [offset]; omega), offset, Nat.add_sub_cancel_left,
    List.getElem?_append_left hj]

end MicroProfiler.Lib
