/-
  `common/src/pool_allocator.cpp`: blocks that are returned are kept by size and handed out again.

  1. **The code** — `_free` has a bin for each size, a stack of entries.  What the underlying allocator
     gives has a header in front that tells the size of the block.  `deallocate` must not throw: for
     every block that is taken `allocate` reserves a place in the bin first.  What the environment
     decides (does an insertion, a reservation or the underlying allocator throw, and what does it
     give) comes with the call.

  2. **The sum** — `overhead + length` is formed in `size_t`, and nobody looks whether it wraps.  A
     length close to the top makes `allocate_slow` ask for fewer bytes than the header takes; for no
     bytes at all an allocator may give a place that it gives again (`length_wraps`).

  3. **Accounts** (`Pooled`) — every block taken is handed out or in the bin of its size, once; and a
     bin has a place for each block of its size.

  4. **Safety** (`pool_allocator_safe`) — in every run in which no block is taken for a wrapped sum.
-/
import MicroProfiler.Lib.Keys
import MicroProfiler.Lib.Runs
import Mathlib.Algebra.Group.Nat.Defs
import Mathlib.Data.List.AList
import Mathlib.Data.List.Perm.Subperm

namespace MicroProfiler

/-! ## The code -/

/-- `free_bin_t`: a vector of entries, the last one first, and its capacity. -/
structure FreeBin where
  /-- what has been returned -/
  entries : List Nat
  /-- how many it has a place for -/
  capacity : Nat
deriving DecidableEq, Repr

/-- `class pool_allocator`, with the headers of the entries. -/
structure PoolAllocator where
  /-- `_free`, by size -/
  free : AList fun _ : UInt64 => FreeBin
  /-- what the header of an entry says -/
  size : Nat → UInt64

/-- What becomes of a call for memory; `slack` is what `reserve` gives beyond what it is asked for. -/
inductive Supply
  /-- the bin cannot be made -/
  | insertThrows
  /-- there is no place in it -/
  | reserveThrows
  /-- the underlying allocator has nothing -/
  | allocateThrows (slack : Nat)
  /-- a block -/
  | returns (entry slack : Nat)
deriving DecidableEq, Repr

namespace PoolAllocator

/-- `sizeof(entry)` -/
def overhead : Nat := 8

/-- `overhead + length` of `allocate_slow`: what the underlying allocator is asked for. -/
def requested (length : UInt64) : UInt64 := UInt64.ofNat overhead + length

/-- The constructor. -/
def new : PoolAllocator := ⟨∅, fun _ => 0⟩

/-- The bin of a size; one that is not there is made. -/
def bin (p : PoolAllocator) (length : UInt64) : FreeBin := (p.free.lookup length).getD ⟨[], 0⟩

/-- Writes to the bin of a size. -/
def setBin (p : PoolAllocator) (length : UInt64) (b : FreeBin) : PoolAllocator :=
  { p with free := p.free.insert length b }

/-- `allocate_slow`; `none` where it throws.  The entry is what the underlying allocator gave for
    `requested length` bytes. -/
def allocateSlow (p : PoolAllocator) (length : UInt64) : Supply → PoolAllocator × Option Nat
  | .insertThrows => (p, none)
  | .reserveThrows => (p.setBin length (p.bin length), none)
  | .allocateThrows slack =>
      (p.setBin length ⟨(p.bin length).entries, (p.bin length).capacity + 1 + slack⟩, none)
  | .returns e slack =>
      let p := p.setBin length ⟨(p.bin length).entries, (p.bin length).capacity + 1 + slack⟩
      ({ p with size := Function.update p.size e length }, some (e + overhead))

/-- `allocate` -/
def allocate (p : PoolAllocator) (length : UInt64) (supply : Supply) : PoolAllocator × Option Nat :=
  match p.bin length with
  -- the entry returned last
  | ⟨e :: entries, capacity⟩ => (p.setBin length ⟨entries, capacity⟩, some (e + overhead))
  | ⟨[], _⟩ => p.allocateSlow length supply

/-- `deallocate`; `none`: there is no such bin, or `push_back` has to reallocate it. -/
def deallocate (p : PoolAllocator) (memory : Nat) : Option PoolAllocator :=
  let e := memory - overhead
  (p.free.lookup (p.size e)).bind fun b =>
    -- a `push_back` that finds no place would have to reallocate, and might throw
    if b.entries.length < b.capacity then some (p.setBin (p.size e) ⟨e :: b.entries, b.capacity⟩) else none

/-- Bins and places in them may be new, and nothing else. -/
structure Widened (p p' : PoolAllocator) : Prop where
  size : p'.size = p.size
  /-- a place that is new is empty -/
  entries : ∀ l, (p'.bin l).entries = (p.bin l).entries
  capacity : ∀ l, (p.bin l).capacity ≤ (p'.bin l).capacity
  /-- no bin goes -/
  bins : ∀ l ∈ p.free, l ∈ p'.free

/-- What the destructor gives back to the underlying allocator. -/
def destroy (p : PoolAllocator) : List Nat := p.free.keys.flatMap fun length => (p.bin length).entries

end PoolAllocator

/-- A pool and its clients: `live` is what they hold, and `taken` what the underlying allocator gave,
    by entry and length. -/
structure Pool where
  allocator : PoolAllocator
  live : List Nat
  taken : List (Nat × UInt64)

/-- What clients call. -/
inductive PoolAction
  | allocate (length : UInt64) (supply : Supply)
  | deallocate (memory : Nat)
deriving DecidableEq, Repr

namespace Pool

/-- Nobody holds anything. -/
def new : Pool := ⟨.new, [], []⟩

/-- Is the block taken from the underlying allocator by this call? -/
def takes (s : Pool) (length : UInt64) : Supply → List (Nat × UInt64)
  | .returns e _ => if (s.allocator.bin length).entries = [] then [(e, length)] else []
  | _ => []

/-- A call, and the books. -/
def perform (s : Pool) : PoolAction → Option Pool
  | .allocate length supply =>
      let r := s.allocator.allocate length supply
      some ⟨r.1, s.live ++ r.2.toList, s.taken ++ s.takes length supply⟩
  | .deallocate memory =>
      (s.allocator.deallocate memory).map fun p => ⟨p, s.live.erase memory, s.taken⟩

/-- The bytes given for the entry `e` and those of a block that is taken are apart. -/
def Apart (e : Nat) (length : UInt64) (b : Nat × UInt64) : Prop :=
  e + (PoolAllocator.requested length).toNat ≤ b.1 ∨ b.1 + (PoolAllocator.requested b.2).toNat ≤ e

instance (e : Nat) (length : UInt64) (b : Nat × UInt64) : Decidable (Apart e length b) :=
  inferInstanceAs (Decidable (_ ∨ _))

/-- The underlying allocator gives no byte that is still taken, and clients return what they hold. -/
def Allowed (s : Pool) : PoolAction → Prop
  | .allocate length (.returns e _) => ∀ b ∈ s.taken, Apart e length b
  | .allocate _ _ => True
  | .deallocate memory => memory ∈ s.live

instance (s : Pool) : (a : PoolAction) → Decidable (s.Allowed a)
  | .allocate length (.returns e _) => inferInstanceAs (Decidable (∀ b ∈ s.taken, Apart e length b))
  | .allocate _ .insertThrows => isTrue trivial
  | .allocate _ .reserveThrows => isTrue trivial
  | .allocate _ (.allocateThrows _) => isTrue trivial
  | .deallocate memory => inferInstanceAs (Decidable (memory ∈ s.live))

/-- Calls that clients and the underlying allocator may make of it. -/
def step (s : Pool) (a : PoolAction) : Option Pool := if s.Allowed a then s.perform a else none

/-- A block is taken only where the header and the block fit in `size_t`. -/
def Fits : PoolAction → Prop
  | .allocate length (.returns _ _) => PoolAllocator.overhead + length.toNat < 2 ^ 64
  | _ => True

instance : (a : PoolAction) → Decidable (Fits a)
  | .allocate length (.returns _ _) =>
      inferInstanceAs (Decidable (PoolAllocator.overhead + length.toNat < 2 ^ 64))
  | .allocate _ .insertThrows => isTrue trivial
  | .allocate _ .reserveThrows => isTrue trivial
  | .allocate _ (.allocateThrows _) => isTrue trivial
  | .deallocate _ => isTrue trivial

/-- What is asked of a call: what is handed out is held by nobody and was taken for the length that
    is asked for; a call that throws leaves bins and places that are new, at most; what is returned
    finds its place. -/
def Right (s : Pool) : PoolAction → Prop
  | .allocate length supply =>
      let r := s.allocator.allocate length supply
      (∀ memory, r.2 = some memory → memory ∉ s.live ∧
        ∃ e, memory = e + PoolAllocator.overhead ∧ (e, length) ∈ s.taken ++ s.takes length supply) ∧
      (r.2 = none → s.takes length supply = [] ∧ PoolAllocator.Widened s.allocator r.1)
  | .deallocate memory => (s.allocator.deallocate memory).isSome = true

/-- What is asked of a state: every bin has places for all blocks of its size, and the destructor
    frees what was returned, once. -/
structure Accounted (s : Pool) : Prop where
  /-- `deallocate` never has to reallocate -/
  capacity : ∀ length, (s.taken.filter (·.2 = length)).length ≤ (s.allocator.bin length).capacity
  /-- no block is freed twice -/
  once : s.allocator.destroy.Nodup
  /-- and none is forgotten -/
  freed : ∀ e, e ∈ s.allocator.destroy ↔
    e ∈ s.taken.map Prod.fst ∧ e + PoolAllocator.overhead ∉ s.live

end Pool

/-! ## What a call does -/

namespace PoolAllocator

section

variable {p : PoolAllocator} {length : UInt64}

/-- Where the sum does not wrap, the header and the block are asked for. -/
theorem requested_toNat (h : overhead + length.toNat < 2 ^ 64) :
    (requested length).toNat = overhead + length.toNat := by
  rw [requested, UInt64.toNat_add, Nat.mod_eq_of_lt]
  · rfl
  · exact h

/-- One bin is written to. -/
theorem bin_setBin (p : PoolAllocator) (length : UInt64) (b : FreeBin) (l : UInt64) :
    (p.setBin length b).bin l = if l = length then b else p.bin l := by
  unfold bin setBin
  split
  · next h => rw [h, AList.lookup_insert, Option.getD_some]
  · next h => rw [AList.lookup_insert_ne h]

/-- The bin that is written to is there. -/
theorem mem_setBin {b : FreeBin} {l : UInt64} : l ∈ (p.setBin length b).free ↔ l = length ∨ l ∈ p.free :=
  AList.mem_insert _

/-- More places in a bin. -/
theorem setBin_widened {capacity : Nat} (h : (p.bin length).capacity ≤ capacity) :
    Widened p (p.setBin length ⟨(p.bin length).entries, capacity⟩) := by
  refine ⟨rfl, fun l => ?_, fun l => ?_, fun l hl => mem_setBin.mpr (Or.inr hl)⟩
  · rw [bin_setBin]
    split
    · next hl => rw [hl]
    · rfl
  · rw [bin_setBin]
    split
    · next hl =>
      rw [hl]
      exact h
    · exact Nat.le_refl _

end

end PoolAllocator

namespace Pool

open PoolAllocator

/-- **What `allocate` may do**: hand out the last block of the bin, throw, or take a block. -/
theorem allocate_cases (s : Pool) (length : UInt64) (supply : Supply) :
    (∃ e entries capacity, s.allocator.bin length = ⟨e :: entries, capacity⟩ ∧
      s.allocator.allocate length supply =
        (s.allocator.setBin length ⟨entries, capacity⟩, some (e + overhead)) ∧
      s.takes length supply = []) ∨
    ((s.allocator.bin length).entries = [] ∧ s.takes length supply = [] ∧
      ∃ p, s.allocator.allocate length supply = (p, none) ∧ Widened s.allocator p) ∨
    ((s.allocator.bin length).entries = [] ∧ ∃ e p, (∃ slack, supply = .returns e slack) ∧
      s.takes length supply = [(e, length)] ∧
      s.allocator.allocate length supply =
        ({ p with size := Function.update p.size e length }, some (e + overhead)) ∧
      Widened s.allocator p ∧ length ∈ p.free ∧
      (s.allocator.bin length).capacity < (p.bin length).capacity) := by
  rcases hbin : s.allocator.bin length with ⟨_ | ⟨e, entries⟩, capacity⟩
  · -- the bin is empty, or not there
    right
    have hslow : s.allocator.allocate length supply = s.allocator.allocateSlow length supply := by
      rw [allocate, hbin]
    have hempty : (s.allocator.bin length).entries = [] := by rw [hbin]
    have hcapacity : (s.allocator.bin length).capacity = capacity := by rw [hbin]
    have hwider : ∀ slack, Widened s.allocator (s.allocator.setBin length
        ⟨(s.allocator.bin length).entries, (s.allocator.bin length).capacity + 1 + slack⟩) := fun slack =>
      setBin_widened (by omega)
    rw [hslow]
    cases supply with
    | insertThrows => exact Or.inl ⟨rfl, rfl, _, rfl, rfl, fun _ => rfl, fun _ => Nat.le_refl _, fun _ hl => hl⟩
    | reserveThrows => exact Or.inl ⟨rfl, rfl, _, rfl, setBin_widened (Nat.le_refl _)⟩
    | allocateThrows slack => exact Or.inl ⟨rfl, rfl, _, rfl, hwider slack⟩
    | returns e slack =>
      refine Or.inr ⟨rfl, e, _, ⟨slack, rfl⟩, if_pos hempty, rfl, hwider slack,
        mem_setBin.mpr (Or.inl rfl), ?_⟩
      rw [bin_setBin, if_pos rfl]
      dsimp only
      omega
  · refine Or.inl ⟨e, entries, capacity, rfl, ?_, ?_⟩
    · rw [allocate, hbin]
    · cases supply with
      | returns e' slack => exact if_neg (by rw [hbin]; simp)
      | insertThrows => rfl
      | reserveThrows => rfl
      | allocateThrows slack => rfl

/-! ## Accounts -/

/-- The INVARIANT. -/
structure Pooled (s : Pool) : Prop where
  /-- an entry is taken once, -/
  once : (s.taken.map Prod.fst).Nodup
  /-- for the length its header tells -/
  header : ∀ b ∈ s.taken, s.allocator.size b.1 = b.2
  /-- what is in a bin was taken for that length, and nobody holds it -/
  binned : ∀ length, ∀ e ∈ (s.allocator.bin length).entries,
    (e, length) ∈ s.taken ∧ e + overhead ∉ s.live
  /-- nothing is in a bin twice -/
  distinct : ∀ length, (s.allocator.bin length).entries.Nodup
  /-- nothing is held twice -/
  held : s.live.Nodup
  /-- what is held was taken -/
  owned : ∀ memory ∈ s.live, ∃ b ∈ s.taken, memory = b.1 + overhead
  /-- what was taken is held or in its bin -/
  placed : ∀ b ∈ s.taken, b.1 + overhead ∈ s.live ∨ b.1 ∈ (s.allocator.bin b.2).entries
  /-- a place for each -/
  capacity : ∀ length, (s.taken.filter (·.2 = length)).length ≤ (s.allocator.bin length).capacity
  /-- `deallocate` finds the bin -/
  bins : ∀ b ∈ s.taken, b.2 ∈ s.allocator.free
  /-- the block has the bytes that its length says -/
  fits : ∀ b ∈ s.taken, overhead + b.2.toNat < 2 ^ 64

/-- Nothing is taken. -/
theorem new_pooled : Pooled new where
  once := List.nodup_nil
  header _ hb := absurd hb List.not_mem_nil
  binned _ _ he := absurd he List.not_mem_nil
  distinct _ := List.nodup_nil
  held := List.nodup_nil
  owned _ hm := absurd hm List.not_mem_nil
  placed _ hb := absurd hb List.not_mem_nil
  capacity _ := Nat.le_refl _
  bins _ hb := absurd hb List.not_mem_nil
  fits _ hb := absurd hb List.not_mem_nil

section

variable {s : Pool}

/-- An entry was taken for one length. -/
theorem Pooled.length_eq (h : Pooled s) {e : Nat} {l l' : UInt64} (hl : (e, l) ∈ s.taken) (hl' : (e, l') ∈ s.taken) :
    l = l' := (h.header _ hl).symm.trans (h.header _ hl')

/-- **What is given for a sum that does not wrap** is no entry that is taken: both have bytes. -/
theorem Pooled.entry_new (h : Pooled s) {e slack : Nat} {length : UInt64}
    (hallowed : s.Allowed (.allocate length (.returns e slack)))
    (hfits : Fits (.allocate length (.returns e slack))) : e ∉ s.taken.map Prod.fst := by
  intro hmem
  obtain ⟨b, hb, rfl⟩ := List.mem_map.mp hmem
  have hapart := hallowed b hb
  rw [Apart, requested_toNat hfits, requested_toNat (h.fits b hb), overhead] at hapart
  omega

/-- **A block of the bin** is handed out. -/
theorem Pooled.recycle (h : Pooled s) {length : UInt64} {e : Nat} {entries : List Nat}
    {capacity : Nat} (hbin : s.allocator.bin length = ⟨e :: entries, capacity⟩) :
    Pooled ⟨s.allocator.setBin length ⟨entries, capacity⟩, s.live ++ [e + overhead], s.taken⟩ := by
  have hmem : ∀ x ∈ e :: entries, (x, length) ∈ s.taken ∧ x + overhead ∉ s.live := by
    intro x hx
    exact h.binned length x (by rw [hbin]; exact hx)
  have hnodup : (e :: entries).Nodup := by
    have hdistinct := h.distinct length
    rwa [hbin] at hdistinct
  obtain ⟨hnew, hentries⟩ := List.nodup_cons.mp hnodup
  -- the block that is handed out is the only one that is held now and was not
  have hlive : ∀ x, x + overhead ∈ s.live ++ [e + overhead] ↔ x + overhead ∈ s.live ∨ x = e := by
    intro x
    rw [List.mem_append, List.mem_singleton]
    exact or_congr_right ⟨fun heq => Nat.add_right_cancel heq, fun heq => by rw [heq]⟩
  -- bins first, then what clients hold, then the places
  refine ⟨h.once, h.header, fun l x hx => ?_, fun l => ?_, ?_, fun m hm => ?_, fun b hb => ?_, fun l => ?_,
    fun b hb => mem_setBin.mpr (Or.inr (h.bins b hb)), h.fits⟩
  · dsimp only at hx ⊢
    rw [bin_setBin] at hx
    rw [hlive]
    split at hx
    · next hl =>
      subst hl
      obtain ⟨htaken, hnot⟩ := hmem x (List.mem_cons_of_mem _ hx)
      refine ⟨htaken, fun hor => ?_⟩
      rcases hor with hor | rfl
      · exact hnot hor
      · exact hnew hx
    · next hl =>
      obtain ⟨htaken, hnot⟩ := h.binned l x hx
      refine ⟨htaken, fun hor => ?_⟩
      rcases hor with hor | rfl
      · exact hnot hor
      · exact hl (h.length_eq htaken (hmem x List.mem_cons_self).1)
  · dsimp only
    rw [bin_setBin]
    split
    · exact hentries
    · exact h.distinct l
  · exact Lib.nodup_append_singleton h.held (hmem e List.mem_cons_self).2
  · rcases List.mem_append.mp hm with hm | hm
    · exact h.owned m hm
    · exact ⟨(e, length), (hmem e List.mem_cons_self).1, List.mem_singleton.mp hm⟩
  · dsimp only
    rw [hlive, bin_setBin]
    rcases h.placed b hb with hplaced | hplaced
    · exact Or.inl (Or.inl hplaced)
    · split
      · next hl =>
        rw [hl, hbin] at hplaced
        rcases List.mem_cons.mp hplaced with heq | hplaced
        · exact Or.inl (Or.inr heq)
        · exact Or.inr hplaced
      · exact Or.inr hplaced
  · dsimp only
    rw [bin_setBin]
    have hcapacity := h.capacity l
    split
    · next hl =>
      rw [hl, hbin] at hcapacity
      rw [hl]
      exact hcapacity
    · exact hcapacity

/-- **A call that throws** leaves everything where it was. -/
theorem Pooled.widen (h : Pooled s) {p : PoolAllocator} (hwidened : Widened s.allocator p) :
    Pooled ⟨p, s.live, s.taken⟩ where
  once := h.once
  header b hb := by
    dsimp only
    rw [hwidened.size]
    exact h.header b hb
  binned l e he := h.binned l e (hwidened.entries l ▸ he)
  distinct l := (hwidened.entries l).symm ▸ h.distinct l
  held := h.held
  owned := h.owned
  placed b hb := (hwidened.entries b.2).symm ▸ h.placed b hb
  capacity l := Nat.le_trans (h.capacity l) (hwidened.capacity l)
  bins b hb := hwidened.bins _ (h.bins b hb)
  fits := h.fits

/-- **A block is taken** from the underlying allocator, with a place in its bin. -/
theorem Pooled.take (h : Pooled s) {p : PoolAllocator} {length : UInt64} {e : Nat}
    (hwidened : Widened s.allocator p) (hlength : length ∈ p.free)
    (hcapacity : (s.allocator.bin length).capacity < (p.bin length).capacity)
    (hnew : e ∉ s.taken.map Prod.fst) (hfits : overhead + length.toNat < 2 ^ 64) :
    Pooled ⟨{ p with size := Function.update p.size e length }, s.live ++ [e + overhead],
      s.taken ++ [(e, length)]⟩ := by
  -- the entry is new, hence nobody holds it
  have hother : ∀ b ∈ s.taken, b.1 ≠ e := fun b hb heq => hnew (heq ▸ List.mem_map_of_mem hb)
  have hlive : e + overhead ∉ s.live := by
    intro hmem
    obtain ⟨b, hb, heq⟩ := h.owned _ hmem
    exact hother b hb (Nat.add_right_cancel heq.symm)
  have hbin : ∀ l, (⟨p.free, Function.update p.size e length⟩ : PoolAllocator).bin l = p.bin l := fun _ => rfl
  refine ⟨?_, fun b hb => ?_, fun l x hx => ?_, fun l => ?_, ?_, fun m hm => ?_, fun b hb => ?_,
    fun l => ?_, fun b hb => ?_, fun b hb => ?_⟩
  · rw [List.map_append]
    exact Lib.nodup_append_singleton h.once hnew
  · dsimp only
    rcases List.mem_append.mp hb with hb | hb
    · rw [Function.update_of_ne (hother b hb), hwidened.size]
      exact h.header b hb
    · rw [List.mem_singleton.mp hb]
      exact Function.update_self ..
  · rw [hbin, hwidened.entries] at hx
    obtain ⟨htaken, hnot⟩ := h.binned l x hx
    refine ⟨List.mem_append_left _ htaken, fun hmem => ?_⟩
    rcases List.mem_append.mp hmem with hmem | hmem
    · exact hnot hmem
    · exact hother _ htaken (Nat.add_right_cancel (List.mem_singleton.mp hmem))
  · rw [hbin, hwidened.entries]
    exact h.distinct l
  · exact Lib.nodup_append_singleton h.held hlive
  · rcases List.mem_append.mp hm with hm | hm
    · obtain ⟨b, hb, heq⟩ := h.owned m hm
      exact ⟨b, List.mem_append_left _ hb, heq⟩
    · exact ⟨(e, length), List.mem_append_right _ List.mem_cons_self, List.mem_singleton.mp hm⟩
  · rw [hbin, hwidened.entries]
    rcases List.mem_append.mp hb with hb | hb
    · exact (h.placed b hb).imp_left (List.mem_append_left _)
    · rw [List.mem_singleton.mp hb]
      exact Or.inl (List.mem_append_right _ List.mem_cons_self)
  · rw [hbin, List.filter_append, List.length_append]
    have hcount := h.capacity l
    by_cases hl : length = l
    · subst hl
      simp only [List.filter_cons_of_pos, decide_true, List.filter_nil, List.length_singleton]
      omega
    · have hle := hwidened.capacity l
      simp only [List.filter_cons_of_neg, hl, decide_false, Bool.false_eq_true, not_false_eq_true,
        List.filter_nil, List.length_nil]
      omega
  · rcases List.mem_append.mp hb with hb | hb
    · exact hwidened.bins _ (h.bins b hb)
    · rw [List.mem_singleton.mp hb]
      exact hlength
  · rcases List.mem_append.mp hb with hb | hb
    · exact h.fits b hb
    · rw [List.mem_singleton.mp hb]
      exact hfits

/-- What a client holds has a place in the bin of its size. -/
theorem Pooled.room (h : Pooled s) {b : Nat × UInt64} (hb : b ∈ s.taken) (hlive : b.1 + overhead ∈ s.live) :
    (s.allocator.bin b.2).entries.length < (s.allocator.bin b.2).capacity := by
  have hnodup : (b.1 :: (s.allocator.bin b.2).entries).Nodup :=
    List.nodup_cons.mpr ⟨fun hmem => (h.binned b.2 b.1 hmem).2 hlive, h.distinct b.2⟩
  -- the block and those in the bin are different blocks of one size: they all count
  have hsub : ∀ x ∈ b.1 :: (s.allocator.bin b.2).entries,
      x ∈ (s.taken.filter (·.2 = b.2)).map Prod.fst := by
    intro x hx
    rcases List.mem_cons.mp hx with rfl | hx
    · exact List.mem_map_of_mem (List.mem_filter.mpr ⟨hb, decide_eq_true rfl⟩)
    · exact List.mem_map.mpr ⟨(x, b.2), List.mem_filter.mpr ⟨(h.binned b.2 x hx).1, decide_eq_true rfl⟩, rfl⟩
  have hle := (hnodup.subperm hsub).length_le
  rw [List.length_cons, List.length_map] at hle
  exact Nat.lt_of_lt_of_le hle (h.capacity b.2)

/-- **`deallocate`** finds the bin and a place in it. -/
theorem Pooled.deallocate_eq (h : Pooled s) {b : Nat × UInt64} (hb : b ∈ s.taken)
    (hlive : b.1 + overhead ∈ s.live) :
    s.allocator.deallocate (b.1 + overhead) = some (s.allocator.setBin b.2
      ⟨b.1 :: (s.allocator.bin b.2).entries, (s.allocator.bin b.2).capacity⟩) := by
  obtain ⟨found, hfound⟩ := Option.isSome_iff_exists.mp (AList.lookup_isSome.mpr (h.bins b hb))
  have hbin : s.allocator.bin b.2 = found := by rw [bin, hfound, Option.getD_some]
  have hroom := h.room hb hlive
  rw [hbin] at hroom ⊢
  rw [deallocate, Nat.add_sub_cancel, h.header b hb, hfound, Option.bind_some, if_pos hroom]

/-- **A block is returned.** -/
theorem Pooled.putBack (h : Pooled s) {b : Nat × UInt64} (hb : b ∈ s.taken)
    (hlive : b.1 + overhead ∈ s.live) :
    Pooled ⟨s.allocator.setBin b.2
        ⟨b.1 :: (s.allocator.bin b.2).entries, (s.allocator.bin b.2).capacity⟩,
      s.live.erase (b.1 + overhead), s.taken⟩ := by
  have herase : ∀ m, m ∈ s.live.erase (b.1 + overhead) ↔ m ≠ b.1 + overhead ∧ m ∈ s.live := fun m =>
    h.held.mem_erase_iff
  refine ⟨h.once, h.header, fun l x hx => ?_, fun l => ?_, h.held.erase _, fun m hm => ?_, fun b' hb' => ?_,
    fun l => ?_, fun b' hb' => mem_setBin.mpr (Or.inr (h.bins b' hb')), h.fits⟩
  · dsimp only at hx ⊢
    rw [herase]
    rw [bin_setBin] at hx
    split at hx
    · next hl =>
      rcases List.mem_cons.mp hx with rfl | hx
      · exact ⟨hl ▸ hb, fun hand => hand.1 rfl⟩
      · obtain ⟨htaken, hnot⟩ := h.binned b.2 x hx
        exact ⟨hl ▸ htaken, fun hand => hnot hand.2⟩
    · obtain ⟨htaken, hnot⟩ := h.binned l x hx
      exact ⟨htaken, fun hand => hnot hand.2⟩
  · dsimp only
    rw [bin_setBin]
    split
    · exact List.nodup_cons.mpr ⟨fun hmem => (h.binned b.2 b.1 hmem).2 hlive, h.distinct b.2⟩
    · exact h.distinct l
  · exact h.owned m ((herase m).mp hm).2
  · dsimp only
    rw [herase, bin_setBin]
    rcases h.placed b' hb' with hplaced | hplaced
    · -- the block itself moves to its bin, another one stays
      by_cases heq : b'.1 = b.1
      · have hlength := h.length_eq hb (by rw [← heq]; exact hb' : (b.1, b'.2) ∈ s.taken)
        rw [if_pos hlength.symm, heq]
        exact Or.inr List.mem_cons_self
      · exact Or.inl ⟨fun h' => heq (Nat.add_right_cancel h'), hplaced⟩
    · split
      · next hl =>
        rw [hl] at hplaced
        exact Or.inr (List.mem_cons_of_mem _ hplaced)
      · exact Or.inr hplaced
  · dsimp only
    rw [bin_setBin]
    split
    · next hl =>
      rw [hl]
      exact h.capacity b.2
    · exact h.capacity l

/-- **Every action** that takes nothing for a wrapped sum keeps the accounts. -/
theorem Pooled.step {s' : Pool} {a : PoolAction} (h : Pooled s) (hfits : Fits a)
    (hstep : s.step a = some s') : Pooled s' := by
  unfold Pool.step at hstep
  split at hstep
  · next hallowed =>
    cases a with
    | allocate length supply =>
      obtain rfl := Option.some.inj hstep
      -- from the bin, with an exception, or from the underlying allocator
      rcases allocate_cases s length supply with ⟨e, entries, capacity, hbin, heq, htakes⟩ |
        ⟨_, htakes, p, heq, hwidened⟩ | ⟨_, e, p, ⟨slack, rfl⟩, htakes, heq, hwidened, hlength, hcapacity⟩
      · rw [heq, htakes, List.append_nil]
        exact h.recycle hbin
      · rw [heq, htakes, List.append_nil, Option.toList_none, List.append_nil]
        exact h.widen hwidened
      · rw [heq, htakes]
        exact h.take hwidened hlength hcapacity (h.entry_new hallowed hfits) hfits
    | deallocate memory =>
      obtain ⟨b, hb, rfl⟩ := h.owned memory hallowed
      obtain ⟨p, hp, rfl⟩ := Option.map_eq_some_iff.mp hstep
      cases (h.deallocate_eq hb hallowed).symm.trans hp
      exact h.putBack hb hallowed
  · cases hstep

/-- **The destructor** gives back what is in the bins, once each. -/
theorem Pooled.accounted (h : Pooled s) : Accounted s where
  capacity := h.capacity
  once := by
    refine List.nodup_flatMap.mpr ⟨fun l _ => h.distinct l, ?_⟩
    refine List.Pairwise.imp (fun {l l'} hne => ?_) s.allocator.free.keys_nodup
    intro e he he'
    exact hne (h.length_eq (h.binned l e he).1 (h.binned l' e he').1)
  freed e := by
    rw [PoolAllocator.destroy, List.mem_flatMap]
    constructor
    · rintro ⟨l, _, he⟩
      obtain ⟨htaken, hnot⟩ := h.binned l e he
      exact ⟨List.mem_map_of_mem htaken, hnot⟩
    · rintro ⟨htaken, hnot⟩
      obtain ⟨b, hb, rfl⟩ := List.mem_map.mp htaken
      exact ⟨b.2, AList.mem_keys.mp (h.bins b hb), (h.placed b hb).resolve_left hnot⟩

/-- **Every call** on good accounts is as it should be. -/
theorem Pooled.right (h : Pooled s) {a : PoolAction} (hfits : Fits a) (hallowed : s.Allowed a) :
    s.Right a := by
  cases a with
  | allocate length supply =>
    rw [Right]
    rcases allocate_cases s length supply with ⟨e, entries, capacity, hbin, heq, htakes⟩ |
      ⟨_, htakes, p, heq, hwidened⟩ | ⟨_, e, p, ⟨slack, rfl⟩, htakes, heq, hwidened, hlength, hcapacity⟩
    · have hbinned := h.binned length e (by rw [hbin]; exact List.mem_cons_self)
      rw [heq]
      refine ⟨fun memory hmemory => ?_, fun hnone => ?_⟩
      · obtain rfl := Option.some.inj hmemory
        exact ⟨hbinned.2, e, rfl, List.mem_append_left _ hbinned.1⟩
      · cases hnone
    · rw [heq]
      refine ⟨fun memory hmemory => ?_, fun _ => ⟨htakes, hwidened⟩⟩
      cases hmemory
    · rw [heq, htakes]
      refine ⟨fun memory hmemory => ?_, fun hnone => ?_⟩
      · obtain rfl := Option.some.inj hmemory
        refine ⟨fun hlive => ?_, e, rfl, List.mem_append_right _ List.mem_cons_self⟩
        obtain ⟨b, hb, heq'⟩ := h.owned _ hlive
        exact h.entry_new hallowed hfits (Nat.add_right_cancel heq' ▸ List.mem_map_of_mem hb)
      · cases hnone
  -- what is returned is held, so it was taken and has a place
  | deallocate memory =>
    obtain ⟨b, hb, rfl⟩ := h.owned memory hallowed
    rw [Right, h.deallocate_eq hb hallowed]
    rfl

end

/-- **The pool is safe**: after any calls that take no block for a wrapped sum the accounts are right,
    and so is the next such call. -/
theorem pool_allocator_safe (actions : List PoolAction) (s : Pool)
    (hrun : Lib.run Pool.step new actions = some s) (hfits : ∀ a ∈ actions, Fits a) :
    Accounted s ∧ ∀ a, Fits a → s.Allowed a → s.Right a := by
  have h : Pooled s :=
    Lib.run_invariant_on (fun _ _ _ hfits h hstep => h.step hfits hstep) actions new s hfits new_pooled hrun
  exact ⟨h.accounted, fun a hfits hallowed => h.right hfits hallowed⟩

/-- A block is taken, returned and handed out again, beside one whose allocation failed. -/
theorem pool_allocator_safe_recycled :
    let actions : List PoolAction := [.allocate 24 (.returns 100 0), .deallocate 108,
      .allocate 16 (.allocateThrows 3), .allocate 24 .insertThrows, .allocate 24 (.returns 200 1),
      .deallocate 108]
    ∃ s, Lib.run Pool.step new actions = some s ∧ s.live = [208] ∧ s.allocator.destroy = [100] ∧
      Accounted s ∧ s.Right (.allocate 24 (.returns 300 0)) := by
  intro actions
  refine ⟨_, rfl, rfl, rfl, ?_⟩
  have hsafe := pool_allocator_safe actions _ rfl (by decide)
  exact ⟨hsafe.1, hsafe.2 _ (by decide) (by decide)⟩

/-- **The sum wraps**: for `2 ^ 64 - 8` bytes the underlying allocator is asked for none, what it gives
    has no byte, and the next block starts at the same place: the block a client holds is handed out
    again. -/
theorem length_wraps :
    let huge : UInt64 := 18446744073709551608
    requested huge = 0 ∧
    ∃ s, Lib.run Pool.step new [.allocate huge (.returns 1000 0)] = some s ∧ s.live = [1008] ∧
      s.Allowed (.allocate 24 (.returns 1000 0)) ∧ ¬ s.Right (.allocate 24 (.returns 1000 0)) := by
  intro huge
  refine ⟨by decide, _, rfl, rfl, by decide, fun h => ?_⟩
  exact (h.1 1008 rfl).1 List.mem_cons_self

end Pool

end MicroProfiler
