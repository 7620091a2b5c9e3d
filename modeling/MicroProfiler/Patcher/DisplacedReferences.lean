/-
  `offset_displaced_references` of `patcher/src/intel/binary_translation_x86.cpp`, in the 64-bit build:
  jumps into a region that moved are made to go where it moved to.

  1. **The code** — displacements are edited while the source is walked, each after its bytes went to
     the revert buffer.  A short jump into the region cannot be edited: everything in the buffer is
     restored then, and the buffer is emptied.

  2. **One walk** (`offsetLoop_edited`, `offsetLoop_arrives`) — `Reaches` is the walk over the bytes as
     they were: edits stay behind it.  What is edited, and where the walk stops, is read off it.

  3. **All or nothing** (`offset_displaced_references_atomic`) — the buffer may hold entries of earlier
     calls, and a call that throws restores and drops these too: it is atomic EXACTLY WHEN the buffer
     was empty or nothing makes it throw.
-/
import MicroProfiler.Patcher.BinaryTranslation

namespace MicroProfiler

open Lib (Memory)
open Lib.Memory (SameOutside signed32 leBytes leValue)

/-- `revert_entry`: bytes as they were, and where. -/
structure RevertEntry where
  start : Int
  original : List UInt8
deriving DecidableEq, Repr

/-- `revert_entry::revert_entry` -/
def RevertEntry.of (m : Memory UInt8) (a : Int) (length : Nat) : RevertEntry := ⟨a, m.load a length⟩

/-- `revert_entry::restore` -/
def RevertEntry.restore (e : RevertEntry) (m : Memory UInt8) : Memory UInt8 :=
  m.store e.start e.original

/-- Entries restored one after another.  Where they overlap the last one counts. -/
def restoreAll (es : List RevertEntry) (m : Memory UInt8) : Memory UInt8 :=
  es.foldl (fun m e => e.restore m) m

namespace Translation

/-- What a call works on: the revert buffer and the code. -/
structure Rewriting where
  /-- also with entries of earlier calls -/
  rbuffer : List RevertEntry
  code : Memory UInt8

/-- The visitor of `offset_displaced_references`.  A displacement is saved before it is edited; a
    short one cannot be made to reach. -/
def offsetVisitor (region : CodeRange) (delta : Int) : DisplacementVisitor Rewriting where
  visitByte a s :=
    if region.inside (shortTarget s.code a) then
      .error (.thrown (.offsetProhibited "short relative jump to a moved range"))
    else .ok s
  visitDword a s :=
    if region.inside (nearTarget s.code a) then
      .ok ⟨s.rbuffer ++ [.of s.code a 4], addDword s.code a delta⟩
    else .ok s

/-- The loop of `offset_displaced_references`: how it ended, and what it left. -/
def offsetLoop (region : CodeRange) (delta : Int) :
    Nat → InstructionIterator → Rewriting → Option Fault × Rewriting
  | 0, _, s => (some .diverges, s)
  | fuel + 1, i, s =>
      match i.fetch s.code with
      | .error e => (some e, s)
      | .ok none => (none, s)
      | .ok (some i) =>
          -- calls are left alone
          if s.code i.ptr = 0xE8 then offsetLoop region delta fuel i s
          else
            match visitInstruction (offsetVisitor region delta) s.code i.ptr s with
            | .error e => (some e, s)
            | .ok s => offsetLoop region delta fuel i s

/-- `offset_displaced_references`.  What is caught is an exception; a walk that goes on forever is
    not. -/
def offsetDisplacedReferences (s : Rewriting) (source region : CodeRange) (displacedTo : Int) :
    Option Fault × Rewriting :=
  match offsetLoop region (displacedTo - region.start) (source.length + 1)
      ⟨source.start, source.length, 0⟩ s with
  | (some (.thrown e), s) => (some (.thrown e), ⟨[], restoreAll s.rbuffer s.code⟩)
  | result => result

/-! ## The walk -/

/-- The walk over `n` bytes of code at `a` comes to `b`, with `r` bytes left.  Lengths are kept in a
    byte, so an instruction of 256 bytes would be met again. -/
inductive Reaches (m : Memory UInt8) : Int → Nat → Int → Nat → Prop
  | refl (a : Int) (n : Nat) : Reaches m a n a n
  | step {a b : Int} {n k r : Nat} (hleft : 0 < n) (hlength : ldisasm true (codeAt m a) = some k)
      (hfits : k % 256 ≤ n) (hrest : Reaches m (a + (k % 256 : Nat)) (n - k % 256) b r) :
      Reaches m a n b r

/-- Where the displacement of the instruction at `a` is, if that is a near jump into the region. -/
def jumpInto (m : Memory UInt8) (region : CodeRange) (a : Int) : Option Nat :=
  if m a = 0xE8 then none
  else (nearDisplacement m a).filter fun i => region.inside (nearTarget m (a + i))

/-- The instruction at `a` is a short jump into the region. -/
def shortInto (m : Memory UInt8) (region : CodeRange) (a : Int) : Bool :=
  isShortBranch (m a) && region.inside (shortTarget m (a + 1))

/-- The walk meets a short jump into the region, or an instruction that goes past the end. -/
def Offends (m : Memory UInt8) (region : CodeRange) (a : Int) (n : Nat) : Prop :=
  ∃ b r, Reaches m a n b r ∧ 0 < r ∧
    (shortInto m region b = true ∨ ∃ k, ldisasm true (codeAt m b) = some k ∧ r < k % 256)

/-- The iterator is at `a` with `n` bytes left, and from there on the code is as it was. -/
structure Ahead (m : Memory UInt8) (a : Int) (n : Nat) (i : InstructionIterator) (s : Rewriting) :
    Prop where
  place : i.ptr + i.current = a
  left : i.remaining = i.current + n
  /-- edits lie behind the walk -/
  intact : ∀ x, a ≤ x → s.code x = m x

/-- What the visit of the instruction at `a` makes of the state, told from the code as it was. -/
def edit (m : Memory UInt8) (region : CodeRange) (delta a : Int) (s : Rewriting) : Rewriting :=
  match jumpInto m region a with
  | none => s
  | some i => ⟨s.rbuffer ++ [.of m (a + i) 4], addDword s.code (a + i) delta⟩

/-- A near jump, no call, into the region. -/
theorem jumpInto_eq_some {m : Memory UInt8} {region : CodeRange} {a : Int} {i : Nat} :
    jumpInto m region a = some i ↔
      m a ≠ 0xE8 ∧ nearDisplacement m a = some i ∧ region.inside (nearTarget m (a + i)) = true := by
  unfold jumpInto
  split
  · next hcall => simp only [reduceCtorEq, ne_eq, hcall, not_true_eq_false, false_and]
  · next hcall => simp only [Option.filter_eq_some_iff, ne_eq, hcall, not_false_eq_true, true_and]

section

variable {m : Memory UInt8} {region : CodeRange} {delta a : Int} {n : Nat} {i : InstructionIterator}
  {s : Rewriting}

/-- Nothing is left. -/
theorem fetch_done (h : Ahead m a 0 i s) : i.fetch s.code = .ok none := fetch_nil h.left s.code

/-- What is fetched is as it was. -/
theorem Ahead.codeAt_eq (h : Ahead m a n i s) : codeAt s.code a = codeAt m a :=
  funext fun j => h.intact _ (by omega)

/-- The next instruction, while there are bytes left. -/
theorem fetch_next (h : Ahead m a n i s) (hleft : 0 < n) :
    i.fetch s.code =
      match ldisasm true (codeAt m a) with
      | none => .error .diverges
      | some k =>
          if n < k % 256 then
            .error (.thrown (.inconsistentFunctionRange "attempt to read past the function body"))
          else .ok (some ⟨a, n, k % 256⟩) := by
  have hremaining : i.remaining - i.current = n := by
    have hleft := h.left
    omega
  rw [InstructionIterator.fetch, if_neg (by have hsome := h.left; omega), h.place]
  dsimp only
  rw [h.codeAt_eq]
  cases ldisasm true (codeAt m a) with
  | none => rfl
  | some k =>
    -- an instruction that goes past the end is one that throws
    dsimp only
    rw [hremaining]

/-- A near jump ends with its displacement. -/
theorem jumpInto_length {k j : Nat} (hjump : jumpInto m region a = some j)
    (hlength : ldisasm true (codeAt m a) = some k) : k % 256 = j + 4 := by
  have hnear := (jumpInto_eq_some.mp hjump).2.1
  have hk := length_of_nearDisplacement hnear hlength
  have hle : j ≤ 2 := by
    unfold nearDisplacement at hnear
    split at hnear
    · cases hnear
      omega
    · split at hnear
      · cases hnear
        omega
      · cases hnear
  omega

variable (region delta s) in
/-- The edit of an instruction stays inside of it. -/
theorem edit_sameOutside {k : Nat} (hlength : ldisasm true (codeAt m a) = some k) :
    SameOutside a (a + (k % 256 : Nat)) s.code (edit m region delta a s).code := by
  unfold edit
  split
  · exact fun _ _ => rfl
  · next i hi =>
    have hk := jumpInto_length hi hlength
    exact (addDword_sameOutside _ _ _).mono (by omega) (by omega)

variable (region delta) in
/-- After an instruction the code ahead is as it was: the edit lies within the instruction. -/
theorem Ahead.next {k : Nat} (h : Ahead m a n i s) (hlength : ldisasm true (codeAt m a) = some k)
    (hfits : k % 256 ≤ n) :
    Ahead m (a + (k % 256 : Nat)) (n - k % 256) ⟨a, n, k % 256⟩ (edit m region delta a s) where
  place := rfl
  left := (Nat.add_sub_of_le hfits).symm
  intact x hx := (edit_sameOutside region delta s hlength x (Or.inr hx)).trans (h.intact x (by omega))

/-- The visit of an instruction that is no call. -/
theorem visit_offset (h : Ahead m a n i s) (hcall : m a ≠ 0xE8) :
    visitInstruction (offsetVisitor region delta) s.code a s =
      if shortInto m region a then
        .error (.thrown (.offsetProhibited "short relative jump to a moved range"))
      else .ok (edit m region delta a s) := by
  have hop : s.code a = m a := h.intact a (Int.le_refl a)
  have hnear : nearDisplacement s.code a = nearDisplacement m a :=
    nearDisplacement_congr hop fun _ => h.intact _ (by omega)
  rw [visitInstruction_eq, hop, hnear]
  cases hshort : isShortBranch (m a) with
  | true =>
    -- short: it throws, or is left alone
    have htarget : shortTarget s.code (a + 1) = shortTarget m (a + 1) :=
      shortTarget_congr (h.intact _ (by omega))
    have hplain : edit m region delta a s = s := by
      rw [edit, jumpInto, nearDisplacement_of_short hshort, Option.filter_none, ite_self]
    simp only [if_true, offsetVisitor, htarget, shortInto, hshort, Bool.true_and, hplain]
  | false =>
    simp only [Bool.false_eq_true, if_false, shortInto, hshort, Bool.false_and, edit, jumpInto, hcall]
    cases nearDisplacement m a with
    | none => rfl
    | some j =>
      have hload : s.code.load (a + j) 4 = m.load (a + j) 4 :=
        Memory.load_congr fun x _ => h.intact _ (by omega)
      simp only [offsetVisitor, nearTarget_congr hload, Option.filter_some, RevertEntry.of, hload]
      cases region.inside (nearTarget m (a + j)) with
      | true => rfl
      | false => rfl

/-- **One turn of the loop**, while there are bytes left: all that it does, in terms of the code as
    it was. -/
theorem offsetLoop_next (h : Ahead m a n i s) (hleft : 0 < n) (fuel : Nat) :
    offsetLoop region delta (fuel + 1) i s =
      match ldisasm true (codeAt m a) with
      | none => (some .diverges, s)
      | some k =>
          if n < k % 256 then
            (some (.thrown (.inconsistentFunctionRange "attempt to read past the function body")), s)
          else if shortInto m region a then
            (some (.thrown (.offsetProhibited "short relative jump to a moved range")), s)
          else offsetLoop region delta fuel ⟨a, n, k % 256⟩ (edit m region delta a s) := by
  rw [offsetLoop, fetch_next h hleft]
  cases ldisasm true (codeAt m a) with
  | none => rfl
  | some k =>
    dsimp only
    by_cases hpast : n < k % 256
    · rw [if_pos hpast, if_pos hpast]
    · rw [if_neg hpast, if_neg hpast]
      dsimp only
      rw [h.intact a (Int.le_refl a)]
      -- a call is passed over, which is an edit of nothing
      by_cases hcall : m a = 0xE8
      · have hshort : shortInto m region a = false := by
          rw [shortInto, hcall]
          rfl
        have hplain : edit m region delta a s = s := by
          rw [edit, jumpInto, if_pos hcall]
        rw [if_pos hcall, hshort, hplain, if_neg Bool.false_ne_true]
      · rw [if_neg hcall, visit_offset h hcall]
        cases shortInto m region a with
        | true => rfl
        | false => rfl

/-! ## The loop -/

/-- **Edits.**  The entries `added` to the buffer are the displacements of jumps into the region that
    the walk met, and nothing else was changed. -/
structure Edited (m : Memory UInt8) (region : CodeRange) (a : Int) (n : Nat) (s s' : Rewriting)
    (added : List RevertEntry) : Prop where
  /-- entries are added at the end -/
  rbuffer : s'.rbuffer = s.rbuffer ++ added
  /-- one for each displacement met -/
  entries : ∀ e ∈ added, ∃ b r i, Reaches m a n b r ∧ 0 < r ∧ jumpInto m region b = some i ∧
    e = .of m (b + i) 4
  /-- nothing else is touched -/
  frame : ∀ x, s'.code x ≠ s.code x → a ≤ x ∧ ∃ e ∈ added, e.start ≤ x ∧ x < e.start + 4

/-- Nothing was met. -/
theorem edited_refl (m : Memory UInt8) (region : CodeRange) (a : Int) (n : Nat) (s : Rewriting) :
    Edited m region a n s s [] :=
  ⟨(List.append_nil _).symm, fun _ he => absurd he List.not_mem_nil, fun _ hx => absurd rfl hx⟩

/-- The first instruction is edited, then the rest. -/
theorem Edited.step {k : Nat} {s' : Rewriting} {added : List RevertEntry} (hleft : 0 < n)
    (hlength : ldisasm true (codeAt m a) = some k) (hfits : k % 256 ≤ n)
    (h : Edited m region (a + (k % 256 : Nat)) (n - k % 256) (edit m region delta a s) s' added) :
    ∃ added', Edited m region a n s s' added' := by
  have hrest : ∀ e ∈ added, ∃ b r i, Reaches m a n b r ∧ 0 < r ∧ jumpInto m region b = some i ∧
      e = .of m (b + i) 4 := by
    intro e he
    obtain ⟨b, r, i, hreaches, hrest⟩ := h.entries e he
    exact ⟨b, r, i, .step hleft hlength hfits hreaches, hrest⟩
  have hframe := edit_sameOutside region delta s hlength
  cases hjump : jumpInto m region a with
  | none =>
    -- no jump into the region
    have hplain : edit m region delta a s = s := by rw [edit, hjump]
    rw [hplain] at h
    refine ⟨added, h.rbuffer, hrest, fun x hx => ?_⟩
    obtain ⟨hlo, he⟩ := h.frame x hx
    exact ⟨by omega, he⟩
  | some j =>
    -- one more entry, in front of the rest
    have hedit : edit m region delta a s =
        ⟨s.rbuffer ++ [.of m (a + j) 4], addDword s.code (a + j) delta⟩ := by rw [edit, hjump]
    refine ⟨.of m (a + j) 4 :: added, ?_, fun e he => ?_, fun x hx => ?_⟩
    · rw [h.rbuffer, hedit, List.append_assoc]
      rfl
    · rcases List.mem_cons.mp he with rfl | he
      · exact ⟨a, n, j, .refl a n, hleft, hjump, rfl⟩
      · exact hrest e he
    · by_cases hlater : s'.code x = (edit m region delta a s).code x
      · rw [hlater, hedit] at hx
        by_cases hin : x < a + j ∨ a + j + 4 ≤ x
        · exact absurd (addDword_sameOutside _ _ _ x hin) hx
        · exact ⟨by omega, _, List.mem_cons_self, by dsimp only [RevertEntry.of]; omega⟩
      · obtain ⟨hlo, e, he, hin⟩ := h.frame x hlater
        exact ⟨by omega, e, List.mem_cons_of_mem _ he, hin⟩

variable (region delta) in
/-- **The loop edits**, with any fuel and however it ends.  By induction on the fuel: an instruction,
    then the rest, of which the edits lie ahead. -/
theorem offsetLoop_edited : ∀ (fuel : Nat) {a : Int} {n : Nat} {i : InstructionIterator} {s : Rewriting},
    Ahead m a n i s → ∃ added, Edited m region a n s (offsetLoop region delta fuel i s).2 added
  | 0, a, n, i, s, _ => ⟨[], edited_refl m region a n s⟩
  | fuel + 1, a, n, i, s, h => by
    rcases Nat.eq_zero_or_pos n with rfl | hleft
    · rw [offsetLoop, fetch_done h]
      exact ⟨[], edited_refl m region a 0 s⟩
    · rw [offsetLoop_next h hleft]
      cases hlength : ldisasm true (codeAt m a) with
      | none => exact ⟨[], edited_refl m region a n s⟩
      | some k =>
        dsimp only
        split
        · -- past the end: it throws
          exact ⟨[], edited_refl m region a n s⟩
        · next hpast =>
          split
          · exact ⟨[], edited_refl m region a n s⟩
          · have hfits : k % 256 ≤ n := by omega
            obtain ⟨added, hadded⟩ := offsetLoop_edited fuel (h.next region delta hlength hfits)
            exact hadded.step hleft hlength hfits

/-- **The loop arrives** wherever the walk does, unless it throws before. -/
theorem offsetLoop_arrives {b : Int} {r : Nat} (hreaches : Reaches m a n b r) :
    ∀ {fuel : Nat} {i : InstructionIterator} {s : Rewriting}, n < fuel → Ahead m a n i s →
      (∃ e, (offsetLoop region delta fuel i s).1 = some (.thrown e)) ∨
      ∃ fuel' i' s', r < fuel' ∧ Ahead m b r i' s' ∧
        offsetLoop region delta fuel i s = offsetLoop region delta fuel' i' s' := by
  induction hreaches with
  | refl a n => exact fun {fuel i s} hfuel h => Or.inr ⟨fuel, i, s, hfuel, h, rfl⟩
  | @step a b n k r hleft hlength hfits hrest ih =>
    intro fuel i s hfuel h
    by_cases hstuck : k % 256 = 0
    · -- a length of zero in its byte: the walk is where it was
      rw [hstuck] at ih
      exact ih (by omega) ⟨by rw [h.place]; simp, h.left, fun x hx => h.intact x (by simpa using hx)⟩
    · -- a turn that throws, or takes the walk on
      obtain ⟨fuel, rfl⟩ : ∃ f, fuel = f + 1 := ⟨fuel - 1, by omega⟩
      rw [offsetLoop_next h hleft, hlength]
      dsimp only
      rw [if_neg (by omega)]
      split
      · exact Or.inl ⟨_, rfl⟩
      · exact ih (by omega) (h.next region delta hlength hfits)

/-- A loop that throws met something to throw at: the end of the range, or a short jump. -/
theorem offends_of_thrown : ∀ (fuel : Nat) {a : Int} {n : Nat} {i : InstructionIterator} {s : Rewriting}
    {e : TranslationException}, Ahead m a n i s →
    (offsetLoop region delta fuel i s).1 = some (.thrown e) → Offends m region a n
  | 0, _, _, _, _, _, _, hthrown => by cases hthrown
  | fuel + 1, a, n, i, s, e, h, hthrown => by
    rcases Nat.eq_zero_or_pos n with rfl | hleft
    · rw [offsetLoop, fetch_done h] at hthrown
      cases hthrown
    · rw [offsetLoop_next h hleft] at hthrown
      cases hlength : ldisasm true (codeAt m a) with
      | none =>
        rw [hlength] at hthrown
        cases hthrown
      | some k =>
        rw [hlength] at hthrown
        dsimp only at hthrown
        split at hthrown
        · next hpast => exact ⟨a, n, .refl a n, hleft, Or.inr ⟨k, hlength, hpast⟩⟩
        · next hpast =>
          split at hthrown
          · next hshort => exact ⟨a, n, .refl a n, hleft, Or.inl hshort⟩
          · have hfits : k % 256 ≤ n := by omega
            obtain ⟨b, r, hreaches, hrest⟩ := offends_of_thrown fuel (h.next region delta hlength hfits) hthrown
            exact ⟨b, r, .step hleft hlength hfits hreaches, hrest⟩

variable (delta) in
/-- **When the loop throws**: on the way there is something to throw at. -/
theorem offsetLoop_thrown_iff {fuel : Nat} (hfuel : n < fuel) (h : Ahead m a n i s) :
    (∃ e, (offsetLoop region delta fuel i s).1 = some (.thrown e)) ↔ Offends m region a n := by
  refine ⟨fun ⟨e, he⟩ => offends_of_thrown fuel h he, ?_⟩
  rintro ⟨b, r, hreaches, hleft, hoffence⟩
  rcases offsetLoop_arrives hreaches hfuel h with hthrown | ⟨fuel', i', s', hfuel', h', heq⟩
  · exact hthrown
  · obtain ⟨fuel', rfl⟩ : ∃ f, fuel' = f + 1 := ⟨fuel' - 1, by omega⟩
    rw [heq, offsetLoop_next h' hleft]
    rcases hoffence with hshort | ⟨k, hlength, hpast⟩
    · have htwo : ldisasm true (codeAt m b) = some 2 := by
        rw [shortInto, Bool.and_eq_true, ← codeAt_zero m b] at hshort
        exact ldisasm_shortBranch true hshort.1
      rw [htwo]
      simp only [hshort, if_true]
      split
      · exact ⟨_, rfl⟩
      · exact ⟨_, rfl⟩
    · rw [hlength]
      dsimp only
      rw [if_pos hpast]
      exact ⟨_, rfl⟩

/-- A loop that comes to the end passes every instruction, with an edit. -/
theorem offsetLoop_passes {fuel : Nat} (h : Ahead m a n i s) (hleft : 0 < n)
    (hdone : (offsetLoop region delta (fuel + 1) i s).1 = none) :
    ∃ k, ldisasm true (codeAt m a) = some k ∧ k % 256 ≤ n ∧
      offsetLoop region delta (fuel + 1) i s =
        offsetLoop region delta fuel ⟨a, n, k % 256⟩ (edit m region delta a s) := by
  rw [offsetLoop_next h hleft] at hdone ⊢
  cases hlength : ldisasm true (codeAt m a) with
  | none =>
    rw [hlength] at hdone
    cases hdone
  | some k =>
    rw [hlength] at hdone
    dsimp only at hdone ⊢
    split at hdone
    · cases hdone
    · next hpast =>
      split at hdone
      · cases hdone
      · next hshort =>
        rw [if_neg hpast, if_neg hshort]
        exact ⟨k, rfl, by omega, rfl⟩

/-- **A loop that comes to the end** has the distance added to every displacement of a jump into the
    region. -/
theorem offsetLoop_redirects {fuel : Nat} (hfuel : n < fuel) (h : Ahead m a n i s)
    (hdone : (offsetLoop region delta fuel i s).1 = none) {b : Int} {r j : Nat}
    (hreaches : Reaches m a n b r) (hleft : 0 < r) (hjump : jumpInto m region b = some j) :
    (offsetLoop region delta fuel i s).2.code.load (b + j) 4 =
      leBytes 4 ((leValue (m.load (b + j) 4) + delta) % 0x100000000).toNat := by
  rcases offsetLoop_arrives hreaches hfuel h with ⟨e, he⟩ | ⟨fuel', i', s', hfuel', h', heq⟩
  · -- it did not throw, so it arrives at the jump
    rw [hdone] at he
    cases he
  · obtain ⟨fuel', rfl⟩ : ∃ f, fuel' = f + 1 := ⟨fuel' - 1, by omega⟩
    rw [heq] at hdone ⊢
    obtain ⟨k, hlength, hfits, hnext⟩ := offsetLoop_passes h' hleft hdone
    obtain ⟨_, hedited⟩ := offsetLoop_edited region delta fuel' (h'.next region delta hlength hfits)
    have hk := jumpInto_length hjump hlength
    have hlater : (offsetLoop region delta (fuel' + 1) i' s').2.code.load (b + j) 4 =
        (edit m region delta b s').code.load (b + j) 4 := by
      rw [hnext]
      refine Memory.load_congr fun x hx => ?_
      by_contra hne
      have hlo := (hedited.frame _ hne).1
      omega
    have hbefore : s'.code.load (b + j) 4 = m.load (b + j) 4 :=
      Memory.load_congr fun x _ => h'.intact _ (by omega)
    have hstored := Memory.load_store s'.code (b + j)
      (leBytes 4 ((leValue (s'.code.load (b + j) 4) + delta) % 0x100000000).toNat)
    rw [Memory.length_leBytes, hbefore] at hstored
    rw [hlater, edit, hjump]
    dsimp only
    rw [addDword, hbefore]
    exact hstored

end

/-! ## Restoring -/

/-- A saved entry puts back its bytes, and only these. -/
theorem restore_of (m m' : Memory UInt8) (a : Int) (n : Nat) (x : Int) :
    (RevertEntry.of m a n).restore m' x = if a ≤ x ∧ x < a + n then m x else m' x := by
  unfold RevertEntry.restore RevertEntry.of
  split
  · next hin =>
    obtain ⟨i, rfl⟩ : ∃ i : Nat, x = a + i := ⟨(x - a).toNat, by omega⟩
    have hi : i < n := by omega
    have hstored := Memory.store_inside (m.load a n) m' a i (by rw [Memory.length_load]; exact hi)
    rw [Memory.getElem?_load m a hi] at hstored
    exact Option.some.inj hstored
  · next hout =>
    refine Memory.store_sameOutside (m.load a n) m' a x ?_
    rw [Memory.length_load]
    omega

/-- **Entries saved from `m` give `m` back**, in any order, if they cover what was changed.  By
    recursion on the entries: what one puts back needs no other. -/
theorem restoreAll_eq {m : Memory UInt8} : ∀ (es : List RevertEntry) (m' : Memory UInt8),
    (∀ e ∈ es, ∃ a, e = .of m a 4) →
    (∀ x, m' x ≠ m x → ∃ e ∈ es, e.start ≤ x ∧ x < e.start + 4) → restoreAll es m' = m
  | [], m', _, hcover => by
    funext x
    by_contra hne
    obtain ⟨e, he, _⟩ := hcover x hne
    exact absurd he List.not_mem_nil
  | e :: es, m', hsaved, hcover => by
    obtain ⟨a, rfl⟩ := hsaved e List.mem_cons_self
    refine restoreAll_eq es _ (fun e he => hsaved e (List.mem_cons_of_mem _ he)) fun x hne => ?_
    dsimp only at hne
    rw [restore_of] at hne
    split at hne
    · exact absurd rfl hne
    · next hout =>
      obtain ⟨e, he, hin⟩ := hcover x hne
      rcases List.mem_cons.mp he with rfl | he
      · exact absurd hin hout
      · exact ⟨e, he, hin⟩

/-! ## All or nothing -/

/-- Every jump into the region reaches where that went with 32 bits.  The code does not look whether
    it does. -/
def WithinReach (m : Memory UInt8) (source region : CodeRange) (displacedTo : Int) : Prop :=
  ∀ b r i, Reaches m source.start source.length b r → 0 < r → jumpInto m region b = some i →
    Fits32 (sdword m (b + i) + (displacedTo - region.start))

/-- The effect of a call that succeeds. -/
structure Displaced (s s' : Rewriting) (source region : CodeRange) (displacedTo : Int)
    (added : List RevertEntry) : Prop where
  /-- entries are added to those there were -/
  rbuffer : s'.rbuffer = s.rbuffer ++ added
  /-- only displacements of jumps into the region change -/
  frame : ∀ x, s'.code x ≠ s.code x → ∃ b r i, Reaches s.code source.start source.length b r ∧ 0 < r ∧
    jumpInto s.code region b = some i ∧ b + i ≤ x ∧ x < b + i + 4
  /-- and go where the region went -/
  resolves : ∀ b r i, Reaches s.code source.start source.length b r → 0 < r →
    jumpInto s.code region b = some i →
    nearTarget s'.code (b + i) = displacedTo + (nearTarget s.code (b + i) - region.start)
  /-- the entries undo it, in any order -/
  restores : ∀ order, order.Perm added → restoreAll order s'.code = s.code

/-- A call changes nothing or all it should. -/
structure Atomic (s : Rewriting) (source region : CodeRange) (displacedTo : Int)
    (result : Option Fault × Rewriting) : Prop where
  /-- the buffer too is as it was -/
  thrown : ∀ e, result.1 = some (.thrown e) → result.2 = s
  done : result.1 = none → ∃ added, Displaced s result.2 source region displacedTo added

section

variable {s : Rewriting} {source region : CodeRange} {displacedTo : Int}

/-- The loop begins with the whole range ahead. -/
theorem ahead_start (s : Rewriting) (source : CodeRange) :
    Ahead s.code source.start source.length ⟨source.start, source.length, 0⟩ s :=
  ⟨Int.add_zero _, (Nat.zero_add _).symm, fun _ _ => rfl⟩

/-- The entries of a call, and what they cover. -/
theorem Edited.restores {s' : Rewriting} {a : Int} {n : Nat} {added : List RevertEntry}
    (h : Edited s.code region a n s s' added) {order : List RevertEntry} (horder : order.Perm added) :
    restoreAll order s'.code = s.code := by
  refine restoreAll_eq order s'.code (fun e he => ?_) fun x hx => ?_
  · obtain ⟨b, _, i, _, _, _, rfl⟩ := h.entries e (horder.mem_iff.mp he)
    exact ⟨b + i, rfl⟩
  · obtain ⟨_, e, he, hin⟩ := h.frame x hx
    exact ⟨e, horder.mem_iff.mpr he, hin⟩

/-- A displacement with the distance added goes to the displaced address. -/
theorem nearTarget_displaced {m m' : Memory UInt8} {a : Int} (hlow : 0 ≤ displacedTo)
    (htop : displacedTo + region.length < 0x10000000000000000)
    (hinside : region.inside (nearTarget m a) = true)
    (hfits : Fits32 (sdword m a + (displacedTo - region.start)))
    (hload : m'.load a 4 = leBytes 4
      ((leValue (m.load a 4) + (displacedTo - region.start)) % 0x100000000).toNat) :
    nearTarget m' a = displacedTo + (nearTarget m a - region.start) := by
  have hlt : leValue (m.load a 4) < 0x100000000 := by
    have h := Memory.leValue_lt (m.load a 4)
    rw [Memory.length_load] at h
    exact h
  have hvalue : leValue (m'.load a 4) =
      ((leValue (m.load a 4) + (displacedTo - region.start)) % 0x100000000).toNat := by
    rw [hload, Memory.leValue_leBytes]
    omega
  have hsum := (signed32_add_iff hlt (a + 4) (displacedTo - region.start)).mpr hfits
  rw [CodeRange.inside, Bool.and_eq_true, decide_eq_true_iff, decide_eq_true_iff] at hinside
  unfold nearTarget sdword at hinside ⊢
  rw [hvalue, hsum]
  omega

/-- **A call that succeeds.** -/
theorem offset_done (hlow : 0 ≤ displacedTo) (htop : displacedTo + region.length < 0x10000000000000000)
    (hreach : WithinReach s.code source region displacedTo)
    (hdone : (offsetDisplacedReferences s source region displacedTo).1 = none) :
    ∃ added, Displaced s (offsetDisplacedReferences s source region displacedTo).2 source region
      displacedTo added := by
  have h := ahead_start s source
  obtain ⟨added, hedited⟩ := offsetLoop_edited region (displacedTo - region.start) (source.length + 1) h
  have hredirects := fun hnone b r j => @offsetLoop_redirects s.code region (displacedTo - region.start)
    source.start source.length _ s _ (Nat.lt_succ_self _) h hnone b r j
  unfold offsetDisplacedReferences at hdone ⊢
  split at hdone
  · cases hdone
  · next hloop =>
    refine ⟨added, hedited.rbuffer, fun x hx => ?_, fun b r i hb hr hi => ?_, fun order horder => ?_⟩
    · obtain ⟨_, e, he, hin⟩ := hedited.frame x hx
      obtain ⟨b, r, i, hb, hr, hi, rfl⟩ := hedited.entries e he
      exact ⟨b, r, i, hb, hr, hi, hin⟩
    · exact nearTarget_displaced hlow htop (jumpInto_eq_some.mp hi).2.2 (hreach b r i hb hr hi)
        (hredirects hdone b r i hb hr hi)
    · exact hedited.restores horder

/-- **When a call throws**, and what it leaves: an empty buffer, and the code as it was if the buffer
    was empty before. -/
theorem offset_thrown_iff :
    (∃ e, (offsetDisplacedReferences s source region displacedTo).1 = some (.thrown e)) ↔
      Offends s.code region source.start source.length := by
  rw [← offsetLoop_thrown_iff (displacedTo - region.start) (Nat.lt_succ_self _)
    (ahead_start s source)]
  unfold offsetDisplacedReferences
  split
  · next e s' hloop => rw [hloop]
  · rfl

/-- What is restored is everything in the buffer, entries of earlier calls included; and then it is
    emptied. -/
theorem offset_thrown {e : TranslationException}
    (hthrown : (offsetDisplacedReferences s source region displacedTo).1 = some (.thrown e)) :
    (offsetDisplacedReferences s source region displacedTo).2.rbuffer = [] ∧
      (s.rbuffer = [] → (offsetDisplacedReferences s source region displacedTo).2.code = s.code) := by
  obtain ⟨added, hedited⟩ := offsetLoop_edited region (displacedTo - region.start) (source.length + 1)
    (ahead_start s source)
  unfold offsetDisplacedReferences at hthrown ⊢
  split
  · next hloop =>
    refine ⟨rfl, fun hempty => ?_⟩
    rw [hloop] at hedited
    have hbuffer := hedited.rbuffer
    rw [hempty, List.nil_append] at hbuffer
    dsimp only at hbuffer ⊢
    rw [hbuffer]
    exact hedited.restores (.refl added)
  · next hno =>
    split at hthrown
    · next hloop => exact absurd hloop (hno _ _)
    · exact (hno e _ (Prod.ext hthrown rfl)).elim

end

/-- A near jump over a short one, both to 7. -/
def twoJumps : Memory UInt8 := fun a =>
  if a = 0 then 0xE9 else if a = 1 then 0x02 else if 1 < a ∧ a < 5 then 0x00
  else if a = 5 then 0xEB else if a = 6 then 0x00 else 0xCC

/-- The jumps, and where they go. -/
def jumpsRange : CodeRange := ⟨0, 7, by decide, by decide⟩

/-- Where both of them go. -/
def landingRange : CodeRange := ⟨7, 5, by decide, by decide⟩

/-- The near jump is the only one to edit. -/
theorem twoJumps_reaches {b : Int} {r : Nat} (h : Reaches twoJumps 0 7 b r) (hleft : 0 < r) :
    b = 0 ∨ b = 5 := by
  have hfirst : ldisasm true (codeAt twoJumps 0) = some 5 := by decide +kernel
  have hsecond : ldisasm true (codeAt twoJumps 5) = some 2 := by decide +kernel
  cases h with
  | refl => exact Or.inl rfl
  | @step _ _ _ k _ _ hlength _ hrest =>
    obtain rfl : 5 = k := Option.some.inj (hfirst.symm.trans hlength)
    cases hrest with
    | refl => exact Or.inr rfl
    | @step _ _ _ k _ _ hlength _ hrest =>
      obtain rfl : 2 = k := Option.some.inj (hsecond.symm.trans hlength)
      cases hrest with
      | refl => exact absurd hleft (by decide)
      | step hpos => exact absurd hpos (by decide)

/-- Nothing is far. -/
theorem twoJumps_withinReach : WithinReach twoJumps jumpsRange landingRange 0x1000 := by
  intro b r i hb hr hi
  rcases twoJumps_reaches hb hr with rfl | rfl
  · have hone : jumpInto twoJumps landingRange 0 = some 1 := by decide +kernel
    obtain rfl : 1 = i := Option.some.inj (hone.symm.trans hi)
    exact ⟨by decide +kernel, by decide +kernel⟩
  · have hnone : jumpInto twoJumps landingRange 5 = none := by decide +kernel
    rw [hnone] at hi
    cases hi

/-- An entry of an earlier call is dropped by one that throws. -/
theorem offset_displaced_references_drops :
    ¬ ∀ (s : Rewriting) (source region : CodeRange) (displacedTo : Int), 0 ≤ displacedTo →
      displacedTo + region.length < 0x10000000000000000 →
      WithinReach s.code source region displacedTo →
      Atomic s source region displacedTo (offsetDisplacedReferences s source region displacedTo) := by
  intro hall
  have hatomic := hall ⟨[⟨0x20, [0x05, 0x00, 0x00, 0x00]⟩], twoJumps⟩ jumpsRange landingRange 0x1000
    (by decide) (by decide) twoJumps_withinReach
  have hsame := hatomic.thrown (.offsetProhibited "short relative jump to a moved range")
    (by decide +kernel)
  have hempty : (offsetDisplacedReferences ⟨[⟨0x20, [0x05, 0x00, 0x00, 0x00]⟩], twoJumps⟩ jumpsRange
      landingRange 0x1000).2.rbuffer = [] := by decide +kernel
  rw [hsame] at hempty
  cases hempty

/-- **`offset_displaced_references` is atomic** exactly when the revert buffer was empty, or nothing on
    its way makes it throw. -/
theorem offset_displaced_references_atomic (s : Rewriting) (source region : CodeRange)
    (displacedTo : Int) (hlow : 0 ≤ displacedTo)
    (htop : displacedTo + region.length < 0x10000000000000000)
    (hreach : WithinReach s.code source region displacedTo) :
    Atomic s source region displacedTo (offsetDisplacedReferences s source region displacedTo) ↔
      s.rbuffer = [] ∨ ¬ Offends s.code region source.start source.length := by
  constructor
  · intro hatomic
    -- if it throws, the buffer is empty after it, so it has to have been so before
    by_cases hoffends : Offends s.code region source.start source.length
    · obtain ⟨e, he⟩ := offset_thrown_iff.mpr hoffends
      have hempty := (offset_thrown he).1
      rw [hatomic.thrown e he] at hempty
      exact Or.inl hempty
    · exact Or.inr hoffends
  · intro hwhen
    refine ⟨fun e he => ?_, offset_done hlow htop hreach⟩
    rcases hwhen with hempty | hoffends
    · obtain ⟨hbuffer, hcode⟩ := offset_thrown he
      have hsame : (offsetDisplacedReferences s source region displacedTo).2 =
          ⟨s.rbuffer, s.code⟩ := by
        rw [hempty, ← hbuffer, ← hcode hempty]
      exact hsame
    · exact absurd (offset_thrown_iff.mp ⟨e, he⟩) hoffends

theorem offset_displaced_references_atomic_empty :
    (∃ e, (offsetDisplacedReferences ⟨[], twoJumps⟩ jumpsRange landingRange 0x1000).1 =
      some (.thrown e)) ∧
    (offsetDisplacedReferences ⟨[], twoJumps⟩ jumpsRange landingRange 0x1000).2 = ⟨[], twoJumps⟩ := by
  have hatomic := (offset_displaced_references_atomic ⟨[], twoJumps⟩ jumpsRange landingRange 0x1000
    (by decide) (by decide) twoJumps_withinReach).mpr (Or.inl rfl)
  have hthrown : (offsetDisplacedReferences ⟨[], twoJumps⟩ jumpsRange landingRange 0x1000).1 =
      some (.thrown (.offsetProhibited "short relative jump to a moved range")) := by decide +kernel
  exact ⟨⟨_, hthrown⟩, hatomic.thrown _ hthrown⟩

end Translation

end MicroProfiler
