/-
  `patcher/src/intel/binary_translation_x86.cpp`: code is moved elsewhere, in the 64-bit build.

  1. **The code** — `InstructionIterator` walks a range, `visitInstruction` finds the displacements of
     the branches it knows, and `moveFunction` copies a range instruction by instruction, adding the
     distance it moved to the 32-bit displacements that point out of the range.  Addresses are
     integers; what the processor and pointer arithmetic make of them is taken modulo 2^64.

  2. **What is copied** (`moveLoop_spec`) — a range is copied in full unless it holds an `int 3` or a
     short jump out of it, and each instruction becomes `relocated`.

  3. **Meaning** (`move_function_preserves`) — the distance is added modulo 2^32 and nobody looks
     whether it fits: a copy means the same EXACTLY WHEN every branch out of the range still reaches
     its target with 32 bits.
-/
import MicroProfiler.Patcher.Ldisasm

namespace MicroProfiler

open Lib (Memory)
open Lib.Memory (SameOutside signedByte signed32 leBytes leValue)

/-- A range of bytes in a 64-bit address space. -/
structure CodeRange where
  start : Int
  length : Nat
  /-- a pointer is no less than zero, -/
  nonneg : 0 ≤ start
  /-- and the range does not go round the end of the address space -/
  top : start + length < 0x10000000000000000

/-- `range::inside`, for a pointer. -/
def CodeRange.inside (r : CodeRange) (a : Int) : Bool := r.start ≤ a && a < r.start + r.length

/-- `inconsistent_function_range_exception`, `offset_prohibited` -/
inductive TranslationException
  | inconsistentFunctionRange (message : String)
  | offsetProhibited (message : String)
deriving DecidableEq, Repr

/-- A call that does not return: it throws, or goes on forever. -/
inductive Fault
  | thrown (e : TranslationException)
  /-- an instruction of length zero, or a prefix loop -/
  | diverges
deriving DecidableEq, Repr

namespace Translation

/-- The displacement at `a`, as an `sdword`: little-endian, signed. -/
def sdword (m : Memory UInt8) (a : Int) : Int := signed32 (leValue (m.load a 4))

/-- Where a branch with its `sbyte` displacement at `a` goes: as far from the end of the
    displacement, which is that of the instruction. -/
def shortTarget (m : Memory UInt8) (a : Int) : Int := (a + 1 + signedByte (m a)) % 0x10000000000000000

/-- Where a branch with its `sdword` displacement at `a` goes. -/
def nearTarget (m : Memory UInt8) (a : Int) : Int := (a + 4 + sdword m a) % 0x10000000000000000

/-- `*reinterpret_cast<dword *>(a) += static_cast<sdword>(delta)`.  This is where the distance is
    cut to 32 bits. -/
def addDword (m : Memory UInt8) (a : Int) (delta : Int) : Memory UInt8 :=
  m.store a (leBytes 4 ((leValue (m.load a 4) + delta) % 0x100000000).toNat)

/-- `class instruction_iterator`. -/
structure InstructionIterator where
  ptr : Int
  /-- bytes from `ptr` to the end of the range -/
  remaining : Nat
  /-- the length of the instruction at `ptr`, zero before the first -/
  current : Nat

/-- `instruction_iterator::fetch`; `none`: nothing is left. -/
def InstructionIterator.fetch (i : InstructionIterator) (m : Memory UInt8) :
    Except Fault (Option InstructionIterator) :=
  if i.remaining = i.current then .ok none
  else
    let ptr := i.ptr + i.current
    let remaining := i.remaining - i.current
    match ldisasm true (codeAt m ptr) with
    | none => .error .diverges
    | some n =>
        -- the length is kept in a byte
        let current := n % 256
        if remaining < current then
          .error (.thrown (.inconsistentFunctionRange "attempt to read past the function body"))
        else .ok (some ⟨ptr, remaining, current⟩)

/-- `displacement_visitor`, with what it works on.  The address given is that of the displacement.
    -/
structure DisplacementVisitor (σ : Type) where
  visitByte : Int → σ → Except Fault σ
  visitDword : Int → σ → Except Fault σ

/-- `visit_instruction`, for the instruction at `ptr`. -/
def visitInstruction {σ : Type} (v : DisplacementVisitor σ) (m : Memory UInt8) (ptr : Int) (s : σ) :
    Except Fault σ :=
  if isShortBranch (m ptr) then v.visitByte (ptr + 1) s
  else if isNearBranch (m ptr) then v.visitDword (ptr + 1) s
  -- `0F 8x`: a conditional jump with 32 bits
  else if m ptr = 0x0F ∧ isNearConditional (m (ptr + 1)) = true then v.visitDword (ptr + 2) s
  else .ok s

/-- The visitor of `move_function`, for the instruction at `src`, copied to `dest`.  It reads the
    source and writes to the copy. -/
def moveVisitor (source : CodeRange) (delta src dest : Int) : DisplacementVisitor (Memory UInt8) where
  visitByte a m :=
    if source.inside (shortTarget m a) then .ok m
    else .error (.thrown (.inconsistentFunctionRange "short relative jump outside the moved range"))
  visitDword a m :=
    if source.inside (nearTarget m a) then .ok m else .ok (addDword m (dest + (a - src)) delta)

/-- The loop of `move_function`.  An instruction is copied before its displacement is looked at. -/
def moveLoop (source : CodeRange) (delta : Int) :
    Nat → Memory UInt8 → InstructionIterator → Int → Except Fault (Memory UInt8)
  | 0, _, _, _ => .error .diverges
  | fuel + 1, m, i, destination =>
      match i.fetch m with
      | .error e => .error e
      | .ok none => .ok m
      | .ok (some i) =>
          -- a breakpoint set by a debugger
          if m i.ptr = 0xCC then
            .error (.thrown (.inconsistentFunctionRange "debug interrupt met"))
          else
            let m := m.copy destination i.ptr i.current
            match visitInstruction (moveVisitor source delta i.ptr destination) m i.ptr m with
            | .error e => .error e
            | .ok m => moveLoop source delta fuel m i (destination + i.current)

/-- `move_function`: an instruction takes a byte at least, or the walk goes on forever. -/
def moveFunction (m : Memory UInt8) (destination : Int) (source : CodeRange) :
    Except Fault (Memory UInt8) :=
  moveLoop source (source.start - destination) (source.length + 1) m ⟨source.start, source.length, 0⟩
    destination

/-! ## Instructions and what becomes of them -/

/-- The instructions of `n` bytes of code, by address and length.  A range that ends within an
    instruction has none. -/
inductive Decodes (m : Memory UInt8) : Int → Nat → List (Int × Nat) → Prop
  | nil (a : Int) : Decodes m a 0 []
  | cons {a : Int} {k n : Nat} {rest : List (Int × Nat)} (hlength : ldisasm true (codeAt m a) = some k)
      (hbyte : k < 256) (hrest : Decodes m (a + k) n rest) : Decodes m a (k + n) ((a, k) :: rest)

/-- Where the 32-bit displacement of the instruction at `a` is, if it has one: after one byte of
    opcode, or after two. -/
def nearDisplacement (m : Memory UInt8) (a : Int) : Option Nat :=
  if isNearBranch (m a) then some 1
  else if m a = 0x0F ∧ isNearConditional (m (a + 1)) = true then some 2
  else none

/-- The instruction at `a`, of `k` bytes, as it is copied.  Only a branch out of the range is
    changed, and only in its displacement. -/
def relocated (m : Memory UInt8) (source : CodeRange) (delta a : Int) (k : Nat) : List UInt8 :=
  match nearDisplacement m a with
  | none => m.load a k
  | some i =>
      if source.inside (nearTarget m (a + i)) then m.load a k
      else m.load a i ++ leBytes 4 ((leValue (m.load (a + i) 4) + delta) % 0x100000000).toNat

/-- What `move_function` does not object to: no breakpoint, no short jump out of the range. -/
def Movable (m : Memory UInt8) (source : CodeRange) (a : Int) : Prop :=
  m a ≠ 0xCC ∧ (isShortBranch (m a) = true → source.inside (shortTarget m (a + 1)) = true)

/-! ## One instruction -/

/-- `visit_instruction`, by what the instruction is.  With this the three tests are made once. -/
theorem visitInstruction_eq {σ : Type} (v : DisplacementVisitor σ) (m : Memory UInt8) (a : Int) (s : σ) :
    visitInstruction v m a s =
      if isShortBranch (m a) then v.visitByte (a + 1) s
      else match nearDisplacement m a with
        | none => .ok s
        | some i => v.visitDword (a + i) s := by
  unfold visitInstruction nearDisplacement
  split
  · rfl
  · split
    · rfl
    · split
      · rfl
      · rfl

/-- A short branch has no displacement of 32 bits. -/
theorem nearDisplacement_of_short {m : Memory UInt8} {a : Int} (h : isShortBranch (m a) = true) :
    nearDisplacement m a = none := by
  obtain ⟨_, hop, hnear, _⟩ := shortBranch_opcode (m a) h
  rw [nearDisplacement, if_neg (by rw [hnear]; exact Bool.false_ne_true), if_neg fun hand => hop hand.1]

/-- A 32-bit displacement is the end of its instruction. -/
theorem length_of_nearDisplacement {m : Memory UInt8} {a : Int} {i k : Nat}
    (h : nearDisplacement m a = some i) (hlength : ldisasm true (codeAt m a) = some k) : k = i + 4 := by
  unfold nearDisplacement at h
  split at h
  · -- one byte of opcode
    next hop =>
    rw [← codeAt_zero m a] at hop
    rw [ldisasm_nearBranch true hop] at hlength
    rw [← Option.some.inj h, ← Option.some.inj hlength]
  · split at h
    · -- two, the first of them `0F`
      next hop =>
      obtain ⟨hop, hcc⟩ := hop
      rw [← codeAt_zero m a] at hop
      rw [← codeAt_one m a] at hcc
      rw [ldisasm_nearConditional true hop hcc] at hlength
      rw [← Option.some.inj h, ← Option.some.inj hlength]
    · cases h

/-- An opcode and a byte. -/
theorem length_of_short {m : Memory UInt8} {a : Int} {k : Nat} (h : isShortBranch (m a) = true)
    (hlength : ldisasm true (codeAt m a) = some k) : k = 2 := by
  rw [← codeAt_zero m a] at h
  rw [ldisasm_shortBranch true h] at hlength
  exact (Option.some.inj hlength).symm

/-- Equal bytes have equal meaning. -/
theorem shortTarget_congr {m m' : Memory UInt8} {a : Int} (h : m' a = m a) :
    shortTarget m' a = shortTarget m a := by
  simp only [shortTarget, h]

/-- The same of 32 bits. -/
theorem nearTarget_congr {m m' : Memory UInt8} {a : Int} (h : m'.load a 4 = m.load a 4) :
    nearTarget m' a = nearTarget m a := by
  simp only [nearTarget, sdword, h]

/-- The kind of an instruction is in its first byte, or after `0F` in the second. -/
theorem nearDisplacement_congr {m m' : Memory UInt8} {a : Int} (h0 : m' a = m a)
    (h1 : m a = 0x0F → m' (a + 1) = m (a + 1)) : nearDisplacement m' a = nearDisplacement m a := by
  unfold nearDisplacement
  rw [h0]
  split
  · rfl
  · by_cases hop : m a = 0x0F
    · rw [h1 hop]
    · rw [if_neg fun hand => hop hand.1, if_neg fun hand => hop hand.1]

/-- The displacement of a copied instruction is adjusted in place; what stands before it is as in
    the source. -/
theorem addDword_load {m m₀ : Memory UInt8} {q a : Int} {i : Nat} (delta : Int)
    (hcopied : m.load q (i + 4) = m₀.load a (i + 4)) :
    (addDword m (q + i) delta).load q (i + 4) =
      m₀.load a i ++ leBytes 4 ((leValue (m₀.load (a + i) 4) + delta) % 0x100000000).toNat := by
  rw [Memory.load_add, Memory.load_add] at hcopied
  obtain ⟨hfirst, hsecond⟩ := List.append_inj hcopied (by simp)
  have hbefore : (addDword m (q + i) delta).load q i = m.load q i :=
    Memory.load_congr fun k hk => Memory.store_sameOutside _ _ _ _ (Or.inl (by omega))
  have hstored := Memory.load_store m (q + i)
    (leBytes 4 ((leValue (m.load (q + i) 4) + delta) % 0x100000000).toNat)
  rw [Memory.length_leBytes] at hstored
  rw [Memory.load_add, hbefore, hfirst, ← hsecond]
  exact congrArg _ hstored

/-- Four bytes are written. -/
theorem addDword_sameOutside (m : Memory UInt8) (a delta : Int) :
    SameOutside a (a + 4) m (addDword m a delta) := by
  have h := Memory.store_sameOutside (leBytes 4 ((leValue (m.load a 4) + delta) % 0x100000000).toNat) m a
  rw [Memory.length_leBytes] at h
  exact h

section

variable {m₀ : Memory UInt8} {source : CodeRange} {destination : Int}

/-- A memory in which the source is still as it was.  The copy is elsewhere, so that the loop reads
    what was there at the start. -/
def Intact (m₀ : Memory UInt8) (source : CodeRange) (m : Memory UInt8) : Prop :=
  ∀ x, source.start ≤ x → x < source.start + source.length → m x = m₀ x

/-- **One instruction** is copied and relocated, or is a short jump out of the range.  By cases on
    what it is: the copy does not change what is read at its source. -/
theorem visit_moved {m : Memory UInt8} {a : Int} {k : Nat}
    (hdisjoint : destination + source.length ≤ source.start ∨
      source.start + source.length ≤ destination)
    (hintact : Intact m₀ source m) (hlength : ldisasm true (codeAt m₀ a) = some k)
    (hlo : source.start ≤ a) (hhi : a + k ≤ source.start + source.length) :
    let q := destination + (a - source.start)
    let m₁ := m.copy q a k
    let visited := visitInstruction (moveVisitor source (source.start - destination) a q) m₁ a m₁
    if isShortBranch (m₀ a) = true ∧ source.inside (shortTarget m₀ (a + 1)) = false then
      ∃ e, visited = .error (.thrown e)
    else
      ∃ m₂, visited = .ok m₂ ∧ SameOutside q (q + k) m m₂ ∧
        m₂.load q k = relocated m₀ source (source.start - destination) a k := by
  intro q m₁ visited
  have hpos := ldisasm_pos hlength
  have hframe : SameOutside q (q + k) m m₁ := Memory.copy_sameOutside k m q a
  have hsource : ∀ x, a ≤ x → x < a + k → m₁ x = m₀ x := fun x hx hx' =>
    (hframe x (by omega)).trans (hintact x (by omega) (by omega))
  have hcopied : m₁.load q k = m₀.load a k := by
    rw [Memory.load_copy (show q ≤ a ∨ a + k ≤ q by omega)]
    exact Memory.load_congr fun i hi => hintact _ (by omega) (by omega)
  have hop : m₁ a = m₀ a := hsource a (by omega) (by omega)
  -- what the visitor sees is the instruction of the source
  have hnear : nearDisplacement m₁ a = nearDisplacement m₀ a := by
    refine nearDisplacement_congr hop fun hescape => hsource (a + 1) (by omega) ?_
    have htwo := two_le_of_escape ((codeAt_zero m₀ a).trans hescape) hlength
    omega
  show if _ then ∃ e, visitInstruction _ m₁ a m₁ = _ else ∃ m₂, visitInstruction _ m₁ a m₁ = _ ∧ _
  rw [visitInstruction_eq, hop, hnear]
  cases hshort : isShortBranch (m₀ a) with
  | true =>
    have htwo := length_of_short hshort hlength
    have htarget : shortTarget m₁ (a + 1) = shortTarget m₀ (a + 1) :=
      shortTarget_congr (hsource (a + 1) (by omega) (by omega))
    have hplain : relocated m₀ source (source.start - destination) a k = m₀.load a k := by
      rw [relocated, nearDisplacement_of_short hshort]
    simp only [moveVisitor, htarget, true_and, if_true]
    cases source.inside (shortTarget m₀ (a + 1)) with
    | true => exact ⟨m₁, rfl, hframe, hcopied.trans hplain.symm⟩
    | false => exact ⟨_, rfl⟩
  | false =>
    simp only [Bool.false_eq_true, false_and, if_false]
    cases hdisplacement : nearDisplacement m₀ a with
    | none =>
      -- no displacement: a plain copy
      refine ⟨m₁, rfl, hframe, hcopied.trans ?_⟩
      rw [relocated, hdisplacement]
    | some i =>
      -- a displacement that points within the range is copied too; another one is adjusted
      have hk := length_of_nearDisplacement hdisplacement hlength
      have htarget : nearTarget m₁ (a + i) = nearTarget m₀ (a + i) :=
        nearTarget_congr (Memory.load_congr fun n hn => hsource _ (by omega) (by omega))
      have hplace : q + (a + i - a) = q + i := by omega
      simp only [moveVisitor, htarget, hplace, relocated, hdisplacement]
      cases source.inside (nearTarget m₀ (a + i)) with
      | true => exact ⟨m₁, rfl, hframe, hcopied⟩
      | false =>
        refine ⟨addDword m₁ (q + i) (source.start - destination), rfl, ?_, ?_⟩
        · exact hframe.trans ((addDword_sameOutside _ _ _).mono (by omega) (by omega))
        · rw [hk] at hcopied ⊢
          exact addDword_load _ hcopied

/-! ## The loop -/

/-- At the end of the range the iterator stops. -/
theorem fetch_nil {i : InstructionIterator} (hleft : i.remaining = i.current + 0) (m : Memory UInt8) :
    i.fetch m = .ok none := by
  rw [InstructionIterator.fetch, if_pos (by omega)]

/-- Otherwise it goes on by the length of the instruction it is at. -/
theorem fetch_cons {i : InstructionIterator} {m : Memory UInt8} {a : Int} {k n : Nat}
    (hplace : i.ptr + i.current = a) (hleft : i.remaining = i.current + (k + n))
    (hlength : ldisasm true (codeAt m a) = some k) (hbyte : k < 256) :
    i.fetch m = .ok (some ⟨a, k + n, k⟩) := by
  have hpos := ldisasm_pos hlength
  have hremaining : i.remaining - i.current = k + n := by omega
  rw [InstructionIterator.fetch, if_neg (by omega), hplace]
  simp only [hlength, hremaining, Nat.mod_eq_of_lt hbyte]
  rw [if_neg (by omega)]

/-- **A turn of the loop** copies and relocates one instruction, if it is `Movable`. -/
theorem moveLoop_cons
    (hdisjoint : destination + source.length ≤ source.start ∨
      source.start + source.length ≤ destination)
    {a : Int} {k n : Nat} (hlength : ldisasm true (codeAt m₀ a) = some k) (hbyte : k < 256)
    (fuel : Nat) {m : Memory UInt8} {i : InstructionIterator} (hplace : i.ptr + i.current = a)
    (hleft : i.remaining = i.current + (k + n)) (hlo : source.start ≤ a)
    (hhi : a + k ≤ source.start + source.length) (hintact : Intact m₀ source m) :
    let q := destination + (a - source.start)
    let result := moveLoop source (source.start - destination) (fuel + 1) m i q
    (Movable m₀ source a → ∃ m₂,
      result = moveLoop source (source.start - destination) fuel m₂ ⟨a, k + n, k⟩ (q + k) ∧
        SameOutside q (q + k) m m₂ ∧
        m₂.load q k = relocated m₀ source (source.start - destination) a k) ∧
      (¬ Movable m₀ source a → ∃ e, result = .error (.thrown e)) := by
  intro q result
  have hpos := ldisasm_pos hlength
  have hcode : ldisasm true (codeAt m a) = some k :=
    ldisasm_local hlength fun j hj => (hintact _ (by omega) (by omega)).symm
  have hop : m a = m₀ a := hintact a hlo (by omega)
  have hresult : result = if m₀ a = 0xCC then
        .error (.thrown (.inconsistentFunctionRange "debug interrupt met"))
      else match visitInstruction (moveVisitor source (source.start - destination) a q)
          (m.copy q a k) a (m.copy q a k) with
        | .error e => .error e
        | .ok m => moveLoop source (source.start - destination) fuel m ⟨a, k + n, k⟩ (q + k) := by
    show moveLoop _ _ _ _ _ _ = _
    rw [moveLoop, fetch_cons hplace hleft hcode hbyte]
    dsimp only
    rw [hop]
  have hvisit := visit_moved hdisjoint hintact hlength hlo hhi
  dsimp only at hvisit
  by_cases hcc : m₀ a = 0xCC
  · -- a breakpoint
    rw [if_pos hcc] at hresult
    exact ⟨fun hmovable => absurd hcc hmovable.1, fun _ => ⟨_, hresult⟩⟩
  · -- any other instruction: movable, or a short jump out of the range
    rw [if_neg hcc] at hresult
    split at hvisit
    · next hshort =>
      obtain ⟨e, he⟩ := hvisit
      rw [he] at hresult
      refine ⟨fun hmovable => ?_, fun _ => ⟨e, hresult⟩⟩
      have hinside := hmovable.2 hshort.1
      rw [hshort.2] at hinside
      cases hinside
    · next hshort =>
      obtain ⟨m₂, hok, hframe, hloaded⟩ := hvisit
      rw [hok] at hresult
      refine ⟨fun _ => ⟨m₂, hresult, hframe, hloaded⟩, fun hnot => ?_⟩
      refine absurd ⟨hcc, fun hbranch => ?_⟩ hnot
      cases hinside : source.inside (shortTarget m₀ (a + 1)) with
      | true => rfl
      | false => exact absurd ⟨hbranch, hinside⟩ hshort

/-- **The loop** copies and relocates every instruction, unless one of them is not `Movable`.  By
    induction on the decoded instructions; the copy made so far lies before the one being made. -/
theorem moveLoop_spec
    (hdisjoint : destination + source.length ≤ source.start ∨
      source.start + source.length ≤ destination)
    {a : Int} {n : Nat} {is : List (Int × Nat)} (hdecodes : Decodes m₀ a n is) :
    ∀ (fuel : Nat) (m : Memory UInt8) (i : InstructionIterator), n < fuel →
      i.ptr + i.current = a → i.remaining = i.current + n → source.start ≤ a →
      a + n = source.start + source.length → Intact m₀ source m →
      let result := moveLoop source (source.start - destination) fuel m i
        (destination + (a - source.start))
      ((∀ b ∈ is, Movable m₀ source b.1) → ∃ m', result = .ok m' ∧
        SameOutside (destination + (a - source.start)) (destination + source.length) m m' ∧
        ∀ b ∈ is, m'.load (destination + (b.1 - source.start)) b.2 =
          relocated m₀ source (source.start - destination) b.1 b.2) ∧
      ((∃ b ∈ is, ¬ Movable m₀ source b.1) → ∃ e, result = .error (.thrown e)) := by
  induction hdecodes with
  | nil a =>
    intro fuel m i hfuel hplace hleft hlo hhi hintact
    obtain ⟨fuel, rfl⟩ : ∃ f, fuel = f + 1 := ⟨fuel - 1, by omega⟩
    intro result
    have hresult : result = .ok m := by
      show moveLoop _ _ _ _ _ _ = _
      rw [moveLoop, fetch_nil hleft]
    refine ⟨fun _ => ⟨m, hresult, fun _ _ => rfl, fun b hb => absurd hb List.not_mem_nil⟩, ?_⟩
    rintro ⟨b, hb, _⟩
    exact absurd hb List.not_mem_nil
  | @cons a k n rest hlength hbyte hrest ih =>
    intro fuel m i hfuel hplace hleft hlo hhi hintact
    obtain ⟨fuel, rfl⟩ : ∃ f, fuel = f + 1 := ⟨fuel - 1, by omega⟩
    have hpos := ldisasm_pos hlength
    obtain ⟨hturn, hthrow⟩ := moveLoop_cons hdisjoint hlength hbyte fuel hplace hleft hlo
      (show a + k ≤ source.start + source.length by omega) hintact
    intro result
    by_cases hmovable : Movable m₀ source a
    · obtain ⟨m₂, hresult, hframe, hloaded⟩ := hturn hmovable
      have hintact₂ : Intact m₀ source m₂ := fun x hx hx' =>
        (hframe x (by omega)).trans (hintact x hx hx')
      have hnext : destination + (a - source.start) + k = destination + (a + k - source.start) := by
        omega
      obtain ⟨hmoved, hthrown⟩ := ih fuel m₂ ⟨a, k + n, k⟩ (by omega) rfl rfl (by omega) (by omega)
        hintact₂
      rw [← hnext, ← hresult] at hmoved hthrown
      constructor
      · -- all can be moved: this one, and by induction the rest
        intro hall
        obtain ⟨m', hm', hframe', hloaded'⟩ := hmoved fun b hb => hall b (List.mem_cons_of_mem _ hb)
        refine ⟨m', hm', ?_, ?_⟩
        · exact (hframe.mono (Int.le_refl _) (by omega)).trans (hframe'.mono (by omega) (Int.le_refl _))
        · intro b hb
          rcases List.mem_cons.mp hb with rfl | hb
          · rw [← hloaded]
            exact Memory.load_congr fun j hj => hframe' _ (Or.inl (by dsimp only at hj ⊢; omega))
          · exact hloaded' b hb
      · -- this one can be moved, so it is one of the rest that cannot
        rintro ⟨b, hb, hnot⟩
        rcases List.mem_cons.mp hb with rfl | hb
        · exact absurd hmovable hnot
        · exact hthrown ⟨b, hb, hnot⟩
    · exact ⟨fun hall => absurd (hall _ List.mem_cons_self) hmovable, fun _ => hthrow hmovable⟩

/-! ## Meaning -/

/-- Where a branch of the copy has to go, if in the source it went to `target`. -/
def movedTarget (source : CodeRange) (destination target : Int) : Int :=
  if source.inside target then destination + (target - source.start) else target

/-- The copy means what the source means. -/
structure Preserved (m m' : Memory UInt8) (source : CodeRange) (destination : Int)
    (is : List (Int × Nat)) : Prop where
  /-- nothing is written outside of the copy -/
  frame : SameOutside destination (destination + source.length) m m'
  /-- branches with 32 bits, -/
  near : ∀ b ∈ is, ∀ i, nearDisplacement m b.1 = some i →
    nearTarget m' (destination + (b.1 - source.start) + i) =
      movedTarget source destination (nearTarget m (b.1 + i))
  /-- and with 8, go where they have to -/
  short : ∀ b ∈ is, isShortBranch (m b.1) = true →
    shortTarget m' (destination + (b.1 - source.start) + 1) =
      movedTarget source destination (shortTarget m (b.1 + 1))
  /-- everything else is copied byte by byte -/
  others : ∀ b ∈ is, ∀ j : Nat, j < b.2 →
    (∀ i, nearDisplacement m b.1 = some i → ¬ (i ≤ j ∧ j < i + 4)) →
    m' (destination + (b.1 - source.start) + j) = m (b.1 + j)

/-- An integer as a signed number of 64 bits, as a distance between pointers is. -/
def ptrdiff (z : Int) : Int := (z + 0x8000000000000000) % 0x10000000000000000 - 0x8000000000000000

/-- The distance fits a displacement of 32 bits. -/
def Fits32 (z : Int) : Prop := -0x80000000 ≤ ptrdiff z ∧ ptrdiff z < 0x80000000

/-- If the instruction at `a` is a branch out of the range, its copy is near enough to the target.
    No other instruction is concerned. -/
def InReach (m : Memory UInt8) (source : CodeRange) (destination a : Int) : Prop :=
  ∀ i, nearDisplacement m a = some i → source.inside (nearTarget m (a + i)) = false →
    Fits32 (sdword m (a + i) + (source.start - destination))

/-- **Adding a distance modulo 2^32** adds it modulo 2^64 exactly when the sum fits. -/
theorem signed32_add_iff {v : Nat} (hv : v < 0x100000000) (x delta : Int) :
    (x + signed32 ((v + delta) % 0x100000000).toNat) % 0x10000000000000000 =
      (x + delta + signed32 v) % 0x10000000000000000 ↔ Fits32 (signed32 v + delta) := by
  unfold Fits32 ptrdiff signed32
  constructor
  · intro h
    split at h <;> split at h <;> split <;> omega
  · intro h
    split at h <;> split <;> omega

/-- A branch within the range is copied as it is. -/
theorem relocated_inside {m : Memory UInt8} {a : Int} {i k : Nat}
    (hnear : nearDisplacement m a = some i) (hinside : source.inside (nearTarget m (a + i)) = true)
    (delta : Int) : relocated m source delta a k = m.load a k := by
  simp only [relocated, hnear, hinside, if_true]

/-- A branch out of it is adjusted. -/
theorem relocated_outside {m : Memory UInt8} {a : Int} {i k : Nat}
    (hnear : nearDisplacement m a = some i) (houtside : source.inside (nearTarget m (a + i)) = false)
    (delta : Int) : relocated m source delta a k =
      m.load a i ++ leBytes 4 ((leValue (m.load (a + i) 4) + delta) % 0x100000000).toNat := by
  simp only [relocated, hnear, houtside, Bool.false_eq_true, if_false]

variable {m m' : Memory UInt8} {a : Int} {i : Nat}

/-- A branch that stays in the range moves with it: displacement and distance to the target are the
    same. -/
theorem nearTarget_inside (hdestination : 0 ≤ destination)
    (htop : destination + source.length < 0x10000000000000000)
    (hinside : source.inside (nearTarget m (a + i)) = true)
    (hload : m'.load (destination + (a - source.start)) (i + 4) = m.load a (i + 4)) :
    nearTarget m' (destination + (a - source.start) + i) =
      movedTarget source destination (nearTarget m (a + i)) := by
  rw [Memory.load_add, Memory.load_add] at hload
  obtain ⟨_, hword⟩ := List.append_inj hload (by simp)
  have hsigned : sdword m' (destination + (a - source.start) + i) = sdword m (a + i) := by
    simp only [sdword, hword]
  rw [movedTarget, if_pos hinside]
  rw [CodeRange.inside, Bool.and_eq_true, decide_eq_true_iff, decide_eq_true_iff] at hinside
  unfold nearTarget at hinside ⊢
  rw [hsigned]
  omega

/-- **A branch out of the range** goes to its target exactly when that is in reach. -/
theorem nearTarget_outside (hnear : nearDisplacement m a = some i)
    (houtside : source.inside (nearTarget m (a + i)) = false)
    (hload : m'.load (destination + (a - source.start)) (i + 4) =
      relocated m source (source.start - destination) a (i + 4)) :
    nearTarget m' (destination + (a - source.start) + i) = nearTarget m (a + i) ↔
      InReach m source destination a := by
  rw [relocated_outside hnear houtside, Memory.load_add] at hload
  obtain ⟨_, hword⟩ := List.append_inj hload (by simp)
  have hvalue : leValue (m'.load (destination + (a - source.start) + i) 4) =
      ((leValue (m.load (a + i) 4) + (source.start - destination)) % 0x100000000).toNat := by
    rw [hword, Memory.leValue_leBytes]
    omega
  have hlt : leValue (m.load (a + i) 4) < 0x100000000 := by
    have h := Memory.leValue_lt (m.load (a + i) 4)
    rw [Memory.length_load] at h
    exact h
  have hreach : InReach m source destination a ↔
      Fits32 (sdword m (a + i) + (source.start - destination)) := by
    constructor
    · intro h
      exact h i hnear houtside
    · intro h i' hi' _
      obtain rfl : i = i' := Option.some.inj (hnear.symm.trans hi')
      exact h
  rw [hreach]
  have hback : destination + (a - source.start) + i + 4 + (source.start - destination) = a + i + 4 := by
    omega
  rw [sdword, ← signed32_add_iff hlt (destination + (a - source.start) + i + 4), hback, nearTarget,
    nearTarget, sdword, sdword, hvalue]

/-- A short jump that stays in the range moves with it. -/
theorem shortTarget_inside (hdestination : 0 ≤ destination)
    (htop : destination + source.length < 0x10000000000000000)
    (hinside : source.inside (shortTarget m (a + 1)) = true)
    (hbyte : m' (destination + (a - source.start) + 1) = m (a + 1)) :
    shortTarget m' (destination + (a - source.start) + 1) =
      movedTarget source destination (shortTarget m (a + 1)) := by
  rw [movedTarget, if_pos hinside]
  rw [CodeRange.inside, Bool.and_eq_true, decide_eq_true_iff, decide_eq_true_iff] at hinside
  unfold shortTarget at hinside ⊢
  rw [hbyte]
  omega

/-- Each of the instructions is decoded where it is. -/
theorem Decodes.mem {a : Int} {n : Nat} {is : List (Int × Nat)} (h : Decodes m a n is) :
    ∀ b ∈ is, ldisasm true (codeAt m b.1) = some b.2 := by
  induction h with
  | nil => exact fun b hb => absurd hb List.not_mem_nil
  | cons hlength _ _ ih =>
    intro b hb
    rcases List.mem_cons.mp hb with rfl | hb
    · exact hlength
    · exact ih b hb

section

variable {is : List (Int × Nat)} (hdecodes : Decodes m source.start source.length is)
  (hdestination : 0 ≤ destination) (htop : destination + source.length < 0x10000000000000000)
  (hdisjoint : destination + source.length ≤ source.start ∨
    source.start + source.length ≤ destination)

include hdecodes hdisjoint

/-- An obstacle anywhere makes the function throw. -/
theorem moveFunction_thrown (h : ∃ b ∈ is, ¬ Movable m source b.1) :
    ∃ e, moveFunction m destination source = .error (.thrown e) := by
  have hspec := moveLoop_spec hdisjoint hdecodes (source.length + 1) m ⟨source.start, source.length, 0⟩
    (Nat.lt_succ_self _) (Int.add_zero _) (Nat.zero_add _).symm (Int.le_refl _) rfl fun _ _ _ => rfl
  rw [Int.sub_self, Int.add_zero] at hspec
  exact hspec.2 h

include hdestination htop

/-- **A range without obstacles is copied**, and means the same if its branches are in reach. -/
theorem moveFunction_movable (h : ∀ b ∈ is, Movable m source b.1) :
    ∃ m', moveFunction m destination source = .ok m' ∧
      (Preserved m m' source destination is ↔ ∀ b ∈ is, InReach m source destination b.1) := by
  have hspec := moveLoop_spec hdisjoint hdecodes (source.length + 1) m ⟨source.start, source.length, 0⟩
    (Nat.lt_succ_self _) (Int.add_zero _) (Nat.zero_add _).symm (Int.le_refl _) rfl fun _ _ _ => rfl
  rw [Int.sub_self, Int.add_zero] at hspec
  obtain ⟨m', hm', hframe, hloaded⟩ := hspec.1 h
  refine ⟨m', hm', ?_⟩
  -- an instruction without a displacement of 32 bits
  have hplain : ∀ b ∈ is, nearDisplacement m b.1 = none → ∀ j : Nat, j < b.2 →
      m' (destination + (b.1 - source.start) + j) = m (b.1 + j) := by
    intro b hb hnone
    have hload := hloaded b hb
    rw [relocated, hnone] at hload
    exact Memory.load_eq_iff.mp hload
  have hlength : ∀ b ∈ is, ∀ i, nearDisplacement m b.1 = some i → b.2 = i + 4 := fun b hb i hi =>
    length_of_nearDisplacement hi (hdecodes.mem b hb)
  constructor
  -- a branch out of the range that goes to its target was in reach
  · intro hpreserved b hb i hi houtside
    have hload := hloaded b hb
    rw [hlength b hb i hi] at hload
    have htarget := hpreserved.near b hb i hi
    rw [movedTarget, houtside, if_neg Bool.false_ne_true] at htarget
    exact (nearTarget_outside hi houtside hload).mp htarget i hi houtside
  · intro hreach
    refine ⟨hframe, fun b hb i hi => ?_, fun b hb hshort => ?_, fun b hb j hj hother => ?_⟩
    · have hload := hloaded b hb
      rw [hlength b hb i hi] at hload
      cases hinside : source.inside (nearTarget m (b.1 + i)) with
      | true =>
        rw [relocated_inside hi hinside] at hload
        exact nearTarget_inside hdestination htop hinside hload
      | false =>
        rw [movedTarget, hinside, if_neg Bool.false_ne_true]
        exact (nearTarget_outside hi hinside hload).mpr (hreach b hb)
    · -- a short jump is `Movable`, so it stays within the range
      have htwo := length_of_short hshort (hdecodes.mem b hb)
      exact shortTarget_inside hdestination htop ((h b hb).2 hshort)
        (hplain b hb (nearDisplacement_of_short hshort) 1 (by omega))
    · cases hnear : nearDisplacement m b.1 with
      | none => exact hplain b hb hnear j hj
      | some i =>
        have hi := hlength b hb i hnear
        have hbefore := hother i hnear
        have hload := hloaded b hb
        rw [hi] at hload
        cases hinside : source.inside (nearTarget m (b.1 + i)) with
        | true =>
          rw [relocated_inside hnear hinside] at hload
          exact Memory.load_eq_iff.mp hload j (by omega)
        | false =>
          rw [relocated_outside hnear hinside, Memory.load_add] at hload
          exact Memory.load_eq_iff.mp (List.append_inj hload (by simp)).1 j (by omega)

end

end

/-- `call` of what follows it, at `start`. -/
def callNext (start : Int) : Memory UInt8 := fun a =>
  if a = start then 0xE8 else if start < a ∧ a < start + 5 then 0x00 else 0xCC

/-- The range that holds the call, far up and near. -/
def farRange : CodeRange := ⟨0x100000000000, 5, by decide, by decide⟩

/-- A place from which everything low is in reach. -/
def nearRange : CodeRange := ⟨0x1000, 5, by decide, by decide⟩

/-- One instruction of five bytes. -/
theorem callNext_decodes (start : Int) : Decodes (callNext start) start 5 [(start, 5)] := by
  have hop : isNearBranch (codeAt (callNext start) start 0) = true := by
    rw [codeAt_zero, callNext, if_pos rfl]
    rfl
  exact .cons (ldisasm_nearBranch true hop) (by decide) (.nil _)

/-- The call is copied wherever it goes. -/
theorem callNext_moved (source : CodeRange) (destination : Int) (hlength : source.length = 5)
    (hdestination : 0 ≤ destination) (htop : destination + source.length < 0x10000000000000000)
    (hdisjoint : destination + source.length ≤ source.start ∨
      source.start + source.length ≤ destination) :
    ∃ m', moveFunction (callNext source.start) destination source = .ok m' ∧
      (Preserved (callNext source.start) m' source destination [(source.start, 5)] ↔
        ∀ b ∈ [(source.start, 5)], InReach (callNext source.start) source destination b.1) := by
  have hdecodes := callNext_decodes source.start
  rw [← hlength] at hdecodes ⊢
  refine moveFunction_movable hdecodes hdestination htop hdisjoint fun b hb => ?_
  have hop : callNext source.start source.start = 0xE8 := if_pos rfl
  rw [List.mem_singleton.mp hb, Movable, hop]
  exact ⟨by decide, fun h => absurd h (by decide)⟩

/-- Moved by 16 terabytes, the copy returns, and the call goes elsewhere. -/
theorem move_function_truncates :
    ¬ ∀ (m : Memory UInt8) (source : CodeRange) (destination : Int) (is : List (Int × Nat)),
      Decodes m source.start source.length is → 0 ≤ destination →
      destination + source.length < 0x10000000000000000 →
      (destination + source.length ≤ source.start ∨ source.start + source.length ≤ destination) →
      (∃ e, moveFunction m destination source = .error (.thrown e)) ∨
        ∃ m', moveFunction m destination source = .ok m' ∧ Preserved m m' source destination is := by
  intro hall
  have hdecodes := callNext_decodes farRange.start
  obtain ⟨m', hm', hiff⟩ := callNext_moved farRange 0x1000 rfl (by decide) (by decide)
    (Or.inl (by decide))
  rcases hall (callNext farRange.start) farRange 0x1000 _ hdecodes (by decide) (by decide)
    (Or.inl (by decide)) with ⟨e, he⟩ | ⟨m'', hm'', hpreserved⟩
  · rw [hm'] at he
    cases he
  · obtain rfl : m' = m'' := Except.ok.inj (hm'.symm.trans hm'')
    have hreach := hiff.mp hpreserved _ (List.mem_singleton.mpr rfl) 1 (by decide +kernel) (by decide +kernel)
    exact absurd hreach.2 (by decide +kernel)

/-- **`move_function` preserves meaning** exactly when, if nothing in the range makes it throw, every
    branch out of the range has its target within 32 bits of the copy. -/
theorem move_function_preserves (m : Memory UInt8) (source : CodeRange) (destination : Int)
    (is : List (Int × Nat)) (hdecodes : Decodes m source.start source.length is)
    (hdestination : 0 ≤ destination) (htop : destination + source.length < 0x10000000000000000)
    (hdisjoint : destination + source.length ≤ source.start ∨
      source.start + source.length ≤ destination) :
    ((∃ e, moveFunction m destination source = .error (.thrown e)) ∨
      ∃ m', moveFunction m destination source = .ok m' ∧ Preserved m m' source destination is) ↔
    ((∀ b ∈ is, Movable m source b.1) → ∀ b ∈ is, InReach m source destination b.1) := by
  by_cases hall : ∀ b ∈ is, Movable m source b.1
  · -- nothing throws: the copy is made, and it is a question of reach
    obtain ⟨m', hm', hiff⟩ := moveFunction_movable hdecodes hdestination htop hdisjoint hall
    constructor
    · rintro (⟨e, he⟩ | ⟨m'', hm'', hpreserved⟩) _
      · rw [hm'] at he
        cases he
      · obtain rfl : m' = m'' := Except.ok.inj (hm'.symm.trans hm'')
        exact hiff.mp hpreserved
    · exact fun hreach => Or.inr ⟨m', hm', hiff.mpr (hreach hall)⟩
  · -- something throws
    refine iff_of_true (Or.inl (moveFunction_thrown hdecodes hdisjoint ?_)) fun h => absurd h hall
    obtain ⟨b, hb⟩ := Classical.not_forall.mp hall
    exact ⟨b, Classical.not_imp.mp hb⟩

/-- A copy that is not far. -/
theorem move_function_preserves_near :
    ∃ m', moveFunction (callNext 0x1000) 0x10 nearRange = .ok m' ∧
      Preserved (callNext 0x1000) m' nearRange 0x10 [(0x1000, 5)] := by
  have hdecodes := callNext_decodes 0x1000
  have h := (move_function_preserves (callNext 0x1000) nearRange 0x10 [(0x1000, 5)] hdecodes (by decide)
    (by decide) (Or.inl (by decide))).mpr fun _ b hb i hi _ => by
      rw [List.mem_singleton.mp hb] at hi ⊢
      have hone : nearDisplacement (callNext 0x1000) 0x1000 = some 1 := by decide +kernel
      obtain rfl : 1 = i := Option.some.inj (hone.symm.trans hi)
      exact ⟨by decide +kernel, by decide +kernel⟩
  rcases h with ⟨e, he⟩ | h
  · obtain ⟨m', hm', _⟩ := callNext_moved nearRange 0x10 rfl (by decide) (by decide)
      (Or.inl (by decide))
    cases hm'.symm.trans he
  · exact h

end Translation

end MicroProfiler
