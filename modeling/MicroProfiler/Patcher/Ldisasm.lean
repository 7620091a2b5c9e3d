/-
  `patcher/src/intel/ldisasm.h`: how long is the instruction at an address?

  1. **The code** — prefixes are skipped (`skipPrefixes`), then tables say which opcodes have a ModR/M
     byte and how long their immediate operand is.  Code is what is read from an address on: `x i`
     is the byte `i` bytes further.

  2. **Locality** (`ldisasm_local`) — the decoder reads no byte past the length it returns, so what
     lies behind an instruction cannot change it.

  3. The lengths of the branches that other modules look for.
-/
import MicroProfiler.Lib.Memory

namespace MicroProfiler

/-- The bytes from `a` on. -/
def codeAt (m : Lib.Memory UInt8) (a : Int) : Nat → UInt8 := fun i => m (a + i)

/-- The first two bytes, as the patcher reads them from memory. -/
theorem codeAt_zero (m : Lib.Memory UInt8) (a : Int) : codeAt m a 0 = m a :=
  congrArg m (Int.add_zero a)

theorem codeAt_one (m : Lib.Memory UInt8) (a : Int) : codeAt m a 1 = m (a + 1) := rfl

namespace Ldisasm

/-- `legacyPrefixes`: lock, repeat, segments, operand size and address size. -/
def legacyPrefixes : List UInt8 :=
  [0xF0, 0xF2, 0xF3, 0x2E, 0x36, 0x3E, 0x26, 0x64, 0x65, 0x66, 0x67]

/-- Opcodes of one byte that a ModR/M byte follows, beside those told by their row. -/
def op1modrm : List UInt8 :=
  [0x62, 0x63, 0x69, 0x6B, 0xC0, 0xC1, 0xC4, 0xC5, 0xC6, 0xC7, 0xD0, 0xD1, 0xD2, 0xD3, 0xF6, 0xF7,
    0xFE, 0xFF]

/-- Opcodes of one byte with an immediate operand of one byte. -/
def op1imm8 : List UInt8 :=
  [0x6A, 0x6B, 0x80, 0x82, 0x83, 0xA8, 0xC0, 0xC1, 0xC6, 0xCD, 0xD4, 0xD5, 0xEB]

/-- Those with an operand of four bytes, of two or eight under a prefix. -/
def op1imm32 : List UInt8 := [0x68, 0x69, 0x81, 0xA9, 0xC7, 0xE8, 0xE9]

/-- Opcodes after `0F` that a ModR/M byte follows. -/
def op2modrm : List UInt8 := [0x0D, 0xA3, 0xA4, 0xA5, 0xAB, 0xAC, 0xAD, 0xAE, 0xAF]

/-- `LDISASM_R` -/
def row (b : UInt8) : Nat := b.toNat / 16

/-- `LDISASM_C` -/
def column (b : UInt8) : Nat := b.toNat % 16

/-- What the prefixes of an instruction said. -/
structure Prefixes where
  /-- `66` -/
  operand : Bool
  /-- `67` -/
  address : Bool
  /-- a REX byte with its bit W -/
  rexW : Bool
deriving DecidableEq, Repr

/-- `parseModRM`: where the instruction has got to, `b` being its opcode. -/
def parseModRM (x : Nat → UInt8) (b : Nat) (addressPrefix : Bool) : Nat :=
  let modrm := x (b + 1)
  if !addressPrefix || 0x40 ≤ modrm then
    -- no SIB byte after an address prefix
    let hasSIB := modrm < 0xC0 && modrm &&& 7 == 4 && !addressPrefix
    let b := if hasSIB then b + 2 else b + 1
    -- a displacement of one byte, of four, or the base of a SIB byte
    if 0x40 ≤ modrm && modrm ≤ 0x7F then b + 1
    else if (modrm ≤ 0x3F && modrm &&& 7 == 5) || (0x80 ≤ modrm && modrm ≤ 0xBF) then
      b + if addressPrefix then 2 else 4
    else if hasSIB && x b &&& 7 == 5 then b + if modrm &&& 64 != 0 then 1 else 4
    else b
  -- with an address prefix, the one form without a register: two bytes more
  else if modrm = 0x26 then b + 3
  else b + 1

/-- The condition of the loop over the prefixes: their number is bounded, but for REX. -/
def isPrefix (x64 : Bool) (i : Nat) (b : UInt8) : Bool :=
  (decide (i < 14) && legacyPrefixes.contains b) || (x64 && row b == 4)

/-- The body of that loop. -/
def Prefixes.add (p : Prefixes) (b : UInt8) : Prefixes :=
  if b = 0x66 then { p with operand := true }
  else if b = 0x67 then { p with address := true }
  else if row b = 4 ∧ 8 ≤ column b then { p with rexW := true }
  else p

/-- The loop over the prefixes, from the `i`-th byte on; `none` after more of them than an `int`
    counts. -/
def skipPrefixes (x64 : Bool) (x : Nat → UInt8) : Nat → Nat → Prefixes → Option (Nat × Prefixes)
  | 0, _, _ => none
  | fuel + 1, i, p =>
      if isPrefix x64 i (x i) then skipPrefixes x64 x fuel (i + 1) (p.add (x i)) else some (i, p)

/-- Opcodes of one byte: the size of the immediate operand. -/
def immediateSize1 (op next : UInt8) (p : Prefixes) : Nat :=
  if (row op = 0xE ∧ column op < 8) ∨ (row op = 0xB ∧ column op < 8) ∨ row op = 7 ∨
      (row op < 4 ∧ (column op = 4 ∨ column op = 0xC)) ∨ (op = 0xF6 ∧ next &&& 48 = 0) ∨
      op ∈ op1imm8 then 1
  else if op = 0xC2 ∨ op = 0xCA then 2
  else if op = 0xC8 then 3
  else if (row op < 4 ∧ (column op = 5 ∨ column op = 0xD)) ∨ (row op = 0xB ∧ 8 ≤ column op) ∨
      (op = 0xF7 ∧ next &&& 48 = 0) ∨ op ∈ op1imm32 then
    -- the size of the operand: all of REX.W, `66` and neither
    if p.rexW then 8 else if p.operand then 2 else 4
  else if row op = 0xA ∧ column op < 4 then if p.rexW then 8 else if p.address then 2 else 4
  else if op = 0xEA ∨ op = 0x9A then if p.operand then 4 else 6
  else 0

/-- Is there a ModR/M byte? Opcodes of one byte. -/
def hasModRM1 (op : UInt8) : Bool :=
  decide (op ∈ op1modrm ∨ (row op < 4 ∧ (column op < 4 ∨ (8 ≤ column op ∧ column op < 0xC))) ∨
    row op = 8 ∨ (row op = 0xD ∧ 8 ≤ column op))

/-- Opcodes of two bytes. -/
def immediateSize2 (op : UInt8) : Nat :=
  if row op = 8 then 4
  else if (row op = 7 ∧ column op < 4) ∨ op = 0xA4 ∨ op = 0xC2 ∨ (0xC3 < op ∧ op ≤ 0xC6) ∨
      op = 0xBA ∨ op = 0xAC then 1
  else 0

/-- The same of opcodes after `0F`. -/
def hasModRM2 (op : UInt8) : Bool :=
  decide (op ∈ op2modrm ∨ (row op ≠ 3 ∧ 0 < row op ∧ row op < 7) ∨ 0xD0 ≤ op ∨
    (row op = 7 ∧ column op ≠ 7) ∨ row op = 9 ∨ row op = 0xB ∨ (row op = 0xC ∧ column op < 8) ∨
    (row op = 0 ∧ column op < 4))

/-- The length from the opcode on. -/
def opcodeLength (x : Nat → UInt8) (p : Prefixes) : Nat :=
  if x 0 = 0x0F then
    -- opcodes of three bytes always have a ModR/M byte
    if x 1 = 0x38 ∨ x 1 = 0x3A then
      parseModRM x 2 p.address + 1 + if x 1 = 0x3A then 1 else 0
    else (if hasModRM2 (x 1) then parseModRM x 1 p.address else 1) + 1 + immediateSize2 (x 1)
  else
    (if hasModRM1 (x 0) then parseModRM x 0 p.address else 0) + 1 + immediateSize1 (x 0) (x 1) p

end Ldisasm

open Ldisasm in
/-- `ldisasm`; `x64` is its `x86_64_mode`. -/
def ldisasm (x64 : Bool) (x : Nat → UInt8) : Option Nat :=
  (skipPrefixes x64 x 0x7FFFFFFF 0 ⟨false, false, false⟩).map fun r =>
    r.1 + opcodeLength (fun i => x (r.1 + i)) r.2

namespace Ldisasm

/-! ## Locality -/

/-- It goes past the ModR/M byte at least. -/
theorem parseModRM_ge (x : Nat → UInt8) (b : Nat) (addressPrefix : Bool) :
    b + 1 ≤ parseModRM x b addressPrefix := by
  simp only [parseModRM]
  repeat' split
  all_goals omega

/-- The ModR/M byte and the SIB byte are all it reads. -/
theorem parseModRM_local {x y : Nat → UInt8} {b : Nat} {addressPrefix : Bool}
    (hxy : ∀ i, i ≤ parseModRM x b addressPrefix → x i = y i) :
    parseModRM y b addressPrefix = parseModRM x b addressPrefix := by
  have hmodrm : x (b + 1) = y (b + 1) := hxy _ (parseModRM_ge x b addressPrefix)
  -- whether there is a SIB byte is told by the ModR/M byte, on which `x` and `y` agree
  by_cases hsib : (x (b + 1) < 0xC0 && x (b + 1) &&& 7 == 4 && !addressPrefix) = true
  · have hnext : x (b + 2) = y (b + 2) := by
      refine hxy _ ?_
      have haddress : (!addressPrefix || decide (0x40 ≤ x (b + 1))) = true := by
        rw [Bool.and_eq_true] at hsib
        rw [hsib.2, Bool.true_or]
      simp only [parseModRM, hsib, if_true]
      rw [if_pos haddress]
      repeat' split
      all_goals omega
    simp only [parseModRM, ← hmodrm, hsib, if_true, ← hnext]
  · rw [Bool.not_eq_true] at hsib
    simp only [parseModRM, ← hmodrm, hsib, Bool.false_and, Bool.false_eq_true, if_false]

/-- Only for the group of `test` is the byte after the opcode looked at, and it has a ModR/M byte. -/
theorem immediateSize1_of_not_modRM {op : UInt8} (h : hasModRM1 op = false) (next next' : UInt8)
    (p : Prefixes) : immediateSize1 op next p = immediateSize1 op next' p := by
  have hmem : op ∉ op1modrm := fun hmem => of_decide_eq_false h (Or.inl hmem)
  have hf6 : op ≠ 0xF6 := by rintro rfl; exact hmem (by decide)
  have hf7 : op ≠ 0xF7 := by rintro rfl; exact hmem (by decide)
  simp only [immediateSize1, hf6, hf7, false_and]

/-- The opcode itself counts. -/
theorem opcodeLength_pos (x : Nat → UInt8) (p : Prefixes) : 0 < opcodeLength x p := by
  unfold opcodeLength
  repeat' split
  all_goals omega

/-- What follows the prefixes reads no further than its length: the cases are those of
    `opcodeLength`, and in each the bytes it decides by are shown to lie inside before they are
    used. -/
theorem opcodeLength_local {x y : Nat → UInt8} {p : Prefixes}
    (hxy : ∀ i, i < opcodeLength x p → x i = y i) : opcodeLength y p = opcodeLength x p := by
  have h0 : x 0 = y 0 := hxy 0 (opcodeLength_pos x p)
  -- after `0F` the second byte counts too
  by_cases hop : x 0 = 0x0F
  · -- both are inside the instruction
    have hlong : ∀ i, i < 2 → x i = y i := by
      intro i hi
      refine hxy i ?_
      have h1 := parseModRM_ge x 1 p.address
      have h2 := parseModRM_ge x 2 p.address
      unfold opcodeLength
      rw [if_pos hop]
      repeat' split
      all_goals omega
    have h1 : x 1 = y 1 := hlong 1 (by omega)
    -- three bytes of opcode, or two
    by_cases hthree : x 1 = 0x38 ∨ x 1 = 0x3A
    · have hmodrm : parseModRM y 2 p.address = parseModRM x 2 p.address := by
        refine parseModRM_local fun i hi => hxy i ?_
        unfold opcodeLength
        rw [if_pos hop, if_pos hthree]
        omega
      unfold opcodeLength
      rw [← h0, ← h1, hmodrm]
      simp only [if_pos hop, if_pos hthree]
    · unfold opcodeLength
      rw [← h0, ← h1]
      simp only [if_pos hop, if_neg hthree]
      cases hm : hasModRM2 (x 1) with
      | false => rfl
      | true =>
        have hmodrm : parseModRM y 1 p.address = parseModRM x 1 p.address := by
          refine parseModRM_local fun i hi => hxy i ?_
          unfold opcodeLength
          rw [if_pos hop, if_neg hthree, if_pos hm]
          omega
        rw [hmodrm]
  · unfold opcodeLength
    rw [← h0, if_neg hop, if_neg hop]
    cases hm : hasModRM1 (x 0) with
    | false =>
      -- no ModR/M byte: the next byte is not looked at
      rw [immediateSize1_of_not_modRM hm (y 1) (x 1)]
      rfl
    | true =>
      have hreads : ∀ i, i ≤ parseModRM x 0 p.address → x i = y i := by
        intro i hi
        refine hxy i ?_
        unfold opcodeLength
        rw [if_neg hop, if_pos hm]
        omega
      rw [parseModRM_local hreads, ← hreads 1 (parseModRM_ge x 0 p.address)]

/-- The loop over the prefixes reads up to the first byte that is none. By induction on the fuel. -/
theorem skipPrefixes_local {x64 : Bool} {x y : Nat → UInt8} {j : Nat} {q : Prefixes} :
    ∀ (fuel i : Nat) (p : Prefixes), skipPrefixes x64 x fuel i p = some (j, q) →
      i ≤ j ∧ ((∀ k, k ≤ j → x k = y k) → skipPrefixes x64 y fuel i p = some (j, q))
  | 0, i, p => by
    intro h
    cases h
  | fuel + 1, i, p => by
    intro h
    rw [skipPrefixes] at h
    split at h
    · next hskipped =>
      -- one prefix more
      obtain ⟨hle, hrest⟩ := skipPrefixes_local fuel (i + 1) (p.add (x i)) h
      refine ⟨by omega, fun hxy => ?_⟩
      rw [skipPrefixes, ← hxy i (by omega), if_pos hskipped]
      exact hrest hxy
    · next hskipped =>
      -- the opcode is reached
      obtain ⟨rfl, rfl⟩ := Prod.mk.inj (Option.some.inj h)
      refine ⟨Nat.le_refl i, fun hxy => ?_⟩
      rw [skipPrefixes, ← hxy i (Nat.le_refl i), if_neg hskipped]

end Ldisasm

open Ldisasm

/-- **The decoder reads the instruction only.** -/
theorem ldisasm_local {x64 : Bool} {x y : Nat → UInt8} {n : Nat} (h : ldisasm x64 x = some n)
    (hxy : ∀ i, i < n → x i = y i) : ldisasm x64 y = some n := by
  obtain ⟨⟨j, q⟩, hskip, rfl⟩ := Option.map_eq_some_iff.mp h
  have hpos := opcodeLength_pos (fun i => x (j + i)) q
  -- behind the prefixes, then the prefixes themselves
  have hopcode : opcodeLength (fun i => y (j + i)) q = opcodeLength (fun i => x (j + i)) q := by
    refine opcodeLength_local fun i hi => hxy (j + i) ?_
    dsimp only
    omega
  have hy := (skipPrefixes_local (y := y) _ _ _ hskip).2 fun k hk => hxy k (by dsimp only; omega)
  rw [ldisasm, hy, Option.map_some, hopcode]

/-- No instruction is empty: a walk over code goes on at every step. -/
theorem ldisasm_pos {x64 : Bool} {x : Nat → UInt8} {n : Nat} (h : ldisasm x64 x = some n) :
    0 < n := by
  obtain ⟨⟨j, q⟩, _, rfl⟩ := Option.map_eq_some_iff.mp h
  have hpos := opcodeLength_pos (fun i => x (j + i)) q
  dsimp only
  omega

/-! ## Bounds -/

/-- At most: ModR/M, SIB and a displacement of four bytes. -/
theorem parseModRM_le (x : Nat → UInt8) (b : Nat) (addressPrefix : Bool) :
    parseModRM x b addressPrefix ≤ b + 6 := by
  simp only [parseModRM]
  repeat' split
  all_goals omega

/-! ## Branches without prefixes -/

/-- `jcc rel8` and `jmp rel8`. -/
def isShortBranch (op : UInt8) : Bool := (0x70 ≤ op && op ≤ 0x7F) || op == 0xEB

/-- `call rel32` and `jmp rel32`. -/
def isNearBranch (op : UInt8) : Bool := op == 0xE8 || op == 0xE9

/-- `jcc rel32`, after the byte `0F`. -/
def isNearConditional (op : UInt8) : Bool := 0x80 ≤ op && op ≤ 0x8F

/-- What holds of the 256 bytes. -/
theorem forall_byte {P : UInt8 → Prop} (h : ∀ n : Nat, n < 256 → P (UInt8.ofNat n)) (b : UInt8) :
    P b := by
  have hb := h b.toNat b.toNat_lt
  rwa [UInt8.ofNat_toNat] at hb

/-- Where the first byte is no prefix, the length is that of the opcode. -/
theorem ldisasm_of_opcode {x64 : Bool} {x : Nat → UInt8} (h : isPrefix x64 0 (x 0) = false) :
    ldisasm x64 x = some (opcodeLength x ⟨false, false, false⟩) := by
  have hskip : skipPrefixes x64 x (0x7FFFFFFE + 1) 0 ⟨false, false, false⟩ =
      some (0, ⟨false, false, false⟩) := by
    rw [skipPrefixes, h]
    rfl
  rw [ldisasm, hskip, Option.map_some]
  simp only [Nat.zero_add]

/-- What the tables say of a branch, by looking at all of the bytes. -/
theorem shortBranch_opcode (op : UInt8) (h : isShortBranch op = true) :
    (∀ x64, isPrefix x64 0 op = false) ∧ op ≠ 0x0F ∧ isNearBranch op = false ∧ hasModRM1 op = false ∧
      immediateSize1 op 0 ⟨false, false, false⟩ = 1 := by
  revert op
  refine forall_byte ?_
  decide +kernel

/-- The same of those with an operand of four bytes. -/
theorem nearBranch_opcode (op : UInt8) (h : isNearBranch op = true) :
    (∀ x64, isPrefix x64 0 op = false) ∧ op ≠ 0x0F ∧ hasModRM1 op = false ∧
      immediateSize1 op 0 ⟨false, false, false⟩ = 4 := by
  revert op
  refine forall_byte ?_
  decide +kernel

/-- The same of those after `0F`. -/
theorem nearConditional_opcode (op : UInt8) (h : isNearConditional op = true) :
    op ≠ 0x38 ∧ op ≠ 0x3A ∧ hasModRM2 op = false ∧ immediateSize2 op = 4 := by
  revert op
  refine forall_byte ?_
  decide +kernel

/-- The opcode and one byte, in either mode. -/
theorem ldisasm_shortBranch {x : Nat → UInt8} (x64 : Bool) (h : isShortBranch (x 0) = true) :
    ldisasm x64 x = some 2 := by
  obtain ⟨hskipped, hop, _, hmodrm, himmediate⟩ := shortBranch_opcode (x 0) h
  rw [ldisasm_of_opcode (hskipped x64), opcodeLength, if_neg hop,
    immediateSize1_of_not_modRM hmodrm (x 1) 0, himmediate, hmodrm]
  rfl

/-- The opcode and four bytes. -/
theorem ldisasm_nearBranch {x : Nat → UInt8} (x64 : Bool) (h : isNearBranch (x 0) = true) :
    ldisasm x64 x = some 5 := by
  obtain ⟨hskipped, hop, hmodrm, himmediate⟩ := nearBranch_opcode (x 0) h
  rw [ldisasm_of_opcode (hskipped x64), opcodeLength, if_neg hop,
    immediateSize1_of_not_modRM hmodrm (x 1) 0, himmediate, hmodrm]
  rfl

/-- Two bytes of opcode and four of displacement. -/
theorem ldisasm_nearConditional {x : Nat → UInt8} (x64 : Bool) (hop : x 0 = 0x0F)
    (h : isNearConditional (x 1) = true) : ldisasm x64 x = some 6 := by
  obtain ⟨h38, h3a, hmodrm, himmediate⟩ := nearConditional_opcode (x 1) h
  have hskipped : isPrefix x64 0 (x 0) = false := by
    rw [hop]
    cases x64 <;> decide
  rw [ldisasm_of_opcode hskipped, opcodeLength, if_pos hop, if_neg (by simp [h38, h3a]), himmediate,
    hmodrm]
  rfl

/-- An opcode of two bytes has both. -/
theorem two_le_of_escape {x64 : Bool} {x : Nat → UInt8} {n : Nat} (hop : x 0 = 0x0F)
    (h : ldisasm x64 x = some n) : 2 ≤ n := by
  have hskipped : isPrefix x64 0 (x 0) = false := by
    rw [hop]
    cases x64 <;> decide
  have h1 := parseModRM_ge x 1 false
  have h2 := parseModRM_ge x 2 false
  rw [ldisasm_of_opcode hskipped, opcodeLength, if_pos hop] at h
  rw [← Option.some.inj h]
  dsimp only
  repeat' split
  all_goals omega

/-- `nop` -/
theorem ldisasm_nop {x : Nat → UInt8} (x64 : Bool) (hop : x 0 = 0x90) : ldisasm x64 x = some 1 := by
  have hskipped : isPrefix x64 0 (x 0) = false := by
    rw [hop]
    cases x64 <;> decide
  rw [ldisasm_of_opcode hskipped, opcodeLength, hop,
    immediateSize1_of_not_modRM (by decide) (x 1) 0]
  rfl

/-- `xchg ax, ax` -/
theorem ldisasm_operandNop {x : Nat → UInt8} (x64 : Bool) (h0 : x 0 = 0x66) (h1 : x 1 = 0x90) :
    ldisasm x64 x = some 2 := by
  have hskip : skipPrefixes x64 x (0x7FFFFFFD + 1 + 1) 0 ⟨false, false, false⟩ =
      some (1, ⟨true, false, false⟩) := by
    rw [skipPrefixes, skipPrefixes, h0, h1]
    cases x64 <;> rfl
  have hop : x (1 + 0) = 0x90 := h1
  rw [ldisasm, hskip, Option.map_some]
  simp only [opcodeLength, hop]
  rw [immediateSize1_of_not_modRM (by decide) (x (1 + 1)) 0]
  rfl

/-- `mov edi, edi` -/
theorem ldisasm_movEdi {x : Nat → UInt8} (x64 : Bool) (h0 : x 0 = 0x8B) (h1 : x 1 = 0xFF) :
    ldisasm x64 x = some 2 := by
  have hskipped : isPrefix x64 0 (x 0) = false := by
    rw [h0]
    cases x64 <;> decide
  rw [ldisasm_of_opcode hskipped, opcodeLength, h0, h1]
  simp only [parseModRM, h1]
  rfl

/-- `nop` with an operand. -/
theorem ldisasm_longNop {x : Nat → UInt8} (x64 : Bool) (h0 : x 0 = 0x0F) (h1 : x 1 = 0x1F) :
    ∃ n, ldisasm x64 x = some n ∧ 3 ≤ n ∧ n ≤ 8 := by
  have hskipped : isPrefix x64 0 (x 0) = false := by
    rw [h0]
    cases x64 <;> decide
  have hlength : opcodeLength x ⟨false, false, false⟩ = parseModRM x 1 false + 1 := by
    rw [opcodeLength, h0, h1]
    rfl
  have hlo := parseModRM_ge x 1 false
  have hhi := parseModRM_le x 1 false
  exact ⟨_, ldisasm_of_opcode hskipped, by omega, by omega⟩

end MicroProfiler
