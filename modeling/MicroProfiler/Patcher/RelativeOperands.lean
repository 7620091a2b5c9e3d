/-
  Which first instructions may be copied below their function?

  1. **The instruction set** — `relativeOperand` says, after Intel's opcode maps and for both modes,
     whether an instruction's meaning depends on where it lies: relative branches behind any
     prefixes and, in 64-bit mode, ModR/M operands based on RIP.

  2. **The check** — `VALIDATION_OVERRIDE` of `patcher/src/jumper.cpp` knows the branches without
     prefixes, but neither `loop` and `jcxz`, nor `xbegin`, nor a prefix, nor RIP: `overlooked`.

  3. A jumper copies an instruction that means something else in its new place EXACTLY WHEN it is
     one of those (`jumper_relocates`).
-/
import MicroProfiler.Patcher.Jumper

namespace MicroProfiler

open Lib (Memory)

/-! ## The instruction set -/

namespace Intel

/-- The instruction without its prefixes: `F0 F2 F3 2E 36 3E 26 64 65 66 67`, in 64-bit mode REX. -/
def dropPrefixes (x64 : Bool) : List UInt8 → List UInt8
  | [] => []
  | b :: rest =>
      if Ldisasm.legacyPrefixes.contains b || (x64 && 0x40 ≤ b && b ≤ 0x4F) then dropPrefixes x64 rest
      else b :: rest

/-- `jcc`, `jmp` and `call` with a relative operand. -/
def plainBranch : List UInt8 → Bool
  | [] => false
  | op :: rest => isShortBranch op || isNearBranch op || (op == 0x0F && rest.head?.any isNearConditional)

/-- `loopne`, `loope`, `loop` and `jcxz`. -/
def loopBranch : List UInt8 → Bool
  | [] => false
  | op :: _ => 0xE0 ≤ op && op ≤ 0xE3

/-- `xbegin` -/
def transactionBegin (o : List UInt8) : Bool := o.take 2 == [0xC7, 0xF8]

/-- Opcodes of one byte with a ModR/M byte, in 64-bit mode. -/
def hasModRM1 (op : UInt8) : Bool :=
  (op < 0x40 && op &&& 7 < 4) || op == 0x63 || op == 0x69 || op == 0x6B || (0x80 ≤ op && op ≤ 0x8F) ||
    op == 0xC0 || op == 0xC1 || op == 0xC6 || op == 0xC7 || (0xD0 ≤ op && op ≤ 0xD3) ||
    (0xD8 ≤ op && op ≤ 0xDF) || op == 0xF6 || op == 0xF7 || op == 0xFE || op == 0xFF

/-- Opcodes of two bytes, the second one given; `mov` from and to control registers has no memory
    operand. -/
def hasModRM2 (op : UInt8) : Bool :=
  op ≤ 0x03 || op == 0x0D || (0x10 ≤ op && op ≤ 0x1F) || (0x28 ≤ op && op ≤ 0x2F) ||
    (0x40 ≤ op && op ≤ 0x76) || (0x78 ≤ op && op ≤ 0x7F) || (0x90 ≤ op && op ≤ 0x9F) ||
    (0xA3 ≤ op && op ≤ 0xA5) || (0xAB ≤ op && op ≤ 0xC7) || 0xD0 ≤ op

/-- The ModR/M byte of an instruction without prefixes: after an opcode of one, two or three bytes, or
    of a VEX or EVEX encoding. -/
def modRM (o : List UInt8) : Option UInt8 :=
  match o with
  | [] => none
  | op :: rest =>
      if op = 0x0F then
        match rest with
        | [] => none
        | op2 :: rest =>
            if op2 = 0x38 ∨ op2 = 0x3A then rest[1]?
            else if hasModRM2 op2 then rest[0]? else none
      else if op = 0xC5 then rest[2]?
      else if op = 0xC4 then rest[3]?
      else if op = 0x62 then rest[4]?
      else if hasModRM1 op then rest[0]? else none

/-- `mod = 00`, `r/m = 101`: the address is relative to RIP. -/
def ripRelative (o : List UInt8) : Bool := (modRM o).any fun b => b &&& 0xC7 == 5

/-- Does the instruction mean something else in another place? -/
def relativeOperand (x64 : Bool) (i : List UInt8) : Bool :=
  let o := dropPrefixes x64 i
  plainBranch o || loopBranch o || transactionBegin o || (x64 && ripRelative o)

/-- What `VALIDATION_OVERRIDE` lets through of it. -/
def overlooked (x64 : Bool) (i : List UInt8) : Bool :=
  let o := dropPrefixes x64 i
  (decide (o.length < i.length) && plainBranch o) || loopBranch o || transactionBegin o ||
    (x64 && ripRelative o)

theorem dropPrefixes_suffix (x64 : Bool) : ∀ i : List UInt8, dropPrefixes x64 i <:+ i
  | [] => List.suffix_refl []
  | b :: rest => by
    rw [dropPrefixes]
    split
    · exact (dropPrefixes_suffix x64 rest).trans (List.suffix_cons b rest)
    · exact List.suffix_refl _

end Intel

open Intel

namespace Jumper

/-- An instruction that passed the check is no branch without prefixes. -/
theorem plainBranch_eq_false {m : Memory UInt8} {target : Int} {n : Nat}
    (hallowed : validationOverride (codeAt m target) = false) :
    plainBranch (m.load target n) = false := by
  rw [validationOverride, Bool.or_eq_false_iff, Bool.or_eq_false_iff, codeAt_zero, codeAt_one] at hallowed
  obtain ⟨⟨hshort, hnear⟩, hconditional⟩ := hallowed
  cases n with
  | zero => rfl
  | succ n =>
    rw [Memory.load_succ, plainBranch, hshort, hnear, Bool.or_self, Bool.false_or]
    cases n with
    | zero =>
      show (_ && false) = false
      rw [Bool.and_false]
    | succ n =>
      rw [Memory.load_succ]
      exact hconditional

/-- **What the check overlooks is what is wrong with an accepted instruction.** -/
theorem relativeOperand_of_allowed {x64 : Bool} {m : Memory UInt8} {target : Int} {n : Nat}
    (hallowed : validationOverride (codeAt m target) = false) :
    relativeOperand x64 (m.load target n) = overlooked x64 (m.load target n) := by
  have hsuffix := dropPrefixes_suffix x64 (m.load target n)
  unfold relativeOperand overlooked
  dsimp only
  by_cases hprefixed : (dropPrefixes x64 (m.load target n)).length < (m.load target n).length
  · rw [decide_eq_true hprefixed, Bool.true_and]
  · have heq : dropPrefixes x64 (m.load target n) = m.load target n :=
      hsuffix.eq_of_length_le (Nat.not_lt.mp hprefixed)
    rw [heq, plainBranch_eq_false hallowed, Bool.and_false]

/-- An instruction of a true length is copied unless it is skipped. -/
theorem Constructed.entry_neg_iff {p : Platform} {m m₁ : Memory UInt8} {target divertTo : Int}
    {j : Jumper} {length : Nat} (h : Constructed p m target divertTo j m₁ length)
    (htrue : length ≤ 15) : j.entry < 0 ↔ isNop (codeAt m target) = false := by
  cases hnop : isNop (codeAt m target) with
  | true =>
    have hentry := h.entry_eq
    rw [entryField_isNop hnop h.decoded] at hentry
    simp only [Bool.true_eq_false, iff_false]
    omega
  | false =>
    have hentry := (h.relocated htrue hnop).1
    simp only [iff_true]
    omega

/-- `jecxz`, and `mov rax, [rip + 10h]`. -/
def jecxz : Memory UInt8 := fun a => if a = 0 then 0xE3 else if a = 1 then 0x05 else 0xCC

def movRaxRip : Memory UInt8 := fun a =>
  if 0 ≤ a ∧ a < 7 then [0x48, 0x8B, 0x05, 0x10, 0x00, 0x00, 0x00].getD a.toNat 0 else 0xCC

/-- Both are copied. -/
theorem jumper_copies_relative :
    (∃ j m₁, construct .intel32 true jecxz 0 0x1000 = some (.ok j, m₁) ∧ j.entry < 0 ∧
      ldisasm false (codeAt jecxz 0) = some 2 ∧ relativeOperand false (jecxz.load 0 2) = true) ∧
    ∃ j m₁, construct .intel64 true movRaxRip 0 0x1000 = some (.ok j, m₁) ∧ j.entry < 0 ∧
      ldisasm true (codeAt movRaxRip 0) = some 7 ∧ relativeOperand true (movRaxRip.load 0 7) = true := by
  have hjecxz : ldisasm false (codeAt jecxz 0) = some 2 := by decide +kernel
  have hmov : ldisasm true (codeAt movRaxRip 0) = some 7 := by decide +kernel
  obtain ⟨j, m₁, hconstruct, hentry⟩ := construct_of .intel32 jecxz 0 2
    (by decide +kernel) hjecxz (Or.inl (by decide)) (by decide +kernel) 0x1000
  obtain ⟨j', m₁', hconstruct', hentry'⟩ := construct_of .intel64 movRaxRip 0 7
    (by decide +kernel) hmov (Or.inl (by decide)) (by decide +kernel) 0x1000
  refine ⟨⟨j, m₁, hconstruct, ?_, hjecxz, by decide +kernel⟩,
    ⟨j', m₁', hconstruct', ?_, hmov, by decide +kernel⟩⟩
  · rw [hentry]
    decide +kernel
  · rw [hentry']
    decide +kernel

/-- **Copied instructions are position independent**, the decoded length being a true one, exactly
    when they are none of the kinds the check overlooks. -/
theorem jumper_relocates (p : Platform) (unprotected : Bool) (m : Memory UInt8) (target divertTo : Int)
    (j : Jumper) (m₁ : Memory UInt8) (length : Nat)
    (hconstruct : construct p unprotected m target divertTo = some (.ok j, m₁))
    (hlength : ldisasm p.x64 (codeAt m target) = some length) (htrue : length ≤ 15) :
    (j.entry < 0 → relativeOperand p.x64 (m.load target length) = false) ↔
      (isNop (codeAt m target) = true ∨ overlooked p.x64 (m.load target length) = false) := by
  obtain ⟨length', h⟩ := construct_ok hconstruct
  obtain rfl : length = length' := Option.some.inj (hlength.symm.trans h.decoded)
  rw [h.entry_neg_iff htrue, relativeOperand_of_allowed h.allowed]
  cases isNop (codeAt m target) with
  | true => simp
  | false => simp

/-- `idiv ecx` may be copied anywhere. -/
theorem jumper_relocates_idiv :
    ∃ j m₁, construct .intel64 true idivEcx 0 0x1000 = some (.ok j, m₁) ∧ j.entry < 0 ∧
      relativeOperand true (idivEcx.load 0 2) = false := by
  have hdecoded : ldisasm true (codeAt idivEcx 0) = some 2 := by decide +kernel
  obtain ⟨j, m₁, hconstruct, hentry⟩ := construct_of .intel64 idivEcx 0 2
    (by decide +kernel) hdecoded (Or.inl (by decide)) (by decide +kernel) 0x1000
  have hneg : j.entry < 0 := by
    rw [hentry]
    decide +kernel
  refine ⟨j, m₁, hconstruct, hneg, ?_⟩
  exact (jumper_relocates _ _ _ _ _ _ _ 2 hconstruct hdecoded (by decide)).mpr
    (Or.inr (by decide +kernel)) hneg

end Jumper

end MicroProfiler
