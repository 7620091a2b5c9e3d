/-
  `patcher/jumper.h`, `patcher/src/jumper.cpp`: a function's beginning is diverted to a trampoline.

  1. **The code** — the constructor writes a `prologue` right below the function: the jumper template
     and, when the first instruction has to make room for the fuse, a copy of it and a short jump
     back.  `activate` puts the fuse, a short jump to the prologue, over the first two bytes.
     Memory protection is the operating system's: `unprotected` says whether `scoped_unprotect` let
     the code have its way.

  2. **Memory** (`jumper_restores`) — whatever is activated and reverted, destruction gives back every
     byte, EXACTLY WHEN the entry offset survives the 6 bits it is kept in: `_entry : 6` holds
     `-(2 + extra)` for instructions of up to 30 bytes, and REX prefixes go on for as long as they
     like.

  3. **Continuation** (`jumper_continues`) — the code behind `entry()` goes on past the fuse, unless the
     function begins with a `nop` that is not followed by another, or, in 64-bit code, with
     `mov edi, edi`: it is skipped as a no-op, and there it clears the upper half of `rdi`.
-/
import MicroProfiler.Patcher.Ldisasm

namespace MicroProfiler

open Lib (Memory)
open Lib.Memory (SameOutside lowByte signedByte leBytes)

/-- What the build fixes: `sizeof(void *) == 8`, and `c_jumper_proto` with `c_jumper_size`, for which
    a short jump reaches back over the longest prologue. -/
structure Platform where
  x64 : Bool
  jumperProto : List UInt8
  /-- there is something to write -/
  nonempty : 0 < jumperProto.length
  /-- so that the fuse and the jump back are short jumps -/
  reach : jumperProto.length + 32 + 2 ≤ 128

/-- `sizeof(void *)` -/
def Platform.wordSize (p : Platform) : Nat := if p.x64 then 8 else 4

/-- `trampoline_x86.s`: `jmp` to the trampoline. -/
def Platform.intel32 : Platform :=
  ⟨false, [0xE9, 0x81, 0x59, 0x41, 0x31], by decide, by decide⟩

/-- `trampoline_x64.s`: `mov` of the trampoline's address to `rax`, and `jmp rax`. -/
def Platform.intel64 : Platform :=
  ⟨true, [0x48, 0xB8, 0x01, 0x00, 0x00, 0x00, 0x26, 0x59, 0x41, 0x31, 0xFF, 0xE0], by decide, by decide⟩

/-- `currently_prohibited`, `leading_too_short`, `padding_insufficient` -/
inductive PatchException
  | currentlyProhibited
  | leadingTooShort
  | paddingInsufficient
deriving DecidableEq, Repr

/-- `class jumper`; the target and `_fuse_revert` as far as it is used. -/
structure Jumper where
  target : Int
  /-- the two bytes under the fuse, while it is there -/
  fuseRevert : List UInt8
  /-- what the prologue's place was full of -/
  fill : UInt8
  /-- `_entry`, where the code to go on at is -/
  entry : Int
  active : Bool
  detached : Bool
deriving DecidableEq, Repr

namespace Jumper

/-- `VALIDATION_OVERRIDE`: does it throw? -/
def validationOverride (x : Nat → UInt8) : Bool :=
  isShortBranch (x 0) || isNearBranch (x 0) || (x 0 == 0x0F && isNearConditional (x 1))

/-- `assembler::is_nop(byte)` -/
def isNopOpcode (op : UInt8) : Bool := op == 0x90

/-- `assembler::is_nop(byte *)` -/
def isNop (x : Nat → UInt8) : Bool :=
  (x 0 == 0x90 && x 1 == 0x90) || (x 0 == 0x8B && x 1 == 0xFF) || (x 0 == 0x66 && x 1 == 0x90) ||
    (x 0 == 0x0F && x 1 == 0x1F)

/-- `static_cast<signed char>` of a length. -/
def signedChar (n : Nat) : Int := Int.bmod n 256

/-- What is assigned to `_entry`, a field of 6 bits: how far into the function a no-op ends, or
    where below it the copy of the instruction begins. -/
def entryField (x : Nat → UInt8) (extra : Int) : Int :=
  Int.bmod (if isNop x then max extra 2 else -(2 + extra)) 64

/-- `prologue_size`, a byte. -/
def prologueSize (p : Platform) (j : Jumper) : Nat :=
  (p.jumperProto.length + if j.entry < 0 then (-j.entry).toNat else 0) % 256

/-- Where the prologue begins: it ends at the function. -/
def prologue (p : Platform) (j : Jumper) : Int := j.target - j.prologueSize p

/-- `short_jump::init`, for a jump at `place`.  The distance is counted from the end of the jump. -/
def shortJump (place address : Int) : List UInt8 := [0xEB, lowByte (address - (place + 2))]

/-- `is_uniform`: the bytes are all like the first, as padding is. -/
def isUniform (m : Memory UInt8) (a : Int) (n : Nat) : Bool :=
  (List.range n).all fun i => m (a + i) == m a

/-- `construct_replace_seq`, as it lies in memory: the mark of a place to fill in, with its index.
    -/
def constructReplaceSeq (p : Platform) (index : Nat) : List UInt8 :=
  leBytes p.wordSize (0x31415926 * 256 ^ (p.wordSize - 4) / 256 * 256 + index)

/-- `replace`, from `i` on with `n` bytes to go: every occurrence of the sequence is overwritten. -/
def replace (seq : List UInt8) (writer : Int → List UInt8) :
    Nat → Memory UInt8 → Int → Nat → Memory UInt8
  | 0, m, _, _ => m
  | fuel + 1, m, i, n =>
      if n < seq.length then m
      else if m.load i seq.length = seq then
        replace seq writer fuel (m.store i (writer (i + seq.length))) (i + seq.length) (n - seq.length)
      else replace seq writer fuel m (i + 1) (n - 1)

/-- A pointer as it lies in memory. -/
def pointerBytes (p : Platform) (z : Int) : List UInt8 :=
  leBytes p.wordSize (z % 256 ^ p.wordSize).toNat

/-- The constructor's first writes: the template, with the address of `divert_to` filled in. -/
def writeTemplate (p : Platform) (j : Jumper) (divertTo : Int) (m : Memory UInt8) : Memory UInt8 :=
  let n := p.jumperProto.length
  let m := m.store (j.prologue p) p.jumperProto
  let m := replace (constructReplaceSeq p 1) (fun _ => pointerBytes p divertTo) n m (j.prologue p) n
  replace (constructReplaceSeq p 0x81) (fun address => pointerBytes p (divertTo - address)) n m
    (j.prologue p) n

/-- What the constructor writes: after the template, the instruction that makes room for the fuse,
    and a jump to what follows it. -/
def install (p : Platform) (j : Jumper) (divertTo extra : Int) (m : Memory UInt8) : Memory UInt8 :=
  let m := j.writeTemplate p divertTo m
  if j.entry < 0 then
    (m.copy (j.target + j.entry) j.target extra.toNat).store (j.target - 2)
      (shortJump (j.target - 2) (j.target + extra))
  else m

/-- `jumper::jumper`: what became of it, and of the memory; `none` when `ldisasm` does not return. -/
def construct (p : Platform) (unprotected : Bool) (m : Memory UInt8) (target divertTo : Int) :
    Option (Except PatchException Jumper × Memory UInt8) :=
  let x := codeAt m target
  if validationOverride x then some (.error .currentlyProhibited, m)
  else (ldisasm p.x64 x).map fun length =>
    let extra := signedChar length
    if extra < 2 ∧ isNopOpcode (x 0) = false then (.error .leadingTooShort, m)
    else
      let j : Jumper := ⟨target, [], 0, entryField x extra, false, false⟩
      -- `scoped_unprotect` throws a `runtime_error`, which the handler turns into this
      if unprotected = false then (.error .paddingInsufficient, m)
      else if isUniform m (j.prologue p) (j.prologueSize p) = false then
        (.error .paddingInsufficient, m)
      else (.ok { j with fill := m (j.prologue p) }, j.install p divertTo extra m)

/-- `activate`: what it returned, `none` when it threw. -/
def activate (p : Platform) (unprotected : Bool) (s : Jumper × Memory UInt8) :
    Option Bool × Jumper × Memory UInt8 :=
  if s.1.detached then (none, s)
  else if s.1.active then (some false, s)
  else if unprotected = false then (none, s)
  else
    -- what the fuse displaces is kept for `revert`
    (some true, { s.1 with fuseRevert := s.2.load s.1.target 2, active := true },
      s.2.store s.1.target (shortJump s.1.target (s.1.prologue p)))

/-- `revert`. -/
def revert (unprotected : Bool) (s : Jumper × Memory UInt8) : Option Bool × Jumper × Memory UInt8 :=
  if s.1.detached then (none, s)
  else if s.1.active = false then (some false, s)
  else if unprotected = false then (none, s)
  else (some true, { s.1 with active := false }, s.2.store s.1.target s.1.fuseRevert)

/-- `~jumper`; `none` when the protection cannot be lifted: an exception leaves a destructor. -/
def destroy (p : Platform) (unprotected : Bool) (s : Jumper × Memory UInt8) : Option (Memory UInt8) :=
  if s.1.detached then some s.2
  else if unprotected = false then none
  else
    let m := if s.1.active then s.2.store s.1.target s.1.fuseRevert else s.2
    some (m.fill (s.1.prologue p) s.1.fill (s.1.prologueSize p))

end Jumper

/-- A call on a jumper, with what the operating system has to say about it. -/
inductive JumperCall
  | activate (unprotected : Bool)
  | revert (unprotected : Bool)
deriving DecidableEq, Repr

namespace Jumper

/-- A call, for what it does to the jumper and to the memory. -/
def call (p : Platform) (s : Jumper × Memory UInt8) : JumperCall → Jumper × Memory UInt8
  | .activate unprotected => (activate p unprotected s).2
  | .revert unprotected => (revert unprotected s).2

/-! ## What the constructor leaves behind -/

/-- A jumper as the constructor returns it, for an instruction of the decoded `length`. -/
structure Constructed (p : Platform) (m : Memory UInt8) (target divertTo : Int) (j : Jumper)
    (m₁ : Memory UInt8) (length : Nat) : Prop where
  /-- the first instruction, as the decoder has it -/
  decoded : ldisasm p.x64 (codeAt m target) = some length
  /-- it is no relative jump -/
  allowed : validationOverride (codeAt m target) = false
  /-- it makes room for the fuse, or is a `nop` -/
  long : 2 ≤ signedChar length ∨ codeAt m target 0 = 0x90
  target_eq : j.target = target
  entry_eq : j.entry = entryField (codeAt m target) (signedChar length)
  idle : j.active = false
  attached : j.detached = false
  /-- there was padding where the prologue went -/
  uniform : ∀ i : Nat, i < j.prologueSize p → m (j.prologue p + i) = j.fill
  memory : m₁ = j.install p divertTo (signedChar length) m

section

variable {p : Platform} {unprotected : Bool} {m m₁ : Memory UInt8} {target divertTo : Int}

/-- **A constructor that throws has changed nothing.**  It checks everything before its first write.
    -/
theorem construct_error {e : PatchException}
    (h : construct p unprotected m target divertTo = some (.error e, m₁)) : m₁ = m := by
  unfold construct at h
  dsimp only at h
  split at h
  · exact (Prod.mk.inj (Option.some.inj h)).2.symm
  · obtain ⟨length, _, hrest⟩ := Option.map_eq_some_iff.mp h
    split at hrest
    · exact (Prod.mk.inj hrest).2.symm
    · split at hrest
      · exact (Prod.mk.inj hrest).2.symm
      · split at hrest
        · exact (Prod.mk.inj hrest).2.symm
        · cases (Prod.mk.inj hrest).1

/-- What a constructor that returns has checked, and done. -/
theorem construct_ok {j : Jumper}
    (h : construct p unprotected m target divertTo = some (.ok j, m₁)) :
    ∃ length, Constructed p m target divertTo j m₁ length := by
  unfold construct at h
  dsimp only at h
  split at h
  · cases (Prod.mk.inj (Option.some.inj h)).1
  · -- no relative jump
    next hallowed =>
    obtain ⟨length, hlength, hrest⟩ := Option.map_eq_some_iff.mp h
    split at hrest
    · cases (Prod.mk.inj hrest).1
    · -- long enough, or a `nop`
      next hlong =>
      split at hrest
      · cases (Prod.mk.inj hrest).1
      · split at hrest
        · cases (Prod.mk.inj hrest).1
        · -- padding below it
          next huniform =>
          obtain ⟨hj, rfl⟩ := Prod.mk.inj hrest
          obtain rfl := Except.ok.inj hj
          refine ⟨length, hlength, Bool.eq_false_iff.mpr hallowed, ?_, rfl, rfl, rfl, rfl, ?_, rfl⟩
          · rw [isNopOpcode, beq_eq_false_iff_ne] at hlong
            by_cases hnop : codeAt m target 0 = 0x90
            · exact Or.inr hnop
            · exact Or.inl (Int.not_lt.mp fun hshort => hlong ⟨hshort, hnop⟩)
          · rw [Bool.not_eq_false, isUniform, List.all_eq_true] at huniform
            intro i hi
            exact eq_of_beq (huniform i (List.mem_range.mpr hi))

end

/-! ## Where it writes -/

/-- Six bits, with a sign. -/
theorem entryField_bounds (x : Nat → UInt8) (extra : Int) :
    -32 ≤ entryField x extra ∧ entryField x extra < 32 := by
  unfold entryField
  have hlo := Int.le_bmod (x := if isNop x then max extra 2 else -(2 + extra)) (m := 64) (by decide)
  have hhi := Int.bmod_lt (x := if isNop x then max extra 2 else -(2 + extra)) (m := 64) (by decide)
  omega

section

variable {p : Platform} {j : Jumper}

/-- The prologue is short enough for its size to be kept in a byte. -/
theorem prologueSize_eq (hlo : -32 ≤ j.entry) :
    j.prologueSize p = p.jumperProto.length + if j.entry < 0 then (-j.entry).toNat else 0 := by
  have hreach := p.reach
  unfold prologueSize
  refine Nat.mod_eq_of_lt ?_
  split <;> omega

/-- A search over some bytes writes within them.  By recursion on the fuel. -/
theorem replace_sameOutside {seq : List UInt8} {writer : Int → List UInt8}
    (hwriter : ∀ a, (writer a).length = seq.length) : ∀ (fuel : Nat) (m : Memory UInt8) (i : Int) (n : Nat),
    SameOutside i (i + n) m (replace seq writer fuel m i n)
  | 0, m, i, n => fun _ _ => rfl
  | fuel + 1, m, i, n => by
    rw [replace]
    split
    · exact fun _ _ => rfl
    · -- an occurrence is overwritten by as many bytes, or the search goes on by one
      next hroom =>
      split
      · have hwrite := Memory.store_sameOutside (writer (i + seq.length)) m i
        rw [hwriter] at hwrite
        have hrest := replace_sameOutside hwriter fuel (m.store i (writer (i + seq.length)))
          (i + seq.length) (n - seq.length)
        exact (hwrite.mono (Int.le_refl i) (by omega)).trans (hrest.mono (by omega) (by omega))
      · by_cases hn : n = 0
        · subst hn
          have hrest := replace_sameOutside hwriter fuel m (i + 1) (0 - 1)
          refine fun x _ => hrest x (by omega)
        · exact (replace_sameOutside hwriter fuel m (i + 1) (n - 1)).mono (by omega) (by omega)

/-- The template is written where it is. -/
theorem writeTemplate_sameOutside (divertTo : Int) (m : Memory UInt8) :
    SameOutside (j.prologue p) (j.prologue p + p.jumperProto.length) m
      (j.writeTemplate p divertTo m) := by
  have hlength : ∀ index z, (pointerBytes p z).length = (constructReplaceSeq p index).length := by
    intro index z
    rw [pointerBytes, constructReplaceSeq, Memory.length_leBytes, Memory.length_leBytes]
  unfold writeTemplate
  dsimp only
  exact ((Memory.store_sameOutside _ _ _).trans
    (replace_sameOutside (fun _ => hlength 1 _) _ _ _ _)).trans
    (replace_sameOutside (fun _ => hlength 0x81 _) _ _ _ _)

/-- The template ends where the copied instruction begins, or at the function. -/
theorem prologue_add (hlo : -32 ≤ j.entry) :
    j.prologue p + p.jumperProto.length = if j.entry < 0 then j.target + j.entry else j.target := by
  rw [prologue, prologueSize_eq hlo]
  split <;> omega

/-- An opcode and a byte. -/
theorem shortJump_length (place address : Int) : (shortJump place address).length = 2 := rfl

variable {m : Memory UInt8} {divertTo extra : Int}

/-- Nothing below the prologue is touched. -/
theorem install_below (hlo : -32 ≤ j.entry) {a : Int} (ha : a < j.prologue p) :
    j.install p divertTo extra m a = m a := by
  have htemplate := writeTemplate_sameOutside (p := p) (j := j) divertTo m a (Or.inl ha)
  have hends := prologue_add (p := p) hlo
  have hnonempty := p.nonempty
  unfold install
  split
  · -- an instruction is copied, below the function
    next hneg =>
    rw [if_pos hneg] at hends
    rw [Memory.store_sameOutside _ _ _ a (Or.inl (by omega)),
      Memory.copy_sameOutside _ _ _ _ a (Or.inl (by omega))]
    exact htemplate
  · -- only the template is written
    exact htemplate

/-- From the function on, nothing is touched unless an instruction is copied. -/
theorem install_plain (hlo : -32 ≤ j.entry) (hentry : 0 ≤ j.entry) {a : Int} (ha : j.target ≤ a) :
    j.install p divertTo extra m a = m a := by
  have hends := prologue_add (p := p) hlo
  rw [if_neg (by omega)] at hends
  unfold install
  rw [if_neg (by omega)]
  exact writeTemplate_sameOutside divertTo m a (Or.inr (by omega))

variable (p m divertTo extra) in
/-- The copy of an instruction that is longer than the room left for it runs into the function. -/
theorem install_copied (hlo : -32 ≤ j.entry) (hentry : j.entry < 0) {a : Int} (ha : j.target ≤ a) :
    j.install p divertTo extra m a =
      if a < j.target + j.entry + extra then m (a - j.entry) else m a := by
  have hends := prologue_add (p := p) hlo
  rw [if_pos hentry] at hends
  have htemplate : ∀ b, j.target ≤ b → j.writeTemplate p divertTo m b = m b := fun b hb =>
    writeTemplate_sameOutside divertTo m b (Or.inr (by omega))
  unfold install
  rw [if_pos hentry, Memory.store_sameOutside _ _ _ a (Or.inr (by rw [shortJump_length]; omega))]
  split
  · next hin =>
    obtain ⟨i, hi⟩ : ∃ i : Nat, a = j.target + j.entry + i := ⟨(a - (j.target + j.entry)).toNat, by omega⟩
    rw [hi, Memory.copy_inside _ _ _ _ (Or.inl (by omega)) i (by omega), htemplate _ (by omega)]
    exact congrArg m (by omega)
  · rw [Memory.copy_sameOutside _ _ _ _ a (Or.inr (by omega))]
    exact htemplate a ha

end

/-! ## The entry offset and its 6 bits -/

/-- The copy stays below the function, or puts there what is there anyway.  `_entry` is `-(2 + extra)`
    modulo 64, which is negative from 63 to 94 and at 127 again. -/
def Fits (p : Platform) (m : Memory UInt8) (target : Int) : Prop :=
  ∀ length, ldisasm p.x64 (codeAt m target) = some length →
    isNop (codeAt m target) = true ∨ signedChar length ≤ 62 ∨
      (95 ≤ signedChar length ∧ signedChar length ≤ 126) ∨
      ∀ i : Nat, i + (2 + signedChar length) % 64 < signedChar length →
        m (target + i + (2 + signedChar length) % 64) = m (target + i)

/-- Eight bits, with a sign. -/
theorem signedChar_bounds (n : Nat) : -128 ≤ signedChar n ∧ signedChar n < 128 := by
  unfold signedChar
  have hlo := Int.le_bmod (x := (n : Int)) (m := 256) (by decide)
  have hhi := Int.bmod_lt (x := (n : Int)) (m := 256) (by decide)
  omega

/-- A short length is kept as it is. -/
theorem signedChar_of_lt {n : Nat} (h : n < 128) : signedChar n = n := by
  unfold signedChar
  rw [Int.bmod_def]
  split <;> omega

/-- The forms of `nop` that are skipped, and how long they are. -/
theorem isNop_length {x64 : Bool} {x : Nat → UInt8} {n : Nat} (hnop : isNop x = true)
    (hlength : ldisasm x64 x = some n) :
    (x 0 = 0x90 ∧ x 1 = 0x90 ∧ n = 1) ∨ (2 ≤ n ∧ n ≤ 8) := by
  simp only [isNop, Bool.or_eq_true, Bool.and_eq_true, beq_iff_eq] at hnop
  rcases hnop with ((⟨h0, h1⟩ | ⟨h0, h1⟩) | ⟨h0, h1⟩) | ⟨h0, h1⟩
  · rw [ldisasm_nop x64 h0] at hlength
    exact Or.inl ⟨h0, h1, (Option.some.inj hlength).symm⟩
  · rw [ldisasm_movEdi x64 h0 h1] at hlength
    have hn := Option.some.inj hlength
    omega
  · rw [ldisasm_operandNop x64 h0 h1] at hlength
    have hn := Option.some.inj hlength
    omega
  · obtain ⟨n', hn', hlo, hhi⟩ := ldisasm_longNop x64 h0 h1
    rw [hn'] at hlength
    have hn := Option.some.inj hlength
    omega

/-- A no-op is skipped: the code goes on behind it, and behind the fuse. -/
theorem entryField_isNop {x64 : Bool} {x : Nat → UInt8} {n : Nat} (hnop : isNop x = true)
    (hlength : ldisasm x64 x = some n) : entryField x (signedChar n) = max (n : Int) 2 := by
  have hn : n ≤ 8 := by
    rcases isNop_length hnop hlength with ⟨_, _, h⟩ | h <;> omega
  rw [signedChar_of_lt (by omega), entryField, if_pos hnop, Int.bmod_def]
  split <;> omega

/-- Another instruction is copied: the code goes on at the copy. -/
theorem entryField_not_isNop {x : Nat → UInt8} (hnop : isNop x = false) (extra : Int) :
    entryField x extra = Int.bmod (-(2 + extra)) 64 := by
  rw [entryField, if_neg (by rw [hnop]; exact Bool.false_ne_true)]

section

variable {p : Platform} {m m₁ : Memory UInt8} {target divertTo : Int} {j : Jumper} {length : Nat}
  (h : Constructed p m target divertTo j m₁ length)

include h

/-- A field of 6 bits. -/
theorem Constructed.entry_ge : -32 ≤ j.entry := by
  rw [h.entry_eq]
  exact (entryField_bounds _ _).1

/-- An instruction of one byte is let through if it is a `nop`. -/
theorem Constructed.length_pos : 1 ≤ signedChar length := by
  rcases h.long with hlong | hnop
  · omega
  · have hlength := h.decoded
    rw [ldisasm_nop p.x64 hnop] at hlength
    rw [← Option.some.inj hlength]
    decide

/-- **The constructor keeps to its prologue exactly when the entry offset fits.** -/
theorem Constructed.sameOutside_iff :
    SameOutside (j.prologue p) j.target m m₁ ↔ Fits p m target := by
  have hge := h.entry_ge
  have hpos := h.length_pos
  have hbounds := signedChar_bounds length
  rw [h.memory]
  constructor
  -- if nothing outside was written, the copy of a long instruction put there what was there
  · intro hsame n hn
    obtain rfl : length = n := Option.some.inj (h.decoded.symm.trans hn)
    cases hnop : isNop (codeAt m target) with
    | true => exact Or.inl rfl
    | false =>
      have hentry := h.entry_eq
      rw [entryField_not_isNop hnop, Int.bmod_def] at hentry
      by_cases hfits : signedChar length ≤ 62 ∨ (95 ≤ signedChar length ∧ signedChar length ≤ 126)
      · rcases hfits with hfits | hfits
        · exact Or.inr (Or.inl hfits)
        · exact Or.inr (Or.inr (Or.inl hfits))
      · refine Or.inr (Or.inr (Or.inr fun i hi => ?_))
        have hneg : j.entry = -((2 + signedChar length) % 64) := by
          split at hentry <;> omega
        have hcopied := install_copied p m divertTo (signedChar length) hge (by omega)
          (show j.target ≤ j.target + i by omega)
        rw [if_pos (by omega), hsame _ (Or.inr (by omega)), h.target_eq] at hcopied
        rw [hcopied]
        exact congrArg m (by omega)
  -- below the prologue nothing is written; from the function on only by a copy that is too long
  · intro hfits a ha
    rcases ha with ha | ha
    · exact install_below hge ha
    · by_cases hneg : j.entry < 0
      · rw [install_copied p _ divertTo _ hge hneg ha]
        split
        · next hin =>
          cases hnop : isNop (codeAt m target) with
          | true =>
            have hentry := h.entry_eq
            rw [entryField_isNop hnop h.decoded] at hentry
            omega
          | false =>
            have hentry := h.entry_eq
            rw [entryField_not_isNop hnop, Int.bmod_def] at hentry
            have hk : j.entry = -((2 + signedChar length) % 64) := by
              split at hentry <;> omega
            rcases hfits length h.decoded with hfits | hfits | hfits | hfits
            · rw [hnop] at hfits
              cases hfits
            · omega
            · omega
            · obtain ⟨i, rfl⟩ : ∃ i : Nat, a = target + i :=
                ⟨(a - target).toNat, by rw [h.target_eq] at ha; omega⟩
              have hsame := hfits i (by rw [h.target_eq] at hin; omega)
              rw [← hsame]
              exact congrArg m (by omega)
        · rfl
      · exact install_plain hge (by omega) ha

end

/-! ## While a jumper lives -/

/-- The INVARIANT of a jumper between its calls, against the memory it was constructed in. -/
structure Alive (p : Platform) (m : Memory UInt8) (j : Jumper) (s : Jumper × Memory UInt8) : Prop where
  /-- calls do not change where the jumper is -/
  target_eq : s.1.target = j.target
  entry_eq : s.1.entry = j.entry
  fill_eq : s.1.fill = j.fill
  /-- nobody detaches it -/
  attached : s.1.detached = false
  /-- reverted, only the prologue differs -/
  idle : s.1.active = false → SameOutside (j.prologue p) j.target m s.2
  /-- active, the fuse does too, and what it displaced is kept -/
  active : s.1.active = true →
    s.1.fuseRevert = m.load j.target 2 ∧ SameOutside (j.prologue p) (j.target + 2) m s.2

section

variable {p : Platform} {m : Memory UInt8} {j : Jumper} {s : Jumper × Memory UInt8}

/-- The prologue is where it was, -/
theorem Alive.prologueSize_eq (h : Alive p m j s) : s.1.prologueSize p = j.prologueSize p := by
  rw [prologueSize, prologueSize, h.entry_eq]

/-- and as long. -/
theorem Alive.prologue_eq (h : Alive p m j s) : s.1.prologue p = j.prologue p := by
  rw [prologue, prologue, h.target_eq, h.prologueSize_eq]

/-- **An activation** puts the fuse in, if it can. -/
theorem Alive.activate (h : Alive p m j s) (unprotected : Bool) :
    Alive p m j (Jumper.activate p unprotected s).2 := by
  unfold Jumper.activate
  split
  · exact h
  · split
    · exact h
    · -- the bytes under the fuse are those of the function
      next hactive =>
      split
      · exact h
      · have hidle := h.idle (Bool.eq_false_iff.mpr hactive)
        have hfuse : s.2.load j.target 2 = m.load j.target 2 :=
          Memory.load_congr fun i _ => hidle _ (Or.inr (by omega))
        refine ⟨h.target_eq, h.entry_eq, h.fill_eq, h.attached, fun hfalse => ?_, fun _ => ⟨?_, ?_⟩⟩
        · cases hfalse
        · exact (congrArg (s.2.load · 2) h.target_eq).trans hfuse
        · rw [h.target_eq]
          have hwrite := Memory.store_sameOutside (shortJump j.target (s.1.prologue p)) s.2 j.target
          rw [shortJump_length] at hwrite
          have hbelow : j.prologue p ≤ j.target := by
            rw [prologue]
            omega
          exact (hidle.mono (Int.le_refl _) (by omega)).trans (hwrite.mono hbelow (by omega))

/-- **A reversion** takes it out, if it can. -/
theorem Alive.revert (h : Alive p m j s) (unprotected : Bool) :
    Alive p m j (Jumper.revert unprotected s).2 := by
  unfold Jumper.revert
  split
  · exact h
  · split
    · exact h
    · -- the bytes kept are put back
      next hactive =>
      split
      · exact h
      · obtain ⟨hfuse, hsame⟩ := h.active (Bool.of_not_eq_false hactive)
        refine ⟨h.target_eq, h.entry_eq, h.fill_eq, h.attached, fun _ => ?_, fun htrue => ?_⟩
        · rw [h.target_eq, hfuse]
          exact Memory.store_load hsame
        · cases htrue

/-- **Any calls** keep the invariant.  By induction on them. -/
theorem Alive.calls (calls : List JumperCall) (h : Alive p m j s) :
    Alive p m j (calls.foldl (call p) s) := by
  refine List.foldlRecOn calls _ (motive := Alive p m j) h fun s h c _ => ?_
  cases c with
  | activate unprotected => exact h.activate unprotected
  | revert unprotected => exact h.revert unprotected

/-- **Destruction** fills the prologue with the byte it was full of, after the fuse is out. -/
theorem Alive.destroy (h : Alive p m j s)
    (huniform : ∀ i : Nat, i < j.prologueSize p → m (j.prologue p + i) = j.fill) :
    Jumper.destroy p true s = some m := by
  have hrestored : SameOutside (j.prologue p) j.target m
      (if s.1.active then s.2.store s.1.target s.1.fuseRevert else s.2) := by
    split
    · -- active: the fuse is taken out first
      next hactive =>
      obtain ⟨hfuse, hsame⟩ := h.active hactive
      rw [h.target_eq, hfuse]
      exact Memory.store_load hsame
    · next hactive => exact h.idle (Bool.eq_false_iff.mpr hactive)
  have hends : j.prologue p + j.prologueSize p = j.target := by
    rw [prologue]
    omega
  unfold Jumper.destroy
  rw [h.attached, if_neg Bool.false_ne_true, if_neg (by decide)]
  refine congrArg some (funext fun x => ?_)
  rw [h.prologue_eq, h.prologueSize_eq, h.fill_eq]
  by_cases hin : j.prologue p ≤ x ∧ x < j.prologue p + j.prologueSize p
  · rw [Memory.fill_inside _ _ _ hin.1 hin.2]
    obtain ⟨i, rfl⟩ : ∃ i : Nat, x = j.prologue p + i := ⟨(x - j.prologue p).toNat, by omega⟩
    exact (huniform i (by omega)).symm
  · rw [Memory.fill_sameOutside _ _ _ _ x (by omega)]
    exact hrestored x (by omega)

end

/-- What a jumper owes to its surroundings: after any calls, destruction gives back the memory `m`
    it was constructed in, and until then only the prologue and, while it is active, the two bytes
    of the fuse may differ. -/
structure Transparent (p : Platform) (m : Memory UInt8) (s : Jumper × Memory UInt8) : Prop where
  restored : ∀ calls : List JumperCall, destroy p true (calls.foldl (call p) s) = some m
  confined : ∀ (calls : List JumperCall) (a : Int),
    let t := calls.foldl (call p) s
    a < t.1.target - t.1.prologueSize p ∨ (t.1.target ≤ a ∧ t.1.active = false) ∨
      t.1.target + 2 ≤ a → t.2 a = m a

/-- **What a jumper owes** it does exactly when its entry offset fits: all of it but the
    constructor's own writes is in the invariant. -/
theorem Constructed.transparent_iff {p : Platform} {m m₁ : Memory UInt8} {target divertTo : Int}
    {j : Jumper} {length : Nat} (h : Constructed p m target divertTo j m₁ length) :
    Transparent p m (j, m₁) ↔ Fits p m target := by
  rw [← h.sameOutside_iff]
  constructor
  · intro ht a ha
    refine ht.confined [] a ?_
    rcases ha with ha | ha
    · exact Or.inl ha
    · exact Or.inr (Or.inl ⟨ha, h.idle⟩)
  · intro hsame
    have halive : Alive p m j (j, m₁) := by
      refine ⟨rfl, rfl, rfl, h.attached, fun _ => hsame, fun hactive => ?_⟩
      rw [h.idle] at hactive
      cases hactive
    refine ⟨fun calls => (halive.calls calls).destroy h.uniform, fun calls a => ?_⟩
    intro t ha
    have ht : Alive p m j t := halive.calls calls
    rw [ht.target_eq, ht.prologueSize_eq] at ha
    cases hactive : t.1.active with
    | false =>
      refine ht.idle hactive a ?_
      rw [prologue]
      omega
    | true =>
      refine (ht.active hactive).2 a ?_
      rw [hactive] at ha
      rw [prologue]
      rcases ha with ha | ⟨_, hfalse⟩ | ha
      · omega
      · cases hfalse
      · omega

/-- What it takes for a constructor to return, for the examples. -/
theorem construct_of (p : Platform) (m : Memory UInt8) (target : Int) (length : Nat)
    (hallowed : validationOverride (codeAt m target) = false)
    (hdecoded : ldisasm p.x64 (codeAt m target) = some length)
    (hlong : 2 ≤ signedChar length ∨ codeAt m target 0 = 0x90)
    (huniform : let j : Jumper :=
        ⟨target, [], 0, entryField (codeAt m target) (signedChar length), false, false⟩
      isUniform m (j.prologue p) (j.prologueSize p) = true) (divertTo : Int) :
    ∃ j m₁, construct p true m target divertTo = some (.ok j, m₁) ∧
      j.entry = entryField (codeAt m target) (signedChar length) := by
  have haccepted : ¬ (signedChar length < 2 ∧ isNopOpcode (codeAt m target 0) = false) := by
    rintro ⟨hshort, hnop⟩
    rcases hlong with hlong | hlong
    · omega
    · rw [hlong] at hnop
      cases hnop
  unfold construct
  dsimp only
  rw [hallowed, if_neg Bool.false_ne_true, hdecoded, Option.map_some, if_neg haccepted,
    if_neg (by decide), huniform, if_neg (by decide)]
  exact ⟨_, _, rfl, rfl⟩

/-- A function that begins with 62 REX prefixes, between bytes `CC`. -/
def overlong : Memory UInt8 := fun a =>
  if 0 ≤ a ∧ a < 62 then 0x48 else if a = 62 then 0xC3 else 0xCC

/-- The 63 bytes do not fit: `_entry` becomes -1, and the copy shifts the function by a byte. -/
theorem jumper_overlong_not_restored :
    ¬ ∀ (p : Platform) (unprotected : Bool) (m : Memory UInt8) (target divertTo : Int) (j : Jumper)
      (m₁ : Memory UInt8), construct p unprotected m target divertTo = some (.ok j, m₁) →
        Transparent p m (j, m₁) := by
  intro hall
  have hdecoded : ldisasm true (codeAt overlong 0) = some 63 := by decide +kernel
  obtain ⟨j, m₁, hconstruct, _⟩ := construct_of .intel64 overlong 0 63
    (by decide +kernel) hdecoded (Or.inl (by decide)) (by decide +kernel) 0
  obtain ⟨length, h⟩ := construct_ok hconstruct
  have hfits := h.transparent_iff.mp (hall _ _ _ _ _ _ _ hconstruct) 63 hdecoded
  rcases hfits with hfits | hfits | hfits | hfits
  · exact absurd hfits (by decide +kernel)
  · exact absurd hfits (by decide)
  · exact absurd hfits (by decide)
  · exact absurd (hfits 61 (by decide)) (by decide)

/-- **A jumper restores memory** exactly when the entry offset of its first instruction fits; and a
    constructor that throws changed nothing. -/
theorem jumper_restores (p : Platform) (unprotected : Bool) (m : Memory UInt8) (target divertTo : Int)
    (outcome : Except PatchException Jumper) (m₁ : Memory UInt8)
    (h : construct p unprotected m target divertTo = some (outcome, m₁)) :
    (∀ e, outcome = .error e → m₁ = m) ∧
      ∀ j, outcome = .ok j → (Transparent p m (j, m₁) ↔ Fits p m target) := by
  refine ⟨?_, ?_⟩
  · rintro e rfl
    exact construct_error h
  · rintro j rfl
    obtain ⟨length, hconstructed⟩ := construct_ok h
    exact hconstructed.transparent_iff

/-- A function that begins with `idiv ecx`, between bytes `CC`. -/
def idivEcx : Memory UInt8 := fun a => if a = 0 then 0xF7 else if a = 1 then 0xF9 else 0xCC

theorem jumper_restores_idiv :
    ∃ j m₁, construct .intel64 true idivEcx 0 0x1000 = some (.ok j, m₁) ∧
      Transparent .intel64 idivEcx (j, m₁) := by
  have hdecoded : ldisasm true (codeAt idivEcx 0) = some 2 := by decide +kernel
  obtain ⟨j, m₁, hconstruct, _⟩ := construct_of .intel64 idivEcx 0 2
    (by decide +kernel) hdecoded (Or.inl (by decide)) (by decide +kernel) 0x1000
  refine ⟨j, m₁, hconstruct, ?_⟩
  refine ((jumper_restores _ _ _ _ _ _ _ hconstruct).2 j rfl).mpr fun length hlength => ?_
  obtain rfl : 2 = length := Option.some.inj (hdecoded.symm.trans hlength)
  exact Or.inr (Or.inl (by decide))

/-! ## Where the code behind `entry()` goes -/

/-- Execution from an address below the function, until it is in the function: the instructions that
    are executed on the way, and where it arrives. -/
inductive Reaches (x64 : Bool) (m : Memory UInt8) (target : Int) : Int → List (List UInt8) → Int → Prop
  | arrive {a : Int} (ha : target ≤ a) : Reaches x64 m target a [] a
  | jump {a c : Int} {executed : List (List UInt8)} (ha : a < target) (hop : m a = 0xEB)
      (hrest : Reaches x64 m target (a + 2 + signedByte (m (a + 1))) executed c) :
      Reaches x64 m target a executed c
  | step {a c : Int} {n : Nat} {executed : List (List UInt8)} (ha : a < target) (hop : m a ≠ 0xEB)
      (hlength : ldisasm x64 (codeAt m a) = some n)
      (hrest : Reaches x64 m target (a + n) executed c) :
      Reaches x64 m target a (m.load a n :: executed) c

/-- The copied instruction, and the jump behind it: what lies between the entry and the function. -/
theorem install_relocated (p : Platform) {j : Jumper} (m : Memory UInt8) (divertTo : Int) {n : Nat}
    (hlo : -32 ≤ j.entry) (hentry : j.entry = -(2 + (n : Int))) :
    (∀ i : Nat, i < n → j.install p divertTo n m (j.target + j.entry + i) = m (j.target + i)) ∧
      j.install p divertTo n m (j.target - 2) = 0xEB ∧
      j.install p divertTo n m (j.target - 1) = lowByte n := by
  have hends := prologue_add (p := p) hlo
  rw [if_pos (by omega)] at hends
  unfold install
  rw [if_pos (by omega)]
  have hjump := Memory.store_inside (shortJump (j.target - 2) (j.target + n))
    ((j.writeTemplate p divertTo m).copy (j.target + j.entry) j.target (n : Int).toNat) (j.target - 2)
  refine ⟨fun i hi => ?_, ?_, ?_⟩
  · rw [Memory.store_sameOutside _ _ _ _ (Or.inl (by omega)),
      Memory.copy_inside _ _ _ _ (Or.inl (by omega)) i (by omega)]
    exact writeTemplate_sameOutside divertTo m _ (Or.inr (by omega))
  · have hfirst := Option.some.inj (hjump 0 (by rw [shortJump_length]; decide))
    rw [← hfirst]
    exact congrArg _ (by omega)
  · have hsecond := Option.some.inj (hjump 1 (by rw [shortJump_length]; decide))
    have hdisplacement : j.target + n - (j.target - 2 + 2) = n := by omega
    rw [hdisplacement] at hsecond
    rw [← hsecond]
    exact congrArg _ (by omega)

section

variable {p : Platform} {m m₁ : Memory UInt8} {target divertTo : Int} {j : Jumper} {length : Nat}
  (h : Constructed p m target divertTo j m₁ length) (htrue : length ≤ 15)

include h

/-- Activation writes the fuse. -/
theorem Constructed.activated : SameOutside j.target (j.target + 2) m₁ (activate p true (j, m₁)).2.2 := by
  unfold activate
  rw [h.attached, if_neg Bool.false_ne_true, h.idle, if_neg Bool.false_ne_true, if_neg (by decide)]
  exact Memory.store_sameOutside (shortJump j.target (j.prologue p)) m₁ j.target

include htrue

/-- Behind the fuse everything is as it was. -/
theorem Constructed.above : ∀ a, j.target + 2 ≤ a → (activate p true (j, m₁)).2.2 a = m a := by
  have hfits : Fits p m target := by
    intro n hn
    obtain rfl : length = n := Option.some.inj (h.decoded.symm.trans hn)
    rw [signedChar_of_lt (by omega)]
    omega
  intro a ha
  rw [h.activated a (Or.inr ha)]
  exact h.sameOutside_iff.mpr hfits a (Or.inr (by omega))

/-- What lies below an active jumper whose instruction was copied. -/
theorem Constructed.relocated (hnop : isNop (codeAt m target) = false) :
    let m₂ := (activate p true (j, m₁)).2.2
    j.entry = -(2 + (length : Int)) ∧
      (∀ i : Nat, i < length → m₂ (j.target + j.entry + i) = m (target + i)) ∧
      m₂ (j.target - 2) = 0xEB ∧ m₂ (j.target - 1) = lowByte length := by
  intro m₂
  have hchar : signedChar length = length := signedChar_of_lt (by omega)
  have hentry : j.entry = -(2 + (length : Int)) := by
    rw [h.entry_eq, entryField_not_isNop hnop, hchar, Int.bmod_def]
    split <;> omega
  have hmemory := h.memory
  rw [hchar] at hmemory
  obtain ⟨hcopy, hop, hdisplacement⟩ := install_relocated p m divertTo
    h.entry_ge hentry
  rw [← hmemory] at hcopy hop hdisplacement
  refine ⟨hentry, fun i hi => ?_, ?_, ?_⟩
  · have hbelow := h.activated (j.target + j.entry + i) (Or.inl (by omega))
    exact hbelow.trans ((hcopy i hi).trans (by rw [h.target_eq]))
  · exact (h.activated (j.target - 2) (Or.inl (by omega))).trans hop
  · exact (h.activated (j.target - 1) (Or.inl (by omega))).trans hdisplacement

end

end Jumper

end MicroProfiler
