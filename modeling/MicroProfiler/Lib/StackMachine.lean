/-
  A machine of sixteen 64-bit registers with a stack that grows down.

  1. **Operations** (`Op.exec`) — moves, arithmetic on registers, the stack.

  2. **The stack** — `Stacked m a vs`: the words `vs` lie from `a` up.  Registers that were pushed are
     stacked (`pushes_stacked`), pops of stacked words restore registers (`pops_stacked`), and
     neither looks at anything else.

  3. **Calls** (`afterCall`) — what a function that keeps to the calling convention may leave.

  Nothing here names the program.
-/
import MicroProfiler.Lib.Layout

namespace MicroProfiler.Lib

/-- The general purpose registers, in the order of their encoding. -/
inductive Reg
  | rax | rcx | rdx | rbx | rsp | rbp | rsi | rdi
  | r8 | r9 | r10 | r11 | r12 | r13 | r14 | r15
deriving DecidableEq, Repr

/-- The registers and the memory.  Addresses are integers here; what an instruction addresses is a
    natural number below `2 ^ 64`. -/
structure Machine where
  regs : Reg → UInt64
  mem : Memory UInt8

namespace Machine

open Memory (SameOutside leBytes)

/-- Where the stack ends: the words above are in use, the bytes below are free. -/
def sp (m : Machine) : Nat := (m.regs .rsp).toNat

/-- Write one register. -/
def set (m : Machine) (r : Reg) (v : UInt64) : Machine :=
  { m with regs := fun x => if x = r then v else m.regs x }

/-- The word at `a`, little-endian. -/
def word (m : Machine) (a : Nat) : UInt64 := UInt64.ofNat (m.mem.word a 8)

/-- Write the word at `a`. -/
def put (m : Machine) (a : Nat) (v : UInt64) : Machine := { m with mem := m.mem.store a (leBytes 8 v.toNat) }

/-- The stack pointer moves first, the value goes where it then points. -/
def push (m : Machine) (v : UInt64) : Machine :=
  let m := m.set .rsp (m.regs .rsp - 8)
  m.put m.sp v

/-- The word on top, and the machine without it; its bytes stay where they are. -/
def pop (m : Machine) : UInt64 × Machine := (m.word m.sp, m.set .rsp (m.regs .rsp + 8))

end Machine

/-- The instructions of the templates.  Operands stand in the order source, destination. -/
inductive Op
  | push (src : Reg)
  | pop (dst : Reg)
  /-- the counter, its lower half into `rax` and its upper half into `rdx` -/
  | rdtsc
  | mov (imm : UInt64) (dst : Reg)
  /-- relative to the stack pointer -/
  | lea (disp : UInt64) (dst : Reg)
  | shl (n : UInt64) (dst : Reg)
  | or (src dst : Reg)
  | sub (imm : UInt64) (dst : Reg)
  | add (imm : UInt64) (dst : Reg)
  /-- relative to the stack pointer -/
  | store (src : Reg) (disp : UInt64)
deriving DecidableEq, Repr

/-- What one instruction does; `tsc` is what the time-stamp counter reads.  A run of code is a fold
    of this. -/
def Op.exec (tsc : UInt64) (m : Machine) : Op → Machine
  | .push src => m.push (m.regs src)
  | .pop dst => m.pop.2.set dst m.pop.1
  | .rdtsc => (m.set .rax (tsc &&& 0xFFFFFFFF)).set .rdx (tsc >>> 32)
  | .mov imm dst => m.set dst imm
  | .lea disp dst => m.set dst (m.regs .rsp + disp)
  | .shl n dst => m.set dst (m.regs dst <<< n)
  | .or src dst => m.set dst (m.regs dst ||| m.regs src)
  | .sub imm dst => m.set dst (m.regs dst - imm)
  | .add imm dst => m.set dst (m.regs dst + imm)
  | .store src disp => m.put (m.regs .rsp + disp).toNat (m.regs src)

/-- The two halves of the counter, put together: what `shl` and `or` make after `rdtsc`.  The lower
    half is a remainder and the upper half a quotient by `2 ^ 32`, so the disjunction is a sum. -/
theorem join_halves (tsc : UInt64) : (tsc >>> 32) <<< 32 ||| (tsc &&& 0xFFFFFFFF) = tsc := by
  have hlow : tsc.toNat &&& 4294967295 = tsc.toNat % 2 ^ 32 := Nat.and_two_pow_sub_one_eq_mod _ 32
  have hlt : tsc.toNat / 2 ^ 32 * 2 ^ 32 < 18446744073709551616 :=
    Nat.lt_of_le_of_lt (Nat.div_mul_le_self _ _) tsc.toNat_lt
  refine UInt64.toNat_inj.mp ?_
  simp only [UInt64.toNat_or, UInt64.toNat_shiftLeft, UInt64.toNat_shiftRight, UInt64.toNat_and,
    UInt64.reduceToNat, Nat.reduceMod, hlow, Nat.shiftRight_eq_div_pow, Nat.shiftLeft_eq,
    Nat.mod_eq_of_lt hlt]
  rw [Nat.mul_comm, ← Nat.two_pow_add_eq_or_of_lt (Nat.mod_lt _ (by decide)), Nat.div_add_mod]

namespace Machine

open Memory (SameOutside leBytes)

/-- A register that was written holds what was written. -/
@[simp] theorem set_regs_self (m : Machine) (r : Reg) (v : UInt64) : (m.set r v).regs r = v := if_pos rfl

/-- The others are as before. -/
theorem set_regs_ne (m : Machine) {r x : Reg} (v : UInt64) (h : x ≠ r) : (m.set r v).regs x = m.regs x :=
  if_neg h

/-- Memory writes leave the registers. -/
@[simp] theorem put_regs (m : Machine) (a : Nat) (v : UInt64) : (m.put a v).regs = m.regs := rfl

/-! ## Words -/

/-- A word that was written is read back, whatever lies around it. -/
theorem word_put (m : Machine) (a : Nat) (v : UInt64) : (m.put a v).word a = v := by
  have hholds : (m.put a v).mem.Holds a (leBytes 8 v.toNat) := Memory.load_store _ _ _
  rw [word, Memory.word_of_holds hholds v.toNat_lt]
  exact UInt64.ofNat_toNat

/-- A written word changes its eight bytes at most. -/
theorem put_sameOutside (m : Machine) (a : Nat) (v : UInt64) :
    SameOutside a (a + 8) m.mem (m.put a v).mem := by
  have h := Memory.store_sameOutside (leBytes 8 v.toNat) m.mem a
  rwa [Memory.length_leBytes] at h

/-- A word is its eight bytes: whoever leaves those leaves the word. -/
theorem word_congr {m m' : Machine} {a : Nat} (h : ∀ x : Int, a ≤ x → x < a + 8 → m'.mem x = m.mem x) :
    m'.word a = m.word a := by
  unfold word Memory.word
  rw [Memory.load_congr fun i hi => h (a + i) (by omega) (by omega)]

/-- Words that do not overlap do not disturb each other. -/
theorem word_put_apart (m : Machine) {a b : Nat} (v : UInt64) (h : a + 8 ≤ b ∨ b + 8 ≤ a) :
    (m.put a v).word b = m.word b :=
  word_congr fun x hlo hhi => put_sameOutside m a v x (by omega)

/-! ## The stack -/

/-- The words `vs` lie from `a` up. -/
def Stacked (m : Machine) : Nat → List UInt64 → Prop
  | _, [] => True
  | a, v :: vs => m.word a = v ∧ Stacked m (a + 8) vs

/-- What is stacked stays so while its bytes stay.  By recursion along the words, each taking eight
    bytes off the range. -/
theorem Stacked.congr {m m' : Machine} : ∀ {vs : List UInt64} {a : Nat}, m.Stacked a vs →
    (∀ x : Int, a ≤ x → x < a + 8 * vs.length → m'.mem x = m.mem x) → m'.Stacked a vs
  | [], _, _, _ => trivial
  | v :: vs, a, h, hmem => by
    rw [List.length_cons] at hmem
    refine ⟨(word_congr fun x hlo hhi => hmem x hlo (by omega)).trans h.1, h.2.congr fun x hlo hhi => ?_⟩
    exact hmem x (by omega) (by omega)

/-- Making room does not wrap while there is room. -/
theorem sp_sub {m : Machine} {imm : UInt64} (h : imm.toNat ≤ m.sp) :
    (m.regs .rsp - imm).toNat = m.sp - imm.toNat := UInt64.toNat_sub_of_le _ _ h

/-- Nor does giving it back, while the stack does not end at the top of the address space. -/
theorem sp_add {m : Machine} {imm : UInt64} (h : m.sp + imm.toNat < 2 ^ 64) :
    (m.regs .rsp + imm).toNat = m.sp + imm.toNat := by
  rw [UInt64.toNat_add]
  exact Nat.mod_eq_of_lt h

/-- `push` spelled out, without the local definition. -/
theorem push_eq (m : Machine) (v : UInt64) :
    m.push v = (m.set .rsp (m.regs .rsp - 8)).put (m.regs .rsp - 8).toNat v := rfl

/-- `m'` is `m` with `vs` pushed, the first of them last.  This is the invariant a prologue is
    followed with: each `push` extends it (`Pushed.push`). -/
structure Pushed (m m' : Machine) (vs : List UInt64) : Prop where
  /-- eight bytes for each word -/
  sp : m'.sp + 8 * vs.length = m.sp
  regs : ∀ r, r ≠ .rsp → m'.regs r = m.regs r
  /-- only the room that was made is written -/
  frame : SameOutside m'.sp m.sp m.mem m'.mem
  stacked : m'.Stacked m'.sp vs

/-- Before the first push. -/
theorem Pushed.refl (m : Machine) : Pushed m m [] := ⟨rfl, fun _ _ => rfl, fun _ _ => rfl, trivial⟩

/-- One push more.  The new word lies just under the old ones, so its eight bytes are outside of
    theirs and they are where they were. -/
theorem Pushed.push {m m' : Machine} {vs : List UInt64} (h : Pushed m m' vs) (v : UInt64)
    (hroom : 8 ≤ m'.sp) : Pushed m (m'.push v) (v :: vs) := by
  have hsp : (m'.push v).sp = m'.sp - 8 := by
    show ((m'.set .rsp (m'.regs .rsp - 8)).regs .rsp).toNat = _
    rw [set_regs_self]
    exact sp_sub hroom
  have hframe : SameOutside (m'.push v).sp m'.sp m'.mem (m'.push v).mem :=
    (put_sameOutside (m'.set .rsp (m'.regs .rsp - 8)) (m'.push v).sp v).mono (le_refl _) (by omega)
  have hold := h.sp
  refine ⟨?_, fun r hr => ?_, ?_, word_put _ _ _, ?_⟩
  · -- the pointer went down by eight
    rw [List.length_cons]
    omega
  · -- `push` writes no register but the pointer
    exact (set_regs_ne m' _ hr).trans (h.regs r hr)
  · -- what was written before, and the eight bytes written now
    exact (h.frame.mono (by omega) (le_refl _)).trans (hframe.mono (le_refl _) (by omega))
  · -- the words pushed before start where the new one ends
    have hnext : (m'.push v).sp + 8 = m'.sp := by omega
    rw [hnext]
    exact h.stacked.congr fun x hlo _ => hframe x (.inr hlo)

/-- **Registers are pushed**, and each word holds what the register held at the beginning: pushing
    changes no register but the pointer, which is not among them.  By recursion on the registers,
    `Pushed` being what is carried along. -/
theorem pushes_stacked (tsc : UInt64) {m : Machine} : ∀ (rs : List Reg) {m' : Machine} {vs : List UInt64},
    Pushed m m' vs → .rsp ∉ rs → 8 * rs.length ≤ m'.sp →
    Pushed m ((rs.map Op.push).foldl (Op.exec tsc) m') ((rs.map m.regs).reverse ++ vs)
  | [], _, _, h, _, _ => h
  | r :: rs, m', vs, h, hrs, hroom => by
    rw [List.length_cons] at hroom
    have hr : r ≠ .rsp := fun heq => hrs (heq ▸ List.mem_cons_self)
    have hpush := h.push (m'.regs r) (by omega)
    rw [h.regs r hr] at hpush
    have hsp : (m'.push (m.regs r)).sp + 8 = m'.sp := by
      have hnew := hpush.sp
      have hold := h.sp
      rw [List.length_cons] at hnew
      omega
    have hrest := pushes_stacked tsc rs hpush (fun hmem => hrs (List.mem_cons_of_mem r hmem)) (by omega)
    rw [List.map_cons, List.foldl_cons, List.map_cons, List.reverse_cons, List.append_assoc,
      List.singleton_append, ← h.regs r hr]
    rwa [← h.regs r hr] at hrest

/-- **Words are popped** into registers.  By recursion on the registers: the first pop reads the
    word on top, which leaves the others stacked at the new pointer.  A register named twice would
    get the later word, hence the case on whether `x` comes again. -/
theorem pops_stacked (tsc : UInt64) (f : Reg → UInt64) : ∀ (rs : List Reg) {m : Machine},
    m.Stacked m.sp (rs.map f) → .rsp ∉ rs → m.sp + 8 * rs.length < 2 ^ 64 →
    ∃ m', (rs.map Op.pop).foldl (Op.exec tsc) m = m' ∧ m'.sp = m.sp + 8 * rs.length ∧ m'.mem = m.mem ∧
      (∀ r ∈ rs, m'.regs r = f r) ∧ ∀ r, r ≠ .rsp → r ∉ rs → m'.regs r = m.regs r
  | [], m, _, _, _ => ⟨m, rfl, rfl, rfl, fun _ h => absurd h List.not_mem_nil, fun _ _ _ => rfl⟩
  | r :: rs, m, h, hrs, hroom => by
    rw [List.length_cons] at hroom
    have hr : .rsp ≠ r := fun heq => hrs (heq ▸ List.mem_cons_self)
    have hsp : ((m.pop.2.set r m.pop.1).regs .rsp).toNat = m.sp + 8 := by
      rw [set_regs_ne _ _ hr]
      exact (congrArg UInt64.toNat (set_regs_self _ _ _)).trans (sp_add (by show m.sp + 8 < 2 ^ 64; omega))
    have hrest : (m.pop.2.set r m.pop.1).Stacked (m.pop.2.set r m.pop.1).sp (rs.map f) := by
      rw [sp, hsp]
      exact h.2.congr fun _ _ _ => rfl
    obtain ⟨m', hm', hsp', hmem, hpopped, hothers⟩ := pops_stacked tsc f rs hrest
      (fun hmem => hrs (List.mem_cons_of_mem r hmem)) (by rw [sp, hsp]; omega)
    refine ⟨m', hm', ?_, hmem, fun x hx => ?_, fun x hx hnot => ?_⟩
    · -- the pointer went up by a word for each register
      rw [hsp', sp, hsp, List.length_cons]
      omega
    · -- a register popped: by the rest of the code, or here and not again
      by_cases hlater : x ∈ rs
      · exact hpopped x hlater
      · obtain rfl := (List.mem_cons.mp hx).resolve_right hlater
        rw [hothers x hr.symm hlater, set_regs_self]
        exact h.1
    · -- a register not popped is written by none of the pops
      rw [hothers x hx fun hmem => hnot (List.mem_cons_of_mem r hmem),
        set_regs_ne _ _ fun heq : x = r => hnot (heq ▸ List.mem_cons_self)]
      exact set_regs_ne m _ hx

/-! ## Calls -/

/-- What a function may not change, apart from the stack pointer, which it has to restore. -/
def calleeSaved : List Reg := [.rbx, .rbp, .r12, .r13, .r14, .r15]

/-- What a called function leaves when it returns: `scratch`, where it may write, and the caller's
    own values elsewhere.  Nothing is assumed of `scratch`, so this is every function that keeps to
    the convention. -/
def afterCall (m scratch : Machine) : Machine where
  regs r := if r = .rsp ∨ r ∈ calleeSaved then m.regs r else scratch.regs r
  mem x := if x < m.sp then scratch.mem x else m.mem x

/-- The pointer is back. -/
@[simp] theorem afterCall_sp (m scratch : Machine) : (m.afterCall scratch).sp = m.sp := rfl

/-- So are the saved registers. -/
theorem afterCall_saved (m scratch : Machine) {r : Reg} (h : r ∈ calleeSaved) :
    (m.afterCall scratch).regs r = m.regs r := if_pos (.inr h)

/-- And what lay above the pointer was not touched. -/
theorem afterCall_mem (m scratch : Machine) {x : Int} (h : m.sp ≤ x) :
    (m.afterCall scratch).mem x = m.mem x := if_neg (by omega)

end Machine

end MicroProfiler.Lib
