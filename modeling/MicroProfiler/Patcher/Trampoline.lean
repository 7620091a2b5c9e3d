/-
  `patcher/src/intel/trampoline_x64.s` and `dynamic_hooking.cpp`: the code a hooked function is entered
  and left through.

  1. **Program** — the template, instruction by instruction, with the addresses that
     `initialize_trampoline` puts in place of its numbers.  A thread calls hooked functions, from one
     another, too; it jumps to one as the last thing another one does; hooked functions return;
     an exception or a `longjmp` drops some.  In between it runs ANY code that leaves the return
     addresses of hooked functions alone.

  2. **Specification** — the hooked function is entered as if it had been called directly: same
     stack, same general-purpose registers but `rax`, `r10` and `r11`, and its return brings the thread
     back to its caller with what it left in `rax`.  Nothing more comes back: `rdx`, where the second
     word of a result goes, is what `on_exit` left there (`Left.second`).
     `calls_collector_thread` follows it all as a thread's stack.

  3. **The crux (`Thread.Sound`)** — the slot of each hooked function that has not returned holds the
     address INSIDE the trampoline; its own return address is with the collector.

  Here the template is its instructions; `TrampolineImage` is about the bytes they are in memory.  The
  machine has the sixteen general-purpose registers; the template saves no vector register, so of
  arguments and results in those nothing can be said here: they are as the collector left them.
-/
import MicroProfiler.Collector.Unwinding
import MicroProfiler.Lib.StackMachine
import MicroProfiler.Patcher.Jumper
import Mathlib.Data.List.Pairwise

namespace MicroProfiler

open Lib (Machine Op Reg)
open Lib.Machine (afterCall calleeSaved)
open Lib.Memory (leBytes)

namespace Trampoline

/-- An instruction of the template; `call` is through a register. -/
inductive Instr
  | op (o : Op)
  /-- of the collector, or of the target -/
  | call (r : Reg)
  | ret
deriving DecidableEq, Repr

/-- The number of a register in an encoding. -/
def number : Reg → UInt8
  | .rax => 0 | .rcx => 1 | .rdx => 2 | .rbx => 3 | .rsp => 4 | .rbp => 5 | .rsi => 6 | .rdi => 7
  | .r8 => 8 | .r9 => 9 | .r10 => 10 | .r11 => 11 | .r12 => 12 | .r13 => 13 | .r14 => 14 | .r15 => 15

/-- Its low three bits, which an opcode or a ModRM byte has room for. -/
def low (r : Reg) : UInt8 := number r % 8

/-- The prefix of a 64-bit operation, with the fourth bits. -/
def rex (reg rm : Reg) : UInt8 := 0x48 + (if number reg < 8 then 0 else 4) + if number rm < 8 then 0 else 1

/-- An opcode that is 64-bit by itself. -/
def short (r : Reg) (opcode : UInt8) : List UInt8 := if number r < 8 then [opcode] else [0x41, opcode]

/-- As it is assembled; displacements and counts are bytes. -/
def Instr.encode : Instr → List UInt8
  | .op (.push r) => short r (0x50 + low r)
  | .op (.pop r) => short r (0x58 + low r)
  | .op .rdtsc => [0x0F, 0x31]
  | .op (.mov imm dst) => [rex .rax dst, 0xB8 + low dst] ++ leBytes 8 imm.toNat
  | .op (.lea disp dst) => [rex dst .rsp, 0x8D, 0x44 + 8 * low dst, 0x24, disp.toUInt8]
  | .op (.shl n dst) => [rex .rax dst, 0xC1, 0xE0 + low dst, n.toUInt8]
  | .op (.or src dst) => [rex src dst, 0x09, 0xC0 + 8 * low src + low dst]
  | .op (.sub imm dst) =>
    if imm < 0x80 then [rex .rax dst, 0x83, 0xE8 + low dst, imm.toUInt8]
    else [rex .rax dst, 0x81, 0xE8 + low dst] ++ leBytes 4 imm.toNat
  | .op (.add imm dst) =>
    if imm < 0x80 then [rex .rax dst, 0x83, 0xC0 + low dst, imm.toUInt8]
    else [rex .rax dst, 0x81, 0xC0 + low dst] ++ leBytes 4 imm.toNat
  | .op (.store src disp) => [rex src .rsp, 0x89, 0x44 + 8 * low src, 0x24, disp.toUInt8]
  | .call r => short r 0xFF ++ [0xD0 + low r]
  | .ret => [0xC3]

/-- In bytes. -/
def Instr.size (i : Instr) : Nat := i.encode.length

/-- Of consecutive instructions. -/
def codeSize (code : List Instr) : Nat := (code.map Instr.size).sum

/-- `construct_replace_seq<size_t>`. -/
def constructReplaceSeq (index : UInt64) : UInt64 :=
  ((0x31415926 : UInt64) <<< 32) &&& ~~~(0xFF : UInt64) ||| index

/-- The registers that carry arguments. -/
def arguments : List Reg := [.rdi, .rsi, .rdx, .rcx, .r8, .r9]

/-- The template up to the call of the target. -/
def protoEnter : List Instr :=
  arguments.map (.op ∘ .push) ++
  [ .op .rdtsc,
    .op (.mov 0x3141592600000001 .rdi), -- 1st argument, interceptor
    .op (.lea 0x30 .rsi), -- 2nd argument, stack_ptr
    .op (.shl 0x20 .rdx),
    .op (.or .rax .rdx), -- 3rd argument, timestamp
    .op (.mov 0x3141592600000002 .rcx), -- 4th argument, callee
    .op (.mov 0x3141592600000003 .rax), -- on_enter() address
    .op (.sub 0x88 .rsp),
    .call .rax,
    .op (.add 0x88 .rsp) ] ++
  arguments.reverse.map (.op ∘ .pop) ++
  [ .op (.add 0x08 .rsp),
    .op (.mov 0x3141592600000005 .rax), -- target address
    .call .rax ]

/-- From there on. -/
def protoExit : List Instr :=
  [ .op (.sub 0x08 .rsp),
    .op (.push .rax),
    .op .rdtsc,
    .op (.mov 0x3141592600000001 .rdi), -- 1st argument, interceptor
    .op (.lea 0x08 .rsi), -- 2nd argument, stack_ptr
    .op (.shl 0x20 .rdx),
    .op (.or .rax .rdx), -- 3rd argument, timestamp
    .op (.mov 0x3141592600000004 .rax), -- on_exit() address
    .op (.sub 0x80 .rsp),
    .call .rax,
    .op (.add 0x80 .rsp),
    .op (.store .rax 0x08), -- restore return address
    .op (.pop .rax),
    .ret ]

/-- `replace`: the operands that are the sequence of `index`. -/
def replace (index value : UInt64) : Instr → Instr
  | .op (.mov imm dst) => .op (.mov (if imm = constructReplaceSeq index then value else imm) dst)
  | i => i

/-- An interceptor with its `on_enter` and `on_exit`. -/
structure Interceptor where
  /-- the object both are called on -/
  address : UInt64
  onEnter : UInt64
  onExit : UInt64
deriving DecidableEq, Repr

/-- A trampoline at `base`: for the function `id`, which goes on at `target` (past its fuse). -/
structure Hook where
  base : UInt64
  target : UInt64
  /-- what the collector is told was called -/
  id : UInt64
deriving DecidableEq, Repr

/-- `initialize_trampoline`; the template has no relative addresses to replace. -/
def initializeTrampoline (i : Interceptor) (h : Hook) : List Instr :=
  ((((((protoEnter ++ protoExit).map (replace 1 i.address)).map (replace 2 h.id)).map
    (replace 3 i.onEnter)).map (replace 4 i.onExit)).map (replace 5 h.target))

/-! ## The processor -/

/-- A function of the calling convention finds the stack aligned when it is called. -/
def Aligned (m : Machine) : Prop := m.sp % 16 = 0

instance (m : Machine) : Decidable (Aligned m) := inferInstanceAs (Decidable (_ = _))

/-- `calls_collector::on_enter` and `on_exit`, when they are called with the interceptor.  `scratch`
    is what they leave where they may write. -/
def callInterceptor (i : Interceptor) (scratch : Machine) (s : Machine × CallsCollectorThread UInt64)
    (address : UInt64) : Option (Machine × CallsCollectorThread UInt64) :=
  let m := s.1
  if m.regs .rdi = i.address then
    if address = i.onEnter then
      (s.2.onEnter (m.regs .rsi).toNat (m.word (m.regs .rsi).toNat).toNat (m.regs .rdx).toNat
        (some (m.regs .rcx))).map fun c => (m.afterCall scratch, c)
    else
      (s.2.onExit (m.regs .rsi).toNat (m.regs .rdx).toNat).map fun r =>
        ((m.afterCall scratch).set .rax (UInt64.ofNat r.1), r.2)
  else none

/-- Where the code of a trampoline ends up, and with what. -/
structure Exit where
  address : UInt64
  machine : Machine
  collector : CallsCollectorThread UInt64

/-- The code from an instruction on, up to where it calls the target, or returns.  `back` is what a
    call of the target pushes, the address of what follows. -/
def execute (i : Interceptor) (back : UInt64) (tsc : UInt64) (scratch : Machine) :
    List Instr → Machine × CallsCollectorThread UInt64 → Option Exit
  | [], _ => none
  | .op o :: rest, s => execute i back tsc scratch rest (o.exec tsc s.1, s.2)
  | .call r :: rest, s =>
    let address := s.1.regs r
    -- a callee may rely on an aligned stack: without it there is no telling what it does
    if Aligned s.1 then
      if address = i.onEnter ∨ address = i.onExit then
        (callInterceptor i scratch s address).bind (execute i back tsc scratch rest)
      -- any other address is the target: here the template is left
      else some ⟨address, s.1.push back, s.2⟩
    else none
  | .ret :: _, s => some ⟨s.1.pop.1, s.1.pop.2, s.2⟩

/-- Operations run one after another, up to the next call or return. -/
theorem execute_ops (i : Interceptor) (back tsc : UInt64) (scratch : Machine) (rest : List Instr) :
    ∀ (ops : List Op) (m : Machine) (c : CallsCollectorThread UInt64),
      execute i back tsc scratch (ops.map .op ++ rest) (m, c) =
        execute i back tsc scratch rest (ops.foldl (Op.exec tsc) m, c)
  | [], _, _ => rfl
  | _ :: ops, _, c => execute_ops i back tsc scratch rest ops _ c

/-! ## What the template becomes -/

/-- Addresses of user space. -/
def UserSpace (a : UInt64) : Prop := a.toNat < 2 ^ 47

instance (a : UInt64) : Decidable (UserSpace a) := inferInstanceAs (Decidable (_ < _))

/-- The arguments of `on_enter`. -/
def prepareEnter (i : Interceptor) (h : Hook) : List Op :=
  [.rdtsc, .mov i.address .rdi, .lea 0x30 .rsi, .shl 0x20 .rdx, .or .rax .rdx, .mov h.id .rcx,
    .mov i.onEnter .rax, .sub 0x88 .rsp]

/-- Those of `on_exit`. -/
def prepareExit (i : Interceptor) : List Op :=
  [.rdtsc, .mov i.address .rdi, .lea 0x08 .rsi, .shl 0x20 .rdx, .or .rax .rdx, .mov i.onExit .rax,
    .sub 0x80 .rsp]

/-- What `protoEnter` becomes, cut where the collector is called and where the arguments are back.
    -/
def enterCode (i : Interceptor) (h : Hook) : List Instr :=
  (arguments.map Op.push).map .op ++ ((prepareEnter i h).map .op ++
    .call .rax :: ([Op.add 0x88 .rsp].map .op ++ ((arguments.reverse.map Op.pop).map .op ++
      ([Op.add 0x08 .rsp, .mov h.target .rax].map .op ++ [.call .rax]))))

/-- What `protoExit` becomes. -/
def exitCode (i : Interceptor) : List Instr :=
  [Op.sub 0x08 .rsp, .push .rax].map .op ++ ((prepareExit i).map .op ++
    .call .rax :: ([Op.add 0x80 .rsp, .store .rax 0x08, .pop .rax].map .op ++ [.ret]))

/-- No address of user space looks like a number to be replaced. -/
theorem replace_ne {v index : UInt64} (hv : UserSpace v) (hindex : 2 ^ 47 ≤ (constructReplaceSeq index).toNat) :
    v ≠ constructReplaceSeq index := by
  rintro rfl
  exact absurd hv (Nat.not_lt.mpr hindex)

/-- The operand that is replaced, -/
theorem replace_hit {imm index : UInt64} (h : imm = constructReplaceSeq index) (value : UInt64) (dst : Reg) :
    replace index value (.op (.mov imm dst)) = .op (.mov value dst) := by
  rw [replace, if_pos h]

/-- and any other. -/
theorem replace_miss {imm index : UInt64} (h : imm ≠ constructReplaceSeq index) (value : UInt64) (dst : Reg) :
    replace index value (.op (.mov imm dst)) = .op (.mov imm dst) := by
  rw [replace, if_neg h]

/-- All the replacements of one instruction. -/
def instantiate (i : Interceptor) (h : Hook) (x : Instr) : Instr :=
  replace 5 h.target (replace 4 i.onExit (replace 3 i.onEnter (replace 2 h.id (replace 1 i.address x))))

/-- **The template with its addresses**: no address is taken for a number of the template. -/
theorem initializeTrampoline_eq {i : Interceptor} {h : Hook} (haddress : UserSpace i.address)
    (hid : UserSpace h.id) (henter : UserSpace i.onEnter) (hexit : UserSpace i.onExit) :
    initializeTrampoline i h = enterCode i h ++ exitCode i := by
  have hmap : initializeTrampoline i h = (protoEnter ++ protoExit).map (instantiate i h) := by
    simp only [initializeTrampoline, List.map_map]
    rfl
  -- each number is met by its own replacement, and what is put in its place by none of the later
  -- ones
  have h1 : ∀ r, instantiate i h (.op (.mov 0x3141592600000001 r)) = .op (.mov i.address r) := fun r => by
    rw [instantiate, replace_hit (by decide), replace_miss (replace_ne haddress (by decide)),
      replace_miss (replace_ne haddress (by decide)), replace_miss (replace_ne haddress (by decide)),
      replace_miss (replace_ne haddress (by decide))]
  have h2 : ∀ r, instantiate i h (.op (.mov 0x3141592600000002 r)) = .op (.mov h.id r) := fun r => by
    rw [instantiate, replace_miss (by decide), replace_hit (by decide),
      replace_miss (replace_ne hid (by decide)), replace_miss (replace_ne hid (by decide)),
      replace_miss (replace_ne hid (by decide))]
  have h3 : ∀ r, instantiate i h (.op (.mov 0x3141592600000003 r)) = .op (.mov i.onEnter r) := fun r => by
    rw [instantiate, replace_miss (by decide), replace_miss (by decide), replace_hit (by decide),
      replace_miss (replace_ne henter (by decide)), replace_miss (replace_ne henter (by decide))]
  have h4 : ∀ r, instantiate i h (.op (.mov 0x3141592600000004 r)) = .op (.mov i.onExit r) := fun r => by
    rw [instantiate, replace_miss (by decide), replace_miss (by decide), replace_miss (by decide),
      replace_hit (by decide), replace_miss (replace_ne hexit (by decide))]
  have h5 : ∀ r, instantiate i h (.op (.mov 0x3141592600000005 r)) = .op (.mov h.target r) := fun r => by
    rw [instantiate, replace_miss (by decide), replace_miss (by decide), replace_miss (by decide),
      replace_miss (by decide), replace_hit (by decide)]
  rw [hmap]
  simp only [protoEnter, protoExit, List.map_append, List.map_cons, List.map_nil, h1, h2, h3, h4, h5]
  rfl

/-! ## The two halves of the code -/

/-- The call of the collector goes on with what it left, -/
theorem execute_hook {i : Interceptor} {back tsc address : UInt64} {scratch : Machine} {rest : List Instr}
    {s t : Machine × CallsCollectorThread UInt64} {r : Reg} (haddress : s.1.regs r = address)
    (haligned : Aligned s.1) (hhook : address = i.onEnter ∨ address = i.onExit)
    (ht : callInterceptor i scratch s address = some t) :
    execute i back tsc scratch (.call r :: rest) s = execute i back tsc scratch rest t := by
  rw [execute, if_pos haligned, haddress, if_pos hhook, ht]
  rfl

/-- and that of the target leaves the template. -/
theorem execute_call {i : Interceptor} {back tsc : UInt64} {scratch : Machine} {rest : List Instr}
    {s : Machine × CallsCollectorThread UInt64} {r : Reg} (haligned : Aligned s.1)
    (henter : s.1.regs r ≠ i.onEnter) (hexit : s.1.regs r ≠ i.onExit) :
    execute i back tsc scratch (.call r :: rest) s = some ⟨s.1.regs r, s.1.push back, s.2⟩ := by
  rw [execute, if_pos haligned, if_neg (not_or.mpr ⟨henter, hexit⟩)]

/-- The target is entered with `m'`, where a call has left `m`. -/
structure Entered (m m' : Machine) : Prop where
  /-- `rax` holds addresses on the way, `r10` and `r11` are the collector's to spoil -/
  regs : ∀ r, r ≠ .rax → r ≠ .r10 → r ≠ .r11 → m'.regs r = m.regs r
  /-- the stack above the return address, arguments included -/
  mem : ∀ x : Int, m.sp + 8 ≤ x → m'.mem x = m.mem x

/-- What a callee has to save is neither the stack pointer nor the result. -/
theorem calleeSaved_ne {r : Reg} (h : r ∈ calleeSaved) : r ≠ .rsp ∧ r ≠ .rax := by
  revert h
  cases r <;> decide

/-- What the pushes of the arguments and the preparation of the call leave. -/
theorem prepareEnter_spec (i : Interceptor) (h : Hook) (tsc : UInt64) (m : Machine) :
    ∃ m', (prepareEnter i h).foldl (Op.exec tsc) m = m' ∧ m'.mem = m.mem ∧
      m'.regs .rdi = i.address ∧ m'.regs .rsi = m.regs .rsp + 0x30 ∧ m'.regs .rdx = tsc ∧
      m'.regs .rcx = h.id ∧ m'.regs .rax = i.onEnter ∧ m'.regs .rsp = m.regs .rsp - 0x88 ∧
      ∀ r ∈ calleeSaved, m'.regs r = m.regs r := by
  refine ⟨_, rfl, rfl, rfl, rfl, ?_, rfl, rfl, rfl, fun r hr => ?_⟩
  · exact Lib.join_halves tsc
  · simp only [calleeSaved, List.mem_cons, List.not_mem_nil, or_false] at hr
    rcases hr with rfl | rfl | rfl | rfl | rfl | rfl <;> rfl

/-- The arguments are saved, and `on_enter` is called. -/
theorem callEnter_spec {i : Interceptor} {h : Hook} (back tsc : UInt64) (scratch : Machine) {m : Machine}
    (haligned : m.sp % 16 = 8) (hroom : 0x200 ≤ m.sp) {c c' : CallsCollectorThread UInt64}
    (hc : c.onEnter m.sp (m.word m.sp).toNat tsc.toNat (some h.id) = some c') :
    ∃ m', (∀ rest, execute i back tsc scratch ((arguments.map Op.push).map .op ++
        ((prepareEnter i h).map .op ++ .call .rax :: rest)) (m, c) =
          execute i back tsc scratch rest (m', c')) ∧
      m'.sp + 0xB8 = m.sp ∧ m'.Stacked (m'.sp + 0x88) (arguments.reverse.map m.regs) ∧
      (∀ r ∈ calleeSaved, m'.regs r = m.regs r) ∧ ∀ x : Int, m.sp ≤ x → m'.mem x = m.mem x := by
  have htop : m.sp < 2 ^ 64 := (m.regs .rsp).toNat_lt
  -- six registers are pushed
  have hpushed := Machine.pushes_stacked tsc arguments (Machine.Pushed.refl m) (by decide)
    (by show 8 * 6 ≤ m.sp; omega)
  generalize hm₁ : (arguments.map Op.push).foldl (Op.exec tsc) m = m₁ at hpushed
  rw [List.append_nil, ← List.map_reverse] at hpushed
  have hsp₁ : m₁.sp + 48 = m.sp := hpushed.sp
  obtain ⟨m₂, hm₂, hmem₂, hrdi, hrsi, hrdx, hrcx, hrax, hrsp, hsaved⟩ := prepareEnter_spec i h tsc m₁
  have hsp₂ : m₂.sp + 0x88 = m₁.sp := by
    have hsub : (m₁.regs .rsp - 0x88).toNat = m₁.sp - 0x88 :=
      Machine.sp_sub (by show 136 ≤ m₁.sp; omega)
    have heq : m₂.sp = m₁.sp - 0x88 := by rw [Machine.sp, hrsp, hsub]
    omega
  -- `stack_ptr` is the slot of the return address, six words up
  have hslot : (m₂.regs .rsi).toNat = m.sp := by
    rw [hrsi, Machine.sp_add (by show m₁.sp + 48 < 2 ^ 64; omega)]
    exact hsp₁
  have hword : m₂.word m.sp = m.word m.sp := Machine.word_congr fun x hlo _ => by
    rw [hmem₂]
    exact hpushed.frame x (.inr hlo)
  -- so the collector is told that slot, what is in it, the time and the function
  have hcall : callInterceptor i scratch (m₂, c) i.onEnter = some (m₂.afterCall scratch, c') := by
    show (if m₂.regs .rdi = i.address then _ else none) = _
    rw [if_pos hrdi, if_pos rfl, hslot, hrdx, hrcx, hword, hc]
    rfl
  -- what was pushed is still there
  refine ⟨m₂.afterCall scratch, fun rest => ?_, ?_, ?_, fun r hr => ?_, fun x hx => ?_⟩
  · rw [execute_ops, hm₁, execute_ops, hm₂,
      execute_hook hrax (by show m₂.sp % 16 = 0; omega) (.inl rfl) hcall]
  · rw [Machine.afterCall_sp]
    omega
  · rw [Machine.afterCall_sp, hsp₂]
    refine hpushed.stacked.congr fun x hlo _ => ?_
    exact (Machine.afterCall_mem m₂ scratch (by omega)).trans (congrFun hmem₂ x)
  · rw [Machine.afterCall_saved m₂ scratch hr, hsaved r hr]
    exact hpushed.regs r (calleeSaved_ne hr).1
  · refine (Machine.afterCall_mem m₂ scratch (by omega)).trans ?_
    rw [hmem₂]
    exact hpushed.frame x (.inr hx)

/-- The arguments are restored, and the target is called. -/
theorem callTarget_spec {i : Interceptor} {target : UInt64}
    (htarget : target ≠ i.onEnter ∧ target ≠ i.onExit) (back tsc : UInt64) (scratch : Machine)
    (rest : List Instr) (c : CallsCollectorThread UInt64) {m m' : Machine} (haligned : m.sp % 16 = 8)
    (htop : m.sp + 8 < 2 ^ 64) (hsp : m'.sp + 0xB8 = m.sp)
    (hstacked : m'.Stacked (m'.sp + 0x88) (arguments.reverse.map m.regs))
    (hsaved : ∀ r ∈ calleeSaved, m'.regs r = m.regs r)
    (hmem : ∀ x : Int, m.sp ≤ x → m'.mem x = m.mem x) :
    ∃ t, execute i back tsc scratch ([Op.add 0x88 .rsp].map .op ++
        ((arguments.reverse.map Op.pop).map .op ++
          ([Op.add 0x08 .rsp, .mov target .rax].map .op ++ .call .rax :: rest))) (m', c) =
        some ⟨target, t, c⟩ ∧ Entered m t ∧ t.word m.sp = back := by
  generalize hm₄ : Op.exec tsc m' (.add 0x88 .rsp) = m₄
  have hsp₄ : m₄.sp = m'.sp + 0x88 := by
    rw [← hm₄]
    exact Machine.sp_add (by show m'.sp + 136 < 2 ^ 64; omega)
  have hmem₄ : m₄.mem = m'.mem := by
    rw [← hm₄]
    rfl
  -- the arguments come back in the opposite order
  obtain ⟨m₅, hm₅, hsp₅, hmem₅, hpopped, hothers⟩ := Machine.pops_stacked tsc m.regs arguments.reverse
    (m := m₄) (by rw [hsp₄]; exact hstacked.congr fun x _ _ => congrFun hmem₄ x) (by decide)
    (by rw [hsp₄]; show m'.sp + 136 + 8 * 6 < 2 ^ 64; omega)
  have hsp₅ : m₅.sp = m.sp := by
    have hcount : 8 * arguments.reverse.length = 48 := rfl
    omega
  -- the slot is given up, and the call takes it again
  have hsp₆ : ((m₅.set .rsp (m₅.regs .rsp + 0x08)).set .rax target).sp = m.sp + 8 := by
    have hadd : (m₅.regs .rsp + 0x08).toNat = m₅.sp + 8 :=
      Machine.sp_add (by show m₅.sp + 8 < 2 ^ 64; omega)
    exact hadd.trans (by rw [hsp₅])
  generalize hm₆ : (m₅.set .rsp (m₅.regs .rsp + 0x08)).set .rax target = m₆ at hsp₆
  have hsub : (m₆.regs .rsp - 8).toNat = m.sp := by
    rw [Machine.sp_sub (by rw [hsp₆]; exact Nat.le_add_left 8 _), hsp₆]
    rfl
  have hcode : [Op.add 0x08 .rsp, .mov target .rax].foldl (Op.exec tsc)
      ((arguments.reverse.map Op.pop).foldl (Op.exec tsc) ([Op.add 0x88 .rsp].foldl (Op.exec tsc) m')) =
      m₆ := by
    rw [← hm₆, ← hm₅, ← hm₄]
    rfl
  have hrax₆ : m₆.regs .rax = target := by
    rw [← hm₆]
    exact Machine.set_regs_self _ _ _
  have hpush : m₆.push back = (m₆.set .rsp (m₆.regs .rsp - 8)).put m.sp back := by
    rw [Machine.push_eq, hsub]
  refine ⟨m₆.push back, ?_, ⟨fun r hax hr10 hr11 => ?_, fun x hx => ?_⟩, ?_⟩
  · rw [execute_ops, execute_ops, execute_ops, hcode,
      execute_call (by show m₆.sp % 16 = 0; omega) (by rw [hrax₆]; exact htarget.1)
        (by rw [hrax₆]; exact htarget.2), hrax₆]
  · rw [hpush, Machine.put_regs]
    by_cases hrsp : r = .rsp
    · rw [hrsp, Machine.set_regs_self]
      exact UInt64.toNat_inj.mp hsub
    · have h₅ : m₆.regs r = m₅.regs r := by
        rw [← hm₆, Machine.set_regs_ne _ _ hax, Machine.set_regs_ne _ _ hrsp]
      rw [Machine.set_regs_ne _ _ hrsp, h₅]
      -- an argument was restored; the others that count are callee-saved, so the collector kept
      -- them
      by_cases harg : r ∈ arguments
      · exact hpopped r (List.mem_reverse.mpr harg)
      · have hkept : r ∈ calleeSaved := by
          revert hax hr10 hr11 hrsp harg
          cases r <;> decide
        rw [hothers r hrsp fun hmem => harg (List.mem_reverse.mp hmem), ← hm₄, ← hsaved r hkept]
        exact Machine.set_regs_ne _ _ hrsp
  · rw [hpush]
    refine (Machine.put_sameOutside _ _ _ x (.inr hx)).trans ?_
    have h₅ : m₆.mem = m'.mem := by
      rw [← hm₆, ← hmem₄, ← hmem₅]
      rfl
    exact (congrFun h₅ x).trans (hmem x (by omega))
  · rw [hpush]
    exact Machine.word_put _ _ _

/-- **Into the target**: the two parts, one after the other. -/
theorem enter_spec {i : Interceptor} {h : Hook} (htarget : h.target ≠ i.onEnter ∧ h.target ≠ i.onExit)
    (back tsc : UInt64) (scratch : Machine) (rest : List Instr) {m : Machine} (haligned : m.sp % 16 = 8)
    (hroom : 0x200 ≤ m.sp) (htop : m.sp + 8 < 2 ^ 64) {c c' : CallsCollectorThread UInt64}
    (hc : c.onEnter m.sp (m.word m.sp).toNat tsc.toNat (some h.id) = some c') :
    ∃ m', execute i back tsc scratch (enterCode i h ++ rest) (m, c) = some ⟨h.target, m', c'⟩ ∧
      Entered m m' ∧ m'.word m.sp = back := by
  obtain ⟨m', hm', hsp, hstacked, hsaved, hmem⟩ := callEnter_spec (i := i) back tsc scratch haligned hroom hc
  obtain ⟨t, ht, hentered, hback⟩ :=
    callTarget_spec htarget back tsc scratch rest c' haligned htop hsp hstacked hsaved hmem
  refine ⟨t, ?_, hentered, hback⟩
  simp only [enterCode, List.append_assoc, List.cons_append, List.nil_append]
  exact (hm' _).trans ht

/-- The caller goes on with `m'`, where the target returned with `m`; `scratch` is what `on_exit` left
    where it may write. -/
structure Left (scratch m m' : Machine) : Prop where
  result : m'.regs .rax = m.regs .rax
  /-- a result of two words loses the second -/
  second : m'.regs .rdx = scratch.regs .rdx
  /-- the slot is given up as by a return -/
  regs : ∀ r ∈ .rsp :: calleeSaved, m'.regs r = m.regs r
  mem : ∀ x : Int, m.sp ≤ x → m'.mem x = m.mem x

/-- The result is saved and the call prepared. -/
theorem prepareExit_spec (i : Interceptor) (tsc : UInt64) (m : Machine) :
    ∃ m', (prepareExit i).foldl (Op.exec tsc) m = m' ∧ m'.mem = m.mem ∧
      m'.regs .rdi = i.address ∧ m'.regs .rsi = m.regs .rsp + 0x08 ∧ m'.regs .rdx = tsc ∧
      m'.regs .rax = i.onExit ∧ m'.regs .rsp = m.regs .rsp - 0x80 ∧
      ∀ r ∈ calleeSaved, m'.regs r = m.regs r := by
  refine ⟨_, rfl, rfl, rfl, rfl, ?_, rfl, rfl, fun r hr => ?_⟩
  · exact Lib.join_halves tsc
  · simp only [calleeSaved, List.mem_cons, List.not_mem_nil, or_false] at hr
    rcases hr with rfl | rfl | rfl | rfl | rfl | rfl <;> rfl

/-- The result is saved, and `on_exit` is called. -/
theorem callExit_spec {i : Interceptor} (hdistinct : i.onExit ≠ i.onEnter) (back tsc : UInt64)
    (scratch : Machine) {m : Machine} (haligned : m.sp % 16 = 0) (hroom : 0x200 ≤ m.sp)
    {c c' : CallsCollectorThread UInt64} {address : Nat}
    (hc : c.onExit (m.sp - 8) tsc.toNat = some (address, c')) :
    ∃ m', (∀ rest, execute i back tsc scratch ([Op.sub 0x08 .rsp, .push .rax].map .op ++
        ((prepareExit i).map .op ++ .call .rax :: rest)) (m, c) = execute i back tsc scratch rest (m', c')) ∧
      m'.sp + 0x90 = m.sp ∧ m'.regs .rax = UInt64.ofNat address ∧ m'.regs .rdx = scratch.regs .rdx ∧
      m'.word (m'.sp + 0x80) = m.regs .rax ∧ (∀ r ∈ calleeSaved, m'.regs r = m.regs r) ∧
      ∀ x : Int, m.sp ≤ x → m'.mem x = m.mem x := by
  have htop : m.sp < 2 ^ 64 := (m.regs .rsp).toNat_lt
  -- the slot is taken again, and the result saved below it
  have hsub : (m.regs .rsp - 0x08).toNat = m.sp - 8 := Machine.sp_sub (by show 8 ≤ m.sp; omega)
  have hpushed := (Machine.Pushed.refl (m.set .rsp (m.regs .rsp - 0x08))).push (m.regs .rax)
    (by show 8 ≤ (m.regs .rsp - 0x08).toNat; omega)
  generalize hm₁ : (m.set .rsp (m.regs .rsp - 0x08)).push (m.regs .rax) = m₁ at hpushed
  have hbefore : [Op.sub 0x08 .rsp, .push .rax].foldl (Op.exec tsc) m = m₁ := by
    rw [← hm₁]
    rfl
  have hsp₁ : m₁.sp + 16 = m.sp := by
    have hsp : m₁.sp + 8 = (m.regs .rsp - 0x08).toNat := hpushed.sp
    omega
  obtain ⟨m₂, hm₂, hmem₂, hrdi, hrsi, hrdx, hrax, hrsp, hsaved⟩ := prepareExit_spec i tsc m₁
  have hsp₂ : m₂.sp + 0x80 = m₁.sp := by
    have hsub₂ : (m₁.regs .rsp - 0x80).toNat = m₁.sp - 0x80 :=
      Machine.sp_sub (by show 128 ≤ m₁.sp; omega)
    have heq : m₂.sp = m₁.sp - 0x80 := by rw [Machine.sp, hrsp, hsub₂]
    omega
  have hslot : (m₂.regs .rsi).toNat = m.sp - 8 := by
    rw [hrsi, Machine.sp_add (by show m₁.sp + 8 < 2 ^ 64; omega)]
    show m₁.sp + 8 = m.sp - 8
    omega
  -- the collector is told the same slot as on entry
  have hcall : callInterceptor i scratch (m₂, c) i.onExit =
      some ((m₂.afterCall scratch).set .rax (UInt64.ofNat address), c') := by
    show (if m₂.regs .rdi = i.address then _ else none) = _
    rw [if_pos hrdi, if_neg hdistinct, hslot, hrdx, hc]
    rfl
  have hmem : ∀ x : Int, m₁.sp ≤ x → (m₂.afterCall scratch).mem x = m₁.mem x := fun x hx =>
    (Machine.afterCall_mem m₂ scratch (by omega)).trans (congrFun hmem₂ x)
  refine ⟨(m₂.afterCall scratch).set .rax (UInt64.ofNat address), fun rest => ?_, ?_,
    Machine.set_regs_self _ _ _, Machine.set_regs_ne _ _ (by decide), ?_, fun r hr => ?_, fun x hx => ?_⟩
  · rw [execute_ops, hbefore, execute_ops, hm₂,
      execute_hook hrax (by show m₂.sp % 16 = 0; omega) (.inr rfl) hcall]
  · show m₂.sp + 0x90 = m.sp
    omega
  · show (m₂.afterCall scratch).word (m₂.sp + 0x80) = m.regs .rax
    rw [hsp₂, ← hpushed.stacked.1]
    exact Machine.word_congr fun x hlo _ => hmem x hlo
  · rw [Machine.set_regs_ne _ _ (calleeSaved_ne hr).2, Machine.afterCall_saved m₂ scratch hr, hsaved r hr,
      hpushed.regs r (calleeSaved_ne hr).1]
    exact Machine.set_regs_ne _ _ (calleeSaved_ne hr).1
  · refine (hmem x (by omega)).trans ?_
    exact hpushed.frame x (.inr (by show ((m.regs .rsp - 0x08).toNat : Int) ≤ x; omega))

/-- The return address goes to the slot, the result back to its register. -/
theorem return_spec (i : Interceptor) (back tsc : UInt64) (scratch : Machine) (rest : List Instr)
    (c : CallsCollectorThread UInt64) {m m' : Machine} {address : UInt64} (hsp : m'.sp + 0x90 = m.sp)
    (haddress : m'.regs .rax = address) (hsecond : m'.regs .rdx = scratch.regs .rdx)
    (hresult : m'.word (m'.sp + 0x80) = m.regs .rax)
    (hsaved : ∀ r ∈ calleeSaved, m'.regs r = m.regs r)
    (hmem : ∀ x : Int, m.sp ≤ x → m'.mem x = m.mem x) :
    ∃ t, execute i back tsc scratch ([Op.add 0x80 .rsp, .store .rax 0x08, .pop .rax].map .op ++
        .ret :: rest) (m', c) = some ⟨address, t, c⟩ ∧ Left scratch m t := by
  have htop : m.sp < 2 ^ 64 := (m.regs .rsp).toNat_lt
  have hadd : (m'.regs .rsp + 0x80).toNat = m'.sp + 0x80 :=
    Machine.sp_add (by show m'.sp + 128 < 2 ^ 64; omega)
  have hslot : (m'.regs .rsp + 0x80 + 0x08).toNat = m'.sp + 0x88 := by
    rw [UInt64.toNat_add, hadd]
    exact Nat.mod_eq_of_lt (by show m'.sp + 128 + 8 < 2 ^ 64; omega)
  -- the return address goes above the saved result
  have hstore : [Op.add 0x80 .rsp, .store .rax 0x08].foldl (Op.exec tsc) m' =
      (m'.set .rsp (m'.regs .rsp + 0x80)).put (m'.sp + 0x88) address := by
    rw [← hslot, ← haddress]
    rfl
  generalize hm₅ : (m'.set .rsp (m'.regs .rsp + 0x80)).put (m'.sp + 0x88) address = m₅ at hstore
  have hsp₅ : m₅.sp = m'.sp + 0x80 := by
    rw [← hm₅]
    exact hadd
  have hmem₅ : ∀ x : Int, x < m'.sp + 0x88 ∨ m'.sp + 0x90 ≤ x → m₅.mem x = m'.mem x := fun x hx => by
    rw [← hm₅]
    exact Machine.put_sameOutside _ _ _ x (by omega)
  have hback : m₅.word (m'.sp + 0x88) = address := by
    rw [← hm₅]
    exact Machine.word_put _ _ _
  have hpopped : m₅.word m₅.sp = m.regs .rax := by
    rw [hsp₅, ← hresult]
    exact Machine.word_congr fun x _ hhi => hmem₅ x (.inl (by omega))
  generalize hm₆ : Op.exec tsc m₅ (.pop .rax) = m₆
  have hsp₆ : m₆.sp = m'.sp + 0x88 := by
    have hnext : (m₅.regs .rsp + 8).toNat = m₅.sp + 8 :=
      Machine.sp_add (by show m₅.sp + 8 < 2 ^ 64; omega)
    rw [← hm₆]
    exact hnext.trans (by rw [hsp₅])
  have hregs₆ : ∀ r, r ≠ .rax → r ≠ .rsp → m₆.regs r = m'.regs r := fun r hrax hrsp => by
    rw [← hm₆, ← hm₅]
    exact (Machine.set_regs_ne _ _ hrax).trans
      ((Machine.set_regs_ne _ _ hrsp).trans (Machine.set_regs_ne _ _ hrsp))
  have hmem₆ : m₆.mem = m₅.mem := by
    rw [← hm₆]
    rfl
  -- once the result is popped, it is on top: `ret` takes it
  have hword₆ : m₆.word m₆.sp = address := by
    rw [hsp₆, ← hback]
    exact Machine.word_congr fun x _ _ => congrFun hmem₆ x
  refine ⟨m₆.pop.2, ?_, ⟨?_, ?_, fun r hr => ?_, fun x hx => ?_⟩⟩
  · -- the address
    have hafter : [Op.add 0x80 .rsp, .store .rax 0x08, .pop .rax].foldl (Op.exec tsc) m' = m₆ := by
      rw [← hm₆, ← hstore]
      rfl
    rw [execute_ops, hafter]
    show some (Exit.mk (m₆.word m₆.sp) m₆.pop.2 c) = _
    rw [hword₆]
  · -- the result
    refine (Machine.set_regs_ne _ _ (by decide)).trans ?_
    rw [← hm₆, ← hpopped]
    exact Machine.set_regs_self _ _ _
  · refine (Machine.set_regs_ne _ _ (by decide)).trans ?_
    rw [hregs₆ .rdx (by decide) (by decide), hsecond]
  · rcases List.mem_cons.mp hr with rfl | hr
    · refine UInt64.toNat_inj.mp ?_
      have hnext : (m₆.regs .rsp + 8).toNat = m₆.sp + 8 :=
        Machine.sp_add (by show m₆.sp + 8 < 2 ^ 64; omega)
      show (m₆.regs .rsp + 8).toNat = m.sp
      omega
    · obtain ⟨hrsp, hrax⟩ := calleeSaved_ne hr
      refine (Machine.set_regs_ne _ _ hrsp).trans ?_
      rw [hregs₆ r hrax hrsp, hsaved r hr]
  · show m₆.mem x = m.mem x
    rw [hmem₆, hmem₅ x (.inr (by omega))]
    exact hmem x hx

/-- **Back to the caller.** -/
theorem exit_spec {i : Interceptor} (hdistinct : i.onExit ≠ i.onEnter) (back tsc : UInt64)
    (scratch : Machine) {m : Machine} (haligned : m.sp % 16 = 0) (hroom : 0x200 ≤ m.sp)
    {c c' : CallsCollectorThread UInt64} {address : Nat}
    (hc : c.onExit (m.sp - 8) tsc.toNat = some (address, c')) :
    ∃ m', execute i back tsc scratch (exitCode i) (m, c) = some ⟨UInt64.ofNat address, m', c'⟩ ∧
      Left scratch m m' := by
  obtain ⟨m', hm', hsp, haddress, hsecond, hresult, hsaved, hmem⟩ :=
    callExit_spec hdistinct back tsc scratch haligned hroom hc
  obtain ⟨t, ht, hleft⟩ := return_spec i back tsc scratch [] c' hsp haddress hsecond hresult hsaved
    hmem
  exact ⟨t, (hm' _).trans ht, hleft⟩

/-! ## A thread that runs hooked functions -/

/-- `c_trampoline_size`. -/
def trampolineSize : Nat := codeSize (protoEnter ++ protoExit)

/-- The code at a distance from its start. -/
def after (code : List Instr) (n : Nat) : Option (List Instr) :=
  if n = 0 then some code
  else match code with
    | [] => none
    | i :: rest => if i.size ≤ n then after rest (n - i.size) else none

/-- What follows the call of the target. -/
def Hook.back (h : Hook) : UInt64 := h.base + UInt64.ofNat (codeSize protoEnter)

/-- Two trampolines that share no byte. -/
def Hook.Apart (h g : Hook) : Prop :=
  h.base.toNat + trampolineSize ≤ g.base.toNat ∨ g.base.toNat + trampolineSize ≤ h.base.toNat

instance (h g : Hook) : Decidable (h.Apart g) := inferInstanceAs (Decidable (_ ∨ _))

instance : Std.Symm Hook.Apart := ⟨fun _ _ => Or.symm⟩

/-- The interceptor and the trampolines of a process. -/
structure Hooks where
  interceptor : Interceptor
  hooks : List Hook
  /-- two functions -/
  distinct : interceptor.onExit ≠ interceptor.onEnter
  user : UserSpace interceptor.address ∧ UserSpace interceptor.onEnter ∧ UserSpace interceptor.onExit
  /-- a target lies in the hooked function, which is none of the collector's -/
  hooked : ∀ h ∈ hooks, UserSpace h.base ∧ UserSpace h.id ∧ UserSpace h.target ∧
    h.target ≠ interceptor.onEnter ∧ h.target ≠ interceptor.onExit
  /-- each was allocated for itself -/
  apart : hooks.Pairwise Hook.Apart

/-- The code at an address. -/
def Hooks.fetch (p : Hooks) (a : UInt64) : Option (Hook × List Instr) :=
  (p.hooks.find? fun h => h.base.toNat ≤ a.toNat ∧ a.toNat < h.base.toNat + trampolineSize).bind fun h =>
    (after (initializeTrampoline p.interceptor h) (a.toNat - h.base.toNat)).map (h, ·)

/-- A hooked function was entered at `address`; `called` is what the call had left. -/
structure Entry where
  hook : Hook
  called : Machine
  address : UInt64
  machine : Machine

/-- A hooked function that was to return to `due` has returned to `address`; `target` is what it had
    left, `scratch` what `on_exit` left where it may write. -/
structure Return where
  due : UInt64
  target : Machine
  scratch : Machine
  address : UInt64
  machine : Machine

/-- A thread between two instructions of its own.  The last three are for the specification. -/
structure Thread where
  machine : Machine
  collector : CallsCollectorThread UInt64
  followed : ThreadStack UInt64
  entered : List Entry
  left : List Return

/-- What a thread does next. -/
inductive Move
  /-- the thread's own code, of a hooked function or not -/
  | run (m : Machine)
  /-- a call of a hooked function, and its trampoline, which takes the time `tsc` -/
  | call (h : Hook) (back tsc : UInt64) (scratch : Machine)
  /-- a hooked function that ends with a jump to another one -/
  | jump (h : Hook) (tsc : UInt64) (scratch : Machine)
  /-- the innermost hooked function returns -/
  | ret (tsc : UInt64) (scratch : Machine)
  /-- an exception or a `longjmp` out of the innermost hooked functions -/
  | unwind (frames : Nat) (m : Machine)

namespace Thread

/-- A thread that has called nothing hooked yet. -/
def new (m : Machine) : Thread := ⟨m, CallsCollectorThread.new, ThreadStack.new, [], []⟩

/-- The return addresses of hooked functions are left alone. -/
def Keeps (live : List Frame) (m m' : Machine) : Prop := ∀ f ∈ live, m'.word f.slot = m.word f.slot

instance (live : List Frame) (m m' : Machine) : Decidable (Keeps live m m') :=
  inferInstanceAs (Decidable (∀ f ∈ live, _))

/-- The innermost hooked function has its stack as it was when it was entered. -/
def Balanced (s : Thread) : Prop := s.followed.live.head?.map Frame.slot = some s.machine.sp

instance (s : Thread) : Decidable s.Balanced := inferInstanceAs (Decidable (_ = _))

/-- The move of the stack that the collector follows. -/
def stackMove (s : Thread) : Move → Option (StackMove UInt64)
  | .run _ => none
  | .call h back tsc _ =>
    let m := s.machine.push back
    some (.call m.sp (m.word m.sp).toNat tsc.toNat h.id)
  | .jump h tsc _ => some (.tailCall (s.machine.word s.machine.sp).toNat tsc.toNat h.id)
  | .ret tsc _ => some (.ret s.machine.sp tsc.toNat)
  | .unwind frames _ => some (.unwind frames)

/-- The thread keeps to the calling convention and has stack left, and no function that was unwound
    is in the way. -/
def Allowed (p : Hooks) (s : Thread) (move : Move) : Prop :=
  (∀ x ∈ s.stackMove move, s.followed.Admissible x ∧ s.followed.Undisturbed x) ∧
  match move with
  | .run m => Keeps s.followed.live s.machine m
  | .call h _ _ _ => h ∈ p.hooks ∧ s.machine.sp % 16 = 0 ∧ 0x208 ≤ s.machine.sp
  | .jump h _ _ => h ∈ p.hooks ∧ s.Balanced
  | .ret _ _ => s.Balanced
  | .unwind frames m => Keeps (s.followed.live.drop frames) s.machine m

instance (p : Hooks) (s : Thread) (move : Move) : Decidable (s.Allowed p move) := by
  unfold Allowed
  cases move <;> infer_instance

/-- The jumper brings a call, or a jump, to the trampoline; `m` is what it has left. -/
def enter (p : Hooks) (s : Thread) (h : Hook) (tsc : UInt64) (scratch m : Machine)
    (followed : ThreadStack UInt64) : Option Thread :=
  (execute p.interceptor h.back tsc scratch (initializeTrampoline p.interceptor h)
    (m.set .rax h.base, s.collector)).map fun x =>
      ⟨x.machine, x.collector, followed, s.entered ++ [⟨h, m, x.address, x.machine⟩], s.left⟩

/-- What the move does: to the machine by the code of the trampolines, to the specification by the
    stack it follows. -/
def perform (p : Hooks) (s : Thread) : Move → Option Thread
  | .run m => some { s with machine := m }
  | .call h back tsc scratch =>
    -- the return address is pushed, and the jumper takes it from there
    let m := s.machine.push back
    (s.followed.perform (.call m.sp (m.word m.sp).toNat tsc.toNat h.id)).bind
      (s.enter p h tsc scratch m)
  | .jump h tsc scratch =>
    (s.followed.perform (.tailCall (s.machine.word s.machine.sp).toNat tsc.toNat h.id)).bind
      (s.enter p h tsc scratch s.machine)
  | .ret tsc scratch =>
    let m := s.machine.pop.2
    (s.followed.perform (.ret s.machine.sp tsc.toNat)).bind fun followed =>
      -- what runs next is whatever code is at the address returned to
      (p.fetch s.machine.pop.1).bind fun r =>
        (execute p.interceptor r.1.back tsc scratch r.2 (m, s.collector)).map fun x =>
          let due := UInt64.ofNat ((s.followed.live.head?.map Frame.returnAddress).getD 0)
          ⟨x.machine, x.collector, followed, s.entered, s.left ++ [⟨due, m, scratch, x.address, x.machine⟩]⟩
  | .unwind frames m =>
    (s.followed.perform (.unwind frames)).map fun followed => { s with machine := m, followed := followed }

/-- No step for what a thread may not do. -/
def step (p : Hooks) (s : Thread) (move : Move) : Option Thread :=
  if s.Allowed p move then s.perform p move else none

end Thread

/-! ## What a return address leads to -/

/-- No instruction begins with what could go on a sequence. -/
theorem Instr.encode_cons (x : Instr) : ∃ y bs, x.encode = y :: bs ∧ y ≠ 0 ∧ y ≠ 0x26 := by
  -- the first byte is a prefix or one of few opcodes
  have hrex : ∀ r s : Reg, rex r s ≠ 0 ∧ rex r s ≠ 0x26 := fun r s => by
    unfold rex
    split <;> split <;> decide
  have hshort : ∀ (r : Reg) (b : UInt8), b ≠ 0 → b ≠ 0x26 →
      ∃ y bs, short r b = y :: bs ∧ y ≠ 0 ∧ y ≠ 0x26 := fun r b hzero hsig => by
    unfold short
    split
    · exact ⟨_, _, rfl, hzero, hsig⟩
    · exact ⟨_, _, rfl, by decide, by decide⟩
  cases x with
  | op o =>
    cases o with
    | push r => exact hshort r _ (by cases r <;> decide) (by cases r <;> decide)
    | pop r => exact hshort r _ (by cases r <;> decide) (by cases r <;> decide)
    | rdtsc => exact ⟨_, _, rfl, by decide, by decide⟩
    | sub imm r | add imm r =>
      rw [Instr.encode]
      split
      · exact ⟨_, _, rfl, hrex _ _⟩
      · exact ⟨_, _, rfl, hrex _ _⟩
    | mov _ _ | lea _ _ | shl _ _ | or _ _ | store _ _ => exact ⟨_, _, rfl, hrex _ _⟩
  | call r => 
    obtain ⟨y, bs, h, hy⟩ := hshort r 0xFF (by decide) (by decide)
    exact ⟨y, bs ++ _, by rw [Instr.encode, h]; rfl, hy⟩
  | ret => exact ⟨_, _, rfl, by decide, by decide⟩

/-- Every instruction takes room, so that a walk over code goes on. -/
theorem Instr.size_pos (x : Instr) : 0 < x.size := by
  obtain ⟨y, bs, h, -⟩ := x.encode_cons
  rw [Instr.size, h]
  exact Nat.succ_pos _

/-- A load takes ten bytes, whatever it loads. -/
theorem Instr.size_mov (imm : UInt64) (r : Reg) : (Instr.op (.mov imm r)).size = 10 := by
  rw [Instr.size, Instr.encode, List.length_append, Lib.Memory.length_leBytes]
  rfl

/-- The addresses are as long as the numbers they replace. -/
theorem codeSize_enterCode (i : Interceptor) (h : Hook) : codeSize (enterCode i h) = codeSize protoEnter := by
  simp only [codeSize, enterCode, prepareEnter, protoEnter, List.map_append, List.map_cons, List.map_nil,
    List.map_map, List.cons_append, List.nil_append, List.append_assoc, Instr.size_mov]

/-- The distance of what follows some code is that code's size. -/
theorem after_append (ys : List Instr) : ∀ xs : List Instr, after (xs ++ ys) (codeSize xs) = some ys
  | [] => by
    rw [after.eq_def]
    rfl
  | x :: xs => by
    have hpos := x.size_pos
    have hsize : codeSize (x :: xs) = x.size + codeSize xs := rfl
    rw [hsize, List.cons_append, after, if_neg (by omega), if_pos (by omega), Nat.add_sub_cancel_left]
    exact after_append ys xs

/-- The address after the call does not wrap. -/
theorem Hook.back_toNat {h : Hook} (hbase : UserSpace h.base) :
    h.back.toNat = h.base.toNat + codeSize protoEnter := by
  have hsmall : codeSize protoEnter < 2 ^ 16 := by decide
  have hcode : (UInt64.ofNat (codeSize protoEnter)).toNat = codeSize protoEnter := by
    rw [UInt64.toNat_ofNat']
    exact Nat.mod_eq_of_lt (by omega)
  unfold UserSpace at hbase
  rw [Hook.back, UInt64.toNat_add, hcode]
  exact Nat.mod_eq_of_lt (by omega)

/-- **The target returns into its trampoline.** -/
theorem Hooks.fetch_back (p : Hooks) {h : Hook} (hh : h ∈ p.hooks) :
    p.fetch h.back = some (h, exitCode p.interceptor) := by
  obtain ⟨hbase, hid, -⟩ := p.hooked h hh
  obtain ⟨haddress, henter, hexit⟩ := p.user
  have hback := Hook.back_toNat hbase
  have hsize : codeSize protoEnter < trampolineSize := by decide
  -- the address is inside the trampoline of `h` and of no other
  have hfind : (p.hooks.find? fun g => g.base.toNat ≤ h.back.toNat ∧
      h.back.toNat < g.base.toNat + trampolineSize) = some h := by
    have hsome : (p.hooks.find? fun g => g.base.toNat ≤ h.back.toNat ∧
        h.back.toNat < g.base.toNat + trampolineSize).isSome = true := by
      rw [List.find?_isSome]
      exact ⟨h, hh, by rw [hback]; simpa using hsize⟩
    obtain ⟨g, hg⟩ := Option.isSome_iff_exists.mp hsome
    have hinside : g.base.toNat ≤ h.back.toNat ∧ h.back.toNat < g.base.toNat + trampolineSize := by
      simpa using List.find?_some hg
    have hmem := List.mem_of_find?_eq_some hg
    rw [hg]
    by_contra hne
    -- two trampolines have no address in common
    have hapart : g.Apart h := p.apart.forall hmem hh fun heq => hne (by rw [heq])
    unfold Hook.Apart at hapart
    omega
  -- and there, behind the half that calls the target, is the other one
  have hcode : after (initializeTrampoline p.interceptor h) (h.back.toNat - h.base.toNat) =
      some (exitCode p.interceptor) := by
    rw [initializeTrampoline_eq haddress hid henter hexit, hback, Nat.add_sub_cancel_left,
      ← codeSize_enterCode p.interceptor h]
    exact after_append (exitCode p.interceptor) (enterCode p.interceptor h)
  rw [Hooks.fetch, hfind, Option.bind_some, hcode]
  rfl

/-! ## Every slot leads into a trampoline -/

/-- Where a hooked function that has not returned is to return. -/
structure Thread.Slot (p : Hooks) (m : Machine) (slot : Nat) : Prop where
  /-- where a call pushes onto an aligned stack -/
  aligned : slot % 16 = 8
  /-- for the collector -/
  room : 0x200 ≤ slot
  top : slot + 8 < 2 ^ 64
  /-- and not the caller's address -/
  back : ∃ h ∈ p.hooks, m.word slot = h.back

/-- **The invariant.** -/
structure Thread.Sound (p : Hooks) (s : Thread) : Prop where
  intact : s.followed.Intact
  /-- the collector's stack is the one followed -/
  same : s.collector = s.followed.collector
  /-- of every function that has not returned -/
  slots : ∀ f ∈ s.followed.live, Thread.Slot p s.machine f.slot
  /-- what has come of the entries so far -/
  entered : ∀ x ∈ s.entered, x.address = x.hook.target ∧ Entered x.called x.machine
  /-- and of the returns -/
  left : ∀ x ∈ s.left, x.address = x.due ∧ Left x.scratch x.target x.machine

namespace Thread

/-- It holds of a new thread. -/
theorem new_sound (p : Hooks) (m : Machine) : Sound p (new m) where
  intact := ThreadStack.new_intact
  same := rfl
  slots _ h := absurd h List.not_mem_nil
  entered _ h := absurd h List.not_mem_nil
  left _ h := absurd h List.not_mem_nil

/-- Code that leaves the word in the slot alone keeps it so. -/
theorem Slot.keep {p : Hooks} {m m' : Machine} {slot : Nat} (h : Slot p m slot)
    (hword : m'.word slot = m.word slot) : Slot p m' slot := by
  obtain ⟨g, hg, hback⟩ := h.back
  exact ⟨h.aligned, h.room, h.top, g, hg, hword.trans hback⟩

/-- The trampoline of a function that was called, or jumped to. -/
theorem Sound.enter {p : Hooks} {s : Thread} (hs : Sound p s) {h : Hook} (hh : h ∈ p.hooks) (tsc : UInt64)
    (scratch : Machine) {m : Machine} (haligned : m.sp % 16 = 8) (hroom : 0x200 ≤ m.sp)
    (htop : m.sp + 8 < 2 ^ 64) {t : ThreadStack UInt64} (hintact : t.Intact)
    (hc : s.followed.collector.onEnter m.sp (m.word m.sp).toNat tsc.toNat (some h.id) = some t.collector)
    (hlive : ∀ f ∈ t.live, f.slot = m.sp ∨ m.sp + 8 ≤ f.slot ∧ Slot p m f.slot) :
    ∃ s', s.enter p h tsc scratch m t = some s' ∧ Sound p s' := by
  obtain ⟨-, hid, -, htarget⟩ := p.hooked h hh
  obtain ⟨haddress, henter, hexit⟩ := p.user
  obtain ⟨m', hm', hentered, hback⟩ := enter_spec (m := m.set .rax h.base) htarget h.back tsc scratch
    (exitCode p.interceptor) haligned hroom htop hc
  -- the template is what was computed, and the first half of it brings the target
  have hcode : execute p.interceptor h.back tsc scratch (initializeTrampoline p.interceptor h)
      (m.set .rax h.base, s.collector) = some ⟨h.target, m', t.collector⟩ := by
    rw [initializeTrampoline_eq haddress hid henter hexit, hs.same]
    exact hm'
  have henters : s.enter p h tsc scratch m t =
      some ⟨m', t.collector, t, s.entered ++ [⟨h, m, h.target, m'⟩], s.left⟩ := by
    rw [Thread.enter, hcode]
    rfl
  refine ⟨_, henters, hintact, rfl, fun f hf => ?_, fun x hx => ?_, hs.left⟩
  · -- the new slot leads into the trampoline; those above were not written to
    rcases hlive f hf with heq | ⟨hle, hslot⟩
    · rw [heq]
      exact ⟨haligned, hroom, htop, h, hh, hback⟩
    · exact hslot.keep (Machine.word_congr fun x hlo _ => hentered.mem x (by show ((m.sp : Nat) : Int) + 8 ≤ x; omega))
  · rcases List.mem_append.mp hx with hx | hx
    · exact hs.entered x hx
    · rw [List.mem_singleton.mp hx]
      exact ⟨rfl, fun r hax hr10 hr11 => (hentered.regs r hax hr10 hr11).trans (Machine.set_regs_ne _ _ hax),
        hentered.mem⟩

/-- **A call** of a hooked function. -/
theorem Sound.call {p : Hooks} {s : Thread} (hs : Sound p s) {h : Hook} {back tsc : UInt64} {scratch : Machine}
    (hallowed : s.Allowed p (.call h back tsc scratch)) :
    ∃ s', s.perform p (.call h back tsc scratch) = some s' ∧ Sound p s' := by
  obtain ⟨hmove, hh, haligned, hroom⟩ := hallowed
  obtain ⟨hadm, hund⟩ := hmove _ rfl
  obtain ⟨t, ht, hintact⟩ := ThreadStack.perform_intact hs.intact hadm hund
  have htop : s.machine.sp < 2 ^ 64 := (s.machine.regs .rsp).toNat_lt
  -- the slot is the word the call pushes, below all others
  have hsp : (s.machine.push back).sp = s.machine.sp - 8 := Machine.sp_sub (by show 8 ≤ s.machine.sp; omega)
  obtain ⟨c, hc, rfl⟩ := Option.map_eq_some_iff.mp ht
  obtain ⟨s', hs', hsound⟩ := hs.enter hh tsc scratch (m := s.machine.push back) (by omega) (by omega)
    (by omega) hintact hc fun f hf => by
      rcases List.mem_cons.mp hf with rfl | hf
      · exact .inl rfl
      · have hslot := hs.slots f hf
        have hbelow := hadm.2 f hf
        have haligned' := hslot.aligned
        refine .inr ⟨by omega, hslot.keep ?_⟩
        rw [Machine.push_eq]
        exact Machine.word_put_apart _ _ (.inl (by show (s.machine.push back).sp + 8 ≤ f.slot; omega))
  exact ⟨s', by rw [perform]; exact (congrArg (Option.bind · _) ht).trans hs', hsound⟩

/-- Then there is one, and its slot is on top. -/
theorem Balanced.innermost {s : Thread} (h : s.Balanced) :
    ∃ f outer, s.followed.live = f :: outer ∧ f.slot = s.machine.sp := by
  unfold Balanced at h
  cases hlive : s.followed.live with
  | nil =>
    rw [hlive] at h
    cases h
  | cons f outer =>
    rw [hlive] at h
    exact ⟨f, outer, rfl, Option.some.inj h⟩

/-- **A jump**: the slot is that of the function that ends with it, with the trampoline's address in
    it already. -/
theorem Sound.jump {p : Hooks} {s : Thread} (hs : Sound p s) {h : Hook} {tsc : UInt64} {scratch : Machine}
    (hallowed : s.Allowed p (.jump h tsc scratch)) :
    ∃ s', s.perform p (.jump h tsc scratch) = some s' ∧ Sound p s' := by
  obtain ⟨hmove, hh, hbalanced⟩ := hallowed
  obtain ⟨hadm, hund⟩ := hmove _ rfl
  obtain ⟨t, ht, hintact⟩ := ThreadStack.perform_intact hs.intact hadm hund
  obtain ⟨f, outer, hlive, hslot⟩ := hbalanced.innermost
  have hinner := hs.slots f (by rw [hlive]; exact List.mem_cons_self)
  have honEnter := ht
  simp only [ThreadStack.perform, hlive] at honEnter
  obtain ⟨c, hc, rfl⟩ := Option.map_eq_some_iff.mp honEnter
  rw [hslot] at hinner hc
  obtain ⟨s', hs', hsound⟩ := hs.enter hh tsc scratch (m := s.machine) hinner.aligned hinner.room hinner.top
    hintact hc fun g hg => by
      have hg : g ∈ s.followed.live := hlive ▸ hg
      have hslot' := hs.slots g hg
      have haligned := hslot'.aligned
      have habove := (hs.intact.shadows.slot_lt_topOfStack g hg).2
      rw [hlive] at habove
      have hle : s.machine.sp ≤ g.slot := hslot ▸ habove
      rcases Nat.eq_or_lt_of_le hle with heq | hlt
      · exact .inl heq.symm
      · have haligned' := hinner.aligned
        exact .inr ⟨by omega, hslot'⟩
  exact ⟨s', by rw [Thread.perform]; exact (congrArg (Option.bind · _) ht).trans hs', hsound⟩

/-- **The return** of the innermost hooked function. -/
theorem Sound.ret {p : Hooks} {s : Thread} (hs : Sound p s) {tsc : UInt64} {scratch : Machine}
    (hallowed : s.Allowed p (.ret tsc scratch)) :
    ∃ s', s.perform p (.ret tsc scratch) = some s' ∧ Sound p s' := by
  obtain ⟨hmove, hbalanced⟩ := hallowed
  obtain ⟨hadm, hund⟩ := hmove _ rfl
  obtain ⟨t, ht, hintact⟩ := ThreadStack.perform_intact hs.intact hadm hund
  obtain ⟨f, outer, hlive, hslot⟩ := hbalanced.innermost
  have hinner := hs.slots f (by rw [hlive]; exact List.mem_cons_self)
  obtain ⟨h, hh, hback⟩ := hinner.back
  have honExit := ht
  simp only [ThreadStack.perform, hlive] at honExit
  obtain ⟨⟨address, c⟩, hc, rfl⟩ := Option.map_eq_some_iff.mp honExit
  -- the collector gives what the call pushed
  obtain rfl : address = f.returnAddress :=
    hintact.returned (address, f.returnAddress) (List.mem_append_right _ (List.mem_singleton.mpr rfl))
  rw [hslot] at hinner hback
  have haligned := hinner.aligned
  have hroom := hinner.room
  have hsp : s.machine.pop.2.sp = s.machine.sp + 8 := Machine.sp_add hinner.top
  obtain ⟨m', hm', hleft⟩ := exit_spec p.distinct h.back tsc scratch (m := s.machine.pop.2) (by omega) (by omega)
    (c := s.collector) (by rw [hsp, Nat.add_sub_cancel, hs.same]; exact hc)
  -- the slot leads into the trampoline of `h`: its second half runs, and finds the function the
  -- collector popped
  have hreturns : s.perform p (.ret tsc scratch) =
      some ⟨m', c, ⟨c, outer, s.followed.returned ++ [(f.returnAddress, f.returnAddress)]⟩, s.entered,
        s.left ++
          [⟨UInt64.ofNat f.returnAddress, s.machine.pop.2, scratch, UInt64.ofNat f.returnAddress, m'⟩]⟩ := by
    have hpop : s.machine.pop.1 = h.back := hback
    rw [Thread.perform, ht, Option.bind_some, hpop, p.fetch_back hh, Option.bind_some, hm', hlive]
    rfl
  refine ⟨_, hreturns, hintact, rfl, fun g hg => ?_, hs.entered, fun x hx => ?_⟩
  · have hslot' := hs.slots g (by rw [hlive]; exact List.mem_cons_of_mem f hg)
    have habove := (hintact.shadows.slot_lt_topOfStack g hg).2
    -- the outer ones lie above
    have hcaller : s.machine.sp < ThreadStack.callerSlot outer := by
      have hadm' := hadm
      simp only [ThreadStack.Admissible, hlive] at hadm'
      exact hadm'.2
    have haligned' := hslot'.aligned
    have hle : s.machine.sp + 8 ≤ g.slot := by
      have hlt : s.machine.sp < g.slot := Nat.lt_of_lt_of_le hcaller habove
      omega
    exact hslot'.keep (Machine.word_congr fun x hlo _ => hleft.mem x (by rw [hsp]; omega))
  · rcases List.mem_append.mp hx with hx | hx
    · exact hs.left x hx
    · rw [List.mem_singleton.mp hx]
      exact ⟨rfl, hleft⟩

/-- **Any move** goes through and keeps the invariant: one case for each. -/
theorem Sound.perform {p : Hooks} {s : Thread} (hs : Sound p s) {move : Move} (hallowed : s.Allowed p move) :
    ∃ s', s.perform p move = some s' ∧ Sound p s' := by
  cases move with
  | run m =>
    -- its own code leaves the slots alone
    exact ⟨_, rfl, hs.intact, hs.same, fun f hf => (hs.slots f hf).keep (hallowed.2 f hf), hs.entered, hs.left⟩
  | call h back tsc scratch => exact hs.call hallowed
  | jump h tsc scratch => exact hs.jump hallowed
  | ret tsc scratch => exact hs.ret hallowed
  | unwind frames m =>
    obtain ⟨hmove, hkeeps⟩ := hallowed
    obtain ⟨hadm, hund⟩ := hmove _ rfl
    obtain ⟨t, ht, hintact⟩ := ThreadStack.perform_intact hs.intact hadm hund
    obtain rfl := Option.some.inj ht
    -- the frames that remain are some of those there were
    refine ⟨_, rfl, hintact, hs.same, fun f hf => ?_, hs.entered, hs.left⟩
    exact (hs.slots f (List.mem_of_mem_drop hf)).keep (hkeeps f hf)

/-- The step lemma of the run. -/
theorem step_sound {p : Hooks} (s : Thread) (move : Move) (s' : Thread) (hs : Sound p s)
    (hstep : s.step p move = some s') : Sound p s' :=
  Lib.of_allowed (fun hallowed => hs.perform hallowed) hstep

/-- Over ANY run of a thread whose functions are hooked: every hooked function is entered as it was
    called, with the same general-purpose registers (but `rax`, `r10` and `r11`) and the same stack
    above its return address; every one that returns brings the thread to the address its call
    pushed, with `rax`, the registers it may not change and the stack as it left them, and with
    whatever `on_exit` left in `rdx`; the collector follows; and whatever the thread does next, its
    trampolines go through. -/
theorem hooked_transparently {p : Hooks} {m : Machine} {moves : List Move} {s : Thread}
    (hrun : Lib.run (step p) (new m) moves = some s) :
    (∀ x ∈ s.entered, x.address = x.hook.target ∧ Entered x.called x.machine) ∧
    (∀ x ∈ s.left, x.address = x.due ∧ Left x.scratch x.target x.machine) ∧
    s.collector = s.followed.collector ∧
    ∀ move, s.Allowed p move → ∃ s', s.step p move = some s' := by
  have hs := Lib.run_invariant step_sound moves _ _ (new_sound p m) hrun
  refine ⟨hs.entered, hs.left, hs.same, fun move hallowed => ?_⟩
  obtain ⟨s', hs', -⟩ := hs.perform hallowed
  exact ⟨s', by rw [step, if_pos hallowed]; exact hs'⟩

/-- Two hooked functions. -/
def twoHooked : Hooks where
  interceptor := ⟨0x5000, 0x6000, 0x7000⟩
  hooks := [⟨0x1000, 0x8010, 1⟩, ⟨0x2000, 0x9010, 2⟩]
  distinct := by decide
  user := by decide
  hooked := by decide
  apart := by decide

/-- A machine with nothing on its stack but `back` at its top. -/
def stackedOnly (sp : UInt64) (back : UInt64) : Machine :=
  (Machine.mk (fun r => if r = .rsp then sp else 7) fun _ => 0).put 0xFFF8 back

/-- The first function calls the second, which jumps to the first. -/
def nestedCalls : List Move :=
  let back := Hook.back ⟨0x1000, 0x8010, 1⟩
  [ .call ⟨0x1000, 0x8010, 1⟩ 0x400 10 (stackedOnly 0 0),
    .run (stackedOnly 0xFFF0 back),
    .call ⟨0x2000, 0x9010, 2⟩ 0x500 20 (stackedOnly 0 0),
    .jump ⟨0x1000, 0x8010, 1⟩ 30 (stackedOnly 0 0),
    .ret 40 (stackedOnly 0 0),
    .run (stackedOnly 0xFFF8 back),
    .ret 50 (stackedOnly 0 0) ]

theorem hooked_transparently_nested :
    ∃ s, Lib.run (step twoHooked) (new (stackedOnly 0x10000 0)) nestedCalls = some s ∧
      s.entered.map (fun x => x.hook.id) = [1, 2, 1] ∧ s.left.map Return.address = [0x500, 0x400] ∧
      ∀ x ∈ s.left, x.address = x.due ∧ Left x.scratch x.target x.machine := by
  have hmap : (Lib.run (step twoHooked) (new (stackedOnly 0x10000 0)) nestedCalls).map (fun s =>
      (s.entered.map fun x => x.hook.id, s.left.map Return.address)) = some ([1, 2, 1], [0x500, 0x400]) := by
    decide +kernel
  obtain ⟨s, hrun, hs⟩ := Option.map_eq_some_iff.mp hmap
  exact ⟨s, hrun, congrArg Prod.fst hs, congrArg Prod.snd hs, (hooked_transparently hrun).2.1⟩

end Thread

end Trampoline

end MicroProfiler
