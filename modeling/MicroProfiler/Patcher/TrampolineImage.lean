/-
  `patcher/src/replace.h`, `patcher/src/dynamic_hooking.cpp`: the bytes of a trampoline.

  1. **Program** — `initialize_trampoline` copies the template and SEARCHES it for the sequences that
     stand for addresses, byte by byte; what it finds is overwritten.

  2. **Specification** (`trampolines_in_place`) — once the trampolines of a process are initialized,
     there lie, wherever a thread gets to in one, the bytes of the code it is to execute.

  3. **The crux (`Replaced.user`)** — whatever bytes an address of user space has, the last two are
     zeros: no sequence begins in it, or before it and reaches into it.
-/
import MicroProfiler.Patcher.Trampoline

namespace MicroProfiler

open Lib (Memory Op Reg)
open Lib.Memory (SameOutside leBytes holds_append holds_cons)

namespace Trampoline

/-- The bytes of a piece of code, instruction after instruction. -/
def encode (code : List Instr) : List UInt8 := code.flatMap Instr.encode

/-- `replace` with an address: the sequence of `index` is looked for from `base` on, and where it is
    found the value is written over it, which has the same eight bytes of room. -/
def replaceAddress (index : Nat) (value : UInt64) (base : Int) (m : Memory UInt8) : Memory UInt8 :=
  Jumper.replace (Jumper.constructReplaceSeq .intel64 index)
    (fun _ => Jumper.pointerBytes .intel64 value.toNat) trampolineSize m base trampolineSize

/-- `replace` with the distance to it, counted from the byte after the place it is written to. -/
def replaceRelative (index : Nat) (value : UInt64) (base : Int) (m : Memory UInt8) : Memory UInt8 :=
  Jumper.replace (Jumper.constructReplaceSeq .intel64 index)
    (fun address => Jumper.pointerBytes .intel64 (value.toNat - address)) trampolineSize m base trampolineSize

/-- `initialize_trampoline`, of the trampoline at `h.base`: the template, then one search for each
    sequence, in the order of the source.  A later search goes over what the earlier ones have
    written. -/
def initializeTrampolineBytes (i : Interceptor) (m : Memory UInt8) (h : Hook) : Memory UInt8 :=
  let base : Int := h.base.toNat
  let m := m.store base (encode (protoEnter ++ protoExit))
  let m := replaceAddress 1 i.address base m
  let m := replaceAddress 2 h.id base m
  let m := replaceAddress 3 i.onEnter base m
  let m := replaceRelative 0x83 i.onEnter base m
  let m := replaceAddress 4 i.onExit base m
  let m := replaceRelative 0x84 i.onExit base m
  let m := replaceAddress 5 h.target base m
  replaceRelative 0x85 h.target base m

/-! ## What a search finds -/

/-- What `replace` makes of the bytes at `i`: the search as a relation, without its fuel and without
    the memory around, so that what it does to a piece of code can be composed of what it does to
    the pieces. -/
inductive Replaced (seq : List UInt8) (writer : Int → List UInt8) :
    Int → List UInt8 → List UInt8 → Prop
  /-- too little is left for the sequence -/
  | done {i : Int} {bs : List UInt8} : bs.length < seq.length → Replaced seq writer i bs bs
  /-- the sequence stands here: it is overwritten, and the search goes on behind it -/
  | hit {i : Int} {bs bs' : List UInt8} : Replaced seq writer (i + seq.length) bs bs' →
      Replaced seq writer i (seq ++ bs) (writer (i + seq.length) ++ bs')
  /-- it does not: one byte is left as it is -/
  | skip {i : Int} {b : UInt8} {bs bs' : List UInt8} : seq.length ≤ bs.length + 1 → ¬ seq <+: b :: bs →
      Replaced seq writer (i + 1) bs bs' → Replaced seq writer i (b :: bs) (b :: bs')

/-- The search of the program does to memory what the relation says.  By induction on the relation;
    a hit writes only the bytes it has found, so what follows is still there to be searched, and
    what the rest of the search writes lies behind. -/
theorem Replaced.holds {seq : List UInt8} {writer : Int → List UInt8}
    (hwriter : ∀ a, (writer a).length = seq.length) (hpos : 0 < seq.length) {i : Int} {bs bs' : List UInt8}
    (h : Replaced seq writer i bs bs') : ∀ {fuel : Nat} {m : Memory UInt8}, bs.length ≤ fuel → m.Holds i bs →
      (Jumper.replace seq writer fuel m i bs.length).Holds i bs' := by
  induction h with
  | done hshort =>
    intro fuel m _ hm
    cases fuel with
    | zero => exact hm
    | succ fuel =>
      rw [Jumper.replace, if_pos hshort]
      exact hm
  | @hit i bs bs' _ ih =>
    intro fuel m hfuel hm
    rw [List.length_append] at hfuel
    obtain ⟨fuel, rfl⟩ : ∃ n, fuel = n + 1 := ⟨fuel - 1, by omega⟩
    obtain ⟨hseq, hbs⟩ := holds_append.mp hm
    have hrest : (m.store i (writer (i + seq.length))).Holds (i + seq.length) bs :=
      hbs.congr fun x hlo _ => Memory.store_sameOutside _ m i x (.inr (by rw [hwriter]; exact hlo))
    have hvalue : (m.store i (writer (i + seq.length))).Holds i (writer (i + seq.length)) :=
      Memory.load_store _ _ _
    rw [Jumper.replace, if_neg (by rw [List.length_append]; omega),
      if_pos (show m.load i seq.length = seq from hseq), List.length_append, Nat.add_sub_cancel_left]
    refine holds_append.mpr ⟨hvalue.congr fun x _ hhi => ?_, ?_⟩
    · -- the value that was written is not searched again
      rw [hwriter] at hhi
      exact Jumper.replace_sameOutside hwriter _ _ _ _ x (.inl hhi)
    · rw [hwriter]
      exact ih (by omega) hrest
  | @skip i b bs bs' hlong hno _ ih =>
    intro fuel m hfuel hm
    rw [List.length_cons] at hfuel
    obtain ⟨fuel, rfl⟩ : ∃ n, fuel = n + 1 := ⟨fuel - 1, by omega⟩
    obtain ⟨hb, hbs⟩ := holds_cons.mp hm
    have hmiss : m.load i seq.length ≠ seq := by
      intro heq
      refine hno ⟨m.load (i + seq.length) (bs.length + 1 - seq.length), ?_⟩
      have hload := Memory.load_add m i seq.length (bs.length + 1 - seq.length)
      rw [Nat.add_sub_cancel' hlong, heq] at hload
      exact hload.symm.trans hm
    rw [Jumper.replace, List.length_cons, if_neg (by omega), if_neg hmiss, Nat.add_sub_cancel]
    refine holds_cons.mpr ⟨?_, ih (by omega) hbs⟩
    rw [Jumper.replace_sameOutside hwriter _ _ _ _ i (.inl (by omega))]
    exact hb

/-- A byte with which the sequence does not begin can be put before any search.  Near the end both
    rules for leaving a byte apply, hence the cases on how much is left. -/
theorem Replaced.cons {seq : List UInt8} {writer : Int → List UInt8} {i : Int} {b : UInt8}
    {bs bs' : List UInt8} (hno : ¬ seq <+: b :: bs) (h : Replaced seq writer (i + 1) bs bs') :
    Replaced seq writer i (b :: bs) (b :: bs') := by
  by_cases hlong : seq.length ≤ bs.length + 1
  · exact .skip hlong hno h
  · have hsame : bs' = bs := by
      cases h with
      | done _ => rfl
      | hit _ =>
        rw [List.length_append] at hlong
        omega
      | skip hlong' _ _ =>
        rw [List.length_cons] at hlong
        omega
    rw [hsame]
    exact .done (by rw [List.length_cons]; omega)

/-! ## The sequences -/

/-- The numbers of the templates that stand for addresses. -/
def placeholders : List Nat := [1, 2, 3, 4, 5]

/-- Those of other platforms' templates that stand for distances. -/
def distances : List Nat := [0x81, 0x83, 0x84, 0x85]

/-- `construct_replace_seq<size_t>`, as it lies in memory. -/
def sequence (index : Nat) : List UInt8 := [UInt8.ofNat index, 0, 0, 0, 0x26, 0x59, 0x41, 0x31]

/-- The word the templates hold and the bytes that are searched for are the same, for every number
    in use. -/
theorem constructReplaceSeq_eq : ∀ index ∈ placeholders ++ distances,
    Jumper.constructReplaceSeq .intel64 index = sequence index ∧
    leBytes 8 (constructReplaceSeq (UInt64.ofNat index)).toNat = sequence index := by
  decide

/-- No sequence of `index` begins in these bytes, whatever follows.  Looking at two bytes is enough:
    all sequences go on with a zero. -/
def Quiet (index : Nat) : List UInt8 → Bool
  | [] => true
  | [b] => b != UInt8.ofNat index
  | b :: c :: bs => (b != UInt8.ofNat index || c != 0) && Quiet index (c :: bs)

/-- The search goes over such bytes.  By recursion on them, two at a time as `Quiet` looks at them;
    the last of them is told by itself, for nothing is known of what follows. -/
theorem Replaced.quiet {index : Nat} {writer : Int → List UInt8} {bs bs' : List UInt8} :
    ∀ {xs : List UInt8} {i : Int}, Quiet index xs = true →
      Replaced (sequence index) writer (i + xs.length) bs bs' →
      Replaced (sequence index) writer i (xs ++ bs) (xs ++ bs')
  | [], i, _, h => by
    rw [List.length_nil, Int.natCast_zero, Int.add_zero] at h
    exact h
  | [b], i, hquiet, h => by
    refine .cons (fun hprefix => ?_) h
    have hb : b ≠ UInt8.ofNat index := by simpa [Quiet] using hquiet
    exact hb (List.cons_prefix_cons.mp hprefix).1.symm
  | b :: c :: xs, i, hquiet, h => by
    rw [Quiet, Bool.and_eq_true] at hquiet
    have hnext : i + 1 + (c :: xs).length = i + (b :: c :: xs).length := by
      simp only [List.length_cons]
      omega
    refine .cons (fun hprefix => ?_) (Replaced.quiet hquiet.2 (hnext ▸ h))
    obtain ⟨hb, hprefix⟩ := List.cons_prefix_cons.mp hprefix
    have hc := (List.cons_prefix_cons.mp hprefix).1
    have hbytes := hquiet.1
    simp [← hb, ← hc] at hbytes

/-- An address of user space ends in zeros: it is below `2 ^ 47`. -/
theorem leBytes_user {u : UInt64} (hu : UserSpace u) :
    ∃ b₀ b₁ b₂ b₃ b₄ b₅, leBytes 8 u.toNat = [b₀, b₁, b₂, b₃, b₄, b₅, 0, 0] := by
  unfold UserSpace at hu
  have h₆ : u.toNat / 256 / 256 / 256 / 256 / 256 / 256 % 256 = 0 := by omega
  have h₇ : u.toNat / 256 / 256 / 256 / 256 / 256 / 256 / 256 % 256 = 0 := by omega
  have hbytes : leBytes 8 u.toNat = leBytes 6 u.toNat ++ [0, 0] := by
    simp only [leBytes, h₆, h₇]
    rfl
  exact ⟨_, _, _, _, _, _, hbytes⟩

/-- **No sequence** begins in an address of user space, unless the next byte is one that
    instructions do not begin with.  Were one to begin in it, a zero at the end of the address
    would have to be a byte of the signature or the number, or the signature would begin in `bs`. -/
theorem Replaced.user {index : Nat} (hindex : UInt8.ofNat index ≠ 0) {writer : Int → List UInt8} {u : UInt64}
    (hu : UserSpace u) {bs bs' : List UInt8} (hbs : ∀ y ∈ bs.head?, y ≠ 0 ∧ y ≠ 0x26) {i : Int}
    (h : Replaced (sequence index) writer (i + 8) bs bs') :
    Replaced (sequence index) writer i (leBytes 8 u.toNat ++ bs) (leBytes 8 u.toNat ++ bs') := by
  obtain ⟨b₀, b₁, b₂, b₃, b₄, b₅, hbytes⟩ := leBytes_user hu
  have hend : i + 8 = i + 1 + 1 + 1 + 1 + 1 + 1 + 1 + 1 := by omega
  rw [hend] at h
  rw [hbytes]
  unfold sequence at h ⊢
  generalize UInt8.ofNat index = b at hindex h ⊢
  refine .cons ?_ (.cons ?_ (.cons ?_ (.cons ?_ (.cons ?_ (.cons ?_ (.cons ?_ (.cons ?_ h)))))))
  · -- from the first four bytes on, the zeros meet the signature
    simp
  · simp
  · simp
  · simp
  -- from the last four on, the number meets a zero, or the sequence goes on in `bs`
  all_goals
    cases bs with
    | nil => simp [hindex]
    | cons y bs =>
      obtain ⟨hzero, hsig⟩ := hbs y rfl
      simp [hindex, Ne.symm hzero, Ne.symm hsig]

/-! ## The template -/

/-- The operand of a `mov` is an address, or stands for one; in the rest no sequence begins.  It is
    what the searches keep of a trampoline (`Plain.replace`). -/
def Plain : Instr → Prop
  | .op (.mov imm _) => UserSpace imm ∨ ∃ k ∈ placeholders, imm = constructReplaceSeq (UInt64.ofNat k)
  | x => ∀ index ∈ placeholders ++ distances, Quiet index x.encode = true

instance : DecidablePred Plain := fun x => by
  unfold Plain
  split <;> infer_instance

/-- The templates are written so; no search has been made yet. -/
theorem proto_plain : ∀ x ∈ protoEnter ++ protoExit, Plain x := by decide

/-- No instruction begins with a zero or with the first byte of the signature, which is what
    `Replaced.user` asks of the code after an operand. -/
theorem encode_head : ∀ (code : List Instr), ∀ y ∈ (encode code).head?, y ≠ 0 ∧ y ≠ 0x26
  | [], _, h => absurd h (by simp [encode])
  | x :: code, y, h => by
    obtain ⟨z, bs, hx, hz⟩ := x.encode_cons
    rw [encode, List.flatMap_cons, hx] at h
    obtain rfl : z = y := by simpa using h
    exact hz

/-- The three kinds of instruction the search comes to: an operand that is an address, one that
    stands for an address, and anything else, which no replacement changes. -/
theorem Plain.elim {x : Instr} (h : Plain x) :
    (∃ imm r, x = .op (.mov imm r) ∧ UserSpace imm) ∨
    (∃ k ∈ placeholders, ∃ r, x = .op (.mov (constructReplaceSeq (UInt64.ofNat k)) r)) ∨
    (∀ index ∈ placeholders ++ distances, Quiet index x.encode = true) ∧
      ∀ index v, replace index v x = x := by
  unfold Plain at h
  split at h
  · next imm r =>
    rcases h with hu | ⟨k, hk, rfl⟩
    · exact .inl ⟨imm, r, rfl, hu⟩
    · exact .inr (.inl ⟨k, hk, r, rfl⟩)
  · next hmov =>
    refine .inr (.inr ⟨h, fun index v => ?_⟩)
    unfold replace
    split
    · next imm dst => exact absurd rfl (hmov imm dst)
    · rfl

/-- What stands for an address is no address of user space, so that an operand that was replaced is
    not taken for another sequence. -/
theorem sequence_user : ∀ index ∈ placeholders ++ distances,
    2 ^ 47 ≤ (constructReplaceSeq (UInt64.ofNat index)).toNat := by
  decide

/-- Different numbers stand for different things. -/
theorem constructReplaceSeq_inj : ∀ k ∈ placeholders ++ distances, ∀ index ∈ placeholders ++ distances,
    constructReplaceSeq (UInt64.ofNat k) = constructReplaceSeq (UInt64.ofNat index) → k = index := by
  decide

/-- The two bytes before an operand. -/
theorem quiet_mov (r : Reg) : ∀ index ∈ placeholders ++ distances,
    Quiet index [rex .rax r, 0xB8 + low r] = true := by
  cases r <;> decide

/-- The search for one address does not stop within what stands for another. -/
theorem quiet_sequence : ∀ k ∈ placeholders, ∀ index ∈ placeholders ++ distances, k ≠ index →
    Quiet index (sequence k) = true := by
  decide

/-- What `Replaced.user` asks of a number. -/
theorem index_ne_zero : ∀ index ∈ placeholders ++ distances, UInt8.ofNat index ≠ 0 := by decide

/-- This platform's templates have no use for distances. -/
theorem distance_not_placeholder : ∀ index ∈ distances, index ∉ placeholders := by decide

/-- **The search** goes through code as `replace` goes through its operands.  By recursion on the
    code, an instruction of each kind of `Plain.elim` being gone over by its own rule. -/
theorem replaced_code {index : Nat} (hindex : index ∈ placeholders ++ distances)
    {writer : Int → List UInt8} {value : UInt64}
    (hwriter : index ∈ placeholders → ∀ a, writer a = leBytes 8 value.toNat) :
    ∀ {code : List Instr} {i : Int}, (∀ x ∈ code, Plain x) →
      Replaced (sequence index) writer i (encode code) (encode (code.map (replace (UInt64.ofNat index) value)))
  | [], _, _ => .done (Nat.succ_pos 7)
  | x :: code, i, hcode => by
    have hx := hcode x List.mem_cons_self
    have ih : ∀ i, Replaced (sequence index) writer i (encode code)
        (encode (code.map (replace (UInt64.ofNat index) value))) := fun i =>
      replaced_code hindex hwriter fun y hy => hcode y (List.mem_cons_of_mem x hy)
    rw [List.map_cons, encode, encode, List.flatMap_cons, List.flatMap_cons]
    rcases hx.elim with ⟨imm, r, rfl, hu⟩ | ⟨k, hk, r, rfl⟩ | ⟨hquiet, hsame⟩
    · -- an address already in place: its bytes are gone over
      rw [replace_miss (replace_ne hu (sequence_user index hindex)), Instr.encode, List.append_assoc,
        List.append_assoc]
      refine .quiet (quiet_mov r index hindex) ?_
      exact .user (index_ne_zero index hindex) hu (encode_head code) (ih _)
    · -- a place for an address: for this one, or for another
      obtain ⟨-, hk'⟩ := constructReplaceSeq_eq k (List.mem_append_left _ hk)
      by_cases heq : k = index
      · subst heq
        rw [replace_hit rfl, Instr.encode, Instr.encode, hk', List.append_assoc, List.append_assoc,
          ← hwriter hk]
        exact .quiet (quiet_mov r k hindex) (.hit (ih _))
      · have hne : constructReplaceSeq (UInt64.ofNat k) ≠ constructReplaceSeq (UInt64.ofNat index) := fun h =>
          heq (constructReplaceSeq_inj k (List.mem_append_left _ hk) index hindex h)
        rw [replace_miss hne, Instr.encode, hk', List.append_assoc, List.append_assoc]
        exact .quiet (quiet_mov r index hindex) (.quiet (quiet_sequence k hk index hindex heq) (ih _))
    · -- anything else
      rw [hsame]
      exact Replaced.quiet (hquiet index hindex) (ih _)

/-- Instructions stay plain while addresses are put in: the invariant of the searches. -/
theorem Plain.replace {x : Instr} (hx : Plain x) {v : UInt64} (hv : UserSpace v) (index : UInt64) :
    Plain (replace index v x) := by
  have hoperand : ∀ imm r, Plain (.op (.mov imm r)) →
      Plain (Trampoline.replace index v (.op (.mov imm r))) := fun imm r himm => by
    by_cases heq : imm = constructReplaceSeq index
    · rw [replace_hit heq]
      exact .inl hv
    · rwa [replace_miss heq]
  rcases hx.elim with ⟨imm, r, rfl, -⟩ | ⟨k, -, r, rfl⟩ | ⟨-, hsame⟩
  · exact hoperand imm r hx
  · exact hoperand _ r hx
  · rwa [hsame]

/-- Nothing in the template stands for a distance, so a search for one leaves the code as it is. -/
theorem Plain.replace_distance {x : Instr} (hx : Plain x) {index : Nat} (hindex : index ∈ distances)
    (v : UInt64) : Trampoline.replace (UInt64.ofNat index) v x = x := by
  have hmem := List.mem_append_right placeholders hindex
  rcases hx.elim with ⟨imm, r, rfl, hu⟩ | ⟨k, hk, r, rfl⟩ | ⟨-, hsame⟩
  · -- an address is none
    exact replace_miss (replace_ne hu (sequence_user index hmem)) _ _
  · -- nor is what stands for an address
    refine replace_miss (fun h => ?_) _ _
    obtain rfl := constructReplaceSeq_inj k (List.mem_append_left _ hk) index hmem h
    exact distance_not_placeholder k hindex hk
  · exact hsame _ _

/-- The size the searches are given is that of the bytes. -/
theorem codeSize_eq (code : List Instr) : codeSize code = (encode code).length :=
  List.length_flatMap.symm

/-- Replacing an operand keeps the size of the instruction. -/
theorem codeSize_replace (index v : UInt64) (code : List Instr) :
    codeSize (code.map (replace index v)) = codeSize code := by
  have hsize : ∀ x, (replace index v x).size = x.size := fun x => by
    unfold replace
    split <;> rfl
  rw [codeSize, List.map_map]
  exact congrArg List.sum (List.map_congr_left fun x _ => hsize x)

/-! ## A trampoline in memory -/

/-- At `base` lies a trampoline, as far as it is initialized.  Each search takes one such image to
    the next. -/
structure Image (m : Memory UInt8) (base : Int) (code : List Instr) : Prop where
  holds : m.Holds base (encode code)
  plain : ∀ x ∈ code, Plain x
  size : codeSize code = trampolineSize

/-- An address is written as the eight bytes it has; the reduction of the source does nothing to it.
    -/
theorem pointerBytes_toNat (v : UInt64) : Jumper.pointerBytes .intel64 v.toNat = leBytes 8 v.toNat := by
  have hlt : (v.toNat : Int) < 256 ^ 8 := by
    have h := v.toNat_lt
    omega
  have hmod : ((v.toNat : Int) % 256 ^ 8).toNat = v.toNat := by
    rw [Int.emod_eq_of_lt (by omega) hlt, Int.toNat_natCast]
  show leBytes 8 ((v.toNat : Int) % 256 ^ 8).toNat = _
  rw [hmod]

/-- Whatever is written has the room of a sequence. -/
theorem length_pointerBytes (z : Int) : (Jumper.pointerBytes .intel64 z).length = 8 :=
  Memory.length_leBytes _ _

/-- One search over an image, as the program makes it. -/
theorem Image.replaced {m : Memory UInt8} {base : Int} {code : List Instr} (h : Image m base code)
    {index : Nat} (hindex : index ∈ placeholders ++ distances) {writer : Int → List UInt8}
    {value : UInt64} (hlength : ∀ a, (writer a).length = 8)
    (hwriter : index ∈ placeholders → ∀ a, writer a = leBytes 8 value.toNat) :
    (Jumper.replace (Jumper.constructReplaceSeq .intel64 index) writer trampolineSize m base
      trampolineSize).Holds base (encode (code.map (replace (UInt64.ofNat index) value))) := by
  have hsize : (encode code).length = trampolineSize := (codeSize_eq code).symm.trans h.size
  rw [(constructReplaceSeq_eq index hindex).1, ← hsize]
  exact (replaced_code hindex hwriter h.plain).holds hlength
    (by rw [sequence]; exact Nat.succ_pos 7) (le_refl _) h.holds

/-- With an address the image becomes that of the code with the address in place. -/
theorem Image.address {m : Memory UInt8} {base : Int} {code : List Instr} (h : Image m base code)
    (index : Nat) (hindex : index ∈ placeholders) {value : UInt64} (hvalue : UserSpace value) :
    Image (replaceAddress index value base m) base (code.map (replace (UInt64.ofNat index) value)) where
  holds := h.replaced (List.mem_append_left _ hindex) (fun _ => length_pointerBytes _)
    fun _ _ => pointerBytes_toNat value
  plain x hx := by
    obtain ⟨y, hy, rfl⟩ := List.mem_map.mp hx
    exact (h.plain y hy).replace hvalue _
  size := (codeSize_replace _ _ code).trans h.size

/-- With a distance it stays what it is. -/
theorem Image.relative {m : Memory UInt8} {base : Int} {code : List Instr} (h : Image m base code)
    (index : Nat) (hindex : index ∈ distances) (value : UInt64) :
    Image (replaceRelative index value base m) base code where
  holds := by
    have hsame : code.map (replace (UInt64.ofNat index) value) = code :=
      (List.map_congr_left fun x hx => (h.plain x hx).replace_distance hindex value).trans (List.map_id code)
    have hheld : (replaceRelative index value base m).Holds base
        (encode (code.map (replace (UInt64.ofNat index) value))) :=
      h.replaced (List.mem_append_right _ hindex) (fun _ => length_pointerBytes _)
        fun hmem => absurd hmem (distance_not_placeholder index hindex)
    rwa [hsame] at hheld
  plain := h.plain
  size := h.size

/-- **The bytes** of an initialized trampoline: the template's image, taken through the eight
    searches.  The addresses have to lie in user space, or a later search might find a sequence in
    one. -/
theorem initialized_image {i : Interceptor} {h : Hook} (haddress : UserSpace i.address) (hid : UserSpace h.id)
    (henter : UserSpace i.onEnter) (hexit : UserSpace i.onExit) (htarget : UserSpace h.target)
    (m : Memory UInt8) :
    Image (initializeTrampolineBytes i m h) h.base.toNat (initializeTrampoline i h) := by
  have hproto : Image (m.store h.base.toNat (encode (protoEnter ++ protoExit))) h.base.toNat
      (protoEnter ++ protoExit) := ⟨Memory.load_store _ _ _, proto_plain, rfl⟩
  have hids := (hproto.address 1 (by decide) haddress).address 2 (by decide) hid
  have henters := (hids.address 3 (by decide) henter).relative 0x83 (by decide) i.onEnter
  have hexits := (henters.address 4 (by decide) hexit).relative 0x84 (by decide) i.onExit
  exact (hexits.address 5 (by decide) htarget).relative 0x85 (by decide) h.target

/-- A search writes within the trampoline. -/
theorem replaceBytes_sameOutside {index : Nat} (hindex : index ∈ placeholders ++ distances)
    {writer : Int → List UInt8} (hlength : ∀ a, (writer a).length = 8) (m : Memory UInt8) (base : Int) :
    SameOutside base (base + trampolineSize) m (Jumper.replace
      (Jumper.constructReplaceSeq .intel64 index) writer trampolineSize m base trampolineSize) := by
  rw [(constructReplaceSeq_eq index hindex).1]
  exact Jumper.replace_sameOutside hlength _ _ _ _

/-- And so do the template's copy and all of the searches. -/
theorem initialized_sameOutside (i : Interceptor) (m : Memory UInt8) (h : Hook) :
    SameOutside h.base.toNat (h.base.toNat + trampolineSize) m (initializeTrampolineBytes i m h) := by
  have haddress : ∀ {index}, index ∈ placeholders → ∀ (v : UInt64) (m : Memory UInt8),
      SameOutside h.base.toNat (h.base.toNat + trampolineSize) m (replaceAddress index v h.base.toNat m) :=
    fun hindex _ m => replaceBytes_sameOutside (List.mem_append_left _ hindex)
      (fun _ => length_pointerBytes _) m _
  have hrelative : ∀ {index}, index ∈ distances → ∀ (v : UInt64) (m : Memory UInt8),
      SameOutside h.base.toNat (h.base.toNat + trampolineSize) m (replaceRelative index v h.base.toNat m) :=
    fun hindex _ m => replaceBytes_sameOutside (List.mem_append_right _ hindex)
      (fun _ => length_pointerBytes _) m _
  have hcopy := Memory.store_sameOutside (encode (protoEnter ++ protoExit)) m h.base.toNat
  rw [← codeSize_eq] at hcopy
  exact (((((((hcopy.trans (haddress (by decide) _ _)).trans (haddress (by decide) _ _)).trans
    (haddress (by decide) _ _)).trans (hrelative (by decide) _ _)).trans (haddress (by decide) _ _)).trans
    (hrelative (by decide) _ _)).trans (haddress (by decide) _ _)).trans (hrelative (by decide) _ _)

/-- **The jumper** puts the address of its trampoline in `rax`, and goes there. -/
theorem jumper_in_place (j : Jumper) {base : UInt64} (hbase : UserSpace base) (m : Memory UInt8) :
    (j.writeTemplate .intel64 base.toNat m).Holds (j.prologue .intel64)
      ((Instr.op (.mov base .rax)).encode ++ [0xFF, 0xE0]) := by
  have hseq : ∀ index ∈ placeholders ++ distances, Jumper.constructReplaceSeq .intel64 index =
      sequence index := fun index hindex => (constructReplaceSeq_eq index hindex).1
  have hmov : ∀ index ∈ placeholders ++ distances, Quiet index [0x48, 0xB8] = true := quiet_mov .rax
  -- the address is found
  have hfound : Replaced (sequence 1) (fun _ => Jumper.pointerBytes .intel64 base.toNat) (j.prologue .intel64)
      Platform.intel64.jumperProto ([0x48, 0xB8] ++ (leBytes 8 base.toNat ++ [0xFF, 0xE0])) := by
    rw [← pointerBytes_toNat]
    exact .quiet (hmov 1 (by decide)) (.hit (.done (by decide)))
  have hstored : (m.store (j.prologue .intel64) Platform.intel64.jumperProto).Holds (j.prologue .intel64)
      Platform.intel64.jumperProto := Memory.load_store _ _ _
  have haddress := hfound.holds (fun _ => length_pointerBytes _) (by decide) (le_refl _) hstored
  -- and no distance, whatever the address is
  have hmissed : Replaced (sequence 0x81) (fun address => Jumper.pointerBytes .intel64 (base.toNat - address))
      (j.prologue .intel64) ([0x48, 0xB8] ++ (leBytes 8 base.toNat ++ [0xFF, 0xE0]))
      ([0x48, 0xB8] ++ (leBytes 8 base.toNat ++ [0xFF, 0xE0])) := by
    refine .quiet (hmov 0x81 (by decide)) (.user (by decide) hbase (fun y hy => ?_) (.done (by decide)))
    obtain rfl : 0xFF = y := by simpa using hy
    decide
  rw [← hseq 1 (by decide)] at haddress
  rw [← hseq 0x81 (by decide)] at hmissed
  exact hmissed.holds (fun _ => length_pointerBytes _) (by decide) (le_refl _) haddress

/-! ## The trampolines of a process -/

/-- All of them are initialized, one after the other. -/
def Hooks.initialized (p : Hooks) (m : Memory UInt8) : Memory UInt8 :=
  p.hooks.foldl (initializeTrampolineBytes p.interceptor) m

/-- What no trampoline covers is not written.  By recursion on the hooks. -/
theorem foldl_sameOutside (i : Interceptor) {x : Int} : ∀ (hooks : List Hook) (m : Memory UInt8),
    (∀ h ∈ hooks, x < h.base.toNat ∨ h.base.toNat + trampolineSize ≤ x) →
    hooks.foldl (initializeTrampolineBytes i) m x = m x
  | [], _, _ => rfl
  | h :: hooks, m, hx => by
    have hfirst := initialized_sameOutside i m h x (hx h List.mem_cons_self)
    have hrest := foldl_sameOutside i hooks (initializeTrampolineBytes i m h) fun g hg =>
      hx g (List.mem_cons_of_mem h hg)
    rw [List.foldl_cons, hrest, hfirst]

/-- A trampoline, once initialized, is left alone by those after it, since their places lie apart.
    By recursion on the hooks: the first stands because nothing later writes to it, the others by
    recursion. -/
theorem foldl_holds {i : Interceptor} : ∀ {hooks : List Hook} (m : Memory UInt8),
    hooks.Pairwise Hook.Apart → (∀ h ∈ hooks, ∀ m, Image (initializeTrampolineBytes i m h) h.base.toNat
      (initializeTrampoline i h)) → ∀ h ∈ hooks,
    (hooks.foldl (initializeTrampolineBytes i) m).Holds h.base.toNat (encode (initializeTrampoline i h))
  | g :: hooks, m, hapart, himage, h, hh => by
    obtain ⟨hfirst, hrest⟩ := List.pairwise_cons.mp hapart
    rw [List.foldl_cons]
    generalize hg : initializeTrampolineBytes i m g = m'
    rcases List.mem_cons.mp hh with rfl | hh
    · -- this one is initialized now, and not written again
      have hat : Image m' h.base.toNat (initializeTrampoline i h) := hg ▸ himage h List.mem_cons_self m
      refine hat.holds.congr fun x hlo hhi => foldl_sameOutside i hooks m' fun g hg => ?_
      rw [← codeSize_eq, hat.size] at hhi
      have hg := hfirst g hg
      unfold Hook.Apart at hg
      omega
    · -- it is initialized later
      exact foldl_holds m' hrest (fun g hg => himage g (List.mem_cons_of_mem _ hg)) h hh

/-- Where an address in a trampoline leads to is the end of some of its instructions.  By recursion
    on the code that is passed. -/
theorem after_spec : ∀ {code : List Instr} {n : Nat} {rest : List Instr}, after code n = some rest →
    ∃ before, code = before ++ rest ∧ codeSize before = n
  | code, n, rest, h => by
    rw [after.eq_def] at h
    split at h
    · next hn => exact ⟨[], Option.some.inj h, hn.symm⟩
    · cases code with
      | nil => cases h
      | cons x code =>
        dsimp only at h
        split at h
        · next hle =>
          obtain ⟨before, hcode, hsize⟩ := after_spec h
          refine ⟨x :: before, congrArg (x :: ·) hcode, ?_⟩
          show x.size + codeSize before = n
          omega
        · cases h

/-- Wherever in its trampolines a thread gets to, there lie the bytes of the code it is to execute;
    the rest of memory is as it was. -/
theorem trampolines_in_place (p : Hooks) (m : Memory UInt8) :
    (∀ (a : UInt64) (h : Hook) (code : List Instr), p.fetch a = some (h, code) →
      (p.initialized m).Holds a.toNat (encode code)) ∧
    ∀ x : Int, (∀ h ∈ p.hooks, x < h.base.toNat ∨ h.base.toNat + trampolineSize ≤ x) →
      p.initialized m x = m x := by
  refine ⟨fun a h code hfetch => ?_, fun x => foldl_sameOutside p.interceptor p.hooks m⟩
  obtain ⟨haddress, henter, hexit⟩ := p.user
  obtain ⟨g, hfind, hg⟩ := Option.bind_eq_some_iff.mp hfetch
  obtain ⟨rest, hafter, hrest⟩ := Option.map_eq_some_iff.mp hg
  obtain ⟨rfl, rfl⟩ := Prod.mk.inj hrest
  have hinside : g.base.toNat ≤ a.toNat ∧ a.toNat < g.base.toNat + trampolineSize := by
    simpa using List.find?_some hfind
  obtain ⟨before, hcode, hsize⟩ := after_spec hafter
  have hheld := foldl_holds m p.apart (fun h hh m => by
    obtain ⟨-, hid, htarget, -⟩ := p.hooked h hh
    exact initialized_image haddress hid henter hexit htarget m) g (List.mem_of_find?_eq_some hfind)
  rw [hcode, encode, List.flatMap_append] at hheld
  have hat : (g.base.toNat : Int) + (before.flatMap Instr.encode).length = a.toNat := by
    have hlength := codeSize_eq before
    rw [encode] at hlength
    omega
  have hlast := (holds_append.mp hheld).2
  rwa [hat] at hlast

theorem trampolines_in_place_back :
    (Thread.twoHooked.initialized fun _ => 0).Holds 0x205C (encode (exitCode Thread.twoHooked.interceptor)) :=
  (trampolines_in_place Thread.twoHooked fun _ => 0).1 0x205C ⟨0x2000, 0x9010, 2⟩ _ (by decide +kernel)

end Trampoline

end MicroProfiler
