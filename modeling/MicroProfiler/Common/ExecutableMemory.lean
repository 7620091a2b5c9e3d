/-
  Memory for generated code: `executable_memory_allocator` of `common/memory.h`,
  `common/src/memory.cpp`, its blocks as `common/src/memory_unix.cpp` maps them.

  1. **Program** — one current block, filled from its start; when what is asked for does not fit, a
     new block becomes current and the rest of the old one is given up.  Every pointer handed out
     keeps its block, so a block is unmapped when it is not current and its last pointer goes
     (`unmapped`).

  2. **Specification** — over any run of allocations and releases, in any order and whatever
     addresses the system maps: pieces in use never overlap, each lies in a block that is mapped,
     and no other block but the current one is.

  3. **The crux (`Sound.below`)** — the pieces of the current block end where its free part begins;
     a block that was current is never allocated from again.

  4. **A mapping that fails** — the constructor of a block looks for a null pointer, and `mmap` gives
     `MAP_FAILED`: the block is taken for one, and its first piece is at that address.  All of the
     above is for runs in which no mapping fails.

  The system maps a block apart from all that are mapped then, and not at null; its address may be one
  that an unmapped block had.
-/
import Mathlib.Algebra.Group.Nat.Defs
import Mathlib.Data.List.Pairwise
import MicroProfiler.Lib.Runs

namespace MicroProfiler

/-- `block_size`. -/
def blockSize : Nat := 0x10000

/-- `executable_memory_allocator::block`: `_region` starts at `base`. -/
structure Block where
  base : Nat
  occupied : Nat
deriving DecidableEq, Repr

/-- `MAP_FAILED`. -/
def mapFailed : Nat := 2 ^ 64 - 1

/-- `block::block`; `mapping` is where the system mapped it, if it did. -/
def Block.make? (mapping : Option Nat) : Option Block :=
  let begin := mapping.getD mapFailed
  if begin = 0 then none else some ⟨begin, 0⟩

/-- `block::allocate`. -/
def Block.allocate (b : Block) (size : Nat) : Option (Nat × Block) :=
  if size ≤ blockSize - b.occupied then
    some (b.base + b.occupied, { b with occupied := b.occupied + size })
  else none

/-- What a pointer handed out stands for; `block` is the base of the block it keeps. -/
structure Piece where
  block : Nat
  address : Nat
  size : Nat
deriving DecidableEq, Repr

/-- The allocator, the pieces in use and the blocks that are mapped. -/
structure ExecutableMemory where
  current : Block
  pieces : List Piece
  mapped : List Nat
deriving DecidableEq, Repr

inductive MemoryEvent
  /-- `allocate`; `mapping` is where the system would map a new block, if it could -/
  | allocate (size : Nat) (mapping : Option Nat)
  /-- the last copy of a pointer goes -/
  | release (piece : Piece)
deriving DecidableEq, Repr

/-- Does the system map what it is asked for? -/
def MemoryEvent.maps : MemoryEvent → Bool
  | .allocate _ mapping => mapping.isSome
  | .release _ => true

/-- What `allocate` comes to. -/
inductive Allocated
  | pointer (address : Nat)
  | badAlloc
deriving DecidableEq, Repr

namespace ExecutableMemory

/-- The constructor. -/
def make? (mapping : Option Nat) : Option ExecutableMemory :=
  (Block.make? mapping).map fun block => ⟨block, [], mapping.toList⟩

/-- A block goes with the last reference to it. -/
def unmapped (s : ExecutableMemory) : ExecutableMemory :=
  { s with mapped := s.mapped.filter fun b =>
      b = s.current.base || s.pieces.any fun piece => piece.block == b }

/-- What a piece of the current block leaves; the pointer shares the block. -/
def taken (s : ExecutableMemory) (size address : Nat) (block : Block) : ExecutableMemory :=
  { s with current := block, pieces := s.pieces ++ [⟨block.base, address, size⟩] }

/-- A new block; the reference to the old one is dropped. -/
def renew (s : ExecutableMemory) (block : Block) (mapping : Option Nat) : ExecutableMemory :=
  { s with current := block, mapped := s.mapped ++ mapping.toList }

/-- `allocate`. -/
def allocate (s : ExecutableMemory) (size : Nat) (mapping : Option Nat) : ExecutableMemory × Allocated :=
  if blockSize < size then (s, .badAlloc)
  else
    match s.current.allocate size with
    | some (address, block) => (s.taken size address block, .pointer address)
    | none =>
      match Block.make? mapping with
      | none => (s, .badAlloc)
      | some block =>
        let s := (s.renew block mapping).unmapped
        match s.current.allocate size with
        | some (address, block) => (s.taken size address block, .pointer address)
        -- the pointer is null
        | none => (s.taken size 0 s.current, .pointer 0)

def release (s : ExecutableMemory) (piece : Piece) : ExecutableMemory :=
  { s with pieces := s.pieces.erase piece }.unmapped

/-- Two stretches of memory. -/
def Apart (a m b n : Nat) : Prop := a + m ≤ b ∨ b + n ≤ a

instance (a m b n : Nat) : Decidable (Apart a m b n) := inferInstanceAs (Decidable (_ ∨ _))

/-- The system maps a block here: not at null, and not over another one. -/
def Maps (s : ExecutableMemory) (base : Nat) : Prop :=
  base ≠ 0 ∧ ∀ b ∈ s.mapped, Apart base blockSize b blockSize

instance (s : ExecutableMemory) : DecidablePred s.Maps :=
  fun _ => inferInstanceAs (Decidable (_ ∧ _))

/-- One event.  A pointer goes once. -/
def step (s : ExecutableMemory) : MemoryEvent → Option ExecutableMemory
  | .allocate size mapping =>
    if ∀ base ∈ mapping, s.Maps base then some (s.allocate size mapping).1 else none
  | .release piece => if piece ∈ s.pieces then some (s.release piece) else none

/-- The INVARIANT. -/
structure Sound (s : ExecutableMemory) : Prop where
  occupied : s.current.occupied ≤ blockSize
  current : s.current.base ∈ s.mapped
  kept : ∀ piece ∈ s.pieces, piece.block ∈ s.mapped
  within : ∀ piece ∈ s.pieces,
    piece.block ≤ piece.address ∧ piece.address + piece.size ≤ piece.block + blockSize
  /-- the free part of the current block -/
  below : ∀ piece ∈ s.pieces, piece.block = s.current.base →
    piece.address + piece.size ≤ s.current.base + s.current.occupied
  blocks : s.mapped.Pairwise fun a b => Apart a blockSize b blockSize
  pieces : s.pieces.Pairwise fun p q => Apart p.address p.size q.address q.size

theorem first_sound (base : Nat) : (⟨⟨base, 0⟩, [], [base]⟩ : ExecutableMemory).Sound where
  occupied := Nat.zero_le _
  current := List.mem_singleton.2 rfl
  kept _ h := absurd h List.not_mem_nil
  within _ h := absurd h List.not_mem_nil
  below _ h := absurd h List.not_mem_nil
  blocks := List.pairwise_singleton _ _
  pieces := List.Pairwise.nil

theorem Apart.symm {a m b n : Nat} (h : Apart a m b n) : Apart b n a m := Or.symm h

/-- Stretches inside of others that are apart. -/
theorem Apart.within {a m b n a' m' b' n' : Nat} (h : Apart a m b n) (ha : a ≤ a')
    (ha' : a' + m' ≤ a + m) (hb : b ≤ b') (hb' : b' + n' ≤ b + n) : Apart a' m' b' n' := by
  unfold Apart at h ⊢
  omega

/-- Different mapped blocks do not overlap. -/
theorem Sound.blocks_apart {s : ExecutableMemory} (hs : s.Sound) {a b : Nat} (ha : a ∈ s.mapped)
    (hb : b ∈ s.mapped) (hne : a ≠ b) : Apart a blockSize b blockSize :=
  haveI : Std.Symm fun a b => Apart a blockSize b blockSize := ⟨fun _ _ h => h.symm⟩
  hs.blocks.forall ha hb hne

theorem mem_unmapped {s : ExecutableMemory} {b : Nat} : b ∈ s.unmapped.mapped ↔
    b ∈ s.mapped ∧ (b = s.current.base ∨ ∃ piece ∈ s.pieces, piece.block = b) := by
  simp [unmapped]

/-- Every mapped block is current or has a pointer to it. -/
def Held (s : ExecutableMemory) : Prop :=
  ∀ b ∈ s.mapped, b = s.current.base ∨ ∃ piece ∈ s.pieces, piece.block = b

theorem unmapped_held (s : ExecutableMemory) : s.unmapped.Held :=
  fun _ hb => (mem_unmapped.1 hb).2

/-- Unmapping takes nothing that is in use. -/
theorem Sound.unmapped {s : ExecutableMemory} (hs : s.Sound) : s.unmapped.Sound where
  occupied := hs.occupied
  current := mem_unmapped.2 ⟨hs.current, .inl rfl⟩
  kept piece hp := mem_unmapped.2 ⟨hs.kept piece hp, .inr ⟨piece, hp, rfl⟩⟩
  within := hs.within
  below := hs.below
  blocks := hs.blocks.sublist List.filter_sublist
  pieces := hs.pieces

/-- A piece from the free part of the current block. -/
theorem Sound.take {s : ExecutableMemory} (hs : s.Sound) {size address : Nat} {block : Block}
    (h : s.current.allocate size = some (address, block)) :
    (s.taken size address block).Sound ∧ block.base = s.current.base := by
  unfold Block.allocate at h
  split at h <;> cases h
  next hfits =>
  have hoccupied := hs.occupied
  have hnew : s.current.base + s.current.occupied + size ≤ s.current.base + blockSize := by omega
  refine ⟨⟨by show s.current.occupied + size ≤ blockSize; omega, hs.current, fun piece hp => ?_,
    fun piece hp => ?_, fun piece hp hblock => ?_, hs.blocks, ?_⟩, rfl⟩
  · rcases List.mem_append.1 hp with hp | hp
    · exact hs.kept piece hp
    · rw [List.mem_singleton.1 hp]
      exact hs.current
  · rcases List.mem_append.1 hp with hp | hp
    · exact hs.within piece hp
    · rw [List.mem_singleton.1 hp]
      exact ⟨Nat.le_add_right _ _, hnew⟩
  · show piece.address + piece.size ≤ s.current.base + (s.current.occupied + size)
    rcases List.mem_append.1 hp with hp | hp
    · have hle := hs.below piece hp hblock
      omega
    · rw [List.mem_singleton.1 hp]
      show s.current.base + s.current.occupied + size ≤ _
      omega
  · refine List.pairwise_append.2 ⟨hs.pieces, List.pairwise_singleton _ _, fun p hp q hq => ?_⟩
    rw [List.mem_singleton.1 hq]
    by_cases hblock : p.block = s.current.base
    · exact .inl (hs.below p hp hblock)
    · obtain ⟨hlo, hhi⟩ := hs.within p hp
      exact (hs.blocks_apart (hs.kept p hp) hs.current hblock).within hlo hhi
        (Nat.le_add_right _ _) hnew

theorem Held.take {s : ExecutableMemory} (hs : s.Held) {size address : Nat} {block : Block}
    (h : block.base = s.current.base) : (s.taken size address block).Held := by
  intro b hb
  rcases hs b hb with hb | ⟨piece, hp, hb⟩
  · exact .inl (hb.trans h.symm)
  · exact .inr ⟨piece, List.mem_append_left _ hp, hb⟩

/-- A new block, apart from all that are mapped. -/
theorem Sound.renew {s : ExecutableMemory} (hs : s.Sound) {base : Nat}
    (happart : ∀ b ∈ s.mapped, Apart base blockSize b blockSize) :
    (s.renew ⟨base, 0⟩ (some base)).Sound := by
  refine ⟨Nat.zero_le _, List.mem_append_right _ (List.mem_singleton.2 rfl),
    fun piece hp => List.mem_append_left _ (hs.kept piece hp), hs.within, fun piece hp hblock => ?_,
    List.pairwise_append.2 ⟨hs.blocks, List.pairwise_singleton _ _, fun a ha b hb => ?_⟩, hs.pieces⟩
  · -- no piece is in the new block yet
    have h := happart piece.block (hs.kept piece hp)
    rw [show piece.block = base from hblock] at h
    unfold Apart blockSize at h
    omega
  · rw [List.mem_singleton.1 hb]
    exact (happart a ha).symm

/-- A block that was mapped, or was taken for one. -/
theorem make?_getD {mapping : Option Nat} (h : mapping ≠ some 0) :
    Block.make? mapping = some ⟨mapping.getD mapFailed, 0⟩ := by
  refine if_neg fun hzero => ?_
  cases mapping with
  | none => exact absurd hzero (by decide)
  | some base => exact h (congrArg some hzero)

/-- `allocate` comes to one of these: nothing, a piece of the current block, the first of a new one. -/
theorem allocate_cases (s : ExecutableMemory) (size : Nat) {mapping : Option Nat}
    (hmapping : mapping ≠ some 0) :
    (blockSize < size ∧ s.allocate size mapping = (s, .badAlloc)) ∨
    (size ≤ blockSize ∧ ∃ t address block,
      (t = s ∨ s.current.allocate size = none ∧ address = mapping.getD mapFailed ∧
        t = (s.renew ⟨mapping.getD mapFailed, 0⟩ mapping).unmapped) ∧
      t.current.allocate size = some (address, block) ∧
      s.allocate size mapping = (t.taken size address block, .pointer address)) := by
  by_cases hlarge : blockSize < size
  · exact .inl ⟨hlarge, if_pos hlarge⟩
  refine .inr ⟨Nat.le_of_not_lt hlarge, ?_⟩
  unfold allocate
  rw [if_neg hlarge]
  split
  · next address block hfits => exact ⟨s, address, block, .inl rfl, hfits, rfl⟩
  · next hfull =>
    -- a fresh block has room for anything up to its size
    have hfits : (s.renew ⟨mapping.getD mapFailed, 0⟩ mapping).unmapped.current.allocate size =
        some (mapping.getD mapFailed, ⟨mapping.getD mapFailed, 0 + size⟩) :=
      if_pos (Nat.le_of_not_lt hlarge)
    rw [make?_getD hmapping]
    dsimp only
    rw [hfits]
    exact ⟨_, _, _, .inr ⟨hfull, rfl, rfl⟩, hfits, rfl⟩

theorem Sound.allocate {s : ExecutableMemory} (hs : s.Sound) (hheld : s.Held) {size base : Nat}
    (hmaps : s.Maps base) :
    (s.allocate size (some base)).1.Sound ∧ (s.allocate size (some base)).1.Held := by
  have hmapping : some base ≠ some 0 := fun h => hmaps.1 (Option.some.inj h)
  rcases allocate_cases s size hmapping with ⟨-, h⟩ | ⟨-, t, address, block, ht, hfits, h⟩
  · rw [h]
    exact ⟨hs, hheld⟩
  · have hboth : t.Sound ∧ t.Held := by
      rcases ht with rfl | ⟨-, -, rfl⟩
      · exact ⟨hs, hheld⟩
      · exact ⟨(hs.renew hmaps.2).unmapped, unmapped_held _⟩
    obtain ⟨htaken, hbase⟩ := hboth.1.take hfits
    rw [h]
    exact ⟨htaken, hboth.2.take hbase⟩

theorem Sound.release {s : ExecutableMemory} (hs : s.Sound) (piece : Piece) :
    (s.release piece).Sound :=
  Sound.unmapped ⟨hs.occupied, hs.current, fun p hp => hs.kept p (List.mem_of_mem_erase hp),
    fun p hp => hs.within p (List.mem_of_mem_erase hp),
    fun p hp => hs.below p (List.mem_of_mem_erase hp), hs.blocks,
    hs.pieces.sublist List.erase_sublist⟩

theorem step_sound {s s' : ExecutableMemory} (e : MemoryEvent) (he : e.maps = true)
    (hs : s.Sound ∧ s.Held) (h : s.step e = some s') : s'.Sound ∧ s'.Held := by
  cases e with
  | allocate size mapping =>
    obtain ⟨base, rfl⟩ := Option.isSome_iff_exists.mp he
    simp only [ExecutableMemory.step] at h
    split at h <;> cases h
    next hmaps => exact hs.1.allocate hs.2 (hmaps base rfl)
  | release piece =>
    simp only [ExecutableMemory.step] at h
    split at h <;> cases h
    exact ⟨hs.1.release piece, unmapped_held _⟩

theorem sound_of_run {base : Nat} {es : List MemoryEvent} {s : ExecutableMemory}
    (hrun : ((make? (some base)).bind fun s => Lib.run ExecutableMemory.step s es) = some s)
    (hmaps : ∀ e ∈ es, e.maps = true) : s.Sound ∧ s.Held := by
  obtain ⟨s₀, hs₀, hrun⟩ := Option.bind_eq_some_iff.mp hrun
  obtain ⟨block, hblock, rfl⟩ := Option.map_eq_some_iff.mp hs₀
  unfold Block.make? at hblock
  dsimp only at hblock
  split at hblock <;> cases hblock
  exact Lib.run_invariant_on (P := fun s => s.Sound ∧ s.Held)
    (fun _ e _ he hs h => step_sound e he hs h) es _ s hmaps
    ⟨first_sound base, fun _ hb => .inl (List.mem_singleton.1 hb)⟩ hrun

/-- Over ANY run in which no mapping fails: pieces in use do not overlap and each is inside a mapped
    block, the mapped blocks are the current one and those of pieces in use, and `allocate` fails
    exactly when it is asked for more than a block, handing out memory that no piece in use overlaps
    otherwise.  If a block is needed then and its mapping fails, that goes unnoticed: what is handed
    out is `MAP_FAILED`. -/
theorem executable_memory_safe {base : Nat} {es : List MemoryEvent} {s : ExecutableMemory}
    (hrun : ((make? (some base)).bind fun s => Lib.run ExecutableMemory.step s es) = some s)
    (hmaps : ∀ e ∈ es, e.maps = true) :
    s.pieces.Pairwise (fun p q => Apart p.address p.size q.address q.size) ∧
    (∀ piece ∈ s.pieces, piece.block ∈ s.mapped ∧ piece.block ≤ piece.address ∧
      piece.address + piece.size ≤ piece.block + blockSize) ∧
    (∀ b, b ∈ s.mapped ↔ b = s.current.base ∨ ∃ piece ∈ s.pieces, piece.block = b) ∧
    (∀ size base', s.Maps base' →
      ((s.allocate size (some base')).2 = .badAlloc ↔ blockSize < size) ∧
      ∀ address, (s.allocate size (some base')).2 = .pointer address →
        ∀ p ∈ s.pieces, Apart p.address p.size address size) ∧
    ∀ size, size ≤ blockSize → s.current.allocate size = none →
      (s.allocate size none).2 = .pointer mapFailed := by
  obtain ⟨hs, hheld⟩ := sound_of_run hrun hmaps
  refine ⟨hs.pieces, fun piece hp => ⟨hs.kept piece hp, hs.within piece hp⟩,
    fun b => ⟨hheld b, ?_⟩, fun size base' hbase' => ?_, fun size hsize hfull => ?_⟩
  · rintro (rfl | ⟨piece, hp, rfl⟩)
    · exact hs.current
    · exact hs.kept piece hp
  · have hnext : (s.allocate size (some base')).1.pieces.Pairwise _ := (hs.allocate hheld hbase').1.pieces
    have hmapping : some base' ≠ some 0 := fun h => hbase'.1 (Option.some.inj h)
    rcases allocate_cases s size hmapping with ⟨hlarge, h⟩ | ⟨hsmall, t, address, block, ht, -, h⟩
    · rw [h]
      exact ⟨⟨fun _ => hlarge, fun _ => rfl⟩, fun _ heq => (by cases heq)⟩
    · rw [h] at hnext ⊢
      refine ⟨⟨fun heq => (by cases heq), fun hlarge => absurd hsmall (Nat.not_le_of_lt hlarge)⟩, ?_⟩
      intro _ heq p hp
      cases heq
      -- the new piece is the last of the pieces after the allocation
      have hp : p ∈ t.pieces := by
        rcases ht with rfl | ⟨-, -, rfl⟩
        · exact hp
        · exact hp
      exact (List.pairwise_append.1 hnext).2.2 p hp _ (List.mem_singleton.2 rfl)
  · have hnone : (none : Option Nat) ≠ some 0 := by simp
    rcases allocate_cases s size hnone with ⟨hlarge, -⟩ | ⟨-, t, address, block, ht, hfits, h⟩
    · exact absurd hsize (Nat.not_le_of_lt hlarge)
    · rcases ht with rfl | ⟨-, rfl, -⟩
      · cases hfull.symm.trans hfits
      · rw [h]
        rfl

/-- Two pieces, a new block over them, the first block going with its last piece, and its address
    mapped again. -/
def recycled : List MemoryEvent :=
  [.allocate 0x20 (some 0x90000), .allocate 0xFFF0 (some 0x40000), .release ⟨0x10000, 0x10000, 0x20⟩,
    .allocate 0x10 (some 0x90000), .allocate 0x10 (some 0x10000)]

theorem executable_memory_safe_recycled :
    ∃ s, ((make? (some 0x10000)).bind fun s => Lib.run ExecutableMemory.step s recycled) = some s ∧
      s.pieces.map Piece.address = [0x40000, 0x4FFF0, 0x10000] ∧ s.mapped = [0x40000, 0x10000] ∧
      s.pieces.Pairwise (fun p q => Apart p.address p.size q.address q.size) ∧
      (s.allocate 0x10000 none).2 = .pointer mapFailed := by
  obtain ⟨hpieces, -, -, -, hfails⟩ := executable_memory_safe
    (rfl : ((make? (some 0x10000)).bind fun s => Lib.run ExecutableMemory.step s recycled) = _)
    (by decide)
  exact ⟨_, rfl, rfl, rfl, hpieces, hfails 0x10000 (by decide) (by decide)⟩

end ExecutableMemory

end MicroProfiler
