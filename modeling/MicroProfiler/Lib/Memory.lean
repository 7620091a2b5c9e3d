/-
  A flat memory: one cell for every integer address.

  1. **Cells** — `store` puts a list of cells at an address, `load` reads one, `copy` moves cells one
     at a time from the lowest address up, `fill` repeats one cell.

  2. **Frames** — `SameOutside lo hi` says that two memories differ between `lo` and `hi` at most.
     Effects are stated as a frame and, where they matter, the cells inside of it.

  3. **Words** — `leBytes` and `leValue`: a number as bytes, the lowest first.

  Nothing here names the program.
-/
import Mathlib.Algebra.Group.Nat.Defs
import Mathlib.Algebra.Ring.Int.Defs
import Mathlib.Data.List.Basic
import Mathlib.Logic.Function.Basic

namespace MicroProfiler.Lib

variable {α : Type}

/-- What is in each cell; there is no end to it on either side. -/
abbrev Memory (α : Type) : Type := Int → α

namespace Memory

/-! ## Cells -/

/-- One cell is written. -/
def set (m : Memory α) (a : Int) (v : α) : Memory α := fun x => if x = a then v else m x

/-- The cells `vs` at `a`. -/
def store (m : Memory α) (a : Int) : List α → Memory α
  | [] => m
  | v :: vs => store (m.set a v) (a + 1) vs

/-- The `n` cells from `a` on. -/
def load (m : Memory α) (a : Int) (n : Nat) : List α := (List.range n).map fun i : Nat => m (a + i)

/-- Move `n` cells, from the lowest address up: where the places overlap, cells moved before may be
    read again. -/
def copy (m : Memory α) (dest src : Int) : Nat → Memory α
  | 0 => m
  | n + 1 => copy (m.set dest (m src)) (dest + 1) (src + 1) n

/-- `n` cells get one value. -/
def fill (m : Memory α) (a : Int) (v : α) (n : Nat) : Memory α := m.store a (List.replicate n v)

/-- A cell holds what was last written to it, -/
@[simp] theorem set_self (m : Memory α) (a : Int) (v : α) : m.set a v a = v := if_pos rfl

/-- and keeps it when others are written. -/
theorem set_ne (m : Memory α) {a x : Int} (v : α) (h : x ≠ a) : m.set a v x = m x := if_neg h

/-- As many cells as asked for, -/
@[simp] theorem length_load (m : Memory α) (a : Int) (n : Nat) : (m.load a n).length = n := by
  simp [load]

/-- each from its place. -/
theorem getElem?_load (m : Memory α) (a : Int) {n i : Nat} (h : i < n) :
    (m.load a n)[i]? = some (m (a + i)) := by
  simp [load, h]

/-- Loads of equal cells. -/
theorem load_congr {m m' : Memory α} {a a' : Int} {n : Nat}
    (h : ∀ i : Nat, i < n → m (a + i) = m' (a' + i)) : m.load a n = m'.load a' n :=
  List.map_congr_left fun i hi => h i (List.mem_range.mp hi)

/-- Equal loads are equal cell by cell. -/
theorem load_eq_iff {m m' : Memory α} {a a' : Int} {n : Nat} :
    m.load a n = m'.load a' n ↔ ∀ i : Nat, i < n → m (a + i) = m' (a' + i) := by
  refine ⟨fun h i hi => ?_, load_congr⟩
  have heq := getElem?_load m a hi
  rw [h, getElem?_load m' a' hi] at heq
  exact (Option.some.inj heq).symm

/-- The first cell, and the rest. -/
theorem load_succ (m : Memory α) (a : Int) (n : Nat) :
    m.load a (n + 1) = m a :: m.load (a + 1) n := by
  unfold load
  rw [List.range_succ_eq_map, List.map_cons, List.map_map]
  refine congrArg₂ List.cons (congrArg m (by simp)) (List.map_congr_left fun i _ => ?_)
  exact congrArg m (by simp only [Nat.succ_eq_add_one]; omega)

/-- One stretch after another. -/
theorem load_add (m : Memory α) (a : Int) : ∀ n k : Nat,
    m.load a (n + k) = m.load a n ++ m.load (a + n) k
  | 0, k => by
    have ha : a + ((0 : Nat) : Int) = a := by omega
    rw [ha, Nat.zero_add]
    rfl
  | n + 1, k => by
    have hplace : a + 1 + (n : Int) = a + ((n + 1 : Nat) : Int) := by omega
    rw [Nat.add_right_comm, load_succ, load_add m (a + 1) n k, load_succ, hplace, List.cons_append]

/-! ## Frames -/

/-- The memories differ from `lo` up to below `hi` at most. -/
def SameOutside (lo hi : Int) (m m' : Memory α) : Prop := ∀ x, x < lo ∨ hi ≤ x → m' x = m x

/-- Frames compose, as long as they are the same; -/
theorem SameOutside.trans {lo hi : Int} {m₁ m₂ m₃ : Memory α} (h₁ : SameOutside lo hi m₁ m₂)
    (h₂ : SameOutside lo hi m₂ m₃) : SameOutside lo hi m₁ m₃ :=
  fun x hx => (h₂ x hx).trans (h₁ x hx)

/-- to make them so, a frame may be widened. -/
theorem SameOutside.mono {lo hi lo' hi' : Int} {m m' : Memory α} (h : SameOutside lo hi m m')
    (hlo : lo' ≤ lo) (hhi : hi ≤ hi') : SameOutside lo' hi' m m' :=
  fun x hx => h x (by omega)

/-- One cell is one cell. -/
theorem set_sameOutside (m : Memory α) (a : Int) (v : α) : SameOutside a (a + 1) m (m.set a v) :=
  fun _ hx => set_ne m v (by omega)

/-- A store writes nothing outside of its cells. By induction on them: what the first and the rest
    touch lies inside. -/
theorem store_sameOutside : ∀ (vs : List α) (m : Memory α) (a : Int),
    SameOutside a (a + vs.length) m (m.store a vs)
  | [], m, a => fun _ _ => rfl
  | v :: vs, m, a => by
    rw [List.length_cons]
    have hfirst := (set_sameOutside m a v).mono (Int.le_refl a)
      (show a + 1 ≤ a + ((vs.length + 1 : Nat) : Int) by omega)
    have hrest := (store_sameOutside vs (m.set a v) (a + 1)).mono (show a ≤ a + 1 by omega)
      (show a + 1 + (vs.length : Int) ≤ a + ((vs.length + 1 : Nat) : Int) by omega)
    exact hfirst.trans hrest

/-- What was stored is there. -/
theorem store_inside : ∀ (vs : List α) (m : Memory α) (a : Int) (i : Nat),
    i < vs.length → some (m.store a vs (a + i)) = vs[i]?
  -- the first cell: the stores after it are behind it
  | v :: vs, m, a, 0, _ => by
    have hframe := store_sameOutside vs (m.set a v) (a + 1) a (Or.inl (by omega))
    have hhead : m.store a (v :: vs) (a + (0 : Nat)) = m.store a (v :: vs) a := by simp
    rw [hhead, List.getElem?_cons_zero]
    exact congrArg some (hframe.trans (set_self ..))
  -- a later one is the rest's
  | v :: vs, m, a, i + 1, h => by
    have ih := store_inside vs (m.set a v) (a + 1) i (Nat.lt_of_succ_lt_succ h)
    have hplace : a + ((i + 1 : Nat) : Int) = a + 1 + (i : Int) := by omega
    rw [hplace, List.getElem?_cons_succ]
    exact ih

/-- Storing and loading gives back what was stored. -/
theorem load_store (m : Memory α) (a : Int) (vs : List α) :
    (m.store a vs).load a vs.length = vs := by
  refine List.ext_getElem? fun i => ?_
  by_cases hi : i < vs.length
  · rw [getElem?_load _ _ hi, store_inside vs m a i hi]
  · rw [List.getElem?_eq_none (by rw [length_load]; omega), List.getElem?_eq_none (by omega)]

/-- **Putting back what was there.**  Of a memory that differs from `m` up to `a + n`, the `n` cells
    from `a` on are those of `m` again. -/
theorem store_load {m m' : Memory α} {lo a : Int} {n : Nat} (h : SameOutside lo (a + n) m m') :
    SameOutside lo a m (m'.store a (m.load a n)) := by
  intro x hx
  by_cases hout : x < a ∨ a + n ≤ x
  · -- outside of what is put back nothing differed
    have hframe := store_sameOutside (m.load a n) m' a x (by rw [length_load]; exact hout)
    exact hframe.trans (h x (by omega))
  · -- inside it is put back
    obtain ⟨i, rfl⟩ : ∃ i : Nat, x = a + i := ⟨(x - a).toNat, by omega⟩
    have hi : i < n := by omega
    have hin := store_inside (m.load a n) m' a i (by rw [length_load]; exact hi)
    rw [getElem?_load m a hi] at hin
    exact Option.some.inj hin

/-- A fill is a store, -/
theorem fill_sameOutside (m : Memory α) (a : Int) (v : α) (n : Nat) :
    SameOutside a (a + n) m (m.fill a v n) := by
  have h := store_sameOutside (List.replicate n v) m a
  rw [List.length_replicate] at h
  exact h

/-- of the same value everywhere. -/
theorem fill_inside (m : Memory α) (a : Int) (v : α) {n : Nat} {x : Int} (hlo : a ≤ x)
    (hhi : x < a + n) : m.fill a v n x = v := by
  obtain ⟨i, rfl⟩ : ∃ i : Nat, x = a + i := ⟨(x - a).toNat, by omega⟩
  have hi : i < n := by omega
  have hin := store_inside (List.replicate n v) m a i (by rw [List.length_replicate]; exact hi)
  rw [List.getElem?_replicate, if_pos hi] at hin
  exact Option.some.inj hin

/-- A copy writes its destination only. -/
theorem copy_sameOutside : ∀ (n : Nat) (m : Memory α) (dest src : Int),
    SameOutside dest (dest + n) m (m.copy dest src n)
  | 0, m, dest, src => fun _ _ => rfl
  | n + 1, m, dest, src => by
    have hfirst := (set_sameOutside m dest (m src)).mono (Int.le_refl dest)
      (show dest + 1 ≤ dest + ((n + 1 : Nat) : Int) by omega)
    have hrest := (copy_sameOutside n (m.set dest (m src)) (dest + 1) (src + 1)).mono
      (show dest ≤ dest + 1 by omega)
      (show dest + 1 + (n : Int) ≤ dest + ((n + 1 : Nat) : Int) by omega)
    exact hfirst.trans hrest

/-- Moving down, or to a place apart, reads every cell before it is overwritten. -/
theorem copy_inside : ∀ (n : Nat) (m : Memory α) (dest src : Int),
    dest ≤ src ∨ src + n ≤ dest → ∀ i : Nat, i < n → m.copy dest src n (dest + i) = m (src + i)
  -- the cell moved first is not written again
  | n + 1, m, dest, src, hplace, 0, _ => by
    have hframe := copy_sameOutside n (m.set dest (m src)) (dest + 1) (src + 1) dest
      (Or.inl (by omega))
    have hdest : dest + ((0 : Nat) : Int) = dest := by omega
    have hsrc : src + ((0 : Nat) : Int) = src := by omega
    rw [hdest, hsrc]
    exact hframe.trans (set_self ..)
  -- a later one was read from where the first did not write
  | n + 1, m, dest, src, hplace, i + 1, hi => by
    have ih := copy_inside n (m.set dest (m src)) (dest + 1) (src + 1) (by omega) i (by omega)
    have hdest : dest + ((i + 1 : Nat) : Int) = dest + 1 + (i : Int) := by omega
    have hsrc : src + 1 + (i : Int) = src + ((i + 1 : Nat) : Int) := by omega
    rw [hdest, copy, ih, hsrc]
    exact set_ne m _ (by omega)

/-- A copy, read back. -/
theorem load_copy {m : Memory α} {dest src : Int} {n : Nat} (h : dest ≤ src ∨ src + n ≤ dest) :
    (m.copy dest src n).load dest n = m.load src n :=
  load_congr fun i hi => copy_inside n m dest src h i hi

/-! ## Words -/

/-- A number as `n` bytes, the lowest first. -/
def leBytes : Nat → Nat → List UInt8
  | 0, _ => []
  | n + 1, v => UInt8.ofNat (v % 256) :: leBytes n (v / 256)

/-- The number that bytes stand for, the lowest first. -/
def leValue : List UInt8 → Nat
  | [] => 0
  | b :: bs => b.toNat + 256 * leValue bs

/-- As many bytes as the word has. -/
@[simp] theorem length_leBytes : ∀ n v : Nat, (leBytes n v).length = n
  | 0, _ => rfl
  | n + 1, v => by rw [leBytes, List.length_cons, length_leBytes]

/-- What bytes can hold. -/
theorem leValue_lt : ∀ bs : List UInt8, leValue bs < 256 ^ bs.length
  | [] => Nat.one_pos
  | b :: bs => by
    have hb := b.toNat_lt
    have ih := leValue_lt bs
    rw [leValue, List.length_cons, Nat.pow_succ]
    omega

/-- Bytes hold a number modulo their count. -/
theorem leValue_leBytes : ∀ n v : Nat, leValue (leBytes n v) = v % 256 ^ n
  | 0, v => by rw [leBytes, leValue, Nat.pow_zero, Nat.mod_one]
  | n + 1, v => by
    have hbyte : (UInt8.ofNat (v % 256)).toNat = v % 256 := by simp
    rw [leBytes, leValue, leValue_leBytes n, hbyte, Nat.pow_succ, Nat.mul_comm (256 ^ n) 256,
      Nat.mod_mul]

/-- The low byte of an integer. -/
def lowByte (z : Int) : UInt8 := UInt8.ofNat (z % 256).toNat

/-- A byte with a sign. -/
def signedByte (b : UInt8) : Int := if b.toNat < 128 then b.toNat else b.toNat - 256

/-- A number of 32 bits with a sign. -/
def signed32 (v : Nat) : Int := if v < 0x80000000 then v else v - 0x100000000

end Memory

end MicroProfiler.Lib
