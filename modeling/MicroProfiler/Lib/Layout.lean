/-
  Data laid out in memory: records of little-endian words, tables of them, strings that end with a
  zero.

  `Holds` says what is at an address.  A record is read back word by word (`readRecord_of_holds`), a
  table row by row (`readRows_of_holds`), and a string is compared with another one up to its end
  (`stringEq_iff`).

  Nothing here names the program.
-/
import MicroProfiler.Lib.Memory
import Mathlib.Data.List.Forall2
import Mathlib.Algebra.Order.Ring.Nat

namespace MicroProfiler.Lib

namespace Memory

variable {m : Memory UInt8} {a : Int}

/-- What is at `a`. -/
def Holds (m : Memory UInt8) (a : Int) (bytes : List UInt8) : Prop := m.load a bytes.length = bytes

instance (m : Memory UInt8) (a : Int) (bytes : List UInt8) : Decidable (m.Holds a bytes) :=
  inferInstanceAs (Decidable (_ = _))

/-- One part after the other. -/
theorem holds_append {xs ys : List UInt8} :
    m.Holds a (xs ++ ys) ↔ m.Holds a xs ∧ m.Holds (a + xs.length) ys := by
  unfold Holds
  rw [List.length_append, load_add]
  refine ⟨fun h => List.append_inj h (length_load _ _ _), fun h => ?_⟩
  rw [h.1, h.2]

/-- The first byte, and the rest behind it. -/
theorem holds_cons {b : UInt8} {bytes : List UInt8} :
    m.Holds a (b :: bytes) ↔ m a = b ∧ m.Holds (a + 1) bytes := by
  unfold Holds
  rw [List.length_cons, load_succ, List.cons_eq_cons]

/-- Only the bytes there count. -/
theorem Holds.congr {m' : Memory UInt8} {bytes : List UInt8} (h : m.Holds a bytes)
    (hmem : ∀ x : Int, a ≤ x → x < a + bytes.length → m' x = m x) : m'.Holds a bytes := by
  unfold Holds at h ⊢
  rw [load_congr fun i hi => hmem (a + i) (by omega) (by omega), h]

/-! ## Words and records -/

/-- A little-endian word of `n` bytes. -/
def word (m : Memory UInt8) (a : Int) (n : Nat) : Nat := leValue (m.load a n)

/-- A word is read as the number written, if it has room. -/
theorem word_of_holds {n v : Nat} (h : m.Holds a (leBytes n v)) (hv : v < 256 ^ n) :
    m.word a n = v := by
  unfold Holds at h
  rw [length_leBytes] at h
  rw [word, h, leValue_leBytes, Nat.mod_eq_of_lt hv]

/-- Words of the given widths, one after the other. -/
def readRecord (m : Memory UInt8) (a : Int) : List Nat → List Nat
  | [] => []
  | n :: ns => m.word a n :: readRecord m (a + n) ns

end Memory

/-- The bytes of a record. -/
def record : List Nat → List Nat → List UInt8
  | n :: ns, v :: vs => Memory.leBytes n v ++ record ns vs
  | _, _ => []

/-- Every value has room in its word. -/
def Fits (widths values : List Nat) : Prop := List.Forall₂ (fun n v => v < 256 ^ n) widths values

instance (widths values : List Nat) : Decidable (Fits widths values) :=
  inferInstanceAs (Decidable (List.Forall₂ _ _ _))

/-- A record is as long as its widths together. -/
theorem length_record {widths values : List Nat} (h : Fits widths values) :
    (record widths values).length = widths.sum := by
  induction h with
  | nil => rfl
  | cons _ _ ih => rw [record, List.length_append, Memory.length_leBytes, ih, List.sum_cons]

/-- **A record is read back.** By induction on its words: each read starts where the last one ended.
    -/
theorem readRecord_of_holds {m : Memory UInt8} {widths values : List Nat} (h : Fits widths values) :
    ∀ {a : Int}, m.Holds a (record widths values) → m.readRecord a widths = values := by
  induction h with
  | nil => exact fun _ => rfl
  | cons hv _ ih =>
    intro a hholds
    obtain ⟨hword, hrest⟩ := Memory.holds_append.mp hholds
    rw [Memory.length_leBytes] at hrest
    rw [Memory.readRecord, Memory.word_of_holds hword hv, ih hrest]

/-! ## Tables -/

/-- The rows of a table, of `n` rows. -/
def readRows (m : Memory UInt8) (a : Int) (widths : List Nat) (n : Nat) : List (List Nat) :=
  (List.range n).map fun i => m.readRecord (a + (i * widths.sum : Nat)) widths

/-- The first row, and the table behind it. -/
theorem readRows_succ (m : Memory UInt8) (a : Int) (widths : List Nat) (n : Nat) :
    readRows m a widths (n + 1) =
      m.readRecord a widths :: readRows m (a + widths.sum) widths n := by
  unfold readRows
  rw [List.range_succ_eq_map, List.map_cons, List.map_map]
  refine congrArg₂ List.cons (congrArg (m.readRecord · widths) (by simp)) (List.map_congr_left fun i _ => ?_)
  refine congrArg (m.readRecord · widths) ?_
  show a + ((i + 1) * widths.sum : Nat) = _
  rw [Nat.succ_mul]
  omega

/-- **A table is read back**, row by row. -/
theorem readRows_of_holds {m : Memory UInt8} {widths : List Nat} :
    ∀ {rows : List (List Nat)} {a : Int}, (∀ row ∈ rows, Fits widths row) →
      m.Holds a (rows.flatMap (record widths)) → readRows m a widths rows.length = rows
  | [], _, _, _ => rfl
  | row :: rows, a, hfits, hholds => by
    have hrow := hfits row List.mem_cons_self
    rw [List.flatMap_cons] at hholds
    obtain ⟨hfirst, hrest⟩ := Memory.holds_append.mp hholds
    rw [length_record hrow] at hrest
    rw [List.length_cons, readRows_succ, readRecord_of_holds hrow hfirst,
      readRows_of_holds (fun r hr => hfits r (List.mem_cons_of_mem _ hr)) hrest]

/-- One row. -/
theorem readRow_of_holds {m : Memory UInt8} {widths : List Nat} {rows : List (List Nat)} {a : Int}
    (hfits : ∀ row ∈ rows, Fits widths row) (hholds : m.Holds a (rows.flatMap (record widths)))
    {i : Nat} {row : List Nat} (hi : rows[i]? = some row) :
    m.readRecord (a + (i * widths.sum : Nat)) widths = row := by
  have hlt : i < rows.length := (List.getElem?_eq_some_iff.mp hi).1
  have heq := congrArg (·[i]?) (readRows_of_holds hfits hholds)
  simp only [readRows, List.getElem?_map, List.getElem?_range hlt, Option.map_some, hi] at heq
  exact Option.some.inj heq

/-! ## Strings -/

/-- A string with its end. -/
def HoldsString (m : Memory UInt8) (a : Int) (s : List UInt8) : Prop := 0 ∉ s ∧ m.Holds a (s ++ [0])

instance (m : Memory UInt8) (a : Int) (s : List UInt8) : Decidable (HoldsString m a s) :=
  inferInstanceAs (Decidable (_ ∧ _))

/-- Equal to `s`, up to the end. -/
def stringEq (m : Memory UInt8) (a : Int) (s : List UInt8) : Bool := m.load a (s.length + 1) == s ++ [0]

/-- There is one string at an address. -/
theorem holdsString_unique {m : Memory UInt8} : ∀ {s t : List UInt8} {a : Int},
    HoldsString m a s → HoldsString m a t → s = t
  | [], [], _, _, _ => rfl
  -- one of them ends where the other goes on: a zero is inside no string
  | [], c :: t, a, hs, ht => by
    have hzero := (Memory.holds_cons.mp hs.2).1
    have hc := (Memory.holds_cons.mp ht.2).1
    exact absurd (List.mem_cons.mpr (.inl (hzero.symm.trans hc))) ht.1
  | c :: s, [], a, hs, ht => by
    have hc := (Memory.holds_cons.mp hs.2).1
    have hzero := (Memory.holds_cons.mp ht.2).1
    exact absurd (List.mem_cons.mpr (.inl (hzero.symm.trans hc))) hs.1
  | c :: s, d :: t, a, hs, ht => by
    obtain ⟨hc, hs'⟩ := Memory.holds_cons.mp hs.2
    obtain ⟨hd, ht'⟩ := Memory.holds_cons.mp ht.2
    have hrest : s = t := holdsString_unique ⟨fun h => hs.1 (List.mem_cons_of_mem _ h), hs'⟩
      ⟨fun h => ht.1 (List.mem_cons_of_mem _ h), ht'⟩
    rw [hc.symm.trans hd, hrest]

/-- A comparison up to the end finds out whether it is that string. -/
theorem stringEq_iff {m : Memory UInt8} {s t : List UInt8} {a : Int} (hs : HoldsString m a s)
    (ht : 0 ∉ t) : stringEq m a t = true ↔ s = t := by
  have hlength : (t ++ [(0 : UInt8)]).length = t.length + 1 := by simp
  rw [stringEq, beq_iff_eq]
  constructor
  · -- what was compared includes the zero
    intro h
    exact holdsString_unique hs ⟨ht, by rw [Memory.Holds, hlength, h]⟩
  · rintro rfl
    have h := hs.2
    rwa [Memory.Holds, hlength] at h

end MicroProfiler.Lib
