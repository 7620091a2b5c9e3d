/-
  `frontend/helpers.h`, `columns_layout.cpp`: the comparisons behind the columns of averages.

  1. **The code** — `compare` of two numbers, `compare` of two averages given as a time and a
     count, and the two comparators that use it.  A time is a `long long`, a count an
     `unsigned long long`; their product is taken in the unsigned type, so the cross products the
     averages are compared by are exact only modulo 2^64.

  2. **When it is exact** (`compareRatios_eq_sign`) — the exact cross products are told apart by
     their quotients by 2^64 first and their remainders next, the code sees the remainders only.

  3. **Sorting** (`averages_compared`) — records that are compared exactly are in a consistent weak
     order, those that were never called last.
-/
import MicroProfiler.Lib.ThreeWay
import Mathlib.Algebra.Order.Field.Rat
import Mathlib.Data.Sign.Basic
import Mathlib.Tactic.FieldSimp
import Mathlib.Tactic.Linarith
import Mathlib.Tactic.NormNum

namespace MicroProfiler.Frontend

/-- `compare(lhs, rhs)`. -/
def compareNumbers {N : Type} [DecidableEq N] [LT N] [DecidableLT N] (lhs rhs : N) : Int :=
  if lhs = rhs then 0 else if lhs < rhs then -1 else 1

/-- `compare(lhs, lhs_denominator, rhs, rhs_denominator)`, for a time and a count: the usual
    arithmetic conversions make the products unsigned. -/
def compareRatios (lhs : Int64) (lhsDenominator : UInt64) (rhs : Int64) (rhsDenominator : UInt64) :
    Int :=
  -- both were called, or neither was
  if decide (lhsDenominator = 0) = decide (rhsDenominator = 0) then
    compareNumbers (lhs.toUInt64 * rhsDenominator) (rhs.toUInt64 * lhsDenominator)
  else if rhsDenominator = 0 then -1
  else 1

/-- The fields of `function_statistics` averages are made of, in their machine types. -/
structure CallTimes where
  /-- the denominator of an average -/
  timesCalled : UInt64
  inclusiveTime : Int64
  exclusiveTime : Int64
deriving DecidableEq, Repr

/-- The comparator of an average column. -/
def byAverage (time : CallTimes → Int64) (lhs rhs : CallTimes) : Int :=
  compareRatios (time lhs) lhs.timesCalled (time rhs) rhs.timesCalled

/-- `by_avg_exclusive_call_time`. -/
def byAvgExclusiveCallTime : CallTimes → CallTimes → Int := byAverage CallTimes.exclusiveTime

/-- `by_avg_inclusive_call_time`. -/
def byAvgInclusiveCallTime : CallTimes → CallTimes → Int := byAverage CallTimes.inclusiveTime

/-! ## Exact averages -/

/-- The average a time and a count stand for. -/
def ratio (time : Int64) (count : UInt64) : ℚ := time.toInt / count.toNat

/-- The exact cross product, and where it lies between the multiples of 2^64. -/
def crossProduct (time : Int64) (count : UInt64) : Int := time.toInt * count.toNat

/-- How often the product goes round: negative for a negative time. -/
def wraps (time : Int64) (count : UInt64) : Int := crossProduct time count / 2 ^ 64

/-- What is left of it, as the code has it. -/
def remainder (time : Int64) (count : UInt64) : Int := crossProduct time count % 2 ^ 64

/-- The cross products wrap equally often, or are ordered alike by how often they wrap and by what
    is left. -/
def Comparable (lhs : Int64) (ln : UInt64) (rhs : Int64) (rn : UInt64) : Prop :=
  wraps lhs rn = wraps rhs ln ∨
    (wraps lhs rn < wraps rhs ln ∧ remainder lhs rn < remainder rhs ln) ∨
    (wraps rhs ln < wraps lhs rn ∧ remainder rhs ln < remainder lhs rn)

instance (lhs : Int64) (ln : UInt64) (rhs : Int64) (rn : UInt64) :
    Decidable (Comparable lhs ln rhs rn) := inferInstanceAs (Decidable (_ ∨ _))

/-- **What the code multiplies** is the remainder. -/
theorem toNat_product (time : Int64) (count : UInt64) :
    ((time.toUInt64 * count).toNat : Int) = remainder time count := by
  have hbits : time.toInt % 2 ^ 64 = (time.toUInt64.toNat : Int) % 2 ^ 64 := by
    have hmod : time.toInt = Int.bmod time.toUInt64.toNat (2 ^ 64) :=
      BitVec.toInt_eq_toNat_bmod time.toBitVec
    rw [hmod]
    exact Int.bmod_emod
  unfold remainder crossProduct
  rw [UInt64.toNat_mul, Int.mul_emod, hbits, ← Int.mul_emod]
  norm_cast

/-- `compare` of unsigned numbers is the sign of their difference. -/
theorem compareNumbers_eq_sign (a b : UInt64) :
    compareNumbers a b = Int.sign ((a.toNat : Int) - b.toNat) := by
  unfold compareNumbers
  split
  · next heq => rw [heq, Int.sub_self, Int.sign_zero]
  · next hne =>
    have hne' : a.toNat ≠ b.toNat := fun h => hne (UInt64.toNat_inj.mp h)
    split
    · next hlt =>
      have := UInt64.lt_iff_toNat_lt.mp hlt
      rw [Int.sign_eq_neg_one_of_neg (by omega)]
    · next hge =>
      have := mt UInt64.lt_iff_toNat_lt.mpr hge
      rw [Int.sign_eq_one_of_pos (by omega)]

section

variable {lhs rhs : Int64} {ln rn : UInt64}

/-- For counts that are not zero, the cross products decide. -/
theorem compareRatios_of_pos (hl : 0 < ln) (hr : 0 < rn) :
    compareRatios lhs ln rhs rn = compareNumbers (lhs.toUInt64 * rn) (rhs.toUInt64 * ln) := by
  have hl' : ln ≠ 0 := fun h => by rw [h] at hl; exact absurd hl (by decide)
  have hr' : rn ≠ 0 := fun h => by rw [h] at hr; exact absurd hr (by decide)
  rw [compareRatios, decide_eq_false hl', decide_eq_false hr', if_pos rfl]

/-- **Averages are compared by their cross products.** -/
theorem ratio_lt (hl : 0 < ln) (hr : 0 < rn) :
    ratio lhs ln < ratio rhs rn ↔ crossProduct lhs rn < crossProduct rhs ln := by
  have hl' : (0 : ℚ) < ln.toNat := by exact_mod_cast UInt64.lt_iff_toNat_lt.mp hl
  have hr' : (0 : ℚ) < rn.toNat := by exact_mod_cast UInt64.lt_iff_toNat_lt.mp hr
  unfold ratio crossProduct
  rw [div_lt_div_iff₀ hl' hr']
  norm_cast

/-- The exact comparison, as a sign. -/
theorem sign_ratio (hl : 0 < ln) (hr : 0 < rn) :
    (SignType.sign (ratio lhs ln - ratio rhs rn) : Int) =
      Int.sign (crossProduct lhs rn - crossProduct rhs ln) := by
  have hlt : ratio lhs ln < ratio rhs rn ↔ crossProduct lhs rn < crossProduct rhs ln :=
    ratio_lt hl hr
  have hgt : ratio rhs rn < ratio lhs ln ↔ crossProduct rhs ln < crossProduct lhs rn :=
    ratio_lt hr hl
  -- each of the three orders of the averages is that of the cross products
  rcases lt_trichotomy (ratio lhs ln) (ratio rhs rn) with h | h | h
  · rw [sign_neg (sub_neg.mpr h), Int.sign_eq_neg_one_of_neg (by have := hlt.mp h; omega)]
    rfl
  · have hcross : crossProduct lhs rn = crossProduct rhs ln := by
      have hnlt := mt hlt.mpr (by rw [h]; exact lt_irrefl _)
      have hngt := mt hgt.mpr (by rw [h]; exact lt_irrefl _)
      omega
    rw [h, sub_self, sign_zero, hcross, Int.sub_self, Int.sign_zero]
    rfl
  · rw [sign_pos (sub_pos.mpr h), Int.sign_eq_one_of_pos (by have := hgt.mp h; omega)]
    rfl

/-- Two numbers have one sign. -/
theorem sign_eq_sign_iff (x y : Int) :
    Int.sign x = Int.sign y ↔ (x < 0 ↔ y < 0) ∧ (0 < x ↔ 0 < y) := by
  have hx := Int.sign_eq_one_iff_pos (a := x)
  have hx' := Int.sign_eq_neg_one_iff_neg (a := x)
  have hx'' := Int.sign_eq_zero_iff_zero (a := x)
  have hy := Int.sign_eq_one_iff_pos (a := y)
  have hy' := Int.sign_eq_neg_one_iff_neg (a := y)
  have hy'' := Int.sign_eq_zero_iff_zero (a := y)
  omega

/-- **`compare` is exact** exactly on comparable averages. -/
theorem compareRatios_eq_sign (hl : 0 < ln) (hr : 0 < rn) :
    compareRatios lhs ln rhs rn = SignType.sign (ratio lhs ln - ratio rhs rn) ↔
      Comparable lhs ln rhs rn := by
  -- on both sides a sign: of the remainders, and of the products they are remainders of
  rw [compareRatios_of_pos hl hr, compareNumbers_eq_sign, toNat_product, toNat_product,
    sign_ratio hl hr, sign_eq_sign_iff]
  unfold Comparable wraps remainder
  omega

end

/-! ## Columns of averages -/

/-- The records of `s` have comparable averages. -/
def ComparableOn (time : CallTimes → Int64) (s : Set CallTimes) : Prop :=
  ∀ a ∈ s, ∀ b ∈ s, 0 < a.timesCalled → 0 < b.timesCalled →
    Comparable (time a) a.timesCalled (time b) b.timesCalled

/-- A column that can be sorted by: a consistent weak order, the records never called last. -/
structure Sortable (s : Set CallTimes) (compare : CallTimes → CallTimes → Int) : Prop where
  threeWay : Lib.ThreeWay s compare
  uncalledLast : ∀ a ∈ s, ∀ b ∈ s, a.timesCalled ≠ 0 → b.timesCalled = 0 → compare a b < 0
  uncalledTied : ∀ a ∈ s, ∀ b ∈ s, a.timesCalled = 0 → b.timesCalled = 0 → compare a b = 0

/-- Where a record stands in a column of averages. -/
def rank (time : CallTimes → Int64) (a : CallTimes) : WithTop ℚ :=
  -- a record never called is above every average
  if a.timesCalled = 0 then ⊤ else (ratio (time a) a.timesCalled : ℚ)

/-- The two ranks, -/
theorem rank_uncalled (time : CallTimes → Int64) {a : CallTimes} (h : a.timesCalled = 0) :
    rank time a = ⊤ := if_pos h

/-- by their cases. -/
theorem rank_called (time : CallTimes → Int64) {a : CallTimes} (h : a.timesCalled ≠ 0) :
    rank time a = (ratio (time a) a.timesCalled : ℚ) := if_neg h

/-- A count that is not zero is positive. -/
theorem count_pos {n : UInt64} (h : n ≠ 0) : 0 < n := by
  rw [UInt64.lt_iff_toNat_lt]
  refine Nat.pos_of_ne_zero fun hzero => h ?_
  exact UInt64.toNat_inj.mp hzero

section

variable {time : CallTimes → Int64} {a b : CallTimes}

/-- Two that were never called tie: both products are zero. -/
theorem byAverage_uncalled (ha : a.timesCalled = 0) (hb : b.timesCalled = 0) :
    byAverage time a b = 0 := by
  unfold byAverage compareRatios
  rw [ha, hb, if_pos rfl, UInt64.mul_zero, UInt64.mul_zero]
  rfl

/-- One that was called comes before one that was not, -/
theorem byAverage_uncalled_right (ha : a.timesCalled ≠ 0) (hb : b.timesCalled = 0) :
    byAverage time a b = -1 := by
  unfold byAverage compareRatios
  rw [decide_eq_false ha, decide_eq_true hb, if_neg (by decide), if_pos hb]

/-- and the other way round. -/
theorem byAverage_uncalled_left (ha : a.timesCalled = 0) (hb : b.timesCalled ≠ 0) :
    byAverage time a b = 1 := by
  unfold byAverage compareRatios
  rw [decide_eq_true ha, decide_eq_false hb, if_neg (by decide), if_neg hb]

/-- Two that were called are compared exactly, if they are comparable. -/
theorem byAverage_called (ha : a.timesCalled ≠ 0) (hb : b.timesCalled ≠ 0)
    (h : Comparable (time a) a.timesCalled (time b) b.timesCalled) :
    byAverage time a b =
      SignType.sign (ratio (time a) a.timesCalled - ratio (time b) b.timesCalled) :=
  (compareRatios_eq_sign (count_pos ha) (count_pos hb)).mpr h

/-- **The comparator compares ranks.** -/
theorem byAverage_rank (h : a.timesCalled ≠ 0 → b.timesCalled ≠ 0 →
      Comparable (time a) a.timesCalled (time b) b.timesCalled) :
    (byAverage time a b < 0 ↔ rank time a < rank time b) ∧
      (0 < byAverage time a b ↔ rank time b < rank time a) := by
  -- by which of the two were called at all
  by_cases ha : a.timesCalled = 0 <;> by_cases hb : b.timesCalled = 0
  · rw [byAverage_uncalled ha hb, rank_uncalled time ha, rank_uncalled time hb]
    simp
  · rw [byAverage_uncalled_left ha hb, rank_uncalled time ha, rank_called time hb]
    simp
  · rw [byAverage_uncalled_right ha hb, rank_called time ha, rank_uncalled time hb]
    simp
  · rw [byAverage_called ha hb (h ha hb), rank_called time ha, rank_called time hb]
    rcases lt_trichotomy (ratio (time a) a.timesCalled) (ratio (time b) b.timesCalled)
      with hlt | heq | hgt
    · rw [sign_neg (sub_neg.mpr hlt)]
      simp [hlt, hlt.le]
    · rw [heq, sub_self, sign_zero]
      simp
    · rw [sign_pos (sub_pos.mpr hgt)]
      simp [hgt, hgt.le]

end

/-- **Records with comparable averages** can be sorted by them. -/
theorem ComparableOn.sortable {time : CallTimes → Int64} {s : Set CallTimes}
    (h : ComparableOn time s) : Sortable s (byAverage time) where
  threeWay := by
    have hrank : ∀ a ∈ s, ∀ b ∈ s, a.timesCalled ≠ 0 → b.timesCalled ≠ 0 →
        Comparable (time a) a.timesCalled (time b) b.timesCalled :=
      fun a ha b hb hna hnb => h a ha b hb (count_pos hna) (count_pos hnb)
    refine Lib.ThreeWay.of_rank (rank time) ?_ ?_
    · exact fun a ha b hb => (byAverage_rank (hrank a ha b hb)).1
    · exact fun a ha b hb => (byAverage_rank (hrank a ha b hb)).2
  uncalledLast := by
    intro a _ b _ ha hb
    rw [byAverage_uncalled_right ha hb]
    decide
  uncalledTied := fun _ _ _ _ => byAverage_uncalled

/-- **Averages are compared exactly** if and only if their cross products are comparable; and on
    records whose cross products are, the average columns are sortable. -/
theorem averages_compared (lhs : Int64) (ln : UInt64) (rhs : Int64) (rn : UInt64) (hl : 0 < ln)
    (hr : 0 < rn) (s : Set CallTimes) :
    (compareRatios lhs ln rhs rn =
        SignType.sign ((lhs.toInt : ℚ) / ln.toNat - (rhs.toInt : ℚ) / rn.toNat) ↔
      Comparable lhs ln rhs rn) ∧
    (ComparableOn CallTimes.exclusiveTime s → Sortable s byAvgExclusiveCallTime) ∧
    (ComparableOn CallTimes.inclusiveTime s → Sortable s byAvgInclusiveCallTime) :=
  ⟨compareRatios_eq_sign hl hr, fun h => h.sortable, fun h => h.sortable⟩

/-- 2^62 and 2^61 ticks. -/
def manyTicks : Int64 := 4611686018427387904

/-- Half of that. -/
def halfAsMany : Int64 := 2305843009213693952

/-- As many ticks over one call and over two: both cross products fit. -/
theorem averages_compared_large :
    Comparable manyTicks 1 manyTicks 2 ∧ compareRatios manyTicks 1 manyTicks 2 = 1 ∧
      compareRatios manyTicks 1 manyTicks 2 = SignType.sign
        ((manyTicks.toInt : ℚ) / (1 : UInt64).toNat - (manyTicks.toInt : ℚ) / (2 : UInt64).toNat) :=
  ⟨by decide, by decide,
    (averages_compared manyTicks 1 manyTicks 2 (by decide) (by decide) ∅).1.mpr (by decide)⟩

/-- A negative average is taken for a large one; and three averages, none of them negative, follow
    one another in a circle. -/
theorem averages_misordered :
    compareRatios (-1) 1 1 1 = 1 ∧
      (SignType.sign (((-1 : Int64).toInt : ℚ) / (1 : UInt64).toNat -
        ((1 : Int64).toInt : ℚ) / (1 : UInt64).toNat) : Int) = -1 ∧
      byAvgInclusiveCallTime ⟨1, manyTicks, 0⟩ ⟨4, 1, 0⟩ < 0 ∧
      byAvgInclusiveCallTime ⟨4, 1, 0⟩ ⟨1, halfAsMany, 0⟩ < 0 ∧
      byAvgInclusiveCallTime ⟨1, halfAsMany, 0⟩ ⟨1, manyTicks, 0⟩ < 0 :=
  ⟨by decide, (sign_ratio (by decide) (by decide)).trans (by decide), by decide, by decide,
    by decide⟩

end MicroProfiler.Frontend
