/-
  `histogram::find_partitions` — where given fractions of the counts fall on the scale.

  1. **Program** — the partitions are sorted by midvalue; then ONE pass walks the bins and the
     sorted partitions together.  `seek` finds the first non-empty bin (it gives up on the last bin
     without looking at it); `locateWhile` is the loop that serves every partition up to a bound;
     `sweep` is the loop over the bins that are left, carrying the last non-empty bin `j` across
     runs of empty ones.  Arithmetic is on exact rationals, reads are checked, and a division by
     zero is `none`.

  2. **Specification** — `Located mid x`: where a midvalue belongs, by the cumulative counts alone
     (`before i` is what is counted before bin `i`).

  3. **The crux (`sweep_spec`)** — at bin `i` the pass holds `sum = before i`, every bin strictly
     between `j` and `i` is empty, and every partition still to serve has its midvalue ABOVE `sum`.
     The last is what keeps the division safe: an empty bin serves nobody.

  4. **Monotone** — not argued along the pass but from `Located` alone (`Located.mono`).
-/
import Mathlib.Data.Rat.Defs
import Mathlib.Data.List.Forall2
import Mathlib.Data.List.GetD
import Mathlib.Data.List.Sort
import Mathlib.Algebra.Order.Field.Rat
import Mathlib.Algebra.Order.BigOperators.Group.List
import Mathlib.Tactic.Linarith
import Mathlib.Tactic.FieldSimp
import Mathlib.Tactic.Positivity
import Mathlib.Tactic.Ring

namespace MicroProfiler.Math

/-- `histogram<S, Y>`: the counts, and the samples of the scale. -/
structure Histogram where
  bins : List ℚ
  scale : List ℚ
  /-- `set_scale` makes as many counts as there are samples -/
  sameSize : scale.length = bins.length
  /-- the code reads bin 0 -/
  nonEmpty : 0 < bins.length
  /-- counts of calls -/
  nonNegative : ∀ d ∈ bins, 0 ≤ d
  /-- samples of a scale -/
  increasing : scale.Pairwise (· < ·)

/-- `partition`: a midvalue to find, and where it was found. -/
structure Partition where
  midvalue : ℚ
  location : ℚ
deriving DecidableEq, Repr

/-- `partition_less`. -/
def partitionLess (lhs rhs : Partition) : Prop := lhs.midvalue < rhs.midvalue

/-- A result of `std::sort(first, last, partition_less())`: some rearrangement in order. -/
structure Sorting (partitions : List Partition) where
  sorted : List Partition
  perm : sorted.Perm partitions
  /-- no element is less than an earlier one: equal ones in any order -/
  ordered : sorted.Pairwise fun p q => ¬ partitionLess q p

/-- A stable sort is one of them. -/
instance (partitions : List Partition) : Inhabited (Sorting partitions) where
  default :=
    { sorted := partitions.mergeSort fun p q => decide (p.midvalue ≤ q.midvalue)
      perm := List.mergeSort_perm _ _
      ordered := by
        refine (List.pairwise_mergeSort ?_ ?_ partitions).imp fun {p q} hpq => ?_
        · exact fun p q r hpq hqr => decide_eq_true (le_trans (of_decide_eq_true hpq)
            (of_decide_eq_true hqr))
        · exact fun p q => by simpa using le_total p.midvalue q.midvalue
        · exact not_lt_of_ge (of_decide_eq_true hpq) }

/-- A division as the code makes it. -/
-- of doubles it would give infinity or NaN: `none` says that it never comes to that
def divide (a b : ℚ) : Option ℚ := if b = 0 then none else some (a / b)

/-- `for (; first != last && first->midvalue <= bound; ++first) first->location = …`: those served,
    and those left. -/
def locateWhile (bound : ℚ) (location : ℚ → Option ℚ) :
    List Partition → Option (List Partition × List Partition)
  | [] => some ([], [])
  | p :: ps =>
    if p.midvalue ≤ bound then do
      let x ← location p.midvalue
      let (served, left) ← locateWhile bound location ps
      return ({ p with location := x } :: served, left)
    else some ([], p :: ps)

namespace Histogram

/-- `_scale.samples()`. -/
def samples (h : Histogram) : Nat := h.scale.length

/-- `for (; j + 1 < n; ++j) { sum = (*this)[j]; if (sum) break; }` -/
def seek (h : Histogram) (j : Nat) (sum : ℚ) : Option (Nat × ℚ) :=
  if j + 1 < h.samples then do
    let sum ← h.bins[j]?
    -- the last bin is never looked at: the bound is on `j + 1`
    if sum ≠ 0 then return (j, sum) else h.seek (j + 1) sum
  else some (j, sum)
termination_by h.samples - j

/-- `previous + (_scale[i] - previous) * (first->midvalue - sum) / d`. -/
def interpolate (h : Histogram) (i j : Nat) (sum d midvalue : ℚ) : Option ℚ := do
  let previous ← h.scale[j]?
  let step ← divide (((← h.scale[i]?) - previous) * (midvalue - sum)) d
  return previous + step

/-- The loop over the bins from `i` on, and the loop after it that serves whoever is left. -/
def sweep (h : Histogram) (i j : Nat) (sum : ℚ) (ps : List Partition) :
    Option (List Partition) :=
  if i < h.samples then do
    let d ← h.bins[i]?
    let newSum := sum + d
    -- whoever falls into this bin lies between the last non-empty bin and it
    let (served, left) ← locateWhile newSum (h.interpolate i j sum d) ps
    let rest ← h.sweep (i + 1) (if d ≠ 0 then i else j) newSum left
    return served ++ rest
  else
    ps.mapM fun p => do return { p with location := ← h.scale[j]? }
termination_by h.samples - i

/-- `find_partitions(first, last)`. -/
def findPartitions (h : Histogram) {partitions : List Partition} (sorting : Sorting partitions) :
    Option (List Partition) := do
  let (j, sum) ← h.seek 0 0
  let (served, left) ← locateWhile sum (fun _ => h.scale[j]?) sorting.sorted
  let rest ← h.sweep (j + 1) j sum left
  return served ++ rest

/-! ## Counts and samples -/

/-- The count of bin `i`. -/
def bin (h : Histogram) (i : Nat) : ℚ := h.bins.getD i 0

/-- The sample bin `i` stands at. -/
def sample (h : Histogram) (i : Nat) : ℚ := h.scale.getD i 0

/-- What is counted in the bins before `i`. -/
def before (h : Histogram) (i : Nat) : ℚ := (h.bins.take i).sum

/-- What is counted altogether. -/
def total (h : Histogram) : ℚ := h.bins.sum

/-- One count for each sample. -/
theorem samples_eq (h : Histogram) : h.samples = h.bins.length := h.sameSize

/-- A checked read of a count inside, -/
theorem getElem?_bins (h : Histogram) {i : Nat} (hi : i < h.samples) :
    h.bins[i]? = some (h.bin i) := by
  rw [samples_eq] at hi
  rw [bin, List.getD_eq_getElem _ _ hi, List.getElem?_eq_getElem hi]

/-- and of a sample. -/
theorem getElem?_scale (h : Histogram) {i : Nat} (hi : i < h.samples) :
    h.scale[i]? = some (h.sample i) := by
  rw [samples] at hi
  rw [sample, List.getD_eq_getElem _ _ hi, List.getElem?_eq_getElem hi]

/-- Outside, the count is taken as zero. -/
theorem bin_nonneg (h : Histogram) (i : Nat) : 0 ≤ h.bin i := by
  rw [bin]
  by_cases hi : i < h.bins.length
  · rw [List.getD_eq_getElem _ _ hi]
    exact h.nonNegative _ (List.getElem_mem hi)
  · rw [List.getD_eq_default _ _ (by omega)]

/-- Nothing is before the first bin, -/
@[simp] theorem before_zero (h : Histogram) : h.before 0 = 0 := by simp [before]

/-- each bin adds its own count, -/
theorem before_succ (h : Histogram) (i : Nat) : h.before (i + 1) = h.before i + h.bin i := by
  rw [before, before, bin, List.take_add_one, List.sum_append]
  congr 1
  by_cases hi : i < h.bins.length
  · rw [List.getElem?_eq_getElem hi, List.getD_eq_getElem _ _ hi]
    simp
  · rw [List.getElem?_eq_none (by omega), List.getD_eq_default _ _ (by omega)]
    simp

/-- and all of them make the total. -/
theorem before_samples (h : Histogram) : h.before h.samples = h.total := by
  rw [before, total, samples_eq, List.take_length]

/-- Cumulative counts only grow. -/
theorem before_mono (h : Histogram) {i k : Nat} (hik : i ≤ k) : h.before i ≤ h.before k := by
  induction k, hik using Nat.le_induction with
  | base => exact le_refl _
  | succ k _ ih =>
    rw [before_succ]
    have := h.bin_nonneg k
    linarith

/-- Empty bins add nothing. -/
theorem before_eq_of_empty (h : Histogram) {i k : Nat} (hik : i ≤ k)
    (hempty : ∀ m, i ≤ m → m < k → h.bin m = 0) : h.before k = h.before i := by
  induction k, hik using Nat.le_induction with
  | base => rfl
  | succ k hk ih =>
    rw [before_succ, hempty k hk (by omega), ih fun m hm hmk => hempty m hm (by omega), add_zero]

/-- Samples rise strictly along the scale. -/
theorem sample_lt (h : Histogram) {i k : Nat} (hik : i < k) (hk : k < h.samples) :
    h.sample i < h.sample k := by
  have hi : i < h.scale.length := by rw [samples] at hk; omega
  rw [sample, sample, List.getD_eq_getElem _ _ hi, List.getD_eq_getElem _ _ hk]
  exact List.pairwise_iff_getElem.mp h.increasing i k hi hk hik

/-- Or stay where they are. -/
theorem sample_le (h : Histogram) {i k : Nat} (hik : i ≤ k) (hk : k < h.samples) :
    h.sample i ≤ h.sample k := by
  rcases Nat.lt_or_eq_of_le hik with hlt | rfl
  · exact le_of_lt (h.sample_lt hlt hk)
  · exact le_refl _

/-! ## Where a midvalue belongs -/

/-- The first non-empty bin. -/
structure First (h : Histogram) (j : Nat) : Prop where
  inside : j < h.samples
  counted : h.bin j ≠ 0
  empty : ∀ k, k < j → h.bin k = 0

/-- The last non-empty bin. -/
structure Last (h : Histogram) (l : Nat) : Prop where
  inside : l < h.samples
  counted : h.bin l ≠ 0
  empty : ∀ k, l < k → k < h.samples → h.bin k = 0

/-- Two neighbouring non-empty bins. -/
structure Neighbours (h : Histogram) (j i : Nat) : Prop where
  inside : i < h.samples
  lt : j < i
  left : h.bin j ≠ 0
  right : h.bin i ≠ 0
  empty : ∀ k, j < k → k < i → h.bin k = 0

/-- The point between two bins that the cumulative count `mid` interpolates to. -/
def between (h : Histogram) (j i : Nat) (mid : ℚ) : ℚ :=
  h.sample j + (h.sample i - h.sample j) * (mid - h.before (j + 1)) /
    (h.before (i + 1) - h.before (j + 1))

/-- `Located mid x` — the location of `mid` is `x`, said of the cumulative counts alone. -/
inductive Located (h : Histogram) (mid : ℚ) : ℚ → Prop
  /-- nothing is counted: the last sample -/
  | empty (hempty : ∀ k, k < h.samples → h.bin k = 0) : Located h mid (h.sample (h.samples - 1))
  /-- within the first non-empty bin -/
  | first {j : Nat} (hj : h.First j) (hmid : mid ≤ h.bin j) : Located h mid (h.sample j)
  /-- above everything counted -/
  | beyond {l : Nat} (hl : h.Last l) (hmid : h.total < mid) : Located h mid (h.sample l)
  /-- in the interval that ends with bin `i` -/
  | between {j i : Nat} (hji : h.Neighbours j i) (hlo : h.before (j + 1) < mid)
      (hhi : mid ≤ h.before (i + 1)) : Located h mid (h.between j i mid)

/-- Up to and with the first non-empty bin, its count is all there is. -/
theorem First.before_succ {h : Histogram} {j : Nat} (hj : h.First j) :
    h.before (j + 1) = h.bin j := by
  rw [h.before_succ, h.before_eq_of_empty (Nat.zero_le j) fun m _ hm => hj.empty m hm,
    before_zero, zero_add]

/-- No bin before it counts. -/
theorem First.le {h : Histogram} {j k : Nat} (hj : h.First j) (hk : h.bin k ≠ 0) : j ≤ k := by
  by_contra hlt
  exact hk (hj.empty k (by omega))

/-- Behind the last non-empty bin nothing is added, -/
theorem Last.total_eq {h : Histogram} {l : Nat} (hl : h.Last l) :
    h.total = h.before (l + 1) := by
  rw [← before_samples]
  exact h.before_eq_of_empty hl.inside fun m hm hms => hl.empty m hm hms

/-- and no bin counts. -/
theorem Last.ge {h : Histogram} {l k : Nat} (hl : h.Last l) (hk : h.bin k ≠ 0)
    (hks : k < h.samples) : k ≤ l := by
  by_contra hlt
  exact hk (hl.empty k (by omega) hks)

/-- No cumulative count is above the total. -/
theorem before_le_total (h : Histogram) {i : Nat} (hi : i ≤ h.samples) : h.before i ≤ h.total := by
  rw [← before_samples]
  exact h.before_mono hi

/-- A count that is not zero is positive. -/
theorem bin_pos (h : Histogram) {i : Nat} (hi : h.bin i ≠ 0) : 0 < h.bin i :=
  lt_of_le_of_ne (h.bin_nonneg i) (Ne.symm hi)

/-- A non-empty bin strictly raises the cumulative count. -/
theorem before_lt_of_counted (h : Histogram) {i k : Nat} (hik : i ≤ k) (hk : h.bin k ≠ 0) :
    h.before i < h.before (k + 1) := by
  have hmono := h.before_mono hik
  have hpos := h.bin_pos hk
  rw [h.before_succ]
  linarith

namespace Neighbours

variable {h : Histogram} {j i : Nat}

/-- The empty bins between two neighbours add nothing, -/
theorem before_eq (hji : h.Neighbours j i) : h.before i = h.before (j + 1) :=
  h.before_eq_of_empty hji.lt fun m hm hmi => hji.empty m hm hmi

/-- so that what the interpolation divides by is the right one's count. -/
theorem width (hji : h.Neighbours j i) : h.before (i + 1) - h.before (j + 1) = h.bin i := by
  rw [h.before_succ, hji.before_eq]
  ring

/-- A non-empty bin is at or before the left one, or at or after the right one. -/
theorem outside (hji : h.Neighbours j i) {k : Nat} (hk : h.bin k ≠ 0) : k ≤ j ∨ i ≤ k := by
  by_contra hin
  exact hk (hji.empty k (by omega) (by omega))

/-- Along the interval the interpolation is monotone, … -/
theorem between_mono (hji : h.Neighbours j i) {mid mid' : ℚ} (hmid : mid ≤ mid') :
    h.between j i mid ≤ h.between j i mid' := by
  have hd := h.bin_pos hji.right
  have hrise := h.sample_lt hji.lt hji.inside
  rw [Histogram.between, Histogram.between, hji.width]
  gcongr

/-- … starts at the left sample, … -/
theorem between_left (h : Histogram) (j i : Nat) :
    h.between j i (h.before (j + 1)) = h.sample j := by
  simp [Histogram.between]

/-- … and ends at the right one. -/
theorem between_right (hji : h.Neighbours j i) :
    h.between j i (h.before (i + 1)) = h.sample i := by
  have hd := h.bin_pos hji.right
  rw [Histogram.between, hji.width]
  field_simp
  ring

end Neighbours

namespace Located

variable {h : Histogram} {mid mid' x x' : ℚ}

/-- Every non-empty bin whose cumulative count is reached lies at or before the location. -/
theorem ge_of_reached (hx : h.Located mid x) {k : Nat} (hk : h.bin k ≠ 0) (hks : k < h.samples)
    (hmid : h.before (k + 1) ≤ mid) : h.sample k ≤ x := by
  cases hx with
  | empty hempty => exact absurd (hempty k hks) hk
  -- reaching a later bin takes more than the first one's count
  | @first j hj hle =>
    refine h.sample_le ?_ hj.inside
    by_contra hjk
    have hlt := h.before_lt_of_counted (show j + 1 ≤ k by omega) hk
    rw [hj.before_succ] at hlt
    linarith
  | beyond hl _ => exact h.sample_le (hl.ge hk hks) hl.inside
  | @between j i hji hlo hhi =>
    rcases hji.outside hk with hkj | hik
    · calc h.sample k ≤ h.sample j := h.sample_le hkj (by have := hji.lt; have := hji.inside; omega)
        _ = h.between j i (h.before (j + 1)) := (Neighbours.between_left h j i).symm
        _ ≤ h.between j i mid := hji.between_mono (le_of_lt hlo)
    · -- the right bin is reached only at the very end of the interval, a later one never
      rcases Nat.lt_or_eq_of_le hik with hlt | rfl
      · have := h.before_lt_of_counted (show i + 1 ≤ k from hlt) hk
        linarith
      · rw [← hji.between_right]
        exact hji.between_mono hmid

/-- Inside the interval of two neighbours the location is their interpolation. -/
theorem eq_between (hx : h.Located mid x) {j i : Nat} (hji : h.Neighbours j i)
    (hlo : h.before (j + 1) < mid) (hhi : mid ≤ h.before (i + 1)) : x = h.between j i mid := by
  cases hx with
  | empty hempty => exact absurd (hempty i hji.inside) hji.right
  | @first j' hj' hle =>
    have hmono := h.before_mono (show j' + 1 ≤ j + 1 from Nat.succ_le_succ (hj'.le hji.left))
    rw [hj'.before_succ] at hmono
    linarith
  | @beyond l hl hgt =>
    have hle := h.before_le_total (show i + 1 ≤ h.samples from hji.inside)
    linarith
  -- two intervals that overlap are one: neighbours have nothing between them
  | @between j' i' hji' hlo' hhi' =>
    rcases hji'.outside hji.right with hle | hge
    · have := h.before_mono (Nat.succ_le_succ hle)
      linarith
    rcases hji.outside hji'.right with hle | hge'
    · have := h.before_mono (Nat.succ_le_succ hle)
      linarith
    obtain rfl : i = i' := Nat.le_antisymm hge' hge
    rcases hji.outside hji'.left with hle | hge₁
    · rcases hji'.outside hji.left with hle' | hge₂
      · obtain rfl : j = j' := Nat.le_antisymm hle' hle
        rfl
      · have := hji.lt
        omega
    · have := hji'.lt
      omega

/-- The first non-empty bin is at or before every location. -/
theorem ge_first (hx : h.Located mid x) {j : Nat} (hj : h.First j) : h.sample j ≤ x := by
  cases hx with
  | empty hempty => exact absurd (hempty j hj.inside) hj.counted
  | first hj' _ => exact h.sample_le (hj.le hj'.counted) hj'.inside
  | beyond hl _ => exact h.sample_le (hj.le hl.counted) hl.inside
  | @between j' i' hji hlo hhi =>
    calc h.sample j ≤ h.sample j' :=
          h.sample_le (hj.le hji.left) (by have := hji.lt; have := hji.inside; omega)
      _ = h.between j' i' (h.before (j' + 1)) := (Neighbours.between_left h j' i').symm
      _ ≤ h.between j' i' mid := hji.between_mono (le_of_lt hlo)

/-- **Locations are non-decreasing in the midvalue.** -/
theorem mono (hx : h.Located mid x) (hx' : h.Located mid' x') (hmid : mid ≤ mid') : x ≤ x' := by
  -- by where the smaller midvalue is
  cases hx with
  | empty hempty =>
    cases hx' with
    | empty _ => exact le_refl _
    | first hj _ => exact absurd (hempty _ hj.inside) hj.counted
    | beyond hl _ => exact absurd (hempty _ hl.inside) hl.counted
    | between hji _ _ => exact absurd (hempty _ hji.inside) hji.right
  | first hj _ => exact hx'.ge_first hj
  -- so is the larger one, which reaches the last bin too
  | @beyond l hl hgt =>
    have hreached : h.before (l + 1) ≤ mid' := by
      rw [← hl.total_eq]
      linarith
    exact hx'.ge_of_reached hl.counted hl.inside hreached
  | @between j i hji hlo hhi =>
    -- both in one interval, or the larger one past its end
    by_cases hin : mid' ≤ h.before (i + 1)
    · rw [hx'.eq_between hji (by linarith) hin]
      exact hji.between_mono hmid
    · calc h.between j i mid ≤ h.between j i (h.before (i + 1)) := hji.between_mono hhi
        _ = h.sample i := hji.between_right
        _ ≤ x' := hx'.ge_of_reached hji.right hji.inside (by linarith)

/-- A midvalue has one location. -/
theorem unique (hx : h.Located mid x) (hx' : h.Located mid x') : x = x' :=
  le_antisymm (hx.mono hx' (le_refl mid)) (hx'.mono hx (le_refl mid))

/-- Past the first non-empty bin's count and within the total, it is between two neighbours. -/
theorem exists_between (hx : h.Located mid x) {f : Nat} (hf : h.First f) (hlo : h.bin f < mid)
    (hhi : mid ≤ h.total) :
    ∃ j i, h.Neighbours j i ∧ h.before (j + 1) < mid ∧ mid ≤ h.before (i + 1) ∧
      x = h.between j i mid := by
  cases hx with
  | empty hempty => exact absurd (hempty f hf.inside) hf.counted
  | @first j hj hmid =>
    obtain rfl : f = j := Nat.le_antisymm (hf.le hj.counted) (hj.le hf.counted)
    linarith
  | beyond hl hmid => linarith
  | @between j i hji hlo' hhi' => exact ⟨j, i, hji, hlo', hhi', rfl⟩

end Located

/-! ## The pass -/

/-- `q` is `p` with its location filled in. -/
def Relocated (h : Histogram) (p q : Partition) : Prop :=
  q.midvalue = p.midvalue ∧ h.Located q.midvalue q.location

/-- The midvalues are not touched. -/
theorem relocated_midvalues {h : Histogram} {ps out : List Partition}
    (hout : List.Forall₂ h.Relocated ps out) :
    out.map Partition.midvalue = ps.map Partition.midvalue := by
  induction hout with
  | nil => rfl
  | cons hpq _ ih => rw [List.map_cons, List.map_cons, hpq.1, ih]

/-- Each element of the result is where it belongs. -/
theorem relocated_located {h : Histogram} {ps out : List Partition}
    (hout : List.Forall₂ h.Relocated ps out) : ∀ q ∈ out, h.Located q.midvalue q.location := by
  induction hout with
  | nil => simp
  | cons hpq _ ih =>
    intro q hq
    rcases List.mem_cons.mp hq with rfl | hq
    · exact hpq.2
    · exact ih q hq

/-- **The loop** that serves partitions up to a bound: it never fails where the location does not,
    and whoever is left is above the bound. -/
theorem locateWhile_spec (h : Histogram) (bound : ℚ) (location : ℚ → Option ℚ) :
    ∀ {ps : List Partition}, (ps.Pairwise fun p q => p.midvalue ≤ q.midvalue) →
      (∀ p ∈ ps, p.midvalue ≤ bound →
        ∃ x, location p.midvalue = some x ∧ h.Located p.midvalue x) →
      ∃ here left served, locateWhile bound location ps = some (served, left) ∧
        ps = here ++ left ∧ List.Forall₂ h.Relocated here served ∧
        ∀ p ∈ left, bound < p.midvalue
  | [], _, _ => ⟨[], [], [], rfl, rfl, .nil, by simp⟩
  | p :: ps, hsorted, hlocation => by
    obtain ⟨hhead, htail⟩ := List.pairwise_cons.mp hsorted
    -- it is served, or it ends the loop: the list is sorted, so all after it are above too
    by_cases hle : p.midvalue ≤ bound
    · obtain ⟨x, hx, hat⟩ := hlocation p (by simp) hle
      obtain ⟨here, left, served, hrun, rfl, hserved, habove⟩ :=
        h.locateWhile_spec bound location htail fun q hq => hlocation q (by simp [hq])
      refine ⟨p :: here, left, { p with location := x } :: served, ?_, rfl, ?_, habove⟩
      · simp [locateWhile, hle, hx, hrun]
      · exact .cons ⟨rfl, hat⟩ hserved
    · refine ⟨[], p :: ps, [], by simp [locateWhile, hle], rfl, .nil, ?_⟩
      intro q hq
      rcases List.mem_cons.mp hq with rfl | hq
      · exact lt_of_not_ge hle
      · exact lt_of_lt_of_le (lt_of_not_ge hle) (hhead q hq)

/-- The loop after the bins: whoever is left goes to the bin `j` stands at. -/
theorem serve_rest (h : Histogram) {j : Nat} (hj : j < h.samples) :
    ∀ (ps : List Partition), (∀ p ∈ ps, h.Located p.midvalue (h.sample j)) →
      ∃ out, (ps.mapM fun p => do return { p with location := ← h.scale[j]? }) = some out ∧
        List.Forall₂ h.Relocated ps out
  | [], _ => ⟨[], rfl, .nil⟩
  | p :: ps, hat => by
    obtain ⟨out, hrun, hout⟩ := h.serve_rest hj ps fun q hq => hat q (by simp [hq])
    rw [h.getElem?_scale hj] at hrun
    refine ⟨{ p with location := h.sample j } :: out, ?_, .cons ⟨rfl, hat p (by simp)⟩ hout⟩
    rw [h.getElem?_scale hj, List.mapM_cons, hrun]
    rfl

/-- A non-empty bin divides. -/
theorem interpolate_eq (h : Histogram) {i j : Nat} (hji : h.Neighbours j i) (mid : ℚ) :
    h.interpolate i j (h.before i) (h.bin i) mid = some (h.between j i mid) := by
  have hj : j < h.samples := lt_trans hji.lt hji.inside
  simp [interpolate, divide, h.getElem?_scale hj, h.getElem?_scale hji.inside, hji.right,
    Histogram.between, hji.width, hji.before_eq]

/-- **The pass over the bins.**  INVARIANT at bin `i`: `j` is the last non-empty bin before it,
    `sum` what is counted before it, and whoever is still to be served is above `sum`. -/
theorem sweep_spec (h : Histogram) {i j : Nat} {ps : List Partition} (hi : i ≤ h.samples)
    (hji : j < i) (hj : h.bin j ≠ 0) (hempty : ∀ k, j < k → k < i → h.bin k = 0)
    (hsorted : ps.Pairwise fun p q => p.midvalue ≤ q.midvalue)
    (habove : ∀ p ∈ ps, h.before i < p.midvalue) :
    ∃ out, h.sweep i j (h.before i) ps = some out ∧ List.Forall₂ h.Relocated ps out := by
  rcases Nat.lt_or_eq_of_le hi with hlt | rfl
  · rw [sweep, if_pos hlt, h.getElem?_bins hlt]
    -- what was counted before `i` is what was counted up to `j`
    have hbefore := h.before_eq_of_empty (show j + 1 ≤ i from hji) fun m hm hmi =>
      hempty m hm hmi
    have hlocation : ∀ p ∈ ps, p.midvalue ≤ h.before i + h.bin i →
        ∃ x, h.interpolate i j (h.before i) (h.bin i) p.midvalue = some x ∧
          h.Located p.midvalue x := by
      intro p hp hle
      -- an empty bin serves nobody: `before i < midvalue ≤ before i + 0`
      have hd : h.bin i ≠ 0 := by
        intro hzero
        have := habove p hp
        rw [hzero, add_zero] at hle
        linarith
      have hneighbours : h.Neighbours j i := ⟨hlt, hji, hj, hd, hempty⟩
      refine ⟨_, h.interpolate_eq hneighbours _, .between hneighbours ?_ ?_⟩
      · rw [← hbefore]
        exact habove p hp
      · rwa [h.before_succ]
    obtain ⟨here, left, served, hrun, rfl, hserved, hleft⟩ := h.locateWhile_spec _ _ hsorted hlocation
    have hsorted' : left.Pairwise fun p q => p.midvalue ≤ q.midvalue :=
      (List.pairwise_append.mp hsorted).2.1
    rw [← h.before_succ] at hleft
    obtain ⟨out, hrest, hout⟩ : ∃ out,
        h.sweep (i + 1) (if h.bin i ≠ 0 then i else j) (h.before (i + 1)) left = some out ∧
          List.Forall₂ h.Relocated left out := by
      -- a non-empty bin is the last one seen from here on; an empty one moves nothing
      by_cases hd : h.bin i ≠ 0
      · rw [if_pos hd]
        exact h.sweep_spec hlt (by omega) hd (fun k _ _ => by omega) hsorted' hleft
      · rw [if_neg hd]
        refine h.sweep_spec hlt (by omega) hj (fun k hjk hki => ?_) hsorted' hleft
        rcases Nat.lt_or_eq_of_le (Nat.le_of_lt_succ hki) with hk | rfl
        · exact hempty k hjk hk
        · exact not_not.mp hd
    refine ⟨served ++ out, ?_, List.rel_append hserved hout⟩
    rw [h.before_succ] at hrest
    simp only [Option.bind_eq_bind, Option.bind_some, hrun, hrest]
    rfl
  · rw [sweep, if_neg (lt_irrefl _)]
    -- no bin is left: `j` was the last
    have hlast : h.Last j := ⟨hji, hj, hempty⟩
    refine h.serve_rest hji _ fun p hp => .beyond hlast ?_
    rw [← h.before_samples]
    exact habove p hp
termination_by h.samples - i

/-- **The search for the first non-empty bin.**  It either finds it, with its count, or stops at the
    last bin having counted nothing before it. -/
theorem seek_spec (h : Histogram) {j : Nat} (hj : j < h.samples)
    (hempty : ∀ k, k < j → h.bin k = 0) :
    ∃ j' sum, h.seek j 0 = some (j', sum) ∧
      ((h.First j' ∧ sum = h.bin j') ∨
        (j' + 1 = h.samples ∧ sum = 0 ∧ ∀ k, k < j' → h.bin k = 0)) := by
  rw [seek]
  by_cases hlt : j + 1 < h.samples
  · rw [if_pos hlt, h.getElem?_bins hj]
    -- it goes on over an empty bin
    by_cases hd : h.bin j = 0
    · obtain ⟨j', sum, hrun, hfound⟩ := h.seek_spec hlt fun k hk => by
        rcases Nat.lt_or_eq_of_le (Nat.le_of_lt_succ hk) with hk | rfl
        · exact hempty k hk
        · exact hd
      exact ⟨j', sum, by simp [hd, hrun], hfound⟩
    · exact ⟨j, h.bin j, by simp [hd], .inl ⟨⟨hj, hd, hempty⟩, rfl⟩⟩
  · rw [if_neg hlt]
    -- it stops at the last bin without reading it, with `sum` as it was
    exact ⟨j, 0, rfl, .inr ⟨by omega, rfl, hempty⟩⟩
termination_by h.samples - j

/-- Where nothing is counted before the last bin, everything is located there. -/
theorem located_at_last (h : Histogram) {j : Nat} (hj : j + 1 = h.samples)
    (hempty : ∀ k, k < j → h.bin k = 0) (mid : ℚ) : h.Located mid (h.sample j) := by
  -- the last bin may be empty too, or be the first and the last to count
  by_cases hd : h.bin j = 0
  · have hall : ∀ k, k < h.samples → h.bin k = 0 := by
      intro k hk
      rcases Nat.lt_or_eq_of_le (show k ≤ j by omega) with hk | rfl
      · exact hempty k hk
      · exact hd
    have hat : h.Located mid (h.sample (h.samples - 1)) := .empty hall
    rwa [show h.samples - 1 = j by omega] at hat
  · have hfirst : h.First j := ⟨by omega, hd, hempty⟩
    by_cases hle : mid ≤ h.bin j
    · exact .first hfirst hle
    · have hlast : h.Last j := ⟨by omega, hd, fun k _ _ => by omega⟩
      refine .beyond hlast ?_
      rw [hlast.total_eq, hfirst.before_succ]
      exact lt_of_not_ge hle

/-- `find_partitions` never fails, and every partition ends up where its midvalue belongs. -/
theorem findPartitions_relocates (h : Histogram) {partitions : List Partition}
    (sorting : Sorting partitions) :
    ∃ out, h.findPartitions sorting = some out ∧
      List.Forall₂ h.Relocated sorting.sorted out := by
  have hpos : 0 < h.samples := by rw [samples_eq]; exact h.nonEmpty
  have hsorted : sorting.sorted.Pairwise fun p q => p.midvalue ≤ q.midvalue :=
    sorting.ordered.imp fun hpq => le_of_not_gt hpq
  obtain ⟨j, sum, hseek, ⟨hfirst, rfl⟩ | ⟨hj, rfl, hempty⟩⟩ :=
    h.seek_spec hpos fun k hk => absurd hk (Nat.not_lt_zero k)
  · -- a bin that counts was found: those within its count are served, the pass serves the others
    obtain ⟨here, left, served, hrun, hsplit, hserved, hleft⟩ :=
      h.locateWhile_spec (h.bin j) (fun _ => h.scale[j]?) hsorted fun p _ hle =>
        ⟨_, h.getElem?_scale hfirst.inside, .first hfirst hle⟩
    rw [hsplit] at hsorted
    rw [← hfirst.before_succ] at hleft
    obtain ⟨out, hrest, hout⟩ := h.sweep_spec hfirst.inside (Nat.lt_succ_self j) hfirst.counted
      (fun k _ _ => by omega) (List.pairwise_append.mp hsorted).2.1 hleft
    rw [hfirst.before_succ] at hrest
    refine ⟨served ++ out, by simp [findPartitions, hseek, hrun, hrest], ?_⟩
    rw [hsplit]
    exact List.rel_append hserved hout
  · -- the search gave up on the last bin, which nothing below looks at either
    have hat := h.located_at_last hj hempty
    obtain ⟨here, left, served, hrun, hsplit, hserved, _⟩ :=
      h.locateWhile_spec 0 (fun _ => h.scale[j]?) hsorted fun p _ _ =>
        ⟨_, h.getElem?_scale (show j < h.samples by omega), hat _⟩
    obtain ⟨out, hrest, hout⟩ := h.serve_rest (show j < h.samples by omega) left
      fun p _ => hat _
    have hsweep : h.sweep (j + 1) j 0 left = some out := by
      rw [sweep, if_neg (by omega), hrest]
    refine ⟨served ++ out, by simp [findPartitions, hseek, hrun, hsweep], ?_⟩
    rw [hsplit]
    exact List.rel_append hserved hout

/-- **Where `find_partitions` puts the partitions.** Whatever the counts, the scale, the partitions
    and the rearrangement `std::sort` settles on: no division by zero occurs and the call returns
    the sorted partitions with their locations, which are non-decreasing in the midvalue; and each
    midvalue is at the first non-empty bin, at the last one, or interpolated between the two
    neighbours around it, as the cumulative counts say. -/
theorem find_partitions_locates (h : Histogram) {partitions : List Partition}
    (sorting : Sorting partitions) :
    ∃ out, h.findPartitions sorting = some out ∧
      out.map Partition.midvalue = sorting.sorted.map Partition.midvalue ∧
      (∀ p ∈ out, ∀ q ∈ out, p.midvalue ≤ q.midvalue → p.location ≤ q.location) ∧
      ∀ p ∈ out,
        ((∀ k, k < h.samples → h.bin k = 0) → p.location = h.sample (h.samples - 1)) ∧
        (∀ j, h.First j → p.midvalue ≤ h.bin j → p.location = h.sample j) ∧
        (∀ l, h.Last l → h.total < p.midvalue → p.location = h.sample l) ∧
        (∀ f, h.First f → h.bin f < p.midvalue → p.midvalue ≤ h.total →
          ∃ j i, h.Neighbours j i ∧ h.before (j + 1) < p.midvalue ∧
            p.midvalue ≤ h.before (i + 1) ∧ p.location = h.between j i p.midvalue) := by
  obtain ⟨out, hrun, hout⟩ := h.findPartitions_relocates sorting
  have hat := relocated_located hout
  refine ⟨out, hrun, relocated_midvalues hout,
    fun p hp q hq hpq => (hat p hp).mono (hat q hq) hpq, fun p hp => ?_⟩
  -- each case of `Located` excludes the others
  exact ⟨fun hempty => (hat p hp).unique (.empty hempty),
    fun j hj hmid => (hat p hp).unique (.first hj hmid),
    fun l hl hmid => (hat p hp).unique (.beyond hl hmid),
    fun f hf hlo hhi => (hat p hp).exists_between hf hlo hhi⟩

/-- Empty bins before, between and after the two that count. -/
def gapped : Histogram where
  bins := [0, 2, 0, 0, 4, 0]
  scale := [10, 11, 12, 13, 14, 15]
  sameSize := rfl
  nonEmpty := by decide
  nonNegative := by decide +kernel
  increasing := by decide +kernel

/-- One beyond all that is counted, one in the first bin that counts, one between the two. -/
def threeFractions : List Partition := [⟨7, 0⟩, ⟨1, 0⟩, ⟨3, 0⟩]

/-- In order of their midvalues. -/
def threeSorted : Sorting threeFractions where
  sorted := [⟨1, 0⟩, ⟨3, 0⟩, ⟨7, 0⟩]
  perm := by decide +kernel
  ordered := by norm_num [partitionLess]

theorem find_partitions_locates_gapped :
    ∃ out, gapped.findPartitions threeSorted = some out ∧
      out = [⟨1, 11⟩, ⟨3, 47 / 4⟩, ⟨7, 14⟩] ∧
      ∀ p ∈ out, ∀ q ∈ out, p.midvalue ≤ q.midvalue → p.location ≤ q.location := by
  have hrun : gapped.findPartitions threeSorted = some [⟨1, 11⟩, ⟨3, 47 / 4⟩, ⟨7, 14⟩] := by
    decide +kernel
  obtain ⟨out, hout, -, hmono, -⟩ := find_partitions_locates gapped threeSorted
  exact ⟨out, hout, Option.some.inj (hout.symm.trans hrun), hmono⟩

end Histogram

end MicroProfiler.Math
