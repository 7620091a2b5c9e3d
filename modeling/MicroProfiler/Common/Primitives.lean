/-
  The counters of `common/primitives.h`: `function_statistics` and its two `add` helpers.

  Timestamps are `Int` and call counts `Nat`: the machine types' wrap-around is left out.  Two
  facts carry everything that is proved about merged statistics later:

  * a node's statistics are the FOLD of the calls accounted to it (`ofCalls`), and `ofCalls_eq`
    gives the fold in closed form: a length, two sums and a maximum clipped at `0`;
  * merging the statistics of two call lists is the statistics of their concatenation
    (`add_ofCalls`).  The clip matters: `max_call_time` starts at `0`, so `0` is neutral for the
    merge although call times may be negative once overheads are subtracted.
-/
import Mathlib.Data.List.Basic
import Mathlib.Tactic.Linarith
import Mathlib.Algebra.BigOperators.Group.List.Basic

namespace MicroProfiler

/-- `struct overhead`: what the instrumentation itself costs around a call. -/
structure Overhead where
  /-- Observed between the entry and the exit measurement of a leaf function. -/
  inner : Int
  /-- Observed by a parent, in addition to `inner`, when making a call. -/
  outer : Int
deriving DecidableEq, Repr

/-- `struct call_record`: an enter carries its callee, an exit carries the null pointer. -/
structure CallRecord (K : Type) where
  timestamp : Int
  callee : Option K
deriving DecidableEq, Repr

/-- `struct function_statistics`. -/
structure FunctionStatistics where
  timesCalled : Nat := 0
  inclusiveTime : Int := 0
  exclusiveTime : Int := 0
  maxCallTime : Int := 0
deriving DecidableEq, Repr

namespace FunctionStatistics

/-- `add(function_statistics &, timestamp_t, timestamp_t)`: account one finished call. -/
def addCall (lhs : FunctionStatistics) (inclusive exclusive : Int) : FunctionStatistics where
  timesCalled := lhs.timesCalled + 1
  inclusiveTime := lhs.inclusiveTime + inclusive
  exclusiveTime := lhs.exclusiveTime + exclusive
  maxCallTime := if inclusive > lhs.maxCallTime then inclusive else lhs.maxCallTime

/-- `add(function_statistics &, const function_statistics &)`: merge two accounts. -/
def add (lhs rhs : FunctionStatistics) : FunctionStatistics where
  timesCalled := lhs.timesCalled + rhs.timesCalled
  inclusiveTime := lhs.inclusiveTime + rhs.inclusiveTime
  exclusiveTime := lhs.exclusiveTime + rhs.exclusiveTime
  maxCallTime := if rhs.maxCallTime > lhs.maxCallTime then rhs.maxCallTime else lhs.maxCallTime

/-- The account of a list of calls, given as (inclusive, exclusive) pairs in order. -/
def ofCalls (calls : List (Int × Int)) : FunctionStatistics :=
  calls.foldl (fun s c => s.addCall c.1 c.2) {}

/-! ## The merge laws -/

theorem ite_gt_eq_max (a b : Int) : (if a > b then a else b) = max b a := by
  rcases lt_or_ge b a with h | h
  · rw [if_pos h, max_eq_right h.le]
  · rw [if_neg (not_lt.mpr h), max_eq_left h]

theorem addCall_maxCallTime (s : FunctionStatistics) (i e : Int) :
    (s.addCall i e).maxCallTime = max s.maxCallTime i := ite_gt_eq_max i s.maxCallTime

theorem add_maxCallTime (s t : FunctionStatistics) :
    (s.add t).maxCallTime = max s.maxCallTime t.maxCallTime :=
  ite_gt_eq_max t.maxCallTime s.maxCallTime

@[ext] theorem ext {s t : FunctionStatistics} (hc : s.timesCalled = t.timesCalled)
    (hi : s.inclusiveTime = t.inclusiveTime) (he : s.exclusiveTime = t.exclusiveTime)
    (hm : s.maxCallTime = t.maxCallTime) : s = t := by
  cases s; cases t; simp_all

/-- A later account folded onto `s` adds its count and sums to `s` and raises its maximum. -/
theorem foldl_addCall (calls : List (Int × Int)) : ∀ s : FunctionStatistics,
    calls.foldl (fun s c => s.addCall c.1 c.2) s =
      { timesCalled := s.timesCalled + calls.length
        inclusiveTime := s.inclusiveTime + (calls.map Prod.fst).sum
        exclusiveTime := s.exclusiveTime + (calls.map Prod.snd).sum
        maxCallTime := (calls.map Prod.fst).foldl max s.maxCallTime } := by
  induction calls with
  | nil => intro s; cases s; simp
  | cons c calls ih =>
    intro s
    rw [List.foldl_cons, ih]
    ext
    · simp only [addCall, List.length_cons]; omega
    · simp only [addCall, List.map_cons, List.sum_cons]; omega
    · simp only [addCall, List.map_cons, List.sum_cons]; omega
    · simp only [List.map_cons, List.foldl_cons, addCall_maxCallTime]

/-- **The account in closed form.** -/
theorem ofCalls_eq (calls : List (Int × Int)) :
    ofCalls calls =
      { timesCalled := calls.length
        inclusiveTime := (calls.map Prod.fst).sum
        exclusiveTime := (calls.map Prod.snd).sum
        maxCallTime := (calls.map Prod.fst).foldl max 0 } := by
  rw [ofCalls, foldl_addCall]
  simp

theorem ofCalls_append_singleton (calls : List (Int × Int)) (c : Int × Int) :
    ofCalls (calls ++ [c]) = (ofCalls calls).addCall c.1 c.2 := by
  rw [ofCalls, List.foldl_append]
  rfl

/-- A maximum folded from a larger seed splits off the seed. -/
theorem foldl_max_eq (l : List Int) : ∀ a b : Int, a ≤ b → l.foldl max b = max b (l.foldl max a) := by
  induction l with
  | nil => intro a b hab; exact (max_eq_left hab).symm
  | cons x l ih =>
    intro a b hab
    rw [List.foldl_cons, List.foldl_cons, ih (max a x) (max b x) (max_le_max_right x hab)]
    have hle : max a x ≤ l.foldl max (max a x) := by
      rw [ih (max a x) (max a x) le_rfl]; exact le_max_left _ _
    have hx : x ≤ l.foldl max (max a x) := le_trans (le_max_right a x) hle
    rw [max_assoc, max_eq_right hx]

/-- The clipped maximum is never negative, and bounds every call it was folded from. -/
theorem le_foldl_max (l : List Int) (a : Int) : a ≤ l.foldl max a := by
  rw [foldl_max_eq l a a le_rfl]
  exact le_max_left _ _

/-- **Merging accounts is concatenating call lists.** -/
theorem add_ofCalls (xs ys : List (Int × Int)) :
    (ofCalls xs).add (ofCalls ys) = ofCalls (xs ++ ys) := by
  ext
  · simp [add, ofCalls_eq]
  · simp [add, ofCalls_eq]
  · simp [add, ofCalls_eq]
  · rw [add_maxCallTime, ofCalls_eq, ofCalls_eq, ofCalls_eq]
    simp only [List.map_append, List.foldl_append]
    exact (foldl_max_eq _ 0 _ (le_foldl_max _ 0)).symm

@[simp] theorem ofCalls_nil : ofCalls [] = {} := rfl

end FunctionStatistics

end MicroProfiler
