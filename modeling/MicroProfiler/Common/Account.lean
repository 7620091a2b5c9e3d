/-
  Accounts: a set of places, some of which have been touched, and the calls booked on them.

  A statistics map (collector side), a statistics table (frontend side) and a whole trace all come
  down to one thing: which places exist, and which (inclusive, exclusive) times were booked where.
  `Account.stats` reads that as `FunctionStatistics`, and `stats_append` is the one law everything
  incremental rests on: adding a second account's readings to the first one's is reading the two
  accounts together.
-/
import MicroProfiler.Common.Primitives
import MicroProfiler.Lib.Keys
import Mathlib.Logic.Function.Basic

namespace MicroProfiler

/-- Places touched, and calls booked on places in order, as `(place, inclusive, exclusive)`. -/
structure Account (P : Type) where
  touched : List P
  calls : List (P × Int × Int)

namespace Account

variable {P : Type} [DecidableEq P]

/-- Nothing touched, nothing booked. -/
def empty : Account P := ⟨[], []⟩

/-- Two accounts, the second one later. -/
def append (a b : Account P) : Account P := ⟨a.touched ++ b.touched, a.calls ++ b.calls⟩

/-- The (inclusive, exclusive) times booked on `p`, in order. -/
def callsAt (a : Account P) (p : P) : List (Int × Int) :=
  (a.calls.filter fun c => c.1 = p).map Prod.snd

/-- What the account says about `p`: nothing, or the statistics of its calls. -/
def stats (a : Account P) (p : P) : Option FunctionStatistics :=
  if p ∈ a.touched then some (.ofCalls (a.callsAt p)) else none

/-- Calls are booked on touched places only. -/
def Closed (a : Account P) : Prop := ∀ c ∈ a.calls, c.1 ∈ a.touched

/-- A reading that takes another one in: a missing place counts as zeroes. -/
def absorbed (s : Option FunctionStatistics) : Option FunctionStatistics → Option FunctionStatistics
  | none => s
  | some v => some ((s.getD {}).add v)

/-- Statistics added to one place. -/
def absorb (F : P → Option FunctionStatistics) (x : P × FunctionStatistics) :
    P → Option FunctionStatistics :=
  Function.update F x.1 (absorbed (F x.1) (some x.2))

omit [DecidableEq P] in
/-- The empty account books nothing. -/
theorem empty_closed : (empty : Account P).Closed := fun _ hc => absurd hc List.not_mem_nil

omit [DecidableEq P] in
/-- Booked on touched places, before or after. -/
theorem Closed.append {a b : Account P} (ha : a.Closed) (hb : b.Closed) : (a.append b).Closed := by
  intro c hc
  rcases List.mem_append.mp hc with h | h
  · exact List.mem_append_left _ (ha c h)
  · exact List.mem_append_right _ (hb c h)

omit [DecidableEq P] in
/-- Touched in one or in the other. -/
theorem mem_touched_append (a b : Account P) (p : P) :
    p ∈ (a.append b).touched ↔ p ∈ a.touched ∨ p ∈ b.touched := List.mem_append

/-- The calls on a place, the later ones last. -/
theorem callsAt_append (a b : Account P) (p : P) :
    (a.append b).callsAt p = a.callsAt p ++ b.callsAt p := by
  simp [callsAt, append]

/-- A closed account has no calls on an untouched place. -/
theorem Closed.callsAt_eq_nil {a : Account P} (ha : a.Closed) {p : P} (hp : p ∉ a.touched) :
    a.callsAt p = [] := by
  rw [callsAt, List.map_eq_nil_iff, List.filter_eq_nil_iff]
  intro c hc heq
  exact hp (of_decide_eq_true heq ▸ ha c hc)

/-- An untouched place of a closed account reads as zeroes. -/
theorem Closed.stats_getD {a : Account P} (ha : a.Closed) (p : P) :
    (a.stats p).getD {} = .ofCalls (a.callsAt p) := by
  by_cases hp : p ∈ a.touched
  · rw [stats, if_pos hp]; rfl
  · rw [stats, if_neg hp, ha.callsAt_eq_nil hp]; rfl

/-- **Reading two accounts together** is the first reading that takes the second one in. -/
theorem stats_append {a b : Account P} (ha : a.Closed) (hb : b.Closed) (p : P) :
    (a.append b).stats p = absorbed (a.stats p) (b.stats p) := by
  by_cases hp : p ∈ b.touched
  · -- touched in the second account: its calls are added, to zeroes if need be
    have hb' : b.stats p = some (.ofCalls (b.callsAt p)) := if_pos hp
    rw [hb', absorbed, ha.stats_getD, FunctionStatistics.add_ofCalls, stats,
      if_pos ((mem_touched_append a b p).mpr (Or.inr hp)), callsAt_append]
  · -- not touched there: no calls come, and nothing changes
    have hb' : b.stats p = none := if_neg hp
    rw [hb', absorbed, stats, stats, callsAt_append, hb.callsAt_eq_nil hp, List.append_nil]
    simp only [mem_touched_append, hp, or_false]

/-- What is found for a place is all that is added to it. -/
theorem foldl_absorb_find (xs : List (P × FunctionStatistics)) (F : P → Option FunctionStatistics)
    (hnodup : (xs.map Prod.fst).Nodup) (p : P) :
    xs.foldl absorb F p = absorbed (F p) ((xs.find? fun x => x.1 = p).map Prod.snd) := by
  induction xs generalizing F with
  | nil => rfl
  | cons x xs ih =>
    obtain ⟨hx, hrest⟩ := List.nodup_cons.mp hnodup
    rw [List.foldl_cons, ih _ hrest, List.find?_cons]
    by_cases hp : x.1 = p
    · -- the place of the head: the tail has none of it
      have hnone : (xs.find? fun y => y.1 = p) = none := by
        rw [List.find?_eq_none]
        intro y hy heq
        exact hx (List.mem_map.mpr ⟨y, hy, (of_decide_eq_true heq).trans hp.symm⟩)
      subst hp
      simp [hnone, absorb, absorbed]
    · simp [hp, absorb, Function.update_of_ne (Ne.symm hp)]

/-- **Statistics added one place after the other**, no place twice. -/
theorem foldl_absorb {G : P → Option FunctionStatistics} (xs : List (P × FunctionStatistics))
    (F : P → Option FunctionStatistics) (hnodup : (xs.map Prod.fst).Nodup) (p : P)
    (hG : ∀ v, (p, v) ∈ xs ↔ G p = some v) : xs.foldl absorb F p = absorbed (F p) (G p) := by
  have hread : (xs.find? fun x => x.1 = p).map Prod.snd = G p :=
    Option.ext fun v => (Lib.find?_pair_eq_some hnodup).trans (hG v)
  rw [foldl_absorb_find xs F hnodup p, hread]

/-- A reading depends on the touched places as a set only. -/
theorem stats_congr {a b : Account P} (hc : a.calls = b.calls) (p : P)
    (ht : p ∈ a.touched ↔ p ∈ b.touched) : a.stats p = b.stats p := by
  simp only [stats, callsAt, hc, ht]

/-- A reading is there exactly for touched places. -/
theorem stats_isSome_iff (a : Account P) (p : P) : (a.stats p).isSome ↔ p ∈ a.touched := by
  by_cases h : p ∈ a.touched <;> simp [stats, h]

/-- Touching one more place. -/
theorem stats_touch {a : Account P} (ha : a.Closed) (x p : P) :
    stats ⟨x :: a.touched, a.calls⟩ p =
      if p = x then some ((a.stats p).getD {}) else a.stats p := by
  by_cases hpx : p = x
  · subst hpx
    by_cases h : p ∈ a.touched
    · simp [stats, callsAt, h]
    · have hnil := ha.callsAt_eq_nil h
      simp only [callsAt] at hnil
      simp [stats, callsAt, h, hnil]
  · simp [stats, callsAt, hpx]

/-- Booking one more call. -/
theorem stats_book (a : Account P) (x : P) (i e : Int) (p : P) :
    stats ⟨a.touched, a.calls ++ [(x, i, e)]⟩ p =
      if p = x then (a.stats p).map (·.addCall i e) else a.stats p := by
  by_cases hpx : p = x
  · subst hpx
    by_cases h : p ∈ a.touched
    · simp [stats, callsAt, h, FunctionStatistics.ofCalls_append_singleton]
    · simp [stats, h]
  · have hxp : ¬ x = p := fun h => hpx h.symm
    simp [stats, callsAt, hpx, hxp]

end Account

end MicroProfiler
