/-
  Pairs of identified values with equal keys.

  `sources` and `sources'` are identified values with keys of one type.  `Joins` says that `pairs`
  lists, once each, the identities of a value on the left and a value on the right whose keys are
  equal.

  1. `Joins.swap` — the two sides are interchangeable.
  2. `Joins.added`, `Joins.dropped` — a value comes to, or goes from, the left; `joins_nil` — the
     left is empty.
  3. `Joins.congr` — only the identities and the keys of the values matter.
  4. `Repeats` — values paired among themselves, where a value that came late was paired with itself
     from either side: what is listed twice, and when nothing is (`Repeats.joins_iff`).

  Nothing here names the program.
-/
import Mathlib.Data.List.Perm.Basic
import Mathlib.Data.List.Nodup
import Mathlib.Data.Prod.Basic

namespace MicroProfiler.Lib

variable {I J T T' Q : Type} {k : T → Q} {k' : T' → Q}

/-- The values the pair identifies have equal keys. -/
def Matched (k : T → Q) (k' : T' → Q) (sources : List (I × T)) (sources' : List (J × T'))
    (p : I × J) : Prop :=
  ∃ v v', (p.1, v) ∈ sources ∧ (p.2, v') ∈ sources' ∧ k v = k' v'

/-- `pairs` lists the matched pairs. -/
structure Joins (k : T → Q) (k' : T' → Q) (sources : List (I × T)) (sources' : List (J × T'))
    (pairs : List (I × J)) : Prop where
  /-- no pair twice -/
  nodup : pairs.Nodup
  mem_iff : ∀ p, p ∈ pairs ↔ Matched k k' sources sources' p

/-- Equal keys are equal from either side. -/
theorem Matched.swap {sources : List (I × T)} {sources' : List (J × T')} {p : I × J}
    (h : Matched k k' sources sources' p) : Matched k' k sources' sources p.swap := by
  obtain ⟨v, v', hv, hv', hkey⟩ := h
  exact ⟨v', v, hv', hv, hkey.symm⟩

/-- What is shown for the left holds for the right, through this. -/
theorem Joins.swap {sources : List (I × T)} {sources' : List (J × T')} {pairs : List (I × J)}
    (h : Joins k k' sources sources' pairs) :
    Joins k' k sources' sources (pairs.map Prod.swap) where
  nodup := h.nodup.map Prod.swap_injective
  mem_iff := by
    intro p
    rw [List.mem_map]
    constructor
    · rintro ⟨p', hp', rfl⟩
      exact ((h.mem_iff p').mp hp').swap
    · intro hp
      exact ⟨p.swap, (h.mem_iff _).mpr hp.swap, Prod.swap_swap p⟩

/-- With nothing on the left there is nothing to list. -/
theorem joins_nil (sources' : List (J × T')) : Joins k k' ([] : List (I × T)) sources' [] where
  nodup := List.nodup_nil
  mem_iff := by
    intro p
    constructor
    · exact nofun
    · rintro ⟨_, _, hv, _⟩
      exact absurd hv List.not_mem_nil

/-- **Only identities and keys matter.** -/
theorem Joins.congr {sources₁ sources₂ : List (I × T)} {sources' : List (J × T')}
    {pairs : List (I × J)} (h : Joins k k' sources₁ sources' pairs)
    (hkeys : ∀ i q, (∃ v, (i, v) ∈ sources₁ ∧ k v = q) ↔ ∃ v, (i, v) ∈ sources₂ ∧ k v = q) :
    Joins k k' sources₂ sources' pairs where
  nodup := h.nodup
  mem_iff := by
    intro p
    rw [h.mem_iff p]
    constructor
    · rintro ⟨v, v', hv, hv', hkey⟩
      obtain ⟨w, hw, hwkey⟩ := (hkeys _ _).mp ⟨v, hv, hkey⟩
      exact ⟨w, v', hw, hv', hwkey⟩
    · rintro ⟨v, v', hv, hv', hkey⟩
      obtain ⟨w, hw, hwkey⟩ := (hkeys _ _).mpr ⟨v, hv, hkey⟩
      exact ⟨w, v', hw, hv', hwkey⟩

/-- **A value comes**: it is paired with the values of its key on the other side. -/
theorem Joins.added {sources sources₁ : List (I × T)} {sources' : List (J × T')}
    {pairs : List (I × J)} (h : Joins k k' sources sources' pairs) {i : I} {v : T}
    (hsources : ∀ s, s ∈ sources₁ ↔ s ∈ sources ∨ s = (i, v))
    (hnew : ∀ v', (i, v') ∉ sources) {others : List J} (hnodup : others.Nodup)
    (hothers : ∀ j, j ∈ others ↔ ∃ v', (j, v') ∈ sources' ∧ k' v' = k v) :
    Joins k k' sources₁ sources' (pairs ++ others.map (Prod.mk i)) where
  nodup := by
    refine List.nodup_append.mpr ⟨h.nodup, hnodup.map (Prod.mk_right_injective i), ?_⟩
    intro p hp p' hp' heq
    -- the new pairs have the new value on the left, the old ones cannot
    obtain ⟨j, _, rfl⟩ := List.mem_map.mp hp'
    obtain ⟨v', _, hv', _⟩ := (h.mem_iff p).mp hp
    rw [heq] at hv'
    exact hnew v' hv'
  mem_iff := by
    intro p
    rw [List.mem_append, h.mem_iff p, List.mem_map]
    constructor
    · -- a pair listed is of old values or of the new one
      rintro (⟨w, w', hw, hw', hkey⟩ | ⟨j, hj, rfl⟩)
      · exact ⟨w, w', (hsources _).mpr (Or.inl hw), hw', hkey⟩
      · obtain ⟨w', hw', hkey⟩ := (hothers j).mp hj
        exact ⟨v, w', (hsources _).mpr (Or.inr rfl), hw', hkey.symm⟩
    · -- and a matched pair has an old value on the left, or the new one
      rintro ⟨w, w', hw, hw', hkey⟩
      rcases (hsources _).mp hw with hw | heq
      · exact Or.inl ⟨w, w', hw, hw', hkey⟩
      · obtain ⟨hi, rfl⟩ := Prod.mk.inj heq
        refine Or.inr ⟨p.2, (hothers p.2).mpr ⟨w', hw', hkey.symm⟩, ?_⟩
        exact Prod.ext hi.symm rfl

/-- **A value goes**, and its pairs with it. -/
theorem Joins.dropped [DecidableEq I] {sources : List (I × T)} {sources' : List (J × T')}
    {pairs : List (I × J)} (h : Joins k k' sources sources' pairs) (i : I) :
    Joins k k' (sources.filter fun s => s.1 ≠ i) sources' (pairs.filter fun p => p.1 ≠ i) where
  nodup := h.nodup.filter _
  mem_iff := by
    intro p
    rw [List.mem_filter, h.mem_iff p, decide_eq_true_eq]
    constructor
    · rintro ⟨⟨v, v', hv, hv', hkey⟩, hne⟩
      exact ⟨v, v', List.mem_filter.mpr ⟨hv, decide_eq_true hne⟩, hv', hkey⟩
    · rintro ⟨v, v', hv, hv', hkey⟩
      obtain ⟨hv, hne⟩ := List.mem_filter.mp hv
      exact ⟨⟨v, v', hv, hv', hkey⟩, of_decide_eq_true hne⟩

/-! ## Values paired among themselves -/

/-- A value comes to the right. -/
theorem Joins.added_right {sources : List (I × T)} {sources' sources₁ : List (J × T')}
    {pairs : List (I × J)} (h : Joins k k' sources sources' pairs) {j : J} {v' : T'}
    (hsources : ∀ s, s ∈ sources₁ ↔ s ∈ sources' ∨ s = (j, v'))
    (hnew : ∀ v, (j, v) ∉ sources') {others : List I} (hnodup : others.Nodup)
    (hothers : ∀ i, i ∈ others ↔ ∃ v, (i, v) ∈ sources ∧ k v = k' v') :
    Joins k k' sources sources₁ (pairs ++ others.map fun i => (i, j)) := by
  have hswap := (h.swap.added hsources hnew hnodup hothers).swap
  rw [List.map_append, List.map_map, List.map_map, Prod.swap_swap_eq, List.map_id] at hswap
  exact hswap

/-- A value goes from the right. -/
theorem Joins.dropped_right [DecidableEq J] {sources : List (I × T)} {sources' : List (J × T')}
    {pairs : List (I × J)} (h : Joins k k' sources sources' pairs) (j : J) :
    Joins k k' sources (sources'.filter fun s => s.1 ≠ j) (pairs.filter fun p => p.2 ≠ j) := by
  have hswap := (h.swap.dropped j).swap
  rw [List.filter_map, List.map_map, Prod.swap_swap_eq, List.map_id] at hswap
  exact hswap

/-- Only identities and keys matter, where the two sides are the same values. -/
theorem matched_congr {sources₁ sources₂ : List (I × T)} {k' : T → Q}
    (hkeys : ∀ i q, (∃ v, (i, v) ∈ sources₁ ∧ k v = q) ↔ ∃ v, (i, v) ∈ sources₂ ∧ k v = q)
    (hkeys' : ∀ i q, (∃ v, (i, v) ∈ sources₁ ∧ k' v = q) ↔ ∃ v, (i, v) ∈ sources₂ ∧ k' v = q)
    {p : I × I} (h : Matched k k' sources₁ sources₁ p) : Matched k k' sources₂ sources₂ p := by
  obtain ⟨v, v', hv, hv', hkey⟩ := h
  obtain ⟨w, hw, hwkey⟩ := (hkeys _ _).mp ⟨v, hv, rfl⟩
  obtain ⟨w', hw', hwkey'⟩ := (hkeys' _ _).mp ⟨v', hv', rfl⟩
  exact ⟨w, w', hw, hw', hwkey.trans (hkey.trans hwkey'.symm)⟩

section Repeats

variable {k' : T → Q} {sources sources₁ : List (I × T)} {late : I → Prop} {pairs : List (I × I)}

/-- `pairs` lists the matched pairs, those of a late value with itself twice. -/
def Repeats (k k' : T → Q) (sources : List (I × T)) (late : I → Prop) (pairs : List (I × I)) :
    Prop :=
  ∃ base extra, Joins k k' sources sources base ∧ pairs.Perm (base ++ extra) ∧
    ∀ p, p ∈ extra ↔ p.1 = p.2 ∧ late p.1 ∧ Matched k k' sources sources p

/-- As long as nothing came late nothing is repeated. -/
theorem Joins.repeats (h : Joins k k' sources sources pairs) (hlate : ∀ i, ¬ late i) :
    Repeats k k' sources late pairs := by
  refine ⟨pairs, [], h, by rw [List.append_nil], fun p => ?_⟩
  exact ⟨fun hp => absurd hp List.not_mem_nil, fun hp => absurd hp.2.1 (hlate _)⟩

/-- **Nothing is repeated** if and only if no late value matches itself. -/
theorem Repeats.joins_iff (h : Repeats k k' sources late pairs) :
    Joins k k' sources sources pairs ↔ ∀ i, late i → ¬ Matched k k' sources sources (i, i) := by
  obtain ⟨base, extra, hbase, hperm, hextra⟩ := h
  constructor
  · -- a late value that matches itself is in the list and among the extra ones
    intro hjoins i hlate hmatched
    have hin : (i, i) ∈ extra := (hextra (i, i)).mpr ⟨rfl, hlate, hmatched⟩
    have hnodup := hperm.nodup_iff.mp hjoins.nodup
    exact (List.disjoint_of_nodup_append hnodup) ((hbase.mem_iff _).mpr hmatched) hin
  · intro hnone
    -- otherwise there are no extra ones
    have hnil : extra = [] := by
      refine List.eq_nil_iff_forall_not_mem.mpr fun p hp => ?_
      obtain ⟨heq, hlate, hmatched⟩ := (hextra p).mp hp
      obtain ⟨i, j⟩ := p
      obtain rfl : i = j := heq
      exact hnone i hlate hmatched
    rw [hnil, List.append_nil] at hperm
    exact ⟨hperm.nodup_iff.mpr hbase.nodup, fun p => hperm.mem_iff.trans (hbase.mem_iff p)⟩

/-- Only identities and keys matter here, too. -/
theorem Repeats.congr (h : Repeats k k' sources late pairs)
    (hkeys : ∀ i q, (∃ v, (i, v) ∈ sources ∧ k v = q) ↔ ∃ v, (i, v) ∈ sources₁ ∧ k v = q)
    (hkeys' : ∀ i q, (∃ v, (i, v) ∈ sources ∧ k' v = q) ↔ ∃ v, (i, v) ∈ sources₁ ∧ k' v = q) :
    Repeats k k' sources₁ late pairs := by
  obtain ⟨base, extra, hbase, hperm, hextra⟩ := h
  have hboth : ∀ p, Matched k k' sources sources p ↔ Matched k k' sources₁ sources₁ p := fun p =>
    ⟨matched_congr hkeys hkeys', matched_congr (fun i q => (hkeys i q).symm)
      fun i q => (hkeys' i q).symm⟩
  refine ⟨base, extra, ⟨hbase.nodup, fun p => (hbase.mem_iff p).trans (hboth p)⟩, hperm, fun p => ?_⟩
  rw [hextra, hboth]

/-- **A value comes**: it is paired from the left with those of its key, itself among them, and then
    from the right in the same way. -/
theorem Repeats.added [DecidableEq I] (h : Repeats k k' sources late pairs) {i : I} {v : T}
    (hsources : ∀ s, s ∈ sources₁ ↔ s ∈ sources ∨ s = (i, v))
    (hnew : ∀ v', (i, v') ∉ sources) {right left : List I} (hright : right.Nodup)
    (hleft : left.Nodup) (hrights : ∀ j, j ∈ right ↔ ∃ v', (j, v') ∈ sources₁ ∧ k' v' = k v)
    (hlefts : ∀ j, j ∈ left ↔ ∃ v', (j, v') ∈ sources₁ ∧ k v' = k' v) :
    Repeats k k' sources₁ (fun j => j = i ∨ late j)
      (pairs ++ right.map (Prod.mk i) ++ left.map fun j => (j, i)) := by
  obtain ⟨base, extra, hbase, hperm, hextra⟩ := h
  -- the others are as before, and the new identity has one value
  have hother : ∀ j, j ≠ i → ∀ w, (j, w) ∈ sources₁ ↔ (j, w) ∈ sources := fun j hj w =>
    (hsources _).trans ⟨fun hw => hw.resolve_right fun heq => hj (Prod.mk.inj heq).1, .inl⟩
  have hself : ∀ w, (i, w) ∈ sources₁ → w = v := fun w hw =>
    (Prod.mk.inj (((hsources _).mp hw).resolve_left (hnew w))).2
  -- the pairs with the others, from the right, and then all those from the left
  have hpaired : Joins k k' sources₁ sources₁
      (base ++ (left.filter fun j => j ≠ i).map (fun j => (j, i)) ++ right.map (Prod.mk i)) := by
    refine (hbase.added_right hsources hnew (hleft.filter _) fun j => ?_).added hsources hnew hright
      hrights
    rw [List.mem_filter, hlefts, decide_eq_true_eq]
    constructor
    · rintro ⟨⟨w, hw, hkey⟩, hj⟩
      exact ⟨w, (hother j hj w).mp hw, hkey⟩
    · rintro ⟨w, hw, hkey⟩
      exact ⟨⟨w, (hsources _).mpr (.inl hw), hkey⟩, fun hj => hnew w (hj ▸ hw)⟩
  refine ⟨_, extra ++ (left.filter fun j => j = i).map (fun j => (j, i)), hpaired, ?_, fun p => ?_⟩
  · -- from the left the new value's own pair is one of those listed: that one is extra
    have hleft' : (left.map fun j => (j, i)).Perm
        ((left.filter fun j => j ≠ i).map (fun j => (j, i)) ++
          (left.filter fun j => j = i).map fun j => (j, i)) := by
      rw [← List.map_append]
      refine (List.Perm.map _ ?_)
      have hsplit := List.filter_append_perm (fun j => decide (j = i)) left
      refine hsplit.symm.trans (List.perm_append_comm.trans (List.Perm.of_eq ?_))
      simp only [decide_not]
    generalize (left.filter fun j => j ≠ i).map (fun j => (j, i)) = others at hleft' ⊢
    generalize (left.filter fun j => j = i).map (fun j => (j, i)) = itself at hleft' ⊢
    generalize right.map (Prod.mk i) = rights
    refine ((hperm.append_right rights).append hleft').trans (List.perm_iff_count.mpr fun p => ?_)
    simp only [List.count_append]
    omega
  · -- extra are those that were, and the new value's if it matches itself
    rw [List.mem_append, hextra, List.mem_map]
    constructor
    · rintro (⟨heq, hlate, w, w', hw, hw', hkey⟩ | ⟨j, hj, rfl⟩)
      · exact ⟨heq, .inr hlate, w, w', (hsources _).mpr (.inl hw), (hsources _).mpr (.inl hw'), hkey⟩
      · obtain ⟨hin, hji⟩ := List.mem_filter.mp hj
        obtain rfl := of_decide_eq_true hji
        obtain ⟨w, hw, hkey⟩ := (hlefts j).mp hin
        exact ⟨rfl, .inl rfl, w, v, hw, (hsources _).mpr (.inr rfl), hkey⟩
    · obtain ⟨j, j'⟩ := p
      rintro ⟨heq, hlate, w, w', hw, hw', hkey⟩
      obtain rfl : j = j' := heq
      by_cases hj : j = i
      · subst hj
        refine .inr ⟨j, List.mem_filter.mpr ⟨(hlefts j).mpr ⟨w, hw, ?_⟩, decide_eq_true rfl⟩, rfl⟩
        rw [hkey, hself w' hw']
      · exact .inl ⟨rfl, hlate.resolve_left hj, w, w', (hother j hj w).mp hw,
          (hother j hj w').mp hw', hkey⟩

/-- **A value goes**, and its pairs on either side with it. -/
theorem Repeats.dropped [DecidableEq I] (h : Repeats k k' sources late pairs) (i : I)
    {late' : I → Prop} (hlate : ∀ j, j ≠ i → (late' j ↔ late j)) :
    Repeats k k' (sources.filter fun s => s.1 ≠ i) late'
      ((pairs.filter fun p => p.1 ≠ i).filter fun p => p.2 ≠ i) := by
  obtain ⟨base, extra, hbase, hperm, hextra⟩ := h
  refine ⟨(base.filter fun p => p.1 ≠ i).filter fun p => p.2 ≠ i,
    (extra.filter fun p => p.1 ≠ i).filter fun p => p.2 ≠ i, (hbase.dropped i).dropped_right i, ?_,
    fun p => ?_⟩
  · -- both filters go through the permutation
    rw [← List.filter_append, ← List.filter_append]
    exact (hperm.filter _).filter _
  · rw [List.mem_filter, List.mem_filter, hextra, decide_eq_true_eq, decide_eq_true_eq]
    constructor
    · rintro ⟨⟨⟨heq, hl, w, w', hw, hw', hkey⟩, h₁⟩, h₂⟩
      exact ⟨heq, (hlate _ h₁).mpr hl, w, w', List.mem_filter.mpr ⟨hw, decide_eq_true h₁⟩,
        List.mem_filter.mpr ⟨hw', decide_eq_true h₂⟩, hkey⟩
    · rintro ⟨heq, hl, w, w', hw, hw', hkey⟩
      obtain ⟨hw, h₁⟩ := List.mem_filter.mp hw
      obtain ⟨hw', h₂⟩ := List.mem_filter.mp hw'
      have h₁ := of_decide_eq_true h₁
      exact ⟨⟨⟨heq, (hlate _ h₁).mp hl, w, w', hw, hw', hkey⟩, h₁⟩, of_decide_eq_true h₂⟩

end Repeats

end MicroProfiler.Lib
