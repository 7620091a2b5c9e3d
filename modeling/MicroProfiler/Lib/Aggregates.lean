/-
  Grouped aggregates kept next to their sources.

  `sources` are identified values with a key, `targets` identified aggregates with a key.  A target
  is COMPUTED if it is what the aggregation makes, from some value with the same key, of all
  sources with that key.  Maintaining the targets is a matter of replacing, after each change of
  the sources, the one target whose group changed:

  1. `Mirrors` — one target for each key in use, none for any other, each computed unless one of
     its sources is stale (changed, and not announced yet).  Only the sources in `seen` need have
     a target, so that the targets can be built up source by source.
  2. `Mirrors.replace` — replacing the target of a key after its group changed; `Mirrors.spoil` —
     a source that becomes stale.  One lemma for each thing that happens to a source: it is
     `visited`, `created`, `written`, `modified` or `removed`.
  3. `Mirrors.recomputed` — with nothing stale and everything seen, the targets are those of a
     recomputation.
  4. `sum_groups` — a sum taken group by group.

  Nothing here names the program.
-/
import Mathlib.Data.List.Perm.Basic
import Mathlib.Data.List.Nodup
import Mathlib.Algebra.BigOperators.Group.List.Basic

namespace MicroProfiler.Lib

variable {I J T A Q : Type}

/-- Keys of sources and of aggregates, and an aggregation that keeps the key. -/
structure Aggregation (T A Q : Type) where
  ukey : T → Q
  akey : A → Q
  aggregate : A → List T → A
  akey_aggregate : ∀ a items, akey (aggregate a items) = akey a

namespace Aggregation

variable [DecidableEq Q] (g : Aggregation T A Q)

/-- The sources with a key. -/
def group (sources : List (I × T)) (q : Q) : List T :=
  (sources.filter fun s => g.ukey s.2 = q).map Prod.snd

/-- An aggregate made of all sources with its key. -/
def Computed (sources : List (I × T)) (a : A) : Prop :=
  ∃ a₀ items, a = g.aggregate a₀ items ∧ g.akey a₀ = g.akey a ∧
    items.Perm (g.group sources (g.akey a))

variable {g}

/-- A group has a member if a source has the key. -/
theorem group_ne_nil {sources : List (I × T)} {q : Q} :
    g.group sources q ≠ [] ↔ ∃ s ∈ sources, g.ukey s.2 = q := by
  unfold group
  rw [ne_eq, List.map_eq_nil_iff, List.filter_eq_nil_iff]
  push Not
  simp only [decide_eq_true_eq]

/-- Groups do not depend on the order of the sources. -/
theorem group_perm {sources sources' : List (I × T)} (h : sources.Perm sources') (q : Q) :
    (g.group sources q).Perm (g.group sources' q) := (h.filter _).map _

/-- A group does not see a source with another key come. -/
theorem group_append_other {sources : List (I × T)} {i : I} {v : T} {q : Q} (hq : g.ukey v ≠ q) :
    g.group (sources ++ [(i, v)]) q = g.group sources q := by
  unfold group
  rw [List.filter_append]
  have hlast : [(i, v)].filter (fun s => g.ukey s.2 = q) = [] := by simp [hq]
  rw [hlast, List.append_nil]

/-- A group does not see a source with another key go. -/
theorem group_filter_other [DecidableEq I] {sources : List (I × T)} {i : I} {q : Q}
    (hq : ∀ s ∈ sources, s.1 = i → g.ukey s.2 ≠ q) :
    g.group (sources.filter fun s => s.1 ≠ i) q = g.group sources q := by
  unfold group
  rw [List.filter_filter]
  congr 1
  apply List.filter_congr
  intro s hs
  by_cases hkey : g.ukey s.2 = q
  · have hne : s.1 ≠ i := fun heq => hq s hs heq hkey
    simp [hkey, hne]
  · simp [hkey]

/-- A group does not see a source with another key change. -/
theorem group_map_other {f : I × T → I × T} {q : Q} : ∀ {sources : List (I × T)},
    (∀ s ∈ sources, f s = s ∨ (g.ukey (f s).2 ≠ q ∧ g.ukey s.2 ≠ q)) →
      g.group (sources.map f) q = g.group sources q := by
  intro sources
  unfold group
  -- source by source: each is as it was, or of another key before and after
  induction sources with
  | nil => intro _; rfl
  | cons s sources ih =>
    intro h
    have hrest := ih fun x hx => h x (List.mem_cons_of_mem _ hx)
    rcases h s List.mem_cons_self with heq | ⟨hne, hne'⟩
    · rw [List.map_cons, heq, List.filter_cons, List.filter_cons]
      split
      · rw [List.map_cons, List.map_cons, hrest]
      · exact hrest
    · rw [List.map_cons, List.filter_cons_of_neg (by simpa using hne),
        List.filter_cons_of_neg (by simpa using hne')]
      exact hrest

/-- What is computed stays so while its group has the same members. -/
theorem Computed.congr {sources sources' : List (I × T)} {a : A} (h : g.Computed sources a)
    (hperm : (g.group sources' (g.akey a)).Perm (g.group sources (g.akey a))) :
    g.Computed sources' a := by
  obtain ⟨a₀, items, ha, hkey, hitems⟩ := h
  exact ⟨a₀, items, ha, hkey, hitems.trans hperm.symm⟩

variable (g)

/-- The targets of the sources. -/
structure Mirrors (stale : List I) (sources seen : List (I × T)) (targets : List (J × A)) :
    Prop where
  /-- one target for a key -/
  unique : ∀ r ∈ targets, ∀ r' ∈ targets, g.akey r.2 = g.akey r'.2 → r = r'
  /-- every source seen has one -/
  present : ∀ s ∈ seen, ∃ r ∈ targets, g.akey r.2 = g.ukey s.2
  /-- and no other key has -/
  grounded : ∀ r ∈ targets, ∃ s ∈ sources, g.ukey s.2 = g.akey r.2
  /-- it is up to date, unless a source of it is stale -/
  computed : ∀ r ∈ targets, (∀ s ∈ sources, s.1 ∈ stale → g.ukey s.2 ≠ g.akey r.2) →
    g.Computed sources r.2

/-- `targets'` is `targets` with the one of key `q` gone, and `new` in its place. -/
def Replaces (targets targets' : List (J × A)) (q : Q) (new : Option (J × A)) : Prop :=
  ∀ r, r ∈ targets' ↔ (r ∈ targets ∧ g.akey r.2 ≠ q) ∨ new = some r

variable {g}

omit [DecidableEq Q] in
/-- A target comes: there was none of its key. -/
theorem Replaces.fresh {targets targets' : List (J × A)} {q : Q} {new : J × A}
    (h : g.Replaces targets targets' q (some new)) (hnone : ∀ r ∈ targets, g.akey r.2 ≠ q) :
    ∀ r, r ∈ targets' ↔ r ∈ targets ∨ r = new := by
  intro r
  rw [h r, Option.some_inj, eq_comm]
  exact or_congr_left ⟨And.left, fun hr => ⟨hr, hnone r hr⟩⟩

/-- A target is replaced by itself. -/
theorem Replaces.same {targets targets' : List (J × A)} {q : Q} {old : J × A}
    (h : g.Replaces targets targets' q (some old)) (hold : old ∈ targets) (hkey : g.akey old.2 = q)
    (hunique : ∀ r ∈ targets, ∀ r' ∈ targets, g.akey r.2 = g.akey r'.2 → r = r') :
    ∀ r, r ∈ targets' ↔ r ∈ targets := by
  intro r
  rw [h r, Option.some_inj]
  constructor
  · rintro (⟨hr, _⟩ | rfl)
    · exact hr
    · exact hold
  · intro hr
    by_cases hsame : g.akey r.2 = q
    · exact Or.inr (hunique old hold r hr (hkey.trans hsame.symm))
    · exact Or.inl ⟨hr, hsame⟩

omit [DecidableEq Q] in
/-- A target goes. -/
theorem Replaces.gone {targets targets' : List (J × A)} {q : Q}
    (h : g.Replaces targets targets' q none) : ∀ r, r ∈ targets' ↔ r ∈ targets ∧ g.akey r.2 ≠ q := by
  intro r
  rw [h r]
  simp

/-- No target, and no source seen. -/
theorem mirrors_nil (stale : List I) (sources : List (I × T)) :
    g.Mirrors stale sources [] ([] : List (J × A)) where
  unique := nofun
  present := nofun
  grounded := nofun
  computed := nofun

/-- **Replacing the target of the group that changed.** -/
theorem Mirrors.replace {stale stale' : List I} {sources sources' seen seen' : List (I × T)}
    {targets targets' : List (J × A)} {q : Q} {new : Option (J × A)}
    (h : g.Mirrors stale sources seen targets) (hreplaces : g.Replaces targets targets' q new)
    (hothers : ∀ q', q' ≠ q → (g.group sources' q').Perm (g.group sources q'))
    (hstale : ∀ s ∈ sources, s.1 ∈ stale → g.ukey s.2 ≠ q → s ∈ sources' ∧ s.1 ∈ stale')
    (hseen : ∀ s ∈ seen', g.ukey s.2 ≠ q → s ∈ seen)
    (hnew : ∀ r, new = some r → g.akey r.2 = q ∧ g.Computed sources' r.2 ∧
      ∃ s ∈ sources', g.ukey s.2 = q)
    (hnone : new = none → ∀ s ∈ seen', g.ukey s.2 ≠ q) :
    g.Mirrors stale' sources' seen' targets' where
  unique := by
    intro r hr r' hr' hkey
    rcases (hreplaces r).mp hr with ⟨hold, hne⟩ | hnew₁ <;>
      rcases (hreplaces r').mp hr' with ⟨hold', hne'⟩ | hnew₂
    · exact h.unique r hold r' hold' hkey
    · exact absurd (hkey.trans (hnew r' hnew₂).1) hne
    · exact absurd (hkey.symm.trans (hnew r hnew₁).1) hne'
    · exact Option.some.inj (hnew₁.symm.trans hnew₂)
  present := by
    intro s hs
    by_cases hq : g.ukey s.2 = q
    · cases hn : new with
      | none => exact absurd hq (hnone hn s hs)
      | some r =>
        refine ⟨r, (hreplaces r).mpr (Or.inr hn), ?_⟩
        rw [(hnew r hn).1, hq]
    · obtain ⟨r, hr, hkey⟩ := h.present s (hseen s hs hq)
      exact ⟨r, (hreplaces r).mpr (Or.inl ⟨hr, hkey ▸ hq⟩), hkey⟩
  grounded := by
    intro r hr
    rcases (hreplaces r).mp hr with ⟨hold, hne⟩ | hn
    -- groups of other keys are what they were, so they are not empty either
    · have hgroup := group_ne_nil.mpr (h.grounded r hold)
      apply group_ne_nil.mp
      intro hnil
      exact hgroup (List.Perm.nil_eq (hnil ▸ hothers _ hne)).symm
    · obtain ⟨hkey, _, hsource⟩ := hnew r hn
      rw [hkey]
      exact hsource
  computed := by
    intro r hr hfresh
    rcases (hreplaces r).mp hr with ⟨hold, hne⟩ | hn
    · refine (h.computed r hold ?_).congr (hothers _ hne)
      intro s hs hst hkey
      obtain ⟨hs', hst'⟩ := hstale s hs hst (hkey ▸ hne)
      exact hfresh s hs' hst' hkey
    · exact (hnew r hn).2.1

/-- **A source that becomes stale** takes its whole group with it, and no other. -/
theorem Mirrors.spoil {stale stale' : List I} {sources sources' seen seen' : List (I × T)}
    {targets : List (J × A)} {q : Q} (h : g.Mirrors stale sources seen targets)
    (hothers : ∀ q', q' ≠ q → (g.group sources' q').Perm (g.group sources q'))
    (hkeys : ∀ s ∈ sources, ∃ s' ∈ sources', g.ukey s'.2 = g.ukey s.2 ∧
      (s.1 ∈ stale → s'.1 ∈ stale'))
    (hspoiled : ∃ s ∈ sources', s.1 ∈ stale' ∧ g.ukey s.2 = q)
    (hseen : ∀ s ∈ seen', ∃ s₀ ∈ seen, g.ukey s₀.2 = g.ukey s.2) :
    g.Mirrors stale' sources' seen' targets where
  unique := h.unique
  present := by
    intro s hs
    obtain ⟨s₀, hs₀, hkey₀⟩ := hseen s hs
    obtain ⟨r, hr, hkey⟩ := h.present s₀ hs₀
    exact ⟨r, hr, hkey.trans hkey₀⟩
  grounded := by
    intro r hr
    obtain ⟨s, hs, hkey⟩ := h.grounded r hr
    obtain ⟨s', hs', hkey', _⟩ := hkeys s hs
    exact ⟨s', hs', hkey'.trans hkey⟩
  computed := by
    intro r hr hfresh
    -- a target that is to be up to date is not that of the spoiled group
    have hne : g.akey r.2 ≠ q := by
      intro hq
      obtain ⟨s, hs, hst, hkey⟩ := hspoiled
      exact hfresh s hs hst (hkey.trans hq.symm)
    refine (h.computed r hr ?_).congr (hothers _ hne)
    intro s hs hst hkey
    obtain ⟨s', hs', hkey', hst'⟩ := hkeys s hs
    exact hfresh s' hs' (hst' hst) (hkey'.trans hkey)

/-! ## What may happen to the sources -/

section

variable {stale stale' : List I} {sources sources' : List (I × T)} {targets targets' : List (J × A)}
  {i : I} {v : T} {r : J × A}

/-- **A source comes**, and the target of its key is replaced. -/
theorem Mirrors.created (h : g.Mirrors stale sources sources targets)
    (hsources : (sources ++ [(i, v)]).Perm sources')
    (hstale : ∀ s ∈ sources, s.1 ∈ stale → s.1 ∈ stale')
    (hreplaces : g.Replaces targets targets' (g.ukey v) (some r)) (hkey : g.akey r.2 = g.ukey v)
    (hcomputed : g.Computed sources' r.2) : g.Mirrors stale' sources' sources' targets' := by
  -- the source that came is in the group
  have hin : (i, v) ∈ sources' :=
    hsources.mem_iff.mp (List.mem_append_right _ (List.mem_singleton.mpr rfl))
  refine h.replace hreplaces ?_ ?_ ?_ ?_ nofun
  · intro q hq
    refine (group_perm hsources q).symm.trans (List.Perm.of_eq ?_)
    exact group_append_other (Ne.symm hq)
  · intro s hs hst _
    exact ⟨hsources.mem_iff.mp (List.mem_append_left _ hs), hstale s hs hst⟩
  · intro s hs hne
    rcases List.mem_append.mp (hsources.mem_iff.mpr hs) with hs | hs
    · exact hs
    · rw [List.mem_singleton.mp hs] at hne
      exact absurd rfl hne
  · intro r' hr'
    rw [← Option.some.inj hr']
    exact ⟨hkey, hcomputed, _, hin, rfl⟩

/-- **A source is visited**: the target of its key is built, or built again. -/
theorem Mirrors.visited {seen : List (I × T)} {s : I × T} (h : g.Mirrors stale sources seen targets)
    (hs : s ∈ sources) (hreplaces : g.Replaces targets targets' (g.ukey s.2) (some r))
    (hkey : g.akey r.2 = g.ukey s.2) (hcomputed : g.Computed sources r.2) :
    g.Mirrors stale sources (seen ++ [s]) targets' := by
  refine h.replace hreplaces (fun _ _ => List.Perm.refl _) (fun x hx hst _ => ⟨hx, hst⟩) ?_ ?_ nofun
  · intro x hx hne
    rcases List.mem_append.mp hx with hx | hx
    · exact hx
    · rw [List.mem_singleton.mp hx] at hne
      exact absurd rfl hne
  · intro r' hr'
    rw [← Option.some.inj hr']
    exact ⟨hkey, hcomputed, s, hs, rfl⟩

variable [DecidableEq I]

/-- **A source is announced**, and the target of its key is replaced. -/
theorem Mirrors.modified (h : g.Mirrors stale sources sources targets) (hmem : (i, v) ∈ sources)
    (hnodup : ∀ s ∈ sources, s.1 = i → s = (i, v))
    (hreplaces : g.Replaces targets targets' (g.ukey v) (some r)) (hkey : g.akey r.2 = g.ukey v)
    (hcomputed : g.Computed sources r.2) :
    g.Mirrors (stale.filter fun x => x ≠ i) sources sources targets' := by
  refine h.replace hreplaces (fun _ _ => List.Perm.refl _) ?_ (fun s hs _ => hs) ?_ nofun
  · intro s hs hst hne
    refine ⟨hs, List.mem_filter.mpr ⟨hst, decide_eq_true fun heq => hne ?_⟩⟩
    rw [hnodup s hs heq]
  · intro r' hr'
    rw [← Option.some.inj hr']
    exact ⟨hkey, hcomputed, _, hmem, rfl⟩

/-- **A source goes**, and the target of its key is replaced, or goes with it. -/
theorem Mirrors.removed {new : Option (J × A)} (h : g.Mirrors stale sources sources targets)
    (hnodup : ∀ s ∈ sources, s.1 = i → s = (i, v))
    (hreplaces : g.Replaces targets targets' (g.ukey v) new)
    (hnew : ∀ r, new = some r → g.akey r.2 = g.ukey v ∧
      g.Computed (sources.filter fun s => s.1 ≠ i) r.2 ∧
      ∃ s ∈ sources.filter fun s => s.1 ≠ i, g.ukey s.2 = g.ukey v)
    (hnone : new = none → ∀ s ∈ sources.filter fun s => s.1 ≠ i, g.ukey s.2 ≠ g.ukey v) :
    g.Mirrors (stale.filter fun x => x ≠ i) (sources.filter fun s => s.1 ≠ i)
      (sources.filter fun s => s.1 ≠ i) targets' := by
  refine h.replace hreplaces ?_ ?_ (fun s hs _ => List.mem_of_mem_filter hs) hnew hnone
  · -- the other groups do not see it go
    intro q hq
    refine List.Perm.of_eq (group_filter_other ?_)
    intro s hs heq hkey
    rw [hnodup s hs heq] at hkey
    exact hq hkey.symm
  · -- what is stale in them stays stale
    intro s hs hst hne
    have hother : s.1 ≠ i := fun heq => hne (by rw [hnodup s hs heq])
    exact ⟨List.mem_filter.mpr ⟨hs, decide_eq_true hother⟩,
      List.mem_filter.mpr ⟨hst, decide_eq_true hother⟩⟩

/-- **A source changes** and keeps its key; its group is stale. -/
theorem Mirrors.written {old : T} (h : g.Mirrors stale sources sources targets)
    (hold : (i, old) ∈ sources) (hnodup : ∀ s ∈ sources, s.1 = i → s = (i, old))
    (hkey : g.ukey v = g.ukey old) :
    g.Mirrors (i :: stale) (sources.map fun s => if s.1 = i then (i, v) else s)
      (sources.map fun s => if s.1 = i then (i, v) else s) targets := by
  -- no key changes, so the members of the groups are the same
  have hsame : ∀ s ∈ sources, g.ukey (if s.1 = i then (i, v) else s).2 = g.ukey s.2 := by
    intro s hs
    split
    · next heq => rw [hnodup s hs heq]; exact hkey
    · rfl
  refine h.spoil (q := g.ukey old) ?_ ?_ ?_ ?_
  · intro q hq
    refine List.Perm.of_eq (group_map_other ?_)
    intro s hs
    by_cases heq : s.1 = i
    · right
      rw [hsame s hs, hnodup s hs heq]
      exact ⟨Ne.symm hq, Ne.symm hq⟩
    · exact Or.inl (if_neg heq)
  · intro s hs
    refine ⟨_, List.mem_map.mpr ⟨s, hs, rfl⟩, hsame s hs, ?_⟩
    intro hst
    apply List.mem_cons_of_mem
    split
    · next heq => exact heq ▸ hst
    · exact hst
  · exact ⟨(i, v), List.mem_map.mpr ⟨(i, old), hold, if_pos rfl⟩, List.mem_cons_self, hkey⟩
  · intro s hs
    obtain ⟨s₀, hs₀, rfl⟩ := List.mem_map.mp hs
    exact ⟨s₀, hs₀, (hsame s₀ hs₀).symm⟩

end

/-- **With nothing stale the targets are a recomputation**: one for each key in use, computed. -/
theorem Mirrors.recomputed {sources : List (I × T)} {targets : List (J × A)}
    (h : g.Mirrors [] sources sources targets) (hnodup : targets.Nodup) :
    (∀ q, (∃ r ∈ targets, g.akey r.2 = q) ↔ ∃ s ∈ sources, g.ukey s.2 = q) ∧
    (targets.map fun r => g.akey r.2).Nodup ∧ ∀ r ∈ targets, g.Computed sources r.2 := by
  refine ⟨?_, ?_, ?_⟩
  · intro q
    constructor
    · rintro ⟨r, hr, rfl⟩; exact h.grounded r hr
    · rintro ⟨s, hs, rfl⟩; exact h.present s hs
  · exact List.Nodup.map_on (fun r hr r' hr' heq => h.unique r hr r' hr' heq) hnodup
  · intro r hr
    exact h.computed r hr fun _ _ hst => absurd hst List.not_mem_nil

end Aggregation

/-! ## Sums -/

section

variable {X P M : Type} [DecidableEq P] [AddCommMonoid M]

/-- A function that is zero but at one place, summed over places that differ. -/
theorem sum_single (k : P) (v : M) : ∀ {ps : List P}, ps.Nodup →
    (ps.map fun p => if k = p then v else 0).sum = if k ∈ ps then v else 0 := by
  intro ps
  induction ps with
  | nil => exact fun _ => rfl
  | cons p ps ih =>
    intro hnodup
    obtain ⟨hp, hps⟩ := List.nodup_cons.mp hnodup
    rw [List.map_cons, List.sum_cons, ih hps]
    by_cases hk : k = p
    · subst hk
      rw [if_pos rfl, if_neg hp, if_pos List.mem_cons_self, add_zero]
    · have hmem : k ∈ p :: ps ↔ k ∈ ps := List.mem_cons.trans (or_iff_right hk)
      rw [if_neg hk, zero_add]
      simp only [hmem]

/-- **A sum taken group by group** is the sum over all members of the groups. -/
theorem sum_groups (key : X → P) (f : X → M) {ps : List P} (hps : ps.Nodup) (q : P → Bool) :
    ∀ xs : List X, (∀ x ∈ xs, key x ∈ ps) →
      ((ps.filter q).map fun p => ((xs.filter fun x => key x = p).map f).sum).sum =
        ((xs.filter fun x => q (key x)).map f).sum := by
  -- by induction on the members: each adds to the group of its own key, and to no other
  intro xs
  induction xs with
  | nil =>
    intro _
    simp
  | cons x xs ih =>
    intro hxs
    have hrest := ih fun y hy => hxs y (List.mem_cons_of_mem _ hy)
    have hcons : ∀ p, (((x :: xs).filter fun x => key x = p).map f).sum =
        (if key x = p then f x else 0) + ((xs.filter fun x => key x = p).map f).sum := by
      intro p
      rw [List.filter_cons]
      by_cases hk : key x = p
      · simp [hk]
      · simp [hk]
    have hmem : key x ∈ ps.filter q ↔ q (key x) = true := by
      rw [List.mem_filter]
      exact and_iff_right (hxs x List.mem_cons_self)
    simp only [hcons]
    rw [List.sum_map_add, hrest, sum_single _ _ (hps.filter q), List.filter_cons]
    by_cases hq : q (key x) = true
    · rw [if_pos (hmem.mpr hq), if_pos hq, List.map_cons, List.sum_cons]
    · rw [if_neg (mt hmem.mp hq), if_neg hq, zero_add]

end

end MicroProfiler.Lib
