/-
  `group_by` over `join`: a table of joined records and the table of aggregates over it, both
  patched as the joined tables change.

  1. **The code** — the slots `maintain_joined` connects to the two sides, as in `Sdb.Join`; but the
     joined table is grouped itself, so each joined record that is added, committed or removed runs
     the slots of `group_by` at once.  A joined record is its two iterators and what the left one
     dereferences to; the joined table has an index by each iterator and the one of `group_by`.

  2. **Exact pairs** (`Tied`) — the joined records are the matching pairs, with the left records as
     they are now; those whose left record was written to and not committed are the only ones the
     aggregates may be behind with.  One lemma for each slot.
-/
import MicroProfiler.Sdb.Maintained
import MicroProfiler.Lib.Matching

namespace MicroProfiler.Sdb

/-- The indexes of the joined table: by each of the two iterators, and the one `group_by` has asked
    for. -/
inductive JoinedIndex where
  /-- the `hindex` of the left side -/
  | left
  /-- and that of the right one -/
  | right
  /-- the index that `group_by` has asked for -/
  | group
  deriving DecidableEq, Repr

/-- What each is keyed by. -/
abbrev JoinedKeys (Q : Type) : JoinedIndex → Type
  | .left => Handle
  | .right => Handle
  | .group => Q

instance {Q : Type} [DecidableEq Q] : ∀ i, DecidableEq (JoinedKeys Q i)
  | .left => inferInstanceAs (DecidableEq Handle)
  | .right => inferInstanceAs (DecidableEq Handle)
  | .group => inferInstanceAs (DecidableEq Q)

/-- The iterators, and what the left one dereferences to. -/
abbrev JoinedValue (T : Type) := (Handle × Handle) × T

/-- The joined table and the aggregate table. -/
abbrev GroupedJoin (T A Q : Type) := Grouped (JoinedValue T) A (JoinedKeys Q) .group

/-- The allocators of the two tables, and the constructor of the aggregates. -/
structure JoinMaker (A : Type) where
  /-- of joined records -/
  joined : Maker Unit
  /-- of aggregates -/
  grouped : Maker A

namespace GroupedJoin

variable {T T' A Q P : Type} [DecidableEq Q] (g : Grouping T A Q)

/-- The grouping of the left records, for joined records: the aggregator sees the left values only.
    -/
def grouping : Grouping (JoinedValue T) A (JoinedKeys Q .group) where
  ukey v := g.ukey v.2
  akey := g.akey
  aggregate a items := g.aggregate a (items.map Prod.snd)
  akey_aggregate a items := g.akey_aggregate a (items.map Prod.snd)
  setKey := g.setKey
  akey_setKey := g.akey_setKey

/-- How a joined record is keyed in each index. -/
def keyers : ∀ i, JoinedValue T → JoinedKeys Q i
  | .left, v => v.1.1
  | .right, v => v.1.2
  | .group, v => g.ukey v.2

/-- The set-up, while one side has no records: nothing is joined. -/
def new : GroupedJoin T A Q :=
  let joined : Table JoinedIndex (JoinedValue T) (JoinedKeys Q) :=
    ((Table.empty.component .left (keyers g .left) .hashed).component .right (keyers g .right)
      .hashed).component .group (keyers g .group) .hashed
  ⟨⟨joined, []⟩, [], some (Table.empty.component () g.akey .hashed)⟩

/-- A joined record is created, assigned and committed. -/
def add (m : JoinMaker A) (s : GroupedJoin T A Q) (value : JoinedValue T) :
    Option (GroupedJoin T A Q) :=
  s.insert (grouping g) m.grouped (m.joined.pick s.handles) value

/-- `on_create` for a record of the left, with the range of the opposite index. -/
def onLeft (m : JoinMaker A) (l : Handle) (v : T) (range : List Handle) (s : GroupedJoin T A Q) :
    Option (GroupedJoin T A Q) :=
  Lib.run (add g m) s (range.map fun r => ((l, r), v))

/-- `on_create` for a record of the right, with the range of the opposite index. -/
def onRight (m : JoinMaker A) (r : Handle) (range : List (Handle × T)) (s : GroupedJoin T A Q) :
    Option (GroupedJoin T A Q) :=
  Lib.run (add g m) s (range.map fun l => ((l.1, r), l.2))

/-- The slot of `modified`: every joined record of the iterator is committed again. -/
def onModified (m : JoinMaker A) (side : JoinedIndex) (record : JoinedKeys Q side)
    (s : GroupedJoin T A Q) : Option (GroupedJoin T A Q) :=
  (s.session.table.components side).bind fun hindex =>
    Lib.run (fun s j => s.touch (grouping g) m.grouped j) s (hindex.equalRange record)

/-- The slot of `removed`, on the right: every joined record of the iterator is removed. -/
def onRemoved (m : JoinMaker A) (r : Handle) (s : GroupedJoin T A Q) :
    Option (GroupedJoin T A Q) :=
  (s.session.table.components .right).bind fun hindex =>
    Lib.run (fun s j => s.drop (grouping g) m.grouped j) s (hindex.equalRange r)

/-- A record of the left was written to in place: the joined records dereference to it. -/
def onWritten (m : JoinMaker A) (l : Handle) (v : T) (s : GroupedJoin T A Q) :
    Option (GroupedJoin T A Q) :=
  (s.session.table.components .left).bind fun hindex =>
    Lib.run (fun s j => (s.session.table.lookup j).bind fun old =>
      s.assign (grouping g) m.grouped j (old.1, v)) s (hindex.equalRange l)

/-! ## The joined records one by one -/

variable {g}

/-- The invariant of `group_by`, at the joined table. -/
abbrev Maintained (g : Grouping T A Q) (s : GroupedJoin T A Q) : Prop :=
  Grouped.Maintained (grouping g) (keyers g) s

/-- It holds of the set-up: nothing is joined, nothing is grouped. -/
theorem new_maintained : Maintained g (new g : GroupedJoin T A Q) := by
  have hempty : (Table.empty : Table JoinedIndex (JoinedValue T) (JoinedKeys Q)).Consistent [] :=
    Table.empty_consistent
  refine ⟨⟨?_, ?_, ?_⟩, rfl, rfl, fun i => by cases i <;> rfl⟩
  · exact ((hempty.component .left _ .hashed).component .right _ .hashed).component .group _ .hashed
  · rintro k ⟨⟩
    rfl
  · -- the aggregate table is there, and empty
    rintro _ ⟨⟩
    exact ⟨rfl, Grouped.empty_keyed (g := grouping g), ⟨nofun, nofun, nofun, nofun⟩⟩

/-- **Joined records come**, one by one as the range is gone through; by induction on it.  Whatever
    was dirty may be clean afterwards, never the other way round: a commit recomputes the aggregate
    of its key. -/
theorem Maintained.addAll (m : JoinMaker A) : ∀ (values : List (JoinedValue T))
    (s : GroupedJoin T A Q), Maintained g s →
    ∃ s', Lib.run (add g m) s values = some s' ∧ Maintained g s' ∧
      (s'.records.map Prod.snd) = (s.records.map Prod.snd) ++ values ∧
      (∀ e ∈ s.records, e ∈ s'.records) ∧ s'.dirty ⊆ s.dirty := by
  intro values
  induction values with
  | nil =>
    intro s h
    exact ⟨s, rfl, h, (List.append_nil _).symm, fun _ he => he, List.Subset.refl _⟩
  -- the first one, then the others on what it leaves
  | cons value values ih =>
    intro s h
    obtain ⟨s₁, hadd, h₁, hrecords₁, hdirty₁⟩ :=
      Grouped.Maintained.insert h (m.joined.fresh s.handles) value m.grouped
    obtain ⟨s', hrun, h', hrecords, hold, hdirty⟩ := ih s₁ h₁
    refine ⟨s', Lib.run_cons_eq_some.mpr ⟨s₁, hadd, hrun⟩, h', ?_, ?_, ?_⟩
    · rw [hrecords, hrecords₁, List.map_append, List.append_assoc]
      rfl
    · intro e he
      exact hold e (by rw [hrecords₁]; exact List.mem_append_left _ he)
    · intro d hd
      have := hdirty hd
      rw [hdirty₁] at this
      exact List.mem_of_mem_filter this

/-- **Joined records are committed** one by one; by induction.  The records are as before, and those
    committed are not dirty. -/
theorem Maintained.touchAll (m : JoinMaker A) : ∀ (js : List Handle) (s : GroupedJoin T A Q),
    Maintained g s → (∀ j ∈ js, j ∈ s.handles) →
    ∃ s', Lib.run (fun s j => s.touch (grouping g) m.grouped j) s js = some s' ∧
      Maintained g s' ∧ s'.records = s.records ∧ ∀ d ∈ s'.dirty, d ∈ s.dirty ∧ d ∉ js := by
  intro js
  induction js with
  | nil => exact fun s h _ => ⟨s, rfl, h, rfl, fun d hd => ⟨hd, List.not_mem_nil⟩⟩
  | cons j js ih =>
    intro s h hlive
    obtain ⟨s₁, htouch, h₁, hrecords₁, hdirty₁⟩ :=
      Grouped.Maintained.touch h (hlive j List.mem_cons_self) m.grouped
    obtain ⟨s', hrun, h', hrecords, hdirty⟩ := ih s₁ h₁ fun x hx => by
      show x ∈ s₁.records.map Prod.fst
      rw [hrecords₁]
      exact hlive x (List.mem_cons_of_mem _ hx)
    refine ⟨s', Lib.run_cons_eq_some.mpr ⟨s₁, htouch, hrun⟩, h', hrecords.trans hrecords₁, ?_⟩
    intro d hd
    obtain ⟨hd₁, hnot⟩ := hdirty d hd
    rw [hdirty₁] at hd₁
    obtain ⟨hd₀, hne⟩ := List.mem_filter.mp hd₁
    exact ⟨hd₀, List.not_mem_cons_of_ne_of_not_mem (of_decide_eq_true hne) hnot⟩

/-- **Joined records go** one by one; by induction.  The list has each of them once, so that each is
    still there when its turn comes. -/
theorem Maintained.dropAll (m : JoinMaker A) : ∀ (js : List Handle) (s : GroupedJoin T A Q),
    Maintained g s → js.Nodup → (∀ j ∈ js, j ∈ s.handles) →
    ∃ s', Lib.run (fun s j => s.drop (grouping g) m.grouped j) s js = some s' ∧
      Maintained g s' ∧ s'.records = (s.records.filter fun e => e.1 ∉ js) ∧
      ∀ d ∈ s'.dirty, d ∈ s.dirty ∧ d ∉ js := by
  intro js
  induction js with
  | nil =>
    intro s h _ _
    refine ⟨s, rfl, h, ?_, fun d hd => ⟨hd, List.not_mem_nil⟩⟩
    rw [List.filter_eq_self.mpr fun e _ => decide_eq_true List.not_mem_nil]
  | cons j js ih =>
    intro s h hnodup hlive
    obtain ⟨hj, hrest⟩ := List.nodup_cons.mp hnodup
    obtain ⟨s₁, hdrop, h₁, hrecords₁, hdirty₁⟩ :=
      Grouped.Maintained.drop h (hlive j List.mem_cons_self) m.grouped
    -- the others are still there
    have hlive₁ : ∀ x ∈ js, x ∈ s₁.handles := by
      intro x hx
      obtain ⟨e, he, rfl⟩ := List.mem_map.mp (hlive x (List.mem_cons_of_mem _ hx))
      show e.1 ∈ s₁.records.map Prod.fst
      rw [hrecords₁]
      refine List.mem_map_of_mem (List.mem_filter.mpr ⟨he, decide_eq_true ?_⟩)
      rintro rfl
      exact hj hx
    obtain ⟨s', hrun, h', hrecords, hdirty⟩ := ih s₁ h₁ hrest hlive₁
    refine ⟨s', Lib.run_cons_eq_some.mpr ⟨s₁, hdrop, hrun⟩, h', ?_, ?_⟩
    · rw [hrecords, hrecords₁, List.filter_filter]
      apply List.filter_congr
      intro e _
      simp [Bool.and_comm]
    · intro d hd
      obtain ⟨hd₁, hnot⟩ := hdirty d hd
      rw [hdirty₁] at hd₁
      obtain ⟨hd₀, hne⟩ := List.mem_filter.mp hd₁
      exact ⟨hd₀, List.not_mem_cons_of_ne_of_not_mem (of_decide_eq_true hne) hnot⟩

/-- **Joined records dereference to another value**, which happens without a notice: they are dirty
    from now on.  By induction; what is left to do finds the records as they were but for those
    already done, and the keys are the same. -/
theorem Maintained.assignAll (m : JoinMaker A) (v : T) : ∀ (js : List Handle)
    (s : GroupedJoin T A Q), Maintained g s →
    (∀ j ∈ js, ∃ old, (j, old) ∈ s.records ∧ g.ukey v = g.ukey old.2) →
    ∃ s', Lib.run (fun s j => (s.session.table.lookup j).bind fun old =>
        s.assign (grouping g) m.grouped j (old.1, v)) s js = some s' ∧ Maintained g s' ∧
      s'.records = (s.records.map fun e => if e.1 ∈ js then (e.1, (e.2.1, v)) else e) ∧
      ∀ d ∈ s'.dirty, d ∈ s.dirty ∨ d ∈ js := by
  intro js
  induction js with
  | nil =>
    intro s h _
    refine ⟨s, rfl, h, ?_, fun d hd => Or.inl hd⟩
    exact ((List.map_congr_left fun e _ => if_neg List.not_mem_nil).trans (List.map_id _)).symm
  | cons j js ih =>
    intro s h hlive
    obtain ⟨old, hold, hkey⟩ := hlive j List.mem_cons_self
    -- neither the iterators nor the key of the aggregate change
    have hkeys : ∀ i, keyers g i (old.1, v) = keyers g i old := by
      intro i
      cases i with
      | left => rfl
      | right => rfl
      | group => exact hkey
    obtain ⟨s₁, hassign, h₁, hrecords₁, hdirty₁⟩ :=
      Grouped.Maintained.assign h hold hkeys m.grouped
    have hlookup : s.session.table.lookup j = some old :=
      (Table.lookup_eq_some h.nodup).mpr hold
    -- the iterators of the record stay
    have hwritten : ∀ e ∈ s.records, (if e.1 = j then (j, (old.1, v)) else e) =
        if e.1 = j then (e.1, (e.2.1, v)) else e := by
      intro e he
      split
      · next heq =>
        rw [List.inj_on_of_nodup_map h.nodup he hold heq]
      · rfl
    rw [List.map_congr_left hwritten] at hrecords₁
    -- the records still to do are there, written to or not
    have hlive₁ : ∀ x ∈ js, ∃ old, (x, old) ∈ s₁.records ∧ g.ukey v = g.ukey old.2 := by
      intro x hx
      obtain ⟨old', hold', hkey'⟩ := hlive x (List.mem_cons_of_mem _ hx)
      rw [hrecords₁]
      by_cases hxj : x = j
      · exact ⟨(old'.1, v), List.mem_map.mpr ⟨_, hold', if_pos hxj⟩, rfl⟩
      · exact ⟨old', List.mem_map.mpr ⟨_, hold', if_neg hxj⟩, hkey'⟩
    obtain ⟨s', hrun, h', hrecords, hdirty⟩ := ih s₁ h₁ hlive₁
    refine ⟨s', Lib.run_cons_eq_some.mpr ⟨s₁, ?_, hrun⟩, h', ?_, ?_⟩
    · rw [hlookup]
      exact hassign
    · rw [hrecords, hrecords₁, List.map_map]
      apply List.map_congr_left
      intro e _
      simp only [Function.comp_apply, List.mem_cons]
      by_cases hej : e.1 = j
      · simp only [hej, if_true, true_or]
        split <;> rfl
      · simp only [hej, if_false, false_or]
    · intro d hd
      rcases hdirty d hd with hd | hd
      · rw [hdirty₁] at hd
        rcases List.mem_cons.mp hd with rfl | hd
        · exact Or.inr List.mem_cons_self
        · exact Or.inl hd
      · exact Or.inr (List.mem_cons_of_mem _ hd)

/-! ## The slots -/

/-- The joined records are the matching pairs of the two sides, and the aggregates are behind with
    those only whose left record is `stale`.  This is the INVARIANT; `left` and `right` are the two
    tables as they are now. -/
structure Tied (g : Grouping T A Q) (k : T → P) (k' : T' → P) (left : List (Handle × T))
    (right : List (Handle × T')) (stale : List Handle) (s : GroupedJoin T A Q) : Prop where
  /-- the aggregates, as `group_by` keeps them -/
  maintained : Maintained g s
  /-- a joined record dereferences to what the left record holds -/
  values : ∀ e ∈ s.records, (e.2.1.1, e.2.2) ∈ left
  /-- all matching pairs, and each once -/
  joins : Lib.Joins k k' left right (s.records.map fun e => e.2.1)
  /-- an aggregate is behind only on account of a left record that was written to -/
  stale : ∀ d ∈ s.dirty, ∃ e ∈ s.records, e.1 = d ∧ e.2.1.1 ∈ stale

variable {k : T → P} {k' : T' → P} {left left' : List (Handle × T)}
  {right right' : List (Handle × T')} {stale : List Handle} {s : GroupedJoin T A Q}

/-- With nothing on the right there are no pairs. -/
theorem new_tied (left : List (Handle × T)) (stale : List Handle) :
    Tied g k k' left ([] : List (Handle × T')) stale (new g : GroupedJoin T A Q) where
  maintained := new_maintained
  values := nofun
  joins := (Lib.joins_nil left).swap
  stale := nofun

/-- Only what is in the right table matters, not the order. -/
theorem Tied.congr_right (h : Tied g k k' left right stale s)
    (hright : ∀ e, e ∈ right' ↔ e ∈ right) : Tied g k k' left right' stale s where
  maintained := h.maintained
  values := h.values
  joins := by
    refine ⟨h.joins.nodup, fun p => (h.joins.mem_iff p).trans ?_⟩
    unfold Lib.Matched
    simp only [hright]
  stale := h.stale

omit [DecidableEq Q] in
/-- What added records come from. -/
theorem mem_added {s' : GroupedJoin T A Q} {values : List (JoinedValue T)}
    (hrecords : s'.records.map Prod.snd = s.records.map Prod.snd ++ values)
    {e : Handle × JoinedValue T} (he : e ∈ s'.records) :
    (∃ e₀ ∈ s.records, e₀.2 = e.2) ∨ e.2 ∈ values := by
  have hmem : e.2 ∈ s'.records.map Prod.snd := List.mem_map_of_mem he
  rw [hrecords] at hmem
  exact (List.mem_append.mp hmem).imp_left List.mem_map.mp

/-- **A record comes on the left.**  The range of the opposite index is what it matches; no pair
    with it was there before. -/
theorem Tied.onLeft (h : Tied g k k' left right stale s) {l : Handle} {v : T}
    (hnew : ∀ v', (l, v') ∉ left) (hleft : ∀ e, e ∈ left' ↔ e ∈ left ∨ e = (l, v))
    {range : List Handle} (hnodup : range.Nodup)
    (hrange : ∀ r, r ∈ range ↔ ∃ v', (r, v') ∈ right ∧ k' v' = k v) (m : JoinMaker A) :
    ∃ s', onLeft g m l v range s = some s' ∧ Tied g k k' left' right stale s' := by
  obtain ⟨s', hrun, hmaintained, hrecords, hold, hdirty⟩ :=
    h.maintained.addAll m (range.map fun r => ((l, r), v)) s
  refine ⟨s', hrun, hmaintained, ?_, ?_, ?_⟩
  · -- a joined record that was there, or one that came
    intro e he
    rcases mem_added hrecords he with ⟨e₀, he₀, heq⟩ | hadded
    · rw [← heq]
      exact (hleft _).mpr (Or.inl (h.values e₀ he₀))
    · obtain ⟨r, _, heq⟩ := List.mem_map.mp hadded
      rw [← heq]
      exact (hleft _).mpr (Or.inr rfl)
  · -- the pairs of the range come
    have hpairs : s'.records.map (fun e => e.2.1) =
        s.records.map (fun e => e.2.1) ++ range.map (Prod.mk l) := by
      have := congrArg (List.map Prod.fst) hrecords
      rw [List.map_append, List.map_map, List.map_map, List.map_map] at this
      exact this
    rw [hpairs]
    exact h.joins.added hleft hnew hnodup hrange
  · intro d hd
    obtain ⟨e, he, hed⟩ := h.stale d (hdirty hd)
    exact ⟨e, hold e he, hed⟩

/-- **A record comes on the right.**  The same from the other side, hence the swaps. -/
theorem Tied.onRight (h : Tied g k k' left right stale s) {r : Handle} {v' : T'}
    (hnew : ∀ v, (r, v) ∉ right) (hright : ∀ e, e ∈ right' ↔ e ∈ right ∨ e = (r, v'))
    {range : List (Handle × T)} (hnodup : (range.map Prod.fst).Nodup)
    (hrange : ∀ e, e ∈ range ↔ e ∈ left ∧ k e.2 = k' v') (m : JoinMaker A) :
    ∃ s', onRight g m r range s = some s' ∧ Tied g k k' left right' stale s' := by
  obtain ⟨s', hrun, hmaintained, hrecords, hold, hdirty⟩ :=
    h.maintained.addAll m (range.map fun l => ((l.1, r), l.2)) s
  refine ⟨s', hrun, hmaintained, ?_, ?_, ?_⟩
  · intro e he
    rcases mem_added hrecords he with ⟨e₀, he₀, heq⟩ | hadded
    · rw [← heq]
      exact h.values e₀ he₀
    · obtain ⟨l, hl, heq⟩ := List.mem_map.mp hadded
      rw [← heq]
      exact ((hrange l).mp hl).1
  · -- the pairs come with their sides swapped
    have hpairs : s'.records.map (fun e => e.2.1) =
        ((s.records.map (fun e => e.2.1)).map Prod.swap ++
          (range.map Prod.fst).map (Prod.mk r)).map Prod.swap := by
      have := congrArg (List.map Prod.fst) hrecords
      rw [List.map_append, List.map_map, List.map_map, List.map_map] at this
      rw [List.map_append, List.map_map, List.map_map, List.map_map, List.map_map]
      exact this
    rw [hpairs]
    refine (h.joins.swap.added hright hnew hnodup ?_).swap
    intro l
    rw [List.mem_map]
    constructor
    · rintro ⟨e, he, rfl⟩
      exact ⟨e.2, (hrange e).mp he⟩
    · rintro ⟨v, hv, hkey⟩
      exact ⟨(l, v), (hrange (l, v)).mpr ⟨hv, hkey⟩, rfl⟩
  · intro d hd
    obtain ⟨e, he, hed⟩ := h.stale d (hdirty hd)
    exact ⟨e, hold e he, hed⟩

/-- **The slot of `modified`** leaves the records, and brings the aggregates up to date with those
    of the iterator. -/
theorem Maintained.onModified (h : Maintained g s) (m : JoinMaker A) (side : JoinedIndex)
    (record : JoinedKeys Q side) :
    ∃ s', onModified g m side record s = some s' ∧ Maintained g s' ∧ s'.records = s.records ∧
      ∀ d ∈ s'.dirty, d ∈ s.dirty ∧ ∀ v, (d, v) ∈ s.records → keyers g side v ≠ record := by
  -- what the index finds are the joined records of the iterator
  obtain ⟨x, hx, hrange⟩ := Grouped.Maintained.index h side
  obtain ⟨s', hrun, hmaintained, hrecords, hdirty⟩ := h.touchAll m (x.equalRange record) s (by
    intro j hj
    obtain ⟨v, hv, _⟩ := ((hrange record).2 j).mp hj
    exact List.mem_map_of_mem hv)
  refine ⟨s', ?_, hmaintained, hrecords, ?_⟩
  · unfold GroupedJoin.onModified
    rw [hx]
    exact hrun
  · intro d hd
    obtain ⟨hd, hnot⟩ := hdirty d hd
    exact ⟨hd, fun v hv hkey => hnot (((hrange record).2 d).mpr ⟨v, hv, hkey⟩)⟩

/-- **A record is committed on the left**: its joined records are committed, and their aggregates
    are no longer behind. -/
theorem Tied.modifiedLeft (h : Tied g k k' left right stale s) (l : Handle) (m : JoinMaker A) :
    ∃ s', GroupedJoin.onModified g m .left l s = some s' ∧
      Tied g k k' left right (stale.filter fun x => x ≠ l) s' := by
  obtain ⟨s', hrun, hmaintained, hrecords, hdirty⟩ := h.maintained.onModified m .left l
  refine ⟨s', hrun, hmaintained, ?_, ?_, ?_⟩
  · rw [hrecords]
    exact h.values
  · rw [hrecords]
    exact h.joins
  · -- what is behind still is so for another record
    intro d hd
    obtain ⟨hd, hnot⟩ := hdirty d hd
    obtain ⟨e, he, rfl, hstale⟩ := h.stale d hd
    refine ⟨e, by rw [hrecords]; exact he, rfl, List.mem_filter.mpr ⟨hstale, ?_⟩⟩
    exact decide_eq_true (hnot e.2 he)

/-- **A record is committed on the right**: aggregates do not depend on it, so this only makes some
    of them anew. -/
theorem Tied.modifiedRight (h : Tied g k k' left right stale s) (r : Handle) (m : JoinMaker A) :
    ∃ s', GroupedJoin.onModified g m .right r s = some s' ∧ Tied g k k' left right stale s' := by
  obtain ⟨s', hrun, hmaintained, hrecords, hdirty⟩ := h.maintained.onModified m .right r
  refine ⟨s', hrun, hmaintained, ?_, ?_, ?_⟩
  · rw [hrecords]
    exact h.values
  · rw [hrecords]
    exact h.joins
  · intro d hd
    rw [hrecords]
    exact h.stale d (hdirty d hd).1

/-- **A record goes from the right**, and all of its pairs with it. -/
theorem Tied.onRemoved (h : Tied g k k' left right stale s) (r : Handle) (m : JoinMaker A) :
    ∃ s', onRemoved g m r s = some s' ∧
      Tied g k k' left (right.filter fun e => e.1 ≠ r) stale s' := by
  obtain ⟨x, hx, hrange⟩ := Grouped.Maintained.index h.maintained .right
  obtain ⟨hnodup, hmem⟩ := hrange r
  obtain ⟨s', hrun, hmaintained, hrecords, hdirty⟩ := h.maintained.dropAll m (x.equalRange r) s
    hnodup (by
      intro j hj
      obtain ⟨v, hv, _⟩ := (hmem j).mp hj
      exact List.mem_map_of_mem hv)
  -- the handle index has exactly the pairs with `r`
  have hfilter : s'.records = s.records.filter fun e => e.2.1.2 ≠ r := by
    rw [hrecords]
    apply List.filter_congr
    intro e he
    rw [decide_eq_decide, not_iff_not, hmem]
    constructor
    · rintro ⟨v, hv, hkey⟩
      rw [← List.inj_on_of_nodup_map h.maintained.nodup hv he rfl]
      exact hkey
    · intro hkey
      exact ⟨e.2, he, hkey⟩
  refine ⟨s', ?_, hmaintained, ?_, ?_, ?_⟩
  · unfold GroupedJoin.onRemoved
    rw [hx]
    exact hrun
  · intro e he
    rw [hfilter] at he
    exact h.values e (List.mem_of_mem_filter he)
  · -- without the record its pairs match no more
    have hdropped := (h.joins.swap.dropped r).swap
    rw [hfilter]
    rw [List.filter_map, List.filter_map, List.map_map, List.map_map] at hdropped
    exact hdropped
  · intro d hd
    obtain ⟨hd, hnot⟩ := hdirty d hd
    obtain ⟨e, he, rfl, hstale⟩ := h.stale d hd
    refine ⟨e, ?_, rfl, hstale⟩
    rw [hrecords]
    exact List.mem_filter.mpr ⟨he, decide_eq_true hnot⟩

/-- **All records go from the right**, and all pairs. -/
theorem Tied.cleared (h : Tied g k k' left right stale s) (m : JoinMaker A) :
    ∃ s', Grouped.clear (grouping g) m.grouped s = some s' ∧
      Tied g k k' left ([] : List (Handle × T')) stale s' := by
  obtain ⟨s', hclear, hmaintained, hrecords, hdirty⟩ :=
    Grouped.Maintained.clear h.maintained m.grouped
  refine ⟨s', hclear, hmaintained, ?_, ?_, ?_⟩
  · rw [hrecords]
    exact fun _ he => absurd he List.not_mem_nil
  · rw [hrecords]
    exact (Lib.joins_nil left).swap
  · rw [hdirty]
    exact fun _ hd => absurd hd List.not_mem_nil

/-- **A record on the left is written to in place**, its key and its group being kept.  The pairs
    are as before, their values are the new one, and the record is stale until it is committed. -/
theorem Tied.onWritten (h : Tied g k k' left right stale s) {l : Handle} {old v : T}
    (hnodup : (left.map Prod.fst).Nodup) (hold : (l, old) ∈ left) (hkey : k v = k old)
    (hgroup : g.ukey v = g.ukey old) (m : JoinMaker A) :
    ∃ s', onWritten g m l v s = some s' ∧
      Tied g k k' (left.map fun e => if e.1 = l then (l, v) else e) right (l :: stale) s' := by
  obtain ⟨x, hx, hrange⟩ := Grouped.Maintained.index h.maintained .left
  have hmem := (hrange l).2
  -- the joined records of `l` all dereference to its old value
  have hvalue : ∀ e ∈ s.records, e.2.1.1 = l → e.2.2 = old := by
    intro e he heq
    have hleft := h.values e he
    rw [heq] at hleft
    exact congrArg Prod.snd (List.inj_on_of_nodup_map hnodup hleft hold rfl)
  obtain ⟨s', hrun, hmaintained, hrecords, hdirty⟩ := h.maintained.assignAll m v
    (x.equalRange l) s (by
      intro j hj
      obtain ⟨w, hw, hleft⟩ := (hmem j).mp hj
      exact ⟨w, hw, by rw [hvalue _ hw hleft]; exact hgroup⟩)
  -- and they are the ones the handle index finds
  have hin : ∀ e ∈ s.records, e.1 ∈ x.equalRange l ↔ e.2.1.1 = l := by
    intro e he
    rw [hmem]
    constructor
    · rintro ⟨w, hw, hleft⟩
      rw [← List.inj_on_of_nodup_map h.maintained.nodup hw he rfl]
      exact hleft
    · intro hleft
      exact ⟨e.2, he, hleft⟩
  refine ⟨s', ?_, hmaintained, ?_, ?_, ?_⟩
  · unfold GroupedJoin.onWritten
    rw [hx]
    exact hrun
  · intro e he
    rw [hrecords] at he
    obtain ⟨e₀, he₀, rfl⟩ := List.mem_map.mp he
    have hleft := h.values e₀ he₀
    -- a pair of the record has the new value, any other its old one
    by_cases heq : e₀.2.1.1 = l
    · rw [if_pos ((hin e₀ he₀).mpr heq)]
      exact List.mem_map.mpr ⟨_, hleft, by rw [if_pos heq]; exact Prod.ext heq.symm rfl⟩
    · rw [if_neg (mt (hin e₀ he₀).mp heq)]
      exact List.mem_map.mpr ⟨_, hleft, if_neg heq⟩
  · -- the pairs are the iterators, which are not written to
    have hpairs : s'.records.map (fun e => e.2.1) = s.records.map fun e => e.2.1 := by
      rw [hrecords, List.map_map]
      apply List.map_congr_left
      intro e _
      show (if e.1 ∈ x.equalRange l then (e.1, (e.2.1, v)) else e).2.1 = e.2.1
      split <;> rfl
    rw [hpairs]
    refine h.joins.congr ?_
    intro i q
    constructor
    · rintro ⟨w, hw, rfl⟩
      by_cases heq : i = l
      · subst heq
        obtain rfl : w = old := congrArg Prod.snd (List.inj_on_of_nodup_map hnodup hw hold rfl)
        exact ⟨v, List.mem_map.mpr ⟨_, hw, if_pos rfl⟩, hkey⟩
      · exact ⟨w, List.mem_map.mpr ⟨_, hw, if_neg heq⟩, rfl⟩
    · rintro ⟨w, hw, rfl⟩
      obtain ⟨e, he, heq⟩ := List.mem_map.mp hw
      split at heq
      · obtain ⟨rfl, rfl⟩ := Prod.mk.inj heq
        exact ⟨old, hold, hkey.symm⟩
      · exact ⟨w, heq ▸ he, rfl⟩
  · intro d hd
    rcases hdirty d hd with hd | hd
    · obtain ⟨e, he, rfl, hstale⟩ := h.stale d hd
      refine ⟨_, by rw [hrecords]; exact List.mem_map_of_mem he, ?_, ?_⟩
      · split <;> rfl
      · refine List.mem_cons_of_mem _ ?_
        split <;> exact hstale
    · -- it has become dirty with this one
      obtain ⟨w, hw, hleft⟩ := (hmem d).mp hd
      refine ⟨_, by rw [hrecords]; exact List.mem_map_of_mem hw, ?_, ?_⟩
      · split <;> rfl
      · rw [if_pos hd]
        exact List.mem_cons.mpr (Or.inl hleft)

/-! ## What is grouped -/

variable [DecidableEq P]

/-- **With one record a key on the right**, the left records that have a match are joined once each:
    a left record determines the pair, and the pair its joined record. -/
theorem Tied.left_perm (h : Tied g k k' left right stale s) (hnodup : (left.map Prod.fst).Nodup)
    (hunique : ∀ e ∈ right, ∀ e' ∈ right, k' e.2 = k' e'.2 → e = e') :
    (s.records.map fun e => (e.2.1.1, e.2.2)).Perm
      (left.filter fun e => k e.2 ∈ right.map fun e => k' e.2) := by
  -- a pair is there because the keys of its two records agree
  have hmatched : ∀ e ∈ s.records, ∃ v', (e.2.1.2, v') ∈ right ∧ k e.2.2 = k' v' := by
    intro e he
    obtain ⟨v, v', hv, hv', hkey⟩ := (h.joins.mem_iff e.2.1).mp (List.mem_map_of_mem he)
    obtain rfl : v = e.2.2 :=
      congrArg Prod.snd (List.inj_on_of_nodup_map hnodup hv (h.values e he) rfl)
    exact ⟨v', hv', hkey⟩
  refine (List.perm_ext_iff_of_nodup ?_ ((List.Nodup.of_map _ hnodup).filter _)).mpr ?_
  · -- records of one left record have one right record
    refine List.Nodup.map_on ?_ (List.Nodup.of_map _ h.joins.nodup)
    intro x hx y hy heq
    obtain ⟨hl, hv⟩ := Prod.mk.inj heq
    obtain ⟨v', hv', hkey⟩ := hmatched x hx
    obtain ⟨w', hw', hkey'⟩ := hmatched y hy
    have hr := congrArg Prod.fst (hunique _ hv' _ hw' (by rw [← hkey, ← hkey', hv]))
    exact List.inj_on_of_nodup_map h.joins.nodup hx hy (Prod.ext hl hr)
  · intro a
    rw [List.mem_map, List.mem_filter, decide_eq_true_eq, List.mem_map]
    constructor
    · -- a joined left record has a match
      rintro ⟨e, he, rfl⟩
      obtain ⟨v', hv', hkey⟩ := hmatched e he
      exact ⟨h.values e he, _, hv', hkey.symm⟩
    · -- and a left record with a match is joined
      rintro ⟨ha, e', he', hkey⟩
      obtain ⟨e, he, hpair⟩ := List.mem_map.mp
        ((h.joins.mem_iff (a.1, e'.1)).mpr ⟨a.2, e'.2, ha, he', hkey.symm⟩)
      refine ⟨e, he, ?_⟩
      have hl : e.2.1.1 = a.1 := congrArg Prod.fst hpair
      exact List.inj_on_of_nodup_map hnodup (h.values e he) ha hl

omit [DecidableEq P] in
/-- **With nothing stale the aggregates are exact**: each is made of the left records that are
    joined. -/
theorem Tied.exact (h : Tied g k k' left right [] s) :
    ∃ aggregate, s.aggregate = some aggregate ∧
      (aggregate.records.map fun r => g.akey r.2).Nodup ∧
      (∀ q, (∃ r ∈ aggregate.records, g.akey r.2 = q) ↔
        ∃ r ∈ s.records.map (fun e => (e.2.1.1, e.2.2)), g.ukey r.2 = q) ∧
      ∀ r ∈ aggregate.records,
        g.Computed (s.records.map fun e => (e.2.1.1, e.2.2)) r.2 := by
  -- what is dirty is so for a stale record, and there is none
  have hdirty : s.dirty = [] := by
    refine List.eq_nil_iff_forall_not_mem.mpr ?_
    intro d hd
    obtain ⟨_, _, _, hno⟩ := h.stale d hd
    exact List.not_mem_nil hno
  obtain ⟨aggregate, haggregate, _, hkeys, hnodup, hcomputed⟩ :=
    Grouped.Maintained.exact h.maintained hdirty
  refine ⟨aggregate, haggregate, hnodup, ?_, ?_⟩
  · intro q
    rw [show (∃ r ∈ aggregate.records, g.akey r.2 = q) ↔ _ from hkeys q]
    constructor
    · rintro ⟨e, he, hkey⟩
      exact ⟨_, List.mem_map_of_mem he, hkey⟩
    · rintro ⟨_, hl, hkey⟩
      obtain ⟨e, he, rfl⟩ := List.mem_map.mp hl
      exact ⟨e, he, hkey⟩
  · intro r hr
    obtain ⟨a₀, items, heq, hkey, hitems⟩ := hcomputed r hr
    refine ⟨a₀, items.map Prod.snd, heq, hkey, ?_⟩
    refine (hitems.map Prod.snd).trans (List.Perm.of_eq ?_)
    show ((s.records.filter _).map Prod.snd).map Prod.snd = ((s.records.map _).filter _).map Prod.snd
    rw [List.filter_map, List.map_map, List.map_map]
    rfl

end GroupedJoin

end MicroProfiler.Sdb
