/-
  `join` of `sdb/transforms.h`: a table of matching pairs of records, patched as either side changes.

  1. **The code** — the slots `maintain_joined` connects to one side (`onCreate`, `onModify`,
     `onRemove`) and the set-up `join`.  A joined record is the pair of the iterators it was
     composed of; the joined table has an index by the address of the left record and one by the
     address of the right record.  Both sides' tables have, among whatever indexes their users ask
     for, the one the join uses (the component type `none`), keyed by values of one type `Q`.

  2. **The system** — `Joined.step`: an operation on either table, at any point, and the slots it
     triggers.

  3. **Incremental equals recomputed** (`join_recomputed`) — every slot does to the joined pairs what
     `Lib.Joins` asks for when a source comes or goes.  The argument is made once, for a table and
     its opposite: `Side.orient` puts the pairs the way that side sees them.
-/
import MicroProfiler.Sdb.Table
import MicroProfiler.Lib.Matching

namespace MicroProfiler.Sdb

/-- Where a table stands in the join. -/
inductive Side where
  | left
  | right
  deriving DecidableEq, Repr

/-- The keyers of the joined table's two indexes. -/
def Side.handle : Side → Handle × Handle → Handle
  | .left, p => p.1
  | .right, p => p.2

/-- The two composers. -/
def Side.compose : Side → Handle → Handle → Handle × Handle
  | .left, i, j => (i, j)
  | .right, i, j => (j, i)

/-- `table<joined_record<..>>`, with the indexes `maintain_joined` obtains. -/
abbrev JoinedTable := Table Side (Handle × Handle) fun _ => Handle

/-- Key types of a table's indexes: that of the join, and the others. -/
abbrev JoinKeys {ι : Type} (K : ι → Type) (Q : Type) : Option ι → Type
  | none => Q
  | some i => K i

instance {ι : Type} {K : ι → Type} {Q : Type} [DecidableEq Q] [∀ i, DecidableEq (K i)] :
    ∀ i, DecidableEq (JoinKeys K Q i)
  | none => inferInstanceAs (DecidableEq Q)
  | some i => inferInstanceAs (DecidableEq (K i))

variable {ι ι' T T' Q : Type} {K : ι → Type} {K' : ι' → Type}

/-- A table that can take part in a join. -/
abbrev SideTable (T Q : Type) (K : ι → Type) := Table (Option ι) T (JoinKeys K Q)

/-- `auto r = joined.create(); *r = value; r.commit();`. -/
def addJoined (m : Maker (Handle × Handle)) (joined : JoinedTable) (value : Handle × Handle) :
    Option JoinedTable :=
  let r := m.pick joined.handles
  ((joined.create r (m.construct joined.handles)).write r value).commitCreation r

/-- `on_create`, the slot of `created`. -/
def onCreate [DecidableEq Q] (m : Maker (Handle × Handle)) (side : Side) (keyer : T → Q)
    (table : SideTable T Q K) (opposite : Index T' Q) (record : Handle) (joined : JoinedTable) :
    Option JoinedTable :=
  (table.lookup record).bind fun v =>
    Lib.run (fun joined j => addJoined m joined (side.compose record j)) joined
      (opposite.equalRange (keyer v))

/-- The slot of `modified`. -/
def onModify (side : Side) (record : Handle) (joined : JoinedTable) : Option JoinedTable :=
  (joined.components side).map fun hindex =>
    (hindex.equalRange record).foldl Table.commitModification joined

/-- The slot of `removed`: the iterator leaves a node before it is erased, and erasing invalidates
    no other, so the range is the one at the start. -/
def onRemove (side : Side) (record : Handle) (joined : JoinedTable) : Option JoinedTable :=
  (joined.components side).map fun hindex => (hindex.equalRange record).foldl Table.remove joined

/-- The indexes `maintain_joined` obtains from the joined table, on behalf of both sides. -/
def handleIndexes : JoinedTable :=
  (Table.empty.component .left Side.left.handle .hashed).component .right Side.right.handle .hashed

/-- The set-up: the indexes of the three tables, then every record of the left one. -/
def join [DecidableEq ι] [DecidableEq ι'] [DecidableEq Q] (m : Maker (Handle × Handle))
    (leftBy : T → Q) (rightBy : T' → Q) (left : SideTable T Q K) (right : SideTable T' Q K') :
    Option (SideTable T Q K × SideTable T' Q K' × JoinedTable) :=
  let right := right.component none rightBy .hashed
  let left := left.component none leftBy .hashed
  (right.components none).bind fun rindex =>
    (Lib.run (fun joined record => onCreate m .left leftBy left rindex record joined) handleIndexes
      left.handles).map fun joined => (left, right, joined)

/-! ## What the slots do to the joined table -/

/-- The pairs the joined table holds. -/
def pairs (joined : JoinedTable) : List (Handle × Handle) := joined.records.map Prod.snd

/-- The joined table between two slots: nothing pending, indexed by both handles. -/
structure Linked (joined : JoinedTable) : Prop where
  consistent : joined.Consistent []
  keyer : ∀ side, joined.keyerOf side = some side.handle

theorem handleIndexes_linked : Linked handleIndexes where
  consistent := by
    have hempty : (Table.empty : JoinedTable).Consistent [] := Table.empty_consistent
    exact (hempty.component .left Side.left.handle .hashed).component .right _ .hashed
  keyer := fun side => by cases side <;> rfl

theorem Linked.clear {joined : JoinedTable} (h : Linked joined) : Linked joined.clear where
  consistent := h.consistent.clear
  keyer := fun side => (h.consistent.keyerOf_clear side).trans (h.keyer side)

/-- **A joined record is added** after those there are. -/
theorem Linked.addJoined {joined : JoinedTable} (h : Linked joined) (m : Maker (Handle × Handle))
    (value : Handle × Handle) :
    ∃ joined', addJoined m joined value = some joined' ∧ Linked joined' ∧
      pairs joined' = pairs joined ++ [value] := by
  have hfresh := m.fresh joined.handles
  have hcreated := h.consistent.create hfresh (m.construct joined.handles)
  have hwritten : ((joined.create (m.pick joined.handles) (m.construct joined.handles)).write
      (m.pick joined.handles) value).Consistent [m.pick joined.handles] :=
    hcreated.write (Or.inl List.mem_cons_self)
  obtain ⟨joined', hcommit, hrecords, hkeyer, hconsistent⟩ :=
    hwritten.commitCreation List.mem_cons_self
  have hpending : ([m.pick joined.handles].filter fun h => h ≠ m.pick joined.handles) = [] := by
    simp
  rw [hpending] at hconsistent
  refine ⟨joined', hcommit, ⟨hconsistent, fun side => (hkeyer side).trans (h.keyer side)⟩, ?_⟩
  unfold pairs
  rw [hrecords]
  -- no other record is at the address the value is written to
  have hothers : joined.records.map (fun r => if r.1 = m.pick joined.handles then
      (m.pick joined.handles, value) else r) = joined.records := by
    refine (List.map_congr_left fun r hr => if_neg ?_).trans (List.map_id _)
    intro heq
    exact hfresh (heq ▸ List.mem_map_of_mem hr)
  show List.map Prod.snd (List.map _ (joined.records ++ [(m.pick joined.handles, _)])) = _
  rw [List.map_append, hothers, List.map_append]
  simp

theorem Linked.addAll (m : Maker (Handle × Handle)) (f : Handle → Handle × Handle) :
    ∀ (others : List Handle) (joined : JoinedTable), Linked joined →
      ∃ joined', Lib.run (fun joined j => Sdb.addJoined m joined (f j)) joined others =
          some joined' ∧
        Linked joined' ∧ pairs joined' = pairs joined ++ others.map f := by
  intro others
  induction others with
  | nil =>
    intro joined h
    exact ⟨joined, rfl, h, by rw [List.map_nil, List.append_nil]⟩
  | cons j others ih =>
    intro joined h
    obtain ⟨joined₁, hadd, h₁, hpairs₁⟩ := h.addJoined m (f j)
    obtain ⟨joined', hrun, h', hpairs'⟩ := ih joined₁ h₁
    refine ⟨joined', Lib.run_cons_eq_some.mpr ⟨joined₁, hadd, hrun⟩, h', ?_⟩
    rw [hpairs', hpairs₁, List.append_assoc]
    rfl

/-- Removing live records one by one. -/
theorem Linked.removeAll : ∀ (doomed : List Handle) (joined : JoinedTable), Linked joined →
    doomed.Nodup → (∀ h ∈ doomed, h ∈ joined.handles) →
    Linked (doomed.foldl Table.remove joined) ∧
      (doomed.foldl Table.remove joined).records =
        joined.records.filter fun r => r.1 ∉ doomed := by
  intro doomed
  induction doomed with
  | nil =>
    intro joined h _ _
    refine ⟨h, ?_⟩
    show joined.records = _
    rw [List.filter_eq_self.mpr fun r _ => decide_eq_true List.not_mem_nil]
  | cons d doomed ih =>
    intro joined h hnodup hlive
    obtain ⟨hd, hrest⟩ := List.nodup_cons.mp hnodup
    have hdlive := hlive d List.mem_cons_self
    have hremoved : Linked (joined.remove d) := by
      refine ⟨h.consistent.remove hdlive, fun side => ?_⟩
      exact (h.consistent.keyerOf_notifyRemoved d side).trans (h.keyer side)
    have hlive' : ∀ x ∈ doomed, x ∈ (joined.remove d).handles := by
      intro x hx
      obtain ⟨r, hr, rfl⟩ := List.mem_map.mp (hlive x (List.mem_cons_of_mem _ hx))
      refine List.mem_map.mpr ⟨r, List.mem_filter.mpr ⟨hr, decide_eq_true ?_⟩, rfl⟩
      rintro rfl
      exact hd hx
    obtain ⟨hlinked, hrecords⟩ := ih (joined.remove d) hremoved hrest hlive'
    refine ⟨hlinked, ?_⟩
    show (doomed.foldl Table.remove (joined.remove d)).records = _
    rw [hrecords]
    show (joined.records.filter _).filter _ = _
    rw [List.filter_filter]
    apply List.filter_congr
    intro r _
    simp [Bool.and_comm]

/-- **The slot of `modified`** tells the joined table's components, which do nothing. -/
theorem Linked.onModify {joined : JoinedTable} (h : Linked joined) (side : Side) (record : Handle) :
    onModify side record joined = some joined := by
  obtain ⟨hindex, hx, _⟩ := Option.map_eq_some_iff.mp (h.keyer side)
  unfold Sdb.onModify
  rw [hx, Option.map_some, Option.some_inj]
  induction hindex.equalRange record with
  | nil => rfl
  | cons j range ih =>
    rw [List.foldl_cons, h.consistent.commitModification]
    exact ih

/-- **The slot of `removed`** leaves the pairs without the record. -/
theorem Linked.onRemove {joined : JoinedTable} (h : Linked joined) (side : Side) (record : Handle) :
    ∃ joined', onRemove side record joined = some joined' ∧ Linked joined' ∧
      pairs joined' = (pairs joined).filter fun p => side.handle p ≠ record := by
  obtain ⟨hindex, hx, hkeyer⟩ := Option.map_eq_some_iff.mp (h.keyer side)
  have hexact := h.consistent.exact side hindex hx
  rw [Table.settled_nil] at hexact
  have hmem : ∀ r ∈ joined.records,
      r.1 ∈ hindex.equalRange record ↔ side.handle r.2 = record := by
    intro r hr
    rw [hexact.mem_equalRange, hkeyer]
    constructor
    · rintro ⟨v, hv, hhandle⟩
      rw [← List.inj_on_of_nodup_map h.consistent.nodup hv hr rfl]
      exact hhandle
    · intro hhandle
      exact ⟨r.2, hr, hhandle⟩
  have hlive : ∀ x ∈ hindex.equalRange record, x ∈ joined.handles := by
    intro x hx
    obtain ⟨v, hv, _⟩ := hexact.mem_equalRange.mp hx
    exact List.mem_map_of_mem hv
  have hnodup := hexact.nodup_equalRange h.consistent.nodup record
  obtain ⟨hlinked, hrecords⟩ := Linked.removeAll _ joined h hnodup hlive
  refine ⟨_, by rw [Sdb.onRemove, hx]; rfl, hlinked, ?_⟩
  unfold pairs
  rw [hrecords, List.filter_map]
  congr 1
  apply List.filter_congr
  intro r hr
  show decide (r.1 ∉ _) = decide (side.handle r.2 ≠ record)
  rw [decide_eq_decide, not_iff_not]
  exact hmem r hr

/-! ## The two tables and their join -/

/-- A side in use. -/
abbrev SideSession (T Q : Type) (K : ι → Type) := Session (Option ι) T (JoinKeys K Q)

/-- Both sides in use and, once `join` has been called, the joined table. -/
structure Joined (T T' Q : Type) (K : ι → Type) (K' : ι' → Type) where
  left : SideSession T Q K
  right : SideSession T' Q K'
  joined : Option JoinedTable

/-- What can happen: an operation on a side (with what the joined table's allocator and constructor
    would give meanwhile), obtaining the index the join uses on a side, and the call of `join`. -/
inductive JoinAction (T T' Q : Type) (K : ι → Type) (K' : ι' → Type) where
  | left (op : Operation (Option ι) T (JoinKeys K Q)) (m : Maker (Handle × Handle))
  | right (op : Operation (Option ι') T' (JoinKeys K' Q)) (m : Maker (Handle × Handle))
  | leftIndex
  | rightIndex
  | join (m : Maker (Handle × Handle))

section

variable [DecidableEq ι] [DecidableEq Q] [∀ i, DecidableEq (K i)]

/-- An operation on a side, and the slots of the join it triggers. -/
def performSide (side : Side) (keyer : T → Q) (s : SideSession T Q K)
    (opposite : Option (Index T' Q)) (joined : Option JoinedTable) (m : Maker (Handle × Handle)) :
    Operation (Option ι) T (JoinKeys K Q) → Option (SideSession T Q K × Option JoinedTable)
  | .commit record =>
      let slot (table : SideTable T Q K) (joined : JoinedTable) :=
        if record ∈ s.pending then
          opposite.bind fun x => onCreate m side keyer table x record joined
        else
          onModify side record joined
      (s.perform (.commit record)).bind fun s' =>
        (emit (slot s'.table) joined).map fun joined => (s', joined)
  | .remove record =>
      let notified := s.table.notifyRemoved record
      (emit (onRemove side record) joined).map fun joined =>
        (⟨notified.erase record, s.pending.filter fun h => h ≠ record⟩, joined)
  | .clear => some (⟨s.table.clear, []⟩, joined.map Table.clear)
  | op => (s.perform op).map fun s' => (s', joined)

end

/-! ### One side -/

/-- A side's invariant on its own: consistent, and an index of the join's type has its keyer. -/
structure SideSound (k : T → Q) (s : SideSession T Q K) : Prop where
  /-- as any table in use -/
  consistent : s.table.Consistent s.pending
  /-- nobody else has an index of the join's type -/
  keyer : ∀ k', s.table.keyerOf none = some k' → k' = k

/-- The pairs as a side sees them: its own handle first.  With this the two sides need one proof. -/
def Side.orient : Side → List (Handle × Handle) → List (Handle × Handle)
  | .left, ps => ps
  | .right, ps => ps.map Prod.swap

/-- A side's slot adds pairs of its record. -/
theorem Side.orient_append (side : Side) (ps : List (Handle × Handle)) (record : Handle)
    (others : List Handle) :
    side.orient (ps ++ others.map (side.compose record)) =
      side.orient ps ++ others.map (Prod.mk record) := by
  cases side with
  | left => rfl
  | right =>
    show (ps ++ others.map _).map Prod.swap = _
    rw [List.map_append, List.map_map]
    rfl

/-- And takes away those of its record. -/
theorem Side.orient_filter (side : Side) (ps : List (Handle × Handle)) (record : Handle) :
    side.orient (ps.filter fun p => side.handle p ≠ record) =
      (side.orient ps).filter fun p => p.1 ≠ record := by
  cases side with
  | left => rfl
  | right =>
    show (ps.filter _).map Prod.swap = (ps.map Prod.swap).filter _
    rw [List.filter_map]
    rfl

/-- The joined table lists the matching pairs of settled records, as seen from a side. -/
structure Follows (side : Side) (k : T → Q) (k' : T' → Q) (s : SideSession T Q K)
    (opposite : SideSession T' Q K') (joined : JoinedTable) : Prop where
  /-- each side has its index -/
  index : s.table.keyerOf none = some k
  oppositeIndex : opposite.table.keyerOf none = some k'
  /-- the joined table is in order itself -/
  linked : Linked joined
  /-- and lists the pairs -/
  joins : Lib.Joins k k' (s.table.settled s.pending) (opposite.table.settled opposite.pending)
    (side.orient (pairs joined))

/-- **Both sides see the same pairs**, each with its own handle first. -/
theorem Follows.turn {k : T → Q} {k' : T' → Q} {left : SideSession T Q K}
    {right : SideSession T' Q K'} {joined : JoinedTable} :
    Follows .left k k' left right joined ↔ Follows .right k' k right left joined := by
  constructor
  · rintro ⟨hindex, hindex', hlinked, hjoins⟩
    exact ⟨hindex', hindex, hlinked, hjoins.swap⟩
  · rintro ⟨hindex, hindex', hlinked, hjoins⟩
    refine ⟨hindex', hindex, hlinked, ?_⟩
    have hswap := hjoins.swap
    show Lib.Joins k k' _ _ (pairs joined)
    have hid : ((pairs joined).map Prod.swap).map Prod.swap = pairs joined := by
      rw [List.map_map, Prod.swap_swap_eq, List.map_id]
    exact hid ▸ hswap

/-- **`on_create`** pairs the record with the opposite records of its key. -/
theorem Linked.onCreate [DecidableEq Q] {joined : JoinedTable} (h : Linked joined)
    (m : Maker (Handle × Handle)) (side : Side) (k : T → Q) {table : SideTable T Q K}
    {record : Handle} {v : T} (hlookup : table.lookup record = some v) (x : Index T' Q) :
    ∃ joined', onCreate m side k table x record joined = some joined' ∧ Linked joined' ∧
      pairs joined' = pairs joined ++ (x.equalRange (k v)).map (side.compose record) := by
  obtain ⟨joined', hrun, hlinked, hpairs⟩ :=
    Linked.addAll m (side.compose record) (x.equalRange (k v)) joined h
  refine ⟨joined', ?_, hlinked, hpairs⟩
  unfold Sdb.onCreate
  rw [hlookup]
  exact hrun

section

variable {side : Side} {k : T → Q} {k' : T' → Q} {s s' : SideSession T Q K}
  {opposite : SideSession T' Q K'} {joined : JoinedTable}

/-- Only the keys of the settled records matter. -/
theorem Follows.congr (h : Follows side k k' s opposite joined)
    (hindex : s'.table.keyerOf none = s.table.keyerOf none)
    (hkeys : ∀ i q, (∃ v, (i, v) ∈ s.table.settled s.pending ∧ k v = q) ↔
      ∃ v, (i, v) ∈ s'.table.settled s'.pending ∧ k v = q) :
    Follows side k k' s' opposite joined :=
  ⟨hindex.trans h.index, h.oppositeIndex, h.linked, h.joins.congr hkeys⟩

/-- **A record is committed** for the first time: it is paired with what the opposite index has for
    its key. -/
theorem Follows.created [DecidableEq Q] {c : SideSession T Q K}
    (h : Follows side k k' s opposite joined)
    (hs : s.table.Consistent s.pending) (hopposite : opposite.table.Consistent opposite.pending)
    {record : Handle} (hpending : record ∈ s.pending)
    (hrecords : c.table.records = s.table.records)
    (hindex : c.table.keyerOf none = s.table.keyerOf none)
    (hpending' : c.pending = s.pending.filter fun h => h ≠ record)
    (m : Maker (Handle × Handle)) :
    ∃ joined', ((opposite.table.components none).bind fun x =>
        onCreate m side k c.table x record joined) = some joined' ∧
      Follows side k k' c opposite joined' := by
  obtain ⟨v, hmem⟩ := Table.exists_value (hs.live record hpending)
  obtain ⟨x, hx, hxkeyer⟩ := Option.map_eq_some_iff.mp h.oppositeIndex
  have hlookup : c.table.lookup record = some v := by
    unfold Table.lookup
    rw [hrecords]
    exact (Table.lookup_eq_some hs.nodup).mpr hmem
  obtain ⟨joined', hcreate, hlinked, hpairs⟩ := h.linked.onCreate m side k hlookup x
  refine ⟨joined', by rw [hx]; exact hcreate, hindex.trans h.index, h.oppositeIndex, hlinked, ?_⟩
  have hexact : x.Exact (opposite.table.settled opposite.pending) := hopposite.exact none x hx
  rw [hpairs, side.orient_append]
  refine h.joins.added (v := v) ?_ ?_ (hexact.nodup_equalRange
    (Table.nodup_settled hopposite.nodup) _) ?_
  · rw [hpending']
    exact Table.mem_settled_commit hrecords hs.nodup hmem hpending
  · intro v' hv'
    exact of_decide_eq_true (List.mem_filter.mp hv').2 hpending
  · intro j
    rw [← hxkeyer]
    exact hexact.mem_equalRange

/-- **A record is removed**, pending or not. -/
theorem Follows.removed [DecidableEq ι] (h : Follows side k k' s opposite joined)
    (hs : s.table.Consistent s.pending) (record : Handle) :
    ∃ joined', onRemove side record joined = some joined' ∧
      Follows side k k' ⟨(s.table.notifyRemoved record).erase record,
        s.pending.filter fun h => h ≠ record⟩ opposite joined' := by
  obtain ⟨joined', hslot, hlinked, hpairs⟩ := h.linked.onRemove side record
  refine ⟨joined', hslot, (hs.keyerOf_notifyRemoved record none).trans h.index, h.oppositeIndex,
    hlinked, ?_⟩
  rw [Table.settled_erase, Table.settled_notifyRemoved, hpairs, side.orient_filter]
  exact h.joins.dropped record

/-- **The side is cleared**, and the joined table with it. -/
theorem Follows.cleared [DecidableEq ι] (h : Follows side k k' s opposite joined)
    (hs : s.table.Consistent s.pending) :
    Follows side k k' ⟨s.table.clear, []⟩ opposite joined.clear where
  index := (hs.keyerOf_clear none).trans h.index
  oppositeIndex := h.oppositeIndex
  linked := h.linked.clear
  joins := by
    have hnil : side.orient (pairs joined.clear) = [] := by cases side <;> rfl
    rw [hnil]
    exact Lib.joins_nil _

end

/-! ### Every operation on a side -/

section

variable [DecidableEq ι] [DecidableEq Q] [∀ i, DecidableEq (K i)] {side : Side} {k : T → Q}
  {k' : T' → Q} {s : SideSession T Q K} {opposite : SideSession T' Q K'}
  {joined : Option JoinedTable}

/-- What an operation on a side comes to: it returns, and the joined table follows. -/
def Keeps (side : Side) (k : T → Q) (k' : T' → Q) (s : SideSession T Q K)
    (opposite : SideSession T' Q K') (joined : Option JoinedTable) (m : Maker (Handle × Handle))
    (op : Operation (Option ι) T (JoinKeys K Q)) : Prop :=
  ∃ s' joined', performSide side k s (opposite.table.components none) joined m op =
      some (s', joined') ∧
    SideSound k s' ∧ ∀ j, joined' = some j → Follows side k k' s' opposite j

/-- **A commit** pairs a new record, and signals for one that was there. -/
theorem commit_keeps (hs : SideSound k s) (hopposite : SideSound k' opposite)
    (hfollows : ∀ j, joined = some j → Follows side k k' s opposite j) {record : Handle}
    (m : Maker (Handle × Handle)) : Keeps side k k' s opposite joined m (.commit record) := by
  obtain ⟨t, pending⟩ := s
  unfold Keeps performSide
  by_cases hpending : record ∈ pending
  · -- new
    obtain ⟨t', hperform, hrecords, hkeyer, hcon⟩ :=
      Session.perform_commit_pending hs.consistent hpending
    simp only [hperform, Option.bind_some, if_pos hpending]
    have hslot := fun j hj => (hfollows j hj).created
      (c := ⟨t', pending.filter fun h => h ≠ record⟩) hs.consistent hopposite.consistent hpending
      hrecords (hkeyer none) rfl m
    obtain ⟨joined', hemit, hfollows'⟩ := emit_establishes hslot
    refine ⟨_, joined', by rw [hemit]; rfl, ⟨hcon, ?_⟩, hfollows'⟩
    intro k₁ hk₁
    exact hs.keyer k₁ ((hkeyer none).symm.trans hk₁)
  · -- there before: its pairs are committed again, as they are
    have hperform := Session.perform_commit_settled hs.consistent hpending
    simp only [hperform, Option.bind_some, if_neg hpending]
    have hslot : ∀ j, joined = some j → ∃ j', onModify side record j = some j' ∧
        Follows side k k' ⟨t, pending⟩ opposite j' := fun j hj =>
      ⟨j, (hfollows j hj).linked.onModify side record, hfollows j hj⟩
    obtain ⟨joined', hemit, hfollows'⟩ := emit_establishes hslot
    exact ⟨_, joined', by rw [hemit]; rfl, hs, hfollows'⟩

/-- **A removal** takes the record's pairs along. -/
theorem remove_keeps (hs : SideSound k s)
    (hfollows : ∀ j, joined = some j → Follows side k k' s opposite j) {record : Handle}
    (hop : s.Allowed (.remove record)) (m : Maker (Handle × Handle)) :
    Keeps side k k' s opposite joined m (.remove record) := by
  obtain ⟨joined', hemit, hfollows'⟩ := emit_establishes
    fun j hj => (hfollows j hj).removed hs.consistent record
  refine ⟨_, joined', by rw [performSide, hemit]; rfl, ⟨hs.consistent.remove hop, ?_⟩, hfollows'⟩
  intro k₁ hk₁
  exact hs.keyer k₁ ((hs.consistent.keyerOf_notifyRemoved record none).symm.trans hk₁)

/-- **A write** keeps the keys, so it keeps the pairs. -/
theorem write_keeps (hs : SideSound k s)
    (hfollows : ∀ j, joined = some j → Follows side k k' s opposite j) {record : Handle} {value : T}
    (hop : s.Allowed (.write record value)) (m : Maker (Handle × Handle)) :
    Keeps side k k' s opposite joined m (.write record value) := by
  obtain ⟨s', hs', hcon⟩ := Session.perform_consistent hs.consistent hop
  obtain rfl : { s with table := s.table.write record value } = s' := Option.some.inj hs'
  refine ⟨_, joined, rfl, ⟨hcon, hs.keyer⟩, ?_⟩
  intro j hj
  exact (hfollows j hj).congr rfl (Session.keys_of_write hs.consistent hop (hfollows j hj).index)

/-- **Any other operation** settles no record and removes none. -/
theorem quiet_keeps (hs : SideSound k s)
    (hfollows : ∀ j, joined = some j → Follows side k k' s opposite j)
    {op : Operation (Option ι) T (JoinKeys K Q)} (hop : s.Allowed op) (hquiet : op.Quiet)
    (hspares : op.Spares none) :
    ∃ s' joined', (s.perform op).map (fun s' => (s', joined)) = some (s', joined') ∧
      SideSound k s' ∧ ∀ j, joined' = some j → Follows side k k' s' opposite j := by
  obtain ⟨s', hperform, hcon, hkeyer, hsettled⟩ :=
    Session.perform_quiet hs.consistent hop hquiet hspares
  refine ⟨s', joined, by rw [hperform]; rfl, ⟨hcon, fun k₁ hk₁ => hs.keyer k₁ (hkeyer ▸ hk₁)⟩, ?_⟩
  intro j hj
  refine (hfollows j hj).congr hkeyer ?_
  rw [hsettled]
  exact fun _ _ => Iff.rfl

/-- **One operation on a side** returns and keeps the invariant. -/
theorem performSide_keeps (hs : SideSound k s) (hopposite : SideSound k' opposite)
    (hfollows : ∀ j, joined = some j → Follows side k k' s opposite j)
    {op : Operation (Option ι) T (JoinKeys K Q)} (hop : s.Allowed op) (hspares : op.Spares none)
    (m : Maker (Handle × Handle)) : Keeps side k k' s opposite joined m op := by
  cases op with
  | commit record => exact commit_keeps hs hopposite hfollows m
  | remove record => exact remove_keeps hs hfollows hop m
  | write record value => exact write_keeps hs hfollows hop m
  | clear =>
    -- the joined table is cleared with the side
    refine ⟨_, _, rfl, ⟨hs.consistent.clear, ?_⟩, ?_⟩
    · intro k₁ hk₁
      exact hs.keyer k₁ ((hs.consistent.keyerOf_clear none).symm.trans hk₁)
    · intro j hj
      obtain ⟨j₀, hj₀, rfl⟩ := Option.map_eq_some_iff.mp hj
      exact (hfollows j₀ hj₀).cleared hs.consistent
  | create record value => exact quiet_keeps hs hfollows hop trivial hspares
  | index i keyer d => exact quiet_keeps hs hfollows hop trivial hspares
  | subscript i setKey key record value => exact quiet_keeps hs hfollows hop trivial hspares

/-! ### Setting up -/

omit [DecidableEq ι] [∀ i, DecidableEq (K i)] in
/-- **The loop of the set-up**, over the left records not visited yet. -/
theorem populateJoined {left : SideTable T Q K} (hleft : left.Consistent [])
    {x : Index T' Q} {sources' : List (Handle × T')} (hx : x.Exact sources')
    (hnodup : (sources'.map Prod.fst).Nodup) (hkeyer : x.keyer = k') (m : Maker (Handle × Handle)) :
    ∀ (rest seen : List (Handle × T)) (joined : JoinedTable), left.records = seen ++ rest →
      Linked joined → Lib.Joins k k' seen sources' (pairs joined) →
      ∃ joined', Lib.run (fun joined record => onCreate m .left k left x record joined) joined
          (rest.map Prod.fst) = some joined' ∧
        Linked joined' ∧ Lib.Joins k k' left.records sources' (pairs joined') := by
  intro rest
  induction rest with
  | nil =>
    intro seen joined hrecords hlinked hjoins
    refine ⟨joined, rfl, hlinked, ?_⟩
    rw [hrecords, List.append_nil]
    exact hjoins
  | cons r rest ih =>
    -- the record is paired, and counts as visited
    intro seen joined hrecords hlinked hjoins
    have hr : (r.1, r.2) ∈ left.records := by
      rw [hrecords]
      exact List.mem_append_right _ List.mem_cons_self
    obtain ⟨joined₁, hcreate, hlinked₁, hpairs₁⟩ := hlinked.onCreate m .left k
      ((Table.lookup_eq_some hleft.nodup).mpr hr) x
    have hhandles : (seen.map Prod.fst ++ (r :: rest).map Prod.fst).Nodup := by
      rw [← List.map_append, ← hrecords]
      exact hleft.nodup
    have hjoins₁ : Lib.Joins k k' (seen ++ [r]) sources' (pairs joined₁) := by
      rw [show pairs joined₁ = _ from hpairs₁]
      refine hjoins.added ?_ ?_ (hx.nodup_equalRange hnodup _) ?_ (i := r.1) (v := r.2)
      · intro s
        rw [List.mem_append, List.mem_singleton]
      · intro v hv
        exact (List.nodup_append.mp hhandles).2.2 r.1 (List.mem_map.mpr ⟨(r.1, v), hv, rfl⟩) r.1
          List.mem_cons_self rfl
      · intro j
        rw [← hkeyer]
        exact hx.mem_equalRange
    obtain ⟨joined', hrun, hlinked', hjoins'⟩ := ih (seen ++ [r]) joined₁
      (by rw [hrecords, List.append_cons]) hlinked₁ hjoins₁
    exact ⟨joined', Lib.run_cons_eq_some.mpr ⟨joined₁, hcreate, hrun⟩, hlinked', hjoins'⟩

/-- The index the join uses. -/
def SideSession.withIndex (s : SideSession T Q K) (k : T → Q) : SideSession T Q K :=
  { s with table := s.table.component none k .hashed }

omit [DecidableEq Q] [∀ i, DecidableEq (K i)] in
/-- An index that is obtained where nothing is pending is exact for all. -/
theorem SideSound.withIndex (hs : SideSound k s) (hpending : s.pending = []) :
    SideSound k (s.withIndex k) ∧ (s.withIndex k).table.keyerOf none = some k ∧
      (s.withIndex k).table.settled (s.withIndex k).pending = s.table.settled s.pending := by
  obtain ⟨t, pending⟩ := s
  obtain rfl : pending = [] := hpending
  have hindex := Table.keyerOf_component_self (i := none) hs.keyer .hashed
  refine ⟨⟨hs.consistent.component none k .hashed, ?_⟩, hindex, ?_⟩
  · intro k₁ hk₁
    exact Option.some.inj (hk₁.symm.trans hindex)
  · show Table.settled _ [] = Table.settled _ []
    rw [Table.settled_nil, Table.settled_nil]
    exact t.records_component none k .hashed

omit [∀ i, DecidableEq (K i)] in
/-- **The set-up**: both indexes are obtained, then the left records are paired one by one. -/
theorem join_follows [DecidableEq ι'] {left : SideSession T Q K} {right : SideSession T' Q K'}
    (hleft : SideSound k left) (hright : SideSound k' right) (hlpending : left.pending = [])
    (hrpending : right.pending = []) (m : Maker (Handle × Handle)) :
    ∃ joined, join m k k' left.table right.table =
        some ((left.withIndex k).table, (right.withIndex k').table, joined) ∧
      Follows .left k k' (left.withIndex k) (right.withIndex k') joined := by
  obtain ⟨hleft', hlindex, _⟩ := hleft.withIndex hlpending
  obtain ⟨hright', hrindex, _⟩ := hright.withIndex hrpending
  obtain ⟨x, hx, hxkeyer⟩ := Option.map_eq_some_iff.mp hrindex
  have hlcon : (left.withIndex k).table.Consistent [] := hlpending ▸ hleft'.consistent
  have hrcon : (right.withIndex k').table.Consistent [] := hrpending ▸ hright'.consistent
  have hexact : x.Exact (right.withIndex k').table.records := by
    have h := hrcon.exact none x hx
    rwa [Table.settled_nil] at h
  obtain ⟨joined, hrun, hlinked, hjoins⟩ := populateJoined hlcon hexact hrcon.nodup hxkeyer m
    _ [] handleIndexes rfl handleIndexes_linked (Lib.joins_nil _)
  refine ⟨joined, ?_, hlindex, hrindex, hlinked, ?_⟩
  · unfold join
    show ((right.withIndex k').table.components none).bind _ = _
    rw [hx]
    show (Lib.run _ _ _).map _ = _
    exact congrArg (Option.map _) hrun
  · show Lib.Joins k k' (Table.settled _ left.pending) (Table.settled _ right.pending) _
    rw [hlpending, hrpending, Table.settled_nil, Table.settled_nil]
    exact hjoins

end

/-! ## Every action -/

namespace Joined

/-- Two empty tables, not joined. -/
def new : Joined T T' Q K K' := ⟨.new, .new, none⟩

/-- The invariant. -/
structure Sound (leftBy : T → Q) (rightBy : T' → Q) (s : Joined T T' Q K K') : Prop where
  left : SideSound leftBy s.left
  right : SideSound rightBy s.right
  /-- once they are joined -/
  follows : ∀ j, s.joined = some j → Follows .left leftBy rightBy s.left s.right j

variable {leftBy : T → Q} {rightBy : T' → Q}

/-- Nothing to follow. -/
theorem new_sound : Sound leftBy rightBy (new : Joined T T' Q K K') where
  left := ⟨Table.empty_consistent, nofun⟩
  right := ⟨Table.empty_consistent, nofun⟩
  follows := nofun

variable [DecidableEq ι] [DecidableEq ι'] [DecidableEq Q] [∀ i, DecidableEq (K i)]
  [∀ i, DecidableEq (K' i)]

/-- The operation is one its table allows, an index of the join's type has its keyer, and `join` is
    called once, with nothing pending on either side. -/
def Allowed (s : Joined T T' Q K K') : JoinAction T T' Q K K' → Prop
  | .left op _ => s.left.Allowed op ∧ op.Spares none
  | .right op _ => s.right.Allowed op ∧ op.Spares none
  | .leftIndex => s.left.pending = []
  | .rightIndex => s.right.pending = []
  | .join _ => s.left.pending = [] ∧ s.right.pending = [] ∧ s.joined.isNone

instance (s : Joined T T' Q K K') (a : JoinAction T T' Q K K') : Decidable (s.Allowed a) := by
  cases a <;> unfold Allowed <;> infer_instance

/-- The action, and the slots it triggers: a side's slots read the other side's index. -/
def perform (leftBy : T → Q) (rightBy : T' → Q) (s : Joined T T' Q K K') :
    JoinAction T T' Q K K' → Option (Joined T T' Q K K')
  | .left op m =>
      (performSide .left leftBy s.left (s.right.table.components none) s.joined m op).map
        fun r => { s with left := r.1, joined := r.2 }
  | .right op m =>
      (performSide .right rightBy s.right (s.left.table.components none) s.joined m op).map
        fun r => { s with right := r.1, joined := r.2 }
  | .leftIndex => some { s with left := s.left.withIndex leftBy }
  | .rightIndex => some { s with right := s.right.withIndex rightBy }
  | .join m =>
      (join m leftBy rightBy s.left.table s.right.table).map fun r =>
        ⟨{ s.left with table := r.1 }, { s.right with table := r.2.1 }, some r.2.2⟩

/-- Only allowed actions are taken. -/
def step (leftBy : T → Q) (rightBy : T' → Q) (s : Joined T T' Q K K')
    (a : JoinAction T T' Q K K') : Option (Joined T T' Q K K') :=
  if s.Allowed a then s.perform leftBy rightBy a else none

/-- **One action** returns and keeps the invariant. -/
theorem perform_sound {s : Joined T T' Q K K'} (h : Sound leftBy rightBy s)
    {a : JoinAction T T' Q K K'} (ha : s.Allowed a) :
    ∃ s', s.perform leftBy rightBy a = some s' ∧ Sound leftBy rightBy s' := by
  obtain ⟨left, right, joined⟩ := s
  cases a with
  | left op m =>
    -- an operation on the left, seen from the left
    obtain ⟨left', joined', hperform, hsound, hfollows⟩ :=
      performSide_keeps h.left h.right h.follows ha.1 ha.2 m
    refine ⟨⟨left', right, joined'⟩, ?_, hsound, h.right, hfollows⟩
    show (performSide _ _ left _ joined m op).map _ = _
    rw [hperform]
    rfl
  | right op m =>
    -- one on the right is one on the left, with the sides turned
    obtain ⟨right', joined', hperform, hsound, hfollows⟩ := performSide_keeps h.right h.left
      (fun j hj => Follows.turn.mp (h.follows j hj)) ha.1 ha.2 m
    refine ⟨⟨left, right', joined'⟩, ?_, h.left, hsound,
      fun j hj => Follows.turn.mpr (hfollows j hj)⟩
    show (performSide _ _ right _ joined m op).map _ = _
    rw [hperform]
    rfl
  | leftIndex =>
    obtain ⟨hsound, hindex, hsettled⟩ := h.left.withIndex ha
    refine ⟨_, rfl, hsound, h.right, ?_⟩
    intro j hj
    refine (h.follows j hj).congr (hindex.trans (h.follows j hj).index.symm) ?_
    rw [hsettled]
    exact fun _ _ => Iff.rfl
  | rightIndex =>
    obtain ⟨hsound, hindex, hsettled⟩ := h.right.withIndex ha
    refine ⟨_, rfl, h.left, hsound, ?_⟩
    intro j hj
    have hturned := Follows.turn.mp (h.follows j hj)
    refine Follows.turn.mpr (hturned.congr (hindex.trans hturned.index.symm) ?_)
    rw [hsettled]
    exact fun _ _ => Iff.rfl
  | join m =>
    -- from here on the joined table is there
    obtain ⟨hlpending, hrpending, _⟩ := ha
    obtain ⟨j, hjoin, hfollows⟩ := join_follows h.left h.right hlpending hrpending m
    refine ⟨⟨left.withIndex leftBy, right.withIndex rightBy, some j⟩, ?_,
      (h.left.withIndex hlpending).1, (h.right.withIndex hrpending).1, ?_⟩
    · show (Sdb.join m leftBy rightBy left.table right.table).map _ = _
      rw [hjoin]
      rfl
    · rintro _ ⟨⟩
      exact hfollows

/-- The same, of the actions that are taken one after the other. -/
theorem step_sound (s : Joined T T' Q K K') (a : JoinAction T T' Q K K') (s' : Joined T T' Q K K')
    (h : Sound leftBy rightBy s) (hstep : s.step leftBy rightBy a = some s') :
    Sound leftBy rightBy s' :=
  Lib.of_allowed (fun ha => perform_sound h ha) hstep

/-- **Incremental `join` equals recomputation.**  After any interleaving of operations on the two
    tables, with `join` set up at any point where nothing is pending, the next operation returns;
    and the joined table holds each pair of committed records with equal keys exactly once, and
    nothing else. -/
theorem join_recomputed (actions : List (JoinAction T T' Q K K')) (s : Joined T T' Q K K')
    (h : Lib.run (fun s a => s.step leftBy rightBy a) new actions = some s) :
    (∀ a, s.Allowed a → ∃ s', s.perform leftBy rightBy a = some s') ∧
    ∀ joined, s.joined = some joined →
      (joined.records.map Prod.snd).Nodup ∧
      ∀ l r, (l, r) ∈ joined.records.map Prod.snd ↔
        ∃ v v', (l, v) ∈ s.left.table.settled s.left.pending ∧
          (r, v') ∈ s.right.table.settled s.right.pending ∧ leftBy v = rightBy v' := by
  have hsound := Lib.run_invariant step_sound actions new s new_sound h
  constructor
  · -- the next operation returns
    intro a ha
    obtain ⟨s', hs', _⟩ := perform_sound hsound ha
    exact ⟨s', hs'⟩
  · -- pairs of handles are pairs of records, since handles are unique
    intro joined hj
    obtain ⟨_, _, _, hjoins⟩ := hsound.follows joined hj
    exact ⟨hjoins.nodup, fun l r => hjoins.mem_iff (l, r)⟩

/-- Two records on the left and one on the right before the set-up; a second match on the right
    after it; then one of the left records goes. -/
def matched : List (JoinAction (Nat × Nat) Nat Nat (fun _ : Unit => Nat) fun _ : Unit => Nat) :=
  let m := Maker.ascending fun _ => (0, 0)
  [.left (.create 10 (1, 5)) m, .left (.commit 10) m, .right (.create 50 1) m,
    .left (.create 20 (1, 6)) m, .left (.commit 20) m, .right (.commit 50) m, .join m,
    .right (.create 60 1) m, .left (.write 20 (1, 7)) m, .left (.commit 20) m,
    .right (.commit 60) m, .left (.remove 10) m]

theorem join_recomputed_matched :
    ∃ s joined, Lib.run (fun s a => s.step Prod.fst id a) new matched = some s ∧
      s.joined = some joined ∧ joined.records.map Prod.snd = [(20, 50), (20, 60)] ∧
      (joined.records.map Prod.snd).Nodup := by
  have hsummary : (Lib.run (fun s a => s.step Prod.fst id a) new matched).map (fun s =>
      s.joined.map fun j => j.records.map Prod.snd) = some (some [(20, 50), (20, 60)]) := by decide
  obtain ⟨s, hrun, hs⟩ := Option.map_eq_some_iff.mp hsummary
  obtain ⟨joined, hj, hrecords⟩ := Option.map_eq_some_iff.mp hs
  exact ⟨s, joined, hrun, hj, hrecords, ((join_recomputed matched s hrun).2 joined hj).1⟩

end Joined

end MicroProfiler.Sdb
