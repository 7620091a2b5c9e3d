/-
  Obtaining an index while a record is pending: the order of `create`, `commit` and the first
  request for the index.

  `create` puts the record into the list that the index's constructor reads, and `commit` announces
  it to every component; the removal index keeps the first node of a record only.

  1. **Nodes and what points at them** (`Index.Wired`) — each removal takes out one node, so the
     number of nodes depends only on the records the removal index knows.

  2. **Sessions** (`freeStep`) — any sequence of operations, with indexes obtained at any point and
     modifications of any kind.

  3. **One entry too many** (`Doubled`) — INVARIANT between the run that obtained the index before
     the creation and the run that obtained it before the commit: they differ in one index, which
     has one more entry and knows the same records.  Until the table is cleared, and then they are
     the same (`index_of_pending`).
-/
import MicroProfiler.Sdb.Table

namespace MicroProfiler.Sdb

variable {ι T : Type} {K : ι → Type}

/-! ## Nodes and what points at them -/

namespace Index

variable {Q : Type}

/-- Is the record in the removal index?  Only what is known can be removed. -/
def knows (x : Index T Q) (record : Handle) : Bool :=
  (x.removal.find? fun e => e.1 = record).isSome

/-- The removal index knows a record once, and points at different nodes of the container. -/
structure Wired (x : Index T Q) : Prop where
  /-- what is removed is there -/
  points : ∀ e ∈ x.removal, e.2 ∈ x.map.nodes.map Lib.Node.id
  /-- a record is looked up once -/
  records : (x.removal.map Prod.fst).Nodup
  /-- and no two records share a node -/
  nodes : (x.removal.map Prod.snd).Nodup

/-- The search of the removal index as a membership. -/
theorem knows_iff {x : Index T Q} {record : Handle} :
    x.knows record = true ↔ record ∈ x.removal.map Prod.fst := by
  unfold knows
  rw [List.find?_isSome, List.mem_map]
  simp only [decide_eq_true_eq]

/-- An index of nothing points nowhere. -/
theorem wired_empty (keyer : T → Q) (d : Lib.Discipline Q) : (empty keyer d).Wired :=
  ⟨fun _ h => absurd h List.not_mem_nil, List.nodup_nil, List.nodup_nil⟩

/-- A created record adds a node, known or not: `insert` of a multimap does not look at what is
    there. -/
theorem length_created (x : Index T Q) (record : Handle) (value : T) :
    (x.created record value).map.nodes.length = x.map.nodes.length + 1 :=
  (x.map.nodes_insert_perm x.discipline (x.keyer value) record).length_eq

/-- But the removal index takes the first node of a record only. -/
theorem removal_created (x : Index T Q) (record : Handle) (value : T) :
    (x.created record value).removal =
      if x.knows record then x.removal else (record, x.map.nextId) :: x.removal := rfl

/-- What is known afterwards does not depend on which of the two happened. -/
theorem knows_created (x : Index T Q) (record : Handle) (value : T) (h : Handle) :
    (x.created record value).knows h = true ↔ h = record ∨ x.knows h = true := by
  rw [knows_iff, knows_iff, removal_created]
  split
  · next hknown =>
    rw [knows_iff] at hknown
    exact ⟨.inr, fun hh => hh.elim (fun heq => heq ▸ hknown) id⟩
  · rw [List.map_cons, List.mem_cons]

/-- The new node has an id that no other has, so what points at it points at it alone. -/
theorem Wired.created {x : Index T Q} (h : x.Wired) (record : Handle) (value : T) :
    (x.created record value).Wired := by
  -- the nodes are those of before and the new one, somewhere among them
  have hids := (x.map.nodes_insert_perm x.discipline (x.keyer value) record).map Lib.Node.id
  have hmem : ∀ id, id ∈ (x.created record value).map.nodes.map Lib.Node.id ↔
      id = x.map.nextId ∨ id ∈ x.map.nodes.map Lib.Node.id := fun id =>
    hids.mem_iff.trans List.mem_cons
  have hold : ∀ e ∈ x.removal, e.2 ∈ (x.created record value).map.nodes.map Lib.Node.id :=
    fun e he => (hmem _).mpr (.inr (h.points e he))
  constructor
  · -- each pointer has its node, the new one included
    rw [removal_created]
    split
    · exact hold
    · intro e he
      rcases List.mem_cons.mp he with rfl | he
      · exact (hmem _).mpr (.inl rfl)
      · exact hold e he
  · -- a record that is known is not entered again
    rw [removal_created]
    split
    · exact h.records
    · next hnew => exact List.nodup_cons.mpr ⟨mt knows_iff.mpr hnew, h.records⟩
  · -- no two pointers share a node
    rw [removal_created]
    split
    · exact h.nodes
    · -- no node has the next id yet
      refine List.nodup_cons.mpr ⟨fun hin => ?_, h.nodes⟩
      obtain ⟨e, he, heq⟩ := List.mem_map.mp hin
      obtain ⟨n, hn, hid⟩ := List.mem_map.mp (h.points e he)
      have := x.map.ids_lt n hn
      rw [hid, heq] at this
      exact Nat.lt_irrefl _ this

/-- A removal as the node it takes out, or as nothing where the record is not known. -/
theorem removed_eq (x : Index T Q) (record : Handle) :
    (x.knows record = false ∧ x.removed record = x) ∨
      ∃ e ∈ x.removal, e.1 = record ∧ x.knows record = true ∧ x.removed record =
        { x with
          map := x.map.erase e.2
          removal := x.removal.filter fun e => e.1 ≠ record } := by
  unfold removed knows
  cases hfind : x.removal.find? fun e => e.1 = record with
  | none => exact .inl ⟨rfl, rfl⟩
  | some e =>
    refine .inr ⟨e, List.mem_of_find?_eq_some hfind, ?_, rfl, rfl⟩
    simpa using List.find?_some hfind

/-- **A removal takes out one node** of a record that is known, and none otherwise.  Ids of nodes
    being different, the erasure of an id is the erasure of one node. -/
theorem Wired.length_removed {x : Index T Q} (h : x.Wired) (record : Handle) :
    (x.removed record).map.nodes.length + (if x.knows record then 1 else 0) =
      x.map.nodes.length := by
  rcases removed_eq x record with ⟨hno, heq⟩ | ⟨e, he, -, hyes, heq⟩
  · rw [heq, hno]
    rfl
  · rw [heq, hyes, if_pos rfl]
    show (x.map.nodes.filter fun n => n.id ≠ e.2).length + 1 = _
    obtain ⟨n, hn, hid⟩ := List.mem_map.mp (h.points e he)
    -- one node has the id
    have hcount : x.map.nodes.countP (fun n => n.id = e.2) = 1 := by
      have hone := List.count_eq_one_of_mem x.map.ids_nodup (h.points e he)
      rw [List.count, List.countP_map] at hone
      rw [← hone]
      exact List.countP_congr fun m _ => by simp
    -- the nodes are that one and those that stay
    have hsplit : x.map.nodes.length = _ :=
      List.length_eq_countP_add_countP fun n : Lib.Node Q Handle => n.id = e.2
    rw [hcount] at hsplit
    rw [← List.countP_eq_length_filter, hsplit, Nat.add_comm]
    exact congrArg (1 + ·) (List.countP_congr fun m _ => by simp)

/-- The record is forgotten, even if another node of it stays. -/
theorem knows_removed (x : Index T Q) (record h : Handle) :
    (x.removed record).knows h = true ↔ h ≠ record ∧ x.knows h = true := by
  rcases removed_eq x record with ⟨hno, heq⟩ | ⟨e, -, -, -, heq⟩
  · rw [heq]
    refine ⟨fun hyes => ⟨fun hh => ?_, hyes⟩, And.right⟩
    rw [hh, hno] at hyes
    exact Bool.false_ne_true hyes
  · rw [heq, knows_iff, knows_iff]
    simp only [List.mem_map, List.mem_filter, decide_eq_true_eq]
    constructor
    · rintro ⟨e, ⟨he, hne⟩, rfl⟩
      exact ⟨hne, e, he, rfl⟩
    · rintro ⟨hne, e, he, rfl⟩
      exact ⟨e, ⟨he, hne⟩, rfl⟩

/-- What is left points at nodes that are left. -/
theorem Wired.removed {x : Index T Q} (h : x.Wired) (record : Handle) :
    (x.removed record).Wired := by
  rcases removed_eq x record with ⟨-, heq⟩ | ⟨e, he, hrecord, -, heq⟩
  · rw [heq]
    exact h
  · rw [heq]
    refine ⟨fun e' he' => ?_, h.records.sublist (List.filter_sublist.map _),
      h.nodes.sublist (List.filter_sublist.map _)⟩
    obtain ⟨hmem, hne⟩ := List.mem_filter.mp he'
    obtain ⟨n, hn, hid⟩ := List.mem_map.mp (h.points e' hmem)
    refine List.mem_map.mpr ⟨n, List.mem_filter.mpr ⟨hn, decide_eq_true fun hsame => ?_⟩, hid⟩
    -- it would be another record's node
    have hpair := List.inj_on_of_nodup_map h.nodes hmem he (hid.symm.trans hsame)
    exact of_decide_eq_true hne (hpair ▸ hrecord)

/-- The constructor announces the records one by one; by induction on them. -/
theorem ofRecords_wired (keyer : T → Q) (d : Lib.Discipline Q) (records : List (Handle × T)) :
    (ofRecords keyer d records).Wired := by
  induction records using List.reverseRecOn with
  | nil => exact wired_empty keyer d
  | append_singleton records r ih =>
    rw [ofRecords_append]
    exact ih.created r.1 r.2

/-- Two indexes that know the same records, the second with one entry more.  Nothing an index is
    told can tell the two apart but by that entry. -/
structure OneMore (x x' : Index T Q) : Prop where
  /-- they are indexes of one kind -/
  keyer : x'.keyer = x.keyer
  discipline : x'.discipline = x.discipline
  /-- what they know they can remove -/
  wired : x.Wired
  wired' : x'.Wired
  /-- they know the same -/
  knows : ∀ h, x'.knows h = true ↔ x.knows h = true
  /-- and the second one has a node that nothing points at -/
  count : x'.map.nodes.length = x.map.nodes.length + 1

/-- A record is announced to both. -/
theorem OneMore.created {x x' : Index T Q} (h : OneMore x x') (record : Handle) (value : T) :
    OneMore (x.created record value) (x'.created record value) where
  keyer := h.keyer
  discipline := h.discipline
  wired := h.wired.created record value
  wired' := h.wired'.created record value
  knows := fun r => by rw [knows_created, knows_created, h.knows]
  count := by rw [length_created, length_created, h.count]

/-- A record goes from both: one node each, or none. -/
theorem OneMore.removed {x x' : Index T Q} (h : OneMore x x') (record : Handle) :
    OneMore (x.removed record) (x'.removed record) where
  keyer := by rw [keyer_removed, keyer_removed, h.keyer]
  discipline := by
    rcases removed_eq x record with ⟨-, heq⟩ | ⟨e, -, -, -, heq⟩ <;>
      rcases removed_eq x' record with ⟨-, heq'⟩ | ⟨e', -, -, -, heq'⟩ <;>
        rw [heq, heq'] <;> exact h.discipline
  wired := h.wired.removed record
  wired' := h.wired'.removed record
  knows := fun r => by rw [knows_removed, knows_removed, h.knows]
  count := by
    -- each loses a node if it knew the record, and they know the same
    have hx := h.wired.length_removed record
    have hx' := h.wired'.length_removed record
    have hcount := h.count
    rw [Bool.eq_iff_iff.mpr (h.knows record)] at hx'
    omega

/-- A cleared index remembers its keyer and its discipline only. -/
theorem OneMore.cleared {x x' : Index T Q} (h : OneMore x x') : x'.cleared = x.cleared := by
  unfold Index.cleared
  rw [h.keyer, h.discipline]

end Index

/-! ## Sessions -/

/-- The operation does not go through the index `i`. -/
def Operation.Leaves (i : ι) : Operation ι T K → Prop
  | .subscript j _ _ _ _ => j ≠ i
  | _ => True

/-- The components of a table are those it lists. -/
structure Table.Registered (t : Table ι T K) : Prop where
  /-- a record is in the table once -/
  nodup : t.handles.Nodup
  /-- and a component in the list -/
  ordered : t.ordered.Nodup
  /-- those that were asked for -/
  obtained : ∀ i, (t.components i).isSome ↔ i ∈ t.ordered

namespace Table.Registered

variable [DecidableEq ι] {t : Table ι T K}

/-- The callbacks of a commit reach every index there is, once. -/
theorem forward (h : t.Registered) (f : ∀ i, Index T (K i) → Index T (K i)) :
    forEach f t.ordered t.components = fun i => (t.components i).map (f i) :=
  funext (forEach_obtained f h.ordered h.obtained)

/-- Those of a removal too, in the opposite order. -/
theorem reversed (h : t.Registered) (f : ∀ i, Index T (K i) → Index T (K i)) :
    forEach f t.ordered.reverse t.components = fun i => (t.components i).map (f i) :=
  funext (forEach_obtained f (List.nodup_reverse.mpr h.ordered)
    fun i => (h.obtained i).trans List.mem_reverse.symm)

omit [DecidableEq ι] in
/-- A callback, and a change of the records. -/
theorem called (h : t.Registered) (f : ∀ i, Index T (K i) → Index T (K i))
    {records : List (Handle × T)} (hnodup : (records.map Prod.fst).Nodup) :
    Table.Registered ⟨records, fun i => (t.components i).map (f i), t.ordered⟩ :=
  ⟨hnodup, h.ordered, fun i => by rw [Option.isSome_map]; exact h.obtained i⟩

omit [DecidableEq ι] in
/-- A record with an address of its own. -/
theorem create (h : t.Registered) {record : Handle} (hfresh : record ∉ t.handles) (value : T) :
    (t.create record value).Registered := by
  refine ⟨?_, h.ordered, h.obtained⟩
  rw [handles_create]
  exact List.Nodup.append h.nodup (List.nodup_singleton _)
    (List.disjoint_singleton.mpr hfresh)

/-- An index comes to the end of the list when it is first asked for. -/
theorem component (h : t.Registered) (i : ι) (keyer : T → K i) (d : Lib.Discipline (K i)) :
    (t.component i keyer d).Registered := by
  unfold Table.component
  cases hi : t.components i with
  | some x => exact h
  | none =>
    have hnew : i ∉ t.ordered := by rw [← h.obtained, hi]; simp
    refine ⟨h.nodup, ?_, fun j => ?_⟩
    · exact List.Nodup.append h.ordered (List.nodup_singleton _) (List.disjoint_singleton.mpr hnew)
    · dsimp only
      by_cases hj : j = i
      · subst hj
        simp
      · rw [Function.update_of_ne hj, h.obtained, List.mem_append, List.mem_singleton]
        exact ⟨.inl, fun hmem => hmem.resolve_right hj⟩

end Table.Registered

/-- The first request for an index. -/
theorem Table.component_none [DecidableEq ι] {t : Table ι T K} {i : ι} (hi : t.components i = none)
    (keyer : T → K i) (d : Lib.Discipline (K i)) :
    t.component i keyer d =
      ⟨t.records, Function.update t.components i (some (Index.ofRecords keyer d t.records)),
        t.ordered ++ [i]⟩ := by
  unfold Table.component
  rw [hi]

/-- Later requests change nothing. -/
theorem Table.component_some [DecidableEq ι] {t : Table ι T K} {i : ι} {x : Index T (K i)}
    (hi : t.components i = some x) (keyer : T → K i) (d : Lib.Discipline (K i)) :
    t.component i keyer d = t := by
  unfold Table.component
  rw [hi]

/-- The entries of an index. -/
def Table.contents (t : Table ι T K) (i : ι) : List (Handle × K i) :=
  match t.components i with
  | some x => x.map.nodes.map fun n => (n.value, n.key)
  | none => []

namespace Session

variable [DecidableEq ι] [∀ i, DecidableEq (K i)]

/-- The allocator hands out free addresses and the records used are live. -/
def Live (s : Session ι T K) : Operation ι T K → Prop
  | .create record _ => record ∉ s.table.handles
  | .write record _ => record ∈ s.table.handles
  | .commit record => record ∈ s.table.handles
  | .remove record => record ∈ s.table.handles
  | .clear => True
  | .index _ _ _ => True
  | .subscript i _ _ record _ => (s.table.components i).isSome ∧ record ∉ s.table.handles

instance (s : Session ι T K) : (op : Operation ι T K) → Decidable (s.Live op)
  | .create record _ => inferInstanceAs (Decidable (record ∉ s.table.handles))
  | .write record _ | .commit record | .remove record =>
      inferInstanceAs (Decidable (record ∈ s.table.handles))
  | .clear | .index _ _ _ => inferInstanceAs (Decidable True)
  | .subscript i _ _ record _ =>
      inferInstanceAs (Decidable ((s.table.components i).isSome ∧ record ∉ s.table.handles))

/-- An operation of a user who obtains an index whenever he likes. -/
def freeStep (s : Session ι T K) (op : Operation ι T K) : Option (Session ι T K) :=
  if s.Live op then s.perform op else none

/-- What a step has been. -/
theorem freeStep_eq_some {s s' : Session ι T K} {op : Operation ι T K} :
    s.freeStep op = some s' ↔ s.Live op ∧ s.perform op = some s' := by
  unfold freeStep
  split
  · next h => exact ⟨fun hs => ⟨h, hs⟩, And.right⟩
  · next h => exact ⟨fun hs => absurd hs (by simp), fun hs => absurd hs.1 h⟩

/-- **Any step keeps the components listed**: callbacks change them in place, and only a request for
    an index adds one. -/
theorem freeStep_registered (s : Session ι T K) (op : Operation ι T K) (s' : Session ι T K)
    (h : s.table.Registered) (hstep : s.freeStep op = some s') : s'.table.Registered := by
  obtain ⟨hlive, hperform⟩ := freeStep_eq_some.mp hstep
  obtain ⟨t, pending⟩ := s
  cases op with
  -- a free address is none of the table's
  | create record value => exact Option.some.inj hperform ▸ h.create hlive value
  | write record value =>
    obtain rfl := Option.some.inj hperform
    refine ⟨?_, h.ordered, h.obtained⟩
    rw [Table.handles_write]
    exact h.nodup
  -- callbacks, with the records as they were
  | commit record =>
    simp only [perform] at hperform
    split at hperform
    · obtain ⟨t', ht', rfl⟩ := Option.map_eq_some_iff.mp hperform
      obtain ⟨v, -, rfl⟩ := Option.map_eq_some_iff.mp ht'
      dsimp only
      rw [h.forward]
      exact h.called _ h.nodup
    · obtain rfl := Option.some.inj hperform
      unfold Table.commitModification
      dsimp only
      rw [h.forward]
      exact h.called _ h.nodup
  -- callbacks, the other way round
  | remove record =>
    obtain rfl := Option.some.inj hperform
    unfold Table.remove Table.notifyRemoved Table.erase
    dsimp only
    rw [h.reversed]
    exact h.called _ (h.nodup.sublist (List.filter_sublist.map _))
  | clear =>
    obtain rfl := Option.some.inj hperform
    unfold Table.clear
    dsimp only
    rw [h.reversed]
    exact h.called _ List.nodup_nil
  | index i keyer d => exact Option.some.inj hperform ▸ h.component i keyer d
  -- a record may be created, and no callback runs
  | subscript i setKey key record value =>
    obtain ⟨r, hr, rfl⟩ := Option.map_eq_some_iff.mp hperform
    obtain ⟨x, -, rfl⟩ := Option.map_eq_some_iff.mp hr
    dsimp only
    split
    · exact h
    · exact h.create hlive.2 _

/-! ## One entry too many -/

/-- INVARIANT: the sessions differ in the index `i` only, which has one more entry in the second. -/
structure Doubled (i : ι) (s s' : Session ι T K) : Prop where
  /-- every index hears of every commit -/
  registered : s.table.Registered
  /-- the tables have the same records, -/
  records : s'.table.records = s.table.records
  /-- the same components, -/
  ordered : s'.table.ordered = s.table.ordered
  /-- and the same pending ones -/
  pending : s'.pending = s.pending
  /-- the other indexes are the same -/
  others : ∀ j, j ≠ i → s'.table.components j = s.table.components j
  /-- and this one is apart by an entry -/
  index : ∃ x x', s.table.components i = some x ∧ s'.table.components i = some x' ∧ x.OneMore x'

variable {i : ι} {s s' : Session ι T K}

omit [DecidableEq ι] [∀ i, DecidableEq (K i)] in
/-- The same records are live in both. -/
theorem Doubled.handles (h : Doubled i s s') : s'.table.handles = s.table.handles := by
  unfold Table.handles
  rw [h.records]

omit [∀ i, DecidableEq (K i)] in
/-- The same components are listed in both. -/
theorem Doubled.registered' (h : Doubled i s s') : s'.table.Registered := by
  refine ⟨by rw [h.handles]; exact h.registered.nodup, by rw [h.ordered]; exact h.registered.ordered,
    fun j => ?_⟩
  rw [h.ordered, ← h.registered.obtained]
  by_cases hj : j = i
  · subst hj
    obtain ⟨x, x', hx, hx', -⟩ := h.index
    rw [hx, hx']
    rfl
  · rw [h.others j hj]

omit [DecidableEq ι] [∀ i, DecidableEq (K i)] in
/-- Both are called back, and their records change alike. -/
theorem Doubled.called (h : Doubled i s s') (f : ∀ i, Index T (K i) → Index T (K i))
    (hf : ∀ x x', Index.OneMore x x' → Index.OneMore (f i x) (f i x'))
    {records : List (Handle × T)} (hnodup : (records.map Prod.fst).Nodup) (pending : List Handle) :
    Doubled i ⟨⟨records, fun i => (s.table.components i).map (f i), s.table.ordered⟩, pending⟩
      ⟨⟨records, fun i => (s'.table.components i).map (f i), s'.table.ordered⟩, pending⟩ := by
  refine ⟨h.registered.called f hnodup, rfl, h.ordered, rfl, fun j hj => ?_, ?_⟩
  · -- the other indexes are told the same and were the same
    dsimp only
    rw [h.others j hj]
  · -- the two of `i` are told the same and stay one entry apart
    obtain ⟨x, x', hx, hx', hmore⟩ := h.index
    exact ⟨f i x, f i x', by dsimp only; rw [hx]; rfl, by dsimp only; rw [hx']; rfl, hf x x' hmore⟩

omit [DecidableEq ι] [∀ i, DecidableEq (K i)] in
/-- What may be done to the one may be done to the other: liveness asks about records and about
    other indexes. -/
theorem Doubled.live (h : Doubled i s s') {op : Operation ι T K} (hop : op.Leaves i)
    (hlive : s.Live op) : s'.Live op := by
  cases op with
  -- it looks into an index, but not into `i`
  | subscript j setKey key record value =>
    simp only [Live, h.handles, h.others j hop] at hlive ⊢
    exact hlive
  | create record value => simpa only [Live, h.handles] using hlive
  | write record value => simpa only [Live, h.handles] using hlive
  | commit record => simpa only [Live, h.handles] using hlive
  | remove record => simpa only [Live, h.handles] using hlive
  | clear => trivial
  | index j keyer d => trivial

omit [DecidableEq ι] [∀ i, DecidableEq (K i)] in
/-- A record is created in both. -/
theorem Doubled.create (h : Doubled i s s') {record : Handle} (hfresh : record ∉ s.table.handles)
    (value : T) :
    Doubled i ⟨s.table.create record value, record :: s.pending⟩
      ⟨s'.table.create record value, record :: s'.pending⟩ := by
  refine ⟨h.registered.create hfresh value, ?_, h.ordered, ?_, h.others, h.index⟩
  · show s'.table.records ++ _ = s.table.records ++ _
    rw [h.records]
  · exact congrArg (record :: ·) h.pending

omit [∀ i, DecidableEq (K i)] in
/-- An index is obtained from both; `i` itself is there already. -/
theorem Doubled.component (h : Doubled i s s') (j : ι) (keyer : T → K j) (d : Lib.Discipline (K j)) :
    Doubled i { s with table := s.table.component j keyer d }
      { s' with table := s'.table.component j keyer d } := by
  by_cases hj : j = i
  · -- `i` is there in both
    subst hj
    obtain ⟨x, x', hx, hx', -⟩ := h.index
    rw [Table.component_some hx, Table.component_some hx']
    exact h
  · cases hcomponent : s.table.components j with
    -- so is `j`, or in neither: it is made of the same records then
    | some x =>
      rw [Table.component_some hcomponent, Table.component_some ((h.others j hj).trans hcomponent)]
      exact h
    | none =>
      have hregistered := h.registered.component j keyer d
      rw [Table.component_none hcomponent] at hregistered ⊢
      rw [Table.component_none ((h.others j hj).trans hcomponent)]
      refine ⟨hregistered, h.records, ?_, h.pending, fun k hk => ?_, ?_⟩
      · exact congrArg (· ++ [j]) h.ordered
      · dsimp only
        by_cases hkj : k = j
        · subst hkj
          rw [Function.update_self, Function.update_self, h.records]
        · rw [Function.update_of_ne hkj, Function.update_of_ne hkj, h.others k hk]
      · dsimp only
        rw [Function.update_of_ne (Ne.symm hj), Function.update_of_ne (Ne.symm hj)]
        exact h.index

/-- **One operation** leaves the two as far apart as they were.  By cases on the operation; those
    with callbacks go through `Doubled.called`, the others touch no index. -/
theorem Doubled.perform (h : Doubled i s s') {op : Operation ι T K} (hop : op.Leaves i)
    (hclear : op ≠ .clear) (hlive : s.Live op) {t : Session ι T K} (ht : s.perform op = some t) :
    ∃ t', s'.perform op = some t' ∧ Doubled i t t' := by
  have hforward := h.registered.forward
  have hforward' := h.registered'.forward
  have hreversed := h.registered.reversed
  have hreversed' := h.registered'.reversed
  have hnodup := h.registered.nodup
  cases op with
  | create record value =>
    obtain rfl := Option.some.inj ht
    exact ⟨_, rfl, h.create hlive value⟩
  | write record value =>
    obtain rfl := Option.some.inj ht
    refine ⟨_, rfl, ⟨?_, h.registered.ordered, h.registered.obtained⟩, ?_, h.ordered, h.pending,
      h.others, h.index⟩
    · rw [Table.handles_write]
      exact hnodup
    · show s'.table.records.map _ = s.table.records.map _
      rw [h.records]
  | commit record =>
    simp only [Session.perform] at ht ⊢
    rw [h.pending]
    split at ht
    · next hpending =>
      obtain ⟨t₁, ht₁, rfl⟩ := Option.map_eq_some_iff.mp ht
      obtain ⟨v, hv, rfl⟩ := Option.map_eq_some_iff.mp ht₁
      have hv' : s'.table.lookup record = some v := by rw [← hv, Table.lookup, h.records]; rfl
      refine ⟨_, by rw [if_pos hpending, Table.commitCreation, hv']; rfl, ?_⟩
      dsimp only
      rw [hforward, hforward', h.records]
      exact h.called (fun _ x => x.created record v) (fun _ _ hx => hx.created record v) hnodup _
    · next hpending =>
      obtain rfl := Option.some.inj ht
      refine ⟨_, by rw [if_neg hpending], ?_⟩
      unfold Table.commitModification
      rw [hforward, hforward', h.records]
      exact h.called (fun _ x => x.modified record) (fun _ _ hx => hx) hnodup _
  | remove record =>
    obtain rfl := Option.some.inj ht
    refine ⟨_, rfl, ?_⟩
    unfold Table.remove Table.notifyRemoved Table.erase
    dsimp only
    rw [hreversed, hreversed', h.records, h.pending]
    exact h.called (fun _ x => x.removed record) (fun _ _ hx => hx.removed record)
      (hnodup.sublist (List.filter_sublist.map _)) _
  -- a clear ends the difference, and is no case here
  | clear => exact absurd rfl hclear
  | index j keyer d =>
    obtain rfl := Option.some.inj ht
    exact ⟨_, rfl, h.component j keyer d⟩
  -- both find the same, as they look into one and the same index
  | subscript j setKey key record value =>
    obtain ⟨r, hr, rfl⟩ := Option.map_eq_some_iff.mp ht
    obtain ⟨x, hx, rfl⟩ := Option.map_eq_some_iff.mp hr
    have hx' : s'.table.components j = some x := by rw [h.others j hop, hx]
    refine ⟨_, by simp only [Session.perform, Table.subscript, hx', Option.map_some]; rfl, ?_⟩
    cases hfind : x.find key with
    | some found => exact h
    | none => exact h.create hlive.2 _

/-- **A clear** makes them one again: the two indexes lose all they held, and nothing else differs.
    -/
theorem Doubled.cleared (h : Doubled i s s') :
    s'.perform .clear = s.perform .clear := by
  refine congrArg some ?_
  unfold Table.clear
  congr 1
  rw [h.registered.reversed, h.registered'.reversed, h.ordered]
  congr 1
  funext j
  by_cases hj : j = i
  · subst hj
    obtain ⟨x, x', hx, hx', hmore⟩ := h.index
    rw [hx, hx', Option.map_some, Option.map_some, hmore.cleared]
  · rw [h.others j hj]

/-- **Whole runs**: apart by one entry until the first clear, and the same from there on.  By
    induction on what happens later. -/
theorem Doubled.run : ∀ (later : List (Operation ι T K)) (s s' t : Session ι T K), Doubled i s s' →
    (∀ op ∈ later, op.Leaves i) → Lib.run freeStep s later = some t →
    ∃ t', Lib.run freeStep s' later = some t' ∧
      (.clear ∈ later → t' = t) ∧ (.clear ∉ later → Doubled i t t') := by
  intro later
  induction later with
  -- nothing happens later
  | nil =>
    intro s s' t h _ hrun
    obtain rfl := Option.some.inj hrun
    exact ⟨s', rfl, fun hmem => absurd hmem List.not_mem_nil, fun _ => h⟩
  | cons op later ih =>
    intro s s' t h hleaves hrun
    obtain ⟨s₁, hstep, hrest⟩ := Lib.run_cons_eq_some.mp hrun
    obtain ⟨hlive, hperform⟩ := freeStep_eq_some.mp hstep
    have hop : op.Leaves i := hleaves op List.mem_cons_self
    by_cases hclear : op = .clear
    · -- the first clear: from here on there is one session
      subst hclear
      have hstep' : s'.freeStep .clear = some s₁ :=
        freeStep_eq_some.mpr ⟨trivial, h.cleared.trans hperform⟩
      exact ⟨t, Lib.run_cons_eq_some.mpr ⟨s₁, hstep', hrest⟩, fun _ => rfl,
        fun hno => absurd List.mem_cons_self hno⟩
    · -- any other operation: they go on side by side
      obtain ⟨s₁', hperform', h₁⟩ := h.perform hop hclear hlive hperform
      obtain ⟨t', hrun', hcleared, hdoubled⟩ :=
        ih s₁ s₁' t h₁ (fun o ho => hleaves o (List.mem_cons_of_mem _ ho)) hrest
      have hstep' := freeStep_eq_some.mpr ⟨h.live hop hlive, hperform'⟩
      refine ⟨t', Lib.run_cons_eq_some.mpr ⟨s₁', hstep', hrun'⟩, fun hmem => ?_, fun hno => ?_⟩
      · exact hcleared ((List.mem_cons.mp hmem).resolve_left (Ne.symm hclear))
      · exact hdoubled fun hmem => hno (List.mem_cons_of_mem _ hmem)

/-! ## The three orders -/

variable {record : Handle} {half value : T}

/-- A pending record, the last of the table, is filled in and committed: every index there is hears
    of it once, with the value it then has. -/
theorem run_commit {t : Table ι T K} (h : t.Registered) {records : List (Handle × T)}
    (hrecords : t.records = records ++ [(record, half)]) (hfresh : record ∉ records.map Prod.fst)
    (pending : List Handle) :
    Lib.run freeStep ⟨t, record :: pending⟩ [.write record value, .commit record] =
      some ⟨⟨records ++ [(record, value)], fun j => (t.components j).map fun x =>
        x.created record value, t.ordered⟩, (record :: pending).filter fun h => h ≠ record⟩ := by
  -- the record is live,
  have hmem : record ∈ t.handles := by
    unfold Table.handles
    rw [hrecords, List.map_append]
    exact List.mem_append_right _ (List.mem_singleton.mpr rfl)
  -- the others are not written to,
  have hkept : (records.map fun r => if r.1 = record then (record, value) else r) = records := by
    refine (List.map_congr_left fun r hr => if_neg ?_).trans (List.map_id _)
    rintro rfl
    exact hfresh (List.mem_map_of_mem hr)
  have hwrite : t.write record value = { t with records := records ++ [(record, value)] } := by
    unfold Table.write
    rw [hrecords, List.map_append, List.map_singleton, if_pos rfl, hkept]
  have hregistered : (t.write record value).Registered :=
    ⟨by rw [Table.handles_write]; exact h.nodup, h.ordered, h.obtained⟩
  -- and what is announced is the value it has by then
  have hlookup : (t.write record value).lookup record = some value := by
    refine (Table.lookup_eq_some hregistered.nodup).mpr ?_
    rw [hwrite]
    exact List.mem_append_right _ (List.mem_singleton.mpr rfl)
  refine Lib.run_cons_eq_some.mpr ⟨_, freeStep_eq_some.mpr ⟨hmem, rfl⟩, ?_⟩
  refine Lib.run_cons_eq_some.mpr ⟨_, freeStep_eq_some.mpr ⟨?_, ?_⟩, rfl⟩
  · show record ∈ (t.write record value).handles
    rw [Table.handles_write]
    exact hmem
  · simp only [Session.perform, List.mem_cons_self, if_true, Table.commitCreation, hlookup,
      Option.map_some]
    rw [hregistered.forward, hwrite]

/-- Creation, assignment and commit of a record, with the index `i` obtained first, ... -/
def obtainedBefore (i : ι) (keyer : T → K i) (d : Lib.Discipline (K i)) (record : Handle)
    (half value : T) : List (Operation ι T K) :=
  [.index i keyer d, .create record half, .write record value, .commit record]

/-- ... between the two, when the record is half filled in, ... -/
def obtainedBetween (i : ι) (keyer : T → K i) (d : Lib.Discipline (K i)) (record : Handle)
    (half value : T) : List (Operation ι T K) :=
  [.create record half, .index i keyer d, .write record value, .commit record]

/-- ... and last. -/
def obtainedAfter (i : ι) (keyer : T → K i) (d : Lib.Discipline (K i)) (record : Handle)
    (half value : T) : List (Operation ι T K) :=
  [.create record half, .write record value, .commit record, .index i keyer d]

/-- What all three come to, but for the index. -/
def withIndex (s : Session ι T K) (i : ι) (record : Handle) (value : T) (x : Index T (K i)) :
    Session ι T K :=
  ⟨⟨s.table.records ++ [(record, value)],
    Function.update (fun j => (s.table.components j).map fun y => y.created record value) i (some x),
    s.table.ordered ++ [i]⟩, (record :: s.pending).filter fun h => h ≠ record⟩

omit [∀ i, DecidableEq (K i)] in
/-- The index obtained is where it is looked for. -/
theorem withIndex_component (s : Session ι T K) (record : Handle) (value : T) (x : Index T (K i)) :
    (s.withIndex i record value x).table.components i = some x := by
  unfold withIndex
  dsimp only
  rw [Function.update_self]

section Orders

variable (h : s.table.Registered) (hi : s.table.components i = none)
  (hfresh : record ∉ s.table.handles) (keyer : T → K i) (d : Lib.Discipline (K i))
include h hi hfresh

/-- The index is there before the record, and hears of it when it is committed. -/
theorem run_obtainedBefore :
    Lib.run freeStep s (obtainedBefore i keyer d record half value) =
      some (s.withIndex i record value
        ((Index.ofRecords keyer d s.table.records).created record value)) := by
  have hregistered := h.component i keyer d
  rw [Table.component_none hi] at hregistered
  refine Lib.run_cons_eq_some.mpr ⟨_, freeStep_eq_some.mpr ⟨trivial, rfl⟩, ?_⟩
  rw [Table.component_none hi]
  refine Lib.run_cons_eq_some.mpr ⟨_, freeStep_eq_some.mpr ⟨hfresh, rfl⟩, ?_⟩
  rw [run_commit (hregistered.create hfresh half) rfl hfresh]
  unfold withIndex
  congr 3
  funext j
  -- the new index, and those that were there
  by_cases hj : j = i
  · subst hj
    simp [Table.create]
  · simp [Table.create, Function.update_of_ne hj]

/-- The constructor reads the committed record last: as if it had been announced. -/
theorem run_obtainedAfter :
    Lib.run freeStep s (obtainedAfter i keyer d record half value) =
      some (s.withIndex i record value
        ((Index.ofRecords keyer d s.table.records).created record value)) := by
  refine Lib.run_cons_eq_some.mpr ⟨_, freeStep_eq_some.mpr ⟨hfresh, rfl⟩, ?_⟩
  show Lib.run freeStep _ ([.write record value, .commit record] ++ [.index i keyer d]) = _
  rw [Lib.run_append, run_commit (h.create hfresh half) rfl hfresh, Option.bind_some]
  refine Lib.run_cons_eq_some.mpr ⟨_, freeStep_eq_some.mpr ⟨trivial, rfl⟩, ?_⟩
  rw [Table.component_none (by simp [Table.create, hi]), Index.ofRecords_append]
  rfl

/-- The constructor reads the record half filled in, and the record is announced to it again. -/
theorem run_obtainedBetween :
    Lib.run freeStep s (obtainedBetween i keyer d record half value) =
      some (s.withIndex i record value
        (((Index.ofRecords keyer d s.table.records).created record half).created record value)) := by
  have hregistered := (h.create hfresh half).component i keyer d
  have hi' : (s.table.create record half).components i = none := hi
  rw [Table.component_none hi'] at hregistered
  refine Lib.run_cons_eq_some.mpr ⟨_, freeStep_eq_some.mpr ⟨hfresh, rfl⟩, ?_⟩
  refine Lib.run_cons_eq_some.mpr ⟨_, freeStep_eq_some.mpr ⟨trivial, rfl⟩, ?_⟩
  dsimp only
  rw [Table.component_none hi', run_commit hregistered rfl hfresh]
  unfold withIndex
  congr 3
  funext j
  by_cases hj : j = i
  · subst hj
    simp [Table.create, Index.ofRecords_append]
  · simp [Table.create, Function.update_of_ne hj]

/-- The two are as far apart as `Doubled` says: the record is known in both, and has two nodes in
    the second. -/
theorem doubled_obtained :
    Doubled i (s.withIndex i record value
        ((Index.ofRecords keyer d s.table.records).created record value))
      (s.withIndex i record value
        (((Index.ofRecords keyer d s.table.records).created record half).created record value)) := by
  have hwired := Index.ofRecords_wired keyer d s.table.records
  refine ⟨?_, rfl, rfl, rfl, fun j hj => ?_, _, _, withIndex_component s record value _,
    withIndex_component s record value _, ?_⟩
  · -- the first of them is a state of a run
    exact Lib.run_invariant freeStep_registered (obtainedBefore i keyer d record half value) s _ h
      (run_obtainedBefore h hi hfresh keyer d)
  · unfold withIndex
    dsimp only
    rw [Function.update_of_ne hj, Function.update_of_ne hj]
  · refine ⟨rfl, rfl, hwired.created _ _, (hwired.created _ _).created _ _, fun r => ?_, ?_⟩
    · simp only [Index.knows_created]
      exact ⟨fun hr => hr.elim .inl id, .inr⟩
    · simp only [Index.length_created]

end Orders

/-- **When the order does not matter.**  Whatever happened to the table before, and whatever happens
    after that does not go through the index: obtained before the creation or after the commit it
    comes to the same, and obtained between the two it holds the same entries if and only if the
    table has been cleared since. -/
theorem index_of_pending (history : List (Operation ι T K)) (s : Session ι T K)
    (hrun : Lib.run freeStep new history = some s) (i : ι) (hi : s.table.components i = none)
    (keyer : T → K i) (d : Lib.Discipline (K i)) (record : Handle)
    (hfresh : record ∉ s.table.handles) (half value : T) (later : List (Operation ι T K))
    (hlater : ∀ op ∈ later, op.Leaves i) (t : Session ι T K)
    (ht : Lib.run freeStep s (obtainedBefore i keyer d record half value ++ later) = some t) :
    Lib.run freeStep s (obtainedAfter i keyer d record half value ++ later) = some t ∧
      ∃ t', Lib.run freeStep s (obtainedBetween i keyer d record half value ++ later) = some t' ∧
        ((t'.table.contents i).Perm (t.table.contents i) ↔ .clear ∈ later) := by
  have h : s.table.Registered := Lib.run_invariant freeStep_registered history new s
    ⟨List.nodup_nil, List.nodup_nil, fun _ => by simp [new, Table.empty]⟩ hrun
  rw [Lib.run_append, run_obtainedBefore h hi hfresh keyer d, Option.bind_some] at ht
  rw [Lib.run_append, Lib.run_append, run_obtainedAfter h hi hfresh keyer d,
    run_obtainedBetween h hi hfresh keyer d, Option.bind_some, Option.bind_some]
  obtain ⟨t', ht', hcleared, hdoubled⟩ :=
    (doubled_obtained h hi hfresh keyer d).run later _ _ t hlater ht
  refine ⟨ht, t', ht', fun hperm => ?_, fun hclear => ?_⟩
  · -- without a clear one has an entry more
    by_contra hclear
    obtain ⟨x, x', hx, hx', hmore⟩ := (hdoubled hclear).index
    have hlength := hperm.length_eq
    rw [Table.contents, Table.contents, hx, hx', List.length_map, List.length_map,
      hmore.count] at hlength
    omega
  · -- after one they are the same
    rw [hcleared hclear]

/-- A record of a table of numbers, made as 0 and committed as 5; the index is obtained first, -/
def filledBefore : List (Operation Unit Nat fun _ => Nat) := obtainedBefore () id .hashed 10 0 5

/-- or between the two. -/
def filledBetween : List (Operation Unit Nat fun _ => Nat) := obtainedBetween () id .hashed 10 0 5

/-- The record is removed, which leaves one entry too many, and the table is cleared. -/
theorem index_of_pending_cleared :
    ∃ t t', Lib.run freeStep new (filledBefore ++ [.remove 10, .clear]) = some t ∧
      Lib.run freeStep new (filledBetween ++ [.remove 10, .clear]) = some t' ∧
      (t'.table.contents ()).Perm (t.table.contents ()) := by
  obtain ⟨-, t', ht', hiff⟩ := index_of_pending (K := fun _ : Unit => Nat) [] new rfl () rfl id
    .hashed 10 (by decide) 0 5 [.remove 10, .clear] (by simp [Operation.Leaves]) _ rfl
  exact ⟨_, t', rfl, ht', hiff.mpr (by simp)⟩

/-- Twice in the index, once by a key it had before it was committed; and still there after it is
    removed. -/
theorem index_of_pending_dangles :
    ((Lib.run freeStep new filledBefore).map fun t => t.table.contents ()) = some [(10, 5)] ∧
      ((Lib.run freeStep new filledBetween).map fun t => t.table.contents ()) =
        some [(10, 0), (10, 5)] ∧
      ((Lib.run freeStep new (filledBefore ++ [.remove 10])).map fun t => t.table.contents ()) =
        some [] ∧
      ((Lib.run freeStep new (filledBetween ++ [.remove 10])).map fun t => t.table.contents ()) =
        some [(10, 5)] :=
  ⟨rfl, rfl, rfl, rfl⟩

end Session

end MicroProfiler.Sdb
