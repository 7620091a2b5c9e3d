/-
  `group_by` of `sdb/transforms.h`: a table of aggregates patched as the underlying table changes.

  1. **The code** — `updateRecord` (the slot of `created` and of `modified`), `onRemoved`, and the
     set-up `groupBy`.  Each works on the underlying table's index of component type `u` and on the
     unique index of the aggregate table; the aggregate table has that component only (whatever
     indexes its users add are never read here).  A `Maker` stands for the allocator and the
     constructor of the aggregate table.

  2. **The system** — `Grouped.step`: an operation on the underlying table and, synchronously, the
     slots it triggers: on removal after the components' callbacks and before the record is erased.

  3. **Incremental equals recomputed** (`group_by_recomputed`) — the slots replace exactly the
     aggregate whose group changed (`updateRecord_replaces`, `onRemoved_replaces`), which is what
     `Lib.Aggregation.Mirrors` asks for.
-/
import MicroProfiler.Sdb.Table
import MicroProfiler.Lib.Aggregates

namespace MicroProfiler.Sdb

variable {ι T A : Type} {K : ι → Type}

/-- The functions `group_by` is given: the two keyers of the factory (that of the aggregates also
    writes the key into a new record) and the aggregator. -/
structure Grouping (T A Q : Type) extends Lib.Aggregation T A Q where
  /-- the keyer of the aggregates, given a record and a key -/
  setKey : A → Q → A
  akey_setKey : ∀ a q, akey (setKey a q) = q

/-- The aggregate table, with its unique index. -/
abbrev AggregateTable (A Q : Type) := Table Unit A fun _ => Q

section

variable {Q : Type} [DecidableEq Q] (g : Grouping T A Q)

/-- `aindex[key]`. -/
def recordFor (m : Maker A) (aggregate : AggregateTable A Q) (key : Q) :
    Option (AggregateTable A Q × Handle × Bool) :=
  aggregate.subscript () g.setKey key (m.pick aggregate.handles) (m.construct aggregate.handles)

/-- `aggregator(*record, ...), record.commit()`. -/
def aggregateInto (aggregate : AggregateTable A Q) (record : Handle) (isNew : Bool)
    (items : List T) : Option (AggregateTable A Q) :=
  (aggregate.lookup record).bind fun a =>
    -- the aggregator writes into the record, then it is committed
    let written := aggregate.write record (g.aggregate a items)
    if isNew then written.commitCreation record else some (written.commitModification record)

end

section

variable [∀ i, DecidableEq (K i)] {u : ι} (g : Grouping T A (K u))

/-- `update_record`. -/
def updateRecord (m : Maker A) (underlying : Table ι T K) (record : Handle)
    (aggregate : AggregateTable A (K u)) : Option (AggregateTable A (K u)) :=
  (underlying.lookup record).bind fun v => (underlying.components u).bind fun uindex =>
    (recordFor g m aggregate (g.ukey v)).bind fun r =>
      aggregateInto g r.1 r.2.1 r.2.2 (underlying.values (uindex.equalRange (g.ukey v)))

/-- The slot of `removed`. -/
def onRemoved (m : Maker A) (underlying : Table ι T K) (record : Handle)
    (aggregate : AggregateTable A (K u)) : Option (AggregateTable A (K u)) :=
  (underlying.lookup record).bind fun v => (underlying.components u).bind fun uindex =>
    (recordFor g m aggregate (g.ukey v)).bind fun r =>
      -- the index has dropped the record by now, the table has not: it can be dereferenced
      if (uindex.equalRange (g.ukey v)).isEmpty then
        some (r.1.remove r.2.1)
      else
        aggregateInto g r.1 r.2.1 r.2.2 (underlying.values (uindex.equalRange (g.ukey v)))

/-- The set-up: both indexes, then every record of the underlying table. -/
def groupBy [DecidableEq ι] (m : Maker A) (underlying : Table ι T K) :
    Option (Table ι T K × AggregateTable A (K u)) :=
  let underlying := underlying.component u g.ukey .hashed
  let aggregate : AggregateTable A (K u) := Table.empty.component () g.akey .hashed
  (Lib.run (fun agg record => updateRecord g m underlying record agg) aggregate
    underlying.handles).map fun agg => (underlying, agg)

end

/-! ## What the slots do to the aggregate table -/

section

variable {Q : Type} {g : Grouping T A Q}

/-- The aggregate table between two slots: nothing pending, indexed by key, one record a key. -/
structure Keyed (g : Grouping T A Q) (aggregate : AggregateTable A Q) : Prop where
  /-- between two slots every aggregate is committed -/
  consistent : aggregate.Consistent []
  keyer : aggregate.keyerOf () = some g.akey
  /-- no two aggregates of one group -/
  unique : ∀ r ∈ aggregate.records, ∀ r' ∈ aggregate.records, g.akey r.2 = g.akey r'.2 → r = r'

/-- Its unique index. -/
theorem Keyed.exists_index {aggregate : AggregateTable A Q} (h : Keyed g aggregate) :
    ∃ x, aggregate.components () = some x ∧ x.keyer = g.akey :=
  Option.map_eq_some_iff.mp h.keyer

/-- Among the records of a keyed table, the handle of a record stands for its key. -/
theorem Keyed.handle_iff {aggregate : AggregateTable A Q} (h : Keyed g aggregate) {record : Handle}
    {a : A} (hmem : (record, a) ∈ aggregate.records) {r : Handle × A}
    (hr : r ∈ aggregate.records) : r.1 = record ↔ g.akey r.2 = g.akey a := by
  constructor
  · intro heq
    rw [List.inj_on_of_nodup_map h.consistent.nodup hr hmem heq]
  · intro heq
    rw [h.unique r hr _ hmem heq]

/-- A table that differs from a keyed one by the replacement of a record is keyed. -/
theorem Keyed.replaced [DecidableEq Q] {aggregate aggregate' : AggregateTable A Q}
    (h : Keyed g aggregate) (hconsistent : aggregate'.Consistent [])
    (hkeyer : aggregate'.keyerOf () = aggregate.keyerOf ()) {q : Q} {new : Option (Handle × A)}
    (hreplaces : g.Replaces aggregate.records aggregate'.records q new)
    (hnew : ∀ r, new = some r → g.akey r.2 = q) : Keyed g aggregate' where
  consistent := hconsistent
  keyer := hkeyer.trans h.keyer
  unique := by
    intro r hr r' hr' hkey
    -- each of the two is an old record of another key or the new one
    rcases (hreplaces r).mp hr with ⟨hold, hne⟩ | hn <;>
      rcases (hreplaces r').mp hr' with ⟨hold', hne'⟩ | hn'
    · exact h.unique r hold r' hold' hkey
    · exact absurd (hkey.trans (hnew r' hn')) hne
    · exact absurd (hkey.symm.trans (hnew r hn)) hne'
    · exact Option.some.inj (hn.symm.trans hn')

/-- What `aindex[key]` gave: the record `a` of the key, found in the table or just created. -/
inductive Located (g : Grouping T A Q) (aggregate : AggregateTable A Q) (key : Q) (record : Handle)
    (a : A) : AggregateTable A Q → Bool → Prop
  /-- the index had it -/
  | found : (record, a) ∈ aggregate.records → Located g aggregate key record a aggregate false
  /-- it had none, and the record is not committed yet -/
  | created : record ∉ aggregate.handles → (∀ r ∈ aggregate.records, g.akey r.2 ≠ key) →
      Located g aggregate key record a (aggregate.create record a) true

variable {aggregate located : AggregateTable A Q} {key : Q} {record : Handle} {a : A} {isNew : Bool}

/-- Either way it is in the table now. -/
theorem Located.mem (hl : Located g aggregate key record a located isNew) :
    (record, a) ∈ located.records := by
  cases hl with
  | found hmem => exact hmem
  | created hfresh hnone => exact List.mem_append_right _ (List.mem_singleton.mpr rfl)

/-- The index is the one it was. -/
theorem Located.keyerOf (hl : Located g aggregate key record a located isNew) :
    located.keyerOf () = aggregate.keyerOf () := by
  cases hl <;> rfl

/-- A record just created is pending. -/
theorem Located.consistent (hl : Located g aggregate key record a located isNew)
    (h : Keyed g aggregate) : located.Consistent (if isNew then [record] else []) := by
  cases hl with
  | found hmem => exact h.consistent
  | created hfresh hnone => exact h.consistent.create hfresh a

/-- **Next to the located record** there are the records of the other keys. -/
theorem Located.others (hl : Located g aggregate key record a located isNew)
    (h : Keyed g aggregate) (hkey : g.akey a = key) (r : Handle × A) :
    r ∈ located.records ∧ r.1 ≠ record ↔ r ∈ aggregate.records ∧ g.akey r.2 ≠ key := by
  subst hkey
  cases hl with
  -- the record of the key is there: next to it means of another key
  | found hmem =>
    constructor
    · rintro ⟨hr, hne⟩
      exact ⟨hr, mt (h.handle_iff hmem hr).mpr hne⟩
    · rintro ⟨hr, hne⟩
      exact ⟨hr, mt (h.handle_iff hmem hr).mp hne⟩
  -- it is new: all the others were there, and none has the key
  | created hfresh hnone =>
    constructor
    · rintro ⟨hr, hne⟩
      rcases List.mem_append.mp hr with hr | hr
      · exact ⟨hr, hnone r hr⟩
      · exact absurd (congrArg Prod.fst (List.mem_singleton.mp hr)) hne
    · rintro ⟨hr, _⟩
      refine ⟨List.mem_append_left _ hr, ?_⟩
      rintro rfl
      exact hfresh (List.mem_map_of_mem hr)

/-- Committing a record, new or not, settles the table. -/
theorem commit_settles {written : AggregateTable A Q}
    (h : written.Consistent (if isNew then [record] else [])) :
    ∃ aggregate', (if isNew then written.commitCreation record
        else some (written.commitModification record)) = some aggregate' ∧
      aggregate'.records = written.records ∧ aggregate'.keyerOf () = written.keyerOf () ∧
      aggregate'.Consistent [] := by
  cases isNew with
  -- the slot of a creation; else nothing was pending
  | true =>
    obtain ⟨aggregate', hcommit, hrecords, hkeyer, hconsistent⟩ :=
      h.commitCreation List.mem_cons_self
    exact ⟨aggregate', hcommit, hrecords, hkeyer (), by simpa using hconsistent⟩
  | false => exact ⟨written, congrArg some (h.commitModification record), rfl, rfl, h⟩

variable [DecidableEq Q]

/-- **Subscription** locates the record of the key. -/
theorem Keyed.recordFor (h : Keyed g aggregate) (m : Maker A) (key : Q) :
    ∃ located record isNew a, recordFor g m aggregate key = some (located, record, isNew) ∧
      g.akey a = key ∧ Located g aggregate key record a located isNew := by
  obtain ⟨x, hx, hkeyer⟩ := h.exists_index
  have hfresh := m.fresh aggregate.handles
  rcases h.consistent.subscript hx g.setKey key hfresh (m.construct aggregate.handles) with
    ⟨found, v, heq, hmem, hkey⟩ | ⟨heq, hnone, _⟩
  · -- with nothing pending, what the index finds is any record of the table
    rw [Table.settled_nil] at hmem
    exact ⟨_, _, _, v, heq, hkeyer ▸ hkey, .found hmem⟩
  · rw [Table.settled_nil] at hnone
    refine ⟨_, _, _, _, heq, g.akey_setKey _ _, .created hfresh ?_⟩
    intro r hr
    rw [← hkeyer]
    exact hnone r hr

/-- **Recomputing the located record** replaces the record of the key. -/
theorem Keyed.aggregateInto (h : Keyed g aggregate) (hkey : g.akey a = key)
    (hl : Located g aggregate key record a located isNew) (items : List T) :
    ∃ aggregate', aggregateInto g located record isNew items = some aggregate' ∧
      Keyed g aggregate' ∧
      g.Replaces aggregate.records aggregate'.records key (some (record, g.aggregate a items)) := by
  have hkey' := g.akey_aggregate a items
  -- the aggregator keeps the key, so that the index stays exact through the write
  obtain ⟨aggregate', hcommit, hrecords, hkeyer, hconsistent⟩ :=
    commit_settles ((hl.consistent h).write_same_key (hl.keyerOf.trans h.keyer) hl.mem hkey')
  -- the records: the others as they were, and this one
  have hreplaces : g.Replaces aggregate.records aggregate'.records key
      (some (record, g.aggregate a items)) := by
    intro r
    have hlive : record ∈ located.handles := List.mem_map_of_mem hl.mem
    rw [hrecords, Table.mem_write, hl.others h hkey, and_iff_left hlive, Option.some_inj,
      eq_comm (a := r)]
  refine ⟨aggregate', ?_, ?_, hreplaces⟩
  · unfold Sdb.aggregateInto
    rw [(Table.lookup_eq_some (hl.consistent h).nodup).mpr hl.mem, Option.bind_some]
    exact hcommit
  · refine h.replaced hconsistent (hkeyer.trans hl.keyerOf) hreplaces ?_
    rintro _ ⟨⟩
    exact hkey'.trans hkey

/-- **Removing the located record** leaves none of the key. -/
theorem Keyed.removeLocated (h : Keyed g aggregate) (hkey : g.akey a = key)
    (hl : Located g aggregate key record a located isNew) :
    Keyed g (located.remove record) ∧
      g.Replaces aggregate.records (located.remove record).records key none := by
  -- the others remain
  have hreplaces : g.Replaces aggregate.records (located.remove record).records key none := by
    intro r
    show r ∈ located.records.filter _ ↔ _
    rw [List.mem_filter, decide_eq_true_eq, hl.others h hkey]
    simp
  have hremoved := (hl.consistent h).remove (List.mem_map_of_mem hl.mem)
  -- a record created only to be removed is pending no more
  have hpending : ((if isNew then [record] else []).filter fun h => h ≠ record) = [] := by
    cases isNew <;> simp
  rw [hpending] at hremoved
  have hkeyer := ((hl.consistent h).keyerOf_notifyRemoved record ()).trans hl.keyerOf
  exact ⟨h.replaced hremoved hkeyer hreplaces nofun, hreplaces⟩

end

/-! ## The slots -/

section

variable [∀ i, DecidableEq (K i)] {u : ι} {g : Grouping T A (K u)}

/-- What both slots see: the record's value, the index of the underlying table, the record of the
    key in the aggregate table, and a range that is the record's group. -/
theorem slot_cases {underlying : Table ι T K} {pending : List Handle}
    (ht : underlying.Consistent pending) (hkeyer : underlying.keyerOf u = some g.ukey)
    {record : Handle} {v : T} (hrecord : (record, v) ∈ underlying.records)
    {aggregate : AggregateTable A (K u)} (h : Keyed g aggregate) (m : Maker A) :
    ∃ x located found isNew a, underlying.lookup record = some v ∧
      underlying.components u = some x ∧
      recordFor g m aggregate (g.ukey v) = some (located, found, isNew) ∧ g.akey a = g.ukey v ∧
      Located g aggregate (g.ukey v) found a located isNew ∧
      (x.equalRange (g.ukey v) = [] ↔ ∀ s ∈ underlying.settled pending, g.ukey s.2 ≠ g.ukey v) ∧
      (underlying.values (x.equalRange (g.ukey v))).Perm
        (g.group (underlying.settled pending) (g.ukey v)) := by
  obtain ⟨x, hx, hxkeyer⟩ := Option.map_eq_some_iff.mp hkeyer
  obtain ⟨located, found, isNew, a, hfor, hkey, hlocated⟩ := h.recordFor m (g.ukey v)
  refine ⟨x, located, found, isNew, a, (Table.lookup_eq_some ht.nodup).mpr hrecord, hx, hfor, hkey,
    hlocated, ?_, ?_⟩
  · -- the range is empty where the index finds nothing
    have hnone : x.find (g.ukey v) = none ↔ _ := (ht.exact u x hx).find_eq_none
    rw [Index.find, List.head?_eq_none_iff, hxkeyer] at hnone
    exact hnone
  · -- dereferenced, it is the group
    have hvalues := ht.values_equalRange hx (g.ukey v)
    rw [hxkeyer] at hvalues
    exact hvalues

/-- A new aggregate, made of the group of its key. -/
structure MadeOf (g : Grouping T A (K u)) (sources : List (Handle × T)) (q : K u)
    (r : Handle × A) : Prop where
  key : g.akey r.2 = q
  /-- from the records of its key, in some order -/
  computed : g.Computed sources r.2

/-- What the aggregator writes is made of the items it was given. -/
theorem madeOf_aggregate {sources : List (Handle × T)} {q : K u} {a : A} {items : List T}
    (hkey : g.akey a = q) (hitems : items.Perm (g.group sources q)) (found : Handle) :
    MadeOf g sources q (found, g.aggregate a items) where
  key := (g.akey_aggregate a items).trans hkey
  computed := by
    refine ⟨a, items, rfl, (g.akey_aggregate a items).symm, ?_⟩
    rw [g.akey_aggregate, hkey]
    exact hitems

/-- **`update_record`** replaces the aggregate of the record's group by one made of it. -/
theorem updateRecord_replaces {underlying : Table ι T K} {pending : List Handle}
    (ht : underlying.Consistent pending) (hkeyer : underlying.keyerOf u = some g.ukey)
    {record : Handle} {v : T} (hrecord : (record, v) ∈ underlying.records)
    {aggregate : AggregateTable A (K u)} (h : Keyed g aggregate) (m : Maker A) :
    ∃ aggregate' r, updateRecord g m underlying record aggregate = some aggregate' ∧
      Keyed g aggregate' ∧ MadeOf g (underlying.settled pending) (g.ukey v) r ∧
      g.Replaces aggregate.records aggregate'.records (g.ukey v) (some r) := by
  obtain ⟨x, located, found, isNew, a, hlookup, hx, hfor, hkey, hlocated, -, hitems⟩ :=
    slot_cases ht hkeyer hrecord h m
  obtain ⟨aggregate', hinto, hkeyed, hreplaces⟩ := h.aggregateInto hkey hlocated
    (underlying.values (x.equalRange (g.ukey v)))
  refine ⟨aggregate', _, ?_, hkeyed, madeOf_aggregate hkey hitems found, hreplaces⟩
  unfold updateRecord
  rw [hlookup, hx]
  simp only [Option.bind_some, hfor]
  exact hinto

/-- **The slot of `removed`** does the same while the group has other records, and leaves no
    aggregate when it has none. -/
theorem onRemoved_replaces {underlying : Table ι T K} {pending : List Handle}
    (ht : underlying.Consistent pending) (hkeyer : underlying.keyerOf u = some g.ukey)
    {record : Handle} {v : T} (hrecord : (record, v) ∈ underlying.records)
    {aggregate : AggregateTable A (K u)} (h : Keyed g aggregate) (m : Maker A) :
    ∃ aggregate' new, onRemoved g m underlying record aggregate = some aggregate' ∧
      Keyed g aggregate' ∧ g.Replaces aggregate.records aggregate'.records (g.ukey v) new ∧
      (∀ r, new = some r → MadeOf g (underlying.settled pending) (g.ukey v) r ∧
        ∃ s ∈ underlying.settled pending, g.ukey s.2 = g.ukey v) ∧
      (new = none → ∀ s ∈ underlying.settled pending, g.ukey s.2 ≠ g.ukey v) := by
  obtain ⟨x, located, found, isNew, a, hlookup, hx, hfor, hkey, hlocated, hempty, hitems⟩ :=
    slot_cases ht hkeyer hrecord h m
  -- the record was the last of its group, or was not
  by_cases hrange : x.equalRange (g.ukey v) = []
  · obtain ⟨hkeyed, hreplaces⟩ := h.removeLocated hkey hlocated
    refine ⟨_, none, ?_, hkeyed, hreplaces, nofun, fun _ => hempty.mp hrange⟩
    unfold onRemoved
    rw [hlookup, hx]
    simp only [Option.bind_some, hfor, hrange, List.isEmpty_nil, if_true]
  · obtain ⟨aggregate', hinto, hkeyed, hreplaces⟩ := h.aggregateInto hkey hlocated
      (underlying.values (x.equalRange (g.ukey v)))
    refine ⟨aggregate', _, ?_, hkeyed, hreplaces, ?_, nofun⟩
    · unfold onRemoved
      rw [hlookup, hx]
      simp only [Option.bind_some, hfor, List.isEmpty_iff, if_neg hrange]
      exact hinto
    · intro r hr
      rw [← Option.some.inj hr]
      refine ⟨madeOf_aggregate hkey hitems found, ?_⟩
      -- the range is not empty, so the group has a record
      by_contra hno
      push Not at hno
      exact hrange (hempty.mpr hno)

end

/-! ## The underlying table and its aggregate -/

/-- The underlying table in use; the records changed in it and not committed; and, once `group_by`
    has been called, the aggregate table. -/
structure Grouped (T A : Type) (K : ι → Type) (u : ι) where
  session : Session ι T K
  /-- written and not committed: their groups are stale -/
  dirty : List Handle
  aggregate : Option (AggregateTable A (K u))

/-- What can happen: an operation on the underlying table (with what the aggregate table's
    allocator and constructor would give meanwhile), obtaining the index `group_by` uses, and the
    call of `group_by`. -/
inductive GroupAction (T A : Type) (K : ι → Type) where
  /-- by any user of the underlying table -/
  | on (op : Operation ι T K) (m : Maker A)
  /-- by another transformation of the same table, say -/
  | underlyingIndex
  | groupBy (m : Maker A)

namespace Grouped

variable [∀ i, DecidableEq (K i)] {u : ι} (g : Grouping T A (K u))

/-- Nothing grouped yet. -/
def new : Grouped T A K u := ⟨.new, [], none⟩

/-- The operation is one the table allows, an index of type `u` has the keyer of `group_by`, and
    `group_by` is called once, with nothing pending. -/
def Allowed (s : Grouped T A K u) : GroupAction T A K → Prop
  | .on op _ => s.session.Allowed op ∧ op.Spares u
  | .underlyingIndex => s.session.pending = []
  | .groupBy _ => s.session.pending = [] ∧ s.aggregate.isNone

instance [DecidableEq ι] (s : Grouped T A K u) (a : GroupAction T A K) :
    Decidable (s.Allowed a) := by
  cases a <;> unfold Allowed <;> infer_instance

/-- The action, and the slots it triggers. -/
def perform [DecidableEq ι] (s : Grouped T A K u) : GroupAction T A K → Option (Grouped T A K u)
  | .on (.commit record) m =>
      (s.session.perform (.commit record)).bind fun session =>
        (emit (updateRecord g m session.table record) s.aggregate).map fun aggregate =>
          ⟨session, s.dirty.filter fun h => h ≠ record, aggregate⟩
  | .on (.remove record) m =>
      -- the record is dereferenced by the slot, and erased after it
      let notified := s.session.table.notifyRemoved record
      (emit (onRemoved g m notified record) s.aggregate).map fun aggregate =>
        ⟨⟨notified.erase record, s.session.pending.filter fun h => h ≠ record⟩,
          s.dirty.filter fun h => h ≠ record, aggregate⟩
  | .on .clear _ => some ⟨⟨s.session.table.clear, []⟩, [], s.aggregate.map Table.clear⟩
  | .on (.write record value) _ =>
      -- a write triggers nothing: until the commit the aggregate is stale
      some ⟨{ s.session with table := s.session.table.write record value },
        if record ∈ s.session.pending then s.dirty else record :: s.dirty, s.aggregate⟩
  | .on op _ => (s.session.perform op).map fun session => { s with session := session }
  | .underlyingIndex =>
      some { s with
        session := { s.session with table := s.session.table.component u g.ukey .hashed } }
  | .groupBy m =>
      (groupBy g m s.session.table).map fun r =>
        { s with session := { s.session with table := r.1 }, aggregate := some r.2 }

/-- No step for what is not allowed. -/
def step [DecidableEq ι] (s : Grouped T A K u) (a : GroupAction T A K) : Option (Grouped T A K u) :=
  if s.Allowed a then s.perform g a else none

/-- The aggregate table mirrors the settled records of the underlying one. -/
structure Tracks (t : Table ι T K) (pending dirty : List Handle)
    (aggregate : AggregateTable A (K u)) : Prop where
  /-- the index the slots read -/
  index : t.keyerOf u = some g.ukey
  keyed : Keyed g aggregate
  /-- but for the stale groups -/
  mirrors : g.Mirrors dirty (t.settled pending) (t.settled pending) aggregate.records

/-- The invariant. -/
structure Sound (s : Grouped T A K u) : Prop where
  consistent : s.session.table.Consistent s.session.pending
  /-- nobody else obtained the index by another key -/
  keyer : ∀ k, s.session.table.keyerOf u = some k → k = g.ukey
  /-- once `group_by` was called -/
  tracks : ∀ aggregate, s.aggregate = some aggregate →
    Tracks g s.session.table s.session.pending s.dirty aggregate

variable {g}

/-- **The slot of `created`**, after the commit of a new record. -/
theorem Tracks.created {t t' : Table ι T K} {pending dirty : List Handle}
    {aggregate : AggregateTable A (K u)} (h : Tracks g t pending dirty aggregate)
    {record : Handle} (ht : t.Consistent pending) (hpending : record ∈ pending)
    (hrecords : t'.records = t.records) (hkeyer : t'.keyerOf u = t.keyerOf u)
    (ht' : t'.Consistent (pending.filter fun h => h ≠ record)) (m : Maker A) :
    ∃ aggregate', updateRecord g m t' record aggregate = some aggregate' ∧
      Tracks g t' (pending.filter fun h => h ≠ record) (dirty.filter fun h => h ≠ record)
        aggregate' := by
  obtain ⟨v, hmem⟩ := Table.exists_value (ht.live record hpending)
  obtain ⟨aggregate', r, hupdate, hkeyed, hmade, hreplaces⟩ := updateRecord_replaces ht'
    (hkeyer.trans h.index) (by rw [hrecords]; exact hmem) h.keyed m
  -- the table has one settled record more
  have hsettled : (t.settled pending ++ [(record, v)]).Perm
      (t'.settled (pending.filter fun h => h ≠ record)) := by
    have := Table.settled_commit ht.nodup hmem hpending
    unfold Table.settled at this ⊢
    rw [hrecords]
    exact this
  refine ⟨aggregate', hupdate, hkeyer.trans h.index, hkeyed,
    h.mirrors.created hsettled ?_ hreplaces hmade.key hmade.computed⟩
  -- a settled record is not the one that was pending
  intro s hs hstale
  refine List.mem_filter.mpr ⟨hstale, decide_eq_true fun heq => ?_⟩
  exact of_decide_eq_true (List.mem_filter.mp hs).2 (heq ▸ hpending)

/-- **The slot of `modified`**, after the commit of a modified record. -/
theorem Tracks.modified {t : Table ι T K} {pending dirty : List Handle}
    {aggregate : AggregateTable A (K u)} (h : Tracks g t pending dirty aggregate)
    {record : Handle} (ht : t.Consistent pending) (hlive : record ∈ t.handles)
    (hsettled : record ∉ pending) (m : Maker A) :
    ∃ aggregate', updateRecord g m t record aggregate = some aggregate' ∧
      Tracks g t pending (dirty.filter fun h => h ≠ record) aggregate' := by
  obtain ⟨v, hmem⟩ := Table.exists_value hlive
  obtain ⟨aggregate', r, hupdate, hkeyed, hmade, hreplaces⟩ :=
    updateRecord_replaces ht h.index hmem h.keyed m
  refine ⟨aggregate', hupdate, h.index, hkeyed, h.mirrors.modified
    (List.mem_filter.mpr ⟨hmem, decide_eq_true hsettled⟩) ?_ hreplaces hmade.key hmade.computed⟩
  -- a handle has one value
  intro s hs heq
  exact List.inj_on_of_nodup_map ht.nodup (List.mem_of_mem_filter hs) hmem heq

/-- **The slot of `removed`**, after the components' callbacks. -/
theorem Tracks.removed [DecidableEq ι] {t : Table ι T K} {pending dirty : List Handle}
    {aggregate : AggregateTable A (K u)} (h : Tracks g t pending dirty aggregate)
    {record : Handle} (ht : t.Consistent pending) (hlive : record ∈ t.handles) (m : Maker A) :
    ∃ aggregate', onRemoved g m (t.notifyRemoved record) record aggregate = some aggregate' ∧
      Tracks g ((t.notifyRemoved record).erase record) (pending.filter fun h => h ≠ record)
        (dirty.filter fun h => h ≠ record) aggregate' := by
  obtain ⟨v, hmem⟩ := Table.exists_value hlive
  have hindex := (ht.keyerOf_notifyRemoved record u).trans h.index
  obtain ⟨aggregate', new, hslot, hkeyed, hreplaces, hsome, hnone⟩ :=
    onRemoved_replaces (ht.notifyRemoved hlive) hindex hmem h.keyed m
  refine ⟨aggregate', hslot, hindex, hkeyed, ?_⟩
  rw [Table.settled_notifyRemoved] at hsome hnone
  rw [Table.settled_erase, Table.settled_notifyRemoved]
  refine h.mirrors.removed ?_ hreplaces ?_ hnone
  · -- a handle has one value
    intro s hs heq
    exact List.inj_on_of_nodup_map ht.nodup (List.mem_of_mem_filter hs) hmem heq
  · -- the group has records left, and its aggregate is made of them
    intro r hr
    obtain ⟨hmade, hsource⟩ := hsome r hr
    exact ⟨hmade.key, hmade.computed, hsource⟩

/-- **A write** to a settled record makes its group stale. -/
theorem Tracks.written {t : Table ι T K} {pending dirty : List Handle}
    {aggregate : AggregateTable A (K u)} (h : Tracks g t pending dirty aggregate)
    (ht : t.Consistent pending) {record : Handle} {old value : T}
    (hmem : (record, old) ∈ t.records) (hsettled : record ∉ pending)
    (hkey : g.ukey value = g.ukey old) :
    Tracks g (t.write record value) pending (record :: dirty) aggregate := by
  refine ⟨h.index, h.keyed, ?_⟩
  rw [Table.settled_write]
  refine h.mirrors.written (List.mem_filter.mpr ⟨hmem, decide_eq_true hsettled⟩) ?_ hkey
  intro s hs heq
  exact List.inj_on_of_nodup_map ht.nodup (List.mem_of_mem_filter hs) hmem heq

/-- **`clear`** on both sides. -/
theorem Tracks.cleared [DecidableEq ι] {t : Table ι T K} {pending dirty : List Handle}
    {aggregate : AggregateTable A (K u)} (h : Tracks g t pending dirty aggregate)
    (ht : t.Consistent pending) : Tracks g t.clear [] [] aggregate.clear where
  index := (ht.keyerOf_clear u).trans h.index
  keyed := ⟨h.keyed.consistent.clear, (h.keyed.consistent.keyerOf_clear ()).trans h.keyed.keyer,
    nofun⟩
  mirrors := ⟨nofun, nofun, nofun, nofun⟩

/-! ## Setting up -/

omit [∀ i, DecidableEq (K i)] in
/-- The aggregate table as the set-up finds it. -/
theorem empty_keyed : Keyed g (Table.empty.component () g.akey .hashed) where
  consistent := by
    have hempty : (Table.empty : AggregateTable A (K u)).Consistent [] := Table.empty_consistent
    exact hempty.component () g.akey .hashed
  keyer := rfl
  unique := nofun

/-- **The loop of the set-up**, over the records not visited yet. -/
theorem populate {t : Table ι T K} (ht : t.Consistent []) (hindex : t.keyerOf u = some g.ukey)
    (m : Maker A) (dirty : List Handle) :
    ∀ (rest seen : List (Handle × T)) (aggregate : AggregateTable A (K u)),
      (∀ s ∈ rest, s ∈ t.records) → Keyed g aggregate →
      g.Mirrors dirty t.records seen aggregate.records →
      ∃ aggregate', Lib.run (fun agg record => updateRecord g m t record agg) aggregate
          (rest.map Prod.fst) = some aggregate' ∧
        Keyed g aggregate' ∧ g.Mirrors dirty t.records (seen ++ rest) aggregate'.records := by
  intro rest
  induction rest with
  | nil =>
    intro seen aggregate _ hkeyed hmirrors
    exact ⟨aggregate, rfl, hkeyed, by rw [List.append_nil]; exact hmirrors⟩
  | cons s rest ih =>
    intro seen aggregate hrest hkeyed hmirrors
    have hs : s ∈ t.records := hrest s List.mem_cons_self
    -- one record: the aggregate of its group is made of the whole group at once
    obtain ⟨aggregate₁, r, hupdate, hkeyed₁, hmade, hreplaces⟩ :=
      updateRecord_replaces ht hindex hs hkeyed m
    rw [Table.settled_nil] at hmade
    have hmirrors₁ := hmirrors.visited hs hreplaces hmade.key hmade.computed
    obtain ⟨aggregate', hrun, hkeyed', hmirrors'⟩ := ih (seen ++ [s]) aggregate₁
      (fun x hx => hrest x (List.mem_cons_of_mem _ hx)) hkeyed₁ hmirrors₁
    refine ⟨aggregate', Lib.run_cons_eq_some.mpr ⟨aggregate₁, hupdate, hrun⟩, hkeyed', ?_⟩
    rw [List.append_cons]
    exact hmirrors'

/-- **The set-up** mirrors the records that are there, some of which may be changed and not
    committed. -/
theorem groupBy_tracks [DecidableEq ι] {t : Table ι T K} (ht : t.Consistent [])
    (hkeyer : ∀ k, t.keyerOf u = some k → k = g.ukey) (m : Maker A) (dirty : List Handle) :
    ∃ aggregate, groupBy g m t = some (t.component u g.ukey .hashed, aggregate) ∧
      Tracks g (t.component u g.ukey .hashed) [] dirty aggregate := by
  have ht' := ht.component u g.ukey .hashed
  have hindex := Table.keyerOf_component_self hkeyer .hashed
  obtain ⟨aggregate, hrun, hkeyed, hmirrors⟩ := populate ht' hindex m dirty _ [] _
    (fun _ h => h) empty_keyed (Lib.Aggregation.mirrors_nil dirty _)
  refine ⟨aggregate, ?_, hindex, hkeyed, ?_⟩
  · unfold groupBy
    exact congrArg (Option.map _) hrun
  · rw [Table.settled_nil]
    exact hmirrors

/-! ## Every action -/

/-- The invariant holds at the start. -/
theorem new_sound : Sound g (new : Grouped T A K u) where
  consistent := Table.empty_consistent
  keyer := nofun
  tracks := nofun

/-- An operation that neither settles, changes nor removes a record triggers no slot. -/
theorem Sound.of_settled {s : Grouped T A K u} (h : Sound g s) {session : Session ι T K}
    (hcon : session.table.Consistent session.pending)
    (hkeyer : session.table.keyerOf u = s.session.table.keyerOf u)
    (hsettled : session.table.settled session.pending =
      s.session.table.settled s.session.pending) :
    Sound g { s with session := session } where
  consistent := hcon
  keyer := fun k hk => h.keyer k (hkeyer ▸ hk)
  tracks := by
    intro aggregate ha
    obtain ⟨hindex, hkeyed, hmirrors⟩ := h.tracks aggregate ha
    exact ⟨hkeyer.trans hindex, hkeyed, by rw [hsettled]; exact hmirrors⟩

/-- What the slot keeps, if it is connected, makes the new state sound. -/
theorem emit_sound {s : Grouped T A K u}
    {slot : AggregateTable A (K u) → Option (AggregateTable A (K u))}
    {session : Session ι T K} {dirty : List Handle}
    (hcon : session.table.Consistent session.pending)
    (hkeyer : ∀ k, session.table.keyerOf u = some k → k = g.ukey)
    (hslot : ∀ aggregate, s.aggregate = some aggregate → ∃ aggregate', slot aggregate =
      some aggregate' ∧ Tracks g session.table session.pending dirty aggregate') :
    ∃ s', (emit slot s.aggregate).map (Grouped.mk session dirty) = some s' ∧ Sound g s' := by
  obtain ⟨aggregate, hemit, htracks⟩ := emit_establishes hslot
  exact ⟨⟨session, dirty, aggregate⟩, by rw [hemit]; rfl, hcon, hkeyer, htracks⟩

variable [DecidableEq ι]

/-- **A commit**: one slot for a new record and for a changed one. -/
theorem commit_sound {s : Grouped T A K u} (h : Sound g s) {record : Handle} {m : Maker A}
    (hop : s.session.Allowed (.commit record)) :
    ∃ s', s.perform g (.on (.commit record) m) = some s' ∧ Sound g s' := by
  obtain ⟨⟨t, pending⟩, dirty, aggregate⟩ := s
  -- the commit of a creation, or of a modification
  by_cases hpending : record ∈ pending
  · obtain ⟨t', hperform, hrecords, hkeyer, hcon⟩ :=
      Session.perform_commit_pending h.consistent hpending
    show ∃ s', (Session.perform _ _).bind _ = some s' ∧ _
    rw [hperform, Option.bind_some]
    refine emit_sound hcon (fun k hk => h.keyer k ((hkeyer u).symm.trans hk)) ?_
    intro agg hagg
    exact (h.tracks agg hagg).created h.consistent hpending hrecords (hkeyer u) hcon m
  · have hperform := Session.perform_commit_settled h.consistent hpending
    show ∃ s', (Session.perform _ _).bind _ = some s' ∧ _
    rw [hperform, Option.bind_some]
    refine emit_sound h.consistent h.keyer ?_
    intro agg hagg
    exact (h.tracks agg hagg).modified h.consistent hop hpending m

/-- **A removal**, with the slot in between. -/
theorem remove_sound {s : Grouped T A K u} (h : Sound g s) {record : Handle} {m : Maker A}
    (hop : s.session.Allowed (.remove record)) :
    ∃ s', s.perform g (.on (.remove record) m) = some s' ∧ Sound g s' := by
  refine emit_sound (s := s) (h.consistent.remove hop) ?_ ?_
  · intro k hk
    exact h.keyer k ((h.consistent.keyerOf_notifyRemoved record u).symm.trans hk)
  · intro agg hagg
    exact (h.tracks agg hagg).removed h.consistent hop m

/-- **A write** is of a pending record, which no group has, or makes a group stale. -/
theorem write_sound {s : Grouped T A K u} (h : Sound g s) {record : Handle} {value : T}
    {m : Maker A} (hop : s.session.Allowed (.write record value)) :
    ∃ s', s.perform g (.on (.write record value) m) = some s' ∧ Sound g s' := by
  obtain ⟨⟨t, pending⟩, dirty, aggregate⟩ := s
  obtain ⟨s', hs', hcon⟩ := Session.perform_consistent h.consistent hop
  obtain rfl : (⟨t.write record value, pending⟩ : Session ι T K) = s' := Option.some.inj hs'
  refine ⟨_, rfl, ?_⟩
  by_cases hpending : record ∈ pending
  · rw [if_pos hpending]
    exact h.of_settled hcon rfl (Table.settled_write_pending t hpending value)
  · rw [if_neg hpending]
    refine ⟨hcon, h.keyer, ?_⟩
    intro agg hagg
    have htracks := h.tracks agg hagg
    obtain ⟨old, hmem⟩ := Table.exists_value hop.1
    exact htracks.written h.consistent hmem hpending
      (Session.key_of_write h.consistent hop hpending htracks.index hmem)

/-- **What triggers no slot.** -/
theorem quiet_sound {s : Grouped T A K u} (h : Sound g s) {op : Operation ι T K}
    (hop : s.session.Allowed op) (hquiet : op.Quiet) (hindex : op.Spares u) :
    ∃ s', (s.session.perform op).map (fun session => { s with session := session }) = some s' ∧
      Sound g s' := by
  obtain ⟨session, hperform, hcon, hkeyer, hsettled⟩ :=
    Session.perform_quiet h.consistent hop hquiet hindex
  exact ⟨_, by rw [hperform]; rfl, h.of_settled hcon hkeyer hsettled⟩

/-- **One action** returns and keeps the invariant. -/
theorem perform_sound {s : Grouped T A K u} (h : Sound g s) {a : GroupAction T A K}
    (ha : s.Allowed a) : ∃ s', s.perform g a = some s' ∧ Sound g s' := by
  cases a with
  -- obtaining the index changes no record
  | underlyingIndex =>
    obtain ⟨⟨t, pending⟩, dirty, aggregate⟩ := s
    obtain rfl : pending = [] := ha
    have hindex := Table.keyerOf_component_self h.keyer .hashed
    refine ⟨_, rfl, h.consistent.component u g.ukey .hashed, ?_, ?_⟩
    · intro k hk
      exact Option.some.inj (hk.symm.trans hindex)
    · intro agg hagg
      obtain ⟨_, hkeyed, hmirrors⟩ := h.tracks agg hagg
      refine ⟨hindex, hkeyed, ?_⟩
      rw [Table.settled_nil] at hmirrors ⊢
      rw [Table.records_component]
      exact hmirrors
  -- the index is obtained, then the records are visited
  | groupBy m =>
    obtain ⟨⟨t, pending⟩, dirty, aggregate⟩ := s
    obtain rfl : pending = [] := ha.1
    obtain ⟨agg, hgroup, htracks⟩ := groupBy_tracks h.consistent h.keyer m dirty
    refine ⟨⟨⟨t.component u g.ukey .hashed, []⟩, dirty, some agg⟩, ?_,
      h.consistent.component u g.ukey .hashed, ?_, ?_⟩
    · show (groupBy g m t).map _ = _
      rw [hgroup]
      rfl
    · intro k hk
      exact Option.some.inj (hk.symm.trans htracks.index)
    · intro agg' hagg'
      rw [← Option.some.inj hagg']
      exact htracks
  | on op m =>
    obtain ⟨hop, hindex⟩ := ha
    cases op with
    | commit record => exact commit_sound h hop
    | remove record => exact remove_sound h hop
    | write record value => exact write_sound h hop
    -- both tables are emptied
    | clear =>
      refine ⟨_, rfl, h.consistent.clear, ?_, ?_⟩
      · intro k hk
        exact h.keyer k ((h.consistent.keyerOf_clear u).symm.trans hk)
      · intro agg hagg
        obtain ⟨agg₀, hagg₀, rfl⟩ := Option.map_eq_some_iff.mp hagg
        exact (h.tracks agg₀ hagg₀).cleared h.consistent
    | create record value => exact quiet_sound h hop trivial hindex
    | index i keyer d => exact quiet_sound h hop trivial hindex
    | subscript i setKey key record value => exact quiet_sound h hop trivial hindex

/-- The step lemma, -/
theorem step_sound (s : Grouped T A K u) (a : GroupAction T A K) (s' : Grouped T A K u)
    (h : Sound g s) (hstep : s.step g a = some s') : Sound g s' :=
  Lib.of_allowed (fun ha => perform_sound h ha) hstep

/-- and the run lemma. -/
theorem run_sound {actions : List (GroupAction T A K)} {s : Grouped T A K u}
    (h : Lib.run (fun s a => s.step g a) new actions = some s) : Sound g s :=
  Lib.run_invariant step_sound actions new s new_sound h

/-- **Incremental `group_by` equals recomputation.**  After any sequence of operations on the
    underlying table, with `group_by` set up at any point where nothing is pending, the next
    operation returns; and whenever every change has been committed, the aggregate table has one
    record for each key of the (committed) underlying records and no other.  Such a record is the
    aggregator's result over all underlying records with its key: whatever the aggregator derives
    from them, up to their order, is what it derives from a fresh scan of the table. -/
theorem group_by_recomputed (actions : List (GroupAction T A K)) (s : Grouped T A K u)
    (h : Lib.run (fun s a => s.step g a) new actions = some s) :
    (∀ a, s.Allowed a → ∃ s', s.perform g a = some s') ∧
    ∀ aggregate, s.aggregate = some aggregate → s.dirty = [] →
      let underlying := s.session.table.settled s.session.pending
      (∀ q, (∃ r ∈ aggregate.records, g.akey r.2 = q) ↔ ∃ r ∈ underlying, g.ukey r.2 = q) ∧
      (aggregate.records.map fun r => g.akey r.2).Nodup ∧
      ∀ r ∈ aggregate.records,
        (∃ a items, r.2 = g.aggregate a items ∧ g.akey a = g.akey r.2 ∧
          items.Perm (g.group underlying (g.akey r.2))) ∧
        ∀ (V : Type) (value : A → V),
          (∀ a a' items items', g.akey a = g.akey a' → items.Perm items' →
            value (g.aggregate a items) = value (g.aggregate a' items')) →
          ∀ a, g.akey a = g.akey r.2 →
            value r.2 = value (g.aggregate a (g.group underlying (g.akey r.2))) := by
  have hsound := run_sound h
  constructor
  · intro a ha
    obtain ⟨s', hs', _⟩ := perform_sound hsound ha
    exact ⟨s', hs'⟩
  · -- with nothing stale the mirror is the recomputation
    intro aggregate hagg hdirty
    obtain ⟨_, hkeyed, hmirrors⟩ := hsound.tracks aggregate hagg
    rw [hdirty] at hmirrors
    obtain ⟨hkeys, hnodup, hcomputed⟩ :=
      hmirrors.recomputed (List.Nodup.of_map _ hkeyed.consistent.nodup)
    refine ⟨hkeys, hnodup, ?_⟩
    intro r hr
    obtain ⟨a₀, items, heq, hkey, hitems⟩ := hcomputed r hr
    refine ⟨⟨a₀, items, heq, hkey, hitems⟩, ?_⟩
    -- what the aggregator derives depends on its items up to order only
    intro V value hvalue a ha
    calc value r.2 = value (g.aggregate a₀ items) := congrArg value heq
      _ = _ := hvalue a₀ a items _ (hkey.trans ha.symm) hitems

/-- Pairs of a key and a number, summed up by key. -/
def sums : Grouping (Nat × Nat) (Nat × Nat) Nat where
  ukey := Prod.fst
  akey := Prod.fst
  aggregate a items := (a.1, items.foldl (fun total item => total + item.2) 0)
  akey_aggregate _ _ := rfl
  setKey a q := (q, a.2)
  akey_setKey _ _ := rfl

/-- One record before the set-up, two after it, of which one makes a group of its own; a change;
    the removal of the lone record. -/
def summedUp : List (GroupAction (Nat × Nat) (Nat × Nat) fun _ : Unit => Nat) :=
  let m := Maker.ascending fun _ => (0, 0)
  [.on (.create 10 (1, 5)) m, .on (.commit 10) m, .groupBy m, .on (.create 20 (1, 7)) m,
    .on (.commit 20) m, .on (.create 30 (2, 1)) m, .on (.commit 30) m, .on (.write 10 (1, 6)) m,
    .on (.commit 10) m, .on (.remove 30) m]

theorem group_by_recomputed_sums :
    ∃ s aggregate, Lib.run (fun s a => s.step (u := ()) sums a) new summedUp = some s ∧
      s.aggregate = some aggregate ∧ s.dirty = [] ∧ s.session.pending = [] ∧
      aggregate.records.map Prod.snd = [(1, 13)] ∧
      (aggregate.records.map fun r => r.2.1).Nodup := by
  have hsummary : (Lib.run (fun s a => s.step (u := ()) sums a) new summedUp).map (fun s =>
      (s.dirty, s.session.pending, s.aggregate.map fun a => a.records.map Prod.snd)) =
      some ([], [], some [(1, 13)]) := by decide
  obtain ⟨s, hrun, hs⟩ := Option.map_eq_some_iff.mp hsummary
  obtain ⟨hdirty, hs⟩ := Prod.mk.inj hs
  obtain ⟨hpending, haggregate⟩ := Prod.mk.inj hs
  obtain ⟨aggregate, hagg, hrecords⟩ := Option.map_eq_some_iff.mp haggregate
  exact ⟨s, aggregate, hrun, hagg, hdirty, hpending, hrecords,
    ((group_by_recomputed summedUp s hrun).2 aggregate hagg hdirty).2.1⟩

end Grouped

end MicroProfiler.Sdb
