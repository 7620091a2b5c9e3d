/-
  `sdb/table.h` and `sdb/integrated_index.h`: tables of records with lazily obtained indexes.

  1. **The code** — a `Table` is its list of records and its components, one for each component
     type `i : ι` that was ever asked for, in the order they were constructed.  `create`, `write`
     (through a `transacted_record`), `commitCreation`, `commitModification`, `remove`, `clear`,
     `component` and the unique index's `subscript` are the source's operations; the components'
     callbacks run forward on creation and modification, backward on removal and clearing.

  2. **Consistency** (`Consistent`) — with the handles of the records created and not committed yet
     set apart, every component is exact for the others.  One lemma for each operation.

  3. **Sessions** (`Session`) — sequences of operations by any user that commits a new record at
     most once, keeps the indexed keys when it modifies one, and obtains an index at a point where
     nothing is pending.

  4. **Indexes are exact** (`indexes_exact`) — whenever nothing is pending, each query of each
     index is a linear scan of the table.
-/
import MicroProfiler.Lib.Keys
import MicroProfiler.Lib.Runs
import MicroProfiler.Sdb.Index
import Mathlib.Data.List.Perm.Subperm

namespace MicroProfiler.Sdb

variable {ι T : Type} {K : ι → Type}

/-- `class table`. -/
structure Table (ι T : Type) (K : ι → Type) where
  /-- with their addresses, in the order they were created in -/
  records : List (Handle × T)
  /-- by component type -/
  components : (i : ι) → Option (Index T (K i))
  /-- the types obtained so far, first to last -/
  ordered : List ι

/-- Call back the components listed, in this order. -/
def forEach [DecidableEq ι] (f : ∀ i, Index T (K i) → Index T (K i)) (order : List ι)
    (components : (i : ι) → Option (Index T (K i))) : (i : ι) → Option (Index T (K i)) :=
  order.foldl (fun c i => Function.update c i ((c i).map (f i))) components

/-- `table_component::modified`, which no index overrides. -/
def Index.modified {K : Type} (x : Index T K) (_record : Handle) : Index T K := x

namespace Table

/-- A table as constructed: no records, and no index asked for yet. -/
def empty : Table ι T K := ⟨[], fun _ => none, []⟩

/-- The addresses in use. -/
def handles (t : Table ι T K) : List Handle := t.records.map Prod.fst

/-- Dereferences an iterator. -/
def lookup (t : Table ι T K) (record : Handle) : Option T :=
  (t.records.find? fun r => r.1 = record).map Prod.snd

/-- `create`: the allocator chose `record`, the constructor made `value`. -/
def create (t : Table ι T K) (record : Handle) (value : T) : Table ι T K :=
  { t with records := t.records ++ [(record, value)] }

/-- Assignment through a `transacted_record`. -/
def write (t : Table ι T K) (record : Handle) (value : T) : Table ι T K :=
  -- the record stays where it is
  { t with records := t.records.map fun r => if r.1 = record then (record, value) else r }

/-- `commit_creation`, up to its signal. -/
def commitCreation [DecidableEq ι] (t : Table ι T K) (record : Handle) : Option (Table ι T K) :=
  (t.lookup record).map fun v =>
    { t with components := forEach (fun _ x => x.created record v) t.ordered t.components }

/-- `commit_modification`, up to its signal. -/
def commitModification [DecidableEq ι] (t : Table ι T K) (record : Handle) : Table ι T K :=
  { t with components := forEach (fun _ x => x.modified record) t.ordered t.components }

/-- `commit_removal` up to its signal: the record is still there. -/
def notifyRemoved [DecidableEq ι] (t : Table ι T K) (record : Handle) : Table ι T K :=
  { t with components := forEach (fun _ x => x.removed record) t.ordered.reverse t.components }

/-- `commit_removal` after its signal. -/
def erase (t : Table ι T K) (record : Handle) : Table ι T K :=
  { t with records := t.records.filter fun r => r.1 ≠ record }

/-- `commit_removal`. -/
def remove [DecidableEq ι] (t : Table ι T K) (record : Handle) : Table ι T K :=
  (t.notifyRemoved record).erase record

/-- `clear`. -/
def clear [DecidableEq ι] (t : Table ι T K) : Table ι T K :=
  { t with
    records := []
    -- `for_each_component_reversed`: the last component obtained hears of it first
    components := forEach (fun _ x => x.cleared) t.ordered.reverse t.components }

/-- `component`, for an index of type `i`: constructed at the first request. -/
def component [DecidableEq ι] (t : Table ι T K) (i : ι) (keyer : T → K i) (d : Lib.Discipline (K i)) :
    Table ι T K :=
  match t.components i with
  -- there is one of the type: the keyer given now is not looked at
  | some _ => t
  | none =>
      { t with
        components := Function.update t.components i (some (Index.ofRecords keyer d t.records))
        ordered := t.ordered ++ [i] }

/-- `immutable_unique_index::operator []`: the record found, or a new one made by `create_record`
    from `value` with the key written into it by `setKey`; with it, whether it is new. -/
def subscript [∀ i, DecidableEq (K i)] (t : Table ι T K) (i : ι) (setKey : T → K i → T) (key : K i)
    (record : Handle) (value : T) : Option (Table ι T K × Handle × Bool) :=
  (t.components i).map fun x =>
    -- the new record is not committed here: that is up to the caller
    match x.find key with
    | some found => (t, found, false)
    | none => (t.create record (setKey value key), record, true)

/-- Dereferences a range of iterators. -/
def values (t : Table ι T K) (records : List Handle) : List T := records.filterMap t.lookup

/-- The keyer of a component: the one given at its first request. -/
def keyerOf (t : Table ι T K) (i : ι) : Option (T → K i) := (t.components i).map Index.keyer

/-! ## Consistency -/

/-- The records that are not pending. -/
def settled (t : Table ι T K) (pending : List Handle) : List (Handle × T) :=
  t.records.filter fun r => r.1 ∉ pending

/-- Every component is exact for the records that are not pending. -/
structure Consistent (t : Table ι T K) (pending : List Handle) : Prop where
  /-- a handle names one record -/
  nodup : t.handles.Nodup
  /-- what is pending is in the table -/
  live : ∀ h ∈ pending, h ∈ t.handles
  ordered : t.ordered.Nodup
  /-- the components and their order belong together -/
  obtained : ∀ i, (t.components i).isSome ↔ i ∈ t.ordered
  /-- pending records are in no index yet -/
  exact : ∀ i x, t.components i = some x → x.Exact (t.settled pending)

/-- With nothing pending these are all of them. -/
@[simp] theorem settled_nil (t : Table ι T K) : t.settled [] = t.records := by
  unfold settled
  exact List.filter_eq_self.mpr fun r _ => decide_eq_true List.not_mem_nil

/-- **The callbacks reach every component once**, in whatever order. -/
theorem forEach_apply [DecidableEq ι] (f : ∀ i, Index T (K i) → Index T (K i)) :
    ∀ (order : List ι) (c : (i : ι) → Option (Index T (K i))), order.Nodup → ∀ i,
      forEach f order c i = if i ∈ order then (c i).map (f i) else c i := by
  intro order
  induction order with
  | nil => intro c _ i; rw [if_neg List.not_mem_nil]; rfl
  | cons j order ih =>
    intro c hnodup i
    obtain ⟨hj, hrest⟩ := List.nodup_cons.mp hnodup
    show forEach f order (Function.update c j ((c j).map (f j))) i = _
    rw [ih _ hrest]
    -- the callback of `j` is the first; no later one is for it
    by_cases hij : i = j
    · subst hij
      rw [if_neg hj, if_pos List.mem_cons_self, Function.update_self]
    · rw [Function.update_of_ne hij]
      simp only [List.mem_cons, hij, false_or]

/-- ... and there are no others. -/
theorem forEach_obtained [DecidableEq ι] (f : ∀ i, Index T (K i) → Index T (K i)) {order : List ι}
    {c : (i : ι) → Option (Index T (K i))} (hnodup : order.Nodup)
    (hobtained : ∀ i, (c i).isSome ↔ i ∈ order) (i : ι) :
    forEach f order c i = (c i).map (f i) := by
  rw [forEach_apply f _ _ hnodup]
  split
  · rfl
  · -- one that was not obtained is not there
    next hno =>
    rw [← hobtained i, Option.not_isSome_iff_eq_none] at hno
    rw [hno]
    rfl

section

variable {t : Table ι T K} {pending : List Handle}

/-- Creation and modification are told to every component, -/
theorem Consistent.forEach_forward [DecidableEq ι] (h : t.Consistent pending)
    (f : ∀ i, Index T (K i) → Index T (K i)) (i : ι) :
    forEach f t.ordered t.components i = (t.components i).map (f i) :=
  forEach_obtained f h.ordered h.obtained i

/-- and so are removal and clearing, in the opposite order. -/
theorem Consistent.forEach_reversed [DecidableEq ι] (h : t.Consistent pending)
    (f : ∀ i, Index T (K i) → Index T (K i)) (i : ι) :
    forEach f t.ordered.reverse t.components i = (t.components i).map (f i) :=
  forEach_obtained f (List.nodup_reverse.mpr h.ordered)
    (fun i => (h.obtained i).trans List.mem_reverse.symm) i

/-- What a callback does to consistency is what it does to one exact index. -/
theorem Consistent.of_components {t' : Table ι T K} {pending' : List Handle}
    (h : t.Consistent pending) {f : ∀ i, Index T (K i) → Index T (K i)}
    (hordered : t'.ordered = t.ordered)
    (hcomponents : ∀ i, t'.components i = (t.components i).map (f i))
    (hnodup : t'.handles.Nodup) (hlive : ∀ h ∈ pending', h ∈ t'.handles)
    (hexact : ∀ i x, x.Exact (t.settled pending) → (f i x).Exact (t'.settled pending')) :
    t'.Consistent pending' where
  nodup := hnodup
  live := hlive
  ordered := by rw [hordered]; exact h.ordered
  obtained := fun i => by rw [hcomponents, Option.isSome_map, hordered]; exact h.obtained i
  -- a component afterwards is what the callback made of one before
  exact := by
    intro i x hx
    rw [hcomponents] at hx
    obtain ⟨y, hy, rfl⟩ := Option.map_eq_some_iff.mp hx
    exact hexact i y (h.exact i y hy)

/-! ### One lemma for each operation -/

/-- The invariant holds of a new table. -/
theorem empty_consistent : (empty : Table ι T K).Consistent [] where
  nodup := List.nodup_nil
  live := fun _ h => absurd h List.not_mem_nil
  ordered := List.nodup_nil
  obtained := fun _ => ⟨nofun, fun h => absurd h List.not_mem_nil⟩
  exact := nofun

/-- Every handle in use has a value. -/
theorem exists_value {record : Handle} (h : record ∈ t.handles) :
    ∃ value, (record, value) ∈ t.records := by
  obtain ⟨⟨_, v⟩, hmem, rfl⟩ := List.mem_map.mp h
  exact ⟨v, hmem⟩

/-- One handle more, -/
theorem handles_create (t : Table ι T K) (record : Handle) (value : T) :
    (t.create record value).handles = t.handles ++ [record] := by
  unfold handles create
  rw [List.map_append]
  rfl

/-- and none more or less for a write. -/
theorem handles_write (t : Table ι T K) (record : Handle) (value : T) :
    (t.write record value).handles = t.handles := by
  unfold handles write
  rw [List.map_map]
  apply List.map_congr_left
  intro r _
  show (if r.1 = record then (record, value) else r).1 = r.1
  split
  · next h => exact h.symm
  · rfl

/-- What a lookup gives, given that no handle is there twice. -/
theorem lookup_eq_some (hnodup : t.handles.Nodup) {record : Handle} {value : T} :
    t.lookup record = some value ↔ (record, value) ∈ t.records :=
  Lib.find?_pair_eq_some hnodup

/-- The records after a write: the others, and the one written, if it is there. -/
theorem mem_write {record : Handle} {value : T} {r : Handle × T} :
    r ∈ (t.write record value).records ↔
      (r ∈ t.records ∧ r.1 ≠ record) ∨ (r = (record, value) ∧ record ∈ t.handles) := by
  unfold write handles
  rw [List.mem_map]
  constructor
  · rintro ⟨r', hr', rfl⟩
    by_cases heq : r'.1 = record
    · rw [if_pos heq]
      exact Or.inr ⟨rfl, List.mem_map.mpr ⟨r', hr', heq⟩⟩
    · rw [if_neg heq]
      exact Or.inl ⟨hr', heq⟩
  · rintro (⟨hr, hne⟩ | ⟨rfl, hmem⟩)
    · exact ⟨r, hr, if_neg hne⟩
    · obtain ⟨r', hr', heq⟩ := List.mem_map.mp hmem
      exact ⟨r', hr', if_pos heq⟩

/-- A new record is pending, so that nothing changes among the settled ones. -/
theorem settled_create {record : Handle} (hfresh : record ∉ t.handles) (value : T)
    (pending : List Handle) :
    (t.create record value).settled (record :: pending) = t.settled pending := by
  unfold settled Table.create
  rw [List.filter_append]
  -- the new one is left out, and being fresh it hides no other
  have hlast : [(record, value)].filter (fun r => r.1 ∉ record :: pending) = [] := by simp
  rw [hlast, List.append_nil]
  apply List.filter_congr
  intro r hr
  have hne : r.1 ≠ record := fun heq => hfresh (heq ▸ List.mem_map_of_mem hr)
  simp [hne]

/-- A write and the choice of the settled records do not interfere. -/
theorem settled_write (t : Table ι T K) (record : Handle) (value : T) (pending : List Handle) :
    (t.write record value).settled pending =
      (t.settled pending).map fun r => if r.1 = record then (record, value) else r := by
  unfold settled Table.write
  rw [List.filter_map]
  congr 1
  apply List.filter_congr
  intro r _
  show decide ((if r.1 = record then (record, value) else r).1 ∉ pending) = _
  split
  · next heq => rw [heq]
  · rfl

/-- A write to a pending record is not seen among the settled ones. -/
theorem settled_write_pending (t : Table ι T K) {pending : List Handle} {record : Handle}
    (hpending : record ∈ pending) (value : T) :
    (t.write record value).settled pending = t.settled pending := by
  rw [settled_write]
  refine (List.map_congr_left fun r hr => ?_).trans (List.map_id _)
  refine if_neg fun heq => ?_
  exact of_decide_eq_true (List.mem_filter.mp hr).2 (heq ▸ hpending)

/-- A write that keeps a key of a settled record keeps it for all of them. -/
theorem settled_write_keys {Q : Type} {k : T → Q} {record : Handle} {value : T}
    (hold : ∀ r ∈ t.settled pending, r.1 = record → k value = k r.2) (i : Handle) (q : Q) :
    (∃ v, (i, v) ∈ t.settled pending ∧ k v = q) ↔
      ∃ v, (i, v) ∈ (t.write record value).settled pending ∧ k v = q := by
  rw [settled_write]
  constructor
  · -- forward: a record that was not written is there as it was
    rintro ⟨v, hv, rfl⟩
    by_cases heq : i = record
    · exact ⟨value, List.mem_map.mpr ⟨(i, v), hv, by rw [if_pos heq, heq]⟩, hold _ hv heq⟩
    · exact ⟨v, List.mem_map.mpr ⟨(i, v), hv, if_neg heq⟩, rfl⟩
  · rintro ⟨v, hv, rfl⟩
    obtain ⟨r, hr, hreq⟩ := List.mem_map.mp hv
    by_cases heq : r.1 = record
    · rw [if_pos heq] at hreq
      obtain ⟨rfl, rfl⟩ := Prod.mk.inj hreq
      exact ⟨r.2, by rw [← heq]; exact hr, (hold r hr heq).symm⟩
    · rw [if_neg heq] at hreq
      exact ⟨v, hreq ▸ hr, rfl⟩

/-- A created record is pending. -/
theorem Consistent.create (h : t.Consistent pending) {record : Handle}
    (hfresh : record ∉ t.handles) (value : T) :
    (t.create record value).Consistent (record :: pending) := by
  refine ⟨?_, ?_, h.ordered, h.obtained, ?_⟩
  · rw [handles_create]
    exact Lib.nodup_append_singleton h.nodup hfresh
  · intro x hx
    rw [handles_create, List.mem_append]
    rcases List.mem_cons.mp hx with rfl | hx
    · exact Or.inr (List.mem_singleton.mpr rfl)
    · exact Or.inl (h.live x hx)
  · rw [settled_create hfresh]
    exact h.exact

/-- Writing to a pending record touches no index, and neither does a write that keeps the keys. -/
theorem Consistent.write (h : t.Consistent pending) {record : Handle} {value : T}
    (hkeys : record ∈ pending ∨ ∀ old, (record, old) ∈ t.records →
      ∀ i x, t.components i = some x → x.keyer value = x.keyer old) :
    (t.write record value).Consistent pending := by
  refine ⟨?_, ?_, h.ordered, h.obtained, ?_⟩
  · rw [handles_write]; exact h.nodup
  · intro x hx; rw [handles_write]; exact h.live x hx
  · intro i x hx
    refine (h.exact i x hx).congr (List.Perm.of_eq ?_)
    rw [settled_write, List.map_map]
    apply List.map_congr_left
    intro r hr
    obtain ⟨hmem, hset⟩ := List.mem_filter.mp hr
    show (r.1, x.keyer r.2) = ((if r.1 = record then (record, value) else r).1,
      x.keyer (if r.1 = record then (record, value) else r).2)
    by_cases heq : r.1 = record
    · rcases hkeys with hpending | hkeys
      · exact absurd (heq ▸ hpending) (of_decide_eq_true hset)
      · have hkey := hkeys r.2 (by rw [← heq]; exact hmem) i x hx
        rw [if_pos heq, ← hkey, heq]
    · rw [if_neg heq]

/-- A write that keeps the key of a table's one index. -/
theorem Consistent.write_same_key {Q : Type} {t : Table Unit T fun _ => Q}
    (h : t.Consistent pending) {k : T → Q} (hkeyer : t.keyerOf () = some k) {record : Handle}
    {old value : T} (hold : (record, old) ∈ t.records) (hkey : k value = k old) :
    (t.write record value).Consistent pending := by
  obtain ⟨x, hx, rfl⟩ := Option.map_eq_some_iff.mp hkeyer
  refine h.write (Or.inr ?_)
  rintro other hother ⟨⟩ y hy
  obtain rfl : x = y := Option.some.inj (hx.symm.trans hy)
  obtain rfl : old = other :=
    congrArg Prod.snd (List.inj_on_of_nodup_map h.nodup hold hother rfl)
  exact hkey

/-- The settled records once one more is committed. -/
theorem settled_commit (hnodup : t.handles.Nodup) {record : Handle} {value : T}
    (hmem : (record, value) ∈ t.records) (hpending : record ∈ pending) :
    (t.settled pending ++ [(record, value)]).Perm
      (t.settled (pending.filter fun h => h ≠ record)) := by
  have hrecords : t.records.Nodup := List.Nodup.of_map _ hnodup
  -- no record is in either list twice, so that it is enough that they have the same ones
  refine (List.perm_ext_iff_of_nodup ?_ (hrecords.sublist List.filter_sublist)).mpr ?_
  · refine Lib.nodup_append_singleton (hrecords.sublist List.filter_sublist) fun hsettled => ?_
    exact of_decide_eq_true (List.mem_filter.mp hsettled).2 hpending
  · intro r
    simp only [settled, List.mem_append, List.mem_filter, List.mem_singleton, decide_eq_true_eq,
      not_and, not_not]
    constructor
    · rintro (⟨hr, hno⟩ | rfl)
      · exact ⟨hr, fun hin => absurd hin hno⟩
      · exact ⟨hmem, fun _ => rfl⟩
    · rintro ⟨hr, himp⟩
      -- it is pending no more, or was not: only the one committed was
      by_cases hin : r.1 ∈ pending
      · right
        exact List.inj_on_of_nodup_map hnodup hr hmem (himp hin)
      · exact Or.inl ⟨hr, hin⟩

/-- The same, record by record, and for any table with these records. -/
theorem mem_settled_commit {t' : Table ι T K} (hrecords : t'.records = t.records)
    (hnodup : t.handles.Nodup) {record : Handle} {value : T} (hmem : (record, value) ∈ t.records)
    (hpending : record ∈ pending) (r : Handle × T) :
    r ∈ t'.settled (pending.filter fun h => h ≠ record) ↔
      r ∈ t.settled pending ∨ r = (record, value) := by
  have hsame : t'.settled (pending.filter fun h => h ≠ record) =
      t.settled (pending.filter fun h => h ≠ record) := by
    unfold settled
    rw [hrecords]
  rw [hsame, ← (settled_commit hnodup hmem hpending).mem_iff, List.mem_append, List.mem_singleton]

/-- **`commit` of a new record** makes every component exact for it too. -/
theorem Consistent.commitCreation [DecidableEq ι] (h : t.Consistent pending) {record : Handle}
    (hpending : record ∈ pending) :
    ∃ t', t.commitCreation record = some t' ∧ t'.records = t.records ∧
      (∀ i, t'.keyerOf i = t.keyerOf i) ∧
      t'.Consistent (pending.filter fun h => h ≠ record) := by
  obtain ⟨r, hr, hrecord⟩ := List.mem_map.mp (h.live record hpending)
  obtain rfl : r.1 = record := hrecord
  have hlookup : t.lookup r.1 = some r.2 := (lookup_eq_some h.nodup).mpr hr
  refine ⟨{ t with components := forEach (fun _ x => x.created r.1 r.2) t.ordered t.components },
    by rw [Table.commitCreation, hlookup]; rfl, rfl, ?_, ?_⟩
  · -- no index gets another keyer
    intro i
    show (forEach _ _ _ i).map Index.keyer = _
    rw [h.forEach_forward, Option.map_map]
    rfl
  · -- each index takes the record in, which it did not have before
    refine h.of_components rfl (h.forEach_forward _) h.nodup ?_ ?_
    · intro x hx
      exact h.live x (List.mem_of_mem_filter hx)
    · intro i x hx
      have hnew : r.1 ∉ (t.settled pending).map Prod.fst := by
        intro hmem
        obtain ⟨r', hr', heq⟩ := List.mem_map.mp hmem
        exact of_decide_eq_true (List.mem_filter.mp hr').2 (heq ▸ hpending)
      exact (hx.created hnew r.2).congr ((settled_commit h.nodup hr hpending).map _)

/-- **`commit` of a modified record** changes no component. -/
theorem Consistent.commitModification [DecidableEq ι] (h : t.Consistent pending) (record : Handle) :
    t.commitModification record = t := by
  unfold Table.commitModification
  congr
  funext i
  rw [h.forEach_forward]
  cases t.components i <;> rfl

/-- No settled record is there twice. -/
theorem nodup_settled (hnodup : t.handles.Nodup) : ((t.settled pending).map Prod.fst).Nodup :=
  hnodup.sublist (List.filter_sublist.map _)

/-- While the slots of `removed` run, the record is in the table and in no index: it is as if it
    were pending. -/
theorem settled_notifyRemoved [DecidableEq ι] (t : Table ι T K) (record : Handle)
    (pending : List Handle) :
    (t.notifyRemoved record).settled (record :: pending.filter fun h => h ≠ record) =
      (t.settled pending).filter fun r => r.1 ≠ record := by
  unfold settled Table.notifyRemoved
  rw [List.filter_filter]
  apply List.filter_congr
  intro r _
  by_cases heq : r.1 = record <;> simp [heq]

/-- **Notified of a removal**, the components hold what they would if the record were pending. -/
theorem Consistent.notifyRemoved [DecidableEq ι] (h : t.Consistent pending) {record : Handle}
    (hlive : record ∈ t.handles) :
    (t.notifyRemoved record).Consistent (record :: pending.filter fun h => h ≠ record) := by
  refine h.of_components rfl (h.forEach_reversed _) h.nodup ?_ ?_
  · -- it is still live
    intro x hx
    rcases List.mem_cons.mp hx with rfl | hx
    · exact hlive
    · exact h.live x (List.mem_of_mem_filter hx)
  · intro i x hx
    rw [settled_notifyRemoved]
    exact hx.removed (nodup_settled h.nodup) record

/-- The records that are not pending do not include the one erased. -/
theorem settled_erase (t : Table ι T K) (record : Handle) (pending : List Handle) :
    (t.erase record).settled (pending.filter fun h => h ≠ record) =
      t.settled (record :: pending.filter fun h => h ≠ record) := by
  unfold settled Table.erase
  rw [List.filter_filter]
  apply List.filter_congr
  intro r _
  by_cases heq : r.1 = record <;> simp [heq]

/-- Then it goes from the table as well. -/
theorem Consistent.erase {record : Handle}
    (h : t.Consistent (record :: pending.filter fun h => h ≠ record)) :
    (t.erase record).Consistent (pending.filter fun h => h ≠ record) := by
  refine ⟨h.nodup.sublist (List.filter_sublist.map _), ?_, h.ordered, h.obtained, ?_⟩
  · intro x hx
    obtain ⟨r, hr, rfl⟩ := List.mem_map.mp (h.live x (List.mem_cons_of_mem _ hx))
    exact List.mem_map.mpr ⟨r, List.mem_filter.mpr ⟨hr, (List.mem_filter.mp hx).2⟩, rfl⟩
  · rw [settled_erase]
    exact h.exact

/-- **`remove`** takes a record, pending or not, out of the table and of every component. -/
theorem Consistent.remove [DecidableEq ι] (h : t.Consistent pending) {record : Handle}
    (hlive : record ∈ t.handles) :
    (t.remove record).Consistent (pending.filter fun h => h ≠ record) :=
  (h.notifyRemoved hlive).erase

/-- A removal leaves every index its keyer, -/
theorem Consistent.keyerOf_notifyRemoved [DecidableEq ι] (h : t.Consistent pending)
    (record : Handle) (i : ι) : (t.notifyRemoved record).keyerOf i = t.keyerOf i := by
  show (forEach _ _ _ i).map Index.keyer = _
  rw [h.forEach_reversed, Option.map_map]
  congr 1
  funext x
  exact x.keyer_removed record

/-- and so does clearing. -/
theorem Consistent.keyerOf_clear [DecidableEq ι] (h : t.Consistent pending) (i : ι) :
    t.clear.keyerOf i = t.keyerOf i := by
  show (forEach _ _ _ i).map Index.keyer = _
  rw [h.forEach_reversed, Option.map_map]
  rfl

/-- **`clear`** empties the table and every component. -/
theorem Consistent.clear [DecidableEq ι] (h : t.Consistent pending) : t.clear.Consistent [] := by
  refine h.of_components rfl (h.forEach_reversed _) List.nodup_nil nofun ?_
  intro i x hx
  exact hx.cleared

/-- **Obtaining an index** with nothing pending makes one exact for all records. -/
theorem Consistent.component [DecidableEq ι] (h : t.Consistent []) (i : ι) (keyer : T → K i)
    (d : Lib.Discipline (K i)) : (t.component i keyer d).Consistent [] := by
  unfold Table.component
  cases hi : t.components i with
  -- it is there already
  | some x => exact h
  | none =>
    have hnot : i ∉ t.ordered := by
      rw [← h.obtained i, hi]
      nofun
    refine ⟨h.nodup, nofun, ?_, ?_, ?_⟩
    · -- no type is obtained twice
      exact Lib.nodup_append_singleton h.ordered hnot
    · intro j
      show (Function.update t.components i _ j).isSome ↔ j ∈ t.ordered ++ [i]
      rw [List.mem_append, List.mem_singleton]
      by_cases hj : j = i
      · subst hj
        simp
      · rw [Function.update_of_ne hj, h.obtained j]
        simp [hj]
    · -- the new one is exact, having been filled with the records that are there
      intro j x hx
      have hx : Function.update t.components i _ j = some x := hx
      by_cases hj : j = i
      · subst hj
        rw [Function.update_self] at hx
        rw [← Option.some.inj hx, settled_nil]
        exact Index.ofRecords_exact keyer d t.records h.nodup
      · rw [Function.update_of_ne hj] at hx
        exact h.exact j x hx

/-- Obtaining an index changes no record. -/
theorem records_component [DecidableEq ι] (t : Table ι T K) (i : ι) (keyer : T → K i)
    (d : Lib.Discipline (K i)) : (t.component i keyer d).records = t.records := by
  unfold Table.component
  split <;> rfl

/-- An index obtained has the keyer given, unless it was there; the others keep theirs. -/
theorem keyerOf_component [DecidableEq ι] (t : Table ι T K) (i : ι) (keyer : T → K i)
    (d : Lib.Discipline (K i)) (j : ι) :
    (t.component i keyer d).keyerOf j = t.keyerOf j ∨
      ∃ h : i = j, (t.component i keyer d).keyerOf j = some (h ▸ keyer) := by
  unfold Table.component
  cases hi : t.components i with
  | some x => exact Or.inl rfl
  | none =>
    by_cases hij : i = j
    · subst hij
      refine Or.inr ⟨rfl, ?_⟩
      show (Function.update t.components i _ i).map Index.keyer = _
      rw [Function.update_self, Option.map_some, Index.keyer_ofRecords]
    · left
      show (Function.update t.components i _ j).map Index.keyer = _
      rw [Function.update_of_ne (Ne.symm hij)]
      rfl

/-- An index that is there has the same keyer, if every request for it gives the same. -/
theorem keyerOf_component_self [DecidableEq ι] {i : ι} {keyer : T → K i}
    (h : ∀ k, t.keyerOf i = some k → k = keyer) (d : Lib.Discipline (K i)) :
    (t.component i keyer d).keyerOf i = some keyer := by
  unfold Table.component
  cases hi : t.components i with
  | some x =>
    have hk : t.keyerOf i = some x.keyer := by rw [keyerOf, hi]; rfl
    rw [← h _ hk]
    exact hk
  | none =>
    show (Function.update t.components i _ i).map Index.keyer = _
    rw [Function.update_self, Option.map_some, Index.keyer_ofRecords]

/-- **A range of an index, dereferenced,** is the values of the settled records with the key. -/
theorem Consistent.values_equalRange [∀ i, DecidableEq (K i)] (h : t.Consistent pending) {i : ι}
    {x : Index T (K i)} (hx : t.components i = some x) (key : K i) :
    (t.values (x.equalRange key)).Perm
      (((t.settled pending).filter fun r => x.keyer r.2 = key).map Prod.snd) := by
  have hperm := ((h.exact i x hx).equalRange_perm key).filterMap t.lookup
  refine hperm.trans (List.Perm.of_eq ?_)
  rw [List.filterMap_map]
  -- each record is found under its own handle
  have hself : ∀ r ∈ (t.settled pending).filter fun r => x.keyer r.2 = key,
      (t.lookup ∘ Prod.fst) r = (some ∘ Prod.snd) r := by
    intro r hr
    have hmem : r ∈ t.records := List.mem_of_mem_filter (List.mem_of_mem_filter hr)
    exact (lookup_eq_some h.nodup).mpr hmem
  rw [List.filterMap_congr hself, List.filterMap_eq_map]

/-- **The unique index's `operator []`** finds a settled record with the key, or creates one. -/
theorem Consistent.subscript [∀ i, DecidableEq (K i)] (h : t.Consistent pending) {i : ι}
    {x : Index T (K i)} (hx : t.components i = some x) (setKey : T → K i → T) (key : K i)
    {record : Handle} (hfresh : record ∉ t.handles) (value : T) :
    (∃ found v, t.subscript i setKey key record value = some (t, found, false) ∧
      (found, v) ∈ t.settled pending ∧ x.keyer v = key) ∨
    (t.subscript i setKey key record value =
        some (t.create record (setKey value key), record, true) ∧
      (∀ r ∈ t.settled pending, x.keyer r.2 ≠ key) ∧
      (t.create record (setKey value key)).Consistent (record :: pending)) := by
  unfold Table.subscript
  rw [hx, Option.map_some]
  cases hfind : x.find key with
  | some found =>
    obtain ⟨v, hv, hkey⟩ := (h.exact i x hx).find_eq_some hfind
    exact Or.inl ⟨found, v, rfl, hv, hkey⟩
  -- nothing with the key is settled; the new record is pending
  | none => exact Or.inr ⟨rfl, (h.exact i x hx).find_eq_none.mp hfind, h.create hfresh _⟩

end

end Table

/-- Where a table's next record goes, and what its constructor makes of it. -/
structure Maker (T : Type) where
  /-- depends on the addresses in use -/
  pick : List Handle → Handle
  /-- no two live records share one -/
  fresh : ∀ used, pick used ∉ used
  /-- may depend on the table too, as `auto_increment_constructor` does on a counter -/
  construct : List Handle → T

/-- An allocator whose addresses only grow. -/
def Maker.ascending (construct : List Handle → T) : Maker T where
  pick used := used.foldr max 0 + 1
  fresh := by
    intro used hmem
    have hle : ∀ l : List Handle, ∀ h ∈ l, h ≤ l.foldr max 0 := by
      intro l
      induction l with
      | nil => exact nofun
      | cons x l ih =>
        intro h hh
        rcases List.mem_cons.mp hh with rfl | hh
        · exact Nat.le_max_left _ _
        · exact Nat.le_trans (ih h hh) (Nat.le_max_right _ _)
    exact Nat.not_succ_le_self _ (hle used _ hmem)
  construct := construct

/-- Calls a slot, if it is connected. -/
def emit {X : Type} (slot : X → Option X) : Option X → Option (Option X)
  | none => some none
  | some x => (slot x).map some

/-- What a slot establishes, if it is connected. -/
theorem emit_establishes {X : Type} {slot : X → Option X} {P : X → Prop} {x : Option X}
    (h : ∀ a, x = some a → ∃ b, slot a = some b ∧ P b) :
    ∃ y, emit slot x = some y ∧ ∀ b, y = some b → P b := by
  cases x with
  | none => exact ⟨none, rfl, nofun⟩
  | some a =>
    obtain ⟨b, hb, hP⟩ := h a rfl
    refine ⟨some b, by rw [emit, hb]; rfl, ?_⟩
    rintro _ ⟨⟩
    exact hP

/-- A slot stays connected, or not. -/
theorem emit_isSome {X : Type} {slot : X → Option X} {x y : Option X} (h : emit slot x = some y) :
    x.isSome = y.isSome := by
  cases x with
  | none =>
    obtain rfl : none = y := Option.some.inj h
    rfl
  | some a =>
    obtain ⟨b, _, rfl⟩ := Option.map_eq_some_iff.mp h
    rfl

/-! ## Sessions -/

/-- A table in use, and the records created in it and not committed yet. -/
structure Session (ι T : Type) (K : ι → Type) where
  table : Table ι T K
  /-- those whose `_new` is set in their `transacted_record` -/
  pending : List Handle

/-- What a user of the table can do. -/
inductive Operation (ι T : Type) (K : ι → Type) where
  /-- the record is pending until it is committed -/
  | create (record : Handle) (value : T)
  /-- through a `transacted_record` of it -/
  | write (record : Handle) (value : T)
  /-- `transacted_record::commit` -/
  | commit (record : Handle)
  | remove (record : Handle)
  | clear
  /-- `unique_index`, `multi_index` or `ordered_index_`. -/
  | index (i : ι) (keyer : T → K i) (d : Lib.Discipline (K i))
  /-- of the unique index of type `i` -/
  | subscript (i : ι) (setKey : T → K i → T) (key : K i) (record : Handle) (value : T)

/-- The operation neither changes, settles nor removes a record: nobody is told of it. -/
def Operation.Quiet : Operation ι T K → Prop
  | .create _ _ | .index _ _ _ | .subscript _ _ _ _ _ => True
  | _ => False

/-- The operation obtains no index of type `u`. -/
def Operation.Spares (u : ι) : Operation ι T K → Prop
  | .index i _ _ => i ≠ u
  | _ => True

instance [DecidableEq ι] (u : ι) (op : Operation ι T K) : Decidable (op.Spares u) := by
  cases op <;> unfold Operation.Spares <;> infer_instance

namespace Session

variable [DecidableEq ι] [∀ i, DecidableEq (K i)]

/-- A table nobody has used yet. -/
def new : Session ι T K := ⟨.empty, []⟩

/-- The allocator hands out free addresses, records used are live, a committed record keeps the
    keys it is indexed by, and an index is obtained only with nothing pending. -/
def Allowed (s : Session ι T K) : Operation ι T K → Prop
  | .create record _ => record ∉ s.table.handles
  -- a settled record is in the indexes: they are told nothing of a changed key
  | .write record value => record ∈ s.table.handles ∧ (record ∈ s.pending ∨
      ∀ old ∈ s.table.lookup record, ∀ i ∈ s.table.ordered, ∀ x ∈ s.table.components i,
        x.keyer value = x.keyer old)
  | .commit record => record ∈ s.table.handles
  | .remove record => record ∈ s.table.handles
  | .clear => True
  | .index _ _ _ => s.pending = []
  | .subscript i _ _ record _ => (s.table.components i).isSome ∧ record ∉ s.table.handles

instance (s : Session ι T K) (op : Operation ι T K) : Decidable (s.Allowed op) := by
  cases op <;> unfold Allowed <;> infer_instance

/-- What the operation does.  `commit` is the `transacted_record`'s: its `_new` flag is set exactly
    for the pending records. -/
def perform (s : Session ι T K) : Operation ι T K → Option (Session ι T K)
  | .create record value => some ⟨s.table.create record value, record :: s.pending⟩
  | .write record value => some { s with table := s.table.write record value }
  | .commit record =>
      if record ∈ s.pending then
        (s.table.commitCreation record).map fun t => ⟨t, s.pending.filter fun h => h ≠ record⟩
      else
        some { s with table := s.table.commitModification record }
  | .remove record => some ⟨s.table.remove record, s.pending.filter fun h => h ≠ record⟩
  | .clear => some ⟨s.table.clear, []⟩
  | .index i keyer d => some { s with table := s.table.component i keyer d }
  | .subscript i setKey key record value =>
      (s.table.subscript i setKey key record value).map fun r =>
        ⟨r.1, if r.2.2 then r.2.1 :: s.pending else s.pending⟩

/-- An operation that is not allowed is no step. -/
def step (s : Session ι T K) (op : Operation ι T K) : Option (Session ι T K) :=
  if s.Allowed op then s.perform op else none

section Commit

variable {t : Table ι T K} {pending : List Handle} (h : t.Consistent pending) {record : Handle}

include h

/-- **`commit` of a pending record** settles it. -/
theorem perform_commit_pending (hpending : record ∈ pending) :
    ∃ t', perform ⟨t, pending⟩ (.commit record) =
        some ⟨t', pending.filter fun h => h ≠ record⟩ ∧
      t'.records = t.records ∧ (∀ i, t'.keyerOf i = t.keyerOf i) ∧
      t'.Consistent (pending.filter fun h => h ≠ record) := by
  obtain ⟨t', ht', hrest⟩ := h.commitCreation hpending
  refine ⟨t', ?_, hrest⟩
  show (if record ∈ pending then _ else _) = _
  rw [if_pos hpending, ht']
  rfl

/-- **`commit` of a settled one** changes nothing. -/
theorem perform_commit_settled (hsettled : record ∉ pending) :
    perform ⟨t, pending⟩ (.commit record) = some ⟨t, pending⟩ := by
  show (if record ∈ pending then _ else _) = _
  rw [if_neg hsettled, h.commitModification]

end Commit

/-- **One operation** returns and keeps the table consistent. -/
theorem perform_consistent {s : Session ι T K} (h : s.table.Consistent s.pending)
    {op : Operation ι T K} (hop : s.Allowed op) :
    ∃ s', s.perform op = some s' ∧ s'.table.Consistent s'.pending := by
  obtain ⟨t, pending⟩ := s
  cases op with
  | create record value => exact ⟨_, rfl, h.create hop value⟩
  | write record value =>
    refine ⟨_, rfl, h.write (hop.2.imp_right fun hkeys old hold i x hx => ?_)⟩
    -- an index that is there was obtained, so the condition is on it
    have hi : i ∈ t.ordered := (h.obtained i).mp (by rw [show t.components i = some x from hx]; rfl)
    exact hkeys old ((Table.lookup_eq_some h.nodup).mpr hold) i hi x hx
  | commit record =>
    by_cases hpending : record ∈ pending
    · obtain ⟨t', ht', _, _, hcon⟩ := perform_commit_pending h hpending
      exact ⟨_, ht', hcon⟩
    · exact ⟨_, perform_commit_settled h hpending, h⟩
  | remove record => exact ⟨_, rfl, h.remove hop⟩
  | clear => exact ⟨_, rfl, h.clear⟩
  | index i keyer d =>
    obtain rfl : pending = [] := hop
    exact ⟨_, rfl, h.component i keyer d⟩
  | subscript i setKey key record value =>
    obtain ⟨hsome, hfresh⟩ := hop
    obtain ⟨x, hx⟩ := Option.isSome_iff_exists.mp hsome
    -- found, or created
    rcases h.subscript hx setKey key hfresh value with ⟨found, v, heq, _, _⟩ | ⟨heq, _, hcon⟩
    · exact ⟨⟨t, pending⟩, by simp only [perform, heq]; rfl, h⟩
    · exact ⟨_, by simp only [perform, heq]; rfl, hcon⟩

/-- The step lemma: what the induction over runs needs. -/
theorem step_consistent (s : Session ι T K) (op : Operation ι T K) (s' : Session ι T K)
    (h : s.table.Consistent s.pending) (hstep : s.step op = some s') :
    s'.table.Consistent s'.pending :=
  Lib.of_allowed (P := fun s => s.table.Consistent s.pending) (fun hop => perform_consistent h hop)
    hstep

/-- **Quiet operations** leave the settled records, and any index but the one they obtain. -/
theorem perform_quiet {s : Session ι T K} (h : s.table.Consistent s.pending)
    {op : Operation ι T K} (hop : s.Allowed op) (hquiet : op.Quiet) {u : ι} (hu : op.Spares u) :
    ∃ s', s.perform op = some s' ∧ s'.table.Consistent s'.pending ∧
      s'.table.keyerOf u = s.table.keyerOf u ∧
      s'.table.settled s'.pending = s.table.settled s.pending := by
  obtain ⟨t, pending⟩ := s
  cases op with
  | create record value =>
    exact ⟨_, rfl, h.create hop value, rfl, Table.settled_create hop value _⟩
  | index i keyer d =>
    obtain rfl : pending = [] := hop
    refine ⟨_, rfl, h.component i keyer d, ?_, ?_⟩
    · rcases t.keyerOf_component i keyer d u with hsame | ⟨heq, _⟩
      · exact hsame
      · exact absurd heq hu
    · rw [Table.settled_nil, Table.settled_nil]
      exact t.records_component i keyer d
  | subscript i setKey key record value =>
    obtain ⟨hsome, hfresh⟩ := hop
    obtain ⟨x, hx⟩ := Option.isSome_iff_exists.mp hsome
    rcases h.subscript hx setKey key hfresh value with ⟨found, v, heq, _, _⟩ | ⟨heq, _, hcon⟩
    · exact ⟨⟨t, pending⟩, by simp only [perform, heq]; rfl, h, rfl, rfl⟩
    · refine ⟨⟨t.create record (setKey value key), record :: pending⟩,
        by simp only [perform, heq]; rfl, hcon, rfl, ?_⟩
      exact Table.settled_create hfresh _ _
  | write => cases hquiet
  | commit => cases hquiet
  | remove => cases hquiet
  | clear => cases hquiet

omit [DecidableEq ι] [∀ i, DecidableEq (K i)] in
/-- **A write** to a settled record keeps its key. -/
theorem key_of_write {s : Session ι T K} (h : s.table.Consistent s.pending) {record : Handle}
    {value : T} (hop : s.Allowed (.write record value)) (hsettled : record ∉ s.pending) {u : ι}
    {k : T → K u} (hu : s.table.keyerOf u = some k) {old : T}
    (hold : (record, old) ∈ s.table.records) : k value = k old := by
  obtain ⟨x, hx, rfl⟩ := Option.map_eq_some_iff.mp hu
  have hobtained : u ∈ s.table.ordered := (h.obtained u).mp (by rw [hx]; rfl)
  exact hop.2.resolve_left hsettled old ((Table.lookup_eq_some h.nodup).mpr hold) u hobtained x hx

omit [DecidableEq ι] [∀ i, DecidableEq (K i)] in
/-- ... so that the settled records have the keys they had. -/
theorem keys_of_write {s : Session ι T K} (h : s.table.Consistent s.pending) {record : Handle}
    {value : T} (hop : s.Allowed (.write record value)) {u : ι} {k : T → K u}
    (hu : s.table.keyerOf u = some k) (i : Handle) (q : K u) :
    (∃ v, (i, v) ∈ s.table.settled s.pending ∧ k v = q) ↔
      ∃ v, (i, v) ∈ (s.table.write record value).settled s.pending ∧ k v = q := by
  by_cases hpending : record ∈ s.pending
  · rw [Table.settled_write_pending _ hpending]
  · refine Table.settled_write_keys (fun r hr heq => ?_) i q
    subst heq
    exact key_of_write h hop hpending hu (List.mem_of_mem_filter hr)

/-- The run lemma: the invariant holds of every state reached. -/
theorem run_consistent {ops : List (Operation ι T K)} {s : Session ι T K}
    (h : Lib.run step new ops = some s) : s.table.Consistent s.pending :=
  Lib.run_invariant step_consistent ops new s Table.empty_consistent h

/-- **sdb indexes are exact.**  After any sequence of operations, with indexes obtained at any
    points where nothing is pending, the next operation returns; and whenever nothing is pending
    every index holds each record of the table exactly once, under its key, and nothing else, so
    that each of its queries agrees with a linear scan of the table. -/
theorem indexes_exact (ops : List (Operation ι T K)) (s : Session ι T K)
    (h : Lib.run step new ops = some s) :
    (∀ op, s.Allowed op → ∃ s', s.perform op = some s') ∧ s.table.handles.Nodup ∧
    (s.pending = [] → ∀ i (x : Index T (K i)), s.table.components i = some x →
      (x.map.nodes.map fun n => (n.value, n.key)).Perm
        (s.table.records.map fun r => (r.1, x.keyer r.2)) ∧
      (∀ key, (x.equalRange key).Perm
        ((s.table.records.filter fun r => x.keyer r.2 = key).map Prod.fst)) ∧
      (∀ key, (x.find key = none ↔ ∀ r ∈ s.table.records, x.keyer r.2 ≠ key) ∧
        ∀ record, x.find key = some record → ∃ v, (record, v) ∈ s.table.records ∧ x.keyer v = key) ∧
      (∀ key, (x.subscript key = .error "key not found" ↔
          ∀ r ∈ s.table.records, x.keyer r.2 ≠ key) ∧
        ∀ record, x.subscript key = .ok record →
          ∃ v, (record, v) ∈ s.table.records ∧ x.keyer v = key) ∧
      (∀ order, x.discipline = .ordered order →
        x.traverse.Perm s.table.handles ∧
        x.traverse.Pairwise fun a b => ∀ va vb, (a, va) ∈ s.table.records →
          (b, vb) ∈ s.table.records → order.less (x.keyer vb) (x.keyer va) = false) ∧
      ∀ setKey key record value, record ∉ s.table.handles →
        (∃ found v, s.table.subscript i setKey key record value = some (s.table, found, false) ∧
          (found, v) ∈ s.table.records ∧ x.keyer v = key) ∨
        (s.table.subscript i setKey key record value =
            some (s.table.create record (setKey value key), record, true) ∧
          ∀ r ∈ s.table.records, x.keyer r.2 ≠ key)) := by
  have hcon := run_consistent h
  refine ⟨?_, hcon.nodup, ?_⟩
  · -- the next operation returns
    intro op hop
    obtain ⟨s', hs', _⟩ := perform_consistent hcon hop
    exact ⟨s', hs'⟩
  · -- with nothing pending an exact index is one of all records; each clause is a query of it
    intro hpending i x hx
    rw [hpending] at hcon
    have hexact := hcon.exact i x hx
    rw [Table.settled_nil] at hexact
    refine ⟨hexact.entries, hexact.equalRange_perm, ?_, ?_, ?_, ?_⟩
    · exact fun key => ⟨hexact.find_eq_none, fun record => hexact.find_eq_some⟩
    · intro key
      rw [← hexact.find_eq_none]
      unfold Index.subscript
      cases hfind : x.find key with
      | none => exact ⟨⟨fun _ => rfl, fun _ => rfl⟩, nofun⟩
      | some found =>
        refine ⟨⟨nofun, nofun⟩, ?_⟩
        intro record hrecord
        obtain rfl : found = record := Except.ok.inj hrecord
        exact hexact.find_eq_some hfind
    · exact fun order horder => ⟨hexact.traverse_perm, hexact.traverse_sorted hcon.nodup horder⟩
    · intro setKey key record value hfresh
      have hsub := hcon.subscript hx setKey key hfresh value
      rw [Table.settled_nil] at hsub
      rcases hsub with hfound | ⟨heq, hnone, _⟩
      · exact Or.inl hfound
      · exact Or.inr ⟨heq, hnone⟩

/-- The order of the natural numbers. -/
def natOrder : Lib.KeyOrder Nat where
  less a b := decide (a < b)
  asymm := by simp only [decide_eq_true_eq, decide_eq_false_iff_not]; omega
  trans := by simp only [decide_eq_true_eq]; omega

/-- A hashed index obtained before, an ordered one between two records; a lookup that creates a
    record; a removal. -/
def twoIndexes : List (Operation Bool (Nat × Nat) fun _ => Nat) :=
  [.index true Prod.fst .hashed, .create 10 (1, 5), .commit 10,
    .index false Prod.snd (.ordered natOrder), .subscript true (fun v k => (k, v.2)) 2 20 (0, 3),
    .commit 20, .create 30 (3, 4), .commit 30, .remove 10]

theorem indexes_exact_two :
    ∃ s x, Lib.run step new twoIndexes = some s ∧ s.pending = [] ∧
      s.table.components false = some x ∧ x.traverse = [20, 30] ∧
      x.traverse.Perm s.table.handles :=
  ⟨_, _, rfl, rfl, rfl, rfl,
    (((indexes_exact twoIndexes _ rfl).2.2 rfl false _ rfl).2.2.2.2.1 natOrder rfl).1⟩

end Session

end MicroProfiler.Sdb
