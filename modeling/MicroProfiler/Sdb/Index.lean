/-
  `sdb/index.h`: an index over the records of a table.

  An index is a multimap from keys to record handles, plus a removal index that remembers each
  record's node, so that `removed` need not know the key.  Both are fed by callbacks only.

  1. **The code** — `Index` with `created`, `removed`, `cleared`, the constructor `ofRecords`, and the
     queries of the three kinds of index (`find` and `equal_range` of the hashed ones, the
     traversal of the ordered one).  A record handle is the address of the record's list node; the
     allocator may hand a freed one out again.  `_removal_index.insert` does nothing when the
     record is already there, as in the source.

  2. **Exactness** (`Exact`) — the index holds each of the given records once, under its key, and
     nothing else, and the removal index agrees.  Each callback's lemma says which records the
     index is exact for afterwards.

  3. **Queries** — those of an exact index are a linear scan (`equalRange_perm`,
     `find_eq_some`, `find_eq_none`, `traverse_perm`, `traverse_sorted`).
-/
import MicroProfiler.Lib.Multimap
import Mathlib.Data.List.Induction

namespace MicroProfiler.Sdb

/-- The address of a record. -/
abbrev Handle := Nat

variable {T K : Type}

/-- `index_base`: the keyer, the container and the removal index. -/
structure Index (T K : Type) where
  keyer : T → K
  discipline : Lib.Discipline K
  map : Lib.Multimap K Handle
  /-- by record, the iterator into the container -/
  removal : List (Handle × Nat)

namespace Index

/-- An index over no records. -/
def empty (keyer : T → K) (d : Lib.Discipline K) : Index T K := ⟨keyer, d, .empty, []⟩

/-- `index_base::created`. -/
def created (x : Index T K) (record : Handle) (value : T) : Index T K :=
  { x with
    map := x.map.insert x.discipline (x.keyer value) record
    removal :=
      -- the container gets a node all the same
      if (x.removal.find? fun e => e.1 = record).isSome then x.removal
      else (record, x.map.nextId) :: x.removal }

/-- `index_base::removed`. -/
def removed (x : Index T K) (record : Handle) : Index T K :=
  match x.removal.find? fun e => e.1 = record with
  -- a record the index never heard of
  | none => x
  | some i =>
      { x with
        map := x.map.erase i.2
        removal := x.removal.filter fun e => e.1 ≠ record }

/-- `index_base::cleared`. -/
def cleared (x : Index T K) : Index T K := { x with map := .empty, removal := [] }

/-- The constructor: feeds the records that are in the table. -/
def ofRecords (keyer : T → K) (d : Lib.Discipline K) (records : List (Handle × T)) : Index T K :=
  records.foldl (fun x r => x.created r.1 r.2) (empty keyer d)

/-- `immutable_index::equal_range`: the handles, in the container's order. -/
def equalRange [DecidableEq K] (x : Index T K) (key : K) : List Handle :=
  (x.map.equalRange key).map Lib.Node.value

/-- `immutable_unique_index::find`. -/
def find [DecidableEq K] (x : Index T K) (key : K) : Option Handle := (x.equalRange key).head?

/-- The const `immutable_unique_index::operator []`, which throws. -/
def subscript [DecidableEq K] (x : Index T K) (key : K) : Except String Handle :=
  match x.find key with
  | some r => .ok r
  | none => .error "key not found"

/-- `ordered_index::begin` to `end`. -/
def traverse (x : Index T K) : List Handle := x.map.nodes.map Lib.Node.value

/-! ## Exactness -/

/-- The index holds each of `records` once under its key, and nothing else. -/
structure Exact (x : Index T K) (records : List (Handle × T)) : Prop where
  /-- record and key of every node -/
  entries : (x.map.nodes.map fun n => (n.value, n.key)).Perm
    (records.map fun r => (r.1, x.keyer r.2))
  /-- record and iterator of every node -/
  removal : x.removal.Perm (x.map.nodes.map fun n => (n.value, n.id))
  /-- of the ordered container -/
  sorted : ∀ order, x.discipline = .ordered order → x.map.Sorted order

/-- The container has the records' handles, -/
theorem Exact.handles {x : Index T K} {records : List (Handle × T)} (h : Exact x records) :
    (x.map.nodes.map Lib.Node.value).Perm (records.map Prod.fst) := by
  have := h.entries.map Prod.fst
  rwa [List.map_map, List.map_map] at this

/-- and so has the removal index. -/
theorem Exact.removalHandles {x : Index T K} {records : List (Handle × T)} (h : Exact x records) :
    (x.removal.map Prod.fst).Perm (records.map Prod.fst) := by
  have := h.removal.map Prod.fst
  rw [List.map_map] at this
  exact this.trans h.handles

/-- Exactness does not depend on the order of the records. -/
theorem Exact.congr {x : Index T K} {records records' : List (Handle × T)} (h : Exact x records)
    (hperm : (records.map fun r => (r.1, x.keyer r.2)).Perm
      (records'.map fun r => (r.1, x.keyer r.2))) : Exact x records' :=
  ⟨h.entries.trans hperm, h.removal, h.sorted⟩

/-- Nothing is in it, for no records. -/
theorem exact_empty (keyer : T → K) (d : Lib.Discipline K) : Exact (empty keyer d) [] :=
  ⟨List.Perm.refl _, List.Perm.refl _, fun order _ => Lib.Multimap.sorted_empty order⟩

/-- No callback changes the keyer. -/
@[simp] theorem keyer_removed (x : Index T K) (record : Handle) :
    (x.removed record).keyer = x.keyer := by
  unfold removed
  split <;> rfl

/-- **`created`** adds a record the index did not have. -/
theorem Exact.created {x : Index T K} {records : List (Handle × T)} (h : Exact x records)
    {record : Handle} (hnew : record ∉ records.map Prod.fst) (value : T) :
    Exact (x.created record value) (records ++ [(record, value)]) := by
  have hinsert := x.map.nodes_insert_perm x.discipline (x.keyer value) record
  -- the removal index has no entry of a new record
  have hfind : (x.removal.find? fun e => e.1 = record).isSome = false := by
    rw [Option.isSome_eq_false_iff, Option.isNone_iff_eq_none, List.find?_eq_none]
    intro e he heq
    rw [decide_eq_true_eq] at heq
    exact hnew (h.removalHandles.mem_iff.mp (List.mem_map.mpr ⟨e, he, heq⟩))
  have hremoval : (x.created record value).removal = (record, x.map.nextId) :: x.removal := by
    show (if _ then _ else _) = _
    rw [hfind]
    rfl
  constructor
  · -- one node more in the container, one entry more in the removal index, and the order kept
    have hadded : ((x.created record value).map.nodes.map fun n => (n.value, n.key)).Perm
        ((record, x.keyer value) :: records.map fun r => (r.1, x.keyer r.2)) :=
      (hinsert.map fun n : Lib.Node K Handle => (n.value, n.key)).trans (h.entries.cons _)
    rw [List.map_append]
    exact hadded.trans (List.perm_append_singleton _ _).symm
  · rw [hremoval]
    exact (h.removal.cons _).trans (hinsert.map fun n : Lib.Node K Handle => (n.value, n.id)).symm
  · intro order horder
    have hsorted := (h.sorted order horder).insert (x.keyer value) record
    show (x.map.insert x.discipline _ _).Sorted order
    rwa [show x.discipline = .ordered order from horder]

/-- **`removed`** takes the record out if the index has it, and does nothing otherwise. -/
theorem Exact.removed {x : Index T K} {records : List (Handle × T)} (h : Exact x records)
    (hnodup : (records.map Prod.fst).Nodup) (record : Handle) :
    Exact (x.removed record) (records.filter fun r => r.1 ≠ record) := by
  unfold Index.removed
  cases hfind : x.removal.find? fun e => e.1 = record with
  | none =>
    -- not in the removal index, hence in none of the records
    have habsent : ∀ r ∈ records, r.1 ≠ record := by
      intro r hr heq
      obtain ⟨e, he, heq'⟩ := List.mem_map.mp
        (h.removalHandles.mem_iff.mpr (List.mem_map.mpr ⟨r, hr, heq⟩))
      exact List.find?_eq_none.mp hfind e he (decide_eq_true heq')
    rw [List.filter_eq_self.mpr fun r hr => decide_eq_true (habsent r hr)]
    exact h
  | some i =>
    obtain rfl : i.1 = record := by simpa using List.find?_some hfind
    obtain ⟨n, hn, hi⟩ := List.mem_map.mp (h.removal.mem_iff.mp (List.mem_of_find?_eq_some hfind))
    obtain ⟨hvalue, hid⟩ : n.value = i.1 ∧ n.id = i.2 := by rw [← hi]; exact ⟨rfl, rfl⟩
    have hvalues : (x.map.nodes.map Lib.Node.value).Nodup := h.handles.nodup_iff.mpr hnodup
    -- the iterator found is that of the record's only node
    have hnodes : (x.map.erase i.2).nodes = x.map.nodes.filter fun m => m.value ≠ i.1 := by
      rw [← hid, ← hvalue]
      exact x.map.nodes_erase_of_mem hvalues hn
    constructor
    · have hperm := h.entries.filter fun e => e.1 ≠ i.1
      rw [List.filter_map, List.filter_map] at hperm
      show ((x.map.erase i.2).nodes.map _).Perm _
      rw [hnodes]
      exact hperm
    · have hperm := h.removal.filter fun e => e.1 ≠ i.1
      rw [List.filter_map] at hperm
      show (x.removal.filter _).Perm ((x.map.erase i.2).nodes.map _)
      rw [hnodes]
      exact hperm
    · intro order horder
      exact (h.sorted order horder).erase i.2

/-- **`cleared`** leaves nothing. -/
theorem Exact.cleared {x : Index T K} {records : List (Handle × T)} (_ : Exact x records) :
    Exact x.cleared [] :=
  ⟨List.Perm.refl _, List.Perm.refl _, fun order _ => Lib.Multimap.sorted_empty order⟩

/-- One record more is one `created` more, -/
theorem ofRecords_append (keyer : T → K) (d : Lib.Discipline K) (records : List (Handle × T))
    (r : Handle × T) :
    ofRecords keyer d (records ++ [r]) = (ofRecords keyer d records).created r.1 r.2 := by
  unfold ofRecords
  rw [List.foldl_append]
  rfl

/-- with the keyer given. -/
@[simp] theorem keyer_ofRecords (keyer : T → K) (d : Lib.Discipline K) (records : List (Handle × T)) :
    (ofRecords keyer d records).keyer = keyer := by
  induction records using List.reverseRecOn with
  | nil => rfl
  | append_singleton records r ih => rw [ofRecords_append]; exact ih

/-- **The constructor** builds an index exact for the records present. -/
theorem ofRecords_exact (keyer : T → K) (d : Lib.Discipline K) (records : List (Handle × T))
    (hnodup : (records.map Prod.fst).Nodup) : Exact (ofRecords keyer d records) records := by
  induction records using List.reverseRecOn with
  | nil => exact exact_empty keyer d
  | append_singleton records r ih =>
    rw [List.map_append, List.nodup_append] at hnodup
    obtain ⟨hinit, -, hdisjoint⟩ := hnodup
    rw [ofRecords_append]
    refine (ih hinit).created ?_ r.2
    intro hmem
    exact hdisjoint _ hmem _ (List.mem_singleton.mpr rfl) rfl

/-! ## The queries of an exact index -/

/-- **`equal_range`** is the scan for the key. -/
theorem Exact.equalRange_perm [DecidableEq K] {x : Index T K} {records : List (Handle × T)}
    (h : Exact x records) (key : K) :
    (x.equalRange key).Perm ((records.filter fun r => x.keyer r.2 = key).map Prod.fst) := by
  have hperm := (h.entries.filter fun e => e.2 = key).map Prod.fst
  rw [List.filter_map, List.filter_map, List.map_map, List.map_map] at hperm
  exact hperm

/-- What is in a range, record by record. -/
theorem Exact.mem_equalRange [DecidableEq K] {x : Index T K} {records : List (Handle × T)}
    (h : Exact x records) {key : K} {record : Handle} :
    record ∈ x.equalRange key ↔ ∃ v, (record, v) ∈ records ∧ x.keyer v = key := by
  rw [(h.equalRange_perm key).mem_iff, List.mem_map]
  constructor
  · rintro ⟨⟨r, v⟩, hr, rfl⟩
    obtain ⟨hmem, hkey⟩ := List.mem_filter.mp hr
    exact ⟨v, hmem, of_decide_eq_true hkey⟩
  · rintro ⟨v, hmem, hkey⟩
    exact ⟨(record, v), List.mem_filter.mpr ⟨hmem, decide_eq_true hkey⟩, rfl⟩

/-- No record is twice in a range. -/
theorem Exact.nodup_equalRange [DecidableEq K] {x : Index T K} {records : List (Handle × T)}
    (h : Exact x records) (hnodup : (records.map Prod.fst).Nodup) (key : K) :
    (x.equalRange key).Nodup :=
  (h.equalRange_perm key).nodup_iff.mpr (hnodup.sublist (List.filter_sublist.map _))

/-- **`find`** gives a record with the key, if there is one. -/
theorem Exact.find_eq_some [DecidableEq K] {x : Index T K} {records : List (Handle × T)}
    (h : Exact x records) {key : K} {record : Handle} (hfind : x.find key = some record) :
    ∃ v, (record, v) ∈ records ∧ x.keyer v = key :=
  h.mem_equalRange.mp (List.mem_of_mem_head? hfind)

/-- It gives none if there is none. -/
theorem Exact.find_eq_none [DecidableEq K] {x : Index T K} {records : List (Handle × T)}
    (h : Exact x records) {key : K} :
    x.find key = none ↔ ∀ r ∈ records, x.keyer r.2 ≠ key := by
  rw [find, List.head?_eq_none_iff, List.eq_nil_iff_forall_not_mem]
  constructor
  · intro hnone r hr hkey
    exact hnone r.1 (h.mem_equalRange.mpr ⟨r.2, hr, hkey⟩)
  · intro hnone record hmem
    obtain ⟨v, hv, hkey⟩ := h.mem_equalRange.mp hmem
    exact hnone _ hv hkey

/-- A node's key is the key of its record. -/
theorem Exact.key_eq {x : Index T K} {records : List (Handle × T)} (h : Exact x records)
    (hnodup : (records.map Prod.fst).Nodup) {n : Lib.Node K Handle} (hn : n ∈ x.map.nodes) {v : T}
    (hv : (n.value, v) ∈ records) : n.key = x.keyer v := by
  obtain ⟨r, hr, heq⟩ := List.mem_map.mp (h.entries.mem_iff.mp (List.mem_map.mpr ⟨n, hn, rfl⟩))
  obtain ⟨hhandle, hkey⟩ : r.1 = n.value ∧ x.keyer r.2 = n.key := by simpa using heq
  obtain rfl : r = (n.value, v) := List.inj_on_of_nodup_map hnodup hr hv hhandle
  exact hkey.symm

/-- **The traversal** of an ordered index visits every record once, ... -/
theorem Exact.traverse_perm {x : Index T K} {records : List (Handle × T)} (h : Exact x records) :
    x.traverse.Perm (records.map Prod.fst) := h.handles

/-- ... in the order of the keys. -/
theorem Exact.traverse_sorted {x : Index T K} {records : List (Handle × T)} (h : Exact x records)
    (hnodup : (records.map Prod.fst).Nodup) {order : Lib.KeyOrder K}
    (horder : x.discipline = .ordered order) :
    x.traverse.Pairwise fun a b => ∀ va vb, (a, va) ∈ records → (b, vb) ∈ records →
      order.less (x.keyer vb) (x.keyer va) = false := by
  unfold traverse
  rw [List.pairwise_map]
  refine List.Pairwise.imp_of_mem ?_ (h.sorted order horder)
  intro m n hm hn hless va vb hva hvb
  -- the keys the nodes hold are those of the records
  rw [← h.key_eq hnodup hm hva, ← h.key_eq hnodup hn hvb]
  exact hless

end Index

end MicroProfiler.Sdb
