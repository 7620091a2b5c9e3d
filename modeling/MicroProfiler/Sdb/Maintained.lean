/-
  A grouped table in steady use: `group_by` was called, nothing is pending, and every index has been
  obtained.

  `Grouped.perform` says what one operation does; here is, for each of the ways its users change a
  table (`insert`, `touch`, `assign`, `drop`, `clear`), that it returns, what it does to the
  records, and which records it leaves written to and not committed.  `Maintained.exact` reads the
  aggregates off.
-/
import MicroProfiler.Sdb.GroupBy

namespace MicroProfiler.Sdb

variable {ι T A : Type} {K : ι → Type}

namespace Grouped

variable [DecidableEq ι] [∀ i, DecidableEq (K i)] {u : ι} (g : Grouping T A (K u))

/-- The records of the table that is grouped. -/
def records (s : Grouped T A K u) : List (Handle × T) := s.session.table.records

def handles (s : Grouped T A K u) : List Handle := s.session.table.handles

/-- `create`, an assignment, `commit`. -/
def insert (m : Maker A) (record : Handle) (value : T) (s : Grouped T A K u) :
    Option (Grouped T A K u) :=
  (s.perform g (.on (.create record value) m)).bind fun s => s.perform g (.on (.commit record) m)

/-- `modify(record).commit()`.  No value is assigned, but what was written before is committed with
    it. -/
def touch (m : Maker A) (s : Grouped T A K u) (record : Handle) : Option (Grouped T A K u) :=
  s.perform g (.on (.commit record) m)

/-- An assignment in place.  It shows in the aggregates only after a commit: until then the record
    is in `dirty`. -/
def assign (m : Maker A) (record : Handle) (value : T) (s : Grouped T A K u) :
    Option (Grouped T A K u) :=
  s.perform g (.on (.write record value) m)

/-- `modify(record).remove()`. -/
def drop (m : Maker A) (s : Grouped T A K u) (record : Handle) : Option (Grouped T A K u) :=
  s.perform g (.on (.remove record) m)

/-- `clear`. -/
def clear (m : Maker A) (s : Grouped T A K u) : Option (Grouped T A K u) :=
  s.perform g (.on .clear m)

/-- Between two operations. -/
structure Maintained (keyers : ∀ i, T → K i) (s : Grouped T A K u) : Prop where
  /-- what holds at any time -/
  sound : Sound g s
  /-- no record was created and not committed -/
  settled : s.session.pending = []
  /-- `group_by` was called -/
  connected : s.aggregate.isSome
  /-- every index was obtained, so that it follows the table -/
  indexed : ∀ i, s.session.table.keyerOf i = some (keyers i)

variable {g} {keyers : ∀ i, T → K i} {s : Grouped T A K u}

omit [DecidableEq ι] [∀ i, DecidableEq (K i)] in
/-- A slot updates the aggregates or there are none: it neither makes nor drops them. -/
theorem isSome_of_emit {slot : AggregateTable A (K u) → Option (AggregateTable A (K u))}
    {x y : Option (AggregateTable A (K u))} (h : emit slot x = some y) : y.isSome = x.isSome := by
  cases x with
  | none => exact congrArg Option.isSome (Option.some.inj h).symm
  | some a =>
    obtain ⟨b, _, rfl⟩ := Option.map_eq_some_iff.mp h
    rfl

/-- What a commit does to the three parts of the state. -/
theorem commit_cases {m : Maker A} {record : Handle} {s' : Grouped T A K u}
    (h : s.perform g (.on (.commit record) m) = some s') :
    s.session.perform (.commit record) = some s'.session ∧
      s'.dirty = (s.dirty.filter fun h => h ≠ record) ∧
      s'.aggregate.isSome = s.aggregate.isSome := by
  obtain ⟨session, hsession, h⟩ := Option.bind_eq_some_iff.mp h
  obtain ⟨aggregate, hemit, rfl⟩ := Option.map_eq_some_iff.mp h
  exact ⟨hsession, rfl, isSome_of_emit hemit⟩

omit [DecidableEq ι] in
/-- With nothing pending the indexes are exact for all records. -/
theorem Maintained.consistent (h : Maintained g keyers s) : s.session.table.Consistent [] := by
  have := h.sound.consistent
  rwa [h.settled] at this

omit [DecidableEq ι] in
/-- A handle is one record's. -/
theorem Maintained.nodup (h : Maintained g keyers s) : (s.records.map Prod.fst).Nodup :=
  h.consistent.nodup

/-- **A record comes.**  Between its creation and its commit it is pending, so that the aggregates
    do not show it; the commit settles it. -/
theorem Maintained.insert (h : Maintained g keyers s) {record : Handle}
    (hfresh : record ∉ s.handles) (value : T) (m : Maker A) :
    ∃ s', s.insert g m record value = some s' ∧ Maintained g keyers s' ∧
      s'.records = s.records ++ [(record, value)] ∧
      s'.dirty = s.dirty.filter fun h => h ≠ record := by
  obtain ⟨s₁, hs₁, hsound₁⟩ := perform_sound (a := .on (.create record value) m) h.sound
    ⟨hfresh, trivial⟩
  obtain rfl : { s with session := ⟨s.session.table.create record value,
    record :: s.session.pending⟩ } = s₁ := Option.some.inj hs₁
  -- it is committed as one of the table's
  have hlive : record ∈ (s.session.table.create record value).handles := by
    rw [Table.handles_create]
    exact List.mem_append_right _ (List.mem_singleton.mpr rfl)
  obtain ⟨s₂, hs₂, hsound₂⟩ := perform_sound (a := .on (.commit record) m) hsound₁ ⟨hlive, trivial⟩
  obtain ⟨hcommit, hdirty, hsome⟩ := commit_cases hs₂
  obtain ⟨t, hperform, hrecords, hkeyer, _⟩ :=
    Session.perform_commit_pending hsound₁.consistent List.mem_cons_self
  -- nothing is pending after the commit
  have hnone : ((record :: s.session.pending).filter fun h => h ≠ record) = [] := by
    rw [h.settled]
    simp
  rw [hnone] at hperform
  obtain hs₂session := Option.some.inj (hperform.symm.trans hcommit)
  refine ⟨s₂, ?_, ⟨hsound₂, ?_, ?_, ?_⟩, ?_, hdirty⟩
  · -- the two operations are the insertion
    unfold Grouped.insert
    rw [hs₁]
    exact hs₂
  · -- it is settled,
    rw [← hs₂session]
  · -- connected,
    rw [hsome]
    exact h.connected
  · -- and no index was lost
    intro i
    rw [← hs₂session]
    exact (hkeyer i).trans (h.indexed i)
  · unfold Grouped.records
    rw [← hs₂session]
    exact hrecords

/-- **A record is committed again.**  The session stays as it is: the indexes have it already. -/
theorem Maintained.touch (h : Maintained g keyers s) {record : Handle}
    (hlive : record ∈ s.handles) (m : Maker A) :
    ∃ s', s.touch g m record = some s' ∧ Maintained g keyers s' ∧ s'.records = s.records ∧
      s'.dirty = s.dirty.filter fun h => h ≠ record := by
  obtain ⟨s', hs', hsound⟩ := perform_sound (a := .on (.commit record) m) h.sound ⟨hlive, trivial⟩
  obtain ⟨hcommit, hdirty, hsome⟩ := commit_cases hs'
  have hperform : s.session.perform (.commit record) = some s.session := by
    show (if record ∈ s.session.pending then _ else _) = _
    rw [if_neg (by rw [h.settled]; exact List.not_mem_nil), h.consistent.commitModification]
  have hsession := Option.some.inj (hperform.symm.trans hcommit)
  refine ⟨s', hs', ⟨hsound, ?_, ?_, ?_⟩, ?_, hdirty⟩
  · rw [← hsession]
    exact h.settled
  · -- the slot keeps the aggregates
    rw [hsome]
    exact h.connected
  · rw [← hsession]
    exact h.indexed
  · unfold Grouped.records
    rw [← hsession]

/-- **A record is written to in place**, and keeps its keys: the indexes, which see no assignment,
    stay exact. -/
theorem Maintained.assign (h : Maintained g keyers s) {record : Handle} {old value : T}
    (hold : (record, old) ∈ s.records) (hkeys : ∀ i, keyers i value = keyers i old) (m : Maker A) :
    ∃ s', s.assign g m record value = some s' ∧ Maintained g keyers s' ∧
      s'.records = (s.records.map fun r => if r.1 = record then (record, value) else r) ∧
      s'.dirty = record :: s.dirty := by
  have hallowed : s.session.Allowed (.write record value) := by
    refine ⟨List.mem_map_of_mem hold, Or.inr ?_⟩
    intro old' hold' i _ x hx
    obtain rfl : old = old' := Option.some.inj
      (((Table.lookup_eq_some h.nodup).mpr hold).symm.trans hold')
    -- the index in use is one of those obtained
    have hkeyer : x.keyer = keyers i := by
      have := h.indexed i
      unfold Table.keyerOf at this
      rw [show s.session.table.components i = some x from hx] at this
      exact Option.some.inj this
    rw [hkeyer]
    exact hkeys i
  obtain ⟨s', hs', hsound⟩ := perform_sound (a := .on (.write record value) m) h.sound
    ⟨hallowed, trivial⟩
  -- the record was committed, so the write leaves it dirty
  have hnot : record ∉ s.session.pending := by
    rw [h.settled]
    exact List.not_mem_nil
  have heq : ⟨{ s.session with table := s.session.table.write record value },
      record :: s.dirty, s.aggregate⟩ = s' := by
    have := Option.some.inj hs'
    rwa [if_neg hnot] at this
  subst heq
  exact ⟨_, hs', ⟨hsound, h.settled, h.connected, h.indexed⟩, rfl, rfl⟩

/-- **A record goes.**  The aggregates are told after it left the indexes, and before it left the
    table. -/
theorem Maintained.drop (h : Maintained g keyers s) {record : Handle}
    (hlive : record ∈ s.handles) (m : Maker A) :
    ∃ s', s.drop g m record = some s' ∧ Maintained g keyers s' ∧
      s'.records = (s.records.filter fun r => r.1 ≠ record) ∧
      s'.dirty = s.dirty.filter fun h => h ≠ record := by
  obtain ⟨s', hs', hsound⟩ := perform_sound (a := .on (.remove record) m) h.sound ⟨hlive, trivial⟩
  obtain ⟨aggregate, hemit, rfl⟩ := Option.map_eq_some_iff.mp hs'
  refine ⟨_, hs', ⟨hsound, ?_, ?_, ?_⟩, rfl, rfl⟩
  · -- settled: it was not pending
    show s.session.pending.filter _ = []
    rw [h.settled]
    rfl
  · -- connected
    rw [isSome_of_emit hemit]
    exact h.connected
  · -- indexed
    exact fun i => (h.consistent.keyerOf_notifyRemoved record i).trans (h.indexed i)

/-- **All records go.** -/
theorem Maintained.clear (h : Maintained g keyers s) (m : Maker A) :
    ∃ s', s.clear g m = some s' ∧ Maintained g keyers s' ∧ s'.records = [] ∧ s'.dirty = [] := by
  obtain ⟨s', hs', hsound⟩ := perform_sound (a := .on .clear m) h.sound ⟨trivial, trivial⟩
  obtain rfl := Option.some.inj hs'
  refine ⟨_, hs', ⟨hsound, rfl, ?_, ?_⟩, rfl, rfl⟩
  · rw [Option.isSome_map]
    exact h.connected
  · exact fun i => (h.consistent.keyerOf_clear i).trans (h.indexed i)

/-! ## Which aggregate changes -/

/-- The aggregates after the one of `q` was replaced: `aindex[q]` gave `found`.  `new` is the record
    in its place, or `none` if the aggregate went. -/
structure Updated (g : Grouping T A (K u)) (m : Maker A) (aggregate aggregate' : AggregateTable A (K u))
    (q : K u) (found : Handle) (isNew : Bool) (a : A) (new : Option (Handle × A)) : Prop where
  /-- the aggregate found has the key asked for -/
  key : g.akey a = q
  /-- it was there, or was created by the lookup -/
  located : ∃ t, recordFor g m aggregate q = some (t, found, isNew) ∧
    Located g aggregate q found a t isNew
  /-- and no other aggregate changed -/
  replaces : g.Replaces aggregate.records aggregate'.records q new

/-- **An inserted record** updates, or creates, the aggregate of its key.  The slot runs at the
    commit, when the index has the record already. -/
theorem Maintained.insert_updates (h : Maintained g keyers s) {record : Handle}
    (hfresh : record ∉ s.handles) {value : T} {m : Maker A} {s' : Grouped T A K u}
    (hinsert : s.insert g m record value = some s') {aggregate : AggregateTable A (K u)}
    (haggregate : s.aggregate = some aggregate) :
    ∃ aggregate' found isNew a items, s'.aggregate = some aggregate' ∧
      Updated g m aggregate aggregate' (g.ukey value) found isNew a
        (some (found, g.aggregate a items)) := by
  obtain ⟨s₂, hs₂, h', hrecords, _⟩ := h.insert hfresh value m
  obtain rfl : s' = s₂ := Option.some.inj (hinsert.symm.trans hs₂)
  obtain ⟨s₁, hs₁, hcommit⟩ := Option.bind_eq_some_iff.mp hinsert
  obtain rfl : { s with session := ⟨s.session.table.create record value,
    record :: s.session.pending⟩ } = s₁ := Option.some.inj hs₁
  obtain ⟨session, _, hslot⟩ := Option.bind_eq_some_iff.mp hcommit
  obtain ⟨after, hemit, rfl⟩ := Option.map_eq_some_iff.mp hslot
  have hemit : emit (updateRecord g m session.table record) s.aggregate = some after := hemit
  rw [haggregate] at hemit
  obtain ⟨aggregate', hupdate, rfl⟩ := Option.map_eq_some_iff.mp hemit
  obtain ⟨hindex, _, _⟩ := h'.sound.tracks aggregate' rfl
  obtain ⟨_, hkeyed, _⟩ := h.sound.tracks aggregate haggregate
  have hmem : (record, value) ∈ session.table.records := by
    rw [show session.table.records = _ from hrecords]
    exact List.mem_append_right _ (List.mem_singleton.mpr rfl)
  -- the slot looks the aggregate up and computes it from the records of its key
  obtain ⟨x, located, found, isNew, a, hlookup, hx, hfor, hkey, hlocated, -, -⟩ :=
    slot_cases h'.sound.consistent hindex hmem hkeyed m
  obtain ⟨aggregate₁, hinto, _, hreplaces⟩ := hkeyed.aggregateInto hkey hlocated
    (session.table.values (x.equalRange (g.ukey value)))
  have hsame : updateRecord g m session.table record aggregate = some aggregate₁ := by
    unfold updateRecord
    rw [hlookup, hx]
    simp only [Option.bind_some, hfor]
    exact hinto
  obtain rfl := Option.some.inj (hsame.symm.trans hupdate)
  exact ⟨aggregate₁, found, isNew, a, _, rfl, hkey, ⟨located, hfor, hlocated⟩, hreplaces⟩

omit [DecidableEq ι] in
/-- The aggregate of a record that is there is found, not created: it has held the record since its
    commit. -/
theorem Maintained.found (h : Maintained g keyers s) {record : Handle} {value : T}
    (hrecord : (record, value) ∈ s.records) {aggregate located : AggregateTable A (K u)}
    (haggregate : s.aggregate = some aggregate) {found : Handle} {a : A} {isNew : Bool}
    (hlocated : Located g aggregate (g.ukey value) found a located isNew) :
    (found, a) ∈ aggregate.records := by
  cases hlocated with
  | found hmem => exact hmem
  | created _ hnone =>
    -- a key with a record is a key with an aggregate
    obtain ⟨_, _, hmirrors⟩ := h.sound.tracks aggregate haggregate
    have hseen : (record, value) ∈ s.session.table.settled s.session.pending := by
      rw [h.settled, Table.settled_nil]
      exact hrecord
    obtain ⟨r, hr, hkey⟩ := hmirrors.present _ hseen
    exact absurd hkey (hnone r hr)

/-- **A removed record** updates the aggregate of its key, or removes it with the last one. -/
theorem Maintained.drop_updates (h : Maintained g keyers s) {record : Handle} {value : T}
    (hrecord : (record, value) ∈ s.records) {m : Maker A} {s' : Grouped T A K u}
    (hdrop : s.drop g m record = some s') {aggregate : AggregateTable A (K u)}
    (haggregate : s.aggregate = some aggregate) :
    ∃ aggregate' found isNew a new, s'.aggregate = some aggregate' ∧
      Updated g m aggregate aggregate' (g.ukey value) found isNew a new ∧
      ((∀ e ∈ s'.records, g.ukey e.2 ≠ g.ukey value) → new = none) ∧
      ((∃ e ∈ s'.records, g.ukey e.2 = g.ukey value) →
        ∃ items, new = some (found, g.aggregate a items)) := by
  obtain ⟨s₂, hs₂, h', hrecords, _⟩ := h.drop (List.mem_map_of_mem hrecord) m
  obtain rfl : s' = s₂ := Option.some.inj (hdrop.symm.trans hs₂)
  obtain ⟨after, hemit, rfl⟩ := Option.map_eq_some_iff.mp hdrop
  have hemit : emit (onRemoved g m (s.session.table.notifyRemoved record) record) s.aggregate =
    some after := hemit
  rw [haggregate] at hemit
  obtain ⟨aggregate', hslot, rfl⟩ := Option.map_eq_some_iff.mp hemit
  obtain ⟨hindex, hkeyed, _⟩ := h.sound.tracks aggregate haggregate
  have hlive : record ∈ s.session.table.handles := List.mem_map_of_mem hrecord
  have hnotified := h.sound.consistent.notifyRemoved hlive
  obtain ⟨x, located, found, isNew, a, hlookup, hx, hfor, hkey, hlocated, hempty, -⟩ :=
    slot_cases hnotified ((h.sound.consistent.keyerOf_notifyRemoved record u).trans hindex)
      hrecord hkeyed m
  -- the key's range is empty exactly if no record left has it
  rw [Table.settled_notifyRemoved, h.settled, Table.settled_nil] at hempty
  rw [hrecords]
  by_cases hrange : x.equalRange (g.ukey value) = []
  · -- it was the last: the aggregate goes
    obtain ⟨_, hreplaces⟩ := hkeyed.removeLocated hkey hlocated
    have hsame : onRemoved g m (s.session.table.notifyRemoved record) record aggregate =
        some (located.remove found) := by
      unfold onRemoved
      rw [hlookup, hx]
      simp only [Option.bind_some, hfor, hrange, List.isEmpty_nil, if_true]
    obtain rfl := Option.some.inj (hsame.symm.trans hslot)
    refine ⟨_, found, isNew, a, none, rfl, ⟨hkey, ⟨located, hfor, hlocated⟩, hreplaces⟩,
      fun _ => rfl, ?_⟩
    rintro ⟨e, he, hsamekey⟩
    exact absurd hsamekey (hempty.mp hrange e he)
  · -- others are left: it is computed anew from them
    obtain ⟨aggregate₁, hinto, _, hreplaces⟩ := hkeyed.aggregateInto hkey hlocated
      ((s.session.table.notifyRemoved record).values (x.equalRange (g.ukey value)))
    have hsame : onRemoved g m (s.session.table.notifyRemoved record) record aggregate =
        some aggregate₁ := by
      unfold onRemoved
      rw [hlookup, hx]
      simp only [Option.bind_some, hfor, List.isEmpty_iff, if_neg hrange]
      exact hinto
    obtain rfl := Option.some.inj (hsame.symm.trans hslot)
    refine ⟨_, found, isNew, a, _, rfl, ⟨hkey, ⟨located, hfor, hlocated⟩, hreplaces⟩, ?_,
      fun _ => ⟨_, rfl⟩⟩
    intro hnone
    exact absurd (hempty.mpr hnone) hrange

omit [DecidableEq ι] in
/-- **Every index finds the records with a key.** -/
theorem Maintained.index (h : Maintained g keyers s) (i : ι) :
    ∃ x, s.session.table.components i = some x ∧ ∀ key, (x.equalRange key).Nodup ∧
      ∀ j, j ∈ x.equalRange key ↔ ∃ v, (j, v) ∈ s.records ∧ keyers i v = key := by
  obtain ⟨x, hx, hkeyer⟩ := Option.map_eq_some_iff.mp (h.indexed i)
  have hexact := h.consistent.exact i x hx
  rw [Table.settled_nil] at hexact
  refine ⟨x, hx, fun key => ⟨hexact.nodup_equalRange h.nodup key, fun j => ?_⟩⟩
  rw [← hkeyer]
  exact hexact.mem_equalRange

omit [DecidableEq ι] in
/-- **With every change committed the aggregates are exact**: one for each key in use, made of the
    records with its key. -/
theorem Maintained.exact (h : Maintained g keyers s) (hdirty : s.dirty = []) :
    ∃ aggregate, s.aggregate = some aggregate ∧ Keyed g aggregate ∧
      (∀ q, (∃ r ∈ aggregate.records, g.akey r.2 = q) ↔ ∃ r ∈ s.records, g.ukey r.2 = q) ∧
      (aggregate.records.map fun r => g.akey r.2).Nodup ∧
      ∀ r ∈ aggregate.records, g.Computed s.records r.2 := by
  obtain ⟨aggregate, haggregate⟩ := Option.isSome_iff_exists.mp h.connected
  obtain ⟨_, hkeyed, hmirrors⟩ := h.sound.tracks aggregate haggregate
  rw [hdirty, h.settled, Table.settled_nil] at hmirrors
  exact ⟨aggregate, haggregate, hkeyed,
    hmirrors.recomputed (List.Nodup.of_map _ hkeyed.consistent.nodup)⟩

end Grouped

end MicroProfiler.Sdb
