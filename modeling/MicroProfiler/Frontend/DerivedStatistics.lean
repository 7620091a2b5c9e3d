/-
  `frontend/derived_statistics.h` and `group_by_thread_address` of `frontend/representation.h`: the
  tables of functions derived from the table of calls and from what is selected in it.

  1. **The tables** — `flat` is grouped from the calls; `addresses` from the selection; `callers` and
     `callees` from the joins of the calls with `addresses`.  Each is fed by the signals of those it
     is made of (`onChange` for the calls, `select`, `deselect` and `clear` for the selection), and
     passes its own on.

  2. **The system** (`Representation.step`) — updates of the statistics, read as in
     `Frontend.Hierarchy`, the creation of the tables at any point, and changes of the selection.

  3. **Exactness** (`derived_tables_exact`) — the INVARIANT `Upheld` ties every table to the ones it
     is made of after each single change; with nothing left uncommitted, which is so after every
     update, the composite is its definition.
-/
import MicroProfiler.Frontend.Nodes
import MicroProfiler.Sdb.GroupedJoin

namespace MicroProfiler.Frontend

open Sdb

variable {K : Type}

/-- The indexes of the table of calls that the derived tables use. -/
inductive CallIndex where
  /-- Of `group_by_thread_address`. -/
  | flat
  /-- Of the join for the callers: by address. -/
  | callers
  /-- Of the join for the callees: by the parent's address. -/
  | callees
  deriving DecidableEq, Repr

/-- What each index goes by. -/
abbrev CallKeys (K : Type) : CallIndex → Type
  | .flat => K × Nat
  | .callers => K
  | .callees => K

instance [DecidableEq K] : ∀ i, DecidableEq (CallKeys K i)
  | .flat => inferInstanceAs (DecidableEq (K × Nat))
  | .callers => inferInstanceAs (DecidableEq K)
  | .callees => inferInstanceAs (DecidableEq K)

/-- The allocators and constructors of the derived tables. -/
structure DerivedMaker (K : Type) where
  flat : Maker (CallStatistics K)
  addresses : Maker K
  callers : JoinMaker (CallStatistics K)
  callees : JoinMaker (CallStatistics K)

/-- The calls with `flat`, the selected ids with `addresses`, and the joins with `callers` and
    `callees`. -/
structure Derived (K : Type) where
  /-- the table of calls, with its indexes and `flat` -/
  calls : Grouped (Node K) (CallStatistics K) (CallKeys K) .flat
  /-- selected ids with their addresses, and `addresses` -/
  selection : Grouped (Nat × K) K (fun _ : Unit => K) ()
  /-- the calls of selected addresses, grouped by the parent's address -/
  callers : GroupedJoin (Node K) (CallStatistics K) (K × Nat)
  /-- the calls from selected addresses, grouped by their own -/
  callees : GroupedJoin (Node K) (CallStatistics K) (K × Nat)

/-- `selection_address_keyer_factory` and `aggregator::void_`: a selected id goes by the address
    `hierarchy_address` finds for it.  There is nothing to aggregate: `addresses` has one record for
    each address. -/
def byAddress : Grouping (Nat × K) K K where
  ukey := Prod.snd
  akey a := a
  aggregate a _ := a
  akey_aggregate _ _ := rfl
  setKey _ q := q
  akey_setKey _ _ := rfl

section

variable [DecidableEq K] [Zero K]

/-- `group_by_thread_address`, and the grouping of the callees: `address_keyer_factory`. -/
abbrev byAddressThread : Grouping (Node K) (CallStatistics K) (K × Nat) := byThread Node.address

/-- `parent_to_address_keyer_factory`. -/
abbrev byParentThread : Grouping (Node K) (CallStatistics K) (K × Nat) := byThread Node.parentAddress

/-- The keyers of the indexes. -/
def callKeyers : ∀ i, Node K → CallKeys K i
  | .flat, n => byAddressThread.ukey n
  | .callers, n => n.address
  | .callees, n => n.parentAddress

namespace Derived

/-- `representation::create`: the tables over the calls there are, with nothing selected. -/
def create (m : DerivedMaker K) (h : Hierarchy K) : Option (Derived K) :=
  let calls : Table CallIndex (Node K) (CallKeys K) := ⟨h.nodes, fun _ => none, []⟩
  let selection : Table Unit (Nat × K) (fun _ => K) := Table.empty.component () byAddress.ukey .hashed
  (groupBy (u := CallIndex.flat) byAddressThread m.flat calls).map fun r =>
    { calls :=
        ⟨⟨(r.1.component .callers Node.address .hashed).component .callees Node.parentAddress .hashed,
          []⟩, h.dirty, some r.2⟩
      selection := ⟨⟨selection, []⟩, [], some (Table.empty.component () byAddress.akey .hashed)⟩
      callers := .new byParentThread
      callees := .new byAddressThread }

/-- `addresses.equal_range(key)`, of the joins' index. -/
def addressRange (d : Derived K) (key : K) : Option (List Handle) :=
  d.selection.aggregate.bind fun addresses =>
    (addresses.components ()).map fun x => x.equalRange key

/-- `hierarchy.equal_range(key)`, of the index of a join. -/
def callRange (d : Derived K) (i : CallIndex) (key : CallKeys K i) :
    Option (List (Handle × Node K)) :=
  (d.calls.session.table.components i).map fun x =>
    (x.equalRange key).filterMap fun l => (d.calls.session.table.lookup l).map (Prod.mk l)

/-- The slots connected to the table of calls, after a change that left it as `h`. -/
def onChange (m : DerivedMaker K) (h : Hierarchy K) (d : Derived K) : Change K → Option (Derived K)
  | .created record r =>
      (h.node r).bind fun n =>
      -- the slots run in the order they were connected: `flat`, then the two joins
      (d.calls.insert byAddressThread m.flat record n).bind fun calls =>
      (d.addressRange n.address).bind fun callerRange =>
      (d.addressRange n.parentAddress).bind fun calleeRange =>
      (d.callers.onLeft byParentThread m.callers record n callerRange).bind fun callers =>
      (d.callees.onLeft byAddressThread m.callees record n calleeRange).map fun callees =>
        { d with calls := calls, callers := callers, callees := callees }
  | .written record r =>
      -- no slot runs: what was written is seen through the iterators the tables hold
      (d.calls.session.table.lookup record).bind fun n =>
      (d.calls.assign byAddressThread m.flat record ⟨r, n.up⟩).bind fun calls =>
      (d.callers.onWritten byParentThread m.callers record ⟨r, n.up⟩).bind fun callers =>
      (d.callees.onWritten byAddressThread m.callees record ⟨r, n.up⟩).map fun callees =>
        { d with calls := calls, callers := callers, callees := callees }
  | .modified record =>
      (d.calls.touch byAddressThread m.flat record).bind fun calls =>
      (d.callers.onModified byParentThread m.callers .left record).bind fun callers =>
      (d.callees.onModified byAddressThread m.callees .left record).map fun callees =>
        { d with calls := calls, callers := callers, callees := callees }

/-- The record of `addresses` that `aindex[key]` gives, and whether it is new.  What it creates is
    created once more by the slot that follows, and is the same. -/
def addressFor (m : DerivedMaker K) (d : Derived K) (key : K) : Option (Handle × Bool) :=
  d.selection.aggregate.bind fun addresses =>
    (recordFor byAddress m.addresses addresses key).map fun r => r.2

/-- The slots of both joins connected to `modified` of `addresses`. -/
def addressModified (m : DerivedMaker K) (d : Derived K) (address : Handle) : Option (Derived K) :=
  (d.callers.onModified byParentThread m.callers .right address).bind fun callers =>
    (d.callees.onModified byAddressThread m.callees .right address).map fun callees =>
      { d with callers := callers, callees := callees }

/-- Those connected to `created`. -/
def addressCreated (m : DerivedMaker K) (d : Derived K) (address : Handle) (key : K) :
    Option (Derived K) :=
  (d.callRange .callers key).bind fun callerRange =>
  (d.callRange .callees key).bind fun calleeRange =>
  (d.callers.onRight byParentThread m.callers address callerRange).bind fun callers =>
    (d.callees.onRight byAddressThread m.callees address calleeRange).map fun callees =>
      { d with callers := callers, callees := callees }

/-- Those connected to `removed`. -/
def addressRemoved (m : DerivedMaker K) (d : Derived K) (address : Handle) : Option (Derived K) :=
  (d.callers.onRemoved byParentThread m.callers address).bind fun callers =>
    (d.callees.onRemoved byAddressThread m.callees address).map fun callees =>
      { d with callers := callers, callees := callees }

/-- An id is added to the selection; `hierarchy_address` throws if no record has it. -/
def select (m : DerivedMaker K) (h : Hierarchy K) (record : Handle) (id : Nat) (d : Derived K) :
    Option (Derived K) :=
  (findById h.values id).bind fun r =>
  (d.addressFor m r.address).bind fun address =>
  -- the slot of `group_by` finds or creates the same record of `addresses`
  (Grouped.insert (u := ()) (K := fun _ => K) byAddress m.addresses record (id, r.address)
    d.selection).bind fun selection =>
    let d := { d with selection := selection }
    if address.2 then d.addressCreated m address.1 r.address else d.addressModified m address.1

/-- A record is removed from the selection. -/
def deselect (m : DerivedMaker K) (record : Handle) (d : Derived K) : Option (Derived K) :=
  (d.selection.session.table.lookup record).bind fun v =>
  (d.addressFor m v.2).bind fun address =>
  (Grouped.drop (u := ()) (K := fun _ => K) byAddress m.addresses d.selection record).bind
    fun selection =>
  (selection.session.table.components ()).bind fun index =>
    let d := { d with selection := selection }
    -- the last selected record of an address takes the address along
    if (index.equalRange v.2).isEmpty then d.addressRemoved m address.1
    else d.addressModified m address.1

/-- The selection is cleared: the joins are emptied with it, and so are the tables grouped from
    them. -/
def clear (m : DerivedMaker K) (d : Derived K) : Option (Derived K) :=
  (Grouped.clear (u := ()) (K := fun _ => K) byAddress m.addresses d.selection).bind
    fun selection =>
  (Grouped.clear (GroupedJoin.grouping byParentThread) m.callers.grouped d.callers).bind fun callers =>
  (Grouped.clear (GroupedJoin.grouping byAddressThread) m.callees.grouped d.callees).map
    fun callees => { d with selection := selection, callers := callers, callees := callees }

/-! ## What the tables are tied to -/

/-- The records of `addresses`, which the joins see as their right side. -/
def addresses (d : Derived K) : List (Handle × K) :=
  (d.selection.aggregate.map Table.records).getD []

/-- The selection, as a grouped table in steady use. -/
abbrev SelectionMaintained (s : Grouped (Nat × K) K (fun _ : Unit => K) ()) : Prop :=
  Grouped.Maintained (u := ()) (K := fun _ => K) byAddress (fun _ => Prod.snd) s

/-- INVARIANT: every table is tied to those it is made of. -/
structure Upheld (h : Hierarchy K) (d : Derived K) : Prop where
  grown : h.Grown
  /-- `flat` is tied to the calls -/
  calls : Grouped.Maintained byAddressThread callKeyers d.calls
  /-- which are the nodes of the hierarchy -/
  nodes : d.calls.records = h.nodes
  /-- and are dirty where that is -/
  dirty : d.calls.dirty ⊆ h.dirty
  /-- `addresses` is tied to the selection -/
  selection : SelectionMaintained d.selection
  /-- nothing of it is written to without a commit -/
  committed : d.selection.dirty = []
  /-- selected ids are in the table, under their address -/
  selected : ∀ e ∈ d.selection.records, ∃ r ∈ h.values, r.id = e.2.1 ∧ r.address = e.2.2
  /-- the joins are tied to calls and `addresses` -/
  callers : GroupedJoin.Tied byParentThread Node.address id h.nodes d.addresses h.dirty d.callers
  callees :
    GroupedJoin.Tied byAddressThread Node.parentAddress id h.nodes d.addresses h.dirty d.callees

omit [DecidableEq K] [Zero K] in
/-- The table of addresses, by its records. -/
theorem addresses_eq {d : Derived K} {t : AggregateTable K K} (h : d.selection.aggregate = some t) :
    d.addresses = t.records := by
  unfold addresses
  rw [h]
  rfl

omit [Zero K] in
/-- The table of addresses, whose key is the address itself. -/
theorem exists_addresses {d : Derived K} (h : SelectionMaintained d.selection) :
    ∃ t : AggregateTable K K, d.selection.aggregate = some t ∧ Keyed byAddress t := by
  obtain ⟨t, ht⟩ := Option.isSome_iff_exists.mp h.connected
  exact ⟨t, ht, (h.sound.tracks t ht).keyed⟩

omit [Zero K] in
/-- **The joins' index of `addresses`.** -/
theorem addressRange_eq {d : Derived K} (h : SelectionMaintained d.selection) (key : K) :
    ∃ range, d.addressRange key = some range ∧ range.Nodup ∧
      ∀ r, r ∈ range ↔ ∃ a, (r, a) ∈ d.addresses ∧ id a = key := by
  obtain ⟨t, ht, hkeyed⟩ := exists_addresses h
  obtain ⟨x, hx, hkeyer⟩ := hkeyed.exists_index
  have hexact := hkeyed.consistent.exact () x hx
  rw [Table.settled_nil] at hexact
  refine ⟨x.equalRange key, ?_, hexact.nodup_equalRange hkeyed.consistent.nodup key, ?_⟩
  · unfold addressRange
    rw [ht, Option.bind_some, hx]
    rfl
  · intro r
    rw [addresses_eq ht, hexact.mem_equalRange, hkeyer]
    rfl

omit [DecidableEq K] [Zero K] in
/-- Looking handles up neither repeats nor reorders them. -/
theorem found_sublist (lookup : Handle → Option (Node K)) : ∀ range : List Handle,
    ((range.filterMap fun l => (lookup l).map (Prod.mk l)).map Prod.fst).Sublist range := by
  intro range
  induction range with
  | nil => exact .slnil
  | cons l range ih =>
    rw [List.filterMap_cons]
    cases lookup l with
    | none => exact ih.cons l
    | some n => exact ih.cons_cons l

/-- **The index a join has of the calls.** -/
theorem callRange_eq {h : Hierarchy K} {d : Derived K} (hd : Upheld h d) (i : CallIndex)
    (key : CallKeys K i) :
    ∃ range, d.callRange i key = some range ∧ (range.map Prod.fst).Nodup ∧
      ∀ e, e ∈ range ↔ e ∈ h.nodes ∧ callKeyers i e.2 = key := by
  obtain ⟨x, hx, hrange⟩ := hd.calls.index i
  obtain ⟨hnodup, hmem⟩ := hrange key
  have hlookup : ∀ l n, d.calls.session.table.lookup l = some n ↔ (l, n) ∈ d.calls.records :=
    fun l n => Table.lookup_eq_some hd.calls.nodup
  refine ⟨_, by rw [callRange, hx]; rfl, ?_, ?_⟩
  · exact hnodup.sublist (found_sublist _ _)
  · -- who is in the range is a call with the key
    rintro ⟨l, n⟩
    rw [List.mem_filterMap, ← hd.nodes]
    constructor
    · rintro ⟨l', hl', hmap⟩
      obtain ⟨n', hn', heq⟩ := Option.map_eq_some_iff.mp hmap
      obtain ⟨rfl, rfl⟩ := Prod.mk.inj heq
      have hrecord := (hlookup l' n').mp hn'
      obtain ⟨n₁, hn₁, hkey⟩ := (hmem l').mp hl'
      obtain rfl : n₁ = n' :=
        congrArg Prod.snd (List.inj_on_of_nodup_map hd.calls.nodup hn₁ hrecord rfl)
      exact ⟨hrecord, hkey⟩
    · rintro ⟨hrecord, hkey⟩
      exact ⟨l, (hmem l).mpr ⟨n, hrecord, hkey⟩, by rw [(hlookup l n).mpr hrecord]; rfl⟩

/-! ## Changes of the calls -/

/-- The calls are the records of the hierarchy. -/
theorem live_iff {h : Hierarchy K} {d : Derived K} (hd : Upheld h d) (record : Handle) :
    record ∈ d.calls.handles ↔ record ∈ h.handles := by
  show record ∈ d.calls.records.map Prod.fst ↔ record ∈ h.records.map Prod.fst
  rw [hd.nodes, ← hd.grown.records_of_nodes, List.map_map]
  rfl

/-- Selected records stay: no call is removed, and none changes its address. -/
theorem selected_stay {h : Hierarchy K} {d : Derived K} (hd : Upheld h d) {c : Change K}
    (ha : h.Allowed c) : ∀ e ∈ d.selection.records, ∃ r ∈ (h.apply c).values,
      r.id = e.2.1 ∧ r.address = e.2.2 := by
  intro e he
  obtain ⟨r, hr, hid, haddress⟩ := hd.selected e he
  obtain ⟨r', hr', hid', hkey⟩ := hd.grown.keeps ha r hr
  exact ⟨r', hr', hid'.trans hid, (Statistics.callnode_eq hkey).2.2.trans haddress⟩

/-- **A call is committed** for the first time: `flat` first, then the joins with what `addresses`
    has for it. -/
theorem created_upheld {h : Hierarchy K} {d : Derived K} (hd : Upheld h d) {record : Handle}
    {r : CallStatistics K} (ha : h.Allowed (.created record r)) (m : DerivedMaker K) :
    ∃ d', d.onChange m (h.apply (.created record r)) (.created record r) = some d' ∧
      d'.selection = d.selection ∧ Upheld (h.apply (.created record r)) d' := by
  obtain ⟨up, _, hnode, hnodes⟩ := hd.grown.nodes_created ha
  have hfresh : record ∉ d.calls.handles := mt (live_iff hd record).mp ha.1
  obtain ⟨calls, hcalls, hmaintained, hrecords, hdirty⟩ := hd.calls.insert hfresh ⟨r, up⟩ m.flat
  -- the joins have nothing for a record they never saw
  have hnew : ∀ n, (record, n) ∉ h.nodes := by
    intro n hn
    exact ha.1 (List.mem_map.mpr ⟨_, (hd.grown.mem_nodes.mp hn).1, rfl⟩)
  have hmem : ∀ e, e ∈ (h.apply (.created record r)).nodes ↔ e ∈ h.nodes ∨ e = (record, ⟨r, up⟩) := by
    intro e
    rw [hnodes, List.mem_append, List.mem_singleton]
  obtain ⟨range, hrange, hnodup, hin⟩ := addressRange_eq hd.selection (Node.mk r up).address
  obtain ⟨range', hrange', hnodup', hin'⟩ := addressRange_eq hd.selection (Node.mk r up).parentAddress
  obtain ⟨callers, hcallers, htied⟩ := hd.callers.onLeft hnew hmem hnodup hin m.callers
  obtain ⟨callees, hcallees, htied'⟩ := hd.callees.onLeft hnew hmem hnodup' hin' m.callees
  refine ⟨⟨calls, d.selection, callers, callees⟩, ?_, rfl, hd.grown.apply ha, hmaintained, ?_, ?_,
    hd.selection, hd.committed, selected_stay hd ha, htied, htied'⟩
  · simp only [onChange, hnode, Option.bind_some, hcalls, hrange, hrange', hcallers, hcallees,
      Option.map_some]
  · rw [hrecords, hd.nodes, hnodes]
  · intro x hx
    rw [hdirty] at hx
    exact hd.dirty (List.mem_of_mem_filter hx)

/-- **A call is written to**, with no slot running. -/
theorem written_upheld {h : Hierarchy K} {d : Derived K} (hd : Upheld h d) {record : Handle}
    {r : CallStatistics K} (ha : h.Allowed (.written record r)) (m : DerivedMaker K) :
    ∃ d', d.onChange m (h.apply (.written record r)) (.written record r) = some d' ∧
      d'.selection = d.selection ∧ Upheld (h.apply (.written record r)) d' := by
  obtain ⟨old, up, hold, heq, hnodes⟩ := hd.grown.nodes_written ha
  have hrecord : (record, ⟨old, up⟩) ∈ d.calls.records := by
    rw [hd.nodes]
    exact hold
  have hlookup : d.calls.session.table.lookup record = some ⟨old, up⟩ :=
    (Table.lookup_eq_some hd.calls.nodup).mpr hrecord
  -- only the statistics change: no index has to move the record
  have hkeys : ∀ i, callKeyers i (Node.mk r up) = callKeyers i ⟨old, up⟩ := by
    intro i
    rw [← heq]
    cases i <;> rfl
  obtain ⟨calls, hcalls, hmaintained, hrecords, hdirty⟩ := hd.calls.assign hrecord hkeys m.flat
  obtain ⟨callers, hcallers, htied⟩ := hd.callers.onWritten hd.grown.nodup_nodes hold
    (hkeys .callers) (by rw [← heq]; rfl) m.callers
  obtain ⟨callees, hcallees, htied'⟩ := hd.callees.onWritten hd.grown.nodup_nodes hold
    (hkeys .callees) (hkeys .flat) m.callees
  rw [← hnodes] at htied htied'
  refine ⟨⟨calls, d.selection, callers, callees⟩, ?_, rfl, hd.grown.apply ha, hmaintained, ?_, ?_,
    hd.selection, hd.committed, selected_stay hd ha, htied, htied'⟩
  · simp only [onChange, hlookup, Option.bind_some, hcalls, hcallers, hcallees, Option.map_some]
  · rw [hrecords, hd.nodes, hnodes]
  · rw [hdirty]
    exact List.cons_subset_cons _ hd.dirty

/-- **A call is committed again**: its group is made anew, and so are its joined records. -/
theorem modified_upheld {h : Hierarchy K} {d : Derived K} (hd : Upheld h d) {record : Handle}
    (ha : h.Allowed (.modified record)) (m : DerivedMaker K) :
    ∃ d', d.onChange m (h.apply (.modified record)) (.modified record) = some d' ∧
      d'.selection = d.selection ∧ Upheld (h.apply (.modified record)) d' := by
  obtain ⟨calls, hcalls, hmaintained, hrecords, hdirty⟩ :=
    hd.calls.touch ((live_iff hd record).mpr ha) m.flat
  obtain ⟨callers, hcallers, htied⟩ := hd.callers.modifiedLeft record m.callers
  obtain ⟨callees, hcallees, htied'⟩ := hd.callees.modifiedLeft record m.callees
  refine ⟨⟨calls, d.selection, callers, callees⟩, ?_, rfl, hd.grown.apply ha, hmaintained, ?_, ?_,
    hd.selection, hd.committed, selected_stay hd ha, htied, htied'⟩
  · simp only [onChange, hcalls, Option.bind_some, hcallers, hcallees, Option.map_some]
  · rw [hrecords, hd.nodes]
    rfl
  · rw [hdirty]
    exact List.filter_subset _ hd.dirty

/-- **One change of the calls** returns, and keeps the invariant. -/
theorem onChange_upheld {h : Hierarchy K} {d : Derived K} (hd : Upheld h d) {c : Change K}
    (ha : h.Allowed c) (m : DerivedMaker K) :
    ∃ d', d.onChange m (h.apply c) c = some d' ∧ d'.selection = d.selection ∧
      Upheld (h.apply c) d' := by
  cases c with
  | created record r => exact created_upheld hd ha m
  | written record r => exact written_upheld hd ha m
  | modified record => exact modified_upheld hd ha m

/-! ## Changes of the selection -/

/-- The selection after a change, in itself. -/
structure Reselected (h : Hierarchy K) (selection : Grouped (Nat × K) K (fun _ : Unit => K) ()) :
    Prop where
  maintained : SelectionMaintained selection
  committed : selection.dirty = []
  selected : ∀ e ∈ selection.records, ∃ r ∈ h.values, r.id = e.2.1 ∧ r.address = e.2.2

section

variable {h : Hierarchy K} {d : Derived K} (hd : Upheld h d)
  {selection : Grouped (Nat × K) K (fun _ : Unit => K) ()} (hs : Reselected h selection)
  {address : Handle}

include hd hs

/-- **An address comes.** -/
theorem addressCreated_upheld {key : K} (hnew : ∀ a, (address, a) ∉ d.addresses)
    (hmem : ∀ e, e ∈ { d with selection := selection }.addresses ↔
      e ∈ d.addresses ∨ e = (address, key)) (m : DerivedMaker K) :
    ∃ d', { d with selection := selection }.addressCreated m address key = some d' ∧
      d'.selection = selection ∧ Upheld h d' := by
  obtain ⟨range, hrange, hnodup, hin⟩ := callRange_eq hd .callers key
  obtain ⟨range', hrange', hnodup', hin'⟩ := callRange_eq hd .callees key
  have hrange : { d with selection := selection }.callRange .callers key = some range := hrange
  have hrange' : { d with selection := selection }.callRange .callees key = some range' := hrange'
  obtain ⟨callers, hcallers, htied⟩ := hd.callers.onRight hnew hmem hnodup hin m.callers
  obtain ⟨callees, hcallees, htied'⟩ := hd.callees.onRight hnew hmem hnodup' hin' m.callees
  refine ⟨⟨d.calls, selection, callers, callees⟩, ?_, rfl, hd.grown, hd.calls, hd.nodes, hd.dirty,
    hs.maintained, hs.committed, hs.selected, htied, htied'⟩
  simp only [addressCreated, hrange, hrange', Option.bind_some, hcallers, hcallees, Option.map_some]

/-- **An address is committed again.** -/
theorem addressModified_upheld
    (hmem : ∀ e, e ∈ { d with selection := selection }.addresses ↔ e ∈ d.addresses)
    (m : DerivedMaker K) :
    ∃ d', { d with selection := selection }.addressModified m address = some d' ∧
      d'.selection = selection ∧ Upheld h d' := by
  obtain ⟨callers, hcallers, htied⟩ := hd.callers.modifiedRight address m.callers
  obtain ⟨callees, hcallees, htied'⟩ := hd.callees.modifiedRight address m.callees
  refine ⟨⟨d.calls, selection, callers, callees⟩, ?_, rfl, hd.grown, hd.calls, hd.nodes, hd.dirty,
    hs.maintained, hs.committed, hs.selected, htied.congr_right hmem, htied'.congr_right hmem⟩
  simp only [addressModified, Option.bind_some, hcallers, hcallees, Option.map_some]

/-- **An address goes.** -/
theorem addressRemoved_upheld
    (hmem : ∀ e, e ∈ { d with selection := selection }.addresses ↔
      e ∈ d.addresses.filter fun e => e.1 ≠ address) (m : DerivedMaker K) :
    ∃ d', { d with selection := selection }.addressRemoved m address = some d' ∧
      d'.selection = selection ∧ Upheld h d' := by
  obtain ⟨callers, hcallers, htied⟩ := hd.callers.onRemoved address m.callers
  obtain ⟨callees, hcallees, htied'⟩ := hd.callees.onRemoved address m.callees
  refine ⟨⟨d.calls, selection, callers, callees⟩, ?_, rfl, hd.grown, hd.calls, hd.nodes, hd.dirty,
    hs.maintained, hs.committed, hs.selected, htied.congr_right hmem, htied'.congr_right hmem⟩
  simp only [addressRemoved, Option.bind_some, hcallers, hcallees, Option.map_some]

end

/-- The selection is what it was set to. -/
theorem of_selection {x : Option (Derived K)} {h : Hierarchy K}
    {selection : Grouped (Nat × K) K (fun _ : Unit => K) ()}
    (hx : ∃ d', x = some d' ∧ d'.selection = selection ∧ Upheld h d') :
    ∃ d', x = some d' ∧ d'.selection.records = selection.records ∧ Upheld h d' := by
  obtain ⟨d', hd', rfl, hupheld⟩ := hx
  exact ⟨d', hd', rfl, hupheld⟩

omit [Zero K] in
/-- `addressFor` finds what the grouping does. -/
theorem addressFor_eq {d : Derived K} {t : AggregateTable K K} (ht : d.selection.aggregate = some t)
    {m : DerivedMaker K} {key : K} {located : AggregateTable K K} {found : Handle} {isNew : Bool}
    (hfor : recordFor byAddress m.addresses t key = some (located, found, isNew)) :
    d.addressFor m key = some (found, isNew) := by
  unfold addressFor
  rw [ht, Option.bind_some, hfor]
  rfl

/-- **An id is selected.** -/
theorem select_upheld {h : Hierarchy K} {d : Derived K} (hd : Upheld h d) {record : Handle}
    (hfresh : record ∉ d.selection.handles) {r : CallStatistics K} (hr : r ∈ h.values)
    (m : DerivedMaker K) :
    ∃ d', d.select m h record r.id = some d' ∧
      d'.selection.records = d.selection.records ++ [(record, r.id, r.address)] ∧ Upheld h d' := by
  obtain ⟨selection, hinsert, hmaintained, hrecords, hdirty⟩ :=
    hd.selection.insert hfresh (r.id, r.address) m.addresses
  obtain ⟨t, ht, hkeyed⟩ := exists_addresses hd.selection
  obtain ⟨t', found, isNew, a, items, ht', hkey, ⟨located, hfor, hlocated⟩, hreplaces⟩ :=
    hd.selection.insert_updates hfresh hinsert ht
  have hs : Reselected h selection := by
    refine ⟨hmaintained, ?_, ?_⟩
    · rw [hdirty, hd.committed]
      rfl
    · intro e he
      rw [hrecords] at he
      rcases List.mem_append.mp he with he | he
      · exact hd.selected e he
      · rw [List.mem_singleton.mp he]
        exact ⟨r, hr, rfl, rfl⟩
  have haddresses : { d with selection := selection }.addresses = t'.records := addresses_eq ht'
  have hold := addresses_eq ht
  obtain rfl : a = r.address := hkey
  have hlocate : d.addressFor m r.address = some (found, isNew) := addressFor_eq ht hfor
  have hcode : d.select m h record r.id =
      if isNew then { d with selection := selection }.addressCreated m found r.address
      else { d with selection := selection }.addressModified m found := by
    simp only [select, hd.grown.rooted.findById hr, Option.bind_some, hlocate, hinsert]
  rw [hcode, ← hrecords]
  cases hlocated with
  | created hnot hnone =>
    -- the first of its address: the address comes, and the joins look for its calls
    refine of_selection (addressCreated_upheld hd hs ?_ ?_ m)
    · intro a ha
      rw [hold] at ha
      exact hnot (List.mem_map_of_mem ha)
    · rw [haddresses, hold]
      exact hreplaces.fresh hnone
  | found hmem =>
    -- the address was there: it is committed again
    refine of_selection (addressModified_upheld hd hs ?_ m)
    rw [haddresses, hold]
    exact hreplaces.same hmem rfl hkeyed.unique

/-- **A selected record is removed.** -/
theorem deselect_upheld {h : Hierarchy K} {d : Derived K} (hd : Upheld h d) {record : Handle}
    (hlive : record ∈ d.selection.handles) (m : DerivedMaker K) :
    ∃ d', d.deselect m record = some d' ∧
      d'.selection.records = (d.selection.records.filter fun e => e.1 ≠ record) ∧
      Upheld h d' := by
  obtain ⟨selection, hdrop, hmaintained, hrecords, hdirty⟩ :=
    hd.selection.drop hlive m.addresses
  obtain ⟨v, hv⟩ := Table.exists_value hlive
  obtain ⟨t, ht, hkeyed⟩ := exists_addresses hd.selection
  obtain ⟨t', found, isNew, a, new, ht', ⟨hkey, ⟨located, hfor, hlocated⟩, hreplaces⟩, hnone, hsome⟩ :=
    hd.selection.drop_updates hv hdrop ht
  have hs : Reselected h selection := by
    refine ⟨hmaintained, ?_, ?_⟩
    · rw [hdirty, hd.committed]
      rfl
    · intro e he
      rw [hrecords] at he
      exact hd.selected e (List.mem_of_mem_filter he)
  have haddresses : { d with selection := selection }.addresses = t'.records := addresses_eq ht'
  have hold := addresses_eq ht
  obtain rfl : a = v.2 := hkey
  obtain ⟨x, hx, hrange⟩ := hmaintained.index ()
  have hlookup : d.selection.session.table.lookup record = some v :=
    (Table.lookup_eq_some hd.selection.nodup).mpr hv
  have hlocate : d.addressFor m v.2 = some (found, isNew) := addressFor_eq ht hfor
  have hcode : d.deselect m record =
      if (x.equalRange v.2).isEmpty then { d with selection := selection }.addressRemoved m found
      else { d with selection := selection }.addressModified m found := by
    simp only [deselect, hlookup, Option.bind_some, hlocate, hdrop, hx]
  -- the address was there: the removed record had it
  have hfound : (found, v.2) ∈ t.records := hd.selection.found hv ht hlocated
  rw [hcode, ← hrecords]
  by_cases hempty : (x.equalRange v.2).isEmpty
  · -- the last of its address: the address goes
    rw [if_pos hempty]
    have hgone : new = none := by
      refine hnone fun e he hsame => ?_
      have hin := ((hrange v.2).2 e.1).mpr ⟨e.2, he, hsame⟩
      rw [List.isEmpty_iff.mp hempty] at hin
      exact List.not_mem_nil hin
    rw [hgone] at hreplaces
    refine of_selection (addressRemoved_upheld hd hs ?_ m)
    intro e
    rw [haddresses, hold, hreplaces.gone e, List.mem_filter, decide_eq_true_eq]
    exact and_congr_right fun he => not_congr (hkeyed.handle_iff hfound he).symm
  · -- others have it: it is committed again
    rw [if_neg hempty]
    have hleft : ∃ e ∈ selection.records, byAddress.ukey e.2 = v.2 := by
      obtain ⟨j, hj⟩ := List.exists_mem_of_ne_nil _ (mt List.isEmpty_iff.mpr hempty)
      obtain ⟨w, hw, hsame⟩ := ((hrange v.2).2 j).mp hj
      exact ⟨_, hw, hsame⟩
    obtain ⟨items, rfl⟩ := hsome hleft
    refine of_selection (addressModified_upheld hd hs ?_ m)
    rw [haddresses, hold]
    exact hreplaces.same hfound rfl hkeyed.unique

/-- **The selection is cleared.** -/
theorem clear_upheld {h : Hierarchy K} {d : Derived K} (hd : Upheld h d) (m : DerivedMaker K) :
    ∃ d', d.clear m = some d' ∧ d'.selection.records = [] ∧ Upheld h d' := by
  obtain ⟨selection, hclear, hmaintained, hrecords, hdirty⟩ := hd.selection.clear m.addresses
  obtain ⟨callers, hcallers, htied⟩ := hd.callers.cleared m.callers
  obtain ⟨callees, hcallees, htied'⟩ := hd.callees.cleared m.callees
  obtain ⟨t, ht, _⟩ := exists_addresses hd.selection
  have hnone : (⟨d.calls, selection, callers, callees⟩ : Derived K).addresses = [] := by
    have hcleared := Option.some.inj hclear
    rw [addresses, ← hcleared]
    show ((d.selection.aggregate.map Table.clear).map Table.records).getD [] = []
    rw [ht]
    rfl
  refine ⟨⟨d.calls, selection, callers, callees⟩, ?_, hrecords, hd.grown, hd.calls, hd.nodes,
    hd.dirty, hmaintained, hdirty, ?_, ?_, ?_⟩
  · simp only [clear, hclear, Option.bind_some, hcallers, hcallees, Option.map_some]
  · rw [hrecords]
    exact nofun
  · rw [hnone]
    exact htied
  · rw [hnone]
    exact htied'

/-! ## The creation -/

omit [DecidableEq K] [Zero K] in
/-- A table of records with no index yet. -/
theorem bare_consistent {records : List (Handle × Node K)} (h : (records.map Prod.fst).Nodup) :
    (⟨records, fun _ => none, []⟩ : Table CallIndex (Node K) (CallKeys K)).Consistent [] where
  nodup := h
  live := fun _ hmem => absurd hmem List.not_mem_nil
  ordered := List.nodup_nil
  obtained := fun _ => ⟨fun hsome => absurd hsome Bool.false_ne_true,
    fun hmem => absurd hmem List.not_mem_nil⟩
  exact := fun _ _ hx => absurd hx (Option.some_ne_none _).symm

/-- **The joins' indexes** of the calls come after the one of `flat`. -/
theorem indexed_calls (records : List (Handle × Node K)) (i : CallIndex) :
    ((((⟨records, fun _ => none, []⟩ : Table CallIndex (Node K) (CallKeys K)).component .flat
      byAddressThread.ukey .hashed).component .callers Node.address .hashed).component .callees
      Node.parentAddress .hashed).keyerOf i = some (callKeyers i) := by
  cases i with
  | flat => exact congrArg some (Index.keyer_ofRecords _ _ _)
  | callers => exact congrArg some (Index.keyer_ofRecords _ _ _)
  | callees => exact congrArg some (Index.keyer_ofRecords _ _ _)

/-- **The tables are created** over whatever calls there are: `flat` is populated, the rest is empty
    as nothing is selected. -/
theorem create_upheld {h : Hierarchy K} (hg : h.Grown) (m : DerivedMaker K) :
    ∃ d, create m h = some d ∧ d.selection.records = [] ∧ Upheld h d := by
  have hbare := bare_consistent hg.nodup_nodes
  obtain ⟨flat, hflat, _, hkeyed, hmirrors⟩ := Grouped.groupBy_tracks (u := CallIndex.flat)
    (g := byAddressThread) hbare nofun m.flat h.dirty
  have hindexed := indexed_calls h.nodes
  have hkeyed' : Keyed byAddress (Table.empty.component () byAddress.akey .hashed) :=
    Grouped.empty_keyed (u := ()) (K := fun _ : Unit => K)
  have hempty : (Table.empty : Table Unit (Nat × K) fun _ => K).Consistent [] :=
    Table.empty_consistent
  refine ⟨_, congrArg (Option.map _) hflat, rfl, hg, ⟨⟨?_, ?_, ?_⟩, rfl, rfl, hindexed⟩, ?_,
    List.Subset.refl _, ⟨⟨?_, ?_, ?_⟩, rfl, rfl, fun _ => rfl⟩, rfl,
    fun _ he => absurd he List.not_mem_nil, GroupedJoin.new_tied _ _, GroupedJoin.new_tied _ _⟩
  · exact ((hbare.component .flat _ .hashed).component .callers _ .hashed).component .callees _
      .hashed
  · intro k hk
    exact Option.some.inj (hk.symm.trans (hindexed .flat))
  · rintro _ ⟨⟩
    refine ⟨hindexed .flat, hkeyed, ?_⟩
    rw [Table.settled_nil] at hmirrors ⊢
    rw [Table.records_component, Table.records_component]
    exact hmirrors
  · show (Table.component _ _ _ _).records = _
    rw [Table.records_component, Table.records_component, Table.records_component]
  · exact hempty.component () byAddress.ukey .hashed
  · rintro k ⟨⟩
    rfl
  · rintro _ ⟨⟩
    exact ⟨rfl, hkeyed', nofun, nofun, nofun, nofun⟩

/-! ## What the tables are, with nothing left uncommitted -/

omit [Zero K] in
/-- What `addresses` holds: the addresses of the selected records. -/
theorem mem_addresses {d : Derived K} (h : SelectionMaintained d.selection)
    (hdirty : d.selection.dirty = []) (a : K) :
    a ∈ d.addresses.map Prod.snd ↔ ∃ e ∈ d.selection.records, e.2.2 = a := by
  obtain ⟨t, ht, _, hkeys, _, _⟩ := h.exact hdirty
  rw [addresses_eq ht, List.mem_map]
  exact hkeys a

omit [Zero K] in
/-- An address has one record. -/
theorem addresses_unique {d : Derived K} (h : SelectionMaintained d.selection) :
    ∀ e ∈ d.addresses, ∀ e' ∈ d.addresses, id e.2 = id e'.2 → e = e' := by
  obtain ⟨t, ht, hkeyed⟩ := exists_addresses h
  rw [addresses_eq ht]
  exact hkeyed.unique

end Derived

end

/-- `table` has one record for each key (`k` and the thread) of `nodes`, with their totals. -/
structure TotalsBy [DecidableEq K] (k : Node K → K) (nodes : List (Node K))
    (table : List (CallStatistics K)) : Prop where
  /-- one record for each key -/
  nodup : (table.map fun r => (r.address, r.threadId)).Nodup
  /-- for those in use -/
  keys : ∀ a t, (∃ r ∈ table, r.address = a ∧ r.threadId = t) ↔
    ∃ n ∈ nodes, k n = a ∧ n.record.threadId = t
  /-- with the totals of those that have it -/
  stats : ∀ r ∈ table,
    r.stats = totals (nodes.filter fun n => k n = r.address ∧ n.record.threadId = r.threadId)

section

variable [DecidableEq K]

/-- **A computed record has the totals** of its group. -/
theorem stats_of_computed {k : Node K → K} {sources : List (Handle × Node K)}
    {r : CallStatistics K} (h : (byThread k).Computed sources r) :
    r.stats = totals ((sources.map Prod.snd).filter fun n =>
      k n = r.address ∧ n.record.threadId = r.threadId) := by
  obtain ⟨a₀, items, heq, _, hitems⟩ := h
  have hstats : r.stats = totals items := by
    rw [heq]
    exact sumFlat_stats a₀ items
  have hgroup : (byThread k).group sources ((byThread k).akey r) =
      (sources.map Prod.snd).filter fun n => k n = r.address ∧ n.record.threadId = r.threadId := by
    unfold Lib.Aggregation.group
    rw [List.filter_map]
    congr 1
    apply List.filter_congr
    intro e _
    rw [Function.comp_apply, decide_eq_decide]
    exact Prod.mk_inj
  rw [hstats, totals_perm hitems, hgroup]

/-- **An exact table of aggregates has the totals.** -/
theorem totalsBy_of_computed {k : Node K → K} {sources : List (Handle × Node K)}
    {nodes : List (Node K)} (hnodes : (sources.map Prod.snd).Perm nodes)
    {records : List (Handle × CallStatistics K)}
    (hnodup : (records.map fun r => (byThread k).akey r.2).Nodup)
    (hkeys : ∀ q, (∃ r ∈ records, (byThread k).akey r.2 = q) ↔
      ∃ r ∈ sources, (byThread k).ukey r.2 = q)
    (hcomputed : ∀ r ∈ records, (byThread k).Computed sources r.2) :
    TotalsBy k nodes (records.map Prod.snd) := by
  refine ⟨?_, ?_, ?_⟩
  · rw [List.map_map]
    exact hnodup
  · intro a t
    constructor
    · rintro ⟨r, hr, rfl, rfl⟩
      obtain ⟨e, he, rfl⟩ := List.mem_map.mp hr
      obtain ⟨x, hx, hkey⟩ := (hkeys _).mp ⟨e, he, rfl⟩
      exact ⟨x.2, hnodes.subset (List.mem_map_of_mem hx), Prod.mk.inj hkey⟩
    · rintro ⟨n, hn, rfl, rfl⟩
      obtain ⟨x, hx, rfl⟩ := List.mem_map.mp (hnodes.mem_iff.mpr hn)
      obtain ⟨e, he, hkey⟩ := (hkeys _).mpr ⟨x, hx, rfl⟩
      exact ⟨e.2, List.mem_map_of_mem he, Prod.mk.inj hkey⟩
  · intro r hr
    obtain ⟨e, he, rfl⟩ := List.mem_map.mp hr
    rw [stats_of_computed (hcomputed e he)]
    exact totals_perm (hnodes.filter _)

variable [Zero K]

/-- The derived tables of `nodes`, with the addresses `selected`. -/
structure DerivedFrom (nodes : List (Node K)) (selected : List K) (d : Derived K) : Prop where
  flat : ∃ table, d.calls.aggregate = some table ∧
    TotalsBy Node.address nodes (table.records.map Prod.snd)
  callers : ∃ table, d.callers.aggregate = some table ∧
    TotalsBy Node.parentAddress (nodes.filter fun n => n.address ∈ selected)
      (table.records.map Prod.snd)
  callees : ∃ table, d.callees.aggregate = some table ∧
    TotalsBy Node.address (nodes.filter fun n => n.parentAddress ∈ selected)
      (table.records.map Prod.snd)

/-- **A join of the calls with `addresses`**, grouped: since an address has one record, a call is
    joined once or not at all. -/
theorem grouped_join_exact {h : Hierarchy K} {d : Derived K} (hd : Derived.Upheld h d)
    (k k' : Node K → K) {s : GroupedJoin (Node K) (CallStatistics K) (K × Nat)}
    (hs : GroupedJoin.Tied (byThread k) k' id h.nodes d.addresses [] s) {selected : List K}
    (hselected : ∀ a, a ∈ selected ↔ a ∈ d.addresses.map Prod.snd) :
    ∃ table, s.aggregate = some table ∧
      TotalsBy k ((h.nodes.map Prod.snd).filter fun n => k' n ∈ selected)
        (table.records.map Prod.snd) := by
  obtain ⟨table, htable, hnodup, hkeys, hcomputed⟩ := hs.exact
  refine ⟨table, htable, totalsBy_of_computed ?_ hnodup hkeys hcomputed⟩
  have hperm := (hs.left_perm hd.grown.nodup_nodes
    (Derived.addresses_unique hd.selection)).map Prod.snd
  refine hperm.trans (List.Perm.of_eq ?_)
  rw [List.filter_map]
  congr 1
  apply List.filter_congr
  intro e _
  rw [Function.comp_apply, decide_eq_decide, hselected]
  rfl

/-- **With nothing left uncommitted, every table is what it is defined as.** -/
theorem Derived.Upheld.derivedFrom {h : Hierarchy K} {d : Derived K} (hd : Derived.Upheld h d)
    (hdirty : h.dirty = []) {selected : List K}
    (hselected : ∀ a, a ∈ selected ↔ ∃ e ∈ d.selection.records, e.2.2 = a) :
    DerivedFrom (h.nodes.map Prod.snd) selected d := by
  have haddresses : ∀ a, a ∈ selected ↔ a ∈ d.addresses.map Prod.snd := fun a =>
    (hselected a).trans (Derived.mem_addresses hd.selection hd.committed a).symm
  have hcallers := hd.callers
  have hcallees := hd.callees
  rw [hdirty] at hcallers hcallees
  refine ⟨?_, grouped_join_exact hd _ _ hcallers haddresses,
    grouped_join_exact hd _ _ hcallees haddresses⟩
  have hcommitted : d.calls.dirty = [] := by
    refine List.subset_nil.mp ?_
    rw [← hdirty]
    exact hd.dirty
  obtain ⟨table, htable, _, hkeys, hnodup, hcomputed⟩ := hd.calls.exact hcommitted
  refine ⟨table, htable, totalsBy_of_computed ?_ hnodup hkeys hcomputed⟩
  rw [hd.nodes]

end

/-! ## The system -/

/-- The table of calls, and the tables derived from it once they are created. -/
structure Representation (K : Type) where
  feed : Feed K
  derived : Option (Derived K)

inductive RepresentationAction (K : Type)
  /-- An update of the statistics arrives. -/
  | update (u : Statistics.Update K)
  /-- The next change of the update. -/
  | change (m : DerivedMaker K)
  | create (m : DerivedMaker K)
  /-- an id is added to the selection, in a new record -/
  | select (record : Handle) (id : Nat) (m : DerivedMaker K)
  /-- a record of the selection is removed -/
  | deselect (record : Handle) (m : DerivedMaker K)
  | clear (m : DerivedMaker K)

/-- The selection by what was done to it: the records and the ids they hold. -/
def RepresentationAction.selects (selection : List (Handle × Nat)) :
    RepresentationAction K → List (Handle × Nat)
  | .update _ => selection
  | .change _ => selection
  | .create _ => []
  | .select record id _ => selection ++ [(record, id)]
  | .deselect record _ => selection.filter fun e => e.1 ≠ record
  | .clear _ => []

/-- The addresses of the calls with these ids.  This is the selection as a user means it. -/
def addressesOf (values : List (CallStatistics K)) (selection : List (Handle × Nat)) : List K :=
  selection.filterMap fun e => (findById values e.2).map CallStatistics.address

namespace Representation

variable [DecidableEq K]

/-- No call was read. -/
def new : Representation K := ⟨.new, none⟩

/-- One update after the other; the tables are created once; ids that are in the table are selected
    with new records, and selected records are removed. -/
def Allowed (s : Representation K) : RepresentationAction K → Prop
  | .update _ => s.feed.ahead = []
  | .change _ => s.feed.ahead ≠ []
  | .create _ => s.derived.isNone
  | .select record id _ => (s.derived.any fun d => record ∉ d.selection.handles) ∧
      ∃ r ∈ s.feed.hierarchy.values, r.id = id
  | .deselect record _ => s.derived.any fun d => record ∈ d.selection.handles
  | .clear _ => s.derived.isSome

instance (s : Representation K) (a : RepresentationAction K) : Decidable (s.Allowed a) :=
  match a with
  | .update _ => inferInstanceAs (Decidable (s.feed.ahead = []))
  | .change _ => inferInstanceAs (Decidable (s.feed.ahead ≠ []))
  | .create _ => inferInstanceAs (Decidable (s.derived.isNone = true))
  | .select record id _ => inferInstanceAs (Decidable
      ((s.derived.any fun d => record ∉ d.selection.handles) = true ∧
        ∃ r ∈ s.feed.hierarchy.values, r.id = id))
  | .deselect record _ => inferInstanceAs (Decidable
      ((s.derived.any fun d => record ∈ d.selection.handles) = true))
  | .clear _ => inferInstanceAs (Decidable (s.derived.isSome = true))

variable [Zero K]

def perform (s : Representation K) : RepresentationAction K → Option (Representation K)
  | .update u => (s.feed.update u).map fun feed => { s with feed := feed }
  | .change m =>
      s.feed.advance.bind fun r =>
        -- the slots are there once the tables are created
        (emit (fun d => d.onChange m r.2.hierarchy r.1) s.derived).map fun derived => ⟨r.2, derived⟩
  | .create m => (Derived.create m s.feed.hierarchy).map fun d => { s with derived := some d }
  | .select record id m =>
      s.derived.bind fun d => (d.select m s.feed.hierarchy record id).map fun d =>
        { s with derived := some d }
  | .deselect record m =>
      s.derived.bind fun d => (d.deselect m record).map fun d => { s with derived := some d }
  | .clear m => s.derived.bind fun d => (d.clear m).map fun d => { s with derived := some d }

/-- Only allowed actions are taken. -/
def step (s : Representation K) (a : RepresentationAction K) : Option (Representation K) :=
  if s.Allowed a then s.perform a else none

/-- INVARIANT: the derived tables are upheld, and the selection is what was done to it. -/
structure Steady (selection : List (Handle × Nat)) (s : Representation K) : Prop where
  feed : s.feed.Steady
  /-- ties after each single change, exactness when nothing is ahead -/
  derived : ∀ d, s.derived = some d → Derived.Upheld s.feed.hierarchy d ∧
    (d.selection.records.map fun e => (e.1, e.2.1)) = selection

/-- Nothing to be tied. -/
theorem new_steady : (new : Representation K).Steady [] := ⟨Feed.new_steady, nofun⟩

variable {s : Representation K} {selection : List (Handle × Nat)}

/-- An operation on the derived tables alone. -/
theorem Steady.derive (hs : s.Steady selection) {x : Option (Derived K)}
    {records : List (Handle × Nat × K)} {selection' : List (Handle × Nat)}
    (hx : ∃ d, x = some d ∧ d.selection.records = records ∧ Derived.Upheld s.feed.hierarchy d)
    (hrecords : (records.map fun e => (e.1, e.2.1)) = selection') :
    ∃ s', (x.map fun d => { s with derived := some d }) = some s' ∧ s'.Steady selection' := by
  obtain ⟨d, rfl, rfl, hd⟩ := hx
  refine ⟨{ s with derived := some d }, rfl, hs.feed, ?_⟩
  rintro _ ⟨⟩
  exact ⟨hd, hrecords⟩

/-- The changes are ahead; none was made yet. -/
theorem Steady.update (hs : s.Steady selection) (u : Statistics.Update K)
    (hahead : s.feed.ahead = []) :
    ∃ s', s.perform (.update u) = some s' ∧ s'.Steady selection := by
  obtain ⟨feed, hupdate, hsame, hfeed⟩ := hs.feed.update u hahead
  refine ⟨{ s with feed := feed }, congrArg (Option.map _) hupdate, hfeed, ?_⟩
  rw [hsame]
  exact hs.derived

/-- One of them is made, and the slots are told. -/
theorem Steady.change (hs : s.Steady selection) (m : DerivedMaker K) (hahead : s.feed.ahead ≠ []) :
    ∃ s', s.perform (.change m) = some s' ∧ s'.Steady selection := by
  obtain ⟨c, feed, hadvance, ha, hafter, hfeed⟩ := hs.feed.advance hahead
  have hslot : ∀ d, s.derived = some d → ∃ d', d.onChange m feed.hierarchy c = some d' ∧
      Derived.Upheld feed.hierarchy d' ∧
      (d'.selection.records.map fun e => (e.1, e.2.1)) = selection := by
    intro d hd
    obtain ⟨hupheld, hselection⟩ := hs.derived d hd
    rw [hafter]
    obtain ⟨d', hd', hsame, hupheld'⟩ := Derived.onChange_upheld hupheld ha m
    exact ⟨d', hd', hupheld', by rw [hsame]; exact hselection⟩
  obtain ⟨derived, hemit, hderived⟩ := emit_establishes hslot
  refine ⟨⟨feed, derived⟩, ?_, hfeed, hderived⟩
  unfold Representation.perform
  simp only [hadvance, Option.bind_some, hemit, Option.map_some]

/-- **Every allowed action returns**, and keeps the invariant. -/
theorem Steady.perform (hs : s.Steady selection) {a : RepresentationAction K} (ha : s.Allowed a) :
    ∃ s', s.perform a = some s' ∧ s'.Steady (a.selects selection) := by
  cases a with
  | update u => exact hs.update u ha
  | change m => exact hs.change m ha
  | create m => exact hs.derive (Derived.create_upheld hs.feed.grown m) rfl
  | select record id m =>
    -- the id is in the table, so `hierarchy_address` finds its address
    obtain ⟨hfresh, r, hr, rfl⟩ := ha
    obtain ⟨d, hd, hfresh⟩ := (Option.any_eq_true _ _).mp hfresh
    obtain ⟨hupheld, hselection⟩ := hs.derived d hd
    show ∃ s', s.derived.bind _ = some s' ∧ _
    rw [hd]
    refine hs.derive (Derived.select_upheld hupheld (of_decide_eq_true hfresh) hr m) ?_
    rw [List.map_append, hselection]
    rfl
  | deselect record m =>
    obtain ⟨d, hd, hlive⟩ := (Option.any_eq_true _ _).mp ha
    obtain ⟨hupheld, hselection⟩ := hs.derived d hd
    show ∃ s', s.derived.bind _ = some s' ∧ _
    rw [hd]
    refine hs.derive (Derived.deselect_upheld hupheld (of_decide_eq_true hlive) m) ?_
    show _ = selection.filter _
    rw [← hselection, List.filter_map]
    rfl
  | clear m =>
    obtain ⟨d, hd⟩ := Option.isSome_iff_exists.mp ha
    obtain ⟨hupheld, _⟩ := hs.derived d hd
    show ∃ s', s.derived.bind _ = some s' ∧ _
    rw [hd]
    exact hs.derive (Derived.clear_upheld hupheld m) rfl

/-- **Any run**, with the selection that was made in it. -/
theorem run_steady : ∀ (actions : List (RepresentationAction K)) (s s' : Representation K)
    (selection : List (Handle × Nat)), s.Steady selection → Lib.run step s actions = some s' →
      s'.Steady (actions.foldl RepresentationAction.selects selection) := by
  intro actions
  induction actions with
  | nil =>
    intro s s' selection hs hrun
    exact Option.some.inj hrun ▸ hs
  | cons a actions ih =>
    intro s s' selection hs hrun
    obtain ⟨s₁, hstep, hrest⟩ := Lib.run_cons_eq_some.mp hrun
    have hsteady : s₁.Steady (a.selects selection) :=
      Lib.of_allowed (fun ha => hs.perform ha) hstep
    exact ih s₁ s' _ hsteady hrest

end Representation

variable [DecidableEq K]

/-- The addresses of the ids are those the selection holds: ids are unique. -/
theorem mem_addressesOf [Zero K] {h : Hierarchy K} {d : Derived K} (hd : Derived.Upheld h d) (a : K) :
    a ∈ addressesOf h.values (d.selection.records.map fun e => (e.1, e.2.1)) ↔
      ∃ e ∈ d.selection.records, e.2.2 = a := by
  unfold addressesOf
  rw [List.mem_filterMap]
  have hfound : ∀ e ∈ d.selection.records,
      (findById h.values e.2.1).map CallStatistics.address = some e.2.2 := by
    intro e he
    obtain ⟨r, hr, hid, haddress⟩ := hd.selected e he
    rw [← hid, hd.grown.rooted.findById hr, ← haddress]
    rfl
  constructor
  · rintro ⟨x, hx, hmap⟩
    obtain ⟨e, he, rfl⟩ := List.mem_map.mp hx
    exact ⟨e, he, Option.some.inj ((hfound e he).symm.trans hmap)⟩
  · rintro ⟨e, he, rfl⟩
    exact ⟨_, List.mem_map_of_mem he, hfound e he⟩

/-- **Derived function tables are exact.**  In any run of updates, of the changes they are made of,
    and of changes of the selection to ids that are in the table, in any order, the tables being
    created at any point, every next action returns.  Whenever no change of an update is ahead, with
    `nodes` the calls and their ancestors: `flat` has one record for each address and thread;
    `callers` groups the calls of the selected addresses by their parents' address (the null one for
    a root) and thread; `callees` groups those whose parent's address is selected by address and
    thread; each record with the `totals` of its group. -/
theorem derived_tables_exact [Zero K] (actions : List (RepresentationAction K))
    (s : Representation K) (h : Lib.run Representation.step .new actions = some s) :
    (∀ a, s.Allowed a → ∃ s', s.perform a = some s') ∧
    ∀ d, s.derived = some d → s.feed.ahead = [] →
      ∃ nodes : List (Node K), nodes.map Node.record = s.feed.statistics.values ∧
        (∀ n ∈ nodes, Lineage s.feed.statistics.values n.record n.up ∧ n.parentAddress =
          ((findById s.feed.statistics.values n.record.parentId).map CallStatistics.address).getD 0) ∧
        DerivedFrom nodes
          (addressesOf s.feed.statistics.values (actions.foldl RepresentationAction.selects [])) d := by
  have hs := Representation.run_steady actions .new s [] Representation.new_steady h
  refine ⟨fun a ha => ?_, ?_⟩
  · -- the next action returns
    obtain ⟨s', hs', _⟩ := hs.perform ha
    exact ⟨s', hs'⟩
  · -- nothing is ahead, so that nothing is uncommitted
    intro d hd hahead
    obtain ⟨hupheld, hselection⟩ := hs.derived d hd
    have hseen := hs.feed.seen hahead
    have hg := hs.feed.grown
    rw [hseen] at hupheld hg
    refine ⟨(s.feed.statistics.observed []).nodes.map Prod.snd, hg.record_nodes, ?_, ?_⟩
    · intro n hn
      obtain ⟨⟨x, n⟩, he, rfl⟩ := List.mem_map.mp hn
      have hup := (hg.mem_nodes.mp he).2
      exact ⟨hup, Node.parentAddress_eq hg.rooted hup⟩
    · refine hupheld.derivedFrom rfl ?_
      intro a
      rw [← hselection]
      exact mem_addressesOf hupheld a

/-- Allocators whose addresses only grow, and constructors that leave everything zero. -/
def DerivedMaker.blank : DerivedMaker Nat where
  flat := .ascending fun _ => ⟨0, 0, 0, 0, {}⟩
  addresses := .ascending fun _ => 0
  callers := ⟨.ascending fun _ => (), .ascending fun _ => ⟨0, 0, 0, 0, {}⟩⟩
  callees := ⟨.ascending fun _ => (), .ascending fun _ => ⟨0, 0, 0, 0, {}⟩⟩

/-- Function 10 calls 20, which calls 10 again; the inner 10 is selected half way through. -/
def recursion : List (RepresentationAction Nat) :=
  let m : DerivedMaker Nat := .blank
  let inner : NodesMap Nat := .cons 10 ⟨1, 5, 5, 5⟩ .nil .nil
  let outer : NodesMap Nat := .cons 10 ⟨1, 20, 11, 20⟩ (.cons 20 ⟨1, 9, 4, 9⟩ inner .nil) .nil
  let change : RepresentationAction Nat := .change m
  [.update (.ascending fun _ => (0, 0, 0), [(1, outer)]), change, change, .create m, change, change,
    change, change, change, .select 7 3 m, change, change]

theorem derived_tables_exact_recursion :
    ∃ s d nodes flat, Lib.run Representation.step .new recursion = some s ∧ s.derived = some d ∧
      s.feed.ahead = [] ∧ DerivedFrom nodes [10] d ∧ d.calls.aggregate = some flat ∧
      (flat.records.map fun e => (e.2.address, e.2.stats)) =
        [(10, ⟨2, 20, 16, 20⟩), (20, ⟨1, 9, 4, 9⟩)] := by
  have hsummary : (Lib.run Representation.step .new recursion).bind (fun s => s.derived.map fun d =>
      (s.feed.ahead.isEmpty, addressesOf s.feed.statistics.values (recursion.foldl RepresentationAction.selects []),
        d.calls.aggregate.map fun flat =>
          flat.records.map fun e => (e.2.address, e.2.stats))) =
      some (true, [10], some [(10, ⟨2, 20, 16, 20⟩), (20, ⟨1, 9, 4, 9⟩)]) := by
    decide +kernel
  obtain ⟨s, hrun, hs⟩ := Option.bind_eq_some_iff.mp hsummary
  obtain ⟨d, hd, hs⟩ := Option.map_eq_some_iff.mp hs
  obtain ⟨hahead, hs⟩ := Prod.mk.inj hs
  obtain ⟨hselected, hflat⟩ := Prod.mk.inj hs
  obtain ⟨flat, hflat, hrecords⟩ := Option.map_eq_some_iff.mp hflat
  obtain ⟨nodes, _, _, hderived⟩ := (derived_tables_exact recursion s hrun).2 d hd
    (List.isEmpty_iff.mp hahead)
  rw [hselected] at hderived
  exact ⟨s, d, nodes, flat, hrun, hd, List.isEmpty_iff.mp hahead, hderived, hflat, hrecords⟩

end MicroProfiler.Frontend
