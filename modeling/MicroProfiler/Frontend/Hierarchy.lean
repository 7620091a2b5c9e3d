/-
  The table of calls as its observers see it: `call_statistics::path`, `reentrance` and
  `keyer::callstack` over a table that is being read into.

  1. **Changes** — reading an update (`readNodesTraced`) is a sequence of `Change`s: a record is
     committed new, is written to in place, or is committed again.  After each of them observers may
     run.  `Hierarchy.step` says which change is allowed in which table; the reader makes allowed
     changes only, and leaves nothing written and not committed (`Sound.deserialize_traced`).

  2. **The forest** (`Grown`) — the INVARIANT of every sequence of allowed changes: ids and keys are
     unique, and a parent precedes its children, in their thread.  A record's `Lineage`, its
     ancestors up to the root, never changes.

  3. **Walks** — `walk` is the loop of `initialize_path`, to a depth; from the depth of a record's
     id on it ends, with the lineage (`walk_lineage`), and so does `key_append`.

  4. **Cached paths** (`Observed.forest`) — queries between any two changes.

  Ids are counted without a bound here; what becomes of them in 32 bits is in `RecordIds`.
-/
import MicroProfiler.Frontend.StatisticsTable

namespace MicroProfiler.Frontend

open Sdb

variable {K : Type}

/-- What is done to the table of calls, one step at a time. -/
inductive Change (K : Type)
  /-- A new record is committed. -/
  | created (record : Handle) (value : CallStatistics K)
  /-- A record is assigned to in place. -/
  | written (record : Handle) (value : CallStatistics K)
  /-- A record that was there is committed. -/
  | modified (record : Handle)
deriving DecidableEq, Repr

/-- The committed records, the constructor's next id, and the records written to and not committed
    since. -/
structure Hierarchy (K : Type) where
  /-- in the order they were committed -/
  records : List (Handle × CallStatistics K)
  nextId : Nat
  /-- what observers have not been told of yet -/
  dirty : List Handle

/-- `unique_index<id>(table).find(id)`.  Ids are unique, so that the first found is the only one. -/
def findById (values : List (CallStatistics K)) (id : Nat) : Option (CallStatistics K) :=
  values.find? fun r => r.id = id

/-- The parent is there, in the same thread. -/
def Under (values : List (CallStatistics K)) (r : CallStatistics K) : Prop :=
  r.parentId = 0 ∨ ∃ parent ∈ values, parent.id = r.parentId ∧ parent.threadId = r.threadId

instance (values : List (CallStatistics K)) (r : CallStatistics K) : Decidable (Under values r) :=
  inferInstanceAs (Decidable (_ ∨ _))

namespace Hierarchy

/-- Ids begin with 1: 0 is the parent of roots. -/
def new : Hierarchy K := ⟨[], 1, []⟩

def handles (h : Hierarchy K) : List Handle := h.records.map Prod.fst

def values (h : Hierarchy K) : List (CallStatistics K) := h.records.map Prod.snd

/-- A new record has the next id, a key of its own, and comes after its parent; a record is written
    to in its statistics. -/
def Allowed (h : Hierarchy K) : Change K → Prop
  | .created record r => record ∉ h.handles ∧ r.id = h.nextId ∧ Under h.values r ∧
      ∀ x ∈ h.values, callnode x ≠ callnode r
  | .written record r => ∃ e ∈ h.records, e.1 = record ∧ { e.2 with stats := r.stats } = r
  | .modified record => record ∈ h.handles

instance [DecidableEq K] (h : Hierarchy K) (c : Change K) : Decidable (h.Allowed c) :=
  match c with
  | .created record r => inferInstanceAs (Decidable (record ∉ h.handles ∧ r.id = h.nextId ∧
      Under h.values r ∧ ∀ x ∈ h.values, callnode x ≠ callnode r))
  | .written record r => inferInstanceAs (Decidable (∃ e ∈ h.records, e.1 = record ∧
      { e.2 with stats := r.stats } = r))
  | .modified record => inferInstanceAs (Decidable (record ∈ h.handles))

/-- What a change makes of the table. -/
def apply (h : Hierarchy K) : Change K → Hierarchy K
  | .created record r => { h with records := h.records ++ [(record, r)], nextId := h.nextId + 1 }
  -- nothing is signalled for an assignment: observers learn of it at the commit
  | .written record r =>
      { h with
        records := h.records.map fun e => if e.1 = record then (record, r) else e
        dirty := record :: h.dirty }
  | .modified record => { h with dirty := h.dirty.filter fun d => d ≠ record }

/-- Only allowed changes are made. -/
def step [DecidableEq K] (h : Hierarchy K) (c : Change K) : Option (Hierarchy K) :=
  if h.Allowed c then some (h.apply c) else none

/-- A change that is made is an allowed one. -/
theorem step_eq_some [DecidableEq K] {h h' : Hierarchy K} {c : Change K} :
    h.step c = some h' ↔ h.Allowed c ∧ h.apply c = h' := by
  unfold step
  split
  · next ha => exact ⟨fun heq => ⟨ha, Option.some.inj heq⟩, fun heq => congrArg some heq.2⟩
  · next hna => exact ⟨nofun, fun heq => absurd heq.1 hna⟩

/-- No record comes or goes with a write. -/
theorem handles_written (h : Hierarchy K) (record : Handle) (r : CallStatistics K) :
    (h.apply (.written record r)).handles = h.handles := by
  show (h.records.map _).map Prod.fst = h.records.map Prod.fst
  rw [List.map_map]
  apply List.map_congr_left
  intro e _
  show (if e.1 = record then (record, r) else e).1 = e.1
  split
  · next heq => exact heq.symm
  · rfl

/-- Records stay. -/
theorem run_live [DecidableEq K] {x : Handle} : ∀ (changes : List (Change K)) (h h' : Hierarchy K),
    x ∈ h.handles → Lib.run step h changes = some h' → x ∈ h'.handles := by
  refine Lib.run_invariant ?_
  intro h c h' hx hstep
  obtain ⟨_, rfl⟩ := step_eq_some.mp hstep
  cases c with
  | created record r =>
    show x ∈ (h.records ++ [(record, r)]).map Prod.fst
    rw [List.map_append]
    exact List.mem_append_left _ hx
  | written record r =>
    rw [handles_written]
    exact hx
  | modified record => exact hx

end Hierarchy

/-! ## The reader, step by step -/

namespace Statistics

variable [DecidableEq K]

/-- `touch`, with the change it is.  A record that was there is committed again. -/
def touchTraced (m : Maker (CallNodeKey K)) (s : Statistics K) (key : CallNodeKey K) :
    Option (Statistics K × List (Change K)) :=
  (s.subscript m key).bind fun r => (r.1.table.lookup r.2.1).bind fun value =>
    (r.1.commit r.2.1 r.2.2).map fun s =>
      (s, [if r.2.2 then .created r.2.1 value else .modified r.2.1])

/-- `readNodes`, with the changes it makes. -/
def readNodesTraced (m : Maker (CallNodeKey K)) (threadId : Nat) :
    NodesMap K → Nat → Statistics K → Option (Statistics K × List (Change K))
  | .nil, _, s => some (s, [])
  | .cons address v callees rest, parentId, s =>
      (s.touchTraced m (threadId, parentId, address)).bind fun touched =>
      (touched.1.subscript m (threadId, parentId, address)).bind fun r =>
      (r.1.table.lookup r.2.1).bind fun data =>
      -- the record is written to before its callees are read, and committed after them
      let value := { data with stats := data.stats.add v }
      (readNodesTraced m threadId callees data.id (r.1.write r.2.1 value)).bind fun below =>
      (below.1.commit r.2.1 r.2.2).bind fun s =>
      (readNodesTraced m threadId rest parentId s).map fun after =>
        (after.1, touched.2 ++ .written r.2.1 value :: below.2 ++ .modified r.2.1 :: after.2)

/-- `readThread`, with the changes it makes. -/
def readThreadTraced (m : Maker (CallNodeKey K)) (s : Reading K × List (Change K))
    (item : Nat × NodesMap K) : Option (Reading K × List (Change K)) :=
  (readNodesTraced m item.1 item.2 0 s.1.1).map fun r =>
    ((r.1, (if s.1.2.2 then [] else s.1.2.1) ++ [item.1], false), s.2 ++ r.2)

/-- `deserialize`, with the changes it makes. -/
def deserializeTraced (m : Maker (CallNodeKey K)) (s : Statistics K) (threads : List Nat)
    (stream : List (Nat × NodesMap K)) : Option ((Statistics K × List Nat) × List (Change K)) :=
  (Lib.run (readThreadTraced m) ((s.indexed, threads, true), []) stream).map fun r =>
    ((r.1.1, r.1.2.1), r.2)

/-- The table as its observers see it: records and next id, without the index. -/
def observed (s : Statistics K) (dirty : List Handle) : Hierarchy K :=
  ⟨s.table.records, s.nextId, dirty⟩

omit [DecidableEq K] in
/-- The commit of a record that was there leaves the table as it is. -/
theorem commit_false {s : Statistics K} (hs : Ready s) (h : Handle) : s.commit h false = some s := by
  show some { s with table := s.table.commitModification h } = some s
  rw [hs.consistent.commitModification]

/-- One change, as a run. -/
theorem run_single {h h' : Hierarchy K} {c : Change K} (ha : h.Allowed c) (heq : h.apply c = h') :
    Lib.run Hierarchy.step h [c] = some h' :=
  Lib.run_cons_eq_some.mpr ⟨h', Hierarchy.step_eq_some.mpr ⟨ha, heq⟩, rfl⟩

/-- **`container[key].commit()`** is an allowed change. -/
theorem Ready.touch_traced {s : Statistics K} (hs : Ready s) (m : Maker (CallNodeKey K))
    {t parentId : Nat} {p : List K} (hp : At s.values t p parentId) (k : K) (dirty : List Handle) :
    ∃ s' h r changes dirty', s.touchTraced m (t, parentId, k) = some (s', changes) ∧
      s.touch m (t, parentId, k) = some s' ∧ callnode r = (t, parentId, k) ∧
      Touched s s' t (p ++ [k]) h r ∧ dirty' ⊆ dirty ∧
      Lib.run Hierarchy.step (s.observed dirty) changes = some (s'.observed dirty') := by
  unfold touchTraced Statistics.touch
  rcases hs.subscript m (t, parentId, k) with ⟨h, r, heq, hmem, hkey⟩ |
    ⟨h, r, heq, hfresh, hid, hstats, hkey, hnone⟩
  · -- found: committed again
    have hlookup := (Table.lookup_eq_some hs.consistent.nodup).mpr hmem
    refine ⟨s, h, r, [.modified h], dirty.filter fun d => d ≠ h, ?_, ?_, hkey,
      touched_found hs hp hmem hkey, List.filter_subset_self _, ?_⟩
    · simp only [heq, Option.bind_some, hlookup, commit_false hs]
      rfl
    · rw [heq]
      exact commit_false hs h
    · exact run_single (List.mem_map_of_mem hmem) rfl
  · -- created: its parent is where the path leads
    obtain ⟨s', hcommit, hrecords, hnext, htouched⟩ :=
      touched_created hs hp hfresh hid hstats hkey (hkey ▸ hnone)
    have hlookup : (s.table.create h r).lookup h = some r := by
      refine (Table.lookup_eq_some (hs.consistent.create hfresh r).nodup).mpr ?_
      exact List.mem_append_right _ (List.mem_singleton.mpr rfl)
    refine ⟨s', h, r, [.created h r], dirty, ?_, ?_, hkey, htouched, List.Subset.refl _, ?_⟩
    · simp only [heq, Option.bind_some, hlookup, hcommit]
      rfl
    · rw [heq]
      exact hcommit
    · obtain ⟨ht, hparent, hk⟩ := callnode_eq hkey
      have hunder : Under s.values r := by
        rcases hp.cases with hzero | ⟨x, hx, hxid, hxthread⟩
        · exact Or.inl (hparent.trans hzero)
        · exact Or.inr ⟨x, hx, hxid.trans hparent.symm, hxthread.trans ht.symm⟩
      refine run_single ⟨hfresh, hid, hunder, hkey ▸ hnone⟩ ?_
      show Hierarchy.mk (s.table.records ++ [(h, r)]) (s.nextId + 1) dirty = _
      rw [← hrecords, ← hnext]
      rfl

/-- **Reading a map of callees** makes allowed changes, and commits what it writes.  By induction on
    the map; what is dirty around it stays so. -/
theorem readNodes_traced (m : Maker (CallNodeKey K)) (t : Nat) (nodes : NodesMap K) :
    ∀ (base : List K) (parentId : Nat) (s : Statistics K) (dirty : List Handle), Ready s →
      At s.values t base parentId →
      ∃ s' changes dirty', readNodesTraced m t nodes parentId s = some (s', changes) ∧
        readNodes m t nodes parentId s = some s' ∧ Ready s' ∧
        (∀ t p i, At s.values t p i → At s'.values t p i) ∧ dirty' ⊆ dirty ∧
        Lib.run Hierarchy.step (s.observed dirty) changes = some (s'.observed dirty') := by
  induction nodes with
  | nil =>
    intro base parentId s dirty hs _
    exact ⟨s, [], dirty, rfl, rfl, hs, fun _ _ _ h => h, List.Subset.refl _, rfl⟩
  | cons k v callees rest ihc ihr =>
    intro base parentId s dirty hs hp
    obtain ⟨s₁, h, r, changes₁, dirty₁, htouched₁, htouch, hkey, htouched, hdirty₁, hrun₁⟩ :=
      hs.touch_traced m hp k dirty
    have hsubscript := htouched.subscript m
    rw [hkey] at hsubscript
    obtain ⟨hready, hmono, hpath, _⟩ := htouched.add hs v
    -- the callees are read while the record itself is dirty
    obtain ⟨s₂, changes₂, dirty₂, hcallees₁, hcallees, hready₂, hmono₂, hdirty₂, hrun₂⟩ :=
      ihc (base ++ [k]) r.id _ (h :: dirty₁) hready hpath
    have hcommit := commit_false hready₂ h
    obtain ⟨s₃, changes₃, dirty₃, hrest₁, hrest, hready₃, hmono₃, hdirty₃, hrun₃⟩ :=
      ihr base parentId s₂ (dirty₂.filter fun d => d ≠ h) hready₂ (hmono₂ _ _ _ (hmono _ _ _ hp))
    have hlookup : s₁.table.lookup h = some r :=
      (Table.lookup_eq_some htouched.ready.consistent.nodup).mpr htouched.record
    refine ⟨s₃, changes₁ ++ .written h { r with stats := r.stats.add v } :: changes₂ ++
      .modified h :: changes₃, dirty₃, ?_, ?_, hready₃,
      fun t p i h => hmono₃ t p i (hmono₂ t p i (hmono t p i h)), ?_, ?_⟩
    · simp only [readNodesTraced, htouched₁, hsubscript, Option.bind_some, hlookup, hcallees₁,
        hcommit, hrest₁]
      rfl
    · simp only [readNodes, htouch, hsubscript, Option.bind_some, hlookup, hcallees, hcommit, hrest]
    · -- what is dirty after it was dirty before
      intro d hd
      obtain ⟨hd₂, hne⟩ := List.mem_filter.mp (hdirty₃ hd)
      rcases List.mem_cons.mp (hdirty₂ hd₂) with rfl | hd₁
      · exact absurd rfl (of_decide_eq_true hne)
      · exact hdirty₁ hd₁
    · -- touched, written, the callees, committed, the rest
      have hwritten : Lib.run Hierarchy.step (s₁.observed dirty₁)
          [.written h { r with stats := r.stats.add v }] =
          some ((s₁.write h { r with stats := r.stats.add v }).observed (h :: dirty₁)) :=
        run_single ⟨(h, r), htouched.record, rfl, rfl⟩ rfl
      have hlive : h ∈ ((s₁.write h { r with stats := r.stats.add v }).observed
          (h :: dirty₁)).handles := by
        show h ∈ (s₁.table.write h _).handles
        rw [Table.handles_write]
        exact List.mem_map_of_mem htouched.record
      have hmodified : Lib.run Hierarchy.step (s₂.observed dirty₂) [.modified h] =
          some (s₂.observed (dirty₂.filter fun d => d ≠ h)) :=
        run_single (Hierarchy.run_live changes₂ _ _ hlive hrun₂) rfl
      rw [List.append_assoc, List.cons_append, List.append_cons, List.append_cons changes₂]
      exact Lib.run_append_eq_some.mpr ⟨_, Lib.run_append_eq_some.mpr ⟨_, hrun₁, hwritten⟩,
        Lib.run_append_eq_some.mpr ⟨_, Lib.run_append_eq_some.mpr ⟨_, hrun₂, hmodified⟩, hrun₃⟩⟩

/-- **Reading the threads** makes allowed changes; between two of them nothing is dirty. -/
theorem readThreads_traced (m : Maker (CallNodeKey K)) : ∀ (stream : List (Nat × NodesMap K))
    (s : Reading K) (done : List (Change K)), Ready s.1 →
      ∃ s' changes, Lib.run (readThreadTraced m) (s, done) stream = some (s', done ++ changes) ∧
        Lib.run (readThread m) s stream = some s' ∧ Ready s'.1 ∧
        Lib.run Hierarchy.step (s.1.observed []) changes = some (s'.1.observed []) := by
  intro stream
  induction stream with
  | nil => exact fun s done hs => ⟨s, [], by rw [List.append_nil]; rfl, rfl, hs, rfl⟩
  | cons item stream ih =>
    intro s done hs
    obtain ⟨table, changes₁, dirty, htraced, hread, hready, _, hdirty, hrun₁⟩ :=
      readNodes_traced m item.1 item.2 [] 0 s.1 [] hs .root
    obtain rfl : dirty = [] := List.subset_nil.mp hdirty
    obtain ⟨s', changes₂, hrun, hrun', hready', hrun₂⟩ :=
      ih (table, (if s.2.2 then [] else s.2.1) ++ [item.1], false) (done ++ changes₁) hready
    rw [List.append_assoc] at hrun
    refine ⟨s', changes₁ ++ changes₂, Lib.run_cons_eq_some.mpr ⟨_, ?_, hrun⟩,
      Lib.run_cons_eq_some.mpr ⟨_, ?_, hrun'⟩, hready', Lib.run_append_eq_some.mpr ⟨_, hrun₁, hrun₂⟩⟩
    · unfold readThreadTraced
      rw [htraced]
      rfl
    · unfold readThread
      rw [hread]
      rfl

/-- **An update** makes allowed changes, and commits what it writes. -/
theorem Sound.deserialize_traced {s : Statistics K} (hs : Sound s) (m : Maker (CallNodeKey K))
    (threads : List Nat) (stream : List (Nat × NodesMap K)) :
    ∃ s' threads' changes,
      deserializeTraced m s threads stream = some ((s', threads'), changes) ∧
      Statistics.deserialize m s threads stream = some (s', threads') ∧ Sound s' ∧
      Lib.run Hierarchy.step (s.observed []) changes = some (s'.observed []) := by
  obtain ⟨hready, _⟩ := hs.indexed
  obtain ⟨⟨s', threads', first⟩, changes, htraced, hread, hready', hrun⟩ :=
    readThreads_traced m stream (s.indexed, threads, true) [] hready
  refine ⟨s', threads', changes, ?_, ?_, hready'.sound, ?_⟩
  · unfold deserializeTraced
    rw [htraced]
    rfl
  · unfold Statistics.deserialize
    rw [hread]
    rfl
  · have hrecords : s.indexed.table.records = s.table.records := Table.records_component ..
    rw [show s.observed [] = s.indexed.observed [] by unfold observed; rw [hrecords]; rfl]
    exact hrun

end Statistics

/-! ## The forest -/

namespace Hierarchy

/-- INVARIANT: a forest, in the order of the ids. -/
structure Grown (h : Hierarchy K) : Prop where
  /-- ids and keys are unique, parents are there -/
  rooted : Rooted h.values h.nextId
  handles : h.handles.Nodup
  /-- records come in the order of their ids -/
  ordered : h.values.Pairwise fun a b => a.id < b.id

/-- The empty table. -/
theorem new_grown : (new : Hierarchy K).Grown where
  rooted := ⟨⟨nofun, nofun, nofun, nofun⟩, List.nodup_nil, nofun, Nat.one_pos, nofun⟩
  handles := List.nodup_nil
  ordered := .nil

/-- The id tells the record, whatever its address. -/
theorem Grown.nodup_ids {h : Hierarchy K} (hg : h.Grown) :
    (h.records.map fun e => e.2.id).Nodup := by
  have hids := hg.rooted.ids
  unfold values at hids
  rw [List.map_map] at hids
  exact hids

/-- A write, as the values see it. -/
theorem Grown.values_written {h : Hierarchy K} (hg : h.Grown) {record : Handle}
    {r : CallStatistics K} (ha : h.Allowed (.written record r)) :
    (h.apply (.written record r)).values =
      h.values.map fun x => if x.id = r.id then { x with stats := r.stats } else x := by
  obtain ⟨⟨_, old⟩, hold, rfl, heq⟩ := ha
  exact values_restat hg.handles hg.nodup_ids hold heq

/-- Statistics are no part of who a record is, -/
theorem id_restat (r x : CallStatistics K) :
    (if x.id = r.id then { x with stats := r.stats } else x).id = x.id := by
  split <;> rfl

/-- nor of where it belongs. -/
theorem callnode_restat (r x : CallStatistics K) :
    callnode (if x.id = r.id then { x with stats := r.stats } else x) = callnode x := by
  split <;> rfl

/-- **One change** keeps the forest. -/
theorem Grown.apply {h : Hierarchy K} (hg : h.Grown) {c : Change K} (ha : h.Allowed c) :
    (h.apply c).Grown := by
  cases c with
  | created record r =>
    obtain ⟨hfresh, hid, hunder, hkey⟩ := ha
    have hvalues : (h.apply (.created record r)).values = h.values ++ [r] := List.map_append
    obtain ⟨p, hp⟩ : ∃ p, At h.values r.threadId p r.parentId := by
      rcases hunder with hzero | ⟨parent, hparent, hpid, hthread⟩
      · rw [hzero]
        exact ⟨[], .root⟩
      · obtain ⟨p, _, hp⟩ := hg.rooted.exists_at parent hparent
        rw [hthread, hpid] at hp
        exact ⟨_, hp⟩
    refine ⟨?_, ?_, ?_⟩
    · rw [hvalues]
      exact (hg.rooted.add hid hp hkey).2
    · show ((h.records ++ [(record, r)]).map Prod.fst).Nodup
      rw [List.map_append]
      exact Lib.nodup_append_singleton hg.handles hfresh
    · rw [hvalues]
      refine List.pairwise_append.mpr ⟨hg.ordered, List.pairwise_singleton _ _, ?_⟩
      intro x hx y hy
      rw [List.mem_singleton.mp hy, hid]
      exact hg.rooted.below x hx
  | written record r =>
    -- only the statistics change
    have hvalues := hg.values_written ha
    refine ⟨?_, ?_, ?_⟩
    · rw [hvalues]
      exact hg.rooted.reshape fun x => ⟨id_restat r x, callnode_restat r x⟩
    · rw [handles_written]
      exact hg.handles
    · rw [hvalues]
      refine List.Pairwise.map _ ?_ hg.ordered
      intro x y hlt
      rw [id_restat, id_restat]
      exact hlt
  | modified record => exact ⟨hg.rooted, hg.handles, hg.ordered⟩

/-- Records keep who they are and where they belong. -/
def Keeps (values values' : List (CallStatistics K)) : Prop :=
  ∀ x ∈ values, ∃ y ∈ values', y.id = x.id ∧ callnode y = callnode x

/-- **A record stays** where it is. -/
theorem Grown.stays {h : Hierarchy K} (hg : h.Grown) {c : Change K} (ha : h.Allowed c)
    {e : Handle × CallStatistics K} (he : e ∈ h.records) :
    ∃ r, (e.1, r) ∈ (h.apply c).records ∧ r.id = e.2.id ∧ callnode r = callnode e.2 := by
  cases c with
  | created record r => exact ⟨e.2, List.mem_append_left _ he, rfl, rfl⟩
  | written record r =>
    obtain ⟨old, hold, rfl, heq⟩ := ha
    by_cases hrecord : e.1 = old.1
    · obtain rfl : e = old := List.inj_on_of_nodup_map hg.handles he hold hrecord
      exact ⟨r, List.mem_map.mpr ⟨e, he, if_pos rfl⟩, by rw [← heq], by rw [← heq]; rfl⟩
    · exact ⟨e.2, List.mem_map.mpr ⟨e, he, if_neg hrecord⟩, rfl, rfl⟩
  | modified record => exact ⟨e.2, he, rfl, rfl⟩

/-- The same, of the values. -/
theorem Grown.keeps {h : Hierarchy K} (hg : h.Grown) {c : Change K} (ha : h.Allowed c) :
    Keeps h.values (h.apply c).values := by
  intro x hx
  obtain ⟨e, he, rfl⟩ := List.mem_map.mp hx
  obtain ⟨r, hr, hsame⟩ := hg.stays ha he
  exact ⟨r, List.mem_map.mpr ⟨_, hr, rfl⟩, hsame⟩

/-- **Where a record comes from.** -/
theorem mem_apply {h : Hierarchy K} {c : Change K} (ha : h.Allowed c)
    {e : Handle × CallStatistics K} (he : e ∈ (h.apply c).records) :
    (∃ r, c = .created e.1 r) ∨
      ∃ old, (e.1, old) ∈ h.records ∧ e.2.id = old.id ∧ callnode e.2 = callnode old := by
  cases c with
  | created record r =>
    rcases List.mem_append.mp he with he | he
    · exact Or.inr ⟨e.2, he, rfl, rfl⟩
    · rw [List.mem_singleton.mp he]
      exact Or.inl ⟨r, rfl⟩
  | written record r =>
    obtain ⟨old, hold, rfl, heq⟩ := ha
    obtain ⟨e₀, he₀, rfl⟩ := List.mem_map.mp he
    split
    · exact Or.inr ⟨old.2, hold, by rw [← heq], by rw [← heq]; rfl⟩
    · exact Or.inr ⟨e₀.2, he₀, rfl, rfl⟩
  -- nothing changes but what is dirty
  | modified record => exact Or.inr ⟨e.2, he, rfl, rfl⟩

/-- **A parent precedes its children**, in their thread. -/
theorem Grown.under {h : Hierarchy K} (hg : h.Grown) {before after : List (CallStatistics K)}
    {r : CallStatistics K} (hvalues : h.values = before ++ r :: after) : Under before r := by
  have hr : r ∈ h.values := by
    rw [hvalues]
    exact List.mem_append_right _ List.mem_cons_self
  rcases hg.rooted.forest.parents r hr with hzero | ⟨parent, hparent, hid, hlt⟩
  · -- a root
    exact Or.inl hzero
  · -- its parent has a smaller id, so it stands before
    refine Or.inr ⟨parent, ?_, hid, hg.rooted.threads r hr parent hparent hid⟩
    have hordered := hg.ordered
    rw [hvalues] at hparent hordered
    obtain ⟨_, hafter, _⟩ := List.pairwise_append.mp hordered
    rcases List.mem_append.mp hparent with hbefore | hlater
    · exact hbefore
    · exfalso
      rcases List.mem_cons.mp hlater with rfl | hlater
      · exact Nat.lt_irrefl _ hlt
      · exact Nat.lt_asymm hlt (List.rel_of_pairwise_cons hafter hlater)

end Hierarchy

/-! ## Ancestors -/

/-- The ids and addresses of a record's ancestors, from its parent up to the root. -/
inductive Lineage (values : List (CallStatistics K)) : CallStatistics K → List (Nat × K) → Prop
  | root {r : CallStatistics K} : r.parentId = 0 → Lineage values r []
  | child {r parent : CallStatistics K} {up : List (Nat × K)} : parent ∈ values →
      parent.id = r.parentId → Lineage values parent up →
      Lineage values r ((parent.id, parent.address) :: up)

/-- **A lineage stays** while the table grows and is written to. -/
theorem Lineage.keeps {values values' : List (CallStatistics K)}
    (hkeeps : Hierarchy.Keeps values values') {r : CallStatistics K} {up : List (Nat × K)}
    (h : Lineage values r up) : ∀ {r' : CallStatistics K}, r'.parentId = r.parentId →
      Lineage values' r' up := by
  induction h with
  | root hzero => exact fun hr' => .root (hr'.trans hzero)
  | child hparent hid _ ih =>
    -- the parent is there still, and so is its own lineage
    intro r' hr'
    obtain ⟨y, hy, hyid, hykey⟩ := hkeeps _ hparent
    obtain ⟨_, hyparent, hyaddress⟩ := Statistics.callnode_eq hykey
    rw [← hyid, ← hyaddress]
    exact .child hy (hyid.trans (hid.trans hr'.symm)) (ih hyparent)

section

variable {values : List (CallStatistics K)} {nextId : Nat} (h : Rooted values nextId)

include h

/-- A record is found by its id. -/
theorem Rooted.findById {r : CallStatistics K} (hr : r ∈ values) :
    findById values r.id = some r := h.find_id hr

/-- There is no record `0`. -/
theorem Rooted.findById_zero : Frontend.findById values 0 = none := by
  unfold Frontend.findById
  refine List.find?_eq_none.mpr fun x hx hid => ?_
  exact absurd (of_decide_eq_true hid) (Nat.pos_iff_ne_zero.mp (h.forest.positive x hx))

/-- Every record has a lineage.  By induction from the roots. -/
theorem Rooted.exists_lineage : ∀ r ∈ values, ∃ up, Lineage values r up := by
  refine h.forest.rootward ?_ ?_
  · exact fun r _ hzero => ⟨[], .root hzero⟩
  · rintro r _ parent hparent hid ⟨up, hup⟩
    exact ⟨_, .child hparent hid hup⟩

/-- A record has one lineage, given by its parent's id. -/
theorem Lineage.unique {r : CallStatistics K} {up : List (Nat × K)} (hup : Lineage values r up) :
    ∀ {r' : CallStatistics K} {up' : List (Nat × K)}, Lineage values r' up' →
      r.parentId = r'.parentId → up = up' := by
  induction hup with
  | root hzero =>
    intro r' up' hup' heq
    cases hup' with
    | root => rfl
    | child hparent hid =>
      exact absurd (hid.trans (heq.symm.trans hzero))
        (Nat.pos_iff_ne_zero.mp (h.forest.positive _ hparent))
  | child hparent hid _ ih =>
    intro r' up' hup' heq
    cases hup' with
    | root hzero =>
      exact absurd (hid.trans (heq.trans hzero))
        (Nat.pos_iff_ne_zero.mp (h.forest.positive _ hparent))
    | child hparent' hid' hrest' =>
      obtain rfl := h.forest.ids _ hparent _ hparent' (hid.trans (heq.trans hid'.symm))
      rw [ih hrest' rfl]

/-- Ids decrease towards the root, which is what makes the walks end. -/
theorem Rooted.parent_lt {r : CallStatistics K} (hr : r ∈ values) : r.parentId < r.id := by
  rcases h.forest.parents r hr with hzero | ⟨parent, _, hid, hlt⟩
  · rw [show r.parentId = 0 from hzero]
    exact h.forest.positive r hr
  · rw [show r.parentId = parent.id from hid.symm]
    exact hlt

/-- **The address path** that leads to a record is its lineage, downwards. -/
theorem Lineage.leads {r : CallStatistics K} {up : List (Nat × K)} (hup : Lineage values r up)
    (hr : r ∈ values) : At values r.threadId ((up.map Prod.snd).reverse ++ [r.address]) r.id := by
  refine At.child ?_ hr rfl
  induction hup with
  | root hzero =>
    rw [hzero]
    exact .root
  | @child r parent up hparent hid _ ih =>
    rw [List.map_cons, List.reverse_cons, ← hid, ← h.threads r hr parent hparent hid]
    exact (ih hparent).child hparent rfl

end

/-! ## Walks -/

/-- The loop of `initialize_path`, to a depth: what it visits after the record itself. -/
def walk (lookup : Nat → Option (CallStatistics K)) : Nat → CallStatistics K →
    Option (List (Nat × K))
  | 0, _ => none
  | depth + 1, item =>
      match lookup item.parentId with
      -- 0 is nobody's id: the root was visited
      | none => some []
      | some parent => (walk lookup depth parent).map fun up => (parent.id, parent.address) :: up

/-- `_path`: the ids from the root down to the record itself. -/
def rootPath (r : CallStatistics K) (up : List (Nat × K)) : List Nat :=
  (r.id :: up.map Prod.fst).reverse

/-- `_reentrance`: how many ancestors have the record's address. -/
def reentrance [DecidableEq K] (r : CallStatistics K) (up : List (Nat × K)) : Nat :=
  up.countP fun a => a.2 = r.address

/-- `initialize_path`: `_path` and `_reentrance`. -/
def initializePath [DecidableEq K] (lookup : Nat → Option (CallStatistics K)) (depth : Nat)
    (r : CallStatistics K) : Option (List Nat × Nat) :=
  (walk lookup depth r).map fun up => (rootPath r up, reentrance r up)

section

variable {values : List (CallStatistics K)} {nextId : Nat} (h : Rooted values nextId)
  {r : CallStatistics K} {up : List (Nat × K)} (hup : Lineage values r up)

include h hup

/-- **The walk of `initialize_path`** ends at the root: ids decrease on the way. -/
theorem walk_lineage : ∀ {depth : Nat}, r.parentId < depth →
    walk (findById values) depth r = some up := by
  induction hup with
  | root hzero =>
    -- one lookup, of 0
    intro depth hlt
    obtain ⟨depth, rfl⟩ := Nat.exists_eq_add_of_lt hlt
    rw [walk, hzero, h.findById_zero]
  | @child r parent up hparent hid _ ih =>
    -- the parent's id is smaller, and a depth of its own is left
    intro depth hlt
    obtain ⟨depth, rfl⟩ := Nat.exists_eq_succ_of_ne_zero (Nat.ne_of_gt (Nat.zero_lt_of_lt hlt))
    have hless := h.parent_lt hparent
    rw [walk, ← hid, h.findById hparent]
    show (walk _ depth parent).map _ = _
    rw [ih (by omega)]
    rfl

/-- **`key_append`** ends there as well. -/
theorem keyAppend_lineage : ∀ {depth : Nat}, r.parentId < depth →
    Statistics.keyAppend (findById values) depth r =
      some ((up.map Prod.snd).reverse ++ [r.address]) := by
  induction hup with
  | root hzero =>
    intro depth hlt
    obtain ⟨depth, rfl⟩ := Nat.exists_eq_add_of_lt hlt
    rw [Statistics.keyAppend, if_pos hzero]
    rfl
  | @child r parent up hparent hid _ ih =>
    intro depth hlt
    obtain ⟨depth, rfl⟩ := Nat.exists_eq_succ_of_ne_zero (Nat.ne_of_gt (Nat.zero_lt_of_lt hlt))
    have hless := h.parent_lt hparent
    have hpositive : r.parentId ≠ 0 := by
      rw [← hid]
      exact Nat.pos_iff_ne_zero.mp (h.forest.positive parent hparent)
    rw [Statistics.keyAppend, if_neg hpositive, ← hid, h.findById hparent, Option.bind_some,
      ih (by omega), List.map_cons, List.reverse_cons]
    rfl

end

/-! ## Cached paths -/

/-- The table, and the `_path` and `_reentrance` of its records.  An empty `_path` was not computed
    yet. -/
structure Observed (K : Type) where
  hierarchy : Hierarchy K
  paths : Handle → List Nat × Nat

/-- A change of the table, or a call of `path` or `reentrance` by an observer. -/
inductive Observation (K : Type)
  | change (c : Change K)
  | query (record : Handle)

/-- The changes among them. -/
def Observation.changes (os : List (Observation K)) : List (Change K) :=
  os.filterMap fun
    | .change c => some c
    | .query _ => none

namespace Observed

variable [DecidableEq K]

/-- No record, and nothing cached. -/
def new : Observed K := ⟨.new, fun _ => ([], 0)⟩

/-- A record comes with an empty `_path`. -/
def pathsAfter (paths : Handle → List Nat × Nat) : Change K → Handle → List Nat × Nat
  | .created record _ => Function.update paths record ([], 0)
  | _ => paths

/-- A change is made, or an observer asks. -/
def step (s : Observed K) : Observation K → Option (Observed K)
  | .change c => (s.hierarchy.step c).map fun h => ⟨h, pathsAfter s.paths c⟩
  | .query record =>
      (s.hierarchy.records.find? fun e => e.1 = record).bind fun e =>
        if (s.paths record).1.isEmpty then
          (initializePath (findById s.hierarchy.values) s.hierarchy.nextId e.2).map fun p =>
            { s with paths := Function.update s.paths record p }
        else some s

/-- What `path` and `reentrance` should give: the record's root path, and how often its address
    recurs on the way. -/
def TruePath (values : List (CallStatistics K)) (r : CallStatistics K) (p : List Nat × Nat) :
    Prop :=
  ∃ up, Lineage values r up ∧ p = (rootPath r up, reentrance r up)

/-- INVARIANT: what is cached is true. -/
structure Cached (s : Observed K) : Prop where
  grown : s.hierarchy.Grown
  /-- not computed yet, or true -/
  paths : ∀ e ∈ s.hierarchy.records,
    (s.paths e.1).1 = [] ∨ TruePath s.hierarchy.values e.2 (s.paths e.1)

/-- Nothing is cached. -/
theorem new_cached : (new : Observed K).Cached := ⟨Hierarchy.new_grown, nofun⟩

omit [DecidableEq K] in
/-- The record itself is on its path. -/
theorem rootPath_ne_nil (r : CallStatistics K) (up : List (Nat × K)) : rootPath r up ≠ [] := by
  unfold rootPath
  rw [List.reverse_cons]
  exact List.append_ne_nil_of_right_ne_nil _ (List.cons_ne_nil _ _)

/-- The truth about a record stays. -/
theorem TruePath.keeps {values values' : List (CallStatistics K)}
    (hkeeps : Hierarchy.Keeps values values') {r r' : CallStatistics K} {p : List Nat × Nat}
    (h : TruePath values r p) (hid : r'.id = r.id) (hkey : callnode r' = callnode r) :
    TruePath values' r' p := by
  obtain ⟨up, hup, rfl⟩ := h
  obtain ⟨_, hparent, haddress⟩ := Statistics.callnode_eq hkey
  refine ⟨up, hup.keeps hkeeps hparent, ?_⟩
  unfold rootPath reentrance
  rw [hid, haddress]

omit [DecidableEq K] in
/-- Only a record that comes has its cache emptied. -/
theorem pathsAfter_other {paths : Handle → List Nat × Nat} {c : Change K} {x : Handle}
    (hne : ∀ r, c ≠ .created x r) : pathsAfter paths c x = paths x := by
  cases c with
  | created record r =>
    refine Function.update_of_ne ?_ _ _
    rintro rfl
    exact hne r rfl
  | written => rfl
  | modified => rfl

omit [DecidableEq K] in
/-- A created record is not one of those there are. -/
theorem not_created {h : Hierarchy K} {c : Change K} (ha : h.Allowed c)
    {e : Handle × CallStatistics K} (he : e ∈ h.records) : ∀ r, c ≠ .created e.1 r := by
  rintro r rfl
  exact ha.1 (List.mem_map_of_mem he)

/-- **A change** leaves what is cached true: who a record is, and its ancestors, stay. -/
theorem Cached.change {s : Observed K} (hs : s.Cached) {c : Change K}
    (ha : s.hierarchy.Allowed c) :
    Cached ⟨s.hierarchy.apply c, pathsAfter s.paths c⟩ := by
  refine ⟨hs.grown.apply ha, ?_⟩
  intro e he
  rcases Hierarchy.mem_apply ha he with ⟨r, rfl⟩ | ⟨old, hold, hid, hkey⟩
  · left
    show (Function.update s.paths e.1 ([], 0) e.1).1 = []
    rw [Function.update_self]
  · show (pathsAfter s.paths c e.1).1 = [] ∨ TruePath _ e.2 (pathsAfter s.paths c e.1)
    rw [pathsAfter_other (not_created ha hold)]
    exact (hs.paths _ hold).imp_right fun htrue => htrue.keeps (hs.grown.keeps ha) hid hkey

/-- **A query** of a record returns, gives the truth, and caches it. -/
theorem Cached.query {s : Observed K} (hs : s.Cached) {e : Handle × CallStatistics K}
    (he : e ∈ s.hierarchy.records) :
    ∃ s', s.step (.query e.1) = some s' ∧ s'.hierarchy = s.hierarchy ∧ s'.Cached ∧
      TruePath s.hierarchy.values e.2 (s'.paths e.1) ∧
      ∀ x, (s.paths x).1 ≠ [] → s'.paths x = s.paths x := by
  have hmem : e.2 ∈ s.hierarchy.values := List.mem_map_of_mem he
  have hfind : s.hierarchy.records.find? (fun x => x.1 = e.1) = some e :=
    Lib.find?_key hs.grown.handles he
  obtain ⟨up, hup⟩ := hs.grown.rooted.exists_lineage e.2 hmem
  have hwalk : initializePath (findById s.hierarchy.values) s.hierarchy.nextId e.2 =
      some (rootPath e.2 up, reentrance e.2 up) := by
    unfold initializePath
    rw [walk_lineage hs.grown.rooted hup ((hs.grown.rooted.parent_lt hmem).trans
      (hs.grown.rooted.below e.2 hmem))]
    rfl
  unfold step
  simp only [hfind, Option.bind_some]
  by_cases hempty : (s.paths e.1).1 = []
  · -- not computed yet: the walk ends with the lineage
    have htrue : TruePath s.hierarchy.values e.2 (rootPath e.2 up, reentrance e.2 up) :=
      ⟨up, hup, rfl⟩
    obtain ⟨paths, hpaths⟩ : ∃ paths, paths =
        Function.update s.paths e.1 (rootPath e.2 up, reentrance e.2 up) := ⟨_, rfl⟩
    have hself : paths e.1 = (rootPath e.2 up, reentrance e.2 up) := by
      rw [hpaths, Function.update_self]
    have hother : ∀ x, x ≠ e.1 → paths x = s.paths x := by
      intro x hx
      rw [hpaths, Function.update_of_ne hx]
    refine ⟨{ s with paths := paths }, ?_, rfl, ⟨hs.grown, ?_⟩, ?_, ?_⟩
    · rw [if_pos (List.isEmpty_iff.mpr hempty), hwalk, hpaths]
      rfl
    · intro x hx
      show (paths x.1).1 = [] ∨ TruePath _ x.2 (paths x.1)
      by_cases heq : x.1 = e.1
      · obtain rfl := List.inj_on_of_nodup_map hs.grown.handles hx he heq
        rw [hself]
        exact Or.inr htrue
      · rw [hother x.1 heq]
        exact hs.paths x hx
    · show TruePath _ e.2 (paths e.1)
      rw [hself]
      exact htrue
    · intro x hx
      refine hother x ?_
      rintro rfl
      exact hx hempty
  · -- computed before: it is true still
    refine ⟨s, ?_, rfl, hs, (hs.paths e he).resolve_left hempty, fun _ _ => rfl⟩
    rw [if_neg (mt List.isEmpty_iff.mp hempty)]

/-- What a step is. -/
theorem step_cases {s s' : Observed K} {o : Observation K} (hstep : s.step o = some s') :
    (∃ c, o = .change c ∧ s.hierarchy.Allowed c ∧
      s' = ⟨s.hierarchy.apply c, pathsAfter s.paths c⟩) ∨
    ∃ e ∈ s.hierarchy.records, o = .query e.1 := by
  cases o with
  | change c =>
    obtain ⟨h, hh, rfl⟩ := Option.map_eq_some_iff.mp hstep
    obtain ⟨ha, rfl⟩ := Hierarchy.step_eq_some.mp hh
    exact Or.inl ⟨c, rfl, ha, rfl⟩
  | query record =>
    obtain ⟨e, he, _⟩ := Option.bind_eq_some_iff.mp hstep
    obtain rfl : e.1 = record := of_decide_eq_true (List.find?_some he :)
    exact Or.inr ⟨e, List.mem_of_find?_eq_some he, rfl⟩

/-- The same, of any step. -/
theorem step_cached (s : Observed K) (o : Observation K) (s' : Observed K) (hs : s.Cached)
    (hstep : s.step o = some s') : s'.Cached := by
  rcases step_cases hstep with ⟨c, rfl, ha, rfl⟩ | ⟨e, he, rfl⟩
  · exact hs.change ha
  · obtain ⟨s₁, hs₁, _, hcached, _⟩ := hs.query he
    rw [hs₁] at hstep
    exact Option.some.inj hstep ▸ hcached

/-- A record that has been asked for its path: where it is, what it is, and what was cached. -/
structure Known (x : Handle) (r : CallStatistics K) (p : List Nat × Nat) (s : Observed K) :
    Prop where
  cached : s.Cached
  path : s.paths x = p
  stays : ∃ r', (x, r') ∈ s.hierarchy.records ∧ r'.id = r.id ∧ callnode r' = callnode r

/-- **What is cached stays**, and stays true.  By induction on what follows. -/
theorem Known.run {x : Handle} {r : CallStatistics K} {p : List Nat × Nat} (hp : p.1 ≠ []) :
    ∀ (later : List (Observation K)) (s s' : Observed K), Known x r p s →
      Lib.run step s later = some s' → Known x r p s' := by
  refine Lib.run_invariant ?_
  rintro s o s' ⟨hcached, hpath, r', hr', hid, hkey⟩ hstep
  refine ⟨step_cached s o s' hcached hstep, ?_, ?_⟩
  · rcases step_cases hstep with ⟨c, rfl, ha, rfl⟩ | ⟨e, he, rfl⟩
    · exact (pathsAfter_other (not_created ha hr')).trans hpath
    · -- a query caches nothing where something is cached
      obtain ⟨s₁, hs₁, _, _, _, hsame⟩ := hcached.query he
      rw [hs₁] at hstep
      rw [← Option.some.inj hstep, hsame x (by rw [hpath]; exact hp), hpath]
  · rcases step_cases hstep with ⟨c, rfl, ha, rfl⟩ | ⟨e, he, rfl⟩
    · obtain ⟨r₁, hr₁, hid₁, hkey₁⟩ := hcached.grown.stays ha hr'
      exact ⟨r₁, hr₁, hid₁.trans hid, hkey₁.trans hkey⟩
    · obtain ⟨s₁, hs₁, hsame, _⟩ := hcached.query he
      rw [hs₁] at hstep
      rw [← Option.some.inj hstep, hsame]
      exact ⟨r', hr', hid, hkey⟩

/-- Observers change nothing: without them the changes are the same. -/
theorem run_hierarchy : ∀ (os : List (Observation K)) (s s' : Observed K), s.Cached →
    Lib.run step s os = some s' →
      Lib.run Hierarchy.step s.hierarchy (Observation.changes os) = some s'.hierarchy := by
  intro os
  induction os with
  | nil =>
    intro s s' _ hrun
    exact congrArg (Option.map Observed.hierarchy) hrun
  | cons o os ih =>
    intro s s' hs hrun
    obtain ⟨s₁, hstep, hrest⟩ := Lib.run_cons_eq_some.mp hrun
    have hrest := ih s₁ s' (step_cached s o s₁ hs hstep) hrest
    rcases step_cases hstep with ⟨c, rfl, ha, rfl⟩ | ⟨e, he, rfl⟩
    · exact Lib.run_cons_eq_some.mpr ⟨_, Hierarchy.step_eq_some.mpr ⟨ha, rfl⟩, hrest⟩
    · obtain ⟨s₂, hs₂, hsame, _⟩ := hs.query he
      obtain rfl : s₁ = s₂ := Option.some.inj (hstep.symm.trans hs₂)
      rw [← hsame]
      exact hrest

end Observed

/-! ## Any sequence of updates -/

namespace Statistics

variable [DecidableEq K]

/-- The table, the thread ids of the context, and the changes so far. -/
abbrev Received (K : Type) := (Statistics K × List Nat) × List (Change K)

/-- An update, with what the allocator and the constructor would give meanwhile. -/
abbrev Update (K : Type) := Maker (CallNodeKey K) × List (Nat × NodesMap K)

/-- One update, its changes after those before. -/
def receive (s : Received K) (update : Update K) : Option (Received K) :=
  (deserializeTraced update.1 s.1.1 s.1.2 update.2).map fun r => (r.1, s.2 ++ r.2)

/-- **Updates are received**, as allowed changes, and the table takes in their nodes, one update
    after the other. -/
theorem receive_all : ∀ (updates : List (Update K)) (s : Received K), Sound s.1.1 →
    Lib.run Hierarchy.step .new s.2 = some (s.1.1.observed []) →
    ∃ s', Lib.run receive s updates = some s' ∧ Sound s'.1.1 ∧
      Lib.run Hierarchy.step .new s'.2 = some (s'.1.1.observed []) ∧
      ∀ F, Reads s.1.1.values F →
        Reads s'.1.1.values ((updates.flatMap fun u => places u.2).foldl Account.absorb F) := by
  intro updates
  induction updates with
  | nil => exact fun s hs hrun => ⟨s, rfl, hs, hrun, fun _ hF => hF⟩
  | cons update updates ih =>
    intro s hs hrun
    obtain ⟨s₁, threads₁, changes, htraced, hread, hs₁, hrun₁⟩ :=
      hs.deserialize_traced update.1 s.1.2 update.2
    obtain ⟨s₁', threads₁', hread', _, hreads⟩ := hs.deserialize update.1 s.1.2 update.2
    obtain ⟨rfl, rfl⟩ := Prod.mk.inj (Option.some.inj (hread.symm.trans hread'))
    obtain ⟨s', hrest, hs', hrun', hreads'⟩ := ih ((s₁, threads₁), s.2 ++ changes) hs₁
      (Lib.run_append_eq_some.mpr ⟨_, hrun, hrun₁⟩)
    refine ⟨s', Lib.run_cons_eq_some.mpr ⟨_, ?_, hrest⟩, hs', hrun', fun F hF => ?_⟩
    · unfold receive
      rw [htraced]
      rfl
    · rw [List.flatMap_cons, List.foldl_append]
      exact hreads' _ (hreads F hF)

end Statistics

/-- A forest of records, with unique ids and keys, and parents created before their children in
    their thread. -/
structure WellFormedForest (values : List (CallStatistics K)) : Prop where
  keys : (values.map callnode).Nodup
  ids : (values.map CallStatistics.id).Nodup
  parents : ∀ before r after, values = before ++ r :: after → Under before r

/-- What the invariant says of the values. -/
theorem Hierarchy.Grown.wellFormed {h : Hierarchy K} (hg : h.Grown) :
    WellFormedForest h.values where
  keys := by
    refine List.Nodup.map_on ?_ (List.Nodup.of_map _ hg.rooted.ids)
    intro x hx y hy heq
    obtain ⟨hthread, hparent, haddress⟩ := Statistics.callnode_eq heq
    exact hg.rooted.forest.keys x hx y hy hparent (congrArg₂ Prod.mk hthread haddress)
  ids := hg.rooted.ids
  parents := fun _ _ _ hvalues => hg.under hvalues

/-- **What observers see** after any allowed changes and any queries: a forest; the walks from a record
    end, with its ancestors; a cached path is the record's root path, one that is asked for is, and
    stays so. -/
theorem Observed.forest [DecidableEq K] {os : List (Observation K)} {o : Observed K}
    (ho : Lib.run Observed.step .new os = some o) :
    WellFormedForest o.hierarchy.values ∧
      ∀ e ∈ o.hierarchy.records, ∃ up, Lineage o.hierarchy.values e.2 up ∧
        (∀ depth, e.2.parentId < depth →
          walk (findById o.hierarchy.values) depth e.2 = some up ∧
          Statistics.keyAppend (findById o.hierarchy.values) depth e.2 =
            some ((up.map Prod.snd).reverse ++ [e.2.address])) ∧
        ((o.paths e.1).1 = [] ∨ o.paths e.1 = (rootPath e.2 up, reentrance e.2 up)) ∧
        ∃ o₁, o.step (.query e.1) = some o₁ ∧
          o₁.paths e.1 = (rootPath e.2 up, reentrance e.2 up) ∧
          ∀ later o₂, Lib.run Observed.step o₁ later = some o₂ →
            o₂.paths e.1 = (rootPath e.2 up, reentrance e.2 up) ∧
            ∃ r, (e.1, r) ∈ o₂.hierarchy.records ∧ r.id = e.2.id ∧
              Observed.TruePath o₂.hierarchy.values r (o₂.paths e.1) := by
  have hcached : o.Cached := Lib.run_invariant Observed.step_cached os .new o Observed.new_cached ho
  refine ⟨hcached.grown.wellFormed, ?_⟩
  intro e he
  have hmem : e.2 ∈ o.hierarchy.values := List.mem_map_of_mem he
  obtain ⟨up, hup⟩ := hcached.grown.rooted.exists_lineage e.2 hmem
  have htruth : ∀ p, Observed.TruePath o.hierarchy.values e.2 p →
      p = (rootPath e.2 up, reentrance e.2 up) := by
    rintro p ⟨up', hup', rfl⟩
    rw [hup.unique hcached.grown.rooted hup' rfl]
  refine ⟨up, hup, ?_, ?_, ?_⟩
  · intro depth hdepth
    exact ⟨walk_lineage hcached.grown.rooted hup hdepth,
      keyAppend_lineage hcached.grown.rooted hup hdepth⟩
  · exact (hcached.paths e he).imp_right (htruth _)
  · obtain ⟨o₁, hquery, hsame, hcached₁, htrue, _⟩ := hcached.query he
    have hpath := htruth _ htrue
    refine ⟨o₁, hquery, hpath, ?_⟩
    intro later o₂ hlater
    have hknown : Observed.Known e.1 e.2 (rootPath e.2 up, reentrance e.2 up) o₁ :=
      ⟨hcached₁, hpath, e.2, by rw [hsame]; exact he, rfl, rfl⟩
    obtain ⟨hcached₂, hpath₂, r, hr, hid, hkey⟩ :=
      hknown.run (Observed.rootPath_ne_nil _ _) later o₁ o₂ hlater
    refine ⟨hpath₂, r, hr, hid, ?_⟩
    refine (hcached₂.paths _ hr).resolve_left ?_
    rw [hpath₂]
    exact Observed.rootPath_ne_nil _ _

/-- **The next change is made**, whatever observers asked for before it: it is allowed without them,
    and they change nothing. -/
theorem Observed.next_change [DecidableEq K] {os : List (Observation K)} {o : Observed K}
    (ho : Lib.run Observed.step .new os = some o) {changes : List (Change K)} {h : Hierarchy K}
    (hchanges : Lib.run Hierarchy.step .new changes = some h) {c : Change K}
    (hnext : Observation.changes os ++ [c] <+: changes) : ∃ o', o.step (.change c) = some o' := by
  obtain ⟨rest, rfl⟩ := hnext
  rw [List.append_assoc] at hchanges
  obtain ⟨h₁, hh₁, hnext⟩ := Lib.run_append_eq_some.mp hchanges
  have hhierarchy := Observed.run_hierarchy os .new o Observed.new_cached ho
  obtain rfl : o.hierarchy = h₁ := Option.some.inj (hhierarchy.symm.trans hh₁)
  obtain ⟨h₂, hstep, _⟩ := Lib.run_cons_eq_some.mp hnext
  exact ⟨_, congrArg (Option.map _) hstep⟩

/-- Ids are counted: there is one for each record, from 1 on. -/
theorem Hierarchy.run_counted [DecidableEq K] {changes : List (Change K)} {h : Hierarchy K}
    (hrun : Lib.run Hierarchy.step .new changes = some h) : h.nextId = h.records.length + 1 := by
  refine Lib.run_invariant (P := fun h => h.nextId = h.records.length + 1) ?_ changes .new h rfl hrun
  intro h c h' hcount hstep
  obtain ⟨_, rfl⟩ := Hierarchy.step_eq_some.mp hstep
  cases c with
  | created record r =>
    show h.nextId + 1 = (h.records ++ [(record, r)]).length + 1
    rw [hcount, List.length_append, List.length_singleton]
  | written record r =>
    show h.nextId = (h.records.map _).length + 1
    rw [hcount, List.length_map]
  | modified record => exact hcount

end MicroProfiler.Frontend
