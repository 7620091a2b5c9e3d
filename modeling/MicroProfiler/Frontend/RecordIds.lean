/-
  The ids of the call tree's records, as wide as they are: `_next_id` of `auto_increment_constructor`
  is an `unsigned int`.

  1. **The reader** — `container[key]` with a constructor whose next id wraps (`subscript32`), and the
     reading of an update on top of it, with the changes it makes.

  2. **Below the bound** (`receive_narrow`) — as long as the counter has not wrapped the reader does
     what it would do with unbounded ids.  An update makes a record for a thread and path that is new,
     so the nodes that the updates name bound the ids (`received_ids`).

  3. **The forest** (`hierarchy_stays_forest`) — for updates that name fewer than `idCount` places.

  4. **Beyond it** (`record_ids_wrap`) — the ids of a root's `idCount + 1` callees are not unique.
-/
import MicroProfiler.Frontend.Hierarchy
import Mathlib.Algebra.Group.Nat.Defs
import Mathlib.Data.List.Dedup
import Mathlib.Data.List.Perm.Subperm

namespace MicroProfiler.Frontend

open Sdb

variable {K : Type}

/-- How many values `id_t` has. -/
def idCount : Nat := 2 ^ 32

/-! ## The reader -/

namespace Statistics

/-- What the constructor's next id is in 32 bits. -/
def narrow (s : Statistics K) : Statistics K := { s with nextId := s.nextId % idCount }

variable [DecidableEq K]

/-- `container[key]`; `_next_id++` wraps. -/
def subscript32 (m : Maker (CallNodeKey K)) (s : Statistics K) (key : CallNodeKey K) :
    Option (Statistics K × Handle × Bool) :=
  (s.subscript m key).map fun r => (r.1.narrow, r.2)

/-- `container[key].commit()`, with the change it is. -/
def touch32 (m : Maker (CallNodeKey K)) (s : Statistics K) (key : CallNodeKey K) :
    Option (Statistics K × List (Change K)) :=
  (s.subscript32 m key).bind fun r => (r.1.table.lookup r.2.1).bind fun value =>
    (r.1.commit r.2.1 r.2.2).map fun s =>
      (s, [if r.2.2 then .created r.2.1 value else .modified r.2.1])

/-- `call_nodes_reader::read_item` for each item of a map of callees, with the changes. -/
def readNodes32 (m : Maker (CallNodeKey K)) (threadId : Nat) :
    NodesMap K → Nat → Statistics K → Option (Statistics K × List (Change K))
  | .nil, _, s => some (s, [])
  | .cons address v callees rest, parentId, s =>
      (s.touch32 m (threadId, parentId, address)).bind fun touched =>
      (touched.1.subscript32 m (threadId, parentId, address)).bind fun r =>
      (r.1.table.lookup r.2.1).bind fun data =>
      -- the record is written to before its callees are read, and committed after them
      let value := { data with stats := data.stats.add v }
      (readNodes32 m threadId callees data.id (r.1.write r.2.1 value)).bind fun below =>
      (below.1.commit r.2.1 r.2.2).bind fun s =>
      (readNodes32 m threadId rest parentId s).map fun after =>
        (after.1, touched.2 ++ .written r.2.1 value :: below.2 ++ .modified r.2.1 :: after.2)

/-- `call_nodes_reader::read_item` for a thread. -/
def readThread32 (m : Maker (CallNodeKey K)) (s : Reading K × List (Change K))
    (item : Nat × NodesMap K) : Option (Reading K × List (Change K)) :=
  (readNodes32 m item.1 item.2 0 s.1.1).map fun r =>
    ((r.1, (if s.1.2.2 then [] else s.1.2.1) ++ [item.1], false), s.2 ++ r.2)

/-- `serialize` for `tables::statistics`. -/
def deserialize32 (m : Maker (CallNodeKey K)) (s : Statistics K) (threads : List Nat)
    (stream : List (Nat × NodesMap K)) : Option ((Statistics K × List Nat) × List (Change K)) :=
  (Lib.run (readThread32 m) ((s.indexed, threads, true), []) stream).map fun r =>
    ((r.1.1, r.1.2.1), r.2)

/-- An update that arrives. -/
def receive32 (s : Received K) (update : Update K) : Option (Received K) :=
  (deserialize32 update.1 s.1.1 s.1.2 update.2).map fun r => (r.1, s.2 ++ r.2)

/-! ## Below the bound -/

omit [DecidableEq K] in
theorem narrow_eq {s : Statistics K} (h : s.nextId < idCount) : s.narrow = s := by
  rw [narrow, Nat.mod_eq_of_lt h]

omit [DecidableEq K] in
/-- Nothing but the constructor looks at the next id. -/
theorem commit_narrow {s s' : Statistics K} {record : Handle} {isNew : Bool}
    (h : s.commit record isNew = some s') :
    s'.nextId = s.nextId ∧ s.narrow.commit record isNew = some s'.narrow := by
  unfold commit at h ⊢
  split at h
  · next hnew =>
    obtain ⟨t, ht, rfl⟩ := Option.map_eq_some_iff.mp h
    refine ⟨rfl, ?_⟩
    rw [if_pos hnew]
    exact congrArg (Option.map _) ht
  · next hold =>
    obtain rfl := Option.some.inj h
    exact ⟨rfl, if_neg hold⟩

/-- **`container[key]`** takes an id or none; while ids last it takes the same in 32 bits. -/
theorem subscript_narrow {m : Maker (CallNodeKey K)} {s : Statistics K} {key : CallNodeKey K}
    {r : Statistics K × Handle × Bool} (h : s.subscript m key = some r) :
    s.nextId ≤ r.1.nextId ∧
      (r.1.nextId ≤ idCount → s.narrow.subscript32 m key = some (r.1.narrow, r.2)) := by
  unfold subscript32 subscript Table.subscript at *
  obtain ⟨made, hmade, rfl⟩ := Option.map_eq_some_iff.mp h
  obtain ⟨x, hx, rfl⟩ := Option.map_eq_some_iff.mp hmade
  have hx' : s.narrow.table.components () = some x := hx
  rw [hx']
  dsimp only [Option.map_some]
  cases hfind : x.find key with
  -- the record is there: no id is taken
  | some found =>
    refine ⟨Nat.le_refl _, fun _ => congrArg some (Prod.ext ?_ rfl)⟩
    exact congrArg (Statistics.mk s.table) (Nat.mod_mod _ _)
  -- a record is made, with the next id
  | none =>
    refine ⟨Nat.le_succ _, fun hle => ?_⟩
    rw [narrow_eq (Nat.lt_of_succ_le hle)]

/-- **`container[key].commit()`**, likewise. -/
theorem touch_narrow {m : Maker (CallNodeKey K)} {s : Statistics K} {key : CallNodeKey K}
    {r : Statistics K × List (Change K)} (h : s.touchTraced m key = some r) :
    s.nextId ≤ r.1.nextId ∧ (r.1.nextId ≤ idCount → s.narrow.touch32 m key = some (r.1.narrow, r.2)) := by
  obtain ⟨found, hfound, h⟩ := Option.bind_eq_some_iff.mp h
  obtain ⟨value, hvalue, h⟩ := Option.bind_eq_some_iff.mp h
  obtain ⟨s', hcommit, rfl⟩ := Option.map_eq_some_iff.mp h
  obtain ⟨hle, hsame⟩ := subscript_narrow hfound
  obtain ⟨hnext, hcommit'⟩ := commit_narrow hcommit
  rw [hnext]
  refine ⟨hle, fun hbound => ?_⟩
  have hvalue' : found.1.narrow.table.lookup found.2.1 = some value := hvalue
  rw [touch32, hsame hbound, Option.bind_some, hvalue', Option.bind_some, hcommit']
  rfl

/-- **Reading a map of callees** takes ids; while they last it is the same in 32 bits. -/
theorem readNodes_narrow (m : Maker (CallNodeKey K)) (t : Nat) (nodes : NodesMap K) :
    ∀ (parentId : Nat) (s : Statistics K) (r : Statistics K × List (Change K)),
      readNodesTraced m t nodes parentId s = some r →
      s.nextId ≤ r.1.nextId ∧
        (r.1.nextId ≤ idCount → readNodes32 m t nodes parentId s.narrow = some (r.1.narrow, r.2)) := by
  induction nodes with
  | nil =>
    intro parentId s r h
    obtain rfl := Option.some.inj h
    exact ⟨Nat.le_refl _, fun _ => rfl⟩
  | cons address v callees rest ihc ihr =>
    intro parentId s r h
    obtain ⟨touched, htouched, h⟩ := Option.bind_eq_some_iff.mp h
    obtain ⟨found, hfound, h⟩ := Option.bind_eq_some_iff.mp h
    obtain ⟨data, hdata, h⟩ := Option.bind_eq_some_iff.mp h
    obtain ⟨below, hbelow, h⟩ := Option.bind_eq_some_iff.mp h
    obtain ⟨s', hcommit, h⟩ := Option.bind_eq_some_iff.mp h
    obtain ⟨after, hafter, rfl⟩ := Option.map_eq_some_iff.mp h
    -- each of the steps takes ids; what the last one leaves bounds them all
    obtain ⟨hle₁, hsame₁⟩ := touch_narrow htouched
    obtain ⟨hle₂, hsame₂⟩ := subscript_narrow hfound
    obtain ⟨hle₃, hsame₃⟩ := ihc _ _ _ hbelow
    obtain ⟨hnext, hcommit'⟩ := commit_narrow hcommit
    obtain ⟨hle₄, hsame₄⟩ := ihr _ _ _ hafter
    have hle₃ : found.1.nextId ≤ below.1.nextId := hle₃
    have hdata' : found.1.narrow.table.lookup found.2.1 = some data := hdata
    have hle : s.nextId ≤ after.1.nextId := by omega
    refine ⟨hle, fun hbound => ?_⟩
    have hbound : after.1.nextId ≤ idCount := hbound
    have hsame₁ := hsame₁ (by omega)
    have hsame₂ := hsame₂ (by omega)
    have hsame₃ : readNodes32 m t callees data.id
        (found.1.narrow.write found.2.1 { data with stats := data.stats.add v }) =
          some (below.1.narrow, below.2) := hsame₃ (by omega)
    simp only [readNodes32, hsame₁, Option.bind_some, hsame₂, hdata', hsame₃, hcommit', hsame₄ hbound]
    rfl

/-- The threads of an update, one after the other. -/
theorem readThreads_narrow (m : Maker (CallNodeKey K)) : ∀ (stream : List (Nat × NodesMap K))
    (s r : Reading K × List (Change K)), Lib.run (readThreadTraced m) s stream = some r →
      s.1.1.nextId ≤ r.1.1.nextId ∧ (r.1.1.nextId ≤ idCount →
        Lib.run (readThread32 m) ((s.1.1.narrow, s.1.2), s.2) stream =
          some ((r.1.1.narrow, r.1.2), r.2)) := by
  intro stream
  induction stream with
  | nil =>
    intro s r h
    obtain rfl := Option.some.inj h
    exact ⟨Nat.le_refl _, fun _ => rfl⟩
  | cons item stream ih =>
    intro s r h
    obtain ⟨s', hstep, hrest⟩ := Lib.run_cons_eq_some.mp h
    obtain ⟨read, hread, rfl⟩ := Option.map_eq_some_iff.mp hstep
    obtain ⟨hle₁, hsame₁⟩ := readNodes_narrow m item.1 item.2 0 s.1.1 read hread
    obtain ⟨hle₂, hsame₂⟩ := ih _ _ hrest
    dsimp only at hle₂ hsame₂
    refine ⟨Nat.le_trans hle₁ hle₂, fun hbound => Lib.run_cons_eq_some.mpr ⟨_, ?_, hsame₂ hbound⟩⟩
    rw [readThread32, hsame₁ (Nat.le_trans hle₂ hbound)]
    rfl

/-- **Updates are received** in 32 bits as they are without a bound, while ids last. -/
theorem receive_narrow : ∀ (updates : List (Update K)) (s r : Received K),
    Lib.run receive s updates = some r →
      s.1.1.nextId ≤ r.1.1.nextId ∧ (r.1.1.nextId ≤ idCount →
        Lib.run receive32 ((s.1.1.narrow, s.1.2), s.2) updates =
          some ((r.1.1.narrow, r.1.2), r.2)) := by
  intro updates
  induction updates with
  | nil =>
    intro s r h
    obtain rfl := Option.some.inj h
    exact ⟨Nat.le_refl _, fun _ => rfl⟩
  | cons update updates ih =>
    intro s r h
    obtain ⟨s', hstep, hrest⟩ := Lib.run_cons_eq_some.mp h
    obtain ⟨read, hread, rfl⟩ := Option.map_eq_some_iff.mp hstep
    obtain ⟨reading, hreading, rfl⟩ := Option.map_eq_some_iff.mp hread
    obtain ⟨hle₁, hsame₁⟩ := readThreads_narrow update.1 update.2 _ _ hreading
    obtain ⟨hle₂, hsame₂⟩ := ih _ _ hrest
    dsimp only at hle₂ hsame₂
    refine ⟨Nat.le_trans hle₁ hle₂, fun hbound => Lib.run_cons_eq_some.mpr ⟨_, ?_, hsame₂ hbound⟩⟩
    have hread := hsame₁ (Nat.le_trans hle₂ hbound)
    rw [receive32, deserialize32]
    show Option.map _ (Option.map _ (Lib.run _ ((s.1.1.indexed.narrow, s.1.2, true), []) _)) = _
    rw [hread]
    rfl

end Statistics

/-! ## The forest -/

/-- What nodes are added to has a value because it had one, or is a node's place. -/
theorem absorb_place {P : Type} [DecidableEq P] (xs : List (P × FunctionStatistics)) :
    ∀ {F : P → Option FunctionStatistics} {p : P}, (xs.foldl Account.absorb F p).isSome = true →
      (F p).isSome = true ∨ p ∈ xs.map Prod.fst := by
  induction xs with
  | nil => exact fun h => Or.inl h
  | cons x xs ih =>
    -- by induction on the nodes, for any reading they are added to
    intro F p h
    rcases ih h with h | h
    · by_cases hp : p = x.1
      · exact Or.inr (List.mem_map.mpr ⟨x, List.mem_cons_self, hp.symm⟩)
      · rw [Account.absorb, Function.update_of_ne hp] at h
        exact Or.inl h
    · exact Or.inr (List.mem_cons_of_mem _ h)

/-- **A place has one record**: there are no more records than places. -/
theorem Reads.length_le [DecidableEq K] {values : List (CallStatistics K)} {nextId : Nat}
    {F : Nat × List K → Option FunctionStatistics} (hF : Reads values F) (h : Rooted values nextId)
    {places : List (Nat × List K)} (hplaces : ∀ p, (F p).isSome = true → p ∈ places) :
    values.length ≤ places.dedup.length := by
  -- a record is on a path,
  have hpath : ∀ r, ∃ p, r ∈ values → At values r.threadId p r.id := by
    intro r
    by_cases hr : r ∈ values
    · obtain ⟨p, _, hp⟩ := h.exists_at r hr
      exact ⟨_, fun _ => hp⟩
    · exact ⟨[], fun hmem => absurd hmem hr⟩
  choose path hpath using hpath
  -- no two are on one,
  have hnodup : (values.map fun r => (r.threadId, path r)).Nodup := by
    refine List.Nodup.map_on ?_ (List.Nodup.of_map _ h.ids)
    intro x hx y hy heq
    obtain ⟨hthread, hp⟩ := Prod.mk.inj heq
    have hat := hpath y hy
    rw [← hthread, ← hp] at hat
    exact (hpath x hx).unique h hx hy hat
  -- and a path that is read as something is one of the places
  have hsub : ∀ p ∈ values.map fun r => (r.threadId, path r), p ∈ places.dedup := by
    intro p hp
    obtain ⟨r, hr, rfl⟩ := List.mem_map.mp hp
    refine List.mem_dedup.mpr (hplaces _ ?_)
    rw [(hF _ _ r.stats).mpr ⟨r, hr, hpath r hr, rfl⟩, Option.isSome_some]
  have hle := (hnodup.subperm hsub).length_le
  rwa [List.length_map] at hle

section

variable [DecidableEq K]

/-- The places, by thread and path, that updates name. -/
def named (updates : List (Statistics.Update K)) : List (Nat × List K) :=
  (updates.flatMap fun u => Statistics.places u.2).map Prod.fst

/-- **The nodes that are named bound the ids.** -/
theorem received_ids (updates : List (Statistics.Update K)) :
    ∃ s, Lib.run Statistics.receive ((.new, []), []) updates = some s ∧ Statistics.Sound s.1.1 ∧
      Lib.run Hierarchy.step .new s.2 = some (s.1.1.observed []) ∧
      s.1.1.nextId ≤ (named updates).dedup.length + 1 := by
  obtain ⟨s, hrun, hsound, hchanges, hreads⟩ := Statistics.receive_all updates ((.new, []), [])
    Statistics.new_sound rfl
  refine ⟨s, hrun, hsound, hchanges, ?_⟩
  -- an id for each record, from 1 on
  have hcount : s.1.1.nextId = s.1.1.table.records.length + 1 := Hierarchy.run_counted hchanges
  have hempty : Reads (Statistics.new : Statistics K).values fun _ => none := by
    intro t p v
    refine ⟨fun h => ?_, fun ⟨r, hr, _⟩ => ?_⟩
    · cases h
    · cases hr
  have hle : s.1.1.values.length ≤ (named updates).dedup.length := by
    refine (hreads _ hempty).length_le hsound.rooted fun p hp => ?_
    exact (absorb_place _ hp).resolve_left Bool.false_ne_true
  rw [Statistics.values, List.length_map] at hle
  omega

/-- **The frontend call tree stays a forest.**  Any sequence of updates that name fewer places than
    there are ids is received.  Observers may ask for paths after any of its changes, in the middle of
    an update as well, and the next change is made whatever they asked for.  At any such point the
    records form a forest; the walks of `initialize_path` and of `keyer::callstack` from a record end,
    with its ancestors; a cached path is the record's root path, one that is asked for is, and neither
    it nor the root path ever changes. -/
theorem hierarchy_stays_forest (updates : List (Statistics.Update K))
    (hids : (named updates).dedup.length < idCount) :
    ∃ s, Lib.run Statistics.receive32 ((.new, []), []) updates = some s ∧
      WellFormedForest s.1.1.values ∧
      ∀ (os : List (Observation K)) (o : Observed K), Observation.changes os <+: s.2 →
        Lib.run Observed.step .new os = some o →
        WellFormedForest o.hierarchy.values ∧
        (∀ c, Observation.changes os ++ [c] <+: s.2 → ∃ o', o.step (.change c) = some o') ∧
        ∀ e ∈ o.hierarchy.records, ∃ up, Lineage o.hierarchy.values e.2 up ∧
          (∀ depth, e.2.parentId < depth →
            walk (findById o.hierarchy.values) depth e.2 = some up ∧
            Statistics.keyAppend (findById o.hierarchy.values) depth e.2 =
              some ((up.map Prod.snd).reverse ++ [e.2.address])) ∧
          ((o.paths e.1).1 = [] ∨ o.paths e.1 = (rootPath e.2 up, reentrance e.2 up)) ∧
          ∃ o₁, o.step (.query e.1) = some o₁ ∧
            o₁.paths e.1 = (rootPath e.2 up, reentrance e.2 up) ∧
            ∀ later o₂, Observation.changes (os ++ later) <+: s.2 →
              Lib.run Observed.step o₁ later = some o₂ →
              o₂.paths e.1 = (rootPath e.2 up, reentrance e.2 up) ∧
              ∃ r, (e.1, r) ∈ o₂.hierarchy.records ∧ r.id = e.2.id ∧
                Observed.TruePath o₂.hierarchy.values r (o₂.paths e.1) := by
  obtain ⟨s, hrun, hsound, hchanges, hle⟩ := received_ids updates
  have hnarrow := (Statistics.receive_narrow updates _ _ hrun).2 (by omega)
  refine ⟨((s.1.1.narrow, s.1.2), s.2), hnarrow, ?_, ?_⟩
  · have hgrown : (s.1.1.observed []).Grown := by
      refine Lib.run_invariant (fun h c h' hg hstep => ?_) s.2 .new _ Hierarchy.new_grown hchanges
      obtain ⟨ha, rfl⟩ := Hierarchy.step_eq_some.mp hstep
      exact hg.apply ha
    exact hgrown.wellFormed
  · intro os o _ ho
    obtain ⟨hforest, hrecords⟩ := Observed.forest ho
    refine ⟨hforest, fun c hnext => Observed.next_change ho hchanges hnext, fun e he => ?_⟩
    obtain ⟨up, hup, hwalks, hcached, o₁, hquery, hpath, hlater⟩ := hrecords e he
    exact ⟨up, hup, hwalks, hcached, o₁, hquery, hpath, fun later o₂ _ => hlater later o₂⟩

end

/-- A call with a callee, in two threads. -/
theorem hierarchy_stays_forest_two_threads :
    let m : Maker (CallNodeKey Nat) := .ascending fun _ => (0, 0, 0)
    let nodes : NodesMap Nat := .cons 10 ⟨1, 20, 11, 20⟩ (.cons 20 ⟨2, 9, 9, 5⟩ .nil .nil) .nil
    ∃ s, Lib.run Statistics.receive32 ((.new, []), []) [(m, [(1, nodes), (2, nodes)])] = some s ∧
      WellFormedForest s.1.1.values ∧
      s.1.1.values.map (fun r => (r.id, r.parentId)) = [(1, 0), (2, 1), (3, 0), (4, 3)] := by
  intro m nodes
  have hread : (Lib.run Statistics.receive32 ((.new, []), []) [(m, [(1, nodes), (2, nodes)])]).map
      (fun s => s.1.1.values.map fun r => (r.id, r.parentId)) = some [(1, 0), (2, 1), (3, 0), (4, 3)] := by
    decide +kernel
  obtain ⟨s, hrun, hforest, _⟩ := hierarchy_stays_forest [(m, [(1, nodes), (2, nodes)])] (by decide +kernel)
  rw [hrun, Option.map_some] at hread
  exact ⟨s, hrun, hforest, Option.some.inj hread⟩

/-! ## Beyond it -/

/-- A map of `n` items, from the address `k` on. -/
def callees (k : Nat) : Nat → NodesMap Nat
  | 0 => .nil
  | n + 1 => .cons k {} .nil (callees (k + 1) n)

namespace Statistics

/-- After `k` of them: the ids that were given, and which addresses are taken. -/
structure Numbered (k : Nat) (s : Statistics Nat) : Prop where
  /-- the table and its index agree -/
  consistent : s.table.Consistent []
  /-- the index is by call node -/
  index : s.table.keyerOf () = some callnode
  /-- the counter, wrapped -/
  nextId : s.nextId = (k + 1) % idCount
  /-- the next address is new -/
  fresh : ∀ r ∈ s.values, r.address < k
  /-- the ids, wrapped, in order -/
  ids : s.values.map CallStatistics.id = (List.range k).map fun i => (i + 1) % idCount

/-- Nothing is read. -/
theorem new_numbered : Numbered 0 (new : Statistics Nat).indexed where
  consistent := new_sound.indexed.1.consistent
  index := new_sound.indexed.1.index
  nextId := rfl
  fresh := nofun
  ids := rfl

/-- A callee at the next address gets the next id in 32 bits; asked for again it is there. -/
theorem Numbered.touch {k : Nat} {s : Statistics Nat} (hs : Numbered k s)
    (m : Maker (CallNodeKey Nat)) :
    ∃ s' h r changes, s.touch32 m (0, 0, k) = some (s', changes) ∧ Numbered (k + 1) s' ∧
      (h, r) ∈ s'.table.records ∧ s'.subscript32 m (0, 0, k) = some (s', h, false) := by
  -- no record has the next address, so one is made
  have htaken : ∀ r ∈ s.values, callnode r ≠ (0, 0, k) := by
    intro r hr hkey
    have hlt := hs.fresh r hr
    rw [(callnode_eq hkey).2.2] at hlt
    exact Nat.lt_irrefl _ hlt
  rcases subscript_cases hs.consistent hs.index m (0, 0, k) with ⟨h, r, _, hmem, hkey⟩ |
    ⟨h, r, heq, hfresh, hid, _, hkey, _⟩
  · exact absurd hkey (htaken r (mem_values hmem))
  obtain ⟨table, hcommit, hrecords, hkeyer, hconsistent⟩ :=
    commit_created hs.consistent hfresh r ((s.nextId + 1) % idCount)
  have hindex : table.keyerOf () = some callnode := hkeyer.trans hs.index
  have hvalues : (Statistics.mk table ((s.nextId + 1) % idCount)).values = s.values ++ [r] := by
    show table.records.map Prod.snd = _
    rw [hrecords, List.map_append]
    rfl
  have hr : (h, r) ∈ table.records := by
    rw [hrecords]
    exact List.mem_append_right _ List.mem_cons_self
  refine ⟨⟨table, (s.nextId + 1) % idCount⟩, h, r, [.created h r], ?_, ⟨hconsistent, hindex, ?_, ?_, ?_⟩,
    hr, ?_⟩
  · have hlookup : (s.table.create h r).lookup h = some r :=
      (Table.lookup_eq_some (hs.consistent.create hfresh r).nodup).mpr
        (List.mem_append_right _ List.mem_cons_self)
    simp only [touch32, subscript32, heq, Option.map_some, Option.bind_some, narrow, hlookup, hcommit]
    rfl
  · show (s.nextId + 1) % idCount = _
    rw [hs.nextId, Nat.mod_add_mod]
  · rw [hvalues]
    intro x hx
    rcases List.mem_append.mp hx with hx | hx
    · exact Nat.lt_succ_of_lt (hs.fresh x hx)
    · rw [List.mem_singleton.mp hx, (callnode_eq hkey).2.2]
      exact Nat.lt_succ_self k
  · rw [hvalues, List.map_append, hs.ids, List.range_succ, List.map_append, List.map_singleton,
      List.map_singleton, hid, hs.nextId]
  · -- the record of the key is the one just made
    rcases subscript_cases (s := ⟨table, (s.nextId + 1) % idCount⟩) hconsistent hindex m (0, 0, k) with
      ⟨h', r', heq', hmem', hkey'⟩ | ⟨_, _, _, _, _, _, _, hnone⟩
    · rw [hrecords] at hmem'
      rcases List.mem_append.mp hmem' with hmem' | hmem'
      · exact absurd hkey' (htaken r' (mem_values hmem'))
      · obtain ⟨rfl, rfl⟩ := Prod.mk.inj (List.mem_singleton.mp hmem')
        rw [subscript32, heq', Option.map_some, narrow]
        dsimp only
        rw [Nat.mod_mod]
    · exact absurd hkey (hnone r (mem_values hr))

/-- Statistics are written. -/
theorem Numbered.write {k : Nat} {s : Statistics Nat} (hs : Numbered k s) {h : Handle}
    {r : CallStatistics Nat} (hr : (h, r) ∈ s.table.records) (v : FunctionStatistics) :
    Numbered k (s.write h { r with stats := v }) := by
  have hsame : ∀ e ∈ s.table.records,
      (if e.1 = h then (h, { r with stats := v }) else e).2.id = e.2.id ∧
      (if e.1 = h then (h, { r with stats := v }) else e).2.address = e.2.address := by
    intro e he
    split
    · next heq =>
      rw [List.inj_on_of_nodup_map hs.consistent.nodup he hr heq]
      exact ⟨rfl, rfl⟩
    · exact ⟨rfl, rfl⟩
  refine ⟨hs.consistent.write_same_key hs.index hr rfl, hs.index, hs.nextId, ?_, ?_⟩
  · intro x hx
    obtain ⟨e', he', rfl⟩ := List.mem_map.mp hx
    obtain ⟨e, he, rfl⟩ := List.mem_map.mp he'
    rw [(hsame e he).2]
    exact hs.fresh _ (mem_values he)
  · rw [← hs.ids]
    show ((s.table.records.map _).map Prod.snd).map _ = (s.table.records.map Prod.snd).map _
    rw [List.map_map, List.map_map, List.map_map]
    exact List.map_congr_left fun e he => (hsame e he).1

/-- **Any number of callees** is read. -/
theorem Numbered.read (m : Maker (CallNodeKey Nat)) : ∀ (n k : Nat) (s : Statistics Nat), Numbered k s →
    ∃ s' changes, readNodes32 m 0 (callees k n) 0 s = some (s', changes) ∧ Numbered (k + n) s' := by
  -- by induction on how many there are, for any address they start from
  intro n
  induction n with
  | zero => exact fun k s hs => ⟨s, [], rfl, hs⟩
  | succ n ih =>
    intro k s hs
    obtain ⟨s₁, h, r, changes₁, htouch, hs₁, hr, hsubscript⟩ := hs.touch m
    have hlookup : s₁.table.lookup h = some r := (Table.lookup_eq_some hs₁.consistent.nodup).mpr hr
    have hs₂ := hs₁.write hr (r.stats.add {})
    have hcommit : (s₁.write h { r with stats := r.stats.add {} }).commit h false =
        some (s₁.write h { r with stats := r.stats.add {} }) := by
      rw [commit, if_neg Bool.false_ne_true, hs₂.consistent.commitModification]
    obtain ⟨s₃, changes₃, hrest, hs₃⟩ := ih (k + 1) _ hs₂
    refine ⟨s₃, changes₁ ++ [.written h { r with stats := r.stats.add {} }] ++ .modified h :: changes₃, ?_,
      by rw [Nat.add_comm n 1, ← Nat.add_assoc]; exact hs₃⟩
    simp only [callees, readNodes32, htouch, Option.bind_some, hsubscript, hlookup, hcommit, hrest]
    rfl

end Statistics

/-- **Ids wrap.** A thread's map has one item more than `id_t` has values: the records of the first and
    the last have the same id. -/
theorem record_ids_wrap :
    let m : Maker (CallNodeKey Nat) := .ascending fun _ => (0, 0, 0)
    ∃ s, Lib.run Statistics.receive32 ((.new, []), []) [(m, [(0, callees 0 (idCount + 1))])] = some s ∧
      ¬ (s.1.1.values.map CallStatistics.id).Nodup := by
  intro m
  obtain ⟨s, changes, hread, hs⟩ :=
    Statistics.Numbered.read m (idCount + 1) 0 _ Statistics.new_numbered
  refine ⟨((s, [0]), changes), ?_, fun hnodup => ?_⟩
  · refine Lib.run_cons_eq_some.mpr ⟨_, ?_, rfl⟩
    rw [Statistics.receive32, Statistics.deserialize32, Lib.run_cons, Statistics.readThread32]
    dsimp only
    rw [hread]
    rfl
  · rw [hs.ids, Nat.zero_add] at hnodup
    -- the ids of the first and of the last one are the same
    have heq := List.inj_on_of_nodup_map hnodup (x := 0) (y := idCount)
      (List.mem_range.mpr (Nat.succ_pos _)) (List.mem_range.mpr (Nat.lt_succ_self _))
      (by rw [Nat.add_mod_left])
    exact absurd heq (by decide)

end MicroProfiler.Frontend
