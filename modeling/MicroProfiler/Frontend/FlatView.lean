/-
  From the traces of the threads to the flat table: nothing is counted twice.

  1. **The system** (`FlatProfiling.step`) — batches of calls come to the analyzer and updates to the
     frontend, as in `Frontend.Updates`; the derived tables, created at any point, follow each
     update change by change.

  2. **Nodes and calls** (`Booked`) — the collector merges the calls of a thread by address path, and
     the table has one node a path.  Whether an ancestor has the same address is a matter of the
     path alone, so it holds of a node if and only if it holds of each of the calls merged into it
     (`Booked.sum`).

  3. **No double counting** (`flat_counts_once`) — inclusive times are those of the outermost calls;
     exclusive times add up to the inclusive times of the root calls.
-/
import MicroProfiler.Frontend.DerivedStatistics
import MicroProfiler.Frontend.Updates

namespace MicroProfiler

variable {K : Type} [DecidableEq K]

namespace CallTree

/-- The finished calls to `f` made from no other call to `f`. -/
def outermost (t : CallTree K) (f : K) : List (CompletedCall K) :=
  t.completed.filter fun c => c.path.getLast? = some f ∧ f ∉ c.path.dropLast

omit [DecidableEq K] in
/-- **With all frames closed** the exclusive times of all calls add up to the inclusive times of the
    root calls. -/
theorem sum_exclusive_closed (o : Overhead) {t : CallTree K} (h : t.opened = []) :
    (t.completed.map (·.exclusive o)).sum =
      ((t.completed.filter fun c => c.path.length = 1).map (·.inclusive o)).sum := by
  rw [completed, h]
  exact (sum_exclusive o t.roots []).trans (sum_inclusive o t.roots []).symm

/-- What the tree holds on a path, in closed form. -/
theorem statsAt_eq_some {o : Overhead} {t : CallTree K} {p : List K} {v : FunctionStatistics}
    (h : t.statsAt o p = some v) :
    p ∈ t.callPaths ∧ v.inclusiveTime = ((t.callsOn p).map (·.inclusive o)).sum ∧
      v.exclusiveTime = ((t.callsOn p).map (·.exclusive o)).sum := by
  -- a path has a value exactly when it was called
  unfold statsAt Account.stats at h
  split at h
  · next hp =>
    rw [← Option.some.inj h, ShadowStack.callsAt_completed, FunctionStatistics.ofCalls_eq]
    simp only [List.map_map]
    exact ⟨hp, rfl, rfl⟩
  · cases h

end CallTree

namespace Frontend

open Sdb

/-! ## Nodes and calls -/

/-- The nodes of a thread: one for each path of its calls, with their times. -/
structure Booked (o : Overhead) (t : CallTree K) (nodes : List (Node K)) : Prop where
  /-- a path has one node, -/
  nodup : (nodes.map Node.path).Nodup
  /-- and one only if it was called -/
  called : ∀ n ∈ nodes, ∃ c ∈ t.completed, c.path = n.path
  /-- no call is without a node -/
  covers : ∀ c ∈ t.completed, c.path ∈ nodes.map Node.path
  /-- the times are those of the calls merged -/
  inclusive : ∀ n ∈ nodes,
    n.record.stats.inclusiveTime = ((t.callsOn n.path).map (·.inclusive o)).sum
  exclusive : ∀ n ∈ nodes,
    n.record.stats.exclusiveTime = ((t.callsOn n.path).map (·.exclusive o)).sum

/-- **A sum over nodes picked by their path** is the sum over the calls merged into them. -/
theorem Booked.sum {o : Overhead} {t : CallTree K} {nodes : List (Node K)} (h : Booked o t nodes)
    {w : Node K → Int} {time : CompletedCall K → Int}
    (hw : ∀ n ∈ nodes, w n = ((t.callsOn n.path).map time).sum) (q : List K → Bool) :
    ((nodes.filter fun n => q n.path).map w).sum =
      ((t.completed.filter fun c => q c.path).map time).sum := by
  -- the calls, grouped by the path they share
  rw [← Lib.sum_groups CompletedCall.path time h.nodup q t.completed h.covers, List.filter_map,
    List.map_map]
  congr 1
  apply List.map_congr_left
  intro n hn
  exact hw n (List.mem_of_mem_filter hn)

/-- **A table that reads as the trees** has the nodes of every thread's calls. -/
theorem booked_of_reads {h : Hierarchy K} (hg : h.Grown) {o : Overhead} {trees : Nat → CallTree K}
    (hreads : Reads h.values fun place => (trees place.1).statsAt o place.2) {threadid : Nat}
    (hclosed : (trees threadid).opened = []) :
    Booked o (trees threadid)
      ((h.nodes.map Prod.snd).filter fun n => n.record.threadId = threadid) := by
  obtain ⟨t, ht⟩ : ∃ t, trees threadid = t := ⟨_, rfl⟩
  -- no frame is open: the paths of the tree are those of finished calls
  have hpaths : t.callPaths = t.completed.map (·.path) := by
    rw [ht] at hclosed
    rw [CallTree.callPaths, CallTree.openPaths, hclosed]
    exact List.append_nil _
  have hnode : ∀ n ∈ (h.nodes.map Prod.snd).filter fun n => n.record.threadId = threadid,
      n.record ∈ h.values ∧ At h.values threadid n.path n.record.id ∧
        t.statsAt o n.path = some n.record.stats := by
    intro n hn
    obtain ⟨hn, hthread⟩ := List.mem_filter.mp hn
    obtain ⟨e, he, rfl⟩ := List.mem_map.mp hn
    have hmem : e.2.record ∈ h.values := List.mem_map.mpr ⟨_, (hg.mem_nodes.mp he).1, rfl⟩
    have hat := hg.path_at (n := e.2) he
    rw [of_decide_eq_true hthread] at hat
    refine ⟨hmem, hat, ?_⟩
    rw [← ht]
    exact (hreads threadid e.2.path _).mpr ⟨_, hmem, hat, rfl⟩
  rw [ht]
  refine ⟨?_, ?_, ?_, ?_, ?_⟩
  · -- two nodes with one path are one record, by the uniqueness of places
    have hids : ((h.nodes.map Prod.snd).map fun n => n.record.id).Nodup := by
      have := hg.rooted.ids
      rw [← hg.record_nodes, List.map_map] at this
      exact this
    refine List.Nodup.map_on ?_ ((List.Nodup.of_map _ hids).filter _)
    intro n hn n' hn' hpath
    obtain ⟨hmem, hat, _⟩ := hnode n hn
    obtain ⟨hmem', hat', _⟩ := hnode n' hn'
    rw [← hpath] at hat'
    refine List.inj_on_of_nodup_map hids (List.mem_of_mem_filter hn) (List.mem_of_mem_filter hn') ?_
    exact congrArg CallStatistics.id (hat.unique hg.rooted hmem hmem' hat')
  · intro n hn
    -- a node's record reads as something, so its path was called
    have hp := (CallTree.statsAt_eq_some (hnode n hn).2.2).1
    rw [hpaths] at hp
    exact List.mem_map.mp hp
  · -- a call's path reads as something, so there is a record on it
    intro c hc
    have hp : c.path ∈ t.callPaths := by
      rw [hpaths]
      exact List.mem_map_of_mem hc
    obtain ⟨v, hv⟩ : ∃ v, t.statsAt o c.path = some v := ⟨_, if_pos hp⟩
    rw [← ht] at hv
    obtain ⟨r, hr, hat, _⟩ := (hreads threadid c.path v).mp hv
    obtain ⟨e, he, rfl⟩ := List.mem_map.mp hr
    obtain ⟨up, hup⟩ := hg.rooted.exists_lineage e.2 hr
    have hin : (e.1, Node.mk e.2 up) ∈ h.nodes := hg.mem_nodes.mpr ⟨he, hup⟩
    obtain ⟨hthread, hpath⟩ := At.inj hg.rooted hr (hg.path_at hin) hat
    refine List.mem_map.mpr ⟨⟨e.2, up⟩, List.mem_filter.mpr ⟨List.mem_map.mpr ⟨_, hin, rfl⟩, ?_⟩, hpath⟩
    exact decide_eq_true hthread
  · exact fun n hn => (CallTree.statsAt_eq_some (hnode n hn).2.2).2.1
  · exact fun n hn => (CallTree.statsAt_eq_some (hnode n hn).2.2).2.2

/-! ## The flat records of a thread -/

/-- The flat records of a thread whose calls are those of `t`. -/
structure FlatOf (o : Overhead) (t : CallTree K) (flat : List (CallStatistics K)) : Prop where
  /-- a record for each function that was called -/
  functions : ∀ f, (∃ r ∈ flat, r.address = f) ↔ ∃ c ∈ t.completed, c.path.getLast? = some f
  /-- and one only -/
  nodup : (flat.map CallStatistics.address).Nodup
  /-- a recursive call is inside its outermost one and is not counted again -/
  inclusive : ∀ r ∈ flat,
    r.stats.inclusiveTime = ((t.outermost r.address).map (·.inclusive o)).sum
  /-- nothing is counted twice, and nothing is left out -/
  exclusive : (flat.map fun r => r.stats.exclusiveTime).sum =
    ((t.completed.filter fun c => c.path.length = 1).map (·.inclusive o)).sum

omit [DecidableEq K] in
/-- A node's path ends with its address. -/
theorem Node.getLast?_path (n : Node K) : n.path.getLast? = some n.address := List.getLast?_concat

omit [DecidableEq K] in
/-- Whether a call is outermost is a matter of its path. -/
theorem Node.outermost_iff (n : Node K) : n.Outermost ↔ n.address ∉ n.path.dropLast := by
  unfold Node.Outermost
  rw [Node.dropLast_path, List.mem_reverse, List.mem_map]
  constructor
  · rintro hno ⟨a, ha, heq⟩
    exact hno a ha heq
  · intro hno a ha heq
    exact hno ⟨a, ha, heq⟩

/-- **Inclusive times** are those of the outermost calls. -/
theorem Booked.outermost {o : Overhead} {t : CallTree K} {nodes : List (Node K)}
    (h : Booked o t nodes) (f : K) :
    (totals (nodes.filter fun n => n.address = f)).inclusiveTime =
      ((t.outermost f).map (·.inclusive o)).sum := by
  -- whether a node is outermost is decided by its path, which all its calls share
  have hsum := h.sum h.inclusive fun p => p.getLast? = some f ∧ f ∉ p.dropLast
  refine Eq.trans ?_ hsum
  show (((nodes.filter fun n => n.address = f).filter fun n => n.Outermost).map _).sum = _
  rw [List.filter_filter]
  congr 2
  apply List.filter_congr
  intro n _
  rw [← Bool.decide_and, decide_eq_decide, Node.getLast?_path, Option.some_inj, and_comm]
  refine and_congr_right fun haddress => ?_
  rw [Node.outermost_iff, haddress]

/-- **The flat records of a thread** are those of its calls. -/
theorem Booked.flatOf {o : Overhead} {t : CallTree K} {nodes : List (Node K)} {threadid : Nat}
    (h : Booked o t (nodes.filter fun n => n.record.threadId = threadid))
    (hclosed : t.opened = []) {table : List (CallStatistics K)}
    (htable : TotalsBy Node.address nodes table) :
    FlatOf o t (table.filter fun r => r.threadId = threadid) := by
  -- the group of a record, seen within the thread
  have hgroup : ∀ r ∈ table.filter fun r => r.threadId = threadid, r.stats =
      totals ((nodes.filter fun n => n.record.threadId = threadid).filter
        fun n => n.address = r.address) := by
    intro r hr
    obtain ⟨hr, hthread⟩ := List.mem_filter.mp hr
    rw [htable.stats r hr, List.filter_filter]
    congr 1
    apply List.filter_congr
    intro n _
    rw [of_decide_eq_true hthread, ← Bool.decide_and]
  have haddresses : ((table.filter fun r => r.threadId = threadid).map
      CallStatistics.address).Nodup := by
    refine List.Nodup.map_on ?_ ((List.Nodup.of_map _ htable.nodup).filter _)
    intro r hr r' hr' heq
    obtain ⟨hr, hthread⟩ := List.mem_filter.mp hr
    obtain ⟨hr', hthread'⟩ := List.mem_filter.mp hr'
    refine List.inj_on_of_nodup_map htable.nodup hr hr' (Prod.ext heq ?_)
    exact (of_decide_eq_true hthread).trans (of_decide_eq_true hthread').symm
  -- within a thread the address alone is the key of `flat`
  have hkeys : ∀ a, (∃ r ∈ table.filter fun r => r.threadId = threadid, r.address = a) ↔
      ∃ n ∈ nodes.filter fun n => n.record.threadId = threadid, n.address = a := by
    intro a
    constructor
    · rintro ⟨r, hr, rfl⟩
      obtain ⟨hr, hthread⟩ := List.mem_filter.mp hr
      obtain ⟨n, hn, haddress, hsame⟩ := (htable.keys _ _).mp ⟨r, hr, rfl, rfl⟩
      refine ⟨n, List.mem_filter.mpr ⟨hn, ?_⟩, haddress⟩
      exact decide_eq_true (hsame.trans (of_decide_eq_true hthread))
    · rintro ⟨n, hn, rfl⟩
      obtain ⟨hn, hthread⟩ := List.mem_filter.mp hn
      obtain ⟨r, hr, haddress, hsame⟩ := (htable.keys _ _).mpr ⟨n, hn, rfl, rfl⟩
      refine ⟨r, List.mem_filter.mpr ⟨hr, ?_⟩, haddress⟩
      exact decide_eq_true (hsame.trans (of_decide_eq_true hthread))
  refine ⟨?_, haddresses, ?_, ?_⟩
  · -- functions: a record, a node, a call
    intro f
    rw [hkeys]
    constructor
    · rintro ⟨n, hn, rfl⟩
      obtain ⟨c, hc, hpath⟩ := h.called n hn
      exact ⟨c, hc, by rw [hpath, Node.getLast?_path]⟩
    · rintro ⟨c, hc, hlast⟩
      obtain ⟨n, hn, hpath⟩ := List.mem_map.mp (h.covers c hc)
      refine ⟨n, hn, ?_⟩
      rw [← hpath, Node.getLast?_path] at hlast
      exact Option.some.inj hlast
  · intro r hr
    rw [hgroup r hr]
    exact h.outermost r.address
  · -- by function, then by path, then all calls of the tree
    have hfunctions := Lib.sum_groups Node.address (fun n => n.record.stats.exclusiveTime)
      haddresses (fun _ => true) (nodes.filter fun n => n.record.threadId = threadid) (by
        intro n hn
        obtain ⟨r, hr, haddress⟩ := (hkeys n.address).mpr ⟨n, hn, rfl⟩
        exact List.mem_map.mpr ⟨r, hr, haddress⟩)
    have hpaths := h.sum h.exclusive fun _ => true
    rw [List.filter_true, List.filter_true] at hfunctions hpaths
    rw [← CallTree.sum_exclusive_closed o hclosed, ← hpaths, ← hfunctions, List.map_map]
    congr 1
    apply List.map_congr_left
    intro r hr
    rw [hgroup r hr]
    rfl

/-! ## The system -/

variable [Zero K]

/-- The collector's analyzer and the frontend's table, with the derived tables once created. -/
structure FlatProfiling (K : Type) where
  profiling : Profiling K
  derived : Option (Derived K)

/-- A batch comes, the frontend is updated, or the derived tables are created. -/
inductive FlatAction (K : Type) [DecidableEq K] where
  | acceptCalls (batch : Batch K)
  | update (it : Iteration K) (m : Maker (CallNodeKey K)) (threads : List Nat) (dm : DerivedMaker K)
  | create (dm : DerivedMaker K)

omit [Zero K] in
/-- What the collector and the table see of it. -/
def FlatAction.action : FlatAction K → Option (Action K)
  | .acceptCalls b => some (.acceptCalls b)
  | .update it m threads _ => some (.update it m threads)
  | .create _ => none

/-- A thread's records. -/
def traceOf (actions : List (FlatAction K)) (threadid : Nat) : List (CallRecord K) :=
  recordsOf threadid (batches (actions.filterMap FlatAction.action))

/-- A change of the table, and the slots. -/
def Derived.follow (dm : DerivedMaker K) (s : Hierarchy K × Derived K) (c : Change K) :
    Option (Hierarchy K × Derived K) :=
  (s.1.step c).bind fun h => (s.2.onChange dm h c).map (Prod.mk h)

namespace FlatProfiling

def new (o : Overhead) : FlatProfiling K := ⟨.new o, none⟩

def step (s : FlatProfiling K) : FlatAction K → Option (FlatProfiling K)
  | .acceptCalls b =>
      (s.profiling.step (.acceptCalls b)).map fun profiling => { s with profiling := profiling }
  | .update it m threads dm =>
      let statistics := s.profiling.statistics
      (Statistics.deserializeTraced m statistics threads (serialize it s.profiling.analyzer)).bind
        fun r => (emit (fun d => (Lib.run (Derived.follow dm) (statistics.observed [], d) r.2).map
          Prod.snd) s.derived).map fun derived => ⟨⟨s.profiling.analyzer.clear, r.1.1⟩, derived⟩
  | .create dm =>
      (Derived.create dm (s.profiling.statistics.observed [])).map fun d =>
        { s with derived := some d }

/-- INVARIANT: collector and table are related, and the derived tables are upheld. -/
structure Steady (o : Overhead) (s : FlatProfiling K) (trees : Nat → CallTree K) : Prop where
  /-- as in the runs without derived tables -/
  related : ∃ settled, Related o s.profiling trees settled
  /-- the table is one that updates have made -/
  grown : (s.profiling.statistics.observed []).Grown
  /-- none, or tables that follow it -/
  derived : ∀ d, s.derived = some d → Derived.Upheld (s.profiling.statistics.observed []) d

/-- Nothing is read, and nothing derived. -/
theorem new_steady (o : Overhead) :
    (new o : FlatProfiling K).Steady o fun _ => CallTree.empty :=
  ⟨⟨_, new_related o⟩, Hierarchy.new_grown, nofun⟩

/-- **The derived tables follow** a sequence of changes. -/
theorem follow_upheld (dm : DerivedMaker K) {h h' : Hierarchy K} {d : Derived K}
    (hd : Derived.Upheld h d) {changes : List (Change K)}
    (hrun : Lib.run Hierarchy.step h changes = some h') :
    ∃ d', Lib.run (Derived.follow dm) (h, d) changes = some (h', d') ∧ Derived.Upheld h' d' := by
  have hstep : ∀ (s : Hierarchy K × Derived K) (h : Hierarchy K) (c : Change K) (h' : Hierarchy K),
      (s.1 = h ∧ Derived.Upheld h s.2) → h.step c = some h' →
      ∃ s', Derived.follow dm s c = some s' ∧ s'.1 = h' ∧ Derived.Upheld h' s'.2 := by
    -- a change is made to the table first, and its slots run on what it leaves
    rintro ⟨_, d⟩ h c h' ⟨rfl, hd⟩ hc
    obtain ⟨ha, rfl⟩ := Hierarchy.step_eq_some.mp hc
    obtain ⟨d', hd', _, hupheld⟩ := Derived.onChange_upheld hd ha dm
    refine ⟨(_, d'), ?_, rfl, hupheld⟩
    unfold Derived.follow
    rw [hc, Option.bind_some, hd']
    rfl
  obtain ⟨⟨_, d'⟩, hrun', rfl, hupheld⟩ :=
    Lib.run_simulates hstep changes (h, d) h h' ⟨rfl, hd⟩ hrun
  exact ⟨d', hrun', hupheld⟩

/-- **An update**: the table reads as the trees, and the derived tables follow. -/
theorem Steady.update {o : Overhead} {s : FlatProfiling K} {trees : Nat → CallTree K}
    (hs : s.Steady o trees) (it : Iteration K) (m : Maker (CallNodeKey K)) (threads : List Nat)
    (dm : DerivedMaker K) :
    ∃ s', s.step (.update it m threads dm) = some s' ∧ s'.Steady o trees ∧
      Reads s'.profiling.statistics.values fun place => (trees place.1).statsAt o place.2 := by
  obtain ⟨settled, hrelated⟩ := hs.related
  obtain ⟨profiling, settled', hstep, hrelated', hreads⟩ := hrelated.update it m threads
  obtain ⟨statistics, threads', changes, htraced, hdeserialize, _, hrun⟩ :=
    hrelated.sound.deserialize_traced m threads (serialize it s.profiling.analyzer)
  -- the changes are those of the update itself: reading them out changes nothing
  obtain rfl : ⟨s.profiling.analyzer.clear, statistics⟩ = profiling := by
    have : s.profiling.step (.update it m threads) =
        some ⟨s.profiling.analyzer.clear, statistics⟩ := by
      show (Statistics.deserialize m _ threads _).map _ = _
      rw [hdeserialize]
      rfl
    exact Option.some.inj (this.symm.trans hstep)
  have hgrown : (statistics.observed []).Grown := by
    refine Lib.run_invariant (fun h c h' hg hc => ?_) changes _ _ hs.grown hrun
    obtain ⟨ha, rfl⟩ := Hierarchy.step_eq_some.mp hc
    exact hg.apply ha
  have hslot : ∀ d, s.derived = some d → ∃ d', (Lib.run (Derived.follow dm)
      (s.profiling.statistics.observed [], d) changes).map Prod.snd = some d' ∧
      Derived.Upheld (statistics.observed []) d' := by
    intro d hd
    obtain ⟨d', hd', hupheld⟩ := follow_upheld dm (hs.derived d hd) hrun
    exact ⟨d', congrArg (Option.map Prod.snd) hd', hupheld⟩
  obtain ⟨derived, hemit, hderived⟩ := emit_establishes hslot
  refine ⟨⟨⟨s.profiling.analyzer.clear, statistics⟩, derived⟩, ?_,
    ⟨⟨settled', hrelated'⟩, hgrown, hderived⟩, hreads⟩
  unfold FlatProfiling.step
  simp only [htraced, Option.bind_some, hemit, Option.map_some]

/-- The trees read the batches. -/
def read (trees : Nat → CallTree K) (a : FlatAction K) : Option (Nat → CallTree K) :=
  match a.action with
  | none => some trees
  | some action => readAction trees action

/-- The step lemma: trees that read the batches, and the system, go together. -/
theorem step_steady {o : Overhead} (s : FlatProfiling K) (trees : Nat → CallTree K)
    (a : FlatAction K) (trees' : Nat → CallTree K) (hs : s.Steady o trees)
    (ha : read trees a = some trees') : ∃ s', s.step a = some s' ∧ s'.Steady o trees' := by
  cases a with
  | acceptCalls b =>
    obtain ⟨p, hstep, hrelated⟩ := step_related s.profiling trees (.acceptCalls b) trees'
      hs.related ha
    obtain ⟨analyzer, _, rfl⟩ := Option.map_eq_some_iff.mp hstep
    exact ⟨_, congrArg (Option.map _) hstep, hrelated, hs.grown, hs.derived⟩
  | update it m threads dm =>
    obtain rfl : trees = trees' := Option.some.inj ha
    obtain ⟨s', hstep, hsteady, _⟩ := hs.update it m threads dm
    exact ⟨s', hstep, hsteady⟩
  -- tables that are created are upheld from that moment on
  | create dm =>
    obtain rfl : trees = trees' := Option.some.inj ha
    obtain ⟨d, hd, _, hupheld⟩ := Derived.create_upheld hs.grown dm
    refine ⟨_, congrArg (Option.map _) hd, hs.related, hs.grown, ?_⟩
    rintro _ ⟨⟩
    exact hupheld

omit [Zero K] in
/-- What the trees read is the batches only. -/
theorem run_read : ∀ (actions : List (FlatAction K)) (trees : Nat → CallTree K),
    Lib.run read trees actions =
      Lib.run readBatch trees (batches (actions.filterMap FlatAction.action)) := by
  intro actions trees
  rw [← run_readAction]
  induction actions generalizing trees with
  | nil => rfl
  | cons a actions ih =>
    cases a with
    | acceptCalls b =>
      show (readBatch trees b).bind _ = (readBatch trees b).bind _
      cases readBatch trees b with
      | none => rfl
      | some trees' => exact ih trees'
    | update it m threads dm => exact ih trees
    | create dm => exact ih trees

end FlatProfiling

/-- **No double counting from trace to flat view.**  Let every thread's records be well nested,
    however they are cut into batches, interleaved with other threads', with updates and with the
    creation of the derived tables.  After a final update, take any thread all of whose frames are
    closed, and the tree its trace is read as.  The thread's flat records are one for each function
    it called, with the inclusive times of the outermost calls to that function; and their exclusive
    times add up to the inclusive times of the root calls. -/
theorem flat_counts_once (o : Overhead) (actions : List (FlatAction K))
    (hnested : ∀ threadid, WellNested (traceOf actions threadid)) (it : Iteration K)
    (m : Maker (CallNodeKey K)) (threads : List Nat) (dm : DerivedMaker K) :
    ∃ s, Lib.run FlatProfiling.step (.new o) (actions ++ [.update it m threads dm]) = some s ∧
      ∀ d, s.derived = some d → ∃ table, d.calls.aggregate = some table ∧
        ∀ threadid, exits (traceOf actions threadid) = enters (traceOf actions threadid) →
          ∃ t, CallTree.read (traceOf actions threadid) = some t ∧ t.opened = [] ∧
            t.records = traceOf actions threadid ∧
            FlatOf o t ((table.records.map Prod.snd).filter fun r => r.threadId = threadid) := by
  choose trees htrees using fun threadid => (CallTree.wellNested_iff _).mp (hnested threadid)
  have hread : Lib.run FlatProfiling.read (fun _ => CallTree.empty) actions = some trees := by
    rw [FlatProfiling.run_read]
    exact readBatches _ _ _ htrees
  obtain ⟨s₀, hrun, hsteady⟩ := Lib.run_simulates FlatProfiling.step_steady actions (.new o) _ trees
    (FlatProfiling.new_steady o) hread
  obtain ⟨s, hstep, hsteady, hreads⟩ := hsteady.update it m threads dm
  refine ⟨s, ?_, ?_⟩
  · rw [Lib.run_append, hrun, Option.bind_some, Lib.run_cons, hstep]
    rfl
  · intro d hd
    have hupheld := hsteady.derived d hd
    have haddresses := Derived.mem_addresses hupheld.selection hupheld.committed
    obtain ⟨table, htable, htotals⟩ := (hupheld.derivedFrom rfl haddresses).flat
    refine ⟨table, htable, ?_⟩
    intro threadid hclosed
    have hdepth := CallTree.depth_run _ _ _ (htrees threadid)
    -- as many exits as enters: no frame is open
    have hopened : (trees threadid).opened = [] := by
      refine List.eq_nil_of_length_eq_zero ?_
      simp only [CallTree.empty, List.length_nil] at hdepth
      omega
    refine ⟨trees threadid, htrees threadid, hopened, CallTree.records_run _ _ _ (htrees threadid),
      ?_⟩
    exact (booked_of_reads hsteady.grown hreads hopened).flatOf hopened htotals

/-- Function 10 calls 20, which calls 10 again; two updates, the first with all three calls open. -/
def recursiveTrace : List (FlatAction Nat) :=
  let bottom : StackRecord Nat := ⟨0, 0, 0, 0, [], []⟩
  [.acceptCalls ⟨7, [⟨0, some 10⟩, ⟨10, some 20⟩, ⟨20, some 10⟩], bottom⟩,
    .update .listed (.ascending fun _ => (0, 0, 0)) [] .blank, .create .blank,
    .acceptCalls ⟨7, [⟨40, none⟩, ⟨70, none⟩, ⟨100, none⟩], bottom⟩]

/-- Function 10 is counted once with its outermost call; its exclusive time is that of both calls.
    -/
theorem flat_counts_once_recursive :
    ∃ s d table t, Lib.run FlatProfiling.step (.new ⟨1, 2⟩)
        (recursiveTrace ++ [.update .listed (.ascending fun _ => (0, 0, 0)) [] .blank]) = some s ∧
      s.derived = some d ∧ d.calls.aggregate = some table ∧
      CallTree.read (traceOf recursiveTrace 7) = some t ∧
      FlatOf ⟨1, 2⟩ t ((table.records.map Prod.snd).filter fun r => r.threadId = 7) ∧
      (table.records.map fun e => (e.2.address, e.2.stats.inclusiveTime, e.2.stats.exclusiveTime)) =
        [(10, 93, 56), (20, 56, 37)] := by
  have hnested : ∀ threadid, WellNested (traceOf recursiveTrace threadid) := by
    intro threadid
    by_cases h7 : threadid = 7
    · subst h7
      decide
    · have hnone : traceOf recursiveTrace threadid = [] := by
        simp [traceOf, recordsOf, batches, recursiveTrace, FlatAction.action, Ne.symm h7]
      rw [hnone]
      decide
  obtain ⟨s, hrun, hflat⟩ := flat_counts_once ⟨1, 2⟩ recursiveTrace hnested .listed
    (.ascending fun _ => (0, 0, 0)) [] .blank
  have hsummary : (Lib.run FlatProfiling.step (.new ⟨1, 2⟩)
      (recursiveTrace ++ [.update .listed (.ascending fun _ => (0, 0, 0)) [] .blank])).bind
        (fun s => s.derived.bind fun d => d.calls.aggregate.map fun table => table.records.map
          fun e => (e.2.address, e.2.stats.inclusiveTime, e.2.stats.exclusiveTime)) =
      some [(10, 93, 56), (20, 56, 37)] := by
    decide +kernel
  rw [hrun, Option.bind_some] at hsummary
  obtain ⟨d, hd, htable⟩ := Option.bind_eq_some_iff.mp hsummary
  obtain ⟨table, htable, hrecords⟩ := Option.map_eq_some_iff.mp htable
  obtain ⟨table', htable', hthreads⟩ := hflat d hd
  obtain rfl := Option.some.inj (htable.symm.trans htable')
  obtain ⟨t, ht, _, _, hexact⟩ := hthreads 7 (by decide)
  exact ⟨s, d, table, t, hrun, hd, htable, ht, hexact, hrecords⟩

end Frontend

end MicroProfiler
