/-
  From the collector's analyzer to the frontend's statistics table, one update after the other.

  1. **The system** — batches of calls come to the analyzer, each of some thread; at any moment the
     handler of `request_update` serializes the analyzer and clears it, and the frontend adds what
     it decodes to its table (`Profiling.step`).  `Iteration` stands for the order in which the
     hash maps are enumerated, which is the order of the serialized items.

  2. **What relates the two sides** (`Related`) — an account of each thread's calls is split in
     two: the part settled by earlier updates is what the table reads as, the rest is what the
     thread's map holds (`Analyzer.Tracks`).  A batch grows the rest, an update moves it over.

  3. **Updates compose** (`updates_compose`) — after a final update the table holds, for each
     thread and path, what an analyzer holds that was fed the same records in any other way and
     never cleared.
-/
import MicroProfiler.Collector.Analyzer
import MicroProfiler.Frontend.StatisticsTable

namespace MicroProfiler.Frontend

open Sdb

variable {K : Type} [DecidableEq K]

/-- A call of `accept_calls`; `bottom` is what an uninitialised stack record would hold. -/
structure Batch (K : Type) where
  threadid : Nat
  calls : List (CallRecord K)
  bottom : StackRecord K

/-- How the hash maps are enumerated: every entry once, in any order. -/
structure Iteration (K : Type) [DecidableEq K] where
  threads : List (Nat × ThreadAnalyzer K) → List (Nat × ThreadAnalyzer K)
  threads_perm : ∀ l, (threads l).Perm l
  nodes : NodesMap K → NodesMap K
  nodes_distinct : ∀ m, m.Distinct → (nodes m).Distinct
  nodes_statsAt : ∀ m p, m.Distinct → (nodes m).statsAt p = m.statsAt p

/-- The items of a serialized analyzer. -/
def serialize (it : Iteration K) (a : Analyzer K) : List (Nat × NodesMap K) :=
  (it.threads a.threadAnalyzers).map fun e => (e.1, it.nodes e.2.statistics)

/-- The collector's analyzer and the frontend's table. -/
structure Profiling (K : Type) where
  analyzer : Analyzer K
  statistics : Statistics K

/-- A batch comes, or the frontend is updated; `threads` is what the `additive` context holds. -/
inductive Action (K : Type) [DecidableEq K] where
  | acceptCalls (batch : Batch K)
  | update (it : Iteration K) (m : Maker (CallNodeKey K)) (threads : List Nat)

/-- `analyzer::accept_calls`, for a batch. -/
def feed (a : Analyzer K) (b : Batch K) : Option (Analyzer K) :=
  a.acceptCalls b.bottom b.threadid b.calls

namespace Profiling

def new (o : Overhead) : Profiling K := ⟨.new o, .new⟩

/-- One action.  An update is the handler of `request_update` and the frontend's callback. -/
def step (s : Profiling K) : Action K → Option (Profiling K)
  | .acceptCalls b => (feed s.analyzer b).map fun a => { s with analyzer := a }
  | .update it m threads =>
      (s.statistics.deserialize m threads (serialize it s.analyzer)).map fun r =>
        ⟨s.analyzer.clear, r.1⟩

end Profiling

/-- The batches among the actions. -/
def batches (actions : List (Action K)) : List (Batch K) :=
  actions.filterMap fun
    | .acceptCalls b => some b
    | .update _ _ _ => none

/-- A thread's records, in order. -/
def recordsOf (threadid : Nat) (bs : List (Batch K)) : List (CallRecord K) :=
  bs.flatMap fun b => if b.threadid = threadid then b.calls else []

/-! ## The call trees of all threads -/

/-- A batch is read on in its thread's tree. -/
def readBatch (trees : Nat → CallTree K) (b : Batch K) : Option (Nat → CallTree K) :=
  (Lib.run CallTree.step (trees b.threadid) b.calls).map (Function.update trees b.threadid)

omit [DecidableEq K] in
/-- **Threads are read independently** of how their batches interleave. -/
theorem readBatches : ∀ (bs : List (Batch K)) (trees trees' : Nat → CallTree K),
    (∀ threadid, Lib.run CallTree.step (trees threadid) (recordsOf threadid bs) =
      some (trees' threadid)) → Lib.run readBatch trees bs = some trees' := by
  intro bs
  induction bs with
  | nil =>
    intro trees trees' h
    have hsame : trees = trees' := funext fun threadid => Option.some.inj (h threadid)
    rw [hsame]
    rfl
  | cons b bs ih =>
    intro trees trees' h
    have hown := h b.threadid
    rw [recordsOf, List.flatMap_cons, if_pos rfl] at hown
    obtain ⟨t, ht, hrest⟩ := Lib.run_append_eq_some.mp hown
    refine Lib.run_cons_eq_some.mpr ⟨Function.update trees b.threadid t, ?_, ih _ _ ?_⟩
    · unfold readBatch
      rw [ht]
      rfl
    · intro threadid
      by_cases heq : threadid = b.threadid
      · subst heq
        rw [Function.update_self]
        exact hrest
      · have hother := h threadid
        rw [recordsOf, List.flatMap_cons, if_neg (Ne.symm heq), List.nil_append] at hother
        rw [Function.update_of_ne heq]
        exact hother

/-- The trees do not see updates. -/
def readAction (trees : Nat → CallTree K) : Action K → Option (Nat → CallTree K)
  | .acceptCalls b => readBatch trees b
  | .update _ _ _ => some trees

theorem run_readAction : ∀ (actions : List (Action K)) (trees : Nat → CallTree K),
    Lib.run readAction trees actions = Lib.run readBatch trees (batches actions) := by
  intro actions
  induction actions with
  | nil => exact fun _ => rfl
  | cons a actions ih =>
    intro trees
    cases a with
    | acceptCalls b =>
      show (readBatch trees b).bind _ = (readBatch trees b).bind _
      cases readBatch trees b with
      | none => rfl
      | some trees' => exact ih trees'
    | update it m threads => exact ih trees

/-- A reference that is only fed keeps everything in its maps. -/
theorem feeds_track (o : Overhead) {bs : List (Batch K)} {trees : Nat → CallTree K}
    (h : Lib.run readBatch (fun _ => CallTree.empty) bs = some trees) :
    ∃ a, Lib.run feed (Analyzer.new o) bs = some a ∧
      Analyzer.Tracks o (fun _ => Account.empty) trees a := by
  refine Lib.run_simulates (R := fun a trees => Analyzer.Tracks o (fun _ => Account.empty) trees a)
    ?_ bs (Analyzer.new o) _ trees (Analyzer.new_tracks o) h
  intro a trees b trees' htracks hread
  obtain ⟨t, ht, rfl⟩ := Option.map_eq_some_iff.mp hread
  exact htracks.acceptCalls b.bottom ht

/-! ## Both sides -/

/-- The table reads as the settled accounts, the analyzer holds the rest. -/
structure Related (o : Overhead) (s : Profiling K) (trees : Nat → CallTree K)
    (settled : Nat → Account (List K)) : Prop where
  tracks : s.analyzer.Tracks o settled trees
  sound : s.statistics.Sound
  closed : ∀ threadid, (settled threadid).Closed
  reads : Reads s.statistics.values fun place => (settled place.1).stats place.2

theorem new_related (o : Overhead) :
    Related o (Profiling.new o : Profiling K) (fun _ => CallTree.empty) fun _ => Account.empty where
  tracks := Analyzer.new_tracks o
  sound := Statistics.new_sound
  closed := fun _ => Account.empty_closed
  reads := by
    intro t p v
    constructor
    · nofun
    · rintro ⟨r, hr, _⟩
      exact absurd hr List.not_mem_nil

/-- The stream holds what the analyzer holds. -/
theorem mem_places_serialize {a : Analyzer K} (it : Iteration K)
    (hnodup : (a.threadAnalyzers.map Prod.fst).Nodup)
    (hdistinct : ∀ e ∈ a.threadAnalyzers, e.2.statistics.Distinct) :
    ((Statistics.places (serialize it a)).map Prod.fst).Nodup ∧
      ∀ place v, (place, v) ∈ Statistics.places (serialize it a) ↔
        a.statsAt place.1 place.2 = some v := by
  have hmem : ∀ e, e ∈ it.threads a.threadAnalyzers ↔ e ∈ a.threadAnalyzers := fun e =>
    (it.threads_perm _).mem_iff
  have hthreads : ((serialize it a).map Prod.fst).Nodup := by
    unfold serialize
    rw [List.map_map]
    exact (((it.threads_perm a.threadAnalyzers).map Prod.fst).nodup_iff).mpr hnodup
  have hmaps : ∀ e ∈ serialize it a, e.2.Distinct := by
    intro e he
    obtain ⟨e₀, he₀, rfl⟩ := List.mem_map.mp he
    exact it.nodes_distinct _ (hdistinct e₀ ((hmem e₀).mp he₀))
  refine ⟨Statistics.nodup_places hthreads hmaps, ?_⟩
  rintro ⟨t, p⟩ v
  rw [Statistics.mem_places hmaps]
  constructor
  · rintro ⟨m, hm, hv⟩
    obtain ⟨e, he, heq⟩ := List.mem_map.mp hm
    obtain ⟨rfl, rfl⟩ := Prod.mk.inj heq
    have he := (hmem e).mp he
    rw [it.nodes_statsAt _ _ (hdistinct e he)] at hv
    show (a.find e.1).bind _ = some v
    rw [(Analyzer.find_eq_some hnodup).mpr he]
    exact hv
  · intro hv
    obtain ⟨t₀, hfind, hv⟩ := Option.bind_eq_some_iff.mp hv
    have he := (Analyzer.find_eq_some hnodup).mp hfind
    refine ⟨it.nodes t₀.statistics, List.mem_map.mpr ⟨_, (hmem _).mpr he, rfl⟩, ?_⟩
    rw [it.nodes_statsAt _ _ (hdistinct _ he)]
    exact hv

/-- **An update** moves what the maps held over to the table, which then reads as the trees. -/
theorem Related.update {o : Overhead} {s : Profiling K} {trees : Nat → CallTree K}
    {settled : Nat → Account (List K)} (h : Related o s trees settled) (it : Iteration K)
    (m : Maker (CallNodeKey K)) (threads : List Nat) :
    ∃ s' settled', s.step (.update it m threads) = some s' ∧ Related o s' trees settled' ∧
      Reads s'.statistics.values fun place => (trees place.1).statsAt o place.2 := by
  obtain ⟨held, hclosed, hreads, htotal, hdistinct, htracks⟩ := h.tracks.clear
  obtain ⟨table, threads', hread, hsound, habsorbs⟩ :=
    h.sound.deserialize m threads (serialize it s.analyzer)
  obtain ⟨hnodup, hplaces⟩ := mem_places_serialize it h.tracks.nodup hdistinct
  -- what the table reads as now, place by place
  have hvalue : (Statistics.places (serialize it s.analyzer)).foldl Account.absorb
      (fun place => (settled place.1).stats place.2) =
      fun place => ((settled place.1).append (held place.1)).stats place.2 := by
    funext place
    rw [Account.foldl_absorb (G := fun place => s.analyzer.statsAt place.1 place.2) _ _ hnodup place
      (hplaces place), Account.stats_append (h.closed _) (hclosed _), hreads]
  have hreads' := habsorbs _ h.reads
  rw [hvalue] at hreads'
  refine ⟨⟨s.analyzer.clear, table⟩, _, ?_, ⟨htracks, hsound, ?_, hreads'⟩, ?_⟩
  · show (Statistics.deserialize m _ threads _).map _ = _
    rw [hread]
    rfl
  · exact fun threadid => (h.closed threadid).append (hclosed threadid)
  · have heq : (fun place : Nat × List K => (trees place.1).statsAt o place.2) =
        fun place => ((settled place.1).append (held place.1)).stats place.2 :=
      funext fun place => (htotal place.1 place.2).symm
    rw [heq]
    exact hreads'

/-- **One action** keeps the two sides related. -/
theorem step_related {o : Overhead} (s : Profiling K) (trees : Nat → CallTree K) (a : Action K)
    (trees' : Nat → CallTree K) (h : ∃ settled, Related o s trees settled)
    (ha : readAction trees a = some trees') :
    ∃ s', s.step a = some s' ∧ ∃ settled, Related o s' trees' settled := by
  obtain ⟨settled, h⟩ := h
  cases a with
  | acceptCalls b =>
    obtain ⟨t, ht, rfl⟩ := Option.map_eq_some_iff.mp ha
    obtain ⟨a', ha', htracks⟩ := h.tracks.acceptCalls b.bottom ht
    refine ⟨{ s with analyzer := a' }, ?_, settled, htracks, h.sound, h.closed, h.reads⟩
    show (s.analyzer.acceptCalls _ _ _).map _ = _
    rw [ha']
    rfl
  | update it m threads =>
    obtain rfl : trees = trees' := Option.some.inj ha
    obtain ⟨s', settled', hs', hrelated, _⟩ := h.update it m threads
    exact ⟨s', hs', settled', hrelated⟩

/-- **Incremental updates compose to the one-shot result.**  Let every thread's records be well
    nested, however they are cut into batches, interleaved with other threads' and with updates;
    and let an analyzer be fed the same records, cut and interleaved in any other way (in one batch
    a thread, say) and never cleared.  After a final update the frontend's table holds, for each
    thread and address path, one record with the statistics that analyzer has there, or none where
    it has none; and every record of the table is at such a place. -/
theorem updates_compose (o : Overhead) (actions : List (Action K))
    (hnested : ∀ threadid, WellNested (recordsOf threadid (batches actions)))
    (whole : List (Batch K))
    (hwhole : ∀ threadid, recordsOf threadid whole = recordsOf threadid (batches actions))
    (it : Iteration K) (m : Maker (CallNodeKey K)) (threads : List Nat) :
    ∃ s reference,
      Lib.run Profiling.step (Profiling.new o) (actions ++ [.update it m threads]) = some s ∧
      Lib.run feed (Analyzer.new o) whole = some reference ∧
      (∀ threadid p, (s.statistics.recordsAt threadid p).map CallStatistics.stats =
        (reference.statsAt threadid p).toList) ∧
      ∀ r ∈ s.statistics.values, (s.statistics.callstack r).isSome := by
  choose trees htrees using fun threadid => (CallTree.wellNested_iff _).mp (hnested threadid)
  have hread : Lib.run readAction (fun _ => CallTree.empty) actions = some trees := by
    rw [run_readAction]
    exact readBatches _ _ _ htrees
  have hreadWhole : Lib.run readBatch (fun _ => CallTree.empty) whole = some trees := by
    refine readBatches _ _ _ fun threadid => ?_
    rw [hwhole threadid]
    exact htrees threadid
  -- the run, up to the final update and over it
  obtain ⟨s₀, hrun, settled, hrelated⟩ := Lib.run_simulates step_related actions
    (Profiling.new o) _ trees ⟨_, new_related o⟩ hread
  obtain ⟨s, settled', hs, hrelated', hreads⟩ := hrelated.update it m threads
  -- the reference
  obtain ⟨reference, hfeed, htracks⟩ := feeds_track o hreadWhole
  obtain ⟨held, _, hheld, htotal, _, _⟩ := htracks.clear
  have hreference : ∀ threadid p, reference.statsAt threadid p = (trees threadid).statsAt o p := by
    intro threadid p
    rw [hheld, ← htotal]
    rfl
  refine ⟨s, reference, ?_, hfeed, ?_, ?_⟩
  · rw [Lib.run_append, hrun, Option.bind_some, Lib.run_cons, hs]
    rfl
  · intro threadid p
    rw [Statistics.recordsAt_stats hrelated'.sound.rooted hreads, hreference]
  · intro r hr
    obtain ⟨p, hp, _⟩ := Statistics.callstack_at hrelated'.sound.rooted hr
    rw [hp]
    rfl

/-- Maps enumerated in the order the model lists them. -/
def Iteration.listed : Iteration K where
  threads l := l
  threads_perm _ := List.Perm.refl _
  nodes m := m
  nodes_distinct _ h := h
  nodes_statsAt _ _ _ := rfl

/-- Two threads; an update with two calls open, another with one open in each thread. -/
def interleaved : List (Action Nat) :=
  let bottom : StackRecord Nat := ⟨0, 0, 0, 0, [], []⟩
  let update : Action Nat := .update .listed (.ascending fun _ => (0, 0, 0)) []
  [.acceptCalls ⟨7, [⟨0, some 1⟩, ⟨10, some 2⟩], bottom⟩, update,
    .acceptCalls ⟨8, [⟨5, some 1⟩], bottom⟩, .acceptCalls ⟨7, [⟨30, none⟩], bottom⟩, update,
    .acceptCalls ⟨7, [⟨100, none⟩], bottom⟩, .acceptCalls ⟨8, [⟨20, none⟩], bottom⟩]

/-- Each thread's records at once. -/
def atOnce : List (Batch Nat) :=
  let bottom : StackRecord Nat := ⟨0, 0, 0, 0, [], []⟩
  [⟨8, [⟨5, some 1⟩, ⟨20, none⟩], bottom⟩,
    ⟨7, [⟨0, some 1⟩, ⟨10, some 2⟩, ⟨30, none⟩, ⟨100, none⟩], bottom⟩]

theorem updates_compose_interleaved :
    ∃ s reference,
      Lib.run Profiling.step (Profiling.new ⟨1, 2⟩)
        (interleaved ++ [.update .listed (.ascending fun _ => (0, 0, 0)) []]) = some s ∧
      Lib.run feed (Analyzer.new ⟨1, 2⟩) atOnce = some reference ∧
      (s.statistics.values.map fun r => (r.threadId, r.parentId, r.address, r.stats)) =
        [(7, 0, 1, ⟨1, 96, 77, 96⟩), (7, 1, 2, ⟨1, 19, 19, 19⟩), (8, 0, 1, ⟨1, 14, 14, 14⟩)] ∧
      (s.statistics.recordsAt 7 [1, 2]).map CallStatistics.stats =
        (reference.statsAt 7 [1, 2]).toList := by
  have hothers : ∀ threadid, threadid ≠ 7 → threadid ≠ 8 →
      recordsOf threadid (batches interleaved) = [] ∧ recordsOf threadid atOnce = [] := by
    intro threadid h7 h8
    constructor
    · simp [recordsOf, batches, interleaved, Ne.symm h7, Ne.symm h8]
    · simp [recordsOf, atOnce, Ne.symm h7, Ne.symm h8]
  have hnested : ∀ threadid, WellNested (recordsOf threadid (batches interleaved)) := by
    intro threadid
    by_cases h7 : threadid = 7
    · subst h7; decide
    · by_cases h8 : threadid = 8
      · subst h8; decide
      · rw [(hothers threadid h7 h8).1]; decide
  have hwhole : ∀ threadid, recordsOf threadid atOnce =
      recordsOf threadid (batches interleaved) := by
    intro threadid
    by_cases h7 : threadid = 7
    · subst h7; rfl
    · by_cases h8 : threadid = 8
      · subst h8; rfl
      · rw [(hothers threadid h7 h8).1, (hothers threadid h7 h8).2]
  obtain ⟨s, reference, hrun, hfeed, hplaces, _⟩ := updates_compose ⟨1, 2⟩ interleaved hnested
    atOnce hwhole .listed (.ascending fun _ => (0, 0, 0)) []
  have hsummary : (Lib.run Profiling.step (Profiling.new ⟨1, 2⟩)
      (interleaved ++ [.update .listed (.ascending fun _ => (0, 0, 0)) []])).map (fun s =>
        s.statistics.values.map fun r => (r.threadId, r.parentId, r.address, r.stats)) =
      some [(7, 0, 1, ⟨1, 96, 77, 96⟩), (7, 1, 2, ⟨1, 19, 19, 19⟩), (8, 0, 1, ⟨1, 14, 14, 14⟩)] := by
    decide
  rw [hrun] at hsummary
  exact ⟨s, reference, hrun, hfeed, Option.some.inj hsummary, hplaces 7 [1, 2]⟩

end MicroProfiler.Frontend
