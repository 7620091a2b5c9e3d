/-
  `collector/analyzer.h`, `analyzer.cpp`: one shadow stack and one statistics map for each thread.

  1. **The code** — `ThreadAnalyzer` and `Analyzer` with `acceptCalls` (find or insert the thread,
     replay the batch) and `clear`, which empties the maps and leaves the shadow stacks alone: the
     calls open at that moment are re-created in the emptied map by the next batch.

  2. **What it holds** (`Analyzer.Tracks`) — for each thread the call tree read so far, and the
     account already SETTLED by earlier clears: the map holds the rest of the tree's calls
     (`ShadowStack.Accounted`).  A batch extends the tree (`Tracks.acceptCalls`), a clear settles
     what the map held (`Tracks.clear`).

  3. `CallTree.statsAt` — the statistics the whole tree amounts to on a path, which is what the
     settled account and the map together always read as (`Tracks.exists_held`).
-/
import MicroProfiler.Collector.Statistics
import MicroProfiler.Lib.Keys

namespace MicroProfiler

variable {K : Type} [DecidableEq K]

/-- `thread_analyzer`. -/
structure ThreadAnalyzer (K : Type) where
  statistics : NodesMap K
  stack : ShadowStack K

namespace ThreadAnalyzer

/-- The constructor; `bottom` is the uninitialised record its stack starts with. -/
def new (o : Overhead) (bottom : StackRecord K) : ThreadAnalyzer K := ⟨.nil, .new o bottom⟩

/-- `thread_analyzer::clear`: the shadow stack is left alone. -/
def clear (a : ThreadAnalyzer K) : ThreadAnalyzer K := { a with statistics := .nil }

/-- `thread_analyzer::accept_calls`. -/
def acceptCalls (a : ThreadAnalyzer K) (calls : List (CallRecord K)) : Option (ThreadAnalyzer K) :=
  (a.stack.update calls a.statistics).map fun r => ⟨r.2, r.1⟩

end ThreadAnalyzer

/-- `analyzer`: the overhead and the thread analyzers, in iteration order. -/
structure Analyzer (K : Type) where
  overhead : Overhead
  threadAnalyzers : List (Nat × ThreadAnalyzer K)

namespace Analyzer

/-- The constructor. -/
def new (o : Overhead) : Analyzer K := ⟨o, []⟩

/-- `_thread_analyzers.find(threadid)`. -/
def find (a : Analyzer K) (threadid : Nat) : Option (ThreadAnalyzer K) :=
  (a.threadAnalyzers.find? fun e => e.1 = threadid).map Prod.snd

/-- `_thread_analyzers.insert(...)`, for a thread that is not there. -/
def insert (a : Analyzer K) (threadid : Nat) (t : ThreadAnalyzer K) : Analyzer K :=
  { a with threadAnalyzers := a.threadAnalyzers ++ [(threadid, t)] }

/-- Writes to the analyzer of a thread. -/
def put (a : Analyzer K) (threadid : Nat) (t : ThreadAnalyzer K) : Analyzer K :=
  { a with
    threadAnalyzers := a.threadAnalyzers.map fun e => if e.1 = threadid then (threadid, t) else e }

/-- `analyzer::accept_calls`. -/
def acceptCalls (a : Analyzer K) (bottom : StackRecord K) (threadid : Nat)
    (calls : List (CallRecord K)) : Option (Analyzer K) :=
  match a.find threadid with
  | some t => (t.acceptCalls calls).map fun t' => a.put threadid t'
  | none =>
      -- the first batch of a thread makes its analyzer
      let t := ThreadAnalyzer.new a.overhead bottom
      (t.acceptCalls calls).map fun t' => (a.insert threadid t).put threadid t'

/-- `analyzer::clear`. -/
def clear (a : Analyzer K) : Analyzer K :=
  -- the stacks stay: calls that are open go on into the next period
  { a with threadAnalyzers := a.threadAnalyzers.map fun e => (e.1, e.2.clear) }

/-- The statistics held for a path of a thread. -/
def statsAt (a : Analyzer K) (threadid : Nat) (p : List K) : Option FunctionStatistics :=
  (a.find threadid).bind fun t => t.statistics.statsAt p

end Analyzer

/-- The statistics of the tree's calls on a path, if there was one. -/
def CallTree.statsAt (o : Overhead) (t : CallTree K) (p : List K) : Option FunctionStatistics :=
  Account.stats ⟨t.callPaths, t.completed.map (·.booking o)⟩ p

/-! ## One thread -/

namespace ThreadAnalyzer

open ShadowStack

/-- The stack is in step with the tree, and the map holds what is not settled of it. -/
structure Live (o : Overhead) (f : Account (List K)) (t : CallTree K) (a : ThreadAnalyzer K) :
    Prop where
  /-- every open call of the tree has its record -/
  inStep : InStep o a.stack t
  /-- settled calls and those of the map are the tree's -/
  between : Between o f (t, a.statistics)

/-- A new thread: an empty tree, and a map that holds nothing. -/
theorem new_live (o : Overhead) (bottom : StackRecord K) :
    Live o Account.empty CallTree.empty (new o bottom) where
  inStep := new_inStep o bottom
  between := ⟨_, accounted_empty o⟩

/-- **A batch** is replayed as the tree reads it. -/
theorem Live.acceptCalls {o : Overhead} {f : Account (List K)} {t t' : CallTree K}
    {a : ThreadAnalyzer K} (h : Live o f t a) {calls : List (CallRecord K)}
    (ht : Lib.run CallTree.step t calls = some t') :
    ∃ a', a.acceptCalls calls = some a' ∧ Live o f t' a' := by
  obtain ⟨m', hm'⟩ := exists_replayBatch o a.statistics ht
  obtain ⟨s', hs', hin⟩ := update_refines h.inStep hm'
  refine ⟨⟨m', s'⟩, ?_, hin, h.between.update _ calls _ hm'⟩
  unfold ThreadAnalyzer.acceptCalls
  rw [hs']
  rfl

/-- What the map reads as, next to what is settled. -/
structure Holds (o : Overhead) (f : Account (List K)) (t : CallTree K) (m : NodesMap K)
    (held : Account (List K)) : Prop where
  /-- calls are on touched paths only -/
  closed : held.Closed
  /-- the map reads as the account -/
  reads : ∀ p, m.statsAt p = held.stats p
  /-- with what is settled it is the tree's -/
  total : ∀ p, (f.append held).stats p = t.statsAt o p
  /-- no address twice among the callees of a node -/
  distinct : m.Distinct

/-- **A clear settles what the map held**, and keeps the open calls. -/
theorem Live.clear {o : Overhead} {f : Account (List K)} {t : CallTree K} {a : ThreadAnalyzer K}
    (h : Live o f t a) :
    ∃ held, Holds o f t a.statistics held ∧ Live o (f.append held) t a.clear := by
  obtain ⟨held, hheld⟩ := h.between
  -- the emptied map holds the empty account, and all the rest is settled
  refine ⟨held, ⟨hheld.closed, ?_, ?_, hheld.distinct⟩, h.inStep, Account.empty, ?_⟩
  · intro p
    by_cases hp : p = []
    · subst hp
      -- no call has the empty path
      have hnot : ([] : List K) ∉ held.touched := fun hmem =>
        CallTree.ne_nil_of_mem_callPaths ((hheld.touched []).mpr (Or.inr hmem)) rfl
      rw [NodesMap.statsAt, if_pos rfl, Account.stats, if_neg hnot]
    · rw [NodesMap.statsAt, if_neg hp]
      exact hheld.reads p hp
  · intro p
    refine Account.stats_congr hheld.calls.symm p ?_
    rw [Account.mem_touched_append]
    exact (hheld.touched p).symm
  · constructor
    · intro p hp
      cases p with
      | nil => exact absurd rfl hp
      | cons k p => rfl
    · exact Account.empty_closed
    · rw [hheld.calls]
      exact (List.append_nil _).symm
    · intro p
      rw [Account.mem_touched_append, hheld.touched p]
      simp [Account.empty]
    · trivial

end ThreadAnalyzer

/-! ## All threads -/

namespace Analyzer

open ThreadAnalyzer

/-- Every thread analyzer is live; a thread without one has no calls, settled or not. -/
structure Tracks (o : Overhead) (settled : Nat → Account (List K)) (trees : Nat → CallTree K)
    (a : Analyzer K) : Prop where
  /-- all analyzers are made with it -/
  overhead : a.overhead = o
  /-- a thread has one analyzer -/
  nodup : (a.threadAnalyzers.map Prod.fst).Nodup
  /-- threads that have sent a batch -/
  present : ∀ e ∈ a.threadAnalyzers, Live o (settled e.1) (trees e.1) e.2
  /-- and those that have not -/
  absent : ∀ threadid, threadid ∉ a.threadAnalyzers.map Prod.fst →
    trees threadid = CallTree.empty ∧ settled threadid = Account.empty

/-- No thread yet. -/
theorem new_tracks (o : Overhead) :
    Tracks o (fun _ => Account.empty) (fun _ => CallTree.empty) (new o : Analyzer K) where
  overhead := rfl
  nodup := List.nodup_nil
  present := nofun
  absent := fun _ _ => ⟨rfl, rfl⟩

omit [DecidableEq K] in
/-- Finding a thread is membership, as its id is there once. -/
theorem find_eq_some {a : Analyzer K} (hnodup : (a.threadAnalyzers.map Prod.fst).Nodup)
    {threadid : Nat} {t : ThreadAnalyzer K} :
    a.find threadid = some t ↔ (threadid, t) ∈ a.threadAnalyzers :=
  Lib.find?_pair_eq_some hnodup

omit [DecidableEq K] in
/-- A thread that is not found has no analyzer. -/
theorem find_eq_none {a : Analyzer K} {threadid : Nat} :
    a.find threadid = none ↔ threadid ∉ a.threadAnalyzers.map Prod.fst := by
  unfold find
  rw [Option.map_eq_none_iff, List.find?_eq_none]
  constructor
  · intro h hmem
    obtain ⟨e, he, heq⟩ := List.mem_map.mp hmem
    exact h e he (decide_eq_true heq)
  · intro h e he heq
    exact h (List.mem_map.mpr ⟨e, he, of_decide_eq_true heq⟩)

omit [DecidableEq K] in
/-- Writing to an analyzer adds no thread and drops none; -/
theorem threads_put (a : Analyzer K) (threadid : Nat) (t : ThreadAnalyzer K) :
    (a.put threadid t).threadAnalyzers.map Prod.fst = a.threadAnalyzers.map Prod.fst := by
  unfold put
  rw [List.map_map]
  apply List.map_congr_left
  intro e _
  show (if e.1 = threadid then (threadid, t) else e).1 = e.1
  split
  · next h => exact h.symm
  · rfl

omit [DecidableEq K] in
/-- nor does a clear. -/
theorem threads_clear (a : Analyzer K) :
    a.clear.threadAnalyzers.map Prod.fst = a.threadAnalyzers.map Prod.fst := by
  unfold clear
  rw [List.map_map]
  rfl

/-- A thread that starts. -/
theorem Tracks.insert {o : Overhead} {settled : Nat → Account (List K)}
    {trees : Nat → CallTree K} {a : Analyzer K} (h : Tracks o settled trees a) {threadid : Nat}
    (hnew : threadid ∉ a.threadAnalyzers.map Prod.fst) (bottom : StackRecord K) :
    Tracks o settled trees (a.insert threadid (.new a.overhead bottom)) where
  overhead := h.overhead
  nodup := by
    show ((a.threadAnalyzers ++ _).map Prod.fst).Nodup
    rw [List.map_append]
    exact Lib.nodup_append_singleton h.nodup hnew
  present := by
    intro e he
    rcases List.mem_append.mp he with he | he
    · exact h.present e he
    · obtain ⟨htree, hsettled⟩ := h.absent threadid hnew
      rw [List.mem_singleton.mp he, h.overhead]
      show Live o (settled threadid) (trees threadid) _
      rw [htree, hsettled]
      exact new_live o bottom
  absent := by
    intro other hother
    refine h.absent other fun hmem => hother ?_
    show other ∈ (a.threadAnalyzers ++ _).map Prod.fst
    rw [List.map_append]
    exact List.mem_append_left _ hmem

/-- A thread that reads on. -/
theorem Tracks.put {o : Overhead} {settled : Nat → Account (List K)} {trees : Nat → CallTree K}
    {a : Analyzer K} (h : Tracks o settled trees a) {threadid : Nat} {t' : CallTree K}
    {b : ThreadAnalyzer K} (hmem : threadid ∈ a.threadAnalyzers.map Prod.fst)
    (hb : Live o (settled threadid) t' b) :
    Tracks o settled (Function.update trees threadid t') (a.put threadid b) where
  overhead := h.overhead
  nodup := by rw [threads_put]; exact h.nodup
  present := by
    intro e he
    obtain ⟨e₀, he₀, rfl⟩ := List.mem_map.mp he
    -- the thread that is written to, or another one
    by_cases heq : e₀.1 = threadid
    · rw [if_pos heq]
      show Live o (settled threadid) (Function.update trees threadid t' threadid) b
      rw [Function.update_self]
      exact hb
    · rw [if_neg heq, Function.update_of_ne heq]
      exact h.present e₀ he₀
  absent := by
    intro other hother
    rw [threads_put] at hother
    have hne : other ≠ threadid := by
      rintro rfl
      exact hother hmem
    rw [Function.update_of_ne hne]
    exact h.absent other hother

/-- **A batch of one thread.** -/
theorem Tracks.acceptCalls {o : Overhead} {settled : Nat → Account (List K)}
    {trees : Nat → CallTree K} {a : Analyzer K} (h : Tracks o settled trees a)
    (bottom : StackRecord K) {threadid : Nat} {calls : List (CallRecord K)} {t' : CallTree K}
    (ht : Lib.run CallTree.step (trees threadid) calls = some t') :
    ∃ a', a.acceptCalls bottom threadid calls = some a' ∧
      Tracks o settled (Function.update trees threadid t') a' := by
  unfold Analyzer.acceptCalls
  -- a thread that is known, or one that starts with this batch
  cases hfind : a.find threadid with
  | some t =>
    have hmem := (find_eq_some h.nodup).mp hfind
    obtain ⟨b, hb, hlive⟩ := (h.present _ hmem).acceptCalls ht
    exact ⟨a.put threadid b, by simp only [hb]; rfl, h.put (List.mem_map_of_mem hmem) hlive⟩
  | none =>
    have hnew := find_eq_none.mp hfind
    have hinserted := h.insert hnew bottom
    have hmem : (threadid, ThreadAnalyzer.new a.overhead bottom) ∈
        (a.insert threadid (.new a.overhead bottom)).threadAnalyzers :=
      List.mem_append_right _ (List.mem_singleton.mpr rfl)
    obtain ⟨b, hb, hlive⟩ := (hinserted.present _ hmem).acceptCalls ht
    exact ⟨_, by simp only [hb]; rfl, hinserted.put (List.mem_map_of_mem hmem) hlive⟩

/-- What one thread's map holds: an account of its own, or none where there is no such thread. -/
theorem Tracks.exists_held {o : Overhead} {settled : Nat → Account (List K)}
    {trees : Nat → CallTree K} {a : Analyzer K} (h : Tracks o settled trees a) (threadid : Nat) :
    ∃ held : Account (List K), held.Closed ∧
      (∀ p, a.statsAt threadid p = held.stats p) ∧
      (∀ p, ((settled threadid).append held).stats p = (trees threadid).statsAt o p) ∧
      (∀ t, (threadid, t) ∈ a.threadAnalyzers → t.statistics.Distinct ∧
        Live o ((settled threadid).append held) (trees threadid) t.clear) ∧
      (threadid ∉ a.threadAnalyzers.map Prod.fst → held = Account.empty) := by
  cases hfind : a.find threadid with
  | some t =>
    have hmem := (find_eq_some h.nodup).mp hfind
    obtain ⟨held, hheld, hlive⟩ := (h.present _ hmem).clear
    refine ⟨held, hheld.closed, ?_, hheld.total, ?_, ?_⟩
    · intro p
      rw [statsAt, hfind]
      exact hheld.reads p
    · intro t₁ ht₁
      obtain rfl : t = t₁ := Option.some.inj (hfind.symm.trans ((find_eq_some h.nodup).mpr ht₁))
      exact ⟨hheld.distinct, hlive⟩
    · intro hnot
      exact absurd (List.mem_map_of_mem hmem) hnot
  -- a thread that is not there holds nothing
  | none =>
    have hnew := find_eq_none.mp hfind
    obtain ⟨htree, hsettled⟩ := h.absent threadid hnew
    refine ⟨Account.empty, Account.empty_closed, ?_, ?_, ?_, fun _ => rfl⟩
    · intro p
      rw [statsAt, hfind]
      rfl
    · intro p
      rw [htree, hsettled]
      rfl
    · intro t ht
      exact absurd (List.mem_map_of_mem ht) hnew

/-- **A clear** settles what every map held. -/
theorem Tracks.clear {o : Overhead} {settled : Nat → Account (List K)}
    {trees : Nat → CallTree K} {a : Analyzer K} (h : Tracks o settled trees a) :
    ∃ held : Nat → Account (List K),
      (∀ threadid, (held threadid).Closed) ∧
      (∀ threadid p, a.statsAt threadid p = (held threadid).stats p) ∧
      (∀ threadid p, ((settled threadid).append (held threadid)).stats p =
        (trees threadid).statsAt o p) ∧
      (∀ e ∈ a.threadAnalyzers, e.2.statistics.Distinct) ∧
      Tracks o (fun threadid => (settled threadid).append (held threadid)) trees a.clear := by
  choose held hclosed hreads htotal hlive hempty using h.exists_held
  refine ⟨held, hclosed, hreads, htotal, fun e he => (hlive e.1 e.2 he).1, h.overhead, ?_, ?_, ?_⟩
  · rw [threads_clear]
    exact h.nodup
  · intro e he
    obtain ⟨e₀, he₀, rfl⟩ := List.mem_map.mp he
    exact (hlive e₀.1 e₀.2 he₀).2
  · intro threadid hnot
    rw [threads_clear] at hnot
    obtain ⟨htree, hsettled⟩ := h.absent threadid hnot
    refine ⟨htree, ?_⟩
    rw [hsettled, hempty threadid hnot]
    rfl

end Analyzer

end MicroProfiler
