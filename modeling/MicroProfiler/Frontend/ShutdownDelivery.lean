/-
  What the end of profiling delivers: the accounts of `Frontend.Shutdown`'s two sides, with the queues of
  the threads below them.

  1. **Specification** — what a thread collected is shown under its id in the order it was, nothing
     of it lost, nothing twice; unless the frontend was closed, all that the threads had handed over
     when the destructor began has been shown when the worker leaves; and the worker gets to leave,
     when the metadata that the frontend asks for at the end arrives.

  2. **Below (`Collected`)** — the collector is in a state of its own runs: what was read of a queue is
     a prefix of what its thread pushed, and a read takes all that was handed over before it.

  3. **The crux (`Accounts.read`)** — once the session is finalized, what the threads had handed over is
     shown, on its way or with the analyzer.

  4. **The end (`driven_weight`, `Sound.progress`)** — until the worker has left something comes by
     itself, and it cannot go on forever.
-/
import MicroProfiler.Lib.Progress
import MicroProfiler.Frontend.Shutdown
import Mathlib.Algebra.Order.Ring.Nat

namespace MicroProfiler.Frontend.Shutdown

variable {τ E : Type}

/-! ## The accounts -/

/-- Whoever takes `messages` one by one, having shown `shown`, has shown what is `due` once the last
    update is taken.  By recursion along the messages, because what has been shown grows with each.
    -/
def Covers (due : List (ThreadCalls E) → Prop) : List (ThreadCalls E) → List (Message E) → Prop
  | _, [] => True
  | shown, m :: ms => (m.isFinal = true → due (shown ++ m.batches)) ∧ Covers due (shown ++ m.batches) ms

/-- A message that is sent is taken after all those under way.  By recursion on these. -/
theorem covers_append_singleton {due : List (ThreadCalls E) → Prop} {m : Message E} :
    ∀ {shown : List (ThreadCalls E)} {ms : List (Message E)}, Covers due shown (ms ++ [m]) ↔
      Covers due shown ms ∧ (m.isFinal = true → due (shown ++ inFlight ms ++ m.batches))
  | shown, [] => by simp [Covers]
  | shown, m' :: ms => by
    rw [List.cons_append, Covers, Covers, covers_append_singleton, inFlight_cons, and_assoc,
      List.append_assoc shown]

/-- While no last update is under way nothing has to be shown. -/
theorem covers_of_no_final {due : List (ThreadCalls E) → Prop} : ∀ {shown : List (ThreadCalls E)}
    (ms : List (Message E)), (∀ m ∈ ms, m.isFinal = false) → Covers due shown ms
  | _, [], _ => trivial
  | _, m :: ms, h => by
    refine ⟨fun htrue => ?_, covers_of_no_final ms fun m' hm' => h m' (List.mem_cons_of_mem _ hm')⟩
    rw [h m List.mem_cons_self] at htrue
    cases htrue

/-- What the collector is at: the invariants of its own runs, kept because everything done to it
    here is one of its steps. -/
structure Collected (idGen : τ → Nat) (p : BufferingPolicy) (s : Shutdown τ E) : Prop where
  sound : s.collector.Sound idGen
  uniform : s.collector.Uniform p
  reads : s.collector.Reads
  /-- nobody but the worker reads -/
  free : s.reading = none ↔ s.collector.busy = .free

/-- Where every call of the reader is, and what the threads had handed over when the destructor
    began.  That collection, `m`, is followed from the destructor to the frontend: first it is kept,
    then being collected, then read, then covered by the messages under way, and shown in the end.
    -/
structure Accounts (s : Shutdown τ E) : Prop where
  /-- nothing is lost between the reader's calls and the frontend, nothing is doubled, and the order
      stays -/
  flow : s.collector.accepted = s.shown ++ inFlight s.messages ++ s.analyzer
  keeps : ∀ m, s.dying = some m → ThreadQueueManager.Keeps m s.collector
  collecting : s.reading = some .finalizeSession → ∀ m, s.dying = some m → m.Collecting s.collector
  /-- the session is finalized: it has been read -/
  read : s.exitRequested = true → ∀ m, s.dying = some m →
    m.Due (s.shown ++ inFlight s.messages ++ s.analyzer)
  /-- whatever has been sent, the last update comes after all that is due -/
  covers : ∀ m, s.dying = some m → Covers m.Due s.shown s.messages
  shown : s.finalized = true → ∀ m, s.dying = some m → m.Due s.shown

/-- No thread has registered yet. -/
theorem init_collected (idGen : τ → Nat) (p : BufferingPolicy) [Inhabited E] :
    (init p : Shutdown τ E).Collected idGen p where
  sound := ThreadQueueManager.sound_new idGen p
  uniform := ThreadQueueManager.uniform_new p
  reads := ThreadQueueManager.reads_new p
  free := iff_of_true rfl rfl

/-- The destructor has not begun, and there is nothing to account for. -/
theorem init_accounts (p : BufferingPolicy) : (init p : Shutdown τ E).Accounts where
  flow := rfl
  keeps _ h := by cases h
  collecting h := by cases h
  read h := by cases h
  covers _ h := by cases h
  shown h := by cases h

/-- Requests carry no records. -/
theorem Accounts.send {s : Shutdown τ E} (h : s.Accounts) (r : Request) : (s.send r).Accounts := by
  unfold Shutdown.send
  split
  · exact ⟨h.flow, h.keeps, h.collecting, h.read, h.covers, h.shown⟩
  · exact h

/-- Neither does the request for an update, made or not. -/
theorem Accounts.requestFullUpdate {s : Shutdown τ E} (h : s.Accounts) : s.requestFullUpdate.Accounts := by
  unfold Shutdown.requestFullUpdate
  split
  · exact h
  · exact Accounts.send (s := { s with updating := true })
      ⟨h.flow, h.keeps, h.collecting, h.read, h.covers, h.shown⟩ _

/-- A message that carries nothing, and is not the last update. -/
theorem Accounts.message {s : Shutdown τ E} (h : s.Accounts) {m : Message E} (hm : m.batches = [])
    (hfinal : m.isFinal = false) : (s.message m).Accounts where
  flow := by
    show s.collector.accepted = _
    rw [h.flow]
    simp [Shutdown.message, hm]
  keeps := h.keeps
  collecting := h.collecting
  read hexit m' hm' := by
    simpa [Shutdown.message, hm] using h.read hexit m' hm'
  covers m' hm' := covers_append_singleton.mpr
    ⟨h.covers m' hm', fun htrue => by rw [hfinal] at htrue; cases htrue⟩
  shown := h.shown

/-- The analyzer goes into a message: what was with it is on its way now.  The last update is sent
    only when the session is finalized, so that what is due is in it or before it. -/
theorem Accounts.updateHandler {s : Shutdown τ E} (h : s.Accounts) {u : Update}
    (hu : u = .final → s.exitRequested = true) : (s.updateHandler u).Accounts where
  flow := by
    show s.collector.accepted = _
    rw [h.flow]
    simp [Shutdown.updateHandler, Shutdown.message, Message.batches]
  keeps := h.keeps
  collecting := h.collecting
  read hexit m hm := by
    have hread := h.read hexit m hm
    simpa [Shutdown.updateHandler, Shutdown.message, Message.batches] using hread
  covers m hm := by
    refine covers_append_singleton.mpr ⟨h.covers m hm, fun hfinal => ?_⟩
    cases u with
    | regular => cases hfinal
    | final => exact h.read (hu rfl) m hm
  shown := h.shown

/-- The frontend takes what is next.  What it shows is what `Covers` has said of this message; the
    rest of the messages is covered from there. -/
theorem Accounts.deliver {s : Shutdown τ E} (h : s.Accounts) {m : Message E} {rest : List (Message E)}
    (hmessages : s.messages = m :: rest) : ({ s with messages := rest }.take m).Accounts := by
  have hflow := h.flow
  have hread := h.read
  have hcovers := h.covers
  rw [hmessages] at hflow hread hcovers
  -- its batches are shown
  have htaken : Accounts { s with messages := rest, shown := s.shown ++ m.batches } := by
    refine ⟨?_, h.keeps, h.collecting, fun hexit m' hm' => ?_, fun m' hm' => (hcovers m' hm').2,
      fun hfinalized m' hm' => (h.shown hfinalized m' hm').append _⟩
    · simpa using hflow
    · simpa using hread hexit m' hm'
  -- and if it has none, nothing changes
  have hempty : m.batches = [] → Accounts { s with messages := rest } := by
    intro hm
    simpa [hm] using htaken
  cases m with
  | init =>
    -- the frontend introduces itself, or asks for an update
    simp only [take]
    split
    · exact hempty rfl
    · have h := (hempty rfl).requestFullUpdate
      exact ⟨h.flow, h.keeps, h.collecting, h.read, h.covers, h.shown⟩
  -- it asks for the last update
  | exiting => exact (hempty rfl).send _
  | statistics u batches =>
    have h := htaken.send .other
    cases u with
    | regular => exact ⟨h.flow, h.keeps, h.collecting, h.read, h.covers, h.shown⟩
    | final =>
      refine ⟨h.flow, h.keeps, h.collecting, h.read, h.covers, fun _ m' hm' => ?_⟩
      -- this was the answer
      have hm' : Shutdown.dying (Shutdown.send _ .other) = some m' := hm'
      rw [send_dying] at hm'
      show m'.Due (Shutdown.send _ _).shown
      rw [send_shown]
      exact (hcovers m' hm').1 rfl
  | other => exact hempty rfl

section Collector

variable [DecidableEq τ] [Inhabited E] {idGen : τ → Nat} {p : BufferingPolicy} {s s' : Shutdown τ E}

/-- A step of the collector that is not the beginning of a policy change: what the reader was given
    by it goes to the analyzer. -/
theorem Accounts.onCollector (h : s.Accounts) (huniform : s.collector.Uniform p) {e : ManagerEvent τ E}
    (hset : ∀ policy, e ≠ .startSet policy) (hstep : s.onCollector idGen e = some s') : s'.Accounts := by
  obtain ⟨collector, hcollector, rfl⟩ := onCollector_eq_some hstep
  refine ⟨?_, fun m hm => (h.keeps m hm).step hcollector,
    fun hr m hm => (h.collecting hr m hm).step huniform hset hcollector, fun hexit m hm => ?_, h.covers,
    h.shown⟩
  · -- the analyzer takes what is new
    obtain ⟨new, hnew⟩ := ThreadQueueManager.step_accepted hcollector
    dsimp only
    rw [← hnew, List.drop_left, h.flow]
    simp only [List.append_assoc]
  · -- and what was due remains so, whatever else has been read
    dsimp only
    rw [← List.append_assoc]
    exact (h.read hexit m hm).append _

/-- The worker is let in, and comes to all queues if it is to finalize. -/
theorem Accounts.readCollected (h : s.Accounts) (huniform : s.collector.Uniform p) {reading : Reading}
    (hstep : s.readCollected idGen reading = some s') : s'.Accounts := by
  obtain ⟨t, ht, rfl⟩ := Option.map_eq_some_iff.mp hstep
  have hnext := h.onCollector huniform (by intro policy heq; cases heq) ht
  refine ⟨hnext.flow, hnext.keeps, fun _ m hm => ?_, hnext.read, hnext.covers, hnext.shown⟩
  obtain ⟨collector, hcollector, rfl⟩ := onCollector_eq_some ht
  exact (h.keeps m hm).startRead hcollector

/-- **The read is over**: if it was to finalize, all that is due is with the analyzer, or on its
    way.  Here `collecting` ends and `read` begins. -/
theorem Accounts.endRead (h : s.Accounts) (hc : s.Collected idGen p) {reading : Reading}
    (hreading : s.reading = some reading) {t : Shutdown τ E} (ht : s.onCollector idGen .endRead = some t) :
    ({ t with reading := none }.afterRead reading).Accounts := by
  have hnext := h.onCollector hc.uniform (by intro policy heq; cases heq) ht
  have hidle : Accounts { t with reading := none } :=
    ⟨hnext.flow, hnext.keeps, fun hr => (by cases hr), hnext.read, hnext.covers, hnext.shown⟩
  cases reading with
  | collectAndReschedule => exact hidle
  | finalizeSession =>
    have hexiting := hidle.message (m := .exiting) rfl rfl
    refine ⟨hexiting.flow, hexiting.keeps, hexiting.collecting, fun _ m hm => ?_, hexiting.covers,
      hexiting.shown⟩
    have hflow := hexiting.flow
    obtain ⟨collector, hcollector, rfl⟩ := onCollector_eq_some ht
    obtain ⟨hover, rfl⟩ := ThreadQueueManager.step_endRead hcollector
    have hdue : m.Due s.collector.accepted := (h.collecting hreading m hm).due hc.sound hover
    exact hflow ▸ hdue

/-- The worker's task. -/
theorem Accounts.execute (h : s.Accounts) (hp : s.Protocol) (huniform : s.collector.Uniform p)
    {task : Task} {rest : List Task} (hqueue : s.queue = task :: rest)
    (hstep : { s with queue := rest }.executeTask idGen task = some s') : s'.Accounts := by
  have hrest : Accounts { s with queue := rest } :=
    ⟨h.flow, h.keeps, h.collecting, h.read, h.covers, h.shown⟩
  cases task with
  | stop =>
    -- finalizing begins with a read, if there is a session
    simp only [executeTask] at hstep
    split at hstep
    · exact hrest.readCollected huniform hstep
    next hsession =>
      cases hstep
      exact ⟨h.flow, h.keeps, h.collecting, h.read, h.covers, h.shown⟩
  | inbound r =>
    -- the session's turn, if there still is one
    cases hstep
    split
    · cases r with
      | update u =>
        -- the request of a last update is in the queue after the session was finalized only
        refine hrest.updateHandler fun hu => hp.told (.inr (.inr (.inl ?_)))
        rw [hqueue, hu]
        exact List.mem_cons_self
      | other => exact hrest.message rfl rfl
      | disconnect => exact ⟨h.flow, h.keeps, h.collecting, h.read, h.covers, h.shown⟩
    · exact hrest

/-- **The accounts are kept** by every step of both sides. -/
theorem Accounts.step (h : s.Accounts) (hp : s.Protocol) (hc : s.Collected idGen p)
    (e : ShutdownEvent τ E) (hstep : s.step idGen e = some s') : s'.Accounts := by
  cases e with
  | collect e =>
    -- threads do not begin anything at the collector
    simp only [Shutdown.step] at hstep
    split at hstep
    next he =>
      refine h.onCollector hc.uniform (fun policy heq => ?_) hstep
      rw [heq] at he
      cases he
    next => cases hstep
  | read e =>
    simp only [Shutdown.step] at hstep
    split at hstep
    next he =>
      refine h.onCollector hc.uniform (fun policy heq => ?_) hstep
      rw [heq] at he
      cases he.1
    next => cases hstep
  | destroy =>
    simp only [Shutdown.step] at hstep
    split at hstep <;> cases hstep
    next hdying =>
    -- the session is not finalized before, nor does the frontend know
    have hearly : ¬ (s.reading = some .finalizeSession ∨ s.exitRequested = true) := by
      intro hor
      have hsome := hp.dying.mpr (.inr (hor.imp_right .inl))
      rw [Option.isNone_iff_eq_none.mp hdying] at hsome
      cases hsome
    have hexit : s.exitRequested ≠ true := fun hexit => hearly (.inr hexit)
    have hfinal : ∀ m ∈ s.messages, m.isFinal = false := by
      intro m hm
      cases m with
      | statistics u batches =>
        cases u with
        | regular => rfl
        | final => exact absurd (hp.told (.inr (.inr (.inr (.inl ⟨batches, hm⟩))))) hexit
      | _ => rfl
    refine ⟨h.flow, fun m hm => ?_, fun hr => absurd (.inl hr) hearly, fun htrue => absurd htrue hexit,
      fun m _ => covers_of_no_final _ hfinal, fun htrue => ?_⟩
    · cases hm
      exact ThreadQueueManager.keeps_refl _
    · exact absurd (hp.told (.inr (.inr (.inr (.inr htrue))))) hexit
  | start =>
    simp only [Shutdown.step] at hstep
    split at hstep <;> cases hstep
    have h := h.message (m := .init) rfl rfl
    exact ⟨h.flow, h.keeps, h.collecting, h.read, h.covers, h.shown⟩
  | collectAndReschedule =>
    simp only [Shutdown.step] at hstep
    split at hstep
    · exact h.readCollected hc.uniform hstep
    · cases hstep
  | execute =>
    simp only [Shutdown.step] at hstep
    split at hstep
    · split at hstep
      next hqueue => exact h.execute hp hc.uniform hqueue hstep
      next => cases hstep
    · cases hstep
  | endRead =>
    -- here what was collected becomes what is with the analyzer
    simp only [Shutdown.step] at hstep
    split at hstep
    next hreading =>
      obtain ⟨t, ht, rfl⟩ := Option.map_eq_some_iff.mp hstep
      exact h.endRead hc hreading ht
    next => cases hstep
  | leave =>
    simp only [Shutdown.step] at hstep
    split at hstep <;> cases hstep
    exact ⟨h.flow, h.keeps, h.collecting, h.read, h.covers, h.shown⟩
  | receive =>
    -- a request that arrives is queued, or lost with the session
    simp only [Shutdown.step] at hstep
    split at hstep
    · split at hstep <;> cases hstep
      · exact ⟨h.flow, h.keeps, h.collecting, h.read, h.covers, h.shown⟩
      · exact ⟨h.flow, h.keeps, h.collecting, h.read, h.covers, h.shown⟩
    · cases hstep
  | deliver =>
    simp only [Shutdown.step] at hstep
    split at hstep <;> cases hstep
    next hmessages => exact h.deliver hmessages
  | requestUpdate =>
    simp only [Shutdown.step] at hstep
    split at hstep <;> cases hstep
    exact h.requestFullUpdate
  | requestOther =>
    cases hstep
    exact h.send _
  | disconnectSession | close =>
    simp only [Shutdown.step] at hstep
    split at hstep <;> cases hstep
    have h := h.send .disconnect
    exact ⟨h.flow, h.keeps, h.collecting, h.read, h.covers, h.shown⟩

end Collector

/-- What is not done at the collector leaves it alone: here the frontend's request. -/
theorem requestFullUpdate_collector (s : Shutdown τ E) :
    s.requestFullUpdate.collector = s.collector ∧ s.requestFullUpdate.reading = s.reading := by
  unfold Shutdown.requestFullUpdate
  split <;> simp

/-- The frontend's taking a message. -/
theorem take_collector (s : Shutdown τ E) (m : Message E) :
    (s.take m).collector = s.collector ∧ (s.take m).reading = s.reading := by
  cases m with
  | init =>
    simp only [take]
    split
    · exact ⟨rfl, rfl⟩
    · exact s.requestFullUpdate_collector
  | exiting => simp [take]
  | statistics u batches => cases u <;> simp [take, updated]
  | other => exact ⟨rfl, rfl⟩

/-- And the session's answer to a request. -/
theorem handle_collector (s : Shutdown τ E) (r : Request) :
    (s.handle r).collector = s.collector ∧ (s.handle r).reading = s.reading := by
  cases r <;> exact ⟨rfl, rfl⟩

section Collector

variable [DecidableEq τ] [Inhabited E] {idGen : τ → Nat} {p : BufferingPolicy} {s s' : Shutdown τ E}

omit [DecidableEq τ] [Inhabited E] in
/-- Steps of the protocol that do not touch the collector keep what holds of it. -/
theorem Collected.same (h : s.Collected idGen p)
    (hsame : s'.collector = s.collector ∧ s'.reading = s.reading) : s'.Collected idGen p := by
  obtain ⟨hcollector, hreading⟩ := hsame
  refine ⟨?_, ?_, ?_, ?_⟩
  · rw [hcollector]
    exact h.sound
  · rw [hcollector]
    exact h.uniform
  · rw [hcollector]
    exact h.reads
  · rw [hcollector, hreading]
    exact h.free

/-- A step of a thread, or of the read under way. -/
theorem Collected.onCollector (hinj : Function.Injective idGen) (h : s.Collected idGen p)
    {e : ManagerEvent τ E} (he : e.ofThread = true ∨ e.ofRead = true)
    (hstep : s.onCollector idGen e = some s') : s'.Collected idGen p := by
  obtain ⟨collector, hcollector, rfl⟩ := onCollector_eq_some hstep
  have hset : ∀ policy, e ≠ .startSet policy := by
    rintro policy rfl
    simp [ManagerEvent.ofThread, ManagerEvent.ofRead] at he
  exact ⟨h.sound.step hinj e hcollector, h.uniform.step hset hcollector,
    h.reads.step h.sound h.uniform hset hcollector,
    h.free.trans (ThreadQueueManager.step_free he hcollector).symm⟩

/-- The worker begins to read: it has the mutex now, and `free` says so. -/
theorem Collected.readCollected (hinj : Function.Injective idGen) (h : s.Collected idGen p)
    {reading : Reading} (hstep : s.readCollected idGen reading = some s') : s'.Collected idGen p := by
  obtain ⟨collector, hcollector, rfl⟩ := readCollected_eq_some hstep
  have hset : ∀ policy, (.startRead : ManagerEvent τ E) ≠ .startSet policy := by
    intro policy heq
    cases heq
  refine ⟨h.sound.step hinj _ hcollector, h.uniform.step hset hcollector,
    h.reads.step h.sound h.uniform hset hcollector, ?_⟩
  obtain ⟨-, rfl⟩ := ThreadQueueManager.step_startRead hcollector
  exact iff_of_false (by simp) (by simp)

/-- It ends, and the mutex is free. -/
theorem Collected.endRead (hinj : Function.Injective idGen) (h : s.Collected idGen p)
    (reading : Reading) (hstep : s.onCollector idGen .endRead = some s') :
    ({ s' with reading := none }.afterRead reading).Collected idGen p := by
  obtain ⟨collector, hcollector, rfl⟩ := onCollector_eq_some hstep
  have hset : ∀ policy, (.endRead : ManagerEvent τ E) ≠ .startSet policy := by
    intro policy heq
    cases heq
  have hsound := h.sound.step hinj _ hcollector
  have huniform := h.uniform.step hset hcollector
  have hreads := h.reads.step h.sound h.uniform hset hcollector
  obtain ⟨-, rfl⟩ := ThreadQueueManager.step_endRead hcollector
  cases reading <;> exact ⟨hsound, huniform, hreads, iff_of_true rfl rfl⟩

/-- **The collector stays in a state of its own runs.** -/
theorem Collected.step (hinj : Function.Injective idGen) (h : s.Collected idGen p)
    (e : ShutdownEvent τ E) (hstep : s.step idGen e = some s') : s'.Collected idGen p := by
  cases e with
  | collect e =>
    -- the collector's own steps
    simp only [Shutdown.step] at hstep
    split at hstep
    next he => exact h.onCollector hinj (.inl he) hstep
    next => cases hstep
  | read e =>
    simp only [Shutdown.step] at hstep
    split at hstep
    next he => exact h.onCollector hinj (.inr he.1) hstep
    next => cases hstep
  | collectAndReschedule =>
    simp only [Shutdown.step] at hstep
    split at hstep
    · exact h.readCollected hinj hstep
    · cases hstep
  | execute =>
    -- of the tasks only the destructor's touches the collector
    simp only [Shutdown.step] at hstep
    split at hstep
    · split at hstep
      next task rest hqueue =>
        have hrest : Collected idGen p { s with queue := rest } := h.same ⟨rfl, rfl⟩
        cases task with
        | stop =>
          simp only [executeTask] at hstep
          split at hstep
          · exact hrest.readCollected hinj hstep
          · cases hstep
            exact h.same ⟨rfl, rfl⟩
        | inbound r =>
          cases hstep
          split
          · exact hrest.same (handle_collector _ r)
          · exact hrest
      next => cases hstep
    · cases hstep
  | endRead =>
    simp only [Shutdown.step] at hstep
    split at hstep
    next reading hreading =>
      obtain ⟨t, ht, rfl⟩ := Option.map_eq_some_iff.mp hstep
      exact h.endRead hinj reading ht
    next => cases hstep
  | receive =>
    simp only [Shutdown.step] at hstep
    split at hstep
    · split at hstep <;> cases hstep <;> exact h.same ⟨rfl, rfl⟩
    · cases hstep
  | deliver =>
    simp only [Shutdown.step] at hstep
    split at hstep <;> cases hstep
    exact h.same (take_collector _ _)
  | requestUpdate =>
    simp only [Shutdown.step] at hstep
    split at hstep <;> cases hstep
    exact h.same s.requestFullUpdate_collector
  | requestOther =>
    cases hstep
    exact h.same (by simp)
  | destroy | start | leave | disconnectSession | close =>
    simp only [Shutdown.step] at hstep
    split at hstep <;> cases hstep
    exact h.same (by simp [message])

/-- All that holds of a run: the protocol, the collector, and the accounts between them. -/
structure Sound (idGen : τ → Nat) (p : BufferingPolicy) (s : Shutdown τ E) : Prop where
  protocol : s.Protocol
  collected : s.Collected idGen p
  accounts : s.Accounts

/-- Each part is kept, the accounts by means of the two others. -/
theorem Sound.step (hinj : Function.Injective idGen) (h : s.Sound idGen p) (e : ShutdownEvent τ E)
    (hstep : s.step idGen e = some s') : s'.Sound idGen p :=
  ⟨h.protocol.step e hstep, h.collected.step hinj e hstep, h.accounts.step h.protocol h.collected e hstep⟩

/-- The invariant of every run from the beginning. -/
theorem sound_of_run (hinj : Function.Injective idGen) {es : List (ShutdownEvent τ E)}
    (hrun : Lib.run (step idGen) (init p) es = some s) : s.Sound idGen p :=
  Lib.run_invariant (fun _ e _ h hstep => h.step hinj e hstep) es (init p) s
    ⟨init_protocol p, init_collected idGen p, init_accounts p⟩ hrun

end Collector

/-! ## Nobody has to help -/

/-- What comes by itself: the worker, the frontend and the transport go on, and metadata that was
    requested arrives.  Threads that collect are not among these, nor is anything the application
    does. -/
def Driven : ShutdownEvent τ E → Prop
  | .start | .execute | .read _ | .endRead | .leave | .receive | .deliver | .disconnectSession => True
  | _ => False

/-- How many driven steps a request may still cause: to be received, executed and answered, and what
    the answer causes. -/
def requestWeight : Request → Nat
  | .update _ => 6
  | .other => 3
  | .disconnect => 2

/-- How many a task may cause; `reads` is what a read of all queues takes. -/
def taskWeight (reads : Nat) : Task → Nat
  | .stop => reads + 9
  | .inbound r => requestWeight r - 1

/-- How many a message may cause, the frontend's reply included. -/
def messageWeight : Message E → Nat
  | .init | .exiting => 7
  | .statistics _ _ => 4
  | .other => 1

/-- What follows the read under way: after the last one the session sends that it is exiting. -/
def readingWeight : Option Reading → Nat
  | some .finalizeSession => 8
  | _ => 0

/-- The driven steps that are left: all that is on its way or waits, the read under way, and the
    events that come once, the disconnection, the start and the exit. -/
def weight (p : BufferingPolicy) (s : Shutdown τ E) : Nat :=
  (s.requests.map requestWeight).sum +
    (s.queue.map (taskWeight (s.collector.queues.length * ThreadQueueManager.visitSteps p + 1))).sum +
    (s.messages.map messageWeight).sum + s.collector.readWeight p + readingWeight s.reading +
    3 * s.connected.toNat + 11 * (!s.started).toNat + (!s.exited).toNat

section Weight

variable {p : BufferingPolicy}

/-- A message sent weighs what it may cause. -/
theorem message_weight (s : Shutdown τ E) (m : Message E) :
    (s.message m).weight p = s.weight p + messageWeight m := by
  simp [weight, message]
  omega

/-- So does a request, if it is sent at all. -/
theorem send_weight (s : Shutdown τ E) (r : Request) :
    (s.send r).weight p ≤ s.weight p + requestWeight r := by
  unfold send
  split
  · simp [weight]
    omega
  · exact Nat.le_add_right _ _

/-- At most one request. -/
theorem requestFullUpdate_weight (s : Shutdown τ E) : s.requestFullUpdate.weight p ≤ s.weight p + 6 := by
  unfold requestFullUpdate
  split
  · exact Nat.le_add_right _ _
  · exact send_weight { s with updating := true } (.update .regular)

/-- The session's turn causes less than the request it answers. -/
theorem handle_weight (s : Shutdown τ E) (r : Request) :
    (s.handle r).weight p < s.weight p + taskWeight 0 (.inbound r) := by
  cases r with
  | update u =>
    have h := message_weight (p := p) s (.statistics u s.analyzer)
    show (s.message (.statistics u s.analyzer)).weight p < s.weight p + 5
    rw [h]
    exact Nat.add_lt_add_left (by show 4 < 5; omega) _
  | other =>
    show (s.message .other).weight p < s.weight p + 2
    rw [message_weight]
    exact Nat.add_lt_add_left (by show 1 < 2; omega) _
  | disconnect => exact Nat.lt_succ_self _

/-- So does a message: the request it brings about weighs less than itself. -/
theorem take_weight (s : Shutdown τ E) (m : Message E) :
    (s.take m).weight p < s.weight p + messageWeight m := by
  cases m with
  | init =>
    -- nothing, or the request for an update
    simp only [take]
    split
    · show s.weight p < s.weight p + 7
      omega
    · have h := requestFullUpdate_weight (p := p) s
      show s.requestFullUpdate.weight p < s.weight p + 7
      omega
  | exiting =>
    -- the request for the last update
    have h := send_weight (p := p) s (.update .final)
    exact Nat.lt_of_le_of_lt h (Nat.add_lt_add_left (by show 6 < 7; omega) _)
  | statistics u batches =>
    -- the request for whatever the records lack
    have h : (({ s with shown := s.shown ++ batches } : Shutdown τ E).send .other).weight p ≤
        s.weight p + 3 := send_weight _ .other
    have hlt : (({ s with shown := s.shown ++ batches } : Shutdown τ E).send .other).weight p <
        s.weight p + 4 := by
      omega
    cases u with
    | regular => exact hlt
    | final => exact hlt
  | other =>
    show s.weight p < s.weight p + 1
    omega

end Weight

section Collector

variable [DecidableEq τ] [Inhabited E] {idGen : τ → Nat} {p : BufferingPolicy} {s s' : Shutdown τ E}

/-- A task causes less than itself. -/
theorem executeTask_weight (hreading : s.reading = none) {task : Task}
    (hstep : s.executeTask idGen task = some s') :
    s'.weight p < s.weight p +
      taskWeight (s.collector.queues.length * ThreadQueueManager.visitSteps p + 1) task := by
  cases task with
  | stop =>
    -- the task leaves its own weight to the read it begins, or to nothing
    simp only [executeTask] at hstep
    split at hstep
    · obtain ⟨collector, hcollector, rfl⟩ := readCollected_eq_some hstep
      obtain ⟨hfree, rfl⟩ := ThreadQueueManager.step_startRead hcollector
      -- the read that begins has all queues before it
      simp [weight, ThreadQueueManager.readWeight, hfree, hreading, readingWeight, taskWeight]
      omega
    · cases hstep
      show s.weight p < s.weight p + (_ + 9)
      omega
  | inbound r =>
    -- the session answers, or is gone
    cases hstep
    split
    · exact handle_weight s r
    · have hpos : 0 < taskWeight 0 (.inbound r) := by cases r <;> exact Nat.succ_pos _
      exact Nat.lt_add_of_pos_right hpos

/-- **Every driven step lowers the weight.**  What it takes away from a queue or a list weighs more
    than what it puts elsewhere; the events that come once are counted by themselves. -/
theorem driven_weight (hs : s.Sound idGen p) {e : ShutdownEvent τ E} (he : Driven e)
    (hstep : s.step idGen e = some s') : s'.weight p < s.weight p := by
  cases e with
  | start =>
    -- the greeting is sent: it comes once
    simp only [Shutdown.step] at hstep
    split at hstep <;> cases hstep
    next hstarted =>
    have hstarted : s.started = false := by simpa using hstarted
    have hconnected := (hs.protocol.fresh hstarted).2.1
    simp [weight, message, messageWeight, hstarted, hconnected]
    omega
  | execute =>
    -- a task is taken off the queue, and what it causes weighs less
    simp only [Shutdown.step] at hstep
    split at hstep
    next hloop =>
      split at hstep
      next task rest hqueue =>
        have h := executeTask_weight (p := p) (s := { s with queue := rest }) hloop.2.2 hstep
        have hw : s.weight p = ({ s with queue := rest } : Shutdown τ E).weight p +
            taskWeight (s.collector.queues.length * ThreadQueueManager.visitSteps p + 1) task := by
          simp only [weight, hqueue, List.map_cons, List.sum_cons]
          omega
        rwa [hw]
      next => cases hstep
    next => cases hstep
  | read e =>
    -- the collector's own measure
    simp only [Shutdown.step] at hstep
    split at hstep
    next he =>
      obtain ⟨collector, hcollector, rfl⟩ := onCollector_eq_some hstep
      obtain ⟨hlt, hqueues⟩ := hs.collected.reads.weight hs.collected.uniform he.1 hcollector
      simp only [weight, hqueues]
      omega
    next => cases hstep
  | endRead =>
    -- the read is over, and what follows it weighs less than `readingWeight` had set aside
    simp only [Shutdown.step] at hstep
    split at hstep
    next reading hreading =>
      obtain ⟨t, ht, rfl⟩ := Option.map_eq_some_iff.mp hstep
      obtain ⟨collector, hcollector, rfl⟩ := onCollector_eq_some ht
      obtain ⟨hover, rfl⟩ := ThreadQueueManager.step_endRead hcollector
      cases reading with
      | collectAndReschedule =>
        simp [weight, afterRead, ThreadQueueManager.readWeight, hover, hreading, readingWeight]
      | finalizeSession =>
        simp [weight, afterRead, message, ThreadQueueManager.readWeight, hover, hreading, readingWeight,
          messageWeight]
        omega
    next => cases hstep
  | leave =>
    simp only [Shutdown.step] at hstep
    split at hstep <;> cases hstep
    next h => simp [weight, h.1.2.1]
  | receive =>
    -- a request becomes a task, which weighs less
    simp only [Shutdown.step] at hstep
    split at hstep
    next r rest hrequests =>
      have hpos : ∀ reads, taskWeight reads (.inbound r) < requestWeight r := by
        intro reads
        cases r <;> exact Nat.sub_lt (Nat.succ_pos _) Nat.one_pos
      have hpos := hpos (s.collector.queues.length * ThreadQueueManager.visitSteps p + 1)
      split at hstep <;> cases hstep
      · simp only [weight, hrequests, List.map_cons, List.sum_cons, List.map_append, List.sum_append,
          List.map_nil, List.sum_nil]
        omega
      · simp only [weight, hrequests, List.map_cons, List.sum_cons]
        omega
    next => cases hstep
  | deliver =>
    -- the message is taken, and what it causes weighs less
    simp only [Shutdown.step] at hstep
    split at hstep <;> cases hstep
    next m rest hmessages =>
    have h := take_weight (p := p) { s with messages := rest } m
    have hw : s.weight p = ({ s with messages := rest } : Shutdown τ E).weight p + messageWeight m := by
      simp only [weight, hmessages, List.map_cons, List.sum_cons]
      omega
    rwa [hw]
  | disconnectSession =>
    -- the connection counts as long as it is there
    simp only [Shutdown.step] at hstep
    split at hstep <;> cases hstep
    next h =>
    simp [weight, send, h.1, requestWeight]
    omega
  | collect | destroy | collectAndReschedule | requestUpdate | requestOther | close => cases he

/-- The worker that is reading can go on: with a sub-step of the read, or by ending it. -/
theorem Collected.progress (h : s.Collected idGen p) {reading : Reading}
    (hreading : s.reading = some reading) : ∃ e, Driven e ∧ ∃ s', s.step idGen e = some s' := by
  obtain ⟨inside, rest, hbusy⟩ : ∃ inside rest, s.collector.busy = .reading inside rest := by
    cases hbusy : s.collector.busy with
    | free => cases hreading.symm.trans (h.free.mpr hbusy)
    | reading inside rest => exact ⟨inside, rest, rfl⟩
    | setting policy rest => exact absurd hbusy (h.uniform.notSetting policy rest)
  rcases h.reads.progress h.sound hbusy with ⟨e, he, collector, hcollector⟩ | hover
  · exact ⟨.read e, trivial, by simp [Shutdown.step, Shutdown.onCollector, he, hreading, hcollector]⟩
  · exact ⟨.endRead, trivial, by
      simp [Shutdown.step, Shutdown.onCollector, hreading, ThreadQueueManager.step, hover]⟩

/-- **Until the worker has left there is something that comes by itself.**  If nothing is under way
    and no task waits, the destructor's task has been executed, and the session waits for the
    frontend to disconnect; the frontend has the last update then, and what it still lacks is the
    metadata. -/
theorem Sound.progress (hs : s.Sound idGen p) (hdying : s.dying.isSome = true)
    (hexited : s.exited = false) : ∃ e, Driven e ∧ ∃ s', s.step idGen e = some s' := by
  have h := hs.protocol
  -- the worker has to be there
  by_cases hstarted : s.started = true
  swap
  · exact ⟨.start, trivial, by simp [Shutdown.step, hstarted]⟩
  -- if it reads, it goes on reading
  cases hreading : s.reading with
  | some reading => exact hs.collected.progress hreading
  | none =>
  have hloop : s.AtLoop := ⟨hstarted, hexited, hreading⟩
  -- if it has a task, it executes it
  by_cases hqueue : s.queue = []
  swap
  · obtain ⟨task, rest, hqueue⟩ := List.exists_cons_of_ne_nil hqueue
    refine ⟨.execute, trivial, ?_⟩
    have hfree := hs.collected.free.mp hreading
    cases task with
    | stop =>
      cases hsession : s.session <;>
        simp [Shutdown.step, hloop, hqueue, executeTask, hsession, readCollected, onCollector,
          ThreadQueueManager.step, hfree]
    | inbound r => simp [Shutdown.step, hloop, hqueue, executeTask]
  -- requests and messages under way arrive
  by_cases hrequests : s.requests = []
  swap
  · obtain ⟨r, rest, hrequests⟩ := List.exists_cons_of_ne_nil hrequests
    exact ⟨.receive, trivial, by simp [Shutdown.step, hrequests]⟩
  by_cases hmessages : s.messages = []
  swap
  · obtain ⟨m, rest, hmessages⟩ := List.exists_cons_of_ne_nil hmessages
    exact ⟨.deliver, trivial, by simp [Shutdown.step, hmessages]⟩
  -- it leaves once the exit is confirmed
  by_cases hconfirmed : s.exitConfirmed = true
  · exact ⟨.leave, trivial, by simp [Shutdown.step, hconfirmed, hloop]⟩
  -- the session is finalized and waits; nothing is on its way, so the frontend has all it wants
  have hexit : s.exitRequested = true := by
    rcases h.dying.mp hdying with hmem | hfinalizing | hexit | hconfirmed'
    · rw [hqueue] at hmem
      exact absurd hmem List.not_mem_nil
    · cases hreading.symm.trans hfinalizing
    · exact hexit
    · exact absurd hconfirmed' hconfirmed
  have hsession : s.session = true := by
    by_contra hgone
    exact hconfirmed (h.waiting hexit (by simpa using hgone))
  have hconnected : s.connected = true := by
    by_contra hgone
    rcases h.parting hstarted (by simpa using hgone) with hnone | hmem | hmem
    · cases hsession.symm.trans hnone
    · rw [hrequests] at hmem
      exact absurd hmem List.not_mem_nil
    · rw [hqueue] at hmem
      exact absurd hmem List.not_mem_nil
  have hfinalized : s.finalized = true := by
    rcases h.under hexit hconnected with hmem | hmem | hmem | ⟨_, hmem⟩ | hfinalized
    · rw [hmessages] at hmem
      exact absurd hmem List.not_mem_nil
    · rw [hrequests] at hmem
      exact absurd hmem List.not_mem_nil
    · rw [hqueue] at hmem
      exact absurd hmem List.not_mem_nil
    · rw [hmessages] at hmem
      exact absurd hmem List.not_mem_nil
    · exact hfinalized
  exact ⟨.disconnectSession, trivial, by simp [Shutdown.step, hconnected, hfinalized]⟩

/-- What the destructor began with stays, and nobody closes the frontend: so a run of driven steps
    leads to what was due in its first state. -/
theorem driven_keeps {e : ShutdownEvent τ E} (he : Driven e) (hstep : s.step idGen e = some s') :
    s'.dying = s.dying ∧ s'.closed = s.closed := by
  cases e with
  | start | leave | disconnectSession =>
    simp only [Shutdown.step] at hstep
    split at hstep <;> cases hstep
    simp [message]
  | execute =>
    -- neither of them is among what tasks change
    simp only [Shutdown.step] at hstep
    split at hstep
    · split at hstep
      next task rest _ =>
        cases task with
        | stop =>
          simp only [executeTask] at hstep
          split at hstep
          · obtain ⟨collector, -, rfl⟩ := readCollected_eq_some hstep
            exact ⟨rfl, rfl⟩
          · cases hstep
            exact ⟨rfl, rfl⟩
        | inbound r =>
          cases hstep
          split
          · cases r <;> exact ⟨rfl, rfl⟩
          · exact ⟨rfl, rfl⟩
      next => cases hstep
    · cases hstep
  | read e =>
    simp only [Shutdown.step] at hstep
    split at hstep
    · obtain ⟨collector, -, rfl⟩ := onCollector_eq_some hstep
      exact ⟨rfl, rfl⟩
    · cases hstep
  | endRead =>
    simp only [Shutdown.step] at hstep
    split at hstep
    next reading _ =>
      obtain ⟨t, ht, rfl⟩ := Option.map_eq_some_iff.mp hstep
      obtain ⟨collector, -, rfl⟩ := onCollector_eq_some ht
      cases reading <;> exact ⟨rfl, rfl⟩
    next => cases hstep
  | receive =>
    simp only [Shutdown.step] at hstep
    split at hstep
    · split at hstep <;> cases hstep <;> exact ⟨rfl, rfl⟩
    · cases hstep
  | deliver =>
    simp only [Shutdown.step] at hstep
    split at hstep <;> cases hstep
    next m rest _ =>
    cases m with
    | init =>
      simp only [take, requestFullUpdate]
      split
      · exact ⟨rfl, rfl⟩
      · dsimp only
        split <;> simp
    | exiting => simp [take]
    | statistics u batches => cases u <;> simp [take, updated]
    | other => exact ⟨rfl, rfl⟩
  | collect | destroy | collectAndReschedule | requestUpdate | requestOther | close => cases he

/-! ## The results -/

omit [DecidableEq τ] [Inhabited E] in
/-- A frontend that was not closed has shown all that was due when the worker leaves: the worker
    leaves after the disconnection, which an open frontend makes once it has the last update. -/
theorem Sound.shown_at_exit (hs : s.Sound idGen p) (hexited : s.exited = true) :
    ∃ m, s.dying = some m ∧ (s.closed = false → m.Due s.shown) := by
  have h := hs.protocol
  have hconfirmed := h.exited hexited
  obtain ⟨m, hm⟩ := Option.isSome_iff_exists.mp (h.dying.mpr (.inr (.inr (.inr hconfirmed))))
  refine ⟨m, hm, fun hclosed => ?_⟩
  have hstarted : s.started = true := by
    by_contra hfresh
    cases hconfirmed.symm.trans (h.fresh (by simpa using hfresh)).2.2.2.2.2.1
  have hconnected : s.connected = false := by
    by_contra hlinked
    cases (h.linked (by simpa using hlinked)).1.symm.trans (h.confirmed hconfirmed)
  rcases h.why hstarted hconnected with hclosed' | hfinalized
  · cases hclosed.symm.trans hclosed'
  · exact hs.accounts.shown hfinalized m hm

omit [DecidableEq τ] [Inhabited E] in
/-- A thread's records are shown as it pushed them, and the rest of those read is on its way.  The
    collector's accounts give what was delivered; the flow between the sides does the rest. -/
theorem Sound.thread_shown (hs : s.Sound idGen p) {t : τ} {id : Nat} {q : System E}
    (hslot : s.collector.slots t = .made id q) :
    (Lib.ofParty id (s.shown ++ inFlight s.messages ++ s.analyzer)).flatten = q.delivered ∧
      (Lib.ofParty id s.shown).flatten <+: q.pushed := by
  have hsound := hs.collected.sound.slots t
  rw [hslot] at hsound
  obtain ⟨rfl, hcursor, haccepted⟩ := hsound
  rw [hs.accounts.flow] at haccepted
  refine ⟨haccepted, ?_⟩
  have hprefix := hcursor.conveyed.isPrefix_delivered
  rw [← haccepted, List.append_assoc, Lib.ofParty_append, List.flatten_append] at hprefix
  exact (List.prefix_append _ _).trans hprefix

/-- Over ANY run of the two sides, where each thread has an id of its own: calls of the reader are
    shown, on their way or with the analyzer, in the order they were made; what is shown of a thread is
    a prefix of what it pushed, in order; when the worker has left, all that the threads had handed
    over when the destructor began is shown, unless the frontend was closed; and from any state after
    that moment the worker gets to leave with driven steps only, of which no run is longer than the
    state's weight. -/
theorem shutdown_delivers (hinj : Function.Injective idGen) {es : List (ShutdownEvent τ E)}
    (hrun : Lib.run (step idGen) (init p) es = some s) :
    s.collector.accepted = s.shown ++ inFlight s.messages ++ s.analyzer ∧
    (∀ t id q, s.collector.slots t = .made id q →
      (Lib.ofParty id (s.shown ++ inFlight s.messages ++ s.analyzer)).flatten = q.delivered ∧
        (Lib.ofParty id s.shown).flatten <+: q.pushed) ∧
    (s.exited = true → ∃ m, s.dying = some m ∧ (s.closed = false → m.Due s.shown)) ∧
    (∀ m, s.dying = some m → ∃ es', (∀ e ∈ es', Driven e) ∧ ∃ s', Lib.run (step idGen) s es' = some s' ∧
      s'.exited = true ∧ (s.closed = false → m.Due s'.shown)) ∧
    ∀ es' s', (∀ e ∈ es', Driven e) → Lib.run (step idGen) s es' = some s' → es'.length ≤ s.weight p := by
  have hs := sound_of_run hinj hrun
  refine ⟨hs.accounts.flow, fun t id q hslot => hs.thread_shown hslot, hs.shown_at_exit, fun m hm => ?_,
    fun es' s' hall hrun' => ?_⟩
  · -- the run that leads to the exit, what was due being carried along
    obtain ⟨es', hall, s', hrun', ⟨hs', hm', hclosed'⟩, hexited⟩ := Lib.run_completes
      (P := fun t : Shutdown τ E => t.Sound idGen p ∧ t.dying = some m ∧ t.closed = s.closed)
      (Q := fun t => t.exited = true) (w := weight p)
      (fun t ht hexited => by
        obtain ⟨e, he, t', hstep⟩ := ht.1.progress (by rw [ht.2.1]; rfl) (by simpa using hexited)
        obtain ⟨hdying, hclosed⟩ := driven_keeps he hstep
        exact ⟨e, he, t', hstep, ⟨ht.1.step hinj e hstep, hdying.trans ht.2.1, hclosed.trans ht.2.2⟩,
          driven_weight ht.1 he hstep⟩) s
      ⟨hs, hm, rfl⟩
    obtain ⟨m', hm'', hshown⟩ := hs'.shown_at_exit hexited
    obtain rfl : m = m' := Option.some.inj (hm'.symm.trans hm'')
    exact ⟨es', hall, s', hrun', hexited, fun hclosed => hshown (hclosed'.trans hclosed)⟩
  · -- no run of driven steps is longer than its weight
    have hle := Lib.run_weight (P := Sound idGen p) (w := weight p)
      (fun t e t' ht he hstep => ⟨ht.step hinj e hstep, driven_weight ht he hstep⟩) es' s s' hs hall hrun'
    omega

end Collector

/-- A thread gives a record away: into its buffer, which is handed over. -/
def handed (t r : Nat) : List (ShutdownEvent Nat Nat) :=
  [.collect (.produce t (.write r)), .collect (.produce t .push), .collect (.produce t .flush),
    .collect (.produce t .handOff)]

/-- The queue at the front is read: one buffer. -/
def readOne : List (ShutdownEvent Nat Nat) :=
  [.read .visit, .read (.read .consume), .read (.read .deliver), .read (.read .recycle),
    .read (.read .consume), .read (.read .finish)]

/-- Two threads, of which the second to register is the first to collect; an update, then the end of
    the application; one record comes too late. -/
def ended : List (ShutdownEvent Nat Nat) :=
  [.collect (.prepare 6), .collect (.make 6), .collect (.register 6), .collect (.prepare 5),
    .collect (.make 5), .collect (.register 5)] ++ handed 5 7 ++ handed 6 8 ++
  [.start, .deliver, .receive, .destroy, .execute, .execute] ++ readOne ++ readOne ++
  [.collect (.produce 5 .take), .collect (.produce 5 (.write 9)), .collect (.produce 5 .push), .endRead,
    .deliver, .deliver, .receive, .receive, .execute, .execute, .deliver, .deliver, .disconnectSession,
    .receive, .receive, .execute, .execute, .leave]

theorem shutdown_delivers_ended :
    ∃ s, Lib.run (step id) (init System.twoBuffers) ended = some s ∧ s.exited = true ∧
      s.shown = [(6, [8]), (5, [7])] ∧
      s.collector.accepted = s.shown ++ inFlight s.messages ++ s.analyzer ∧
      ∃ m, s.dying = some m ∧ m.Due s.shown := by
  obtain ⟨s, hrun, hexited, hshown, hclosed⟩ : ∃ s,
      Lib.run (step id) (init System.twoBuffers) ended = some s ∧ s.exited = true ∧
        s.shown = [(6, [8]), (5, [7])] ∧ s.closed = false := ⟨_, rfl, rfl, rfl, rfl⟩
  obtain ⟨hflow, -, hexit, -⟩ := shutdown_delivers Function.injective_id hrun
  obtain ⟨m, hm, hdue⟩ := hexit hexited
  exact ⟨s, hrun, hexited, hshown, hflow, m, hm, hdue hclosed⟩

end MicroProfiler.Frontend.Shutdown
