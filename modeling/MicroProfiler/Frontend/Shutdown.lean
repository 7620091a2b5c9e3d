/-
  How profiling ends: `collector/src/active_server_app.cpp` and the session of `collector_app.cpp` on
  the profiled side, `frontend::init`, `request_full_update` and `finalize` of `frontend.cpp` on the
  other.

  1. **Program** — the destructor of the application leaves a task to the worker and waits for it.
     The task finalizes the session: the collector is read, queue by queue, and the frontend is told
     that the process is `exiting`.  The frontend requests a last update, then metadata, then
     disconnects; the worker leaves its loop when it sees that.  All that time threads collect, each
     in its own queue, the worker reads them, updates and other requests go both ways, and the
     frontend may be closed.  Everything comes in ANY order (`step`), except that a queue is a queue.

  2. **The flags (`Protocol`)** — who has yet to say what.  The crux is `Protocol.under`: once the
     session is finalized, the exchange that makes a frontend that is there disconnect is on its way.

  What arrives and when is the matter of `Frontend.ShutdownDelivery`.

  A batch stands for what the analyzer makes of it: an update carries what the analyzer was given
  since the last one.  The metadata requested before the frontend disconnects is the matter of
  `Frontend.Finalization`; here its arrival is one step.
-/
import MicroProfiler.Collector.ReadCollected

namespace MicroProfiler.Frontend

/-- A call of `accept_calls`: the thread's id and the records. -/
abbrev ThreadCalls (E : Type) := Nat × List E

/-- The two users of `request_full_update`: `statistics.request_update` and `finalize`.  In a message
    it stands for the request's token. -/
inductive Update
  | regular
  | final
deriving DecidableEq, Repr

/-- What the frontend sends. -/
inductive Request
  | update (u : Update)
  /-- any request that brings no statistics -/
  | other
  | disconnect
deriving DecidableEq, Repr

/-- What the worker's queue holds; `inbound` comes through the private queue of the session. -/
inductive Task
  | stop
  | inbound (r : Request)
deriving DecidableEq, Repr

/-- What the collector sends. -/
inductive Message (E : Type)
  | init
  | exiting
  | statistics (u : Update) (batches : List (ThreadCalls E))
  | other
deriving DecidableEq, Repr

namespace Message

variable {E : Type}

def batches : Message E → List (ThreadCalls E)
  | .statistics _ batches => batches
  | _ => []

/-- What answers the last request for an update. -/
def isFinal : Message E → Bool
  | .statistics .final _ => true
  | _ => false

end Message

/-- What the worker is in `read_collected` for. -/
inductive Reading
  | collectAndReschedule
  | finalizeSession
deriving DecidableEq, Repr

/-- Both sides and what is between them.  The last two are for the specification. -/
structure Shutdown (τ E : Type) where
  /-- `_collector`, with the threads of the process -/
  collector : ThreadQueueManager τ E
  reading : Option Reading
  /-- `_analyzer`: accepted since it was cleared -/
  analyzer : List (ThreadCalls E)
  queue : List Task
  /-- the worker has made the session and is in its loop -/
  started : Bool
  /-- `_session`, with the session it points to -/
  session : Bool
  exitRequested : Bool
  exitConfirmed : Bool
  /-- the worker left its loop -/
  exited : Bool
  requests : List Request
  messages : List (Message E)
  initialized : Bool
  /-- `_update_request` -/
  updating : Bool
  /-- the last update came -/
  finalized : Bool
  /-- the frontend has not disconnected -/
  connected : Bool
  /-- `_db->statistics` -/
  shown : List (ThreadCalls E)
  /-- the collector as it was when the destructor began -/
  dying : Option (ThreadQueueManager τ E)
  /-- the frontend was closed before its time -/
  closed : Bool

inductive ShutdownEvent (τ E : Type)
  /-- a thread of the process goes on -/
  | collect (e : ManagerEvent τ E)
  /-- `~collector_app`, when the calls of its own thread are flushed -/
  | destroy
  /-- the worker makes the session -/
  | start
  | collectAndReschedule
  /-- the worker takes the next task -/
  | execute
  /-- the worker goes on in `read_collected` -/
  | read (e : ManagerEvent τ E)
  /-- `read_collected` returns -/
  | endRead
  /-- `while (!_exit_confirmed)` -/
  | leave
  /-- the transport passes on a request -/
  | receive
  /-- the frontend takes a message -/
  | deliver
  /-- `statistics.request_update` -/
  | requestUpdate
  | requestOther
  /-- the last metadata that `finalize` waits for comes -/
  | disconnectSession
  | close

namespace Shutdown

variable {τ E : Type}

def init (policy : BufferingPolicy) : Shutdown τ E :=
  ⟨.new policy, none, [], [], false, false, false, false, false, [], [], false, false, false, false, [],
    none, false⟩

/-! ## The profiled side -/

section Collector

variable [DecidableEq τ] [Inhabited E] (idGen : τ → Nat)

/-- A step of the collector; the analyzer accepts what it is given. -/
def onCollector (s : Shutdown τ E) (e : ManagerEvent τ E) : Option (Shutdown τ E) :=
  (s.collector.step idGen e).map fun collector =>
    { s with collector, analyzer := s.analyzer ++ collector.accepted.drop s.collector.accepted.length }

/-- `_collector.read_collected(*_analyzer)` is called. -/
def readCollected (s : Shutdown τ E) (reading : Reading) : Option (Shutdown τ E) :=
  (s.onCollector idGen .startRead).map fun s => { s with reading := some reading }

end Collector

def message (s : Shutdown τ E) (m : Message E) : Shutdown τ E := { s with messages := s.messages ++ [m] }

/-- What follows `read_collected`: the end of `collect_and_reschedule`, or that of
    `collector_app::finalize_session`; what this one returns is always true. -/
def afterRead (s : Shutdown τ E) : Reading → Shutdown τ E
  | .collectAndReschedule => s
  | .finalizeSession => { s.message .exiting with exitRequested := true }

/-- The handler of `request_update`: the analyzer is sent and cleared. -/
def updateHandler (s : Shutdown τ E) (u : Update) : Shutdown τ E :=
  { s.message (.statistics u s.analyzer) with analyzer := [] }

/-- The disconnect handler of the session. -/
def frontendDisconnected (s : Shutdown τ E) : Shutdown τ E :=
  { s with exitConfirmed := s.exitConfirmed || s.exitRequested, session := false }

/-- The session's turn. -/
def handle (s : Shutdown τ E) : Request → Shutdown τ E
  | .update u => s.updateHandler u
  | .other => s.message .other
  | .disconnect => s.frontendDisconnected

def executeTask [DecidableEq τ] [Inhabited E] (idGen : τ → Nat) (s : Shutdown τ E) :
    Task → Option (Shutdown τ E)
  | .stop =>
    if s.session then s.readCollected idGen .finalizeSession else some { s with exitConfirmed := true }
  -- the private queue is gone with the session
  | .inbound r => some (if s.session then s.handle r else s)

/-! ## The frontend -/

def send (s : Shutdown τ E) (r : Request) : Shutdown τ E :=
  if s.connected then { s with requests := s.requests ++ [r] } else s

/-- `request_full_update(_update_request, …)`. -/
def requestFullUpdate (s : Shutdown τ E) : Shutdown τ E :=
  if s.updating then s else { s with updating := true }.send (.update .regular)

/-- The callback of an update: the statistics are added, `update_threads` sends a request, and the
    request's own `on_update` follows. -/
def updated (s : Shutdown τ E) (batches : List (ThreadCalls E)) : Update → Shutdown τ E
  | .regular => { { s with shown := s.shown ++ batches }.send .other with updating := false }
  | .final => { { s with shown := s.shown ++ batches }.send .other with finalized := true }

def take (s : Shutdown τ E) : Message E → Shutdown τ E
  | .init => if s.initialized then s else { s.requestFullUpdate with initialized := true }
  | .exiting => s.send (.update .final)
  | .statistics u batches => s.updated batches u
  | .other => s

section Send

variable (s : Shutdown τ E) (r : Request)

@[simp] theorem send_closed : (s.send r).closed = s.closed := by
  unfold send
  split <;> rfl

@[simp] theorem send_shown : (s.send r).shown = s.shown := by
  unfold send
  split <;> rfl

@[simp] theorem send_dying : (s.send r).dying = s.dying := by
  unfold send
  split <;> rfl

@[simp] theorem send_collector : (s.send r).collector = s.collector := by
  unfold send
  split <;> rfl

@[simp] theorem send_reading : (s.send r).reading = s.reading := by
  unfold send
  split <;> rfl

end Send

/-! ## Everything together -/

/-- The worker is at its loop. -/
def AtLoop (s : Shutdown τ E) : Prop := s.started = true ∧ s.exited = false ∧ s.reading = none

instance (s : Shutdown τ E) : Decidable s.AtLoop := inferInstanceAs (Decidable (_ ∧ _ ∧ _))

def step [DecidableEq τ] [Inhabited E] (idGen : τ → Nat) (s : Shutdown τ E) :
    ShutdownEvent τ E → Option (Shutdown τ E)
  | .collect e => if e.ofThread then s.onCollector idGen e else none
  | .destroy =>
    if s.dying.isNone then some { s with dying := some s.collector, queue := s.queue ++ [.stop] }
    else none
  | .start =>
    if s.started then none
    else some { s.message .init with started := true, session := true, connected := true }
  | .collectAndReschedule => if s.AtLoop then s.readCollected idGen .collectAndReschedule else none
  | .execute =>
    if s.AtLoop then
      match s.queue with
      | task :: rest => { s with queue := rest }.executeTask idGen task
      | [] => none
    else none
  | .read e => if e.ofRead ∧ s.reading.isSome then s.onCollector idGen e else none
  | .endRead =>
    match s.reading with
    | some reading =>
      (s.onCollector idGen .endRead).map fun s => { s with reading := none }.afterRead reading
    | none => none
  | .leave => if s.AtLoop ∧ s.exitConfirmed then some { s with exited := true } else none
  | .receive =>
    match s.requests with
    | r :: rest =>
      let s := { s with requests := rest }
      some (if s.session then { s with queue := s.queue ++ [.inbound r] } else s)
    | [] => none
  | .deliver =>
    match s.messages with
    | m :: rest => some ({ s with messages := rest }.take m)
    | [] => none
  | .requestUpdate => if s.initialized then some s.requestFullUpdate else none
  | .requestOther => some (s.send .other)
  | .disconnectSession =>
    if s.connected ∧ s.finalized then
      some { s.send .disconnect with connected := false }
    else none
  | .close =>
    if s.connected then some { s.send .disconnect with connected := false, closed := true } else none

/-! ## What is on its way -/

/-- The batches in messages. -/
def inFlight (messages : List (Message E)) : List (ThreadCalls E) := messages.flatMap Message.batches

@[simp] theorem inFlight_nil : inFlight ([] : List (Message E)) = [] := rfl

@[simp] theorem inFlight_cons (m : Message E) (ms : List (Message E)) :
    inFlight (m :: ms) = m.batches ++ inFlight ms := List.flatMap_cons

@[simp] theorem inFlight_append (ms ns : List (Message E)) :
    inFlight (ms ++ ns) = inFlight ms ++ inFlight ns := List.flatMap_append

section Collector

variable [DecidableEq τ] [Inhabited E] {idGen : τ → Nat} {s s' : Shutdown τ E}

theorem onCollector_eq_some {e : ManagerEvent τ E} (h : s.onCollector idGen e = some s') :
    ∃ collector, s.collector.step idGen e = some collector ∧
      s' = { s with
        collector
        analyzer := s.analyzer ++ collector.accepted.drop s.collector.accepted.length } := by
  obtain ⟨collector, hcollector, rfl⟩ := Option.map_eq_some_iff.mp h
  exact ⟨collector, hcollector, rfl⟩

theorem onCollector_reading {e : ManagerEvent τ E} (h : s.onCollector idGen e = some s') :
    s'.reading = s.reading := by
  obtain ⟨collector, -, rfl⟩ := onCollector_eq_some h
  rfl

theorem readCollected_eq_some {reading : Reading} (h : s.readCollected idGen reading = some s') :
    ∃ collector, s.collector.step idGen .startRead = some collector ∧
      s' = { s with
        collector
        reading := some reading
        analyzer := s.analyzer ++ collector.accepted.drop s.collector.accepted.length } := by
  obtain ⟨t, ht, rfl⟩ := Option.map_eq_some_iff.mp h
  obtain ⟨collector, hcollector, rfl⟩ := onCollector_eq_some ht
  exact ⟨collector, hcollector, rfl⟩

end Collector

/-- The exchange that ends the session is under way, or over. -/
def Exiting (s : Shutdown τ E) : Prop :=
  .exiting ∈ s.messages ∨ .update .final ∈ s.requests ∨ .inbound (.update .final) ∈ s.queue ∨
    (∃ batches, .statistics .final batches ∈ s.messages) ∨ s.finalized = true

/-- The flags, and who has yet to say what. -/
structure Protocol (s : Shutdown τ E) : Prop where
  fresh : s.started = false → s.session = false ∧ s.connected = false ∧ s.requests = [] ∧
    (∀ r, .inbound r ∉ s.queue) ∧ s.exitRequested = false ∧ s.exitConfirmed = false ∧ s.reading = none
  /-- the session stays while it is being finalized -/
  finalizing : s.reading = some .finalizeSession → s.session = true
  told : s.Exiting → s.exitRequested = true
  /-- a frontend that is there is being told, or was -/
  under : s.exitRequested = true → s.connected = true → s.Exiting
  dying : s.dying.isSome = true ↔ .stop ∈ s.queue ∨ s.reading = some .finalizeSession ∨
    s.exitRequested = true ∨ s.exitConfirmed = true
  waiting : s.exitRequested = true → s.session = false → s.exitConfirmed = true
  confirmed : s.exitConfirmed = true → s.session = false
  exited : s.exited = true → s.exitConfirmed = true
  linked : s.connected = true →
    s.session = true ∧ .disconnect ∉ s.requests ∧ .inbound .disconnect ∉ s.queue
  parting : s.started = true → s.connected = false →
    s.session = false ∨ .disconnect ∈ s.requests ∨ .inbound .disconnect ∈ s.queue
  why : s.started = true → s.connected = false → s.closed = true ∨ s.finalized = true

theorem init_protocol (policy : BufferingPolicy) : (init policy : Shutdown τ E).Protocol := by
  constructor <;> simp [init, Exiting]

/-- A request that neither answers `exiting` nor disconnects. -/
theorem Protocol.send {s : Shutdown τ E} (h : s.Protocol) {r : Request} (hfinal : r ≠ .update .final)
    (hdisconnect : r ≠ .disconnect) : (s.send r).Protocol := by
  unfold Shutdown.send
  split
  next hconnected =>
    refine ⟨fun hs => ?_, h.finalizing, fun he => h.told ?_, fun hx hc => ?_, h.dying, h.waiting,
      h.confirmed, h.exited, fun hc => ?_, fun hs hc => ?_, h.why⟩
    · cases hconnected.symm.trans (h.fresh hs).2.1
    · simpa [Exiting, hfinal.symm] using he
    · simpa [Exiting, hfinal.symm] using h.under hx hc
    · simpa [hdisconnect.symm] using h.linked hc
    · cases hconnected.symm.trans hc
  · exact h

theorem Protocol.requestFullUpdate {s : Shutdown τ E} (h : s.Protocol) : s.requestFullUpdate.Protocol := by
  unfold Shutdown.requestFullUpdate
  split
  · exact h
  · refine Protocol.send (s := { s with updating := true }) ?_ (by decide) (by decide)
    exact ⟨h.fresh, h.finalizing, h.told, h.under, h.dying, h.waiting, h.confirmed, h.exited, h.linked,
      h.parting, h.why⟩

/-- The frontend goes: the last request is on its way. -/
theorem Protocol.disconnect {s s' : Shutdown τ E} (h : s.Protocol) (hconnected : s.connected = true)
    (hs' : s' = { s with requests := s.requests ++ [.disconnect], connected := false, closed := s'.closed })
    (hclosed : s'.closed = true ∨ s.finalized = true) : s'.Protocol := by
  rw [hs']
  refine ⟨fun hs => ?_, h.finalizing, fun he => h.told ?_, fun _ hc => ?_, h.dying, h.waiting,
    h.confirmed, h.exited, fun hc => ?_, fun _ _ => .inr (.inl (by simp)), fun _ _ => hclosed⟩
  · cases hconnected.symm.trans (h.fresh hs).2.1
  · simpa [Exiting] using he
  · cases hc
  · cases hc

/-- **The session's turn.** -/
theorem Protocol.handle {s : Shutdown τ E} (h : s.Protocol) (hloop : s.AtLoop) {r : Request}
    {rest : List Task} (hqueue : s.queue = .inbound r :: rest)
    (hdying : s.dying.isSome = true ↔ .stop ∈ rest ∨ s.reading = some .finalizeSession ∨
      s.exitRequested = true ∨ s.exitConfirmed = true) :
    ({ s with queue := rest }.handle r).Protocol := by
  have hfresh : s.started ≠ false := by rw [hloop.1]; decide
  cases r with
  | update u =>
    refine ⟨fun hs => absurd hs hfresh, h.finalizing, fun he => h.told ?_, fun hx hc => ?_, hdying,
      h.waiting, h.confirmed, h.exited, fun hc => ?_, fun hs hc => ?_, h.why⟩
    · cases u with
      | regular => simpa [Exiting, hqueue, Shutdown.handle, updateHandler, message] using he
      | final => exact .inr (.inr (.inl (by rw [hqueue]; exact List.mem_cons_self)))
    · cases u with
      | regular => simpa [Exiting, hqueue, Shutdown.handle, updateHandler, message] using h.under hx hc
      | final =>
        exact .inr (.inr (.inr (.inl ⟨s.analyzer, List.mem_append_right _ (List.mem_singleton.mpr rfl)⟩)))
    · simpa [hqueue, Shutdown.handle, updateHandler, message] using h.linked hc
    · simpa [hqueue, Shutdown.handle, updateHandler, message] using h.parting hs hc
  | other =>
    refine ⟨fun hs => absurd hs hfresh, h.finalizing, fun he => h.told ?_, fun hx hc => ?_, hdying,
      h.waiting, h.confirmed, h.exited, fun hc => ?_, fun hs hc => ?_, h.why⟩
    · simpa [Exiting, hqueue, Shutdown.handle, message] using he
    · simpa [Exiting, hqueue, Shutdown.handle, message] using h.under hx hc
    · simpa [hqueue, Shutdown.handle, message] using h.linked hc
    · simpa [hqueue, Shutdown.handle, message] using h.parting hs hc
  | disconnect =>
    -- nobody is connected any more
    have hgone : s.connected ≠ true := fun hc =>
      (h.linked hc).2.2 (by rw [hqueue]; exact List.mem_cons_self)
    refine ⟨fun hs => absurd hs hfresh, fun hreading => ?_, fun he => h.told ?_,
      fun _ hc => absurd hc hgone, ?_, fun hx _ => ?_, fun _ => rfl, fun he => ?_,
      fun hc => absurd hc hgone, fun _ _ => .inl rfl, h.why⟩
    · cases hloop.2.2.symm.trans hreading
    · simpa [Exiting, hqueue, Shutdown.handle, frontendDisconnected] using he
    · show s.dying.isSome = true ↔
        .stop ∈ rest ∨ s.reading = some .finalizeSession ∨ s.exitRequested = true ∨
          (s.exitConfirmed || s.exitRequested) = true
      rw [hdying, Bool.or_eq_true]
      tauto
    · show (s.exitConfirmed || s.exitRequested) = true
      rw [show s.exitRequested = true from hx, Bool.or_true]
    · show (s.exitConfirmed || s.exitRequested) = true
      rw [h.exited he, Bool.true_or]

/-- What the transport passes on is lost if the session is gone. -/
theorem Protocol.receive {s s' : Shutdown τ E} (h : s.Protocol) {r : Request} {rest : List Request}
    (hrequests : s.requests = r :: rest)
    (hs' : (if s.session then { s with requests := rest, queue := s.queue ++ [.inbound r] }
      else { s with requests := rest }) = s') : s'.Protocol := by
  have hfresh : s.started ≠ false := by
    intro hs
    cases hrequests.symm.trans (h.fresh hs).2.2.1
  subst hs'
  split
  · refine ⟨fun hs => absurd hs hfresh, h.finalizing, fun he => h.told ?_, fun hx hc => ?_, ?_,
      h.waiting, h.confirmed, h.exited, fun hc => ?_, fun hs hc => ?_, h.why⟩
    · simp only [Exiting, hrequests, List.mem_cons, List.mem_append, List.not_mem_nil, or_false,
        Task.inbound.injEq] at he ⊢
      tauto
    · have hexiting := h.under hx hc
      simp only [Exiting, hrequests, List.mem_cons, List.mem_append, List.not_mem_nil, or_false,
        Task.inbound.injEq] at hexiting ⊢
      tauto
    · simpa using h.dying
    · have hlinked := h.linked hc
      simp only [hrequests, List.mem_cons, List.mem_append, List.not_mem_nil, or_false,
        Task.inbound.injEq] at hlinked ⊢
      tauto
    · have hparting := h.parting hs hc
      simp only [hrequests, List.mem_cons, List.mem_append, List.not_mem_nil, or_false,
        Task.inbound.injEq] at hparting ⊢
      tauto
  next hsession =>
    refine ⟨fun hs => absurd hs hfresh, h.finalizing, fun he => h.told ?_, fun _ hc => ?_, h.dying,
      h.waiting, h.confirmed, h.exited, fun hc => ?_, fun _ _ => .inl (by simpa using hsession), h.why⟩
    · simp only [Exiting, hrequests, List.mem_cons] at he ⊢
      tauto
    · exact absurd (h.linked hc).1 hsession
    · exact absurd (h.linked hc).1 hsession

/-- The frontend is told, and requests the last update. -/
theorem Protocol.takeExiting {s : Shutdown τ E} (h : s.Protocol) {rest : List (Message E)}
    (hmessages : s.messages = .exiting :: rest) : ({ s with messages := rest }.take .exiting).Protocol := by
  have hmem : .exiting ∈ s.messages := by
    rw [hmessages]
    exact List.mem_cons_self
  have hexit : s.exitRequested = true := h.told (.inl hmem)
  simp only [take, Shutdown.send]
  split
  next hconnected =>
    have hstarted : s.started ≠ false := fun hs => by cases hconnected.symm.trans (h.fresh hs).2.1
    refine ⟨fun hs => absurd hs hstarted, h.finalizing, fun _ => hexit, fun _ _ => .inr (.inl (by simp)),
      h.dying, h.waiting, h.confirmed, h.exited, fun hc => ?_, fun _ hc => ?_, h.why⟩
    · simpa using h.linked hc
    · cases hconnected.symm.trans hc
  next hconnected =>
    exact ⟨h.fresh, h.finalizing, fun _ => hexit, fun _ hc => absurd hc hconnected, h.dying, h.waiting,
      h.confirmed, h.exited, h.linked, h.parting, h.why⟩

/-- The last update comes. -/
theorem Protocol.takeFinal {s : Shutdown τ E} (h : s.Protocol) {batches : List (ThreadCalls E)}
    {rest : List (Message E)} (hmessages : s.messages = .statistics .final batches :: rest) :
    ({ s with messages := rest }.take (.statistics .final batches)).Protocol := by
  have hmem : .statistics .final batches ∈ s.messages := by
    rw [hmessages]
    exact List.mem_cons_self
  have hexit : s.exitRequested = true := h.told (.inr (.inr (.inr (.inl ⟨batches, hmem⟩))))
  simp only [take, Shutdown.updated, Shutdown.send]
  split
  next hconnected =>
    have hstarted : s.started ≠ false := fun hs => by cases hconnected.symm.trans (h.fresh hs).2.1
    refine ⟨fun hs => absurd hs hstarted, h.finalizing, fun _ => hexit,
      fun _ _ => .inr (.inr (.inr (.inr rfl))), h.dying, h.waiting, h.confirmed, h.exited, fun hc => ?_,
      fun _ hc => ?_, fun _ _ => .inr rfl⟩
    · simpa using h.linked hc
    · cases hconnected.symm.trans hc
  next hconnected =>
    exact ⟨h.fresh, h.finalizing, fun _ => hexit, fun _ hc => absurd hc hconnected, h.dying, h.waiting,
      h.confirmed, h.exited, h.linked, h.parting, fun _ _ => .inr rfl⟩

/-- **The worker's task**; the rest of the queue is left. -/
theorem Protocol.execute [DecidableEq τ] [Inhabited E] {idGen : τ → Nat} {s s' : Shutdown τ E}
    (h : s.Protocol) (hloop : s.AtLoop) {task : Task} {rest : List Task} (hqueue : s.queue = task :: rest)
    (hstep : { s with queue := rest }.executeTask idGen task = some s') : s'.Protocol := by
  have hfresh : s.started ≠ false := by rw [hloop.1]; decide
  cases task with
  | stop =>
    have hdying : s.dying.isSome = true := h.dying.mpr (.inl (by rw [hqueue]; exact List.mem_cons_self))
    simp only [executeTask] at hstep
    split at hstep
    next hsession =>
      obtain ⟨collector, -, rfl⟩ := readCollected_eq_some hstep
      refine ⟨fun hs => absurd hs hfresh, fun _ => hsession, fun he => h.told ?_, fun hx hc => ?_,
        ⟨fun _ => .inr (.inl rfl), fun _ => hdying⟩, h.waiting, h.confirmed, h.exited, fun hc => ?_,
        fun hs hc => ?_, h.why⟩
      · simpa [Exiting, hqueue] using he
      · simpa [Exiting, hqueue] using h.under hx hc
      · simpa [hqueue] using h.linked hc
      · simpa [hqueue] using h.parting hs hc
    next hsession =>
      cases hstep
      refine ⟨fun hs => absurd hs hfresh, h.finalizing, fun he => h.told ?_, fun hx hc => ?_,
        ⟨fun _ => .inr (.inr (.inr rfl)), fun _ => hdying⟩, fun _ _ => rfl,
        fun _ => by simpa using hsession, fun _ => rfl, fun hc => ?_, fun hs hc => ?_, h.why⟩
      · simpa [Exiting, hqueue] using he
      · simpa [Exiting, hqueue] using h.under hx hc
      · simpa [hqueue] using h.linked hc
      · simpa [hqueue] using h.parting hs hc
  | inbound r =>
    have hdying : s.dying.isSome = true ↔ .stop ∈ rest ∨ s.reading = some .finalizeSession ∨
        s.exitRequested = true ∨ s.exitConfirmed = true := by
      simpa [hqueue] using h.dying
    cases hstep
    split
    next hsession => exact h.handle hloop hqueue hdying
    next hsession =>
      refine ⟨fun hs => absurd hs hfresh, h.finalizing, fun he => h.told ?_, fun _ hc => ?_, hdying,
        h.waiting, h.confirmed, h.exited, fun hc => ?_, fun _ _ => .inl (by simpa using hsession), h.why⟩
      · simp only [Exiting, hqueue, List.mem_cons] at he ⊢
        exact he.imp id (Or.imp id (Or.imp (fun hmem => .inr hmem) id))
      · exact absurd (h.linked hc).1 hsession
      · exact absurd (h.linked hc).1 hsession

/-- `read_collected` returned: the frontend is being told, if that was its purpose. -/
theorem Protocol.endRead {s : Shutdown τ E} (h : s.Protocol) {reading : Reading}
    (hreading : s.reading = some reading) :
    ({ s with reading := none }.afterRead reading).Protocol := by
  have hfresh : s.started ≠ false := by
    intro hs
    cases hreading.symm.trans (h.fresh hs).2.2.2.2.2.2
  cases reading with
  | collectAndReschedule =>
    refine ⟨fun hs => absurd hs hfresh, fun hr => (by cases hr), h.told, h.under, ?_, h.waiting,
      h.confirmed, h.exited, h.linked, h.parting, h.why⟩
    simpa [afterRead, hreading] using h.dying
  | finalizeSession =>
    have hsession := h.finalizing hreading
    refine ⟨fun hs => absurd hs hfresh, fun hr => (by cases hr), fun _ => rfl, fun _ _ => .inl ?_,
      ⟨fun _ => .inr (.inr (.inl rfl)), fun _ => h.dying.mpr (.inr (.inl hreading))⟩, fun _ hs => ?_,
      h.confirmed, h.exited, fun hc => ?_, fun hs hc => ?_, h.why⟩
    · exact List.mem_append_right _ (List.mem_singleton.mpr rfl)
    · cases hsession.symm.trans hs
    · simpa [afterRead, Shutdown.message] using h.linked hc
    · simpa [afterRead, Shutdown.message] using h.parting hs hc

/-- The frontend takes what is next. -/
theorem Protocol.deliver {s : Shutdown τ E} (h : s.Protocol) {m : Message E} {rest : List (Message E)}
    (hmessages : s.messages = m :: rest) : ({ s with messages := rest }.take m).Protocol := by
  have hpop : m ≠ .exiting → m.isFinal = false → Protocol { s with messages := rest } := by
    intro hexiting hfinal
    have hiff : Exiting { s with messages := rest } ↔ s.Exiting := by
      have hne : ∀ batches, Message.statistics .final batches ≠ m := by
        rintro batches rfl
        cases hfinal
      simp [Exiting, hmessages, hexiting.symm, hne]
    exact ⟨h.fresh, h.finalizing, fun he => h.told (hiff.mp he), fun hx hc => hiff.mpr (h.under hx hc),
      h.dying, h.waiting, h.confirmed, h.exited, h.linked, h.parting, h.why⟩
  cases m with
  | init =>
    have h := hpop (by intro hne; cases hne) rfl
    simp only [take]
    split
    · exact h
    · have h := h.requestFullUpdate
      exact ⟨h.fresh, h.finalizing, h.told, h.under, h.dying, h.waiting, h.confirmed, h.exited, h.linked,
        h.parting, h.why⟩
  | exiting => exact h.takeExiting hmessages
  | statistics u batches =>
    cases u with
    | regular =>
      have h := hpop (by intro hne; cases hne) rfl
      have hshown : Protocol { s with messages := rest, shown := s.shown ++ batches } :=
        ⟨h.fresh, h.finalizing, h.told, h.under, h.dying, h.waiting, h.confirmed, h.exited, h.linked,
          h.parting, h.why⟩
      have h := hshown.send (r := .other) (by decide) (by decide)
      exact ⟨h.fresh, h.finalizing, h.told, h.under, h.dying, h.waiting, h.confirmed, h.exited, h.linked,
        h.parting, h.why⟩
    | final => exact h.takeFinal hmessages
  | other => exact hpop (by intro hne; cases hne) rfl

/-- What Protocol is about stays when the worker or a thread is at the collector. -/
theorem Protocol.onCollector [DecidableEq τ] [Inhabited E] {idGen : τ → Nat} {s s' : Shutdown τ E}
    (h : s.Protocol) {e : ManagerEvent τ E} (hstep : s.onCollector idGen e = some s') : s'.Protocol := by
  obtain ⟨collector, -, rfl⟩ := onCollector_eq_some hstep
  exact ⟨h.fresh, h.finalizing, h.told, h.under, h.dying, h.waiting, h.confirmed, h.exited, h.linked,
    h.parting, h.why⟩

theorem Protocol.step [DecidableEq τ] [Inhabited E] {idGen : τ → Nat} {s s' : Shutdown τ E}
    (h : s.Protocol) (e : ShutdownEvent τ E) (hstep : s.step idGen e = some s') : s'.Protocol := by
  cases e with
  | collect e | read e =>
    simp only [Shutdown.step] at hstep
    split at hstep
    · exact h.onCollector hstep
    · cases hstep
  | destroy =>
    simp only [Shutdown.step] at hstep
    split at hstep <;> cases hstep
    refine ⟨fun hs => ?_, h.finalizing, fun he => h.told ?_, fun hx hc => ?_,
      ⟨fun _ => .inl (by simp), fun _ => rfl⟩, h.waiting, h.confirmed, h.exited, fun hc => ?_,
      fun hs hc => ?_, h.why⟩
    · simpa using h.fresh hs
    · simpa [Exiting] using he
    · simpa [Exiting] using h.under hx hc
    · simpa using h.linked hc
    · simpa using h.parting hs hc
  | start =>
    simp only [Shutdown.step] at hstep
    split at hstep <;> cases hstep
    next hstarted =>
    obtain ⟨-, -, hrequests, hqueue, hexit, hconfirmed, -⟩ := h.fresh (by simpa using hstarted)
    refine ⟨fun hs => (by cases hs), fun _ => rfl, fun he => h.told ?_, fun hx _ => ?_, h.dying,
      fun _ hs => (by cases hs), fun hc => ?_, h.exited, fun _ => ⟨rfl, ?_, hqueue _⟩,
      fun _ hc => (by cases hc), fun _ hc => (by cases hc)⟩
    · simpa [Exiting, message] using he
    · cases hexit.symm.trans hx
    · cases hconfirmed.symm.trans hc
    · rw [show (s.message .init).requests = [] from hrequests]
      exact List.not_mem_nil
  | collectAndReschedule =>
    simp only [Shutdown.step] at hstep
    split at hstep
    next hloop =>
      obtain ⟨collector, -, rfl⟩ := readCollected_eq_some hstep
      have hdying := h.dying
      rw [hloop.2.2] at hdying
      refine ⟨fun hs => ?_, fun hr => (by cases hr), h.told, h.under, ?_, h.waiting, h.confirmed, h.exited,
        h.linked, h.parting, h.why⟩
      · cases hloop.1.symm.trans hs
      · simpa using hdying
    next => cases hstep
  | execute =>
    simp only [Shutdown.step] at hstep
    split at hstep
    next hloop =>
      split at hstep
      next hqueue => exact h.execute hloop hqueue hstep
      next => cases hstep
    next => cases hstep
  | endRead =>
    simp only [Shutdown.step] at hstep
    split at hstep
    next hreading =>
      obtain ⟨t, ht, rfl⟩ := Option.map_eq_some_iff.mp hstep
      exact (h.onCollector ht).endRead ((onCollector_reading ht).trans hreading)
    next => cases hstep
  | leave =>
    simp only [Shutdown.step] at hstep
    split at hstep <;> cases hstep
    next hleaves =>
    exact ⟨h.fresh, h.finalizing, h.told, h.under, h.dying, h.waiting, h.confirmed, fun _ => hleaves.2,
      h.linked, h.parting, h.why⟩
  | receive =>
    simp only [Shutdown.step] at hstep
    split at hstep
    next r rest hrequests => exact h.receive hrequests (Option.some.inj hstep)
    · cases hstep
  | deliver =>
    simp only [Shutdown.step] at hstep
    split at hstep <;> cases hstep
    next hmessages => exact h.deliver hmessages
  | requestUpdate =>
    simp only [Shutdown.step] at hstep
    split at hstep <;> cases hstep
    exact h.requestFullUpdate
  | requestOther =>
    cases hstep
    exact h.send (by decide) (by decide)
  | disconnectSession =>
    simp only [Shutdown.step] at hstep
    split at hstep <;> cases hstep
    next hc => exact h.disconnect hc.1 (by simp only [Shutdown.send, if_pos hc.1]) (.inr hc.2)
  | close =>
    simp only [Shutdown.step] at hstep
    split at hstep <;> cases hstep
    next hc => exact h.disconnect hc (by simp only [Shutdown.send, if_pos hc]) (.inl rfl)

end Shutdown

end MicroProfiler.Frontend
