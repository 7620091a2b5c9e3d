/-
  Sessions marshalled to an apartment: `ipc/src/marshalled_server.cpp`, the passive session of
  `ipc/src/marshalled_session.cpp`, `ipc/src/lifetime.h`.

  1. **Program** — the transport's threads create sessions, pass messages and disconnections to them
     and destroy them; the apartment executes what they scheduled, each task under the session's
     `lifetime`.  A destructor takes three steps that other threads may come between: it marks the
     session destroyed (waiting for a task that is being executed), stops the outbound wrapper, and
     leaves the underlying session to be released BY THE APARTMENT (`Marshalling.step`).

  2. **Specification** — the underlying session gets what the transport gave, in order and once, never
     before it is created and never after the session is marked; the transport's channel is not
     touched after the wrapper stopped; an underlying session that was created is released by the
     apartment, once; a server that stopped creates none.

  3. **The crux (`Sound.first`)** — the creation is the first thing scheduled for a session, so
     whatever is executed for it finds the underlying session there: `fault`, a call on a null
     pointer, is never reached.
-/
import MicroProfiler.Lib.Flow
import MicroProfiler.Lib.Runs
import Mathlib.Logic.Function.Basic

namespace MicroProfiler.Ipc

/-- How far a marshalled session is, as the transport sees it. -/
inductive Stage
  | unborn
  | live
  /-- `_lifetime->mark_destroyed()` -/
  | marked
  /-- `_outbound->stop()` -/
  | stopped
  /-- the destructor is over -/
  | gone
deriving DecidableEq, Repr

/-- A session only moves on: no step lowers this. -/
def Stage.rank : Stage → Nat
  | .unborn => 0
  | .live => 1
  | .marked => 2
  | .stopped => 3
  | .gone => 4

/-- `_underlying`, which is set by the task that creates it, and reset on the apartment. -/
inductive Underlying
  | null
  | created
  | released
deriving DecidableEq, Repr

/-- What is scheduled for a session; the first three go through `lifetime::schedule_safe`. -/
inductive SessionTask (μ : Type)
  | create
  | message (payload : μ)
  | disconnect
  /-- `schedule_destroy` -/
  | release
deriving DecidableEq, Repr

namespace SessionTask

/-- Whether `execute_safe` stands between the apartment and the task. -/
def safe {μ : Type} : SessionTask μ → Bool
  | .release => false
  | _ => true

end SessionTask

/-- What an underlying session sends. -/
inductive Outbound (μ : Type)
  | message (payload : μ)
  | disconnect
deriving DecidableEq, Repr

/-- A `marshalled_server`, its sessions and the apartment.  `scheduled` and `executed` are the tasks
    given and executed under a `lifetime`, `forwarded` what reached the transport's channels. -/
structure Marshalling (ι μ : Type) where
  serverAlive : Bool
  stage : ι → Stage
  underlying : ι → Underlying
  apartment : List (ι × SessionTask μ)
  /-- whose lifetime is held by the task being executed -/
  running : Option ι
  scheduled : List (ι × SessionTask μ)
  executed : List (ι × SessionTask μ)
  releases : List (ι × SessionTask μ)
  forwarded : List (ι × Outbound μ)
  /-- a task found `_underlying` null -/
  fault : Bool

/-- What the transport, the destructors, the apartment and the underlying sessions may do, each at
    any time that `step` allows. -/
inductive MarshallingEvent (ι μ : Type)
  /-- `marshalled_server::create_session` -/
  | createSession (i : ι)
  | message (i : ι) (payload : μ)
  | disconnect (i : ι)
  /-- the apartment takes a task -/
  | begin
  | finish
  /-- the underlying session sends something, on the apartment -/
  | send (i : ι) (what : Outbound μ)
  | mark (i : ι)
  | stop (i : ι)
  | release (i : ι)
  /-- `marshalled_server::stop` -/
  | stopServer
deriving DecidableEq, Repr

namespace Marshalling

variable {ι μ : Type}

/-- A server with no sessions. -/
def init : Marshalling ι μ :=
  ⟨true, fun _ => .unborn, fun _ => .null, [], none, [], [], [], [], false⟩

/-- `lifetime::schedule_safe`. -/
def scheduleSafe (s : Marshalling ι μ) (i : ι) (task : SessionTask μ) : Marshalling ι μ :=
  { s with apartment := s.apartment ++ [(i, task)], scheduled := s.scheduled ++ [(i, task)] }

variable [DecidableEq ι]

/-- What a task does once `execute_safe` found the session alive; `create_session` of the underlying
    server returns a session. -/
def execute (s : Marshalling ι μ) (i : ι) (task : SessionTask μ) : Marshalling ι μ :=
  let s := { s with running := some i, executed := s.executed ++ [(i, task)] }
  match task with
  | .create => { s with underlying := Function.update s.underlying i .created }
  | _ => if s.underlying i = .created then s else { s with fault := true }

/-- The apartment drops the last reference to an underlying session, if there is one. -/
def drop (s : Marshalling ι μ) (i : ι) : Marshalling ι μ :=
  { s with releases := s.releases ++ [(i, .release)],
           underlying := if s.underlying i = .created then Function.update s.underlying i .released
             else s.underlying }

/-- One step; `none` where it is not possible.  A destructor waits at its first step while a task
    holds the lifetime, and in no other. -/
def step (s : Marshalling ι μ) : MarshallingEvent ι μ → Option (Marshalling ι μ)
  | .createSession i =>
    if s.stage i ≠ .unborn then none
    -- a server that was stopped returns a null pointer
    else if s.serverAlive then
      some ({ s with stage := Function.update s.stage i .live }.scheduleSafe i .create)
    else some s
  | .message i payload =>
    if s.stage i = .live then some (s.scheduleSafe i (.message payload)) else none
  | .disconnect i => if s.stage i = .live then some (s.scheduleSafe i .disconnect) else none
  | .begin =>
    match s.running, s.apartment with
    | none, (i, task) :: rest =>
      let s := { s with apartment := rest }
      if task.safe then
        if s.stage i = .live then some (s.execute i task) else some s
      else some (s.drop i)
    | _, _ => none
  | .finish =>
    match s.running with
    | some _ => some { s with running := none }
    | none => none
  | .send i what =>
    if s.underlying i = .created then
      -- `outbound_wrapper`: through its own lifetime
      if s.stage i = .live ∨ s.stage i = .marked then
        some { s with forwarded := s.forwarded ++ [(i, what)] }
      else some s
    else none
  | .mark i =>
    if s.stage i = .live ∧ s.running ≠ some i then
      some { s with stage := Function.update s.stage i .marked }
    else none
  | .stop i =>
    if s.stage i = .marked then some { s with stage := Function.update s.stage i .stopped } else none
  | .release i =>
    if s.stage i = .stopped then
      some { s with stage := Function.update s.stage i .gone,
                    apartment := s.apartment ++ [(i, .release)] }
    else none
  | .stopServer => some { s with serverAlive := false }

/-! ## The invariant -/

/-- Sessions whose lifetime is over. -/
def Over (s : Marshalling ι μ) (i : ι) : Prop := s.stage i ≠ .unborn ∧ s.stage i ≠ .live

/-- The tasks in the queue that go through a lifetime, ... -/
def safeQueue (s : Marshalling ι μ) : List (ι × SessionTask μ) := s.apartment.filter fun e => e.2.safe

/-- ... and the others. -/
def releaseQueue (s : Marshalling ι μ) : List (ι × SessionTask μ) := s.apartment.filter fun e => !e.2.safe

/-- The releases a session has asked for: one, when its destructor is over. -/
def asked (s : Marshalling ι μ) (i : ι) : List (SessionTask μ) := if s.stage i = .gone then [.release] else []

/-- The INVARIANT. -/
structure Sound (s : Marshalling ι μ) : Prop where
  /-- what was scheduled is executed or waits, in order; of a session that is over it may be dropped
      -/
  safe : Lib.Flow s.Over s.scheduled s.executed s.safeQueue
  /-- a release that was asked for was made, or waits -/
  releases : ∀ i, s.asked i = Lib.ofParty i s.releases ++ Lib.ofParty i s.releaseQueue
  /-- creation comes first -/
  first : ∀ i, s.stage i ≠ .unborn → ∃ rest, Lib.ofParty i s.scheduled = .create :: rest
  unborn : ∀ i, s.stage i = .unborn → Lib.ofParty i s.scheduled = []
  once : ∀ i, .create ∉ (Lib.ofParty i s.scheduled).tail
  /-- a destructor does not get past the lifetime that is held -/
  running : ∀ i, s.running = some i → s.stage i = .live
  /-- the first task executed creates the underlying session -/
  null : ∀ i, s.underlying i = .null ↔ Lib.ofParty i s.executed = []
  /-- and only its release ends it -/
  released : ∀ i, s.underlying i = .released ↔
    Lib.ofParty i s.executed ≠ [] ∧ Lib.ofParty i s.releases ≠ []
  noFault : s.fault = false

/-- Nothing was scheduled. -/
theorem sound_init : (init : Marshalling ι μ).Sound where
  safe := Lib.Flow.nil
  releases _ := rfl
  first _ h := absurd rfl h
  unborn _ _ := rfl
  once _ := List.not_mem_nil
  running _ h := by cases h
  null _ := ⟨fun _ => rfl, fun _ => rfl⟩
  released _ := ⟨fun h => (by cases h), fun h => absurd rfl h.1⟩
  noFault := rfl

omit [DecidableEq ι] in
/-- A task under a lifetime goes to the end of the one queue, ... -/
theorem safeQueue_append {s : Marshalling ι μ} {i : ι} {task : SessionTask μ} (h : task.safe = true) :
    (s.apartment ++ [(i, task)]).filter (fun e => e.2.safe) = s.safeQueue ++ [(i, task)] := by
  rw [List.filter_append, List.filter_cons_of_pos (by exact h)]
  rfl

omit [DecidableEq ι] in
/-- ... and not to the other. -/
theorem releaseQueue_append {s : Marshalling ι μ} {i : ι} {task : SessionTask μ}
    (h : task.safe = true) :
    (s.apartment ++ [(i, task)]).filter (fun e => !e.2.safe) = s.releaseQueue := by
  rw [List.filter_append, List.filter_cons_of_neg (by simp [h]), List.filter_nil, List.append_nil]
  rfl

/-- A message or a disconnection for a session that is live: it comes behind the creation, which was
    scheduled when the session was born. -/
theorem Sound.scheduleSafe {s : Marshalling ι μ} (hs : s.Sound) {i : ι} {task : SessionTask μ}
    (hi : s.stage i = .live) (hsafe : task.safe = true) (hcreate : task ≠ .create) :
    (s.scheduleSafe i task).Sound where
  safe := by
    show Lib.Flow s.Over (s.scheduled ++ [(i, task)]) s.executed
      ((s.apartment ++ [(i, task)]).filter fun e => e.2.safe)
    rw [safeQueue_append hsafe]
    exact hs.safe.send (i, task)
  releases j := by
    show s.asked j = Lib.ofParty j s.releases
      ++ Lib.ofParty j ((s.apartment ++ [(i, task)]).filter fun e => !e.2.safe)
    rw [releaseQueue_append hsafe]
    exact hs.releases j
  first j hj := by
    obtain ⟨rest, hrest⟩ := hs.first j hj
    refine ⟨rest ++ Lib.ofParty j [(i, task)], ?_⟩
    show Lib.ofParty j (s.scheduled ++ [(i, task)]) = _
    rw [Lib.ofParty_append, hrest, List.cons_append]
  unborn j hj := by
    have hne : i ≠ j := by
      rintro rfl
      exact absurd (hj.symm.trans hi) (by decide)
    show Lib.ofParty j (s.scheduled ++ [(i, task)]) = []
    rw [Lib.ofParty_append_other hne]
    exact hs.unborn j hj
  once j := by
    show SessionTask.create ∉ (Lib.ofParty j (s.scheduled ++ [(i, task)])).tail
    by_cases hij : i = j
    · subst hij
      obtain ⟨rest, hrest⟩ := hs.first i (by rw [hi]; decide)
      have honce := hs.once i
      rw [hrest] at honce
      rw [Lib.ofParty_append, hrest, List.cons_append, List.tail_cons, Lib.ofParty_cons_self,
        Lib.ofParty_nil, List.mem_append, List.mem_singleton]
      rintro (hmem | heq)
      · exact honce hmem
      · exact hcreate heq.symm
    · rw [Lib.ofParty_append_other hij]
      exact hs.once j
  running := hs.running
  null := hs.null
  released := hs.released
  noFault := hs.noFault

/-- **A session is born**: it is live, and its creation is the first thing scheduled for it, since
    nothing was scheduled for it before. -/
theorem Sound.create {s : Marshalling ι μ} (hs : s.Sound) {i : ι} (hi : s.stage i = .unborn) :
    ({ s with stage := Function.update s.stage i .live }.scheduleSafe i .create).Sound := by
  have hstage : ∀ j, j ≠ i → Function.update s.stage i .live j = s.stage j :=
    fun j hj => Function.update_of_ne hj _ _
  have hnew : Function.update s.stage i .live i = .live := Function.update_self ..
  have hscheduled : ∀ j, j ≠ i →
      Lib.ofParty j (s.scheduled ++ [(i, SessionTask.create)]) = Lib.ofParty j s.scheduled :=
    fun j hj => Lib.ofParty_append_other (Ne.symm hj) _ _
  have hfirst : Lib.ofParty i (s.scheduled ++ [(i, SessionTask.create)]) = [.create] := by
    rw [Lib.ofParty_append, hs.unborn i hi, Lib.ofParty_cons_self]
    rfl
  refine ⟨?_, fun j => ?_, fun j hj => ?_, fun j hj => ?_, fun j => ?_, fun j hj => ?_, hs.null,
    hs.released, hs.noFault⟩
  · -- nobody's lifetime ends by this
    show Lib.Flow _ (s.scheduled ++ [(i, SessionTask.create)]) s.executed
      ((s.apartment ++ [(i, SessionTask.create)]).filter fun e => e.2.safe)
    rw [safeQueue_append rfl]
    refine (hs.safe.send (i, SessionTask.create)).close fun j hj => ?_
    have hne : j ≠ i := fun heq => hj.1 (by rw [heq]; exact hi)
    refine ⟨?_, ?_⟩ <;> show Function.update s.stage i .live j ≠ _ <;> rw [hstage j hne]
    · exact hj.1
    · exact hj.2
  · show (if Function.update s.stage i .live j = .gone then [SessionTask.release] else [])
      = Lib.ofParty j s.releases
        ++ Lib.ofParty j ((s.apartment ++ [(i, SessionTask.create)]).filter fun e => !e.2.safe)
    rw [releaseQueue_append rfl, ← hs.releases j, asked]
    by_cases hij : j = i
    · rw [hij, hnew, hi]
      rfl
    · rw [hstage j hij]
  · show ∃ rest, Lib.ofParty j (s.scheduled ++ [(i, SessionTask.create)]) = .create :: rest
    by_cases hij : j = i
    · rw [hij, hfirst]
      exact ⟨[], rfl⟩
    · rw [hscheduled j hij]
      exact hs.first j fun h => hj ((hstage j hij).trans h)
  · show Lib.ofParty j (s.scheduled ++ [(i, SessionTask.create)]) = []
    have hij : j ≠ i := by
      rintro rfl
      exact absurd (hnew.symm.trans hj) (by decide)
    rw [hscheduled j hij]
    exact hs.unborn j ((hstage j hij).symm.trans hj)
  · show SessionTask.create ∉ (Lib.ofParty j (s.scheduled ++ [(i, SessionTask.create)])).tail
    by_cases hij : j = i
    · rw [hij, hfirst]
      exact List.not_mem_nil
    · rw [hscheduled j hij]
      exact hs.once j
  · have hlive := hs.running j hj
    have hij : j ≠ i := by
      rintro rfl
      exact absurd (hi.symm.trans hlive) (by decide)
    exact (hstage j hij).trans hlive

/-- A destructor moves on: the session was live or further, and is not over less.  Nothing is
    scheduled and nothing executed by these steps. -/
theorem Sound.restage {s : Marshalling ι μ} (hs : s.Sound) {i : ι} {stage : Stage}
    (hborn : s.stage i ≠ .unborn) (hgone : s.stage i ≠ .gone) (hfree : s.running ≠ some i)
    (hstage : stage = .marked ∨ stage = .stopped) :
    { s with stage := Function.update s.stage i stage }.Sound := by
  have hother : ∀ j, j ≠ i → Function.update s.stage i stage j = s.stage j :=
    fun j hj => Function.update_of_ne hj _ _
  have hself : Function.update s.stage i stage i = stage := Function.update_self ..
  refine ⟨hs.safe.close fun j hj => ?_, fun j => ?_, fun j hj => hs.first j fun h => ?_,
    fun j hj => hs.unborn j ?_, hs.once, fun j hj => ?_, hs.null, hs.released, hs.noFault⟩
  · show Function.update s.stage i stage j ≠ .unborn ∧ Function.update s.stage i stage j ≠ .live
    by_cases hij : j = i
    · rw [hij, hself]
      rcases hstage with rfl | rfl <;> decide
    · rw [hother j hij]
      exact hj
  · show (if Function.update s.stage i stage j = .gone then [SessionTask.release] else [])
      = Lib.ofParty j s.releases ++ Lib.ofParty j s.releaseQueue
    rw [← hs.releases j, asked]
    by_cases hij : j = i
    · rw [hij, hself, if_neg hgone]
      rcases hstage with rfl | rfl <;> rfl
    · rw [hother j hij]
  · have hij : j ≠ i := fun heq => hborn (heq ▸ h)
    exact hj ((hother j hij).trans h)
  · have hij : j ≠ i := by
      rintro rfl
      have hun : stage = .unborn := hself.symm.trans hj
      rcases hstage with rfl | rfl <;> cases hun
    exact (hother j hij).symm.trans hj
  · have hij : j ≠ i := by
      rintro rfl
      exact hfree hj
    exact (hother j hij).trans (hs.running j hj)

/-- The last step of the destructor: the release it asks for waits in the queue now. -/
theorem Sound.release {s : Marshalling ι μ} (hs : s.Sound) {i : ι} (hi : s.stage i = .stopped) :
    { s with stage := Function.update s.stage i .gone,
             apartment := s.apartment ++ [(i, SessionTask.release)] }.Sound := by
  have hother : ∀ j, j ≠ i → Function.update s.stage i .gone j = s.stage j :=
    fun j hj => Function.update_of_ne hj _ _
  have hself : Function.update s.stage i .gone i = .gone := Function.update_self ..
  refine ⟨?_, fun j => ?_, fun j hj => hs.first j fun h => ?_, fun j hj => hs.unborn j ?_, hs.once,
    fun j hj => ?_, hs.null, hs.released, hs.noFault⟩
  · show Lib.Flow _ s.scheduled s.executed
      ((s.apartment ++ [(i, SessionTask.release)]).filter fun e => e.2.safe)
    rw [List.filter_append, List.filter_cons_of_neg (by simp [SessionTask.safe]), List.filter_nil,
      List.append_nil]
    refine hs.safe.close fun j hj => ?_
    show Function.update s.stage i .gone j ≠ .unborn ∧ Function.update s.stage i .gone j ≠ .live
    by_cases hij : j = i
    · rw [hij, hself]
      decide
    · rw [hother j hij]
      exact hj
  · show (if Function.update s.stage i .gone j = .gone then [SessionTask.release] else [])
      = Lib.ofParty j s.releases
        ++ Lib.ofParty j ((s.apartment ++ [(i, SessionTask.release)]).filter fun e => !e.2.safe)
    rw [List.filter_append, Lib.ofParty_append, ← List.append_assoc,
      show _ ++ Lib.ofParty j (s.apartment.filter fun e => !e.2.safe) = _ from (hs.releases j).symm,
      asked]
    by_cases hij : j = i
    · rw [hij, hself, hi, List.filter_cons_of_pos (by rfl), Lib.ofParty_cons_self]
      rfl
    · rw [hother j hij, List.filter_cons_of_pos (by rfl), Lib.ofParty_cons_ne (Ne.symm hij)]
      exact (List.append_nil _).symm
  · have hij : j ≠ i := by
      rintro rfl
      exact absurd (hi.symm.trans h) (by decide)
    exact hj ((hother j hij).trans h)
  · have hij : j ≠ i := by
      rintro rfl
      exact absurd (hself.symm.trans hj) (by decide)
    exact (hother j hij).symm.trans hj
  · have hlive := hs.running j hj
    have hij : j ≠ i := by
      rintro rfl
      exact absurd (hi.symm.trans hlive) (by decide)
    exact (hother j hij).trans hlive

section Begin

variable {s : Marshalling ι μ} {i : ι} {task : SessionTask μ} {rest : List (ι × SessionTask μ)}

omit [DecidableEq ι] in
/-- A task under a lifetime at the head of the apartment's queue. -/
theorem safeQueue_cons (hqueue : s.apartment = (i, task) :: rest) (hsafe : task.safe = true) :
    s.safeQueue = (i, task) :: rest.filter (fun e => e.2.safe) ∧
      s.releaseQueue = rest.filter fun e => !e.2.safe := by
  rw [safeQueue, releaseQueue, hqueue]
  exact ⟨List.filter_cons_of_pos (by exact hsafe), List.filter_cons_of_neg (by simp [hsafe])⟩

/-- A live session asked for no release yet. -/
theorem Sound.releases_nil (hs : s.Sound) (hi : s.stage i ≠ .gone) :
    Lib.ofParty i s.releases = [] ∧ Lib.ofParty i s.releaseQueue = [] := by
  have h := hs.releases i
  rw [asked, if_neg hi] at h
  exact List.append_eq_nil_iff.1 h.symm

/-- What a task finds: the creation finds nothing executed yet, everything else finds the underlying
    session created.  By what was scheduled: the tasks executed are the first of those, and the
    creation is the very first. -/
theorem Sound.finds (hs : s.Sound) (hqueue : s.apartment = (i, task) :: rest)
    (hsafe : task.safe = true) (hi : s.stage i = .live) :
    (task = .create → Lib.ofParty i s.executed = []) ∧
      (task ≠ .create → s.underlying i = .created) := by
  obtain ⟨tail, htail⟩ := hs.first i (by rw [hi]; decide)
  have honce := hs.once i
  have hflow := hs.safe.opened i fun h => h.2 hi
  rw [(safeQueue_cons hqueue hsafe).1, Lib.ofParty_cons_self, htail] at hflow
  rw [htail, List.tail_cons] at honce
  have hnext : Lib.ofParty i s.executed = [] → task = .create := by
    intro hnil
    rw [hnil, List.nil_append] at hflow
    exact (List.cons.inj hflow).1.symm
  have hmem : Lib.ofParty i s.executed ≠ [] → task ∈ tail := by
    intro hne
    obtain ⟨first, more, hcons⟩ := List.exists_cons_of_ne_nil hne
    rw [hcons, List.cons_append] at hflow
    rw [(List.cons.inj hflow).2]
    exact List.mem_append_right _ List.mem_cons_self
  refine ⟨fun hcreate => ?_, fun hcreate => ?_⟩
  · -- a second creation would have been scheduled
    by_contra hne
    exact honce (hcreate ▸ hmem hne)
  · -- something was executed, so the session was created; it was not released while it is live
    have hne : Lib.ofParty i s.executed ≠ [] := fun hnil => hcreate (hnext hnil)
    cases hunder : s.underlying i with
    | null => exact absurd ((hs.null i).1 hunder) hne
    | created => rfl
    | released =>
      exact absurd (hs.releases_nil (by rw [hi]; decide)).1 ((hs.released i).1 hunder).2

/-- A task of a live session: there is no fault, and afterwards the underlying session is there
    whatever the task was. -/
theorem Sound.execute (hs : s.Sound) (hqueue : s.apartment = (i, task) :: rest)
    (hsafe : task.safe = true) (hi : s.stage i = .live) :
    ({ s with apartment := rest }.execute i task).Sound := by
  have hfinds := hs.finds hqueue hsafe hi
  have hqueues := safeQueue_cons hqueue hsafe
  have hreleases := hs.releases_nil (i := i) (by rw [hi]; decide)
  have hexec : ({ s with apartment := rest }.execute i task)
      = { s with
          apartment := rest, running := some i, executed := s.executed ++ [(i, task)],
          underlying := Function.update s.underlying i .created } := by
    cases task with
    | create => rfl
    | release => cases hsafe
    | message payload =>
      have hcreated := hfinds.2 (by intro h; cases h)
      have hsame : Function.update s.underlying i .created = s.underlying := by
        rw [← hcreated, Function.update_eq_self]
      rw [hsame]
      exact if_pos hcreated
    | disconnect =>
      have hcreated := hfinds.2 (by intro h; cases h)
      have hsame : Function.update s.underlying i .created = s.underlying := by
        rw [← hcreated, Function.update_eq_self]
      rw [hsame]
      exact if_pos hcreated
  have hsafeFlow := hs.safe
  rw [hqueues.1] at hsafeFlow
  have hexecuted : Lib.ofParty i (s.executed ++ [(i, task)]) ≠ [] := by
    rw [Lib.ofParty_append, Lib.ofParty_cons_self]
    exact List.append_ne_nil_of_right_ne_nil _ (List.cons_ne_nil _ _)
  rw [hexec]
  refine ⟨hsafeFlow.take fun h => h.2 hi, fun j => ?_, hs.first, hs.unborn, hs.once, fun j hj => ?_,
    fun j => ?_, fun j => ?_, hs.noFault⟩
  · have h := hs.releases j
    rw [hqueues.2] at h
    exact h
  · cases hj
    exact hi
  · show Function.update s.underlying i .created j = .null ↔
      Lib.ofParty j (s.executed ++ [(i, task)]) = []
    by_cases hij : j = i
    · rw [hij, Function.update_self]
      exact ⟨fun h => (by cases h), fun h => absurd h hexecuted⟩
    · rw [Function.update_of_ne hij, Lib.ofParty_append_other (Ne.symm hij)]
      exact hs.null j
  · show Function.update s.underlying i .created j = .released ↔
      Lib.ofParty j (s.executed ++ [(i, task)]) ≠ [] ∧ Lib.ofParty j s.releases ≠ []
    by_cases hij : j = i
    · rw [hij, Function.update_self]
      exact ⟨fun h => (by cases h), fun h => absurd hreleases.1 h.2⟩
    · rw [Function.update_of_ne hij, Lib.ofParty_append_other (Ne.symm hij)]
      exact hs.released j

/-- A task of a session that is over does nothing: it is dropped, as `Flow` allows for such
    sessions. -/
theorem Sound.skip (hs : s.Sound) (hqueue : s.apartment = (i, task) :: rest)
    (hsafe : task.safe = true) (hi : s.stage i ≠ .live) : { s with apartment := rest }.Sound := by
  have hqueues := safeQueue_cons hqueue hsafe
  have hflow := hs.safe
  rw [hqueues.1] at hflow
  have hover : s.Over i := by
    refine ⟨fun hunborn => ?_, hi⟩
    have h := hflow.opened i fun h => h.1 hunborn
    rw [hs.unborn i hunborn, Lib.ofParty_cons_self] at h
    exact absurd h.symm (List.append_ne_nil_of_right_ne_nil _ (List.cons_ne_nil _ _))
  refine ⟨hflow.drop hover, fun j => ?_, hs.first, hs.unborn, hs.once, hs.running, hs.null,
    hs.released, hs.noFault⟩
  have h := hs.releases j
  rw [hqueues.2] at h
  exact h

/-- The apartment drops an underlying session: what was asked for is done. -/
theorem Sound.drop (hs : s.Sound) (hqueue : s.apartment = (i, .release) :: rest) :
    ({ s with apartment := rest }.drop i).Sound := by
  have hsafe : s.safeQueue = rest.filter fun e => e.2.safe := by
    rw [safeQueue, hqueue]
    exact List.filter_cons_of_neg (by simp [SessionTask.safe])
  have hrelease : s.releaseQueue = (i, .release) :: rest.filter fun e => !e.2.safe := by
    rw [releaseQueue, hqueue]
    exact List.filter_cons_of_pos (by rfl)
  have hflow := hs.safe
  rw [hsafe] at hflow
  have hreleased : Lib.ofParty i (s.releases ++ [(i, SessionTask.release)]) ≠ [] := by
    rw [Lib.ofParty_append, Lib.ofParty_cons_self]
    exact List.append_ne_nil_of_right_ne_nil _ (List.cons_ne_nil _ _)
  have hunder : ∀ j, j ≠ i → (if s.underlying i = .created
      then Function.update s.underlying i .released else s.underlying) j = s.underlying j := by
    intro j hj
    split
    · exact Function.update_of_ne hj _ _
    · rfl
  refine ⟨hflow, fun j => ?_, hs.first, hs.unborn, hs.once, hs.running, fun j => ?_, fun j => ?_,
    hs.noFault⟩
  · show s.asked j = Lib.ofParty j (s.releases ++ [(i, SessionTask.release)])
      ++ Lib.ofParty j (rest.filter fun e => !e.2.safe)
    rw [hs.releases j, hrelease, ← Lib.ofParty_append, ← Lib.ofParty_append, List.append_assoc]
    rfl
  · show (if s.underlying i = .created then Function.update s.underlying i .released
      else s.underlying) j = .null ↔ Lib.ofParty j s.executed = []
    by_cases hij : j = i
    · rw [hij, ← hs.null i]
      split
      · next hcreated => simp [hcreated]
      · rfl
    · rw [hunder j hij]
      exact hs.null j
  · show (if s.underlying i = .created then Function.update s.underlying i .released
      else s.underlying) j = .released ↔ Lib.ofParty j s.executed ≠ [] ∧
        Lib.ofParty j (s.releases ++ [(i, SessionTask.release)]) ≠ []
    by_cases hij : j = i
    · rw [hij]
      split
      · next hcreated =>
        rw [Function.update_self, ne_eq, ← hs.null i, hcreated]
        exact ⟨fun _ => ⟨by decide, hreleased⟩, fun _ => rfl⟩
      · next hcreated =>
        have hcases : s.underlying i = .null ∨ s.underlying i = .released := by
          cases hu : s.underlying i with
          | null => exact .inl rfl
          | created => exact absurd hu hcreated
          | released => exact .inr rfl
        rw [ne_eq, ← hs.null i]
        rcases hcases with hu | hu
        · simp [hu]
        · simp [hu]
    · rw [hunder j hij, Lib.ofParty_append_other (Ne.symm hij)]
      exact hs.released j

end Begin

/-- The apartment takes a task, of one of these kinds. -/
theorem Sound.begin {s s' : Marshalling ι μ} (hs : s.Sound) (hstep : s.step .begin = some s') :
    s'.Sound := by
  simp only [Marshalling.step] at hstep
  split at hstep
  case h_2 => cases hstep
  next i task rest hrunning hqueue =>
  split at hstep
  · next hsafe =>
    split at hstep <;> cases hstep
    · next hlive => exact hs.execute hqueue hsafe hlive
    · next hlive => exact hs.skip hqueue hsafe hlive
  · next hsafe =>
    cases hstep
    cases task with
    | release => exact hs.drop hqueue
    | _ => exact absurd rfl hsafe

/-- **Every step keeps the invariant.** -/
theorem Sound.step {s s' : Marshalling ι μ} (hs : s.Sound) (e : MarshallingEvent ι μ)
    (hstep : s.step e = some s') : s'.Sound := by
  cases e with
  | createSession i =>
    -- a stopped server creates nothing
    simp only [Marshalling.step] at hstep
    split at hstep
    · cases hstep
    · next hunborn =>
      split at hstep <;> cases hstep
      · exact hs.create (not_not.1 hunborn)
      · exact hs
  | message i payload =>
    simp only [Marshalling.step] at hstep
    split at hstep <;> cases hstep
    exact hs.scheduleSafe ‹_› rfl (by intro h; cases h)
  | disconnect i =>
    simp only [Marshalling.step] at hstep
    split at hstep <;> cases hstep
    exact hs.scheduleSafe ‹_› rfl (by intro h; cases h)
  | begin => exact hs.begin hstep
  | finish =>
    -- the lifetime is let go
    simp only [Marshalling.step] at hstep
    split at hstep <;> cases hstep
    exact ⟨hs.safe, hs.releases, hs.first, hs.unborn, hs.once, fun _ h => (by cases h), hs.null,
      hs.released, hs.noFault⟩
  | send i what =>
    -- what is forwarded is not spoken of
    simp only [Marshalling.step] at hstep
    split at hstep
    · split at hstep <;> cases hstep
      · exact ⟨hs.safe, hs.releases, hs.first, hs.unborn, hs.once, hs.running, hs.null, hs.released,
          hs.noFault⟩
      · exact hs
    · cases hstep
  | mark i =>
    simp only [Marshalling.step] at hstep
    split at hstep <;> cases hstep
    next h => exact hs.restage (by rw [h.1]; decide) (by rw [h.1]; decide) h.2 (.inl rfl)
  | stop i =>
    simp only [Marshalling.step] at hstep
    split at hstep <;> cases hstep
    next h =>
    refine hs.restage (by rw [h]; decide) (by rw [h]; decide) (fun hrunning => ?_) (.inr rfl)
    exact absurd ((hs.running i hrunning).symm.trans h) (by decide)
  | release i =>
    simp only [Marshalling.step] at hstep
    split at hstep <;> cases hstep
    exact hs.release ‹_›
  | stopServer =>
    cases hstep
    exact ⟨hs.safe, hs.releases, hs.first, hs.unborn, hs.once, hs.running, hs.null, hs.released,
      hs.noFault⟩

/-- The invariant of every run. -/
theorem sound_of_run {es : List (MarshallingEvent ι μ)} {s : Marshalling ι μ}
    (hrun : Lib.run Marshalling.step init es = some s) : s.Sound :=
  Lib.run_invariant (fun _ e _ hs hstep => hs.step e hstep) es init s sound_init hrun

/-! ## What is over stays over -/

/-- What one step can do to a session: nothing, to be born of a server that is alive, or to move on;
    to execute only while it is live, and to forward only until its wrapper is stopped. -/
structure Moves (s s' : Marshalling ι μ) (i : ι) : Prop where
  stage : s'.stage i = s.stage i ∨ (s.serverAlive = true ∧ s.stage i = .unborn ∧ s'.stage i = .live) ∨
    (s.stage i ≠ .unborn ∧ (s.stage i).rank < (s'.stage i).rank)
  executed : Lib.ofParty i s'.executed = Lib.ofParty i s.executed ∨ s.stage i = .live
  forwarded : Lib.ofParty i s'.forwarded = Lib.ofParty i s.forwarded ∨ s.stage i = .live ∨
    s.stage i = .marked
  server : s.serverAlive = false → s'.serverAlive = false

/-- Where nothing but the queue, the server or the task being executed changes. -/
theorem Moves.still {s s' : Marshalling ι μ} (i : ι) (hstage : s'.stage = s.stage)
    (hexecuted : s'.executed = s.executed) (hforwarded : s'.forwarded = s.forwarded)
    (hserver : s.serverAlive = false → s'.serverAlive = false) : Moves s s' i :=
  ⟨.inl (by rw [hstage]), .inl (by rw [hexecuted]), .inl (by rw [hforwarded]), hserver⟩

/-- A destructor's step, seen by any session. -/
theorem Moves.restage {s : Marshalling ι μ} (i : ι) {j : ι} {stage : Stage}
    {apartment : List (ι × SessionTask μ)} (hborn : s.stage j ≠ .unborn)
    (hrank : (s.stage j).rank < stage.rank) :
    Moves s { s with stage := Function.update s.stage j stage, apartment } i := by
  refine ⟨?_, .inl rfl, .inl rfl, id⟩
  by_cases hij : i = j
  · subst hij
    refine .inr (.inr ⟨hborn, ?_⟩)
    show (s.stage i).rank < (Function.update s.stage i stage i).rank
    rwa [Function.update_self]
  · exact .inl (Function.update_of_ne hij _ _)

/-- **The inversion of `step`**, for a session `i` that may be another than the one the step is
    about. -/
theorem step_moves {s s' : Marshalling ι μ} (e : MarshallingEvent ι μ) (hstep : s.step e = some s')
    (i : ι) : Moves s s' i := by
  cases e with
  | createSession j =>
    simp only [Marshalling.step] at hstep
    split at hstep
    · cases hstep
    · next hunborn =>
      split at hstep <;> cases hstep
      · next hserver =>
        refine ⟨?_, .inl rfl, .inl rfl, id⟩
        by_cases hij : i = j
        · subst hij
          exact .inr (.inl ⟨hserver, not_not.1 hunborn, Function.update_self ..⟩)
        · exact .inl (Function.update_of_ne hij _ _)
      · exact .still i rfl rfl rfl id
  | message j payload =>
    simp only [Marshalling.step] at hstep
    split at hstep <;> cases hstep
    exact .still i rfl rfl rfl id
  | disconnect j =>
    simp only [Marshalling.step] at hstep
    split at hstep <;> cases hstep
    exact .still i rfl rfl rfl id
  | begin =>
    simp only [Marshalling.step] at hstep
    split at hstep
    case h_2 => cases hstep
    next j task rest hrunning hqueue =>
    split at hstep
    · split at hstep <;> cases hstep
      · next hlive =>
        have hexecuted : ({ s with apartment := rest }.execute j task).executed
              = s.executed ++ [(j, task)] ∧
            ({ s with apartment := rest }.execute j task).stage = s.stage ∧
            ({ s with apartment := rest }.execute j task).forwarded = s.forwarded ∧
            ({ s with apartment := rest }.execute j task).serverAlive = s.serverAlive := by
          unfold execute
          dsimp only
          split
          · exact ⟨rfl, rfl, rfl, rfl⟩
          · split <;> exact ⟨rfl, rfl, rfl, rfl⟩
        obtain ⟨hexec, hstage, hforward, hserver⟩ := hexecuted
        refine ⟨.inl (by rw [hstage]), ?_, .inl (by rw [hforward]), fun h => hserver.trans h⟩
        by_cases hij : j = i
        · exact .inr (hij ▸ hlive)
        · rw [hexec, Lib.ofParty_append_other hij]
          exact .inl rfl
      · exact .still i rfl rfl rfl id
    · cases hstep
      exact .still i rfl rfl rfl id
  | finish =>
    simp only [Marshalling.step] at hstep
    split at hstep <;> cases hstep
    exact .still i rfl rfl rfl id
  | send j what =>
    simp only [Marshalling.step] at hstep
    split at hstep
    · split at hstep <;> cases hstep
      · next hstage =>
        refine ⟨.inl rfl, .inl rfl, ?_, id⟩
        by_cases hij : j = i
        · exact .inr (hij ▸ hstage)
        · exact .inl (Lib.ofParty_append_other hij _ _)
      · exact .still i rfl rfl rfl id
    · cases hstep
  | mark j =>
    simp only [Marshalling.step] at hstep
    split at hstep <;> cases hstep
    next h => exact .restage i (by rw [h.1]; decide) (by rw [h.1]; decide)
  | stop j =>
    simp only [Marshalling.step] at hstep
    split at hstep <;> cases hstep
    next h => exact .restage i (by rw [h]; decide) (by rw [h]; decide)
  | release j =>
    simp only [Marshalling.step] at hstep
    split at hstep <;> cases hstep
    next h => exact .restage i (by rw [h]; decide) (by rw [h]; decide)
  | stopServer =>
    cases hstep
    exact .still i rfl rfl rfl fun _ => rfl

/-- What later states keep of a session that is over, of one whose wrapper stopped, and of one that
    a stopped server never created. -/
structure Later (s s' : Marshalling ι μ) (i : ι) : Prop where
  rank : (s.stage i).rank ≤ (s'.stage i).rank
  executed : s.Over i → Lib.ofParty i s'.executed = Lib.ofParty i s.executed
  forwarded : s.stage i = .stopped ∨ s.stage i = .gone →
    Lib.ofParty i s'.forwarded = Lib.ofParty i s.forwarded
  server : s.serverAlive = false → s'.serverAlive = false ∧
    (s.stage i = .unborn → s'.stage i = .unborn)

/-- One step more.  The ranks tell that a session that is over was not live again in between. -/
theorem Later.move {s t t' : Marshalling ι μ} {i : ι} (h : Later s t i) (hm : Moves t t' i) :
    Later s t' i := by
  refine ⟨?_, fun hover => ?_, fun hstopped => ?_, fun hserver => ?_⟩
  · refine Nat.le_trans h.rank ?_
    rcases hm.stage with heq | ⟨-, hu, hl⟩ | ⟨-, hlt⟩
    · exact Nat.le_of_eq (by rw [heq])
    · rw [hu, hl]
      decide
    · exact Nat.le_of_lt hlt
  · -- only a live session executes
    rcases hm.executed with heq | hlive
    · exact heq.trans (h.executed hover)
    · have hrank := h.rank
      rw [hlive] at hrank
      obtain ⟨h₁, h₂⟩ := hover
      cases hs : s.stage i <;> simp_all [Stage.rank]
  · -- only one whose wrapper has not stopped forwards
    rcases hm.forwarded with heq | hlive
    · exact heq.trans (h.forwarded hstopped)
    · have hrank := h.rank
      rcases hlive with hl | hl <;> rcases hstopped with hs | hs <;> simp_all [Stage.rank]
  · -- a stopped server stays so, and gives birth to nobody
    obtain ⟨hdead, hunborn⟩ := h.server hserver
    refine ⟨hm.server hdead, fun hu => ?_⟩
    rcases hm.stage with heq | ⟨halive, -⟩ | ⟨hborn, -⟩
    · exact heq.trans (hunborn hu)
    · exact absurd (hdead.symm.trans halive) (by decide)
    · exact absurd (hunborn hu) hborn

/-- The same of whole runs. -/
theorem later_of_run {s s' : Marshalling ι μ} {es : List (MarshallingEvent ι μ)}
    (hrun : Lib.run Marshalling.step s es = some s') (i : ι) : Later s s' i :=
  Lib.run_invariant (P := fun t => Later s t i) (fun _ e _ h hstep => h.move (step_moves e hstep i))
    es s s' ⟨Nat.le_refl _, fun _ => rfl, fun _ => rfl, fun h => ⟨h, id⟩⟩ hrun

/-- For ANY order of what the transport, its destructors and the apartment do, where the underlying
    server creates a session whenever it is asked to: no task finds a null session; what a session
    executed are the first of the tasks scheduled for it, the creation before all and only then; a
    session that is live executed or has queued ALL of them; once it is marked it executes no more,
    once its wrapper stopped nothing is forwarded, and a server that stopped creates none; and a
    session that is gone and has nothing queued was released, if it was ever created. -/
theorem sessions_marshalled {es es' : List (MarshallingEvent ι μ)} {s s' : Marshalling ι μ}
    (hrun : Lib.run Marshalling.step init es = some s)
    (hrun' : Lib.run Marshalling.step s es' = some s') (i : ι) :
    s.fault = false ∧
    (Lib.ofParty i s.executed <+: Lib.ofParty i s.scheduled ∧
      (s.stage i ≠ .unborn → ∃ given, Lib.ofParty i s.scheduled = .create :: given ∧
        .create ∉ given)) ∧
    (s.stage i = .live → Lib.ofParty i s.scheduled
      = Lib.ofParty i s.executed ++ Lib.ofParty i s.safeQueue) ∧
    (s.Over i → Lib.ofParty i s'.executed = Lib.ofParty i s.executed) ∧
    (s.stage i = .stopped ∨ s.stage i = .gone →
      Lib.ofParty i s'.forwarded = Lib.ofParty i s.forwarded) ∧
    (s.serverAlive = false → s.stage i = .unborn → s'.stage i = .unborn) ∧
    (s.stage i = .gone → Lib.ofParty i s.releaseQueue = [] →
      Lib.ofParty i s.releases = [.release] ∧
      s.underlying i = if Lib.ofParty i s.executed = [] then .null else .released) := by
  have hs := sound_of_run hrun
  have hlater := later_of_run hrun' i
  refine ⟨hs.noFault, ⟨hs.safe.isPrefix i, fun hborn => ?_⟩,
    fun hlive => hs.safe.opened i fun h => h.2 hlive, hlater.executed, hlater.forwarded,
    fun hserver => (hlater.server hserver).2, fun hgone hnone => ?_⟩
  · obtain ⟨given, hgiven⟩ := hs.first i hborn
    have honce := hs.once i
    rw [hgiven] at honce
    exact ⟨given, hgiven, honce⟩
  · have hreleases := hs.releases i
    rw [asked, if_pos hgone, hnone, List.append_nil] at hreleases
    refine ⟨hreleases.symm, ?_⟩
    split
    · next hnil => exact (hs.null i).2 hnil
    · next hne => exact (hs.released i).2 ⟨hne, by rw [← hreleases]; exact List.cons_ne_nil _ _⟩

/-- A message is executed, another one waits, and the session is destroyed under it. -/
def torn : List (MarshallingEvent Nat Char) :=
  [.createSession 0, .message 0 'a', .message 0 'b', .begin, .finish, .begin, .finish, .mark 0,
    .send 0 (.message 'x'), .stop 0, .send 0 (.message 'y'), .release 0]

theorem sessions_marshalled_torn :
    ∃ s s', Lib.run Marshalling.step init torn = some s ∧
      Lib.run Marshalling.step s [.stopServer, .begin, .begin, .createSession 1] = some s' ∧
      s'.executed = [(0, .create), (0, .message 'a')] ∧ s'.forwarded = [(0, .message 'x')] ∧
      s'.underlying 0 = .released ∧ s'.stage 1 = .unborn ∧
      Lib.ofParty 0 s'.executed = Lib.ofParty 0 s.executed := by
  refine ⟨_, _, rfl, rfl, rfl, rfl, rfl, rfl, ?_⟩
  exact (sessions_marshalled (rfl : Lib.run Marshalling.step init torn = _)
    (rfl : Lib.run Marshalling.step _ [.stopServer, .begin, .begin, .createSession 1] = _)
    0).2.2.2.1 ⟨by decide, by decide⟩

end Marshalling

end MicroProfiler.Ipc
