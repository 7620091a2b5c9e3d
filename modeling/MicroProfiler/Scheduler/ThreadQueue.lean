/-
  `scheduler/thread_queue.h`, `thread_queue.cpp`, with `task_queue::wait` and the event it waits for
  (`mt/src/event_generic.cpp`).

  1. **Program** — one thread waits until a task is due and executes what is, until the task that the
     destructor leaves has told it to stop.  `wait` looks at the queue with the lock, drops it, and
     only then waits for the event: other threads schedule BETWEEN the two, and at any other moment
     (`step`).

  2. **Specification** — unless the event is set, the thread does not sleep past the closest deadline
     by more than it took from its reading of the clock to the wait: what it waits for is the time
     that was left AT THE READING (`Timeout.moment`).  When it has ended, everything that comes
     before the destructor's task was executed; and it always gets to its end.

  3. **The crux (`Sound.awake`)** — what is scheduled between the look and the wait, or during it,
     either comes later than what the thread waits for or sets the event, which stays set.

  Tasks do not throw.
-/
import MicroProfiler.Lib.Progress
import MicroProfiler.Scheduler.TaskQueue

namespace MicroProfiler.Scheduler

/-- `_ready.wait(closest - time)`, called when the clock is at `since`. -/
structure Timeout where
  since : Int
  time : Int
  closest : Int
deriving DecidableEq, Repr

/-- When it is over. -/
def Timeout.moment (l : Timeout) : Int := l.since + (l.closest - l.time)

/-- Where the thread is. -/
inductive Worker
  /-- in `wait`, about to take the lock -/
  | entering
  /-- `time` and `closest` are read, the lock is dropped -/
  | measured (time closest : Int)
  /-- in `_ready.wait`, with a timeout or for ever -/
  | blocked (limit : Option Timeout)
  /-- in `execute_ready` -/
  | executing
  | ended
deriving DecidableEq, Repr

/-- The deadline that the thread goes to sleep for; none if it saw no task. -/
def Worker.sleepsFor : Worker → Option (Option Int)
  | .measured _ closest => some (some closest)
  | .blocked limit => some (limit.map Timeout.closest)
  | _ => none

/-- `thread_queue`; the task of the destructor is `none`. -/
structure ThreadQueue (T : Type) where
  underlying : Scheduling (Option T)
  worker : Worker
  stopRequested : Bool
  destroying : Bool

/-- Time, what other threads do, and the steps of the thread itself. -/
inductive ThreadQueueEvent (T : Type)
  | tick (ms : Nat)
  /-- by any thread, a task of this queue included -/
  | schedule (task : T) (deferBy : Int)
  /-- `~thread_queue`, up to the join -/
  | destroy
  /-- `wait`, with the lock -/
  | look
  /-- `wait`, after the lock -/
  | await
  /-- the event is there -/
  | wakeUp
  | timeOut
  /-- `execute_ready` takes the lock -/
  | lock
  | taskEnds
  /-- `while (!_stop_requested)` -/
  | next
deriving DecidableEq, Repr

namespace ThreadQueue

variable {T : Type}

/-- The thread begins with `wait`. -/
def new (clock : Int) : ThreadQueue T := ⟨.new clock, .entering, false, false⟩

/-- What is in the container. -/
def items (s : ThreadQueue T) : List (DeadlinedTask (Option T)) := s.underlying.queue.tasks.items

/-- Something happens to the queue. -/
def perform (s : ThreadQueue T) (a : Action (Option T)) : Option (ThreadQueue T) :=
  (s.underlying.step a).map fun u => { s with underlying := u }

/-- What happened to the queue. -/
theorem of_perform {s s' : ThreadQueue T} {a : Action (Option T)} (h : s.perform a = some s') :
    ∃ u, s.underlying.step a = some u ∧ { s with underlying := u } = s' :=
  Option.map_eq_some_iff.mp h

/-- `_underlying.execute_ready(mt::milliseconds(10))`. -/
def executeReady (s : ThreadQueue T) : Option (ThreadQueue T) :=
  { s with worker := .executing }.perform (.executeReady 10)

/-- The auto-reset event is taken. -/
def resetReady (s : ThreadQueue T) : ThreadQueue T :=
  { s with underlying := { s.underlying with queue := { s.underlying.queue with ready := false } } }

/-- Is the task that runs the destructor's? -/
def stops (s : ThreadQueue T) : Bool :=
  match s.underlying.taken.getLast? with
  | some t => t.task.isNone
  | none => false

/-- One step.  A look is made with the lock, so it and what others schedule come one after the
    other; between it and the wait anything may come. -/
def step (s : ThreadQueue T) : ThreadQueueEvent T → Option (ThreadQueue T)
  | .tick ms => s.perform (.tick ms)
  | .schedule task deferBy => s.perform (.schedule (some task) deferBy)
  | .destroy =>
    if s.destroying then none else { s with destroying := true }.perform (.schedule none 0)
  | .look =>
    if s.worker = .entering then
      match s.underlying.queue.tasks.top? with
      | some top => some { s with worker := .measured s.underlying.clock top.deadline }
      | none => some { s with worker := .blocked none }
    else none
  | .await =>
    match s.worker with
    | .measured time closest =>
      if time ≥ closest then s.executeReady
      else some { s with worker := .blocked (some ⟨s.underlying.clock, time, closest⟩) }
    | _ => none
  | .wakeUp =>
    match s.worker with
    | .blocked _ =>
      if s.underlying.queue.ready then some { s.resetReady with worker := .entering } else none
    | _ => none
  | .timeOut =>
    match s.worker with
    | .blocked (some limit) =>
      if limit.moment ≤ s.underlying.clock ∧ s.underlying.queue.ready = false then s.executeReady
      else none
    | _ => none
  | .lock => if s.worker = .executing then s.perform .lock else none
  | .taskEnds =>
    if s.worker = .executing then
      { s with stopRequested := s.stopRequested || s.stops }.perform .taskEnds
    else none
  | .next =>
    if s.worker = .executing ∧ s.underlying.executing = .idle then
      some { s with worker := if s.stopRequested then .ended else .entering }
    else none

/-- Nothing that is pending comes before what the thread sleeps for, or the event is set. -/
def Awake (s : ThreadQueue T) : Prop :=
  ∀ d, s.worker.sleepsFor = some d →
    s.underlying.queue.ready = true ∨ ∀ t ∈ s.items, ∃ closest, d = some closest ∧ closest ≤ t.deadline

/-- The INVARIANT. -/
structure Sound (s : ThreadQueue T) : Prop where
  underlying : s.underlying.Sound
  /-- tasks are executed in `execute_ready` only -/
  idle : s.worker ≠ .executing → s.underlying.executing = .idle
  awake : s.Awake
  /-- the destructor does not stop the queue, it leaves a task -/
  going : s.underlying.queue.stopped = false
  /-- the flag is set by the destructor's task -/
  stop : s.stopRequested = true → ∃ t ∈ s.underlying.taken, t.task = none
  ended : s.worker = .ended → s.stopRequested = true

/-- Nothing was scheduled, and the thread sleeps for nothing. -/
theorem new_sound (clock : Int) : (new clock : ThreadQueue T).Sound where
  underlying := Scheduling.new_sound clock
  idle _ := rfl
  awake _ h := by cases h
  going := rfl
  stop h := by cases h
  ended h := by cases h

/-! ## One step -/

/-- Somebody schedules: if the thread sleeps for something, either the task comes no earlier than
    what it saw, or the event is set. -/
theorem Sound.append {s : ThreadQueue T} (h : s.Sound) {u' : Scheduling (Option T)}
    {t : DeadlinedTask (Option T)} (hu' : u'.Sound) (ha : Scheduling.Appended s.underlying u' t) :
    Sound { s with underlying := u' } where
  underlying := hu'
  idle hworker := ha.executing.trans (h.idle hworker)
  awake := by
    intro d hd
    have hexecuting : s.worker ≠ .executing := by
      intro hworker
      rw [show ({ s with underlying := u' } : ThreadQueue T).worker = .executing from hworker] at hd
      cases hd
    have homit : s.underlying.queue.omitNotify = false := by
      rw [h.underlying.omits, h.idle hexecuting]
      rfl
    rcases h.awake d hd with hready | hall
    · exact .inl (ha.ready hready)
    rcases ha.told homit with hready | ⟨top, htop, hle⟩
    · exact .inl hready
    refine .inr fun t' ht' => ?_
    rcases (ha.items t').mp ht' with rfl | ht'
    · -- the new task comes after one that was seen
      obtain ⟨closest, hclosest, hle'⟩ := hall top htop
      exact ⟨closest, hclosest, le_trans hle' hle⟩
    · exact hall t' ht'
  going := ha.stopped
  stop hstop := ha.taken ▸ h.stop hstop
  ended := h.ended

/-- The thread goes on in `execute_ready`; it is awake as long as it does. -/
theorem Sound.looped {s : ThreadQueue T} (h : s.Sound) (hworker : s.worker = .executing)
    {u' : Scheduling (Option T)} (hu' : u'.Sound) (hl : Scheduling.Looped s.underlying u') :
    Sound { s with underlying := u' } where
  underlying := hu'
  idle hne := absurd hworker hne
  awake := by
    intro d hd
    rw [show ({ s with underlying := u' } : ThreadQueue T).worker = .executing from hworker] at hd
    cases hd
  going := hl.stopped.trans h.going
  stop hstop := by
    obtain ⟨t, ht, htask⟩ := h.stop hstop
    refine ⟨t, ?_, htask⟩
    rcases hl.taken with ⟨htaken, -⟩ | ⟨_, htaken, -⟩
    · exact htaken ▸ ht
    · exact htaken ▸ List.mem_append_left _ ht
  ended := h.ended

/-- The thread is somewhere else, and not asleep, or not for too long. -/
theorem Sound.moved {s s' : ThreadQueue T} (h : s.Sound) (hu : s'.underlying = s.underlying)
    (hstop : s'.stopRequested = s.stopRequested) (hidle : s.underlying.executing = .idle)
    (hawake : s'.Awake) (hended : s'.worker = .ended → s.stopRequested = true) : s'.Sound where
  underlying := hu ▸ h.underlying
  idle _ := by rw [hu, hidle]
  awake := hawake
  going := hu ▸ h.going
  stop := by
    rw [hu, hstop]
    exact h.stop
  ended := hstop ▸ hended

/-- The task that told the thread to stop was taken: it is the last one that was. -/
theorem of_stops {s : ThreadQueue T} (h : s.stops = true) : ∃ t ∈ s.underlying.taken, t.task = none := by
  unfold stops at h
  split at h
  next t hlast => exact ⟨t, List.mem_of_getLast? hlast, Option.isNone_iff_eq_none.mp h⟩
  · cases h

/-- `wait` is over: whatever woke the thread, it goes to `execute_ready` next. -/
theorem Sound.executeReady {s s' : ThreadQueue T} (h : s.Sound) (hs' : s.executeReady = some s') :
    s'.Sound := by
  obtain ⟨u, hu, rfl⟩ := of_perform hs'
  have hsound := h.underlying.step _ hu
  simp only [Scheduling.step] at hu
  split at hu <;> cases hu
  refine ⟨hsound, fun hne => absurd rfl hne, fun d hd => (by cases hd), h.going, h.stop,
    fun hended => (by cases hended)⟩

/-- By another thread, or by the destructor. -/
theorem Sound.schedule {s : ThreadQueue T} (h : s.Sound) {task : Option T} {deferBy : Int}
    {u' : Scheduling (Option T)} (hu' : s.underlying.step (.schedule task deferBy) = some u') :
    Sound { s with underlying := u' } :=
  h.append (h.underlying.step _ hu') (Scheduling.appended h.underlying h.going hu')

/-- **Every step keeps it.** -/
theorem Sound.step {s s' : ThreadQueue T} (h : s.Sound) (e : ThreadQueueEvent T)
    (hs' : s.step e = some s') : s'.Sound := by
  cases e with
  | tick ms =>
    obtain ⟨u, hu, rfl⟩ := of_perform hs'
    have hsound := h.underlying.step _ hu
    cases hu
    exact ⟨hsound, h.idle, h.awake, h.going, h.stop, h.ended⟩
  | schedule task deferBy =>
    obtain ⟨u, hu, rfl⟩ := of_perform hs'
    exact h.schedule hu
  | destroy =>
    simp only [ThreadQueue.step] at hs'
    split at hs'
    · cases hs'
    · obtain ⟨u, hu, rfl⟩ := of_perform hs'
      have h' := h.schedule hu
      exact ⟨h'.underlying, h'.idle, h'.awake, h'.going, h'.stop, h'.ended⟩
  | look =>
    -- what it goes to sleep for is the top of the queue, and nothing comes before that
    simp only [ThreadQueue.step] at hs'
    split at hs'
    next hworker =>
      have hidle := h.idle (by rw [hworker]; decide)
      split at hs' <;> cases hs'
      next top htop =>
        refine h.moved rfl rfl hidle (fun d hd => .inr fun t ht => ?_) (fun he => by cases he)
        cases hd
        exact ⟨_, rfl, TaskQueue.top_le htop ht⟩
      next hnone =>
        refine h.moved rfl rfl hidle (fun d hd => .inr fun t ht => ?_) (fun he => by cases he)
        have ht : t ∈ s.items := ht
        rw [items, Lib.PriorityQueue.top?_eq_none.mp hnone] at ht
        exact absurd ht List.not_mem_nil
    · cases hs'
  | await =>
    -- what was scheduled since the look is covered by the invariant already
    simp only [ThreadQueue.step] at hs'
    split at hs'
    next time closest hworker =>
      split at hs'
      · exact h.executeReady hs'
      · cases hs'
        refine h.moved rfl rfl (h.idle (by rw [hworker]; intro hne; cases hne)) (fun d hd => ?_)
          (fun he => by cases he)
        cases hd
        exact h.awake _ (by rw [hworker]; rfl)
    · cases hs'
  | wakeUp =>
    -- the event is reset; the thread is no longer asleep
    simp only [ThreadQueue.step] at hs'
    split at hs'
    next limit hworker =>
      split at hs' <;> cases hs'
      have hu := h.underlying
      refine ⟨⟨hu.count, hu.known, hu.nodup, hu.held, hu.due, hu.omits, hu.reading, hu.stopped, hu.covered⟩,
        fun _ => h.idle (by rw [hworker]; intro hne; cases hne), fun d hd => (by cases hd), h.going,
        h.stop, fun he => (by cases he)⟩
    · cases hs'
  | timeOut =>
    simp only [ThreadQueue.step] at hs'
    split at hs'
    · split at hs'
      · exact h.executeReady hs'
      · cases hs'
    · cases hs'
  | lock =>
    simp only [ThreadQueue.step] at hs'
    split at hs'
    next hworker =>
      obtain ⟨u, hu, rfl⟩ := of_perform hs'
      exact h.looped hworker (h.underlying.step _ hu) (Scheduling.looped_lock h.underlying hu)
    · cases hs'
  | taskEnds =>
    simp only [ThreadQueue.step] at hs'
    split at hs'
    next hworker =>
      obtain ⟨u, hu, rfl⟩ := of_perform hs'
      have hsound := h.underlying.step _ hu
      simp only [Scheduling.step] at hu
      split at hu <;> cases hu
      refine ⟨hsound, fun hne => absurd hworker hne, fun d hd => ?_, h.going, fun hstop => ?_,
        fun he => ?_⟩
      · rw [show Worker.sleepsFor s.worker = none by rw [hworker]; rfl] at hd
        cases hd
      · rcases Bool.or_eq_true_iff.mp hstop with hstop | hstop
        · exact h.stop hstop
        · exact of_stops hstop
      · cases hworker.symm.trans he
    · cases hs'
  | next =>
    -- it goes back to `wait`, or ends if it was told to stop
    simp only [ThreadQueue.step] at hs'
    split at hs' <;> cases hs'
    next hdone =>
    refine h.moved rfl rfl hdone.2 (fun d hd => ?_) (fun he => ?_)
    · dsimp only at hd
      split at hd <;> cases hd
    · dsimp only at he
      split at he
      · assumption
      · cases he

/-! ## In the order of the deadlines -/

/-- Nothing is deferred by a negative time. -/
def defersForward : ThreadQueueEvent T → Bool
  | .schedule _ deferBy => 0 ≤ deferBy
  | _ => true

/-- What the queue does keeps the order of what is taken. -/
theorem ordered_perform {s s' : ThreadQueue T} (h : s.underlying.Ordered) (hs : s.underlying.Sound)
    {a : Action (Option T)} (ha : a.defersForward = true) (hs' : s.perform a = some s') :
    s'.underlying.Ordered := by
  obtain ⟨u, hu, rfl⟩ := of_perform hs'
  exact h.step hs a ha hu

/-- And the thread takes in no other order. -/
theorem ordered_step {s s' : ThreadQueue T} (h : s.underlying.Ordered) (hs : s.Sound)
    (e : ThreadQueueEvent T) (hdefers : defersForward e = true) (hs' : s.step e = some s') :
    s'.underlying.Ordered := by
  cases e with
  | tick ms => exact ordered_perform h hs.underlying rfl hs'
  | schedule task deferBy =>
    exact ordered_perform (a := .schedule (some task) deferBy) h hs.underlying hdefers hs'
  | destroy =>
    simp only [ThreadQueue.step] at hs'
    split at hs'
    · cases hs'
    · exact ordered_perform (s := { s with destroying := true }) h hs.underlying rfl hs'
  | look =>
    simp only [ThreadQueue.step] at hs'
    split at hs'
    · split at hs' <;> (cases hs'; exact h)
    · cases hs'
  | await =>
    simp only [ThreadQueue.step] at hs'
    split at hs'
    · split at hs'
      · exact ordered_perform (s := { s with worker := .executing }) h hs.underlying rfl hs'
      · cases hs'
        exact h
    · cases hs'
  | wakeUp =>
    simp only [ThreadQueue.step] at hs'
    split at hs'
    · split at hs' <;> cases hs'
      exact ⟨h.taken, h.before⟩
    · cases hs'
  | timeOut =>
    simp only [ThreadQueue.step] at hs'
    split at hs'
    · split at hs'
      · exact ordered_perform (s := { s with worker := .executing }) h hs.underlying rfl hs'
      · cases hs'
    · cases hs'
  | lock =>
    simp only [ThreadQueue.step] at hs'
    split at hs'
    · exact ordered_perform h hs.underlying rfl hs'
    · cases hs'
  | taskEnds =>
    simp only [ThreadQueue.step] at hs'
    split at hs'
    · exact ordered_perform (s := { s with stopRequested := s.stopRequested || s.stops }) h hs.underlying
        rfl hs'
    · cases hs'
  | next =>
    simp only [ThreadQueue.step] at hs'
    split at hs' <;> cases hs'
    exact h

/-! ## The thread ends -/

/-- What the thread knows of the queue, and where the destructor's task is.  It is what the end of
    the thread rests on. -/
structure Timely (s : ThreadQueue T) : Prop where
  /-- a thread that was told to stop does not wait again -/
  waits : s.worker ≠ .executing → s.worker ≠ .ended → s.stopRequested = false
  /-- the top it saw is still there -/
  measured : ∀ time closest, s.worker = .measured time closest →
    time ≤ s.underlying.clock ∧ ∃ t ∈ s.items, t.deadline ≤ closest
  blocked : ∀ limit, s.worker = .blocked (some limit) →
    limit.time ≤ limit.since ∧ ∃ t ∈ s.items, t.deadline ≤ limit.closest
  /-- `execute_ready` is called when there is something for it -/
  entered : ∀ now maxDuration, s.underlying.executing = .entering now maxDuration →
    maxDuration = 10 ∧ ∃ t ∈ s.items, t.deadline ≤ now
  /-- the destructor's task was executed, runs, or is pending and due -/
  leaving : s.destroying = true → s.stopRequested = true ∨
    (s.stops = true ∧ ∃ deadline, s.underlying.executing = .running deadline) ∨
    ∃ t ∈ s.items, t.task = none ∧ t.deadline ≤ s.underlying.clock

/-- Nothing to know yet. -/
theorem new_timely (clock : Int) : (new clock : ThreadQueue T).Timely where
  waits _ _ := rfl
  measured _ _ h := by cases h
  blocked _ h := by cases h
  entered _ _ h := by cases h
  leaving h := by cases h

/-- The queue grows, or time goes on: what was there is still there, and what was due is due. -/
theorem Timely.grow {s : ThreadQueue T} (h : s.Timely) {u' : Scheduling (Option T)}
    (hclock : s.underlying.clock ≤ u'.clock) (hexecuting : u'.executing = s.underlying.executing)
    (htaken : u'.taken = s.underlying.taken)
    (hitems : ∀ t ∈ s.items, t ∈ u'.queue.tasks.items) : Timely { s with underlying := u' } where
  waits := h.waits
  measured time closest hworker := by
    obtain ⟨hle, t, ht, hdue⟩ := h.measured time closest hworker
    exact ⟨le_trans hle hclock, t, hitems t ht, hdue⟩
  blocked limit hworker := by
    obtain ⟨hle, t, ht, hdue⟩ := h.blocked limit hworker
    exact ⟨hle, t, hitems t ht, hdue⟩
  entered now maxDuration hentering := by
    obtain ⟨hmax, t, ht, hdue⟩ := h.entered now maxDuration (hexecuting.symm.trans hentering)
    exact ⟨hmax, t, hitems t ht, hdue⟩
  leaving hdestroying := by
    rcases h.leaving hdestroying with hstop | ⟨hstops, hrunning⟩ | ⟨t, ht, htask, hdue⟩
    · exact .inl hstop
    · refine .inr (.inl ⟨?_, hexecuting ▸ hrunning⟩)
      unfold stops at hstops ⊢
      exact htaken ▸ hstops
    · exact .inr (.inr ⟨t, hitems t ht, htask, le_trans hdue hclock⟩)

/-- `wait` is over in time: there is something due for `execute_ready`. -/
theorem Timely.executeReady {s s' : ThreadQueue T} (h : s.Timely)
    (hidle : s.underlying.executing = .idle) (hdue : ∃ t ∈ s.items, t.deadline ≤ s.underlying.clock)
    (hs' : s.executeReady = some s') : s'.Timely := by
  obtain ⟨u, hu, rfl⟩ := of_perform hs'
  simp only [Scheduling.step] at hu
  split at hu <;> cases hu
  refine ⟨fun hne => absurd rfl hne, fun _ _ hworker => (by cases hworker),
    fun _ hworker => (by cases hworker), fun now maxDuration hentering => ?_, fun hdestroying => ?_⟩
  · cases hentering
    exact ⟨rfl, hdue⟩
  · rcases h.leaving hdestroying with hstop | ⟨-, deadline, hrunning⟩ | hpending
    · exact .inl hstop
    · cases hidle.symm.trans hrunning
    · exact .inr (.inr hpending)

/-- `execute_ready` takes a task, or is done. -/
theorem Timely.lock {s : ThreadQueue T} (h : s.Timely) (hs : s.Sound) (hworker : s.worker = .executing)
    {u' : Scheduling (Option T)} (hu' : s.underlying.step .lock = some u') :
    Timely { s with underlying := u' } := by
  have hl := Scheduling.looped_lock hs.underlying hu'
  have hnot : ∀ deadline, s.underlying.executing ≠ .running deadline := by
    intro deadline hrunning
    simp [Scheduling.step, hrunning] at hu'
  refine ⟨fun hne => absurd hworker hne, fun _ _ hm => (by cases hworker.symm.trans hm),
    fun _ hb => (by cases hworker.symm.trans hb), fun now maxDuration hentering => ?_,
    fun hdestroying => ?_⟩
  · rcases hl.taken with ⟨-, -, hidle⟩ | ⟨_, -, -, ⟨_, hrunning⟩, -⟩
    · cases hidle.symm.trans hentering
    · cases hrunning.symm.trans hentering
  · rcases h.leaving hdestroying with hstop | ⟨-, deadline, hrunning⟩ | ⟨stop, hmem, htask, hdue⟩
    · exact .inl hstop
    · exact absurd hrunning (hnot deadline)
    · rcases hl.taken with ⟨-, hitems, -⟩ | ⟨t, htaken, hitems, hrunning, -⟩
      · refine .inr (.inr ⟨stop, ?_, htask, hl.clock ▸ hdue⟩)
        show stop ∈ u'.queue.tasks.items
        rw [hitems]
        exact hmem
      · rw [items, hitems] at hmem
        rcases List.mem_cons.mp hmem with rfl | hmem
        · -- it is the one that was taken
          refine .inr (.inl ⟨?_, hrunning⟩)
          simp [stops, htaken, htask]
        · exact .inr (.inr ⟨stop, hmem, htask, hl.clock ▸ hdue⟩)

/-- **Every step keeps it.** -/
theorem Timely.step {s s' : ThreadQueue T} (h : s.Timely) (hs : s.Sound) (e : ThreadQueueEvent T)
    (hs' : s.step e = some s') : s'.Timely := by
  cases e with
  | tick ms =>
    obtain ⟨u, hu, rfl⟩ := of_perform hs'
    cases hu
    exact h.grow (by dsimp only; omega) rfl rfl fun _ ht => ht
  | schedule task deferBy =>
    obtain ⟨u, hu, rfl⟩ := of_perform hs'
    have ha := Scheduling.appended hs.underlying hs.going hu
    exact h.grow (le_of_eq ha.clock.symm) ha.executing ha.taken fun t ht => (ha.items t).mpr (.inr ht)
  | destroy =>
    simp only [ThreadQueue.step] at hs'
    split at hs'
    · cases hs'
    · obtain ⟨u, hu, rfl⟩ := of_perform hs'
      have ha := Scheduling.appended hs.underlying hs.going hu
      have h' := h.grow (le_of_eq ha.clock.symm) ha.executing ha.taken
        fun t ht => (ha.items t).mpr (.inr ht)
      refine ⟨h'.waits, h'.measured, h'.blocked, h'.entered, fun _ => .inr (.inr
        ⟨⟨none, s.underlying.clock + 0, s.underlying.queue.order⟩, (ha.items _).mpr (.inl rfl), rfl, ?_⟩)⟩
      show s.underlying.clock + 0 ≤ u.clock
      rw [ha.clock]
      simp
  | look =>
    -- the top that is seen is there
    simp only [ThreadQueue.step] at hs'
    split at hs'
    next hworker =>
      have hwaits := h.waits (by rw [hworker]; decide) (by rw [hworker]; decide)
      split at hs' <;> cases hs'
      next top htop =>
        refine ⟨fun _ _ => hwaits, fun time closest hmeasured => ?_, fun _ hb => (by cases hb), h.entered,
          h.leaving⟩
        cases hmeasured
        exact ⟨le_rfl, top, Lib.PriorityQueue.mem_of_top? htop, le_rfl⟩
      next =>
        exact ⟨fun _ _ => hwaits, fun _ _ hm => (by cases hm), fun _ hb => (by cases hb), h.entered,
          h.leaving⟩
    · cases hs'
  | await =>
    simp only [ThreadQueue.step] at hs'
    split at hs'
    next time closest hworker =>
      obtain ⟨hle, t, ht, hdue⟩ := h.measured time closest hworker
      have hidle := hs.idle (by rw [hworker]; intro hne; cases hne)
      split at hs'
      next hpast => exact h.executeReady hidle ⟨t, ht, by omega⟩ hs'
      next =>
        cases hs'
        refine ⟨fun _ _ => h.waits (by rw [hworker]; intro hne; cases hne)
          (by rw [hworker]; intro hne; cases hne), fun _ _ hm => (by cases hm), fun limit hb => ?_,
          h.entered, h.leaving⟩
        cases hb
        exact ⟨hle, t, ht, hdue⟩
    · cases hs'
  | wakeUp =>
    simp only [ThreadQueue.step] at hs'
    split at hs'
    next limit hworker =>
      split at hs' <;> cases hs'
      exact ⟨fun _ _ => h.waits (by rw [hworker]; intro hne; cases hne)
        (by rw [hworker]; intro hne; cases hne), fun _ _ hm => (by cases hm), fun _ hb => (by cases hb),
        h.entered, h.leaving⟩
    · cases hs'
  | timeOut =>
    -- the top it waited for has come
    simp only [ThreadQueue.step] at hs'
    split at hs'
    next limit hworker =>
      split at hs'
      next hpast =>
        obtain ⟨hle, t, ht, hdue⟩ := h.blocked limit hworker
        have hover := hpast.1
        unfold Timeout.moment at hover
        exact h.executeReady (hs.idle (by rw [hworker]; intro hne; cases hne)) ⟨t, ht, by omega⟩ hs'
      · cases hs'
    · cases hs'
  | lock =>
    simp only [ThreadQueue.step] at hs'
    split at hs'
    next hworker =>
      obtain ⟨u, hu, rfl⟩ := of_perform hs'
      exact h.lock hs hworker hu
    · cases hs'
  | taskEnds =>
    -- if it was the destructor's, the thread is told to stop now
    simp only [ThreadQueue.step] at hs'
    split at hs'
    next hworker =>
      obtain ⟨u, hu, rfl⟩ := of_perform hs'
      simp only [Scheduling.step] at hu
      split at hu <;> cases hu
      refine ⟨fun hne => absurd hworker hne, fun _ _ hm => (by cases hworker.symm.trans hm),
        fun _ hb => (by cases hworker.symm.trans hb), fun _ _ he => (by cases he), fun hdestroying => ?_⟩
      rcases h.leaving hdestroying with hstop | ⟨hstops, -⟩ | hpending
      · exact .inl (by simp [hstop])
      · exact .inl (by simp [hstops])
      · exact .inr (.inr hpending)
    · cases hs'
  | next =>
    simp only [ThreadQueue.step] at hs'
    split at hs' <;> cases hs'
    next hdone =>
    refine ⟨fun _ hne => ?_, fun _ _ hm => ?_, fun _ hb => ?_, h.entered, h.leaving⟩
    · dsimp only at hne ⊢
      split at hne
      · exact absurd rfl hne
      · next hgo => simpa using hgo
    · dsimp only at hm
      split at hm <;> cases hm
    · dsimp only at hb
      split at hb <;> cases hb

/-- Both parts of what is known. -/
theorem step_sound {s s' : ThreadQueue T} (e : ThreadQueueEvent T) (h : s.Sound ∧ s.Timely)
    (hs' : s.step e = some s') : s'.Sound ∧ s'.Timely :=
  ⟨h.1.step e hs', h.2.step h.1 e hs'⟩

/-- In every state of every run. -/
theorem sound_of_run {clock : Int} {es : List (ThreadQueueEvent T)} {s : ThreadQueue T}
    (hrun : Lib.run ThreadQueue.step (new clock) es = some s) : s.Sound ∧ s.Timely :=
  Lib.run_invariant (fun _ e _ hs h => step_sound e hs h) es (new clock) s
    ⟨new_sound clock, new_timely clock⟩ hrun

/-- Time, the thread itself, and tasks that end: what comes without anybody scheduling. -/
def Driven : ThreadQueueEvent T → Prop
  | .schedule _ _ | .destroy => False
  | _ => True

/-- How far the thread is from the next task, or from its end. -/
def workerWeight (clock : Int) (executing : Executing) : Worker → Nat
  | .entering => 7
  | .measured _ _ => 6
  | .blocked (some limit) => if clock < limit.moment then 5 else 4
  | .blocked none => 4
  | .executing =>
    match executing with
    | .entering _ _ => 3
    | .running _ => 12
    | .relocking _ _ => 11
    | .idle => 10
  | .ended => 0

/-- A task that is pending costs more than a round of the loop, and the event costs a round that
    finds nothing. -/
def weight (s : ThreadQueue T) : Nat :=
  20 * s.items.length + 4 * s.underlying.queue.ready.toNat +
    workerWeight s.underlying.clock s.underlying.executing s.worker

/-- The destructor's task is in the queue whenever the thread waits. -/
theorem Timely.pending {s : ThreadQueue T} (h : s.Timely) (hs : s.Sound) (hdestroying : s.destroying = true)
    (hexecuting : s.worker ≠ .executing) (hended : s.worker ≠ .ended) : s.items ≠ [] := by
  rcases h.leaving hdestroying with hstop | ⟨-, deadline, hrunning⟩ | ⟨t, ht, -⟩
  · cases (h.waits hexecuting hended).symm.trans hstop
  · cases (hs.idle hexecuting).symm.trans hrunning
  · exact List.ne_nil_of_mem ht

/-- A wait that is over brings the thread nearer to its end. -/
theorem executeReady_forward {s : ThreadQueue T} (hidle : s.underlying.executing = .idle)
    (hweight : 4 ≤ workerWeight s.underlying.clock .idle s.worker) : ∃ s', s.executeReady = some s' ∧
      s'.destroying = s.destroying ∧ s'.weight < s.weight := by
  refine ⟨{ s with
    worker := .executing,
    underlying := { s.underlying with executing := .entering s.underlying.clock 10 } }, ?_, rfl, ?_⟩
  · simp [executeReady, perform, Scheduling.step, hidle]
  · simp only [weight, items, hidle]
    rw [workerWeight]
    omega

/-- `execute_ready` that was called in time takes a task: so a round of the loop is not made for
    nothing. -/
theorem loop_due {u : Scheduling (Option T)} {now : Int}
    (h : ∃ t ∈ u.queue.tasks.items, t.deadline ≤ now) :
    (u.loop now (now + 10)).executing = .running (now + 10) := by
  obtain ⟨t, ht, hdue⟩ := h
  cases htop : u.queue.tasks.top? with
  | none =>
    rw [Lib.PriorityQueue.top?_eq_none.mp htop] at ht
    exact absurd ht List.not_mem_nil
  | some top =>
    have hle := le_trans (TaskQueue.top_le htop ht) hdue
    have hsome : u.queue.due? now (now + 10) = some top := by
      have hlt : now < now + 10 := by omega
      simp [TaskQueue.due?, htop, hle, hlt]
    simp [Scheduling.loop, hsome]

/-- **`execute_ready` with the lock**: a task less, or done.  Only a call that was made for nothing
    could be done at once, and there is none (`Timely.entered`). -/
theorem lock_weight {s : ThreadQueue T} (hs : s.Sound) (h : s.Timely) (hworker : s.worker = .executing)
    (hlock : (∃ now maxDuration, s.underlying.executing = .entering now maxDuration) ∨
      ∃ now deadline, s.underlying.executing = .relocking now deadline) :
    ∃ s', s.step .lock = some s' ∧ s'.destroying = s.destroying ∧ s'.weight < s.weight := by
  obtain ⟨u', hu', hentered⟩ : ∃ u', s.underlying.step .lock = some u' ∧
      ((∃ now maxDuration, s.underlying.executing = .entering now maxDuration) →
        ∃ deadline, u'.executing = .running deadline) := by
    rcases hlock with ⟨now, maxDuration, hentering⟩ | ⟨now, deadline, hrelocking⟩
    · obtain ⟨rfl, hdue⟩ := h.entered now maxDuration hentering
      exact ⟨_, by simp only [Scheduling.step, hentering], fun _ => ⟨_, loop_due hdue⟩⟩
    · refine ⟨s.underlying.loop now deadline, by simp only [Scheduling.step, hrelocking], ?_⟩
      rintro ⟨_, _, hentering⟩
      cases hrelocking.symm.trans hentering
  have hready : u'.queue.ready = s.underlying.queue.ready := by
    simp only [Scheduling.step] at hu'
    split at hu' <;> cases hu'
    all_goals
      unfold Scheduling.loop
      split <;> rfl
  refine ⟨{ s with underlying := u' }, ?_, rfl, ?_⟩
  · simp [ThreadQueue.step, hworker, perform, hu']
  · simp only [weight, workerWeight, hworker, items, hready]
    rcases (Scheduling.looped_lock hs.underlying hu').taken with
      ⟨-, hitems, hidle⟩ | ⟨t, -, hitems, ⟨_, hrunning⟩, -⟩
    · rcases hlock with hentering | ⟨now, deadline, hrelocking⟩
      · obtain ⟨_, hrunning⟩ := hentered hentering
        cases hidle.symm.trans hrunning
      · rw [hidle, hrelocking, hitems]
        exact Nat.lt_succ_self _
    · rw [hrunning, hitems, List.length_cons]
      rcases hlock with ⟨now, maxDuration, hentering⟩ | ⟨now, deadline, hrelocking⟩
      · rw [hentering]
        dsimp only
        omega
      · rw [hrelocking]
        dsimp only
        omega

/-- **A step forward**, by the thread or by time, until it has ended.  By cases on where the thread
    is. -/
theorem forward {s : ThreadQueue T} (hs : s.Sound) (h : s.Timely) (hdestroying : s.destroying = true)
    (hended : s.worker ≠ .ended) : ∃ e, Driven e ∧ ∃ s', s.step e = some s' ∧
      s'.destroying = s.destroying ∧ s'.weight < s.weight := by
  cases hworker : s.worker with
  | ended => exact absurd hworker hended
  | entering =>
    -- it looks, and the destructor's task is there to be seen
    have hpending := h.pending hs hdestroying (by rw [hworker]; decide) hended
    cases htop : s.underlying.queue.tasks.top? with
    | none => exact absurd (Lib.PriorityQueue.top?_eq_none.mp htop) hpending
    | some top =>
      refine ⟨.look, trivial, { s with worker := .measured s.underlying.clock top.deadline }, ?_, rfl, ?_⟩
      · simp only [ThreadQueue.step, hworker, htop, if_true]
      · simp [weight, workerWeight, items, hworker]
  | measured time closest =>
    -- it is time already, or it waits
    have hidle := hs.idle (by rw [hworker]; intro hne; cases hne)
    by_cases hpast : time ≥ closest
    · obtain ⟨s', hs', hkept, hlt⟩ := executeReady_forward hidle (by rw [hworker]; exact Nat.le_add_left 4 2)
      refine ⟨.await, trivial, s', ?_, hkept, hlt⟩
      simp only [ThreadQueue.step, hworker, hpast, if_true]
      exact hs'
    · refine ⟨.await, trivial,
        { s with worker := .blocked (some ⟨s.underlying.clock, time, closest⟩) }, ?_, rfl, ?_⟩
      · simp only [ThreadQueue.step, hworker, hpast, if_false]
      · simp only [weight, workerWeight, items, hworker]
        split <;> omega
  | blocked limit =>
    -- the event is set, the time has come, or it will come
    by_cases hready : s.underlying.queue.ready = true
    · refine ⟨.wakeUp, trivial, { s.resetReady with worker := .entering }, ?_, rfl, ?_⟩
      · simp only [ThreadQueue.step, hworker, hready, if_true]
      · have hle : 4 ≤ workerWeight s.underlying.clock s.underlying.executing (.blocked limit) := by
          unfold workerWeight
          grind
        simp only [weight, items, hworker, hready, resetReady, workerWeight, Bool.toNat_true,
          Bool.toNat_false] at hle ⊢
        omega
    · have hpending := h.pending hs hdestroying (by rw [hworker]; intro hne; cases hne) hended
      obtain ⟨t, ht⟩ := List.exists_mem_of_ne_nil _ hpending
      obtain ⟨closest, hlimit, -⟩ := (hs.awake _ (by rw [hworker]; rfl)).resolve_left hready t ht
      obtain ⟨limit, rfl, -⟩ := Option.map_eq_some_iff.mp hlimit
      have hidle := hs.idle (by rw [hworker]; intro hne; cases hne)
      by_cases hpast : limit.moment ≤ s.underlying.clock
      · obtain ⟨s', hs', hkept, hlt⟩ := executeReady_forward hidle (by
          rw [hworker, workerWeight]
          split <;> omega)
        refine ⟨.timeOut, trivial, s', ?_, hkept, hlt⟩
        simp only [ThreadQueue.step, hworker]
        rw [if_pos ⟨hpast, by simpa using hready⟩]
        exact hs'
      · -- time has to pass
        let later := s.underlying.clock + ((limit.moment - s.underlying.clock).toNat : Int)
        refine ⟨.tick (limit.moment - s.underlying.clock).toNat, trivial,
          { s with underlying := { s.underlying with clock := later } }, rfl, rfl, ?_⟩
        have hlater : ¬ later < limit.moment := by omega
        simp only [weight, workerWeight, items, hworker, if_neg hlater]
        rw [if_pos (by omega)]
        omega
  | executing =>
    -- it takes a task, a task ends, or the loop goes round
    cases hexecuting : s.underlying.executing with
    | idle =>
      refine ⟨.next, trivial, { s with worker := if s.stopRequested then .ended else .entering }, ?_, rfl, ?_⟩
      · simp [ThreadQueue.step, hworker, hexecuting]
      · simp only [weight, items, hworker, hexecuting]
        split <;> (simp only [workerWeight]; omega)
    | entering now maxDuration =>
      obtain ⟨s', hs', hkept, hlt⟩ := lock_weight hs h hworker (.inl ⟨_, _, hexecuting⟩)
      exact ⟨.lock, trivial, s', hs', hkept, hlt⟩
    | running deadline =>
      refine ⟨.taskEnds, trivial, { s with
        stopRequested := s.stopRequested || s.stops,
        underlying := { s.underlying with executing := .relocking s.underlying.clock deadline } }, ?_, rfl, ?_⟩
      · simp only [ThreadQueue.step, hworker, if_true, perform, Scheduling.step, hexecuting,
          Option.map_some]
      · simp [weight, workerWeight, items, hworker, hexecuting]
    | relocking now deadline =>
      obtain ⟨s', hs', hkept, hlt⟩ := lock_weight hs h hworker (.inr ⟨_, _, hexecuting⟩)
      exact ⟨.lock, trivial, s', hs', hkept, hlt⟩

/-- **The thread of a queue**, in every run: unless the event is set, a wait it is in is over no later
    than the deadline of any pending task and the time that went by between the thread's reading of
    the clock and the wait; when it has ended and nothing was deferred by a negative time, the
    destructor's task was executed and everything that comes before that one; nothing is executed
    twice; and once the destructor has begun the thread gets to its end with no more than time passing
    and tasks ending. -/
theorem thread_queue_serves {clock : Int} {es : List (ThreadQueueEvent T)} {s : ThreadQueue T}
    (hrun : Lib.run ThreadQueue.step (new clock) es = some s) :
    (∀ limit, s.worker = .blocked limit → s.underlying.queue.ready = true ∨
      ∀ t ∈ s.underlying.pending, ∃ l, limit = some l ∧ l.time ≤ l.since ∧
        l.moment ≤ t.deadline + (l.since - l.time)) ∧
    ((∀ e ∈ es, defersForward e = true) → s.worker = .ended →
      ∃ stop ∈ s.underlying.taken, stop.task = none ∧
        ∀ t ∈ s.underlying.scheduled, t.Earlier stop → t ∈ s.underlying.taken) ∧
    (s.underlying.taken.map DeadlinedTask.order).Nodup ∧
    (s.destroying = true → ∃ es', (∀ e ∈ es', Driven e) ∧
      ∃ s', Lib.run ThreadQueue.step s es' = some s' ∧ s'.worker = .ended) := by
  obtain ⟨hs, htimely⟩ := sound_of_run hrun
  refine ⟨fun limit hworker => ?_, fun hdefers hended => ?_, ?_, fun hdestroying => ?_⟩
  · -- what it waits for, from `Awake`
    refine (hs.awake _ (by rw [hworker]; rfl)).imp id fun hall t ht => ?_
    obtain ⟨closest, hlimit, hle⟩ := hall t ((hs.underlying.mem_pending hs.going).mp ht)
    obtain ⟨l, rfl, rfl⟩ := Option.map_eq_some_iff.mp hlimit
    refine ⟨l, rfl, (htimely.blocked l hworker).1, ?_⟩
    unfold Timeout.moment
    omega
  · -- what comes before the destructor's task was taken before it
    obtain ⟨stop, hstop, htask⟩ := hs.stop (hs.ended hended)
    obtain ⟨-, hordered⟩ := Lib.run_invariant_on
      (P := fun t : ThreadQueue T => (t.Sound ∧ t.Timely) ∧ t.underlying.Ordered)
      (fun t e t' he h ht' => ⟨step_sound e h.1 ht', ordered_step h.2 h.1.1 e he ht'⟩) es (new clock) s
      hdefers ⟨⟨new_sound clock, new_timely clock⟩, Scheduling.new_ordered clock⟩ hrun
    refine ⟨stop, hstop, htask, fun t ht hearlier => ?_⟩
    rcases List.mem_append.mp (hs.underlying.held hs.going t ht) with hmem | hmem
    · exact hmem
    · have hlater := hordered.before stop hstop t hmem
      unfold DeadlinedTask.Earlier at hearlier hlater
      omega
  · -- tasks are told apart by the order they were scheduled in
    have hnodup := hs.underlying.nodup
    rw [List.map_append] at hnodup
    exact hnodup.of_append_left
  · -- each step forward costs weight
    obtain ⟨es', hall, s', hrun', -, hended⟩ := Lib.run_completes
      (P := fun t : ThreadQueue T => (t.Sound ∧ t.Timely) ∧ t.destroying = true)
      (Q := fun t => t.worker = .ended) (w := weight)
      (fun t ht hnot => by
        obtain ⟨e, he, t', hstep, hkept, hlt⟩ := forward ht.1.1 ht.1.2 ht.2 hnot
        exact ⟨e, he, t', hstep, ⟨step_sound e ht.1 hstep, hkept.trans ht.2⟩, hlt⟩)
      s ⟨⟨hs, htimely⟩, hdestroying⟩
    exact ⟨es', hall, s', hrun', hended⟩

/-- A task comes between the look and the wait, and a closer one the next time. -/
def interrupted : List (ThreadQueueEvent Nat) :=
  [.look, .schedule 7 5, .wakeUp, .look, .schedule 8 0, .await, .wakeUp, .look, .await, .lock, .destroy,
    .taskEnds, .lock, .taskEnds, .lock, .next]

theorem thread_queue_serves_interrupted :
    ∃ s, Lib.run ThreadQueue.step (new 0) interrupted = some s ∧ s.worker = .ended ∧
      s.underlying.taken.map DeadlinedTask.task = [some 8, none] ∧
      ∃ stop ∈ s.underlying.taken, stop.task = none ∧
        ∀ t ∈ s.underlying.scheduled, t.Earlier stop → t ∈ s.underlying.taken :=
  ⟨_, rfl, rfl, rfl, (thread_queue_serves
    (rfl : Lib.run ThreadQueue.step (new 0) interrupted = _)).2.1 (by decide) rfl⟩

end ThreadQueue

end MicroProfiler.Scheduler
