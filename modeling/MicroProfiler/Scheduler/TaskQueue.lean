/-
  `scheduler/task_queue.h`, `task_queue.cpp`: tasks with deadlines, the thread that executes those
  that are due, and the threads that schedule them.

  1. **The code** — `TaskQueue.schedule` and the pieces of `execute_ready`: the test its loop is
     controlled by (`due?`) and the wake-up it returns (`result`).

  2. **The threads** (`Scheduling`, `step`) — `execute_ready` drops the lock to run a task and reads
     the clock before it takes the lock again, and before it takes it at all: between any two of
     these any number of threads, the running task among them, schedule, stop, and time goes on.

  3. **What is pending** (`pending`) is told from the calls alone: what was scheduled and not taken,
     until `stop`.  The INVARIANT (`Sound`) is that the queue holds that and nothing else, and that
     while notifications are not inhibited, something that was announced since the last
     `execute_ready` returned covers every deadline that is pending.

  A wake-up is announced as a delay; it is due that much after the reading of the clock it was
  computed from (`WakeUp.CoversBy`).
-/
import MicroProfiler.Lib.PriorityQueue
import MicroProfiler.Lib.Runs

namespace MicroProfiler.Scheduler

/-- `task_queue::deadlined_task`. -/
structure DeadlinedTask (T : Type) where
  task : T
  deadline : Int
  /-- which call of `schedule` it came with -/
  order : Nat
deriving DecidableEq, Repr

namespace DeadlinedTask

variable {T : Type}

/-- `deadlined_task::operator <`: the top of a `priority_queue` is the greatest, so the later task
    is the lesser. -/
def less (lhs rhs : DeadlinedTask T) : Prop :=
  if lhs.deadline > rhs.deadline then True
  else if lhs.deadline < rhs.deadline then False
  else lhs.order > rhs.order

instance : DecidableRel (less (T := T)) := fun lhs rhs => by
  unfold less
  infer_instance

/-- Earlier by deadline, then by the order of scheduling. -/
def Earlier (t t' : DeadlinedTask T) : Prop :=
  t.deadline < t'.deadline ∨ t.deadline = t'.deadline ∧ t.order < t'.order

/-- The order of the queue is the reverse of that in which tasks are due. -/
theorem less_iff (lhs rhs : DeadlinedTask T) : lhs.less rhs ↔ rhs.Earlier lhs := by
  unfold less Earlier
  split
  · simp_all
  · split
    · next h => exact ⟨False.elim, fun h' => by omega⟩
    · next h => exact ⟨fun h' => .inr ⟨by omega, h'⟩, fun h' => by omega⟩

instance : IsStrictWeakOrder (DeadlinedTask T) less where
  irrefl a h := by
    rw [less_iff, Earlier] at h
    omega
  trans a b c hab hbc := by
    rw [less_iff, Earlier] at hab hbc ⊢
    omega
  incomp_trans a b c hab hbc := by
    simp only [less_iff, Earlier] at hab hbc ⊢
    omega

end DeadlinedTask

/-- `wake_up`: "execute in", and whether it is valid. -/
structure WakeUp where
  executeIn : Int
  valid : Bool
deriving DecidableEq, Repr

/-- `class task_queue`, less its clock and its mutex. -/
structure TaskQueue (T : Type) where
  tasks : Lib.PriorityQueue (DeadlinedTask T) DeadlinedTask.less
  /-- the next task's -/
  order : Nat
  /-- `_ready`, the event that `wait` waits for -/
  ready : Bool
  /-- `_omit_notify`, set while `execute_ready` has the lock dropped -/
  omitNotify : Bool
  stopped : Bool

namespace TaskQueue

variable {T : Type}

def new : TaskQueue T := ⟨.empty, 0, false, false, false⟩

/-- Is the task the next to be due? -/
def first (q : TaskQueue T) (deadline : Int) : Bool :=
  match q.tasks.top? with
  | none => true
  | some top => deadline < top.deadline

/-- `task_queue::schedule`, at a reading of the clock. -/
def schedule (q : TaskQueue T) (clock : Int) (task : T) (deferBy : Int) : TaskQueue T × WakeUp :=
  -- the task is dropped
  if q.stopped then (q, ⟨0, false⟩)
  else
    let t : DeadlinedTask T := ⟨task, clock + deferBy, q.order⟩
    let notify := !q.omitNotify && q.first t.deadline
    ({ q with tasks := q.tasks.emplace t, order := q.order + 1, ready := q.ready || notify },
      ⟨if notify then deferBy else 0, notify⟩)

/-- The task that the loop of `execute_ready` goes on with. -/
def due? (q : TaskQueue T) (now deadline : Int) : Option (DeadlinedTask T) :=
  if now < deadline then q.tasks.top?.filter fun t => t.deadline ≤ now else none

/-- What `execute_ready` returns: when to come again, counted from the reading of the clock it has.
    -/
def result (q : TaskQueue T) (now : Int) : WakeUp :=
  match q.tasks.top? with
  | none => ⟨0, false⟩
  | some top => ⟨if top.deadline > now then top.deadline - now else 0, true⟩

/-- `task_queue::stop`. -/
def stop (q : TaskQueue T) : TaskQueue T := { q with tasks := .empty, stopped := true }

end TaskQueue

/-- Where the thread that executes is. -/
inductive Executing
  | idle
  /-- the clock is read, the lock is not yet taken -/
  | entering (now maxDuration : Int)
  /-- a task runs, with the lock dropped -/
  | running (deadline : Int)
  /-- the clock is read again, the lock is not -/
  | relocking (now deadline : Int)
deriving DecidableEq, Repr

/-- A valid wake-up, with the reading of the clock it was computed from. -/
structure Announcement where
  clock : Int
  executeIn : Int
deriving DecidableEq, Repr

/-- The announcement is for now, or for no later than the deadline. -/
def Announcement.CoversBy (a : Announcement) (deadline : Int) : Prop :=
  a.executeIn ≤ 0 ∨ a.clock + a.executeIn ≤ deadline

/-- A wake-up that is not valid announces nothing. -/
def announce (clock : Int) (w : WakeUp) : List Announcement :=
  if w.valid then [⟨clock, w.executeIn⟩] else []

/-- A queue among its threads, with what has become known of it: the tasks that `schedule` was called
    with, in order (their `order` is their place), those that were taken to be run, and the wake-ups
    announced by the last `execute_ready` that returned and by the calls to `schedule` since. -/
structure Scheduling (T : Type) where
  queue : TaskQueue T
  /-- what the next reading of the clock gives -/
  clock : Int
  /-- where the one call of `execute_ready` is -/
  executing : Executing
  /-- from here on nothing is read by the code -/
  scheduled : List (DeadlinedTask T)
  taken : List (DeadlinedTask T)
  announced : List Announcement

inductive Action (T : Type)
  /-- time goes on -/
  | tick (ms : Nat)
  /-- `schedule`, by any thread, the running task included -/
  | schedule (task : T) (deferBy : Int)
  /-- `execute_ready` is called -/
  | executeReady (maxDuration : Int)
  /-- it takes the lock: at first, or after a task -/
  | lock
  /-- the task it runs returns -/
  | taskEnds
  | stop

/-- Nothing is deferred by a negative time. -/
def Action.defersForward {T : Type} : Action T → Bool
  | .schedule _ deferBy => 0 ≤ deferBy
  | _ => true

namespace Scheduling

variable {T : Type}

def new (clock : Int) : Scheduling T := ⟨.new, clock, .idle, [], [], []⟩

/-- The tasks scheduled and not taken.  This is told from the calls, whatever the queue holds. -/
def pending (s : Scheduling T) : List (DeadlinedTask T) :=
  s.scheduled.filter fun t => t.order ∉ s.taken.map DeadlinedTask.order

/-- The test of the loop of `execute_ready`, and what follows it up to where the lock is dropped: a
    task is taken, or the call returns. -/
def loop (s : Scheduling T) (now deadline : Int) : Scheduling T :=
  match s.queue.due? now deadline with
  | some t =>
      { s with
        queue := { s.queue with tasks := s.queue.tasks.pop, omitNotify := true }
        executing := .running deadline
        taken := s.taken ++ [t] }
  | none =>
      -- `inhibit_notifications` goes out of scope before the lock does
      { s with
        queue := { s.queue with omitNotify := false }
        executing := .idle
        announced := announce now (s.queue.result now) }

def step (s : Scheduling T) : Action T → Option (Scheduling T)
  | .tick ms => some { s with clock := s.clock + ms }
  | .schedule task deferBy =>
      let r := s.queue.schedule s.clock task deferBy
      some { s with
        queue := r.1
        scheduled := s.scheduled ++ [⟨task, s.clock + deferBy, s.scheduled.length⟩]
        announced := s.announced ++ announce s.clock r.2 }
  | .executeReady maxDuration =>
      -- one at a time
      match s.executing with
      | .idle => some { s with executing := .entering s.clock maxDuration }
      | _ => none
  | .lock =>
      match s.executing with
      | .entering now maxDuration => some (s.loop now (now + maxDuration))
      | .relocking now deadline => some (s.loop now deadline)
      | _ => none
  | .taskEnds =>
      match s.executing with
      | .running deadline => some { s with executing := .relocking s.clock deadline }
      | _ => none
  | .stop => some { s with queue := s.queue.stop }

end Scheduling

/-! ## What covers what -/

namespace Executing

/-- Is `_omit_notify` set? -/
def inhibits : Executing → Bool
  | idle | entering _ _ => false
  | running _ | relocking _ _ => true

/-- The reading of the clock that is in use. -/
def reading : Executing → Option Int
  | idle | running _ => none
  | entering now _ | relocking now _ => some now

end Executing

/-- An announcement covers whatever is due later, too. -/
theorem Announcement.CoversBy.mono {a : Announcement} {d d' : Int} (h : a.CoversBy d) (hd : d ≤ d') :
    a.CoversBy d' := by
  unfold CoversBy at *
  omega

namespace TaskQueue

variable {T : Type}

/-- The tasks of the queue are due no earlier than the one on top. -/
theorem top_le {q : TaskQueue T} {top t : DeadlinedTask T} (h : q.tasks.top? = some top)
    (ht : t ∈ q.tasks.items) : top.deadline ≤ t.deadline := by
  have hless := Lib.PriorityQueue.not_less_of_top? h ht
  rw [DeadlinedTask.less_iff, DeadlinedTask.Earlier] at hless
  omega

/-- The task that is gone on with is on top, and due. -/
theorem due?_eq_some {q : TaskQueue T} {now deadline : Int} {t : DeadlinedTask T}
    (h : q.due? now deadline = some t) : q.tasks.top? = some t ∧ t.deadline ≤ now := by
  unfold due? at h
  split at h
  · obtain ⟨htop, hdue⟩ := Option.filter_eq_some_iff.mp h
    exact ⟨htop, of_decide_eq_true hdue⟩
  · exact absurd h (by simp)

/-- **What `execute_ready` returns covers all that it leaves.** -/
theorem result_covers (q : TaskQueue T) (now : Int) (h : q.tasks.items ≠ []) :
    ∃ a ∈ announce now (q.result now), ∀ t ∈ q.tasks.items, a.CoversBy t.deadline := by
  cases htop : q.tasks.top? with
  | none => exact absurd (Lib.PriorityQueue.top?_eq_none.mp htop) h
  | some top =>
    -- the one on top is due first; what covers it covers the others
    refine ⟨⟨now, if top.deadline > now then top.deadline - now else 0⟩, ?_, fun t ht => ?_⟩
    · simp [announce, result, htop]
    · have hle := top_le htop ht
      unfold Announcement.CoversBy
      dsimp only
      split
      · right
        omega
      · left
        exact le_rfl

/-- **A silent `schedule`** had an earlier task before it; one that is not covers all. -/
theorem schedule_covers (q : TaskQueue T) (clock : Int) (task : T) (deferBy : Int)
    (announced : List Announcement) (hrunning : q.stopped = false) (hnotify : q.omitNotify = false)
    (h : q.tasks.items ≠ [] → ∃ a ∈ announced, ∀ t ∈ q.tasks.items, a.CoversBy t.deadline) :
    ∃ a ∈ announced ++ announce clock (q.schedule clock task deferBy).2,
      ∀ t ∈ (q.schedule clock task deferBy).1.tasks.items, a.CoversBy t.deadline := by
  simp only [schedule, hrunning, hnotify, Bool.not_false, Bool.true_and, Bool.false_eq_true,
    if_false, Lib.PriorityQueue.mem_emplace]
  cases htop : q.tasks.top? with
  | none =>
    -- nothing was there: the task is announced
    have hempty := Lib.PriorityQueue.top?_eq_none.mp htop
    refine ⟨⟨clock, deferBy⟩, by simp [announce, first, htop], fun t ht => .inr ?_⟩
    rw [hempty] at ht
    obtain rfl := ht.resolve_right List.not_mem_nil
    exact le_rfl
  | some top =>
    -- an earlier task is announced; another one is covered by what covers the top
    by_cases hfirst : clock + deferBy < top.deadline
    · refine ⟨⟨clock, deferBy⟩, by simp [announce, first, htop, hfirst], fun t ht => .inr ?_⟩
      rcases ht with rfl | ht
      · exact le_rfl
      · exact le_trans hfirst.le (top_le htop ht)
    · have htops := Lib.PriorityQueue.mem_of_top? htop
      obtain ⟨a, ha, hcovers⟩ := h (List.ne_nil_of_mem htops)
      refine ⟨a, List.mem_append_left _ ha, fun t ht => ?_⟩
      rcases ht with rfl | ht
      · exact (hcovers top htops).mono (by dsimp only; omega)
      · exact hcovers t ht

end TaskQueue

namespace Scheduling

variable {T : Type}

/-- INVARIANT of every run. -/
structure Sound (s : Scheduling T) : Prop where
  /-- the place of a call is its task's number -/
  count : s.queue.stopped = false → s.scheduled.length = s.queue.order
  /-- nothing is in the queue, or was taken, that was not scheduled -/
  known : ∀ t ∈ s.taken ++ s.queue.tasks.items, s.scheduled[t.order]? = some t
  /-- and nothing twice -/
  nodup : ((s.taken ++ s.queue.tasks.items).map DeadlinedTask.order).Nodup
  /-- no task is lost before `stop` -/
  held : s.queue.stopped = false → ∀ t ∈ s.scheduled, t ∈ s.taken ++ s.queue.tasks.items
  /-- what was taken was due -/
  due : ∀ t ∈ s.taken, t.deadline ≤ s.clock
  /-- notifications are inhibited between the first lock and the return -/
  omits : s.queue.omitNotify = s.executing.inhibits
  /-- a reading of the clock is a past one -/
  reading : ∀ now, s.executing.reading = some now → now ≤ s.clock
  /-- stopped, the queue is empty for good -/
  stopped : s.queue.stopped = true → s.queue.tasks.items = []
  /-- otherwise something announced covers all there is -/
  covered : s.queue.omitNotify = false → s.queue.tasks.items ≠ [] →
    ∃ a ∈ s.announced, ∀ t ∈ s.queue.tasks.items, a.CoversBy t.deadline

/-- Nothing is scheduled. -/
theorem new_sound (clock : Int) : (new clock : Scheduling T).Sound where
  count := fun _ => rfl
  known := by simp [new, TaskQueue.new, Lib.PriorityQueue.empty]
  nodup := List.nodup_nil
  held := fun _ => nofun
  due := nofun
  omits := rfl
  reading := by simp [new, Executing.reading]
  stopped := fun _ => rfl
  covered := fun _ h => absurd rfl h

/-- **What is pending is what the queue holds**, as long as it is not stopped: no task is lost, and
    none is there twice. -/
theorem Sound.mem_pending {s : Scheduling T} (h : s.Sound) (hrunning : s.queue.stopped = false)
    {t : DeadlinedTask T} : t ∈ s.pending ↔ t ∈ s.queue.tasks.items := by
  have hnodup := h.nodup
  rw [List.map_append, List.nodup_append] at hnodup
  unfold pending
  rw [List.mem_filter, decide_eq_true_iff]
  constructor
  · rintro ⟨hscheduled, htaken⟩
    rcases List.mem_append.mp (h.held hrunning t hscheduled) with ht | ht
    · exact absurd (List.mem_map_of_mem ht) htaken
    · exact ht
  · intro ht
    refine ⟨List.mem_of_getElem? (h.known t (List.mem_append_right _ ht)), fun htaken => ?_⟩
    exact hnodup.2.2 _ htaken _ (List.mem_map_of_mem ht) rfl

/-- **A task is scheduled**, by whatever thread, or dropped. -/
theorem Sound.schedule {s : Scheduling T} (h : s.Sound) (task : T) (deferBy : Int)
    {s' : Scheduling T} (hs' : s.step (.schedule task deferBy) = some s') : s'.Sound := by
  have hbefore : ∀ t ∈ s.taken ++ s.queue.tasks.items, t.order < s.scheduled.length := fun t ht =>
    (List.getElem?_eq_some_iff.mp (h.known t ht)).1
  have hknown : ∀ t ∈ s.taken ++ s.queue.tasks.items, ∀ t' : DeadlinedTask T,
      (s.scheduled ++ [t'])[t.order]? = some t := fun t ht t' => by
    rw [List.getElem?_append_left (hbefore t ht)]
    exact h.known t ht
  cases hstopped : s.queue.stopped with
  | true =>
    -- stopped: nothing changes but what is told of the calls
    simp only [step, TaskQueue.schedule, hstopped, if_true, announce, Option.some.injEq] at hs'
    subst hs'
    refine ⟨fun hrunning => ?_, fun t ht => hknown t ht _, h.nodup, fun hrunning => ?_, h.due, h.omits,
      h.reading, h.stopped, fun homit hitems => ?_⟩
    · exact absurd (hstopped.symm.trans hrunning) (by simp)
    · exact absurd (hstopped.symm.trans hrunning) (by simp)
    · exact absurd (h.stopped hstopped) hitems
  | false =>
    have hcovers := TaskQueue.schedule_covers s.queue s.clock task deferBy s.announced hstopped
    simp only [step, TaskQueue.schedule, hstopped, Bool.false_eq_true, if_false,
      Option.some.injEq] at hs' hcovers
    subst hs'
    -- the new task has the next number
    have hnumber := h.count hstopped
    have hperm : (s.taken ++ (s.queue.tasks.emplace
        ⟨task, s.clock + deferBy, s.queue.order⟩).items).Perm
          (⟨task, s.clock + deferBy, s.queue.order⟩ :: (s.taken ++ s.queue.tasks.items)) :=
      ((Lib.PriorityQueue.perm_emplace _ _).append_left _).trans List.perm_middle
    refine ⟨fun _ => ?_, fun t ht => ?_, ?_, fun _ t ht => ?_, h.due, h.omits, h.reading,
      fun hstop => ?_, fun homit _ => ?_⟩
    · simp [hnumber]
    · rcases List.mem_cons.mp (hperm.mem_iff.mp ht) with rfl | ht
      · dsimp only
        rw [← hnumber, List.getElem?_concat_length]
      · exact hknown t ht _
    · refine (hperm.map _).nodup_iff.mpr (List.nodup_cons.mpr ⟨fun hmem => ?_, h.nodup⟩)
      obtain ⟨t, ht, horder⟩ := List.mem_map.mp hmem
      have := hbefore t ht
      dsimp only at horder
      omega
    · refine hperm.mem_iff.mpr (List.mem_cons.mpr ?_)
      rcases List.mem_append.mp ht with ht | ht
      · exact .inr (h.held hstopped t ht)
      · rw [← hnumber]
        exact .inl (List.mem_singleton.mp ht)
    · exact absurd hstop Bool.false_ne_true
    · exact hcovers homit (h.covered homit)

/-- **A turn of the loop**: the top is taken, or `execute_ready` returns. -/
theorem Sound.loop {s : Scheduling T} (h : s.Sound) {now : Int} (deadline : Int)
    (hnow : now ≤ s.clock) : (s.loop now deadline).Sound := by
  unfold Scheduling.loop
  cases hdue : s.queue.due? now deadline with
  | some t =>
    -- taken: it leaves the queue, and notifications are inhibited while it runs
    obtain ⟨htop, hle⟩ := TaskQueue.due?_eq_some hdue
    have hitems := Lib.PriorityQueue.items_of_top? htop
    have hsplit : s.taken ++ [t] ++ s.queue.tasks.pop.items = s.taken ++ s.queue.tasks.items := by
      rw [hitems, List.append_assoc, List.singleton_append]
    refine ⟨h.count, ?_, ?_, ?_, fun x hx => ?_, rfl, ?_, fun hstop => ?_, fun homit => ?_⟩
    · dsimp only
      rw [hsplit]
      exact h.known
    · dsimp only
      rw [hsplit]
      exact h.nodup
    · dsimp only
      rw [hsplit]
      exact h.held
    · rcases List.mem_append.mp hx with hx | hx
      · exact h.due x hx
      · rw [List.mem_singleton.mp hx]
        exact le_trans hle hnow
    · intro _ hreading
      exact absurd hreading (by simp [Executing.reading])
    · exact absurd (hitems.symm.trans (h.stopped hstop)) (by simp)
    · exact absurd homit Bool.true_eq_false.mp
  | none =>
    -- returned: what it announces covers the rest
    refine ⟨h.count, h.known, h.nodup, h.held, h.due, rfl, ?_, h.stopped, fun _ hitems => ?_⟩
    · intro _ hreading
      exact absurd hreading (by simp [Executing.reading])
    · exact TaskQueue.result_covers s.queue now hitems

/-- **Any event.** -/
theorem Sound.step {s s' : Scheduling T} (h : s.Sound) (a : Action T) (hs' : s.step a = some s') :
    s'.Sound := by
  cases a with
  | schedule task deferBy => exact h.schedule task deferBy hs'
  | tick ms =>
    obtain rfl := Option.some.inj hs'
    have hlater : s.clock ≤ s.clock + ms := by omega
    exact ⟨h.count, h.known, h.nodup, h.held, fun t ht => le_trans (h.due t ht) hlater, h.omits,
      fun now hnow => le_trans (h.reading now hnow) hlater, h.stopped, h.covered⟩
  | executeReady maxDuration =>
    simp only [Scheduling.step] at hs'
    split at hs'
    · next hidle =>
      obtain rfl := Option.some.inj hs'
      refine ⟨h.count, h.known, h.nodup, h.held, h.due, ?_, fun now hnow => ?_, h.stopped, h.covered⟩
      · rw [h.omits, hidle]
        rfl
      · exact (Option.some.inj hnow).symm.le
    · exact absurd hs' (by simp)
  | lock =>
    simp only [Scheduling.step] at hs'
    split at hs'
    · next now maxDuration hentering =>
      obtain rfl := Option.some.inj hs'
      exact h.loop _ (h.reading now (by rw [hentering]; rfl))
    · next now deadline hrelocking =>
      obtain rfl := Option.some.inj hs'
      exact h.loop _ (h.reading now (by rw [hrelocking]; rfl))
    · exact absurd hs' (by simp)
  | taskEnds =>
    simp only [Scheduling.step] at hs'
    split at hs'
    · next hrunning =>
      obtain rfl := Option.some.inj hs'
      refine ⟨h.count, h.known, h.nodup, h.held, h.due, ?_, fun now hnow => ?_, h.stopped, h.covered⟩
      · rw [h.omits, hrunning]
        rfl
      · exact (Option.some.inj hnow).symm.le
    · exact absurd hs' (by simp)
  | stop =>
    -- the queue is emptied; what was taken stays known
    obtain rfl := Option.some.inj hs'
    refine ⟨nofun, fun t ht => ?_, ?_, nofun, h.due, h.omits, h.reading, fun _ => rfl,
      fun _ hne => absurd rfl hne⟩
    · refine h.known t (List.mem_append_left _ ?_)
      exact (List.append_nil s.taken) ▸ ht
    · refine List.Nodup.sublist (List.Sublist.map _ ?_) h.nodup
      exact List.Sublist.append_left (List.nil_sublist _) _

/-- The loop takes the first of the pending tasks, if it is due, and no other. -/
theorem Sound.loop_takes {s : Scheduling T} (h : s.Sound) (now deadline : Int)
    (hnow : now ≤ s.clock) :
    (s.loop now deadline).taken = s.taken ∨
      ∃ t, (s.loop now deadline).taken = s.taken ++ [t] ∧ t ∈ s.queue.tasks.items ∧
        (∀ t' ∈ s.queue.tasks.items, t' ≠ t → t.Earlier t') ∧ t.deadline ≤ s.clock ∧
        s.queue.stopped = false := by
  unfold Scheduling.loop
  cases hdue : s.queue.due? now deadline with
  -- nothing is taken
  | none => exact .inl rfl
  | some t =>
    -- it is the top, and no other task is earlier
    obtain ⟨htop, hle⟩ := TaskQueue.due?_eq_some hdue
    have hmem := Lib.PriorityQueue.mem_of_top? htop
    refine .inr ⟨t, rfl, hmem, fun t' ht' hne => ?_, le_trans hle hnow, ?_⟩
    · have hless := Lib.PriorityQueue.not_less_of_top? htop ht'
      rw [DeadlinedTask.less_iff] at hless
      -- two tasks do not have one number
      have horder : t.order ≠ t'.order := by
        intro heq
        have hknown := h.known t (List.mem_append_right _ hmem)
        rw [heq, h.known t' (List.mem_append_right _ ht')] at hknown
        exact hne (Option.some.inj hknown)
      unfold DeadlinedTask.Earlier at hless ⊢
      omega
    · cases hstopped : s.queue.stopped with
      | false => rfl
      | true => exact absurd hmem (by rw [h.stopped hstopped]; exact List.not_mem_nil)

theorem Sound.step_takes {s s' : Scheduling T} (h : s.Sound) (a : Action T)
    (hs' : s.step a = some s') :
    s'.taken = s.taken ∨
      ∃ t, s'.taken = s.taken ++ [t] ∧ t ∈ s.queue.tasks.items ∧
        (∀ t' ∈ s.queue.tasks.items, t' ≠ t → t.Earlier t') ∧ t.deadline ≤ s.clock ∧
        s.queue.stopped = false := by
  have hlock := h.loop_takes
  cases a with
  | lock =>
    simp only [Scheduling.step] at hs'
    split at hs'
    · next now maxDuration hentering =>
      obtain rfl := Option.some.inj hs'
      exact hlock now _ (h.reading now (by rw [hentering]; rfl))
    · next now deadline hrelocking =>
      obtain rfl := Option.some.inj hs'
      exact hlock now _ (h.reading now (by rw [hrelocking]; rfl))
    · exact absurd hs' (by simp)
  | tick ms => exact .inl (by obtain rfl := Option.some.inj hs'; rfl)
  | schedule task deferBy => exact .inl (by obtain rfl := Option.some.inj hs'; rfl)
  | stop => exact .inl (by obtain rfl := Option.some.inj hs'; rfl)
  | executeReady maxDuration =>
    simp only [Scheduling.step] at hs'
    split at hs'
    · exact .inl (by obtain rfl := Option.some.inj hs'; rfl)
    · exact absurd hs' (by simp)
  | taskEnds =>
    simp only [Scheduling.step] at hs'
    split at hs'
    · exact .inl (by obtain rfl := Option.some.inj hs'; rfl)
    · exact absurd hs' (by simp)

/-- Only `stop` stops the queue, and nothing starts it again. -/
theorem step_stopped {s s' : Scheduling T} (a : Action T) (hs' : s.step a = some s') :
    s'.queue.stopped = true ↔ s.queue.stopped = true ∨ a = .stop := by
  have hloop : ∀ now deadline, (s.loop now deadline).queue.stopped = s.queue.stopped := by
    intro now deadline
    unfold Scheduling.loop
    split
    · rfl
    · rfl
  cases a with
  | stop =>
    obtain rfl := Option.some.inj hs'
    exact iff_of_true rfl (.inr rfl)
  | schedule task deferBy =>
    obtain rfl := Option.some.inj hs'
    simp only [TaskQueue.schedule, reduceCtorEq, or_false]
    split
    · rfl
    · rfl
  | tick ms =>
    obtain rfl := Option.some.inj hs'
    simp
  | executeReady maxDuration =>
    simp only [Scheduling.step] at hs'
    split at hs'
    · obtain rfl := Option.some.inj hs'
      simp
    · exact absurd hs' (by simp)
  | lock =>
    simp only [Scheduling.step] at hs'
    split at hs'
    · obtain rfl := Option.some.inj hs'
      simp [hloop]
    · obtain rfl := Option.some.inj hs'
      simp [hloop]
    · exact absurd hs' (by simp)
  | taskEnds =>
    simp only [Scheduling.step] at hs'
    split at hs'
    · obtain rfl := Option.some.inj hs'
      simp
    · exact absurd hs' (by simp)

/-- **A queue is stopped** once `stop` was called. -/
theorem run_stopped : ∀ (actions : List (Action T)) {s s' : Scheduling T},
    Lib.run Scheduling.step s actions = some s' →
      (s'.queue.stopped = true ↔ s.queue.stopped = true ∨ Action.stop ∈ actions)
  | [], s, s', hrun => by
    obtain rfl := Option.some.inj hrun
    simp
  | a :: actions, s, s', hrun => by
    obtain ⟨s₁, hs₁, hrest⟩ := Lib.run_cons_eq_some.mp hrun
    rw [run_stopped actions hrest, step_stopped a hs₁, List.mem_cons, or_assoc, @eq_comm _ a]

/-! ## What becomes of the queue -/

/-- A task more: whoever sleeps for later is told, unless `execute_ready` is on. -/
structure Appended (u u' : Scheduling T) (t : DeadlinedTask T) : Prop where
  order : t.order = u.scheduled.length
  clock : u'.clock = u.clock
  executing : u'.executing = u.executing
  stopped : u'.queue.stopped = false
  taken : u'.taken = u.taken
  scheduled : u'.scheduled = u.scheduled ++ [t]
  items : ∀ t', t' ∈ u'.queue.tasks.items ↔ t' = t ∨ t' ∈ u.queue.tasks.items
  ready : u.queue.ready = true → u'.queue.ready = true
  told : u.queue.omitNotify = false →
    u'.queue.ready = true ∨ ∃ top ∈ u.queue.tasks.items, top.deadline ≤ t.deadline

theorem appended {u u' : Scheduling T} (hu : u.Sound) (hgoing : u.queue.stopped = false)
    {task : T} {deferBy : Int} (h : u.step (.schedule task deferBy) = some u') :
    Appended u u' ⟨task, u.clock + deferBy, u.queue.order⟩ := by
  have hnumber := hu.count hgoing
  simp only [Scheduling.step, TaskQueue.schedule, hgoing, Bool.false_eq_true, if_false,
    Option.some.injEq] at h
  subst h
  refine ⟨hnumber.symm, rfl, rfl, rfl, rfl, by rw [hnumber], fun t => Lib.PriorityQueue.mem_emplace,
    fun hready => by simp [hready], fun homit => ?_⟩
  cases htop : u.queue.tasks.top? with
  | none => simp [TaskQueue.first, htop, homit]
  | some top =>
    by_cases hfirst : u.clock + deferBy < top.deadline
    · simp [TaskQueue.first, htop, homit, hfirst]
    · exact .inr ⟨top, Lib.PriorityQueue.mem_of_top? htop, by dsimp only; omega⟩

/-- `execute_ready` with the lock: it is done, or takes the first task. -/
structure Looped (u u' : Scheduling T) : Prop where
  clock : u'.clock = u.clock
  stopped : u'.queue.stopped = u.queue.stopped
  scheduled : u'.scheduled = u.scheduled
  taken : (u'.taken = u.taken ∧ u'.queue.tasks.items = u.queue.tasks.items ∧ u'.executing = .idle) ∨
    ∃ t, u'.taken = u.taken ++ [t] ∧ u.queue.tasks.items = t :: u'.queue.tasks.items ∧
      (∃ deadline, u'.executing = .running deadline) ∧
      t.deadline ≤ u.clock ∧ ∀ t' ∈ u.queue.tasks.items, t' ≠ t → t.Earlier t'

theorem looped_loop {u : Scheduling T} (hu : u.Sound) {now : Int} (deadline : Int)
    (hnow : now ≤ u.clock) : Looped u (u.loop now deadline) := by
  have htakes := hu.loop_takes now deadline hnow
  unfold Scheduling.loop at htakes ⊢
  cases hdue : u.queue.due? now deadline with
  | none => exact ⟨rfl, rfl, rfl, .inl ⟨rfl, rfl, rfl⟩⟩
  | some t =>
    rw [hdue] at htakes
    refine ⟨rfl, rfl, rfl, .inr ⟨t, rfl, Lib.PriorityQueue.items_of_top? (TaskQueue.due?_eq_some hdue).1,
      ⟨deadline, rfl⟩, ?_⟩⟩
    rcases htakes with hnone | ⟨t', ht', -, hfirst, hle, -⟩
    · exact absurd hnone (by simp)
    · obtain rfl : t = t' := by simpa using ht'
      exact ⟨hle, hfirst⟩

theorem looped_lock {u u' : Scheduling T} (hu : u.Sound) (h : u.step .lock = some u') :
    Looped u u' := by
  simp only [Scheduling.step] at h
  split at h <;> cases h
  next now maxDuration hentering =>
    exact looped_loop hu _ (hu.reading now (by rw [hentering]; rfl))
  next now deadline hrelocking =>
    exact looped_loop hu _ (hu.reading now (by rw [hrelocking]; rfl))

/-! ## In the order of the deadlines -/

/-- What was taken comes before what the queue holds. -/
structure Ordered (s : Scheduling T) : Prop where
  taken : s.taken.Pairwise DeadlinedTask.Earlier
  before : ∀ t ∈ s.taken, ∀ t' ∈ s.queue.tasks.items, t.Earlier t'

theorem new_ordered (clock : Int) : (new clock : Scheduling T).Ordered where
  taken := .nil
  before := nofun

theorem Ordered.loop {s : Scheduling T} (h : s.Ordered) (hs : s.Sound) {now : Int} (deadline : Int)
    (hnow : now ≤ s.clock) : (s.loop now deadline).Ordered := by
  have htakes := hs.loop_takes now deadline hnow
  unfold Scheduling.loop at htakes ⊢
  cases hdue : s.queue.due? now deadline with
  | none => exact ⟨h.taken, h.before⟩
  | some t =>
    rw [hdue] at htakes
    rcases htakes with hnone | ⟨t', ht', hmem, hfirst, -⟩
    · exact absurd hnone (by simp)
    obtain rfl : t = t' := by simpa using ht'
    have hitems := Lib.PriorityQueue.items_of_top? (TaskQueue.due?_eq_some hdue).1
    refine ⟨List.pairwise_append.mpr ⟨h.taken, List.pairwise_singleton _ _, ?_⟩, ?_⟩
    · intro x hx y hy
      rw [List.mem_singleton.mp hy]
      exact h.before x hx t hmem
    · intro x hx y hy
      have hy' : y ∈ s.queue.tasks.items := by
        rw [hitems]
        exact List.mem_cons_of_mem _ hy
      rcases List.mem_append.mp hx with hx | hx
      · exact h.before x hx y hy'
      · -- it was the first, and there is one of it
        rw [List.mem_singleton.mp hx]
        refine hfirst y hy' fun heq => ?_
        have hnodup := hs.nodup
        rw [hitems, List.map_append, List.map_cons, List.nodup_append, List.nodup_cons] at hnodup
        exact hnodup.2.1.1 (heq ▸ List.mem_map_of_mem hy)

/-- What is scheduled for later, or for now, comes after what was due. -/
theorem Ordered.schedule {s s' : Scheduling T} (h : s.Ordered) (hs : s.Sound) {task : T} {deferBy : Int}
    (hdefers : 0 ≤ deferBy) (hs' : s.step (.schedule task deferBy) = some s') : s'.Ordered := by
  simp only [step, TaskQueue.schedule, Option.some.injEq] at hs'
  cases hstopped : s.queue.stopped with
  | true =>
    rw [hstopped, if_pos rfl] at hs'
    subst hs'
    exact ⟨h.taken, h.before⟩
  | false =>
    rw [hstopped, if_neg Bool.false_ne_true] at hs'
    subst hs'
    refine ⟨h.taken, fun t ht t' ht' => ?_⟩
    rcases Lib.PriorityQueue.mem_emplace.mp ht' with rfl | ht'
    · have hlt := (List.getElem?_eq_some_iff.mp (hs.known t (List.mem_append_left _ ht))).1
      have hdue := hs.due t ht
      have hnumber := hs.count hstopped
      unfold DeadlinedTask.Earlier
      dsimp only
      omega
    · exact h.before t ht t' ht'

theorem Ordered.step {s s' : Scheduling T} (h : s.Ordered) (hs : s.Sound) (a : Action T)
    (hdefers : a.defersForward = true) (hs' : s.step a = some s') : s'.Ordered := by
  cases a with
  | schedule task deferBy => exact h.schedule hs (of_decide_eq_true hdefers) hs'
  | tick ms =>
    obtain rfl := Option.some.inj hs'
    exact ⟨h.taken, h.before⟩
  | stop =>
    obtain rfl := Option.some.inj hs'
    exact ⟨h.taken, fun _ _ _ ht' => absurd ht' List.not_mem_nil⟩
  | lock =>
    simp only [Scheduling.step] at hs'
    split at hs'
    · next now maxDuration hentering =>
      obtain rfl := Option.some.inj hs'
      exact h.loop hs _ (hs.reading now (by rw [hentering]; rfl))
    · next now deadline hrelocking =>
      obtain rfl := Option.some.inj hs'
      exact h.loop hs _ (hs.reading now (by rw [hrelocking]; rfl))
    · cases hs'
  | executeReady maxDuration =>
    simp only [Scheduling.step] at hs'
    split at hs' <;> cases hs'
    exact ⟨h.taken, h.before⟩
  | taskEnds =>
    simp only [Scheduling.step] at hs'
    split at hs' <;> cases hs'
    exact ⟨h.taken, h.before⟩

/-- **Order and wake-ups.**  In every run: a step that takes a task takes the one that is first by
    deadline and by the order of scheduling among all that are pending (scheduled and not taken), when
    its deadline has come, and none is taken after a `stop`; what is taken was scheduled, and no task
    is taken twice; and until a `stop`, while no `execute_ready` is running, one of the wake-ups
    announced by the last one's result and by the calls to `schedule` after it covers the deadline of
    each task that is pending. -/
theorem task_queue_wakes (clock : Int) (actions : List (Action T)) (s : Scheduling T)
    (hrun : Lib.run Scheduling.step (new clock) actions = some s) :
    (∀ a s', s.step a = some s' → s'.taken = s.taken ∨
        Action.stop ∉ actions ∧ ∃ t, s'.taken = s.taken ++ [t] ∧ t ∈ s.pending ∧
          (∀ t' ∈ s.pending, t' ≠ t → t.Earlier t') ∧ t.deadline ≤ s.clock) ∧
      (∀ t ∈ s.taken, s.scheduled[t.order]? = some t) ∧ (s.taken.map DeadlinedTask.order).Nodup ∧
      (Action.stop ∉ actions → s.executing = .idle → s.pending ≠ [] →
        ∃ a ∈ s.announced, ∀ t ∈ s.pending, a.CoversBy t.deadline) := by
  have h : s.Sound := Lib.run_invariant (fun _ a _ hs hstep => Sound.step hs a hstep) actions
    (new clock) s (new_sound clock) hrun
  have hstopped : s.queue.stopped = true ↔ Action.stop ∈ actions := by
    rw [run_stopped actions hrun]
    exact or_iff_right Bool.false_ne_true
  refine ⟨fun a s' hs' => ?_, fun t ht => ?_, ?_, fun hstop hidle hpending => ?_⟩
  · rcases h.step_takes a hs' with hsame | ⟨t, htaken, ht, hfirst, hdue, hrunning⟩
    · exact .inl hsame
    · refine .inr ⟨fun hstop => ?_, t, htaken, (h.mem_pending hrunning).mpr ht, fun t' ht' => ?_, hdue⟩
      · exact absurd (hrunning.symm.trans (hstopped.mpr hstop)) (by simp)
      · exact hfirst t' ((h.mem_pending hrunning).mp ht')
  · exact h.known t (List.mem_append_left _ ht)
  · have hnodup := h.nodup
    rw [List.map_append] at hnodup
    exact hnodup.of_append_left
  · have hrunning : s.queue.stopped = false := eq_false_of_ne_true fun h => hstop (hstopped.mp h)
    obtain ⟨t, ht⟩ := List.exists_mem_of_ne_nil _ hpending
    obtain ⟨a, ha, hcovers⟩ := h.covered (by rw [h.omits, hidle]; rfl)
      (List.ne_nil_of_mem ((h.mem_pending hrunning).mp ht))
    exact ⟨a, ha, fun t ht => hcovers t ((h.mem_pending hrunning).mp ht)⟩

/-- A task that is scheduled while another one runs is silent, and is covered by the result. -/
def scheduledInside : List (Action Unit) :=
  [.schedule () 10, .tick 10, .executeReady 100, .lock, .schedule () 5, .tick 2, .taskEnds, .lock]

theorem task_queue_wakes_inside :
    ∃ s, Lib.run Scheduling.step (new 0) scheduledInside = some s ∧ s.announced = [⟨12, 3⟩] ∧
      s.pending = [⟨(), 15, 1⟩] ∧ ∃ a ∈ s.announced, ∀ t ∈ s.pending, a.CoversBy t.deadline := by
  refine ⟨_, rfl, by decide, by decide, ?_⟩
  exact (task_queue_wakes 0 scheduledInside _ rfl).2.2.2 (by simp [scheduledInside]) (by decide)
    (by decide)

end Scheduling

end MicroProfiler.Scheduler
