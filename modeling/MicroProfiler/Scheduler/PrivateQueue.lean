/-
  Private queues: `scheduler/private_queue.h`, `scheduler/src/private_queue.cpp`.

  1. **Worker queues** (`Queues`) — a `private_worker_queue` runs its tasks on a worker queue, with
     progress delivered to an apartment; all owners share the two queues.  Each owner has a
     `control_block` that outlives it and says whether it is alive.  The worker runs a task under
     the owner's mutex and the destructor takes that mutex, so a task that was started is over
     before its owner goes.  Progress is run WITHOUT the mutex: a destructor that another thread
     calls may come between the test of `alive` and the progress (`apartmentNext`, `apartmentRun`).

  2. **Specification** (`privateQueues_serve`) — per owner, in order, nothing lost, nothing twice
     (`Lib.Flow`), and after the destructor nothing at all but that one progress, which the
     apartment's own destructors do not let happen.

  3. **The crux (`Sound.running`)** — a task that is being executed belongs to an owner that is
     alive: the reference a `completion` keeps is never dangling.

  4. **Apartment queues** (`PrivateQueues`) — a `private_queue` runs deferred tasks on the apartment's
     `task_queue`, each under the owner's recursive mutex: in the order of their deadlines, and
     none after the destructor (`deferred_in_order`).
-/
import MicroProfiler.Lib.Flow
import MicroProfiler.Lib.Runs
import MicroProfiler.Scheduler.TaskQueue
import Mathlib.Logic.Function.Basic

namespace MicroProfiler.Scheduler

/-- An object that has a `control_block`: not made yet, `alive`, or destroyed.  It is made once, and
    destroyed once. -/
inductive Life
  | unborn
  | alive
  | dead
deriving DecidableEq, Repr

/-! ## Worker queues -/

/-- The two queues and the owners.  All is scheduled without a deferral: the queues are in order.  The
    last four say what happened: which tasks were scheduled and started, which progress was delivered
    and run. -/
structure Queues (ι τ π : Type) where
  /-- the flag of each `control_block` -/
  life : ι → Life
  /-- tasks wrapped for the worker, by owner -/
  worker : List (ι × τ)
  /-- the task the worker is executing, under its owner's mutex -/
  running : Option (ι × τ)
  /-- progress wrapped for the apartment -/
  apartment : List (ι × π)
  /-- the apartment found the owner alive, and the progress is the next that it runs -/
  passing : Option (ι × π)
  /-- from here on nothing is read by the code -/
  scheduled : List (ι × τ)
  started : List (ι × τ)
  delivered : List (ι × π)
  ran : List (ι × π)

inductive QueueEvent (ι τ π : Type)
  | create (i : ι)
  /-- `private_worker_queue::schedule` -/
  | schedule (i : ι) (task : τ)
  | workerNext
  /-- `completion::deliver`, by the task that is being executed -/
  | deliver (progress : π)
  | workerDone
  /-- the test of `alive` -/
  | apartmentNext
  /-- what follows it -/
  | apartmentRun
  /-- the destructor, called by the apartment or by another thread -/
  | destroy (i : ι) (byApartment : Bool)

namespace Queues

variable {ι τ π : Type}

/-- No owner was made. -/
def empty : Queues ι τ π := ⟨fun _ => .unborn, [], none, [], none, [], [], [], []⟩

/-- `private_worker_queue::deliver`: wrap and schedule. -/
def postTo (s : Queues ι τ π) (i : ι) (progress : π) : Queues ι τ π :=
  { s with apartment := s.apartment ++ [(i, progress)], delivered := s.delivered ++ [(i, progress)] }

variable [DecidableEq ι]

def step (s : Queues ι τ π) : QueueEvent ι τ π → Option (Queues ι τ π)
  | .create i =>
    if s.life i = .unborn then some { s with life := Function.update s.life i .alive } else none
  | .schedule i task =>
    if s.life i = .alive then
      some { s with worker := s.worker ++ [(i, task)], scheduled := s.scheduled ++ [(i, task)] }
    else none
  | .workerNext =>
    match s.running, s.worker with
    | none, (i, task) :: rest =>
      -- `if (cb->alive)`, with the mutex held to the end of the task
      if s.life i = .alive then
        some { s with worker := rest, running := some (i, task), started := s.started ++ [(i, task)] }
      else some { s with worker := rest }
    | _, _ => none
  | .deliver progress =>
    match s.running with
    | some (i, _) => some (s.postTo i progress)
    | none => none
  | .workerDone =>
    match s.running with
    | some _ => some { s with running := none }
    | none => none
  | .apartmentNext =>
    match s.passing, s.apartment with
    | none, (i, progress) :: rest =>
      -- no mutex is held
      if s.life i = .alive then some { s with apartment := rest, passing := some (i, progress) }
      else some { s with apartment := rest }
    | _, _ => none
  | .apartmentRun =>
    match s.passing with
    | some (i, progress) => some { s with passing := none, ran := s.ran ++ [(i, progress)] }
    | none => some s
  -- only who is alive is destroyed
  | .destroy i byApartment =>
    -- the destructor waits for the mutex; the apartment is not in the middle of something else
    if s.life i = .alive ∧ s.running.map Prod.fst ≠ some i ∧ (byApartment = true → s.passing = none) then
      some { s with life := Function.update s.life i .dead }
    else none

/-- Owners that are gone.  Tasks and progress of theirs may be dropped. -/
def Gone (s : Queues ι τ π) (i : ι) : Prop := s.life i = .dead

/-- The INVARIANT. -/
structure Sound (s : Queues ι τ π) : Prop where
  /-- the reference kept by a `completion` is good -/
  running : ∀ i task, s.running = some (i, task) → s.life i = .alive
  /-- started in order, per owner, until it goes -/
  tasks : Lib.Flow s.Gone s.scheduled s.started s.worker
  /-- run in order, per owner; what passes counts as run -/
  progress : Lib.Flow s.Gone s.delivered (s.ran ++ s.passing.toList) s.apartment
  /-- an owner not made yet has nothing in the queues -/
  unborn : ∀ i, s.life i = .unborn →
    (∀ task, (i, task) ∉ s.worker) ∧ ∀ progress, (i, progress) ∉ s.apartment

/-- Nothing was scheduled. -/
theorem sound_empty : (empty : Queues ι τ π).Sound where
  running _ _ h := by cases h
  tasks := Lib.Flow.nil
  progress := Lib.Flow.nil
  unborn _ _ := ⟨fun _ => List.not_mem_nil, fun _ => List.not_mem_nil⟩

/-- An owner with a task in the queue was made; if it is not alive it is gone. -/
theorem Sound.dead_of_worker {s : Queues ι τ π} (hs : s.Sound) {i : ι} {task : τ}
    (hmem : (i, task) ∈ s.worker) (halive : s.life i ≠ .alive) : s.Gone i := by
  cases hlife : s.life i with
  | unborn => exact absurd hmem ((hs.unborn i hlife).1 task)
  | alive => exact absurd hlife halive
  | dead => exact hlife

/-- The same, of progress. -/
theorem Sound.dead_of_apartment {s : Queues ι τ π} (hs : s.Sound) {i : ι} {progress : π}
    (hmem : (i, progress) ∈ s.apartment) (halive : s.life i ≠ .alive) : s.Gone i := by
  cases hlife : s.life i with
  | unborn => exact absurd hmem ((hs.unborn i hlife).2 progress)
  | alive => exact absurd hlife halive
  | dead => exact hlife

/-- **An owner is made**, with nothing in the queues. -/
theorem Sound.create {s : Queues ι τ π} (hs : s.Sound) {i : ι} (hi : s.life i = .unborn) :
    { s with life := Function.update s.life i .alive }.Sound := by
  have hlife : ∀ j, j ≠ i → Function.update s.life i .alive j = s.life j :=
    fun j hj => Function.update_of_ne hj _ _
  have hgone : ∀ j, s.Gone j → Function.update s.life i .alive j = .dead := by
    intro j hj
    rw [hlife j (fun heq => by rw [Gone, heq, hi] at hj; cases hj)]
    exact hj
  refine ⟨fun j task hrun => ?_, hs.tasks.close hgone, hs.progress.close hgone, fun j hj => ?_⟩
  · have halive := hs.running j task hrun
    have hne : j ≠ i := fun heq => by rw [heq, hi] at halive; cases halive
    exact (hlife j hne).trans halive
  · by_cases heq : j = i
    · rw [heq] at hj
      simp at hj
    · exact hs.unborn j ((hlife j heq).symm.trans hj)

/-- **An owner is destroyed**, and is not executing anything.  What it has in the queues stays
    there, to be dropped. -/
theorem Sound.destroy {s : Queues ι τ π} (hs : s.Sound) {i : ι}
    (hfree : s.running.map Prod.fst ≠ some i) :
    { s with life := Function.update s.life i .dead }.Sound := by
  have hgone : ∀ j, s.Gone j → Function.update s.life i .dead j = .dead := by
    intro j hj
    by_cases heq : j = i
    · rw [heq, Function.update_self]
    · rw [Function.update_of_ne heq]
      exact hj
  refine ⟨fun j task hrun => ?_, hs.tasks.close hgone, hs.progress.close hgone, fun j hj => ?_⟩
  · have hne : j ≠ i := by
      rintro rfl
      exact hfree (by rw [show s.running = some (j, task) from hrun]; rfl)
    exact (Function.update_of_ne hne _ _).trans (hs.running j task hrun)
  · by_cases heq : j = i
    · rw [heq] at hj
      simp at hj
    · exact hs.unborn j ((Function.update_of_ne heq _ _).symm.trans hj)

/-- **Progress is delivered** by a task, whose owner is alive. -/
theorem Sound.postTo {s : Queues ι τ π} (hs : s.Sound) {i : ι} (hi : s.life i = .alive)
    (progress : π) : (s.postTo i progress).Sound := by
  refine ⟨hs.running, hs.tasks, hs.progress.send (i, progress), fun j hj => ?_⟩
  obtain ⟨hworker, hapartment⟩ := hs.unborn j hj
  refine ⟨hworker, fun p hp => ?_⟩
  rcases List.mem_append.1 hp with hp | hp
  · exact hapartment p hp
  · rw [List.mem_singleton, Prod.mk.injEq] at hp
    rw [hp.1] at hj
    exact absurd (hj.symm.trans hi) (by decide)

/-- **A task is scheduled** by an owner that is alive. -/
theorem Sound.schedule {s : Queues ι τ π} (hs : s.Sound) {i : ι} (hi : s.life i = .alive)
    (task : τ) :
    { s with worker := s.worker ++ [(i, task)],
             scheduled := s.scheduled ++ [(i, task)] }.Sound := by
  refine ⟨hs.running, hs.tasks.send (i, task), hs.progress, fun j hj => ?_⟩
  obtain ⟨hworker, hapartment⟩ := hs.unborn j hj
  refine ⟨fun t ht => ?_, hapartment⟩
  rcases List.mem_append.1 ht with ht | ht
  · exact hworker t ht
  · rw [List.mem_singleton, Prod.mk.injEq] at ht
    rw [ht.1] at hj
    exact absurd (hj.symm.trans hi) (by decide)

/-- The worker takes the front of its queue: it starts the task, or drops it if the owner is gone.
    -/
theorem Sound.workerNext {s s' : Queues ι τ π} (hs : s.Sound)
    (hstep : s.step .workerNext = some s') : s'.Sound := by
  simp only [step] at hstep
  split at hstep
  case h_2 => cases hstep
  next i task rest hrunning hworker =>
  have hmem : (i, task) ∈ s.worker := by rw [hworker]; exact List.mem_cons_self
  have htasks := hs.tasks
  rw [hworker] at htasks
  have hunborn : ∀ j, s.life j = .unborn →
      (∀ t, (j, t) ∉ rest) ∧ ∀ progress, (j, progress) ∉ s.apartment := by
    intro j hj
    obtain ⟨hw, ha⟩ := hs.unborn j hj
    exact ⟨fun t ht => hw t (by rw [hworker]; exact List.mem_cons_of_mem _ ht), ha⟩
  split at hstep
  · -- alive: the task is being executed from now on
    next halive =>
    cases hstep
    refine ⟨fun j t hrun => ?_, htasks.take (fun hgone => ?_), hs.progress, hunborn⟩
    · cases hrun
      exact halive
    · exact absurd (halive.symm.trans hgone) (by decide)
  · -- gone: nobody misses the task
    next hdead =>
    cases hstep
    refine ⟨fun j t hrun => ?_, htasks.drop (hs.dead_of_worker hmem hdead), hs.progress, hunborn⟩
    rw [hrunning] at hrun
    cases hrun

/-- The apartment takes the front of its queue.  Progress that is found to be of somebody alive will
    be run, whatever comes before. -/
theorem Sound.apartmentNext {s s' : Queues ι τ π} (hs : s.Sound)
    (hstep : s.step .apartmentNext = some s') : s'.Sound := by
  simp only [step] at hstep
  split at hstep
  case h_2 => cases hstep
  next i progress rest hpassing hapartment =>
  have hmem : (i, progress) ∈ s.apartment := by rw [hapartment]; exact List.mem_cons_self
  have hprogress := hs.progress
  rw [hapartment, hpassing, Option.toList_none, List.append_nil] at hprogress
  have hunborn : ∀ j, s.life j = .unborn →
      (∀ t, (j, t) ∉ s.worker) ∧ ∀ p, (j, p) ∉ rest := by
    intro j hj
    obtain ⟨hw, ha⟩ := hs.unborn j hj
    exact ⟨hw, fun p hp => ha p (by rw [hapartment]; exact List.mem_cons_of_mem _ hp)⟩
  split at hstep
  · -- alive: it counts as run
    next halive =>
    cases hstep
    refine ⟨hs.running, hs.tasks, hprogress.take (fun hgone => ?_), hunborn⟩
    exact absurd (halive.symm.trans hgone) (by decide)
  · -- gone: nobody misses it
    next hdead =>
    cases hstep
    refine ⟨hs.running, hs.tasks, ?_, hunborn⟩
    dsimp only
    rw [hpassing, Option.toList_none, List.append_nil]
    exact hprogress.drop (hs.dead_of_apartment hmem hdead)

/-- The apartment runs what it found alive: it counted as run already. -/
theorem Sound.apartmentRun {s s' : Queues ι τ π} (hs : s.Sound)
    (hstep : s.step .apartmentRun = some s') : s'.Sound := by
  simp only [step] at hstep
  split at hstep <;> cases hstep
  · next i progress hpassing =>
    refine ⟨hs.running, hs.tasks, ?_, hs.unborn⟩
    have hprogress := hs.progress
    rw [hpassing] at hprogress
    dsimp only
    rw [Option.toList_none, List.append_nil]
    exact hprogress
  · exact hs

/-- **Any event.** -/
theorem Sound.step {s s' : Queues ι τ π} (hs : s.Sound) (e : QueueEvent ι τ π)
    (hstep : s.step e = some s') : s'.Sound := by
  cases e with
  | create i =>
    simp only [Queues.step] at hstep
    split at hstep <;> cases hstep
    exact hs.create ‹_›
  | schedule i task =>
    simp only [Queues.step] at hstep
    split at hstep <;> cases hstep
    exact hs.schedule ‹_› task
  | workerNext => exact hs.workerNext hstep
  | deliver progress =>
    -- a task is being executed, so its owner is alive
    simp only [Queues.step] at hstep
    split at hstep <;> cases hstep
    exact hs.postTo (hs.running _ _ ‹_›) progress
  | workerDone =>
    simp only [Queues.step] at hstep
    split at hstep <;> cases hstep
    exact ⟨fun _ _ h => (by cases h), hs.tasks, hs.progress, hs.unborn⟩
  | apartmentNext => exact hs.apartmentNext hstep
  | apartmentRun => exact hs.apartmentRun hstep
  | destroy i byApartment =>
    simp only [Queues.step] at hstep
    split at hstep <;> cases hstep
    next h => exact hs.destroy h.2.1

/-! ## After the destructor -/

/-- The progress that was run, and the one that is to be run next whatever happens.  This is what a
    destructor leaves as it is. -/
def committed (s : Queues ι τ π) : List (ι × π) := s.ran ++ s.passing.toList

/-- What an owner can still see of itself: nothing changes any more. -/
structure Silent (s s' : Queues ι τ π) (i : ι) : Prop where
  gone : s'.Gone i
  started : Lib.ofParty i s'.started = Lib.ofParty i s.started
  delivered : Lib.ofParty i s'.delivered = Lib.ofParty i s.delivered
  committed : Lib.ofParty i s'.committed = Lib.ofParty i s.committed

omit [DecidableEq ι] in
/-- Who is alive is somebody else. -/
theorem ne_of_alive_of_gone {s : Queues ι τ π} {i j : ι} (hj : s.life j = .alive) (hi : s.Gone i) :
    j ≠ i := by
  rintro rfl
  exact absurd (hj.symm.trans hi) (by decide)

/-- One step does nothing for an owner that is gone: whatever is done is done for somebody who is
    alive. -/
theorem Sound.silent {s s' : Queues ι τ π} (hs : s.Sound) {i : ι} (hi : s.Gone i)
    (e : QueueEvent ι τ π) (hstep : s.step e = some s') : Silent s s' i := by
  cases e with
  | create j =>
    simp only [Queues.step] at hstep
    split at hstep <;> cases hstep
    next hj =>
    have hne : i ≠ j := by
      rintro rfl
      exact absurd (hj.symm.trans hi) (by decide)
    exact ⟨(Function.update_of_ne hne _ _).trans hi, rfl, rfl, rfl⟩
  | schedule j task =>
    simp only [Queues.step] at hstep
    split at hstep <;> cases hstep
    exact ⟨hi, rfl, rfl, rfl⟩
  | workerNext =>
    simp only [Queues.step] at hstep
    split at hstep
    case h_2 => cases hstep
    split at hstep <;> cases hstep
    · next hj => exact ⟨hi, Lib.ofParty_append_other (ne_of_alive_of_gone hj hi) _ _, rfl, rfl⟩
    · exact ⟨hi, rfl, rfl, rfl⟩
  | deliver progress =>
    -- the task that delivers is of somebody alive
    simp only [Queues.step] at hstep
    split at hstep <;> cases hstep
    next j task hrunning =>
    have hne := ne_of_alive_of_gone (hs.running j task hrunning) hi
    exact ⟨hi, rfl, Lib.ofParty_append_other hne _ _, rfl⟩
  | workerDone =>
    simp only [Queues.step] at hstep
    split at hstep <;> cases hstep
    exact ⟨hi, rfl, rfl, rfl⟩
  | apartmentNext =>
    simp only [Queues.step] at hstep
    split at hstep
    case h_2 => cases hstep
    next j progress rest hpassing hapartment =>
    split at hstep <;> cases hstep
    · next hj =>
      refine ⟨hi, rfl, rfl, ?_⟩
      unfold Queues.committed
      rw [hpassing, Option.toList_none, List.append_nil]
      exact Lib.ofParty_append_other (ne_of_alive_of_gone hj hi) _ _
    · -- what passes was committed before
      exact ⟨hi, rfl, rfl, rfl⟩
  | apartmentRun =>
    simp only [Queues.step] at hstep
    split at hstep <;> cases hstep
    · next j progress hpassing =>
      refine ⟨hi, rfl, rfl, ?_⟩
      unfold Queues.committed
      rw [hpassing, Option.toList_none, List.append_nil]
      rfl
    · exact ⟨hi, rfl, rfl, rfl⟩
  | destroy j byApartment =>
    simp only [Queues.step] at hstep
    split at hstep <;> cases hstep
    refine ⟨?_, rfl, rfl, rfl⟩
    by_cases heq : i = j
    · rw [Gone, heq]
      exact Function.update_self ..
    · exact (Function.update_of_ne heq _ _).trans hi

/-- **Any run.** -/
theorem sound_of_run {es : List (QueueEvent ι τ π)} {s : Queues ι τ π}
    (hrun : Lib.run step empty es = some s) : s.Sound :=
  Lib.run_invariant (fun _ e _ hs hstep => hs.step e hstep) es empty s sound_empty hrun

/-- **From the destructor on**, in any run. -/
theorem silent_of_run {s : Queues ι τ π} (hs : s.Sound) {i : ι} (hi : s.Gone i)
    {es : List (QueueEvent ι τ π)} {s' : Queues ι τ π} (hrun : Lib.run step s es = some s') :
    Silent s s' i := by
  refine (Lib.run_invariant (P := fun t => t.Sound ∧ Silent s t i) ?_ es s s'
    ⟨hs, hi, rfl, rfl, rfl⟩ hrun).2
  rintro t e t' ⟨ht, hsilent⟩ hstep
  have hnext := ht.silent hsilent.gone e hstep
  exact ⟨ht.step e hstep, hnext.gone, hnext.started.trans hsilent.started,
    hnext.delivered.trans hsilent.delivered, hnext.committed.trans hsilent.committed⟩

/-- What is committed and was not run is what passes. -/
theorem ran_cases {s s' : Queues ι τ π} {i : ι}
    (h : Lib.ofParty i s'.committed = Lib.ofParty i s.committed)
    (hle : Lib.ofParty i s.ran <+: Lib.ofParty i s'.ran) :
    Lib.ofParty i s'.ran = Lib.ofParty i s.ran ∨
      ∃ progress, s.passing = some (i, progress) ∧
        Lib.ofParty i s'.ran = Lib.ofParty i s.ran ++ [progress] := by
  obtain ⟨more, hmore⟩ := hle
  unfold committed at h
  rw [Lib.ofParty_append, Lib.ofParty_append, ← hmore, List.append_assoc,
    List.append_cancel_left_eq] at h
  rw [← hmore]
  cases hpassing : s.passing with
  | none =>
    -- nothing was passing: what is committed was run
    rw [hpassing, Option.toList_none, Lib.ofParty_nil, List.append_eq_nil_iff] at h
    exact .inl (by rw [h.1, List.append_nil])
  | some e =>
    -- one was, and it may have been run since
    obtain ⟨j, progress⟩ := e
    rw [hpassing, Option.toList_some] at h
    by_cases heq : j = i
    · subst heq
      rw [Lib.ofParty_cons_self, Lib.ofParty_nil, List.append_eq_singleton_iff] at h
      rcases h with ⟨hmore, _⟩ | ⟨hmore, _⟩
      · exact .inl (by rw [hmore, List.append_nil])
      · exact .inr ⟨progress, rfl, by rw [hmore]⟩
    · rw [Lib.ofParty_cons_ne heq, Lib.ofParty_nil, List.append_eq_nil_iff] at h
      exact .inl (by rw [h.1, List.append_nil])

/-- What was run stays so. -/
theorem step_ran {s s' : Queues ι τ π} (e : QueueEvent ι τ π) (hstep : s.step e = some s') :
    s.ran <+: s'.ran := by
  cases e with
  | apartmentRun =>
    simp only [step] at hstep
    split at hstep <;> cases hstep
    · exact List.prefix_append _ _
    · exact List.prefix_refl _
  | workerNext =>
    simp only [step] at hstep
    split at hstep
    case h_2 => cases hstep
    split at hstep <;> cases hstep <;> exact List.prefix_refl _
  | apartmentNext =>
    simp only [step] at hstep
    split at hstep
    case h_2 => cases hstep
    split at hstep <;> cases hstep <;> exact List.prefix_refl _
  | _ =>
    simp only [step] at hstep
    split at hstep <;> cases hstep
    exact List.prefix_refl _

/-- The same, over a run. -/
theorem ran_of_run {s s' : Queues ι τ π} {es : List (QueueEvent ι τ π)}
    (hrun : Lib.run step s es = some s') (i : ι) : Lib.ofParty i s.ran <+: Lib.ofParty i s'.ran := by
  have hprefix : s.ran <+: s'.ran := Lib.run_invariant (P := fun t => s.ran <+: t.ran)
    (fun _ e _ ht hstep => ht.trans (step_ran e hstep)) es s s' (List.prefix_refl _) hrun
  obtain ⟨more, hmore⟩ := hprefix
  rw [← hmore, Lib.ofParty_append]
  exact List.prefix_append _ _

/-- In ANY order of calls, workers, deliveries and destructors: a task is executed only while its owner
    is alive; while an owner is alive its tasks were started, and its progress run, in the order they
    were given and once each, the rest being queued; from the destructor on nothing of it is started
    or delivered, and nothing is run but a progress for which the apartment had found the owner alive
    before; and when the apartment itself called the destructor, nothing is run. -/
theorem privateQueues_serve {es es' : List (QueueEvent ι τ π)} {s s' : Queues ι τ π}
    (hrun : Lib.run step empty es = some s) (hrun' : Lib.run step s es' = some s') (i : ι) :
    (∀ task, s.running = some (i, task) → s.life i = .alive) ∧
    (s.life i = .alive →
      Lib.ofParty i s.scheduled = Lib.ofParty i s.started ++ Lib.ofParty i s.worker ∧
      Lib.ofParty i s.delivered = Lib.ofParty i s.committed ++ Lib.ofParty i s.apartment) ∧
    (s.life i = .dead →
      s'.life i = .dead ∧
      Lib.ofParty i s'.started = Lib.ofParty i s.started ∧
      Lib.ofParty i s'.delivered = Lib.ofParty i s.delivered ∧
      (Lib.ofParty i s'.ran = Lib.ofParty i s.ran ∨
        ∃ progress, s.passing = some (i, progress) ∧
          Lib.ofParty i s'.ran = Lib.ofParty i s.ran ++ [progress]) ∧
      Lib.ofParty i s.started <+: Lib.ofParty i s.scheduled ∧
      Lib.ofParty i s.committed <+: Lib.ofParty i s.delivered) ∧
    ∀ s₁, s.step (.destroy i true) = some s₁ → ∀ es₁ s₂, Lib.run step s₁ es₁ = some s₂ →
      Lib.ofParty i s₂.ran = Lib.ofParty i s.ran := by
  have hs := sound_of_run hrun
  refine ⟨hs.running i, fun halive => ?_, fun hgone => ?_, fun s₁ hdestroy es₁ s₂ hrun₁ => ?_⟩
  · have hopen : ¬ s.Gone i := fun hgone => absurd (halive.symm.trans hgone) (by decide)
    exact ⟨hs.tasks.opened i hopen, hs.progress.opened i hopen⟩
  · have hsilent := silent_of_run hs hgone hrun'
    exact ⟨hsilent.gone, hsilent.started, hsilent.delivered,
      ran_cases hsilent.committed (ran_of_run hrun' i), hs.tasks.isPrefix i, hs.progress.isPrefix i⟩
  · have hs₁ := hs.step _ hdestroy
    simp only [step] at hdestroy
    split at hdestroy <;> cases hdestroy
    next h =>
    have hsilent := silent_of_run hs₁ (Function.update_self ..) hrun₁
    rcases ran_cases hsilent.committed (ran_of_run hrun₁ i) with hsame | ⟨_, hpassing, _⟩
    · exact hsame
    · cases (h.2.2 trivial).symm.trans hpassing

/-- An owner destroyed by another thread, with a task started, progress delivered and more of both
    queued, while the apartment is about to run the first of it. -/
def destroyedMidway : List (QueueEvent Nat Char Char) :=
  [.create 0, .create 1, .schedule 0 'a', .schedule 0 'b', .schedule 1 'c', .workerNext,
    .deliver 'x', .deliver 'y', .apartmentNext, .workerDone, .destroy 0 false]

def servedAfter : List (QueueEvent Nat Char Char) :=
  [.workerNext, .workerNext, .deliver 'z', .apartmentRun, .apartmentNext, .apartmentNext, .apartmentRun]

theorem privateQueues_serve_destroyed :
    ∃ s s', Lib.run step empty destroyedMidway = some s ∧ Lib.run step s servedAfter = some s' ∧
      s.life 0 = .dead ∧ s.ran = [] ∧ s'.ran = [(0, 'x'), (1, 'z')] ∧
      Lib.ofParty 0 s'.started = Lib.ofParty 0 s.started := by
  refine ⟨_, _, rfl, rfl, rfl, rfl, rfl, ?_⟩
  exact ((privateQueues_serve (rfl : Lib.run step empty destroyedMidway = _)
    (rfl : Lib.run step _ servedAfter = _) 0).2.2.1 rfl).2.1

end Queues

/-! ## Apartment queues -/

/-- The apartment's `task_queue` and the owners of the tasks wrapped for it. -/
structure PrivateQueues (ι π : Type) where
  /-- the flag of each `control_block` -/
  life : ι → Life
  apartment : Scheduling (ι × π)
  /-- the wrapped task that runs has made its test -/
  entered : Bool
  /-- the owner whose mutex the apartment holds -/
  holding : Option ι
  /-- the wrapped tasks that made their test, and those whose task was run -/
  attended : List (DeadlinedTask (ι × π))
  ran : List (DeadlinedTask (ι × π))

inductive PrivateEvent (ι π : Type)
  | create (i : ι)
  /-- `private_queue::schedule` -/
  | schedule (i : ι) (task : π) (deferBy : Int)
  | tick (ms : Nat)
  | executeReady (maxDuration : Int)
  /-- `execute_ready` takes its lock -/
  | lock
  /-- the wrapped task takes the mutex of its owner, and tests `alive` -/
  | enter
  /-- the wrapped task returns, and gives the mutex back -/
  | taskEnds
  /-- the destructor, called by the apartment or by another thread -/
  | destroy (i : ι) (byApartment : Bool)

namespace PrivateQueues

variable {ι π : Type}

/-- No owner was made; the apartment's clock runs. -/
def new (clock : Int) : PrivateQueues ι π := ⟨fun _ => .unborn, .new clock, false, none, [], []⟩

/-- Something happens to the apartment's queue. -/
def perform (s : PrivateQueues ι π) (a : Action (ι × π)) : Option (PrivateQueues ι π) :=
  (s.apartment.step a).map fun apartment => { s with apartment }

/-- An event of the apartment's queue changes nothing else. -/
theorem of_perform {s s' : PrivateQueues ι π} {a : Action (ι × π)} (h : s.perform a = some s') :
    ∃ u, s.apartment.step a = some u ∧ { s with apartment := u } = s' :=
  Option.map_eq_some_iff.mp h

/-- The wrapped task that the apartment runs. -/
def current (s : PrivateQueues ι π) : Option (DeadlinedTask (ι × π)) :=
  match s.apartment.executing with
  | .running _ => s.apartment.taken.getLast?
  | _ => none

variable [DecidableEq ι]

def step (s : PrivateQueues ι π) : PrivateEvent ι π → Option (PrivateQueues ι π)
  | .create i =>
    if s.life i = .unborn then some { s with life := Function.update s.life i .alive } else none
  | .schedule i task deferBy =>
    if s.life i = .alive then s.perform (.schedule (i, task) deferBy) else none
  | .tick ms => s.perform (.tick ms)
  | .executeReady maxDuration => s.perform (.executeReady maxDuration)
  | .lock => s.perform .lock
  -- the wrapped task makes its test once
  | .enter =>
    match s.current with
    | some t =>
      if s.entered then none
      else if s.life t.task.1 = .alive then
        some { s with entered := true, holding := some t.task.1, attended := s.attended ++ [t],
                      ran := s.ran ++ [t] }
      else some { s with entered := true, attended := s.attended ++ [t] }
    | none => none
  | .taskEnds => if s.entered then { s with entered := false, holding := none }.perform .taskEnds else none
  | .destroy i byApartment =>
    -- the mutex is recursive: the apartment does not wait for itself
    if s.life i = .alive ∧ (s.holding = some i → byApartment = true) then
      some { s with life := Function.update s.life i .dead }
    else none

/-- Nothing is deferred by a negative time. -/
def defersForward : PrivateEvent ι π → Bool
  | .schedule _ _ deferBy => 0 ≤ deferBy
  | _ => true

/-- The wrapped task that was taken and has not made its test.  It is there from the lock to the
    test. -/
def waiting (s : PrivateQueues ι π) : List (DeadlinedTask (ι × π)) :=
  if s.entered then [] else s.current.toList

/-- The INVARIANT. -/
structure Sound (s : PrivateQueues ι π) : Prop where
  /-- what the apartment's queue keeps by itself -/
  apartment : s.apartment.Sound
  /-- it is not stopped while it is in use -/
  going : s.apartment.queue.stopped = false
  /-- a test is made by the task that runs -/
  entered : s.entered = true → s.current.isSome = true
  /-- every task taken has made its test, or is the one that runs -/
  split : s.apartment.taken = s.attended ++ s.waiting
  /-- nobody schedules before he is made -/
  born : ∀ t ∈ s.apartment.scheduled, s.life t.task.1 ≠ .unborn
  /-- only who made the test is let through -/
  ran : s.ran.Sublist s.attended
  /-- a task whose owner is alive was let through -/
  through : ∀ t ∈ s.attended, s.life t.task.1 = .alive → t ∈ s.ran

omit [DecidableEq ι] in
/-- Nothing was scheduled. -/
theorem new_sound (clock : Int) : (new clock : PrivateQueues ι π).Sound where
  apartment := Scheduling.new_sound clock
  going := rfl
  entered h := by cases h
  split := rfl
  born := nofun
  ran := .slnil
  through := nofun

omit [DecidableEq ι] in
/-- A task that was taken was scheduled. -/
theorem Sound.taken_scheduled {s : PrivateQueues ι π} (hs : s.Sound) {t : DeadlinedTask (ι × π)}
    (ht : t ∈ s.attended ++ s.waiting) : t ∈ s.apartment.scheduled :=
  List.mem_of_getElem? (hs.apartment.known t (List.mem_append_left _ (hs.split ▸ ht)))

omit [DecidableEq ι] in
/-- The queue changes, and the task that runs is the same. -/
theorem Sound.keep {s : PrivateQueues ι π} (hs : s.Sound) {u : Scheduling (ι × π)} (hu : u.Sound)
    (hgoing : u.queue.stopped = false) (htaken : u.taken = s.apartment.taken)
    (hcurrent : ({ s with apartment := u } : PrivateQueues ι π).current = s.current)
    (hborn : ∀ t ∈ u.scheduled, s.life t.task.1 ≠ .unborn) :
    Sound { s with apartment := u } where
  apartment := hu
  going := hgoing
  entered h := hcurrent ▸ hs.entered h
  split := by
    unfold waiting
    rw [hcurrent]
    exact htaken.trans hs.split
  born := hborn
  ran := hs.ran
  through := hs.through

omit [DecidableEq ι] in
/-- Owners are made and go.  Who is alive after it was alive before, so he was let through. -/
theorem Sound.aged {s : PrivateQueues ι π} (hs : s.Sound) {life : ι → Life}
    (hlife : ∀ j, s.life j ≠ .unborn → life j ≠ .unborn ∧ (life j = .alive → s.life j = .alive)) :
    Sound { s with life } where
  apartment := hs.apartment
  going := hs.going
  entered := hs.entered
  split := hs.split
  born t ht := (hlife _ (hs.born t ht)).1
  ran := hs.ran
  through t ht halive := hs.through t ht
    ((hlife _ (hs.born t (hs.taken_scheduled (List.mem_append_left _ ht)))).2 halive)

omit [DecidableEq ι] in
/-- `execute_ready` takes the next task, or returns.  No task runs before the lock, so that the next
    is the only one without its test. -/
theorem Sound.lock {s : PrivateQueues ι π} (hs : s.Sound) {u : Scheduling (ι × π)}
    (hstep : s.apartment.step .lock = some u) : Sound { s with apartment := u } := by
  have hl := Scheduling.looped_lock hs.apartment hstep
  have hnone : s.current = none := by
    simp only [Scheduling.step] at hstep
    unfold current
    split at hstep
    · next hentering => rw [hentering]
    · next hrelocking => rw [hrelocking]
    · cases hstep
  have hentered : s.entered = false := by
    cases hentered : s.entered with
    | false => rfl
    | true =>
      have hsome := hs.entered hentered
      rw [hnone] at hsome
      cases hsome
  have hsplit : s.apartment.taken = s.attended := by
    rw [hs.split, waiting, hnone, hentered]
    exact List.append_nil _
  refine ⟨hs.apartment.step _ hstep, hl.stopped.trans hs.going, fun h => ?_, ?_, hl.scheduled ▸ hs.born,
    hs.ran, hs.through⟩
  · exact absurd (hentered.symm.trans h) (by decide)
  · unfold waiting current
    dsimp only
    rw [hentered, if_neg Bool.false_ne_true]
    rcases hl.taken with ⟨htaken, -, hidle⟩ | ⟨t, htaken, -, ⟨deadline, hrunning⟩, -⟩
    · rw [hidle, htaken, hsplit]
      exact (List.append_nil _).symm
    · rw [hrunning, htaken, hsplit]
      simp

/-- **Any event.** -/
theorem Sound.step {s s' : PrivateQueues ι π} (hs : s.Sound) (e : PrivateEvent ι π)
    (hstep : s.step e = some s') : s'.Sound := by
  cases e with
  | create i =>
    simp only [PrivateQueues.step] at hstep
    split at hstep <;> cases hstep
    next hi =>
    refine hs.aged fun j hj => ?_
    have hne : j ≠ i := fun heq => hj (heq ▸ hi)
    rw [Function.update_of_ne hne]
    exact ⟨hj, id⟩
  | schedule i task deferBy =>
    -- one more is pending, of somebody who was made
    simp only [PrivateQueues.step] at hstep
    split at hstep
    · next hi =>
      obtain ⟨u, hu, rfl⟩ := of_perform hstep
      have ha := Scheduling.appended hs.apartment hs.going hu
      refine hs.keep (hs.apartment.step _ hu) ha.stopped ha.taken ?_ fun t ht => ?_
      · unfold current
        rw [ha.executing, ha.taken]
      · rw [ha.scheduled] at ht
        rcases List.mem_append.mp ht with ht | ht
        · exact hs.born t ht
        · rw [List.mem_singleton.mp ht]
          exact fun h => absurd (hi.symm.trans h) (by decide)
    · cases hstep
  | tick ms =>
    obtain ⟨u, hu, rfl⟩ := of_perform hstep
    have hsound := hs.apartment.step _ hu
    cases hu
    exact hs.keep hsound hs.going rfl rfl hs.born
  | executeReady maxDuration =>
    obtain ⟨u, hu, rfl⟩ := of_perform hstep
    have hsound := hs.apartment.step _ hu
    simp only [Scheduling.step] at hu
    split at hu <;> cases hu
    next hidle =>
    refine hs.keep hsound hs.going rfl ?_ hs.born
    unfold current
    rw [hidle]
  | lock =>
    obtain ⟨u, hu, rfl⟩ := of_perform hstep
    exact hs.lock hu
  | enter =>
    -- the test: who is alive is let through, who is gone is not
    simp only [PrivateQueues.step] at hstep
    split at hstep
    case h_2 => cases hstep
    next t hcurrent =>
    split at hstep
    · cases hstep
    next hentered =>
    have hsplit := hs.split
    rw [waiting, if_neg hentered, hcurrent, Option.toList_some] at hsplit
    have hsome : s.current.isSome = true := by rw [hcurrent]; rfl
    have hlast : s.apartment.taken = s.attended ++ [t] ++ [] := hsplit.trans (List.append_nil _).symm
    split at hstep <;> cases hstep
    · refine ⟨hs.apartment, hs.going, fun _ => hsome, hlast, hs.born, hs.ran.append (.refl [t]),
        fun t' ht' halive => ?_⟩
      rcases List.mem_append.mp ht' with ht' | ht'
      · exact List.mem_append_left _ (hs.through t' ht' halive)
      · exact List.mem_append_right _ ht'
    · next hdead =>
      refine ⟨hs.apartment, hs.going, fun _ => hsome, hlast, hs.born,
        hs.ran.trans (List.sublist_append_left _ _), fun t' ht' halive => ?_⟩
      rcases List.mem_append.mp ht' with ht' | ht'
      · exact hs.through t' ht' halive
      · rw [List.mem_singleton.mp ht'] at halive
        exact absurd halive hdead
  | taskEnds =>
    -- the task that ends has made its test
    simp only [PrivateQueues.step] at hstep
    split at hstep
    · next hentered =>
      obtain ⟨u, hu, rfl⟩ := of_perform hstep
      have hsound := hs.apartment.step _ hu
      simp only [Scheduling.step] at hu
      split at hu <;> cases hu
      have hsplit := hs.split
      rw [waiting, if_pos hentered] at hsplit
      exact ⟨hsound, hs.going, fun h => (by cases h), hsplit, hs.born, hs.ran, hs.through⟩
    · cases hstep
  | destroy i byApartment =>
    simp only [PrivateQueues.step] at hstep
    split at hstep <;> cases hstep
    refine hs.aged fun j hj => ?_
    by_cases heq : j = i
    · rw [heq, Function.update_self]
      exact ⟨by decide, fun h => by cases h⟩
    · rw [Function.update_of_ne heq]
      exact ⟨hj, id⟩

/-- The queue of the apartment is in order: only a call with a negative deferral could disturb it.
    -/
theorem ordered_step {s s' : PrivateQueues ι π} (h : s.apartment.Ordered) (hs : s.Sound)
    (e : PrivateEvent ι π) (hdefers : defersForward e = true) (hstep : s.step e = some s') :
    s'.apartment.Ordered := by
  have hperform : ∀ {r : PrivateQueues ι π} {a : Action (ι × π)}, r.perform a = some s' →
      r.apartment = s.apartment → a.defersForward = true → s'.apartment.Ordered := by
    intro r a hr' hr ha
    obtain ⟨u, hu, rfl⟩ := of_perform hr'
    rw [hr] at hu
    exact h.step hs.apartment a ha hu
  cases e with
  | tick ms => exact hperform hstep rfl rfl
  | executeReady maxDuration => exact hperform hstep rfl rfl
  | lock => exact hperform hstep rfl rfl
  | schedule i task deferBy =>
    simp only [PrivateQueues.step] at hstep
    split at hstep
    · exact hperform hstep rfl hdefers
    · cases hstep
  | taskEnds =>
    simp only [PrivateQueues.step] at hstep
    split at hstep
    · exact hperform hstep rfl rfl
    · cases hstep
  | enter =>
    simp only [PrivateQueues.step] at hstep
    split at hstep
    · split at hstep
      · cases hstep
      · split at hstep <;> (cases hstep; exact h)
    · cases hstep
  | _ =>
    simp only [PrivateQueues.step] at hstep
    split at hstep <;> cases hstep
    exact h

/-- The tasks of an owner among those that were run. -/
def ranOf (s : PrivateQueues ι π) (i : ι) : List (DeadlinedTask (ι × π)) :=
  s.ran.filter fun t => t.task.1 = i

/-- One step runs nothing of an owner that is gone.  It is the test that lets through, and it lets
    nobody through who is gone. -/
theorem step_gone {s s' : PrivateQueues ι π} {i : ι} (hi : s.life i = .dead) (e : PrivateEvent ι π)
    (hstep : s.step e = some s') : s'.life i = .dead ∧ s'.ranOf i = s.ranOf i := by
  have hperform : ∀ {r : PrivateQueues ι π} {a : Action (ι × π)}, r.perform a = some s' →
      r.life = s.life → r.ran = s.ran → s'.life i = .dead ∧ s'.ranOf i = s.ranOf i := by
    intro r a hr' hlife hran
    obtain ⟨u, _, rfl⟩ := of_perform hr'
    exact ⟨hlife ▸ hi, by unfold ranOf; rw [hran]⟩
  cases e with
  | tick ms => exact hperform hstep rfl rfl
  | executeReady maxDuration => exact hperform hstep rfl rfl
  | lock => exact hperform hstep rfl rfl
  | schedule j task deferBy =>
    simp only [PrivateQueues.step] at hstep
    split at hstep
    · exact hperform hstep rfl rfl
    · cases hstep
  | taskEnds =>
    simp only [PrivateQueues.step] at hstep
    split at hstep
    · exact hperform hstep rfl rfl
    · cases hstep
  | enter =>
    simp only [PrivateQueues.step] at hstep
    split at hstep
    · split at hstep
      · cases hstep
      split at hstep <;> cases hstep
      · next t _ _ halive =>
        have hne : t.task.1 ≠ i := fun heq => absurd (halive.symm.trans (heq ▸ hi)) (by decide)
        refine ⟨hi, ?_⟩
        unfold ranOf
        rw [List.filter_append, List.filter_singleton]
        simp [hne]
      · exact ⟨hi, rfl⟩
    · cases hstep
  | create j =>
    simp only [PrivateQueues.step] at hstep
    split at hstep <;> cases hstep
    next hj =>
    have hne : i ≠ j := by
      rintro rfl
      exact absurd (hj.symm.trans hi) (by decide)
    exact ⟨(Function.update_of_ne hne _ _).trans hi, rfl⟩
  | destroy j byApartment =>
    simp only [PrivateQueues.step] at hstep
    split at hstep <;> cases hstep
    refine ⟨?_, rfl⟩
    by_cases heq : i = j
    · rw [heq]
      exact Function.update_self ..
    · exact (Function.update_of_ne heq _ _).trans hi

/-- In ANY order of calls, of the apartment's steps and of destructors: when nothing is deferred by a
    negative time, tasks are run in the order of their deadlines and, of one deadline, of the calls, and
    before all that is pending; each is run at most once and not before its deadline; a task of an
    owner that is alive was run, or is the one the apartment has taken, or is pending; and from the
    destructor on nothing of an owner is run. -/
theorem deferred_in_order {clock : Int} {es es' : List (PrivateEvent ι π)} {s s' : PrivateQueues ι π}
    (hrun : Lib.run step (new clock) es = some s) (hrun' : Lib.run step s es' = some s') (i : ι) :
    ((∀ e ∈ es, defersForward e = true) → s.ran.Pairwise DeadlinedTask.Earlier ∧
      ∀ t ∈ s.ran, ∀ t' ∈ s.apartment.pending, t.Earlier t') ∧
    (s.ran.map DeadlinedTask.order).Nodup ∧
    (∀ t ∈ s.ran, s.apartment.scheduled[t.order]? = some t ∧ t.deadline ≤ s.apartment.clock) ∧
    (s.life i = .alive → ∀ t ∈ s.apartment.scheduled, t.task.1 = i →
      t ∈ s.ran ∨ s.current = some t ∨ t ∈ s.apartment.pending) ∧
    (s.life i = .dead → s'.life i = .dead ∧ s'.ranOf i = s.ranOf i) := by
  have hs : s.Sound := Lib.run_invariant (fun _ e _ hs hstep => hs.step e hstep) es (new clock) s
    (new_sound clock) hrun
  have htaken : s.ran.Sublist s.apartment.taken := by
    rw [hs.split]
    exact hs.ran.trans (List.sublist_append_left _ _)
  have hpending : ∀ {t}, t ∈ s.apartment.pending ↔ t ∈ s.apartment.queue.tasks.items :=
    hs.apartment.mem_pending hs.going
  refine ⟨fun hdefers => ?_, ?_, fun t ht => ⟨?_, ?_⟩, fun halive t ht howner => ?_, fun hdead => ?_⟩
  · obtain ⟨-, hordered⟩ := Lib.run_invariant_on
      (P := fun t : PrivateQueues ι π => t.Sound ∧ t.apartment.Ordered)
      (fun t e t' he h ht' => ⟨h.1.step e ht', ordered_step h.2 h.1 e he ht'⟩) es (new clock) s hdefers
      ⟨new_sound clock, Scheduling.new_ordered clock⟩ hrun
    exact ⟨hordered.taken.sublist htaken,
      fun t ht t' ht' => hordered.before t (htaken.subset ht) t' (hpending.mp ht')⟩
  · have hnodup := hs.apartment.nodup
    rw [List.map_append] at hnodup
    exact hnodup.of_append_left.sublist (htaken.map _)
  · exact hs.apartment.known t (List.mem_append_left _ (htaken.subset ht))
  · exact hs.apartment.due t (htaken.subset ht)
  · rcases List.mem_append.mp (hs.apartment.held hs.going t ht) with hmem | hmem
    · rw [hs.split] at hmem
      rcases List.mem_append.mp hmem with hmem | hmem
      · exact .inl (hs.through t hmem (howner ▸ halive))
      · unfold waiting at hmem
        split at hmem
        · exact absurd hmem List.not_mem_nil
        · exact .inr (.inl (Option.mem_toList.mp hmem))
    · exact .inr (.inr (hpending.mpr hmem))
  · exact Lib.run_invariant (P := fun t => t.life i = .dead ∧ t.ranOf i = s.ranOf i)
      (fun _ e _ ht hstep =>
        ⟨(step_gone ht.1 e hstep).1, (step_gone ht.1 e hstep).2.trans ht.2⟩) es' s s' ⟨hdead, rfl⟩ hrun'

/-- A task deferred for long is overtaken by one of another owner and by one of its own, which destroys
    the owner. -/
def overtaken : List (PrivateEvent Nat Char) :=
  [.create 0, .create 1, .schedule 0 'p' 121, .schedule 1 'q' 0, .schedule 0 'r' 0, .executeReady 10,
    .lock, .enter, .taskEnds, .lock, .enter, .destroy 0 true, .taskEnds, .lock]

theorem deferred_in_order_overtaken :
    ∃ s, Lib.run step (new 0) overtaken = some s ∧
      s.ran.map DeadlinedTask.task = [(1, 'q'), (0, 'r')] ∧ s.life 0 = .dead ∧
      ∀ s', Lib.run step s [.tick 200, .executeReady 10, .lock, .enter] = some s' →
        s'.ranOf 0 = s.ranOf 0 := by
  refine ⟨_, rfl, rfl, rfl, fun s' hs' => ?_⟩
  exact ((deferred_in_order (rfl : Lib.run step (new 0) overtaken = _) hs' 0).2.2.2.2 rfl).2

end PrivateQueues

end MicroProfiler.Scheduler
