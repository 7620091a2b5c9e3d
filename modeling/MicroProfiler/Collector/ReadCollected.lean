/-
  `thread_queue_manager::read_collected` as its caller has it: a loop over the queues, in the order
  they were registered, that comes to its end.

  1. **Where a read is (`Reads`)** — the queues still to come are registered ones, the reader of the
     queue being read is in its loop, those of all others are outside.

  2. **It is never stuck (`Reads.progress`)** — the next sub-step of the read can always be taken,
     whatever the threads are at: no thread that waits for a buffer is waited for.

  3. **It ends (`readWeight`)** — each of its sub-steps lowers a number that nothing but the threads'
     registrations can raise before the next read begins.
-/
import MicroProfiler.Collector.ThreadQueueManager

namespace MicroProfiler

variable {E : Type}

/-- What threads do by themselves: get their queues, collect.  The reader has to go on among these.
    -/
def ManagerEvent.ofThread {τ : Type} : ManagerEvent τ E → Bool
  | .prepare _ | .make _ | .register _ | .produce _ _ => true
  | _ => false

/-- The sub-steps of `read_collected` between its beginning and its end. -/
def ManagerEvent.ofRead {τ : Type} : ManagerEvent τ E → Bool
  | .visit | .read _ => true
  | _ => false

/-- Sub-steps that the reader of a queue may still make in the read under way: four for each buffer
    it counted when it came in, and those it needs to leave. -/
def Reader.steps : Reader E → Nat
  | .idle => 0
  | .looping n _ => 4 * n + 2
  | .reading n _ _ => 4 * n + 5
  | .recycling n _ _ => 4 * n + 4
  | .notifying n _ => 4 * n + 3
  | .finishing _ => 1

namespace System

variable [Inhabited E] {q q' : System E} {a : Action E}

/-- Threads do not move readers. -/
theorem reader_of_produce (ha : a.ofReader = false) (h : q.step a = some q') : q'.reader = q.reader := by
  cases step_moves h with
  | write | push | flush | handOff | sleep | take | wake => rfl
  | _ => cases ha

/-- **The reader's next sub-step** can be taken, wherever it stands; what it waits for it has. -/
theorem exists_readerStep (h : q.reader.isIdle = false) :
    ∃ a, a.ofReader = true ∧ ∃ q', q.step a = some q' := by
  obtain ⟨queue, pr, rd, pu, de⟩ := q
  cases rd with
  | idle => cases h
  | looping n readyN =>
    -- at the end of the loop it stops, empty-handed or not; before that it takes what is ready
    refine ⟨.consume, rfl, ?_⟩
    cases n with
    | zero => exact ⟨_, rfl⟩
    | succ n => cases hconsume : queue.consume <;> simp [step, hconsume]
  | reading n readyN b => exact ⟨.deliver, rfl, _, rfl⟩
  | recycling n readyN b => exact ⟨.recycle, rfl, _, rfl⟩
  | notifying n readyN => exact ⟨.notify, rfl, _, rfl⟩
  | finishing readyN => exact ⟨.finish, rfl, _, rfl⟩

/-- And each brings it nearer to the end of its read.  A buffer that was taken leads through
    delivery, recycling and perhaps a notification back to the loop, which has one buffer less to
    look for. -/
theorem readerStep_lt (hidle : q.reader.isIdle = false) (ha : a.ofReader = true)
    (h : q.step a = some q') : q'.reader.steps < q.reader.steps := by
  cases step_moves h with
  | startReading => cases hidle
  | stop _ => simp [Reader.steps]
  | consume _ => simp [Reader.steps]; omega
  | deliver | notify | finish => simp [Reader.steps]
  | recycle =>
    dsimp only
    split <;> simp [Reader.steps]
  | _ => cases ha

end System

namespace ThreadQueueManager

variable {τ : Type} {idGen : τ → Nat} {m m' : ThreadQueueManager τ E}

/-- The queue is at the front of the read under way, and its reader inside of it. -/
def Front (t : τ) : Busy τ → Prop
  | .reading true (u :: _) => t = u
  | _ => False

/-- Where the read under way is.  The invariant of this module: a step either leaves the readers
    alone or is the one that `front` speaks of. -/
structure Reads (m : ThreadQueueManager τ E) : Prop where
  /-- only registered queues are gone through -/
  known : ∀ inside rest, m.busy = .reading inside rest → ∀ t ∈ rest, t ∈ m.queues
  /-- whoever is inside is inside of some queue -/
  inside : m.busy ≠ .reading true []
  /-- exactly the reader of that queue has left its idle state -/
  front : ∀ t id q, m.slots t = .made id q → (q.reader.isIdle = false ↔ Front t m.busy)

/-- Nothing is read in the beginning. -/
theorem reads_new (policy : BufferingPolicy) : Reads (new policy : ThreadQueueManager τ E) where
  known _ _ h := by cases h
  inside h := by cases h
  front _ _ _ h := by cases h

/-- The queue in front is a registered one. -/
theorem Reads.known_front (hr : Reads m) {t : τ} (h : Front t m.busy) : t ∈ m.queues := by
  generalize hbusy : m.busy = busy at h
  match busy, h with
  | .reading true (u :: rest), h =>
    rw [show t = u from h]
    exact hr.known true _ hbusy u List.mem_cons_self

variable [DecidableEq τ] [Inhabited E]

/-- A thread's sub-step: no reader moves. -/
theorem Reads.produce (hr : Reads m) {t : τ} {a : Action E} (ha : a.ofReader = false)
    (h : m.onQueue t (fun q => q.step a) = some m') : Reads m' := by
  obtain ⟨id, q, q', hslot, hq', rfl⟩ := onQueue_eq_some h
  refine ⟨hr.known, hr.inside, fun u jd r hu => ?_⟩
  by_cases hut : u = t
  · subst hut
    cases (Function.update_self ..).symm.trans hu
    rw [System.reader_of_produce ha hq']
    exact hr.front u id q hslot
  · exact hr.front u jd r ((Function.update_of_ne hut ..).symm.trans hu)

/-- The read comes to the next queue: its reader begins, all others were and are idle. -/
theorem Reads.visit (hr : Reads m) (h : m.step idGen .visit = some m') : Reads m' := by
  simp only [ThreadQueueManager.step] at h
  split at h
  case h_2 => cases h
  next t rest hbusy =>
  obtain ⟨m₁, hm₁, rfl⟩ := Option.map_eq_some_iff.1 h
  obtain ⟨id, q, q', hslot, hq', rfl⟩ := onQueue_eq_some hm₁
  refine ⟨fun inside rest' heq u hu => ?_, fun heq => (by cases heq), fun u jd r hu => ?_⟩
  · cases heq
    exact hr.known false _ hbusy u hu
  · -- the queue that is visited now
    by_cases hut : u = t
    · subst hut
      cases (Function.update_self ..).symm.trans hu
      cases System.step_moves hq' with
      | startReading => exact iff_of_true rfl rfl
    · -- any other; nobody was inside before
      have hold := hr.front u jd r ((Function.update_of_ne hut ..).symm.trans hu)
      rw [hbusy] at hold
      exact hold.trans (iff_of_false (fun h => h) hut)

/-- A sub-step of the reader inside.  If that was its last, the read leaves the queue, and nobody is
    inside; if not, everything but this reader is as before. -/
theorem Reads.read (hr : Reads m) {a : Action E} (h : m.step idGen (.read a) = some m') : Reads m' := by
  simp only [ThreadQueueManager.step] at h
  split at h
  case h_2 => cases h
  next t rest hbusy =>
  split at h
  case h_2 => cases h
  next id q hslot =>
  split at h
  case isFalse => cases h
  obtain ⟨q', hq', rfl⟩ := Option.map_eq_some_iff.1 h
  have hknown := hr.known true _ hbusy
  -- the others are outside, before and after
  have hothers : ∀ u jd r, u ≠ t → m.slots u = .made jd r → r.reader.isIdle ≠ false := by
    intro u jd r hut hu hidle
    have hfront := (hr.front u jd r hu).mp hidle
    rw [hbusy] at hfront
    exact hut hfront
  cases hidle : q'.reader.isIdle with
  | true =>
    -- the reader is done with this queue
    refine ⟨fun inside rest' heq u hu => ?_, fun heq => ?_, fun u jd r hu => ?_⟩
    · simp only [if_true, Busy.reading.injEq] at heq
      exact hknown u (List.mem_cons_of_mem _ (heq.2 ▸ hu))
    · simp at heq
    · refine iff_of_false ?_ (by simp [Front])
      by_cases hut : u = t
      · subst hut
        cases (Function.update_self ..).symm.trans hu
        rw [hidle]
        decide
      · exact hothers u jd r hut ((Function.update_of_ne hut ..).symm.trans hu)
  | false =>
    -- it is not
    refine ⟨fun inside rest' heq u hu => ?_, fun heq => ?_, fun u jd r hu => ?_⟩
    · simp only [Bool.false_eq_true, if_false] at heq
      exact hr.known inside rest' heq u hu
    · simp only [Bool.false_eq_true, if_false] at heq
      exact hr.inside heq
    · simp only [Bool.false_eq_true, if_false, hbusy, Front]
      by_cases hut : u = t
      · subst hut
        cases (Function.update_self ..).symm.trans hu
        exact iff_of_true hidle rfl
      · exact iff_of_false (hothers u jd r hut ((Function.update_of_ne hut ..).symm.trans hu)) hut

omit [DecidableEq τ] [Inhabited E] in
/-- Steps that make no reader move and leave nobody inside a queue: a read's beginning and its end.
    -/
theorem Reads.hold (hr : Reads m) {busy : Busy τ} {policy : BufferingPolicy}
    (hbefore : ∀ t, ¬ Front t m.busy) (hafter : ∀ t, ¬ Front t busy) (hinside : busy ≠ .reading true [])
    (hknown : ∀ inside rest, busy = .reading inside rest → ∀ t ∈ rest, t ∈ m.queues) :
    Reads { m with busy, policy } :=
  ⟨hknown, hinside, fun t id q hq => (hr.front t id q hq).trans (iff_of_false (hbefore t) (hafter t))⟩

/-- **Every step keeps it**, as long as nobody changes the policy, which goes through the queues as
    a read does. -/
theorem Reads.step {p : BufferingPolicy} (hr : Reads m) (hsound : Sound idGen m) (huniform : Uniform p m)
    {e : ManagerEvent τ E} (hset : ∀ policy, e ≠ .startSet policy) (h : m.step idGen e = some m') : Reads m' := by
  cases e with
  | visit => exact hr.visit h
  | read a => exact hr.read h
  | startSet policy => exact absurd rfl (hset policy)
  | produce t a =>
    -- not a reader's action, by the guard
    simp only [ThreadQueueManager.step] at h
    split at h
    next hcond => exact hr.produce hcond.2 h
    next => cases h
  | prepare t =>
    -- the slot holds no queue yet
    simp only [ThreadQueueManager.step] at h
    split at h <;> cases h
    refine ⟨hr.known, hr.inside, fun u id q hu => ?_⟩
    by_cases hut : u = t
    · subst hut
      cases (Function.update_self ..).symm.trans hu
    · exact hr.front u id q ((Function.update_of_ne hut ..).symm.trans hu)
  | make t =>
    simp only [ThreadQueueManager.step] at h
    split at h <;> cases h
    next id policy hslot =>
    refine ⟨hr.known, hr.inside, fun u jd q hu => ?_⟩
    by_cases hut : u = t
    · subst hut
      cases (Function.update_self ..).symm.trans hu
      -- a queue that is being made is not registered yet
      refine iff_of_false (by simp [System.new, Reader.isIdle]) fun hfront => ?_
      obtain ⟨id', q', hmade⟩ := hsound.registered u (hr.known_front hfront)
      cases hslot.symm.trans hmade
    · exact hr.front u jd q ((Function.update_of_ne hut ..).symm.trans hu)
  | register t =>
    -- registration needs the mutex, so no read is under way
    simp only [ThreadQueueManager.step] at h
    split at h
    next hbusy _ =>
      split at h <;> cases h
      refine ⟨fun inside rest heq => ?_, hr.inside, hr.front⟩
      cases hbusy.symm.trans heq
    next => cases h
  | startRead =>
    simp only [ThreadQueueManager.step] at h
    split at h <;> cases h
    next hbusy =>
    refine hr.hold (fun t => by rw [hbusy]; exact id) (fun _ => id) (by intro heq; cases heq) ?_
    intro inside rest heq t ht
    cases heq
    exact ht
  | endRead =>
    simp only [ThreadQueueManager.step] at h
    split at h <;> cases h
    next hbusy =>
    exact hr.hold (fun t => by rw [hbusy]; exact id) (fun _ => id) (by intro heq; cases heq)
      (fun _ _ heq => by cases heq)
  | setNext | endSet =>
    -- no policy is being set
    simp only [ThreadQueueManager.step] at h
    split at h
    · exact absurd ‹_› (huniform.notSetting _ _)
    · cases h

/-- **The next sub-step of a read** can be taken; when there is none left, the read is over.  Inside
    a queue it is its reader's, outside it is the visit to the next queue. -/
theorem Reads.progress (hr : Reads m) (hsound : Sound idGen m) {inside : Bool} {rest : List τ}
    (hbusy : m.busy = .reading inside rest) :
    (∃ e : ManagerEvent τ E, e.ofRead = true ∧ ∃ m', m.step idGen e = some m') ∨
      m.busy = .reading false [] := by
  cases rest with
  | nil =>
    cases inside with
    | false => exact .inr hbusy
    | true => exact absurd hbusy hr.inside
  | cons t rest =>
    obtain ⟨id, q, hslot⟩ := hsound.registered t (hr.known _ _ hbusy t List.mem_cons_self)
    have hfront := hr.front t id q hslot
    rw [hbusy] at hfront
    cases inside with
    | true =>
      obtain ⟨a, ha, q', hq'⟩ := System.exists_readerStep (hfront.mpr rfl)
      exact .inl ⟨.read a, rfl, by simp [ThreadQueueManager.step, hbusy, hslot, ha, hq']⟩
    | false =>
      obtain ⟨queue, pr, rd, pu, de⟩ := q
      cases rd with
      | idle =>
        refine .inl ⟨.visit, rfl, ?_⟩
        simp [ThreadQueueManager.step, hbusy, onQueue, hslot, System.step]
      | _ => exact (hfront.mp rfl).elim

/-- The reader is only given more: `accepted` is appended to by deliveries, and by nothing else. -/
theorem step_accepted {e : ManagerEvent τ E} (h : m.step idGen e = some m') :
    m.accepted <+: m'.accepted := by
  cases e with
  | produce t a =>
    simp only [ThreadQueueManager.step] at h
    split at h
    · obtain ⟨id, q, q', -, -, rfl⟩ := onQueue_eq_some h
      exact List.prefix_refl _
    · cases h
  | visit | setNext =>
    simp only [ThreadQueueManager.step] at h
    split at h
    · obtain ⟨m₁, hm₁, rfl⟩ := Option.map_eq_some_iff.1 h
      obtain ⟨id, q, q', -, -, rfl⟩ := onQueue_eq_some hm₁
      exact List.prefix_refl _
    · cases h
  | read a =>
    simp only [ThreadQueueManager.step] at h
    split at h
    · split at h
      · split at h
        · obtain ⟨q', -, rfl⟩ := Option.map_eq_some_iff.1 h
          exact List.prefix_append _ _
        · cases h
      · cases h
    · cases h
  | register t =>
    simp only [ThreadQueueManager.step] at h
    split at h
    · split at h <;> cases h
      exact List.prefix_refl _
    · cases h
  | prepare t | make t | startRead | endRead | startSet policy | endSet =>
    simp only [ThreadQueueManager.step] at h
    split at h <;> cases h
    exact List.prefix_refl _

/-- What the beginning of a read does. -/
theorem step_startRead (h : m.step idGen .startRead = some m') :
    m.busy = .free ∧ m' = { m with busy := .reading false m.queues } := by
  simp only [ThreadQueueManager.step] at h
  split at h <;> cases h
  next hbusy => exact ⟨hbusy, rfl⟩

/-- What its end does, which comes when no queue is left. -/
theorem step_endRead (h : m.step idGen .endRead = some m') :
    m.busy = .reading false [] ∧ m' = { m with busy := .free } := by
  simp only [ThreadQueueManager.step] at h
  split at h <;> cases h
  next hbusy => exact ⟨hbusy, rfl⟩

/-- Only its caller begins a read, and ends it: other steps of threads and of the read leave the
    mutex with whoever has it. -/
theorem step_free {e : ManagerEvent τ E} (he : e.ofThread = true ∨ e.ofRead = true)
    (h : m.step idGen e = some m') : m'.busy = .free ↔ m.busy = .free := by
  cases e with
  | produce t a =>
    simp only [ThreadQueueManager.step] at h
    split at h
    · obtain ⟨id, q, q', -, -, rfl⟩ := onQueue_eq_some h
      exact Iff.rfl
    · cases h
  | visit =>
    simp only [ThreadQueueManager.step] at h
    split at h
    next hbusy =>
      obtain ⟨m₁, hm₁, rfl⟩ := Option.map_eq_some_iff.1 h
      exact iff_of_false (by simp) (by simp [hbusy])
    next => cases h
  | read a =>
    simp only [ThreadQueueManager.step] at h
    split at h
    next hbusy =>
      split at h
      · split at h
        · obtain ⟨q', -, rfl⟩ := Option.map_eq_some_iff.1 h
          refine iff_of_false ?_ (by simp [hbusy])
          dsimp only
          split <;> simp [hbusy]
        · cases h
      · cases h
    next => cases h
  | register t =>
    simp only [ThreadQueueManager.step] at h
    split at h
    · split at h <;> cases h
      exact Iff.rfl
    · cases h
  | prepare t | make t =>
    simp only [ThreadQueueManager.step] at h
    split at h <;> cases h
    exact Iff.rfl
  | startRead | endRead | startSet policy | setNext | endSet => simp [ManagerEvent.ofThread,
      ManagerEvent.ofRead] at he

/-- Sub-steps a whole read of one queue may take: as many buffers as the policy allows, and the
    visit. -/
def visitSteps (p : BufferingPolicy) : Nat := 4 * p.maxBuffers + 3

/-- Those of a queue's reader; a slot without a queue has none. -/
def slotSteps : QueueSlot E → Nat
  | .made _ q => q.reader.steps
  | _ => 0

/-- Sub-steps the read under way may still take: what the reader inside has before it, and a whole
    visit for each queue behind. -/
def readWeight (p : BufferingPolicy) (m : ThreadQueueManager τ E) : Nat :=
  match m.busy with
  | .reading true (t :: rest) => slotSteps (m.slots t) + rest.length * visitSteps p + 1
  | .reading _ rest => rest.length * visitSteps p + 1
  | _ => 0

/-- **Each sub-step of a read** lowers it.  A visit exchanges a whole visit's worth for what the
    reader has before it then, which is one less. -/
theorem Reads.weight {p : BufferingPolicy} (hr : Reads m) (huniform : Uniform p m) {e : ManagerEvent τ E}
    (he : e.ofRead = true) (h : m.step idGen e = some m') :
    readWeight p m' < readWeight p m ∧ m'.queues = m.queues := by
  cases e with
  | visit =>
    simp only [ThreadQueueManager.step] at h
    split at h
    case h_2 => cases h
    next t rest hbusy =>
    obtain ⟨m₁, hm₁, rfl⟩ := Option.map_eq_some_iff.1 h
    obtain ⟨id, q, q', hslot, hq', rfl⟩ := onQueue_eq_some hm₁
    refine ⟨?_, rfl⟩
    -- the reader counts the buffers of its queue, which is as large as the policy says
    have hpolicy := (huniform.made t id q hslot).policy
    have hsteps : q'.reader.steps = 4 * p.maxBuffers + 2 := by
      cases System.step_moves hq' with
      | startReading => rw [← hpolicy]; rfl
    simp only [readWeight, hbusy, Function.update_self, slotSteps, hsteps, List.length_cons, visitSteps,
      Nat.succ_mul]
    omega
  | read a =>
    simp only [ThreadQueueManager.step] at h
    split at h
    case h_2 => cases h
    next t rest hbusy =>
    split at h
    case h_2 => cases h
    next id q hslot =>
    split at h
    case isFalse => cases h
    next ha =>
    obtain ⟨q', hq', rfl⟩ := Option.map_eq_some_iff.1 h
    refine ⟨?_, rfl⟩
    have hfront := hr.front t id q hslot
    rw [hbusy] at hfront
    have hlt := System.readerStep_lt (hfront.mpr rfl) ha hq'
    cases hidle : q'.reader.isIdle with
    | true =>
      -- the queue is done with: its last sub-step is gone
      simp only [readWeight, hbusy, hslot, slotSteps, if_true]
      omega
    | false =>
      -- the reader has one sub-step less
      simp only [readWeight, hbusy, hslot, slotSteps, Bool.false_eq_true, if_false, Function.update_self]
      omega
  | _ => cases he

end ThreadQueueManager

end MicroProfiler
