/-
  A queue for each thread: `collector/thread_queue_manager.h`, and `calls_collector` over it
  (`collector/src/calls_collector.cpp`).

  1. **Program** — a thread gets its queue in three steps, the first and the last under the manager's
     mutex: take an id and a copy of the policy, make the queue and publish it to itself, append it
     to `_queues`.  `read_collected` and `set_buffering_policy` hold the mutex for their whole loop
     over `_queues`; the threads that have their queues go on meanwhile, sub-step by sub-step
     (`System.step`), in ANY order (`ThreadQueueManager.step`).

  2. **Specification** — what the acceptor was given under a thread's id is a prefix of what that
     thread pushed, in order; and, under one policy, a complete read gives it all that the thread
     had handed over when the read began, so that the first one after its last flush gives it ALL.

  3. **The crux (`Draining`)** — a read visits every queue that was there when it began, and the
     bound of its inner loop is never less than the number of buffers ready.
-/
import MicroProfiler.Lib.Flow
import MicroProfiler.Lib.Keys
import MicroProfiler.Collector.BuffersFifo
import MicroProfiler.Collector.BuffersPolicy
import Mathlib.Logic.Function.Basic

namespace MicroProfiler

variable {E : Type}

/-! ## One queue, whatever its policy becomes -/

/-- Outside of `read_collected`. -/
def Reader.isIdle : Reader E → Bool
  | .idle => true
  | _ => false

namespace System

/-- What the FIFO order of a queue rests on.  Unlike the accounts of its buffers it asks nothing of
    the policy, so it survives `set_buffering_policy`. -/
structure Cursor (s : System E) : Prop where
  /-- there is a buffer to write to, except between its hand-off and the next -/
  hasActive : s.queue.active.isSome ↔ HasActive s.producer
  /-- the write position and the room left make up a buffer -/
  cursor : s.queue.active.isSome → s.queue.ptr + s.queue.nLeft = bufferSize
  room : s.producer = .idle → 0 < s.queue.nLeft
  /-- all that was pushed, in order: delivered, with the reader, ready, or being written -/
  pushed : s.pushed = s.delivered ++ s.reader.undelivered
    ++ (s.queue.ready.map Buffer.contents).flatten ++ s.queue.written

/-- What the specification asks of a single queue. -/
theorem Cursor.conveyed {s : System E} (h : s.Cursor) : s.Conveyed := ⟨h.pushed⟩

variable [Inhabited E]

/-- A new queue has a buffer that nothing was written to. -/
theorem new_cursor (p : BufferingPolicy) : (new p : System E).Cursor :=
  have h := new_accounted (E := E) p
  ⟨h.hasActive, h.cursor, h.room, rfl⟩

/-- **Every sub-step keeps the order.**  A record moves from one of the four places to the one
    before it, at the end of the one and to the front of the other. -/
theorem Cursor.moves {s s' : System E} {a : Action E} (h : s.Cursor) (hmove : Moves s a s') :
    s'.Cursor := by
  obtain ⟨hactive, hcursor, hroom, hpushed⟩ := h
  cases hmove with
  | write hb =>
    -- a record that was written but not yet pushed is not counted
    refine ⟨⟨fun _ => trivial, fun _ => rfl⟩, fun _ => hcursor (by rw [hb]; rfl), hroom, ?_⟩
    rw [written_write hb]
    exact hpushed
  | @push q rd pu de r hr =>
    -- the record counts now, at the end of what is written; a full buffer is handed off next
    have hsome : q.active.isSome := hactive.2 trivial
    have hsum : q.ptr + q.nLeft = bufferSize := hcursor hsome
    have hpos : 0 < q.nLeft := hroom rfl
    refine ⟨⟨fun _ => ?_, fun _ => hsome⟩, fun _ => ?_, fun hidle => ?_, ?_⟩
    · show HasActive (if q.push.nLeft = 0 then .handingOff else .idle)
      split <;> trivial
    · show q.ptr + 1 + (q.nLeft - 1) = bufferSize
      omega
    · show 0 < q.push.nLeft
      by_contra hzero
      have hzero : q.push.nLeft = 0 := by omega
      simp only [hzero, if_true] at hidle
      cases hidle
    · show pu ++ [r] = de ++ rd.undelivered ++ (q.ready.map Buffer.contents).flatten ++ q.push.written
      rw [written_push hr, ← List.append_assoc, ← hpushed]
  | flush => exact ⟨hactive, hcursor, fun hidle => (by cases hidle), hpushed⟩
  | @handOff q rd pu de b hb hlt =>
    -- what was written becomes the last of the ready buffers, cut where the writing stopped
    refine ⟨⟨fun hsome => (by cases hsome), fun h => h.elim⟩, fun hsome => (by cases hsome),
      fun hidle => (by cases hidle), ?_⟩
    have hsize : bufferSize - q.nLeft = q.ptr := by
      have : q.ptr + q.nLeft = bufferSize := hcursor (by rw [hb]; rfl)
      omega
    simp only [BuffersQueue.written, hb] at hpushed
    simp only [hpushed, BuffersQueue.written, hsize, List.map_append, List.map_cons, List.map_nil,
      List.flatten_append, List.flatten_cons, List.flatten_nil, List.append_nil,
      List.append_assoc, Buffer.contents]
  | sleep _ => exact ⟨hactive, hcursor, fun hidle => (by cases hidle), hpushed⟩
  | @take q rd pu de b empty he =>
    -- an empty buffer is taken: nothing is written in it
    have hnone : q.active = none := by
      have := mt hactive.mp (by exact id)
      simpa using this
    refine ⟨⟨fun _ => trivial, fun _ => rfl⟩, fun _ => rfl, fun _ => Nat.succ_pos 383, ?_⟩
    simp only [BuffersQueue.written, hnone] at hpushed
    exact hpushed
  | wake _ => exact ⟨hactive, hcursor, fun hidle => (by cases hidle), hpushed⟩
  | startReading => exact ⟨hactive, hcursor, hroom, hpushed⟩
  | stop _ => exact ⟨hactive, hcursor, hroom, hpushed⟩
  | @consume q pr pu de n readyN b ready hr =>
    -- the first of the ready buffers is with the reader
    refine ⟨hactive, hcursor, hroom, ?_⟩
    simp only [Reader.undelivered, hr, List.map_cons, List.flatten_cons, List.append_nil] at hpushed
    simp only [Reader.undelivered, hpushed, List.append_assoc]
    rfl
  | deliver =>
    -- and now delivered
    refine ⟨hactive, hcursor, hroom, ?_⟩
    simp only [Reader.undelivered] at hpushed
    simp only [Reader.undelivered, hpushed, List.append_nil]
  | @recycle q pr pu de n readyN b =>
    refine ⟨hactive, hcursor, hroom, ?_⟩
    have hnone : (if q.empty.isEmpty then Reader.notifying (E := E) n readyN
        else .looping n readyN).undelivered = [] := by split <;> rfl
    rw [hnone]
    exact hpushed
  | notify => exact ⟨hactive, hcursor, hroom, hpushed⟩
  | finish => exact ⟨hactive, hcursor, hroom, hpushed⟩

/-- A change of policy touches the stack of empty buffers only. -/
theorem Cursor.changed {s : System E} (h : s.Cursor) (policy : BufferingPolicy) :
    (s.changed policy).Cursor :=
  ⟨h.hasActive, h.cursor, h.room, h.pushed⟩

end System

/-! ## The manager -/

/-- A thread's queue, with the id it was made under; `preparing` is between the first locked section
    of `construct_queue` and `make_shared`. -/
inductive QueueSlot (E : Type)
  | absent
  | preparing (id : Nat) (policy : BufferingPolicy)
  | made (id : Nat) (queue : System E)

/-- Who holds `_mtx` over a loop: nobody, `read_collected` or `set_buffering_policy`, with the queues
    still to come; `inside` while the first of them is being read. -/
inductive Busy (τ : Type)
  | free
  | reading (inside : Bool) (rest : List τ)
  | setting (policy : BufferingPolicy) (rest : List τ)

/-- `thread_queue_manager`; the thread-local pointers are `slots`, `accepted` are the calls of the
    reader so far. -/
structure ThreadQueueManager (τ E : Type) where
  policy : BufferingPolicy
  slots : τ → QueueSlot E
  queues : List τ
  busy : Busy τ
  accepted : List (Nat × List E)

/-- The sub-steps of all threads and of the two callers of the manager.  Which of them are possible
    says `step`; their order is anybody's. -/
inductive ManagerEvent (τ E : Type)
  /-- the first locked section of `construct_queue` -/
  | prepare (t : τ)
  /-- `make_shared`, `at_thread_exit`, the thread-local pointer -/
  | make (t : τ)
  /-- the second locked section -/
  | register (t : τ)
  /-- the thread goes on in its queue (its exit handler is a `flush`) -/
  | produce (t : τ) (a : Action E)
  | startRead
  /-- `read_collected` of the next queue begins -/
  | visit
  | read (a : Action E)
  | endRead
  | startSet (policy : BufferingPolicy)
  | setNext
  | endSet

namespace ThreadQueueManager

variable {τ : Type}

/-- Nobody has a queue. -/
def new (policy : BufferingPolicy) : ThreadQueueManager τ E :=
  ⟨policy, fun _ => .absent, [], .free, []⟩

/-- The call of the reader that a sub-step of `read_collected` makes: one for each buffer delivered.
    -/
def accepts (id : Nat) (q : System E) : Action E → List (Nat × List E)
  | .deliver => (q.reader.held.map fun b => (id, b.contents)).toList
  | _ => []

variable [DecidableEq τ] [Inhabited E]

/-- A step of a thread's queue; all else stays. -/
def onQueue (m : ThreadQueueManager τ E) (t : τ) (f : System E → Option (System E)) :
    Option (ThreadQueueManager τ E) :=
  match m.slots t with
  | .made id q => (f q).map fun q' => { m with slots := Function.update m.slots t (.made id q') }
  | _ => none

/-- One step; `idGen` is what `_id_gen` returns on a thread.  `none` where the step is not possible:
    the mutex is taken, the queue is not there, or the queue's own step waits. -/
def step (idGen : τ → Nat) (m : ThreadQueueManager τ E) :
    ManagerEvent τ E → Option (ThreadQueueManager τ E)
  | .prepare t =>
    match m.busy, m.slots t with
    | .free, .absent =>
      some { m with slots := Function.update m.slots t (.preparing (idGen t) m.policy) }
    | _, _ => none
  | .make t =>
    match m.slots t with
    | .preparing id policy =>
      some { m with slots := Function.update m.slots t (.made id (System.new policy)) }
    | _ => none
  | .register t =>
    match m.busy, m.slots t with
    | .free, .made _ _ => if t ∈ m.queues then none else some { m with queues := m.queues ++ [t] }
    | _, _ => none
  | .produce t a =>
    if t ∈ m.queues ∧ a.ofReader = false then m.onQueue t fun q => q.step a else none
  | .startRead =>
    match m.busy with
    | .free => some { m with busy := .reading false m.queues }
    | _ => none
  | .visit =>
    match m.busy with
    | .reading false (t :: rest) =>
      (m.onQueue t fun q => q.step .startReading).map fun m =>
        { m with busy := .reading true (t :: rest) }
    | _ => none
  | .read a =>
    match m.busy with
    | .reading true (t :: rest) =>
      match m.slots t with
      | .made id q =>
        if a.ofReader then
          (q.step a).map fun q' =>
            { m with slots := Function.update m.slots t (.made id q'),
                     accepted := m.accepted ++ accepts id q a,
                     -- the queue's `read_collected` returned
                     busy := if q'.reader.isIdle then .reading false rest else m.busy }
        else none
      | _ => none
    | _ => none
  | .endRead =>
    match m.busy with
    | .reading false [] => some { m with busy := .free }
    | _ => none
  | .startSet policy =>
    match m.busy with
    | .free => some { m with busy := .setting policy m.queues }
    | _ => none
  | .setNext =>
    match m.busy with
    | .setting policy (t :: rest) =>
      (m.onQueue t fun q => q.policyStep (.setBufferingPolicy policy)).map fun m =>
        { m with busy := .setting policy rest }
    | _ => none
  | .endSet =>
    match m.busy with
    | .setting policy [] => some { m with policy := policy, busy := .free }
    | _ => none

/-! ## Every thread's records, in order, under its own id -/

omit [DecidableEq τ] in
/-- What a sub-step delivers is what it passes to the reader. -/
theorem step_delivered {q q' : System E} {a : Action E} (id : Nat) (h : q.step a = some q') :
    q'.delivered = q.delivered ++ ((accepts id q a).map Prod.snd).flatten := by
  cases System.step_moves h with
  | deliver =>
    simp only [accepts, Reader.held, Option.map_some, Option.toList_some, List.map_cons,
      List.map_nil, List.flatten_cons, List.flatten_nil, List.append_nil]
  | _ => simp only [accepts, List.map_nil, List.flatten_nil, List.append_nil]

/-- What is known of a thread's slot: its id, the order of its queue, and that the reader was given
    under that id what the queue delivered. -/
def SlotSound (idGen : τ → Nat) (accepted : List (Nat × List E)) (t : τ) : QueueSlot E → Prop
  | .absent => (Lib.ofParty (idGen t) accepted).flatten = []
  | .preparing id _ => id = idGen t ∧ (Lib.ofParty (idGen t) accepted).flatten = []
  | .made id q => id = idGen t ∧ q.Cursor ∧ (Lib.ofParty (idGen t) accepted).flatten = q.delivered

/-- The INVARIANT.  `slots` ties each thread's queue to the reader's calls under its id; the ids
    being different, a call concerns one queue only. -/
structure Sound (idGen : τ → Nat) (m : ThreadQueueManager τ E) : Prop where
  nodup : m.queues.Nodup
  registered : ∀ t ∈ m.queues, ∃ id q, m.slots t = .made id q
  slots : ∀ t, SlotSound idGen m.accepted t (m.slots t)

omit [DecidableEq τ] [Inhabited E] in
/-- Nobody was made, nothing was read. -/
theorem sound_new (idGen : τ → Nat) (policy : BufferingPolicy) :
    Sound idGen (new policy : ThreadQueueManager τ E) :=
  ⟨List.nodup_nil, fun _ h => (by cases h), fun _ => rfl⟩

variable {idGen : τ → Nat} {m m' : ThreadQueueManager τ E}

omit [DecidableEq τ] [Inhabited E] in
/-- Steps that touch no queue. -/
theorem Sound.hold (hs : Sound idGen m) (busy : Busy τ) (policy : BufferingPolicy) :
    Sound idGen { m with busy, policy } :=
  ⟨hs.nodup, hs.registered, hs.slots⟩

omit [DecidableEq τ] [Inhabited E] in
/-- What is known of a slot speaks of the calls under its thread's id, and of no others. -/
theorem SlotSound.congr {accepted accepted' : List (Nat × List E)} {t : τ} {slot : QueueSlot E}
    (h : SlotSound idGen accepted t slot)
    (hsame : Lib.ofParty (idGen t) accepted' = Lib.ofParty (idGen t) accepted) :
    SlotSound idGen accepted' t slot := by
  cases slot <;> rw [SlotSound, hsame] <;> exact h

omit [Inhabited E] in
/-- Steps that touch one thread's slot.  The other threads see no difference if no call was made
    under their ids. -/
theorem Sound.setSlot (hs : Sound idGen m) (t : τ) (slot : QueueSlot E)
    (accepted : List (Nat × List E)) (hslot : SlotSound idGen accepted t slot)
    (hothers : ∀ u, u ≠ t → Lib.ofParty (idGen u) accepted = Lib.ofParty (idGen u) m.accepted)
    (hmade : t ∈ m.queues → ∃ id q, slot = .made id q) (busy : Busy τ) :
    Sound idGen { m with slots := Function.update m.slots t slot, accepted, busy } := by
  refine ⟨hs.nodup, fun u hu => ?_, fun u => ?_⟩
  · -- the queues registered are still made
    show ∃ id q, Function.update m.slots t slot u = .made id q
    by_cases hut : u = t
    · rw [hut, Function.update_self]
      exact hmade (hut ▸ hu)
    · rw [Function.update_of_ne hut]
      exact hs.registered u hu
  · -- this slot by assumption, the others as before
    show SlotSound idGen accepted u (Function.update m.slots t slot u)
    by_cases hut : u = t
    · rw [hut, Function.update_self]
      exact hslot
    · rw [Function.update_of_ne hut]
      exact (hs.slots u).congr (hothers u hut)

omit [Inhabited E] in
/-- A thread's queue moves on, and the reader is given what it delivers.  Here the ids have to be
    different: the call must not be counted for another thread. -/
theorem Sound.advance (hinj : Function.Injective idGen) (hs : Sound idGen m) {t : τ} {id : Nat}
    {q q' : System E} (hslot : m.slots t = .made id q) (hcursor : q'.Cursor)
    (calls : List (Nat × List E)) (hid : ∀ e ∈ calls, e.1 = id)
    (hdelivered : q'.delivered = q.delivered ++ (calls.map Prod.snd).flatten) (busy : Busy τ) :
    Sound idGen { m with slots := Function.update m.slots t (.made id q'),
                         accepted := m.accepted ++ calls, busy } := by
  have hsound := hs.slots t
  rw [hslot] at hsound
  obtain ⟨rfl, -, haccepted⟩ := hsound
  refine hs.setSlot t (.made (idGen t) q') (m.accepted ++ calls) ⟨rfl, hcursor, ?_⟩
    (fun u hu => ?_) (fun _ => ⟨_, _, rfl⟩) busy
  · -- under its own id all of the calls count
    rw [Lib.ofParty_append, List.flatten_append, haccepted, hdelivered, Lib.ofParty,
      List.filter_eq_self.2 (by simpa using hid)]
  · -- under any other none of them does
    have hnone : Lib.ofParty (idGen u) calls = [] := by
      rw [Lib.ofParty, List.filter_eq_nil_iff.2 fun e he => ?_, List.map_nil]
      rw [hid e he]
      simpa using fun heq => hu (hinj heq).symm
    rw [Lib.ofParty_append, hnone, List.append_nil]

omit [Inhabited E] in
/-- Calls are made under the id of the queue that is read. -/
theorem accepts_id (id : Nat) (q : System E) (a : Action E) : ∀ e ∈ accepts id q a, e.1 = id := by
  intro e he
  cases a with
  | deliver =>
    simp only [accepts, Option.mem_toList, Option.map_eq_some_iff] at he
    obtain ⟨b, -, rfl⟩ := he
    rfl
  | _ => cases he

omit [Inhabited E] in
/-- A sub-step of a queue that makes no call of the reader. -/
theorem Sound.onQueue (hinj : Function.Injective idGen) (hs : Sound idGen m) {t : τ}
    {f : System E → Option (System E)} (h : m.onQueue t f = some m')
    (hf : ∀ q q', q.Cursor → f q = some q' → q'.Cursor ∧ q'.delivered = q.delivered) :
    Sound idGen m' := by
  rw [ThreadQueueManager.onQueue] at h
  split at h
  · next id q hslot =>
    obtain ⟨q', hq', rfl⟩ := Option.map_eq_some_iff.1 h
    have hcursor : q.Cursor := by
      have hsound := hs.slots t
      rw [hslot] at hsound
      exact hsound.2.1
    obtain ⟨hcursor', hdelivered⟩ := hf q q' hcursor hq'
    have hnext := hs.advance hinj hslot hcursor' [] (fun _ he => (by cases he))
      (by rw [hdelivered, List.map_nil, List.flatten_nil, List.append_nil]) m.busy
    rwa [List.append_nil] at hnext
  · cases h

omit [DecidableEq τ] in
/-- Sub-steps other than a delivery. -/
theorem step_keeps {q q' : System E} {a : Action E} (ha : a ≠ .deliver) (hcursor : q.Cursor)
    (h : q.step a = some q') : q'.Cursor ∧ q'.delivered = q.delivered := by
  refine ⟨hcursor.moves (System.step_moves h), ?_⟩
  have hdelivered := step_delivered 0 h
  cases a with
  | deliver => exact absurd rfl ha
  | _ =>
    rw [hdelivered]
    exact List.append_nil _

/-- **Every step keeps it**, of whichever thread. -/
theorem Sound.step (hinj : Function.Injective idGen) (hs : Sound idGen m) (e : ManagerEvent τ E)
    (h : m.step idGen e = some m') : Sound idGen m' := by
  cases e with
  | prepare t =>
    -- a thread that prepares a queue has none registered
    simp only [ThreadQueueManager.step] at h
    split at h <;> cases h
    next hbusy hslot =>
    have hsound := hs.slots t
    rw [hslot] at hsound
    refine hs.setSlot t (.preparing (idGen t) m.policy) m.accepted ⟨rfl, hsound⟩ (fun _ _ => rfl)
      (fun hmem => ?_) m.busy
    obtain ⟨id, q, hq⟩ := hs.registered t hmem
    rw [hslot] at hq
    cases hq
  | make t =>
    -- the queue is new: nothing delivered, as nothing was accepted under its id
    simp only [ThreadQueueManager.step] at h
    split at h <;> cases h
    next id policy hslot =>
    have hsound := hs.slots t
    rw [hslot] at hsound
    exact hs.setSlot t (.made id (System.new policy)) m.accepted
      ⟨hsound.1, System.new_cursor policy, hsound.2⟩ (fun _ _ => rfl) (fun _ => ⟨_, _, rfl⟩) m.busy
  | register t =>
    -- each queue is appended once
    simp only [ThreadQueueManager.step] at h
    split at h
    · next id q hbusy hslot =>
      split at h <;> cases h
      next hmem =>
      refine ⟨Lib.nodup_append_singleton hs.nodup hmem, fun u hu => ?_, hs.slots⟩
      · rcases List.mem_append.1 hu with hu | hu
        · exact hs.registered u hu
        · rw [List.mem_singleton.1 hu]
          exact ⟨id, q, hslot⟩
    · cases h
  | produce t a =>
    simp only [ThreadQueueManager.step] at h
    split at h
    · next hcond =>
      refine hs.onQueue hinj h fun q q' hcursor hq => step_keeps ?_ hcursor hq
      rintro rfl
      cases hcond.2
    · cases h
  | startRead =>
    simp only [ThreadQueueManager.step] at h
    split at h <;> cases h
    exact hs.hold _ _
  | visit =>
    -- reading begins: nothing is delivered by that
    simp only [ThreadQueueManager.step] at h
    split at h
    · obtain ⟨m₁, hm₁, rfl⟩ := Option.map_eq_some_iff.1 h
      have hnext := hs.onQueue hinj hm₁ fun q q' hcursor hq =>
        step_keeps (by intro heq; cases heq) hcursor hq
      exact hnext.hold _ _
    · cases h
  | read a =>
    -- the sub-step that may deliver
    simp only [ThreadQueueManager.step] at h
    split at h
    · split at h
      · next id q hslot =>
        split at h
        · obtain ⟨q', hq', rfl⟩ := Option.map_eq_some_iff.1 h
          have hsound := hs.slots ‹τ›
          rw [hslot] at hsound
          exact hs.advance hinj hslot (hsound.2.1.moves (System.step_moves hq'))
            (accepts id q a) (accepts_id id q a) (step_delivered id hq') _
        · cases h
      · cases h
    · cases h
  | endRead =>
    simp only [ThreadQueueManager.step] at h
    split at h <;> cases h
    exact hs.hold _ _
  | startSet policy =>
    simp only [ThreadQueueManager.step] at h
    split at h <;> cases h
    exact hs.hold _ _
  | setNext =>
    -- a change of policy delivers nothing and loses nothing
    simp only [ThreadQueueManager.step] at h
    split at h
    · next policy t rest hbusy =>
      obtain ⟨m₁, hm₁, rfl⟩ := Option.map_eq_some_iff.1 h
      have hnext := hs.onQueue hinj hm₁ fun q q' hcursor hq => ?_
      · exact hnext.hold _ _
      · simp only [System.policyStep] at hq
        split at hq <;> cases hq
        exact ⟨hcursor.changed policy, rfl⟩
    · cases h
  | endSet =>
    simp only [ThreadQueueManager.step] at h
    split at h <;> cases h
    exact hs.hold _ _

/-- The invariant of every run from the beginning. -/
theorem sound_of_run (hinj : Function.Injective idGen) {policy : BufferingPolicy}
    {es : List (ManagerEvent τ E)} (hrun : Lib.run (step idGen) (new policy) es = some m) :
    Sound idGen m :=
  Lib.run_invariant (fun _ e _ hs h => hs.step hinj e h) es (new policy) m (sound_new idGen policy)
    hrun

/-- For ANY order of constructions, producers, reads and changes of policy (to one that asks for no
    more buffers than a queue was made for: the code would overrun its array, and here there is no
    such step), where each thread has an id of its own: what the reader was given under a thread's id
    is what the thread's queue delivered, a prefix of what the thread pushed. -/
theorem records_read_in_order (hinj : Function.Injective idGen) {policy : BufferingPolicy}
    {es : List (ManagerEvent τ E)} (hrun : Lib.run (step idGen) (new policy) es = some m) {t : τ}
    {id : Nat} {q : System E} (hslot : m.slots t = .made id q) :
    id = idGen t ∧ (Lib.ofParty id m.accepted).flatten = q.delivered ∧
      (Lib.ofParty id m.accepted).flatten <+: q.pushed := by
  have hsound := (sound_of_run hinj hrun).slots t
  rw [hslot] at hsound
  obtain ⟨rfl, hcursor, haccepted⟩ := hsound
  exact ⟨rfl, haccepted, haccepted ▸ hcursor.conveyed.isPrefix_delivered⟩

/-! ## One policy for all -/

/-- What a step can do to a thread's slot, with the guard under which it does it.  Whatever is
    proved of one slot from here on is proved by cases on this, and not on the steps. -/
inductive SlotStep (idGen : τ → Nat) (m : ThreadQueueManager τ E) (e : ManagerEvent τ E) (t : τ) :
    QueueSlot E → QueueSlot E → Prop
  | same {slot : QueueSlot E} : SlotStep idGen m e t slot slot
  | prepare : e = .prepare t → SlotStep idGen m e t .absent (.preparing (idGen t) m.policy)
  | make {id : Nat} {policy : BufferingPolicy} : e = .make t →
      SlotStep idGen m e t (.preparing id policy) (.made id (System.new policy))
  | produce {id : Nat} {q q' : System E} {a : Action E} : e = .produce t a → a.ofReader = false →
      q.step a = some q' → SlotStep idGen m e t (.made id q) (.made id q')
  | visit {id : Nat} {q q' : System E} {rest : List τ} : e = .visit →
      m.busy = .reading false (t :: rest) → q.step .startReading = some q' →
      SlotStep idGen m e t (.made id q) (.made id q')
  | read {id : Nat} {q q' : System E} {a : Action E} {rest : List τ} : e = .read a →
      m.busy = .reading true (t :: rest) → a.ofReader = true → q.step a = some q' →
      SlotStep idGen m e t (.made id q) (.made id q')
  | set {id : Nat} {q q' : System E} {policy : BufferingPolicy} {rest : List τ} : e = .setNext →
      m.busy = .setting policy (t :: rest) → q.policyStep (.setBufferingPolicy policy) = some q' →
      SlotStep idGen m e t (.made id q) (.made id q')

omit [Inhabited E] in
/-- What a step of a thread's queue has done, if it was possible. -/
theorem onQueue_eq_some {t : τ} {f : System E → Option (System E)} (h : m.onQueue t f = some m') :
    ∃ id q q', m.slots t = .made id q ∧ f q = some q' ∧
      { m with slots := Function.update m.slots t (.made id q') } = m' := by
  rw [ThreadQueueManager.onQueue] at h
  split at h
  · next id q hslot =>
    obtain ⟨q', hq', hm'⟩ := Option.map_eq_some_iff.1 h
    exact ⟨id, q, q', hslot, hq', hm'⟩
  · cases h

omit [Inhabited E] in
/-- A thread whose slot was not the one updated. -/
theorem slotStep_update [Inhabited E] {e : ManagerEvent τ E} {t u : τ} {slot : QueueSlot E}
    (h : u = t → SlotStep idGen m e t (m.slots t) slot) :
    SlotStep idGen m e u (m.slots u) (Function.update m.slots t slot u) := by
  by_cases hut : u = t
  · subst hut
    rw [Function.update_self]
    exact h rfl
  · rw [Function.update_of_ne hut]
    exact .same

/-- **The inversion of `step`**: one of these has happened to each slot.  By cases on the step; all
    but one of the slots are not touched by it. -/
theorem step_slot {e : ManagerEvent τ E} (h : m.step idGen e = some m') (u : τ) :
    SlotStep idGen m e u (m.slots u) (m'.slots u) := by
  cases e with
  | prepare t =>
    simp only [ThreadQueueManager.step] at h
    split at h <;> cases h
    next hbusy hslot =>
    refine slotStep_update fun heq => ?_
    rw [hslot]
    exact .prepare rfl
  | make t =>
    simp only [ThreadQueueManager.step] at h
    split at h <;> cases h
    next id policy hslot =>
    refine slotStep_update fun heq => ?_
    rw [hslot]
    exact .make rfl
  | register t =>
    simp only [ThreadQueueManager.step] at h
    split at h
    · split at h <;> cases h
      exact .same
    · cases h
  | produce t a =>
    simp only [ThreadQueueManager.step] at h
    split at h
    · next hcond =>
      obtain ⟨id, q, q', hslot, hq', rfl⟩ := onQueue_eq_some h
      refine slotStep_update fun heq => ?_
      rw [hslot]
      exact .produce rfl hcond.2 hq'
    · cases h
  | visit =>
    simp only [ThreadQueueManager.step] at h
    split at h
    · next t rest hbusy =>
      obtain ⟨m₁, hm₁, rfl⟩ := Option.map_eq_some_iff.1 h
      obtain ⟨id, q, q', hslot, hq', rfl⟩ := onQueue_eq_some hm₁
      refine slotStep_update fun heq => ?_
      rw [hslot]
      exact .visit rfl hbusy hq'
    · cases h
  | read a =>
    simp only [ThreadQueueManager.step] at h
    split at h
    · next t rest hbusy =>
      split at h
      · next id q hslot =>
        split at h
        · next ha =>
          obtain ⟨q', hq', rfl⟩ := Option.map_eq_some_iff.1 h
          refine slotStep_update fun heq => ?_
          rw [hslot]
          exact .read rfl hbusy ha hq'
        · cases h
      · cases h
    · cases h
  | setNext =>
    simp only [ThreadQueueManager.step] at h
    split at h
    · next policy t rest hbusy =>
      obtain ⟨m₁, hm₁, rfl⟩ := Option.map_eq_some_iff.1 h
      obtain ⟨id, q, q', hslot, hq', rfl⟩ := onQueue_eq_some hm₁
      refine slotStep_update fun heq => ?_
      rw [hslot]
      exact .set rfl hbusy hq'
    · cases h
  | _ =>
    simp only [ThreadQueueManager.step] at h
    split at h <;> cases h
    exact .same

/-- Without `set_buffering_policy` all queues are made, and stay, under one policy, and each of them
    accounts for its buffers under it. -/
structure Uniform (p : BufferingPolicy) (m : ThreadQueueManager τ E) : Prop where
  policy : m.policy = p
  notSetting : ∀ policy rest, m.busy ≠ .setting policy rest
  prepared : ∀ t id policy, m.slots t = .preparing id policy → policy = p
  made : ∀ t id q, m.slots t = .made id q → q.Accounted p

omit [DecidableEq τ] [Inhabited E] in
/-- The policy a manager is created with. -/
theorem uniform_new (p : BufferingPolicy) : Uniform p (new p : ThreadQueueManager τ E) :=
  ⟨rfl, fun _ _ h => (by cases h), fun _ _ _ h => (by cases h), fun _ _ _ h => (by cases h)⟩

/-- Only `set_buffering_policy` changes the policy, and only it enters its own loop. -/
theorem step_policy {e : ManagerEvent τ E} (he : ∀ policy, e ≠ .startSet policy)
    (hbusy : ∀ policy rest, m.busy ≠ .setting policy rest) (h : m.step idGen e = some m') :
    m'.policy = m.policy ∧ ∀ policy rest, m'.busy ≠ .setting policy rest := by
  cases e with
  | startSet policy => exact absurd rfl (he policy)
  | setNext =>
    simp only [ThreadQueueManager.step] at h
    split at h
    · exact absurd ‹_› (hbusy _ _)
    · cases h
  | endSet =>
    simp only [ThreadQueueManager.step] at h
    split at h
    · exact absurd ‹_› (hbusy _ _)
    · cases h
  | register t =>
    simp only [ThreadQueueManager.step] at h
    split at h
    · split at h <;> cases h
      exact ⟨rfl, hbusy⟩
    · cases h
  | produce t a =>
    simp only [ThreadQueueManager.step] at h
    split at h
    · obtain ⟨id, q, q', -, -, rfl⟩ := onQueue_eq_some h
      exact ⟨rfl, hbusy⟩
    · cases h
  | visit =>
    simp only [ThreadQueueManager.step] at h
    split at h
    · obtain ⟨m₁, hm₁, rfl⟩ := Option.map_eq_some_iff.1 h
      obtain ⟨id, q, q', -, -, rfl⟩ := onQueue_eq_some hm₁
      exact ⟨rfl, fun _ _ h => (by cases h)⟩
    · cases h
  | read a =>
    simp only [ThreadQueueManager.step] at h
    split at h
    · split at h
      · split at h
        · obtain ⟨q', -, rfl⟩ := Option.map_eq_some_iff.1 h
          refine ⟨rfl, fun policy rest => ?_⟩
          dsimp only
          split
          · exact fun h => (by cases h)
          · exact hbusy policy rest
        · cases h
      · cases h
    · cases h
  | prepare t =>
    simp only [ThreadQueueManager.step] at h
    split at h <;> cases h
    exact ⟨rfl, hbusy⟩
  | make t =>
    simp only [ThreadQueueManager.step] at h
    split at h <;> cases h
    exact ⟨rfl, hbusy⟩
  | _ =>
    simp only [ThreadQueueManager.step] at h
    split at h <;> cases h
    exact ⟨rfl, fun _ _ h => (by cases h)⟩

/-- Such runs keep it: queues are made under the manager's policy, and their own steps keep their
    accounts. -/
theorem Uniform.step {p : BufferingPolicy} (hm : Uniform p m) {e : ManagerEvent τ E}
    (he : ∀ policy, e ≠ .startSet policy) (h : m.step idGen e = some m') : Uniform p m' := by
  obtain ⟨hpolicy, hbusy⟩ := step_policy he hm.notSetting h
  refine ⟨hpolicy.trans hm.policy, hbusy, fun t id policy hslot => ?_, fun t id q hslot => ?_⟩
  · -- a queue being prepared takes the manager's policy
    have hstep := step_slot h t
    generalize hold : m.slots t = old at hstep
    rw [hslot] at hstep
    cases hstep with
    | same => exact hm.prepared t id policy hold
    | prepare _ => exact hm.policy
  · -- a queue that is made takes the one it was prepared with, and goes by its own steps from there
    have hstep := step_slot h t
    generalize hold : m.slots t = old at hstep
    rw [hslot] at hstep
    cases hstep with
    | same => exact hm.made t id q hold
    | make _ =>
      rw [hm.prepared t id _ hold]
      exact System.new_accounted p
    | produce _ _ hq => exact System.step_accounted _ _ _ (hm.made t id _ hold) hq
    | visit _ _ hq => exact System.step_accounted _ _ _ (hm.made t id _ hold) hq
    | read _ _ _ hq => exact System.step_accounted _ _ _ (hm.made t id _ hold) hq
    | set _ hset _ => exact absurd hset (hm.notSetting _ _)

/-! ## A read takes all that was handed over -/

end ThreadQueueManager

/-- Rounds that the loop of `read_collected` may still make; it was given the policy's number of
    them. -/
def Reader.rounds : Reader E → Nat
  | .looping n _ | .reading n _ _ | .recycling n _ _ | .notifying n _ => n
  | _ => 0

namespace System

/-- What a thread's full buffers and flushes gave away so far: delivered, in the reader's hands or
    ready. -/
def handedOver (q : System E) : List E :=
  q.delivered ++ q.reader.undelivered ++ (q.queue.ready.map Buffer.contents).flatten

/-- As much of it as the read under way comes to with the rounds it has left: the measure of what a
    read still owes. -/
def ahead (q : System E) : List E :=
  q.delivered ++ q.reader.undelivered ++
    ((q.queue.ready.take q.reader.rounds).map Buffer.contents).flatten

/-- What was pushed is handed over, but for what is in the active buffer. -/
theorem Cursor.handedOver_written {q : System E} (h : q.Cursor) :
    q.pushed = q.handedOver ++ q.queue.written := h.pushed

/-- A read that is over has delivered all that was ahead. -/
theorem ahead_idle {q : System E} (h : q.reader.isIdle = true) : q.ahead = q.delivered := by
  obtain ⟨queue, pr, rd, pu, de⟩ := q
  cases rd with
  | idle => simp [ahead, Reader.undelivered, Reader.rounds]
  | _ => cases h

/-- More buffers, more contents. -/
theorem contents_mono {xs ys : List (Buffer E)} (h : xs <+: ys) :
    (xs.map Buffer.contents).flatten <+: (ys.map Buffer.contents).flatten := by
  obtain ⟨zs, rfl⟩ := h
  rw [List.map_append, List.flatten_append]
  exact List.prefix_append _ _

variable [Inhabited E] {q q' : System E} {a : Action E}

/-- What is delivered stays so. -/
theorem delivered_moves (h : Moves q a q') : q.delivered <+: q'.delivered := by
  cases h with
  | deliver => exact List.prefix_append _ _
  | _ => exact List.prefix_refl _

/-- What is handed over stays so. -/
theorem handedOver_moves (h : Moves q a q') : q.handedOver <+: q'.handedOver := by
  cases h with
  | @handOff q rd pu de b hb hlt =>
    exact (List.prefix_append_right_inj _).mpr (contents_mono (List.prefix_append q.ready _))
  | consume hr => simp [handedOver, Reader.undelivered, hr]
  | deliver => simp [handedOver, Reader.undelivered]
  | @recycle q pr pu de n readyN b =>
    have hnone : (if q.empty.isEmpty then Reader.notifying (E := E) n readyN
        else .looping n readyN).undelivered = [] := by split <;> rfl
    simp only [handedOver, hnone]
    exact List.prefix_refl _
  | _ => exact List.prefix_refl _

/-- A read begins with rounds for all that is ready: the policy's number of buffers is a bound of
    the ready ones (`Accounted.bounded`). -/
theorem ahead_startReading {p : BufferingPolicy} (hacc : q.Accounted p)
    (h : q.step .startReading = some q') : q'.ahead = q.handedOver := by
  cases step_moves h with
  | @startReading queue pr pu de =>
    have howned := hacc.owned
    have hbounded := hacc.bounded
    have hpolicy := hacc.policy
    simp only at howned hbounded hpolicy
    have hle : queue.ready.length ≤ queue.policy.maxBuffers := by
      rw [hpolicy]
      omega
    simp only [ahead, handedOver, Reader.rounds, Reader.undelivered, List.take_of_length_le hle]

/-- Each round counts: what is ahead stays ahead, whatever the thread hands over meanwhile. -/
theorem ahead_moves (h : Moves q a q') : q.ahead <+: q'.ahead := by
  cases h with
  | startReading => simp [ahead, Reader.undelivered, Reader.rounds]
  | @handOff q rd pu de b hb hlt =>
    -- a buffer that becomes ready comes behind those the rounds are for
    refine (List.prefix_append_right_inj _).mpr (contents_mono ?_)
    rw [List.take_append]
    exact List.prefix_append _ _
  | @stop q pr pu de n readyN hstop =>
    -- the loop stops when nothing is ready, or after its last round: nothing was ahead
    have hnone : q.ready.take n = [] := by
      rcases hstop with rfl | hnil
      · rfl
      · rw [hnil, List.take_nil]
    simp [ahead, Reader.undelivered, Reader.rounds, hnone]
  | consume hr => simp [ahead, Reader.undelivered, Reader.rounds, hr]
  | deliver => simp [ahead, Reader.undelivered, Reader.rounds]
  | @recycle q pr pu de n readyN b =>
    have hnone : (if q.empty.isEmpty then Reader.notifying (E := E) n readyN
        else .looping n readyN).undelivered = [] := by split <;> rfl
    have hsame : (if q.empty.isEmpty then Reader.notifying (E := E) n readyN
        else .looping n readyN).rounds = n := by split <;> rfl
    simp only [ahead, hnone, hsame]
    exact List.prefix_refl _
  | _ => exact List.prefix_refl _

end System

namespace ThreadQueueManager

variable {τ : Type} {idGen : τ → Nat} {m m' m₀ : ThreadQueueManager τ E}

/-- The read under way is still to come to a thread's queue: it is among those left, and not the one
    being read. -/
def Awaits (t : τ) : Busy τ → Prop
  | .reading false rest => t ∈ rest
  | .reading true rest => t ∈ rest.tail
  | _ => False

/-- Where `due`, handed over by a thread, is: delivered, or the read has still to come to the
    thread's queue, or it is at it with enough rounds left.  The second becomes the third when the
    queue is visited, the third becomes the first when it is left. -/
def Draining (due : List E) (t : τ) (busy : Busy τ) (q : System E) : Prop :=
  due <+: q.delivered ∨ (Awaits t busy ∧ due <+: q.handedOver) ∨
    ∃ rest, busy = .reading true (t :: rest) ∧ due <+: q.ahead

/-- What the threads had handed over in `m₀` they have in `m`; it holds from `m₀` on, read or not.
    -/
def Keeps (m₀ m : ThreadQueueManager τ E) : Prop :=
  ∀ t ∈ m₀.queues, t ∈ m.queues ∧ ∀ id q₀, m₀.slots t = .made id q₀ →
    ∃ q, m.slots t = .made id q ∧ q₀.handedOver <+: q.handedOver

/-- A read that takes it is under way, or was made: it holds from the beginning of the read on. -/
def Collecting (m₀ m : ThreadQueueManager τ E) : Prop :=
  ∀ t ∈ m₀.queues, ∀ id q₀, m₀.slots t = .made id q₀ →
    ∃ q, m.slots t = .made id q ∧ Draining q₀.handedOver t m.busy q

/-- These calls of the reader gave it, under the threads' own ids and in order: what holds in the
    end. -/
def Due (m₀ : ThreadQueueManager τ E) (calls : List (Nat × List E)) : Prop :=
  ∀ t ∈ m₀.queues, ∀ id q₀, m₀.slots t = .made id q₀ →
    q₀.handedOver <+: (Lib.ofParty id calls).flatten

/-- Later calls do not take back what was given. -/
theorem Due.append {calls : List (Nat × List E)} (h : Due m₀ calls) (more : List (Nat × List E)) :
    Due m₀ (calls ++ more) := by
  intro t ht id q₀ hq₀
  rw [Lib.ofParty_append, List.flatten_append]
  exact (h t ht id q₀ hq₀).trans (List.prefix_append _ _)

/-- The state itself is where it begins. -/
theorem keeps_refl (m : ThreadQueueManager τ E) : Keeps m m :=
  fun _ ht => ⟨ht, fun _ q hq => ⟨q, hq, List.prefix_refl _⟩⟩

variable [DecidableEq τ] [Inhabited E]

omit [DecidableEq τ] in
/-- A change of policy hands nothing over and takes nothing back. -/
theorem handedOver_policyStep {q q' : System E} {policy : BufferingPolicy}
    (h : q.policyStep (.setBufferingPolicy policy) = some q') : q'.handedOver = q.handedOver := by
  simp only [System.policyStep] at h
  split at h <;> cases h
  rfl

/-- No step takes a queue away. -/
theorem step_queues {e : ManagerEvent τ E} (h : m.step idGen e = some m') {t : τ} (ht : t ∈ m.queues) :
    t ∈ m'.queues := by
  cases e with
  | register u =>
    simp only [ThreadQueueManager.step] at h
    split at h
    · split at h <;> cases h
      exact List.mem_append_left _ ht
    · cases h
  | produce u a =>
    simp only [ThreadQueueManager.step] at h
    split at h
    · obtain ⟨id, q, q', -, -, rfl⟩ := onQueue_eq_some h
      exact ht
    · cases h
  | visit | setNext =>
    simp only [ThreadQueueManager.step] at h
    split at h
    · obtain ⟨m₁, hm₁, rfl⟩ := Option.map_eq_some_iff.1 h
      obtain ⟨id, q, q', -, -, rfl⟩ := onQueue_eq_some hm₁
      exact ht
    · cases h
  | read a =>
    simp only [ThreadQueueManager.step] at h
    split at h
    · split at h
      · split at h
        · obtain ⟨q', -, rfl⟩ := Option.map_eq_some_iff.1 h
          exact ht
        · cases h
      · cases h
    · cases h
  | prepare u | make u | startRead | endRead | startSet policy | endSet =>
    simp only [ThreadQueueManager.step] at h
    split at h <;> cases h
    exact ht

/-- A queue that is made stays, under its id, and what it handed over stays. -/
theorem step_made {e : ManagerEvent τ E} (h : m.step idGen e = some m') {t : τ} {id : Nat}
    {q : System E} (hslot : m.slots t = .made id q) :
    ∃ q', m'.slots t = .made id q' ∧ q.handedOver <+: q'.handedOver := by
  have hstep := step_slot h t
  rw [hslot] at hstep
  generalize hnew : m'.slots t = new at hstep
  cases hstep with
  | same => exact ⟨q, rfl, List.prefix_refl _⟩
  | produce _ _ hq => exact ⟨_, rfl, System.handedOver_moves (System.step_moves hq)⟩
  | visit _ _ hq => exact ⟨_, rfl, System.handedOver_moves (System.step_moves hq)⟩
  | read _ _ _ hq => exact ⟨_, rfl, System.handedOver_moves (System.step_moves hq)⟩
  | set _ _ hq => exact ⟨_, rfl, (handedOver_policyStep hq) ▸ List.prefix_refl _⟩

/-- From `m₀` on nothing is taken back. -/
theorem Keeps.step (hk : Keeps m₀ m) {e : ManagerEvent τ E} (h : m.step idGen e = some m') :
    Keeps m₀ m' := by
  intro t ht
  obtain ⟨hmem, hmade⟩ := hk t ht
  refine ⟨step_queues h hmem, fun id q₀ hq₀ => ?_⟩
  obtain ⟨q, hq, hkept⟩ := hmade id q₀ hq₀
  obtain ⟨q', hq', hgrown⟩ := step_made h hq
  exact ⟨q', hq', hkept.trans hgrown⟩

/-- A read that begins comes to every queue. -/
theorem Keeps.startRead (hk : Keeps m₀ m) (h : m.step idGen .startRead = some m') :
    Collecting m₀ m' := by
  simp only [ThreadQueueManager.step] at h
  split at h <;> cases h
  intro t ht id q₀ hq₀
  obtain ⟨hmem, hmade⟩ := hk t ht
  obtain ⟨q, hq, hkept⟩ := hmade id q₀ hq₀
  exact ⟨q, hq, .inr (.inl ⟨hmem, hkept⟩)⟩

section Draining

variable {due : List E} {t : τ} {id : Nat} {q : System E}

omit [DecidableEq τ] in
/-- A sub-step of the thread's queue that leaves the loop over the queues where it is. -/
theorem Draining.moves {busy : Busy τ} {q' : System E} {a : Action E} (hd : Draining due t busy q)
    (hq : q.step a = some q') : Draining due t busy q' := by
  have hmoves := System.step_moves hq
  rcases hd with hd | ⟨hawaits, hd⟩ | ⟨rest, hbusy, hd⟩
  · exact .inl (hd.trans (System.delivered_moves hmoves))
  · exact .inr (.inl ⟨hawaits, hd.trans (System.handedOver_moves hmoves)⟩)
  · exact .inr (.inr ⟨rest, hbusy, hd.trans (System.ahead_moves hmoves)⟩)

omit [Inhabited E] in
/-- Another thread's slot is updated. -/
theorem slots_update_other {u : τ} {slot : QueueSlot E} (hslot : m.slots t = .made id q) (hu : t ≠ u) :
    Function.update m.slots u slot t = .made id q :=
  (Function.update_of_ne hu _ _).trans hslot

/-- The read comes to the next queue. -/
theorem Draining.visit {p : BufferingPolicy} (huniform : Uniform p m) (hslot : m.slots t = .made id q)
    (hd : Draining due t m.busy q) (h : m.step idGen .visit = some m') :
    ∃ q', m'.slots t = .made id q' ∧ Draining due t m'.busy q' := by
  simp only [ThreadQueueManager.step] at h
  split at h
  case h_2 => cases h
  next u rest hbusy =>
  obtain ⟨m₁, hm₁, rfl⟩ := Option.map_eq_some_iff.1 h
  obtain ⟨jd, r, r', hr, hr', rfl⟩ := onQueue_eq_some hm₁
  rw [hbusy] at hd
  by_cases hut : t = u
  · -- to this thread's: what was awaited is ahead now
    subst hut
    cases hslot.symm.trans hr
    refine ⟨r', Function.update_self .., ?_⟩
    rcases hd with hd | ⟨-, hd⟩ | ⟨_, hbusy', -⟩
    · exact .inl (hd.trans (System.delivered_moves (System.step_moves hr')))
    · exact .inr (.inr ⟨rest, rfl, (System.ahead_startReading (huniform.made t _ _ hslot) hr') ▸ hd⟩)
    · cases hbusy'
  · -- to another's: this one is awaited as before
    refine ⟨q, slots_update_other hslot hut, ?_⟩
    rcases hd with hd | ⟨hawaits, hd⟩ | ⟨_, hbusy', -⟩
    · exact .inl hd
    · exact .inr (.inl ⟨(List.mem_cons.1 hawaits).resolve_left hut, hd⟩)
    · cases hbusy'

/-- The reader inside some queue goes on, and may be done with it. -/
theorem Draining.read (hslot : m.slots t = .made id q) (hd : Draining due t m.busy q) {a : Action E}
    (h : m.step idGen (.read a) = some m') :
    ∃ q', m'.slots t = .made id q' ∧ Draining due t m'.busy q' := by
  simp only [ThreadQueueManager.step] at h
  split at h
  case h_2 => cases h
  next u rest hbusy =>
  split at h
  case h_2 => cases h
  next jd r hr =>
  split at h
  case isFalse => cases h
  next ha =>
  obtain ⟨r', hr', rfl⟩ := Option.map_eq_some_iff.1 h
  rw [hbusy] at hd
  -- the loop over the queues goes on, or stays where it is
  have hawaits : Awaits t (.reading true (u :: rest)) →
      Awaits t (if r'.reader.isIdle then .reading false rest else m.busy) := by
    intro hmem
    split
    · exact hmem
    · rw [hbusy]
      exact hmem
  by_cases hut : t = u
  · subst hut
    cases hslot.symm.trans hr
    have hmoves := System.step_moves hr'
    refine ⟨r', Function.update_self .., ?_⟩
    rcases hd with hd | ⟨hmem, hd⟩ | ⟨_, -, hd⟩
    · exact .inl (hd.trans (System.delivered_moves hmoves))
    · exact .inr (.inl ⟨hawaits hmem, hd.trans (System.handedOver_moves hmoves)⟩)
    · have hd := hd.trans (System.ahead_moves hmoves)
      cases hidle : r'.reader.isIdle with
      | true => exact .inl (System.ahead_idle hidle ▸ hd)
      | false => exact .inr (.inr ⟨rest, hbusy, hd⟩)
  · -- the queue of another thread
    refine ⟨q, slots_update_other hslot hut, ?_⟩
    rcases hd with hd | ⟨hmem, hd⟩ | ⟨_, hbusy', -⟩
    · exact .inl hd
    · exact .inr (.inl ⟨hawaits hmem, hd⟩)
    · cases hbusy'
      exact absurd rfl hut

/-- One step, where the policy is not set.  What the other threads do does not matter, and what the
    thread itself does only adds. -/
theorem Draining.step {p : BufferingPolicy} (huniform : Uniform p m) {e : ManagerEvent τ E}
    (hset : ∀ policy, e ≠ .startSet policy) (hslot : m.slots t = .made id q)
    (hd : Draining due t m.busy q) (h : m.step idGen e = some m') :
    ∃ q', m'.slots t = .made id q' ∧ Draining due t m'.busy q' := by
  cases e with
  | visit => exact hd.visit huniform hslot h
  | read a => exact hd.read hslot h
  | startSet policy => exact absurd rfl (hset policy)
  | produce u a =>
    simp only [ThreadQueueManager.step] at h
    split at h
    case isFalse => cases h
    obtain ⟨jd, r, r', hr, hr', rfl⟩ := onQueue_eq_some h
    by_cases hut : t = u
    · subst hut
      cases hslot.symm.trans hr
      exact ⟨r', Function.update_self .., hd.moves hr'⟩
    · exact ⟨q, slots_update_other hslot hut, hd⟩
  | prepare u =>
    simp only [ThreadQueueManager.step] at h
    split at h <;> cases h
    next hu =>
    refine ⟨q, slots_update_other hslot ?_, hd⟩
    rintro rfl
    cases hslot.symm.trans hu
  | make u =>
    simp only [ThreadQueueManager.step] at h
    split at h <;> cases h
    next hu =>
    refine ⟨q, slots_update_other hslot ?_, hd⟩
    rintro rfl
    cases hslot.symm.trans hu
  | register u =>
    simp only [ThreadQueueManager.step] at h
    split at h
    · split at h <;> cases h
      exact ⟨q, hslot, hd⟩
    · cases h
  | startRead | endRead =>
    -- no queue is awaited, or being read
    simp only [ThreadQueueManager.step] at h
    split at h <;> cases h
    next hbusy =>
    rw [hbusy] at hd
    refine ⟨q, hslot, .inl ?_⟩
    rcases hd with hd | ⟨hawaits, -⟩ | ⟨_, hbusy', -⟩
    · exact hd
    · simp [Awaits] at hawaits
    · cases hbusy'
  | setNext | endSet =>
    simp only [ThreadQueueManager.step] at h
    split at h
    · exact absurd ‹_› (huniform.notSetting _ _)
    · cases h

end Draining

/-- Of all threads at once. -/
theorem Collecting.step {p : BufferingPolicy} (hc : Collecting m₀ m) (huniform : Uniform p m)
    {e : ManagerEvent τ E} (hset : ∀ policy, e ≠ .startSet policy) (h : m.step idGen e = some m') :
    Collecting m₀ m' := by
  intro t ht id q₀ hq₀
  obtain ⟨q, hq, hd⟩ := hc t ht id q₀ hq₀
  exact hd.step huniform hset hq h

omit [DecidableEq τ] [Inhabited E] in
/-- **When the read has been to all queues**, the reader was given all of it: nothing is awaited any
    more, and no queue is being read. -/
theorem Collecting.due (hc : Collecting m₀ m) (hsound : Sound idGen m)
    (hover : m.busy = .reading false []) : Due m₀ m.accepted := by
  intro t ht id q₀ hq₀
  obtain ⟨q, hq, hd⟩ := hc t ht id q₀ hq₀
  have hslot := hsound.slots t
  rw [hq] at hslot
  rw [hslot.1, hslot.2.2]
  rw [hover] at hd
  rcases hd with hd | ⟨hawaits, -⟩ | ⟨_, hbusy, -⟩
  · exact hd
  · exact absurd hawaits List.not_mem_nil
  · cases hbusy

/-- A thread that does not push has pushed what it had. -/
theorem step_pushed {e : ManagerEvent τ E} {t : τ} {id : Nat} {q : System E}
    (hquiet : e ≠ .produce t .push) (h : m.step idGen e = some m') (hslot : m.slots t = .made id q) :
    ∃ q', m'.slots t = .made id q' ∧ q'.pushed = q.pushed := by
  have hstep := step_slot h t
  rw [hslot] at hstep
  generalize hnew : m'.slots t = new at hstep
  have hkept : ∀ {a : Action E} {q' : System E}, a ≠ .push → q.step a = some q' →
      q'.pushed = q.pushed := by
    intro a q' ha hq
    cases System.step_moves hq with
    | push _ => exact absurd rfl ha
    | _ => rfl
  cases hstep with
  | same => exact ⟨q, rfl, rfl⟩
  | produce he _ hq =>
    refine ⟨_, rfl, hkept ?_ hq⟩
    rintro rfl
    exact hquiet he
  | visit _ _ hq => exact ⟨_, rfl, hkept (by intro heq; cases heq) hq⟩
  | read _ _ ha hq =>
    refine ⟨_, rfl, hkept ?_ hq⟩
    rintro rfl
    cases ha
  | set _ _ hq =>
    simp only [System.policyStep] at hq
    split at hq <;> cases hq
    exact ⟨_, rfl, rfl⟩

/-- Nor in a run without a push of its own.  By recursion on the run. -/
theorem run_pushed {t : τ} {id : Nat} : ∀ {es : List (ManagerEvent τ E)} {m m' : ThreadQueueManager τ E}
    {q : System E}, .produce t .push ∉ es → Lib.run (step idGen) m es = some m' →
    m.slots t = .made id q → ∃ q', m'.slots t = .made id q' ∧ q'.pushed = q.pushed
  | [], m, m', q, _, hrun, hslot => by
    obtain rfl : m = m' := by simpa using hrun
    exact ⟨q, hslot, rfl⟩
  | e :: es, m, m', q, hquiet, hrun, hslot => by
    obtain ⟨m₁, hstep, hrest⟩ := Lib.run_cons_eq_some.1 hrun
    obtain ⟨q₁, hq₁, hpushed₁⟩ := step_pushed
      (fun he => hquiet (he ▸ List.mem_cons_self)) hstep hslot
    obtain ⟨q', hq', hpushed⟩ := run_pushed
      (fun hmem => hquiet (List.mem_cons_of_mem _ hmem)) hrest hq₁
    exact ⟨q', hq', hpushed.trans hpushed₁⟩

/-- Without a change of policy, and with an id for each thread, a `read_collected` gives the reader,
    by the time it returns, all that any thread had handed over when it began, in order and under
    the thread's own id, whatever all threads do meanwhile: the bound of the inner loop is never too
    low.  For a thread that has flushed (its exit handler did, say) and pushes no more this is ALL
    that it pushed. -/
theorem flushed_read_once (hinj : Function.Injective idGen) {p : BufferingPolicy}
    {es es' : List (ManagerEvent τ E)} (hes : ∀ e ∈ es, ∀ policy, e ≠ .startSet policy)
    (hrun : Lib.run (step idGen) (new p) es = some m)
    (hes' : ∀ e ∈ es', ∀ policy, e ≠ .startSet policy)
    (hread : Lib.run (step idGen) m (.startRead :: es') = some m')
    (hover : m'.busy = .reading false []) :
    ∀ t ∈ m.queues, ∀ id q, m.slots t = .made id q →
      q.handedOver <+: (Lib.ofParty id m'.accepted).flatten ∧
      (q.queue.written = [] → .produce t .push ∉ es' →
        (Lib.ofParty id m'.accepted).flatten = q.pushed) := by
  have hsound := sound_of_run hinj hrun
  have huniform : Uniform p m := Lib.run_invariant_on
    (fun _ _ _ he hm h => hm.step he h) es (new p) m hes (uniform_new p) hrun
  obtain ⟨m₁, hstart, hrest⟩ := Lib.run_cons_eq_some.1 hread
  obtain ⟨hsound', -, hcollecting⟩ := Lib.run_invariant_on
    (P := fun n => Sound idGen n ∧ Uniform p n ∧ Collecting m n)
    (fun _ e _ he hn h => ⟨hn.1.step hinj e h, hn.2.1.step he h, hn.2.2.step hn.2.1 he h⟩) es' m₁ m' hes'
    ⟨hsound.step hinj _ hstart, huniform.step (by intro _ heq; cases heq) hstart,
      (keeps_refl m).startRead hstart⟩ hrest
  intro t ht id q hslot
  have hdue := hcollecting.due hsound' hover t ht id q hslot
  refine ⟨hdue, fun hwritten hquiet => ?_⟩
  have hcursor : q.Cursor := by
    have h := hsound.slots t
    rw [hslot] at h
    exact h.2.1
  obtain ⟨q', hslot', hpushed⟩ := run_pushed
    (by simpa using hquiet) hread hslot
  have hgiven := hsound'.slots t
  rw [hslot'] at hgiven
  rw [hgiven.1] at hdue ⊢
  -- what was delivered is what was pushed, no more and no less
  rw [hgiven.2.2] at hdue ⊢
  have hall : q.handedOver = q.pushed := by rw [hcursor.handedOver_written, hwritten, List.append_nil]
  rw [hall] at hdue
  exact List.IsPrefix.eq_of_length_le (hpushed ▸ hgiven.2.1.conveyed.isPrefix_delivered) hdue.length_le

/-- A thread that pushed a record and flushed, and another one that is being given its queue. -/
def flushedThread : List (ManagerEvent Nat Nat) :=
  [.prepare 5, .make 5, .register 5, .prepare 6, .produce 5 (.write 7), .produce 5 .push,
    .produce 5 .flush, .produce 5 .handOff]

def readOnce : List (ManagerEvent Nat Nat) :=
  [.visit, .make 6, .read .consume, .read .deliver, .produce 5 .take, .read .recycle,
    .read .notify, .read .consume, .read .finish]

theorem flushed_read_once_five :
    ∃ m m', Lib.run (step id) (new System.twoBuffers) flushedThread = some m ∧
      Lib.run (step id) m (.startRead :: readOnce) = some m' ∧
      (Lib.ofParty 5 m'.accepted).flatten = [7] := by
  refine ⟨_, _, rfl, rfl, ?_⟩
  exact (flushed_read_once Function.injective_id (by simp [flushedThread])
    (rfl : Lib.run (step id) (new System.twoBuffers) flushedThread = _) (by simp [readOnce])
    (rfl : Lib.run (step id) _ (.startRead :: readOnce) = _) rfl 5 (by decide) 5 _ rfl).2 rfl
    (by simp [readOnce])

theorem records_read_in_order_five :
    ∃ m q, Lib.run (step id) (new System.twoBuffers) (flushedThread ++ .startRead :: readOnce)
        = some m ∧
      m.slots 5 = .made 5 q ∧ q.pushed = [7] ∧ (Lib.ofParty 5 m.accepted).flatten <+: q.pushed := by
  refine ⟨_, _, rfl, rfl, rfl, ?_⟩
  exact (records_read_in_order Function.injective_id
    (rfl : Lib.run (step id) (new System.twoBuffers) (flushedThread ++ .startRead :: readOnce) = _)
    (t := 5) rfl).2.2

end ThreadQueueManager

end MicroProfiler
