/-
  `buffers_queue` is a lossless FIFO.

  At any moment the records pushed are, in this order: those delivered, those in the buffer the
  reader is about to pass on, those of the ready buffers, and those the active buffer holds below
  the cursor.  That is `Conveyed`; the hand-off works because the cursor and `_n_left` always add up
  to the buffer size (`System.Accounted.cursor`), so the size it stamps is the cursor.

  From it: what was delivered is always a prefix of what was pushed, and after a flush, once a read
  finds nothing ready, it is all of it (`queue_lossless`).
-/
import MicroProfiler.Collector.BuffersAccounting

namespace MicroProfiler

variable {E : Type}

/-- The records of the active buffer. -/
def BuffersQueue.written (q : BuffersQueue E) : List E :=
  match q.active with
  | none => []
  | some b => b.data.take q.ptr

/-- The records in the reader's hands, not passed on yet. -/
def Reader.undelivered : Reader E → List E
  | .reading _ _ b => b.contents
  | _ => []

namespace System

/-- The record of the slot under the cursor joins those below it. -/
theorem written_push {q : BuffersQueue E} {r : E} (hr : q.current = some r) :
    q.push.written = q.written ++ [r] := by
  obtain ⟨b, hb, hget⟩ := Option.bind_eq_some_iff.mp hr
  simp only [BuffersQueue.written, BuffersQueue.push, hb]
  rw [List.take_add_one, hget]
  rfl

/-- Writing to `current()` touches no record pushed. -/
theorem written_write {q : BuffersQueue E} {b : Buffer E} (hb : q.active = some b) (r : E) :
    ({ q with active := some (b.write q.ptr r) } : BuffersQueue E).written = q.written := by
  simp only [BuffersQueue.written, hb, Buffer.write]
  exact List.take_set_of_le le_rfl

/-- Every record pushed is where its turn puts it. -/
structure Conveyed (s : System E) : Prop where
  pushed : s.pushed = s.delivered ++ s.reader.undelivered
    ++ (s.queue.ready.map Buffer.contents).flatten ++ s.queue.written

theorem Conveyed.isPrefix_delivered {s : System E} (h : Conveyed s) : s.delivered <+: s.pushed := by
  rw [h.pushed, List.append_assoc, List.append_assoc]
  exact List.prefix_append _ _

variable [Inhabited E]

/-- Nothing is pushed. -/
theorem new_conveyed (p : BufferingPolicy) : Conveyed (new p : System E) := ⟨rfl⟩

/-- **One sub-step** keeps every record in its place. -/
theorem moves_conveyed {p : BufferingPolicy} {s s' : System E} {a : Action E}
    (hacc : Accounted p s) (h : Conveyed s) (hmove : Moves s a s') : Conveyed s' := by
  obtain ⟨hpushed⟩ := h
  cases hmove with
  -- the producer
  | write hb => exact ⟨by rw [written_write hb]; exact hpushed⟩
  | @push q rd pu de r hr =>
    refine ⟨?_⟩
    show pu ++ [r] = de ++ rd.undelivered ++ (q.ready.map Buffer.contents).flatten ++ q.push.written
    rw [written_push hr, ← List.append_assoc, ← hpushed]
  | flush => exact ⟨hpushed⟩
  | @handOff q rd pu de b hb hlt =>
    refine ⟨?_⟩
    -- the size that is stamped is the cursor
    have hsize : bufferSize - q.nLeft = q.ptr := by
      have : q.ptr + q.nLeft = bufferSize := hacc.cursor (by rw [hb]; rfl)
      omega
    simp only [BuffersQueue.written, hb] at hpushed
    simp only [hpushed, BuffersQueue.written, hsize, List.map_append, List.map_cons, List.map_nil,
      List.flatten_append, List.flatten_cons, List.flatten_nil, List.append_nil,
      List.append_assoc, Buffer.contents]
  -- a producer that sleeps or wakes moves no record
  | sleep _ => exact ⟨hpushed⟩
  | @take q rd pu de b empty he =>
    -- after the hand-off nothing is active
    have hnone : q.active = none := by
      have := mt hacc.hasActive.mp (by exact id)
      simpa using this
    simp only [BuffersQueue.written, hnone] at hpushed
    exact ⟨hpushed⟩
  | wake _ => exact ⟨hpushed⟩
  -- the reader
  | startReading => exact ⟨hpushed⟩
  | stop _ => exact ⟨hpushed⟩
  | @consume q pr pu de n readyN b ready hr =>
    refine ⟨?_⟩
    simp only [Reader.undelivered, hr, List.map_cons, List.flatten_cons, List.append_nil] at hpushed
    simp only [Reader.undelivered, hpushed, List.append_assoc]
    rfl
  | deliver =>
    refine ⟨?_⟩
    simp only [Reader.undelivered] at hpushed
    simp only [Reader.undelivered, hpushed, List.append_nil]
  | @recycle q pr pu de n readyN b =>
    refine ⟨?_⟩
    have hnone : (if q.empty.isEmpty then Reader.notifying (E := E) n readyN
        else .looping n readyN).undelivered = [] := by split <;> rfl
    rw [hnone]
    exact hpushed
  | notify => exact ⟨hpushed⟩
  | finish => exact ⟨hpushed⟩

/-- Both invariants over a run: where records are rests on the counts. -/
theorem run_conveyed {p : BufferingPolicy} {actions : List (Action E)} {s : System E}
    (h : Lib.run step (new p) actions = some s) : Accounted p s ∧ Conveyed s := by
  have hstep : ∀ (s : System E) (a : Action E) (s' : System E), Accounted p s ∧ Conveyed s →
      s.step a = some s' → Accounted p s' ∧ Conveyed s' := by
    intro s a s' ⟨hacc, hcon⟩ hs
    exact ⟨step_accounted s a s' hacc hs, moves_conveyed hacc hcon (step_moves hs)⟩
  exact Lib.run_invariant hstep actions (new p) s ⟨new_accounted p, new_conveyed p⟩ h

/-! ## After a flush -/

/-- Once handed off, nothing is in the active buffer until the next `push`. -/
theorem step_written_nil (s : System E) (a : Action E) (s' : System E) (ha : a ≠ .push)
    (h : s.queue.written = []) (hstep : s.step a = some s') : s'.queue.written = [] := by
  cases step_moves hstep with
  | write hb => rw [written_write hb]; exact h
  | push _ => exact absurd rfl ha
  | handOff _ _ => rfl
  | take _ => rfl
  | _ => exact h

/-- Without a `push`, what has all been delivered stays so. -/
theorem step_all_delivered {p : BufferingPolicy} (s : System E) (a : Action E) (s' : System E)
    (ha : a ≠ .push) (h : (Accounted p s ∧ Conveyed s) ∧ s.delivered = s.pushed)
    (hstep : s.step a = some s') :
    (Accounted p s' ∧ Conveyed s') ∧ s'.delivered = s'.pushed := by
  obtain ⟨⟨hacc, hcon⟩, hall⟩ := h
  have hcon' := moves_conveyed hacc hcon (step_moves hstep)
  refine ⟨⟨step_accounted s a s' hacc hstep, hcon'⟩, ?_⟩
  cases step_moves hstep with
  | push _ => exact absurd rfl ha
  | @deliver q pr pu de n readyN b =>
    -- what it passes on can only be empty
    have hle := hcon'.isPrefix_delivered.length_le
    have hlen := congrArg List.length hall
    exact hcon'.isPrefix_delivered.eq_of_length (by
      simp only [List.length_append] at hle hlen ⊢
      omega)
  | _ => exact hall

/-- The reader is about to look into the ready queue, and there is nothing in it. -/
def FindsNothing (s : System E) : Prop :=
  (∃ n readyN, s.reader = .looping (n + 1) readyN) ∧ s.queue.ready = []

/-- **`buffers_queue` is a lossless FIFO.**  In every reachable state the ranges passed to the
    reader, joined, are a prefix of the records pushed.  And after a hand-off (`flush`) with no
    `push` since, from the moment a `read_collected` call finds nothing ready, they are all of
    them. -/
theorem queue_lossless (p : BufferingPolicy) :
    (∀ (actions : List (Action E)) (s : System E), Lib.run step (new p) actions = some s →
      s.delivered <+: s.pushed) ∧
    ∀ (before between after : List (Action E)) (s s' : System E),
      Lib.run step (new p) (before ++ .handOff :: between) = some s →
      FindsNothing s → Lib.run step s (.consume :: after) = some s' →
      (∀ a ∈ between, a ≠ .push) → (∀ a ∈ after, a ≠ .push) → s'.delivered = s'.pushed := by
  refine ⟨fun actions s h => (run_conveyed h).2.isPrefix_delivered, ?_⟩
  intro before between after s s' hrun hnothing hafter hbetween hno
  obtain ⟨hacc, hcon⟩ := run_conveyed hrun
  -- from the hand-off to `s` the active buffer holds no record
  have hwritten : s.queue.written = [] := by
    obtain ⟨s₁, -, hrest⟩ := Lib.run_append_eq_some.mp hrun
    obtain ⟨s₂, hoff, hrest⟩ := Lib.run_cons_eq_some.mp hrest
    refine Lib.run_invariant_on step_written_nil between s₂ s hbetween ?_ hrest
    cases step_moves hoff with
    | handOff _ _ => rfl
  -- hence in `s` everything pushed has been delivered
  have hall : s.delivered = s.pushed := by
    obtain ⟨⟨n, readyN, hreader⟩, hready⟩ := hnothing
    have hpushed := hcon.pushed
    rw [hreader, hready, hwritten] at hpushed
    simpa [Reader.undelivered] using hpushed.symm
  -- the read that finds nothing, and what comes after it, push nothing
  have hall' : ∀ a ∈ Action.consume :: after, a ≠ Action.push := by
    intro a ha
    rcases List.mem_cons.mp ha with rfl | ha
    · exact nofun
    · exact hno a ha
  exact (Lib.run_invariant_on step_all_delivered _ s s' hall' ⟨⟨hacc, hcon⟩, hall⟩ hafter).2

/-- A record, a partial flush, and a read that looks once more than there are buffers. -/
theorem queue_lossless_flushed :
    ∃ s s' : System Nat,
      Lib.run step (new twoBuffers) ([.write 7, .push, .flush] ++
        .handOff :: [.startReading, .consume, .deliver, .recycle]) = some s ∧
      Lib.run step s [.consume] = some s' ∧ s'.delivered = s'.pushed ∧ s'.pushed = [7] := by
  refine ⟨_, _, rfl, rfl, ?_, rfl⟩
  exact (queue_lossless twoBuffers).2 [.write 7, .push, .flush]
    [.startReading, .consume, .deliver, .recycle] [] _ _ rfl ⟨⟨0, 1, rfl⟩, rfl⟩ rfl
    (by decide) (by decide)

end System

end MicroProfiler
