/-
  `collector/buffers_queue.h`: the double-buffered channel between an instrumented thread and the
  analyzer, with its two unsynchronised parties.

  1. **The code** — `BuffersQueue` and its operations (`current`, `push`, the two halves of
     `flush`, the pieces of `read_collected`, `adjustEmptyBuffers`), over a `BufferingPolicy` that
     carries what its constructor establishes.  The array of empty buffers and its top pointer are
     a list, top first (slots from the pointer up hold no buffer); uninitialised data is `default`;
     `size_t` sums are taken modulo 2^64.

  2. **The two parties** — `System.step`: one action is one sub-step of the producer or of the
     reader, a mutex-protected section being one action.  Local variables live in the control state
     (`Producer`, `Reader`); `pushed` and `delivered` are ghosts.  `none` is a sub-step that is not
     the party's next one, or one that would break memory: a null active buffer, an overflowing
     ready queue.  `Moves` says once what each sub-step does; the modules on accounting and on
     the order of records argue about `Moves` only.
-/
import MicroProfiler.Lib.Runs
import Mathlib.Algebra.Order.Field.Rat
import Mathlib.Tactic.Linarith

namespace MicroProfiler

/-! ## The policy -/

/-- `buffering_policy::buffer_size`, in entries. -/
def bufferSize : Nat := 384

/-- One past the largest `size_t`. -/
def sizeTop : Nat := 2 ^ 64

/-- `class buffering_policy`, with what its constructor establishes. -/
structure BufferingPolicy where
  maxBuffers : Nat
  maxEmpty : Nat
  minEmpty : Nat
  maxBuffers_pos : 0 < maxBuffers
  maxEmpty_pos : 0 < maxEmpty
  minEmpty_lt : minEmpty < maxBuffers
  minEmpty_le : minEmpty ≤ maxEmpty
  maxEmpty_le : maxEmpty ≤ 2 * maxBuffers
  maxBuffers_lt : 3 * maxBuffers + 1 < sizeTop
deriving DecidableEq, Repr

/-- No water mark of a queue with this policy wraps. -/
theorem BufferingPolicy.fits (policy : BufferingPolicy) :
    policy.maxBuffers + policy.maxEmpty < sizeTop := by
  have := policy.maxEmpty_le
  have := policy.maxBuffers_lt
  omega

/-- As many buffers as hold `max_allocation` entries, at least one. -/
def BufferingPolicy.buffersFor (maxAllocation : Nat) : Nat :=
  max (maxAllocation / bufferSize + if maxAllocation % bufferSize = 0 then 0 else 1) 1

theorem BufferingPolicy.buffersFor_fits {maxAllocation : Nat} (h : maxAllocation < sizeTop) :
    0 < buffersFor maxAllocation ∧ 3 * buffersFor maxAllocation + 1 < sizeTop := by
  have hle : buffersFor maxAllocation ≤ maxAllocation / 384 + 1 := by
    unfold buffersFor bufferSize
    split <;> omega
  refine ⟨Nat.le_max_right _ 1, ?_⟩
  simp only [sizeTop] at h ⊢
  omega

/-- The constructor; `none` is its `invalid_argument`.  `scale f n` stands for
    `static_cast<size_t>(f * n)`: the product of doubles, of which only the order of magnitude is
    used, and that it grows with the factor. -/
def BufferingPolicy.make (scale : ℚ → Nat → Nat)
    (hscale : ∀ f n, 0 ≤ f → f ≤ 1 → scale f n ≤ 2 * n)
    (hmono : ∀ f g n, f ≤ g → scale f n ≤ scale g n)
    (maxAllocation : Nat) (hallocation : maxAllocation < sizeTop)
    (maxEmptyFactor minEmptyFactor : ℚ) : Option BufferingPolicy :=
  let maxBuffers := buffersFor maxAllocation
  if h : maxEmptyFactor < 0 ∨ 1 < maxEmptyFactor ∨ minEmptyFactor < 0 ∨ 1 < minEmptyFactor
      ∨ maxEmptyFactor < minEmptyFactor then
    none
  else
    some
      { maxBuffers := maxBuffers
        maxEmpty := max (scale maxEmptyFactor maxBuffers) 1
        minEmpty := min (scale minEmptyFactor maxBuffers) (maxBuffers - 1)
        maxBuffers_pos := (buffersFor_fits hallocation).1
        maxEmpty_pos := by omega
        minEmpty_lt := by
          have := (buffersFor_fits hallocation).1
          omega
        minEmpty_le := by
          simp only [not_or, not_lt] at h
          have := hmono minEmptyFactor maxEmptyFactor maxBuffers h.2.2.2.2
          omega
        maxEmpty_le := by
          simp only [not_or, not_lt] at h
          have := hscale maxEmptyFactor maxBuffers h.1 h.2.1
          have := (buffersFor_fits hallocation).1
          omega
        maxBuffers_lt := (buffersFor_fits hallocation).2 }

/-! ## The queue -/

/-- `buffers_queue::buffer`. -/
structure Buffer (E : Type) where
  data : List E
  size : Nat
  length_data : data.length = bufferSize
deriving DecidableEq

variable {E : Type}

namespace Buffer

/-- A buffer as `new buffer` leaves it. -/
def blank [Inhabited E] : Buffer E := ⟨List.replicate bufferSize default, 0, List.length_replicate⟩

def write (b : Buffer E) (i : Nat) (r : E) : Buffer E :=
  { b with
    data := b.data.set i r
    length_data := by rw [List.length_set, b.length_data] }

/-- The range a reader is given. -/
def contents (b : Buffer E) : List E := b.data.take b.size

end Buffer

/-- `class buffers_queue`. -/
structure BuffersQueue (E : Type) where
  /-- Index of `_ptr` in the active buffer. -/
  ptr : Nat
  nLeft : Nat
  active : Option (Buffer E)
  ready : List (Buffer E)
  /-- The empty buffers, the one under `_empty_buffers_top` first. -/
  empty : List (Buffer E)
  allocated : Nat
  policy : BufferingPolicy
  /-- Of the ready queue and of the array of empty buffers. -/
  capacity : Nat
  /-- `_continue`: a sticky auto-reset event. -/
  signalled : Bool

namespace BuffersQueue

/-- `start_buffer`. -/
def startBuffer (q : BuffersQueue E) (b : Buffer E) : BuffersQueue E :=
  { q with active := some b, ptr := 0, nLeft := bufferSize }

/-- First loop of `adjust_empty_buffers`. -/
def destroyEmpty (highWater : Nat) : List (Buffer E) → Nat → List (Buffer E) × Nat
  | [], allocated => ([], allocated)
  | b :: empty, allocated =>
      if highWater < (b :: empty).length then
        destroyEmpty highWater empty (allocated - 1)
      else
        (b :: empty, allocated)

/-- Second loop of `adjust_empty_buffers`; it runs at most `max_buffers - allocated` times. -/
def createEmpty [Inhabited E] (maxBuffers lowWater : Nat) :
    Nat → List (Buffer E) → Nat → List (Buffer E) × Nat
  | 0, empty, allocated => (empty, allocated)
  | fuel + 1, empty, allocated =>
      if allocated < maxBuffers ∧ empty.length < lowWater then
        createEmpty maxBuffers lowWater fuel (Buffer.blank :: empty) (allocated + 1)
      else
        (empty, allocated)

/-- `adjust_empty_buffers`. -/
def adjustEmptyBuffers [Inhabited E] (q : BuffersQueue E) (policy : BufferingPolicy) (baseN : Nat) :
    BuffersQueue E :=
  let highWater := (policy.maxEmpty + baseN) % sizeTop
  let lowWater := (policy.minEmpty + baseN) % sizeTop
  let kept := destroyEmpty highWater q.empty q.allocated
  let filled := createEmpty policy.maxBuffers lowWater (policy.maxBuffers - kept.2) kept.1 kept.2
  { q with empty := filled.1, allocated := filled.2 }

/-- The constructor. -/
def new [Inhabited E] (policy : BufferingPolicy) : BuffersQueue E :=
  let q : BuffersQueue E :=
    { ptr := 0, nLeft := 0, active := none, ready := [], empty := [], allocated := 1,
      policy := policy, capacity := policy.maxBuffers, signalled := false }
  (q.startBuffer Buffer.blank).adjustEmptyBuffers policy 0

/-- `current()`, read. -/
def current (q : BuffersQueue E) : Option E := q.active.bind fun b => b.data[q.ptr]?

/-- `current()`, written to. -/
def write (q : BuffersQueue E) (r : E) : Option (BuffersQueue E) :=
  q.active.map fun b => { q with active := some (b.write q.ptr r) }

/-- The counters of `push`; the caller goes on to `flush` when nothing is left. -/
def push (q : BuffersQueue E) : BuffersQueue E := { q with ptr := q.ptr + 1, nLeft := q.nLeft - 1 }

/-- The first half of `flush`: the active buffer becomes ready. -/
def handOff (q : BuffersQueue E) : Option (BuffersQueue E) :=
  match q.active with
  | none => none
  | some b =>
      -- the array behind the ready queue holds `capacity` entries
      if q.ready.length < q.capacity then
        some { q with active := none, ready := q.ready ++ [{ b with size := bufferSize - q.nLeft }] }
      else
        none

/-- The locked section of `flush`; `none` if there is no empty buffer to take. -/
def takeEmpty (q : BuffersQueue E) : Option (BuffersQueue E) :=
  match q.empty with
  | [] => none
  | b :: empty => some ({ q with empty := empty }.startBuffer b)

/-- `_ready_buffers.consume`. -/
def consume (q : BuffersQueue E) : Option (Buffer E × BuffersQueue E) :=
  match q.ready with
  | [] => none
  | b :: ready => some (b, { q with ready := ready })

/-- The locked section in the loop of `read_collected`. -/
def recycle (q : BuffersQueue E) (b : Buffer E) : BuffersQueue E := { q with empty := b :: q.empty }

/-- The locked section at the end of `read_collected`. -/
def finish [Inhabited E] (q : BuffersQueue E) (readyN : Nat) : BuffersQueue E :=
  -- whether a producer may be waiting is judged by the stack as it was before the adjustment
  { q.adjustEmptyBuffers q.policy readyN with signalled := q.signalled || q.empty.isEmpty }

end BuffersQueue

/-! ## The producer and the reader -/

/-- Where the producer is: outside, or in `flush`. -/
inductive Producer where
  | idle
  /-- `flush` entered. -/
  | handingOff
  /-- About to lock. -/
  | taking
  /-- About to wait, or waiting, on `_continue`. -/
  | waiting
deriving DecidableEq, Repr

/-- Where the reader is: outside, or in `read_collected`, with its locals `n` and `ready_n` and the
    buffer it holds. -/
inductive Reader (E : Type) where
  | idle
  | looping (n readyN : Nat)
  | reading (n readyN : Nat) (held : Buffer E)
  | recycling (n readyN : Nat) (held : Buffer E)
  | notifying (n readyN : Nat)
  | finishing (readyN : Nat)

/-- The buffer in the reader's hands. -/
def Reader.held : Reader E → Option (Buffer E)
  | .reading _ _ b => some b
  | .recycling _ _ b => some b
  | _ => none

/-- The high-water mark of the call under way. -/
def Reader.readyN : Reader E → Nat
  | .idle => 0
  | .looping _ r => r
  | .reading _ r _ => r
  | .recycling _ r _ => r
  | .notifying _ r => r
  | .finishing r => r

structure System (E : Type) where
  queue : BuffersQueue E
  producer : Producer
  reader : Reader E
  /-- All records pushed so far. -/
  pushed : List E
  /-- All record ranges passed to the reader so far, joined. -/
  delivered : List E

/-- One sub-step. -/
inductive Action (E : Type) where
  | write (r : E)
  | push
  | flush
  | handOff
  | take
  | wake
  | startReading
  | consume
  | deliver
  | recycle
  | notify
  | finish
deriving DecidableEq

/-- The sub-steps of `read_collected`. -/
def Action.ofReader : Action E → Bool
  | .startReading | .consume | .deliver | .recycle | .notify | .finish => true
  | _ => false

/-- The party an action belongs to is where the action happens, and an event waited for is set. -/
def System.Enabled (s : System E) : Action E → Prop
  | .write _ => s.producer = .idle
  | .push => s.producer = .idle
  | .flush => s.producer = .idle
  | .handOff => s.producer = .handingOff
  | .take => s.producer = .taking
  | .wake => s.producer = .waiting ∧ s.queue.signalled
  | .startReading => s.reader = .idle
  | .consume => ∃ n r, s.reader = .looping n r
  | .deliver => ∃ n r b, s.reader = .reading n r b
  | .recycle => ∃ n r b, s.reader = .recycling n r b
  | .notify => ∃ n r, s.reader = .notifying n r
  | .finish => ∃ r, s.reader = .finishing r

namespace System

variable [Inhabited E]

def new (policy : BufferingPolicy) : System E := ⟨BuffersQueue.new policy, .idle, .idle, [], []⟩

/-- One sub-step of one of the parties. -/
def step (s : System E) (a : Action E) : Option (System E) :=
  match a, s.producer, s.reader with
  | .write r, .idle, _ => (s.queue.write r).map fun q => { s with queue := q }
  | .push, .idle, _ => s.queue.current.map fun r =>
      { s with
        queue := s.queue.push
        pushed := s.pushed ++ [r]
        producer := if s.queue.push.nLeft = 0 then .handingOff else .idle }
  | .flush, .idle, _ => some { s with producer := .handingOff }
  | .handOff, .handingOff, _ => s.queue.handOff.map fun q => { s with queue := q, producer := .taking }
  -- the lock is given up for the wait: a producer that wakes looks for a buffer again
  | .take, .taking, _ =>
      match s.queue.takeEmpty with
      | none => some { s with producer := .waiting }
      | some q => some { s with queue := q, producer := .idle }
  | .wake, .waiting, _ =>
      if s.queue.signalled then
        some { s with queue := { s.queue with signalled := false }, producer := .taking }
      else
        none
  | .startReading, _, .idle => some { s with reader := .looping s.queue.policy.maxBuffers 0 }
  -- `n` bounds the loop: a producer that keeps up cannot hold the reader forever
  | .consume, _, .looping 0 readyN => some { s with reader := .finishing readyN }
  | .consume, _, .looping (n + 1) readyN =>
      match s.queue.consume with
      | none => some { s with reader := .finishing readyN }
      | some (b, q) =>
          some { s with queue := q, reader := .reading n (max readyN s.queue.ready.length) b }
  | .deliver, _, .reading n readyN b =>
      some { s with delivered := s.delivered ++ b.contents, reader := .recycling n readyN b }
  | .recycle, _, .recycling n readyN b => some
      { s with
        queue := s.queue.recycle b
        reader := if s.queue.empty.isEmpty then .notifying n readyN else .looping n readyN }
  | .notify, _, .notifying n readyN => some
      { s with queue := { s.queue with signalled := true }, reader := .looping n readyN }
  | .finish, _, .finishing readyN =>
      some { s with queue := s.queue.finish readyN, reader := .idle }
  | _, _, _ => none

/-- What each sub-step does, with the guards it passed. -/
inductive Moves : System E → Action E → System E → Prop
  | write {q : BuffersQueue E} {rd : Reader E} {pu de : List E} {r : E} {b : Buffer E} :
      q.active = some b →
      Moves ⟨q, .idle, rd, pu, de⟩ (.write r)
        ⟨{ q with active := some (b.write q.ptr r) }, .idle, rd, pu, de⟩
  | push {q : BuffersQueue E} {rd : Reader E} {pu de : List E} {r : E} :
      q.current = some r →
      Moves ⟨q, .idle, rd, pu, de⟩ .push
        ⟨q.push, if q.push.nLeft = 0 then .handingOff else .idle, rd, pu ++ [r], de⟩
  | flush {q : BuffersQueue E} {rd : Reader E} {pu de : List E} :
      Moves ⟨q, .idle, rd, pu, de⟩ .flush ⟨q, .handingOff, rd, pu, de⟩
  | handOff {q : BuffersQueue E} {rd : Reader E} {pu de : List E} {b : Buffer E} :
      q.active = some b → q.ready.length < q.capacity →
      Moves ⟨q, .handingOff, rd, pu, de⟩ .handOff
        ⟨{ q with active := none, ready := q.ready ++ [{ b with size := bufferSize - q.nLeft }] },
          .taking, rd, pu, de⟩
  | sleep {q : BuffersQueue E} {rd : Reader E} {pu de : List E} :
      q.empty = [] → Moves ⟨q, .taking, rd, pu, de⟩ .take ⟨q, .waiting, rd, pu, de⟩
  | take {q : BuffersQueue E} {rd : Reader E} {pu de : List E} {b : Buffer E}
      {empty : List (Buffer E)} : q.empty = b :: empty →
      Moves ⟨q, .taking, rd, pu, de⟩ .take
        ⟨{ q with empty := empty }.startBuffer b, .idle, rd, pu, de⟩
  | wake {q : BuffersQueue E} {rd : Reader E} {pu de : List E} :
      q.signalled = true →
      Moves ⟨q, .waiting, rd, pu, de⟩ .wake
        ⟨{ q with signalled := false }, .taking, rd, pu, de⟩
  | startReading {q : BuffersQueue E} {pr : Producer} {pu de : List E} :
      Moves ⟨q, pr, .idle, pu, de⟩ .startReading
        ⟨q, pr, .looping q.policy.maxBuffers 0, pu, de⟩
  | stop {q : BuffersQueue E} {pr : Producer} {pu de : List E} {n readyN : Nat} :
      n = 0 ∨ q.ready = [] →
      Moves ⟨q, pr, .looping n readyN, pu, de⟩ .consume ⟨q, pr, .finishing readyN, pu, de⟩
  | consume {q : BuffersQueue E} {pr : Producer} {pu de : List E} {n readyN : Nat} {b : Buffer E}
      {ready : List (Buffer E)} : q.ready = b :: ready →
      Moves ⟨q, pr, .looping (n + 1) readyN, pu, de⟩ .consume
        ⟨{ q with ready := ready }, pr, .reading n (max readyN q.ready.length) b, pu, de⟩
  | deliver {q : BuffersQueue E} {pr : Producer} {pu de : List E} {n readyN : Nat} {b : Buffer E} :
      Moves ⟨q, pr, .reading n readyN b, pu, de⟩ .deliver
        ⟨q, pr, .recycling n readyN b, pu, de ++ b.contents⟩
  | recycle {q : BuffersQueue E} {pr : Producer} {pu de : List E} {n readyN : Nat} {b : Buffer E} :
      Moves ⟨q, pr, .recycling n readyN b, pu, de⟩ .recycle
        ⟨q.recycle b, pr,
          if q.empty.isEmpty then .notifying n readyN else .looping n readyN, pu, de⟩
  | notify {q : BuffersQueue E} {pr : Producer} {pu de : List E} {n readyN : Nat} :
      Moves ⟨q, pr, .notifying n readyN, pu, de⟩ .notify
        ⟨{ q with signalled := true }, pr, .looping n readyN, pu, de⟩
  | finish {q : BuffersQueue E} {pr : Producer} {pu de : List E} {readyN : Nat} :
      Moves ⟨q, pr, .finishing readyN, pu, de⟩ .finish
        ⟨q.finish readyN, pr, .idle, pu, de⟩

/-- **Inversion**: a step taken is one of the moves. -/
theorem step_moves {s s' : System E} {a : Action E} (h : s.step a = some s') : Moves s a s' := by
  obtain ⟨q, producer, reader, pushed, delivered⟩ := s
  cases a with
  | write r =>
    cases producer <;> simp only [step, reduceCtorEq] at h
    obtain ⟨q', hq, rfl⟩ := Option.map_eq_some_iff.mp h
    obtain ⟨b, hb, rfl⟩ := Option.map_eq_some_iff.mp hq
    exact .write hb
  | push =>
    cases producer <;> simp only [step, reduceCtorEq] at h
    obtain ⟨r, hr, rfl⟩ := Option.map_eq_some_iff.mp h
    exact .push hr
  | flush =>
    cases producer <;> simp only [step, reduceCtorEq, Option.some.injEq] at h
    exact h ▸ .flush
  | handOff =>
    cases producer <;> simp only [step, reduceCtorEq] at h
    obtain ⟨q', hq, rfl⟩ := Option.map_eq_some_iff.mp h
    rw [BuffersQueue.handOff] at hq
    split at hq
    next => cases hq
    next b hb =>
      split at hq
      next hroom => exact Option.some.inj hq ▸ .handOff hb hroom
      next => cases hq
  | take =>
    cases producer <;> simp only [step, reduceCtorEq] at h
    cases he : q.empty with
    | nil =>
      simp only [BuffersQueue.takeEmpty, he, Option.some.injEq] at h
      exact h ▸ .sleep he
    | cons b empty =>
      simp only [BuffersQueue.takeEmpty, he, Option.some.injEq] at h
      exact h ▸ .take he
  | wake =>
    cases producer <;> simp only [step, reduceCtorEq] at h
    split at h
    next hset => exact Option.some.inj h ▸ .wake hset
    next => cases h
  | startReading =>
    cases reader <;> simp only [step, reduceCtorEq, Option.some.injEq] at h
    exact h ▸ .startReading
  | consume =>
    cases reader with
    | looping n readyN =>
      cases n with
      | zero =>
        simp only [step, Option.some.injEq] at h
        exact h ▸ .stop (Or.inl rfl)
      | succ n =>
        cases hr : q.ready with
        | nil =>
          simp only [step, BuffersQueue.consume, hr, Option.some.injEq] at h
          exact h ▸ .stop (Or.inr hr)
        | cons b ready =>
          simp only [step, BuffersQueue.consume, hr, Option.some.injEq] at h
          have hmove : Moves ⟨q, producer, .looping (n + 1) readyN, pushed, delivered⟩ .consume _ :=
            .consume hr
          rw [hr] at hmove
          exact h ▸ hmove
    | _ => simp only [step, reduceCtorEq] at h
  | deliver =>
    cases reader <;> simp only [step, reduceCtorEq, Option.some.injEq] at h
    exact h ▸ .deliver
  | recycle =>
    cases reader <;> simp only [step, reduceCtorEq, Option.some.injEq] at h
    exact h ▸ .recycle
  | notify =>
    cases reader <;> simp only [step, reduceCtorEq, Option.some.injEq] at h
    exact h ▸ .notify
  | finish =>
    cases reader <;> simp only [step, reduceCtorEq, Option.some.injEq] at h
    exact h ▸ .finish

end System

end MicroProfiler
