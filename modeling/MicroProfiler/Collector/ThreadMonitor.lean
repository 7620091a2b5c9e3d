/-
  `thread_monitor` — the identity of profiled threads.

  1. **Program** — two maps: `_threads` by the monitor's own id, `_alive_threads` by native id, the
     second pointing into the first.  `registerSelf` opens an entry for a native id it does not
     know as alive and hangs an exit callback on the thread; the callback carries ONLY the native
     id.  Ids are `unsigned int`: `_next_id` wraps at `2 ^ 32`, and `insert` on a key that is taken
     keeps what is there.  `none` is a dereferenced `end()`.

  2. **Threads** — what the operating system lets happen: a thread lifetime starts, calls, exits
     once; a native id is taken by one running thread at a time and free again after its exit.

  3. **Specification (`Registry`)** — ONE record for each lifetime that has registered, in order; a
     lifetime's id is the position of its record.  Native ids play no part in it.

  4. **The crux (`Tracks`)** — the two maps are the registry: `_threads` all of it, by position, and
     `_alive_threads` the records of running lifetimes, by native id; that this is a function at
     all is the operating system's promise (`natives`).  It holds while positions fit the id type,
     and `ids_wrap` shows that it stops there.
-/
import MicroProfiler.Lib.Keys
import MicroProfiler.Lib.Runs
import Mathlib.Algebra.Group.Nat.Defs

namespace MicroProfiler.ThreadMonitor

open MicroProfiler.Lib

/-- `native_thread_id`. -/
abbrev NativeId := Nat

/-- One life of one thread, from its start to its exit. -/
abbrev Lifetime := Nat

/-- How many values `thread_id`, an `unsigned int`, has. -/
def idCount : Nat := 2 ^ 32

/-- `thread_info`. -/
structure ThreadInfo where
  nativeId : NativeId
  description : String
  startTime : Int
  endTime : Int
  cpuTime : Int
  /-- the thread has exited, and nothing of it changes any more -/
  complete : Bool
deriving DecidableEq, Repr

/-- What the system says of a thread at some moment; not every platform knows a description. -/
structure Reading where
  cpuTime : Int
  description : Option String
deriving DecidableEq, Repr

/-- What it says of every thread at one moment. -/
abbrev Clocks := Lifetime → Reading

/-- The closure `this_thread::open_info()` returns: it has captured a handle of the thread that
    called it. -/
structure Accessor where
  handle : Lifetime
  nativeId : NativeId
  startTime : Int
deriving DecidableEq, Repr

/-- Calling the closure. -/
def Accessor.call (accessor : Accessor) (clocks : Clocks) (info : ThreadInfo) : ThreadInfo :=
  { info with
    nativeId := accessor.nativeId
    description := (clocks accessor.handle).description.getD info.description
    startTime := accessor.startTime
    cpuTime := (clocks accessor.handle).cpuTime }

/-- `live_thread_info`: the entry it points at is known by its key. -/
structure LiveThreadInfo where
  entry : Nat
  accessor : Accessor
deriving DecidableEq, Repr

/-- `thread_monitor`. -/
structure Monitor where
  /-- `_threads` -/
  threads : Nat → Option ThreadInfo
  /-- `_alive_threads` -/
  aliveThreads : NativeId → Option LiveThreadInfo
  /-- `_next_id` -/
  nextId : Nat

/-- No thread is known. -/
def Monitor.init : Monitor where
  threads := fun _ => none
  aliveThreads := fun _ => none
  nextId := 0

namespace Monitor

/-- `_threads.insert(make_pair(id, info))`: an entry that is there stays. -/
def insertThread (m : Monitor) (id : Nat) (info : ThreadInfo) : Nat → Option ThreadInfo :=
  fun k => if k = id then some ((m.threads id).getD info) else m.threads k

/-- `register_self()`: the id, and whether an exit callback was hung on the calling thread. -/
def registerSelf (m : Monitor) (native : NativeId) (openInfo : Accessor) (clocks : Clocks) :
    Nat × Bool × Monitor :=
  match m.aliveThreads native with
  -- the thread was here before: the id it got then
  | some lti => (lti.entry, false, m)
  -- an entry is opened, and the exit callback hung
  | none =>
    let blank : ThreadInfo := ⟨native, "", 0, 0, 0, false⟩
    (m.nextId, true,
      { threads := m.insertThread m.nextId (openInfo.call clocks blank)
        aliveThreads := fun n => if n = native then some ⟨m.nextId, openInfo⟩ else m.aliveThreads n
        nextId := (m.nextId + 1) % idCount })

/-- `update_live_info(info, native_id)`. -/
def updateLiveInfo (m : Monitor) (clocks : Clocks) (info : ThreadInfo) (native : NativeId) :
    ThreadInfo :=
  match m.aliveThreads native with
  | some lti => lti.accessor.call clocks info
  | none => info

/-- `thread_exited(native_id)`. -/
def threadExited (m : Monitor) (native : NativeId) (clocks : Clocks) (uptime : Int) :
    Option Monitor := do
  let lti ← m.aliveThreads native
  let ti ← m.threads lti.entry
  -- the accessor is asked once more, before it goes
  let ti := { m.updateLiveInfo clocks ti native with endTime := uptime, complete := true }
  return { m with
    threads := fun k => if k = lti.entry then some ti else m.threads k
    aliveThreads := fun n => if n = native then none else m.aliveThreads n }

/-- `get_info(destination, begin_id, end_id)`: what was written, and what was thrown.  Every id
    comes with what the clocks say when its turn comes. -/
def getInfo (m : Monitor) : List (Nat × Clocks) → List (Nat × ThreadInfo) × Option String
  | [] => ([], none)
  | (id, clocks) :: requests =>
    match m.threads id with
    -- the exception ends the call; what was written stays written
    | none => ([], some "Unknown thread id!")
    | some info =>
      let info := if !info.complete then m.updateLiveInfo clocks info info.nativeId else info
      let (written, thrown) := m.getInfo requests
      ((id, info) :: written, thrown)

end Monitor

/-! ## The process: threads, their exit callbacks and the monitor -/

/-- What happens in the process.  A thread that starts a life has the native id `native` gives it. -/
inductive Action
  /-- A thread begins a life. -/
  | start (thread : Lifetime)
  /-- It calls the monitor. -/
  | registerSelf (thread : Lifetime) (startTime : Int) (clocks : Clocks)
  /-- It ends, and runs its callbacks. -/
  | exit (thread : Lifetime) (clocks : Clocks) (uptime : Int)
  /-- Somebody asks. -/
  | getInfo (requests : List (Nat × Clocks))

/-- The monitor, the callbacks each thread will run at its exit, and the ids `register_self` has
    returned, in order, with the lifetime that called. -/
structure Process where
  monitor : Monitor
  handlers : Lifetime → List NativeId
  returned : List (Lifetime × Nat)

/-- Nobody runs. -/
def Process.init : Process where
  monitor := .init
  handlers := fun _ => []
  returned := []

/-- The callbacks of an exiting thread, last hung first run. -/
def runHandlers (clocks : Clocks) (uptime : Int) : List NativeId → Monitor → Option Monitor
  | [], m => some m
  | native :: rest, m => (m.threadExited native clocks uptime).bind (runHandlers clocks uptime rest)

/-- One action on the process. -/
def Process.step (native : Lifetime → NativeId) (s : Process) : Action → Option Process
  | .start _ => some s
  | .registerSelf thread startTime clocks =>
    let (id, hung, m) := s.monitor.registerSelf (native thread)
      ⟨thread, native thread, startTime⟩ clocks
    some
      { monitor := m
        handlers := fun t =>
          if t = thread && hung then native thread :: s.handlers t else s.handlers t
        returned := s.returned ++ [(thread, id)] }
  | .exit thread clocks uptime => do
    let m ← runHandlers clocks uptime (s.handlers thread) s.monitor
    return { s with
      monitor := m
      handlers := fun t => if t = thread then [] else s.handlers t }
  | .getInfo _ => some s

/-! ## The registry -/

/-- What is known of one lifetime. -/
structure Record where
  lifetime : Lifetime
  accessor : Accessor
  info : ThreadInfo
deriving DecidableEq, Repr

/-- The lifetimes there have been, those that run, and the records of those that have registered. -/
structure Registry where
  started : List Lifetime
  alive : List Lifetime
  records : List Record
deriving Repr

/-- No lifetime has begun. -/
def Registry.init : Registry := ⟨[], [], []⟩

/-- The record of a lifetime that registers. -/
def Record.opened (native : Lifetime → NativeId) (thread : Lifetime) (startTime : Int)
    (clocks : Clocks) : Record where
  lifetime := thread
  accessor := ⟨thread, native thread, startTime⟩
  info := Accessor.call ⟨thread, native thread, startTime⟩ clocks ⟨native thread, "", 0, 0, 0, false⟩

/-- … and of one that exits. -/
def Record.closed (r : Record) (clocks : Clocks) (uptime : Int) : Record :=
  { r with info := { r.accessor.call clocks r.info with endTime := uptime, complete := true } }

/-- What an action means.  `none`: the operating system does not let it happen. -/
def Registry.step (native : Lifetime → NativeId) (R : Registry) : Action → Option Registry
  | .start thread =>
    if thread ∉ R.started ∧ ∀ t ∈ R.alive, native t ≠ native thread then
      some { R with started := thread :: R.started, alive := thread :: R.alive }
    else none
  | .registerSelf thread startTime clocks =>
    if thread ∉ R.alive then none
    else if thread ∈ R.records.map Record.lifetime then some R
    else some { R with records := R.records ++ [.opened native thread startTime clocks] }
  | .exit thread clocks uptime =>
    if thread ∉ R.alive then none
    else some { R with
      alive := R.alive.filter (· ≠ thread)
      records := R.records.map fun r => if r.lifetime = thread then r.closed clocks uptime else r }
  | .getInfo _ => some R

/-- What `get_info` owes for one id: the record at that position, refreshed by its OWN accessor
    while its lifetime runs. -/
def Registry.answer (R : Registry) (request : Nat × Clocks) : Option (Nat × ThreadInfo) :=
  (R.records[request.1]?).map fun r =>
    (request.1, if r.lifetime ∈ R.alive then r.accessor.call request.2 r.info else r.info)

/-! ## What holds of every registry -/

/-- INVARIANT of the registry. -/
structure Registry.Sound (native : Lifetime → NativeId) (R : Registry) : Prop where
  /-- a lifetime has one record -/
  once : (R.records.map Record.lifetime).Nodup
  /-- what runs has started -/
  aliveStarted : ∀ t ∈ R.alive, t ∈ R.started
  /-- and so has what has a record -/
  recordStarted : ∀ r ∈ R.records, r.lifetime ∈ R.started
  /-- a record changes while its lifetime runs -/
  complete_iff : ∀ r ∈ R.records, r.info.complete = false ↔ r.lifetime ∈ R.alive
  /-- the promise of the operating system -/
  natives : ∀ t ∈ R.alive, ∀ t' ∈ R.alive, native t = native t' → t = t'
  /-- a record keeps the native id, -/
  infoNative : ∀ r ∈ R.records, r.info.nativeId = native r.lifetime
  /-- and so does its accessor -/
  accessorNative : ∀ r ∈ R.records, r.accessor.nativeId = native r.lifetime

namespace Registry

variable {native : Lifetime → NativeId} {R R' : Registry}

/-- Nothing is there to be wrong. -/
theorem sound_init (native : Lifetime → NativeId) : Registry.init.Sound native := by
  constructor <;> simp [Registry.init]

/-- A lifetime has one record. -/
theorem Sound.index_unique (h : R.Sound native) {i j : Nat} {r r' : Record}
    (hi : R.records[i]? = some r) (hj : R.records[j]? = some r')
    (heq : r.lifetime = r'.lifetime) : i = j := by
  have hli : (R.records.map Record.lifetime)[i]? = some r.lifetime := by simp [hi]
  have hlj : (R.records.map Record.lifetime)[j]? = some r.lifetime := by simp [hj, heq]
  have hlt : i < (R.records.map Record.lifetime).length := by
    have := (List.getElem?_eq_some_iff.mp hi).1
    simpa using this
  exact (List.getElem?_inj hlt h.once).mp (hli.trans hlj.symm)

/-- Records of running lifetimes differ in their native ids. -/
theorem Sound.record_unique (h : R.Sound native) {i j : Nat} {r r' : Record}
    (hi : R.records[i]? = some r) (hj : R.records[j]? = some r')
    (hr : r.info.complete = false) (hr' : r'.info.complete = false)
    (heq : native r.lifetime = native r'.lifetime) : i = j ∧ r = r' := by
  have hmem := List.mem_of_getElem? hi
  have hmem' := List.mem_of_getElem? hj
  have hsame : r.lifetime = r'.lifetime :=
    h.natives _ ((h.complete_iff r hmem).mp hr) _ ((h.complete_iff r' hmem').mp hr') heq
  obtain rfl := h.index_unique hi hj hsame
  exact ⟨rfl, Option.some.inj (hi.symm.trans hj)⟩

/-- What an action can do to the registry, and when. -/
inductive Happens (native : Lifetime → NativeId) (R : Registry) : Action → Registry → Prop
  | started {thread : Lifetime} (hnew : thread ∉ R.started)
      (hfree : ∀ t ∈ R.alive, native t ≠ native thread) :
      Happens native R (.start thread)
        { R with started := thread :: R.started, alive := thread :: R.alive }
  | again {thread : Lifetime} (startTime : Int) (clocks : Clocks) (halive : thread ∈ R.alive)
      (hold : thread ∈ R.records.map Record.lifetime) :
      Happens native R (.registerSelf thread startTime clocks) R
  | opened {thread : Lifetime} (startTime : Int) (clocks : Clocks) (halive : thread ∈ R.alive)
      (hnew : thread ∉ R.records.map Record.lifetime) :
      Happens native R (.registerSelf thread startTime clocks)
        { R with records := R.records ++ [.opened native thread startTime clocks] }
  | exited {thread : Lifetime} (clocks : Clocks) (uptime : Int) (halive : thread ∈ R.alive) :
      Happens native R (.exit thread clocks uptime)
        { R with
          alive := R.alive.filter (· ≠ thread)
          records := R.records.map fun r =>
            if r.lifetime = thread then r.closed clocks uptime else r }
  | asked (requests : List (Nat × Clocks)) : Happens native R (.getInfo requests) R

/-- **What a step is**, with its guards. -/
theorem happens_of_step {a : Action} (hstep : R.step native a = some R') : Happens native R a R' := by
  cases a with
  | start thread =>
    simp only [Registry.step, Option.ite_none_right_eq_some, Option.some.injEq] at hstep
    obtain ⟨⟨hnew, hfree⟩, rfl⟩ := hstep
    exact .started hnew hfree
  | registerSelf thread startTime clocks =>
    simp only [Registry.step, Option.ite_none_left_eq_some, not_not] at hstep
    obtain ⟨halive, hstep⟩ := hstep
    split at hstep <;> obtain rfl := Option.some.inj hstep
    next hold => exact .again startTime clocks halive hold
    next hnew => exact .opened startTime clocks halive hnew
  | exit thread clocks uptime =>
    simp only [Registry.step, Option.ite_none_left_eq_some, not_not, Option.some.injEq] at hstep
    obtain ⟨halive, rfl⟩ := hstep
    exact .exited clocks uptime halive
  | getInfo requests =>
    obtain rfl := Option.some.inj hstep
    exact .asked requests

/-- A thread starts: its native id is nobody's. -/
theorem Sound.started (h : R.Sound native) {thread : Lifetime} (hnew : thread ∉ R.started)
    (hfree : ∀ t ∈ R.alive, native t ≠ native thread) :
    ({ R with started := thread :: R.started, alive := thread :: R.alive } : Registry).Sound
      native := by
  refine ⟨h.once, ?_, fun r hr => List.mem_cons_of_mem _ (h.recordStarted r hr), ?_, ?_,
    h.infoNative, h.accessorNative⟩
  · intro t ht
    rcases List.mem_cons.mp ht with rfl | ht
    · exact List.mem_cons_self
    · exact List.mem_cons_of_mem _ (h.aliveStarted t ht)
  · -- no record is of the new lifetime
    intro r hr
    have hne : r.lifetime ≠ thread := fun heq => hnew (heq ▸ h.recordStarted r hr)
    simpa [hne] using h.complete_iff r hr
  · -- its native id is nobody's who runs
    intro t ht t' ht' heq
    rcases List.mem_cons.mp ht with rfl | hold <;> rcases List.mem_cons.mp ht' with rfl | hold'
    · rfl
    · exact absurd heq.symm (hfree t' hold')
    · exact absurd heq (hfree t hold)
    · exact h.natives t hold t' hold' heq

/-- A lifetime registers. -/
theorem Sound.opened (h : R.Sound native) {thread : Lifetime} (halive : thread ∈ R.alive)
    (hnew : thread ∉ R.records.map Record.lifetime) (startTime : Int) (clocks : Clocks) :
    ({ R with records := R.records ++ [.opened native thread startTime clocks] } : Registry).Sound
      native := by
  refine ⟨?_, h.aliveStarted, ?_, ?_, h.natives, ?_, ?_⟩
  · rw [List.map_append, List.map_singleton]
    exact nodup_append_singleton h.once hnew
  all_goals
    intro r hr
    rcases List.mem_append.mp hr with hr | hr
  · exact h.recordStarted r hr
  · rw [List.mem_singleton.mp hr]
    exact h.aliveStarted thread halive
  · exact h.complete_iff r hr
  · rw [List.mem_singleton.mp hr]
    exact iff_of_true rfl halive
  · exact h.infoNative r hr
  · rw [List.mem_singleton.mp hr]
    rfl
  · exact h.accessorNative r hr
  · rw [List.mem_singleton.mp hr]
    rfl

/-- A lifetime ends, and with it the changes of its record. -/
theorem Sound.exited (h : R.Sound native) (thread : Lifetime) (clocks : Clocks) (uptime : Int) :
    ({ R with
        alive := R.alive.filter (· ≠ thread)
        records := R.records.map fun r =>
          if r.lifetime = thread then r.closed clocks uptime else r } : Registry).Sound native := by
  have hlifetimes : (R.records.map fun r =>
      if r.lifetime = thread then r.closed clocks uptime else r).map Record.lifetime
      = R.records.map Record.lifetime := by
    rw [List.map_map]
    refine List.map_congr_left fun r _ => ?_
    simp only [Function.comp_apply]
    split <;> rfl
  refine ⟨by rw [hlifetimes]; exact h.once,
    fun t ht => h.aliveStarted t (List.mem_filter.mp ht).1, ?_, ?_,
    fun t ht t' ht' => h.natives t (List.mem_filter.mp ht).1 t' (List.mem_filter.mp ht').1, ?_, ?_⟩
  all_goals
    intro r' hr'
    obtain ⟨r, hr, rfl⟩ := List.mem_map.mp hr'
    split
  · exact h.recordStarted r hr
  · exact h.recordStarted r hr
  next heq => simp [Record.closed, heq]
  next hne => simpa [hne] using h.complete_iff r hr
  · exact h.accessorNative r hr
  · exact h.infoNative r hr
  · exact h.accessorNative r hr
  · exact h.accessorNative r hr

/-- **One step keeps the registry sound.** -/
theorem Sound.step (h : R.Sound native) {a : Action} (hstep : R.step native a = some R') :
    R'.Sound native := by
  cases happens_of_step hstep with
  | started hnew hfree => exact h.started hnew hfree
  | again startTime clocks halive hold => exact h
  | opened startTime clocks halive hnew => exact h.opened halive hnew startTime clocks
  | exited clocks uptime halive => exact h.exited _ clocks uptime
  | asked requests => exact h

/-- A complete record stays as it is. -/
theorem Sound.step_complete (h : R.Sound native) {a : Action} (hstep : R.step native a = some R')
    {i : Nat} {r : Record} (hr : R.records[i]? = some r) (hcomplete : r.info.complete = true) :
    R'.records[i]? = some r := by
  cases happens_of_step hstep with
  | started hnew hfree => exact hr
  | again startTime clocks halive hold => exact hr
  | opened startTime clocks halive hnew =>
    rw [List.getElem?_append_left (List.getElem?_eq_some_iff.mp hr).1, hr]
  | @exited thread clocks uptime halive =>
    -- the exiting lifetime runs, and a complete record is of one that does not
    have hne : r.lifetime ≠ thread := by
      intro heq
      have := (h.complete_iff r (List.mem_of_getElem? hr)).mpr (heq ▸ halive)
      rw [hcomplete] at this
      cases this
    simp [hr, hne]
  | asked requests => exact hr

/-- Records are only added. -/
theorem length_le_of_step {a : Action} (hstep : R.step native a = some R') :
    R.records.length ≤ R'.records.length := by
  cases happens_of_step hstep with
  | started hnew hfree => exact Nat.le_refl _
  | again startTime clocks halive hold => exact Nat.le_refl _
  | opened startTime clocks halive hnew => simp
  | exited clocks uptime halive => simp
  | asked requests => exact Nat.le_refl _

end Registry

/-! ## The monitor is the registry -/

/-- An element of a list with one more is one of the list, or the new one. -/
theorem getElem?_append_singleton_cases {α : Type} {xs : List α} {x y : α} {i : Nat}
    (h : (xs ++ [x])[i]? = some y) : (i < xs.length ∧ xs[i]? = some y) ∨ (i = xs.length ∧ x = y) := by
  have hlt := (List.getElem?_eq_some_iff.mp h).1
  rw [List.length_append, List.length_singleton] at hlt
  rcases Nat.lt_or_eq_of_le (Nat.le_of_lt_succ hlt) with hi | rfl
  · exact .inl ⟨hi, by rwa [List.getElem?_append_left hi] at h⟩
  · exact .inr ⟨rfl, by simpa using h⟩

/-- A lifetime's id comes before those of all lifetimes that register after it. -/
def Increasing (returned : List (Lifetime × Nat)) : Prop :=
  ∀ before thread id after, returned = before ++ (thread, id) :: after →
    thread ∉ before.map Prod.fst → ∀ p ∈ before, p.2 < id

/-- Appending keeps the order, where a lifetime that is new gets an id above all others. -/
theorem increasing_append {returned : List (Lifetime × Nat)} {thread : Lifetime} {id : Nat}
    (h : Increasing returned)
    (habove : thread ∉ returned.map Prod.fst → ∀ p ∈ returned, p.2 < id) :
    Increasing (returned ++ [(thread, id)]) := by
  intro before t i after heq hnew p hp
  rcases List.eq_nil_or_concat after with rfl | ⟨init, last, rfl⟩
  · -- the pair asked about is the one appended
    obtain ⟨rfl, hlast⟩ := List.append_inj' heq rfl
    obtain ⟨rfl, rfl⟩ := Prod.mk.inj (List.cons.inj hlast).1
    exact habove hnew p hp
  · rw [List.concat_eq_append, ← List.cons_append, ← List.append_assoc] at heq
    obtain ⟨rfl, _⟩ := List.append_inj' heq rfl
    exact h before t i init rfl hnew p hp

/-- INVARIANT: the two maps of the monitor, the callbacks and the ids returned, as the registry has
    them. -/
structure Tracks (native : Lifetime → NativeId) (s : Process) (R : Registry) : Prop where
  /-- what the operating system promises -/
  sound : R.Sound native
  /-- `_threads` is the records, by position -/
  threads : ∀ i, s.monitor.threads i = (R.records[i]?).map Record.info
  /-- the next position, in 32 bits -/
  nextId : s.monitor.nextId = R.records.length % idCount
  /-- `_alive_threads` is the records that still change, by native id -/
  aliveThreads : ∀ n lti, s.monitor.aliveThreads n = some lti ↔
    ∃ i r, R.records[i]? = some r ∧ native r.lifetime = n ∧ r.info.complete = false ∧
      lti = ⟨i, r.accessor⟩
  /-- one callback for each of these, -/
  handlers : ∀ r ∈ R.records, r.info.complete = false →
    s.handlers r.lifetime = [native r.lifetime]
  /-- and none for anybody else -/
  noHandlers : ∀ t, (∀ r ∈ R.records, r.lifetime = t → r.info.complete = true) → s.handlers t = []
  /-- an id that was returned is the position of the caller's record -/
  returned : ∀ t i, (t, i) ∈ s.returned ↔ ∃ r, R.records[i]? = some r ∧ r.lifetime = t
  /-- in the order of first registration -/
  increasing : Increasing s.returned

/-- Both are empty. -/
theorem tracks_init (native : Lifetime → NativeId) : Tracks native .init .init := by
  refine ⟨Registry.sound_init native, ?_, ?_, ?_, ?_, ?_, ?_, ?_⟩ <;>
    simp [Process.init, Monitor.init, Registry.init, Increasing]

namespace Tracks

variable {native : Lifetime → NativeId} {s : Process} {R R' : Registry}

/-- The live entry of a running lifetime that has registered is its own. -/
theorem alive_of_record (h : Tracks native s R) {i : Nat} {r : Record}
    (hr : R.records[i]? = some r) (hrunning : r.info.complete = false) :
    s.monitor.aliveThreads (native r.lifetime) = some ⟨i, r.accessor⟩ :=
  (h.aliveThreads _ _).mpr ⟨i, r, hr, rfl, hrunning, rfl⟩

/-- A running lifetime that has not registered is unknown, whoever had its native id before. -/
theorem alive_eq_none (h : Tracks native s R) {thread : Lifetime} (halive : thread ∈ R.alive)
    (hnew : thread ∉ R.records.map Record.lifetime) :
    s.monitor.aliveThreads (native thread) = none := by
  rw [Option.eq_none_iff_forall_ne_some]
  intro lti hlti
  obtain ⟨i, r, hr, hnative, hrunning, _⟩ := (h.aliveThreads _ _).mp hlti
  have hmem := List.mem_of_getElem? hr
  have hsame : r.lifetime = thread :=
    h.sound.natives _ ((h.sound.complete_iff r hmem).mp hrunning) _ halive hnative
  exact hnew (List.mem_map.mpr ⟨r, hmem, hsame⟩)

/-- A record of a running lifetime is refreshed by its own accessor. -/
theorem updateLiveInfo_eq (h : Tracks native s R) {i : Nat} {r : Record}
    (hr : R.records[i]? = some r) (hrunning : r.info.complete = false) (clocks : Clocks)
    (info : ThreadInfo) :
    s.monitor.updateLiveInfo clocks info (native r.lifetime) = r.accessor.call clocks info := by
  rw [Monitor.updateLiveInfo, h.alive_of_record hr hrunning]

/-- Registering again: the id of the lifetime, and nothing else changes. -/
theorem register_again (h : Tracks native s R) {thread : Lifetime} (halive : thread ∈ R.alive)
    (hold : thread ∈ R.records.map Record.lifetime) (startTime : Int) (clocks : Clocks) :
    ∃ s', s.step native (.registerSelf thread startTime clocks) = some s' ∧
      Tracks native s' R := by
  obtain ⟨r, hmem, rfl⟩ := List.mem_map.mp hold
  obtain ⟨i, hr⟩ := List.mem_iff_getElem?.mp hmem
  have hlti := h.alive_of_record hr ((h.sound.complete_iff r hmem).mpr halive)
  refine ⟨_, by simp only [Process.step, Monitor.registerSelf, hlti]; rfl, ?_⟩
  refine { h with returned := ?_, increasing := ?_, handlers := ?_, noHandlers := ?_ }
  · simpa using h.handlers
  · simpa using h.noHandlers
  · intro t j
    rw [List.mem_append, h.returned, List.mem_singleton, Prod.mk.injEq]
    refine ⟨?_, .inl⟩
    rintro (hfound | ⟨rfl, rfl⟩)
    · exact hfound
    · exact ⟨r, hr, rfl⟩
  · exact increasing_append h.increasing fun hnew =>
      absurd (List.mem_map.mpr ⟨(r.lifetime, i), (h.returned _ _).mpr ⟨r, hr, rfl⟩, rfl⟩) hnew

/-- Registering for the first time: the next position, if the id type still has it. -/
theorem register_new (h : Tracks native s R) {thread : Lifetime} (halive : thread ∈ R.alive)
    (hnew : thread ∉ R.records.map Record.lifetime) (startTime : Int) (clocks : Clocks)
    (hfits : R.records.length < idCount) :
    ∃ s', s.step native (.registerSelf thread startTime clocks) = some s' ∧
      Tracks native s'
        { R with records := R.records ++ [.opened native thread startTime clocks] } := by
  have hunknown := h.alive_eq_none halive hnew
  have hid : s.monitor.nextId = R.records.length := by
    rw [h.nextId, Nat.mod_eq_of_lt hfits]
  -- `insert` finds nothing at the next position: that is where positions have to fit
  have hvacant : s.monitor.threads R.records.length = none := by
    rw [h.threads, List.getElem?_eq_none (Nat.le_refl _), Option.map_none]
  have hbelow : ∀ p ∈ s.returned, p.2 < R.records.length := by
    intro p hp
    obtain ⟨r, hr, _⟩ := (h.returned p.1 p.2).mp hp
    exact (List.getElem?_eq_some_iff.mp hr).1
  -- no record is of this lifetime
  have hother : ∀ r ∈ R.records, r.lifetime ≠ thread := fun r hr heq =>
    hnew (List.mem_map.mpr ⟨r, hr, heq⟩)
  refine ⟨_, by simp only [Process.step, Monitor.registerSelf, hunknown]; rfl,
    h.sound.opened halive hnew startTime clocks, ?_, ?_, ?_, ?_, ?_, ?_, ?_⟩
  · intro i
    simp only [Monitor.insertThread, hid, hvacant]
    rcases Nat.lt_trichotomy i R.records.length with hlt | rfl | hgt
    · rw [if_neg (by omega), h.threads, List.getElem?_append_left hlt]
    · simp [Record.opened]
    · rw [if_neg (by omega), h.threads, List.getElem?_eq_none (by omega),
        List.getElem?_eq_none (by simp; omega)]
  · simp only [hid, List.length_append, List.length_singleton]
  · intro n lti
    simp only [hid]
    constructor
    · intro hlti
      split at hlti
      next heq =>
        exact ⟨R.records.length, _, List.getElem?_concat_length, heq.symm, rfl,
          (Option.some.inj hlti).symm⟩
      next hne =>
        obtain ⟨i, r, hr, hrest⟩ := (h.aliveThreads n lti).mp hlti
        exact ⟨i, r, by rw [List.getElem?_append_left (List.getElem?_eq_some_iff.mp hr).1, hr],
          hrest⟩
    · rintro ⟨i, r, hr, rfl, hrunning, rfl⟩
      rcases getElem?_append_singleton_cases hr with ⟨hlt, hr⟩ | ⟨rfl, rfl⟩
      · have hmem := List.mem_of_getElem? hr
        have hne : native r.lifetime ≠ native thread := fun heq =>
          hother r hmem (h.sound.natives _ ((h.sound.complete_iff r hmem).mp hrunning) _ halive heq)
        rw [if_neg hne]
        exact h.alive_of_record hr hrunning
      · exact if_pos rfl
  · intro r hr hrunning
    rcases List.mem_append.mp hr with hr | hr
    · simpa [hother r hr] using h.handlers r hr hrunning
    · obtain rfl := List.mem_singleton.mp hr
      have hnone := h.noHandlers thread fun r hr heq => absurd heq (hother r hr)
      simp [Record.opened, hnone]
  · intro t hall
    have hne : t ≠ thread := by
      rintro rfl
      have := hall (.opened native t startTime clocks) (by simp) rfl
      cases this
    simpa [hne] using h.noHandlers t fun r hr => hall r (by simp [hr])
  · intro t i
    rw [List.mem_append, h.returned, List.mem_singleton, Prod.mk.injEq, hid]
    constructor
    · rintro (⟨r, hr, hrt⟩ | ⟨rfl, rfl⟩)
      · exact ⟨r, by rw [List.getElem?_append_left (List.getElem?_eq_some_iff.mp hr).1, hr], hrt⟩
      · exact ⟨_, List.getElem?_concat_length, rfl⟩
    · rintro ⟨r, hr, hrt⟩
      rcases getElem?_append_singleton_cases hr with ⟨hlt, hr⟩ | ⟨rfl, rfl⟩
      · exact .inl ⟨r, hr, hrt⟩
      · exact .inr ⟨hrt.symm, rfl⟩
  · rw [hid]
    exact increasing_append h.increasing fun _ => hbelow

/-- Exit of a lifetime that never registered: it has no callback to run. -/
theorem exit_unknown (h : Tracks native s R) {thread : Lifetime}
    (hnew : thread ∉ R.records.map Record.lifetime) (clocks : Clocks) (uptime : Int) :
    ∃ s', s.step native (.exit thread clocks uptime) = some s' ∧ Tracks native s'
      { R with
        alive := R.alive.filter (· ≠ thread)
        records := R.records.map fun r =>
          if r.lifetime = thread then r.closed clocks uptime else r } := by
  have hsound := h.sound.exited thread clocks uptime
  have hother : ∀ r ∈ R.records, r.lifetime ≠ thread := fun r hr heq =>
    hnew (List.mem_map.mpr ⟨r, hr, heq⟩)
  have hnone := h.noHandlers thread fun r hr heq => absurd heq (hother r hr)
  -- there is no record to close
  have hsame : (R.records.map fun r => if r.lifetime = thread then r.closed clocks uptime else r)
      = R.records := by
    conv_rhs => rw [← List.map_id R.records]
    exact List.map_congr_left fun r hr => if_neg (hother r hr)
  rw [hsame] at hsound
  refine ⟨_, by simp only [Process.step, hnone, runHandlers]; rfl, ?_⟩
  rw [hsame]
  refine { h with sound := hsound, handlers := ?_, noHandlers := ?_ }
  · intro r hr hrunning
    simpa [hother r hr] using h.handlers r hr hrunning
  · intro t hall
    simp only
    split
    · rfl
    · exact h.noHandlers t hall

/-- Exit of a lifetime that has registered: its callback finds and closes its own entry. -/
theorem exit_known (h : Tracks native s R) {i : Nat} {r : Record} (hr : R.records[i]? = some r)
    (halive : r.lifetime ∈ R.alive) (clocks : Clocks) (uptime : Int) :
    ∃ s', s.step native (.exit r.lifetime clocks uptime) = some s' ∧ Tracks native s'
      { R with
        alive := R.alive.filter (· ≠ r.lifetime)
        records := R.records.map fun r' =>
          if r'.lifetime = r.lifetime then r'.closed clocks uptime else r' } := by
  have hmem := List.mem_of_getElem? hr
  have hrunning := (h.sound.complete_iff r hmem).mpr halive
  have hlti := h.alive_of_record hr hrunning
  have hentry : s.monitor.threads i = some r.info := by rw [h.threads, hr, Option.map_some]
  -- no other record is of this lifetime
  have hother : ∀ j r', R.records[j]? = some r' → j ≠ i → r'.lifetime ≠ r.lifetime :=
    fun j r' hr' hji heq => hji (h.sound.index_unique hr' hr heq)
  -- the callback finds the entry by the native id, which is its own as long as it runs
  have hexit : s.monitor.threadExited (native r.lifetime) clocks uptime = some { s.monitor with
      threads := fun k => if k = i then some (r.closed clocks uptime).info else s.monitor.threads k
      aliveThreads := fun n =>
        if n = native r.lifetime then none else s.monitor.aliveThreads n } := by
    simp only [Monitor.threadExited, hlti, hentry, h.updateLiveInfo_eq hr hrunning,
      Option.bind_eq_bind, Option.bind_some]
    rfl
  refine ⟨_, by
    simp only [Process.step, h.handlers r hmem hrunning, runHandlers, hexit, Option.bind_eq_bind,
      Option.bind_some]
    rfl, h.sound.exited r.lifetime clocks uptime, ?_, by simpa using h.nextId, ?_, ?_, ?_, ?_, ?_⟩
  · intro j
    -- the entry itself, or another one
    by_cases hji : j = i
    · subst hji
      simp [hr]
    · simp only [if_neg hji, h.threads, List.getElem?_map, Option.map_map]
      cases hr' : R.records[j]? with
      | none => rfl
      | some r' => simp [hother j r' hr' hji]
  · intro n lti
    constructor
    · intro hlti'
      simp only [Option.ite_none_left_eq_some] at hlti'
      obtain ⟨hne, hlti'⟩ := hlti'
      obtain ⟨j, r', hr', rfl, hrest⟩ := (h.aliveThreads n lti).mp hlti'
      have hne' : r'.lifetime ≠ r.lifetime := fun heq => hne (by rw [heq])
      exact ⟨j, r', by simp [hr', hne'], rfl, hrest⟩
    · rintro ⟨j, r', hr', rfl, hrun', rfl⟩
      rw [List.getElem?_map, Option.map_eq_some_iff] at hr'
      obtain ⟨r₀, hr₀, hpick⟩ := hr'
      split at hpick
      · subst hpick
        cases hrun'
      next hne =>
        subst hpick
        have hnative : native r₀.lifetime ≠ native r.lifetime := fun heq =>
          hne (congrArg Record.lifetime (h.sound.record_unique hr₀ hr hrun' hrunning heq).2)
        simp only [if_neg hnative]
        exact h.alive_of_record hr₀ hrun'
  · intro r' hr' hrun'
    obtain ⟨r₀, hr₀, hpick⟩ := List.mem_map.mp hr'
    split at hpick
    · subst hpick
      cases hrun'
    next hne =>
      subst hpick
      simpa [hne] using h.handlers r₀ hr₀ hrun'
  · intro t hall
    simp only
    split
    · rfl
    next hne =>
      refine h.noHandlers t fun r' hr' heq => ?_
      have hne' : r'.lifetime ≠ r.lifetime := heq ▸ hne
      exact hall r' (List.mem_map.mpr ⟨r', hr', if_neg hne'⟩) heq
  · intro t j
    rw [h.returned]
    constructor
    · rintro ⟨r', hr', rfl⟩
      refine ⟨_, by rw [List.getElem?_map, hr', Option.map_some], ?_⟩
      split <;> rfl
    · rintro ⟨r', hr', rfl⟩
      rw [List.getElem?_map, Option.map_eq_some_iff] at hr'
      obtain ⟨r₀, hr₀, rfl⟩ := hr'
      refine ⟨r₀, hr₀, ?_⟩
      split <;> rfl
  · exact h.increasing

/-- **One step.** While positions fit the id type, the process follows the registry. -/
theorem step (h : Tracks native s R) {a : Action} (hstep : R.step native a = some R')
    (hfits : R'.records.length ≤ idCount) :
    ∃ s', s.step native a = some s' ∧ Tracks native s' R' := by
  cases Registry.happens_of_step hstep with
  | started hnew hfree => exact ⟨s, rfl, { h with sound := h.sound.started hnew hfree }⟩
  | again startTime clocks halive hold => exact h.register_again halive hold startTime clocks
  | opened startTime clocks halive hnew =>
    rw [List.length_append, List.length_singleton] at hfits
    exact h.register_new halive hnew startTime clocks hfits
  | @exited thread clocks uptime halive =>
    by_cases hold : thread ∈ R.records.map Record.lifetime
    · obtain ⟨r, hmem, rfl⟩ := List.mem_map.mp hold
      obtain ⟨i, hr⟩ := List.mem_iff_getElem?.mp hmem
      exact h.exit_known hr halive clocks uptime
    · exact h.exit_unknown hold clocks uptime
  | asked requests => exact ⟨s, rfl, h⟩

/-- An id is known to `get_info` exactly if `register_self` has returned it, … -/
theorem record_of_returned (h : Tracks native s R) {t : Lifetime} {i : Nat}
    (hid : (t, i) ∈ s.returned) : ∃ r, R.records[i]? = some r := by
  obtain ⟨r, hr, _⟩ := (h.returned t i).mp hid
  exact ⟨r, hr⟩

/-- … and is answered by its own record. -/
theorem getInfo_cons (h : Tracks native s R) {i : Nat} {r : Record} (hr : R.records[i]? = some r)
    (clocks : Clocks) (requests : List (Nat × Clocks)) :
    ∃ answer, R.answer (i, clocks) = some answer ∧
      s.monitor.getInfo ((i, clocks) :: requests)
        = (answer :: (s.monitor.getInfo requests).1, (s.monitor.getInfo requests).2) := by
  have hmem := List.mem_of_getElem? hr
  have hiff := h.sound.complete_iff r hmem
  have hentry : s.monitor.threads i = some r.info := by rw [h.threads, hr, Option.map_some]
  refine ⟨_, by rw [Registry.answer, hr, Option.map_some], ?_⟩
  cases hcomplete : r.info.complete with
  -- it runs: refreshed by its own accessor
  | false =>
    rw [Monitor.getInfo, hentry]
    simp [hcomplete, hiff.mp hcomplete, h.sound.infoNative r hmem, h.updateLiveInfo_eq hr hcomplete]
  -- it has exited: as it was closed
  | true =>
    have hgone : r.lifetime ∉ R.alive := fun halive => by
      have := hiff.mpr halive
      rw [hcomplete] at this
      cases this
    rw [Monitor.getInfo, hentry]
    simp [hcomplete, hgone]

/-- Known ids are answered in order, whatever comes after them. -/
theorem getInfo_append (h : Tracks native s R) :
    ∀ (known rest : List (Nat × Clocks)), (∀ q ∈ known, ∃ t, (t, q.1) ∈ s.returned) →
      ∃ answers, known.mapM R.answer = some answers ∧
        s.monitor.getInfo (known ++ rest)
          = (answers ++ (s.monitor.getInfo rest).1, (s.monitor.getInfo rest).2)
  | [], rest, _ => ⟨[], rfl, rfl⟩
  | (i, clocks) :: known, rest, hknown => by
    obtain ⟨t, hid⟩ := hknown (i, clocks) List.mem_cons_self
    obtain ⟨r, hr⟩ := h.record_of_returned hid
    obtain ⟨answers, hanswers, hrest⟩ :=
      h.getInfo_append known rest fun q hq => hknown q (List.mem_cons_of_mem _ hq)
    obtain ⟨answer, hanswer, hfirst⟩ := h.getInfo_cons hr clocks (known ++ rest)
    refine ⟨answer :: answers, ?_, ?_⟩
    · simp [List.mapM_cons, hanswer, hanswers]
    · rw [List.cons_append, hfirst, hrest]
      rfl

/-- An id that was never returned is refused. -/
theorem getInfo_unknown (h : Tracks native s R) {i : Nat} (hid : ∀ t, (t, i) ∉ s.returned)
    (clocks : Clocks) (rest : List (Nat × Clocks)) :
    s.monitor.getInfo ((i, clocks) :: rest) = ([], some "Unknown thread id!") := by
  have hnone : R.records[i]? = none := by
    rw [Option.eq_none_iff_forall_ne_some]
    exact fun r hr => hid r.lifetime ((h.returned _ _).mpr ⟨r, hr, rfl⟩)
  rw [Monitor.getInfo, h.threads, hnone, Option.map_none]

end Tracks

/-! ## Whole runs -/

/-- A run that ends with lifetimes that fit the id type has never had too many. -/
theorem Registry.fits_of_run {native : Lifetime → NativeId} {R R' : Registry} (as : List Action)
    (hrun : run (Registry.step native) R as = some R') (hfits : R'.records.length ≤ idCount) :
    R.records.length ≤ idCount :=
  run_invariant_back (P := fun R => R.records.length ≤ idCount)
    (fun _ _ _ hstep hle => Nat.le_trans (Registry.length_le_of_step hstep) hle) as R R' hrun hfits

/-- **The process follows the registry**, along every run whose lifetimes fit the id type. -/
theorem process_tracks {native : Lifetime → NativeId} {s : Process} {R R' : Registry}
    (h : Tracks native s R) (as : List Action) (hrun : run (Registry.step native) R as = some R')
    (hfits : R'.records.length ≤ idCount) :
    ∃ s', run (Process.step native) s as = some s' ∧ Tracks native s' R' :=
  run_simulates_while (P := fun R => R.records.length ≤ idCount)
    (fun _ _ _ hstep hle => Nat.le_trans (Registry.length_le_of_step hstep) hle)
    (fun _ _ _ _ hR hstep hle => hR.step hstep hle) as s R R' h hrun hfits

/-- A complete record survives every run. -/
theorem Registry.complete_stays {native : Lifetime → NativeId} {R R' : Registry}
    (h : R.Sound native) (as : List Action) (hrun : run (Registry.step native) R as = some R')
    {i : Nat} {r : Record} (hr : R.records[i]? = some r) (hcomplete : r.info.complete = true) :
    R'.records[i]? = some r :=
  (run_invariant (P := fun R => R.Sound native ∧ R.records[i]? = some r)
    (fun _ _ _ hR hstep => ⟨hR.1.step hstep, hR.1.step_complete hstep hR.2 hcomplete⟩)
    as R R' ⟨h, hr⟩ hrun).2

/-- **Thread identity.** In every interleaving of thread starts, `register_self`, exits and queries
    that the operating system lets happen, with native ids reused at will, as long as no more
    lifetimes have registered than `thread_id` has values:
    a lifetime is always given the same id; two lifetimes are given different ids, increasing in
    the order they first register; an entry marked complete at any moment stays as it is; and
    `get_info` returns the requested ids in order, each with its own lifetime's data, refreshed
    exactly if that lifetime still runs, and throws at the first id it never returned. -/
theorem thread_identity (native : Lifetime → NativeId) (as : List Action) (R : Registry)
    (hrun : run (Registry.step native) .init as = some R)
    (hfits : R.records.length ≤ idCount) :
    ∃ s, run (Process.step native) .init as = some s ∧
      (∀ t i j, (t, i) ∈ s.returned → (t, j) ∈ s.returned → i = j) ∧
      (∀ t t' i, (t, i) ∈ s.returned → (t', i) ∈ s.returned → t = t') ∧
      Increasing s.returned ∧
      (∀ before after, as = before ++ after →
        ∃ s₁, run (Process.step native) .init before = some s₁ ∧
          ∀ i info, s₁.monitor.threads i = some info → info.complete = true →
            s.monitor.threads i = some info) ∧
      (∀ requests, (∀ q ∈ requests, ∃ t, (t, q.1) ∈ s.returned) →
        ∃ answers, requests.mapM R.answer = some answers ∧
          s.monitor.getInfo requests = (answers, none)) ∧
      (∀ known i clocks rest, (∀ q ∈ known, ∃ t, (t, q.1) ∈ s.returned) →
        (∀ t, (t, i) ∉ s.returned) →
        ∃ answers, known.mapM R.answer = some answers ∧
          s.monitor.getInfo (known ++ (i, clocks) :: rest)
            = (answers, some "Unknown thread id!")) := by
  obtain ⟨s, hs, htracks⟩ := process_tracks (tracks_init native) as hrun hfits
  refine ⟨s, hs, ?_, ?_, htracks.increasing, ?_, ?_, ?_⟩
  · intro t i j hi hj
    obtain ⟨r, hr, rfl⟩ := (htracks.returned t i).mp hi
    obtain ⟨r', hr', hsame⟩ := (htracks.returned _ j).mp hj
    exact htracks.sound.index_unique hr hr' hsame.symm
  · intro t t' i hi hi'
    obtain ⟨r, hr, rfl⟩ := (htracks.returned t i).mp hi
    obtain ⟨r', hr', rfl⟩ := (htracks.returned t' i).mp hi'
    rw [Option.some.inj (hr.symm.trans hr')]
  · rintro before after rfl
    obtain ⟨R₁, hR₁, hrest⟩ := run_append_eq_some.mp hrun
    obtain ⟨s₁, hs₁, htracks₁⟩ := process_tracks (tracks_init native) before hR₁
      (Registry.fits_of_run after hrest hfits)
    refine ⟨s₁, hs₁, fun i info hinfo hcomplete => ?_⟩
    rw [htracks₁.threads, Option.map_eq_some_iff] at hinfo
    obtain ⟨r, hr, rfl⟩ := hinfo
    rw [htracks.threads, Registry.complete_stays htracks₁.sound after hrest hr hcomplete,
      Option.map_some]
  · intro requests hknown
    obtain ⟨answers, hanswers, hinfo⟩ := htracks.getInfo_append requests [] hknown
    refine ⟨answers, hanswers, ?_⟩
    rw [List.append_nil] at hinfo
    rw [hinfo]
    simp [Monitor.getInfo]
  · intro known i clocks rest hknown hunknown
    obtain ⟨answers, hanswers, hinfo⟩ :=
      htracks.getInfo_append known ((i, clocks) :: rest) hknown
    refine ⟨answers, hanswers, ?_⟩
    rw [hinfo, htracks.getInfo_unknown hunknown clocks rest, List.append_nil]

/-- A native id taken over: the second owner registers, the first one's entry is complete. -/
theorem thread_identity_reused :
    ∃ s, run (Process.step fun _ => 7) .init
        [.start 0, .registerSelf 0 5 fun _ => ⟨3, none⟩, .exit 0 (fun _ => ⟨4, none⟩) 20,
         .start 1, .registerSelf 1 30 fun _ => ⟨1, some "worker"⟩] = some s ∧
      Increasing s.returned := by
  obtain ⟨s, hs, _, _, hincreasing, _⟩ := thread_identity (fun _ => 7)
    [.start 0, .registerSelf 0 5 fun _ => ⟨3, none⟩, .exit 0 (fun _ => ⟨4, none⟩) 20,
     .start 1, .registerSelf 1 30 fun _ => ⟨1, some "worker"⟩] _ rfl (by decide)
  exact ⟨s, hs, hincreasing⟩

/-! ## Where ids wrap -/

/-- One thread after another, each registering once; `n` of them, all with one native id. -/
def churn (n : Nat) : List Action :=
  (List.range n).flatMap fun k =>
    [.start k, .registerSelf k 0 fun _ => ⟨0, none⟩, .exit k (fun _ => ⟨0, none⟩) 0]

theorem churn_succ (n : Nat) : churn (n + 1) = churn n ++
    [.start n, .registerSelf n 0 fun _ => ⟨0, none⟩, .exit n (fun _ => ⟨0, none⟩) 0] := by
  rw [churn, List.range_succ, List.flatMap_append, List.flatMap_singleton]
  rfl

/-- The operating system lets all of it happen. -/
theorem churn_allowed (n : Nat) :
    ∃ R, run (Registry.step fun _ => 7) .init (churn n) = some R ∧ R.alive = [] ∧
      (∀ t ∈ R.started, t < n) ∧ ∀ t ∈ R.records.map Record.lifetime, t < n := by
  induction n with
  | zero => exact ⟨.init, rfl, rfl, by simp [Registry.init], by simp [Registry.init]⟩
  | succ n ih =>
    obtain ⟨R, hrun, halive, hstarted, hrecords⟩ := ih
    have hnew : n ∉ R.started := fun h => Nat.lt_irrefl n (hstarted n h)
    have hnew' : n ∉ R.records.map Record.lifetime := fun h => Nat.lt_irrefl n (hrecords n h)
    rw [churn_succ, run_append, hrun]
    refine ⟨_, by
      simp only [Option.bind_some, run_cons, run_nil, Registry.step, halive, hnew, hnew',
        List.not_mem_nil, not_false_eq_true, IsEmpty.forall_iff, implies_true, and_self, if_true,
        List.mem_singleton, not_true_eq_false, if_false]
      rfl, by simp, fun t ht => ?_, fun t ht => ?_⟩
    · rcases List.mem_cons.mp ht with rfl | ht
      · exact Nat.lt_succ_self _
      · exact Nat.lt_succ_of_lt (hstarted t ht)
    · obtain ⟨r', hr', rfl⟩ := List.mem_map.mp ht
      obtain ⟨r, hr, rfl⟩ := List.mem_map.mp hr'
      have hlifetime : r.lifetime < n + 1 := by
        rcases List.mem_append.mp hr with hr | hr
        · exact Nat.lt_succ_of_lt (hrecords _ (List.mem_map.mpr ⟨r, hr, rfl⟩))
        · rw [List.mem_singleton.mp hr]
          exact Nat.lt_succ_self _
      split <;> exact hlifetime

/-- What the process has come to after `n` of them. -/
structure Churned (n : Nat) (s : Process) : Prop where
  aliveThreads : ∀ k, s.monitor.aliveThreads k = none
  nextId : s.monitor.nextId = n % idCount
  handlers : ∀ t, s.handlers t = []
  returned : ∀ t, t < n → (t, t % idCount) ∈ s.returned

/-- Thread `t` is given `t` modulo the number of ids. -/
theorem churn_runs (n : Nat) :
    ∃ s, run (Process.step fun _ => 7) .init (churn n) = some s ∧ Churned n s := by
  induction n with
  | zero => exact ⟨.init, rfl, fun _ => rfl, rfl, fun _ => rfl, fun t ht => by omega⟩
  | succ n ih =>
    obtain ⟨s, hrun, hs⟩ := ih
    rw [churn_succ, run_append, hrun]
    refine ⟨_, by
      simp only [Option.bind_some, run_cons, run_nil, Process.step, Monitor.registerSelf,
        hs.aliveThreads, hs.handlers, decide_true, Bool.and_true, if_true, runHandlers,
        Monitor.threadExited, Monitor.insertThread, Option.bind_eq_bind]
      rfl, ?_, ?_, ?_, ?_⟩
    · intro k
      simp
    · simp [hs.nextId, Nat.add_mod]
    · intro t
      simp only
      split <;> simp_all
    · intro t ht
      rcases Nat.lt_or_eq_of_le (Nat.le_of_lt_succ ht) with hlt | rfl
      · exact List.mem_append_left _ (hs.returned t hlt)
      · simp [hs.nextId]

/-- **Ids wrap.** One lifetime more than `thread_id` has values, one after another: the first and
    the last are given the same id. -/
theorem ids_wrap :
    ∃ R s, run (Registry.step fun _ => 7) .init (churn (idCount + 1)) = some R ∧
      run (Process.step fun _ => 7) .init (churn (idCount + 1)) = some s ∧
      (0, 0) ∈ s.returned ∧ (idCount, 0) ∈ s.returned ∧ 0 ≠ idCount := by
  obtain ⟨R, hR, _⟩ := churn_allowed (idCount + 1)
  obtain ⟨s, hs, hchurned⟩ := churn_runs (idCount + 1)
  have hfirst := hchurned.returned 0 (Nat.succ_pos _)
  have hlast := hchurned.returned idCount (Nat.lt_succ_self _)
  rw [Nat.zero_mod] at hfirst
  rw [Nat.mod_self] at hlast
  exact ⟨R, s, hR, hs, hfirst, hlast, by decide⟩

end MicroProfiler.ThreadMonitor
