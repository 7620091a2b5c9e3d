/-
  Files read and written off the UI thread: `frontend/async_file.h`.

  1. **Program** — `async_file_read` and `async_file_write` make a request with a private worker queue
     of its own, put it into the caller's slot (which DESTROYS the request that was there) and
     schedule one task: open the file, perform the operation, deliver the outcome, whatever was
     thrown.  Clients keep slots and ask again and again, while the worker, the apartment and
     whoever else writes to the files go on in any order (`Client.step`).  The slots are the
     apartment's: no request goes while the apartment is between a test and the answer it allows.

  2. **Specification** — answers come in the order of the requests, at most one each, none to a
     request that was superseded or dropped, each the outcome of its OWN operation on the files as
     they were; and once the queues are idle every request still in a slot has been answered.

  3. **The crux (`Sound.order`)** — the requests answered, those whose outcome waits in the apartment,
     the one being performed and those waiting for the worker form ONE strictly increasing line.
-/
import MicroProfiler.Scheduler.PrivateQueue

namespace MicroProfiler.Frontend.AsyncFile

open Scheduler

/-! ## The operations -/

/-- Files, and which paths can be opened for writing. -/
structure Files where
  /-- `none` where there is no file -/
  content : String → Option (List UInt8)
  /-- an `fopen` for writing succeeds; it does not depend on what is there -/
  creatable : String → Bool

/-- The task of `async_file_read`: `none` for a file that cannot be opened and for a reader that
    throws. -/
def read {T : Type} (reader : List UInt8 → Option T) (path : String) (files : Files) :
    Files × Option T :=
  match files.content path with
  | some bytes => (files, reader bytes)
  | none => (files, none)

/-- The task of `async_file_write`; `writer` is what it writes and whether it throws then.  What was
    written before the throw stays in the file, and the outcome tells that it failed. -/
def write (writer : List UInt8 × Bool) (path : String) (files : Files) : Files × Bool :=
  if files.creatable path then
    ({ files with content := Function.update files.content path (some writer.1) }, !writer.2)
  else (files, false)

/-! ## Clients with slots -/

variable {κ F ρ : Type}

/-- `requests` counts the requests made, `slots` are the callers' `shared_ptr`s, `performed` tells
    whether the task being executed has delivered, `performedOn` on which files each request was
    performed. -/
structure Client (κ F ρ : Type) where
  /-- one private worker queue a request, all on one worker and one apartment -/
  queues : Queues Nat (F → F × ρ) ρ
  /-- the next request's number, that is also the name of its queue -/
  requests : Nat
  slots : κ → Option Nat
  files : F
  performed : Bool
  performedOn : List (Nat × F)

inductive Event (κ F ρ : Type)
  /-- `async_file_read`, `async_file_write` -/
  | start (k : κ) (operation : F → F × ρ)
  /-- a slot is reset -/
  | drop (k : κ)
  | workerNext
  | perform
  | workerDone
  | apartmentNext
  /-- somebody else changes the files -/
  | touch (files : F)

namespace Client

def init (files : F) : Client κ F ρ := ⟨.empty, 0, fun _ => none, files, false, []⟩

/-- Assigning to a slot: the request in it goes, and with it the queue it owns.  The request is the
    apartment's, so that it goes there (`true`). -/
def release (c : Client κ F ρ) (k : κ) : List (QueueEvent Nat (F → F × ρ) ρ) :=
  match c.slots k with
  | some n => [.destroy n true]
  | none => []

/-- What a client does to the queues, several events at once where no other can come between. -/
def onQueues (c : Client κ F ρ) (es : List (QueueEvent Nat (F → F × ρ) ρ)) :
    Option (Client κ F ρ) :=
  (Lib.run Queues.step c.queues es).map fun queues => { c with queues }

/-- One event.  `none` is an event that cannot happen then: nothing to take, or a task that delivers
    twice. -/
def step [DecidableEq κ] (c : Client κ F ρ) : Event κ F ρ → Option (Client κ F ρ)
  -- the new request is made before the old one in the slot goes
  | .start k operation =>
    (c.onQueues (.create c.requests :: (c.release k ++ [.schedule c.requests operation]))).map
      fun c => { c with slots := Function.update c.slots k (some c.requests),
                        requests := c.requests + 1 }
  | .drop k =>
    (c.onQueues (c.release k)).map fun c => { c with slots := Function.update c.slots k none }
  | .workerNext => (c.onQueues [.workerNext]).map fun c => { c with performed := false }
  | .perform =>
    match c.queues.running with
    | some (n, operation) =>
      -- a task delivers once
      if c.performed then none
      else
        (c.onQueues [.deliver (operation c.files).2]).map fun c' =>
          { c' with files := (operation c.files).1, performed := true,
                    performedOn := c.performedOn ++ [(n, c.files)] }
    | none => none
  | .workerDone => if c.performed then c.onQueues [.workerDone] else none
  -- the test of `alive` and the answer, with nothing of the apartment between them
  | .apartmentNext => c.onQueues [.apartmentNext, .apartmentRun]
  | .touch files => some { c with files }

/-! ## The line of requests -/

/-- The request being performed, until its outcome is delivered: afterwards it stands among those in
    the apartment. -/
def pending (c : Client κ F ρ) : List Nat :=
  if c.performed then [] else (c.queues.running.map Prod.fst).toList

/-- From the answered to the waiting.  A request moves along this line, front to back, and never
    overtakes. -/
def line (c : Client κ F ρ) : List Nat :=
  c.queues.ran.map Prod.fst ++ (c.queues.apartment.map Prod.fst
    ++ (c.pending ++ c.queues.worker.map Prod.fst))

/-- The outcome of a request's own operation, on the files it was performed on.  Who else wrote to
    them before is in `files`, who writes later is not. -/
def Answers (c : Client κ F ρ) (e : Nat × ρ) : Prop :=
  ∃ operation files, (e.1, operation) ∈ c.queues.scheduled ∧ (e.1, files) ∈ c.performedOn ∧
    e.2 = (operation files).2

/-- The slots hold EXACTLY the requests that are alive, each in one slot. -/
structure Slotted (life : Nat → Life) (requests : Nat) (slots : κ → Option Nat) : Prop where
  alive : ∀ n, life n = .alive ↔ ∃ k, slots k = some n
  unborn : ∀ n, life n = .unborn ↔ requests ≤ n
  distinct : ∀ k k' n, slots k = some n → slots k' = some n → k = k'

/-- The INVARIANT.  `order` and `made` make a request's place in the line that of its number,
    `present` keeps every request that is still in a slot in the line, and `answers` says what the
    outcomes are. -/
structure Sound (c : Client κ F ρ) : Prop where
  /-- what a private worker queue keeps by itself -/
  queues : c.queues.Sound
  /-- no request is between the test and its answer -/
  between : c.queues.passing = none
  /-- who is alive is in a slot -/
  slotted : Slotted c.queues.life c.requests c.slots
  /-- the line is one of increasing numbers -/
  order : c.line.Pairwise (· < ·)
  made : ∀ n ∈ c.line, n < c.requests
  /-- a request leaves the line by being answered, or dead -/
  present : ∀ n, c.queues.life n = .alive → n ∈ c.line
  /-- only what was scheduled is performed -/
  running : ∀ e, c.queues.running = some e → e ∈ c.queues.scheduled
  worker : ∀ e ∈ c.queues.worker, e ∈ c.queues.scheduled
  answers : ∀ e ∈ c.queues.ran ++ c.queues.apartment, c.Answers e
  /-- every request scheduled one task -/
  asked : c.queues.scheduled.map Prod.fst = List.range c.requests

/-- Nothing was asked for. -/
theorem sound_init (files : F) : (init files : Client κ F ρ).Sound where
  queues := Queues.sound_empty
  between := rfl
  slotted := {
    alive := fun _ => ⟨fun h => (by cases h), fun ⟨_, h⟩ => (by cases h)⟩
    unborn := fun n => ⟨fun _ => Nat.zero_le n, fun _ => rfl⟩
    distinct := fun _ _ _ h _ => (by cases h) }
  order := List.Pairwise.nil
  made _ h := by cases h
  present _ h := by cases h
  running _ h := by cases h
  worker _ h := by cases h
  answers _ h := by cases h
  asked := rfl

/-! ## What the events do to the queues and to the slots -/

theorem onQueues_eq_some {c c' : Client κ F ρ} {es : List (QueueEvent Nat (F → F × ρ) ρ)} :
    c.onQueues es = some c' ↔
      ∃ queues, Lib.run Queues.step c.queues es = some queues ∧ { c with queues } = c' := by
  rw [onQueues, Option.map_eq_some_iff]

/-- A single event of the queues. -/
theorem queues_run_one {q q' : Queues Nat (F → F × ρ) ρ} {e : QueueEvent Nat (F → F × ρ) ρ}
    (h : Lib.run Queues.step q [e] = some q') : q.step e = some q' := by
  obtain ⟨t, ht, hnil⟩ := Lib.run_cons_eq_some.1 h
  rw [ht]
  exact hnil

/-- Releasing a slot kills the request in it and changes nothing else. -/
theorem release_spec {c : Client κ F ρ} {k : κ} {q q' : Queues Nat (F → F × ρ) ρ}
    (h : Lib.run Queues.step q (c.release k) = some q') :
    ∃ life, q' = { q with life } ∧ (∀ n, c.slots k = some n → life n = .dead) ∧
      ∀ n, c.slots k ≠ some n → life n = q.life n := by
  rw [release] at h
  split at h
  · -- a request was in the slot: its queue is destroyed
    next n hn =>
    have hstep := queues_run_one h
    simp only [Queues.step] at hstep
    split at hstep <;> cases hstep
    refine ⟨_, rfl, fun m hm => ?_, fun m hm => ?_⟩
    · obtain rfl : n = m := Option.some.inj (hn.symm.trans hm)
      exact Function.update_self ..
    · exact Function.update_of_ne (fun heq => hm (by rw [heq, hn])) _ _
  · -- the slot was empty
    next hnone =>
    cases h
    refine ⟨q.life, rfl, fun n hn => ?_, fun _ _ => rfl⟩
    rw [hnone] at hn
    cases hn

/-- What a new request does to the queues: its task is the worker's last, it is alive, the one it
    supersedes is dead, and no other is touched. -/
theorem start_spec {c : Client κ F ρ} {k : κ} {operation : F → F × ρ}
    {q : Queues Nat (F → F × ρ) ρ}
    (h : Lib.run Queues.step c.queues
      (.create c.requests :: (c.release k ++ [.schedule c.requests operation])) = some q) :
    ∃ life, q = { c.queues with
        life, worker := c.queues.worker ++ [(c.requests, operation)],
        scheduled := c.queues.scheduled ++ [(c.requests, operation)] } ∧
      life c.requests = .alive ∧ (∀ n, c.slots k = some n → life n = .dead) ∧
      ∀ n, n ≠ c.requests → c.slots k ≠ some n → life n = c.queues.life n := by
  obtain ⟨q₁, hcreate, hrest⟩ := Lib.run_cons_eq_some.1 h
  obtain ⟨q₂, hrelease, hschedule⟩ := Lib.run_append_eq_some.1 hrest
  simp only [Queues.step] at hcreate
  split at hcreate <;> cases hcreate
  obtain ⟨life, rfl, hdead, hsame⟩ := release_spec hrelease
  have hstep := queues_run_one hschedule
  simp only [Queues.step] at hstep
  split at hstep <;> cases hstep
  next halive =>
  exact ⟨life, rfl, halive, hdead, fun n hn hk => (hsame n hk).trans (Function.update_of_ne hn _ _)⟩

/-- The apartment takes an outcome, and answers if the request is alive. -/
theorem apartment_spec {q q' : Queues Nat (F → F × ρ) ρ} (hbetween : q.passing = none)
    (h : Lib.run Queues.step q [.apartmentNext, .apartmentRun] = some q') :
    ∃ n outcome rest, q.apartment = (n, outcome) :: rest ∧
      ((q.life n = .alive ∧ q' = { q with apartment := rest, ran := q.ran ++ [(n, outcome)] }) ∨
        (q.life n ≠ .alive ∧ q' = { q with apartment := rest })) := by
  obtain ⟨q₁, hnext, hlast⟩ := Lib.run_cons_eq_some.1 h
  have hrun := queues_run_one hlast
  simp only [Queues.step] at hnext hrun
  split at hnext
  case h_2 => cases hnext
  next n outcome rest _ hapartment =>
  refine ⟨n, outcome, rest, hapartment, ?_⟩
  split at hnext <;> cases hnext
  · -- alive: the progress runs at once
    next halive =>
    cases hrun
    exact .inl ⟨halive, by rw [← hbetween]⟩
  · -- dead: it is dropped
    next hdead =>
    simp only [hbetween, Option.some.injEq] at hrun
    exact .inr ⟨hdead, by rw [← hrun, hbetween]⟩

variable [DecidableEq κ]

/-- The slot loses its request, and that request is dead.  Everybody else keeps both slot and life.
    -/
theorem Slotted.release {life life' : Nat → Life} {requests : Nat} {slots : κ → Option Nat} {k : κ}
    (hs : Slotted life requests slots) (hdead : ∀ n, slots k = some n → life' n = .dead)
    (hsame : ∀ n, slots k ≠ some n → life' n = life n) :
    Slotted life' requests (Function.update slots k none) := by
  refine ⟨fun n => ?_, fun n => ?_, fun k₁ k₂ n h₁ h₂ => ?_⟩
  · -- who is alive is in a slot: `n` was in this one and in no other, or it is not concerned
    by_cases hk : slots k = some n
    · refine ⟨fun halive => absurd ((hdead n hk).symm.trans halive) (by decide), fun ⟨k', hk'⟩ => ?_⟩
      have hne : k' ≠ k := by
        rintro rfl
        rw [Function.update_self] at hk'
        cases hk'
      rw [Function.update_of_ne hne] at hk'
      exact absurd (hs.distinct k' k n hk' hk) hne
    · rw [hsame n hk, hs.alive n]
      refine exists_congr fun k' => ?_
      by_cases hkk : k' = k
      · rw [hkk, Function.update_self]
        exact ⟨fun h => absurd h hk, fun h => (by cases h)⟩
      · rw [Function.update_of_ne hkk]
  · -- no request is born
    by_cases hk : slots k = some n
    · have halive := (hs.alive n).2 ⟨k, hk⟩
      rw [hdead n hk, ← hs.unborn n, halive]
      exact ⟨fun h => (by cases h), fun h => (by cases h)⟩
    · rw [hsame n hk, hs.unborn n]
  · -- two slots with one request are two other slots
    have hne : ∀ k', Function.update slots k none k' = some n → k' ≠ k := by
      rintro _ h rfl
      rw [Function.update_self] at h
      cases h
    have hk₁ := hne k₁ h₁
    have hk₂ := hne k₂ h₂
    rw [Function.update_of_ne hk₁] at h₁
    rw [Function.update_of_ne hk₂] at h₂
    exact hs.distinct k₁ k₂ n h₁ h₂

/-- The next request enters an empty slot.  It was in none before, since it was not born. -/
theorem Slotted.enter {life life' : Nat → Life} {requests : Nat} {slots : κ → Option Nat} {k : κ}
    (hs : Slotted life requests slots) (hempty : slots k = none) (hnew : life' requests = .alive)
    (hsame : ∀ n, n ≠ requests → life' n = life n) :
    Slotted life' (requests + 1) (Function.update slots k (some requests)) := by
  have hfresh : ∀ k', slots k' ≠ some requests := by
    intro k' hk'
    have halive := (hs.alive requests).2 ⟨k', hk'⟩
    rw [(hs.unborn requests).2 (Nat.le_refl _)] at halive
    cases halive
  refine ⟨fun n => ?_, fun n => ?_, fun k₁ k₂ n h₁ h₂ => ?_⟩
  · -- it is alive and in its slot; the others are where they were
    by_cases hn : n = requests
    · rw [hn]
      exact ⟨fun _ => ⟨k, Function.update_self ..⟩, fun _ => hnew⟩
    · rw [hsame n hn, hs.alive n]
      refine exists_congr fun k' => ?_
      by_cases hkk : k' = k
      · rw [hkk, Function.update_self, hempty]
        exact ⟨fun h => (by cases h), fun h => absurd (Option.some.inj h).symm hn⟩
      · rw [Function.update_of_ne hkk]
  · -- one more is born
    by_cases hn : n = requests
    · rw [hn, hnew]
      exact ⟨fun h => (by cases h), fun h => absurd h (Nat.not_succ_le_self _)⟩
    · rw [hsame n hn, hs.unborn n]
      omega
  · -- two slots with one request: neither can be this one alone
    by_cases h₁k : k₁ = k
    · by_cases h₂k : k₂ = k
      · rw [h₁k, h₂k]
      · simp only [h₁k, Function.update_self, Function.update_of_ne h₂k] at h₁ h₂
        exact absurd (h₂.trans h₁.symm) (hfresh k₂)
    · by_cases h₂k : k₂ = k
      · simp only [h₂k, Function.update_self, Function.update_of_ne h₁k] at h₁ h₂
        exact absurd (h₁.trans h₂.symm) (hfresh k₁)
      · simp only [Function.update_of_ne h₁k, Function.update_of_ne h₂k] at h₁ h₂
        exact hs.distinct k₁ k₂ n h₁ h₂

/-! ## The events -/

omit [DecidableEq κ] in
/-- The queues of a client are sound after whatever it does to them. -/
theorem Sound.queues_run {c : Client κ F ρ} (hc : c.Sound) {es : List (QueueEvent Nat (F → F × ρ) ρ)}
    {q : Queues Nat (F → F × ρ) ρ} (h : Lib.run Queues.step c.queues es = some q) : q.Sound :=
  Lib.run_invariant (fun _ e _ hs hstep => hs.step e hstep) es c.queues q hc.queues h

omit [DecidableEq κ] in
/-- The line with a new request at its end: its number is above all others. -/
theorem Sound.order_snoc {c : Client κ F ρ} (hc : c.Sound) :
    (c.line ++ [c.requests]).Pairwise (· < ·) ∧ ∀ n ∈ c.line ++ [c.requests], n < c.requests + 1 := by
  refine ⟨List.pairwise_append.2 ⟨hc.order, List.pairwise_singleton _ _, fun a ha b hb => ?_⟩,
    fun n hn => ?_⟩
  · rw [List.mem_singleton.1 hb]
    exact hc.made a ha
  · rcases List.mem_append.1 hn with hn | hn
    · exact Nat.lt_succ_of_lt (hc.made n hn)
    · rw [List.mem_singleton.1 hn]
      exact Nat.lt_succ_self _

/-- **A request is made.**  The line grows at its end; the request it supersedes stays in the line,
    dead, and will be passed over. -/
theorem Sound.start {c c' : Client κ F ρ} (hc : c.Sound) {k : κ} {operation : F → F × ρ}
    (h : c.step (.start k operation) = some c') : c'.Sound := by
  simp only [step, Option.map_eq_some_iff, onQueues_eq_some] at h
  obtain ⟨_, ⟨q, hrun, rfl⟩, rfl⟩ := h
  have hq := hc.queues_run hrun
  obtain ⟨life, rfl, hnew, hdead, hsame⟩ := start_spec hrun
  have hrequests : c.queues.life c.requests = .unborn := (hc.slotted.unborn _).2 (Nat.le_refl _)
  -- the slot is emptied, then the new request enters it
  have hreleased : Slotted (Function.update life c.requests .unborn) c.requests
      (Function.update c.slots k none) := by
    refine hc.slotted.release (fun n hn => ?_) (fun n hn => ?_)
    · have hne : n ≠ c.requests := by
        rintro rfl
        exact absurd (hrequests.symm.trans ((hc.slotted.alive _).2 ⟨k, hn⟩)) (by decide)
      rw [Function.update_of_ne hne, hdead n hn]
    · by_cases heq : n = c.requests
      · rw [heq, Function.update_self, hrequests]
      · rw [Function.update_of_ne heq, hsame n heq hn]
  have hslotted := hreleased.enter (Function.update_self ..) hnew
    fun n hn => (Function.update_of_ne hn _ _).symm
  rw [Function.update_idem] at hslotted
  obtain ⟨horder, hmade⟩ := hc.order_snoc
  have hline : line
      { c with
        queues := { c.queues with
          life, worker := c.queues.worker ++ [(c.requests, operation)],
          scheduled := c.queues.scheduled ++ [(c.requests, operation)] },
        slots := Function.update c.slots k (some c.requests),
        requests := c.requests + 1 } = c.line ++ [c.requests] := by
    simp only [line, pending, List.map_append, List.map_cons, List.map_nil, List.append_assoc]
  refine ⟨hq, hc.between, hslotted, by rw [hline]; exact horder, by rw [hline]; exact hmade,
    fun n hn => ?_, fun e he => List.mem_append_left _ (hc.running e he), fun e he => ?_,
    fun e he => ?_, ?_⟩
  · -- who is alive is the new one, or was in the line
    rw [hline]
    by_cases heq : n = c.requests
    · rw [heq]
      exact List.mem_append_right _ (List.mem_singleton.2 rfl)
    · refine List.mem_append_left _ (hc.present n ?_)
      by_cases hk : c.slots k = some n
      · exact absurd ((hdead n hk).symm.trans hn) (by decide)
      · exact (hsame n heq hk).symm.trans hn
  · -- what the worker has to do was scheduled
    rcases List.mem_append.1 he with he | he
    · exact List.mem_append_left _ (hc.worker e he)
    · exact List.mem_append_right _ he
  · -- outcomes are unaffected
    obtain ⟨op, files, hop, hfiles, heq⟩ := hc.answers e he
    exact ⟨op, files, List.mem_append_left _ hop, hfiles, heq⟩
  · -- one task a request
    show (c.queues.scheduled ++ [(c.requests, operation)]).map Prod.fst = List.range (c.requests + 1)
    rw [List.map_append, hc.asked, List.range_succ]
    rfl

/-- **A slot is reset.**  The line stays as it is. -/
theorem Sound.drop {c c' : Client κ F ρ} (hc : c.Sound) {k : κ}
    (h : c.step (.drop k) = some c') : c'.Sound := by
  simp only [step, Option.map_eq_some_iff, onQueues_eq_some] at h
  obtain ⟨_, ⟨q, hrun, rfl⟩, rfl⟩ := h
  have hq := hc.queues_run hrun
  obtain ⟨life, rfl, hdead, hsame⟩ := release_spec hrun
  refine ⟨hq, hc.between, hc.slotted.release hdead hsame, hc.order, hc.made,
    fun n hn => hc.present n ?_, hc.running, hc.worker, hc.answers, hc.asked⟩
  by_cases hk : c.slots k = some n
  · exact absurd ((hdead n hk).symm.trans hn) (by decide)
  · exact (hsame n hk).symm.trans hn

omit [DecidableEq κ] in
/-- A step that neither makes nor kills requests: the line may only lose requests that are dead.
    What worker and apartment do are four instances of it. -/
theorem Sound.keep {c c' : Client κ F ρ} (hc : c.Sound) (hq : c'.queues.Sound)
    (hbetween : c'.queues.passing = none) (hlife : c'.queues.life = c.queues.life) (hslots : c'.slots = c.slots)
    (hrequests : c'.requests = c.requests) (hscheduled : c'.queues.scheduled = c.queues.scheduled)
    (hsub : c'.line.Sublist c.line)
    (hkept : ∀ n ∈ c.line, c.queues.life n = .alive → n ∈ c'.line)
    (hrunning : ∀ e, c'.queues.running = some e → e ∈ c'.queues.scheduled)
    (hworker : ∀ e ∈ c'.queues.worker, e ∈ c'.queues.scheduled)
    (hanswers : ∀ e ∈ c'.queues.ran ++ c'.queues.apartment, c'.Answers e) : c'.Sound where
  queues := hq
  between := hbetween
  slotted := by
    rw [hlife, hslots, hrequests]
    exact hc.slotted
  order := hc.order.sublist hsub
  made n hn := by
    rw [hrequests]
    exact hc.made n (hsub.subset hn)
  present n hn := by
    rw [hlife] at hn
    exact hkept n (hc.present n hn) hn
  running := hrunning
  worker := hworker
  answers := hanswers
  asked := by
    rw [hscheduled, hrequests]
    exact hc.asked

/-- **The worker takes a task**, or passes over one whose request is dead. -/
theorem Sound.workerNext {c c' : Client κ F ρ} (hc : c.Sound)
    (h : c.step .workerNext = some c') : c'.Sound := by
  simp only [step, Option.map_eq_some_iff, onQueues_eq_some] at h
  obtain ⟨_, ⟨q, hrun, rfl⟩, rfl⟩ := h
  have hq := hc.queues_run hrun
  have hstep := queues_run_one hrun
  simp only [Queues.step] at hstep
  split at hstep
  case h_2 => cases hstep
  next n operation rest hrunning hworker =>
  have hscheduled : ∀ e ∈ (n, operation) :: rest, e ∈ c.queues.scheduled := by
    rw [← hworker]
    exact hc.worker
  have hpending : c.pending = [] := by simp [pending, hrunning]
  split at hstep <;> cases hstep
  · -- the same line: the front of the worker's queue is now being performed
    have heq : line
        { c with
          queues := { c.queues with
            worker := rest, running := some (n, operation),
            started := c.queues.started ++ [(n, operation)] },
          performed := false } = c.line := by
      rw [line, line, hpending, hworker]
      rfl
    refine hc.keep hq hc.between rfl rfl rfl rfl (by rw [heq]) (fun m hm _ => by rw [heq]; exact hm)
      (fun e he => ?_) (fun e he => hscheduled e (List.mem_cons_of_mem _ he)) hc.answers
    cases he
    exact hscheduled _ List.mem_cons_self
  · -- a dead request falls out of the line
    next hdead =>
    have hlines : c.line = c.queues.ran.map Prod.fst ++ (c.queues.apartment.map Prod.fst
        ++ (n :: rest.map Prod.fst)) := by
      rw [line, hpending, hworker]
      rfl
    refine hc.keep hq hc.between rfl rfl rfl rfl ?_ (fun m hm hm' => ?_) (fun e he => ?_)
      (fun e he => hscheduled e (List.mem_cons_of_mem _ he)) hc.answers
    · rw [hlines]
      simp only [line, pending, hrunning, Option.map_none, Option.toList_none, ite_self,
        List.nil_append]
      exact ((List.sublist_cons_self _ _).append_left _).append_left _
    · rw [hlines] at hm
      simp only [line, pending, hrunning, Option.map_none, Option.toList_none, ite_self,
        List.nil_append, List.mem_append, List.mem_cons] at hm ⊢
      rcases hm with hm | hm | rfl | hm
      · exact .inl hm
      · exact .inr (.inl hm)
      · exact absurd hm' hdead
      · exact .inr (.inr hm)
    · rw [hrunning] at he
      cases he

/-- **The operation is performed and its outcome delivered.**  The request moves from the worker to
    the apartment, which is the same place in the line. -/
theorem Sound.perform {c c' : Client κ F ρ} (hc : c.Sound)
    (h : c.step .perform = some c') : c'.Sound := by
  simp only [step] at h
  split at h
  case h_2 => cases h
  next n operation hrunning =>
  split at h
  case isTrue => cases h
  next hperformed =>
  simp only [Option.map_eq_some_iff, onQueues_eq_some] at h
  obtain ⟨_, ⟨q, hrun, rfl⟩, rfl⟩ := h
  have hq := hc.queues_run hrun
  have hstep := queues_run_one hrun
  simp only [Queues.step, hrunning, Option.some.injEq] at hstep
  subst hstep
  have heq : line
      { c with
        queues := c.queues.postTo n (operation c.files).2,
        files := (operation c.files).1, performed := true,
        performedOn := c.performedOn ++ [(n, c.files)] } = c.line := by
    simp [line, pending, Queues.postTo, hrunning, hperformed]
  refine hc.keep hq hc.between rfl rfl rfl rfl (by rw [heq]) (fun m hm _ => by rw [heq]; exact hm)
    hc.running hc.worker (fun e he => ?_)
  -- the one outcome that is new is that of the operation performed
  have hcases : e ∈ c.queues.ran ++ c.queues.apartment ∨ e = (n, (operation c.files).2) := by
    simp only [Queues.postTo, List.mem_append, List.mem_singleton] at he ⊢
    tauto
  rcases hcases with he | rfl
  · obtain ⟨op, files, hop, hfiles, hout⟩ := hc.answers e he
    exact ⟨op, files, hop, List.mem_append_left _ hfiles, hout⟩
  · exact ⟨operation, c.files, hc.running _ hrunning,
      List.mem_append_right _ (List.mem_singleton.2 rfl), rfl⟩

/-- **The task ends.**  The request it was for has left the worker with its outcome. -/
theorem Sound.workerDone {c c' : Client κ F ρ} (hc : c.Sound)
    (h : c.step .workerDone = some c') : c'.Sound := by
  simp only [step] at h
  split at h
  case isFalse => cases h
  next hperformed =>
  obtain ⟨q, hrun, rfl⟩ := onQueues_eq_some.1 h
  have hq := hc.queues_run hrun
  have hstep := queues_run_one hrun
  simp only [Queues.step] at hstep
  split at hstep <;> cases hstep
  have heq : line { c with queues := { c.queues with running := none } } = c.line := by
    simp [line, pending, hperformed]
  exact hc.keep hq hc.between rfl rfl rfl rfl (by rw [heq]) (fun m hm _ => by rw [heq]; exact hm)
    (fun _ he => by cases he) hc.worker hc.answers

/-- **The apartment takes an outcome**: the front of the line's second part moves to the end of the
    first, or falls out if its request is dead. -/
theorem Sound.apartmentNext {c c' : Client κ F ρ} (hc : c.Sound)
    (h : c.step .apartmentNext = some c') : c'.Sound := by
  obtain ⟨q, hrun, rfl⟩ := onQueues_eq_some.1 h
  have hq := hc.queues_run hrun
  obtain ⟨n, outcome, rest, hapartment, hcases⟩ := apartment_spec hc.between hrun
  have hlines : c.line = c.queues.ran.map Prod.fst ++ (n :: rest.map Prod.fst
      ++ (c.pending ++ c.queues.worker.map Prod.fst)) := by
    rw [line, hapartment]
    rfl
  rcases hcases with ⟨_, rfl⟩ | ⟨hdead, rfl⟩
  · -- answered: the same line
    have heq : line
        { c with queues := { c.queues with
            apartment := rest, ran := c.queues.ran ++ [(n, outcome)] } } = c.line := by
      rw [hlines]
      simp [line, pending]
    refine hc.keep hq hc.between rfl rfl rfl rfl (by rw [heq]) (fun m hm _ => by rw [heq]; exact hm)
      hc.running hc.worker (fun e he => hc.answers e ?_)
    rw [hapartment]
    rwa [List.append_assoc, List.singleton_append] at he
  · -- dropped: a dead request falls out of the line
    refine hc.keep hq hc.between rfl rfl rfl rfl ?_ (fun m hm hm' => ?_) hc.running hc.worker
      (fun e he => hc.answers e ?_)
    · rw [hlines]
      exact ((List.sublist_cons_self n (rest.map Prod.fst)).append_right _).append_left _
    · rw [hlines] at hm
      simp only [line, List.mem_append, List.mem_cons] at hm ⊢
      rcases hm with hm | (rfl | hm) | hm
      · exact .inl hm
      · exact absurd hm' hdead
      · exact .inr (.inl hm)
      · exact .inr (.inr hm)
    · rw [hapartment]
      simp only [List.mem_append, List.mem_cons] at he ⊢
      tauto

/-- Any event. -/
theorem Sound.step {c c' : Client κ F ρ} (hc : c.Sound) (e : Event κ F ρ)
    (h : c.step e = some c') : c'.Sound := by
  cases e with
  | start k operation => exact hc.start h
  | drop k => exact hc.drop h
  | workerNext => exact hc.workerNext h
  | perform => exact hc.perform h
  | workerDone => exact hc.workerDone h
  | apartmentNext => exact hc.apartmentNext h
  | touch files =>
    -- the line does not depend on the files; what was performed keeps those it saw
    cases h
    exact ⟨hc.queues, hc.between, hc.slotted, hc.order, hc.made, hc.present, hc.running, hc.worker, hc.answers,
      hc.asked⟩

/-- **Any run.** -/
theorem sound_of_run {files : F} {es : List (Event κ F ρ)} {c : Client κ F ρ}
    (hrun : Lib.run step (init files) es = some c) : c.Sound :=
  Lib.run_invariant (fun _ e _ hc h => hc.step e h) es (init files) c (sound_init files) hrun

/-- The worker runs no progress: it is the apartment that answers. -/
theorem queues_step_ran {q q' : Queues Nat (F → F × ρ) ρ} {e : QueueEvent Nat (F → F × ρ) ρ}
    (he : e ≠ .apartmentRun) (h : q.step e = some q') : q'.ran = q.ran := by
  cases e with
  | apartmentNext =>
    simp only [Queues.step] at h
    split at h
    case h_2 => cases h
    split at h <;> cases h <;> rfl
  | workerNext =>
    simp only [Queues.step] at h
    split at h
    case h_2 => cases h
    split at h <;> cases h <;> rfl
  | apartmentRun => exact absurd rfl he
  | _ =>
    simp only [Queues.step] at h
    split at h <;> cases h
    rfl

/-- Whatever is answered is answered to a request that a slot holds at that moment. -/
theorem Sound.answered {c c' : Client κ F ρ} (hc : c.Sound) {e : Event κ F ρ}
    (h : c.step e = some c') :
    c'.queues.ran = c.queues.ran ∨
      ∃ k n outcome, c.slots k = some n ∧ c'.queues.ran = c.queues.ran ++ [(n, outcome)] := by
  have hone : ∀ {e : QueueEvent Nat (F → F × ρ) ρ} {q}, e ≠ .apartmentRun →
      Lib.run Queues.step c.queues [e] = some q → q.ran = c.queues.ran := fun he hrun =>
    queues_step_ran he (queues_run_one hrun)
  cases e with
  | start k operation =>
    simp only [Client.step, Option.map_eq_some_iff, onQueues_eq_some] at h
    obtain ⟨_, ⟨q, hrun, rfl⟩, rfl⟩ := h
    obtain ⟨life, rfl, -⟩ := start_spec hrun
    exact .inl rfl
  | drop k =>
    simp only [Client.step, Option.map_eq_some_iff, onQueues_eq_some] at h
    obtain ⟨_, ⟨q, hrun, rfl⟩, rfl⟩ := h
    obtain ⟨life, rfl, -⟩ := release_spec hrun
    exact .inl rfl
  | workerNext =>
    simp only [Client.step, Option.map_eq_some_iff, onQueues_eq_some] at h
    obtain ⟨_, ⟨q, hrun, rfl⟩, rfl⟩ := h
    exact .inl (hone (by simp) hrun)
  | perform =>
    simp only [Client.step] at h
    split at h
    case h_2 => cases h
    split at h
    case isTrue => cases h
    simp only [Option.map_eq_some_iff, onQueues_eq_some] at h
    obtain ⟨_, ⟨q, hrun, rfl⟩, rfl⟩ := h
    exact .inl (hone (by simp) hrun)
  | workerDone =>
    simp only [Client.step] at h
    split at h
    case isFalse => cases h
    obtain ⟨q, hrun, rfl⟩ := onQueues_eq_some.1 h
    exact .inl (hone (by simp) hrun)
  | apartmentNext =>
    obtain ⟨q, hrun, rfl⟩ := onQueues_eq_some.1 h
    obtain ⟨n, outcome, rest, _, ⟨halive, rfl⟩ | ⟨_, rfl⟩⟩ := apartment_spec hc.between hrun
    · -- alive, so that a slot holds it
      obtain ⟨k, hk⟩ := (hc.slotted.alive n).1 halive
      exact .inr ⟨k, n, outcome, hk, rfl⟩
    · exact .inl rfl
  | touch files =>
    cases h
    exact .inl rfl

/-- In ANY order of requests, resets, worker, apartment and other writers: requests are answered in
    the order they were made and at most once; the answer is the outcome of the request's own
    operation on files as it found them; only a request that is in a slot is answered; and when the
    queues are idle every request that is in a slot has been. -/
theorem requests_answered {files : F} {es : List (Event κ F ρ)} {c : Client κ F ρ}
    (hrun : Lib.run step (init files) es = some c) :
    (c.queues.ran.map Prod.fst).Pairwise (· < ·) ∧
    (∀ n outcome, (n, outcome) ∈ c.queues.ran → ∃ operation files,
      (n, operation) ∈ c.queues.scheduled ∧ (n, files) ∈ c.performedOn ∧
        outcome = (operation files).2) ∧
    c.queues.scheduled.map Prod.fst = List.range c.requests ∧
    (∀ e c', c.step e = some c' → c'.queues.ran = c.queues.ran ∨
      ∃ k n outcome, c.slots k = some n ∧ c'.queues.ran = c.queues.ran ++ [(n, outcome)]) ∧
    (c.queues.worker = [] → c.queues.running = none → c.queues.apartment = [] →
      ∀ k n, c.slots k = some n → ∃ outcome, (n, outcome) ∈ c.queues.ran) := by
  have hc := sound_of_run hrun
  refine ⟨(List.pairwise_append.1 hc.order).1,
    fun n outcome hran => hc.answers _ (List.mem_append_left _ hran), hc.asked,
    fun e c' h => hc.answered h, fun hworker hrunning hapartment k n hk => ?_⟩
  have hmem := hc.present n ((hc.slotted.alive n).2 ⟨k, hk⟩)
  simp only [line, pending, hworker, hrunning, hapartment, Option.map_none, Option.toList_none,
    ite_self, List.map_nil, List.append_nil] at hmem
  obtain ⟨e, he, rfl⟩ := List.mem_map.1 hmem
  exact ⟨e.2, he⟩

/-- A cache file is asked for twice; the second request supersedes the first before the worker gets
    to it, and the file is there by then. -/
def superseded : List (Event Unit Files (Option Nat)) :=
  [.start () (AsyncFile.read (fun bytes => some bytes.length) "m.symbols"),
    .start () (AsyncFile.read (fun bytes => some bytes.length) "m.symbols"), .workerNext,
    .touch ⟨fun _ => some [1, 2, 3], fun _ => true⟩, .workerNext, .perform, .workerDone,
    .apartmentNext]

/-- Anything can be created, nothing is there. -/
def noFiles : Files := ⟨fun _ => none, fun _ => true⟩

theorem requests_answered_superseded :
    ∃ c, Lib.run step (init noFiles) superseded = some c ∧ c.queues.ran = [(1, some 3)] ∧
      ∃ outcome, (1, outcome) ∈ c.queues.ran := by
  refine ⟨_, rfl, rfl, ?_⟩
  exact (requests_answered (rfl : Lib.run step (init noFiles) superseded = _)).2.2.2.2
    rfl rfl rfl () 1 rfl

end Client

end MicroProfiler.Frontend.AsyncFile
