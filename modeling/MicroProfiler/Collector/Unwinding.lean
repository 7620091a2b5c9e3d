/-
  Which return address does `on_exit` hand back when frames may vanish silently?

  An exception or a `longjmp` drops machine frames without an `on_exit`.  Their entries stay in the
  return stack until a later `on_exit` sweeps them, and meanwhile new frames may be called at slots
  below, above or ON those of the abandoned ones.

  1. **The machine** — `ThreadStack`: the collector together with the frames really live on the
     thread's stack (`Frame`, a ghost: what the frame's first `on_enter` read from its slot) and
     the log of every notified return: the address `on_exit` gave, the address it should have given.

  2. **The defect** (`returns_stale_address`) — a frame called ABOVE an abandoned slot returns to
     the abandoned frame's caller.

  3. **When the code is right** (`Undisturbed`, `undisturbed_returns`) — a call that lands on an
     abandoned slot finds its own return address already there, and a return finds no abandoned
     entry beneath its own within the stack pointer's reach.  The invariant is `Shadows`: the
     return stack is the live frames' entries, with abandoned ones in the gaps; those over a frame
     are never above its slot, so `on_exit` sweeps them first and ends on the frame's own.
-/
import MicroProfiler.Collector.CallsCollectorThread

namespace MicroProfiler

variable {K : Type}

/-! ## The machine stack and its notifications -/

/-- A live frame: its slot, what its first `on_enter` read there, and how many entries the return
    stack had beneath the frame's own. -/
structure Frame where
  slot : Nat
  returnAddress : Nat
  beneath : Nat
deriving DecidableEq, Repr

/-- The collector and the thread it follows; innermost live frame first. -/
structure ThreadStack (K : Type) where
  collector : CallsCollectorThread K
  live : List Frame
  /-- For each notified return: the address given, and the address of the returning frame. -/
  returned : List (Nat × Nat)
deriving DecidableEq, Repr

/-- What the thread may do. -/
inductive StackMove (K : Type) where
  | call (slot contents : Nat) (timestamp : Int) (callee : K)
  /-- The slot of the innermost frame is entered again; `contents` is what it reads NOW. -/
  | tailCall (contents : Nat) (timestamp : Int) (callee : K)
  | ret (stackPtr : Nat) (timestamp : Int)
  /-- An exception or a `longjmp` out of the `frames` innermost frames. -/
  | unwind (frames : Nat)
deriving DecidableEq, Repr

namespace ThreadStack

/-- Before anything is called. -/
def new : ThreadStack K := ⟨CallsCollectorThread.new, [], []⟩

/-- The lowest slot above the innermost frame: the caller's, or the end of the stack. -/
def callerSlot : List Frame → Nat
  | [] => topOfStack
  | f :: _ => f.slot

/-- A downward-growing stack: new frames lie below all live ones, a return happens between the
    innermost frame's slot and its caller's. -/
def Admissible (s : ThreadStack K) : StackMove K → Prop
  | .call slot _ _ _ => slot < topOfStack ∧ ∀ f ∈ s.live, slot < f.slot
  | .tailCall _ _ _ => s.live ≠ []
  | .ret stackPtr _ =>
      match s.live with
      | [] => False
      | f :: outer => f.slot ≤ stackPtr ∧ stackPtr < callerSlot outer
  | .unwind frames => frames ≤ s.live.length

instance (s : ThreadStack K) (m : StackMove K) : Decidable (s.Admissible m) := by
  cases m
  case ret =>
    unfold Admissible
    cases s.live <;> infer_instance
  all_goals unfold Admissible; infer_instance

/-- What a move does, to the thread and through its notification to the collector. -/
def perform (s : ThreadStack K) : StackMove K → Option (ThreadStack K)
  | .call slot contents ts callee =>
      (s.collector.onEnter slot contents ts (some callee)).map fun c =>
        { s with
          collector := c
          -- the collector's own entry is on top, whether it was pushed or found there
          live := ⟨slot, contents, c.returnStack.length - 1⟩ :: s.live }
  | .tailCall contents ts callee =>
      match s.live with
      | [] => none
      | f :: _ => (s.collector.onEnter f.slot contents ts (some callee)).map fun c =>
          { s with collector := c }
  | .ret stackPtr ts =>
      match s.live with
      | [] => none
      | f :: outer => (s.collector.onExit stackPtr ts).map fun r =>
          ⟨r.2, outer, s.returned ++ [(r.1, f.returnAddress)]⟩
  -- nobody tells the collector: the entries of the abandoned frames stay
  | .unwind frames => some { s with live := s.live.drop frames }

/-- A move that the machine can make; whether it is served is for `perform` to say. -/
def step (s : ThreadStack K) (m : StackMove K) : Option (ThreadStack K) :=
  if s.Admissible m then s.perform m else none

/-- **The defect**: the second of two nested frames is abandoned; a frame called between the two
    slots then returns to where the abandoned one would have returned. -/
theorem returns_stale_address :
    ∃ s : ThreadStack Nat,
      Lib.run step new
        [.call 4096 1 0 7, .call 4032 2 1 8, .unwind 1, .call 4064 3 2 9, .ret 4064 3] = some s ∧
      ∃ r ∈ s.returned, r.1 ≠ r.2 :=
  ⟨_, rfl, (2, 3), by decide, by decide⟩

/-! ## When no abandoned entry is in the way -/

/-- The condition, on the state BEFORE the move.  A call that finds its slot on top of the return
    stack finds its own return address recorded there; when a frame returns, the entry right
    beneath its own lies above the stack pointer. -/
def Undisturbed (s : ThreadStack K) : StackMove K → Prop
  | .call slot contents _ _ =>
      ∀ e ∈ s.collector.returnStack.head?, e.stackPtr = slot → e.returnAddress = contents
  | .ret stackPtr _ =>
      ∀ f ∈ s.live.head?,
        ∀ e ∈ (s.collector.returnStack.drop (s.collector.returnStack.length - f.beneath)).head?,
          stackPtr < e.stackPtr
  -- a tail call finds its own entry or makes another one; an unwinding asks for nothing
  | _ => True

instance (s : ThreadStack K) (m : StackMove K) : Decidable (s.Undisturbed m) := by
  cases m <;> unfold Undisturbed <;> infer_instance

/-- The moves that the main result is about. -/
def undisturbedStep (s : ThreadStack K) (m : StackMove K) : Option (ThreadStack K) :=
  if s.Undisturbed m then s.step m else none

/-- The return stack against the live frames: each has its entry, with its own return address, and
    the entries over it (abandoned, or left by a tail call) lie no higher than its slot. -/
inductive Shadows : List ReturnEntry → List Frame → Prop
  | bottom (abandoned : List ReturnEntry) :
      (∀ e ∈ abandoned, e.stackPtr < topOfStack) → Shadows (abandoned ++ [sentinel]) []
  | frame (above : List ReturnEntry) {rest : List ReturnEntry} {f : Frame} {outer : List Frame} :
      (∀ e ∈ above, e.stackPtr ≤ f.slot) → f.beneath = rest.length → f.slot < callerSlot outer →
      Shadows rest outer → Shadows (above ++ ⟨f.slot, f.returnAddress⟩ :: rest) (f :: outer)

namespace Shadows

/-- There is an entry on top always: the sentinel is never taken off, so `on_enter` may look at
    `back()`. -/
theorem exists_cons {entries : List ReturnEntry} {live : List Frame} (h : Shadows entries live) :
    ∃ top below, entries = top :: below := by
  cases h with
  | bottom _ _ => exact List.exists_cons_of_ne_nil (by simp)
  | frame _ _ _ _ _ => exact List.exists_cons_of_ne_nil (by simp)

/-- Entries no higher than the innermost live slot may lie on top. -/
theorem cover {entries : List ReturnEntry} {live : List Frame} (h : Shadows entries live)
    {e : ReturnEntry} (hsentinel : e.stackPtr < topOfStack)
    (he : e.stackPtr ≤ callerSlot live) : Shadows (e :: entries) live := by
  cases h with
  | bottom abandoned hbelow =>
    refine .bottom (e :: abandoned) fun x hx => ?_
    rcases List.mem_cons.mp hx with rfl | hx
    · exact hsentinel
    · exact hbelow x hx
  | @frame above rest f outer habove hbeneath hslot hrest =>
    refine .frame (e :: above) (fun x hx => ?_) hbeneath hslot hrest
    rcases List.mem_cons.mp hx with rfl | hx
    · exact he
    · exact habove x hx

/-- An entry below every live slot belongs to no live frame, and may be taken off. -/
theorem uncover {e : ReturnEntry} {entries : List ReturnEntry} {live : List Frame}
    (h : Shadows (e :: entries) live) (he : e.stackPtr < callerSlot live) :
    Shadows entries live := by
  generalize hall : e :: entries = all at h
  cases h with
  | bottom abandoned hbelow =>
    cases abandoned with
    | nil =>
      obtain ⟨rfl, -⟩ : e = sentinel ∧ entries = [] := by simpa using hall
      exact absurd he (lt_irrefl _)
    | cons x abandoned =>
      obtain ⟨-, rfl⟩ : e = x ∧ entries = abandoned ++ [sentinel] := by simpa using hall
      exact .bottom abandoned fun y hy => hbelow y (List.mem_cons_of_mem _ hy)
  | @frame above rest f outer habove hbeneath hslot hrest =>
    cases above with
    | nil =>
      obtain ⟨rfl, -⟩ : e = ⟨f.slot, f.returnAddress⟩ ∧ entries = rest := by simpa using hall
      exact absurd he (lt_irrefl _)
    | cons x above =>
      obtain ⟨-, rfl⟩ : e = x ∧ entries = above ++ ⟨f.slot, f.returnAddress⟩ :: rest := by
        simpa using hall
      exact .frame above (fun y hy => habove y (List.mem_cons_of_mem _ hy)) hbeneath hslot hrest

/-- Live slots go up from the innermost one, and end below the sentinel's. -/
theorem slot_lt_topOfStack {entries : List ReturnEntry} {live : List Frame}
    (h : Shadows entries live) : ∀ f ∈ live, f.slot < topOfStack ∧ callerSlot live ≤ f.slot := by
  induction h with
  | bottom _ _ => exact fun _ h => absurd h List.not_mem_nil
  | @frame above rest f outer _ _ hslot hrest ih =>
    intro g hg
    rcases List.mem_cons.mp hg with rfl | hg
    · refine ⟨?_, le_rfl⟩
      cases outer with
      | nil => exact hslot
      | cons o outer => exact hslot.trans (ih o List.mem_cons_self).1
    · obtain ⟨htop, hle⟩ := ih g hg
      exact ⟨htop, hslot.le.trans hle⟩

/-- **A silently dropped frame** leaves its entry among the abandoned ones. -/
theorem abandon {entries : List ReturnEntry} {f : Frame} {outer : List Frame}
    (h : Shadows entries (f :: outer)) : Shadows entries outer := by
  have htop := (h.slot_lt_topOfStack f List.mem_cons_self).1
  cases h with
  | @frame above rest _ _ habove _ hslot hrest =>
    have hown : Shadows (⟨f.slot, f.returnAddress⟩ :: rest) outer := hrest.cover htop hslot.le
    -- the entries over the frame lie below its slot, hence below its caller's as well
    clear hrest
    induction above with
    | nil => exact hown
    | cons e above ih =>
      have he := habove e List.mem_cons_self
      exact (ih fun x hx => habove x (List.mem_cons_of_mem _ hx)).cover (he.trans_lt htop)
        (he.trans hslot.le)

/-- **An unwinding** over any number of frames, one at a time. -/
theorem drop {entries : List ReturnEntry} (n : Nat) :
    ∀ {live : List Frame}, Shadows entries live → Shadows entries (live.drop n) := by
  induction n with
  | zero => intro live h; exact h
  | succ n ih =>
    intro live h
    cases live with
    | nil => exact h
    | cons f outer => exact ih h.abandon

end Shadows

/-- **The sweep**: entries within reach of the stack pointer go, and the address returned is that
    of the last of them. -/
theorem unwind_sweeps {stackPtr : Nat} (ts : Int) (own : ReturnEntry) {next : ReturnEntry}
    (below : List ReturnEntry) (hown : own.stackPtr ≤ stackPtr) (hnext : stackPtr < next.stackPtr) :
    ∀ (above : List ReturnEntry) (tracked : List (CallRecord K)),
      (∀ e ∈ above, e.stackPtr ≤ stackPtr) →
      ∃ tracked', CallsCollectorThread.unwind stackPtr ts (above ++ own :: next :: below) tracked =
        some (own.returnAddress, ⟨next :: below, tracked'⟩) := by
  -- by induction on the abandoned entries over the frame's own
  intro above
  induction above with
  | nil => intro tracked _; exact ⟨_, CallsCollectorThread.unwind_stop hnext ts tracked⟩
  | cons e above ih =>
    intro tracked habove
    obtain ⟨tracked', h⟩ := ih (tracked ++ [⟨ts, none⟩])
      fun x hx => habove x (List.mem_cons_of_mem _ hx)
    refine ⟨tracked', ?_⟩
    cases above with
    | nil => exact (CallsCollectorThread.unwind_go hown ts tracked).trans h
    | cons x above =>
      exact (CallsCollectorThread.unwind_go (habove x (by simp)) ts tracked).trans h

/-- The invariant of the undisturbed runs. -/
structure Intact (s : ThreadStack K) : Prop where
  /-- what `on_exit` relies on -/
  shadows : Shadows s.collector.returnStack s.live
  /-- what it is for -/
  returned : ∀ r ∈ s.returned, r.1 = r.2

/-- Nothing is called, and the sentinel is all there is. -/
theorem new_intact : Intact (new : ThreadStack K) where
  shadows := .bottom [] fun _ h => absurd h List.not_mem_nil
  returned := fun _ h => absurd h List.not_mem_nil

/-- **A call** on a free slot pushes an entry; on an abandoned one it takes the entry over, which
    the condition lets it do. -/
theorem call_intact {s : ThreadStack K} (h : Intact s) {slot contents : Nat} {ts : Int} {callee : K}
    (hadm : s.Admissible (.call slot contents ts callee))
    (hund : s.Undisturbed (.call slot contents ts callee)) :
    ∃ s', s.perform (.call slot contents ts callee) = some s' ∧ Intact s' := by
  obtain ⟨⟨returnStack, tracked⟩, live, returned⟩ := s
  obtain ⟨top, below, rfl⟩ := h.shadows.exists_cons
  obtain ⟨htop, hlive⟩ := hadm
  have hslot : slot < callerSlot live := by
    cases live with
    | nil => exact htop
    | cons f outer => exact hlive f List.mem_cons_self
  by_cases heq : top.stackPtr = slot
  · -- on an abandoned slot: the entry found there becomes the frame's own
    have haddress : top.returnAddress = contents := hund top rfl heq
    have htopEq : top = ⟨slot, contents⟩ := by rw [← heq, ← haddress]
    have hperform : perform ⟨⟨top :: below, tracked⟩, live, returned⟩ (.call slot contents ts callee)
        = some ⟨⟨top :: below, tracked ++ [⟨ts, none⟩] ++ [⟨ts, some callee⟩]⟩,
            ⟨slot, contents, below.length⟩ :: live, returned⟩ := by
      rw [perform, CallsCollectorThread.onEnter_tail heq]
      rfl
    refine ⟨_, hperform, ?_, h.returned⟩
    have hrest : Shadows below live := h.shadows.uncover (by rw [heq]; exact hslot)
    rw [htopEq]
    exact Shadows.frame [] (f := ⟨slot, contents, below.length⟩)
      (fun _ h => absurd h List.not_mem_nil) rfl hslot hrest
  · have hperform : perform ⟨⟨top :: below, tracked⟩, live, returned⟩ (.call slot contents ts callee)
        = some ⟨⟨⟨slot, contents⟩ :: top :: below, tracked ++ [⟨ts, some callee⟩]⟩,
            ⟨slot, contents, (top :: below).length⟩ :: live, returned⟩ := by
      rw [perform, CallsCollectorThread.onEnter_push heq]
      rfl
    refine ⟨_, hperform, ?_, h.returned⟩
    exact Shadows.frame [] (f := ⟨slot, contents, (top :: below).length⟩)
      (fun _ h => absurd h List.not_mem_nil) rfl hslot h.shadows

/-- **A tail call** leaves the frame and the return address it found first alone. -/
theorem tailCall_intact {s : ThreadStack K} (h : Intact s) {contents : Nat} {ts : Int} {callee : K}
    (hadm : s.Admissible (.tailCall contents ts callee)) :
    ∃ s', s.perform (.tailCall contents ts callee) = some s' ∧ Intact s' := by
  obtain ⟨⟨returnStack, tracked⟩, live, returned⟩ := s
  obtain ⟨top, below, rfl⟩ := h.shadows.exists_cons
  cases live with
  | nil => exact absurd rfl hadm
  | cons f outer =>
    -- is the frame's own entry on top, or one of those left over it?
    by_cases heq : top.stackPtr = f.slot
    · have hperform : perform ⟨⟨top :: below, tracked⟩, f :: outer, returned⟩
          (.tailCall contents ts callee)
          = some ⟨⟨top :: below, tracked ++ [⟨ts, none⟩] ++ [⟨ts, some callee⟩]⟩,
              f :: outer, returned⟩ := by
        simp only [perform, CallsCollectorThread.onEnter_tail heq, Option.map_some]
      exact ⟨_, hperform, h.shadows, h.returned⟩
    · -- the frame's entry is covered by abandoned ones: a second entry goes on top of them
      have hperform : perform ⟨⟨top :: below, tracked⟩, f :: outer, returned⟩
          (.tailCall contents ts callee)
          = some ⟨⟨⟨f.slot, contents⟩ :: top :: below, tracked ++ [⟨ts, some callee⟩]⟩,
              f :: outer, returned⟩ := by
        simp only [perform, CallsCollectorThread.onEnter_push heq, Option.map_some]
      have htop := (h.shadows.slot_lt_topOfStack f List.mem_cons_self).1
      exact ⟨_, hperform, h.shadows.cover htop le_rfl, h.returned⟩

/-- **A return** sweeps the abandoned entries over the frame's own and stops there: the entry
    beneath lies above the stack pointer. -/
theorem ret_intact {s : ThreadStack K} (h : Intact s) {stackPtr : Nat} {ts : Int}
    (hadm : s.Admissible (.ret stackPtr ts)) (hund : s.Undisturbed (.ret stackPtr ts)) :
    ∃ s', s.perform (.ret stackPtr ts) = some s' ∧ Intact s' := by
  obtain ⟨⟨returnStack, tracked⟩, live, returned⟩ := s
  obtain ⟨hshadows, hreturned⟩ := h
  cases hshadows with
  | bottom _ _ => exact hadm.elim
  | @frame above rest f outer habove hbeneath hslot hrest =>
    obtain ⟨next, below, rfl⟩ := hrest.exists_cons
    obtain ⟨hreach, _⟩ := hadm
    have hdrop : ((above ++ ⟨f.slot, f.returnAddress⟩ :: next :: below).drop
        ((above ++ ⟨f.slot, f.returnAddress⟩ :: next :: below).length - f.beneath)).head?
          = some next := by
      rw [hbeneath, List.append_cons, List.length_append, Nat.add_sub_cancel, List.drop_left]
      rfl
    -- the condition speaks of the entry beneath the frame's own by its depth
    have hnext : stackPtr < next.stackPtr := hund f rfl next hdrop
    obtain ⟨tracked', hunwind⟩ := unwind_sweeps (K := K) ts ⟨f.slot, f.returnAddress⟩
      below hreach hnext above tracked fun e he => (habove e he).trans hreach
    refine ⟨⟨⟨next :: below, tracked'⟩, outer,
      returned ++ [(f.returnAddress, f.returnAddress)]⟩, ?_, hrest, ?_⟩
    · show (CallsCollectorThread.unwind stackPtr ts
        (above ++ ⟨f.slot, f.returnAddress⟩ :: next :: below) tracked).map _ = _
      rw [hunwind]
      rfl
    · intro r hr
      rcases List.mem_append.mp hr with hr | hr
      · exact hreturned r hr
      · rw [List.mem_singleton.mp hr]

/-- **One undisturbed move** is served and keeps the invariant. -/
theorem perform_intact {s : ThreadStack K} (h : Intact s) {m : StackMove K}
    (hadm : s.Admissible m) (hund : s.Undisturbed m) :
    ∃ s', s.perform m = some s' ∧ Intact s' := by
  cases m with
  | call slot contents ts callee => exact call_intact h hadm hund
  | tailCall contents ts callee => exact tailCall_intact h hadm
  | ret stackPtr ts => exact ret_intact h hadm hund
  | unwind frames => exact ⟨_, rfl, h.shadows.drop frames, h.returned⟩

/-- The step lemma of the undisturbed runs. -/
theorem undisturbedStep_intact (s : ThreadStack K) (m : StackMove K) (s' : ThreadStack K)
    (h : Intact s) (hstep : s.undisturbedStep m = some s') : Intact s' := by
  rw [undisturbedStep, step] at hstep
  split at hstep
  next hund =>
    exact Lib.of_allowed (fun hadm => perform_intact h hadm hund) hstep
  next => cases hstep

/-- **Return-address integrity, when abandoned entries stay out of the way.**  In every run of
    undisturbed moves, each notified return gave the address the returning frame's first `on_enter`
    read from its slot, and the next undisturbed move is served. -/
theorem undisturbed_returns (moves : List (StackMove K)) (s : ThreadStack K)
    (h : Lib.run undisturbedStep new moves = some s) :
    (∀ r ∈ s.returned, r.1 = r.2) ∧
    ∀ m, s.Admissible m → s.Undisturbed m → ∃ s', s.perform m = some s' := by
  have hintact := Lib.run_invariant undisturbedStep_intact moves new s new_intact h
  refine ⟨hintact.returned, fun m hadm hund => ?_⟩
  obtain ⟨s', hs', _⟩ := perform_intact hintact hadm hund
  exact ⟨s', hs'⟩

/-- Two nested frames; the inner one is abandoned; a call below its slot returns, a tail call in
    the outer frame goes over the abandoned entry, and the outer frame returns. -/
theorem undisturbed_returns_below :
    ∃ s : ThreadStack Nat,
      Lib.run undisturbedStep new
        [.call 4096 1 0 7, .call 4032 2 1 8, .unwind 1, .call 4000 3 2 9, .ret 4000 3,
          .tailCall 77 4 10, .ret 4100 5] = some s ∧
      s.returned = [(3, 3), (1, 1)] ∧ ∀ r ∈ s.returned, r.1 = r.2 :=
  ⟨_, rfl, rfl, (undisturbed_returns
    [.call 4096 1 0 7, .call 4032 2 1 8, .unwind 1, .call 4000 3 2 9, .ret 4000 3,
      .tailCall 77 4 10, .ret 4100 5] _ rfl).1⟩

end ThreadStack

end MicroProfiler
