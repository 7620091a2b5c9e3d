/-
  Who owns the buffers of a `buffers_queue`, and why its producer cannot be left waiting.

  1. **`adjust_empty_buffers`** in closed form: the first loop keeps the deepest `high_water`
     buffers (`destroyEmpty_eq`), the second adds as many as both bounds allow (`createEmpty_eq`).

  2. **The invariant** (`Accounted`) — every allocated buffer is active, empty, ready or in the
     reader's hands, which bounds every container (`Owned`, under any policy); and a producer that
     waits although there is an empty buffer has its signal on the way (`Wakes`).  The one delicate
     point is the destruction of empty buffers: since `max_empty` is at least one it never takes the
     last one, whatever the high-water mark (`Adjusted.keepsOne`).

  3. **No deadlock** (`buffers_accounted`) — whatever the reader is doing, its own next steps
     release a waiting producer (`Releases`): one lemma for each place the reader can be at.
-/
import MicroProfiler.Collector.BuffersQueue

namespace MicroProfiler

variable {E : Type}

/-! ## What `adjust_empty_buffers` does -/

namespace BuffersQueue

/-- The first loop keeps the deepest `highWater` buffers.  By induction on the stack, from the top.
    -/
theorem destroyEmpty_eq (highWater : Nat) : ∀ (empty : List (Buffer E)) (allocated : Nat),
    destroyEmpty highWater empty allocated =
      (empty.drop (empty.length - highWater), allocated - (empty.length - highWater)) := by
  intro empty
  induction empty with
  | nil => intro allocated; simp [destroyEmpty]
  | cons b empty ih =>
    intro allocated
    rw [destroyEmpty]
    split
    next h =>
      rw [List.length_cons] at h
      have hlen : (b :: empty).length - highWater = (empty.length - highWater) + 1 := by
        rw [List.length_cons]; omega
      rw [ih, hlen, List.drop_succ_cons, Nat.sub_sub, Nat.add_comm 1]
    next h =>
      have hlen : (b :: empty).length - highWater = 0 := by omega
      rw [hlen, List.drop_zero, Nat.sub_zero]

/-- The second loop creates as many buffers as both bounds allow.  By induction on the fuel, of
    which there is one unit for each buffer that may still be allocated. -/
theorem createEmpty_eq [Inhabited E] (maxBuffers lowWater : Nat) :
    ∀ (fuel : Nat) (empty : List (Buffer E)) (allocated : Nat), maxBuffers - allocated ≤ fuel →
      createEmpty maxBuffers lowWater fuel empty allocated =
        (List.replicate (min (maxBuffers - allocated) (lowWater - empty.length)) Buffer.blank
          ++ empty,
          allocated + min (maxBuffers - allocated) (lowWater - empty.length)) := by
  intro fuel
  induction fuel with
  | zero =>
    intro empty allocated h
    have hnone : min (maxBuffers - allocated) (lowWater - empty.length) = 0 := by omega
    rw [hnone]
    rfl
  | succ fuel ih =>
    intro empty allocated h
    rw [createEmpty]
    split
    next hmore =>
      have hone : min (maxBuffers - allocated) (lowWater - empty.length) =
          min (maxBuffers - (allocated + 1)) (lowWater - (empty.length + 1)) + 1 := by omega
      rw [ih _ _ (by omega), hone, List.length_cons, List.replicate_succ']
      simp only [List.append_assoc, List.singleton_append, Nat.add_assoc, Nat.add_comm 1]
    next hstop =>
      have hnone : min (maxBuffers - allocated) (lowWater - empty.length) = 0 := by omega
      rw [hnone]
      rfl

/-- What a call of `adjust_empty_buffers` leaves: as many buffers outside the empty stack as
    before, no more than the policy allows, and never the last empty buffer gone. -/
structure Adjusted (policy : BufferingPolicy) (q q' : BuffersQueue E) : Prop where
  /-- no buffer is lost and none is taken from anybody -/
  outside : q'.allocated + q.empty.length = q.allocated + q'.empty.length
  bounded : q'.allocated ≤ max q.allocated policy.maxBuffers
  /-- because `max_empty` is one at least -/
  keepsOne : q.empty ≠ [] → q'.empty ≠ []
  active : q'.active = q.active
  ready : q'.ready = q.ready
  cursor : q'.ptr = q.ptr ∧ q'.nLeft = q.nLeft
  fixed : q'.policy = q.policy ∧ q'.capacity = q.capacity

/-- `adjust_empty_buffers`, whatever the high-water mark: the sums do not wrap, since both terms are
    small. -/
theorem adjustEmptyBuffers_adjusted [Inhabited E] (q : BuffersQueue E) (policy : BufferingPolicy)
    (baseN : Nat) (hfits : policy.maxEmpty + baseN < sizeTop)
    (howned : q.empty.length ≤ q.allocated) :
    Adjusted policy q (q.adjustEmptyBuffers policy baseN) := by
  have hpos := policy.maxEmpty_pos
  refine ⟨?_, ?_, ?_, rfl, rfl, ⟨rfl, rfl⟩, ⟨rfl, rfl⟩⟩
  all_goals
    simp only [adjustEmptyBuffers, destroyEmpty_eq, createEmpty_eq _ _ _ _ _ le_rfl,
      Nat.mod_eq_of_lt hfits, List.length_append, List.length_replicate, List.length_drop]
  · omega
  · omega
  -- the first loop leaves one of those it found
  · intro hne hnil
    have hlen := congrArg List.length hnil
    have := List.length_pos_of_ne_nil hne
    simp only [List.length_append, List.length_replicate, List.length_drop,
      List.length_nil] at hlen
    omega

end BuffersQueue

/-! ## Who owns the buffers -/

namespace System

/-- Outside `flush`, and in it before the hand-off, there is an active buffer.  From the hand-off to
    the next take there is none. -/
def HasActive : Producer → Prop
  | .idle | .handingOff => True
  | .taking | .waiting => False

/-- Who owns the buffers of a queue that was made for `capacity` of them, whatever its policy has
    become. -/
structure Owned (capacity : Nat) (s : System E) : Prop where
  /-- the size of the arrays, set once -/
  capacity_eq : s.queue.capacity = capacity
  /-- a policy fits into the arrays -/
  policy : s.queue.policy.maxBuffers ≤ capacity
  /-- so that no sum of the code wraps -/
  fits : s.queue.policy.maxEmpty + capacity < sizeTop
  /-- Every allocated buffer has one owner. -/
  owned : s.queue.allocated = s.queue.active.toList.length + s.queue.empty.length
    + s.queue.ready.length + s.reader.held.toList.length
  /-- no array overflows -/
  bounded : s.queue.allocated ≤ capacity
  /-- who has the active buffer -/
  hasActive : s.queue.active.isSome ↔ HasActive s.producer
  /-- the cursor is within the active buffer -/
  cursor : s.queue.active.isSome → s.queue.ptr + s.queue.nLeft = bufferSize
  /-- a producer that writes has a slot to write to -/
  room : s.producer = .idle → 0 < s.queue.nLeft
  /-- the reader's high-water mark counts buffers -/
  highWater : s.reader.readyN ≤ capacity

/-- A producer that waits although there is an empty buffer will be woken: the signal is set, or the
    reader is just about to set it. -/
def Wakes (s : System E) : Prop :=
  s.producer = .waiting → s.queue.empty ≠ [] →
    s.queue.signalled = true ∨ ∃ n readyN, s.reader = .notifying n readyN

/-- The invariant of a system running under the policy it was made with. -/
structure Accounted (p : BufferingPolicy) (s : System E) : Prop where
  policy : s.queue.policy = p
  capacity : s.queue.capacity = p.maxBuffers
  /-- Every allocated buffer has one owner. -/
  owned : s.queue.allocated = s.queue.active.toList.length + s.queue.empty.length
    + s.queue.ready.length + s.reader.held.toList.length
  /-- `allocated` never comes down to zero -/
  pos : 1 ≤ s.queue.allocated
  bounded : s.queue.allocated ≤ p.maxBuffers
  hasActive : s.queue.active.isSome ↔ HasActive s.producer
  cursor : s.queue.active.isSome → s.queue.ptr + s.queue.nLeft = bufferSize
  room : s.producer = .idle → 0 < s.queue.nLeft
  highWater : s.reader.readyN ≤ p.maxBuffers
  /-- A producer that waits although there is an empty buffer will be woken. -/
  wakes : s.producer = .waiting → s.queue.empty ≠ [] →
    s.queue.signalled = true ∨ ∃ n readyN, s.reader = .notifying n readyN

/-- The invariant is ownership, and three facts more: the policy is the first one, a buffer is left,
    and the producer wakes. -/
theorem Accounted.toOwned {p : BufferingPolicy} {s : System E} (h : Accounted p s) :
    Owned p.maxBuffers s where
  capacity_eq := h.capacity
  policy := by rw [h.policy]
  fits := by
    rw [h.policy, Nat.add_comm]
    exact p.fits
  owned := h.owned
  bounded := h.bounded
  hasActive := h.hasActive
  cursor := h.cursor
  room := h.room
  highWater := h.highWater

/-- The other way round; the steps are proved of the four parts one by one. -/
theorem Owned.accounted {p : BufferingPolicy} {s : System E} (h : Owned p.maxBuffers s)
    (hpolicy : s.queue.policy = p) (hpos : 1 ≤ s.queue.allocated) (hwakes : s.Wakes) :
    Accounted p s :=
  ⟨hpolicy, h.capacity_eq, h.owned, hpos, h.bounded, h.hasActive, h.cursor, h.room, h.highWater,
    hwakes⟩

/-- The constructor: one buffer is active, and the rest of what the policy asks for is empty. -/
theorem new_accounted [Inhabited E] (policy : BufferingPolicy) :
    Accounted policy (new policy : System E) := by
  have hfits := policy.fits
  have hpos := policy.maxBuffers_pos
  obtain ⟨houtside, hbounded, -, hactive, hready, hcursor, hfixed⟩ :=
    BuffersQueue.adjustEmptyBuffers_adjusted
      (BuffersQueue.startBuffer (E := E) ⟨0, 0, none, [], [], 1, policy, policy.maxBuffers, false⟩
        Buffer.blank) policy 0 (by omega) (Nat.zero_le _)
  have howned : (BuffersQueue.new policy : BuffersQueue E).allocated
      = 1 + (BuffersQueue.new policy : BuffersQueue E).empty.length := houtside
  have hbound : (BuffersQueue.new policy : BuffersQueue E).allocated ≤ max 1 policy.maxBuffers :=
    hbounded
  exact {
    policy := hfixed.1
    capacity := hfixed.2
    owned := howned
    pos := by show 1 ≤ (BuffersQueue.new policy : BuffersQueue E).allocated; omega
    bounded := by
      show (BuffersQueue.new policy : BuffersQueue E).allocated ≤ _
      omega
    hasActive := ⟨fun _ => trivial, fun _ => rfl⟩
    cursor := fun _ => rfl
    room := fun _ => Nat.succ_pos 383
    highWater := Nat.zero_le _
    wakes := fun h => by cases h }

/-- A producer that waits while there is an empty buffer has been told so, if the reader is not just
    about to. -/
theorem Wakes.signalled {s : System E} (h : s.Wakes)
    (hreader : ∀ n readyN, s.reader ≠ .notifying n readyN) (hw : s.producer = .waiting)
    (hne : s.queue.empty ≠ []) : s.queue.signalled = true := by
  refine (h hw hne).resolve_right ?_
  rintro ⟨n, readyN, hnotifying⟩
  exact hreader n readyN hnotifying

section Moves

variable [Inhabited E] {capacity : Nat} {s s' : System E} {a : Action E}

/-- What the end of a read makes of the empty buffers. -/
theorem Owned.adjusted {q : BuffersQueue E} {pr : Producer} {pu de : List E} {readyN : Nat}
    (h : Owned capacity ⟨q, pr, .finishing readyN, pu, de⟩) :
    BuffersQueue.Adjusted q.policy q (q.adjustEmptyBuffers q.policy readyN) := by
  have hfits : q.policy.maxEmpty + capacity < sizeTop := h.fits
  have hreadyN : readyN ≤ capacity := h.highWater
  have howned := h.owned
  dsimp only at howned
  exact BuffersQueue.adjustEmptyBuffers_adjusted q q.policy readyN (by omega) (by omega)

/-- **One sub-step** leaves every buffer with one owner.  By cases on the sub-step; each moves at
    most one buffer from one owner to another. -/
theorem moves_owned (h : Owned capacity s) (hmove : Moves s a s') : Owned capacity s' := by
  obtain ⟨hcapacity, hpolicy, hfits, howned, hbounded, hactive, hcursor, hroom, hhigh⟩ := id h
  cases hmove with
  | @write q rd _ _ r b hb =>
    -- a record is written into the active buffer, whose length stays
    simp only [hb] at howned hactive hcursor
    exact ⟨hcapacity, hpolicy, hfits, howned, hbounded, hactive, hcursor, hroom, hhigh⟩
  | @push q rd pu de r hr =>
    -- the cursor goes on; at the end of the buffer the hand-off comes
    obtain ⟨b, hb, -⟩ := Option.bind_eq_some_iff.mp hr
    have hleft : 0 < q.nLeft := hroom rfl
    have hsum : q.ptr + q.nLeft = bufferSize := hcursor (by rw [hb]; rfl)
    refine ⟨hcapacity, hpolicy, hfits, howned, hbounded, ?_, ?_, ?_, hhigh⟩
    · refine ⟨fun _ => ?_, fun _ => by show q.active.isSome; rw [hb]; rfl⟩
      split <;> trivial
    · intro _
      show (q.ptr + 1) + (q.nLeft - 1) = bufferSize
      omega
    · intro hidle
      refine Nat.pos_of_ne_zero fun hzero => ?_
      rw [show q.push.nLeft = 0 from hzero, if_pos rfl] at hidle
      cases hidle
  | flush =>
    exact ⟨hcapacity, hpolicy, hfits, howned, hbounded, hactive, hcursor, (by rintro ⟨⟩), hhigh⟩
  | @handOff q rd _ _ b hb hlt =>
    -- from active to ready
    refine ⟨hcapacity, hpolicy, hfits, ?_, hbounded, ⟨(by rintro ⟨⟩), False.elim⟩,
      (by rintro ⟨⟩), (by rintro ⟨⟩), hhigh⟩
    simp only [hb, Option.toList_some, Option.toList_none, List.length_append,
      List.length_cons, List.length_nil] at howned ⊢
    omega
  | sleep he =>
    exact ⟨hcapacity, hpolicy, hfits, howned, hbounded, hactive, hcursor, (by rintro ⟨⟩), hhigh⟩
  | @take q rd _ _ b empty he =>
    -- from empty to active: there was no active one
    have hnone : q.active = none := by
      have := mt hactive.mp (by exact id)
      simpa using this
    refine ⟨hcapacity, hpolicy, hfits, ?_, hbounded, ⟨fun _ => trivial, fun _ => rfl⟩,
      fun _ => Nat.zero_add _, fun _ => Nat.succ_pos 383, hhigh⟩
    simp only [BuffersQueue.startBuffer, hnone, he, Option.toList_some, Option.toList_none,
      List.length_cons, List.length_nil] at howned ⊢
    omega
  | wake hset =>
    exact ⟨hcapacity, hpolicy, hfits, howned, hbounded, hactive, hcursor, (by rintro ⟨⟩), hhigh⟩
  | startReading =>
    exact ⟨hcapacity, hpolicy, hfits, howned, hbounded, hactive, hcursor, hroom, Nat.zero_le _⟩
  | stop hstop =>
    exact ⟨hcapacity, hpolicy, hfits, howned, hbounded, hactive, hcursor, hroom, hhigh⟩
  | @consume q pr _ _ n readyN b ready hr =>
    -- from ready to the reader
    simp only [Reader.held, Reader.readyN, hr, List.length_cons, Option.toList_none,
      List.length_nil] at howned hhigh hbounded
    refine ⟨hcapacity, hpolicy, hfits, ?_, hbounded, hactive, hcursor, hroom, ?_⟩
    · simp only [Reader.held, Option.toList_some, List.length_cons, List.length_nil]
      omega
    · simp only [Reader.readyN, hr, List.length_cons]
      omega
  | deliver =>
    exact ⟨hcapacity, hpolicy, hfits, howned, hbounded, hactive, hcursor, hroom, hhigh⟩
  | @recycle q pr _ _ n readyN b =>
    -- from the reader to empty
    refine ⟨hcapacity, hpolicy, hfits, ?_, hbounded, hactive, hcursor, hroom, ?_⟩
    · have hnone : (if q.empty.isEmpty then Reader.notifying (E := E) n readyN
          else .looping n readyN).held = none := by split <;> rfl
      simp only [Reader.held, Option.toList_some, List.length_cons, List.length_nil] at howned
      simp only [hnone, BuffersQueue.recycle, Option.toList_none, List.length_cons,
        List.length_nil]
      omega
    · split <;> exact hhigh
  | notify =>
    exact ⟨hcapacity, hpolicy, hfits, howned, hbounded, hactive, hcursor, hroom, hhigh⟩
  | @finish q pr pu de readyN =>
    -- empty ones come and go
    obtain ⟨houtside, hbound, -, hact, hready, hcur, hfixed⟩ := h.adjusted
    simp only [Reader.held, Option.toList_none, List.length_nil] at howned hbounded hpolicy
    refine ⟨hfixed.2.trans hcapacity, hpolicy, hfits, ?_, ?_, ?_, ?_, ?_, Nat.zero_le _⟩
    all_goals simp only [BuffersQueue.finish, hact, hready, hcur.1, hcur.2, Reader.held]
    · simp only [Option.toList_none, List.length_nil]
      omega
    · omega
    · exact hactive
    · exact hcursor
    · exact hroom

/-- **One sub-step** leaves the last buffer allocated.  Only the end of a read destroys any. -/
theorem moves_pos (h : Owned capacity s) (hpos : 1 ≤ s.queue.allocated) (hmove : Moves s a s') :
    1 ≤ s'.queue.allocated := by
  cases hmove with
  | @finish q pr pu de readyN =>
    obtain ⟨houtside, -, hkeeps, -⟩ := h.adjusted
    have howned := h.owned
    show 1 ≤ (q.adjustEmptyBuffers q.policy readyN).allocated
    dsimp only at hpos howned
    by_cases he : q.empty = []
    · -- none was empty: none is destroyed
      rw [he, List.length_nil] at houtside
      omega
    · -- one was empty: one is kept
      have := List.length_pos_of_ne_nil (hkeeps he)
      omega
  | _ => exact hpos

/-- **One sub-step** loses no signal.  The producer begins to wait when nothing is empty; from then
    on whoever makes the first buffer empty tells it. -/
theorem moves_wakes (h : s.Wakes) (hmove : Moves s a s') : s'.Wakes := by
  have hsignalled := h.signalled
  cases hmove with
  | write hb => exact h
  | push hr =>
    intro hw
    dsimp only at hw
    split at hw <;> cases hw
  | flush => exact fun hw => by cases hw
  | handOff hb hlt => exact fun hw => by cases hw
  | sleep he => exact fun _ hne => absurd he hne
  | take he => exact fun hw => by cases hw
  | wake hset => exact fun hw => by cases hw
  | startReading => exact fun hw hne => Or.inl (hsignalled (by rintro _ _ ⟨⟩) hw hne)
  | stop hstop => exact fun hw hne => Or.inl (hsignalled (by rintro _ _ ⟨⟩) hw hne)
  | consume hr => exact fun hw hne => Or.inl (hsignalled (by rintro _ _ ⟨⟩) hw hne)
  | deliver => exact fun hw hne => Or.inl (hsignalled (by rintro _ _ ⟨⟩) hw hne)
  | @recycle q pr _ _ n readyN b =>
    -- the first empty buffer is the one the reader notifies of
    intro hw _
    cases he : q.empty with
    | nil => exact Or.inr ⟨n, readyN, by simp⟩
    | cons b' empty => exact Or.inl (hsignalled (by rintro _ _ ⟨⟩) hw (by simp [he]))
  | notify => exact fun _ _ => Or.inl rfl
  | @finish q pr pu de readyN =>
    -- the closing section tells a producer that found no buffer, whatever was created since
    intro hw _
    left
    by_cases he : q.empty = []
    · simp [BuffersQueue.finish, he]
    · have hset : q.signalled = true := hsignalled (by rintro _ _ ⟨⟩) hw he
      simp [BuffersQueue.finish, hset]

end Moves

/-- **One sub-step** keeps the accounts. -/
theorem moves_accounted [Inhabited E] {p : BufferingPolicy} {s s' : System E} {a : Action E}
    (h : Accounted p s) (hmove : Moves s a s') : Accounted p s' := by
  refine (moves_owned h.toOwned hmove).accounted ?_ (moves_pos h.toOwned h.pos hmove)
    (moves_wakes h.wakes hmove)
  rw [← h.policy]
  -- no sub-step touches the policy
  cases hmove <;> rfl

/-- The same, of the step function. -/
theorem step_accounted [Inhabited E] {p : BufferingPolicy} (s : System E) (a : Action E)
    (s' : System E) (h : Accounted p s) (hstep : s.step a = some s') : Accounted p s' :=
  moves_accounted h (step_moves hstep)

/-- **Every reachable state.** -/
theorem run_accounted [Inhabited E] {p : BufferingPolicy} {actions : List (Action E)}
    {s : System E} (h : Lib.run step (new p) actions = some s) : Accounted p s :=
  Lib.run_invariant step_accounted actions (new p) s (new_accounted p) h

/-- There is always a slot under the cursor. -/
theorem Accounted.exists_current {p : BufferingPolicy} {s : System E} (h : Accounted p s)
    (hidle : s.producer = .idle) :
    ∃ b r, s.queue.active = some b ∧ s.queue.current = some r := by
  obtain ⟨b, hb⟩ := Option.isSome_iff_exists.mp (h.hasActive.mpr (by rw [hidle]; trivial))
  have hcursor := h.cursor (by rw [hb]; rfl)
  have hroom := h.room hidle
  have hlt : s.queue.ptr < b.data.length := by rw [b.length_data]; omega
  exact ⟨b, _, hb, by rw [BuffersQueue.current, hb]; exact List.getElem?_eq_getElem hlt⟩

/-- **Memory safety**: no sub-step meets a null active buffer or an overflowing queue.  A hand-off
    needs room in the ready queue: the active buffer is allocated and is not in it. -/
theorem Accounted.serves [Inhabited E] {p : BufferingPolicy} {s : System E} (h : Accounted p s)
    {a : Action E} (ha : s.Enabled a) : ∃ s', s.step a = some s' := by
  obtain ⟨q, producer, reader, pushed, delivered⟩ := s
  cases a with
  | write r =>
    obtain rfl : producer = .idle := ha
    obtain ⟨b, _, hb, _⟩ := h.exists_current rfl
    replace hb : q.active = some b := hb
    exact ⟨_, by simp only [step, BuffersQueue.write, hb]; rfl⟩
  | push =>
    obtain rfl : producer = .idle := ha
    obtain ⟨_, r, _, hr⟩ := h.exists_current rfl
    exact ⟨_, by simp only [step, hr]; rfl⟩
  | flush =>
    obtain rfl : producer = .idle := ha
    exact ⟨_, rfl⟩
  | handOff =>
    obtain rfl : producer = .handingOff := ha
    obtain ⟨b, hb⟩ := Option.isSome_iff_exists.mp (h.hasActive.mpr trivial)
    replace hb : q.active = some b := hb
    have hroom : q.ready.length < q.capacity := by
      have howned := h.owned
      have hbounded := h.bounded
      have hcapacity := h.capacity
      simp only [hb, Option.toList_some, List.length_cons, List.length_nil]
        at howned hbounded hcapacity
      omega
    exact ⟨_, by simp only [step, BuffersQueue.handOff, hb, if_pos hroom]; rfl⟩
  | take =>
    -- with nothing empty the producer goes to sleep, which is a step too
    obtain rfl : producer = .taking := ha
    cases he : q.empty with
    | nil => exact ⟨_, by simp only [step, BuffersQueue.takeEmpty, he]; rfl⟩
    | cons b empty => exact ⟨_, by simp only [step, BuffersQueue.takeEmpty, he]; rfl⟩
  | wake =>
    obtain ⟨rfl, hset⟩ : producer = .waiting ∧ q.signalled = true := ha
    exact ⟨_, by simp only [step, hset, if_true]; rfl⟩
  | startReading =>
    obtain rfl : reader = .idle := ha
    exact ⟨_, by simp only [step]; rfl⟩
  | consume =>
    obtain ⟨n, readyN, rfl⟩ : ∃ n r, reader = .looping n r := ha
    cases n with
    | zero => exact ⟨_, by simp only [step]; rfl⟩
    | succ n =>
      cases hr : q.ready with
      | nil => exact ⟨_, by simp only [step, BuffersQueue.consume, hr]; rfl⟩
      | cons b ready => exact ⟨_, by simp only [step, BuffersQueue.consume, hr]; rfl⟩
  | deliver =>
    obtain ⟨n, readyN, b, rfl⟩ : ∃ n r b, reader = .reading n r b := ha
    exact ⟨_, by simp only [step]; rfl⟩
  | recycle =>
    obtain ⟨n, readyN, b, rfl⟩ : ∃ n r b, reader = .recycling n r b := ha
    exact ⟨_, by simp only [step]; rfl⟩
  | notify =>
    obtain ⟨n, readyN, rfl⟩ : ∃ n r, reader = .notifying n r := ha
    exact ⟨_, by simp only [step]; rfl⟩
  | finish =>
    obtain ⟨readyN, rfl⟩ : ∃ r, reader = .finishing r := ha
    exact ⟨_, by simp only [step]; rfl⟩

/-! ## A waiting producer is woken by the reader alone -/

/-- The reader can get from `s` to a state in which a waiting producer goes on with a buffer. -/
def Releases [Inhabited E] (s : System E) : Prop :=
  ∃ (more : List (Action E)) (s' : System E), (∀ a ∈ more, a.ofReader = true) ∧
    Lib.run step s more = some s' ∧ s'.queue.signalled = true ∧ s'.queue.empty ≠ []

variable [Inhabited E]

/-- Nothing is left to do. -/
theorem Releases.now {s : System E} (hset : s.queue.signalled = true) (he : s.queue.empty ≠ []) :
    Releases s := ⟨[], s, fun _ h => absurd h List.not_mem_nil, rfl, hset, he⟩

/-- One step of the reader more. -/
theorem Releases.next {s s' : System E} {a : Action E} (ha : a.ofReader = true)
    (hstep : s.step a = some s') (h : Releases s') : Releases s := by
  obtain ⟨more, s'', hall, hrun, hgoal⟩ := h
  refine ⟨a :: more, s'', ?_, Lib.run_cons_eq_some.mpr ⟨s', hstep, hrun⟩, hgoal⟩
  intro x hx
  rcases List.mem_cons.mp hx with rfl | hx
  · exact ha
  · exact hall x hx

section

variable {q : BuffersQueue E} {pr : Producer} {pu de : List E} {n readyN : Nat}

/-- The buffer read becomes the first empty one, and the notification follows. -/
theorem releases_recycling {b : Buffer E} (he : q.empty = []) :
    Releases ⟨q, pr, .recycling n readyN b, pu, de⟩ := by
  have hrecycle : step ⟨q, pr, .recycling n readyN b, pu, de⟩ .recycle =
      some ⟨q.recycle b, pr, .notifying n readyN, pu, de⟩ := by
    simp only [step, he, List.isEmpty_nil, if_true]
  refine .next rfl hrecycle (.next (a := .notify) rfl rfl (.now rfl ?_))
  exact List.cons_ne_nil b q.empty

/-- The records are delivered first. -/
theorem releases_reading {b : Buffer E} (he : q.empty = []) :
    Releases ⟨q, pr, .reading n readyN b, pu, de⟩ :=
  .next (a := .deliver) rfl rfl (releases_recycling he)

/-- There is a ready buffer to take. -/
theorem releases_looping_succ (he : q.empty = []) (hr : q.ready ≠ []) :
    Releases ⟨q, pr, .looping (n + 1) readyN, pu, de⟩ := by
  obtain ⟨b, ready, hready⟩ := List.exists_cons_of_ne_nil hr
  have hconsume : step ⟨q, pr, .looping (n + 1) readyN, pu, de⟩ .consume =
      some ⟨{ q with ready := ready }, pr, .reading n (max readyN (b :: ready).length) b, pu, de⟩ := by
    simp only [step, BuffersQueue.consume, hready]
  exact .next rfl hconsume (releases_reading he)

/-- A new read looks at the ready buffers. -/
theorem releases_idle (he : q.empty = []) (hr : q.ready ≠ []) :
    Releases ⟨q, pr, .idle, pu, de⟩ := by
  obtain ⟨k, hk⟩ := Nat.exists_eq_succ_of_ne_zero q.policy.maxBuffers_pos.ne'
  have hstart : step ⟨q, pr, .idle, pu, de⟩ .startReading =
      some ⟨q, pr, .looping (k + 1) 0, pu, de⟩ := by simp only [step, hk]
  exact .next rfl hstart (releases_looping_succ he hr)

/-- The end of a read, and the next one if it made no buffer. -/
theorem releases_finishing (he : q.empty = []) (hr : q.ready ≠ []) :
    Releases ⟨q, pr, .finishing readyN, pu, de⟩ := by
  refine .next (a := .finish) rfl rfl ?_
  -- the closing section signals; it may also have created an empty buffer
  by_cases hmade : (q.finish readyN).empty = []
  · exact releases_idle hmade hr
  · exact .now (by simp [BuffersQueue.finish, he]) hmade

/-- The loop of a read, which may be through. -/
theorem releases_looping (he : q.empty = []) (hr : q.ready ≠ []) :
    Releases ⟨q, pr, .looping n readyN, pu, de⟩ := by
  cases n with
  | zero => exact .next (a := .consume) rfl rfl (releases_finishing he hr)
  | succ n => exact releases_looping_succ he hr

end

/-- **No lost wake-up**: whatever the reader is doing, it can release a waiting producer.  A
    producer that waits has no active buffer, so some other place has one. -/
theorem Owned.releases {capacity : Nat} {s : System E} (h : Owned capacity s)
    (hpos : 1 ≤ s.queue.allocated) (hwakes : s.Wakes) (hwaiting : s.producer = .waiting) :
    Releases s := by
  obtain ⟨q, pr, reader, pu, de⟩ := s
  obtain rfl : pr = .waiting := hwaiting
  by_cases he : q.empty = []
  · -- nothing is empty: a buffer is with the reader, or ready
    have hnone : q.active = none := by
      have := mt h.hasActive.mp (by exact id)
      simpa using this
    have howned := h.owned
    simp only [hnone, he, Option.toList_none, List.length_nil] at howned hpos
    cases reader with
    | reading n readyN b => exact releases_reading he
    | recycling n readyN b => exact releases_recycling he
    | idle =>
      refine releases_idle he (List.ne_nil_of_length_pos ?_)
      simp only [Reader.held, Option.toList_none, List.length_nil] at howned
      omega
    | looping n readyN =>
      refine releases_looping he (List.ne_nil_of_length_pos ?_)
      simp only [Reader.held, Option.toList_none, List.length_nil] at howned
      omega
    | notifying n readyN =>
      refine .next (a := .notify) rfl rfl (releases_looping he (List.ne_nil_of_length_pos ?_))
      show 0 < q.ready.length
      simp only [Reader.held, Option.toList_none, List.length_nil] at howned
      omega
    | finishing readyN =>
      refine releases_finishing he (List.ne_nil_of_length_pos ?_)
      simp only [Reader.held, Option.toList_none, List.length_nil] at howned
      omega
  · -- there is an empty one, and the signal for it
    rcases hwakes rfl he with hset | ⟨n, readyN, hreader⟩
    · exact .now hset he
    · obtain rfl : reader = .notifying n readyN := hreader
      exact .next (a := .notify) rfl rfl (.now rfl he)

/-- **Buffer accounting and absence of deadlock under a fixed policy.**  In every reachable state:
    each allocated buffer has one owner, there is at least one and at most `max_buffers` of them,
    and the empty stack is within its array.  A producer without an active buffer has an empty one
    within reach (and is, or will be, told so, unless it has yet to look), or some buffer is ready
    or held by the reader; and once it waits, the reader's own steps release it.  No party's next
    sub-step breaks memory. -/
theorem buffers_accounted (p : BufferingPolicy) (actions : List (Action E)) (s : System E)
    (h : Lib.run step (new p) actions = some s) :
    s.queue.allocated = (if s.queue.active.isSome then 1 else 0) + s.queue.empty.length
      + s.queue.ready.length + (if s.reader.held.isSome then 1 else 0) ∧
    1 ≤ s.queue.allocated ∧ s.queue.allocated ≤ p.maxBuffers ∧
    s.queue.empty.length ≤ p.maxBuffers ∧
    (s.queue.active = none →
      (s.queue.empty ≠ [] ∧ (s.queue.signalled = true ∨ (∃ n r, s.reader = .notifying n r)
        ∨ s.producer = .taking)) ∨ s.queue.ready ≠ [] ∨ s.reader.held.isSome) ∧
    (s.producer = .waiting → Releases s) ∧
    ∀ a, s.Enabled a → ∃ s', s.step a = some s' := by
  have hacc := run_accounted h
  have howned := hacc.owned
  have hpos := hacc.pos
  have hbounded := hacc.bounded
  refine ⟨?_, hpos, hbounded, by omega, ?_, hacc.toOwned.releases hpos hacc.wakes,
    fun a ha => hacc.serves ha⟩
  · rw [howned]
    cases s.queue.active <;> cases s.reader.held <;> rfl
  · -- without an active buffer the producer is in `flush`, after the hand-off
    intro hnone
    by_cases he : s.queue.empty = []
    · right
      by_contra hno
      simp only [not_or, not_not, Option.not_isSome_iff_eq_none] at hno
      simp only [hnone, he, hno.1, hno.2, Option.toList_none, List.length_nil] at howned
      omega
    · refine Or.inl ⟨he, ?_⟩
      cases hproducer : s.producer with
      | taking => exact Or.inr (Or.inr rfl)
      | waiting => exact (hacc.wakes hproducer he).imp_right Or.inl
      | idle =>
        have := hacc.hasActive.mpr (by rw [hproducer]; trivial)
        rw [hnone] at this
        cases this
      | handingOff =>
        have := hacc.hasActive.mpr (by rw [hproducer]; trivial)
        rw [hnone] at this
        cases this

/-- A policy of two buffers, one of them kept empty. -/
def twoBuffers : BufferingPolicy :=
  ⟨2, 1, 1, by decide, by decide, by decide, by decide, by decide, by decide⟩

/-- Two partial flushes fill both buffers; the producer is left waiting, the reader starts. -/
theorem buffers_accounted_waiting :
    ∃ s : System Nat, Lib.run step (new twoBuffers)
        [.write 7, .push, .flush, .handOff, .take, .write 8, .push, .flush, .handOff, .take,
          .startReading, .consume] = some s ∧
      s.producer = .waiting ∧ Releases s :=
  ⟨_, rfl, rfl, (buffers_accounted twoBuffers
    [.write 7, .push, .flush, .handOff, .take, .write 8, .push, .flush, .handOff, .take,
      .startReading, .consume] _ rfl).2.2.2.2.2.1 rfl⟩

end System

end MicroProfiler
