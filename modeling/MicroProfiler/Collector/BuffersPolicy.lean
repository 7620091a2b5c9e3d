/-
  `buffers_queue::set_buffering_policy`, called while the producer and the reader go on.

  1. **The code** — `setBufferingPolicy` adjusts the empty buffers and sets the policy, in one
     locked section.  The number it passes on, `allocated - empty - 1`, leaves a buffer out that it
     takes to be active; there is none while the producer is between its two buffers.

  2. **Bounds** (`policy_change_bounds`) — the call keeps its bounds exactly when some buffer is
     active, ready or with the reader.  Otherwise all of them are empty and the number wraps.

  3. **Signals** (`policy_change_wakes`) — the call creates buffers and signals nobody.  It strands
     a producer that waits exactly when it makes the first empty buffer (`Strands`): neither the
     next read nor any other will find the stack empty and signal.
-/
import MicroProfiler.Collector.BuffersAccounting

namespace MicroProfiler

variable {E : Type}

namespace BuffersQueue

/-- `_allocated_buffers - (_empty_buffers_top - _empty_buffers.get()) - 1 /*active*/`. -/
def baseN (q : BuffersQueue E) : Nat :=
  (((q.allocated : Int) - q.empty.length - 1) % (sizeTop : Int)).toNat

/-- `set_buffering_policy`. -/
def setBufferingPolicy [Inhabited E] (q : BuffersQueue E) (policy : BufferingPolicy) :
    BuffersQueue E :=
  { q.adjustEmptyBuffers policy q.baseN with policy := policy }

end BuffersQueue

/-- A sub-step of one of the parties, or a change of policy. -/
inductive PolicyAction (E : Type) where
  | on (a : Action E)
  | setBufferingPolicy (policy : BufferingPolicy)

namespace System

variable [Inhabited E]

/-- The policy is set. -/
def changed (s : System E) (policy : BufferingPolicy) : System E :=
  { s with queue := s.queue.setBufferingPolicy policy }

/-- One step; the arrays are made once, so a policy may ask for no more than they hold. -/
def policyStep (s : System E) : PolicyAction E → Option (System E)
  | .on a => s.step a
  | .setBufferingPolicy policy =>
      if policy.maxBuffers ≤ s.queue.capacity then some (s.changed policy) else none

end System

/-! ## What a change of policy leaves -/

namespace BuffersQueue

/-- Some buffer is not in the stack: the number passed on is what it says. -/
theorem baseN_eq {q : BuffersQueue E} (h : q.empty.length < q.allocated)
    (hfits : q.allocated < sizeTop) : q.baseN = q.allocated - q.empty.length - 1 := by
  unfold baseN
  rw [Int.emod_eq_of_lt (by omega) (by omega)]
  omega

/-- All buffers are in the stack: it is the largest `size_t`. -/
theorem baseN_wraps {q : BuffersQueue E} (h : q.allocated = q.empty.length) :
    q.baseN = sizeTop - 1 := by
  unfold baseN
  rw [h, Int.sub_self]
  rfl

variable [Inhabited E] (q : BuffersQueue E) (policy : BufferingPolicy)

/-- How many empty buffers, and how many in all. -/
theorem setBufferingPolicy_counts :
    let high := (policy.maxEmpty + q.baseN) % sizeTop
    let low := (policy.minEmpty + q.baseN) % sizeTop
    let kept := min q.empty.length high
    let left := q.allocated - (q.empty.length - high)
    let created := min (policy.maxBuffers - left) (low - kept)
    (q.setBufferingPolicy policy).empty.length = created + kept ∧
      (q.setBufferingPolicy policy).allocated = left + created := by
  have hkept : ∀ n h : Nat, n - (n - h) = min n h := fun n h => by omega
  simp only [setBufferingPolicy, adjustEmptyBuffers, destroyEmpty_eq,
    createEmpty_eq _ _ _ _ _ le_rfl, List.length_append, List.length_replicate, List.length_drop,
    hkept, and_self]

/-- Whatever the water marks are: buffers come to the stack and go from it only, and none is made
    that the policy does not allow. -/
theorem setBufferingPolicy_balance (h : q.empty.length ≤ q.allocated) :
    (q.setBufferingPolicy policy).allocated + q.empty.length =
        q.allocated + (q.setBufferingPolicy policy).empty.length ∧
      (q.setBufferingPolicy policy).allocated ≤ max q.allocated policy.maxBuffers := by
  obtain ⟨hempty, hallocated⟩ := q.setBufferingPolicy_counts policy
  -- the water marks may be anything, so their values are forgotten
  generalize (policy.maxEmpty + q.baseN) % sizeTop = high at hempty hallocated
  generalize (policy.minEmpty + q.baseN) % sizeTop = low at hempty hallocated
  rw [hempty, hallocated]
  omega

/-- Water marks that do not wrap. -/
theorem setBufferingPolicy_marks (hfits : policy.maxEmpty + q.baseN < sizeTop) :
    (q.setBufferingPolicy policy).empty.length ≤ policy.maxEmpty + q.baseN := by
  have hle : policy.minEmpty + q.baseN ≤ policy.maxEmpty + q.baseN :=
    Nat.add_le_add_right policy.minEmpty_le _
  obtain ⟨hempty, _⟩ := q.setBufferingPolicy_counts policy
  rw [Nat.mod_eq_of_lt hfits, Nat.mod_eq_of_lt (Nat.lt_of_le_of_lt hle hfits)] at hempty
  rw [hempty]
  generalize policy.maxEmpty + q.baseN = high at hle
  generalize policy.minEmpty + q.baseN = low at hle
  omega

end BuffersQueue

namespace System

variable {capacity : Nat} {s : System E} {policy : BufferingPolicy}

/-- What is in the stack has been allocated. -/
theorem Owned.empty_le (h : Owned capacity s) : s.queue.empty.length ≤ s.queue.allocated := by
  have := h.owned
  omega

/-- All buffers are in the stack when none is active, ready or with the reader. -/
theorem Owned.empty_lt_iff (h : Owned capacity s) :
    s.queue.empty.length < s.queue.allocated ↔
      s.queue.active.isSome ∨ s.queue.ready ≠ [] ∨ s.reader.held.isSome := by
  have howned := h.owned
  rw [← List.length_pos_iff]
  cases hactive : s.queue.active <;> cases hheld : s.reader.held <;>
    simp [hactive, hheld] at howned ⊢ <;> omega

variable [Inhabited E]

/-- **The buffers keep their owners** under any change of policy. -/
theorem Owned.changed (h : Owned capacity s) (hcapacity : 3 * capacity + 1 < sizeTop)
    (hpolicy : policy.maxBuffers ≤ capacity) : Owned capacity (s.changed policy) := by
  have hbalance := s.queue.setBufferingPolicy_balance policy h.empty_le
  have howned := h.owned
  have hbounded := h.bounded
  refine ⟨h.capacity_eq, hpolicy, ?_, ?_, ?_, h.hasActive, h.cursor, h.room, h.highWater⟩
  · -- the high water mark
    show policy.maxEmpty + capacity < sizeTop
    have hempty := policy.maxEmpty_le
    omega
  · -- the owners of the buffers
    show (s.queue.setBufferingPolicy policy).allocated = s.queue.active.toList.length
      + (s.queue.setBufferingPolicy policy).empty.length + s.queue.ready.length
      + s.reader.held.toList.length
    omega
  · -- the bound
    show (s.queue.setBufferingPolicy policy).allocated ≤ capacity
    omega

/-- INVARIANT of every run with changes of policy: if the last buffer was destroyed, the next read
    creates one. -/
structure Governed (capacity : Nat) (s : System E) : Prop where
  /-- every buffer has one owner -/
  owned : Owned capacity s
  /-- the policy then asks for an empty buffer -/
  refills : s.queue.allocated = 0 → 1 ≤ s.queue.policy.minEmpty

/-- **A change of policy keeps it**: a policy that asks for no empty buffer never destroys the last
    one, for the wrapped number would have it fill the stack up. -/
theorem Governed.changed (h : Governed capacity s) (hcapacity : 3 * capacity + 1 < sizeTop)
    (hpolicy : policy.maxBuffers ≤ capacity) : Governed capacity (s.changed policy) := by
  refine ⟨h.owned.changed hcapacity hpolicy, fun hnone => ?_⟩
  replace hnone : (s.queue.setBufferingPolicy policy).allocated = 0 := hnone
  show 1 ≤ policy.minEmpty
  have hall : s.queue.allocated = s.queue.empty.length := by
    have hle := h.owned.empty_le
    have hbalance := (s.queue.setBufferingPolicy_balance policy hle).1
    omega
  -- were the policy to keep none, the largest `size_t` would be the mark to be filled up to
  by_contra hmin
  have hzero : policy.minEmpty = 0 := Nat.lt_one_iff.mp (Nat.lt_of_not_le hmin)
  have hlow : (policy.minEmpty + s.queue.baseN) % sizeTop = sizeTop - 1 := by
    rw [BuffersQueue.baseN_wraps hall, hzero, Nat.zero_add]
    exact Nat.mod_eq_of_lt (Nat.sub_lt (Nat.two_pow_pos 64) Nat.one_pos)
  obtain ⟨_, hallocated⟩ := s.queue.setBufferingPolicy_counts policy
  rw [hlow, hnone] at hallocated
  have hpos := policy.maxBuffers_pos
  have hbound := policy.maxBuffers_lt
  generalize (policy.maxEmpty + s.queue.baseN) % sizeTop = high at hallocated
  generalize sizeTop = top at hallocated hbound
  omega

/-- **A sub-step of a party keeps it**: it neither destroys the last buffer nor sets the policy. -/
theorem Governed.moves (h : Governed capacity s) {a : Action E} {s' : System E}
    (hmove : Moves s a s') : Governed capacity s' := by
  refine ⟨moves_owned h.owned hmove, fun hnone => ?_⟩
  have hnone' : s.queue.allocated = 0 := by
    by_contra hne
    have := moves_pos h.owned (Nat.one_le_iff_ne_zero.mpr hne) hmove
    omega
  have hpolicy : s'.queue.policy = s.queue.policy := by cases hmove <;> rfl
  rw [hpolicy]
  exact h.refills hnone'

/-- There are buffers from the start. -/
theorem new_governed (p : BufferingPolicy) : Governed p.maxBuffers (new p : System E) := by
  have h := new_accounted (E := E) p
  refine ⟨h.toOwned, fun hnone => ?_⟩
  have := h.pos
  omega

/-- The step lemma of runs with changes of policy. -/
theorem policyStep_governed (hcapacity : 3 * capacity + 1 < sizeTop) (s : System E)
    (a : PolicyAction E) (s' : System E) (h : Governed capacity s)
    (hstep : s.policyStep a = some s') : Governed capacity s' := by
  cases a with
  | on a => exact h.moves (step_moves hstep)
  | setBufferingPolicy policy =>
    simp only [policyStep, h.owned.capacity_eq] at hstep
    split at hstep
    · next hpolicy => exact Option.some.inj hstep ▸ h.changed hcapacity hpolicy
    · exact absurd hstep (by simp)

/-! ## Bounds -/

/-- What a change of policy is to keep: as few empty buffers as the policy asks for and those in
    use will need, a buffer at least, the stack within its array; and every `size_t` it computes is
    the number it stands for. -/
structure KeepsBounds (s : System E) (policy : BufferingPolicy) : Prop where
  /-- as many as the policy asks for and those in use will need -/
  empty : (s.changed policy).queue.empty.length ≤
    policy.maxEmpty + (s.queue.ready.length + s.reader.held.toList.length)
  /-- a buffer at least -/
  pos : 1 ≤ (s.changed policy).queue.allocated
  /-- the stack stays within its array -/
  within : (s.changed policy).queue.empty.length ≤ s.queue.capacity
  /-- the number passed on is what it stands for -/
  base : (s.queue.baseN : Int) = s.queue.allocated - s.queue.empty.length - 1
  /-- neither water mark wraps -/
  highWater : policy.maxEmpty + s.queue.baseN < sizeTop
  lowWater : policy.minEmpty + s.queue.baseN < sizeTop
  /-- no more buffers are destroyed than there are -/
  destroyed : s.queue.empty.length - (policy.maxEmpty + s.queue.baseN) ≤ s.queue.allocated
  /-- the count of buffers does not wrap -/
  created : (s.changed policy).queue.allocated < sizeTop

/-- **The bounds hold** while a buffer is out of the stack: the number passed on is that of the
    others that are. -/
theorem Owned.keepsBounds (h : Owned capacity s) (hcapacity : 3 * capacity + 1 < sizeTop)
    (hpolicy : policy.maxBuffers ≤ capacity) (hlt : s.queue.empty.length < s.queue.allocated) :
    KeepsBounds s policy := by
  have hbounded := h.bounded
  have howned := h.owned
  have hmin := policy.minEmpty_le
  have hmax := policy.maxEmpty_le
  have hbase := BuffersQueue.baseN_eq hlt (by omega)
  have hactive : s.queue.active.toList.length ≤ 1 := by cases s.queue.active <;> simp
  have hchanged := h.changed hcapacity hpolicy
  have hle := hchanged.empty_le
  have hlimit := hchanged.bounded
  have hmarks := s.queue.setBufferingPolicy_marks policy (by omega)
  have hbalance := (s.queue.setBufferingPolicy_balance policy hlt.le).1
  refine ⟨?_, ?_, ?_, ?_, ?_, ?_, ?_, ?_⟩
  · show (s.queue.setBufferingPolicy policy).empty.length ≤ _
    omega
  · show 1 ≤ (s.queue.setBufferingPolicy policy).allocated
    omega
  · rw [h.capacity_eq]
    omega
  · omega
  · omega
  · omega
  · omega
  · omega

/-- **A change of policy keeps its bounds** in exactly those reachable states in which a buffer is
    active, ready or held by the reader. -/
theorem policy_change_bounds (p : BufferingPolicy) (actions : List (PolicyAction E)) (s : System E)
    (hrun : Lib.run policyStep (new p) actions = some s) (policy : BufferingPolicy)
    (hpolicy : policy.maxBuffers ≤ s.queue.capacity) :
    KeepsBounds s policy ↔
      s.queue.active.isSome ∨ s.queue.ready ≠ [] ∨ s.reader.held.isSome := by
  have h := Lib.run_invariant (policyStep_governed p.maxBuffers_lt) actions (new p) s
    (new_governed p) hrun
  rw [← h.owned.empty_lt_iff]
  refine ⟨fun hkeeps => ?_, fun hlt => ?_⟩
  · have := hkeeps.base
    omega
  · rw [h.owned.capacity_eq] at hpolicy
    exact h.owned.keepsBounds p.maxBuffers_lt hpolicy hlt

/-- The producer has written into one of two buffers. -/
theorem policy_change_bounds_active :
    ∃ s : System Nat, Lib.run policyStep (new twoBuffers) [.on (.write 7), .on .push] = some s ∧
      KeepsBounds s twoBuffers := by
  refine ⟨_, rfl, ?_⟩
  exact (policy_change_bounds twoBuffers [.on (.write 7), .on .push] _ rfl twoBuffers le_rfl).mpr
    (.inl rfl)

/-- The producer hands a buffer off, and the reader has returned it before the producer takes
    another one. -/
def betweenBuffers : List (PolicyAction Nat) :=
  [.on .flush, .on .handOff, .on .startReading, .on .consume, .on .deliver, .on .recycle,
    .on .consume, .on .finish]

/-- The number wraps, and setting the policy the queue has already destroys all of its buffers. -/
theorem policy_change_destroys_all :
    ∃ s, Lib.run policyStep (new twoBuffers) betweenBuffers = some s ∧
      twoBuffers.maxBuffers ≤ s.queue.capacity ∧ s.queue.allocated = 2 ∧
      s.queue.baseN = sizeTop - 1 ∧ (s.changed twoBuffers).queue.allocated = 0 ∧
      ¬ KeepsBounds s twoBuffers := by
  refine ⟨_, rfl, by decide, by decide, by decide, by decide, fun h => ?_⟩
  exact absurd h.pos (by decide)

/-! ## Signals -/

/-- The call makes the first empty buffer for a producer that waits and will not be told. -/
def Strands (s : System E) (policy : BufferingPolicy) : Prop :=
  s.producer = .waiting ∧ s.queue.empty = [] ∧ s.queue.signalled = false ∧
    (∀ n readyN, s.reader ≠ .notifying n readyN) ∧
    s.queue.allocated < policy.maxBuffers ∧ policy.minEmpty + s.queue.allocated ≠ 1

instance decidableNotifying : (reader : Reader E) →
    Decidable (∀ n readyN, reader ≠ .notifying n readyN)
  | .notifying n readyN => isFalse fun h => h n readyN rfl
  | .idle => isTrue fun _ _ h => by cases h
  | .looping _ _ => isTrue fun _ _ h => by cases h
  | .reading _ _ _ => isTrue fun _ _ h => by cases h
  | .recycling _ _ _ => isTrue fun _ _ h => by cases h
  | .finishing _ => isTrue fun _ _ h => by cases h

instance decidableEmpty : (empty : List (Buffer E)) → Decidable (empty = [])
  | [] => isTrue rfl
  | _ :: _ => isFalse (List.cons_ne_nil _ _)

instance : Decidable (s.Strands policy) := by
  unfold Strands
  infer_instance

omit [Inhabited E] in
/-- When the mark an exhausted queue is filled up to is zero. -/
theorem Owned.lowWater_eq_zero (h : Owned capacity s) (hcapacity : 3 * capacity + 1 < sizeTop)
    (hpolicy : policy.maxBuffers ≤ capacity) (hempty : s.queue.empty = []) :
    (policy.minEmpty + s.queue.baseN) % sizeTop = 0 ↔ policy.minEmpty + s.queue.allocated = 1 := by
  have hbounded := h.bounded
  have hmin := policy.minEmpty_lt
  unfold BuffersQueue.baseN
  rw [hempty, List.length_nil]
  simp only [sizeTop] at hcapacity ⊢
  omega

/-- **A change of policy strands a producer** exactly when it is such a call. -/
theorem Owned.changed_wakes (h : Owned capacity s) (hcapacity : 3 * capacity + 1 < sizeTop)
    (hpolicy : policy.maxBuffers ≤ capacity) (hwakes : s.Wakes) :
    (s.changed policy).Wakes ↔ ¬ s.Strands policy := by
  have hcounts := s.queue.setBufferingPolicy_counts policy
  constructor
  · intro hchanged hstrands
    obtain ⟨hw, hempty, hset, hreader, hroom, hne⟩ := hstrands
    have hlow := mt (h.lowWater_eq_zero hcapacity hpolicy hempty).mp hne
    have hmade : (s.queue.setBufferingPolicy policy).empty ≠ [] := by
      rw [← List.length_pos_iff, hcounts.1]
      simp only [hempty, List.length_nil]
      omega
    rcases hchanged hw hmade with hset' | ⟨n, readyN, hnotifying⟩
    · exact absurd (hset.symm.trans hset') (by decide)
    · exact hreader n readyN hnotifying
  · intro hstrands hw hmade
    by_cases hempty : s.queue.empty = []
    · by_contra hnone
      obtain ⟨hset, hreader⟩ := not_or.mp hnone
      have hlen : (s.queue.setBufferingPolicy policy).empty.length ≠ 0 :=
        mt List.length_eq_zero_iff.mp hmade
      rw [hcounts.1] at hlen
      simp only [hempty, List.length_nil] at hlen
      refine hstrands ⟨hw, hempty, Bool.not_eq_true _ ▸ hset, fun n readyN heq => ?_, ?_, ?_⟩
      · exact hreader ⟨n, readyN, heq⟩
      · omega
      · refine mt (h.lowWater_eq_zero hcapacity hpolicy hempty).mpr ?_
        omega
    · exact hwakes hw hempty

/-- Every buffer was destroyed: the closing section of a read creates one, and signals. -/
theorem Governed.releases_finishing {q : BuffersQueue E} {pr : Producer} {pu de : List E}
    {readyN : Nat} (h : Governed capacity ⟨q, pr, .finishing readyN, pu, de⟩)
    (hnone : q.allocated = 0) (hempty : q.empty = []) :
    Releases ⟨q, pr, .finishing readyN, pu, de⟩ := by
  refine .next (a := .finish) rfl rfl (.now ?_ ?_)
  · simp [BuffersQueue.finish, hempty]
  · have hfits : q.policy.maxEmpty + capacity < sizeTop := h.owned.fits
    have hreadyN : readyN ≤ capacity := h.owned.highWater
    have hmin : 1 ≤ q.policy.minEmpty := h.refills hnone
    have hle := q.policy.minEmpty_le
    have hpos := q.policy.maxBuffers_pos
    show (q.adjustEmptyBuffers q.policy readyN).empty ≠ []
    rw [← List.length_pos_iff]
    simp only [BuffersQueue.adjustEmptyBuffers, BuffersQueue.destroyEmpty_eq,
      BuffersQueue.createEmpty_eq _ _ _ _ _ le_rfl, List.length_append, List.length_replicate,
      hempty, List.length_nil, hnone, List.drop_nil]
    rw [Nat.mod_eq_of_lt (by omega : q.policy.minEmpty + readyN < sizeTop)]
    omega

/-- No buffer is left for the reader: its loop ends at once. -/
theorem Governed.releases_looping {q : BuffersQueue E} {pr : Producer} {pu de : List E}
    {n readyN : Nat} (h : Governed capacity ⟨q, pr, .looping n readyN, pu, de⟩)
    (hnone : q.allocated = 0) : Releases ⟨q, pr, .looping n readyN, pu, de⟩ := by
  have howned := h.owned.owned
  dsimp only at howned
  have hempty : q.empty = [] := List.length_eq_zero_iff.mp (by omega)
  have hready : q.ready = [] := List.length_eq_zero_iff.mp (by omega)
  have hstop : step ⟨q, pr, .looping n readyN, pu, de⟩ .consume =
      some ⟨q, pr, .finishing readyN, pu, de⟩ := by
    cases n with
    | zero => rfl
    | succ n => simp only [step, BuffersQueue.consume, hready]
  exact .next rfl hstop ((h.moves (step_moves hstop)).releases_finishing hnone hempty)

/-- **A waiting producer is released**, under any policy. -/
theorem Governed.releases (h : Governed capacity s) (hwakes : s.Wakes)
    (hwaiting : s.producer = .waiting) : Releases s := by
  by_cases hpos : 1 ≤ s.queue.allocated
  · exact h.owned.releases hpos hwakes hwaiting
  · obtain ⟨q, pr, reader, pu, de⟩ := s
    have hnone : q.allocated = 0 := by
      dsimp only at hpos
      omega
    have howned := h.owned.owned
    dsimp only at howned
    cases reader with
    | reading n readyN b =>
      simp only [Reader.held, Option.toList_some, List.length_cons, List.length_nil] at howned
      omega
    | recycling n readyN b =>
      simp only [Reader.held, Option.toList_some, List.length_cons, List.length_nil] at howned
      omega
    | looping n readyN => exact h.releases_looping hnone
    | idle => exact .next (a := .startReading) rfl rfl ((h.moves .startReading).releases_looping hnone)
    | notifying n readyN => exact .next (a := .notify) rfl rfl ((h.moves .notify).releases_looping hnone)
    | finishing readyN =>
      exact h.releases_finishing hnone (List.length_eq_zero_iff.mp (by omega))

/-- Steps that strand nobody. -/
def policyAllowed (s : System E) : PolicyAction E → Prop
  | .on _ => True
  | .setBufferingPolicy policy => ¬ s.Strands policy

instance (a : PolicyAction E) : Decidable (s.policyAllowed a) := by
  cases a <;> unfold policyAllowed <;> infer_instance

/-- The runs of the result on signals. -/
def allowedPolicyStep (s : System E) (a : PolicyAction E) : Option (System E) :=
  if s.policyAllowed a then s.policyStep a else none

/-- The step lemma: the counts rest on the bounds of any run, the signals on the condition. -/
theorem allowedPolicyStep_sound (hcapacity : 3 * capacity + 1 < sizeTop) (s : System E)
    (a : PolicyAction E) (s' : System E) (h : Governed capacity s ∧ s.Wakes)
    (hstep : s.allowedPolicyStep a = some s') : Governed capacity s' ∧ s'.Wakes := by
  unfold allowedPolicyStep at hstep
  split at hstep
  · next hallowed =>
    refine ⟨policyStep_governed hcapacity s a s' h.1 hstep, ?_⟩
    cases a with
    -- a party's sub-step signals when it has to, whatever the policy
    | on a => exact moves_wakes h.2 (step_moves hstep)
    | setBufferingPolicy policy =>
      simp only [policyStep, h.1.owned.capacity_eq] at hstep
      split at hstep
      · next hpolicy =>
        exact Option.some.inj hstep ▸
          (h.1.owned.changed_wakes hcapacity hpolicy h.2).mpr hallowed
      · exact absurd hstep (by simp)
  · exact absurd hstep (by simp)

/-- **No producer is stranded** in a run whose changes of policy make no first empty buffer for a
    producer that waits untold: one that waits while there is an empty buffer is told or about to
    be, and the reader's own steps release any that waits.  In the states of such a run, only a
    change of policy of that kind strands it. -/
theorem policy_change_wakes (p : BufferingPolicy) (actions : List (PolicyAction E)) (s : System E)
    (hrun : Lib.run allowedPolicyStep (new p) actions = some s) :
    (s.producer = .waiting → s.queue.empty ≠ [] →
        s.queue.signalled = true ∨ ∃ n readyN, s.reader = .notifying n readyN) ∧
      (s.producer = .waiting → Releases s) ∧
      ∀ policy : BufferingPolicy, policy.maxBuffers ≤ s.queue.capacity →
        ((s.changed policy).Wakes ↔ ¬ s.Strands policy) := by
  obtain ⟨h, hwakes⟩ := Lib.run_invariant (allowedPolicyStep_sound p.maxBuffers_lt) actions (new p) s
    ⟨new_governed p, (new_accounted p).wakes⟩ hrun
  refine ⟨hwakes, h.releases hwakes, fun policy hpolicy => ?_⟩
  rw [h.owned.capacity_eq] at hpolicy
  exact h.owned.changed_wakes p.maxBuffers_lt hpolicy hwakes

/-- A policy for up to four buffers. -/
def upToFour (maxEmpty minEmpty : Nat) (h : 0 < maxEmpty ∧ minEmpty < 4 ∧ minEmpty ≤ maxEmpty ∧
    maxEmpty ≤ 2 * 4 ∧ 3 * 4 + 1 < sizeTop) : BufferingPolicy :=
  ⟨4, maxEmpty, minEmpty, Nat.succ_pos 3, h.1, h.2.1, h.2.2.1, h.2.2.2.1, h.2.2.2.2⟩

/-- One buffer, or one more kept empty. -/
def lazyBuffers : BufferingPolicy := upToFour 1 0 (by decide)

def eagerBuffers : BufferingPolicy := upToFour 2 1 (by decide)

/-- The policy is changed while the reader holds the signal back. -/
theorem policy_change_wakes_notified :
    ∃ s : System Nat, Lib.run allowedPolicyStep (new lazyBuffers)
        [.on .flush, .on .handOff, .on .take, .on .startReading, .on .consume, .on .deliver,
          .on .recycle, .setBufferingPolicy eagerBuffers] = some s ∧
      s.producer = .waiting ∧ Releases s := by
  refine ⟨_, rfl, rfl, ?_⟩
  exact (policy_change_wakes lazyBuffers [.on .flush, .on .handOff, .on .take, .on .startReading,
    .on .consume, .on .deliver, .on .recycle, .setBufferingPolicy eagerBuffers] _ rfl).2.1 rfl

/-- Waiting next to an empty buffer, with no signal to come. -/
structure Stranded (s : System E) : Prop where
  waiting : s.producer = .waiting
  empty : s.queue.empty ≠ []
  silent : s.queue.signalled = false
  reader : ∀ n readyN, s.reader ≠ .notifying n readyN

/-- **For good**: whatever the reader does, it finds the stack as it is and tells nobody. -/
theorem Stranded.moves (h : Stranded s) (howned : Owned capacity s) {a : Action E} {s' : System E}
    (ha : a.ofReader = true) (hmove : Moves s a s') : Stranded s' := by
  obtain ⟨hwaiting, hempty, hsilent, hreader⟩ := h
  cases hmove with
  | startReading => exact ⟨hwaiting, hempty, hsilent, by rintro _ _ ⟨⟩⟩
  | stop hstop => exact ⟨hwaiting, hempty, hsilent, by rintro _ _ ⟨⟩⟩
  | consume hr => exact ⟨hwaiting, hempty, hsilent, by rintro _ _ ⟨⟩⟩
  | deliver => exact ⟨hwaiting, hempty, hsilent, by rintro _ _ ⟨⟩⟩
  | @recycle q pr _ _ n readyN b =>
    have hstack : q.empty.isEmpty = false := by simpa using hempty
    refine ⟨hwaiting, List.cons_ne_nil b q.empty, hsilent, ?_⟩
    rw [hstack]
    rintro _ _ ⟨⟩
  | notify => exact absurd rfl (hreader _ _)
  | @finish q pr pu de readyN =>
    obtain ⟨-, -, hkeeps, -⟩ := howned.adjusted
    refine ⟨hwaiting, hkeeps hempty, ?_, by rintro _ _ ⟨⟩⟩
    have hstack : q.empty.isEmpty = false := by simpa using hempty
    replace hsilent : q.signalled = false := hsilent
    simp [BuffersQueue.finish, hsilent, hstack]
  | _ => exact absurd ha Bool.false_ne_true

theorem Stranded.not_releases (h : Stranded s) (howned : Owned capacity s) : ¬ Releases s := by
  rintro ⟨more, s', hall, hrun, hset, -⟩
  have hstuck := Lib.run_invariant_on (P := fun s => Stranded s ∧ Owned capacity s)
    (Q := fun a => a.ofReader = true)
    (fun s a s' ha hs hstep => ⟨hs.1.moves hs.2 ha (step_moves hstep), moves_owned hs.2 (step_moves hstep)⟩)
    more s s' hall ⟨h, howned⟩ hrun
  exact absurd (hstuck.1.silent.symm.trans hset) (by decide)

/-- The only buffer is ready, the producer waits, and a policy with more empty buffers is set. -/
def exhausted : List (PolicyAction Nat) :=
  [.on .flush, .on .handOff, .on .take, .setBufferingPolicy eagerBuffers]

/-- The producer waits next to an empty buffer, and no read will ever release it. -/
theorem policy_change_strands :
    ∃ s, Lib.run policyStep (new lazyBuffers) exhausted = some s ∧ s.producer = .waiting ∧
      s.queue.empty ≠ [] ∧ s.queue.signalled = false ∧
      (∀ n readyN, s.reader ≠ .notifying n readyN) ∧ s.queue.ready ≠ [] ∧ ¬ Releases s := by
  have hrun : ∃ s, Lib.run policyStep (new lazyBuffers) exhausted = some s ∧ Stranded s ∧
      s.queue.ready ≠ [] :=
    ⟨_, rfl, ⟨rfl, List.cons_ne_nil _ _, rfl, by rintro _ _ ⟨⟩⟩, List.cons_ne_nil _ _⟩
  obtain ⟨s, hrun, hstranded, hready⟩ := hrun
  have h := Lib.run_invariant (policyStep_governed lazyBuffers.maxBuffers_lt) exhausted
    (new lazyBuffers) s (new_governed lazyBuffers) hrun
  exact ⟨s, hrun, hstranded.waiting, hstranded.empty, hstranded.silent, hstranded.reader, hready,
    hstranded.not_releases h.owned⟩

end System

end MicroProfiler
