/-
  `collector/shadow_stack.h`: replaying a trace into a call-graph statistics map.

  1. **The code** — `StackRecord`, `resetStack`, `enter`, `exit`, `update`, as the header has them.
     The stack is a list with `back()` first; its last element is the root record the constructor
     pushes, whose fields the source leaves uninitialised (here: an arbitrary `bottom`).  Pointers
     into the statistics map are paths (`CallGraph`); `none` is the undefined behaviour of popping
     the root record.

  2. **The refinement** (`step_refines`, `update_refines`) — on a trace that has a call-tree
     reading, the code never underflows, its per-frame accumulators hold what the tree says
     (`Frames`: children's time as observed, total overhead per descendant), its pointers point
     where the tree says (`Pointed`), and the map it leaves is a pure function of tree and trace
     (`replay`, `replayBatch`).  `Frames` mentions no pointer and no map, so it survives both a
     batch boundary and a cleared map; `resetStack` rebuilds `Pointed` from it.

  Everything said later about the statistics argues about `applyRecord` and `touchOpened` only,
  never about the stack.
-/
import MicroProfiler.Collector.CallGraph
import MicroProfiler.Collector.CallTree
import Mathlib.Tactic.Ring

namespace MicroProfiler

variable {K : Type} [DecidableEq K]

/-- `shadow_stack<KeyT>::stack_record`. -/
structure StackRecord (K : Type) where
  callee : K
  enterAt : Int
  childrenTimeObserved : Int
  childrenOverhead : Int
  /-- Pointer to the node's statistics (the empty path is the local `root` of `update`). -/
  function : List K
  /-- Pointer to the node's callees map (the empty path is the whole statistics map). -/
  callees : List K
deriving DecidableEq, Repr

/-- `shadow_stack<KeyT>`: the two overheads and the stack, `back()` first. -/
structure ShadowStack (K : Type) where
  innerOverhead : Int
  totalOverhead : Int
  stack : List (StackRecord K)
deriving DecidableEq, Repr

namespace ShadowStack

/-- The constructor pushes one record and does not initialise it. -/
def new (o : Overhead) (bottom : StackRecord K) : ShadowStack K :=
  ⟨o.inner, o.inner + o.outer, [bottom]⟩

/-- What `update` works on: the stack, and the local `root` with the statistics map under it. -/
abbrev State (K : Type) := List (StackRecord K) × CallGraphNode K

/-- `stack_record::enter`. -/
def enter (timestamp : Int) (callee : K) : State K → Option (State K)
  | ([], _) => none
  | (previous :: below, n) =>
      let current : StackRecord K :=
        { callee := callee
          enterAt := timestamp
          childrenTimeObserved := 0
          childrenOverhead := 0
          function := previous.callees ++ [callee]
          callees := previous.callees ++ [callee] }
      -- `(*previous.callees)[callee]` creates the node of a callee that is new
      some (current :: previous :: below, n.touch previous.callees callee)

/-- `stack_record::exit`.  With fewer than two records, `back()` after the pop is undefined. -/
def exit (inner total timestamp : Int) : State K → Option (State K)
  | (current :: parent :: below, n) =>
      -- the frame is popped before the parent is taken: `back()` is the parent from here on
      let inclusiveTimeObserved := (timestamp - current.enterAt) - inner
      let childrenOverhead := current.childrenOverhead
      let inclusiveTime := inclusiveTimeObserved - childrenOverhead
      let exclusiveTime := inclusiveTimeObserved - current.childrenTimeObserved
      let parent' : StackRecord K :=
        { parent with
          childrenTimeObserved := parent.childrenTimeObserved + (inclusiveTimeObserved + total)
          childrenOverhead := parent.childrenOverhead + (total + childrenOverhead) }
      some (parent' :: below, n.account current.function inclusiveTime exclusiveTime)
  | _ => none

/-- `stack_record::reset_stack`: from the root record up, point each record into `n` again,
    creating the nodes that are not there. -/
def resetStack : List (StackRecord K) → CallGraphNode K → State K
  | [], n => ([], n)
  | [bottom], n => ([{ bottom with function := [], callees := [] }], n)
  | i :: previous :: below, n =>
      match resetStack (previous :: below) n with
      | ([], n') => ([], n')
      | (previous' :: below', n') =>
          -- an open call may have no node in a map that was cleared since: touching it makes one
          let p := previous'.callees ++ [i.callee]
          ({ i with function := p, callees := p } :: previous' :: below',
            n'.touch previous'.callees i.callee)

/-- One iteration of the loop in `update`. -/
def step (inner total : Int) (s : State K) (r : CallRecord K) : Option (State K) :=
  match r.callee with
  | some k => enter r.timestamp k s
  | none => exit inner total r.timestamp s

/-- `shadow_stack::update`. -/
def update (s : ShadowStack K) (trace : List (CallRecord K)) (statistics : NodesMap K) :
    Option (ShadowStack K × NodesMap K) :=
  (Lib.run (step s.innerOverhead s.totalOverhead) (resetStack s.stack ⟨{}, statistics⟩) trace).map
    fun r => ({ s with stack := r.1 }, r.2.callees)

/-- Consecutive `update` calls on one map, one per batch. -/
def updates : ShadowStack K × NodesMap K → List (List (CallRecord K)) →
    Option (ShadowStack K × NodesMap K) :=
  Lib.run fun s batch => s.1.update batch s.2

/-! ## What the records mean to the map -/

/-- The effect of one record on the statistics, as the call tree `t` read so far says. -/
def applyRecord (o : Overhead) (t : CallTree K) (n : CallGraphNode K) (r : CallRecord K) :
    CallGraphNode K :=
  match r.callee, t.opened with
  | some k, opened => n.touch (CallTree.pathOf opened) k
  | none, c :: outer =>
      let call : CompletedCall K := ⟨CallTree.pathOf (c :: outer), c.enter, r.timestamp, c.children⟩
      n.account call.path (call.inclusive o) (call.exclusive o)
  | none, [] => n

/-- Reading one record into the tree and the statistics at once. -/
def replay (o : Overhead) (s : CallTree K × CallGraphNode K) (r : CallRecord K) :
    Option (CallTree K × CallGraphNode K) :=
  (s.1.step r).map fun t' => (t', applyRecord o s.1 s.2 r)

/-- The effect of pointing the stack at a map: every open call's node is there. -/
def touchOpened (n : CallGraphNode K) : List (OpenCall K) → CallGraphNode K
  | [] => n
  | c :: outer => (touchOpened n outer).touch (CallTree.pathOf outer) c.callee

/-- The effect of one `update` call. -/
def replayBatch (o : Overhead) (s : CallTree K × NodesMap K) (trace : List (CallRecord K)) :
    Option (CallTree K × NodesMap K) :=
  (Lib.run (replay o) (s.1, touchOpened ⟨{}, s.2⟩ s.1.opened) trace).map
    fun s' => (s'.1, s'.2.callees)

/-! ## The refinement -/

/-- A record holds its open call's entry, and the accumulated time and overhead of the calls
    finished inside it. -/
structure Holds (o : Overhead) (r : StackRecord K) (c : OpenCall K) : Prop where
  callee : r.callee = c.callee
  enterAt : r.enterAt = c.enter
  time : r.childrenTimeObserved = c.children.directTime o.outer
  overhead : r.childrenOverhead = (o.inner + o.outer) * c.children.count

/-- The stack is a root record plus one record per open call. -/
inductive Frames (o : Overhead) : List (StackRecord K) → List (OpenCall K) → Prop
  | root (bottom : StackRecord K) : Frames o [bottom] []
  | call {r : StackRecord K} {c : OpenCall K} {rs : List (StackRecord K)} {cs : List (OpenCall K)} :
      Holds o r c → Frames o rs cs → Frames o (r :: rs) (c :: cs)

/-- Each record points at the node of its open call. -/
inductive Pointed : List (StackRecord K) → List (OpenCall K) → Prop
  | root {bottom : StackRecord K} : bottom.callees = [] → Pointed [bottom] []
  | call {r : StackRecord K} {c : OpenCall K} {rs : List (StackRecord K)} {cs : List (OpenCall K)} :
      r.function = CallTree.pathOf (c :: cs) → r.callees = CallTree.pathOf (c :: cs) →
      Pointed rs cs → Pointed (r :: rs) (c :: cs)

omit [DecidableEq K] in
theorem Pointed.head {r : StackRecord K} {rs : List (StackRecord K)} {cs : List (OpenCall K)}
    (h : Pointed (r :: rs) cs) : r.callees = CallTree.pathOf cs := by
  cases h with
  | root h => exact h
  | call _ h _ => exact h

omit [DecidableEq K] in
theorem Frames.ne_nil {o : Overhead} {rs : List (StackRecord K)} {cs : List (OpenCall K)}
    (h : Frames o rs cs) : ∃ r below, rs = r :: below := by
  cases h with
  | root bottom => exact ⟨bottom, [], rfl⟩
  | call _ _ => exact ⟨_, _, rfl⟩

omit [DecidableEq K] in
theorem Frames.length {o : Overhead} {rs : List (StackRecord K)} {cs : List (OpenCall K)}
    (h : Frames o rs cs) : rs.length = cs.length + 1 := by
  induction h with
  | root => rfl
  | call _ _ ih => simp [ih]

omit [DecidableEq K] in
/-- The innermost record's accumulators take a finished child in: this is the arithmetic heart of
    `exit`, where `total` overhead and observed time are propagated one level up. -/
theorem Holds.hang {o : Overhead} {r : StackRecord K} {c : OpenCall K} (h : Holds o r c) (k : K)
    (enter exit : Int) (children : Calls K) :
    Holds o
      { r with
        childrenTimeObserved :=
          r.childrenTimeObserved + ((exit - enter - o.inner) + (o.inner + o.outer))
        childrenOverhead :=
          r.childrenOverhead + ((o.inner + o.outer) + (o.inner + o.outer) * children.count) }
      { c with children := .cons k enter exit children c.children } where
  callee := h.callee
  enterAt := h.enterAt
  time := by
    show r.childrenTimeObserved + _ = (exit - enter + o.outer) + c.children.directTime o.outer
    rw [h.time]
    omega
  overhead := by
    show r.childrenOverhead + _ = (o.inner + o.outer) * ((1 + children.count + c.children.count : ℕ) : ℤ)
    rw [h.overhead]
    push_cast
    ring

/-- `reset_stack` keeps the accumulators, restores the pointers and touches the open paths. -/
theorem resetStack_refines {o : Overhead} (n : CallGraphNode K) {rs : List (StackRecord K)}
    {cs : List (OpenCall K)} (h : Frames o rs cs) :
    ∃ rs', resetStack rs n = (rs', touchOpened n cs) ∧ Frames o rs' cs ∧ Pointed rs' cs := by
  induction h with
  | root bottom => exact ⟨_, rfl, .root _, .root rfl⟩
  -- the records below are pointed already: the path of this one goes on from theirs
  | @call r c rs cs hr hrest ih =>
    obtain ⟨rs', hreset, hframes, hpointed⟩ := ih
    obtain ⟨previous, below, rfl⟩ := hrest.ne_nil
    obtain ⟨previous', below', rfl⟩ := hframes.ne_nil
    have hpath : previous'.callees ++ [r.callee] = CallTree.pathOf (c :: cs) := by
      rw [hpointed.head, hr.callee]; rfl
    refine ⟨{ r with function := previous'.callees ++ [r.callee]
                     callees := previous'.callees ++ [r.callee] } :: previous' :: below',
      ?_, ?_, ?_⟩
    · simp only [resetStack, hreset, touchOpened, hpointed.head, hr.callee]
    · exact .call ⟨hr.callee, hr.enterAt, hr.time, hr.overhead⟩ hframes
    · exact .call hpath hpath hpointed

/-- The code's state against the replay's: the same map, the stack in step and pointed. -/
structure Follows (o : Overhead) (s : State K) (a : CallTree K × CallGraphNode K) : Prop where
  map : s.2 = a.2
  frames : Frames o s.1 a.1.opened
  pointed : Pointed s.1 a.1.opened

/-- **One record**: where the tree can read on, the code does, stays in step with it, and does to
    the map what `applyRecord` says. -/
theorem step_refines {o : Overhead} (s : State K) (a : CallTree K × CallGraphNode K)
    (r : CallRecord K) (a' : CallTree K × CallGraphNode K) (h : Follows o s a)
    (ha : replay o a r = some a') :
    ∃ s', step o.inner (o.inner + o.outer) s r = some s' ∧ Follows o s' a' := by
  obtain ⟨rs, n⟩ := s
  obtain ⟨t, n'⟩ := a
  obtain ⟨hmap, hf, hp⟩ := h
  obtain rfl : n = n' := hmap
  obtain ⟨t', ht, rfl⟩ := Option.map_eq_some_iff.mp ha
  rcases CallTree.step_cases ht with ⟨k, hk, rfl⟩ | ⟨c, outer, hk, ho, rfl⟩
  · -- enter: a fresh record whose accumulators are those of an empty forest
    obtain ⟨previous, below, rfl⟩ := hf.ne_nil
    have hhead := hp.head
    refine ⟨_, by simp only [step, hk, enter, hhead]; rfl, ?_, ?_, ?_⟩
    · simp only [applyRecord, hk]
    · exact .call ⟨rfl, rfl, rfl, by simp [Calls.count]⟩ hf
    · exact .call rfl rfl hp
  · -- exit: the innermost record is popped, the next one takes the finished call in
    replace ho : t.opened = c :: outer := ho
    replace hf : Frames o rs (c :: outer) := ho ▸ hf
    replace hp : Pointed rs (c :: outer) := ho ▸ hp
    cases hf with
    | @call current _ below _ hcur hbelow =>
      cases hp with
      | call hfun hcal hptr =>
        obtain ⟨parent, rest, rfl⟩ := hbelow.ne_nil
        have hstep : step o.inner (o.inner + o.outer) (current :: parent :: rest, n) r =
            some ({ parent with
                    childrenTimeObserved := parent.childrenTimeObserved
                      + ((r.timestamp - c.enter - o.inner) + (o.inner + o.outer))
                    childrenOverhead := parent.childrenOverhead + ((o.inner + o.outer)
                      + (o.inner + o.outer) * c.children.count) } :: rest,
              applyRecord o t n r) := by
          simp only [step, hk, exit, applyRecord, ho, hfun, hcur.enterAt, hcur.overhead,
            hcur.time, CompletedCall.inclusive, CompletedCall.exclusive]
        refine ⟨_, hstep, rfl, ?_, ?_⟩
        · cases hbelow with
          | root => exact .root _
          | call hpar hrest => exact .call (hpar.hang _ _ _ _) hrest
        · cases hptr with
          | root h => exact .root h
          | call h₁ h₂ h₃ => exact .call h₁ h₂ h₃

/-- A shadow stack in step with a call tree, whatever map it was last pointed at. -/
structure InStep (o : Overhead) (s : ShadowStack K) (t : CallTree K) : Prop where
  inner : s.innerOverhead = o.inner
  total : s.totalOverhead = o.inner + o.outer
  frames : Frames o s.stack t.opened

omit [DecidableEq K] in
theorem new_inStep (o : Overhead) (bottom : StackRecord K) :
    InStep o (new o bottom) CallTree.empty := ⟨rfl, rfl, .root bottom⟩

/-- **`update` refines the replay of its batch**: it returns, stays in step, and leaves the
    replayed map. -/
theorem update_refines {o : Overhead} {s : ShadowStack K} {t t' : CallTree K} {m m' : NodesMap K}
    {trace : List (CallRecord K)} (hs : InStep o s t)
    (ht : replayBatch o (t, m) trace = some (t', m')) :
    ∃ s', s.update trace m = some (s', m') ∧ InStep o s' t' := by
  obtain ⟨rs, hreset, hf, hp⟩ := resetStack_refines ⟨{}, m⟩ hs.frames
  obtain ⟨⟨t₁, n₁⟩, hrun, heq⟩ := Option.map_eq_some_iff.mp ht
  obtain ⟨rfl, rfl⟩ : t₁ = t' ∧ n₁.callees = m' := by simpa using heq
  obtain ⟨⟨rs', n'⟩, hrun', hfol⟩ := Lib.run_simulates step_refines trace
    (rs, touchOpened ⟨{}, m⟩ t.opened) _ _ ⟨rfl, hf, hp⟩ hrun
  obtain rfl : n' = n₁ := hfol.map
  refine ⟨{ s with stack := rs' }, ?_, ⟨hs.inner, hs.total, hfol.frames⟩⟩
  rw [update, hs.inner, hs.total, hreset, hrun']
  rfl

/-- The replay reads what the tree reads. -/
theorem exists_replay (o : Overhead) (trace : List (CallRecord K)) (t t' : CallTree K)
    (n : CallGraphNode K) (ht : Lib.run CallTree.step t trace = some t') :
    ∃ n', Lib.run (replay o) (t, n) trace = some (t', n') := by
  have hstep : ∀ (s : CallTree K × CallGraphNode K) (t : CallTree K) r t', s.1 = t →
      t.step r = some t' → ∃ s', replay o s r = some s' ∧ s'.1 = t' := by
    rintro ⟨t, n⟩ _ r t₁ rfl ht₁
    exact ⟨_, by rw [replay, ht₁]; rfl, rfl⟩
  obtain ⟨⟨t₁, n₁⟩, hrun, rfl⟩ := Lib.run_simulates hstep trace (t, n) t t' rfl ht
  exact ⟨n₁, hrun⟩

theorem exists_replayBatch (o : Overhead) {t t' : CallTree K} (m : NodesMap K)
    {trace : List (CallRecord K)} (ht : Lib.run CallTree.step t trace = some t') :
    ∃ m', replayBatch o (t, m) trace = some (t', m') := by
  obtain ⟨n', hn'⟩ := exists_replay o trace t t' (touchOpened ⟨{}, m⟩ t.opened) ht
  exact ⟨n'.callees, by rw [replayBatch, hn']; rfl⟩

/-- **Consecutive `update` calls refine the replay of their batches**, and exist whenever the
    joined trace has a reading: the tree drives the replay, the replay drives the code. -/
theorem updates_refine (o : Overhead) (bottom : StackRecord K)
    (batches : List (List (CallRecord K))) {t : CallTree K}
    (ht : CallTree.read batches.flatten = some t) :
    ∃ s m, updates (new o bottom, .nil) batches = some (s, m) ∧
      Lib.run (replayBatch o) (CallTree.empty, .nil) batches = some (t, m) := by
  rw [CallTree.read, ← Lib.run_flatten] at ht
  have hreplays : ∀ (s : CallTree K × NodesMap K) (t : CallTree K) trace t', s.1 = t →
      Lib.run CallTree.step t trace = some t' → ∃ s', replayBatch o s trace = some s' ∧ s'.1 = t' := by
    rintro ⟨t, m⟩ _ trace t₁ rfl ht₁
    obtain ⟨m', hm'⟩ := exists_replayBatch o m ht₁
    exact ⟨_, hm', rfl⟩
  have hupdates : ∀ (s : ShadowStack K × NodesMap K) (a : CallTree K × NodesMap K) trace a',
      (s.2 = a.2 ∧ InStep o s.1 a.1) → replayBatch o a trace = some a' →
      ∃ s', s.1.update trace s.2 = some s' ∧ (s'.2 = a'.2 ∧ InStep o s'.1 a'.1) := by
    rintro ⟨s, m⟩ ⟨t, _⟩ trace ⟨t', m'⟩ ⟨rfl, hs⟩ ha
    obtain ⟨s', hs', hin⟩ := update_refines hs ha
    exact ⟨_, hs', rfl, hin⟩
  obtain ⟨⟨t₁, m⟩, hreplay, rfl⟩ :=
    Lib.run_simulates hreplays batches (CallTree.empty, .nil) _ t rfl ht
  obtain ⟨⟨s, m'⟩, hcode, hmap, hstep⟩ := Lib.run_simulates hupdates batches
    (new o bottom, .nil) _ _ ⟨rfl, new_inStep o bottom⟩ hreplay
  obtain rfl : m' = m := hmap
  exact ⟨s, m', hcode, hreplay⟩

end ShadowStack

end MicroProfiler
