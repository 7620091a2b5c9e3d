/-
  `reqm/multiplexing_request.h`: many requests for one key share one underlying request.

  1. **The code** — `MultiplexingRequest` is the class, `destroyInner`, `exitInvocation` and
     `destroyIfEmpty` its private members (`none`: it erased itself from the map that owns it).
     A list node keeps its identity (`Node.id`): a handle is the node it was given for.

  2. **Runs** — `invoke` is taken apart into `MxAction.invoke`, one `turn` for each iteration of its
     loop and `finish` (or `throw`, when a callback threw), so that what a callback does — creating
     and releasing requests, for its own key or others — stands between two turns.  The handles
     that are alive, who took part in an invocation and what happened at each turn are recorded
     next to the code's own state, never read by it.

  3. **The INVARIANT** (`KeyOk`) — the nodes that are not blank are the live handles, in order.

  4. **Delivery and lifetime** (`delivery_and_lifetime`).
-/
import MicroProfiler.Lib.Keys
import MicroProfiler.Lib.Runs
import Mathlib.Logic.Function.Basic

namespace MicroProfiler

variable {K C U : Type} [DecidableEq K]

/-- A node of `_callbacks`; `none` is the empty callback a release leaves behind. -/
structure Node (C : Type) where
  id : Nat
  callback : Option C

/-- `class multiplexing_request`: the callbacks, the one underlying request, and what is known of an
    invocation. -/
structure MultiplexingRequest (C U : Type) where
  /-- `_callbacks` -/
  callbacks : List (Node C)
  /-- `_underlying`, the slot that the first caller fills -/
  underlying : Option U
  /-- `_in_progress` -/
  inProgress : Bool
  /-- `_require_cleanup` -/
  requireCleanup : Bool

namespace MultiplexingRequest

/-- Made for a key that is not in the map. -/
def new : MultiplexingRequest C U := ⟨[], none, false, false⟩

/-- `create`, on what the map has for the key: the request, and whether the caller is given the
    slot of the underlying request. -/
def create (found : Option (MultiplexingRequest C U)) (inner : Nat) (callback : C) :
    MultiplexingRequest C U × Bool :=
  -- the slot goes to whoever finds the list empty, which a request in the map never is
  let mx := found.getD new
  ({ mx with callbacks := mx.callbacks ++ [⟨inner, some callback⟩] }, mx.callbacks.isEmpty)

/-- `destroy_if_empty`: a request without callbacks erases itself. -/
def destroyIfEmpty (mx : MultiplexingRequest C U) : Option (MultiplexingRequest C U) :=
  if mx.callbacks.isEmpty then none else some mx

/-- `destroy_inner`. -/
def destroyInner (mx : MultiplexingRequest C U) (inner : Nat) : Option (MultiplexingRequest C U) :=
  -- the list is being walked: the entry is blanked, and swept when the walk is over
  if mx.inProgress then
    some { mx with
      callbacks := mx.callbacks.map fun n => if n.id = inner then ⟨n.id, none⟩ else n
      requireCleanup := true }
  else destroyIfEmpty { mx with callbacks := mx.callbacks.filter fun n => n.id ≠ inner }

/-- `enter_invocation`: from here on entries are blanked, not erased. -/
def enterInvocation (mx : MultiplexingRequest C U) : MultiplexingRequest C U :=
  { mx with inProgress := true }

/-- `exit_invocation`: what was blanked meanwhile is swept. -/
def exitInvocation (mx : MultiplexingRequest C U) : Option (MultiplexingRequest C U) :=
  destroyIfEmpty { mx with
    callbacks := if mx.requireCleanup then mx.callbacks.filter fun n => n.callback.isSome
      else mx.callbacks
    requireCleanup := false
    inProgress := false }

end MultiplexingRequest

/-- One iteration of the loop of `invoke`: was the handle alive, and was the callback run? -/
structure Turn where
  /-- whose turn it was -/
  node : Nat
  /-- by the handles, -/
  alive : Bool
  /-- and by the code -/
  ran : Bool
deriving DecidableEq, Repr

/-- An invocation: the handles that were alive when it began and those created since, and its
    turns so far. -/
structure Invocation where
  participants : List Nat
  turns : List Turn
deriving DecidableEq, Repr

/-- The map of requests, and who holds what.  `handles`, `invocations`, `released` and `finished`
    are what is recorded for the proofs. -/
structure Multiplexed (K C U : Type) where
  /-- the map, which all its requests know -/
  requests : K → Option (MultiplexingRequest C U)
  /-- who has been given a handle and has not released it -/
  handles : K → List Nat
  /-- what is under way -/
  invocations : K → Option Invocation
  /-- a name for the next node -/
  nextNode : Nat
  /-- the underlying requests that went with their keys -/
  released : List (K × U)
  /-- the invocations that came to their end -/
  finished : List (K × Invocation)

/-- What callers and the owner of the map may do, and what an invocation consists of. -/
inductive MxAction (K C U : Type)
  /-- `create`: a request is made, or joined. -/
  | create (key : K) (callback : C)
  /-- The caller puts its request into the slot it was given. -/
  | fill (key : K) (underlying : U)
  /-- A handle is destroyed. -/
  | release (key : K) (handle : Nat)
  /-- The walk over the callbacks begins, -/
  | invoke (key : K)
  /-- goes on by one callback, -/
  | turn (key : K)
  /-- and ends; -/
  | finish (key : K)
  /-- or a callback throws, and the stack is unwound. -/
  | throw (key : K)

namespace Multiplexed

def new : Multiplexed K C U := ⟨fun _ => none, fun _ => [], fun _ => none, 0, [], []⟩

/-- What became of a request: it stays in the map, or leaves it and takes its underlying request
    with it. -/
def settle (s : Multiplexed K C U) (key : K) (mx : MultiplexingRequest C U) :
    Option (MultiplexingRequest C U) → Multiplexed K C U
  | some mx' => { s with requests := Function.update s.requests key (some mx') }
  | none =>
      { s with
        requests := Function.update s.requests key none
        released := s.released ++ mx.underlying.toList.map fun u => (key, u) }

/-- `create`, and whether the caller is given the underlying slot. -/
def create (s : Multiplexed K C U) (key : K) (callback : C) : Multiplexed K C U × Bool :=
  let r := MultiplexingRequest.create (s.requests key) s.nextNode callback
  ({ s with
      requests := Function.update s.requests key (some r.1)
      handles := Function.update s.handles key (s.handles key ++ [s.nextNode])
      invocations := Function.update s.invocations key ((s.invocations key).map fun i =>
        { i with participants := i.participants ++ [s.nextNode] })
      nextNode := s.nextNode + 1 }, r.2)

/-- `none`: what nobody may do (a handle that is not alive, a nested invocation), or a dangling
    reference. -/
def step (s : Multiplexed K C U) : MxAction K C U → Option (Multiplexed K C U)
  | .create key callback => some (s.create key callback).1
  | .fill key u =>
      (s.requests key).bind fun mx =>
        if mx.underlying.isSome then none
        else some { s with
          requests := Function.update s.requests key (some { mx with underlying := some u }) }
  | .release key handle =>
      if handle ∈ s.handles key then
        (s.requests key).map fun mx =>
          settle { s with
            handles := Function.update s.handles key ((s.handles key).filter (· ≠ handle)) }
            key mx (mx.destroyInner handle)
      else none
  | .invoke key =>
      (s.requests key).bind fun mx =>
        if mx.inProgress then none
        else some { s with
          requests := Function.update s.requests key (some mx.enterInvocation)
          invocations := Function.update s.invocations key (some ⟨s.handles key, []⟩) }
  | .turn key =>
      (s.requests key).bind fun mx => (s.invocations key).bind fun i =>
        (mx.callbacks[i.turns.length]?).map fun n =>
          { s with invocations := Function.update s.invocations key (some
            { i with turns := i.turns ++ [⟨n.id, n.id ∈ s.handles key, n.callback.isSome⟩] }) }
  | .finish key =>
      (s.requests key).bind fun mx => (s.invocations key).bind fun i =>
        if i.turns.length = mx.callbacks.length then
          some (settle { s with
            invocations := Function.update s.invocations key none
            finished := s.finished ++ [(key, i)] } key mx mx.exitInvocation)
        else none
  | .throw key =>
      (s.requests key).bind fun mx => (s.invocations key).map fun _ =>
        settle { s with invocations := Function.update s.invocations key none } key mx
          mx.exitInvocation

end Multiplexed

/-! ## The nodes of one key, against its live handles -/

/-- The ids of a request's nodes, blank ones included. -/
def MultiplexingRequest.ids (mx : MultiplexingRequest C U) : List Nat := mx.callbacks.map Node.id

/-- The ids of the nodes that are not blank. -/
def MultiplexingRequest.live (mx : MultiplexingRequest C U) : List Nat :=
  (mx.callbacks.filter fun n => n.callback.isSome).map Node.id

/-- Turns that ran the callbacks of the live handles, and no others; this is judged at the turn, so
    a handle released before its turn is not run. -/
def Invocation.Fair (i : Invocation) : Prop := ∀ t ∈ i.turns, t.ran = t.alive

/-- What a request in the map keeps, with the handles and the invocation of its key. -/
structure Kept (mx : MultiplexingRequest C U) (handles : List Nat) (invocation : Option Invocation)
    (nextNode : Nat) : Prop where
  /-- the nodes that are not blank are the live handles -/
  live : mx.live = handles
  /-- a handle is one node, -/
  distinct : mx.ids.Nodup
  /-- and a new node is none of them -/
  issued : ∀ n ∈ mx.callbacks, n.id < nextNode
  /-- a request in the map has nodes, blank ones perhaps -/
  filled : mx.callbacks ≠ []
  /-- it knows whether it is being invoked -/
  flag : mx.inProgress = invocation.isSome
  /-- without the flag nothing is blank -/
  clean : mx.requireCleanup = false → ∀ n ∈ mx.callbacks, n.callback.isSome
  /-- between invocations there is nothing to sweep -/
  outside : invocation = none → mx.requireCleanup = false
  /-- the turns so far are those of the first nodes of the list -/
  inside : ∀ i ∈ invocation, i.participants = mx.ids ∧
    i.turns.map Turn.node = mx.ids.take i.turns.length ∧ i.Fair

/-- The INVARIANT of one key: it is not in the map and nobody has a handle, or it is and `Kept`. -/
inductive KeyOk (nextNode : Nat) : Option (MultiplexingRequest C U) → List Nat →
    Option Invocation → Prop
  | absent : KeyOk nextNode none [] none
  | present {mx : MultiplexingRequest C U} {handles : List Nat} {invocation : Option Invocation}
      (h : Kept mx handles invocation nextNode) : KeyOk nextNode (some mx) handles invocation

/-- Nodes created for other keys make no difference. -/
theorem KeyOk.mono {n n' : Nat} {found : Option (MultiplexingRequest C U)} {handles : List Nat}
    {invocation : Option Invocation} (h : KeyOk n found handles invocation) (hn : n ≤ n') :
    KeyOk n' found handles invocation := by
  cases h with
  | absent => exact .absent
  | present h =>
    exact .present { h with issued := fun x hx => Nat.lt_of_lt_of_le (h.issued x hx) hn }

/-- A request that is found is kept. -/
theorem KeyOk.kept {n : Nat} {mx : MultiplexingRequest C U} {handles : List Nat}
    {invocation : Option Invocation} (h : KeyOk n (some mx) handles invocation) :
    Kept mx handles invocation n := by
  cases h with
  | present h => exact h

/-- At its turn, a node is blank if and only if its handle is gone.  Ids being different, the node
    is the one of its handle. -/
theorem Kept.alive_iff {mx : MultiplexingRequest C U} {handles : List Nat}
    {invocation : Option Invocation} {nextNode : Nat} (h : Kept mx handles invocation nextNode)
    {n : Node C} (hn : n ∈ mx.callbacks) : n.id ∈ handles ↔ n.callback.isSome = true := by
  rw [← h.live, MultiplexingRequest.live, List.mem_map]
  constructor
  · rintro ⟨n', hn', heq⟩
    rw [List.mem_filter] at hn'
    rw [← List.inj_on_of_nodup_map h.distinct hn'.1 hn heq]
    exact hn'.2
  · exact fun hsome => ⟨n, List.mem_filter.mpr ⟨hn, hsome⟩, rfl⟩

/-- **`create`**, for a key with a request.  The node comes last: if the request is being invoked
    its turn is still to come. -/
theorem Kept.create {mx : MultiplexingRequest C U} {handles : List Nat}
    {invocation : Option Invocation} {nextNode : Nat} (h : Kept mx handles invocation nextNode)
    (callback : C) :
    Kept (MultiplexingRequest.create (some mx) nextNode callback).1 (handles ++ [nextNode])
      (invocation.map fun i => { i with participants := i.participants ++ [nextNode] })
      (nextNode + 1) := by
  have hids : (MultiplexingRequest.create (some mx) nextNode callback).1.ids = mx.ids ++ [nextNode] := by
    show List.map _ (mx.callbacks ++ [_]) = _
    rw [List.map_append]
    rfl
  -- the new node comes last, and those that had their turn come first
  have hnew : nextNode ∉ mx.ids := fun hmem => by
    obtain ⟨n, hn, heq⟩ := List.mem_map.mp hmem
    have hlt := h.issued n hn
    omega
  refine ⟨?_, ?_, ?_, ?_, ?_, ?_, ?_, ?_⟩
  · -- one more live handle
    show List.map _ (List.filter _ (mx.callbacks ++ [_])) = _
    rw [List.filter_append, List.map_append, ← h.live]
    rfl
  · rw [hids]
    exact Lib.nodup_append_singleton h.distinct hnew
  · intro n hn
    rcases List.mem_append.mp hn with hn | hn
    · exact Nat.lt_succ_of_lt (h.issued n hn)
    · rw [List.mem_singleton.mp hn]
      exact Nat.lt_succ_self _
  · exact List.append_ne_nil_of_right_ne_nil _ (List.cons_ne_nil _ _)
  · rw [Option.isSome_map]
    exact h.flag
  · intro hclean n hn
    rcases List.mem_append.mp hn with hn | hn
    · exact h.clean hclean n hn
    · rw [List.mem_singleton.mp hn]
      rfl
  · intro hnone
    exact h.outside (Option.map_eq_none_iff.mp hnone)
  · -- an invocation under way: the new node takes part, and nobody's turn moves
    intro i' hi'
    obtain ⟨i, hi, rfl⟩ := Option.map_eq_some_iff.mp hi'
    obtain ⟨hparticipants, hturns, hfair⟩ := h.inside i hi
    refine ⟨?_, ?_, hfair⟩
    · rw [hids, ← hparticipants]
    · have hlength : i.turns.length ≤ mx.ids.length := by
        have := congrArg List.length hturns
        rw [List.length_map, List.length_take] at this
        omega
      rw [hids, List.take_append_of_le_length hlength]
      exact hturns

/-- **`create`**, for a key without one. -/
theorem Kept.createNew (nextNode : Nat) (callback : C) :
    Kept (MultiplexingRequest.create (none : Option (MultiplexingRequest C U)) nextNode callback).1
      [nextNode] none (nextNode + 1) where
  live := rfl
  distinct := List.nodup_singleton _
  issued := fun n hn => by
    rw [List.mem_singleton.mp hn]
    exact Nat.lt_succ_self _
  filled := List.cons_ne_nil _ _
  flag := rfl
  clean := fun _ n hn => by
    rw [List.mem_singleton.mp hn]
    rfl
  outside := fun _ => rfl
  inside := nofun

/-- A request that lost its last node has left the map; any other stays as it is. -/
theorem KeyOk.destroyIfEmpty {mx : MultiplexingRequest C U} {handles : List Nat} {nextNode : Nat}
    (h : mx.callbacks ≠ [] → Kept mx handles none nextNode)
    (hempty : mx.callbacks = [] → handles = []) :
    KeyOk nextNode mx.destroyIfEmpty handles none := by
  unfold MultiplexingRequest.destroyIfEmpty
  split
  · next hnil =>
    rw [hempty (List.isEmpty_iff.mp hnil)]
    exact .absent
  · next hcons => exact .present (h fun hnil => hcons (List.isEmpty_iff.mpr hnil))

/-- Blanking a node takes its id from the live ones.  By recursion on the nodes. -/
theorem live_blank (handle : Nat) : ∀ nodes : List (Node C),
    ((nodes.map fun n => if n.id = handle then ⟨n.id, none⟩ else n).filter
      fun n => n.callback.isSome).map Node.id =
    ((nodes.filter fun n => n.callback.isSome).map Node.id).filter (· ≠ handle)
  | [] => rfl
  | ⟨id, callback⟩ :: nodes => by
    have ih := live_blank handle nodes
    by_cases heq : id = handle
    · cases callback with
      | none => simpa [heq] using ih
      | some c => simpa [heq] using ih
    · cases callback with
      | none => simpa [heq] using ih
      | some c => simpa [heq] using ih

/-- **`destroy_inner`**: blanked during an invocation, erased outside.  Blanking keeps the length of
    the list and so everybody's turn. -/
theorem Kept.destroyInner {mx : MultiplexingRequest C U} {handles : List Nat}
    {invocation : Option Invocation} {nextNode : Nat} (h : Kept mx handles invocation nextNode)
    (handle : Nat) :
    KeyOk nextNode (mx.destroyInner handle) (handles.filter (· ≠ handle)) invocation := by
  unfold MultiplexingRequest.destroyInner
  split
  · -- blanked: the ids stay, and with them everybody's turn
    next hprogress =>
    have hids : (mx.callbacks.map fun n => if n.id = handle then ⟨n.id, none⟩ else n).map Node.id =
        mx.ids := by
      rw [List.map_map, MultiplexingRequest.ids]
      refine List.map_congr_left fun n _ => ?_
      show Node.id (if n.id = handle then (⟨n.id, none⟩ : Node C) else n) = n.id
      split <;> rfl
    refine .present ⟨?_, ?_, ?_, ?_, h.flag, ?_, ?_, ?_⟩
    · rw [← h.live, MultiplexingRequest.live, MultiplexingRequest.live]
      exact live_blank handle mx.callbacks
    · show List.Nodup (List.map _ _)
      rw [hids]
      exact h.distinct
    · intro n' hn'
      obtain ⟨n, hn, rfl⟩ := List.mem_map.mp hn'
      have hlt := h.issued n hn
      split <;> exact hlt
    · intro hnil
      exact h.filled (List.map_eq_nil_iff.mp hnil)
    · nofun
    · intro hnone
      rw [h.flag, hnone] at hprogress
      cases hprogress
    · intro i hi
      show _ = List.map _ _ ∧ _ = List.take _ (List.map _ _) ∧ _
      rw [hids]
      exact h.inside i hi
  · -- erased: nothing was blank, so the nodes left are the handles left
    next hidle =>
    obtain rfl : invocation = none := by
      rw [h.flag] at hidle
      exact Option.not_isSome_iff_eq_none.mp hidle
    have hclean := h.clean (h.outside rfl)
    have hlive : ((mx.callbacks.filter fun n => decide (n.id ≠ handle)).filter
        fun n => n.callback.isSome).map Node.id = handles.filter (· ≠ handle) := by
      rw [← h.live, MultiplexingRequest.live, List.filter_map, List.filter_comm]
      rfl
    refine KeyOk.destroyIfEmpty (fun hne => ⟨hlive, ?_, ?_, hne, ?_, ?_, fun _ => h.outside rfl, nofun⟩) ?_
    · exact h.distinct.sublist (List.filter_sublist.map _)
    · exact fun n hn => h.issued n (List.mem_of_mem_filter hn)
    · exact h.flag
    · exact fun _ n hn => hclean n (List.mem_of_mem_filter hn)
    · intro hnil
      dsimp only at hnil
      rw [← hlive, hnil]
      rfl

/-- **`exit_invocation`** sweeps what was blanked, which leaves the live handles; without any the
    request goes. -/
theorem Kept.exitInvocation {mx : MultiplexingRequest C U} {handles : List Nat}
    {invocation : Option Invocation} {nextNode : Nat} (h : Kept mx handles invocation nextNode) :
    KeyOk nextNode mx.exitInvocation handles none := by
  -- if nothing was blanked the sweep would take nothing
  have hsweep : (if mx.requireCleanup then mx.callbacks.filter fun n => n.callback.isSome
      else mx.callbacks) = mx.callbacks.filter fun n => n.callback.isSome := by
    split
    · rfl
    · next hclean =>
      exact (List.filter_eq_self.mpr (h.clean (Bool.eq_false_iff.mpr hclean))).symm
  -- what is swept is none of the live ones
  have hlive : (mx.callbacks.filter fun n => n.callback.isSome).filter (fun n => n.callback.isSome) =
      mx.callbacks.filter fun n => n.callback.isSome := by
    rw [List.filter_filter]
    simp only [Bool.and_self]
  unfold MultiplexingRequest.exitInvocation
  rw [hsweep]
  refine KeyOk.destroyIfEmpty (fun hne => ⟨?_, ?_, ?_, hne, rfl, ?_, fun _ => rfl, nofun⟩) ?_
  · rw [MultiplexingRequest.live, hlive]
    exact h.live
  · exact h.distinct.sublist (List.filter_sublist.map _)
  · exact fun n hn => h.issued n (List.mem_of_mem_filter hn)
  · exact fun _ n hn => (List.mem_filter.mp hn).2
  · -- without a node there is no handle
    intro hnil
    dsimp only at hnil
    rw [← h.live, MultiplexingRequest.live, hnil]
    rfl

/-- **`enter_invocation`**: nothing is blank outside of invocations, so that all nodes take part. -/
theorem Kept.enterInvocation {mx : MultiplexingRequest C U} {handles : List Nat} {nextNode : Nat}
    (h : Kept mx handles none nextNode) :
    Kept mx.enterInvocation handles (some ⟨handles, []⟩) nextNode := by
  have hclean := h.clean (h.outside rfl)
  refine ⟨h.live, h.distinct, h.issued, h.filled, rfl, fun _ => hclean, fun _ => h.outside rfl, ?_⟩
  intro i hi
  obtain rfl := Option.some.inj hi
  refine ⟨?_, rfl, fun t ht => absurd ht List.not_mem_nil⟩
  show handles = mx.ids
  rw [← h.live, MultiplexingRequest.live, List.filter_eq_self.mpr hclean]
  rfl

/-- **The turn of a node**: its callback runs if and only if its handle is alive.  One node of the
    list after the other has its turn. -/
theorem Kept.turn {mx : MultiplexingRequest C U} {handles : List Nat} {i : Invocation}
    {nextNode : Nat} (h : Kept mx handles (some i) nextNode) {n : Node C}
    (hn : mx.callbacks[i.turns.length]? = some n) :
    Kept mx handles (some
      { i with turns := i.turns ++ [⟨n.id, n.id ∈ handles, n.callback.isSome⟩] }) nextNode := by
  obtain ⟨hparticipants, hturns, hfair⟩ := h.inside i rfl
  have halive := h.alive_iff (List.mem_of_getElem? hn)
  refine { h with outside := fun hnone => absurd hnone (Option.some_ne_none _), inside := ?_ }
  intro i' hi'
  obtain rfl := Option.some.inj hi'
  refine ⟨hparticipants, ?_, fun t ht => ?_⟩
  · -- the turns are those of one node more
    have hnode : mx.ids[i.turns.length]? = some n.id := by
      rw [MultiplexingRequest.ids, List.getElem?_map, hn]
      rfl
    rw [List.map_append, hturns, List.length_append, List.length_singleton, List.take_add_one, hnode]
    rfl
  · -- fair so far, and this one is
    rcases List.mem_append.mp ht with ht | ht
    · exact hfair t ht
    · rw [List.mem_singleton.mp ht]
      show n.callback.isSome = decide (n.id ∈ handles)
      rw [Bool.eq_iff_iff, decide_eq_true_iff]
      exact halive.symm

/-- When every node had its turn, so did every live handle. -/
theorem Kept.all_turned {mx : MultiplexingRequest C U} {handles : List Nat}
    {invocation : Option Invocation} {nextNode : Nat} (h : Kept mx handles invocation nextNode)
    {i : Invocation} (hi : i ∈ invocation) (hlength : i.turns.length = mx.callbacks.length) :
    ∀ handle ∈ handles, handle ∈ i.turns.map Turn.node := by
  intro handle hhandle
  have hids : mx.ids.length = mx.callbacks.length := List.length_map ..
  -- the turns are those of all nodes, the live handles among them
  rw [(h.inside i hi).2.1, hlength, ← hids, List.take_length]
  rw [← h.live] at hhandle
  exact (List.filter_sublist.map _).subset hhandle

/-- A node has one turn: those before it in the list are other nodes. -/
theorem Kept.turn_fresh {mx : MultiplexingRequest C U} {handles : List Nat} {i : Invocation}
    {nextNode : Nat} (h : Kept mx handles (some i) nextNode) {n : Node C}
    (hn : mx.callbacks[i.turns.length]? = some n) : n.id ∉ i.turns.map Turn.node := by
  obtain ⟨_, hturns, _⟩ := h.inside i rfl
  have hids : mx.ids[i.turns.length]? = some n.id := by
    rw [MultiplexingRequest.ids, List.getElem?_map, hn]
    rfl
  -- the nodes that had their turn and this one are different entries of the list
  have hnodup := h.distinct.sublist (List.take_sublist (i.turns.length + 1) mx.ids)
  rw [List.take_add_one, hids, ← hturns, List.nodup_append] at hnodup
  exact fun hmem => hnodup.2.2 n.id hmem n.id (List.mem_singleton.mpr rfl) rfl

/-- A finished invocation gave each participant its turn, once and in order. -/
structure Invocation.Delivered (i : Invocation) : Prop where
  /-- everybody who took part had a turn, -/
  covered : i.turns.map Turn.node = i.participants
  /-- one, -/
  once : i.participants.Nodup
  /-- and was run if the handle was alive then -/
  fair : i.Fair

/-- **The walk is over** when every node had its turn. -/
theorem Kept.delivered {mx : MultiplexingRequest C U} {handles : List Nat} {i : Invocation}
    {nextNode : Nat} (h : Kept mx handles (some i) nextNode)
    (hlength : i.turns.length = mx.callbacks.length) : i.Delivered := by
  obtain ⟨hparticipants, hturns, hfair⟩ := h.inside i rfl
  refine ⟨?_, hparticipants ▸ h.distinct, hfair⟩
  rw [hturns, hparticipants, hlength]
  exact List.take_of_length_le (Nat.le_of_eq (List.length_map ..))

/-! ## Runs -/

namespace Multiplexed

/-- The underlying request a key holds. -/
def held (s : Multiplexed K C U) (key : K) : Option U :=
  (s.requests key).bind MultiplexingRequest.underlying

/-- The INVARIANT of the whole map, and what has been delivered. -/
structure Inv (s : Multiplexed K C U) : Prop where
  /-- every key, by itself -/
  keys : ∀ key, KeyOk s.nextNode (s.requests key) (s.handles key) (s.invocations key)
  /-- every invocation that came to its end -/
  finished : ∀ d ∈ s.finished, d.2.Delivered

omit [DecidableEq K] in
/-- An empty map. -/
theorem new_inv : Inv (new : Multiplexed K C U) := ⟨fun _ => .absent, nofun⟩

omit [DecidableEq K] in
/-- A step at one key leaves the others alone. -/
theorem Inv.stepAt {s s' : Multiplexed K C U} (h : Inv s) (key : K)
    (hnext : s.nextNode ≤ s'.nextNode)
    (hother : ∀ k, k ≠ key → s'.requests k = s.requests k ∧ s'.handles k = s.handles k ∧
      s'.invocations k = s.invocations k)
    (hkey : KeyOk s'.nextNode (s'.requests key) (s'.handles key) (s'.invocations key))
    (hfinished : ∀ d ∈ s'.finished, d.2.Delivered) : Inv s' := by
  refine ⟨fun k => ?_, hfinished⟩
  -- the other keys see that more nodes have been named, at most
  by_cases hk : k = key
  · rw [hk]
    exact hkey
  · obtain ⟨hrequests, hhandles, hinvocations⟩ := hother k hk
    rw [hrequests, hhandles, hinvocations]
    exact (h.keys k).mono hnext

/-- A request that settles stays or goes, -/
@[simp] theorem settle_requests (s : Multiplexed K C U) (key : K) (mx : MultiplexingRequest C U)
    (o : Option (MultiplexingRequest C U)) :
    (s.settle key mx o).requests = Function.update s.requests key o := by
  cases o <;> rfl

/-- and nothing else changes: handles, -/
@[simp] theorem settle_handles (s : Multiplexed K C U) (key : K) (mx : MultiplexingRequest C U)
    (o : Option (MultiplexingRequest C U)) : (s.settle key mx o).handles = s.handles := by
  cases o <;> rfl

/-- invocations, -/
@[simp] theorem settle_invocations (s : Multiplexed K C U) (key : K) (mx : MultiplexingRequest C U)
    (o : Option (MultiplexingRequest C U)) : (s.settle key mx o).invocations = s.invocations := by
  cases o <;> rfl

/-- the names of nodes -/
@[simp] theorem settle_nextNode (s : Multiplexed K C U) (key : K) (mx : MultiplexingRequest C U)
    (o : Option (MultiplexingRequest C U)) : (s.settle key mx o).nextNode = s.nextNode := by
  cases o <;> rfl

/-- and what has been delivered. -/
@[simp] theorem settle_finished (s : Multiplexed K C U) (key : K) (mx : MultiplexingRequest C U)
    (o : Option (MultiplexingRequest C U)) : (s.settle key mx o).finished = s.finished := by
  cases o <;> rfl

/-- **Every step** keeps the invariant, at its own key; the others are not touched. -/
theorem Inv.step {s s' : Multiplexed K C U} (h : Inv s) {a : MxAction K C U}
    (hstep : s.step a = some s') : Inv s' := by
  cases a with
  -- a key that is in the map gets a node, another one a request
  | create key callback =>
    obtain rfl := Option.some.inj hstep
    refine h.stepAt key (Nat.le_succ _) (fun k hk => ?_) ?_ h.finished
    · exact ⟨Function.update_of_ne hk .., Function.update_of_ne hk .., Function.update_of_ne hk ..⟩
    · have hkey := h.keys key
      simp only [create, Function.update_self]
      generalize s.requests key = found at hkey
      generalize s.handles key = handles at hkey
      generalize s.invocations key = invocation at hkey
      cases hkey with
      | absent => exact .present (Kept.createNew s.nextNode callback)
      | present hkept => exact .present (hkept.create callback)
  | fill key u =>
    -- the slot is none of what is kept
    obtain ⟨mx, hmx, hif⟩ := Option.bind_eq_some_iff.mp hstep
    have hkept := (hmx ▸ h.keys key).kept
    split at hif
    · cases hif
    · obtain rfl := Option.some.inj hif
      refine h.stepAt key (Nat.le_refl _) (fun k hk => ⟨Function.update_of_ne hk .., rfl, rfl⟩) ?_
        h.finished
      simp only [Function.update_self]
      exact .present ⟨hkept.live, hkept.distinct, hkept.issued, hkept.filled, hkept.flag,
        hkept.clean, hkept.outside, hkept.inside⟩
  | release key handle =>
    simp only [Multiplexed.step] at hstep
    split at hstep
    · obtain ⟨mx, hmx, rfl⟩ := Option.map_eq_some_iff.mp hstep
      have hkept := (hmx ▸ h.keys key).kept
      refine h.stepAt key (by simp) (fun k hk => ?_) ?_ (by simpa using h.finished)
      · simp [Function.update_of_ne hk]
      · simpa using hkept.destroyInner handle
    · cases hstep
  | invoke key =>
    obtain ⟨mx, hmx, hif⟩ := Option.bind_eq_some_iff.mp hstep
    have hkept := (hmx ▸ h.keys key).kept
    split at hif
    · cases hif
    · next hidle =>
      obtain rfl := Option.some.inj hif
      -- the flag says that there is no invocation
      have hnone : s.invocations key = none := by
        rw [hkept.flag] at hidle
        exact Option.not_isSome_iff_eq_none.mp hidle
      rw [hnone] at hkept
      refine h.stepAt key (Nat.le_refl _) (fun k hk => ?_) ?_ h.finished
      · exact ⟨Function.update_of_ne hk .., rfl, Function.update_of_ne hk ..⟩
      · simp only [Function.update_self]
        exact .present hkept.enterInvocation
  | turn key =>
    obtain ⟨mx, hmx, hbind⟩ := Option.bind_eq_some_iff.mp hstep
    obtain ⟨i, hi, hmap⟩ := Option.bind_eq_some_iff.mp hbind
    obtain ⟨n, hn, rfl⟩ := Option.map_eq_some_iff.mp hmap
    have hkept := (hmx ▸ hi ▸ h.keys key).kept
    refine h.stepAt key (Nat.le_refl _) (fun k hk => ⟨rfl, rfl, Function.update_of_ne hk ..⟩) ?_
      h.finished
    simp only [Function.update_self, hmx]
    exact .present (hkept.turn hn)
  | finish key =>
    obtain ⟨mx, hmx, hbind⟩ := Option.bind_eq_some_iff.mp hstep
    obtain ⟨i, hi, hif⟩ := Option.bind_eq_some_iff.mp hbind
    have hkept := (hmx ▸ hi ▸ h.keys key).kept
    split at hif
    · next hlength =>
      obtain rfl := Option.some.inj hif
      refine h.stepAt key (by simp) (fun k hk => ?_) ?_ ?_
      · simp [Function.update_of_ne hk]
      · simpa using hkept.exitInvocation
      · -- the invocation that ends had all its turns
        intro d hd
        rw [settle_finished] at hd
        rcases List.mem_append.mp hd with hd | hd
        · exact h.finished d hd
        · rw [List.mem_singleton.mp hd]
          exact hkept.delivered hlength
    · cases hif
  | throw key =>
    -- the invocation is given up: it is swept as if it had ended, and not counted as delivered
    obtain ⟨mx, hmx, hmap⟩ := Option.bind_eq_some_iff.mp hstep
    obtain ⟨i, _, rfl⟩ := Option.map_eq_some_iff.mp hmap
    have hkept := (hmx ▸ h.keys key).kept
    refine h.stepAt key (by simp) (fun k hk => ?_) ?_ (by simpa using h.finished)
    · simp [Function.update_of_ne hk]
    · simpa using hkept.exitInvocation

/-! ## What a step does, apart from the requests themselves -/

/-- A slot is filled; the callers of this model need no more of it. -/
theorem step_fill {s s' : Multiplexed K C U} {key : K} {u : U}
    (hstep : s.step (.fill key u) = some s') :
    s'.handles = s.handles ∧ s'.invocations = s.invocations ∧ s'.nextNode = s.nextNode ∧
      s'.released = s.released ∧ s'.held key = some u := by
  obtain ⟨mx, _, hif⟩ := Option.bind_eq_some_iff.mp hstep
  split at hif
  · cases hif
  · obtain rfl := Option.some.inj hif
    refine ⟨rfl, rfl, rfl, rfl, ?_⟩
    show (Function.update s.requests key _ key).bind _ = _
    rw [Function.update_self]
    rfl

/-- A handle goes. -/
theorem step_release {s s' : Multiplexed K C U} {key : K} {handle : Nat}
    (hstep : s.step (.release key handle) = some s') :
    s'.handles = Function.update s.handles key ((s.handles key).filter (· ≠ handle)) ∧
      s'.invocations = s.invocations ∧ s'.nextNode = s.nextNode := by
  simp only [Multiplexed.step] at hstep
  split at hstep
  · obtain ⟨mx, _, rfl⟩ := Option.map_eq_some_iff.mp hstep
    exact ⟨settle_handles .., settle_invocations .., settle_nextNode ..⟩
  · cases hstep

/-- An invocation begins with the handles that are alive. -/
theorem step_invoke {s s' : Multiplexed K C U} {key : K} (hstep : s.step (.invoke key) = some s') :
    s'.handles = s.handles ∧
      s'.invocations = Function.update s.invocations key (some ⟨s.handles key, []⟩) ∧
      s'.nextNode = s.nextNode ∧ s'.released = s.released := by
  obtain ⟨mx, _, hif⟩ := Option.bind_eq_some_iff.mp hstep
  split at hif
  · cases hif
  · obtain rfl := Option.some.inj hif
    exact ⟨rfl, rfl, rfl, rfl⟩

/-- One node has its turn. -/
theorem step_turn {s s' : Multiplexed K C U} {key : K} (hstep : s.step (.turn key) = some s') :
    ∃ mx i n, s.requests key = some mx ∧ s.invocations key = some i ∧
      mx.callbacks[i.turns.length]? = some n ∧
      s' = { s with invocations := Function.update s.invocations key (some
        { i with turns := i.turns ++ [⟨n.id, n.id ∈ s.handles key, n.callback.isSome⟩] }) } := by
  obtain ⟨mx, hmx, hbind⟩ := Option.bind_eq_some_iff.mp hstep
  obtain ⟨i, hi, hmap⟩ := Option.bind_eq_some_iff.mp hbind
  obtain ⟨n, hn, rfl⟩ := Option.map_eq_some_iff.mp hmap
  exact ⟨mx, i, n, hmx, hi, hn, rfl⟩

/-- An invocation ends when all nodes had theirs. -/
theorem step_finish {s s' : Multiplexed K C U} {key : K} (hstep : s.step (.finish key) = some s') :
    ∃ mx i, s.requests key = some mx ∧ s.invocations key = some i ∧
      i.turns.length = mx.callbacks.length ∧ s'.handles = s.handles ∧
      s'.invocations = Function.update s.invocations key none ∧ s'.nextNode = s.nextNode := by
  obtain ⟨mx, hmx, hbind⟩ := Option.bind_eq_some_iff.mp hstep
  obtain ⟨i, hi, hif⟩ := Option.bind_eq_some_iff.mp hbind
  split at hif
  · next hlength =>
    obtain rfl := Option.some.inj hif
    exact ⟨mx, i, hmx, hi, hlength, settle_handles .., settle_invocations .., settle_nextNode ..⟩
  · cases hif

/-! ## The underlying requests -/

/-- A step that lost nothing, or one at whose end a key left the map with what it held.  All steps
    are of one of these kinds (`step_releases`). -/
inductive Releases (s s' : Multiplexed K C U) : Prop
  | nothing (hreleased : s'.released = s.released)
      (hheld : ∀ k u, s.held k = some u → s'.held k = some u)
  | underlying (key : K) (u : U) (hheld : s.held key = some u) (hgone : s'.requests key = none)
      (hreleased : s'.released = s.released ++ [(key, u)])
      (hother : ∀ k, k ≠ key → s'.held k = s.held k)

/-- What is held after one request was replaced. -/
theorem held_update (s : Multiplexed K C U) (key k : K) (o : Option (MultiplexingRequest C U)) :
    (Function.update s.requests key o k).bind MultiplexingRequest.underlying =
      if k = key then o.bind MultiplexingRequest.underlying else s.held k := by
  by_cases hk : k = key
  · rw [if_pos hk, hk, Function.update_self]
  · rw [if_neg hk, Function.update_of_ne hk]
    rfl

/-- What `settle` does when a request stays with its underlying request, or goes: what it held is
    released with it, if it held anything. -/
theorem Releases.settle {s s₁ : Multiplexed K C U} {key : K} {mx : MultiplexingRequest C U}
    (hmx : s.requests key = some mx) (hrequests : s₁.requests = s.requests)
    (hreleased : s₁.released = s.released) {o : Option (MultiplexingRequest C U)}
    (hstays : ∀ mx', o = some mx' → mx'.underlying = mx.underlying) :
    Releases s (s₁.settle key mx o) := by
  have hkey : s.held key = mx.underlying := by rw [held, hmx]; rfl
  have hheld : ∀ k, (s₁.settle key mx o).held k =
      if k = key then o.bind MultiplexingRequest.underlying else s.held k := by
    intro k
    rw [held, settle_requests, hrequests, held_update]
  cases o with
  -- the request stays
  | some mx' =>
    refine .nothing hreleased fun k u hu => ?_
    rw [hheld]
    split
    · next hk => rw [Option.bind_some, hstays mx' rfl, ← hkey, ← hk, hu]
    · exact hu
  -- the request goes
  | none =>
    cases hu : mx.underlying with
    | none =>
      refine .nothing ?_ fun k u hk => ?_
      · show s₁.released ++ mx.underlying.toList.map _ = _
        rw [hu, hreleased]
        exact List.append_nil _
      · rw [hheld]
        split
        · next heq => rw [heq, hkey, hu] at hk; cases hk
        · exact hk
    | some u =>
      refine .underlying key u (hkey.trans hu) ?_ ?_ fun k hk => ?_
      · rw [settle_requests, Function.update_self]
      · show s₁.released ++ mx.underlying.toList.map _ = _
        rw [hu, hreleased]
        rfl
      · rw [hheld, if_neg hk]

/-- A request that stays is as it was. -/
theorem destroyIfEmpty_underlying {mx mx' : MultiplexingRequest C U}
    (h : mx.destroyIfEmpty = some mx') : mx' = mx := by
  unfold MultiplexingRequest.destroyIfEmpty at h
  split at h
  · cases h
  · exact (Option.some.inj h).symm

/-- Whoever stays keeps its underlying request; ... -/
theorem destroyInner_underlying {mx mx' : MultiplexingRequest C U} {handle : Nat}
    (h : mx.destroyInner handle = some mx') : mx'.underlying = mx.underlying := by
  unfold MultiplexingRequest.destroyInner at h
  split at h
  · obtain rfl := Option.some.inj h
    rfl
  · rw [destroyIfEmpty_underlying h]

/-- ... after an invocation too. -/
theorem exitInvocation_underlying {mx mx' : MultiplexingRequest C U}
    (h : mx.exitInvocation = some mx') : mx'.underlying = mx.underlying := by
  rw [destroyIfEmpty_underlying h]

/-- **Every step**, as it looks from the underlying requests. -/
theorem step_releases {s s' : Multiplexed K C U} {a : MxAction K C U}
    (hstep : s.step a = some s') : Releases s s' := by
  cases a with
  -- a request is made, or gets one more node: nothing is released
  | create key callback =>
    obtain rfl := Option.some.inj hstep
    refine .nothing rfl fun k u hu => ?_
    show (Function.update s.requests key _ k).bind _ = _
    rw [held_update]
    split
    · next hk =>
      rw [hk, held] at hu
      rw [Option.bind_some, ← hu]
      cases hfound : s.requests key with
      | none => rw [hfound] at hu; cases hu
      | some mx => rfl
    · exact hu
  -- a slot that is free
  | fill key u' =>
    obtain ⟨mx, hmx, hif⟩ := Option.bind_eq_some_iff.mp hstep
    split at hif
    · cases hif
    · next hempty =>
      obtain rfl := Option.some.inj hif
      refine .nothing rfl fun k u hu => ?_
      show (Function.update s.requests key _ k).bind _ = _
      rw [held_update]
      split
      · next hk =>
        rw [hk, held, hmx, Option.bind_some] at hu
        exact absurd (by rw [hu]; rfl) hempty
      · exact hu
  | release key handle =>
    simp only [Multiplexed.step] at hstep
    split at hstep
    · obtain ⟨mx, hmx, rfl⟩ := Option.map_eq_some_iff.mp hstep
      refine Releases.settle hmx ?_ ?_ fun _ => destroyInner_underlying
      · rfl
      · rfl
    · cases hstep
  -- the flag alone
  | invoke key =>
    obtain ⟨mx, hmx, hif⟩ := Option.bind_eq_some_iff.mp hstep
    split at hif
    · cases hif
    · obtain rfl := Option.some.inj hif
      refine .nothing rfl fun k u hu => ?_
      show (Function.update s.requests key _ k).bind _ = _
      rw [held_update]
      split
      · next hk =>
        rw [hk, held, hmx] at hu
        exact hu
      · exact hu
  | turn key =>
    obtain ⟨mx, _, hbind⟩ := Option.bind_eq_some_iff.mp hstep
    obtain ⟨i, _, hmap⟩ := Option.bind_eq_some_iff.mp hbind
    obtain ⟨n, _, rfl⟩ := Option.map_eq_some_iff.mp hmap
    exact .nothing rfl fun _ _ hu => hu
  | finish key =>
    obtain ⟨mx, hmx, hbind⟩ := Option.bind_eq_some_iff.mp hstep
    obtain ⟨i, _, hif⟩ := Option.bind_eq_some_iff.mp hbind
    split at hif
    · obtain rfl := Option.some.inj hif
      refine Releases.settle hmx ?_ ?_ fun _ => exitInvocation_underlying
      · rfl
      · rfl
    · cases hif
  | throw key =>
    obtain ⟨mx, hmx, hmap⟩ := Option.bind_eq_some_iff.mp hstep
    obtain ⟨i, _, rfl⟩ := Option.map_eq_some_iff.mp hmap
    refine Releases.settle hmx ?_ ?_ fun _ => exitInvocation_underlying
    · rfl
    · rfl

/-- A request that settles holds nothing new. -/
theorem held_of_settle {s s₁ : Multiplexed K C U} {key : K} {mx : MultiplexingRequest C U}
    (hmx : s.requests key = some mx) (hrequests : s₁.requests = s.requests)
    {o : Option (MultiplexingRequest C U)}
    (hstays : ∀ mx', o = some mx' → mx'.underlying = mx.underlying) {k : K} {u : U}
    (hu : (s₁.settle key mx o).held k = some u) : s.held k = some u := by
  rw [held, settle_requests, hrequests, held_update] at hu
  split at hu
  · next hk =>
    obtain ⟨mx', ho, hu⟩ := Option.bind_eq_some_iff.mp hu
    rw [hk, held, hmx, Option.bind_some, ← hstays mx' ho]
    exact hu
  · exact hu

/-- What is held after a step was held before, or put there by it: the converse of `step_releases`.
    -/
theorem held_of_step {s s' : Multiplexed K C U} {a : MxAction K C U} (hstep : s.step a = some s')
    {k : K} {u : U} (hu : s'.held k = some u) : s.held k = some u ∨ a = .fill k u := by
  cases a with
  | create key callback =>
    obtain rfl := Option.some.inj hstep
    change (Function.update s.requests key _ k).bind _ = _ at hu
    rw [held_update] at hu
    split at hu
    · next hk =>
      rw [hk, held]
      cases hfound : s.requests key with
      | none => rw [hfound] at hu; cases hu
      | some mx => rw [hfound] at hu; exact Or.inl hu
    · exact Or.inl hu
  -- the only step that puts something there
  | fill key u' =>
    obtain ⟨mx, hmx, hif⟩ := Option.bind_eq_some_iff.mp hstep
    split at hif
    · cases hif
    · obtain rfl := Option.some.inj hif
      change (Function.update s.requests key _ k).bind _ = _ at hu
      rw [held_update] at hu
      split at hu
      · next hk =>
        obtain rfl : u' = u := Option.some.inj hu
        exact Or.inr (by rw [hk])
      · exact Or.inl hu
  | release key handle =>
    simp only [Multiplexed.step] at hstep
    split at hstep
    · obtain ⟨mx, hmx, rfl⟩ := Option.map_eq_some_iff.mp hstep
      refine Or.inl (held_of_settle hmx ?_ (fun _ => destroyInner_underlying) hu)
      rfl
    · cases hstep
  | invoke key =>
    obtain ⟨mx, hmx, hif⟩ := Option.bind_eq_some_iff.mp hstep
    split at hif
    · cases hif
    · obtain rfl := Option.some.inj hif
      change (Function.update s.requests key _ k).bind _ = _ at hu
      rw [held_update] at hu
      split at hu
      · next hk =>
        rw [hk, held, hmx]
        exact Or.inl hu
      · exact Or.inl hu
  | turn key =>
    obtain ⟨mx, i, n, _, _, _, rfl⟩ := step_turn hstep
    exact Or.inl hu
  | finish key =>
    obtain ⟨mx, hmx, hbind⟩ := Option.bind_eq_some_iff.mp hstep
    obtain ⟨i, _, hif⟩ := Option.bind_eq_some_iff.mp hbind
    split at hif
    · obtain rfl := Option.some.inj hif
      refine Or.inl (held_of_settle hmx ?_ (fun _ => exitInvocation_underlying) hu)
      rfl
    · cases hif
  | throw key =>
    obtain ⟨mx, hmx, hmap⟩ := Option.bind_eq_some_iff.mp hstep
    obtain ⟨i, _, rfl⟩ := Option.map_eq_some_iff.mp hmap
    refine Or.inl (held_of_settle hmx ?_ (fun _ => exitInvocation_underlying) hu)
    rfl

omit [DecidableEq K] in
/-- A key is in the map while it has a live handle or is being invoked.  Outside of invocations
    nothing is blank, so that its nodes are live handles. -/
theorem Inv.mem_iff {s : Multiplexed K C U} (h : Inv s) (key : K) :
    (s.requests key).isSome ↔ s.handles key ≠ [] ∨ (s.invocations key).isSome := by
  have hkey := h.keys key
  generalize s.requests key = found at hkey
  generalize s.handles key = handles at hkey
  generalize s.invocations key = invocation at hkey
  cases hkey with
  | absent => simp
  | @present mx _ _ hkept =>
    refine ⟨fun _ => ?_, fun _ => rfl⟩
    by_cases hidle : invocation = none
    · left
      have hall := List.filter_eq_self.mpr (hkept.clean (hkept.outside hidle))
      rw [← hkept.live, MultiplexingRequest.live, hall]
      exact fun hnil => hkept.filled (List.map_eq_nil_iff.mp hnil)
    · exact Or.inr (Option.isSome_iff_ne_none.mpr hidle)

/-- **Delivery and lifetime**, in every state that can be reached: a live handle can be released;
    an invocation gave a turn, once and in order, to every handle alive at its start or created
    since, and ran the callbacks that were alive at their turn; a key is in the map if and only if
    it has a live handle or is being invoked; `create` gives the underlying slot to the caller that
    finds the key not in the map; and a held underlying request is released by the step that takes
    its key from the map, and by no other. -/
theorem delivery_and_lifetime (actions : List (MxAction K C U)) (s : Multiplexed K C U)
    (hrun : Lib.run Multiplexed.step Multiplexed.new actions = some s) :
    (∀ key, ∀ handle ∈ s.handles key, (s.step (.release key handle)).isSome) ∧
      (∀ d ∈ s.finished, d.2.Delivered) ∧
      (∀ key, ∀ i ∈ s.invocations key, (i.turns.map Turn.node).Nodup ∧ i.Fair) ∧
      (∀ key, (s.requests key).isSome ↔ s.handles key ≠ [] ∨ (s.invocations key).isSome) ∧
      (∀ key callback, (s.create key callback).2 = true ↔ s.requests key = none) ∧
      ∀ a s', s.step a = some s' →
        (∀ key u, s.held key = some u →
          (s'.requests key = none ↔ s'.released = s.released ++ [(key, u)]) ∧
          (s'.requests key ≠ none → s'.held key = some u)) ∧
        (s'.released = s.released ∨
          ∃ key u, s.held key = some u ∧ s'.released = s.released ++ [(key, u)]) := by
  have h : Inv s := Lib.run_invariant (fun _ _ _ h hstep => h.step hstep) actions new s new_inv hrun
  refine ⟨fun key handle hmem => ?_, h.finished, fun key i hi => ?_, h.mem_iff, fun key callback => ?_,
    fun a s' hstep => ⟨fun key u hu => ?_, ?_⟩⟩
  · obtain ⟨mx, hmx⟩ := Option.isSome_iff_exists.mp
      ((h.mem_iff key).mpr (Or.inl (List.ne_nil_of_mem hmem)))
    simp only [Multiplexed.step]
    rw [if_pos hmem, hmx]
    rfl
  · obtain ⟨mx, hmx⟩ := Option.isSome_iff_exists.mp
      ((h.mem_iff key).mpr (Or.inr (Option.isSome_iff_exists.mpr ⟨i, hi⟩)))
    have hkept := (hmx ▸ h.keys key).kept
    obtain ⟨_, hturns, hfair⟩ := hkept.inside i hi
    exact ⟨hturns ▸ hkept.distinct.sublist (List.take_sublist ..), hfair⟩
  · -- a request in the map has nodes, so only a new one gives the slot away
    show (MultiplexingRequest.create (s.requests key) s.nextNode callback).2 = true ↔ _
    have hkey := h.keys key
    cases hfound : s.requests key with
    | none => exact ⟨fun _ => rfl, fun _ => rfl⟩
    | some mx =>
      have hkept := (hfound ▸ hkey).kept
      refine ⟨fun hempty => absurd (List.isEmpty_iff.mp hempty) hkept.filled, nofun⟩
  · -- what was held is held still, or was released with its key
    have hsome : s.released ≠ s.released ++ [(key, u)] := fun heq =>
      List.cons_ne_nil _ _ (List.append_right_eq_self.mp heq.symm)
    cases step_releases hstep with
    | nothing hreleased hheld =>
      have hstill := hheld key u hu
      have hin : s'.requests key ≠ none := fun hnone => by rw [held, hnone] at hstill; cases hstill
      exact ⟨⟨fun hnone => absurd hnone hin, fun heq => absurd (hreleased.symm.trans heq) hsome⟩,
        fun _ => hstill⟩
    | underlying key' u' hheld' hgone hreleased hother =>
      by_cases hkey : key = key'
      · subst hkey
        obtain rfl : u = u' := Option.some.inj (hu.symm.trans hheld')
        exact ⟨⟨fun _ => hreleased, fun _ => hgone⟩, fun hin => absurd hgone hin⟩
      · have hstill : s'.held key = some u := (hother key hkey).trans hu
        have hin : s'.requests key ≠ none := fun hnone => by rw [held, hnone] at hstill; cases hstill
        refine ⟨⟨fun hnone => absurd hnone hin, fun heq => ?_⟩, fun _ => hstill⟩
        rw [hreleased] at heq
        have hpair := List.cons.inj (List.append_cancel_left heq)
        exact absurd (congrArg Prod.fst hpair.1).symm hkey
  · cases step_releases hstep with
    | nothing hreleased _ => exact Or.inl hreleased
    | underlying key' u' hheld' _ hreleased _ => exact Or.inr ⟨key', u', hheld', hreleased⟩

/-- A callback that releases its own handle and its neighbour's, and makes a new request: the
    neighbour is not run, the new one is. -/
theorem delivery_and_lifetime_reentrant :
    let actions : List (MxAction Unit Nat Nat) :=
      [.create () 10, .fill () 7, .create () 11, .invoke (), .turn (), .release () 0, .release () 1,
        .create () 12, .turn (), .turn (), .finish ()]
    ∃ s, Lib.run Multiplexed.step Multiplexed.new actions = some s ∧
      s.finished.map Prod.snd =
        [⟨[0, 1, 2], [⟨0, true, true⟩, ⟨1, false, false⟩, ⟨2, true, true⟩]⟩] ∧
      s.released = [] ∧ (s.create () 13).2 = false ∧ (s.step (.release () 2)).isSome := by
  intro actions
  obtain ⟨hrelease, _, _, _, _, _⟩ := delivery_and_lifetime actions _ rfl
  exact ⟨_, rfl, by decide, by decide, by decide, hrelease () 2 (by decide)⟩

end Multiplexed

end MicroProfiler
