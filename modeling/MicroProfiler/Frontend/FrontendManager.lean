/-
  `frontend_manager` — the life of a frontend instance, owned jointly by its session and its UI.

  1. **Program** — a list of instances; every captured iterator (in a session's deleter, in a slot
     hung on a UI signal) is the name of a list node, and following one to a node that is not
     listed is `none`.  `resetEntry` may RE-ENTER: `disconnect_session` can destroy the session on
     the spot, whose deleter erases the entry under reset.  `closeAll` has stepped to the next node
     before that happens.  Only connected slots are ever called; disconnecting is what
     `slot_connection` does when it is reset, assigned or destroyed.

  2. **Specification (`Life`)** — per attachment, whether its session is alive and which UI it has;
     no list, no connections, no order of destruction.  An instance is listed while it has one of
     the two.

  3. **The crux (`Shape`)** — the listed nodes, each with what `Life` says of it, and `conn`, the
     connection a node holds for a UI event: a slot is connected EXACTLY if some node with that UI
     holds it.  It is kept by every elementary operation, also in the middle of `resetEntry` where
     a node is still listed that no longer has an owner.
-/
import MicroProfiler.Lib.Keys
import MicroProfiler.Lib.Runs

namespace MicroProfiler.FrontendManager

open MicroProfiler.Lib

/-- The two signals of a `frontend_ui` the manager listens to. -/
inductive Event
  | activated
  | closed
deriving DecidableEq, Repr

/-- `instance_impl`, in the list node `node`. -/
structure Instance where
  /-- the list node it is in, never used again -/
  node : Nat
  /-- the session, while it is alive -/
  frontend : Option Nat
  ui : Option Nat
  /-- the slots it is connected with, while it has a UI -/
  activatedConnection : Option Nat
  closedConnection : Option Nat
deriving DecidableEq, Repr

/-- A slot connected to a signal of a UI: the lambda has captured the node. -/
structure Slot where
  id : Nat
  event : Event
  ui : Nat
  /-- the iterator captured -/
  node : Nat
deriving DecidableEq, Repr

/-- A session that is alive: its deleter has captured the node. -/
structure Session where
  id : Nat
  node : Nat
deriving DecidableEq, Repr

/-- `frontend_manager`, with the sessions and the slots that refer to it.  `erased` lists the nodes
    erased so far. -/
structure Manager where
  instances : List Instance
  active : Option Nat
  slots : List Slot
  sessions : List Session
  nextNode : Nat
  nextSlot : Nat
  erased : List Nat
deriving Repr

/-- Nothing is attached. -/
def Manager.init : Manager := ⟨[], none, [], [], 0, 0, []⟩

namespace Manager

/-- The nodes of the list, in order. -/
def nodes (m : Manager) : List Nat := m.instances.map Instance.node

/-- `*i`. -/
def lookup (m : Manager) (k : Nat) : Option Instance := m.instances.find? fun i => i.node == k

/-- `(*i).x = y` -/
def update (m : Manager) (k : Nat) (f : Instance → Instance) : Manager :=
  { m with instances := m.instances.map fun i => if i.node = k then f i else i }

/-- A connection lets go of its slot. -/
def disconnect (m : Manager) (connection : Option Nat) : Manager :=
  { m with slots := m.slots.filter fun slot => some slot.id ≠ connection }

/-- `_instances->erase(i)`, with the destructor of the instance, which takes its connections along.
    -/
def erase (m : Manager) (k : Nat) : Option Manager := do
  let i ← m.lookup k
  let m := (m.disconnect i.activatedConnection).disconnect i.closedConnection
  return { m with
    instances := m.instances.filter fun i => i.node ≠ k
    erased := m.erased ++ [k] }

/-- `attach(pfrontend)`. -/
def attach (m : Manager) (session : Nat) : Manager :=
  { m with
    instances := m.instances ++ [⟨m.nextNode, some session, none, none, none⟩]
    sessions := m.sessions ++ [⟨session, m.nextNode⟩]
    nextNode := m.nextNode + 1 }

/-- `if (*active == &*i) *active = nullptr; delete p; i->frontend = nullptr;` -/
def forgetSession (m : Manager) (session k : Nat) : Manager :=
  Manager.update
    { m with
      active := if m.active = some k then none else m.active
      sessions := m.sessions.filter fun s => s.id ≠ session }
    k fun i => { i with frontend := none }

/-- The deleter of a session.  With the UI gone too it erases the instance. -/
def destroySession (m : Manager) (session : Nat) : Option Manager := do
  let owner ← m.sessions.find? fun s => s.id == session
  let i ← m.lookup owner.node
  let m := m.forgetSession session owner.node
  if i.ui = none then m.erase owner.node else return m

/-- `i->ui_activated_connection.reset(); i->ui_closed_connection.reset(); i->ui.reset();` -/
def resetUi (m : Manager) (i : Instance) : Manager :=
  ((m.disconnect i.activatedConnection).disconnect i.closedConnection).update i.node fun i =>
    { i with activatedConnection := none, closedConnection := none, ui := none }

/-- `reset_entry(instances, i)`; `destroys` tells the sessions that `disconnect_session` destroys on
    the spot. -/
def resetEntry (m : Manager) (k : Nat) (destroys : Nat → Bool) : Option Manager := do
  let i ← m.lookup k
  let m := m.resetUi i
  match i.frontend with
  | some session =>
    -- `i->frontend->disconnect_session()`: the pointer must not dangle
    if m.sessions.any fun s => s.id == session then
      if destroys session then m.destroySession session else return m
    else none
  -- the session is gone already, so nobody else erases the entry
  | none => m.erase k

/-- `set_ui(i, ui)`. -/
def setUi (m : Manager) (k ui : Nat) : Option Manager := do
  let i ← m.lookup k
  let m := { m with slots := m.slots ++ [Slot.mk m.nextSlot .activated ui k] }
  -- the assignment of the new connection lets go of the old one
  let m := m.disconnect i.activatedConnection
  let m := { m with slots := m.slots ++ [Slot.mk (m.nextSlot + 1) .closed ui k] }
  let m := m.disconnect i.closedConnection
  let m := m.update k fun i =>
    { i with
      activatedConnection := some m.nextSlot
      closedConnection := some (m.nextSlot + 1)
      ui := some ui }
  return { m with nextSlot := m.nextSlot + 2, active := some k }

/-- `on_ui_activated(i)`. -/
def onUiActivated (m : Manager) (k : Nat) : Option Manager := do
  let _ ← m.lookup k
  return { m with active := some k }

/-- `on_ui_closed(i)`. -/
def onUiClosed (m : Manager) (k : Nat) (destroys : Nat → Bool) : Option Manager := do
  let _ ← m.lookup k
  let m := { m with active := if m.active = some k then none else m.active }
  m.resetEntry k destroys

/-- `ui` raises a signal: the slot it has for node `k` is called, if one is connected. -/
def raise (m : Manager) (event : Event) (ui k : Nat) (destroys : Nat → Bool) : Option Manager :=
  match m.slots.find? fun slot => slot.event == event && slot.ui == ui && slot.node == k with
  -- nobody is connected any more
  | none => some m
  | some slot =>
    match event with
    | .activated => m.onUiActivated slot.node
    | .closed => m.onUiClosed slot.node destroys

/-- `i++`: the node after a listed one, `none` for `end()`. -/
def following (m : Manager) (k : Nat) : Option (Option Nat) :=
  match m.nodes.dropWhile (· ≠ k) with
  | [] => none
  | _ :: rest => some rest.head?

/-- `for (; i != end(); ) reset_entry(*_instances, i++);` -/
def closeFrom (destroys : Nat → Bool) : Nat → Option Nat → Manager → Option Manager
  | _, none, m => some m
  | 0, some _, _ => none
  | fuel + 1, some k, m => do
    -- stepped before the entry is reset, and erased
    let next ← m.following k
    let m ← m.resetEntry k destroys
    closeFrom destroys fuel next m

/-- `close_all()`. -/
def closeAll (m : Manager) (destroys : Nat → Bool) : Option Manager := do
  let m ← closeFrom destroys m.instances.length m.nodes.head? m
  return { m with active := none }

end Manager

/-- What can happen to a manager. -/
inductive Action
  | attach (session : Nat)
  | setUi (k ui : Nat)
  | raise (event : Event) (ui k : Nat) (destroys : Nat → Bool)
  | destroySession (session : Nat)
  | closeAll (destroys : Nat → Bool)

/-- One action. -/
def Manager.step (m : Manager) : Action → Option Manager
  | .attach session => some (m.attach session)
  | .setUi k ui => m.setUi k ui
  | .raise event ui k destroys => m.raise event ui k destroys
  | .destroySession session => m.destroySession session
  | .closeAll destroys => m.closeAll destroys

/-! ## The lives of instances -/

/-- Per attachment: its session while it is alive, and its UI while it has one. -/
structure Life where
  /-- attachments made so far; an attachment is named by its node -/
  count : Nat
  session : Nat → Option Nat
  ui : Nat → Option Nat
  /-- the one whose UI was shown last -/
  active : Option Nat

/-- Nothing is attached. -/
def Life.init : Life := ⟨0, fun _ => none, fun _ => none, none⟩

namespace Life

/-- An attachment has an owner. -/
def Owned (L : Life) (k : Nat) : Prop := L.session k ≠ none ∨ L.ui k ≠ none

instance (L : Life) (k : Nat) : Decidable (L.Owned k) := inferInstanceAs (Decidable (_ ∨ _))

/-- The session of attachment `k` is gone. -/
def dropSession (L : Life) (k : Nat) : Life :=
  { L with
    session := fun j => if j = k then none else L.session j
    active := if L.active = some k then none else L.active }

/-- Attachment `k` has no UI any more. -/
def dropUi (L : Life) (k : Nat) : Life :=
  { L with ui := fun j => if j = k then none else L.ui j }

/-- It is active no more. -/
def deactivate (L : Life) (k : Nat) : Life :=
  { L with active := if L.active = some k then none else L.active }

/-- Its UI is dropped and its session is told to disconnect. -/
def reset (L : Life) (destroys : Nat → Bool) (k : Nat) : Life :=
  match L.session k with
  | some session => if destroys session then (L.dropUi k).dropSession k else L.dropUi k
  | none => L.dropUi k

/-- What is left of a session that is told to disconnect. -/
def survivor (destroys : Nat → Bool) : Option Nat → Option Nat
  | some session => if destroys session then none else some session
  | none => none

/-- The attachment of a session that is alive. -/
def attachmentOf (L : Life) (session : Nat) : Option Nat :=
  (List.range L.count).find? fun k => L.session k == some session

/-- What an action means.  `none`: it is not the manager's clients' to do (a session attached that
    is alive already, a UI set on an instance that is not listed, a dead session destroyed). -/
def step (L : Life) : Action → Option Life
  | .attach session =>
    if L.attachmentOf session ≠ none then none
    else some { L with
      count := L.count + 1
      session := fun j => if j = L.count then some session else L.session j }
  | .setUi k ui =>
    if L.Owned k then
      some { L with ui := fun j => if j = k then some ui else L.ui j, active := some k }
    else none
  | .raise event ui k destroys =>
    -- a UI that the instance does not have is not listened to
    if L.ui k = some ui then
      match event with
      | .activated => some { L with active := some k }
      | .closed => some ((L.deactivate k).reset destroys k)
    else some L
  | .destroySession session => (L.attachmentOf session).map L.dropSession
  | .closeAll destroys =>
    some { L with
      session := fun k => survivor destroys (L.session k)
      ui := fun _ => none
      active := none }

end Life

/-! ## What the manager's list looks like -/

/-- The instance in node `k`, by what its life is and the connections it holds.  This is all that
    the list says. -/
def entry (L : Life) (conn : Nat → Event → Option Nat) (k : Nat) : Instance where
  node := k
  frontend := L.session k
  ui := L.ui k
  activatedConnection := conn k .activated
  closedConnection := conn k .closed

theorem Manager.mem_disconnect {m : Manager} {connection : Option Nat} {slot : Slot} :
    slot ∈ (m.disconnect connection).slots ↔ slot ∈ m.slots ∧ some slot.id ≠ connection := by
  simp [Manager.disconnect]

/-- INVARIANT of the list, the slots and the sessions, in every intermediate state too. -/
structure Shape (m : Manager) (L : Life) (nodes : List Nat) (conn : Nat → Event → Option Nat) :
    Prop where
  /-- the list is made of the entries of its nodes -/
  instances : m.instances = nodes.map (entry L conn)
  nodup : nodes.Nodup
  /-- nodes are named by the attachments made so far -/
  below : ∀ k ∈ nodes, k < L.count
  /-- who has an owner is listed; the converse holds between actions only -/
  owned : ∀ k, L.Owned k → k ∈ nodes
  /-- a slot is connected while its node holds the connection -/
  slots : ∀ slot, slot ∈ m.slots ↔
    L.ui slot.node = some slot.ui ∧ conn slot.node slot.event = some slot.id
  /-- which it does while it has a UI -/
  conn_none : ∀ k event, conn k event = none ↔ L.ui k = none
  /-- a connection is one node's, for one event -/
  conn_inj : ∀ k k' event event' c, conn k event = some c → conn k' event' = some c →
    k = k' ∧ event = event'
  conn_lt : ∀ k event c, conn k event = some c → c < m.nextSlot
  /-- a session's deleter has captured the node it was attached with -/
  sessions : ∀ s k, ⟨s, k⟩ ∈ m.sessions ↔ L.session k = some s
  session_inj : ∀ k k' s, L.session k = some s → L.session k' = some s → k = k'
  active : m.active = L.active
  nextNode : m.nextNode = L.count
  erased_nodup : m.erased.Nodup
  /-- no erased node is listed again -/
  erased_gone : ∀ k ∈ m.erased, k ∉ nodes
  erased_below : ∀ k ∈ m.erased, k < L.count

namespace Shape

variable {m : Manager} {L : Life} {nodes : List Nat} {conn : Nat → Event → Option Nat}

/-- The nodes of the list. -/
theorem nodes_eq (h : Shape m L nodes conn) : m.nodes = nodes := by
  rw [Manager.nodes, h.instances, List.map_map]
  exact List.map_id nodes

/-- A listed node is there to be followed to. -/
theorem lookup_eq (h : Shape m L nodes conn) {k : Nat} (hk : k ∈ nodes) :
    m.lookup k = some (entry L conn k) := by
  rw [Manager.lookup, h.instances, List.find?_map, Option.map_eq_some_iff]
  exact ⟨k, find?_of_unique hk (beq_self_eq_true k) fun _ _ heq => eq_of_beq heq, rfl⟩

/-- Changing the instance in one node. -/
theorem update_instances (h : Shape m L nodes conn) {k : Nat} {f : Instance → Instance} {L' : Life}
    {conn' : Nat → Event → Option Nat} (hsame : f (entry L conn k) = entry L' conn' k)
    (hother : ∀ j, j ≠ k → entry L conn j = entry L' conn' j) :
    (m.instances.map fun i => if i.node = k then f i else i) = nodes.map (entry L' conn') := by
  rw [h.instances, List.map_map]
  refine List.map_congr_left fun j _ => ?_
  by_cases hjk : j = k
  · subst hjk
    simpa [entry] using hsame
  · simpa [entry, hjk] using hother j hjk

/-- An instance without owners holds no connection; erasing it takes nothing else along. -/
theorem erase_spec (h : Shape m L nodes conn) {k : Nat} (hk : k ∈ nodes) (hgone : ¬ L.Owned k) :
    ∃ m', m.erase k = some m' ∧ Shape m' L (nodes.filter (· ≠ k)) conn := by
  have hui : L.ui k = none := by
    by_contra hui
    exact hgone (.inr hui)
  have hconn := fun event => (h.conn_none k event).mpr hui
  refine ⟨{ m with instances := m.instances.filter fun i => i.node ≠ k, erased := m.erased ++ [k] },
    ?_, ?_⟩
  · simp [Manager.erase, h.lookup_eq hk, entry, hconn, Manager.disconnect]
  · refine { h with
      instances := ?_, nodup := h.nodup.filter _, below := ?_, owned := ?_, erased_nodup := ?_,
      erased_gone := ?_, erased_below := ?_ }
    · simp only [h.instances, List.filter_map]
      rfl
    · exact fun j hj => h.below j (List.mem_filter.mp hj).1
    · -- who has an owner is not the one erased
      intro j hj
      refine List.mem_filter.mpr ⟨h.owned j hj, decide_eq_true ?_⟩
      rintro rfl
      exact hgone hj
    · exact nodup_append_singleton h.erased_nodup fun herased => h.erased_gone k herased hk
    · intro j hj hin
      obtain ⟨hin, hne⟩ := List.mem_filter.mp hin
      rcases List.mem_append.mp hj with hj | hj
      · exact h.erased_gone j hj hin
      · exact of_decide_eq_true hne (List.mem_singleton.mp hj)
    · intro j hj
      rcases List.mem_append.mp hj with hj | hj
      · exact h.erased_below j hj
      · exact List.mem_singleton.mp hj ▸ h.below k hk

/-- The deleter finds the node its session was attached with. -/
theorem find?_session (h : Shape m L nodes conn) {k s : Nat} (hs : L.session k = some s) :
    (m.sessions.find? fun session => session.id == s) = some ⟨s, k⟩ := by
  refine find?_of_unique ((h.sessions s k).mpr hs) (beq_self_eq_true s) ?_
  rintro ⟨s', k'⟩ hmem hid
  obtain rfl : s' = s := eq_of_beq hid
  rw [h.session_inj k k' s' hs ((h.sessions s' k').mp hmem)]

/-- The first half of the deleter: the session is gone, the instance is still there, and may be
    without an owner. -/
theorem forgetSession_spec (h : Shape m L nodes conn) {k s : Nat} (hs : L.session k = some s) :
    Shape (m.forgetSession s k) (L.dropSession k) nodes conn := by
  refine { h with
    instances := ?_, owned := ?_, sessions := ?_, session_inj := ?_, active := ?_ }
  · exact h.update_instances (by simp [entry, Life.dropSession])
      fun j hj => by simp [entry, Life.dropSession, hj]
  · intro j hj
    refine h.owned j (hj.imp_left fun hsession => ?_)
    simp only [Life.dropSession] at hsession
    split at hsession
    · exact absurd rfl hsession
    · exact hsession
  · intro s' k'
    simp only [Manager.forgetSession, Manager.update, List.mem_filter, h.sessions, Life.dropSession,
      decide_eq_true_eq]
    by_cases hk : k' = k
    · subst hk
      simp only [if_true, reduceCtorEq, iff_false, not_and, not_not]
      intro hs'
      rw [hs] at hs'
      exact (Option.some.inj hs').symm
    · simp only [if_neg hk, and_iff_left_iff_imp]
      rintro hs' rfl
      exact hk (h.session_inj k' k s' hs' hs)
  · intro j j' s' hj hj'
    simp only [Life.dropSession] at hj hj'
    split at hj
    · cases hj
    split at hj'
    · cases hj'
    exact h.session_inj j j' s' hj hj'
  · simp only [Manager.forgetSession, Manager.update, Life.dropSession, h.active]

/-- **The deleter**: the instance stays only for the sake of its UI. -/
theorem destroySession_spec (h : Shape m L nodes conn) {k s : Nat} (hs : L.session k = some s) :
    ∃ m', m.destroySession s = some m' ∧
      Shape m' (L.dropSession k) (if L.ui k = none then nodes.filter (· ≠ k) else nodes) conn := by
  have hk : k ∈ nodes := h.owned k (.inl (by simp [hs]))
  have hforget := h.forgetSession_spec hs
  have hrun : m.destroySession s = if L.ui k = none then (m.forgetSession s k).erase k
      else some (m.forgetSession s k) := by
    simp only [Manager.destroySession, h.find?_session hs, h.lookup_eq hk, Option.bind_eq_bind,
      Option.bind_some, entry]
    rfl
  rw [hrun]
  by_cases hui : L.ui k = none
  · rw [if_pos hui, if_pos hui]
    refine hforget.erase_spec hk ?_
    simp [Life.Owned, Life.dropSession, hui]
  · rw [if_neg hui, if_neg hui]
    exact ⟨_, rfl, hforget⟩

/-- No node but `k` loses its connections. -/
def without (conn : Nat → Event → Option Nat) (k : Nat) : Nat → Event → Option Nat :=
  fun j event => if j = k then none else conn j event

/-- The first half of `reset_entry`: the UI is dropped, and with it its slots, and only its. -/
theorem resetUi_spec (h : Shape m L nodes conn) (k : Nat) :
    Shape (m.resetUi (entry L conn k)) (L.dropUi k) nodes (without conn k) := by
  refine { h with
    instances := ?_, owned := ?_, slots := ?_, conn_none := ?_, conn_inj := ?_, conn_lt := ?_ }
  · refine h.update_instances (k := k) (by simp [entry, Life.dropUi, without]) fun j hj => ?_
    simp [entry, Life.dropUi, without, hj]
  · intro j hj
    refine h.owned j (hj.imp_right fun hui => ?_)
    simp only [Life.dropUi] at hui
    split at hui
    · exact absurd rfl hui
    · exact hui
  · rintro ⟨c, event, ui, j⟩
    simp only [Manager.resetUi, Manager.update, Manager.mem_disconnect, h.slots, entry, Life.dropUi,
      without]
    by_cases hj : j = k
    · subst hj
      simp only [if_true, reduceCtorEq, and_self, iff_false, not_and, not_not]
      rintro ⟨⟨_, hconn⟩, hactivated⟩
      cases event with
      | activated => exact absurd hconn.symm hactivated
      | closed => exact hconn.symm
    · simp only [if_neg hj, and_assoc, and_congr_right_iff, and_iff_left_iff_imp]
      intro _ hconn
      exact ⟨fun heq => hj (h.conn_inj j k event .activated c hconn heq.symm).1,
        fun heq => hj (h.conn_inj j k event .closed c hconn heq.symm).1⟩
  · intro j event
    simp only [without, Life.dropUi]
    split
    · simp
    · exact h.conn_none j event
  · intro j j' event event' c hj hj'
    simp only [without] at hj hj'
    split at hj
    · cases hj
    split at hj'
    · cases hj'
    exact h.conn_inj j j' event event' c hj hj'
  · intro j event c hj
    simp only [without] at hj
    split at hj
    · cases hj
    exact h.conn_lt j event c hj

/-- `reset_entry` of an instance whose session is alive: the pointer it follows does not dangle. -/
theorem resetEntry_of_session (h : Shape m L nodes conn) {k s : Nat} (hk : k ∈ nodes)
    (hs : L.session k = some s) (destroys : Nat → Bool) :
    m.resetEntry k destroys = if destroys s then (m.resetUi (entry L conn k)).destroySession s
      else some (m.resetUi (entry L conn k)) := by
  have hfrontend : (entry L conn k).frontend = some s := hs
  have halive : (m.resetUi (entry L conn k)).sessions.any fun session => session.id == s :=
    List.any_eq_true.mpr ⟨⟨s, k⟩, ((h.resetUi_spec k).sessions s k).mpr hs, by simp⟩
  simp only [Manager.resetEntry, h.lookup_eq hk, Option.bind_eq_bind, Option.bind_some, hfrontend,
    halive, if_true]
  rfl

/-- **`reset_entry`**, re-entered or not: the entry is erased exactly if nothing owns it now. -/
theorem resetEntry_spec (h : Shape m L nodes conn) {k : Nat} (hk : k ∈ nodes)
    (destroys : Nat → Bool) :
    ∃ m', m.resetEntry k destroys = some m' ∧
      Shape m' (L.reset destroys k)
        (if (L.reset destroys k).Owned k then nodes else nodes.filter (· ≠ k)) (without conn k) := by
  have hreset := h.resetUi_spec k
  have hui : (L.dropUi k).ui k = none := by simp [Life.dropUi]
  cases hs : L.session k with
  | none =>
    have hlife : L.reset destroys k = L.dropUi k := by rw [Life.reset, hs]
    have hgone : ¬ (L.dropUi k).Owned k := by simp [Life.Owned, Life.dropUi, hs]
    rw [hlife, if_neg hgone]
    obtain ⟨m', hrun, hshape⟩ := hreset.erase_spec hk hgone
    exact ⟨m', by simpa [Manager.resetEntry, h.lookup_eq hk, entry, hs] using hrun, hshape⟩
  | some s =>
    rw [h.resetEntry_of_session hk hs]
    by_cases hd : destroys s
    · have hlife : L.reset destroys k = (L.dropUi k).dropSession k := by
        simp only [Life.reset, hs, hd, if_true]
      have hgone : ¬ ((L.dropUi k).dropSession k).Owned k := by
        simp [Life.Owned, Life.dropUi, Life.dropSession]
      rw [if_pos hd, hlife, if_neg hgone]
      obtain ⟨m', hrun, hshape⟩ := hreset.destroySession_spec (show (L.dropUi k).session k = some s from hs)
      rw [if_pos hui] at hshape
      exact ⟨m', hrun, hshape⟩
    · have hlife : L.reset destroys k = L.dropUi k := by
        simp only [Life.reset, hs, if_neg hd]
      have howned : (L.dropUi k).Owned k :=
        .inl (by rw [show (L.dropUi k).session k = some s from hs]; simp)
      rw [if_neg hd, hlife, if_pos howned]
      exact ⟨_, rfl, hreset⟩

/-- A node that is given a UI holds the two newest slots. -/
def reconnected (conn : Nat → Event → Option Nat) (k c : Nat) : Nat → Event → Option Nat :=
  fun j event =>
    if j = k then
      match event with
      | .activated => some c
      | .closed => some (c + 1)
    else conn j event

theorem reconnected_cases {conn : Nat → Event → Option Nat} {k n j c : Nat} {event : Event}
    (hj : reconnected conn k n j event = some c) :
    (j = k ∧ c = match event with | .activated => n | .closed => n + 1) ∨
      (j ≠ k ∧ conn j event = some c) := by
  unfold reconnected at hj
  split at hj
  next hjk =>
    refine .inl ⟨hjk, ?_⟩
    cases event <;> exact (Option.some.inj hj).symm
  next hjk => exact .inr ⟨hjk, hj⟩

/-- The slots that are new are told apart from the old ones, and from one another. -/
theorem reconnected_inj (h : Shape m L nodes conn) {k j j' c : Nat} {event event' : Event}
    (hj : reconnected conn k m.nextSlot j event = some c)
    (hj' : reconnected conn k m.nextSlot j' event' = some c) : j = j' ∧ event = event' := by
  rcases reconnected_cases hj with ⟨hjk, hc⟩ | ⟨_, hkept⟩ <;>
    rcases reconnected_cases hj' with ⟨hjk', hc'⟩ | ⟨_, hkept'⟩
  · refine ⟨hjk.trans hjk'.symm, ?_⟩
    cases event <;> cases event' <;> simp_all
  · have := h.conn_lt j' event' c hkept'
    cases event <;> simp only at hc <;> omega
  · have := h.conn_lt j event c hkept
    cases event' <;> simp only at hc' <;> omega
  · exact h.conn_inj j j' event event' c hkept hkept'

/-- Two slots are connected in turn, and the two that the node held before let go. -/
theorem mem_reconnected (h : Shape m L nodes conn) (k ui : Nat) (slot : Slot) :
    (((slot ∈ m.slots ∨ slot = ⟨m.nextSlot, .activated, ui, k⟩) ∧
        some slot.id ≠ conn k .activated) ∨ slot = ⟨m.nextSlot + 1, .closed, ui, k⟩) ∧
      some slot.id ≠ conn k .closed ↔
    (if slot.node = k then some ui else L.ui slot.node) = some slot.ui ∧
      reconnected conn k m.nextSlot slot.node slot.event = some slot.id := by
  have hold : ∀ event, some m.nextSlot ≠ conn k event ∧ some (m.nextSlot + 1) ≠ conn k event := by
    intro event
    refine ⟨fun heq => ?_, fun heq => ?_⟩
    all_goals
      have := h.conn_lt k event _ heq.symm
      omega
  obtain ⟨c, event, u, j⟩ := slot
  simp only [Slot.mk.injEq, h.slots]
  by_cases hjk : j = k
  · -- of the node's own slots only the two new ones are left
    subst hjk
    cases event with
    | activated =>
      simp only [reduceCtorEq, false_and, and_false, or_false, if_true, true_and, reconnected,
        Option.some.injEq, and_true]
      constructor
      · rintro ⟨⟨⟨_, hconn⟩ | ⟨rfl, rfl⟩, hne⟩, _⟩
        · exact absurd hconn.symm hne
        · exact ⟨rfl, rfl⟩
      · rintro ⟨rfl, rfl⟩
        exact ⟨⟨.inr ⟨rfl, rfl⟩, (hold _).1⟩, (hold _).1⟩
    | closed =>
      simp only [reduceCtorEq, false_and, and_false, or_false, if_true, true_and, reconnected,
        Option.some.injEq, and_true]
      constructor
      · rintro ⟨⟨⟨_, hconn⟩, _⟩ | ⟨rfl, rfl⟩, hne⟩
        · exact absurd hconn.symm hne
        · exact ⟨rfl, rfl⟩
      · rintro ⟨rfl, rfl⟩
        exact ⟨.inr ⟨rfl, rfl⟩, (hold _).2⟩
  · simp only [hjk, and_false, or_false, if_false, reconnected, and_assoc, and_congr_right_iff,
      and_iff_left_iff_imp]
    intro _ hconn
    exact ⟨fun heq => hjk (h.conn_inj j k event .activated c hconn heq.symm).1,
      fun heq => hjk (h.conn_inj j k event .closed c hconn heq.symm).1⟩

/-- **`set_ui`**: the slots of the UI it replaces go with their connections. -/
theorem setUi_spec (h : Shape m L nodes conn) {k : Nat} (hk : k ∈ nodes) (ui : Nat) :
    ∃ m', m.setUi k ui = some m' ∧
      Shape m' { L with ui := fun j => if j = k then some ui else L.ui j, active := some k }
        nodes (reconnected conn k m.nextSlot) := by
  refine ⟨_, by simp only [Manager.setUi, h.lookup_eq hk, Option.bind_eq_bind, Option.bind_some]; rfl,
    ?_⟩
  refine { h with
    instances := ?_, owned := ?_, slots := ?_, conn_none := ?_,
    conn_inj := fun _ _ _ _ _ hj hj' => h.reconnected_inj hj hj', conn_lt := ?_, active := rfl }
  · refine h.update_instances (k := k) (by simp [entry, reconnected, Manager.disconnect]) fun j hj => ?_
    simp [entry, reconnected, hj]
  · intro j hj
    by_cases hjk : j = k
    · exact hjk ▸ hk
    · exact h.owned j (by simpa [Life.Owned, hjk] using hj)
  · intro slot
    simp only [Manager.update, Manager.mem_disconnect, List.mem_append, List.mem_singleton]
    exact h.mem_reconnected k ui slot
  · intro j event
    by_cases hjk : j = k
    · cases event <;> simp [reconnected, hjk]
    · simpa [reconnected, hjk] using h.conn_none j event
  · intro j event c hj
    simp only [Manager.update, Manager.disconnect]
    rcases reconnected_cases hj with ⟨rfl, hc⟩ | ⟨_, hj⟩
    · cases event <;> simp only at hc <;> omega
    · have := h.conn_lt j event c hj
      omega

/-- **`attach`**: a new node at the end. -/
theorem attach_spec (h : Shape m L nodes conn) {s : Nat} (hnew : ∀ k, L.session k ≠ some s)
    (hfresh : ∀ k, L.count ≤ k → ¬ L.Owned k) :
    Shape (m.attach s)
      { L with count := L.count + 1
               session := fun j => if j = L.count then some s else L.session j }
      (nodes ++ [L.count]) conn := by
  -- the node is new
  have hout : L.count ∉ nodes := fun hin => Nat.lt_irrefl _ (h.below _ hin)
  have hui : L.ui L.count = none := by
    by_contra hui
    exact hfresh _ (Nat.le_refl _) (.inr hui)
  have hconn := fun event => (h.conn_none L.count event).mpr hui
  refine { h with
    instances := ?_, nodup := ?_, below := ?_, owned := ?_, sessions := ?_, session_inj := ?_,
    nextNode := ?_, erased_gone := ?_, erased_below := ?_ }
  · have hkept : ∀ j ∈ nodes, entry L conn j = entry
        { L with count := L.count + 1
                 session := fun j => if j = L.count then some s else L.session j } conn j := by
      intro j hj
      have hne : j ≠ L.count := fun heq => hout (heq ▸ hj)
      simp [entry, hne]
    show m.instances ++ [⟨m.nextNode, some s, none, none, none⟩] = _
    rw [List.map_append, List.map_singleton, h.instances, h.nextNode, List.map_congr_left hkept]
    simp [entry, hui, hconn]
  · exact nodup_append_singleton h.nodup hout
  · intro j hj
    rcases List.mem_append.mp hj with hj | hj
    · exact Nat.lt_succ_of_lt (h.below j hj)
    · rw [List.mem_singleton.mp hj]
      exact Nat.lt_succ_self _
  · intro j hj
    by_cases hjk : j = L.count
    · exact List.mem_append_right _ (List.mem_singleton.mpr hjk)
    · exact List.mem_append_left _ (h.owned j (by simpa [Life.Owned, hjk] using hj))
  · intro s' k'
    simp only [Manager.attach, List.mem_append, h.sessions, List.mem_singleton, Session.mk.injEq,
      h.nextNode]
    by_cases hk : k' = L.count
    · subst hk
      have hnone : L.session L.count ≠ some s' := fun hs' =>
        hfresh _ (Nat.le_refl _) (.inl (by simp [hs']))
      simp [hnone, eq_comm]
    · simp [hk]
  · intro j j' s' hj hj'
    simp only at hj hj'
    split at hj <;> split at hj'
    next hjk hjk' => exact hjk.trans hjk'.symm
    · cases hj
      exact absurd hj' (hnew j')
    · cases hj'
      exact absurd hj (hnew j)
    · exact h.session_inj j j' s' hj hj'
  · rw [Manager.attach, h.nextNode]
  · intro k hk hin
    rcases List.mem_append.mp hin with hin | hin
    · exact h.erased_gone k hk hin
    · have := h.erased_below k hk
      rw [List.mem_singleton.mp hin] at this
      exact Nat.lt_irrefl _ this
  · exact fun k hk => Nat.lt_succ_of_lt (h.erased_below k hk)

/-- The slot a UI has for a node is connected EXACTLY while the node has that UI. -/
theorem find?_slot (h : Shape m L nodes conn) (event : Event) (ui k : Nat) :
    if L.ui k = some ui then
      ∃ slot, (m.slots.find? fun slot => slot.event == event && slot.ui == ui && slot.node == k)
        = some slot ∧ slot.node = k
    else (m.slots.find? fun slot => slot.event == event && slot.ui == ui && slot.node == k)
        = none := by
  split
  next hui =>
    cases hfind : m.slots.find? fun slot => slot.event == event && slot.ui == ui && slot.node == k with
    | some slot =>
      have hslot := List.find?_some hfind
      simp only [Bool.and_eq_true, beq_iff_eq] at hslot
      exact ⟨slot, rfl, hslot.2⟩
    | none =>
      obtain ⟨c, hc⟩ : ∃ c, conn k event = some c := by
        rw [← Option.ne_none_iff_exists']
        intro hnone
        rw [(h.conn_none k event).mp hnone] at hui
        cases hui
      have hmem := (h.slots ⟨c, event, ui, k⟩).mpr ⟨hui, hc⟩
      exact absurd (List.find?_eq_none.mp hfind _ hmem) (by simp)
  next hui =>
    rw [List.find?_eq_none]
    intro slot hslot hmatch
    simp only [Bool.and_eq_true, beq_iff_eq] at hmatch
    obtain ⟨⟨_, rfl⟩, rfl⟩ := hmatch
    exact hui ((h.slots slot).mp hslot).1

end Shape

/-! ## Lives, one and many -/

namespace Life

variable {L : Life} {destroys : Nat → Bool} {j k : Nat}

/-- What a reset makes of the sessions. -/
theorem reset_session : (L.reset destroys k).session j =
    if j = k then survivor destroys (L.session j) else L.session j := by
  unfold reset
  cases hs : L.session k with
  | none =>
    by_cases hjk : j = k
    · simp [dropUi, hjk, hs, survivor]
    · simp [dropUi, hjk]
  | some s =>
    by_cases hjk : j = k <;> by_cases hd : destroys s <;>
      simp [dropUi, dropSession, hjk, hs, hd, survivor]

/-- It takes the UI of the attachment. -/
theorem reset_ui : (L.reset destroys k).ui j = if j = k then none else L.ui j := by
  unfold reset
  cases L.session k with
  | none => rfl
  | some s => by_cases hd : destroys s <;> simp [dropUi, dropSession, hd]

/-- Nobody is attached by it. -/
theorem reset_count : (L.reset destroys k).count = L.count := by
  unfold reset
  cases L.session k with
  | none => rfl
  | some s => by_cases hd : destroys s <;> simp [dropUi, dropSession, hd]

/-- Resetting one attachment leaves the others to their owners. -/
theorem reset_owned_of_ne (hjk : j ≠ k) : (L.reset destroys k).Owned j ↔ L.Owned j := by
  simp [Owned, reset_session, reset_ui, hjk]

/-- It does not concern who is active elsewhere. -/
theorem reset_active (hk : L.active ≠ some k) : (L.reset destroys k).active = L.active := by
  unfold reset
  cases L.session k with
  | none => rfl
  | some s => by_cases hd : destroys s <;> simp [dropUi, dropSession, hd, hk]

/-- A session that goes is one attachment's. -/
theorem dropSession_owned_of_ne (hjk : j ≠ k) : (L.dropSession k).Owned j ↔ L.Owned j := by
  simp [Owned, dropSession, hjk]

/-- Being told twice makes no difference. -/
theorem survivor_survivor (s : Option Nat) :
    survivor destroys (survivor destroys s) = survivor destroys s := by
  cases s with
  | none => rfl
  | some s => by_cases hd : destroys s <;> simp [survivor, hd]

/-- Resetting many, one after another: each is told once, or as good as once. -/
theorem foldl_reset (destroys : Nat → Bool) (nodes : List Nat) (L : Life) :
    (nodes.foldl (Life.reset · destroys) L).count = L.count ∧
      (∀ j, (nodes.foldl (Life.reset · destroys) L).session j =
        if j ∈ nodes then survivor destroys (L.session j) else L.session j) ∧
      ∀ j, (nodes.foldl (Life.reset · destroys) L).ui j = if j ∈ nodes then none else L.ui j := by
  induction nodes generalizing L with
  | nil => simp
  | cons k nodes ih =>
    obtain ⟨hcount, hsession, hui⟩ := ih (L.reset destroys k)
    refine ⟨hcount.trans reset_count, fun j => ?_, fun j => ?_⟩
    · rw [List.foldl_cons, hsession, reset_session]
      by_cases hjk : j = k <;> by_cases hj : j ∈ nodes <;> simp [hjk, hj, survivor_survivor]
    · rw [List.foldl_cons, hui, reset_ui]
      by_cases hjk : j = k <;> by_cases hj : j ∈ nodes <;> simp [hjk, hj]

/-- Those not reset keep their owners. -/
theorem foldl_reset_owned {nodes : List Nat} (hj : j ∉ nodes) :
    (nodes.foldl (Life.reset · destroys) L).Owned j ↔ L.Owned j := by
  obtain ⟨_, hsession, hui⟩ := foldl_reset destroys nodes L
  rw [Owned, hsession, hui, if_neg hj, if_neg hj, Owned]

/-- The attachment found has the session. -/
theorem attachmentOf_some {s : Nat} (h : L.attachmentOf s = some k) : L.session k = some s := by
  simpa using List.find?_some h

/-- A session that is not found is nobody's. -/
theorem attachmentOf_none {s : Nat} (h : L.attachmentOf s = none) (hk : k < L.count) :
    L.session k ≠ some s := by
  have := List.find?_eq_none.mp h k (List.mem_range.mpr hk)
  simpa using this

end Life

/-! ## Closing all instances -/

/-- **The loop of `close_all`.**  INVARIANT: the nodes still to be visited are listed, in order,
    behind those already visited and left; so the iterator that was stepped before `reset_entry`
    is good after it. -/
theorem closeFrom_spec (destroys : Nat → Bool) : ∀ (rest visited : List Nat) {m : Manager} {L : Life}
    {conn : Nat → Event → Option Nat} (fuel : Nat), Shape m L (visited ++ rest) conn →
    rest.length ≤ fuel →
    ∃ m' nodes conn', Manager.closeFrom destroys fuel rest.head? m = some m' ∧
      Shape m' (rest.foldl (Life.reset · destroys) L) nodes conn' ∧
      ∀ k ∈ nodes, k ∈ visited ∨ (rest.foldl (Life.reset · destroys) L).Owned k
  | [], visited, m, L, conn, fuel, h, _ =>
    ⟨m, visited ++ [], conn, by simp [Manager.closeFrom], h, fun k hk => .inl (by simpa using hk)⟩
  | k :: rest, visited, m, L, conn, 0, _, hfuel => by simp at hfuel
  | k :: rest, visited, m, L, conn, fuel + 1, h, hfuel => by
    obtain ⟨hvisited, hrest, hdisjoint⟩ := List.nodup_append.mp h.nodup
    have hk : k ∉ visited := fun hin => hdisjoint k hin k List.mem_cons_self rfl
    have hk' : k ∉ rest := (List.nodup_cons.mp hrest).1
    have hother : ∀ j ∈ visited, decide (j ≠ k) = true := fun j hj =>
      decide_eq_true (ne_of_mem_of_not_mem hj hk)
    have hother' : ∀ j ∈ rest, decide (j ≠ k) = true := fun j hj =>
      decide_eq_true (ne_of_mem_of_not_mem hj hk')
    have hfollowing : m.following k = some rest.head? := by
      have hdrop : (visited ++ k :: rest).dropWhile (· ≠ k) = k :: rest := by
        rw [List.dropWhile_append_of_pos hother]
        simp
      rw [Manager.following, h.nodes_eq, hdrop]
    obtain ⟨m₁, hreset, hshape⟩ := h.resetEntry_spec (show k ∈ visited ++ k :: rest by simp) destroys
    have hfuel' : rest.length ≤ fuel := by simpa using hfuel
    by_cases howned : (L.reset destroys k).Owned k
    · -- its session survives: the node stays listed, behind the loop
      rw [if_pos howned, List.append_cons] at hshape
      obtain ⟨m', nodes, conn', hrun, hshape', hleft⟩ :=
        closeFrom_spec destroys rest (visited ++ [k]) fuel hshape hfuel'
      refine ⟨m', nodes, conn', ?_, hshape', fun j hj => ?_⟩
      · simp [Manager.closeFrom, hfollowing, hreset, hrun]
      · rcases hleft j hj with hin | hown
        · rcases List.mem_append.mp hin with hin | hin
          · exact .inl hin
          · rw [List.mem_singleton.mp hin]
            exact .inr ((Life.foldl_reset_owned hk').mpr howned)
        · exact .inr hown
    · -- it lost its last owner: the node is gone, and the next one is where it was
      have hfilter : (visited ++ k :: rest).filter (· ≠ k) = visited ++ rest := by
        rw [List.filter_append, List.filter_cons_of_neg (by simp), List.filter_eq_self.mpr hother,
          List.filter_eq_self.mpr hother']
      rw [if_neg howned, hfilter] at hshape
      obtain ⟨m', nodes, conn', hrun, hshape', hleft⟩ :=
        closeFrom_spec destroys rest visited fuel hshape hfuel'
      refine ⟨m', nodes, conn', ?_, hshape', hleft⟩
      simp [Manager.closeFrom, hfollowing, hreset, hrun]

/-! ## Whole runs -/

/-- INVARIANT between actions: exactly the owned attachments are listed, and the active one is one
    of them. -/
def Tracks (m : Manager) (L : Life) : Prop :=
  ∃ nodes conn, Shape m L nodes conn ∧ (∀ k ∈ nodes, L.Owned k) ∧
    ∀ k, L.active = some k → L.Owned k

/-- Nothing is listed. -/
theorem tracks_init : Tracks .init .init := by
  refine ⟨[], fun _ _ => none, ?_, by simp, by simp [Life.init]⟩
  constructor <;> simp [Manager.init, Life.init, Life.Owned]

namespace Tracks

variable {m : Manager} {L L' : Life}

/-- Where one attachment loses an owner, and its entry goes with the last one.  The others are as
    they were. -/
theorem of_reset {m' : Manager} {nodes : List Nat} {conn : Nat → Event → Option Nat} {k : Nat}
    (hshape : Shape m' L' (if L'.Owned k then nodes else nodes.filter (· ≠ k)) conn)
    (hother : ∀ j, j ≠ k → (L'.Owned j ↔ L.Owned j)) (howned : ∀ j ∈ nodes, L.Owned j)
    (hactive : ∀ j, L'.active = some j → j ≠ k ∧ L.Owned j) : Tracks m' L' := by
  refine ⟨_, conn, hshape, fun j hj => ?_, fun j hj => ?_⟩
  · split at hj
    next hk =>
      by_cases hjk : j = k
      · exact hjk ▸ hk
      · exact (hother j hjk).mpr (howned j hj)
    next hk =>
      obtain ⟨hj, hjk⟩ := List.mem_filter.mp hj
      exact (hother j (of_decide_eq_true hjk)).mpr (howned j hj)
  · obtain ⟨hjk, hown⟩ := hactive j hj
    exact (hother j hjk).mpr hown

/-- **A UI raises a signal.** -/
theorem step_raise (h : Tracks m L) {event : Event} {ui k : Nat} {destroys : Nat → Bool}
    (hstep : L.step (.raise event ui k destroys) = some L') :
    ∃ m', m.step (.raise event ui k destroys) = some m' ∧ Tracks m' L' := by
  obtain ⟨nodes, conn, hshape, howned, hactive⟩ := h
  have hslot := hshape.find?_slot event ui k
  simp only [Life.step] at hstep
  simp only [Manager.step, Manager.raise]
  by_cases hui : L.ui k = some ui
  · rw [if_pos hui] at hstep hslot
    obtain ⟨slot, hfind, hnode⟩ := hslot
    have hk : k ∈ nodes := hshape.owned k (.inr (by simp [hui]))
    rw [hfind]
    simp only [hnode]
    cases event with
    | activated =>
      -- the instance becomes the active one
      obtain rfl := Option.some.inj hstep
      refine ⟨{ m with active := some k }, by simp [Manager.onUiActivated, hshape.lookup_eq hk],
        nodes, conn, { hshape with active := rfl }, howned, fun j hj => ?_⟩
      obtain rfl := Option.some.inj hj
      exact .inr (by simp [hui])
    | closed =>
      -- it is active no more, and its entry is reset
      obtain rfl := Option.some.inj hstep
      have hquiet : Shape { m with active := if m.active = some k then none else m.active }
          (L.deactivate k) nodes conn :=
        { hshape with active := by rw [Life.deactivate, hshape.active] }
      obtain ⟨m', hrun, hreset⟩ := hquiet.resetEntry_spec hk destroys
      have hne : (L.deactivate k).active ≠ some k := by
        simp only [Life.deactivate]
        split
        · simp
        next hne => exact hne
      refine ⟨m', ?_, of_reset (L := L) hreset (fun j hjk => ?_) howned fun j hj => ?_⟩
      · simp [Manager.onUiClosed, hshape.lookup_eq hk, hrun]
      · exact Life.reset_owned_of_ne hjk
      · rw [Life.reset_active hne] at hj
        refine ⟨fun hjk => hne (hjk ▸ hj), hactive j ?_⟩
        simp only [Life.deactivate] at hj
        split at hj
        · cases hj
        · exact hj
  · -- the node does not have that UI: its slot is disconnected
    rw [if_neg hui] at hstep hslot
    obtain rfl := Option.some.inj hstep
    rw [hslot]
    exact ⟨m, rfl, nodes, conn, hshape, howned, hactive⟩

/-- **A session is destroyed** by its owner. -/
theorem step_destroySession (h : Tracks m L) {session : Nat}
    (hstep : L.step (.destroySession session) = some L') :
    ∃ m', m.step (.destroySession session) = some m' ∧ Tracks m' L' := by
  obtain ⟨nodes, conn, hshape, howned, hactive⟩ := h
  simp only [Life.step, Option.map_eq_some_iff] at hstep
  obtain ⟨k, hk, rfl⟩ := hstep
  obtain ⟨m', hrun, hdropped⟩ := hshape.destroySession_spec (Life.attachmentOf_some hk)
  have howned' : (L.dropSession k).Owned k ↔ ¬ L.ui k = none := by
    simp [Life.Owned, Life.dropSession]
  have hnodes : (if L.ui k = none then nodes.filter (· ≠ k) else nodes)
      = if (L.dropSession k).Owned k then nodes else nodes.filter (· ≠ k) := by
    by_cases hui : L.ui k = none
    · rw [if_pos hui, if_neg (by rw [howned']; exact not_not.mpr hui)]
    · rw [if_neg hui, if_pos (howned'.mpr hui)]
  rw [hnodes] at hdropped
  refine ⟨m', hrun, of_reset hdropped (fun j hjk => Life.dropSession_owned_of_ne hjk) howned
    fun j hj => ?_⟩
  simp only [Life.dropSession] at hj
  split at hj
  · cases hj
  next hne => exact ⟨fun hjk => hne (hjk ▸ hj), hactive j hj⟩

/-- **All instances are closed.** -/
theorem step_closeAll (h : Tracks m L) {destroys : Nat → Bool}
    (hstep : L.step (.closeAll destroys) = some L') :
    ∃ m', m.step (.closeAll destroys) = some m' ∧ Tracks m' L' := by
  obtain ⟨nodes, conn, hshape, howned, hactive⟩ := h
  obtain rfl := Option.some.inj hstep
  have hlength : nodes.length ≤ m.instances.length := by simp [hshape.instances]
  obtain ⟨m', nodes', conn', hrun, hclosed, hleft⟩ :=
    closeFrom_spec destroys nodes [] m.instances.length hshape hlength
  obtain ⟨hcount, hsession, hui⟩ := Life.foldl_reset destroys nodes L
  -- nobody outside the list has an owner to lose
  have hlife : { nodes.foldl (Life.reset · destroys) L with active := none }
      = ({ L with
          session := fun k => Life.survivor destroys (L.session k)
          ui := fun _ => none
          active := none } : Life) := by
    have hout : ∀ k, k ∉ nodes → L.session k = none ∧ L.ui k = none := by
      intro k hk
      have hnone : ¬ L.Owned k := fun hown => hk (hshape.owned k hown)
      simpa [Life.Owned, not_or] using hnone
    simp only [Life.mk.injEq, and_true]
    refine ⟨hcount, funext fun k => ?_, funext fun k => ?_⟩
    · rw [hsession]
      by_cases hk : k ∈ nodes
      · rw [if_pos hk]
      · rw [if_neg hk, (hout k hk).1]
        rfl
    · rw [hui]
      by_cases hk : k ∈ nodes
      · rw [if_pos hk]
      · rw [if_neg hk, (hout k hk).2]
  -- whoever is listed then has an owner: nobody was visited before the loop
  have hfinal : Shape { m' with active := none }
      { nodes.foldl (Life.reset · destroys) L with active := none } nodes' conn' :=
    { hclosed with active := rfl }
  refine ⟨{ m' with active := none }, ?_, nodes', conn', hlife ▸ hfinal, ?_, by simp⟩
  · simp only [Manager.step, Manager.closeAll, hshape.nodes_eq, hrun, Option.bind_eq_bind,
      Option.bind_some]
    rfl
  · intro k hk
    rw [← hlife]
    exact (hleft k hk).resolve_left (by simp)

/-- **A session is attached.** -/
theorem step_attach (h : Tracks m L) {session : Nat} (hstep : L.step (.attach session) = some L') :
    ∃ m', m.step (.attach session) = some m' ∧ Tracks m' L' := by
  obtain ⟨nodes, conn, hshape, howned, hactive⟩ := h
  simp only [Life.step, Option.ite_none_left_eq_some, not_not, Option.some.injEq] at hstep
  obtain ⟨hnew, rfl⟩ := hstep
  have hfresh : ∀ k, L.count ≤ k → ¬ L.Owned k := fun k hk hown =>
    Nat.lt_irrefl _ (Nat.lt_of_lt_of_le (hshape.below k (hshape.owned k hown)) hk)
  have hunknown : ∀ k, L.session k ≠ some session := by
    intro k hs
    have hk := hshape.below k (hshape.owned k (.inl (by simp [hs])))
    exact Life.attachmentOf_none hnew hk hs
  have hkept : ∀ k, L.Owned k → k ≠ L.count := fun k hown heq =>
    hfresh k (Nat.le_of_eq heq.symm) hown
  refine ⟨_, rfl, _, conn, hshape.attach_spec hunknown hfresh, fun k hk => ?_, fun k hk => ?_⟩
  · rcases List.mem_append.mp hk with hk | hk
    · simpa [Life.Owned, hkept k (howned k hk)] using howned k hk
    · simp [Life.Owned, List.mem_singleton.mp hk]
  · simpa [Life.Owned, hkept k (hactive k hk)] using hactive k hk

/-- **A UI is set** on a listed instance, in place of the one it had, if any. -/
theorem step_setUi (h : Tracks m L) {k ui : Nat} (hstep : L.step (.setUi k ui) = some L') :
    ∃ m', m.step (.setUi k ui) = some m' ∧ Tracks m' L' := by
  obtain ⟨nodes, conn, hshape, howned, hactive⟩ := h
  simp only [Life.step, Option.ite_none_right_eq_some, Option.some.injEq] at hstep
  obtain ⟨hown, rfl⟩ := hstep
  obtain ⟨m', hrun, hset⟩ := hshape.setUi_spec (hshape.owned k hown) ui
  refine ⟨m', hrun, nodes, _, hset, fun j hj => ?_, fun j hj => ?_⟩
  · by_cases hjk : j = k
    · simp [Life.Owned, hjk]
    · simpa [Life.Owned, hjk] using howned j hj
  · obtain rfl := Option.some.inj hj
    simp [Life.Owned]

/-- **One action.** The manager follows the lives of its instances. -/
theorem step (h : Tracks m L) {a : Action} (hstep : L.step a = some L') :
    ∃ m', m.step a = some m' ∧ Tracks m' L' := by
  cases a with
  | attach session => exact h.step_attach hstep
  | setUi k ui => exact h.step_setUi hstep
  | raise event ui k destroys => exact h.step_raise hstep
  | destroySession session => exact h.step_destroySession hstep
  | closeAll destroys => exact h.step_closeAll hstep

end Tracks

/-- **The lifecycle of instances.** In any order of attachments, UIs set on listed instances, UI
    signals, session destructions and `close_all`, with `disconnect_session` destroying any of the
    sessions on the spot or not: no iterator is followed to a node that is not listed (so no
    instance is erased twice, and no callback runs for an erased one); the active instance is null
    or listed; an instance is listed exactly while its session or its UI is alive; and every slot
    connected to a UI signal is for a listed instance. -/
theorem instance_lifecycle (as : List Action) (L : Life) (hrun : run Life.step .init as = some L) :
    ∃ m, run Manager.step .init as = some m ∧
      (∀ k, m.active = some k → k ∈ m.nodes) ∧
      (∀ k, k ∈ m.nodes ↔ L.session k ≠ none ∨ L.ui k ≠ none) ∧
      m.erased.Nodup ∧ (∀ k ∈ m.erased, k ∉ m.nodes) ∧
      ∀ slot ∈ m.slots, slot.node ∈ m.nodes := by
  -- the manager simulates the lives, action by action
  have hstep : ∀ m L a L', Tracks m L → Life.step L a = some L' →
      ∃ m', Manager.step m a = some m' ∧ Tracks m' L' := fun _ _ _ _ h ha => h.step ha
  obtain ⟨m, hm, nodes, conn, hshape, howned, hactive⟩ :=
    run_simulates hstep as _ _ _ tracks_init hrun
  refine ⟨m, hm, ?_⟩
  rw [hshape.nodes_eq]
  refine ⟨fun k hk => ?_, fun k => ⟨howned k, hshape.owned k⟩, hshape.erased_nodup,
    hshape.erased_gone, fun slot hslot => ?_⟩
  · rw [hshape.active] at hk
    exact hshape.owned k (hactive k hk)
  · exact hshape.owned _ (.inr (by simp [((hshape.slots slot).mp hslot).1]))

/-- Two instances: the UI of the first closes while its session goes down on the spot, the session
    of the second outlives `close_all`. -/
theorem instance_lifecycle_reentered :
    ∃ m, run Manager.step .init
        [.attach 10, .attach 11, .setUi 0 5, .setUi 1 6, .raise .closed 5 0 fun _ => true,
         .closeAll fun _ => false, .destroySession 11] = some m ∧
      m.erased.Nodup := by
  obtain ⟨m, hm, _, _, herased, _⟩ := instance_lifecycle
    [.attach 10, .attach 11, .setUi 0 5, .setUi 1 6, .raise .closed 5 0 fun _ => true,
     .closeAll fun _ => false, .destroySession 11] _ rfl
  exact ⟨m, hm, herased⟩

end MicroProfiler.FrontendManager
