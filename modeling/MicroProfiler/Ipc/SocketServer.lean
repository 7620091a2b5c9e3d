/-
  `ipc/src/server_endpoint_sockets.cpp`: one thread that serves every session of a socket server.

  1. **The code** — `socket_handler::run` selects the sockets that can be read and goes through the
     list of handlers; `Server.visit` is what it does at one of them (`visited` are the handlers
     before its iterator).  A session is asked to go (`disconnect`) by writing its id to the
     auxiliary socket, which is one more handler of the list; the destructor writes 0 there.

  2. **Runs** — peers connect, send and close, sessions are disconnected and the server is destroyed
     at any point between two visits.  A word remembers who sent it; the code reads its value only.

  3. **What a visit comes to** (`visit_outcome`) — as long as `handle_aux` reads the ids of live
     sessions only.

  4. **The server outlives its sessions** (`server_outlives`) — in those runs.  Everything rests on
     the ids in flight (`Sound.notices`): each is that of the one handler it was sent for.
-/
import MicroProfiler.Lib.Keys
import MicroProfiler.Lib.Runs

namespace MicroProfiler.Ipc

/-- A connected socket; the one the server listens on is 0. -/
abbrev Socket := Nat

/-- Which function `socket_handler::handler` holds.  A connection is accepted by the first two,
    awaited to say what it is by the third, and served by the last; the fourth is that of the
    auxiliary connection. -/
inductive Kind where
  | acceptPreinit
  | acceptRegular
  | preinit
  | aux
  | session
  deriving DecidableEq, Repr

/-- `class socket_handler`, but for the session it owns, which no decision of the loop looks at. -/
structure SocketHandler where
  /-- what `disconnect` names it by -/
  id : Nat
  /-- what `select` knows it by -/
  socket : Socket
  /-- what is called -/
  handler : Kind
  deriving DecidableEq, Repr

/-- Who has put a word in flight.  The code does not see it; the proofs ask it who may have. -/
inductive Sender where
  | peer
  /-- `connect_aux` -/
  | startup
  /-- `socket_handler::disconnect` of the handler of a socket -/
  | session (socket : Socket)
  /-- `~server` -/
  | destructor
  deriving DecidableEq, Repr

/-- What can be received: a word, with the payload it is the size of where a session sends it; or
    that the peer has closed. -/
inductive Item where
  | word (value : Nat) (sender : Sender)
  | closed
  deriving DecidableEq, Repr

/-- What the code sees of an item. -/
def Item.value : Item → Option Nat
  | .word value _ => some value
  | .closed => none

/-- Why the processing loop has ended. -/
inductive Reason where
  /-- `handle_aux` has returned `exit` on what it read. -/
  | exit (read : Item)
  /-- An exception. -/
  | failed
  /-- `select` has returned an error. -/
  | notSelected
  /-- A handler has been erased while it runs: the behaviour is undefined. -/
  | undefined
  deriving DecidableEq, Repr

/-- Where the processing thread is. -/
inductive Phase where
  | selecting
  /-- In the loop over the handlers, with the sockets `select` has found. -/
  | pass (ready : List Socket)
  | ended (reason : Reason)
  deriving DecidableEq, Repr

/-- `class server`, with what its sockets hold.  `_handlers` is `visited` and `rest`. -/
structure Server where
  /-- `_next_id` -/
  nextId : Nat
  /-- `_aux_socket`, the server's end of its auxiliary connection -/
  auxSocket : Socket
  /-- the handlers that the iterator has passed, -/
  visited : List SocketHandler
  /-- and those from it on -/
  rest : List SocketHandler
  phase : Phase
  /-- Connections that are not accepted yet. -/
  backlog : List Socket
  /-- what can be received, by socket -/
  inbox : Socket → List Item
  /-- The number of sockets so far. -/
  sockets : Nat
  /-- What was passed to the sessions' `message`. -/
  delivered : List (Socket × Nat)
  /-- the destructor has begun -/
  destroyed : Bool

/-- What the server itself sends over its auxiliary connection to make it known. -/
def initMagic : Nat := 0xFFFFFFFE

namespace Server

/-- `_handlers`, whatever the iterator stands at. -/
def handlers (s : Server) : List SocketHandler := s.visited ++ s.rest

/-- The constructor; `early` peers have connected since `listen` and before `connect_aux` did, so
    that the auxiliary connection is not the first in the backlog in general. -/
def new (early : Nat) : Server where
  nextId := 101
  auxSocket := early + 1
  visited := []
  rest := [⟨100, 0, .acceptPreinit⟩]
  phase := .selecting
  backlog := List.range' 1 (early + 1)
  inbox := fun c => if c = early + 1 then [.word initMagic .startup] else []
  sockets := early + 2
  delivered := []
  destroyed := false

/-- `select` finds a socket that has something to be read, or a connection to be accepted. -/
def Ready (s : Server) (socket : Socket) : Prop :=
  if socket = 0 then s.backlog ≠ [] else s.inbox socket ≠ []

instance (s : Server) (socket : Socket) : Decidable (s.Ready socket) := by
  unfold Ready
  infer_instance

/-- `select` blocks until there is one. -/
def select (s : Server) (fails : Bool) : Option Server :=
  let ready := (s.handlers.map SocketHandler.socket).filter fun c => s.Ready c
  if s.phase = .selecting then
    -- the loop is left on an error
    if fails then some { s with phase := .ended .notSelected }
    else if ready = [] then none
    else some { s with phase := .pass ready }
  else none

/-- `recv` of the item at the front. -/
def receive (s : Server) (socket : Socket) : Server :=
  { s with inbox := Function.update s.inbox socket (s.inbox socket).tail }

/-- `++i`, with what is behind the iterator then. -/
def proceed (s : Server) (h : SocketHandler) (rest : List SocketHandler) : Server :=
  { s with visited := s.visited ++ [h], rest := rest }

/-- `accept_preinit` and `accept_regular`, and the handler the new connection gets, at the end of
    the list.  Ids are of 32 bits, and wrap. -/
def accept (s : Server) (kind : Kind) (throws : Bool) (h : SocketHandler)
    (rest : List SocketHandler) : Option Server :=
  match s.backlog with
  | [] => none
  | connection :: backlog =>
    -- the connection is closed as the stack is unwound
    if throws then some { s with backlog := backlog, phase := .ended .failed }
    else
      some ({ s with backlog := backlog, nextId := (s.nextId + 1) % 0x100000000 }.proceed h
        (rest ++ [SocketHandler.mk s.nextId connection kind]))

/-- The handler each handler gets once the auxiliary connection is known, judged by its socket. -/
def initialise (first aux : Socket) (h : SocketHandler) : SocketHandler :=
  if h.socket = first then { h with handler := .acceptRegular }
  else if h.socket = aux then { h with handler := .aux }
  else { h with handler := .session }

/-- Handlers are recognised by their ids and sockets, which stay. -/
@[simp] theorem initialise_id (first aux : Socket) (h : SocketHandler) :
    (initialise first aux h).id = h.id := by
  unfold initialise
  split
  · rfl
  · split <;> rfl

@[simp] theorem initialise_socket (first aux : Socket) (h : SocketHandler) :
    (initialise first aux h).socket = h.socket := by
  unfold initialise
  split
  · rfl
  · split <;> rfl

/-- The first handler of the list goes on accepting, and no other does. -/
theorem initialise_acceptor {aux : Socket} {h : SocketHandler} :
    h.socket = 0 ↔ (initialise 0 aux h).handler = .acceptPreinit ∨
      (initialise 0 aux h).handler = .acceptRegular := by
  unfold initialise
  split
  · next hfirst => simp [hfirst]
  · next hfirst => split <;> simp [hfirst]

/-- One handler at most becomes that of the auxiliary connection. -/
theorem initialise_aux {first aux : Socket} {h : SocketHandler}
    (hkind : (initialise first aux h).handler = .aux) : h.socket = aux := by
  unfold initialise at hkind
  split at hkind
  · cases hkind
  · split at hkind
    · next haux => exact haux
    · cases hkind

/-- The sessions' handlers are others. -/
theorem initialise_session {first aux : Socket} {h : SocketHandler}
    (hkind : (initialise first aux h).handler = .session) : h.socket ≠ aux := by
  unfold initialise at hkind
  split at hkind
  · cases hkind
  · split at hkind
    · cases hkind
    · next haux => exact haux

/-- `handle_preinit`: anything but the magic word is left to be read by the handler this one
    becomes. -/
def handlePreinit (s : Server) (throws : Bool) (h : SocketHandler) (rest : List SocketHandler) :
    Option Server :=
  match s.inbox h.socket with
  | [] => none
  | item :: _ =>
    -- it is peeked at, and received only then
    if item.value = some initMagic then
      if throws then some { s.receive h.socket with phase := .ended .failed }
      else
        let turn := initialise (((s.visited ++ [h]).map SocketHandler.socket).headD 0) h.socket
        some ({ s.receive h.socket with visited := s.visited.map turn }.proceed (turn h)
          (rest.map turn))
    else some (s.proceed h rest)

/-- A message is an item: it is received whole.  In the code `recv` waits for all of it
    (`MSG_WAITALL`), so a peer that stalls inside a message holds the loop until it goes on or
    closes. -/
def handleSession (s : Server) (throws : Bool) (h : SocketHandler) (rest : List SocketHandler) :
    Option Server :=
  match s.inbox h.socket with
  | [] => none
  | .word value _ :: _ =>
    if throws then some { s.receive h.socket with phase := .ended .failed }
    else
      some ({ s.receive h.socket with
        delivered := s.delivered ++ [(h.socket, value)] }.proceed h rest)
  -- `remove_this`
  | .closed :: _ => some { s with rest := rest }

/-- `_handlers.erase`. -/
def without (g : SocketHandler) (hs : List SocketHandler) : List SocketHandler :=
  hs.filter fun h => h.socket ≠ g.socket

/-- `handle_aux`: the handler with the id that is read goes; an id that nobody has ends the loop,
    and so does 0, which is nobody's. -/
def handleAux (s : Server) (h : SocketHandler) (rest : List SocketHandler) : Option Server :=
  match s.inbox h.socket with
  | [] => none
  | item :: _ =>
    match (s.visited ++ h :: rest).find? fun g => item.value = some g.id with
    -- `exit`
    | none => some { s.receive h.socket with phase := .ended (.exit item) }
    | some g =>
      -- the handler that is running
      if g.socket = h.socket then some { s.receive h.socket with phase := .ended .undefined }
      else
        some ({ s.receive h.socket with visited := without g s.visited }.proceed h (without g rest))

/-- The call of a handler. -/
def handle (s : Server) (throws : Bool) (h : SocketHandler) (rest : List SocketHandler) :
    Option Server :=
  match h.handler with
  | .acceptPreinit => s.accept .preinit throws h rest
  | .acceptRegular => s.accept .session throws h rest
  | .preinit => s.handlePreinit throws h rest
  | .aux => s.handleAux h rest
  | .session => s.handleSession throws h rest

/-- One round of the loop over the handlers; `throws` says whether a call out of the server fails:
    `accept`, `setup_socket`, `create_session`, the session's `message` or the allocation of what it
    is passed. -/
def visit (s : Server) (throws : Bool) : Option Server :=
  match s.phase, s.rest with
  | .pass _, [] => some { s with visited := [], rest := s.visited, phase := .selecting }
  | .pass ready, h :: rest =>
    if h.socket ∈ ready then s.handle throws h rest else some (s.proceed h rest)
  | _, _ => none

end Server

/-- What can happen next. -/
inductive Event where
  /-- A peer connects, -/
  | connect
  /-- sends, -/
  | send (socket : Socket) (size : Nat)
  /-- or closes. -/
  | close (socket : Socket)
  /-- A session is asked to go. -/
  | disconnect (socket : Socket)
  /-- `~server` -/
  | destroy
  /-- The loop waits for something to be read, -/
  | select (fails : Bool)
  /-- and goes through its handlers. -/
  | visit (throws : Bool)
  deriving DecidableEq, Repr

namespace Server

/-- Something comes in. -/
def post (s : Server) (socket : Socket) (item : Item) : Server :=
  { s with inbox := Function.update s.inbox socket (s.inbox socket ++ [item]) }

/-- A peer sends on a connection of its own until it closes it; a session is disconnected while its
    handler is there; and the server is destroyed once. -/
def Possible (s : Server) : Event → Prop
  | .send c _ | .close c => c ≠ 0 ∧ c ≠ s.auxSocket ∧ c < s.sockets ∧ .closed ∉ s.inbox c
  | .disconnect c => ∃ h ∈ s.handlers, h.socket = c ∧ h.handler = .session
  | .destroy => s.destroyed = false
  | _ => True

instance (s : Server) (e : Event) : Decidable (s.Possible e) := by
  cases e <;> unfold Possible <;> infer_instance

/-- What the event does, where it is possible. -/
def perform (s : Server) : Event → Option Server
  | .connect => some { s with backlog := s.backlog ++ [s.sockets], sockets := s.sockets + 1 }
  | .send c size => some (s.post c (.word size .peer))
  | .close c => some (s.post c .closed)
  | .disconnect c =>
      (s.handlers.find? fun h => h.socket = c).map fun h =>
        s.post s.auxSocket (.word h.id (.session c))
  | .destroy => some { s.post s.auxSocket (.word 0 .destructor) with destroyed := true }
  | .select fails => s.select fails
  | .visit throws => s.visit throws

/-- One step of the server or of those around it. -/
def step (s : Server) (e : Event) : Option Server :=
  if s.Possible e then s.perform e else none

/-! ## The condition -/

/-- The handler that is about to be called. -/
def next (s : Server) : Option SocketHandler :=
  match s.phase, s.rest with
  | .pass ready, h :: _ => if h.socket ∈ ready then some h else none
  | _, _ => none

/-- The call of the handler is one the server is made for: a connection gets an id of its own, it is
    the auxiliary connection that sends the magic word first, and AN ID READ FROM IT IS THAT OF A
    HANDLER STILL IN THE LIST. -/
def Safe (s : Server) (h : SocketHandler) : Prop :=
  match h.handler, (s.inbox h.socket).head? with
  | .acceptPreinit, _ | .acceptRegular, _ =>
      s.nextId ≠ 0 ∧ s.nextId ∉ s.handlers.map SocketHandler.id ∧
        ∀ item ∈ s.inbox s.auxSocket, item.value ≠ some s.nextId
  | .preinit, some item => item.value = some initMagic → h.socket = s.auxSocket
  | .aux, some (.word _ (.session c)) => c ∈ s.handlers.map SocketHandler.socket
  | _, _ => True

instance (s : Server) (h : SocketHandler) : Decidable (s.Safe h) := by
  unfold Safe
  split <;> infer_instance

/-- ... and nothing the server calls fails.  It is judged on the state before the step. -/
def Meets (s : Server) : Event → Prop
  | .select fails => fails = false
  | .visit throws => throws = false ∧ ∀ h ∈ s.next, s.Safe h
  | _ => True

instance (s : Server) (e : Event) : Decidable (s.Meets e) := by
  cases e <;> unfold Meets <;> infer_instance

/-- A step that meets the condition. -/
def guarded (s : Server) (e : Event) : Option Server := if s.Meets e then s.step e else none

/-! ## The invariant -/

/-- Every handler has an id and a socket of its own, and a connection waits in one place: in the
    backlog, or at its handler. -/
structure Named (s : Server) : Prop where
  /-- `disconnect` names one handler -/
  ids : (s.handlers.map SocketHandler.id).Nodup
  /-- `select` knows one by each socket -/
  sockets : (s.handlers.map SocketHandler.socket ++ s.backlog).Nodup
  /-- sockets are numbered in order -/
  known : ∀ c ∈ s.handlers.map SocketHandler.socket ++ s.backlog, c < s.sockets
  auxKnown : s.auxSocket < s.sockets
  /-- 0 is the destructor's -/
  id_ne_zero : ∀ h ∈ s.handlers, h.id ≠ 0

/-- Who has which handler: the listening socket comes first and is the only one with an acceptor;
    the auxiliary connection never gets a session's handler. -/
structure Typed (s : Server) : Prop where
  /-- the listening socket is at the front, -/
  first : (s.handlers.map SocketHandler.socket).head? = some 0
  /-- with an acceptor, and no other has one -/
  acceptor : ∀ h ∈ s.handlers,
    h.socket = 0 ↔ h.handler = .acceptPreinit ∨ h.handler = .acceptRegular
  /-- `handle_aux` is called for the auxiliary connection, -/
  aux : ∀ h ∈ s.handlers, h.handler = .aux → h.socket = s.auxSocket
  /-- and sessions are others -/
  session : ∀ h ∈ s.handlers, h.handler = .session → h.socket ≠ s.auxSocket
  /-- once connections are accepted as sessions the auxiliary one is not among them -/
  regular : ∀ h ∈ s.handlers, h.handler = .acceptRegular → s.auxSocket ∉ s.backlog

/-- What is in flight on the auxiliary socket: the server's own words, each session's id for that
    session only. -/
structure Wired (s : Server) : Prop where
  /-- a session's id is in flight for that session, which is not in the backlog any more -/
  notices : ∀ id c, .word id (.session c) ∈ s.inbox s.auxSocket → c ≠ 0 ∧ c ≠ s.auxSocket ∧
    c < s.sockets ∧ c ∉ s.backlog ∧ ∀ h ∈ s.handlers, h.id = id ↔ h.socket = c
  /-- the destructor sends 0, the id of no handler -/
  shutdown : ∀ id, .word id .destructor ∈ s.inbox s.auxSocket → id = 0
  /-- nobody else writes there -/
  own : ∀ item ∈ s.inbox s.auxSocket, item ≠ .closed ∧ ∀ value, item ≠ .word value .peer
  /-- The magic word is at the front until it is read. -/
  magic : ∀ item ∈ (s.inbox s.auxSocket).tail, ∀ value, item ≠ .word value .startup
  /-- it is read once -/
  magicRead : ∀ h ∈ s.handlers, h.handler = .aux →
    ∀ item ∈ s.inbox s.auxSocket, ∀ value, item ≠ .word value .startup

/-- What `select` has found is still there for the handlers not visited yet, since only a handler
    reads from its socket. -/
structure InPass (s : Server) : Prop where
  /-- a pass begins at the front -/
  selecting : s.phase = .selecting → s.visited = []
  /-- what `select` has found was a handler's then -/
  old : ∀ ready, s.phase = .pass ready → ∀ c ∈ ready, c < s.sockets ∧ c ∉ s.backlog
  /-- and is still to be read, for those behind the iterator -/
  ready : ∀ ready, s.phase = .pass ready → ∀ h ∈ s.rest, h.socket ∈ ready → s.Ready h.socket
  /-- the one way for the loop to end -/
  ended : ∀ reason, s.phase = .ended reason → reason = .exit (.word 0 .destructor)

/-- The INVARIANT of the runs that meet the condition. -/
structure Sound (s : Server) : Prop where
  /-- ids and sockets -/
  named : Named s
  /-- functions -/
  typed : Typed s
  /-- words in flight -/
  wired : Wired s
  /-- the iterator -/
  inPass : InPass s

/-! ## What a visit comes to -/

/-- Going on in the list loses no handler. -/
theorem handlers_proceed (s : Server) (h : SocketHandler) (rest : List SocketHandler) :
    (s.proceed h rest).handlers = s.visited ++ h :: rest := by
  show (s.visited ++ [h]) ++ rest = _
  rw [List.append_assoc, List.singleton_append]

/-- One item is received, at the front. -/
theorem inbox_receive_self (s : Server) (c : Socket) :
    (s.receive c).inbox c = (s.inbox c).tail := Function.update_self ..

/-- The other sockets are not read. -/
theorem inbox_receive_of_ne (s : Server) {c d : Socket} (h : d ≠ c) :
    (s.receive c).inbox d = s.inbox d := Function.update_of_ne h ..

/-- What comes in is read last. -/
theorem inbox_post_self (s : Server) (c : Socket) (item : Item) :
    (s.post c item).inbox c = s.inbox c ++ [item] := Function.update_self ..

/-- The other sockets get nothing. -/
theorem inbox_post_of_ne (s : Server) {c d : Socket} (h : d ≠ c) (item : Item) :
    (s.post c item).inbox d = s.inbox d := Function.update_of_ne h ..

/-- A visit that meets the condition, by what it does to the server; the hypotheses of a case are
    what is known when it is taken. -/
inductive Visits (s : Server) : Server → Prop
  | finished (hrest : s.rest = []) :
      Visits s { s with visited := [], rest := s.visited, phase := .selecting }
  | passed {h rest} (hrest : s.rest = h :: rest)
      (hidle : h.handler = .session → ∀ ready, s.phase = .pass ready → h.socket ∉ ready) :
      Visits s (s.proceed h rest)
  | accepted {h rest connection backlog} {kind : Kind} (hrest : s.rest = h :: rest)
      (hsocket : h.socket = 0) (hbacklog : s.backlog = connection :: backlog)
      (hkind : kind = .preinit ∨ kind = .session ∧ s.auxSocket ∉ s.backlog)
      (hzero : s.nextId ≠ 0) (hlive : s.nextId ∉ s.handlers.map SocketHandler.id)
      (hflight : ∀ item ∈ s.inbox s.auxSocket, item.value ≠ some s.nextId) :
      Visits s ({ s with backlog := backlog, nextId := (s.nextId + 1) % 0x100000000 }.proceed h
        (rest ++ [SocketHandler.mk s.nextId connection kind]))
  | initialised {h rest} (hrest : s.rest = h :: rest) (hsocket : h.socket = s.auxSocket) :
      Visits s ({ s.receive s.auxSocket with
          visited := s.visited.map (initialise 0 s.auxSocket) }.proceed
        (initialise 0 s.auxSocket h) (rest.map (initialise 0 s.auxSocket)))
  | notified {h rest g} (hrest : s.rest = h :: rest) (hsocket : h.socket = s.auxSocket)
      (hitem : (s.inbox s.auxSocket).head? = some (.word g.id (.session g.socket)))
      (hg : g ∈ s.handlers) (hzero : g.socket ≠ 0) (haux : g.socket ≠ s.auxSocket) :
      Visits s ({ s.receive s.auxSocket with visited := without g s.visited }.proceed h
        (without g rest))
  | stopped (hitem : (s.inbox s.auxSocket).head? = some (.word 0 .destructor)) :
      Visits s { s.receive s.auxSocket with phase := .ended (.exit (.word 0 .destructor)) }
  | served {h rest value sender} (hrest : s.rest = h :: rest) (hkind : h.handler = .session)
      (hitem : (s.inbox h.socket).head? = some (.word value sender)) :
      Visits s ({ s.receive h.socket with
        delivered := s.delivered ++ [(h.socket, value)] }.proceed h rest)
  | left {h rest} (hrest : s.rest = h :: rest) (hkind : h.handler = .session)
      (hitem : (s.inbox h.socket).head? = some .closed) : Visits s { s with rest := rest }

section

variable {s : Server} {h : SocketHandler} {rest : List SocketHandler}

/-- Both acceptors: there is a connection in the backlog, or `select` would not have found the
    socket. -/
theorem accept_visits {kind : Kind} (hrest : s.rest = h :: rest) (hsocket : h.socket = 0)
    (hready : s.Ready h.socket) (hkind : kind = .preinit ∨ kind = .session ∧ s.auxSocket ∉ s.backlog)
    (hfresh : s.nextId ≠ 0 ∧ s.nextId ∉ s.handlers.map SocketHandler.id ∧
      ∀ item ∈ s.inbox s.auxSocket, item.value ≠ some s.nextId) :
    ∃ s', s.accept kind false h rest = some s' ∧ Visits s s' := by
  rw [Ready, if_pos hsocket] at hready
  unfold accept
  cases hbacklog : s.backlog with
  | nil => exact absurd hbacklog hready
  | cons connection backlog =>
    exact ⟨_, rfl, .accepted hrest hsocket hbacklog hkind hfresh.1 hfresh.2.1 hfresh.2.2⟩

/-- Only `handle_preinit` leaves what it finds.  By the condition the magic word comes from the
    auxiliary connection, and the first handler of the list is the acceptor. -/
theorem handlePreinit_visits (hs : Sound s) (hrest : s.rest = h :: rest)
    (hkind : h.handler = .preinit) (hitems : s.inbox h.socket ≠ []) (hsafe : s.Safe h) :
    ∃ s', s.handlePreinit false h rest = some s' ∧ Visits s s' := by
  unfold handlePreinit
  cases hinbox : s.inbox h.socket with
  | nil => exact absurd hinbox hitems
  | cons item tail =>
    unfold Safe at hsafe
    rw [hkind, hinbox] at hsafe
    by_cases hmagic : item.value = some initMagic
    · -- the auxiliary connection has spoken
      have hsocket : h.socket = s.auxSocket := hsafe hmagic
      have hfirst : ((s.visited ++ [h]).map SocketHandler.socket).headD 0 = 0 := by
        have hhead := hs.typed.first
        rw [handlers, hrest, List.append_cons, List.map_append] at hhead
        cases hvisited : s.visited with
        | nil =>
          rw [hvisited] at hhead
          exact Option.some.inj hhead
        | cons g visited =>
          rw [hvisited] at hhead
          exact Option.some.inj hhead
      simp only [if_pos hmagic, hfirst, hsocket]
      exact ⟨_, rfl, .initialised hrest hsocket⟩
    · -- somebody else has: nothing is done until the auxiliary connection is known
      simp only [if_neg hmagic]
      refine ⟨_, rfl, .passed hrest fun hsession => ?_⟩
      rw [hkind] at hsession
      cases hsession

/-- A session reads a message, or that its peer has closed. -/
theorem handleSession_visits (hrest : s.rest = h :: rest) (hkind : h.handler = .session)
    (hitems : s.inbox h.socket ≠ []) :
    ∃ s', s.handleSession false h rest = some s' ∧ Visits s s' := by
  unfold handleSession
  cases hinbox : s.inbox h.socket with
  | nil => exact absurd hinbox hitems
  | cons item tail =>
    have hitem : (s.inbox h.socket).head? = some item := by rw [hinbox]; rfl
    cases item with
    | word value sender => exact ⟨_, rfl, .served hrest hkind hitem⟩
    | closed => exact ⟨_, rfl, .left hrest hkind hitem⟩

/-- **`handle_aux`**: the handler with the id is the one of the session that asked for it.  By cases
    on what is in flight: the server's own words only, of which the magic one has been read. -/
theorem handleAux_visits (hs : Sound s) (hrest : s.rest = h :: rest) (hkind : h.handler = .aux)
    (hitems : s.inbox h.socket ≠ []) (hsafe : s.Safe h) :
    ∃ s', s.handleAux h rest = some s' ∧ Visits s s' := by
  have hlist : s.visited ++ h :: rest = s.handlers := by rw [handlers, hrest]
  have hmem : h ∈ s.handlers := hlist ▸ List.mem_append_right _ List.mem_cons_self
  have hsocket := hs.typed.aux h hmem hkind
  unfold handleAux
  unfold Safe at hsafe
  rw [hlist]
  rw [hsocket] at hitems ⊢
  rw [hkind, hsocket] at hsafe
  cases hinbox : s.inbox s.auxSocket with
  | nil => exact absurd hinbox hitems
  | cons item tail =>
    have hitem : (s.inbox s.auxSocket).head? = some item := by rw [hinbox]; rfl
    have hin : item ∈ s.inbox s.auxSocket := by rw [hinbox]; exact List.mem_cons_self
    rw [hitem] at hsafe
    cases item with
    | closed => exact absurd rfl (hs.wired.own _ hin).1
    | word id sender =>
      cases sender with
      | peer => exact absurd rfl ((hs.wired.own _ hin).2 id)
      | startup => exact absurd rfl (hs.wired.magicRead h hmem hkind _ hin id)
      | destructor =>
        -- 0 is the id of no handler, so the search fails
        obtain rfl := hs.wired.shutdown id hin
        have hnone : s.handlers.find? (fun g => Item.value (.word 0 .destructor) = some g.id) =
            none := by
          rw [List.find?_eq_none]
          intro g hg hid
          exact hs.named.id_ne_zero g hg (Option.some.inj (of_decide_eq_true hid)).symm
        simp only [hnone]
        exact ⟨_, rfl, .stopped hitem⟩
      | session c =>
        -- the condition: the session's handler is still in the list
        obtain ⟨hzero, haux, _, _, hnamed⟩ := hs.wired.notices id c hin
        obtain ⟨g, hg, hgc⟩ := List.mem_map.mp hsafe
        have hfind : s.handlers.find? (fun g => Item.value (.word id (.session c)) = some g.id) =
            some g := by
          refine Lib.find?_of_unique hg
            (decide_eq_true (congrArg some ((hnamed g hg).mpr hgc).symm)) fun f hf hid => ?_
          -- another handler with the id would have its socket
          have hfc := (hnamed f hf).mp (Option.some.inj (of_decide_eq_true hid)).symm
          exact List.inj_on_of_nodup_map hs.named.sockets.of_append_left hf hg (hfc.trans hgc.symm)
        subst hgc
        obtain rfl : g.id = id := (hnamed g hg).mpr rfl
        simp only [hfind, if_neg haux]
        exact ⟨_, rfl, .notified hrest hsocket hitem hg hzero haux⟩

end

/-- **A visit that meets the condition returns**, and this is what it does.  By cases on the handler
    the iterator stands at; the one `select` has found readable has something to read, by `InPass`.
    -/
theorem visit_outcome {s : Server} (hs : Sound s) {throws : Bool} (hmeets : s.Meets (.visit throws))
    {ready : List Socket} (hphase : s.phase = .pass ready) :
    ∃ s', s.visit throws = some s' ∧ Visits s s' := by
  obtain ⟨rfl, hsafe⟩ := hmeets
  unfold next at hsafe
  unfold visit
  rw [hphase] at hsafe ⊢
  cases hrest : s.rest with
  | nil => exact ⟨_, rfl, .finished hrest⟩
  | cons h rest =>
    rw [hrest] at hsafe
    by_cases hin : h.socket ∈ ready
    · -- it is called
      simp only [if_pos hin] at hsafe ⊢
      have hsafe : s.Safe h := hsafe h rfl
      have hmem : h ∈ s.handlers := List.mem_append_right _ (hrest ▸ List.mem_cons_self)
      have hready := hs.inPass.ready ready hphase h (hrest ▸ List.mem_cons_self) hin
      have hacceptor := hs.typed.acceptor h hmem
      have hitems : ¬ (h.handler = .acceptPreinit ∨ h.handler = .acceptRegular) →
          s.inbox h.socket ≠ [] := fun hno => by
        rwa [Ready, if_neg fun hzero => hno (hacceptor.mp hzero)] at hready
      unfold handle
      cases hkind : h.handler with
      | acceptPreinit =>
        have hsocket := hacceptor.mpr (.inl hkind)
        simp only [Safe, hkind] at hsafe
        exact accept_visits hrest hsocket hready (.inl rfl) hsafe
      | acceptRegular =>
        have hsocket := hacceptor.mpr (.inr hkind)
        simp only [Safe, hkind] at hsafe
        exact accept_visits hrest hsocket hready (.inr ⟨rfl, hs.typed.regular h hmem hkind⟩) hsafe
      | preinit => exact handlePreinit_visits hs hrest hkind (hitems (by simp [hkind])) hsafe
      | aux => exact handleAux_visits hs hrest hkind (hitems (by simp [hkind])) hsafe
      | session => exact handleSession_visits hrest hkind (hitems (by simp [hkind]))
    · -- it is passed over
      simp only [if_neg hin]
      refine ⟨_, rfl, .passed hrest fun _ ready' hready' => ?_⟩
      rw [hphase] at hready'
      cases hready'
      exact hin

/-! ## What steps keep -/

/-- Nothing comes but items, and those not to the auxiliary socket; a handler may go, and the word
    at its front.  Most visits are of this kind, and each part of the invariant is shown once for
    all of them. -/
structure Shrinks (s s' : Server) : Prop where
  /-- nothing changes of these three -/
  aux : s'.auxSocket = s.auxSocket
  backlog : s'.backlog = s.backlog
  sockets : s'.sockets = s.sockets
  /-- handlers may go, but not the acceptor -/
  handlers : ∃ p : SocketHandler → Bool, (∀ h, h.socket = 0 → p h = true) ∧
    s'.handlers = s.handlers.filter p
  /-- the word at the front may have been read -/
  inbox : s'.inbox s.auxSocket = s.inbox s.auxSocket ∨
    s'.inbox s.auxSocket = (s.inbox s.auxSocket).tail

section

variable {s s' : Server}

/-- The handlers stay. -/
theorem Shrinks.of_handlers (haux : s'.auxSocket = s.auxSocket) (hbacklog : s'.backlog = s.backlog)
    (hsockets : s'.sockets = s.sockets) (hhandlers : s'.handlers = s.handlers)
    (hinbox : s'.inbox s.auxSocket = s.inbox s.auxSocket ∨
      s'.inbox s.auxSocket = (s.inbox s.auxSocket).tail) : Shrinks s s' :=
  ⟨haux, hbacklog, hsockets, ⟨fun _ => true, fun _ _ => rfl, by rw [hhandlers, List.filter_true]⟩,
    hinbox⟩

/-- No handler comes. -/
theorem Shrinks.mem (hshrinks : Shrinks s s') {h : SocketHandler} (hin : h ∈ s'.handlers) :
    h ∈ s.handlers := by
  obtain ⟨p, _, hfilter⟩ := hshrinks.handlers
  rw [hfilter] at hin
  exact List.mem_of_mem_filter hin

/-- Fewer names are as different. -/
theorem Shrinks.named (hshrinks : Shrinks s s') (h : Named s) : Named s' := by
  have hmem : ∀ g ∈ s'.handlers, g ∈ s.handlers := fun _ => hshrinks.mem
  obtain ⟨haux, hbacklog, hsockets, ⟨p, _, hfilter⟩, _⟩ := hshrinks
  -- what is left is a part of what was there, in order
  have hsub : s'.handlers.Sublist s.handlers := hfilter ▸ List.filter_sublist
  have hsub' : (s'.handlers.map SocketHandler.socket ++ s'.backlog).Sublist
      (s.handlers.map SocketHandler.socket ++ s.backlog) :=
    hbacklog ▸ (hsub.map _).append_right _
  refine ⟨h.ids.sublist (hsub.map _), h.sockets.sublist hsub', ?_, ?_, ?_⟩
  · intro c hc
    rw [hsockets]
    exact h.known c (hsub'.subset hc)
  · rw [haux, hsockets]
    exact h.auxKnown
  · intro g hg
    exact h.id_ne_zero g (hmem g hg)

/-- The acceptor at the front is not among those that go. -/
theorem Shrinks.typed (hshrinks : Shrinks s s') (h : Typed s) : Typed s' := by
  have hmem : ∀ g ∈ s'.handlers, g ∈ s.handlers := fun _ => hshrinks.mem
  obtain ⟨haux, hbacklog, _, ⟨p, hp, hfilter⟩, _⟩ := hshrinks
  constructor
  · have hfirst := h.first
    rw [hfilter]
    cases hhandlers : s.handlers with
    | nil => rw [hhandlers] at hfirst; cases hfirst
    | cons g handlers =>
      rw [hhandlers] at hfirst
      rw [List.filter_cons_of_pos (hp g (Option.some.inj hfirst))]
      exact hfirst
  · intro g hg
    exact h.acceptor g (hmem g hg)
  · intro g hg
    rw [haux]
    exact h.aux g (hmem g hg)
  · intro g hg
    rw [haux]
    exact h.session g (hmem g hg)
  · intro g hg
    rw [haux, hbacklog]
    exact h.regular g (hmem g hg)

/-- Fewer words are in flight, and those concern fewer handlers. -/
theorem Shrinks.wired (hshrinks : Shrinks s s') (h : Wired s) : Wired s' := by
  have hmem : ∀ g ∈ s'.handlers, g ∈ s.handlers := fun _ => hshrinks.mem
  obtain ⟨haux, hbacklog, hsockets, _, hinbox⟩ := hshrinks
  -- what is in flight was in flight
  have hitems : ∀ item ∈ s'.inbox s.auxSocket, item ∈ s.inbox s.auxSocket := by
    intro item hitem
    rcases hinbox with hsame | htail
    · exact hsame ▸ hitem
    · exact List.mem_of_mem_tail (htail ▸ hitem)
  have hlater : ∀ item ∈ (s'.inbox s.auxSocket).tail, item ∈ (s.inbox s.auxSocket).tail := by
    intro item hitem
    rcases hinbox with hsame | htail
    · exact hsame ▸ hitem
    · exact List.mem_of_mem_tail (htail ▸ hitem)
  constructor <;> rw [haux]
  · intro id c hin
    obtain ⟨hzero, hne, hlt, hwaits, hnamed⟩ := h.notices id c (hitems _ hin)
    rw [hsockets, hbacklog]
    exact ⟨hzero, hne, hlt, hwaits, fun g hg => hnamed g (hmem g hg)⟩
  · intro id hin
    exact h.shutdown id (hitems _ hin)
  · intro item hin
    exact h.own item (hitems _ hin)
  · intro item hin
    exact h.magic item (hlater _ hin)
  · intro g hg hkind item hin
    exact h.magicRead g (hmem g hg) hkind item (hitems _ hin)

/-- The sockets of the handlers before, at and behind the iterator differ. -/
theorem Named.socket_ne (hs : Named s) {h : SocketHandler} {rest : List SocketHandler}
    (hrest : s.rest = h :: rest) {g : SocketHandler} (hg : g ∈ s.visited ∨ g ∈ rest) :
    g.socket ≠ h.socket := by
  have hnodup := hs.sockets.of_append_left
  rw [handlers, hrest, List.map_append, List.map_cons] at hnodup
  rcases hg with hg | hg
  · intro heq
    refine List.disjoint_of_nodup_append hnodup (List.mem_map_of_mem hg) ?_
    rw [heq]
    exact List.mem_cons_self
  · intro heq
    refine (List.nodup_cons.mp hnodup.of_append_right).1 ?_
    rw [← heq]
    exact List.mem_map_of_mem hg

/-- **The iterator moves on**: what the visit received was the visited handler's own, so what
    `select` has found for those behind it is still there. -/
theorem InPass.advance {h : SocketHandler} {rest : List SocketHandler} {ready : List Socket}
    (hs : Sound s) (hphase : s.phase = .pass ready) (hphase' : s'.phase = s.phase)
    (hrest : s.rest = h :: rest)
    (hrest' : ∀ g ∈ s'.rest, g.socket ∈ rest.map SocketHandler.socket ∨ g.socket ∉ ready)
    (hsockets : s'.sockets = s.sockets) (hbacklog : ∀ c ∈ s'.backlog, c ∈ s.backlog)
    (hunaccepted : h.socket ≠ 0 → s'.backlog = s.backlog)
    (hinbox : ∀ c, c ≠ h.socket → s'.inbox c = s.inbox c) : InPass s' where
  selecting := by
    intro hselecting
    rw [hphase', hphase] at hselecting
    cases hselecting
  old := by
    intro ready' hready c hc
    rw [hphase'] at hready
    obtain ⟨hlt, hno⟩ := hs.inPass.old ready' hready c hc
    exact ⟨hsockets ▸ hlt, fun hin => hno (hbacklog c hin)⟩
  ready := by
    intro ready' hready g hg hin
    rw [hphase', hphase] at hready
    cases hready
    obtain ⟨f, hf, heq⟩ := List.mem_map.mp ((hrest' g hg).resolve_right fun hno => hno hin)
    have hready := hs.inPass.ready ready hphase f (hrest ▸ List.mem_cons_of_mem _ hf) (heq ▸ hin)
    -- a handler behind is on another socket than the one that was read
    have hne := hs.named.socket_ne hrest (.inr hf)
    rw [heq] at hready hne
    unfold Ready at hready ⊢
    split
    · next hzero =>
      rw [if_pos hzero] at hready
      rwa [hunaccepted fun hh => hne (hzero.trans hh.symm)]
    · next hzero =>
      rw [if_neg hzero] at hready
      rwa [hinbox _ hne]
  ended := by
    intro reason hended
    rw [hphase', hphase] at hended
    cases hended

/-- **A connection is accepted**: its handler comes last, under an id that no handler has and no
    word in flight names. -/
structure Accepts (s : Server) (connection : Socket) (kind : Kind) (s' : Server) : Prop where
  /-- the first of the backlog -/
  waiting : s.backlog = connection :: s'.backlog
  /-- to say what it is, or a session when the auxiliary connection has left the backlog -/
  ordinary : kind = .preinit ∨ kind = .session ∧ s.auxSocket ∉ s.backlog
  /-- the id is not the destructor's, -/
  nonzero : s.nextId ≠ 0
  /-- no handler's, -/
  unused : s.nextId ∉ s.handlers.map SocketHandler.id
  /-- and not in flight -/
  unsent : ∀ item ∈ s.inbox s.auxSocket, item.value ≠ some s.nextId
  /-- it comes last -/
  handlers : s'.handlers = s.handlers ++ [⟨s.nextId, connection, kind⟩]
  /-- nothing else changes -/
  aux : s'.auxSocket = s.auxSocket
  sockets : s'.sockets = s.sockets
  inbox : s'.inbox = s.inbox

section Accepts

variable {connection : Socket} {kind : Kind} (hacc : Accepts s connection kind s')

include hacc

/-- The old handlers and the new one. -/
theorem Accepts.mem {h : SocketHandler} (hin : h ∈ s'.handlers) :
    h ∈ s.handlers ∨ h = ⟨s.nextId, connection, kind⟩ := by
  rw [hacc.handlers] at hin
  exact (List.mem_append.mp hin).imp_right List.mem_singleton.mp

/-- The connection was in the backlog. -/
theorem Accepts.waits : connection ∈ s.backlog := hacc.waiting ▸ List.mem_cons_self

/-- What waits on has waited. -/
theorem Accepts.backlog {c : Socket} (hc : c ∈ s'.backlog) : c ∈ s.backlog :=
  hacc.waiting ▸ List.mem_cons_of_mem _ hc

/-- The new handler is neither an acceptor nor that of the auxiliary connection. -/
theorem Accepts.kind_ne : kind ≠ .acceptPreinit ∧ kind ≠ .acceptRegular ∧ kind ≠ .aux := by
  rcases hacc.ordinary with rfl | ⟨rfl, _⟩ <;> decide

/-- Sockets are as many as before: the connection has changed its place. -/
theorem Accepts.named (hs : Named s) : Named s' := by
  have hmoved : s'.handlers.map SocketHandler.socket ++ s'.backlog =
      s.handlers.map SocketHandler.socket ++ s.backlog := by
    rw [hacc.handlers, hacc.waiting, List.map_append, List.append_cons]
    rfl
  constructor
  · rw [hacc.handlers, List.map_append]
    exact hs.ids.append (List.nodup_singleton _) (List.disjoint_singleton.mpr hacc.unused)
  · rw [hmoved]
    exact hs.sockets
  · rw [hmoved, hacc.sockets]
    exact hs.known
  · rw [hacc.aux, hacc.sockets]
    exact hs.auxKnown
  · intro h hin
    rcases hacc.mem hin with hin | rfl
    · exact hs.id_ne_zero h hin
    · exact hacc.nonzero

/-- Before the auxiliary connection is known the new handler awaits it; afterwards that connection
    has left the backlog, and a session's handler is right. -/
theorem Accepts.typed (hn : Named s) (hs : Typed s) : Typed s' := by
  obtain ⟨hpreinit, hregular, haux⟩ := hacc.kind_ne
  constructor
  · rw [hacc.handlers, List.map_append, List.head?_append, hs.first]
    rfl
  · intro h hin
    rcases hacc.mem hin with hin | rfl
    · exact hs.acceptor h hin
    · -- the listening socket is the acceptor's, so that it is in no backlog
      have hne : connection ≠ 0 := by
        rintro rfl
        exact List.disjoint_of_nodup_append hn.sockets (List.mem_of_mem_head? hs.first) hacc.waits
      exact ⟨fun heq => absurd heq hne, fun hkind => (hkind.elim hpreinit hregular).elim⟩
  · intro h hin hkind
    rw [hacc.aux]
    rcases hacc.mem hin with hin | rfl
    · exact hs.aux h hin hkind
    · exact absurd hkind haux
  · intro h hin hkind
    rw [hacc.aux]
    rcases hacc.mem hin with hin | rfl
    · exact hs.session h hin hkind
    · rcases hacc.ordinary with rfl | ⟨_, hno⟩
      · cases hkind
      · exact fun heq => hno (heq ▸ hacc.waits)
  · intro h hin hkind
    rw [hacc.aux]
    rcases hacc.mem hin with hin | rfl
    · exact fun hwaits => hs.regular h hin hkind (hacc.backlog hwaits)
    · exact absurd hkind hregular

/-- The words in flight name other handlers. -/
theorem Accepts.wired (hs : Wired s) : Wired s' := by
  constructor <;> rw [hacc.aux, hacc.inbox]
  · intro id c hin
    obtain ⟨hzero, hne, hlt, hwaits, hnamed⟩ := hs.notices id c hin
    refine ⟨hzero, hne, hacc.sockets ▸ hlt, fun hc => hwaits (hacc.backlog hc), fun h hh => ?_⟩
    rcases hacc.mem hh with hh | rfl
    · exact hnamed h hh
    · -- neither the id nor the socket of the new handler is the notice's
      constructor
      · rintro rfl
        exact absurd rfl (hacc.unsent _ hin)
      · rintro rfl
        exact absurd hacc.waits hwaits
  · exact hs.shutdown
  · exact hs.own
  · exact hs.magic
  · intro h hin hkind
    rcases hacc.mem hin with hin | rfl
    · exact hs.magicRead h hin hkind
    · exact absurd hkind hacc.kind_ne.2.2

end Accepts

/-- **The auxiliary connection is known**: every handler gets its own function, and the magic word
    is gone. -/
structure Initialises (s s' : Server) : Prop where
  /-- the auxiliary connection has its handler -/
  known : s.auxSocket ∈ s.handlers.map SocketHandler.socket
  /-- every handler gets its function -/
  handlers : s'.handlers = s.handlers.map (initialise 0 s.auxSocket)
  /-- nothing else changes, -/
  aux : s'.auxSocket = s.auxSocket
  backlog : s'.backlog = s.backlog
  sockets : s'.sockets = s.sockets
  /-- but that the magic word is read -/
  inbox : s'.inbox s.auxSocket = (s.inbox s.auxSocket).tail

section Initialises

variable (hinit : Initialises s s')

include hinit

/-- Handlers are those of before, with another function. -/
theorem Initialises.mem {g : SocketHandler} (hg : g ∈ s'.handlers) :
    ∃ f ∈ s.handlers, initialise 0 s.auxSocket f = g := by
  rw [hinit.handlers] at hg
  exact List.mem_map.mp hg

/-- On the same sockets. -/
theorem Initialises.map_socket :
    s'.handlers.map SocketHandler.socket = s.handlers.map SocketHandler.socket := by
  rw [hinit.handlers, List.map_map]
  exact List.map_congr_left fun g _ => initialise_socket ..

/-- Ids and sockets are as they were. -/
theorem Initialises.named (hs : Named s) : Named s' := by
  have hids : s'.handlers.map SocketHandler.id = s.handlers.map SocketHandler.id := by
    rw [hinit.handlers, List.map_map]
    exact List.map_congr_left fun g _ => initialise_id ..
  constructor
  · rw [hids]
    exact hs.ids
  · rw [hinit.map_socket, hinit.backlog]
    exact hs.sockets
  · rw [hinit.map_socket, hinit.backlog, hinit.sockets]
    exact hs.known
  · rw [hinit.aux, hinit.sockets]
    exact hs.auxKnown
  · intro g hg
    obtain ⟨f, hf, rfl⟩ := hinit.mem hg
    rw [initialise_id]
    exact hs.id_ne_zero f hf

/-- Each handler's function is decided by its socket, which is what the invariant asks. -/
theorem Initialises.typed (hn : Named s) (hs : Typed s) : Typed s' := by
  constructor
  · rw [hinit.map_socket]
    exact hs.first
  · intro g hg
    obtain ⟨f, _, rfl⟩ := hinit.mem hg
    rw [initialise_socket, initialise_acceptor]
  · intro g hg
    obtain ⟨f, _, rfl⟩ := hinit.mem hg
    rw [initialise_socket, hinit.aux]
    exact initialise_aux
  · intro g hg
    obtain ⟨f, _, rfl⟩ := hinit.mem hg
    rw [initialise_socket, hinit.aux]
    exact initialise_session
  · -- it has a handler, so that it is not in the backlog
    intro g _ _
    rw [hinit.aux, hinit.backlog]
    exact List.disjoint_of_nodup_append hn.sockets hinit.known

/-- The word that was read was the magic one, and there is no other. -/
theorem Initialises.wired (hs : Wired s) : Wired s' := by
  have hitems : ∀ item ∈ s'.inbox s.auxSocket, item ∈ (s.inbox s.auxSocket).tail :=
    fun _ hin => hinit.inbox ▸ hin
  constructor <;> rw [hinit.aux]
  · intro id c hin
    obtain ⟨hzero, hne, hlt, hwaits, hnamed⟩ :=
      hs.notices id c (List.mem_of_mem_tail (hitems _ hin))
    refine ⟨hzero, hne, hinit.sockets ▸ hlt, hinit.backlog ▸ hwaits, fun g hg => ?_⟩
    obtain ⟨f, hf, rfl⟩ := hinit.mem hg
    rw [initialise_id, initialise_socket]
    exact hnamed f hf
  · exact fun id hin => hs.shutdown id (List.mem_of_mem_tail (hitems _ hin))
  · exact fun item hin => hs.own item (List.mem_of_mem_tail (hitems _ hin))
  · exact fun item hin => hs.magic item (hitems _ (List.mem_of_mem_tail hin))
  · exact fun _ _ _ item hin => hs.magic item (hitems _ hin)

end Initialises

/-- A session's socket is not the listening one. -/
theorem Typed.session_ne_zero (h : Typed s) {g : SocketHandler} (hg : g ∈ s.handlers)
    (hkind : g.handler = .session) : g.socket ≠ 0 := by
  intro hzero
  rcases (h.acceptor g hg).mp hzero with hno | hno <;>
    exact absurd (hkind.symm.trans hno) (by decide)

/-- In a part of the list, and in the other. -/
theorem without_append (g : SocketHandler) (as bs : List SocketHandler) :
    without g (as ++ bs) = without g as ++ without g bs := List.filter_append ..

/-- A handler on another socket stays, -/
theorem without_cons_of_ne {f g : SocketHandler} (h : f.socket ≠ g.socket)
    (hs : List SocketHandler) : without g (f :: hs) = f :: without g hs := by
  simp [without, h]

/-- and the one on the socket goes. -/
theorem without_cons_self (g : SocketHandler) (hs : List SocketHandler) :
    without g (g :: hs) = without g hs := by
  simp [without]

/-- Nothing goes where the socket is not. -/
theorem without_of_ne {g : SocketHandler} {hs : List SocketHandler}
    (h : ∀ f ∈ hs, f.socket ≠ g.socket) : without g hs = hs :=
  List.filter_eq_self.mpr fun f hf => decide_eq_true (h f hf)

/-- A handler other than the acceptor goes, and perhaps the word that asked for it. -/
theorem Shrinks.of_without {g : SocketHandler} (hzero : g.socket ≠ 0)
    (haux : s'.auxSocket = s.auxSocket) (hbacklog : s'.backlog = s.backlog)
    (hsockets : s'.sockets = s.sockets) (hhandlers : s'.handlers = without g s.handlers)
    (hinbox : s'.inbox s.auxSocket = s.inbox s.auxSocket ∨
      s'.inbox s.auxSocket = (s.inbox s.auxSocket).tail) : Shrinks s s' :=
  ⟨haux, hbacklog, hsockets,
    ⟨fun f => f.socket ≠ g.socket, fun _ hf => decide_eq_true (hf ▸ hzero.symm), hhandlers⟩, hinbox⟩

/-- The invariant over such a step, the iterator's part being shown for each. -/
theorem Sound.shrinks (hs : Sound s) (hshrinks : Shrinks s s') (hpass : InPass s') : Sound s' :=
  ⟨hshrinks.named hs.named, hshrinks.typed hs.typed, hshrinks.wired hs.wired, hpass⟩

/-- **A visit** keeps the invariant.  By cases on what it does. -/
theorem Visits.sound (hs : Sound s) {ready : List Socket} (hphase : s.phase = .pass ready)
    (hvisits : Visits s s') : Sound s' := by
  have hlist : ∀ {h rest}, s.rest = h :: rest → s.visited ++ h :: rest = s.handlers :=
    fun hrest => by rw [handlers, hrest]
  have hmem : ∀ {h rest}, s.rest = h :: rest → h ∈ s.handlers :=
    fun hrest => hlist hrest ▸ List.mem_append_right _ List.mem_cons_self
  cases hvisits with
  | finished hrest =>
    -- the pass is over; the next `select` looks again
    refine hs.shrinks (.of_handlers rfl rfl rfl ?_ (.inl rfl)) ⟨fun _ => rfl, ?_, ?_, ?_⟩
    · rw [handlers, handlers, hrest, List.append_nil]
      rfl
    · intro ready' hready
      cases hready
    · intro ready' hready
      cases hready
    · intro reason hreason
      cases hreason
  | passed hrest _ =>
    -- nothing happens but that the iterator moves on
    refine hs.shrinks (.of_handlers rfl rfl rfl ?_ (.inl rfl))
      (InPass.advance hs hphase rfl hrest ?_ rfl (fun _ => id) (fun _ => rfl) fun _ _ => rfl)
    · rw [handlers_proceed, hlist hrest]
    · exact fun g hg => .inl (List.mem_map_of_mem hg)
  | @accepted h rest connection backlog kind hrest hsocket hbacklog hkind hzero hlive hflight =>
    -- one handler more, at the end
    have hhandlers : (({ s with backlog := backlog, nextId := (s.nextId + 1) % 0x100000000 } :
        Server).proceed h (rest ++ [⟨s.nextId, connection, kind⟩])).handlers =
        s.handlers ++ [⟨s.nextId, connection, kind⟩] := by
      rw [handlers_proceed, ← List.cons_append, ← List.append_assoc]
      exact congrArg (· ++ _) (hlist hrest)
    have hacc := Accepts.mk hbacklog hkind hzero hlive hflight hhandlers rfl rfl rfl
    refine ⟨hacc.named hs.named, hacc.typed hs.named hs.typed, hacc.wired hs.wired,
      InPass.advance hs hphase rfl hrest ?_ rfl ?_ ?_ fun _ _ => rfl⟩
    · intro g hg
      rcases List.mem_append.mp hg with hg | hg
      · exact .inl (List.mem_map_of_mem hg)
      · -- `select` did not see the new connection
        refine .inr fun hin => (hs.inPass.old ready hphase _ hin).2 ?_
        rw [List.mem_singleton.mp hg, hbacklog]
        exact List.mem_cons_self
    · exact fun c hc => hbacklog ▸ List.mem_cons_of_mem _ hc
    · exact fun hne => absurd hsocket hne
  | @initialised h rest hrest hsocket =>
    -- all handlers of before
    have hhandlers : (({ s.receive s.auxSocket with
        visited := s.visited.map (initialise 0 s.auxSocket) } : Server).proceed
        (initialise 0 s.auxSocket h) (rest.map (initialise 0 s.auxSocket))).handlers =
        s.handlers.map (initialise 0 s.auxSocket) := by
      rw [handlers_proceed, ← List.map_cons, ← List.map_append, hlist hrest]
    have hknown : s.auxSocket ∈ s.handlers.map SocketHandler.socket :=
      hsocket ▸ List.mem_map_of_mem (hmem hrest)
    have hinit := Initialises.mk hknown hhandlers rfl rfl rfl (inbox_receive_self s s.auxSocket)
    refine ⟨hinit.named hs.named, hinit.typed hs.named hs.typed, hinit.wired hs.wired,
      InPass.advance hs hphase rfl hrest ?_ rfl (fun _ => id) (fun _ => rfl) ?_⟩
    · intro g hg
      obtain ⟨f, hf, rfl⟩ := List.mem_map.mp hg
      rw [initialise_socket]
      exact .inl (List.mem_map_of_mem hf)
    · exact fun c hc => inbox_receive_of_ne s (hsocket ▸ hc)
  | @notified h rest g hrest hsocket _ _ hzero haux =>
    -- the auxiliary connection's own handler is not the one that goes
    have hne : h.socket ≠ g.socket := fun heq => haux (heq.symm.trans hsocket)
    refine hs.shrinks (.of_without hzero rfl rfl rfl ?_ (.inr (inbox_receive_self s s.auxSocket)))
      (InPass.advance hs hphase rfl hrest ?_ rfl (fun _ => id) (fun _ => rfl) ?_)
    · rw [handlers_proceed, ← hlist hrest, without_append, without_cons_of_ne hne]
    · exact fun f hf => .inl (List.mem_map_of_mem (List.mem_of_mem_filter hf))
    · exact fun c hc => inbox_receive_of_ne s (hsocket ▸ hc)
  | stopped hitem =>
    -- the loop ends, on the word the destructor sent
    refine hs.shrinks (.of_handlers rfl rfl rfl rfl (.inr (inbox_receive_self s s.auxSocket)))
      ⟨?_, ?_, ?_, ?_⟩
    · intro hno
      cases hno
    · intro ready' hno
      cases hno
    · intro ready' hno
      cases hno
    · intro reason hended
      cases hended
      rfl
  | @served h rest value sender hrest hkind _ =>
    -- a session reads from its own socket
    have hne : s.auxSocket ≠ h.socket := (hs.typed.session h (hmem hrest) hkind).symm
    refine hs.shrinks (.of_handlers rfl rfl rfl ?_ (.inl (inbox_receive_of_ne s hne)))
      (InPass.advance hs hphase rfl hrest ?_ rfl (fun _ => id) (fun _ => rfl) ?_)
    · rw [handlers_proceed]
      exact hlist hrest
    · exact fun g hg => .inl (List.mem_map_of_mem hg)
    · exact fun c hc => inbox_receive_of_ne s hc
  | @left h rest hrest hkind _ =>
    -- it takes itself out, at the iterator
    have hzero := hs.typed.session_ne_zero (hmem hrest) hkind
    refine hs.shrinks (.of_without hzero rfl rfl rfl ?_ (.inl rfl))
      (InPass.advance hs hphase rfl hrest ?_ rfl (fun _ => id) (fun _ => rfl) fun _ _ => rfl)
    · have hvisited : without h s.visited = s.visited :=
        without_of_ne fun f hf => hs.named.socket_ne hrest (.inl hf)
      have hbehind : without h rest = rest :=
        without_of_ne fun f hf => hs.named.socket_ne hrest (.inr hf)
      rw [← hlist hrest, without_append, without_cons_self, hvisited, hbehind]
      rfl
    · exact fun g hg => .inl (List.mem_map_of_mem hg)

/-- What comes in leaves nothing less to be read, so what `select` has found stays right. -/
theorem InPass.post (h : InPass s) (c : Socket) (item : Item) : InPass (s.post c item) where
  selecting := h.selecting
  old := h.old
  ready := by
    intro ready hready g hg hin
    have hold := h.ready ready hready g hg hin
    unfold Ready at hold ⊢
    split
    · next hzero => rwa [if_pos hzero] at hold
    · next hzero =>
      rw [if_neg hzero] at hold
      by_cases heq : g.socket = c
      · rw [heq, inbox_post_self]
        exact List.append_ne_nil_of_right_ne_nil _ (List.cons_ne_nil _ _)
      · rwa [inbox_post_of_ne s heq]
  ended := h.ended

/-- **A peer** sends or closes. -/
theorem Sound.post (hs : Sound s) {c : Socket} (hc : c ≠ s.auxSocket) (item : Item) :
    Sound (s.post c item) :=
  hs.shrinks (.of_handlers rfl rfl rfl rfl (.inl (inbox_post_of_ne s hc.symm item)))
    (hs.inPass.post c item)

/-- **The server** writes to its auxiliary socket: the destructor its 0, or a session its own id
    while its handler is there. -/
theorem Sound.postAux (hs : Sound s) {id : Nat} {sender : Sender}
    (hnotice : ∀ c, sender = .session c → ∃ h ∈ s.handlers, h.id = id ∧ h.socket = c ∧
      h.handler = .session)
    (hshutdown : sender = .destructor → id = 0) (hpeer : sender ≠ .peer)
    (hstartup : sender ≠ .startup) : Sound (s.post s.auxSocket (.word id sender)) := by
  -- what was in flight, and the word
  have hitems : ∀ {item}, item ∈ (s.post s.auxSocket (.word id sender)).inbox s.auxSocket →
      item ∈ s.inbox s.auxSocket ∨ item = .word id sender := by
    intro item hin
    rw [inbox_post_self, List.mem_append, List.mem_singleton] at hin
    exact hin
  have hlater : ∀ {item}, item ∈ ((s.post s.auxSocket (.word id sender)).inbox s.auxSocket).tail →
      item ∈ (s.inbox s.auxSocket).tail ∨ item = .word id sender := by
    intro item hin
    rw [inbox_post_self] at hin
    cases hinbox : s.inbox s.auxSocket with
    | nil =>
      rw [hinbox] at hin
      exact absurd hin List.not_mem_nil
    | cons first inbox =>
      rw [hinbox, List.cons_append, List.tail_cons, List.mem_append, List.mem_singleton] at hin
      exact hin
  refine ⟨⟨hs.named.ids, hs.named.sockets, hs.named.known, hs.named.auxKnown, hs.named.id_ne_zero⟩,
    ⟨hs.typed.first, hs.typed.acceptor, hs.typed.aux, hs.typed.session, hs.typed.regular⟩,
    ⟨?_, ?_, ?_, ?_, ?_⟩, hs.inPass.post _ _⟩
  · intro id' c hin
    rcases hitems hin with hin | heq
    · exact hs.wired.notices id' c hin
    · obtain ⟨rfl, rfl⟩ := Item.word.inj heq
      obtain ⟨h, hh, rfl, rfl, hkind⟩ := hnotice c rfl
      have hsocket : h.socket ∈ s.handlers.map SocketHandler.socket := List.mem_map_of_mem hh
      refine ⟨hs.typed.session_ne_zero hh hkind, hs.typed.session h hh hkind,
        hs.named.known _ (List.mem_append_left _ hsocket),
        List.disjoint_of_nodup_append hs.named.sockets hsocket, ?_⟩
      intro g hg
      constructor
      · intro heq
        rw [List.inj_on_of_nodup_map hs.named.ids hg hh heq]
      · intro heq
        rw [List.inj_on_of_nodup_map hs.named.sockets.of_append_left hg hh heq]
  · intro id' hin
    rcases hitems hin with hin | heq
    · exact hs.wired.shutdown id' hin
    · obtain ⟨rfl, rfl⟩ := Item.word.inj heq
      exact hshutdown rfl
  · intro item hin
    rcases hitems hin with hin | rfl
    · exact hs.wired.own item hin
    · exact ⟨Item.noConfusion, fun value heq => hpeer (Item.word.inj heq).2⟩
  · intro item hin
    rcases hlater hin with hin | rfl
    · exact hs.wired.magic item hin
    · exact fun value heq => hstartup (Item.word.inj heq).2
  · intro h hh hkind item hin
    rcases hitems hin with hin | rfl
    · exact hs.wired.magicRead h hh hkind item hin
    · exact fun value heq => hstartup (Item.word.inj heq).2

/-- **A peer connects.**  Its socket is a new one, so it is none that a handler has or `select` has
    found. -/
theorem Sound.connect (hs : Sound s) :
    Sound { s with backlog := s.backlog ++ [s.sockets], sockets := s.sockets + 1 } := by
  have hfresh : s.sockets ∉ s.handlers.map SocketHandler.socket ++ s.backlog := fun hin =>
    Nat.lt_irrefl _ (hs.named.known _ hin)
  have hwaits : ∀ {c}, c ∈ s.backlog ++ [s.sockets] → c ∈ s.backlog ∨ c = s.sockets := by
    intro c hc
    rwa [List.mem_append, List.mem_singleton] at hc
  refine ⟨⟨hs.named.ids, ?_, ?_, ?_, hs.named.id_ne_zero⟩,
    ⟨hs.typed.first, hs.typed.acceptor, hs.typed.aux, hs.typed.session, ?_⟩,
    ⟨?_, hs.wired.shutdown, hs.wired.own, hs.wired.magic, hs.wired.magicRead⟩,
    ⟨hs.inPass.selecting, ?_, ?_, hs.inPass.ended⟩⟩
  · -- a socket of its own
    show (s.handlers.map SocketHandler.socket ++ (s.backlog ++ [s.sockets])).Nodup
    rw [← List.append_assoc]
    exact hs.named.sockets.append (List.nodup_singleton _) (List.disjoint_singleton.mpr hfresh)
  · intro c hc
    show c < s.sockets + 1
    rw [← List.append_assoc, List.mem_append, List.mem_singleton] at hc
    rcases hc with hc | rfl
    · exact Nat.lt_succ_of_lt (hs.named.known c hc)
    · exact Nat.lt_succ_self _
  · exact Nat.lt_succ_of_lt hs.named.auxKnown
  · intro h hh hkind hin
    rcases hwaits hin with hin | heq
    · exact hs.typed.regular h hh hkind hin
    · exact Nat.lt_irrefl _ (heq ▸ hs.named.auxKnown)
  · intro id c hin
    obtain ⟨hzero, haux, hlt, hno, hnamed⟩ := hs.wired.notices id c hin
    refine ⟨hzero, haux, Nat.lt_succ_of_lt hlt, fun hc => ?_, hnamed⟩
    exact (hwaits hc).elim hno fun heq => Nat.lt_irrefl _ (heq ▸ hlt)
  · intro ready hready c hc
    obtain ⟨hlt, hno⟩ := hs.inPass.old ready hready c hc
    refine ⟨Nat.lt_succ_of_lt hlt, fun hin => ?_⟩
    exact (hwaits hin).elim hno fun heq => Nat.lt_irrefl _ (heq ▸ hlt)
  · intro ready hready h hh hin
    have hold := hs.inPass.ready ready hready h hh hin
    unfold Ready at hold ⊢
    split
    · exact List.append_ne_nil_of_right_ne_nil _ (List.cons_ne_nil _ _)
    · next hzero => rwa [if_neg hzero] at hold

/-- **`select`** finds what there is. -/
theorem Sound.select (hs : Sound s) (hselect : s.select false = some s') :
    s.phase = .selecting ∧
      s' = { s with
        phase := .pass ((s.handlers.map SocketHandler.socket).filter fun c => s.Ready c) } ∧
      Sound s' := by
  simp only [Server.select, Bool.false_eq_true, if_false] at hselect
  split at hselect
  · next hphase =>
    split at hselect
    · cases hselect
    · obtain rfl := (Option.some.inj hselect).symm
      refine ⟨hphase, rfl, hs.shrinks (.of_handlers rfl rfl rfl rfl (.inl rfl)) ⟨?_, ?_, ?_, ?_⟩⟩
      · intro hno
        cases hno
      · -- what is found is a handler's
        intro ready hready c hc
        cases hready
        have hin := List.mem_of_mem_filter hc
        exact ⟨hs.named.known c (List.mem_append_left _ hin),
          List.disjoint_of_nodup_append hs.named.sockets hin⟩
      · -- and is to be read
        intro ready hready h _ hin
        cases hready
        exact of_decide_eq_true (List.mem_filter.mp hin).2
      · intro reason hno
        cases hno
  · cases hselect

/-- **One step.**  A visit is as above; nothing else touches the handlers.  It is the inversion of
    `guarded`, with the invariant on both sides. -/
theorem guarded_cases (hs : Sound s) {e : Event} (hstep : s.guarded e = some s') :
    Sound s' ∧
      ((∃ throws ready, e = .visit throws ∧ s.phase = .pass ready ∧ Visits s s') ∨
        (∀ throws, e ≠ .visit throws) ∧ s'.visited = s.visited ∧ s'.rest = s.rest ∧
          (s'.phase = s.phase ∨ s.phase = .selecting)) := by
  unfold guarded step at hstep
  split at hstep
  · next hmeets =>
    split at hstep
    · next hpossible =>
      cases e with
      | connect =>
        obtain rfl := (Option.some.inj hstep).symm
        exact ⟨hs.connect, .inr ⟨by simp, rfl, rfl, .inl rfl⟩⟩
      | send c size =>
        obtain rfl := (Option.some.inj hstep).symm
        exact ⟨hs.post hpossible.2.1 _, .inr ⟨by simp, rfl, rfl, .inl rfl⟩⟩
      | close c =>
        obtain rfl := (Option.some.inj hstep).symm
        exact ⟨hs.post hpossible.2.1 _, .inr ⟨by simp, rfl, rfl, .inl rfl⟩⟩
      | disconnect c =>
        obtain ⟨h, hh, hsocket, hkind⟩ := hpossible
        obtain ⟨g, hfind, rfl⟩ := Option.map_eq_some_iff.mp hstep
        have hg := List.mem_of_find?_eq_some hfind
        have hgc : g.socket = c := by simpa using List.find?_some hfind
        -- there is one handler with the socket
        obtain rfl : g = h := List.inj_on_of_nodup_map hs.named.sockets.of_append_left hg hh
          (hgc.trans hsocket.symm)
        refine ⟨hs.postAux ?_ (by simp) (by simp) (by simp), .inr ⟨by simp, rfl, rfl, .inl rfl⟩⟩
        intro c' hc'
        exact ⟨g, hg, rfl, hgc.trans (Sender.session.inj hc'), hkind⟩
      | destroy =>
        obtain rfl := (Option.some.inj hstep).symm
        -- the flag is looked at by nobody
        have hposted : Sound (s.post s.auxSocket (.word 0 .destructor)) :=
          hs.postAux (by simp) (fun _ => rfl) (by simp) (by simp)
        refine ⟨hposted.shrinks (.of_handlers rfl rfl rfl rfl (.inl rfl)) ?_,
          .inr ⟨by simp, rfl, rfl, .inl rfl⟩⟩
        exact ⟨hposted.inPass.selecting, hposted.inPass.old, hposted.inPass.ready,
          hposted.inPass.ended⟩
      | select fails =>
        obtain rfl : fails = false := hmeets
        obtain ⟨hphase, rfl, hsound⟩ := hs.select hstep
        exact ⟨hsound, .inr ⟨by simp, rfl, rfl, .inr hphase⟩⟩
      | visit throws =>
        cases hphase : s.phase with
        | pass ready =>
          obtain ⟨s₁, hvisit, hvisits⟩ := visit_outcome hs hmeets hphase
          obtain rfl : s₁ = s' := Option.some.inj (hvisit.symm.trans hstep)
          exact ⟨hvisits.sound hs hphase, .inl ⟨throws, ready, rfl, rfl, hvisits⟩⟩
        -- there is no visit outside of a pass
        | selecting =>
          simp only [perform, visit, hphase] at hstep
          cases hstep
        | ended reason =>
          simp only [perform, visit, hphase] at hstep
          cases hstep
    · cases hstep
  · cases hstep

/-- In the form `Lib.run_invariant` asks for. -/
theorem guarded_sound (s : Server) (e : Event) (s' : Server) (hs : Sound s)
    (hstep : s.guarded e = some s') : Sound s' := (guarded_cases hs hstep).1

end

/-- In the beginning there is the acceptor, and the magic word is in flight. -/
theorem new_sound (early : Nat) : Sound (new early) where
  named := by
    constructor
    · exact List.nodup_singleton _
    · show (0 :: List.range' 1 (early + 1)).Nodup
      rw [List.nodup_cons, List.mem_range'_1]
      exact ⟨by omega, List.nodup_range'⟩
    · intro c hc
      show c < early + 2
      rcases List.mem_cons.mp hc with rfl | hc
      · exact Nat.succ_pos _
      · exact Nat.lt_of_lt_of_eq (List.mem_range'_1.mp hc).2 (by omega)
    · show early + 1 < early + 2
      omega
    · intro h hh
      obtain rfl := List.mem_singleton.mp hh
      decide
  typed := by
    constructor
    · rfl
    all_goals
      intro h hh
      obtain rfl := List.mem_singleton.mp hh
      simp
  wired := by
    have hinbox : (new early).inbox (new early).auxSocket = [.word initMagic .startup] := if_pos rfl
    constructor <;> simp only [hinbox]
    · intro id c hin
      simp at hin
    · intro id hin
      simp at hin
    · simp
    · simp
    · intro h hh
      obtain rfl := List.mem_singleton.mp hh
      simp
  inPass := by
    refine ⟨fun _ => rfl, ?_, ?_, ?_⟩
    · intro ready hno
      cases hno
    · intro ready hno
      cases hno
    · intro reason hno
      cases hno

/-! ## The server outlives its sessions -/

/-- A reason of its own for a session to go: its peer has closed, or the id read is the one it sent
    itself. -/
def Leaves (s : Server) (h : SocketHandler) : Event → Prop
  | .visit _ =>
      h.handler = .session ∧ s.rest.head? = some h ∧ (s.inbox h.socket).head? = some .closed ∨
        (s.inbox s.auxSocket).head? = some (.word h.id (.session h.socket))
  | _ => False

/-- The handler is to be called in this pass, after `n` others. -/
def Waits (s : Server) (h : SocketHandler) (n : Nat) : Prop :=
  ∃ ready before after, s.phase = .pass ready ∧ h.socket ∈ ready ∧
    s.rest = before ++ h :: after ∧ before.length = n

section

variable {s s' : Server}

/-- A session's handler is what it would become. -/
theorem initialise_of_session {h : SocketHandler} {aux : Socket} (hzero : h.socket ≠ 0)
    (haux : h.socket ≠ aux) (hkind : h.handler = .session) : initialise 0 aux h = h := by
  rw [initialise, if_neg hzero, if_neg haux, ← hkind]

/-- **A handler stays** through a step, unless it has a reason of its own to go. -/
theorem Sound.stays (hs : Sound s) {e : Event} (hstep : s.guarded e = some s') {h : SocketHandler}
    (hh : h ∈ s.handlers) :
    (∃ h' ∈ s'.handlers, h'.id = h.id ∧ h'.socket = h.socket ∧ (h.handler = .session → h' = h)) ∨
      s.Leaves h e := by
  have hself : h ∈ s'.handlers → ∃ h' ∈ s'.handlers, h'.id = h.id ∧ h'.socket = h.socket ∧
      (h.handler = .session → h' = h) := fun hin => ⟨h, hin, rfl, rfl, fun _ => rfl⟩
  obtain ⟨throws, ready, rfl, hphase, hvisits⟩ | ⟨_, hvisited, hrest, _⟩ := (guarded_cases hs hstep).2
  · have hlist : ∀ {g rest}, s.rest = g :: rest → h ∈ s.visited ++ g :: rest :=
      fun hrest => by rwa [handlers, hrest] at hh
    cases hvisits with
    | finished hrest =>
      -- of all visits but two it is still in the list
      refine .inl (hself ?_)
      rw [handlers, hrest, List.append_nil] at hh
      exact hh
    | passed hrest _ =>
      refine .inl (hself ?_)
      rw [handlers_proceed]
      exact hlist hrest
    | accepted hrest =>
      refine .inl (hself ?_)
      rw [handlers_proceed, ← List.cons_append, ← List.append_assoc]
      exact List.mem_append_left _ (hlist hrest)
    | initialised hrest hsocket =>
      refine .inl ⟨initialise 0 s.auxSocket h, ?_, initialise_id .., initialise_socket .., ?_⟩
      · rw [handlers_proceed, ← List.map_cons, ← List.map_append]
        exact List.mem_map_of_mem (hlist hrest)
      · intro hkind
        exact initialise_of_session (hs.typed.session_ne_zero hh hkind) (hs.typed.session h hh hkind)
          hkind
    | @notified f rest g hrest hsocket hitem hg _ haux =>
      -- is it the one that is told to go?
      by_cases heq : h.socket = g.socket
      · obtain rfl : h = g := List.inj_on_of_nodup_map hs.named.sockets.of_append_left hh hg heq
        exact .inr (.inr hitem)
      · refine .inl (hself ?_)
        have hne : f.socket ≠ g.socket := fun heq => haux (heq.symm.trans hsocket)
        rw [handlers_proceed, ← without_cons_of_ne hne, ← without_append]
        exact List.mem_filter.mpr ⟨hlist hrest, decide_eq_true heq⟩
    -- the loop has ended with the list as it was
    | stopped _ => exact .inl (hself hh)
    | served hrest _ _ =>
      refine .inl (hself ?_)
      rw [handlers_proceed]
      exact hlist hrest
    | @left g rest hrest hkind hitem =>
      rcases List.mem_append.mp (hlist hrest) with hin | hin
      · exact .inl (hself (List.mem_append_left _ hin))
      · -- a peer has closed: its own one, perhaps
        rcases List.mem_cons.mp hin with rfl | hin
        · exact .inr (.inl ⟨hkind, by rw [hrest]; rfl, hitem⟩)
        · exact .inl (hself (List.mem_append_right _ hin))
  · refine .inl (hself ?_)
    rw [handlers, hvisited, hrest]
    exact hh

/-- What a step comes to for a session that waits to be called: it keeps its place or moves up, or
    is called and gets its message, or goes for a reason of its own, or the server is destroyed.
    Each visit moves it up: `n` is what decreases. -/
def Attended (s : Server) (h : SocketHandler) (n : Nat) (e : Event) (s' : Server) : Prop :=
  (∃ m, s'.Waits h m ∧ m ≤ n ∧ ((∃ throws, e = .visit throws) → m < n)) ∨
    (n = 0 ∧ ∃ value sender, (s.inbox h.socket).head? = some (.word value sender) ∧
      s'.delivered = s.delivered ++ [(h.socket, value)]) ∨
    s.Leaves h e ∨ s'.phase = .ended (.exit (.word 0 .destructor))

/-- The handler the iterator is at: it is called now. -/
theorem Visits.attends_first (hs : Sound s) (hvisits : Visits s s') {h : SocketHandler}
    (hkind : h.handler = .session) {ready : List Socket} (hphase : s.phase = .pass ready)
    (hin : h.socket ∈ ready) {after : List SocketHandler} (hrest : s.rest = h :: after)
    (throws : Bool) : s.Attended h 0 (.visit throws) s' := by
  have hh : h ∈ s.handlers := List.mem_append_right _ (hrest ▸ List.mem_cons_self)
  -- visits that are some other kind of handler's are ruled out by its socket
  cases hvisits with
  | finished hnil => rw [hrest] at hnil; cases hnil
  | passed hrest' hidle =>
    obtain ⟨rfl, rfl⟩ := List.cons.inj (hrest.symm.trans hrest')
    exact absurd hin (hidle hkind ready hphase)
  | accepted hrest' hsocket =>
    obtain ⟨rfl, rfl⟩ := List.cons.inj (hrest.symm.trans hrest')
    exact absurd hsocket (hs.typed.session_ne_zero hh hkind)
  | initialised hrest' hsocket =>
    obtain ⟨rfl, rfl⟩ := List.cons.inj (hrest.symm.trans hrest')
    exact absurd hsocket (hs.typed.session h hh hkind)
  | notified hrest' hsocket =>
    obtain ⟨rfl, rfl⟩ := List.cons.inj (hrest.symm.trans hrest')
    exact absurd hsocket (hs.typed.session h hh hkind)
  | stopped _ => exact .inr (.inr (.inr rfl))
  -- its message
  | @served _ _ value sender hrest' _ hitem =>
    obtain ⟨rfl, rfl⟩ := List.cons.inj (hrest.symm.trans hrest')
    exact .inr (.inl ⟨rfl, value, sender, hitem, rfl⟩)
  -- or the end of them
  | left hrest' _ hitem =>
    obtain ⟨rfl, rfl⟩ := List.cons.inj (hrest.symm.trans hrest')
    exact .inr (.inr (.inl (.inl ⟨hkind, by rw [hrest]; rfl, hitem⟩)))

/-- A handler behind it: one fewer is before it after the visit, even if that one was erased. -/
theorem Visits.attends_later (hs : Sound s) (hvisits : Visits s s') {h b : SocketHandler}
    (hkind : h.handler = .session) {ready : List Socket} (hphase : s.phase = .pass ready)
    (hin : h.socket ∈ ready) {before after : List SocketHandler}
    (hrest : s.rest = b :: (before ++ h :: after)) (throws : Bool) :
    s.Attended h (before.length + 1) (.visit throws) s' := by
  have hh : h ∈ s.handlers := by
    refine List.mem_append_right _ ?_
    rw [hrest]
    exact List.mem_cons_of_mem _ (List.mem_append_right _ List.mem_cons_self)
  -- it is enough that no handler comes before it
  have hmoves : ∀ before' after', s'.phase = s.phase → s'.rest = before' ++ h :: after' →
      before'.length ≤ before.length → s.Attended h (before.length + 1) (.visit throws) s' := by
    intro before' after' hphase' hrest' hle
    refine .inl ⟨before'.length, ⟨ready, before', after', hphase'.trans hphase, hin, hrest', rfl⟩, ?_⟩
    exact ⟨by omega, fun _ => by omega⟩
  cases hvisits with
  | finished hnil => rw [hrest] at hnil; cases hnil
  | passed hrest' _ =>
    obtain ⟨rfl, rfl⟩ := List.cons.inj (hrest.symm.trans hrest')
    exact hmoves before after rfl rfl (Nat.le_refl _)
  | @accepted _ _ connection _ kind hrest' =>
    obtain ⟨rfl, rfl⟩ := List.cons.inj (hrest.symm.trans hrest')
    refine hmoves before (after ++ [⟨s.nextId, connection, kind⟩]) rfl ?_ (Nat.le_refl _)
    exact List.append_assoc ..
  -- a session's handler is what it was
  | initialised hrest' hsocket =>
    obtain ⟨rfl, rfl⟩ := List.cons.inj (hrest.symm.trans hrest')
    refine hmoves (before.map (initialise 0 s.auxSocket)) (after.map (initialise 0 s.auxSocket)) rfl
      ?_ (Nat.le_of_eq (List.length_map _))
    show (before ++ h :: after).map _ = _
    rw [List.map_append, List.map_cons, initialise_of_session (hs.typed.session_ne_zero hh hkind)
      (hs.typed.session h hh hkind) hkind]
  | @notified _ _ g hrest' _ hitem hg =>
    obtain ⟨rfl, rfl⟩ := List.cons.inj (hrest.symm.trans hrest')
    -- it is told to go, or one that may be before it is
    by_cases heq : h.socket = g.socket
    · obtain rfl : h = g := List.inj_on_of_nodup_map hs.named.sockets.of_append_left hh hg heq
      exact .inr (.inr (.inl (.inr hitem)))
    · refine hmoves (without g before) (without g after) rfl ?_ (List.length_filter_le _ _)
      show without g (before ++ h :: after) = _
      rw [without_append, without_cons_of_ne heq]
  | stopped _ => exact .inr (.inr (.inr rfl))
  | served hrest' _ _ =>
    obtain ⟨rfl, rfl⟩ := List.cons.inj (hrest.symm.trans hrest')
    exact hmoves before after rfl rfl (Nat.le_refl _)
  | left hrest' _ _ =>
    obtain ⟨rfl, rfl⟩ := List.cons.inj (hrest.symm.trans hrest')
    exact hmoves before after rfl rfl (Nat.le_refl _)

/-- Any step: a visit moves the session up, all else leaves it where it is. -/
theorem Sound.attends (hs : Sound s) {e : Event} (hstep : s.guarded e = some s')
    {h : SocketHandler} (hkind : h.handler = .session) {n : Nat} (hwaits : s.Waits h n) :
    s.Attended h n e s' := by
  obtain ⟨ready, before, after, hphase, hin, hrest, rfl⟩ := hwaits
  obtain ⟨throws, ready', rfl, hphase', hvisits⟩ | ⟨hother, _, hrest', hphase'⟩ :=
    (guarded_cases hs hstep).2
  · -- at the iterator, or behind
    cases before with
    | nil => exact hvisits.attends_first hs hkind hphase hin hrest throws
    | cons b before => exact hvisits.attends_later hs hkind hphase hin hrest throws
  · have hsame : s'.phase = s.phase := hphase'.resolve_right fun hno => by
      rw [hphase] at hno
      cases hno
    refine .inl ⟨before.length, ⟨ready, before, after, hsame.trans hphase, hin, hrest'.trans hrest,
      rfl⟩, Nat.le_refl _, ?_⟩
    rintro ⟨throws, rfl⟩
    exact absurd rfl (hother throws)

/-- **`select`** returns if there is something to be read, and lists every session that has. -/
theorem Sound.selects (hs : Sound s) (hphase : s.phase = .selecting) {h : SocketHandler}
    (hh : h ∈ s.handlers) (hkind : h.handler = .session) (hitems : s.inbox h.socket ≠ []) :
    ∃ s' n, s.guarded (.select false) = some s' ∧ s'.Waits h n := by
  have hready : h.socket ∈ (s.handlers.map SocketHandler.socket).filter fun c => s.Ready c := by
    refine List.mem_filter.mpr ⟨List.mem_map_of_mem hh, decide_eq_true ?_⟩
    rwa [Ready, if_neg (hs.typed.session_ne_zero hh hkind)]
  have hrest : s.handlers = s.rest := by rw [handlers, hs.inPass.selecting hphase]; rfl
  obtain ⟨before, after, hsplit⟩ := List.append_of_mem (hrest ▸ hh)
  refine ⟨{ s with phase := .pass _ }, before.length, ?_, _, before, after, rfl, hready, hsplit, rfl⟩
  show s.select false = _
  simp only [Server.select, hphase, if_true, Bool.false_eq_true, if_false]
  exact if_neg (List.ne_nil_of_mem hready)

/-- **The fatal order**: an id read from the auxiliary socket is that of a session that has gone. -/
theorem Sound.exits (hs : Sound s) {ready : List Socket} (hphase : s.phase = .pass ready)
    {h : SocketHandler} (hnext : s.next = some h) (hkind : h.handler = .aux) {id : Nat} {c : Socket}
    (hitem : (s.inbox h.socket).head? = some (.word id (.session c)))
    (hgone : c ∉ s.handlers.map SocketHandler.socket) :
    ∃ s', s.step (.visit false) = some s' ∧ s'.phase = .ended (.exit (.word id (.session c))) := by
  unfold next at hnext
  rw [hphase] at hnext
  cases hrest : s.rest with
  | nil => rw [hrest] at hnext; cases hnext
  | cons g rest =>
    simp only [hrest] at hnext
    split at hnext
    · next hin =>
      obtain rfl := Option.some.inj hnext
      have hg : g ∈ s.handlers := List.mem_append_right _ (hrest ▸ List.mem_cons_self)
      have hsocket := hs.typed.aux g hg hkind
      cases hinbox : s.inbox g.socket with
      | nil => rw [hinbox] at hitem; cases hitem
      | cons item tail =>
        rw [hinbox] at hitem
        obtain rfl := Option.some.inj hitem
        have hflight : Item.word id (.session c) ∈ s.inbox s.auxSocket := by
          rw [← hsocket, hinbox]
          exact List.mem_cons_self
        obtain ⟨_, _, _, _, hnamed⟩ := hs.wired.notices id c hflight
        -- the id is that of one session only, whose handler has gone
        have hnone : s.handlers.find? (fun g => Item.value (.word id (.session c)) = some g.id) =
            none := by
          rw [List.find?_eq_none]
          intro f hf hid
          have hfid : f.id = id := (Option.some.inj (of_decide_eq_true hid)).symm
          exact hgone ((hnamed f hf).mp hfid ▸ List.mem_map_of_mem hf)
        have hlist : s.visited ++ g :: rest = s.handlers := by rw [handlers, hrest]
        refine ⟨{ s.receive g.socket with phase := .ended (.exit (.word id (.session c))) }, ?_, rfl⟩
        show s.visit false = _
        simp only [visit, hphase, hrest, if_pos hin, handle, hkind, handleAux, hinbox, hlist, hnone]
    · cases hnext

end

/-- **The server outlives its sessions.**  In every run whose steps meet the condition: the loop ends
    on the destructor's 0 only; a step takes out at most the session whose peer has closed or that
    asked for it; and every other session is served, since `select` finds it when there is something
    to be read and it then moves up until it is called.  No visit that meets the condition blocks,
    and one that reads the id of a session that is gone ends the loop. -/
theorem server_outlives (early : Nat) (events : List Event) (s : Server)
    (hrun : Lib.run guarded (new early) events = some s) :
    (∀ reason, s.phase = .ended reason → reason = .exit (.word 0 .destructor)) ∧
    (∀ e s', s.guarded e = some s' → ∀ h ∈ s.handlers,
      (∃ h' ∈ s'.handlers, h'.id = h.id ∧ h'.socket = h.socket ∧ (h.handler = .session → h' = h)) ∨
        s.Leaves h e) ∧
    (∀ h ∈ s.handlers, h.handler = .session →
      (s.phase = .selecting → s.inbox h.socket ≠ [] →
        ∃ s' n, s.guarded (.select false) = some s' ∧ s'.Waits h n) ∧
      ∀ n, s.Waits h n → ∀ e s', s.guarded e = some s' → s.Attended h n e s') ∧
    ∀ ready, s.phase = .pass ready →
      (s.Meets (.visit false) → ∃ s', s.guarded (.visit false) = some s') ∧
      ∀ h id c, s.next = some h → h.handler = .aux →
        (s.inbox h.socket).head? = some (.word id (.session c)) →
        c ∉ s.handlers.map SocketHandler.socket →
        ∃ s', s.step (.visit false) = some s' ∧
          s'.phase = .ended (.exit (.word id (.session c))) := by
  have hs : Sound s := Lib.run_invariant guarded_sound events (new early) s (new_sound early) hrun
  refine ⟨hs.inPass.ended, fun e s' hstep h hh => hs.stays hstep hh, fun h hh hkind => ⟨?_, ?_⟩,
    fun ready hphase => ⟨fun hmeets => ?_, ?_⟩⟩
  · exact fun hphase hitems => hs.selects hphase hh hkind hitems
  · exact fun n hwaits e s' hstep => hs.attends hstep hkind hwaits
  · obtain ⟨s', hvisit, _⟩ := visit_outcome hs hmeets hphase
    exact ⟨s', by rw [guarded, if_pos hmeets]; exact hvisit⟩
  · exact fun h id c hnext hkind hitem hgone => hs.exits hphase hnext hkind hitem hgone

/-- `select` and `n` rounds of the loop over the handlers. -/
def rounds (n : Nat) : List Event := .select false :: List.replicate n (.visit false)

/-- One peer has connected before the auxiliary connection (socket 2), one connects after it. -/
def twoSessions : List Event := rounds 3 ++ rounds 4 ++ rounds 4 ++ [.connect] ++ rounds 5

/-- The first session is disconnected while the second one gets a message; then the server goes. -/
theorem server_outlives_disconnect :
    ∃ s, Lib.run guarded (new 1)
        (twoSessions ++ [.disconnect 1, .send 3 8] ++ rounds 5 ++ [.destroy] ++ rounds 2) = some s ∧
      s.handlers = [⟨100, 0, .acceptRegular⟩, ⟨102, 2, .aux⟩, ⟨103, 3, .session⟩] ∧
      s.delivered = [(3, 8)] ∧ (∃ reason, s.phase = .ended reason) ∧
      ∀ reason, s.phase = .ended reason → reason = .exit (.word 0 .destructor) := by
  have hsummary : (Lib.run guarded (new 1)
      (twoSessions ++ [.disconnect 1, .send 3 8] ++ rounds 5 ++ [.destroy] ++ rounds 2)).map
      (fun s => (s.handlers, s.delivered, s.phase)) =
      some ([⟨100, 0, .acceptRegular⟩, ⟨102, 2, .aux⟩, ⟨103, 3, .session⟩], [(3, 8)],
        .ended (.exit (.word 0 .destructor))) := by
    decide
  obtain ⟨s, hrun, hs⟩ := Option.map_eq_some_iff.mp hsummary
  simp only [Prod.mk.injEq] at hs
  obtain ⟨hhandlers, hdelivered, hended⟩ := hs
  exact ⟨s, hrun, hhandlers, hdelivered, ⟨_, hended⟩, (server_outlives 1 _ s hrun).1⟩

/-- **Two events race for one session and take down all**: its peer closes while it is
    disconnected, or it is disconnected twice.  The other session is still there. -/
theorem server_exits_on_stale_id :
    (Lib.run step (new 1) (twoSessions ++ [.disconnect 1, .close 1] ++ rounds 3)).map
      (fun s => (s.phase, s.destroyed, s.handlers)) =
      some (.ended (.exit (.word 101 (.session 1))), false,
        [⟨100, 0, .acceptRegular⟩, ⟨102, 2, .aux⟩, ⟨103, 3, .session⟩]) ∧
    (Lib.run step (new 1)
      (twoSessions ++ [.disconnect 1, .disconnect 1] ++ rounds 5 ++ rounds 2)).map
      (fun s => (s.phase, s.destroyed, s.handlers)) =
      some (.ended (.exit (.word 101 (.session 1))), false,
        [⟨100, 0, .acceptRegular⟩, ⟨102, 2, .aux⟩, ⟨103, 3, .session⟩]) := by
  decide

end Server

end MicroProfiler.Ipc
