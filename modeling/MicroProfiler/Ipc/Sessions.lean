/-
  `ipc/client_session.h`, `client_session.cpp`, `server_session.h`, `server_session.cpp`: requests
  and their responses, over a channel that may deliver in any order.

  1. **The code** — a `ClientSession` numbers its requests with tokens and keeps callbacks by
     (response id, token); a `ServerSession` answers a request, or defers the answer to a task of
     its apartment queue, with the token the request came with.  What is on the wire is an id and
     a list of words, so that whoever reads it decides what the words are (`ClientSession.message`
     takes the first one for a token, or not).

  2. **Runs** — `IpcSystem` holds both sessions and what is between them.  Beside the code's own
     state it records the requests and subscriptions that were made and whether their handles are
     alive, and marks every message and task with the request it comes from; the code reads none
     of that.

  3. **The INVARIANT** (`Routing`), and **responses are routed exactly** (`responses_routed`).
-/
import MicroProfiler.Lib.Runs
import Mathlib.Data.List.AList
import Mathlib.Data.List.Nodup

namespace MicroProfiler

variable {C : Type}

/-- `std::map::insert`: what is there stays. -/
def insertNew {K V : Type} [DecidableEq K] (m : AList fun _ : K => V) (k : K) (v : V) :
    AList fun _ : K => V :=
  if k ∈ m then m else m.insert k v

/-- `class client_session`. -/
structure ClientSession (C : Type) where
  /-- the next request's -/
  token : Nat
  /-- by response id and token -/
  callbacks : AList fun _ : Int × Nat => C
  /-- subscriptions, by message id -/
  messageCallbacks : AList fun _ : Int => C

/-- What became of an inbound message. -/
inductive Routed (C : Type)
  | dropped
  | subscriber (callback : C) (payload : List Nat)
  | response (callback : C) (payload : List Nat)
  /-- `insufficient_buffer_error` -/
  | threw

namespace ClientSession

def new : ClientSession C := ⟨1, ∅, ∅⟩

/-- `request_internal`: the session, and the token the request is sent with.  The callbacks are
    registered under the token before the request goes out. -/
def requestInternal (c : ClientSession C)
    (callbackCtor : Nat → (AList fun _ : Int × Nat => C) → AList fun _ : Int × Nat => C) :
    ClientSession C × Nat :=
  ({ c with token := c.token + 1, callbacks := callbackCtor c.token c.callbacks }, c.token)

/-- `request`, for one response. -/
def request (c : ClientSession C) (responseId : Int) (callback : C) : ClientSession C × Nat :=
  c.requestInternal fun token callbacks => insertNew callbacks (responseId, token) callback

/-- `request`, for any of several responses. -/
def requestMulti (c : ClientSession C) (callback : List (Int × C)) : ClientSession C × Nat :=
  c.requestInternal fun token callbacks =>
    callback.foldl (fun callbacks i => insertNew callbacks (i.1, token) i.2) callbacks

/-- The deleters of a request's handle: one for each callback, chained.  Each erases its own entry,
    by an iterator. -/
def release (c : ClientSession C) (responseIds : List Int) (token : Nat) : ClientSession C :=
  { c with callbacks :=
      responseIds.foldl (fun callbacks id => callbacks.erase (id, token)) c.callbacks }

/-- `subscribe`. -/
def subscribe (c : ClientSession C) (messageId : Int) (callback : C) : ClientSession C :=
  { c with messageCallbacks := insertNew c.messageCallbacks messageId callback }

/-- The deleter of a subscription's handle. -/
def unsubscribe (c : ClientSession C) (messageId : Int) : ClientSession C :=
  { c with messageCallbacks := c.messageCallbacks.erase messageId }

/-- `message`: an id was read, `payload` is the rest. -/
def message (c : ClientSession C) (responseId : Int) (payload : List Nat) : Routed C :=
  -- subscribers come first: with one the message is no response
  match c.messageCallbacks.lookup responseId with
  | some m => .subscriber m payload
  | none =>
      -- the token is read only when some callback waits for the id
      if c.callbacks.keys.any fun k => k.1 = responseId then
        match payload with
        | [] => .threw
        | token :: payload =>
            match c.callbacks.lookup (responseId, token) with
            | some i => .response i payload
            | none => .dropped
      else .dropped

end ClientSession

/-- What a handler, or a continuation, does with its `response`. -/
inductive HandlerOp
  | respond (responseId : Int) (result : List Nat)
  | defer

/-- A handler's body: the responses it made, and whether it left a continuation (`none`: `defer`
    threw).  What it had responded before it threw has gone out. -/
def performOps (deferralEnabled : Bool) : List HandlerOp → List (Int × List Nat) × Option Bool
  | [] => ([], some false)
  | .respond responseId result :: ops =>
      let r := performOps deferralEnabled ops
      ((responseId, result) :: r.1, r.2)
  | .defer :: ops =>
      if deferralEnabled then
        let r := performOps deferralEnabled ops
        (r.1, r.2.map fun _ => true)
      -- `defer` throws: nothing after it is run, and no continuation is scheduled
      else ([], none)

/-- A request on its way to the server; `origin` is the request it is. -/
structure OutboundMessage where
  id : Int
  token : Nat
  payload : List Nat
  origin : Nat
deriving DecidableEq, Repr

/-- A message on its way to the client; `origin` is the request it answers, if any. -/
structure InboundMessage where
  id : Int
  payload : List Nat
  origin : Option Nat
deriving DecidableEq, Repr

/-- A continuation in the apartment queue. -/
structure ContinuationTask where
  token : Nat
  origin : Nat
deriving DecidableEq, Repr

/-- `class server_session`: its handlers, and its apartment queue, if it has one. -/
structure ServerSession where
  handlers : Int → Bool
  apartmentQueue : Option (List ContinuationTask)

/-- A request as the client made it. -/
structure RequestRecord (C : Type) where
  token : Nat
  callbacks : List (Int × C)
  /-- the handle was not released -/
  alive : Bool

/-- The callback a request registered for a response id. -/
def RequestRecord.callbackFor (r : RequestRecord C) (responseId : Int) : Option C :=
  (r.callbacks.find? fun p => p.1 = responseId).map Prod.snd

/-- A subscription as the client made it. -/
structure SubscriptionRecord (C : Type) where
  id : Int
  callback : C
  alive : Bool

/-- Both sessions, and the channel between them. -/
structure IpcSystem (C : Type) where
  client : ClientSession C
  server : ServerSession
  /-- requests the server did not get yet, in no order -/
  outbound : List OutboundMessage
  /-- messages the client did not get yet, in no order -/
  inbound : List InboundMessage
  /-- all that were made, also those released -/
  requests : List (RequestRecord C)
  subscriptions : List (SubscriptionRecord C)

inductive IpcAction (C : Type)
  | request (id : Int) (payload : List Nat) (responseId : Int) (callback : C)
  | requestMulti (id : Int) (payload : List Nat) (callback : List (Int × C))
  /-- the handle of a request goes -/
  | release (request : Nat)
  | subscribe (messageId : Int) (callback : C)
  | unsubscribe (subscription : Nat)
  /-- a handler stays for good -/
  | addHandler (requestId : Int)
  /-- The server gets one of the requests under way; `ops` is what its handler does. -/
  | serve (position : Nat) (ops : List HandlerOp)
  /-- One of the server's tasks is run. -/
  | resume (position : Nat) (ops : List HandlerOp)
  /-- a message of the server that answers nothing -/
  | broadcast (messageId : Int) (payload : List Nat)
  /-- The client gets one of the messages under way. -/
  | deliver (position : Nat)

namespace IpcSystem

def new (hasQueue : Bool) : IpcSystem C :=
  ⟨.new, ⟨fun _ => false, if hasQueue then some [] else none⟩, [], [], [], []⟩

/-- A request was registered and goes out. -/
def sent (s : IpcSystem C) (r : ClientSession C × Nat) (id : Int) (payload : List Nat)
    (callbacks : List (Int × C)) : IpcSystem C :=
  { s with
    client := r.1
    outbound := s.outbound ++ [⟨id, r.2, payload, s.requests.length⟩]
    requests := s.requests ++ [⟨r.2, callbacks, true⟩] }

/-- `response::respond`, for each response of a handler: the token goes first, so that the client
    finds it. -/
def respond (s : IpcSystem C) (token origin : Nat) (responses : List (Int × List Nat)) :
    IpcSystem C :=
  { s with inbound := s.inbound ++ responses.map fun r => ⟨r.1, token :: r.2, some origin⟩ }

/-- A handler, or a continuation, was run with a `response` for `token`; `schedule_continuation`
    if it left one. -/
def handled (s : IpcSystem C) (token origin : Nat) (deferralEnabled : Bool) (ops : List HandlerOp) :
    IpcSystem C :=
  let r := performOps deferralEnabled ops
  let s' := s.respond token origin r.1
  if r.2 = some true then
    { s' with server := { s'.server with
        apartmentQueue := s'.server.apartmentQueue.map fun q => q ++ [⟨token, origin⟩] } }
  else s'

/-- `none`: what nobody may do (a handle that is not alive, a second subscription), or, releasing a
    request that registered two callbacks for one response id, an iterator erased twice. -/
def step (s : IpcSystem C) : IpcAction C → Option (IpcSystem C)
  | .request id payload responseId callback =>
      some (s.sent (s.client.request responseId callback) id payload [(responseId, callback)])
  | .requestMulti id payload callback =>
      some (s.sent (s.client.requestMulti callback) id payload callback)
  -- the handle holds one iterator a callback, and each must be there to be erased
  | .release i =>
      (s.requests[i]?).bind fun r =>
        if r.alive ∧ (r.callbacks.map Prod.fst).Nodup then
          some { s with
            client := s.client.release (r.callbacks.map Prod.fst) r.token
            requests := s.requests.set i { r with alive := false } }
        else none
  | .subscribe messageId callback =>
      if messageId ∈ s.client.messageCallbacks then none
      else some { s with
        client := s.client.subscribe messageId callback
        subscriptions := s.subscriptions ++ [⟨messageId, callback, true⟩] }
  | .unsubscribe i =>
      (s.subscriptions[i]?).bind fun m =>
        if m.alive then
          some { s with
            client := s.client.unsubscribe m.id
            subscriptions := s.subscriptions.set i { m with alive := false } }
        else none
  | .addHandler requestId =>
      some { s with server := { s.server with
        handlers := fun id => if id = requestId then true else s.server.handlers id } }
  | .serve position ops =>
      (s.outbound[position]?).map fun m =>
        let s' := { s with outbound := s.outbound.eraseIdx position }
        -- a request nobody handles is dropped
        if s.server.handlers m.id then
          s'.handled m.token m.origin s.server.apartmentQueue.isSome ops
        else s'
  | .resume position ops =>
      s.server.apartmentQueue.bind fun q => (q[position]?).map fun task =>
        handled { s with server := { s.server with apartmentQueue := some (q.eraseIdx position) } }
          task.token task.origin true ops
  | .broadcast messageId payload =>
      some { s with inbound := s.inbound ++ [⟨messageId, payload, none⟩] }
  | .deliver position =>
      (s.inbound[position]?).map fun _ => { s with inbound := s.inbound.eraseIdx position }

end IpcSystem

/-- Ids are used for subscriptions, or for responses: `message` would take a response with a
    subscribed id for a message. -/
def IpcAction.Respects (isMessage : Int → Prop) : IpcAction C → Prop
  | .request _ _ responseId _ => ¬ isMessage responseId
  | .requestMulti _ _ callback => ∀ p ∈ callback, ¬ isMessage p.1
  | .subscribe messageId _ => isMessage messageId
  | .serve _ ops | .resume _ ops => ∀ id result, HandlerOp.respond id result ∈ ops → ¬ isMessage id
  | _ => True

/-! ## The maps -/

/-- `insert` puts the value in only if the key is free. -/
theorem lookup_insertNew {K V : Type} [DecidableEq K] (m : AList fun _ : K => V) (k q : K) (v : V) :
    (insertNew m k v).lookup q = if q = k then some ((m.lookup k).getD v) else m.lookup q := by
  unfold insertNew
  by_cases hmem : k ∈ m
  · rw [if_pos hmem]
    obtain ⟨v', hv'⟩ := Option.isSome_iff_exists.mp (AList.lookup_isSome.mpr hmem)
    split
    · next hq => rw [hq, hv']; rfl
    · rfl
  · rw [if_neg hmem, AList.lookup_eq_none.mpr hmem]
    split
    · next hq => rw [hq, AList.lookup_insert]; rfl
    · next hq => rw [AList.lookup_insert_ne hq]

/-- The callbacks of a request under its token, which nothing was registered under.  Of two
    callbacks for one id the first stays. -/
theorem lookup_callbacks (token : Nat) (id : Int × Nat) : ∀ (callback : List (Int × C))
    (m : AList fun _ : Int × Nat => C),
    (callback.foldl (fun m i => insertNew m (i.1, token) i.2) m).lookup id =
      if id.2 = token then
        (m.lookup id).or ((callback.find? fun p => p.1 = id.1).map Prod.snd)
      else m.lookup id := by
  intro callback
  induction callback with
  | nil => intro m; simp
  | cons i callback ih =>
    -- only entries under the token can change; of those, the one for this id
    intro m
    rw [List.foldl_cons, ih, lookup_insertNew]
    obtain ⟨rid, t⟩ := id
    by_cases ht : t = token
    · subst ht
      by_cases hid : rid = i.1
      · subst hid
        cases m.lookup (i.1, t) <;> simp
      · simp [hid, Ne.symm hid]
    · simp [ht]

/-- The handle of a request is released: nothing of it stays, and nothing else goes. -/
theorem lookup_released (token : Nat) (id : Int × Nat) : ∀ (ids : List Int)
    (m : AList fun _ : Int × Nat => C),
    (ids.foldl (fun m i => m.erase (i, token)) m).lookup id =
      if id.2 = token ∧ id.1 ∈ ids then none else m.lookup id := by
  intro ids
  induction ids with
  | nil => intro m; simp
  | cons i ids ih =>
    intro m
    rw [List.foldl_cons, ih]
    by_cases heq : id = (i, token)
    · subst heq
      simp
    · rw [AList.lookup_erase_ne heq]
      have hne : ¬ (id.2 = token ∧ id.1 = i) := fun h => heq (Prod.ext h.2 h.1)
      by_cases hid : id.2 = token
      · have hi : id.1 ≠ i := fun h => hne ⟨hid, h⟩
        simp [hid, hi]
      · simp [hid]

/-- `message` finds what is registered for the id and the token. -/
theorem ClientSession.message_response (c : ClientSession C) {id : Int}
    (hid : c.messageCallbacks.lookup id = none) (token : Nat) (payload : List Nat) :
    c.message id (token :: payload) =
      match c.callbacks.lookup (id, token) with
      | some i => .response i payload
      | none => .dropped := by
  unfold ClientSession.message
  rw [hid]
  dsimp only
  split
  · rfl
  · -- nobody waits for the id, so the token is not in the map either
    next hnone =>
    cases hlookup : c.callbacks.lookup (id, token) with
    | none => rfl
    | some i =>
      refine absurd (List.any_eq_true.mpr ⟨(id, token), ?_, by simp⟩) hnone
      exact AList.mem_keys.mp (AList.lookup_isSome.mp (by rw [hlookup]; rfl))

/-! ## Runs -/

namespace IpcSystem

/-- The token a request was made with. -/
def tokenOf (s : IpcSystem C) (request : Nat) : Option Nat :=
  (s.requests[request]?).map RequestRecord.token

/-- The INVARIANT of both sessions.  Tokens tell requests apart, the client's maps say who is
    waiting, and everything under way carries the token of the request it comes from. -/
structure Routing (isMessage : Int → Prop) (s : IpcSystem C) : Prop where
  /-- no two requests have one token -/
  distinct : ∀ i j token, s.tokenOf i = some token → s.tokenOf j = some token → i = j
  /-- tokens count up -/
  issued : ∀ i token, s.tokenOf i = some token → token < s.client.token
  /-- nothing waits under a token not issued yet -/
  unused : ∀ id token, s.client.token ≤ token → s.client.callbacks.lookup (id, token) = none
  /-- a request's callbacks are in the map while its handle is alive -/
  registered : ∀ (i : Nat) (r : RequestRecord C), s.requests[i]? = some r → ∀ id,
    s.client.callbacks.lookup (id, r.token) = if r.alive then r.callbackFor id else none
  /-- the subscribers are those of live subscriptions -/
  subscribed : ∀ id c, s.client.messageCallbacks.lookup id = some c ↔
    ∃ i : Nat, ∃ m : SubscriptionRecord C,
      s.subscriptions[i]? = some m ∧ m.alive = true ∧ m.id = id ∧ m.callback = c
  /-- of which there is one an id -/
  single : ∀ (i j : Nat) (m m' : SubscriptionRecord C), s.subscriptions[i]? = some m → s.subscriptions[j]? = some m' →
    m.alive = true → m'.alive = true → m.id = m'.id → i = j
  messages : ∀ m ∈ s.subscriptions, isMessage m.id
  /-- a request goes with its token, -/
  outbound : ∀ m ∈ s.outbound, s.tokenOf m.origin = some m.token
  /-- a continuation keeps it, -/
  tasks : ∀ q ∈ s.server.apartmentQueue, ∀ t ∈ q, s.tokenOf t.origin = some t.token
  /-- and a response brings it back -/
  inbound : ∀ m ∈ s.inbound, ∀ i ∈ m.origin, ¬ isMessage m.id ∧
    ∃ token payload, s.tokenOf i = some token ∧ m.payload = token :: payload

/-- Nothing was asked for, and nothing is under way. -/
theorem new_routing (isMessage : Int → Prop) (hasQueue : Bool) :
    Routing isMessage (new hasQueue : IpcSystem C) where
  distinct := nofun
  issued := nofun
  unused := fun _ _ _ => rfl
  registered := nofun
  subscribed := fun id c => ⟨nofun, fun ⟨_, _, h, _⟩ => by cases h⟩
  single := nofun
  messages := nofun
  outbound := nofun
  tasks := fun q hq t ht => by
    cases hasQueue with
    | false => cases hq
    | true =>
      obtain rfl : [] = q := Option.some.inj hq
      cases ht
  inbound := nofun

/-- What is on record after one more is recorded. -/
theorem recorded {R : Type} {records : List R} {record r : R} {i : Nat}
    (h : (records ++ [record])[i]? = some r) :
    records[i]? = some r ∨ i = records.length ∧ r = record := by
  by_cases hi : i < records.length
  · rw [List.getElem?_append_left hi] at h
    exact Or.inl h
  · obtain ⟨hlt, _⟩ := List.getElem?_eq_some_iff.mp h
    have hlast : i = records.length := by
      rw [List.length_append, List.length_singleton] at hlt
      omega
    rw [hlast, List.getElem?_concat_length] at h
    exact Or.inr ⟨hlast, (Option.some.inj h).symm⟩

/-- **A request** is made: nothing was under its token before.  What is under way has other tokens.
    -/
theorem Routing.sent {isMessage : Int → Prop} {s : IpcSystem C} (h : Routing isMessage s)
    {c : ClientSession C} (hc : c.token = s.client.token + 1)
    (hmessages : c.messageCallbacks = s.client.messageCallbacks) (id : Int) (payload : List Nat)
    {callbacks : List (Int × C)}
    (hcallbacks : ∀ q, c.callbacks.lookup q = if q.2 = s.client.token
      then (s.client.callbacks.lookup q).or ((callbacks.find? fun p => p.1 = q.1).map Prod.snd)
      else s.client.callbacks.lookup q) :
    Routing isMessage (s.sent (c, s.client.token) id payload callbacks) := by
  let record : RequestRecord C := ⟨s.client.token, callbacks, true⟩
  have hrequests : ∀ (i : Nat) r, (s.requests ++ [record])[i]? = some r →
      s.requests[i]? = some r ∨ i = s.requests.length ∧ r = record := fun i r => recorded
  have hold : ∀ i token, s.tokenOf i = some token →
      tokenOf (s.sent (c, s.client.token) id payload callbacks) i = some token := by
    intro i token hi
    obtain ⟨r, hr, rfl⟩ := Option.map_eq_some_iff.mp hi
    obtain ⟨hlt, _⟩ := List.getElem?_eq_some_iff.mp hr
    exact Option.map_eq_some_iff.mpr ⟨r, (List.getElem?_append_left hlt).trans hr, rfl⟩
  have htokens : ∀ i token, tokenOf (s.sent (c, s.client.token) id payload callbacks) i = some token →
      s.tokenOf i = some token ∨ i = s.requests.length ∧ token = s.client.token := by
    intro i token hi
    obtain ⟨r, hr, rfl⟩ := Option.map_eq_some_iff.mp hi
    rcases hrequests i r hr with hr | ⟨hlast, rfl⟩
    · exact Or.inl (Option.map_eq_some_iff.mpr ⟨r, hr, rfl⟩)
    · exact Or.inr ⟨hlast, rfl⟩
  refine ⟨?_, ?_, ?_, ?_, ?_, h.single, h.messages, ?_, ?_, ?_⟩
  · -- tokens stay distinct: the new one was not issued before
    intro i j token hi hj
    rcases htokens i token hi with hi | ⟨hi, hit⟩
    · rcases htokens j token hj with hj | ⟨_, hjt⟩
      · exact h.distinct i j token hi hj
      · have hlt := h.issued i token hi
        omega
    · rcases htokens j token hj with hj | ⟨hj, _⟩
      · have hlt := h.issued j token hj
        omega
      · omega
  · -- and below the next one
    intro i token hi
    show token < c.token
    rcases htokens i token hi with hi | ⟨_, rfl⟩
    · have hlt := h.issued i token hi
      omega
    · omega
  · intro q token hle
    change c.token ≤ token at hle
    show c.callbacks.lookup (q, token) = none
    rw [hcallbacks, if_neg (show token ≠ s.client.token by omega)]
    exact h.unused q token (by omega)
  · -- the callbacks of the others are untouched, those of the new one are in the map
    intro i r hr q
    show c.callbacks.lookup (q, r.token) = _
    rw [hcallbacks]
    rcases hrequests i r hr with hr | ⟨_, rfl⟩
    · have hlt := h.issued i r.token (Option.map_eq_some_iff.mpr ⟨r, hr, rfl⟩)
      rw [if_neg (show r.token ≠ s.client.token by omega)]
      exact h.registered i r hr q
    · rw [if_pos rfl, h.unused q _ (Nat.le_refl _)]
      rfl
  · intro q k
    show c.messageCallbacks.lookup q = some k ↔ _
    rw [hmessages]
    exact h.subscribed q k
  · intro m hm
    rcases List.mem_append.mp hm with hm | hm
    · exact hold _ _ (h.outbound m hm)
    · rw [List.mem_singleton.mp hm]
      exact Option.map_eq_some_iff.mpr ⟨record, List.getElem?_concat_length .., rfl⟩
  · exact fun q hq t ht => hold _ _ (h.tasks q hq t ht)
  · -- what the client has not got yet answers old requests
    intro m hm i hi
    obtain ⟨hid, token, body, htoken, hbody⟩ := h.inbound m hm i hi
    exact ⟨hid, token, body, hold _ _ htoken, hbody⟩

/-- **A request's handle** is released.  Its record stays, without being alive. -/
theorem Routing.release {isMessage : Int → Prop} {s : IpcSystem C} (h : Routing isMessage s)
    {i : Nat} {r : RequestRecord C} (hr : s.requests[i]? = some r) :
    Routing isMessage { s with
      client := s.client.release (r.callbacks.map Prod.fst) r.token
      requests := s.requests.set i { r with alive := false } } := by
  have hlt : i < s.requests.length := (List.getElem?_eq_some_iff.mp hr).1
  have htokens : ∀ j, tokenOf { s with
      client := s.client.release (r.callbacks.map Prod.fst) r.token
      requests := s.requests.set i { r with alive := false } } j = s.tokenOf j := by
    intro j
    unfold tokenOf
    dsimp only
    by_cases hj : j = i
    · subst hj
      rw [List.getElem?_set_self hlt, hr]
      rfl
    · rw [List.getElem?_set_ne (Ne.symm hj)]
  have hlookup : ∀ q, (s.client.release (r.callbacks.map Prod.fst) r.token).callbacks.lookup q =
      if q.2 = r.token ∧ q.1 ∈ r.callbacks.map Prod.fst then none else s.client.callbacks.lookup q :=
    fun q => lookup_released r.token q _ _
  refine ⟨?_, ?_, ?_, ?_, h.subscribed, h.single, h.messages, ?_, ?_, ?_⟩
  · intro j k token hj hk
    rw [htokens] at hj hk
    exact h.distinct j k token hj hk
  · intro j token hj
    rw [htokens] at hj
    exact h.issued j token hj
  · -- nothing appears in the map
    intro id token hle
    show (s.client.release _ _).callbacks.lookup _ = none
    rw [hlookup]
    split
    · rfl
    · exact h.unused id token hle
  · -- its own callbacks are out, those of the others stay
    intro j r' hr' id
    show (s.client.release _ _).callbacks.lookup _ = _
    change (s.requests.set i _)[j]? = some r' at hr'
    rw [hlookup]
    by_cases hj : j = i
    · subst hj
      rw [List.getElem?_set_self hlt] at hr'
      obtain rfl := Option.some.inj hr'
      by_cases hid : id ∈ r.callbacks.map Prod.fst
      · rw [if_pos ⟨rfl, hid⟩]
        rfl
      · rw [if_neg fun hand => hid hand.2, h.registered j r hr id]
        -- an id the request did not register was not there before either
        have hnone : r.callbackFor id = none := by
          refine Option.map_eq_none_iff.mpr (List.find?_eq_none.mpr fun p hp heq => hid ?_)
          exact List.mem_map.mpr ⟨p, hp, of_decide_eq_true heq⟩
        rw [hnone]
        split <;> rfl
    · rw [List.getElem?_set_ne (Ne.symm hj)] at hr'
      -- other requests have other tokens: their callbacks stay
      have hne : r'.token ≠ r.token := fun heq =>
        hj (h.distinct j i r.token (Option.map_eq_some_iff.mpr ⟨r', hr', heq⟩)
          (Option.map_eq_some_iff.mpr ⟨r, hr, rfl⟩))
      rw [if_neg fun hand => hne hand.1]
      exact h.registered j r' hr' id
  · exact fun m hm => (htokens _).trans (h.outbound m hm)
  · exact fun q hq t ht => (htokens _).trans (h.tasks q hq t ht)
  · intro m hm j hj
    obtain ⟨hid, token, body, htoken, hbody⟩ := h.inbound m hm j hj
    exact ⟨hid, token, body, (htokens j).trans htoken, hbody⟩

/-- **A subscription** is made, for an id that has none alive. -/
theorem Routing.subscribe {isMessage : Int → Prop} {s : IpcSystem C} (h : Routing isMessage s)
    {messageId : Int} (hid : isMessage messageId) (hnone : messageId ∉ s.client.messageCallbacks)
    (callback : C) :
    Routing isMessage { s with
      client := s.client.subscribe messageId callback
      subscriptions := s.subscriptions ++ [⟨messageId, callback, true⟩] } := by
  let record : SubscriptionRecord C := ⟨messageId, callback, true⟩
  have hlookup : s.client.messageCallbacks.lookup messageId = none := AList.lookup_eq_none.mpr hnone
  have hcases : ∀ (i : Nat) m, (s.subscriptions ++ [record])[i]? = some m →
      s.subscriptions[i]? = some m ∨ i = s.subscriptions.length ∧ m = record := fun i m => recorded
  -- no live subscription has the id yet
  have hfree : ∀ (i : Nat) m, s.subscriptions[i]? = some m → m.alive = true → m.id ≠ messageId := by
    intro i m hm halive heq
    have hsome := (h.subscribed messageId m.callback).mpr ⟨i, m, hm, halive, heq, rfl⟩
    rw [hlookup] at hsome
    cases hsome
  refine ⟨h.distinct, h.issued, h.unused, h.registered, ?_, ?_, ?_, h.outbound, h.tasks, h.inbound⟩
  · intro id c
    show (insertNew s.client.messageCallbacks messageId callback).lookup id = some c ↔ _
    rw [lookup_insertNew, hlookup, Option.getD_none]
    constructor
    · intro hc
      split at hc
      · next heq =>
        refine ⟨s.subscriptions.length, record, List.getElem?_concat_length .., rfl, heq.symm, ?_⟩
        exact Option.some.inj hc
      · obtain ⟨i, m, hm, hrest⟩ := (h.subscribed id c).mp hc
        obtain ⟨hlt, _⟩ := List.getElem?_eq_some_iff.mp hm
        exact ⟨i, m, (List.getElem?_append_left hlt).trans hm, hrest⟩
    · -- a live one is an old one, or the new one
      rintro ⟨i, m, hm, halive, rfl, rfl⟩
      rcases hcases i m hm with hm | ⟨_, rfl⟩
      · rw [if_neg (hfree i m hm halive)]
        exact (h.subscribed m.id m.callback).mpr ⟨i, m, hm, halive, rfl, rfl⟩
      · rw [if_pos rfl]
  · intro i j m m' hm hm' halive halive' hid
    rcases hcases i m hm with hm | ⟨hi, rfl⟩
    · rcases hcases j m' hm' with hm' | ⟨_, rfl⟩
      · exact h.single i j m m' hm hm' halive halive' hid
      · exact absurd hid (hfree i m hm halive)
    · rcases hcases j m' hm' with hm' | ⟨hj, _⟩
      · exact absurd hid.symm (hfree j m' hm' halive')
      · omega
  · intro m hm
    rcases List.mem_append.mp hm with hm | hm
    · exact h.messages m hm
    · rw [List.mem_singleton.mp hm]
      exact hid

/-- **A subscription's handle** is released: the id is free again. -/
theorem Routing.unsubscribe {isMessage : Int → Prop} {s : IpcSystem C} (h : Routing isMessage s)
    {i : Nat} {m : SubscriptionRecord C} (hm : s.subscriptions[i]? = some m) (halive : m.alive = true) :
    Routing isMessage { s with
      client := s.client.unsubscribe m.id
      subscriptions := s.subscriptions.set i { m with alive := false } } := by
  have hlt : i < s.subscriptions.length := (List.getElem?_eq_some_iff.mp hm).1
  have hcases : ∀ (j : Nat) m', (s.subscriptions.set i { m with alive := false })[j]? = some m' →
      m'.alive = true → j ≠ i ∧ s.subscriptions[j]? = some m' := by
    intro j m' hm' halive'
    by_cases hj : j = i
    · subst hj
      rw [List.getElem?_set_self hlt] at hm'
      obtain rfl := Option.some.inj hm'
      cases halive'
    · rw [List.getElem?_set_ne (Ne.symm hj)] at hm'
      exact ⟨hj, hm'⟩
  refine ⟨h.distinct, h.issued, h.unused, h.registered, ?_, ?_, ?_, h.outbound, h.tasks, h.inbound⟩
  · intro id c
    show (s.client.messageCallbacks.erase m.id).lookup id = some c ↔ _
    constructor
    · intro hc
      have hne : id ≠ m.id := by
        rintro rfl
        rw [AList.lookup_erase] at hc
        cases hc
      rw [AList.lookup_erase_ne hne] at hc
      obtain ⟨j, m', hm', halive', hid', hrest⟩ := (h.subscribed id c).mp hc
      refine ⟨j, m', ?_, halive', hid', hrest⟩
      have hj : i ≠ j := by
        rintro rfl
        obtain rfl : m = m' := Option.some.inj (hm.symm.trans hm')
        exact hne hid'.symm
      exact (List.getElem?_set_ne hj).trans hm'
    · rintro ⟨j, m', hm', halive', rfl, rfl⟩
      obtain ⟨hj, hold⟩ := hcases j m' hm' halive'
      have hne : m'.id ≠ m.id := fun heq => hj (h.single j i m' m hold hm halive' halive heq)
      rw [AList.lookup_erase_ne hne]
      exact (h.subscribed m'.id m'.callback).mpr ⟨j, m', hold, halive', rfl, rfl⟩
  · intro j k m₁ m₂ hm₁ hm₂ halive₁ halive₂ hid
    exact h.single j k m₁ m₂ (hcases j m₁ hm₁ halive₁).2 (hcases k m₂ hm₂ halive₂).2 halive₁ halive₂ hid
  · intro m' hm'
    rcases List.mem_or_eq_of_mem_set hm' with hm' | rfl
    · exact h.messages m' hm'
    · exact h.messages m (List.mem_of_getElem? hm)

/-- A step that sends no request and releases nothing changes what is under way only. -/
theorem Routing.underway {isMessage : Int → Prop} {s s' : IpcSystem C} (h : Routing isMessage s)
    (hclient : s'.client = s.client) (hrequests : s'.requests = s.requests)
    (hsubscriptions : s'.subscriptions = s.subscriptions)
    (houtbound : ∀ m ∈ s'.outbound, m ∈ s.outbound)
    (htasks : ∀ q ∈ s'.server.apartmentQueue, ∀ t ∈ q, s.tokenOf t.origin = some t.token)
    (hinbound : ∀ m ∈ s'.inbound, m ∈ s.inbound ∨ ∀ i ∈ m.origin, ¬ isMessage m.id ∧
      ∃ token payload, s.tokenOf i = some token ∧ m.payload = token :: payload) :
    Routing isMessage s' := by
  have htokens : ∀ i, s'.tokenOf i = s.tokenOf i := fun i => by rw [tokenOf, hrequests, tokenOf]
  refine ⟨?_, ?_, ?_, ?_, ?_, ?_, ?_, ?_, ?_, ?_⟩
  · intro i j token hi hj
    rw [htokens] at hi hj
    exact h.distinct i j token hi hj
  · intro i token hi
    rw [htokens] at hi
    rw [hclient]
    exact h.issued i token hi
  · rw [hclient]
    exact h.unused
  · rw [hclient, hrequests]
    exact h.registered
  · rw [hclient, hsubscriptions]
    exact h.subscribed
  · rw [hsubscriptions]
    exact h.single
  · rw [hsubscriptions]
    exact h.messages
  · exact fun m hm => (htokens _).trans (h.outbound m (houtbound m hm))
  · exact fun q hq t ht => (htokens _).trans (htasks q hq t ht)
  · intro m hm i hi
    rw [htokens]
    rcases hinbound m hm with hold | hnew
    · exact h.inbound m hold i hi
    · exact hnew i hi

/-- A handler responds with what its operations say.  By recursion on them. -/
theorem performOps_responds (deferralEnabled : Bool) : ∀ (ops : List HandlerOp),
    ∀ r ∈ (performOps deferralEnabled ops).1, HandlerOp.respond r.1 r.2 ∈ ops
  | [], r, hr => by cases hr
  | .respond id result :: ops, r, hr => by
    rcases List.mem_cons.mp hr with rfl | hr
    · exact List.mem_cons_self
    · exact List.mem_cons_of_mem _ (performOps_responds deferralEnabled ops r hr)
  | .defer :: ops, r, hr => by
    rw [performOps] at hr
    split at hr
    · exact List.mem_cons_of_mem _ (performOps_responds deferralEnabled ops r hr)
    · cases hr

/-- **A handler or a continuation** is run for a request: its responses, and what it defers, carry
    the request's token. -/
theorem Routing.handled {isMessage : Int → Prop} {s : IpcSystem C} (h : Routing isMessage s)
    {token origin : Nat} (htoken : s.tokenOf origin = some token) (deferralEnabled : Bool)
    {ops : List HandlerOp} (hops : ∀ id result, HandlerOp.respond id result ∈ ops → ¬ isMessage id) :
    Routing isMessage (s.handled token origin deferralEnabled ops) := by
  have hrespond : ∀ m ∈ (s.respond token origin (performOps deferralEnabled ops).1).inbound,
      m ∈ s.inbound ∨ ∀ i ∈ m.origin, ¬ isMessage m.id ∧
        ∃ token payload, s.tokenOf i = some token ∧ m.payload = token :: payload := by
    intro m hm
    rcases List.mem_append.mp hm with hm | hm
    · exact Or.inl hm
    · obtain ⟨r, hr, rfl⟩ := List.mem_map.mp hm
      refine Or.inr fun i hi => ?_
      obtain rfl := Option.some.inj hi
      exact ⟨hops _ _ (performOps_responds deferralEnabled ops r hr), token, r.2, htoken, rfl⟩
  unfold IpcSystem.handled
  dsimp only
  split
  · refine h.underway rfl rfl rfl (fun m hm => hm) ?_ hrespond
    intro q hq t ht
    obtain ⟨q', hq', rfl⟩ := Option.map_eq_some_iff.mp hq
    rcases List.mem_append.mp ht with ht | ht
    · exact h.tasks q' hq' t ht
    · rw [List.mem_singleton.mp ht]
      exact htoken
  · exact h.underway rfl rfl rfl (fun m hm => hm) h.tasks hrespond

/-- **Every step** keeps the invariant. -/
theorem Routing.step {isMessage : Int → Prop} {s s' : IpcSystem C} (h : Routing isMessage s)
    {a : IpcAction C} (ha : a.Respects isMessage) (hstep : s.step a = some s') :
    Routing isMessage s' := by
  cases a with
  | request id payload responseId callback =>
    obtain rfl := Option.some.inj hstep
    exact h.sent (c := (s.client.request responseId callback).1) rfl rfl id payload fun q =>
      lookup_callbacks s.client.token q [(responseId, callback)] s.client.callbacks
  | requestMulti id payload callback =>
    -- several callbacks under one token
    obtain rfl := Option.some.inj hstep
    exact h.sent (c := (s.client.requestMulti callback).1) rfl rfl id payload fun q =>
      lookup_callbacks s.client.token q callback s.client.callbacks
  | release i =>
    obtain ⟨r, hr, hif⟩ := Option.bind_eq_some_iff.mp hstep
    split at hif
    · obtain rfl := Option.some.inj hif
      exact h.release hr
    · cases hif
  | subscribe messageId callback =>
    simp only [IpcSystem.step] at hstep
    split at hstep
    · cases hstep
    · next hnone =>
      obtain rfl := Option.some.inj hstep
      exact h.subscribe ha hnone callback
  | unsubscribe i =>
    obtain ⟨m, hm, hif⟩ := Option.bind_eq_some_iff.mp hstep
    split at hif
    · next halive =>
      obtain rfl := Option.some.inj hif
      exact h.unsubscribe hm halive
    · cases hif
  | addHandler requestId =>
    obtain rfl := Option.some.inj hstep
    exact h.underway rfl rfl rfl (fun m hm => hm) h.tasks fun m hm => Or.inl hm
  | serve position ops =>
    -- a request is taken off the wire, and handled under its token
    obtain ⟨m, hm, rfl⟩ := Option.map_eq_some_iff.mp hstep
    have htaken : Routing isMessage { s with outbound := s.outbound.eraseIdx position } :=
      h.underway rfl rfl rfl (fun m hm => List.mem_of_mem_eraseIdx hm) h.tasks fun m hm => Or.inl hm
    dsimp only
    split
    · exact htaken.handled (h.outbound m (List.mem_of_getElem? hm)) _ ha
    · exact htaken
  | resume position ops =>
    -- a task is taken off the queue, and may leave another
    obtain ⟨q, hq, hmap⟩ := Option.bind_eq_some_iff.mp hstep
    obtain ⟨task, htask, rfl⟩ := Option.map_eq_some_iff.mp hmap
    have htaken : Routing isMessage
        { s with server := { s.server with apartmentQueue := some (q.eraseIdx position) } } := by
      refine h.underway rfl rfl rfl (fun m hm => hm) ?_ fun m hm => Or.inl hm
      intro q' hq' t ht
      obtain rfl := Option.some.inj hq'
      exact h.tasks q hq t (List.mem_of_mem_eraseIdx ht)
    exact htaken.handled (h.tasks q hq task (List.mem_of_getElem? htask)) _ ha
  | broadcast messageId payload =>
    obtain rfl := Option.some.inj hstep
    refine h.underway rfl rfl rfl (fun m hm => hm) h.tasks fun m hm => ?_
    rcases List.mem_append.mp hm with hm | hm
    · exact Or.inl hm
    · rw [List.mem_singleton.mp hm]
      exact Or.inr nofun
  | deliver position =>
    -- a message is taken off the wire
    obtain ⟨m, _, rfl⟩ := Option.map_eq_some_iff.mp hstep
    exact h.underway rfl rfl rfl (fun m hm => hm) h.tasks
      fun m hm => Or.inl (List.mem_of_mem_eraseIdx hm)

/-- **Responses are routed exactly**, in every state that can be reached, whichever of the messages
    under way the client gets next: a response reaches the callback that the request it answers
    registered for its id, while that request's handle is alive, and is dropped otherwise; a
    message reaches a subscriber if and only if it has a live subscription for it; distinct
    requests have distinct tokens; and every continuation has the token of the request that
    started it. -/
theorem responses_routed (isMessage : Int → Prop) (hasQueue : Bool) (actions : List (IpcAction C))
    (hids : ∀ a ∈ actions, a.Respects isMessage) (s : IpcSystem C)
    (hrun : Lib.run IpcSystem.step (IpcSystem.new hasQueue) actions = some s) :
    (∀ m ∈ s.inbound, ∀ i ∈ m.origin, ∃ r payload, s.requests[i]? = some r ∧
        m.payload = r.token :: payload ∧
        s.client.message m.id m.payload =
          match if r.alive then r.callbackFor m.id else none with
          | some c => .response c payload
          | none => .dropped) ∧
      (∀ m ∈ s.inbound, m.origin = none → ∀ c payload,
        s.client.message m.id m.payload = .subscriber c payload ↔
          payload = m.payload ∧
            ∃ n ∈ s.subscriptions, n.alive = true ∧ n.id = m.id ∧ n.callback = c) ∧
      (∀ (i j : Nat) r r', s.requests[i]? = some r → s.requests[j]? = some r' → i ≠ j →
        r.token ≠ r'.token) ∧
      ∀ q ∈ s.server.apartmentQueue, ∀ t ∈ q, ∃ r, s.requests[t.origin]? = some r ∧
        t.token = r.token := by
  have h : Routing isMessage s :=
    Lib.run_invariant_on (fun _ _ _ ha h hstep => Routing.step h ha hstep) actions _ s hids
      (new_routing isMessage hasQueue) hrun
  refine ⟨fun m hm i hi => ?_, fun m _ _ c payload => ?_, fun i j r r' hr hr' hne heq => ?_,
    fun q hq t ht => ?_⟩
  · obtain ⟨hid, token, payload, htoken, hpayload⟩ := h.inbound m hm i hi
    obtain ⟨r, hr, rfl⟩ := Option.map_eq_some_iff.mp htoken
    refine ⟨r, payload, hr, hpayload, ?_⟩
    have hnone : s.client.messageCallbacks.lookup m.id = none := by
      cases hlookup : s.client.messageCallbacks.lookup m.id with
      | none => rfl
      | some c =>
        obtain ⟨j, n, hn, _, hnid, _⟩ := (h.subscribed m.id c).mp hlookup
        exact absurd (hnid ▸ h.messages n (List.mem_of_getElem? hn)) hid
    rw [hpayload, s.client.message_response hnone, h.registered i r hr]
  · have hmessage : s.client.message m.id m.payload = .subscriber c payload ↔
        payload = m.payload ∧ s.client.messageCallbacks.lookup m.id = some c := by
      unfold ClientSession.message
      cases hlookup : s.client.messageCallbacks.lookup m.id with
      | some c' =>
        dsimp only
        constructor
        · rintro ⟨⟩
          exact ⟨rfl, rfl⟩
        · rintro ⟨rfl, hc⟩
          rw [Option.some.inj hc]
      | none =>
        refine ⟨fun hsub => ?_, by rintro ⟨_, ⟨⟩⟩⟩
        dsimp only at hsub
        split at hsub
        · split at hsub
          · cases hsub
          · split at hsub <;> cases hsub
        · cases hsub
    rw [hmessage, h.subscribed]
    refine and_congr_right fun _ => ⟨?_, ?_⟩
    · rintro ⟨j, n, hn, hrest⟩
      exact ⟨n, List.mem_of_getElem? hn, hrest⟩
    · rintro ⟨n, hn, hrest⟩
      obtain ⟨j, hj⟩ := List.mem_iff_getElem?.mp hn
      exact ⟨j, n, hj, hrest⟩
  · exact hne (h.distinct i j r.token (Option.map_eq_some_iff.mpr ⟨r, hr, rfl⟩)
      (Option.map_eq_some_iff.mpr ⟨r', hr', heq.symm⟩))
  · obtain ⟨r, hr, htoken⟩ := Option.map_eq_some_iff.mp (h.tasks q hq t ht)
    exact ⟨r, hr, htoken.symm⟩

/-- Two requests with one response id, answered the other way round, the first of them by a
    continuation of a continuation. -/
theorem responses_routed_deferred :
    let actions : List (IpcAction Nat) :=
      [.addHandler 1, .request 1 [] 5 100, .requestMulti 1 [] [(5, 200), (6, 201)],
        .serve 0 [.defer], .serve 0 [.respond 5 [7], .respond 6 [8]], .resume 0 [.defer],
        .resume 0 [.respond 5 [9]], .release 1]
    ∃ s, Lib.run IpcSystem.step (IpcSystem.new true) actions = some s ∧
      s.inbound.map (fun m => (m.id, m.payload, m.origin)) =
        [(5, [2, 7], some 1), (6, [2, 8], some 1), (5, [1, 9], some 0)] ∧
      s.client.message 5 [1, 9] = .response 100 [9] := by
  intro actions
  have hids : ∀ a ∈ actions, a.Respects fun id => id = 0 := by
    simp only [actions, List.forall_mem_cons, IpcAction.Respects]
    simp +decide only [List.mem_cons, HandlerOp.respond.injEq, reduceCtorEq, List.not_mem_nil,
      or_false, false_imp_iff, implies_true, true_and, and_true, and_self]
    refine ⟨?_, ?_⟩
    · rintro id result (⟨rfl, _⟩ | ⟨rfl, _⟩) <;> decide
    · rintro id result ⟨rfl, _⟩
      decide
  obtain ⟨hresponses, _⟩ := responses_routed (fun id => id = 0) true actions hids _ rfl
  refine ⟨_, rfl, rfl, ?_⟩
  obtain ⟨r, payload, hr, hpayload, hmessage⟩ :=
    hresponses ⟨5, [1, 9], some 0⟩ (by decide) 0 rfl
  obtain rfl := Option.some.inj hr
  obtain ⟨_, rfl⟩ := List.cons.inj hpayload
  exact hmessage

end IpcSystem

end MicroProfiler
