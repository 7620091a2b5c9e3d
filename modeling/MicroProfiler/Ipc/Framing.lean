/-
  Messages on a stream: what the endpoints write and how they read it.

  1. **Program** — every endpoint writes a 32-bit size and the bytes.  `client_session::message` and
     `socket_handler::message` (sockets) put the size in network order and send as many bytes as it
     says; the spawned process and its parent (pipes) write it as the machine has it, and then ALL
     the bytes of the payload.  A reader takes a size, resizes its buffer and reads into it
     (`Wire.frame`); nobody looks at how many bytes came.  `handle_session` goes on with a header
     that came in part, the others do not.  At the end of the stream a disconnection is passed on,
     but the client of a spawned process keeps to itself the one that it brought about (`tells`).
     A socket server reads all its sessions into ONE buffer, in whatever order they become readable
     (`Connections.visit`).

  2. **Specification** — each connection gets the messages that were sent on it, in order, and then
     the disconnection if it is told of it, whatever happens on the others; a message the stream
     ends in is passed on with the announced size, what did not come being left over from earlier
     ones.

  3. **The crux (`frame_message`)** — one written message is read as one, whatever the buffer held.
-/
import MicroProfiler.Lib.Flow
import MicroProfiler.Lib.Memory
import Mathlib.Algebra.Group.Nat.Defs
import Mathlib.Data.List.Forall2
import Mathlib.Logic.Function.Basic

namespace MicroProfiler.Ipc

/-- What is different between the endpoints: whether the size is reordered, whether the payload is
    written by its own length (and not by that of the header), whether a header that came in part is
    a header, and whether the end of the stream is no news once this side has closed its own. -/
structure Wire where
  /-- network order of the size -/
  reorder : Bool
  /-- `fwrite` of the payload's own length -/
  whole : Bool
  /-- `recv` gave something, if not all -/
  lenient : Bool
  /-- `if (_outbound)` -/
  guarded : Bool
deriving DecidableEq, Repr

/-- `ipc/src/client_endpoint_sockets.cpp`. -/
def Wire.socketClient : Wire := ⟨true, false, false, false⟩

/-- `ipc/src/server_endpoint_sockets.cpp`. -/
def Wire.socketServer : Wire := ⟨true, false, true, false⟩

/-- `ipc/src/client_endpoint_spawn.cpp`: `if (_outbound) inbound.disconnect()`. -/
def Wire.spawnedClient : Wire := ⟨false, true, false, true⟩

/-- `ipc/src/server_endpoint_spawn.cpp`. -/
def Wire.spawnedServer : Wire := ⟨false, true, false, false⟩

/-- The two ends of a connection: they write alike. -/
structure Wire.Matches (w peer : Wire) : Prop where
  reorder : w.reorder = peer.reorder
  whole : w.whole = peer.whole

/-- The four ends that occur in the source, in pairs. -/
theorem Wire.socketServer_matches : socketServer.Matches socketClient := ⟨rfl, rfl⟩

theorem Wire.socketClient_matches : socketClient.Matches socketServer := ⟨rfl, rfl⟩

theorem Wire.spawnedServer_matches : spawnedServer.Matches spawnedClient := ⟨rfl, rfl⟩

theorem Wire.spawnedClient_matches : spawnedClient.Matches spawnedServer := ⟨rfl, rfl⟩

/-! ## Sizes -/

/-- `sizeof(unsigned int)`. -/
def sizeBytes : Nat := 4

/-- An `unsigned int` in the memory of a little-endian machine. -/
def littleEndian (n : Nat) : List UInt8 := Lib.Memory.leBytes sizeBytes n

/-- Reading it back. -/
theorem leValue_littleEndian {n : Nat} (h : n < 2 ^ 32) :
    Lib.Memory.leValue (littleEndian n) = n := by
  rw [littleEndian, Lib.Memory.leValue_leBytes]
  exact Nat.mod_eq_of_lt h

namespace Wire

/-- `byte_representation::reorder`, on a little-endian machine. -/
def order (w : Wire) (bytes : List UInt8) : List UInt8 := if w.reorder then bytes.reverse else bytes

/-- The size that is announced. -/
def announced (payload : List UInt8) : Nat := payload.length % 2 ^ 32

/-- What a write puts on the stream. -/
def message (w : Wire) (payload : List UInt8) : List UInt8 :=
  w.order (littleEndian (announced payload))
    ++ if w.whole then payload else payload.take (announced payload)

/-- The two ends of a connection write the same. -/
theorem Matches.message {w peer : Wire} (h : w.Matches peer) : peer.message = w.message := by
  funext payload
  rw [Wire.message, Wire.message, order, order, h.reorder, h.whole]

/-- In particular the bytes of the size. -/
theorem Matches.order {w peer : Wire} (h : w.Matches peer) : peer.order = w.order := by
  funext bytes
  rw [Wire.order, Wire.order, h.reorder]

end Wire

/-! ## Reading -/

/-- What a channel is called with: `channel::message` and `channel::disconnect`. -/
inductive Inbound
  | message (payload : List UInt8)
  | disconnect
deriving DecidableEq, Repr

/-- `vector<byte>::resize`. -/
def resize (buffer : List UInt8) (n : Nat) : List UInt8 :=
  buffer.take n ++ List.replicate (n - buffer.length) 0

/-- `recv`, `fread` into the front of a buffer. -/
def overwrite (buffer got : List UInt8) : List UInt8 := got ++ buffer.drop got.length

namespace Wire

/-- Whether what came of a header is taken for one. -/
def accepts (w : Wire) (header : List UInt8) : Bool :=
  header.length == sizeBytes || (w.lenient && !header.isEmpty)

/-- One round of a reader over what is still to come of a stream: what it passes on, the buffer, and
    the rest of the stream, if it goes on.  `junk` is what the size held before it was read. -/
def frame (w : Wire) (junk buffer stream : List UInt8) :
    Inbound × List UInt8 × Option (List UInt8) :=
  -- `fread` or `recv` of the size
  let header := stream.take sizeBytes
  if w.accepts header then
    let size := Lib.Memory.leValue (w.order (overwrite junk header))
    let rest := stream.drop sizeBytes
    let buffer := overwrite (resize buffer size) (rest.take size)
    -- the message is the buffer, as long as announced, whatever came
    (.message buffer, buffer, some (rest.drop size))
  else (.disconnect, buffer, none)

/-- Four bytes are written, -/
theorem littleEndian_length (n : Nat) : (littleEndian n).length = sizeBytes := rfl

/-- and as many read: the order changes no length, -/
theorem order_length (w : Wire) (bytes : List UInt8) : (w.order bytes).length = bytes.length := by
  rw [order]
  split
  · exact List.length_reverse
  · rfl

/-- and undone it is the other end's. -/
theorem order_order (w : Wire) (bytes : List UInt8) : w.order (w.order bytes) = bytes := by
  rw [order, order]
  split
  · exact List.reverse_reverse bytes
  · rfl

/-- A header that came whole is read as the size that was written. -/
theorem size_of_header (w : Wire) {junk : List UInt8} (hjunk : junk.length = sizeBytes) {n : Nat}
    (hn : n < 2 ^ 32) :
    Lib.Memory.leValue (w.order (overwrite junk (w.order (littleEndian n)))) = n := by
  have hdrop : junk.drop (w.order (littleEndian n)).length = [] := by
    rw [order_length, littleEndian_length, ← hjunk]
    exact List.drop_length
  rw [overwrite, hdrop, List.append_nil, order_order, leValue_littleEndian hn]

/-- What is announced fits 32 bits, -/
theorem announced_lt (payload : List UInt8) : announced payload < 2 ^ 32 :=
  Nat.mod_lt _ (Nat.two_pow_pos 32)

/-- and is never more than there is. -/
theorem announced_le (payload : List UInt8) : announced payload ≤ payload.length :=
  Nat.mod_le _ _

/-- What a reader makes of a payload: all of it, below 4 GiB. -/
def carried (payload : List UInt8) : List UInt8 := payload.take (announced payload)

/-- Below 4 GiB nothing is cut. -/
theorem carried_of_lt {payload : List UInt8} (h : payload.length < 2 ^ 32) :
    carried payload = payload := by
  rw [carried, announced, Nat.mod_eq_of_lt h]
  exact List.take_length

/-- It is as long as announced. -/
theorem carried_length (payload : List UInt8) : (carried payload).length = announced payload := by
  rw [carried, List.length_take]
  exact Nat.min_eq_left (announced_le payload)

/-- The bytes after the header are those a reader takes: a pipe needs the payload to be below 4 GiB
    for that. -/
theorem message_eq (w : Wire) {payload : List UInt8} (h : w.whole = true → payload.length < 2 ^ 32) :
    w.message payload = w.order (littleEndian (announced payload)) ++ carried payload := by
  rw [message]
  split
  · next hwhole => rw [carried_of_lt (h hwhole)]
  · rfl

/-- A header at the front, then whatever came of the bytes it announces. -/
theorem frame_header (w : Wire) {junk : List UInt8} (hjunk : junk.length = sizeBytes)
    (buffer : List UInt8) {n : Nat} (hn : n < 2 ^ 32) (rest : List UInt8) :
    w.frame junk buffer (w.order (littleEndian n) ++ rest)
      = (.message (overwrite (resize buffer n) (rest.take n)),
          overwrite (resize buffer n) (rest.take n), some (rest.drop n)) := by
  have hlen : (w.order (littleEndian n)).length = sizeBytes := by
    rw [order_length, littleEndian_length]
  -- the first four bytes are the header, and it came whole
  have htake : (w.order (littleEndian n) ++ rest).take sizeBytes = w.order (littleEndian n) := by
    rw [← hlen]
    exact List.take_left
  have hdrop : (w.order (littleEndian n) ++ rest).drop sizeBytes = rest := by
    rw [← hlen]
    exact List.drop_left
  have haccepts : w.accepts (w.order (littleEndian n)) = true := by
    rw [accepts, hlen]
    rfl
  rw [frame, htake, hdrop, if_pos haccepts, size_of_header w hjunk hn]

/-- `resize` gives the size asked for. -/
theorem resize_length (buffer : List UInt8) (n : Nat) : (resize buffer n).length = n := by
  rw [resize, List.length_append, List.length_take, List.length_replicate]
  omega

/-- **The crux**: a message is read as it was written, whatever the buffer held. -/
theorem frame_message (w : Wire) {junk : List UInt8} (hjunk : junk.length = sizeBytes)
    (buffer : List UInt8) {payload : List UInt8} (h : w.whole = true → payload.length < 2 ^ 32)
    (rest : List UInt8) :
    w.frame junk buffer (w.message payload ++ rest)
      = (.message (carried payload), carried payload, some rest) := by
  have hlen := carried_length payload
  -- a payload as long as the buffer leaves nothing of what was there
  have hover : overwrite (resize buffer (announced payload)) (carried payload) = carried payload := by
    rw [overwrite, hlen, List.drop_of_length_le (Nat.le_of_eq (resize_length _ _)), List.append_nil]
  rw [message_eq w h, List.append_assoc, frame_header w hjunk buffer (announced_lt payload),
    List.take_left' hlen, List.drop_left' hlen, hover]

/-- At the end of the stream no header comes, lenient or not. -/
theorem frame_nil (w : Wire) (junk buffer : List UInt8) :
    w.frame junk buffer [] = (.disconnect, buffer, none) := by
  have haccepts : w.accepts [] = false := by
    rw [accepts, List.isEmpty_nil, Bool.not_true, Bool.and_false, Bool.or_false]
    rfl
  rw [frame, List.take_nil, haccepts]
  rfl

end Wire

/-! ## Connections that share a buffer -/

/-- The connections of a socket server, with what is still to come on each (`none`: the handler was
    removed), and which of them this side has closed; a client is a server with one connection. -/
structure Connections (ι : Type) where
  /-- of all of them -/
  buffer : List UInt8
  streams : ι → Option (List UInt8)
  closed : ι → Bool
  /-- what the channels were called with, of all connections, in order -/
  passed : List (ι × Inbound)

/-- A connection becomes readable, or this side closes its own end of it (`_outbound.reset()`). -/
inductive Turn (ι : Type)
  | visit (i : ι)
  | close (i : ι)
deriving DecidableEq

/-- Is it passed on? -/
def Wire.tells (w : Wire) (closed : Bool) : Inbound → Bool
  | .message _ => true
  | .disconnect => !(w.guarded && closed)

namespace Connections

variable {ι : Type} [DecidableEq ι]

/-- A connection is readable: one round of its reader. -/
def visit (w : Wire) (junk : List UInt8) (c : Connections ι) (i : ι) : Connections ι :=
  match c.streams i with
  | none => c
  | some stream =>
    let round := w.frame junk c.buffer stream
    { c with
      buffer := round.2.1
      streams := Function.update c.streams i round.2.2
      passed := c.passed ++ if w.tells (c.closed i) round.1 then [(i, round.1)] else [] }

/-- One turn of either kind. -/
def turn (w : Wire) (junk : List UInt8) (c : Connections ι) : Turn ι → Connections ι
  | .visit i => c.visit w junk i
  | .close i => { c with closed := Function.update c.closed i true }

/-- The turns in some order. -/
def serve (w : Wire) (junk : List UInt8) (c : Connections ι) (turns : List (Turn ι)) : Connections ι :=
  turns.foldl (turn w junk) c

/-- How often a connection is visited. -/
def visits (turns : List (Turn ι)) (i : ι) : Nat := turns.count (.visit i)

/-- After how many visits to a connection this side closes its end of it. -/
def closedAfter (i : ι) : List (Turn ι) → Option Nat
  | [] => none
  | .visit j :: rest => (closedAfter i rest).map (· + if j = i then 1 else 0)
  | .close j :: rest => if j = i then some 0 else closedAfter i rest

/-- Is the end of the stream no news, when it comes after `n` rounds? -/
def quiet (w : Wire) (turns : List (Turn ι)) (i : ι) (n : Nat) : Bool :=
  w.guarded && (closedAfter i turns).any (· ≤ n)

/-- The end of a stream, if it is told. -/
def ending (quiet : Bool) : List (Inbound → Prop) := if quiet then [] else [(· = .disconnect)]

/-- What a reader makes of a stream, round by round: whole messages, and at the end the
    disconnection, or a message the stream ends in, and the disconnection. -/
inductive Expects (w : Wire) (quiet : Bool) : List UInt8 → List (Inbound → Prop) → Prop
  /-- nothing more came -/
  | ended : Expects w quiet [] (ending quiet)
  /-- the stream ends inside a message -/
  | cut {n : Nat} {part : List UInt8} : n < 2 ^ 32 → part.length < n →
      Expects w quiet (w.order (littleEndian n) ++ part)
        ((fun x => ∃ padding, padding.length = n - part.length ∧ x = .message (part ++ padding)) ::
          ending quiet)
  /-- a whole one, which pipes carry below 4 GiB only -/
  | message {payload rest : List UInt8} {rounds : List (Inbound → Prop)} :
      (w.whole = true → payload.length < 2 ^ 32) → Expects w quiet rest rounds →
      Expects w quiet (w.message payload ++ rest) ((· = .message (Wire.carried payload)) :: rounds)

/-- One round: the first of what is expected is passed on, the rest is expected of what is left; or
    the stream is over, and that is not told. -/
theorem Expects.frame {w : Wire} {junk : List UInt8} (hjunk : junk.length = sizeBytes)
    (buffer : List UInt8) {closed : Bool} {stream : List UInt8} {rounds : List (Inbound → Prop)}
    (h : Expects w (w.guarded && closed) stream rounds) :
    (∃ first more, rounds = first :: more ∧ first (w.frame junk buffer stream).1 ∧
      w.tells closed (w.frame junk buffer stream).1 = true ∧
      match (w.frame junk buffer stream).2.2 with
      | none => more = []
      | some rest => Expects w (w.guarded && closed) rest more) ∨
    (rounds = [] ∧ w.tells closed (w.frame junk buffer stream).1 = false ∧
      (w.frame junk buffer stream).2.2 = none) := by
  cases h with
  | ended =>
    -- the disconnection is told or kept
    rw [Wire.frame_nil]
    unfold ending Wire.tells
    cases w.guarded && closed with
    | false => exact .inl ⟨_, [], rfl, rfl, rfl, rfl⟩
    | true => exact .inr ⟨rfl, rfl, rfl⟩
  | @cut n part hn hpart =>
    -- the message is as long as announced: after what came stands what the buffer held
    rw [Wire.frame_header w hjunk buffer hn]
    refine .inl ⟨_, _, rfl, ⟨(resize buffer n).drop part.length, ?_, ?_⟩, rfl, ?_⟩
    · rw [List.length_drop, Wire.resize_length]
    · rw [List.take_of_length_le (Nat.le_of_lt hpart)]
      rfl
    · dsimp only
      rw [List.drop_of_length_le (Nat.le_of_lt hpart)]
      exact .ended
  | @message payload rest more hwhole hrest =>
    rw [Wire.frame_message w hjunk buffer hwhole]
    exact .inl ⟨_, _, rfl, rfl, rfl, hrest⟩

/-- On an open end the reader tells something: at least the disconnection. -/
theorem Expects.ne_nil {w : Wire} {stream : List UInt8} {rounds : List (Inbound → Prop)}
    (h : Expects w false stream rounds) : rounds ≠ [] := by
  intro heq
  subst heq
  cases h

/-- This side closes its own end: the end of the stream is not told any more. -/
theorem Expects.close {w : Wire} {stream : List UInt8} {rounds : List (Inbound → Prop)}
    (h : Expects w false stream rounds) : Expects w true stream rounds.dropLast := by
  induction h with
  | ended => exact .ended
  | cut hn hpart => exact .cut hn hpart
  | message hwhole hrest ih =>
    -- messages are told as before; the last round is the disconnection still
    rw [List.dropLast_cons_of_ne_nil hrest.ne_nil]
    exact .message hwhole ih

/-- What came of a connection matches what was expected, and the rest is still to come. -/
def Served (w : Wire) (rounds : List (Inbound → Prop)) (c : Connections ι) (i : ι) (k : Nat) :
    Prop :=
  List.Forall₂ (fun P x => P x) (rounds.take k) (Lib.ofParty i c.passed) ∧
    match c.streams i with
    | none => rounds.drop k = []
    | some stream => Expects w (w.guarded && c.closed i) stream (rounds.drop k)

/-- A visit to another connection leaves this one alone. -/
theorem visit_other (w : Wire) (junk : List UInt8) (c : Connections ι) {i j : ι} (hne : j ≠ i) :
    Lib.ofParty i (visit w junk c j).passed = Lib.ofParty i c.passed ∧
      (visit w junk c j).streams i = c.streams i ∧ (visit w junk c j).closed i = c.closed i := by
  rw [visit]
  split
  · exact ⟨rfl, rfl, rfl⟩
  · refine ⟨?_, Function.update_of_ne (Ne.symm hne) _ _, rfl⟩
    dsimp only
    split
    · exact Lib.ofParty_append_other hne _ _
    · rw [List.append_nil]

/-- So what is said of this one stays. -/
theorem Served.other {w : Wire} {junk : List UInt8} {rounds : List (Inbound → Prop)}
    {c : Connections ι} {i j : ι} {k : Nat} (h : Served w rounds c i k) (hne : j ≠ i) :
    Served w rounds (visit w junk c j) i k := by
  obtain ⟨hpassed, hstreams, hclosed⟩ := visit_other w junk c hne
  rw [Served, hpassed, hstreams, hclosed]
  exact h

/-- What was expected is over. -/
theorem drop_eq_nil_succ {rounds : List (Inbound → Prop)} {k : Nat} (h : rounds.drop k = []) :
    rounds.take (k + 1) = rounds.take k ∧ rounds.drop (k + 1) = [] := by
  have hlen := List.drop_eq_nil_iff.mp h
  rw [List.take_of_length_le hlen, List.take_of_length_le (Nat.le_succ_of_le hlen)]
  exact ⟨rfl, List.drop_of_length_le (Nat.le_succ_of_le hlen)⟩

/-- **A visit** is one round: the first of what is expected comes next. -/
theorem Served.self {w : Wire} {junk : List UInt8} (hjunk : junk.length = sizeBytes)
    {rounds : List (Inbound → Prop)} {c : Connections ι} {i : ι} {k : Nat}
    (h : Served w rounds c i k) : Served w rounds (visit w junk c i) i (k + 1) := by
  obtain ⟨hpassed, hrest⟩ := h
  rw [visit]
  cases hstream : c.streams i with
  | none =>
    -- the handler was removed: nothing was expected any more
    simp only [hstream] at hrest
    obtain ⟨htake, hdrop⟩ := drop_eq_nil_succ hrest
    rw [Served, hstream, htake]
    exact ⟨hpassed, hdrop⟩
  | some stream =>
    simp only [hstream] at hrest
    rcases hrest.frame hjunk c.buffer with ⟨first, more, hcons, hfirst, htells, hmore⟩ | ⟨hnil, htells, hover⟩
    · have hdrop : rounds.drop (k + 1) = more := by
        rw [← List.tail_drop, hcons, List.tail_cons]
      -- what was passed on is one longer, and so is what of the expected is matched
      have htake : rounds.take (k + 1) = rounds.take k ++ [first] := by
        have hhead : rounds[k]? = some first := by
          rw [← List.head?_drop, hcons, List.head?_cons]
        rw [List.take_add_one, hhead]
        rfl
      refine ⟨?_, ?_⟩
      · dsimp only
        rw [htake, if_pos htells, Lib.ofParty_append, Lib.ofParty_cons_self, Lib.ofParty_nil]
        exact List.rel_append hpassed (.cons hfirst .nil)
      · simp only [Function.update_self]
        rw [hdrop]
        exact hmore
    · -- the stream is over and that is not told
      obtain ⟨htake, hdrop⟩ := drop_eq_nil_succ hnil
      refine ⟨?_, ?_⟩
      · dsimp only
        rw [htake, if_neg (by rw [htells]; exact Bool.false_ne_true), List.append_nil]
        exact hpassed
      · simp only [Function.update_self, hover]
        exact hdrop

/-- Closing another connection leaves this one alone. -/
theorem Served.close_other {w : Wire} (junk : List UInt8) {rounds : List (Inbound → Prop)}
    {c : Connections ι} {i j : ι} {k : Nat} (h : Served w rounds c i k) (hne : j ≠ i) :
    Served w rounds (turn w junk c (.close j)) i k ∧
      (turn w junk c (.close j)).closed i = c.closed i := by
  have hsame : (turn w junk c (.close j)).closed i = c.closed i := Function.update_of_ne (Ne.symm hne) _ _
  refine ⟨?_, hsame⟩
  rw [Served, hsame]
  exact h

/-- This side closes its own end, which was open. -/
theorem Served.close {w : Wire} {junk : List UInt8} {rounds : List (Inbound → Prop)} {n : Nat}
    (hn : rounds.length = n + 1) {c : Connections ι} {i : ι} {k : Nat} (h : Served w rounds c i k)
    (hopen : c.closed i = false) :
    Served w (if w.guarded && decide (k ≤ n) then rounds.dropLast else rounds)
      (turn w junk c (.close i)) i k := by
  obtain ⟨hpassed, hrest⟩ := h
  have hself : (turn w junk c (.close i)).closed i = true := Function.update_self ..
  -- an endpoint without the guard tells the end all the same
  cases hguarded : w.guarded with
  | false =>
    rw [hguarded, hopen] at hrest
    rw [Bool.false_and, if_neg Bool.false_ne_true, Served, hself, hguarded]
    exact ⟨hpassed, hrest⟩
  | true =>
    rw [hguarded, hopen] at hrest
    rw [Bool.true_and, Served, hself, hguarded]
    show List.Forall₂ _ _ (Lib.ofParty i c.passed) ∧ match c.streams i with
      | none => _
      | some stream => _
    -- is the end still to come?
    by_cases hk : k ≤ n
    · rw [if_pos (decide_eq_true hk), List.dropLast_eq_take, hn, Nat.add_sub_cancel, List.take_take,
        Nat.min_eq_left hk]
      refine ⟨hpassed, ?_⟩
      cases hstream : c.streams i with
      | none =>
        simp only [hstream] at hrest
        exact absurd (List.drop_eq_nil_iff.mp hrest) (by omega)
      | some stream =>
        simp only [hstream] at hrest ⊢
        have hclose := hrest.close
        rw [List.dropLast_eq_take, List.length_drop, hn] at hclose
        rw [List.drop_take]
        rwa [show n + 1 - k - 1 = n - k by omega] at hclose
    · rw [if_neg (by simpa using hk)]
      refine ⟨hpassed, ?_⟩
      have hover : rounds.drop k = [] := List.drop_of_length_le (by omega)
      cases hstream : c.streams i with
      | none => exact hover
      | some stream =>
        simp only [hstream] at hrest
        exact absurd hover hrest.ne_nil

/-- Turns after which nothing changes about what is told: each visit is a round. -/
theorem Served.serve {w : Wire} {junk : List UInt8} (hjunk : junk.length = sizeBytes)
    {rounds : List (Inbound → Prop)} {i : ι} (turns : List (Turn ι)) {c : Connections ι} {k : Nat}
    (h : Served w rounds c i k) (hclosed : w.guarded = true → c.closed i = true) :
    Served w rounds (serve w junk c turns) i (k + visits turns i) := by
  induction turns generalizing c k with
  | nil => exact h
  | cons t turns ih =>
    cases t with
    | visit j =>
      -- visits close nothing
      have hkept : w.guarded = true → (visit w junk c j).closed i = true := by
        rw [visit]
        split <;> exact hclosed
      by_cases hij : j = i
      · subst hij
        have hnext := ih (h.self hjunk) hkept
        have hcount : visits (.visit j :: turns) j = visits turns j + 1 := List.count_cons_self
        rw [hcount]
        rwa [Nat.add_right_comm, Nat.add_assoc] at hnext
      · have hcount : visits (.visit j :: turns) i = visits turns i :=
          List.count_cons_of_ne (by simpa using hij)
        rw [hcount]
        exact ih (h.other hij) hkept
    | close j =>
      have hcount : visits (.close j :: turns) i = visits turns i := List.count_cons_of_ne (by simp)
      rw [hcount]
      by_cases hij : j = i
      · subst hij
        have hself : (turn w junk c (.close j)).closed j = true := Function.update_self ..
        refine ih ?_ fun _ => hself
        -- closing twice is closing once
        have hquiet : (w.guarded && true) = (w.guarded && c.closed j) := by
          cases hguarded : w.guarded with
          | false => rfl
          | true => rw [hclosed hguarded]
        rw [Served, hself, hquiet]
        exact h
      · obtain ⟨hserved, hsame⟩ := h.close_other junk hij
        exact ih hserved fun hguarded => hsame.trans (hclosed hguarded)

/-- **Any turns**: what was expected is passed on, less the end of the stream if this side has closed
    its own before it came. -/
theorem Served.rounds {w : Wire} {junk : List UInt8} (hjunk : junk.length = sizeBytes)
    {rounds : List (Inbound → Prop)} {i : ι} {n : Nat} (hn : rounds.length = n + 1)
    (turns : List (Turn ι)) {c : Connections ι} {k : Nat} (h : Served w rounds c i k)
    (hopen : c.closed i = false) :
    List.Forall₂ (fun P x => P x)
      ((if w.guarded && (closedAfter i turns).any (k + · ≤ n) then rounds.dropLast else rounds).take
        (k + visits turns i)) (Lib.ofParty i (Connections.serve w junk c turns).passed) := by
  induction turns generalizing c k with
  | nil =>
    rw [closedAfter, Option.any_none, Bool.and_false]
    exact h.1
  | cons t turns ih =>
    cases t with
    | visit j =>
      have hkept : (visit w junk c j).closed i = false := by
        rw [visit]
        split <;> exact hopen
      by_cases hij : j = i
      · subst hij
        have hnext := ih (h.self hjunk) hkept
        have hcount : k + visits (.visit j :: turns) j = k + 1 + visits turns j := by
          have hcons : visits (.visit j :: turns) j = visits turns j + 1 := List.count_cons_self
          omega
        have hany : (closedAfter j (.visit j :: turns)).any (k + · ≤ n) =
            (closedAfter j turns).any (k + 1 + · ≤ n) := by
          rw [closedAfter, if_pos rfl]
          cases closedAfter j turns with
          | none => rfl
          | some m =>
            simp only [Option.map_some, Option.any_some]
            rw [show k + (m + 1) = k + 1 + m by omega]
        rw [hcount, hany]
        exact hnext
      · have hcount : visits (.visit j :: turns) i = visits turns i :=
          List.count_cons_of_ne (by simpa using hij)
        have hafter : closedAfter i (.visit j :: turns) = closedAfter i turns := by
          rw [closedAfter, if_neg hij]
          exact Option.map_id'
        rw [hcount, hafter]
        exact ih (h.other hij) hkept
    | close j =>
      have hcount : visits (.close j :: turns) i = visits turns i := List.count_cons_of_ne (by simp)
      rw [hcount]
      by_cases hij : j = i
      · subst hij
        rw [closedAfter, if_pos rfl, Option.any_some, Nat.add_zero]
        exact ((h.close hn hopen).serve hjunk turns fun _ => Function.update_self ..).1
      · obtain ⟨hserved, hsame⟩ := h.close_other junk hij
        rw [closedAfter, if_neg hij]
        exact ih hserved (hsame.trans hopen)

/-- The messages a reader passes on. -/
def told (payloads : List (List UInt8)) : List Inbound :=
  payloads.map fun payload => .message (Wire.carried payload)

/-- Whole messages on the stream are expected one by one. By induction on them. -/
theorem expects_messages {w : Wire} {payloads : List (List UInt8)}
    (hwhole : w.whole = true → ∀ payload ∈ payloads, payload.length < 2 ^ 32) {rest : List UInt8}
    {rounds : List (Inbound → Prop)} (hrest : Expects w false rest rounds) :
    Expects w false ((payloads.map w.message).flatten ++ rest)
      ((told payloads).map (fun x => (· = x)) ++ rounds) := by
  induction payloads with
  | nil => exact hrest
  | cons payload payloads ih =>
    rw [List.map_cons, List.flatten_cons, List.append_assoc]
    exact .message (fun h => hwhole h payload List.mem_cons_self)
      (ih fun h q hq => hwhole h q (List.mem_cons_of_mem payload hq))

/-- Rounds that are told exactly, and then others. -/
theorem forall₂_exact {xs ys : List Inbound} {rounds : List (Inbound → Prop)}
    (h : List.Forall₂ (fun P x => P x) (xs.map (fun x => (· = x)) ++ rounds) ys) :
    ∃ zs, ys = xs ++ zs ∧ List.Forall₂ (fun P x => P x) rounds zs := by
  induction xs generalizing ys with
  | nil => exact ⟨ys, rfl, h⟩
  | cons x xs ih =>
    rw [List.map_cons, List.cons_append, List.forall₂_cons_left_iff] at h
    obtain ⟨y, ys', rfl, hys', rfl⟩ := h
    obtain ⟨zs, rfl, hzs⟩ := ih hys'
    exact ⟨zs, rfl, hzs⟩

/-- The end of a stream that comes after `n` rounds. -/
def goodbye (w : Wire) (turns : List (Turn ι)) (i : ι) (n : Nat) : List Inbound :=
  if quiet w turns i n then [] else [.disconnect]

/-- Whatever order the connections are read in, though they share one buffer: a connection on which
    whole messages were sent gets those messages in order, then the disconnection, unless it is one
    that this side has closed before and is not told of; one whose stream ends inside a message gets
    that message too, at the announced size, with bytes after those that came that are NOT of this
    message.  (Sockets cut a payload to its size modulo 4 GiB; pipes need payloads below that.) -/
theorem connections_served {w peer : Wire} (hpeer : w.Matches peer) {junk : List UInt8}
    (hjunk : junk.length = sizeBytes) {c : Connections ι} (hnew : c.passed = []) {i : ι}
    (hopen : c.closed i = false) (payloads : List (List UInt8))
    (hwhole : w.whole = true → ∀ payload ∈ payloads, payload.length < 2 ^ 32) (turns : List (Turn ι)) :
    (c.streams i = some (payloads.map peer.message).flatten →
      Lib.ofParty i (serve w junk c turns).passed
        = (told payloads ++ goodbye w turns i payloads.length).take (visits turns i)) ∧
    ∀ n part, n < 2 ^ 32 → part.length < n →
      c.streams i = some ((payloads.map peer.message).flatten ++ (peer.order (littleEndian n) ++ part)) →
      payloads.length + 2 ≤ visits turns i →
      ∃ padding, padding.length = n - part.length ∧
        Lib.ofParty i (serve w junk c turns).passed
          = told payloads ++ .message (part ++ padding) :: goodbye w turns i (payloads.length + 1) := by
  rw [hpeer.message, hpeer.order]
  -- both clauses are the run lemma from the state where nothing was passed on
  have hserved : ∀ stream rounds n, c.streams i = some stream → Expects w false stream rounds →
      rounds.length = n + 1 →
      List.Forall₂ (fun P x => P x)
        ((if quiet w turns i n then rounds.dropLast else rounds).take (visits turns i))
        (Lib.ofParty i (serve w junk c turns).passed) := by
    intro stream rounds n hstream hexpects hn
    have hstart : Served w rounds c i 0 := by
      rw [Served, hstream, hnew, hopen, Bool.and_false]
      exact ⟨.nil, hexpects⟩
    have hend := hstart.rounds hjunk hn turns hopen
    simp only [Nat.zero_add] at hend
    exact hend
  refine ⟨fun hstream => ?_, fun n part hn hpart hstream hcount => ?_⟩
  · -- whole messages: what is expected is exact, so what came is that, as far as visited
    have hall := hserved _ ((told payloads ++ [Inbound.disconnect]).map fun x => (· = x)) payloads.length
      hstream (by simpa [ending] using expects_messages hwhole (Expects.ended (w := w))) (by simp [told])
    have hsame : (if quiet w turns i payloads.length then
        ((told payloads ++ [Inbound.disconnect]).map fun x => (· = x)).dropLast
        else (told payloads ++ [Inbound.disconnect]).map fun x => (· = x)) =
        (told payloads ++ goodbye w turns i payloads.length).map fun x => (· = x) := by
      unfold goodbye
      split
      · rw [List.append_nil, ← List.map_dropLast, List.dropLast_concat]
      · rfl
    rw [hsame, ← List.map_take, ← List.append_nil (List.map _ _)] at hall
    obtain ⟨zs, heq, hzs⟩ := forall₂_exact hall
    rw [heq, List.forall₂_nil_left_iff.1 hzs, List.append_nil]
  · -- a message the stream ends in: the padding is what the buffer held
    have hall := hserved _ _ (payloads.length + 1) hstream (expects_messages hwhole (.cut hn hpart))
      (by simp [told, ending])
    have hsame : ∀ rounds : List (Inbound → Prop), ∀ P,
        (if quiet w turns i (payloads.length + 1) then (rounds ++ P :: ending false).dropLast
          else rounds ++ P :: ending false) =
        rounds ++ P :: ending (quiet w turns i (payloads.length + 1)) := by
      intro rounds P
      unfold ending
      split
      · rw [if_neg Bool.false_ne_true, List.dropLast_append_cons]
        rfl
      · rfl
    -- enough visits: the messages, the cut one, and the end if it is told
    have hlen : ∀ q, (ending q).length ≤ 1 := by
      intro q
      unfold ending
      split <;> simp
    rw [hsame, List.take_of_length_le (by
      have hle := hlen (quiet w turns i (payloads.length + 1))
      simp only [List.length_append, List.length_map, List.length_cons, told]
      omega)] at hall
    obtain ⟨zs, heq, hzs⟩ := forall₂_exact hall
    obtain ⟨x, xs, ⟨padding, hpadding, rfl⟩, hxs, rfl⟩ := List.forall₂_cons_left_iff.1 hzs
    refine ⟨padding, hpadding, heq.trans ?_⟩
    unfold goodbye
    unfold ending at hxs
    split at hxs
    · next hquiet => rw [if_pos hquiet, List.forall₂_nil_left_iff.1 hxs]
    · next htold =>
      obtain ⟨y, ys, rfl, hys, rfl⟩ := List.forall₂_cons_left_iff.1 hxs
      rw [if_neg htold, List.forall₂_nil_left_iff.1 hys]

/-- Two sessions of a server; the peer of the second went away inside a message of four bytes. -/
def twoSessions : Connections Bool where
  buffer := []
  streams
    | true => some (([[1, 2], [3]].map Wire.socketClient.message).flatten)
    | false => some (([[7]].map Wire.socketClient.message).flatten ++
        (Wire.socketClient.order (littleEndian 4) ++ [9]))
  closed _ := false
  passed := []

/-- The only connection of a client. -/
def oneSession (peer : Wire) (payloads : List (List UInt8)) : Connections Unit where
  buffer := []
  streams _ := some (payloads.map peer.message).flatten
  closed _ := false
  passed := []

/-- The sessions of a server, and those of a socket client and of a spawned process and its parent: the
    parent closes its end before the stream is over. -/
theorem connections_served_two :
    (∃ turns : List (Turn Bool),
      Lib.ofParty true (serve .socketServer [0, 0, 0, 0] twoSessions turns).passed
        = [.message [1, 2], .message [3], .disconnect]) ∧
    (∃ turns padding, padding.length = 3 ∧
      Lib.ofParty false (serve .socketServer [0, 0, 0, 0] twoSessions turns).passed
        = [.message [7], .message (9 :: padding), .disconnect]) ∧
    Lib.ofParty () (serve .socketClient [0, 0, 0, 0] (oneSession .socketServer [[5]])
      [.visit (), .visit ()]).passed = [.message [5], .disconnect] ∧
    Lib.ofParty () (serve .spawnedServer [0, 0, 0, 0] (oneSession .spawnedClient [[5]])
      [.visit (), .close (), .visit ()]).passed = [.message [5], .disconnect] ∧
    Lib.ofParty () (serve .spawnedClient [0, 0, 0, 0] (oneSession .spawnedServer [[5]])
      [.visit (), .close (), .visit ()]).passed = [.message [5]] := by
  have hjunk : ([0, 0, 0, 0] : List UInt8).length = sizeBytes := rfl
  let turns : List (Turn Bool) := [.visit true, .visit false, .visit true, .visit false, .visit true,
    .visit false]
  refine ⟨⟨turns, ?_⟩, ⟨turns, ?_⟩, ?_, ?_, ?_⟩
  · exact ((connections_served Wire.socketServer_matches hjunk (rfl : twoSessions.passed = []) rfl
      [[1, 2], [3]] (fun h => by cases h) turns).1 rfl).trans (by decide)
  · obtain ⟨padding, hlen, hpassed⟩ :=
      (connections_served Wire.socketServer_matches hjunk (rfl : twoSessions.passed = []) (i := false) rfl
        [[7]] (fun h => by cases h) turns).2 4 [9] (by decide) (by decide) rfl (by decide)
    exact ⟨padding, hlen, hpassed.trans (by rfl)⟩
  · exact ((connections_served Wire.socketClient_matches hjunk rfl rfl [[5]] (fun h => by cases h) _).1
      rfl).trans (by decide)
  · exact ((connections_served Wire.spawnedServer_matches hjunk rfl rfl [[5]]
      (fun _ payload h => by rw [List.mem_singleton.mp h]; decide) _).1
      rfl).trans (by decide)
  · exact ((connections_served Wire.spawnedClient_matches hjunk rfl rfl [[5]]
      (fun _ payload h => by rw [List.mem_singleton.mp h]; decide) _).1
      rfl).trans (by decide)

end Connections

end MicroProfiler.Ipc
