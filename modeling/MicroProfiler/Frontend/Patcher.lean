/-
  `frontend/src/frontend_patcher.cpp`, against the handlers of `collector_app.cpp`: the protocol by
  which the frontend has functions patched.

  1. **The code** — `apply` and `revert` mark the symbols they ask for and send one request for
     them; the handlers run the `ImagePatchManager`; the response callbacks mark the symbols
     complete.  Requests and responses are two queues, and any party may take its next step at any
     time (`PatchAction`).  A request whose handler threw stays `unanswered`.

  2. **The INVARIANT** (`Agreeing`) — the requested symbols are the symbols of the outstanding
     requests, each named once; a symbol that no processed request names is active on both sides
     or on neither; and an answer under way says what its target became.

  3. **Agreement** (`patch_agreement`), at every moment of every run.
-/
import MicroProfiler.Lib.Keys
import MicroProfiler.Lib.Runs
import MicroProfiler.Patcher.ImagePatchManager

namespace MicroProfiler

/-- `struct patch`. -/
structure Patch where
  /-- given by the other side -/
  id : Nat
  persistentId : Nat
  rva : Nat
  /-- a request is under way -/
  requested : Bool
  /-- it failed once, and is not asked for again -/
  error : Bool
  /-- as far as is known here -/
  active : Bool
deriving DecidableEq, Repr

/-- `set_requested`: the patch, and whether it was marked. -/
def setRequested (p : Patch) (forActive : Bool) : Patch × Bool :=
  -- a symbol that failed once is not asked for again
  if p.active = forActive ∧ p.error = false ∧ p.requested = false then
    ({ p with requested := true }, true)
  else (p, false)

/-- `set_complete`: the request was answered, one way or the other. -/
def setComplete (p : Patch) (result : PatchResult) (active : Bool) : Patch :=
  if result ≠ .ok then { p with requested := false, error := true }
  else { p with requested := false, active := active }

/-- The `patches` table, through its unique index by `keyer::symbol_id`. -/
structure PatchTable where
  find : Nat × Nat → Option Patch

namespace PatchTable

def new : PatchTable := ⟨fun _ => none⟩

/-- `idx[symbol]`, which makes the record if there is none. -/
def record (t : PatchTable) (symbol : Nat × Nat) : Patch :=
  (t.find symbol).getD ⟨0, symbol.1, symbol.2, false, false, false⟩

/-- `rec.commit()`. -/
def commit (t : PatchTable) (symbol : Nat × Nat) (p : Patch) : PatchTable :=
  ⟨Function.update t.find symbol (some p)⟩

end PatchTable

/-- `struct patch_request`. -/
structure PatchRequest where
  imagePersistentId : Nat
  functionsRva : List Nat
deriving DecidableEq, Repr

/-- `request_apply_patches`, `request_revert_patches`. -/
inductive PatchCommand
  | apply
  | revert
deriving DecidableEq, Repr

/-- A request as it was sent. -/
structure SentRequest where
  command : PatchCommand
  payload : PatchRequest
deriving DecidableEq, Repr

/-- `response_patched`, `response_reverted`. -/
inductive PatchResponse
  | patched (results : List (Nat × PatchApply))
  | reverted (results : List (Nat × PatchResult))
deriving DecidableEq, Repr

/-- Both parties and what is between them. -/
structure PatchSystem (L : Type) where
  /-- the frontend's table -/
  patches : PatchTable
  /-- its buffer for the next request -/
  patchRequestPayload : PatchRequest
  /-- on their way, in order -/
  requests : List SentRequest
  /-- the other side's patches -/
  manager : ImagePatchManager L
  /-- on their way back, with the request each answers -/
  responses : List (SentRequest × PatchResponse)
  /-- requests whose handler threw -/
  unanswered : List SentRequest

/-- What may happen next. -/
inductive PatchAction (L : Type)
  | apply (persistentId : Nat) (rva : List Nat)
  | revert (persistentId : Nat) (rva : List Nat)
  /-- The next request is handled; `mapping` is what `lock_mapping` gave, if it did not throw. -/
  | handle (mapping : Option (Nat × L)) (attempts : Nat → Attempt)
  /-- The next response is delivered. -/
  | respond

namespace PatchSystem

variable {L : Type}

def new : PatchSystem L := ⟨.new, ⟨0, []⟩, [], .new, [], []⟩

/-- The body of the loop of `frontend::apply`. -/
def applyOne (persistentId : Nat) (s : PatchTable × List Nat) (rva : Nat) : PatchTable × List Nat :=
  let r := setRequested (s.1.record (persistentId, rva)) false
  (s.1.commit (persistentId, rva) r.1, if r.2 then s.2 ++ [rva] else s.2)

/-- The body of the loop of `frontend::revert`, which makes no records. -/
def revertOne (persistentId : Nat) (s : PatchTable × List Nat) (rva : Nat) : PatchTable × List Nat :=
  match s.1.find (persistentId, rva) with
  -- never asked for, so not active
  | none => s
  | some p =>
      let r := setRequested p true
      (s.1.commit (persistentId, rva) r.1, if r.2 then s.2 ++ [rva] else s.2)

/-- What `apply` and `revert` share: fill the payload, and send it unless it names nothing.  A
    symbol is named if it was marked for it. -/
def send (s : PatchSystem L) (command : PatchCommand)
    (one : PatchTable × List Nat → Nat → PatchTable × List Nat) (persistentId : Nat)
    (rva : List Nat) : PatchSystem L :=
  let r := rva.foldl one (s.patches, [])
  let payload : PatchRequest := ⟨persistentId, r.2⟩
  { s with
    patches := r.1
    patchRequestPayload := payload
    requests := if r.2.isEmpty then s.requests else s.requests ++ [⟨command, payload⟩] }

/-- `frontend::apply`. -/
def apply (s : PatchSystem L) (persistentId : Nat) (rva : List Nat) : PatchSystem L :=
  s.send .apply (applyOne persistentId) persistentId rva

/-- `frontend::revert`. -/
def revert (s : PatchSystem L) (persistentId : Nat) (rva : List Nat) : PatchSystem L :=
  s.send .revert (revertOne persistentId) persistentId rva

/-- The handlers of `request_apply_patches` and `request_revert_patches`; no response when an
    exception left them. -/
def handler (m : ImagePatchManager L) (mapping : Option (Nat × L)) (attempts : Nat → Attempt)
    (r : SentRequest) : ImagePatchManager L × Option PatchResponse :=
  match r.command with
  | .apply =>
      match mapping with
      -- `lock_mapping` throws for an image that is not mapped
      | none => (m, none)
      | some (base, lock) =>
          let a := m.apply attempts r.payload.imagePersistentId base lock r.payload.functionsRva
          (a.1, a.2.map .patched)
  | .revert =>
      let a := m.revert attempts r.payload.imagePersistentId r.payload.functionsRva
      (a.1, a.2.map .reverted)

/-- The loop of a response callback. -/
def completeAll {R : Type} (complete : Patch → R → Patch) (persistentId : Nat) (t : PatchTable)
    (results : List (Nat × R)) : PatchTable :=
  results.foldl (fun t r =>
    t.commit (persistentId, r.1) (complete (t.record (persistentId, r.1)) r.2)) t

/-- The response callbacks, with the `persistent_id` they captured. -/
def callback (persistentId : Nat) (t : PatchTable) : PatchResponse → PatchTable
  | .patched results =>
      completeAll (fun p a => setComplete { p with id := a.id } a.result true) persistentId t results
  | .reverted results => completeAll (fun p e => setComplete p e false) persistentId t results

/-- One step of one party. -/
def step (s : PatchSystem L) : PatchAction L → Option (PatchSystem L)
  | .apply persistentId rva => some (s.apply persistentId rva)
  | .revert persistentId rva => some (s.revert persistentId rva)
  | .handle mapping attempts =>
      match s.requests with
      | [] => none
      | r :: requests =>
          match handler s.manager mapping attempts r with
          | (m, some response) =>
              some { s with
                requests := requests, manager := m, responses := s.responses ++ [(r, response)] }
          -- an exception in the handler: the client gets no response
          | (m, none) =>
              some { s with requests := requests, manager := m, unanswered := s.unanswered ++ [r] }
  | .respond =>
      match s.responses with
      | [] => none
      | (r, response) :: responses =>
          some { s with
            responses := responses
            patches := callback r.payload.imagePersistentId s.patches response }

end PatchSystem

/-! ## What the parties show -/

namespace PatchTable

/-- A symbol's `state.requested`; a symbol without a record has none. -/
def requested (t : PatchTable) (symbol : Nat × Nat) : Bool := (t.record symbol).requested

/-- A symbol's `state.active`. -/
def active (t : PatchTable) (symbol : Nat × Nat) : Bool := (t.record symbol).active

/-- A commit changes the record of its symbol. -/
theorem record_commit (t : PatchTable) (symbol q : Nat × Nat) (p : Patch) :
    (t.commit symbol p).record q = if q = symbol then p else t.record q := by
  unfold record commit
  by_cases h : q = symbol
  · subst h
    rw [if_pos rfl]
    dsimp only
    rw [Function.update_self, Option.getD_some]
  · rw [if_neg h]
    dsimp only
    rw [Function.update_of_ne h]

end PatchTable

/-- The symbols a request names, in order. -/
def SentRequest.symbols (r : SentRequest) : List (Nat × Nat) :=
  r.payload.functionsRva.map fun rva => (r.payload.imagePersistentId, rva)

/-- Exactly one of the requests names the symbol, and it names it once.  This is what `requested` is
    for. -/
def NamedOnce (requests : List SentRequest) (symbol : Nat × Nat) : Prop :=
  ∃ before r after, requests = before ++ r :: after ∧ r.symbols.count symbol = 1 ∧
    ∀ r' ∈ before ++ after, symbol ∉ r'.symbols

namespace PatchSystem

variable {L : Type}

/-- The requests that were sent and whose response was not handled yet, in the order they were sent.
    -/
def outstanding (s : PatchSystem L) : List SentRequest :=
  s.unanswered ++ s.responses.map Prod.fst ++ s.requests

end PatchSystem

namespace PatchResponse

/-- What a response says of each target. -/
def results : PatchResponse → List (Nat × PatchResult)
  | .patched results => results.map fun r => (r.1, r.2.result)
  | .reverted results => results

/-- What the targets that answer `ok` became. -/
def on : PatchResponse → Bool
  | .patched _ => true
  | .reverted _ => false

end PatchResponse

/-! ## The frontend's loops -/

/-- The loop of `apply` or `revert` so far: the targets were idle and are requested now. -/
structure Requesting (forActive : Bool) (persistentId : Nat) (t₀ : PatchTable)
    (s : PatchTable × List Nat) : Prop where
  /-- nothing is activated by asking -/
  active : ∀ symbol, s.1.active symbol = t₀.active symbol
  /-- what was marked is requested besides -/
  requested : ∀ symbol, s.1.requested symbol = true ↔
    t₀.requested symbol = true ∨ symbol ∈ s.2.map fun rva => (persistentId, rva)
  /-- it was idle, and in the other state -/
  idle : ∀ rva ∈ s.2, t₀.requested (persistentId, rva) = false ∧
    t₀.active (persistentId, rva) = forActive
  /-- and is named once -/
  once : s.2.Nodup

/-- Marking one symbol, whose record is `p`. -/
theorem Requesting.mark {forActive : Bool} {persistentId : Nat} {t₀ : PatchTable}
    {s : PatchTable × List Nat} (h : Requesting forActive persistentId t₀ s) (rva : Nat) {p : Patch}
    (hp : s.1.record (persistentId, rva) = p) :
    Requesting forActive persistentId t₀ (s.1.commit (persistentId, rva) (setRequested p forActive).1,
      if (setRequested p forActive).2 then s.2 ++ [rva] else s.2) := by
  unfold setRequested
  split
  · -- marked: it is named, and was not before since it was not requested
    next hidle =>
    obtain ⟨hactive, _, hrequested⟩ := hidle
    have hbefore : s.1.requested (persistentId, rva) = false := by rw [PatchTable.requested, hp, hrequested]
    have hnot : ¬ (t₀.requested (persistentId, rva) = true ∨
        (persistentId, rva) ∈ s.2.map fun rva => (persistentId, rva)) := by
      rw [← h.requested, hbefore]
      decide
    refine ⟨fun symbol => ?_, fun symbol => ?_, fun q hq => ?_, ?_⟩
    · rw [← h.active symbol]
      unfold PatchTable.active
      rw [PatchTable.record_commit]
      split
      · next heq => rw [heq, hp]
      · rfl
    · unfold PatchTable.requested
      rw [PatchTable.record_commit, if_pos rfl, List.map_append, List.mem_append, ← or_assoc]
      have hold := h.requested symbol
      unfold PatchTable.requested at hold
      rw [← hold, List.map_cons, List.map_nil, List.mem_singleton]
      split
      · next heq => exact ⟨fun _ => Or.inr heq, fun _ => rfl⟩
      · next hne => exact ⟨Or.inl, fun h => h.resolve_right hne⟩
    · rw [if_pos rfl] at hq
      rcases List.mem_append.mp hq with hq | hq
      · exact h.idle q hq
      · rw [List.mem_singleton.mp hq]
        refine ⟨Bool.eq_false_iff.mpr fun ht => hnot (Or.inl ht), ?_⟩
        rw [← h.active, PatchTable.active, hp, hactive]
    · rw [if_pos rfl]
      refine Lib.nodup_append_singleton h.once fun hin => ?_
      exact hnot (Or.inr (List.mem_map.mpr ⟨rva, hin, rfl⟩))
  · have hrecord : ∀ symbol, (s.1.commit (persistentId, rva) p).record symbol = s.1.record symbol := by
      intro symbol
      rw [PatchTable.record_commit]
      split
      · next heq => rw [heq, hp]
      · rfl
    refine ⟨fun symbol => ?_, fun symbol => ?_, h.idle, h.once⟩
    · rw [← h.active symbol, PatchTable.active, hrecord, PatchTable.active]
    · have hold := h.requested symbol
      unfold PatchTable.requested at hold ⊢
      rw [hrecord]
      exact hold

/-- **One symbol of `apply`**, with its record made if there was none. -/
theorem Requesting.applyOne {persistentId : Nat} {t₀ : PatchTable} {s : PatchTable × List Nat}
    (h : Requesting false persistentId t₀ s) (rva : Nat) :
    Requesting false persistentId t₀ (PatchSystem.applyOne persistentId s rva) :=
  h.mark rva rfl

/-- **One symbol of `revert`**, if it has a record. -/
theorem Requesting.revertOne {persistentId : Nat} {t₀ : PatchTable} {s : PatchTable × List Nat}
    (h : Requesting true persistentId t₀ s) (rva : Nat) :
    Requesting true persistentId t₀ (PatchSystem.revertOne persistentId s rva) := by
  unfold PatchSystem.revertOne
  cases hfind : s.1.find (persistentId, rva) with
  | none => exact h
  | some p => exact h.mark rva (by rw [PatchTable.record, hfind]; rfl)

/-- The whole loop, from no targets.  By induction on the symbols. -/
theorem Requesting.foldl {forActive : Bool} {persistentId : Nat} {t₀ : PatchTable}
    {one : PatchTable × List Nat → Nat → PatchTable × List Nat}
    (hone : ∀ s rva, Requesting forActive persistentId t₀ s →
      Requesting forActive persistentId t₀ (one s rva)) (rva : List Nat) :
    Requesting forActive persistentId t₀ (rva.foldl one (t₀, [])) := by
  have hstart : Requesting forActive persistentId t₀ (t₀, []) :=
    ⟨fun _ => rfl, fun _ => by rw [List.map_nil]; simp, nofun, List.nodup_nil⟩
  generalize (t₀, ([] : List Nat)) = s at hstart
  induction rva generalizing s with
  | nil => exact hstart
  | cons q rva ih => exact ih (one s q) (hone s q hstart)

/-- **A response callback**: its targets are requested no more, and those that answered `ok` became
    what was asked for.  By induction on the results, whose targets are distinct. -/
theorem completeAll_spec {R : Type} (complete : Patch → R → Patch) (resultOf : R → PatchResult)
    (on : Bool) (hcomplete : ∀ p r, (complete p r).requested = false ∧
      (complete p r).active = if resultOf r = .ok then on else p.active) (persistentId : Nat) :
    ∀ (results : List (Nat × R)) (t : PatchTable), (results.map Prod.fst).Nodup →
      let t' := PatchSystem.completeAll complete persistentId t results
      (∀ symbol, symbol ∉ results.map (fun r => (persistentId, r.1)) →
          t'.record symbol = t.record symbol) ∧
        ∀ r ∈ results, t'.requested (persistentId, r.1) = false ∧
          t'.active (persistentId, r.1) =
            if resultOf r.2 = .ok then on else t.active (persistentId, r.1) := by
  intro results
  induction results with
  | nil => exact fun t _ => ⟨fun _ _ => rfl, nofun⟩
  | cons r results ih =>
    intro t hnodup t'
    rw [List.map_cons, List.nodup_cons] at hnodup
    obtain ⟨hout, hnodup⟩ := hnodup
    obtain ⟨hframe, hdone⟩ := ih
      (t.commit (persistentId, r.1) (complete (t.record (persistentId, r.1)) r.2)) hnodup
    have hsymbol : (persistentId, r.1) ∉ results.map fun q => (persistentId, q.1) := by
      intro hmem
      obtain ⟨q, hq, heq⟩ := List.mem_map.mp hmem
      exact hout (List.mem_map.mpr ⟨q, hq, (Prod.mk.inj heq).2⟩)
    refine ⟨fun symbol hnot => ?_, fun q hq => ?_⟩
    · rw [List.map_cons, List.mem_cons, not_or] at hnot
      exact (hframe symbol hnot.2).trans (by rw [PatchTable.record_commit, if_neg hnot.1])
    · rcases List.mem_cons.mp hq with rfl | hq
      · have hrecord : t'.record (persistentId, q.1) = complete (t.record (persistentId, q.1)) q.2 :=
          (hframe _ hsymbol).trans (by rw [PatchTable.record_commit, if_pos rfl])
        rw [PatchTable.requested, PatchTable.active, hrecord]
        exact hcomplete _ _
      · obtain ⟨hrequested, hactive⟩ := hdone q hq
        refine ⟨hrequested, hactive.trans ?_⟩
        have hne : (persistentId, q.1) ≠ (persistentId, r.1) := fun heq =>
          hout (List.mem_map.mpr ⟨q, hq, (Prod.mk.inj heq).2⟩)
        rw [PatchTable.active, PatchTable.record_commit, if_neg hne]
        rfl

/-- What an answer makes of a patch. -/
theorem setComplete_spec (p : Patch) (result : PatchResult) (on : Bool) :
    (setComplete p result on).requested = false ∧
      (setComplete p result on).active = if result = .ok then on else p.active := by
  unfold setComplete
  by_cases h : result = .ok
  · rw [if_neg (not_not.mpr h), if_pos h]
    exact ⟨rfl, rfl⟩
  · rw [if_pos h, if_neg h]
    exact ⟨rfl, rfl⟩

/-- `completeAll_spec`, for both callbacks. -/
theorem callback_spec (persistentId : Nat) (t : PatchTable) (response : PatchResponse)
    (hnodup : (response.results.map Prod.fst).Nodup) :
    let t' := PatchSystem.callback persistentId t response
    (∀ symbol, symbol ∉ response.results.map (fun r => (persistentId, r.1)) →
        t'.record symbol = t.record symbol) ∧
      ∀ r ∈ response.results, t'.requested (persistentId, r.1) = false ∧
        t'.active (persistentId, r.1) =
          if r.2 = .ok then response.on else t.active (persistentId, r.1) := by
  cases response with
  | patched results =>
    -- the id comes along, which nobody looks at
    simp only [PatchResponse.results, List.map_map] at hnodup ⊢
    obtain ⟨hframe, hdone⟩ := completeAll_spec
      (fun p a => setComplete { p with id := a.id } a.result true) PatchApply.result true
      (fun p a => setComplete_spec _ _ _) persistentId results t hnodup
    refine ⟨hframe, fun r hr => ?_⟩
    obtain ⟨r', hr', rfl⟩ := List.mem_map.mp hr
    exact hdone r' hr'
  | reverted results =>
    exact completeAll_spec (fun p e => setComplete p e false) id false
      (fun p e => setComplete_spec p e false) persistentId results t hnodup

/-! ## The protocol -/

/-- A result is of a symbol the request names. -/
theorem SentRequest.mem_symbols {r : SentRequest} {results : List (Nat × PatchResult)}
    (hresults : results.map Prod.fst = r.payload.functionsRva) {q : Nat × PatchResult}
    (hq : q ∈ results) : (r.payload.imagePersistentId, q.1) ∈ r.symbols := by
  refine List.mem_map.mpr ⟨q.1, ?_, rfl⟩
  rw [← hresults]
  exact List.mem_map_of_mem hq

/-- Where no symbol is named twice, being named is being named once. -/
theorem namedOnce_iff {requests : List SentRequest} {symbol : Nat × Nat}
    (hnodup : (requests.flatMap SentRequest.symbols).Nodup) :
    NamedOnce requests symbol ↔ symbol ∈ requests.flatMap SentRequest.symbols := by
  constructor
  · rintro ⟨before, r, after, rfl, hcount, _⟩
    refine List.mem_flatMap.mpr ⟨r, List.mem_append_right _ List.mem_cons_self, ?_⟩
    exact List.count_pos_iff.mp (by omega)
  · -- the one request that names it, between those before and those after
    intro hmem
    obtain ⟨r, hr, hsymbol⟩ := List.mem_flatMap.mp hmem
    obtain ⟨before, after, rfl⟩ := List.append_of_mem hr
    rw [List.flatMap_append, List.flatMap_cons, List.nodup_append, List.nodup_append] at hnodup
    obtain ⟨_, ⟨hown, _, hlater⟩, hearlier⟩ := hnodup
    refine ⟨before, r, after, rfl, List.count_eq_one_of_mem hown hsymbol, fun r' hr' hin => ?_⟩
    rcases List.mem_append.mp hr' with hr' | hr'
    · exact hearlier symbol (List.mem_flatMap.mpr ⟨r', hr', hin⟩) symbol
        (List.mem_append_left _ hsymbol) rfl
    · exact hlater symbol hsymbol symbol (List.mem_flatMap.mpr ⟨r', hr', hin⟩) rfl

namespace PatchSystem

variable {L : Type}

/-- The symbols of the outstanding requests, in the order they were asked for. -/
def asked (s : PatchSystem L) : List (Nat × Nat) := s.outstanding.flatMap SentRequest.symbols

/-- The INVARIANT of the protocol. -/
structure Agreeing (s : PatchSystem L) : Prop where
  /-- no symbol is asked for twice -/
  once : s.asked.Nodup
  /-- what is requested is what is asked for -/
  requested : ∀ symbol, s.patches.requested symbol = true ↔ symbol ∈ s.asked
  /-- otherwise both sides have it active, or neither -/
  idle : ∀ symbol, symbol ∉ s.asked → s.patches.active symbol = s.manager.isActive symbol
  /-- until a request is handled, both sides are as they were -/
  sent : ∀ r ∈ s.requests, ∀ symbol ∈ r.symbols,
    s.patches.active symbol = s.manager.isActive symbol
  answered : ∀ a ∈ s.responses, a.2.results.map Prod.fst = a.1.payload.functionsRva ∧
    ∀ r ∈ a.2.results, s.manager.isActive (a.1.payload.imagePersistentId, r.1) =
      if r.2 = .ok then a.2.on else s.patches.active (a.1.payload.imagePersistentId, r.1)

theorem new_agreeing : Agreeing (new : PatchSystem L) where
  once := List.nodup_nil
  requested := fun _ => ⟨nofun, nofun⟩
  idle := fun _ _ => rfl
  sent := nofun
  answered := nofun

theorem mem_asked {s : PatchSystem L} {symbol : Nat × Nat} :
    symbol ∈ s.asked ↔ ∃ r ∈ s.outstanding, symbol ∈ r.symbols := List.mem_flatMap

/-- **A call of `apply` or `revert`** asks for symbols nobody asked for. -/
theorem Agreeing.send {s : PatchSystem L} (h : Agreeing s) (command : PatchCommand)
    {forActive : Bool} {one : PatchTable × List Nat → Nat → PatchTable × List Nat}
    {persistentId : Nat} (rva : List Nat)
    (hone : Requesting forActive persistentId s.patches (rva.foldl one (s.patches, []))) :
    Agreeing (s.send command one persistentId rva) := by
  unfold PatchSystem.send
  generalize rva.foldl one (s.patches, []) = r at hone
  obtain ⟨t, targets⟩ := r
  have hasked : asked { s with
      patches := t
      patchRequestPayload := ⟨persistentId, targets⟩
      requests := if targets.isEmpty then s.requests else s.requests ++ [⟨command, ⟨persistentId, targets⟩⟩] } =
      s.asked ++ targets.map fun rva => (persistentId, rva) := by
    unfold asked outstanding
    cases targets with
    | nil => rw [List.map_nil, List.append_nil]; rfl
    | cons q targets =>
      show List.flatMap _ (_ ++ (s.requests ++ [_])) = _
      rw [← List.append_assoc, List.flatMap_append, List.flatMap_singleton]
      rfl
  refine ⟨?_, fun symbol => ?_, fun symbol hnot => ?_, fun r hr symbol hsymbol => ?_, ?_⟩
  · rw [hasked, List.nodup_append]
    refine ⟨h.once, hone.once.map fun _ _ heq => (Prod.mk.inj heq).2, ?_⟩
    intro symbol hold _ hnew
    rintro rfl
    obtain ⟨q, hq, rfl⟩ := List.mem_map.mp hnew
    have hidle := (hone.idle q hq).1
    rw [(h.requested _).mpr hold] at hidle
    cases hidle
  · rw [hasked, List.mem_append, ← h.requested]
    exact hone.requested symbol
  · rw [hasked, List.mem_append, not_or] at hnot
    exact (hone.active symbol).trans (h.idle symbol hnot.1)
  · show t.active symbol = _
    rw [hone.active]
    have hcases : r ∈ s.requests ∨ symbol ∈ targets.map fun rva => (persistentId, rva) := by
      change r ∈ (if targets.isEmpty then _ else _) at hr
      split at hr
      · exact Or.inl hr
      · rcases List.mem_append.mp hr with hr | hr
        · exact Or.inl hr
        · rw [List.mem_singleton.mp hr] at hsymbol
          exact Or.inr hsymbol
    rcases hcases with hold | hnew
    · exact h.sent r hold symbol hsymbol
    · refine h.idle symbol fun hmem => ?_
      obtain ⟨q, hq, rfl⟩ := List.mem_map.mp hnew
      have hidle := (hone.idle q hq).1
      rw [(h.requested _).mpr hmem] at hidle
      cases hidle
  · intro a ha
    obtain ⟨hresults, hstates⟩ := h.answered a ha
    refine ⟨hresults, fun r hr => ?_⟩
    show _ = if _ then _ else t.active _
    rw [hone.active]
    exact hstates r hr

/-- What a handler did for a request with distinct targets. -/
theorem handler_spec (m : ImagePatchManager L) (mapping : Option (Nat × L))
    (attempts : Nat → Attempt) (r : SentRequest) (hnodup : r.symbols.Nodup) :
    (∀ symbol, symbol ∉ r.symbols →
        (handler m mapping attempts r).1.isActive symbol = m.isActive symbol) ∧
      ∀ response, (handler m mapping attempts r).2 = some response →
        response.results.map Prod.fst = r.payload.functionsRva ∧
          ∀ q ∈ response.results,
            (handler m mapping attempts r).1.isActive (r.payload.imagePersistentId, q.1) =
              if q.2 = .ok then response.on else m.isActive (r.payload.imagePersistentId, q.1) := by
  have htargets : r.payload.functionsRva.Nodup := hnodup.of_map _
  unfold handler
  cases r.command with
  | apply =>
    cases mapping with
    | none => exact ⟨fun _ _ => rfl, by rintro _ ⟨⟩⟩
    | some mapping =>
      obtain ⟨hframe, hanswer⟩ := m.apply_spec attempts r.payload.imagePersistentId mapping.1 mapping.2
        r.payload.functionsRva htargets
      refine ⟨hframe, fun response hresponse => ?_⟩
      obtain ⟨results, hresults, rfl⟩ := Option.map_eq_some_iff.mp hresponse
      obtain ⟨hrva, hstates⟩ := hanswer results hresults
      refine ⟨?_, fun q hq => ?_⟩
      · rw [PatchResponse.results, List.map_map]
        exact hrva
      · obtain ⟨q', hq', rfl⟩ := List.mem_map.mp hq
        exact hstates q' hq'
  | revert =>
    obtain ⟨hframe, hanswer⟩ := m.revert_spec attempts r.payload.imagePersistentId
      r.payload.functionsRva htargets
    refine ⟨hframe, fun response hresponse => ?_⟩
    obtain ⟨results, hresults, rfl⟩ := Option.map_eq_some_iff.mp hresponse
    exact hanswer results hresults

/-- **A request is handled**: only its own symbols change at the manager. -/
theorem Agreeing.handle {s s' : PatchSystem L} (h : Agreeing s) {r : SentRequest}
    {requests : List SentRequest} (hrequests : s.requests = r :: requests)
    {mapping : Option (Nat × L)} {attempts : Nat → Attempt}
    (hstep : s.step (.handle mapping attempts) = some s') : Agreeing s' := by
  have hasked : s.asked = (s.unanswered ++ s.responses.map Prod.fst).flatMap SentRequest.symbols ++
      (r.symbols ++ requests.flatMap SentRequest.symbols) := by
    rw [asked, outstanding, hrequests, List.flatMap_append, List.flatMap_cons]
  have hparts := h.once
  rw [hasked, List.nodup_append, List.nodup_append] at hparts
  obtain ⟨_, ⟨hown, _, hlater⟩, hearlier⟩ := hparts
  have hmine : ∀ symbol ∈ r.symbols, symbol ∈ s.asked := by
    intro symbol hsymbol
    rw [hasked]
    exact List.mem_append_right _ (List.mem_append_left _ hsymbol)
  obtain ⟨hframe, hanswer⟩ := handler_spec s.manager mapping attempts r hown
  simp only [step, hrequests] at hstep
  generalize handler s.manager mapping attempts r = result at hstep hframe hanswer
  obtain ⟨m, answer⟩ := result
  -- the request moves from one list to another; the symbols asked for stay
  have hkeeps : ∀ s₁ : PatchSystem L, s₁.asked.Perm s.asked → s₁.patches = s.patches →
      s₁.manager = m → s₁.requests = requests →
      (∀ a ∈ s₁.responses, a ∈ s.responses ∨ a.1 = r ∧ answer = some a.2) → Agreeing s₁ := by
    intro s₁ hperm hpatches hmanager hrequests₁ hresponses
    refine ⟨hperm.nodup_iff.mpr h.once, fun symbol => ?_, fun symbol hnot => ?_,
      fun r' hr' symbol hsymbol => ?_, fun a ha => ?_⟩
    · rw [hpatches, hperm.mem_iff]
      exact h.requested symbol
    · rw [hperm.mem_iff] at hnot
      rw [hpatches, hmanager, hframe symbol fun hmem => hnot (hmine symbol hmem)]
      exact h.idle symbol hnot
    · rw [hrequests₁] at hr'
      have hnot : symbol ∉ r.symbols := fun hmem =>
        hlater symbol hmem symbol (List.mem_flatMap.mpr ⟨r', hr', hsymbol⟩) rfl
      rw [hpatches, hmanager, hframe symbol hnot]
      exact h.sent r' (hrequests ▸ List.mem_cons_of_mem _ hr') symbol hsymbol
    · rcases hresponses a ha with hold | ⟨rfl, hnew⟩
      · obtain ⟨hresults, hstates⟩ := h.answered a hold
        refine ⟨hresults, fun q hq => ?_⟩
        have hmem := SentRequest.mem_symbols hresults hq
        have hnot : (a.1.payload.imagePersistentId, q.1) ∉ r.symbols := fun hr => by
          refine hearlier _ (List.mem_flatMap.mpr ⟨a.1, ?_, hmem⟩) _ (List.mem_append_left _ hr) rfl
          exact List.mem_append_right _ (List.mem_map_of_mem hold)
        rw [hmanager, hpatches, hframe _ hnot]
        exact hstates q hq
      · obtain ⟨hresults, hstates⟩ := hanswer a.2 hnew
        refine ⟨hresults, fun q hq => ?_⟩
        have hmem := SentRequest.mem_symbols hresults hq
        rw [hmanager, hpatches, h.sent a.1 (hrequests ▸ List.mem_cons_self) _ hmem]
        exact hstates q hq
  cases answer with
  | some response =>
    obtain rfl := Option.some.inj hstep
    refine hkeeps _ ?_ rfl rfl rfl ?_
    · rw [hasked, asked, outstanding]
      simp only [List.map_append, List.flatMap_append, List.map_cons, List.map_nil,
        List.flatMap_cons, List.flatMap_nil, List.append_nil, List.append_assoc]
      exact List.Perm.refl _
    · intro a ha
      rcases List.mem_append.mp ha with ha | ha
      · exact Or.inl ha
      · rw [List.mem_singleton.mp ha]
        exact Or.inr ⟨rfl, rfl⟩
  | none =>
    obtain rfl := Option.some.inj hstep
    refine hkeeps _ ?_ rfl rfl rfl fun a ha => Or.inl ha
    rw [hasked, asked, outstanding]
    simp only [List.flatMap_append, List.flatMap_cons, List.flatMap_nil, List.append_nil,
      List.append_assoc]
    refine List.Perm.append_left _ ?_
    rw [← List.append_assoc, ← List.append_assoc]
    exact List.Perm.append_right _ List.perm_append_comm

/-- **A response is delivered**: its own symbols agree again. -/
theorem Agreeing.respond {s s' : PatchSystem L} (h : Agreeing s)
    (hstep : s.step .respond = some s') : Agreeing s' := by
  cases hresponses : s.responses with
  | nil => simp only [step, hresponses] at hstep; cases hstep
  | cons a responses =>
    obtain ⟨r, response⟩ := a
    simp only [step, hresponses] at hstep
    obtain rfl := Option.some.inj hstep
    obtain ⟨hresults, hstates⟩ := h.answered (r, response) (hresponses ▸ List.mem_cons_self)
    dsimp only at hresults hstates
    have hsymbols : response.results.map (fun q => (r.payload.imagePersistentId, q.1)) = r.symbols := by
      rw [SentRequest.symbols, ← hresults, List.map_map]
      rfl
    let s₁ : PatchSystem L := { s with
      responses := responses
      patches := callback r.payload.imagePersistentId s.patches response }
    have hperm : s.asked.Perm (r.symbols ++ s₁.asked) := by
      rw [asked, outstanding, hresponses, List.map_cons, List.append_assoc, List.cons_append]
      refine (List.Perm.flatMap_right _ List.perm_middle).trans ?_
      rw [List.flatMap_cons, ← List.append_assoc]
      exact List.Perm.refl _
    have hnodup := hperm.nodup_iff.mp h.once
    rw [List.nodup_append] at hnodup
    obtain ⟨hown, hrest, hdisjoint⟩ := hnodup
    have hrva : (response.results.map Prod.fst).Nodup := hresults ▸ hown.of_map _
    obtain ⟨hframe, hdone⟩ := callback_spec r.payload.imagePersistentId s.patches response hrva
    rw [hsymbols] at hframe
    have hactive : ∀ symbol, symbol ∉ r.symbols → s₁.patches.active symbol = s.patches.active symbol :=
      fun symbol hnot => by rw [PatchTable.active, hframe symbol hnot, PatchTable.active]
    -- a symbol of the request is one of its results
    have htarget : ∀ symbol ∈ r.symbols, ∃ q ∈ response.results,
        symbol = (r.payload.imagePersistentId, q.1) := by
      intro symbol hsymbol
      rw [← hsymbols] at hsymbol
      obtain ⟨q, hq, heq⟩ := List.mem_map.mp hsymbol
      exact ⟨q, hq, heq.symm⟩
    refine ⟨hrest, fun symbol => ?_, fun symbol hnot => ?_, fun r' hr' symbol hsymbol => ?_,
      fun a ha => ?_⟩
    · by_cases hmem : symbol ∈ r.symbols
      · obtain ⟨q, hq, rfl⟩ := htarget symbol hmem
        have hnot : ¬ (r.payload.imagePersistentId, q.1) ∈ s₁.asked := fun hasked =>
          hdisjoint _ hmem _ hasked rfl
        refine ⟨fun hreq => ?_, fun hasked => absurd hasked hnot⟩
        have hfalse := (hdone q hq).1
        rw [hfalse] at hreq
        cases hreq
      · have hold := h.requested symbol
        rw [hperm.mem_iff, List.mem_append] at hold
        show s₁.patches.requested symbol = true ↔ symbol ∈ s₁.asked
        have hsame : s₁.patches.requested symbol = s.patches.requested symbol := by
          rw [PatchTable.requested, hframe symbol hmem, PatchTable.requested]
        rw [hsame, hold]
        exact ⟨fun hor => hor.resolve_left hmem, Or.inr⟩
    · by_cases hmem : symbol ∈ r.symbols
      · obtain ⟨q, hq, rfl⟩ := htarget symbol hmem
        exact (hdone q hq).2.trans (hstates q hq).symm
      · refine (hactive symbol hmem).trans (h.idle symbol fun hasked => ?_)
        rcases List.mem_append.mp (hperm.mem_iff.mp hasked) with hin | hin
        · exact hmem hin
        · exact hnot hin
    · have hlater : symbol ∈ s₁.asked :=
        mem_asked.mpr ⟨r', List.mem_append_right _ hr', hsymbol⟩
      have hnot : symbol ∉ r.symbols := fun hmem => hdisjoint _ hmem _ hlater rfl
      exact (hactive symbol hnot).trans (h.sent r' hr' symbol hsymbol)
    · obtain ⟨hresults', hstates'⟩ := h.answered a (hresponses ▸ List.mem_cons_of_mem _ ha)
      refine ⟨hresults', fun q hq => ?_⟩
      have hmem := SentRequest.mem_symbols hresults' hq
      have hlater : (a.1.payload.imagePersistentId, q.1) ∈ s₁.asked := by
        refine mem_asked.mpr ⟨a.1, ?_, hmem⟩
        exact List.mem_append_left _ (List.mem_append_right _ (List.mem_map_of_mem ha))
      have hnot : (a.1.payload.imagePersistentId, q.1) ∉ r.symbols := fun hin =>
        hdisjoint _ hin _ hlater rfl
      have hact := hactive _ hnot
      change _ = if _ then _ else s₁.patches.active _
      rw [hact]
      exact hstates' q hq

/-- **Every step** keeps the protocol's invariant. -/
theorem Agreeing.step {s s' : PatchSystem L} (h : Agreeing s) {action : PatchAction L}
    (hstep : s.step action = some s') : Agreeing s' := by
  cases action with
  | apply persistentId rva =>
    obtain rfl := Option.some.inj hstep
    exact h.send .apply rva (Requesting.foldl (fun _ _ hs => hs.applyOne _) rva)
  | revert persistentId rva =>
    obtain rfl := Option.some.inj hstep
    exact h.send .revert rva (Requesting.foldl (fun _ _ hs => hs.revertOne _) rva)
  | handle mapping attempts =>
    cases hrequests : s.requests with
    | nil => simp only [PatchSystem.step, hrequests] at hstep; cases hstep
    | cons r requests => exact h.handle hrequests hstep
  | respond => exact h.respond hstep

/-- **Patch protocol agreement**: a symbol is requested if and only if exactly one outstanding
    request names it, once, and no other; and one that is not requested is shown active if and only
    if the manager's patch for it is. -/
theorem patch_agreement (actions : List (PatchAction L)) (s : PatchSystem L)
    (hrun : Lib.run PatchSystem.step PatchSystem.new actions = some s) (symbol : Nat × Nat) :
    (s.patches.requested symbol = true ↔ NamedOnce s.outstanding symbol) ∧
      (s.patches.requested symbol = false → ∀ r ∈ s.outstanding, symbol ∉ r.symbols) ∧
      (s.patches.requested symbol = false →
        s.patches.active symbol = s.manager.isActive symbol) := by
  have h : Agreeing s :=
    Lib.run_invariant (fun _ _ _ h hstep => h.step hstep) actions new s new_agreeing hrun
  have hidle : s.patches.requested symbol = false → symbol ∉ s.asked := fun hfalse hmem => by
    rw [(h.requested symbol).mpr hmem] at hfalse
    cases hfalse
  refine ⟨(h.requested symbol).trans (namedOnce_iff h.once).symm, fun hfalse r hr hsymbol => ?_,
    fun hfalse => h.idle symbol (hidle hfalse)⟩
  exact hidle hfalse (mem_asked.mpr ⟨r, hr, hsymbol⟩)

/-- Two overlapping requests: the second asks only for what the first did not, and a function that
    cannot be patched ends up inactive on both sides. -/
theorem patch_agreement_overlap :
    let actions : List (PatchAction Unit) :=
      [.apply 1 [4, 5, 4], .apply 1 [5, 6],
        .handle (some (100, ())) fun rva => ⟨if rva = 5 then .throws else .returns, .returns⟩, .respond]
    ∃ s, Lib.run PatchSystem.step PatchSystem.new actions = some s ∧
      s.patches.active (1, 4) = true ∧ s.manager.isActive (1, 4) = true ∧
      s.manager.isActive (1, 5) = false ∧ s.patches.active (1, 5) = s.manager.isActive (1, 5) ∧
      NamedOnce s.outstanding (1, 6) := by
  intro actions
  refine ⟨_, rfl, by decide, by decide, by decide, ?_, ?_⟩
  · exact (patch_agreement actions _ rfl (1, 5)).2.2 (by decide)
  · exact (patch_agreement actions _ rfl (1, 6)).1.mp (by decide)

end PatchSystem

end MicroProfiler
