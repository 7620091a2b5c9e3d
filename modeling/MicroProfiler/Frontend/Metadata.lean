/-
  `frontend/src/frontend_metadata.cpp`: module metadata on request, from the modules table, a cache
  file or the network.

  1. **The code** — `request_metadata` registers its callback with the `Multiplexed` requests of the
     module AND, when the table has the module's record, runs it at once; else the first request
     of a module starts an underlying one (`Flight`): a file read that turns into a network request
     when it fails.  When that completes the record is committed, the slots of the table's `created`
     signal run (`Delivery.committed`), and the registered callbacks are invoked
     (`Delivery.invoking`).  What callbacks and slots do stands between these steps.

  2. A call made while the delivery of its module is under way is served twice: from the table, and
     from the list being walked (`metadata_delivered_twice`).

  3. **Exactly once** (`metadata_delivered_once`), in runs that make no such call, and whose slots
     do not release the last handle of the module being delivered.

  Callbacks do not throw here; what becomes of a walk that one leaves so is `Multiplexed`'s matter.
-/
import MicroProfiler.Reqm.MultiplexingRequest

namespace MicroProfiler

variable {C : Type}

/-- Where an underlying request is waiting for its answer: a cache file that fails becomes a network
    request. -/
inductive MetadataSource
  | cache
  | network
deriving DecidableEq, Repr

/-- An underlying request in flight. -/
structure Flight where
  id : Nat
  persistentId : Nat
  source : MetadataSource
deriving DecidableEq, Repr

/-- How far a completed underlying request has got. -/
inductive Delivery
  /-- `rec.commit()`: the record is in the table, the slots of `created` run. -/
  | committed
  /-- `mx.invoke` -/
  | invoking
deriving DecidableEq, Repr

/-- The frontend's part in metadata requests. -/
structure MetadataRequests (C : Type) where
  /-- the multiplexed requests, one key a module -/
  mx : Multiplexed Nat C Nat
  /-- the modules table has the record -/
  modules : Nat → Bool
  /-- a cache file may be there, as the module was mapped -/
  symbolCachePaths : Nat → Bool
  flights : List Flight
  /-- the next underlying request's number -/
  nextFlight : Nat
  /-- how far the delivery of a module has got -/
  deliveries : Nat → Option Delivery
  /-- The callbacks that were run, by module and handle. -/
  ran : List (Nat × Nat)

inductive MetadataAction (C : Type)
  /-- `request_metadata`, from anywhere, callbacks and slots included -/
  | request (persistentId : Nat) (ready : C)
  /-- the handle of a request goes -/
  | release (persistentId : Nat) (handle : Nat)
  /-- A mapping came: the module may be in the cache from now on. -/
  | mapped (persistentId : Nat)
  /-- The cache file could not be read. -/
  | cacheMissed (flight : Nat)
  /-- The cache file or the network gave the metadata. -/
  | arrived (flight : Nat)
  /-- the slots of `created` have run -/
  | invoke (persistentId : Nat)
  /-- one callback of the list -/
  | turn (persistentId : Nat)
  /-- the end of the list -/
  | finish (persistentId : Nat)

namespace MetadataRequests

def new : MetadataRequests C := ⟨.new, fun _ => false, fun _ => false, [], 0, fun _ => none, []⟩

/-- `request_metadata`; `request_metadata_nw_cached` and `request_metadata_nw` start the flight. -/
def requestMetadata (s : MetadataRequests C) (persistentId : Nat) (ready : C) :
    Option (MetadataRequests C) :=
  let init := s.mx.create persistentId ready
  -- `create` comes before this test: the callback is in the list although it is run at once
  if s.modules persistentId then
    some { s with mx := init.1, ran := s.ran ++ [(persistentId, s.mx.nextNode)] }
  -- the first one to ask starts the underlying request
  else if init.2 then
    (init.1.step (.fill persistentId s.nextFlight)).map fun mx =>
      { s with
        mx := mx
        flights := s.flights ++ [⟨s.nextFlight, persistentId,
          if s.symbolCachePaths persistentId then .cache else .network⟩]
        nextFlight := s.nextFlight + 1 }
  else some { s with mx := init.1 }

/-- An underlying request whose handle is released is never answered: its flight is gone. -/
def cancelReleased (s : MetadataRequests C) (mx : Multiplexed Nat C Nat) : MetadataRequests C :=
  { s with
    mx := mx
    flights := s.flights.filter fun f => f.id ∉ mx.released.map Prod.snd }

/-- The callback run at the last turn, if it was run. -/
def lastRun (mx : Multiplexed Nat C Nat) (persistentId : Nat) : List (Nat × Nat) :=
  match (mx.invocations persistentId).bind fun i => i.turns.getLast? with
  | some t => if t.ran then [(persistentId, t.node)] else []
  | none => []

/-- `none`: what cannot happen, or an invocation of a request that was destroyed.  The callbacks do not
    throw: that a walk is left early (`Multiplexed`'s `throw`) is no step here. -/
def step (s : MetadataRequests C) : MetadataAction C → Option (MetadataRequests C)
  | .request persistentId ready => s.requestMetadata persistentId ready
  | .release persistentId handle =>
      (s.mx.step (.release persistentId handle)).map s.cancelReleased
  | .mapped persistentId =>
      some { s with symbolCachePaths := Function.update s.symbolCachePaths persistentId true }
  | .cacheMissed flight =>
      if s.flights.any fun f => f.id = flight ∧ f.source = .cache then
        -- not in the cache: the request goes on over the network, under the same handle
        some { s with flights := s.flights.map fun f =>
          if f.id = flight then { f with source := .network } else f }
      else none
  | .arrived flight =>
      -- the record is committed; then the slots of `created` run, as steps of their own
      (s.flights.find? fun f => f.id = flight).map fun f =>
        { s with
          flights := s.flights.filter fun f => f.id ≠ flight
          modules := Function.update s.modules f.persistentId true
          deliveries := Function.update s.deliveries f.persistentId (some .committed) }
  | .invoke persistentId =>
      if s.deliveries persistentId = some .committed then
        (s.mx.step (.invoke persistentId)).map fun mx =>
          { s.cancelReleased mx with
            deliveries := Function.update s.deliveries persistentId (some .invoking) }
      else none
  | .turn persistentId =>
      if s.deliveries persistentId = some .invoking then
        (s.mx.step (.turn persistentId)).map fun mx =>
          { s.cancelReleased mx with ran := s.ran ++ lastRun mx persistentId }
      else none
  | .finish persistentId =>
      if s.deliveries persistentId = some .invoking then
        (s.mx.step (.finish persistentId)).map fun mx =>
          { s.cancelReleased mx with
            deliveries := Function.update s.deliveries persistentId none }
      else none

/-- Metadata is delivered exactly once per request. -/
structure ExactlyOnce (s : MetadataRequests C) : Prop where
  /-- nobody is served twice -/
  atMost : ∀ persistentId handle, s.ran.count (persistentId, handle) ≤ 1
  /-- with the metadata there and no delivery under way everybody was served -/
  available : ∀ persistentId, s.modules persistentId = true → s.deliveries persistentId = none →
    ∀ handle ∈ s.mx.handles persistentId, s.ran.count (persistentId, handle) = 1
  /-- the module is asked for once at a time -/
  single : ∀ persistentId, (s.flights.filter fun f => f.persistentId = persistentId).length ≤ 1

/-- A callback that asks for its own module again has the new callback run twice. -/
theorem metadata_delivered_twice :
    ¬ ∀ (actions : List (MetadataAction Unit)) (s : MetadataRequests Unit),
      Lib.run MetadataRequests.step MetadataRequests.new actions = some s → ExactlyOnce s := by
  intro hall
  have h := hall [.request 7 (), .arrived 0, .invoke 7, .turn 7, .request 7 (), .turn 7] _ rfl
  exact absurd (h.atMost 7 1) (by decide)

/-- What the callers have to keep to: no request for a module while its delivery is under way, and
    while the slots of `created` run, no release of the module's last handle. -/
def Allowed (s : MetadataRequests C) : MetadataAction C → Prop
  | .request persistentId _ => s.deliveries persistentId = none
  | .release persistentId handle => s.deliveries persistentId = some .committed →
      ∃ other ∈ s.mx.handles persistentId, other ≠ handle
  | _ => True

instance (s : MetadataRequests C) : (a : MetadataAction C) → Decidable (s.Allowed a)
  | .request persistentId _ => inferInstanceAs (Decidable (s.deliveries persistentId = none))
  | .release persistentId handle =>
      inferInstanceAs (Decidable (s.deliveries persistentId = some .committed →
        ∃ other ∈ s.mx.handles persistentId, other ≠ handle))
  | .mapped _ | .cacheMissed _ | .arrived _ | .invoke _ | .turn _ | .finish _ =>
      inferInstanceAs (Decidable True)

/-- A step that keeps to it. -/
def allowedStep (s : MetadataRequests C) (a : MetadataAction C) : Option (MetadataRequests C) :=
  if s.Allowed a then s.step a else none

/-! ## The invariant -/

/-- What holds of one module: before its metadata is there nobody was served; while the callbacks
    are walked, those that had their turn; and everybody afterwards. -/
structure KeySound (s : MetadataRequests C) (k : Nat) : Prop where
  /-- nothing is delivered that did not arrive -/
  pending : s.modules k = false → s.deliveries k = none
  invoking : s.deliveries k = some .invoking ↔ (s.mx.invocations k).isSome
  /-- somebody is there to be invoked -/
  alive : s.deliveries k = some .committed → s.mx.handles k ≠ []
  /-- before the walk nobody was served -/
  waiting : s.modules k = false ∨ s.deliveries k = some .committed →
    ∀ h ∈ s.mx.handles k, (k, h) ∉ s.ran
  /-- after it, everybody -/
  served : s.modules k = true → s.deliveries k = none → ∀ h ∈ s.mx.handles k, (k, h) ∈ s.ran
  /-- during it, those who had their turn -/
  walking : ∀ i ∈ s.mx.invocations k, ∀ h ∈ s.mx.handles k,
    (k, h) ∈ s.ran ↔ h ∈ i.turns.map Turn.node

/-- The underlying requests in flight are held by their modules, which have no metadata yet. -/
structure Flying (s : MetadataRequests C) : Prop where
  mx : s.mx.Inv
  /-- the handle of a flight is in the map -/
  held : ∀ f ∈ s.flights, s.mx.held f.persistentId = some f.id
  /-- flights have numbers of their own -/
  distinct : (s.flights.map Flight.id).Nodup
  issued : ∀ k u, s.mx.held k = some u → u < s.nextFlight
  /-- numbers are not used again -/
  released : ∀ e ∈ s.mx.released, e.2 < s.nextFlight
  /-- a flight was not cancelled -/
  live : ∀ f ∈ s.flights, f.id ∉ s.mx.released.map Prod.snd
  /-- what is asked for is not there yet -/
  absent : ∀ f ∈ s.flights, s.modules f.persistentId = false

/-- The INVARIANT. -/
structure Sound (s : MetadataRequests C) : Prop extends Flying s where
  /-- who was served had asked -/
  known : ∀ e ∈ s.ran, e.2 < s.mx.nextNode
  /-- and was served once -/
  once : s.ran.Nodup
  /-- module by module -/
  keys : ∀ k, KeySound s k

/-- Nothing was asked for. -/
theorem new_sound : Sound (new : MetadataRequests C) where
  mx := Multiplexed.new_inv
  held := nofun
  distinct := List.nodup_nil
  issued := nofun
  released := nofun
  live := nofun
  absent := nofun
  known := nofun
  once := List.nodup_nil
  keys := fun _ => ⟨fun _ => rfl, ⟨nofun, nofun⟩, nofun, nofun, nofun, nofun⟩

/-- A module that a step does not touch: its handles, its walk and its deliveries are as before. -/
theorem KeySound.frame {s s' : MetadataRequests C} {k : Nat} (h : KeySound s k)
    (hmodules : s'.modules k = s.modules k) (hdeliveries : s'.deliveries k = s.deliveries k)
    (hhandles : s'.mx.handles k = s.mx.handles k)
    (hinvocations : s'.mx.invocations k = s.mx.invocations k)
    (hran : ∀ n, (k, n) ∈ s'.ran ↔ (k, n) ∈ s.ran) : KeySound s' k := by
  refine ⟨?_, ?_, ?_, ?_, ?_, ?_⟩
  · rw [hmodules, hdeliveries]
    exact h.pending
  · rw [hdeliveries, hinvocations]
    exact h.invoking
  · rw [hdeliveries, hhandles]
    exact h.alive
  · rw [hmodules, hdeliveries, hhandles]
    exact fun hor n hn hmem => h.waiting hor n hn ((hran n).mp hmem)
  · rw [hmodules, hdeliveries, hhandles]
    exact fun hm hd n hn => (hran n).mpr (h.served hm hd n hn)
  · rw [hinvocations, hhandles]
    exact fun i hi n hn => (hran n).trans (h.walking i hi n hn)

/-- A module's flights, one at most: they are all held in its one entry. -/
theorem Flying.single {s : MetadataRequests C} (h : Flying s) (k : Nat) :
    (s.flights.filter fun f => f.persistentId = k).length ≤ 1 := by
  have hnodup : ((s.flights.filter fun f => decide (f.persistentId = k)).map Flight.id).Nodup :=
    h.distinct.sublist (List.filter_sublist.map _)
  have hheld : ∀ f ∈ s.flights.filter fun f => decide (f.persistentId = k),
      s.mx.held k = some f.id := by
    intro f hf
    rw [List.mem_filter, decide_eq_true_iff] at hf
    rw [← hf.2]
    exact h.held f hf.1
  cases hlist : s.flights.filter fun f => decide (f.persistentId = k) with
  | nil => exact Nat.zero_le _
  | cons f rest =>
    cases rest with
    | nil => exact Nat.le_refl _
    | cons f' rest =>
      rw [hlist] at hnodup hheld
      have heq : f.id = f'.id := Option.some.inj
        ((hheld f List.mem_cons_self).symm.trans
          (hheld f' (List.mem_cons_of_mem _ List.mem_cons_self)))
      rw [List.map_cons, List.map_cons, List.nodup_cons, heq] at hnodup
      exact absurd List.mem_cons_self hnodup.1

/-- A step of the requests that starts no flight; flights whose handle went are gone. -/
theorem Flying.mxStep {s : MetadataRequests C} (h : Flying s) {a : MxAction Nat C Nat}
    {mx : Multiplexed Nat C Nat} (hstep : s.mx.step a = some mx) (hfill : ∀ k u, a ≠ .fill k u) :
    Flying (s.cancelReleased mx) := by
  have hsub : ∀ f ∈ (s.cancelReleased mx).flights, f ∈ s.flights := fun f hf =>
    List.mem_of_mem_filter hf
  refine ⟨h.mx.step hstep, fun f hf => ?_, h.distinct.sublist (List.filter_sublist.map _),
    fun k u hu => ?_, fun e he => ?_, fun f hf => ?_, fun f hf => h.absent f (hsub f hf)⟩
  · -- a flight that is left is held still: who let it go cancelled it
    rw [cancelReleased, List.mem_filter, decide_eq_true_iff] at hf
    have hheld := h.held f hf.1
    cases Multiplexed.step_releases hstep with
    | nothing _ hstays => exact hstays _ _ hheld
    | underlying key u hkey _ hreleased hother =>
      show mx.held f.persistentId = _
      by_cases heq : f.persistentId = key
      · refine absurd ?_ hf.2
        rw [heq, hkey] at hheld
        rw [hreleased, List.map_append, ← Option.some.inj hheld]
        exact List.mem_append_right _ List.mem_cons_self
      · rw [hother _ heq]
        exact hheld
  · rcases Multiplexed.held_of_step hstep hu with hold | hnew
    · exact h.issued k u hold
    · exact absurd hnew (hfill k u)
  · cases Multiplexed.step_releases hstep with
    | nothing hreleased _ => exact h.released e (hreleased ▸ he)
    | underlying key u hkey _ hreleased _ =>
      change e ∈ mx.released at he
      rw [hreleased] at he
      rcases List.mem_append.mp he with he | he
      · exact h.released e he
      · rw [List.mem_singleton.mp he]
        exact h.issued key u hkey
  · exact of_decide_eq_true (List.mem_filter.mp hf).2

/-- `mxStep`, for a step that releases nothing. -/
theorem Flying.mxStep_of_released {s : MetadataRequests C} (h : Flying s) {a : MxAction Nat C Nat}
    {mx : Multiplexed Nat C Nat} (hstep : s.mx.step a = some mx) (hfill : ∀ k u, a ≠ .fill k u)
    (hreleased : mx.released = s.mx.released) : Flying { s with mx := mx } := by
  have hcancel : s.cancelReleased mx = { s with mx := mx } := by
    unfold cancelReleased
    rw [hreleased, List.filter_eq_self.mpr fun f hf => decide_eq_true (h.live f hf)]
  exact hcancel ▸ h.mxStep hstep hfill

/-- A flight starts for a module that held nothing. -/
theorem Flying.fill {s : MetadataRequests C} (h : Flying s) {k : Nat} {mx : Multiplexed Nat C Nat}
    (hstep : s.mx.step (.fill k s.nextFlight) = some mx) (habsent : s.modules k = false)
    (source : MetadataSource) :
    Flying { s with
      mx := mx
      flights := s.flights ++ [⟨s.nextFlight, k, source⟩]
      nextFlight := s.nextFlight + 1 } := by
  obtain ⟨_, _, _, hreleased, hheld⟩ := Multiplexed.step_fill hstep
  have hold : ∀ f ∈ s.flights, f.id < s.nextFlight := fun f hf => h.issued _ _ (h.held f hf)
  have hcases : ∀ {P : Flight → Prop}, (∀ f ∈ s.flights, P f) → P ⟨s.nextFlight, k, source⟩ →
      ∀ f ∈ s.flights ++ [⟨s.nextFlight, k, source⟩], P f := by
    intro P hPold hPnew f hf
    rcases List.mem_append.mp hf with hf | hf
    · exact hPold f hf
    · rw [List.mem_singleton.mp hf]
      exact hPnew
  refine ⟨h.mx.step hstep, hcases (fun f hf => ?_) hheld, ?_, fun k' u hu => ?_, fun e he => ?_,
    hcases (fun f hf => ?_) fun hmem => ?_, hcases h.absent habsent⟩
  · cases Multiplexed.step_releases hstep with
    | nothing _ hstays => exact hstays _ _ (h.held f hf)
    | underlying key u _ _ hreleased' _ =>
      rw [hreleased] at hreleased'
      exact absurd (List.append_right_eq_self.mp hreleased'.symm) (List.cons_ne_nil _ _)
  · rw [List.map_append]
    refine Lib.nodup_append_singleton h.distinct fun ha => ?_
    obtain ⟨f, hf, heq⟩ := List.mem_map.mp ha
    have hlt := hold f hf
    dsimp only at heq
    omega
  · show u < s.nextFlight + 1
    rcases Multiplexed.held_of_step hstep hu with hu | hu
    · exact Nat.lt_succ_of_lt (h.issued k' u hu)
    · obtain ⟨_, rfl⟩ := MxAction.fill.inj hu
      exact Nat.lt_succ_self _
  · change e ∈ mx.released at he
    rw [hreleased] at he
    exact Nat.lt_succ_of_lt (h.released e he)
  · rw [hreleased]
    exact h.live f hf
  · change s.nextFlight ∈ mx.released.map Prod.snd at hmem
    rw [hreleased] at hmem
    obtain ⟨e, he, heq⟩ := List.mem_map.mp hmem
    have hlt := h.released e he
    omega

/-- A call of `request_metadata` starts a flight only if the key was not in the map. -/
theorem Flying.requestMetadata {s s' : MetadataRequests C} (h : Flying s) {k : Nat} {ready : C}
    (hstep : s.requestMetadata k ready = some s') : Flying s' := by
  have hcreate : Flying { s with mx := (s.mx.create k ready).1 } :=
    h.mxStep_of_released (a := .create k ready) rfl (by simp) rfl
  unfold MetadataRequests.requestMetadata at hstep
  dsimp only at hstep
  split at hstep
  · obtain rfl := Option.some.inj hstep
    exact { hcreate with }
  · -- the metadata is not there: the first to ask starts the flight
    next habsent =>
    split at hstep
    · obtain ⟨mx, hmx, rfl⟩ := Option.map_eq_some_iff.mp hstep
      exact hcreate.fill hmx (Bool.eq_false_iff.mpr habsent) _
    · obtain rfl := Option.some.inj hstep
      exact hcreate

/-- A flight that goes on over the network goes on under its number. -/
theorem Flying.cacheMissed {s s' : MetadataRequests C} (h : Flying s) {flight : Nat}
    (hstep : s.step (.cacheMissed flight) = some s') : Flying s' := by
  simp only [MetadataRequests.step] at hstep
  split at hstep
  · obtain rfl := Option.some.inj hstep
    have hmem : ∀ f' ∈ s.flights.map (fun f =>
        if f.id = flight then { f with source := MetadataSource.network } else f),
        ∃ f ∈ s.flights, f'.id = f.id ∧ f'.persistentId = f.persistentId := by
      intro f' hf'
      obtain ⟨f, hf, rfl⟩ := List.mem_map.mp hf'
      exact ⟨f, hf, by split <;> rfl, by split <;> rfl⟩
    have hids : (s.flights.map fun f =>
        if f.id = flight then { f with source := MetadataSource.network } else f).map Flight.id =
        s.flights.map Flight.id := by
      rw [List.map_map]
      refine List.map_congr_left fun f _ => ?_
      show Flight.id (if f.id = flight then { f with source := MetadataSource.network } else f) = f.id
      split <;> rfl
    refine ⟨h.mx, fun f' hf' => ?_, ?_, h.issued, h.released, fun f' hf' => ?_, fun f' hf' => ?_⟩
    · obtain ⟨f, hf, hid, hmodule⟩ := hmem f' hf'
      rw [hid, hmodule]
      exact h.held f hf
    · show (List.map _ (List.map _ _)).Nodup
      rw [hids]
      exact h.distinct
    · obtain ⟨f, hf, hid, _⟩ := hmem f' hf'
      rw [hid]
      exact h.live f hf
    · obtain ⟨f, hf, _, hmodule⟩ := hmem f' hf'
      rw [hmodule]
      exact h.absent f hf
  · cases hstep

/-- A flight that arrives is gone, and the others are for other modules: a module holds one. -/
theorem Flying.arrived {s s' : MetadataRequests C} (h : Flying s) {flight : Nat}
    (hstep : s.step (.arrived flight) = some s') : Flying s' := by
  obtain ⟨f, hf, rfl⟩ := Option.map_eq_some_iff.mp hstep
  have hmem := List.mem_of_find?_eq_some hf
  have hid : f.id = flight := by
    have hdecide := List.find?_some hf
    exact of_decide_eq_true hdecide
  have hdistinct : ∀ g ∈ s.flights.filter (fun g => decide (g.id ≠ flight)),
      g ∈ s.flights ∧ g.persistentId ≠ f.persistentId := by
    intro g hg
    rw [List.mem_filter, decide_eq_true_iff] at hg
    refine ⟨hg.1, fun heq => hg.2 ?_⟩
    have hgheld := h.held g hg.1
    rw [heq, h.held f hmem] at hgheld
    exact (Option.some.inj hgheld).symm.trans hid
  refine ⟨h.mx, fun g hg => h.held g (hdistinct g hg).1,
    h.distinct.sublist (List.filter_sublist.map _), h.issued, h.released,
    fun g hg => h.live g (hdistinct g hg).1, fun g hg => ?_⟩
  show Function.update s.modules f.persistentId true g.persistentId = false
  rw [Function.update_of_ne (hdistinct g hg).2]
  exact h.absent g (hdistinct g hg).1

/-- **Every step**, allowed or not, keeps the flights in order.  It is the deliveries that need the
    callers' help. -/
theorem Flying.step {s s' : MetadataRequests C} (h : Flying s) {a : MetadataAction C}
    (hstep : s.step a = some s') : Flying s' := by
  cases a with
  | request k ready => exact h.requestMetadata hstep
  | release k handle =>
    obtain ⟨mx, hmx, rfl⟩ := Option.map_eq_some_iff.mp hstep
    exact h.mxStep hmx (by simp)
  | mapped k =>
    obtain rfl := Option.some.inj hstep
    exact { h with }
  | cacheMissed flight => exact h.cacheMissed hstep
  | arrived flight => exact h.arrived hstep
  | invoke k =>
    simp only [MetadataRequests.step] at hstep
    split at hstep
    · obtain ⟨mx, hmx, rfl⟩ := Option.map_eq_some_iff.mp hstep
      exact { h.mxStep hmx (by simp) with }
    · cases hstep
  | turn k =>
    simp only [MetadataRequests.step] at hstep
    split at hstep
    · obtain ⟨mx, hmx, rfl⟩ := Option.map_eq_some_iff.mp hstep
      exact { h.mxStep hmx (by simp) with }
    · cases hstep
  | finish k =>
    simp only [MetadataRequests.step] at hstep
    split at hstep
    · obtain ⟨mx, hmx, rfl⟩ := Option.map_eq_some_iff.mp hstep
      exact { h.mxStep hmx (by simp) with }
    · cases hstep

/-! ### One module, by what its delivery has come to -/

section

variable {s : MetadataRequests C} {k : Nat}

/-- Nothing is walked outside of the second part of a delivery. -/
theorem KeySound.not_invoked (h : KeySound s k) (hd : s.deliveries k ≠ some .invoking) :
    s.mx.invocations k = none := by
  cases hi : s.mx.invocations k with
  | none => rfl
  | some i => exact absurd (h.invoking.mpr (by rw [hi]; rfl)) hd

/-- What is being delivered is there. -/
theorem KeySound.present (h : KeySound s k) {d : Delivery} (hd : s.deliveries k = some d) :
    s.modules k = true := by
  cases hmodule : s.modules k with
  | true => rfl
  | false =>
    have hidle := h.pending hmodule
    rw [hd] at hidle
    cases hidle

/-- No delivery: everybody is waiting for the metadata, or was served. -/
theorem KeySound.of_idle (hidle : s.deliveries k = none) (hnone : s.mx.invocations k = none)
    (hserved : ∀ n ∈ s.mx.handles k, (k, n) ∈ s.ran ↔ s.modules k = true) : KeySound s k where
  pending := fun _ => hidle
  invoking := by rw [hidle, hnone]; simp
  alive := by rw [hidle]; simp
  waiting := by
    rw [hidle]
    rintro (habsent | hcommitted) n hn
    · rw [hserved n hn, habsent]
      exact Bool.false_ne_true
    · cases hcommitted
  served := fun hpresent _ n hn => (hserved n hn).mpr hpresent
  walking := by rw [hnone]; simp

/-- The metadata is there, and nobody was told. -/
theorem KeySound.of_committed (hpresent : s.modules k = true)
    (hcommitted : s.deliveries k = some .committed) (hnone : s.mx.invocations k = none)
    (hhandles : s.mx.handles k ≠ []) (hwaiting : ∀ n ∈ s.mx.handles k, (k, n) ∉ s.ran) :
    KeySound s k where
  pending := by rw [hpresent]; simp
  invoking := by rw [hcommitted, hnone]; simp
  alive := fun _ => hhandles
  waiting := fun _ => hwaiting
  served := by rw [hcommitted]; simp
  walking := by rw [hnone]; simp

/-- The callbacks are walked: those that had their turn were served. -/
theorem KeySound.of_invoking {i : Invocation} (hpresent : s.modules k = true)
    (hinvoking : s.deliveries k = some .invoking) (hi : s.mx.invocations k = some i)
    (hwalking : ∀ n ∈ s.mx.handles k, (k, n) ∈ s.ran ↔ n ∈ i.turns.map Turn.node) :
    KeySound s k where
  pending := by rw [hpresent]; simp
  invoking := by rw [hinvoking, hi]; simp
  alive := by rw [hinvoking]; simp
  waiting := by rw [hpresent, hinvoking]; simp
  served := by rw [hinvoking]; simp
  walking := by
    rw [hi]
    rintro _ ⟨⟩
    exact hwalking

/-- Outside of deliveries, who holds a handle was served if the metadata is there. -/
theorem KeySound.served_iff (h : KeySound s k) (hidle : s.deliveries k = none) {n : Nat}
    (hn : n ∈ s.mx.handles k) : (k, n) ∈ s.ran ↔ s.modules k = true := by
  cases hmodule : s.modules k with
  | true => exact iff_of_true (h.served hmodule hidle n hn) rfl
  | false => exact iff_of_false (h.waiting (Or.inl hmodule) n hn) Bool.false_ne_true

end

/-- What `request_metadata` does, flights apart: a handle is added, and its callback is run at once if
    the metadata is there. -/
structure Requested (s s' : MetadataRequests C) (k : Nat) : Prop where
  modules : s'.modules = s.modules
  deliveries : s'.deliveries = s.deliveries
  nextNode : s'.mx.nextNode = s.mx.nextNode + 1
  handles : s'.mx.handles = Function.update s.mx.handles k (s.mx.handles k ++ [s.mx.nextNode])
  invocations : s'.mx.invocations = Function.update s.mx.invocations k
    ((s.mx.invocations k).map fun i => { i with participants := i.participants ++ [s.mx.nextNode] })
  ran : s'.ran = if s.modules k then s.ran ++ [(k, s.mx.nextNode)] else s.ran

/-- A call, whether it starts a flight or not. -/
theorem requested_of_requestMetadata {s s' : MetadataRequests C} {k : Nat} {ready : C}
    (hstep : s.requestMetadata k ready = some s') : Requested s s' k := by
  unfold MetadataRequests.requestMetadata at hstep
  dsimp only at hstep
  split at hstep
  · -- run at once
    next hpresent =>
    obtain rfl := Option.some.inj hstep
    exact ⟨rfl, rfl, rfl, rfl, rfl, (if_pos hpresent).symm⟩
  · next habsent =>
    split at hstep
    · obtain ⟨mx, hmx, rfl⟩ := Option.map_eq_some_iff.mp hstep
      obtain ⟨hhandles, hinvocations, hnode, _, _⟩ := Multiplexed.step_fill hmx
      exact ⟨rfl, rfl, hnode, hhandles, hinvocations, (if_neg habsent).symm⟩
    · obtain rfl := Option.some.inj hstep
      exact ⟨rfl, rfl, rfl, rfl, rfl, (if_neg habsent).symm⟩

section

variable {s s' : MetadataRequests C} {k : Nat}

/-- The module has one handle more. -/
theorem Requested.handles_self (h : Requested s s' k) :
    s'.mx.handles k = s.mx.handles k ++ [s.mx.nextNode] := by
  rw [h.handles, Function.update_self]

/-- A walk under way takes the new callback in. -/
theorem Requested.invocations_self (h : Requested s s' k) :
    s'.mx.invocations k = (s.mx.invocations k).map fun i =>
      { i with participants := i.participants ++ [s.mx.nextNode] } := by
  rw [h.invocations, Function.update_self]

/-- The callback of the new handle is run, or none is. -/
theorem Requested.mem_ran (h : Requested s s' k) {e : Nat × Nat} :
    e ∈ s'.ran ↔ e ∈ s.ran ∨ (s.modules k = true ∧ e = (k, s.mx.nextNode)) := by
  rw [h.ran]
  split
  · next hpresent => simp [hpresent]
  · next habsent => simp [habsent]

/-- The new handle is known. -/
theorem Requested.known (h : Requested s s' k) (hknown : ∀ e ∈ s.ran, e.2 < s.mx.nextNode) :
    ∀ e ∈ s'.ran, e.2 < s'.mx.nextNode := by
  intro e he
  rw [h.nextNode]
  rcases h.mem_ran.mp he with he | ⟨_, rfl⟩
  · exact Nat.lt_succ_of_lt (hknown e he)
  · exact Nat.lt_succ_self _

/-- Other modules are left alone. -/
theorem Requested.other (h : Requested s s' k) {k' : Nat} (hk' : k' ≠ k) :
    s'.mx.handles k' = s.mx.handles k' ∧ s'.mx.invocations k' = s.mx.invocations k' ∧
      ∀ n, (k', n) ∈ s'.ran ↔ (k', n) ∈ s.ran := by
  refine ⟨?_, ?_, fun n => ?_⟩
  · rw [h.handles, Function.update_of_ne hk']
  · rw [h.invocations, Function.update_of_ne hk']
  · rw [h.mem_ran]
    exact ⟨fun hor => hor.resolve_right fun hand => hk' (Prod.mk.inj hand.2).1, Or.inl⟩

end

/-- **A call of `request_metadata`**, while no delivery of its module is under way: the callback is
    run at once exactly if the metadata is there. -/
theorem Sound.requestMetadata {s s' : MetadataRequests C} (h : Sound s) {k : Nat} {ready : C}
    (hidle : s.deliveries k = none) (hstep : s.requestMetadata k ready = some s') : Sound s' := by
  have hrequested := requested_of_requestMetadata hstep
  have hkey := h.keys k
  have hnew : (k, s.mx.nextNode) ∉ s.ran := fun hmem => Nat.lt_irrefl _ (h.known _ hmem)
  refine ⟨h.toFlying.requestMetadata hstep, hrequested.known h.known, ?_, fun k' => ?_⟩
  · -- a new handle was not served before
    rw [hrequested.ran]
    split
    · exact Lib.nodup_append_singleton h.once hnew
    · exact h.once
  · by_cases hk' : k' = k
    · subst hk'
      refine .of_idle ((congrFun hrequested.deliveries k').trans hidle) ?_ fun n hn => ?_
      · rw [hrequested.invocations_self, hkey.not_invoked (by rw [hidle]; simp)]
        rfl
      · rw [hrequested.mem_ran, hrequested.modules]
        rw [hrequested.handles_self] at hn
        rcases List.mem_append.mp hn with hn | hn
        · rw [hkey.served_iff hidle hn]
          exact ⟨fun hor => hor.elim id fun hand => hand.1, Or.inl⟩
        · rw [List.mem_singleton.mp hn]
          exact ⟨fun hor => (hor.resolve_left hnew).1, fun hpresent => .inr ⟨hpresent, rfl⟩⟩
    · obtain ⟨hhandles, hinvocations, hran⟩ := hrequested.other hk'
      exact (h.keys k').frame (congrFun hrequested.modules k') (congrFun hrequested.deliveries k')
        hhandles hinvocations hran

/-- Handles that are left after a release are as they were.  Somebody is left if the module is about
    to be invoked. -/
theorem KeySound.release {s s' : MetadataRequests C} {k handle : Nat} (h : KeySound s k)
    (hmodules : s'.modules k = s.modules k) (hdeliveries : s'.deliveries k = s.deliveries k)
    (hhandles : s'.mx.handles k = (s.mx.handles k).filter (· ≠ handle))
    (hinvocations : s'.mx.invocations k = s.mx.invocations k) (hran : s'.ran = s.ran)
    (hlast : s.deliveries k = some .committed → ∃ other ∈ s.mx.handles k, other ≠ handle) :
    KeySound s' k := by
  have hsub : ∀ n ∈ s'.mx.handles k, n ∈ s.mx.handles k := by
    intro n hn
    rw [hhandles] at hn
    exact List.mem_of_mem_filter hn
  refine ⟨?_, ?_, fun hcommitted hnil => ?_, ?_, ?_, ?_⟩
  · rw [hmodules, hdeliveries]
    exact h.pending
  · rw [hdeliveries, hinvocations]
    exact h.invoking
  · obtain ⟨other, hother, hne⟩ := hlast (hdeliveries ▸ hcommitted)
    rw [hhandles] at hnil
    exact List.not_mem_nil (hnil ▸ List.mem_filter.mpr ⟨hother, decide_eq_true hne⟩)
  · rw [hmodules, hdeliveries, hran]
    exact fun hor n hn => h.waiting hor n (hsub n hn)
  · rw [hmodules, hdeliveries, hran]
    exact fun hm hd n hn => h.served hm hd n (hsub n hn)
  · rw [hinvocations, hran]
    exact fun i hi n hn => h.walking i hi n (hsub n hn)

/-- **A handle is given back.** -/
theorem Sound.release {s s' : MetadataRequests C} (h : Sound s) {k handle : Nat}
    (hlast : s.deliveries k = some .committed → ∃ other ∈ s.mx.handles k, other ≠ handle)
    (hstep : s.step (.release k handle) = some s') : Sound s' := by
  have hfly := h.toFlying.step hstep
  obtain ⟨mx, hmx, rfl⟩ := Option.map_eq_some_iff.mp hstep
  obtain ⟨hhandles, hinvocations, hnode⟩ := Multiplexed.step_release hmx
  refine ⟨hfly, ?_, h.once, fun k' => ?_⟩
  · show ∀ e ∈ s.ran, e.2 < mx.nextNode
    rw [hnode]
    exact h.known
  · by_cases hk' : k' = k
    · subst hk'
      refine (h.keys k').release rfl rfl ?_ (congrFun hinvocations k') rfl hlast
      exact (congrFun hhandles k').trans (Function.update_self ..)
    · refine (h.keys k').frame rfl rfl ?_ (congrFun hinvocations k') fun n => Iff.rfl
      exact (congrFun hhandles k').trans (Function.update_of_ne hk' ..)

/-- **The metadata arrives**: somebody is waiting for it, or the flight would have been cancelled.
    -/
theorem Sound.arrived {s s' : MetadataRequests C} (h : Sound s) {flight : Nat}
    (hstep : s.step (.arrived flight) = some s') : Sound s' := by
  have hfly := h.toFlying.step hstep
  obtain ⟨f, hf, rfl⟩ := Option.map_eq_some_iff.mp hstep
  have hmem := List.mem_of_find?_eq_some hf
  have habsent := h.absent f hmem
  have hheld := h.held f hmem
  -- the request is held, so its key is in the map; it is not invoked yet, so somebody waits
  have hhandles : s.mx.handles f.persistentId ≠ [] := by
    have hin : (s.mx.requests f.persistentId).isSome := by
      obtain ⟨mx, hmx, _⟩ := Option.bind_eq_some_iff.mp hheld
      rw [hmx]
      rfl
    rcases (h.mx.mem_iff _).mp hin with hhandles | hinvoked
    · exact hhandles
    · have hinvoking := (h.keys _).invoking.mpr hinvoked
      rw [(h.keys _).pending habsent] at hinvoking
      cases hinvoking
  refine ⟨hfly, h.known, h.once, fun k => ?_⟩
  by_cases hk : k = f.persistentId
  · subst hk
    have hkey := h.keys f.persistentId
    have hidle := hkey.pending habsent
    exact .of_committed (Function.update_self ..) (Function.update_self ..)
      (hkey.not_invoked (by rw [hidle]; simp)) hhandles (hkey.waiting (Or.inl habsent))
  · exact (h.keys k).frame (Function.update_of_ne hk ..) (Function.update_of_ne hk ..) rfl rfl
      fun n => Iff.rfl

/-- **The callbacks are about to be walked**: nobody had a turn, and nobody was served. -/
theorem Sound.invoke {s s' : MetadataRequests C} (h : Sound s) {k : Nat}
    (hstep : s.step (.invoke k) = some s') : Sound s' := by
  have hfly := h.toFlying.step hstep
  simp only [MetadataRequests.step] at hstep
  split at hstep
  · next hcommitted =>
    obtain ⟨mx, hmx, rfl⟩ := Option.map_eq_some_iff.mp hstep
    obtain ⟨hhandles, hinvocations, hnode, _⟩ := Multiplexed.step_invoke hmx
    refine ⟨hfly, ?_, h.once, fun k' => ?_⟩
    · show ∀ e ∈ s.ran, e.2 < mx.nextNode
      rw [hnode]
      exact h.known
    · by_cases hk' : k' = k
      · subst hk'
        have hkey := h.keys k'
        have hinvocation : mx.invocations k' = some ⟨s.mx.handles k', []⟩ :=
          (congrFun hinvocations k').trans (Function.update_self ..)
        refine .of_invoking (hkey.present hcommitted) (Function.update_self ..) hinvocation ?_
        intro n hn
        change n ∈ mx.handles k' at hn
        rw [hhandles] at hn
        exact iff_of_false (hkey.waiting (Or.inr hcommitted) n hn) List.not_mem_nil
      · refine (h.keys k').frame rfl (Function.update_of_ne hk' ..) (congrFun hhandles k') ?_ fun n => Iff.rfl
        exact (congrFun hinvocations k').trans (Function.update_of_ne hk' ..)
  · cases hstep

/-- What is run at a node's turn: its callback, if its handle is alive. -/
theorem lastRun_turn {mx : Multiplexed Nat C Nat} {k : Nat} {i : Invocation} {n : Node C}
    {alive : Bool} (halive : n.callback.isSome = alive) :
    lastRun { mx with invocations := Function.update mx.invocations k (some
      { i with turns := i.turns ++ [⟨n.id, alive, n.callback.isSome⟩] }) } k =
      if alive then [(k, n.id)] else [] := by
  unfold lastRun
  dsimp only
  rw [Function.update_self, Option.bind_some, List.getLast?_concat, halive]

/-- **One turn**: the callback is run if its handle is alive, and it was not run before. -/
theorem Sound.turn {s s' : MetadataRequests C} (h : Sound s) {k : Nat}
    (hstep : s.step (.turn k) = some s') : Sound s' := by
  have hfly := h.toFlying.step hstep
  simp only [MetadataRequests.step] at hstep
  split at hstep
  · next hinvoking =>
    obtain ⟨mx, hmx, rfl⟩ := Option.map_eq_some_iff.mp hstep
    obtain ⟨req, i, n, hreq, hi, hn, rfl⟩ := Multiplexed.step_turn hmx
    have hkept := (hreq ▸ hi ▸ h.mx.keys k).kept
    have hkey := h.keys k
    have halive : n.callback.isSome = decide (n.id ∈ s.mx.handles k) := by
      rw [Bool.eq_iff_iff, decide_eq_true_iff]
      exact (hkept.alive_iff (List.mem_of_getElem? hn)).symm
    have hran : ∀ e, e ∈ s.ran ++ (if decide (n.id ∈ s.mx.handles k) then [(k, n.id)] else []) ↔
        e ∈ s.ran ∨ n.id ∈ s.mx.handles k ∧ e = (k, n.id) := by
      intro e
      rw [List.mem_append]
      by_cases hmem : n.id ∈ s.mx.handles k <;> simp [hmem]
    rw [lastRun_turn halive] at hfly ⊢
    refine ⟨hfly, fun e he => ?_, ?_, fun k' => ?_⟩
    · -- who is served now has asked
      rcases (hran e).mp he with he | ⟨_, rfl⟩
      · exact h.known e he
      · exact hkept.issued n (List.mem_of_getElem? hn)
    · -- and was not served: his turn is new
      show (s.ran ++ _).Nodup
      split
      · next hmem =>
        refine Lib.nodup_append_singleton h.once fun hran => ?_
        exact hkept.turn_fresh hn ((hkey.walking i hi n.id (of_decide_eq_true hmem)).mp hran)
      · rw [List.append_nil]
        exact h.once
    · by_cases hk' : k' = k
      · subst hk'
        refine .of_invoking (hkey.present hinvoking) hinvoking (Function.update_self ..) ?_
        intro h' hh'
        refine (hran _).trans ?_
        rw [List.map_append, List.mem_append, hkey.walking i hi h' hh']
        refine or_congr_right ?_
        rw [List.map_cons, List.map_nil, List.mem_singleton]
        constructor
        · rintro ⟨_, heq⟩
          exact (Prod.mk.inj heq).2
        · rintro rfl
          exact ⟨hh', rfl⟩
      · refine (h.keys k').frame rfl rfl rfl (Function.update_of_ne hk' ..) fun m => (hran _).trans ?_
        exact ⟨fun hor => hor.resolve_right fun hand => hk' (Prod.mk.inj hand.2).1, Or.inl⟩
  · cases hstep

/-- **The walk is over**: everybody alive was served.  Each of the participants had a turn, and the
    handles are among them. -/
theorem Sound.finish {s s' : MetadataRequests C} (h : Sound s) {k : Nat}
    (hstep : s.step (.finish k) = some s') : Sound s' := by
  have hfly := h.toFlying.step hstep
  simp only [MetadataRequests.step] at hstep
  split at hstep
  · next hinvoking =>
    obtain ⟨mx, hmx, rfl⟩ := Option.map_eq_some_iff.mp hstep
    obtain ⟨req, i, hreq, hi, hlength, hhandles, hinvocations, hnode⟩ := Multiplexed.step_finish hmx
    have hkey := h.keys k
    have hall := (hreq ▸ h.mx.keys k).kept.all_turned hi hlength
    refine ⟨hfly, ?_, h.once, fun k' => ?_⟩
    · show ∀ e ∈ s.ran, e.2 < mx.nextNode
      rw [hnode]
      exact h.known
    · by_cases hk' : k' = k
      · subst hk'
        have hinvocation : mx.invocations k' = none :=
          (congrFun hinvocations k').trans (Function.update_self ..)
        refine .of_idle (Function.update_self ..) hinvocation fun n hn => ?_
        change n ∈ mx.handles k' at hn
        rw [hhandles] at hn
        exact iff_of_true ((hkey.walking i hi n hn).mpr (hall n hn)) (hkey.present hinvoking)
      · refine (h.keys k').frame rfl (Function.update_of_ne hk' ..) (congrFun hhandles k') ?_ fun n => Iff.rfl
        exact (congrFun hinvocations k').trans (Function.update_of_ne hk' ..)
  · cases hstep

/-- **Every allowed step** keeps the invariant.  Mappings and missing cache files do not concern the
    callbacks. -/
theorem Sound.step {s s' : MetadataRequests C} (h : Sound s) {a : MetadataAction C}
    (hstep : s.allowedStep a = some s') : Sound s' := by
  unfold allowedStep at hstep
  split at hstep
  · next hallowed =>
    cases a with
    | request k ready => exact h.requestMetadata hallowed hstep
    | release k handle => exact h.release hallowed hstep
    | mapped k =>
      have hfly := h.toFlying.step hstep
      obtain rfl := Option.some.inj hstep
      exact ⟨hfly, h.known, h.once, fun k => (h.keys k).frame rfl rfl rfl rfl fun n => Iff.rfl⟩
    | cacheMissed flight =>
      have hfly := h.toFlying.step hstep
      simp only [MetadataRequests.step] at hstep
      split at hstep
      · obtain rfl := Option.some.inj hstep
        exact ⟨hfly, h.known, h.once, fun k => (h.keys k).frame rfl rfl rfl rfl fun n => Iff.rfl⟩
      · cases hstep
    | arrived flight => exact h.arrived hstep
    | invoke k => exact h.invoke hstep
    | turn k => exact h.turn hstep
    | finish k => exact h.finish hstep
  · cases hstep

/-- The requests that are to be invoked are there, and are not being invoked: `invoke` does not
    fail. -/
theorem Sound.canInvoke {s : MetadataRequests C} (h : Sound s) {k : Nat}
    (hcommitted : s.deliveries k = some .committed) : (s.step (.invoke k)).isSome := by
  have hkey := h.keys k
  have hin := (h.mx.mem_iff k).mpr (Or.inl (hkey.alive hcommitted))
  obtain ⟨mx, hmx⟩ := Option.isSome_iff_exists.mp hin
  have hkept := (hmx ▸ h.mx.keys k).kept
  have hidle : mx.inProgress = false := by
    rw [hkept.flag]
    refine Bool.eq_false_iff.mpr fun hsome => ?_
    have hinvoking := hkey.invoking.mpr hsome
    rw [hcommitted] at hinvoking
    cases hinvoking
  simp only [MetadataRequests.step]
  rw [if_pos hcommitted, Option.isSome_map]
  simp only [Multiplexed.step]
  rw [hmx, Option.bind_some, hidle]
  rfl

/-- **Metadata is delivered exactly once per request**, in every run that makes no request for a
    module while its delivery is under way, and whose slots of `created` do not release the last
    handle of the module being delivered; and the requests that are to be invoked are there. -/
theorem metadata_delivered_once (actions : List (MetadataAction C)) (s : MetadataRequests C)
    (hrun : Lib.run MetadataRequests.allowedStep MetadataRequests.new actions = some s) :
    ExactlyOnce s ∧
      ∀ k, s.deliveries k = some .committed → (s.step (.invoke k)).isSome := by
  have h : Sound s := Lib.run_invariant (fun _ _ _ h hstep => h.step hstep) actions new s new_sound hrun
  refine ⟨⟨fun k n => ?_, fun k hmodule hidle n hn => ?_, h.single⟩, fun k => h.canInvoke⟩
  · exact List.nodup_iff_count_le_one.mp h.once (k, n)
  · exact List.count_eq_one_of_mem h.once ((h.keys k).served hmodule hidle n hn)

/-- Two requests of a module, one of them released while the callbacks are walked. -/
theorem metadata_delivered_once_walked :
    let actions : List (MetadataAction Unit) :=
      [.mapped 7, .request 7 (), .request 7 (), .request 7 (), .cacheMissed 0, .arrived 0, .invoke 7,
        .turn 7, .release 7 1, .turn 7, .turn 7, .finish 7]
    ∃ s, Lib.run MetadataRequests.allowedStep MetadataRequests.new actions = some s ∧
      s.ran = [(7, 0), (7, 2)] ∧ s.ran.count (7, 2) = 1 := by
  intro actions
  refine ⟨_, rfl, by decide, ?_⟩
  exact (metadata_delivered_once actions _ rfl).1.available 7 rfl rfl 2 (by decide)

end MetadataRequests

end MicroProfiler
