/-
  `frontend::finalize` of `frontend/src/frontend.cpp`: the profiled process exits, and the session is
  kept until the metadata of every module that matters is there.

  1. **The code** — a loop over the statistics requests the metadata of each module it meets, once.
     `remaining` counts the requests that were not answered; the callback that takes it to zero
     disconnects, but only when the loop is over (`enable`), and the end of the loop does so if
     nothing is outstanding then.  Requests are answered at once or later, and between any two steps
     the rest of the frontend goes on (`FinalizeAction.others`).

  2. **Every run of requests** (`Serving`) — who was called has the metadata; when it is there and
     not being delivered, everybody was called.

  3. **The count** (`Tracking`) — `remaining` is what was requested less what was answered.

  4. **Once, and not too early** (`finalize_disconnects`).
-/
import MicroProfiler.Frontend.Metadata
import MicroProfiler.Frontend.SymbolResolver
import Mathlib.Data.List.Perm.Subperm

namespace MicroProfiler

variable {C : Type}

namespace MetadataRequests

/-! ## What every run of requests keeps -/

/-- What holds of one module, whoever asks for it and whenever. -/
structure KeyServing (s : MetadataRequests C) (k : Nat) : Prop where
  /-- what is not there is not delivered -/
  pending : s.modules k = false → s.deliveries k = none
  /-- a delivery is a walk over the callbacks -/
  invoking : s.deliveries k = some .invoking ↔ (s.mx.invocations k).isSome = true
  /-- a callback is run when the metadata is there -/
  informed : ∀ h, (k, h) ∈ s.ran → s.modules k = true
  /-- between deliveries everybody with a handle was called -/
  served : s.modules k = true → s.deliveries k = none → ∀ h ∈ s.mx.handles k, (k, h) ∈ s.ran
  /-- and during one, everybody who had a turn -/
  walked : ∀ i ∈ s.mx.invocations k, ∀ h ∈ s.mx.handles k, h ∈ i.turns.map Turn.node → (k, h) ∈ s.ran

/-- The INVARIANT of requests. -/
structure Serving (s : MetadataRequests C) : Prop extends Flying s where
  /-- handles are given out in order -/
  known : ∀ e ∈ s.ran, e.2 < s.mx.nextNode
  keys : ∀ k, KeyServing s k

/-- No module was asked for. -/
theorem new_serving : Serving (new : MetadataRequests C) where
  toFlying := new_sound.toFlying
  known := new_sound.known
  keys _ := by
    refine ⟨fun _ => rfl, by simp [new, Multiplexed.new], fun h hmem => ?_, fun h => ?_, fun i hi => ?_⟩
    · exact absurd hmem List.not_mem_nil
    · cases h
    · cases hi

/-- A module that a step does not touch.  It is by far the most frequent case of what follows. -/
theorem KeyServing.frame {s s' : MetadataRequests C} {k : Nat} (h : KeyServing s k)
    (hmodules : s'.modules k = s.modules k) (hdeliveries : s'.deliveries k = s.deliveries k)
    (hhandles : s'.mx.handles k = s.mx.handles k)
    (hinvocations : s'.mx.invocations k = s.mx.invocations k)
    (hran : ∀ n, (k, n) ∈ s'.ran ↔ (k, n) ∈ s.ran) : KeyServing s' k := by
  refine ⟨?_, ?_, fun n hn => ?_, ?_, ?_⟩
  · rw [hmodules, hdeliveries]
    exact h.pending
  · rw [hdeliveries, hinvocations]
    exact h.invoking
  · rw [hmodules]
    exact h.informed n ((hran n).mp hn)
  · rw [hmodules, hdeliveries, hhandles]
    exact fun hm hd n hn => (hran n).mpr (h.served hm hd n hn)
  · rw [hinvocations, hhandles]
    exact fun i hi n hn hturn => (hran n).mpr (h.walked i hi n hn hturn)

/-- What is being delivered is there. -/
theorem KeyServing.present {s : MetadataRequests C} {k : Nat} (h : KeyServing s k) {d : Delivery}
    (hd : s.deliveries k = some d) : s.modules k = true := by
  cases hmodule : s.modules k with
  | true => rfl
  -- what is not there is not delivered
  | false =>
    have hidle := h.pending hmodule
    rw [hd] at hidle
    cases hidle

/-- There is a walk only while it is being delivered. -/
theorem KeyServing.not_invoked {s : MetadataRequests C} {k : Nat} (h : KeyServing s k)
    (hd : s.deliveries k ≠ some .invoking) : s.mx.invocations k = none := by
  cases hi : s.mx.invocations k with
  | none => rfl
  | some i => exact absurd (h.invoking.mpr (by rw [hi]; rfl)) hd

/-- **A call of `request_metadata`**, at any time.  If the metadata is there the callback is run at
    once, so that whoever has a handle was called; if it is being delivered the new callback gets
    its turn besides. -/
theorem Serving.requestMetadata {s s' : MetadataRequests C} (h : Serving s) {k : Nat} {ready : C}
    (hstep : s.requestMetadata k ready = some s') : Serving s' := by
  have hrequested := requested_of_requestMetadata hstep
  have hkey := h.keys k
  refine ⟨h.toFlying.requestMetadata hstep, hrequested.known h.known, fun k' => ?_⟩
  by_cases hk' : k' = k
  · subst hk'
    -- where the metadata is there the new callback was run, whatever becomes of it later
    have hran : s.modules k' = true → ∀ n ∈ s'.mx.handles k',
        (n ∈ s.mx.handles k' → (k', n) ∈ s.ran) → (k', n) ∈ s'.ran := by
      intro hpresent n hn hold
      rw [hrequested.handles_self] at hn
      rw [hrequested.mem_ran]
      rcases List.mem_append.mp hn with hn | hn
      · exact .inl (hold hn)
      · exact .inr ⟨hpresent, by rw [List.mem_singleton.mp hn]⟩
    refine ⟨?_, ?_, fun n hn => ?_, ?_, fun i hi n hn hturn => ?_⟩
    · rw [hrequested.modules, hrequested.deliveries]
      exact hkey.pending
    · rw [hrequested.deliveries, hrequested.invocations_self, Option.isSome_map]
      exact hkey.invoking
    · rw [hrequested.modules]
      rcases hrequested.mem_ran.mp hn with hn | ⟨hpresent, _⟩
      · exact hkey.informed n hn
      · exact hpresent
    · rw [hrequested.modules, hrequested.deliveries]
      exact fun hpresent hidle n hn => hran hpresent n hn (hkey.served hpresent hidle n)
    · obtain ⟨i₀, hi₀, rfl⟩ := Option.map_eq_some_iff.mp (hrequested.invocations_self.symm.trans hi)
      -- who is called has the metadata
      have hpresent := hkey.present (hkey.invoking.mpr (by rw [hi₀]; rfl))
      exact hran hpresent n hn fun hold => hkey.walked i₀ hi₀ n hold hturn
  · obtain ⟨hhandles, hinvocations, hran⟩ := hrequested.other hk'
    exact (h.keys k').frame (congrFun hrequested.modules k') (congrFun hrequested.deliveries k')
      hhandles hinvocations hran

/-- A handle is given back: there are fewer to be called. -/
theorem Serving.release {s s' : MetadataRequests C} (h : Serving s) {k handle : Nat}
    (hstep : s.step (.release k handle) = some s') : Serving s' := by
  have hfly := h.toFlying.step hstep
  obtain ⟨mx, hmx, rfl⟩ := Option.map_eq_some_iff.mp hstep
  obtain ⟨hhandles, hinvocations, hnode⟩ := Multiplexed.step_release hmx
  refine ⟨hfly, ?_, fun k' => ?_⟩
  · -- no name is given to a node
    show ∀ e ∈ s.ran, e.2 < mx.nextNode
    rw [hnode]
    exact h.known
  · by_cases hk' : k' = k
    · subst hk'
      have hkey := h.keys k'
      have hsub : ∀ n ∈ mx.handles k', n ∈ s.mx.handles k' := by
        intro n hn
        rw [hhandles, Function.update_self] at hn
        exact List.mem_of_mem_filter hn
      have hsame : mx.invocations k' = s.mx.invocations k' := congrFun hinvocations k'
      refine ⟨hkey.pending, ?_, hkey.informed, fun hm hd n hn => hkey.served hm hd n (hsub n hn), ?_⟩
      · show _ ↔ (mx.invocations k').isSome = true
        rw [hsame]
        exact hkey.invoking
      · intro i hi n hn
        exact hkey.walked i (hsame ▸ hi) n (hsub n hn)
    · refine (h.keys k').frame rfl rfl ?_ (congrFun hinvocations k') fun n => Iff.rfl
      exact (congrFun hhandles k').trans (Function.update_of_ne hk' ..)

/-- The answer has come: the module is there, and its delivery begins. -/
theorem Serving.arrived {s s' : MetadataRequests C} (h : Serving s) {flight : Nat}
    (hstep : s.step (.arrived flight) = some s') : Serving s' := by
  have hfly := h.toFlying.step hstep
  obtain ⟨f, hf, rfl⟩ := Option.map_eq_some_iff.mp hstep
  -- a module is asked for by one flight, so that it was not there
  have habsent := h.absent f (List.mem_of_find?_eq_some hf)
  refine ⟨hfly, h.known, fun k => ?_⟩
  by_cases hk : k = f.persistentId
  · subst hk
    have hkey := h.keys f.persistentId
    have hidle := hkey.pending habsent
    have hnone := hkey.not_invoked (by rw [hidle]; simp)
    have hmodule : Function.update s.modules f.persistentId true f.persistentId = true :=
      Function.update_self ..
    have hdelivery : Function.update s.deliveries f.persistentId (some .committed) f.persistentId =
        some .committed := Function.update_self ..
    refine ⟨fun hm => ?_, ?_, fun _ _ => hmodule, fun _ hd => ?_, fun i hi => ?_⟩
    · exact absurd (hmodule.symm.trans hm) (by decide)
    · dsimp only
      rw [hdelivery, hnone]
      simp
    · exact absurd (hdelivery.symm.trans hd) (by simp)
    · exact absurd (hnone.symm.trans hi) (by simp)
  · exact (h.keys k).frame (Function.update_of_ne hk ..) (Function.update_of_ne hk ..) rfl rfl
      fun n => Iff.rfl

/-- The walk over the callbacks begins, with nobody called yet. -/
theorem Serving.invoke {s s' : MetadataRequests C} (h : Serving s) {k : Nat}
    (hstep : s.step (.invoke k) = some s') : Serving s' := by
  have hfly := h.toFlying.step hstep
  simp only [MetadataRequests.step] at hstep
  split at hstep
  · next hcommitted =>
    obtain ⟨mx, hmx, rfl⟩ := Option.map_eq_some_iff.mp hstep
    obtain ⟨hhandles, hinvocations, hnode, _⟩ := Multiplexed.step_invoke hmx
    refine ⟨hfly, ?_, fun k' => ?_⟩
    · show ∀ e ∈ s.ran, e.2 < mx.nextNode
      rw [hnode]
      exact h.known
    · by_cases hk' : k' = k
      · subst hk'
        have hpresent := (h.keys k').present hcommitted
        have hdelivery : Function.update s.deliveries k' (some Delivery.invoking) k' = some .invoking :=
          Function.update_self ..
        -- nobody had a turn, so that there is nobody to have been called
        have hinvocation : mx.invocations k' = some ⟨s.mx.handles k', []⟩ :=
          (congrFun hinvocations k').trans (Function.update_self ..)
        refine ⟨fun hm => ?_, ?_, fun _ _ => hpresent, fun _ hd => ?_, fun i hi n _ hturn => ?_⟩
        · exact absurd (hpresent.symm.trans hm) (by decide)
        · exact iff_of_true hdelivery (by show (mx.invocations k').isSome = true; rw [hinvocation]; rfl)
        · exact absurd (hdelivery.symm.trans hd) (by simp)
        · cases hinvocation.symm.trans hi
          exact absurd hturn List.not_mem_nil
      · refine (h.keys k').frame rfl (Function.update_of_ne hk' ..) (congrFun hhandles k') ?_
          fun n => Iff.rfl
        exact (congrFun hinvocations k').trans (Function.update_of_ne hk' ..)
  · cases hstep

/-- **One turn**: who has a handle is called; a callback whose handle was given back is passed over.
    -/
theorem Serving.turn {s s' : MetadataRequests C} (h : Serving s) {k : Nat}
    (hstep : s.step (.turn k) = some s') : Serving s' := by
  have hfly := h.toFlying.step hstep
  simp only [MetadataRequests.step] at hstep
  split at hstep
  · next hinvoking =>
    obtain ⟨mx, hmx, rfl⟩ := Option.map_eq_some_iff.mp hstep
    obtain ⟨req, i, n, hreq, hi, hn, rfl⟩ := Multiplexed.step_turn hmx
    have hkept := (hreq ▸ hi ▸ h.mx.keys k).kept
    have hkey := h.keys k
    -- the callback is blank exactly if the handle was given back
    have halive : n.callback.isSome = decide (n.id ∈ s.mx.handles k) := by
      rw [Bool.eq_iff_iff, decide_eq_true_iff]
      exact (hkept.alive_iff (List.mem_of_getElem? hn)).symm
    -- what is run is run with a handle
    have hran : ∀ e, e ∈ s.ran ++ (if decide (n.id ∈ s.mx.handles k) then [(k, n.id)] else []) ↔
        e ∈ s.ran ∨ n.id ∈ s.mx.handles k ∧ e = (k, n.id) := by
      intro e
      rw [List.mem_append]
      by_cases hmem : n.id ∈ s.mx.handles k <;> simp [hmem]
    rw [lastRun_turn halive] at hfly ⊢
    refine ⟨hfly, fun e he => ?_, fun k' => ?_⟩
    · rcases (hran e).mp he with he | ⟨_, rfl⟩
      · exact h.known e he
      · exact hkept.issued n (List.mem_of_getElem? hn)
    · by_cases hk' : k' = k
      · subst hk'
        have hpresent := hkey.present hinvoking
        refine ⟨fun hm => ?_, ?_, fun _ _ => hpresent, fun _ hd => ?_, fun i' hi' h' hh' hturn => ?_⟩
        · exact absurd (hpresent.symm.trans hm) (by decide)
        · refine iff_of_true hinvoking ?_
          show (Function.update s.mx.invocations k' _ k').isSome = true
          rw [Function.update_self]
          rfl
        · exact absurd (hinvoking.symm.trans hd) (by simp)
        · cases (Function.update_self ..).symm.trans hi'
          refine (hran _).mpr ?_
          rw [List.map_append, List.mem_append] at hturn
          rcases hturn with hturn | hturn
          · -- an earlier turn
            exact Or.inl (hkey.walked i hi h' hh' hturn)
          · -- this one
            obtain rfl : h' = n.id := List.mem_singleton.mp hturn
            exact Or.inr ⟨hh', rfl⟩
      · refine (h.keys k').frame rfl rfl rfl (Function.update_of_ne hk' ..) fun m => (hran _).trans ?_
        exact ⟨fun hor => hor.resolve_right fun hand => hk' (Prod.mk.inj hand.2).1, Or.inl⟩
  · cases hstep

/-- **The walk is over**: everybody had a turn, so everybody with a handle was called. -/
theorem Serving.finish {s s' : MetadataRequests C} (h : Serving s) {k : Nat}
    (hstep : s.step (.finish k) = some s') : Serving s' := by
  have hfly := h.toFlying.step hstep
  simp only [MetadataRequests.step] at hstep
  split at hstep
  · next hinvoking =>
    obtain ⟨mx, hmx, rfl⟩ := Option.map_eq_some_iff.mp hstep
    obtain ⟨req, i, hreq, hi, hlength, hhandles, hinvocations, hnode⟩ := Multiplexed.step_finish hmx
    -- the list is at its end
    have hall := (hreq ▸ h.mx.keys k).kept.all_turned hi hlength
    have hkey := h.keys k
    refine ⟨hfly, ?_, fun k' => ?_⟩
    · show ∀ e ∈ s.ran, e.2 < mx.nextNode
      rw [hnode]
      exact h.known
    · by_cases hk' : k' = k
      · subst hk'
        have hpresent := hkey.present hinvoking
        have hdelivery : Function.update s.deliveries k' none k' = none := Function.update_self ..
        have hinvocation : mx.invocations k' = none :=
          (congrFun hinvocations k').trans (Function.update_self ..)
        refine ⟨fun _ => hdelivery, ?_, fun _ _ => hpresent, fun _ _ n hn => ?_, fun i' hi' => ?_⟩
        · refine iff_of_false (fun hd => ?_) fun hsome => ?_
          · exact absurd (hdelivery.symm.trans hd) (by simp)
          · change (mx.invocations k').isSome = true at hsome
            rw [hinvocation] at hsome
            cases hsome
        · change n ∈ mx.handles k' at hn
          rw [hhandles] at hn
          exact hkey.walked i hi n hn (hall n hn)
        · exact absurd (hinvocation.symm.trans hi') (by simp)
      · refine (h.keys k').frame rfl (Function.update_of_ne hk' ..) (congrFun hhandles k') ?_
          fun n => Iff.rfl
        exact (congrFun hinvocations k').trans (Function.update_of_ne hk' ..)
  · cases hstep

/-- **Every step** keeps the invariant. -/
theorem Serving.step {s s' : MetadataRequests C} (h : Serving s) {a : MetadataAction C}
    (hstep : s.step a = some s') : Serving s' := by
  cases a with
  | request k ready => exact h.requestMetadata hstep
  | release k handle => exact h.release hstep
  -- neither touches what is kept of a module
  | mapped k =>
    have hfly := h.toFlying.step hstep
    obtain rfl := Option.some.inj hstep
    exact ⟨hfly, h.known, fun k => (h.keys k).frame rfl rfl rfl rfl fun n => Iff.rfl⟩
  | cacheMissed flight =>
    have hfly := h.toFlying.step hstep
    simp only [MetadataRequests.step] at hstep
    split at hstep
    · obtain rfl := Option.some.inj hstep
      exact ⟨hfly, h.known, fun k => (h.keys k).frame rfl rfl rfl rfl fun n => Iff.rfl⟩
    · cases hstep
  | arrived flight => exact h.arrived hstep
  | invoke k => exact h.invoke hstep
  | turn k => exact h.turn hstep
  | finish k => exact h.finish hstep

/-- The slot of the underlying request is empty when somebody is given it: it is filled by the first
    callback, and emptied with the last handle. -/
theorem Serving.requestMetadata_isSome {s : MetadataRequests C} (h : Serving s) (k : Nat) (ready : C) :
    (s.requestMetadata k ready).isSome = true := by
  unfold MetadataRequests.requestMetadata
  dsimp only
  split
  · rfl
  · split
    · next hfirst =>
      have hkey := h.mx.keys k
      -- the slot is given to whoever finds the list empty: the request was not in the map
      have hnew : s.mx.requests k = none := by
        cases hfound : s.mx.requests k with
        | none => rfl
        | some mx =>
          have hfilled := (hfound ▸ hkey).kept.filled
          change ((s.mx.requests k).getD .new).callbacks.isEmpty = true at hfirst
          rw [hfound] at hfirst
          exact absurd (List.isEmpty_iff.mp hfirst) hfilled
      rw [Option.isSome_map]
      show (((Function.update s.mx.requests k _ k).bind _).isSome) = true
      rw [Function.update_self, hnew]
      rfl
    · rfl

/-- A request adds its handle, and may run its callback.  This is all that finalization needs of
    one. -/
theorem requestMetadata_effect {s s' : MetadataRequests C} {k : Nat} {ready : C}
    (hstep : s.requestMetadata k ready = some s') :
    s'.mx.handles = Function.update s.mx.handles k (s.mx.handles k ++ [s.mx.nextNode]) ∧
      ∃ new, s'.ran = s.ran ++ new := by
  have hrequested := requested_of_requestMetadata hstep
  refine ⟨hrequested.handles, ?_⟩
  rw [hrequested.ran]
  split
  · exact ⟨_, rfl⟩
  · exact ⟨[], (List.append_nil _).symm⟩

/-- A handle is there until it is released, and what was run was run.  By cases on the step, most of
    which do neither. -/
theorem step_effect {s s' : MetadataRequests C} {a : MetadataAction C} (hstep : s.step a = some s') :
    (∀ k, ∀ h ∈ s.mx.handles k, (∀ k' h', a = .release k' h' → (k', h') ≠ (k, h)) →
      h ∈ s'.mx.handles k) ∧
    ∃ new, s'.ran = s.ran ++ new := by
  -- steps that leave the handles alone
  have hsame : ∀ {handles : Nat → List Nat} {P : Nat → Nat → Prop}, handles = s.mx.handles →
      ∀ k, ∀ h ∈ s.mx.handles k, P k h → h ∈ handles k := fun heq k h hh _ => heq ▸ hh
  cases a with
  -- one handle more
  | request k ready =>
    obtain ⟨hhandles, hran⟩ := requestMetadata_effect hstep
    refine ⟨fun k' h hh _ => ?_, hran⟩
    rw [hhandles]
    by_cases hk' : k' = k
    · subst hk'
      rw [Function.update_self]
      exact List.mem_append_left _ hh
    · rw [Function.update_of_ne hk']
      exact hh
  -- one less, and that is the one released
  | release k handle =>
    obtain ⟨mx, hmx, rfl⟩ := Option.map_eq_some_iff.mp hstep
    refine ⟨fun k' h hh hne => ?_, [], (List.append_nil _).symm⟩
    show h ∈ mx.handles k'
    rw [(Multiplexed.step_release hmx).1]
    by_cases hk' : k' = k
    · subst hk'
      rw [Function.update_self]
      refine List.mem_filter.mpr ⟨hh, decide_eq_true fun heq => hne k' handle rfl ?_⟩
      rw [heq]
    · rw [Function.update_of_ne hk']
      exact hh
  | mapped k =>
    obtain rfl := Option.some.inj hstep
    exact ⟨hsame rfl, [], (List.append_nil _).symm⟩
  | cacheMissed flight =>
    simp only [MetadataRequests.step] at hstep
    split at hstep
    · obtain rfl := Option.some.inj hstep
      exact ⟨hsame rfl, [], (List.append_nil _).symm⟩
    · cases hstep
  | arrived flight =>
    obtain ⟨f, _, rfl⟩ := Option.map_eq_some_iff.mp hstep
    exact ⟨hsame rfl, [], (List.append_nil _).symm⟩
  | invoke k =>
    simp only [MetadataRequests.step] at hstep
    split at hstep
    · obtain ⟨mx, hmx, rfl⟩ := Option.map_eq_some_iff.mp hstep
      exact ⟨hsame (Multiplexed.step_invoke hmx).1, [], (List.append_nil _).symm⟩
    · cases hstep
  -- a callback may run
  | turn k =>
    simp only [MetadataRequests.step] at hstep
    split at hstep
    · obtain ⟨mx, hmx, rfl⟩ := Option.map_eq_some_iff.mp hstep
      obtain ⟨_, _, _, _, _, _, rfl⟩ := Multiplexed.step_turn hmx
      exact ⟨hsame rfl, _, rfl⟩
    · cases hstep
  | finish k =>
    simp only [MetadataRequests.step] at hstep
    split at hstep
    · obtain ⟨mx, hmx, rfl⟩ := Option.map_eq_some_iff.mp hstep
      obtain ⟨_, _, _, _, _, hhandles, _⟩ := Multiplexed.step_finish hmx
      exact ⟨hsame hhandles, [], (List.append_nil _).symm⟩
    · cases hstep

end MetadataRequests

/-! ## Finalization -/

/-- `remaining` and `enable`, with the calls of `disconnect_session`.  `remaining` is unsigned in the
    source: it counts modules, and callbacks that run once never take it below zero. -/
structure Countdown where
  /-- requests that were not answered -/
  remaining : Int
  /-- the loop is over, and left something to wait for -/
  enable : Bool
  /-- how often `disconnect_session` was called -/
  disconnects : Nat
deriving DecidableEq, Repr

/-- The callback that `finalize` passes to `request_metadata`. -/
def Countdown.ready (c : Countdown) : Countdown :=
  let remaining := c.remaining - 1
  { c with
    remaining := remaining
    disconnects := if remaining = 0 ∧ c.enable = true then c.disconnects + 1 else c.disconnects }

/-- What follows the loop. -/
def Countdown.finish (c : Countdown) : Countdown :=
  if c.remaining = 0 then { c with disconnects := c.disconnects + 1 } else { c with enable := true }

/-- `finalize`, after the last update: `statistics` are the addresses its loop has not come to. -/
structure Finalization (C : Type) where
  /-- the module metadata, with everybody's requests -/
  requests : MetadataRequests C
  statistics : List Nat
  /-- the modules whose metadata was requested -/
  requested : List Nat
  countdown : Countdown
  /-- the loop is over -/
  finished : Bool
  /-- The requests that were made, by module and handle. -/
  own : List (Nat × Nat)

inductive FinalizeAction (C : Type)
  /-- The loop goes on, or is over. -/
  | next
  /-- The rest of the frontend, and answers to requests. -/
  | others (action : MetadataAction C)

namespace Finalization

/-- The exiting message came, and the update it asked for: the loop begins. -/
def start (requests : MetadataRequests C) (statistics : List Nat) : Finalization C :=
  ⟨requests, statistics, [], ⟨0, false, 0⟩, false, []⟩

/-- The requests went on: the callbacks of `own` that ran are run.  Those of others do not count
    down. -/
def answered (s : Finalization C) (requests : MetadataRequests C) : Finalization C :=
  { s with
    requests := requests
    countdown := ((requests.ran.drop s.requests.ran.length).filter (· ∈ s.own)).foldl
      (fun c _ => c.ready) s.countdown }

/-- A turn of the loop; `ready` is the callback. -/
def next (mappings : List ModuleMapping) (ready : C) (s : Finalization C) : Option (Finalization C) :=
  match s.statistics with
  | [] => if s.finished then none else some { s with countdown := s.countdown.finish, finished := true }
  | address :: statistics =>
      match findMapping mappings address with
      -- no module maps the address
      | none => some { s with statistics := statistics }
      | some m =>
          -- its module was requested already
          if m.persistentId ∈ s.requested then some { s with statistics := statistics }
          else
            (s.requests.requestMetadata m.persistentId ready).map fun requests =>
              answered { s with
                statistics := statistics
                requested := s.requested ++ [m.persistentId]
                countdown := { s.countdown with remaining := s.countdown.remaining + 1 }
                own := s.own ++ [(m.persistentId, s.requests.mx.nextNode)] } requests

/-- Does the action release a handle of `own`? -/
def releases (s : Finalization C) : MetadataAction C → Bool
  | .release persistentId handle => (persistentId, handle) ∈ s.own
  | _ => false

/-- `none`: what cannot happen; the handles of `own` are kept in `_requests`, and nobody's callback
    throws. -/
def step (mappings : List ModuleMapping) (ready : C) (s : Finalization C) :
    FinalizeAction C → Option (Finalization C)
  | .next => s.next mappings ready
  | .others action => if s.releases action then none else (s.requests.step action).map s.answered

/-! ### The count -/

/-- Nothing was disconnected before the loop is over; then either it was, once, or it waits for
    `remaining` to come to zero. -/
def Armed (c : Countdown) (finished : Bool) : Prop :=
  if finished then
    (c.disconnects = 1 ∧ c.remaining ≤ 0) ∨
      (c.disconnects = 0 ∧ c.enable = true ∧ c.remaining ≠ 0)
  else c.disconnects = 0 ∧ c.enable = false

/-- One callback: it disconnects if it is the last, and the loop is over. -/
theorem Armed.ready {c : Countdown} {finished : Bool} (h : Armed c finished) :
    Armed c.ready finished := by
  unfold Armed at h ⊢
  unfold Countdown.ready
  cases finished with
  -- before the end of the loop nothing is disconnected, whatever is answered
  | false =>
    obtain ⟨hnone, hdisabled⟩ := h
    simp only [Bool.false_eq_true, if_false, hdisabled, and_false]
    exact ⟨hnone, trivial⟩
  | true =>
    simp only [if_true] at h ⊢
    rcases h with ⟨hone, hle⟩ | ⟨hnone, henabled, hne⟩
    · refine Or.inl ⟨?_, by omega⟩
      rw [if_neg (by omega)]
      exact hone
    · -- it waits: is this the last one?
      by_cases hlast : c.remaining - 1 = 0
      · refine Or.inl ⟨?_, by omega⟩
        rw [if_pos ⟨hlast, henabled⟩, hnone]
      · refine Or.inr ⟨?_, henabled, hlast⟩
        rw [if_neg fun hand => hlast hand.1]
        exact hnone

/-- **Callbacks** count down one by one.  By recursion on those that were run. -/
theorem foldl_ready {finished : Bool} : ∀ (runs : List (Nat × Nat)) (c : Countdown), Armed c finished →
    Armed (runs.foldl (fun c _ => c.ready) c) finished ∧
      (runs.foldl (fun c _ => c.ready) c).remaining = c.remaining - runs.length
  | [], c, h => ⟨h, by simp⟩
  | e :: runs, c, h => by
    -- the first of them, then the others
    obtain ⟨harmed, hremaining⟩ := foldl_ready runs c.ready h.ready
    refine ⟨harmed, ?_⟩
    rw [List.foldl_cons, hremaining, List.length_cons]
    show c.remaining - 1 - _ = _
    omega

/-- The loop is over: if nothing is outstanding it disconnects itself, otherwise the last callback
    will. -/
theorem Armed.finish {c : Countdown} (h : Armed c false) : Armed c.finish true := by
  obtain ⟨hnone, _⟩ := h
  unfold Countdown.finish
  split
  · -- nothing is outstanding
    next hzero => exact Or.inl ⟨congrArg (· + 1) hnone, Int.le_of_eq hzero⟩
  · -- the last callback will
    next hne => exact Or.inr ⟨hnone, rfl, hne⟩

/-- `requested` are the modules of `own` and of the addresses gone through, and `remaining` is what
    was requested less what was answered. -/
structure Counting (mappings : List ModuleMapping) (all : List Nat) (s : Finalization C) : Prop where
  /-- a request of its own for each module, -/
  modules : s.own.map Prod.fst = s.requested
  /-- one -/
  once : s.requested.Nodup
  /-- only modules that map some address are requested -/
  needed : ∀ p ∈ s.requested, ∃ address ∈ all, ∃ m, findMapping mappings address = some m ∧
    m.persistentId = p
  /-- and all that map one the loop has come to -/
  gone : ∃ done, all = done ++ s.statistics ∧ ∀ address ∈ done, ∀ m,
    findMapping mappings address = some m → m.persistentId ∈ s.requested
  /-- the loop ends behind the last address -/
  through : s.finished = true → s.statistics = []
  /-- requested less answered -/
  counted : s.countdown.remaining = s.own.length - (s.requests.ran.filter (· ∈ s.own)).length
  /-- whether it was disconnected -/
  armed : Armed s.countdown s.finished

/-- The INVARIANT: the count, and that all requests made are still held, so that they are answered.
    -/
structure Tracking (mappings : List ModuleMapping) (all : List Nat) (s : Finalization C) : Prop
    extends Counting mappings all s where
  /-- whoever holds a request when it is answered is called, -/
  serving : s.requests.Serving
  /-- and these are held -/
  alive : ∀ e ∈ s.own, e.2 ∈ s.requests.mx.handles e.1

section

variable {mappings : List ModuleMapping} {all : List Nat} {s : Finalization C}

/-- Nothing is requested before the loop; the requests of others may be under way. -/
theorem start_tracking {requests : MetadataRequests C} (h : requests.Serving) :
    Tracking mappings all (start requests all) where
  modules := rfl
  once := List.nodup_nil
  needed _ hp := absurd hp List.not_mem_nil
  gone := ⟨[], rfl, fun _ hmem => absurd hmem List.not_mem_nil⟩
  through h := by cases h
  counted := by simp [start]
  armed := ⟨rfl, rfl⟩
  serving := h
  alive _ he := absurd he List.not_mem_nil

/-- **The requests went on.**  Each callback of `own` that ran takes one off the count. -/
theorem Counting.answered (h : Counting mappings all s) {requests : MetadataRequests C}
    {new : List (Nat × Nat)} (hran : requests.ran = s.requests.ran ++ new) :
    Counting mappings all (s.answered requests) := by
  -- what ran since
  have hnew : requests.ran.drop s.requests.ran.length = new := by rw [hran, List.drop_left]
  obtain ⟨harmed, hremaining⟩ := foldl_ready (new.filter (· ∈ s.own)) s.countdown h.armed
  rw [← hnew] at harmed hremaining
  refine ⟨h.modules, h.once, h.needed, h.gone, h.through, ?_, harmed⟩
  refine hremaining.trans ?_
  show _ = (s.own.length : Int) - (requests.ran.filter (· ∈ s.own)).length
  rw [hnew, hran, List.filter_append, List.length_append, h.counted]
  omega

/-- The loop is over; the count is not changed by that. -/
theorem Tracking.finish (h : Tracking mappings all s) (hrunning : s.finished = false)
    (hstatistics : s.statistics = []) :
    Tracking mappings all { s with countdown := s.countdown.finish, finished := true } := by
  refine { h with through := fun _ => hstatistics, counted := ?_, armed := ?_ }
  · show s.countdown.finish.remaining = _
    rw [← h.counted, Countdown.finish]
    split
    · rfl
    · rfl
  · have harmed := h.armed
    rw [hrunning] at harmed
    exact harmed.finish

/-- There are addresses left only while the loop goes on. -/
theorem Counting.running (h : Counting mappings all s) {address : Nat} {rest : List Nat}
    (hstatistics : s.statistics = address :: rest) : s.finished = false := by
  refine Bool.eq_false_iff.mpr fun hfinished => ?_
  rw [h.through hfinished] at hstatistics
  cases hstatistics

/-- An address is gone through when its module, if it has one, was requested. -/
theorem Counting.passed (h : Counting mappings all s) {address : Nat} {rest : List Nat}
    (hstatistics : s.statistics = address :: rest) {requested : List Nat}
    (hsub : ∀ p ∈ s.requested, p ∈ requested)
    (hlast : ∀ m, findMapping mappings address = some m → m.persistentId ∈ requested) :
    ∃ done, all = done ++ rest ∧ ∀ address ∈ done, ∀ m,
      findMapping mappings address = some m → m.persistentId ∈ requested := by
  obtain ⟨done, hdone, hgone⟩ := h.gone
  refine ⟨done ++ [address], ?_, fun a ha m hm => ?_⟩
  · rw [hdone, hstatistics, List.append_assoc]
    rfl
  · rcases List.mem_append.mp ha with ha | ha
    · exact hsub _ (hgone a ha m hm)
    · rw [List.mem_singleton.mp ha] at hm
      exact hlast m hm

/-- Nothing is to be requested for the address. -/
theorem Tracking.skip (h : Tracking mappings all s) {address : Nat} {rest : List Nat}
    (hstatistics : s.statistics = address :: rest)
    (hlast : ∀ m, findMapping mappings address = some m → m.persistentId ∈ s.requested) :
    Tracking mappings all { s with statistics := rest } := by
  refine { h with
    gone := h.passed hstatistics (fun _ hp => hp) hlast, through := fun hfinished => ?_ }
  rw [h.running hstatistics] at hfinished
  cases hfinished

/-- A module is counted when it is requested; nothing was run yet for its handle, which is new.  If
    the metadata is there its callback runs next (`Counting.answered`). -/
theorem Tracking.request (h : Tracking mappings all s) {address : Nat} {rest : List Nat}
    (hstatistics : s.statistics = address :: rest) {m : ModuleMapping}
    (hmapping : findMapping mappings address = some m) (hnew : m.persistentId ∉ s.requested) :
    Counting mappings all { s with
      statistics := rest
      requested := s.requested ++ [m.persistentId]
      countdown := { s.countdown with remaining := s.countdown.remaining + 1 }
      own := s.own ++ [(m.persistentId, s.requests.mx.nextNode)] } := by
  have hrunning := h.running hstatistics
  -- nobody with the new handle was called
  have hcounted : s.requests.ran.filter (· ∈ s.own ++ [(m.persistentId, s.requests.mx.nextNode)]) =
      s.requests.ran.filter (· ∈ s.own) := by
    refine List.filter_congr fun e he => ?_
    have hne : e ≠ (m.persistentId, s.requests.mx.nextNode) := by
      rintro rfl
      exact Nat.lt_irrefl _ (h.serving.known _ he)
    simp [hne]
  refine ⟨?_, ?_, fun p hp => ?_, h.passed hstatistics (fun p hp => List.mem_append_left _ hp) ?_,
    fun hfinished => ?_, ?_, ?_⟩
  · rw [List.map_append, h.modules]
    rfl
  · exact Lib.nodup_append_singleton h.once hnew
  · rcases List.mem_append.mp hp with hp | hp
    · exact h.needed p hp
    · obtain ⟨done, hdone, _⟩ := h.gone
      have haddress : address ∈ all := by
        rw [hdone, hstatistics]
        exact List.mem_append_right _ List.mem_cons_self
      exact ⟨address, haddress, m, hmapping, (List.mem_singleton.mp hp).symm⟩
  · intro m' hm'
    cases hmapping.symm.trans hm'
    exact List.mem_append_right _ List.mem_cons_self
  · rw [hrunning] at hfinished
    cases hfinished
  · dsimp only
    rw [hcounted, h.counted, List.length_append, List.length_singleton]
    omega
  · have harmed := h.armed
    dsimp only
    rw [hrunning] at harmed ⊢
    exact harmed

/-- **A turn of the loop**: the end of it, an address with nothing to request, or a request. -/
theorem Tracking.next {ready : C} {s' : Finalization C} (h : Tracking mappings all s)
    (hstep : s.next mappings ready = some s') : Tracking mappings all s' := by
  unfold Finalization.next at hstep
  cases hstatistics : s.statistics with
  -- behind the last address
  | nil =>
    rw [hstatistics] at hstep
    dsimp only at hstep
    split at hstep
    · cases hstep
    · next hrunning =>
      obtain rfl := Option.some.inj hstep
      exact hstatistics ▸ h.finish (Bool.eq_false_iff.mpr hrunning) hstatistics
  | cons address rest =>
    rw [hstatistics] at hstep
    dsimp only at hstep
    cases hmapping : findMapping mappings address with
    -- no module maps it
    | none =>
      rw [hmapping] at hstep
      obtain rfl := Option.some.inj hstep
      refine h.skip hstatistics fun m hm => ?_
      rw [hmapping] at hm
      cases hm
    | some m =>
      rw [hmapping] at hstep
      dsimp only at hstep
      split at hstep
      · -- its module was requested already
        next hrequested =>
        obtain rfl := Option.some.inj hstep
        refine h.skip hstatistics fun m' hm' => ?_
        cases hmapping.symm.trans hm'
        exact hrequested
      · -- it is requested now, and the requests go on
        next hrequested =>
        obtain ⟨requests, hrequest, rfl⟩ := Option.map_eq_some_iff.mp hstep
        obtain ⟨hhandles, new, hran⟩ := MetadataRequests.requestMetadata_effect hrequest
        refine { (h.request hstatistics hmapping hrequested).answered hran with
          serving := h.serving.requestMetadata hrequest, alive := fun e he => ?_ }
        show e.2 ∈ requests.mx.handles e.1
        rw [hhandles]
        rcases List.mem_append.mp he with he | he
        · by_cases hk : e.1 = m.persistentId
          · rw [hk, Function.update_self]
            exact List.mem_append_left _ (hk ▸ h.alive e he)
          · rw [Function.update_of_ne hk]
            exact h.alive e he
        · rw [List.mem_singleton.mp he, Function.update_self]
          exact List.mem_append_right _ List.mem_cons_self

/-- **Every step** keeps the invariant.  What others do may answer requests, but gives back no
    handle of `own`. -/
theorem Tracking.step {ready : C} {s' : Finalization C} {a : FinalizeAction C}
    (h : Tracking mappings all s) (hstep : s.step mappings ready a = some s') :
    Tracking mappings all s' := by
  cases a with
  | next => exact h.next hstep
  | others action =>
    simp only [Finalization.step] at hstep
    split at hstep
    · cases hstep
    · -- the handles of `own` stay
      next hkept =>
      obtain ⟨requests, hrequests, rfl⟩ := Option.map_eq_some_iff.mp hstep
      obtain ⟨hhandles, new, hran⟩ := MetadataRequests.step_effect hrequests
      refine { h.answered hran with serving := h.serving.step hrequests, alive := fun e he => ?_ }
      refine hhandles e.1 e.2 (h.alive e he) ?_
      rintro p handle rfl heq
      refine hkept (decide_eq_true ?_)
      rw [heq]
      exact he

/-- If nothing of `own` was run twice, all of it was run exactly when nothing remains: those run are
    among `own`, each once, so that as many are all. -/
theorem Tracking.all_ran_iff (h : Tracking mappings all s)
    (honce : ∀ e ∈ s.own, s.requests.ran.count e ≤ 1) :
    0 ≤ s.countdown.remaining ∧
      ((∀ e ∈ s.own, e ∈ s.requests.ran) ↔ s.countdown.remaining = 0) := by
  -- requests of different modules are different
  have hown : s.own.Nodup := (h.modules ▸ h.once : (s.own.map Prod.fst).Nodup).of_map
  have hmem : ∀ e, e ∈ s.requests.ran.filter (· ∈ s.own) ↔ e ∈ s.requests.ran ∧ e ∈ s.own := by
    intro e
    rw [List.mem_filter, decide_eq_true_iff]
  -- none of them was answered twice
  have hfired : (s.requests.ran.filter (· ∈ s.own)).Nodup := by
    refine List.nodup_iff_count_le_one.mpr fun e => ?_
    by_cases he : e ∈ s.own
    · exact Nat.le_trans (List.filter_sublist.count_le e) (honce e he)
    · have hzero := List.count_eq_zero_of_not_mem fun hfired => he ((hmem e).mp hfired).2
      omega
  have hsubperm := hfired.subperm fun e he => ((hmem e).mp he).2
  have hle := hsubperm.length_le
  rw [h.counted]
  refine ⟨by omega, fun hall => ?_, fun hzero e he => ?_⟩
  · -- all of them were answered: as many as there are
    have hge := (hown.subperm fun e he => (hmem e).mpr ⟨hall e he, he⟩).length_le
    omega
  · -- as many were answered as there are: all of them
    have hperm := hsubperm.perm_of_length_le (by omega)
    exact ((hmem e).mp (hperm.mem_iff.mpr he)).1

/-- The loop can always go on: `request_metadata` does not fail. -/
theorem Tracking.next_isSome (h : Tracking mappings all s) (ready : C) (hrunning : s.finished = false) :
    (s.next mappings ready).isSome = true := by
  unfold Finalization.next
  split
  · rw [hrunning]
    rfl
  · split
    · rfl
    · split
      · rfl
      · rw [Option.isSome_map]
        exact h.serving.requestMetadata_isSome _ ready

end

/-- The module maps an address of the statistics. -/
def Needed (mappings : List ModuleMapping) (statistics : List Nat) (persistentId : Nat) : Prop :=
  ∃ address ∈ statistics, ∃ m, findMapping mappings address = some m ∧ m.persistentId = persistentId

/-- **Finalization disconnects once and not too early**, whatever was requested before and is answered
    when, if the callbacks passed are run once at most: not before the metadata of every module that
    is needed is there, and when the loop is over and all of it is there and was delivered.  The loop
    itself is never stuck. -/
theorem finalize_disconnects (mappings : List ModuleMapping) (statistics : List Nat) (ready : C)
    (earlier : List (MetadataAction C)) (requests : MetadataRequests C)
    (hearlier : Lib.run MetadataRequests.step MetadataRequests.new earlier = some requests)
    (actions : List (FinalizeAction C)) (s : Finalization C)
    (hrun : Lib.run (Finalization.step mappings ready) (start requests statistics) actions = some s)
    (honce : ∀ e ∈ s.own, s.requests.ran.count e ≤ 1) :
    s.countdown.disconnects ≤ 1 ∧
    (0 < s.countdown.disconnects → ∀ p, Needed mappings statistics p → s.requests.modules p = true) ∧
    (s.finished = true → (∀ p, Needed mappings statistics p →
      s.requests.modules p = true ∧ s.requests.deliveries p = none) → s.countdown.disconnects = 1) ∧
    (s.finished = false → (s.next mappings ready).isSome = true) := by
  have hserving : requests.Serving := Lib.run_invariant (fun _ _ _ h hstep => h.step hstep) earlier _ _
    MetadataRequests.new_serving hearlier
  have h : Tracking mappings statistics s := Lib.run_invariant (fun _ _ _ h hstep => h.step hstep)
    actions _ _ (start_tracking hserving) hrun
  have harmed := h.armed
  unfold Armed at harmed
  refine ⟨?_, fun hsome p hp => ?_, fun hfinished hall => ?_, h.next_isSome ready⟩
  · -- one of the two disconnects, never both
    split at harmed
    · omega
    · omega
  · -- once it has disconnected nothing remains, so all that was requested is there
    cases hfinished : s.finished with
    | false =>
      rw [hfinished, if_neg Bool.false_ne_true] at harmed
      omega
    | true =>
      rw [hfinished, if_pos rfl] at harmed
      obtain ⟨hnonneg, hiff⟩ := h.all_ran_iff honce
      have hran := hiff.mpr (by omega)
      -- the loop went through every address
      obtain ⟨done, hdone, hgone⟩ := h.gone
      rw [h.through hfinished, List.append_nil] at hdone
      obtain ⟨address, haddress, m, hm, rfl⟩ := hp
      have hrequested := hgone address (hdone ▸ haddress) m hm
      rw [← h.modules] at hrequested
      obtain ⟨e, he, heq⟩ := List.mem_map.mp hrequested
      rw [← heq]
      exact (h.serving.keys e.1).informed e.2 (hran e he)
  · -- if all of it is there and delivered, all callbacks have run
    rw [hfinished, if_pos rfl] at harmed
    have hran : ∀ e ∈ s.own, e ∈ s.requests.ran := by
      intro e he
      have hrequested : e.1 ∈ s.requested := h.modules ▸ List.mem_map_of_mem he
      obtain ⟨hmodule, hidle⟩ := hall e.1 (h.needed e.1 hrequested)
      exact (h.serving.keys e.1).served hmodule hidle e.2 (h.alive e he)
    have hzero := (h.all_ran_iff honce).2.mp hran
    omega

/-- One module was there before, one comes later, and one address has none. -/
theorem finalize_disconnects_mixed :
    let mappings : List ModuleMapping := [⟨8, 0x2000⟩, ⟨7, 0x1000⟩]
    let earlier : List (MetadataAction Unit) := [.request 7 (), .arrived 0, .invoke 7, .turn 7, .finish 7]
    let actions : List (FinalizeAction Unit) := [.next, .next, .next, .next, .next, .others (.arrived 1),
      .others (.invoke 8), .others (.turn 8), .others (.finish 8)]
    ∃ requests s, Lib.run MetadataRequests.step MetadataRequests.new earlier = some requests ∧
      Lib.run (Finalization.step mappings ()) (start requests [0x1010, 0x10, 0x2010, 0x1020]) actions =
        some s ∧
      s.own = [(7, 1), (8, 2)] ∧ s.countdown.disconnects = 1 := by
  intro mappings earlier actions
  obtain ⟨requests, s, hrequests, hrun, hown, honce, hfinished, hthere⟩ : ∃ requests s,
      Lib.run MetadataRequests.step MetadataRequests.new earlier = some requests ∧
      Lib.run (Finalization.step mappings ()) (start requests [0x1010, 0x10, 0x2010, 0x1020]) actions =
        some s ∧
      s.own = [(7, 1), (8, 2)] ∧ (∀ e ∈ s.own, s.requests.ran.count e ≤ 1) ∧ s.finished = true ∧
      ∀ p ∈ [7, 8], s.requests.modules p = true ∧ s.requests.deliveries p = none :=
    ⟨_, _, rfl, rfl, rfl, by decide +kernel, rfl, by decide +kernel⟩
  have hneeded : ∀ address ∈ [0x1010, 0x10, 0x2010, 0x1020], ∀ m ∈ findMapping mappings address,
      m.persistentId ∈ [7, 8] := by
    decide +kernel
  refine ⟨requests, s, hrequests, hrun, hown, ?_⟩
  refine (finalize_disconnects mappings [0x1010, 0x10, 0x2010, 0x1020] () earlier requests hrequests
    actions s hrun honce).2.2.1 hfinished fun p hp => ?_
  obtain ⟨address, haddress, m, hm, rfl⟩ := hp
  exact hthere _ (hneeded address haddress m hm)

end Finalization

end MicroProfiler
