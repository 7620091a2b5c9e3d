/-
  `patcher/image_patch_manager.h`, `image_patch_manager.cpp`: patches made on demand for the
  functions of an image, switched on and off by lists of targets.

  1. **The code** — `ImagePatch.apply` and `ImagePatch.revert` are one loop (`processTargets`) over
     two bodies.  What the machine decides — whether the patch can be made, whether its jump can be
     written — comes in as an `Attempt` for each target: the call returns, throws the
     `patch_exception` that `apply` catches, or throws anything else and leaves the loop.

  2. **What a loop does to the patches** (`Switched`, `processTargets_spec`): the targets that
     answer `ok` are switched, every other patch is as it was.
-/
import Mathlib.Data.List.AList
import Mathlib.Data.List.Nodup
import Mathlib.Logic.Function.Basic

namespace MicroProfiler

/-- `patch_result::errors`. -/
inductive PatchResult
  | ok
  | error
  | unchanged
deriving DecidableEq, Repr

/-- `struct patch_apply`. -/
structure PatchApply where
  result : PatchResult
  id : Nat
deriving DecidableEq, Repr

/-- What a call that may fail comes to. -/
inductive Outcome
  | returns
  /-- `patch_exception` -/
  | throws
  /-- any other exception -/
  | dies
deriving DecidableEq, Repr

/-- What making a patch, and switching it, come to. -/
structure Attempt where
  create : Outcome
  switch : Outcome
deriving DecidableEq, Repr

/-- `function_patch`: the address it was made for, and whether its jumper is active. -/
structure FunctionPatch where
  target : Nat
  active : Bool
deriving DecidableEq, Repr

/-- `image_patch`; `L` is what pins a module in memory. -/
structure ImagePatch (L : Type) where
  lock : Option L
  patched : AList fun _ : Nat => FunctionPatch
  patchesApplied : Nat

namespace ImagePatch

variable {L : Type}

def new : ImagePatch L := ⟨none, ∅, 0⟩

/-- Is the function at `rva` patched? -/
def isActive (image : ImagePatch L) (rva : Nat) : Bool :=
  match image.patched.lookup rva with
  | some patch => patch.active
  | none => false

/-- `patch.activate(false)`, and what follows it in the `try` block. -/
def activate (image : ImagePatch L) (rva : Nat) (patch : FunctionPatch) (switch : Outcome) :
    ImagePatch L × Option PatchResult :=
  -- `activate` of an active patch says so and does nothing
  if patch.active then (image, some .unchanged)
  else
    match switch with
    | .returns =>
        ({ image with
            patched := image.patched.insert rva { patch with active := true }
            patchesApplied := image.patchesApplied + 1 }, some .ok)
    | .throws => (image, some .error)
    | .dies => (image, none)

/-- The body of the loop of `apply`; no result when an exception leaves the loop. -/
def applyTarget (base : Nat) (attempts : Nat → Attempt) (image : ImagePatch L) (rva : Nat) :
    ImagePatch L × Option PatchResult :=
  match image.patched.lookup rva with
  | some patch => image.activate rva patch (attempts rva).switch
  | none =>
      match (attempts rva).create with
      | .returns =>
          let patch : FunctionPatch := ⟨base + rva, false⟩
          activate { image with patched := image.patched.insert rva patch } rva patch
            (attempts rva).switch
      | .throws => (image, some .error)
      | .dies => (image, none)

/-- The body of the loop of `revert`, which catches nothing. -/
def revertTarget (attempts : Nat → Attempt) (image : ImagePatch L) (rva : Nat) :
    ImagePatch L × Option PatchResult :=
  match image.patched.lookup rva with
  | none => (image, some .unchanged)
  | some patch =>
      if patch.active then
        match (attempts rva).switch with
        | .returns =>
            ({ image with
                patched := image.patched.insert rva { patch with active := false }
                patchesApplied := image.patchesApplied - 1 }, some .ok)
        -- there is no `try` block here: what is thrown leaves `revert`
        | _ => (image, none)
      else (image, some .unchanged)

/-- The loop over the targets, which collects `results`. -/
def processTargets (body : ImagePatch L → Nat → ImagePatch L × Option PatchResult)
    (image : ImagePatch L) : List Nat → List (Nat × PatchResult) →
    ImagePatch L × Option (List (Nat × PatchResult))
  | [], results => (image, some results)
  | rva :: targets, results =>
      match body image rva with
      | (image', some result) => processTargets body image' targets (results ++ [(rva, result)])
      -- what was done to earlier targets stays done
      | (image', none) => (image', none)

/-- `apply`, for one image. -/
def apply (image : ImagePatch L) (attempts : Nat → Attempt) (base : Nat) (lock : L)
    (targets : List Nat) : ImagePatch L × Option (List (Nat × PatchApply)) :=
  match image.processTargets (applyTarget base attempts) targets [] with
  | (image', some results) =>
      -- the image is kept loaded while it has patches in it
      ({ image' with lock := if image'.patchesApplied ≠ 0 then some lock else image'.lock },
        some (results.map fun r => (r.1, ⟨r.2, 0⟩)))
  | (image', none) => (image', none)

/-- `revert`, for one image. -/
def revert (image : ImagePatch L) (attempts : Nat → Attempt) (targets : List Nat) :
    ImagePatch L × Option (List (Nat × PatchResult)) :=
  match image.processTargets (revertTarget attempts) targets [] with
  | (image', some results) =>
      ({ image' with lock := if image'.patchesApplied = 0 then none else image'.lock }, some results)
  | (image', none) => (image', none)

end ImagePatch

/-- `class image_patch_manager`: `_patched_images`, where an absent image is a fresh one. -/
structure ImagePatchManager (L : Type) where
  patchedImages : Nat → ImagePatch L

namespace ImagePatchManager

variable {L : Type}

def new : ImagePatchManager L := ⟨fun _ => ImagePatch.new⟩

/-- `image_patch_manager::apply`. -/
def apply (m : ImagePatchManager L) (attempts : Nat → Attempt) (persistentId base : Nat) (lock : L)
    (targets : List Nat) : ImagePatchManager L × Option (List (Nat × PatchApply)) :=
  let r := (m.patchedImages persistentId).apply attempts base lock targets
  (⟨Function.update m.patchedImages persistentId r.1⟩, r.2)

/-- `image_patch_manager::revert`. -/
def revert (m : ImagePatchManager L) (attempts : Nat → Attempt) (persistentId : Nat)
    (targets : List Nat) : ImagePatchManager L × Option (List (Nat × PatchResult)) :=
  let r := (m.patchedImages persistentId).revert attempts targets
  (⟨Function.update m.patchedImages persistentId r.1⟩, r.2)

/-- Is the function at an image's `rva` patched? -/
def isActive (m : ImagePatchManager L) (symbol : Nat × Nat) : Bool :=
  (m.patchedImages symbol.1).isActive symbol.2

end ImagePatchManager

/-! ## What the loops do to the patches -/

namespace ImagePatch

variable {L : Type}

theorem isActive_insert (image : ImagePatch L) (rva q : Nat) (patch : FunctionPatch)
    (lock : Option L) (n : Nat) :
    isActive ⟨lock, image.patched.insert rva patch, n⟩ q =
      if q = rva then patch.active else image.isActive q := by
  unfold isActive
  by_cases h : q = rva
  · subst h
    rw [if_pos rfl, AList.lookup_insert]
  · rw [if_neg h, AList.lookup_insert_ne h]

/-- One target done: switched to `on` when the answer is `ok`, and nothing else ever. -/
structure Switched (on : Bool) (image : ImagePatch L) (rva : Nat)
    (step : ImagePatch L × Option PatchResult) : Prop where
  frame : ∀ q, q ≠ rva → step.1.isActive q = image.isActive q
  switched : step.2 = some .ok → step.1.isActive rva = on
  kept : ∀ result, step.2 = some result → result ≠ .ok → step.1.isActive rva = image.isActive rva

theorem Switched.same {on : Bool} {image : ImagePatch L} {rva : Nat} {answer : Option PatchResult}
    (h : answer ≠ some .ok) : Switched on image rva (image, answer) :=
  ⟨fun _ _ => rfl, fun hok => absurd hok h, fun _ _ _ => rfl⟩

theorem Switched.insert (image : ImagePatch L) (rva : Nat) (patch : FunctionPatch) (n : Nat) :
    Switched patch.active image rva (⟨image.lock, image.patched.insert rva patch, n⟩, some .ok) := by
  refine ⟨fun q hq => ?_, fun _ => ?_, fun result hresult hne => ?_⟩
  · rw [isActive_insert, if_neg hq]
  · rw [isActive_insert, if_pos rfl]
  · exact absurd (Option.some.inj hresult).symm hne

theorem activate_switched (image : ImagePatch L) (rva : Nat) (patch : FunctionPatch)
    (switch : Outcome) : Switched true image rva (image.activate rva patch switch) := by
  unfold activate
  split
  · exact .same (by decide)
  · cases switch with
    | returns => exact .insert image rva { patch with active := true } _
    | throws => exact .same (by decide)
    | dies => exact .same (by decide)

theorem applyTarget_switched (base : Nat) (attempts : Nat → Attempt) (image : ImagePatch L)
    (rva : Nat) : Switched true image rva (applyTarget base attempts image rva) := by
  unfold applyTarget
  cases hlookup : image.patched.lookup rva with
  | some patch => exact activate_switched image rva patch _
  | none =>
    dsimp only
    cases (attempts rva).create with
    | returns =>
      -- the new patch is not active, so making it shows nowhere
      have hnew : ∀ q, isActive ⟨image.lock, image.patched.insert rva ⟨base + rva, false⟩,
          image.patchesApplied⟩ q = image.isActive q := by
        intro q
        rw [isActive_insert]
        split
        · next heq => rw [heq, isActive, hlookup]
        · rfl
      obtain ⟨hframe, hok, hkept⟩ := activate_switched
        ⟨image.lock, image.patched.insert rva ⟨base + rva, false⟩, image.patchesApplied⟩ rva
        ⟨base + rva, false⟩ (attempts rva).switch
      exact ⟨fun q hq => (hframe q hq).trans (hnew q), hok,
        fun result hresult hne => (hkept result hresult hne).trans (hnew rva)⟩
    | throws => exact .same (by decide)
    | dies => exact .same (by decide)

theorem revertTarget_switched (attempts : Nat → Attempt) (image : ImagePatch L) (rva : Nat) :
    Switched false image rva (revertTarget attempts image rva) := by
  unfold revertTarget
  cases image.patched.lookup rva with
  | none => exact .same (by decide)
  | some patch =>
    dsimp only
    split
    · cases (attempts rva).switch with
      | returns => exact .insert image rva { patch with active := false } _
      | throws => exact .same (by decide)
      | dies => exact .same (by decide)
    · exact .same (by decide)

/-- **A loop over distinct targets** leaves what is not a target alone, and when it runs to its end
    it answers for each target in order: `ok` for those it switched, and the others are as they
    were. -/
theorem processTargets_spec {on : Bool} {body : ImagePatch L → Nat → ImagePatch L × Option PatchResult}
    (hbody : ∀ image rva, Switched on image rva (body image rva)) : ∀ (targets : List Nat) (image image' : ImagePatch L)
    (results : List (Nat × PatchResult)) (answer : Option (List (Nat × PatchResult))),
    targets.Nodup → image.processTargets body targets results = (image', answer) →
      (∀ q, q ∉ targets → image'.isActive q = image.isActive q) ∧
        ∀ all, answer = some all → ∃ new, all = results ++ new ∧ new.map Prod.fst = targets ∧
          ∀ r ∈ new, image'.isActive r.1 = if r.2 = .ok then on else image.isActive r.1 := by
  intro targets
  induction targets with
  | nil =>
    intro image image' results answer _ hprocess
    obtain ⟨rfl, rfl⟩ := Prod.mk.inj hprocess
    refine ⟨fun _ _ => rfl, fun all hall => ⟨[], ?_, rfl, nofun⟩⟩
    rw [List.append_nil]
    exact (Option.some.inj hall).symm
  | cons rva targets ih =>
    intro image image' results answer hnodup hprocess
    obtain ⟨hout, hnodup⟩ := List.nodup_cons.mp hnodup
    rw [processTargets] at hprocess
    have hstep := hbody image rva
    generalize body image rva = step at hprocess hstep
    obtain ⟨image₁, result⟩ := step
    obtain ⟨hframe, hswitched, hkept⟩ := hstep
    have hne : ∀ q, q ∉ rva :: targets → q ≠ rva := fun q hq heq => hq (heq ▸ List.mem_cons_self)
    cases result with
    | none =>
      obtain ⟨rfl, rfl⟩ := Prod.mk.inj hprocess
      exact ⟨fun q hq => hframe q (hne q hq), nofun⟩
    | some result =>
      obtain ⟨hrest, hanswer⟩ := ih image₁ image' _ answer hnodup hprocess
      refine ⟨fun q hq => ?_, fun all hall => ?_⟩
      · exact (hrest q fun hmem => hq (List.mem_cons_of_mem _ hmem)).trans (hframe q (hne q hq))
      · obtain ⟨new, rfl, hnew, hstates⟩ := hanswer all hall
        refine ⟨(rva, result) :: new, ?_, ?_, ?_⟩
        · rw [List.append_assoc, List.singleton_append]
        · rw [List.map_cons, hnew]
        · intro r hr
          rcases List.mem_cons.mp hr with rfl | hr
          · rw [hrest rva hout]
            dsimp only
            split
            · next hok => exact hswitched (hok ▸ rfl)
            · next hok => exact hkept result rfl hok
          · have hmem : r.1 ∈ targets := hnew ▸ List.mem_map_of_mem hr
            have hrva : r.1 ≠ rva := fun heq => hout (heq ▸ hmem)
            rw [hstates r hr, hframe r.1 hrva]

end ImagePatch

namespace ImagePatchManager

variable {L : Type}

/-- One image was worked on: what its loop did, told of the whole manager. -/
theorem isActive_update (m : ImagePatchManager L) (persistentId : Nat) (image : ImagePatch L)
    (targets : List Nat)
    (h : ∀ q, q ∉ targets → image.isActive q = (m.patchedImages persistentId).isActive q) (symbol : Nat × Nat)
    (hsymbol : symbol ∉ targets.map fun rva => (persistentId, rva)) :
    isActive ⟨Function.update m.patchedImages persistentId image⟩ symbol = m.isActive symbol := by
  obtain ⟨p, rva⟩ := symbol
  unfold isActive
  dsimp only
  by_cases heq : p = persistentId
  · subst heq
    rw [Function.update_self]
    exact h rva fun hmem => hsymbol (List.mem_map.mpr ⟨rva, hmem, rfl⟩)
  · rw [Function.update_of_ne heq]

theorem apply_spec (m : ImagePatchManager L) (attempts : Nat → Attempt) (persistentId base : Nat)
    (lock : L) (targets : List Nat) (hnodup : targets.Nodup) :
    (∀ symbol, symbol ∉ targets.map (fun rva => (persistentId, rva)) →
        (m.apply attempts persistentId base lock targets).1.isActive symbol = m.isActive symbol) ∧
      ∀ results, (m.apply attempts persistentId base lock targets).2 = some results →
        results.map Prod.fst = targets ∧
          ∀ r ∈ results, (m.apply attempts persistentId base lock targets).1.isActive
            (persistentId, r.1) = if r.2.result = .ok then true else m.isActive (persistentId, r.1) := by
  unfold ImagePatchManager.apply ImagePatch.apply
  obtain ⟨hframe, hanswer⟩ := ImagePatch.processTargets_spec
    (ImagePatch.applyTarget_switched base attempts) targets (m.patchedImages persistentId) _ [] _
    hnodup rfl
  generalize (m.patchedImages persistentId).processTargets _ targets [] = step at hframe hanswer
  obtain ⟨image, answer⟩ := step
  cases answer with
  | none => exact ⟨isActive_update m persistentId image targets hframe, by rintro _ ⟨⟩⟩
  | some all =>
    obtain ⟨new, hall, hnew, hstates⟩ := hanswer all rfl
    obtain rfl : all = new := hall
    refine ⟨isActive_update m persistentId _ targets hframe, ?_⟩
    rintro _ ⟨⟩
    refine ⟨by rw [List.map_map]; exact hnew, fun r hr => ?_⟩
    obtain ⟨r', hr', rfl⟩ := List.mem_map.mp hr
    unfold isActive
    dsimp only
    rw [Function.update_self]
    exact hstates r' hr'

theorem revert_spec (m : ImagePatchManager L) (attempts : Nat → Attempt) (persistentId : Nat)
    (targets : List Nat) (hnodup : targets.Nodup) :
    (∀ symbol, symbol ∉ targets.map (fun rva => (persistentId, rva)) →
        (m.revert attempts persistentId targets).1.isActive symbol = m.isActive symbol) ∧
      ∀ results, (m.revert attempts persistentId targets).2 = some results →
        results.map Prod.fst = targets ∧
          ∀ r ∈ results, (m.revert attempts persistentId targets).1.isActive
            (persistentId, r.1) = if r.2 = .ok then false else m.isActive (persistentId, r.1) := by
  unfold ImagePatchManager.revert ImagePatch.revert
  obtain ⟨hframe, hanswer⟩ := ImagePatch.processTargets_spec
    (ImagePatch.revertTarget_switched attempts) targets (m.patchedImages persistentId) _ [] _
    hnodup rfl
  generalize (m.patchedImages persistentId).processTargets _ targets [] = step at hframe hanswer
  obtain ⟨image, answer⟩ := step
  cases answer with
  | none => exact ⟨isActive_update m persistentId image targets hframe, by rintro _ ⟨⟩⟩
  | some all =>
    obtain ⟨new, hall, hnew, hstates⟩ := hanswer all rfl
    obtain rfl : all = new := hall
    refine ⟨isActive_update m persistentId _ targets hframe, ?_⟩
    rintro _ ⟨⟩
    refine ⟨hnew, fun r hr => ?_⟩
    unfold isActive
    dsimp only
    rw [Function.update_self]
    exact hstates r hr

end ImagePatchManager

end MicroProfiler
