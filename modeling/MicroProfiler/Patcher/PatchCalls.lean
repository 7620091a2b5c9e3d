/-
  Sequences of calls to an `image_patch_manager`: its counters, its locks and its answers.

  1. **The calls** — `PatchCall`: `apply` and `revert` with an `Attempt` for each entry of the list
     of targets, so that a function named twice can fail once and succeed once
     (`apply_eq_applyEach`: with one attempt for each function this is `ImagePatch.apply`).

  2. **One target** (`Done`) — what an iteration of either loop does: it switches the patch, and
     the counter with it, if and only if it answers `ok`.

  3. **Bookkeeping** (`patch_bookkeeping`) — the counter is the number of active patches and the
     module is locked while there are any; each target has its answer.

  4. **Addresses** (`patches_at_base`) — a patch is kept when it is reverted, with the address it
     was made for; so a module that was loaded elsewhere meanwhile is patched where it was.
-/
import MicroProfiler.Patcher.ImagePatchManager
import MicroProfiler.Lib.Runs

namespace MicroProfiler

namespace ImagePatch

variable {L : Type}

/-- The loop over the targets, with an attempt for each; an exception that is not caught ends it,
    and with it the call, without results. -/
def processEach (body : ImagePatch L → Nat → Attempt → ImagePatch L × Option PatchResult)
    (image : ImagePatch L) : List (Nat × Attempt) → List (Nat × PatchResult) →
    ImagePatch L × Option (List (Nat × PatchResult))
  | [], results => (image, some results)
  | (rva, attempt) :: targets, results =>
      match body image rva attempt with
      | (image', some result) => processEach body image' targets (results ++ [(rva, result)])
      | (image', none) => (image', none)

/-- The bodies of the two loops, for one attempt. -/
def applyOnce (base : Nat) (image : ImagePatch L) (rva : Nat) (attempt : Attempt) :
    ImagePatch L × Option PatchResult := applyTarget base (fun _ => attempt) image rva

/-- The body of the loop of `revert`. -/
def revertOnce (image : ImagePatch L) (rva : Nat) (attempt : Attempt) :
    ImagePatch L × Option PatchResult := revertTarget (fun _ => attempt) image rva

/-- What follows the loop of `apply`: a module that has patches in it is held from now on. -/
def relock (image : ImagePatch L) (lock : L) : ImagePatch L :=
  { image with lock := if image.patchesApplied ≠ 0 then some lock else image.lock }

/-- What follows the loop of `revert`: one that has none is let go. -/
def unlock (image : ImagePatch L) : ImagePatch L :=
  { image with lock := if image.patchesApplied = 0 then none else image.lock }

/-- `apply`, for one image. -/
def applyEach (image : ImagePatch L) (base : Nat) (lock : L) (targets : List (Nat × Attempt)) :
    ImagePatch L × Option (List (Nat × PatchApply)) :=
  match image.processEach (applyOnce base) targets [] with
  | (image', some results) => (image'.relock lock, some (results.map fun r => (r.1, ⟨r.2, 0⟩)))
  | (image', none) => (image', none)

/-- `revert`, for one image. -/
def revertEach (image : ImagePatch L) (targets : List (Nat × Attempt)) :
    ImagePatch L × Option (List (Nat × PatchResult)) :=
  match image.processEach revertOnce targets [] with
  | (image', some results) => (image'.unlock, some results)
  | (image', none) => (image', none)

/-- The loops of the manager, which ask for an attempt by the function, and those here.  By
    induction on the targets. -/
theorem processTargets_eq_processEach (attempts : Nat → Attempt)
    (body : (Nat → Attempt) → ImagePatch L → Nat → ImagePatch L × Option PatchResult)
    (hbody : ∀ image rva, body attempts image rva = body (fun _ => attempts rva) image rva) :
    ∀ (targets : List Nat) (image : ImagePatch L) (results : List (Nat × PatchResult)),
      image.processTargets (body attempts) targets results =
        image.processEach (fun image rva attempt => body (fun _ => attempt) image rva)
          (targets.map fun rva => (rva, attempts rva)) results := by
  intro targets
  induction targets with
  | nil => exact fun _ _ => rfl
  | cons rva targets ih =>
    intro image results
    rw [processTargets, List.map_cons, processEach, hbody]
    generalize body (fun _ => attempts rva) image rva = step
    obtain ⟨image', result⟩ := step
    cases result with
    | none => rfl
    | some result => exact ih image' _

/-- **With one attempt for each function** the calls are those of the manager. -/
theorem apply_eq_applyEach (image : ImagePatch L) (attempts : Nat → Attempt) (base : Nat) (lock : L)
    (targets : List Nat) :
    image.apply attempts base lock targets =
      image.applyEach base lock (targets.map fun rva => (rva, attempts rva)) := by
  unfold ImagePatch.apply applyEach
  rw [processTargets_eq_processEach attempts (applyTarget base) fun _ _ => rfl]
  rfl

/-- And so is `revert`. -/
theorem revert_eq_revertEach (image : ImagePatch L) (attempts : Nat → Attempt) (targets : List Nat) :
    image.revert attempts targets =
      image.revertEach (targets.map fun rva => (rva, attempts rva)) := by
  unfold ImagePatch.revert revertEach
  rw [processTargets_eq_processEach attempts revertTarget fun _ _ => rfl]
  rfl

end ImagePatch

/-- A call to the manager, with what the machine will make of each entry of its targets. -/
inductive PatchCall (L : Type)
  | apply (persistentId base : Nat) (lock : L) (targets : List (Nat × Attempt))
  | revert (persistentId : Nat) (targets : List (Nat × Attempt))

namespace PatchCall

variable {L : Type}

/-- The image the call is about. -/
def image : PatchCall L → Nat
  | apply persistentId _ _ _ => persistentId
  | revert persistentId _ => persistentId

def targets : PatchCall L → List (Nat × Attempt)
  | apply _ _ _ targets => targets
  | revert _ targets => targets

/-- The call, cut after `n` targets. -/
def take (n : Nat) : PatchCall L → PatchCall L
  | apply persistentId base lock targets => apply persistentId base lock (targets.take n)
  | revert persistentId targets => revert persistentId (targets.take n)

/-- Nothing but a `patch_exception` is thrown, and only by making or activating a patch; the loops
    catch these. -/
def Catchable : PatchCall L → Prop
  | apply _ _ _ targets => ∀ t ∈ targets, t.2.create ≠ .dies ∧ t.2.switch ≠ .dies
  | revert _ targets => ∀ t ∈ targets, t.2.switch = .returns

instance : DecidablePred (Catchable (L := L))
  | apply _ _ _ targets =>
      inferInstanceAs (Decidable (∀ t ∈ targets, t.2.create ≠ .dies ∧ t.2.switch ≠ .dies))
  | revert _ targets => inferInstanceAs (Decidable (∀ t ∈ targets, t.2.switch = .returns))

end PatchCall

namespace ImagePatchManager

variable {L : Type}

/-- A call of either kind, with the result of each target.  An exception that gets through leaves
    the image as the loop left it. -/
def call (m : ImagePatchManager L) :
    PatchCall L → ImagePatchManager L × Option (List (Nat × PatchResult))
  | .apply persistentId base lock targets =>
      let r := (m.patchedImages persistentId).applyEach base lock targets
      (⟨Function.update m.patchedImages persistentId r.1⟩,
        r.2.map fun results => results.map fun a => (a.1, a.2.result))
  | .revert persistentId targets =>
      let r := (m.patchedImages persistentId).revertEach targets
      (⟨Function.update m.patchedImages persistentId r.1⟩, r.2)

/-- The manager after a sequence of calls. -/
def after (calls : List (PatchCall L)) : ImagePatchManager L :=
  calls.foldl (fun m c => (m.call c).1) new

end ImagePatchManager

/-! ## One target -/

namespace ImagePatch

variable {L : Type}

/-- How many functions of the image are patched. -/
def activeCount (image : ImagePatch L) : Nat :=
  image.patched.entries.countP fun e => e.2.active

/-- The counter is right. -/
def Counted (image : ImagePatch L) : Prop := image.patchesApplied = image.activeCount

/-- The patches but for one function's, and that one.  By recursion on the entries; at the entry of
    the function the two sides meet. -/
theorem countP_kerase (rva : Nat) : ∀ entries : List (Sigma fun _ : Nat => FunctionPatch),
    entries.countP (fun e => e.2.active) =
      (entries.kerase rva).countP (fun e => e.2.active) +
        if ((entries.dlookup rva).elim false fun p => p.active) then 1 else 0
  | [] => rfl
  | e :: entries => by
    by_cases h : rva = e.1
    · rw [List.kerase_cons_eq h, List.countP_cons]
      subst h
      rw [show (e :: entries).dlookup e.1 = some e.2 from List.dlookup_cons_eq _ _ _]
      rfl
    · rw [List.kerase_cons_ne h, List.dlookup_cons_ne entries e h, List.countP_cons,
        List.countP_cons, countP_kerase rva entries]
      omega

/-- The answer of the manager, in the form the count has it. -/
theorem isActive_eq_elim (image : ImagePatch L) (rva : Nat) :
    image.isActive rva = (image.patched.entries.dlookup rva).elim false fun p => p.active := by
  unfold isActive AList.lookup
  cases image.patched.entries.dlookup rva <;> rfl

/-- Writing a patch takes the old one out of the count and the new one in.  It is written as a sum
    so that neither side subtracts. -/
theorem activeCount_insert (image : ImagePatch L) (rva : Nat) (patch : FunctionPatch)
    (lock : Option L) (n : Nat) :
    activeCount ⟨lock, image.patched.insert rva patch, n⟩ + (if image.isActive rva then 1 else 0) =
      image.activeCount + if patch.active then 1 else 0 := by
  unfold activeCount
  rw [AList.entries_insert, List.countP_cons, countP_kerase rva image.patched.entries,
    isActive_eq_elim]
  dsimp only
  omega

/-- One target done: its patch, and the counter with it, are switched to `on` if and only if the
    answer is `ok`.  The rest of the image may have changed in nothing that counts. -/
structure Done (on : Bool) (image : ImagePatch L) (rva : Nat)
    (step : ImagePatch L × Option PatchResult) : Prop where
  /-- the module is locked after the loop, not in it -/
  lock : step.1.lock = image.lock
  counted : image.Counted → step.1.Counted
  grows : on = true → image.patchesApplied ≤ step.1.patchesApplied
  shrinks : on = false → step.1.patchesApplied ≤ image.patchesApplied
  /-- the answer is `ok` when the function is patched now and was not, or the other way round -/
  answers : ∀ result, step.2 = some result →
    (result = .ok ↔ image.isActive rva ≠ step.1.isActive rva)

/-- Nothing was done, and the answer says so. -/
theorem Done.same {on : Bool} {image : ImagePatch L} {rva : Nat} {answer : Option PatchResult}
    (h : answer ≠ some .ok) : Done on image rva (image, answer) := by
  refine ⟨rfl, id, fun _ => le_rfl, fun _ => le_rfl, fun result hresult => ?_⟩
  subst hresult
  exact ⟨fun hok => absurd (congrArg some hok) h, fun hne => absurd rfl hne⟩

/-- Activation, of a patch that is the image's. -/
theorem activate_done (image : ImagePatch L) (rva : Nat) (patch : FunctionPatch)
    (hpatch : image.isActive rva = patch.active) (switch : Outcome) :
    Done true image rva (image.activate rva patch switch) := by
  unfold activate
  split
  · exact .same (by decide)
  · next hoff =>
    rw [Bool.not_eq_true] at hoff
    -- an exception leaves the patch inactive, and is answered as an error
    cases switch with
    | returns =>
      have hcount := activeCount_insert image rva { patch with active := true } image.lock
        (image.patchesApplied + 1)
      have hwas : image.isActive rva = false := hpatch.trans hoff
      simp only [hwas] at hcount
      refine ⟨rfl, fun h => ?_, fun _ => Nat.le_succ _, fun h => absurd h (by decide),
        fun result hresult => ?_⟩
      · exact (congrArg (· + 1) h).trans hcount.symm
      · obtain rfl : PatchResult.ok = result := Option.some.inj hresult
        simp [isActive_insert, hwas]
    | throws => exact .same (by decide)
    | dies => exact .same (by decide)

/-- An iteration of `apply`: the patch is made if there is none, and activated. -/
theorem applyOnce_done (base : Nat) (image : ImagePatch L) (rva : Nat) (attempt : Attempt) :
    Done true image rva (applyOnce base image rva attempt) := by
  unfold applyOnce applyTarget
  cases hlookup : image.patched.lookup rva with
  | some patch =>
    refine activate_done image rva patch ?_ _
    rw [isActive, hlookup]
  | none =>
    dsimp only
    cases attempt.create with
    | returns =>
      have hwas : image.isActive rva = false := by rw [isActive, hlookup]
      -- the new patch is made inactive: it is not counted, and shows nowhere
      have hnew := isActive_insert image rva rva ⟨base + rva, false⟩ image.lock image.patchesApplied
      have hcount := activeCount_insert image rva ⟨base + rva, false⟩ image.lock image.patchesApplied
      rw [if_pos rfl] at hnew
      simp only [hwas] at hcount
      obtain ⟨hlock, hcounted, hgrows, hshrinks, hanswers⟩ := activate_done
        ⟨image.lock, image.patched.insert rva ⟨base + rva, false⟩, image.patchesApplied⟩ rva
        ⟨base + rva, false⟩ hnew attempt.switch
      refine ⟨hlock, fun h => hcounted (Eq.trans h hcount.symm), hgrows, hshrinks, ?_⟩
      rw [hnew] at hanswers
      rw [hwas]
      exact hanswers
    | throws => exact .same (by decide)
    | dies => exact .same (by decide)

/-- An iteration of `revert`: the patch is switched off, and stays. -/
theorem revertOnce_done (image : ImagePatch L) (rva : Nat) (attempt : Attempt) :
    Done false image rva (revertOnce image rva attempt) := by
  unfold revertOnce revertTarget
  cases hlookup : image.patched.lookup rva with
  | none => exact .same (by decide)
  | some patch =>
    dsimp only
    split
    · next hon =>
      cases attempt.switch with
      | returns =>
        have hcount := activeCount_insert image rva { patch with active := false } image.lock
          (image.patchesApplied - 1)
        have hwas : image.isActive rva = true := by rw [isActive, hlookup]; exact hon
        simp only [hwas, if_true] at hcount
        refine ⟨rfl, fun h => ?_, fun h => absurd h (by decide), fun _ => Nat.sub_le _ _,
          fun result hresult => ?_⟩
        · unfold Counted at h ⊢
          dsimp only
          rw [h]
          exact (Nat.eq_sub_of_add_eq hcount).symm
        · obtain rfl : PatchResult.ok = result := Option.some.inj hresult
          simp [isActive_insert, hwas]
      | throws => exact .same (by decide)
      | dies => exact .same (by decide)
    · exact .same (by decide)

/-! ## The loop -/

section Loop

variable {body : ImagePatch L → Nat → Attempt → ImagePatch L × Option PatchResult}

/-- What each iteration keeps the loop keeps, whether it comes to its end or not.  By induction on
    the targets. -/
theorem processEach_invariant {P : ImagePatch L → Prop}
    (hbody : ∀ image rva attempt, P image → P (body image rva attempt).1) :
    ∀ (targets : List (Nat × Attempt)) (image : ImagePatch L) (results : List (Nat × PatchResult)),
      P image → P (image.processEach body targets results).1 := by
  intro targets
  induction targets with
  | nil => exact fun _ _ h => h
  | cons target targets ih =>
    intro image results h
    have hnext := hbody image target.1 target.2 h
    rw [processEach]
    generalize body image target.1 target.2 = step at hnext
    obtain ⟨image', result⟩ := step
    cases result with
    | none => exact hnext
    | some result => exact ih image' _ hnext

/-- A loop whose iterations answer comes to its end. -/
theorem processEach_isSome {Q : Attempt → Prop}
    (hbody : ∀ image rva attempt, Q attempt → (body image rva attempt).2.isSome) :
    ∀ (targets : List (Nat × Attempt)) (image : ImagePatch L) (results : List (Nat × PatchResult)),
      (∀ t ∈ targets, Q t.2) → (image.processEach body targets results).2.isSome := by
  intro targets
  induction targets with
  | nil => exact fun _ _ _ => rfl
  | cons target targets ih =>
    intro image results hall
    have hsome := hbody image target.1 target.2 (hall target List.mem_cons_self)
    rw [processEach]
    generalize body image target.1 target.2 = step at hsome
    obtain ⟨image', result⟩ := step
    cases result with
    | none => exact absurd hsome Bool.false_ne_true
    | some result => exact ih image' _ fun t ht => hall t (List.mem_cons_of_mem _ ht)

/-- A loop that ended answered for each target, in order.  By induction on the targets. -/
theorem processEach_results : ∀ (targets : List (Nat × Attempt)) (image : ImagePatch L)
    (results all : List (Nat × PatchResult)),
    (image.processEach body targets results).2 = some all →
      ∃ new, all = results ++ new ∧ new.map Prod.fst = targets.map Prod.fst := by
  intro targets
  induction targets with
  | nil =>
    intro image results all h
    exact ⟨[], by rw [List.append_nil, ← Option.some.inj h], rfl⟩
  | cons target targets ih =>
    intro image results all h
    rw [processEach] at h
    generalize body image target.1 target.2 = step at h
    obtain ⟨image', result⟩ := step
    cases result with
    | none => exact absurd h (by simp)
    | some result =>
      obtain ⟨new, hall, hnew⟩ := ih image' _ all h
      refine ⟨(target.1, result) :: new, ?_, ?_⟩
      · rw [hall, List.append_assoc, List.singleton_append]
      · rw [List.map_cons, List.map_cons, hnew]

/-- **The `n`-th answer** is the one that the loop's body gave after the first `n` targets.  By
    induction on the targets, with the number going down by one: the state after `n` targets is
    found by cutting the list there. -/
theorem processEach_entry : ∀ (targets : List (Nat × Attempt)) (image : ImagePatch L)
    (results all : List (Nat × PatchResult)) (n rva : Nat) (attempt : Attempt),
    (image.processEach body targets results).2 = some all → targets[n]? = some (rva, attempt) →
      ∃ imageₙ mid result, image.processEach body (targets.take n) results = (imageₙ, some mid) ∧
        (body imageₙ rva attempt).2 = some result ∧
        image.processEach body (targets.take (n + 1)) results =
          ((body imageₙ rva attempt).1, some (mid ++ [(rva, result)])) ∧
        all[results.length + n]? = some (rva, result) := by
  intro targets
  induction targets with
  | nil => exact fun _ _ _ _ _ _ _ hn => absurd hn (by simp)
  | cons target targets ih =>
    intro image results all n rva attempt h hn
    obtain ⟨rva₀, attempt₀⟩ := target
    rw [processEach] at h
    cases hstep : body image rva₀ attempt₀ with
    | mk image₁ answer =>
    rw [hstep] at h
    cases answer with
    | none => exact absurd h (by simp)
    | some result =>
    cases n with
    | zero =>
      -- this target
      obtain ⟨rfl, rfl⟩ : rva₀ = rva ∧ attempt₀ = attempt := by simpa using hn
      obtain ⟨new, rfl, -⟩ := processEach_results targets image₁ _ all h
      refine ⟨image, results, result, rfl, by rw [hstep], ?_, ?_⟩
      · rw [List.take_succ_cons, List.take_zero, processEach, hstep]
        rfl
      · rw [List.append_assoc, Nat.add_zero, List.getElem?_append_right le_rfl, Nat.sub_self]
        rfl
    | succ n =>
      -- a later one: `n` more targets from the state after this one
      obtain ⟨imageₙ, mid, resultₙ, htake, hanswer, hnext, hentry⟩ :=
        ih image₁ _ all n rva attempt h hn
      refine ⟨imageₙ, mid, resultₙ, ?_, hanswer, ?_, ?_⟩
      · rw [List.take_succ_cons, processEach, hstep]
        exact htake
      · rw [List.take_succ_cons, processEach, hstep]
        exact hnext
      · rw [List.length_append, List.length_singleton] at hentry
        rw [show results.length + (n + 1) = results.length + 1 + n by omega]
        exact hentry

end Loop

/-- An iteration of `apply` answers if nothing uncaught is thrown. -/
theorem applyOnce_isSome (base : Nat) (image : ImagePatch L) (rva : Nat) (attempt : Attempt)
    (h : attempt.create ≠ .dies ∧ attempt.switch ≠ .dies) :
    (applyOnce base image rva attempt).2.isSome := by
  obtain ⟨create, switch⟩ := attempt
  have hactivate : ∀ (image : ImagePatch L) (patch : FunctionPatch),
      (image.activate rva patch switch).2.isSome := by
    intro image patch
    unfold activate
    split
    · rfl
    · cases switch with
      | returns => rfl
      | throws => rfl
      | dies => exact absurd rfl h.2
  unfold applyOnce applyTarget
  cases image.patched.lookup rva with
  | some patch => exact hactivate image patch
  | none =>
    cases create with
    | returns => exact hactivate _ _
    | throws => rfl
    | dies => exact absurd rfl h.1

/-- So does one of `revert`, which catches nothing. -/
theorem revertOnce_isSome (image : ImagePatch L) (rva : Nat) (attempt : Attempt)
    (h : attempt.switch = .returns) : (revertOnce image rva attempt).2.isSome := by
  unfold revertOnce revertTarget
  cases image.patched.lookup rva with
  | none => rfl
  | some patch =>
    dsimp only
    split
    · rw [h]
      rfl
    · rfl

end ImagePatch

/-! ## One call -/

namespace PatchCall

variable {L : Type}

/-- The body of the call's loop, ... -/
def body : PatchCall L → ImagePatch L → Nat → Attempt → ImagePatch L × Option PatchResult
  | apply _ base _ _ => ImagePatch.applyOnce base
  | revert _ _ => ImagePatch.revertOnce

/-- ... and what follows the loop. -/
def finish : PatchCall L → ImagePatch L → ImagePatch L
  | apply _ _ lock _ => fun image => image.relock lock
  | revert _ _ => fun image => image.unlock

/-- A call that is cut short is about the same image, and does the same. -/
@[simp] theorem take_image (n : Nat) (c : PatchCall L) : (c.take n).image = c.image := by
  cases c <;> rfl

@[simp] theorem take_body (n : Nat) (c : PatchCall L) : (c.take n).body = c.body := by
  cases c <;> rfl

@[simp] theorem take_targets (n : Nat) (c : PatchCall L) :
    (c.take n).targets = c.targets.take n := by
  cases c <;> rfl

/-- What is after the loop touches the lock only. -/
theorem finish_patched (c : PatchCall L) (image : ImagePatch L) :
    (c.finish image).patched = image.patched := by
  cases c <;> rfl

/-- The loop of such a call comes to its end. -/
theorem isSome_of_catchable {c : PatchCall L} (hc : c.Catchable) (image : ImagePatch L) :
    (image.processEach c.body c.targets []).2.isSome := by
  cases c with
  | apply persistentId base lock targets =>
    exact ImagePatch.processEach_isSome (ImagePatch.applyOnce_isSome base) targets image [] hc
  | revert persistentId targets =>
    exact ImagePatch.processEach_isSome ImagePatch.revertOnce_isSome targets image [] hc

end PatchCall

namespace ImagePatch

variable {L : Type}

/-- INVARIANT: the counter is right, and the module is held while it has patches in it.  It holds
    between calls; within one the lock lags behind. -/
structure Kept (image : ImagePatch L) : Prop where
  counted : image.Counted
  locked : image.lock.isSome ↔ 0 < image.patchesApplied

/-- Only the patches matter to the answer. -/
theorem isActive_congr {image image' : ImagePatch L} (h : image.patched = image'.patched) (rva : Nat) :
    image.isActive rva = image'.isActive rva := by
  unfold isActive
  rw [h]

/-- Patches were added only: a lock that is not taken was not held. -/
theorem relock_kept {image image' : ImagePatch L} (h : image.Kept) (hcounted : image'.Counted)
    (hlock : image'.lock = image.lock) (hgrows : image.patchesApplied ≤ image'.patchesApplied)
    (lock : L) : (image'.relock lock).Kept := by
  refine ⟨hcounted, ?_⟩
  unfold relock
  by_cases hzero : image'.patchesApplied = 0
  · -- nothing is patched, as before: the lock was not held
    have hlocked := h.locked
    simp only [hzero, ne_eq, not_true_eq_false, if_false, hlock, hlocked]
    omega
  · -- something is: it is held now
    simp only [ne_eq, hzero, not_false_eq_true, if_true, Option.isSome_some, true_iff]
    omega

/-- Patches were taken off only: what is left was there before, and so was its lock. -/
theorem unlock_kept {image image' : ImagePatch L} (h : image.Kept) (hcounted : image'.Counted)
    (hlock : image'.lock = image.lock) (hshrinks : image'.patchesApplied ≤ image.patchesApplied) :
    image'.unlock.Kept := by
  refine ⟨hcounted, ?_⟩
  unfold unlock
  by_cases hzero : image'.patchesApplied = 0
  · simp [hzero]
  · have hlocked := h.locked
    simp only [hzero, if_false, hlock, hlocked]
    omega

/-- **The loop and what follows it**: whichever way the counter went, the lock follows. -/
theorem finish_kept {image : ImagePatch L} (h : image.Kept) (c : PatchCall L) :
    (c.finish (image.processEach c.body c.targets []).1).Kept := by
  cases c with
  | apply persistentId base lock targets =>
    -- the loop adds patches only
    obtain ⟨hcounted, hlock, hgrows⟩ := processEach_invariant
      (P := fun i => i.Counted ∧ i.lock = image.lock ∧ image.patchesApplied ≤ i.patchesApplied)
      (fun i rva attempt hi =>
        have hdone := applyOnce_done base i rva attempt
        ⟨hdone.counted hi.1, hdone.lock.trans hi.2.1, le_trans hi.2.2 (hdone.grows rfl)⟩)
      targets image [] ⟨h.counted, rfl, le_rfl⟩
    exact relock_kept h hcounted hlock hgrows lock
  | revert persistentId targets =>
    -- the loop takes patches off only
    obtain ⟨hcounted, hlock, hshrinks⟩ := processEach_invariant
      (P := fun i => i.Counted ∧ i.lock = image.lock ∧ i.patchesApplied ≤ image.patchesApplied)
      (fun i rva attempt hi =>
        have hdone := revertOnce_done i rva attempt
        ⟨hdone.counted hi.1, hdone.lock.trans hi.2.1, le_trans (hdone.shrinks rfl) hi.2.2⟩)
      targets image [] ⟨h.counted, rfl, le_rfl⟩
    exact unlock_kept h hcounted hlock hshrinks

end ImagePatch

namespace ImagePatchManager

variable {L : Type}

/-- A call whose loop came to its end, by its loop. -/
theorem call_eq_processEach (m : ImagePatchManager L) (c : PatchCall L)
    (image : ImagePatch L) (results : List (Nat × PatchResult))
    (h : (m.patchedImages c.image).processEach c.body c.targets [] = (image, some results)) :
    m.call c = (⟨Function.update m.patchedImages c.image (c.finish image)⟩, some results) := by
  cases c with
  | apply persistentId base lock targets =>
    dsimp only [PatchCall.body, PatchCall.image, PatchCall.targets] at h
    simp only [call, ImagePatch.applyEach, h, PatchCall.image, PatchCall.finish, Option.map_some,
      List.map_map]
    exact congrArg (fun all => (_, some all)) (List.map_id results)
  | revert persistentId targets =>
    dsimp only [PatchCall.body, PatchCall.image, PatchCall.targets] at h
    simp [call, ImagePatch.revertEach, h, PatchCall.image, PatchCall.finish]

/-- A catchable call returns, and its image is what the loop made of it. -/
theorem call_returns (m : ImagePatchManager L) {c : PatchCall L} (hc : c.Catchable) :
    ∃ image results,
      (m.patchedImages c.image).processEach c.body c.targets [] = (image, some results) ∧
        m.call c = (⟨Function.update m.patchedImages c.image (c.finish image)⟩, some results) := by
  have hsome := PatchCall.isSome_of_catchable hc (m.patchedImages c.image)
  cases hloop : (m.patchedImages c.image).processEach c.body c.targets [] with
  | mk image answer =>
  rw [hloop] at hsome
  obtain ⟨results, rfl⟩ := Option.isSome_iff_exists.mp hsome
  exact ⟨image, results, rfl, call_eq_processEach m c image results hloop⟩

/-- **One call** keeps the invariant: of its image by `finish_kept`, of the others since it does not
    touch them. -/
theorem call_kept (m : ImagePatchManager L) {c : PatchCall L} (hc : c.Catchable)
    (h : ∀ id, (m.patchedImages id).Kept) : ∀ id, ((m.call c).1.patchedImages id).Kept := by
  obtain ⟨image, results, hloop, hcall⟩ := call_returns m hc
  intro id
  rw [hcall]
  dsimp only
  by_cases hid : id = c.image
  · subst hid
    rw [Function.update_self]
    have hkept := ImagePatch.finish_kept (h c.image) c
    rw [hloop] at hkept
    exact hkept
  · rw [Function.update_of_ne hid]
    exact h id

/-- **Any calls**, by induction on them. -/
theorem after_kept (calls : List (PatchCall L)) (hcalls : ∀ c ∈ calls, c.Catchable) :
    ∀ id, ((after calls).patchedImages id).Kept := by
  refine List.foldlRecOn calls _
    (motive := fun m : ImagePatchManager L => ∀ id, (m.patchedImages id).Kept) ?_ ?_
  · exact fun _ => ⟨rfl, by simp [new, ImagePatch.new]⟩
  · exact fun m h c hc => call_kept m (hcalls c hc) h

/-- The answer of a call is that of its loop. -/
theorem call_snd (m : ImagePatchManager L) (c : PatchCall L) :
    (m.call c).2 = ((m.patchedImages c.image).processEach c.body c.targets []).2 := by
  cases hloop : (m.patchedImages c.image).processEach c.body c.targets [] with
  | mk image answer =>
  cases answer with
  | some results => rw [call_eq_processEach m c image results hloop]
  | none =>
    cases c with
    | apply persistentId base lock targets =>
      dsimp only [PatchCall.body, PatchCall.image, PatchCall.targets] at hloop
      simp [call, ImagePatch.applyEach, hloop]
    | revert persistentId targets =>
      dsimp only [PatchCall.body, PatchCall.image, PatchCall.targets] at hloop
      simp [call, ImagePatch.revertEach, hloop]

/-- The patches of the call's image after `n` of its targets, when all of them were answered. -/
theorem call_take_patched (m : ImagePatchManager L) (c : PatchCall L) (n : Nat) (image : ImagePatch L)
    (results : List (Nat × PatchResult))
    (h : (m.patchedImages c.image).processEach c.body (c.targets.take n) [] = (image, some results)) :
    ((m.call (c.take n)).1.patchedImages c.image).patched = image.patched := by
  rw [call_eq_processEach m (c.take n) image results
    (by rwa [PatchCall.take_image, PatchCall.take_body, PatchCall.take_targets]),
    PatchCall.take_image]
  dsimp only
  rw [Function.update_self, PatchCall.finish_patched]

/-- **The answers of a call**: one for each target, in order, each given by the loop's body in the
    state that the targets before it left. -/
theorem call_answers (m : ImagePatchManager L) (c : PatchCall L) (results : List (Nat × PatchResult))
    (h : ((m.patchedImages c.image).processEach c.body c.targets []).2 = some results) :
    results.map Prod.fst = c.targets.map Prod.fst ∧
      ∀ n rva result, results[n]? = some (rva, result) → ∃ attempt image mid,
        (m.patchedImages c.image).processEach c.body (c.targets.take n) [] = (image, some mid) ∧
          (rva, attempt) ∈ c.targets ∧ (c.body image rva attempt).2 = some result ∧
          ((m.call (c.take (n + 1))).1.patchedImages c.image).patched =
            (c.body image rva attempt).1.patched := by
  obtain ⟨new, rfl, hnew⟩ := ImagePatch.processEach_results _ _ [] results h
  refine ⟨hnew, fun n rva result hn => ?_⟩
  have hrva : (c.targets.map Prod.fst)[n]? = some rva := by
    rw [← hnew, List.getElem?_map]
    exact congrArg (Option.map Prod.fst) hn
  rw [List.getElem?_map] at hrva
  obtain ⟨⟨rva', attempt⟩, htarget, rfl⟩ := Option.map_eq_some_iff.mp hrva
  obtain ⟨image, mid, answer, htake, hanswer, hnext, hentry⟩ :=
    ImagePatch.processEach_entry _ _ [] _ n rva' attempt h htarget
  have heq : some (rva', answer) = some (rva', result) := by
    rw [← hentry, ← hn, List.length_nil, Nat.zero_add]
  obtain rfl : answer = result := by simpa using heq
  exact ⟨attempt, image, mid, htake, List.mem_of_getElem? htarget, hanswer,
    call_take_patched m c (n + 1) _ _ hnext⟩

/-- **Bookkeeping.**  After any sequence of calls, over any images and lists of targets, of which
    the making and the activation of patches may fail: each image counts its active patches and
    holds its module while there are any; and any further call returns one entry for each target,
    in order, which is `ok` exactly when that target's patch changed its state in that step. -/
theorem patch_bookkeeping (calls : List (PatchCall L)) (hcalls : ∀ c ∈ calls, c.Catchable) :
    (∀ id, ((after calls).patchedImages id).patchesApplied =
          ((after calls).patchedImages id).activeCount ∧
        (((after calls).patchedImages id).lock.isSome ↔
          0 < ((after calls).patchedImages id).activeCount)) ∧
      ∀ c : PatchCall L, c.Catchable → ∃ results, ((after calls).call c).2 = some results ∧
        results.map Prod.fst = c.targets.map Prod.fst ∧
        ∀ n rva result, results[n]? = some (rva, result) →
          (result = .ok ↔
            ((after calls).call (c.take n)).1.isActive (c.image, rva) ≠
              ((after calls).call (c.take (n + 1))).1.isActive (c.image, rva)) := by
  refine ⟨fun id => ?_, fun c hc => ?_⟩
  · -- the invariant, with the count in place of the counter
    have hkept := after_kept calls hcalls id
    refine ⟨hkept.counted, ?_⟩
    rw [hkept.locked, hkept.counted]
  · -- each answer is that of an iteration, between the states after `n` and after `n + 1` targets
    obtain ⟨image', results, hloop, hcall⟩ := call_returns (after calls) hc
    obtain ⟨horder, hanswers⟩ := call_answers (after calls) c results (by rw [hloop])
    refine ⟨results, by rw [hcall], horder, fun n rva result hn => ?_⟩
    obtain ⟨attempt, image, mid, htake, -, hanswer, hafter⟩ := hanswers n rva result hn
    have hbefore := call_take_patched (after calls) c n image mid htake
    rw [isActive, isActive, ImagePatch.isActive_congr hbefore, ImagePatch.isActive_congr hafter]
    cases c with
    | apply persistentId base lock targets =>
      exact (ImagePatch.applyOnce_done base image rva attempt).answers result hanswer
    | revert persistentId targets =>
      exact (ImagePatch.revertOnce_done image rva attempt).answers result hanswer

/-- A function named three times, first in vain, and another that cannot be patched. -/
def retried : PatchCall Unit :=
  .apply 1 1000 () [(5, ⟨.returns, .throws⟩), (5, ⟨.returns, .returns⟩), (7, ⟨.throws, .returns⟩),
    (5, ⟨.returns, .returns⟩)]

theorem patch_bookkeeping_retried :
    retried.Catchable ∧
      ((after [retried]).patchedImages 1).patchesApplied =
        ((after [retried]).patchedImages 1).activeCount ∧
      (((after [retried]).patchedImages 1).lock.isSome ↔
        0 < ((after [retried]).patchedImages 1).activeCount) :=
  ⟨by decide, (patch_bookkeeping [retried] (by decide)).1 1⟩

example : (new.call retried).2 = some [(5, .error), (5, .ok), (7, .error), (5, .unchanged)] := by
  decide

end ImagePatchManager

/-! ## Where the patches are -/

namespace ImagePatch

variable {L : Type}

/-- What an iteration of `apply` does to the patches: the others are left alone; an answer `ok`
    comes of an inactive patch, found or made now; any other answer comes with the patch as it was,
    or with one made now. -/
structure Patches (base : Nat) (image : ImagePatch L) (rva : Nat) (switch : Outcome)
    (step : ImagePatch L × Option PatchResult) : Prop where
  frame : ∀ q, q ≠ rva → step.1.patched.lookup q = image.patched.lookup q
  cases : step.2 ≠ some .ok ∧ (step.1.patched.lookup rva = image.patched.lookup rva ∨
        step.1.patched.lookup rva = some ⟨base + rva, false⟩) ∨
      switch = .returns ∧ ∃ patch : FunctionPatch,
        (image.patched.lookup rva = some patch ∨ patch.target = base + rva) ∧
          patch.active = false ∧ step.1.patched.lookup rva = some ⟨patch.target, true⟩

/-- Nothing was done. -/
theorem Patches.same {base : Nat} {image : ImagePatch L} {rva : Nat} {switch : Outcome}
    {answer : Option PatchResult} (h : answer ≠ some .ok) :
    Patches base image rva switch (image, answer) :=
  ⟨fun _ _ => rfl, .inl ⟨h, .inl rfl⟩⟩

/-- Activation keeps the address the patch was made for. -/
theorem activate_patches (base : Nat) (image : ImagePatch L) (rva : Nat) (patch : FunctionPatch)
    (hpatch : image.patched.lookup rva = some patch) (switch : Outcome) :
    Patches base image rva switch (image.activate rva patch switch) := by
  unfold activate
  split
  · exact .same (by decide)
  · next hoff =>
    rw [Bool.not_eq_true] at hoff
    cases switch with
    | returns =>
      exact ⟨fun q hq => AList.lookup_insert_ne hq,
        .inr ⟨rfl, patch, .inl hpatch, hoff, AList.lookup_insert _⟩⟩
    | throws => exact .same (by decide)
    | dies => exact .same (by decide)

/-- An iteration: where no patch is found one is made, for the base of this call. -/
theorem applyOnce_patches (base : Nat) (image : ImagePatch L) (rva : Nat) (attempt : Attempt) :
    Patches base image rva attempt.switch (applyOnce base image rva attempt) := by
  unfold applyOnce applyTarget
  cases hlookup : image.patched.lookup rva with
  | some patch => exact activate_patches base image rva patch hlookup attempt.switch
  | none =>
    dsimp only
    cases attempt.create with
    | throws => exact .same (by decide)
    | dies => exact .same (by decide)
    | returns =>
      have hmade : (image.patched.insert rva ⟨base + rva, false⟩).lookup rva =
          some (⟨base + rva, false⟩ : FunctionPatch) := AList.lookup_insert _
      obtain ⟨hframe, hcases⟩ := activate_patches base
        ⟨image.lock, image.patched.insert rva ⟨base + rva, false⟩, image.patchesApplied⟩ rva
        ⟨base + rva, false⟩ hmade attempt.switch
      refine ⟨fun q hq => (hframe q hq).trans (AList.lookup_insert_ne hq), ?_⟩
      rcases hcases with ⟨hanswer, hsame | hnew⟩ | ⟨hswitch, patch, hfound | htarget, hoff, hon⟩
      · exact .inl ⟨hanswer, .inr (hsame.trans hmade)⟩
      · exact .inl ⟨hanswer, .inr hnew⟩
      · obtain rfl := Option.some.inj (hmade.symm.trans hfound)
        exact .inr ⟨hswitch, _, .inr rfl, rfl, hon⟩
      · exact .inr ⟨hswitch, patch, .inr htarget, hoff, hon⟩

/-- An inactive patch, found or made by this loop: what an iteration may activate. -/
def Cached (base : Nat) (image image' : ImagePatch L) : Prop :=
  ∀ rva patch, image'.patched.lookup rva = some patch → patch.active = false →
    image.patched.lookup rva = some patch ∨ patch.target = base + rva

/-- An iteration makes no other inactive patches. -/
theorem applyOnce_cached (base : Nat) (image image' : ImagePatch L) (h : Cached base image image')
    (rva : Nat) (attempt : Attempt) :
    Cached base image (applyOnce base image' rva attempt).1 := by
  obtain ⟨hframe, hcases⟩ := applyOnce_patches base image' rva attempt
  intro q patch hlookup hoff
  by_cases hq : q = rva
  · subst hq
    rcases hcases with ⟨-, hsame | hnew⟩ | ⟨-, patch', -, -, hon⟩
    · exact h q patch (hsame.symm.trans hlookup) hoff
    · obtain rfl := Option.some.inj (hnew.symm.trans hlookup)
      exact .inr rfl
    · obtain rfl := Option.some.inj (hon.symm.trans hlookup)
      exact absurd hoff Bool.true_eq_false.mp
  · exact h q patch ((hframe q hq).symm.trans hlookup) hoff

/-- An inactive patch that is there: switched if it can be, ... -/
theorem applyOnce_switches (base : Nat) {image : ImagePatch L} {rva : Nat} {patch : FunctionPatch}
    (hlookup : image.patched.lookup rva = some patch) (hoff : patch.active = false)
    {attempt : Attempt} (hswitch : attempt.switch = .returns) :
    applyOnce base image rva attempt =
      (⟨image.lock, image.patched.insert rva ⟨patch.target, true⟩, image.patchesApplied + 1⟩,
        some .ok) := by
  simp [applyOnce, applyTarget, hlookup, activate, hoff, hswitch]

/-- ... and left if it cannot. -/
theorem applyOnce_leaves (base : Nat) {image : ImagePatch L} {rva : Nat} {patch : FunctionPatch}
    (hlookup : image.patched.lookup rva = some patch) (hoff : patch.active = false)
    {attempt : Attempt} (hswitch : attempt.switch ≠ .returns) :
    (applyOnce base image rva attempt).1 = image := by
  cases hcase : attempt.switch with
  | returns => exact absurd hcase hswitch
  | throws => simp [applyOnce, applyTarget, hlookup, activate, hoff, hcase]
  | dies => simp [applyOnce, applyTarget, hlookup, activate, hoff, hcase]

/-- **A cached patch is used as it is**: of an inactive patch whose activation will succeed at one
    of the targets, some entry is `ok`, and its patch is the cached one.  By induction on the
    targets, up to the first that hits it. -/
theorem processEach_reuses (base : Nat) (rva : Nat) (patch : FunctionPatch)
    (hoff : patch.active = false) : ∀ (targets : List (Nat × Attempt)) (image : ImagePatch L)
    (results all : List (Nat × PatchResult)),
    (image.processEach (applyOnce base) targets results).2 = some all →
      image.patched.lookup rva = some patch → (∃ t ∈ targets, t.1 = rva ∧ t.2.switch = .returns) →
        ∃ n image' mid, all[results.length + n]? = some (rva, .ok) ∧
          image.processEach (applyOnce base) (targets.take (n + 1)) results = (image', some mid) ∧
          image'.patched.lookup rva = some ⟨patch.target, true⟩ := by
  intro targets
  induction targets with
  | nil => exact fun _ _ _ _ _ ⟨_, ht, _⟩ => absurd ht List.not_mem_nil
  | cons target targets ih =>
    intro image results all h hlookup hmem
    obtain ⟨rva₀, attempt₀⟩ := target
    rw [processEach] at h
    cases hstep : applyOnce base image rva₀ attempt₀ with
    | mk image₁ answer =>
    rw [hstep] at h
    cases answer with
    | none => exact absurd h (by simp)
    | some result =>
    by_cases hhit : rva₀ = rva ∧ attempt₀.switch = .returns
    · -- this target switches it
      obtain ⟨rfl, hswitch⟩ := hhit
      obtain ⟨rfl, hresult⟩ := Prod.mk.inj
        (hstep.symm.trans (applyOnce_switches base hlookup hoff hswitch))
      obtain rfl : result = .ok := Option.some.inj hresult
      obtain ⟨new, rfl, -⟩ := processEach_results targets _ _ all h
      refine ⟨0, ⟨image.lock, image.patched.insert rva₀ ⟨patch.target, true⟩,
        image.patchesApplied + 1⟩, results ++ [(rva₀, .ok)], ?_, ?_, AList.lookup_insert _⟩
      · rw [List.append_assoc, Nat.add_zero, List.getElem?_append_right le_rfl, Nat.sub_self]
        rfl
      · rw [List.take_succ_cons, List.take_zero, processEach, hstep]
        rfl
    · -- whatever this iteration does, it does not touch the patch
      have hkept : image₁.patched.lookup rva = some patch := by
        by_cases hrva : rva = rva₀
        · subst hrva
          have hleft := applyOnce_leaves base hlookup hoff fun heq => hhit ⟨rfl, heq⟩
          rw [hstep] at hleft
          exact (congrArg (fun i => i.patched.lookup rva) hleft).trans hlookup
        · have hframe := (applyOnce_patches base image rva₀ attempt₀).frame rva hrva
          rw [hstep] at hframe
          exact hframe.trans hlookup
      have hmem' : ∃ t ∈ targets, t.1 = rva ∧ t.2.switch = .returns := by
        obtain ⟨t, ht, heq⟩ := hmem
        rcases List.mem_cons.mp ht with rfl | ht
        · exact absurd heq hhit
        · exact ⟨t, ht, heq⟩
      obtain ⟨n, image', mid, hentry, htake, hon⟩ := ih image₁ _ all h hkept hmem'
      refine ⟨n + 1, image', mid, ?_, ?_, hon⟩
      · rw [List.length_append, List.length_singleton] at hentry
        rw [show results.length + (n + 1) = results.length + 1 + n by omega]
        exact hentry
      · rw [List.take_succ_cons, processEach, hstep]
        exact htake

end ImagePatch

namespace PatchCall

variable {L : Type}

/-- Each function that the call reports `ok` for got its patch at the base that was passed. -/
def HitsBase (m : ImagePatchManager L) : PatchCall L → Prop
  | apply persistentId base lock targets =>
      ∀ results n rva, (m.call (apply persistentId base lock targets)).2 = some results →
        results[n]? = some (rva, .ok) →
        ∃ patch, ((m.call ((apply persistentId base lock targets).take (n + 1))).1.patchedImages
            persistentId).patched.lookup rva = some patch ∧
          patch.active = true ∧ patch.target = base + rva
  | revert _ _ => True

/-- No target that the call can activate has an inactive patch made for another base. -/
def AtBase (m : ImagePatchManager L) : PatchCall L → Prop
  | apply persistentId base _ targets =>
      ∀ t ∈ targets, t.2.switch = .returns →
        ∀ patch, (m.patchedImages persistentId).patched.lookup t.1 = some patch →
          patch.active = false → patch.target = base + t.1
  | revert _ _ => True

/-- **Enough**: a patch that is activated was made by this very loop, or was there for the base. -/
theorem hitsBase_of_atBase (m : ImagePatchManager L) (c : PatchCall L) (h : c.AtBase m) :
    c.HitsBase m := by
  cases c with
  | revert persistentId targets => trivial
  | apply persistentId base lock targets =>
    intro results n rva hresults hn
    rw [ImagePatchManager.call_snd] at hresults
    obtain ⟨-, hanswers⟩ := ImagePatchManager.call_answers m _ results hresults
    obtain ⟨attempt, image, mid, htake, hmem, hanswer, hafter⟩ := hanswers n rva .ok hn
    -- what this loop found before it came here, it still has, or it has made it
    have hcached : ImagePatch.Cached base (m.patchedImages persistentId) image := by
      have hloop := ImagePatch.processEach_invariant
        (P := ImagePatch.Cached base (m.patchedImages persistentId))
        (fun i rva attempt hi => ImagePatch.applyOnce_cached base _ i hi rva attempt)
        (targets.take n) (m.patchedImages persistentId) [] fun _ _ hlookup _ => .inl hlookup
      rw [show ((m.patchedImages persistentId).processEach (ImagePatch.applyOnce base)
        (targets.take n) []).1 = image from congrArg Prod.fst htake] at hloop
      exact hloop
    obtain ⟨-, ⟨hno, -⟩ | ⟨hswitch, patch, hpatch, hoff, hon⟩⟩ :=
      ImagePatch.applyOnce_patches base image rva attempt
    · exact absurd hanswer hno
    · refine ⟨⟨patch.target, true⟩, ?_, rfl, ?_⟩
      · exact (congrArg (AList.lookup rva) hafter).trans hon
      · rcases hpatch with hfound | hmade
        · rcases hcached rva patch hfound hoff with hold | hmade
          · exact h (rva, attempt) hmem hswitch patch hold hoff
          · exact hmade
        · exact hmade

/-- **And necessary**: a stale patch that can be activated is, and is then reported `ok` at another
    address. -/
theorem atBase_of_hitsBase (m : ImagePatchManager L) (c : PatchCall L) (hc : c.Catchable)
    (h : c.HitsBase m) : c.AtBase m := by
  cases c with
  | revert persistentId targets => trivial
  | apply persistentId base lock targets =>
    intro t ht hswitch patch hlookup hoff
    obtain ⟨image, results, hloop, hcall⟩ := ImagePatchManager.call_returns m hc
    obtain ⟨n, image', mid, hentry, htake, hon⟩ := ImagePatch.processEach_reuses base t.1 patch hoff
      targets (m.patchedImages persistentId) [] results (congrArg Prod.snd hloop) hlookup
      ⟨t, ht, rfl, hswitch⟩
    rw [List.length_nil, Nat.zero_add] at hentry
    obtain ⟨patch', hlookup', -, htarget⟩ := h results n t.1 (by rw [hcall]) hentry
    have hpatched := ImagePatchManager.call_take_patched m (apply persistentId base lock targets)
      (n + 1) image' mid htake
    have heq : some patch' = some ⟨patch.target, true⟩ :=
      hlookup'.symm.trans ((congrArg (AList.lookup t.1) hpatched).trans hon)
    obtain rfl := Option.some.inj heq
    exact htarget

end PatchCall

namespace ImagePatchManager

variable {L : Type}

/-- **Addresses.**  In every sequence of calls whose `apply`s find no stale patch, each function
    that is reported `ok` is patched at the base passed to that call; and where nothing but a
    `patch_exception` is thrown, this holds of no other sequence. -/
theorem patches_at_base (calls : List (PatchCall L)) :
    ((∀ before c rest, calls = before ++ c :: rest → c.AtBase (after before)) →
        ∀ before c rest, calls = before ++ c :: rest → c.HitsBase (after before)) ∧
      ((∀ c ∈ calls, c.Catchable) →
        (∀ before c rest, calls = before ++ c :: rest → c.HitsBase (after before)) →
          ∀ before c rest, calls = before ++ c :: rest → c.AtBase (after before)) := by
  refine ⟨fun h before c rest heq => ?_, fun hcalls h before c rest heq => ?_⟩
  · exact c.hitsBase_of_atBase (after before) (h before c rest heq)
  · have hc : c.Catchable := hcalls c (heq ▸ List.mem_append_right _ List.mem_cons_self)
    exact c.atBase_of_hitsBase (after before) hc (h before c rest heq)

/-- A function patched and reverted, and its module loaded elsewhere. -/
def reloaded : List (PatchCall Unit) :=
  [.apply 1 1000 () [(5, ⟨.returns, .returns⟩)], .revert 1 [(5, ⟨.returns, .returns⟩)]]

/-- Patched once more where it was. -/
theorem patches_at_base_again : PatchCall.HitsBase (after reloaded)
    (.apply 1 1000 () [(5, ⟨.returns, .returns⟩)]) := by
  refine (patches_at_base (reloaded ++ [.apply 1 1000 () [(5, ⟨.returns, .returns⟩)]])).1
    (fun before c rest heq => ?_) reloaded _ [] rfl
  obtain _ | ⟨b₀, _ | ⟨b₁, _ | ⟨b₂, before⟩⟩⟩ := before
  · obtain ⟨rfl, -⟩ := List.cons.inj heq
    intro t ht _ patch hlookup
    exact absurd hlookup (by simp [after, new, ImagePatch.new])
  · obtain ⟨-, heq₁⟩ := List.cons.inj heq
    obtain ⟨rfl, -⟩ := List.cons.inj heq₁
    trivial
  · obtain ⟨rfl, heq₁⟩ := List.cons.inj heq
    obtain ⟨rfl, heq₂⟩ := List.cons.inj heq₁
    obtain ⟨rfl, -⟩ := List.cons.inj heq₂
    intro t ht _ patch hlookup _
    obtain rfl : t = (5, ⟨.returns, .returns⟩) := List.mem_singleton.mp ht
    have hpatch : some patch = some ⟨1005, false⟩ := hlookup.symm.trans (by decide)
    obtain rfl := Option.some.inj hpatch
    rfl
  · exact absurd (congrArg List.length heq) (by simp [reloaded])

/-- No patch is applied when the module moves from 1000 to 2000, yet its function is then reported
    patched while the jump is written at 1005. -/
theorem patches_stale_address :
    ((after reloaded).patchedImages 1).activeCount = 0 ∧
      ((after reloaded).patchedImages 1).lock = none ∧
      ((after reloaded).call (.apply 1 2000 () [(5, ⟨.returns, .returns⟩)])).2 = some [(5, .ok)] ∧
      (((after reloaded).call (.apply 1 2000 () [(5, ⟨.returns, .returns⟩)])).1.patchedImages
        1).patched.lookup 5 = some ⟨1005, true⟩ ∧
      ¬ PatchCall.HitsBase (after reloaded) (.apply 1 2000 () [(5, ⟨.returns, .returns⟩)]) := by
  refine ⟨by decide, by decide, by decide, by decide, fun h => ?_⟩
  obtain ⟨patch, hlookup, -, htarget⟩ := h [(5, .ok)] 0 5 (by decide) rfl
  have hstale : some patch = some ⟨1005, true⟩ := hlookup.symm.trans (by decide)
  obtain rfl := Option.some.inj hstale
  exact absurd htarget (by decide)

end ImagePatchManager

end MicroProfiler
