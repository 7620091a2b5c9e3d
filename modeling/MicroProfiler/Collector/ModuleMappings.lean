/-
  `collector/module_tracker.cpp` once more: files that cannot be read, `lock_mapping`, and bases.

  1. **Unreadable files** — `tryGetChanges` is `get_changes` where hashing a file may throw, between
     the insertions into the two registries.  The file is known then and its module is not: the next
     call finds the one and dereferences the other.  All is well EXACTLY WHEN every file can be read
     when it is first seen (`get_changes_survives`).

  2. **The past** (`Past`) — which files the calls came by, and where they are mapped, told from the
     snapshots and from what could be read.  A call that throws has come by the modules before the one
     it could not read, and unmaps nothing.  After any calls the registries are as the past says
     (`Recalled.call`).

  3. **Requests** — `lockMapping` looks at the registry only: it dereferences the mapping of a module
     that was unloaded, and so do the two handlers that call it.  They are total EXACTLY FOR the ids
     that were never issued, or whose file is mapped or could not be read (`Recalled.answers_past_iff`).

  4. **Bases** — a file that is mapped keeps its instance, wherever it is by then: the bases are right
     EXACTLY WHEN no call that returns finds a mapped file elsewhere (`based_iff_settled`).

  The ids are unbounded here; `ModuleIds` has them as wide as they are.
-/
import MicroProfiler.Collector.ModuleTracker
import MicroProfiler.Patcher.ImagePatchManager

namespace MicroProfiler

variable {F : Type} [DecidableEq F]

namespace ModuleTracker

/-! ## Files that cannot be read -/

/-- `register_path`, where `calculate_hash` may throw; no id then.  The file is in the first
    registry before the hash is asked for, and stays there. -/
def tryRegisterPath (hash : String → Option Nat) (t : ModuleTracker F) (path : String) (fid : F) :
    ModuleTracker F × Option Nat :=
  match t.filesRegistry fid with
  | some persistentId => (t, some persistentId)
  | none =>
      -- `emplace` into the registry of files
      let persistentId := t.nextPersistentId
      let t := { t with
        nextPersistentId := persistentId + 1
        filesRegistry := Function.update t.filesRegistry fid (some persistentId) }
      match hash path with
      -- thrown while the `module_info` to be inserted is constructed
      | none => (t, none)
      | some h =>
          ({ t with modulesRegistry := t.modulesRegistry.insert persistentId ⟨path, h, none⟩ },
            some persistentId)

/-- `enumerate_process_modules` with the callback of `get_changes`: the persistent ids in the snapshot,
    unless an exception left it; `none` is a dereferenced `end()`. -/
def tryEnumerate (hash : String → Option Nat) :
    ModuleTracker F × List Nat → List (MappedModule F) → Option (ModuleTracker F × Option (List Nat))
  | s, [] => some (s.1, some s.2)
  | s, mm :: rest =>
      match s.1.tryRegisterPath hash mm.path mm.file with
      -- the exception leaves the loop
      | (t, none) => some (t, none)
      | (t, some persistentId) =>
          match t.modulesRegistry.lookup persistentId with
          | none => none
          | some mi =>
              match mi.mapping with
              -- mapped: the instance stays as it was reported, base included
              | some _ => tryEnumerate hash (t, persistentId :: s.2) rest
              | none =>
                  -- a new instance, which `get_changes` will report
                  let mmi : MappedModuleIdentified :=
                    ⟨t.nextInstanceId, persistentId, mm.path, mm.base, mi.hash⟩
                  tryEnumerate hash
                    ({ t with
                        nextInstanceId := t.nextInstanceId + 1
                        modulesRegistry := t.modulesRegistry.insert persistentId
                          { mi with mapping := some mmi }
                        lqueue := t.lqueue ++ [mmi] }, persistentId :: s.2) rest

/-- `get_changes`, which reports nothing when it throws.  What was queued until then stays queued
    for the next call. -/
def tryGetChanges (hash : String → Option Nat) (t : ModuleTracker F) (snapshot : List (MappedModule F)) :
    Option (ModuleTracker F × Option (List MappedModuleIdentified × List Nat)) :=
  match tryEnumerate hash (t, []) snapshot with
  | none => none
  | some (t, none) => some (t, none)
  | some (t, some inSnapshot) =>
      -- the unload sweep, only after the whole snapshot
      let t := t.modulesRegistry.keys.foldl (swept inSnapshot) t
      some ({ t with lqueue := [], uqueue := [] }, some (t.lqueue, t.uqueue))

/-- A call of `get_changes`, with what can be read by then; the session goes on if it throws. -/
def Session.tryObserve (s : Session F) (q : (String → Option Nat) × List (MappedModule F)) :
    Option (Session F) :=
  match s.tracker.tryGetChanges q.1 q.2 with
  | none => none
  | some (t, none) => some ⟨t, s.reports⟩
  | some (t, some r) => some ⟨t, s.reports ++ [⟨q.2, r.1, r.2⟩]⟩

/-- Every file that is new in the snapshot, some files being known, can be read.  A known file is
    not hashed again. -/
def readable (hash : String → Option Nat) : List F → List (MappedModule F) → Bool
  | _, [] => true
  | known, mm :: rest =>
      (mm.file ∈ known || (hash mm.path).isSome) && readable hash (mm.file :: known) rest

/-- Every file can be read when it is first seen. -/
def firstReadable : List F → List ((String → Option Nat) × List (MappedModule F)) → Bool
  | _, [] => true
  | known, q :: qs => readable q.1 known q.2 && firstReadable (q.2.map MappedModule.file ++ known) qs

/-- After a call with `q`: every known file has its module, and if all files could be read then all
    of them are live. -/
structure Survived (q : (String → Option Nat) × List (MappedModule F)) (s : Session F) : Prop where
  /-- no `end()` to be dereferenced -/
  known : ∀ f p, s.tracker.filesRegistry f = some p → p ∈ s.tracker.modulesRegistry
  /-- what is mapped was reported -/
  reported : (∀ mm ∈ q.2, (q.1 mm.path).isSome = true) → ∀ mm ∈ q.2,
    ∃ m ∈ replay s.reports, s.tracker.filesRegistry mm.file = some m.persistentId

/-- The files a tracker knows, as a list. -/
def Knows (t : ModuleTracker F) (known : List F) : Prop :=
  ∀ f, (t.filesRegistry f).isSome = true ↔ f ∈ known

/-- The hashes, with any value for what cannot be read. -/
def total (hash : String → Option Nat) (path : String) : Nat := (hash path).getD 0

/-- A file that is known or can be read is registered as before. -/
theorem tryRegisterPath_readable {hash : String → Option Nat} {t : ModuleTracker F} {path : String}
    {fid : F} (h : (t.filesRegistry fid).isSome = true ∨ (hash path).isSome = true) :
    t.tryRegisterPath hash path fid =
      ((t.registerPath (total hash) path fid).1, some (t.registerPath (total hash) path fid).2) := by
  unfold tryRegisterPath registerPath
  cases hfile : t.filesRegistry fid with
  -- known: no hash is taken
  | some p => rfl
  | none =>
    rw [hfile] at h
    rcases h with h | h
    · cases h
    · obtain ⟨n, hn⟩ := Option.isSome_iff_exists.mp h
      simp only [hn, total, Option.getD_some]

/-- A file that is known or can be read is treated as before.  This reduces the loop to the one that
    cannot throw. -/
theorem tryEnumerate_readable {hash : String → Option Nat} {s : ModuleTracker F × List Nat}
    {mm : MappedModule F} (rest : List (MappedModule F))
    (h : (s.1.filesRegistry mm.file).isSome = true ∨ (hash mm.path).isSome = true) :
    tryEnumerate hash s (mm :: rest) =
      (enumerated (total hash) s mm).bind fun s' => tryEnumerate hash s' rest := by
  rw [tryEnumerate, tryRegisterPath_readable h, enumerated]
  dsimp only
  cases (s.1.registerPath (total hash) mm.path mm.file).1.modulesRegistry.lookup
      (s.1.registerPath (total hash) mm.path mm.file).2 with
  | none => rfl
  | some mi =>
    dsimp only [Option.map_some, Option.bind_some]
    cases mi.mapping with
    | none => rfl
    | some m => rfl

/-- A file that is new and cannot be read is registered, and its module is not. -/
theorem tryEnumerate_unreadable (hash : String → Option Nat) {s : ModuleTracker F × List Nat}
    {mm : MappedModule F} (rest : List (MappedModule F)) (hnew : s.1.filesRegistry mm.file = none)
    (hhash : hash mm.path = none) :
    ∃ t', tryEnumerate hash s (mm :: rest) = some (t', none) ∧
      t'.filesRegistry mm.file = some s.1.nextPersistentId ∧
      t'.modulesRegistry = s.1.modulesRegistry := by
  refine ⟨{ s.1 with
    nextPersistentId := s.1.nextPersistentId + 1
    filesRegistry := Function.update s.1.filesRegistry mm.file (some s.1.nextPersistentId) },
    ?_, Function.update_self .., rfl⟩
  rw [tryEnumerate, tryRegisterPath, hnew]
  dsimp only
  rw [hhash]

/-- Which files are known after a module of the snapshot. -/
theorem enumerated_knows {hash : String → Nat} {s s' : ModuleTracker F × List Nat}
    {mm : MappedModule F} {known : List F} (h : Knows s.1 known)
    (hs' : enumerated hash s mm = some s') : Knows s'.1 (mm.file :: known) := by
  have hregister : Knows (s.1.registerPath hash mm.path mm.file).1 (mm.file :: known) := by
    intro f
    unfold registerPath
    cases hfile : s.1.filesRegistry mm.file with
    | some p =>
      -- it was known
      rw [List.mem_cons, ← h f]
      refine ⟨Or.inr, fun hf => hf.elim (fun heq => ?_) id⟩
      rw [heq, hfile]
      rfl
    | none =>
      rw [List.mem_cons, ← h f]
      by_cases heq : f = mm.file
      · rw [heq]
        simp [Function.update_self]
      · simp [heq]
  unfold enumerated at hs'
  obtain ⟨mi, _, rfl⟩ := Option.map_eq_some_iff.mp hs'
  cases mi.mapping with
  | some m => exact hregister
  | none => exact hregister

/-- **The first loop** goes on through a readable snapshot; otherwise a file is left without its
    module.  By recursion on what is left of the snapshot, with the invariant of the loop that
    cannot throw. -/
theorem tryEnumerate_spec (hash : String → Option Nat) {t₀ : ModuleTracker F}
    {live : List MappedModuleIdentified} : ∀ (rest seen : List (MappedModule F)) (known : List F)
    (s : ModuleTracker F × List Nat), Enumerating t₀ live seen s → Knows s.1 known →
    if readable hash known rest then
      ∃ s', tryEnumerate hash s rest = some (s'.1, some s'.2) ∧
        Lib.run (enumerated (total hash)) s rest = some s' ∧
        Knows s'.1 (rest.map MappedModule.file ++ known)
    else
      ∃ t' f p, tryEnumerate hash s rest = some (t', none) ∧ t'.filesRegistry f = some p ∧
        p ∉ t'.modulesRegistry
  | [], seen, known, s, h, hknows => by
    rw [readable, if_pos rfl]
    exact ⟨s, rfl, rfl, hknows⟩
  | mm :: rest, seen, known, s, h, hknows => by
    have hcase : (s.1.filesRegistry mm.file).isSome = true ∨ (hash mm.path).isSome = true ↔
        (decide (mm.file ∈ known) || (hash mm.path).isSome) = true := by
      rw [hknows, Bool.or_eq_true, decide_eq_true_iff]
    rw [readable]
    by_cases hreadable : (s.1.filesRegistry mm.file).isSome = true ∨ (hash mm.path).isSome = true
    · -- the module is visited, and the loop goes on
      rw [tryEnumerate_readable rest hreadable, hcase.mp hreadable, Bool.true_and]
      obtain ⟨s₁, hs₁, h₁⟩ := h.step (total hash) mm
      rw [hs₁, Option.bind_some]
      have ih := tryEnumerate_spec hash rest _ _ s₁ h₁ (enumerated_knows hknows hs₁)
      split
      · next hrest =>
        rw [if_pos hrest] at ih
        obtain ⟨s', htry, hrun, hknows'⟩ := ih
        refine ⟨s', htry, Lib.run_cons_eq_some.mpr ⟨s₁, hs₁, hrun⟩, fun f => (hknows' f).trans ?_⟩
        simp only [List.map_cons, List.mem_append, List.mem_cons, List.cons_append]
        tauto
      · next hrest =>
        rw [if_neg hrest] at ih
        exact ih
    · -- the hash throws here
      have hfalse : (decide (mm.file ∈ known) || (hash mm.path).isSome) = false :=
        Bool.eq_false_iff.mpr fun htrue => hreadable (hcase.mpr htrue)
      rw [hfalse, Bool.false_and, if_neg Bool.false_ne_true]
      obtain ⟨hfile, hhash⟩ := not_or.mp hreadable
      obtain ⟨t', htry, hfile', hmodules⟩ := tryEnumerate_unreadable hash rest
        (Option.not_isSome_iff_eq_none.mp hfile) (Option.not_isSome_iff_eq_none.mp hhash)
      refine ⟨t', mm.file, _, htry, hfile', fun hmem => ?_⟩
      rw [hmodules] at hmem
      exact Nat.lt_irrefl _ (h.tracked.owned _ hmem).1

omit [DecidableEq F] in
/-- The unload sweep forgets no file. -/
theorem foldl_swept_files (inSnapshot : List Nat) : ∀ (keys : List Nat) (t : ModuleTracker F),
    (keys.foldl (swept inSnapshot) t).filesRegistry = t.filesRegistry
  | [], _ => rfl
  | p :: keys, t => by
    rw [List.foldl_cons, foldl_swept_files inSnapshot keys]
    unfold swept
    split
    · rfl
    · split
      · rfl
      · split
        · rfl
        · rfl

/-- **One call**: as if nothing could throw, or a file is left without its module. -/
theorem Mirrors.tryObserve {s : Session F} {known : List F} (h : Mirrors s)
    (hknows : Knows s.tracker known) (q : (String → Option Nat) × List (MappedModule F)) :
    if readable q.1 known q.2 then
      ∃ s', s.tryObserve q = some s' ∧ s.observe (total q.1, q.2) = some s' ∧
        Knows s'.tracker (q.2.map MappedModule.file ++ known)
    else
      ∃ s' f p, s.tryObserve q = some s' ∧ s'.tracker.filesRegistry f = some p ∧
        p ∉ s'.tracker.modulesRegistry := by
  have hspec := tryEnumerate_spec q.1 q.2 [] known (s.tracker, [])
    (h.tracked.enumerating h.lqueue h.uqueue) hknows
  unfold Session.tryObserve tryGetChanges
  split
  · -- readable: the sweep runs, and the report is made
    next hreadable =>
    rw [if_pos hreadable] at hspec
    obtain ⟨⟨t₁, inSnapshot⟩, htry, hrun, hknows₁⟩ := hspec
    rw [htry]
    refine ⟨_, rfl, ?_, fun f => ?_⟩
    · rw [Session.observe, getChanges, hrun]
      rfl
    · dsimp only
      rw [foldl_swept_files]
      exact hknows₁ f
  · -- the exception leaves `get_changes`
    next hreadable =>
    rw [if_neg hreadable] at hspec
    obtain ⟨t', f, p, htry, hfile, hmodule⟩ := hspec
    rw [htry]
    exact ⟨_, f, p, rfl, hfile, hmodule⟩

/-- A call on a readable snapshot leaves everything in order. -/
theorem Mirrors.survived {s s' : Session F} (h : Mirrors s)
    (q : (String → Option Nat) × List (MappedModule F))
    (hs' : s.observe (total q.1, q.2) = some s') : Mirrors s' ∧ Survived q s' := by
  obtain ⟨s'', heq, hmirrors, _, hsnapshots⟩ := h.observe (total q.1, q.2)
  obtain rfl : s'' = s' := Option.some.inj (heq.symm.trans hs')
  refine ⟨hmirrors, hmirrors.tracked.known, fun _ mm hmm => ?_⟩
  -- the last report is of this snapshot
  obtain ⟨r, hr, hsnapshot⟩ : ∃ r ∈ s''.reports.getLast?, r.snapshot = q.2 := by
    have hlast := congrArg List.getLast? hsnapshots
    rw [List.getLast?_concat, List.getLast?_map] at hlast
    exact Option.map_eq_some_iff.mp hlast
  obtain ⟨m, hm, _⟩ := hmirrors.live r hr mm (hsnapshot ▸ hmm)
  exact ⟨m, hm⟩

/-- **Every call of a run** leaves everything in order exactly when every file can be read when it
    is first seen.  By recursion on the calls: the first that cannot read a file is the one that
    fails. -/
theorem Mirrors.survives_iff : ∀ (qs : List ((String → Option Nat) × List (MappedModule F)))
    {s : Session F} {known : List F}, Mirrors s → Knows s.tracker known →
    ((∀ before q after, qs = before ++ q :: after → ∃ s₁ s₂,
        Lib.run Session.tryObserve s before = some s₁ ∧ s₁.tryObserve q = some s₂ ∧ Survived q s₂) ↔
      firstReadable known qs = true)
  | [], s, known, _, _ => by
    refine iff_of_true (fun before q after h => ?_) rfl
    exact absurd h (by simp)
  | q :: qs, s, known, h, hknows => by
    have hcall := h.tryObserve hknows q
    rw [firstReadable, Bool.and_eq_true]
    split at hcall
    · next hreadable =>
      obtain ⟨s', htry, hobserve, hknows'⟩ := hcall
      obtain ⟨hmirrors, hsurvived⟩ := h.survived q hobserve
      rw [← Mirrors.survives_iff qs hmirrors hknows']
      constructor
      -- a call of the rest is a call of the whole, one later
      · intro hall
        refine ⟨hreadable, fun before q' after heq => ?_⟩
        obtain ⟨s₁, s₂, hrun, hrest⟩ := hall (q :: before) q' after (by rw [heq, List.cons_append])
        obtain ⟨s'', htry', hrun⟩ := Lib.run_cons_eq_some.mp hrun
        cases htry.symm.trans htry'
        exact ⟨s₁, s₂, hrun, hrest⟩
      · rintro ⟨_, hall⟩ before q' after heq
        cases before with
        | nil =>
          cases heq
          exact ⟨s, s', rfl, htry, hsurvived⟩
        | cons q₀ before =>
          cases heq
          obtain ⟨s₁, s₂, hrun, hrest⟩ := hall before q' after rfl
          exact ⟨s₁, s₂, Lib.run_cons_eq_some.mpr ⟨s', htry, hrun⟩, hrest⟩
    · -- this call leaves a file without its module
      next hreadable =>
      obtain ⟨s', f, p, htry, hfile, hmodule⟩ := hcall
      refine iff_of_false (fun hall => ?_) fun hand => hreadable hand.1
      obtain ⟨s₁, s₂, hrun, htry', hsurvived⟩ := hall [] q qs rfl
      cases hrun
      cases htry.symm.trans htry'
      exact hmodule (hsurvived.known f p hfile)

omit [DecidableEq F] in
/-- A new tracker knows no file. -/
theorem new_knows : Knows (Session.new : Session F).tracker [] := fun _ =>
  ⟨fun h => absurd h Bool.false_ne_true, fun h => absurd h List.not_mem_nil⟩

/-- A module, at a base. -/
def moduleAt (base : Nat) : MappedModule Nat := ⟨"module", 1, base⟩

/-- A file that cannot be read is known without its module, and the next call dereferences `end()`. -/
theorem get_changes_half_registers :
    (¬ ∀ (qs : List ((String → Option Nat) × List (MappedModule Nat))) before q after,
      qs = before ++ q :: after → ∃ s₁ s₂, Lib.run Session.tryObserve Session.new before = some s₁ ∧
        s₁.tryObserve q = some s₂ ∧ Survived q s₂) ∧
    Lib.run Session.tryObserve Session.new
      [(fun _ => none, [moduleAt 1000]), (fun _ => some 7, [moduleAt 1000])] = none := by
  refine ⟨fun hall => ?_, rfl⟩
  have hreadable := (Mirrors.survives_iff [(fun _ => none, [moduleAt 1000])] new_mirrors new_knows).mp
    (hall _)
  exact absurd hreadable (by decide)

/-- **`module_tracker` survives unreadable files**, at every call of a run, exactly when there are
    none: every file can be read when it is first seen. -/
theorem get_changes_survives (qs : List ((String → Option Nat) × List (MappedModule F))) :
    (∀ before q after, qs = before ++ q :: after → ∃ s₁ s₂,
      Lib.run Session.tryObserve Session.new before = some s₁ ∧ s₁.tryObserve q = some s₂ ∧
        Survived q s₂) ↔
    firstReadable [] qs = true :=
  Mirrors.survives_iff qs new_mirrors new_knows

/-! ## What the calls came by -/

/-- The files that were seen, those of them whose hash threw, and where the others are mapped. -/
structure Past (F : Type) where
  /-- in the registry of files -/
  known : List F
  /-- and not in that of modules -/
  unread : List F
  /-- the base of the instance, which need not be where the file is now -/
  mapped : F → Option Nat

namespace Past

/-- Before any call. -/
def new : Past F := ⟨[], [], fun _ => none⟩

/-- A file is seen. -/
def meet (past : Past F) (mm : MappedModule F) : Past F := { past with known := mm.file :: past.known }

/-- A module is come by; a file that is mapped stays where it is.  Here is the defect of the bases:
    the new base is not looked at. -/
def come (past : Past F) (mm : MappedModule F) : Past F :=
  { past.meet mm with
    mapped := Function.update past.mapped mm.file (some ((past.mapped mm.file).getD mm.base)) }

/-- A snapshot is come by, up to a new file that cannot be read; and whether that was all of it. -/
def enumerate (hash : String → Option Nat) : Past F → List (MappedModule F) → Past F × Bool
  | past, [] => (past, true)
  | past, mm :: rest =>
      if mm.file ∈ past.known ∨ (hash mm.path).isSome = true then enumerate hash (past.come mm) rest
      else ({ past.meet mm with unread := mm.file :: past.unread }, false)

/-- The files that a whole snapshot does not have are unmapped. -/
def sweep (past : Past F) (snapshot : List (MappedModule F)) : Past F :=
  { past with mapped := fun f => if f ∈ snapshot.map MappedModule.file then past.mapped f else none }

/-- A call of `get_changes`: the sweep is skipped if a hash throws. -/
def call (past : Past F) (q : (String → Option Nat) × List (MappedModule F)) : Past F :=
  if (past.enumerate q.1 q.2).2 then (past.enumerate q.1 q.2).1.sweep q.2
  else (past.enumerate q.1 q.2).1

/-- Any calls, on a new tracker. -/
def after (qs : List ((String → Option Nat) × List (MappedModule F))) : Past F := qs.foldl call new

/-- What is mapped stays where it is through a whole snapshot. -/
theorem enumerate_keeps {hash : String → Option Nat} {f : F} {b : Nat} :
    ∀ {snapshot : List (MappedModule F)} {past : Past F}, past.mapped f = some b →
      (past.enumerate hash snapshot).1.mapped f = some b
  | [], _, h => h
  | mm :: rest, past, h => by
    rw [enumerate]
    split
    · refine enumerate_keeps ?_
      show Function.update past.mapped mm.file _ f = some b
      by_cases heq : f = mm.file
      · subst heq
        rw [Function.update_self, h, Option.getD_some]
      · rw [Function.update_of_ne heq]
        exact h
    · exact h

/-- **A file that was mapped stays where it was; another one is mapped where it is.** -/
theorem enumerate_mapped {hash : String → Option Nat} : ∀ {snapshot : List (MappedModule F)}
    {past : Past F}, (snapshot.map MappedModule.file).Nodup →
    (past.enumerate hash snapshot).2 = true → ∀ mm ∈ snapshot,
      (past.enumerate hash snapshot).1.mapped mm.file = some ((past.mapped mm.file).getD mm.base)
  | [], _, _, _, _, hmm => absurd hmm List.not_mem_nil
  | mm :: rest, past, honce, hwhole, mm', hmm' => by
    rw [enumerate] at hwhole ⊢
    split at hwhole
    · next hgoes =>
      rw [if_pos hgoes]
      obtain ⟨hnew, hrest⟩ := List.nodup_cons.mp honce
      -- a file stands in a snapshot once, so what comes later does not concern it
      rcases List.mem_cons.mp hmm' with rfl | hmm'
      · exact enumerate_keeps (Function.update_self ..)
      · have hother : mm'.file ≠ mm.file := fun heq => hnew (heq ▸ List.mem_map_of_mem hmm')
        have hcame : (past.come mm).mapped mm'.file = past.mapped mm'.file :=
          Function.update_of_ne hother _ _
        rw [enumerate_mapped hrest hwhole mm' hmm', hcame]
    · cases hwhole

end Past

/-- The registries are as the past says.  This is what links the tracker to the past. -/
structure Recalls (past : Past F) (t : ModuleTracker F) : Prop where
  /-- the registry of files -/
  knows : ∀ f, (t.filesRegistry f).isSome = true ↔ f ∈ past.known
  read : ∀ f ∈ past.unread, f ∈ past.known
  /-- a known file has its module, unless its hash threw -/
  modules : ∀ f p, t.filesRegistry f = some p → (p ∈ t.modulesRegistry ↔ f ∉ past.unread)
  /-- the bases of the instances -/
  mapped : ∀ f, ((t.filesRegistry f).bind t.mappingOf).map MappedModuleIdentified.base = past.mapped f

section

variable {past : Past F} {t : ModuleTracker F} {live : List MappedModuleIdentified}

omit [DecidableEq F] in
/-- The base of a known file's instance. -/
theorem Recalls.mapped_eq (h : Recalls past t) {f : F} {p : Nat} (hf : t.filesRegistry f = some p) :
    (t.mappingOf p).map MappedModuleIdentified.base = past.mapped f := by
  rw [← h.mapped, hf, Option.bind_some]

omit [DecidableEq F] in
/-- A file that was not seen is not mapped. -/
theorem Recalls.not_known (h : Recalls past t) {f : F} (hf : t.filesRegistry f = none) :
    f ∉ past.known ∧ past.mapped f = none := by
  refine ⟨fun hmem => ?_, ?_⟩
  · rw [← h.knows, hf] at hmem
    exact Bool.false_ne_true hmem
  · rw [← h.mapped, hf]
    rfl

/-- Which files are known once one more is registered. -/
theorem isSome_register (t : ModuleTracker F) (fid f : F) (p : Nat) :
    (Function.update t.filesRegistry fid (some p) f).isSome = true ↔
      f = fid ∨ (t.filesRegistry f).isSome = true := by
  by_cases heq : f = fid
  · subst heq
    simp
  · simp [heq]

/-- **The hash throws**: a file without a module. -/
theorem Recalls.throw (h : Recalls past t) (hkept : Kept t live) {mm : MappedModule F}
    (hf : t.filesRegistry mm.file = none) :
    Recalls { past.meet mm with unread := mm.file :: past.unread }
      { t with
        nextPersistentId := t.nextPersistentId + 1
        filesRegistry := Function.update t.filesRegistry mm.file (some t.nextPersistentId) } := by
  have hnew : t.nextPersistentId ∉ t.modulesRegistry := fun hmem =>
    Nat.lt_irrefl _ (hkept.owned _ hmem).1
  refine ⟨fun f => ?_, fun f hunread => ?_, fun f p hp => ?_, fun f => ?_⟩
  · -- it is known now
    rw [isSome_register, h.knows]
    exact List.mem_cons.symm
  · -- who was not read was seen
    rcases List.mem_cons.mp hunread with rfl | hunread
    · exact List.mem_cons_self
    · exact List.mem_cons_of_mem _ (h.read f hunread)
  · -- its id, which is new, has no module; the others are as they were
    rw [List.mem_cons, not_or]
    rcases register_cases hp with ⟨rfl, rfl⟩ | hold
    · exact iff_of_false hnew fun hand => hand.1 rfl
    · refine (h.modules f p hold).trans (iff_and_self.mpr ?_)
      rintro _ rfl
      rw [hf] at hold
      cases hold
  · -- and it is not mapped
    show ((Function.update t.filesRegistry mm.file _ f).bind t.mappingOf).map _ = past.mapped f
    by_cases heq : f = mm.file
    · subst heq
      rw [Function.update_self, Option.bind_some, (h.not_known hf).2, mappingOf,
        AList.lookup_eq_none.mpr hnew]
      rfl
    · rw [Function.update_of_ne heq]
      exact h.mapped f

/-- **A file is registered** with its module, not mapped yet. -/
theorem Recalls.register (h : Recalls past t) (hkept : Kept t live) {mm : MappedModule F}
    (hf : t.filesRegistry mm.file = none) (path : String) (hash : Nat) :
    Recalls (past.meet mm)
      { t with
        nextPersistentId := t.nextPersistentId + 1
        filesRegistry := Function.update t.filesRegistry mm.file (some t.nextPersistentId)
        modulesRegistry := t.modulesRegistry.insert t.nextPersistentId ⟨path, hash, none⟩ } := by
  have hnew : t.nextPersistentId ∉ t.modulesRegistry := fun hmem =>
    Nat.lt_irrefl _ (hkept.owned _ hmem).1
  have hthrow := h.throw hkept hf
  refine ⟨hthrow.knows, fun f hunread => List.mem_cons_of_mem _ (h.read f hunread), fun f p hp => ?_,
    fun f => ?_⟩
  · rw [AList.mem_insert]
    rcases register_cases hp with ⟨rfl, rfl⟩ | hold
    · exact iff_of_true (Or.inl rfl) fun hunread => (h.not_known hf).1 (h.read _ hunread)
    · refine (or_iff_right fun heq => ?_).trans (h.modules f p hold)
      exact Nat.lt_irrefl _ (heq ▸ hkept.below f p hold)
  · rw [← hthrow.mapped f]
    congr 2
    funext p
    exact mappingOf_module hnew path hash p

omit [DecidableEq F] in
/-- A file that is known is seen again. -/
theorem Recalls.meet (h : Recalls past t) {mm : MappedModule F} {p : Nat}
    (hf : t.filesRegistry mm.file = some p) : Recalls (past.meet mm) t := by
  refine ⟨fun f => (h.knows f).trans ?_, fun f hunread => List.mem_cons_of_mem _ (h.read f hunread),
    h.modules, h.mapped⟩
  show f ∈ past.known ↔ f ∈ mm.file :: past.known
  rw [List.mem_cons]
  refine (or_iff_right_of_imp ?_).symm
  rintro rfl
  rw [← h.knows, hf]
  rfl

/-- **A module is mapped** where it is. -/
theorem Recalls.map (h : Recalls past t) (hkept : Kept t live) {f : F} {mi : ModuleInfo}
    (mmi : MappedModuleIdentified) (hf : t.filesRegistry f = some mmi.persistentId)
    (hmi : t.modulesRegistry.lookup mmi.persistentId = some mi) (queue : List MappedModuleIdentified) :
    Recalls { past with mapped := Function.update past.mapped f (some mmi.base) }
      { t with
        nextInstanceId := t.nextInstanceId + 1
        modulesRegistry := t.modulesRegistry.insert mmi.persistentId { mi with mapping := some mmi }
        lqueue := queue } := by
  refine ⟨h.knows, h.read, fun g p hp => (mem_insert_known hmi).trans (h.modules g p hp), fun g => ?_⟩
  show ((t.filesRegistry g).bind fun p => ((t.modulesRegistry.insert _ _).lookup p).bind _).map _ =
    Function.update past.mapped f (some mmi.base) g
  by_cases heq : g = f
  · subst heq
    rw [Function.update_self, hf, Option.bind_some, mappingOf_insert, if_pos rfl]
    rfl
  · rw [Function.update_of_ne heq, ← h.mapped g]
    cases hg : t.filesRegistry g with
    -- a file that is not known is not mapped
    | none => rfl
    | some p =>
      -- another file has another id, whose module is untouched
      have hne : p ≠ mmi.persistentId := by
        rintro rfl
        exact heq (hkept.injective g f _ hg hf)
      rw [Option.bind_some, Option.bind_some, mappingOf_insert, if_neg hne]

end

/-! ## The registries after any calls -/

omit [DecidableEq F] in
/-- Files stay known. -/
theorem Extends.trans {t t' t'' : ModuleTracker F} (h : Extends t t') (h' : Extends t' t'') :
    Extends t t'' := fun f p hp => h' f p (h f p hp)

/-- The state of the first loop, after the modules `seen`. -/
structure Coming (past : Past F) (live : List MappedModuleIdentified) (seen : List (MappedModule F))
    (s : ModuleTracker F × List Nat) : Prop where
  /-- what is live or queued is what the registry keeps -/
  kept : Kept s.1 (live ++ s.1.lqueue)
  /-- the past as of the modules seen -/
  recalls : Recalls past s.1
  /-- nothing is unloaded before the sweep -/
  quiet : s.1.uqueue = []
  /-- only ids of files are marked -/
  marked : ∀ p ∈ s.2, ∃ f, s.1.filesRegistry f = some p
  /-- and exactly those seen in this snapshot -/
  present : ∀ f p, s.1.filesRegistry f = some p → (p ∈ s.2 ↔ f ∈ seen.map MappedModule.file)
  /-- what was seen is mapped -/
  mapped : ∀ mm ∈ seen, (past.mapped mm.file).isSome = true

/-- What the callback of `get_changes` does with the module of a registered file. -/
def visited (t : ModuleTracker F) (inSnapshot : List Nat) (p : Nat) (mi : ModuleInfo)
    (mm : MappedModule F) : ModuleTracker F × List Nat :=
  match mi.mapping with
  | some _ => (t, p :: inSnapshot)
  | none =>
      ({ t with
          nextInstanceId := t.nextInstanceId + 1
          modulesRegistry := t.modulesRegistry.insert p
            { mi with mapping := some ⟨t.nextInstanceId, p, mm.path, mm.base, mi.hash⟩ }
          lqueue := t.lqueue ++ [⟨t.nextInstanceId, p, mm.path, mm.base, mi.hash⟩] },
        p :: inSnapshot)

/-- A file that has its id is visited. -/
theorem tryEnumerate_visits {hash : String → Option Nat} {s : ModuleTracker F × List Nat}
    {mm : MappedModule F} {t : ModuleTracker F} {p : Nat}
    (h : s.1.tryRegisterPath hash mm.path mm.file = (t, some p)) (rest : List (MappedModule F)) :
    tryEnumerate hash s (mm :: rest) =
      (t.modulesRegistry.lookup p).bind fun mi => tryEnumerate hash (visited t s.2 p mi mm) rest := by
  rw [tryEnumerate, h]
  dsimp only
  cases t.modulesRegistry.lookup p with
  | none => rfl
  | some mi =>
    rw [Option.bind_some, visited]
    dsimp only
    cases mi.mapping with
    | some m => rfl
    | none => rfl

section

variable {past : Past F} {live : List MappedModuleIdentified} {seen : List (MappedModule F)}

/-- **The file of a module** is registered, if it was not; or its hash throws. -/
theorem Coming.register {s : ModuleTracker F × List Nat} (h : Coming past live seen s)
    (hash : String → Option Nat) (mm : MappedModule F) :
    ∃ t r, s.1.tryRegisterPath hash mm.path mm.file = (t, r) ∧ Extends s.1 t ∧
      if mm.file ∈ past.known ∨ (hash mm.path).isSome = true then
        ∃ p, r = some p ∧ t.filesRegistry mm.file = some p ∧
          Coming (past.meet mm) live seen (t, s.2)
      else r = none ∧ Kept t (live ++ t.lqueue) ∧
        Recalls { past.meet mm with unread := mm.file :: past.unread } t ∧ t.uqueue = [] := by
  obtain ⟨t, inSnapshot⟩ := s
  have hkept : Kept t (live ++ t.lqueue) := h.kept
  have hrecalls : Recalls past t := h.recalls
  have hnew : t.nextPersistentId ∉ t.modulesRegistry := fun hmem =>
    Nat.lt_irrefl _ (hkept.owned _ hmem).1
  rw [tryRegisterPath]
  dsimp only
  cases hf : t.filesRegistry mm.file with
  | some p =>
    have hknown : mm.file ∈ past.known := by
      rw [← hrecalls.knows, hf]
      rfl
    refine ⟨t, some p, rfl, fun _ _ hp => hp, ?_⟩
    rw [if_pos (Or.inl hknown)]
    exact ⟨p, rfl, hf, hkept, hrecalls.meet hf, h.quiet, h.marked, h.present, h.mapped⟩
  | none =>
    obtain ⟨hunknown, hunmapped⟩ := hrecalls.not_known hf
    cases hhash : hash mm.path with
    | none =>
      refine ⟨_, none, rfl, fun f p hp => register_keeps hf hp, ?_⟩
      have hthrows : ¬(mm.file ∈ past.known ∨ (none : Option Nat).isSome = true) :=
        not_or.mpr ⟨hunknown, Bool.false_ne_true⟩
      rw [if_neg hthrows]
      exact ⟨rfl, hkept.registerFile hf, hrecalls.throw hkept hf, h.quiet⟩
    | some n =>
      refine ⟨_, some t.nextPersistentId, rfl, fun f p hp => register_keeps hf hp, ?_⟩
      have hgoes : mm.file ∈ past.known ∨ (some n).isSome = true := Or.inr rfl
      rw [if_pos hgoes]
      refine ⟨_, rfl, Function.update_self .., ?_, hrecalls.register hkept hf mm.path n, h.quiet, ?_, ?_,
        h.mapped⟩
      · exact (hkept.registerFile hf).makeModule (f := mm.file) (Function.update_self ..) hnew mm.path n
      · intro p hp
        obtain ⟨f, hfp⟩ := h.marked p hp
        exact ⟨f, register_keeps hf hfp⟩
      · intro f p hp
        rcases register_cases hp with ⟨rfl, rfl⟩ | hold
        · -- the file is new: it was neither marked nor seen
          refine iff_of_false (fun hmem => ?_) fun hmem => ?_
          · obtain ⟨f, hfp⟩ := h.marked _ hmem
            exact Nat.lt_irrefl _ (hkept.below f _ hfp)
          · obtain ⟨mm', hmm', heq⟩ := List.mem_map.mp hmem
            have hsome := h.mapped mm' hmm'
            rw [heq, hunmapped] at hsome
            cases hsome
        · exact h.present f p hold

/-- **A registered module** of the snapshot is mapped, if it was not, and marked as seen. -/
theorem Coming.visit {t : ModuleTracker F} {inSnapshot : List Nat} {mm : MappedModule F}
    (h : Coming (past.meet mm) live seen (t, inSnapshot)) {p : Nat} {mi : ModuleInfo}
    (hf : t.filesRegistry mm.file = some p) (hmi : t.modulesRegistry.lookup p = some mi) :
    Coming (past.come mm) live (seen ++ [mm]) (visited t inSnapshot p mi mm) ∧
      Extends t (visited t inSnapshot p mi mm).1 := by
  have hkept : Kept t (live ++ t.lqueue) := h.kept
  have hrecalls : Recalls (past.meet mm) t := h.recalls
  have hmapping : t.mappingOf p = mi.mapping := by rw [mappingOf, hmi, Option.bind_some]
  have hbase : (t.mappingOf p).map _ = past.mapped mm.file := hrecalls.mapped_eq hf
  have hmarked : ∀ q ∈ p :: inSnapshot, ∃ f, t.filesRegistry f = some q := by
    intro q hq
    rcases List.mem_cons.mp hq with rfl | hq
    · exact ⟨mm.file, hf⟩
    · exact h.marked q hq
  have hpresent : ∀ f q, t.filesRegistry f = some q →
      (q ∈ p :: inSnapshot ↔ f ∈ (seen ++ [mm]).map MappedModule.file) := by
    intro f q hq
    have hsame : q = p ↔ f = mm.file := by
      constructor
      · rintro rfl
        exact hkept.injective f mm.file q hq hf
      · rintro rfl
        exact Option.some.inj (hq.symm.trans hf)
    rw [List.mem_cons, List.map_append, List.mem_append, List.map_singleton, List.mem_singleton,
      ← h.present f q hq, hsame]
    exact or_comm
  have hmapped : ∀ mm' ∈ seen ++ [mm], ((past.come mm).mapped mm'.file).isSome = true := by
    intro mm' hmm'
    show (Function.update past.mapped mm.file _ mm'.file).isSome = true
    by_cases heq : mm'.file = mm.file
    · rw [heq, Function.update_self]
      rfl
    · rw [Function.update_of_ne heq]
      rcases List.mem_append.mp hmm' with hmm' | hmm'
      · exact h.mapped mm' hmm'
      · exact absurd (congrArg MappedModule.file (List.mem_singleton.mp hmm')) heq
  rw [visited]
  cases hcase : mi.mapping with
  | some m =>
    rw [hmapping, hcase] at hbase
    have hsame : past.come mm = past.meet mm := by
      have hstays : Function.update past.mapped mm.file (some ((past.mapped mm.file).getD mm.base)) =
          past.mapped := by
        rw [← hbase]
        exact Function.update_eq_self_iff.mpr hbase
      rw [Past.come, hstays]
      rfl
    refine ⟨⟨hkept, ?_, h.quiet, hmarked, hpresent, hmapped⟩, fun _ _ hq => hq⟩
    rw [hsame]
    exact hrecalls
  | none =>
    rw [hmapping, hcase] at hbase
    have hsame : past.come mm =
        { past.meet mm with mapped := Function.update past.mapped mm.file (some mm.base) } := by
      rw [Past.come, ← hbase]
      rfl
    refine ⟨⟨?_, ?_, h.quiet, hmarked, hpresent, hmapped⟩, fun _ _ hq => hq⟩
    · have hmap := hkept.map ⟨t.nextInstanceId, p, mm.path, mm.base, mi.hash⟩ hmi hcase rfl
      rw [List.append_assoc] at hmap
      exact hmap
    · rw [hsame]
      exact hrecalls.map hkept ⟨t.nextInstanceId, p, mm.path, mm.base, mi.hash⟩ hf hmi _

/-- **The first loop** leaves the registries as the past says, wherever it ends. -/
theorem Coming.run {hash : String → Option Nat} : ∀ {rest seen : List (MappedModule F)}
    {past : Past F} {s : ModuleTracker F × List Nat} {r : ModuleTracker F × Option (List Nat)},
    Coming past live seen s → tryEnumerate hash s rest = some r →
    Extends s.1 r.1 ∧
      if (past.enumerate hash rest).2 then
        ∃ inSnapshot, r.2 = some inSnapshot ∧
          Coming (past.enumerate hash rest).1 live (seen ++ rest) (r.1, inSnapshot)
      else r.2 = none ∧ Kept r.1 (live ++ r.1.lqueue) ∧
        Recalls (past.enumerate hash rest).1 r.1 ∧ r.1.uqueue = []
  | [], seen, past, s, r, h, hrun => by
    obtain rfl := Option.some.inj hrun
    refine ⟨fun _ _ hp => hp, ?_⟩
    rw [Past.enumerate, if_pos rfl, List.append_nil]
    exact ⟨s.2, rfl, h⟩
  | mm :: rest, seen, past, s, r, h, hrun => by
    obtain ⟨t, r', hregister, hextends, hcase⟩ := h.register hash mm
    rw [Past.enumerate]
    split at hcase
    · next hgoes =>
      obtain ⟨p, rfl, hf, hcoming⟩ := hcase
      rw [if_pos hgoes]
      rw [tryEnumerate_visits hregister] at hrun
      obtain ⟨mi, hmi, hrun⟩ := Option.bind_eq_some_iff.mp hrun
      obtain ⟨hvisit, hextends'⟩ := hcoming.visit hf hmi
      obtain ⟨hextends'', hgoal⟩ := hvisit.run hrun
      rw [List.append_cons]
      exact ⟨(hextends.trans hextends').trans hextends'', hgoal⟩
    · next hthrows =>
      obtain ⟨rfl, hkept, hrecalls, hquiet⟩ := hcase
      rw [tryEnumerate, hregister] at hrun
      obtain rfl := Option.some.inj hrun
      rw [if_neg hthrows, if_neg Bool.false_ne_true]
      exact ⟨hextends, rfl, hkept, hrecalls, hquiet⟩

/-- **The second loop** unmaps what the snapshot does not have. -/
theorem Coming.sweep {snapshot : List (MappedModule F)} {t : ModuleTracker F} {inSnapshot : List Nat}
    (h : Coming past live snapshot (t, inSnapshot)) :
    let t' := t.modulesRegistry.keys.foldl (swept inSnapshot) t
    Kept t' ((live ++ t'.lqueue).filter fun m => m.instanceId ∉ t'.uqueue) ∧
      Recalls (past.sweep snapshot) t' ∧ t'.filesRegistry = t.filesRegistry := by
  intro t'
  have hquiet : t.uqueue = [] := h.quiet
  have hsweeping : Sweeping t inSnapshot (live ++ t.lqueue) [] t := by
    refine ⟨?_, rfl, rfl, rfl, fun _ => Iff.rfl, fun _ _ => rfl, ?_, ?_, nofun⟩
    · simp only [hquiet, List.not_mem_nil, not_false_eq_true, decide_true, List.filter_true]
      exact h.kept
    · rw [hquiet]
      nofun
    · rw [hquiet]
      exact List.nodup_nil
  have hswept : Sweeping t inSnapshot (live ++ t.lqueue) t.modulesRegistry.keys t' := by
    have hrun := Sweeping.run t.modulesRegistry.keys [] t hsweeping
    rwa [List.nil_append] at hrun
  have hrecalls : Recalls past t := h.recalls
  refine ⟨?_, ⟨?_, hrecalls.read, ?_, fun f => ?_⟩, hswept.files⟩
  · rw [hswept.queue]
    exact hswept.kept
  · rw [hswept.files]
    exact hrecalls.knows
  · intro f p hp
    rw [hswept.files] at hp
    exact (hswept.keys p).trans (hrecalls.modules f p hp)
  · rw [hswept.files]
    show _ = if f ∈ snapshot.map MappedModule.file then past.mapped f else none
    rw [← hrecalls.mapped f]
    cases hf : t.filesRegistry f with
    | none => exact (ite_self none).symm
    | some p =>
      rw [Option.bind_some, Option.bind_some]
      have hpresent : p ∈ inSnapshot ↔ f ∈ snapshot.map MappedModule.file := h.present f p hf
      split
      · next hin => rw [hswept.stays p (hpresent.mpr hin)]
      · next hout =>
        cases hmapping : t'.mappingOf p with
        | none => rfl
        | some m =>
          have hmem : p ∈ t.modulesRegistry.keys := by
            refine AList.mem_keys.mp ((hswept.keys p).mp ?_)
            obtain ⟨mi, hmi, _⟩ := Option.bind_eq_some_iff.mp hmapping
            exact AList.lookup_isSome.mp (by rw [hmi]; rfl)
          exact absurd (hpresent.mp (hswept.swept p hmem (by rw [hmapping]; rfl))) hout

end

/-- The last snapshot that was reported. -/
def Session.last (s : Session F) : List (MappedModule F) :=
  (s.reports.getLast?.map Report.snapshot).getD []

omit [DecidableEq F] in
/-- The last report is the one appended. -/
theorem Session.last_append (t : ModuleTracker F) (reports : List (Report F)) (r : Report F) :
    Session.last ⟨t, reports ++ [r]⟩ = r.snapshot := by
  rw [Session.last, List.getLast?_concat]
  rfl

/-- The INVARIANT of any calls: what is live for a listener, or queued, is what the registry keeps, and
    that is as the past says. -/
structure Recalled (past : Past F) (s : Session F) : Prop where
  /-- no id and no instance is lost between calls -/
  kept : Kept s.tracker (replay s.reports ++ s.tracker.lqueue)
  /-- the past as of the calls -/
  recalls : Recalls past s.tracker
  /-- whoever was unloaded was reported so -/
  quiet : s.tracker.uqueue = []
  /-- what was seen last is live -/
  last : ∀ mm ∈ s.last, ∃ m ∈ replay s.reports, s.tracker.filesRegistry mm.file = some m.persistentId

omit [DecidableEq F] in
/-- Before any call. -/
theorem new_recalled : Recalled .new (Session.new : Session F) where
  kept := new_kept
  recalls := ⟨fun _ => iff_of_false Bool.false_ne_true List.not_mem_nil,
    fun _ hf => absurd hf List.not_mem_nil, nofun, fun _ => rfl⟩
  quiet := rfl
  last _ hmm := absurd hmm List.not_mem_nil

omit [DecidableEq F] in
/-- The state in which the first loop begins. -/
theorem Recalled.coming {past : Past F} {s : Session F} (h : Recalled past s) :
    Coming past (replay s.reports) [] (s.tracker, []) where
  kept := h.kept
  recalls := h.recalls
  quiet := h.quiet
  marked _ hp := absurd hp List.not_mem_nil
  present _ _ _ := iff_of_false List.not_mem_nil List.not_mem_nil
  mapped _ hmm := absurd hmm List.not_mem_nil

/-- **One call**, whether it returns or throws: it returns with its snapshot, or reports nothing. -/
theorem Recalled.call {past : Past F} {s s' : Session F}
    {q : (String → Option Nat) × List (MappedModule F)} (h : Recalled past s)
    (hs' : s.tryObserve q = some s') :
    Recalled (past.call q) s' ∧
      if (past.enumerate q.1 q.2).2 then s'.last = q.2 else s'.reports = s.reports := by
  have hcoming := h.coming
  unfold Session.tryObserve tryGetChanges at hs'
  cases hrun : tryEnumerate q.1 (s.tracker, []) q.2 with
  | none =>
    -- the loop dereferences nothing that is not there
    rw [hrun] at hs'
    cases hs'
  | some r =>
    obtain ⟨hextends, hcase⟩ := hcoming.run hrun
    obtain ⟨t, outcome⟩ := r
    rw [hrun] at hs'
    rw [Past.call]
    split at hcase
    · -- it returns: the queues are reported, and empty after it
      next hwhole =>
      obtain ⟨inSnapshot, rfl, hcome⟩ := hcase
      rw [List.nil_append] at hcome
      obtain rfl := Option.some.inj hs'
      obtain ⟨hkept, hrecalls, hfiles⟩ := hcome.sweep
      rw [if_pos hwhole, if_pos hwhole]
      refine ⟨⟨?_, ⟨hrecalls.knows, hrecalls.read, hrecalls.modules, hrecalls.mapped⟩, rfl, ?_⟩,
        Session.last_append ..⟩
      · dsimp only
        rw [replay_append, List.append_nil]
        exact ⟨hkept.below, hkept.owned, hkept.injective, hkept.mirrors, hkept.own, hkept.ids⟩
      · intro mm hmm
        rw [Session.last_append] at hmm
        -- the file is mapped, and all that is mapped is live
        have hsome := hcome.mapped mm hmm
        have hmapped := hrecalls.mapped mm.file
        rw [show ((past.enumerate q.1 q.2).1.sweep q.2).mapped mm.file = _ from
          if_pos (List.mem_map_of_mem hmm)] at hmapped
        rw [← hmapped, Option.isSome_map] at hsome
        obtain ⟨m, hm⟩ := Option.isSome_iff_exists.mp hsome
        obtain ⟨p, hp, hm⟩ := Option.bind_eq_some_iff.mp hm
        obtain ⟨rfl, _⟩ := hkept.own p m hm
        dsimp only
        rw [replay_append]
        exact ⟨m, (hkept.mirrors m).mpr hm, hp⟩
    · -- it throws: nothing is reported, and the last snapshot stays that of the call before
      next hthrows =>
      obtain ⟨rfl, hkept, hrecalls, hquiet⟩ := hcase
      obtain rfl := Option.some.inj hs'
      rw [if_neg hthrows, if_neg hthrows]
      refine ⟨⟨hkept, hrecalls, hquiet, fun mm hmm => ?_⟩, rfl⟩
      obtain ⟨m, hm, hfile⟩ := h.last mm hmm
      exact ⟨m, hm, hextends _ _ hfile⟩

/-- **Any calls.**  By recursion on them. -/
theorem Recalled.run : ∀ {qs : List ((String → Option Nat) × List (MappedModule F))} {past : Past F}
    {s s' : Session F}, Recalled past s → Lib.run Session.tryObserve s qs = some s' →
      Recalled (qs.foldl Past.call past) s'
  | [], _, s, s', h, hrun => by
    obtain rfl := Option.some.inj hrun
    exact h
  | q :: qs, _, s, s', h, hrun => by
    obtain ⟨s₁, hs₁, hrest⟩ := Lib.run_cons_eq_some.mp hrun
    exact (h.call hs₁).1.run hrest

/-! ## Requests -/

/-- What becomes of a call. -/
inductive Called (α : Type)
  /-- an exception, which the session turns into a failed response -/
  | threw (what : String)
  /-- `*` or `->` of a null pointer -/
  | dereferencedNull
  | returned (value : α)

/-- A call after another. -/
def Called.bind {α β : Type} : Called α → (α → Called β) → Called β
  | .threw what, _ => .threw what
  | .dereferencedNull, _ => .dereferencedNull
  | .returned value, next => next value

/-- `lock_mapping`; `loadLibrary` gives no handle where the system refuses.  The registry is asked
    for the id, and not whether the module is mapped. -/
def lockMapping {H : Type} (loadLibrary : String → Option H) (t : ModuleTracker F) (persistentId : Nat) :
    Called (MappedModuleIdentified × Option H) :=
  match t.modulesRegistry.lookup persistentId with
  | none => .threw "invalid persistent id"
  | some mi =>
      match mi.mapping with
      | none => .dereferencedNull
      | some mmi => .returned (mmi, loadLibrary mi.path)

/-- `image_info`: what it enumerates. -/
structure ImageInfo (S : Type) where
  functions : List S
  files : List (Nat × String)

/-- `module_info_metadata` -/
structure ModuleInfoMetadata (S : Type) where
  path : String
  hash : Nat
  symbols : List S
  sourceFiles : AList fun _ : Nat => String

/-- `get_metadata`; `loadImageInfo` may throw.  Null for an id that is unknown. -/
def getMetadata {S : Type} (loadImageInfo : String → Except String (ImageInfo S)) (t : ModuleTracker F)
    (persistentId : Nat) : Called (Option (ImageInfo S)) :=
  match t.modulesRegistry.lookup persistentId with
  | none => .returned none
  | some mi =>
      match loadImageInfo mi.path with
      | .error what => .threw what
      | .ok image => .returned (some image)

/-- The handler of `request_module_metadata`: the mapping first, then the metadata of its image. -/
def requestModuleMetadata {H S : Type} (loadLibrary : String → Option H)
    (loadImageInfo : String → Except String (ImageInfo S)) (t : ModuleTracker F) (persistentId : Nat) :
    Called (ModuleInfoMetadata S) :=
  (t.lockMapping loadLibrary persistentId).bind fun l =>
    (t.getMetadata loadImageInfo persistentId).bind fun metadata =>
      match metadata with
      | none => .dereferencedNull
      | some metadata =>
          .returned ⟨l.1.path, l.1.hash, metadata.functions,
            -- a file that is listed twice stays as it was listed first
            metadata.files.foldl (fun files file =>
              if file.1 ∈ files then files else files.insert file.1 file.2) ∅⟩

/-- The handler of `request_apply_patches`, for functions of an image. -/
def requestApplyPatches {H : Type} (loadLibrary : String → Option H) (attempts : Nat → Attempt)
    (patchManager : ImagePatchManager (MappedModuleIdentified × Option H)) (t : ModuleTracker F)
    (persistentId : Nat) (functionsRva : List Nat) :
    Called (ImagePatchManager (MappedModuleIdentified × Option H) × Option (List (Nat × PatchApply))) :=
  (t.lockMapping loadLibrary persistentId).bind fun l =>
    .returned (patchManager.apply attempts persistentId l.1.base l functionsRva)

/-- `lock_mapping` throws or returns what is live under the id, or about to be reported so, and no
    handler dereferences null. -/
structure Answers {H S : Type} (loadLibrary : String → Option H)
    (loadImageInfo : String → Except String (ImageInfo S)) (attempts : Nat → Attempt)
    (patchManager : ImagePatchManager (MappedModuleIdentified × Option H)) (s : Session F)
    (persistentId : Nat) : Prop where
  /-- an id that was never issued is refused -/
  lock : (∃ what, s.tracker.lockMapping loadLibrary persistentId = .threw what) ∨
    ∃ m h, s.tracker.lockMapping loadLibrary persistentId = .returned (m, h) ∧
      m ∈ replay s.reports ++ s.tracker.lqueue ∧ m.persistentId = persistentId
  metadata : s.tracker.requestModuleMetadata loadLibrary loadImageInfo persistentId ≠ .dereferencedNull
  patches : ∀ functionsRva, s.tracker.requestApplyPatches loadLibrary attempts patchManager persistentId
    functionsRva ≠ .dereferencedNull

section

variable {past : Past F} {s : Session F} {H : Type} (loadLibrary : String → Option H) {p : Nat}

omit [DecidableEq F] in
/-- `lock_mapping` of what is mapped returns the mapping. -/
theorem lockMapping_mapped {t : ModuleTracker F} {m : MappedModuleIdentified}
    (h : t.mappingOf p = some m) : ∃ handle, t.lockMapping loadLibrary p = .returned (m, handle) := by
  unfold mappingOf at h
  obtain ⟨mi, hmi, hmapping⟩ := Option.bind_eq_some_iff.mp h
  refine ⟨loadLibrary mi.path, ?_⟩
  rw [lockMapping, hmi]
  dsimp only
  rw [hmapping]

omit [DecidableEq F] in
/-- `lock_mapping` of what was mapped: the module is in the registry, its mapping is null. -/
theorem lockMapping_unmapped {t : ModuleTracker F} (hknown : p ∈ t.modulesRegistry)
    (h : t.mappingOf p = none) : t.lockMapping loadLibrary p = .dereferencedNull := by
  obtain ⟨mi, hmi⟩ := Option.isSome_iff_exists.mp (AList.lookup_isSome.mpr hknown)
  rw [mappingOf, hmi] at h
  rw [lockMapping, hmi]
  dsimp only
  rw [show mi.mapping = none from h]

omit [DecidableEq F] in
/-- **One id**: never issued, mapped, or dereferenced. -/
theorem Recalled.answers_iff {S : Type} (h : Recalled past s)
    (loadImageInfo : String → Except String (ImageInfo S)) (attempts : Nat → Attempt)
    (patchManager : ImagePatchManager (MappedModuleIdentified × Option H)) :
    Answers loadLibrary loadImageInfo attempts patchManager s p ↔
      (p ∈ s.tracker.modulesRegistry → (s.tracker.mappingOf p).isSome = true) := by
  by_cases hknown : p ∈ s.tracker.modulesRegistry
  · obtain ⟨mi, hmi⟩ := Option.isSome_iff_exists.mp (AList.lookup_isSome.mpr hknown)
    cases hmapping : s.tracker.mappingOf p with
    | none =>
      -- unloaded: the handlers dereference null
      have hnull := lockMapping_unmapped loadLibrary hknown hmapping
      refine iff_of_false (fun hanswers => hanswers.metadata ?_) fun hsome => ?_
      · rw [requestModuleMetadata, hnull]
        rfl
      · exact absurd (hsome hknown) Bool.false_ne_true
    | some m =>
      -- mapped: what is returned is live, or queued to be
      obtain ⟨handle, hlock⟩ := lockMapping_mapped loadLibrary hmapping
      obtain ⟨rfl, _⟩ := h.kept.own p m hmapping
      refine iff_of_true ⟨Or.inr ⟨m, handle, hlock, (h.kept.mirrors m).mpr hmapping, rfl⟩, ?_, ?_⟩
        fun _ => rfl
      · rw [requestModuleMetadata, hlock, Called.bind, getMetadata, hmi]
        dsimp only
        cases loadImageInfo mi.path with
        | error what => simp [Called.bind]
        | ok image => simp [Called.bind]
      · intro functionsRva
        rw [requestApplyPatches, hlock]
        simp [Called.bind]
  · -- never issued, or its hash threw
    have hthrows : s.tracker.lockMapping loadLibrary p = .threw "invalid persistent id" := by
      rw [lockMapping, AList.lookup_eq_none.mpr hknown]
    refine iff_of_true ⟨Or.inl ⟨_, hthrows⟩, ?_, fun functionsRva => ?_⟩ fun h => absurd h hknown
    · rw [requestModuleMetadata, hthrows]
      simp [Called.bind]
    · rw [requestApplyPatches, hthrows]
      simp [Called.bind]

omit [DecidableEq F] in
/-- **One id, as the past says**: what can be asked for is an id that was never issued, or one whose file
    is mapped or could not be read. -/
theorem Recalled.answers_past_iff {S : Type} (h : Recalled past s)
    (loadImageInfo : String → Except String (ImageInfo S)) (attempts : Nat → Attempt)
    (patchManager : ImagePatchManager (MappedModuleIdentified × Option H)) :
    Answers loadLibrary loadImageInfo attempts patchManager s p ↔
      ∀ f, s.tracker.filesRegistry f = some p →
        (past.mapped f).isSome = true ∨ f ∈ past.unread := by
  rw [h.answers_iff loadLibrary]
  constructor
  -- an id without a module is that of a file that was not read
  · intro hmapped f hf
    by_cases hunread : f ∈ past.unread
    · exact Or.inr hunread
    · have hsome := hmapped ((h.recalls.modules f p hf).mpr hunread)
      rw [← h.recalls.mapped_eq hf, Option.isSome_map]
      exact Or.inl hsome
  · intro hall hknown
    obtain ⟨_, f, hf⟩ := h.kept.owned p hknown
    have hsome := (hall f hf).resolve_right ((h.recalls.modules f p hf).mp hknown)
    rwa [← h.recalls.mapped_eq hf, Option.isSome_map] at hsome

end

/-! ## Bases -/

/-- What is live for a file is where the last snapshot has the file. -/
def Bases (s : Session F) : Prop :=
  ∀ mm ∈ s.last, ∀ m ∈ replay s.reports, s.tracker.filesRegistry mm.file = some m.persistentId →
    m.base = mm.base

/-- Each file of the last snapshot has one live instance, which carries the base that the file has
    there; and that is what `lock_mapping` returns. -/
def Based {H : Type} (loadLibrary : String → Option H) (s : Session F) : Prop :=
  ∀ mm ∈ s.last, ∃ m, (m ∈ replay s.reports ∧ s.tracker.filesRegistry mm.file = some m.persistentId) ∧
    (∀ m' ∈ replay s.reports, s.tracker.filesRegistry mm.file = some m'.persistentId → m' = m) ∧
    m.base = mm.base ∧
    ∃ handle, s.tracker.lockMapping loadLibrary m.persistentId = .returned (m, handle)

/-- A file is not mapped, or where the module has it: what the module is to be mapped as is right.
    -/
def Past.Agrees (past : Past F) (mm : MappedModule F) : Prop :=
  past.mapped mm.file = none ∨ past.mapped mm.file = some mm.base

instance (past : Past F) (mm : MappedModule F) : Decidable (past.Agrees mm) :=
  inferInstanceAs (Decidable (_ ∨ _))

/-- No call that returns finds a mapped file at another base.  A call that throws reports nothing,
    so it may. -/
def Settled : Past F → List ((String → Option Nat) × List (MappedModule F)) → Prop
  | _, [] => True
  | past, q :: qs =>
      ((past.enumerate q.1 q.2).2 = true → ∀ mm ∈ q.2, past.Agrees mm) ∧ Settled (past.call q) qs

instance : (past : Past F) → (qs : List ((String → Option Nat) × List (MappedModule F))) →
    Decidable (Settled past qs)
  | _, [] => isTrue trivial
  | past, q :: qs =>
      have := instDecidableSettled (past.call q) qs
      inferInstanceAs (Decidable (_ ∧ _))

section

variable {past : Past F} {s s' : Session F} {q : (String → Option Nat) × List (MappedModule F)}

omit [DecidableEq F] in
/-- What is live is what the past has mapped. -/
theorem Recalled.live_base (h : Recalled past s) {m : MappedModuleIdentified}
    (hm : m ∈ replay s.reports) {f : F} (hf : s.tracker.filesRegistry f = some m.persistentId) :
    past.mapped f = some m.base := by
  rw [← h.recalls.mapped_eq hf, (h.kept.mirrors m).mp (List.mem_append_left _ hm)]
  rfl

omit [DecidableEq F] in
/-- The bases are right if the past has the last snapshot's files where the snapshot has them. -/
theorem Recalled.bases_iff (h : Recalled past s) :
    Bases s ↔ ∀ mm ∈ s.last, past.mapped mm.file = some mm.base := by
  constructor
  · intro hbases mm hmm
    obtain ⟨m, hm, hfile⟩ := h.last mm hmm
    rw [h.live_base hm hfile, hbases mm hmm m hm hfile]
  · intro hall mm hmm m hm hfile
    exact Option.some.inj ((h.live_base hm hfile).symm.trans (hall mm hmm))

omit [DecidableEq F] in
/-- What is live for a file is one instance, which `lock_mapping` returns: only its base may be
    wrong. -/
theorem Recalled.based_iff {H : Type} (loadLibrary : String → Option H) (h : Recalled past s) :
    Based loadLibrary s ↔ Bases s := by
  constructor
  · intro hbased mm hmm m hm hfile
    obtain ⟨m', _, hunique, hbase, _⟩ := hbased mm hmm
    rw [hunique m hm hfile]
    exact hbase
  · intro hbases mm hmm
    obtain ⟨m, hm, hfile⟩ := h.last mm hmm
    have hmapping := (h.kept.mirrors m).mp (List.mem_append_left _ hm)
    refine ⟨m, ⟨hm, hfile⟩, fun m' hm' hfile' => ?_, hbases mm hmm m hm hfile,
      lockMapping_mapped loadLibrary hmapping⟩
    -- one file has one persistent id, and that one mapping
    have hmapping' := (h.kept.mirrors m').mp (List.mem_append_left _ hm')
    rw [Option.some.inj (hfile'.symm.trans hfile), hmapping] at hmapping'
    exact (Option.some.inj hmapping').symm

/-- **One more call**: the bases stay right exactly when it throws, or no mapped file moved. -/
theorem Recalled.bases_call (h : Recalled past s) (hbases : Bases s)
    (honce : (q.2.map MappedModule.file).Nodup) (hs' : s.tryObserve q = some s') :
    Bases s' ↔ ((past.enumerate q.1 q.2).2 = true → ∀ mm ∈ q.2, past.Agrees mm) := by
  obtain ⟨h', hcase⟩ := h.call hs'
  rw [h'.bases_iff, Past.call]
  split at hcase
  · next hwhole =>
    rw [if_pos hwhole, hcase]
    have hmapped : ∀ mm ∈ q.2, ((past.enumerate q.1 q.2).1.sweep q.2).mapped mm.file =
        some ((past.mapped mm.file).getD mm.base) := by
      intro mm hmm
      rw [← Past.enumerate_mapped honce hwhole mm hmm]
      exact if_pos (List.mem_map_of_mem hmm)
    have hagrees : ∀ mm, some ((past.mapped mm.file).getD mm.base) = some mm.base ↔ past.Agrees mm := by
      intro mm
      rw [Past.Agrees]
      cases past.mapped mm.file with
      | none => exact iff_of_true rfl (Or.inl rfl)
      | some b => simp
    constructor
    · intro hall _ mm hmm
      rw [← hagrees, ← hmapped mm hmm]
      exact hall mm hmm
    · intro hall mm hmm
      rw [hmapped mm hmm]
      exact (hagrees mm).mpr (hall hwhole mm hmm)
  · next hthrows =>
    refine iff_of_true (fun mm hmm => ?_) fun hwhole => absurd hwhole hthrows
    rw [if_neg hthrows]
    rw [Session.last, hcase] at hmm
    exact Past.enumerate_keeps (h.bases_iff.mp hbases mm hmm)

end

/-- **A run** has its bases right after every call exactly when no call that returns finds a mapped file
    at another base. -/
theorem Recalled.settled_iff : ∀ (qs : List ((String → Option Nat) × List (MappedModule F)))
    {past : Past F} {s t : Session F}, Recalled past s → Bases s →
    (∀ q ∈ qs, (q.2.map MappedModule.file).Nodup) → Lib.run Session.tryObserve s qs = some t →
    ((∀ before after s', qs = before ++ after →
        Lib.run Session.tryObserve s before = some s' → Bases s') ↔ Settled past qs)
  | [], past, s, t, h, hbases, _, _ => by
    refine iff_of_true (fun before after s' heq hrun => ?_) trivial
    rw [(List.append_eq_nil_iff.mp heq.symm).1] at hrun
    obtain rfl := Option.some.inj hrun
    exact hbases
  | q :: qs, past, s, t, h, hbases, honce, hrun => by
    obtain ⟨s₁, hs₁, hrest⟩ := Lib.run_cons_eq_some.mp hrun
    rw [Settled, ← h.bases_call hbases (honce q List.mem_cons_self) hs₁]
    have ih := fun hbases₁ => Recalled.settled_iff qs (h.call hs₁).1 hbases₁
      (fun q' hq' => honce q' (List.mem_cons_of_mem _ hq')) hrest
    constructor
    · intro hall
      have hbases₁ := hall [q] qs s₁ rfl (Lib.run_cons_eq_some.mpr ⟨s₁, hs₁, rfl⟩)
      refine ⟨hbases₁, (ih hbases₁).mp fun before after s' heq hs' => ?_⟩
      exact hall (q :: before) after s' (by rw [heq, List.cons_append])
        (Lib.run_cons_eq_some.mpr ⟨s₁, hs₁, hs'⟩)
    · rintro ⟨hbases₁, hsettled⟩ before after s' heq hs'
      cases before with
      | nil =>
        obtain rfl := Option.some.inj hs'
        exact hbases
      | cons q₀ before =>
        cases heq
        obtain ⟨s₂, hs₂, hs'⟩ := Lib.run_cons_eq_some.mp hs'
        cases hs₁.symm.trans hs₂
        exact (ih hbases₁).mpr hsettled before after s' rfl hs'

/-- **The tracked mappings are where the files are**, after every call of a run, exactly when no call that
    returns finds a mapped file at another base. -/
theorem based_iff_settled {H : Type} (loadLibrary : String → Option H)
    {qs : List ((String → Option Nat) × List (MappedModule F))} {t : Session F}
    (hrun : Lib.run Session.tryObserve Session.new qs = some t)
    (honce : ∀ q ∈ qs, (q.2.map MappedModule.file).Nodup) :
    (∀ before after s, qs = before ++ after →
      Lib.run Session.tryObserve Session.new before = some s → Based loadLibrary s) ↔
    Settled .new qs := by
  rw [← Recalled.settled_iff qs new_recalled (fun _ hmm => absurd hmm List.not_mem_nil) honce hrun]
  have hiff : ∀ before (s : Session F), Lib.run Session.tryObserve Session.new before = some s →
      (Based loadLibrary s ↔ Bases s) := fun before s hs =>
    (new_recalled.run hs).based_iff loadLibrary
  constructor
  · exact fun hall before after s heq hs => (hiff before s hs).mp (hall before after s heq hs)
  · exact fun hall before after s heq hs => (hiff before s hs).mpr (hall before after s heq hs)

end ModuleTracker

end MicroProfiler
