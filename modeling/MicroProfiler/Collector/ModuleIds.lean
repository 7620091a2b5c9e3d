/-
  The ids of `module_tracker`, as wide as they are: `_next_instance_id` and `_next_persistent_id` are
  of type `unsigned int`.

  1. **The code** — `get_changes` with counters that wrap (`tryGetChanges32`); an id that wrapped may be
     a key of `_modules_registry` already, and `insert` leaves what is there.

  2. **While there is room** (`Recalled.run_narrow`) — as long as the counters have not wrapped the tracker
     does what it would do with unbounded ids.  A module takes one id of either kind at most, and only
     if it is not mapped when a call comes by it (`Past.loaded`).

  3. **Requests and bases** — which ids `lock_mapping` answers (`lock_mapping_total`), and when the tracked
     bases are right (`live_bases_current`).

  4. **Deltas replay to the truth** (`deltas_replay`) — where every file can be read the loads are told from
     the snapshots: a file is loaded when a snapshot has it and the one before had not.

  5. **Without room** (`instance_ids_wrap`) — a module that is loaded and unloaded again and again is
     reported loaded under an id that it had before.
-/
import MicroProfiler.Collector.ModuleMappings
import Mathlib.Algebra.Group.Nat.Defs
import Mathlib.Data.Finset.Card

namespace MicroProfiler

variable {F : Type} [DecidableEq F]

namespace ModuleTracker

/-- How many values an `unsigned int` has. -/
def idCount : Nat := 2 ^ 32

/-! ## The code -/

/-- `register_path`; `_next_persistent_id++` wraps, and an id may be issued to a second file. -/
def tryRegisterPath32 (hash : String → Option Nat) (t : ModuleTracker F) (path : String) (fid : F) :
    ModuleTracker F × Option Nat :=
  match t.filesRegistry fid with
  | some persistentId => (t, some persistentId)
  | none =>
      let persistentId := t.nextPersistentId
      let t := { t with
        nextPersistentId := (persistentId + 1) % idCount
        filesRegistry := Function.update t.filesRegistry fid (some persistentId) }
      match hash path with
      | none => (t, none)
      | some h =>
          -- `insert` does nothing for a key that is there
          ({ t with
              modulesRegistry := if persistentId ∈ t.modulesRegistry then t.modulesRegistry
                else t.modulesRegistry.insert persistentId ⟨path, h, none⟩ },
            some persistentId)

/-- The callback of `get_changes`, for a registered file; `_next_instance_id++` wraps. -/
def visited32 (t : ModuleTracker F) (inSnapshot : List Nat) (p : Nat) (mi : ModuleInfo)
    (mm : MappedModule F) : ModuleTracker F × List Nat :=
  match mi.mapping with
  | some _ => (t, p :: inSnapshot)
  | none =>
      ({ t with
          nextInstanceId := (t.nextInstanceId + 1) % idCount
          modulesRegistry := t.modulesRegistry.insert p
            { mi with mapping := some ⟨t.nextInstanceId, p, mm.path, mm.base, mi.hash⟩ }
          lqueue := t.lqueue ++ [⟨t.nextInstanceId, p, mm.path, mm.base, mi.hash⟩] },
        p :: inSnapshot)

/-- `enumerate_process_modules` with the callback of `get_changes`. -/
def tryEnumerate32 (hash : String → Option Nat) :
    ModuleTracker F × List Nat → List (MappedModule F) → Option (ModuleTracker F × Option (List Nat))
  | s, [] => some (s.1, some s.2)
  | s, mm :: rest =>
      match s.1.tryRegisterPath32 hash mm.path mm.file with
      | (t, none) => some (t, none)
      | (t, some persistentId) =>
          (t.modulesRegistry.lookup persistentId).bind fun mi =>
            tryEnumerate32 hash (visited32 t s.2 persistentId mi mm) rest

/-- `get_changes`: the same loops, over these two. -/
def tryGetChanges32 (hash : String → Option Nat) (t : ModuleTracker F)
    (snapshot : List (MappedModule F)) :
    Option (ModuleTracker F × Option (List MappedModuleIdentified × List Nat)) :=
  match tryEnumerate32 hash (t, []) snapshot with
  | none => none
  | some (t, none) => some (t, none)
  | some (t, some inSnapshot) =>
      let t := t.modulesRegistry.keys.foldl (swept inSnapshot) t
      some ({ t with lqueue := [], uqueue := [] }, some (t.lqueue, t.uqueue))

/-- A call of `get_changes`, with what can be read by then. -/
def Session.tryObserve32 (s : Session F) (q : (String → Option Nat) × List (MappedModule F)) :
    Option (Session F) :=
  match s.tracker.tryGetChanges32 q.1 q.2 with
  | none => none
  | some (t, none) => some ⟨t, s.reports⟩
  | some (t, some r) => some ⟨t, s.reports ++ [⟨q.2, r.1, r.2⟩]⟩

/-- A call of `get_changes` where every file can be read. -/
def Session.observe32 (s : Session F) (q : (String → Nat) × List (MappedModule F)) :
    Option (Session F) :=
  s.tryObserve32 (fun path => some (q.1 path), q.2)

/-! ## Ids issued -/

namespace Past

/-- How many modules a call comes by that are not mapped: those it loads, and the one whose file it
    cannot read.  Each of them takes one id of either kind at most. -/
def loaded (hash : String → Option Nat) : Past F → List (MappedModule F) → Nat
  | _, [] => 0
  | past, mm :: rest =>
      (if (past.mapped mm.file).isSome = true then 0 else 1) +
        if mm.file ∈ past.known ∨ (hash mm.path).isSome = true then
          loaded hash (past.come mm) rest
        else 0

/-- The same, of any calls. -/
def loadedAll : Past F → List ((String → Option Nat) × List (MappedModule F)) → Nat
  | _, [] => 0
  | past, q :: qs => past.loaded q.1 q.2 + loadedAll (past.call q) qs

/-- Fewer calls load fewer modules. -/
theorem loadedAll_append_le : ∀ (before after : List ((String → Option Nat) × List (MappedModule F)))
    (past : Past F), past.loadedAll before ≤ past.loadedAll (before ++ after)
  | [], _, _ => Nat.zero_le _
  | q :: before, after, past =>
    Nat.add_le_add_left (loadedAll_append_le before after (past.call q)) _

end Past

/-- There are `n` ids of either kind left before the counters wrap. -/
structure Room (t : ModuleTracker F) (n : Nat) : Prop where
  instances : t.nextInstanceId + n ≤ idCount
  persistent : t.nextPersistentId + n ≤ idCount

/-- What the counters are in 32 bits.  Everything else is as without a bound. -/
def narrow (t : ModuleTracker F) : ModuleTracker F :=
  { t with
    nextInstanceId := t.nextInstanceId % idCount
    nextPersistentId := t.nextPersistentId % idCount }

/-- Reports do not depend on the counters. -/
def Session.narrow (s : Session F) : Session F := ⟨s.tracker.narrow, s.reports⟩

/-! ## While there is room -/

/-- **A file is registered** under an id that is no key yet, if there is one left for it. -/
theorem tryRegisterPath_narrow (hash : String → Option Nat) {t : ModuleTracker F} (path : String)
    {fid : F} (hfresh : t.nextPersistentId ∉ t.modulesRegistry)
    (hroom : t.filesRegistry fid = none → t.nextPersistentId < idCount) :
    t.narrow.tryRegisterPath32 hash path fid =
      ((t.tryRegisterPath hash path fid).1.narrow, (t.tryRegisterPath hash path fid).2) := by
  rw [tryRegisterPath32, tryRegisterPath]
  have hfiles : t.narrow.filesRegistry = t.filesRegistry := rfl
  rw [hfiles]
  cases hf : t.filesRegistry fid with
  | some p => rfl
  | none =>
    have hnext : t.narrow.nextPersistentId = t.nextPersistentId := Nat.mod_eq_of_lt (hroom hf)
    cases hhash : hash path with
    | none =>
      dsimp only
      rw [hnext]
      rfl
    | some n =>
      dsimp only
      rw [hnext]
      have hfresh' : t.nextPersistentId ∉ t.narrow.modulesRegistry := hfresh
      rw [if_neg hfresh']
      rfl

/-- One id at most is issued for a file, and none for a known one. -/
theorem tryRegisterPath_issues {hash : String → Option Nat} {t t' : ModuleTracker F} {path : String}
    {fid : F} {r : Option Nat} (h : t.tryRegisterPath hash path fid = (t', r)) :
    t'.nextInstanceId = t.nextInstanceId ∧
      (t.filesRegistry fid = none ∨ t'.nextPersistentId = t.nextPersistentId) ∧
      t'.nextPersistentId ≤ t.nextPersistentId + 1 := by
  rw [tryRegisterPath] at h
  cases hf : t.filesRegistry fid with
  | some p =>
    rw [hf] at h
    obtain ⟨rfl, _⟩ := Prod.mk.inj h
    exact ⟨rfl, Or.inr rfl, Nat.le_succ _⟩
  | none =>
    rw [hf] at h
    cases hhash : hash path with
    | none =>
      simp only [hhash] at h
      obtain ⟨rfl, _⟩ := Prod.mk.inj h
      exact ⟨rfl, Or.inl rfl, Nat.le_refl _⟩
    | some n =>
      simp only [hhash] at h
      obtain ⟨rfl, _⟩ := Prod.mk.inj h
      exact ⟨rfl, Or.inl rfl, Nat.le_refl _⟩

omit [DecidableEq F] in
/-- **A module is loaded** under the next id, if there is one left, or is mapped already. -/
theorem visited_narrow {t : ModuleTracker F} {inSnapshot : List Nat} {p : Nat} {mi : ModuleInfo}
    {mm : MappedModule F} (hroom : mi.mapping = none → t.nextInstanceId < idCount) :
    visited32 t.narrow inSnapshot p mi mm =
      ((visited t inSnapshot p mi mm).1.narrow, (visited t inSnapshot p mi mm).2) := by
  rw [visited, visited32]
  cases hmapping : mi.mapping with
  | some m => rfl
  | none =>
    have hnext : t.narrow.nextInstanceId = t.nextInstanceId := Nat.mod_eq_of_lt (hroom hmapping)
    dsimp only
    rw [hnext]
    rfl

omit [DecidableEq F] in
/-- One id is issued for a module that is loaded. -/
theorem visited_issues (t : ModuleTracker F) (inSnapshot : List Nat) (p : Nat) (mi : ModuleInfo)
    (mm : MappedModule F) :
    (visited t inSnapshot p mi mm).1.nextPersistentId = t.nextPersistentId ∧
      (visited t inSnapshot p mi mm).1.nextInstanceId =
        t.nextInstanceId + if mi.mapping.isSome = true then 0 else 1 := by
  rw [visited]
  cases mi.mapping with
  | some m => exact ⟨rfl, rfl⟩
  | none => exact ⟨rfl, rfl⟩

/-- **The first loop** does the same in 32 bits, while there is room for what it loads.  By recursion on
    the snapshot; the invariant of the unbounded loop says that its next id is new. -/
theorem Coming.run_narrow {hash : String → Option Nat} {live : List MappedModuleIdentified} {n : Nat} :
    ∀ {rest seen : List (MappedModule F)} {past : Past F} {s : ModuleTracker F × List Nat},
      Coming past live seen s → Room s.1 (past.loaded hash rest + n) →
      tryEnumerate32 hash (s.1.narrow, s.2) rest =
          (tryEnumerate hash s rest).map (fun r => (r.1.narrow, r.2)) ∧
        ∀ r, tryEnumerate hash s rest = some r → Room r.1 n
  | [], seen, past, s, h, hroom => by
    refine ⟨rfl, fun r hr => ?_⟩
    obtain rfl := Option.some.inj hr
    rw [Past.loaded, Nat.zero_add] at hroom
    exact hroom
  | mm :: rest, seen, past, s, h, hroom => by
    have hfresh : s.1.nextPersistentId ∉ s.1.modulesRegistry := fun hmem =>
      Nat.lt_irrefl _ (h.kept.owned _ hmem).1
    obtain ⟨t, r', hregister, _, hcase⟩ := h.register hash mm
    obtain ⟨hinstance, hknown, hissued⟩ := tryRegisterPath_issues hregister
    obtain ⟨hinstances, hpersistent⟩ := hroom
    rw [Past.loaded] at hinstances hpersistent
    -- a file that is not known is not mapped: it is counted
    have hunmapped : s.1.filesRegistry mm.file = none → ¬(past.mapped mm.file).isSome = true := by
      intro hf
      rw [(h.recalls.not_known hf).2]
      exact Bool.false_ne_true
    have hid : s.1.filesRegistry mm.file = none → s.1.nextPersistentId < idCount := by
      intro hf
      rw [if_neg (hunmapped hf)] at hpersistent
      omega
    have hsame := tryRegisterPath_narrow hash mm.path hfresh hid
    rw [hregister] at hsame
    rw [tryEnumerate32, hsame]
    dsimp only
    split at hcase
    · -- registered, and visited
      next hgoes =>
      obtain ⟨p, rfl, hf, hcoming⟩ := hcase
      rw [if_pos hgoes] at hinstances hpersistent
      rw [tryEnumerate_visits hregister]
      have hmodules : t.narrow.modulesRegistry = t.modulesRegistry := rfl
      dsimp only
      rw [hmodules]
      cases hmi : t.modulesRegistry.lookup p with
      | none => exact ⟨rfl, nofun⟩
      | some mi =>
        rw [Option.bind_some, Option.bind_some]
        have hmapping : mi.mapping.isSome = (past.mapped mm.file).isSome := by
          have hbase := hcoming.recalls.mapped_eq hf
          rw [mappingOf, hmi, Option.bind_some] at hbase
          rw [← Option.isSome_map, hbase]
          rfl
        obtain ⟨hpersistent', hinstance'⟩ := visited_issues t s.2 p mi mm
        rw [hmapping] at hinstance'
        have hleft : mi.mapping = none → t.nextInstanceId < idCount := by
          intro hnone
          rw [← hmapping, hnone, if_neg (by simp)] at hinstances
          omega
        rw [visited_narrow hleft]
        refine (hcoming.visit hf hmi).1.run_narrow ⟨?_, ?_⟩
        · omega
        · rcases hknown with hnew | hold
          · rw [if_neg (hunmapped hnew)] at hpersistent
            omega
          · omega
    · -- the hash throws in both
      next hthrows =>
      obtain ⟨rfl, _⟩ := hcase
      rw [if_neg hthrows] at hinstances hpersistent
      rw [tryEnumerate, hregister]
      refine ⟨rfl, fun r hr => ?_⟩
      obtain rfl := Option.some.inj hr
      refine ⟨?_, ?_⟩
      · dsimp only
        omega
      · dsimp only
        rcases hknown with hnew | hold
        · rw [if_neg (hunmapped hnew)] at hpersistent
          omega
        · omega

omit [DecidableEq F] in
/-- The second loop does not look at the counters. -/
theorem foldl_swept_narrow (inSnapshot : List Nat) : ∀ (keys : List Nat) (t : ModuleTracker F),
    keys.foldl (swept inSnapshot) t.narrow = (keys.foldl (swept inSnapshot) t).narrow
  | [], _ => rfl
  | p :: keys, t => by
    have hstep : t.narrow.swept inSnapshot p = (t.swept inSnapshot p).narrow := by
      have hmodules : t.narrow.modulesRegistry = t.modulesRegistry := rfl
      rw [swept, swept, hmodules]
      split
      · rfl
      · split
        · rfl
        · split
          · rfl
          · rfl
    rw [List.foldl_cons, List.foldl_cons, hstep, foldl_swept_narrow inSnapshot keys]

omit [DecidableEq F] in
/-- Nor does it issue any. -/
theorem foldl_swept_counts (inSnapshot : List Nat) : ∀ (keys : List Nat) (t : ModuleTracker F),
    (keys.foldl (swept inSnapshot) t).nextInstanceId = t.nextInstanceId ∧
      (keys.foldl (swept inSnapshot) t).nextPersistentId = t.nextPersistentId
  | [], _ => ⟨rfl, rfl⟩
  | p :: keys, t => by
    rw [List.foldl_cons, (foldl_swept_counts inSnapshot keys _).1,
      (foldl_swept_counts inSnapshot keys _).2]
    unfold swept
    split
    · exact ⟨rfl, rfl⟩
    · split
      · exact ⟨rfl, rfl⟩
      · split
        · exact ⟨rfl, rfl⟩
        · exact ⟨rfl, rfl⟩

/-- **A call** does the same in 32 bits, while there is room for what it loads. -/
theorem Recalled.tryObserve_narrow {past : Past F} {s : Session F}
    {q : (String → Option Nat) × List (MappedModule F)} {n : Nat} (h : Recalled past s)
    (hroom : Room s.tracker (past.loaded q.1 q.2 + n)) :
    s.narrow.tryObserve32 q = (s.tryObserve q).map Session.narrow ∧
      ∀ s', s.tryObserve q = some s' → Room s'.tracker n := by
  obtain ⟨hsame, hleft⟩ := h.coming.run_narrow hroom
  have hsame : tryEnumerate32 q.1 (s.narrow.tracker, []) q.2 = _ := hsame
  unfold Session.tryObserve32 tryGetChanges32 Session.tryObserve tryGetChanges
  rw [hsame]
  cases hrun : tryEnumerate q.1 (s.tracker, []) q.2 with
  | none => exact ⟨rfl, nofun⟩
  | some r =>
    have hleft := hleft r hrun
    obtain ⟨t, outcome⟩ := r
    cases outcome with
    | none =>
      -- it throws: the sweep is skipped in both
      refine ⟨rfl, fun s' hs' => ?_⟩
      obtain rfl := Option.some.inj hs'
      exact hleft
    | some inSnapshot =>
      -- it returns: both sweep, and that issues no ids
      have hkeys : t.narrow.modulesRegistry.keys = t.modulesRegistry.keys := rfl
      refine ⟨?_, fun s' hs' => ?_⟩
      · rw [Option.map_some]
        dsimp only
        rw [hkeys, foldl_swept_narrow]
        rfl
      · obtain rfl := Option.some.inj hs'
        obtain ⟨hinstances, hpersistent⟩ := foldl_swept_counts inSnapshot t.modulesRegistry.keys t
        exact ⟨hinstances ▸ hleft.instances, hpersistent ▸ hleft.persistent⟩

/-- **Any calls** do.  By recursion on them. -/
theorem Recalled.run_narrow : ∀ {qs : List ((String → Option Nat) × List (MappedModule F))}
    {past : Past F} {s : Session F}, Recalled past s → Room s.tracker (past.loadedAll qs) →
      Lib.run Session.tryObserve32 s.narrow qs =
        (Lib.run Session.tryObserve s qs).map Session.narrow
  | [], _, _, _, _ => rfl
  | q :: qs, past, s, h, hroom => by
    obtain ⟨hsame, hleft⟩ := h.tryObserve_narrow hroom
    rw [Lib.run_cons, Lib.run_cons, hsame]
    cases hs₁ : s.tryObserve q with
    | none => rfl
    | some s₁ => exact (h.call hs₁).1.run_narrow (hleft s₁ hs₁)

omit [DecidableEq F] in
/-- There is room at first for fewer than `idCount` modules; the persistent ids begin at 1. -/
theorem new_room {n : Nat} (h : n < idCount) : Room (Session.new : Session F).tracker n := by
  have hinstances : (Session.new : Session F).tracker.nextInstanceId = 0 := rfl
  have hpersistent : (Session.new : Session F).tracker.nextPersistentId = 1 := rfl
  exact ⟨by omega, by omega⟩

/-- What calls that load fewer than `idCount` modules come to in 32 bits, they come to without a bound. -/
theorem new_run_narrow {qs : List ((String → Option Nat) × List (MappedModule F))}
    (hloaded : Past.new.loadedAll qs < idCount) :
    Lib.run Session.tryObserve32 Session.new qs =
      (Lib.run Session.tryObserve Session.new qs).map Session.narrow := by
  have hnew : (Session.new : Session F).narrow = Session.new := rfl
  rw [← hnew]
  exact new_recalled.run_narrow (new_room hloaded)

/-! ## Requests and bases -/

/-- A module that was loaded and unloaded is dereferenced, by either handler. -/
theorem lock_mapping_unloaded :
    ∃ s : Session Nat, Lib.run Session.tryObserve32 Session.new
        [(fun _ => some 7, [moduleAt 1000]), (fun _ => some 7, [])] = some s ∧
      s.tracker.lockMapping (fun _ => some ()) 1 = .dereferencedNull ∧
      s.tracker.requestModuleMetadata (fun _ => some ()) (fun _ => .ok (⟨[()], []⟩ : ImageInfo Unit)) 1 =
        .dereferencedNull ∧
      s.tracker.requestApplyPatches (fun _ => some ()) (fun _ => ⟨.returns, .returns⟩) .new 1 [5] =
        .dereferencedNull :=
  ⟨_, rfl, rfl, rfl, rfl⟩

/-- **`lock_mapping` is total** on an id, after any calls of `get_changes`, whether they returned or
    threw, exactly when the file it was issued for, if there is one, is mapped or could not be read;
    as long as there are ids. -/
theorem lock_mapping_total {H S : Type} (loadLibrary : String → Option H)
    (loadImageInfo : String → Except String (ImageInfo S)) (attempts : Nat → Attempt)
    (patchManager : ImagePatchManager (MappedModuleIdentified × Option H))
    (qs : List ((String → Option Nat) × List (MappedModule F)))
    (hloaded : Past.new.loadedAll qs < idCount) (s : Session F)
    (hrun : Lib.run Session.tryObserve32 Session.new qs = some s) (p : Nat) :
    Answers loadLibrary loadImageInfo attempts patchManager s p ↔
      ∀ f, s.tracker.filesRegistry f = some p →
        ((Past.after qs).mapped f).isSome = true ∨ f ∈ (Past.after qs).unread := by
  rw [new_run_narrow hloaded] at hrun
  obtain ⟨s', hs', rfl⟩ := Option.map_eq_some_iff.mp hrun
  have h : Recalled (Past.after qs) s' := new_recalled.run hs'
  have hanswers : Answers loadLibrary loadImageInfo attempts patchManager s'.narrow p ↔
      Answers loadLibrary loadImageInfo attempts patchManager s' p :=
    -- neither the registry nor the reports change with the counters
    ⟨fun h => ⟨h.lock, h.metadata, h.patches⟩, fun h => ⟨h.lock, h.metadata, h.patches⟩⟩
  exact hanswers.trans (h.answers_past_iff loadLibrary loadImageInfo attempts patchManager)

/-- A module that is unloaded when a call throws stays mapped, and its id is answered. -/
theorem lock_mapping_total_thrown :
    let qs : List ((String → Option Nat) × List (MappedModule Nat)) :=
      [(fun _ => some 7, [moduleAt 1000]), (fun _ => none, [⟨"unreadable", 2, 5000⟩])]
    ∃ s, Lib.run Session.tryObserve32 Session.new qs = some s ∧
      Answers (fun _ => some ()) (fun _ => .ok (⟨[()], []⟩ : ImageInfo Unit))
        (fun _ => ⟨.returns, .returns⟩) .new s 1 := by
  intro qs
  refine ⟨_, rfl, (lock_mapping_total _ _ _ _ qs (by decide) _ rfl 1).mpr fun f hf => ?_⟩
  -- the id was issued for one file
  have hf : Function.update (Function.update (fun _ => none) 1 (some 1)) 2 (some 2) f = some 1 := hf
  rw [Function.update_apply, Function.update_apply] at hf
  split_ifs at hf with hsecond hfirst
  · cases hf
  · rw [hfirst]
    exact Or.inl rfl

/-- A file that moved between two snapshots is still reported where it was. -/
theorem live_base_stale :
    ∃ s : Session Nat, Lib.run Session.tryObserve32 Session.new
        [(fun _ => some 7, [moduleAt 1000]), (fun _ => some 7, [moduleAt 2000])] = some s ∧
      replay s.reports = [⟨0, 1, "module", 1000, 7⟩] ∧
      s.tracker.lockMapping (fun _ => some ()) 1 = .returned (⟨0, 1, "module", 1000, 7⟩, some ()) ∧
      ¬ Based (fun _ => some ()) s := by
  refine ⟨_, rfl, rfl, rfl, fun hbased => ?_⟩
  obtain ⟨m, ⟨hm, _⟩, _, hbase, _⟩ := hbased (moduleAt 2000) (List.mem_singleton.mpr rfl)
  rw [show m = ⟨0, 1, "module", 1000, 7⟩ from List.mem_singleton.mp hm] at hbase
  exact absurd hbase (by decide)

/-- **Tracked mappings have the current base**, after every call of a run, whether it returned or threw,
    exactly when no call that returns finds a mapped file at another base; as long as there are ids. -/
theorem live_bases_current {H : Type} (loadLibrary : String → Option H)
    (qs : List ((String → Option Nat) × List (MappedModule F)))
    (hloaded : Past.new.loadedAll qs < idCount) (t : Session F)
    (hrun : Lib.run Session.tryObserve32 Session.new qs = some t)
    (honce : ∀ q ∈ qs, (q.2.map MappedModule.file).Nodup) :
    (∀ before after s, qs = before ++ after →
      Lib.run Session.tryObserve32 Session.new before = some s → Based loadLibrary s) ↔
    Settled .new qs := by
  rw [new_run_narrow hloaded] at hrun
  obtain ⟨t', ht', rfl⟩ := Option.map_eq_some_iff.mp hrun
  rw [← based_iff_settled loadLibrary ht' honce]
  -- the calls before any point load no more than all of them
  have hbefore : ∀ before after : List ((String → Option Nat) × List (MappedModule F)),
      qs = before ++ after → Lib.run Session.tryObserve32 Session.new before =
        (Lib.run Session.tryObserve Session.new before).map Session.narrow := fun before after heq =>
    new_run_narrow (Nat.lt_of_le_of_lt (Past.loadedAll_append_le before after .new) (heq ▸ hloaded))
  constructor
  · intro hall before after s heq hs
    have hbased := hall before after s.narrow heq (by rw [hbefore before after heq, hs, Option.map_some])
    exact hbased
  · intro hall before after s heq hs
    rw [hbefore before after heq] at hs
    obtain ⟨s', hs', rfl⟩ := Option.map_eq_some_iff.mp hs
    have hbased := hall before after s' heq hs'
    exact hbased

/-- A file that is away for one snapshot comes back where it is; a call that throws in between, after it
    came by the file, changes nothing. -/
theorem live_bases_current_reloaded :
    let qs : List ((String → Option Nat) × List (MappedModule Nat)) :=
      [(fun _ => some 7, [moduleAt 1000]), (fun _ => none, [moduleAt 1000, ⟨"unreadable", 2, 5000⟩]),
        (fun _ => some 7, []), (fun _ => some 7, [moduleAt 2000])]
    ∃ s, Lib.run Session.tryObserve32 Session.new qs = some s ∧ Based (fun _ => some ()) s := by
  intro qs
  refine ⟨_, rfl, (live_bases_current (fun _ => some ()) qs (by decide) _ rfl ?_).mpr ?_ qs [] _
    (List.append_nil _).symm rfl⟩
  · decide
  · decide

/-! ## Loads -/

/-- The files of a snapshot that the last one did not have: these are the modules loaded by then. -/
def appeared (last snapshot : List (MappedModule F)) : List F :=
  (snapshot.map MappedModule.file).dedup.filter fun f => f ∉ last.map MappedModule.file

/-- How many modules are loaded in all.  Told from the snapshots alone. -/
def loads : List (MappedModule F) → List (List (MappedModule F)) → Nat
  | _, [] => 0
  | last, snapshot :: rest => (appeared last snapshot).length + loads snapshot rest

namespace Past

/-- What is mapped after one more module. -/
theorem come_mapped (past : Past F) (mm : MappedModule F) (f : F) :
    ((past.come mm).mapped f).isSome = true ↔ f = mm.file ∨ (past.mapped f).isSome = true := by
  show (Function.update past.mapped mm.file _ f).isSome = true ↔ _
  by_cases heq : f = mm.file
  · subst heq
    rw [Function.update_self]
    exact iff_of_true rfl (Or.inl rfl)
  · rw [Function.update_of_ne heq]
    exact (or_iff_right heq).symm

/-- **Where every file can be read, the files that are not mapped are loaded**, each once however often
    it stands in the snapshot. -/
theorem loaded_readable (hash : String → Nat) : ∀ (snapshot : List (MappedModule F)) (past : Past F),
    past.loaded (fun path => some (hash path)) snapshot =
      ((snapshot.map MappedModule.file).toFinset.filter
        fun f => ¬(past.mapped f).isSome = true).card
  | [], _ => rfl
  | mm :: rest, past => by
    have hgoes : mm.file ∈ past.known ∨ (some (hash mm.path)).isSome = true := Or.inr rfl
    rw [loaded, if_pos hgoes, loaded_readable hash rest, List.map_cons, List.toFinset_cons,
      Finset.filter_insert]
    simp only [come_mapped, not_or]
    by_cases hmapped : (past.mapped mm.file).isSome = true
    · -- mapped already: it is none of those counted
      rw [if_pos hmapped, if_neg (not_not.mpr hmapped), Nat.zero_add]
      congr 1
      refine Finset.filter_congr fun f _ => and_iff_right_of_imp ?_
      rintro hunmapped rfl
      exact hunmapped hmapped
    · -- loaded: it is counted here, and not again
      rw [if_neg hmapped, if_pos hmapped, Nat.add_comm, ← Finset.card_insert_of_notMem
        (fun hmem => (Finset.mem_filter.mp hmem).2.1 rfl)]
      congr 1
      ext f
      by_cases heq : f = mm.file
      · simp [heq]
      · simp [heq]

/-- A whole snapshot is mapped. -/
theorem enumerate_readable (hash : String → Nat) : ∀ (snapshot : List (MappedModule F)) (past : Past F),
    (past.enumerate (fun path => some (hash path)) snapshot).2 = true ∧
      ∀ f ∈ snapshot.map MappedModule.file,
        ((past.enumerate (fun path => some (hash path)) snapshot).1.mapped f).isSome = true
  | [], _ => ⟨rfl, nofun⟩
  | mm :: rest, past => by
    have hgoes : mm.file ∈ past.known ∨ (some (hash mm.path)).isSome = true := Or.inr rfl
    rw [enumerate, if_pos hgoes]
    obtain ⟨hwhole, hrest⟩ := enumerate_readable hash rest (past.come mm)
    refine ⟨hwhole, fun f hf => ?_⟩
    rcases List.mem_cons.mp hf with rfl | hf
    · obtain ⟨b, hb⟩ := Option.isSome_iff_exists.mp ((come_mapped past mm mm.file).mpr (Or.inl rfl))
      rw [enumerate_keeps hb]
      rfl
    · exact hrest f hf

/-- **What is mapped after a call** that reads every file are the files of its snapshot. -/
theorem call_readable (past : Past F) (hash : String → Nat) (snapshot : List (MappedModule F)) (f : F) :
    ((past.call (fun path => some (hash path), snapshot)).mapped f).isSome = true ↔
      f ∈ snapshot.map MappedModule.file := by
  obtain ⟨hwhole, hmapped⟩ := enumerate_readable hash snapshot past
  rw [call, if_pos hwhole, sweep]
  dsimp only
  split
  · next hin => exact iff_of_true (hmapped f hin) hin
  · next hout => exact iff_of_false Bool.false_ne_true hout

/-- **The snapshots tell the loads.**  By recursion on them: what is mapped before each are the files of
    the one before. -/
theorem loadedAll_readable : ∀ (qs : List ((String → Nat) × List (MappedModule F))) (past : Past F)
    (last : List (MappedModule F)),
    (∀ f, (past.mapped f).isSome = true ↔ f ∈ last.map MappedModule.file) →
      past.loadedAll (qs.map fun q => (fun path => some (q.1 path), q.2)) = loads last (qs.map Prod.snd)
  | [], _, _, _ => rfl
  | q :: qs, past, last, hlast => by
    rw [List.map_cons, List.map_cons, loadedAll, loads, loaded_readable,
      loadedAll_readable qs _ q.2 (call_readable past q.1 q.2)]
    congr 1
    have hnodup : (appeared last q.2).Nodup := (List.nodup_dedup _).filter _
    rw [← List.toFinset_card_of_nodup hnodup]
    congr 1
    ext f
    simp only [appeared, Finset.mem_filter, List.mem_toFinset, List.mem_filter, List.mem_dedup, hlast,
      decide_eq_true_iff]

end Past

/-! ## Replay -/

/-- Where every file can be read, nothing throws. -/
theorem tryEnumerate_total (hash : String → Nat) : ∀ (rest : List (MappedModule F))
    (s : ModuleTracker F × List Nat), tryEnumerate (fun path => some (hash path)) s rest =
      (Lib.run (enumerated hash) s rest).map fun s' => (s'.1, some s'.2)
  | [], _ => rfl
  | mm :: rest, s => by
    rw [tryEnumerate_readable rest (Or.inr rfl), Lib.run_cons, Option.map_bind]
    exact Option.bind_congr fun s' _ => tryEnumerate_total hash rest s'

/-- A call that reads every file is one that may throw, and does not. -/
theorem observe_try {s s' : Session F} {q : (String → Nat) × List (MappedModule F)}
    (h : s.observe q = some s') : s.tryObserve (fun path => some (q.1 path), q.2) = some s' := by
  obtain ⟨r, hr, rfl⟩ := Option.map_eq_some_iff.mp h
  obtain ⟨t, ht, rfl⟩ := Option.map_eq_some_iff.mp hr
  rw [Session.tryObserve, tryGetChanges, tryEnumerate_total, ht]
  rfl

/-- The same, of any calls. -/
theorem observe_try_run : ∀ {qs : List ((String → Nat) × List (MappedModule F))} {s s' : Session F},
    Lib.run Session.observe s qs = some s' →
      Lib.run Session.tryObserve s (qs.map fun q => (fun path => some (q.1 path), q.2)) = some s'
  | [], _, _, h => h
  | q :: qs, s, s', h => by
    obtain ⟨s₁, hs₁, hrest⟩ := Lib.run_cons_eq_some.mp h
    exact Lib.run_cons_eq_some.mpr ⟨s₁, observe_try hs₁, observe_try_run hrest⟩

/-- **Snapshots are observed** in 32 bits as they are without a bound, while there are fewer loads than
    ids. -/
theorem new_observe32 {qs : List ((String → Nat) × List (MappedModule F))} {s : Session F}
    (hloads : loads [] (qs.map Prod.snd) < idCount)
    (hrun : Lib.run Session.observe Session.new qs = some s) :
    Lib.run Session.observe32 Session.new qs = some s.narrow := by
  have hloaded := Past.loadedAll_readable qs (.new : Past F) [] fun _ =>
    iff_of_false Bool.false_ne_true List.not_mem_nil
  have hreadable : Lib.run Session.observe32 (Session.new : Session F) qs = _ :=
    Lib.run_map Session.tryObserve32
      (fun q : (String → Nat) × List (MappedModule F) => (fun path => some (q.1 path), q.2)) qs _
  rw [hreadable, new_run_narrow (hloaded ▸ hloads), observe_try_run hrun]
  rfl

omit [DecidableEq F] in
/-- What is said of the reports does not depend on the counters. -/
theorem Truthful.narrow {s : Session F} (h : Truthful s) : Truthful s.narrow :=
  ⟨h.live, h.onlyLive, h.liveOnce, h.neverReused, h.unloadedOnce, h.wasLive, h.origin, h.identifies⟩

/-- **Deltas replay to the truth**: after any snapshots with fewer than `idCount` loads the session
    is `Truthful`, and whatever snapshots follow, as long as that holds of all of them every file
    keeps its persistent id. -/
theorem deltas_replay (qs : List ((String → Nat) × List (MappedModule F)))
    (hloads : loads [] (qs.map Prod.snd) < idCount) :
    ∃ s : Session F, Lib.run Session.observe32 Session.new qs = some s ∧
      s.reports.map Report.snapshot = qs.map Prod.snd ∧ Truthful s ∧
      ∀ qs', loads [] ((qs ++ qs').map Prod.snd) < idCount →
        ∃ s', Lib.run Session.observe32 s qs' = some s' ∧
          ∀ f p, s.tracker.filesRegistry f = some p → s'.tracker.filesRegistry f = some p := by
  obtain ⟨s, hs, h, _, hreports⟩ := Mirrors.run qs (Session.new : Session F) new_mirrors
  have hnarrow := new_observe32 hloads hs
  refine ⟨s.narrow, hnarrow, hreports, h.toTruthful.narrow, fun qs' hloads' => ?_⟩
  obtain ⟨s', hs', _, hext, _⟩ := Mirrors.run qs' s h
  -- the two stretches are one run
  have hall : Lib.run Session.observe32 Session.new (qs ++ qs') = some s'.narrow := by
    refine new_observe32 hloads' ?_
    rw [Lib.run_append, hs]
    exact hs'
  rw [Lib.run_append, hnarrow] at hall
  exact ⟨s'.narrow, hall, hext⟩

/-- A library is loaded, another next to it, the first is unloaded and loaded again elsewhere. -/
theorem deltas_replay_reloaded :
    ∃ s : Session Nat, Lib.run Session.observe32 Session.new
        [(fun _ => 7, [⟨"a", 1, 4096⟩]), (fun _ => 7, [⟨"a", 1, 4096⟩, ⟨"b", 2, 8192⟩]),
          (fun _ => 7, [⟨"b", 2, 8192⟩])] = some s ∧
      Truthful s ∧ ∃ s', Lib.run Session.observe32 s [(fun _ => 7, [⟨"a", 1, 12288⟩])] = some s' ∧
        ∀ f p, s.tracker.filesRegistry f = some p → s'.tracker.filesRegistry f = some p := by
  obtain ⟨s, hrun, _, htruthful, hlater⟩ := deltas_replay
    [(fun _ => 7, [(⟨"a", 1, 4096⟩ : MappedModule Nat)]),
      (fun _ => 7, [⟨"a", 1, 4096⟩, ⟨"b", 2, 8192⟩]), (fun _ => 7, [⟨"b", 2, 8192⟩])] (by decide)
  exact ⟨s, hrun, htruthful, hlater _ (by decide)⟩

/-! ## Without room -/

/-- One module is loaded and unloaded, again and again. -/
def churn : Nat → List ((String → Nat) × List (MappedModule Nat))
  | 0 => []
  | k + 1 => (fun _ => 7, [⟨"module", 1, 4096⟩]) :: (fun _ => 7, []) :: churn k

/-- It was loaded and unloaded `k` times. -/
structure Churned (k : Nat) (s : Session Nat) : Prop where
  /-- the module is the first, under the persistent id 1 -/
  file : s.tracker.filesRegistry 1 = some 1
  module : s.tracker.modulesRegistry.lookup 1 = some ⟨"module", 7, none⟩
  keys : s.tracker.modulesRegistry.keys = [1]
  lqueue : s.tracker.lqueue = []
  uqueue : s.tracker.uqueue = []
  /-- the next instance id, in 32 bits -/
  next : s.tracker.nextInstanceId = k % idCount
  /-- the ids it was loaded under, one after the other -/
  loaded : loadedIds s.reports = (List.range k).map fun i => i % idCount

/-- The module while it is loaded under the id `i`. -/
def churning (i : Nat) : MappedModuleIdentified := ⟨i, 1, "module", 4096, 7⟩

/-- **Once more**: it is loaded under the next id, and unloaded. -/
theorem Churned.again {k : Nat} {s : Session Nat} (h : Churned k s) :
    ∃ s', Lib.run Session.observe32 s (churn 1) = some s' ∧ Churned (k + 1) s' := by
  obtain ⟨⟨files, modules, lqueue, uqueue, next, persistent⟩, reports⟩ := s
  obtain ⟨hfile, hmodule, hkeys, hlqueue, huqueue, hnext, hloaded⟩ := h
  dsimp only at hfile hmodule hkeys hlqueue huqueue hnext hloaded
  subst hlqueue huqueue hnext
  have hloads : Session.observe32 ⟨⟨files, modules, [], [], k % idCount, persistent⟩, reports⟩
      (fun _ => 7, [⟨"module", 1, 4096⟩]) =
      some ⟨⟨files, modules.insert 1 ⟨"module", 7, some (churning (k % idCount))⟩, [], [],
        (k % idCount + 1) % idCount, persistent⟩,
        reports ++ [⟨[⟨"module", 1, 4096⟩], [churning (k % idCount)], []⟩]⟩ := by
    simp [Session.observe32, Session.tryObserve32, tryGetChanges32, tryEnumerate32, tryRegisterPath32,
      visited32, swept, hfile, hmodule, hkeys, churning]
  have hunloads : Session.observe32
      ⟨⟨files, modules.insert 1 ⟨"module", 7, some (churning (k % idCount))⟩, [], [],
        (k % idCount + 1) % idCount, persistent⟩,
        reports ++ [⟨[⟨"module", 1, 4096⟩], [churning (k % idCount)], []⟩]⟩ (fun _ => 7, []) =
      some ⟨⟨files, modules.insert 1 ⟨"module", 7, none⟩, [], [], (k % idCount + 1) % idCount,
        persistent⟩, reports ++ [⟨[⟨"module", 1, 4096⟩], [churning (k % idCount)], []⟩] ++
          [⟨[], [], [k % idCount]⟩]⟩ := by
    simp [Session.observe32, Session.tryObserve32, tryGetChanges32, tryEnumerate32, swept, hkeys,
      churning]
  refine ⟨_, Lib.run_cons_eq_some.mpr ⟨_, hloads, Lib.run_cons_eq_some.mpr ⟨_, hunloads, rfl⟩⟩,
    hfile, AList.lookup_insert _, ?_, rfl, rfl, ?_, ?_⟩
  · show (modules.insert 1 _).keys = [1]
    rw [AList.keys_insert, hkeys]
    rfl
  · exact Nat.mod_add_mod k idCount 1
  · show loadedIds _ = _
    rw [loadedIds_append, loadedIds_append, hloaded, List.range_succ, List.map_append, List.map_nil,
      List.append_nil]
    rfl

/-- One round, and the others. -/
theorem churn_succ (n : Nat) : churn (n + 1) = churn 1 ++ churn n := rfl

/-- **Round after round**, by recursion on their number. -/
theorem Churned.run : ∀ (n : Nat) {k : Nat} {s : Session Nat}, Churned k s →
    ∃ s', Lib.run Session.observe32 s (churn n) = some s' ∧ Churned (k + n) s'
  | 0, _, s, h => ⟨s, rfl, h⟩
  | n + 1, k, s, h => by
    obtain ⟨s₁, hs₁, h₁⟩ := h.again
    obtain ⟨s', hs', h'⟩ := h₁.run n
    refine ⟨s', ?_, by rwa [Nat.add_right_comm k 1 n] at h'⟩
    rw [churn_succ, Lib.run_append, hs₁]
    exact hs'

/-- The first time it is registered as well. -/
theorem new_churned (n : Nat) :
    ∃ s, Lib.run Session.observe32 Session.new (churn (n + 1)) = some s ∧ Churned (1 + n) s := by
  have hfirst : ∃ s, Lib.run Session.observe32 Session.new (churn 1) = some s ∧ Churned 1 s :=
    ⟨_, rfl, rfl, rfl, rfl, rfl, rfl, rfl, rfl⟩
  obtain ⟨s₁, hs₁, h₁⟩ := hfirst
  obtain ⟨s', hs', h'⟩ := h₁.run n
  refine ⟨s', ?_, h'⟩
  rw [churn_succ, Lib.run_append, hs₁]
  exact hs'

/-- **An instance id is reused**: the module is reported loaded under the id `0` twice, the second
    time after `idCount` rounds. -/
theorem instance_ids_wrap :
    ∃ s, Lib.run Session.observe32 Session.new (churn (idCount + 1)) = some s ∧
      ¬(loadedIds s.reports).Nodup := by
  obtain ⟨s, hs, h⟩ := new_churned idCount
  refine ⟨s, hs, fun hnodup => ?_⟩
  rw [h.loaded] at hnodup
  have hzero : 0 = idCount := List.inj_on_of_nodup_map hnodup
    (List.mem_range.mpr (by omega)) (List.mem_range.mpr (by omega)) (Nat.mod_self idCount).symm
  exact absurd hzero (by decide)

end ModuleTracker

end MicroProfiler
