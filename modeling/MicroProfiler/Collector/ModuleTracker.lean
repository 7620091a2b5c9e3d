/-
  `collector/module_tracker.h`, `module_tracker.cpp`: which modules came and went between snapshots.

  1. **The code** — `registerPath` gives a file its persistent id, `getChanges` compares a snapshot
     of the loaded modules with the mappings kept for each persistent id, and reports the difference
     under fresh instance ids.  A `MappedModule` carries what `file_id(path)` gave at that moment:
     two paths may name one file, and one path different files as time goes by.

  2. **Replay** — what a listener holds who adds what was reported loaded and drops what was
     reported unloaded (`replay`).  The INVARIANT (`Mirrors`) is that the listener's live
     instances are the registry's mappings.

  3. **Any snapshots** (`Mirrors.run`) — the reports stay `Truthful`, with counters that never wrap;
     those of the code do, which is the subject of `ModuleIds`.
-/
import MicroProfiler.Lib.Keys
import MicroProfiler.Lib.Runs
import Mathlib.Data.List.AList
import Mathlib.Data.List.Induction

namespace MicroProfiler

variable {F : Type} [DecidableEq F]

/-- `struct mapped_module`, with the `file_id` of its path. -/
structure MappedModule (F : Type) where
  path : String
  file : F
  base : Nat
deriving DecidableEq, Repr

/-- `mapped_module_identified`: an instance id and a `mapped_module_ex`. -/
structure MappedModuleIdentified where
  instanceId : Nat
  persistentId : Nat
  path : String
  base : Nat
  hash : Nat
deriving DecidableEq, Repr

/-- `module_tracker::module_info`. -/
structure ModuleInfo where
  path : String
  hash : Nat
  mapping : Option MappedModuleIdentified

/-- `class module_tracker`: the two registries, what is to be reported, and the two counters. -/
structure ModuleTracker (F : Type) where
  filesRegistry : F → Option Nat
  modulesRegistry : AList fun _ : Nat => ModuleInfo
  lqueue : List MappedModuleIdentified
  uqueue : List Nat
  nextInstanceId : Nat
  nextPersistentId : Nat

namespace ModuleTracker

def new : ModuleTracker F := ⟨fun _ => none, ∅, [], [], 0, 1⟩

/-- `register_path`; `hash` is `calculate_hash`. -/
def registerPath (hash : String → Nat) (t : ModuleTracker F) (path : String) (fid : F) :
    ModuleTracker F × Nat :=
  match t.filesRegistry fid with
  -- the file is known, under this path or another
  | some persistentId => (t, persistentId)
  | none =>
      let persistentId := t.nextPersistentId
      ({ t with
          nextPersistentId := persistentId + 1
          filesRegistry := Function.update t.filesRegistry fid (some persistentId)
          modulesRegistry := t.modulesRegistry.insert persistentId ⟨path, hash path, none⟩ },
        persistentId)

/-- The callback of `enumerate_process_modules`; `none` would be a dereferenced `end()`. -/
def enumerated (hash : String → Nat) (s : ModuleTracker F × List Nat) (mm : MappedModule F) :
    Option (ModuleTracker F × List Nat) :=
  let r := s.1.registerPath hash mm.path mm.file
  (r.1.modulesRegistry.lookup r.2).map fun mi =>
    match mi.mapping with
    -- a second path of a mapped file, or the file from the snapshot before
    | some _ => (r.1, r.2 :: s.2)
    | none =>
        -- a new mapping, under an instance id of its own
        let mmi : MappedModuleIdentified :=
          ⟨r.1.nextInstanceId, r.2, mm.path, mm.base, mi.hash⟩
        ({ r.1 with
            nextInstanceId := r.1.nextInstanceId + 1
            modulesRegistry := r.1.modulesRegistry.insert r.2 { mi with mapping := some mmi }
            lqueue := r.1.lqueue ++ [mmi] },
          r.2 :: s.2)

/-- The body of the second loop of `get_changes`: a mapping that no path of the snapshot has named
    is reported and forgotten. -/
def swept (inSnapshot : List Nat) (t : ModuleTracker F) (persistentId : Nat) : ModuleTracker F :=
  match t.modulesRegistry.lookup persistentId with
  | none => t
  | some mi =>
      match mi.mapping with
      | none => t
      | some mmi =>
          if persistentId ∈ inSnapshot then t
          else
            { t with
              uqueue := t.uqueue ++ [mmi.instanceId]
              modulesRegistry := t.modulesRegistry.insert persistentId { mi with mapping := none } }

/-- `get_changes`: the tracker, what it reports loaded, and what it reports unloaded. -/
def getChanges (hash : String → Nat) (t : ModuleTracker F) (snapshot : List (MappedModule F)) :
    Option (ModuleTracker F × List MappedModuleIdentified × List Nat) :=
  (Lib.run (enumerated hash) (t, []) snapshot).map fun s =>
    let t := s.1.modulesRegistry.keys.foldl (swept s.2) s.1
    ({ t with lqueue := [], uqueue := [] }, t.lqueue, t.uqueue)

/-- The mapping kept for a persistent id. -/
def mappingOf (t : ModuleTracker F) (persistentId : Nat) : Option MappedModuleIdentified :=
  (t.modulesRegistry.lookup persistentId).bind ModuleInfo.mapping

/-! ## What the registries keep, against a listener's live instances -/

/-- The registries against the instances that are live for a listener, or about to be.  It is what
    holds between any two statements of the code, in the middle of a call too. -/
structure Kept (t : ModuleTracker F) (live : List MappedModuleIdentified) : Prop where
  /-- ids are given out in order -/
  below : ∀ f p, t.filesRegistry f = some p → p < t.nextPersistentId
  /-- a module belongs to a file -/
  owned : ∀ p, p ∈ t.modulesRegistry → p < t.nextPersistentId ∧ ∃ f, t.filesRegistry f = some p
  /-- no two files share an id -/
  injective : ∀ f f' p, t.filesRegistry f = some p → t.filesRegistry f' = some p → f = f'
  /-- a live instance is the mapping kept for its file, and the other way round -/
  mirrors : ∀ m, m ∈ live ↔ t.mappingOf m.persistentId = some m
  /-- a mapping is kept under its own persistent id -/
  own : ∀ p m, t.mappingOf p = some m → m.persistentId = p ∧ m.instanceId < t.nextInstanceId
  ids : (live.map MappedModuleIdentified.instanceId).Nodup

/-- Every file has its module, too: nothing was thrown between the two registries.  With it no call
    dereferences `end()`. -/
structure Tracked (t : ModuleTracker F) (live : List MappedModuleIdentified) : Prop
    extends Kept t live where
  known : ∀ f p, t.filesRegistry f = some p → p ∈ t.modulesRegistry

/-- Persistent ids, once given, stay. -/
def Extends (t t' : ModuleTracker F) : Prop :=
  ∀ f p, t.filesRegistry f = some p → t'.filesRegistry f = some p

omit [DecidableEq F] in
/-- What the mappings are after one module was changed. -/
theorem mappingOf_insert (t : ModuleTracker F) (p q : Nat) (mi : ModuleInfo) :
    ((t.modulesRegistry.insert p mi).lookup q).bind ModuleInfo.mapping =
      if q = p then mi.mapping else t.mappingOf q := by
  by_cases h : q = p
  · subst h
    rw [AList.lookup_insert, if_pos rfl]
    rfl
  · rw [AList.lookup_insert_ne h, if_neg h]
    rfl

omit [DecidableEq F] in
/-- An empty registry mirrors no live instances. -/
theorem new_kept : Kept (new : ModuleTracker F) [] where
  below := nofun
  owned := fun p hp => absurd hp (AList.notMem_empty p)
  injective := nofun
  mirrors := fun _ => ⟨nofun, nofun⟩
  own := nofun
  ids := List.nodup_nil

omit [DecidableEq F] in
/-- And lacks no module. -/
theorem new_tracked : Tracked (new : ModuleTracker F) [] where
  toKept := new_kept
  known := nofun

section

variable {t : ModuleTracker F} {live : List MappedModuleIdentified}

/-- The file registry with a file that was not in it. -/
theorem register_keeps {fid : F} (hf : t.filesRegistry fid = none) {f : F} {p : Nat}
    (hp : t.filesRegistry f = some p) :
    Function.update t.filesRegistry fid (some t.nextPersistentId) f = some p := by
  rw [Function.update_of_ne (by rintro rfl; rw [hf] at hp; cases hp)]
  exact hp

/-- A file of the extended registry is the new one or an old one. -/
theorem register_cases {fid f : F} {p : Nat}
    (hp : Function.update t.filesRegistry fid (some t.nextPersistentId) f = some p) :
    (f = fid ∧ p = t.nextPersistentId) ∨ t.filesRegistry f = some p := by
  by_cases heq : f = fid
  · subst heq
    rw [Function.update_self] at hp
    exact Or.inl ⟨rfl, (Option.some.inj hp).symm⟩
  · rw [Function.update_of_ne heq] at hp
    exact Or.inr hp

/-- **A file is given an id**, before its module is made: between the two the file is known and its
    module is not. -/
theorem Kept.registerFile (h : Kept t live) {fid : F} (hf : t.filesRegistry fid = none) :
    Kept { t with
      nextPersistentId := t.nextPersistentId + 1
      filesRegistry := Function.update t.filesRegistry fid (some t.nextPersistentId) } live := by
  refine ⟨?_, ?_, ?_, h.mirrors, h.own, h.ids⟩
  · -- the new id is the last one given
    intro f p hp
    rcases register_cases hp with ⟨_, rfl⟩ | hp
    · exact Nat.lt_succ_self _
    · exact Nat.lt_succ_of_lt (h.below f p hp)
  · -- modules belong to the files they did
    intro p hp
    obtain ⟨hlt, f, hfp⟩ := h.owned p hp
    exact ⟨Nat.lt_succ_of_lt hlt, f, register_keeps hf hfp⟩
  · -- the new id was no file's before
    intro f f' p hp hp'
    rcases register_cases hp with ⟨hf₁, hp₁⟩ | hold
    · rcases register_cases hp' with ⟨hf₂, _⟩ | hold'
      · rw [hf₁, hf₂]
      · exact absurd (h.below f' p hold') (by rw [hp₁]; exact Nat.lt_irrefl _)
    · rcases register_cases hp' with ⟨_, hp₂⟩ | hold'
      · exact absurd (h.below f p hold) (by rw [hp₂]; exact Nat.lt_irrefl _)
      · exact h.injective f f' p hold hold'

omit [DecidableEq F] in
/-- A module without a mapping, as the mappings see it: not at all. -/
theorem mappingOf_module {p : Nat} (hnew : p ∉ t.modulesRegistry) (path : String) (hash q : Nat) :
    ((t.modulesRegistry.insert p ⟨path, hash, none⟩).lookup q).bind ModuleInfo.mapping =
      t.mappingOf q := by
  rw [mappingOf_insert]
  split
  · next heq =>
    rw [heq, mappingOf, AList.lookup_eq_none.mpr hnew]
    rfl
  · rfl

omit [DecidableEq F] in
/-- **Its module is made**, with no mapping yet, so the live instances are as they were. -/
theorem Kept.makeModule (h : Kept t live) {f : F} {p : Nat} (hf : t.filesRegistry f = some p)
    (hnew : p ∉ t.modulesRegistry) (path : String) (hash : Nat) :
    Kept { t with modulesRegistry := t.modulesRegistry.insert p ⟨path, hash, none⟩ } live := by
  refine ⟨h.below, ?_, h.injective, ?_, ?_, h.ids⟩
  · intro q hq
    rcases (AList.mem_insert _).mp hq with rfl | hq
    · exact ⟨h.below f q hf, f, hf⟩
    · exact h.owned q hq
  · intro m
    rw [h.mirrors, ← mappingOf_module hnew path hash]
    rfl
  · intro q m hm
    exact h.own q m ((mappingOf_module hnew path hash q).symm.trans hm)

/-- **`register_path`** gives the file an id, its own and for good, and touches no mapping.  The two
    lemmas above, one after the other. -/
theorem Tracked.registerPath (h : Tracked t live) (hash : String → Nat) (path : String) (fid : F) :
    ∃ t' p, t.registerPath hash path fid = (t', p) ∧ Tracked t' live ∧ Extends t t' ∧
      t'.filesRegistry fid = some p ∧ t'.lqueue = t.lqueue ∧ t'.uqueue = t.uqueue ∧
      (∀ q, t'.mappingOf q = t.mappingOf q) ∧ t'.nextInstanceId = t.nextInstanceId := by
  unfold ModuleTracker.registerPath
  cases hf : t.filesRegistry fid with
  | some p => exact ⟨t, p, rfl, h, fun _ _ hq => hq, hf, rfl, rfl, fun _ => rfl, rfl⟩
  | none =>
    have hnew : t.nextPersistentId ∉ t.modulesRegistry := fun hmem =>
      Nat.lt_irrefl _ (h.owned _ hmem).1
    have hkept := (h.toKept.registerFile hf).makeModule (f := fid) (Function.update_self ..) hnew path
      (hash path)
    refine ⟨_, _, rfl, ⟨hkept, fun f p hp => ?_⟩, fun f p hp => register_keeps hf hp,
      Function.update_self .., rfl, rfl, mappingOf_module hnew path (hash path), rfl⟩
    rw [AList.mem_insert]
    rcases register_cases hp with ⟨_, rfl⟩ | hp
    · exact Or.inl rfl
    · exact Or.inr (h.known f p hp)

end

/-! ## The first loop -/

omit [DecidableEq F] in
/-- Changing a module adds no key: the loop over the registry does not see it grow. -/
theorem mem_insert_known {t : ModuleTracker F} {p : Nat} {mi mi' : ModuleInfo}
    (hmi : t.modulesRegistry.lookup p = some mi) {q : Nat} :
    q ∈ t.modulesRegistry.insert p mi' ↔ q ∈ t.modulesRegistry := by
  have hmem : p ∈ t.modulesRegistry := AList.lookup_isSome.mp (by rw [hmi]; rfl)
  rw [AList.mem_insert]
  exact ⟨fun hq => hq.elim (fun heq => heq ▸ hmem) id, Or.inr⟩

omit [DecidableEq F] in
/-- A module gets a mapping under a fresh instance id, and the listener an instance more. -/
theorem Kept.map {t : ModuleTracker F} {live : List MappedModuleIdentified} (h : Kept t live)
    {mi : ModuleInfo} (mmi : MappedModuleIdentified)
    (hmi : t.modulesRegistry.lookup mmi.persistentId = some mi) (hnone : mi.mapping = none)
    (hid : mmi.instanceId = t.nextInstanceId) :
    Kept { t with
      nextInstanceId := t.nextInstanceId + 1
      modulesRegistry := t.modulesRegistry.insert mmi.persistentId { mi with mapping := some mmi }
      lqueue := t.lqueue ++ [mmi] } (live ++ [mmi]) := by
  have hbefore : t.mappingOf mmi.persistentId = none := by rw [mappingOf, hmi]; exact hnone
  have holdIds : ∀ m ∈ live, m.instanceId < t.nextInstanceId := fun m hm =>
    (h.own _ m ((h.mirrors m).mp hm)).2
  refine ⟨h.below, fun p hp => h.owned p ((mem_insert_known hmi).mp hp), h.injective, ?_, ?_, ?_⟩
  · -- the new mapping is the new instance; the others are those of before
    intro m
    show _ ↔ ((t.modulesRegistry.insert _ _).lookup _).bind _ = _
    rw [mappingOf_insert, List.mem_append, List.mem_singleton, h.mirrors]
    by_cases heq : m.persistentId = mmi.persistentId
    · rw [if_pos heq, heq, hbefore]
      simp [eq_comm]
    · rw [if_neg heq]
      constructor
      · rintro (hm | rfl)
        · exact hm
        · exact absurd rfl heq
      · exact Or.inl
  · -- it is kept under its own id
    intro p m hm
    change ((t.modulesRegistry.insert _ _).lookup _).bind _ = _ at hm
    rw [mappingOf_insert] at hm
    show _ ∧ m.instanceId < t.nextInstanceId + 1
    by_cases heq : p = mmi.persistentId
    · rw [if_pos heq] at hm
      obtain rfl : mmi = m := Option.some.inj hm
      exact ⟨heq.symm, by omega⟩
    · rw [if_neg heq] at hm
      obtain ⟨hp, hlt⟩ := h.own p m hm
      exact ⟨hp, by omega⟩
  · -- its instance id is larger than all those in use
    rw [List.map_append]
    refine Lib.nodup_append_singleton h.ids fun hi => ?_
    obtain ⟨m, hm, heq⟩ := List.mem_map.mp hi
    have hlt := holdIds m hm
    omega

/-- The state of the first loop, after the modules `seen`.  `t₀` is the tracker before the call, the
    second component of the state the persistent ids of the snapshot. -/
structure Enumerating (t₀ : ModuleTracker F) (live : List MappedModuleIdentified)
    (seen : List (MappedModule F)) (s : ModuleTracker F × List Nat) : Prop where
  tracked : Tracked s.1 (live ++ s.1.lqueue)
  extended : Extends t₀ s.1
  /-- each module seen is among them -/
  registered : ∀ mm ∈ seen, ∃ p ∈ s.2, s.1.filesRegistry mm.file = some p
  /-- each of them has a mapping, old or new -/
  mapped : ∀ p ∈ s.2, (s.1.mappingOf p).isSome ∧ ∃ mm ∈ seen, s.1.filesRegistry mm.file = some p
  /-- what is queued for the listener was seen, and is new -/
  loaded : ∀ m ∈ s.1.lqueue, m.persistentId ∈ s.2 ∧ t₀.nextInstanceId ≤ m.instanceId ∧
    ∃ mm ∈ seen, m.path = mm.path ∧ m.base = mm.base ∧
      s.1.filesRegistry mm.file = some m.persistentId
  instances : s.1.nextInstanceId = t₀.nextInstanceId + s.1.lqueue.length
  /-- nothing is unloaded in this loop -/
  quiet : s.1.uqueue = []

omit [DecidableEq F] in
/-- A module of the snapshot is registered and mapped; `new` is what was queued for it.  What held
    of the modules seen before holds on, since ids and mappings only come. -/
theorem Enumerating.advance {t₀ t t' : ModuleTracker F} {live : List MappedModuleIdentified}
    {seen : List (MappedModule F)} {inSnapshot : List Nat} {mm : MappedModule F} {p : Nat}
    (h : Enumerating t₀ live seen (t, inSnapshot)) (new : List MappedModuleIdentified)
    (htracked : Tracked t' (live ++ t'.lqueue))
    (hextends : Extends t t') (hfile : t'.filesRegistry mm.file = some p)
    (hlqueue : t'.lqueue = t.lqueue ++ new) (huqueue : t'.uqueue = t.uqueue)
    (hmapped : (t'.mappingOf p).isSome)
    (hkept : ∀ q, (t.mappingOf q).isSome → (t'.mappingOf q).isSome)
    (hnew : ∀ m ∈ new, m.persistentId = p ∧ t.nextInstanceId ≤ m.instanceId ∧ m.path = mm.path ∧
      m.base = mm.base)
    (hnext : t'.nextInstanceId = t.nextInstanceId + new.length) :
    Enumerating t₀ live (seen ++ [mm]) (t', p :: inSnapshot) := by
  have hlast : mm ∈ seen ++ [mm] := List.mem_append_right _ (List.mem_singleton.mpr rfl)
  have hext : ∀ f q, t.filesRegistry f = some q → t'.filesRegistry f = some q := hextends
  have hinstances : t.nextInstanceId = t₀.nextInstanceId + t.lqueue.length := h.instances
  refine ⟨htracked, fun f q hq => hext f q (h.extended f q hq), ?_, ?_, ?_, ?_, huqueue.trans h.quiet⟩
  · -- the module is among the ids now
    intro x hx
    rcases List.mem_append.mp hx with hx | hx
    · obtain ⟨q, hq, hxq⟩ := h.registered x hx
      exact ⟨q, List.mem_cons_of_mem _ hq, hext _ _ hxq⟩
    · rw [List.mem_singleton.mp hx]
      exact ⟨p, List.mem_cons_self, hfile⟩
  · -- each id has its mapping
    intro q hq
    rcases List.mem_cons.mp hq with rfl | hq
    · exact ⟨hmapped, mm, hlast, hfile⟩
    · obtain ⟨hsome, x, hx, hxq⟩ := h.mapped q hq
      exact ⟨hkept q hsome, x, List.mem_append_left _ hx, hext _ _ hxq⟩
  · -- what is queued was seen
    intro m hm
    change m ∈ t'.lqueue at hm
    rw [hlqueue] at hm
    rcases List.mem_append.mp hm with hm | hm
    · obtain ⟨hin, hid, x, hx, hpath, hbase, hxq⟩ := h.loaded m hm
      exact ⟨List.mem_cons_of_mem _ hin, hid, x, List.mem_append_left _ hx, hpath, hbase, hext _ _ hxq⟩
    · obtain ⟨rfl, hid, hpath, hbase⟩ := hnew m hm
      exact ⟨List.mem_cons_self, by omega, mm, hlast, hpath, hbase, hfile⟩
  · show t'.nextInstanceId = t₀.nextInstanceId + t'.lqueue.length
    rw [hnext, hinstances, hlqueue, List.length_append, Nat.add_assoc]

/-- **One module of the snapshot.**  Its file is registered first, which makes its module if there
    was none; the module is looked up then, and so is found. -/
theorem Enumerating.step {t₀ : ModuleTracker F} {live : List MappedModuleIdentified}
    {seen : List (MappedModule F)} {s : ModuleTracker F × List Nat}
    (h : Enumerating t₀ live seen s) (hash : String → Nat) (mm : MappedModule F) :
    ∃ s', enumerated hash s mm = some s' ∧ Enumerating t₀ live (seen ++ [mm]) s' := by
  obtain ⟨t, inSnapshot⟩ := s
  obtain ⟨t', p, hregister, htracked, hextends, hfile, hlqueue, huqueue, hmapping, hnext⟩ :=
    h.tracked.registerPath hash mm.path mm.file
  have hmem := htracked.known _ _ hfile
  obtain ⟨mi, hmi⟩ := Option.isSome_iff_exists.mp (AList.lookup_isSome.mpr hmem)
  have henumerated : enumerated hash (t, inSnapshot) mm = some (match mi.mapping with
      | some _ => (t', p :: inSnapshot)
      | none =>
          -- a new mapping
          let mmi : MappedModuleIdentified := ⟨t'.nextInstanceId, p, mm.path, mm.base, mi.hash⟩
          ({ t' with
              nextInstanceId := t'.nextInstanceId + 1
              modulesRegistry := t'.modulesRegistry.insert p { mi with mapping := some mmi }
              lqueue := t'.lqueue ++ [mmi] }, p :: inSnapshot)) := by
    unfold enumerated
    rw [hregister]
    show (t'.modulesRegistry.lookup p).map _ = _
    rw [hmi]
    rfl
  rw [henumerated]
  -- a file that is mapped already is only marked as seen; another one is given an instance
  cases hcase : mi.mapping with
  | some m₀ =>
    -- mapped already: nothing is queued
    refine ⟨_, rfl, h.advance [] ?_ hextends hfile ?_ huqueue ?_ ?_ ?_ ?_⟩
    · rw [hlqueue]
      exact htracked
    · rw [hlqueue, List.append_nil]
    · rw [mappingOf, hmi, Option.bind_some, hcase]
      rfl
    · intro q hsome
      rw [hmapping]
      exact hsome
    · exact fun m hm => absurd hm List.not_mem_nil
    · exact hnext
  | none =>
    have hmap := htracked.toKept.map ⟨t'.nextInstanceId, p, mm.path, mm.base, mi.hash⟩ hmi hcase rfl
    have hafter : ∀ r mi', ((t'.modulesRegistry.insert p mi').lookup r).bind ModuleInfo.mapping =
        if r = p then mi'.mapping else t'.mappingOf r := fun r mi' => mappingOf_insert t' p r mi'
    refine ⟨_, rfl, h.advance [⟨t'.nextInstanceId, p, mm.path, mm.base, mi.hash⟩] ?_ hextends
      hfile ?_ huqueue ?_ ?_ ?_ ?_⟩
    · show Tracked _ (live ++ (t'.lqueue ++ [_]))
      rw [← List.append_assoc, hlqueue]
      rw [hlqueue] at hmap
      exact ⟨hmap, fun f q hq => (mem_insert_known hmi).mpr (htracked.known f q hq)⟩
    · show t'.lqueue ++ [_] = t.lqueue ++ [_]
      rw [hlqueue]
    · show (((t'.modulesRegistry.insert _ _).lookup _).bind ModuleInfo.mapping).isSome
      rw [hafter, if_pos rfl]
      rfl
    · intro q hsome
      show (((t'.modulesRegistry.insert _ _).lookup _).bind ModuleInfo.mapping).isSome
      rw [hafter]
      split
      · rfl
      · rw [hmapping]
        exact hsome
    · intro m hm
      rw [List.mem_singleton.mp hm]
      exact ⟨rfl, Nat.le_of_eq hnext.symm, rfl, rfl⟩
    · exact congrArg (· + 1) hnext

/-- **The whole snapshot**, by induction on what is still to come. -/
theorem Enumerating.run {t₀ : ModuleTracker F} {live : List MappedModuleIdentified}
    (hash : String → Nat) : ∀ (snapshot seen : List (MappedModule F)) (s : ModuleTracker F × List Nat),
    Enumerating t₀ live seen s →
      ∃ s', Lib.run (enumerated hash) s snapshot = some s' ∧
        Enumerating t₀ live (seen ++ snapshot) s' := by
  intro snapshot
  induction snapshot with
  | nil =>
    intro seen s h
    exact ⟨s, rfl, by rwa [List.append_nil]⟩
  | cons mm snapshot ih =>
    intro seen s h
    obtain ⟨s₁, hs₁, h₁⟩ := h.step hash mm
    obtain ⟨s₂, hs₂, h₂⟩ := ih _ s₁ h₁
    refine ⟨s₂, Lib.run_cons_eq_some.mpr ⟨s₁, hs₁, hs₂⟩, ?_⟩
    rwa [List.append_assoc, List.singleton_append] at h₂

/-! ## The second loop -/

omit [DecidableEq F] in
/-- A mapping that is gone from the snapshot: the listener has an instance less, and instance ids
    being different it is that one. -/
theorem Kept.unmap {t : ModuleTracker F} {live : List MappedModuleIdentified} (h : Kept t live)
    {p : Nat} {mi : ModuleInfo} {mmi : MappedModuleIdentified}
    (hmi : t.modulesRegistry.lookup p = some mi) (hmapping : mi.mapping = some mmi) :
    Kept { t with
      uqueue := t.uqueue ++ [mmi.instanceId]
      modulesRegistry := t.modulesRegistry.insert p { mi with mapping := none } }
      (live.filter fun m => m.instanceId ≠ mmi.instanceId) := by
  have hbefore : t.mappingOf p = some mmi := by rw [mappingOf, hmi]; exact hmapping
  have hp : mmi.persistentId = p := (h.own p mmi hbefore).1
  have hlive : mmi ∈ live := (h.mirrors mmi).mpr (hp ▸ hbefore)
  refine ⟨h.below, fun q hq => h.owned q ((mem_insert_known hmi).mp hq), h.injective, ?_, ?_,
    h.ids.sublist (List.filter_sublist.map _)⟩
  · intro m
    show _ ↔ ((t.modulesRegistry.insert _ _).lookup _).bind _ = _
    rw [mappingOf_insert, List.mem_filter, decide_eq_true_iff]
    by_cases heq : m.persistentId = p
    · rw [if_pos heq]
      constructor
      · rintro ⟨hm, hne⟩
        rw [h.mirrors, heq, hbefore] at hm
        exact absurd (congrArg MappedModuleIdentified.instanceId (Option.some.inj hm)).symm hne
      · rintro ⟨⟩
    · rw [if_neg heq, ← h.mirrors]
      refine ⟨And.left, fun hm => ⟨hm, fun hid => heq ?_⟩⟩
      rw [List.inj_on_of_nodup_map h.ids hm hlive hid]
      exact hp
  · intro q m hm
    change ((t.modulesRegistry.insert _ _).lookup _).bind _ = _ at hm
    rw [mappingOf_insert] at hm
    split at hm
    · cases hm
    · exact h.own q m hm

/-- The state of the second loop, after the keys `done`.  `t₀` is the tracker the first loop has
    left. -/
structure Sweeping (t₀ : ModuleTracker F) (inSnapshot : List Nat)
    (live : List MappedModuleIdentified) (done : List Nat) (t : ModuleTracker F) : Prop where
  /-- the listener drops what was reported so far -/
  kept : Kept t (live.filter fun m => m.instanceId ∉ t.uqueue)
  files : t.filesRegistry = t₀.filesRegistry
  queue : t.lqueue = t₀.lqueue
  instances : t.nextInstanceId = t₀.nextInstanceId
  keys : ∀ p, p ∈ t.modulesRegistry ↔ p ∈ t₀.modulesRegistry
  /-- what the snapshot names is not touched -/
  stays : ∀ p ∈ inSnapshot, t.mappingOf p = t₀.mappingOf p
  /-- what is reported was live, and is not named by the snapshot -/
  unloaded : ∀ i ∈ t.uqueue, ∃ m ∈ live, m.instanceId = i ∧ m.persistentId ∉ inSnapshot
  once : t.uqueue.Nodup
  /-- what is behind is mapped only if the snapshot names it -/
  swept : ∀ p ∈ done, (t.mappingOf p).isSome → p ∈ inSnapshot

omit [DecidableEq F] in
/-- **One key of the registry.**  Only a mapping that the snapshot does not name makes a difference;
    in the three other cases the key is done with. -/
theorem Sweeping.step {t₀ t : ModuleTracker F} {inSnapshot done : List Nat}
    {live : List MappedModuleIdentified} (h : Sweeping t₀ inSnapshot live done t) (p : Nat) :
    Sweeping t₀ inSnapshot live (done ++ [p]) (t.swept inSnapshot p) := by
  have hstays : (∀ m, t.mappingOf p = some m → p ∈ inSnapshot) →
      Sweeping t₀ inSnapshot live (done ++ [p]) t := by
    intro hp
    refine { h with swept := fun q hq hsome => ?_ }
    rcases List.mem_append.mp hq with hq | hq
    · exact h.swept q hq hsome
    · obtain rfl := List.mem_singleton.mp hq
      obtain ⟨m, hm⟩ := Option.isSome_iff_exists.mp hsome
      exact hp m hm
  unfold ModuleTracker.swept
  -- no such module, no mapping, named by the snapshot, or swept
  cases hmi : t.modulesRegistry.lookup p with
  | none => exact hstays fun m hm => by rw [mappingOf, hmi] at hm; cases hm
  | some mi =>
    dsimp only
    cases hmapping : mi.mapping with
    | none =>
      refine hstays fun m hm => ?_
      rw [mappingOf, hmi, Option.bind_some, hmapping] at hm
      cases hm
    | some mmi =>
      show Sweeping _ _ _ _ (if p ∈ inSnapshot then t else _)
      split
      · next hin => exact hstays fun _ _ => hin
      · next hout =>
        have hbefore : t.mappingOf p = some mmi := by rw [mappingOf, hmi]; exact hmapping
        have hown := (h.kept.own p mmi hbefore).1
        have hmem : mmi ∈ live.filter fun m => m.instanceId ∉ t.uqueue :=
          (h.kept.mirrors mmi).mpr (hown ▸ hbefore)
        rw [List.mem_filter, decide_eq_true_iff] at hmem
        refine ⟨?_, h.files, h.queue, h.instances, ?_, ?_, ?_, ?_, ?_⟩
        · -- the listener's instances, but for this one
          have hunmap := h.kept.unmap hmi hmapping
          rw [List.filter_filter] at hunmap
          convert hunmap using 2
          funext m
          simp [List.mem_append, not_or, and_comm]
        · exact fun q => (mem_insert_known hmi).trans (h.keys q)
        · intro q hq
          show ((t.modulesRegistry.insert _ _).lookup _).bind _ = _
          rw [mappingOf_insert, if_neg (by rintro rfl; exact hout hq)]
          exact h.stays q hq
        · intro i hi
          rcases List.mem_append.mp hi with hi | hi
          · exact h.unloaded i hi
          · exact ⟨mmi, hmem.1, (List.mem_singleton.mp hi).symm, hown ▸ hout⟩
        · -- it was still live, so it was not reported before
          exact Lib.nodup_append_singleton h.once hmem.2
        · intro q hq hsome
          change (((t.modulesRegistry.insert _ _).lookup _).bind _).isSome at hsome
          rw [mappingOf_insert] at hsome
          split at hsome
          · cases hsome
          · next hne =>
            rcases List.mem_append.mp hq with hq | hq
            · exact h.swept q hq hsome
            · exact absurd (List.mem_singleton.mp hq) hne

omit [DecidableEq F] in
/-- **The whole registry**, by recursion on its keys. -/
theorem Sweeping.run {t₀ : ModuleTracker F} {inSnapshot : List Nat}
    {live : List MappedModuleIdentified} : ∀ (keys done : List Nat) (t : ModuleTracker F),
    Sweeping t₀ inSnapshot live done t →
      Sweeping t₀ inSnapshot live (done ++ keys) (keys.foldl (ModuleTracker.swept inSnapshot) t)
  | [], done, t, h => by rwa [List.append_nil]
  | p :: keys, done, t, h => by
    have hrest := Sweeping.run keys (done ++ [p]) _ (h.step p)
    rwa [List.append_assoc, List.singleton_append] at hrest

/-! ## One call of `get_changes` -/

/-- What a call of `get_changes` did: to the tracker, and to a listener's live instances. -/
structure Changed (t : ModuleTracker F) (live : List MappedModuleIdentified)
    (snapshot : List (MappedModule F)) (t' : ModuleTracker F)
    (loaded : List MappedModuleIdentified) (unloaded : List Nat) : Prop where
  tracked : Tracked t' ((live ++ loaded).filter fun m => m.instanceId ∉ unloaded)
  lqueue : t'.lqueue = []
  uqueue : t'.uqueue = []
  extended : Extends t t'
  /-- instance ids are those the counter went through -/
  fresh : ∀ m ∈ loaded, t.nextInstanceId ≤ m.instanceId ∧ m.instanceId < t'.nextInstanceId
  instances : t'.nextInstanceId = t.nextInstanceId + loaded.length
  loadedOnce : (loaded.map MappedModuleIdentified.instanceId).Nodup
  unloadedOnce : unloaded.Nodup
  /-- only what was live before the call is reported unloaded -/
  wasLive : ∀ i ∈ unloaded, i ∈ live.map MappedModuleIdentified.instanceId
  origin : ∀ m ∈ loaded, ∃ mm ∈ snapshot, m.path = mm.path ∧ m.base = mm.base ∧
    t'.filesRegistry mm.file = some m.persistentId
  /-- each module of the snapshot has a live instance afterwards -/
  present : ∀ mm ∈ snapshot, ∃ m ∈ (live ++ loaded).filter fun m => m.instanceId ∉ unloaded,
    t'.filesRegistry mm.file = some m.persistentId
  /-- and every live instance is one of those -/
  absent : ∀ m ∈ (live ++ loaded).filter fun m => m.instanceId ∉ unloaded, ∃ mm ∈ snapshot,
    t'.filesRegistry mm.file = some m.persistentId

omit [DecidableEq F] in
/-- The beginning of the first loop. -/
theorem Tracked.enumerating {t : ModuleTracker F} {live : List MappedModuleIdentified}
    (h : Tracked t live) (hlqueue : t.lqueue = []) (huqueue : t.uqueue = []) :
    Enumerating t live [] (t, []) := by
  refine ⟨?_, fun _ _ hp => hp, nofun, nofun, ?_, by rw [hlqueue]; rfl, huqueue⟩
  · rwa [hlqueue, List.append_nil]
  · rw [hlqueue]
    nofun

/-- The two loops of `get_changes`, one after the other: where the first ends the second begins. -/
theorem Tracked.phases {t : ModuleTracker F} {live : List MappedModuleIdentified}
    (h : Tracked t live) (hlqueue : t.lqueue = []) (huqueue : t.uqueue = []) (hash : String → Nat)
    (snapshot : List (MappedModule F)) :
    ∃ t₁ inSnapshot t₂, t.getChanges hash snapshot =
        some ({ t₂ with lqueue := [], uqueue := [] }, t₂.lqueue, t₂.uqueue) ∧
      Enumerating t live snapshot (t₁, inSnapshot) ∧
      Sweeping t₁ inSnapshot (live ++ t₁.lqueue) t₁.modulesRegistry.keys t₂ := by
  obtain ⟨⟨t₁, inSnapshot⟩, hrun, h₁⟩ := Enumerating.run hash snapshot [] (t, [])
    (h.enumerating hlqueue huqueue)
  rw [List.nil_append] at h₁
  have hsweeping : Sweeping t₁ inSnapshot (live ++ t₁.lqueue) [] t₁ := by
    have hquiet : t₁.uqueue = [] := h₁.quiet
    refine ⟨?_, rfl, rfl, rfl, fun _ => Iff.rfl, fun _ _ => rfl, ?_, ?_, nofun⟩
    · simp only [hquiet, List.not_mem_nil, not_false_eq_true, decide_true, List.filter_true]
      exact h₁.tracked.toKept
    · rw [hquiet]
      nofun
    · rw [hquiet]
      exact List.nodup_nil
  have h₂ := Sweeping.run t₁.modulesRegistry.keys [] t₁ hsweeping
  rw [List.nil_append] at h₂
  refine ⟨t₁, inSnapshot, _, ?_, h₁, h₂⟩
  unfold ModuleTracker.getChanges
  rw [hrun]
  rfl

/-- **`get_changes`** returns, and reports the difference between the two snapshots.  What is loaded
    comes from the first loop and what is unloaded from the second; an instance loaded by this very
    call is not unloaded by it, since the snapshot names it. -/
theorem Tracked.getChanges {t : ModuleTracker F} {live : List MappedModuleIdentified}
    (h : Tracked t live) (hlqueue : t.lqueue = []) (huqueue : t.uqueue = []) (hash : String → Nat)
    (snapshot : List (MappedModule F)) :
    ∃ t' loaded unloaded, t.getChanges hash snapshot = some (t', loaded, unloaded) ∧
      Changed t live snapshot t' loaded unloaded := by
  obtain ⟨t₁, inSnapshot, t₂, hchanges, h₁, h₂⟩ := h.phases hlqueue huqueue hash snapshot
  refine ⟨{ t₂ with lqueue := [], uqueue := [] }, t₂.lqueue, t₂.uqueue, hchanges, ?_⟩
  have hfiles : ∀ f, t₂.filesRegistry f = t₁.filesRegistry f := fun f => by rw [h₂.files]
  have hlive := h₂.kept
  rw [← h₂.queue] at hlive
  -- what is left is what the snapshot names: a key that is not in it was swept
  -- the second loop visits every key there is
  have hpresent : ∀ m ∈ (live ++ t₂.lqueue).filter (fun m => m.instanceId ∉ t₂.uqueue),
      m.persistentId ∈ inSnapshot := by
    intro m hm
    have hmapping := (hlive.mirrors m).mp hm
    refine h₂.swept _ (AList.mem_keys.mp ((h₂.keys _).mp ?_)) (by rw [hmapping]; rfl)
    cases hlookup : t₂.modulesRegistry.lookup m.persistentId with
    | none => rw [mappingOf, hlookup] at hmapping; cases hmapping
    | some mi => exact AList.lookup_isSome.mp (by rw [hlookup]; rfl)
  have hids := h₁.tracked.ids
  rw [List.map_append, List.nodup_append] at hids
  refine ⟨⟨⟨hlive.below, hlive.owned, hlive.injective, hlive.mirrors, hlive.own, hlive.ids⟩,
    fun f p hp => (h₂.keys p).mpr (h₁.tracked.known f p ((hfiles f).symm.trans hp))⟩, rfl, rfl,
    ?_, ?_, ?_, ?_, h₂.once, ?_, ?_, ?_, ?_⟩
  · intro f p hp
    exact (hfiles f).trans (h₁.extended f p hp)
  · intro m hm
    rw [h₂.queue] at hm
    refine ⟨(h₁.loaded m hm).2.1, ?_⟩
    show _ < t₂.nextInstanceId
    rw [h₂.instances]
    exact (h₁.tracked.own _ m ((h₁.tracked.mirrors m).mp (List.mem_append_right _ hm))).2
  · show t₂.nextInstanceId = _ + t₂.lqueue.length
    rw [h₂.instances, h₂.queue]
    exact h₁.instances
  · rw [h₂.queue]
    exact hids.2.1
  · -- what is reported unloaded was live before the call
    intro i hi
    obtain ⟨m, hm, rfl, hout⟩ := h₂.unloaded i hi
    rcases List.mem_append.mp hm with hm | hm
    · exact List.mem_map_of_mem hm
    · exact absurd (h₁.loaded m hm).1 hout
  · intro m hm
    rw [h₂.queue] at hm
    obtain ⟨_, _, mm, hmm, hpath, hbase, hfile⟩ := h₁.loaded m hm
    exact ⟨mm, hmm, hpath, hbase, (hfiles _).trans hfile⟩
  · -- a module of the snapshot was mapped by the first loop, and the second leaves it
    intro mm hmm
    obtain ⟨p, hp, hfile⟩ := h₁.registered mm hmm
    obtain ⟨m, hm⟩ := Option.isSome_iff_exists.mp (h₁.mapped p hp).1
    have hkept : t₂.mappingOf p = some m := (h₂.stays p hp).trans hm
    obtain ⟨rfl, _⟩ := hlive.own p m hkept
    exact ⟨m, (hlive.mirrors m).mpr hkept, (hfiles _).trans hfile⟩
  · intro m hm
    obtain ⟨_, mm, hmm, hfile⟩ := h₁.mapped _ (hpresent m hm)
    exact ⟨mm, hmm, (hfiles _).trans hfile⟩

/-! ## Replay -/

/-- What one call of `get_changes` saw and reported. -/
structure Report (F : Type) where
  snapshot : List (MappedModule F)
  loaded : List MappedModuleIdentified
  unloaded : List Nat

/-- A tracker, and everything it reported so far; the reports are what a listener has seen. -/
structure Session (F : Type) where
  tracker : ModuleTracker F
  reports : List (Report F)

namespace Session

def new : Session F := ⟨ModuleTracker.new, []⟩

/-- A call of `get_changes`, with what the files hash to by then. -/
def observe (s : Session F) (q : (String → Nat) × List (MappedModule F)) : Option (Session F) :=
  (s.tracker.getChanges q.1 q.2).map fun r => ⟨r.1, s.reports ++ [⟨q.2, r.2.1, r.2.2⟩]⟩

end Session

/-- A listener adds what was loaded and drops what was unloaded. -/
def replay (reports : List (Report F)) : List MappedModuleIdentified :=
  reports.foldl (fun live r => (live ++ r.loaded).filter fun m => m.instanceId ∉ r.unloaded) []

/-- The instance ids reported loaded, in order. -/
def loadedIds (reports : List (Report F)) : List Nat :=
  reports.flatMap fun r => r.loaded.map MappedModuleIdentified.instanceId

/-- The instance ids reported unloaded, in order. -/
def unloadedIds (reports : List (Report F)) : List Nat := reports.flatMap Report.unloaded

/-- What the reports of a session say, against the files behind them. -/
structure Truthful (s : Session F) : Prop where
  /-- each file of the last snapshot has one live instance … -/
  live : ∀ r ∈ s.reports.getLast?, ∀ mm ∈ r.snapshot,
    ∃! m, m ∈ replay s.reports ∧ s.tracker.filesRegistry mm.file = some m.persistentId
  /-- … and there are no others. -/
  onlyLive : ∀ r ∈ s.reports.getLast?, ∀ m ∈ replay s.reports,
    ∃ mm ∈ r.snapshot, s.tracker.filesRegistry mm.file = some m.persistentId
  liveOnce : (replay s.reports).Nodup
  neverReused : (loadedIds s.reports).Nodup
  unloadedOnce : (unloadedIds s.reports).Nodup
  wasLive : ∀ before r after, s.reports = before ++ r :: after →
    ∀ i ∈ r.unloaded, i ∈ (replay before).map MappedModuleIdentified.instanceId
  origin : ∀ r ∈ s.reports, ∀ m ∈ r.loaded, ∃ mm ∈ r.snapshot,
    m.path = mm.path ∧ m.base = mm.base ∧ s.tracker.filesRegistry mm.file = some m.persistentId
  identifies : ∀ f f' p, s.tracker.filesRegistry f = some p → s.tracker.filesRegistry f' = some p →
    f = f'

/-- The INVARIANT of a session: the tracker's mappings are the live instances of the replay, and its
    counter is beyond all ids reported. -/
structure Mirrors (s : Session F) : Prop extends Truthful s where
  tracked : Tracked s.tracker (replay s.reports)
  lqueue : s.tracker.lqueue = []
  uqueue : s.tracker.uqueue = []
  issued : ∀ i ∈ loadedIds s.reports, i < s.tracker.nextInstanceId
  gone : ∀ i ∈ unloadedIds s.reports, i ∈ loadedIds s.reports ∧
    i ∉ (replay s.reports).map MappedModuleIdentified.instanceId

omit [DecidableEq F] in
/-- The listener takes one more report. -/
theorem replay_append (reports : List (Report F)) (r : Report F) :
    replay (reports ++ [r]) =
      (replay reports ++ r.loaded).filter fun m => m.instanceId ∉ r.unloaded := by
  rw [replay, List.foldl_append]
  rfl

omit [DecidableEq F] in
theorem loadedIds_append (reports : List (Report F)) (r : Report F) :
    loadedIds (reports ++ [r]) =
      loadedIds reports ++ r.loaded.map MappedModuleIdentified.instanceId := by
  rw [loadedIds, List.flatMap_append, List.flatMap_singleton]
  rfl

omit [DecidableEq F] in
theorem unloadedIds_append (reports : List (Report F)) (r : Report F) :
    unloadedIds (reports ++ [r]) = unloadedIds reports ++ r.unloaded := by
  rw [unloadedIds, List.flatMap_append, List.flatMap_singleton]
  rfl

omit [DecidableEq F] in
/-- What is live was reported loaded.  By induction on the reports, from the last one. -/
theorem replay_subset_loadedIds (reports : List (Report F)) :
    ∀ m ∈ replay reports, m.instanceId ∈ loadedIds reports := by
  induction reports using List.reverseRecOn with
  | nil => nofun
  | append_singleton reports r ih =>
    intro m hm
    rw [replay_append, List.mem_filter] at hm
    rw [loadedIds_append, List.mem_append]
    rcases List.mem_append.mp hm.1 with hm | hm
    · exact Or.inl (ih m hm)
    · exact Or.inr (List.mem_map_of_mem hm)

omit [DecidableEq F] in
/-- Nothing was reported. -/
theorem new_mirrors : Mirrors (Session.new : Session F) where
  live := nofun
  onlyLive := nofun
  liveOnce := List.nodup_nil
  neverReused := List.nodup_nil
  unloadedOnce := List.nodup_nil
  wasLive := fun before r after h => by
    rw [Session.new] at h
    exact absurd h.symm (by simp)
  origin := nofun
  identifies := nofun
  tracked := new_tracked
  lqueue := rfl
  uqueue := rfl
  issued := nofun
  gone := nofun

/-! ### One more report -/

section

variable {s : Session F} {t' : ModuleTracker F} {snapshot : List (MappedModule F)}
  {loaded : List MappedModuleIdentified} {unloaded : List Nat} (h : Mirrors s)
  (hc : Changed s.tracker (replay s.reports) snapshot t' loaded unloaded)

include h hc

omit [DecidableEq F] in
/-- New instances have ids that were not reported before. -/
theorem Mirrors.not_reloaded : ∀ i ∈ loadedIds s.reports, ∀ m ∈ loaded, i ≠ m.instanceId := by
  intro i hi m hm
  have hlt := h.issued i hi
  have hge := (hc.fresh m hm).1
  omega

omit [DecidableEq F] in
/-- What went before is not live any more, and is not loaded again: so no id is reported unloaded
    twice. -/
theorem Mirrors.stays_gone : ∀ i ∈ unloadedIds s.reports,
    i ∉ (replay s.reports ++ loaded).map MappedModuleIdentified.instanceId := by
  intro i hi hmem
  rw [List.map_append, List.mem_append] at hmem
  rcases hmem with hmem | hmem
  · exact (h.gone i hi).2 hmem
  · obtain ⟨m, hm, heq⟩ := List.mem_map.mp hmem
    exact h.not_reloaded hc i (h.gone i hi).1 m hm heq.symm

omit [DecidableEq F] in
/-- The counter is beyond the new ids too. -/
theorem Mirrors.issued_reported :
    ∀ i ∈ loadedIds (s.reports ++ [⟨snapshot, loaded, unloaded⟩]), i < t'.nextInstanceId := by
  intro i hi
  rw [loadedIds_append, List.mem_append] at hi
  rcases hi with hi | hi
  · exact Nat.lt_of_lt_of_le (h.issued i hi) (by rw [hc.instances]; exact Nat.le_add_right _ _)
  · obtain ⟨m, hm, rfl⟩ := List.mem_map.mp hi
    exact (hc.fresh m hm).2

omit [DecidableEq F] in
/-- What was unloaded, by this report or an earlier one, is not live. -/
theorem Mirrors.gone_reported :
    ∀ i ∈ unloadedIds (s.reports ++ [⟨snapshot, loaded, unloaded⟩]),
      i ∈ loadedIds (s.reports ++ [⟨snapshot, loaded, unloaded⟩]) ∧
      i ∉ (replay (s.reports ++ [⟨snapshot, loaded, unloaded⟩])).map
        MappedModuleIdentified.instanceId := by
  intro i hi
  rw [unloadedIds_append, List.mem_append] at hi
  rw [loadedIds_append, List.mem_append, replay_append]
  rcases hi with hi | hi
  · refine ⟨Or.inl (h.gone i hi).1, fun hmem => h.stays_gone hc i hi ?_⟩
    exact (List.filter_sublist.map _).subset hmem
  · obtain ⟨m, hm, rfl⟩ := List.mem_map.mp (hc.wasLive i hi)
    refine ⟨Or.inl (replay_subset_loadedIds _ m hm), fun hmem => ?_⟩
    obtain ⟨m', hm', heq⟩ := List.mem_map.mp hmem
    rw [List.mem_filter, decide_eq_true_iff, heq] at hm'
    exact hm'.2 hi

omit [DecidableEq F] in
/-- **The reports stay truthful** with one more, part by part. -/
theorem Mirrors.truthful_reported :
    Truthful ⟨t', s.reports ++ [⟨snapshot, loaded, unloaded⟩]⟩ := by
  have hlast : ∀ r ∈ (s.reports ++ [(⟨snapshot, loaded, unloaded⟩ : Report F)]).getLast?,
      r = ⟨snapshot, loaded, unloaded⟩ := by
    intro r hr
    rw [List.getLast?_concat] at hr
    exact (Option.some.inj hr).symm
  have hreplay : replay (s.reports ++ [(⟨snapshot, loaded, unloaded⟩ : Report F)]) =
      (replay s.reports ++ loaded).filter fun m => m.instanceId ∉ unloaded := replay_append ..
  refine ⟨?_, ?_, ?_, ?_, ?_, ?_, ?_, hc.tracked.injective⟩
  · intro r hr mm hmm
    rw [hlast r hr] at hmm
    rw [hreplay]
    obtain ⟨m, hm, hfile⟩ := hc.present mm hmm
    refine ⟨m, ⟨hm, hfile⟩, ?_⟩
    -- instances of one file have one persistent id, and so one mapping
    rintro m' ⟨hm', hfile'⟩
    have hp : m'.persistentId = m.persistentId := Option.some.inj (hfile'.symm.trans hfile)
    have hmapping := (hc.tracked.mirrors m').mp hm'
    rw [hp, (hc.tracked.mirrors m).mp hm] at hmapping
    exact (Option.some.inj hmapping).symm
  · intro r hr m hm
    rw [hlast r hr]
    rw [hreplay] at hm
    exact hc.absent m hm
  · rw [hreplay]
    exact hc.tracked.ids.of_map _
  · -- no instance id is reported loaded twice
    rw [loadedIds_append, List.nodup_append]
    refine ⟨h.neverReused, hc.loadedOnce, ?_⟩
    intro i hi j hj
    obtain ⟨m, hm, rfl⟩ := List.mem_map.mp hj
    exact h.not_reloaded hc i hi m hm
  · -- nor unloaded twice
    rw [unloadedIds_append, List.nodup_append]
    refine ⟨h.unloadedOnce, hc.unloadedOnce, ?_⟩
    intro i hi j hj
    rintro rfl
    refine h.stays_gone hc i hi ?_
    rw [List.map_append, List.mem_append]
    exact Or.inl (hc.wasLive i hj)
  · -- an earlier report, or the new one
    intro before r after heq i hi
    rcases List.eq_nil_or_concat after with rfl | ⟨after', r', rfl⟩
    · obtain ⟨rfl, hr⟩ := List.append_inj' heq rfl
      obtain rfl := List.head_eq_of_cons_eq hr
      exact hc.wasLive i hi
    · rw [List.concat_eq_append, ← List.cons_append, ← List.append_assoc] at heq
      exact h.wasLive before r after' (List.append_inj' heq rfl).1 i hi
  · intro r hr m hm
    rcases List.mem_append.mp hr with hr | hr
    · obtain ⟨mm, hmm, hpath, hbase, hfile⟩ := h.origin r hr m hm
      exact ⟨mm, hmm, hpath, hbase, hc.extended _ _ hfile⟩
    · rw [List.mem_singleton.mp hr] at hm ⊢
      exact hc.origin m hm

end

/-- **One more snapshot** keeps the session truthful, and the call returns. -/
theorem Mirrors.observe {s : Session F} (h : Mirrors s)
    (q : (String → Nat) × List (MappedModule F)) :
    ∃ s', s.observe q = some s' ∧ Mirrors s' ∧ Extends s.tracker s'.tracker ∧
      s'.reports.map Report.snapshot = s.reports.map Report.snapshot ++ [q.2] := by
  obtain ⟨t', loaded, unloaded, hchanges, hc⟩ :=
    h.tracked.getChanges h.lqueue h.uqueue q.1 q.2
  refine ⟨⟨t', s.reports ++ [⟨q.2, loaded, unloaded⟩]⟩, ?_, ?_, hc.extended, ?_⟩
  · rw [Session.observe, hchanges]
    rfl
  · refine ⟨h.truthful_reported hc, ?_, hc.lqueue, hc.uqueue, h.issued_reported hc,
      h.gone_reported hc⟩
    rw [replay_append]
    exact hc.tracked
  · rw [List.map_append]
    rfl

/-- A session goes on through any snapshots: by induction on them. -/
theorem Mirrors.run : ∀ (qs : List ((String → Nat) × List (MappedModule F))) (s : Session F),
    Mirrors s → ∃ s', Lib.run Session.observe s qs = some s' ∧ Mirrors s' ∧
      Extends s.tracker s'.tracker ∧
      s'.reports.map Report.snapshot = s.reports.map Report.snapshot ++ qs.map Prod.snd := by
  intro qs
  induction qs with
  | nil =>
    intro s h
    exact ⟨s, rfl, h, fun _ _ hp => hp, by rw [List.map_nil, List.append_nil]⟩
  | cons q qs ih =>
    intro s h
    obtain ⟨s₁, hs₁, h₁, hext₁, hreports₁⟩ := h.observe q
    obtain ⟨s₂, hs₂, h₂, hext₂, hreports₂⟩ := ih s₁ h₁
    refine ⟨s₂, Lib.run_cons_eq_some.mpr ⟨s₁, hs₁, hs₂⟩, h₂, ?_, ?_⟩
    · exact fun f p hp => hext₂ f p (hext₁ f p hp)
    · rw [hreports₂, hreports₁, List.append_assoc]
      rfl

end ModuleTracker

end MicroProfiler
