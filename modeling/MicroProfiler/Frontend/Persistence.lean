/-
  `frontend/persistence.h`, with the `serialize` functions of `frontend/serialization.h`,
  `sdb/serialization.h` and `common/serialization.h`: the session file.

  1. **The format** — each `serialize` template is one `Lib.Codec`, for writing and for reading
     alike, with the conditions on the version as the source has them.  What the versions 3 to 6 of
     `profiling_session` read in another form comes in as `Legacy`; writing never gets there.  A
     table is its records, in order, and the state of its constructor: reading makes each record
     with the constructor before the archive overwrites it, and overwrites the constructor last.

  2. **Round trip** (`session_round_trip`) — a session read from what another one wrote is that
     session, whatever was in the fields before; maps are compared as maps.

  3. **Ids given out afterwards** are new until the constructor's counter, which is 32 bits wide,
     wraps (`created_ids_repeat`).
-/
import MicroProfiler.Frontend.RecordIds
import MicroProfiler.Lib.Codec
import Mathlib.Data.List.AList

namespace MicroProfiler.Frontend

open Lib (Codec Token)
open Lib.Codec

/-- `struct initialization_data`. -/
structure InitializationData where
  executable : String
  ticksPerSecond : Int
  injected : Nat
deriving DecidableEq, Repr

/-- `struct mapped_module_ex`. -/
structure MappedModuleEx where
  persistentId : Nat
  path : String
  base : Nat
  hash : Nat
deriving DecidableEq, Repr, Inhabited

/-- `struct symbol_info`. -/
structure SymbolInfo where
  name : String
  rva : Nat
  size : Nat
  fileId : Nat
  line : Nat
deriving DecidableEq, Repr, Inhabited

/-- `struct module_info_metadata`. -/
structure ModuleInfoMetadata where
  path : String
  hash : Nat
  symbols : List SymbolInfo
  /-- an `unordered_map`: its order says nothing -/
  sourceFiles : AList fun _ : Nat => String

instance : Inhabited ModuleInfoMetadata := ⟨⟨"", 0, [], ∅⟩⟩

/-- `struct thread_info`. -/
structure ThreadInfo where
  nativeId : Nat
  description : String
  startTime : Int
  endTime : Int
  cpuTime : Int
  complete : Bool
deriving DecidableEq, Repr, Inhabited

/-- `tables::record<T>`. -/
structure Record (T : Type) where
  id : Nat
  data : T
deriving DecidableEq, Repr, Inhabited

/-- `tables::statistics`: the records, and `auto_increment_constructor`. -/
structure StoredStatistics where
  records : List (CallStatistics Nat)
  /-- `_next_id` of the constructor, which is stored as well -/
  nextId : Nat
deriving DecidableEq, Repr

/-- `struct profiling_session`, less the patches, which are not stored. -/
structure ProfilingSession where
  processInfo : InitializationData
  statistics : StoredStatistics
  mappings : List (Record MappedModuleEx)
  modules : List (Record ModuleInfoMetadata)
  threads : List (Record ThreadInfo)

/-- A session that has just been made; `process_info` is not initialised. -/
def ProfilingSession.fresh (garbage : InitializationData) : ProfilingSession :=
  -- ids start at 1
  ⟨garbage, ⟨[], 1⟩, [], [], []⟩

/-- `auto_increment_constructor::operator ()`: the table's constructor and the record. -/
def StoredStatistics.create (garbage : CallNodeKey Nat) (s : StoredStatistics) :
    StoredStatistics × CallStatistics Nat :=
  ({ s with nextId := (s.nextId + 1) % idCount }, construct s.nextId garbage)

namespace Archive

/-! ## `common/serialization.h` -/

/-- `serialize(initialization_data)`; earlier versions had less. -/
def initializationData : Codec InitializationData := versioned 6 fun ver =>
  (number.field InitializationData.ticksPerSecond fun d x => { d with ticksPerSecond := x }).seq <|
  (if ver ≥ 5 then text.field InitializationData.executable fun d x => { d with executable := x }
    else skip).seq <|
  if ver ≥ 6 then natural.field InitializationData.injected fun d x => { d with injected := x }
    else skip

/-- `serialize(function_statistics)`. -/
def functionStatistics : Codec FunctionStatistics := versioned 5 fun ver =>
  (natural.field FunctionStatistics.timesCalled fun d x => { d with timesCalled := x }).seq <|
  -- a field of earlier versions, read and forgotten
  (if ver < 5 then natural.scratch 0 else skip).seq <|
  (number.field FunctionStatistics.inclusiveTime fun d x => { d with inclusiveTime := x }).seq <|
  (number.field FunctionStatistics.exclusiveTime fun d x => { d with exclusiveTime := x }).seq <|
  number.field FunctionStatistics.maxCallTime fun d x => { d with maxCallTime := x }

/-- `serialize(mapped_module_ex)`; the path goes after the base. -/
def mappedModuleEx : Codec MappedModuleEx := versioned 6 fun ver =>
  (if ver < 5 then natural.scratch 0 else skip).seq <|
  (natural.field MappedModuleEx.persistentId fun d x => { d with persistentId := x }).seq <|
  (natural.field MappedModuleEx.base fun d x => { d with base := x }).seq <|
  (text.field MappedModuleEx.path fun d x => { d with path := x }).seq <|
  if ver ≥ 6 then natural.field MappedModuleEx.hash fun d x => { d with hash := x } else skip

/-- `serialize(symbol_info)`. -/
def symbolInfo : Codec SymbolInfo := versioned 4 fun _ =>
  -- an id that is written as zero and read into a temporary
  (natural.scratch 0).seq <|
  (text.field SymbolInfo.name fun d x => { d with name := x }).seq <|
  (natural.field SymbolInfo.rva fun d x => { d with rva := x }).seq <|
  (natural.field SymbolInfo.size fun d x => { d with size := x }).seq <|
  (natural.field SymbolInfo.fileId fun d x => { d with fileId := x }).seq <|
  natural.field SymbolInfo.line fun d x => { d with line := x }

/-- `containers::unordered_map<unsigned int, std::string>`. -/
def sourceFiles : Codec (AList fun _ : Nat => String) :=
  container (fun m => m.entries.map fun e => (e.1, e.2))
    ⟨fun _ => ∅, fun m => (m, (0, "")), fun m e => m.insert e.1 e.2⟩ (natural.pair text)

/-- `serialize(module_info_metadata)`; path and hash came with later versions, so they are last. -/
def moduleInfoMetadata : Codec ModuleInfoMetadata := versioned 6 fun ver =>
  ((vector symbolInfo).field ModuleInfoMetadata.symbols fun d x => { d with symbols := x }).seq <|
  (sourceFiles.field ModuleInfoMetadata.sourceFiles fun d x => { d with sourceFiles := x }).seq <|
  (if ver ≥ 5 then text.field ModuleInfoMetadata.path fun d x => { d with path := x } else skip).seq <|
  if ver ≥ 6 then natural.field ModuleInfoMetadata.hash fun d x => { d with hash := x } else skip

/-- `serialize(thread_info)`. -/
def threadInfo : Codec ThreadInfo := versioned 4 fun _ =>
  (natural.field ThreadInfo.nativeId fun d x => { d with nativeId := x }).seq <|
  (text.field ThreadInfo.description fun d x => { d with description := x }).seq <|
  (number.field ThreadInfo.startTime fun d x => { d with startTime := x }).seq <|
  (number.field ThreadInfo.endTime fun d x => { d with endTime := x }).seq <|
  (number.field ThreadInfo.cpuTime fun d x => { d with cpuTime := x }).seq <|
  boolean.field ThreadInfo.complete fun d x => { d with complete := x }

/-! ## `frontend/serialization.h` and `sdb/serialization.h` -/

/-- `serialize(call_statistics)`: the node it is, then what was counted. -/
def callStatistics : Codec (CallStatistics Nat) := versioned 5 fun _ =>
  (natural.field CallStatistics.id fun d x => { d with id := x }).seq <|
  (natural.field CallStatistics.threadId fun d x => { d with threadId := x }).seq <|
  (natural.field CallStatistics.parentId fun d x => { d with parentId := x }).seq <|
  (natural.field CallStatistics.address fun d x => { d with address := x }).seq <|
  functionStatistics.field CallStatistics.stats fun d x => { d with stats := x }

/-- `serialize(record<T>)`. -/
def record {T : Type} (c : Codec T) : Codec (Record T) := versioned 1 fun _ =>
  (natural.field Record.id fun d x => { d with id := x }).seq <|
  c.field Record.data fun d x => { d with data := x }

/-- `auto_increment_constructor`. -/
def autoIncrement : Codec StoredStatistics := versioned 0 fun _ =>
  natural.field StoredStatistics.nextId fun d x => { d with nextId := x }

/-- `sdb::table` with a `default_constructor`, which has no state. -/
def table {T : Type} [Inhabited T] (c : Codec T) : Codec (List T) :=
  (container (fun s => s) ⟨fun s => s, fun s => (s, default), fun s x => s ++ [x]⟩ c).seq skip

/-- `sdb::table` with an `auto_increment_constructor`. -/
def statistics (garbage : CallNodeKey Nat) : Codec StoredStatistics :=
  (container StoredStatistics.records ⟨fun s => s, StoredStatistics.create garbage,
    fun s r => { s with records := s.records ++ [r] }⟩ callStatistics).seq autoIncrement

/-! ## `frontend/persistence.h` -/

/-- What older versions are read with. -/
structure Legacy where
  /-- versions 3 to 5 -/
  mappings : Codec (List (Record MappedModuleEx))
  /-- up to 6 -/
  modules : Codec (List (Record ModuleInfoMetadata))
  /-- versions 3 and 4, which differ in the key of a node -/
  statistics : (addressAndThread : Bool) → Codec StoredStatistics
  /-- versions 4 and 5 -/
  threads : Codec (List (Record ThreadInfo))

/-- `serialize(profiling_session)`: each table in the form its version has. -/
def profilingSession (legacy : Legacy) (garbage : CallNodeKey Nat) : Codec ProfilingSession :=
  versioned 7 fun ver =>
  let mappings c := field c ProfilingSession.mappings fun d x => { d with mappings := x }
  let modules c := field c ProfilingSession.modules fun d x => { d with modules := x }
  let stats c := field c ProfilingSession.statistics fun d x => { d with statistics := x }
  let threads c := field c ProfilingSession.threads fun d x => { d with threads := x }
  (initializationData.field ProfilingSession.processInfo fun d x => { d with processInfo := x }).seq <|
  -- writing is of version 7: the first branch of each
  (if ver ≥ 6 then mappings (table (record mappedModuleEx))
    else if ver ≥ 3 then mappings legacy.mappings else skip).seq <|
  (if ver ≥ 7 then modules (table (record moduleInfoMetadata)) else modules legacy.modules).seq <|
  (if ver ≥ 5 then stats (statistics garbage)
    else if ver ≥ 4 then stats (legacy.statistics true)
    else if ver ≥ 3 then stats (legacy.statistics false) else skip).seq <|
  if ver ≥ 6 then threads (table (record threadInfo))
    else if ver ≥ 4 then threads legacy.threads else skip

/-! ## Each codec copies -/

/-- The current version takes the branches that store everything. So in those that follow. -/
theorem initializationData_copies : initializationData.Copies fun a _ => a := by
  refine Copies.versioned (Copies.congr (Copies.seq (number_copies.field _ _) <|
    Copies.seq (Copies.ite_pos (by decide) <| text_copies.field _ _) <|
    Copies.ite_pos (by decide) <| natural_copies.field _ _) ?_)
  exact fun _ _ => rfl

/-- Nothing of an earlier version is left. -/
theorem functionStatistics_copies : functionStatistics.Copies fun a _ => a := by
  refine Copies.versioned (Copies.congr (Copies.seq (natural_copies.field _ _) <|
    Copies.seq (Copies.ite_neg (by decide) skip_copies) <| Copies.seq (number_copies.field _ _) <|
    Copies.seq (number_copies.field _ _) <| number_copies.field _ _) ?_)
  exact fun _ _ => rfl

/-- The hash is among what is stored. -/
theorem mappedModuleEx_copies : mappedModuleEx.Copies fun a _ => a := by
  refine Copies.versioned (Copies.congr (Copies.seq (Copies.ite_neg (by decide) skip_copies) <|
    Copies.seq (natural_copies.field _ _) <| Copies.seq (natural_copies.field _ _) <|
    Copies.seq (text_copies.field _ _) <|
    Copies.ite_pos (by decide) <| natural_copies.field _ _) ?_)
  exact fun _ _ => rfl

/-- The id written for nothing comes back to nothing. -/
theorem symbolInfo_copies : symbolInfo.Copies fun a _ => a := by
  refine Copies.versioned (Copies.congr (Copies.seq (natural_copies.scratch 0) <|
    Copies.seq (text_copies.field _ _) <| Copies.seq (natural_copies.field _ _) <|
    Copies.seq (natural_copies.field _ _) <| Copies.seq (natural_copies.field _ _) <|
    natural_copies.field _ _) ?_)
  exact fun _ _ => rfl

/-- All six fields. -/
theorem threadInfo_copies : threadInfo.Copies fun a _ => a := by
  refine Copies.versioned (Copies.congr (Copies.seq (natural_copies.field _ _) <|
    Copies.seq (text_copies.field _ _) <| Copies.seq (number_copies.field _ _) <|
    Copies.seq (number_copies.field _ _) <| Copies.seq (number_copies.field _ _) <|
    boolean_copies.field _ _) ?_)
  exact fun _ _ => rfl

/-- A record and its statistics. -/
theorem callStatistics_copies : callStatistics.Copies fun a _ => a := by
  refine Copies.versioned (Copies.congr (Copies.seq (natural_copies.field _ _) <|
    Copies.seq (natural_copies.field _ _) <| Copies.seq (natural_copies.field _ _) <|
    Copies.seq (natural_copies.field _ _) <| functionStatistics_copies.field _ _) ?_)
  exact fun _ _ => rfl

/-- A record copies as its data does. -/
theorem record_copies {T : Type} {c : Codec T} {copy : T → T → T} (h : c.Copies copy) :
    (record c).Copies fun a b => ⟨a.id, copy a.data b.data⟩ := by
  refine Copies.versioned (Copies.congr (Copies.seq (natural_copies.field _ _) <|
    h.field _ _) ?_)
  exact fun _ _ => rfl

/-- A map that is read is built anew from its entries. -/
def rebuilt (m : AList fun _ : Nat => String) : AList fun _ : Nat => String :=
  (m.entries.map fun e => (e.1, e.2)).foldl (fun m e => m.insert e.1 e.2) ∅

/-- Entry by entry, into an empty map. -/
theorem sourceFiles_copies : sourceFiles.Copies fun a _ => rebuilt a :=
  Copies.container _ _ (Copies.pair natural_copies text_copies)

/-- What is found after any insertions of different keys: the entry inserted, or what was there. By
    induction on the entries. -/
theorem lookup_insertAll (k : Nat) : ∀ (entries : List (Sigma fun _ : Nat => String))
    (m : AList fun _ : Nat => String), entries.NodupKeys →
    ((entries.map fun e => (e.1, e.2)).foldl (fun m e => m.insert e.1 e.2) m).lookup k =
      (entries.dlookup k).or (m.lookup k)
  | [], _, _ => rfl
  | ⟨k', v⟩ :: entries, m, h => by
    obtain ⟨hnew, hrest⟩ := List.nodupKeys_cons.1 h
    rw [List.map_cons, List.foldl_cons, lookup_insertAll k entries _ hrest]
    -- the key is the first one's, which no later entry has
    by_cases hk : k = k'
    · subst hk
      have hnone : entries.dlookup k = none := List.dlookup_eq_none.2 hnew
      rw [hnone, AList.lookup_insert, List.dlookup_cons_eq]
      rfl
    · rw [AList.lookup_insert_ne hk, List.dlookup_cons_ne _ _ hk]

/-- The map that was read has the contents of the one that was written. -/
theorem rebuilt_lookup (m : AList fun _ : Nat => String) (k : Nat) :
    (rebuilt m).lookup k = m.lookup k := by
  unfold rebuilt
  rw [lookup_insertAll k m.entries ∅ m.nodupKeys, AList.lookup_empty, Option.or_none]
  rfl

/-- The files as a map, the rest as it is. -/
theorem moduleInfoMetadata_copies :
    moduleInfoMetadata.Copies fun a _ => { a with sourceFiles := rebuilt a.sourceFiles } := by
  refine Copies.versioned (Copies.congr (Copies.seq (symbolInfo_copies.vector.field _ _) <|
    Copies.seq (sourceFiles_copies.field _ _) <|
    Copies.seq (Copies.ite_pos (by decide) <| text_copies.field _ _) <|
    Copies.ite_pos (by decide) <| natural_copies.field _ _) ?_)
  exact fun _ _ => rfl

/-- A table takes in the records of another, in their order. -/
theorem table_copies {T : Type} [Inhabited T] {c : Codec T} {f : T → T}
    (h : c.Copies fun a _ => f a) : (table c).Copies fun a b => b ++ a.map f := by
  refine Copies.congr (Copies.seq (Copies.container _ _ h) skip_copies) ?_
  exact fun a b => foldl_concat f a b

/-- The constructor's state is one number. -/
theorem autoIncrement_copies : autoIncrement.Copies fun a b => { b with nextId := a.nextId } :=
  Copies.versioned (natural_copies.field _ _)

/-- Reading makes a record, and overwrites it at once: the table has the records read, after its
    own. -/
theorem foldl_create_records (garbage : CallNodeKey Nat) : ∀ (records : List (CallStatistics Nat))
    (s : StoredStatistics), (records.foldl (ItemReader.put ⟨fun s => s,
      StoredStatistics.create garbage, fun s r => { s with records := s.records ++ [r] }⟩
      fun a _ => a) s).records = s.records ++ records
  | [], s => (List.append_nil s.records).symm
  | r :: records, s => by
    rw [List.foldl_cons, foldl_create_records garbage records]
    show (s.records ++ [r]) ++ records = _
    rw [List.append_assoc, List.singleton_append]

/-- Ids come from the archive, and so does the next one, which is read last. -/
theorem statistics_copies (garbage : CallNodeKey Nat) :
    (statistics garbage).Copies fun a b => ⟨b.records ++ a.records, a.nextId⟩ := by
  refine Copies.congr (Copies.seq (Copies.container _ _ callStatistics_copies)
    autoIncrement_copies) ?_
  intro a b
  exact congrArg (fun r => StoredStatistics.mk r a.nextId) (foldl_create_records garbage a.records b)

/-- **All of a session**, table by table: into a session that has records already they are added. -/
theorem profilingSession_copies (legacy : Legacy) (garbage : CallNodeKey Nat) :
    (profilingSession legacy garbage).Copies fun a b =>
      { processInfo := a.processInfo
        statistics := ⟨b.statistics.records ++ a.statistics.records, a.statistics.nextId⟩
        mappings := b.mappings ++ a.mappings
        modules := b.modules ++ a.modules.map fun r =>
          ⟨r.id, { r.data with sourceFiles := rebuilt r.data.sourceFiles }⟩
        threads := b.threads ++ a.threads } := by
  -- two tables whose records copy as they are, and that of the modules
  have hmappings : (table (record mappedModuleEx)).Copies fun a b => b ++ a :=
    (table_copies (f := id) (record_copies mappedModuleEx_copies)).congr fun a b => by
      rw [List.map_id]
  have hthreads : (table (record threadInfo)).Copies fun a b => b ++ a :=
    (table_copies (f := id) (record_copies threadInfo_copies)).congr fun a b => by
      rw [List.map_id]
  have hmodules := table_copies (record_copies moduleInfoMetadata_copies)
  refine Copies.versioned (Copies.congr (Copies.seq (initializationData_copies.field _ _) <|
    Copies.seq (Copies.ite_pos (by decide) <| hmappings.field _ _) <|
    Copies.seq (Copies.ite_pos (by decide) <| hmodules.field _ _) <|
    Copies.seq (Copies.ite_pos (by decide) <| (statistics_copies garbage).field _ _) <|
    Copies.ite_pos (by decide) <| hthreads.field _ _) ?_)
  exact fun _ _ => rfl

end Archive

/-! ## The round trip -/

/-- INVARIANT of a table with an `auto_increment_constructor`: its ids were given out. -/
def StoredStatistics.Issued (s : StoredStatistics) : Prop :=
  ∀ r ∈ s.records, r.id < s.nextId

/-- What is stored of the table. -/
def Statistics.stored (s : Statistics Nat) : StoredStatistics := ⟨s.values, s.nextId⟩

/-- Updates keep to it: ids below the next one are those of the records. -/
theorem Statistics.Sound.stored_issued {s : Statistics Nat} (hs : Statistics.Sound s) :
    s.stored.Issued := hs.rooted.below

/-- **Any updates leave it so**, unless they name more places than there are ids. -/
theorem Statistics.received_issued (updates : List (Statistics.Update Nat))
    (hids : (named updates).dedup.length + 1 < idCount) :
    ∃ s, Lib.run Statistics.receive32 ((.new, []), []) updates = some s ∧ s.1.1.stored.Issued ∧
      s.1.1.nextId ≤ (named updates).dedup.length + 1 := by
  obtain ⟨s, hrun, hsound, _, hle⟩ := received_ids updates
  have hlt : s.1.1.nextId < idCount := Nat.lt_of_le_of_lt hle hids
  -- with so few places named, the counter of 32 bits has not wrapped: it is the unbounded one
  have hnarrow := (Statistics.receive_narrow updates _ _ hrun).2 (Nat.le_of_lt hlt)
  rw [Statistics.narrow_eq hlt] at hnarrow
  exact ⟨s, hnarrow, hsound.stored_issued, hle⟩

/-- The records that the constructor makes next. -/
def StoredStatistics.created : List (CallNodeKey Nat) → StoredStatistics → List (CallStatistics Nat)
  | [], _ => []
  | garbage :: more, s => (s.create garbage).2 :: created more (s.create garbage).1

/-- Ids grow until the counter wraps. -/
theorem StoredStatistics.created_above : ∀ (garbage : List (CallNodeKey Nat))
    (s : StoredStatistics), s.nextId + garbage.length ≤ idCount →
    ∀ r ∈ s.created garbage, s.nextId ≤ r.id
  | [], _, _, _, hr => absurd hr List.not_mem_nil
  | g :: garbage, s, hcount, r, hr => by
    -- the first is made with the counter as it is, the others with larger ones
    obtain rfl | hr := List.mem_cons.1 hr
    · exact Nat.le_refl s.nextId
    · rw [List.length_cons] at hcount
      cases garbage with
      | nil => cases hr
      | cons g' garbage =>
        -- one more is made, so the counter has not wrapped yet
        rw [List.length_cons] at hcount
        have hnext : (s.create g).1.nextId = s.nextId + 1 := Nat.mod_eq_of_lt (by omega)
        have habove := created_above (g' :: garbage) (s.create g).1
          (by rw [hnext, List.length_cons]; omega) r hr
        omega

/-- New ids are above those of the records. -/
theorem StoredStatistics.Issued.created_ne {s : StoredStatistics} (hs : s.Issued)
    {garbage : List (CallNodeKey Nat)} (hcount : s.nextId + garbage.length ≤ idCount) :
    ∀ made ∈ s.created garbage, ∀ r ∈ s.records, made.id ≠ r.id := by
  intro made hmade r hr heq
  have habove := created_above garbage s hcount made hmade
  have hbelow := hs r hr
  omega

/-- Modules of the same contents; `source_files` is compared as a map. -/
structure ModuleInfoMetadata.Same (a b : ModuleInfoMetadata) : Prop where
  path : a.path = b.path
  hash : a.hash = b.hash
  symbols : a.symbols = b.symbols
  sourceFiles : ∀ id, a.sourceFiles.lookup id = b.sourceFiles.lookup id

/-- Sessions of the same contents. -/
structure ProfilingSession.Same (a b : ProfilingSession) : Prop where
  processInfo : a.processInfo = b.processInfo
  mappings : a.mappings = b.mappings
  modules : List.Forall₂ (fun r r' => r.id = r'.id ∧ r.data.Same r'.data) a.modules b.modules
  statistics : a.statistics = b.statistics
  threads : a.threads = b.threads

/-- Module by module, only the map is another one, with the same contents. -/
theorem modules_reread (modules : List (Record ModuleInfoMetadata)) :
    List.Forall₂ (fun r r' : Record ModuleInfoMetadata => r.id = r'.id ∧ r.data.Same r'.data)
      modules (modules.map fun r =>
        ⟨r.id, { r.data with sourceFiles := Archive.rebuilt r.data.sourceFiles }⟩) := by
  refine List.forall₂_map_right_iff.2 (List.forall₂_same.2 fun r _ => ⟨rfl, rfl, rfl, rfl, ?_⟩)
  exact fun id => (Archive.rebuilt_lookup r.data.sourceFiles id).symm

/-- **A session file is read back as the session it was written from**, to the last byte; and where
    the ids were given out by the constructor, those given out afterwards are new until it wraps. -/
theorem session_round_trip (legacy : Archive.Legacy) (garbage : CallNodeKey Nat)
    (uninitialized : InitializationData) (session : ProfilingSession) :
    ∃ loaded : ProfilingSession,
      (Archive.profilingSession legacy garbage).read (.fresh uninitialized)
          ((Archive.profilingSession legacy garbage).write session) = some (loaded, []) ∧
      session.Same loaded ∧
      (session.statistics.Issued → ∀ more, session.statistics.nextId + more.length ≤ idCount →
        ∀ made ∈ loaded.statistics.created more, ∀ r ∈ loaded.statistics.records,
          made.id ≠ r.id) := by
  -- a fresh session has no records, so what it copies is the session written
  have hcopy := Archive.profilingSession_copies legacy garbage session (.fresh uninitialized) []
  rw [List.append_nil] at hcopy
  exact ⟨_, hcopy, ⟨rfl, rfl, modules_reread session.modules, rfl, rfl⟩,
    fun hissued more hcount => hissued.created_ne hcount⟩

/-- A session whose statistics were received: a call with a callee. -/
theorem session_round_trip_received :
    let m : Sdb.Maker (CallNodeKey Nat) := .ascending fun _ => (0, 0, 0)
    let nodes : NodesMap Nat := .cons 10 ⟨1, 20, 11, 20⟩ (.cons 20 ⟨2, 9, 9, 5⟩ .nil .nil) .nil
    let legacy : Archive.Legacy := ⟨Lib.Codec.skip, Lib.Codec.skip, fun _ => Lib.Codec.skip, Lib.Codec.skip⟩
    let info : InitializationData := ⟨"a.out", 1000000, 1⟩
    ∃ s, Lib.run Statistics.receive32 ((.new, []), []) [(m, [(7, nodes)])] = some s ∧
      ∃ loaded : ProfilingSession,
        (Archive.profilingSession legacy (0, 0, 0)).read (.fresh ⟨"", 0, 0⟩)
            ((Archive.profilingSession legacy (0, 0, 0)).write
              ⟨info, s.1.1.stored, [⟨1, ⟨3, "a.out", 4096, 5⟩⟩], [], []⟩) = some (loaded, []) ∧
        loaded.statistics = s.1.1.stored ∧
        ∀ made ∈ loaded.statistics.created [(0, 0, 0), (0, 0, 0)], ∀ r ∈ loaded.statistics.records,
          made.id ≠ r.id := by
  intro m nodes legacy info
  have hnamed : (named [(m, [(7, nodes)])]).dedup.length = 2 := by decide +kernel
  obtain ⟨s, hrun, hissued, hle⟩ := Statistics.received_issued [(m, [(7, nodes)])]
    (by rw [hnamed]; decide)
  rw [hnamed] at hle
  obtain ⟨loaded, hread, hsame, hnew⟩ := session_round_trip legacy (0, 0, 0) ⟨"", 0, 0⟩
    ⟨info, s.1.1.stored, [⟨1, ⟨3, "a.out", 4096, 5⟩⟩], [], []⟩
  refine ⟨s, hrun, loaded, hread, hsame.statistics.symm, hnew hissued _ ?_⟩
  show s.1.1.nextId + 2 ≤ idCount
  rw [idCount]
  omega

/-- **Ids repeat** once the counter has wrapped: with one id left the third record that is made has the
    id of the one that was loaded. -/
theorem created_ids_repeat :
    let statistics : StoredStatistics := ⟨[⟨1, 7, 0, 10, {}⟩], idCount - 1⟩
    let legacy : Archive.Legacy := ⟨Lib.Codec.skip, Lib.Codec.skip, fun _ => Lib.Codec.skip, Lib.Codec.skip⟩
    statistics.Issued ∧ ∃ loaded : ProfilingSession,
      (Archive.profilingSession legacy (0, 0, 0)).read (.fresh ⟨"", 0, 0⟩)
          ((Archive.profilingSession legacy (0, 0, 0)).write ⟨⟨"a.out", 1, 0⟩, statistics, [], [], []⟩) =
        some (loaded, []) ∧
      ∃ made ∈ loaded.statistics.created [(0, 0, 0), (0, 0, 0), (0, 0, 0)],
        ∃ r ∈ loaded.statistics.records, made.id = r.id := by
  intro statistics legacy
  have hcopy := Archive.profilingSession_copies legacy (0, 0, 0)
    ⟨⟨"a.out", 1, 0⟩, statistics, [], [], []⟩ (.fresh ⟨"", 0, 0⟩) []
  rw [List.append_nil] at hcopy
  refine ⟨fun r hr => ?_, _, hcopy, ⟨1, 0, 0, 0, {}⟩, ?_, ⟨1, 7, 0, 10, {}⟩, List.mem_cons_self, rfl⟩
  · rw [List.mem_singleton.mp hr]
    decide
  · show _ ∈ StoredStatistics.created [(0, 0, 0), (0, 0, 0), (0, 0, 0)] ⟨[⟨1, 7, 0, 10, {}⟩], idCount - 1⟩
    decide

end MicroProfiler.Frontend
