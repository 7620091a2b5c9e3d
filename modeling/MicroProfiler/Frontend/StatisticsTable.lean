/-
  The frontend's statistics table and its additive deserialization (`frontend/serialization.h`).

  1. **The code** — `CallStatistics`, its key `callnode`, the auto-increment constructor, and
     `call_nodes_reader`: for each node of the stream find or create the record of its thread,
     parent and address, add the statistics to it, and read the callees under the record's own id
     (`readNodes`), thread by thread (`deserialize`).  The stream is given as the decoded items, in
     the order they were written.  `callstack` is the keyer that follows the parents up.

  2. **The forest** (`Sound`) — ids and keys stay unique and parents come first, so that records
     and address paths name each other (`Lib.Forest`).

  3. **The effect of reading** (`readNodes_absorbs`, `readThreads_absorbs`) — seen as a function of
     thread and path (`Reads`), the table takes in the statistics of one node after the other.
-/
import MicroProfiler.Common.Account
import MicroProfiler.Collector.CallGraph
import MicroProfiler.Sdb.Table
import MicroProfiler.Lib.Forest

namespace MicroProfiler.Frontend

open Sdb

variable {K : Type}

/-- `call_statistics`, without the cached path. -/
structure CallStatistics (K : Type) where
  /-- given by the table's constructor, never changed -/
  id : Nat
  threadId : Nat
  /-- zero for a root -/
  parentId : Nat
  address : K
  stats : FunctionStatistics
deriving DecidableEq, Repr

/-- `call_node_key`: thread, parent and address.  It tells a record as well as its id does. -/
abbrev CallNodeKey (K : Type) := Nat × Nat × K

/-- `keyer::callnode`. -/
def callnode (r : CallStatistics K) : CallNodeKey K := (r.threadId, r.parentId, r.address)

/-- `keyer::callnode`, writing the key into a record. -/
def setCallnode (r : CallStatistics K) (key : CallNodeKey K) : CallStatistics K :=
  { r with threadId := key.1, parentId := key.2.1, address := key.2.2 }

/-- `auto_increment_constructor`: the fields of the key are left uninitialised. -/
def construct (nextId : Nat) (garbage : CallNodeKey K) : CallStatistics K :=
  ⟨nextId, garbage.1, garbage.2.1, garbage.2.2, {}⟩

/-- `tables::statistics`: the table with its index by `callnode`, and the constructor's next id.
    The id is a number here; `RecordIds` says what becomes of it in 32 bits. -/
structure Statistics (K : Type) where
  table : Table Unit (CallStatistics K) fun _ => CallNodeKey K
  nextId : Nat

namespace Statistics

/-- The empty table; ids begin with 1, so that 0 is nobody's. -/
def new : Statistics K := ⟨.empty, 1⟩

/-- The records, in table order. -/
def values (s : Statistics K) : List (CallStatistics K) := s.table.records.map Prod.snd

/-- `sdb::unique_index<keyer::callnode>`. -/
def indexed (s : Statistics K) : Statistics K :=
  { s with table := s.table.component () callnode .hashed }

/-- Assignment through a `transacted_record`. -/
def write (s : Statistics K) (record : Handle) (value : CallStatistics K) : Statistics K :=
  { s with table := s.table.write record value }

/-- `transacted_record::commit`. -/
def commit (s : Statistics K) (record : Handle) (isNew : Bool) : Option (Statistics K) :=
  if isNew then (s.table.commitCreation record).map fun t => { s with table := t }
  else some { s with table := s.table.commitModification record }

/-- `unique_index<id>(table).find(id)`. -/
def byId (s : Statistics K) (id : Nat) : Option (CallStatistics K) :=
  s.values.find? fun r => r.id = id

/-- `keyer::callstack::key_append`, to a depth. -/
def keyAppend (byId : Nat → Option (CallStatistics K)) : Nat → CallStatistics K → Option (List K)
  | 0, _ => none
  -- the parent's key first, then the record's own address
  | depth + 1, record =>
      if record.parentId = 0 then some [record.address]
      else (byId record.parentId).bind fun parent =>
        (keyAppend byId depth parent).map fun key => key ++ [record.address]

/-- `keyer::callstack`: the address path of a record.  Ids are below `nextId` and decrease towards
    the root, which bounds the depth. -/
def callstack (s : Statistics K) (record : CallStatistics K) : Option (List K) :=
  keyAppend s.byId s.nextId record

variable [DecidableEq K]

/-- `container[key]`: a record and whether it is new. -/
def subscript (m : Maker (CallNodeKey K)) (s : Statistics K) (key : CallNodeKey K) :
    Option (Statistics K × Handle × Bool) :=
  let handles := s.table.handles
  (s.table.subscript () setCallnode key (m.pick handles)
    (construct s.nextId (m.construct handles))).map fun r =>
      -- the constructor was called only if the record is new
      (⟨r.1, if r.2.2 then s.nextId + 1 else s.nextId⟩, r.2)

/-- `container[key].commit()`. -/
def touch (m : Maker (CallNodeKey K)) (s : Statistics K) (key : CallNodeKey K) :
    Option (Statistics K) :=
  (s.subscript m key).bind fun r => r.1.commit r.2.1 r.2.2

/-- `call_nodes_reader::read_item` for each item of a map of callees, with `serialize` for
    `function_statistics` (which adds) and for `call_statistics` (which reads the callees). -/
def readNodes (m : Maker (CallNodeKey K)) (threadId : Nat) :
    NodesMap K → Nat → Statistics K → Option (Statistics K)
  | .nil, _, s => some s
  | .cons address v callees rest, parentId, s =>
      -- the record is committed once before anything is read into it,
      (s.touch m (threadId, parentId, address)).bind fun s =>
      -- and found again
      (s.subscript m (threadId, parentId, address)).bind fun r =>
      (r.1.table.lookup r.2.1).bind fun data =>
      let s := r.1.write r.2.1 { data with stats := data.stats.add v }
      -- the callees are read under the record's own id
      (readNodes m threadId callees data.id s).bind fun s =>
      (s.commit r.2.1 r.2.2).bind fun s =>
      readNodes m threadId rest parentId s

/-- What the reader of the outer container works on: the table, the thread ids of the `additive`
    context, and `_first`.  The first item of a stream clears the threads. -/
abbrev Reading (K : Type) := Statistics K × List Nat × Bool

/-- `call_nodes_reader::read_item` for a thread. -/
def readThread (m : Maker (CallNodeKey K)) (s : Reading K) (item : Nat × NodesMap K) :
    Option (Reading K) :=
  (readNodes m item.1 item.2 0 s.1).map fun table =>
    (table, (if s.2.2 then [] else s.2.1) ++ [item.1], false)

/-- `serialize` for `tables::statistics`; `prepare` sets `_first`. -/
def deserialize (m : Maker (CallNodeKey K)) (s : Statistics K) (threads : List Nat)
    (stream : List (Nat × NodesMap K)) : Option (Statistics K × List Nat) :=
  (Lib.run (readThread m) (s.indexed, threads, true) stream).map fun r => (r.1, r.2.1)

/-- The records of a thread with an address path. -/
def recordsAt (s : Statistics K) (threadId : Nat) (path : List K) : List (CallStatistics K) :=
  s.values.filter fun r => r.threadId = threadId ∧ s.callstack r = some path

end Statistics

/-! ## The forest of records -/

/-- Ids, parents, and what tells siblings apart.  This makes the table an instance of `Lib.Forest`.
    -/
def linkage : Lib.Linkage (CallStatistics K) (Nat × K) :=
  ⟨CallStatistics.id, CallStatistics.parentId, fun r => (r.threadId, r.address)⟩

/-- The address path leads to the id, within a thread.  The empty path leads to 0, above the roots.
    -/
def At (values : List (CallStatistics K)) (threadId : Nat) (path : List K) (id : Nat) : Prop :=
  Lib.PathTo linkage values (path.map (Prod.mk threadId)) id

/-- The records form a forest, each tree within a thread. -/
structure Rooted (values : List (CallStatistics K)) (nextId : Nat) : Prop where
  /-- parents come first, and siblings differ -/
  forest : Lib.Forest linkage values
  /-- as a list, for the index by id -/
  ids : (values.map CallStatistics.id).Nodup
  /-- so that the next id is new -/
  below : ∀ r ∈ values, r.id < nextId
  positive : 0 < nextId
  /-- a callee is of its caller's thread -/
  threads : ∀ r ∈ values, ∀ parent ∈ values, parent.id = r.parentId → parent.threadId = r.threadId

/-- A path that is not empty tells its thread. -/
theorem map_mk_injective {t t' : Nat} {p p' : List K} (hp : p ≠ [])
    (h : p.map (Prod.mk t) = p'.map (Prod.mk t')) : t = t' ∧ p = p' := by
  have hsnd : p = p' := by
    have := congrArg (List.map Prod.snd) h
    simpa [List.map_map, Function.comp_def] using this
  subst hsnd
  cases p with
  | nil => exact absurd rfl hp
  | cons k p => exact ⟨(Prod.mk.inj (List.cons.inj h).1).1, rfl⟩

section

variable {values values' : List (CallStatistics K)} {nextId : Nat}

/-- A record's path is not empty: the empty one leads to 0. -/
theorem At.ne_nil (h : Rooted values nextId) {t : Nat} {p : List K} {r : CallStatistics K}
    (hp : At values t p r.id) (hr : r ∈ values) : p ≠ [] := by
  rintro rfl
  have hzero := h.forest.id_eq hp .root rfl
  exact absurd hzero (Nat.pos_iff_ne_zero.mp (h.forest.positive r hr))

/-- **Thread and path of a record are its own.** -/
theorem At.inj (h : Rooted values nextId) {t t' : Nat} {p p' : List K} {r : CallStatistics K}
    (hr : r ∈ values) (hp : At values t p r.id) (hp' : At values t' p' r.id) :
    t = t' ∧ p = p' :=
  map_mk_injective (hp.ne_nil h hr) (h.forest.path_eq hp hp' rfl)

/-- **A path of a thread has one record.** -/
theorem At.unique (h : Rooted values nextId) {t : Nat} {p : List K} {r r' : CallStatistics K}
    (hr : r ∈ values) (hr' : r' ∈ values) (hp : At values t p r.id) (hp' : At values t p r'.id) :
    r = r' :=
  h.forest.ids r hr r' hr' (h.forest.id_eq hp hp' rfl)

/-- One address further down. -/
theorem At.child {t : Nat} {p : List K} {r : CallStatistics K} (hp : At values t p r.parentId)
    (hr : r ∈ values) (ht : r.threadId = t) : At values t (p ++ [r.address]) r.id := by
  subst ht
  unfold At
  rw [List.map_append]
  exact Lib.PathTo.child (g := linkage) hp hr

/-- Where a path leads, there is a root or a record of its thread. -/
theorem At.cases {t : Nat} {p : List K} {i : Nat} (hp : At values t p i) :
    i = 0 ∨ ∃ r ∈ values, r.id = i ∧ r.threadId = t := by
  unfold At at hp
  generalize hq : p.map (Prod.mk t) = q at hp
  cases hp with
  | root => exact Or.inl rfl
  | @child q n _ hn =>
    refine Or.inr ⟨n, hn, rfl, ?_⟩
    have hlast : linkage.label n ∈ p.map (Prod.mk t) := by
      rw [hq]
      exact List.mem_append_right _ (List.mem_singleton.mpr rfl)
    obtain ⟨k, _, hk⟩ := List.mem_map.mp hlast
    exact (Prod.mk.inj hk).1.symm

/-- **A record comes**, under a node of its thread: its id is above all others, and no sibling has
    its address. -/
theorem Rooted.add (h : Rooted values nextId) {r : CallStatistics K} (hid : r.id = nextId)
    {p : List K} (hp : At values r.threadId p r.parentId)
    (hkey : ∀ x ∈ values, callnode x ≠ callnode r) :
    Lib.Joining linkage values r ∧ Rooted (values ++ [r]) (nextId + 1) := by
  have hparent := hp.cases
  have hjoining : Lib.Joining linkage values r := by
    refine ⟨?_, ?_, ?_, ?_⟩
    · intro x hx
      show x.id < r.id
      rw [hid]
      exact h.below x hx
    · show 0 < r.id
      rw [hid]
      exact h.positive
    · rcases hparent with hzero | ⟨x, hx, hxid, _⟩
      · exact Or.inl hzero
      · exact Or.inr ⟨x, hx, hxid⟩
    · intro x hx hxparent hlabel
      obtain ⟨hthread, haddress⟩ := Prod.mk.inj hlabel
      exact hkey x hx (congrArg₂ Prod.mk hthread (congrArg₂ Prod.mk hxparent haddress))
  refine ⟨hjoining, h.forest.add hjoining, ?_, ?_, Nat.succ_pos _, ?_⟩
  · -- ids stay unique
    rw [List.map_append]
    refine Lib.nodup_append_singleton h.ids fun hx => ?_
    obtain ⟨x, hx, heq⟩ := List.mem_map.mp hx
    have hlt := h.below x hx
    rw [heq, hid] at hlt
    exact Nat.lt_irrefl _ hlt
  · intro x hx
    rcases List.mem_append.mp hx with hx | hx
    · exact Nat.lt_succ_of_lt (h.below x hx)
    · rw [List.mem_singleton.mp hx, hid]
      exact Nat.lt_succ_self _
  · -- and threads stay the parents'
    intro x hx parent hpar heq
    rcases List.mem_append.mp hpar with hpar | hpar
    · rcases List.mem_append.mp hx with hx | hx
      · exact h.threads x hx parent hpar heq
      · -- the parent is the node the path leads to
        rw [List.mem_singleton.mp hx] at heq ⊢
        rcases hparent with hzero | ⟨y, hy, hyid, hythread⟩
        · exact absurd (heq.trans hzero) (Nat.pos_iff_ne_zero.mp (h.forest.positive _ hpar))
        · rw [h.forest.ids parent hpar y hy (heq.trans hyid.symm)]
          exact hythread
    · -- the new record is nobody's parent
      exfalso
      rw [List.mem_singleton.mp hpar] at heq
      rcases List.mem_append.mp hx with hx | hx
      · exact Nat.ne_of_lt (h.forest.parent_lt hjoining hx) heq.symm
      · rw [List.mem_singleton.mp hx] at heq
        rcases hparent with hzero | ⟨y, hy, hyid, _⟩
        · exact Nat.ne_of_gt hjoining.positive (heq.trans hzero)
        · exact Nat.ne_of_lt (hjoining.later y hy) (hyid.trans heq.symm)

/-- Records that change in their statistics only. -/
theorem Rooted.reshape (h : Rooted values nextId) {f : CallStatistics K → CallStatistics K}
    (hf : ∀ r, (f r).id = r.id ∧ callnode (f r) = callnode r) : Rooted (values.map f) nextId := by
  have hshape : ∀ r, (f r).id = r.id ∧ (f r).parentId = r.parentId ∧
      (f r).threadId = r.threadId ∧ (f r).address = r.address := by
    intro r
    obtain ⟨hid, hkey⟩ := hf r
    obtain ⟨hthread, hrest⟩ := Prod.mk.inj hkey
    obtain ⟨hparent, haddress⟩ := Prod.mk.inj hrest
    exact ⟨hid, hparent, hthread, haddress⟩
  refine ⟨h.forest.reshape ?_, ?_, ?_, h.positive, ?_⟩
  · intro r _
    obtain ⟨hid, hparent, hthread, haddress⟩ := hshape r
    exact ⟨hid, hparent, congrArg₂ Prod.mk hthread haddress⟩
  · rw [List.map_map]
    have hsame : CallStatistics.id ∘ f = CallStatistics.id := funext fun r => (hf r).1
    rw [hsame]
    exact h.ids
  · intro x hx
    obtain ⟨r, hr, rfl⟩ := List.mem_map.mp hx
    rw [(hf r).1]
    exact h.below r hr
  · intro x hx y hy heq
    obtain ⟨r, hr, rfl⟩ := List.mem_map.mp hx
    obtain ⟨q, hq, rfl⟩ := List.mem_map.mp hy
    rw [(hshape r).2.1, (hshape q).1] at heq
    rw [(hshape r).2.2.1, (hshape q).2.2.1]
    exact h.threads r hr q hq heq

/-- **Every record has a path in its thread.**  By induction from the roots. -/
theorem Rooted.exists_at (h : Rooted values nextId) : ∀ r ∈ values,
    ∃ p, At values r.threadId p r.parentId ∧ At values r.threadId (p ++ [r.address]) r.id := by
  refine h.forest.rootward ?_ ?_
  · -- a root is its own path
    intro r hr hzero
    have hroot : At values r.threadId [] r.parentId := by
      show Lib.PathTo linkage values [] (linkage.parent r)
      rw [hzero]
      exact .root
    exact ⟨[], hroot, hroot.child hr rfl⟩
  · -- a callee continues its parent's
    rintro r hr parent hparent hid ⟨p, _, hp⟩
    rw [h.threads r hr parent hparent hid, show parent.id = r.parentId from hid] at hp
    exact ⟨_, hp, hp.child hr rfl⟩

/-- A record is the only one with its id. -/
theorem Rooted.find_id (h : Rooted values nextId) {r : CallStatistics K} (hr : r ∈ values) :
    values.find? (fun x => x.id = r.id) = some r :=
  Lib.find?_of_unique hr (decide_eq_true rfl) fun x hx heq =>
    h.forest.ids x hx r hr (of_decide_eq_true heq)

end

/-! ## The table as a function of thread and path -/

/-- What the records hold, read by thread and path.  All that is proved of updates is proved of this
    function. -/
def Reads (values : List (CallStatistics K)) (F : Nat × List K → Option FunctionStatistics) :
    Prop :=
  ∀ t p v, F (t, p) = some v ↔ ∃ r ∈ values, At values t p r.id ∧ r.stats = v

/-- **One record is replaced**, or comes: the function changes at its place only.  `hmem` covers
    both, since the record that was there has the id of the one that is there now. -/
theorem Reads.absorb [DecidableEq K] {values values' : List (CallStatistics K)} {n n' : Nat}
    {F : Nat × List K → Option FunctionStatistics} (hF : Reads values F) (h : Rooted values n)
    (h' : Rooted values' n') (hmono : ∀ t p i, At values t p i → At values' t p i)
    {r : CallStatistics K} (hmem : ∀ x, x ∈ values' ↔ (x ∈ values ∧ x.id ≠ r.id) ∨ x = r)
    {t : Nat} {p : List K} (hp : At values' t p r.id) {v : FunctionStatistics}
    (hv : some r.stats = Account.absorbed (F (t, p)) (some v)) :
    Reads values' (Account.absorb F ((t, p), v)) := by
  have hr : r ∈ values' := (hmem r).mpr (Or.inr rfl)
  intro t' p' w
  unfold Account.absorb
  by_cases hplace : (t', p') = (t, p)
  · -- at its place stands the record itself
    obtain ⟨rfl, rfl⟩ := Prod.mk.inj hplace
    rw [Function.update_self, ← hv]
    constructor
    · intro hw
      exact ⟨r, hr, hp, Option.some.inj hw⟩
    · rintro ⟨x, hx, hxp, rfl⟩
      rw [hp.unique h' hr hx hxp]
  · rw [Function.update_of_ne hplace, hF]
    -- the record at any other place is not `r`
    have hother : ∀ x ∈ values', At values' t' p' x.id → x ≠ r := by
      rintro x hx hxp rfl
      obtain ⟨rfl, rfl⟩ := hxp.inj h' hr hp
      exact hplace rfl
    constructor
    · rintro ⟨x, hx, hxp, hxv⟩
      have hne : x.id ≠ r.id := by
        intro heq
        have hxp' := hmono t' p' _ hxp
        rw [heq] at hxp'
        exact hother r hr hxp' rfl
      exact ⟨x, (hmem x).mpr (Or.inl ⟨hx, hne⟩), hmono t' p' _ hxp, hxv⟩
    · rintro ⟨x, hx, hxp, hxv⟩
      have hx₀ : x ∈ values := ((hmem x).mp hx).resolve_right (hother x hx hxp) |>.1
      obtain ⟨q, _, hq⟩ := h.exists_at x hx₀
      obtain ⟨rfl, rfl⟩ := (hmono _ _ _ hq).inj h' hx hxp
      exact ⟨x, hx₀, hq, hxv⟩

/-- The statistics of one record are written, as the values see it: the id tells the record as the
    handle does. -/
theorem values_restat {records : List (Handle × CallStatistics K)}
    (hhandles : (records.map Prod.fst).Nodup) (hids : (records.map fun e => e.2.id).Nodup)
    {h : Handle} {old r : CallStatistics K} (hold : (h, old) ∈ records)
    (heq : { old with stats := r.stats } = r) :
    (records.map fun e => if e.1 = h then (h, r) else e).map Prod.snd =
      (records.map Prod.snd).map fun x => if x.id = r.id then { x with stats := r.stats } else x := by
  have hid : old.id = r.id := by rw [← heq]
  rw [List.map_map, List.map_map]
  apply List.map_congr_left
  intro e he
  show (if e.1 = h then (h, r) else e).2 = ite (e.2.id = r.id) _ e.2
  by_cases hsame : e.2.id = r.id
  · obtain rfl : e = (h, old) := List.inj_on_of_nodup_map hids he hold (hsame.trans hid.symm)
    rw [if_pos rfl, if_pos hsame]
    exact heq.symm
  · have hne : e.1 ≠ h := by
      intro hh
      rw [List.inj_on_of_nodup_map hhandles he hold hh] at hsame
      exact hsame hid
    rw [if_neg hne, if_neg hsame]

/-! ## Reading an item -/

namespace Statistics

/-- The table while it is read into: nothing pending, indexed, a forest. -/
structure Ready (s : Statistics K) : Prop where
  consistent : s.table.Consistent []
  index : s.table.keyerOf () = some callnode
  rooted : Rooted s.values s.nextId

/-- The id tells the record, whatever its address. -/
theorem Ready.nodup_ids {s : Statistics K} (hs : Ready s) :
    (s.table.records.map fun e => e.2.id).Nodup := by
  have hids := hs.rooted.ids
  unfold values at hids
  rw [List.map_map] at hids
  exact hids

/-- Writing to a record, as the values see it. -/
theorem values_write {s : Statistics K} (hs : Ready s) {h : Handle} {r : CallStatistics K}
    (hr : (h, r) ∈ s.table.records) (w : FunctionStatistics) :
    (s.write h { r with stats := w }).values =
      s.values.map fun x => if x.id = r.id then { x with stats := w } else x :=
  values_restat hs.consistent.nodup hs.nodup_ids hr rfl

/-- The value of a record is among the values. -/
theorem mem_values {s : Statistics K} {h : Handle} {r : CallStatistics K}
    (hr : (h, r) ∈ s.table.records) : r ∈ s.values := List.mem_map.mpr ⟨(h, r), hr, rfl⟩

/-- The parts of a key. -/
theorem callnode_eq {r : CallStatistics K} {t parentId : Nat} {k : K}
    (h : callnode r = (t, parentId, k)) :
    r.threadId = t ∧ r.parentId = parentId ∧ r.address = k := by
  obtain ⟨ht, hrest⟩ := Prod.mk.inj h
  obtain ⟨hparent, hk⟩ := Prod.mk.inj hrest
  exact ⟨ht, hparent, hk⟩

/-- The record of the key `t`, parent, last address of `p`, found or created.  A record that was
    found is there already, with what its place holds; a new one holds nothing. -/
structure Touched (s s' : Statistics K) (t : Nat) (p : List K) (h : Handle)
    (r : CallStatistics K) : Prop where
  ready : Ready s'
  record : (h, r) ∈ s'.table.records
  /-- nothing else came or went -/
  mem : ∀ x, x ∈ s'.values ↔ x ∈ s.values ∨ x = r
  /-- paths lead where they led -/
  mono : ∀ t p i, At s.values t p i → At s'.values t p i
  path : At s'.values t p r.id
  /-- what the record holds is what its place holds -/
  stats : ∀ F, Reads s.values F → r.stats = (F (t, p)).getD {}

/-- The record was found: nothing changes. -/
theorem touched_found {s : Statistics K} (hs : Ready s) {t parentId : Nat} {p : List K} {k : K}
    (hp : At s.values t p parentId) {h : Handle} {r : CallStatistics K}
    (hmem : (h, r) ∈ s.table.records) (hkey : callnode r = (t, parentId, k)) :
    Touched s s t (p ++ [k]) h r := by
  have hr := mem_values hmem
  obtain ⟨ht, rfl, rfl⟩ := callnode_eq hkey
  have hpath := hp.child hr ht
  refine ⟨hs, hmem, ?_, fun _ _ _ h => h, hpath, ?_⟩
  · -- it was there
    intro x
    constructor
    · exact Or.inl
    · rintro (hx | rfl)
      · exact hx
      · exact hr
  · -- and its place holds what it holds
    intro F hF
    rw [(hF t _ r.stats).mpr ⟨r, hr, hpath, rfl⟩]
    rfl

/-- **A new record is committed**, whatever the constructor's next id. -/
theorem commit_created {s : Statistics K} (hs : s.table.Consistent []) {h : Handle}
    (hfresh : h ∉ s.table.handles) (r : CallStatistics K) (nextId : Nat) :
    ∃ table, (Statistics.mk (s.table.create h r) nextId).commit h true = some ⟨table, nextId⟩ ∧
      table.records = s.table.records ++ [(h, r)] ∧ table.keyerOf () = s.table.keyerOf () ∧
      table.Consistent [] := by
  obtain ⟨table, hcommit, hrecords, hkeyer, hconsistent⟩ :=
    (hs.create hfresh r).commitCreation List.mem_cons_self
  have hpending : ([h].filter fun x => x ≠ h) = [] := by simp
  rw [hpending] at hconsistent
  refine ⟨table, ?_, hrecords, hkeyer (), hconsistent⟩
  unfold commit
  rw [if_pos rfl]
  exact congrArg (Option.map _) hcommit

/-- The record was created: a leaf of the forest, at a path that led nowhere. -/
theorem touched_created {s : Statistics K} (hs : Ready s) {t parentId : Nat} {p : List K} {k : K}
    (hp : At s.values t p parentId) {h : Handle} {r : CallStatistics K}
    (hfresh : h ∉ s.table.handles) (hid : r.id = s.nextId) (hstats : r.stats = {})
    (hkey : callnode r = (t, parentId, k)) (hnone : ∀ x ∈ s.values, callnode x ≠ callnode r) :
    ∃ s', (Statistics.mk (s.table.create h r) (s.nextId + 1)).commit h true = some s' ∧
      s'.table.records = s.table.records ++ [(h, r)] ∧ s'.nextId = s.nextId + 1 ∧
      Touched s s' t (p ++ [k]) h r := by
  obtain ⟨ht, rfl, rfl⟩ := callnode_eq hkey
  subst ht
  obtain ⟨table, hcommit, hrecords, hkeyer, hconsistent⟩ :=
    commit_created hs.consistent hfresh r (s.nextId + 1)
  obtain ⟨hjoining, hrooted⟩ := hs.rooted.add hid hp hnone
  have hvalues : (Statistics.mk table (s.nextId + 1)).values = s.values ++ [r] := by
    show table.records.map Prod.snd = _
    rw [hrecords, List.map_append]
    rfl
  have hmono : ∀ t p i, At s.values t p i → At (s.values ++ [r]) t p i := fun _ _ _ hp =>
    hp.mono fun n hn => ⟨n, List.mem_append_left _ hn, rfl, rfl, rfl⟩
  have hr : r ∈ s.values ++ [r] := List.mem_append_right _ (List.mem_singleton.mpr rfl)
  have hpath : At (s.values ++ [r]) r.threadId (p ++ [r.address]) r.id :=
    (hmono _ _ _ hp).child hr rfl
  refine ⟨⟨table, s.nextId + 1⟩, hcommit, hrecords, rfl, ⟨hconsistent, hkeyer.trans hs.index, ?_⟩,
    ?_, ?_, ?_, ?_, ?_⟩
  · rw [hvalues]
    exact hrooted
  · rw [hrecords]
    exact List.mem_append_right _ (List.mem_singleton.mpr rfl)
  · intro x
    rw [hvalues, List.mem_append, List.mem_singleton]
  · rw [hvalues]
    exact hmono
  · rw [hvalues]
    exact hpath
  · -- no record was at the path before: it would have the key
    intro F hF
    have hnothing : F (r.threadId, p ++ [r.address]) = none := by
      cases hF' : F (r.threadId, p ++ [r.address]) with
      | none => rfl
      | some v =>
        obtain ⟨x, hx, hxp, _⟩ := (hF _ _ v).mp hF'
        obtain rfl := (hmono _ _ _ hxp).unique hrooted (List.mem_append_left _ hx) hr hpath
        exact absurd rfl (hnone _ hx)
    rw [hnothing, hstats]
    rfl

variable [DecidableEq K]

/-- **`container[key]`** finds the record of the key or creates it. -/
theorem subscript_cases {s : Statistics K} (hconsistent : s.table.Consistent [])
    (hindex : s.table.keyerOf () = some callnode) (m : Maker (CallNodeKey K)) (key : CallNodeKey K) :
    (∃ h r, s.subscript m key = some (s, h, false) ∧ (h, r) ∈ s.table.records ∧
      callnode r = key) ∨
    ∃ h r, s.subscript m key = some (⟨s.table.create h r, s.nextId + 1⟩, h, true) ∧
      h ∉ s.table.handles ∧ r.id = s.nextId ∧ r.stats = {} ∧ callnode r = key ∧
      ∀ x ∈ s.values, callnode x ≠ key := by
  obtain ⟨x, hx, hkeyer⟩ := Option.map_eq_some_iff.mp hindex
  have hfresh := m.fresh s.table.handles
  rcases hconsistent.subscript hx setCallnode key hfresh
    (construct s.nextId (m.construct s.table.handles)) with ⟨found, v, heq, hmem, hkey⟩ | ⟨heq, hnone, _⟩
  · -- found in the index
    rw [Table.settled_nil] at hmem
    refine Or.inl ⟨found, v, ?_, hmem, hkeyer ▸ hkey⟩
    unfold Statistics.subscript
    simp only [heq]
    rfl
  · -- not in the index, so not in the table
    rw [Table.settled_nil] at hnone
    refine Or.inr ⟨m.pick s.table.handles,
      setCallnode (construct s.nextId (m.construct s.table.handles)) key, ?_, hfresh, rfl, rfl, rfl,
      ?_⟩
    · unfold Statistics.subscript
      simp only [heq]
      rfl
    · intro y hy
      obtain ⟨e, he, rfl⟩ := List.mem_map.mp hy
      rw [← hkeyer]
      exact hnone e he

/-- The same, of a table that is read into. -/
theorem Ready.subscript {s : Statistics K} (hs : Ready s) (m : Maker (CallNodeKey K))
    (key : CallNodeKey K) :
    (∃ h r, s.subscript m key = some (s, h, false) ∧ (h, r) ∈ s.table.records ∧
      callnode r = key) ∨
    ∃ h r, s.subscript m key = some (⟨s.table.create h r, s.nextId + 1⟩, h, true) ∧
      h ∉ s.table.handles ∧ r.id = s.nextId ∧ r.stats = {} ∧ callnode r = key ∧
      ∀ x ∈ s.values, callnode x ≠ key :=
  subscript_cases hs.consistent hs.index m key

/-- **`container[key].commit()`** leaves the record of the key, wherever it was. -/
theorem Ready.touch {s : Statistics K} (hs : Ready s) (m : Maker (CallNodeKey K))
    {t parentId : Nat} {p : List K} (hp : At s.values t p parentId) (k : K) :
    ∃ s' h r, s.touch m (t, parentId, k) = some s' ∧ callnode r = (t, parentId, k) ∧
      Touched s s' t (p ++ [k]) h r := by
  unfold Statistics.touch
  rcases hs.subscript m (t, parentId, k) with ⟨h, r, heq, hmem, hkey⟩ |
    ⟨h, r, heq, hfresh, hid, hstats, hkey, hnone⟩
  · -- found: the commit changes nothing
    refine ⟨s, h, r, ?_, hkey, touched_found hs hp hmem hkey⟩
    rw [heq, Option.bind_some]
    show some { s with table := s.table.commitModification h } = some s
    rw [hs.consistent.commitModification]
  · -- created: the commit makes it a record
    obtain ⟨s', hcommit, _, _, htouched⟩ :=
      touched_created hs hp hfresh hid hstats hkey (hkey ▸ hnone)
    exact ⟨s', h, r, by rw [heq]; exact hcommit, hkey, htouched⟩

/-- The second `container[key]` finds it, where it is in a table that is indexed. -/
theorem Touched.subscript {s s' : Statistics K} {t : Nat} {p : List K} {h : Handle}
    {r : CallStatistics K} (hr : Touched s s' t p h r) (m : Maker (CallNodeKey K)) :
    s'.subscript m (callnode r) = some (s', h, false) := by
  rcases hr.ready.subscript m (callnode r) with ⟨h', r', heq, hmem, hkey⟩ |
    ⟨_, _, _, _, _, _, _, hnone⟩
  · obtain ⟨ht, hparent, hk⟩ := callnode_eq hkey
    obtain rfl := hr.ready.rooted.forest.keys r' (mem_values hmem) r (mem_values hr.record) hparent
      (congrArg₂ Prod.mk ht hk)
    obtain ⟨rfl, _⟩ := Prod.mk.inj
      (List.inj_on_of_nodup_map hr.ready.nodup_ids hmem hr.record rfl)
    exact heq
  · exact absurd rfl (hnone r (mem_values hr.record))

/-- **Adding statistics to the touched record.**  Its key stays, so the index does, and the forest
    does. -/
theorem Touched.add {s s' : Statistics K} {t : Nat} {p : List K} {h : Handle}
    {r : CallStatistics K} (hr : Touched s s' t p h r) (hs : Ready s) (v : FunctionStatistics) :
    let added := s'.write h { r with stats := r.stats.add v }
    Ready added ∧ (∀ t p i, At s.values t p i → At added.values t p i) ∧
      At added.values t p r.id ∧
      ∀ F, Reads s.values F → Reads added.values (Account.absorb F ((t, p), v)) := by
  intro added
  have hmem := mem_values hr.record
  have hvalues : added.values = s'.values.map fun x =>
      if x.id = r.id then { x with stats := r.stats.add v } else x :=
    values_write hr.ready hr.record _
  have hshape : ∀ x : CallStatistics K,
      (if x.id = r.id then { x with stats := r.stats.add v } else x).id = x.id ∧
      callnode (if x.id = r.id then { x with stats := r.stats.add v } else x) = callnode x := by
    intro x
    split <;> exact ⟨rfl, rfl⟩
  -- the values change in the statistics of one record
  have hrooted : Rooted added.values added.nextId := by
    rw [hvalues]
    exact hr.ready.rooted.reshape hshape
  have hat : ∀ t p i, At s'.values t p i → At added.values t p i := by
    intro t p i hp
    rw [hvalues]
    refine (Lib.pathTo_reshape ?_).mpr hp
    intro x _
    split <;> exact ⟨rfl, rfl, rfl⟩
  refine ⟨⟨?_, hr.ready.index, hrooted⟩, fun t p i hp => hat t p i (hr.mono t p i hp),
    hat t p _ hr.path, ?_⟩
  · -- the index is exact still
    exact hr.ready.consistent.write_same_key hr.ready.index hr.record rfl
  · intro F hF
    refine hF.absorb hs.rooted hrooted (r := { r with stats := r.stats.add v })
      (fun t p i hp => hat t p i (hr.mono t p i hp)) ?_ (hat t p _ hr.path) ?_
    · intro x
      rw [hvalues, List.mem_map]
      constructor
      -- who is there is as before, unless it is the record
      · rintro ⟨y, hy, rfl⟩
        by_cases heq : y.id = r.id
        · rw [if_pos heq, hr.ready.rooted.forest.ids y hy r hmem heq]
          exact Or.inr rfl
        · rw [if_neg heq]
          rcases (hr.mem y).mp hy with hy | rfl
          · exact Or.inl ⟨hy, heq⟩
          · exact absurd rfl heq
      · rintro (⟨hx, hne⟩ | rfl)
        · exact ⟨x, (hr.mem x).mpr (Or.inl hx), if_neg hne⟩
        · exact ⟨r, hmem, if_pos rfl⟩
    · rw [hr.stats F hF]
      rfl

/-- **Reading a map of callees** adds the statistics of its nodes, one after the other.  By
    induction on the map, over all places to read it at: `base` is the path of `parentId`. -/
theorem readNodes_absorbs (m : Maker (CallNodeKey K)) (t : Nat) (nodes : NodesMap K) :
    ∀ (base : List K) (parentId : Nat) (s : Statistics K), Ready s → At s.values t base parentId →
      ∃ s', readNodes m t nodes parentId s = some s' ∧ Ready s' ∧
        (∀ t p i, At s.values t p i → At s'.values t p i) ∧
        ∀ F, Reads s.values F → Reads s'.values
          (((nodes.entries base).map fun e => ((t, e.1), e.2)).foldl Account.absorb F) := by
  induction nodes with
  | nil =>
    intro base parentId s hs _
    exact ⟨s, rfl, hs, fun _ _ _ h => h, fun F hF => hF⟩
  | cons k v callees rest ihc ihr =>
    -- the node itself, then its callees one level down, then the rest beside it
    intro base parentId s hs hp
    obtain ⟨s₁, h, r, htouch, hkey, htouched⟩ := hs.touch m hp k
    have hsubscript := htouched.subscript m
    rw [hkey] at hsubscript
    obtain ⟨hready, hmono, hpath, hreads⟩ := htouched.add hs v
    obtain ⟨s₂, hcallees, hready₂, hmono₂, hreads₂⟩ := ihc (base ++ [k]) r.id _ hready hpath
    have hcommit : s₂.commit h false = some s₂ := by
      show some { s₂ with table := s₂.table.commitModification h } = some s₂
      rw [hready₂.consistent.commitModification]
    obtain ⟨s₃, hrest, hready₃, hmono₃, hreads₃⟩ := ihr base parentId s₂ hready₂
      (hmono₂ _ _ _ (hmono _ _ _ hp))
    refine ⟨s₃, ?_, hready₃, fun t p i h => hmono₃ t p i (hmono₂ t p i (hmono t p i h)), ?_⟩
    · have hlookup : s₁.table.lookup h = some r :=
        (Table.lookup_eq_some htouched.ready.consistent.nodup).mpr htouched.record
      simp only [readNodes, htouch, hsubscript, Option.bind_some, hlookup, hcallees, hcommit, hrest]
    · intro F hF
      have hfinal := hreads₃ _ (hreads₂ _ (hreads F hF))
      rw [NodesMap.entries, List.cons_append, List.map_cons, List.foldl_cons, List.map_append,
        List.foldl_append]
      exact hfinal

/-! ## Reading a whole update -/

/-- The table between updates. -/
structure Sound (s : Statistics K) : Prop where
  consistent : s.table.Consistent []
  /-- the index may not have been made yet -/
  keyer : ∀ k, s.table.keyerOf () = some k → k = callnode
  rooted : Rooted s.values s.nextId

omit [DecidableEq K] in
/-- The empty table. -/
theorem new_sound : Sound (new : Statistics K) where
  consistent := Table.empty_consistent
  keyer := nofun
  rooted := ⟨⟨nofun, nofun, nofun, nofun⟩, List.nodup_nil, nofun, Nat.one_pos, nofun⟩

omit [DecidableEq K] in
/-- Asking for the index makes it, or finds it. -/
theorem Sound.indexed {s : Statistics K} (hs : Sound s) :
    Ready s.indexed ∧ s.indexed.values = s.values := by
  have hvalues : s.indexed.values = s.values := by
    unfold values Statistics.indexed
    rw [Table.records_component]
  refine ⟨⟨hs.consistent.component () callnode .hashed,
    Table.keyerOf_component_self hs.keyer .hashed, ?_⟩, hvalues⟩
  rw [hvalues]
  exact hs.rooted

omit [DecidableEq K] in
/-- A table that is read into is one between updates. -/
theorem Ready.sound {s : Statistics K} (hs : Ready s) : Sound s :=
  ⟨hs.consistent, fun _ hk => Option.some.inj (hk.symm.trans hs.index), hs.rooted⟩

/-- The nodes of a stream, by thread and path, in the order they are read. -/
def places (stream : List (Nat × NodesMap K)) : List ((Nat × List K) × FunctionStatistics) :=
  stream.flatMap fun item => (item.2.entries []).map fun e => ((item.1, e.1), e.2)

/-- **Reading the threads**, one after the other, each from its roots. -/
theorem readThreads_absorbs (m : Maker (CallNodeKey K)) : ∀ (stream : List (Nat × NodesMap K))
    (s : Reading K), Ready s.1 →
      ∃ s', Lib.run (readThread m) s stream = some s' ∧ Ready s'.1 ∧
        ∀ F, Reads s.1.values F →
          Reads s'.1.values ((places stream).foldl Account.absorb F) := by
  intro stream
  induction stream with
  | nil => exact fun s hs => ⟨s, rfl, hs, fun _ hF => hF⟩
  | cons item stream ih =>
    -- the empty path leads to 0, where a thread's map is read at
    intro s hs
    obtain ⟨table, hread, hready, _, hreads⟩ :=
      readNodes_absorbs m item.1 item.2 [] 0 s.1 hs .root
    obtain ⟨s', hrun, hready', hreads'⟩ :=
      ih (table, (if s.2.2 then [] else s.2.1) ++ [item.1], false) hready
    refine ⟨s', Lib.run_cons_eq_some.mpr ⟨_, ?_, hrun⟩, hready', ?_⟩
    · unfold readThread
      rw [hread]
      rfl
    · intro F hF
      rw [places, List.flatMap_cons, List.foldl_append]
      exact hreads' _ (hreads F hF)

/-- **An update** adds the statistics of the stream's nodes to the table. -/
theorem Sound.deserialize {s : Statistics K} (hs : Sound s) (m : Maker (CallNodeKey K))
    (threads : List Nat) (stream : List (Nat × NodesMap K)) :
    ∃ s' threads', deserialize m s threads stream = some (s', threads') ∧ Sound s' ∧
      ∀ F, Reads s.values F → Reads s'.values ((places stream).foldl Account.absorb F) := by
  obtain ⟨hready, hvalues⟩ := hs.indexed
  obtain ⟨⟨s', threads', first⟩, hrun, hready', hreads⟩ :=
    readThreads_absorbs m stream (s.indexed, threads, true) hready
  refine ⟨s', threads', ?_, hready'.sound, ?_⟩
  · unfold Statistics.deserialize
    rw [hrun]
    rfl
  · intro F hF
    refine hreads F ?_
    show Reads s.indexed.values F
    rw [hvalues]
    exact hF

/-- What is read at a place, in terms of the stream: a thread's map and a path in it. -/
theorem mem_places {stream : List (Nat × NodesMap K)} (hdistinct : ∀ e ∈ stream, e.2.Distinct)
    {t : Nat} {p : List K} {v : FunctionStatistics} :
    ((t, p), v) ∈ places stream ↔ ∃ m, (t, m) ∈ stream ∧ m.statsAt p = some v := by
  unfold places
  rw [List.mem_flatMap]
  constructor
  · rintro ⟨item, hitem, hmem⟩
    obtain ⟨e, he, heq⟩ := List.mem_map.mp hmem
    obtain ⟨hplace, rfl⟩ := Prod.mk.inj heq
    obtain ⟨rfl, rfl⟩ := Prod.mk.inj hplace
    obtain ⟨q, hq, hstats⟩ := (NodesMap.mem_entries (hdistinct item hitem)).mp he
    exact ⟨item.2, hitem, by rw [hq]; exact hstats⟩
  · rintro ⟨m, hm, hstats⟩
    refine ⟨(t, m), hm, List.mem_map.mpr ⟨(p, v), ?_, rfl⟩⟩
    exact (NodesMap.mem_entries (hdistinct _ hm)).mpr ⟨p, rfl, hstats⟩

/-- Threads and callees stand once in a stream, so that every place is read once. -/
theorem nodup_places : ∀ {stream : List (Nat × NodesMap K)}, (stream.map Prod.fst).Nodup →
    (∀ e ∈ stream, e.2.Distinct) → ((places stream).map Prod.fst).Nodup := by
  intro stream
  induction stream with
  | nil => exact fun _ _ => List.nodup_nil
  | cons item stream ih =>
    intro hnodup hdistinct
    obtain ⟨hitem, hrest⟩ := List.nodup_cons.mp hnodup
    have hdistinct' : ∀ e ∈ stream, e.2.Distinct := fun e he =>
      hdistinct e (List.mem_cons_of_mem _ he)
    rw [places, List.flatMap_cons, List.map_append, List.nodup_append]
    refine ⟨?_, ih hrest hdistinct', ?_⟩
    · -- one thread's map: its paths are distinct
      have hentries := NodesMap.nodup_entries (hdistinct item List.mem_cons_self) []
      rw [List.map_map]
      have hplaces := hentries.map (f := Prod.mk item.1) fun a b h => (Prod.mk.inj h).2
      rw [List.map_map] at hplaces
      exact hplaces
    · -- the later items are of other threads
      intro a ha b hb heq
      obtain ⟨x, hx, rfl⟩ := List.mem_map.mp ha
      obtain ⟨e, _, rfl⟩ := List.mem_map.mp hx
      obtain ⟨⟨⟨t, p⟩, v⟩, hy, rfl⟩ := List.mem_map.mp hb
      obtain ⟨m, hm, _⟩ := (mem_places hdistinct').mp hy
      obtain ⟨rfl, _⟩ := Prod.mk.inj heq
      exact hitem (List.mem_map.mpr ⟨(item.1, m), hm, rfl⟩)

/-! ## Paths of records -/

omit [DecidableEq K] in
/-- **`callstack`** is the path that leads to the record.  By induction on the depth, which the id
    bounds: a parent's id is smaller. -/
theorem keyAppend_at {s : Statistics K} (h : Rooted s.values s.nextId) : ∀ (depth : Nat)
    (r : CallStatistics K), r ∈ s.values → r.id ≤ depth →
      ∃ p, keyAppend s.byId depth r = some p ∧ At s.values r.threadId p r.id := by
  intro depth
  induction depth with
  | zero =>
    intro r hr hle
    exact absurd (h.forest.positive r hr) (Nat.not_lt.mpr hle)
  | succ depth ih =>
    intro r hr hle
    rw [keyAppend]
    by_cases hzero : r.parentId = 0
    · -- a root
      refine ⟨[r.address], by rw [if_pos hzero], ?_⟩
      have hroot : At s.values r.threadId [] r.parentId := by
        rw [hzero]
        exact .root
      exact hroot.child hr rfl
    · -- a callee, whose parent is found by its id
      obtain ⟨parent, hparent, hid, hlt⟩ := (h.forest.parents r hr).resolve_left hzero
      obtain ⟨p, hkey, hp⟩ := ih parent hparent (Nat.le_of_lt_succ (Nat.lt_of_lt_of_le hlt hle))
      refine ⟨p ++ [r.address], ?_, ?_⟩
      · rw [if_neg hzero, show r.parentId = parent.id from hid.symm,
          show s.byId parent.id = some parent from h.find_id hparent, Option.bind_some, hkey]
        rfl
      · rw [h.threads r hr parent hparent hid] at hp
        have hp : At s.values r.threadId p r.parentId := by
          rw [show r.parentId = parent.id from hid.symm]
          exact hp
        exact hp.child hr rfl

omit [DecidableEq K] in
/-- A record's id is below `nextId`, which is depth enough. -/
theorem callstack_at {s : Statistics K} (h : Rooted s.values s.nextId) {r : CallStatistics K}
    (hr : r ∈ s.values) : ∃ p, s.callstack r = some p ∧ At s.values r.threadId p r.id :=
  keyAppend_at h s.nextId r hr (Nat.le_of_lt (h.below r hr))

/-- **The records of a thread and path** are what the table reads as there. -/
theorem recordsAt_stats {s : Statistics K} (h : Rooted s.values s.nextId)
    {F : Nat × List K → Option FunctionStatistics} (hF : Reads s.values F) (t : Nat)
    (p : List K) : (s.recordsAt t p).map CallStatistics.stats = (F (t, p)).toList := by
  have hmem : ∀ r, r ∈ s.recordsAt t p ↔ r ∈ s.values ∧ At s.values t p r.id := by
    intro r
    unfold recordsAt
    rw [List.mem_filter, decide_eq_true_eq]
    constructor
    · rintro ⟨hr, rfl, hkey⟩
      obtain ⟨q, hq, hat⟩ := callstack_at h hr
      obtain rfl : q = p := Option.some.inj (hq.symm.trans hkey)
      exact ⟨hr, hat⟩
    · rintro ⟨hr, hp⟩
      obtain ⟨q, hq, hat⟩ := callstack_at h hr
      obtain ⟨rfl, rfl⟩ := hat.inj h hr hp
      exact ⟨hr, rfl, hq⟩
  have hnodup : (s.recordsAt t p).Nodup := (List.Nodup.of_map _ h.ids).filter _
  cases hFp : F (t, p) with
  | none =>
    -- no record has the path
    have hnil : s.recordsAt t p = [] := by
      rw [List.eq_nil_iff_forall_not_mem]
      intro r hr
      obtain ⟨hr, hp⟩ := (hmem r).mp hr
      rw [(hF t p r.stats).mpr ⟨r, hr, hp, rfl⟩] at hFp
      cases hFp
    rw [hnil]
    rfl
  | some v =>
    -- one has it, and one only
    obtain ⟨r, hr, hp, rfl⟩ := (hF t p v).mp hFp
    have hsingle : s.recordsAt t p = [r] := by
      refine List.perm_singleton.mp ((List.perm_ext_iff_of_nodup hnodup
        (List.nodup_singleton r)).mpr ?_)
      intro x
      rw [hmem, List.mem_singleton]
      constructor
      · rintro ⟨hx, hxp⟩
        exact hxp.unique h hx hr hp
      · rintro rfl
        exact ⟨hr, hp⟩
    rw [hsingle]
    rfl

end Statistics

end MicroProfiler.Frontend
