/-
  `group_by_callstack` of `frontend/representation.h`: the calls of all threads, summed up by
  address path.

  1. **The code** — the slots of `group_by` with `keyer::callstack` on both sides.  A key is computed
     by walking parents when a record is committed; an aggregate that is not there yet is created
     from its key, under the aggregate of the path without the last address, which `index[key]`
     throws for if it is missing.  An index is the list of its keys and records.

  2. **One aggregate a path** (`Summing`) — the INVARIANT: the aggregates are a forest in the
     cumulative thread, both indexes hold the paths of the records, and the aggregates mirror the
     calls (`Lib.Aggregation.Mirrors`).  A call's parent was summed up before it, hence the parent
     of an aggregate is always there (`updateRecord_replaces`).

  3. **Any sequence of updates** (`cumulative_exact`), with the table created at any point.
-/
import MicroProfiler.Frontend.Nodes

namespace MicroProfiler.Frontend

open Sdb

variable {K : Type}

/-- `threads_model::cumulative`: `static_cast<id_t>(-1)`. -/
def cumulative : Nat := 2 ^ 32 - 1

namespace Hierarchy

/-- What an iterator dereferences to. -/
def lookup (h : Hierarchy K) (record : Handle) : Option (CallStatistics K) :=
  (h.records.find? fun e => e.1 = record).map Prod.snd

/-- `keyer::callstack`: the address path of a record; `_by_id[parent_id]` may throw.  Ids are
    smaller towards the root, so `nextId` bounds the depth. -/
def callstack (h : Hierarchy K) (r : CallStatistics K) : Option (List K) :=
  Statistics.keyAppend (findById h.values) h.nextId r

end Hierarchy

/-- `sum_functions`: the statistics are those of the group alone, the links stay. -/
def sumFunctions (aggregated : CallStatistics K) (group : List (CallStatistics K)) :
    CallStatistics K :=
  { aggregated with
    threadId := cumulative
    stats := group.foldl (fun total r => total.add r.stats) {} }

/-- An index by callstack: the keys, as they were when the records were committed. -/
abbrev CallstackIndex (K : Type) := List (List K × Handle)

/-- The index of the calls, the aggregate table and its index. -/
structure Cumulative (K : Type) where
  /-- by callstack, over the calls -/
  uindex : CallstackIndex K
  aggregate : Hierarchy K
  /-- by callstack, over the aggregates -/
  aindex : CallstackIndex K

section

variable [DecidableEq K]

def CallstackIndex.equalRange (index : CallstackIndex K) (key : List K) : List Handle :=
  (index.filter fun e => e.1 = key).map Prod.snd

namespace Cumulative

/-- `index[key]`, of the aggregates: the first with the key. -/
def find (c : Cumulative K) (key : List K) : Option (CallStatistics K) :=
  (c.aindex.equalRange key).head?.bind c.aggregate.lookup

/-- `callstack::operator ()(index, record, key)`. -/
def setCallstack (c : Cumulative K) (record : CallStatistics K) (key : List K) :
    Option (CallStatistics K) :=
  key.getLast?.bind fun address =>
    -- a root: there is no parent to look up
    if key.dropLast = [] then
      some { record with threadId := 0, address := address, parentId := 0 }
    else
      (c.find key.dropLast).map fun parent =>
        { record with threadId := 0, address := address, parentId := parent.id }

/-- The commit of a new aggregate: its key is computed for the index. -/
def add (c : Cumulative K) (record : Handle) (a : CallStatistics K) : Option (Cumulative K) :=
  -- the key is computed from the links of the record, which is in the table by then
  let aggregate := c.aggregate.apply (.created record a)
  (aggregate.callstack a).map fun key =>
    { c with aggregate := aggregate, aindex := c.aindex ++ [(key, record)] }

/-- `aindex[key]`, the aggregator, and `commit`. -/
def aggregateInto (m : Maker (CallNodeKey K)) (key : List K) (group : List (CallStatistics K))
    (c : Cumulative K) : Option (Cumulative K) :=
  match (c.aindex.equalRange key).head? with
  | some found =>
      (c.aggregate.lookup found).map fun a =>
        { c with
          aggregate :=
            (c.aggregate.apply (.written found (sumFunctions a group))).apply (.modified found) }
  | none =>
      let handles := c.aggregate.handles
      (c.setCallstack (construct c.aggregate.nextId (m.construct handles)) key).bind
        fun a => c.add (m.pick handles) (sumFunctions a group)

/-- `update_record`: the aggregate of the call's key is made anew, from all calls with the key. -/
def updateRecord (m : Maker (CallNodeKey K)) (h : Hierarchy K) (c : Cumulative K)
    (record : Handle) : Option (Cumulative K) :=
  (h.lookup record).bind fun r => (h.callstack r).bind fun key =>
    c.aggregateInto m key ((c.uindex.equalRange key).filterMap h.lookup)

/-- The slots connected to the table of calls, after a change that left it as `h`. -/
def onChange (m : Maker (CallNodeKey K)) (h : Hierarchy K) (c : Cumulative K) :
    Change K → Option (Cumulative K)
  -- the index is told first
  | .created record r => (h.callstack r).bind fun key =>
      updateRecord m h { c with uindex := c.uindex ++ [(key, record)] } record
  -- no slot runs before the commit
  | .written _ _ => some c
  | .modified record => updateRecord m h c record

/-- `group_by`: the index over the calls there are, then `update_record` for each. -/
def create (m : Maker (CallNodeKey K)) (h : Hierarchy K) : Option (Cumulative K) :=
  (h.records.mapM fun e => (h.callstack e.2).map fun key => (key, e.1)).bind fun uindex =>
    Lib.run (updateRecord m h) ⟨uindex, .new, []⟩ h.handles

end Cumulative

end

/-! ## Paths -/

/-- The index that holds the paths of the records of a table.  It is what `uindex` and `aindex` come
    to. -/
def Hierarchy.paths (h : Hierarchy K) : CallstackIndex K := h.nodes.map fun e => (e.2.path, e.1)

namespace Hierarchy

variable {h : Hierarchy K} (hg : h.Grown) {x : Handle} {n : Node K}

include hg

/-- A record of the table is found by its handle. -/
theorem Grown.lookup {r : CallStatistics K} (hr : (x, r) ∈ h.records) : h.lookup x = some r :=
  (Lib.find?_pair_eq_some hg.handles).mpr hr

/-- **The key of a call** is its path. -/
theorem Grown.callstack_eq (hn : (x, n) ∈ h.nodes) : h.callstack n.record = some n.path := by
  obtain ⟨hr, hup⟩ := hg.mem_nodes.mp hn
  have hmem : n.record ∈ h.values := List.mem_map.mpr ⟨_, hr, rfl⟩
  exact keyAppend_lineage hg.rooted hup ((hg.rooted.parent_lt hmem).trans (hg.rooted.below _ hmem))

/-- **The parent of a call** has its path without the last address; roots have none. -/
theorem Grown.parent_path (hn : (x, n) ∈ h.nodes) :
    (n.path.dropLast = [] ∧ n.record.parentId = 0) ∨
      ∃ e ∈ h.nodes, e.2.path = n.path.dropLast ∧ e.2.record.id = n.record.parentId ∧
        n.path.dropLast ≠ [] ∧ e.2.record.id < n.record.id := by
  obtain ⟨hr, hup⟩ := hg.mem_nodes.mp hn
  have hmem : n.record ∈ h.values := List.mem_map.mpr ⟨_, hr, rfl⟩
  obtain ⟨r, up⟩ := n
  rw [Node.dropLast_path]
  cases hup with
  -- a root
  | root hzero => exact Or.inl ⟨rfl, hzero⟩
  | @child _ parent up hparent hid hup =>
    -- a callee, whose lineage is its parent's and one more
    obtain ⟨e, he, rfl⟩ := List.mem_map.mp hparent
    have hpath : (Node.mk e.2 up).path = (((e.2.id, e.2.address) :: up).map Prod.snd).reverse := by
      rw [List.map_cons, List.reverse_cons]
      rfl
    refine Or.inr ⟨(e.1, ⟨e.2, up⟩), hg.mem_nodes.mpr ⟨he, hup⟩, hpath, hid, ?_, ?_⟩
    · show (((e.2.id, e.2.address) :: up).map Prod.snd).reverse ≠ []
      rw [← hpath]
      exact List.append_ne_nil_of_right_ne_nil _ (List.cons_ne_nil _ _)
    · show e.2.id < r.id
      rw [hid]
      exact hg.rooted.parent_lt hmem

end Hierarchy

/-! ## One aggregate a path -/

section

variable [DecidableEq K]

/-- `group_by` with `sum_functions`, by path. -/
def byCallstack : Lib.Aggregation (Node K) (Node K) (List K) where
  ukey := Node.path
  akey := Node.path
  aggregate a items := { a with record := sumFunctions a.record (items.map Node.record) }
  akey_aggregate _ _ := rfl

/-- The index gives the calls with a path, in table order. -/
theorem equalRange_paths (h : Hierarchy K) (key : List K) :
    CallstackIndex.equalRange h.paths key =
      (h.nodes.filter fun e => e.2.path = key).map Prod.fst := by
  unfold CallstackIndex.equalRange Hierarchy.paths
  rw [List.filter_map, List.map_map]
  rfl

/-- **What the index finds** are the calls with the path. -/
theorem lookup_paths {h : Hierarchy K} (hg : h.Grown) (key : List K) :
    (CallstackIndex.equalRange h.paths key).filterMap h.lookup =
      (byCallstack.group h.nodes key).map Node.record := by
  rw [equalRange_paths, List.filterMap_map]
  unfold Lib.Aggregation.group
  rw [List.map_map, ← List.filterMap_eq_map]
  apply List.filterMap_congr
  intro e he
  exact hg.lookup (hg.mem_nodes.mp (List.mem_of_mem_filter he)).1

/-- The index gives the first record with the path, if there is one. -/
theorem head_paths {h : Hierarchy K} (key : List K) :
    (∃ e ∈ h.nodes, e.2.path = key ∧
      (CallstackIndex.equalRange h.paths key).head? = some e.1) ∨
    ((∀ e ∈ h.nodes, e.2.path ≠ key) ∧
      (CallstackIndex.equalRange h.paths key).head? = none) := by
  rw [equalRange_paths]
  cases hfilter : h.nodes.filter fun e => e.2.path = key with
  | nil =>
    -- no record has the path
    right
    refine ⟨fun e he hpath => ?_, rfl⟩
    have hin : e ∈ h.nodes.filter fun e => e.2.path = key :=
      List.mem_filter.mpr ⟨he, decide_eq_true hpath⟩
    rw [hfilter] at hin
    exact List.not_mem_nil hin
  | cons e rest =>
    -- the first that has it
    left
    have hin : e ∈ h.nodes.filter fun e => e.2.path = key := by
      rw [hfilter]
      exact List.mem_cons_self
    obtain ⟨he, hpath⟩ := List.mem_filter.mp hin
    exact ⟨e, he, of_decide_eq_true hpath, rfl⟩

namespace Cumulative

/-- The aggregates: a forest in one thread, indexed by path. -/
structure Shaped (c : Cumulative K) : Prop where
  /-- a table of calls, as the calls themselves -/
  grown : c.aggregate.Grown
  /-- in the one cumulative thread -/
  threads : ∀ r ∈ c.aggregate.values, r.threadId = cumulative
  /-- whose index is up to date -/
  aindex : c.aindex = c.aggregate.paths

variable {c : Cumulative K}

omit [DecidableEq K] in
/-- The path of an aggregate leads to it. -/
theorem Shaped.path_at (hc : c.Shaped) {e : Handle × Node K} (he : e ∈ c.aggregate.nodes) :
    At c.aggregate.values cumulative e.2.path e.2.record.id := by
  have hpath := hc.grown.path_at (n := e.2) he
  rwa [hc.threads _ (List.mem_map.mpr ⟨_, (hc.grown.mem_nodes.mp he).1, rfl⟩)] at hpath

/-- **The place of a new aggregate** is under the one of the path without the last address. -/
theorem Shaped.setCallstack (hc : c.Shaped) {p : List K} (address : K)
    (hp : p = [] ∨ ∃ e ∈ c.aggregate.nodes, e.2.path = p) (record : CallStatistics K) :
    ∃ parentId, At c.aggregate.values cumulative p parentId ∧
      c.setCallstack record (p ++ [address]) =
        some { record with threadId := 0, address := address, parentId := parentId } := by
  unfold Cumulative.setCallstack
  rw [List.getLast?_concat, Option.bind_some, List.dropLast_concat]
  by_cases hroot : p = []
  · -- a root needs no parent
    subst hroot
    exact ⟨0, .root, if_pos rfl⟩
  · -- the parent is found by the path without the last address
    obtain ⟨e, he, hpath⟩ := hp.resolve_left hroot
    rcases head_paths (h := c.aggregate) p with ⟨e', he', hpath', hhead⟩ | ⟨hnone, _⟩
    · refine ⟨e'.2.record.id, hpath' ▸ hc.path_at he', ?_⟩
      rw [if_neg hroot]
      unfold find
      rw [hc.aindex, hhead, Option.bind_some, hc.grown.lookup (hc.grown.mem_nodes.mp he').1]
      rfl
    · exact absurd hpath (hnone e he)

omit [DecidableEq K] in
/-- Records at one path are one. -/
theorem Shaped.path_eq (hc : c.Shaped) {e : Handle × Node K} (he : e ∈ c.aggregate.nodes)
    {p : List K} (hp : At c.aggregate.values cumulative p e.2.record.id) : e.2.path = p :=
  (At.inj hc.grown.rooted (List.mem_map.mpr ⟨_, (hc.grown.mem_nodes.mp he).1, rfl⟩)
    (hc.path_at he) hp).2

omit [DecidableEq K] in
/-- **A new aggregate is committed** with its path. -/
theorem Shaped.add (hc : c.Shaped) {x : Handle} (hfresh : x ∉ c.aggregate.handles)
    {a : CallStatistics K} (hid : a.id = c.aggregate.nextId) (hthread : a.threadId = cumulative)
    {p : List K} (hp : At c.aggregate.values cumulative p a.parentId)
    (hnone : ∀ e ∈ c.aggregate.nodes, e.2.path ≠ p ++ [a.address]) :
    ∃ c' up, c.add x a = some c' ∧ c'.Shaped ∧ c'.uindex = c.uindex ∧
      (Node.mk a up).path = p ++ [a.address] ∧
      c'.aggregate.nodes = c.aggregate.nodes ++ [(x, ⟨a, up⟩)] := by
  have hunder : Under c.aggregate.values a := by
    rcases hp.cases with hzero | ⟨r, hr, hrid, hrthread⟩
    · exact Or.inl hzero
    · exact Or.inr ⟨r, hr, hrid, hrthread.trans hthread.symm⟩
  -- a record with the same parent and address would have the path that is new
  have hkey : ∀ y ∈ c.aggregate.values, callnode y ≠ callnode a := by
    intro y hy hsame
    obtain ⟨hythread, hyparent, hyaddress⟩ := Statistics.callnode_eq hsame
    obtain ⟨e, he, rfl⟩ := List.mem_map.mp hy
    obtain ⟨up, hup⟩ := hc.grown.rooted.exists_lineage e.2 hy
    have hnode : (e.1, Node.mk e.2 up) ∈ c.aggregate.nodes := hc.grown.mem_nodes.mpr ⟨he, hup⟩
    rw [← hyparent] at hp
    have hplace := hp.child hy (hythread.trans hthread)
    rw [hyaddress] at hplace
    exact hnone _ hnode (hc.path_eq hnode hplace)
  have ha : c.aggregate.Allowed (.created x a) := ⟨hfresh, hid, hunder, hkey⟩
  have hgrown := hc.grown.apply ha
  obtain ⟨up, hup, _, hnodes⟩ := hc.grown.nodes_created ha
  have hvalues : (c.aggregate.apply (.created x a)).values = c.aggregate.values ++ [a] :=
    List.map_append
  have hin : (x, Node.mk a up) ∈ (c.aggregate.apply (.created x a)).nodes := by
    rw [hnodes]
    exact List.mem_append_right _ (List.mem_singleton.mpr rfl)
  have hmem : a ∈ c.aggregate.values ++ [a] := List.mem_append_right _ (List.mem_singleton.mpr rfl)
  have hthreads : ∀ r ∈ c.aggregate.values ++ [a], r.threadId = cumulative := by
    intro r hr
    rcases List.mem_append.mp hr with hr | hr
    · exact hc.threads r hr
    · rw [List.mem_singleton.mp hr]
      exact hthread
  have hpath : (Node.mk a up).path = p ++ [a.address] := by
    -- its own lineage and the place it was given lead to the same path
    have hplace : At (c.aggregate.values ++ [a]) cumulative p a.parentId :=
      hp.mono fun r hr => ⟨r, List.mem_append_left _ hr, rfl, rfl, rfl⟩
    have hat := hgrown.path_at hin
    have hrooted := hgrown.rooted
    rw [hvalues] at hat hrooted
    exact (At.inj hrooted hmem hat (hplace.child hmem hthread)).2
  refine ⟨⟨c.uindex, c.aggregate.apply (.created x a), c.aindex ++ [((Node.mk a up).path, x)]⟩, up,
    ?_, ⟨hgrown, ?_, ?_⟩, rfl, hpath, hnodes⟩
  · unfold Cumulative.add
    simp only [hgrown.callstack_eq hin, Option.map_some]
  · rw [hvalues]
    exact hthreads
  · show c.aindex ++ _ = (c.aggregate.apply (.created x a)).nodes.map _
    rw [hnodes, List.map_append, hc.aindex]
    rfl

omit [DecidableEq K] in
/-- **An aggregate is written to and committed**, and keeps its path: only its statistics change, so
    the index does not. -/
theorem Shaped.write (hc : c.Shaped) {x : Handle} {n : Node K} (hn : (x, n) ∈ c.aggregate.nodes)
    {a : CallStatistics K} (ha : { n.record with stats := a.stats } = a) :
    let aggregate := (c.aggregate.apply (.written x a)).apply (.modified x)
    Shaped { c with aggregate := aggregate } ∧
      aggregate.nodes = c.aggregate.nodes.map fun e => if e.1 = x then (x, ⟨a, n.up⟩) else e := by
  intro aggregate
  have hallowed : c.aggregate.Allowed (.written x a) :=
    ⟨_, (hc.grown.mem_nodes.mp hn).1, rfl, ha⟩
  obtain ⟨old, up, hold, _, hnodes⟩ := hc.grown.nodes_written hallowed
  obtain rfl : n = ⟨old, up⟩ :=
    congrArg Prod.snd (List.inj_on_of_nodup_map hc.grown.nodup_nodes hn hold rfl)
  have hgrown := hc.grown.apply hallowed
  have hnodes : aggregate.nodes = c.aggregate.nodes.map fun e =>
      if e.1 = x then (x, ⟨a, up⟩) else e := hnodes
  refine ⟨⟨⟨hgrown.rooted, hgrown.handles, hgrown.ordered⟩, ?_, ?_⟩, hnodes⟩
  · intro r hr
    have hvalues : aggregate.values = _ := hc.grown.values_written hallowed
    rw [hvalues] at hr
    obtain ⟨r', hr', rfl⟩ := List.mem_map.mp hr
    split <;> exact hc.threads r' hr'
  · show c.aindex = aggregate.nodes.map _
    rw [hc.aindex, hnodes, List.map_map]
    apply List.map_congr_left
    intro e he
    show (e.2.path, e.1) = ((if e.1 = x then (x, Node.mk a up) else e).2.path,
      (if e.1 = x then (x, Node.mk a up) else e).1)
    by_cases hsame : e.1 = x
    · rw [if_pos hsame, List.inj_on_of_nodup_map hc.grown.nodup_nodes he hn hsame, ← ha]
      rfl
    · rw [if_neg hsame]

omit [DecidableEq K] in
/-- **One aggregate a path.** -/
theorem Shaped.unique (hc : c.Shaped) {e e' : Handle × Node K} (he : e ∈ c.aggregate.nodes)
    (he' : e' ∈ c.aggregate.nodes) (hpath : e.2.path = e'.2.path) : e = e' := by
  have hr := (hc.grown.mem_nodes (n := e.2)).mp he
  have hr' := (hc.grown.mem_nodes (n := e'.2)).mp he'
  have hat := hc.path_at he
  rw [hpath] at hat
  have hrecord : e.2.record = e'.2.record := At.unique hc.grown.rooted
    (List.mem_map.mpr ⟨_, hr.1, rfl⟩) (List.mem_map.mpr ⟨_, hr'.1, rfl⟩) hat (hc.path_at he')
  have hentry : (e.1, e.2.record) = (e'.1, e'.2.record) :=
    List.inj_on_of_nodup_map hc.grown.nodup_ids hr.1 hr'.1 (congrArg CallStatistics.id hrecord)
  exact List.inj_on_of_nodup_map hc.grown.nodup_nodes he he' (Prod.mk.inj hentry).1

/-- **The slot's part in the aggregate table**: the aggregate of the path is made anew. -/
theorem Shaped.aggregateInto (hc : c.Shaped) (m : Maker (CallNodeKey K)) (n : Node K)
    (hparent : n.path.dropLast = [] ∨ ∃ e ∈ c.aggregate.nodes, e.2.path = n.path.dropLast)
    (items : List (Node K)) :
    ∃ c' x a, c.aggregateInto m n.path (items.map Node.record) = some c' ∧ c'.Shaped ∧
      c'.uindex = c.uindex ∧ a.path = n.path ∧
      byCallstack.Replaces c.aggregate.nodes c'.aggregate.nodes n.path
        (some (x, byCallstack.aggregate a items)) := by
  unfold Cumulative.aggregateInto
  -- the index finds the aggregate of the path, or there is none
  have hindex := head_paths (h := c.aggregate) n.path
  rw [← hc.aindex] at hindex
  rcases hindex with ⟨⟨x, a⟩, he, hpath, hhead⟩ | ⟨hnone, hhead⟩
  · -- it is there
    have hthread := hc.threads _ (List.mem_map.mpr ⟨_, (hc.grown.mem_nodes.mp he).1, rfl⟩)
    obtain ⟨hshaped, hnodes⟩ := hc.write he (a := sumFunctions a.record (items.map Node.record))
      (by unfold sumFunctions; rw [← hthread])
    simp only [hhead, hc.grown.lookup (hc.grown.mem_nodes.mp he).1, Option.map_some]
    refine ⟨_, x, a, rfl, hshaped, rfl, hpath, ?_⟩
    intro r
    rw [hnodes, List.mem_map]
    constructor
    · rintro ⟨e, hin, rfl⟩
      by_cases hsame : e.1 = x
      · rw [if_pos hsame]
        exact Or.inr rfl
      · rw [if_neg hsame]
        refine Or.inl ⟨hin, fun hkey => hsame ?_⟩
        exact congrArg Prod.fst (hc.unique hin he (hkey.trans hpath.symm))
    · rintro (⟨hin, hkey⟩ | hnew)
      · refine ⟨r, hin, if_neg fun hsame => hkey ?_⟩
        rw [List.inj_on_of_nodup_map hc.grown.nodup_nodes hin he hsame]
        exact hpath
      · exact ⟨_, he, (if_pos rfl).trans (Option.some.inj hnew)⟩
  · -- it is created, under its parent
    obtain ⟨b, hb⟩ : ∃ b, construct c.aggregate.nextId (m.construct c.aggregate.handles) = b :=
      ⟨_, rfl⟩
    -- the path is its parent's and one address more
    have hsplit : n.path.dropLast ++ [n.address] = n.path := by
      rw [Node.dropLast_path]
      rfl
    obtain ⟨parentId, hplace, hset⟩ := hc.setCallstack n.address hparent b
    rw [hsplit] at hset
    obtain ⟨a, ha⟩ : ∃ a : CallStatistics K,
        { b with threadId := 0, address := n.address, parentId := parentId } = a := ⟨_, rfl⟩
    rw [ha] at hset
    have hid : a.id = c.aggregate.nextId := by
      rw [← ha, ← hb]
      rfl
    have hunder : a.parentId = parentId := by rw [← ha]
    have haddress : a.address = n.address := by rw [← ha]
    rw [← hunder] at hplace
    rw [← haddress] at hsplit
    obtain ⟨c', up, hadd, hshaped, huindex, hpath, hnodes⟩ :=
      hc.add (a := sumFunctions a (items.map Node.record)) (m.fresh c.aggregate.handles) hid rfl
        (p := n.path.dropLast) hplace (fun e he hkey => hnone e he (hkey.trans hsplit))
    refine ⟨c', m.pick c.aggregate.handles, ⟨a, up⟩, ?_, hshaped, huindex, hpath.trans hsplit, ?_⟩
    · simp only [hhead, hb, hset, Option.bind_some, hadd]
    · intro r
      rw [hnodes, List.mem_append, List.mem_singleton]
      constructor
      · rintro (hin | rfl)
        · exact Or.inl ⟨hin, hnone r hin⟩
        · exact Or.inr rfl
      · rintro (⟨hin, _⟩ | hnew)
        · exact Or.inl hin
        · exact Or.inr (Option.some.inj hnew).symm

/-! ## The slots -/

/-- **`update_record`** makes the aggregate of a call's path anew, of all calls with that path. -/
theorem updateRecord_replaces {h : Hierarchy K} (hg : h.Grown) (hc : c.Shaped)
    (huindex : c.uindex = h.paths) {record : Handle} {n : Node K} (hn : (record, n) ∈ h.nodes)
    (hparent : n.path.dropLast = [] ∨ ∃ e ∈ c.aggregate.nodes, e.2.path = n.path.dropLast)
    (m : Maker (CallNodeKey K)) :
    ∃ c' x a, c.updateRecord m h record = some c' ∧ c'.Shaped ∧ c'.uindex = c.uindex ∧
      byCallstack.akey a = byCallstack.ukey n ∧ byCallstack.Computed h.nodes a ∧
      byCallstack.Replaces c.aggregate.nodes c'.aggregate.nodes (byCallstack.ukey n)
        (some (x, a)) := by
  obtain ⟨c', x, a, hinto, hshaped, hsame, hpath, hreplaces⟩ :=
    hc.aggregateInto m n hparent (byCallstack.group h.nodes n.path)
  refine ⟨c', x, byCallstack.aggregate a (byCallstack.group h.nodes n.path), ?_, hshaped, hsame,
    hpath, ⟨a, _, rfl, rfl, ?_⟩, hreplaces⟩
  · unfold updateRecord
    rw [hg.lookup (hg.mem_nodes.mp hn).1, Option.bind_some, hg.callstack_eq hn, Option.bind_some,
      huindex, lookup_paths hg]
    exact hinto
  · rw [byCallstack.akey_aggregate, show byCallstack.akey a = n.path from hpath]

/-- INVARIANT: the aggregates mirror the calls. -/
structure Summing (h : Hierarchy K) (c : Cumulative K) : Prop where
  grown : h.Grown
  shaped : c.Shaped
  /-- the index over the calls is up to date -/
  uindex : c.uindex = h.paths
  mirrors : byCallstack.Mirrors h.dirty h.nodes h.nodes c.aggregate.nodes

omit [DecidableEq K] in
/-- **The parent's aggregate is there**: the parent has been summed up before, as its id is smaller.
    -/
theorem parent_summed {h : Hierarchy K} (hg : h.Grown) {seen : List (Handle × Node K)}
    (hpresent : ∀ e ∈ seen, ∃ a ∈ c.aggregate.nodes, a.2.path = e.2.path)
    {record : Handle} {n : Node K} (hn : (record, n) ∈ h.nodes)
    (hseen : ∀ e ∈ h.nodes, e.2.record.id < n.record.id → e ∈ seen) :
    n.path.dropLast = [] ∨ ∃ e ∈ c.aggregate.nodes, e.2.path = n.path.dropLast := by
  rcases hg.parent_path hn with ⟨hroot, _⟩ | ⟨e, he, hpath, _, _, hlt⟩
  · exact Or.inl hroot
  · obtain ⟨a, ha, hkey⟩ := hpresent e (hseen e he hlt)
    exact Or.inr ⟨a, ha, hkey.trans hpath⟩

/-- **A call is committed** for the first time: it is the last, so its parent came before. -/
theorem created_summing {h : Hierarchy K} (hc : Summing h c) {record : Handle}
    {r : CallStatistics K} (ha : h.Allowed (.created record r)) (m : Maker (CallNodeKey K)) :
    ∃ c', c.onChange m (h.apply (.created record r)) (.created record r) = some c' ∧
      Summing (h.apply (.created record r)) c' := by
  obtain ⟨up, _, _, hnodes⟩ := hc.grown.nodes_created ha
  have hg := hc.grown.apply ha
  have hn : (record, Node.mk r up) ∈ (h.apply (.created record r)).nodes := by
    rw [hnodes]
    exact List.mem_append_right _ (List.mem_singleton.mpr rfl)
  have huindex : c.uindex ++ [((Node.mk r up).path, record)] =
      (h.apply (.created record r)).paths := by
    unfold Hierarchy.paths
    rw [hnodes, List.map_append, hc.uindex]
    rfl
  have hparent := parent_summed hg hc.mirrors.present hn (by
    intro e he hlt
    rw [hnodes] at he
    rcases List.mem_append.mp he with he | he
    · exact he
    · rw [List.mem_singleton.mp he] at hlt
      exact absurd hlt (Nat.lt_irrefl _))
  obtain ⟨c', x, a, hupdate, hshaped, hsame, hkey, hcomputed, hreplaces⟩ := updateRecord_replaces
    (c := { c with uindex := c.uindex ++ [((Node.mk r up).path, record)] }) hg
    ⟨hc.shaped.grown, hc.shaped.threads, hc.shaped.aindex⟩ huindex hn hparent m
  refine ⟨c', ?_, hg, hshaped, hsame.trans huindex, ?_⟩
  · unfold onChange
    simp only [hg.callstack_eq hn, Option.bind_some, hupdate]
  · refine hc.mirrors.created (List.Perm.of_eq hnodes.symm) (fun _ _ hstale => hstale) hreplaces hkey
      hcomputed

/-- **A call is written to**, and keeps its path; until the commit the aggregates show what it was.
    -/
theorem written_summing {h : Hierarchy K} (hc : Summing h c) {record : Handle}
    {r : CallStatistics K} (ha : h.Allowed (.written record r)) :
    Summing (h.apply (.written record r)) c := by
  obtain ⟨old, up, hold, heq, hnodes⟩ := hc.grown.nodes_written ha
  have hpath : (Node.mk r up).path = (Node.mk old up).path := by
    rw [← heq]
    rfl
  have hnodup : ∀ e ∈ h.nodes, e.1 = record → e = (record, ⟨old, up⟩) := fun e he hsame =>
    List.inj_on_of_nodup_map hc.grown.nodup_nodes he hold hsame
  refine ⟨hc.grown.apply ha, hc.shaped, ?_, ?_⟩
  · unfold Hierarchy.paths
    rw [hc.uindex, hnodes, List.map_map]
    apply List.map_congr_left
    intro e he
    show (e.2.path, e.1) = ((if e.1 = record then (record, Node.mk r up) else e).2.path,
      (if e.1 = record then (record, Node.mk r up) else e).1)
    by_cases hsame : e.1 = record
    · rw [if_pos hsame, hpath, hnodup e he hsame]
    · rw [if_neg hsame]
  · rw [hnodes]
    exact hc.mirrors.written hold hnodup hpath

/-- **A call is committed again**: its aggregate is made anew. -/
theorem modified_summing {h : Hierarchy K} (hc : Summing h c) {record : Handle}
    (ha : h.Allowed (.modified record)) (m : Maker (CallNodeKey K)) :
    ∃ c', c.onChange m (h.apply (.modified record)) (.modified record) = some c' ∧
      Summing (h.apply (.modified record)) c' := by
  have hg := hc.grown.apply ha
  obtain ⟨⟨x, n⟩, hn, rfl⟩ : ∃ e ∈ h.nodes, e.1 = record := by
    obtain ⟨e, he, rfl⟩ := List.mem_map.mp (show record ∈ h.records.map Prod.fst from ha)
    rw [← hc.grown.records_of_nodes] at he
    obtain ⟨e', he', rfl⟩ := List.mem_map.mp he
    exact ⟨e', he', rfl⟩
  have hparent := parent_summed hg hc.mirrors.present hn fun e he _ => he
  obtain ⟨c', y, a, hupdate, hshaped, hsame, hkey, hcomputed, hreplaces⟩ :=
    updateRecord_replaces hg hc.shaped hc.uindex hn hparent m
  refine ⟨c', hupdate, hg, hshaped, hsame.trans hc.uindex, ?_⟩
  refine hc.mirrors.modified hn ?_ hreplaces hkey hcomputed
  exact fun e he heq => List.inj_on_of_nodup_map hc.grown.nodup_nodes he hn heq

/-- **One change of the calls** returns, and keeps the invariant. -/
theorem onChange_summing {h : Hierarchy K} (hc : Summing h c) {change : Change K}
    (ha : h.Allowed change) (m : Maker (CallNodeKey K)) :
    ∃ c', c.onChange m (h.apply change) change = some c' ∧ Summing (h.apply change) c' := by
  cases change with
  | created record r => exact created_summing hc ha m
  | written record r => exact ⟨c, rfl, written_summing hc ha⟩
  | modified record => exact modified_summing hc ha m

/-! ## The creation -/

omit [DecidableEq K] in
/-- The index over the calls there are: no key throws, as every parent is there. -/
theorem mapM_callstack {h : Hierarchy K} (hg : h.Grown) :
    (h.records.mapM fun e => (h.callstack e.2).map fun key => (key, e.1)) = some h.paths := by
  have hall : ∀ nodes : List (Handle × Node K), (∀ e ∈ nodes, e ∈ h.nodes) →
      ((nodes.map fun e => (e.1, e.2.record)).mapM
        fun e => (h.callstack e.2).map fun key => (key, e.1)) =
        some (nodes.map fun e => (e.2.path, e.1)) := by
    intro nodes
    induction nodes with
    | nil => exact fun _ => rfl
    | cons e nodes ih =>
      intro hsub
      rw [List.map_cons, List.mapM_cons, hg.callstack_eq (hsub e List.mem_cons_self),
        ih fun x hx => hsub x (List.mem_cons_of_mem _ hx)]
      rfl
  have hnodes := hall h.nodes fun _ he => he
  rwa [hg.records_of_nodes] at hnodes

omit [DecidableEq K] in
/-- Calls come in the order of their ids, so the loop has been at whatever has a smaller one. -/
theorem seen_before {h : Hierarchy K} (hg : h.Grown) {seen rest : List (Handle × Node K)}
    {e : Handle × Node K} (hnodes : h.nodes = seen ++ e :: rest) :
    ∀ x ∈ h.nodes, x.2.record.id < e.2.record.id → x ∈ seen := by
  have hordered : h.nodes.Pairwise fun a b => a.2.record.id < b.2.record.id := by
    have := hg.ordered
    rwa [← hg.record_nodes, List.pairwise_map, List.pairwise_map] at this
  intro x hx hlt
  rw [hnodes] at hx hordered
  obtain ⟨_, hafter, _⟩ := List.pairwise_append.mp hordered
  rcases List.mem_append.mp hx with hx | hx
  · exact hx
  · exfalso
    rcases List.mem_cons.mp hx with rfl | hx
    · exact Nat.lt_irrefl _ hlt
    · exact Nat.lt_asymm hlt (List.rel_of_pairwise_cons hafter hx)

/-- **The loop of the set-up**, over the calls not visited yet.  The aggregates mirror those that
    were. -/
theorem populate {h : Hierarchy K} (hg : h.Grown) (m : Maker (CallNodeKey K)) :
    ∀ (rest seen : List (Handle × Node K)) (c : Cumulative K), h.nodes = seen ++ rest → c.Shaped →
      c.uindex = h.paths → byCallstack.Mirrors h.dirty h.nodes seen c.aggregate.nodes →
      ∃ c', Lib.run (updateRecord m h) c (rest.map Prod.fst) = some c' ∧ Summing h c' := by
  intro rest
  induction rest with
  | nil =>
    intro seen c hnodes hshaped huindex hmirrors
    rw [List.append_nil] at hnodes
    rw [← hnodes] at hmirrors
    exact ⟨c, rfl, hg, hshaped, huindex, hmirrors⟩
  | cons e rest ih =>
    -- the call is summed up, and counts as visited
    intro seen c hnodes hshaped huindex hmirrors
    have he : (e.1, e.2) ∈ h.nodes := by
      rw [hnodes]
      exact List.mem_append_right _ List.mem_cons_self
    -- a parent has a smaller id, so that it was visited before
    have hparent := parent_summed hg hmirrors.present he (seen_before hg hnodes)
    obtain ⟨c₁, x, a, hupdate, hshaped₁, hsame, hkey, hcomputed, hreplaces⟩ :=
      updateRecord_replaces hg hshaped huindex he hparent m
    have hmirrors₁ := hmirrors.visited he hreplaces hkey hcomputed
    obtain ⟨c', hrun, hsumming⟩ := ih (seen ++ [e]) c₁ (by rw [hnodes, List.append_cons]) hshaped₁
      (hsame.trans huindex) hmirrors₁
    exact ⟨c', Lib.run_cons_eq_some.mpr ⟨c₁, hupdate, hrun⟩, hsumming⟩

/-- **The table is created** over whatever calls there are. -/
theorem create_summing {h : Hierarchy K} (hg : h.Grown) (m : Maker (CallNodeKey K)) :
    ∃ c, create m h = some c ∧ Summing h c := by
  obtain ⟨c, hrun, hsumming⟩ := populate hg m h.nodes [] ⟨h.paths, .new, []⟩ rfl
    ⟨Hierarchy.new_grown, nofun, rfl⟩ rfl (Lib.Aggregation.mirrors_nil h.dirty h.nodes)
  refine ⟨c, ?_, hsumming⟩
  have hhandles : h.handles = h.nodes.map Prod.fst := by
    unfold Hierarchy.handles
    rw [← hg.records_of_nodes, List.map_map]
    rfl
  unfold create
  rw [mapM_callstack hg, Option.bind_some, hhandles]
  exact hrun

end Cumulative

end

/-! ## Any sequence of updates -/

/-- The table of calls, and the cumulative one once it is created. -/
structure CumulativeView (K : Type) where
  /-- updates, as changes of the table of calls -/
  feed : Feed K
  table : Option (Cumulative K)

inductive CumulativeAction (K : Type)
  /-- An update of the statistics arrives. -/
  | update (u : Statistics.Update K)
  /-- The next change of the update. -/
  | change (m : Maker (CallNodeKey K))
  | create (m : Maker (CallNodeKey K))

/-- Sums over calls, and the longest of their longest times. -/
def sumStats (group : List (Node K)) : FunctionStatistics where
  timesCalled := (group.map fun n => n.record.stats.timesCalled).sum
  inclusiveTime := (group.map fun n => n.record.stats.inclusiveTime).sum
  exclusiveTime := (group.map fun n => n.record.stats.exclusiveTime).sum
  maxCallTime := (group.map fun n => n.record.stats.maxCallTime).foldl max 0

/-- The order of the calls does not matter. -/
theorem sumStats_perm {xs ys : List (Node K)} (h : xs.Perm ys) : sumStats xs = sumStats ys := by
  unfold sumStats
  rw [(h.map _).sum_eq, (h.map _).sum_eq, (h.map _).sum_eq, foldl_max_perm (h.map _)]

/-- **`sum_functions` sums up.**  By induction on the group, from any start. -/
theorem sumFunctions_stats (a : CallStatistics K) (group : List (Node K)) :
    (sumFunctions a (group.map Node.record)).stats = sumStats group := by
  have hfold : ∀ (group : List (Node K)) (s : FunctionStatistics),
      (group.map Node.record).foldl (fun total r => total.add r.stats) s =
        { timesCalled := s.timesCalled + (sumStats group).timesCalled
          inclusiveTime := s.inclusiveTime + (sumStats group).inclusiveTime
          exclusiveTime := s.exclusiveTime + (sumStats group).exclusiveTime
          maxCallTime :=
            (group.map fun n => n.record.stats.maxCallTime).foldl max s.maxCallTime } := by
    intro group
    induction group with
    | nil =>
      intro s
      simp [sumStats]
    | cons n group ih =>
      intro s
      rw [List.map_cons, List.foldl_cons, ih]
      ext
      · simp only [sumStats, FunctionStatistics.add, List.map_cons, List.sum_cons]; omega
      · simp only [sumStats, FunctionStatistics.add, List.map_cons, List.sum_cons]; omega
      · simp only [sumStats, FunctionStatistics.add, List.map_cons, List.sum_cons]; omega
      · simp only [List.map_cons, List.foldl_cons, FunctionStatistics.add_maxCallTime]
  show (group.map Node.record).foldl (fun total r => total.add r.stats) ({} : FunctionStatistics) = _
  rw [hfold]
  simp [sumStats]

variable [DecidableEq K]

namespace CumulativeView

/-- No call was read, and nothing is summed up. -/
def new : CumulativeView K := ⟨.new, none⟩

/-- One update after the other; the table is created once. -/
def Allowed (s : CumulativeView K) : CumulativeAction K → Prop
  | .update _ => s.feed.ahead = []
  | .change _ => s.feed.ahead ≠ []
  | .create _ => s.table.isNone

instance (s : CumulativeView K) (a : CumulativeAction K) : Decidable (s.Allowed a) :=
  match a with
  | .update _ => inferInstanceAs (Decidable (s.feed.ahead = []))
  | .change _ => inferInstanceAs (Decidable (s.feed.ahead ≠ []))
  | .create _ => inferInstanceAs (Decidable (s.table.isNone = true))

def perform (s : CumulativeView K) : CumulativeAction K → Option (CumulativeView K)
  | .update u => (s.feed.update u).map fun feed => { s with feed := feed }
  | .change m =>
      s.feed.advance.bind fun r =>
        -- the slots are there once the table is created
        (emit (fun c => c.onChange m r.2.hierarchy r.1) s.table).map fun table => ⟨r.2, table⟩
  | .create m => (Cumulative.create m s.feed.hierarchy).map fun c => { s with table := some c }

def step (s : CumulativeView K) (a : CumulativeAction K) : Option (CumulativeView K) :=
  if s.Allowed a then s.perform a else none

/-- INVARIANT: the aggregates mirror the calls, as far as they have been seen. -/
structure Steady (s : CumulativeView K) : Prop where
  feed : s.feed.Steady
  table : ∀ c, s.table = some c → Cumulative.Summing s.feed.hierarchy c

/-- Nothing to mirror. -/
theorem new_steady : (new : CumulativeView K).Steady := ⟨Feed.new_steady, nofun⟩

/-- **Every allowed action returns**, and keeps the invariant. -/
theorem Steady.perform {s : CumulativeView K} (hs : s.Steady) {a : CumulativeAction K}
    (ha : s.Allowed a) : ∃ s', s.perform a = some s' ∧ s'.Steady := by
  cases a with
  | update u =>
    -- the changes are ahead; none was made yet
    obtain ⟨feed, hupdate, hsame, hfeed⟩ := hs.feed.update u ha
    refine ⟨{ s with feed := feed }, congrArg (Option.map _) hupdate, hfeed, ?_⟩
    rw [hsame]
    exact hs.table
  | change m =>
    -- one is made, and the slots are told
    obtain ⟨change, feed, hadvance, hallowed, hafter, hfeed⟩ := hs.feed.advance ha
    have hslot : ∀ c, s.table = some c → ∃ c', c.onChange m feed.hierarchy change = some c' ∧
        Cumulative.Summing feed.hierarchy c' := by
      intro c hc
      rw [hafter]
      exact Cumulative.onChange_summing (hs.table c hc) hallowed m
    obtain ⟨table, hemit, htable⟩ := emit_establishes hslot
    refine ⟨⟨feed, table⟩, ?_, hfeed, htable⟩
    unfold CumulativeView.perform
    simp only [hadvance, Option.bind_some, hemit, Option.map_some]
  | create m =>
    -- the table is created over what there is by now
    obtain ⟨c, hc, hsumming⟩ := Cumulative.create_summing hs.feed.grown m
    refine ⟨{ s with table := some c }, congrArg (Option.map _) hc, hs.feed, ?_⟩
    rintro _ ⟨⟩
    exact hsumming

/-- The same, of the actions that are made one after the other. -/
theorem step_steady (s : CumulativeView K) (a : CumulativeAction K) (s' : CumulativeView K)
    (hs : s.Steady) (hstep : s.step a = some s') : s'.Steady :=
  Lib.of_allowed (fun ha => hs.perform ha) hstep

end CumulativeView

/-- A cumulative table of `nodes`: its records, with the paths they stand for. -/
structure CumulativeOf (nodes : List (Node K)) (records : List (List K × CallStatistics K)) :
    Prop where
  /-- one record a path -/
  nodup : (records.map Prod.fst).Nodup
  ids : (records.map fun e => e.2.id).Nodup
  /-- and a record for each path of the calls -/
  paths : ∀ p, (∃ r, (p, r) ∈ records) ↔ ∃ n ∈ nodes, n.path = p
  address : ∀ e ∈ records, e.1.getLast? = some e.2.address
  /-- under the record of the path without the last address -/
  parents : ∀ e ∈ records, if e.1.dropLast = [] then e.2.parentId = 0
    else ∃ parent, (e.1.dropLast, parent) ∈ records ∧ e.2.parentId = parent.id
  /-- with the sums over all calls of the path -/
  stats : ∀ e ∈ records, e.2.stats = sumStats (nodes.filter fun n => n.path = e.1)

/-- **With nothing left uncommitted, the aggregates are what they are defined as.**  Paths are
    unique by `Shaped.unique`, parents by `Grown.parent_path`, the sums by what is mirrored. -/
theorem Cumulative.Summing.cumulativeOf {h : Hierarchy K} {c : Cumulative K}
    (hc : Cumulative.Summing h c) (hdirty : h.dirty = []) :
    CumulativeOf (h.nodes.map Prod.snd)
      (c.aggregate.nodes.map fun e => (e.2.path, e.2.record)) := by
  have hg := hc.shaped.grown
  have hmirrors := hc.mirrors
  rw [hdirty] at hmirrors
  obtain ⟨hkeys, hnodup, hcomputed⟩ := hmirrors.recomputed (List.Nodup.of_map _ hg.nodup_nodes)
  refine ⟨?_, ?_, ?_, ?_, ?_, ?_⟩
  · rw [List.map_map]
    exact hnodup
  · have hids := hg.nodup_ids
    rw [← hg.records_of_nodes, List.map_map] at hids
    rw [List.map_map]
    exact hids
  · intro p
    constructor
    · rintro ⟨r, hr⟩
      obtain ⟨e, he, heq⟩ := List.mem_map.mp hr
      obtain ⟨x, hx, hpath⟩ := (hkeys p).mp ⟨e, he, (Prod.mk.inj heq).1⟩
      exact ⟨x.2, List.mem_map_of_mem hx, hpath⟩
    · rintro ⟨n, hn, hpath⟩
      obtain ⟨x, hx, rfl⟩ := List.mem_map.mp hn
      obtain ⟨e, he, hkey⟩ := (hkeys p).mpr ⟨x, hx, hpath⟩
      exact ⟨e.2.record, List.mem_map.mpr ⟨e, he, congrArg₂ Prod.mk hkey rfl⟩⟩
  · intro r hr
    obtain ⟨e, _, rfl⟩ := List.mem_map.mp hr
    exact List.getLast?_concat
  · intro r hr
    obtain ⟨⟨x, n⟩, he, rfl⟩ := List.mem_map.mp hr
    rcases hg.parent_path he with ⟨hroot, hzero⟩ | ⟨e', he', hpath, hid, hne, _⟩
    · show if n.path.dropLast = [] then n.record.parentId = 0 else _
      rw [if_pos hroot]
      exact hzero
    · show if n.path.dropLast = [] then _ else ∃ parent, (n.path.dropLast, parent) ∈ _ ∧ _
      rw [if_neg hne, ← hpath]
      exact ⟨e'.2.record, List.mem_map_of_mem he', hid.symm⟩
  · intro r hr
    obtain ⟨e, he, rfl⟩ := List.mem_map.mp hr
    obtain ⟨a, items, heq, _, hitems⟩ := hcomputed e he
    have hgroup : byCallstack.group h.nodes e.2.path =
        (h.nodes.map Prod.snd).filter fun n => n.path = e.2.path := by
      unfold Lib.Aggregation.group
      rw [List.filter_map]
      rfl
    rw [show byCallstack.akey e.2 = e.2.path from rfl, hgroup] at hitems
    calc e.2.record.stats = (byCallstack.aggregate a items).record.stats := by rw [← heq]
      _ = sumStats items := sumFunctions_stats a.record items
      _ = _ := sumStats_perm hitems

/-- **The cumulative view is exact.**  In any run of updates and of the changes they are made of, the
    cumulative table being created at any point, every next action returns: no key is computed and
    no record created for a parent that is not there.  Whenever no change of an update is ahead, the
    cumulative table has one record for each address path of the calls, of whatever thread; its
    parent is the record of the path without the last address; and its statistics are the sums over
    all calls with that path. -/
theorem cumulative_exact (actions : List (CumulativeAction K)) (s : CumulativeView K)
    (h : Lib.run CumulativeView.step .new actions = some s) :
    (∀ a, s.Allowed a → ∃ s', s.perform a = some s') ∧
    ∀ c, s.table = some c → s.feed.ahead = [] →
      ∃ (nodes : List (Node K)) (records : List (List K × CallStatistics K)),
        nodes.map Node.record = s.feed.statistics.values ∧
        (∀ n ∈ nodes, Lineage s.feed.statistics.values n.record n.up) ∧
        records.map Prod.snd = c.aggregate.values ∧ CumulativeOf nodes records := by
  have hs := Lib.run_invariant CumulativeView.step_steady actions .new s
    CumulativeView.new_steady h
  refine ⟨fun a ha => ?_, ?_⟩
  · -- the next action returns
    obtain ⟨s', hs', _⟩ := hs.perform ha
    exact ⟨s', hs'⟩
  · -- nothing is ahead, so that nothing is uncommitted
    intro c hc hahead
    have hsumming := hs.table c hc
    rw [hs.feed.seen hahead] at hsumming
    have hg := hsumming.grown
    refine ⟨_, _, hg.record_nodes, ?_, ?_, hsumming.cumulativeOf rfl⟩
    · intro n hn
      obtain ⟨e, he, rfl⟩ := List.mem_map.mp hn
      exact (hg.mem_nodes.mp he).2
    · have hrecords := hsumming.shaped.grown.record_nodes
      rw [List.map_map] at hrecords ⊢
      exact hrecords

/-- Two threads with one path in common; the cumulative table comes half way through the first. -/
def twoThreads : List (CumulativeAction Nat) :=
  let m : Maker (CallNodeKey Nat) := .ascending fun _ => (0, 0, 0)
  let shared : NodesMap Nat := .cons 10 ⟨1, 20, 11, 20⟩ (.cons 20 ⟨2, 9, 9, 5⟩ .nil .nil) .nil
  let alone : NodesMap Nat := .cons 10 ⟨1, 7, 7, 7⟩ .nil .nil
  [.update (m, [(1, shared), (2, alone)]), .change m, .change m, .create m] ++
    List.replicate 7 (.change m)

theorem cumulative_exact_two_threads :
    ∃ s c nodes records, Lib.run CumulativeView.step .new twoThreads = some s ∧ s.table = some c ∧
      s.feed.ahead = [] ∧ CumulativeOf nodes records ∧ records.map Prod.snd = c.aggregate.values ∧
      c.aggregate.values = [⟨1, cumulative, 0, 10, ⟨2, 27, 18, 20⟩⟩,
        ⟨2, cumulative, 1, 20, ⟨2, 9, 9, 5⟩⟩] := by
  have hsummary : (Lib.run CumulativeView.step .new twoThreads).bind (fun s => s.table.map fun c =>
      (s.feed.ahead.isEmpty, c.aggregate.values)) = some (true,
        [⟨1, cumulative, 0, 10, ⟨2, 27, 18, 20⟩⟩, ⟨2, cumulative, 1, 20, ⟨2, 9, 9, 5⟩⟩]) := by
    decide +kernel
  obtain ⟨s, hrun, hs⟩ := Option.bind_eq_some_iff.mp hsummary
  obtain ⟨c, hc, hs⟩ := Option.map_eq_some_iff.mp hs
  obtain ⟨hahead, hvalues⟩ := Prod.mk.inj hs
  have hahead := List.isEmpty_iff.mp hahead
  obtain ⟨nodes, records, _, _, hrecords, hexact⟩ := (cumulative_exact twoThreads s hrun).2 c hc hahead
  exact ⟨s, c, nodes, records, hrun, hc, hahead, hexact, hrecords, hvalues⟩

end MicroProfiler.Frontend
