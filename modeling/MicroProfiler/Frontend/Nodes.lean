/-
  Calls with their ancestors: `aggregator::sum_flat` and the keyers of the derived tables.

  1. **Nodes** — a `Node` is a record of the table and the ancestors that `initialize_path` finds for
     it.  `Hierarchy.nodes` follows the table change by change: ancestors are found once and stay
     (`nodes_created`, `nodes_written`).

  2. **`sum_flat`** — what it makes of a group is its `totals`, whatever the order: calls with an
     ancestor of the same address count for neither the inclusive nor the longest time.

  3. **`byThread`** — the groupings of the flat, the callers' and the callees' table.

  4. **`Feed`** — updates and their changes, one by one, as the observers of the table see them.
-/
import MicroProfiler.Frontend.Hierarchy
import MicroProfiler.Sdb.GroupBy

namespace MicroProfiler.Frontend

open Sdb

variable {K : Type}

/-- A call and its ancestors, from its parent up. -/
structure Node (K : Type) where
  record : CallStatistics K
  up : List (Nat × K)
deriving DecidableEq, Repr

namespace Node

/-- `keyer::address`. -/
def address (n : Node K) : K := n.record.address

/-- `keyer::parent_address`: the address of the first record up, `long_address_t()` if there is
    none. -/
def parentAddress [Zero K] (n : Node K) : K :=
  match n.up with
  | [] => 0
  | parent :: _ => parent.2

/-- The addresses from the root down to the call. -/
def path (n : Node K) : List K := (n.up.map Prod.snd).reverse ++ [n.address]

/-- Without the call itself, a path is that of its ancestors. -/
theorem dropLast_path (n : Node K) : n.path.dropLast = (n.up.map Prod.snd).reverse :=
  List.dropLast_concat

/-- No ancestor has the same address. -/
def Outermost (n : Node K) : Prop := ∀ a ∈ n.up, a.2 ≠ n.address

instance [DecidableEq K] (n : Node K) : Decidable n.Outermost :=
  inferInstanceAs (Decidable (∀ a ∈ n.up, a.2 ≠ n.address))

/-- The keyer reads the same parent as the walk. -/
theorem parentAddress_eq [Zero K] {values : List (CallStatistics K)} {nextId : Nat}
    (h : Rooted values nextId) {n : Node K} (hup : Lineage values n.record n.up) :
    n.parentAddress = ((findById values n.record.parentId).map CallStatistics.address).getD 0 := by
  obtain ⟨r, up⟩ := n
  cases hup with
  | root hzero =>
    rw [show (Node.mk r []).record.parentId = 0 from hzero, h.findById_zero]
    rfl
  | child hparent hid _ =>
    rw [show (Node.mk r _).record.parentId = _ from hid.symm, h.findById hparent]
    rfl

variable [DecidableEq K]

/-- `call_statistics::reentrance`. -/
def reentrance (n : Node K) : Nat := Frontend.reentrance n.record n.up

/-- The code counts ancestors of the address: none means outermost. -/
theorem reentrance_eq_zero {n : Node K} : n.reentrance = 0 ↔ n.Outermost := by
  unfold reentrance Frontend.reentrance Outermost
  rw [List.countP_eq_zero]
  simp only [decide_eq_true_eq]
  exact Iff.rfl

end Node

/-! ## `sum_flat` -/

section

variable [DecidableEq K]

/-- `add(call_statistics &, const call_statistics &, lookup)`. -/
def addFlat (lhs : FunctionStatistics) (rhs : Node K) : FunctionStatistics :=
  let counted : FunctionStatistics :=
    { lhs with
      timesCalled := lhs.timesCalled + rhs.record.stats.timesCalled
      exclusiveTime := lhs.exclusiveTime + rhs.record.stats.exclusiveTime }
  -- an inner call is part of the outer one's inclusive time already
  if rhs.reentrance = 0 then
    { counted with
      inclusiveTime := lhs.inclusiveTime + rhs.record.stats.inclusiveTime
      maxCallTime := if rhs.record.stats.maxCallTime > lhs.maxCallTime
        then rhs.record.stats.maxCallTime else lhs.maxCallTime }
  else counted

/-- `aggregator::sum_flat`. -/
def sumFlat (aggregated : CallStatistics K) (group : List (Node K)) : CallStatistics K :=
  { aggregated with parentId := 0, stats := group.foldl addFlat {} }

/-- Counts and exclusive times of all calls, inclusive and longest times of the outermost ones. -/
def totals (group : List (Node K)) : FunctionStatistics where
  timesCalled := (group.map fun n => n.record.stats.timesCalled).sum
  inclusiveTime := ((group.filter fun n => n.Outermost).map fun n => n.record.stats.inclusiveTime).sum
  exclusiveTime := (group.map fun n => n.record.stats.exclusiveTime).sum
  maxCallTime :=
    ((group.filter fun n => n.Outermost).map fun n => n.record.stats.maxCallTime).foldl max 0

/-- The fold from any start, which is what the induction needs. -/
theorem foldl_addFlat (group : List (Node K)) : ∀ s : FunctionStatistics,
    group.foldl addFlat s =
      { timesCalled := s.timesCalled + (totals group).timesCalled
        inclusiveTime := s.inclusiveTime + (totals group).inclusiveTime
        exclusiveTime := s.exclusiveTime + (totals group).exclusiveTime
        maxCallTime := ((group.filter fun n => n.Outermost).map fun n =>
          n.record.stats.maxCallTime).foldl max s.maxCallTime } := by
  induction group with
  | nil =>
    intro s
    simp [totals]
  | cons n group ih =>
    intro s
    rw [List.foldl_cons, ih]
    unfold addFlat totals
    -- an outer call adds to all four fields, an inner one to two
    by_cases hn : n.Outermost
    · rw [if_pos (Node.reentrance_eq_zero.mpr hn), List.filter_cons_of_pos (by simpa using hn)]
      ext
      · simp only [List.map_cons, List.sum_cons]; omega
      · simp only [List.map_cons, List.sum_cons]; omega
      · simp only [List.map_cons, List.sum_cons]; omega
      · simp only [List.map_cons, List.foldl_cons, FunctionStatistics.ite_gt_eq_max]
    · rw [if_neg (mt Node.reentrance_eq_zero.mp hn), List.filter_cons_of_neg (by simpa using hn)]
      ext
      · simp only [List.map_cons, List.sum_cons]; omega
      · rfl
      · simp only [List.map_cons, List.sum_cons]; omega
      · rfl

/-- **`sum_flat` makes the totals.** -/
theorem sumFlat_stats (a : CallStatistics K) (group : List (Node K)) :
    (sumFlat a group).stats = totals group := by
  show group.foldl addFlat {} = _
  rw [foldl_addFlat]
  simp [totals]

/-- A maximum does not depend on the order. -/
theorem foldl_max_perm {xs ys : List Int} (h : xs.Perm ys) (a : Int) :
    xs.foldl max a = ys.foldl max a := by
  refine h.foldl_eq' ?_ a
  intro x _ y _ z
  rw [max_assoc, max_comm x y, ← max_assoc]

/-- **Totals do not depend on the order.** -/
theorem totals_perm {xs ys : List (Node K)} (h : xs.Perm ys) : totals xs = totals ys := by
  have houter := h.filter fun n => n.Outermost
  unfold totals
  rw [(h.map _).sum_eq, (houter.map _).sum_eq, (h.map _).sum_eq, foldl_max_perm (houter.map _)]

/-- `group_by` with `sum_flat`, by a keyer and the thread; aggregates are found by address and
    thread. -/
def byThread (k : Node K → K) : Grouping (Node K) (CallStatistics K) (K × Nat) where
  ukey n := (k n, n.record.threadId)
  akey a := (a.address, a.threadId)
  aggregate := sumFlat
  -- the aggregator leaves address and thread alone
  akey_aggregate _ _ := rfl
  setKey a q := { a with address := q.1, threadId := q.2 }
  akey_setKey _ _ := rfl

end

/-! ## The nodes of a table -/

namespace Hierarchy

/-- A record with the ancestors the walk finds. -/
def node (h : Hierarchy K) (r : CallStatistics K) : Option (Node K) :=
  (walk (findById h.values) h.nextId r).map (Node.mk r)

/-- All records with theirs, by handle. -/
def nodes (h : Hierarchy K) : List (Handle × Node K) :=
  h.records.filterMap fun e => (h.node e.2).map (Prod.mk e.1)

/-- **A record's node is its lineage.** -/
theorem Grown.node_eq {h : Hierarchy K} (hg : h.Grown) {r : CallStatistics K} {up : List (Nat × K)}
    (hr : r ∈ h.values) (hup : Lineage h.values r up) : h.node r = some ⟨r, up⟩ := by
  unfold node
  rw [walk_lineage hg.rooted hup ((hg.rooted.parent_lt hr).trans (hg.rooted.below r hr))]
  rfl

/-- The nodes of the table: its records, each with its lineage. -/
theorem Grown.mem_nodes {h : Hierarchy K} (hg : h.Grown) {x : Handle} {n : Node K} :
    (x, n) ∈ h.nodes ↔ (x, n.record) ∈ h.records ∧ Lineage h.values n.record n.up := by
  unfold nodes
  rw [List.mem_filterMap]
  constructor
  · -- what the walk has found is the lineage
    rintro ⟨e, he, hnode⟩
    obtain ⟨n', hn', heq⟩ := Option.map_eq_some_iff.mp hnode
    obtain ⟨rfl, rfl⟩ := Prod.mk.inj heq
    have hmem : e.2 ∈ h.values := List.mem_map_of_mem he
    obtain ⟨up, hup⟩ := hg.rooted.exists_lineage e.2 hmem
    rw [hg.node_eq hmem hup] at hn'
    obtain rfl := Option.some.inj hn'
    exact ⟨he, hup⟩
  · rintro ⟨hr, hup⟩
    have hmem : n.record ∈ h.values := List.mem_map.mpr ⟨_, hr, rfl⟩
    exact ⟨_, hr, by rw [hg.node_eq hmem hup]; rfl⟩

/-- A call is at its path. -/
theorem Grown.path_at {h : Hierarchy K} (hg : h.Grown) {x : Handle} {n : Node K}
    (hn : (x, n) ∈ h.nodes) : At h.values n.record.threadId n.path n.record.id := by
  obtain ⟨hr, hup⟩ := hg.mem_nodes.mp hn
  exact hup.leads hg.rooted (List.mem_map.mpr ⟨_, hr, rfl⟩)

/-- Nodes and records correspond. -/
theorem Grown.records_of_nodes {h : Hierarchy K} (hg : h.Grown) :
    (h.nodes.map fun e => (e.1, e.2.record)) = h.records := by
  have hall : ∀ records : List (Handle × CallStatistics K), (∀ e ∈ records, e ∈ h.records) →
      ((records.filterMap fun e => (h.node e.2).map (Prod.mk e.1)).map
        fun e => (e.1, e.2.record)) = records := by
    intro records
    induction records with
    | nil => exact fun _ => rfl
    | cons e records ih =>
      intro hsub
      have hmem : e.2 ∈ h.values := List.mem_map_of_mem (hsub e List.mem_cons_self)
      obtain ⟨up, hup⟩ := hg.rooted.exists_lineage e.2 hmem
      have hnode : (h.node e.2).map (Prod.mk e.1) = some (e.1, ⟨e.2, up⟩) := by
        rw [hg.node_eq hmem hup]
        rfl
      rw [List.filterMap_cons, hnode]
      show _ :: List.map _ _ = _
      rw [ih fun x hx => hsub x (List.mem_cons_of_mem _ hx)]
  exact hall h.records fun _ he => he

/-- Without handles and ancestors they are the values of the table. -/
theorem Grown.record_nodes {h : Hierarchy K} (hg : h.Grown) :
    (h.nodes.map Prod.snd).map Node.record = h.values := by
  have hrecords := congrArg (List.map Prod.snd) hg.records_of_nodes
  rw [List.map_map] at hrecords ⊢
  exact hrecords

/-- No handle has two nodes. -/
theorem Grown.nodup_nodes {h : Hierarchy K} (hg : h.Grown) : (h.nodes.map Prod.fst).Nodup := by
  have hhandles : (h.records.map Prod.fst).Nodup := hg.handles
  rw [← hg.records_of_nodes, List.map_map] at hhandles
  exact hhandles

/-- **A record comes** with its lineage, and changes no other's. -/
theorem Grown.nodes_created {h : Hierarchy K} (hg : h.Grown) {record : Handle}
    {r : CallStatistics K} (ha : h.Allowed (.created record r)) :
    ∃ up, Lineage (h.apply (.created record r)).values r up ∧
      (h.apply (.created record r)).node r = some ⟨r, up⟩ ∧
      (h.apply (.created record r)).nodes = h.nodes ++ [(record, ⟨r, up⟩)] := by
  have hg' := hg.apply ha
  have hr : r ∈ (h.apply (.created record r)).values :=
    List.mem_map.mpr ⟨(record, r), List.mem_append_right _ (List.mem_singleton.mpr rfl), rfl⟩
  obtain ⟨up, hup⟩ := hg'.rooted.exists_lineage r hr
  have hnode := hg'.node_eq hr hup
  refine ⟨up, hup, hnode, ?_⟩
  show (h.records ++ [(record, r)]).filterMap _ = _
  rw [List.filterMap_append]
  congr 1
  · -- the others keep their ancestors: no record of a lineage has changed
    apply List.filterMap_congr
    intro e he
    have hmem : e.2 ∈ h.values := List.mem_map_of_mem he
    obtain ⟨up', hup'⟩ := hg.rooted.exists_lineage e.2 hmem
    have hmem' : e.2 ∈ (h.apply (.created record r)).values :=
      List.mem_map.mpr ⟨e, List.mem_append_left _ he, rfl⟩
    rw [hg.node_eq hmem hup', hg'.node_eq hmem' (hup'.keeps (hg.keeps ha) rfl)]
  · show [(record, r)].filterMap _ = _
    rw [List.filterMap_cons_some (by rw [hnode]; rfl)]
    rfl

/-- **A record is written to**: its node has the new statistics. -/
theorem Grown.nodes_written {h : Hierarchy K} (hg : h.Grown) {record : Handle}
    {r : CallStatistics K} (ha : h.Allowed (.written record r)) :
    ∃ old up, (record, ⟨old, up⟩) ∈ h.nodes ∧ { old with stats := r.stats } = r ∧
      (h.apply (.written record r)).nodes =
        h.nodes.map fun e => if e.1 = record then (record, ⟨r, up⟩) else e := by
  have hg' := hg.apply ha
  have hkeeps := hg.keeps ha
  obtain ⟨⟨x, old⟩, hold, hx, heq⟩ := ha
  obtain rfl : x = record := hx
  have hmem : old ∈ h.values := List.mem_map.mpr ⟨_, hold, rfl⟩
  obtain ⟨up, hup⟩ := hg.rooted.exists_lineage old hmem
  refine ⟨old, up, hg.mem_nodes.mpr ⟨hold, hup⟩, heq, ?_⟩
  show (h.records.map _).filterMap _ = (h.records.filterMap _).map _
  rw [List.filterMap_map, List.map_filterMap]
  apply List.filterMap_congr
  intro e he
  have he' : (if e.1 = x then (x, r) else e) ∈ (h.apply (.written x r)).records :=
    List.mem_map_of_mem (f := fun e : Handle × CallStatistics K => if e.1 = x then (x, r) else e) he
  show ((h.apply (.written x r)).node (if e.1 = x then (x, r) else e).2).map
    (Prod.mk (if e.1 = x then (x, r) else e).1) = _
  -- the record written to has new statistics; neither its ancestors nor another's changed in what a
  -- lineage is made of
  by_cases hrecord : e.1 = x
  · obtain rfl : e = (x, old) := List.inj_on_of_nodup_map hg.handles he hold hrecord
    rw [if_pos rfl] at he' ⊢
    rw [hg.node_eq hmem hup, hg'.node_eq (List.mem_map.mpr ⟨_, he', rfl⟩)
      (hup.keeps hkeeps (by rw [← heq]))]
    show some _ = some (if _ then _ else _)
    rw [if_pos rfl]
  · rw [if_neg hrecord] at he' ⊢
    have hmem' : e.2 ∈ h.values := List.mem_map_of_mem he
    obtain ⟨up', hup'⟩ := hg.rooted.exists_lineage e.2 hmem'
    rw [hg.node_eq hmem' hup', hg'.node_eq (List.mem_map.mpr ⟨_, he', rfl⟩)
      (hup'.keeps hkeeps rfl)]
    show some _ = some (if _ then _ else _)
    rw [if_neg hrecord]

end Hierarchy

/-! ## Following the table -/

/-- The table of calls and the context's thread ids; the table as far as its observers have seen it,
    and the changes ahead of them.  Slots do not write to the table, so the changes of an update are
    computed first and then made one by one. -/
structure Feed (K : Type) where
  /-- as it is after the update -/
  statistics : Statistics K
  threads : List Nat
  /-- as it was after the last change made -/
  hierarchy : Hierarchy K
  ahead : List (Change K)

namespace Feed

/-- Nothing has arrived. -/
def new : Feed K := ⟨.new, [], .new, []⟩

variable [DecidableEq K]

/-- An update of the statistics arrives. -/
def update (f : Feed K) (u : Statistics.Update K) : Option (Feed K) :=
  (Statistics.deserializeTraced u.1 f.statistics f.threads u.2).map fun r =>
    { f with statistics := r.1.1, threads := r.1.2, ahead := r.2 }

/-- The next change is made. -/
def advance (f : Feed K) : Option (Change K × Feed K) :=
  f.ahead.head?.bind fun c => (f.hierarchy.step c).map fun h =>
    (c, { f with hierarchy := h, ahead := f.ahead.tail })

/-- INVARIANT: the changes ahead lead to the table. -/
structure Steady (f : Feed K) : Prop where
  /-- of the table itself -/
  sound : f.statistics.Sound
  /-- of what was seen of it -/
  grown : f.hierarchy.Grown
  ahead : Lib.run Hierarchy.step f.hierarchy f.ahead = some (f.statistics.observed [])

/-- It holds at first. -/
theorem new_steady : (new : Feed K).Steady :=
  ⟨Statistics.new_sound, Hierarchy.new_grown, rfl⟩

variable {f : Feed K}

/-- With no change ahead the observers have seen everything. -/
theorem Steady.seen (hf : f.Steady) (hahead : f.ahead = []) :
    f.hierarchy = f.statistics.observed [] := by
  have hrun := hf.ahead
  rw [hahead] at hrun
  exact Option.some.inj hrun

/-- **An update** puts its changes ahead; the observers have seen none of them. -/
theorem Steady.update (hf : f.Steady) (u : Statistics.Update K) (hahead : f.ahead = []) :
    ∃ f', f.update u = some f' ∧ f'.hierarchy = f.hierarchy ∧ f'.Steady := by
  obtain ⟨statistics, threads, changes, htraced, _, hsound, hrun⟩ :=
    hf.sound.deserialize_traced u.1 f.threads u.2
  rw [← hf.seen hahead] at hrun
  refine ⟨{ f with statistics := statistics, threads := threads, ahead := changes }, ?_, rfl,
    hsound, hf.grown, hrun⟩
  unfold Feed.update
  rw [htraced]
  rfl

/-- **The next change** is one the table allows, and brings the observers one step further. -/
theorem Steady.advance (hf : f.Steady) (hahead : f.ahead ≠ []) :
    ∃ c f', f.advance = some (c, f') ∧ f.hierarchy.Allowed c ∧
      f'.hierarchy = f.hierarchy.apply c ∧ f'.Steady := by
  obtain ⟨c, rest, hc⟩ := List.exists_cons_of_ne_nil hahead
  have hrun := hf.ahead
  rw [hc] at hrun
  obtain ⟨h, hstep, hrest⟩ := Lib.run_cons_eq_some.mp hrun
  obtain ⟨ha, rfl⟩ := Hierarchy.step_eq_some.mp hstep
  refine ⟨c, ⟨f.statistics, f.threads, f.hierarchy.apply c, rest⟩, ?_, ha, rfl, hf.sound,
    hf.grown.apply ha, hrest⟩
  unfold Feed.advance
  rw [hc, List.head?_cons, Option.bind_some, hstep]
  rfl

end Feed

end MicroProfiler.Frontend
