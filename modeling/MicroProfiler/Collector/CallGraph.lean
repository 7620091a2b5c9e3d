/-
  The call graph of `collector/primitives.h`: `call_graph_node` and its `callees_type`.

  A node is its statistics plus a map from callee to node.  `NodesMap` spells the recursive map as
  one inductive type (an entry's key, statistics and callees, then the remaining entries), so that
  every function over the tree is structural.  The order of the entries stands for the iteration
  order of the hash map; nothing below depends on it, and every later result reads a map through
  `CallGraphNode.nodeAt` only.

  A pointer into the tree is a PATH from the root: `std::unordered_map` never moves its elements,
  so a pointer to a node stays the pointer to the node with that path for as long as it lives.

  1. **Data and operations** — `find`, `get` (find-or-insert), `alter`, and `nodeAt`/`modify`,
     which read and write through a path.
  2. **What a write through a pointer does** (`nodeAt_modify_append`,
     `nodeAt_modify_above`, `nodeAt_modify_apart`): below the path, above it, and elsewhere.
  3. **The two writes the profiler makes** — creating a callee (`touch`) and accounting a call
     (`account`) — as equations on `view`, the observation "statistics of the node, and the sum of
     its direct callees' inclusive times".
-/
import MicroProfiler.Common.Primitives

namespace MicroProfiler

/-- `call_graph_node<LocationT>::callees_type`: the entries of a callees map, in iteration order. -/
inductive NodesMap (K : Type) where
  /-- no callees, or no further ones -/
  | nil : NodesMap K
  /-- one callee with all below it, and those after it -/
  | cons (key : K) (stats : FunctionStatistics) (callees rest : NodesMap K) : NodesMap K
deriving DecidableEq, Repr

/-- `call_graph_node<LocationT>`: statistics and callees. -/
structure CallGraphNode (K : Type) where
  /-- what `function_statistics`, its base class, holds -/
  stats : FunctionStatistics
  callees : NodesMap K
deriving DecidableEq, Repr

/-- A default-constructed node: no calls, no callees. -/
def CallGraphNode.empty {K : Type} : CallGraphNode K := ⟨{}, .nil⟩

namespace NodesMap

variable {K : Type} [DecidableEq K]

/-- `callees.find(callee)`. -/
def find : NodesMap K → K → Option (CallGraphNode K)
  | nil, _ => none
  | cons key stats callees rest, k => if key = k then some ⟨stats, callees⟩ else rest.find k

/-- `stack_record::get`: the map after `callee` has been looked up and, if missing, inserted. -/
def get : NodesMap K → K → NodesMap K
  | nil, k => cons k {} nil nil
  | cons key stats callees rest, k =>
      if key = k then cons key stats callees rest else cons key stats callees (rest.get k)

/-- Write to the node stored under `k` (nothing happens when there is none). -/
def alter (f : CallGraphNode K → CallGraphNode K) : NodesMap K → K → NodesMap K
  | nil, _ => nil
  | cons key stats callees rest, k =>
      if key = k then cons key (f ⟨stats, callees⟩).stats (f ⟨stats, callees⟩).callees rest
      else cons key stats callees (rest.alter f k)

/-- Sum of the inclusive times of the entries of this map (not of the maps below it). -/
def inclusiveSum : NodesMap K → Int
  | nil => 0
  | cons _ stats _ rest => stats.inclusiveTime + rest.inclusiveSum

/-- Sum of the exclusive times of all nodes of the map, at every depth. -/
def exclusiveTotal : NodesMap K → Int
  | nil => 0
  | cons _ stats callees rest => stats.exclusiveTime + callees.exclusiveTotal + rest.exclusiveTotal

/-- No key occurs twice in any one map of the tree — what the hash map guarantees. -/
def Distinct : NodesMap K → Prop
  | nil => True
  | cons key _ callees rest => rest.find key = none ∧ callees.Distinct ∧ rest.Distinct

/-! ## `find` against the writes -/

/-- After `get` the callee is there: the one found, or a new one. -/
theorem find_get_self (k : K) : ∀ m : NodesMap K,
    (m.get k).find k = some ((m.find k).getD CallGraphNode.empty)
  | nil => by simp [get, find, CallGraphNode.empty]
  | cons key stats callees rest => by
    by_cases h : key = k
    · simp [get, find, h]
    · simp only [get, if_neg h, find]
      exact find_get_self k rest

/-- `get` touches no other callee. -/
theorem find_get_ne {k j : K} (hne : j ≠ k) : ∀ m : NodesMap K, (m.get k).find j = m.find j
  | nil => by simp [get, find, Ne.symm hne]
  | cons key stats callees rest => by
    by_cases h : key = k
    · simp [get, h]
    · simp only [get, if_neg h, find, find_get_ne hne rest]

/-- A write is seen where it is made, -/
theorem find_alter_self (f : CallGraphNode K → CallGraphNode K) (k : K) : ∀ m : NodesMap K,
    (m.alter f k).find k = (m.find k).map f
  | nil => rfl
  | cons key stats callees rest => by
    by_cases h : key = k
    · simp [alter, find, h]
    · simp only [alter, if_neg h, find, find_alter_self f k rest]

/-- and nowhere else. -/
theorem find_alter_ne (f : CallGraphNode K → CallGraphNode K) {k j : K} (hne : j ≠ k) :
    ∀ m : NodesMap K, (m.alter f k).find j = m.find j
  | nil => rfl
  | cons key stats callees rest => by
    by_cases h : key = k
    · subst h; simp [alter, find, Ne.symm hne]
    · simp only [alter, if_neg h, find, find_alter_ne f hne rest]

/-! ## The sum over the entries against the writes -/

/-- A new callee has taken no time. -/
theorem inclusiveSum_get (k : K) : ∀ m : NodesMap K, (m.get k).inclusiveSum = m.inclusiveSum
  | nil => by simp [get, inclusiveSum]
  | cons key stats callees rest => by
    by_cases h : key = k
    · simp [get, h]
    · simp only [get, if_neg h, inclusiveSum, inclusiveSum_get k rest]

/-- A write to a callee that is not there changes no sum. -/
theorem inclusiveSum_alter_of_none (f : CallGraphNode K → CallGraphNode K) (k : K) :
    ∀ m : NodesMap K, m.find k = none → (m.alter f k).inclusiveSum = m.inclusiveSum
  | nil, _ => rfl
  | cons key stats callees rest, hnone => by
    by_cases h : key = k
    · simp [find, h] at hnone
    · simp only [find, if_neg h] at hnone
      simp only [alter, if_neg h, inclusiveSum, inclusiveSum_alter_of_none f k rest hnone]

/-- A write changes the sum by what it changes of the one callee. -/
theorem inclusiveSum_alter_of_some (f : CallGraphNode K → CallGraphNode K) (k : K)
    (n : CallGraphNode K) : ∀ m : NodesMap K, m.find k = some n →
      (m.alter f k).inclusiveSum =
        m.inclusiveSum + ((f n).stats.inclusiveTime - n.stats.inclusiveTime)
  | nil, hsome => by simp [find] at hsome
  | cons key stats callees rest, hsome => by
    by_cases h : key = k
    · simp only [find, if_pos h, Option.some.injEq] at hsome
      subst hsome
      simp only [alter, if_pos h, inclusiveSum]
      omega
    · simp only [find, if_neg h] at hsome
      simp only [alter, if_neg h, inclusiveSum, inclusiveSum_alter_of_some f k n rest hsome]
      omega

/-! ## Distinct keys survive the writes -/

/-- A key is inserted only where it was not found. -/
theorem Distinct.get {m : NodesMap K} (hm : m.Distinct) (k : K) : (m.get k).Distinct := by
  induction m with
  | nil => exact ⟨rfl, trivial, trivial⟩
  | cons key stats callees rest _ ih =>
    by_cases h : key = k
    · simp only [NodesMap.get, if_pos h]; exact hm
    · simp only [NodesMap.get, if_neg h]
      exact ⟨by rw [find_get_ne h]; exact hm.1, hm.2.1, ih hm.2.2⟩

/-- A write leaves the keys as they are; below the callee it is up to `f`. -/
theorem Distinct.alter {m : NodesMap K} (hm : m.Distinct) (k : K)
    {f : CallGraphNode K → CallGraphNode K}
    (hf : ∀ n : CallGraphNode K, n.callees.Distinct → (f n).callees.Distinct) :
    (m.alter f k).Distinct := by
  induction m with
  | nil => exact trivial
  | cons key stats callees rest _ ih =>
    by_cases h : key = k
    · simp only [NodesMap.alter, if_pos h]
      exact ⟨hm.1, hf ⟨stats, callees⟩ hm.2.1, hm.2.2⟩
    · simp only [NodesMap.alter, if_neg h]
      exact ⟨by rw [find_alter_ne f h]; exact hm.1, hm.2.1, ih hm.2.2⟩

end NodesMap

namespace CallGraphNode

variable {K : Type} [DecidableEq K]

/-- Dereference a path: the node it points at, if it is there. -/
def nodeAt (n : CallGraphNode K) : List K → Option (CallGraphNode K)
  | [] => some n
  | k :: p => (n.callees.find k).bind fun c => c.nodeAt p

/-- Write through a path (nothing happens when the path points nowhere). -/
def modify (f : CallGraphNode K → CallGraphNode K) (n : CallGraphNode K) :
    List K → CallGraphNode K
  | [] => f n
  | k :: p => { n with callees := n.callees.alter (fun c => c.modify f p) k }

/-- Find or create the callee `k` of the node at `p`. -/
def touch (n : CallGraphNode K) (p : List K) (k : K) : CallGraphNode K :=
  n.modify (fun c => { c with callees := c.callees.get k }) p

/-- Account a finished call to the node at `p`. -/
def account (n : CallGraphNode K) (p : List K) (inclusive exclusive : Int) : CallGraphNode K :=
  n.modify (fun c => { c with stats := c.stats.addCall inclusive exclusive }) p

/-! ## What a write through a path does -/

/-- The empty path is the node itself, -/
@[simp] theorem nodeAt_nil (n : CallGraphNode K) : n.nodeAt [] = some n := rfl

/-- and a step of the path is a lookup. -/
theorem nodeAt_cons (n : CallGraphNode K) (k : K) (p : List K) :
    n.nodeAt (k :: p) = (n.callees.find k).bind fun c => c.nodeAt p := rfl

/-- Paths compose: by induction on the first. -/
theorem nodeAt_append (p q : List K) : ∀ n : CallGraphNode K,
    n.nodeAt (p ++ q) = (n.nodeAt p).bind fun c => c.nodeAt q := by
  induction p with
  | nil => intro n; rfl
  | cons k p ih =>
    intro n
    rw [List.cons_append, nodeAt_cons, nodeAt_cons]
    cases n.callees.find k with
    | none => rfl
    | some c => exact ih c

/-- At and below the path, the write is what `f` makes of the node. -/
theorem nodeAt_modify_append (f : CallGraphNode K → CallGraphNode K) (p q : List K) :
    ∀ n : CallGraphNode K,
      (n.modify f p).nodeAt (p ++ q) = (n.nodeAt p).bind fun c => (f c).nodeAt q := by
  induction p with
  | nil => intro n; rfl
  | cons k p ih =>
    intro n
    rw [List.cons_append, nodeAt_cons, nodeAt_cons, modify, NodesMap.find_alter_self]
    cases n.callees.find k with
    | none => rfl
    | some c => exact ih c

/-- Strictly above the path, the write is a write to one callee. -/
theorem nodeAt_modify_above (f : CallGraphNode K → CallGraphNode K) (q : List K) (k : K)
    (r : List K) : ∀ n : CallGraphNode K,
      (n.modify f (q ++ k :: r)).nodeAt q = (n.nodeAt q).map fun c =>
        { c with callees := c.callees.alter (fun d => d.modify f r) k } := by
  induction q with
  | nil => intro n; rfl
  | cons j q ih =>
    intro n
    rw [List.cons_append, nodeAt_cons, nodeAt_cons, modify, NodesMap.find_alter_self]
    cases n.callees.find j with
    | none => rfl
    | some c => exact ih c

/-- Everywhere else, the write is not seen. -/
theorem nodeAt_modify_apart (f : CallGraphNode K → CallGraphNode K) (p : List K) :
    ∀ (q : List K) (n : CallGraphNode K), ¬ p <+: q → ¬ q <+: p →
      (n.modify f p).nodeAt q = n.nodeAt q := by
  induction p with
  | nil => intro q n hpq _; exact absurd (List.nil_prefix) hpq
  | cons k p ih =>
    intro q n hpq hqp
    cases q with
    | nil => exact absurd (List.nil_prefix) hqp
    | cons j q =>
      by_cases hjk : j = k
      · subst hjk
        rw [nodeAt_cons, nodeAt_cons, modify, NodesMap.find_alter_self]
        have hpq' : ¬ p <+: q := fun h => hpq (List.cons_prefix_cons.mpr ⟨rfl, h⟩)
        have hqp' : ¬ q <+: p := fun h => hqp (List.cons_prefix_cons.mpr ⟨rfl, h⟩)
        cases n.callees.find j with
        | none => rfl
        | some c => exact ih q c hpq' hqp'
      · rw [nodeAt_cons, nodeAt_cons, modify, NodesMap.find_alter_ne _ hjk]

/-- How two paths can lie to each other: the second at or below the first, strictly above it, or
    apart. Every observation of a write is by these three cases. -/
theorem prefix_cases (p q : List K) :
    (∃ r, q = p ++ r) ∨ (∃ k r, p = q ++ k :: r) ∨ (¬ p <+: q ∧ ¬ q <+: p) := by
  by_cases hpq : p <+: q
  · obtain ⟨r, hr⟩ := hpq
    exact Or.inl ⟨r, hr.symm⟩
  · by_cases hqp : q <+: p
    · obtain ⟨r, hr⟩ := hqp
      cases r with
      | nil =>
        obtain rfl : q = p := by simpa using hr
        exact absurd List.prefix_rfl hpq
      | cons k r => exact Or.inr (Or.inl ⟨k, r, hr.symm⟩)
    · exact Or.inr (Or.inr ⟨hpq, hqp⟩)

/-! ## The observation every result is stated on -/

/-- The node at `p`, seen as its statistics and the sum of its direct callees' inclusive times. -/
def view (n : CallGraphNode K) (p : List K) : Option (FunctionStatistics × Int) :=
  (n.nodeAt p).map fun c => (c.stats, c.callees.inclusiveSum)

/-- The statistics of the node at `p`. -/
def statsAt (n : CallGraphNode K) (p : List K) : Option FunctionStatistics :=
  (n.nodeAt p).map CallGraphNode.stats

/-- The statistics are one half of the view. -/
theorem statsAt_eq_view (n : CallGraphNode K) (p : List K) :
    n.statsAt p = (n.view p).map Prod.fst := by
  rw [statsAt, view, Option.map_map]; rfl

/-- A write that leaves the node's own inclusive time alone is invisible in `view` above it. -/
theorem view_modify_above {f : CallGraphNode K → CallGraphNode K}
    (hf : ∀ c : CallGraphNode K, (f c).stats.inclusiveTime = c.stats.inclusiveTime)
    (n : CallGraphNode K) (q : List K) (k : K) (r : List K) :
    (n.modify f (q ++ k :: r)).view q = n.view q := by
  rw [view, view, nodeAt_modify_above, Option.map_map]
  congr 1
  funext c
  -- neither does the callee that the path goes through change its own inclusive time
  have hsame : ∀ d : CallGraphNode K,
      (d.modify f r).stats.inclusiveTime = d.stats.inclusiveTime := by
    intro d
    cases r with
    | nil => exact hf d
    | cons => rfl
  show (c.stats, (c.callees.alter (fun d => d.modify f r) k).inclusiveSum) = _
  cases hfind : c.callees.find k with
  -- the path leads nowhere
  | none => rw [NodesMap.inclusiveSum_alter_of_none _ _ _ hfind]
  | some d => rw [NodesMap.inclusiveSum_alter_of_some _ _ d _ hfind, hsame d]; simp

/-- **Creating a callee, observed**: only the callee's own path changes, from nowhere to empty
    statistics. -/
theorem view_touch (n : CallGraphNode K) (p : List K) (k : K) (hp : (n.nodeAt p).isSome)
    (q : List K) :
    (n.touch p k).view q = if q = p ++ [k] then some ((n.view q).getD ({}, 0)) else n.view q := by
  -- the path seen lies at or below the node, above it, or apart
  rcases prefix_cases p q with ⟨r, rfl⟩ | ⟨j, r, rfl⟩ | ⟨hpq, hqp⟩
  · obtain ⟨c, hc⟩ := Option.isSome_iff_exists.mp hp
    rw [view, view, touch, nodeAt_modify_append, nodeAt_append, hc]
    cases r with
    | nil => simp [NodesMap.inclusiveSum_get]
    | cons j r =>
      simp only [Option.bind_some, nodeAt_cons, List.append_cancel_left_eq]
      -- it goes through the callee in question, or through another
      by_cases hjk : j = k
      · subst hjk
        rw [NodesMap.find_get_self]
        cases r with
        -- it is the callee
        | nil =>
          simp only [Option.bind_some, nodeAt_nil, if_true]
          cases c.callees.find j <;> simp [CallGraphNode.empty, NodesMap.inclusiveSum]
        | cons i r =>
          simp only [Option.bind_some, List.cons.injEq, reduceCtorEq, and_false, if_false]
          cases c.callees.find j <;> simp [CallGraphNode.empty, nodeAt_cons, NodesMap.find]
      · rw [NodesMap.find_get_ne hjk]
        simp [hjk]
  · -- from above the new callee cannot be seen: it has taken no time
    have habove := view_modify_above (f := fun c => { c with callees := c.callees.get k })
      (fun _ => rfl) n q j r
    rw [touch, habove, if_neg]
    intro h
    have := congrArg List.length h
    simp only [List.length_append, List.length_cons] at this
    omega
  · rw [touch, view, view, nodeAt_modify_apart _ _ _ _ hpq hqp, if_neg]
    intro h
    exact hpq (h ▸ List.prefix_append p [k])

/-- **Accounting a call, observed at the node**: its statistics take the call in. -/
theorem view_account_self (n : CallGraphNode K) (p : List K) (i e : Int) :
    (n.account p i e).view p = (n.view p).map fun v => (v.1.addCall i e, v.2) := by
  have h := nodeAt_modify_append
    (fun c : CallGraphNode K => { c with stats := c.stats.addCall i e }) p [] n
  rw [List.append_nil] at h
  rw [view, account, h, view]
  cases n.nodeAt p <;> rfl

/-- **Accounting a call, observed at the parent**: the callees' sum grows by the inclusive time. -/
theorem view_account_parent (n : CallGraphNode K) (q : List K) (k : K) (i e : Int)
    (hp : (n.nodeAt (q ++ [k])).isSome) :
    (n.account (q ++ [k]) i e).view q = (n.view q).map fun v => (v.1, v.2 + i) := by
  rw [view, account, nodeAt_modify_above, view]
  rw [nodeAt_append] at hp
  cases hq : n.nodeAt q with
  | none => rfl
  | some c =>
    simp only [hq, Option.bind_some, nodeAt_cons] at hp
    cases hfind : c.callees.find k with
    | none => simp [hfind] at hp
    | some d =>
      simp only [Option.map_some]
      rw [NodesMap.inclusiveSum_alter_of_some _ _ d _ hfind]
      simp [modify, FunctionStatistics.addCall]

/-- **Accounting a call, observed elsewhere**: nothing. -/
theorem view_account_other (n : CallGraphNode K) (p q : List K) (i e : Int) (hne : q ≠ p)
    (hparent : ∀ k, p ≠ q ++ [k]) : (n.account p i e).view q = n.view q := by
  rcases prefix_cases p q with ⟨r, rfl⟩ | ⟨j, r, rfl⟩ | ⟨hpq, hqp⟩
  · -- below the node: its callees are as they were
    rw [view, view, account, nodeAt_modify_append, nodeAt_append]
    cases r with
    | nil => exact absurd (List.append_nil p) hne
    | cons j r => rfl
  · cases r with
    | nil => exact absurd rfl (hparent j)
    | cons i' r =>
      -- the write happens below the callee `j` of `q`, so `j`'s own statistics stay
      have happ := nodeAt_modify_above
        (fun c : CallGraphNode K => { c with stats := c.stats.addCall i e }) q j (i' :: r) n
      rw [view, account, happ, view, Option.map_map]
      congr 1
      funext c
      show (c.stats, NodesMap.inclusiveSum (c.callees.alter _ j)) = _
      cases hfind : c.callees.find j with
      | none => rw [NodesMap.inclusiveSum_alter_of_none _ _ _ hfind]
      | some d => rw [NodesMap.inclusiveSum_alter_of_some _ _ d _ hfind]; simp [modify]
  · rw [view, view, account, nodeAt_modify_apart _ _ _ _ hpq hqp]

/-! ## The statistics alone -/

/-- Of the statistics `touch` changes the callee's only: from none to empty ones. -/
theorem statsAt_touch (n : CallGraphNode K) (p : List K) (k : K) (hp : (n.nodeAt p).isSome)
    (q : List K) :
    (n.touch p k).statsAt q =
      if q = p ++ [k] then some ((n.statsAt q).getD {}) else n.statsAt q := by
  rw [statsAt_eq_view, view_touch n p k hp, statsAt_eq_view]
  split
  · cases n.view q <;> rfl
  · rfl

/-- Of the statistics `account` changes the node's only: for them the parent is like any other node.
    -/
theorem statsAt_account (n : CallGraphNode K) (p : List K) (i e : Int) (q : List K) :
    (n.account p i e).statsAt q =
      if q = p then (n.statsAt q).map (·.addCall i e) else n.statsAt q := by
  -- the node itself, or one below, above or apart
  by_cases hqp : q = p
  · subst hqp
    rw [if_pos rfl, statsAt_eq_view, view_account_self, statsAt_eq_view]
    cases n.view q <;> rfl
  · rw [if_neg hqp]
    rcases prefix_cases p q with ⟨r, rfl⟩ | ⟨j, r, rfl⟩ | ⟨hpq, hqp'⟩
    · rw [statsAt, statsAt, account, nodeAt_modify_append, nodeAt_append]
      cases r with
      | nil => exact absurd (List.append_nil p) hqp
      | cons => rfl
    · rw [statsAt, statsAt, account, nodeAt_modify_above, Option.map_map]
      rfl
    · rw [statsAt, statsAt, account, nodeAt_modify_apart _ _ _ _ hpq hqp']

/-- Below the root, the statistics are those of the map. -/
theorem statsAt_congr {n n' : CallGraphNode K} (h : n.callees = n'.callees) {p : List K}
    (hp : p ≠ []) : n.statsAt p = n'.statsAt p := by
  cases p with
  | nil => exact absurd rfl hp
  | cons k p => rw [statsAt, statsAt, nodeAt_cons, nodeAt_cons, h]

/-- Whether a node is there can be asked of its statistics. -/
theorem isSome_nodeAt (n : CallGraphNode K) (p : List K) :
    (n.nodeAt p).isSome = (n.statsAt p).isSome := by
  rw [statsAt, Option.isSome_map]

/-! ## Distinct keys survive the two writes -/

/-- Distinctness lies in the callees only, so it is enough that `f` keeps it at the end of the path.
    -/
theorem modify_distinct {f : CallGraphNode K → CallGraphNode K}
    (hf : ∀ c : CallGraphNode K, c.callees.Distinct → (f c).callees.Distinct) (p : List K) :
    ∀ n : CallGraphNode K, n.callees.Distinct → (n.modify f p).callees.Distinct := by
  induction p with
  | nil => intro n hn; exact hf n hn
  | cons k p ih => intro n hn; exact hn.alter k ih

/-- The first of the two writes, -/
theorem touch_distinct {n : CallGraphNode K} (hn : n.callees.Distinct) (p : List K) (k : K) :
    (n.touch p k).callees.Distinct :=
  modify_distinct (fun _ hc => hc.get k) p n hn

/-- and the second. -/
theorem account_distinct {n : CallGraphNode K} (hn : n.callees.Distinct) (p : List K)
    (i e : Int) : (n.account p i e).callees.Distinct :=
  modify_distinct (f := fun c => { c with stats := c.stats.addCall i e }) (fun _ hc => hc) p n hn

/-- **Summing the per-node law over the tree**: where every node's inclusive time is its exclusive
    time plus its direct callees' inclusive times, the exclusive times of the whole tree add up to
    the inclusive times of the roots. -/
theorem exclusiveTotal_eq_inclusiveSum : ∀ (m : NodesMap K), m.Distinct →
    (∀ p n, p ≠ [] → (CallGraphNode.mk {} m).nodeAt p = some n →
      n.stats.inclusiveTime = n.stats.exclusiveTime + n.callees.inclusiveSum) →
    m.exclusiveTotal = m.inclusiveSum
  | .nil, _, _ => rfl
  | .cons key stats callees rest, hd, hlaw => by
    -- the law of the node itself, and the sums below and beside it
    have hnode := hlaw [key] ⟨stats, callees⟩ (by simp) (by simp [nodeAt_cons, NodesMap.find])
    have hcallees := exclusiveTotal_eq_inclusiveSum callees hd.2.1 (by
      intro p n _ hn
      refine hlaw (key :: p) n (by simp) ?_
      rw [nodeAt_cons, NodesMap.find, if_pos rfl, Option.bind_some]
      cases p with
      | nil => contradiction
      | cons j p => exact hn)
    have hrest := exclusiveTotal_eq_inclusiveSum rest hd.2.2 (by
      intro p n hp hn
      cases p with
      | nil => exact absurd rfl hp
      | cons j p =>
        -- a later entry is reachable because its key is none of the earlier ones'
        refine hlaw (j :: p) n (by simp) ?_
        have hne : ¬ key = j := by
          rintro rfl
          rw [nodeAt_cons, hd.1] at hn
          cases hn
        rw [nodeAt_cons, NodesMap.find, if_neg hne]
        exact hn)
    simp only [NodesMap.exclusiveTotal, NodesMap.inclusiveSum, hcallees, hrest]
    simp only at hnode
    omega

end CallGraphNode

/-- The statistics a map holds for an address path; the empty path is no node. -/
def NodesMap.statsAt {K : Type} [DecidableEq K] (m : NodesMap K) (p : List K) :
    Option FunctionStatistics :=
  if p = [] then none else (CallGraphNode.mk {} m).statsAt p

/-! ## The nodes of a map, one by one -/

namespace NodesMap

variable {K : Type}

/-- The nodes in the order they are visited: a node, those below it, those after it. -/
def entries (base : List K) : NodesMap K → List (List K × FunctionStatistics)
  | nil => []
  | cons key stats callees rest =>
      (base ++ [key], stats) :: callees.entries (base ++ [key]) ++ rest.entries base

variable [DecidableEq K]

/-- A path into a map starts with the key of the first entry or goes on to the rest. -/
theorem statsAt_cons (key : K) (stats : FunctionStatistics) (callees rest : NodesMap K) (k : K)
    (q : List K) :
    (cons key stats callees rest).statsAt (k :: q) =
      if key = k then (if q = [] then some stats else callees.statsAt q)
      else rest.statsAt (k :: q) := by
  simp only [statsAt, reduceCtorEq, if_false, CallGraphNode.statsAt, CallGraphNode.nodeAt_cons, find]
  by_cases hk : key = k
  · simp only [hk, if_true, Option.bind_some]
    cases q with
    | nil => simp
    | cons j q => rfl
  · simp only [hk, if_false]

/-- An entry under no key of the map is not there. -/
theorem statsAt_of_find {m : NodesMap K} {k : K} (h : m.find k = none) (q : List K) :
    m.statsAt (k :: q) = none := by
  simp only [statsAt, reduceCtorEq, if_false, CallGraphNode.statsAt, CallGraphNode.nodeAt_cons, h,
    Option.bind_none, Option.map_none]

/-- **The entries are the nodes of the map.** -/
theorem mem_entries {m : NodesMap K} (h : m.Distinct) : ∀ {base p : List K}
    {v : FunctionStatistics}, (p, v) ∈ m.entries base ↔ ∃ q, p = base ++ q ∧ m.statsAt q = some v := by
  induction m with
  | nil =>
    intro base p v
    refine ⟨nofun, ?_⟩
    -- back: the first key of the path tells which
    rintro ⟨q, rfl, hq⟩
    cases q with
    | nil => cases hq
    | cons k q => cases hq
  | cons key stats callees rest ihc ihr =>
    obtain ⟨hnone, hcallees, hrest⟩ := h
    intro base p v
    -- the node itself, one below it, or one of the rest
    rw [entries, List.cons_append, List.mem_cons, List.mem_append, ihc hcallees, ihr hrest]
    constructor
    · rintro (heq | ⟨q, rfl, hq⟩ | ⟨q, rfl, hq⟩)
      · obtain ⟨rfl, rfl⟩ := Prod.mk.inj heq
        exact ⟨[key], rfl, by rw [statsAt_cons, if_pos rfl, if_pos rfl]⟩
      · -- a path below is not the empty one
        have hne : q ≠ [] := by rintro rfl; cases hq
        exact ⟨key :: q, List.append_assoc _ _ _, by rw [statsAt_cons, if_pos rfl, if_neg hne, hq]⟩
      · refine ⟨q, rfl, ?_⟩
        cases q with
        | nil => cases hq
        | cons k q =>
          have hne : key ≠ k := by
            rintro rfl
            rw [statsAt_of_find hnone] at hq
            cases hq
          rw [statsAt_cons, if_neg hne, hq]
    · rintro ⟨q, rfl, hq⟩
      cases q with
      | nil => cases hq
      | cons k q =>
        rw [statsAt_cons] at hq
        split at hq
        · next hk =>
          subst hk
          split at hq
          · next hnil =>
            subst hnil
            exact Or.inl (by rw [Option.some.inj hq])
          · exact Or.inr (Or.inl ⟨q, List.append_cons base key q, hq⟩)
        · exact Or.inr (Or.inr ⟨k :: q, rfl, hq⟩)

/-- **No node is visited twice.** -/
theorem nodup_entries {m : NodesMap K} (h : m.Distinct) : ∀ base : List K,
    ((m.entries base).map Prod.fst).Nodup := by
  induction m with
  | nil => exact fun _ => List.nodup_nil
  | cons key stats callees rest ihc ihr =>
    obtain ⟨hnone, hcallees, hrest⟩ := h
    intro base
    -- below the node, paths go on after its own; beside it, they start with another key
    have hbelow : ∀ p ∈ (callees.entries (base ++ [key])).map Prod.fst,
        ∃ j q, p = base ++ key :: j :: q := by
      intro p hp
      obtain ⟨⟨_, v⟩, hmem, rfl⟩ := List.mem_map.mp hp
      obtain ⟨q, rfl, hq⟩ := (mem_entries hcallees).mp hmem
      cases q with
      | nil => cases hq
      | cons j q => exact ⟨j, q, List.append_assoc _ _ _⟩
    have hbeside : ∀ p ∈ (rest.entries base).map Prod.fst, ∀ q, p ≠ base ++ key :: q := by
      intro p hp q heq
      obtain ⟨⟨_, v⟩, hmem, rfl⟩ := List.mem_map.mp hp
      obtain ⟨q', heq', hq'⟩ := (mem_entries hrest).mp hmem
      obtain rfl : q' = key :: q := List.append_cancel_left (heq'.symm.trans heq)
      rw [statsAt_of_find hnone] at hq'
      cases hq'
    rw [entries, List.cons_append, List.map_cons, List.map_append, List.nodup_cons,
      List.nodup_append]
    -- the node is none of those below and none beside; below and beside exclude each other
    refine ⟨?_, ihc hcallees _, ihr hrest _, ?_⟩
    · intro hmem
      rcases List.mem_append.mp hmem with hp | hp
      · obtain ⟨j, q, heq⟩ := hbelow _ hp
        have := congrArg List.length heq
        simp only [List.length_append, List.length_cons, List.length_nil] at this
        omega
      · exact hbeside _ hp [] rfl
    · intro p hp p' hp' heq
      obtain ⟨j, q, rfl⟩ := hbelow p hp
      exact hbeside p' hp' _ heq.symm

end NodesMap

end MicroProfiler
