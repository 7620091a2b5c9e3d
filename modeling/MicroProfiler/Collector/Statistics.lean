/-
  What the shadow stack's statistics map holds, whatever the trace and however it was cut.

  `ShadowStack.update_refines` reduced `update` to `applyRecord`, a function of the call tree.
  Here that function is read back as an account (`Common.Account`) of the trace's finished calls:

  * `Accounted o f t n a` — the map under `n` reads as the account `a`, and `a` together with the
    SETTLED account `f` (what was taken out of the map by earlier clears) holds exactly the
    finished calls of the tree `t`, on exactly its paths.  One record preserves it
    (`Accounted.record`), pointing the stack at the map preserves it (`Accounted.reset`), so a
    whole `update` does (`Accounted.update`);
  * with nothing settled this is the correctness of the shadow stack: `updates_compute_callTree`;
  * `Conserved` — the per-node law "inclusive = exclusive + callees' inclusive", with the slack
    that an open call still owes.  It is preserved record by record for the same reason the two
    accumulators of `stack_record` may be added up in different units.
-/
import MicroProfiler.Common.Account
import MicroProfiler.Collector.ShadowStack
import Mathlib.Tactic.Linarith

namespace MicroProfiler

variable {K : Type} [DecidableEq K]

/-- A finished call as it is booked: its path and its two times. -/
def CompletedCall.booking (o : Overhead) (c : CompletedCall K) : List K × Int × Int :=
  (c.path, c.inclusive o, c.exclusive o)

namespace ShadowStack

open CallTree

/-- The map under `n` reads as `a`; `f` and `a` together book the finished calls of `t`. -/
structure Accounted (o : Overhead) (f : Account (List K)) (t : CallTree K) (n : CallGraphNode K)
    (a : Account (List K)) : Prop where
  /-- the map's nodes, except the root that `update` makes for it -/
  reads : ∀ p, p ≠ [] → n.statsAt p = a.stats p
  /-- calls are on touched paths only -/
  closed : a.Closed
  /-- each finished call once, in order -/
  calls : t.completed.map (·.booking o) = f.calls ++ a.calls
  /-- the tree's paths -/
  touched : ∀ p, p ∈ t.callPaths ↔ p ∈ f.touched ∨ p ∈ a.touched
  /-- no address twice among the callees of a node -/
  distinct : n.callees.Distinct

/-- A touched path, or the root, is a node: a pointer there may be followed. -/
theorem Accounted.isSome_nodeAt {o : Overhead} {f : Account (List K)} {t : CallTree K}
    {n : CallGraphNode K} {a : Account (List K)} (h : Accounted o f t n a) {p : List K}
    (hp : p = [] ∨ p ∈ a.touched) : (n.nodeAt p).isSome := by
  rcases hp with rfl | hp
  · rfl
  · have hne : p ≠ [] := ne_nil_of_mem_callPaths ((h.touched p).mpr (Or.inr hp))
    rw [CallGraphNode.isSome_nodeAt, h.reads p hne, Account.stats_isSome_iff]
    exact hp

/-- Creating a node for a path the tree knows. -/
theorem Accounted.touch {o : Overhead} {f : Account (List K)} {t t' : CallTree K}
    {n : CallGraphNode K} {a : Account (List K)} (h : Accounted o f t n a) {p : List K} {k : K}
    (hp : p = [] ∨ p ∈ a.touched) (hcompleted : t'.completed = t.completed)
    (hpaths : ∀ q, q ∈ t'.callPaths ↔ q = p ++ [k] ∨ q ∈ t.callPaths) :
    Accounted o f t' (n.touch p k) ⟨(p ++ [k]) :: a.touched, a.calls⟩ where
  reads := by
    intro q hq
    rw [CallGraphNode.statsAt_touch n p k (h.isSome_nodeAt hp), Account.stats_touch h.closed,
      h.reads q hq]
  closed := fun c hc => List.mem_cons_of_mem _ (h.closed c hc)
  calls := by rw [hcompleted]; exact h.calls
  touched := by
    intro q
    rw [hpaths, h.touched, List.mem_cons]
    tauto
  distinct := CallGraphNode.touch_distinct h.distinct p k

/-- **One record**: the account takes in what the record says. -/
theorem Accounted.record {o : Overhead} {f : Account (List K)} {t t' : CallTree K}
    {n : CallGraphNode K} {a : Account (List K)} {r : CallRecord K} (h : Accounted o f t n a)
    (hopen : ∀ p ∈ t.openPaths, p ∈ a.touched) (ht : t.step r = some t') :
    ∃ a', Accounted o f t' (applyRecord o t n r) a' ∧ ∀ p ∈ t'.openPaths, p ∈ a'.touched := by
  have hpaths := mem_callPaths_step ht
  rcases step_cases ht with ⟨k, hk, rfl⟩ | ⟨c, outer, hk, ho, rfl⟩
  · -- enter: the callee's node is created under the innermost open call's
    have hroot : pathOf t.opened = [] ∨ pathOf t.opened ∈ a.touched := by
      by_cases hnil : pathOf t.opened = []
      · exact Or.inl hnil
      · exact Or.inr (hopen _ ((mem_openPathsOf_iff _ t.opened).mpr ⟨hnil, List.prefix_rfl⟩))
    refine ⟨⟨(pathOf t.opened ++ [k]) :: a.touched, a.calls⟩, ?_, ?_⟩
    · simp only [applyRecord, hk]
      refine h.touch hroot (completed_enter t k r.timestamp) ?_
      intro q
      rw [hpaths, openPaths, openPathsOf, List.mem_cons]
      have hsub : q ∈ openPathsOf t.opened → q ∈ t.callPaths := List.mem_append_right _
      simp only [pathOf]
      tauto
    · intro p hp
      rcases List.mem_cons.mp hp with rfl | hp
      · exact List.mem_cons_self
      · exact List.mem_cons_of_mem _ (hopen p hp)
  · -- exit: the finished call is booked on its own path, which is open and therefore there
    have hown : pathOf (c :: outer) ∈ t.openPaths := by
      rw [openPaths, ho]; exact List.mem_cons_self
    have hcompleted : t.completed = (CallTree.mk t.roots (c :: outer)).completed := by
      rw [completed, ho]; rfl
    have hsub : ∀ p ∈ openPathsOf outer, p ∈ t.openPaths := by
      intro p hp
      rw [openPaths, ho]
      exact List.mem_cons_of_mem _ hp
    refine ⟨⟨a.touched, a.calls ++
      [CompletedCall.booking o ⟨pathOf (c :: outer), c.enter, r.timestamp, c.children⟩]⟩, ?_, ?_⟩
    · simp only [applyRecord, hk, ho]
      constructor
      · intro q hq
        rw [CallGraphNode.statsAt_account, CompletedCall.booking, Account.stats_book, h.reads q hq]
      · intro d hd
        rcases List.mem_append.mp hd with hd | hd
        · exact h.closed d hd
        · rw [List.mem_singleton.mp hd]
          exact hopen _ hown
      · rw [completed_exit, List.map_append, ← hcompleted, h.calls, List.append_assoc]
        rfl
      · intro q
        rw [hpaths, h.touched, openPaths_hang]
        have hq : q ∈ openPathsOf outer → q ∈ a.touched := fun hq => hopen q (hsub q hq)
        tauto
      · exact CallGraphNode.account_distinct h.distinct _ _ _
    · intro p hp
      rw [openPaths_hang] at hp
      exact hopen p (hsub p hp)

/-- **Pointing the stack at the map**: every open call's node is there afterwards. -/
theorem Accounted.reset {o : Overhead} {f : Account (List K)} {t : CallTree K}
    {n : CallGraphNode K} {a : Account (List K)} (h : Accounted o f t n a) :
    ∀ opened : List (OpenCall K), (∀ p ∈ openPathsOf opened, p ∈ t.callPaths) →
      ∃ a', Accounted o f t (touchOpened n opened) a' ∧ ∀ p ∈ openPathsOf opened, p ∈ a'.touched
  | [], _ => ⟨a, h, fun _ hp => absurd hp List.not_mem_nil⟩
  | c :: outer, hknown => by
    obtain ⟨a', h', hopen⟩ := h.reset outer (fun p hp => hknown p (List.mem_cons_of_mem _ hp))
    -- the node of the enclosing call was made before: the stack is walked from its root up
    have hroot : pathOf outer = [] ∨ pathOf outer ∈ a'.touched := by
      by_cases hnil : pathOf outer = []
      · exact Or.inl hnil
      · exact Or.inr (hopen _ ((mem_openPathsOf_iff _ outer).mpr ⟨hnil, List.prefix_rfl⟩))
    refine ⟨⟨(pathOf outer ++ [c.callee]) :: a'.touched, a'.calls⟩, ?_, ?_⟩
    · refine h'.touch hroot rfl ?_
      intro q
      constructor
      · exact Or.inr
      · rintro (rfl | hq)
        · exact hknown _ List.mem_cons_self
        · exact hq
    · intro p hp
      rcases List.mem_cons.mp hp with rfl | hp
      · exact List.mem_cons_self
      · exact List.mem_cons_of_mem _ (hopen p hp)

/-- What holds inside an `update` call: the open calls' nodes are there. -/
def InBatch (o : Overhead) (f : Account (List K)) (s : CallTree K × CallGraphNode K) : Prop :=
  ∃ a, Accounted o f s.1 s.2 a ∧ ∀ p ∈ s.1.openPaths, p ∈ a.touched

/-- What holds between `update` calls. -/
def Between (o : Overhead) (f : Account (List K)) (s : CallTree K × NodesMap K) : Prop :=
  ∃ a, Accounted o f s.1 ⟨{}, s.2⟩ a

/-- **The beginning of `update`** makes the nodes of the open calls. -/
theorem Between.inBatch {o : Overhead} {f : Account (List K)} {t : CallTree K} {m : NodesMap K}
    (h : Between o f (t, m)) : InBatch o f (t, touchOpened ⟨{}, m⟩ t.opened) := by
  obtain ⟨a, ha⟩ := h
  exact ha.reset t.opened (fun p hp => List.mem_append_right _ hp)

/-- **A record** keeps the account: the step lemma of `update`. -/
theorem InBatch.replay {o : Overhead} {f : Account (List K)} (s : CallTree K × CallGraphNode K)
    (r : CallRecord K) (s' : CallTree K × CallGraphNode K) (h : InBatch o f s)
    (hs : replay o s r = some s') : InBatch o f s' := by
  obtain ⟨a, ha, hopen⟩ := h
  obtain ⟨t', ht, rfl⟩ := Option.map_eq_some_iff.mp hs
  exact ha.record hopen ht

/-- The root's own statistics are never looked at, so the map may change hands. -/
theorem InBatch.between {o : Overhead} {f : Account (List K)} {t : CallTree K}
    {n : CallGraphNode K} (h : InBatch o f (t, n)) : Between o f (t, n.callees) := by
  obtain ⟨a, ha, -⟩ := h
  refine ⟨a, ⟨fun p hp => ?_, ha.closed, ha.calls, ha.touched, ha.distinct⟩⟩
  rw [← ha.reads p hp]
  have hsame : (CallGraphNode.mk {} n.callees).callees = n.callees := rfl
  exact CallGraphNode.statsAt_congr hsame hp

/-- **One `update` call** keeps the account. -/
theorem Between.update {o : Overhead} {f : Account (List K)} (s : CallTree K × NodesMap K)
    (trace : List (CallRecord K)) (s' : CallTree K × NodesMap K) (h : Between o f s)
    (hs : replayBatch o s trace = some s') : Between o f s' := by
  obtain ⟨⟨t', n'⟩, hrun, rfl⟩ := Option.map_eq_some_iff.mp hs
  exact (Lib.run_invariant InBatch.replay trace _ _ h.inBatch hrun).between

/-- The empty map, before anything was read. -/
theorem accounted_empty (o : Overhead) :
    Accounted o Account.empty (CallTree.empty : CallTree K) ⟨{}, .nil⟩ Account.empty where
  reads := by
    intro p hp
    cases p with
    | nil => exact absurd rfl hp
    | cons k p => rfl
  closed := Account.empty_closed
  calls := rfl
  touched := by intro p; simp [CallTree.empty, callPaths, completed, completedUnder,
    Calls.completed, openPaths, openPathsOf, Account.empty]
  distinct := trivial

/-! ## The shadow stack computes the call-tree reference -/

end ShadowStack

/-- The finished calls made on path `p`. -/
def CallTree.callsOn (t : CallTree K) (p : List K) : List (CompletedCall K) :=
  t.completed.filter fun c => c.path = p

namespace ShadowStack

/-- The account's calls on a path are the tree's. -/
theorem callsAt_completed (o : Overhead) (t : CallTree K) (p : List K) (touched : List (List K)) :
    Account.callsAt ⟨touched, t.completed.map (·.booking o)⟩ p =
      (t.callsOn p).map fun c => (c.inclusive o, c.exclusive o) := by
  rw [Account.callsAt, CallTree.callsOn, List.filter_map, List.map_map]
  rfl

/-- **The shadow stack computes the call-tree reference.**  A well-nested trace, cut into batches
    in any way and replayed into one map, leaves a node for exactly the paths that were called,
    and at each of them: the number of completed calls on that path, the sums of their reference
    inclusive and exclusive times, and the largest inclusive time, clipped at `0`. -/
theorem updates_compute_callTree (o : Overhead) (bottom : StackRecord K)
    (batches : List (List (CallRecord K))) (hw : WellNested batches.flatten) :
    ∃ t s m, CallTree.read batches.flatten = some t ∧ t.records = batches.flatten ∧
      updates (new o bottom, .nil) batches = some (s, m) ∧
      ∀ p, m.statsAt p =
        if p ∈ t.callPaths then
          some { timesCalled := (t.callsOn p).length
                 inclusiveTime := ((t.callsOn p).map (·.inclusive o)).sum
                 exclusiveTime := ((t.callsOn p).map (·.exclusive o)).sum
                 maxCallTime := ((t.callsOn p).map (·.inclusive o)).foldl max 0 }
        else none := by
  obtain ⟨t, ht⟩ := (CallTree.wellNested_iff _).mp hw
  obtain ⟨s, m, hcode, hreplay⟩ := updates_refine o bottom batches ht
  have hbetween : Between o Account.empty (t, m) :=
    Lib.run_invariant Between.update batches _ _ ⟨_, accounted_empty o⟩ hreplay
  obtain ⟨a, ha⟩ := hbetween
  refine ⟨t, s, m, ht, CallTree.records_run _ _ _ ht, hcode, fun p => ?_⟩
  -- nothing was settled before the first batch: the account holds the whole tree
  have hcalls : a.calls = t.completed.map (·.booking o) := ha.calls.symm
  have hmem : p ∈ t.callPaths ↔ p ∈ a.touched := by simpa [Account.empty] using ha.touched p
  by_cases hp : p ∈ t.callPaths
  · have hne : p ≠ [] := CallTree.ne_nil_of_mem_callPaths hp
    have htimes := callsAt_completed o t p a.touched
    rw [← hcalls] at htimes
    rw [NodesMap.statsAt, if_neg hne, ha.reads p hne, Account.stats, if_pos (hmem.mp hp),
      if_pos hp, htimes, FunctionStatistics.ofCalls_eq]
    simp [List.map_map, Function.comp_def]
  · rw [if_neg hp, NodesMap.statsAt]
    split
    · rfl
    · next hne => rw [ha.reads p hne, Account.stats, if_neg (fun h => hp (hmem.mpr h))]

/-- The reference at work: a recursive call, a call still open at each cut, overheads `2` and
    `3`. -/
theorem updates_compute_callTree_recursive :
    let batches : List (List (CallRecord Nat)) :=
      [[⟨0, some 1⟩, ⟨10, some 1⟩], [⟨30, none⟩, ⟨40, some 2⟩], [⟨50, none⟩, ⟨100, none⟩]]
    ∃ t s m, CallTree.read batches.flatten = some t ∧ t.records = batches.flatten ∧
      updates (new ⟨2, 3⟩ ⟨9, 9, 9, 9, [], []⟩, .nil) batches = some (s, m) ∧
      ∀ p, m.statsAt p =
        if p ∈ t.callPaths then
          some { timesCalled := (t.callsOn p).length
                 inclusiveTime := ((t.callsOn p).map (·.inclusive ⟨2, 3⟩)).sum
                 exclusiveTime := ((t.callsOn p).map (·.exclusive ⟨2, 3⟩)).sum
                 maxCallTime := ((t.callsOn p).map (·.inclusive ⟨2, 3⟩)).foldl max 0 }
        else none :=
  updates_compute_callTree ⟨2, 3⟩ ⟨9, 9, 9, 9, [], []⟩ _ (by decide)

/-! ## Time conservation -/

/-- What an open call has already charged its node's callees with and not yet booked on the node:
    the gap between the two accumulators of its stack record. -/
def openSlack (o : Overhead) : List (OpenCall K) → List K → Int
  | [], _ => 0
  | c :: outer, p =>
      if p = CallTree.pathOf (c :: outer) then
        c.children.directTime o.outer - (o.inner + o.outer) * c.children.count
      else openSlack o outer p

/-- The per-node law, with what the open calls still owe. -/
def Conserved (o : Overhead) (t : CallTree K) (n : CallGraphNode K) : Prop :=
  ∀ p v, p ≠ [] → n.view p = some v →
    v.1.inclusiveTime + openSlack o t.opened p = v.1.exclusiveTime + v.2

/-- Where no call is open nothing is owed. -/
theorem openSlack_of_not_mem (o : Overhead) (p : List K) : ∀ opened : List (OpenCall K),
    p ∉ CallTree.openPathsOf opened → openSlack o opened p = 0
  | [], _ => rfl
  | c :: outer, hp => by
    rw [CallTree.openPathsOf, List.mem_cons, not_or] at hp
    rw [openSlack, if_neg hp.1]
    exact openSlack_of_not_mem o p outer hp.2

omit [DecidableEq K] in
/-- A path one deeper than the open calls is not open. -/
theorem pathOf_cons_not_mem (c : OpenCall K) (outer : List (OpenCall K)) :
    CallTree.pathOf (c :: outer) ∉ CallTree.openPathsOf outer := by
  intro h
  have hle := ((CallTree.mem_openPathsOf_iff _ outer).mp h).2.length_le
  rw [CallTree.length_pathOf, CallTree.length_pathOf, List.length_cons] at hle
  omega

/-- A freshly entered call owes nothing. -/
theorem openSlack_enter (o : Overhead) (k : K) (ts : Int) (opened : List (OpenCall K))
    (p : List K) : openSlack o (⟨k, ts, .nil⟩ :: opened) p = openSlack o opened p := by
  by_cases hp : p = CallTree.pathOf (⟨k, ts, .nil⟩ :: opened)
  · rw [openSlack, if_pos hp, hp, openSlack_of_not_mem o _ opened (pathOf_cons_not_mem _ _)]
    simp [Calls.directTime, Calls.count]
  · rw [openSlack, if_neg hp]

/-- A finished call's inclusive time is what its parent comes to owe... -/
theorem openSlack_hang_parent (o : Overhead) (roots : Calls K) (d : OpenCall K)
    (outer : List (OpenCall K)) (c : CompletedCall K) (k : K) :
    openSlack o (CallTree.hang ⟨roots, d :: outer⟩ k c.enter c.exit c.children).opened
        (CallTree.pathOf (d :: outer)) =
      openSlack o (d :: outer) (CallTree.pathOf (d :: outer)) + c.inclusive o := by
  simp only [CallTree.hang, openSlack, CallTree.pathOf, if_true, Calls.directTime, Calls.count,
    CompletedCall.inclusive]
  push_cast
  ring

/-- ... and nobody else's debt changes. -/
theorem openSlack_hang_other (o : Overhead) (roots : Calls K) (outer : List (OpenCall K)) (k : K)
    (enter exit : Int) (children : Calls K) {q : List K} (hq : q ≠ CallTree.pathOf outer) :
    openSlack o (CallTree.hang ⟨roots, outer⟩ k enter exit children).opened q =
      openSlack o outer q := by
  cases outer with
  -- a call of the root level: nobody owes
  | nil => rfl
  | cons d outer =>
    show (if q = CallTree.pathOf (d :: outer) then _ else _) = ite (q = CallTree.pathOf (d :: outer)) _ _
    rw [if_neg hq, if_neg hq]

/-- Creating a node disturbs no law: a new node is all zeroes. -/
theorem Conserved.touch {o : Overhead} {t t' : CallTree K} {n : CallGraphNode K}
    (h : Conserved o t n) {p : List K} {k : K} (hp : (n.nodeAt p).isSome)
    (hslack : ∀ q, openSlack o t'.opened q = openSlack o t.opened q)
    (hnew : n.view (p ++ [k]) = none → openSlack o t.opened (p ++ [k]) = 0) :
    Conserved o t' (n.touch p k) := by
  intro q v hq hv
  rw [CallGraphNode.view_touch n p k hp] at hv
  rw [hslack]
  split at hv
  · next heq =>
    subst heq
    cases hold : n.view (p ++ [k]) with
    | none =>
      obtain rfl : ({}, 0) = v := by simpa [hold] using hv
      simpa using hnew hold
    | some w =>
      obtain rfl : w = v := by simpa [hold] using hv
      exact h _ w hq hold
  · exact h q v hq hv

/-- **One record keeps the law.**  On an exit the node's own slack is settled by the booked call
    and the parent's grows by exactly the inclusive time its callees' sum grows by. -/
theorem Conserved.record {o : Overhead} {t t' : CallTree K} {n : CallGraphNode K}
    {r : CallRecord K} (h : Conserved o t n) (hnode : ∀ p ∈ t.openPaths, (n.nodeAt p).isSome)
    (ht : t.step r = some t') : Conserved o t' (applyRecord o t n r) := by
  rcases CallTree.step_cases ht with ⟨k, hk, rfl⟩ | ⟨c, outer, hk, ho, rfl⟩
  · -- enter: a node at most is made, and the new call owes nothing
    have hroot : (n.nodeAt (CallTree.pathOf t.opened)).isSome := by
      by_cases hnil : CallTree.pathOf t.opened = []
      · rw [hnil]; rfl
      · exact hnode _ ((CallTree.mem_openPathsOf_iff _ _).mpr ⟨hnil, List.prefix_rfl⟩)
    simp only [applyRecord, hk]
    refine h.touch hroot (openSlack_enter o k r.timestamp t.opened) (fun _ => ?_)
    exact openSlack_of_not_mem o _ _ (pathOf_cons_not_mem ⟨k, r.timestamp, .nil⟩ t.opened)
  · -- exit: the call's own node, its parent's and all others
    have hown : (n.nodeAt (CallTree.pathOf (c :: outer))).isSome :=
      hnode _ (by rw [CallTree.openPaths, ho]; exact List.mem_cons_self)
    simp only [applyRecord, hk, ho]
    intro q v hq hv
    by_cases hself : q = CallTree.pathOf (c :: outer)
    · -- the node itself
      subst hself
      rw [CallGraphNode.view_account_self, Option.map_eq_some_iff] at hv
      obtain ⟨w, hw, rfl⟩ := hv
      have hold := h _ w hq hw
      rw [ho, openSlack, if_pos rfl] at hold
      have hnone : openSlack o (CallTree.hang ⟨t.roots, outer⟩ c.callee c.enter r.timestamp
          c.children).opened (CallTree.pathOf (c :: outer)) = 0 := by
        apply openSlack_of_not_mem
        rw [← CallTree.openPaths, CallTree.openPaths_hang]
        exact pathOf_cons_not_mem c outer
      rw [hnone]
      simp only [FunctionStatistics.addCall, CompletedCall.inclusive, CompletedCall.exclusive]
      omega
    · have hslack : openSlack o t.opened q = openSlack o outer q := by
        rw [ho, openSlack, if_neg hself]
      by_cases hparent : q = CallTree.pathOf outer
      · -- its parent
        subst hparent
        have happ := CallGraphNode.view_account_parent n (CallTree.pathOf outer) c.callee
          (CompletedCall.inclusive o ⟨CallTree.pathOf (c :: outer), c.enter, r.timestamp, c.children⟩)
          (CompletedCall.exclusive o ⟨CallTree.pathOf (c :: outer), c.enter, r.timestamp, c.children⟩)
          hown
        obtain ⟨w, hw, rfl⟩ := Option.map_eq_some_iff.mp (happ.symm.trans hv)
        have hold := h _ w hq hw
        rw [hslack] at hold
        cases outer with
        | nil => exact absurd rfl hq
        | cons d outer =>
          have hgrow := openSlack_hang_parent o t.roots d outer
            ⟨CallTree.pathOf (c :: d :: outer), c.enter, r.timestamp, c.children⟩ c.callee
          simp only at hgrow ⊢
          omega
      · -- every other node
        rw [CallGraphNode.view_account_other _ _ _ _ _ hself (by
          intro k hk'
          rw [CallTree.pathOf] at hk'
          exact hparent (List.append_inj_left' hk' rfl).symm)] at hv
        rw [openSlack_hang_other o _ _ _ _ _ _ hparent, ← hslack]
        exact h q v hq hv

/-- Pointing the stack at the map keeps the law. -/
theorem Conserved.reset {o : Overhead} {t : CallTree K} {n : CallGraphNode K}
    (h : Conserved o t n) (hnode : ∀ p ∈ t.openPaths, (n.nodeAt p).isSome) :
    ∀ opened : List (OpenCall K), (∀ p ∈ CallTree.openPathsOf opened, p ∈ t.openPaths) →
      Conserved o t (touchOpened n opened) ∧
        ∀ p ∈ t.openPaths, ((touchOpened n opened).nodeAt p).isSome
  | [], _ => ⟨h, hnode⟩
  | c :: outer, hsub => by
    -- from the root up: the enclosing calls' nodes come first
    obtain ⟨hc, hn⟩ := h.reset hnode outer (fun p hp => hsub p (List.mem_cons_of_mem _ hp))
    have hown := hn _ (hsub _ List.mem_cons_self)
    have hroot : ((touchOpened n outer).nodeAt (CallTree.pathOf outer)).isSome := by
      rw [CallTree.pathOf, CallGraphNode.nodeAt_append] at hown
      cases hnode' : (touchOpened n outer).nodeAt (CallTree.pathOf outer) with
      | none => simp [hnode'] at hown
      | some => rfl
    refine ⟨hc.touch hroot (fun _ => rfl) ?_, ?_⟩
    · intro hnone
      rw [CallGraphNode.view, Option.map_eq_none_iff] at hnone
      rw [CallTree.pathOf, hnone] at hown
      cases hown
    · intro p hp
      rw [CallGraphNode.isSome_nodeAt, touchOpened, CallGraphNode.statsAt_touch _ _ _ hroot]
      split
      · rfl
      · rw [← CallGraphNode.isSome_nodeAt]
        exact hn p hp

/-- What a map that is never cleared satisfies between `update` calls. -/
def Balanced (o : Overhead) (s : CallTree K × NodesMap K) : Prop :=
  Between o Account.empty s ∧ Conserved o s.1 ⟨{}, s.2⟩

/-- With nothing settled elsewhere, every open call's node is in the map. -/
theorem Between.openPaths_isSome {o : Overhead} {t : CallTree K} {m : NodesMap K}
    (h : Between o Account.empty (t, m)) :
    ∀ p ∈ t.openPaths, ((CallGraphNode.mk {} m).nodeAt p).isSome := by
  obtain ⟨a, ha⟩ := h
  intro p hp
  have hmem : p ∈ a.touched := by
    have := (ha.touched p).mp (List.mem_append_right _ hp)
    simpa [Account.empty] using this
  exact ha.isSome_nodeAt (Or.inr hmem)

/-- **One `update` call keeps the law.** -/
theorem Balanced.update {o : Overhead} (s : CallTree K × NodesMap K)
    (trace : List (CallRecord K)) (s' : CallTree K × NodesMap K) (h : Balanced o s)
    (hs : replayBatch o s trace = some s') : Balanced o s' := by
  obtain ⟨t, m⟩ := s
  obtain ⟨hb, hc⟩ := h
  refine ⟨hb.update _ trace s' hs, ?_⟩
  obtain ⟨⟨t', n'⟩, hrun, rfl⟩ := Option.map_eq_some_iff.mp hs
  have hreset := (hc.reset hb.openPaths_isSome t.opened (fun _ hp => hp)).1
  -- within the call: the account and the law, record by record
  have hrec : ∀ (s : CallTree K × CallGraphNode K) (r : CallRecord K) s',
      (InBatch o Account.empty s ∧ Conserved o s.1 s.2) → replay o s r = some s' →
      (InBatch o Account.empty s' ∧ Conserved o s'.1 s'.2) := by
    rintro s r s' ⟨hin, hcons⟩ hs
    refine ⟨hin.replay s r s' hs, ?_⟩
    obtain ⟨a, ha, hopen⟩ := hin
    obtain ⟨t', ht, rfl⟩ := Option.map_eq_some_iff.mp hs
    exact hcons.record (fun p hp => ha.isSome_nodeAt (Or.inr (hopen p hp))) ht
  have hend := (Lib.run_invariant hrec trace _ _ ⟨hb.inBatch, hreset⟩ hrun).2
  intro p v hp hv
  refine hend p v hp ?_
  cases p with
  | nil => exact absurd rfl hp
  | cons k p => exact hv

/-- **Time conservation.**  In a map that is never cleared, after any `update` calls over a
    well-nested trace, every node without an open frame has inclusive time equal to its exclusive
    time plus its direct callees' inclusive times; and once all frames are closed, the exclusive
    times of all nodes add up to the inclusive times of the root-level ones. -/
theorem time_conserved (o : Overhead) (bottom : StackRecord K)
    (batches : List (List (CallRecord K))) (hw : WellNested batches.flatten) :
    ∃ t s m, CallTree.read batches.flatten = some t ∧
      updates (new o bottom, .nil) batches = some (s, m) ∧
      (∀ p n, p ≠ [] → (CallGraphNode.mk {} m).nodeAt p = some n → p ∉ t.openPaths →
        n.stats.inclusiveTime = n.stats.exclusiveTime + n.callees.inclusiveSum) ∧
      (t.opened = [] → m.exclusiveTotal = m.inclusiveSum) := by
  obtain ⟨t, ht⟩ := (CallTree.wellNested_iff _).mp hw
  obtain ⟨s, m, hcode, hreplay⟩ := updates_refine o bottom batches ht
  -- nothing was read, and no node owes anything
  have hempty : Balanced o ((CallTree.empty : CallTree K), (.nil : NodesMap K)) := by
    refine ⟨⟨_, accounted_empty o⟩, fun p v hp hv => ?_⟩
    cases p with
    | nil => exact absurd rfl hp
    | cons k p => cases hv
  obtain ⟨⟨a, ha⟩, hcons⟩ : Balanced o (t, m) :=
    Lib.run_invariant Balanced.update batches _ _ hempty hreplay
  -- where no frame is open there is no slack
  have hlaw : ∀ p n, p ≠ [] → (CallGraphNode.mk {} m).nodeAt p = some n → p ∉ t.openPaths →
      n.stats.inclusiveTime = n.stats.exclusiveTime + n.callees.inclusiveSum := by
    intro p n hp hn hclosed
    have h := hcons p (n.stats, n.callees.inclusiveSum) hp (by rw [CallGraphNode.view, hn]; rfl)
    rw [openSlack_of_not_mem o p t.opened hclosed, add_zero] at h
    exact h
  refine ⟨t, s, m, ht, hcode, hlaw, fun hclosed => ?_⟩
  apply CallGraphNode.exclusiveTotal_eq_inclusiveSum m ha.distinct
  intro p n hp hn
  exact hlaw p n hp hn (by rw [CallTree.openPaths, hclosed]; exact List.not_mem_nil)

/-- The law at work, on a trace that ends with all frames closed. -/
theorem time_conserved_recursive :
    let batches : List (List (CallRecord Nat)) :=
      [[⟨0, some 1⟩, ⟨10, some 1⟩], [⟨30, none⟩, ⟨40, some 2⟩], [⟨50, none⟩, ⟨100, none⟩]]
    ∃ t s m, CallTree.read batches.flatten = some t ∧
      updates (new ⟨2, 3⟩ ⟨9, 9, 9, 9, [], []⟩, .nil) batches = some (s, m) ∧
      (∀ p n, p ≠ [] → (CallGraphNode.mk {} m).nodeAt p = some n → p ∉ t.openPaths →
        n.stats.inclusiveTime = n.stats.exclusiveTime + n.callees.inclusiveSum) ∧
      (t.opened = [] → m.exclusiveTotal = m.inclusiveSum) :=
  time_conserved ⟨2, 3⟩ ⟨9, 9, 9, 9, [], []⟩ _ (by decide)

end ShadowStack

end MicroProfiler
