/-
  `frontend/hierarchy.h`, `table_model_impl.h`: how a table of calls is sorted.

  1. **The code** — `hierarchicalLess` over what it asks of a hierarchy (`HierarchyAccess`), that
     access for a table of `call_statistics` (`stackHierarchyAccess`), and the predicates
     `set_order` sorts by.  `none` is a null pointer dereferenced by `lookup`.

  2. **Forests** (`IsForest`) — ids are unique and every chain of parents ends, at a record whose
     `parent_id` is not in the table.  The path `hierarchical_less` reads is then the ancestors'
     ids (`path_eq`).

  3. **The order** (`hierarchical_order`) — the loop over two paths is a lexicographic comparison
     (`comparePaths_eq`), so that the table is sorted as `Lib.Precedes` says.
-/
import MicroProfiler.Frontend.Comparisons
import MicroProfiler.Frontend.Hierarchy
import MicroProfiler.Lib.TreeOrder

namespace MicroProfiler.Frontend

variable {K : Type}

/-- What `hierarchical_less` asks for: `AccessT`. -/
structure HierarchyAccess (T : Type) where
  /-- `same_parent` -/
  sameParent : T → T → Bool
  /-- `path`, from the root down -/
  path : T → Option (List Nat)
  /-- `lookup`, by id -/
  lookup : Nat → Option T
  /-- `total_less`, where the predicate does not tell -/
  totalLess : T → T → Bool

section

variable {T : Type} (access : HierarchyAccess T) (predicate : T → T → Int)

/-- `total_predicate`. -/
def totalPredicate (lhs rhs : T) : Bool :=
  if predicate lhs rhs ≠ 0 then decide (predicate lhs rhs < 0) else access.totalLess lhs rhs

/-- The loop of `hierarchical_less`, over what is left of the two paths. -/
def comparePaths (lhsLength rhsLength : Nat) : List Nat → List Nat → Option Bool
  | lhsId :: lhsPath, rhsId :: rhsPath =>
      if lhsId = rhsId then comparePaths lhsLength rhsLength lhsPath rhsPath
      else (access.lookup lhsId).bind fun lhs => (access.lookup rhsId).map fun rhs =>
        totalPredicate access predicate lhs rhs
  -- either side is a child of the other: the deeper one follows
  | _, _ => some (decide (lhsLength < rhsLength))

/-- `hierarchical_less`. -/
def hierarchicalLess (lhs rhs : T) : Option Bool :=
  if access.sameParent lhs rhs then some (totalPredicate access predicate lhs rhs)
  else (access.path lhs).bind fun lhsPath => (access.path rhs).bind fun rhsPath =>
    comparePaths access predicate lhsPath.length rhsPath.length lhsPath rhsPath

end

/-- `stack_hierarchy_access`, of a table with these records: no chain of parents in it is longer
    than the table. -/
def stackHierarchyAccess (values : List (CallStatistics K)) : HierarchyAccess (CallStatistics K) where
  sameParent lhs rhs := decide (lhs.parentId = rhs.parentId)
  path item := (walk (findById values) values.length item).map (rootPath item)
  lookup := findById values
  totalLess lhs rhs := decide (lhs.id < rhs.id)

/-- `compare_bound` of `set_order`: a column's comparator, in the direction asked for. -/
def compareBound {T : Type} (compare : T → T → Int) (ascending : Bool) (lhs rhs : T) : Int :=
  if ascending then compare lhs rhs else compare rhs lhs

/-- The predicate `set_order` sorts the records by. -/
def orderBy (values : List (CallStatistics K)) (compare : CallStatistics K → CallStatistics K → Int)
    (ascending : Bool) (lhs rhs : CallStatistics K) : Option Bool :=
  hierarchicalLess (stackHierarchyAccess values) (compareBound compare ascending) lhs rhs

/-! ## Forests -/

/-- A record's ancestors, its parent first. -/
inductive Ancestors (values : List (CallStatistics K)) :
    CallStatistics K → List (CallStatistics K) → Prop
  | root {r : CallStatistics K} : findById values r.parentId = none → Ancestors values r []
  | child {r parent : CallStatistics K} {up : List (CallStatistics K)} :
      findById values r.parentId = some parent → Ancestors values parent up →
      Ancestors values r (parent :: up)

/-- A forest with unique ids: every chain of parents ends. -/
structure IsForest (values : List (CallStatistics K)) : Prop where
  /-- `lookup` finds one record -/
  ids : (values.map CallStatistics.id).Nodup
  /-- there is no cycle -/
  ends : ∀ r ∈ values, ∃ up, Ancestors values r up

/-- The record's parent. -/
def parentOf (values : List (CallStatistics K)) (r : CallStatistics K) : Option (CallStatistics K) :=
  findById values r.parentId

section

variable {values : List (CallStatistics K)}

/-- What is found is in the table, with the id looked for. -/
theorem mem_of_findById {id : Nat} {r : CallStatistics K} (h : findById values id = some r) :
    r ∈ values ∧ r.id = id :=
  ⟨List.mem_of_find?_eq_some h, by simpa using List.find?_some h⟩

/-- A record has one chain of parents. -/
theorem Ancestors.unique {r : CallStatistics K} {up : List (CallStatistics K)}
    (h : Ancestors values r up) : ∀ {up' : List (CallStatistics K)}, Ancestors values r up' →
      up = up' := by
  induction h with
  | root hnone =>
    intro up' h'
    cases h' with
    | root => rfl
    | child hsome => rw [hnone] at hsome; cases hsome
  | child hsome _ ih =>
    intro up' h'
    cases h' with
    | root hnone => rw [hnone] at hsome; cases hsome
    | child hsome' hrest =>
      obtain rfl := Option.some.inj (hsome.symm.trans hsome')
      rw [ih hrest]

/-- They are all in the table. -/
theorem Ancestors.subset {r : CallStatistics K} {up : List (CallStatistics K)}
    (h : Ancestors values r up) : ∀ x ∈ up, x ∈ values := by
  induction h with
  | root => exact fun x hx => absurd hx List.not_mem_nil
  | child hsome _ ih =>
    intro x hx
    rcases List.mem_cons.mp hx with rfl | hx
    · exact (mem_of_findById hsome).1
    · exact ih x hx

/-- An ancestor has fewer ancestors. -/
theorem Ancestors.of_mem {r : CallStatistics K} {up : List (CallStatistics K)}
    (h : Ancestors values r up) : ∀ x ∈ up, ∃ up', Ancestors values x up' ∧
      up'.length < up.length := by
  induction h with
  | root => exact fun x hx => absurd hx List.not_mem_nil
  | @child r parent up hsome hrest ih =>
    intro x hx
    rcases List.mem_cons.mp hx with rfl | hx
    · exact ⟨up, hrest, Nat.lt_succ_self _⟩
    · obtain ⟨up', hup', hlt⟩ := ih x hx
      exact ⟨up', hup', Nat.lt_succ_of_lt hlt⟩

/-- **No record is met twice** on the way up. -/
theorem Ancestors.nodup {r : CallStatistics K} {up : List (CallStatistics K)}
    (h : Ancestors values r up) : (r :: up).Nodup := by
  induction h with
  | root => exact List.nodup_singleton _
  | @child r parent up hsome hrest ih =>
    refine List.nodup_cons.mpr ⟨fun hmem => ?_, ih⟩
    -- were the record its own ancestor, it would have fewer ancestors than it has
    have hchild : Ancestors values r (parent :: up) := .child hsome hrest
    obtain ⟨up', hup', hlt⟩ := hchild.of_mem r hmem
    rw [hchild.unique hup'] at hlt
    exact Nat.lt_irrefl _ hlt

/-- ... hence a chain of parents is shorter than the table. -/
theorem Ancestors.length_lt {r : CallStatistics K} {up : List (CallStatistics K)}
    (h : Ancestors values r up) (hr : r ∈ values) : up.length < values.length := by
  -- the chain is a part of the table without repetition
  have hsubset : r :: up ⊆ values := by
    intro x hx
    rcases List.mem_cons.mp hx with rfl | hx
    · exact hr
    · exact h.subset x hx
  exact (h.nodup.subperm hsubset).length_le

/-- **The walk of `initialize_path`** visits the ancestors. -/
theorem Ancestors.walk {r : CallStatistics K} {up : List (CallStatistics K)}
    (h : Ancestors values r up) : ∀ {depth : Nat}, up.length < depth →
      Frontend.walk (findById values) depth r = some (up.map fun x => (x.id, x.address)) := by
  induction h with
  | root hnone =>
    intro depth hlt
    obtain ⟨depth, rfl⟩ := Nat.exists_eq_add_of_lt hlt
    rw [Frontend.walk, hnone]
    rfl
  | @child r parent up hsome hrest ih =>
    intro depth hlt
    obtain ⟨depth, rfl⟩ := Nat.exists_eq_succ_of_ne_zero (Nat.ne_of_gt (Nat.zero_lt_of_lt hlt))
    rw [Frontend.walk, hsome]
    show (Frontend.walk _ depth parent).map _ = _
    rw [ih (Nat.lt_of_succ_lt_succ hlt)]
    rfl

/-- Records of a forest are told apart by their ids, ... -/
theorem IsForest.id_inj (h : IsForest values) {a b : CallStatistics K} (ha : a ∈ values)
    (hb : b ∈ values) (heq : a.id = b.id) : a = b :=
  List.inj_on_of_nodup_map h.ids ha hb heq

/-- ... and found by them. -/
theorem IsForest.findById (h : IsForest values) {r : CallStatistics K} (hr : r ∈ values) :
    Frontend.findById values r.id = some r :=
  Lib.find?_key h.ids hr

/-- **The tables the frontend reads into** are forests. -/
theorem Rooted.isForest {nextId : Nat} (h : Rooted values nextId) : IsForest values := by
  refine ⟨h.ids, h.forest.rootward ?_ ?_⟩
  · -- a root
    intro r _ hzero
    refine ⟨[], .root ?_⟩
    rw [show r.parentId = 0 from hzero]
    exact h.findById_zero
  · -- a record whose parent has its chain
    rintro r _ parent hparent hid ⟨up, hup⟩
    refine ⟨parent :: up, .child ?_ hup⟩
    rw [show r.parentId = parent.id from hid.symm]
    exact Rooted.findById h hparent

open Classical in
/-- The records on the way from the root down to a record. -/
noncomputable def descent (values : List (CallStatistics K)) (r : CallStatistics K) :
    List (CallStatistics K) :=
  if h : ∃ up, Ancestors values r up then h.choose.reverse ++ [r] else [r]

/-- The chain of parents, from its end. -/
theorem Ancestors.descent_eq {r : CallStatistics K} {up : List (CallStatistics K)}
    (h : Ancestors values r up) : descent values r = up.reverse ++ [r] := by
  have hex : ∃ up, Ancestors values r up := ⟨up, h⟩
  unfold descent
  rw [dif_pos hex, hex.choose_spec.unique h]

/-- **The records of a forest** hang together as `Lib.Ascent` asks for. -/
theorem IsForest.ascent (h : IsForest values) :
    Lib.Ascent {r | r ∈ values} (parentOf values) (descent values) where
  closed := fun _ _ _ hp => (mem_of_findById hp).1
  root := by
    intro a _ hnone
    exact (Ancestors.root hnone).descent_eq
  child := by
    intro a _ p hp
    obtain ⟨up, hup⟩ := h.ends p (mem_of_findById hp).1
    rw [(Ancestors.child hp hup).descent_eq, hup.descent_eq, List.reverse_cons]

/-- **The path the code reads** is the ids on the way down. -/
theorem IsForest.path_eq (h : IsForest values) {r : CallStatistics K} (hr : r ∈ values) :
    (stackHierarchyAccess values).path r = some ((descent values r).map CallStatistics.id) := by
  obtain ⟨up, hup⟩ := h.ends r hr
  show (walk _ _ _).map _ = _
  rw [hup.walk (hup.length_lt hr), hup.descent_eq, Option.map_some, rootPath]
  simp [Function.comp_def]

/-! ## The order -/

variable {predicate : CallStatistics K → CallStatistics K → Int}

/-- `total_predicate` is the order by the predicate, and by ids where that does not tell. -/
theorem totalPredicate_iff (values : List (CallStatistics K)) (a b : CallStatistics K) :
    totalPredicate (stackHierarchyAccess values) predicate a b = true ↔
      Lib.Before predicate CallStatistics.id a b := by
  unfold totalPredicate Lib.Before
  by_cases hzero : predicate a b = 0
  · rw [if_neg (not_not_intro hzero), hzero]
    simp [stackHierarchyAccess]
  · rw [if_pos hzero, decide_eq_true_eq]
    simp [hzero]

/-- **The loop over the paths** compares them lexicographically. -/
theorem comparePaths_eq (h : IsForest values) (hpredicate : Lib.StrictTotalOn {r | r ∈ values}
      (Lib.Before predicate CallStatistics.id)) :
    ∀ (l m : List (CallStatistics K)) (lhsLength rhsLength : Nat), (∀ x ∈ l, x ∈ values) →
      (∀ x ∈ m, x ∈ values) → lhsLength + m.length = rhsLength + l.length →
      ∃ less, comparePaths (stackHierarchyAccess values) predicate lhsLength rhsLength
          (l.map CallStatistics.id) (m.map CallStatistics.id) = some less ∧
        (less = true ↔ List.Lex (Lib.Before predicate CallStatistics.id) l m) := by
  intro l
  -- on the left path; both get shorter by one, so their lengths stay comparable
  induction l with
  | nil =>
    intro m lhsLength rhsLength _ _ hlength
    cases m with
    | nil =>
      refine ⟨decide (lhsLength < rhsLength), rfl, ?_⟩
      rw [decide_eq_true_eq]
      refine ⟨fun hlt => ?_, nofun⟩
      rw [List.length_nil] at hlength
      omega
    | cons b m =>
      refine ⟨decide (lhsLength < rhsLength), rfl, ?_⟩
      rw [decide_eq_true_eq]
      refine ⟨fun _ => .nil, fun _ => ?_⟩
      rw [List.length_cons, List.length_nil] at hlength
      omega
  | cons a l ih =>
    intro m lhsLength rhsLength hl hm hlength
    cases m with
    | nil =>
      refine ⟨decide (lhsLength < rhsLength), rfl, ?_⟩
      rw [decide_eq_true_eq]
      rw [List.length_cons, List.length_nil] at hlength
      exact ⟨fun hlt => by omega, nofun⟩
    | cons b m =>
      have ha := hl a List.mem_cons_self
      have hb := hm b List.mem_cons_self
      rw [List.map_cons, List.map_cons, comparePaths]
      by_cases hab : a.id = b.id
      · -- the same record on both sides: the loop goes on
        obtain rfl := h.id_inj ha hb hab
        rw [if_pos rfl]
        obtain ⟨less, hless, hiff⟩ := ih m lhsLength rhsLength
          (fun x hx => hl x (List.mem_cons_of_mem a hx))
          (fun x hx => hm x (List.mem_cons_of_mem a hx))
          (by rw [List.length_cons, List.length_cons] at hlength; omega)
        refine ⟨less, hless, hiff.trans ⟨.cons, fun hlex => ?_⟩⟩
        cases hlex with
        | rel haa => exact absurd haa (hpredicate.irrefl a ha)
        | cons hlex => exact hlex
      · -- the paths part here: siblings are compared
        rw [if_neg hab]
        refine ⟨totalPredicate (stackHierarchyAccess values) predicate a b, ?_, ?_⟩
        · show (Frontend.findById values a.id).bind _ = _
          rw [h.findById ha, Option.bind_some]
          show (Frontend.findById values b.id).map _ = _
          rw [h.findById hb, Option.map_some]
        · rw [totalPredicate_iff]
          refine ⟨.rel, fun hlex => ?_⟩
          cases hlex with
          | rel hlt => exact hlt
          | cons _ => exact absurd rfl hab

/-- **`hierarchical_less`** compares the ways down to the two records. -/
theorem hierarchicalLess_eq (h : IsForest values) (hpredicate : Lib.StrictTotalOn {r | r ∈ values}
      (Lib.Before predicate CallStatistics.id)) {a b : CallStatistics K} (ha : a ∈ values)
    (hb : b ∈ values) :
    ∃ less, hierarchicalLess (stackHierarchyAccess values) predicate a b = some less ∧
      (less = true ↔
        Lib.Precedes (Lib.Before predicate CallStatistics.id) (descent values) a b) := by
  unfold hierarchicalLess
  by_cases hparent : a.parentId = b.parentId
  · refine ⟨_, if_pos (decide_eq_true hparent), ?_⟩
    rw [totalPredicate_iff]
    -- siblings are compared without their paths, with the same outcome
    have hsiblings : parentOf values a = parentOf values b := by unfold parentOf; rw [hparent]
    exact (h.ascent.precedes_siblings hpredicate ha hb hsiblings).symm
  · rw [if_neg (by simpa [stackHierarchyAccess] using hparent), h.path_eq ha, h.path_eq hb,
      Option.bind_some, Option.bind_some, List.length_map, List.length_map]
    exact comparePaths_eq h hpredicate _ _ _ _ (h.ascent.path_subset a ha)
      (h.ascent.path_subset b hb) (Nat.add_comm _ _)

end

/-- A walk through the forest: parents first, subtrees in one piece, siblings in the order asked
    for, and by their ids where the column does not tell them apart. -/
structure IsPreorder (values : List (CallStatistics K))
    (compare : CallStatistics K → CallStatistics K → Int) (ascending : Bool)
    (data : List (CallStatistics K)) : Prop where
  /-- a record comes before all that is under it -/
  parentsFirst : ∀ (i j : Nat) (a b : CallStatistics K), data[i]? = some a → data[j]? = some b →
    Lib.Descends (parentOf values) a b → a ≠ b → i < j
  /-- what is between two records of a subtree is of it -/
  contiguous : ∀ (i j k : Nat) (root a b c : CallStatistics K), i < j → j < k →
    data[i]? = some a → data[j]? = some b → data[k]? = some c → root ∈ values →
    Lib.Descends (parentOf values) root a → Lib.Descends (parentOf values) root c →
    Lib.Descends (parentOf values) root b
  /-- the order asked for, among records of one parent -/
  siblings : ∀ (i j : Nat) (a b : CallStatistics K), i < j → data[i]? = some a →
    data[j]? = some b → parentOf values a = parentOf values b →
    (if ascending then compare a b ≤ 0 else compare b a ≤ 0) ∧ (compare a b = 0 → a.id < b.id)

/-- The other direction of a weak order is one. -/
theorem compareBound_threeWay {s : Set (CallStatistics K)}
    {compare : CallStatistics K → CallStatistics K → Int} (h : Lib.ThreeWay s compare)
    (ascending : Bool) : Lib.ThreeWay s (compareBound compare ascending) := by
  cases ascending with
  | true => exact h
  | false => exact h.flip

/-- **Sorted by a strict total order of this kind**, the records are a walk through the forest. -/
theorem IsForest.preorder {values : List (CallStatistics K)} (h : IsForest values)
    {compare : CallStatistics K → CallStatistics K → Int}
    (hcompare : Lib.ThreeWay {r | r ∈ values} compare) {ascending : Bool}
    (hbefore : Lib.StrictTotalOn {r | r ∈ values}
      (Lib.Before (compareBound compare ascending) CallStatistics.id))
    {data : List (CallStatistics K)}
    (hdata : Lib.SortedBy (Lib.Precedes (Lib.Before (compareBound compare ascending)
      CallStatistics.id) (descent values)) values data) :
    IsPreorder values compare ascending data := by
  have htotal := h.ascent.precedes_total hbefore
  -- what stands before is less: the order is strict and total
  have hless : ∀ (i j : Nat) (a b : CallStatistics K), i < j → data[i]? = some a →
      data[j]? = some b → Lib.Precedes _ (descent values) a b := fun i j a b hij hi hj =>
    hdata.less_of_lt (List.Nodup.of_map _ h.ids) htotal hij hi hj
  have hmem : ∀ (i : Nat) (a : CallStatistics K), data[i]? = some a → a ∈ values := fun i a hi =>
    hdata.perm.mem_iff.mp (List.mem_of_getElem? hi)
  refine ⟨?_, ?_, ?_⟩
  · -- parents first
    intro i j a b hi hj hdescends hne
    have hab : Lib.Precedes (Lib.Before (compareBound compare ascending) CallStatistics.id)
        (descent values) a b :=
      h.ascent.precedes_of_descends (hmem i a hi) (hmem j b hj) hdescends hne
    rcases Nat.lt_trichotomy i j with hlt | rfl | hgt
    · exact hlt
    · exact absurd (Option.some.inj (hi.symm.trans hj)) hne
    · exact absurd (hless j i b a hgt hj hi) (htotal.asymm (hmem i a hi) (hmem j b hj) hab)
  · -- subtrees in one piece
    intro i j k root a b c hij hjk hi hj hk hroot hra hrc
    exact h.ascent.descends_between hbefore hroot (hmem i a hi) (hmem j b hj) (hmem k c hk) hra hrc
      (hless i j a b hij hi hj) (hless j k b c hjk hj hk)
  · -- siblings
    intro i j a b hij hi hj hsiblings
    have hlt : Lib.Before (compareBound compare ascending) CallStatistics.id a b :=
      (h.ascent.precedes_siblings hbefore (hmem i a hi) (hmem j b hj) hsiblings).mp
        (hless i j a b hij hi hj)
    have hzero := hcompare.swap_zero (hmem i a hi) (hmem j b hj)
    unfold Lib.Before compareBound at hlt
    cases ascending with
    | true =>
      simp only [if_true] at hlt ⊢
      omega
    | false =>
      simp only [Bool.false_eq_true, if_false] at hlt ⊢
      omega

/-- **Hierarchical ordering.**  For any forest and any column whose comparator is a consistent weak
    order, in either direction: the predicate the table is sorted by never looks for a record that
    is not there and is a strict total order on the records, and sorted by it they are a walk
    through the forest. -/
theorem hierarchical_order (values : List (CallStatistics K)) (hforest : IsForest values)
    (compare : CallStatistics K → CallStatistics K → Int)
    (hcompare : Lib.ThreeWay {r | r ∈ values} compare) (ascending : Bool) :
    (∀ a ∈ values, ∀ b ∈ values, (orderBy values compare ascending a b).isSome) ∧
      Lib.StrictTotalOn {r | r ∈ values}
        (fun a b => orderBy values compare ascending a b = some true) ∧
      ∀ data, Lib.SortedBy (fun a b => orderBy values compare ascending a b = some true) values
        data → IsPreorder values compare ascending data := by
  -- ids tell any two records apart, so the order is total
  have hbefore : Lib.StrictTotalOn {r | r ∈ values}
      (Lib.Before (compareBound compare ascending) CallStatistics.id) :=
    (compareBound_threeWay hcompare ascending).before_strictTotal
      fun _ ha _ hb => hforest.id_inj ha hb
  -- the predicate is the order of `Lib.TreeOrder`
  have hiff : ∀ a ∈ values, ∀ b ∈ values, orderBy values compare ascending a b = some true ↔
      Lib.Precedes (Lib.Before (compareBound compare ascending) CallStatistics.id)
        (descent values) a b := by
    intro a ha b hb
    obtain ⟨less, hless, hprecedes⟩ := hierarchicalLess_eq hforest hbefore ha hb
    rw [orderBy, hless, Option.some_inj]
    exact hprecedes
  refine ⟨?_, ?_, ?_⟩
  · intro a ha b hb
    obtain ⟨less, hless, _⟩ := hierarchicalLess_eq hforest hbefore ha hb
    rw [orderBy, hless]
    rfl
  · have htotal := hforest.ascent.precedes_total hbefore
    refine ⟨?_, ?_, ?_⟩
    · intro a ha
      rw [hiff a ha a ha]
      exact htotal.irrefl a ha
    · intro a ha b hb c hc
      rw [hiff a ha b hb, hiff b hb c hc, hiff a ha c hc]
      exact htotal.trans a ha b hb c hc
    · intro a ha b hb
      rw [hiff a ha b hb, hiff b hb a ha]
      exact htotal.total a ha b hb
  · intro data hdata
    refine hforest.preorder hcompare hbefore ⟨hdata.perm, ?_⟩
    refine hdata.sorted.imp_of_mem fun ha hb hnot hprecedes => hnot ?_
    exact (hiff _ (hdata.perm.mem_iff.mp hb) _ (hdata.perm.mem_iff.mp ha)).mpr hprecedes

/-- `by_times_called`. -/
def byTimesCalled (lhs rhs : CallStatistics K) : Int :=
  compareNumbers lhs.stats.timesCalled rhs.stats.timesCalled

/-- Numbers that are compared make a weak order. -/
theorem byTimesCalled_threeWay (s : Set (CallStatistics K)) : Lib.ThreeWay s byTimesCalled := by
  refine Lib.ThreeWay.of_rank (fun r => r.stats.timesCalled) ?_ ?_
  · intro a _ b _
    unfold byTimesCalled compareNumbers
    split_ifs <;> omega
  · intro a _ b _
    unfold byTimesCalled compareNumbers
    split_ifs <;> omega

/-- Two functions, the first of which called two others. -/
def twoTrees : List (CallStatistics Nat) :=
  [⟨1, 7, 0, 10, { timesCalled := 1 }⟩, ⟨2, 7, 1, 20, { timesCalled := 5 }⟩,
    ⟨3, 7, 0, 30, { timesCalled := 3 }⟩, ⟨4, 7, 1, 40, { timesCalled := 9 }⟩]

/-- The most called first: a parent still comes before its children. -/
theorem hierarchical_order_descending :
    ∃ data, data.map CallStatistics.id = [3, 1, 4, 2] ∧
      IsPreorder twoTrees byTimesCalled false data := by
  have hforest : IsForest twoTrees := by
    refine ⟨by decide, fun r hr => ?_⟩
    rcases List.mem_cons.mp hr with rfl | hr
    · exact ⟨_, .root rfl⟩
    rcases List.mem_cons.mp hr with rfl | hr
    · exact ⟨_, .child rfl (.root rfl)⟩
    rcases List.mem_cons.mp hr with rfl | hr
    · exact ⟨_, .root rfl⟩
    · obtain rfl := List.mem_singleton.mp hr
      exact ⟨_, .child rfl (.root rfl)⟩
  refine ⟨[⟨3, 7, 0, 30, { timesCalled := 3 }⟩, ⟨1, 7, 0, 10, { timesCalled := 1 }⟩,
    ⟨4, 7, 1, 40, { timesCalled := 9 }⟩, ⟨2, 7, 1, 20, { timesCalled := 5 }⟩], rfl, ?_⟩
  refine (hierarchical_order twoTrees hforest byTimesCalled (byTimesCalled_threeWay _) false).2.2 _ ?_
  exact ⟨by decide, by decide⟩

end MicroProfiler.Frontend
