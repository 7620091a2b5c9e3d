/-
  `table_model_impl`, `trackables_provider` and `projection_view` — trackables that follow records.

  1. **Program** — the model sorts ITERATORS into the table (`_ordered_data`), taken from it by
     `fetch` only; `set_order` re-sorts the ones it has.  A trackable remembers a key; both
     providers (the model's and the projection's) forget all indices and look the keys up again in
     one pass over the ordered rows (`resolve`).  Following the iterator of a record that has left
     the table is `none`.

  2. **The table** — changes at will: records come (under new iterators), go, and are modified in
     place.

  3. **Specification (`Follows`)** — by key alone: an index is npos EXACTLY if no row has the key,
     else the row there has it.

  4. **What `set_order` does not do** — look at the table.  A record that came since the last fetch
     is not among the rows, and one that has gone leaves an iterator nobody may follow
     (`set_order_keeps_rows`); so after `set_order` the rows meant are those of the last fetch.
-/
import MicroProfiler.Lib.Runs
import Mathlib.Data.List.Nodup
import Mathlib.Data.List.Sort

namespace MicroProfiler.TableModel

open MicroProfiler.Lib

variable {ρ κ δ : Type} [DecidableEq κ]

/-- An iterator into the table, as a name that is not used again. -/
abbrev Iterator := Nat

/-- The table: its records in order, under their iterators. -/
structure Table (ρ : Type) where
  rows : List (Iterator × ρ)
  nodup : (rows.map Prod.fst).Nodup

/-- `*it`, for an iterator of a record that is in the table. -/
def Table.deref (table : Table ρ) (it : Iterator) : Option ρ := table.rows.lookup it

/-- The iterators from `begin()` to `end()`. -/
def Table.iterators (table : Table ρ) : List Iterator := table.rows.map Prod.fst

/-- A column, as far as the order and the projection are concerned: `compare` and `get_value`. -/
structure Column (ρ δ : Type) where
  compare : Option (ρ → ρ → Int)
  getValue : Option (ρ → δ)

/-- `std::sort`: some rearrangement by a predicate. -/
structure Sorter (ρ : Type) where
  sort : (ρ → ρ → Bool) → List (Iterator × ρ) → List (Iterator × ρ)
  perm : ∀ less rows, (sort less rows).Perm rows

/-- What a model is instantiated with: `key_traits`, its columns, `hierarchical_less` over the access
    its context gives, and the sort of the standard library. -/
structure Setup (ρ κ δ : Type) where
  getKey : ρ → κ
  columns : List (Column ρ δ)
  hierarchicalLess : (ρ → ρ → Int) → ρ → ρ → Bool
  sorter : Sorter ρ

/-- `trackable`: its list node, its key, and its index (`none` is `npos()`). -/
structure Trackable (κ : Type) where
  node : Nat
  key : κ
  currentIndex : Option Nat
deriving DecidableEq, Repr

/-- The two providers: `_trackables` of the model, and that of `_projection`. -/
inductive Provider
  | model
  | projection
deriving DecidableEq, Repr

/-- `table_model_impl` and its table.  `fetched` is what was in the table at the last fetch, `seen`
    a bound on the iterators there have been. -/
structure State (ρ κ δ : Type) where
  table : Table ρ
  seen : Nat
  ordered : List Iterator
  predicate : ρ → ρ → Bool
  trackables : Provider → List (Trackable κ)
  extractor : Option (ρ → δ)
  nextNode : Nat
  fetched : List Iterator

/-- `invalidate_trackables()`. -/
def invalidateTrackables (trackables : List (Trackable κ)) : List (Trackable κ) :=
  trackables.map fun t => { t with currentIndex := none }

/-- The loop of `trackables_provider::fetch`, from row `i` on. -/
def resolve (getKey : ρ → κ) (table : Table ρ) :
    Nat → List Iterator → List (Trackable κ) → Option (List (Trackable κ))
  | _, [], trackables => some trackables
  | i, it :: rest, trackables => do
    let key := getKey (← table.deref it)
    resolve getKey table (i + 1) rest
      (trackables.map fun t => if t.key = key then { t with currentIndex := some i } else t)

namespace State

/-- `*_ordered_data[i]` for every row. -/
def rows (s : State ρ κ δ) : Option (List (Iterator × ρ)) :=
  s.ordered.mapM fun it => (s.table.deref it).map fun record => (it, record)

/-- `trackables_provider::fetch()`. -/
def fetchTrackables (S : Setup ρ κ δ) (s : State ρ κ δ) (provider : Provider) :
    Option (State ρ κ δ) := do
  let trackables ← resolve S.getKey s.table 0 s.ordered
    (invalidateTrackables (s.trackables provider))
  return { s with
    trackables := fun p => if p = provider then trackables else s.trackables p }

/-- `ordered::set_order(predicate, true)`: the predicate is kept, and the rows sorted by it. -/
def setOrdered (S : Setup ρ κ δ) (s : State ρ κ δ) (predicate : ρ → ρ → Bool) :
    Option (State ρ κ δ) := do
  let rows ← s.rows
  return { s with
    predicate := predicate
    ordered := (S.sorter.sort predicate rows).map Prod.fst }

/-- `ordered::fetch()`. -/
def fetchOrdered (S : Setup ρ κ δ) (s : State ρ κ δ) : State ρ κ δ :=
  { s with
    ordered := (S.sorter.sort s.predicate s.table.rows).map Prod.fst
    fetched := s.table.iterators }

/-- `_trackables.fetch(); _projection.fetch();` -/
def refresh (S : Setup ρ κ δ) (s : State ρ κ δ) : Option (State ρ κ δ) := do
  let s ← s.fetchTrackables S .model
  s.fetchTrackables S .projection

/-- `table_model_impl::fetch()`. -/
def fetch (S : Setup ρ κ δ) (s : State ρ κ δ) : Option (State ρ κ δ) := (s.fetchOrdered S).refresh S

/-- `compare_bound`. -/
def compareBound (compare : ρ → ρ → Int) (ascending : Bool) (lhs rhs : ρ) : Int :=
  if ascending then compare lhs rhs else compare rhs lhs

/-- The order and the projection of a column.  A column without `compare` leaves the order alone. -/
def applyColumn (S : Setup ρ κ δ) (s : State ρ κ δ) (c : Column ρ δ) (ascending : Bool) :
    Option (State ρ κ δ) := do
  let s ← match c.compare with
    | some compare => s.setOrdered S (S.hierarchicalLess (compareBound compare ascending))
    | none => some s
  return { s with extractor := c.getValue }

/-- `set_order(column, ascending)`; `none` for the column is `npos()`.  A column that is not there
    makes `_columns.at` throw, before anything has changed. -/
def setOrder (S : Setup ρ κ δ) (s : State ρ κ δ) (column : Option Nat) (ascending : Bool) :
    Option (State ρ κ δ) :=
  match column with
  | none => do
    let s ← s.setOrdered S (S.hierarchicalLess fun _ _ => 0)
    s.refresh S
  | some column =>
    match S.columns[column]? with
    | none => some s
    | some c => do
      let s ← s.applyColumn S c ascending
      s.refresh S

/-- `track(index)` of either provider. -/
def track (S : Setup ρ κ δ) (s : State ρ κ δ) (provider : Provider) (index : Nat) :
    Option (State ρ κ δ) := do
  let record ← s.table.deref (← s.ordered[index]?)
  return { s with
    trackables := fun p =>
      if p = provider then s.trackables p ++ [⟨s.nextNode, S.getKey record, some index⟩]
      else s.trackables p
    nextNode := s.nextNode + 1 }

/-- The last pointer to a trackable is gone: its node is erased. -/
def release (s : State ρ κ δ) (provider : Provider) (node : Nat) : Option (State ρ κ δ) :=
  if (s.trackables provider).any fun t => t.node == node then
    some { s with
      trackables := fun p =>
        if p = provider then (s.trackables p).filter fun t => t.node ≠ node else s.trackables p }
  else none

/-- `table_model_impl(underlying, context)`. -/
def construct (S : Setup ρ κ δ) (table : Table ρ) : State ρ κ δ where
  table := table
  seen := table.iterators.foldl max 0 + 1
  ordered := (S.sorter.sort (S.hierarchicalLess fun _ _ => 0) table.rows).map Prod.fst
  predicate := S.hierarchicalLess fun _ _ => 0
  trackables := fun _ => []
  extractor := none
  nextNode := 0
  fetched := table.iterators

end State

/-- What can happen. -/
inductive Action (ρ : Type)
  | change (table : Table ρ)
  | fetch
  | setOrder (column : Option Nat) (ascending : Bool)
  | track (provider : Provider) (index : Nat)
  | release (provider : Provider) (node : Nat)

/-- One action. -/
def State.step (S : Setup ρ κ δ) (s : State ρ κ δ) : Action ρ → Option (State ρ κ δ)
  | .change table =>
    some { s with table := table, seen := table.iterators.foldl max s.seen + 1 }
  | .fetch => s.fetch S
  | .setOrder column ascending => s.setOrder S column ascending
  | .track provider index => s.track S provider index
  | .release provider node => s.release provider node

/-- What is up to the model's clients.  The table gives its new records new iterators; a row is
    tracked, and rows are put in another order, only while the records concerned are in the table
    (`fetch` needs no such promise); a trackable is released once. -/
def Permitted (s : State ρ κ δ) : Action ρ → Prop
  | .change table => ∀ it ∈ table.iterators, it ∈ s.table.iterators ∨ s.seen ≤ it
  | .fetch => True
  | .setOrder _ _ => ∀ it ∈ s.ordered, it ∈ s.table.iterators
  | .track _ index => ∃ it, s.ordered[index]? = some it ∧ it ∈ s.table.iterators
  | .release provider node => node ∈ (s.trackables provider).map Trackable.node

/-- `fetch`, and `set_order` where it does not throw. -/
def Action.Resolves (S : Setup ρ κ δ) : Action ρ → Prop
  | .fetch => True
  | .setOrder none _ => True
  | .setOrder (some column) _ => column < S.columns.length
  | _ => False

/-! ## Reading the rows -/

/-- The table finds a record under its own iterator, … -/
theorem lookup_of_mem {rows : List (Iterator × ρ)} (hnodup : (rows.map Prod.fst).Nodup)
    {it : Iterator} {record : ρ} (h : (it, record) ∈ rows) : rows.lookup it = some record := by
  induction rows with
  | nil => cases h
  | cons row rows ih =>
    obtain ⟨hnew, hrest⟩ := List.nodup_cons.mp hnodup
    rcases List.mem_cons.mp h with rfl | h
    · exact List.lookup_cons_self
    · have hne : (it == row.1) = false := by
        refine beq_eq_false_iff_ne.mpr fun heq => hnew ?_
        exact List.mem_map.mpr ⟨(it, record), h, heq⟩
      rw [List.lookup_cons, hne]
      exact ih hrest h

/-- … and nothing else. -/
theorem mem_of_lookup {rows : List (Iterator × ρ)} {it : Iterator} {record : ρ}
    (h : rows.lookup it = some record) : (it, record) ∈ rows := by
  obtain ⟨before, after, rfl, _⟩ := List.lookup_eq_some_iff.mp h
  simp

theorem Table.deref_iff (table : Table ρ) {it : Iterator} {record : ρ} :
    table.deref it = some record ↔ (it, record) ∈ table.rows :=
  ⟨mem_of_lookup, lookup_of_mem table.nodup⟩

/-- `rows` are the records under the iterators `its`. -/
def Reads (table : Table ρ) (its : List Iterator) (rows : List (Iterator × ρ)) : Prop :=
  rows.map Prod.fst = its ∧ ∀ row ∈ rows, table.deref row.1 = some row.2

/-- Iterators of records that are in the table can all be followed. -/
theorem exists_reads (table : Table ρ) : ∀ {its : List Iterator}, (∀ it ∈ its, it ∈ table.iterators) →
    ∃ rows, (its.mapM fun it => (table.deref it).map fun record => (it, record)) = some rows ∧
      Reads table its rows
  | [], _ => ⟨[], rfl, rfl, by simp⟩
  | it :: its, hin => by
    obtain ⟨row, hmem, rfl⟩ := List.mem_map.mp (hin it List.mem_cons_self)
    have hrecord : table.deref row.1 = some row.2 := table.deref_iff.mpr hmem
    obtain ⟨rows, hrows, hfst, hreads⟩ :=
      exists_reads table fun it' hit' => hin it' (List.mem_cons_of_mem _ hit')
    refine ⟨row :: rows, ?_, ?_, ?_⟩
    · rw [List.mapM_cons, hrecord, hrows]
      rfl
    · rw [List.map_cons, hfst]
    · intro row' hrow'
      rcases List.mem_cons.mp hrow' with rfl | hrow'
      · exact hrecord
      · exact hreads row' hrow'

/-! ## Looking keys up -/

/-- The index of the LAST row with a key, `current` if there is none. -/
def lastIndex (getKey : ρ → κ) (key : κ) : Nat → List (Iterator × ρ) → Option Nat → Option Nat
  | _, [], current => current
  | i, row :: rest, current =>
    lastIndex getKey key (i + 1) rest (if key = getKey row.2 then some i else current)

/-- **The pass over the rows**, seen from one trackable at a time. -/
theorem resolve_eq (getKey : ρ → κ) (table : Table ρ) :
    ∀ (rows : List (Iterator × ρ)), (∀ row ∈ rows, table.deref row.1 = some row.2) →
      ∀ (i : Nat) (trackables : List (Trackable κ)),
        resolve getKey table i (rows.map Prod.fst) trackables = some (trackables.map fun t =>
          { t with currentIndex := lastIndex getKey t.key i rows t.currentIndex })
  | [], _, i, trackables => by simp [resolve, lastIndex]
  | row :: rows, hreads, i, trackables => by
    have hrest := resolve_eq getKey table rows fun r hr => hreads r (List.mem_cons_of_mem _ hr)
    rw [List.map_cons, resolve, hreads row List.mem_cons_self]
    simp only [Option.bind_eq_bind, Option.bind_some, hrest, List.map_map]
    congr 1
    refine List.map_congr_left fun t _ => ?_
    simp only [Function.comp_apply, lastIndex]
    split <;> rfl

/-- What the lookup ends with: a row that has the key, or no row has. -/
theorem lastIndex_cases (getKey : ρ → κ) (key : κ) : ∀ (rows : List (Iterator × ρ)) (i : Nat)
    (current : Option Nat),
    (∃ j row, rows[j]? = some row ∧ getKey row.2 = key ∧
      lastIndex getKey key i rows current = some (i + j)) ∨
    ((∀ row ∈ rows, getKey row.2 ≠ key) ∧ lastIndex getKey key i rows current = current)
  | [], i, current => .inr ⟨by simp, rfl⟩
  | row :: rows, i, current => by
    rcases lastIndex_cases getKey key rows (i + 1) (if key = getKey row.2 then some i else current)
      with ⟨j, found, hj, hkey, heq⟩ | ⟨hnone, heq⟩
    · refine .inl ⟨j + 1, found, by simpa using hj, hkey, ?_⟩
      rw [lastIndex, heq, Nat.add_assoc, Nat.add_comm 1 j]
    · by_cases hkey : key = getKey row.2
      · rw [if_pos hkey] at heq
        exact .inl ⟨0, row, rfl, hkey.symm, by rw [lastIndex, if_pos hkey, heq, Nat.add_zero]⟩
      · rw [if_neg hkey] at heq
        refine .inr ⟨fun r hr => ?_, by rw [lastIndex, if_neg hkey, heq]⟩
        rcases List.mem_cons.mp hr with rfl | hr
        · exact fun h => hkey h.symm
        · exact hnone r hr

/-! ## What holds after the keys have been looked up -/

/-- Every index of either provider is the one its key has in the rows. -/
def Resolved (S : Setup ρ κ δ) (s : State ρ κ δ) : Prop :=
  ∃ rows, Reads s.table s.ordered rows ∧
    ∀ p, ∀ t ∈ s.trackables p, t.currentIndex = lastIndex S.getKey t.key 0 rows none

/-- A trackable follows its record: its index is npos EXACTLY if no row has its key, and else the
    row there has it. -/
def Follows (S : Setup ρ κ δ) (s : State ρ κ δ) (t : Trackable κ) : Prop :=
  (∀ i, t.currentIndex = some i → ∃ it record, s.ordered[i]? = some it ∧
    s.table.deref it = some record ∧ S.getKey record = t.key) ∧
  (t.currentIndex = none ↔ ∀ it ∈ s.ordered, ∀ record, s.table.deref it = some record →
    S.getKey record ≠ t.key)

/-- The same, of the whole table. -/
def FollowsTable (S : Setup ρ κ δ) (s : State ρ κ δ) (t : Trackable κ) : Prop :=
  t.currentIndex = none ↔ ∀ row ∈ s.table.rows, S.getKey row.2 ≠ t.key

theorem Resolved.follows {S : Setup ρ κ δ} {s : State ρ κ δ} (h : Resolved S s) {p : Provider}
    {t : Trackable κ} (ht : t ∈ s.trackables p) : Follows S s t := by
  obtain ⟨rows, ⟨hfst, hreads⟩, hindex⟩ := h
  have hrow : ∀ it ∈ s.ordered, ∀ record, s.table.deref it = some record → (it, record) ∈ rows := by
    intro it hit record hrecord
    rw [← hfst] at hit
    obtain ⟨⟨_, record'⟩, hmem, rfl⟩ := List.mem_map.mp hit
    obtain rfl : record' = record := Option.some.inj ((hreads _ hmem).symm.trans hrecord)
    exact hmem
  have ht := hindex p t ht
  rcases lastIndex_cases S.getKey t.key rows 0 none with ⟨j, row, hj, hkey, heq⟩ | ⟨hnone, heq⟩
  · rw [heq, Nat.zero_add] at ht
    have hread := hreads row (List.mem_of_getElem? hj)
    have hit : s.ordered[j]? = some row.1 := by simp [← hfst, hj]
    refine ⟨fun i hi => ?_, ?_⟩
    · obtain rfl := Option.some.inj (ht.symm.trans hi)
      exact ⟨row.1, row.2, hit, hread, hkey⟩
    · refine iff_of_false (by simp [ht]) fun hall => ?_
      exact hall row.1 (List.mem_of_getElem? hit) row.2 hread hkey
  · rw [heq] at ht
    refine ⟨fun i hi => by simp [ht] at hi, iff_of_true ht fun it hit record hrecord => ?_⟩
    exact hnone (it, record) (hrow it hit record hrecord)

/-- Where the rows are those of the table, it follows the table. -/
theorem Resolved.followsTable {S : Setup ρ κ δ} {s : State ρ κ δ} (h : Resolved S s)
    (hall : s.ordered.Perm s.table.iterators) {p : Provider} {t : Trackable κ}
    (ht : t ∈ s.trackables p) : FollowsTable S s t := by
  rw [FollowsTable, (h.follows ht).2]
  refine ⟨fun hnone row hrow => ?_, fun hnone it _ record hrecord => ?_⟩
  · have hit : row.1 ∈ s.ordered := hall.mem_iff.mpr (List.mem_map.mpr ⟨row, hrow, rfl⟩)
    exact hnone row.1 hit row.2 (s.table.deref_iff.mpr hrow)
  · exact hnone (it, record) (s.table.deref_iff.mp hrecord)

/-- Two trackables of one key, of one provider or of both, agree. -/
theorem Resolved.agree {S : Setup ρ κ δ} {s : State ρ κ δ} (h : Resolved S s) {p p' : Provider}
    {t t' : Trackable κ} (ht : t ∈ s.trackables p) (ht' : t' ∈ s.trackables p')
    (hkey : t.key = t'.key) : t.currentIndex = t'.currentIndex := by
  obtain ⟨rows, _, hindex⟩ := h
  rw [hindex p t ht, hindex p' t' ht', hkey]

/-! ## One action -/

/-- INVARIANT: the rows are the records of the last fetch, in some order. -/
def Holds (s : State ρ κ δ) : Prop := s.ordered.Perm s.fetched

namespace State

variable {S : Setup ρ κ δ} {s : State ρ κ δ}

/-- A trackable with the index its key has in the rows. -/
def located (S : Setup ρ κ δ) (rows : List (Iterator × ρ)) (t : Trackable κ) : Trackable κ :=
  { t with currentIndex := lastIndex S.getKey t.key 0 rows none }

theorem fetchTrackables_eq {rows : List (Iterator × ρ)} (hreads : Reads s.table s.ordered rows)
    (provider : Provider) :
    s.fetchTrackables S provider = some { s with
      trackables := fun p =>
        if p = provider then (s.trackables provider).map (located S rows) else s.trackables p } := by
  have hresolve := resolve_eq S.getKey s.table rows hreads.2 0
    (invalidateTrackables (s.trackables provider))
  rw [hreads.1, invalidateTrackables, List.map_map] at hresolve
  rw [fetchTrackables, invalidateTrackables, hresolve]
  rfl

/-- Both providers look their keys up in the rows there are. -/
theorem refresh_spec (hin : ∀ it ∈ s.ordered, it ∈ s.table.iterators) :
    ∃ s', s.refresh S = some s' ∧ s'.table = s.table ∧ s'.ordered = s.ordered ∧
      s'.fetched = s.fetched ∧ Resolved S s' := by
  obtain ⟨rows, _, hreads⟩ := exists_reads s.table hin
  refine ⟨{ s with trackables := fun p => (s.trackables p).map (located S rows) }, ?_, rfl, rfl, rfl,
    rows, hreads, fun p t ht => ?_⟩
  · simp only [refresh, fetchTrackables_eq hreads, Option.bind_eq_bind, Option.bind_some]
    refine (fetchTrackables_eq (s := { s with
      trackables := fun p =>
        if p = .model then (s.trackables .model).map (located S rows) else s.trackables p })
      hreads .projection).trans ?_
    congr 2
    funext p
    cases p <;> rfl
  · obtain ⟨t₀, _, rfl⟩ := List.mem_map.mp ht
    rfl

omit [DecidableEq κ] in
/-- Re-sorting touches nothing but the order. -/
theorem setOrdered_spec (hin : ∀ it ∈ s.ordered, it ∈ s.table.iterators) (less : ρ → ρ → Bool) :
    ∃ s', s.setOrdered S less = some s' ∧ s'.table = s.table ∧ s'.ordered.Perm s.ordered ∧
      s'.fetched = s.fetched := by
  obtain ⟨rows, hrows, hfst, _⟩ := exists_reads s.table hin
  refine ⟨{ s with predicate := less, ordered := (S.sorter.sort less rows).map Prod.fst }, ?_, rfl,
    ?_, rfl⟩
  · rw [setOrdered, State.rows, hrows]
    rfl
  · rw [← hfst]
    exact (S.sorter.perm less rows).map Prod.fst

omit [DecidableEq κ] in
theorem applyColumn_spec (hin : ∀ it ∈ s.ordered, it ∈ s.table.iterators) (c : Column ρ δ)
    (ascending : Bool) :
    ∃ s', s.applyColumn S c ascending = some s' ∧ s'.table = s.table ∧ s'.ordered.Perm s.ordered ∧
      s'.fetched = s.fetched := by
  cases hcompare : c.compare with
  | none =>
    refine ⟨{ s with extractor := c.getValue }, ?_, rfl, .refl _, rfl⟩
    simp [applyColumn, hcompare]
  | some compare =>
    obtain ⟨s', hs', htable, hperm, hfetched⟩ :=
      setOrdered_spec (S := S) hin (S.hierarchicalLess (compareBound compare ascending))
    refine ⟨{ s' with extractor := c.getValue }, ?_, htable, hperm, hfetched⟩
    simp [applyColumn, hcompare, hs']

/-- A new order, then new indices. -/
theorem reorder_spec {s₁ : State ρ κ δ} (hin : ∀ it ∈ s.ordered, it ∈ s.table.iterators)
    (htable : s₁.table = s.table) (hperm : s₁.ordered.Perm s.ordered)
    (hfetched : s₁.fetched = s.fetched) (h : Holds s) :
    ∃ s', s₁.refresh S = some s' ∧ Holds s' ∧ Resolved S s' := by
  have hin₁ : ∀ it ∈ s₁.ordered, it ∈ s₁.table.iterators := fun it hit =>
    htable ▸ hin it (hperm.mem_iff.mp hit)
  obtain ⟨s', hs', _, hordered, hfetched', hresolved⟩ := refresh_spec (S := S) hin₁
  refine ⟨s', hs', ?_, hresolved⟩
  rw [Holds, hordered, hfetched', hfetched]
  exact hperm.trans h

/-- **`fetch`** needs no promise: its rows are the table's. -/
theorem fetch_spec (S : Setup ρ κ δ) (s : State ρ κ δ) :
    ∃ s', s.fetch S = some s' ∧ Holds s' ∧ Resolved S s' ∧ s'.ordered.Perm s'.table.iterators := by
  have hperm : (s.fetchOrdered S).ordered.Perm s.table.iterators :=
    (S.sorter.perm s.predicate s.table.rows).map Prod.fst
  have hin : ∀ it ∈ (s.fetchOrdered S).ordered, it ∈ (s.fetchOrdered S).table.iterators :=
    fun it hit => hperm.mem_iff.mp hit
  obtain ⟨s', hs', htable, hordered, hfetched, hresolved⟩ := refresh_spec (S := S) hin
  refine ⟨s', hs', ?_, hresolved, ?_⟩
  · rw [Holds, hordered, hfetched]
    exact hperm
  · rw [hordered, htable]
    exact hperm

/-- **`set_order`**, where its column is there. -/
theorem setOrder_spec (h : Holds s) (hin : ∀ it ∈ s.ordered, it ∈ s.table.iterators)
    {column : Option Nat} (ascending : Bool)
    (hresolves : (Action.setOrder column ascending : Action ρ).Resolves S) :
    ∃ s', s.setOrder S column ascending = some s' ∧ Holds s' ∧ Resolved S s' := by
  cases column with
  | none =>
    obtain ⟨s₁, hs₁, htable, hperm, hfetched⟩ :=
      setOrdered_spec (S := S) hin (S.hierarchicalLess fun _ _ => 0)
    obtain ⟨s', hs', hresult⟩ := reorder_spec (S := S) hin htable hperm hfetched h
    exact ⟨s', by simp only [setOrder, hs₁, Option.bind_eq_bind, Option.bind_some, hs'], hresult⟩
  | some column =>
    have hcolumn : S.columns[column]? = some S.columns[column] := List.getElem?_eq_getElem hresolves
    obtain ⟨s₁, hs₁, htable, hperm, hfetched⟩ :=
      applyColumn_spec (S := S) hin S.columns[column] ascending
    obtain ⟨s', hs', hresult⟩ := reorder_spec (S := S) hin htable hperm hfetched h
    refine ⟨s', ?_, hresult⟩
    simp only [setOrder, hcolumn, hs₁, Option.bind_eq_bind, Option.bind_some, hs']

end State

/-- **Every action that is permitted returns**, and the rows stay those of the last fetch. -/
theorem step_returns (S : Setup ρ κ δ) (s : State ρ κ δ) (a : Action ρ) (h : Holds s)
    (hpermitted : Permitted s a) : ∃ s', s.step S a = some s' ∧ Holds s' := by
  cases a with
  | change table => exact ⟨_, rfl, h⟩
  | fetch =>
    obtain ⟨s', hs', hholds, _⟩ := s.fetch_spec S
    exact ⟨s', hs', hholds⟩
  | setOrder column ascending =>
    by_cases hresolves : (Action.setOrder column ascending : Action ρ).Resolves S
    · obtain ⟨s', hs', hholds, _⟩ := State.setOrder_spec h hpermitted ascending hresolves
      exact ⟨s', hs', hholds⟩
    · cases column with
      | none => exact absurd trivial hresolves
      | some column =>
        have hcolumn : S.columns[column]? = none := List.getElem?_eq_none (Nat.le_of_not_lt hresolves)
        exact ⟨s, by simp only [State.step, State.setOrder, hcolumn], h⟩
  | track provider index =>
    obtain ⟨it, hit, hin⟩ := hpermitted
    obtain ⟨row, hrow, rfl⟩ := List.mem_map.mp hin
    have hrecord : s.table.deref row.1 = some row.2 := s.table.deref_iff.mpr hrow
    refine ⟨_, by
      simp only [State.step, State.track, hit, hrecord, Option.bind_eq_bind, Option.bind_some]
      rfl, ?_⟩
    exact h
  | release provider node =>
    obtain ⟨t, ht, rfl⟩ := List.mem_map.mp hpermitted
    have hlive : (s.trackables provider).any fun t' => t'.node == t.node :=
      List.any_eq_true.mpr ⟨t, ht, by simp⟩
    refine ⟨_, by simp only [State.step, State.release, hlive, if_true]; rfl, ?_⟩
    exact h

/-! ## Whole runs -/

omit [DecidableEq κ] in
theorem holds_construct (S : Setup ρ κ δ) (table : Table ρ) : Holds (State.construct S table) :=
  (S.sorter.perm _ table.rows).map Prod.fst

/-- What is owed after the keys have been looked up: the rows are those of the last fetch, every
    trackable of either provider follows its key in them, and those of one key agree. -/
structure Settled (S : Setup ρ κ δ) (s : State ρ κ δ) : Prop where
  rows : s.ordered.Perm s.fetched
  follows : ∀ p, ∀ t ∈ s.trackables p, Follows S s t
  agree : ∀ p p', ∀ t ∈ s.trackables p, ∀ t' ∈ s.trackables p', t.key = t'.key →
    t.currentIndex = t'.currentIndex

theorem settled_of_resolved {S : Setup ρ κ δ} {s : State ρ κ δ} (h : Holds s)
    (hresolved : Resolved S s) : Settled S s :=
  ⟨h, fun _ _ ht => hresolved.follows ht, fun _ _ _ ht _ ht' hkey => hresolved.agree ht ht' hkey⟩

/-- **Trackables follow their records.** Along any sequence of changes of the table, fetches,
    orders, tracking and releases in which rows are put in another order, or tracked, only while
    the records concerned are in the table: every action returns, and after every `fetch` and every
    `set_order` each trackable of the model and of the projection has the index of a row with its
    key, or npos exactly if there is none among the rows of the last fetch; after a `fetch`, exactly
    if there is none in the table.  Trackables of one key agree. -/
theorem trackables_follow (S : Setup ρ κ δ) (table : Table ρ) (as : List (Action ρ))
    (hpermitted : Along (State.step S) Permitted (State.construct S table) as) :
    (∃ s, run (State.step S) (State.construct S table) as = some s) ∧
      ∀ before a after, as = before ++ a :: after → a.Resolves S →
        ∃ s, run (State.step S) (State.construct S table) (before ++ [a]) = some s ∧ Settled S s ∧
          (a = .fetch → ∀ p, ∀ t ∈ s.trackables p, FollowsTable S s t) := by
  have hreturns := run_returns (P := Holds) (step_returns S)
  obtain ⟨s, hs, _⟩ := hreturns as _ (holds_construct S table) hpermitted
  refine ⟨⟨s, hs⟩, ?_⟩
  rintro before a after rfl hresolves
  obtain ⟨s₁, hs₁, _⟩ := run_append_eq_some.mp hs
  obtain ⟨hbefore, ha, _⟩ := along_append hpermitted hs₁
  obtain ⟨s₁', hs₁', hholds⟩ := hreturns before _ (holds_construct S table) hbefore
  cases hs₁.symm.trans hs₁'
  have hrun : ∀ s₂, s₁.step S a = some s₂ →
      run (State.step S) (State.construct S table) (before ++ [a]) = some s₂ := fun s₂ hs₂ =>
    run_append_eq_some.mpr ⟨s₁, hs₁, run_cons_eq_some.mpr ⟨s₂, hs₂, rfl⟩⟩
  cases a with
  | fetch =>
    obtain ⟨s₂, hs₂, hholds₂, hresolved, hall⟩ := s₁.fetch_spec S
    exact ⟨s₂, hrun s₂ hs₂, settled_of_resolved hholds₂ hresolved,
      fun _ p t ht => hresolved.followsTable hall ht⟩
  | setOrder column ascending =>
    obtain ⟨s₂, hs₂, hholds₂, hresolved⟩ := State.setOrder_spec hholds ha ascending hresolves
    exact ⟨s₂, hrun s₂ hs₂, settled_of_resolved hholds₂ hresolved,
      fun heq => by cases heq⟩
  | change table => exact hresolves.elim
  | track provider index => exact hresolves.elim
  | release provider node => exact hresolves.elim

/-! ## What `set_order` does not look at -/

/-- An insertion sort. -/
def insertionSorter (ρ : Type) : Sorter ρ where
  sort less rows := rows.insertionSort fun a b => less b.2 a.2 = false
  perm _ rows := List.perm_insertionSort _ rows

/-- Records that are their own keys, and no columns. -/
def plainSetup : Setup Nat Nat Nat where
  getKey := id
  columns := []
  hierarchicalLess := fun compare a b =>
    if compare a b ≠ 0 then decide (compare a b < 0) else decide (a < b)
  sorter := insertionSorter Nat

/-- A table of one record. -/
def oneRecord (it : Iterator) (record : Nat) : Table Nat := ⟨[(it, record)], List.nodup_singleton it⟩

/-- An empty table. -/
def noRecords : Table Nat := ⟨[], List.nodup_nil⟩

/-- A record goes, and is missed by the next fetch. -/
theorem trackables_follow_removed :
    ∃ s, run (State.step plainSetup) (State.construct plainSetup (oneRecord 0 5))
        [.track .model 0, .track .projection 0, .setOrder none true, .change noRecords, .fetch]
        = some s ∧
      (s.trackables .model).map Trackable.currentIndex = [none] := by
  have hpermitted : Along (State.step plainSetup) Permitted
      (State.construct plainSetup (oneRecord 0 5))
      [.track .model 0, .track .projection 0, .setOrder none true, .change noRecords, .fetch] := by
    refine ⟨⟨0, rfl, by decide⟩, fun s₁ hs₁ => ?_⟩
    cases hs₁
    refine ⟨⟨0, rfl, by decide⟩, fun s₂ hs₂ => ?_⟩
    cases hs₂
    refine ⟨(by decide : ∀ it ∈ [0], it ∈ [0]), fun s₃ hs₃ => ?_⟩
    cases hs₃
    refine ⟨fun it hit => absurd hit List.not_mem_nil, fun s₄ hs₄ => ?_⟩
    cases hs₄
    exact ⟨trivial, fun _ _ => trivial⟩
  obtain ⟨⟨s, hs⟩, _⟩ := trackables_follow plainSetup (oneRecord 0 5)
    [.track .model 0, .track .projection 0, .setOrder none true, .change noRecords, .fetch] hpermitted
  cases hs
  exact ⟨_, rfl, rfl⟩

/-- **`set_order` keeps the rows.** A record removed, missed by a fetch and put back: `set_order` leaves
    its trackable at npos though a record with its key is in the table again.  And where the record
    has gone since the fetch, `set_order` and `track` follow an iterator that is not the table's any
    more. -/
theorem set_order_keeps_rows :
    (∃ s, run (State.step plainSetup) (State.construct plainSetup (oneRecord 0 5))
        [.track .model 0, .change noRecords, .fetch, .change (oneRecord 9 5), .setOrder none true]
        = some s ∧
      (s.trackables .model).map Trackable.key = [5] ∧
      (s.trackables .model).map Trackable.currentIndex = [none] ∧ s.table.rows = [(9, 5)]) ∧
    run (State.step plainSetup) (State.construct plainSetup (oneRecord 0 5))
      [.change noRecords, .setOrder none true] = none ∧
    run (State.step plainSetup) (State.construct plainSetup (oneRecord 0 5))
      [.change noRecords, .track .model 0] = none :=
  ⟨⟨_, rfl, rfl, rfl, rfl⟩, rfl, rfl⟩

end MicroProfiler.TableModel
