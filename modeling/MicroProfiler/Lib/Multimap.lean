/-
  Node-based multimaps with stable iterators: `std::unordered_multimap` and `std::multimap`.

  A node keeps its identity from the insertion to the erasure, whatever happens to other nodes, so
  an iterator is a node's `id`.  Two things are left open by the containers' contracts and are
  pinned here to one admissible choice: ids count up, and a hashed container lists its nodes in
  order of insertion.  Nothing below says more about a hashed container's order than that it is
  some permutation.

  1. `place` — where a `Discipline` puts a new node: at the end, or at the upper bound of its key.
  2. `Multimap` — nodes with distinct ids; `insert`, `erase` (by iterator), `equalRange`.
  3. Insertion adds one node (`nodes_insert_perm`) and keeps an ordered container sorted
     (`Sorted.insert`).

  Nothing here names the program.
-/
import Mathlib.Data.List.Perm.Basic
import Mathlib.Data.List.Nodup

namespace MicroProfiler.Lib

variable {K V : Type}

/-- A comparator: a strict partial order, as a decision procedure. -/
structure KeyOrder (K : Type) where
  less : K → K → Bool
  asymm : ∀ {a b}, less a b = true → less b a = false
  trans : ∀ {a b c}, less a b = true → less b c = true → less a c = true

/-- How a container places its nodes. -/
inductive Discipline (K : Type) where
  /-- in buckets: the order says nothing -/
  | hashed
  /-- by the keys -/
  | ordered (order : KeyOrder K)

/-- An element; `id` is what an iterator to it holds. -/
structure Node (K V : Type) where
  id : Nat
  key : K
  value : V
deriving DecidableEq, Repr

/-- Before the first node whose key is greater. -/
def upperBound (order : KeyOrder K) (n : Node K V) : List (Node K V) → List (Node K V)
  | [] => [n]
  | m :: ns => if order.less n.key m.key then n :: m :: ns else m :: upperBound order n ns

/-- The nodes with a new one in its place. -/
def place : Discipline K → Node K V → List (Node K V) → List (Node K V)
  | .hashed, n, ns => ns ++ [n]
  | .ordered order, n, ns => upperBound order n ns

/-- Wherever it goes, the node is one more. -/
theorem upperBound_perm (order : KeyOrder K) (n : Node K V) :
    ∀ ns : List (Node K V), (upperBound order n ns).Perm (n :: ns) := by
  intro ns
  induction ns with
  | nil => exact List.Perm.refl _
  | cons m ns ih =>
    unfold upperBound
    split
    · exact List.Perm.refl _
    · exact (ih.cons m).trans (List.Perm.swap n m ns)

/-- So for either container. -/
theorem place_perm (d : Discipline K) (n : Node K V) (ns : List (Node K V)) :
    (place d n ns).Perm (n :: ns) := by
  cases d with
  | hashed => exact List.perm_append_singleton n ns
  | ordered order => exact upperBound_perm order n ns

/-! ## The container -/

/-- Nodes with distinct ids, all below the next one to be given. -/
structure Multimap (K V : Type) where
  nodes : List (Node K V)
  nextId : Nat
  ids_nodup : (nodes.map Node.id).Nodup
  ids_lt : ∀ n ∈ nodes, n.id < nextId

namespace Multimap

/-- No nodes, and no ids given. -/
def empty : Multimap K V := ⟨[], 0, List.nodup_nil, fun _ h => absurd h List.not_mem_nil⟩

/-- `insert`; the iterator returned is the old `nextId`. -/
def insert (m : Multimap K V) (d : Discipline K) (key : K) (value : V) : Multimap K V where
  nodes := place d ⟨m.nextId, key, value⟩ m.nodes
  nextId := m.nextId + 1
  ids_nodup := by
    have hperm := (place_perm d ⟨m.nextId, key, value⟩ m.nodes).map Node.id
    refine hperm.nodup_iff.mpr (List.nodup_cons.mpr ⟨?_, m.ids_nodup⟩)
    -- the new id is above all others
    intro hmem
    obtain ⟨n, hn, hid⟩ := List.mem_map.mp hmem
    exact absurd (m.ids_lt n hn) (by rw [hid]; exact Nat.lt_irrefl _)
  ids_lt := by
    intro n hn
    rcases List.mem_cons.mp ((place_perm d _ m.nodes).mem_iff.mp hn) with rfl | hn
    · exact Nat.lt_succ_self _
    · exact Nat.lt_succ_of_lt (m.ids_lt n hn)

/-- `erase` of an iterator. -/
def erase (m : Multimap K V) (id : Nat) : Multimap K V where
  nodes := m.nodes.filter fun n => n.id ≠ id
  nextId := m.nextId
  ids_nodup := m.ids_nodup.sublist (List.filter_sublist.map _)
  ids_lt := fun n hn => m.ids_lt n (List.mem_of_mem_filter hn)

/-- `equal_range`. -/
def equalRange [DecidableEq K] (m : Multimap K V) (key : K) : List (Node K V) :=
  m.nodes.filter fun n => n.key = key

/-- Insertion, seen as a permutation. -/
theorem nodes_insert_perm (m : Multimap K V) (d : Discipline K) (key : K) (value : V) :
    (m.insert d key value).nodes.Perm (⟨m.nextId, key, value⟩ :: m.nodes) :=
  place_perm d _ m.nodes

/-- Erasing the iterator of a node whose value occurs once erases that value. -/
theorem nodes_erase_of_mem [DecidableEq V] (m : Multimap K V)
    (hvalues : (m.nodes.map Node.value).Nodup) {n : Node K V} (hn : n ∈ m.nodes) :
    (m.erase n.id).nodes = m.nodes.filter fun x => x.value ≠ n.value := by
  show m.nodes.filter _ = _
  apply List.filter_congr
  intro x hx
  -- one id is one node, and so is one value
  have hiff : x.id = n.id ↔ x.value = n.value := by
    constructor
    · intro h; rw [List.inj_on_of_nodup_map m.ids_nodup hx hn h]
    · intro h; rw [List.inj_on_of_nodup_map hvalues hx hn h]
  simp only [ne_eq, hiff]

/-- No node is followed by one with a smaller key. -/
def Sorted (order : KeyOrder K) (m : Multimap K V) : Prop :=
  m.nodes.Pairwise fun a b => order.less b.key a.key = false

/-- Nothing is out of order. -/
theorem sorted_empty (order : KeyOrder K) : Sorted order (empty : Multimap K V) :=
  List.Pairwise.nil

/-- Putting a node before the first greater one keeps a list sorted. By induction on the list. -/
theorem upperBound_pairwise (order : KeyOrder K) (n : Node K V) :
    ∀ ns : List (Node K V), ns.Pairwise (fun a b => order.less b.key a.key = false) →
      (upperBound order n ns).Pairwise fun a b => order.less b.key a.key = false := by
  intro ns
  induction ns with
  | nil => intro _; exact List.pairwise_singleton _ _
  | cons m ns ih =>
    intro h
    obtain ⟨hm, hns⟩ := List.pairwise_cons.mp h
    unfold upperBound
    split
    next hless =>
      refine List.pairwise_cons.mpr ⟨?_, h⟩
      intro x hx
      rcases List.mem_cons.mp hx with rfl | hx
      · exact order.asymm hless
      · -- a later key below the new one would be below `m`'s
        by_contra hcon
        rw [Bool.not_eq_false] at hcon
        have := order.trans hcon hless
        rw [hm x hx] at this
        cases this
    next hless =>
      refine List.pairwise_cons.mpr ⟨?_, ih hns⟩
      intro x hx
      rcases List.mem_cons.mp ((upperBound_perm order n ns).mem_iff.mp hx) with rfl | hx
      · exact Bool.not_eq_true _ |>.mp hless
      · exact hm x hx

/-- **Inserting at the upper bound keeps the order.** -/
theorem Sorted.insert {order : KeyOrder K} {m : Multimap K V} (h : Sorted order m) (key : K)
    (value : V) : Sorted order (m.insert (.ordered order) key value) :=
  upperBound_pairwise order _ m.nodes h

/-- Taking a node out does, too. -/
theorem Sorted.erase {order : KeyOrder K} {m : Multimap K V} (h : Sorted order m) (id : Nat) :
    Sorted order (m.erase id) := h.sublist List.filter_sublist

end Multimap

end MicroProfiler.Lib
