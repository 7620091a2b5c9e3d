/-
  Forests given by parent numbers.

  A node has a number, the number of its parent (`0` for a root) and a label.  `Forest` asks that
  numbers are unique and positive, that siblings differ in their labels, and that a parent has a
  smaller number than its children; `PathTo` follows the labels down from a root.

  1. Paths and numbers name each other: `Forest.path_eq`, `Forest.id_eq`; what holds of the roots
     and passes from parent to child holds of every node (`Forest.rootward`).
  2. A node comes (`Forest.add`), or nodes change in what is neither number, parent nor label
     (`Forest.reshape`, `pathTo_reshape`).

  Nothing here names the program.
-/
import Mathlib.Data.List.Basic

namespace MicroProfiler.Lib

variable {N L : Type}

/-- How a node says who it is and where it belongs. -/
structure Linkage (N L : Type) where
  id : N → Nat
  parent : N → Nat
  label : N → L

/-- The labels from a root down lead to the number. -/
inductive PathTo (g : Linkage N L) (nodes : List N) : List L → Nat → Prop
  /-- `0` is above the roots -/
  | root : PathTo g nodes [] 0
  /-- a path to the parent, and the node's own label -/
  | child {p : List L} {n : N} : PathTo g nodes p (g.parent n) → n ∈ nodes →
      PathTo g nodes (p ++ [g.label n]) (g.id n)

/-- The invariant of such a list of nodes. -/
structure Forest (g : Linkage N L) (nodes : List N) : Prop where
  /-- a number names a node -/
  ids : ∀ n ∈ nodes, ∀ m ∈ nodes, g.id n = g.id m → n = m
  positive : ∀ n ∈ nodes, 0 < g.id n
  /-- a label names a child -/
  keys : ∀ n ∈ nodes, ∀ m ∈ nodes, g.parent n = g.parent m → g.label n = g.label m → n = m
  /-- which makes the forest well founded -/
  parents : ∀ n ∈ nodes, g.parent n = 0 ∨ ∃ m ∈ nodes, g.id m = g.parent n ∧ g.id m < g.id n

variable {g : Linkage N L} {nodes : List N}

/-- Paths remain when nodes are added, or changed in what no path is made of. -/
theorem PathTo.mono {nodes' : List N} (h : ∀ n ∈ nodes, ∃ m ∈ nodes', g.id m = g.id n ∧
    g.parent m = g.parent n ∧ g.label m = g.label n) {p : List L} {i : Nat}
    (hp : PathTo g nodes p i) : PathTo g nodes' p i := by
  induction hp with
  | root => exact .root
  | child _ hn ih =>
    obtain ⟨m, hm, hid, hparent, hlabel⟩ := h _ hn
    rw [← hid, ← hlabel]
    rw [← hparent] at ih
    exact .child ih hm

/-- Only the empty path leads to `0`. -/
theorem Forest.path_zero (h : Forest g nodes) {p : List L} {i : Nat} (hp : PathTo g nodes p i)
    (hi : i = 0) : p = [] := by
  cases hp with
  | root => rfl
  | child _ hn => exact absurd hi (Nat.pos_iff_ne_zero.mp (h.positive _ hn))

/-- **A number has one path.** -/
theorem Forest.path_eq (h : Forest g nodes) {p : List L} {i : Nat} (hp : PathTo g nodes p i) :
    ∀ {q : List L} {j : Nat}, PathTo g nodes q j → i = j → p = q := by
  induction hp with
  | root =>
    intro q j hq hij
    exact (h.path_zero hq hij.symm).symm
  | child _ hn ih =>
    intro q j hq hij
    cases hq with
    | root => exact absurd hij (Nat.pos_iff_ne_zero.mp (h.positive _ hn))
    | child hq hm =>
      -- one number is one node: the paths end in the same label, below the same parent
      obtain rfl := h.ids _ hn _ hm hij
      rw [ih hq rfl]

/-- **A path leads to one number.** -/
theorem Forest.id_eq (h : Forest g nodes) {p : List L} {i : Nat} (hp : PathTo g nodes p i) :
    ∀ {q : List L} {j : Nat}, PathTo g nodes q j → p = q → i = j := by
  induction hp with
  | root =>
    intro q j hq hpq
    cases hq with
    | root => rfl
    | child => exact absurd hpq.symm (by simp)
  | child _ hn ih =>
    intro q j hq hpq
    cases hq with
    | root => exact absurd hpq (by simp)
    | child hq hm =>
      -- siblings are told apart by their labels
      obtain ⟨hpath, hlabel⟩ := List.append_inj' hpq rfl
      rw [h.keys _ hn _ hm (ih hq hpath) (List.singleton_inj.mp hlabel)]

/-- **Induction from the roots down.**  A parent's number is smaller than its child's, so the
    induction is on the number. -/
theorem Forest.rootward (h : Forest g nodes) {P : N → Prop}
    (hroot : ∀ n ∈ nodes, g.parent n = 0 → P n)
    (hchild : ∀ n ∈ nodes, ∀ m ∈ nodes, g.id m = g.parent n → P m → P n) :
    ∀ n ∈ nodes, P n := by
  intro n hn
  induction hi : g.id n using Nat.strongRecOn generalizing n with
  | ind i ih =>
    rcases h.parents n hn with hzero | ⟨m, hm, hid, hlt⟩
    · exact hroot n hn hzero
    · exact hchild n hn m hm hid (ih (g.id m) (hi ▸ hlt) m hm rfl)

/-- A node that may join: numbered after all others, under a node there is, with a new label. -/
structure Joining (g : Linkage N L) (nodes : List N) (n : N) : Prop where
  later : ∀ m ∈ nodes, g.id m < g.id n
  positive : 0 < g.id n
  parent : g.parent n = 0 ∨ ∃ m ∈ nodes, g.id m = g.parent n
  label : ∀ m ∈ nodes, g.parent m = g.parent n → g.label m ≠ g.label n

/-- Whatever has a parent has one with a smaller number than a joining node. -/
theorem Forest.parent_lt (h : Forest g nodes) {n m : N} (hn : Joining g nodes n) (hm : m ∈ nodes) :
    g.parent m < g.id n := by
  rcases h.parents m hm with hzero | ⟨k, hk, hid, _⟩
  · rw [hzero]; exact hn.positive
  · rw [← hid]; exact hn.later k hk

/-- **A node comes.** In each clause the two nodes are old ones, or one of them is the new one,
    which is numbered after all. -/
theorem Forest.add (h : Forest g nodes) {n : N} (hn : Joining g nodes n) :
    Forest g (nodes ++ [n]) where
  ids := by
    intro a ha b hb heq
    rcases List.mem_append.mp ha with ha | ha <;> rcases List.mem_append.mp hb with hb | hb
    · exact h.ids a ha b hb heq
    · rw [List.mem_singleton.mp hb] at heq
      exact absurd heq (Nat.ne_of_lt (hn.later a ha))
    · rw [List.mem_singleton.mp ha] at heq
      exact absurd heq.symm (Nat.ne_of_lt (hn.later b hb))
    · rw [List.mem_singleton.mp ha, List.mem_singleton.mp hb]
  positive := by
    intro a ha
    rcases List.mem_append.mp ha with ha | ha
    · exact h.positive a ha
    · rw [List.mem_singleton.mp ha]; exact hn.positive
  keys := by
    intro a ha b hb hparent hlabel
    rcases List.mem_append.mp ha with ha | ha <;> rcases List.mem_append.mp hb with hb | hb
    · exact h.keys a ha b hb hparent hlabel
    · rw [List.mem_singleton.mp hb] at hparent hlabel
      exact absurd hlabel (hn.label a ha hparent)
    · rw [List.mem_singleton.mp ha] at hparent hlabel
      exact absurd hlabel.symm (hn.label b hb hparent.symm)
    · rw [List.mem_singleton.mp ha, List.mem_singleton.mp hb]
  parents := by
    intro a ha
    rcases List.mem_append.mp ha with ha | ha
    · rcases h.parents a ha with hzero | ⟨m, hm, hid, hlt⟩
      · exact Or.inl hzero
      · exact Or.inr ⟨m, List.mem_append_left _ hm, hid, hlt⟩
    · rw [List.mem_singleton.mp ha]
      -- the new node's parent is an old one, so its number is smaller
      rcases hn.parent with hzero | ⟨m, hm, hid⟩
      · exact Or.inl hzero
      · exact Or.inr ⟨m, List.mem_append_left _ hm, hid, hn.later m hm⟩

section

variable {f : N → N} (hf : ∀ n ∈ nodes, g.id (f n) = g.id n ∧ g.parent (f n) = g.parent n ∧
  g.label (f n) = g.label n)

include hf

/-- **Nodes change**: in no clause does anything else count. -/
theorem Forest.reshape (h : Forest g nodes) : Forest g (nodes.map f) where
  ids := by
    intro x hx y hy heq
    obtain ⟨a, ha, rfl⟩ := List.mem_map.mp hx
    obtain ⟨b, hb, rfl⟩ := List.mem_map.mp hy
    rw [(hf a ha).1, (hf b hb).1] at heq
    rw [h.ids a ha b hb heq]
  positive := by
    intro x hx
    obtain ⟨a, ha, rfl⟩ := List.mem_map.mp hx
    rw [(hf a ha).1]
    exact h.positive a ha
  keys := by
    intro x hx y hy hparent hlabel
    obtain ⟨a, ha, rfl⟩ := List.mem_map.mp hx
    obtain ⟨b, hb, rfl⟩ := List.mem_map.mp hy
    rw [(hf a ha).2.1, (hf b hb).2.1] at hparent
    rw [(hf a ha).2.2, (hf b hb).2.2] at hlabel
    rw [h.keys a ha b hb hparent hlabel]
  parents := by
    intro x hx
    obtain ⟨a, ha, rfl⟩ := List.mem_map.mp hx
    rw [(hf a ha).1, (hf a ha).2.1]
    rcases h.parents a ha with hzero | ⟨m, hm, hid, hlt⟩
    · exact Or.inl hzero
    · exact Or.inr ⟨f m, List.mem_map_of_mem hm, by rw [(hf m hm).1]; exact ⟨hid, hlt⟩⟩

theorem pathTo_reshape {p : List L} {i : Nat} :
    PathTo g (nodes.map f) p i ↔ PathTo g nodes p i := by
  constructor
  · intro hp
    refine hp.mono ?_
    intro n hn
    obtain ⟨m, hm, rfl⟩ := List.mem_map.mp hn
    obtain ⟨hid, hparent, hlabel⟩ := hf m hm
    exact ⟨m, hm, hid.symm, hparent.symm, hlabel.symm⟩
  · intro hp
    exact hp.mono fun n hn => ⟨f n, List.mem_map_of_mem hn, hf n hn⟩

end

end MicroProfiler.Lib
