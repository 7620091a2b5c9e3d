/-
  The nodes of a forest in the order of a walk through it.

  `lt` orders siblings.  Two nodes are compared by the paths that lead to them from their roots,
  lexicographically: at the first place where the paths part, the two nodes there are siblings.

  1. `lex_irrefl`, `lex_trans`, `lex_total` — a strict total order on a set gives one on the lists
     over the set.
  2. `Ascent` — every node's path is its parent's with the node added; then a node's descendants are
     the nodes whose paths extend its own (`Ascent.descends_iff`).
  3. `Precedes` — a strict total order on the nodes (`Ascent.precedes_total`) in which a node comes
     before its descendants, nothing comes between two nodes of a subtree but nodes of that subtree,
     and siblings are ordered by `lt`.

  Nothing here names the program.
-/
import MicroProfiler.Lib.ThreeWay
import Mathlib.Data.List.Lex
import Mathlib.Data.List.Nodup

namespace MicroProfiler.Lib

variable {T : Type}

/-! ## Lists over the set -/

section

variable {s : Set T} {lt : T → T → Prop} (h : StrictTotalOn s lt)

include h

/-- No list is less than itself. -/
theorem StrictTotalOn.lex_irrefl : ∀ l : List T, (∀ a ∈ l, a ∈ s) → ¬ List.Lex lt l l := by
  intro l
  induction l with
  | nil => intro _ hlex; cases hlex
  | cons a l ih =>
    intro hl hlex
    cases hlex with
    | rel hlt => exact h.irrefl a (hl a List.mem_cons_self) hlt
    | cons hlex => exact ih (fun x hx => hl x (List.mem_cons_of_mem a hx)) hlex

/-- Transitivity: the first of the two places where the lists part decides. -/
theorem StrictTotalOn.lex_trans : ∀ l m n : List T, (∀ a ∈ l, a ∈ s) → (∀ a ∈ m, a ∈ s) →
    (∀ a ∈ n, a ∈ s) → List.Lex lt l m → List.Lex lt m n → List.Lex lt l n := by
  intro l
  induction l with
  | nil =>
    -- an end comes before everything
    intro m n _ _ _ _ hmn
    cases hmn <;> exact .nil
  | cons a l ih =>
    intro m n hl hm hn hlm hmn
    have ha := hl a List.mem_cons_self
    cases hlm with
    -- the first two part here
    | @rel _ _ b m hab =>
      have hb := hm b List.mem_cons_self
      cases hmn with
      | @rel _ _ c n hbc => exact .rel (h.trans a ha b hb c (hn c List.mem_cons_self) hab hbc)
      | cons _ => exact .rel hab
    -- they go on together
    | @cons _ _ m hlm =>
      cases hmn with
      | rel hac => exact .rel hac
      | @cons _ _ n hmn =>
        refine .cons (ih m n ?_ ?_ ?_ hlm hmn)
        · exact fun x hx => hl x (List.mem_cons_of_mem a hx)
        · exact fun x hx => hm x (List.mem_cons_of_mem a hx)
        · exact fun x hx => hn x (List.mem_cons_of_mem a hx)

/-- Lists that differ part somewhere, or one ends in the other. -/
theorem StrictTotalOn.lex_total : ∀ l m : List T, (∀ a ∈ l, a ∈ s) → (∀ a ∈ m, a ∈ s) → l ≠ m →
    List.Lex lt l m ∨ List.Lex lt m l := by
  intro l
  induction l with
  | nil =>
    intro m _ _ hne
    cases m with
    | nil => exact absurd rfl hne
    | cons b m => exact Or.inl .nil
  | cons a l ih =>
    intro m hl hm hne
    cases m with
    | nil => exact Or.inr .nil
    | cons b m =>
      by_cases hab : a = b
      · subst hab
        have hrest := ih m (fun x hx => hl x (List.mem_cons_of_mem a hx))
          (fun x hx => hm x (List.mem_cons_of_mem a hx)) (fun heq => hne (by rw [heq]))
        exact hrest.imp .cons .cons
      · exact (h.total a (hl a List.mem_cons_self) b (hm b List.mem_cons_self) hab).imp .rel .rel

/-- **Between two extensions of a list** there are only extensions of it. -/
theorem StrictTotalOn.lex_between : ∀ (p x y l : List T), (∀ a ∈ p, a ∈ s) → (∀ a ∈ l, a ∈ s) →
    List.Lex lt (p ++ x) l → List.Lex lt l (p ++ y) → p <+: l := by
  intro p
  induction p with
  | nil => intro x y l _ _ _ _; exact List.nil_prefix
  | cons a p ih =>
    intro x y l hp hl hxl hly
    have ha := hp a List.mem_cons_self
    cases hxl with
    -- the list leaves the extended one: it is past the second then, or before the first
    | @rel _ _ b l hab =>
      have hb := hl b List.mem_cons_self
      cases hly with
      | rel hba => exact absurd hba (h.asymm ha hb hab)
      | cons _ => exact absurd hab (h.irrefl a ha)
    | @cons _ _ l hxl =>
      cases hly with
      | rel haa => exact absurd haa (h.irrefl a ha)
      | cons hly =>
        refine (List.prefix_cons_inj a).mpr (ih x y l ?_ ?_ hxl hly)
        · exact fun z hz => hp z (List.mem_cons_of_mem a hz)
        · exact fun z hz => hl z (List.mem_cons_of_mem a hz)

/-- Where lists part at their last elements, these decide. -/
theorem StrictTotalOn.lex_append_singleton (a b : T) : ∀ p : List T,
    (∀ x ∈ p, x ∈ s) → (List.Lex lt (p ++ [a]) (p ++ [b]) ↔ lt a b) := by
  intro p
  induction p with
  | nil =>
    intro _
    exact List.lex_singleton_iff a b
  | cons c p ih =>
    intro hp
    rw [List.cons_append, List.cons_append, ← ih fun x hx => hp x (List.mem_cons_of_mem c hx)]
    constructor
    · intro hlex
      cases hlex with
      | rel hcc => exact absurd hcc (h.irrefl c (hp c List.mem_cons_self))
      | cons hlex => exact hlex
    · exact .cons

end

/-! ## Forests -/

/-- `b` is `a` or below it. -/
inductive Descends (parent : T → Option T) (a : T) : T → Prop
  | refl : Descends parent a a
  | step {b p : T} : parent b = some p → Descends parent a p → Descends parent a b

/-- Parents are in the set, and paths lead through them. -/
structure Ascent (s : Set T) (parent : T → Option T) (path : T → List T) : Prop where
  closed : ∀ a ∈ s, ∀ p, parent a = some p → p ∈ s
  root : ∀ a ∈ s, parent a = none → path a = [a]
  child : ∀ a ∈ s, ∀ p, parent a = some p → path a = path p ++ [a]

section

variable {s : Set T} {parent : T → Option T} {path : T → List T} (h : Ascent s parent path)

include h

/-- **A path ends with its node.** -/
theorem Ascent.exists_init {a : T} (ha : a ∈ s) : ∃ p, path a = p ++ [a] := by
  cases hparent : parent a with
  | none => exact ⟨[], h.root a ha hparent⟩
  | some p => exact ⟨path p, h.child a ha p hparent⟩

/-- A path names its node. -/
theorem Ascent.path_inj {a b : T} (ha : a ∈ s) (hb : b ∈ s) (heq : path a = path b) : a = b := by
  obtain ⟨p, hp⟩ := h.exists_init ha
  obtain ⟨q, hq⟩ := h.exists_init hb
  rw [hp, hq] at heq
  exact List.singleton_inj.mp (List.append_inj_right' heq rfl)

/-- **Up a path**: what holds of roots and passes from parents to children holds everywhere. -/
theorem Ascent.induction {P : T → Prop} (hroot : ∀ a ∈ s, parent a = none → P a)
    (hchild : ∀ a ∈ s, ∀ p, parent a = some p → P p → P a) : ∀ a ∈ s, P a := by
  -- by the length of the path, which is one more than the parent's
  have hlength : ∀ n, ∀ a ∈ s, (path a).length ≤ n → P a := by
    intro n
    induction n with
    | zero =>
      intro a ha hle
      obtain ⟨p, hp⟩ := h.exists_init ha
      rw [hp, List.length_append] at hle
      exact absurd hle (by simp)
    | succ n ih =>
      intro a ha hle
      cases hparent : parent a with
      | none => exact hroot a ha hparent
      | some p =>
        rw [h.child a ha p hparent, List.length_append, List.length_singleton] at hle
        exact hchild a ha p hparent (ih p (h.closed a ha p hparent) (by omega))
  exact fun a ha => hlength _ a ha (Nat.le_refl _)

/-- Every node of a path is in the set. -/
theorem Ascent.path_subset : ∀ a ∈ s, ∀ x ∈ path a, x ∈ s := by
  refine h.induction ?_ ?_
  · intro a ha hparent x hx
    rw [h.root a ha hparent, List.mem_singleton] at hx
    exact hx ▸ ha
  · intro a ha p hparent ih x hx
    rw [h.child a ha p hparent, List.mem_append, List.mem_singleton] at hx
    rcases hx with hx | rfl
    · exact ih x hx
    · exact ha

/-- **A subtree** is the nodes whose paths extend its root's. -/
theorem Ascent.descends_iff {a : T} (ha : a ∈ s) : ∀ b ∈ s,
    Descends parent a b ↔ path a <+: path b := by
  have hforward : ∀ b, b ∈ s → Descends parent a b → path a <+: path b := by
    intro b hb hdescends
    induction hdescends with
    | refl => exact List.prefix_rfl
    | @step b p hparent _ ih =>
      rw [h.child b hb p hparent]
      exact (ih (h.closed b hb p hparent)).trans (List.prefix_append _ _)
  -- a proper prefix of a path is a prefix of the parent's
  have hbackward : ∀ b ∈ s, path a <+: path b → Descends parent a b := by
    refine h.induction ?_ ?_
    · intro b hb hparent hskipped
      obtain ⟨p, hp⟩ := h.exists_init ha
      have hle := hskipped.length_le
      rw [h.root b hb hparent, hp, List.length_append] at hle
      have hsame := hskipped.eq_of_length_le (by rw [h.root b hb hparent, hp]; simp)
      exact h.path_inj ha hb hsame ▸ .refl
    · intro b hb p hparent ih hskipped
      rw [h.child b hb p hparent, List.prefix_concat_iff] at hskipped
      rcases hskipped with hsame | hskipped
      · rw [← h.child b hb p hparent] at hsame
        exact h.path_inj ha hb hsame ▸ .refl
      · exact .step hparent (ih hskipped)
  exact fun b hb => ⟨hforward b hb, hbackward b hb⟩

end

/-! ## The order of the nodes -/

/-- The path of `a` comes before the path of `b`. -/
def Precedes (lt : T → T → Prop) (path : T → List T) (a b : T) : Prop :=
  List.Lex lt (path a) (path b)

section

variable {s : Set T} {lt : T → T → Prop} {parent : T → Option T} {path : T → List T}
  (h : Ascent s parent path) (hlt : StrictTotalOn s lt)

include h hlt

/-- **A strict total order.** -/
theorem Ascent.precedes_total : StrictTotalOn s (Precedes lt path) where
  irrefl := fun a ha => hlt.lex_irrefl _ (h.path_subset a ha)
  trans := fun a ha b hb c hc => hlt.lex_trans _ _ _ (h.path_subset a ha) (h.path_subset b hb)
    (h.path_subset c hc)
  total := fun a ha b hb hne => hlt.lex_total _ _ (h.path_subset a ha) (h.path_subset b hb)
    fun heq => hne (h.path_inj ha hb heq)

omit hlt in
/-- **A node comes before its descendants.** -/
theorem Ascent.precedes_of_descends {a b : T} (ha : a ∈ s) (hb : b ∈ s)
    (hdescends : Descends parent a b) (hne : a ≠ b) : Precedes lt path a b := by
  obtain ⟨rest, hrest⟩ := (h.descends_iff ha b hb).mp hdescends
  unfold Precedes
  rw [← hrest]
  -- the descendant's path goes on, so the shorter one comes first
  cases rest with
  | nil =>
    rw [List.append_nil] at hrest
    exact absurd (h.path_inj ha hb hrest) hne
  | cons x rest =>
    have hext := List.Lex.append_left lt (.nil (a := x) (l := rest)) (path a)
    rwa [List.append_nil] at hext

/-- **Subtrees are contiguous.** -/
theorem Ascent.descends_between {root a b c : T} (hroot : root ∈ s) (ha : a ∈ s) (hb : b ∈ s)
    (hc : c ∈ s) (hra : Descends parent root a) (hrc : Descends parent root c)
    (hab : Precedes lt path a b) (hbc : Precedes lt path b c) : Descends parent root b := by
  obtain ⟨x, hx⟩ := (h.descends_iff hroot a ha).mp hra
  obtain ⟨y, hy⟩ := (h.descends_iff hroot c hc).mp hrc
  refine (h.descends_iff hroot b hb).mpr ?_
  -- both paths extend the root's, so whatever lies between does as well
  refine hlt.lex_between _ x y _ (h.path_subset root hroot) (h.path_subset b hb) ?_ ?_
  · rw [hx]; exact hab
  · rw [hy]; exact hbc

/-- **Siblings are ordered by `lt`.** -/
theorem Ascent.precedes_siblings {a b : T} (ha : a ∈ s) (hb : b ∈ s)
    (hsiblings : parent a = parent b) : Precedes lt path a b ↔ lt a b := by
  unfold Precedes
  -- two roots, or two children of one node
  cases hparent : parent a with
  | none =>
    rw [h.root a ha hparent, h.root b hb (hsiblings ▸ hparent)]
    exact List.lex_singleton_iff a b
  | some p =>
    rw [h.child a ha p hparent, h.child b hb p (hsiblings ▸ hparent)]
    exact hlt.lex_append_singleton a b _ (h.path_subset p (h.closed a ha p hparent))

end

/-! ## A sorted list -/

/-- `data` holds `items`, none of them before an earlier one: what a sort by `less` leaves. -/
structure SortedBy (less : T → T → Prop) (items data : List T) : Prop where
  perm : data.Perm items
  sorted : data.Pairwise fun a b => ¬ less b a

/-- Earlier in a sorted list without repetitions is less. -/
theorem SortedBy.less_of_lt {less : T → T → Prop} {items data : List T}
    (h : SortedBy less items data) (hnodup : items.Nodup)
    (htotal : StrictTotalOn {a | a ∈ items} less) {i j : Nat} {a b : T} (hij : i < j)
    (hi : data[i]? = some a) (hj : data[j]? = some b) : less a b := by
  obtain ⟨hlti, rfl⟩ := List.getElem?_eq_some_iff.mp hi
  obtain ⟨hltj, rfl⟩ := List.getElem?_eq_some_iff.mp hj
  have ha : data[i] ∈ items := h.perm.mem_iff.mp (List.getElem_mem hlti)
  have hb : data[j] ∈ items := h.perm.mem_iff.mp (List.getElem_mem hltj)
  have hne : data[i] ≠ data[j] := fun heq =>
    absurd ((List.Nodup.getElem_inj_iff (h.perm.nodup_iff.mpr hnodup)).mp heq) (Nat.ne_of_lt hij)
  exact (htotal.total _ ha _ hb hne).resolve_right
    (List.pairwise_iff_getElem.mp h.sorted i j hlti hltj hij)

end MicroProfiler.Lib
