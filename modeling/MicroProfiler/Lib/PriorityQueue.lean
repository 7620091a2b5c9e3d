/-
  Priority queues: the contract of `std::priority_queue`.

  Elements are compared by a strict weak order `less`; `top?` is an element that is less than no
  other, `pop` takes it out, `emplace` puts one in.  Here the elements are kept sorted, and the
  structure carries the proof; of elements equal for `less`, one put in later comes out first, which
  no caller may rely on.

  Nothing here names the program.
-/
import Mathlib.Data.List.Sort
import Mathlib.Order.Defs.Unbundled

namespace MicroProfiler.Lib

/-- A priority queue, greatest element first. -/
structure PriorityQueue (T : Type) (less : T → T → Prop) where
  items : List T
  sorted : items.Pairwise fun a b => ¬ less a b

namespace PriorityQueue

variable {T : Type} {less : T → T → Prop}

/-- The queue with nothing in it: sorted for want of elements. -/
def empty : PriorityQueue T less := ⟨[], .nil⟩

/-- The element to come out next; `none` of an empty queue, where the source may not ask. -/
def top? (q : PriorityQueue T less) : Option T := q.items.head?

/-- The queue without its top; what is left of a sorted list is sorted. -/
def pop (q : PriorityQueue T less) : PriorityQueue T less := ⟨q.items.tail, q.sorted.tail⟩

section Emplace

variable [IsStrictWeakOrder T less]

/-- Not to be less is transitive, and any two are so related: what sorted insertion asks for. -/
instance : IsTrans T fun a b => ¬ less a b where
  trans a b c hab hbc hac := by
    have hba : ¬ less b a := fun h => hbc (IsTrans.trans b a c h hac)
    have hcb : ¬ less c b := fun h => hab (IsTrans.trans a c b hac h)
    exact (IsStrictWeakOrder.incomp_trans a b c ⟨hab, hba⟩ ⟨hbc, hcb⟩).1 hac

instance : Std.Total fun a b : T => ¬ less a b where
  total _ _ := or_iff_not_imp_left.mpr fun h => asymm (not_not.mp h)

variable [DecidableRel less]

/-- Put `x` in, before the elements that are not greater: the structure asks for the proof that the
    items stay sorted, and sorted insertion gives it. -/
def emplace (q : PriorityQueue T less) (x : T) : PriorityQueue T less :=
  ⟨q.items.orderedInsert (fun a b => ¬ less a b) x, q.sorted.orderedInsert x q.items⟩

/-- Nothing is lost and nothing else comes in: the counterpart of `mem_emplace` where multiplicities
    matter. -/
theorem perm_emplace (q : PriorityQueue T less) (x : T) : (q.emplace x).items.Perm (x :: q.items) :=
  List.perm_orderedInsert _ x q.items

/-- What callers rewrite membership with. -/
@[simp] theorem mem_emplace {q : PriorityQueue T less} {x y : T} :
    y ∈ (q.emplace x).items ↔ y = x ∨ y ∈ q.items :=
  List.mem_orderedInsert _

end Emplace

/-- `top?` fails on the empty queue only. -/
theorem top?_eq_none {q : PriorityQueue T less} : q.top? = none ↔ q.items = [] :=
  List.head?_eq_none_iff

/-- A queue with a top is that top and what `pop` leaves: how a run that pops is followed. -/
theorem items_of_top? {q : PriorityQueue T less} {x : T} (h : q.top? = some x) :
    q.items = x :: q.pop.items :=
  List.eq_cons_of_mem_head? h

/-- The top is one of the elements, so whatever holds of all of them holds of it. -/
theorem mem_of_top? {q : PriorityQueue T less} {x : T} (h : q.top? = some x) : x ∈ q.items :=
  List.mem_of_head? h

/-- **Nothing is above the top.**  By the order the structure carries: the other items stand behind
    the head, and an irreflexive order does not put the head above itself. -/
theorem not_less_of_top? [Std.Irrefl less] {q : PriorityQueue T less} {x y : T} (h : q.top? = some x)
    (hy : y ∈ q.items) : ¬ less x y := by
  have hsorted := q.sorted
  rw [items_of_top? h] at hy hsorted
  -- `y` is the top itself, or stands behind it
  rcases List.mem_cons.mp hy with rfl | hy
  · exact irrefl y
  · exact (List.pairwise_cons.mp hsorted).1 y hy

end PriorityQueue

end MicroProfiler.Lib
