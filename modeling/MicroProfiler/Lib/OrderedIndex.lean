/-
  Records kept in the order of a key, and the last one not above a value.

  1. **Containers** — `OrderedMultimap` is `std::multimap`: of equal keys, what is inserted later
     stands later.  `OrderedMap` is `std::map` with assignment: what is assigned later replaces.
     Both carry the proof that they are in order.

  2. **`findRange`** — the element before `upper_bound`.

  3. **Floor** — `floor` is what `findRange` is for, and it knows no order: of the records with the
     greatest key not above the value, the last one to come (`floor_eq_some_iff`).  Either container
     gives it (`OrderedMultimap.findRange_ofList`, `OrderedMap.findRange_ofList`).

  Nothing here names the program.
-/
import Mathlib.Order.Lattice
import Mathlib.Data.List.Induction

namespace MicroProfiler.Lib

variable {α κ : Type} [LinearOrder κ]

/-- `std::multimap`, of records that have their key. -/
structure OrderedMultimap (key : α → κ) where
  items : List α
  sorted : items.Pairwise fun a b => key a ≤ key b

/-- `std::map`, of records that have their key. -/
structure OrderedMap (key : α → κ) where
  items : List α
  sorted : items.Pairwise fun a b => key a < key b

/-- The element before `upper_bound(value)`, unless that is the first.  In order, what is not above
    the value stands in front. -/
def findRange (key : α → κ) (value : κ) (items : List α) : Option α :=
  (items.takeWhile fun x => key x ≤ value).getLast?

/-- Before the first element with a greater key: behind those with an equal one. -/
def insertUpper (key : α → κ) (x : α) : List α → List α
  | [] => [x]
  | y :: items => if key x < key y then x :: y :: items else y :: insertUpper key x items

/-- In the place of the element with the same key, if there is one. -/
def assign (key : α → κ) (x : α) : List α → List α
  | [] => [x]
  | y :: items =>
      if key x < key y then x :: y :: items
      else if key y < key x then y :: assign key x items
      else x :: items

/-! ## The order is kept -/

section

variable {key : α → κ}

/-- Nothing comes but the element. -/
theorem mem_insertUpper {x a : α} : ∀ {items : List α}, a ∈ insertUpper key x items → a = x ∨ a ∈ items
  | [], h => Or.inl (List.mem_singleton.mp h)
  | y :: items, h => by
    rw [insertUpper] at h
    split at h
    · exact List.mem_cons.mp h
    · rcases List.mem_cons.mp h with rfl | h
      · exact Or.inr List.mem_cons_self
      · exact (mem_insertUpper h).imp_right (List.mem_cons_of_mem _)

/-- **An insertion keeps the order.**  By recursion to the place where it goes. -/
theorem sorted_insertUpper (x : α) : ∀ {items : List α}, (items.Pairwise fun a b => key a ≤ key b) →
    (insertUpper key x items).Pairwise fun a b => key a ≤ key b
  | [], _ => List.pairwise_singleton _ _
  | y :: items, h => by
    obtain ⟨hhead, htail⟩ := List.pairwise_cons.mp h
    rw [insertUpper]
    split
    · -- in front of a greater key, and of all behind it
      next hlt =>
      refine List.pairwise_cons.mpr ⟨fun a ha => ?_, h⟩
      rcases List.mem_cons.mp ha with rfl | ha
      · exact le_of_lt hlt
      · exact le_trans (le_of_lt hlt) (hhead a ha)
    · -- further back
      next hge =>
      refine List.pairwise_cons.mpr ⟨fun a ha => ?_, sorted_insertUpper x htail⟩
      rcases mem_insertUpper ha with rfl | ha
      · exact not_lt.mp hge
      · exact hhead a ha

/-- Nothing comes but the element; one may go. -/
theorem mem_assign {x a : α} : ∀ {items : List α}, a ∈ assign key x items → a = x ∨ a ∈ items
  | [], h => Or.inl (List.mem_singleton.mp h)
  | y :: items, h => by
    rw [assign] at h
    split at h
    · exact List.mem_cons.mp h
    · split at h
      · rcases List.mem_cons.mp h with rfl | h
        · exact Or.inr List.mem_cons_self
        · exact (mem_assign h).imp_right (List.mem_cons_of_mem _)
      · exact (List.mem_cons.mp h).imp_right (List.mem_cons_of_mem _)

/-- **An assignment keeps the order**, which is strict. -/
theorem sorted_assign (x : α) : ∀ {items : List α}, (items.Pairwise fun a b => key a < key b) →
    (assign key x items).Pairwise fun a b => key a < key b
  | [], _ => List.pairwise_singleton _ _
  | y :: items, h => by
    obtain ⟨hhead, htail⟩ := List.pairwise_cons.mp h
    rw [assign]
    split
    · -- in front of a greater key
      next hlt =>
      refine List.pairwise_cons.mpr ⟨fun a ha => ?_, h⟩
      rcases List.mem_cons.mp ha with rfl | ha
      · exact hlt
      · exact lt_trans hlt (hhead a ha)
    · next hge =>
      split
      · -- further back
        next hlt =>
        refine List.pairwise_cons.mpr ⟨fun a ha => ?_, sorted_assign x htail⟩
        rcases mem_assign ha with rfl | ha
        · exact hlt
        · exact hhead a ha
      · -- in the place of the equal key
        next hle =>
        have heq : key x = key y := le_antisymm (not_lt.mp hle) (not_lt.mp hge)
        exact List.pairwise_cons.mpr ⟨fun a ha => heq ▸ hhead a ha, htail⟩

end

/-- `insert` -/
def OrderedMultimap.insert {key : α → κ} (c : OrderedMultimap key) (x : α) : OrderedMultimap key :=
  ⟨insertUpper key x c.items, sorted_insertUpper x c.sorted⟩

/-- `operator []`, assigned to. -/
def OrderedMap.insert {key : α → κ} (c : OrderedMap key) (x : α) : OrderedMap key :=
  ⟨assign key x c.items, sorted_assign x c.sorted⟩

/-- No records. -/
def OrderedMultimap.empty (key : α → κ) : OrderedMultimap key := ⟨[], .nil⟩

/-- No records. -/
def OrderedMap.empty (key : α → κ) : OrderedMap key := ⟨[], .nil⟩

/-! ## Floor -/

/-- The better one: a key that is not above the value, and not below that of the one before.  Of
    equal keys the later wins. -/
def closest (key : α → κ) (value : κ) (best : Option α) (x : α) : Option α :=
  if key x ≤ value then
    match best with
    | none => some x
    | some b => if key b ≤ key x then some x else some b
  else best

/-- Of the records with the greatest key not above the value, the last one.  A single pass over
    them, in the order they came. -/
def floor (key : α → κ) (value : κ) (records : List α) : Option α :=
  records.foldl (closest key value) none

section

variable {key : α → κ} {value : κ}

/-- The first element is found if it is not above the value, unless one behind it is found. -/
theorem findRange_cons (y : α) (items : List α) :
    findRange key value (y :: items) =
      if key y ≤ value then some ((findRange key value items).getD y) else none := by
  unfold findRange
  by_cases hy : key y ≤ value
  · rw [List.takeWhile_cons, decide_eq_true hy, if_pos rfl, if_pos hy, List.getLast?_cons]
  · rw [List.takeWhile_cons, decide_eq_false hy, if_neg Bool.false_ne_true, if_neg hy]
    rfl

/-- What is found is there. -/
theorem mem_of_findRange {items : List α} {b : α} (h : findRange key value items = some b) :
    b ∈ items :=
  (List.takeWhile_sublist _).subset (List.mem_of_getLast? h)

/-- Nothing is found below the first element. -/
theorem findRange_eq_none {y : α} {items : List α} (h : value < key y) :
    findRange key value (y :: items) = none := by
  rw [findRange_cons, if_neg (not_le.mpr h)]

/-- A record that goes in front is found if nothing else is. -/
theorem findRange_front {x y : α} {items : List α}
    (h : (y :: items).Pairwise fun a b => key a ≤ key b) (hlt : key x < key y) :
    findRange key value (x :: y :: items) = closest key value (findRange key value (y :: items)) x := by
  rw [findRange_cons x]
  unfold closest
  split
  · cases hfound : findRange key value (y :: items) with
    | none => rfl
    | some b =>
      have hyb : key y ≤ key b := by
        rcases List.mem_cons.mp (mem_of_findRange hfound) with rfl | hb
        · exact le_refl _
        · exact (List.pairwise_cons.mp h).1 b hb
      dsimp only
      rw [if_neg (not_le.mpr (lt_of_lt_of_le hlt hyb))]
      rfl
  · next habove => exact (findRange_eq_none (lt_trans (not_le.mp habove) hlt)).symm

/-- A record that goes further back: the first element does not stand in its way. -/
theorem findRange_back {x y : α} {items items' : List α} (hle : key y ≤ key x)
    (h : findRange key value items' = closest key value (findRange key value items) x) :
    findRange key value (y :: items') = closest key value (findRange key value (y :: items)) x := by
  rw [findRange_cons, findRange_cons, h]
  by_cases hy : key y ≤ value
  · rw [if_pos hy, if_pos hy]
    unfold closest
    -- whatever was found behind `y` counts first, the new record included
    by_cases hx : key x ≤ value
    · rw [if_pos hx, if_pos hx]
      cases findRange key value items with
      | none => exact (if_pos hle).symm
      | some b =>
        dsimp only [Option.getD_some]
        split
        · rfl
        · rfl
    · rw [if_neg hx, if_neg hx]
  · unfold closest
    rw [if_neg hy, if_neg hy, if_neg fun hx => hy (le_trans hle hx)]

/-- **An insertion** is one more record to choose from.  By recursion to its place. -/
theorem findRange_insertUpper (x : α) : ∀ {items : List α},
    (items.Pairwise fun a b => key a ≤ key b) →
    findRange key value (insertUpper key x items) = closest key value (findRange key value items) x
  | [], _ => by
    rw [insertUpper, findRange_cons]
    rfl
  | y :: items, h => by
    rw [insertUpper]
    split
    · next hlt => exact findRange_front h hlt
    · next hge =>
      exact findRange_back (not_lt.mp hge) (findRange_insertUpper x (List.pairwise_cons.mp h).2)

/-- **An assignment** is one, too: what it replaces has the same key and came before. -/
theorem findRange_assign (x : α) : ∀ {items : List α}, (items.Pairwise fun a b => key a < key b) →
    findRange key value (assign key x items) = closest key value (findRange key value items) x
  | [], _ => by
    rw [assign, findRange_cons]
    rfl
  | y :: items, h => by
    obtain ⟨hhead, htail⟩ := List.pairwise_cons.mp h
    rw [assign]
    split
    · next hlt => exact findRange_front (h.imp le_of_lt) hlt
    · next hge =>
      split
      · next hlt => exact findRange_back (le_of_lt hlt) (findRange_assign x htail)
      · -- an equal key: the record is replaced, and was the earlier of the two
        next hle =>
        have heq : key x = key y := le_antisymm (not_lt.mp hle) (not_lt.mp hge)
        rw [findRange_cons, findRange_cons, heq]
        unfold closest
        rw [heq]
        split
        · cases hfound : findRange key value items with
          | none => exact (if_pos (le_refl _)).symm
          | some b =>
            exact (if_neg (not_le.mpr (hhead b (mem_of_findRange hfound)))).symm
        · rfl

/-- The records, inserted one after another. -/
def OrderedMultimap.ofList (key : α → κ) (records : List α) : OrderedMultimap key :=
  records.foldl OrderedMultimap.insert (.empty key)

/-- The same, assigned. -/
def OrderedMap.ofList (key : α → κ) (records : List α) : OrderedMap key :=
  records.foldl OrderedMap.insert (.empty key)

/-- **A multimap gives the floor.**  By induction on the records, the last one inserted last. -/
theorem OrderedMultimap.findRange_ofList (key : α → κ) (value : κ) (records : List α) :
    findRange key value (ofList key records).items = floor key value records := by
  induction records using List.reverseRecOn with
  | nil => rfl
  | append_singleton records x ih =>
    rw [ofList, floor, List.foldl_append, List.foldl_append]
    exact (findRange_insertUpper x (ofList key records).sorted).trans
      (congrArg (closest key value · x) ih)

/-- **A map gives the floor**: of equal keys it keeps the last one. -/
theorem OrderedMap.findRange_ofList (key : α → κ) (value : κ) (records : List α) :
    findRange key value (ofList key records).items = floor key value records := by
  induction records using List.reverseRecOn with
  | nil => rfl
  | append_singleton records x ih =>
    rw [ofList, floor, List.foldl_append, List.foldl_append]
    exact (findRange_assign x (ofList key records).sorted).trans
      (congrArg (closest key value · x) ih)

/-- One more record to choose from. -/
theorem floor_concat (records : List α) (x : α) :
    floor key value (records ++ [x]) = closest key value (floor key value records) x := by
  rw [floor, List.foldl_append]
  rfl

/-- There is no floor if every key is above the value. -/
theorem floor_eq_none_iff {records : List α} :
    floor key value records = none ↔ ∀ x ∈ records, value < key x := by
  induction records using List.reverseRecOn with
  | nil => exact iff_of_true rfl fun x hx => absurd hx List.not_mem_nil
  | append_singleton records x ih =>
    rw [floor_concat]
    unfold closest
    by_cases hx : key x ≤ value
    · -- the last one is not above it: there is a floor
      rw [if_pos hx]
      refine iff_of_false ?_ fun hall => not_lt.mpr hx (hall x (by simp))
      cases floor key value records with
      | none => simp
      | some b =>
        dsimp only
        split
        · simp
        · simp
    · -- it is above: the others decide
      rw [if_neg hx, ih]
      refine ⟨fun hall y hy => ?_, fun hall y hy => hall y (List.mem_append_left _ hy)⟩
      rcases List.mem_append.mp hy with hy | hy
      · exact hall y hy
      · rw [List.mem_singleton.mp hy]
        exact not_le.mp hx

/-- A record that comes after the floor, with a smaller key or one above the value. -/
theorem foldl_closest_of_lt {m : α} : ∀ {later : List α},
    (∀ x ∈ later, key x ≤ value → key x < key m) →
    later.foldl (closest key value) (some m) = some m
  | [], _ => rfl
  | x :: later, h => by
    have hkeep : closest key value (some m) x = some m := by
      unfold closest
      split
      · next hx => exact if_neg (not_le.mpr (h x List.mem_cons_self hx))
      · rfl
    rw [List.foldl_cons, hkeep]
    exact foldl_closest_of_lt fun y hy => h y (List.mem_cons_of_mem _ hy)

/-- What the floor is like: nothing before it has a greater key, nothing after it one as great.  By
    induction on the records, the last one first. -/
theorem floor_spec {records : List α} {m : α} (h : floor key value records = some m) :
    ∃ l₁ l₂, records = l₁ ++ m :: l₂ ∧ key m ≤ value ∧
      (∀ x ∈ l₁, key x ≤ value → key x ≤ key m) ∧ ∀ x ∈ l₂, key x ≤ value → key x < key m := by
  induction records using List.reverseRecOn generalizing m with
  | nil => cases h
  | append_singleton records x ih =>
    rw [floor_concat] at h
    unfold closest at h
    by_cases hx : key x ≤ value
    · rw [if_pos hx] at h
      cases hfloor : floor key value records with
      | none =>
        rw [hfloor] at h
        obtain rfl : x = m := Option.some.inj h
        refine ⟨records, [], rfl, hx, fun y hy hle => ?_, fun y hy => absurd hy List.not_mem_nil⟩
        exact absurd hle (not_le.mpr (floor_eq_none_iff.mp hfloor y hy))
      | some b =>
        rw [hfloor] at h
        dsimp only at h
        obtain ⟨l₁, l₂, rfl, hb, hbefore, hafter⟩ := ih hfloor
        split at h
        · -- the last one is the floor
          next hle =>
          obtain rfl : x = m := Option.some.inj h
          refine ⟨l₁ ++ b :: l₂, [], rfl, hx, fun y hy hyv => le_trans ?_ hle,
            fun y hy => absurd hy List.not_mem_nil⟩
          rcases List.mem_append.mp hy with hy | hy
          · exact hbefore y hy hyv
          · rcases List.mem_cons.mp hy with rfl | hy
            · exact le_refl _
            · exact le_of_lt (hafter y hy hyv)
        · -- the floor is what it was before
          next hgt =>
          obtain rfl : b = m := Option.some.inj h
          refine ⟨l₁, l₂ ++ [x], by simp, hb, hbefore, fun y hy hyv => ?_⟩
          rcases List.mem_append.mp hy with hy | hy
          · exact hafter y hy hyv
          · rw [List.mem_singleton.mp hy]
            exact not_le.mp hgt
    · rw [if_neg hx] at h
      obtain ⟨l₁, l₂, rfl, hm, hbefore, hafter⟩ := ih h
      refine ⟨l₁, l₂ ++ [x], by simp, hm, hbefore, fun y hy hyv => ?_⟩
      rcases List.mem_append.mp hy with hy | hy
      · exact hafter y hy hyv
      · rw [List.mem_singleton.mp hy] at hyv
        exact absurd hyv hx

/-- **What the floor is.**  Such a place there is at most one of. -/
theorem floor_eq_some_iff {records : List α} {m : α} :
    floor key value records = some m ↔
      ∃ l₁ l₂, records = l₁ ++ m :: l₂ ∧ key m ≤ value ∧
        (∀ x ∈ l₁, key x ≤ value → key x ≤ key m) ∧ ∀ x ∈ l₂, key x ≤ value → key x < key m := by
  refine ⟨floor_spec, ?_⟩
  rintro ⟨l₁, l₂, rfl, hm, hbefore, hafter⟩
  have hreached : closest key value (floor key value l₁) m = some m := by
    unfold closest
    rw [if_pos hm]
    cases hfloor : floor key value l₁ with
    | none => rfl
    | some b =>
      obtain ⟨l, l', rfl, hb, _⟩ := floor_spec hfloor
      exact if_pos (hbefore b (by simp) hb)
  rw [floor, List.foldl_append, List.foldl_cons]
  exact hreached ▸ foldl_closest_of_lt hafter

end

end MicroProfiler.Lib
