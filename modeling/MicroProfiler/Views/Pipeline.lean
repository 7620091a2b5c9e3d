/-
  `views::flatten` and `views::filter` — the two lazy views every table of the frontend is read
  through.

  1. **Program** — both adapt ANY view with forward iterators, so both are written over `View`.
     `Flatten.fetch` takes the inner range of the current outer element; `settle` is the loop
     `while (!fetch()) ++_l1` of the constructor and, after one `++_l1`, of `operator ++`.  The
     inner iterators of a fresh flatten iterator are singular (`none`): it must not touch them
     before a range has been fetched.  `Filter.findNext` is the `do … while` of filter's increment.

  2. **Specification** — `Presents`: flatten presents the concatenation of the inner ranges, filter
     presents `List.filter` of what lies below it.

  3. **The crux** — where an iterator stands.  A flatten iterator at outer position `i` and inner
     position `j` is at `offset i + j` of the concatenation, and the end at `offset` of the outer
     length; what makes `==` right is that a settled iterator never rests at the end of an inner
     range, so `offset i + j < offset (i + 1)` (`offset_add_lt`).  Filter is the same with a part of
     one element for a match and none for the rest: a settled iterator rests on a match.
-/
import MicroProfiler.Lib.ForwardIterators
import Mathlib.Algebra.Order.Group.Nat

namespace MicroProfiler.Views

open MicroProfiler.Lib

variable {ι ι₁ ι₂ α β γ ω κ : Type}

/-! ## flatten -/

/-- The transform `X`: the inner range of an outer element, its iterators, and the value a pair of
    an outer and an inner element stands for. -/
structure Transform (ω ι₂ β γ : Type) where
  inner : IterOps ι₂ β
  equalRange : ω → ι₂ × ι₂
  get : ω → β → γ

/-- `flatten<U, X>`. -/
structure Flatten (ι₁ ω ι₂ β γ : Type) where
  underlying : View ι₁ ω
  transform : Transform ω ι₂ β γ

/-- `flatten<U, X>::const_iterator`: `_l1`, `_l2` and `_l2_end`. -/
structure FlattenIterator (ι₁ ι₂ : Type) where
  l1 : ι₁
  l2 : Option ι₂
  l2End : Option ι₂

namespace Flatten

/-- `fetch()`. -/
def fetch (F : Flatten ι₁ ω ι₂ β γ) (it : FlattenIterator ι₁ ι₂) :
    Option (Bool × FlattenIterator ι₁ ι₂) := do
  if (← F.underlying.eq it.l1 (← F.underlying.last)) then return (true, it)
  else
    let r := F.transform.equalRange (← F.underlying.deref it.l1)
    let empty ← F.transform.inner.eq r.1 r.2
    return (!empty, { it with l2 := some r.1, l2End := some r.2 })

/-- `while (!fetch()) ++_l1;` -/
def settle (F : Flatten ι₁ ω ι₂ β γ) :
    Nat → FlattenIterator ι₁ ι₂ → Option (FlattenIterator ι₁ ι₂)
  | 0, _ => none
  | fuel + 1, it => do
    let (found, it) ← F.fetch it
    if found then return it
    else F.settle fuel { it with l1 := ← F.underlying.next it.l1 }

/-- `const_iterator(owner, l1)`: both inner iterators are left uninitialised. -/
def construct (F : Flatten ι₁ ω ι₂ β γ) (fuel : Nat) (l1 : ι₁) : Option (FlattenIterator ι₁ ι₂) :=
  F.settle fuel { l1 := l1, l2 := none, l2End := none }

/-- `operator ++`. -/
def increment (F : Flatten ι₁ ω ι₂ β γ) (fuel : Nat) (it : FlattenIterator ι₁ ι₂) :
    Option (FlattenIterator ι₁ ι₂) := do
  let l2 ← F.transform.inner.next (← it.l2)
  let it := { it with l2 := some l2 }
  if !(← F.transform.inner.eq l2 (← it.l2End)) then return it
  -- `while (++_l1, !fetch()) {}`
  else F.settle fuel { it with l1 := ← F.underlying.next it.l1 }

/-- `operator *`. -/
def deref (F : Flatten ι₁ ω ι₂ β γ) (it : FlattenIterator ι₁ ι₂) : Option γ := do
  return F.transform.get (← F.underlying.deref it.l1) (← F.transform.inner.deref (← it.l2))

/-- `operator ==`: the inner iterators are looked at only where the outer ones agree. -/
def equal (F : Flatten ι₁ ω ι₂ β γ) (it rhs : FlattenIterator ι₁ ι₂) : Option Bool := do
  if (← F.underlying.eq it.l1 rhs.l1) then
    if (← F.underlying.eq it.l1 (← F.underlying.last)) then return true
    else F.transform.inner.eq (← it.l2) (← rhs.l2)
  else return false

/-- The view flatten is; `fuel` bounds the searches for a non-empty inner range. -/
def view (F : Flatten ι₁ ω ι₂ β γ) (fuel : Nat) : View (FlattenIterator ι₁ ι₂) γ where
  deref := F.deref
  next := F.increment fuel
  eq := F.equal
  first := F.underlying.first.bind (F.construct fuel)
  last := F.underlying.last.bind (F.construct fuel)

end Flatten

/-! ## filter -/

/-- `filter<U>`: an empty `_predicate` matches everything. -/
structure Filter (ι α : Type) where
  underlying : View ι α
  predicate : Option (α → Bool)

namespace Filter

/-- `match(value)`: `!_predicate || _predicate(value)`. -/
def matchValue (F : Filter ι α) (value : α) : Bool :=
  match F.predicate with
  | none => true
  | some predicate => predicate value

/-- `_underlying != end() && !match(*_underlying)`, the condition of both loops. -/
def skips (F : Filter ι α) (it : ι) : Option Bool := do
  if (← F.underlying.eq it (← F.underlying.last)) then return false
  else return !F.matchValue (← F.underlying.deref it)

/-- `find_next()`. -/
def findNext (F : Filter ι α) : Nat → ι → Option ι
  | 0, _ => none
  | fuel + 1, it => do
    let it ← F.underlying.next it
    if (← F.skips it) then F.findNext fuel it else return it

/-- `const_iterator(owner, underlying)`. -/
def construct (F : Filter ι α) (fuel : Nat) (it : ι) : Option ι := do
  if (← F.skips it) then F.findNext fuel it else return it

/-- The view filter is: `*` and `==` are those of the underlying iterators. -/
def view (F : Filter ι α) (fuel : Nat) : View ι α where
  deref := F.underlying.deref
  next := F.findNext fuel
  eq := F.underlying.eq
  first := F.underlying.first.bind (F.construct fuel)
  last := F.underlying.last.bind (F.construct fuel)

end Filter

/-! ## flatten presents the concatenation -/

namespace Flatten

variable {F : Flatten ι₁ ω ι₂ β γ} {outer : List ω} {inner : ω → List β} {At₁ : Nat → ι₁ → Prop}
  {At₂ : ω → Nat → ι₂ → Prop}

/-- The values the inner range of an outer element contributes. -/
def part (F : Flatten ι₁ ω ι₂ β γ) (inner : ω → List β) (x : ω) : List γ :=
  (inner x).map (F.transform.get x)

/-- Where a settled iterator stands: inside a NON-EMPTY inner range, short of its end, or at the
    end of the outer range (with whatever is left in its inner iterators). -/
inductive At (F : Flatten ι₁ ω ι₂ β γ) (outer : List ω) (inner : ω → List β)
    (At₁ : Nat → ι₁ → Prop) (At₂ : ω → Nat → ι₂ → Prop) : Nat → FlattenIterator ι₁ ι₂ → Prop
  | inside {i j : Nat} {l1 : ι₁} {l2 l2End : ι₂} (hi : i < outer.length) (hl1 : At₁ i l1)
      (hj : j < (inner outer[i]).length) (hl2 : At₂ outer[i] j l2)
      (hend : At₂ outer[i] (inner outer[i]).length l2End) :
      At F outer inner At₁ At₂ (offset (F.part inner) outer i + j) ⟨l1, some l2, some l2End⟩
  | atEnd {it : FlattenIterator ι₁ ι₂} (hl1 : At₁ outer.length it.l1) :
      At F outer inner At₁ At₂ (outer.flatMap (F.part inner)).length it

section Spec

variable {first last : ι₁} (hlast : F.underlying.last = some last)
  (houter : F.underlying.Spans first last outer At₁)
  (hinner : ∀ x, F.transform.inner.Spans (F.transform.equalRange x).1
    (F.transform.equalRange x).2 (inner x) (At₂ x))

include houter

/-- Iterators at different outer elements differ, whatever their inner ones are. -/
theorem equal_of_outer_ne {i i' : Nat} {it rhs : FlattenIterator ι₁ ι₂} (hl1 : At₁ i it.l1)
    (hl1' : At₁ i' rhs.l1) (hne : i ≠ i') : F.equal it rhs = some false := by
  simp [equal, houter.eq hl1 hl1', hne]

include hinner

/-- Dereferencing reads the element of the concatenation the iterator is at. -/
theorem deref_spec {k : Nat} {it : FlattenIterator ι₁ ι₂} (hit : At F outer inner At₁ At₂ k it)
    (hk : k < (outer.flatMap (F.part inner)).length) :
    F.deref it = (outer.flatMap (F.part inner))[k]? := by
  cases hit with
  | atEnd => omega
  | @inside i j l1 l2 l2End hi hl1 hj hl2 hend =>
    have hx := houter.deref hl1 hi
    have hy := (hinner _).deref hl2 hj
    rw [List.getElem?_eq_getElem hi] at hx
    rw [getElem?_offset _ _ hi (by rwa [part, List.length_map])]
    simp [deref, hx, hy, part, List.getElem?_eq_getElem hj]

include hlast

omit hinner in
/-- At the end of the outer range `fetch` touches nothing. -/
theorem fetch_end {it : FlattenIterator ι₁ ι₂} (hl1 : At₁ outer.length it.l1) :
    F.fetch it = some (true, it) := by
  simp [fetch, hlast, houter.eq_last hl1]

/-- Before it, `fetch` takes the element's range and says whether anything is in it. -/
theorem fetch_inside {i : Nat} (hi : i < outer.length) {it : FlattenIterator ι₁ ι₂}
    (hl1 : At₁ i it.l1) :
    F.fetch it = some (decide (0 < (inner outer[i]).length),
      { it with l2 := some (F.transform.equalRange outer[i]).1,
                l2End := some (F.transform.equalRange outer[i]).2 }) := by
  have hne : i ≠ outer.length := by omega
  have hx : F.underlying.deref it.l1 = some outer[i] := by
    rw [houter.deref hl1 hi, List.getElem?_eq_getElem hi]
  have hempty := (hinner outer[i]).eq_last (hinner outer[i]).atFirst
  simp only [fetch, hlast, houter.eq_last hl1, hx, hempty, hne, Option.bind_eq_bind,
    Option.bind_some, decide_false, Bool.false_eq_true, if_false]
  congr 2
  rw [← decide_not]
  exact decide_eq_decide.mpr (by omega)

/-- **The loop** `while (!fetch()) ++_l1`: it stops at the next element of the concatenation, or at
    its end, after at most as many rounds as outer elements are left. -/
theorem settle_spec : ∀ (fuel : Nat) {i : Nat} (it : FlattenIterator ι₁ ι₂), i ≤ outer.length →
    At₁ i it.l1 → outer.length < i + fuel →
    ∃ it', F.settle fuel it = some it' ∧
      At F outer inner At₁ At₂ (offset (F.part inner) outer i) it' := by
  intro fuel
  induction fuel with
  | zero => intro i it hi _ hfuel; omega
  | succ fuel ih =>
    intro i it hi hl1 hfuel
    rcases Nat.lt_or_eq_of_le hi with hlt | rfl
    · have hfetch := fetch_inside hlast houter hinner hlt hl1
      by_cases hpos : 0 < (inner outer[i]).length
      · refine ⟨_, by simp [settle, hfetch, hpos]; rfl, ?_⟩
        exact .inside hlt hl1 hpos (hinner _).atFirst (hinner _).atLast
      · -- an empty inner range: nothing of the concatenation is passed over
        obtain ⟨l1, hnext, hl1'⟩ := houter.next hl1 hlt
        have hsame : offset (F.part inner) outer (i + 1) = offset (F.part inner) outer i := by
          rw [offset_succ _ _ hlt, part, List.length_map]
          omega
        obtain ⟨it', hrest, hit'⟩ := ih
          { it with l1 := l1, l2 := some (F.transform.equalRange outer[i]).1,
                    l2End := some (F.transform.equalRange outer[i]).2 }
          hlt hl1' (by omega)
        refine ⟨it', ?_, hsame ▸ hit'⟩
        simp [settle, hfetch, hpos, hnext, hrest]
    · refine ⟨it, by simp [settle, fetch_end hlast houter hl1], ?_⟩
      rw [offset_length]
      exact .atEnd hl1

/-- Incrementing moves on by one element of the concatenation. -/
theorem increment_spec {fuel k : Nat} (hfuel : outer.length < fuel)
    {it : FlattenIterator ι₁ ι₂} (hit : At F outer inner At₁ At₂ k it)
    (hk : k < (outer.flatMap (F.part inner)).length) :
    ∃ it', F.increment fuel it = some it' ∧ At F outer inner At₁ At₂ (k + 1) it' := by
  cases hit with
  | atEnd => omega
  | @inside i j l1 l2 l2End hi hl1 hj hl2 hend =>
    obtain ⟨l2', hnext, hl2'⟩ := (hinner _).next hl2 hj
    have hcmp := (hinner _).eq hl2' hend
    by_cases hdone : j + 1 = (inner outer[i]).length
    · obtain ⟨l1', hnext₁, hl1'⟩ := houter.next hl1 hi
      obtain ⟨it', hsettle, hit'⟩ := settle_spec hlast houter hinner fuel
        ⟨l1', some l2', some l2End⟩ hi hl1' (by omega)
      refine ⟨it', ?_, ?_⟩
      · simp [increment, hnext, hcmp, hdone, hnext₁, hsettle]
      · rw [offset_succ _ _ hi, part, List.length_map, ← hdone] at hit'
        exact hit'
    · refine ⟨⟨l1, some l2', some l2End⟩, ?_, ?_⟩
      · simp [increment, hnext, hcmp, hdone]
      · rw [Nat.add_assoc]
        exact .inside hi hl1 (by omega) hl2' hend

/-- Comparing looks at inner iterators of one and the same range only. -/
theorem equal_spec {j k : Nat} {it rhs : FlattenIterator ι₁ ι₂}
    (hit : At F outer inner At₁ At₂ j it) (hrhs : At F outer inner At₁ At₂ k rhs) :
    F.equal it rhs = some (decide (j = k)) := by
  cases hit with
  | atEnd hl1 =>
    cases hrhs with
    | atEnd hl1' => simp [equal, houter.eq hl1 hl1', hlast, houter.eq_last hl1]
    | @inside i' j' _ _ _ hi' hl1' hj' _ _ =>
      have hlt := offset_add_lt (F.part inner) outer hi' (by rwa [part, List.length_map]) hi'
      rw [offset_length] at hlt
      rw [equal_of_outer_ne houter hl1 hl1' (by omega), decide_eq_false (by omega)]
  | @inside i j _ _ _ hi hl1 hj hl2 _ =>
    have hpart : j < (F.part inner outer[i]).length := by rwa [part, List.length_map]
    cases hrhs with
    | atEnd hl1' =>
      have hlt := offset_add_lt (F.part inner) outer hi hpart hi
      rw [offset_length] at hlt
      rw [equal_of_outer_ne houter hl1 hl1' (by omega), decide_eq_false (by omega)]
    | @inside i' j' _ _ _ hi' hl1' hj' hl2' _ =>
      have hpart' : j' < (F.part inner outer[i']).length := by rwa [part, List.length_map]
      rcases Nat.lt_trichotomy i i' with hlt | rfl | hlt
      · have hpos := offset_add_lt (F.part inner) outer hi hpart hlt
        rw [equal_of_outer_ne houter hl1 hl1' (by omega), decide_eq_false (by omega)]
      · have hne : i ≠ outer.length := by omega
        simp [equal, houter.eq hl1 hl1', hlast, houter.eq_last hl1, hne, (hinner _).eq hl2 hl2']
      · have hpos := offset_add_lt (F.part inner) outer hi' hpart' hlt
        rw [equal_of_outer_ne houter hl1 hl1' (by omega), decide_eq_false (by omega)]

end Spec

/-- **flatten.** Over any outer range and any inner ranges, it presents their concatenation. -/
theorem presents (houter : F.underlying.Presents outer At₁)
    (hinner : ∀ x, F.transform.inner.Spans (F.transform.equalRange x).1
      (F.transform.equalRange x).2 (inner x) (At₂ x)) {fuel : Nat} (hfuel : outer.length < fuel) :
    (F.view fuel).Presents (outer.flatMap (F.part inner)) (At F outer inner At₁ At₂) := by
  obtain ⟨first, last, hfirst, hlast, hspans⟩ := houter
  obtain ⟨b, hb, hbAt⟩ := settle_spec hlast hspans hinner fuel ⟨first, none, none⟩
    (Nat.zero_le _) hspans.atFirst (by omega)
  obtain ⟨e, he, heAt⟩ := settle_spec hlast hspans hinner fuel ⟨last, none, none⟩
    (Nat.le_refl _) hspans.atLast (by omega)
  rw [offset_zero] at hbAt
  rw [offset_length] at heAt
  refine ⟨b, e, ?_, ?_, ?_⟩
  · simpa [view, hfirst, construct] using hb
  · simpa [view, hlast, construct] using he
  · exact {
      atFirst := hbAt
      atLast := heAt
      deref := fun hit hk => deref_spec hspans hinner hit hk
      next := fun hit hk => increment_spec hlast hspans hinner hfuel hit hk
      eq := fun hit hrhs => equal_spec hlast hspans hinner hit hrhs }

end Flatten

/-! ## filter presents the matching elements -/

/-- What an element contributes to the filtered list. -/
def pick (p : α → Bool) (x : α) : List α := if p x then [x] else []

theorem flatMap_pick (p : α → Bool) (xs : List α) : xs.flatMap (pick p) = xs.filter p := by
  induction xs with
  | nil => rfl
  | cons x xs ih =>
    rw [List.flatMap_cons, ih, pick, List.filter_cons]
    split <;> rfl

theorem length_pick (p : α → Bool) {x : α} (h : p x) : (pick p x).length = 1 := by
  simp [pick, h]

namespace Filter

variable {F : Filter ι α} {xs : List α} {At : Nat → ι → Prop}

/-- Where a settled iterator stands: on a match, or at the end of the underlying range. -/
def SettledAt (F : Filter ι α) (xs : List α) (At : Nat → ι → Prop) (k : Nat) (it : ι) : Prop :=
  ∃ m, At m it ∧ k = offset (pick F.matchValue) xs m ∧
    (m = xs.length ∨ ∃ h : m < xs.length, F.matchValue xs[m])

section Spec

variable {first last : ι} (hlast : F.underlying.last = some last)
  (hspans : F.underlying.Spans first last xs At)

include hlast hspans

theorem skips_end {it : ι} (hit : At xs.length it) : F.skips it = some false := by
  simp [skips, hlast, hspans.eq_last hit]

theorem skips_inside {m : Nat} (hm : m < xs.length) {it : ι} (hit : At m it) :
    F.skips it = some (!F.matchValue xs[m]) := by
  have hne : m ≠ xs.length := by omega
  have hx : F.underlying.deref it = some xs[m] := by
    rw [hspans.deref hit hm, List.getElem?_eq_getElem hm]
  simp [skips, hlast, hspans.eq_last hit, hne, hx]

/-- **The loop** of `find_next`: from an element it moves to the next match, or to the end. -/
theorem findNext_spec : ∀ {fuel m : Nat} {it : ι}, (hm : m < xs.length) → At m it →
    xs.length < m + 1 + fuel →
    ∃ it', F.findNext fuel it = some it' ∧
      F.SettledAt xs At (offset (pick F.matchValue) xs (m + 1)) it' := by
  intro fuel
  induction fuel with
  | zero => intro m it hm _ hfuel; omega
  | succ fuel ih =>
    intro m it hm hit hfuel
    obtain ⟨it', hnext, hit'⟩ := hspans.next hit hm
    rcases Nat.lt_or_eq_of_le (show m + 1 ≤ xs.length from hm) with hlt | heq
    · have hskips := skips_inside hlast hspans hlt hit'
      by_cases hp : F.matchValue xs[m + 1]
      · refine ⟨it', ?_, m + 1, hit', rfl, .inr ⟨hlt, hp⟩⟩
        simp [findNext, hnext, hskips, hp]
      · obtain ⟨it'', hrest, hsettled⟩ := ih hlt hit' (by omega)
        have hsame : offset (pick F.matchValue) xs (m + 1 + 1)
            = offset (pick F.matchValue) xs (m + 1) := by
          rw [offset_succ _ _ hlt, pick, if_neg hp, List.length_nil, Nat.add_zero]
        refine ⟨it'', ?_, hsame ▸ hsettled⟩
        simp [findNext, hnext, hskips, hp, hrest]
    · rw [heq] at hit'
      refine ⟨it', ?_, xs.length, hit', by rw [heq], .inl rfl⟩
      simp [findNext, hnext, skips_end hlast hspans hit']

/-- The constructor settles on the first match at or after the position it is given. -/
theorem construct_spec {fuel m : Nat} {it : ι} (hm : m ≤ xs.length) (hit : At m it)
    (hfuel : xs.length < fuel) :
    ∃ it', F.construct fuel it = some it' ∧
      F.SettledAt xs At (offset (pick F.matchValue) xs m) it' := by
  rcases Nat.lt_or_eq_of_le hm with hlt | rfl
  · have hskips := skips_inside hlast hspans hlt hit
    by_cases hp : F.matchValue xs[m]
    · exact ⟨it, by simp [construct, hskips, hp], m, hit, rfl, .inr ⟨hlt, hp⟩⟩
    · obtain ⟨it', hrest, hsettled⟩ := findNext_spec hlast hspans hlt hit
        (show xs.length < m + 1 + fuel by omega)
      have hsame : offset (pick F.matchValue) xs (m + 1) = offset (pick F.matchValue) xs m := by
        rw [offset_succ _ _ hlt, pick, if_neg hp, List.length_nil, Nat.add_zero]
      exact ⟨it', by simp [construct, hskips, hp, hrest], hsame ▸ hsettled⟩
  · exact ⟨it, by simp [construct, skips_end hlast hspans hit], xs.length, hit, rfl, .inl rfl⟩

end Spec

/-- A settled iterator short of the end is on a match. -/
theorem SettledAt.inside {k : Nat} {it : ι} (h : F.SettledAt xs At k it)
    (hk : k < (xs.filter F.matchValue).length) :
    ∃ m, ∃ hm : m < xs.length, At m it ∧ F.matchValue xs[m] ∧
      k = offset (pick F.matchValue) xs m := by
  obtain ⟨m, hit, rfl, rfl | ⟨hm, hp⟩⟩ := h
  · rw [offset_length, flatMap_pick] at hk
    omega
  · exact ⟨m, hm, hit, hp, rfl⟩

/-- Settled iterators at one count of matches are at one underlying position. -/
theorem settled_inj {m m' : Nat}
    (hm : m = xs.length ∨ ∃ h : m < xs.length, F.matchValue xs[m])
    (hm' : m' = xs.length ∨ ∃ h : m' < xs.length, F.matchValue xs[m']) :
    offset (pick F.matchValue) xs m = offset (pick F.matchValue) xs m' ↔ m = m' := by
  refine ⟨fun heq => ?_, fun heq => heq ▸ rfl⟩
  rcases Nat.lt_trichotomy m m' with hlt | rfl | hlt
  · obtain ⟨hin, hp⟩ := hm.resolve_left (by rcases hm' with rfl | ⟨h, _⟩ <;> omega)
    have := offset_add_lt (pick F.matchValue) xs (j := 0) hin (by rw [length_pick _ hp]; omega) hlt
    omega
  · rfl
  · obtain ⟨hin, hp⟩ := hm'.resolve_left (by rcases hm with rfl | ⟨h, _⟩ <;> omega)
    have := offset_add_lt (pick F.matchValue) xs (j := 0) hin (by rw [length_pick _ hp]; omega) hlt
    omega

/-- **filter.** Over any view, it presents the elements that match, in order. -/
theorem presents (h : F.underlying.Presents xs At) {fuel : Nat} (hfuel : xs.length < fuel) :
    (F.view fuel).Presents (xs.filter F.matchValue) (F.SettledAt xs At) := by
  obtain ⟨first, last, hfirst, hlast, hspans⟩ := h
  obtain ⟨b, hb, hbAt⟩ := construct_spec hlast hspans (Nat.zero_le _) hspans.atFirst hfuel
  obtain ⟨e, he, heAt⟩ := construct_spec hlast hspans (Nat.le_refl _) hspans.atLast hfuel
  rw [offset_zero] at hbAt
  rw [offset_length, flatMap_pick] at heAt
  refine ⟨b, e, ?_, ?_, ?_⟩
  · simpa [view, hfirst] using hb
  · simpa [view, hlast] using he
  · refine { atFirst := hbAt, atLast := heAt, deref := ?_, next := ?_, eq := ?_ }
    · intro k it hit hk
      obtain ⟨m, hm, hat, hp, rfl⟩ := hit.inside hk
      have hread := getElem?_offset (pick F.matchValue) xs (j := 0) hm
        (by rw [length_pick _ hp]; omega)
      rw [flatMap_pick, Nat.add_zero] at hread
      rw [hread]
      simpa [view, pick, hp, List.getElem?_eq_getElem hm] using hspans.deref hat hm
    · intro k it hit hk
      obtain ⟨m, hm, hat, hp, rfl⟩ := hit.inside hk
      obtain ⟨it', hnext, hsettled⟩ := findNext_spec hlast hspans hm hat
        (show xs.length < m + 1 + fuel by omega)
      rw [offset_succ _ _ hm, length_pick _ hp] at hsettled
      exact ⟨it', hnext, hsettled⟩
    · rintro j k it it' ⟨m, hat, rfl, hm⟩ ⟨m', hat', rfl, hm'⟩
      rw [decide_eq_decide.mpr (settled_inj hm hm')]
      exact hspans.eq hat hat'

end Filter

/-! ## The pipeline over containers -/

/-- A transform whose inner ranges are ranges of containers: any ranges, of any containers, several
    outer elements sharing one or not. -/
def rangesTransform [DecidableEq κ] (store : Store κ β) (ranges : ω → Span store)
    (get : ω → β → γ) : Transform ω (Iter κ) β γ where
  inner := store.ops
  equalRange x := (⟨(ranges x).container, (ranges x).lo⟩, ⟨(ranges x).container, (ranges x).hi⟩)
  get := get

/-- The view a container of outer elements is. -/
def containerView (outer : List ω) : View (Iter Unit) ω where
  toIterOps := Store.ops fun _ => outer
  first := some ⟨(), 0⟩
  last := some ⟨(), outer.length⟩

theorem containerView_presents (outer : List ω) :
    ∃ At, (containerView outer).Presents outer At := by
  let whole : Span (fun _ : Unit => outer) := ⟨(), 0, outer.length, Nat.zero_le _, Nat.le_refl _⟩
  have hspans := whole.spans
  have helems : whole.elems = outer := by simp [whole, Span.elems]
  rw [helems] at hspans
  exact ⟨whole.At, _, _, rfl, rfl, hspans⟩

/-- `flatten` over a container of outer elements. -/
def flattenOf [DecidableEq κ] (outer : List ω) (store : Store κ β) (ranges : ω → Span store)
    (get : ω → β → γ) : Flatten (Iter Unit) ω (Iter κ) β γ where
  underlying := containerView outer
  transform := rangesTransform store ranges get

/-- `filter` over that flatten. -/
def pipeline [DecidableEq κ] (outer : List ω) (store : Store κ β) (ranges : ω → Span store)
    (get : ω → β → γ) (predicate : Option (γ → Bool)) (fuel : Nat) :
    Filter (FlattenIterator (Iter Unit) (Iter κ)) γ where
  underlying := (flattenOf outer store ranges get).view fuel
  predicate := predicate

/-- The concatenation of the inner ranges. -/
def concatenation {store : Store κ β} (outer : List ω) (ranges : ω → Span store)
    (get : ω → β → γ) : List γ :=
  outer.flatMap fun x => (ranges x).elems.map (get x)

/-- What a predicate, if there is one, keeps of a list. -/
def kept (predicate : Option (α → Bool)) (xs : List α) : List α :=
  match predicate with
  | none => xs
  | some p => xs.filter p

theorem filter_matchValue (F : Filter ι α) (xs : List α) :
    xs.filter F.matchValue = kept F.predicate xs := by
  unfold kept
  split <;> rename_i h
  · exact List.filter_eq_self.mpr fun x _ => by simp [Filter.matchValue, h]
  · exact List.filter_congr fun x _ => by simp [Filter.matchValue, h]

/-- A view that a client can take for the list `xs`: walking it ends, with exactly `xs`; an
    iterator reaches every position; and iterators compare equal EXACTLY at the same position. -/
def ReadsAs (V : View ι α) (fuel : Nat) (xs : List α) : Prop :=
  V.toList fuel = some xs ∧ (∀ k, k ≤ xs.length → ∃ it, V.Obtained xs.length k it) ∧
    ∀ j k it it', V.Obtained xs.length j it → V.Obtained xs.length k it' →
      V.eq it it' = some (decide (j = k))

theorem readsAs_of_presents {V : View ι α} {xs : List α} {At : Nat → ι → Prop}
    (h : V.Presents xs At) {fuel : Nat} (hfuel : xs.length < fuel) : ReadsAs V fuel xs :=
  ⟨h.toList hfuel, fun _ hk => h.exists_obtained hk, fun _ _ _ _ hit hit' => h.eq_obtained hit hit'⟩

/-- **The views pipeline.** Whatever the inner ranges are (empty anywhere, or all of them) and
    whatever the predicate is, flatten reads as the concatenation of the inner ranges and filter
    over it as the elements of it that match, once every loop has fuel enough. -/
theorem views_pipeline [DecidableEq κ] (outer : List ω) (store : Store κ β)
    (ranges : ω → Span store) (get : ω → β → γ) (predicate : Option (γ → Bool)) :
    ∃ enough, ∀ fuel, enough < fuel →
      ReadsAs ((flattenOf outer store ranges get).view fuel) fuel
        (concatenation outer ranges get) ∧
      ReadsAs ((pipeline outer store ranges get predicate fuel).view fuel) fuel
        (kept predicate (concatenation outer ranges get)) := by
  refine ⟨outer.length + (concatenation outer ranges get).length, fun fuel hfuel => ?_⟩
  obtain ⟨At₁, houter⟩ := containerView_presents outer
  have hflat := Flatten.presents (F := flattenOf outer store ranges get) houter
    (fun x => (ranges x).spans) (show outer.length < fuel by omega)
  have hconcat : outer.flatMap ((flattenOf outer store ranges get).part fun x => (ranges x).elems)
      = concatenation outer ranges get := rfl
  rw [hconcat] at hflat
  have hfilter := Filter.presents (F := pipeline outer store ranges get predicate fuel) hflat
    (show (concatenation outer ranges get).length < fuel by omega)
  rw [filter_matchValue] at hfilter
  have hshort : (kept predicate (concatenation outer ranges get)).length
      ≤ (concatenation outer ranges get).length := by
    unfold kept
    split
    · exact Nat.le_refl _
    · exact List.length_filter_le _ _
  exact ⟨readsAs_of_presents hflat (by omega),
    readsAs_of_presents hfilter (show (kept predicate _).length < fuel by omega)⟩

/-- Two containers, an empty range first, in the middle and last; the even values are kept. -/
example :
    ((pipeline [0, 1, 2, 3, 4] (fun k : Bool => if k then [1, 2, 3] else [4, 6])
        (fun x : Nat =>
          if x = 1 then ⟨true, 1, 3, by decide, by decide⟩
          else if x = 3 then ⟨false, 0, 2, by decide, by decide⟩
          else ⟨false, 1, 1, by decide, by decide⟩)
        (fun _ y => y) (some fun y => y % 2 == 0) 16).view 16).toList 16
      = some [2, 4, 6] := by decide

end MicroProfiler.Views
