/-
  Three-way comparisons, as a column of a table gives them: a negative number, zero or a positive
  number.

  1. `ThreeWay s compare` — on the elements of `s`, `compare` is a consistent weak order.
  2. `ThreeWay.of_rank` — it is one as soon as it compares by some rank in a linear order;
     `ThreeWay.flip` — the opposite direction is one as well.
  3. `Before compare key` — the comparison with a number to break its ties: a strict total order on
     elements that the numbers tell apart (`ThreeWay.before_strictTotal`).

  Nothing here names the program.
-/
import Mathlib.Data.Set.Defs
import Mathlib.Order.Lattice

namespace MicroProfiler.Lib

variable {T R : Type}

/-- A strict total order on `s`. -/
structure StrictTotalOn (s : Set T) (lt : T → T → Prop) : Prop where
  irrefl : ∀ a ∈ s, ¬ lt a a
  trans : ∀ a ∈ s, ∀ b ∈ s, ∀ c ∈ s, lt a b → lt b c → lt a c
  total : ∀ a ∈ s, ∀ b ∈ s, a ≠ b → lt a b ∨ lt b a

/-- No two elements are less than each other. -/
theorem StrictTotalOn.asymm {s : Set T} {lt : T → T → Prop} (h : StrictTotalOn s lt) {a b : T}
    (ha : a ∈ s) (hb : b ∈ s) (hab : lt a b) : ¬ lt b a :=
  fun hba => h.irrefl a ha (h.trans a ha b hb a ha hab hba)

/-- A consistent weak order on `s`. -/
structure ThreeWay (s : Set T) (compare : T → T → Int) : Prop where
  /-- the sign turns with the sides -/
  swap : ∀ a ∈ s, ∀ b ∈ s, compare a b < 0 ↔ 0 < compare b a
  /-- of "not greater", which covers ties as well -/
  trans : ∀ a ∈ s, ∀ b ∈ s, ∀ c ∈ s, compare a b ≤ 0 → compare b c ≤ 0 → compare a c ≤ 0

/-- **A comparison of ranks** is a consistent weak order. -/
theorem ThreeWay.of_rank [LinearOrder R] {s : Set T} {compare : T → T → Int} (rank : T → R)
    (hless : ∀ a ∈ s, ∀ b ∈ s, compare a b < 0 ↔ rank a < rank b)
    (hgreater : ∀ a ∈ s, ∀ b ∈ s, 0 < compare a b ↔ rank b < rank a) : ThreeWay s compare where
  swap := by
    intro a ha b hb
    rw [hless a ha b hb, hgreater b hb a ha]
  trans := by
    intro a ha b hb c hc hab hbc
    rw [← Int.not_lt, hgreater a ha b hb, not_lt] at hab
    rw [← Int.not_lt, hgreater b hb c hc, not_lt] at hbc
    rw [← Int.not_lt, hgreater a ha c hc, not_lt]
    exact le_trans hab hbc

section

variable {s : Set T} {compare : T → T → Int} (h : ThreeWay s compare)

include h

/-- **The opposite direction.** -/
theorem ThreeWay.flip : ThreeWay s fun a b => compare b a where
  swap := fun a ha b hb => h.swap b hb a ha
  trans := fun a ha b hb c hc hab hbc => h.trans c hc b hb a ha hbc hab

/-- A tie is one from either side. -/
theorem ThreeWay.swap_zero {a b : T} (ha : a ∈ s) (hb : b ∈ s) :
    compare a b = 0 ↔ compare b a = 0 := by
  have hab := h.swap a ha b hb
  have hba := h.swap b hb a ha
  omega

end

/-- `compare`, with ties broken by `key`. -/
def Before (compare : T → T → Int) (key : T → Nat) (a b : T) : Prop :=
  compare a b < 0 ∨ compare a b = 0 ∧ key a < key b

section

variable {s : Set T} {compare : T → T → Int} (h : ThreeWay s compare) {key : T → Nat}

include h

/-- Nothing comes before itself: it ties with itself, and its number is its own. -/
theorem ThreeWay.before_irrefl {a : T} (ha : a ∈ s) : ¬ Before compare key a a := by
  have hself := h.swap a ha a ha
  rintro (hlt | ⟨_, hlt⟩)
  · omega
  · exact Nat.lt_irrefl _ hlt

/-- **Transitivity**, in the four cases of which of the two comparisons were ties. -/
theorem ThreeWay.before_trans {a b c : T} (ha : a ∈ s) (hb : b ∈ s) (hc : c ∈ s)
    (hab : Before compare key a b) (hbc : Before compare key b c) : Before compare key a c := by
  have hle := h.trans a ha b hb c hc
  -- were `a` and `c` tied, so would `b` be with both
  have hba := h.trans c hc a ha b hb
  have hcb := h.trans b hb c hc a ha
  have hswap := h.swap a ha b hb
  have hswap' := h.swap b hb c hc
  have hswap'' := h.swap a ha c hc
  have hzero := h.swap_zero ha hc
  rcases hab with hlt | ⟨heq, hkey⟩ <;> rcases hbc with hlt' | ⟨heq', hkey'⟩
  · left
    omega
  · left
    omega
  · left
    omega
  · by_cases htie : compare a c = 0
    · exact Or.inr ⟨htie, Nat.lt_trans hkey hkey'⟩
    · left
      omega

/-- Of two elements with different numbers one comes first. -/
theorem ThreeWay.before_total {a b : T} (ha : a ∈ s) (hb : b ∈ s) (hne : key a ≠ key b) :
    Before compare key a b ∨ Before compare key b a := by
  have hswap := h.swap a ha b hb
  have hzero := h.swap_zero ha hb
  unfold Before
  omega

/-- **With its ties broken**, a consistent weak order is a strict total order. -/
theorem ThreeWay.before_strictTotal (hkey : ∀ a ∈ s, ∀ b ∈ s, key a = key b → a = b) :
    StrictTotalOn s (Before compare key) where
  irrefl := fun _ ha => h.before_irrefl ha
  trans := fun _ ha _ hb _ hc => h.before_trans ha hb hc
  total := fun a ha b hb hne => h.before_total ha hb fun heq => hne (hkey a ha b hb heq)

end

end MicroProfiler.Lib
