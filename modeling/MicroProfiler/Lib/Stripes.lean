/-
  Consuming a list `n` elements at a time.

  `stripes` is the loop that takes whole stripes from the front while there are any and hands back
  what is short of one.  The point of it is `stripes_append`: what a first part leaves over can be
  put before a second part, so data may come in ANY pieces.

  Nothing here names the program.
-/
import Mathlib.Data.List.Basic

namespace MicroProfiler.Lib

variable {σ α : Type}

/-- Fold `f` over the whole stripes of `n`; the second part is the remainder. -/
def stripes (n : Nat) (f : σ → List α → σ) (s : σ) (xs : List α) : σ × List α :=
  if 0 < n ∧ n ≤ xs.length then stripes n f (f s (xs.take n)) (xs.drop n) else (s, xs)
termination_by xs.length
decreasing_by
  rw [List.length_drop]
  omega

/-- Short of a stripe nothing is consumed. -/
theorem stripes_of_lt {n : Nat} {f : σ → List α → σ} {s : σ} {xs : List α} (h : xs.length < n) :
    stripes n f s xs = (s, xs) := by
  rw [stripes, if_neg (by omega)]

/-- Else the first stripe is. -/
theorem stripes_of_le {n : Nat} {f : σ → List α → σ} {s : σ} {xs : List α} (hn : 0 < n)
    (h : n ≤ xs.length) :
    stripes n f s xs = stripes n f (f s (xs.take n)) (xs.drop n) := by
  rw [stripes, if_pos ⟨hn, h⟩]

/-- Less than a stripe is left over. -/
theorem stripes_rest_length {n : Nat} (hn : 0 < n) (f : σ → List α → σ) (s : σ) (xs : List α) :
    (stripes n f s xs).2.length < n := by
  fun_induction stripes n f s xs with
  | case1 s xs _ ih => exact ih
  | case2 s xs h => exact Nat.lt_of_not_le fun hle => h ⟨hn, hle⟩

/-- **The crux**: stripes of a concatenation are those of the first part, then those of what it
    left over followed by the second. -/
theorem stripes_append {n : Nat} (hn : 0 < n) (f : σ → List α → σ) (s : σ) (xs ys : List α) :
    stripes n f s (xs ++ ys)
      = stripes n f (stripes n f s xs).1 ((stripes n f s xs).2 ++ ys) := by
  fun_induction stripes n f s xs with
  | case1 s xs h ih =>
    have hle : n ≤ (xs ++ ys).length := by
      rw [List.length_append]
      omega
    rw [stripes_of_le hn hle, List.take_append_of_le_length h.2, List.drop_append_of_le_length h.2]
    exact ih
  | case2 s xs h => rfl

end MicroProfiler.Lib
