/-
  Runs that come to an end by themselves.

  Some actions of a system are DRIVEN (`D`): they are taken without anybody's help as soon as they can be.
  If each lowers a weight, runs of them are finite (`run_weight`); if until something is done one can
  be taken that lowers it, it gets done (`run_completes`).

  Nothing here names the program.
-/
import MicroProfiler.Lib.Runs

namespace MicroProfiler.Lib

variable {S A : Type} {step : S → A → Option S} {P : S → Prop} {D : A → Prop} {w : S → Nat}

/-- A run of driven actions is no longer than the weight it starts with. -/
theorem run_weight (hdown : ∀ s a s', P s → D a → step s a = some s' → P s' ∧ w s' < w s) :
    ∀ (as : List A) (s s' : S), P s → (∀ a ∈ as, D a) → run step s as = some s' →
      as.length + w s' ≤ w s := by
  intro as
  induction as with
  | nil =>
    intro s s' _ _ hrun
    obtain rfl : s = s' := by simpa using hrun
    exact Nat.le_of_eq (Nat.zero_add _)
  | cons a as ih =>
    intro s s' hs hall hrun
    obtain ⟨t, ht, hrest⟩ := run_cons_eq_some.mp hrun
    obtain ⟨hPt, hlt⟩ := hdown s a t hs (hall a List.mem_cons_self) ht
    have hle := ih t s' hPt (fun x hx => hall x (List.mem_cons_of_mem a hx)) hrest
    show as.length + 1 + w s' ≤ w s
    omega

/-- **The progress rule**: by induction on the weight, when some driven action lowers it. -/
theorem run_completes {Q : S → Prop}
    (hprogress : ∀ s, P s → ¬ Q s → ∃ a, D a ∧ ∃ s', step s a = some s' ∧ P s' ∧ w s' < w s) (s : S)
    (hs : P s) : ∃ as, (∀ a ∈ as, D a) ∧ ∃ s', run step s as = some s' ∧ P s' ∧ Q s' := by
  induction hw : w s using Nat.strongRecOn generalizing s with
  | ind n ih =>
    by_cases hdone : Q s
    · exact ⟨[], fun _ h => absurd h List.not_mem_nil, s, rfl, hs, hdone⟩
    · obtain ⟨a, ha, t, ht, hPt, hlt⟩ := hprogress s hs hdone
      obtain ⟨as, hall, s', hrun, hend⟩ := ih (w t) (hw ▸ hlt) t hPt rfl
      refine ⟨a :: as, fun x hx => ?_, s', run_cons_eq_some.mpr ⟨t, ht, hrun⟩, hend⟩
      rcases List.mem_cons.mp hx with rfl | hx
      · exact ha
      · exact hall x hx

end MicroProfiler.Lib
