/-
  Runs of a partial step function, and the two rules every module below argues with.

  A component is modelled as `step : S → A → Option S`: `none` is a step the component must never
  be asked for (an underflowed stack, a dangling handle).  `run` iterates it over a list of
  actions.  Everything said about "any sequence of operations" is then one of two things:

  * an INVARIANT (`run_invariant`, `run_invariant_on` for runs of one kind of action, `run_returns`
    for steps that return only under a condition): preserved by one step, hence by every run;
  * a FORWARD SIMULATION (`run_simulates`): a related abstract run drives the concrete one, which
    therefore never gets stuck.  This is the rule that turns "the abstract run exists" into "the
    code returns".  Where the concrete steps match only up to a limit, or under a condition,
    `run_simulates_while` and `run_tracks_iff` say so of whole runs.

  Where a step is guarded by what its caller promises, `of_allowed` takes the guard off.

  Nothing here names the program.
-/
import Mathlib.Data.List.Basic

namespace MicroProfiler.Lib

variable {S T A : Type}

/-- Run `step` over a list of actions, stopping at the first refusal. -/
def run (step : S → A → Option S) : S → List A → Option S
  | s, [] => some s
  | s, a :: as => (step s a).bind fun s' => run step s' as

/-- Nothing to do, -/
@[simp] theorem run_nil (step : S → A → Option S) (s : S) : run step s [] = some s := rfl

/-- or one step first. -/
theorem run_cons (step : S → A → Option S) (s : S) (a : A) (as : List A) :
    run step s (a :: as) = (step s a).bind fun s' => run step s' as := rfl

/-- A run can be cut anywhere. -/
theorem run_append (step : S → A → Option S) : ∀ (as bs : List A) (s : S),
    run step s (as ++ bs) = (run step s as).bind fun s' => run step s' bs
  | [], bs, s => rfl
  | a :: as, bs, s => by
    rw [List.cons_append, run_cons, run_cons, Option.bind_assoc]
    cases step s a with
    | none => rfl
    | some s' => exact run_append step as bs s'

/-- A run that took `a` first went through `step s a`. -/
theorem run_cons_eq_some {step : S → A → Option S} {s t : S} {a : A} {as : List A} :
    run step s (a :: as) = some t ↔ ∃ s', step s a = some s' ∧ run step s' as = some t := by
  rw [run_cons, Option.bind_eq_some_iff]

/-- A run that went through has a state in the middle. -/
theorem run_append_eq_some {step : S → A → Option S} {s t : S} {as bs : List A} :
    run step s (as ++ bs) = some t ↔ ∃ s', run step s as = some s' ∧ run step s' bs = some t := by
  rw [run_append, Option.bind_eq_some_iff]

/-- Running batch by batch is running the batches joined together. -/
theorem run_flatten (step : S → A → Option S) : ∀ (batches : List (List A)) (s : S),
    run (fun s batch => run step s batch) s batches = run step s batches.flatten
  | [], _ => rfl
  | batch :: batches, s => by
    rw [List.flatten_cons, run_append, run_cons]
    cases run step s batch with
    | none => rfl
    | some s' => exact run_flatten step batches s'

/-- Actions that carry more than the step reads. -/
theorem run_map {B : Type} (step : S → A → Option S) (f : B → A) : ∀ (bs : List B) (s : S),
    run (fun s b => step s (f b)) s bs = run step s (bs.map f)
  | [], _ => rfl
  | b :: bs, s => by
    rw [List.map_cons, run_cons, run_cons]
    cases step s (f b) with
    | none => rfl
    | some s' => exact run_map step f bs s'

/-- **The invariant rule**, for actions of some kind `Q`: what one such action preserves, every
    run of them preserves. -/
theorem run_invariant_on {step : S → A → Option S} {P : S → Prop} {Q : A → Prop}
    (hstep : ∀ s a s', Q a → P s → step s a = some s' → P s') :
    ∀ (as : List A) (s s' : S), (∀ a ∈ as, Q a) → P s → run step s as = some s' → P s' := by
  intro as
  induction as with
  | nil =>
    intro s s' _ hs hrun
    obtain rfl : s = s' := by simpa using hrun
    exact hs
  | cons a as ih =>
    intro s s' hall hs hrun
    obtain ⟨t, hst, hrest⟩ := run_cons_eq_some.mp hrun
    exact ih t s' (fun x hx => hall x (List.mem_cons_of_mem a hx))
      (hstep s a t (hall a List.mem_cons_self) hs hst) hrest

/-- **The invariant rule**: what one step preserves, every run preserves. -/
theorem run_invariant {step : S → A → Option S} {P : S → Prop}
    (hstep : ∀ s a s', P s → step s a = some s' → P s') (as : List A) (s s' : S) (hs : P s)
    (hrun : run step s as = some s') : P s' :=
  run_invariant_on (Q := fun _ => True) (fun s a s' _ => hstep s a s') as s s'
    (fun _ _ => trivial) hs hrun

/-- `Q` holds before every step of the run. -/
def Along (step : S → A → Option S) (Q : S → A → Prop) : S → List A → Prop
  | _, [] => True
  | s, a :: as => Q s a ∧ ∀ s', step s a = some s' → Along step Q s' as

/-- **The invariant rule for steps that return only where `Q` holds**: a run along which it does goes
    through, and keeps the invariant. -/
theorem run_returns {step : S → A → Option S} {P : S → Prop} {Q : S → A → Prop}
    (hstep : ∀ s a, P s → Q s a → ∃ s', step s a = some s' ∧ P s') :
    ∀ (as : List A) (s : S), P s → Along step Q s as → ∃ s', run step s as = some s' ∧ P s' := by
  intro as
  induction as with
  | nil => exact fun s hs _ => ⟨s, rfl, hs⟩
  | cons a as ih =>
    rintro s hs ⟨ha, hrest⟩
    obtain ⟨s₁, hs₁, hP₁⟩ := hstep s a hs ha
    obtain ⟨s', hs', hP'⟩ := ih s₁ hP₁ (hrest s₁ hs₁)
    exact ⟨s', run_cons_eq_some.mpr ⟨s₁, hs₁, hs'⟩, hP'⟩

/-- What holds along a run holds along its two parts. -/
theorem along_append {step : S → A → Option S} {Q : S → A → Prop} :
    ∀ {as bs : List A} {s s' : S}, Along step Q s (as ++ bs) → run step s as = some s' →
      Along step Q s as ∧ Along step Q s' bs := by
  intro as
  induction as with
  | nil =>
    intro bs s s' hall hrun
    obtain rfl : s = s' := by simpa using hrun
    exact ⟨trivial, hall⟩
  | cons a as ih =>
    rintro bs s s' ⟨ha, hrest⟩ hrun
    obtain ⟨s₁, hs₁, hrun₁⟩ := run_cons_eq_some.mp hrun
    have hsplit := ih (hrest s₁ hs₁) hrun₁
    refine ⟨⟨ha, fun s₂ hs₂ => ?_⟩, hsplit.2⟩
    cases hs₁.symm.trans hs₂
    exact hsplit.1

/-- **The invariant rule, backwards**: what held after one step only if before, held at the start of
    every run it holds at the end of. -/
theorem run_invariant_back {step : S → A → Option S} {P : S → Prop}
    (hback : ∀ s a s', step s a = some s' → P s' → P s) :
    ∀ (as : List A) (s s' : S), run step s as = some s' → P s' → P s := by
  intro as
  induction as with
  | nil =>
    intro s s' hrun hs'
    obtain rfl : s = s' := by simpa using hrun
    exact hs'
  | cons a as ih =>
    intro s s' hrun hs'
    obtain ⟨s₁, hs₁, hrest⟩ := run_cons_eq_some.mp hrun
    exact hback s a s₁ hs₁ (ih s₁ s' hrest hs')

/-- A step that is taken only where it is allowed has done what performing it establishes there. -/
theorem of_allowed {allowed : Prop} [Decidable allowed] {performed : Option S} {P : S → Prop} {s : S}
    (hperform : allowed → ∃ s₁, performed = some s₁ ∧ P s₁)
    (hstep : (if allowed then performed else none) = some s) : P s := by
  split at hstep
  · next h =>
    obtain ⟨s₁, hs₁, hP⟩ := hperform h
    obtain rfl : s₁ = s := Option.some.inj (hs₁.symm.trans hstep)
    exact hP
  · cases hstep

/-- **The simulation rule**: if every abstract step can be matched by a concrete one, every
    abstract run can, and the end states are related again. -/
theorem run_simulates {step : S → A → Option S} {astep : T → A → Option T} {R : S → T → Prop}
    (hstep : ∀ s t a t', R s t → astep t a = some t' → ∃ s', step s a = some s' ∧ R s' t') :
    ∀ (as : List A) (s : S) (t t' : T), R s t → run astep t as = some t' →
      ∃ s', run step s as = some s' ∧ R s' t' := by
  intro as
  induction as with
  | nil =>
    intro s t t' hR hrun
    obtain rfl : t = t' := by simpa using hrun
    exact ⟨s, rfl, hR⟩
  | cons a as ih =>
    intro s t t' hR hrun
    obtain ⟨t₁, ht₁, hrest⟩ := run_cons_eq_some.mp hrun
    obtain ⟨s₁, hs₁, hR₁⟩ := hstep s t a t₁ hR ht₁
    obtain ⟨s', hs', hR'⟩ := ih s₁ t₁ t' hR₁ hrest
    exact ⟨s', run_cons_eq_some.mpr ⟨s₁, hs₁, hs'⟩, hR'⟩

/-- **The simulation rule up to a limit**: steps are matched only while the abstract state stays
    within `P`, which once left is never entered again; a run that ends within it is matched. -/
theorem run_simulates_while {step : S → A → Option S} {astep : T → A → Option T} {R : S → T → Prop}
    {P : T → Prop} (hback : ∀ t a t', astep t a = some t' → P t' → P t)
    (hstep : ∀ s t a t', R s t → astep t a = some t' → P t' → ∃ s', step s a = some s' ∧ R s' t') :
    ∀ (as : List A) (s : S) (t t' : T), R s t → run astep t as = some t' → P t' →
      ∃ s', run step s as = some s' ∧ R s' t' := by
  intro as
  induction as with
  | nil =>
    intro s t t' hR hrun _
    obtain rfl : t = t' := by simpa using hrun
    exact ⟨s, rfl, hR⟩
  | cons a as ih =>
    intro s t t' hR hrun hok
    obtain ⟨t₁, ht₁, hrest⟩ := run_cons_eq_some.mp hrun
    obtain ⟨s₁, hs₁, hR₁⟩ := hstep s t a t₁ hR ht₁ (run_invariant_back hback as t₁ t' hrest hok)
    obtain ⟨s', hs', hR'⟩ := ih s₁ t₁ t' hR₁ hrest hok
    exact ⟨s', run_cons_eq_some.mpr ⟨s₁, hs₁, hs'⟩, hR'⟩

end MicroProfiler.Lib
