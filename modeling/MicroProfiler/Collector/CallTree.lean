/-
  The call-tree reading of a trace: what a stream of enter/exit records MEANS.

  This is the reference the shadow stack is compared with.  It knows nothing of statistics maps,
  accumulators or batches:

  * `Calls` — a forest of finished calls, each with its own calls inside;
  * `CallTree` — a forest of finished root calls plus the chain of calls still open, each with the
    finished calls made directly from it;
  * `CallTree.step` — reading one record: an enter opens a call, an exit closes the innermost one;
  * `CallTree.records` — the converse, writing a tree out as the records it is read from.
    `records_run` says that reading a trace gives a tree that writes out as that very trace, so
    the reading is not a matter of convention.

  A finished call's times are then defined from the tree alone (`CompletedCall.inclusive`,
  `CompletedCall.exclusive`): the descendants are COUNTED in the subtree, the direct children
  summed.  `wellNested_iff` characterises the traces that can be read at all: in each prefix, no
  more exits than enters.
-/
import MicroProfiler.Lib.Runs
import MicroProfiler.Common.Primitives
import Mathlib.Data.List.Infix
import Mathlib.Tactic.Ring

namespace MicroProfiler

variable {K : Type}

/-- A forest of finished calls: the most recent one, the calls made inside it, the earlier ones. -/
inductive Calls (K : Type) where
  | nil : Calls K
  | cons (callee : K) (enter exit : Int) (children earlier : Calls K) : Calls K
deriving DecidableEq, Repr

/-- A finished call: where it was made from, when, and the calls made inside it. -/
structure CompletedCall (K : Type) where
  path : List K
  enter : Int
  exit : Int
  children : Calls K
deriving DecidableEq, Repr

/-- A call entered and not left yet, with the calls finished inside it so far. -/
structure OpenCall (K : Type) where
  callee : K
  enter : Int
  children : Calls K
deriving DecidableEq, Repr

/-- What a trace prefix denotes: the finished root calls and the open calls, innermost first. -/
structure CallTree (K : Type) where
  roots : Calls K
  opened : List (OpenCall K)
deriving DecidableEq, Repr

namespace Calls

/-- Number of calls in the forest, at every depth. -/
def count : Calls K → Nat
  | nil => 0
  | cons _ _ _ children earlier => 1 + children.count + earlier.count

/-- Time the direct calls of the forest took as their caller sees it: `(exit - enter) + outer`. -/
def directTime (outer : Int) : Calls K → Int
  | nil => 0
  | cons _ enter exit _ earlier => ((exit - enter) + outer) + earlier.directTime outer

/-- The forest's calls in the order they finished, for a forest called from path `p`. -/
def completed (p : List K) : Calls K → List (CompletedCall K)
  | nil => []
  | cons callee enter exit children earlier =>
      earlier.completed p ++ children.completed (p ++ [callee])
        ++ [⟨p ++ [callee], enter, exit, children⟩]

/-- The forest written out as records. -/
def records : Calls K → List (CallRecord K)
  | nil => []
  | cons callee enter exit children earlier =>
      earlier.records ++ ⟨enter, some callee⟩ :: children.records ++ [⟨exit, none⟩]

end Calls

/-- Inclusive time: the observed duration less one inner overhead for the call itself and a total
    overhead for each of its completed descendants. -/
def CompletedCall.inclusive (o : Overhead) (c : CompletedCall K) : Int :=
  (c.exit - c.enter) - o.inner - (o.inner + o.outer) * c.children.count

/-- Exclusive time: the observed duration less the inner overhead and the direct children's time. -/
def CompletedCall.exclusive (o : Overhead) (c : CompletedCall K) : Int :=
  (c.exit - c.enter) - o.inner - c.children.directTime o.outer

namespace CallTree

/-- Nothing read yet. -/
def empty : CallTree K := ⟨.nil, []⟩

/-- The address path of a chain of open calls (innermost first), outermost callee first. -/
def pathOf : List (OpenCall K) → List K
  | [] => []
  | c :: outer => pathOf outer ++ [c.callee]

/-- Hang a just finished call under the innermost open call, or among the roots. -/
def hang (t : CallTree K) (callee : K) (enter exit : Int) (children : Calls K) : CallTree K :=
  match t.opened with
  | [] => { t with roots := .cons callee enter exit children t.roots }
  | c :: outer =>
      { t with opened := { c with children := .cons callee enter exit children c.children } :: outer }

/-- Read one record.  An exit with nothing open has no reading. -/
def step (t : CallTree K) (r : CallRecord K) : Option (CallTree K) :=
  match r.callee with
  | some k => some { t with opened := ⟨k, r.timestamp, .nil⟩ :: t.opened }
  | none =>
      match t.opened with
      | [] => none
      | c :: outer => some (hang ⟨t.roots, outer⟩ c.callee c.enter r.timestamp c.children)

/-- Read a whole trace. -/
def read (trace : List (CallRecord K)) : Option (CallTree K) := Lib.run step empty trace

/-- The calls finished under a chain of open calls, in the order they finished. -/
def completedUnder (roots : Calls K) : List (OpenCall K) → List (CompletedCall K)
  | [] => roots.completed []
  | c :: outer => completedUnder roots outer ++ c.children.completed (pathOf (c :: outer))

/-- All finished calls of the tree, in the order they finished. -/
def completed (t : CallTree K) : List (CompletedCall K) := completedUnder t.roots t.opened

/-- The paths of the calls still open, innermost first. -/
def openPathsOf : List (OpenCall K) → List (List K)
  | [] => []
  | c :: outer => pathOf (c :: outer) :: openPathsOf outer

def openPaths (t : CallTree K) : List (List K) := openPathsOf t.opened

/-- The paths of all calls of the tree, finished or open. -/
def callPaths (t : CallTree K) : List (List K) := t.completed.map (·.path) ++ t.openPaths

/-- The tree written out as records. -/
def recordsUnder (roots : Calls K) : List (OpenCall K) → List (CallRecord K)
  | [] => roots.records
  | c :: outer => recordsUnder roots outer ++ ⟨c.enter, some c.callee⟩ :: c.children.records

def records (t : CallTree K) : List (CallRecord K) := recordsUnder t.roots t.opened

/-! ## Reading and writing are converse -/

theorem step_enter (t : CallTree K) (ts : Int) (k : K) :
    t.step ⟨ts, some k⟩ = some { t with opened := ⟨k, ts, .nil⟩ :: t.opened } := rfl

theorem step_exit (roots : Calls K) (c : OpenCall K) (outer : List (OpenCall K)) (ts : Int) :
    (CallTree.mk roots (c :: outer)).step ⟨ts, none⟩ =
      some (hang ⟨roots, outer⟩ c.callee c.enter ts c.children) := rfl

/-- **One-step inversion**: an enter opens a call, an exit closes the innermost open one. -/
theorem step_cases {t t' : CallTree K} {r : CallRecord K} (h : t.step r = some t') :
    (∃ k, r.callee = some k ∧ t' = { t with opened := ⟨k, r.timestamp, .nil⟩ :: t.opened }) ∨
    (∃ c outer, r.callee = none ∧ t.opened = c :: outer ∧
      t' = hang ⟨t.roots, outer⟩ c.callee c.enter r.timestamp c.children) := by
  cases hr : r.callee with
  | some k =>
    simp only [step, hr, Option.some.injEq] at h
    exact Or.inl ⟨k, rfl, h.symm⟩
  | none =>
    cases ho : t.opened with
    | nil => simp [step, hr, ho] at h
    | cons c outer =>
      simp only [step, hr, ho, Option.some.injEq] at h
      exact Or.inr ⟨c, outer, rfl, rfl, h.symm⟩

theorem records_hang (roots : Calls K) (outer : List (OpenCall K)) (k : K) (enter exit : Int)
    (children : Calls K) :
    (hang ⟨roots, outer⟩ k enter exit children).records =
      recordsUnder roots outer ++ ⟨enter, some k⟩ :: children.records ++ [⟨exit, none⟩] := by
  cases outer with
  | nil => simp [hang, records, recordsUnder, Calls.records]
  | cons c outer => simp [hang, records, recordsUnder, Calls.records]

/-- One record read is one record more to write. -/
theorem records_step {t t' : CallTree K} {r : CallRecord K} (h : t.step r = some t') :
    t'.records = t.records ++ [r] := by
  obtain ⟨ts, callee⟩ := r
  rcases step_cases h with ⟨k, hk, rfl⟩ | ⟨c, outer, hk, ho, rfl⟩
  · obtain rfl : callee = some k := hk
    simp [records, recordsUnder, Calls.records]
  · obtain rfl : callee = none := hk
    rw [records_hang, records, ho, recordsUnder]

/-- **Reading then writing gives the trace back.** -/
theorem records_run : ∀ (trace : List (CallRecord K)) (t t' : CallTree K),
    Lib.run step t trace = some t' → t'.records = t.records ++ trace := by
  intro trace
  induction trace with
  | nil =>
    intro t t' h
    obtain rfl : t = t' := by simpa using h
    simp
  | cons r trace ih =>
    intro t t' h
    obtain ⟨t₁, h₁, hrest⟩ := Lib.run_cons_eq_some.mp h
    rw [ih t₁ t' hrest, records_step h₁, List.append_assoc, List.singleton_append]

/-! ## What a closing call adds to the finished ones -/

theorem completed_hang (roots : Calls K) (outer : List (OpenCall K)) (k : K) (enter exit : Int)
    (children : Calls K) :
    (hang ⟨roots, outer⟩ k enter exit children).completed =
      completedUnder roots outer ++ children.completed (pathOf outer ++ [k])
        ++ [⟨pathOf outer ++ [k], enter, exit, children⟩] := by
  cases outer with
  | nil => simp [hang, completed, completedUnder, Calls.completed, pathOf]
  | cons c outer => simp [hang, completed, completedUnder, Calls.completed, pathOf]

/-- Entering finishes nothing. -/
theorem completed_enter (t : CallTree K) (k : K) (ts : Int) :
    (CallTree.mk t.roots (⟨k, ts, .nil⟩ :: t.opened)).completed = t.completed := by
  simp [completed, completedUnder, Calls.completed]

/-- Leaving finishes exactly the innermost open call. -/
theorem completed_exit (roots : Calls K) (c : OpenCall K) (outer : List (OpenCall K)) (ts : Int) :
    (hang ⟨roots, outer⟩ c.callee c.enter ts c.children).completed =
      (CallTree.mk roots (c :: outer)).completed
        ++ [⟨pathOf (c :: outer), c.enter, ts, c.children⟩] := by
  rw [completed_hang]
  rfl

theorem openPaths_hang (roots : Calls K) (outer : List (OpenCall K)) (k : K) (enter exit : Int)
    (children : Calls K) :
    (hang ⟨roots, outer⟩ k enter exit children).openPaths = openPathsOf outer := by
  cases outer <;> rfl

theorem length_opened_hang (roots : Calls K) (outer : List (OpenCall K)) (k : K)
    (enter exit : Int) (children : Calls K) :
    (hang ⟨roots, outer⟩ k enter exit children).opened.length = outer.length := by
  cases outer <;> rfl

theorem length_pathOf (opened : List (OpenCall K)) : (pathOf opened).length = opened.length := by
  induction opened with
  | nil => rfl
  | cons c outer ih => simp [pathOf, ih]

/-- The paths of the open calls are the non-empty prefixes of the innermost one's. -/
theorem mem_openPathsOf_iff (p : List K) (opened : List (OpenCall K)) :
    p ∈ openPathsOf opened ↔ p ≠ [] ∧ p <+: pathOf opened := by
  induction opened with
  | nil =>
    simp only [openPathsOf, pathOf, List.not_mem_nil, List.prefix_nil, false_iff]
    exact fun h => h.1 h.2
  | cons c outer ih =>
    simp only [openPathsOf, pathOf, List.mem_cons, ih, List.prefix_concat_iff]
    constructor
    · rintro (rfl | ⟨hne, hp⟩)
      · exact ⟨by simp, Or.inl rfl⟩
      · exact ⟨hne, Or.inr hp⟩
    · rintro ⟨hne, rfl | hp⟩
      · exact Or.inl rfl
      · exact Or.inr ⟨hne, hp⟩

/-- One record adds to the known paths at most those now open. -/
theorem mem_callPaths_step {t t' : CallTree K} {r : CallRecord K} (h : t.step r = some t')
    (p : List K) : p ∈ t'.callPaths ↔ p ∈ t.callPaths ∨ p ∈ t'.openPaths := by
  rcases step_cases h with ⟨k, _, rfl⟩ | ⟨c, outer, _, ho, rfl⟩
  · simp only [callPaths, completed_enter, openPaths, openPathsOf, List.mem_append, List.mem_cons]
    tauto
  · have hopen : t.openPaths = pathOf (c :: outer) :: openPathsOf outer := by
      rw [openPaths, ho]; rfl
    have hcompleted : t.completed = (CallTree.mk t.roots (c :: outer)).completed := by
      rw [completed, ho]; rfl
    simp only [callPaths, completed_exit, openPaths_hang, hcompleted, hopen, List.map_append,
      List.map_cons, List.map_nil, List.mem_append, List.mem_cons,
      List.not_mem_nil, or_false]
    tauto

theorem completed_path_ne_nil (p : List K) (f : Calls K) :
    ∀ c ∈ f.completed p, c.path ≠ [] := by
  induction f generalizing p with
  | nil => intro c hc; exact absurd hc List.not_mem_nil
  | cons k enter exit children earlier ihc ihe =>
    intro c hc
    rw [Calls.completed, List.mem_append, List.mem_append, List.mem_singleton] at hc
    rcases hc with (hc | hc) | rfl
    · exact ihe p c hc
    · exact ihc _ c hc
    · simp

/-- Every call has a non-empty path. -/
theorem ne_nil_of_mem_callPaths {t : CallTree K} {p : List K} (hp : p ∈ t.callPaths) :
    p ≠ [] := by
  rcases List.mem_append.mp hp with h | h
  · obtain ⟨c, hc, rfl⟩ := List.mem_map.mp h
    have hall : ∀ opened, ∀ c ∈ completedUnder t.roots opened, c.path ≠ [] := by
      intro opened
      induction opened with
      | nil => exact completed_path_ne_nil [] t.roots
      | cons o outer ih =>
        intro c hc
        rcases List.mem_append.mp hc with hc | hc
        · exact ih c hc
        · exact completed_path_ne_nil _ _ c hc
    exact hall t.opened c hc
  · exact ((mem_openPathsOf_iff p t.opened).mp h).1

/-- Calls are made below the path they are called from. -/
theorem length_lt_completed (f : Calls K) : ∀ (p : List K), ∀ c ∈ f.completed p,
    p.length < c.path.length := by
  induction f with
  | nil => exact fun _ _ hc => absurd hc List.not_mem_nil
  | cons k enter exit children earlier ihc ihe =>
    intro p c hc
    rw [Calls.completed, List.mem_append, List.mem_append, List.mem_singleton] at hc
    rcases hc with (hc | hc) | rfl
    · exact ihe p c hc
    · have := ihc (p ++ [k]) c hc
      rw [List.length_append] at this
      exact (Nat.lt_succ_self _).trans this
    · rw [List.length_append]
      exact Nat.lt_succ_self _

/-- What the exclusive times of a forest's calls add up to: what the caller sees of them, less all
    overheads. -/
theorem sum_exclusive (o : Overhead) (f : Calls K) : ∀ p : List K,
    ((f.completed p).map (·.exclusive o)).sum =
      f.directTime o.outer - (o.inner + o.outer) * f.count := by
  induction f with
  | nil =>
    intro p
    simp [Calls.completed, Calls.directTime, Calls.count]
  | cons k enter exit children earlier ihc ihe =>
    intro p
    rw [Calls.completed, List.map_append, List.map_append, List.sum_append, List.sum_append, ihe, ihc]
    simp only [List.map_cons, List.map_nil, List.sum_cons, List.sum_nil, CompletedCall.exclusive,
      Calls.directTime, Calls.count]
    push_cast
    ring

/-- The inclusive times of the calls made directly add up to the same. -/
theorem sum_inclusive (o : Overhead) (f : Calls K) : ∀ p : List K,
    (((f.completed p).filter fun c => c.path.length = p.length + 1).map (·.inclusive o)).sum =
      f.directTime o.outer - (o.inner + o.outer) * f.count := by
  induction f with
  | nil =>
    intro p
    simp [Calls.completed, Calls.directTime, Calls.count]
  | cons k enter exit children earlier _ ihe =>
    intro p
    have hbelow : (children.completed (p ++ [k])).filter
        (fun c => c.path.length = p.length + 1) = [] := by
      rw [List.filter_eq_nil_iff]
      intro c hc hlength
      have hlt := length_lt_completed children _ c hc
      rw [List.length_append] at hlt
      exact absurd (of_decide_eq_true hlength) (Nat.ne_of_gt hlt)
    have hself : [(⟨p ++ [k], enter, exit, children⟩ : CompletedCall K)].filter
        (fun c => c.path.length = p.length + 1) = [⟨p ++ [k], enter, exit, children⟩] := by
      simp
    rw [Calls.completed, List.filter_append, List.filter_append, hbelow, hself, List.append_nil,
      List.map_append, List.sum_append, ihe]
    simp only [List.map_cons, List.map_nil, List.sum_cons, List.sum_nil, CompletedCall.inclusive,
      Calls.directTime, Calls.count]
    push_cast
    ring

end CallTree

/-! ## The traces that can be read -/

/-- Number of enter records. -/
def enters (trace : List (CallRecord K)) : Nat := trace.countP (·.callee.isSome)

/-- Number of exit records. -/
def exits (trace : List (CallRecord K)) : Nat := trace.countP (·.callee.isNone)

/-- In each prefix, no more exits than enters. -/
def WellNested (trace : List (CallRecord K)) : Prop :=
  ∀ p, p <+: trace → exits p ≤ enters p

instance (trace : List (CallRecord K)) : Decidable (WellNested trace) :=
  decidable_of_iff (∀ p ∈ trace.inits, exits p ≤ enters p) (by simp [WellNested, List.mem_inits])

theorem enters_append (a b : List (CallRecord K)) : enters (a ++ b) = enters a + enters b :=
  List.countP_append

theorem exits_append (a b : List (CallRecord K)) : exits (a ++ b) = exits a + exits b :=
  List.countP_append

namespace CallTree

/-- One record moves the open depth by one. -/
theorem depth_step {t t' : CallTree K} {r : CallRecord K} (h : t.step r = some t') :
    t'.opened.length + exits [r] = t.opened.length + enters [r] := by
  rcases step_cases h with ⟨k, hk, rfl⟩ | ⟨c, outer, hk, ho, rfl⟩
  · simp [exits, enters, hk]
  · rw [length_opened_hang, ho]
    simp [exits, enters, hk]

/-- The open depth is the surplus of enters over exits. -/
theorem depth_run : ∀ (trace : List (CallRecord K)) (t t' : CallTree K),
    Lib.run step t trace = some t' →
      t'.opened.length + exits trace = t.opened.length + enters trace := by
  intro trace
  induction trace with
  | nil =>
    intro t t' h
    obtain rfl : t = t' := by simpa using h
    rfl
  | cons r trace ih =>
    intro t t' h
    obtain ⟨t₁, h₁, hrest⟩ := Lib.run_cons_eq_some.mp h
    have hstep := depth_step h₁
    have hrun := ih t₁ t' hrest
    have he : enters (r :: trace) = enters [r] + enters trace := enters_append [r] trace
    have hx : exits (r :: trace) = exits [r] + exits trace := exits_append [r] trace
    omega

/-- A trace can be read on from `t` as soon as no prefix closes more calls than are open. -/
theorem exists_run : ∀ (trace : List (CallRecord K)) (t : CallTree K),
    (∀ p, p <+: trace → exits p ≤ t.opened.length + enters p) →
      ∃ t', Lib.run step t trace = some t' := by
  intro trace
  induction trace with
  | nil => intro t _; exact ⟨t, rfl⟩
  | cons r trace ih =>
    intro t hpre
    have hfirst := hpre [r] ⟨trace, rfl⟩
    have hstep : ∃ t₁, t.step r = some t₁ := by
      cases hr : r.callee with
      | some k => exact ⟨_, by rw [step, hr]⟩
      | none =>
        cases ho : t.opened with
        | nil => simp [exits, enters, hr, ho] at hfirst
        | cons c outer => exact ⟨_, by rw [step, hr, ho]⟩
    obtain ⟨t₁, h₁⟩ := hstep
    have hdepth := depth_step h₁
    obtain ⟨t', h'⟩ := ih t₁ (by
      intro p hp
      have h := hpre (r :: p) (List.cons_prefix_cons.mpr ⟨rfl, hp⟩)
      have he : enters (r :: p) = enters [r] + enters p := enters_append [r] p
      have hx : exits (r :: p) = exits [r] + exits p := exits_append [r] p
      omega)
    exact ⟨t', Lib.run_cons_eq_some.mpr ⟨t₁, h₁, h'⟩⟩

/-- **The readable traces are the well-nested ones.** -/
theorem wellNested_iff (trace : List (CallRecord K)) :
    WellNested trace ↔ ∃ t, read trace = some t := by
  constructor
  · intro hw
    exact exists_run trace empty (fun p hp => by
      have := hw p hp
      simp only [empty, List.length_nil]
      omega)
  · rintro ⟨t, ht⟩ p ⟨q, hpq⟩
    rw [read, ← hpq] at ht
    obtain ⟨t₁, h₁, _⟩ := Lib.run_append_eq_some.mp ht
    have := depth_run p empty t₁ h₁
    simp only [empty, List.length_nil] at this
    omega

end CallTree

end MicroProfiler
