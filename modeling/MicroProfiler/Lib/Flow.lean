/-
  Queues shared by several parties, each of which may close.

  Entries carry the party they belong to.  What was sent, what was taken so far and what is still
  queued are related party by party (`Flow`): for a party that is open, what was sent is what was
  taken followed by what is queued, IN ORDER; for one that closed, what was taken stays a prefix of
  it.  Each way a queue changes (`send`, `take`, `drop`, `close`) keeps that.

  Nothing here names the program.
-/
import Mathlib.Data.List.Basic

namespace MicroProfiler.Lib

variable {ι α : Type} [DecidableEq ι]

/-- The entries of one party, in order. -/
def ofParty (i : ι) (entries : List (ι × α)) : List α :=
  (entries.filter fun e => e.1 = i).map Prod.snd

/-- Nobody has entries in an empty queue. -/
@[simp] theorem ofParty_nil (i : ι) : ofParty i ([] : List (ι × α)) = [] := rfl

/-- Entries of one part, then of the other. -/
@[simp] theorem ofParty_append (i : ι) (xs ys : List (ι × α)) :
    ofParty i (xs ++ ys) = ofParty i xs ++ ofParty i ys := by
  rw [ofParty, List.filter_append, List.map_append]
  rfl

/-- A party's own entry is the first of its own, -/
@[simp] theorem ofParty_cons_self (i : ι) (a : α) (xs : List (ι × α)) :
    ofParty i ((i, a) :: xs) = a :: ofParty i xs := by
  rw [ofParty, List.filter_cons_of_pos (by simp), List.map_cons]
  rfl

/-- and another party's is none of them. -/
theorem ofParty_cons_ne {i j : ι} (h : j ≠ i) (a : α) (xs : List (ι × α)) :
    ofParty i ((j, a) :: xs) = ofParty i xs := by
  rw [ofParty, List.filter_cons_of_neg (by simpa using h)]
  rfl

/-- The same at the end of a queue. -/
theorem ofParty_append_other {i j : ι} (h : j ≠ i) (xs : List (ι × α)) (a : α) :
    ofParty i (xs ++ [(j, a)]) = ofParty i xs := by
  rw [ofParty_append, ofParty_cons_ne h, ofParty_nil, List.append_nil]

/-- What was sent, taken and is queued, party by party. -/
structure Flow (closed : ι → Prop) (sent taken queued : List (ι × α)) : Prop where
  /-- nothing of an open party is lost -/
  opened : ∀ i, ¬ closed i → ofParty i sent = ofParty i taken ++ ofParty i queued
  /-- of a closed one, nothing is taken that was not sent, nor out of order -/
  isPrefix : ∀ i, ofParty i taken <+: ofParty i sent

namespace Flow

variable {closed : ι → Prop} {sent taken queued : List (ι × α)}

/-- Nothing was sent yet. -/
theorem nil : Flow closed ([] : List (ι × α)) [] [] where
  opened _ _ := rfl
  isPrefix _ := List.prefix_refl _

/-- Any party sends, open or not. -/
theorem send (h : Flow closed sent taken queued) (e : ι × α) :
    Flow closed (sent ++ [e]) taken (queued ++ [e]) where
  opened i hi := by
    rw [ofParty_append, ofParty_append, h.opened i hi, List.append_assoc]
  isPrefix i := by
    rw [ofParty_append]
    exact (h.isPrefix i).trans (List.prefix_append _ _)

/-- The party at the front is open: its entry is the next of its own. -/
theorem take {j : ι} {a : α} (h : Flow closed sent taken ((j, a) :: queued)) (hj : ¬ closed j) :
    Flow closed sent (taken ++ [(j, a)]) queued := by
  -- an entry moves from what is queued to what was taken
  have hsame : ∀ i, ofParty i (taken ++ [(j, a)]) ++ ofParty i queued
      = ofParty i taken ++ ofParty i ((j, a) :: queued) := by
    intro i
    rw [ofParty_append, List.append_assoc, ← ofParty_append, List.singleton_append]
  refine ⟨fun i hi => ?_, fun i => ?_⟩
  · rw [hsame, h.opened i hi]
  · by_cases hi : closed i
    · have hne : j ≠ i := fun heq => hj (heq ▸ hi)
      rw [ofParty_append, ofParty_cons_ne hne, ofParty_nil, List.append_nil]
      exact h.isPrefix i
    · rw [h.opened i hi, ← hsame]
      exact List.prefix_append _ _

/-- The party at the front has closed: its entry goes without a trace. -/
theorem drop {j : ι} {a : α} (h : Flow closed sent taken ((j, a) :: queued)) (hj : closed j) :
    Flow closed sent taken queued := by
  refine ⟨fun i hi => ?_, h.isPrefix⟩
  have hne : j ≠ i := fun heq => hi (heq ▸ hj)
  rw [h.opened i hi, ofParty_cons_ne hne]

/-- Parties only close. -/
theorem close {closed' : ι → Prop} (h : Flow closed sent taken queued)
    (hclose : ∀ i, closed i → closed' i) : Flow closed' sent taken queued :=
  ⟨fun i hi => h.opened i fun hc => hi (hclose i hc), h.isPrefix⟩

end Flow

end MicroProfiler.Lib
