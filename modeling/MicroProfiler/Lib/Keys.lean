/-
  Lists whose elements are told apart by a key.

  The containers of the program are modelled as lists and read by `find?`, which stops at the FIRST
  match; with distinct keys it is the only one.  So an element is found by its own key
  (`find?_key`), and an association list is the graph of what is read from it
  (`find?_pair_eq_some`).  Keys stay distinct while new ones are appended.

  Nothing here names the program.
-/
import Mathlib.Data.List.Nodup

namespace MicroProfiler.Lib

variable {α β κ : Type}

/-- Elements stay apart when one is appended that is not there yet. -/
theorem nodup_append_singleton {xs : List α} {x : α} (h : xs.Nodup) (hx : x ∉ xs) :
    (xs ++ [x]).Nodup :=
  h.append (List.nodup_singleton x) (List.disjoint_singleton.mpr hx)

/-- The only element that matches is found. -/
theorem find?_of_unique {p : α → Bool} {xs : List α} {x : α} (hx : x ∈ xs) (hp : p x = true)
    (hunique : ∀ y ∈ xs, p y = true → y = x) : xs.find? p = some x := by
  cases hfind : xs.find? p with
  | none => exact absurd hp (List.find?_eq_none.mp hfind x hx)
  | some y => rw [hunique y (List.mem_of_find?_eq_some hfind) (List.find?_some hfind)]

variable [DecidableEq κ]

/-- An element is found by its key. -/
theorem find?_key {key : α → κ} {xs : List α} (hnodup : (xs.map key).Nodup) {x : α} (hx : x ∈ xs) :
    xs.find? (fun y => key y = key x) = some x :=
  find?_of_unique hx (decide_eq_true rfl) fun _ hy heq =>
    List.inj_on_of_nodup_map hnodup hy hx (of_decide_eq_true heq)

/-- **Association lists**: what is read is what is there. -/
theorem find?_pair_eq_some {xs : List (κ × β)} (hnodup : (xs.map Prod.fst).Nodup) {k : κ} {v : β} :
    (xs.find? fun x => x.1 = k).map Prod.snd = some v ↔ (k, v) ∈ xs := by
  constructor
  · intro h
    obtain ⟨x, hx, rfl⟩ := Option.map_eq_some_iff.mp h
    obtain rfl : x.1 = k := of_decide_eq_true (List.find?_some hx :)
    exact List.mem_of_find?_eq_some hx
  · intro hmem
    exact congrArg (Option.map Prod.snd) (find?_key hnodup hmem)

end MicroProfiler.Lib
