/-
  Foundation/Runs.lean --- the runs of marked places in a list, reversed.

  A list is passed over once for each of several thresholds, from the highest on, and in each pass
  the maximal runs of places whose key reaches the threshold are reversed.  It makes no difference
  whether the runs of a pass are found in the list as it was at first or as it is by then: only
  places that reach the threshold have been exchanged.
-/
import Mathlib.Data.List.Range

set_option autoImplicit false

namespace TinyFramework.Foundation

universe u v

variable {α : Type u} {β : Type v}

/-- The maximal runs of marked places, each reversed; `run` is what was read of the one under way,
the last first. -/
def reverseRuns : List α → List Bool → List α → List α
  | run, true :: marks, x :: xs => reverseRuns (x :: run) marks xs
  | run, false :: marks, x :: xs => run ++ x :: reverseRuns [] marks xs
  | run, _, xs => run ++ xs

theorem map_reverseRuns (f : α → β) (run : List α) (marks : List Bool) (xs : List α) :
    (reverseRuns run marks xs).map f = reverseRuns (run.map f) marks (xs.map f) := by
  induction marks generalizing run xs with
  | nil => simp [reverseRuns]
  | cons mark marks ih =>
    cases xs with
    | nil => cases mark <;> simp [reverseRuns]
    | cons x xs =>
      cases mark with
      | true => exact ih (x :: run) xs
      | false =>
        rw [reverseRuns, List.map_append, List.map_cons, ih]
        rfl

/-- What every place of a run has stays where it is. -/
theorem map_reverseRuns_of_imp {p q : α → Bool} (hpq : ∀ x, p x = true → q x = true)
    (run xs : List α) (hrun : ∀ x ∈ run, q x = true) :
    (reverseRuns run (xs.map p) xs).map q = run.map q ++ xs.map q := by
  induction xs generalizing run with
  | nil => simp [reverseRuns]
  | cons x xs ih =>
    cases hx : p x with
    | true =>
      have hall : (x :: run).map q = run.map q ++ [q x] := by
        have hsame : ∀ l : List α, (∀ y ∈ l, q y = true) → l.map q = List.replicate l.length true :=
          fun l hl => List.eq_replicate_iff.2 ⟨List.length_map _, by simpa using hl⟩
        rw [List.map_cons, hsame run hrun, hpq x hx, ← List.replicate_succ, List.replicate_succ']
      rw [List.map_cons, hx, reverseRuns, ih (x :: run) (by simpa [hpq x hx] using hrun), hall,
        List.append_assoc]
      rfl
    | false =>
      rw [List.map_cons, hx, reverseRuns, List.map_append, List.map_cons,
        ih [] (fun _ h => absurd h List.not_mem_nil)]
      rfl

/-! ## One pass after the other -/

/-- A pass for each threshold over `xs`, the runs found by `keys`. -/
def reversals (keys : List Nat) (thresholds : List Nat) (xs : List α) : List α :=
  thresholds.foldl (fun xs k => reverseRuns [] (keys.map fun key => decide (k ≤ key)) xs) xs

/-- A pass for each threshold, the runs found in the list as it is by then. -/
def selfReversals (thresholds : List Nat) (keys : List Nat) : List Nat :=
  thresholds.foldl (fun keys k => reverseRuns [] (keys.map fun key => decide (k ≤ key)) keys) keys

theorem map_reversals (f : α → β) (keys thresholds : List Nat) (xs : List α) :
    (reversals keys thresholds xs).map f = reversals keys thresholds (xs.map f) := by
  induction thresholds generalizing xs with
  | nil => rfl
  | cons k thresholds ih =>
    show (reversals keys thresholds (reverseRuns [] _ xs)).map f = _
    rw [ih, map_reverseRuns]
    rfl

/-- From the highest threshold on, the runs are always those of the list at first. -/
theorem selfReversals_eq (thresholds : List Nat) (hdown : thresholds.Pairwise (· ≥ ·))
    (start keys : List Nat)
    (hmarks : ∀ k ∈ thresholds, keys.map (fun key => decide (k ≤ key)) =
      start.map fun key => decide (k ≤ key)) :
    selfReversals thresholds keys = reversals start thresholds keys := by
  induction thresholds generalizing keys with
  | nil => rfl
  | cons k thresholds ih =>
    rw [List.pairwise_cons] at hdown
    show selfReversals thresholds (reverseRuns [] (keys.map fun key => decide (k ≤ key)) keys) = _
    rw [ih hdown.2]
    · rw [hmarks k List.mem_cons_self]
      rfl
    · intro l hl
      have hkept := map_reverseRuns_of_imp (p := fun key => decide (k ≤ key))
        (q := fun key => decide (l ≤ key)) (fun key hkey => by
          have hle : l ≤ k := hdown.1 l hl
          rw [decide_eq_true_eq] at hkey ⊢
          exact hle.trans hkey) [] keys (fun _ h => absurd h List.not_mem_nil)
      rw [hkept]
      exact hmarks l (List.mem_cons_of_mem _ hl)

/-- The list is carried to where its places are carried. -/
theorem selfReversals_eq_map (thresholds : List Nat) (hdown : thresholds.Pairwise (· ≥ ·))
    (keys : List Nat) :
    selfReversals thresholds keys =
      (reversals keys thresholds (List.range keys.length)).map fun i => keys.getD i 0 := by
  have hplaces : (List.range keys.length).map (fun i => keys.getD i 0) = keys := by
    refine List.ext_getElem (by simp) fun i _ hi => ?_
    simp [List.getElem?_eq_getElem hi]
  rw [map_reversals, hplaces]
  exact selfReversals_eq thresholds hdown keys keys fun _ _ => rfl

end TinyFramework.Foundation
