/-
  Foundation/Directories.lean --- ways through a tree of directories.

  A place is the list of the names down to it, the last first.  A way is a list of moves, each of
  which stays, goes up or goes down to a name; above the root there is only the root.
-/
import Mathlib.Data.List.TakeDrop

set_option autoImplicit false

namespace TinyFramework.Foundation

variable {α : Type}

inductive Move (α : Type) where
  | here
  | up
  | down (name : α)

/-- Where a move leads. -/
def Move.act (place : List α) : Move α → List α
  | .here => place
  | .up => place.tail
  | .down name => name :: place

/-- Where a way leads. -/
def follow (place : List α) (way : List (Move α)) : List α := way.foldl Move.act place

theorem follow_append (place : List α) (a b : List (Move α)) :
    follow place (a ++ b) = follow (follow place a) b :=
  List.foldl_append

theorem follow_downs (place names : List α) :
    follow place (names.map .down) = names.reverse ++ place := by
  induction names generalizing place with
  | nil => rfl
  | cons a names ih =>
    have h : follow place ((a :: names).map .down) = follow (a :: place) (names.map .down) := rfl
    rw [h, ih, List.reverse_cons, List.append_assoc, List.singleton_append]

theorem follow_ups (place : List α) (k : Nat) :
    follow place (List.replicate k .up) = place.drop k := by
  induction k generalizing place with
  | zero => rfl
  | succ k ih =>
    have h : follow place (List.replicate (k + 1) .up) = follow place.tail (List.replicate k .up) :=
      rfl
    rw [h, ih, List.drop_tail]

/-- The names of a place that a way leads to come from where it began or from the way. -/
theorem mem_follow {a : α} {place : List α} {way : List (Move α)} (h : a ∈ follow place way) :
    a ∈ place ∨ .down a ∈ way := by
  induction way generalizing place with
  | nil => exact .inl h
  | cons move way ih =>
    rcases ih h with hact | hway
    · cases move with
      | here => exact .inl hact
      | up => exact .inl (List.mem_of_mem_tail hact)
      | down name =>
        rcases List.mem_cons.1 hact with rfl | hplace
        · exact .inr List.mem_cons_self
        · exact .inl hplace
    · exact .inr (List.mem_cons_of_mem _ hway)

theorem length_follow_le (place : List α) (way : List (Move α)) :
    (follow place way).length ≤ place.length + way.length := by
  induction way generalizing place with
  | nil => exact Nat.le_refl _
  | cons move way ih =>
    have hact : (move.act place).length ≤ place.length + 1 := by
      cases move with
      | here => exact Nat.le_succ _
      | up =>
        rw [Move.act, List.length_tail]
        omega
      | down name => exact Nat.le_refl _
    have hrest := ih (move.act place)
    have hstep : follow place (move :: way) = follow (move.act place) way := rfl
    rw [hstep, List.length_cons]
    omega

/-- Up to the first `c` names of a place, and down to another one; names are from the root on. -/
def wayBetween (c : Nat) (source target : List α) : List (Move α) :=
  List.replicate (source.length - c) .up ++ (target.drop c).map .down

/-- How many names two places share, none of them the last of its place. -/
def sharedLevels [DecidableEq α] : List α → List α → Nat
  | a :: source, b :: target =>
      if a = b ∧ source ≠ [] ∧ target ≠ [] then sharedLevels source target + 1 else 0
  | _, _ => 0

theorem sharedLevels_spec [DecidableEq α] (source target : List α) :
    sharedLevels source target ≤ source.length ∧ sharedLevels source target ≤ target.length ∧
      source.take (sharedLevels source target) = target.take (sharedLevels source target) := by
  induction source generalizing target with
  | nil => exact ⟨Nat.le_refl 0, Nat.zero_le _, by simp [sharedLevels]⟩
  | cons a source ih =>
    cases target with
    | nil => exact ⟨Nat.zero_le _, Nat.le_refl 0, by simp [sharedLevels]⟩
    | cons b target =>
      rw [sharedLevels]
      split_ifs with h
      · obtain ⟨hsource, htarget, htake⟩ := ih target
        refine ⟨Nat.succ_le_succ hsource, Nat.succ_le_succ htarget, ?_⟩
        rw [List.take_succ_cons, List.take_succ_cons, h.1, htake]
      · exact ⟨Nat.zero_le _, Nat.zero_le _, rfl⟩

/-- The first moves of a way lead to its end if they are all of it, or if its end is on the way
up and they stop there. -/
theorem follow_wayBetween_take {c : Nat} {source target : List α} (hsource : c ≤ source.length)
    (htarget : c ≤ target.length) (hshared : source.take c = target.take c) (k : Nat) :
    follow source.reverse ((wayBetween c source target).take k) = target.reverse ↔
      source.length - c + (target.length - c) ≤ k ∨
        target <+: source ∧ target.length + k = source.length := by
  have hup : ∀ j, source.reverse.drop j = (source.take (source.length - j)).reverse := by
    intro j
    rw [List.drop_reverse]
  rcases Nat.le_total k (source.length - c) with hk | hk
  · have htake : (wayBetween c source target).take k = List.replicate k .up := by
      rw [wayBetween, List.take_append_of_le_length (by rwa [List.length_replicate]),
        List.take_replicate, Nat.min_eq_left hk]
    rw [htake, follow_ups, hup, List.reverse_inj]
    constructor
    · rintro rfl
      right
      rw [List.length_take]
      exact ⟨List.take_prefix _ _, by omega⟩
    · rintro (hall | ⟨habove, hlen⟩)
      · rw [show source.length - k = c by omega, hshared, List.take_of_length_le (by omega)]
      · rw [List.prefix_iff_eq_take.1 habove, show source.length - k = target.length by omega]
  · have htake : (wayBetween c source target).take k =
        List.replicate (source.length - c) .up ++
          ((target.drop c).take (k - (source.length - c))).map .down := by
      rw [wayBetween, List.take_append, List.length_replicate, List.take_replicate,
        Nat.min_eq_right hk, List.map_take]
    have hjoin : target.take c ++ (target.drop c).take (k - (source.length - c)) =
        target.take (c + (k - (source.length - c))) := List.take_add.symm
    rw [htake, follow_append, follow_ups, follow_downs, hup,
      show source.length - (source.length - c) = c by omega, hshared, ← List.reverse_append, hjoin,
      List.reverse_inj, List.take_eq_self_iff]
    constructor
    · intro hle
      left
      omega
    · rintro (hall | ⟨habove, hlen⟩)
      · omega
      · omega

end TinyFramework.Foundation
