/-
  Foundation/Scope.lean --- a stack that is searched from the top for a hit, up to a bound.

  A hit in scope is closed by cutting the stack below it.  Closing what is implied before the
  search takes more than that from the stack, unless something that is not implied stands above
  the hit.
-/
import Mathlib.Data.List.TakeWhile

set_option autoImplicit false

namespace TinyFramework.Foundation

variable {α : Type} {hit bound skip : α → Bool} {l above below : List α} {x : α}

/-- A hit stands above every bound. -/
def inScope (hit bound : α → Bool) : List α → Bool
  | [] => false
  | x :: l => if hit x then true else if bound x then false else inScope hit bound l

/-- What stands below the topmost hit. -/
def cutBelow (hit : α → Bool) (l : List α) : List α := (l.dropWhile fun x => !hit x).tail

/-- The stack after its topmost hit was closed, if it is in scope. -/
def closeHit (hit bound : α → Bool) (l : List α) : List α :=
  if inScope hit bound l then cutBelow hit l else l

/-- The same after everything on top that may be skipped was taken away. -/
def closeSkipping (skip hit bound : α → Bool) (l : List α) : List α :=
  closeHit hit bound (l.dropWhile skip)

theorem inScope_append (habove : ∀ y ∈ above, hit y = false ∧ bound y = false) :
    inScope hit bound (above ++ l) = inScope hit bound l := by
  induction above with
  | nil => rfl
  | cons y above ih =>
    obtain ⟨hhit, hbound⟩ := habove y List.mem_cons_self
    rw [List.cons_append, inScope, hhit, hbound, if_neg Bool.false_ne_true,
      if_neg Bool.false_ne_true]
    exact ih fun z hz => habove z (List.mem_cons_of_mem y hz)

theorem cutBelow_append (habove : ∀ y ∈ above, hit y = false) (hx : hit x = true) :
    cutBelow hit (above ++ x :: below) = below := by
  have hpos : ∀ y ∈ above, (!hit y) = true := fun y hy => by rw [habove y hy, Bool.not_false]
  rw [cutBelow, List.dropWhile_append_of_pos hpos,
    List.dropWhile_cons_of_neg (by rw [hx, Bool.not_true]; exact Bool.false_ne_true),
    List.tail_cons]

/-- Where a hit is in scope, the stack is split at it. -/
theorem exists_split_of_inScope (h : inScope hit bound l = true) :
    ∃ above x below, l = above ++ x :: below ∧ hit x = true ∧
      ∀ y ∈ above, hit y = false ∧ bound y = false := by
  induction l with
  | nil => cases h
  | cons y l ih =>
    rw [inScope] at h
    split_ifs at h with hhit hbound
    · exact ⟨[], y, l, rfl, hhit, nofun⟩
    · obtain ⟨above, x, below, rfl, hx, habove⟩ := ih h
      refine ⟨y :: above, x, below, rfl, hx, fun z hz => ?_⟩
      rcases List.mem_cons.1 hz with rfl | hz
      · exact ⟨Bool.eq_false_iff.2 hhit, Bool.eq_false_iff.2 hbound⟩
      · exact habove z hz

theorem inScope_split (hx : hit x = true)
    (habove : ∀ y ∈ above, hit y = false ∧ bound y = false) :
    inScope hit bound (above ++ x :: below) = true := by
  rw [inScope_append habove, inScope, if_pos hx]

theorem length_closeHit_le : (closeHit hit bound l).length ≤ l.length := by
  rw [closeHit]
  split_ifs
  · exact Nat.le_trans (List.tail_sublist _).length_le (List.dropWhile_sublist _).length_le
  · exact Nat.le_refl _

theorem closeHit_eq_self_iff : closeHit hit bound l = l ↔ inScope hit bound l = false := by
  rw [closeHit]
  split_ifs with hscope
  · obtain ⟨above, x, below, rfl, hx, habove⟩ := exists_split_of_inScope hscope
    rw [cutBelow_append (fun y hy => (habove y hy).1) hx, hscope]
    refine iff_of_false (fun h => ?_) (by decide)
    have hlength := congrArg List.length h
    rw [List.length_append, List.length_cons] at hlength
    omega
  · exact iff_of_true rfl (Bool.eq_false_iff.2 hscope)

theorem dropWhile_eq_self_iff_head : l.dropWhile skip = l ↔ ∀ y ∈ l.head?, skip y = false := by
  cases l with
  | nil => simp
  | cons y l =>
    cases hy : skip y with
    | false => simp [hy]
    | true =>
      simp only [List.head?_cons, Option.mem_def, Option.some.injEq, forall_eq', hy]
      refine iff_of_false (fun h => ?_) (by decide)
      have hlength := congrArg List.length h
      have hle := (List.dropWhile_sublist (l := l) skip).length_le
      rw [List.dropWhile_cons_of_pos hy, List.length_cons] at hlength
      omega

/-- Skipping first takes nothing away exactly if nothing on top may be skipped, and nothing is
in scope. -/
theorem closeSkipping_eq_self_iff : closeSkipping skip hit bound l = l ↔
    (∀ y ∈ l.head?, skip y = false) ∧ inScope hit bound l = false := by
  rw [← dropWhile_eq_self_iff_head, closeSkipping]
  constructor
  · intro h
    have hlength : (l.dropWhile skip).length = l.length :=
      Nat.le_antisymm (List.dropWhile_sublist _).length_le
        (Nat.le_trans (Nat.le_of_eq (congrArg List.length h).symm) length_closeHit_le)
    have hself : l.dropWhile skip = l := (List.dropWhile_sublist _).eq_of_length hlength
    rw [hself] at h
    exact ⟨hself, closeHit_eq_self_iff.1 h⟩
  · rintro ⟨hself, hscope⟩
    rw [hself]
    exact closeHit_eq_self_iff.2 hscope

/-- Something above the topmost hit may not be skipped; or nothing on top of what stands below
it may, and there is no further hit in scope there.  Without a hit in scope, nothing on top may
be skipped. -/
def SkipsNothing (skip hit bound : α → Bool) (l : List α) : Prop :=
  if inScope hit bound l then
    (∃ y ∈ l.takeWhile fun x => !hit x, skip y = false) ∨
      (∀ y ∈ (cutBelow hit l).head?, skip y = false) ∧ inScope hit bound (cutBelow hit l) = false
  else ∀ y ∈ l.head?, skip y = false

/-- If every hit may be skipped, closing with skipping is closing exactly then. -/
theorem closeSkipping_eq_closeHit_iff (hskip : ∀ y, hit y = true → skip y = true) :
    closeSkipping skip hit bound l = closeHit hit bound l ↔ SkipsNothing skip hit bound l := by
  cases hscope : inScope hit bound l with
  | false =>
    have hclose : closeHit hit bound l = l := closeHit_eq_self_iff.2 hscope
    rw [hclose, closeSkipping_eq_self_iff, SkipsNothing, hscope, if_neg Bool.false_ne_true,
      and_iff_left rfl]
  | true =>
    rw [SkipsNothing, hscope, if_pos rfl]
    obtain ⟨above, x, below, rfl, hx, habove⟩ := exists_split_of_inScope hscope
    have hhits : ∀ y ∈ above, (!hit y) = true := fun y hy => by
      rw [(habove y hy).1, Bool.not_false]
    have htake : (above ++ x :: below).takeWhile (fun x => !hit x) = above := by
      rw [List.takeWhile_append_of_pos hhits,
        List.takeWhile_cons_of_neg (by rw [hx, Bool.not_true]; exact Bool.false_ne_true),
        List.append_nil]
    have hcut : cutBelow hit (above ++ x :: below) = below :=
      cutBelow_append (fun y hy => (habove y hy).1) hx
    rw [htake, closeHit, hscope, if_pos rfl, hcut]
    by_cases hstop : ∃ y ∈ above, skip y = false
    · refine iff_of_true ?_ (.inl hstop)
      have hdrop : (above ++ x :: below).dropWhile skip = above.dropWhile skip ++ x :: below := by
        rw [List.dropWhile_append, if_neg]
        obtain ⟨y, hy, hstop⟩ := hstop
        intro hempty
        rw [List.isEmpty_iff, List.dropWhile_eq_nil_iff] at hempty
        rw [hempty y hy] at hstop
        cases hstop
      have hrest : ∀ y ∈ above.dropWhile skip, hit y = false ∧ bound y = false := fun y hy =>
        habove y ((List.dropWhile_sublist _).subset hy)
      rw [closeSkipping, hdrop, closeHit, inScope_split hx hrest, if_pos rfl]
      exact cutBelow_append (fun y hy => (hrest y hy).1) hx
    · have hall : ∀ y ∈ above ++ [x], skip y = true := by
        intro y hy
        rcases List.mem_append.1 hy with hy | hy
        · exact Bool.of_not_eq_false fun hstop' => hstop ⟨y, hy, hstop'⟩
        · exact List.mem_singleton.1 hy ▸ hskip x hx
      have hdrop : closeSkipping skip hit bound (above ++ x :: below) =
          closeSkipping skip hit bound below := by
        rw [closeSkipping, closeSkipping, ← List.singleton_append, ← List.append_assoc,
          List.dropWhile_append_of_pos hall]
      rw [hdrop, closeSkipping_eq_self_iff, or_iff_right hstop]

end TinyFramework.Foundation
