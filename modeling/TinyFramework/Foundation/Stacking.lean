/-
  Foundation/Stacking.lean --- a stacking order and its topmost element.

  Insertion sort puts an element in front of the longest tail of those that are shifted
  for it.  To shift what has a larger key sorts by ascending keys and keeps the order of
  equal ones; to shift what has no larger key gives the same list from its end.  The last
  element of a concatenation that meets a condition is the first one found from behind.
-/
import Mathlib.Data.List.DropRight
import Mathlib.Order.Lattice

set_option autoImplicit false

namespace TinyFramework.Foundation

/-! ## Sorting by shifting -/

section Shift

variable {α : Type}

/-- Put `k` in front of the tail of elements that are shifted for it. -/
def shiftInsert (shift : α → α → Bool) (acc : List α) (k : α) : List α :=
  acc.rdropWhile (shift · k) ++ k :: acc.rtakeWhile (shift · k)

/-- Insert the elements one after another. -/
def shiftSort (shift : α → α → Bool) (l : List α) : List α :=
  l.foldl (shiftInsert shift) []

theorem shiftInsert_perm (shift : α → α → Bool) (acc : List α) (k : α) :
    (shiftInsert shift acc k).Perm (k :: acc) := by
  have hparts : acc.rdropWhile (shift · k) ++ acc.rtakeWhile (shift · k) = acc :=
    List.rdropWhile_append_rtakeWhile
  have hmiddle : (shiftInsert shift acc k).Perm
      (k :: (acc.rdropWhile (shift · k) ++ acc.rtakeWhile (shift · k))) := List.perm_middle
  rwa [hparts] at hmiddle

theorem shiftSort_perm (shift : α → α → Bool) (l : List α) : (shiftSort shift l).Perm l := by
  have hfold : ∀ acc, (l.foldl (shiftInsert shift) acc).Perm (acc ++ l) := by
    induction l with
    | nil =>
      intro acc
      rw [List.append_nil]
      exact List.Perm.refl _
    | cons k l ih =>
      intro acc
      refine (ih _).trans ?_
      refine ((shiftInsert_perm shift acc k).append_right l).trans ?_
      exact List.perm_middle.symm
  exact hfold []

@[simp] theorem mem_shiftSort {shift : α → α → Bool} {l : List α} {a : α} :
    a ∈ shiftSort shift l ↔ a ∈ l :=
  (shiftSort_perm shift l).mem_iff

/-- A tail that is shifted, behind elements that are not. -/
theorem rtakeWhile_append {p : α → Bool} {a b : List α} (ha : ∀ x ∈ a, p x = false)
    (hb : ∀ x ∈ b, p x = true) :
    (a ++ b).rtakeWhile p = b ∧ (a ++ b).rdropWhile p = a := by
  have hfront : a.reverse.takeWhile p = [] := by
    cases hrev : a.reverse with
    | nil => rfl
    | cons x xs =>
      have hx : p x = false := ha x (List.mem_reverse.1 (hrev ▸ List.mem_cons_self))
      rw [List.takeWhile_cons_of_neg (by simp [hx])]
  have htake : (a ++ b).rtakeWhile p = b := by
    rw [List.rtakeWhile, List.reverse_append,
      List.takeWhile_append_of_pos fun x hx => hb x (List.mem_reverse.1 hx), hfront,
      List.append_nil, List.reverse_reverse]
  have hparts : (a ++ b).rdropWhile p ++ (a ++ b).rtakeWhile p = a ++ b :=
    List.rdropWhile_append_rtakeWhile
  rw [htake] at hparts
  exact ⟨htake, List.append_cancel_right hparts⟩

section Mirror

variable {K : Type} [LinearOrder K] (key : α → K)

/-- Ascending keys, equal ones in their order. -/
def ascending (a k : α) : Bool := decide (key k < key a)

/-- Descending keys, equal ones from the last. -/
def descending (a k : α) : Bool := decide (key a ≤ key k)

/-- The elements of a sorted list up to a key and those beyond it. -/
theorem split_sorted {acc : List α} (h : acc.Pairwise fun a b => key a ≤ key b) (k : α) :
    ∃ a b, acc = a ++ b ∧ (∀ x ∈ a, key x ≤ key k) ∧ ∀ x ∈ b, key k < key x := by
  induction acc with
  | nil => exact ⟨[], [], rfl, by simp, by simp⟩
  | cons x acc ih =>
    obtain ⟨hx, hacc⟩ := List.pairwise_cons.1 h
    rcases le_or_gt (key x) (key k) with hle | hlt
    · obtain ⟨a, b, rfl, ha, hb⟩ := ih hacc
      refine ⟨x :: a, b, rfl, ?_, hb⟩
      intro y hy
      rcases List.mem_cons.1 hy with rfl | hy
      · exact hle
      · exact ha y hy
    · refine ⟨[], x :: acc, rfl, by simp, ?_⟩
      intro y hy
      rcases List.mem_cons.1 hy with rfl | hy
      · exact hlt
      · exact lt_of_lt_of_le hlt (hx y hy)

/-- One insertion keeps a list sorted, and mirrors the other order's. -/
theorem shiftInsert_mirror {acc : List α} (h : acc.Pairwise fun a b => key a ≤ key b) (k : α) :
    (shiftInsert (ascending key) acc k).Pairwise (fun a b => key a ≤ key b) ∧
      shiftInsert (descending key) acc.reverse k = (shiftInsert (ascending key) acc k).reverse := by
  obtain ⟨a, b, rfl, ha, hb⟩ := split_sorted key h k
  obtain ⟨hasc, hasc'⟩ := rtakeWhile_append (p := fun x => ascending key x k) (a := a) (b := b)
    (fun x hx => by simpa [ascending] using ha x hx) (fun x hx => by simpa [ascending] using hb x hx)
  obtain ⟨hdesc, hdesc'⟩ := rtakeWhile_append (p := fun x => descending key x k) (a := b.reverse)
    (b := a.reverse)
    (fun x hx => by simpa [descending] using hb x (List.mem_reverse.1 hx))
    (fun x hx => by simpa [descending] using ha x (List.mem_reverse.1 hx))
  obtain ⟨hpa, hpb, hab⟩ := List.pairwise_append.1 h
  have hinsert : shiftInsert (ascending key) (a ++ b) k = a ++ k :: b := by
    rw [shiftInsert, hasc, hasc']
  refine ⟨?_, ?_⟩
  · rw [hinsert]
    refine List.pairwise_append.2 ⟨hpa, List.pairwise_cons.2 ⟨fun x hx => le_of_lt (hb x hx), hpb⟩, ?_⟩
    intro x hx y hy
    rcases List.mem_cons.1 hy with rfl | hy
    · exact ha x hx
    · exact hab x hx y hy
  · rw [hinsert, List.reverse_append, shiftInsert, hdesc, hdesc']
    simp

/-- The two sorts are mirror images. -/
theorem shiftSort_mirror (l : List α) :
    shiftSort (descending key) l = (shiftSort (ascending key) l).reverse := by
  have hfold : ∀ acc : List α, acc.Pairwise (fun a b => key a ≤ key b) →
      l.foldl (shiftInsert (descending key)) acc.reverse =
        (l.foldl (shiftInsert (ascending key)) acc).reverse := by
    induction l with
    | nil => exact fun acc _ => rfl
    | cons k l ih =>
      intro acc hacc
      obtain ⟨hsorted, hmirror⟩ := shiftInsert_mirror key hacc k
      rw [List.foldl_cons, List.foldl_cons, hmirror]
      exact ih _ hsorted
  exact hfold [] List.Pairwise.nil

/-- One insertion puts an element behind those with its key. -/
theorem shiftInsert_filter {acc : List α} (h : acc.Pairwise fun a b => key a ≤ key b) (k : α)
    (o : K) :
    (shiftInsert (ascending key) acc k).filter (key · = o) =
      acc.filter (key · = o) ++ [k].filter (key · = o) := by
  obtain ⟨a, b, rfl, ha, hb⟩ := split_sorted key h k
  obtain ⟨hasc, hasc'⟩ := rtakeWhile_append (p := fun x => ascending key x k) (a := a) (b := b)
    (fun x hx => by simpa [ascending] using ha x hx)
    (fun x hx => by simpa [ascending] using hb x hx)
  rw [shiftInsert, hasc, hasc', ← List.singleton_append, List.filter_append, List.filter_append,
    List.filter_append, List.append_assoc]
  by_cases hko : key k = o
  · have hnone : b.filter (key · = o) = [] :=
      List.filter_eq_nil_iff.2 fun x hx => by simpa using ne_of_gt (hko ▸ hb x hx)
    rw [hnone, List.append_nil, List.nil_append]
  · rw [List.filter_singleton, decide_eq_false hko, cond_false, List.nil_append, List.append_nil]

/-- Sorting by ascending keys is stable. -/
theorem shiftSort_ascending (l : List α) :
    (shiftSort (ascending key) l).Pairwise (fun a b => key a ≤ key b) ∧
      ∀ o, (shiftSort (ascending key) l).filter (key · = o) = l.filter (key · = o) := by
  have hfold : ∀ acc : List α, acc.Pairwise (fun a b => key a ≤ key b) →
      (l.foldl (shiftInsert (ascending key)) acc).Pairwise (fun a b => key a ≤ key b) ∧
        ∀ o, (l.foldl (shiftInsert (ascending key)) acc).filter (key · = o) =
          acc.filter (key · = o) ++ l.filter (key · = o) := by
    induction l with
    | nil => exact fun acc hacc => ⟨hacc, fun o => (List.append_nil _).symm⟩
    | cons k l ih =>
      intro acc hacc
      obtain ⟨hsorted, hstable⟩ := ih _ (shiftInsert_mirror key hacc k).1
      refine ⟨hsorted, fun o => (hstable o).trans ?_⟩
      rw [shiftInsert_filter key hacc, List.append_assoc, ← List.filter_append,
        List.singleton_append]
  exact hfold [] List.Pairwise.nil

end Mirror

end Shift

/-! ## The topmost element -/

/-- The last element of a list of which `P` holds, if there is one. -/
def LastOf {α : Type} (P : α → Prop) (l : List α) : Option α → Prop
  | none => ∀ a ∈ l, ¬ P a
  | some a => P a ∧ ∃ front back, l = front ++ a :: back ∧ ∀ b ∈ back, ¬ P b

namespace LastOf

variable {α β : Type} {P Q : α → Prop} {l l' : List α} {r : Option α}

theorem append_left {a : α} (h : LastOf P l (some a)) (front : List α) :
    LastOf P (front ++ l) (some a) := by
  obtain ⟨hP, front', back, rfl, hback⟩ := h
  exact ⟨hP, front ++ front', back, by simp, hback⟩

theorem append_right (h : LastOf P l r) (h' : LastOf P l' none) : LastOf P (l ++ l') r := by
  cases r with
  | none =>
    intro a ha
    rcases List.mem_append.1 ha with ha | ha
    · exact h a ha
    · exact h' a ha
  | some a =>
    obtain ⟨hP, front, back, rfl, hback⟩ := h
    refine ⟨hP, front, back ++ l', by simp, fun b hb => ?_⟩
    rcases List.mem_append.1 hb with hb | hb
    · exact hback b hb
    · exact h' b hb

theorem singleton {a : α} {Q : Prop} [Decidable Q] (hPQ : P a ↔ Q) :
    LastOf P [a] (if Q then some a else none) := by
  by_cases hQ : Q
  · rw [if_pos hQ]
    exact ⟨hPQ.2 hQ, [], [], rfl, by simp⟩
  · rw [if_neg hQ]
    intro b hb hP
    rw [List.mem_singleton.1 hb] at hP
    exact hQ (hPQ.1 hP)

/-- What is below all others counts if none of them does. -/
theorem cons {a : α} {own : Option α} (hown : LastOf P [a] own) (h : LastOf P l r) :
    LastOf P (a :: l) (r.or own) := by
  cases r with
  | none =>
    rw [Option.none_or]
    exact hown.append_right h
  | some b =>
    rw [Option.some_or]
    exact h.append_left [a]

theorem exists_some (h : ∃ a ∈ l, P a) : ∃ a, LastOf P l (some a) := by
  induction l with
  | nil =>
    obtain ⟨a, ha, -⟩ := h
    cases ha
  | cons b l ih =>
    by_cases hl : ∃ a ∈ l, P a
    · obtain ⟨a, ha⟩ := ih hl
      exact ⟨a, ha.append_left [b]⟩
    · obtain ⟨a, ha, hP⟩ := h
      rcases List.mem_cons.1 ha with rfl | ha
      · exact ⟨a, hP, [], l, rfl, fun c hc hPc => hl ⟨c, hc, hPc⟩⟩
      · exact absurd ⟨a, ha, hP⟩ hl

end LastOf

end TinyFramework.Foundation
