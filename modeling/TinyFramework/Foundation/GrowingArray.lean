/-
  Foundation/GrowingArray.lean --- arrays that grow, and entries that are swapped out of them.

  Memory may be refused; then the array stays as it is, and what was to be put in is not.

  The last entry takes the place of the removed one, so the entries stay the same but their
  order changes.  The order of those with a property is kept when the entry that moves lacks
  it or passes none of them.
-/
import Mathlib.Data.List.Basic

set_option autoImplicit false

namespace TinyFramework.Foundation

universe u

/-- The places in use, and how many there are. -/
structure GrowingArray (α : Type u) where
  items : List α
  cap : Nat
  within : items.length ≤ cap

namespace GrowingArray

variable {α : Type u} (a : GrowingArray α)

theorem nil_within : ([] : List α).length ≤ 0 := Nat.le_refl 0

theorem snoc_within {items : List α} {cap : Nat} (x : α) (h : items.length < cap) :
    (items ++ [x]).length ≤ cap := by
  rw [List.length_append]
  exact h

theorem eraseIdx_within (i : Nat) : (a.items.eraseIdx i).length ≤ a.cap :=
  Nat.le_trans (List.length_eraseIdx_le _ _) a.within

theorem dropLast_within : a.items.dropLast.length ≤ a.cap := by
  rw [List.length_dropLast]
  exact Nat.le_trans (Nat.sub_le _ _) a.within

theorem cleared_within : ([] : List α).length ≤ a.cap := Nat.zero_le a.cap

def empty : GrowingArray α := ⟨[], 0, nil_within⟩

/-- The capacity that there is for one more. -/
def room (granted : Bool) : Nat :=
  if a.items.length < a.cap then a.cap
  else if granted then (if a.cap = 0 then 16 else a.cap * 2)
  else a.cap

def push (granted : Bool) (x : α) : Option (GrowingArray α) :=
  if h : a.items.length < a.room granted then
    some ⟨a.items ++ [x], a.room granted, snoc_within x h⟩
  else none

def dropLast : GrowingArray α := ⟨a.items.dropLast, a.cap, a.dropLast_within⟩

def pop : Option (GrowingArray α × α) := a.items.getLast?.map fun x => (a.dropLast, x)

def eraseIdx (i : Nat) : GrowingArray α := ⟨a.items.eraseIdx i, a.cap, a.eraseIdx_within i⟩

def clear : GrowingArray α := ⟨[], a.cap, a.cleared_within⟩

variable {a}

theorem items_of_push {b : GrowingArray α} {granted : Bool} {x : α}
    (h : a.push granted x = some b) : b.items = a.items ++ [x] := by
  unfold push at h
  split_ifs at h with hroom
  exact (congrArg items (Option.some.inj h)).symm

/-- There is room for one more if memory is granted. -/
theorem push_granted (a : GrowingArray α) (x : α) :
    ∃ b, a.push true x = some b ∧ b.items = a.items ++ [x] := by
  have hroom : a.items.length < a.room true := by
    have := a.within
    simp only [room]
    split_ifs <;> omega
  exact ⟨_, dif_pos hroom, rfl⟩

theorem pop_eq_none (h : a.items = []) : a.pop = none := by
  rw [pop, h]
  rfl

theorem pop_concat {init : List α} {x : α} (h : a.items = init ++ [x]) :
    ∃ b, a.pop = some (b, x) ∧ b.items = init := by
  refine ⟨a.dropLast, ?_, ?_⟩
  · rw [pop, h, List.getLast?_concat]
    rfl
  · show a.items.dropLast = init
    rw [h, List.dropLast_concat]

end GrowingArray

/-! ## Removal from an array by moving the last entry -/

variable {α : Type u}

/-- `l[i] = l[--n]` -/
def swapRemove (l : List α) (i : Nat) : List α :=
  match l.getLast? with
  | none => []
  | some y => (l.set i y).dropLast

theorem swapRemove_map {β : Type u} (g : α → β) (l : List α) (i : Nat) :
    swapRemove (l.map g) i = (swapRemove l i).map g := by
  unfold swapRemove
  rw [List.getLast?_map]
  cases l.getLast? with
  | none => rfl
  | some x =>
    dsimp only [Option.map_some]
    rw [← List.map_set, List.map_dropLast]

theorem swapRemove_last (a : List α) (x : α) : swapRemove (a ++ [x]) a.length = a := by
  unfold swapRemove
  rw [List.getLast?_append, List.getLast?_singleton]
  simp

theorem swapRemove_inner (a mid : List α) (x y : α) :
    swapRemove (a ++ x :: (mid ++ [y])) a.length = a ++ y :: mid := by
  have hlast : (a ++ x :: (mid ++ [y])).getLast? = some y := by
    simp [List.getLast?_append, List.getLast?_cons]
  unfold swapRemove
  rw [hlast]
  have hset : (a ++ x :: (mid ++ [y])).set a.length y = (a ++ y :: mid) ++ [y] := by
    simp
  dsimp only
  rw [hset, List.dropLast_concat]

/-- The two shapes of a removal: of the last entry, or of one before it. -/
theorem swapRemove_cases {l : List α} {p : Nat} {x : α} (h : l[p]? = some x) :
    (∃ a, l = a ++ [x] ∧ a.length = p ∧ swapRemove l p = a) ∨
      ∃ a mid y, l = a ++ x :: (mid ++ [y]) ∧ a.length = p ∧
        swapRemove l p = a ++ y :: mid := by
  obtain ⟨hp, hx⟩ := List.getElem?_eq_some_iff.1 h
  have hsplit : l = l.take p ++ x :: l.drop (p + 1) := by
    rw [← hx, List.getElem_cons_drop, List.take_append_drop]
  have hlength : (l.take p).length = p := List.length_take_of_le (Nat.le_of_lt hp)
  rcases List.eq_nil_or_concat (l.drop (p + 1)) with hnil | ⟨mid, y, hcons⟩
  · left
    rw [hnil] at hsplit
    refine ⟨l.take p, hsplit, hlength, ?_⟩
    have hremoved := swapRemove_last (l.take p) x
    rw [← hsplit, hlength] at hremoved
    exact hremoved
  · right
    rw [hcons, List.concat_eq_append] at hsplit
    refine ⟨l.take p, mid, y, hsplit, hlength, ?_⟩
    have hremoved := swapRemove_inner (l.take p) mid x y
    rw [← hsplit, hlength] at hremoved
    exact hremoved

theorem swapRemove_perm {l : List α} {p : Nat} {x : α} (h : l[p]? = some x) :
    l.Perm (x :: swapRemove l p) := by
  rcases swapRemove_cases h with ⟨a, hl, -, hremoved⟩ | ⟨a, mid, y, hl, -, hremoved⟩
  · rw [hremoved, hl]
    exact List.perm_append_singleton x a
  · rw [hremoved, hl]
    apply List.perm_middle.trans
    exact ((List.perm_append_singleton y mid).append_left a).cons x

/-- When the last entry has the property, it is the one that is removed, or it moves to a place
from `j` on and passes no other entry that has it. -/
def SwapKeeps (P : α → Bool) (j p : Nat) (l : List α) : Prop :=
  ∀ y ∈ l.getLast?, P y = true →
    p + 1 = l.length ∨ (j ≤ p ∧ ∀ t ∈ l.dropLast.drop (p + 1), P t = false)

instance (P : α → Bool) (j p : Nat) (l : List α) : Decidable (SwapKeeps P j p l) :=
  inferInstanceAs (Decidable (∀ y ∈ l.getLast?, P y = true →
    p + 1 = l.length ∨ (j ≤ p ∧ ∀ t ∈ l.dropLast.drop (p + 1), P t = false)))

theorem swapKeeps_inner {P : α → Bool} {j : Nat} {a mid : List α} {x y : α}
    (h : SwapKeeps P j a.length (a ++ x :: (mid ++ [y]))) (hy : P y = true) :
    j ≤ a.length ∧ ∀ t ∈ mid, P t = false := by
  have hlast : y ∈ (a ++ x :: (mid ++ [y])).getLast? := by
    simp [List.getLast?_append, List.getLast?_cons]
  rcases h y hlast hy with hlength | ⟨hj, hmid⟩
  · simp at hlength
  · refine ⟨hj, fun t ht => hmid t ?_⟩
    have hinit : (a ++ x :: (mid ++ [y])).dropLast = a ++ x :: mid := by
      rw [← List.cons_append, ← List.append_assoc, List.dropLast_concat]
    rw [hinit, ← List.drop_drop, List.drop_left]
    exact ht

theorem swapRemove_filter {P : α → Bool} {j p : Nat} {l : List α} {x : α}
    (h : l[p]? = some x) (hkeeps : SwapKeeps P j p l) :
    ((swapRemove l p).filter P).Sublist (l.filter P) := by
  rcases swapRemove_cases h with ⟨a, hl, -, hremoved⟩ | ⟨a, mid, y, hl, hp, hremoved⟩
  · rw [hremoved, hl, List.filter_append]
    exact List.sublist_append_left _ _
  · subst hp
    rw [hl] at hkeeps
    rw [hremoved, hl]
    cases hy : P y with
    | false =>
        have hsub : (a ++ mid).Sublist (a ++ x :: (mid ++ [y])) :=
          ((List.sublist_append_left mid [y]).cons x).append_left a
        rw [List.filter_append, List.filter_cons_of_neg (by simp [hy]), ← List.filter_append]
        exact hsub.filter P
    | true =>
        obtain ⟨-, hmid⟩ := swapKeeps_inner hkeeps hy
        have hnone : mid.filter P = [] := by
          rw [List.filter_eq_nil_iff]
          intro t ht
          rw [hmid t ht]
          exact Bool.false_ne_true
        have hsub : (a ++ [y]).Sublist (a ++ x :: (mid ++ [y])) :=
          ((List.sublist_append_right mid [y]).cons x).append_left a
        rw [List.filter_append, List.filter_cons_of_pos hy, hnone]
        have hfilter := hsub.filter P
        rw [List.filter_append, List.filter_cons_of_pos hy, List.filter_nil] at hfilter
        exact hfilter

theorem swapRemove_take {P : α → Bool} {j p : Nat} {l : List α} {x : α}
    (h : l[p]? = some x) (hkeeps : SwapKeeps P j p l) (hnone : ∀ t ∈ l.take j, P t = false) :
    ∀ t ∈ (swapRemove l p).take j, P t = false := by
  rcases swapRemove_cases h with ⟨a, hl, -, hremoved⟩ | ⟨a, mid, y, hl, hp, hremoved⟩
  · intro t ht
    rw [hremoved] at ht
    apply hnone t
    rw [hl, List.take_append]
    exact List.mem_append_left _ ht
  · subst hp
    rw [hl] at hkeeps hnone
    rw [hremoved]
    intro t ht
    rcases Nat.lt_or_ge a.length j with hlt | hle
    · obtain ⟨k, hk⟩ := Nat.exists_eq_add_of_lt hlt
      subst hk
      rw [List.take_append, List.take_of_length_le (by omega),
        show a.length + k + 1 - a.length = k + 1 by omega, List.take_succ_cons] at ht
      have hbefore : ∀ s ∈ a ++ x :: mid.take k, P s = false := by
        intro s hs
        apply hnone s
        rw [List.take_append, List.take_of_length_le (by omega),
          show a.length + k + 1 - a.length = k + 1 by omega, List.take_succ_cons,
          List.take_append]
        rcases List.mem_append.1 hs with hs | hs
        · exact List.mem_append_left _ hs
        · rcases List.mem_cons.1 hs with rfl | hs
          · exact List.mem_append_right _ List.mem_cons_self
          · exact List.mem_append_right _ (List.mem_cons_of_mem _ (List.mem_append_left _ hs))
      rcases List.mem_append.1 ht with ht | ht
      · exact hbefore t (List.mem_append_left _ ht)
      · rcases List.mem_cons.1 ht with rfl | ht
        · -- the entry that moved behind `j`
          cases hy : P t with
          | false => rfl
          | true => exact absurd (swapKeeps_inner hkeeps hy).1 (by omega)
        · exact hbefore t (List.mem_append_right _ (List.mem_cons_of_mem _ ht))
    · rw [List.take_append_of_le_length hle] at ht
      apply hnone t
      rw [List.take_append_of_le_length hle]
      exact ht

end TinyFramework.Foundation
