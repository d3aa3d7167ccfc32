/-
  Foundation/Outline.lean --- a forest as the list of its nodes with their depths.

  Nothing here names a node type.  `Outline kids k l o` reads the trees whose roots are
  the list `l`, at depth `k`, in document order.  Two forests of the same shape have
  outlines of the same depths, and a node hung last under the innermost of a spine of
  last children comes last in the outline.
-/
import Mathlib.Data.List.Chain
import Mathlib.Data.List.Nodup

set_option autoImplicit false

namespace TinyFramework.Foundation

universe u

variable {α : Type u}

/-- The nodes of the trees at `l`, in document order, with their depths from `k` on. -/
inductive Outline (kids : α → List α) : Nat → List α → List (Nat × α) → Prop
  | nil (k : Nat) : Outline kids k [] []
  | cons {k : Nat} {c : α} {l : List α} {below after : List (Nat × α)}
      (hbelow : Outline kids (k + 1) (kids c) below) (hafter : Outline kids k l after) :
      Outline kids k (c :: l) ((k, c) :: (below ++ after))

namespace Outline

variable {kids kids' : α → List α} {k : Nat} {l l' : List α} {o o' : List (Nat × α)}

theorem eq_nil (h : Outline kids k l []) : l = [] := by
  cases h
  rfl

theorem append (h : Outline kids k l o) (h' : Outline kids k l' o') :
    Outline kids k (l ++ l') (o ++ o') := by
  induction h with
  | nil => exact h'
  | cons hbelow _ _ ih =>
    rw [List.cons_append, List.cons_append, List.append_assoc]
    exact .cons hbelow (ih h')

/-- An outline depends on the child lists of its own nodes only. -/
theorem congr (h : Outline kids k l o) (hkids : ∀ e ∈ o, kids' e.2 = kids e.2) :
    Outline kids' k l o := by
  induction h with
  | nil k => exact .nil k
  | @cons k c l below after _ _ ihbelow ihafter =>
    have hc : kids' c = kids c := hkids (k, c) List.mem_cons_self
    refine .cons (hc ▸ ihbelow fun e he => ?_) (ihafter fun e he => ?_)
    · exact hkids e (List.mem_cons_of_mem _ (List.mem_append_left _ he))
    · exact hkids e (List.mem_cons_of_mem _ (List.mem_append_right _ he))

theorem le_depth (h : Outline kids k l o) : ∀ e ∈ o, k ≤ e.1 := by
  induction h with
  | nil => exact fun e he => absurd he List.not_mem_nil
  | cons _ _ ihbelow ihafter =>
    intro e he
    rcases List.mem_cons.1 he with rfl | he
    · exact Nat.le_refl _
    · rcases List.mem_append.1 he with he | he
      · exact Nat.le_of_succ_le (ihbelow e he)
      · exact ihafter e he

/-- What follows the subtree of a node starts at the depth of the node again. -/
theorem head_depth (h : Outline kids k l o) : ∀ e, o.head? = some e → e.1 = k := by
  cases h with
  | nil => simp
  | cons => simp

/-- Split at the last root. -/
theorem concat_inv {x : α} (h : Outline kids k (l ++ [x]) o) :
    ∃ before below, o = before ++ (k, x) :: below ∧ Outline kids k l before ∧
      Outline kids (k + 1) (kids x) below := by
  induction l generalizing o with
  | nil =>
    cases h with
    | cons hbelow hafter =>
      cases hafter
      exact ⟨[], _, by simp, .nil k, hbelow⟩
  | cons c l ih =>
    cases h with
    | @cons _ _ _ under _ hunder hafter =>
      obtain ⟨before, below, rfl, hl, hx⟩ := ih hafter
      exact ⟨(k, c) :: (under ++ before), below, by simp, .cons hunder hl, hx⟩

end Outline

/-! ## Spines -/

/-- Each node is the last child of the next one. -/
def Spine (kids : α → List α) (s : List α) : Prop :=
  s.IsChain fun x p => (kids p).getLast? = some x

section Split

variable {kids : α → List α} {k : Nat} {b : α} {s : List α} {o : List (Nat × α)}

/-- The outermost link of a spine splits the outline at it. -/
theorem Spine.split {c : α} (hs : Spine kids (s ++ [c] ++ [b])) (h : Outline kids k (kids b) o) :
    Spine kids (s ++ [c]) ∧ ∃ l before below, kids b = l ++ [c] ∧ o = before ++ (k, c) :: below ∧
      Outline kids k l before ∧ Outline kids (k + 1) (kids c) below := by
  have hpair : [c, b].IsChain fun x p => (kids p).getLast? = some x := by
    have hchain : (s ++ [c, b]).IsChain fun x p => (kids p).getLast? = some x := by
      simpa [Spine] using hs
    exact hchain.right_of_append
  obtain ⟨l, hl⟩ := List.getLast?_eq_some_iff.1 (by simpa using hpair : (kids b).getLast? = some c)
  rw [hl] at h
  obtain ⟨before, below, ho, hbefore, hbelow⟩ := h.concat_inv
  exact ⟨List.IsChain.left_of_append hs, l, before, below, hl, ho, hbefore, hbelow⟩

/-- The nodes of a spine are in the outline of its outermost node. -/
theorem Spine.mem (hs : Spine kids (s ++ [b])) (h : Outline kids k (kids b) o) :
    ∀ x ∈ s, x ∈ o.map (·.2) := by
  induction s using List.reverseRecOn generalizing b k o with
  | nil => exact fun x hx => absurd hx List.not_mem_nil
  | append_singleton s c ih =>
    obtain ⟨hs', l, before, below, -, rfl, -, hbelow⟩ := hs.split h
    intro x hx
    simp only [List.map_append, List.map_cons, List.mem_append, List.mem_cons]
    rcases List.mem_append.1 hx with hx | hx
    · exact .inr (.inr (ih hs' hbelow x hx))
    · exact .inr (.inl (List.mem_singleton.1 hx))

end Split

section Hang

variable [DecidableEq α] {kids : α → List α} {k : Nat} {m p b : α} {s : List α}
  {o : List (Nat × α)}

/-- The child lists with `m` last under `p`. -/
def hangLast (kids : α → List α) (p m : α) : α → List α :=
  Function.update kids p (kids p ++ [m])

theorem Outline.hang_here (h : Outline kids k (kids p) o) (hp : p ∉ o.map (·.2))
    (hm : m ∉ p :: o.map (·.2)) (hleaf : kids m = []) :
    Outline (hangLast kids p m) k (hangLast kids p m p) (o ++ [(k, m)]) := by
  have hmp : m ≠ p := fun heq => hm (heq ▸ List.mem_cons_self)
  rw [show hangLast kids p m p = kids p ++ [m] from Function.update_self ..]
  refine Outline.append (h.congr fun e he => ?_) ?_
  · refine Function.update_of_ne ?_ _ _
    rintro rfl
    exact hp (List.mem_map.2 ⟨e, he, rfl⟩)
  · have hkids : hangLast kids p m m = [] := (Function.update_of_ne hmp _ _).trans hleaf
    exact @Outline.cons _ _ k m [] [] [] (hkids ▸ .nil _) (.nil _)

/-- A leaf hung under the innermost node of a spine comes last.  Induction on the spine,
from its outermost node. -/
theorem Outline.hang (hs : Spine kids (s ++ [b])) (hp : (s ++ [b]).head? = some p)
    (h : Outline kids k (kids b) o) (hnodup : (b :: o.map (·.2)).Nodup)
    (hm : m ∉ b :: o.map (·.2)) (hleaf : kids m = []) :
    Outline (hangLast kids p m) k (hangLast kids p m b) (o ++ [(k + s.length, m)]) := by
  induction s using List.reverseRecOn generalizing b k o with
  | nil =>
    obtain rfl := Option.some.inj hp
    exact h.hang_here (List.nodup_cons.1 hnodup).1 hm hleaf
  | append_singleton s c ih =>
    obtain ⟨hs', l, before, below, hl, rfl, hbefore, hbelow⟩ := hs.split h
    have hp' : (s ++ [c]).head? = some p := by
      rw [← hp]
      cases s <;> rfl
    have hpmem : p ∈ c :: below.map (·.2) := by
      rcases List.mem_append.1 (List.mem_of_head? hp') with hps | hpc
      · exact List.mem_cons_of_mem c (hs'.mem hbelow p hps)
      · exact List.mem_singleton.1 hpc ▸ List.mem_cons_self
    rw [List.map_append, List.map_cons] at hnodup hm
    obtain ⟨hb, hnd⟩ := List.nodup_cons.1 hnodup
    obtain ⟨-, hndbelow, hdisj⟩ := List.nodup_append.1 hnd
    have hbp : b ≠ p := fun heq => hb (List.mem_append_right _ (heq ▸ hpmem))
    have hmb : m ∉ c :: below.map (·.2) := fun hmem =>
      hm (List.mem_cons_of_mem b (List.mem_append_right _ hmem))
    have hkeep : ∀ e ∈ before, hangLast kids p m e.2 = kids e.2 := by
      intro e he
      refine Function.update_of_ne ?_ _ _
      exact hdisj e.2 (List.mem_map.2 ⟨e, he, rfl⟩) p hpmem
    have hbelow' := ih hs' hp' hbelow hndbelow hmb
    rw [show hangLast kids p m b = l ++ [c] from (Function.update_of_ne hbp _ _).trans hl,
      List.append_assoc, List.cons_append]
    refine (hbefore.congr hkeep).append ?_
    have hone := Outline.cons hbelow' (.nil k)
    rw [List.append_nil] at hone
    simpa [Nat.add_assoc, Nat.add_comm, Nat.add_left_comm] using hone

/-- The new leaf goes on with the spine. -/
theorem Spine.hang (hs : Spine kids s) (hp : s.head? = some p) (hnodup : s.Nodup) :
    Spine (hangLast kids p m) s ∧ Spine (hangLast kids p m) (m :: s) := by
  cases s with
  | nil => cases hp
  | cons q s =>
    obtain rfl := Option.some.inj hp
    have hq := (List.nodup_cons.1 hnodup).1
    have hsame : Spine (hangLast kids q m) (q :: s) := by
      refine List.IsChain.imp_of_mem_tail_imp ?_ hs
      intro x p hx hp hlast
      rw [hangLast, Function.update_of_ne]
      · exact hlast
      · rintro rfl
        exact hq hp
    refine ⟨hsame, List.isChain_cons_cons.2 ⟨?_, hsame⟩⟩
    rw [hangLast, Function.update_self, List.getLast?_append]
    rfl

end Hang

end TinyFramework.Foundation
