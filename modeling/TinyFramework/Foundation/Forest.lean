/-
  Foundation/Forest.lean --- forests given by a partial parent function, and
  sibling lists given by adjacency.

  Nothing here names a node type.  A forest is a function `parent : α → Option α`
  without a cycle; what a mutation may do to it is said once, as reparenting a
  set of nodes under one new parent (`Acyclic.reparent`, `Below.reparent`).
  `Adjacent l x y` says that `y` comes right after `x` in `l`, which is what a
  doubly linked list stores in its two pointers.
-/
import Mathlib.Data.List.Nodup
import Mathlib.Data.List.Perm.Subperm

set_option autoImplicit false

namespace TinyFramework.Foundation

universe u

variable {α : Type u}

/-! ## Ancestors -/

/-- One step from a node to its parent. -/
def Up (parent : α → Option α) (x p : α) : Prop :=
  parent x = some p

/-- `x` is `a` itself or a descendant of `a`. -/
def Below (parent : α → Option α) (x a : α) : Prop :=
  Relation.ReflTransGen (Up parent) x a

/-- No node is its own ancestor. -/
def Acyclic (parent : α → Option α) : Prop :=
  ∀ x, ¬ Relation.TransGen (Up parent) x x

/-- Parents that come before their children are not below them. -/
theorem acyclic_of_lt {parent : Nat → Option Nat} (h : ∀ x p, parent x = some p → p < x) :
    Acyclic parent := by
  have hlt : ∀ x y, Relation.TransGen (Up parent) x y → y < x := by
    intro x y hxy
    induction hxy with
    | single hp => exact h _ _ hp
    | tail _ hp ih => exact Nat.lt_trans (h _ _ hp) ih
  exact fun x hx => Nat.lt_irrefl x (hlt x x hx)

namespace Below

variable {parent parent' : α → Option α} {x y a p : α}

theorem refl (x : α) : Below parent x x :=
  Relation.ReflTransGen.refl

theorem trans (hxy : Below parent x y) (hya : Below parent y a) : Below parent x a :=
  Relation.ReflTransGen.trans hxy hya

theorem of_parent (h : parent x = some p) : Below parent x p :=
  Relation.ReflTransGen.single h

theorem head (h : parent x = some p) (hp : Below parent p a) : Below parent x a :=
  Relation.ReflTransGen.head h hp

/-- The walk up from `x` is deterministic: past `x` itself it goes through the
parent of `x`. -/
theorem eq_or_parent (h : Below parent x a) :
    x = a ∨ ∃ p, parent x = some p ∧ Below parent p a := by
  rcases Relation.ReflTransGen.cases_head h with heq | ⟨p, hp, hrest⟩
  · exact .inl heq
  · exact .inr ⟨p, hp, hrest⟩

theorem of_parent_eq (hne : x ≠ a) (hp : parent x = some p) (h : Below parent x a) :
    Below parent p a := by
  rcases h.eq_or_parent with heq | ⟨q, hq, hrest⟩
  · exact absurd heq hne
  · rw [hp] at hq
    cases hq
    exact hrest

/-- A root is below itself only. -/
theorem eq_of_root (hx : parent x = none) (h : Below parent x a) : x = a := by
  rcases h.eq_or_parent with heq | ⟨p, hp, -⟩
  · exact heq
  · rw [hx] at hp
    cases hp

/-- A walk survives when no node on it, short of its end, is reparented. -/
theorem transfer (h : Below parent x a)
    (hkeep : ∀ s, Below parent x s → s ≠ a → parent' s = parent s) :
    Below parent' x a := by
  induction h using Relation.ReflTransGen.head_induction_on with
  | refl => exact Below.refl a
  | @head x p hxp _ ih =>
    by_cases hxa : x = a
    · subst hxa
      exact Below.refl x
    · refine Below.head (p := p) ?_ (ih fun s hs hsa => ?_)
      · exact (hkeep x (Below.refl x) hxa).trans hxp
      · exact hkeep s (Below.head hxp hs) hsa

/-- When every reparented node goes under `p`, and `p` still reaches `a`, then so
does every node that did. -/
theorem reparent (hmove : ∀ s, parent' s = parent s ∨ parent' s = some p)
    (hp : Below parent' p a) (h : Below parent x a) : Below parent' x a := by
  induction h using Relation.ReflTransGen.head_induction_on with
  | refl => exact Below.refl a
  | @head x q hxq _ ih =>
    rcases hmove x with hsame | hnew
    · exact Below.head (hsame.trans hxq) ih
    · exact Below.head hnew hp

/-- A walk that may leave the old path at reparented nodes, each of which goes to
a node that reaches `a`. -/
theorem relay (h : Below parent x a)
    (hmove : ∀ s q, parent s = some q →
      parent' s = some q ∨ ∃ r, parent' s = some r ∧ Below parent' r a) :
    Below parent' x a := by
  induction h using Relation.ReflTransGen.head_induction_on with
  | refl => exact Below.refl a
  | @head x q hxq _ ih =>
    rcases hmove x q hxq with hsame | ⟨r, hr, hra⟩
    · exact Below.head hsame ih
    · exact Below.head hr hra

end Below

namespace Acyclic

variable {parent parent' : α → Option α} {x a p : α}

theorem not_below_of_parent (h : Acyclic parent) (hx : parent x = some p) :
    ¬ Below parent p x := fun hpx =>
  h x (Relation.TransGen.head' hx hpx)

/-- A walk in the new forest is a walk in the old one, or goes through a
reparented node and then on from the new parent. -/
theorem walk_split {S : α → Prop}
    (hedge : ∀ s q, parent' s = some q → parent s = some q ∨ (S s ∧ q = p))
    (h : Relation.TransGen (Up parent') x a) :
    Relation.TransGen (Up parent) x a ∨
      ∃ s, S s ∧ Below parent' x s ∧ Below parent' p a := by
  induction h with
  | single hxa =>
    rcases hedge _ _ hxa with hold | ⟨hS, hq⟩
    · exact .inl (Relation.TransGen.single hold)
    · exact .inr ⟨x, hS, Below.refl x, hq ▸ Below.refl _⟩
  | @tail b c hxb hbc ih =>
    rcases hedge _ _ hbc with hold | ⟨hS, hq⟩
    · rcases ih with hpath | ⟨s, hs, hxs, hpb⟩
      · exact .inl (Relation.TransGen.tail hpath hold)
      · exact .inr ⟨s, hs, hxs, hpb.trans (Below.of_parent hbc)⟩
    · exact .inr ⟨b, hS, hxb.to_reflTransGen, hq ▸ Below.refl _⟩

/-- From the new parent, the new walk is the old one as long as no reparented
node is above it. -/
theorem walk_from_new_parent {S : α → Prop}
    (hedge : ∀ s q, parent' s = some q → parent s = some q ∨ (S s ∧ q = p))
    (hS : ∀ s, S s → ¬ Below parent p s)
    (h : Below parent' p a) : Below parent p a := by
  induction h with
  | refl => exact Below.refl p
  | @tail b c _ hbc ih =>
    rcases hedge _ _ hbc with hold | ⟨hSb, -⟩
    · exact ih.trans (Below.of_parent hold)
    · exact absurd ih (hS b hSb)

/-- Reparenting the nodes of `S` under `p`, and dropping edges, keeps a forest
acyclic when no node of `S` is `p` or above it. -/
theorem reparent {S : α → Prop} (h : Acyclic parent)
    (hedge : ∀ s q, parent' s = some q → parent s = some q ∨ (S s ∧ q = p))
    (hS : ∀ s, S s → ¬ Below parent p s) : Acyclic parent' := by
  intro x hx
  rcases walk_split hedge hx with hold | ⟨s, hs, hxs, hpx⟩
  · exact h x hold
  · exact hS s hs (walk_from_new_parent hedge hS (hpx.trans hxs))

/-- A node on a cycle reaches no root. -/
theorem not_below_root_of_cycle {root : α} (hroot : parent root = none)
    (hx : Relation.TransGen (Up parent) x x) : ¬ Below parent x root := by
  intro hbelow
  induction hbelow using Relation.ReflTransGen.head_induction_on with
  | refl =>
    obtain ⟨q, hq, -⟩ := Relation.TransGen.head'_iff.1 hx
    rw [Up, hroot] at hq
    cases hq
  | @head x y hxy _ ih =>
    obtain ⟨z, hz, hzx⟩ := Relation.TransGen.head'_iff.1 hx
    obtain rfl : y = z := Option.some.inj (hxy.symm.trans hz)
    exact ih (Relation.TransGen.tail'_iff.2 ⟨x, hzx, hxy⟩)

/-- A forest stays acyclic when every node keeps its parent or reaches a root. -/
theorem of_reach {root : α} (h : Acyclic parent) (hroot : parent' root = none)
    (hmove : ∀ x, parent' x = parent x ∨ Below parent' x root) : Acyclic parent' := by
  intro x hx
  have hkeep : ∀ y, Relation.TransGen (Up parent') y y → parent' y = parent y := fun y hy =>
    (hmove y).resolve_right (not_below_root_of_cycle hroot hy)
  -- every step of the cycle is a step of the old forest
  have hold : ∀ y, Relation.TransGen (Up parent') x y → Below parent' y x →
      Relation.TransGen (Up parent) x y := by
    intro y hxy
    induction hxy with
    | @single y hxy => exact fun _ => .single ((hkeep x hx).symm.trans hxy)
    | @tail y z hxy hyz ih =>
      intro hzx
      have hyx : Below parent' y x := Below.head hyz hzx
      have hcycle : Relation.TransGen (Up parent') y y :=
        Relation.TransGen.head' hyz (hzx.trans hxy.to_reflTransGen)
      exact .tail (ih hyx) ((hkeep y hcycle).symm.trans hyz)
  exact h x (hold x hx (Below.refl x))

end Acyclic

/-! ## Walking up with a bound -/

/-- The nodes from `x` upwards, at most `n + 1` of them. -/
def ancestors (parent : α → Option α) : Nat → α → List α
  | 0, x => [x]
  | n + 1, x =>
      x :: match parent x with
        | none => []
        | some p => ancestors parent n p

theorem mem_ancestors_self (parent : α → Option α) (n : Nat) (x : α) :
    x ∈ ancestors parent n x := by
  cases n <;> simp [ancestors]

theorem ancestors_eq_cons (parent : α → Option α) (n : Nat) (x : α) :
    ancestors parent n x = x :: (ancestors parent n x).tail := by
  cases n <;> rfl

theorem below_of_mem_ancestors {parent : α → Option α} {n : Nat} {x a : α}
    (h : a ∈ ancestors parent n x) : Below parent x a := by
  induction n generalizing x with
  | zero =>
    have hax : a = x := by simpa [ancestors] using h
    exact hax ▸ Below.refl a
  | succ n ih =>
    rcases List.mem_cons.1 h with rfl | hrest
    · exact Below.refl a
    · cases hp : parent x with
      | none => simp [hp] at hrest
      | some p => exact Below.head hp (ih (by simpa [hp] using hrest))

theorem Acyclic.nodup_ancestors {parent : α → Option α} (h : Acyclic parent) (n : Nat)
    (x : α) : (ancestors parent n x).Nodup := by
  induction n generalizing x with
  | zero => simp [ancestors]
  | succ n ih =>
    cases hp : parent x with
    | none => simp [ancestors, hp]
    | some p =>
      simp only [ancestors, hp, List.nodup_cons]
      exact ⟨fun hmem => h.not_below_of_parent hp (below_of_mem_ancestors hmem), ih p⟩

/-- A walk that has not met `a` yet has used up its bound. -/
theorem length_ancestors_of_not_mem {parent : α → Option α} {n : Nat} {x a : α}
    (h : Below parent x a) (hmem : a ∉ ancestors parent n x) :
    (ancestors parent n x).length = n + 1 := by
  induction n generalizing x with
  | zero => rfl
  | succ n ih =>
    rcases h.eq_or_parent with rfl | ⟨p, hp, hpa⟩
    · exact absurd (mem_ancestors_self parent _ x) hmem
    · simp only [ancestors, hp, List.mem_cons, not_or] at hmem
      simp [ancestors, hp, ih hpa hmem.2]

/-- The first node upwards that meets a condition. -/
theorem find?_ancestors {parent : α → Option α} {p : α → Bool} {n : Nat} {x a : α}
    (hmem : a ∈ ancestors parent n x) (ha : p a = true)
    (hbetween : ∀ z, Below parent x z → Below parent z a → z ≠ a → p z = false) :
    (ancestors parent n x).find? p = some a := by
  induction n generalizing x with
  | zero =>
    have hax : a = x := by simpa [ancestors] using hmem
    rw [← hax, ancestors, List.find?_cons_of_pos ha]
  | succ n ih =>
    have hxa := below_of_mem_ancestors hmem
    rcases hxa.eq_or_parent with rfl | ⟨q, hq, hqa⟩
    · rw [ancestors, List.find?_cons_of_pos ha]
    · by_cases hne : x = a
      · subst hne
        rw [ancestors, List.find?_cons_of_pos ha]
      · simp only [ancestors, hq, List.mem_cons, Ne.symm hne, false_or] at hmem
        simp only [ancestors, hq]
        rw [List.find?_cons_of_neg (by simp [hbetween x (Below.refl x) hxa hne])]
        exact ih hmem fun z hz => hbetween z (Below.head hq hz)

/-- In an acyclic forest over the numbers below `n`, a walk up meets at most `n`
nodes. -/
theorem Acyclic.length_ancestors_le {parent : Nat → Option Nat} (h : Acyclic parent)
    {n x : Nat} (hx : x < n) (hbound : ∀ y p, parent y = some p → p < n) (k : Nat) :
    (ancestors parent k x).length ≤ n := by
  have hsub : ancestors parent k x ⊆ List.range n := by
    intro y hy
    refine List.mem_range.2 ?_
    rcases Relation.ReflTransGen.cases_tail (below_of_mem_ancestors hy) with rfl | ⟨q, -, hq⟩
    · exact hx
    · exact hbound q y hq
  simpa using (List.subperm_of_subset (h.nodup_ancestors k x) hsub).length_le

/-- In an acyclic forest over the numbers below `n`, a walk of `n` steps meets
every ancestor. -/
theorem Acyclic.mem_ancestors_iff {parent : Nat → Option Nat} (h : Acyclic parent)
    {n x a : Nat} (hx : x < n) (hbound : ∀ y p, parent y = some p → p < n) :
    a ∈ ancestors parent n x ↔ Below parent x a := by
  refine ⟨below_of_mem_ancestors, fun hxa => ?_⟩
  by_contra hmem
  have hle := h.length_ancestors_le hx hbound n
  rw [length_ancestors_of_not_mem hxa hmem] at hle
  omega

/-- The nearest strict ancestor of `x` in `marks`, within a bound. -/
def nearestAbove [DecidableEq α] (parent : α → Option α) (marks : List α) : Nat → α → Option α
  | 0, _ => none
  | n + 1, x =>
      match parent x with
      | none => none
      | some p => if p ∈ marks then some p else nearestAbove parent marks n p

section NearestAbove

variable [DecidableEq α] {parent parent' : α → Option α} {marks : List α} {x m : α}

theorem mem_of_nearestAbove {n : Nat} (h : nearestAbove parent marks n x = some m) :
    m ∈ marks := by
  induction n generalizing x with
  | zero => cases h
  | succ n ih =>
    unfold nearestAbove at h
    split at h
    · cases h
    · split_ifs at h with hmem
      · exact Option.some.inj h ▸ hmem
      · exact ih h

/-- When only children of marked nodes are reparented, a node reaches `a` if the
children of its nearest marked ancestor do. -/
theorem below_of_nearestAbove {a : α} {n : Nat} (h : nearestAbove parent marks n x = some m)
    (hkeep : ∀ s q, parent s = some q → q ∉ marks → parent' s = some q)
    (hm : ∀ s, parent s = some m → Below parent' s a) : Below parent' x a := by
  induction n generalizing x with
  | zero => cases h
  | succ n ih =>
    unfold nearestAbove at h
    split at h
    · cases h
    · rename_i p hp
      split_ifs at h with hmem
      · exact hm x (Option.some.inj h ▸ hp)
      · exact Below.head (hkeep x p hp hmem) (ih h)

/-- Nothing above `x` is marked when the search, given enough fuel, finds nothing. -/
theorem not_marked_of_nearestAbove {parent : Nat → Option Nat} {marks : List Nat} {n x : Nat}
    (hac : Acyclic parent) (hx : x < n) (hbound : ∀ y p, parent y = some p → p < n)
    (h : nearestAbove parent marks n x = none) {s q : Nat} (hs : Below parent x s)
    (hq : parent s = some q) : q ∉ marks := by
  have hlist : ∀ k y, nearestAbove parent marks k y = none → s ∈ ancestors parent k y →
      (ancestors parent k y).length ≤ k → q ∉ marks := by
    intro k
    induction k with
    | zero => exact fun y _ _ hlen => absurd hlen (by simp [ancestors])
    | succ k ih =>
      intro y hnone hmem hlen
      unfold nearestAbove at hnone
      cases hp : parent y with
      | none =>
        have hsy : s = y := by simpa [ancestors, hp] using hmem
        rw [hsy, hp] at hq
        cases hq
      | some p =>
        simp only [hp] at hnone
        split_ifs at hnone with hpm
        simp only [ancestors, hp, List.mem_cons, List.length_cons] at hmem hlen
        rcases hmem with rfl | hmem
        · exact Option.some.inj (hp.symm.trans hq) ▸ hpm
        · exact ih p hnone hmem (Nat.le_of_succ_le_succ hlen)
  exact hlist n x h ((hac.mem_ancestors_iff hx hbound).2 hs) (hac.length_ancestors_le hx hbound n)

/-- Without a marked ancestor a node keeps its whole path. -/
theorem below_of_nearestAbove_none {parent parent' : Nat → Option Nat} {marks : List Nat}
    {n x a : Nat} (hac : Acyclic parent) (hx : x < n)
    (hbound : ∀ y p, parent y = some p → p < n) (h : nearestAbove parent marks n x = none)
    (hkeep : ∀ s q, parent s = some q → q ∉ marks → parent' s = some q)
    (hxa : Below parent x a) : Below parent' x a := by
  have hpath : ∀ s q, Below parent x s → parent s = some q → q ∉ marks := fun s q =>
    not_marked_of_nearestAbove hac hx hbound h
  clear h hx
  induction hxa using Relation.ReflTransGen.head_induction_on with
  | refl => exact Below.refl a
  | @head x p hxp _ ih =>
    refine Below.head (hkeep x p hxp (hpath x p (Below.refl x) hxp)) (ih fun s q hs => ?_)
    exact hpath s q (Below.head hxp hs)

end NearestAbove

/-! ## Adjacency in a sibling list -/

/-- `y` comes right after `x` in `l`. -/
def Adjacent (l : List α) (x y : α) : Prop :=
  ∃ l₁ l₂, l = l₁ ++ x :: y :: l₂

theorem Adjacent.mem_left {l : List α} {x y : α} (h : Adjacent l x y) : x ∈ l := by
  obtain ⟨l₁, l₂, rfl⟩ := h
  simp

theorem Adjacent.mem_right {l : List α} {x y : α} (h : Adjacent l x y) : y ∈ l := by
  obtain ⟨l₁, l₂, rfl⟩ := h
  simp

@[simp] theorem not_adjacent_nil (x y : α) : ¬ Adjacent [] x y := by
  rintro ⟨l₁, l₂, h⟩
  simp at h

theorem adjacent_cons {a x y : α} {l : List α} :
    Adjacent (a :: l) x y ↔ (a = x ∧ l.head? = some y) ∨ Adjacent l x y := by
  constructor
  · rintro ⟨l₁, l₂, h⟩
    cases l₁ with
    | nil =>
      obtain ⟨rfl, rfl⟩ := by simpa using h
      exact .inl ⟨rfl, rfl⟩
    | cons b l₁ =>
      obtain ⟨-, rfl⟩ := by simpa using h
      exact .inr ⟨l₁, l₂, rfl⟩
  · rintro (⟨rfl, hhead⟩ | ⟨l₁, l₂, rfl⟩)
    · obtain ⟨l₂, rfl⟩ := List.head?_eq_some_iff.1 hhead
      exact ⟨[], l₂, rfl⟩
    · exact ⟨a :: l₁, l₂, rfl⟩

theorem adjacent_append {l r : List α} {x y : α} :
    Adjacent (l ++ r) x y ↔
      Adjacent l x y ∨ Adjacent r x y ∨ (l.getLast? = some x ∧ r.head? = some y) := by
  induction l with
  | nil => simp
  | cons a l ih =>
    rw [List.cons_append, adjacent_cons, ih, adjacent_cons]
    cases l with
    | nil => simp [eq_comm, or_comm]
    | cons b l =>
      simp only [List.cons_append, List.head?_cons, List.getLast?_cons_cons]
      tauto

theorem not_mem_of_nodup_middle {l r : List α} {c : α} (h : (l ++ c :: r).Nodup) :
    c ∉ l ∧ c ∉ r := by
  have hperm := (List.perm_middle.nodup_iff).1 h
  have hnot := (List.nodup_cons.1 hperm).1
  simpa using hnot

/-- In a list without repetitions nothing comes after the last element. -/
theorem not_adjacent_last {l : List α} (hl : l.Nodup) {x y : α}
    (hx : l.getLast? = some x) : ¬ Adjacent l x y := by
  rintro ⟨l₁, l₂, rfl⟩
  have hlast : (y :: l₂).getLast? = some x := by
    simpa [List.getLast?_append, List.getLast?_cons_cons] using hx
  have hmem : x ∈ y :: l₂ := List.mem_of_getLast? hlast
  have hnodup := (List.nodup_append.1 hl).2.1
  exact (List.nodup_cons.1 hnodup).1 hmem

/-- In a list without repetitions nothing comes before the first element. -/
theorem not_adjacent_first {l : List α} (hl : l.Nodup) {x y : α}
    (hy : l.head? = some y) : ¬ Adjacent l x y := by
  rintro ⟨l₁, l₂, rfl⟩
  cases l₁ with
  | nil =>
    obtain rfl : x = y := by simpa using hy
    simp at hl
  | cons b l₁ =>
    obtain rfl : b = y := by simpa using hy
    simp at hl

end TinyFramework.Foundation
