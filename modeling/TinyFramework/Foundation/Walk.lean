/-
  Foundation/Walk.lean --- recursive walks down a forest.

  A walk starts at a node and goes on from it to the nodes a function `next` names,
  in that order and as often as each is named.  Nothing here names a node type.  The
  result is how often a walk comes to a node: once for every way down to it, so once
  when each node on the way is named once by its parent, and never when it is not
  below the start.
-/
import Mathlib.Algebra.BigOperators.Group.List.Basic
import Mathlib.Algebra.GroupWithZero.Nat
import Mathlib.Data.Finset.Card
import TinyFramework.Foundation.Forest

set_option autoImplicit false

namespace TinyFramework.Foundation

universe u v

variable {α : Type u}

/-- The nodes a recursion comes to, in order; the bound is on its depth. -/
def walk (next : α → List α) : Nat → α → List α
  | 0, _ => []
  | fuel + 1, n => n :: (next n).flatMap (walk next fuel)

/-- The recursion itself: visit the node, then go on. -/
def descend {σ : Type v} (next : α → List α) (visit : σ → α → σ) : Nat → α → σ → σ
  | 0, _, s => s
  | fuel + 1, n, s => (next n).foldl (fun s c => descend next visit fuel c s) (visit s n)

theorem descend_eq {σ : Type v} (next : α → List α) (visit : σ → α → σ) (fuel : Nat) (n : α)
    (s : σ) : descend next visit fuel n s = (walk next fuel n).foldl visit s := by
  induction fuel generalizing n s with
  | zero => rfl
  | succ fuel ih =>
    rw [descend, walk, List.foldl_cons, List.foldl_flatMap]
    simp only [ih]

/-- A relation between what is further down in one order holds along the whole walk. -/
theorem pairwise_walk {next : α → List α} {R : α → α → Prop} (hself : ∀ n, ∀ c ∈ next n, ∀ fuel,
      ∀ x ∈ walk next fuel c, R n x)
    (hkids : ∀ n fuel, (next n).Pairwise fun c c' =>
      ∀ x ∈ walk next fuel c, ∀ y ∈ walk next fuel c', R x y) (fuel : Nat) (n : α) :
    (walk next fuel n).Pairwise R := by
  induction fuel generalizing n with
  | zero => exact List.Pairwise.nil
  | succ fuel ih =>
    refine List.pairwise_cons.2 ⟨fun x hx => ?_, ?_⟩
    · obtain ⟨c, hc, hx⟩ := List.mem_flatMap.1 hx
      exact hself n c hc fuel x hx
    · exact List.pairwise_flatMap.2 ⟨fun c _ => ih c, hkids n fuel⟩

/-- With a larger bound the walk comes to no fewer nodes. -/
theorem mem_walk_mono {next : α → List α} {fuel fuel' : Nat} {n x : α} (hle : fuel ≤ fuel')
    (hx : x ∈ walk next fuel n) : x ∈ walk next fuel' n := by
  induction fuel generalizing fuel' n with
  | zero => cases hx
  | succ fuel ih =>
    obtain ⟨fuel', rfl⟩ := Nat.exists_eq_add_of_lt hle
    rcases List.mem_cons.1 hx with rfl | hx
    · exact List.mem_cons_self
    · obtain ⟨c, hc, hx⟩ := List.mem_flatMap.1 hx
      exact List.mem_cons_of_mem n (List.mem_flatMap.2 ⟨c, hc, ih (Nat.le_add_right _ _) hx⟩)

/-- `next` goes down: it names children only. -/
def GoesDown (parent : α → Option α) (next : α → List α) : Prop :=
  ∀ p, ∀ c ∈ next p, parent c = some p

section Walk

variable {parent : α → Option α} {next : α → List α} {n x c : α}

theorem GoesDown.below_of_mem (h : GoesDown parent next) {fuel : Nat}
    (hx : x ∈ walk next fuel n) : Below parent x n := by
  induction fuel generalizing n with
  | zero => cases hx
  | succ fuel ih =>
    rcases List.mem_cons.1 hx with rfl | hx
    · exact Below.refl x
    · obtain ⟨c, hc, hx⟩ := List.mem_flatMap.1 hx
      exact (ih hx).trans (Below.of_parent (h n c hc))

/-- A node is below at most one child of `n`. -/
theorem Acyclic.eq_of_below_child (h : Acyclic parent) {c c' : α} (hc : parent c = some n)
    (hc' : parent c' = some n) (hx : Below parent x c) (hx' : Below parent x c') : c = c' := by
  induction hx using Relation.ReflTransGen.head_induction_on with
  | refl =>
    rcases hx'.eq_or_parent with heq | ⟨p, hp, hbelow⟩
    · exact heq
    · rw [hc] at hp
      cases hp
      exact absurd hbelow (h.not_below_of_parent hc')
  | @head x q hxq hqc ih =>
    rcases hx'.eq_or_parent with rfl | ⟨p, hp, hbelow⟩
    · rw [Up, hc'] at hxq
      cases hxq
      exact absurd hqc (h.not_below_of_parent hc)
    · rw [hxq] at hp
      cases hp
      exact ih hbelow

variable [DecidableEq α]

theorem sum_map_of_single {l : List α} {g : α → Nat} (hg : ∀ y ∈ l, y ≠ c → g y = 0) :
    (l.map g).sum = l.count c * g c := by
  induction l with
  | nil => simp
  | cons y l ih =>
    have hrest := ih fun z hz => hg z (List.mem_cons_of_mem y hz)
    rw [List.map_cons, List.sum_cons, hrest]
    by_cases hy : y = c
    · subst hy
      rw [List.count_cons_self, Nat.add_mul, Nat.one_mul, Nat.add_comm]
    · rw [hg y List.mem_cons_self hy, List.count_cons_of_ne hy, Nat.zero_add]

/-- Among walks from children of `n`, those from one child come to `x`. -/
theorem Acyclic.count_flatMap_walk (h : Acyclic parent) (hdown : GoesDown parent next)
    {l : List α} (hl : ∀ y ∈ l, parent y = some n) (hc : parent c = some n)
    (hx : Below parent x c) (fuel : Nat) :
    (l.flatMap (walk next fuel)).count x = l.count c * (walk next fuel c).count x := by
  have hother : ∀ y ∈ l, y ≠ c → (walk next fuel y).count x = 0 := by
    intro y hy hyc
    refine List.count_eq_zero.2 fun hmem => hyc ?_
    exact h.eq_of_below_child (hl y hy) hc (hdown.below_of_mem hmem) hx
  rw [List.count_flatMap]
  exact sum_map_of_single hother

/-- The visits to a node further down are those through one child. -/
theorem Acyclic.count_walk (h : Acyclic parent) (hdown : GoesDown parent next)
    (hc : parent c = some n) (hx : Below parent x c) (fuel : Nat) :
    (walk next (fuel + 1) n).count x = (next n).count c * (walk next fuel c).count x := by
  have hne : n ≠ x := by
    rintro rfl
    exact h.not_below_of_parent hc hx
  rw [walk, List.count_cons_of_ne hne]
  exact h.count_flatMap_walk hdown (hdown n) hc hx fuel

/-- The room that is left below a child. -/
theorem Acyclic.room_child (h : Acyclic parent) (hc : parent c = some n) {A : Finset α}
    {fuel : Nat} (hA : ∀ y, Below parent y n → y ∈ A) (hfuel : A.card ≤ fuel + 1) :
    (∀ y, Below parent y c → y ∈ A.erase n) ∧ (A.erase n).card ≤ fuel := by
  constructor
  · intro y hy
    refine Finset.mem_erase.2 ⟨?_, hA y (hy.trans (Below.of_parent hc))⟩
    rintro rfl
    exact h.not_below_of_parent hc hy
  · rw [Finset.card_erase_of_mem (hA n (Below.refl n))]
    omega

/-- What holds of a node when it holds of the nodes that `next` names holds of all. -/
theorem Acyclic.down_induction (h : Acyclic parent) (hdown : GoesDown parent next)
    {P : α → Prop} (hstep : ∀ x, (∀ c ∈ next x, P c) → P x) {A : Finset α}
    (hA : ∀ y, Below parent y n → y ∈ A) : P n := by
  induction hfuel : A.card generalizing n A with
  | zero =>
    have hn := hA n (Below.refl n)
    rw [Finset.card_eq_zero.1 hfuel] at hn
    cases hn
  | succ fuel ih =>
    refine hstep n fun c hc => ?_
    have hroom := h.room_child (hdown n c hc) hA (Nat.le_of_eq hfuel)
    refine ih hroom.1 ?_
    rw [Finset.card_erase_of_mem (hA n (Below.refl n)), hfuel, Nat.add_sub_cancel]

/-- With room for everything below the start, the walk comes once to a node when
every node on the way down to it is named once. -/
theorem Acyclic.count_walk_eq_one (h : Acyclic parent) (hdown : GoesDown parent next)
    {fuel : Nat} {A : Finset α} (hA : ∀ y, Below parent y n → y ∈ A) (hfuel : A.card ≤ fuel)
    (hx : Below parent x n)
    (honce : ∀ p c, parent c = some p → Below parent x c → Below parent p n →
      (next p).count c = 1) :
    (walk next fuel n).count x = 1 := by
  induction fuel generalizing n A with
  | zero =>
    have hn := hA n (Below.refl n)
    rw [Finset.card_eq_zero.1 (Nat.le_zero.1 hfuel)] at hn
    cases hn
  | succ fuel ih =>
    rcases Relation.ReflTransGen.cases_tail hx with heq | ⟨c, hxc, hc⟩
    · subst heq
      have hnone : n ∉ (next n).flatMap (walk next fuel) := by
        intro hmem
        obtain ⟨c, hc, hxc⟩ := List.mem_flatMap.1 hmem
        exact h.not_below_of_parent (hdown n c hc) (hdown.below_of_mem hxc)
      rw [walk, List.count_cons_self, List.count_eq_zero.2 hnone]
    · obtain ⟨hsub, hcard⟩ := h.room_child hc hA hfuel
      rw [h.count_walk hdown hc hxc, honce n c hc hxc (Below.refl n), Nat.one_mul]
      refine ih hsub hcard hxc fun p c' hc' hxc' hp => honce p c' hc' hxc' ?_
      exact hp.trans (Below.of_parent hc)

/-- With room for everything below the start, one more level changes nothing. -/
theorem Acyclic.walk_stable (h : Acyclic parent) (hdown : GoesDown parent next)
    {fuel : Nat} {A : Finset α} (hA : ∀ y, Below parent y n → y ∈ A) (hfuel : A.card ≤ fuel) :
    walk next (fuel + 1) n = walk next fuel n := by
  induction fuel generalizing n A with
  | zero =>
    have hn := hA n (Below.refl n)
    rw [Finset.card_eq_zero.1 (Nat.le_zero.1 hfuel)] at hn
    cases hn
  | succ fuel ih =>
    rw [walk]
    conv_rhs => rw [walk]
    refine congrArg (List.cons n) (List.flatMap_congr fun c hc => ?_)
    obtain ⟨hsub, hcard⟩ := h.room_child (hdown n c hc) hA hfuel
    exact ih hsub hcard

/-- What comes once stands at one place. -/
theorem exists_split_of_count_eq_one {l : List α} (h : l.count x = 1) :
    ∃ l₁ l₂, l = l₁ ++ x :: l₂ ∧ x ∉ l₁ ∧ x ∉ l₂ := by
  have hmem : x ∈ l := List.count_pos_iff.1 (by omega)
  obtain ⟨l₁, l₂, rfl⟩ := List.append_of_mem hmem
  rw [List.count_append, List.count_cons_self] at h
  exact ⟨l₁, l₂, rfl, List.count_eq_zero.1 (by omega), List.count_eq_zero.1 (by omega)⟩

end Walk

end TinyFramework.Foundation
