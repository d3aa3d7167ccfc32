/-
  Foundation/StackSearch.lean --- a search of a forest with a stack of fixed size.

  A node is taken from the stack and its children are put there, as many as there is room
  for.  Beside it stands the search that loses nothing.  As long as the two put the same
  nodes on the stack, the first finds what there is; what would be lost behind the first
  hit does not count.
-/
import TinyFramework.Foundation.Walk

set_option autoImplicit false

namespace TinyFramework.Foundation

universe u

variable {α : Type u} (next : α → List α) (cap : Nat) (test : α → Bool)

/-- The search; the bound is on the number of nodes looked at. -/
def stackSearch : Nat → List α → Bool
  | 0, _ => false
  | _, [] => false
  | fuel + 1, cur :: stack =>
      test cur || stackSearch fuel (((next cur).take (cap - stack.length)).reverse ++ stack)

/-- The stacks that a search with room for all comes to in front of its first hit. -/
inductive Searching (stack : List α) : List α → Prop where
  | start : Searching stack stack
  | further {cur : α} {rest : List α} : Searching stack (cur :: rest) → test cur = false →
      Searching stack ((next cur).reverse ++ rest)

variable {next cap test}

theorem Searching.head {cur : α} {rest stack : List α} (hcur : test cur = false)
    (h : Searching next test ((next cur).reverse ++ rest) stack) :
    Searching next test (cur :: rest) stack := by
  induction h with
  | start => exact Searching.start.further hcur
  | further _ htest ih => exact ih.further htest

variable {parent : α → Option α}

/-- Nothing is below two of the nodes. -/
def Apart (parent : α → Option α) (s t : α) : Prop := ∀ y, Below parent y s → ¬ Below parent y t

theorem apart_expand (hac : Acyclic parent) (hdown : GoesDown parent next)
    (hnodup : ∀ p, (next p).Nodup) {s : α} {stack : List α}
    (h : (s :: stack).Pairwise (Apart parent)) :
    ((next s).reverse ++ stack).Pairwise (Apart parent) := by
  obtain ⟨hs, hstack⟩ := List.pairwise_cons.1 h
  refine List.pairwise_append.2 ⟨?_, hstack, fun c hc t ht y hy => ?_⟩
  · rw [List.pairwise_reverse]
    refine (hnodup s).imp_of_mem fun hc hd hne y hyd hyc => hne ?_
    exact hac.eq_of_below_child (hdown s _ hc) (hdown s _ hd) hyc hyd
  · exact hs t ht y (hy.trans (Below.of_parent (hdown s c (List.mem_reverse.1 hc))))

/-- The stack behind a node that does not pass leads to the same hits. -/
theorem exists_hit_expand {s : α} (hs : test s = false) (stack : List α) :
    (∃ t ∈ (next s).reverse ++ stack,
        ∃ x, Relation.ReflTransGen (fun p c => c ∈ next p) t x ∧ test x = true) ↔
      ∃ t ∈ s :: stack, ∃ x, Relation.ReflTransGen (fun p c => c ∈ next p) t x ∧ test x = true := by
  constructor
  · rintro ⟨t, ht, x, hx, htest⟩
    rcases List.mem_append.1 ht with ht | ht
    · exact ⟨s, List.mem_cons_self, x, hx.head (List.mem_reverse.1 ht), htest⟩
    · exact ⟨t, List.mem_cons_of_mem s ht, x, hx, htest⟩
  · rintro ⟨t, ht, x, hx, htest⟩
    rcases List.mem_cons.1 ht with rfl | ht
    · rcases Relation.ReflTransGen.cases_head hx with rfl | ⟨c, hc, hcx⟩
      · rw [hs] at htest
        cases htest
      · exact ⟨c, List.mem_append_left _ (List.mem_reverse.2 hc), x, hcx, htest⟩
    · exact ⟨t, List.mem_append_right _ ht, x, hx, htest⟩

/-- A search that goes on as one with room for all, up to the first hit, finds what there is. -/
theorem stackSearch_iff [DecidableEq α] {all : α → List α} (hac : Acyclic parent)
    (hdown : GoesDown parent all) (hnodup : ∀ p, (all p).Nodup) {fuel : Nat} {stack : List α}
    {A : Finset α} (hA : ∀ s ∈ stack, ∀ y, Below parent y s → y ∈ A) (hcard : A.card ≤ fuel)
    (hapart : stack.Pairwise (Apart parent))
    (hroom : ∀ cur rest, Searching all test stack (cur :: rest) → test cur = false →
      (next cur).take (cap - rest.length) = all cur) :
    stackSearch next cap test fuel stack = true ↔
      ∃ s ∈ stack, ∃ x, Relation.ReflTransGen (fun p c => c ∈ all p) s x ∧ test x = true := by
  induction fuel generalizing stack A with
  | zero =>
    cases stack with
    | nil => simp [stackSearch]
    | cons s stack =>
      have hs := hA s List.mem_cons_self s (Below.refl s)
      rw [Finset.card_eq_zero.1 (Nat.le_zero.1 hcard)] at hs
      cases hs
  | succ fuel ih =>
    cases stack with
    | nil => simp [stackSearch]
    | cons s stack =>
      rw [stackSearch]
      cases htest : test s with
      | true => exact iff_of_true rfl ⟨s, List.mem_cons_self, s, .refl, htest⟩
      | false =>
        obtain ⟨hs, -⟩ := List.pairwise_cons.1 hapart
        have hmem : ∀ t ∈ (all s).reverse ++ stack, ∀ y, Below parent y t → y ∈ A.erase s := by
          intro t ht y hy
          rcases List.mem_append.1 ht with ht | ht
          · have hparent := hdown s t (List.mem_reverse.1 ht)
            have hy' := hA s List.mem_cons_self y (hy.trans (.of_parent hparent))
            refine Finset.mem_erase.2 ⟨?_, hy'⟩
            rintro rfl
            exact hac.not_below_of_parent hparent hy
          · refine Finset.mem_erase.2 ⟨?_, hA t (List.mem_cons_of_mem s ht) y hy⟩
            exact fun heq => hs t ht s (Below.refl s) (heq ▸ hy)
        have hlt : (A.erase s).card ≤ fuel := by
          rw [Finset.card_erase_of_mem (hA s List.mem_cons_self s (Below.refl s))]
          omega
        rw [Bool.false_or, hroom s stack .start htest, ← exists_hit_expand htest]
        exact ih hmem hlt (apart_expand hac hdown hnodup hapart) fun cur rest hsearch =>
          hroom cur rest (hsearch.head htest)

end TinyFramework.Foundation
