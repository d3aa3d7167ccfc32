/-
  Dom/DocumentOrder.lean --- two nodes compared in document order.

  `mini_node_precedes` compares two nodes through their lowest common ancestor.  Over the
  nodes of one tree this is the order of the walk from its root.
-/
import TinyFramework.Dom.Mutation
import TinyFramework.Foundation.Walk

set_option autoImplicit false

namespace TinyFramework.Dom

open TinyFramework.Foundation

section Precedes

variable (d : NodeHeap)

/-- `mini_is_anc` -/
def miniIsAnc (anc x : NodeId) : Bool :=
  (ancestors d.parentOf d.size x).contains anc

/-- `while (b->parent && b->parent != lca) b = b->parent;` -/
def branchBelow (lca b : NodeId) : NodeId :=
  ((ancestors d.parentOf d.size b).find? fun x =>
    d.parentOf x == none || d.parentOf x == some lca).getD b

/-- `mini_node_precedes` of two nodes; addresses decide between two trees. -/
def miniNodePrecedes (a b : NodeId) : Bool :=
  if a = b then false
  else if miniIsAnc d a b then true
  else if miniIsAnc d b a then false
  else
    match (ancestors d.parentOf d.size a).tail.find? fun x => miniIsAnc d x b with
    | none => decide (a < b)
    | some lca =>
        let ba := branchBelow d lca a
        let bb := branchBelow d lca b
        match (children d lca).find? fun c => c == ba || c == bb with
        | some c => c == ba
        | none => false

/-- The nodes of the tree under `root`, in document order. -/
def documentOrder (root : NodeId) : List NodeId := walk (children d) d.size root

end Precedes

variable {d : NodeHeap}

theorem WellFormed.goesDown (h : WellFormed d) : GoesDown d.parentOf (children d) :=
  fun p c hc => h.mirrors.parent p c hc

theorem WellFormed.isAnc_iff (h : WellFormed d) {anc x : NodeId} (hx : x < d.size) :
    miniIsAnc d anc x = true ↔ Below d.parentOf x anc := by
  rw [miniIsAnc, List.contains_iff_mem]
  exact h.acyclic.mem_ancestors_iff hx fun y p hp => (h.mirrors.allocated y p hp).2

/-- Nothing below one child of a node is above what is below another. -/
theorem WellFormed.not_below_across (h : WellFormed d) {n c c' x y : NodeId}
    (hc : d.parentOf c = some n) (hc' : d.parentOf c' = some n) (hne : c ≠ c')
    (hx : Below d.parentOf x c) (hy : Below d.parentOf y c') : ¬ Below d.parentOf y x :=
  fun hyx => hne (h.acyclic.eq_of_below_child hc hc' (hyx.trans hx) hy)

/-- The branch to a node below a child of `n` is that child. -/
theorem WellFormed.branchBelow_eq (h : WellFormed d) {n c x : NodeId}
    (hc : d.parentOf c = some n) (hx : Below d.parentOf x c) (hlt : x < d.size) :
    branchBelow d n x = c := by
  have hmem : c ∈ ancestors d.parentOf d.size x :=
    (h.acyclic.mem_ancestors_iff hlt fun y p hp => (h.mirrors.allocated y p hp).2).2 hx
  unfold branchBelow
  rw [find?_ancestors hmem (by simp [hc]) fun z hz hzc hne => ?_]
  · rfl
  · rcases hzc.eq_or_parent with heq | ⟨q, hq, hqc⟩
    · exact absurd heq hne
    · have hqn : q ≠ n := by
        rintro rfl
        exact h.acyclic.not_below_of_parent hc hqc
      simp [hq, hqn]

/-- Below two children of a node, the node is the lowest common ancestor. -/
theorem WellFormed.precedes_eq (h : WellFormed d) {n c c' x y : NodeId}
    (hc : d.parentOf c = some n) (hc' : d.parentOf c' = some n) (hne : c ≠ c')
    (hx : Below d.parentOf x c) (hy : Below d.parentOf y c') (hxlt : x < d.size)
    (hylt : y < d.size) :
    miniNodePrecedes d x y =
      match (children d n).find? fun k => k == c || k == c' with
      | some k => k == c
      | none => false := by
  have hnotyx := h.not_below_across hc hc' hne hx hy
  have hnotxy := h.not_below_across hc' hc (Ne.symm hne) hy hx
  have hxy : x ≠ y := by
    rintro rfl
    exact hnotyx (Below.refl x)
  have hancxy : miniIsAnc d x y = false := by
    rw [← Bool.not_eq_true, h.isAnc_iff hylt]
    exact hnotyx
  have hancyx : miniIsAnc d y x = false := by
    rw [← Bool.not_eq_true, h.isAnc_iff hxlt]
    exact hnotxy
  have hlca : ((ancestors d.parentOf d.size x).tail.find? fun z => miniIsAnc d z y) = some n := by
    have hxn := hx.trans (Below.of_parent hc)
    have hmem : n ∈ ancestors d.parentOf d.size x :=
      (h.acyclic.mem_ancestors_iff hxlt fun z p hp => (h.mirrors.allocated z p hp).2).2 hxn
    have hfind := find?_ancestors (p := fun z => miniIsAnc d z y) hmem
      ((h.isAnc_iff hylt).2 (hy.trans (Below.of_parent hc'))) fun z hz hzn hzne => by
        rw [← Bool.not_eq_true, h.isAnc_iff hylt]
        rcases Relation.ReflTransGen.cases_tail hzn with heq | ⟨q, hzq, hq⟩
        · exact absurd heq.symm hzne
        · obtain rfl := h.acyclic.eq_of_below_child hq hc (hz.trans hzq) hx
          exact h.not_below_across hc hc' hne hzq hy
    rw [ancestors_eq_cons, List.find?_cons_of_neg (by simp [hancxy])] at hfind
    exact hfind
  unfold miniNodePrecedes
  rw [if_neg hxy, if_neg (by simp [hancxy]), if_neg (by simp [hancyx]), hlca]
  dsimp only
  rw [h.branchBelow_eq hc hx hxlt, h.branchBelow_eq hc' hy hylt]

/-- Of the nodes below two children the first child's come first. -/
theorem WellFormed.precedes_across (h : WellFormed d) {n c c' x y : NodeId}
    {front back : List NodeId} (hkids : children d n = front ++ c :: back) (hback : c' ∈ back)
    (hx : Below d.parentOf x c) (hy : Below d.parentOf y c') (hxlt : x < d.size)
    (hylt : y < d.size) :
    miniNodePrecedes d x y = true ∧ miniNodePrecedes d y x = false := by
  have hnodup := h.mirrors.nodup n
  rw [hkids] at hnodup
  have hfresh := not_mem_of_nodup_middle hnodup
  have hne : c ≠ c' := by
    rintro rfl
    exact hfresh.2 hback
  have hfront : c' ∉ front := fun hmem =>
    (List.disjoint_of_nodup_append hnodup) hmem (List.mem_cons_of_mem c hback)
  have hc : d.parentOf c = some n := h.mirrors.parent n c (by simp [hkids])
  have hc' : d.parentOf c' = some n := h.mirrors.parent n c' (by simp [hkids, hback])
  have hfirst : ∀ p : NodeId → Bool, (∀ k, p k = true ↔ k = c ∨ k = c') →
      (children d n).find? p = some c := by
    intro p hp
    rw [hkids, List.find?_append, List.find?_eq_none.2, Option.none_or,
      List.find?_cons_of_pos ((hp c).2 (Or.inl rfl))]
    intro k hk
    rw [hp]
    rintro (rfl | rfl)
    · exact hfresh.1 hk
    · exact hfront hk
  rw [h.precedes_eq hc hc' hne hx hy hxlt hylt, h.precedes_eq hc' hc (Ne.symm hne) hy hx hylt hxlt,
    hfirst _ (by simp), hfirst _ (by simp [or_comm])]
  exact ⟨beq_self_eq_true c, beq_eq_false_iff_ne.2 hne⟩

theorem WellFormed.lt_of_below (h : WellFormed d) {x n : NodeId} (hn : n < d.size)
    (hx : Below d.parentOf x n) : x < d.size := by
  rcases hx.eq_or_parent with rfl | ⟨p, hp, -⟩
  · exact hn
  · exact (h.mirrors.allocated x p hp).1

/-- A node precedes what is below it. -/
theorem WellFormed.precedes_below (h : WellFormed d) {n c x : NodeId}
    (hc : d.parentOf c = some n) (hx : Below d.parentOf x c) :
    miniNodePrecedes d n x = true ∧ miniNodePrecedes d x n = false := by
  obtain ⟨hclt, hnlt⟩ := h.mirrors.allocated c n hc
  have hxlt := h.lt_of_below hclt hx
  have hne : n ≠ x := by
    rintro rfl
    exact h.acyclic.not_below_of_parent hc hx
  have hanc : miniIsAnc d n x = true := (h.isAnc_iff hxlt).2 (hx.trans (Below.of_parent hc))
  have hnot : ¬ miniIsAnc d x n = true := by
    rw [h.isAnc_iff hnlt]
    exact fun hnx => h.acyclic.not_below_of_parent hc (hnx.trans hx)
  unfold miniNodePrecedes
  rw [if_neg hne, if_pos hanc, if_neg (Ne.symm hne), if_neg hnot, if_pos hanc]
  exact ⟨rfl, rfl⟩

/-- What comes earlier in document order precedes what comes later, and not the other way. -/
theorem WellFormed.pairwise_precedes (h : WellFormed d) (fuel : Nat) (root : NodeId) :
    (walk (children d) fuel root).Pairwise fun x y =>
      miniNodePrecedes d x y = true ∧ miniNodePrecedes d y x = false := by
  refine pairwise_walk (fun n c hc fuel x hx => ?_) (fun n fuel => ?_) fuel root
  · exact h.precedes_below (h.mirrors.parent n c hc) (h.goesDown.below_of_mem hx)
  · have hsuffix : ∀ front back, children d n = front ++ back → back.Pairwise fun c c' =>
        ∀ x ∈ walk (children d) fuel c, ∀ y ∈ walk (children d) fuel c',
          miniNodePrecedes d x y = true ∧ miniNodePrecedes d y x = false := by
      intro front back
      induction back generalizing front with
      | nil => exact fun _ => List.Pairwise.nil
      | cons c back ih =>
        intro hkids
        refine List.pairwise_cons.2 ⟨fun c' hc' x hx y hy => ?_, ih (front ++ [c]) (by simp [hkids])⟩
        have hup := h.mirrors.parent n c (by simp [hkids])
        have hup' := h.mirrors.parent n c' (by simp [hkids, hc'])
        have hxc := h.goesDown.below_of_mem hx
        have hyc := h.goesDown.below_of_mem hy
        exact h.precedes_across hkids hc' hxc hyc
          (h.lt_of_below (h.mirrors.allocated c n hup).1 hxc)
          (h.lt_of_below (h.mirrors.allocated c' n hup').1 hyc)
    exact hsuffix [] (children d n) rfl

/-- Of two nodes of a tree only one precedes the other. -/
theorem WellFormed.precedes_asymm (h : WellFormed d) {root x y : NodeId}
    (hx : x ∈ documentOrder d root) (hy : y ∈ documentOrder d root)
    (hxy : miniNodePrecedes d x y = true) : miniNodePrecedes d y x = false := by
  have hpair := h.pairwise_precedes d.size root
  have hself : ∀ z ∈ documentOrder d root,
      miniNodePrecedes d z z = true → miniNodePrecedes d z z = false := by
    intro z _ hzz
    rw [miniNodePrecedes, if_pos rfl] at hzz
    cases hzz
  refine List.Pairwise.forall_of_forall_of_flip
    (R := fun x y => miniNodePrecedes d x y = true → miniNodePrecedes d y x = false)
    hself (hpair.imp fun hboth _ => hboth.2) (hpair.imp fun hboth hyx => ?_) hx hy hxy
  rw [hboth.2] at hyx
  cases hyx

/-- The bound of the walk is large enough for every tree. -/
theorem WellFormed.documentOrder_stable (h : WellFormed d) {root : NodeId} (hroot : root < d.size)
    {fuel : Nat} (hfuel : d.size ≤ fuel) :
    walk (children d) fuel root = documentOrder d root := by
  have hroom : ∀ x, Below d.parentOf x root → x ∈ Finset.range d.size := fun x hx =>
    Finset.mem_range.2 (h.lt_of_below hroot hx)
  induction fuel, hfuel using Nat.le_induction with
  | base => rfl
  | succ fuel hfuel ih =>
    have hcard : (Finset.range d.size).card ≤ fuel := by
      rw [Finset.card_range]
      exact hfuel
    rw [h.acyclic.walk_stable h.goesDown hroom hcard]
    exact ih

end TinyFramework.Dom
