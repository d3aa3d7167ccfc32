/-
  Dom/Placement.lean --- where one call of a mutator puts the nodes.

  A call takes some nodes out of the tree and hangs others under one target; every
  other node keeps its parent.  `DomCall.placement` names the three, and
  `WellFormed.exec_parent` says that a safe call does nothing else to the parents.
-/
import TinyFramework.Dom.Content

set_option autoImplicit false

namespace TinyFramework.Dom

open TinyFramework.Foundation

/-- The nodes a call takes out, and those it puts under `target`. -/
structure Placement where
  dropped : List NodeId := []
  placed : List NodeId := []
  target : Option NodeId := none
  deriving DecidableEq, Repr

/-- An append moves the child, or the children of a fragment. -/
def appendPlacement (d : NodeHeap) (p c : NodeId) : Placement :=
  { target := some p
    placed := if (d.node c).type = .documentFragmentNode ∧ c ≠ p then children d c else [c] }

/-- What a call moves. -/
def DomCall.placement (d : NodeHeap) : DomCall → Placement
  | .appendChild (some p) (some c) => appendPlacement d p c
  | .insertBefore (some p) (some c) none => appendPlacement d p c
  | .insertBefore (some p) (some c) (some _) => { target := some p, placed := [c] }
  | .removeChild (some p) (some c) =>
      if (d.node c).parent = some p then { dropped := [c] } else {}
  | .replaceChild (some p) (some c) (some o) =>
      if (d.node o).parent = some p then { target := some p, placed := [c], dropped := [o] }
      else {}
  | .attachShadow (some host) =>
      if (d.node host).shadowRoot = none then { target := some host, placed := [d.size] } else {}
  | _ => {}

namespace WellFormed

variable {d : NodeHeap}

theorem parent_append (h : WellFormed d) {p : NodeId} (hp : p < d.size) (c x : NodeId) :
    ((miniNodeAppendChild d (some p) (some c)).2.node x).parent =
      if x ∈ (appendPlacement d p c).placed then some p else (d.node x).parent := by
  unfold appendPlacement
  by_cases hfrag : (d.node c).type = .documentFragmentNode ∧ c ≠ p
  · have hmoved := (h.mirrors.appendFragment hp (Ne.symm hfrag.2) (h.not_self_child c) hfrag.1).2
    rw [hmoved x]
    simp only [if_pos hfrag]
  · rw [miniNodeAppendChild, if_neg hfrag]
    simp only [(linkLast_node _ p c x).1, (removeFromParent_node d c x).1, if_neg hfrag,
      List.mem_singleton]
    split_ifs <;> rfl

theorem parent_insert (d : NodeHeap) (p c r x : NodeId) :
    ((miniNodeInsertBefore d (some p) (some c) (some r)).2.node x).parent =
      if x = c then some p else (d.node x).parent := by
  simp only [miniNodeInsertBefore, (linkBefore_node _ p c r x).1, (removeFromParent_node d c x).1]
  split_ifs <;> rfl

theorem parent_replace {p c o : NodeId} (ho : (d.node o).parent = some p) (hoc : o ≠ c)
    (x : NodeId) :
    ((miniNodeReplaceChild d (some p) (some c) (some o)).2.node x).parent =
      if x = o then none else if x = c then some p else (d.node x).parent := by
  have ho' : ((miniNodeInsertBefore d (some p) (some c) (some o)).2.node o).parent = some p := by
    rw [parent_insert, if_neg hoc, ho]
  have hrc : (miniNodeInsertBefore d (some p) (some c) (some o)).1 = 0 := rfl
  simp only [miniNodeReplaceChild, ho, ne_eq, not_true_eq_false, if_false, hrc,
    miniNodeRemoveChild, ho', (unlink_node _ p o x).1, parent_insert]

/-- The parents after a safe call. -/
theorem exec_parent (h : WellFormed d) {call : DomCall} (hex : call.Existing d)
    (hsafe : callSafe d call = true) (x : NodeId) :
    (call.exec d).2.parentOf x =
      if x ∈ (call.placement d).dropped then none
      else if x ∈ (call.placement d).placed then (call.placement d).target
      else d.parentOf x := by
  have hlt : ∀ {i}, some i ∈ call.args → i < d.size := fun hi => hex _ hi _ rfl
  simp only [NodeHeap.parentOf]
  rcases call with ⟨_ | p, _ | c⟩ | ⟨_ | p, _ | c, _ | r⟩ | ⟨_ | p, _ | c⟩ | ⟨_ | p, _ | c, _ | o⟩ |
    ⟨_ | host⟩
  case appendChild.some.some | insertBefore.some.some.none =>
    have hnone : x ∉ (appendPlacement d p c).dropped := List.not_mem_nil
    refine (h.parent_append (hlt (by simp [DomCall.args])) c x).trans ?_
    rw [DomCall.placement, if_neg hnone]
    rfl
  case insertBefore.some.some.some =>
    refine (parent_insert d p c r x).trans ?_
    simp [DomCall.placement]
  case removeChild.some.some =>
    by_cases hp : (d.node c).parent = some p
    · simp [DomCall.exec, miniNodeRemoveChild, DomCall.placement, hp, (unlink_node d p c x).1]
    · simp [DomCall.exec, miniNodeRemoveChild, DomCall.placement, hp]
  case replaceChild.some.some.some =>
    by_cases ho : (d.node o).parent = some p
    · have hins : insertSafe d p c o = true := by simpa [callSafe, ho] using hsafe
      have hoc : o ≠ c := by
        simp only [insertSafe, Bool.and_eq_true, bne_iff_ne] at hins
        exact hins.1.1.2
      refine (parent_replace ho hoc x).trans ?_
      simp [DomCall.placement, ho]
    · simp [DomCall.exec, miniNodeReplaceChild, DomCall.placement, ho]
  case attachShadow.some =>
    cases hs : (d.node host).shadowRoot with
    | some root => simp [DomCall.exec, miniNodeAttachShadow, DomCall.placement, hs]
    | none =>
      refine ((h.mirrors_attachShadow (hlt (by simp [DomCall.args])) hs).2 x).trans ?_
      simp [DomCall.placement, hs]
  -- a NULL argument moves nothing
  all_goals
    simp [DomCall.placement, DomCall.exec, miniNodeAppendChild, miniNodeInsertBefore,
      miniNodeRemoveChild, miniNodeReplaceChild, miniNodeAttachShadow]

/-- A safe call hangs nothing under itself. -/
theorem target_not_below (h : WellFormed d) {call : DomCall} (hex : call.Existing d)
    (hsafe : callSafe d call = true) {p c : NodeId}
    (hp : (call.placement d).target = some p) (hc : c ∈ (call.placement d).placed) :
    ¬ Below d.parentOf p c := by
  have hlt : ∀ {i}, some i ∈ call.args → i < d.size := fun hi => hex _ hi _ rfl
  have happend : ∀ q f, q < d.size → appendSafe d q f = true →
      (appendPlacement d q f).target = some p → c ∈ (appendPlacement d q f).placed →
      ¬ Below d.parentOf p c := by
    intro q f hq hok htarget hplaced
    obtain rfl : q = p := Option.some.inj htarget
    unfold appendSafe at hok
    unfold appendPlacement at hplaced
    split_ifs at hok with hfrag
    · have hnot := List.all_eq_true.1 hok c (by simpa only [if_pos hfrag] using hplaced)
      exact h.not_contains hq (by simpa using hnot)
    · simp only [if_neg hfrag, List.mem_singleton] at hplaced
      exact h.not_contains hq (by simpa [hplaced] using hok)
  have hinsert : ∀ q n r, q < d.size → insertSafe d q n r = true → ¬ Below d.parentOf q n := by
    intro q n r hq hok
    simp only [insertSafe, Bool.and_eq_true, Bool.not_eq_true'] at hok
    exact h.not_contains hq hok.1.1.1
  rcases call with ⟨_ | q, _ | f⟩ | ⟨_ | q, _ | n, _ | r⟩ | ⟨_ | q, _ | n⟩ | ⟨_ | q, _ | n, _ | o⟩ |
    ⟨_ | host⟩
  case appendChild.some.some =>
    exact happend q f (hlt (by simp [DomCall.args])) hsafe hp hc
  case insertBefore.some.some.none =>
    exact happend q n (hlt (by simp [DomCall.args])) hsafe hp hc
  case insertBefore.some.some.some =>
    obtain rfl : q = p := Option.some.inj hp
    obtain rfl : c = n := List.mem_singleton.1 hc
    exact hinsert q c r (hlt (by simp [DomCall.args])) hsafe
  case removeChild.some.some =>
    rw [DomCall.placement] at hp
    split_ifs at hp
  case replaceChild.some.some.some =>
    rw [DomCall.placement] at hp hc
    split_ifs at hp hc with ho
    obtain rfl : q = p := Option.some.inj hp
    obtain rfl : c = n := List.mem_singleton.1 hc
    exact hinsert q c o (hlt (by simp [DomCall.args])) (by simpa [callSafe, ho] using hsafe)
  case attachShadow.some =>
    rw [DomCall.placement] at hp hc
    split_ifs at hp hc
    obtain rfl : host = p := Option.some.inj hp
    obtain rfl : c = d.size := List.mem_singleton.1 hc
    have hhost : host < d.size := hlt (by simp [DomCall.args])
    intro hbelow
    rcases Relation.ReflTransGen.cases_tail hbelow with heq | ⟨q, -, hq⟩
    · exact Nat.ne_of_lt hhost heq.symm
    · exact Nat.lt_irrefl _ (h.mirrors.allocated q _ hq).2
  -- a NULL argument has no target
  all_goals cases hp

/-- Only children are taken out. -/
theorem parent_of_dropped {call : DomCall} {o : NodeId} (ho : o ∈ (call.placement d).dropped) :
    ∃ p, d.parentOf o = some p := by
  match call with
  | .removeChild (some p) (some c) =>
    rw [DomCall.placement] at ho
    split_ifs at ho with hp
    · exact ⟨p, List.mem_singleton.1 ho ▸ hp⟩
    · cases ho
  | .replaceChild (some p) (some c) (some o') =>
    rw [DomCall.placement] at ho
    split_ifs at ho with hp
    · exact ⟨p, List.mem_singleton.1 ho ▸ hp⟩
    · cases ho
  | .attachShadow (some host) =>
    rw [DomCall.placement] at ho
    split_ifs at ho <;> cases ho
  | .appendChild (some _) (some _) | .insertBefore (some _) (some _) none
  | .insertBefore (some _) (some _) (some _)
  | .appendChild none _ | .appendChild (some _) none | .insertBefore none _ _
  | .insertBefore (some _) none _ | .removeChild none _ | .removeChild (some _) none
  | .replaceChild none _ _ | .replaceChild (some _) none _
  | .replaceChild (some _) (some _) none | .attachShadow none => cases ho

/-- Who is below a root afterwards: what the call hangs there, and what was there
and is not taken out. -/
theorem below_exec (h : WellFormed d) {call : DomCall} (hex : call.Existing d)
    (hsafe : callSafe d call = true) {root x : NodeId} (hroot : d.parentOf root = none)
    (hx : Below (call.exec d).2.parentOf x root) :
    (∃ c ∈ (call.placement d).placed, Below d.parentOf x c ∧
      ∃ p, (call.placement d).target = some p ∧ Below d.parentOf p root) ∨
    (Below d.parentOf x root ∧ ∀ o ∈ (call.placement d).dropped, ¬ Below d.parentOf x o) := by
  induction hx using Relation.ReflTransGen.head_induction_on with
  | refl =>
    refine .inr ⟨Below.refl root, fun o ho hbelow => ?_⟩
    obtain ⟨p, hp⟩ := parent_of_dropped ho
    rw [← hbelow.eq_of_root hroot, hroot] at hp
    cases hp
  | @head x q hxq _ ih =>
    rw [Up, h.exec_parent hex hsafe] at hxq
    split_ifs at hxq with hdrop hplace
    · rcases ih with ⟨c, hc, hqc, -⟩ | ⟨hq, -⟩
      · exact absurd hqc (h.target_not_below hex hsafe hxq hc)
      · exact .inl ⟨x, hplace, Below.refl x, q, hxq, hq⟩
    · rcases ih with ⟨c, hc, hqc, hp⟩ | ⟨hq, hkept⟩
      · exact .inl ⟨c, hc, Below.head hxq hqc, hp⟩
      · refine .inr ⟨Below.head hxq hq, fun o ho hxo => ?_⟩
        rcases hxo.eq_or_parent with rfl | ⟨q', hq', hq'o⟩
        · exact hdrop ho
        · rw [hxq] at hq'
          cases hq'
          exact hkept o ho hq'o

end WellFormed

/-! ## Shadow roots -/

/-- Every shadow root hangs under its host. -/
def ShadowOwned (d : NodeHeap) : Prop :=
  ∀ p s, (d.node p).shadowRoot = some s → d.parentOf s = some p

/-- The call moves no shadow root away from its host. -/
def keepsShadow (d : NodeHeap) (call : DomCall) : Bool :=
  ((call.placement d).dropped ++ (call.placement d).placed).all fun x =>
    match (d.node x).parent with
    | none => true
    | some q => (d.node q).shadowRoot ≠ some x

theorem shadowRoot_of_sameContent {d d' : NodeHeap} (h : SameContent d d') (x : NodeId) :
    (d'.node x).shadowRoot = (d.node x).shadowRoot :=
  field_of_bare MiniNode.shadowRoot (h.2 x) fun _ => rfl

/-- A call gives no node a shadow root but the fresh one it places. -/
theorem exec_shadowRoot (d : NodeHeap) (call : DomCall) {x s : NodeId}
    (h : ((call.exec d).2.node x).shadowRoot = some s) :
    (d.node x).shadowRoot = some s ∨
      (s ∈ (call.placement d).placed ∧ (call.placement d).target = some x ∧
        (call.placement d).dropped = []) := by
  cases call with
  | appendChild p c =>
    exact .inl ((shadowRoot_of_sameContent (.appendChild d p c) x).symm.trans h)
  | insertBefore p c r =>
    exact .inl ((shadowRoot_of_sameContent (.insertBefore d p c r) x).symm.trans h)
  | removeChild p c =>
    exact .inl ((shadowRoot_of_sameContent (.removeChild d p c) x).symm.trans h)
  | replaceChild p c o =>
    exact .inl ((shadowRoot_of_sameContent (.replaceChild d p c o) x).symm.trans h)
  | attachShadow host =>
    cases host with
    | none => exact .inl h
    | some host =>
      cases hs : (d.node host).shadowRoot with
      | some root =>
        rw [DomCall.exec, miniNodeAttachShadow, hs] at h
        exact .inl h
      | none =>
        have hnode := (WellFormed.attachShadow_node hs x).2.2.2.2.2.2
        change ((miniNodeAttachShadow d (some host)).2.node x).shadowRoot = some s at h
        rw [hnode, NodeHeap.alloc_node] at h
        split_ifs at h with hx hsize
        · obtain rfl := Option.some.inj h
          exact .inr (by simp [DomCall.placement, hs, hx])
        · exact .inl h

theorem DomCall.size_le_exec (d : NodeHeap) (call : DomCall) : d.size ≤ (call.exec d).2.size := by
  cases call with
  | appendChild p c => exact Nat.le_of_eq (SameContent.appendChild d p c).1.symm
  | insertBefore p c r => exact Nat.le_of_eq (SameContent.insertBefore d p c r).1.symm
  | removeChild p c => exact Nat.le_of_eq (SameContent.removeChild d p c).1.symm
  | replaceChild p c o => exact Nat.le_of_eq (SameContent.replaceChild d p c o).1.symm
  | attachShadow host =>
    cases host with
    | none => exact Nat.le_refl _
    | some host =>
      cases hs : (d.node host).shadowRoot <;>
        simp [DomCall.exec, miniNodeAttachShadow, hs, miniNodeCreateDocumentFragment,
          NodeHeap.setTag, NodeHeap.setShadowRoot, NodeHeap.setParent]

theorem ShadowOwned.exec {d : NodeHeap} (h : ShadowOwned d) (hwf : WellFormed d)
    {call : DomCall} (hex : call.Existing d) (hsafe : callSafe d call = true)
    (hkeep : keepsShadow d call = true) : ShadowOwned (call.exec d).2 := by
  intro p s hs
  rw [hwf.exec_parent hex hsafe]
  rcases exec_shadowRoot d call hs with hold | ⟨hplaced, htarget, hnone⟩
  · have hparent := h p s hold
    have hnot : s ∉ (call.placement d).dropped ++ (call.placement d).placed := by
      intro hmem
      have hok := List.all_eq_true.1 hkeep s hmem
      rw [show (d.node s).parent = some p from hparent] at hok
      simp [hold] at hok
    rw [List.mem_append, not_or] at hnot
    rw [if_neg hnot.1, if_neg hnot.2, hparent]
  · rw [hnone, if_neg List.not_mem_nil, if_pos hplaced, htarget]

end TinyFramework.Dom
