/-
  Render/SvgUse.lean --- the recursion that draws the elements of an SVG.

  A group draws its children, and a `use` draws what it refers to wherever that is, so that
  the calls follow a graph.  What is drawn is left out: nothing of it decides on a call.
-/
import TinyFramework.Dom.Placement
import TinyFramework.Foundation.CallTree

set_option autoImplicit false

namespace TinyFramework.Render

open TinyFramework.Foundation TinyFramework.Dom

/-- A call of `svg_draw_group` or of `svg_draw_shape`. -/
inductive SvgCall where
  | group (parent : NodeId)
  | shape (n : NodeId)
  deriving DecidableEq, Repr

/-- The trees, and the root of `g_active_doc` when there is one. -/
structure SvgScene where
  heap : NodeHeap
  root : Option NodeId
  wellFormed : WellFormed heap
  shadowOwned : ShadowOwned heap
  root_lt : ∀ x ∈ root, x < heap.size

/-- `find_node_by_id_rec`; the bound is on the depth of the recursion. -/
def findNodeByIdRec (d : NodeHeap) (id : Bytes) : Nat → NodeId → Option NodeId
  | 0, _ => none
  | fuel + 1, n =>
      if miniNodeGetAttribute d n (ascii "id") = some id then some n
      else
        match (children d n).findSome? (findNodeByIdRec d id fuel) with
        | some res => some res
        | none =>
            match (d.node n).shadowRoot with
            | some s => findNodeByIdRec d id fuel s
            | none => none

/-- `while (root_svg->parent && root_svg->tag && strcmp(root_svg->tag, "svg"))` -/
def rootSvg (d : NodeHeap) : Nat → NodeId → NodeId
  | 0, n => n
  | fuel + 1, n =>
      match (d.node n).parent, (d.node n).tag with
      | some p, some tag => if tag = ascii "svg" then n else rootSvg d fuel p
      | _, _ => n

namespace SvgScene

variable (sc : SvgScene)

/-- The `target` of a `use`. -/
def useTarget (n : NodeId) : Option NodeId :=
  let href := match miniNodeGetAttribute sc.heap n (ascii "href") with
    | some href => some href
    | none => miniNodeGetAttribute sc.heap n (ascii "xlink:href")
  match href with
  | some (35 :: id) =>
      match sc.root.bind (findNodeByIdRec sc.heap id sc.heap.size) with
      | some target => some target
      | none => findNodeByIdRec sc.heap id sc.heap.size (rootSvg sc.heap sc.heap.size n)
  | _ => none

/-- The call that a `use` makes. -/
def useCall (n : NodeId) : Option SvgCall :=
  match sc.useTarget n with
  | none => none
  | some target =>
      if target = n then none
      else if (sc.heap.node target).tag = some (ascii "symbol") then some (.group target)
      else if (sc.heap.node target).tag = some (ascii "g") then some (.group target)
      else some (.shape target)

/-- The calls that a call makes itself, in order. -/
def calls : SvgCall → List SvgCall
  | .group parent =>
      ((children sc.heap parent).filter fun c => (sc.heap.node c).type == .elementNode).map .shape
  | .shape n =>
      if (sc.heap.node n).tag = some (ascii "g") then [.group n]
      else if (sc.heap.node n).tag = some (ascii "use") then (sc.useCall n).toList
      else []

/-! ## The two kinds of calls -/

/-- A call that goes down in the tree. -/
def Descends (a b : SvgCall) : Prop :=
  match a with
  | .group _ => b ∈ sc.calls a
  | .shape n => (sc.heap.node n).tag = some (ascii "g") ∧ b = .group n

/-- A call that follows a reference. -/
def Refers (a b : SvgCall) : Prop :=
  match a with
  | .group _ => False
  | .shape n => (sc.heap.node n).tag = some (ascii "use") ∧ sc.useCall n = some b

theorem makes_iff (a b : SvgCall) : Makes sc.calls a b ↔ sc.Descends a b ∨ sc.Refers a b := by
  cases a with
  | group p => exact (or_false _).symm.to_iff
  | shape n =>
    unfold Makes calls Descends Refers
    dsimp only
    split_ifs with hg huse
    · have hne : ¬ some (ascii "g") = some (ascii "use") := by decide
      rw [hg]
      simp [hne]
    · rw [Option.mem_toList]
      exact ⟨fun h => .inr ⟨huse, h⟩, fun h => h.elim (fun h => absurd h.1 hg) And.right⟩
    · simp [hg, huse]

/-- The node of a call. -/
def node : SvgCall → NodeId
  | .group p => p
  | .shape n => n

variable {sc} {a b : SvgCall}

/-- Calls down the tree come to nodes further down. -/
theorem below_of_descends (h : Relation.TransGen sc.Descends a b) :
    Relation.TransGen (Up sc.heap.parentOf) (node b) (node a) ∨
      ∃ n, a = .shape n ∧ b = .group n := by
  have hstep : ∀ a b, sc.Descends a b →
      (∃ p c, a = .group p ∧ b = .shape c ∧ sc.heap.parentOf c = some p) ∨
        ∃ n, a = .shape n ∧ b = .group n := by
    intro a b hab
    cases a with
    | group p =>
      obtain ⟨c, hc, rfl⟩ := List.mem_map.1 (show b ∈ List.map _ _ from hab)
      have hparent := sc.wellFormed.mirrors.parent p c (List.mem_filter.1 hc).1
      exact .inl ⟨p, c, rfl, rfl, hparent⟩
    | shape n => exact .inr ⟨n, rfl, hab.2⟩
  induction h with
  | single h =>
    rcases hstep _ _ h with ⟨p, c, rfl, rfl, hup⟩ | hsame
    · exact .inl (.single hup)
    · exact .inr hsame
  | tail _ h ih =>
    rcases hstep _ _ h with ⟨p, c, rfl, rfl, hup⟩ | ⟨n, rfl, rfl⟩
    · rcases ih with ih | ⟨n, rfl, heq⟩
      · exact .inl (.head hup ih)
      · obtain rfl := SvgCall.group.inj heq
        exact .inl (.single hup)
    · rcases ih with ih | ⟨m, -, heq⟩
      · exact .inl ih
      · cases heq

theorem not_descends_cycle (a : SvgCall) : ¬ Relation.TransGen sc.Descends a a := by
  intro h
  rcases below_of_descends h with hup | ⟨n, hshape, hgroup⟩
  · exact sc.wellFormed.acyclic _ hup
  · rw [hshape] at hgroup
    cases hgroup

/-! ## The nodes that calls come to -/

theorem findNodeByIdRec_lt {id : Bytes} {fuel : Nat} {n t : NodeId} (hn : n < sc.heap.size)
    (h : findNodeByIdRec sc.heap id fuel n = some t) : t < sc.heap.size := by
  induction fuel generalizing n with
  | zero => cases h
  | succ fuel ih =>
    rw [findNodeByIdRec] at h
    split_ifs at h
    · exact Option.some.inj h ▸ hn
    · split at h
      · rename_i res hres
        obtain ⟨c, hc, hfound⟩ := List.exists_of_findSome?_eq_some hres
        obtain rfl := Option.some.inj h
        exact ih (sc.wellFormed.mirrors.child_lt hc) hfound
      · split at h
        · rename_i s hs
          have hparent := sc.shadowOwned n s hs
          exact ih (sc.wellFormed.mirrors.allocated s n hparent).1 h
        · cases h

theorem rootSvg_lt (fuel : Nat) {n : NodeId} (hn : n < sc.heap.size) :
    rootSvg sc.heap fuel n < sc.heap.size := by
  induction fuel generalizing n with
  | zero => exact hn
  | succ fuel ih =>
    rw [rootSvg]
    split
    · rename_i p tag hp _
      split_ifs
      · exact hn
      · exact ih (sc.wellFormed.mirrors.allocated n p hp).2
    · exact hn

theorem useTarget_lt {n t : NodeId} (hn : n < sc.heap.size) (h : sc.useTarget n = some t) :
    t < sc.heap.size := by
  unfold useTarget at h
  dsimp only at h
  split at h
  · split at h
    · rename_i target htarget
      obtain ⟨root, hroot, hfound⟩ := Option.bind_eq_some_iff.1 htarget
      exact Option.some.inj h ▸ findNodeByIdRec_lt (sc.root_lt root hroot) hfound
    · exact findNodeByIdRec_lt (rootSvg_lt _ hn) h
  · cases h

theorem makes_lt (ha : node a < sc.heap.size) (h : Makes sc.calls a b) :
    node b < sc.heap.size := by
  rcases (sc.makes_iff a b).1 h with hdown | hrefers
  · rcases below_of_descends (.single hdown) with hup | ⟨n, rfl, rfl⟩
    · obtain ⟨p, hp, -⟩ := Relation.TransGen.head'_iff.1 hup
      exact (sc.wellFormed.mirrors.allocated _ p hp).1
    · exact ha
  · cases a with
    | group p => exact hrefers.elim
    | shape n =>
      obtain ⟨-, hcall⟩ := hrefers
      unfold useCall at hcall
      split at hcall
      · cases hcall
      · rename_i target htarget
        have hlt := useTarget_lt ha htarget
        split_ifs at hcall
        all_goals exact Option.some.inj hcall ▸ hlt

theorem finite_reached (sc : SvgScene) (a : SvgCall) (ha : node a < sc.heap.size) :
    {b | Relation.ReflTransGen (Makes sc.calls) a b}.Finite := by
  refine (((Set.finite_lt_nat sc.heap.size).image SvgCall.group).union
    ((Set.finite_lt_nat sc.heap.size).image SvgCall.shape)).subset fun b hb => ?_
  have hlt : node b < sc.heap.size := by
    induction hb with
    | refl => exact ha
    | tail _ hstep ih => exact makes_lt ih hstep
  cases b with
  | group p => exact .inl ⟨p, hlt, rfl⟩
  | shape n => exact .inr ⟨n, hlt, rfl⟩

end SvgScene

/-- Drawing makes finitely many calls exactly when no `use` that it comes to leads back to itself:
down the tree from what it refers to, to the next `use`, and so on. -/
theorem svgDraw_finishes_iff (sc : SvgScene) {svg : NodeId} (hsvg : svg < sc.heap.size) :
    Finishes sc.calls (.group svg) ↔
      ∀ u, Relation.ReflTransGen (Makes sc.calls) (.group svg) u →
        ¬ Relation.TransGen (Jump sc.Descends sc.Refers) u u := by
  rw [finishes_iff (sc.finite_reached (.group svg) hsvg)]
  exact cycle_iff_jumps sc.makes_iff SvgScene.not_descends_cycle

/-- An `svg` with a group `a` and a `use` in it, none of them in another yet. -/
def looseUse : NodeHeap where
  size := 3
  node n :=
    if n = 0 then { tag := some (ascii "svg") }
    else if n = 1 then { tag := some (ascii "g"), attrs := [(ascii "id", ascii "a")] }
    else if n = 2 then { tag := some (ascii "use"), attrs := [(ascii "href", ascii "#a")] }
    else {}

theorem wellFormed_looseUse : WellFormed looseUse := wellFormed_of_bare fun x => by
  show (if x = 0 then _ else _ : MiniNode).bare = if x = 0 then _ else _
  split_ifs <;> rfl

theorem shadowRoot_looseUse (p : NodeId) : (looseUse.node p).shadowRoot = none := by
  show (if p = 0 then _ else _ : MiniNode).shadowRoot = none
  split_ifs <;> rfl

section Placed

variable {p c q e : NodeId}

theorem wellFormed_placed (hp : p < 3) (hc : c < 3) (hq : q < 3) (he : e < 3)
    (hone : callSafe looseUse (.appendChild (some p) (some c)) = true)
    (htwo : callSafe (miniNodeAppendChild looseUse (some p) (some c)).2
      (.appendChild (some q) (some e)) = true) :
    WellFormed (miniNodeAppendChild (miniNodeAppendChild looseUse (some p) (some c)).2
      (some q) (some e)).2 := by
  have hfirst : (DomCall.appendChild (some p) (some c)).Existing looseUse := by
    simp [DomCall.Existing, DomCall.args, looseUse, hp, hc]
  have hwf : WellFormed (miniNodeAppendChild looseUse (some p) (some c)).2 :=
    wellFormed_looseUse.exec hfirst hone
  have hsize : (miniNodeAppendChild looseUse (some p) (some c)).2.size = 3 :=
    (SameContent.appendChild looseUse _ _).1
  have hsecond : (DomCall.appendChild (some q) (some e)).Existing
      (miniNodeAppendChild looseUse (some p) (some c)).2 := by
    simp [DomCall.Existing, DomCall.args, hsize, hq, he]
  exact hwf.exec hsecond htwo

theorem shadowOwned_placed :
    ShadowOwned (miniNodeAppendChild (miniNodeAppendChild looseUse (some p) (some c)).2
      (some q) (some e)).2 := by
  intro n s hs
  have hsame : SameContent looseUse (miniNodeAppendChild
      (miniNodeAppendChild looseUse (some p) (some c)).2 (some q) (some e)).2 :=
    (SameContent.appendChild looseUse _ _).trans (SameContent.appendChild _ _ _)
  rw [shadowRoot_of_sameContent hsame, shadowRoot_looseUse] at hs
  cases hs

end Placed

/-- `<svg><g id="a"></g><use href="#a"/></svg>` -/
def useBeside : SvgScene where
  heap := (miniNodeAppendChild (miniNodeAppendChild looseUse (some 0) (some 1)).2 (some 0) (some 2)).2
  root := some 0
  wellFormed := wellFormed_placed (by decide) (by decide) (by decide) (by decide) (by decide)
    (by decide)
  shadowOwned := shadowOwned_placed
  root_lt _ h := Option.some.inj h ▸ by decide

/-- A `use` beside the group that it refers to is drawn. -/
theorem svgDraw_finishes_iff_beside :
    SvgCall.group 1 ∈ useBeside.calls (.shape 2) ∧ Finishes useBeside.calls (.group 0) := by
  refine ⟨by decide, (svgDraw_finishes_iff useBeside (by decide)).2 fun u hu hcycle => ?_⟩
  have hclosed : ∀ a ∈ [SvgCall.group 0, .shape 1, .shape 2, .group 1], ∀ b ∈ useBeside.calls a,
      b ∈ [SvgCall.group 0, .shape 1, .shape 2, .group 1] := by decide
  have hreached : u ∈ [SvgCall.group 0, .shape 1, .shape 2, .group 1] := by
    clear hcycle
    induction hu with
    | refl => exact List.mem_cons_self
    | tail _ hstep ih => exact hclosed _ ih _ hstep
  obtain ⟨v, ⟨b, hrefers, hdown, w, hw⟩, -⟩ := Relation.TransGen.head'_iff.1 hcycle
  have hb : b = .group 1 := by
    simp only [List.mem_cons, List.not_mem_nil, or_false] at hreached
    rcases hreached with rfl | rfl | rfl | rfl
    · exact hrefers.elim
    · exact absurd hrefers.1 (by decide)
    · exact Option.some.inj (hrefers.2.symm.trans (by decide))
    · exact hrefers.elim
  subst hb
  -- nothing is in the group
  rcases hdown.cases_head with rfl | ⟨c, hc, -⟩
  · exact hw
  · exact absurd (show c ∈ useBeside.calls (.group 1) from hc) List.not_mem_nil

/-- `<svg><g id="a"><use href="#a"/></g></svg>` -/
def useInside : NodeHeap :=
  (miniNodeAppendChild (miniNodeAppendChild looseUse (some 1) (some 2)).2 (some 0) (some 1)).2

theorem wellFormed_useInside : WellFormed useInside :=
  wellFormed_placed (by decide) (by decide) (by decide) (by decide) (by decide) (by decide)

theorem shadowOwned_useInside : ShadowOwned useInside := shadowOwned_placed

def useInsideScene : SvgScene where
  heap := useInside
  root := some 0
  wellFormed := wellFormed_useInside
  shadowOwned := shadowOwned_useInside
  root_lt _ h := Option.some.inj h ▸ by decide

/-- A `use` inside of the group that it refers to. -/
theorem useInside_not_finishes : ¬ Finishes useInsideScene.calls (.group 0) := by
  have hdown : SvgCall.shape 1 ∈ useInsideScene.calls (.group 0) := by decide
  have hgroup : SvgCall.group 1 ∈ useInsideScene.calls (.shape 1) := by decide
  have huse : SvgCall.shape 2 ∈ useInsideScene.calls (.group 1) := by decide
  have hback : SvgCall.group 1 ∈ useInsideScene.calls (.shape 2) := by decide
  intro h
  exact (((h.of_mem hdown).of_mem hgroup).not_cycle) (.tail (.single huse) hback)

end TinyFramework.Render
