/-
  Dom/Content.lean --- the content of elements and how nodes are hung into it.

  The mutators change tree pointers only.  `SameContent` says that nothing else
  has changed, `Grows` that later heaps keep types and tags and only add text.

  A fresh node has no parent and no children, so linking it first or last changes one
  child list and the parent of the node itself.
-/
import TinyFramework.Dom.Mutation

set_option autoImplicit false

namespace TinyFramework.Dom

open TinyFramework.Foundation

/-! ## Growth -/

/-- Later heaps keep every node's type and tag, and only add to its text. -/
structure Grows (d d' : NodeHeap) : Prop where
  size : d.size ≤ d'.size
  type : ∀ x < d.size, (d'.node x).type = (d.node x).type
  tag : ∀ x < d.size, (d'.node x).tag = (d.node x).tag
  text : ∀ x < d.size, (d.node x).text.getD [] <+: (d'.node x).text.getD []

namespace Grows

variable {d d' d'' : NodeHeap}

theorem refl (d : NodeHeap) : Grows d d :=
  ⟨Nat.le_refl _, fun _ _ => rfl, fun _ _ => rfl, fun _ _ => List.prefix_rfl⟩

theorem trans (h : Grows d d') (h' : Grows d' d'') : Grows d d'' := by
  have hlt : ∀ {x}, x < d.size → x < d'.size := fun hx => Nat.lt_of_lt_of_le hx h.size
  refine ⟨Nat.le_trans h.size h'.size, fun x hx => ?_, fun x hx => ?_, fun x hx => ?_⟩
  · rw [h'.type x (hlt hx), h.type x hx]
  · rw [h'.tag x (hlt hx), h.tag x hx]
  · exact (h.text x hx).trans (h'.text x (hlt hx))

theorem of_bare (hsize : d.size ≤ d'.size)
    (hbare : ∀ x < d.size, (d'.node x).bare = (d.node x).bare) : Grows d d' := by
  refine ⟨hsize, fun x hx => ?_, fun x hx => ?_, fun x hx => ?_⟩
  · exact field_of_bare MiniNode.type (hbare x hx) fun _ => rfl
  · exact field_of_bare MiniNode.tag (hbare x hx) fun _ => rfl
  · have htext := field_of_bare MiniNode.text (hbare x hx) fun _ => rfl
    exact htext ▸ List.prefix_rfl

theorem alloc (d : NodeHeap) (m : MiniNode) : Grows d (d.alloc m) := by
  refine of_bare (Nat.le_succ _) fun x hx => ?_
  rw [NodeHeap.alloc_node, if_neg (Nat.ne_of_lt hx)]

theorem appendText (d : NodeHeap) (n : NodeId) (u : Bytes) : Grows d (Dom.appendText d n u) := by
  refine ⟨Nat.le_refl _, fun x _ => ?_, fun x _ => ?_, fun x _ => ?_⟩
  · simp [Dom.appendText, field_modify]
  · simp [Dom.appendText, field_modify]
  · rw [Dom.appendText, field_modify MiniNode.text]
    split_ifs with hx
    · exact List.prefix_append _ _
    · exact List.prefix_rfl

end Grows

/-- Only tree pointers differ. -/
def SameContent (d d' : NodeHeap) : Prop :=
  d'.size = d.size ∧ ∀ x, (d'.node x).bare = (d.node x).bare

namespace SameContent

variable {d d' d'' : NodeHeap}

theorem refl (d : NodeHeap) : SameContent d d := ⟨rfl, fun _ => rfl⟩

theorem trans (h : SameContent d d') (h' : SameContent d' d'') : SameContent d d'' :=
  ⟨h'.1.trans h.1, fun x => (h'.2 x).trans (h.2 x)⟩

theorem grows (h : SameContent d d') : Grows d d' :=
  Grows.of_bare (Nat.le_of_eq h.1.symm) fun x _ => h.2 x

theorem type (h : SameContent d d') (x : NodeId) : (d'.node x).type = (d.node x).type :=
  field_of_bare MiniNode.type (h.2 x) fun _ => rfl

theorem tag (h : SameContent d d') (x : NodeId) :
    (d'.node x).tag = (d.node x).tag :=
  field_of_bare MiniNode.tag (h.2 x) fun _ => rfl

theorem unlink (d : NodeHeap) (p c : NodeId) : SameContent d (Dom.unlink d p c) :=
  ⟨unlink_size d p c, fun x => (unlink_node d p c x).2.2.2.2.2⟩

theorem linkLast (d : NodeHeap) (p c : NodeId) : SameContent d (Dom.linkLast d p c) :=
  ⟨linkLast_size d p c, fun x => (linkLast_node d p c x).2.2.2.2.2⟩

theorem linkBefore (d : NodeHeap) (p c r : NodeId) : SameContent d (Dom.linkBefore d p c r) :=
  ⟨linkBefore_size d p c r, fun x => (linkBefore_node d p c r x).2.2.2.2.2⟩

theorem removeFromParent (d : NodeHeap) (c : NodeId) :
    SameContent d (Dom.removeFromParent d c) :=
  ⟨removeFromParent_size d c, fun x => (removeFromParent_node d c x).2⟩

theorem bare_alloc {m : MiniNode} (h : SameContent (d.alloc m) d') (x : NodeId) :
    (d'.node x).bare = if x = d.size then m.bare else (d.node x).bare := by
  rw [h.2, NodeHeap.alloc_node]
  split_ifs <;> rfl

theorem setFirstChild (d : NodeHeap) (p : NodeId) (v : Option NodeId) :
    SameContent d (d.setFirstChild p v) :=
  ⟨rfl, fun x => by rw [NodeHeap.setFirstChild, field_modify MiniNode.bare]; split_ifs <;> rfl⟩

theorem setLastChild (d : NodeHeap) (p : NodeId) (v : Option NodeId) :
    SameContent d (d.setLastChild p v) :=
  ⟨rfl, fun x => by rw [NodeHeap.setLastChild, field_modify MiniNode.bare]; split_ifs <;> rfl⟩

theorem moveChildren (fuel : Nat) (d : NodeHeap) (p : NodeId) (c : Option NodeId) :
    SameContent d (Dom.moveChildren fuel d p c) := by
  induction fuel generalizing d c with
  | zero => cases c <;> exact refl d
  | succ fuel ih =>
    cases c with
    | none => exact refl d
    | some c => exact (linkLast d p c).trans (ih _ _)

theorem appendChild (d : NodeHeap) (p c : Option NodeId) :
    SameContent d (miniNodeAppendChild d p c).2 := by
  unfold miniNodeAppendChild
  split
  · split_ifs
    · exact ((moveChildren _ d _ _).trans (setLastChild _ _ _)).trans (setFirstChild _ _ _)
    · exact (removeFromParent d _).trans (linkLast _ _ _)
  · exact refl d

theorem insertBefore (d : NodeHeap) (p c r : Option NodeId) :
    SameContent d (miniNodeInsertBefore d p c r).2 := by
  unfold miniNodeInsertBefore
  split
  · split
    · exact appendChild d _ _
    · exact (removeFromParent d _).trans (linkBefore _ _ _ _)
  · exact refl d

theorem removeChild (d : NodeHeap) (p c : Option NodeId) :
    SameContent d (miniNodeRemoveChild d p c).2 := by
  unfold miniNodeRemoveChild
  split
  · split_ifs
    · exact refl d
    · exact unlink d _ _
  · exact refl d

theorem replaceChild (d : NodeHeap) (p c o : Option NodeId) :
    SameContent d (miniNodeReplaceChild d p c o).2 := by
  unfold miniNodeReplaceChild
  split
  · rename_i p c o
    have hrc : (miniNodeInsertBefore d (some p) (some c) (some o)).1 = 0 := rfl
    simp only [hrc, ne_eq, not_true_eq_false, if_false]
    split_ifs
    · exact (insertBefore d _ _ _).trans (removeChild _ _ _)
    · exact refl d
  · exact refl d

end SameContent

/-! ## Writing content -/

/-- Nothing but content differs: text, attributes and tags. -/
structure SamePointers (d d' : NodeHeap) : Prop where
  size : d'.size = d.size
  parent : ∀ x, (d'.node x).parent = (d.node x).parent
  next : ∀ x, (d'.node x).nextSibling = (d.node x).nextSibling
  prev : ∀ x, (d'.node x).prevSibling = (d.node x).prevSibling
  first : ∀ x, (d'.node x).firstChild = (d.node x).firstChild
  last : ∀ x, (d'.node x).lastChild = (d.node x).lastChild
  shadow : ∀ x, (d'.node x).shadowRoot = (d.node x).shadowRoot
  type : ∀ x, (d'.node x).type = (d.node x).type

namespace SamePointers

variable {d d' : NodeHeap}

theorem parentOf (h : SamePointers d d') : d'.parentOf = d.parentOf :=
  funext h.parent

theorem mirrors (h : SamePointers d d') {kids : NodeId → List NodeId} (hm : Mirrors d kids) :
    Mirrors d' kids where
  first p := (h.first p).trans (hm.first p)
  last p := (h.last p).trans (hm.last p)
  next x y := by rw [h.next, hm.next]
  prev x y := by rw [h.prev, hm.prev]
  parent p c hc := (h.parent c).trans (hm.parent p c hc)
  nodup := hm.nodup
  listed c p hc := by
    rw [h.shadow, h.type]
    exact hm.listed c p ((h.parent c).symm.trans hc)
  allocated c p hc := by
    rw [h.size]
    exact hm.allocated c p ((h.parent c).symm.trans hc)

theorem wellFormed (h : SamePointers d d') (hwf : WellFormed d) :
    WellFormed d' ∧ children d' = children d :=
  ⟨(h.mirrors hwf.mirrors).wellFormed (h.parentOf ▸ hwf.acyclic),
    (h.mirrors hwf.mirrors).children_eq⟩

theorem trans {d'' : NodeHeap} (h : SamePointers d d') (h' : SamePointers d' d'') :
    SamePointers d d'' where
  size := h'.size.trans h.size
  parent x := (h'.parent x).trans (h.parent x)
  next x := (h'.next x).trans (h.next x)
  prev x := (h'.prev x).trans (h.prev x)
  first x := (h'.first x).trans (h.first x)
  last x := (h'.last x).trans (h.last x)
  shadow x := (h'.shadow x).trans (h.shadow x)
  type x := (h'.type x).trans (h.type x)

end SamePointers

/-! ## Blanking records -/

/-- The records of `gone` have lost their pointers and the others are as they were; a child is
of `gone` with its parent. -/
structure Blanked (gone : NodeId → Prop) (d d' : NodeHeap) : Prop where
  size : d'.size = d.size
  kept : ∀ x, ¬ gone x → d'.node x = d.node x
  parent : ∀ x, gone x → (d'.node x).parent = none
  next : ∀ x, gone x → (d'.node x).nextSibling = none
  prev : ∀ x, gone x → (d'.node x).prevSibling = none
  first : ∀ x, gone x → (d'.node x).firstChild = none
  last : ∀ x, gone x → (d'.node x).lastChild = none
  closed : ∀ c p, d.parentOf c = some p → (gone c ↔ gone p)

namespace Blanked

variable {gone : NodeId → Prop} {d d' : NodeHeap}

theorem parentOf (h : Blanked gone d d') {c p : NodeId} (hp : d'.parentOf c = some p) :
    ¬ gone c ∧ ¬ gone p ∧ d.parentOf c = some p := by
  by_cases hc : gone c
  · rw [NodeHeap.parentOf, h.parent c hc] at hp
    cases hp
  · rw [NodeHeap.parentOf, h.kept c hc] at hp
    exact ⟨hc, mt (h.closed c p hp).2 hc, hp⟩

variable [DecidablePred gone] {kids : NodeId → List NodeId}

/-- What is left of a child list belongs to kept nodes. -/
theorem mem_kids (h : Blanked gone d d') (hm : Mirrors d kids) {c p : NodeId}
    (hc : c ∈ if gone p then [] else kids p) : ¬ gone p ∧ ¬ gone c ∧ c ∈ kids p := by
  split_ifs at hc with hp
  · cases hc
  · exact ⟨hp, mt (h.closed c p (hm.parent p c hc)).1 hp, hc⟩

/-- Kept nodes keep their neighbours. -/
theorem adjacent_iff (h : Blanked gone d d') (hm : Mirrors d kids) {x y : NodeId}
    (hxy : ¬ gone x ∨ ¬ gone y) :
    (∃ p, Adjacent (if gone p then [] else kids p) x y) ↔ ∃ p, Adjacent (kids p) x y := by
  constructor
  · rintro ⟨p, hp⟩
    rw [if_neg (h.mem_kids hm hp.mem_left).1] at hp
    exact ⟨p, hp⟩
  · rintro ⟨p, hp⟩
    have hkept : ¬ gone p := by
      rcases hxy with hx | hy
      · exact mt (h.closed x p (hm.parent p x hp.mem_left)).2 hx
      · exact mt (h.closed y p (hm.parent p y hp.mem_right)).2 hy
    exact ⟨p, by rwa [if_neg hkept]⟩

theorem mirrors (h : Blanked gone d d') (hm : Mirrors d kids) :
    Mirrors d' (fun p => if gone p then [] else kids p) := by
  constructor
  case first =>
    intro p
    split_ifs with hp
    · exact h.first p hp
    · rw [h.kept p hp]
      exact hm.first p
  case last =>
    intro p
    split_ifs with hp
    · exact h.last p hp
    · rw [h.kept p hp]
      exact hm.last p
  case next =>
    intro x y
    by_cases hx : gone x
    · rw [h.next x hx]
      exact iff_of_false nofun fun ⟨p, hp⟩ => (h.mem_kids hm hp.mem_left).2.1 hx
    · rw [h.kept x hx, h.adjacent_iff hm (.inl hx)]
      exact hm.next x y
  case prev =>
    intro x y
    by_cases hy : gone y
    · rw [h.prev y hy]
      exact iff_of_false nofun fun ⟨p, hp⟩ => (h.mem_kids hm hp.mem_right).2.1 hy
    · rw [h.kept y hy, h.adjacent_iff hm (.inr hy)]
      exact hm.prev x y
  case parent =>
    intro p c hc
    obtain ⟨-, hkept, hc⟩ := h.mem_kids hm hc
    rw [h.kept c hkept]
    exact hm.parent p c hc
  case nodup =>
    intro p
    split_ifs
    · exact List.nodup_nil
    · exact hm.nodup p
  case listed =>
    intro c p hp
    obtain ⟨hc, hkept, hp⟩ := h.parentOf hp
    rw [h.kept c hc, h.kept p hkept, if_neg hkept]
    exact hm.listed c p hp
  case allocated =>
    intro c p hp
    rw [h.size]
    exact hm.allocated c p (h.parentOf hp).2.2

theorem wellFormed (h : Blanked gone d d') (hwf : WellFormed d) : WellFormed d' := by
  refine (h.mirrors hwf.mirrors).wellFormed fun x hx => hwf.acyclic x ?_
  exact Relation.TransGen.mono (fun a b hab => (h.parentOf hab).2.2) x x hx

end Blanked

/-- Setting attributes of a node just allocated. -/
theorem setAttributes_alloc (d : NodeHeap) (m : MiniNode) (attrs : List (Bytes × Bytes)) :
    attrs.foldl (fun d' a => miniNodeSetAttribute d' d.size a.1 a.2) (d.alloc m) =
      d.alloc { m with attrs := attrs.foldl (fun as a => setAttr as a.1 a.2) m.attrs } := by
  have hone : ∀ (m : MiniNode) (k v : Bytes), miniNodeSetAttribute (d.alloc m) d.size k v =
      d.alloc { m with attrs := setAttr m.attrs k v } := by
    intro m k v
    unfold miniNodeSetAttribute NodeHeap.modify NodeHeap.alloc
    congr 1
    funext j
    dsimp only
    split_ifs <;> rfl
  induction attrs generalizing m with
  | nil => rfl
  | cons a attrs ih =>
    rw [List.foldl_cons, hone, ih]
    rfl

/-- Appending a node that is no fragment takes the plain path. -/
theorem appendChild_eq {d : NodeHeap} {p c : NodeId}
    (hc : (d.node c).type ≠ .documentFragmentNode) :
    (miniNodeAppendChild d (some p) (some c)).2 =
      Dom.linkLast (Dom.removeFromParent d c) p c := by
  rw [miniNodeAppendChild, if_neg fun h => hc h.1]

/-- Appending a node without parent only links it. -/
theorem appendChild_eq_linkLast {d : NodeHeap} {p c : NodeId}
    (hc : (d.node c).type ≠ .documentFragmentNode) (horphan : (d.node c).parent = none) :
    (miniNodeAppendChild d (some p) (some c)).2 = linkLast d p c := by
  rw [appendChild_eq hc, removeFromParent, horphan]

/-! ## Hanging a node just created into a child list -/

/-- `d'` is `d` with the fresh node `m` in the child list of `p`, which is now `kids`. -/
structure HangsFresh (d d' : NodeHeap) (m : MiniNode) (p : NodeId) (kids : List NodeId) :
    Prop where
  wellFormed : WellFormed d'
  size : d'.size = d.size + 1
  children : children d' = Function.update (children d) p kids
  parent : d'.parentOf = Function.update d.parentOf d.size (some p)
  bare : ∀ x, (d'.node x).bare = if x = d.size then m.bare else (d.node x).bare

namespace WellFormed

variable {d : NodeHeap} {m : MiniNode} {p : NodeId}

theorem orphan_fresh (h : WellFormed d) : (d.node d.size).parent = none :=
  Option.eq_none_iff_forall_ne_some.2 fun q hq =>
    Nat.lt_irrefl _ (h.mirrors.allocated _ q hq).1

theorem parentOf_alloc (h : WellFormed d) (hm : m.bare = m) :
    (d.alloc m).parentOf = d.parentOf := by
  funext x
  rw [NodeHeap.parentOf, NodeHeap.alloc_node]
  split_ifs with hx
  · rw [hx, NodeHeap.parentOf, h.orphan_fresh, ← hm]
    rfl
  · rfl

theorem unlisted_fresh (h : WellFormed d) (q : NodeId) : d.size ∉ Dom.children d q := fun hmem =>
  Nat.lt_irrefl _ (h.mirrors.child_lt hmem)

theorem acyclic_hang (h : WellFormed d) (hp : p < d.size) :
    Acyclic (Function.update d.parentOf d.size (some p)) := by
  refine h.acyclic.reparent (S := fun s => s = d.size) (p := p) (fun s q hs => ?_) ?_
  · by_cases hsz : s = d.size
    · subst hsz
      rw [Function.update_self] at hs
      exact .inr ⟨rfl, (Option.some.inj hs).symm⟩
    · rw [Function.update_of_ne hsz] at hs
      exact .inl hs
  · rintro s rfl hbelow
    rcases Relation.ReflTransGen.cases_tail hbelow with heq | ⟨q, -, hq⟩
    · exact absurd hp (heq ▸ Nat.lt_irrefl _)
    · exact Nat.lt_irrefl _ (h.mirrors.allocated q _ hq).2

theorem removeFromParent_fresh (h : WellFormed d) (hm : m.bare = m) :
    removeFromParent (d.alloc m) d.size = d.alloc m := by
  have hnone : ((d.alloc m).node d.size).parent = none :=
    (congrFun (h.parentOf_alloc hm) d.size).trans h.orphan_fresh
  rw [removeFromParent, hnone]

/-- What linking a fresh node leaves, from the lists it leaves. -/
theorem hangsFresh (h : WellFormed d) (hm : m.bare = m) (hp : p < d.size) {d' : NodeHeap}
    {kids : List NodeId} (hsame : SameContent (d.alloc m) d')
    (hmir : Mirrors d' (Function.update (Dom.children d) p kids))
    (hparent : ∀ x, (d'.node x).parent =
      if x = d.size then some p else ((d.alloc m).node x).parent) :
    HangsFresh d d' m p kids := by
  have hup : d'.parentOf = Function.update d.parentOf d.size (some p) := by
    funext x
    rw [← h.parentOf_alloc hm, NodeHeap.parentOf, hparent, Function.update_apply]
    rfl
  exact ⟨hmir.wellFormed (hup ▸ h.acyclic_hang hp), hsame.1, hmir.children_eq, hup,
    hsame.bare_alloc⟩

theorem removable_fresh (h : WellFormed d) (hm : m.bare = m)
    (htype : m.type ≠ .documentFragmentNode) :
    Mirrors (d.alloc m) (Dom.children d) ∧
      ((d.alloc m).node d.size).type ≠ .documentFragmentNode ∧
        Mirrors.Removable (d.alloc m) (Dom.children d) d.size := by
  have htype' : ((d.alloc m).node d.size).type ≠ .documentFragmentNode := by
    rwa [NodeHeap.alloc_node, if_pos rfl]
  exact ⟨h.mirrors.alloc hm, htype', (h.mirrors.alloc hm).removable_of_type htype'⟩

/-- Creating a node and appending it. -/
theorem append_fresh (h : WellFormed d) (hm : m.bare = m)
    (htype : m.type ≠ .documentFragmentNode) (hp : p < d.size) :
    HangsFresh d (miniNodeAppendChild (d.alloc m) (some p) (some d.size)).2 m p
      (Dom.children d p ++ [d.size]) := by
  obtain ⟨hmir, htype', hrem⟩ := h.removable_fresh hm htype
  have happ := hmir.appendPlain hrem (Nat.lt_succ_self _) (Nat.lt_succ_of_lt hp)
  rw [Mirrors.dropKid_of_unlisted h.unlisted_fresh] at happ
  refine h.hangsFresh hm hp (SameContent.appendChild _ _ _) ?_ fun x => ?_
  · rw [appendChild_eq htype']
    exact happ
  · rw [appendChild_eq htype', (linkLast_node _ p d.size x).1, h.removeFromParent_fresh hm]

/-- Creating a node and inserting it before the first child. -/
theorem insert_fresh (h : WellFormed d) (hm : m.bare = m)
    (htype : m.type ≠ .documentFragmentNode) (hp : p < d.size) :
    HangsFresh d (miniNodeInsertBefore (d.alloc m) (some p) (some d.size)
      ((d.alloc m).node p).firstChild).2 m p (d.size :: Dom.children d p) := by
  have hfirst : ((d.alloc m).node p).firstChild = (Dom.children d p).head? := by
    rw [NodeHeap.alloc_node, if_neg (Nat.ne_of_lt hp), h.mirrors.first]
  rw [hfirst]
  cases hk : Dom.children d p with
  | nil =>
    have happ := h.append_fresh hm htype hp
    rw [hk] at happ
    exact happ
  | cons ref r =>
    obtain ⟨hmir, -, hrem⟩ := h.removable_fresh hm htype
    have hdrop := Mirrors.dropKid_of_unlisted h.unlisted_fresh
    have hk' : dropKid (Dom.children d) d.size p = [] ++ ref :: r := by
      rw [hdrop, hk]
      rfl
    have hins := hmir.insertPlain hrem (Nat.lt_succ_self _) hk'
    rw [hdrop] at hins
    refine h.hangsFresh hm hp (SameContent.insertBefore _ _ _ _) hins fun x => ?_
    rw [List.head?_cons, miniNodeInsertBefore, (linkBefore_node _ p d.size ref x).1,
      h.removeFromParent_fresh hm]

end WellFormed

end TinyFramework.Dom
