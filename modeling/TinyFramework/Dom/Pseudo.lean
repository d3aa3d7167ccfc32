/-
  Dom/Pseudo.lean --- pseudo-elements and the release of subtrees.

  `mini_css_apply` makes a node for `::before`, `::after` and `::placeholder` and
  keeps it in a field of its host.  The first two are also children of the host, so
  the walks of the frame come to them twice: through the field and through the child
  list.

  `mini_node_destroy` frees a node with everything it owns: its children, its shadow
  root, and the nodes of its three pseudo fields.  Freeing is recorded, and a call that
  comes to a freed node is marked as faulty.  The memory of a freed node is read by
  faulty calls only, so its record is dropped when the outermost call returns.
-/
import TinyFramework.Dom.Placement
import TinyFramework.Foundation.Walk
import TinyFramework.Html5.Document

set_option autoImplicit false

namespace TinyFramework.Dom

open TinyFramework.Foundation

/-- A document with the fields `pseudo_before`, `pseudo_after` and
`pseudo_placeholder` of its nodes. -/
structure PseudoTree where
  heap : NodeHeap
  root : NodeId
  before : NodeId → Option NodeId
  after : NodeId → Option NodeId
  placeholder : NodeId → Option NodeId

/-- The pseudo elements `mini_css_apply` knows. -/
inductive PseudoKind where
  | before
  | after
  | placeholder
  deriving DecidableEq, Repr

/-- The tag of the generated node. -/
def PseudoKind.tag : PseudoKind → Bytes
  | before => ascii "::before"
  | after => ascii "::after"
  | placeholder => ascii "::placeholder"

namespace PseudoTree

/-- The field of the host for a pseudo element. -/
def pseudoOf (t : PseudoTree) : PseudoKind → NodeId → Option NodeId
  | .before => t.before
  | .after => t.after
  | .placeholder => t.placeholder

/-- The branch of `mini_css_apply` that creates the node of a pseudo element. -/
def createPseudo (t : PseudoTree) (kind : PseudoKind) (host : NodeId) : PseudoTree :=
  let (ps, d) := miniNodeCreateElement t.heap (some kind.tag)
  match kind with
  | .before =>
      { t with
        heap := (miniNodeInsertBefore d (some host) (some ps) (d.node host).firstChild).2
        before := Function.update t.before host (some ps) }
  | .after =>
      { t with
        heap := (miniNodeAppendChild d (some host) (some ps)).2
        after := Function.update t.after host (some ps) }
  | .placeholder =>
      { t with heap := d, placeholder := Function.update t.placeholder host (some ps) }

/-- `x` is the `::before` or `::after` node of some host. -/
def Generated (t : PseudoTree) (x : NodeId) : Prop :=
  ∃ p, t.before p = some x ∨ t.after p = some x

/-- The order in which `apply_animations` and `tick_transitions` go on from a node. -/
def frameLinks (t : PseudoTree) (n : NodeId) : List NodeId :=
  (t.before n).toList ++ ((t.after n).toList ++
    (children t.heap n ++ (t.heap.node n).shadowRoot.toList))

/-- The order in which `clear_dirty_rec` goes on from a node. -/
def clearLinks (t : PseudoTree) (n : NodeId) : List NodeId :=
  children t.heap n ++ (t.heap.node n).shadowRoot.toList

/-- The pointers of a document as its calls build them: a generated node is a child
of its host, and a shadow root hangs under its host outside the child list. -/
structure Built (t : PseudoTree) : Prop where
  wellFormed : WellFormed t.heap
  root : t.root < t.heap.size
  before : ∀ p c, t.before p = some c → c ∈ children t.heap p
  after : ∀ p c, t.after p = some c → c ∈ children t.heap p
  shadow : ShadowOwned t.heap
  unlisted : ∀ p s, (t.heap.node p).shadowRoot = some s → s ∉ children t.heap p

namespace Built

variable {t : PseudoTree} {p c x : NodeId}

theorem goesDown_frameLinks (h : Built t) : GoesDown t.heap.parentOf t.frameLinks := by
  intro p c hc
  simp only [frameLinks, List.mem_append, Option.mem_toList] at hc
  rcases hc with hc | hc | hc | hc
  · exact h.wellFormed.mirrors.parent p c (h.before p c hc)
  · exact h.wellFormed.mirrors.parent p c (h.after p c hc)
  · exact h.wellFormed.mirrors.parent p c hc
  · exact h.shadow p c hc

/-- A child that is no generated node is named once by its parent. -/
theorem count_frameLinks (h : Built t) (hc : t.heap.parentOf c = some p)
    (hgen : ¬ t.Generated c) : (t.frameLinks p).count c = 1 := by
  have hbefore : (t.before p).toList.count c = 0 :=
    List.count_eq_zero.2 fun hmem => hgen ⟨p, .inl (Option.mem_toList.1 hmem)⟩
  have hafter : (t.after p).toList.count c = 0 :=
    List.count_eq_zero.2 fun hmem => hgen ⟨p, .inr (Option.mem_toList.1 hmem)⟩
  rw [frameLinks, List.count_append, List.count_append, List.count_append, hbefore, hafter,
    Nat.zero_add, Nat.zero_add]
  by_cases hlist : c ∈ children t.heap p
  · have hnot : c ∉ (t.heap.node p).shadowRoot.toList := fun hmem =>
      h.unlisted p c (Option.mem_toList.1 hmem) hlist
    rw [List.count_eq_one_of_mem (h.wellFormed.mirrors.nodup p) hlist, List.count_eq_zero.2 hnot]
  · have hshadow := ((h.wellFormed.mirrors.listed c p hc).resolve_left hlist).1
    rw [List.count_eq_zero.2 hlist, hshadow]
    simp

/-- A frame comes once to a node of the document that neither is generated nor stands
in a generated node. -/
theorem count_visits (h : Built t) (hx : Below t.heap.parentOf x t.root)
    (hgen : ∀ a, Below t.heap.parentOf x a → ¬ t.Generated a) :
    (walk t.frameLinks t.heap.size t.root).count x = 1 := by
  have hA : ∀ y, Below t.heap.parentOf y t.root → y ∈ Finset.range t.heap.size := by
    intro y hy
    rcases hy.eq_or_parent with rfl | ⟨p, hp, -⟩
    · exact Finset.mem_range.2 h.root
    · exact Finset.mem_range.2 (h.wellFormed.mirrors.allocated y p hp).1
  refine h.wellFormed.acyclic.count_walk_eq_one h.goesDown_frameLinks hA
    (Nat.le_of_eq (Finset.card_range _)) hx fun p c hc hxc _ => ?_
  exact h.count_frameLinks hc (hgen c hxc)

/-- A document keeps its shape when a fresh node is hung under a host. -/
theorem hang (h : Built t) {m : MiniNode} {d : NodeHeap} {host : NodeId} {kids : List NodeId}
    (hm : m.shadowRoot = none) (hd : HangsFresh t.heap d m host kids)
    (hkids : ∀ c, c ∈ kids ↔ c = t.heap.size ∨ c ∈ children t.heap host) :
    Built { t with heap := d } ∧ t.heap.size ∈ children d host := by
  have hmem : ∀ p c, c ∈ children d p ↔
      (p = host ∧ c = t.heap.size) ∨ c ∈ children t.heap p := by
    intro p c
    rw [hd.children, Function.update_apply]
    split_ifs with hp
    · simp [hp, hkids]
    · simp [hp]
  have hshadow : ∀ p s, (d.node p).shadowRoot = some s → (t.heap.node p).shadowRoot = some s := by
    intro p s hs
    by_cases hp : p = t.heap.size
    · subst hp
      rw [field_of_bare MiniNode.shadowRoot ((hd.bare _).trans (if_pos rfl)) fun _ => rfl, hm] at hs
      cases hs
    · rwa [field_of_bare MiniNode.shadowRoot ((hd.bare p).trans (if_neg hp)) fun _ => rfl] at hs
  refine ⟨⟨hd.wellFormed, ?_, fun p c hc => ?_, fun p c hc => ?_, fun p s hs => ?_,
    fun p s hs hmem' => ?_⟩, (hmem _ _).2 (.inl ⟨rfl, rfl⟩)⟩
  · rw [hd.size]
    exact Nat.lt_succ_of_lt h.root
  · exact (hmem p c).2 (.inr (h.before p c hc))
  · exact (hmem p c).2 (.inr (h.after p c hc))
  · have hparent := h.shadow p s (hshadow p s hs)
    have hne : s ≠ t.heap.size := fun heq =>
      absurd (h.wellFormed.mirrors.allocated s p hparent).1 (heq ▸ Nat.lt_irrefl _)
    rw [hd.parent, Function.update_of_ne hne]
    exact hparent
  · have hs' := hshadow p s hs
    rcases (hmem p s).1 hmem' with ⟨-, heq⟩ | hlist
    · exact absurd (h.wellFormed.mirrors.allocated s p (h.shadow p s hs')).1
        (heq ▸ Nat.lt_irrefl _)
    · exact h.unlisted p s hs' hlist

/-- What `mini_node_create_element` allocates for a pseudo element. -/
theorem createElement_pseudo (d : NodeHeap) (kind : PseudoKind) :
    ∃ m : MiniNode, m.bare = m ∧ m.type ≠ .documentFragmentNode ∧ m.shadowRoot = none ∧
      miniNodeCreateElement d (some kind.tag) = (d.size, d.alloc m) :=
  ⟨_, rfl, by simp, rfl, rfl⟩

theorem alloc (h : Built t) {m : MiniNode} (hm : m.bare = m) (hshadow : m.shadowRoot = none) :
    Built { t with heap := t.heap.alloc m } := by
  have hmir := h.wellFormed.mirrors.alloc hm
  have hparent := h.wellFormed.parentOf_alloc hm
  have hold : ∀ p s, ((t.heap.alloc m).node p).shadowRoot = some s →
      (t.heap.node p).shadowRoot = some s := by
    intro p s hs
    rw [NodeHeap.alloc_node] at hs
    split_ifs at hs with hp
    · rw [hshadow] at hs
      cases hs
    · exact hs
  refine ⟨hmir.wellFormed (hparent ▸ h.wellFormed.acyclic), Nat.lt_succ_of_lt h.root,
    fun p c hc => ?_, fun p c hc => ?_, fun p s hs => ?_, fun p s hs => ?_⟩
  · exact hmir.children_eq ▸ h.before p c hc
  · exact hmir.children_eq ▸ h.after p c hc
  · exact (congrFun hparent s).trans (h.shadow p s (hold p s hs))
  · exact hmir.children_eq ▸ h.unlisted p s (hold p s hs)

/-- The documents of `mini_css_apply`: creating a generated node keeps the shape. -/
theorem createPseudo (h : Built t) {host : NodeId} (hhost : host < t.heap.size)
    (kind : PseudoKind) : Built (t.createPseudo kind host) := by
  obtain ⟨m, hbare, htype, hshadow, hcreate⟩ := createElement_pseudo t.heap kind
  unfold PseudoTree.createPseudo
  rw [hcreate]
  cases kind with
  | before =>
    have hd := h.wellFormed.insert_fresh hbare htype hhost
    obtain ⟨hbuilt, hmem⟩ := h.hang hshadow hd fun c => List.mem_cons
    refine { hbuilt with before := fun p c hc => ?_ }
    dsimp only at hc
    rw [Function.update_apply] at hc
    split_ifs at hc with hp
    · obtain rfl := Option.some.inj hc
      exact hp ▸ hmem
    · exact hbuilt.before p c hc
  | after =>
    have hd := h.wellFormed.append_fresh hbare htype hhost
    obtain ⟨hbuilt, hmem⟩ := h.hang hshadow hd fun c => by
      rw [List.mem_append, List.mem_singleton, or_comm]
    refine { hbuilt with after := fun p c hc => ?_ }
    dsimp only at hc
    rw [Function.update_apply] at hc
    split_ifs at hc with hp
    · obtain rfl := Option.some.inj hc
      exact hp ▸ hmem
    · exact hbuilt.after p c hc
  | placeholder =>
    obtain ⟨hwf, hroot, hbefore, hafter, howned, hunlisted⟩ := h.alloc hbare hshadow
    exact ⟨hwf, hroot, hbefore, hafter, howned, hunlisted⟩

end Built

end PseudoTree

/-- A new document: the root, and the body (node 1). -/
def bodyTree : PseudoTree where
  heap := Html5.miniDocCreate.1
  root := Html5.miniDocCreate.2.1
  before _ := none
  after _ := none
  placeholder _ := none

theorem built_bodyTree : bodyTree.Built := by
  have hlive := Html5.miniDocCreate_live.rooted
  have hshadow : ∀ p, (bodyTree.heap.node p).shadowRoot = none := fun p =>
    (shadowRoot_of_sameContent (.appendChild _ _ _) p).trans (by
      simp only [NodeHeap.alloc_node, NodeHeap.modify_node]
      split_ifs <;> rfl)
  refine ⟨hlive.wf, hlive.root_lt, fun _ _ h => (nomatch h), fun _ _ h => (nomatch h),
    fun p s hs => ?_, fun p s hs => ?_⟩
  · rw [hshadow] at hs
    cases hs
  · rw [hshadow] at hs
    cases hs

/-! ## The functions of the source -/

/-- The nodes freed so far, in order, and whether one of them was used again. -/
structure Released where
  log : List NodeId := []
  fault : Bool := false

/-- A call reads or writes the node. -/
def Released.visit (r : Released) (n : NodeId) : Released :=
  { r with fault := r.fault || decide (n ∈ r.log) }

/-- `free(n)` -/
def Released.release (r : Released) (n : NodeId) : Released :=
  { log := r.log ++ [n], fault := r.fault || decide (n ∈ r.log) }

namespace PseudoTree

/-- The order in which `mini_node_destroy` goes on from a node. -/
def ownLinks (t : PseudoTree) (n : NodeId) : List NodeId :=
  children t.heap n ++ ((t.heap.node n).shadowRoot.toList ++
    ((t.before n).toList ++ ((t.after n).toList ++ (t.placeholder n).toList)))

/-- `mini_node_destroy`; the bound is the number of allocated nodes. -/
def miniNodeDestroy (t : PseudoTree) : Nat → NodeId → Released → Released
  | 0, _, r => r
  | fuel + 1, n, r =>
      let r := r.visit n
      let r := (t.ownLinks n).foldl (fun r c => miniNodeDestroy t fuel c r) r
      r.release n

/-- The loops that destroy a list of nodes. -/
def destroyAll (t : PseudoTree) (l : List NodeId) (r : Released) : Released :=
  l.foldl (fun r c => t.miniNodeDestroy t.heap.size c r) r

/-- The records of freed nodes are gone. -/
def forget (t : PseudoTree) (gone : List NodeId) : PseudoTree :=
  { t with
    heap := { t.heap with node := fun x => if x ∈ gone then {} else t.heap.node x }
    before := fun x => if x ∈ gone then none else t.before x
    after := fun x => if x ∈ gone then none else t.after x
    placeholder := fun x => if x ∈ gone then none else t.placeholder x }

/-- `n->first_child = n->last_child = NULL;` -/
def clearChildren (t : PseudoTree) (n : NodeId) : PseudoTree :=
  { t with heap := (t.heap.setFirstChild n none).setLastChild n none }

/-! ## Ownership -/

/-- `x` is in the subtree of `n`: `n` itself, or reached by the links down from it. -/
def InSubtree (t : PseudoTree) (n x : NodeId) : Prop :=
  Relation.ReflTransGen (fun x y => y ∈ t.ownLinks x) n x

open Classical in
/-- The parent of a node, or the host whose `::placeholder` it is. -/
noncomputable def ownerOf (t : PseudoTree) (x : NodeId) : Option NodeId :=
  if h : ∃ p, t.placeholder p = some x then some h.choose else t.heap.parentOf x

/-- The documents in which every node has one owner. -/
structure Owned (t : PseudoTree) (dead : List NodeId) : Prop where
  built : Built t
  acyclic : Acyclic t.ownerOf
  placeholder : ∀ p q, t.placeholder p = some q → p < t.heap.size ∧ q < t.heap.size ∧
    t.heap.parentOf q = none ∧ ∀ p', t.placeholder p' = some q → p' = p
  dead : ∀ x ∈ dead, x < t.heap.size ∧ t.ownerOf x = none

/-- No node of the list has a `::before` or `::after` node. -/
def Bare (t : PseudoTree) (x : NodeId) : Prop :=
  t.before x = none ∧ t.after x = none

namespace Owned

variable {t : PseudoTree} {dead : List NodeId} {n p c x : NodeId}

theorem ownerOf_eq (h : ∀ p q, t.placeholder p = some q → p < t.heap.size ∧ q < t.heap.size ∧
      t.heap.parentOf q = none ∧ ∀ p', t.placeholder p' = some q → p' = p) :
    t.ownerOf c = some p ↔ t.heap.parentOf c = some p ∨ t.placeholder p = some c := by
  unfold ownerOf
  split_ifs with hhost
  · have hchoose := hhost.choose_spec
    obtain ⟨-, -, hnone, huniq⟩ := h _ _ hchoose
    rw [hnone]
    constructor
    · intro heq
      exact .inr (Option.some.inj heq ▸ hchoose)
    · rintro (heq | heq)
      · cases heq
      · exact congrArg some (huniq p heq).symm
  · exact ⟨.inl, fun hor => hor.resolve_right fun heq => hhost ⟨p, heq⟩⟩

theorem owner_iff (h : t.Owned dead) :
    t.ownerOf c = some p ↔ t.heap.parentOf c = some p ∨ t.placeholder p = some c :=
  ownerOf_eq h.placeholder

theorem owner_lt (h : t.Owned dead) (hc : t.ownerOf c = some p) :
    c < t.heap.size ∧ p < t.heap.size := by
  rcases h.owner_iff.1 hc with hparent | hhost
  · exact h.built.wellFormed.mirrors.allocated c p hparent
  · exact ⟨(h.placeholder p c hhost).2.1, (h.placeholder p c hhost).1⟩

theorem not_dead_of_owner (h : t.Owned dead) (hc : t.ownerOf c = some p) : c ∉ dead := by
  intro hmem
  rw [(h.dead c hmem).2] at hc
  cases hc

theorem mem_ownLinks (h : t.Owned dead) : c ∈ t.ownLinks p ↔ t.ownerOf c = some p := by
  rw [h.owner_iff]
  simp only [ownLinks, List.mem_append, Option.mem_toList]
  constructor
  · rintro (hc | hc | hc | hc | hc)
    · exact .inl (h.built.wellFormed.mirrors.parent p c hc)
    · exact .inl (h.built.shadow p c hc)
    · exact .inl (h.built.wellFormed.mirrors.parent p c (h.built.before p c hc))
    · exact .inl (h.built.wellFormed.mirrors.parent p c (h.built.after p c hc))
    · exact .inr hc
  · rintro (hc | hc)
    · rcases h.built.wellFormed.mirrors.listed c p hc with hlist | ⟨hshadow, -⟩
      · exact .inl hlist
      · exact .inr (.inl hshadow)
    · exact .inr (.inr (.inr (.inr hc)))

theorem goesDown (h : t.Owned dead) : GoesDown t.ownerOf t.ownLinks :=
  fun _ _ hc => h.mem_ownLinks.1 hc

theorem inSubtree_iff (h : t.Owned dead) : t.InSubtree n x ↔ Below t.ownerOf x n := by
  constructor
  · intro hx
    induction hx with
    | refl => exact Below.refl n
    | tail _ hlink ih => exact Below.head (h.mem_ownLinks.1 hlink) ih
  · intro hx
    induction hx using Relation.ReflTransGen.head_induction_on with
    | refl => exact .refl
    | head hup _ ih => exact ih.tail (h.mem_ownLinks.2 hup)

/-- A node without generated nodes names once what it owns. -/
theorem count_ownLinks (h : t.Owned dead) (hbare : t.Bare p) (hc : t.ownerOf c = some p) :
    (t.ownLinks p).count c = 1 := by
  have hmir := h.built.wellFormed.mirrors
  simp only [ownLinks, List.count_append, hbare.1, hbare.2, Option.toList_none, List.count_nil,
    Nat.zero_add]
  have hzero : ∀ {o : Option NodeId}, o ≠ some c → o.toList.count c = 0 := fun ho =>
    List.count_eq_zero.2 fun hmem => ho (Option.mem_toList.1 hmem)
  rcases h.owner_iff.1 hc with hparent | hhost
  · have hno : t.placeholder p ≠ some c := fun heq => by
      rw [(h.placeholder p c heq).2.2.1] at hparent
      cases hparent
    rw [hzero hno]
    rcases hmir.listed c p hparent with hlist | ⟨hshadow, -⟩
    · have hno' : (t.heap.node p).shadowRoot ≠ some c := fun heq => h.built.unlisted p c heq hlist
      rw [hzero hno', List.count_eq_one_of_mem (hmir.nodup p) hlist]
    · rw [List.count_eq_zero.2 (h.built.unlisted p c hshadow), hshadow]
      simp
  · have hnone := (h.placeholder p c hhost).2.2.1
    have hunlisted : c ∉ children t.heap p := fun hmem => by
      rw [NodeHeap.parentOf, hmir.parent p c hmem] at hnone
      cases hnone
    have hno : (t.heap.node p).shadowRoot ≠ some c := fun heq => by
      rw [h.built.shadow p c heq] at hnone
      cases hnone
    rw [List.count_eq_zero.2 hunlisted, hzero hno, hhost]
    simp

/-! ## What a release frees -/

/-- The walks from nodes that are below each other nowhere, and own no generated
node, come once to every node of their subtrees. -/
theorem walks_subtrees (h : t.Owned dead) {l : List NodeId} (hlt : ∀ c ∈ l, c < t.heap.size)
    (hl : l.Nodup) (hapart : ∀ c ∈ l, ∀ c' ∈ l, ∀ x, Below t.ownerOf x c →
      Below t.ownerOf x c' → c = c')
    (hbare : ∀ c ∈ l, ∀ x, t.InSubtree c x → t.Bare x) :
    (l.flatMap (walk t.ownLinks t.heap.size)).Nodup ∧
      ∀ x, x ∈ l.flatMap (walk t.ownLinks t.heap.size) ↔ ∃ c ∈ l, t.InSubtree c x := by
  have hone : ∀ c ∈ l, ∀ x, t.InSubtree c x →
      (l.flatMap (walk t.ownLinks t.heap.size)).count x = 1 := by
    intro c hc x hx
    have hbelow := h.inSubtree_iff.1 hx
    have hA : ∀ y, Below t.ownerOf y c → y ∈ Finset.range t.heap.size := by
      intro y hy
      rcases hy.eq_or_parent with rfl | ⟨p, hp, -⟩
      · exact Finset.mem_range.2 (hlt y hc)
      · exact Finset.mem_range.2 (h.owner_lt hp).1
    have hwalk := h.acyclic.count_walk_eq_one h.goesDown hA (Nat.le_of_eq (Finset.card_range _))
      hbelow fun p c' hc' _ hp => h.count_ownLinks (hbare c hc p (h.inSubtree_iff.2 hp)) hc'
    have hother : ∀ y ∈ l, y ≠ c → (walk t.ownLinks t.heap.size y).count x = 0 := by
      intro y hy hyc
      refine List.count_eq_zero.2 fun hmem => hyc ?_
      exact hapart y hy c hc x (h.goesDown.below_of_mem hmem) hbelow
    rw [List.count_flatMap]
    refine (sum_map_of_single hother).trans ?_
    rw [List.count_eq_one_of_mem hl hc, Nat.one_mul]
    exact hwalk
  have hmem : ∀ x, x ∈ l.flatMap (walk t.ownLinks t.heap.size) ↔ ∃ c ∈ l, t.InSubtree c x := by
    intro x
    constructor
    · intro hx
      obtain ⟨c, hc, hx⟩ := List.mem_flatMap.1 hx
      exact ⟨c, hc, h.inSubtree_iff.2 (h.goesDown.below_of_mem hx)⟩
    · rintro ⟨c, hc, hx⟩
      exact List.count_pos_iff.1 (by rw [hone c hc x hx]; exact Nat.one_pos)
  refine ⟨List.nodup_iff_count_le_one.2 fun x => ?_, hmem⟩
  by_cases hx : x ∈ l.flatMap (walk t.ownLinks t.heap.size)
  · obtain ⟨c, hc, hx⟩ := (hmem x).1 hx
    exact Nat.le_of_eq (hone c hc x hx)
  · rw [List.count_eq_zero.2 hx]
    exact Nat.zero_le 1

end Owned

/-- Freeing in a row what was not freed before frees everything once. -/
theorem foldl_destroy {t : PseudoTree} {fuel : Nat} {l : List NodeId}
    (hone : ∀ c ∈ l, ∀ log : List NodeId, (walk t.ownLinks fuel c).Nodup →
      (∀ x ∈ walk t.ownLinks fuel c, x ∉ log) →
      ∃ l', t.miniNodeDestroy fuel c ⟨log, false⟩ = ⟨log ++ l', false⟩ ∧
        l'.Perm (walk t.ownLinks fuel c))
    {log : List NodeId} (hnodup : (l.flatMap (walk t.ownLinks fuel)).Nodup)
    (hfresh : ∀ x ∈ l.flatMap (walk t.ownLinks fuel), x ∉ log) :
    ∃ l', l.foldl (fun r c => t.miniNodeDestroy fuel c r) ⟨log, false⟩ = ⟨log ++ l', false⟩ ∧
      l'.Perm (l.flatMap (walk t.ownLinks fuel)) := by
  induction l generalizing log with
  | nil => exact ⟨[], by simp, List.Perm.nil⟩
  | cons c l ih =>
    rw [List.flatMap_cons] at hnodup hfresh
    obtain ⟨hnodupc, hnodupl, hapart⟩ := List.nodup_append.1 hnodup
    obtain ⟨lc, hc, hpermc⟩ := hone c List.mem_cons_self log hnodupc fun x hx =>
      hfresh x (List.mem_append_left _ hx)
    obtain ⟨ll, hl, hperml⟩ := ih (fun c' hc' => hone c' (List.mem_cons_of_mem c hc')) hnodupl
      (fun x hx hmem => by
        rcases List.mem_append.1 hmem with hlog | hlc
        · exact hfresh x (List.mem_append_right _ hx) hlog
        · exact hapart x (hpermc.subset hlc) x hx rfl)
    refine ⟨lc ++ ll, ?_, hpermc.append hperml⟩
    rw [List.foldl_cons, hc, hl, List.append_assoc]

/-- A walk without repetition and without freed nodes is freed once, without fault. -/
theorem miniNodeDestroy_spec (t : PseudoTree) {fuel : Nat} {n : NodeId} {log : List NodeId}
    (hnodup : (walk t.ownLinks fuel n).Nodup) (hfresh : ∀ x ∈ walk t.ownLinks fuel n, x ∉ log) :
    ∃ l, t.miniNodeDestroy fuel n ⟨log, false⟩ = ⟨log ++ l, false⟩ ∧
      l.Perm (walk t.ownLinks fuel n) := by
  induction fuel generalizing n log with
  | zero => exact ⟨[], by simp [miniNodeDestroy], List.Perm.nil⟩
  | succ fuel ih =>
    obtain ⟨hn, hrest⟩ := List.nodup_cons.1 hnodup
    have hnlog : n ∉ log := hfresh n List.mem_cons_self
    obtain ⟨l, hl, hperm⟩ := foldl_destroy (fun c _ log hnodup hfresh => ih hnodup hfresh) hrest
      fun x hx => hfresh x (List.mem_cons_of_mem n hx)
    have hnl : n ∉ log ++ l := by
      rw [List.mem_append, not_or]
      exact ⟨hnlog, fun hmem => hn (hperm.subset hmem)⟩
    refine ⟨l ++ [n], ?_, (List.perm_append_singleton n l).trans (hperm.cons n)⟩
    have hvisit : Released.visit ⟨log, false⟩ n = ⟨log, false⟩ := by
      simp [Released.visit, hnlog]
    rw [miniNodeDestroy, hvisit, hl]
    simp [Released.release, hnl]

namespace Owned

variable {t : PseudoTree} {dead : List NodeId} {n p c x : NodeId}

/-- Destroying subtrees that own no generated node and hold no freed node frees each of
their nodes once, and no other. -/
theorem destroyAll_spec (h : t.Owned dead) {l : List NodeId} (hlt : ∀ c ∈ l, c < t.heap.size)
    (hl : l.Nodup) (hapart : ∀ c ∈ l, ∀ c' ∈ l, ∀ x, Below t.ownerOf x c →
      Below t.ownerOf x c' → c = c')
    (hbare : ∀ c ∈ l, ∀ x, t.InSubtree c x → t.Bare x) (hlive : ∀ c ∈ l, c ∉ dead) :
    ∃ gone, t.destroyAll l ⟨dead, false⟩ = ⟨dead ++ gone, false⟩ ∧ gone.Nodup ∧
      (∀ x, x ∈ gone ↔ ∃ c ∈ l, t.InSubtree c x) ∧ ∀ x ∈ gone, x ∉ dead := by
  obtain ⟨hnodup, hmem⟩ := h.walks_subtrees hlt hl hapart hbare
  have hfresh : ∀ x ∈ l.flatMap (walk t.ownLinks t.heap.size), x ∉ dead := by
    intro x hx
    obtain ⟨c, hc, hx⟩ := (hmem x).1 hx
    rcases (h.inSubtree_iff.1 hx).eq_or_parent with rfl | ⟨p, hp, -⟩
    · exact hlive x hc
    · exact h.not_dead_of_owner hp
  obtain ⟨gone, hgone, hperm⟩ := foldl_destroy (t := t)
    (fun c _ log hnodup hfresh => miniNodeDestroy_spec t hnodup hfresh) hnodup hfresh
  refine ⟨gone, hgone, hperm.nodup_iff.2 hnodup, fun x => ?_, fun x hx => ?_⟩
  · rw [hperm.mem_iff, hmem]
  · exact hfresh x (hperm.subset hx)

end Owned

/-! ## The document without the freed nodes -/

theorem cleared_node (t : PseudoTree) (gone : List NodeId) (top x : NodeId) :
    ((t.forget gone).clearChildren top).heap.node x =
      if x ∈ gone then {}
      else if x = top then { t.heap.node x with firstChild := none, lastChild := none }
      else t.heap.node x := by
  simp only [forget, clearChildren, NodeHeap.setFirstChild, NodeHeap.setLastChild,
    NodeHeap.modify_node]
  split_ifs <;> rfl

/-- The freed nodes are whole subtrees of `top`: all of it, or those of its children. -/
structure Cut (t : PseudoTree) (gone : List NodeId) (top : NodeId) : Prop where
  closed : ∀ c p, t.ownerOf c = some p → p ∈ gone → c ∈ gone
  upward : ∀ c p, t.ownerOf c = some p → c ∈ gone →
    p ∈ gone ∨ (p = top ∧ c ∈ children t.heap top)
  kids : ∀ c ∈ children t.heap top, c ∈ gone
  bare : top ∉ gone → t.Bare top

theorem cleared_parent {t : PseudoTree} {p c : NodeId} {gone : List NodeId} {top : NodeId}
    (hc : ((t.forget gone).clearChildren top).heap.parentOf c = some p) :
    c ∉ gone ∧ t.heap.parentOf c = some p := by
  rw [NodeHeap.parentOf, cleared_node] at hc
  split_ifs at hc with hgone
  · exact ⟨hgone, hc⟩
  · exact ⟨hgone, hc⟩

namespace Owned

variable {t : PseudoTree} {dead : List NodeId} {n p c x : NodeId}

theorem mirrors_cleared (h : t.Owned dead) {gone : List NodeId} {top : NodeId}
    (hcut : t.Cut gone top) :
    Mirrors ((t.forget gone).clearChildren top).heap
      (fun p => if p ∈ gone ∨ p = top then [] else children t.heap p) := by
  have hmir := h.built.wellFormed.mirrors
  have howner : ∀ {c p}, t.heap.parentOf c = some p → t.ownerOf c = some p := fun hc =>
    h.owner_iff.2 (.inl hc)
  -- a kept child list holds kept nodes, and a kept node stands in a kept list
  have hkept : ∀ {c p}, c ∈ children t.heap p → (¬ (p ∈ gone ∨ p = top) ↔ c ∉ gone) := by
    intro c p hc
    have hown := howner (hmir.parent p c hc)
    constructor
    · intro hp hgone
      rcases hcut.upward c p hown hgone with hp' | ⟨hp', -⟩
      · exact hp (.inl hp')
      · exact hp (.inr hp')
    · rintro hgone (hp | rfl)
      · exact hgone (hcut.closed c p hown hp)
      · exact hgone (hcut.kids c hc)
  have hadj : ∀ x y, (∃ p, Adjacent (if p ∈ gone ∨ p = top then [] else children t.heap p) x y) ↔
      x ∉ gone ∧ y ∉ gone ∧ ∃ p, Adjacent (children t.heap p) x y := by
    intro x y
    constructor
    · rintro ⟨p, hp⟩
      split_ifs at hp with hcond
      · exact absurd hp.mem_left List.not_mem_nil
      · exact ⟨(hkept hp.mem_left).1 hcond, (hkept hp.mem_right).1 hcond, p, hp⟩
    · rintro ⟨hx, -, p, hp⟩
      exact ⟨p, by rwa [if_neg ((hkept hp.mem_left).2 hx)]⟩
  constructor
  case first =>
    intro q
    rw [cleared_node]
    split_ifs with hq hq' hq' <;> first | rfl | exact hmir.first q | tauto
  case last =>
    intro q
    rw [cleared_node]
    split_ifs with hq hq' hq' <;> first | rfl | exact hmir.last q | tauto
  case next =>
    intro x y
    rw [hadj, ← hmir.next, cleared_node]
    split_ifs with hx hx'
    · simp [hx]
    all_goals
      refine ⟨fun hy => ⟨hx, fun hgone => ?_, hy⟩, fun hy => hy.2.2⟩
      obtain ⟨p, hp⟩ := (hmir.next x y).1 hy
      exact (hkept hp.mem_right).1 ((hkept hp.mem_left).2 hx) hgone
  case prev =>
    intro x y
    rw [hadj, ← hmir.prev, cleared_node]
    split_ifs with hy hy'
    · simp [hy]
    all_goals
      refine ⟨fun hx => ⟨fun hgone => ?_, hy, hx⟩, fun hx => hx.2.2⟩
      obtain ⟨p, hp⟩ := (hmir.prev x y).1 hx
      exact (hkept hp.mem_left).1 ((hkept hp.mem_right).2 hy) hgone
  case parent =>
    intro p c hc
    split_ifs at hc with hp
    · cases hc
    · rw [cleared_node, if_neg ((hkept hc).1 hp)]
      split_ifs <;> exact hmir.parent p c hc
  case nodup =>
    intro p
    split_ifs
    · exact List.nodup_nil
    · exact hmir.nodup p
  case listed =>
    intro c p hc
    obtain ⟨hgone, hparent⟩ := cleared_parent hc
    have hp : p ∉ gone := fun hp => hgone (hcut.closed c p (howner hparent) hp)
    rw [cleared_node, cleared_node, if_neg hgone, if_neg hp]
    rcases hmir.listed c p hparent with hlist | hshadow
    · rw [if_neg ((hkept hlist).2 hgone)]
      exact .inl hlist
    · refine .inr ?_
      split_ifs <;> exact hshadow
  case allocated =>
    intro c p hc
    exact hmir.allocated c p (cleared_parent hc).2

/-- Freeing such subtrees and forgetting them keeps the ownership. -/
theorem cleared (h : t.Owned dead) {gone : List NodeId} {top : NodeId} (hcut : t.Cut gone top)
    (hlt : ∀ x ∈ gone, x < t.heap.size) :
    Owned ((t.forget gone).clearChildren top) (dead ++ gone) := by
  have hmir := mirrors_cleared h hcut
  have hchildren := hmir.children_eq
  have hold : ∀ {p q}, ((t.forget gone).clearChildren top).placeholder p = some q →
      p ∉ gone ∧ t.placeholder p = some q := by
    intro p q hq
    change (if p ∈ gone then none else t.placeholder p) = some q at hq
    split_ifs at hq with hp
    exact ⟨hp, hq⟩
  have hplace : ∀ p q, ((t.forget gone).clearChildren top).placeholder p = some q →
      p < t.heap.size ∧ q < t.heap.size ∧
      ((t.forget gone).clearChildren top).heap.parentOf q = none ∧
      ∀ p', ((t.forget gone).clearChildren top).placeholder p' = some q → p' = p := by
    intro p q hq
    obtain ⟨hplt, hqlt, hnone, huniq⟩ := h.placeholder p q (hold hq).2
    refine ⟨hplt, hqlt, Option.eq_none_iff_forall_ne_some.2 fun p' hp' => ?_, fun p' hp' =>
      huniq p' (hold hp').2⟩
    rw [(cleared_parent hp').2] at hnone
    cases hnone
  have howner : ∀ c p, ((t.forget gone).clearChildren top).ownerOf c = some p →
      c ∉ gone ∧ t.ownerOf c = some p := by
    intro c p hc
    rcases (ownerOf_eq hplace).1 hc with hparent | hhost
    · exact ⟨(cleared_parent hparent).1, h.owner_iff.2 (.inl (cleared_parent hparent).2)⟩
    · obtain ⟨hp, hhost⟩ := hold hhost
      refine ⟨fun hgone => ?_, h.owner_iff.2 (.inr hhost)⟩
      rcases hcut.upward c p (h.owner_iff.2 (.inr hhost)) hgone with hp' | ⟨-, hkid⟩
      · exact hp hp'
      · have hparent := h.built.wellFormed.mirrors.parent top c hkid
        rw [← NodeHeap.parentOf, (h.placeholder p c hhost).2.2.1] at hparent
        cases hparent
  have hkids : ∀ {c p}, c ∈ children t.heap p → p ∉ gone → p ≠ top →
      c ∈ children ((t.forget gone).clearChildren top).heap p := by
    intro c p hc hp hne
    rw [hchildren]
    simpa [hp, hne] using hc
  have hfield : ∀ {f : NodeId → Option NodeId} {p c}, (if p ∈ gone then none else f p) = some c →
      p ∉ gone ∧ f p = some c := by
    intro f p c hc
    split_ifs at hc with hp
    exact ⟨hp, hc⟩
  have hshadow : ∀ p s, (((t.forget gone).clearChildren top).heap.node p).shadowRoot = some s →
      p ∉ gone ∧ (t.heap.node p).shadowRoot = some s := by
    intro p s hs
    rw [cleared_node] at hs
    split_ifs at hs with hp
    · exact ⟨hp, hs⟩
    · exact ⟨hp, hs⟩
  refine ⟨⟨hmir.wellFormed ?_, h.built.root, fun p c hc => ?_, fun p c hc => ?_, fun p s hs => ?_,
    fun p s hs hmem => ?_⟩, ?_, hplace, fun x hx => ?_⟩
  · exact h.built.wellFormed.acyclic.reparent (S := fun _ => False) (p := top)
      (fun c p hc => .inl (cleared_parent hc).2) fun _ hfalse => hfalse.elim
  · obtain ⟨hp, hpc⟩ := hfield hc
    refine hkids (h.built.before p c hpc) hp ?_
    rintro rfl
    rw [(hcut.bare hp).1] at hpc
    cases hpc
  · obtain ⟨hp, hpc⟩ := hfield hc
    refine hkids (h.built.after p c hpc) hp ?_
    rintro rfl
    rw [(hcut.bare hp).2] at hpc
    cases hpc
  · obtain ⟨hp, hps⟩ := hshadow p s hs
    have hparent := h.built.shadow p s hps
    have hsgone : s ∉ gone := by
      intro hgone
      rcases hcut.upward s p (h.owner_iff.2 (.inl hparent)) hgone with hp' | ⟨rfl, hkid⟩
      · exact hp hp'
      · exact h.built.unlisted p s hps hkid
    rw [NodeHeap.parentOf, cleared_node, if_neg hsgone]
    split_ifs <;> exact hparent
  · obtain ⟨-, hps⟩ := hshadow p s hs
    rw [hchildren] at hmem
    dsimp only at hmem
    split_ifs at hmem
    · cases hmem
    · exact h.built.unlisted p s hps hmem
  · exact h.acyclic.reparent (S := fun _ => False) (p := top)
      (fun c p hc => .inl (howner c p hc).2) fun _ hfalse => hfalse.elim
  · rcases List.mem_append.1 hx with hx | hx
    · refine ⟨(h.dead x hx).1, Option.eq_none_iff_forall_ne_some.2 fun p hp => ?_⟩
      have hnone := (h.dead x hx).2
      rw [(howner x p hp).2] at hnone
      cases hnone
    · exact ⟨hlt x hx, Option.eq_none_iff_forall_ne_some.2 fun p hp => (howner x p hp).1 hx⟩

end Owned

end PseudoTree

end TinyFramework.Dom
