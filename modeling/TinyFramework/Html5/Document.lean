/-
  Html5/Document.lean --- what `mini_html5_init` leaves of a live document.

  The parser may be bound to any document whose tree is well formed.  After
  `mini_html5_init` the open stack holds html and body elements of the document,
  the body on top, and the invariant of the tree builder holds in both readings.
-/
import TinyFramework.Html5.TokenSteps
import TinyFramework.Html5.Tokenizer

set_option autoImplicit false

namespace TinyFramework.Html5

open TinyFramework.Foundation TinyFramework.Dom

/-! ## Rooted heaps -/

/-- A well-formed heap with a node that has no parent. -/
structure Rooted (d : NodeHeap) (root : NodeId) : Prop where
  wf : WellFormed d
  root_lt : root < d.size
  rootParent : (d.node root).parent = none

namespace Rooted

variable {d : NodeHeap} {root p c x : NodeId}

theorem fresh_parent (h : Rooted d root) : (d.node d.size).parent = none :=
  Option.eq_none_iff_forall_ne_some.2 fun q hq =>
    Nat.lt_irrefl _ (h.wf.mirrors.allocated _ q hq).1

theorem alloc (h : Rooted d root) {m : MiniNode} (hm : m.bare = m) :
    Rooted (d.alloc m) root ∧ (d.alloc m).parentOf = d.parentOf := by
  have hparent : (d.alloc m).parentOf = d.parentOf := by
    funext x
    rw [NodeHeap.parentOf, NodeHeap.alloc_node]
    split_ifs with hx
    · rw [hx, NodeHeap.parentOf, h.fresh_parent, ← hm]
      rfl
    · rfl
  have hmir := h.wf.mirrors.alloc hm
  refine ⟨⟨hmir.wellFormed (hparent ▸ h.wf.acyclic), Nat.lt_succ_of_lt h.root_lt, ?_⟩, hparent⟩
  exact (congrFun hparent root).trans h.rootParent

/-- Appending a node that is not above its new parent. -/
theorem append (h : Rooted d root) (hp : p < d.size) (hc : c < d.size) (hroot : c ≠ root)
    (htype : (d.node c).type ≠ .documentFragmentNode) (hno : ¬ Below d.parentOf p c) :
    Rooted (miniNodeAppendChild d (some p) (some c)).2 root ∧
    SameContent d (miniNodeAppendChild d (some p) (some c)).2 ∧
    ∀ x, (miniNodeAppendChild d (some p) (some c)).2.parentOf x =
      if x = c then some p else d.parentOf x := by
  have hsafe : callSafe d (.appendChild (some p) (some c)) = true := by
    rw [callSafe, appendSafe, if_neg fun hc => htype hc.1, ← h.wf.contains_iff hp] at *
    simpa using hno
  have hex : DomCall.Existing d (.appendChild (some p) (some c)) := by
    simp [DomCall.Existing, DomCall.args, hp, hc]
  have hwf := h.wf.exec hex hsafe
  change WellFormed (miniNodeAppendChild d (some p) (some c)).2 at hwf
  have hparent : ∀ x, (miniNodeAppendChild d (some p) (some c)).2.parentOf x =
      if x = c then some p else d.parentOf x := by
    intro x
    rw [appendChild_eq htype, NodeHeap.parentOf, (linkLast_node _ p c x).1,
      (removeFromParent_node d c x).1]
    split_ifs <;> rfl
  have hsame : SameContent d (miniNodeAppendChild d (some p) (some c)).2 := by
    rw [appendChild_eq htype]
    exact (SameContent.removeFromParent d c).trans (SameContent.linkLast _ p c)
  refine ⟨⟨hwf, hsame.1 ▸ h.root_lt, ?_⟩, hsame, hparent⟩
  exact (hparent root).trans ((if_neg (Ne.symm hroot)).trans h.rootParent)

/-- Removing a node that is no fragment. -/
theorem remove (h : Rooted d root) (hroot : c ≠ root)
    (htype : (d.node c).type ≠ .documentFragmentNode) (hp : (d.node c).parent = some p) :
    Rooted (miniNodeRemoveChild d (some p) (some c)).2 root ∧
    SameContent d (miniNodeRemoveChild d (some p) (some c)).2 ∧
    ∀ x, (miniNodeRemoveChild d (some p) (some c)).2.parentOf x =
      if x = c then none else d.parentOf x := by
  have hlt := h.wf.mirrors.allocated c p hp
  have hrem : removable d c = true :=
    WellFormed.removable_iff.2 (h.wf.mirrors.removable_of_type htype)
  have hex : DomCall.Existing d (.removeChild (some p) (some c)) := by
    simp [DomCall.Existing, DomCall.args, hlt.1, hlt.2]
  have hwf := h.wf.exec hex (by simp [callSafe, hrem])
  change WellFormed (miniNodeRemoveChild d (some p) (some c)).2 at hwf
  have heq : (miniNodeRemoveChild d (some p) (some c)).2 = removeFromParent d c := by
    rw [removeFromParent, hp]
  have hparent : ∀ x, (miniNodeRemoveChild d (some p) (some c)).2.parentOf x =
      if x = c then none else d.parentOf x := fun x => by
    rw [heq, NodeHeap.parentOf, (removeFromParent_node d c x).1]
    rfl
  have hsame := SameContent.removeChild d (some p) (some c)
  refine ⟨⟨hwf, hsame.1 ▸ h.root_lt, ?_⟩, hsame, hparent⟩
  exact (hparent root).trans ((if_neg (Ne.symm hroot)).trans h.rootParent)

/-- A node just allocated, and appended. -/
theorem append_alloc (h : Rooted d root) {m : MiniNode} (hm : TreeInv.Plain m)
    (hp : p < d.size) :
    Rooted (miniNodeAppendChild (d.alloc m) (some p) (some d.size)).2 root ∧
    SameContent (d.alloc m) (miniNodeAppendChild (d.alloc m) (some p) (some d.size)).2 ∧
    ∀ x, (miniNodeAppendChild (d.alloc m) (some p) (some d.size)).2.parentOf x =
      if x = d.size then some p else d.parentOf x := by
  obtain ⟨h', hparent⟩ := h.alloc hm.bare
  rw [← hparent]
  refine h'.append (Nat.lt_succ_of_lt hp) (Nat.lt_succ_self _) (Ne.symm (Nat.ne_of_lt h.root_lt))
    ?_ fun hb => ?_
  · rw [NodeHeap.alloc_node, if_pos rfl]
    exact hm.type
  · rw [hparent] at hb
    rcases Relation.ReflTransGen.cases_tail hb with heq | ⟨q, -, hq⟩
    · exact absurd hp (heq ▸ Nat.lt_irrefl _)
    · exact Nat.lt_irrefl _ (h.wf.mirrors.allocated q _ hq).2

end Rooted

/-! ## The document before and after -/

/-- A document the parser can be bound to. -/
structure LiveDocument (d : NodeHeap) (root : NodeId) (body : Option NodeId) : Prop where
  rooted : Rooted d root
  body : ∀ b ∈ body, b < d.size ∧ b ≠ root ∧ (d.node b).type ≠ .documentFragmentNode

/-- A node in the tree below the root, but not the root. -/
def Inside (d : NodeHeap) (root x : NodeId) : Prop :=
  x < d.size ∧ x ≠ root ∧ Below d.parentOf x root

theorem inside_of_parent {d : NodeHeap} {root p x : NodeId} (h : Rooted d root)
    (hx : d.parentOf x = some p) (hp : p = root ∨ Inside d root p) : Inside d root x := by
  refine ⟨(h.wf.mirrors.allocated x p hx).1, ?_, ?_⟩
  · rintro rfl
    exact absurd (h.rootParent.symm.trans hx) (by simp)
  · rcases hp with rfl | hp
    · exact Below.of_parent hx
    · exact Below.head hx hp.2.2

/-- The state of the tree builder after `mini_html5_init`. -/
structure Initial (s : TreeBuilder) : Prop where
  rooted : Rooted s.heap s.root
  top : ∃ body, s.body = some body ∧ s.stack.head? = some body
  stack : ∀ x ∈ s.stack, Inside s.heap s.root x
  tags : ∀ x ∈ s.stack,
    tagIs (s.tag x) (ascii "html") = true ∨ tagIs (s.tag x) (ascii "body") = true
  head : ∀ x ∈ s.headElement, Inside s.heap s.root x
  afe : s.afe = []
  table : s.tableFoster = none
  mode : s.mode = .inBody

/-- The record of an element made without a token. -/
def bareElement (tag : String) : MiniNode where
  type := .elementNode
  tag := some (((ascii tag).take 47).map tolower)

theorem plain_bareElement (tag : String) : TreeInv.Plain (bareElement tag) :=
  ⟨rfl, by simp [bareElement]⟩

/-- What `ensure_html` leaves: html under the root, the head under html. -/
structure Skeleton (s : TreeBuilder) : Prop where
  rooted : Rooted s.heap s.root
  stack : ∀ x ∈ s.stack, s.heap.parentOf x = some s.root ∧
    tagIs (s.tag x) (ascii "html") = true
  head : ∀ x ∈ s.headElement, ∃ q, s.heap.parentOf x = some q ∧ s.heap.parentOf q = some s.root
  afe : s.afe = []
  table : s.tableFoster = none

/-- The first half of `ensure_html`: the body leaves the root, html comes in. -/
theorem ensureHtml_root {d : NodeHeap} {root : NodeId} {body : Option NodeId}
    (h : LiveDocument d root body) :
    let d₁ := d.alloc (bareElement "html")
    let d₂ := TreeBuilder.detachBody d₁ root body
    let d₃ := (miniNodeAppendChild d₂ (some root) (some d.size)).2
    Rooted d₃ root ∧ SameContent d₁ d₃ ∧ d₃.parentOf d.size = some root := by
  intro d₁ d₂ d₃
  obtain ⟨h₁, hparent₁⟩ := h.rooted.alloc (plain_bareElement "html").bare
  have hbodyType : ∀ b ∈ body, (d₁.node b).type ≠ .documentFragmentNode := fun b hb => by
    rw [NodeHeap.alloc_node, if_neg (Nat.ne_of_lt (h.body b hb).1)]
    exact (h.body b hb).2.2
  have h₂ : Rooted d₂ root ∧ SameContent d₁ d₂ := by
    cases body with
    | none => exact ⟨h₁, SameContent.refl _⟩
    | some b =>
      change Rooted (if (d₁.node b).parent = some root then _ else _) root ∧
        SameContent d₁ (if (d₁.node b).parent = some root then _ else _)
      split_ifs with hp
      · obtain ⟨hr, hs, -⟩ := h₁.remove (h.body b rfl).2.1 (hbodyType b rfl) hp
        exact ⟨hr, hs⟩
      · exact ⟨h₁, SameContent.refl _⟩
  obtain ⟨h₂, hsame₂⟩ := h₂
  have hne : d.size ≠ root := Ne.symm (Nat.ne_of_lt h.rooted.root_lt)
  obtain ⟨h₃, hsame₃, hparent₃⟩ := h₂.append (p := root) (c := d.size) h₂.root_lt
    (hsame₂.1 ▸ Nat.lt_succ_self _) hne
    (by
      rw [hsame₂.type, NodeHeap.alloc_node, if_pos rfl]
      exact (plain_bareElement "html").type)
    (fun hb => hne (Below.eq_of_root h₂.rootParent hb).symm)
  exact ⟨h₃, hsame₂.trans hsame₃, (hparent₃ d.size).trans (if_pos rfl)⟩

/-- The second half: the head, and then the body, under html. -/
theorem ensureHtml_html {d : NodeHeap} {root html : NodeId} {body : Option NodeId}
    (h : Rooted d root) (hhtml : d.parentOf html = some root)
    (hbody : ∀ b ∈ body, b < d.size ∧ b ≠ root ∧ b ≠ html ∧
      (d.node b).type ≠ .documentFragmentNode) :
    let d₁ := (miniNodeAppendChild (d.alloc (bareElement "head")) (some html) (some d.size)).2
    let r := TreeBuilder.bodyOrNew d₁ body
    let d₂ := (miniNodeAppendChild r.2 (some html) (some r.1)).2
    Rooted d₂ root ∧ d₂.parentOf html = some root ∧ d₂.parentOf d.size = some html ∧
      (d₂.node html).tag = (d.node html).tag := by
  intro d₁ r d₂
  have hlt := (h.wf.mirrors.allocated html root hhtml).1
  have hne : html ≠ d.size := Nat.ne_of_lt hlt
  obtain ⟨h₁, hsame₁, hparent₁⟩ := h.append_alloc (plain_bareElement "head") hlt
  have hsize₁ : d₁.size = d.size + 1 := hsame₁.1
  have hhtml₁ : d₁.parentOf html = some root := (hparent₁ html).trans ((if_neg hne).trans hhtml)
  have hhead₁ : d₁.parentOf d.size = some html := (hparent₁ d.size).trans (if_pos rfl)
  have htag₁ : (d₁.node html).tag = (d.node html).tag := by
    rw [hsame₁.tag, NodeHeap.alloc_node, if_neg hne]
  cases body with
  | none =>
    have hlt₁ : html < d₁.size := hsize₁ ▸ Nat.lt_succ_of_lt hlt
    obtain ⟨h₂, hsame₂, hparent₂⟩ := h₁.append_alloc (plain_bareElement "body") hlt₁
    have hne₂ : html ≠ d₁.size := Nat.ne_of_lt hlt₁
    have hhead₂ : d.size ≠ d₁.size := by
      rw [hsize₁]
      exact Nat.ne_of_lt (Nat.lt_succ_self _)
    refine ⟨h₂, (hparent₂ html).trans ((if_neg hne₂).trans hhtml₁),
      (hparent₂ d.size).trans ((if_neg hhead₂).trans hhead₁), ?_⟩
    rw [← htag₁]
    refine (hsame₂.tag html).trans ?_
    rw [NodeHeap.alloc_node, if_neg hne₂]
  | some b =>
    obtain ⟨hb, hbroot, hbhtml, hbtype⟩ := hbody b rfl
    obtain ⟨h₂, hsame₂, hparent₂⟩ := h₁.append (p := html) (c := b)
      (hsize₁ ▸ Nat.lt_succ_of_lt hlt) (hsize₁ ▸ Nat.lt_succ_of_lt hb) hbroot
      (by
        rw [hsame₁.type, NodeHeap.alloc_node, if_neg (Nat.ne_of_lt hb)]
        exact hbtype)
      (fun hbelow => hbroot (Below.eq_of_root h₁.rootParent
        (Below.of_parent_eq (Ne.symm hbhtml) hhtml₁ hbelow)).symm)
    refine ⟨h₂, (hparent₂ html).trans ((if_neg (Ne.symm hbhtml)).trans hhtml₁),
      (hparent₂ d.size).trans ((if_neg (Ne.symm (Nat.ne_of_lt hb))).trans hhead₁), ?_⟩
    exact (hsame₂.tag html).trans htag₁

theorem ensureHtml_skeleton {d : NodeHeap} {root : NodeId} {body : Option NodeId}
    (h : LiveDocument d root body) :
    Skeleton (TreeBuilder.ensureHtml { heap := d, root := root, body := body }) := by
  unfold TreeBuilder.ensureHtml
  split_ifs with hhtml
  · exact ⟨h.rooted, by simp, by simp, rfl, rfl⟩
  obtain ⟨h₃, hsame₃, hhtml₃⟩ := ensureHtml_root h
  have htag₃ := hsame₃.tag d.size
  rw [NodeHeap.alloc_node, if_pos rfl] at htag₃
  obtain ⟨h₅, hhtml₅, hhead₅, htag₅⟩ := @ensureHtml_html _ _ _ body h₃ hhtml₃ fun b hb => by
    obtain ⟨hlt, hne, htype⟩ := h.body b hb
    have hne' : b ≠ d.size := Nat.ne_of_lt hlt
    refine ⟨hsame₃.1 ▸ Nat.lt_succ_of_lt hlt, hne, hne', ?_⟩
    rw [hsame₃.type, NodeHeap.alloc_node, if_neg hne']
    exact htype
  refine ⟨h₅, fun x hx => ?_, fun x hx => ?_, rfl, rfl⟩
  · obtain rfl : x = d.size := List.mem_singleton.1 hx
    have htag : tagIs (bareElement "html").tag (ascii "html") = true := by decide
    exact ⟨hhtml₅, (congrArg (tagIs · (ascii "html")) (htag₅.trans htag₃)).trans htag⟩
  · obtain rfl := Option.some.inj hx
    exact ⟨d.size, hhead₅, hhtml₅⟩

namespace Skeleton

variable {s : TreeBuilder}

theorem pushHtml (h : Skeleton s) {html : NodeId} (hparent : s.heap.parentOf html = some s.root)
    (htag : tagIs (s.tag html) (ascii "html") = true) : Skeleton (s.openPush html) := by
  refine { h with stack := fun x hx => ?_ }
  rcases List.mem_cons.1 hx with rfl | hx
  · exact ⟨hparent, htag⟩
  · exact h.stack x hx

/-- Append a fresh body. -/
theorem appendBody (h : Skeleton s) {p : NodeId} (hp : p < s.heap.size) :
    Skeleton { s with heap :=
      (miniNodeAppendChild (s.heap.alloc (bareElement "body")) (some p) (some s.heap.size)).2 } ∧
    tagIs ((miniNodeAppendChild (s.heap.alloc (bareElement "body")) (some p)
      (some s.heap.size)).2.node s.heap.size).tag (ascii "body") = true ∧
    ∀ x, (miniNodeAppendChild (s.heap.alloc (bareElement "body")) (some p)
      (some s.heap.size)).2.parentOf x = if x = s.heap.size then some p else s.heap.parentOf x := by
  obtain ⟨hr, hsame, hparent⟩ := h.rooted.append_alloc (plain_bareElement "body") hp
  have hold : ∀ x q, s.heap.parentOf x = some q → x ≠ s.heap.size := fun x q hx =>
    Nat.ne_of_lt (h.rooted.wf.mirrors.allocated x q hx).1
  have hkeep : ∀ x q, s.heap.parentOf x = some q → (miniNodeAppendChild
      (s.heap.alloc (bareElement "body")) (some p) (some s.heap.size)).2.parentOf x = some q :=
    fun x q hx => (hparent x).trans ((if_neg (hold x q hx)).trans hx)
  have htag : ∀ x, x ≠ s.heap.size → ((miniNodeAppendChild (s.heap.alloc (bareElement "body"))
      (some p) (some s.heap.size)).2.node x).tag = s.tag x := fun x hx => by
    rw [hsame.tag, NodeHeap.alloc_node, if_neg hx]
    rfl
  refine ⟨⟨hr, fun x hx => ?_, fun x hx => ?_, h.afe, h.table⟩, ?_, hparent⟩
  · obtain ⟨hq, ht⟩ := h.stack x hx
    exact ⟨hkeep x _ hq, (congrArg (tagIs · (ascii "html")) (htag x (hold x _ hq))).trans ht⟩
  · obtain ⟨q, hq, hroot⟩ := h.head x hx
    exact ⟨q, hkeep x q hq, hkeep q _ hroot⟩
  · rw [hsame.tag, NodeHeap.alloc_node, if_pos rfl]
    decide

/-- A body under the root or under one of its children makes the state
complete. -/
theorem initial (h : Skeleton s) {body p : NodeId} (hparent : s.heap.parentOf body = some p)
    (hp : p = s.root ∨ s.heap.parentOf p = some s.root)
    (htag : tagIs (s.tag body) (ascii "body") = true) (hmode : s.mode = .inBody) :
    Initial ({ s with body := some body }.openPush body) := by
  have hchild : ∀ {x}, s.heap.parentOf x = some s.root → Inside s.heap s.root x := fun hx =>
    inside_of_parent h.rooted hx (.inl rfl)
  constructor
  case rooted => exact h.rooted
  case top => exact ⟨body, rfl, rfl⟩
  case stack =>
    intro x hx
    rcases List.mem_cons.1 hx with rfl | hx
    · exact inside_of_parent h.rooted hparent (hp.imp_right hchild)
    · exact hchild (h.stack x hx).1
  case tags =>
    intro x hx
    rcases List.mem_cons.1 hx with rfl | hx
    · exact .inr htag
    · exact .inl (h.stack x hx).2
  case head =>
    intro x hx
    obtain ⟨q, hq, hroot⟩ := h.head x hx
    exact inside_of_parent h.rooted hq (.inr (hchild hroot))
  case afe => exact h.afe
  case table => exact h.table
  case mode => exact hmode

end Skeleton

theorem mem_of_findRev? {l : List NodeId} {f : NodeId → Bool} {x : NodeId}
    (h : l.findRev? f = some x) : x ∈ l ∧ f x = true := by
  rw [List.findRev?_eq_findRev?TR] at h
  exact ⟨List.mem_reverse.1 (List.mem_of_find?_eq_some h), List.find?_some h⟩

theorem ensureHtml_root_eq (s : TreeBuilder) : s.ensureHtml.root = s.root := by
  unfold TreeBuilder.ensureHtml
  split_ifs <;> rfl

/-- `mini_html5_init` on a live document. -/
theorem miniHtml5Init_initial {d : NodeHeap} {root : NodeId} {body : Option NodeId}
    (h : LiveDocument d root body) : Initial (miniHtml5Init d root body).tree := by
  have hs := ensureHtml_skeleton h
  have hroot := ensureHtml_root_eq { heap := d, root := root, body := body }
  unfold miniHtml5Init
  generalize TreeBuilder.ensureHtml { heap := d, root := root, body := body } = s at hs hroot ⊢
  dsimp only at hroot ⊢
  subst hroot
  have hs' : Skeleton { s with mode := .inBody } := { hs with }
  have hmir := hs.rooted.wf.mirrors
  cases hhtml : (children s.heap s.root).findRev? fun c => tagIs (s.tag c) (ascii "html") with
  | none =>
    -- no html: a body right under the root
    obtain ⟨hb, htag, hparent⟩ := hs'.appendBody hs.rooted.root_lt
    exact hb.initial ((hparent _).trans (if_pos rfl)) (.inl rfl) htag rfl
  | some html =>
    obtain ⟨hmem, htag⟩ := mem_of_findRev? hhtml
    have hparent := hmir.parent _ _ hmem
    have hh := hs'.pushHtml hparent htag
    dsimp only [Option.bind_some]
    cases hbody : (children s.heap html).findRev? fun c => tagIs (s.tag c) (ascii "body") with
    | some b =>
      obtain ⟨hmemb, htagb⟩ := mem_of_findRev? hbody
      exact hh.initial (hmir.parent _ _ hmemb) (.inr hparent) htagb rfl
    | none =>
      obtain ⟨hb, htagb, hparentb⟩ := hh.appendBody (hmir.child_lt hmem)
      have hne : html ≠ s.heap.size := Nat.ne_of_lt (hmir.child_lt hmem)
      exact hb.initial ((hparentb _).trans (if_pos rfl))
        (.inr ((hparentb html).trans ((if_neg hne).trans hparent))) htagb rfl

/-- The document of `mini_doc_create`. -/
theorem miniDocCreate_live :
    LiveDocument miniDocCreate.1 miniDocCreate.2.1 (some miniDocCreate.2.2) := by
  let d : NodeHeap := (NodeHeap.empty.alloc (bareElement "#document")).modify 0 fun n =>
    { n with type := .documentNode }
  have hbare : ∀ x, (d.node x).bare = d.node x := by
    intro x
    change (if x = 0 then _ else _ : MiniNode).bare = if x = 0 then _ else _
    split_ifs with hx
    · subst hx
      rfl
    · rw [NodeHeap.alloc_node, if_neg (show x ≠ NodeHeap.empty.size from hx)]
      rfl
  have hd : Rooted d 0 := ⟨wellFormed_of_bare hbare, Nat.one_pos, rfl⟩
  obtain ⟨hr, hsame, -⟩ := hd.append_alloc (plain_bareElement "body") hd.root_lt
  refine ⟨hr, fun b hb => ?_⟩
  cases hb
  refine ⟨hsame.1 ▸ Nat.lt_succ_self _, Nat.one_ne_zero, ?_⟩
  rw [show miniDocCreate.1 = (miniNodeAppendChild (d.alloc (bareElement "body")) (some 0)
    (some d.size)).2 from rfl, hsame.type]
  exact (plain_bareElement "body").type

/-! ## The bases -/

/-- The parser's view of the document it was bound to: everything below the root
was there, and the stack may (or, in the strict reading, must) keep the elements
it starts with.  In the strict reading new nodes go under the body and the head
only. -/
def docBase (strict : Bool) (s : TreeBuilder) (h : Initial s) : DocBase where
  root := s.root
  live x := x < s.heap.size ∧ Below s.heap.parentOf x s.root
  site x := (x < s.heap.size ∧ Below s.heap.parentOf x s.root) ∧
    (strict = true → s.body = some x ∨ s.headElement = some x)
  base := s.stack
  first := s.heap.size
  strict := strict
  live_lt x hx := hx.1
  site_live x hx := hx.1
  root_live := ⟨h.rooted.root_lt, Below.refl _⟩
  base_live x hx := ⟨(h.stack x hx).1, (h.stack x hx).2.2⟩
  strict_site _ := by
    obtain ⟨b, hb, htop⟩ := h.top
    have hmem : b ∈ s.stack := List.mem_of_mem_head? htop
    exact ⟨b, htop, ⟨(h.stack b hmem).1, (h.stack b hmem).2.2⟩, fun _ => .inl hb⟩
  lenient_site hs x hx := ⟨hx, fun hs' => by rw [hs] at hs'; cases hs'⟩

/-- The invariant holds after `mini_html5_init`. -/
theorem Initial.treeInv {s : TreeBuilder} (h : Initial s) (strict : Bool) :
    TreeInv (docBase strict s h) s := by
  constructor
  case heap =>
    constructor
    case wf => exact h.rooted.wf
    case first => exact Nat.le_refl _
    case rootParent => exact h.rooted.rootParent
    case reach =>
      exact fun x hx hmem => hmem.elim (fun hown => absurd hx (Nat.not_lt.2 hown)) fun hl => hl.2
    case ownType => exact fun x hown hx => absurd hx (Nat.not_lt.2 hown)
    case ownKids =>
      exact fun x p hp hown => absurd (h.rooted.wf.mirrors.allocated x p hp).2 (Nat.not_lt.2 hown)
    case placed => exact fun x hown hx => absurd hx (Nat.not_lt.2 hown)
  case root => rfl
  case stack => exact ⟨[], s.stack, rfl, List.nodup_nil, by simp, List.suffix_rfl, fun _ => rfl⟩
  case baseTags => exact fun _ x hx => h.tags x hx
  case afe => simp [h.afe]
  case head =>
    exact fun x hx => ⟨⟨(h.head x hx).1, (h.head x hx).2.2⟩, fun _ => .inr hx⟩
  case table => simp [h.table]
  case mode => rw [h.mode]; rfl

end TinyFramework.Html5
