/-
  Html5/OpenStack.lean --- the stack of open elements.

  In the strict reading of the invariant the stack is the parser's own nodes over
  the elements that `mini_html5_init` pushed.  So as long as the pop loop of
  `in_body_end` finds its element and the adoption agency makes no cycle, the
  current node is never the document root and everything the parser makes is in
  the body or in the head.

  `close_p_if_open` generates implied end tags before it looks for an open paragraph, so it may
  close list items, options and table parts that stand on top of the stack.
-/
import TinyFramework.Foundation.Scope
import TinyFramework.Html5.Document

set_option autoImplicit false

namespace TinyFramework.Html5

open TinyFramework.Foundation TinyFramework.Dom

/-- What the open stack promises in a state `s` that is reached from `s₀`, the
state after `mini_html5_init`: the elements pushed by `mini_html5_init` are still
open, below all others; the current node is not the document root; and every node
made since is inside the body or inside the head. -/
structure StaysOpen (s₀ s : TreeBuilder) : Prop where
  stack : s₀.stack <:+ s.stack
  current : s.currentNode ≠ s.root
  inside : ∀ x, s₀.heap.size ≤ x → x < s.heap.size →
    ∃ c, (s₀.body = some c ∨ s₀.headElement = some c) ∧ Below s.heap.parentOf x c

/-- Going up from one of the parser's own nodes one meets a site. -/
theorem HeapInv.exists_site {b : DocBase} {d : NodeHeap} (h : HeapInv b d) {x : NodeId}
    (hown : b.first ≤ x) (hx : x < d.size) : ∃ c, b.site c ∧ Below d.parentOf x c := by
  -- induction along the path to the root, which is not the parser's own
  have hpath : ∀ y, Below d.parentOf y b.root → b.first ≤ y → y < d.size →
      ∃ c, b.site c ∧ Below d.parentOf y c := by
    intro y hy
    induction hy using Relation.ReflTransGen.head_induction_on with
    | refl => exact fun hroot _ => absurd b.root_lt (Nat.not_lt.2 hroot)
    | @head y q hq _ ih =>
      intro hyown hylt
      obtain ⟨p, hp, hsite⟩ := h.placed y hyown hylt
      obtain rfl : p = q := Option.some.inj (hp.symm.trans hq)
      rcases hsite with hpown | hsite
      · obtain ⟨c, hc, hbelow⟩ := ih hpown (h.mirrors.allocated y p hp).2
        exact ⟨c, hc, Below.head hp hbelow⟩
      · exact ⟨p, hsite, Below.of_parent hp⟩
  exact hpath x (h.reach x hx (.inl hown)) hown hx

/-- The strict invariant is what the open stack promises. -/
theorem Initial.staysOpen {s₀ s : TreeBuilder} (h₀ : Initial s₀)
    (h : TreeInv (docBase true s₀ h₀) s) : StaysOpen s₀ s := by
  obtain ⟨own, old, heq, -, hown, -, hstrict⟩ := h.stack
  obtain rfl : old = s₀.stack := hstrict rfl
  have hroot : s.root = s₀.root := h.root
  constructor
  case stack => exact heq ▸ List.suffix_append own s₀.stack
  case current =>
    unfold TreeBuilder.currentNode
    rw [heq, hroot]
    cases own with
    | cons x own =>
      have hx := (hown x List.mem_cons_self).1
      exact Ne.symm (Nat.ne_of_lt (Nat.lt_of_lt_of_le h₀.rooted.root_lt hx))
    | nil =>
      obtain ⟨b, -, htop⟩ := h₀.top
      rw [List.nil_append, htop]
      exact (h₀.stack b (List.mem_of_mem_head? htop)).2.1
  case inside =>
    intro x hfirst hx
    obtain ⟨c, hc, hbelow⟩ := h.heap.exists_site hfirst hx
    exact ⟨c, hc.2 rfl, hbelow⟩

/-- Along every sequence of safe tokens after `mini_html5_init` on a live
document, html and body stay open in every state. -/
theorem staysOpen_of_safeTokens {d : NodeHeap} {root : NodeId} {body : Option NodeId}
    (hdoc : LiveDocument d root body) {tokens : List H5Token}
    (hsafe : SafeTokens true (miniHtml5Init d root body).tree tokens) {pre : List H5Token}
    (hpre : pre <+: tokens) :
    StaysOpen (miniHtml5Init d root body).tree
      (tokenRun (miniHtml5Init d root body).tree pre) := by
  obtain ⟨post, rfl⟩ := hpre
  have h₀ := miniHtml5Init_initial hdoc
  exact h₀.staysOpen ((h₀.treeInv true).tokenRun (SafeTokens.append_iff.1 hsafe).1).inv

/-- A paragraph with text in it, and an unclosed list item. -/
def paragraphTokens : List H5Token :=
  [{ name := ascii "p" }, { type := .char, name := ascii "x" },
    { type := .endTag, name := ascii "p" }, { name := ascii "li" }]

theorem staysOpen_of_safeTokens_paragraph :
    StaysOpen freshParser.tree (tokenRun freshParser.tree paragraphTokens) := by
  have hsafe : SafeTokens true freshParser.tree paragraphTokens := by decide
  exact staysOpen_of_safeTokens miniDocCreate_live hsafe List.prefix_rfl

/-- `<option></option>`: `gen_implied_end` pops the option, and the loop that
should stop at it pops body and html too. -/
theorem option_end_empties_stack :
    ¬ StaysOpen freshParser.tree (tokenRun freshParser.tree
      [{ name := ascii "option" }, { type := .endTag, name := ascii "option" }]) := by
  intro h
  refine h.current ?_
  decide

/-! ## What a block-level start tag closes in the body -/

namespace TreeBuilder

variable (s : TreeBuilder)

/-- A paragraph. -/
def isParagraph (n : NodeId) : Bool := tagIs (s.tag n) (ascii "p")

/-- The search for a paragraph ends here. -/
def isScopeBound (n : NodeId) : Bool := defaultScopeTags.any fun b => tagIs (s.tag n) b

/-- The open elements after the nearest paragraph in scope was closed, if there is one. -/
def withoutParagraph : List NodeId :=
  if s.hasInScope (ascii "p") false then (s.stack.dropWhile fun n => !s.isParagraph n).tail
  else s.stack

theorem hasInScope_eq (l : List NodeId) :
    hasInScope.loop s (ascii "p") defaultScopeTags l = inScope s.isParagraph s.isScopeBound l := by
  induction l with
  | nil => rfl
  | cons n l ih =>
    rw [hasInScope.loop, inScope, ih]
    rfl

theorem withoutParagraph_eq :
    s.withoutParagraph = closeHit s.isParagraph s.isScopeBound s.stack := by
  rw [withoutParagraph, hasInScope, if_neg Bool.false_ne_true, hasInScope_eq]
  rfl

theorem closePIfOpen_stack : s.closePIfOpen.stack =
    closeSkipping (s.impliedEnd none) s.isParagraph s.isScopeBound s.stack := by
  have hloop : (s.genImpliedEnd none).hasInScope (ascii "p") false =
      inScope s.isParagraph s.isScopeBound (s.stack.dropWhile (s.impliedEnd none)) :=
    (s.genImpliedEnd none).hasInScope_eq _
  rw [closePIfOpen, hloop, closeSkipping, closeHit]
  split_ifs with hscope
  · obtain ⟨above, x, below, hsplit, hx, -⟩ := exists_split_of_inScope hscope
    have hany : (s.genImpliedEnd none).stack.any
        (fun n => tagIs ((s.genImpliedEnd none).tag n) (ascii "p")) = true := by
      have hmem : x ∈ s.stack.dropWhile (s.impliedEnd none) := by
        rw [hsplit]
        exact List.mem_append_right above List.mem_cons_self
      exact List.any_eq_true.2 ⟨x, hmem, hx⟩
    rw [popUntil, if_pos hany]
    rfl
  · rfl

/-- A paragraph is an element with an implied end. -/
theorem impliedEnd_of_isParagraph {n : NodeId} (h : s.isParagraph n = true) :
    s.impliedEnd none n = true := by
  obtain ⟨t, ht, hp⟩ := Option.any_eq_true _ _ |>.1 h
  have himplied : isImpliedEnd t = true := by
    rw [isImpliedEnd, List.any_eq_true]
    exact ⟨ascii "p", by decide, hp⟩
  rw [impliedEnd, ht]
  simpa using himplied

end TreeBuilder

/-- No start tag of the set is one of those that are treated in another way. -/
theorem tagIn_of_h5ClosesP {t : Bytes} (h : h5ClosesP t = true) :
    TreeBuilder.tagIn t ["html", "head", "base", "basefont", "bgsound", "link", "meta", "title",
      "style", "script", "body", "li", "dd", "dt"] = false := by
  obtain ⟨c, hc, htag⟩ := List.any_eq_true.1 h
  have hsame : ∀ names, TreeBuilder.tagIn t names = TreeBuilder.tagIn c names := fun names => by
    unfold TreeBuilder.tagIn h5Ci
    rw [beq_iff_eq.1 htag]
  have hother : ∀ c ∈ closesPTags, TreeBuilder.tagIn c ["html", "head", "base", "basefont",
      "bgsound", "link", "meta", "title", "style", "script", "body", "li", "dd", "dt"] = false := by
    decide
  rw [hsame, hother c hc]

/-- A start tag closes only paragraphs: what stays open before its element is inserted is what was
open, cut below the nearest paragraph if one is in scope. -/
def ClosesParagraphsOnly (s : TreeBuilder) (t : H5Token) : Prop :=
  s.processToken t = (s.closeForStart t.name).insertInBody t ∧
    (s.closeForStart t.name).stack = s.withoutParagraph

/-- Nothing else is closed: something above the nearest paragraph in scope has no implied end, or
below it nothing on top has one and no further paragraph is in scope; and where no paragraph is in
scope, nothing on top has an implied end. -/
def TreeBuilder.NothingImplied (s : TreeBuilder) : Prop :=
  SkipsNothing (s.impliedEnd none) s.isParagraph s.isScopeBound s.stack

/-- A block-level start tag in the body closes only paragraphs exactly then. -/
theorem closesParagraphsOnly_iff {s : TreeBuilder} {t : H5Token} (hmode : s.mode = .inBody)
    (hstart : t.type = .start) (hname : h5ClosesP t.name = true) :
    ClosesParagraphsOnly s t ↔ s.NothingImplied := by
  have hother := tagIn_of_h5ClosesP hname
  simp only [TreeBuilder.tagIn, List.any_cons, List.any_nil, Bool.or_eq_false_iff] at hother
  obtain ⟨hhtml, hhead, hbase, hbasefont, hbgsound, hlink, hmeta, htitle, hstyle, hscript, hbody,
    hli, hdd, hdt, -⟩ := hother
  have hclose : s.closeForStart t.name = s.closePIfOpen := by
    simp [TreeBuilder.closeForStart, TreeBuilder.tagIn, hname, hli, hdd, hdt]
  have hprocess : s.processToken t = (s.closeForStart t.name).insertInBody t := by
    simp [TreeBuilder.processToken, hmode, TreeBuilder.processInBody, hstart,
      TreeBuilder.inBodyStart, TreeBuilder.tagIn, hhtml, hhead, hbase, hbasefont, hbgsound, hlink,
      hmeta, htitle, hstyle, hscript, hbody]
  have hskip : ∀ n, s.isParagraph n = true → s.impliedEnd none n = true := fun n =>
    s.impliedEnd_of_isParagraph
  rw [ClosesParagraphsOnly, and_iff_right hprocess, hclose, s.closePIfOpen_stack,
    s.withoutParagraph_eq]
  exact closeSkipping_eq_closeHit_iff hskip

/-- The state behind `<ul><li>`. -/
def listItemOpened : TreeBuilder :=
  (freshParser.tree.processToken { name := ascii "ul" }).processToken { name := ascii "li" }

theorem closesParagraphsOnly_iff_section :
    ClosesParagraphsOnly (freshParser.tree.processToken { name := ascii "ul" })
        { name := ascii "section" } ↔
      (freshParser.tree.processToken { name := ascii "ul" }).NothingImplied :=
  closesParagraphsOnly_iff (by decide) rfl (by decide)

/-- `<ul><li><div>`: the list item is closed, though no paragraph is open. -/
theorem div_closes_listItem : ¬ ClosesParagraphsOnly listItemOpened { name := ascii "div" } := by
  rintro ⟨-, hstack⟩
  revert hstack
  decide

end TinyFramework.Html5
