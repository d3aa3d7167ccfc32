/-
  Js/TextContent.lean --- the text content of nodes and the value of a textarea.

  The getter collects the data of the text nodes in a buffer of 4096 bytes and does not
  go on below a text node; the setter leaves one text node, with the C string of what is
  assigned, and applies the text of a `style` element.  What `mini_css_apply` then does to the
  nodes is a parameter: it may generate content, also in the element.

  Scripts read and write it as `textContent`, so in text nodes below the element.  The
  native editor keeps its text in the element itself, where the getter does not look.
-/
import TinyFramework.Dom.Content
import TinyFramework.Dom.DocumentOrder
import TinyFramework.Events.TextEditor
import TinyFramework.Js.CStrings

set_option autoImplicit false

namespace TinyFramework.Js

open TinyFramework.Foundation TinyFramework.Dom TinyFramework.Events

/-! ## The getter and the setter -/

/-- `n->type == MN_TEXT_NODE && n->text`, and the text. -/
def ownText (m : MiniNode) : Option Bytes := if m.type = .textNode then m.text else none

/-- The loop that copies a text as long as `*o + 1 < cap`. -/
def copyText (cap : Nat) (buf t : Bytes) : Bytes := buf ++ t.take (cap - 1 - buf.length)

/-- `concat_text`; the bound is on the depth of the recursion. -/
def concatText (d : NodeHeap) (cap : Nat) : Nat → NodeId → Bytes → Bytes
  | 0, _, buf => buf
  | fuel + 1, n, buf =>
      match ownText (d.node n) with
      | some t => copyText cap buf t
      | none => (children d n).foldl (fun buf c => concatText d cap fuel c buf) buf

/-- The bytes that `js_getText` makes a string of. -/
def textBuffer (d : NodeHeap) (n : NodeId) : Bytes := concatText d 4096 d.size n []

/-- `js_getText` -/
def jsGetText (d : NodeHeap) (n : NodeId) : JsString := newStringLen (textBuffer d n)

/-- `while (n->first_child) mini_node_remove_child(n, n->first_child);` -/
def removeChildren : Nat → NodeHeap → NodeId → NodeHeap
  | 0, d, _ => d
  | fuel + 1, d, n =>
      match (d.node n).firstChild with
      | none => d
      | some c => removeChildren fuel (miniNodeRemoveChild d (some n) (some c)).2 n

/-- The text of what an assignment stores. -/
def assigned (t : JsString) : Bytes := cString (toCString t)

/-- What `js_setText` does first: it drops all children and appends one text node. -/
def setOnlyText (d : NodeHeap) (n : NodeId) (t : JsString) : NodeHeap :=
  let d := removeChildren d.size d n
  let (x, d) := miniNodeCreateText d (some (assigned t))
  (miniNodeAppendChild d (some n) (some x)).2

/-- `js_setText`; `cssApply` is `mini_css_apply`. -/
def jsSetText (cssApply : NodeHeap → Bytes → NodeHeap) (d : NodeHeap) (n : NodeId) (t : JsString) :
    NodeHeap :=
  let d := setOnlyText d n t
  if (d.node n).tag = some (ascii "style") then cssApply d (assigned t) else d

/-! ## What the getter collects -/

section Getter

variable {d : NodeHeap} {n : NodeId}

/-- The data of a text node. -/
def textData (d : NodeHeap) (n : NodeId) : Bytes := (ownText (d.node n)).getD []

/-- The data of the text nodes of a tree, in document order. -/
def textOf (d : NodeHeap) (n : NodeId) : Bytes := (documentOrder d n).flatMap (textData d)

/-- Where the getter goes on. -/
def collected (d : NodeHeap) (n : NodeId) : List NodeId :=
  if (ownText (d.node n)).isSome then [] else children d n

/-- The data that the getter comes to. -/
def collectedText (d : NodeHeap) (n : NodeId) : Bytes :=
  (walk (collected d) d.size n).flatMap (textData d)

theorem copyText_eq {cap : Nat} {buf t : Bytes} (h : buf.length ≤ cap - 1) :
    copyText cap buf t = (buf ++ t).take (cap - 1) := by
  rw [copyText, List.take_append, List.take_of_length_le h]

theorem foldl_copyText {cap : Nat} (l : List NodeId) {buf : Bytes} (h : buf.length ≤ cap - 1) :
    l.foldl (fun buf x => copyText cap buf (textData d x)) buf =
      (buf ++ l.flatMap (textData d)).take (cap - 1) := by
  induction l generalizing buf with
  | nil => rw [List.flatMap_nil, List.append_nil, List.take_of_length_le h, List.foldl_nil]
  | cons x l ih =>
    have hcut : ∀ u v : Bytes,
        (u.take (cap - 1) ++ v).take (cap - 1) = (u ++ v).take (cap - 1) := by
      intro u v
      have hroom : cap - 1 - min (cap - 1) u.length = cap - 1 - u.length := by omega
      rw [List.take_append, List.take_append, List.take_take, Nat.min_self, List.length_take, hroom]
    rw [List.foldl_cons, copyText_eq h, ih (List.length_take_le _ _), hcut, List.flatMap_cons,
      List.append_assoc]

/-- The recursion visits the nodes that it collects. -/
theorem concatText_eq (d : NodeHeap) (cap fuel : Nat) (n : NodeId) (buf : Bytes) :
    concatText d cap fuel n buf =
      descend (collected d) (fun buf x => copyText cap buf (textData d x)) fuel n buf := by
  induction fuel generalizing n buf with
  | zero => rfl
  | succ fuel ih =>
    rw [concatText, descend, collected, textData]
    cases hown : ownText (d.node n) with
    | some t => rfl
    | none =>
      have hcopy : copyText cap buf ((none : Option Bytes).getD []) = buf := by
        simp [copyText]
      simp only [ih, hcopy]
      rfl

theorem textBuffer_eq (d : NodeHeap) (n : NodeId) :
    textBuffer d n = (collectedText d n).take 4095 := by
  rw [textBuffer, concatText_eq, descend_eq, foldl_copyText _ (Nat.zero_le _)]
  rfl

/-- `c` is a child of `p`. -/
def IsChild (d : NodeHeap) (p c : NodeId) : Prop := c ∈ children d p

/-- No data stands below a text node. -/
def TextAtLeaves (d : NodeHeap) (n : NodeId) : Prop :=
  ∀ x, Relation.ReflTransGen (IsChild d) n x → (ownText (d.node x)).isSome = true →
    ∀ y, Relation.TransGen (IsChild d) x y → textData d y = []

theorem goesDown_collected (h : WellFormed d) : GoesDown d.parentOf (collected d) := by
  intro x c hc
  unfold collected at hc
  split_ifs at hc
  · cases hc
  · exact h.goesDown x c hc

/-- A walk of the heap is what its first node is, and the walks from the nodes it names. -/
theorem walk_size (h : WellFormed d) (hn : n < d.size) {next : NodeId → List NodeId}
    (hdown : GoesDown d.parentOf next) :
    walk next d.size n = n :: (next n).flatMap (walk next d.size) := by
  have hroom : ∀ y, Below d.parentOf y n → y ∈ Finset.range d.size := fun y hy =>
    Finset.mem_range.2 (h.lt_of_below hn hy)
  rw [← h.acyclic.walk_stable hdown hroom (Nat.le_of_eq (Finset.card_range _))]
  rfl

theorem textOf_eq (h : WellFormed d) (hn : n < d.size) :
    textOf d n = textData d n ++ (children d n).flatMap (textOf d) := by
  rw [textOf, documentOrder, walk_size h hn h.goesDown, List.flatMap_cons, List.flatMap_assoc]
  rfl

theorem collectedText_eq (h : WellFormed d) (hn : n < d.size) :
    collectedText d n = textData d n ++ (collected d n).flatMap (collectedText d) := by
  rw [collectedText, walk_size h hn (goesDown_collected h), List.flatMap_cons, List.flatMap_assoc]
  rfl

/-- What holds of a node when it holds of its children holds of every node. -/
theorem children_induction (h : WellFormed d) {P : NodeId → Prop}
    (hstep : ∀ x, x < d.size → (∀ c ∈ children d x, P c) → P x) (hn : n < d.size) : P n := by
  have hall : ∀ x, (∀ c ∈ children d x, c < d.size → P c) → x < d.size → P x := fun x hx hlt =>
    hstep x hlt fun c hc => hx c hc (h.mirrors.child_lt hc)
  refine h.acyclic.down_induction h.goesDown (P := fun x => x < d.size → P x) hall
    (A := Finset.range d.size) (fun y hy => ?_) hn
  exact Finset.mem_range.2 (h.lt_of_below hn hy)

theorem textOf_eq_nil_iff (h : WellFormed d) (hn : n < d.size) :
    textOf d n = [] ↔ ∀ y, Relation.ReflTransGen (IsChild d) n y → textData d y = [] := by
  refine children_induction h (P := fun x => textOf d x = [] ↔
    ∀ y, Relation.ReflTransGen (IsChild d) x y → textData d y = []) (fun x hx ih => ?_) hn
  rw [textOf_eq h hx, List.append_eq_nil_iff, List.flatMap_eq_nil_iff]
  constructor
  · rintro ⟨hown, hkids⟩ y hy
    rcases Relation.ReflTransGen.cases_head_iff.1 hy with rfl | ⟨c, hc, hcy⟩
    · exact hown
    · exact (ih c hc).1 (hkids c hc) y hcy
  · intro hall
    exact ⟨hall x .refl, fun c hc => (ih c hc).2 fun y hy => hall y (hy.head hc)⟩

/-- Texts that are joined part by part, where no part is longer in the first. -/
theorem flatMap_eq_flatMap_iff {f g : NodeId → Bytes} {l : List NodeId}
    (h : ∀ c ∈ l, (f c).length ≤ (g c).length) :
    (l.flatMap f).length ≤ (l.flatMap g).length ∧
      (l.flatMap f = l.flatMap g ↔ ∀ c ∈ l, f c = g c) := by
  induction l with
  | nil => exact ⟨Nat.le_refl _, iff_of_true rfl nofun⟩
  | cons c l ih =>
    obtain ⟨hlen, hiff⟩ := ih fun x hx => h x (List.mem_cons_of_mem c hx)
    have hc := h c List.mem_cons_self
    simp only [List.flatMap_cons, List.length_append, List.forall_mem_cons]
    refine ⟨Nat.add_le_add hc hlen, fun heq => ?_, fun ⟨hhead, hrest⟩ => ?_⟩
    · have hsum := congrArg List.length heq
      simp only [List.length_append] at hsum
      obtain ⟨hhead, hrest⟩ := List.append_inj heq (by omega)
      exact ⟨hhead, hiff.1 hrest⟩
    · rw [hhead, hiff.2 hrest]

theorem collected_of_none (hown : (ownText (d.node n)).isSome = false) :
    collected d n = children d n := by
  rw [collected, hown]
  rfl

theorem length_collectedText_le (h : WellFormed d) (hn : n < d.size) :
    (collectedText d n).length ≤ (textOf d n).length := by
  refine children_induction h
    (P := fun x => (collectedText d x).length ≤ (textOf d x).length) (fun x hx ih => ?_) hn
  rw [textOf_eq h hx, collectedText_eq h hx, List.length_append, List.length_append]
  refine Nat.add_le_add_left ?_ _
  cases hown : (ownText (d.node x)).isSome with
  | true =>
    rw [collected, hown, if_pos rfl]
    exact Nat.zero_le _
  | false =>
    rw [collected_of_none hown]
    exact (flatMap_eq_flatMap_iff ih).1

theorem textAtLeaves_iff (hown : (ownText (d.node n)).isSome = false) :
    TextAtLeaves d n ↔ ∀ c ∈ children d n, TextAtLeaves d c := by
  constructor
  · intro h c hc x hx
    exact h x (hx.head hc)
  · intro h x hx hx'
    rcases Relation.ReflTransGen.cases_head_iff.1 hx with rfl | ⟨c, hc, hcx⟩
    · rw [hown] at hx'
      cases hx'
    · exact h c hc x hcx hx'

/-- The getter comes to all data when none stands below a text node. -/
theorem collectedText_eq_iff (h : WellFormed d) (hn : n < d.size) :
    collectedText d n = textOf d n ↔ TextAtLeaves d n := by
  refine children_induction h
    (P := fun x => collectedText d x = textOf d x ↔ TextAtLeaves d x) (fun x hx ih => ?_) hn
  rw [textOf_eq h hx, collectedText_eq h hx, List.append_cancel_left_eq]
  cases hown : (ownText (d.node x)).isSome with
  | true =>
    rw [collected, hown, if_pos rfl, List.flatMap_nil, eq_comm, List.flatMap_eq_nil_iff]
    constructor
    · intro hkids y hy _ z hz
      obtain ⟨c, hc, hcz⟩ := Relation.TransGen.head'_iff.1 (hz.trans_right hy)
      exact (textOf_eq_nil_iff h (h.mirrors.child_lt hc)).1 (hkids c hc) z hcz
    · intro hleaves c hc
      refine (textOf_eq_nil_iff h (h.mirrors.child_lt hc)).2 fun y hy => ?_
      exact hleaves x .refl hown y (Relation.TransGen.head'_iff.2 ⟨c, hc, hy⟩)
  | false =>
    have hlen : ∀ c ∈ children d x, (collectedText d c).length ≤ (textOf d c).length :=
      fun c hc => length_collectedText_le h (h.mirrors.child_lt hc)
    rw [collected_of_none hown, (flatMap_eq_flatMap_iff hlen).2, textAtLeaves_iff hown]
    exact forall₂_congr ih

/-- The getter returns the data of all text nodes when these fit into its buffer and no data
stands below a text node. -/
theorem textBuffer_eq_iff (h : WellFormed d) (hn : n < d.size) :
    textBuffer d n = textOf d n ↔ (textOf d n).length ≤ 4095 ∧ TextAtLeaves d n := by
  have hle := length_collectedText_le h hn
  rw [textBuffer_eq, ← collectedText_eq_iff h hn]
  constructor
  · intro heq
    have hlen := congrArg List.length heq
    rw [List.length_take] at hlen
    rw [List.take_of_length_le (by omega)] at heq
    exact ⟨by omega, heq⟩
  · rintro ⟨hshort, heq⟩
    rw [List.take_of_length_le (by omega), heq]

end Getter

/-! ## What the setter leaves -/

section Setter

variable {d : NodeHeap} {n : NodeId}

/-- A `style` element, when it is applied, does not change what the getter reads of it: no content is
generated in it. -/
def LeavesText (cssApply : NodeHeap → Bytes → NodeHeap) (d : NodeHeap) (n : NodeId) (t : JsString) :
    Prop :=
  (d.node n).tag = some (ascii "style") →
    textBuffer (cssApply (setOnlyText d n t) (assigned t)) n = textBuffer (setOnlyText d n t) n

/-- The string is read back of the text node that an assignment leaves. -/
def ReadsBack (t : JsString) : Prop :=
  0 ∉ t ∧ ((toCString t).length ≤ 4095 ∨
    ∃ s i, (i = 1 ∨ i = 2) ∧ t = s ++ List.replicate i 0xFFFD ∧ (toCString s).length + i = 4095)

/-- A child is taken out of the list of its parent. -/
theorem remove_listed (h : WellFormed d) {c : NodeId} (hc : c ∈ children d n) :
    WellFormed (miniNodeRemoveChild d (some n) (some c)).2 ∧
      children (miniNodeRemoveChild d (some n) (some c)).2 = dropKid (children d) c ∧
      ∀ s, ((miniNodeRemoveChild d (some n) (some c)).2.node s).parent =
        if s = c then none else (d.node s).parent := by
  have hparent : (d.node c).parent = some n := h.mirrors.parent n c hc
  have hrem := h.mirrors.removable_of_listed hc
  have hrun : (miniNodeRemoveChild d (some n) (some c)).2 = unlink d n c := by
    rw [miniNodeRemoveChild, if_neg (not_not.2 hparent)]
  have hexisting : (DomCall.removeChild (some n) (some c)).Existing d := by
    simp [DomCall.Existing, DomCall.args, h.mirrors.child_lt hc, h.mirrors.parent_lt hc]
  have hsafe : callSafe d (.removeChild (some n) (some c)) = true := by
    simp [callSafe, WellFormed.removable_iff.2 hrem]
  refine ⟨h.exec hexisting hsafe, ?_, fun s => ?_⟩
  · rw [hrun, (h.mirrors.unlink hparent hrem).children_eq]
  · rw [hrun, (unlink_node d n c s).1]

theorem removeChildren_spec (fuel : Nat) (h : WellFormed d) (hlen : (children d n).length ≤ fuel) :
    WellFormed (removeChildren fuel d n) ∧
      children (removeChildren fuel d n) = Function.update (children d) n [] ∧
      SameContent d (removeChildren fuel d n) ∧
      ∀ s q, (removeChildren fuel d n).parentOf s = some q → d.parentOf s = some q := by
  induction fuel generalizing d with
  | zero =>
    have hnil := List.length_eq_zero_iff.1 (Nat.le_zero.1 hlen)
    exact ⟨h, hnil ▸ (Function.update_eq_self n (children d)).symm, .refl d, fun _ _ hs => hs⟩
  | succ fuel ih =>
    rw [removeChildren, h.mirrors.first]
    cases hk : children d n with
    | nil =>
      have hsame := Function.update_eq_self n (children d)
      rw [hk] at hsame
      exact ⟨h, hsame.symm, .refl d, fun _ _ hs => hs⟩
    | cons c r =>
      obtain ⟨hwf, hkids, hparent⟩ := remove_listed h (hk ▸ List.mem_cons_self)
      rw [h.mirrors.dropKid_eq_update (l := []) hk] at hkids
      have hshort : r.length ≤ fuel := by
        rw [hk] at hlen
        exact Nat.le_of_succ_le_succ hlen
      obtain ⟨hwf', hkids', hsame, hup⟩ :=
        ih hwf (by rw [hkids, Function.update_self]; exact hshort)
      rw [hkids, Function.update_idem] at hkids'
      refine ⟨hwf', hkids', (SameContent.removeChild d _ _).trans hsame, fun s q hs => ?_⟩
      have hs' := hup s q hs
      rw [NodeHeap.parentOf, hparent] at hs'
      split_ifs at hs'
      exact hs'

/-- `d'` is `d` with a fresh text node for the only child of `n`. -/
structure HoldsText (d d' : NodeHeap) (n : NodeId) (u : Bytes) : Prop where
  wellFormed : WellFormed d'
  size : d'.size = d.size + 1
  children : children d' n = [d.size]
  fresh : ownText (d'.node d.size) = some u
  bare : ∀ x < d.size, (d'.node x).bare = (d.node x).bare

theorem setOnlyText_holds (h : WellFormed d) (hn : n < d.size) (t : JsString) :
    HoldsText d (setOnlyText d n t) n (assigned t) := by
  obtain ⟨hwf, hkept, hsame, -⟩ := removeChildren_spec d.size h (h.mirrors.length_le n)
  have hnil : children (removeChildren d.size d n) n = [] := by
    rw [hkept, Function.update_self]
  have hsize : (removeChildren d.size d n).size = d.size := hsame.1
  have hang : HangsFresh (removeChildren d.size d n) (setOnlyText d n t)
      { type := .textNode, text := some (assigned t) } n
      (children (removeChildren d.size d n) n ++ [(removeChildren d.size d n).size]) :=
    hwf.append_fresh rfl (by simp) (hsize.symm ▸ hn)
  have hsize' := hang.size
  have hkids := congrFun hang.children n
  have hbare := hang.bare
  rw [hnil, Function.update_self, hsize] at hkids
  rw [hsize] at hsize' hbare
  refine ⟨hang.wellFormed, hsize', hkids, ?_, fun x hx => ?_⟩
  · have hfresh := hbare d.size
    rw [if_pos rfl] at hfresh
    exact field_of_bare ownText hfresh fun _ => rfl
  · rw [hbare, if_neg (Nat.ne_of_lt hx), hsame.2]

namespace HoldsText

variable {d' : NodeHeap} {u : Bytes}

theorem ownText_eq (h : HoldsText d d' n u) {x : NodeId} (hx : x < d.size) :
    ownText (d'.node x) = ownText (d.node x) := field_of_bare ownText (h.bare x hx) fun _ => rfl

/-- What the getter reads then. -/
theorem textBuffer_eq (h : HoldsText d d' n u) (hn : n < d.size) :
    textBuffer d' n = ((ownText (d.node n)).getD u).take 4095 := by
  have hn' : n < d'.size := h.size ▸ Nat.lt_succ_of_lt hn
  have hfresh : d.size < d'.size := h.size ▸ Nat.lt_succ_self _
  have hleaf : collectedText d' d.size = u := by
    rw [collectedText_eq h.wellFormed hfresh, textData, collected, h.fresh]
    exact List.append_nil u
  rw [Js.textBuffer_eq, collectedText_eq h.wellFormed hn', textData, collected, h.ownText_eq hn]
  cases ownText (d.node n) with
  | some v => exact congrArg (List.take 4095) (List.append_nil v)
  | none =>
    refine congrArg (List.take 4095) ?_
    rw [h.children]
    show [d.size].flatMap (collectedText d') = u
    rw [List.flatMap_singleton, hleaf]

theorem length_le_textOf (h : HoldsText d d' n u) (hn : n < d.size) :
    u.length ≤ (textOf d' n).length := by
  have hn' : n < d'.size := h.size ▸ Nat.lt_succ_of_lt hn
  have hfresh : d.size < d'.size := h.size ▸ Nat.lt_succ_self _
  have hdata : textData d' d.size = u := by
    rw [textData, h.fresh]
    rfl
  rw [textOf_eq h.wellFormed hn', h.children, List.flatMap_singleton,
    textOf_eq h.wellFormed hfresh, hdata, List.length_append, List.length_append]
  omega

end HoldsText

theorem setOnlyText_tag (h : WellFormed d) (hn : n < d.size) (t : JsString) :
    ((setOnlyText d n t).node n).tag = (d.node n).tag :=
  field_of_bare MiniNode.tag ((setOnlyText_holds h hn t).bare n hn) fun _ => rfl

theorem textBuffer_jsSetText {cssApply : NodeHeap → Bytes → NodeHeap} (h : WellFormed d)
    (hn : n < d.size) {t : JsString} (hleaves : LeavesText cssApply d n t) :
    textBuffer (jsSetText cssApply d n t) n = textBuffer (setOnlyText d n t) n := by
  unfold jsSetText
  dsimp only
  rw [setOnlyText_tag h hn]
  split_ifs with htag
  · exact hleaves htag
  · rfl

/-- What was assigned is read back, unless the node has data of its own. -/
theorem jsGetText_jsSetText {cssApply : NodeHeap → Bytes → NodeHeap} (h : WellFormed d)
    (hn : n < d.size) {t : JsString} (hleaves : LeavesText cssApply d n t) :
    jsGetText (jsSetText cssApply d n t) n = t ↔
      match ownText (d.node n) with
      | some u => newStringLen (u.take 4095) = t
      | none => ReadsBack t := by
  rw [jsGetText, textBuffer_jsSetText h hn hleaves, (setOnlyText_holds h hn t).textBuffer_eq hn]
  cases ownText (d.node n) with
  | some u => exact Iff.rfl
  | none => exact newStringLen_cString_take_iff t 4095

end Setter

/-! ## The value of a textarea -/

/-- The event makes the native editor call `control_value_set`. -/
def stores (s : EditState) : EditEvent → Bool
  | .char c =>
      !s.suppressChar && c.toNat != 0 &&
        (s.field.kind != .numberInput || TextField.numberTakes s.field.value (utf8Bytes c.toNat))
  | .key .backspace _ =>
      let caret := caretClamp s.field.value s.field.caretOffset
      let (selA, selB) := s.field.selBounds caret 0
      s.field.hasSel caret && selA < selB || 0 < caret
  | .key .delete _ =>
      let caret := caretClamp s.field.value s.field.caretOffset
      let (selA, selB) := s.field.selBounds caret 0
      s.field.hasSel caret && selA < selB || caret < s.field.value.length
  | .key .enter _ => s.field.kind == .textarea
  | _ => false

/-- `mini_node_set_text` -/
def miniNodeSetText (d : NodeHeap) (n : NodeId) (t : Bytes) : NodeHeap :=
  d.modify n fun m => { m with text := some t }

/-- A `textarea` that has the focus, in its tree. -/
structure Textarea where
  heap : NodeHeap
  node : NodeId
  caretOffset : Nat := 0
  selAnchorOff : Option Nat := none
  suppressChar : Bool := false
  wellFormed : WellFormed heap
  allocated : node < heap.size
  element : (heap.node node).type = .elementNode
  tag : (heap.node node).tag = some (ascii "textarea")

/-- What happens to a `textarea`. -/
inductive TextareaEvent where
  /-- A script assigns to the `value`. -/
  | assign (t : JsString)
  /-- An event that the native editor handles. -/
  | edit (e : EditEvent)
  /-- Another key goes down, or one whose default a listener prevents. -/
  | otherKey (preventDefault : Bool)
  /-- The pointer puts caret and anchor elsewhere. -/
  | point (caretOffset : Nat) (selAnchorOff : Option Nat)

theorem samePointers_miniNodeSetText (d : NodeHeap) (n : NodeId) (t : Bytes) :
    SamePointers d (miniNodeSetText d n t) := by
  constructor <;> simp [miniNodeSetText, field_modify]

namespace Textarea

/-- The `value` that scripts read. -/
def value (s : Textarea) : JsString := jsGetText s.heap s.node

/-- What the native editor works on: `control_value_get` and its own fields. -/
def editState (s : Textarea) : EditState where
  field :=
    { kind := .textarea
      value := (s.heap.node s.node).text.getD []
      caretOffset := s.caretOffset
      selAnchorOff := s.selAnchorOff }
  suppressChar := s.suppressChar

/-- The heap of a `textarea`, after a change that keeps its type and its tag. -/
def withHeap (s : Textarea) (d : NodeHeap) (h : WellFormed d) (hn : s.node < d.size)
    (htype : (d.node s.node).type = (s.heap.node s.node).type)
    (htag : (d.node s.node).tag = (s.heap.node s.node).tag) : Textarea :=
  { s with
    heap := d
    wellFormed := h
    allocated := hn
    element := htype.trans s.element
    tag := htag.trans s.tag }

/-- The setter of `value`. -/
def assign (s : Textarea) (t : JsString) : Textarea :=
  have h := setOnlyText_holds s.wellFormed s.allocated t
  s.withHeap (setOnlyText s.heap s.node t) h.wellFormed (h.size ▸ Nat.lt_succ_of_lt s.allocated)
    (field_of_bare MiniNode.type (h.bare s.node s.allocated) fun _ => rfl)
    (field_of_bare MiniNode.tag (h.bare s.node s.allocated) fun _ => rfl)

/-- `control_value_set` -/
def controlValueSet (s : Textarea) (v : Bytes) : Textarea :=
  s.withHeap (miniNodeSetText s.heap s.node v)
    ((samePointers_miniNodeSetText _ _ v).wellFormed s.wellFormed).1 s.allocated
    (field_modify MiniNode.type _ _ _ _ |>.trans (ite_self _))
    (field_modify MiniNode.tag _ _ _ _ |>.trans (ite_self _))

/-- An event for the native editor. -/
def edit (s : Textarea) (e : EditEvent) : Textarea :=
  let e' := s.editState.handle e
  let s := if stores s.editState e then s.controlValueSet e'.field.value else s
  { s with
    caretOffset := e'.field.caretOffset
    selAnchorOff := e'.field.selAnchorOff
    suppressChar := e'.suppressChar }

def step (s : Textarea) : TextareaEvent → Textarea
  | .assign t => s.assign t
  | .edit e => s.edit e
  | .otherKey preventDefault => { s with suppressChar := preventDefault }
  | .point caretOffset selAnchorOff =>
      { s with caretOffset := caretOffset, selAnchorOff := selAnchorOff }

/-- The text that an event assigns, or has the native editor produce. -/
def produces (s : Textarea) : TextareaEvent → Option JsString
  | .assign t => some t
  | .edit e =>
      if stores s.editState e then some (newStringLen (s.editState.handle e).field.value) else none
  | _ => none

/-- The state after a sequence of events. -/
def run (s : Textarea) (events : List TextareaEvent) : Textarea := events.foldl step s

/-- The text last assigned or produced; `last` is the one before the events. -/
def lastText (s : Textarea) (last : JsString) : List TextareaEvent → JsString
  | [] => last
  | e :: events => (s.step e).lastText ((s.produces e).getD last) events

/-! ## The editor and the getter do not meet -/

/-- The setter is `js_setText`: a `textarea` is no `style` element. -/
theorem assign_heap (cssApply : NodeHeap → Bytes → NodeHeap) (s : Textarea) (t : JsString) :
    (s.assign t).heap = jsSetText cssApply s.heap s.node t := by
  have htag : ((setOnlyText s.heap s.node t).node s.node).tag ≠ some (ascii "style") := by
    rw [setOnlyText_tag s.wellFormed s.allocated, s.tag]
    decide
  exact (if_neg htag).symm

/-- The getter reads nothing that the native editor writes. -/
theorem jsGetText_miniNodeSetText {d : NodeHeap} (h : WellFormed d) {n : NodeId}
    (htype : (d.node n).type = .elementNode) (v : Bytes) :
    jsGetText (miniNodeSetText d n v) n = jsGetText d n := by
  have hsame := samePointers_miniNodeSetText d n v
  have hkids := (hsame.wellFormed h).2
  have hown : ∀ x, ownText ((miniNodeSetText d n v).node x) = ownText (d.node x) := by
    intro x
    rw [miniNodeSetText, field_modify ownText]
    split_ifs with hx
    · subst hx
      simp [ownText, htype]
    · rfl
  have hnext : collected (miniNodeSetText d n v) = collected d := by
    funext x
    rw [collected, collected, hown, hkids]
  have hdata : textData (miniNodeSetText d n v) = textData d := by
    funext x
    rw [textData, textData, hown]
  rw [jsGetText, jsGetText, textBuffer_eq, textBuffer_eq, collectedText, collectedText, hnext,
    hdata, hsame.size]

theorem value_edit (s : Textarea) (e : EditEvent) : (s.edit e).value = s.value := by
  have hset : (s.controlValueSet (s.editState.handle e).field.value).value = s.value :=
    jsGetText_miniNodeSetText s.wellFormed s.element _
  unfold edit
  split_ifs
  · exact hset
  · rfl

theorem ownText_eq_none (s : Textarea) : ownText (s.heap.node s.node) = none := by
  rw [ownText, s.element]
  rfl

theorem leavesText (cssApply : NodeHeap → Bytes → NodeHeap) (s : Textarea) (t : JsString) :
    LeavesText cssApply s.heap s.node t := by
  intro htag
  rw [s.tag] at htag
  exact absurd htag (by decide)

theorem value_assign (s : Textarea) (t : JsString) : (s.assign t).value = t ↔ ReadsBack t := by
  have hiff := jsGetText_jsSetText s.wellFormed s.allocated (s.leavesText (fun d _ => d) t)
  rw [s.ownText_eq_none, ← s.assign_heap] at hiff
  exact hiff

/-! ## Runs -/

/-- After the event the `value` is the text last assigned or produced, as it was before. -/
def Follows (s : Textarea) (last : JsString) : TextareaEvent → Prop
  | .assign t => ReadsBack t
  | .edit e => stores s.editState e = true →
      newStringLen (s.editState.handle e).field.value = last
  | _ => True

/-- Every event of the sequence is such a one. -/
def FollowsAll (s : Textarea) (last : JsString) : List TextareaEvent → Prop
  | [] => True
  | e :: events =>
      s.Follows last e ∧ (s.step e).FollowsAll ((s.produces e).getD last) events

theorem value_step {s : Textarea} {last : JsString} (h : s.value = last) (e : TextareaEvent) :
    (s.step e).value = (s.produces e).getD last ↔ s.Follows last e := by
  cases e with
  | assign t => exact s.value_assign t
  | edit e =>
    unfold step produces Follows
    rw [s.value_edit, h]
    by_cases hst : stores s.editState e = true
    · simp [hst, eq_comm]
    · simp [hst]
  | otherKey _ => exact iff_of_true h trivial
  | point _ _ => exact iff_of_true h trivial

/-- In a run the `value` is always the text last assigned or produced when every event follows. -/
theorem value_run_iff {s : Textarea} {last : JsString} (h : s.value = last)
    (events : List TextareaEvent) :
    (∀ pre, pre <+: events → (s.run pre).value = s.lastText last pre) ↔
      s.FollowsAll last events := by
  induction events generalizing s last with
  | nil =>
    refine iff_of_true (fun pre hpre => ?_) trivial
    rw [List.prefix_nil.1 hpre]
    exact h
  | cons e events ih =>
    constructor
    · intro hall
      have hstep : (s.step e).value = (s.produces e).getD last :=
        hall [e] (List.prefix_append [e] events)
      exact ⟨(value_step h e).1 hstep, (ih hstep).1 fun pre hpre =>
        hall (e :: pre) (List.cons_prefix_cons.2 ⟨rfl, hpre⟩)⟩
    · rintro ⟨hfirst, hrest⟩ pre hpre
      cases pre with
      | nil => exact h
      | cons e' pre =>
        obtain ⟨rfl, hrun⟩ := List.cons_prefix_cons.1 hpre
        exact (ih ((value_step h e').2 hfirst)).2 hrest pre hrun

end Textarea

/-! ## The getter, the setter and the `value` -/

/-- An empty `textarea`. -/
def oneTextarea : NodeHeap where
  size := 1
  node _ := { tag := some (ascii "textarea") }

def emptyTextarea : Textarea where
  heap := oneTextarea
  node := 0
  wellFormed := wellFormed_of_bare fun _ => rfl
  allocated := Nat.one_pos
  element := rfl
  tag := rfl

/-- An empty `style` element. -/
def oneStyle : NodeHeap where
  size := 1
  node _ := { tag := some (ascii "style") }

end TinyFramework.Js
