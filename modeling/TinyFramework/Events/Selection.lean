/-
  Events/Selection.lean --- the selection and what is copied of it.

  `mini_events_node_selection_range` gives the highlight of one text node by comparing it
  with the ends of the selection; `mini_events_selection_text` walks the body once.  Of a
  node's style the two read what its text is collapsed by.

  One walk of the body passes the nodes before the selection, collects from its first node
  to its last, and is done.  The comparisons of the highlight pick the same nodes.
-/
import TinyFramework.Dom.DocumentOrder
import TinyFramework.Events.TextEditor

set_option autoImplicit false

namespace TinyFramework.Events

open TinyFramework.Foundation TinyFramework.Dom

/-- A document with the fields of `MiniStyle` that change a text. -/
structure Page where
  heap : NodeHeap
  body : Option NodeId
  whiteSpace : NodeId → Nat := fun _ => 0
  textTransform : NodeId → Nat := fun _ => 0

/-- `MiniPageSelection`; the offsets are those `text_offset_at` gives. -/
structure PageSelection where
  anchorNode : Option NodeId
  anchorOff : Nat
  focusNode : Option NodeId
  focusOff : Nat

/-! ## Collapsed texts -/

/-- The white space of a text. -/
def isTextWs (b : UInt8) : Bool := b == 32 || b == 9 || b == 13 || b == 10

/-- `is_all_ws_str` -/
def isAllWsStr (s : Bytes) : Bool := s.all isTextWs

/-- The loop of `mini_text_collapse` over the rest of the source. -/
def collapseLoop (cap : Nat) : Bytes → Bytes → Bool → Bytes
  | [], dst, _ => dst
  | b :: src, dst, inWs =>
      if dst.length + 1 < cap then
        if isTextWs b then
          if inWs then collapseLoop cap src dst true
          else collapseLoop cap src (dst ++ [32]) true
        else collapseLoop cap src (dst ++ [b]) false
      else dst

/-- `mini_text_collapse` -/
def miniTextCollapse (src : Bytes) (cap : Nat) (isPre : Bool) : Bytes :=
  if isPre then src.take (cap - 1) else collapseLoop cap src [] false

/-- `if (c >= 'a' && c <= 'z') c - 'a' + 'A'` -/
def toUpperAscii (c : UInt8) : UInt8 := if 97 ≤ c ∧ c ≤ 122 then c - 97 + 65 else c

/-- The string of `mini_dom_text_layout`, in a buffer of 1024 bytes. -/
def Page.miniDomTextLayout (page : Page) (n : NodeId) : Bytes :=
  match (page.heap.node n).type, (page.heap.node n).text with
  | .textNode, some text =>
      let style := fun f : NodeId → Nat => ((page.heap.parentOf n).map f).getD 0
      let tmp := miniTextCollapse text 1024 (style page.whiteSpace == 1)
      let tmp := if style page.textTransform == 1 then tmp.map toUpperAscii else tmp
      tmp.take 1023
  | _, _ => []

/-! ## The ends of a selection -/

/-- The ends in document order. -/
structure SelEnds where
  startN : NodeId
  startOff : Nat
  endN : NodeId
  endOff : Nat

def Page.ends (page : Page) (a : NodeId) (aOff : Nat) (f : NodeId) (fOff : Nat) : SelEnds :=
  if miniNodePrecedes page.heap a f then ⟨a, aOff, f, fOff⟩ else ⟨f, fOff, a, aOff⟩

/-- `lo` and `hi` within the text of `n`, as both functions compute them. -/
def SelEnds.bounds (e : SelEnds) (n : NodeId) (clen : Nat) : Nat × Nat :=
  let lo := if n = e.startN then e.startOff else 0
  let hi := if n = e.endN then e.endOff else clen
  (min lo hi, min (max lo hi) clen)

/-! ## The highlight -/

/-- `mini_events_node_selection_range` -/
def Page.miniEventsNodeSelectionRange (page : Page) (sel : PageSelection) (n : NodeId) :
    Option (Nat × Nat) :=
  match (page.heap.node n).type, (page.heap.node n).text with
  | .textNode, some text =>
      if isAllWsStr text then none
      else
        match sel.anchorNode, sel.focusNode with
        | some a, some f =>
            let e := page.ends a sel.anchorOff f sel.focusOff
            if miniNodePrecedes page.heap n e.startN || miniNodePrecedes page.heap e.endN n then
              none
            else
              let (lo, hi) := e.bounds n (page.miniDomTextLayout n).length
              if hi ≤ lo then none else some (lo, hi)
        | _, _ => none
  | _, _ => none

/-! ## The copy -/

/-- The state of `sel_collect_rec`; `len` is the length of `out`. -/
structure SelCtx where
  out : Bytes := []
  inRange : Bool := false
  done : Bool := false
  deriving DecidableEq

/-- The bytes from `lo` to `hi`. -/
def slice (s : Bytes) (lo hi : Nat) : Bytes := (s.drop lo).take (hi - lo)

/-- What `sel_collect_rec` does at a node before it goes on to the children. -/
def Page.selEnter (page : Page) (e : SelEnds) (cap : Nat) (ctx : SelCtx) (n : NodeId) : SelCtx :=
  let ctx := if n = e.startN ∨ n = e.endN then { ctx with inRange := true } else ctx
  if ctx.inRange ∧ (page.heap.node n).type = .textNode ∧ (page.heap.node n).text.isSome then
    let text := page.miniDomTextLayout n
    let (lo, hi) := e.bounds n text.length
    if lo < hi ∧ ctx.out.length + (hi - lo) + 1 < cap then
      { ctx with out := ctx.out ++ slice text lo hi }
    else ctx
  else ctx

/-- `sel_collect_rec`; the bound is on the depth. -/
def Page.selCollectRec (page : Page) (e : SelEnds) (cap : Nat) : Nat → NodeId → SelCtx → SelCtx
  | 0, _, ctx => ctx
  | fuel + 1, n, ctx =>
      if ctx.done then ctx
      else
        let ctx := page.selEnter e cap ctx n
        let ctx := (children page.heap n).foldl
          (fun ctx c => page.selCollectRec e cap fuel c ctx) ctx
        if n = e.endN then { ctx with inRange := false, done := true } else ctx

/-- `mini_events_selection_text` -/
def Page.miniEventsSelectionText (page : Page) (sel : PageSelection) (cap : Nat) : Bytes :=
  match sel.anchorNode, sel.focusNode, page.body with
  | some a, some f, some body =>
      let e := page.ends a sel.anchorOff f sel.focusOff
      (page.selCollectRec e cap page.heap.size body {}).out
  | _, _, _ => []

/-- The value between anchor and caret of a field. -/
def TextField.selected (f : TextField) (anchor : Nat) : Bytes :=
  let b := caretClamp f.value f.caretOffset
  slice f.value (min anchor b) (min (max anchor b) f.value.length)

/-- Ctrl+C of `mini_events_handle_key`: what the copy callback gets, given the text field
that has the focus. -/
def Page.handleCopy (page : Page) (sel : PageSelection) (focus : Option TextField) :
    Option Bytes :=
  match focus.bind fun f => f.selAnchorOff.map fun anchor => f.selected anchor with
  | some text => if text.isEmpty then none else some text
  | none =>
      let stack := page.miniEventsSelectionText sel 4096
      -- a full buffer may hold a cut text
      let buf := if stack.length = 4095 then page.miniEventsSelectionText sel 65536 else stack
      if buf.isEmpty then none else some buf

/-! ## What copying is for -/

/-- The highlighted bytes of a node. -/
def Page.highlight (page : Page) (sel : PageSelection) (n : NodeId) : Bytes :=
  match page.miniEventsNodeSelectionRange sel n with
  | some (lo, hi) => slice (page.miniDomTextLayout n) lo hi
  | none => []

/-- The highlighted text, in document order. -/
def Page.highlighted (page : Page) (sel : PageSelection) (body : NodeId) : Bytes :=
  (documentOrder page.heap body).flatMap (page.highlight sel)

/-- What is copied is the highlighted text; an empty one is not copied. -/
def Page.CopiesHighlight (page : Page) (sel : PageSelection) (body : NodeId)
    (focus : Option TextField) : Prop :=
  (page.handleCopy sel focus).getD [] = page.highlighted sel body

/-! ## The copied text against the highlighted one -/

namespace Page

variable {page : Page} {sel : PageSelection} {e : SelEnds} {cap : Nat} {ctx : SelCtx}
  {n : NodeId}

/-! ## The walk -/

/-- What the walk does at a node that has no children if it is the last. -/
def selVisit (page : Page) (e : SelEnds) (cap : Nat) (ctx : SelCtx) (n : NodeId) : SelCtx :=
  if ctx.done then ctx
  else
    let ctx := page.selEnter e cap ctx n
    if n = e.endN then { ctx with inRange := false, done := true } else ctx

theorem foldl_same {α : Type} {visit : SelCtx → α → SelCtx} {l : List α}
    (hvisit : ∀ a ∈ l, visit ctx a = ctx) : l.foldl visit ctx = ctx := by
  induction l with
  | nil => rfl
  | cons a l ih =>
    obtain ⟨ha, hl⟩ := List.forall_mem_cons.1 hvisit
    rw [List.foldl_cons, ha, ih hl]

theorem selVisit_done (h : ctx.done = true) : page.selVisit e cap ctx n = ctx := by
  rw [selVisit, if_pos h]

theorem descend_done (h : ctx.done = true) (fuel : Nat) :
    descend (children page.heap) (page.selVisit e cap) fuel n ctx = ctx := by
  rw [descend_eq]
  exact foldl_same fun _ _ => selVisit_done h

/-! ## What is collected -/

/-- The bytes of a node between the ends of the selection. -/
def sliceOf (page : Page) (e : SelEnds) (n : NodeId) : Bytes :=
  let text := page.miniDomTextLayout n
  slice text (e.bounds n text.length).1 (e.bounds n text.length).2

/-- A slice is put behind the others when the buffer has room for it. -/
def putSlice (cap : Nat) (out s : Bytes) : Bytes :=
  if out.length + s.length + 1 < cap then out ++ s else out

theorem length_slice {s : Bytes} {lo hi : Nat} (h : hi ≤ s.length) :
    (slice s lo hi).length = hi - lo := by
  rw [slice, List.length_take, List.length_drop]
  omega

theorem length_sliceOf : (page.sliceOf e n).length =
    (e.bounds n (page.miniDomTextLayout n).length).2 -
      (e.bounds n (page.miniDomTextLayout n).length).1 :=
  length_slice (Nat.min_le_right _ _)

theorem putSlice_nil {out : Bytes} : putSlice cap out [] = out := by
  rw [putSlice, List.append_nil, ite_self]

theorem layout_of_not_text (h : ¬ ((page.heap.node n).type = .textNode ∧
    (page.heap.node n).text.isSome)) : page.miniDomTextLayout n = [] := by
  unfold miniDomTextLayout
  split
  · rename_i htype htext
    exact absurd ⟨htype, by rw [htext]; rfl⟩ h
  · rfl

theorem sliceOf_of_not_text (h : ¬ ((page.heap.node n).type = .textNode ∧
    (page.heap.node n).text.isSome)) : page.sliceOf e n = [] := by
  simp [sliceOf, layout_of_not_text h, slice]

/-- In range, a visit puts the slice of its node. -/
theorem selEnter_inRange (h : ctx.inRange = true) :
    page.selEnter e cap ctx n = { ctx with out := putSlice cap ctx.out (page.sliceOf e n) } := by
  have hctx : (if n = e.startN ∨ n = e.endN then { ctx with inRange := true } else ctx) = ctx := by
    rw [← h]
    exact ite_self ctx
  unfold selEnter
  simp only [hctx]
  by_cases htext : (page.heap.node n).type = .textNode ∧ (page.heap.node n).text.isSome
  · rw [if_pos ⟨h, htext⟩, putSlice, length_sliceOf]
    by_cases hlt : (e.bounds n (page.miniDomTextLayout n).length).1 <
        (e.bounds n (page.miniDomTextLayout n).length).2
    · simp only [hlt, true_and]
      split_ifs <;> rfl
    · have hnil : page.sliceOf e n = [] := by
        rw [← List.length_eq_zero_iff, length_sliceOf]
        omega
      rw [if_neg fun hboth => hlt hboth.1, hnil, List.append_nil, ite_self]
  · rw [if_neg fun hboth => htext hboth.2, sliceOf_of_not_text htext, putSlice_nil]

theorem selEnter_end : (page.selEnter e cap ctx e.endN).inRange = true := by
  unfold selEnter
  simp only [or_true, if_true]
  split_ifs <;> rfl

/-- Where no node has a slice, the recursion in range collects nothing. -/
theorem selCollectRec_quiet {fuel : Nat} (hrange : ctx.inRange = true)
    (hquiet : ∀ m ∈ walk (children page.heap) fuel n, m ≠ e.endN ∧ page.sliceOf e m = []) :
    page.selCollectRec e cap fuel n ctx = ctx := by
  induction fuel generalizing n with
  | zero => rfl
  | succ fuel ih =>
    obtain ⟨hend, hslice⟩ := hquiet n List.mem_cons_self
    have hkids : ∀ c ∈ children page.heap n, page.selCollectRec e cap fuel c ctx = ctx :=
      fun c hc => ih fun m hm =>
        hquiet m (List.mem_cons_of_mem n (List.mem_flatMap.2 ⟨c, hc, hm⟩))
    rw [selCollectRec, selEnter_inRange hrange, hslice, putSlice_nil]
    dsimp only
    rw [foldl_same hkids, if_neg hend, ite_self]

/-- Below the last node of the selection nothing is collected. -/
def EndsQuietly (page : Page) (e : SelEnds) : Prop :=
  ∀ fuel, ∀ c ∈ children page.heap e.endN, ∀ m ∈ walk (children page.heap) fuel c,
    m ≠ e.endN ∧ page.sliceOf e m = []

/-- The recursion is a walk with one visit of each node. -/
theorem selCollectRec_eq (hquiet : page.EndsQuietly e) (fuel : Nat) :
    page.selCollectRec e cap fuel n ctx =
      (walk (children page.heap) fuel n).foldl (page.selVisit e cap) ctx := by
  rw [← descend_eq]
  induction fuel generalizing n ctx with
  | zero => rfl
  | succ fuel ih =>
    rw [selCollectRec, descend]
    by_cases hdone : ctx.done = true
    · rw [if_pos hdone, selVisit_done hdone]
      exact (foldl_same fun c _ => descend_done hdone fuel).symm
    · rw [if_neg hdone, selVisit, if_neg hdone]
      by_cases hend : n = e.endN
      · subst hend
        dsimp only
        rw [foldl_same fun c hc => selCollectRec_quiet selEnter_end (hquiet fuel c hc),
          if_pos rfl]
        exact (foldl_same fun c _ => descend_done rfl fuel).symm
      · simp only [if_neg hend, ih]

/-- Outside, only the ends of the selection count. -/
theorem selVisit_outside (hrange : ctx.inRange = false) (hstart : n ≠ e.startN)
    (hend : n ≠ e.endN) : page.selVisit e cap ctx n = ctx := by
  unfold selVisit selEnter
  simp [hstart, hend, hrange]

theorem selVisit_start (hdone : ctx.done = false) :
    page.selVisit e cap ctx e.startN =
      page.selVisit e cap { ctx with inRange := true } e.startN := by
  unfold selVisit selEnter
  simp [hdone]

theorem foldl_outside {l : List NodeId} (hrange : ctx.inRange = false)
    (hl : ∀ m ∈ l, m ≠ e.startN ∧ m ≠ e.endN) :
    l.foldl (page.selVisit e cap) ctx = ctx :=
  foldl_same fun m hm => selVisit_outside hrange (hl m hm).1 (hl m hm).2

/-- From inside the range up to the last node. -/
theorem foldl_inRange {l : List NodeId} (hrange : ctx.inRange = true) (hdone : ctx.done = false)
    (hl : ∀ m ∈ l, m ≠ e.endN) :
    (l ++ [e.endN]).foldl (page.selVisit e cap) ctx =
      { out := ((l ++ [e.endN]).map (page.sliceOf e)).foldl (putSlice cap) ctx.out
        inRange := false, done := true } := by
  induction l generalizing ctx with
  | nil => simp [selVisit, hdone, selEnter_inRange hrange]
  | cons m l ih =>
    obtain ⟨hm, hl⟩ := List.forall_mem_cons.1 hl
    have hvisit : page.selVisit e cap ctx m =
        { ctx with out := putSlice cap ctx.out (page.sliceOf e m) } := by
      rw [selVisit, if_neg (by simp [hdone]), selEnter_inRange hrange]
      exact if_neg hm
    rw [List.cons_append, List.foldl_cons, hvisit]
    exact @ih { ctx with out := putSlice cap ctx.out (page.sliceOf e m) } hrange hdone hl

/-! ## The nodes of a selection -/

/-- A tree in document order, cut at the ends of a selection. -/
structure CutAt (page : Page) (e : SelEnds) (order before between after : List NodeId) :
    Prop where
  split : order = before ++ (between ++ [e.endN]) ++ after
  first : (between ++ [e.endN]).head? = some e.startN
  before_precedes : ∀ m ∈ before, miniNodePrecedes page.heap m e.startN = true
  inside : ∀ m ∈ between ++ [e.endN], miniNodePrecedes page.heap m e.startN = false ∧
    miniNodePrecedes page.heap e.endN m = false
  after_preceded : ∀ m ∈ after, miniNodePrecedes page.heap e.endN m = true
  fresh : (∀ m ∈ before, m ≠ e.startN ∧ m ≠ e.endN) ∧ ∀ m ∈ between, m ≠ e.endN

theorem not_precedes_self (d : NodeHeap) (n : NodeId) : miniNodePrecedes d n n = false := by
  rw [miniNodePrecedes, if_pos rfl]

theorem exists_cut {order : List NodeId}
    (hpair : order.Pairwise fun x y =>
      miniNodePrecedes page.heap x y = true ∧ miniNodePrecedes page.heap y x = false)
    (hstart : e.startN ∈ order) (hend : e.endN ∈ order)
    (hends : miniNodePrecedes page.heap e.endN e.startN = false) :
    ∃ before between after, CutAt page e order before between after := by
  obtain ⟨before, rest, rfl⟩ := List.append_of_mem hstart
  obtain ⟨-, htail, hbefore⟩ := List.pairwise_append.1 hpair
  obtain ⟨hstart_rest, hrest⟩ := List.pairwise_cons.1 htail
  have hself := not_precedes_self page.heap
  have hne_of : ∀ {x y}, miniNodePrecedes page.heap x y = true → x ≠ y := by
    rintro x _ hxy rfl
    rw [hself] at hxy
    cases hxy
  have hend_before : e.endN ∉ before := by
    intro hmem
    rw [(hbefore _ hmem _ List.mem_cons_self).1] at hends
    cases hends
  have hfresh : ∀ m ∈ before, m ≠ e.startN ∧ m ≠ e.endN := fun m hm =>
    ⟨hne_of (hbefore m hm _ List.mem_cons_self).1, fun heq => hend_before (heq ▸ hm)⟩
  by_cases hsame : e.endN = e.startN
  · refine ⟨before, [], rest, ?_, ?_, fun m hm => (hbefore m hm _ List.mem_cons_self).1, ?_, ?_,
      hfresh, by simp⟩
    · simp [hsame]
    · simp [hsame]
    · simp [hsame, hself]
    · rw [hsame]
      exact fun m hm => (hstart_rest m hm).1
  · have hend_rest : e.endN ∈ rest := by
      rcases List.mem_append.1 hend with hmem | hmem
      · exact absurd hmem hend_before
      · exact (List.mem_cons.1 hmem).resolve_left hsame
    obtain ⟨middle, after, rfl⟩ := List.append_of_mem hend_rest
    obtain ⟨-, hafter, hmiddle⟩ := List.pairwise_append.1 hrest
    have hafter := (List.pairwise_cons.1 hafter).1
    refine ⟨before, e.startN :: middle, after, by simp, rfl,
      fun m hm => (hbefore m hm _ List.mem_cons_self).1, ?_, fun m hm => (hafter m hm).1, hfresh, ?_⟩
    · intro m hm
      rw [List.cons_append, List.mem_cons, List.mem_append, List.mem_singleton] at hm
      rcases hm with rfl | hm | rfl
      · exact ⟨hself _, hends⟩
      · exact ⟨(hstart_rest m (by simp [hm])).2, (hmiddle m hm _ List.mem_cons_self).2⟩
      · exact ⟨hends, hself _⟩
    · intro m hm
      rcases List.mem_cons.1 hm with rfl | hm
      · exact Ne.symm hsame
      · exact hne_of (hmiddle m hm _ List.mem_cons_self).1

/-! ## Both texts -/

/-- The nodes that neither come before the selection nor after it. -/
def selectedNodes (page : Page) (e : SelEnds) (body : NodeId) : List NodeId :=
  (documentOrder page.heap body).filter fun n =>
    !miniNodePrecedes page.heap n e.startN && !miniNodePrecedes page.heap e.endN n

/-- A text of nothing but white space. -/
def blank (page : Page) (n : NodeId) : Bool := isAllWsStr ((page.heap.node n).text.getD [])

/-- The slice of a node that the highlight shows. -/
def shownOf (page : Page) (e : SelEnds) (n : NodeId) : Bytes :=
  if page.blank n then [] else page.sliceOf e n

section Cut

variable {order before between after : List NodeId} {body : NodeId}

theorem CutAt.selected (h : CutAt page e (documentOrder page.heap body) before between after) :
    page.selectedNodes e body = between ++ [e.endN] := by
  have hbefore : before.filter (fun n => !miniNodePrecedes page.heap n e.startN &&
      !miniNodePrecedes page.heap e.endN n) = [] :=
    List.filter_eq_nil_iff.2 fun m hm => by simp [h.before_precedes m hm]
  have hafter : after.filter (fun n => !miniNodePrecedes page.heap n e.startN &&
      !miniNodePrecedes page.heap e.endN n) = [] :=
    List.filter_eq_nil_iff.2 fun m hm => by simp [h.after_preceded m hm]
  have hinside : (between ++ [e.endN]).filter (fun n =>
      !miniNodePrecedes page.heap n e.startN && !miniNodePrecedes page.heap e.endN n) =
        between ++ [e.endN] :=
    List.filter_eq_self.2 fun m hm => by simp [h.inside m hm]
  rw [selectedNodes, h.split, List.filter_append, List.filter_append, hbefore, hinside, hafter,
    List.nil_append, List.append_nil]

/-- The walk collects the slices of the selected nodes, as far as they fit. -/
theorem CutAt.collected (h : CutAt page e (documentOrder page.heap body) before between after)
    (hquiet : page.EndsQuietly e) :
    (page.selCollectRec e cap page.heap.size body {}).out =
      ((page.selectedNodes e body).map (page.sliceOf e)).foldl (putSlice cap) [] := by
  have hdone : ∀ ctx, ctx.done = true → after.foldl (page.selVisit e cap) ctx = ctx :=
    fun ctx h => foldl_same fun _ _ => selVisit_done h
  have hopen : (between ++ [e.endN]).foldl (page.selVisit e cap) {} =
      (between ++ [e.endN]).foldl (page.selVisit e cap) { inRange := true } := by
    obtain ⟨rest, hrest⟩ : ∃ rest, between ++ [e.endN] = e.startN :: rest := by
      have hfirst := h.first
      cases hlist : between ++ [e.endN] with
      | nil => simp at hlist
      | cons m rest =>
        rw [hlist] at hfirst
        exact ⟨rest, by rw [Option.some.inj hfirst]⟩
    rw [hrest, List.foldl_cons, List.foldl_cons, selVisit_start rfl]
  rw [selCollectRec_eq hquiet]
  show ((documentOrder page.heap body).foldl (page.selVisit e cap) {}).out = _
  rw [h.selected, h.split, List.foldl_append, List.foldl_append,
    foldl_outside rfl h.fresh.1, hopen, foldl_inRange rfl rfl h.fresh.2, hdone _ rfl]

end Cut

/-- Outside of the selection nothing is highlighted, inside all but blank texts. -/
theorem highlight_eq {a f : NodeId} (ha : sel.anchorNode = some a) (hf : sel.focusNode = some f) :
    page.highlight sel n =
      let e := page.ends a sel.anchorOff f sel.focusOff
      if miniNodePrecedes page.heap n e.startN || miniNodePrecedes page.heap e.endN n then []
      else page.shownOf e n := by
  generalize he : page.ends a sel.anchorOff f sel.focusOff = e
  dsimp only
  by_cases htext : (page.heap.node n).type = .textNode ∧ (page.heap.node n).text.isSome
  · obtain ⟨htype, hsome⟩ := htext
    obtain ⟨text, htext⟩ := Option.isSome_iff_exists.1 hsome
    have hblank : page.blank n = isAllWsStr text := by
      rw [blank, htext]
      rfl
    unfold highlight miniEventsNodeSelectionRange
    simp only [htype, htext, ha, hf, he]
    unfold shownOf
    rw [hblank]
    by_cases hws : isAllWsStr text = true
    · rw [if_pos hws, if_pos hws, ite_self]
    · rw [if_neg hws, if_neg hws]
      by_cases hout : (miniNodePrecedes page.heap n e.startN ||
          miniNodePrecedes page.heap e.endN n) = true
      · rw [if_pos hout, if_pos hout]
      · rw [if_neg hout, if_neg hout]
        by_cases hle : (e.bounds n (page.miniDomTextLayout n).length).2 ≤
            (e.bounds n (page.miniDomTextLayout n).length).1
        · have hnil : page.sliceOf e n = [] := by
            rw [← List.length_eq_zero_iff, length_sliceOf]
            omega
          rw [if_pos hle, hnil]
        · rw [if_neg hle]
          rfl
  · have hnone : page.highlight sel n = [] := by
      unfold highlight miniEventsNodeSelectionRange
      split
      · rename_i hrange
        split at hrange
        · rename_i htype hsome
          exact absurd ⟨htype, by rw [hsome]; rfl⟩ htext
        · cases hrange
      · rfl
    rw [hnone, shownOf, sliceOf_of_not_text htext, ite_self, ite_self]

theorem highlighted_eq {a f body : NodeId} (ha : sel.anchorNode = some a)
    (hf : sel.focusNode = some f) (he : page.ends a sel.anchorOff f sel.focusOff = e) :
    page.highlighted sel body = (page.selectedNodes e body).flatMap (page.shownOf e) := by
  unfold highlighted selectedNodes
  induction documentOrder page.heap body with
  | nil => rfl
  | cons m order ih =>
    rw [List.flatMap_cons, ih, highlight_eq ha hf, he, List.filter_cons]
    dsimp only
    by_cases hout : (miniNodePrecedes page.heap m e.startN ||
        miniNodePrecedes page.heap e.endN m) = true
    · rw [if_pos hout, if_neg (by rw [← Bool.not_or, hout]; decide), List.nil_append]
    · rw [if_neg hout, if_pos (by rw [← Bool.not_or]; simpa using hout), List.flatMap_cons]

/-! ## The room of the buffer -/

theorem length_foldl_putSlice {slices : List Bytes} {out : Bytes} (h : out.length + 1 < cap) :
    (slices.foldl (putSlice cap) out).length + 1 < cap := by
  induction slices generalizing out with
  | nil => exact h
  | cons s slices ih =>
    refine ih ?_
    unfold putSlice
    split_ifs with hfits
    · rw [List.length_append]
      omega
    · exact h

/-- When all slices together fit, they are all put. -/
theorem foldl_putSlice_of_fits {slices : List Bytes} {out : Bytes}
    (h : out.length + slices.flatten.length + 1 < cap) :
    slices.foldl (putSlice cap) out = out ++ slices.flatten := by
  induction slices generalizing out with
  | nil => simp
  | cons s slices ih =>
    rw [List.flatten_cons, List.length_append] at h
    have hput : putSlice cap out s = out ++ s := if_pos (by omega)
    rw [List.foldl_cons, hput, ih (by rw [List.length_append]; omega), List.flatten_cons,
      List.append_assoc]

/-- What is shown is as long as what there is only if no slice is hidden. -/
theorem sliceOf_blank_of_length {nodes : List NodeId}
    (h : (nodes.flatMap (page.shownOf e)).length = (nodes.flatMap (page.sliceOf e)).length) :
    ∀ m ∈ nodes, page.blank m = true → page.sliceOf e m = [] := by
  have hle : ∀ l : List NodeId,
      (l.flatMap (page.shownOf e)).length ≤ (l.flatMap (page.sliceOf e)).length := by
    intro l
    induction l with
    | nil => exact Nat.le_refl _
    | cons m l ih =>
      rw [List.flatMap_cons, List.flatMap_cons, List.length_append, List.length_append]
      refine Nat.add_le_add ?_ ih
      unfold shownOf
      split_ifs
      · exact Nat.zero_le _
      · exact Nat.le_refl _
  induction nodes with
  | nil => simp
  | cons m nodes ih =>
    rw [List.flatMap_cons, List.flatMap_cons, List.length_append, List.length_append] at h
    have hrest := hle nodes
    have hhead : (page.shownOf e m).length ≤ (page.sliceOf e m).length := by
      have hone := hle [m]
      simpa using hone
    intro m' hm' hblank
    rcases List.mem_cons.1 hm' with rfl | hm'
    · rw [shownOf, if_pos hblank, List.length_nil] at h
      exact List.length_eq_zero_iff.1 (by omega)
    · exact ih (by omega) m' hm' hblank

/-! ## The two agree -/

/-- No selected text of white space alone has bytes to copy. -/
def NoBlankSlice (page : Page) (e : SelEnds) (body : NodeId) : Prop :=
  ∀ n ∈ page.selectedNodes e body, page.blank n = true → page.sliceOf e n = []

/-- All slices together fit into the buffer on the stack. -/
def SlicesFit (page : Page) (e : SelEnds) (body : NodeId) : Prop :=
  ((page.selectedNodes e body).flatMap (page.sliceOf e)).length ≤ 4094

/-- What is put into the buffer is what is shown when nothing is hidden and all fits. -/
theorem foldl_putSlice_shown (page : Page) (e : SelEnds) (body : NodeId) :
    (page.NoBlankSlice e body → page.SlicesFit e body →
      ((page.selectedNodes e body).map (page.sliceOf e)).foldl (putSlice 4096) [] =
        (page.selectedNodes e body).flatMap (page.shownOf e)) ∧
      (((page.selectedNodes e body).map (page.sliceOf e)).foldl (putSlice 4096) [] =
        (page.selectedNodes e body).flatMap (page.shownOf e) →
        (page.NoBlankSlice e body ↔ page.SlicesFit e body)) := by
  have hshown : page.NoBlankSlice e body → (page.selectedNodes e body).flatMap (page.shownOf e) =
      (page.selectedNodes e body).flatMap (page.sliceOf e) := by
    intro hblank
    refine List.flatMap_congr fun n hn => ?_
    unfold shownOf
    split_ifs with hn'
    · exact (hblank n hn hn').symm
    · rfl
  have hcopied : page.SlicesFit e body →
      ((page.selectedNodes e body).map (page.sliceOf e)).foldl (putSlice 4096) [] =
        (page.selectedNodes e body).flatMap (page.sliceOf e) := by
    intro hfit
    unfold SlicesFit at hfit
    rw [List.flatMap_def] at hfit ⊢
    rw [foldl_putSlice_of_fits (by rw [List.length_nil]; omega), List.nil_append]
  refine ⟨fun hblank hfit => ?_, fun hsame => ⟨fun hblank => ?_, fun hfit => ?_⟩⟩
  · rw [hcopied hfit, hshown hblank]
  · have hroom := @length_foldl_putSlice 4096
      ((page.selectedNodes e body).map (page.sliceOf e)) [] (by simp)
    rw [hsame, hshown hblank] at hroom
    unfold SlicesFit
    omega
  · rw [hcopied hfit] at hsame
    exact sliceOf_blank_of_length (congrArg List.length hsame.symm)

/-- A page whose selection has both ends under the body, with no slice of a text below the last
of them. -/
structure Selects (page : Page) (sel : PageSelection) (body a f : NodeId) : Prop where
  wellFormed : WellFormed page.heap
  atBody : page.body = some body
  allocated : body < page.heap.size
  anchorNode : sel.anchorNode = some a
  focusNode : sel.focusNode = some f
  anchor_mem : a ∈ documentOrder page.heap body
  focus_mem : f ∈ documentOrder page.heap body
  quiet : ∀ m ∈ documentOrder page.heap (page.ends a sel.anchorOff f sel.focusOff).endN,
    m ≠ (page.ends a sel.anchorOff f sel.focusOff).endN →
      page.sliceOf (page.ends a sel.anchorOff f sel.focusOff) m = []

theorem Selects.exists_cut {body a f : NodeId} (h : page.Selects sel body a f) :
    ∃ before between after, CutAt page (page.ends a sel.anchorOff f sel.focusOff)
      (documentOrder page.heap body) before between after := by
  have hpair := h.wellFormed.pairwise_precedes page.heap.size body
  unfold ends
  split_ifs with hprecedes
  · exact Page.exists_cut hpair h.anchor_mem h.focus_mem
      (h.wellFormed.precedes_asymm h.anchor_mem h.focus_mem hprecedes)
  · exact Page.exists_cut hpair h.focus_mem h.anchor_mem (Bool.not_eq_true _ ▸ hprecedes)

/-- What the recursion comes to below the last node has no slice. -/
theorem Selects.endsQuietly {body a f : NodeId} (h : page.Selects sel body a f) :
    page.EndsQuietly (page.ends a sel.anchorOff f sel.focusOff) := by
  obtain ⟨before, between, after, hcut⟩ := h.exists_cut
  have hend : (page.ends a sel.anchorOff f sel.focusOff).endN ∈
      documentOrder page.heap body := by
    rw [hcut.split]
    simp
  have hlt := h.wellFormed.lt_of_below h.allocated (h.wellFormed.goesDown.below_of_mem hend)
  intro fuel c hc m hm
  have hparent := h.wellFormed.goesDown _ c hc
  have hne : m ≠ (page.ends a sel.anchorOff f sel.focusOff).endN := by
    rintro rfl
    exact h.wellFormed.acyclic.not_below_of_parent hparent
      (h.wellFormed.goesDown.below_of_mem hm)
  refine ⟨hne, h.quiet m ?_ hne⟩
  rw [← h.wellFormed.documentOrder_stable hlt (Nat.le_max_right (fuel + 1) page.heap.size)]
  exact mem_walk_mono (Nat.le_max_left _ _)
    (List.mem_cons_of_mem _ (List.mem_flatMap.2 ⟨c, hc, hm⟩))

/-- The copied text: the slices of the selected nodes, as far as they fit. -/
theorem Selects.selectionText {body a f : NodeId} (h : page.Selects sel body a f) :
    page.miniEventsSelectionText sel cap =
      ((page.selectedNodes (page.ends a sel.anchorOff f sel.focusOff) body).map
        (page.sliceOf (page.ends a sel.anchorOff f sel.focusOff))).foldl (putSlice cap) [] := by
  obtain ⟨before, between, after, hcut⟩ := h.exists_cut
  unfold miniEventsSelectionText
  rw [h.anchorNode, h.focusNode, h.atBody]
  exact hcut.collected h.endsQuietly

/-- The walk has come to its end within the bound on its depth. -/
theorem Selects.selCollectRec_stable {body a f : NodeId} (h : page.Selects sel body a f)
    {fuel : Nat} (hfuel : page.heap.size ≤ fuel) :
    (page.selCollectRec (page.ends a sel.anchorOff f sel.focusOff) cap fuel body {}).out =
      page.miniEventsSelectionText sel cap := by
  unfold miniEventsSelectionText
  rw [h.anchorNode, h.focusNode, h.atBody]
  dsimp only
  rw [selCollectRec_eq h.endsQuietly, selCollectRec_eq h.endsQuietly,
    h.wellFormed.documentOrder_stable h.allocated hfuel]
  rfl

/-- The retry with a larger buffer is never made. -/
theorem Selects.handleCopy {body a f : NodeId} (h : page.Selects sel body a f)
    {focus : Option TextField} (hfocus : ∀ field, focus = some field → field.selAnchorOff = none) :
    (page.handleCopy sel focus).getD [] = page.miniEventsSelectionText sel 4096 := by
  have hnone : (focus.bind fun f => f.selAnchorOff.map fun anchor => f.selected anchor) = none := by
    cases focus with
    | none => rfl
    | some field => simp [hfocus field rfl]
  have hroom : (page.miniEventsSelectionText sel 4096).length + 1 < 4096 := by
    rw [h.selectionText]
    exact length_foldl_putSlice (by simp)
  unfold Page.handleCopy
  rw [hnone]
  dsimp only
  rw [if_neg (show ¬ (page.miniEventsSelectionText sel 4096).length = 4095 by omega)]
  cases page.miniEventsSelectionText sel 4096 <;> rfl

/-- With no blank text selected and room for all slices, the highlighted text is copied; and
where it is copied, the one does not fail without the other. -/
theorem copiesHighlight_of_fit {body a f : NodeId} (h : page.Selects sel body a f)
    {focus : Option TextField} (hfocus : ∀ field, focus = some field → field.selAnchorOff = none) :
    (page.NoBlankSlice (page.ends a sel.anchorOff f sel.focusOff) body →
      page.SlicesFit (page.ends a sel.anchorOff f sel.focusOff) body →
        page.CopiesHighlight sel body focus) ∧
      (page.CopiesHighlight sel body focus →
        (page.NoBlankSlice (page.ends a sel.anchorOff f sel.focusOff) body ↔
          page.SlicesFit (page.ends a sel.anchorOff f sel.focusOff) body)) ∧
      ∀ fuel, page.heap.size ≤ fuel →
        (page.selCollectRec (page.ends a sel.anchorOff f sel.focusOff) 4096 fuel body {}).out =
          page.miniEventsSelectionText sel 4096 := by
  obtain ⟨hagree, hboth⟩ := foldl_putSlice_shown page
    (page.ends a sel.anchorOff f sel.focusOff) body
  unfold CopiesHighlight
  rw [h.handleCopy hfocus, highlighted_eq h.anchorNode h.focusNode rfl]
  refine ⟨?_, ?_, fun fuel => h.selCollectRec_stable⟩
  · rw [h.selectionText]
    exact hagree
  · rw [h.selectionText]
    exact hboth

/-- A body and `count` texts, before they are put into it. -/
def textsNodes (count : Nat) (text : Bytes) : NodeHeap where
  size := count + 1
  node := fun n =>
    if n = 0 then { tag := some (ascii "body") } else { type := .textNode, text := some text }

def textsCalls (count : Nat) : List DomCall :=
  (List.range count).map fun k => .appendChild (some 0) (some (k + 1))

/-- A body with `count` texts. -/
def textsPage (count : Nat) (text : Bytes) : Page where
  heap := domRun (textsNodes count text) (textsCalls count)
  body := some 0
  whiteSpace := fun _ => 1

theorem wellFormed_textsPage {count : Nat} {text : Bytes}
    (h : SafeRun (textsNodes count text) (textsCalls count)) :
    WellFormed (textsPage count text).heap := by
  refine (domRun_contract (wellFormed_of_bare fun x => ?_) h).1
  unfold textsNodes
  dsimp only
  split_ifs <;> rfl

/-- From the second byte of the first text to the end of the text number `last`. -/
def fromFirst (last length : Nat) : PageSelection where
  anchorNode := some last
  anchorOff := length
  focusNode := some 1
  focusOff := 1

theorem selects_twoTexts :
    (textsPage 2 (ascii "ab")).Selects (fromFirst 2 2) 0 2 1 where
  wellFormed := by
    refine wellFormed_textsPage ?_
    simp only [textsCalls, List.range, List.range.loop, List.map, SafeRun, DomCall.Existing]
    decide
  atBody := rfl
  allocated := by decide
  anchorNode := rfl
  focusNode := rfl
  anchor_mem := by decide
  focus_mem := by decide
  quiet := by decide

theorem copiesHighlight_of_fit_twoTexts :
    (textsPage 2 (ascii "ab")).handleCopy (fromFirst 2 2) none = some (ascii "bab") ∧
      (textsPage 2 (ascii "ab")).CopiesHighlight (fromFirst 2 2) 0 none := by
  refine ⟨by decide, ?_⟩
  refine (copiesHighlight_of_fit selects_twoTexts (by simp)).1 ?_ ?_
  · unfold NoBlankSlice
    decide
  · unfold SlicesFit
    decide

theorem selects_fiveTexts :
    (textsPage 5 (List.replicate 1000 97)).Selects (fromFirst 5 1000) 0 5 1 where
  wellFormed := by
    refine wellFormed_textsPage ?_
    simp only [textsCalls, List.range, List.range.loop, List.map, SafeRun, DomCall.Existing]
    decide
  atBody := rfl
  allocated := by decide
  anchorNode := rfl
  focusNode := rfl
  anchor_mem := by decide
  focus_mem := by decide
  quiet := by decide

/-- Of five texts of a thousand bytes the last is left out. -/
theorem long_selection_cut :
    (textsPage 5 (List.replicate 1000 97)).Selects (fromFirst 5 1000) 0 5 1 ∧
      ((textsPage 5 (List.replicate 1000 97)).handleCopy (fromFirst 5 1000) none).map
        List.length = some 3999 ∧
      ((textsPage 5 (List.replicate 1000 97)).highlighted (fromFirst 5 1000) 0).length = 4999 ∧
      ¬ (textsPage 5 (List.replicate 1000 97)).CopiesHighlight (fromFirst 5 1000) 0 none := by
  have hcopied : ((textsPage 5 (List.replicate 1000 97)).handleCopy (fromFirst 5 1000) none).map
      List.length = some 3999 := by decide +kernel
  have hshown : ((textsPage 5 (List.replicate 1000 97)).highlighted (fromFirst 5 1000) 0).length =
      4999 := by decide +kernel
  refine ⟨selects_fiveTexts, hcopied, hshown, fun hsame => ?_⟩
  rw [← hsame] at hshown
  obtain ⟨text, htext, hlength⟩ := Option.map_eq_some_iff.1 hcopied
  rw [htext, Option.getD_some, hlength] at hshown
  cases hshown

end Page

end TinyFramework.Events
