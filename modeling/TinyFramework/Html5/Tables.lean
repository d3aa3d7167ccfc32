/-
  Html5/Tables.lean --- what a table with explicit end tags is parsed into.

  Text in a cell is fostered: it goes in front of the table, so no cell ever has
  a child.  The table of the document is the one in the markup exactly when no
  row has a cell.
-/
import TinyFramework.Html5.ParseRun
import TinyFramework.Html5.Markup

set_option autoImplicit false

namespace TinyFramework.Html5

open TinyFramework.Foundation TinyFramework.Dom

/-! ## The markup and what it should build -/

/-- `<td>text</td>` -/
def cellMarkup (text : Bytes) : Bytes :=
  ascii "<td>" ++ text ++ ascii "</td>"

/-- `<tr>...</tr>` -/
def rowMarkup (cells : List Bytes) : Bytes :=
  ascii "<tr>" ++ (cells.map cellMarkup).flatten ++ ascii "</tr>"

/-- `<table>...</table>` -/
def tableMarkup (rows : List (List Bytes)) : Bytes :=
  ascii "<table>" ++ (rows.map rowMarkup).flatten ++ ascii "</table>"

/-- A node and its descendants in document order, down to the given depth. -/
def preorder (d : NodeHeap) : Nat → NodeId → List NodeId
  | 0, n => [n]
  | depth + 1, n => n :: (children d n).flatMap (preorder d depth)

/-- The elements with a tag among a node and its descendants. -/
def elementsByTag (d : NodeHeap) (n : NodeId) (tag : Bytes) : List NodeId :=
  (preorder d d.size n).filter fun x => (d.node x).tag = some tag

/-- The text of all text nodes below a node. -/
def textContent (d : NodeHeap) (n : NodeId) : Bytes :=
  ((preorder d d.size n).filter fun x => (d.node x).type = .textNode).flatMap fun x =>
    (d.node x).text.getD []

/-- The document has one table; its rows are those of the markup in order, and
the children of each row are its cells in order, each with its own text. -/
def BuildsTable (s : TreeBuilder) (rows : List (List Bytes)) : Prop :=
  ∃ table, elementsByTag s.heap s.root (ascii "table") = [table] ∧
    (elementsByTag s.heap table (ascii "tr")).map
        (fun tr => (children s.heap tr).map fun c => (s.tag c, textContent s.heap c)) =
      rows.map fun cells => cells.map fun text => (some (ascii "td"), text)

/-- A text that the markup can hold as it is. -/
def CellText (text : Bytes) : Prop :=
  text ≠ [] ∧ 60 ∉ text ∧ 38 ∉ text

/-! ## Fresh nodes -/

/-- One node `m` has been allocated and hangs under `p`; nothing else has moved. -/
structure AddsNode (d d' : NodeHeap) (p : NodeId) (m : MiniNode) : Prop where
  size : d'.size = d.size + 1
  parent : ∀ x, d'.parentOf x = if x = d.size then some p else d.parentOf x
  bare : ∀ x, (d'.node x).bare = if x = d.size then m.bare else (d.node x).bare

theorem orphan_alloc (d : NodeHeap) {m : MiniNode} (hm : TreeInv.Plain m) :
    ((d.alloc m).node d.size).parent = none := by
  rw [NodeHeap.alloc_node, if_pos rfl, ← hm.bare]
  rfl

theorem addsNode_append (d : NodeHeap) {m : MiniNode} (hm : TreeInv.Plain m) (p : NodeId) :
    AddsNode d (miniNodeAppendChild (d.alloc m) (some p) (some d.size)).2 p m := by
  rw [appendChild_eq_linkLast (by rw [NodeHeap.alloc_node, if_pos rfl]; exact hm.type)
    (orphan_alloc d hm)]
  have hsame := SameContent.linkLast (d.alloc m) p d.size
  refine ⟨hsame.1, fun x => ?_, hsame.bare_alloc⟩
  rw [NodeHeap.parentOf, (linkLast_node _ p d.size x).1, NodeHeap.alloc_node]
  split_ifs <;> rfl

theorem addsNode_insert (d : NodeHeap) {m : MiniNode} (hm : TreeInv.Plain m) (p ref : NodeId) :
    AddsNode d (miniNodeInsertBefore (d.alloc m) (some p) (some d.size) (some ref)).2 p m := by
  have heq : (miniNodeInsertBefore (d.alloc m) (some p) (some d.size) (some ref)).2 =
      linkBefore (d.alloc m) p d.size ref := by
    simp [miniNodeInsertBefore, removeFromParent, orphan_alloc d hm]
  rw [heq]
  have hsame := SameContent.linkBefore (d.alloc m) p d.size ref
  refine ⟨hsame.1, fun x => ?_, hsame.bare_alloc⟩
  rw [NodeHeap.parentOf, (linkBefore_node _ p d.size ref x).1, NodeHeap.alloc_node]
  split_ifs <;> rfl

namespace AddsNode

variable {d d' : NodeHeap} {p x : NodeId} {m : MiniNode}

theorem tag_old (h : AddsNode d d' p m) (hx : x ≠ d.size) : (d'.node x).tag = (d.node x).tag :=
  field_of_bare MiniNode.tag ((h.bare x).trans (if_neg hx)) fun _ => rfl

theorem tag_new (h : AddsNode d d' p m) : (d'.node d.size).tag = m.tag :=
  field_of_bare MiniNode.tag ((h.bare d.size).trans (if_pos rfl)) fun _ => rfl

theorem type_old (h : AddsNode d d' p m) (hx : x ≠ d.size) :
    (d'.node x).type = (d.node x).type :=
  field_of_bare MiniNode.type ((h.bare x).trans (if_neg hx)) fun _ => rfl

theorem type_new (h : AddsNode d d' p m) : (d'.node d.size).type = m.type :=
  field_of_bare MiniNode.type ((h.bare d.size).trans (if_pos rfl)) fun _ => rfl

end AddsNode

/-! ## The heap while the table is read -/

/-- In a fresh document the root is node 0, the body 1, html 2 and the head 3; the
table is node 4. -/
structure InTable (s : TreeBuilder) : Prop where
  root : s.root = 0
  foster : s.tableFoster = some 4
  mirrors : Mirrors s.heap (children s.heap)
  tableParent : s.heap.parentOf 4 = some 1
  bodyTag : s.tag 1 = some (ascii "body")
  htmlTag : s.tag 2 = some (ascii "html")
  tableTag : s.tag 4 = some (ascii "table")
  -- no node is the child of a cell
  noTdChild : ∀ x q, s.heap.parentOf x = some q → s.tag q ≠ some (ascii "td")
  textTag : ∀ x < s.heap.size, (s.heap.node x).type = .textNode → s.tag x = none

namespace InTable

variable {s s' : TreeBuilder}

theorem table_lt (h : InTable s) : 4 < s.heap.size :=
  (h.mirrors.allocated 4 1 h.tableParent).1

/-- A fresh node under a node that is no cell. -/
theorem fresh (h : InTable s) {m : MiniNode} {p : NodeId} {d : NodeHeap}
    (hd : AddsNode s.heap d p m) (hmir : Mirrors d (children d)) (hp : p < s.heap.size)
    (htd : s.tag p ≠ some (ascii "td")) (hm : m.type = .textNode → m.tag = none) :
    InTable { s with heap := d } := by
  have htag : ∀ x, x < s.heap.size → (d.node x).tag = s.tag x := fun x hx =>
    hd.tag_old (Nat.ne_of_lt hx)
  have hlt := h.table_lt
  constructor
  case root => exact h.root
  case foster => exact h.foster
  case mirrors => exact hmir
  case tableParent => exact (hd.parent 4).trans ((if_neg (Nat.ne_of_lt hlt)).trans h.tableParent)
  case bodyTag => exact (htag 1 (by lia)).trans h.bodyTag
  case htmlTag => exact (htag 2 (by lia)).trans h.htmlTag
  case tableTag => exact (htag 4 hlt).trans h.tableTag
  case noTdChild =>
    intro x q hq heq
    change d.parentOf x = some q at hq
    change (d.node q).tag = some (ascii "td") at heq
    rw [hd.parent] at hq
    split_ifs at hq with hx
    · obtain rfl := Option.some.inj hq
      exact htd ((htag p hp).symm.trans heq)
    · exact h.noTdChild x q hq ((htag q (h.mirrors.allocated x q hq).2).symm.trans heq)
  case textTag =>
    intro x hx htype
    change (d.node x).type = .textNode at htype
    change (d.node x).tag = none
    by_cases hxs : x = s.heap.size
    · rw [hxs] at htype ⊢
      rw [hd.tag_new]
      exact hm (hd.type_new.symm.trans htype)
    · rw [hd.tag_old hxs]
      refine h.textTag x (Nat.lt_of_le_of_ne (Nat.le_of_lt_succ ?_) hxs)
        ((hd.type_old hxs).symm.trans htype)
      exact Nat.lt_of_lt_of_eq hx hd.size

/-- Only the heap, the table and the root matter. -/
theorem congr (h : InTable s) (hheap : s'.heap = s.heap) (hroot : s'.root = s.root)
    (hfoster : s'.tableFoster = s.tableFoster) : InTable s' := by
  obtain ⟨heap', root', body', stack', afe', mode', head', foster', pending'⟩ := s'
  dsimp only at hheap hroot hfoster
  subst hheap hroot hfoster
  exact { h with }

theorem appendText (h : InTable s) (n : NodeId) (u : Bytes)
    (hmir : Mirrors (Dom.appendText s.heap n u) (children (Dom.appendText s.heap n u))) :
    InTable { s with heap := Dom.appendText s.heap n u } := by
  have htag : ∀ x, ((Dom.appendText s.heap n u).node x).tag = s.tag x := fun x => by
    simp [Dom.appendText, field_modify, TreeBuilder.tag]
  have htype : ∀ x, ((Dom.appendText s.heap n u).node x).type = (s.heap.node x).type := fun x => by
    simp [Dom.appendText, field_modify]
  have hparent : ∀ x, (Dom.appendText s.heap n u).parentOf x = s.heap.parentOf x := fun x => by
    simp [Dom.appendText, field_modify, NodeHeap.parentOf]
  constructor
  case root => exact h.root
  case foster => exact h.foster
  case mirrors => exact hmir
  case tableParent => exact (hparent 4).trans h.tableParent
  case bodyTag => exact (htag 1).trans h.bodyTag
  case htmlTag => exact (htag 2).trans h.htmlTag
  case tableTag => exact (htag 4).trans h.tableTag
  case noTdChild =>
    intro x q hq heq
    exact h.noTdChild x q ((hparent x).symm.trans hq) ((htag q).symm.trans heq)
  case textTag =>
    intro x hx hty
    exact (htag x).trans (h.textTag x hx ((htype x).symm.trans hty))

end InTable

/-! ## The states between the tags -/

/-- The document the table is read into. -/
def tableBase : DocBase :=
  docBase false freshParser.tree (miniHtml5Init_initial miniDocCreate_live)

/-- Inside a row, between two cells: the row is open until its first cell has been
closed. -/
structure CellState (s : TreeBuilder) (own : List NodeId) : Prop where
  inv : TreeInv tableBase s
  table : InTable s
  stack : s.stack = own ++ [4, 1, 2, 2]
  row : own = [] ∨ ∃ tr, own = [tr]
  ownTag : ∀ x ∈ own, s.tag x = some (ascii "tr")
  mode : s.mode = .inRow

/-- Between two rows. -/
structure RowState (s : TreeBuilder) : Prop where
  inv : TreeInv tableBase s
  table : InTable s
  stack : s.stack = [4, 1, 2, 2]
  mode : s.mode = .inTable ∨ s.mode = .inTableBody ∨ s.mode = .inRow

/-- No token of the table is a formatting one, so each of them is safe. -/
theorem TreeInv.processPlain {b : DocBase} {s : TreeBuilder} (h : TreeInv b s)
    (hb : b.strict = false) {t : H5Token} (ht : h5IsFormatting t.name = false) :
    TreeInv b (s.processToken t) := by
  refine (h.processToken ?_).inv
  simp [tokenSafe, inBodyEndSafe, ht, hb]

theorem appendAndPush_eq (s : TreeBuilder) (t : H5Token) :
    s.appendAndPush t = { s with
      heap := (miniNodeAppendChild (s.heap.alloc (TreeInv.elementFor t)) (some s.currentNode)
        (some s.heap.size)).2
      stack := s.heap.size :: s.stack } := by
  unfold TreeBuilder.appendAndPush
  rw [TreeInv.createElementForToken_eq]
  rfl

/-- The tags of the rows of the open stack below the cells. -/
theorem InTable.scope_tr {s : TreeBuilder} (h : InTable s) (hstack : s.stack = [4, 1, 2, 2]) :
    s.hasInScope (ascii "tr") true = false := by
  simp +decide [TreeBuilder.hasInScope, TreeBuilder.hasInScope.loop, hstack, h.tableTag]

/-- `<tr>` between two rows. -/
theorem RowState.startRow {s : TreeBuilder} (h : RowState s) :
    s.processToken { name := ascii "tr" } =
        { s.appendAndPush { name := ascii "tr" } with mode := .inRow } ∧
      CellState (s.processToken { name := ascii "tr" }) [s.heap.size] := by
  have heq : s.processToken { name := ascii "tr" } =
      { s.appendAndPush { name := ascii "tr" } with mode := .inRow } := by
    unfold TreeBuilder.processToken
    rcases h.mode with hm | hm | hm
    · simp only [hm]
      rfl
    · simp only [hm]
      rfl
    · have hclose : s.closeRow = s := by
        rw [TreeBuilder.closeRow, h.table.scope_tr h.stack]
        rfl
      have hrow : s.inRowStart { name := ascii "tr" } =
          s.closeRow.appendAndPush { name := ascii "tr" } := rfl
      simp only [hm]
      change s.inRowStart { name := ascii "tr" } = _
      rw [hrow, hclose, appendAndPush_eq, ← hm]
  have hinv := h.inv.processPlain (t := { name := ascii "tr" }) rfl (by decide)
  refine ⟨heq, ?_⟩
  have hcur : s.currentNode = 4 := by simp [TreeBuilder.currentNode, h.stack]
  have hadd := addsNode_append s.heap (TreeInv.plain_elementFor { name := ascii "tr" }) 4
  rw [heq, appendAndPush_eq, hcur] at hinv ⊢
  have htab := h.table.fresh hadd hinv.heap.mirrors h.table.table_lt
    (by rw [h.table.tableTag]; decide) (by simp [TreeInv.elementFor])
  constructor
  case inv => exact hinv
  case table => exact htab.congr rfl rfl rfl
  case stack => simp [h.stack]
  case row => exact .inr ⟨_, rfl⟩
  case ownTag =>
    intro x hx
    obtain rfl := List.mem_singleton.1 hx
    exact hadd.tag_new
  case mode => rfl

/-- `</tr>` behind the last cell. -/
theorem CellState.endRow {s : TreeBuilder} {own : List NodeId} (h : CellState s own) :
    (s.processToken { type := .endTag, name := ascii "tr" }).heap = s.heap ∧
      RowState (s.processToken { type := .endTag, name := ascii "tr" }) := by
  have heq : s.processToken { type := .endTag, name := ascii "tr" } =
      s.closeInTableScope (ascii "tr") .inTableBody := by
    unfold TreeBuilder.processToken
    simp only [h.mode]
    rfl
  have hinv := h.inv.processPlain (t := { type := .endTag, name := ascii "tr" }) rfl (by decide)
  rw [heq] at hinv ⊢
  rcases h.row with rfl | ⟨tr, rfl⟩
  · have hsame : s.closeInTableScope (ascii "tr") .inTableBody = s := by
      rw [TreeBuilder.closeInTableScope, h.table.scope_tr h.stack]
      rfl
    rw [hsame] at hinv ⊢
    exact ⟨rfl, h.inv, h.table, h.stack, .inr (.inr h.mode)⟩
  · have htag := h.ownTag tr List.mem_cons_self
    have hclose : s.closeInTableScope (ascii "tr") .inTableBody =
        { s with stack := [4, 1, 2, 2], mode := .inTableBody } := by
      simp +decide [TreeBuilder.closeInTableScope, TreeBuilder.hasInScope,
        TreeBuilder.hasInScope.loop, TreeBuilder.popUntil, TreeBuilder.popLoop, h.stack, htag]
    rw [hclose] at hinv ⊢
    exact ⟨rfl, hinv, h.table.congr rfl rfl rfl, rfl, .inr (.inl rfl)⟩

/-! ## Cells -/

/-- Inside the cell `td`. -/
structure InCell (s : TreeBuilder) (td : NodeId) (own : List NodeId) : Prop where
  inv : TreeInv tableBase s
  table : InTable s
  stack : s.stack = td :: (own ++ [4, 1, 2, 2])
  tdTag : s.tag td = some (ascii "td")
  ownTag : ∀ x ∈ own, s.tag x = some (ascii "tr")
  mode : s.mode = .inCell

/-- `<td>` in a row. -/
theorem CellState.startCell {s : TreeBuilder} {own : List NodeId} (h : CellState s own) :
    InCell (s.processToken { name := ascii "td" }) s.heap.size own := by
  have heq : s.processToken { name := ascii "td" } =
      { s.appendAndPush { name := ascii "td" } with mode := .inCell } := by
    unfold TreeBuilder.processToken
    simp only [h.mode]
    rfl
  have hinv := h.inv.processPlain (t := { name := ascii "td" }) rfl (by decide)
  have hcur : s.currentNode ∈ s.stack ∧ s.tag s.currentNode ≠ some (ascii "td") := by
    rcases h.row with rfl | ⟨tr, rfl⟩
    · have hc : s.currentNode = 4 := by simp [TreeBuilder.currentNode, h.stack]
      rw [hc, h.stack, h.table.tableTag]
      exact ⟨by simp, by decide⟩
    · have hc : s.currentNode = tr := by simp [TreeBuilder.currentNode, h.stack]
      rw [hc, h.stack, h.ownTag tr List.mem_cons_self]
      exact ⟨by simp, by decide⟩
  have hadd := addsNode_append s.heap (TreeInv.plain_elementFor { name := ascii "td" })
    s.currentNode
  rw [heq, appendAndPush_eq] at hinv ⊢
  have htab := h.table.fresh hadd hinv.heap.mirrors (h.inv.stack_lt hcur.1).2 hcur.2
    (by simp [TreeInv.elementFor])
  constructor
  case inv => exact hinv
  case table => exact htab.congr rfl rfl rfl
  case stack => simp [h.stack]
  case tdTag => exact hadd.tag_new
  case ownTag =>
    intro x hx
    have hlt := (h.inv.stack_lt (x := x) (by simp [h.stack, hx])).2
    exact (hadd.tag_old (Nat.ne_of_lt hlt)).trans (h.ownTag x hx)
  case mode => rfl

/-- Text in a cell goes in front of the table. -/
theorem InCell.insertText {s : TreeBuilder} {td : NodeId} {own : List NodeId}
    (h : InCell s td own) (u : Bytes) :
    InCell (s.processToken { type := .char, name := u }) td own := by
  have heq : s.processToken { type := .char, name := u } = s.insertChar u := by
    unfold TreeBuilder.processToken
    simp only [h.mode]
    rfl
  have hinv : TreeInv tableBase (s.insertChar u) := (h.inv.insertChar u).inv
  have hcur : s.currentNode = td := by simp [TreeBuilder.currentNode, h.stack]
  have hraw : s.isRawNode s.currentNode = false := by
    simp +decide [TreeBuilder.isRawNode, hcur, h.tdTag]
  have hmodes : s.inTableModes = true := by simp [TreeBuilder.inTableModes, h.mode]
  have hold : ∀ x ∈ td :: own, x < s.heap.size := fun x hx => by
    refine (h.inv.stack_lt (x := x) ?_).2
    rw [h.stack, ← List.cons_append]
    exact List.mem_append_left _ hx
  rw [heq]
  unfold TreeBuilder.insertChar at hinv ⊢
  simp only [hraw, Bool.false_eq_true, if_false, h.table.foster, hmodes, if_true] at hinv ⊢
  split_ifs at hinv ⊢ with hnil hblank
  · exact h
  · exact h
  have hparent : (s.heap.node 4).parent = some 1 := h.table.tableParent
  unfold TreeBuilder.fosterChar at hinv ⊢
  simp only [hparent, Option.getD_some] at hinv ⊢
  split at hinv
  · rename_i tn _
    have htab := h.table.appendText tn u hinv.heap.mirrors
    have htag : ∀ x, ((Dom.appendText s.heap tn u).node x).tag = s.tag x := fun x => by
      simp [Dom.appendText, field_modify, TreeBuilder.tag]
    exact ⟨hinv, htab, h.stack, (htag td).trans h.tdTag,
      fun x hx => (htag x).trans (h.ownTag x hx), h.mode⟩
  · have hadd := addsNode_insert s.heap (TreeInv.plain_text u) 1 4
    have hbody : 1 < s.heap.size := (h.table.mirrors.allocated 4 1 h.table.tableParent).2
    have htab := h.table.fresh hadd hinv.heap.mirrors hbody (by rw [h.table.bodyTag]; decide)
      fun _ => rfl
    have htag : ∀ x ∈ td :: own, _ = s.tag x := fun x hx =>
      hadd.tag_old (Nat.ne_of_lt (hold x hx))
    exact ⟨hinv, htab.congr rfl rfl rfl, h.stack, (htag td List.mem_cons_self).trans h.tdTag,
      fun x hx => (htag x (List.mem_cons_of_mem td hx)).trans (h.ownTag x hx), h.mode⟩

/-- `</td>` closes the cell, and with it the row. -/
theorem InCell.endCell {s : TreeBuilder} {td : NodeId} {own : List NodeId}
    (h : InCell s td own) :
    CellState (s.processToken { type := .endTag, name := ascii "td" }) [] := by
  have heq : s.processToken { type := .endTag, name := ascii "td" } =
      s.inCellEnd { type := .endTag, name := ascii "td" } := by
    unfold TreeBuilder.processToken
    simp only [h.mode]
    rfl
  have hinv := h.inv.processPlain (t := { type := .endTag, name := ascii "td" }) rfl (by decide)
  have himplied : ∀ x ∈ td :: own, s.impliedEnd none x = true := by
    intro x hx
    rcases List.mem_cons.1 hx with rfl | hx
    · simp +decide [TreeBuilder.impliedEnd, h.tdTag]
    · simp +decide [TreeBuilder.impliedEnd, h.ownTag x hx]
  have htable : s.impliedEnd none 4 = false := by
    simp +decide [TreeBuilder.impliedEnd, h.table.tableTag]
  have hgen : s.genImpliedEnd none = { s with stack := [4, 1, 2, 2] } := by
    rw [TreeBuilder.genImpliedEnd, h.stack, ← List.cons_append,
      List.dropWhile_append_of_pos himplied, List.dropWhile_cons_of_neg (by simp [htable])]
  have hpop : ({ s with stack := [4, 1, 2, 2] } : TreeBuilder).popUntil (ascii "td") =
      { s with stack := [4, 1, 2, 2] } := by
    have h₄ := h.table.tableTag
    have h₁ := h.table.bodyTag
    have h₂ := h.table.htmlTag
    unfold TreeBuilder.tag at h₄ h₁ h₂
    simp +decide [TreeBuilder.popUntil, TreeBuilder.tag, h₄, h₁, h₂]
  have hscope : s.hasInScope (ascii "td") true = true := by
    simp +decide [TreeBuilder.hasInScope, TreeBuilder.hasInScope.loop, h.stack, h.tdTag]
  have hend : s.inCellEnd { type := .endTag, name := ascii "td" } =
      { s with stack := [4, 1, 2, 2], mode := .inRow } := by
    have hcase : s.inCellEnd { type := .endTag, name := ascii "td" } =
        if s.hasInScope (ascii "td") true then
          { (s.genImpliedEnd none).popUntil (ascii "td") with mode := .inRow } else s := rfl
    rw [hcase, if_pos hscope, hgen, hpop]
  rw [heq, hend] at hinv ⊢
  exact ⟨hinv, h.table.congr rfl rfl rfl, rfl, .inl rfl, by simp, rfl⟩

/-! ## The markup is read tag by tag -/

theorem tagName_td : TagName (ascii "td") :=
  ⟨by decide, forall_mem_ascii (by decide), by decide⟩

theorem tagName_tr : TagName (ascii "tr") :=
  ⟨by decide, forall_mem_ascii (by decide), by decide⟩

theorem tagName_table : TagName (ascii "table") :=
  ⟨by decide, forall_mem_ascii (by decide), by decide⟩

theorem plainCurrent_of_tag {s : TreeBuilder} {x : NodeId} {rest : List NodeId} {tag : Bytes}
    (hstack : s.stack = x :: rest) (htag : s.tag x = some tag)
    (hplain : h5IsRawtext tag = false ∧ h5IsRcdata tag = false) :
    Parser.plainCurrent s = true := by
  have hcur : s.currentNode = x := by simp [TreeBuilder.currentNode, hstack]
  simp [Parser.plainCurrent, hcur, htag, hplain]

theorem run_cell {s : TreeBuilder} {own : List NodeId} (h : CellState s own) {text : Bytes}
    (ht : CellText text) (rest : Bytes) :
    ∃ s', CellState s' [] ∧
      (dataParser s).run (cellMarkup text ++ rest) = (dataParser s').run rest := by
  have hstart := h.startCell
  have hin := hstart.insertText (cstr text)
  refine ⟨_, hin.endCell, ?_⟩
  have hbytes : cellMarkup text ++ rest =
      60 :: (ascii "td" ++ 62 :: (text ++ 60 :: 47 :: (ascii "td" ++ 62 :: rest))) := by
    have hopen : ascii "<td>" = 60 :: (ascii "td" ++ [62]) := by decide
    have hclose : ascii "</td>" = 60 :: 47 :: (ascii "td" ++ [62]) := by decide
    simp [cellMarkup, hopen, hclose]
  rw [hbytes, Parser.run_startTag tagName_td
    (plainCurrent_of_tag hstart.stack hstart.tdTag (by decide)),
    Parser.run_text ht.1 ht.2.1 ht.2.2, Parser.run_endTag tagName_td]

theorem run_cells {cells : List Bytes} (hcells : ∀ text ∈ cells, CellText text)
    {s : TreeBuilder} {own : List NodeId} (h : CellState s own) (rest : Bytes) :
    ∃ s' own', CellState s' own' ∧
      (dataParser s).run ((cells.map cellMarkup).flatten ++ rest) = (dataParser s').run rest := by
  induction cells generalizing s own with
  | nil => exact ⟨s, own, h, rfl⟩
  | cons text cells ih =>
    obtain ⟨s₁, h₁, hrun⟩ := run_cell h (hcells text List.mem_cons_self)
      ((cells.map cellMarkup).flatten ++ rest)
    obtain ⟨s₂, own₂, h₂, hrun₂⟩ := ih (fun x hx => hcells x (List.mem_cons_of_mem text hx)) h₁
    refine ⟨s₂, own₂, h₂, ?_⟩
    rw [List.map_cons, List.flatten_cons, List.append_assoc, hrun, hrun₂]

theorem rowMarkup_append (cells : List Bytes) (rest : Bytes) :
    rowMarkup cells ++ rest = 60 :: (ascii "tr" ++ 62 ::
      ((cells.map cellMarkup).flatten ++ 60 :: 47 :: (ascii "tr" ++ 62 :: rest))) := by
  have hopen : ascii "<tr>" = 60 :: (ascii "tr" ++ [62]) := by decide
  have hclose : ascii "</tr>" = 60 :: 47 :: (ascii "tr" ++ [62]) := by decide
  simp [rowMarkup, hopen, hclose]

theorem run_row {s : TreeBuilder} (h : RowState s) {cells : List Bytes}
    (hcells : ∀ text ∈ cells, CellText text) (rest : Bytes) :
    ∃ s', RowState s' ∧
      (dataParser s).run (rowMarkup cells ++ rest) = (dataParser s').run rest := by
  obtain ⟨-, hstart⟩ := h.startRow
  obtain ⟨s₁, own₁, h₁, hrun⟩ := run_cells hcells hstart
    (60 :: 47 :: (ascii "tr" ++ 62 :: rest))
  refine ⟨_, h₁.endRow.2, ?_⟩
  rw [rowMarkup_append, Parser.run_startTag tagName_tr
    (plainCurrent_of_tag hstart.stack (hstart.ownTag _ List.mem_cons_self) (by decide)), hrun,
    Parser.run_endTag tagName_tr]

theorem run_rows {rows : List (List Bytes)} (hrows : ∀ cells ∈ rows, ∀ text ∈ cells, CellText text)
    {s : TreeBuilder} (h : RowState s) (rest : Bytes) :
    ∃ s', RowState s' ∧
      (dataParser s).run ((rows.map rowMarkup).flatten ++ rest) = (dataParser s').run rest := by
  induction rows generalizing s with
  | nil => exact ⟨s, h, rfl⟩
  | cons cells rows ih =>
    obtain ⟨s₁, h₁, hrun⟩ := run_row h (hrows cells List.mem_cons_self)
      ((rows.map rowMarkup).flatten ++ rest)
    obtain ⟨s₂, h₂, hrun₂⟩ := ih (fun x hx => hrows x (List.mem_cons_of_mem cells hx)) h₁
    refine ⟨s₂, h₂, ?_⟩
    rw [List.map_cons, List.flatten_cons, List.append_assoc, hrun, hrun₂]

/-- `</table>` leaves the heap alone in every mode a row ends in. -/
theorem RowState.endTable {s : TreeBuilder} (h : RowState s) :
    (s.processToken { type := .endTag, name := ascii "table" }).heap = s.heap ∧
      (s.processToken { type := .endTag, name := ascii "table" }).root = s.root := by
  have htable : (s.inTableEnd { type := .endTag, name := ascii "table" }).heap = s.heap ∧
      (s.inTableEnd { type := .endTag, name := ascii "table" }).root = s.root := by
    have heq : s.inTableEnd { type := .endTag, name := ascii "table" } =
        if s.hasInScope (ascii "table") true then
          { s.popUntil (ascii "table") with tableFoster := none, mode := .inBody } else s := rfl
    have hpop : (s.popUntil (ascii "table")).heap = s.heap ∧
        (s.popUntil (ascii "table")).root = s.root := by
      unfold TreeBuilder.popUntil
      split_ifs <;> exact ⟨rfl, rfl⟩
    rw [heq]
    split_ifs
    · exact hpop
    · exact ⟨rfl, rfl⟩
  unfold TreeBuilder.processToken
  rcases h.mode with hm | hm | hm
  · simp only [hm]
    exact htable
  · simp only [hm]
    exact ⟨rfl, rfl⟩
  · simp only [hm]
    exact htable

/-- The state behind `<table>`. -/
def tableOpened : TreeBuilder :=
  freshParser.tree.processToken { name := ascii "table" }

theorem tableOpened_rowState : RowState tableOpened := by
  have hinit := miniHtml5Init_initial miniDocCreate_live
  have hinv : TreeInv tableBase tableOpened :=
    (hinit.treeInv false).processPlain (t := { name := ascii "table" }) rfl (by decide)
  obtain ⟨hsize, hroot, hfoster, hparent, hstack, hmode⟩ :
      tableOpened.heap.size = 5 ∧ tableOpened.root = 0 ∧ tableOpened.tableFoster = some 4 ∧
        tableOpened.heap.parentOf 4 = some 1 ∧ tableOpened.stack = [4, 1, 2, 2] ∧
        tableOpened.mode = .inTable := by
    decide
  obtain ⟨hbody, hhtml, htable, hparents, htypes⟩ :
      tableOpened.tag 1 = some (ascii "body") ∧ tableOpened.tag 2 = some (ascii "html") ∧
        tableOpened.tag 4 = some (ascii "table") ∧
        (∀ x < 5, ∀ q ∈ tableOpened.heap.parentOf x, tableOpened.tag q ≠ some (ascii "td")) ∧
        ∀ x < 5, (tableOpened.heap.node x).type = .textNode → tableOpened.tag x = none := by
    decide
  refine ⟨hinv, ?_, hstack, .inl hmode⟩
  constructor
  case root => exact hroot
  case foster => exact hfoster
  case mirrors => exact hinv.heap.mirrors
  case tableParent => exact hparent
  case bodyTag => exact hbody
  case htmlTag => exact hhtml
  case tableTag => exact htable
  case noTdChild =>
    exact fun x q hq => hparents x (hsize ▸ (hinv.heap.mirrors.allocated x q hq).1) q hq
  case textTag => exact fun x hx => htypes x (hsize ▸ hx)

/-! ## Feeding the whole table -/

theorem refTail_of_not_mem {buf : Bytes} (h : 38 ∉ buf) (tail : Bytes) :
    Parser.refTail buf tail = [] := by
  induction buf generalizing tail with
  | nil => rfl
  | cons c buf ih =>
    rw [List.mem_cons, not_or] at h
    rw [Parser.refTail, if_neg (Ne.symm h.1)]
    split_ifs
    · rfl
    · exact ih h.2 _

/-- Markup without references that is read back to `TS_DATA` is parsed by one
run. -/
theorem parse_of_run {s s' : TreeBuilder} {markup : Bytes} (hne : markup ≠ [])
    (href : 38 ∉ markup) (hrun : (dataParser s).run markup = dataParser s') :
    (parseChunks processId (dataParser s) [markup]).tree = s' := by
  have hfeed : (dataParser s).miniHtml5Feed processId markup = dataParser s' := by
    have htail : Parser.carryoverTail .data markup = [] :=
      refTail_of_not_mem (by simpa using href) []
    have hwork : (dataParser s).tokenizeRun processId ([] ++ markup) = dataParser s' := hrun
    unfold Parser.miniHtml5Feed
    rw [if_neg hne]
    change ({ (dataParser s).tokenizeRun processId ([] ++ markup) with
      carry := Parser.carryoverTail ((dataParser s).tokenizeRun processId ([] ++ markup)).ts
        ([] ++ markup) } : Parser) = dataParser s'
    rw [hwork, List.nil_append]
    change ({ dataParser s' with carry := Parser.carryoverTail .data markup } : Parser) = _
    rw [htail]
    rfl
  change (Parser.miniHtml5Finish ((dataParser s).miniHtml5Feed processId markup) processId).tree = s'
  rw [hfeed]
  rfl

theorem not_ref_mem_tableMarkup {rows : List (List Bytes)}
    (hrows : ∀ cells ∈ rows, ∀ text ∈ cells, CellText text) : 38 ∉ tableMarkup rows := by
  have hcell : ∀ text, CellText text → 38 ∉ cellMarkup text := fun text ht => by
    have h₁ : 38 ∉ ascii "<td>" := by decide
    have h₂ : 38 ∉ ascii "</td>" := by decide
    simp [cellMarkup, h₁, h₂, ht.2.2]
  have hrow : ∀ cells, (∀ text ∈ cells, CellText text) → 38 ∉ rowMarkup cells := fun cells hc => by
    have h₁ : 38 ∉ ascii "<tr>" := by decide
    have h₂ : 38 ∉ ascii "</tr>" := by decide
    simp only [rowMarkup, List.mem_append, h₁, h₂, List.mem_flatten, List.mem_map, false_or,
      or_false]
    rintro ⟨_, ⟨text, ht, rfl⟩, hmem⟩
    exact hcell text (hc text ht) hmem
  have h₁ : 38 ∉ ascii "<table>" := by decide
  have h₂ : 38 ∉ ascii "</table>" := by decide
  simp only [tableMarkup, List.mem_append, h₁, h₂, List.mem_flatten, List.mem_map, false_or,
    or_false]
  rintro ⟨_, ⟨cells, hc, rfl⟩, hmem⟩
  exact hrow cells (hrows cells hc) hmem

/-- The bytes of a whole table. -/
theorem tableMarkup_eq (rows : List (List Bytes)) :
    tableMarkup rows = 60 :: (ascii "table" ++ 62 ::
      ((rows.map rowMarkup).flatten ++ 60 :: 47 :: (ascii "table" ++ 62 :: []))) := by
  have hopen : ascii "<table>" = 60 :: (ascii "table" ++ [62]) := by decide
  have hclose : ascii "</table>" = 60 :: 47 :: (ascii "table" ++ [62]) := by decide
  simp [tableMarkup, hopen, hclose]

/-- A parse of the table from the rows it reads. -/
theorem parse_table {rows : List (List Bytes)}
    (hrows : ∀ cells ∈ rows, ∀ text ∈ cells, CellText text) {s : TreeBuilder}
    (hrun : (dataParser tableOpened).run ((rows.map rowMarkup).flatten ++
        60 :: 47 :: (ascii "table" ++ 62 :: [])) =
      (dataParser s).run (60 :: 47 :: (ascii "table" ++ 62 :: []))) :
    (parseChunks processId freshParser [tableMarkup rows]).tree =
      s.processToken { type := .endTag, name := ascii "table" } := by
  have hopened := tableOpened_rowState
  have hplain : Parser.plainCurrent tableOpened = true :=
    plainCurrent_of_tag hopened.stack hopened.table.tableTag (by decide)
  have hfresh : freshParser = dataParser freshParser.tree := miniHtml5Init_eq _ _ _
  rw [hfresh]
  refine parse_of_run ?_ (not_ref_mem_tableMarkup hrows) ?_
  · rw [tableMarkup_eq]
    simp
  · rw [tableMarkup_eq, Parser.run_startTag tagName_table hplain]
    change (dataParser tableOpened).run _ = _
    rw [hrun, Parser.run_endTag tagName_table, Parser.run_nil]

/-! ## Rows with cells -/

theorem preorder_of_leaf {d : NodeHeap} {n : NodeId} (h : children d n = []) (depth : Nat) :
    preorder d depth n = [n] := by
  cases depth with
  | zero => rfl
  | succ depth => simp [preorder, h]

/-- A cell has no text in it. -/
theorem InTable.textContent_td {s : TreeBuilder} (h : InTable s) {x : NodeId}
    (hx : x < s.heap.size) (htag : s.tag x = some (ascii "td")) : textContent s.heap x = [] := by
  have hleaf : children s.heap x = [] := by
    rw [List.eq_nil_iff_forall_not_mem]
    exact fun c hc => h.noTdChild c x (h.mirrors.parent x c hc) htag
  have htype : (s.heap.node x).type ≠ .textNode := fun ht => by
    rw [h.textTag x hx ht] at htag
    cases htag
  simp [textContent, preorder_of_leaf hleaf, htype]

/-- A table with a cell is not built. -/
theorem not_buildsTable {rows : List (List Bytes)}
    (hrows : ∀ cells ∈ rows, ∀ text ∈ cells, CellText text) {cells : List Bytes}
    (hcells : cells ∈ rows) (hne : cells ≠ []) :
    ¬ BuildsTable (parseChunks processId freshParser [tableMarkup rows]).tree rows := by
  obtain ⟨s, h, hrun⟩ := run_rows hrows tableOpened_rowState
    (60 :: 47 :: (ascii "table" ++ 62 :: []))
  rintro ⟨table, -, htable⟩
  rw [parse_table hrows hrun] at htable
  obtain ⟨hheap, -⟩ := h.endTable
  unfold TreeBuilder.tag at htable
  rw [hheap] at htable
  obtain ⟨text, ht⟩ := List.exists_mem_of_ne_nil cells hne
  -- the row of the markup is the list of children of some `tr` of the document
  have hmem : cells.map (fun text => (some (ascii "td"), text)) ∈
      rows.map fun cells => cells.map fun text => (some (ascii "td"), text) :=
    List.mem_map_of_mem hcells
  rw [← htable] at hmem
  obtain ⟨tr, -, hkids⟩ := List.mem_map.1 hmem
  have hcell : (some (ascii "td"), text) ∈
      cells.map fun text => (some (ascii "td"), text) := List.mem_map_of_mem ht
  rw [← hkids] at hcell
  obtain ⟨c, hc, hpair⟩ := List.mem_map.1 hcell
  obtain ⟨htag, htext⟩ := Prod.mk.inj hpair
  rw [h.table.textContent_td (h.table.mirrors.child_lt hc) htag] at htext
  exact (hrows cells hcells text ht).1 htext.symm

/-! ## Rows without cells -/

/-- The whole document after `n` empty rows. -/
structure EmptyRows (s : TreeBuilder) (n : Nat) : Prop where
  row : RowState s
  size : s.heap.size = 5 + n
  rootKids : children s.heap 0 = [2]
  htmlKids : children s.heap 2 = [3, 1]
  bodyKids : children s.heap 1 = [4]
  tableKids : children s.heap 4 = List.range' 5 n
  leaf : ∀ x, x = 3 ∨ 5 ≤ x → children s.heap x = []
  rootTag : s.tag 0 ≠ some (ascii "table")
  headTag : s.tag 3 ≠ some (ascii "table")
  rowTag : ∀ x ∈ List.range' 5 n, s.tag x = some (ascii "tr")

theorem tableOpened_emptyRows : EmptyRows tableOpened 0 := by
  have hrow := tableOpened_rowState
  obtain ⟨hsize, hroot, hhtml, hbody, htable, hhead, hrootTag, hheadTag⟩ :
      tableOpened.heap.size = 5 ∧ children tableOpened.heap 0 = [2] ∧
        children tableOpened.heap 2 = [3, 1] ∧ children tableOpened.heap 1 = [4] ∧
        children tableOpened.heap 4 = [] ∧ children tableOpened.heap 3 = [] ∧
        tableOpened.tag 0 ≠ some (ascii "table") ∧ tableOpened.tag 3 ≠ some (ascii "table") := by
    decide
  refine ⟨hrow, hsize, hroot, hhtml, hbody, htable, fun x hx => ?_, hrootTag, hheadTag, by simp⟩
  rcases hx with rfl | hx
  · exact hhead
  · exact hrow.table.mirrors.kids_of_unallocated (hsize ▸ hx)

/-- The child lists after a fresh node has been appended. -/
theorem children_append_alloc {d : NodeHeap} (h : Mirrors d (children d)) {m : MiniNode}
    (hm : TreeInv.Plain m) {p : NodeId} (hp : p < d.size) :
    children (miniNodeAppendChild (d.alloc m) (some p) (some d.size)).2 =
      Function.update (children d) p (children d p ++ [d.size]) := by
  have hmir := h.alloc hm.bare
  have hty : ((d.alloc m).node d.size).type ≠ .documentFragmentNode := by
    rw [NodeHeap.alloc_node, if_pos rfl]
    exact hm.type
  have hun : ∀ q, d.size ∉ children d q := fun q hmem => Nat.lt_irrefl _ (h.child_lt hmem)
  have hnew := hmir.appendPlain (hmir.removable_of_type hty) (Nat.lt_succ_self _)
    (Nat.lt_succ_of_lt hp)
  rw [appendChild_eq hty, hnew.children_eq, Mirrors.dropKid_of_unlisted hun, addKid]

theorem EmptyRows.next {s : TreeBuilder} {n : Nat} (h : EmptyRows s n) :
    EmptyRows ((s.processToken { name := ascii "tr" }).processToken
      { type := .endTag, name := ascii "tr" }) (n + 1) := by
  obtain ⟨heq, hcell⟩ := h.row.startRow
  obtain ⟨hheap, hrow⟩ := hcell.endRow
  have hcur : s.currentNode = 4 := by simp [TreeBuilder.currentNode, h.row.stack]
  have hlt := h.row.table.table_lt
  have hd : ((s.processToken { name := ascii "tr" }).processToken
      { type := .endTag, name := ascii "tr" }).heap =
      (miniNodeAppendChild (s.heap.alloc (TreeInv.elementFor { name := ascii "tr" })) (some 4)
        (some s.heap.size)).2 := by
    rw [hheap, heq, appendAndPush_eq, hcur]
  have hplain := TreeInv.plain_elementFor { name := ascii "tr" }
  have hadd := addsNode_append s.heap hplain 4
  have hkids := children_append_alloc h.row.table.mirrors hplain hlt
  rw [← hd] at hadd hkids
  have hother : ∀ q, q ≠ 4 → children ((s.processToken { name := ascii "tr" }).processToken
      { type := .endTag, name := ascii "tr" }).heap q = children s.heap q := fun q hq => by
    rw [hkids, Function.update_of_ne hq]
  have htag : ∀ x, x < s.heap.size → ((s.processToken { name := ascii "tr" }).processToken
      { type := .endTag, name := ascii "tr" }).tag x = s.tag x := fun x hx =>
    hadd.tag_old (Nat.ne_of_lt hx)
  constructor
  case row => exact hrow
  case size => rw [hadd.size, h.size, Nat.add_assoc]
  case rootKids => exact (hother 0 (by decide)).trans h.rootKids
  case htmlKids => exact (hother 2 (by decide)).trans h.htmlKids
  case bodyKids => exact (hother 1 (by decide)).trans h.bodyKids
  case tableKids =>
    rw [hkids, Function.update_self, h.tableKids, h.size, List.range'_1_concat]
  case leaf =>
    intro x hx
    rw [hother x (by rintro rfl; exact absurd hx (by decide))]
    exact h.leaf x hx
  case rootTag =>
    rw [htag 0 (by lia)]
    exact h.rootTag
  case headTag =>
    rw [htag 3 (by lia)]
    exact h.headTag
  case rowTag =>
    intro x hx
    rw [List.range'_1_concat, List.mem_append, List.mem_singleton] at hx
    rcases hx with hx | rfl
    · rw [htag x (by
        have hx' := List.mem_range'_1.1 hx
        rw [h.size]
        exact hx'.2)]
      exact h.rowTag x hx
    · rw [← h.size]
      exact hadd.tag_new

theorem run_emptyRows {rows : List (List Bytes)} (hrows : ∀ cells ∈ rows, cells = [])
    {s : TreeBuilder} {n : Nat} (h : EmptyRows s n) (rest : Bytes) :
    ∃ s', EmptyRows s' (n + rows.length) ∧
      (dataParser s).run ((rows.map rowMarkup).flatten ++ rest) = (dataParser s').run rest := by
  induction rows generalizing s n with
  | nil => exact ⟨s, h, rfl⟩
  | cons cells rows ih =>
    obtain rfl := hrows cells List.mem_cons_self
    obtain ⟨-, hcell⟩ := h.row.startRow
    obtain ⟨s', h', hrun⟩ := ih (fun x hx => hrows x (List.mem_cons_of_mem [] hx)) h.next
    refine ⟨s', by rwa [List.length_cons, Nat.add_comm rows.length, ← Nat.add_assoc], ?_⟩
    rw [List.map_cons, List.flatten_cons, List.append_assoc, rowMarkup_append,
      Parser.run_startTag tagName_tr (plainCurrent_of_tag hcell.stack
        (hcell.ownTag _ List.mem_cons_self) (by decide)), List.map_nil, List.flatten_nil,
      List.nil_append, Parser.run_endTag tagName_tr, hrun]

/-- The document of `n` empty rows, in order. -/
theorem EmptyRows.preorder_root {s : TreeBuilder} {n : Nat} (h : EmptyRows s n) :
    preorder s.heap s.heap.size 0 = [0, 2, 3, 1, 4] ++ List.range' 5 n ∧
      preorder s.heap s.heap.size 4 = 4 :: List.range' 5 n := by
  have hrows : ∀ depth, (List.range' 5 n).flatMap (preorder s.heap depth) = List.range' 5 n := by
    intro depth
    have hleaf : ∀ x ∈ List.range' 5 n, preorder s.heap depth x = [x] := fun x hx =>
      preorder_of_leaf (h.leaf x (.inr (List.mem_range'_1.1 hx).1)) depth
    rw [List.flatMap_congr hleaf, List.flatMap_singleton']
  have htable : ∀ depth, preorder s.heap (depth + 1) 4 = 4 :: List.range' 5 n := fun depth => by
    rw [preorder, h.tableKids, hrows]
  have hsize : s.heap.size = n + 1 + 1 + 1 + 1 + 1 := by
    rw [h.size]
    omega
  rw [hsize]
  refine ⟨?_, htable _⟩
  rw [preorder, h.rootKids, List.flatMap_singleton, preorder, h.htmlKids, List.flatMap_cons,
    List.flatMap_singleton, preorder_of_leaf (h.leaf 3 (.inl rfl)), preorder, h.bodyKids,
    List.flatMap_singleton, htable]
  rfl

theorem EmptyRows.buildsTable {s : TreeBuilder} {n : Nat} (h : EmptyRows s n) {s' : TreeBuilder}
    (hheap : s'.heap = s.heap) (hroot : s'.root = s.root) {rows : List (List Bytes)}
    (hlen : rows.length = n) (hrows : ∀ cells ∈ rows, cells = []) : BuildsTable s' rows := by
  obtain ⟨hall, htable⟩ := h.preorder_root
  have hno : ∀ x ∈ List.range' 5 n, ¬ (s.heap.node x).tag = some (ascii "table") := fun x hx => by
    have htag : (s.heap.node x).tag = some (ascii "tr") := h.rowTag x hx
    rw [htag]
    decide
  have htag₀ : (s.heap.node 0).tag ≠ some (ascii "table") := h.rootTag
  have htag₁ : (s.heap.node 1).tag = some (ascii "body") := h.row.table.bodyTag
  have htag₂ : (s.heap.node 2).tag = some (ascii "html") := h.row.table.htmlTag
  have htag₃ : (s.heap.node 3).tag ≠ some (ascii "table") := h.headTag
  have htag₄ : (s.heap.node 4).tag = some (ascii "table") := h.row.table.tableTag
  refine ⟨4, ?_, ?_⟩
  · have hnone : (List.range' 5 n).filter
        (fun x => (s.heap.node x).tag = some (ascii "table")) = [] :=
      List.filter_eq_nil_iff.2 fun x hx => by simpa using hno x hx
    rw [elementsByTag, hheap, hroot, h.row.table.root, hall, List.filter_append, hnone]
    simp +decide [htag₀, htag₁, htag₂, htag₃, htag₄]
  · have htr : elementsByTag s.heap 4 (ascii "tr") = List.range' 5 n := by
      rw [elementsByTag, htable, List.filter_cons_of_neg (by rw [htag₄]; decide)]
      exact List.filter_eq_self.2 fun x hx => decide_eq_true (h.rowTag x hx)
    have hleft : (List.range' 5 n).map (fun tr => (children s.heap tr).map fun c =>
        ((s.heap.node c).tag, textContent s.heap c)) = List.replicate n [] := by
      have hconst : ∀ x ∈ List.range' 5 n, ((children s.heap x).map fun c =>
          ((s.heap.node c).tag, textContent s.heap c)) = [] := fun x hx => by
        rw [h.leaf x (.inr (List.mem_range'_1.1 hx).1), List.map_nil]
      rw [List.map_congr_left hconst, List.map_const', List.length_range']
    have hright : (rows.map fun cells => cells.map fun text => (some (ascii "td"), text)) =
        List.replicate n [] := by
      have hconst : ∀ cells ∈ rows, (cells.map fun text => (some (ascii "td"), text)) = [] :=
        fun cells hc => by rw [hrows cells hc, List.map_nil]
      rw [List.map_congr_left hconst, List.map_const', hlen]
    unfold TreeBuilder.tag
    rw [hheap, htr, hright, ← hleft]

/-! ## The result -/

/-- The table of the markup is built exactly when no row has a cell. -/
theorem buildsTable_iff {rows : List (List Bytes)}
    (hrows : ∀ cells ∈ rows, ∀ text ∈ cells, CellText text) :
    BuildsTable (parseChunks processId freshParser [tableMarkup rows]).tree rows ↔
      ∀ cells ∈ rows, cells = [] := by
  refine ⟨fun hbuilds cells hcells => ?_, fun hempty => ?_⟩
  · exact Classical.not_not.1 fun hne => not_buildsTable hrows hcells hne hbuilds
  · obtain ⟨s, h, hrun⟩ := run_emptyRows hempty tableOpened_emptyRows
      (60 :: 47 :: (ascii "table" ++ 62 :: []))
    obtain ⟨hheap, hroot⟩ := h.row.endTable
    rw [parse_table hrows hrun]
    exact h.buildsTable hheap hroot (Nat.zero_add _).symm hempty

theorem buildsTable_iff_twoRows :
    BuildsTable (parseChunks processId freshParser [tableMarkup [[], []]]).tree [[], []] :=
  (buildsTable_iff (by simp)).2 (by simp)

/-- `<table><tr><td>x</td></tr></table>`: the text ends up in front of the table. -/
theorem oneCell_not_built :
    ¬ BuildsTable (parseChunks processId freshParser [tableMarkup [[ascii "x"]]]).tree
      [[ascii "x"]] := by
  refine not_buildsTable (fun cells hc text ht => ?_) (List.mem_cons_self (a := [ascii "x"]))
    (List.cons_ne_nil _ _)
  obtain rfl := List.mem_singleton.1 hc
  obtain rfl := List.mem_singleton.1 ht
  exact ⟨by decide, by decide, by decide⟩

end TinyFramework.Html5
