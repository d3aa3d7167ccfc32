/-
  Html5/TreeBuilder.lean --- the tree construction of `mini_html5.c`: the
  open-elements stack, the active-formatting list, insertion, the adoption
  agency, and the insertion modes.

  The stack is kept top first; `openAt` reads it by the source's index, which
  counts from the bottom.  The list of active formatting elements is kept in
  array order.  A token's name is never NULL here: every caller of
  `process_token` sets it.
-/
import TinyFramework.Dom.Node
import TinyFramework.Html5.Elements

set_option autoImplicit false

namespace TinyFramework.Html5

open TinyFramework.Foundation TinyFramework.Dom

/-! ## State -/

/-- `H5TokType`. -/
inductive H5TokType where
  | start
  | endTag
  | char
  | comment
  | doctype
  | eof
  deriving DecidableEq, Repr

/-- `H5Token`; a NULL name is the empty one. -/
structure H5Token where
  type : H5TokType := .start
  name : Bytes := []
  attrs : List (Bytes × Bytes) := []
  isSelfClosing : Bool := false
  deriving DecidableEq, Repr

/-- `H5Mode`. -/
inductive H5Mode where
  | initial
  | beforeHtml
  | beforeHead
  | inHead
  | afterHead
  | inBody
  | inTable
  | inTableBody
  | inRow
  | inCell
  | inSelect
  | afterBody
  | afterAfterBody
  deriving DecidableEq, Repr

/-- `AFEEntry`: a marker, or a node. -/
inductive AFEEntry where
  | marker
  | node (n : NodeId)
  deriving DecidableEq, Repr

/-- The tree-construction part of `MiniHtml5Parser`, with the heap it works on
and the fields of its document. -/
structure TreeBuilder where
  heap : NodeHeap
  root : NodeId
  body : Option NodeId
  /-- `open`, the top first. -/
  stack : List NodeId := []
  afe : List AFEEntry := []
  mode : H5Mode := .initial
  headElement : Option NodeId := none
  tableFoster : Option NodeId := none
  pendingTextTail : Option NodeId := none

namespace TreeBuilder

variable (s : TreeBuilder)

/-! ## The open-elements stack -/

/-- The tag of a node. -/
def tag (n : NodeId) : Option Bytes := (s.heap.node n).tag

/-- `current_node`. -/
def currentNode : NodeId := s.stack.head?.getD s.root

/-- `open_push`. -/
def openPush (n : NodeId) : TreeBuilder := { s with stack := n :: s.stack }

/-- `open_pop`, the result unused. -/
def openPop : TreeBuilder := { s with stack := s.stack.tail }

/-- `p->open[i]`. -/
def openAt (i : Nat) : Option NodeId :=
  if i < s.stack.length then s.stack[s.stack.length - 1 - i]? else none

/-- `p->open[i] = n`. -/
def setOpen (i : Nat) (n : NodeId) : TreeBuilder :=
  { s with stack := s.stack.set (s.stack.length - 1 - i) n }

/-- `open_index`; `none` is -1. -/
def openIndex (n : NodeId) : Option Nat :=
  (s.stack.idxOf? n).map fun k => s.stack.length - 1 - k

/-- `open_remove`: the topmost occurrence goes. -/
def openRemove (n : NodeId) : TreeBuilder := { s with stack := s.stack.erase n }

/-- `while (open_n) { n = open_pop(); if (stop n) break; }` -/
def popLoop (stop : NodeId → Bool) : TreeBuilder :=
  { s with stack := (s.stack.dropWhile fun n => !stop n).tail }

/-- `pop_until`. -/
def popUntil (t : Bytes) : TreeBuilder :=
  if s.stack.any fun n => tagIs (s.tag n) t then s.popLoop fun n => tagIs (s.tag n) t else s

/-- `pop_until_one`. -/
def popUntilOne (a b c : Bytes) : TreeBuilder :=
  match s.stack.find? fun n => [a, b, c].any fun t => tagIs (s.tag n) t with
  | some n => s.popLoop (· == n)
  | none => s

/-- `has_in_scope`. -/
def hasInScope (t : Bytes) (tableScope : Bool) : Bool :=
  loop (if tableScope then tableScopeTags else defaultScopeTags) s.stack
where
  loop (bounds : List Bytes) : List NodeId → Bool
    | [] => false
    | n :: rest =>
        if tagIs (s.tag n) t then true
        else if bounds.any fun b => tagIs (s.tag n) b then false
        else loop bounds rest

/-- The test of `gen_implied_end` for going on. -/
def impliedEnd (except : Option Bytes) (n : NodeId) : Bool :=
  (s.tag n).any isImpliedEnd && !(except.any fun e => tagIs (s.tag n) e)

/-- `gen_implied_end`. -/
def genImpliedEnd (except : Option Bytes) : TreeBuilder :=
  { s with stack := s.stack.dropWhile (s.impliedEnd except) }

/-! ## The active formatting elements -/

/-- `afe_push_typed`. -/
def afePush (e : AFEEntry) : TreeBuilder := { s with afe := s.afe ++ [e] }

/-- `afe_index`: the last entry that holds `n`. -/
def afeIndex (n : NodeId) : Option Nat :=
  (s.afe.reverse.idxOf? (.node n)).map fun k => s.afe.length - 1 - k

/-- `afe_remove`. -/
def afeRemove (n : NodeId) : TreeBuilder :=
  match s.afeIndex n with
  | some i => { s with afe := s.afe.eraseIdx i }
  | none => s

/-! ## Insertion -/

/-- `mini_node_append_child` on the heap of the parser. -/
def appendChild (parent child : NodeId) : TreeBuilder :=
  { s with heap := (miniNodeAppendChild s.heap (some parent) (some child)).2 }

/-- `create_element_for_token`. -/
def createElementForToken (t : H5Token) : NodeId × TreeBuilder :=
  let (n, d) := miniNodeCreateElement s.heap (some t.name)
  (n, { s with heap := t.attrs.foldl (fun d a => miniNodeSetAttribute d n a.1 a.2) d })

/-- `insert_element`. -/
def insertElement (parent n : NodeId) : TreeBuilder :=
  { (s.appendChild parent n).openPush n with pendingTextTail := none }

/-- Create an element, append it to the current node and push it. -/
def appendAndPush (t : H5Token) : TreeBuilder :=
  let (n, s) := s.createElementForToken t
  (s.appendChild s.currentNode n).openPush n

/-- `foster_insert`. -/
def fosterInsert (n : NodeId) : TreeBuilder :=
  match s.tableFoster with
  | some table =>
      match (s.heap.node table).parent with
      | some parent =>
          let (rc, d) := miniNodeInsertBefore s.heap (some parent) (some n) (some table)
          let s := { s with heap := d }
          if rc = 0 then { s.openPush n with pendingTextTail := none }
          else s.insertElement s.currentNode n
      | none => s.insertElement s.currentNode n
  | none => s.insertElement s.currentNode n

/-- A single blank, which the table branch of `insert_char` drops. -/
def isBlank (u : Bytes) : Bool :=
  u == [32] || u == [9] || u == [10] || u == [13] || u == [12]

/-- The modes in which `insert_char` fosters text. -/
def inTableModes : Bool :=
  s.mode = .inTable || s.mode = .inTableBody || s.mode = .inRow || s.mode = .inCell

/-- The current node takes text as `node->text`. -/
def isRawNode (n : NodeId) : Bool :=
  (s.heap.node n).type = .elementNode && (s.tag n).any fun t => h5IsRawtext t || h5IsRcdata t

/-- The foster branch of `insert_char`: into the text node in front of the
table, or into a new one there. -/
def fosterChar (table cur : NodeId) (u : Bytes) : TreeBuilder :=
  let parent := ((s.heap.node table).parent).getD cur
  match (s.heap.node table).prevSibling.filter fun q => (s.heap.node q).type = .textNode with
  | some tn => { s with heap := appendText s.heap tn u }
  | none =>
      let (tn, d) := miniNodeCreateText s.heap (some u)
      let d := (miniNodeInsertBefore d (some parent) (some tn) (some table)).2
      { s with heap := d, pendingTextTail := some tn }

/-- The last branch of `insert_char`: the pending text node grows when it is
still the last child, else a new one is appended. -/
def tailChar (parent : NodeId) (u : Bytes) : TreeBuilder :=
  match (s.heap.node parent).lastChild.filter fun lc =>
      s.pendingTextTail = some lc && (s.heap.node lc).type = .textNode with
  | some lc => { s with heap := appendText s.heap lc u }
  | none =>
      let (tn, d) := miniNodeCreateText s.heap (some u)
      { ({ s with heap := d } : TreeBuilder).appendChild parent tn with
        pendingTextTail := some tn }

/-- `insert_char`. -/
def insertChar (u : Bytes) : TreeBuilder :=
  if u = [] then s
  else if s.isRawNode s.currentNode then
    { s with heap := appendText s.heap s.currentNode u }
  else match s.tableFoster with
    | some table =>
        if s.inTableModes then
          if isBlank u then s else s.fosterChar table s.currentNode u
        else s.tailChar s.currentNode u
    | none => s.tailChar s.currentNode u

/-- `insert_comment`. -/
def insertComment (parent : NodeId) (data : Bytes) : TreeBuilder :=
  let (c, d) := miniNodeCreateComment s.heap (some data)
  { ({ s with heap := d } : TreeBuilder).appendChild parent c with pendingTextTail := none }

/-- `close_p_if_open`. -/
def closePIfOpen : TreeBuilder :=
  let s := s.genImpliedEnd none
  if s.hasInScope (ascii "p") false then s.popUntil (ascii "p") else s

/-! ## Reconstructing the active formatting elements -/

/-- The entry stops the search of `reconstruct_active_formatting`: a marker, or
a node that is open. -/
def afeStops : AFEEntry → Bool
  | .marker => true
  | .node n => n ∈ s.stack

/-- The loop of `reconstruct_active_formatting` from entry `i` on. -/
def reconstructLoop : Nat → TreeBuilder → Nat → TreeBuilder
  | 0, s, _ => s
  | fuel + 1, s, i =>
      match s.afe[i]? with
      | none => s
      | some .marker => reconstructLoop fuel s (i + 1)
      | some (.node orig) =>
          let (clone, d) := miniNodeClone s.heap orig
          let s := { s with heap := d }
          let s := (s.appendChild s.currentNode clone).openPush clone
          reconstructLoop fuel { s with afe := s.afe.set i (.node clone) } (i + 1)

/-- `reconstruct_active_formatting`: from behind the last entry that stops the
search. -/
def reconstructActiveFormatting : TreeBuilder :=
  match s.afe.reverse with
  | [] => s
  | e :: _ =>
      if s.afeStops e then s
      else
        let k := (s.afe.reverse.takeWhile fun e => !s.afeStops e).length
        reconstructLoop k s (s.afe.length - k)

/-! ## The adoption agency -/

/-- The first loop of `adoption_agency`: the last entry behind the last marker
that is open and has the tag. -/
def findFormatting (subject : Bytes) : Option NodeId :=
  loop s.afe.reverse
where
  loop : List AFEEntry → Option NodeId
    | [] => none
    | .marker :: _ => none
    | .node fn :: rest =>
        if tagIs (s.tag fn) subject && fn ∈ s.stack then some fn else loop rest

/-- `n->tag && h5_is_special(n->tag) && !h5_is_formatting(n->tag)`. -/
def isBlock (n : NodeId) : Bool :=
  (s.tag n).any fun t => h5IsSpecial t && !h5IsFormatting t

/-- The loop that moves the children of one node to another: `c` and the siblings
after it are removed from `src` and appended to `dst`. -/
def adoptChildren : Nat → NodeHeap → NodeId → NodeId → Option NodeId → NodeHeap
  | 0, d, _, _, _ => d
  | _, d, _, _, none => d
  | fuel + 1, d, src, dst, some c =>
      let nx := (d.node c).nextSibling
      let d := (miniNodeRemoveChild d (some src) (some c)).2
      let d := (miniNodeAppendChild d (some dst) (some c)).2
      adoptChildren fuel d src dst nx

/-- Move all children of `src` to `dst`. -/
def adoptAll (src dst : NodeId) : TreeBuilder :=
  { s with heap := adoptChildren s.heap.size s.heap src dst (s.heap.node src).firstChild }

/-- `while (guard++ < 256)`: from the furthest block down to the formatting
element, an active formatting element is replaced by a clone that takes its
children and hangs under `lastNode`, any other element is dropped. -/
def adoptionLoop : Nat → TreeBuilder → NodeId → NodeId → Nat → TreeBuilder × NodeId
  | 0, s, _, lastNode, _ => (s, lastNode)
  | _, s, _, lastNode, 0 => (s, lastNode)
  | guard + 1, s, fmt, lastNode, nodeI + 1 =>
      match s.openAt nodeI with
      | none => (s, lastNode)
      | some node =>
          if node = fmt then (s, lastNode)
          else match s.afeIndex node with
            | some ai =>
                let (clone, d) := miniNodeClone s.heap node
                let s := { s with heap := d, afe := s.afe.set ai (.node clone) }
                let s := s.setOpen nodeI clone
                let s := (s.appendChild lastNode clone).adoptAll node clone
                adoptionLoop guard s fmt clone nodeI
            | none => adoptionLoop guard (s.openRemove node) fmt lastNode nodeI

/-- `last_node` goes under the common ancestor unless it is there. -/
def placeLastNode (commonAncestor lastNode : NodeId) : TreeBuilder :=
  let s := match (s.heap.node lastNode).parent with
    | some q =>
        if q ≠ commonAncestor then
          { s with heap := (miniNodeRemoveChild s.heap (some q) (some lastNode)).2 }
        else s
    | none => s
  if (s.heap.node lastNode).parent ≠ some commonAncestor then
    s.appendChild commonAncestor lastNode
  else s

/-- The end of `adoption_agency`: a clone of the formatting element takes the
children of `last_node` and becomes its child. -/
def adoptNewFormatting (fmt lastNode : NodeId) : TreeBuilder :=
  let (newfmt, d) := miniNodeClone s.heap fmt
  let s := ({ s with heap := d } : TreeBuilder).adoptAll lastNode newfmt
  ((s.appendChild lastNode newfmt).openPush newfmt).afePush (.node newfmt)

/-- `adoption_agency`. -/
def adoptionAgency (subject : Bytes) : TreeBuilder :=
  match s.findFormatting subject with
  | none =>
      if s.hasInScope subject false then
        let s := s.genImpliedEnd none
        s.popLoop fun n => tagIs (s.tag n) subject
      else s
  | some fmt =>
      match s.openIndex fmt with
      | none => s.afeRemove fmt
      | some fi =>
          let above := s.stack.take (s.stack.length - 1 - fi)
          match above.findIdx? s.isBlock, above.find? s.isBlock with
          | some k, some furthest =>
              let furthestI := s.stack.length - 1 - k
              let commonAncestor := if 0 < fi then (s.openAt (fi - 1)).getD s.root else s.root
              let (s, lastNode) := adoptionLoop 256 s fmt furthest furthestI
              let s := s.placeLastNode commonAncestor lastNode
              ((s.openRemove fmt).afeRemove fmt).adoptNewFormatting fmt lastNode
          | _, _ => (s.popLoop (· == fmt)).afeRemove fmt

/-! ## Insertion modes -/

/-- `if (body && body->parent == root) mini_node_remove_child(root, body);` -/
def detachBody (d : NodeHeap) (root : NodeId) (body : Option NodeId) : NodeHeap :=
  match body with
  | some b =>
      if (d.node b).parent = some root then (miniNodeRemoveChild d (some root) (some b)).2 else d
  | none => d

/-- The body of the document, or a new one. -/
def bodyOrNew (d : NodeHeap) (body : Option NodeId) : NodeId × NodeHeap :=
  match body with
  | some b => (b, d)
  | none => miniNodeCreateElement d (some (ascii "body"))

/-- `ensure_html`. -/
def ensureHtml : TreeBuilder :=
  if (children s.heap s.root).any fun c => tagIs (s.tag c) (ascii "html") then s
  else
    let (html, d) := miniNodeCreateElement s.heap (some (ascii "html"))
    let d := detachBody d s.root s.body
    let d := (miniNodeAppendChild d (some s.root) (some html)).2
    let (head, d) := miniNodeCreateElement d (some (ascii "head"))
    let d := (miniNodeAppendChild d (some html) (some head)).2
    let (body, d) := bodyOrNew d s.body
    let d := (miniNodeAppendChild d (some html) (some body)).2
    { s with heap := d, body := some body, headElement := some head }.openPush html

/-- `h5_ci(tag, ...) || h5_ci(tag, ...)` over a few names. -/
def tagIn (tag : Bytes) (names : List String) : Bool :=
  names.any fun n => h5Ci tag (ascii n)

/-- The elements that `in_body_start` closes before it inserts one. -/
def closeForStart (tag : Bytes) : TreeBuilder :=
  let s := if h5ClosesP tag then s.closePIfOpen else s
  let s := if tagIn tag ["li"] then s.genImpliedEnd (some (ascii "li")) else s
  if tagIn tag ["dd", "dt"] then s.genImpliedEnd none else s

/-- The end of `in_body_start`: a table, a formatting element, or any other
element. -/
def insertInBody (t : H5Token) : TreeBuilder :=
  let tag := t.name
  if tagIn tag ["table"] then
    let (n, s) := s.createElementForToken t
    let s := (s.appendChild s.currentNode n).openPush n
    { s with tableFoster := some n, mode := .inTable }
  else if h5IsFormatting tag then
    let (n, s) := s.reconstructActiveFormatting.createElementForToken t
    (s.insertElement s.currentNode n).afePush (.node n)
  else
    let (n, s) := s.reconstructActiveFormatting.createElementForToken t
    if t.isSelfClosing || isVoid tag then s.appendChild s.currentNode n
    else s.insertElement s.currentNode n

/-- `in_body_start`. -/
def inBodyStart (t : H5Token) : TreeBuilder :=
  let tag := t.name
  if tagIn tag ["html"] || tagIn tag ["head"] then s
  else if tagIn tag ["base", "basefont", "bgsound", "link", "meta", "title"] then
    let (n, s) := s.createElementForToken t
    let s := s.appendChild (s.headElement.getD s.currentNode) n
    if isVoid tag then s else s.openPush n
  else if tagIn tag ["style", "script"] then s.appendAndPush t
  else if tagIn tag ["body"] then s
  else (s.closeForStart tag).insertInBody t

/-- `in_body_end`. -/
def inBodyEnd (t : H5Token) : TreeBuilder :=
  let tag := t.name
  if h5IsFormatting tag then s.adoptionAgency tag
  else if tagIn tag ["p"] then
    let s := s.genImpliedEnd (some (ascii "p"))
    if s.hasInScope (ascii "p") false then s.popUntil (ascii "p") else s
  else if tagIn tag ["li", "dd", "dt"] then
    let s := s.genImpliedEnd (some tag)
    if s.hasInScope tag false then s.popUntil tag else s
  else if tagIn tag ["body"] || tagIn tag ["html"] then { s with mode := .afterBody }
  else if s.hasInScope tag false then
    let s := s.genImpliedEnd none
    s.popLoop fun n => tagIs (s.tag n) tag
  else s

/-- The end of `in_table_start`: any other element goes in front of the table. -/
def insertInTable (t : H5Token) : TreeBuilder :=
  let (n, s) := s.reconstructActiveFormatting.createElementForToken t
  if t.isSelfClosing || isVoid t.name then
    match s.tableFoster with
    | some table =>
        match (s.heap.node table).parent with
        | some parent =>
            { s with
              heap := (miniNodeInsertBefore s.heap (some parent) (some n) (some table)).2 }
        | none => { s with heap := (miniNodeAppendChild s.heap none (some n)).2 }
    | none => s.appendChild s.currentNode n
  else s.fosterInsert n

/-- `in_table_start`. -/
def inTableStart (t : H5Token) : TreeBuilder :=
  let tag := t.name
  if tagIn tag ["caption"] then
    { ((s.popUntil (ascii "table")).appendAndPush t).afePush .marker with mode := .inBody }
  else if tagIn tag ["colgroup"] then s.appendAndPush t
  else if tagIn tag ["col"] then
    let (n, s) := s.createElementForToken t
    s.appendChild s.currentNode n
  else if tagIn tag ["thead", "tfoot", "tbody"] then
    { s.appendAndPush t with mode := .inTableBody }
  else if tagIn tag ["tr"] then { s.appendAndPush t with mode := .inRow }
  else if tagIn tag ["th", "td"] then
    let s := s.appendAndPush { name := ascii "tr" }
    { s.appendAndPush t with mode := .inCell }
  else s.insertInTable t

/-- `if (has_in_scope(p, tag, 1)) pop_until(p, tag), p->mode = m;` -/
def closeInTableScope (tag : Bytes) (m : H5Mode) : TreeBuilder :=
  if s.hasInScope tag true then { s.popUntil tag with mode := m } else s

/-- `in_table_end`. -/
def inTableEnd (t : H5Token) : TreeBuilder :=
  let tag := t.name
  if tagIn tag ["table"] then
    if s.hasInScope (ascii "table") true then
      { s.popUntil (ascii "table") with tableFoster := none, mode := .inBody }
    else s
  else if tagIn tag ["tbody", "tfoot", "thead"] then s.closeInTableScope tag .inTable
  else if tagIn tag ["tr"] then s.closeInTableScope tag .inTableBody
  else if tagIn tag ["th", "td"] then s.closeInTableScope tag .inRow
  else s.inBodyEnd t

/-- `if (has_in_scope(p, "tr", 1)) pop_until(p, "tr");` -/
def closeRow : TreeBuilder :=
  if s.hasInScope (ascii "tr") true then s.popUntil (ascii "tr") else s

/-- `in_row_start`. -/
def inRowStart (t : H5Token) : TreeBuilder :=
  let tag := t.name
  if tagIn tag ["th", "td"] then { s.appendAndPush t with mode := .inCell }
  else if tagIn tag ["tr"] then s.closeRow.appendAndPush t
  else ({ s.closeRow with mode := .inTableBody } : TreeBuilder).inTableStart t

/-- `in_cell_end`. -/
def inCellEnd (t : H5Token) : TreeBuilder :=
  let tag := t.name
  if tagIn tag ["td", "th"] then
    if s.hasInScope tag true then
      { (s.genImpliedEnd none).popUntil tag with mode := .inRow }
    else s
  else if tagIn tag ["tr", "tbody", "thead", "tfoot"] then
    if s.hasInScope (ascii "td") true || s.hasInScope (ascii "th") true then
      let s := ((s.genImpliedEnd none).popUntil (ascii "td")).popUntil (ascii "th")
      ({ s with mode := .inRow } : TreeBuilder).inTableEnd t
    else s
  else s.inBodyEnd t

/-! ## Dispatch -/

/-- `case M_IN_BODY`. -/
def processInBody (t : H5Token) : TreeBuilder :=
  match t.type with
  | .char => s.insertChar t.name
  | .comment => s.insertComment s.currentNode t.name
  | .start => s.inBodyStart t
  | .endTag => s.inBodyEnd t
  | _ => s

/-- `case M_AFTER_HEAD`. -/
def processAfterHead (t : H5Token) : TreeBuilder :=
  if t.type = .start && tagIn t.name ["body"] then
    let (b, s) := s.createElementForToken t
    { (s.appendChild s.currentNode b).openPush b with body := some b, mode := .inBody }
  else if t.type = .start && tagIn t.name ["head"] then s
  else
    let (b, s) := s.createElementForToken { name := ascii "body" }
    let s := (s.appendChild s.currentNode b).openPush b
    ({ s with body := some b, mode := .inBody } : TreeBuilder).processInBody t

/-- `open_pop(p); p->mode = M_AFTER_HEAD; process_token(p, t);` -/
def leaveHead (t : H5Token) : TreeBuilder :=
  ({ s.openPop with mode := .afterHead } : TreeBuilder).processAfterHead t

/-- `case M_IN_HEAD`. -/
def processInHead (t : H5Token) : TreeBuilder :=
  match t.type with
  | .start =>
      if tagIn t.name ["title", "style", "script"] then s.appendAndPush t
      else if tagIn t.name ["meta", "link", "base"] then
        let (n, s) := s.createElementForToken t
        s.appendChild s.currentNode n
      else s.leaveHead t
  | .endTag =>
      if tagIn t.name ["head"] then { s.openPop with mode := .afterHead }
      else if tagIn t.name ["title", "style", "script"] then
        if tagIs (s.tag s.currentNode) t.name then s.openPop else s
      else if tagIn t.name ["body", "html"] then s.leaveHead t
      else s
  | .char => s.insertChar t.name
  | .comment => s.insertComment s.currentNode t.name
  | _ => s.leaveHead t

/-- Create a head, push it, and go to `M_IN_HEAD`. -/
def openHead (t : H5Token) : TreeBuilder :=
  let (h, s) := s.createElementForToken t
  { (s.appendChild s.currentNode h).openPush h with headElement := some h, mode := .inHead }

/-- `case M_IN_TABLE`, and `case M_IN_CELL` with its own start and end steps. -/
def processContent (onStart onEnd : TreeBuilder → H5Token → TreeBuilder) (t : H5Token) :
    TreeBuilder :=
  match t.type with
  | .start => onStart s t
  | .endTag => onEnd s t
  | .char => s.insertChar t.name
  | .comment => s.insertComment s.currentNode t.name
  | _ => s

/-- `case M_IN_TABLE_BODY`. -/
def processInTableBody (t : H5Token) : TreeBuilder :=
  if t.type = .start && tagIn t.name ["tr"] then { s.appendAndPush t with mode := .inRow }
  else if t.type = .endTag && tagIn t.name ["tbody", "thead", "tfoot"] then
    s.closeInTableScope t.name .inTable
  else if t.type = .start then
    let s := if s.hasInScope (ascii "tbody") true || s.hasInScope (ascii "thead") true ||
        s.hasInScope (ascii "tfoot") true then
      s.popUntilOne (ascii "tbody") (ascii "thead") (ascii "tfoot") else s
    ({ s with mode := .inTable } : TreeBuilder).inTableStart t
  else s

/-- `process_token`. -/
def processToken (t : H5Token) : TreeBuilder :=
  match s.mode with
  | .initial | .beforeHtml =>
      let s := s.ensureHtml
      if t.type = .char then
        ({ s with mode := .beforeHead } : TreeBuilder).insertChar t.name
      else if t.type = .start && tagIn t.name ["head"] then
        ({ s with mode := .inBody } : TreeBuilder).openHead t
      else { s with mode := .inBody }
  | .beforeHead =>
      if t.type = .start && tagIn t.name ["head"] then s.openHead t
      else (s.openHead { name := ascii "head" }).processInHead t
  | .inHead => s.processInHead t
  | .afterHead => s.processAfterHead t
  | .inBody => s.processInBody t
  | .inTable => s.processContent inTableStart inTableEnd t
  | .inTableBody => s.processInTableBody t
  | .inRow =>
      if t.type = .comment then s else s.processContent inRowStart inTableEnd t
  | .inCell => s.processContent inBodyStart inCellEnd t
  | .inSelect =>
      if t.type = .comment then s else s.processContent inBodyStart inBodyEnd t
  | .afterBody =>
      if t.type = .endTag && tagIn t.name ["html"] then { s with mode := .afterAfterBody }
      else ({ s with mode := .inBody } : TreeBuilder).processInBody t
  | .afterAfterBody =>
      if t.type = .char then s.insertChar t.name
      else ({ s with mode := .inBody } : TreeBuilder).processInBody t

end TreeBuilder

end TinyFramework.Html5
