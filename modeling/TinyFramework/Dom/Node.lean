/-
  Dom/Node.lean --- the node records of `mini_dom.c` and the tree mutators.

  Nodes live in a `NodeHeap`; an address is a number, and `calloc` hands out the
  next one and is taken to succeed.  A pointer argument is an `Option`, NULL
  being `none`.  The pointer writes of each mutator stand in the source's order
  and every read is of the current heap, so aliased arguments act as in C.  Of a
  node's fields the model keeps those that the modelled functions read; the
  mutation hook and the dirty flags are left out.
-/
import TinyFramework.Foundation.Ascii

set_option autoImplicit false

namespace TinyFramework.Dom

open TinyFramework.Foundation

/-- `MiniNodeType`. -/
inductive MiniNodeType where
  | elementNode
  | attributeNode
  | textNode
  | cdataSectionNode
  | processingInstruction
  | commentNode
  | documentNode
  | documentTypeNode
  | documentFragmentNode
  | notationNode
  deriving DecidableEq, Repr

/-- The address of a node. -/
abbrev NodeId := Nat

/-- `struct MiniNode`: kind, content, and the six tree pointers. -/
structure MiniNode where
  type : MiniNodeType := .elementNode
  tag : Option Bytes := none
  text : Option Bytes := none
  /-- The singly linked list of `MiniAttr`, from its head. -/
  attrs : List (Bytes × Bytes) := []
  /-- The singly linked list of `MiniNodeVar`, from its head. -/
  vars : List (Bytes × Bytes) := []
  parent : Option NodeId := none
  firstChild : Option NodeId := none
  lastChild : Option NodeId := none
  prevSibling : Option NodeId := none
  nextSibling : Option NodeId := none
  shadowRoot : Option NodeId := none
  deriving DecidableEq, Repr

/-- The heap of nodes: the addresses below `size` are allocated. -/
structure NodeHeap where
  size : Nat
  node : NodeId → MiniNode

namespace NodeHeap

/-- The heap before any allocation. -/
def empty : NodeHeap := ⟨0, fun _ => {}⟩

/-- Overwrite the record at `i`. -/
def modify (d : NodeHeap) (i : NodeId) (f : MiniNode → MiniNode) : NodeHeap :=
  { d with node := fun j => if j = i then f (d.node j) else d.node j }

/-- Allocate a record; its address is the old `size`. -/
def alloc (d : NodeHeap) (n : MiniNode) : NodeHeap :=
  { size := d.size + 1, node := fun j => if j = d.size then n else d.node j }

def setParent (d : NodeHeap) (i : NodeId) (v : Option NodeId) : NodeHeap :=
  d.modify i fun n => { n with parent := v }

def setFirstChild (d : NodeHeap) (i : NodeId) (v : Option NodeId) : NodeHeap :=
  d.modify i fun n => { n with firstChild := v }

def setLastChild (d : NodeHeap) (i : NodeId) (v : Option NodeId) : NodeHeap :=
  d.modify i fun n => { n with lastChild := v }

def setPrevSibling (d : NodeHeap) (i : NodeId) (v : Option NodeId) : NodeHeap :=
  d.modify i fun n => { n with prevSibling := v }

def setNextSibling (d : NodeHeap) (i : NodeId) (v : Option NodeId) : NodeHeap :=
  d.modify i fun n => { n with nextSibling := v }

def setShadowRoot (d : NodeHeap) (i : NodeId) (v : Option NodeId) : NodeHeap :=
  d.modify i fun n => { n with shadowRoot := v }

def setTag (d : NodeHeap) (i : NodeId) (v : Option Bytes) : NodeHeap :=
  d.modify i fun n => { n with tag := v }

/-- The parent pointers as a partial function. -/
def parentOf (d : NodeHeap) (i : NodeId) : Option NodeId :=
  (d.node i).parent

@[simp] theorem modify_size (d : NodeHeap) (i : NodeId) (f : MiniNode → MiniNode) :
    (d.modify i f).size = d.size := rfl

theorem modify_node (d : NodeHeap) (i j : NodeId) (f : MiniNode → MiniNode) :
    (d.modify i f).node j = if j = i then f (d.node j) else d.node j := rfl

@[simp] theorem alloc_size (d : NodeHeap) (n : MiniNode) : (d.alloc n).size = d.size + 1 := rfl

theorem alloc_node (d : NodeHeap) (n : MiniNode) (j : NodeId) :
    (d.alloc n).node j = if j = d.size then n else d.node j := rfl

end NodeHeap

/-! ## Removing -/

/-- The pointer writes of `mini_node_remove_child` after its checks. -/
def unlink (d : NodeHeap) (parent child : NodeId) : NodeHeap :=
  let d := match (d.node child).prevSibling with
    | some q => d.setNextSibling q (d.node child).nextSibling
    | none => d.setFirstChild parent (d.node child).nextSibling
  let d := match (d.node child).nextSibling with
    | some q => d.setPrevSibling q (d.node child).prevSibling
    | none => d.setLastChild parent (d.node child).prevSibling
  let d := d.setParent child none
  let d := d.setNextSibling child none
  d.setPrevSibling child none

/-- `mini_node_remove_child`: the return code and the heap. -/
def miniNodeRemoveChild (d : NodeHeap) (parent child : Option NodeId) : Int × NodeHeap :=
  match parent, child with
  | some parent, some child =>
      if (d.node child).parent ≠ some parent then (-1, d)
      else (0, unlink d parent child)
  | _, _ => (-1, d)

/-- `if (child->parent) mini_node_remove_child(child->parent, child);` -/
def removeFromParent (d : NodeHeap) (child : NodeId) : NodeHeap :=
  match (d.node child).parent with
  | some q => (miniNodeRemoveChild d (some q) (some child)).2
  | none => d

/-! ## Appending -/

/-- The pointer writes that put `child` at the end of the child list of
`parent`; both the fragment loop and the plain path make them. -/
def linkLast (d : NodeHeap) (parent child : NodeId) : NodeHeap :=
  let d := d.setParent child (some parent)
  let d := d.setPrevSibling child (d.node parent).lastChild
  let d := d.setNextSibling child none
  let d := match (d.node parent).lastChild with
    | some q => d.setNextSibling q (some child)
    | none => d.setFirstChild parent (some child)
  d.setLastChild parent (some child)

/-- `while (c)` of the fragment path: the next sibling is read first, then `c`
goes to the end of `parent`.  The bound is the number of allocated nodes. -/
def moveChildren : Nat → NodeHeap → NodeId → Option NodeId → NodeHeap
  | _, d, _, none => d
  | 0, d, _, some _ => d
  | fuel + 1, d, parent, some c =>
      let nx := (d.node c).nextSibling
      moveChildren fuel (linkLast d parent c) parent nx

/-- `mini_node_append_child`. -/
def miniNodeAppendChild (d : NodeHeap) (parent child : Option NodeId) : Int × NodeHeap :=
  match parent, child with
  | some parent, some child =>
      if (d.node child).type = .documentFragmentNode ∧ child ≠ parent then
        let d := moveChildren d.size d parent (d.node child).firstChild
        let d := d.setLastChild child none
        (0, d.setFirstChild child none)
      else
        let d := removeFromParent d child
        (0, linkLast d parent child)
  | _, _ => (-1, d)

/-! ## Inserting and replacing -/

/-- The pointer writes that link `newChild` before `ref`. -/
def linkBefore (d : NodeHeap) (parent newChild ref : NodeId) : NodeHeap :=
  let d := d.setParent newChild (some parent)
  let d := d.setNextSibling newChild (some ref)
  let d := d.setPrevSibling newChild (d.node ref).prevSibling
  let d := match (d.node ref).prevSibling with
    | some q => d.setNextSibling q (some newChild)
    | none => d.setFirstChild parent (some newChild)
  d.setPrevSibling ref (some newChild)

/-- `mini_node_insert_before`. -/
def miniNodeInsertBefore (d : NodeHeap) (parent newChild ref : Option NodeId) : Int × NodeHeap :=
  match parent, newChild with
  | some parent, some newChild =>
      match ref with
      | none => miniNodeAppendChild d (some parent) (some newChild)
      | some ref =>
          let d := removeFromParent d newChild
          (0, linkBefore d parent newChild ref)
  | _, _ => (-1, d)

/-- `mini_node_replace_child`. -/
def miniNodeReplaceChild (d : NodeHeap) (parent newChild oldChild : Option NodeId) : Int × NodeHeap :=
  match parent, newChild, oldChild with
  | some parent, some newChild, some oldChild =>
      if (d.node oldChild).parent ≠ some parent then (-1, d)
      else
        let (rc, d) := miniNodeInsertBefore d (some parent) (some newChild) (some oldChild)
        if rc ≠ 0 then (-1, d)
        else miniNodeRemoveChild d (some parent) (some oldChild)
  | _, _, _ => (-1, d)

/-! ## Creating -/

/-- `mini_node_create_document_fragment`: the address and the heap. -/
def miniNodeCreateDocumentFragment (d : NodeHeap) : NodeId × NodeHeap :=
  (d.size, d.alloc { type := .documentFragmentNode })

/-- `mini_node_attach_shadow`: the shadow root, NULL for a NULL host. -/
def miniNodeAttachShadow (d : NodeHeap) (host : Option NodeId) : Option NodeId × NodeHeap :=
  match host with
  | none => (none, d)
  | some host =>
      match (d.node host).shadowRoot with
      | some root => (some root, d)
      | none =>
          let (root, d) := miniNodeCreateDocumentFragment d
          let d := d.setTag root (some (ascii "#shadow-root"))
          let d := d.setShadowRoot host (some root)
          (some root, d.setParent root (some host))

/-- `mini_node_create_element`: the tag is lower-cased and cut to 47 bytes, a
NULL tag is `div`. -/
def miniNodeCreateElement (d : NodeHeap) (tag : Option Bytes) : NodeId × NodeHeap :=
  let buf := ((tag.getD (ascii "div")).take 47).map tolower
  (d.size, d.alloc { type := .elementNode, tag := some buf })

/-- `mini_node_create_text`. -/
def miniNodeCreateText (d : NodeHeap) (data : Option Bytes) : NodeId × NodeHeap :=
  (d.size, d.alloc { type := .textNode, text := data })

/-- `mini_node_create_comment`. -/
def miniNodeCreateComment (d : NodeHeap) (data : Option Bytes) : NodeId × NodeHeap :=
  (d.size, d.alloc { type := .commentNode, text := some (data.getD []) })

/-! ## Walking, copying and content -/

/-- The nodes from a sibling on, following `next_sibling`. -/
def siblingsFrom (d : NodeHeap) : Nat → Option NodeId → List NodeId
  | 0, _ => []
  | _, none => []
  | fuel + 1, some c => c :: siblingsFrom d fuel (d.node c).nextSibling

/-- The child list of `p`: `for (c = p->first_child; c; c = c->next_sibling)`,
bounded by the number of allocated nodes. -/
def children (d : NodeHeap) (p : NodeId) : List NodeId :=
  siblingsFrom d d.size (d.node p).firstChild

/-- `mini_node_clone(n, 0)`. -/
def miniNodeClone (d : NodeHeap) (n : NodeId) : NodeId × NodeHeap :=
  let src := d.node n
  (d.size, d.alloc { type := src.type, tag := src.tag, text := src.text, attrs := src.attrs })

/-- The attribute list after `mini_node_set_attribute`: the first attribute of
that name gets the value, else the pair goes to the front. -/
def setAttr (attrs : List (Bytes × Bytes)) (k v : Bytes) : List (Bytes × Bytes) :=
  match attrs.findIdx? (·.1 == k) with
  | some i => attrs.set i (k, v)
  | none => (k, v) :: attrs

/-- `mini_node_set_attribute`. -/
def miniNodeSetAttribute (d : NodeHeap) (n : NodeId) (k v : Bytes) : NodeHeap :=
  d.modify n fun m => { m with attrs := setAttr m.attrs k v }

/-- `mini_node_get_attribute`. -/
def miniNodeGetAttribute (d : NodeHeap) (n : NodeId) (k : Bytes) : Option Bytes :=
  ((d.node n).attrs.find? (·.1 == k)).map (·.2)

/-- Grow the text of a node with `realloc` and `memcpy`. -/
def appendText (d : NodeHeap) (n : NodeId) (u : Bytes) : NodeHeap :=
  d.modify n fun m => { m with text := some (m.text.getD [] ++ u) }

/-- `mini_node_contains`: the walk up from `target`, bounded by the number of
allocated nodes. -/
def miniNodeContains (d : NodeHeap) (root target : NodeId) : Bool :=
  loop d.size (some target)
where
  loop : Nat → Option NodeId → Bool
    | _, none => false
    | 0, some n => n == root
    | fuel + 1, some n => n == root || loop fuel (d.node n).parent

end TinyFramework.Dom
