/-
  Css/Selector.lean --- the selector matcher of `mini_dom.c`.

  A complex selector is split into compounds (`parse_complex`) and matched right to left
  (`match_at`); a pseudo-class such as `:is(...)` matches its argument by a nested call.
  The matcher reads the compounds through the pointers it was given, and a nested call
  may change what lies behind them, so every read is an action of the monad here and a
  compound is read on from a position, not from a copy.  The nested call is a parameter.
-/
import TinyFramework.Dom.Node
import TinyFramework.Css.Color

set_option autoImplicit false

namespace TinyFramework.Css

open TinyFramework.Foundation TinyFramework.Dom

/-! ## Strings -/

/-- `isalnum` in the C locale. -/
def isalnum (c : UInt8) : Bool :=
  isdigit c || (65 ≤ c && c ≤ 90) || (97 ≤ c && c ≤ 122)

/-- `ci_eq` -/
def ciEq (a b : Bytes) : Bool := a.map tolower == b.map tolower

/-- `ci_eq_n`, for strings that do not both end before `n`. -/
def ciEqN (a b : Bytes) (n : Nat) : Bool := ciEq (a.take n) (b.take n)

/-- The loop of `class_has`.  Behind trailing space it finds one more, empty word. -/
def classWords : Nat → Bytes → List Bytes
  | 0, _ => []
  | _, [] => []
  | fuel + 1, c :: rest =>
      let s := (c :: rest).dropWhile isspace
      s.takeWhile (fun b => !isspace b) :: classWords fuel (s.dropWhile fun b => !isspace b)

/-- `class_has` -/
def classHas (classval : Option Bytes) (tok : Bytes) : Bool :=
  match classval with
  | none => false
  | some v => (classWords v.length v).any fun w => w.length == tok.length && ciEqN w tok w.length

/-- `ci_contains` -/
def ciContains (hay needle : Bytes) : Bool :=
  hay.tails.any fun t => ciEqN t needle needle.length

/-- `attr_op_match`: the operators are 1 `=`, 2 `~=`, 3 `^=`, 4 `$=`, 5 `*=`, 6 `|=`. -/
def attrOpMatch (got : Option Bytes) (op : Nat) (av : Bytes) : Bool :=
  match got with
  | none => false
  | some got =>
      let al := av.length
      match op with
      | 1 => ciEq got av
      | 2 => classHas (some got) av
      | 3 => ciEqN got av al
      | 4 => al ≤ got.length && ciEqN (got.drop (got.length - al)) av al
      | 5 => ciContains got av
      | 6 => ciEq got av || (ciEqN got av al && got[al]? == some 45)
      | _ => false

/-! ## Numbers -/

/-- The conversion of a `long` to `int`. -/
def toInt (v : Int) : Int := v.bmod (2 ^ 32)

/-- `strtol(s, &end, 10)`: the value and the text from `end` on. -/
def strtol (s : Bytes) : Int × Bytes :=
  let t := s.dropWhile isspace
  let (neg, u) := match t with
    | 45 :: u => (true, u)
    | 43 :: u => (false, u)
    | u => (false, u)
  let ds := u.takeWhile isdigit
  if ds.isEmpty then (0, s)
  else
    let v : Int := ds.foldl (fun v d => v * 10 + (d.toNat - 48 : Nat)) 0
    let v := if neg then max (-v) (-2 ^ 63) else min v (2 ^ 63 - 1)
    (v, u.dropWhile isdigit)

/-- What follows the `n` of an An+B argument. -/
def anbOffset (a : Int) (s : Bytes) : Option (Int × Int) :=
  match s with
  | [] => some (a, 0)
  | c :: _ => if c == 43 || c == 45 then some (a, toInt (strtol s).1) else none

/-- `parse_anb`: `a` and `b`, none when it fails. -/
def parseAnb (s0 : Bytes) : Option (Int × Int) :=
  let s := s0.dropWhile isspace
  if s.isEmpty then none
  else if s = ascii "odd" then some (2, 1)
  else if s = ascii "even" then some (2, 0)
  else
    match s with
    | 110 :: r => anbOffset 1 r
    | 43 :: 110 :: r => anbOffset 1 r
    | 45 :: 110 :: r => anbOffset (-1) r
    | _ =>
      let (coef, stop) := strtol s
      if stop = s then none
      else
        match stop with
        | [] => some (0, toInt coef)
        | 110 :: r => anbOffset (toInt coef) r
        | _ => none

/-- `nth_test` -/
def nthTest (idx : Nat) (a b : Int) : Bool :=
  if a = 0 then (idx : Int) == b
  else
    let diff := toInt (idx - b)
    if diff.tmod a ≠ 0 then false else decide (0 ≤ diff.tdiv a)

/-! ## The page -/

/-- The interaction bits of a node. -/
structure UiState where
  hovered : Bool
  active : Bool
  focused : Bool

/-- What a match reads: the nodes and their interaction bits. -/
structure Page where
  heap : NodeHeap
  ui : NodeId → UiState

namespace Page

variable (page : Page) (n : NodeId)

def isElement : Bool := (page.heap.node n).type == .elementNode

/-- The nodes before `n`, nearest first. -/
def before : Nat → Option NodeId → List NodeId
  | 0, _ => []
  | _, none => []
  | fuel + 1, some s => s :: before fuel (page.heap.node s).prevSibling

/-- The chain of `prev_elem_sibling`. -/
def prevElems : List NodeId :=
  (page.before page.heap.size (page.heap.node n).prevSibling).filter page.isElement

/-- The chain of `next_elem_sibling`. -/
def nextElems : List NodeId :=
  (siblingsFrom page.heap page.heap.size (page.heap.node n).nextSibling).filter page.isElement

/-- The chain of `parent`, bounded by the number of allocated nodes. -/
def above : Nat → Option NodeId → List NodeId
  | 0, _ => []
  | _, none => []
  | fuel + 1, some a => a :: above fuel (page.heap.node a).parent

def ancestors : List NodeId := page.above page.heap.size (page.heap.node n).parent

/-- `s->tag && ci_eq(s->tag, n->tag)` -/
def sameTag (s : NodeId) : Bool :=
  match (page.heap.node s).tag, (page.heap.node n).tag with
  | some t, some u => ciEq t u
  | _, _ => false

/-- `is_first_element_child` -/
def isFirstElementChild : Bool :=
  (page.heap.node n).parent.isSome && (page.prevElems n).isEmpty

/-- `is_last_element_child` -/
def isLastElementChild : Bool :=
  (page.heap.node n).parent.isSome && (page.nextElems n).isEmpty

/-- `is_first_of_type` -/
def isFirstOfType : Bool :=
  (page.heap.node n).parent.isSome && (page.heap.node n).tag.isSome &&
    (page.prevElems n).all fun s => !page.sameTag n s

/-- `is_last_of_type` -/
def isLastOfType : Bool :=
  (page.heap.node n).parent.isSome && (page.heap.node n).tag.isSome &&
    (page.nextElems n).all fun s => !page.sameTag n s

/-- `elem_index` -/
def elemIndex (fromEnd : Bool) : Nat :=
  1 + (if fromEnd then page.nextElems n else page.prevElems n).length

/-- `elem_index_of_type` -/
def elemIndexOfType (fromEnd : Bool) : Nat :=
  if (page.heap.node n).tag.isNone then 0
  else 1 + ((if fromEnd then page.nextElems n else page.prevElems n).filter (page.sameTag n)).length

/-- The tag is one of these. -/
def tagIn (l : List String) : Bool :=
  match (page.heap.node n).tag with
  | none => false
  | some t => l.any fun s => t == ascii s

def attr (k : String) : Option Bytes := miniNodeGetAttribute page.heap n (ascii k)

end Page

/-! ## Pseudo-classes -/

section Pseudo

variable (page : Page) (n : NodeId)

/-- `parse_anb(arg, &a, &b) && nth_test(idx, a, b)` -/
def nthMatch (arg : Bytes) (idx : Nat) : Bool :=
  match parseAnb arg with
  | some (a, b) => nthTest idx a b
  | none => false

/-- The branches of `match_pseudo` about the place in the tree, none when `name` is
another pseudo-class. -/
def structuralPseudo (name arg : Bytes) : Option Bool :=
  let node := page.heap.node n
  if name = ascii "first-child" then some (page.isFirstElementChild n)
  else if name = ascii "last-child" then some (page.isLastElementChild n)
  else if name = ascii "only-child" then
    some (page.isFirstElementChild n && page.isLastElementChild n)
  else if name = ascii "empty" then some node.firstChild.isNone
  else if name = ascii "root" then
    some (node.type == .documentNode ||
      match node.parent with
      | none => true
      | some p => (page.heap.node p).type == .documentNode && node.tag == some (ascii "html"))
  else if name = ascii "nth-child" then some (nthMatch arg (page.elemIndex n false))
  else if name = ascii "nth-last-child" then some (nthMatch arg (page.elemIndex n true))
  else if name = ascii "nth-of-type" then some (nthMatch arg (page.elemIndexOfType n false))
  else if name = ascii "nth-last-of-type" then some (nthMatch arg (page.elemIndexOfType n true))
  else if name = ascii "first-of-type" then some (page.isFirstOfType n)
  else if name = ascii "last-of-type" then some (page.isLastOfType n)
  else if name = ascii "only-of-type" then some (page.isFirstOfType n && page.isLastOfType n)
  else none

/-- `match_pseudo(n, "disabled", "", 0)` -/
def isDisabled : Bool :=
  (page.attr n "disabled").isSome ||
    (page.ancestors n).any fun p => page.tagIn p ["fieldset"] && (page.attr p "disabled").isSome

/-- The branches of `match_pseudo` about the state of a node; pseudo-elements and all
other names match nothing. -/
def statePseudo (name : Bytes) : Bool :=
  let node := page.heap.node n
  if name = ascii "hover" then (page.ui n).hovered
  else if name = ascii "active" then (page.ui n).active
  else if name = ascii "focus" || name = ascii "focus-visible" then (page.ui n).focused
  else if name = ascii "focus-within" then
    (page.ui n).focused || (children page.heap n).any fun c => (page.ui c).focused
  else if name = ascii "checked" then
    (page.attr n "checked").isSome || (page.attr n "selected").isSome
  else if name = ascii "disabled" then isDisabled page n
  else if name = ascii "enabled" then
    page.tagIn n ["input", "button", "select", "textarea", "option", "fieldset"] &&
      !isDisabled page n
  else if name = ascii "required" then (page.attr n "required").isSome
  else if name = ascii "placeholder-shown" then
    (page.attr n "placeholder").isSome && ((page.attr n "value").getD []).isEmpty &&
      (node.text.getD []).isEmpty
  else if name = ascii "placeholder" then page.tagIn n ["input", "textarea"]
  else false

/-- The text between the commas. -/
def commaPieces : Bytes → List Bytes
  | [] => [[]]
  | c :: s =>
      if c == 44 then [] :: commaPieces s
      else
        match commaPieces s with
        | [] => [[c]]
        | t :: ts => (c :: t) :: ts

/-- The tokens of `strtok_r(.., ",")`, each without the space in front. -/
def commaTokens (s : Bytes) : List Bytes :=
  ((commaPieces s).filter fun t => !t.isEmpty).map fun t => t.dropWhile isspace

variable {m : Type → Type} [Monad m] (call : NodeId → Bytes → m Bool)

/-- The search of `:has`: a stack of at most 64 nodes. -/
def hasDescendant (sel : Bytes) : Nat → List NodeId → m Bool
  | 0, _ => pure false
  | _, [] => pure false
  | fuel + 1, cur :: stack =>
      if page.isElement cur then do
        if ← call cur sel then pure true
        else
          let room := 64 - stack.length
          hasDescendant sel fuel (((children page.heap cur).take room).reverse ++ stack)
      else hasDescendant sel fuel stack

/-- `:has`, with a non-empty argument. -/
def hasPseudo (arg : Bytes) : m Bool :=
  match arg.dropWhile isspace with
  | 62 :: r =>
      (children page.heap n).anyM fun c =>
        if page.isElement c then call c (r.dropWhile isspace) else pure false
  | 43 :: r =>
      match (page.nextElems n).head? with
      | some nxt => call nxt r
      | none => pure false
  | 126 :: r => (page.nextElems n).anyM fun s => call s r
  | cur =>
      hasDescendant page call cur (page.heap.size + 1)
        ((children page.heap n).take 64).reverse

/-- `match_pseudo` -/
def matchPseudo (name arg : Bytes) : m Bool :=
  match structuralPseudo page n name arg with
  | some b => pure b
  | none =>
    if name = ascii "is" || name = ascii "where" then
      (commaTokens (arg.take 255)).anyM (call n)
    else if name = ascii "has" then
      if arg.isEmpty then pure false else hasPseudo page n call arg
    else if name = ascii "not" then
      if arg.isEmpty then pure false
      else do
        let any ← (commaTokens (arg.take 127)).anyM (call n)
        pure !any
    else pure (statePseudo page n name)

end Pseudo

/-! ## Compound selectors -/

/-- `.`, `#`, `[` and `:` begin a simple selector. -/
def startsSimple (c : UInt8) : Bool := c == 46 || c == 35 || c == 91 || c == 58

/-- One simple selector behind the type selector. -/
inductive Simple where
  | cls (tok : Bytes)
  | id (tok : Bytes)
  | attr (name : Bytes) (op : Nat) (value : Bytes)
  | pseudo (name arg : Bytes)
  deriving DecidableEq, Repr

/-- `while (more(*p) && i < cap) buf[i++] = *p++;` -/
def readSome (cap : Nat) (more : UInt8 → Bool) (p : Bytes) : Bytes × Bytes :=
  let buf := (p.take cap).takeWhile more
  (buf, p.drop buf.length)

/-- The name after a type selector's start, `.` or `#`. -/
def readName (cap : Nat) (p : Bytes) : Bytes × Bytes :=
  let (buf, p) := readSome cap (fun c => !startsSimple c) p
  (buf.map tolower, p)

/-- The operator at `p`, 0 for none. -/
def readOp (p : Bytes) : Nat × Bytes :=
  match p with
  | 61 :: p => (1, p)
  | 126 :: 61 :: p => (2, p)
  | 94 :: 61 :: p => (3, p)
  | 36 :: 61 :: p => (4, p)
  | 42 :: 61 :: p => (5, p)
  | 124 :: 61 :: p => (6, p)
  | p => (0, p)

/-- The value after an operator. -/
def readValue (p : Bytes) : Bytes × Bytes :=
  match p with
  | [] => ([], [])
  | q :: r =>
      if q == 34 || q == 39 then
        let (av, r) := readSome 127 (fun c => c != q) r
        (av, if r.head? = some q then r.drop 1 else r)
      else readSome 127 (fun c => c != 93) (q :: r)

/-- An attribute selector, behind its `[`. -/
def readAttr (p : Bytes) : Simple × Bytes :=
  let (an, p) := readSome 63 (fun c => !(c == 93 || c == 61 || c == 126 || c == 94 || c == 36 ||
    c == 42 || c == 124)) p
  let (op, p) := readOp p
  let (av, p) := if op = 0 then ([], p) else readValue p
  (.attr (an.map tolower) op av, if p.head? = some 93 then p.drop 1 else p)

/-- The argument behind `(`: at most 127 bytes of it are kept, the closing `)` is not. -/
def readArg : Nat → Bytes → Bytes → Bytes × Bytes
  | _, arg, [] => (arg, [])
  | depth, arg, c :: p =>
      let keep := if arg.length < 127 then arg ++ [c] else arg
      if c == 40 then readArg (depth + 1) keep p
      else if c == 41 then
        match depth with
        | 0 => (arg, p)
        | 1 => (arg, p)
        | depth + 2 => readArg (depth + 1) keep p
      else readArg depth keep p

/-- A pseudo-class or pseudo-element, behind its first `:`. -/
def readPseudo (p : Bytes) : Simple × Bytes :=
  let p := if p.head? = some 58 then p.drop 1 else p
  let (pname, p) := readSome 31 (fun c => isalnum c || c == 45) p
  let (parg, p) := match p with
    | 40 :: p => readArg 1 [] p
    | p => ([], p)
  (.pseudo (pname.map tolower) parg, p)

/-- The simple selector that `p` starts with, and the text behind it. -/
def readSimple (p : Bytes) : Option (Simple × Bytes) :=
  match p with
  | 46 :: p =>
      let (tok, p) := readName 63 p
      some (.cls tok, p)
  | 35 :: p =>
      let (tok, p) := readName 63 p
      some (.id tok, p)
  | 91 :: p => some (readAttr p)
  | 58 :: p => some (readPseudo p)
  | _ => none

section Compound

variable (page : Page) {m : Type → Type} [Monad m] (call : NodeId → Bytes → m Bool)

/-- What a branch of the loop of `match_compound` tests. -/
def testSimple (n : NodeId) : Simple → m Bool
  | .cls tok => pure (classHas (page.attr n "class") tok)
  | .id tok => pure (match page.attr n "id" with
      | some v => ciEq v tok
      | none => false)
  | .attr an op av =>
      let got := miniNodeGetAttribute page.heap n an
      pure (if op = 0 then got.isSome else attrOpMatch got op av)
  | .pseudo name arg => matchPseudo page n call name arg

/-- The type selector a compound starts with, none when it starts with another. -/
def readType (sel : Bytes) : Option Bytes × Bytes :=
  match sel with
  | [] => (none, [])
  | c :: _ =>
      if startsSimple c then (none, sel)
      else
        let (tag, p) := readName 31 sel
        (some tag, p)

/-- The test of the type selector. -/
def testType (n : NodeId) : Option Bytes → Bool
  | none => true
  | some tag => tag == [42] ||
      match (page.heap.node n).tag with
      | some t => ciEq t tag
      | none => false

/-- The loop of `match_compound` from position `p` on.  The text is read again in every
round; it has at most 127 bytes. -/
def compoundLoop (text : m Bytes) (n : NodeId) : Nat → Nat → m Bool
  | 0, _ => pure true
  | fuel + 1, p => do
      let sel ← text
      match readSimple (sel.drop p) with
      | none => pure true
      | some (s, rest) =>
          if ← testSimple page call n s then
            compoundLoop text n fuel (p + ((sel.drop p).length - rest.length))
          else pure false

/-- `match_compound` -/
def matchCompound (text : m Bytes) (n : NodeId) : m Bool :=
  let type := (page.heap.node n).type
  if type ≠ .elementNode ∧ type ≠ .documentNode then pure false
  else do
    let sel ← text
    let (tag, rest) := readType sel
    if testType page n tag then compoundLoop page call text n 128 (sel.length - rest.length)
    else pure false

end Compound

/-! ## Splitting a complex selector -/

/-- A combinator (0 for the first) and the compound behind it. -/
abbrev Segment := UInt8 × Bytes

/-- The state of `parse_complex`: the segments that are complete, the one being written
and `saw_ws`. -/
structure Split where
  done : List Segment
  comb : UInt8
  seg : Bytes
  sawWs : Bool

namespace Split

/-- `if (i < 127) seg[nseg - 1][i++] = c;` for each of some bytes. -/
def push (st : Split) (bs : Bytes) : Split := { st with seg := (st.seg ++ bs).take 127 }

/-- Begin a segment, when there is room for one. -/
def next (st : Split) (maxseg : Nat) (c : UInt8) : Split :=
  if st.done.length + 1 < maxseg then
    { st with done := st.done ++ [(st.comb, st.seg)], comb := c, seg := [] }
  else st

end Split

/-- The `do` loop over a parenthesised argument. -/
def readGroup : Nat → Bytes → Bytes × Bytes
  | _, [] => ([], [])
  | depth, c :: s =>
      let depth := if c == 40 then depth + 1 else if c == 41 then depth - 1 else depth
      if depth = 0 then ([c], s)
      else
        let (g, rest) := readGroup depth s
        (c :: g, rest)

/-- The branch of `[`, behind it. -/
def splitAttr (st : Split) (s : Bytes) : Split × Bytes :=
  let st := (st.push [91]).push (s.takeWhile (· != 93))
  let s := s.dropWhile (· != 93)
  let (st, s) := if s.head? = some 93 then (st.push [93], s.drop 1) else (st, s)
  ({ st with sawWs := false }, s)

/-- The branch of `:`, behind it. -/
def splitPseudo (st : Split) (s : Bytes) : Split × Bytes :=
  let st := st.push [58]
  let (st, s) := if s.head? = some 58 ∧ st.seg.length < 127 then (st.push [58], s.drop 1)
    else (st, s)
  let name := s.takeWhile fun c => isalnum c || c == 45
  let st := st.push name
  let s := s.drop name.length
  let (st, s) := if s.head? = some 40 then
      let (g, rest) := readGroup 0 s
      (st.push g, rest)
    else (st, s)
  ({ st with sawWs := false }, s)

/-- The branch of a normal compound character. -/
def splitChar (maxseg : Nat) (st : Split) (c : UInt8) : Split :=
  if st.sawWs ∧ 0 < st.seg.length then
    { (st.next maxseg 32).push [c] with sawWs := false }
  else st.push [c]

/-- The loop of `parse_complex`.  Every round takes a byte at least. -/
def splitLoop (maxseg : Nat) : Nat → Split → Bytes → Split
  | 0, st, _ => st
  | _, st, [] => st
  | fuel + 1, st, c :: s =>
      if c == 91 then
        let (st, s) := splitAttr st s
        splitLoop maxseg fuel st s
      else if c == 58 then
        let (st, s) := splitPseudo st s
        splitLoop maxseg fuel st s
      else if c == 32 || c == 9 || c == 10 || c == 13 || c == 12 then
        splitLoop maxseg fuel { st with sawWs := true } s
      else if c == 62 || c == 43 || c == 126 then
        splitLoop maxseg fuel { st.next maxseg c with sawWs := false } (s.dropWhile isspace)
      else splitLoop maxseg fuel (splitChar maxseg st c) s

/-- `parse_complex(s0, seg, comb, 16)`: the segments in order. -/
def parseComplex (s0 : Bytes) : List Segment :=
  match s0.dropWhile isspace with
  | [] => []
  | c :: s =>
      let st := splitLoop 16 (s.length + 1) ⟨[], 0, [], false⟩ (c :: s)
      st.done ++ [(st.comb, st.seg)]

/-! ## Matching right to left -/

/-- What the pointers `seg` and `comb` give: the segment of an index. -/
abbrev Frame (m : Type → Type) := Nat → m Segment

section Match

variable (page : Page) {m : Type → Type} [Monad m] (call : NodeId → Bytes → m Bool)
  (frame : Frame m)

/-- `match_at`; the number is `idx = nseg - 1 - from_right`. -/
def matchAt : Nat → NodeId → m Bool
  | 0, n => matchCompound page call (do return (← frame 0).2) n
  | idx + 1, n => do
      if ← matchCompound page call (do return (← frame (idx + 1)).2) n then
        let cb := (← frame (idx + 1)).1
        if cb = 62 then
          match (page.heap.node n).parent with
          | some p => matchAt idx p
          | none => pure false
        else if cb = 32 then (page.ancestors n).anyM (matchAt idx)
        else if cb = 43 then
          match (page.prevElems n).head? with
          | some ps => matchAt idx ps
          | none => pure false
        else if cb = 126 then (page.prevElems n).anyM (matchAt idx)
        else pure false
      else pure false

end Match

/-- Segments that nothing overwrites. -/
def fixedFrame {m : Type → Type} [Monad m] (code : List Segment) : Frame m :=
  fun k => pure (code.getD k (0, []))

/-- `match_at` on a freshly parsed selector, the nested calls alike.  The bound is on
their depth. -/
def matchFreshRec (page : Page) : Nat → NodeId → Bytes → Bool
  | 0, _, _ => false
  | fuel + 1, n, sel =>
      let code := parseComplex sel
      if sel.isEmpty || code.isEmpty then false
      else Id.run (matchAt page (fun n t => pure (matchFreshRec page fuel n t))
        (fixedFrame code) (code.length - 1) n)

/-- The match without a cache. -/
def matchFresh (page : Page) (n : NodeId) (sel : Bytes) : Bool :=
  matchFreshRec page (sel.length + 1) n sel

end TinyFramework.Css
