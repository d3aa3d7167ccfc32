/-
  Html5/Tokenizer.lean --- the tokenizer of `mini_html5.c` and the streaming
  interface around it.

  The tokenizer hands each token to `process`, which the source calls
  `process_token`.  It is a parameter in a monad: `Id` with the tree builder
  itself is the program, and `Option` gives the readings that also check a
  condition at every token.  `continue` without `i++` re-enters the switch on the
  same byte, so a state that does it calls the handler of its new state.
-/
import TinyFramework.Html5.TreeBuilder

set_option autoImplicit false

namespace TinyFramework.Html5

open TinyFramework.Foundation TinyFramework.Dom

/-! ## State -/

/-- `H5TokState`. -/
inductive H5TokState where
  | data
  | tagOpen
  | endTagOpen
  | tagName
  | beforeAttrName
  | attrName
  | afterAttrName
  | beforeAttrValue
  | attrValueDq
  | attrValueSq
  | attrValueUq
  | afterAttrValue
  | selfClosing
  | bogusComment
  | markupDeclOpen
  | comment
  | doctype
  | rawtext
  | rcdata
  | eof
  deriving DecidableEq, Repr

/-- `MiniHtml5Parser`. -/
structure Parser where
  tree : TreeBuilder
  ts : H5TokState := .data
  acc : Bytes := []
  cur : H5Token := {}
  carry : Bytes := []

/-- `tok_add_attr`. -/
def H5Token.addAttr (t : H5Token) (name : Bytes) : H5Token :=
  { t with attrs := t.attrs ++ [(name, [])] }

/-- `set_last_attr_value`. -/
def H5Token.setLastAttrValue (t : H5Token) (v : Bytes) : H5Token :=
  match t.attrs.getLast? with
  | none => t
  | some (n, _) => { t with attrs := t.attrs.dropLast ++ [(n, v)] }

/-- The white space the tokenizer skips. -/
def isTokSpace (c : UInt8) : Bool :=
  c == 32 || c == 9 || c == 10 || c == 13 || c == 12

/-- `isalpha` in the C locale. -/
def isalpha (c : UInt8) : Bool :=
  (65 ≤ c && c ≤ 90) || (97 ≤ c && c ≤ 122)

namespace Parser

variable (p : Parser)

/-- `acc_putc`. -/
def accPutc (c : UInt8) : Parser := { p with acc := p.acc ++ [c] }

/-- `acc_reset`, then `acc_putc`. -/
def accStart (c : UInt8) : Parser := { p with acc := [c] }

/-- `tok_set_name(&p->cur, p->acc); acc_reset(p);` -/
def nameFromAcc : Parser :=
  { p with cur := { p.cur with name := cstr p.acc }, acc := [] }

/-- `tok_add_attr(&p->cur, p->acc, ""); acc_reset(p);` -/
def attrFromAcc : Parser := { p with cur := p.cur.addAttr (cstr p.acc), acc := [] }

/-- `set_last_attr_value(&p->cur, p->acc); acc_reset(p);` -/
def valueFromAcc : Parser := { p with cur := p.cur.setLastAttrValue (cstr p.acc), acc := [] }

def goto (ts : H5TokState) : Parser := { p with ts := ts }

/-- `p->ts = TS_BOGUS_COMMENT; acc_reset(p);` -/
def enterBogusComment : Parser := { p with ts := .bogusComment, acc := [] }

/-- `maybe_enter_rawtext`. -/
def maybeEnterRawtext : Parser :=
  match p.tree.tag p.tree.currentNode with
  | none => p
  | some t =>
      if h5IsRawtext t then { p with ts := .rawtext, cur := { name := t } }
      else if h5IsRcdata t then { p with ts := .rcdata, cur := { name := t } }
      else p

/-! ## Raw text -/

/-- The search for `</name`: the text before it and what follows the `</`. -/
def findRawEnd (tn : Bytes) : Bytes → Option (Bytes × Bytes)
  | [] => none
  | c :: rest =>
      match c, rest with
      | 60, 47 :: after =>
          if (tn.map tolower).isPrefixOf (after.map tolower) then some ([], after)
          else (findRawEnd tn rest).map fun r => (c :: r.1, r.2)
      | _, _ => (findRawEnd tn rest).map fun r => (c :: r.1, r.2)

/-- Past the name and the `>` of the end tag. -/
def afterRawEnd (tn after : Bytes) : Bytes :=
  ((after.drop tn.length).dropWhile (· ≠ 62)).drop 1

/-- The decoding loop of `TS_RCDATA` over its 1024-byte buffer: the contents
flushed when it fills up, and what is left in it. -/
def rcdataChunks : Nat → Bytes → Bytes → List Bytes × Bytes
  | 0, out, _ => ([], out)
  | _, out, [] => ([], out)
  | fuel + 1, out, c :: s =>
      match h5DecodeRef (c :: s) with
      | some (o, u) =>
          let out := out ++ (o.take u).take (1023 - out.length)
          rcdataChunks fuel out ((c :: s).drop u)
      | none =>
          let out := if c = 38 ∨ out.length + 1 < 1024 then out ++ [c] else out
          if 1020 ≤ out.length then
            let (chunks, left) := rcdataChunks fuel [] s
            (cstr out :: chunks, left)
          else rcdataChunks fuel out s

/-! ## The switch -/

variable {m : Type → Type} [Monad m] (process : TreeBuilder → H5Token → m TreeBuilder)

/-- Hand a token to the tree builder. -/
def send (t : H5Token) : m Parser := do
  let tree ← process p.tree t
  pure { p with tree := tree }

/-- `emit_char` and `emit_ref`. -/
def emitChar (u : Bytes) : m Parser :=
  p.send process { type := .char, name := cstr u }

/-- `emit_current`. -/
def emitCurrent : m Parser := do
  if p.cur.type = .comment ∨ p.cur.type = .doctype then
    let p ← p.send process p.cur
    pure { p with cur := {} }
  else if p.cur.name = [] then pure { p with cur := {} }
  else
    let wasStart := p.cur.type = .start
    let p ← p.send process { p.cur with name := p.cur.name.map tolower }
    let p : Parser := { p with cur := {} }
    pure (if wasStart then p.maybeEnterRawtext else p)

/-- `case TS_DATA`. -/
def stepData (c : UInt8) (rest : Bytes) : m (Parser × Bytes) := do
  if c = 38 then
    match h5DecodeRef (c :: rest) with
    | some (out, used) =>
        let p ← p.emitChar process out
        pure (p, (c :: rest).drop used)
    | none =>
        let p ← p.emitChar process [38]
        pure (p, rest)
  else if c = 60 then pure (p.goto .tagOpen, rest)
  else
    let isText : UInt8 → Bool := fun c => c ≠ 60 ∧ c ≠ 38
    let p ← p.emitChar process ((c :: rest).takeWhile isText)
    pure (p, (c :: rest).dropWhile isText)

/-- The current token named by the accumulator. -/
def withAccToken (type : H5TokType) : Parser :=
  { p with cur := { p.cur with name := cstr p.acc, type := type }, ts := .data }

/-- `tok_set_name(&p->cur, p->acc); p->cur.type = type; p->ts = TS_DATA;
emit_current(p);` -/
def emitAcc (type : H5TokType) (rest : Bytes) : m (Parser × Bytes) := do
  let p ← (p.withAccToken type).emitCurrent process
  pure (p, rest)

/-- `case TS_BOGUS_COMMENT`. -/
def stepBogusComment (c : UInt8) (rest : Bytes) : m (Parser × Bytes) :=
  if c = 62 then p.emitAcc process .comment rest else pure (p.accPutc c, rest)

/-- `case TS_TAG_OPEN`. -/
def stepTagOpen (c : UInt8) (rest : Bytes) : m (Parser × Bytes) := do
  if c = 33 then pure (p.goto .markupDeclOpen, rest)
  else if c = 47 then pure (p.goto .endTagOpen, rest)
  else if isalpha c then
    pure ({ p.accStart c with cur := { p.cur with type := .start }, ts := .tagName }, rest)
  else if c = 63 then pure (p.enterBogusComment, rest)
  else
    let p ← p.emitChar process [60]
    (p.goto .data).stepData process c rest

/-- `case TS_END_TAG_OPEN`. -/
def stepEndTagOpen (c : UInt8) (rest : Bytes) : m (Parser × Bytes) :=
  if isalpha c then
    pure ({ p.accStart c with cur := { p.cur with type := .endTag }, ts := .tagName }, rest)
  else if c = 62 then pure (p.goto .data, rest)
  else p.enterBogusComment.stepBogusComment process c rest

/-- `p->ts = TS_DATA; emit_current(p); i++;` -/
def closeTag (rest : Bytes) : m (Parser × Bytes) := do
  let p ← (p.goto .data).emitCurrent process
  pure (p, rest)

/-- `case TS_TAG_NAME`. -/
def stepTagName (c : UInt8) (rest : Bytes) : m (Parser × Bytes) :=
  if isTokSpace c then pure (p.nameFromAcc.goto .beforeAttrName, rest)
  else if c = 47 then pure (p.nameFromAcc.goto .selfClosing, rest)
  else if c = 62 then p.nameFromAcc.closeTag process rest
  else pure (p.accPutc c, rest)

/-- `case TS_AFTER_ATTR_NAME`. -/
def stepAfterAttrName (c : UInt8) (rest : Bytes) : m (Parser × Bytes) :=
  if isTokSpace c then pure (p, rest)
  else if c = 47 then pure (p.goto .selfClosing, rest)
  else if c = 61 then pure (p.goto .beforeAttrValue, rest)
  else if c = 62 then p.closeTag process rest
  else pure ((p.accStart c).goto .attrName, rest)

/-- `case TS_BEFORE_ATTR_NAME`. -/
def stepBeforeAttrName (c : UInt8) (rest : Bytes) : m (Parser × Bytes) :=
  if isTokSpace c then pure (p, rest)
  else if c = 47 ∨ c = 62 then (p.goto .afterAttrName).stepAfterAttrName process c rest
  else pure ((p.accStart c).goto .attrName, rest)

/-- `case TS_ATTR_NAME`. -/
def stepAttrName (c : UInt8) (rest : Bytes) : m (Parser × Bytes) :=
  if isTokSpace c then pure (p.attrFromAcc.goto .afterAttrName, rest)
  else if c = 47 ∨ c = 62 then
    (p.attrFromAcc.goto .afterAttrName).stepAfterAttrName process c rest
  else if c = 61 then pure (p.attrFromAcc.goto .beforeAttrValue, rest)
  else pure (p.accPutc c, rest)

/-- The part the three attribute-value states share: a reference is decoded into
the accumulator, any other byte is taken as it is. -/
def valueByte (c : UInt8) (rest : Bytes) : m (Parser × Bytes) :=
  if c = 38 then
    match h5DecodeRef (c :: rest) with
    | some (o, u) => pure ({ p with acc := p.acc ++ o }, (c :: rest).drop u)
    | none => pure (p.accPutc 38, rest)
  else pure (p.accPutc c, rest)

/-- `case TS_ATTR_VALUE_DQ` and `case TS_ATTR_VALUE_SQ`, with their quote. -/
def stepAttrValueQuoted (quote : UInt8) (c : UInt8) (rest : Bytes) : m (Parser × Bytes) :=
  if c = quote then pure (p.valueFromAcc.goto .afterAttrValue, rest)
  else p.valueByte c rest

/-- `case TS_ATTR_VALUE_UQ`. -/
def stepAttrValueUq (c : UInt8) (rest : Bytes) : m (Parser × Bytes) :=
  if isTokSpace c then pure (p.valueFromAcc.goto .afterAttrValue, rest)
  else if c = 62 then p.valueFromAcc.closeTag process rest
  else p.valueByte c rest

/-- `case TS_BEFORE_ATTR_VALUE`. -/
def stepBeforeAttrValue (c : UInt8) (rest : Bytes) : m (Parser × Bytes) :=
  if isTokSpace c then pure (p, rest)
  else if c = 34 then pure (p.goto .attrValueDq, rest)
  else if c = 39 then pure (p.goto .attrValueSq, rest)
  else if c = 62 then p.closeTag process rest
  else (p.goto .attrValueUq).stepAttrValueUq process c rest

/-- `case TS_AFTER_ATTR_VALUE`. -/
def stepAfterAttrValue (c : UInt8) (rest : Bytes) : m (Parser × Bytes) :=
  if isTokSpace c then pure (p.goto .beforeAttrName, rest)
  else if c = 47 then pure (p.goto .selfClosing, rest)
  else if c = 62 then p.closeTag process rest
  else (p.goto .beforeAttrName).stepBeforeAttrName process c rest

/-- `case TS_SELF_CLOSING`. -/
def stepSelfClosing (c : UInt8) (rest : Bytes) : m (Parser × Bytes) :=
  if c = 62 then
    ({ p with cur := { p.cur with isSelfClosing := true } } : Parser).closeTag process rest
  else (p.goto .beforeAttrName).stepBeforeAttrName process c rest

/-- `case TS_MARKUP_DECL_OPEN`. -/
def stepMarkupDeclOpen (c : UInt8) (rest : Bytes) : m (Parser × Bytes) :=
  if c = 45 ∧ rest.head? = some 45 then
    pure ({ p with ts := .comment, acc := [] }, rest.tail)
  else if tolower c = 100 then pure ((p.accStart c).goto .doctype, rest)
  else p.enterBogusComment.stepBogusComment process c rest

/-- `case TS_COMMENT`. -/
def stepComment (c : UInt8) (rest : Bytes) : m (Parser × Bytes) :=
  if c = 45 ∧ rest.take 2 = [45, 62] then p.emitAcc process .comment (rest.drop 2)
  else pure (p.accPutc c, rest)

/-- `case TS_DOCTYPE`. -/
def stepDoctype (c : UInt8) (rest : Bytes) : m (Parser × Bytes) :=
  if c = 62 then p.emitAcc process .doctype rest else pure (p.accPutc c, rest)

/-- A character token for each chunk. -/
def sendChunks : Parser → List Bytes → m Parser
  | p, [] => pure p
  | p, u :: us => do
      let p ← p.send process { type := .char, name := u }
      sendChunks p us

/-- The chunks of raw text: one for `TS_RAWTEXT`, the decoded buffers for
`TS_RCDATA`, of which the last is emitted only in front of an end tag. -/
def rawChunks (text : Bytes) (atEnd : Bool) : List Bytes :=
  if text = [] then []
  else if p.ts = .rcdata then
    let (chunks, left) := rcdataChunks text.length [] text
    if atEnd ∧ left ≠ [] then chunks ++ [cstr left] else chunks
  else [cstr text]

/-- `case TS_RAWTEXT` and `case TS_RCDATA`. -/
def stepRaw (buf : Bytes) : m (Parser × Bytes) := do
  match findRawEnd p.cur.name buf with
  | some (text, after) =>
      let rest := afterRawEnd p.cur.name after
      let p ← sendChunks process p (p.rawChunks text true)
      let p ← p.send process { type := .endTag, name := p.cur.name }
      pure ({ p with cur := {}, ts := .data }, rest)
  | none =>
      let p ← sendChunks process p (p.rawChunks buf false)
      pure (p, [])

/-- One round of the loop of `tokenize_run` on a non-empty rest of the buffer. -/
def step (c : UInt8) (rest : Bytes) : m (Parser × Bytes) :=
  match p.ts with
  | .data => p.stepData process c rest
  | .tagOpen => p.stepTagOpen process c rest
  | .endTagOpen => p.stepEndTagOpen process c rest
  | .tagName => p.stepTagName process c rest
  | .beforeAttrName => p.stepBeforeAttrName process c rest
  | .attrName => p.stepAttrName process c rest
  | .afterAttrName => p.stepAfterAttrName process c rest
  | .beforeAttrValue => p.stepBeforeAttrValue process c rest
  | .attrValueDq => p.stepAttrValueQuoted 34 c rest
  | .attrValueSq => p.stepAttrValueQuoted 39 c rest
  | .attrValueUq => p.stepAttrValueUq process c rest
  | .afterAttrValue => p.stepAfterAttrValue process c rest
  | .selfClosing => p.stepSelfClosing process c rest
  | .bogusComment => p.stepBogusComment process c rest
  | .markupDeclOpen => p.stepMarkupDeclOpen process c rest
  | .comment => p.stepComment process c rest
  | .doctype => p.stepDoctype process c rest
  | .rawtext | .rcdata => p.stepRaw process (c :: rest)
  | .eof => pure (p, [])

/-- The loop of `tokenize_run`; every round uses up a byte. -/
def tokenizeLoop : Nat → Parser → Bytes → m Parser
  | 0, p, _ => pure p
  | _, p, [] => pure p
  | fuel + 1, p, c :: rest => do
      let (p, rest) ← p.step process c rest
      tokenizeLoop fuel p rest

/-- `tokenize_run`. -/
def tokenizeRun (buf : Bytes) : m Parser :=
  tokenizeLoop process buf.length p buf

/-! ## Streaming -/

/-- The tail from the last `&` on, unless a `;` follows it; the buffer is given
backwards. -/
def refTail : Bytes → Bytes → Bytes
  | [], _ => []
  | c :: back, tail =>
      if c = 38 then c :: tail else if c = 59 then [] else refTail back (c :: tail)

/-- The tail from the last `<` on. -/
def tagTail : Bytes → Bytes → Bytes
  | [], _ => []
  | c :: back, tail => if c = 60 then c :: tail else tagTail back (c :: tail)

/-- The tail from the last `</` on. -/
def endTagTail : Bytes → Bytes → Bytes
  | [], _ => []
  | c :: back, tail =>
      if c = 60 ∧ tail.head? = some 47 then c :: tail else endTagTail back (c :: tail)

/-- `carryover_tail`, as the bytes carried over. -/
def carryoverTail (ts : H5TokState) (buf : Bytes) : Bytes :=
  match ts with
  | .data | .rcdata => refTail buf.reverse []
  | .rawtext => endTagTail buf.reverse []
  | .eof => []
  | _ => tagTail buf.reverse []

/-- `mini_html5_feed`. -/
def miniHtml5Feed (data : Bytes) : m Parser := do
  if data = [] then pure p
  else
    let work := p.carry ++ data
    let p ← p.tokenizeRun process work
    pure { p with carry := carryoverTail p.ts work }

/-- `mini_html5_finish`. -/
def miniHtml5Finish : m Parser :=
  if p.carry = [] then pure p
  else ({ p with carry := [] } : Parser).tokenizeRun process (cstr p.carry)

end Parser

/-! ## Documents -/

/-- `mini_doc_create`: the heap, the root and the body. -/
def miniDocCreate : NodeHeap × NodeId × NodeId :=
  let (root, d) := miniNodeCreateElement NodeHeap.empty (some (ascii "#document"))
  let d := d.modify root fun n => { n with type := .documentNode }
  let (body, d) := miniNodeCreateElement d (some (ascii "body"))
  ((miniNodeAppendChild d (some root) (some body)).2, root, body)

/-- `mini_html5_init` on a document: the heap, the root and the body pointer. -/
def miniHtml5Init (d : NodeHeap) (root : NodeId) (body : Option NodeId) : Parser :=
  let s := TreeBuilder.ensureHtml { heap := d, root := root, body := body }
  let html := (children s.heap root).findRev? fun c => tagIs (s.tag c) (ascii "html")
  let body := html.bind fun h =>
    (children s.heap h).findRev? fun c => tagIs (s.tag c) (ascii "body")
  let s := { s with mode := .inBody }
  let s := match html with
    | some h => s.openPush h
    | none => s
  match body with
  | some b => { tree := { s with body := some b }.openPush b }
  | none =>
      let (b, d) := miniNodeCreateElement s.heap (some (ascii "body"))
      let s := ({ s with heap := d } : TreeBuilder).appendChild (html.getD root) b
      { tree := { s with body := some b }.openPush b }

/-- The tree builder as the program runs it. -/
def processId (s : TreeBuilder) (t : H5Token) : Id TreeBuilder := s.processToken t

/-- A fresh parser on a fresh document. -/
def freshParser : Parser :=
  miniHtml5Init miniDocCreate.1 miniDocCreate.2.1 (some miniDocCreate.2.2)

/-- Feed the chunks one by one, then finish. -/
def parseChunks {m : Type → Type} [Monad m] (process : TreeBuilder → H5Token → m TreeBuilder)
    (p : Parser) (chunks : List Bytes) : m Parser := do
  let p ← chunks.foldlM (fun p a => p.miniHtml5Feed process a) p
  p.miniHtml5Finish process

end TinyFramework.Html5
