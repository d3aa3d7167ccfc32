/-
  Dom/OuterHtml.lean --- innerHTML and outerHTML.

  A second, smaller parser than the HTML5 one: it works on a C string, keeps a stack of
  64 open elements, and hangs every node it makes under the innermost of them.  The
  input is what is left of the string; a C string has no NUL byte in it.

  The serializer writes into a buffer of `cap` bytes and leaves out what does not fit.
  `Content` is a child list as a tree; for a heap that shows it and a buffer that is
  large enough the output is its `render`.
-/
import TinyFramework.Dom.Mutation
import TinyFramework.Html5.Elements
import Mathlib.Data.Finset.Card

set_option autoImplicit false

namespace TinyFramework.Dom

open TinyFramework.Foundation

/-! ## Character references -/

/-- `HTML_ENT` -/
def htmlEnt : List (Bytes × Bytes) :=
  ([
    ("amp", [38]), ("lt", [60]), ("gt", [62]), ("quot", [34]), ("apos", [39]), ("nbsp", [32]),
    ("ldquo", [0xE2, 0x80, 0x9C]), ("rdquo", [0xE2, 0x80, 0x9D]), ("lsquo", [0xE2, 0x80, 0x98]),
    ("rsquo", [0xE2, 0x80, 0x99]), ("copy", [0xC2, 0xA9]), ("reg", [0xC2, 0xAE]),
    ("trade", [0xE2, 0x84, 0xA2]), ("mdash", [0xE2, 0x80, 0x94]), ("ndash", [0xE2, 0x80, 0x93]),
    ("hellip", [0xE2, 0x80, 0xA6]), ("laquo", [0xC2, 0xAB]), ("raquo", [0xC2, 0xBB]),
    ("times", [0xC3, 0x97]), ("divide", [0xC3, 0xB7]), ("deg", [0xC2, 0xB0]),
    ("plusmn", [0xC2, 0xB1]), ("micro", [0xC2, 0xB5]), ("para", [0xC2, 0xB6]),
    ("sect", [0xC2, 0xA7]), ("middot", [0xC2, 0xB7]), ("bull", [0xE2, 0x80, 0xA2]),
    ("prime", [0xE2, 0x80, 0xB2]), ("Prime", [0xE2, 0x80, 0xB3]), ("euro", [0xE2, 0x82, 0xAC]),
    ("pound", [0xC2, 0xA3]), ("cent", [0xC2, 0xA2]), ("yen", [0xC2, 0xA5]),
    ("dagger", [0xE2, 0x80, 0xA0]), ("Dagger", [0xE2, 0x80, 0xA1]), ("darr", [0xE2, 0x86, 0x93]),
    ("uarr", [0xE2, 0x86, 0x91]), ("larr", [0xE2, 0x86, 0x90]), ("rarr", [0xE2, 0x86, 0x92]),
    ("harr", [0xE2, 0x86, 0x94]), ("ensp", [0xE2, 0x80, 0x82]), ("emsp", [0xE2, 0x80, 0x83]),
    ("thinsp", [0xE2, 0x80, 0x89]), ("iexcl", [0xC2, 0xA1]), ("iquest", [0xC2, 0xBF]),
    ("frac12", [0xC2, 0xBD]), ("frac14", [0xC2, 0xBC]), ("frac34", [0xC2, 0xBE]),
    ("sup2", [0xC2, 0xB2]), ("sup3", [0xC2, 0xB3]), ("szlig", [0xC3, 0x9F])
  ] : List (String × Bytes)).map fun e => (ascii e.1, e.2)

/-- `if (*len + k < cap) { memcpy(...); *len += k; }`, here for `out` of length `*len`. -/
def putIf (fits : Bool) (out bs : Bytes) : Bytes :=
  if fits then out ++ bs else out

/-- The digit loop of a numeric reference: `code`, an `int` whose overflow wraps, or
`none` at a character that is no digit. -/
def refCode (hex : Bool) : Bytes → UInt32 → Option UInt32
  | [], code => some code
  | c :: s, code =>
      match Html5.refDigit hex c with
      | none => none
      | some d => refCode hex s (code * (if hex then 16 else 10) + d)

/-- The bytes of a numeric reference; from 0x800 on always three. -/
def refBytes (code : UInt32) : Bytes :=
  if code < 0x80 then [code.toUInt8]
  else if code < 0x800 then [((code >>> 6) ||| 0xC0).toUInt8, ((code &&& 0x3F) ||| 0x80).toUInt8]
  else [((code >>> 12) ||| 0xE0).toUInt8, (((code >>> 6) &&& 0x3F) ||| 0x80).toUInt8,
    ((code &&& 0x3F) ||| 0x80).toUInt8]

/-- The branches between `&` and `;`: the output when the reference is handled. -/
def decodeEntity (ent : Bytes) (cap : Nat) (out : Bytes) : Option Bytes :=
  match ent with
  | 35 :: c :: s =>
      let hex := c == 120 || c == 88
      match refCode hex (if hex then s else c :: s) 0 with
      | none => none
      | some code =>
          -- a code that wrapped to a negative `int` is refused as well
          if 0x10FFFF < code then none
          else
            let bs := refBytes code
            some (putIf (decide (out.length + (bs.length - 1) < cap)) out bs)
  | _ =>
      (htmlEnt.find? fun e => e.1 == ent).map fun e =>
        e.2.foldl (fun out b => putIf (decide (out.length < cap)) out [b]) out

/-- The loop of `decode_entities`; the first argument bounds its rounds. -/
def decodeLoop (cap : Nat) : Nat → Bytes → Bytes → Bytes
  | 0, _, out => out
  | _, [], out => out
  | fuel + 1, c :: s, out =>
      if c ≠ 38 then decodeLoop cap fuel s (putIf (decide (out.length < cap)) out [c])
      else
        -- the `;` is looked for in the 15 bytes after the `&`
        match ((s.take 15).idxOf? 59).bind fun k => (decodeEntity (s.take k) cap out).map (k, ·) with
        | some (k, out) => decodeLoop cap fuel (s.drop (k + 1)) out
        | none => decodeLoop cap fuel s (putIf (decide (out.length < cap)) out [38])

/-- `decode_entities` -/
def decodeEntities (src : Bytes) (cap : Nat) : Bytes :=
  decodeLoop cap src.length src []

/-! ## The parser -/

/-- A loop that reads up to `n` bytes, as long as none of them stops it. -/
def readSpan (stop : UInt8 → Bool) (n : Nat) (p : Bytes) : Bytes × Bytes :=
  let got := (p.take n).takeWhile fun c => !stop c
  (got, p.drop got.length)

def skipSpaces (p : Bytes) : Bytes :=
  p.dropWhile isspace

/-- `while (*p && *p != '>') p++; if (*p == '>') p++;` -/
def skipPast (c : UInt8) (p : Bytes) : Bytes :=
  (p.dropWhile (· ≠ c)).drop 1

/-- `strstr`: what comes before the first `pat`, and what comes after it. -/
def splitAt (pat : Bytes) : Bytes → Option (Bytes × Bytes)
  | [] => if pat = [] then some ([], []) else none
  | c :: s =>
      if pat <+: c :: s then some ([], (c :: s).drop pat.length)
      else (splitAt pat s).map fun r => (c :: r.1, r.2)

/-- The value of an attribute after its `=`. -/
def readValue (p : Bytes) : Bytes × Bytes :=
  let p := skipSpaces p
  match p with
  | [] => ([], [])
  | q :: s =>
      let (raw, rest) : Bytes × Bytes :=
        if q = 34 ∨ q = 39 then (s.takeWhile (· ≠ q), skipPast q s)
        else
          let stop := fun c : UInt8 => c == 62 || c == 47 || isspace c
          (p.takeWhile fun c => !stop c, p.dropWhile fun c => !stop c)
      -- the buffer is read as a C string
      (Html5.cstr (decodeEntities raw raw.length), rest)

/-- The attribute loop: the pairs with a name, and what is left.  The bound is the
number of bytes. -/
def readAttrs : Nat → Bytes → List (Bytes × Bytes) × Bytes
  | 0, p => ([], p)
  | fuel + 1, p =>
      match p with
      | [] => ([], [])
      | c :: _ =>
          if c = 62 ∨ c = 47 then ([], p)
          else
            let p := skipSpaces p
            match p with
            | [] => ([], [])
            | c :: _ =>
                if c = 62 ∨ c = 47 then ([], p)
                else
                  let (name, p) := readSpan
                    (fun c => c == 61 || c == 62 || c == 47 || isspace c) 63 p
                  let p := skipSpaces p
                  let (value, p) : Bytes × Bytes := match p with
                    | 61 :: p => readValue p
                    | p => ([], p)
                  let (attrs, p) := readAttrs fuel p
                  (if name = [] then attrs else (name.map tolower, value) :: attrs, p)

/-- The state of the parser: the heap, the stack with the innermost element first, and
the rest of the input. -/
structure Fragment where
  heap : NodeHeap
  stack : List NodeId
  rest : Bytes

namespace Fragment

/-- `mini_node_append_child(stack[sp - 1], n)`. -/
def append (f : Fragment) (n : NodeId) (d : NodeHeap) : NodeHeap :=
  (miniNodeAppendChild d f.stack.head? (some n)).2

/-- A comment or another `<!`.  A comment that ends inside its own `<!--` has a
negative length, and no node can be made of it. -/
def markup (f : Fragment) : Fragment :=
  if ascii "<!--" <+: f.rest then
    match splitAt (ascii "-->") f.rest with
    | none =>
        let (n, d) := miniNodeCreateComment f.heap (some (f.rest.drop 4))
        { f with heap := f.append n d, rest := [] }
    | some (before, rest) =>
        if before.length < 4 then { f with rest := rest }
        else
          let (n, d) := miniNodeCreateComment f.heap (some (before.drop 4))
          { f with heap := f.append n d, rest := rest }
  else { f with rest := skipPast 62 f.rest }

/-- An end tag, from after `</`: it closes the innermost element only. -/
def endTag (f : Fragment) (p : Bytes) : Fragment :=
  let (tag, p) := readSpan (fun c => c == 62 || isspace c) 31 p
  let tag := tag.map tolower
  if Html5.elementIsRawtext tag then { f with rest := skipPast 62 p }
  else
    let stack := match f.stack with
      | top :: below :: stack =>
          if (f.heap.node top).tag = some tag then below :: stack else f.stack
      | stack => stack
    { f with stack := stack, rest := skipPast 62 p }

/-- A start tag, from after `<`. -/
def startTag (f : Fragment) (p : Bytes) : Fragment :=
  let (tag, p) := readSpan (fun c => c == 62 || c == 47 || isspace c) 31 p
  let tag := tag.map tolower
  if tag = [] then { f with rest := p }
  else
    let (n, d) := miniNodeCreateElement f.heap (some tag)
    let (attrs, p) := readAttrs p.length p
    let d := attrs.foldl (fun d a => miniNodeSetAttribute d n a.1 a.2) d
    let selfClosing := p.head? == some 47
    { f with
      heap := f.append n d
      stack := if !selfClosing && !Html5.isVoid tag && f.stack.length < 64 then n :: f.stack
        else f.stack
      rest := skipPast 62 p }

/-- Text up to the next `<`. -/
def text (f : Fragment) : Fragment :=
  let raw := f.rest.takeWhile (· ≠ 60)
  let (n, d) := miniNodeCreateText f.heap (some (decodeEntities raw raw.length))
  { f with heap := f.append n d, rest := f.rest.dropWhile (· ≠ 60) }

/-- One round of the loop. -/
def step (f : Fragment) : Fragment :=
  match f.rest with
  | 60 :: 33 :: _ => f.markup
  | 60 :: 47 :: p => f.endTag p
  | 60 :: p => f.startTag p
  | _ => f.text

/-- The loop; the bound is the number of bytes. -/
def loop : Nat → Fragment → Fragment
  | 0, f => f
  | fuel + 1, f => if f.rest = [] then f else loop fuel f.step

end Fragment

/-- `mini_dom_parse_fragment_into_node` -/
def miniDomParseFragmentIntoNode (d : NodeHeap) (parent : NodeId) (html : Bytes) : NodeHeap :=
  (Fragment.loop html.length ⟨d, [parent], html⟩).heap

/-- `mini_node_set_inner_html` after the old children are gone. -/
def fillInnerHtml (d : NodeHeap) (n : NodeId) (html : Bytes) : NodeHeap :=
  if html = [] then d
  else if 60 ∉ html then
    let (t, d) := miniNodeCreateText d (some html)
    (miniNodeAppendChild d (some n) (some t)).2
  else miniDomParseFragmentIntoNode d n html

/-! ## The source -/

/-- `if (*len + k < cap) { memcpy(*p + *len, bs, k); *len += k; }` -/
def put (cap : Nat) (out bs : Bytes) : Bytes :=
  putIf (decide (out.length + bs.length < cap)) out bs

/-- Byte by byte, as long as there is room. -/
def putBytes (cap : Nat) (out bs : Bytes) : Bytes :=
  bs.foldl (fun out b => put cap out [b]) out

/-- What `html_escape` writes for one byte. -/
def escapeByte (c : UInt8) : Bytes :=
  if c = 60 then ascii "&lt;"
  else if c = 62 then ascii "&gt;"
  else if c = 38 then ascii "&amp;"
  else if c = 34 then ascii "&quot;"
  else [c]

/-- `html_escape` -/
def htmlEscape (cap : Nat) (out v : Bytes) : Bytes :=
  v.foldl (fun out c => put cap out (escapeByte c)) out

/-- One attribute. -/
def serializeAttr (cap : Nat) (out : Bytes) (a : Bytes × Bytes) : Bytes :=
  let out := putBytes cap (put cap out [32]) a.1
  let out := htmlEscape cap (put cap out [61, 34]) a.2
  put cap out [34]

/-- `serialize_html_node_raw`; the bound is on the depth. -/
def serializeHtmlNodeRaw (d : NodeHeap) (cap : Nat) : Nat → NodeId → Bytes → Bytes
  | 0, _, out => out
  | fuel + 1, n, out =>
      let node := d.node n
      let inner := fun out =>
        (children d n).foldl (fun out c => serializeHtmlNodeRaw d cap fuel c out) out
      match node.type with
      | .textNode => htmlEscape cap out (node.text.getD [])
      | .commentNode =>
          put cap (htmlEscape cap (put cap out (ascii "<!--")) (node.text.getD [])) (ascii "-->")
      | .documentTypeNode =>
          put cap (htmlEscape cap (put cap out (ascii "<!DOCTYPE ")) (node.tag.getD [])) [62]
      | .documentNode => inner out
      | .documentFragmentNode => inner out
      | _ =>
        let tag := node.tag.getD []
        let out := putBytes cap (put cap out [60]) tag
        let out := node.attrs.foldl (serializeAttr cap) out
        if Html5.isVoid tag then put cap out (ascii " />")
        else
          let out := put cap out [62]
          let out := match node.text with
            | some s => if Html5.elementIsRawtext tag then putBytes cap out s else inner out
            | none => inner out
          put cap (putBytes cap (put cap out [60, 47]) tag) [62]

/-- `mini_dom_outer_html`; the depth of a subtree is at most the number of nodes. -/
def miniDomOuterHtml (d : NodeHeap) (n : NodeId) (inner : Bool) (cap : Nat) : Bytes :=
  if cap = 0 then []
  else if inner then
    (children d n).foldl (fun out c => serializeHtmlNodeRaw d cap d.size c out) []
  else serializeHtmlNodeRaw d cap d.size n []

/-! ## Child lists as trees -/

/-- A child list: its first child and the rest. -/
inductive Content where
  | nil
  | text (s : Bytes) (rest : Content)
  | void (tag : Bytes) (attrs : List (Bytes × Bytes)) (rest : Content)
  | elem (tag : Bytes) (attrs : List (Bytes × Bytes)) (kids rest : Content)
  deriving DecidableEq, Repr

/-- A text node. -/
structure IsText (d : NodeHeap) (c : NodeId) (s : Bytes) : Prop where
  type : (d.node c).type = .textNode
  text : (d.node c).text = some s
  leaf : children d c = []

/-- An element; a raw-text element has its text in its children. -/
structure IsElement (same : List (Bytes × Bytes) → List (Bytes × Bytes) → Prop) (d : NodeHeap)
    (c : NodeId) (tag : Bytes) (attrs : List (Bytes × Bytes)) : Prop where
  type : (d.node c).type = .elementNode
  text : Html5.elementIsRawtext tag = true → (d.node c).text = none
  tag : (d.node c).tag = some tag
  attrs : same (d.node c).attrs attrs

/-- The nodes `l` are the content, with attributes that are the `same`. -/
def Shows (same : List (Bytes × Bytes) → List (Bytes × Bytes) → Prop) (d : NodeHeap) :
    List NodeId → Content → Prop
  | l, .nil => l = []
  | l, .text s rest => ∃ c l', l = c :: l' ∧ IsText d c s ∧ Shows same d l' rest
  | l, .void tag attrs rest => ∃ c l', l = c :: l' ∧ IsElement same d c tag attrs ∧
      children d c = [] ∧ Shows same d l' rest
  | l, .elem tag attrs kids rest => ∃ c l', l = c :: l' ∧ IsElement same d c tag attrs ∧
      Shows same d (children d c) kids ∧ Shows same d l' rest

/-- Void elements are those with a void tag. -/
def Content.Tagged : Content → Prop
  | .nil => True
  | .text _ rest => rest.Tagged
  | .void tag _ rest => Html5.isVoid tag = true ∧ rest.Tagged
  | .elem tag _ kids rest => Html5.isVoid tag = false ∧ kids.Tagged ∧ rest.Tagged

/-! ## The markup of a tree -/

def escape (v : Bytes) : Bytes := v.flatMap escapeByte

def renderAttr (a : Bytes × Bytes) : Bytes :=
  32 :: (a.1 ++ 61 :: 34 :: (escape a.2 ++ [34]))

def renderAttrs (attrs : List (Bytes × Bytes)) : Bytes := attrs.flatMap renderAttr

def Content.render : Content → Bytes
  | .nil => []
  | .text s rest => escape s ++ rest.render
  | .void tag attrs rest => 60 :: (tag ++ (renderAttrs attrs ++ (ascii " />" ++ rest.render)))
  | .elem tag attrs kids rest =>
      60 :: (tag ++ (renderAttrs attrs ++ (62 :: (kids.render ++
        (60 :: 47 :: (tag ++ 62 :: rest.render))))))

/-! ## The serializer with room -/

/-- With room for it, `f` writes `bs`. -/
def Writes (cap : Nat) (f : Bytes → Bytes) (bs : Bytes) : Prop :=
  ∀ out, (out ++ bs).length < cap → f out = out ++ bs

namespace Writes

variable {cap : Nat} {f g : Bytes → Bytes} {bs bs' : Bytes}

theorem nothing (cap : Nat) : Writes cap (fun out => out) [] := fun out _ => by simp

theorem then_ (hf : Writes cap f bs) (hg : Writes cap g bs') :
    Writes cap (fun out => g (f out)) (bs ++ bs') := by
  intro out hroom
  rw [← List.append_assoc] at hroom
  have hfirst : (out ++ bs).length < cap := by
    rw [List.length_append] at hroom
    exact Nat.lt_of_le_of_lt (Nat.le_add_right _ _) hroom
  change g (f out) = _
  rw [← List.append_assoc, hf out hfirst, hg _ hroom]

theorem foldl {α : Type} {f : Bytes → α → Bytes} {r : α → Bytes} (l : List α)
    (h : ∀ a ∈ l, Writes cap (fun out => f out a) (r a)) :
    Writes cap (fun out => l.foldl f out) (l.flatMap r) := by
  induction l with
  | nil => exact nothing cap
  | cons a l ih =>
    rw [List.flatMap_cons]
    exact (h a List.mem_cons_self).then_ (ih fun b hb => h b (List.mem_cons_of_mem a hb))

theorem put (cap : Nat) (bs : Bytes) : Writes cap (fun out => Dom.put cap out bs) bs := by
  intro out hroom
  rw [List.length_append] at hroom
  change putIf (decide (out.length + bs.length < cap)) out bs = _
  rw [decide_eq_true hroom]
  rfl

theorem putBytes (cap : Nat) (bs : Bytes) : Writes cap (fun out => Dom.putBytes cap out bs) bs := by
  have h := foldl (r := fun b => [b]) bs fun b _ => put cap [b]
  rwa [show bs.flatMap (fun b => [b]) = bs by simp] at h

theorem htmlEscape (cap : Nat) (v : Bytes) :
    Writes cap (fun out => Dom.htmlEscape cap out v) (escape v) :=
  foldl v fun c _ => put cap (escapeByte c)

theorem serializeAttr (cap : Nat) (a : Bytes × Bytes) :
    Writes cap (fun out => Dom.serializeAttr cap out a) (renderAttr a) := by
  have h := ((((put cap [32]).then_ (putBytes cap a.1)).then_ (put cap [61, 34])).then_
    (htmlEscape cap a.2)).then_ (put cap [34])
  have heq : [32] ++ a.1 ++ [61, 34] ++ escape a.2 ++ [34] = renderAttr a := by simp [renderAttr]
  exact heq ▸ h

theorem serializeAttrs (cap : Nat) (attrs : List (Bytes × Bytes)) :
    Writes cap (fun out => attrs.foldl (Dom.serializeAttr cap) out) (renderAttrs attrs) :=
  foldl attrs fun a _ => serializeAttr cap a

end Writes

section Serialize

variable {d : NodeHeap} {cap k : Nat} {c : NodeId}

theorem writes_text {s : Bytes} (h : IsText d c s) :
    Writes cap (serializeHtmlNodeRaw d cap (k + 1) c) (escape s) := by
  intro out hroom
  rw [serializeHtmlNodeRaw, h.type, h.text]
  exact Writes.htmlEscape cap s out hroom

/-- A start tag without its end. -/
theorem writes_open (cap : Nat) (tag : Bytes) (attrs : List (Bytes × Bytes)) :
    Writes cap (fun out => attrs.foldl (serializeAttr cap) (putBytes cap (put cap out [60]) tag))
      (60 :: (tag ++ renderAttrs attrs)) :=
  ((Writes.put cap [60]).then_ (Writes.putBytes cap tag)).then_ (Writes.serializeAttrs cap attrs)

theorem writes_void {tag : Bytes} {attrs : List (Bytes × Bytes)} (h : IsElement Eq d c tag attrs)
    (hvoid : Html5.isVoid tag = true) :
    Writes cap (serializeHtmlNodeRaw d cap (k + 1) c)
      (60 :: (tag ++ (renderAttrs attrs ++ ascii " />"))) := by
  intro out hroom
  have hwrites := (writes_open cap tag attrs).then_ (Writes.put cap (ascii " />"))
  rw [List.cons_append, List.append_assoc] at hwrites
  rw [← hwrites out hroom, serializeHtmlNodeRaw, h.type, h.tag, h.attrs]
  simp only [Option.getD_some, hvoid, if_true]

theorem writes_elem {tag bs : Bytes} {attrs : List (Bytes × Bytes)}
    (h : IsElement Eq d c tag attrs) (hvoid : Html5.isVoid tag = false)
    (hkids : Writes cap (fun out =>
      (children d c).foldl (fun out c => serializeHtmlNodeRaw d cap k c out) out) bs) :
    Writes cap (serializeHtmlNodeRaw d cap (k + 1) c)
      (60 :: (tag ++ (renderAttrs attrs ++ (62 :: (bs ++ (60 :: 47 :: (tag ++ [62]))))))) := by
  intro out hroom
  have hwrites := ((((((writes_open cap tag attrs).then_ (Writes.put cap [62])).then_ hkids).then_
    (Writes.put cap [60, 47])).then_ (Writes.putBytes cap tag)).then_ (Writes.put cap [62]))
  have heq : 60 :: (tag ++ renderAttrs attrs) ++ [62] ++ bs ++ [60, 47] ++ tag ++ [62] =
      60 :: (tag ++ (renderAttrs attrs ++ (62 :: (bs ++ (60 :: 47 :: (tag ++ [62])))))) := by simp
  rw [heq] at hwrites
  rw [← hwrites out hroom, serializeHtmlNodeRaw, h.type, h.tag, h.attrs]
  cases htext : (d.node c).text with
  | none => simp [hvoid]
  | some s =>
    cases hraw : Html5.elementIsRawtext tag with
    | true =>
      rw [h.text hraw] at htext
      cases htext
    | false => simp [hvoid, hraw]

/-- The nodes below a child list lie in a set: the bound on the depth is its size. -/
theorem writes_shows (hd : WellFormed d) {fuel : Nat} {t : Content} (ht : t.Tagged) {l : List NodeId}
    (hl : Shows Eq d l t) {A : Finset NodeId}
    (hA : ∀ c ∈ l, ∀ y, Below d.parentOf y c → y ∈ A) (hfuel : A.card ≤ fuel) :
    Writes cap (fun out => l.foldl (fun out c => serializeHtmlNodeRaw d cap fuel c out) out)
      t.render := by
  have hpos : ∀ c ∈ l, ∃ k, fuel = k + 1 := fun c hc =>
    Nat.exists_eq_succ_of_ne_zero (Nat.ne_of_gt (Nat.lt_of_lt_of_le
      (Finset.card_pos.2 ⟨c, hA c hc c (Below.refl c)⟩) hfuel))
  induction t generalizing l A fuel with
  | nil =>
    obtain rfl := hl
    exact Writes.nothing cap
  | text s rest ih =>
    obtain ⟨c, l, rfl, hc, hrest⟩ := hl
    obtain ⟨k, rfl⟩ := hpos c List.mem_cons_self
    have hafter := ih ht hrest (fun x hx => hA x (List.mem_cons_of_mem c hx)) hfuel
      fun x hx => hpos x (List.mem_cons_of_mem c hx)
    exact (writes_text (k := k) hc).then_ hafter
  | void tag attrs rest ih =>
    obtain ⟨c, l, rfl, hc, -, hrest⟩ := hl
    obtain ⟨k, rfl⟩ := hpos c List.mem_cons_self
    have hafter := ih ht.2 hrest (fun x hx => hA x (List.mem_cons_of_mem c hx)) hfuel
      fun x hx => hpos x (List.mem_cons_of_mem c hx)
    have hwrites := (writes_void (k := k) hc ht.1).then_ hafter
    rwa [show 60 :: (tag ++ (renderAttrs attrs ++ ascii " />")) ++ rest.render =
      (Content.void tag attrs rest).render by simp [Content.render]] at hwrites
  | elem tag attrs kids rest ihkids ihrest =>
    obtain ⟨c, l, rfl, hc, hkids, hrest⟩ := hl
    obtain ⟨k, rfl⟩ := hpos c List.mem_cons_self
    have hcard : (A.erase c).card ≤ k := by
      rw [Finset.card_erase_of_mem (hA c List.mem_cons_self c (Below.refl c))]
      omega
    have hbelow : ∀ x ∈ children d c, ∀ y, Below d.parentOf y x → y ∈ A.erase c := by
      intro x hx y hy
      have hparent := hd.mirrors.parent c x hx
      refine Finset.mem_erase.2 ⟨?_, hA c List.mem_cons_self y (hy.trans (Below.of_parent hparent))⟩
      rintro rfl
      exact hd.acyclic.not_below_of_parent hparent hy
    have hinner := ihkids ht.2.1 hkids hbelow hcard fun x hx =>
      Nat.exists_eq_succ_of_ne_zero (Nat.ne_of_gt (Nat.lt_of_lt_of_le
        (Finset.card_pos.2 ⟨x, hbelow x hx x (Below.refl x)⟩) hcard))
    have hafter := ihrest ht.2.2 hrest (fun x hx => hA x (List.mem_cons_of_mem c hx)) hfuel
      fun x hx => hpos x (List.mem_cons_of_mem c hx)
    have hwrites := (writes_elem hc ht.1 hinner).then_ hafter
    rwa [show 60 :: (tag ++ (renderAttrs attrs ++ (62 :: (kids.render ++
        (60 :: 47 :: (tag ++ [62])))))) ++ rest.render =
      (Content.elem tag attrs kids rest).render by simp [Content.render]] at hwrites

/-- The children of a node that shows `t` are serialized as the markup of `t`. -/
theorem miniDomOuterHtml_inner (hd : WellFormed d) {n : NodeId} {t : Content} (ht : t.Tagged)
    (hn : Shows Eq d (children d n) t) (hcap : t.render.length < cap) :
    miniDomOuterHtml d n true cap = t.render := by
  have hcap' : cap ≠ 0 := Nat.ne_of_gt (Nat.lt_of_le_of_lt (Nat.zero_le _) hcap)
  have hA : ∀ c ∈ children d n, ∀ y, Below d.parentOf y c → y ∈ Finset.range d.size := by
    intro c hc y hy
    rw [Finset.mem_range]
    rcases hy.eq_or_parent with rfl | ⟨p, hp, -⟩
    · exact hd.mirrors.child_lt hc
    · exact (hd.mirrors.allocated y p hp).1
  have hwrites : Writes cap _ t.render :=
    writes_shows hd ht hn hA (Nat.le_of_eq (Finset.card_range _))
  rw [miniDomOuterHtml, if_neg hcap', if_pos rfl]
  exact hwrites [] hcap

end Serialize

end TinyFramework.Dom
