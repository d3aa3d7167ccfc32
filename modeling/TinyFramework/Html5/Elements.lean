/-
  Html5/Elements.lean --- the element tables and the character references of
  `mini_html5.c`.

  The tables are those of the source in its order.  `strcmp` is equality of byte
  lists, `h5_ci` equality after `tolower`.
-/
import TinyFramework.Foundation.Ascii

set_option autoImplicit false

namespace TinyFramework.Html5

open TinyFramework.Foundation

/-! ## Element classes -/

/-- The table of `h5_is_special`. -/
def specialTags : List Bytes :=
  ["address", "applet", "area", "article", "aside", "base", "basefont", "bgsound",
    "blockquote", "body", "br", "button", "caption", "center", "col", "colgroup", "dd",
    "details", "dir", "div", "dl", "dt", "embed", "fieldset", "figcaption", "figure", "footer",
    "form", "frame", "frameset", "h1", "h2", "h3", "h4", "h5", "h6", "head", "header",
    "hgroup", "hr", "html", "iframe", "img", "input", "isindex", "li", "link", "listing",
    "main", "marquee", "menu", "meta", "nav", "noembed", "noframes", "noscript", "object",
    "ol", "p", "param", "plaintext", "pre", "script", "section", "select", "style", "summary",
    "table", "tbody", "td", "template", "textarea", "tfoot", "th", "thead", "title", "tr",
    "ul", "wbr", "xmp"].map ascii

/-- The table of `h5_is_formatting`. -/
def formattingTags : List Bytes :=
  ["a", "b", "big", "code", "em", "font", "i", "nobr", "s", "small", "strike", "strong", "tt",
    "u"].map ascii

/-- The table of `h5_is_rawtext`. -/
def rawtextTags : List Bytes :=
  ["style", "script", "xmp", "iframe", "noembed", "noframes", "noscript", "plaintext"].map ascii

/-- The table of `is_implied_end`. -/
def impliedEndTags : List Bytes :=
  ["dd", "dt", "li", "option", "optgroup", "p", "rb", "rp", "rt", "rtc", "thead", "tbody",
    "tfoot", "tr", "td", "th"].map ascii

/-- The table of `h5_closes_p`. -/
def closesPTags : List Bytes :=
  ["address", "article", "aside", "blockquote", "center", "details", "dialog", "dir", "div",
    "dl", "fieldset", "figcaption", "figure", "footer", "form", "h1", "h2", "h3", "h4", "h5",
    "h6", "header", "hgroup", "hr", "main", "nav", "ol", "p", "pre", "section", "table", "ul",
    "listing", "summary"].map ascii

/-- `DEFAULT_SCOPE` of `has_in_scope`. -/
def defaultScopeTags : List Bytes :=
  ["applet", "caption", "html", "table", "td", "th", "marquee", "object", "template"].map ascii

/-- `TABLE_SCOPE` of `has_in_scope`. -/
def tableScopeTags : List Bytes :=
  ["html", "table"].map ascii

/-- The rows of `TAG_TABLE` with `F_VOID`. -/
def voidTags : List Bytes :=
  ["base", "link", "meta", "hr", "br", "wbr", "input", "area", "embed", "img", "param",
    "source", "track", "col"].map ascii

/-- `h5_ci`: equality without regard to ASCII case. -/
def h5Ci (a b : Bytes) : Bool :=
  a.map tolower == b.map tolower

/-- `n->tag && h5_ci(n->tag, tag)`. -/
def tagIs (a : Option Bytes) (tag : Bytes) : Bool :=
  a.any fun t => h5Ci t tag

/-- `h5_is_special`. -/
def h5IsSpecial (t : Bytes) : Bool := t ∈ specialTags

/-- `h5_is_formatting`. -/
def h5IsFormatting (t : Bytes) : Bool := t ∈ formattingTags

/-- `h5_is_rcdata`. -/
def h5IsRcdata (t : Bytes) : Bool := t == ascii "title" || t == ascii "textarea"

/-- `h5_is_rawtext`. -/
def h5IsRawtext (t : Bytes) : Bool := t ∈ rawtextTags

/-- `is_implied_end`. -/
def isImpliedEnd (t : Bytes) : Bool := impliedEndTags.any (h5Ci t)

/-- `h5_closes_p`. -/
def h5ClosesP (t : Bytes) : Bool := closesPTags.any (h5Ci t)

/-- `mini_element_info(tag)->is_void`. -/
def isVoid (t : Bytes) : Bool := t ∈ voidTags

/-- `mini_element_info(tag)->is_raw_text`. -/
def elementIsRawtext (t : Bytes) : Bool :=
  t ∈ ["script", "style", "title", "textarea"].map ascii

/-- What a C function sees of a buffer as a string: the bytes before the first
NUL. -/
def cstr (b : Bytes) : Bytes := b.takeWhile (· ≠ 0)

/-! ## Character references -/

/-- `H5_ENT`. -/
def h5Ent : List (Bytes × Bytes) :=
  ([
    ("amp", [38]), ("lt", [60]), ("gt", [62]), ("quot", [34]), ("apos", [39]), ("nbsp", [32]),
    ("ldquo", [0xE2, 0x80, 0x9C]), ("rdquo", [0xE2, 0x80, 0x9D]),
    ("lsquo", [0xE2, 0x80, 0x98]), ("rsquo", [0xE2, 0x80, 0x99]),
    ("sbquo", [0xE2, 0x80, 0x9A]), ("bdquo", [0xE2, 0x80, 0x9E]),
    ("prime", [0xE2, 0x80, 0xB2]), ("Prime", [0xE2, 0x80, 0xB3]),
    ("mdash", [0xE2, 0x80, 0x94]), ("ndash", [0xE2, 0x80, 0x93]),
    ("hellip", [0xE2, 0x80, 0xA6]), ("copy", [0xC2, 0xA9]), ("reg", [0xC2, 0xAE]),
    ("trade", [0xE2, 0x84, 0xA2]), ("deg", [0xC2, 0xB0]), ("plusmn", [0xC2, 0xB1]),
    ("times", [0xC3, 0x97]), ("divide", [0xC3, 0xB7]), ("micro", [0xC2, 0xB5]),
    ("para", [0xC2, 0xB6]), ("sect", [0xC2, 0xA7]), ("middot", [0xC2, 0xB7]),
    ("bull", [0xE2, 0x80, 0xA2]), ("euro", [0xE2, 0x82, 0xAC]), ("pound", [0xC2, 0xA3]),
    ("cent", [0xC2, 0xA2]), ("yen", [0xC2, 0xA5]), ("darr", [0xE2, 0x86, 0x93]),
    ("uarr", [0xE2, 0x86, 0x91]), ("larr", [0xE2, 0x86, 0x90]), ("rarr", [0xE2, 0x86, 0x92]),
    ("harr", [0xE2, 0x86, 0x94]), ("lArr", [0xE2, 0x87, 0x90]), ("uArr", [0xE2, 0x87, 0x91]),
    ("rArr", [0xE2, 0x87, 0x92]), ("dArr", [0xE2, 0x87, 0x93]), ("hArr", [0xE2, 0x87, 0x94]),
    ("dagger", [0xE2, 0x80, 0xA0]), ("Dagger", [0xE2, 0x80, 0xA1]), ("laquo", [0xC2, 0xAB]),
    ("raquo", [0xC2, 0xBB]), ("ensp", [0xE2, 0x80, 0x82]), ("emsp", [0xE2, 0x80, 0x83]),
    ("thinsp", [0xE2, 0x80, 0x89]), ("iexcl", [0xC2, 0xA1]), ("iquest", [0xC2, 0xBF]),
    ("frac12", [0xC2, 0xBD]), ("frac14", [0xC2, 0xBC]), ("frac34", [0xC2, 0xBE]),
    ("sup2", [0xC2, 0xB2]), ("sup3", [0xC2, 0xB3]), ("szlig", [0xC3, 0x9F]),
    ("minus", [0xE2, 0x88, 0x92]), ("infin", [0xE2, 0x88, 0x9E]),
    ("radic", [0xE2, 0x88, 0x9A]), ("ne", [0xE2, 0x89, 0xA0]), ("equiv", [0xE2, 0x89, 0xA1]),
    ("le", [0xE2, 0x89, 0xA4]), ("ge", [0xE2, 0x89, 0xA5]), ("sum", [0xE2, 0x88, 0x91]),
    ("prod", [0xE2, 0x88, 0x8F]), ("int", [0xE2, 0x88, 0xAB]), ("spades", [0xE2, 0x99, 0xA0]),
    ("clubs", [0xE2, 0x99, 0xA3]), ("hearts", [0xE2, 0x99, 0xA5]),
    ("diams", [0xE2, 0x99, 0xA6]), ("check", [0xE2, 0x9C, 0x93]), ("agrave", [0xC3, 0xA0]),
    ("eacute", [0xC3, 0xA9]), ("egrave", [0xC3, 0xA8]), ("ccedil", [0xC3, 0xA7]),
    ("uuml", [0xC3, 0xBC]), ("ouml", [0xC3, 0xB6]), ("auml", [0xC3, 0xA4]),
    ("aacute", [0xC3, 0xA1]), ("iacute", [0xC3, 0xAD]), ("oacute", [0xC3, 0xB3]),
    ("uacute", [0xC3, 0xBA]), ("ntilde", [0xC3, 0xB1])
  ] : List (String × Bytes)).map fun e => (ascii e.1, e.2)

/-- `h5_utf8`. -/
def h5Utf8 (cp : UInt32) : Bytes :=
  if cp < 0x80 then [cp.toUInt8]
  else if cp < 0x800 then [((cp >>> 6) ||| 0xC0).toUInt8, ((cp &&& 0x3F) ||| 0x80).toUInt8]
  else if cp < 0x10000 then
    [((cp >>> 12) ||| 0xE0).toUInt8, (((cp >>> 6) &&& 0x3F) ||| 0x80).toUInt8,
      ((cp &&& 0x3F) ||| 0x80).toUInt8]
  else
    [((cp >>> 18) ||| 0xF0).toUInt8, (((cp >>> 12) &&& 0x3F) ||| 0x80).toUInt8,
      (((cp >>> 6) &&& 0x3F) ||| 0x80).toUInt8, ((cp &&& 0x3F) ||| 0x80).toUInt8]

/-- The digit value of the numeric loop, -1 being `none`. -/
def refDigit (hex : Bool) (c : UInt8) : Option UInt32 :=
  if 48 ≤ c ∧ c ≤ 57 then some (c - 48).toUInt32
  else if hex ∧ 97 ≤ c ∧ c ≤ 102 then some (c - 97 + 10).toUInt32
  else if hex ∧ 65 ≤ c ∧ c ≤ 70 then some (c - 65 + 10).toUInt32
  else none

/-- The digit loop: value, number of digits, and the rest of the input.  `val` is
an `int`; its overflow wraps. -/
def refDigits (hex : Bool) : UInt32 → Nat → Bytes → UInt32 × Nat × Bytes
  | val, digits, [] => (val, digits, [])
  | val, digits, c :: s =>
      match refDigit hex c with
      | none => (val, digits, c :: s)
      | some d => refDigits hex (val * 16 + d) (digits + 1) s

/-- The letters and digits of a named reference. -/
def isRefName (c : UInt8) : Bool :=
  (97 ≤ c && c ≤ 122) || (65 ≤ c && c ≤ 90) || (48 ≤ c && c ≤ 57)

/-- `h5_decode_ref` on the input after the `&`: what is written and the number of
bytes used, the `&` included; `none` is the return value 0. -/
def h5DecodeRefBody (s : Bytes) : Option (Bytes × Nat) :=
  match s with
  | 35 :: s =>
      let (hex, s, used) : Bool × Bytes × Nat := match s with
        | 120 :: s => (true, s, 3)
        | 88 :: s => (true, s, 3)
        | s => (false, s, 2)
      let (val, digits, rest) := refDigits hex 0 0 s
      let used := used + digits
      -- `val > 0x10FFFF` compares as `int`, so a wrapped negative value passes it
      let cp := if val = 0 ∨ (0x10FFFF < val ∧ val < 0x80000000) then 0xFFFD else val
      if digits = 0 then none
      else match rest with
        | [] => none
        | 59 :: _ => some (h5Utf8 cp, used + 1)
        | _ => some (h5Utf8 cp, used)
  | s =>
      let name := s.takeWhile isRefName
      let rest := s.dropWhile isRefName
      if name = [] then none
      else match rest with
        | [] => none
        | c :: _ =>
            (h5Ent.find? fun e => e.1 == name.take 23).map fun e =>
              (e.2, if c = 59 then name.length + 2 else name.length + 1)

/-- `h5_decode_ref`. -/
def h5DecodeRef (s : Bytes) : Option (Bytes × Nat) :=
  match s with
  | 38 :: s => h5DecodeRefBody s
  | _ => none

end TinyFramework.Html5
