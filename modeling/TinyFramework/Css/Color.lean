/-
  Css/Color.lean --- colours and their cache.

  Floats are an arbitrary type with the operations the parser uses, `strtod` and the
  math library among them.  The parser writes its four outputs exactly on the paths
  that return 1, so it returns a color or nothing.  `color-mix` parses its two colors
  with `mini_parse_color`, which is the parameter `nested` here: it takes a state and
  hands a new one back.

  `mini_parse_color` remembers the return value and the four outputs of short strings,
  failures included.  A failed parse writes none of its locals, so what it remembers
  and copies out then are the contents of uninitialised variables; they are the
  arbitrary values `junk` here.  Every entry says what the parser says of its key, and
  for a string the parser accepts that is all a caller can see.
-/
import TinyFramework.Foundation.ProbeTable
import Mathlib.Algebra.Order.Ring.Rat

set_option autoImplicit false

namespace TinyFramework.Css

open TinyFramework.Foundation

universe u

/-- `float`, `strtod` and the math library. -/
class FloatOps (F : Type u) extends Add F, Sub F, Mul F, Div F where
  /-- The float nearest to `m / 10 ^ e`, a literal of the source. -/
  lit (m : Int) (e : Nat) : F
  lt : F → F → Bool
  le : F → F → Bool
  cosf : F → F
  sinf : F → F
  powf : F → F → F
  /-- The number a string starts with and how many bytes it takes; zero and no bytes
  when there is none. -/
  strtod : Bytes → F × Nat

/-- The four outputs `r`, `g`, `b`, `a`. -/
structure Rgba (F : Type u) where
  r : F
  g : F
  b : F
  a : F
  deriving DecidableEq, Repr

/-- `isdigit` -/
def isdigit (c : UInt8) : Bool := 48 ≤ c && c ≤ 57

/-- `isxdigit` -/
def isxdigit (c : UInt8) : Bool :=
  isdigit c || (65 ≤ c && c ≤ 70) || (97 ≤ c && c ≤ 102)

/-- The value of a hexadecimal digit. -/
def hexValue (c : UInt8) : Nat :=
  if isdigit c then c.toNat - 48 else (tolower c).toNat - 87

/-- `strtoul(s, NULL, 16)` -/
def strtoul16 (s : Bytes) : UInt64 :=
  let s := s.dropWhile isspace
  let (neg, s) := match s with
    | 45 :: rest => (true, rest)
    | 43 :: rest => (false, rest)
    | _ => (false, s)
  let s := match s with
    | 48 :: x :: c :: rest => if tolower x = 120 ∧ isxdigit c then c :: rest else s
    | _ => s
  let v := (s.takeWhile isxdigit).foldl (fun v c => v * 16 + hexValue c) 0
  if 2 ^ 64 ≤ v then UInt64.ofNat (2 ^ 64 - 1)
  else if neg then 0 - UInt64.ofNat v else UInt64.ofNat v

/-- `strncmp(s, lit, strlen(lit)) == 0` -/
def startsWith (s : Bytes) (p : String) : Bool := (ascii p).isPrefixOf s

/-- `strstr(s, lit) != NULL` -/
def contains (s : Bytes) (p : String) : Bool := s.tails.any fun t => startsWith t p

/-- What stands between the first `(` and the last `)`, when they are in this order. -/
def betweenParens (low : Bytes) : Option Bytes :=
  match low.idxOf? 40, low.reverse.idxOf? 41 with
  | some o, some back =>
      let close := low.length - 1 - back
      if o < close then some ((low.take close).drop (o + 1)) else none
  | _, _ => none

/-- `NAMED_COLORS` -/
def namedColors : List (String × Nat × Nat × Nat) :=
  [("aliceblue", 240, 248, 255), ("antiquewhite", 250, 235, 215), ("aqua", 0, 255, 255),
    ("aquamarine", 127, 255, 212), ("azure", 240, 255, 255), ("beige", 245, 245, 220),
    ("bisque", 255, 228, 196), ("black", 0, 0, 0), ("blanchedalmond", 255, 235, 205),
    ("blue", 0, 0, 255), ("blueviolet", 138, 43, 226), ("brown", 165, 42, 42),
    ("burlywood", 222, 184, 135), ("cadetblue", 95, 158, 160), ("chartreuse", 127, 255, 0),
    ("chocolate", 210, 105, 30), ("coral", 255, 127, 80), ("cornflowerblue", 100, 149, 237),
    ("cornsilk", 255, 248, 220), ("crimson", 220, 20, 60), ("cyan", 0, 255, 255),
    ("darkblue", 0, 0, 139), ("darkcyan", 0, 139, 139), ("darkgoldenrod", 184, 134, 11),
    ("darkgray", 169, 169, 169), ("darkgreen", 0, 100, 0), ("darkgrey", 169, 169, 169),
    ("darkkhaki", 189, 183, 107), ("darkmagenta", 139, 0, 139), ("darkolivegreen", 85, 107, 47),
    ("darkorange", 255, 140, 0), ("darkorchid", 153, 50, 204), ("darkred", 139, 0, 0),
    ("darksalmon", 233, 150, 122), ("darkseagreen", 143, 188, 143),
    ("darkslateblue", 72, 61, 139), ("darkslategray", 47, 79, 79), ("darkslategrey", 47, 79, 79),
    ("darkturquoise", 0, 206, 209), ("darkviolet", 148, 0, 211), ("deeppink", 255, 20, 147),
    ("deepskyblue", 0, 191, 255), ("dimgray", 105, 105, 105), ("dimgrey", 105, 105, 105),
    ("dodgerblue", 30, 144, 255), ("firebrick", 178, 34, 34), ("floralwhite", 255, 250, 240),
    ("forestgreen", 34, 139, 34), ("fuchsia", 255, 0, 255), ("gainsboro", 220, 220, 220),
    ("ghostwhite", 248, 248, 255), ("gold", 255, 215, 0), ("goldenrod", 218, 165, 32),
    ("gray", 128, 128, 128), ("green", 0, 128, 0), ("greenyellow", 173, 255, 47),
    ("grey", 128, 128, 128), ("honeydew", 240, 255, 240), ("hotpink", 255, 105, 180),
    ("indianred", 205, 92, 92), ("indigo", 75, 0, 130), ("ivory", 255, 255, 240),
    ("khaki", 240, 230, 140), ("lavender", 230, 230, 250), ("lavenderblush", 255, 240, 245),
    ("lawngreen", 124, 252, 0), ("lemonchiffon", 255, 250, 205), ("lightblue", 173, 216, 230),
    ("lightcoral", 240, 128, 128), ("lightcyan", 224, 255, 255),
    ("lightgoldenrodyellow", 250, 250, 210), ("lightgray", 211, 211, 211),
    ("lightgreen", 144, 238, 144), ("lightgrey", 211, 211, 211), ("lightpink", 255, 182, 193),
    ("lightsalmon", 255, 160, 122), ("lightseagreen", 32, 178, 170),
    ("lightskyblue", 135, 206, 250), ("lightslategray", 119, 136, 153),
    ("lightslategrey", 119, 136, 153), ("lightsteelblue", 176, 196, 222),
    ("lightyellow", 255, 255, 224), ("lime", 0, 255, 0), ("limegreen", 50, 205, 50),
    ("linen", 250, 240, 230), ("magenta", 255, 0, 255), ("maroon", 128, 0, 0),
    ("mediumaquamarine", 102, 205, 170), ("mediumblue", 0, 0, 205),
    ("mediumorchid", 186, 85, 211), ("mediumpurple", 147, 112, 219),
    ("mediumseagreen", 60, 179, 113), ("mediumslateblue", 123, 104, 238),
    ("mediumspringgreen", 0, 250, 154), ("mediumturquoise", 72, 209, 204),
    ("mediumvioletred", 199, 21, 133), ("midnightblue", 25, 25, 112),
    ("mintcream", 245, 255, 250), ("mistyrose", 255, 228, 225), ("moccasin", 255, 228, 181),
    ("navajowhite", 255, 222, 173), ("navy", 0, 0, 128), ("oldlace", 253, 245, 230),
    ("olive", 128, 128, 0), ("olivedrab", 107, 142, 35), ("orange", 255, 165, 0),
    ("orangered", 255, 69, 0), ("orchid", 218, 112, 214), ("palegoldenrod", 238, 232, 170),
    ("palegreen", 152, 251, 152), ("paleturquoise", 175, 238, 238),
    ("palevioletred", 219, 112, 147), ("papayawhip", 255, 239, 213), ("peachpuff", 255, 218, 185),
    ("peru", 205, 133, 63), ("pink", 255, 192, 203), ("plum", 221, 160, 221),
    ("powderblue", 176, 224, 230), ("purple", 128, 0, 128), ("rebeccapurple", 102, 51, 153),
    ("red", 255, 0, 0), ("rosybrown", 188, 143, 143), ("royalblue", 65, 105, 225),
    ("saddlebrown", 139, 69, 19), ("salmon", 250, 128, 114), ("sandybrown", 244, 164, 96),
    ("seagreen", 46, 139, 87), ("seashell", 255, 245, 238), ("sienna", 160, 82, 45),
    ("silver", 192, 192, 192), ("skyblue", 135, 206, 235), ("slateblue", 106, 90, 205),
    ("slategray", 112, 128, 144), ("slategrey", 112, 128, 144), ("snow", 255, 250, 250),
    ("springgreen", 0, 255, 127), ("steelblue", 70, 130, 180), ("tan", 210, 180, 140),
    ("teal", 0, 128, 128), ("thistle", 216, 191, 216), ("tomato", 255, 99, 71),
    ("turquoise", 64, 224, 208), ("violet", 238, 130, 238), ("wheat", 245, 222, 179),
    ("white", 255, 255, 255), ("whitesmoke", 245, 245, 245), ("yellow", 255, 255, 0),
    ("yellowgreen", 154, 205, 50)]

section Float

variable {F : Type u} [FloatOps F]

open FloatOps

/-- An integer as a float. -/
def num (n : Nat) : F := lit n 0

/-- `hue2rgb` -/
def hue2rgb (p q t : F) : F :=
  let t := if lt t (num 0) then t + num 1 else t
  let t := if lt (num 1) t then t - num 1 else t
  if lt t (num 1 / num 6) then p + (q - p) * num 6 * t
  else if lt t (lit 5 1) then q
  else if lt t (num 2 / num 3) then p + (q - p) * (num 2 / num 3 - t) * num 6
  else p

/-- `hsl_to_rgb` -/
def hslToRgb (h s l : F) : F × F × F :=
  if le s (num 0) then (l, l, l)
  else
    let q := if lt l (lit 5 1) then l * (num 1 + s) else l + s - l * s
    let p := num 2 * l - q
    (hue2rgb p q (h + num 1 / num 3), hue2rgb p q h, hue2rgb p q (h - num 1 / num 3))

/-- `named_color_lookup` -/
def namedColorLookup (name : Bytes) : Option (Rgba F) :=
  (namedColors.find? fun e => name.map tolower == (ascii e.1).map tolower).map fun e =>
    ⟨num e.2.1 / num 255, num e.2.2.1 / num 255, num e.2.2.2 / num 255, num 1⟩

/-- `color_components`: the numbers and their `%` flags, at most as many as asked for. -/
def colorComponents : Nat → Bytes → List (F × Bool)
  | 0, _ => []
  | n + 1, s =>
      let s := s.dropWhile fun c => c == 44 || c == 47 || isspace c
      if s = [] then []
      else
        let (f, used) := (strtod s : F × Nat)
        if used = 0 then []
        else
          match (s.drop used).dropWhile isspace with
          | 37 :: rest => (f, true) :: colorComponents n rest
          | rest => (f, false) :: colorComponents n rest

/-- `linear_to_srgb` -/
def linearToSrgb (c : F) : F :=
  if le c (num 0) then num 0
  else if le (num 1) c then num 1
  else if le c (lit 31308 7) then lit 1292 2 * c
  else lit 1055 3 * powf c (num 1 / lit 24 1) - lit 55 3

/-- `oklab_to_rgb` -/
def oklabToRgb (L a b : F) : F × F × F :=
  let l' := L + lit 3963377774 10 * a + lit 2158037573 10 * b
  let m' := L - lit 1055613458 10 * a - lit 638541728 10 * b
  let s' := L - lit 894841775 10 * a - lit 12914855480 10 * b
  let l := l' * l' * l'
  let m := m' * m' * m'
  let s := s' * s' * s'
  let cr := lit 40767434094 10 * l - lit 33077115913 10 * m + lit 2309699292 10 * s
  let cg := lit (-12684380046) 10 * l + lit 26097574011 10 * m - lit 3413193965 10 * s
  let cb := lit (-41960863) 10 * l - lit 7034186147 10 * m + lit 17076147010 10 * s
  (linearToSrgb cr, linearToSrgb cg, linearToSrgb cb)

/-- The two loops that bring a hue into `[0, 360)`, each cut after `rounds` turns. -/
def wrapHue (rounds : Nat) (h : F) : F := up rounds (down rounds h)
where
  down : Nat → F → F
    | 0, h => h
    | n + 1, h => if le (num 360) h then down n (h - num 360) else h
  up : Nat → F → F
    | 0, h => h
    | n + 1, h => if lt h (num 0) then up n (h + num 360) else h

/-- `hwb_to_rgb` -/
def hwbToRgb (rounds : Nat) (h w b : F) : F × F × F :=
  let h := wrapHue rounds h
  if le (num 1) (w + b) then
    let v := w / (w + b)
    (v, v, v)
  else
    let (cr, cg, cb) := hslToRgb (h / num 360) (num 1) (lit 5 1)
    (cr * (num 1 - w - b) + w, cg * (num 1 - w - b) + w, cb * (num 1 - w - b) + w)

/-- Cut a float to `[0, 1]`. -/
def clamp01 (x : F) : F :=
  let x := if lt x (num 0) then num 0 else x
  if lt (num 1) x then num 1 else x

/-- A component, read as a part of `whole` unless it is a percentage. -/
def scaled (whole : Nat) (c : F × Bool) : F :=
  if c.2 then c.1 / num 100 else c.1 / num whole

/-- A component, a percentage or the number itself. -/
def plain (c : F × Bool) : F := if c.2 then c.1 / num 100 else c.1

/-- The alpha of the components, 1 when there is none. -/
def alphaOf (got : List (F × Bool)) : F :=
  match got with
  | _ :: _ :: _ :: al :: _ => plain al
  | _ => num 1

/-- `#RGB`, `#RRGGBB` and `#RRGGBBAA`: the string with its `#`. -/
def hexColor (buf : Bytes) : Option (Rgba F) :=
  let c := strtoul16 (buf.drop 1)
  let channel (v : UInt64) : F := num v.toNat / num 255
  if buf.length = 4 then
    some ⟨channel ((c >>> 8 &&& 0xf) * 0x11), channel ((c >>> 4 &&& 0xf) * 0x11),
      channel ((c &&& 0xf) * 0x11), channel 0xff⟩
  else if buf.length = 7 then
    some ⟨channel (c >>> 16 &&& 0xff), channel (c >>> 8 &&& 0xff), channel (c &&& 0xff),
      channel 0xff⟩
  else if buf.length = 9 then
    some ⟨channel (c >>> 24 &&& 0xff), channel (c >>> 16 &&& 0xff), channel (c >>> 8 &&& 0xff),
      channel (c &&& 0xff)⟩
  else none

/-- The functional notations, for the text between the parentheses of `low`. -/
def functionalColor (rounds : Nat) (low args : Bytes) : Option (Rgba F) :=
  let got : List (F × Bool) := colorComponents 4 args
  match got with
  | c0 :: c1 :: c2 :: _ =>
      if startsWith low "rgb" then
        some ⟨clamp01 (scaled 255 c0), clamp01 (scaled 255 c1), clamp01 (scaled 255 c2),
          clamp01 (alphaOf got)⟩
      else if startsWith low "hsl" then
        let (r, g, b) := hslToRgb (wrapHue rounds c0.1 / num 360) (clamp01 (c1.1 / num 100))
          (clamp01 (c2.1 / num 100))
        some ⟨r, g, b, clamp01 (alphaOf got)⟩
      else if startsWith low "oklab" then
        let (r, g, b) := oklabToRgb (plain c0) c1.1 c2.1
        some ⟨r, g, b, alphaOf got⟩
      else if startsWith low "oklch" then
        -- the relative form `oklch(from var(...) ... / alpha)` is a fixed dark color
        if contains args "from" then
          let alpha : F := match args.idxOf? 47 with
            | some i => (strtod (args.drop (i + 1))).1
            | none => lit 75 2
          some ⟨lit 8 2, lit 9 2, lit 11 2, alpha⟩
        else
          let hRad := c2.1 * (lit 314159265 8 / num 180)
          let (r, g, b) := oklabToRgb (plain c0) (c1.1 * cosf hRad) (c1.1 * sinf hRad)
          let alpha : F := match args.idxOf? 47 with
            | some i => (strtod (args.drop (i + 1))).1
            | none => alphaOf got
          some ⟨r, g, b, alpha⟩
      else if startsWith low "hwb" then
        let (r, g, b) := hwbToRgb rounds c0.1 (plain c1) (plain c2)
        some ⟨r, g, b, alphaOf got⟩
      else none
  | _ => none

/-- The end of the parser: a functional notation, else a name. -/
def functionalOrNamed (rounds : Nat) (low : Bytes) : Option (Rgba F) :=
  match betweenParens low with
  | some args =>
      match functionalColor rounds low (args.take 127) with
      | some c => some c
      | none => namedColorLookup low
  | none => namedColorLookup low

/-- One argument of `color-mix` without the percentage at its end, and the percentage:
`pct` looks for the first `%` and walks back over digits and points. -/
def splitPercent (s : Bytes) : Bytes × Option F :=
  match s.idxOf? 37 with
  | none => (s, none)
  | some i =>
      let number := ((s.take i).reverse.takeWhile fun c => isdigit c || c == 46).length
      (s.take (i - number), some ((strtod (s.drop (i - number)) : F × Nat).1 / num 100))

/-- The two colors between the commas of `color-mix(in space, color1, color2)`. -/
def mixArguments (low : Bytes) : Option (Bytes × Bytes) :=
  (betweenParens low).bind fun args =>
    let args := args.take 127
    (args.idxOf? 44).bind fun i =>
      let rest := args.drop (i + 1)
      (rest.idxOf? 44).map fun j =>
        ((rest.take j).dropWhile isspace, (rest.drop (j + 1)).dropWhile isspace)

/-- The weighted mean of two colors. -/
def mixColors (p : F) (c d : Rgba F) : Rgba F :=
  ⟨c.r * p + d.r * (num 1 - p), c.g * p + d.g * (num 1 - p), c.b * p + d.b * (num 1 - p),
    c.a * p + d.a * (num 1 - p)⟩

variable {S : Type u}

/-- `mini_parse_color` as it is called from inside: the state, the string and what the
four outputs hold before; the return value and what they hold after. -/
abbrev Nested (S F : Type u) := S → Bytes → Rgba F → (Bool × Rgba F) × S

/-- The `color-mix` part. -/
def colorMix (nested : Nested S F) (st : S) (low : Bytes) : Option (Rgba F) × S :=
  match mixArguments low with
  | none => (none, st)
  | some (arg1, arg2) =>
      let blank : Rgba F := ⟨num 0, num 0, num 0, num 1⟩
      let (c1, pct) := (splitPercent arg1 : Bytes × Option F)
      let (c2, _) := (splitPercent arg2 : Bytes × Option F)
      let ((ok1, out1), st) := nested st c1 blank
      if ok1 then
        let ((ok2, out2), st) := nested st c2 blank
        if ok2 then (some (mixColors (pct.getD (lit 5 1)) out1 out2), st) else (none, st)
      else (none, st)

/-- `mini_parse_color_uncached`: the color when it returns 1. -/
def miniParseColorUncached (rounds : Nat) (nested : Nested S F) (st : S) (val : Bytes) :
    Option (Rgba F) × S :=
  let val := ((val.dropWhile isspace).reverse.dropWhile isspace).reverse
  if val = [] then (none, st)
  else
    let buf := val.take 127
    let low := buf.map tolower
    if low = ascii "transparent" then (some ⟨num 0, num 0, num 0, num 0⟩, st)
    else if low = ascii "currentcolor" then (none, st)
    else if low.head? = some 35 then (hexColor buf, st)
    else if startsWith low "color-mix(" then
      match colorMix nested st low with
      | (some c, st) => (some c, st)
      | (none, st) => (functionalOrNamed rounds low, st)
    else (functionalOrNamed rounds low, st)

end Float

/-! ## The cache in front of the color parser -/

/-- `ColorCacheEntry`; an unused one is an empty slot of the table. -/
structure ColorCacheEntry (F : Type u) where
  key : Bytes
  rgba : Rgba F
  ok : Bool

/-- `g_color_cache`, `g_color_cache_n`, and the number of misses so far. -/
structure ColorCache (F : Type u) where
  slots : ProbeTable (ColorCacheEntry F)
  n : Nat
  misses : Nat

/-- The cache of a new document. -/
def ColorCache.initial {F : Type u} : ColorCache F :=
  { slots := ProbeTable.empty, n := 0, misses := 0 }

/-- `MINI_COLOR_CACHE_CAP` -/
def miniColorCacheCap : Nat := 1024

/-- `color_cache_hash` -/
def colorCacheHash (s : Bytes) : Nat := (fnv1a fnvOffset s).toNat % miniColorCacheCap

/-- The loop that stores after a miss.  Its condition holds in the first round when the
table is three quarters full; otherwise it looks for an unused slot. -/
def ColorCache.insert {F : Type u} (st : ColorCache F) (e : ColorCacheEntry F) : ColorCache F :=
  let h := colorCacheHash e.key
  if st.n > miniColorCacheCap * 3 / 4 then
    { st with slots := ProbeTable.empty.store h e, n := 1 }
  else
    match st.slots.claim (fun _ => false) (ProbeTable.chain miniColorCacheCap h 4) with
    | some i => { st with slots := st.slots.store i e, n := st.n + 1 }
    | none => st

section Source

variable {F : Type u} [FloatOps F] (junk : Nat → Rgba F) (rounds : Nat)

/-- `mini_parse_color`: the cache, the string and the four outputs before; the return
value, the outputs after, and the cache.  NULL is the empty string.  `junk` gives the
contents of `rr, gg, bb, aa` at each miss.  The bound is the length of the string. -/
def miniParseColorRec : Nat → Nested (ColorCache F) F
  | _, st, [], _ => ((false, ⟨num 0, num 0, num 0, num 0⟩), st)
  | 0, st, _ :: _, out => ((false, out), st)
  | fuel + 1, st, c :: rest, out =>
      let val := c :: rest
      if val.length < 96 then
        let slots := ProbeTable.chain miniColorCacheCap (colorCacheHash val) 4
        match st.slots.lookup (fun e => e.key == val) slots with
        | some e => ((e.ok, e.rgba), st)
        | none =>
          let before := junk st.misses
          let r := miniParseColorUncached rounds (miniParseColorRec fuel)
            { st with misses := st.misses + 1 } val
          let rgba := r.1.getD before
          ((r.1.isSome, rgba), r.2.insert ⟨val, rgba, r.1.isSome⟩)
      else
        let r := miniParseColorUncached rounds (miniParseColorRec fuel) st val
        ((r.1.isSome, r.1.getD out), r.2)

def miniParseColor : Nested (ColorCache F) F := fun st val out =>
  miniParseColorRec junk rounds (val.length + 1) st val out

/-- The cache after a history of calls, each with the outputs it finds. -/
def colorHistory (calls : List (Bytes × Rgba F)) : ColorCache F :=
  calls.foldl (fun st call => (miniParseColor junk rounds st call.1 call.2).2) .initial

end Source

/-! ## The parser without the cache -/

section Parser

variable {F : Type u} [FloatOps F] {S : Type u}

/-- A nested parser without state. -/
def pureNested (f : Bytes → Option (Rgba F)) : Nested PUnit.{u + 1} F := fun _ v out =>
  (((f v).isSome, (f v).getD out), ⟨⟩)

/-- The parser that calls itself. -/
def parseColorRec (rounds : Nat) : Nat → Bytes → Option (Rgba F)
  | 0, _ => none
  | fuel + 1, val => (miniParseColorUncached rounds (pureNested (parseColorRec rounds fuel)) ⟨⟩ val).1

/-- The color a string stands for. -/
def parseColor (rounds : Nat) (val : Bytes) : Option (Rgba F) :=
  parseColorRec rounds (val.length + 1) val

/-- A call answers as `f` says, and keeps `P`. -/
structure Answers (P : S → Prop) (r : Option (Rgba F)) (res : (Bool × Rgba F) × S) : Prop where
  ok : res.1.1 = r.isSome
  out : ∀ c, r = some c → res.1.2 = c
  keeps : P res.2

theorem length_betweenParens {low args : Bytes} (h : betweenParens low = some args) :
    args.length < low.length := by
  unfold betweenParens at h
  split at h
  · rename_i o back ho hback
    simp only at h
    split_ifs at h with hlt
    obtain rfl := Option.some.inj h
    simp only [List.length_drop, List.length_take]
    omega
  · cases h

theorem length_mixArguments {low arg1 arg2 : Bytes} (h : mixArguments low = some (arg1, arg2)) :
    arg1.length < low.length ∧ arg2.length < low.length := by
  obtain ⟨args, hargs, h⟩ := Option.bind_eq_some_iff.1 h
  obtain ⟨i, -, h⟩ := Option.bind_eq_some_iff.1 h
  obtain ⟨j, -, h⟩ := Option.map_eq_some_iff.1 h
  have hlen := length_betweenParens hargs
  have hsub : ∀ (l : Bytes), (l.dropWhile isspace).length ≤ l.length := fun l =>
    (List.dropWhile_suffix _).length_le
  obtain ⟨rfl, rfl⟩ := Prod.mk.inj h
  constructor
  · refine (hsub _).trans_lt ?_
    simp only [List.length_take, List.length_drop]
    omega
  · refine (hsub _).trans_lt ?_
    simp only [List.length_take, List.length_drop]
    omega

theorem length_splitPercent (s : Bytes) :
    (splitPercent s : Bytes × Option F).1.length ≤ s.length := by
  unfold splitPercent
  split
  · exact Nat.le_refl _
  · simp only [List.length_take]
    omega

variable {P : S → Prop} {nested : Nested S F} {f : Bytes → Option (Rgba F)} {st : S}

/-- `color-mix` sees of its two colors only what `f` says about them. -/
theorem colorMix_spec (low : Bytes)
    (hnested : ∀ st v out, P st → v.length < low.length → Answers P (f v) (nested st v out))
    (hst : P st) :
    (colorMix nested st low).1 = (colorMix (pureNested f) ⟨⟩ low).1 ∧
      P (colorMix nested st low).2 := by
  unfold colorMix
  cases hargs : mixArguments low with
  | none => exact ⟨rfl, hst⟩
  | some args =>
    obtain ⟨arg1, arg2⟩ := args
    obtain ⟨h1, h2⟩ := length_mixArguments hargs
    have hlen1 := (length_splitPercent (F := F) arg1).trans_lt h1
    have hlen2 := (length_splitPercent (F := F) arg2).trans_lt h2
    simp only [pureNested]
    generalize (splitPercent arg1 : Bytes × Option F) = s1 at *
    generalize (splitPercent arg2 : Bytes × Option F) = s2 at *
    obtain ⟨c1, pct⟩ := s1
    obtain ⟨c2, pct2⟩ := s2
    -- the two results, as the parser without the cache sees them
    have hfirst := hnested st c1 ⟨num 0, num 0, num 0, num 1⟩ hst hlen1
    rcases hres1 : nested st c1 ⟨num 0, num 0, num 0, num 1⟩ with ⟨⟨ok1, out1⟩, st1⟩
    rw [hres1] at hfirst
    obtain ⟨hok1, hout1, hst1⟩ := hfirst
    dsimp only at hok1 hout1 hst1 ⊢
    rcases Option.eq_none_or_eq_some (f c1) with hf1 | ⟨x1, hf1⟩
    · rw [hf1] at hok1
      simp [hf1, hok1, hst1]
    · rw [hf1] at hok1
      obtain rfl := hout1 x1 hf1
      have hsecond := hnested st1 c2 ⟨num 0, num 0, num 0, num 1⟩ hst1 hlen2
      rcases hres2 : nested st1 c2 ⟨num 0, num 0, num 0, num 1⟩ with ⟨⟨ok2, out2⟩, st2⟩
      rw [hres2] at hsecond
      obtain ⟨hok2, hout2, hst2⟩ := hsecond
      dsimp only at hok2 hout2 hst2
      rcases Option.eq_none_or_eq_some (f c2) with hf2 | ⟨x2, hf2⟩
      · rw [hf2] at hok2
        simp [hf1, hf2, hok1, hok2, hst2]
      · rw [hf2] at hok2
        obtain rfl := hout2 x2 hf2
        simp [hf1, hf2, hok1, hok2, hst2]

/-- The parser sees of its nested calls only what `f` says about their strings. -/
theorem miniParseColorUncached_spec {rounds : Nat} {val : Bytes}
    (hnested : ∀ st v out, P st → v.length < val.length → Answers P (f v) (nested st v out))
    (hst : P st) :
    (miniParseColorUncached rounds nested st val).1 =
        (miniParseColorUncached rounds (pureNested f) ⟨⟩ val).1 ∧
      P (miniParseColorUncached rounds nested st val).2 := by
  unfold miniParseColorUncached
  simp only
  generalize htrim : ((val.dropWhile isspace).reverse.dropWhile isspace).reverse = trimmed
  have hlen : (trimmed.take 127 |>.map tolower).length ≤ val.length := by
    have h1 := (List.dropWhile_suffix (l := val) isspace).length_le
    have h2 := (List.dropWhile_suffix (l := (val.dropWhile isspace).reverse) isspace).length_le
    rw [List.length_reverse] at h2
    rw [← htrim]
    simp only [List.length_map, List.length_take, List.length_reverse]
    omega
  generalize hlow : (trimmed.take 127).map tolower = low at hlen
  split_ifs
  case pos => exact ⟨rfl, hst⟩
  case pos => exact ⟨rfl, hst⟩
  case pos => exact ⟨rfl, hst⟩
  case pos => exact ⟨rfl, hst⟩
  case neg => exact ⟨rfl, hst⟩
  case pos =>
    obtain ⟨hmix, hkeeps⟩ := colorMix_spec low
      (fun st v out hp hv => hnested st v out hp (hv.trans_le hlen)) hst
    rcases hres : colorMix nested st low with ⟨r, st'⟩
    rcases hpure : colorMix (pureNested f) ⟨⟩ low with ⟨r', u⟩
    rw [hres] at hmix hkeeps
    rw [hpure] at hmix
    obtain rfl : r = r' := hmix
    cases r <;> exact ⟨rfl, hkeeps⟩

/-- The bound does not matter once it exceeds the length. -/
theorem parseColorRec_eq (rounds : Nat) {fuel : Nat} {val : Bytes} (hfuel : val.length < fuel) :
    parseColorRec (F := F) rounds fuel val = parseColor rounds val := by
  have hstable : ∀ fuel fuel' (val : Bytes), val.length < fuel → val.length < fuel' →
      parseColorRec (F := F) rounds fuel val = parseColorRec rounds fuel' val := by
    intro fuel
    induction fuel with
    | zero => exact fun _ val h => absurd h (Nat.not_lt_zero _)
    | succ fuel ih =>
      intro fuel' val h h'
      obtain _ | fuel' := fuel'
      · exact absurd h' (Nat.not_lt_zero _)
      refine (miniParseColorUncached_spec (P := fun _ => True)
        (f := parseColorRec rounds fuel') (fun st v out _ hv => ?_) trivial).1
      have heq := ih fuel' v (by omega) (by omega)
      rw [pureNested, heq]
      exact ⟨rfl, fun c hc => by rw [hc]; rfl, trivial⟩
  exact hstable _ _ val hfuel (Nat.lt_succ_self _)

end Parser

/-! ## The cache against the parser -/

section Cache

variable {F : Type u} [FloatOps F] {junk : Nat → Rgba F} {rounds : Nat}

/-- An entry that says of its key what the parser says. -/
def ColorCacheEntry.Sound (rounds : Nat) (e : ColorCacheEntry F) : Prop :=
  e.ok = (parseColor (F := F) rounds e.key).isSome ∧ ∀ c, parseColor rounds e.key = some c → e.rgba = c

/-- Every entry of the cache is sound. -/
def ColorCache.Coherent (rounds : Nat) (st : ColorCache F) : Prop :=
  st.slots.Holds (ColorCacheEntry.Sound rounds)

variable {st : ColorCache F}

theorem coherent_initial : (ColorCache.initial : ColorCache F).Coherent rounds :=
  ProbeTable.holds_empty

theorem ColorCache.Coherent.insert (h : st.Coherent rounds) {e : ColorCacheEntry F}
    (he : e.Sound rounds) : (st.insert e).Coherent rounds := by
  unfold ColorCache.insert
  dsimp only
  split_ifs
  · exact ProbeTable.holds_empty.store _ he
  · split
    · exact ProbeTable.Holds.store h _ he
    · exact h

/-- The parser, called with the nested calls of one level. -/
theorem uncached_answers {nested : Nested (ColorCache F) F} (val : Bytes)
    (hnested : ∀ st v out, st.Coherent rounds → v.length < val.length →
      Answers (ColorCache.Coherent rounds) (parseColor rounds v) (nested st v out))
    (h : st.Coherent rounds) :
    (miniParseColorUncached rounds nested st val).1 = parseColor rounds val ∧
      (miniParseColorUncached rounds nested st val).2.Coherent rounds := by
  refine miniParseColorUncached_spec (f := parseColorRec rounds val.length)
    (fun st v out hst hv => ?_) h
  rw [parseColorRec_eq rounds hv]
  exact hnested st v out hst hv

/-- A call answers for the parser and leaves a coherent cache. -/
theorem miniParseColorRec_answers (junk : Nat → Rgba F) (h : st.Coherent rounds) {fuel : Nat}
    {val : Bytes} (hfuel : val.length < fuel) (out : Rgba F) :
    Answers (ColorCache.Coherent rounds) (parseColor rounds val)
      (miniParseColorRec junk rounds fuel st val out) := by
  induction fuel generalizing st val out with
  | zero => exact absurd hfuel (Nat.not_lt_zero _)
  | succ fuel ih =>
    cases val with
    | nil => exact ⟨rfl, nofun, h⟩
    | cons b rest =>
      have hlt : (b :: rest).length ≤ fuel := Nat.le_of_lt_succ hfuel
      have hparse := fun (st : ColorCache F) (hst : st.Coherent rounds) =>
        uncached_answers (b :: rest) (fun _ _ out hst hv => ih hst (hv.trans_le hlt) out) hst
      rw [miniParseColorRec]
      dsimp only
      split_ifs
      · split
        · rename_i e he
          obtain ⟨hhit, hok, hout⟩ := ProbeTable.Holds.lookup h he
          rw [eq_of_beq hhit] at hok hout
          exact ⟨hok, hout, h⟩
        · obtain ⟨hres, hst⟩ := hparse { st with misses := st.misses + 1 } h
          have hout : ∀ c, parseColor rounds (b :: rest) = some c →
              (parseColor rounds (b :: rest)).getD (junk st.misses) = c := fun c hc => by
            rw [hc, Option.getD_some]
          rw [hres]
          exact ⟨rfl, hout, hst.insert ⟨rfl, hout⟩⟩
      · obtain ⟨hres, hst⟩ := hparse st h
        rw [hres]
        exact ⟨rfl, fun c hc => by rw [hc, Option.getD_some], hst⟩

theorem miniParseColor_answers (junk : Nat → Rgba F) (h : st.Coherent rounds) (val : Bytes)
    (out : Rgba F) :
    Answers (ColorCache.Coherent rounds) (parseColor rounds val)
      (miniParseColor junk rounds st val out) :=
  miniParseColorRec_answers junk h (Nat.lt_succ_self _) out

theorem colorHistory_coherent (junk : Nat → Rgba F) (rounds : Nat)
    (calls : List (Bytes × Rgba F)) : (colorHistory junk rounds calls).Coherent rounds := by
  have hrun : ∀ st : ColorCache F, st.Coherent rounds → (calls.foldl
      (fun st call => (miniParseColor junk rounds st call.1 call.2).2) st).Coherent rounds := by
    induction calls with
    | nil => exact fun st hst => hst
    | cons call calls ih =>
      exact fun st hst => ih _ (miniParseColor_answers junk hst call.1 call.2).keeps
  exact hrun _ coherent_initial

/-- The parser itself, with its nested calls through the cache. -/
theorem uncached_eq (h : st.Coherent rounds) (val : Bytes) :
    (miniParseColorUncached rounds (miniParseColor junk rounds) st val).1 =
      parseColor rounds val :=
  (uncached_answers val (fun _ v out hst _ => miniParseColor_answers junk hst v out) h).1

/-- A long string goes past the cache. -/
theorem miniParseColor_long (h : st.Coherent rounds) {val : Bytes} (hlong : 96 ≤ val.length)
    (out : Rgba F) :
    (miniParseColor junk rounds st val out).1.2 = (parseColor rounds val).getD out := by
  cases val with
  | nil => exact absurd hlong (by decide)
  | cons b rest =>
    have hres := (uncached_answers (b :: rest) (fun _ _ out hst hv =>
      miniParseColorRec_answers junk hst hv out) h).1
    rw [miniParseColor, miniParseColorRec]
    dsimp only
    rw [if_neg (Nat.not_lt.2 hlong), hres]

/-- The first call on a short string shows the parser's color, or what the locals held. -/
theorem miniParseColor_first {val : Bytes} (hne : val ≠ []) (hshort : val.length < 96)
    (out : Rgba F) :
    (miniParseColor junk rounds .initial val out).1.2 = (parseColor rounds val).getD (junk 0) := by
  cases val with
  | nil => exact absurd rfl hne
  | cons b rest =>
    have hst : ({ slots := ProbeTable.empty, n := 0, misses := 1 } : ColorCache F).Coherent rounds :=
      ProbeTable.holds_empty
    have hres := (uncached_answers (b :: rest) (fun _ _ out hst hv =>
      miniParseColorRec_answers junk hst hv out) hst).1
    rw [miniParseColor, miniParseColorRec]
    dsimp only
    rw [if_pos hshort]
    exact congrArg (fun r : Option (Rgba F) => r.getD (junk 0)) hres

/-- A call on `val` with the outputs holding `out` shows what the parser itself would:
the same return value, the same color when that is 1, and nothing written when it is 0
and the string is not empty. -/
def TransparentAt (junk : Nat → Rgba F) (rounds : Nat) (st : ColorCache F) (val : Bytes)
    (out : Rgba F) : Prop :=
  let direct := (miniParseColorUncached rounds (miniParseColor junk rounds) st val).1
  let call := (miniParseColor junk rounds st val out).1
  call.1 = direct.isSome ∧ (∀ c, direct = some c → call.2 = c) ∧
    (val ≠ [] → direct = none → call.2 = out)

/-- The cache shows nothing of itself, after any history, exactly for the strings that
are empty, too long for it, or accepted by the parser. -/
theorem transparent_iff [Nontrivial F] (rounds : Nat) (val : Bytes) :
    (∀ (junk : Nat → Rgba F) calls out,
      TransparentAt junk rounds (colorHistory junk rounds calls) val out) ↔
    val = [] ∨ 96 ≤ val.length ∨ (parseColor (F := F) rounds val).isSome = true := by
  constructor
  · intro hall
    by_contra hnot
    obtain ⟨hne, hrest⟩ := not_or.1 hnot
    obtain ⟨hshort, hfail⟩ := not_or.1 hrest
    obtain ⟨x, y, hxy⟩ := exists_pair_ne F
    -- on a fresh cache a failed parse hands out the garbage of its own locals
    have hcall := (hall (fun _ => ⟨y, y, y, y⟩) [] ⟨x, x, x, x⟩).2.2 hne
    have hnone : parseColor (F := F) rounds val = none := by simpa using hfail
    change _ = none → (miniParseColor _ rounds .initial val _).1.2 = _ at hcall
    rw [miniParseColor_first hne (Nat.not_le.1 hshort), hnone] at hcall
    exact hxy (congrArg Rgba.r (hcall ((uncached_eq coherent_initial val).trans hnone))).symm
  · intro hval junk calls out
    have hst := colorHistory_coherent junk rounds calls
    obtain ⟨hok, hout, -⟩ := miniParseColor_answers junk hst val out
    refine ⟨?_, ?_, fun hne hnone => ?_⟩
    · rw [uncached_eq hst]
      exact hok
    · rw [uncached_eq hst]
      exact hout
    · rw [uncached_eq hst] at hnone
      rcases hval with hnil | hlong | hsome
      · exact absurd hnil hne
      · rw [miniParseColor_long hst hlong, hnone, Option.getD_none]
      · rw [hnone] at hsome
        cases hsome

end Cache

/-! ## Concrete calls -/

/-- Exact rationals in place of floats; the named colors need no number parser and no
trigonometry. -/
instance : FloatOps ℚ where
  lit m e := m / 10 ^ e
  lt x y := x < y
  le x y := x ≤ y
  cosf _ := 1
  sinf _ := 0
  powf x _ := x
  strtod _ := (0, 0)

/-- `red`, after the same string and a failed one. -/
theorem transparent_iff_red :
    TransparentAt (fun _ => ⟨7, 7, 7, 7⟩) 0
      (colorHistory (F := ℚ) (fun _ => ⟨7, 7, 7, 7⟩) 0
        [(ascii "red", ⟨0, 0, 0, 0⟩), (ascii "currentcolor", ⟨0, 0, 0, 0⟩)])
      (ascii "red") ⟨1, 1, 1, 1⟩ :=
  (transparent_iff 0 (ascii "red")).2 (.inr (.inr (by decide +kernel))) _ _ _

/-- `currentcolor` overwrites the color it is to keep. -/
theorem currentcolor_not_kept :
    ¬ TransparentAt (fun _ => ⟨7, 7, 7, 7⟩) 0
      (colorHistory (F := ℚ) (fun _ => ⟨7, 7, 7, 7⟩) 0 []) (ascii "currentcolor") ⟨1, 1, 1, 1⟩ := by
  intro h
  have hkept := h.2.2 (by decide) (by decide +kernel)
  exact absurd (congrArg Rgba.r hkept) (by decide +kernel)

end TinyFramework.Css
