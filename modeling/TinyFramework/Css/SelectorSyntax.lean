/-
  Css/SelectorSyntax.lean --- An+B, the structural pseudo-classes and what they count.

  An argument keeps every choice that its text leaves open: white space, the case of
  keywords, the signs and digits of An+B.  Nothing here is read from the source; what the
  matcher makes of the text is compared with this later.

  The meaning is stated over the child lists of the page: the siblings of an element are
  the other elements among the children of its parent, in order.
-/
import TinyFramework.Css.Selector
import TinyFramework.Foundation.Decimal

set_option autoImplicit false

namespace TinyFramework.Css

open TinyFramework.Foundation TinyFramework.Dom

/-! ## Names and white space -/

/-- White space between the parts of a selector. -/
def isBlank (c : UInt8) : Bool := c == 32 || c == 9 || c == 10 || c == 13 || c == 12

/-- Any amount of white space. -/
abbrev Blanks := { s : Bytes // s.all isBlank = true }

/-! ## An+B -/

inductive Sign where
  | plus
  | minus
  deriving DecidableEq

namespace Sign

def byte : Sign → UInt8
  | plus => 43
  | minus => 45

/-- A number behind a sign. -/
def apply : Sign → Nat → Int
  | plus, n => n
  | minus, n => -n

end Sign

/-- The text of a sign that may be missing. -/
def signText : Option Sign → Bytes
  | none => []
  | some s => [s.byte]

/-- A missing sign is `+`. -/
def signed (s : Option Sign) (n : Nat) : Int := (s.getD .plus).apply n

abbrev Digits := { s : Bytes // s ≠ [] ∧ s.all isdigit = true }

/-- The argument of a pseudo-class that counts. -/
inductive Anb where
  | odd (spelling : Bytes) (legal : spelling.map tolower = ascii "odd")
  | even (spelling : Bytes) (legal : spelling.map tolower = ascii "even")
  | integer (sign : Option Sign) (digits : Digits)
  | linear (sign : Option Sign) (coef : Option Digits) (n : UInt8) (legal : tolower n = 110)
      (offset : Option (Blanks × Sign × Blanks × Digits))

/-- The text behind the `n`. -/
def offsetText : Option (Blanks × Sign × Blanks × Digits) → Bytes
  | none => []
  | some (before, sign, between, digits) =>
      before.1 ++ (sign.byte :: (between.1 ++ digits.1))

def offsetValue : Option (Blanks × Sign × Blanks × Digits) → Int
  | none => 0
  | some (_, sign, _, digits) => sign.apply (digitsValue digits.1)

namespace Anb

def text : Anb → Bytes
  | odd spelling _ => spelling
  | even spelling _ => spelling
  | integer sign digits => signText sign ++ digits.1
  | linear sign coef n _ offset =>
      signText sign ++ (((coef.map (·.1)).getD []) ++ (n :: offsetText offset))

/-- A and B. -/
def value : Anb → Int × Int
  | odd _ _ => (2, 1)
  | even _ _ => (2, 0)
  | integer sign digits => (0, signed sign (digitsValue digits.1))
  | linear sign coef _ _ offset =>
      (signed sign ((coef.map fun ds => digitsValue ds.1).getD 1), offsetValue offset)

end Anb

/-! ## Simple, compound and complex selectors -/

/-- The structural pseudo-classes; those of a type count siblings of that type, and the
counting ones count from either end. -/
inductive Structural where
  | first (ofType : Bool)
  | last (ofType : Bool)
  | only (ofType : Bool)
  | empty
  | root
  | nth (ofType fromEnd : Bool) (before : Blanks) (arg : Anb) (after : Blanks)

namespace Structural

def keyword : Structural → Bytes
  | first false => ascii "first-child"
  | first true => ascii "first-of-type"
  | last false => ascii "last-child"
  | last true => ascii "last-of-type"
  | only false => ascii "only-child"
  | only true => ascii "only-of-type"
  | empty => ascii "empty"
  | root => ascii "root"
  | nth false false _ _ _ => ascii "nth-child"
  | nth false true _ _ _ => ascii "nth-last-child"
  | nth true false _ _ _ => ascii "nth-of-type"
  | nth true true _ _ _ => ascii "nth-last-of-type"

end Structural

/-- How the elements of two neighbouring compounds are related. -/
inductive Kinship where
  | descendant
  | child
  | next
  | subsequent
  deriving DecidableEq

/-! ## Siblings -/

namespace Page

variable (page : Page) (n : NodeId)

/-- The children of the parent, `n` among them. -/
def family : List NodeId :=
  match (page.heap.node n).parent with
  | none => []
  | some p => children page.heap p

/-- The siblings in front of `n`, or behind it. -/
def others (fromEnd : Bool) : List NodeId :=
  if fromEnd then ((page.family n).dropWhile (· ≠ n)).drop 1
  else (page.family n).takeWhile (· ≠ n)

end Page

end TinyFramework.Css
