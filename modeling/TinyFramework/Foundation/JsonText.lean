/-
  Foundation/JsonText.lean --- JSON texts with all that they are written with.

  A text is a tree that keeps the white space, the escapes and the digits as they stand, so
  that its bytes are a function of it; the values of its strings and numbers are another.
-/
import TinyFramework.Foundation.Decimal

set_option autoImplicit false

namespace TinyFramework.Foundation

/-! ## White space, strings and numbers -/

def isJsonSpace (b : UInt8) : Bool := b == 32 || b == 9 || b == 10 || b == 13

structure JsonSpace where
  text : Bytes := []
  blank : ∀ b ∈ text, isJsonSpace b = true := by simp

/-- A character that stands for itself in a string. -/
structure PlainChar where
  char : Char
  plain : char ≠ '"' ∧ char ≠ '\\' ∧ 32 ≤ char.toNat := by decide

/-- The escapes of two characters. -/
inductive JsonEscape where
  | quote
  | backslash
  | slash
  | backspace
  | formFeed
  | newline
  | carriageReturn
  | tab
  deriving DecidableEq, Repr

/-- What follows the backslash. -/
def JsonEscape.letter : JsonEscape → UInt8
  | quote => 34
  | backslash => 92
  | slash => 47
  | backspace => 98
  | formFeed => 102
  | newline => 110
  | carriageReturn => 114
  | tab => 116

def JsonEscape.value : JsonEscape → UInt8
  | quote => 34
  | backslash => 92
  | slash => 47
  | backspace => 8
  | formFeed => 12
  | newline => 10
  | carriageReturn => 13
  | tab => 9

structure HexDigit where
  value : Fin 16
  upper : Bool
  deriving DecidableEq, Repr

def HexDigit.text (d : HexDigit) : UInt8 :=
  if d.value < 10 then UInt8.ofNat (48 + d.value)
  else if d.upper then UInt8.ofNat (55 + d.value) else UInt8.ofNat (87 + d.value)

/-- A piece of a string: a character, an escape, or a code unit in hexadecimal. -/
inductive JsonChar where
  | plain (c : PlainChar)
  | escape (e : JsonEscape)
  | unit (a b c d : HexDigit)

abbrev JsonString := List JsonChar

def JsonChar.text : JsonChar → Bytes
  | plain c => String.utf8EncodeChar c.char
  | escape e => [92, e.letter]
  | unit a b c d => [92, 117, a.text, b.text, c.text, d.text]

/-- A string in its quotes. -/
def quotedText (s : JsonString) : Bytes := 34 :: (s.flatMap JsonChar.text ++ [34])

def unitValue (a b c d : HexDigit) : Nat :=
  a.value * 4096 + b.value * 256 + c.value * 16 + d.value

/-- A number as a character; one that is no character gives the replacement character. -/
def scalarText (n : Nat) : Bytes :=
  String.utf8EncodeChar (if n.isValidChar then Char.ofNat n else '\uFFFD')

/-- What a string stands for, in UTF-8; two surrogates stand for one character. -/
def decodeString : JsonString → Bytes
  | [] => []
  | .plain c :: s => String.utf8EncodeChar c.char ++ decodeString s
  | .escape e :: s => e.value :: decodeString s
  | .unit a b c d :: .unit a' b' c' d' :: s =>
      let hi := unitValue a b c d
      let lo := unitValue a' b' c' d'
      if (0xD800 ≤ hi ∧ hi < 0xDC00) ∧ 0xDC00 ≤ lo ∧ lo < 0xE000 then
        scalarText (0x10000 + (hi - 0xD800) * 1024 + (lo - 0xDC00)) ++ decodeString s
      else scalarText hi ++ decodeString (.unit a' b' c' d' :: s)
  | .unit a b c d :: s => scalarText (unitValue a b c d) ++ decodeString s

/-- One digit or more. -/
structure JsonDigits where
  digits : List (Fin 10)
  nonempty : digits ≠ [] := by decide

def JsonDigits.text (d : JsonDigits) : Bytes := d.digits.map fun k => UInt8.ofNat (48 + k)

def JsonDigits.value (d : JsonDigits) : Nat := d.digits.foldl (fun v k => v * 10 + k) 0

/-- The sign of an exponent, as far as it is written. -/
inductive ExponentSign where
  | bare
  | plus
  | minus
  deriving DecidableEq, Repr

def ExponentSign.text : ExponentSign → Bytes
  | bare => []
  | plus => [43]
  | minus => [45]

structure JsonExponent where
  upper : Bool
  sign : ExponentSign
  digits : JsonDigits

def JsonExponent.text (e : JsonExponent) : Bytes :=
  (if e.upper then 69 else 101) :: (e.sign.text ++ e.digits.text)

def JsonExponent.factor (e : JsonExponent) : ℚ :=
  if e.sign = .minus then (10 ^ e.digits.value)⁻¹ else 10 ^ e.digits.value

structure JsonNumber where
  negative : Bool := false
  int : Nat
  frac : Option JsonDigits := none
  exponent : Option JsonExponent := none

def JsonNumber.text (n : JsonNumber) : Bytes :=
  (if n.negative then [45] else []) ++ (decimal n.int ++
    ((n.frac.elim [] fun f => 46 :: f.text) ++ n.exponent.elim [] JsonExponent.text))

/-- The number up to its fraction, with its sign. -/
def JsonNumber.integral (n : JsonNumber) : Int := if n.negative then -(n.int : Int) else n.int

def JsonNumber.value (n : JsonNumber) : ℚ :=
  (if n.negative then -1 else 1) *
    (n.int + n.frac.elim 0 fun f => f.value / 10 ^ f.digits.length) *
      n.exponent.elim 1 JsonExponent.factor

/-! ## Texts -/

/-- A member of an object. -/
structure JsonMember (V : Type) where
  before : JsonSpace := {}
  name : JsonString
  beforeColon : JsonSpace := {}
  afterColon : JsonSpace := {}
  value : V
  after : JsonSpace := {}

/-- A JSON text. -/
inductive JsonText where
  | null
  | bool (b : Bool)
  | num (n : JsonNumber)
  | str (s : JsonString)
  | arr (space : JsonSpace) (items : List (JsonSpace × JsonText × JsonSpace))
  | obj (space : JsonSpace) (members : List (JsonMember JsonText))

/-- What stands between brackets: items behind one another, or white space. -/
def bracketed (space : JsonSpace) (items : List Bytes) : Bytes :=
  if items = [] then space.text else [44].intercalate items

/-- A member up to its colon. -/
def JsonMember.head {V : Type} (m : JsonMember V) : Bytes :=
  m.before.text ++ (quotedText m.name ++ m.beforeColon.text)

mutual

def JsonText.text : JsonText → Bytes
  | .null => ascii "null"
  | .bool true => ascii "true"
  | .bool false => ascii "false"
  | .num n => n.text
  | .str s => quotedText s
  | .arr space items => 91 :: (bracketed space (itemTexts items) ++ [93])
  | .obj space members => 123 :: (bracketed space (memberTexts members) ++ [125])

def itemTexts : List (JsonSpace × JsonText × JsonSpace) → List Bytes
  | [] => []
  | (before, value, after) :: items =>
      (before.text ++ (value.text ++ after.text)) :: itemTexts items

def memberTexts : List (JsonMember JsonText) → List Bytes
  | [] => []
  | { before, name, beforeColon, afterColon, value, after } :: members =>
      (before.text ++ (quotedText name ++ beforeColon.text) ++
        58 :: (afterColon.text ++ (value.text ++ after.text))) :: memberTexts members

end

/-! ## Members -/

/-- A member that is the last of its name in an object, what is written between the bracket and
its colon, and what is written between its value and the other bracket. -/
structure MemberAt (members : List (JsonMember JsonText)) (key : Bytes) (m : JsonMember JsonText)
    (pre post : Bytes) : Prop where
  split : ∃ earlier later, members = earlier ++ m :: later ∧
    (∀ m' ∈ later, decodeString m'.name ≠ key) ∧
    pre = (memberTexts earlier).flatMap (· ++ [44]) ++ m.head ∧
    post = m.after.text ++ (memberTexts later).flatMap (44 :: ·)
  name : decodeString m.name = key

theorem memberTexts_cons (m : JsonMember JsonText) (members : List (JsonMember JsonText)) :
    memberTexts (m :: members) =
      (m.head ++ 58 :: (m.afterColon.text ++ (m.value.text ++ m.after.text))) ::
        memberTexts members := by
  rw [memberTexts.eq_def]
  rfl

theorem memberTexts_append (earlier later : List (JsonMember JsonText)) :
    memberTexts (earlier ++ later) = memberTexts earlier ++ memberTexts later := by
  induction earlier with
  | nil =>
      rw [memberTexts]
      rfl
  | cons m earlier ih =>
      rw [List.cons_append, memberTexts_cons, memberTexts_cons, ih, List.cons_append]

theorem intercalate_append_cons (earlier : List Bytes) (item : Bytes) (later : List Bytes) :
    [44].intercalate (earlier ++ item :: later) =
      earlier.flatMap (· ++ [44]) ++ (item ++ later.flatMap (44 :: ·)) := by
  induction earlier with
  | nil =>
      induction later generalizing item with
      | nil => simp
      | cons next later ih =>
          rw [List.nil_append, List.intercalate_cons_cons]
          have hnext := ih next
          rw [List.nil_append] at hnext
          rw [hnext]
          simp
  | cons first earlier ih =>
      cases hrest : earlier ++ item :: later with
      | nil => simp at hrest
      | cons second rest =>
          rw [List.cons_append, hrest, List.intercalate_cons_cons, ← hrest, ih]
          simp

theorem MemberAt.bracketed {members : List (JsonMember JsonText)} {key : Bytes}
    {m : JsonMember JsonText} {pre post : Bytes} (hm : MemberAt members key m pre post)
    (space : JsonSpace) :
    bracketed space (memberTexts members) =
      pre ++ 58 :: (m.afterColon.text ++ (m.value.text ++ post)) := by
  obtain ⟨earlier, later, hmembers, _, hpre, hpost⟩ := hm.split
  have htexts : memberTexts members = memberTexts earlier ++
      (m.head ++ 58 :: (m.afterColon.text ++ (m.value.text ++ m.after.text))) ::
        memberTexts later := by
    rw [hmembers, memberTexts_append, memberTexts_cons]
  rw [Foundation.bracketed, htexts, if_neg (List.append_ne_nil_of_right_ne_nil _
    (List.cons_ne_nil _ _)), intercalate_append_cons, hpre, hpost]
  simp

end TinyFramework.Foundation
