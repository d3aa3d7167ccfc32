/-
  Foundation/CText.lean --- comparisons and searches of `<string.h>`, most of which do not look
  at the case of letters, and the conversions of `sscanf`.

  A conversion takes what it reads off the text; `none` is a matching failure.
-/
import Mathlib.Data.List.TakeWhile
import TinyFramework.Foundation.Decimal

set_option autoImplicit false

namespace TinyFramework.Foundation

/-- `strcasecmp(a, b) == 0` -/
def strcasecmp (a b : Bytes) : Bool := a.map tolower == b.map tolower

/-- `strncasecmp(a, b, n) == 0` -/
def strncasecmp (a b : Bytes) (n : Nat) : Bool := strcasecmp (a.take n) (b.take n)

/-- What a text holds from the first place on where it goes on with the needle, in any case. -/
def strcasestr (needle : Bytes) : Bytes → Option Bytes
  | [] => none
  | c :: s =>
      if strncasecmp needle (c :: s) needle.length then some (c :: s) else strcasestr needle s

theorem strcasestr_length {needle s p : Bytes} (h : strcasestr needle s = some p) :
    0 < p.length ∧ p.length ≤ s.length := by
  induction s with
  | nil => cases h
  | cons c s ih =>
    rw [strcasestr] at h
    split_ifs at h
    · obtain rfl := Option.some.inj h
      exact ⟨Nat.succ_pos _, Nat.le_refl _⟩
    · exact (ih h).imp_right Nat.le_succ_of_le

/-- `isalpha` in the C locale. -/
def isalpha (b : UInt8) : Bool := (65 ≤ b && b ≤ 90) || (97 ≤ b && b ≤ 122)

/-! ## `sscanf` -/

/-- White space in a format. -/
def scanSpace (s : Bytes) : Bytes := s.dropWhile isspace

/-- `%d` -/
def scanInt (s : Bytes) : Option (Int × Bytes) :=
  let u := scanSpace s
  let v := if u.head? = some 45 ∨ u.head? = some 43 then u.tail else u
  if v.takeWhile isDecimal = [] then none else some (atoi u, v.dropWhile isDecimal)

/-- `%ns` -/
def scanWord (n : Nat) (s : Bytes) : Option (Bytes × Bytes) :=
  let u := scanSpace s
  let word := (u.takeWhile fun b => !isspace b).take n
  if word = [] then none else some (word, u.drop word.length)

/-- `%n[^c]` -/
def scanUntil (n : Nat) (c : UInt8) (s : Bytes) : Option (Bytes × Bytes) :=
  let word := (s.takeWhile (· ≠ c)).take n
  if word = [] then none else some (word, s.drop word.length)

/-- A byte of the format that stands for itself. -/
def scanByte (c : UInt8) : Bytes → Option Bytes
  | [] => none
  | b :: s => if b = c then some s else none

/-- `strstr`: what stands before a text and what stands behind it, where it is found first. -/
def cutAt (needle : Bytes) : Bytes → Option (Bytes × Bytes)
  | [] => none
  | b :: s =>
      if needle <+: b :: s then some ([], (b :: s).drop needle.length)
      else (cutAt needle s).map fun cut => (b :: cut.1, cut.2)

/-- The bytes that a C string has of a buffer. -/
def cString (s : Bytes) : Bytes := s.takeWhile (· ≠ 0)

theorem cString_eq_self_iff {s : Bytes} : cString s = s ↔ 0 ∉ s := by
  unfold cString
  rw [List.takeWhile_eq_self_iff]
  constructor
  · exact fun h h0 => absurd (h 0 h0) (by decide)
  · intro h b hb
    rw [decide_eq_true_eq]
    rintro rfl
    exact h hb

/-! ## Signed numbers -/

/-- `printf("%d", n)` -/
def printInt (n : Int) : Bytes := if n < 0 then 45 :: decimal n.natAbs else decimal n.natAbs

/-- A number that is printed is read back. -/
theorem atoi_printInt (n : Int) (rest : Bytes) (hrest : ∀ b ∈ rest.head?, isDecimal b = false) :
    atoi (printInt n ++ rest) = n := by
  unfold printInt
  split_ifs with hneg
  · have hread := readDigits_decimal n.natAbs rest hrest
    have hdrop : (45 :: (decimal n.natAbs ++ rest) : Bytes).dropWhile isspace =
        45 :: (decimal n.natAbs ++ rest) := List.dropWhile_cons_of_neg (by decide)
    rw [List.cons_append, atoi, hdrop]
    show -((readDigits (decimal n.natAbs ++ rest) : Nat) : Int) = n
    rw [hread]
    omega
  · rw [atoi_decimal n.natAbs rest hrest]
    omega

theorem decimal_noBreak {n : Nat} {b : UInt8} (hb : b ∈ decimal n) : b ≠ 0 ∧ b ≠ 13 ∧ b ≠ 10 := by
  have hdigit : isDecimal b = true := isDecimal_of_mem_decimal hb
  refine ⟨?_, ?_, ?_⟩ <;> rintro rfl <;> exact absurd hdigit (by decide)

/-- No line and no text ends within a number. -/
theorem printInt_noBreak {n : Int} {b : UInt8} (hb : b ∈ printInt n) :
    b ≠ 0 ∧ b ≠ 13 ∧ b ≠ 10 := by
  unfold printInt at hb
  split_ifs at hb
  · rcases List.mem_cons.1 hb with rfl | hb
    · decide
    · exact decimal_noBreak hb
  · exact decimal_noBreak hb

theorem length_printInt_le {n : Int} {k : Nat} (hk : 0 < k) (h : n.natAbs < 10 ^ k) :
    (printInt n).length ≤ k + 1 := by
  have hdigits := length_decimal_le hk h
  unfold printInt
  split_ifs
  · exact Nat.succ_le_succ hdigits
  · exact Nat.le_succ_of_le hdigits

end TinyFramework.Foundation
