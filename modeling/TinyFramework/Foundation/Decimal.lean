/-
  Foundation/Decimal.lean --- numbers in decimal digits.

  Whole numbers are unbounded: where `atoi` is undefined or `atol` and `strtol` stop at the largest
  value of their type, the number is read on.  The others are rational numbers: nothing is rounded.
-/
import TinyFramework.Foundation.Ascii
import Mathlib.Tactic.IntervalCases

set_option autoImplicit false

namespace TinyFramework.Foundation

/-- `printf("%d", n)` for `n` that is not negative. -/
def decimal (n : Nat) : Bytes := (Nat.toDigits 10 n).map fun c => UInt8.ofNat c.toNat

/-- A byte between `0` and `9`. -/
def isDecimal (b : UInt8) : Bool := 48 ≤ b && b ≤ 57

/-- The value of a run of digits. -/
def digitsValue (ds : Bytes) : Nat := ds.foldl (fun v d => v * 10 + (d.toNat - 48)) 0

/-- The value of the longest number that a text begins with, after its sign. -/
def readDigits (s : Bytes) : Nat := digitsValue (s.takeWhile isDecimal)

/-- `atoi(s)`, and `atol(s)` and `strtol(s, NULL, 10)`, of a number that fits the type. -/
def atoi (s : Bytes) : Int :=
  match s.dropWhile isspace with
  | 45 :: u => -(readDigits u : Int)
  | 43 :: u => readDigits u
  | u => readDigits u

theorem digitByte_toNat {d : Nat} (hd : d < 10) :
    (UInt8.ofNat (Nat.digitChar d).toNat).toNat = 48 + d := by
  interval_cases d <;> rfl

theorem decimal_of_lt {n : Nat} (hn : n < 10) :
    decimal n = [UInt8.ofNat (Nat.digitChar n).toNat] := by
  rw [decimal, Nat.toDigits_of_lt_base hn]
  rfl

theorem decimal_of_le {n : Nat} (hn : 10 ≤ n) :
    decimal n = decimal (n / 10) ++ [UInt8.ofNat (Nat.digitChar (n % 10)).toNat] := by
  rw [decimal, Nat.toDigits_of_base_le (by decide) hn, List.map_append]
  rfl

theorem digitsValue_concat (ds : Bytes) (d : UInt8) :
    digitsValue (ds ++ [d]) = digitsValue ds * 10 + (d.toNat - 48) := by
  rw [digitsValue, List.foldl_concat]
  rfl

theorem isDecimal_digitByte {d : Nat} (hd : d < 10) :
    isDecimal (UInt8.ofNat (Nat.digitChar d).toNat) = true := by
  interval_cases d <;> rfl

theorem isDecimal_of_mem_decimal {n : Nat} {b : UInt8} (hb : b ∈ decimal n) :
    isDecimal b = true := by
  induction n using Nat.strong_induction_on with
  | _ n ih =>
    rcases Nat.lt_or_ge n 10 with hn | hn
    · rw [decimal_of_lt hn, List.mem_singleton] at hb
      exact hb ▸ isDecimal_digitByte hn
    · rw [decimal_of_le hn, List.mem_append, List.mem_singleton] at hb
      rcases hb with hb | hb
      · exact ih (n / 10) (by omega) hb
      · exact hb ▸ isDecimal_digitByte (Nat.mod_lt n (by decide))

theorem decimal_ne_nil (n : Nat) : decimal n ≠ [] := by
  rw [decimal, Ne, List.map_eq_nil_iff]
  exact Nat.toDigits_ne_nil

theorem length_decimal_le {n k : Nat} (hk : 0 < k) (h : n < 10 ^ k) : (decimal n).length ≤ k := by
  induction k generalizing n with
  | zero => exact absurd hk (Nat.lt_irrefl 0)
  | succ k ih =>
    rcases Nat.lt_or_ge n 10 with hn | hn
    · rw [decimal_of_lt hn]
      exact Nat.succ_le_succ (Nat.zero_le k)
    · rw [pow_succ] at h
      have hk : 0 < k := by
        refine Nat.pos_of_ne_zero fun hzero => ?_
        rw [hzero] at h
        omega
      rw [decimal_of_le hn, List.length_append]
      exact Nat.succ_le_succ (ih hk (Nat.div_lt_of_lt_mul (by rwa [Nat.mul_comm])))

/-- What is written is read back. -/
theorem digitsValue_decimal (n : Nat) : digitsValue (decimal n) = n := by
  induction n using Nat.strong_induction_on with
  | _ n ih =>
    rcases Nat.lt_or_ge n 10 with hn | hn
    · rw [decimal_of_lt hn]
      show 0 * 10 + ((UInt8.ofNat (Nat.digitChar n).toNat).toNat - 48) = n
      rw [digitByte_toNat hn]
      omega
    · rw [decimal_of_le hn, digitsValue_concat, ih (n / 10) (by omega),
        digitByte_toNat (Nat.mod_lt n (by decide))]
      omega

/-- A number is read up to the first byte that is no digit. -/
theorem readDigits_append {ds rest : Bytes} (hds : ∀ b ∈ ds, isDecimal b = true)
    (hrest : ∀ b ∈ rest.head?, isDecimal b = false) : readDigits (ds ++ rest) = digitsValue ds := by
  have htake : (ds ++ rest).takeWhile isDecimal = ds := by
    rw [List.takeWhile_append_of_pos hds]
    cases rest with
    | nil => simp
    | cons b rest => simp [hrest b rfl]
  rw [readDigits, htake]

theorem readDigits_decimal (n : Nat) (rest : Bytes)
    (hrest : ∀ b ∈ rest.head?, isDecimal b = false) : readDigits (decimal n ++ rest) = n := by
  rw [readDigits_append (fun b hb => isDecimal_of_mem_decimal hb) hrest, digitsValue_decimal]

/-- A digit is neither white space nor a sign. -/
theorem isDecimal_cases {b : UInt8} (hb : isDecimal b = true) :
    isspace b = false ∧ b ≠ 45 ∧ b ≠ 43 := by
  have hbounds : 48 ≤ b ∧ b ≤ 57 := by simpa [isDecimal] using hb
  refine ⟨?_, ?_, ?_⟩
  · have h₁ : ¬ b = 32 := by rintro rfl; exact absurd hbounds.1 (by decide)
    have h₂ : ¬ b ≤ 13 := fun h => absurd (UInt8.le_trans hbounds.1 h) (by decide)
    simp [isspace, h₁, h₂]
  · rintro rfl
    exact absurd hbounds.1 (by decide)
  · rintro rfl
    exact absurd hbounds.1 (by decide)

theorem atoi_digits {ds rest : Bytes} (hne : ds ≠ []) (hds : ∀ b ∈ ds, isDecimal b = true)
    (hrest : ∀ b ∈ rest.head?, isDecimal b = false) : atoi (ds ++ rest) = digitsValue ds := by
  have hread := readDigits_append hds hrest
  obtain ⟨b, ds, rfl⟩ := List.exists_cons_of_ne_nil hne
  obtain ⟨hspace, hminus, hplus⟩ := isDecimal_cases (hds b List.mem_cons_self)
  have hdrop : (b :: ds ++ rest).dropWhile isspace = b :: ds ++ rest :=
    List.dropWhile_cons_of_neg (by rw [hspace]; exact Bool.false_ne_true)
  unfold atoi
  rw [hdrop]
  split
  · rename_i heq
    exact absurd (List.cons.inj heq).1 hminus
  · rename_i heq
    exact absurd (List.cons.inj heq).1 hplus
  · exact congrArg _ hread

theorem atoi_decimal (n : Nat) (rest : Bytes)
    (hrest : ∀ b ∈ rest.head?, isDecimal b = false) : atoi (decimal n ++ rest) = n := by
  rw [atoi_digits (decimal_ne_nil n) (fun b hb => isDecimal_of_mem_decimal hb) hrest,
    digitsValue_decimal]

/-! ## Decimal numerals with a fraction and an exponent, as they are written and as `<stdlib.h>` reads them -/

/-- A sign, as far as it is written. -/
inductive NumeralSign where
  | bare
  | plus
  | minus
  deriving DecidableEq, Repr

def NumeralSign.text : NumeralSign → Bytes
  | bare => []
  | plus => [43]
  | minus => [45]

def NumeralSign.factor : NumeralSign → ℚ
  | minus => -1
  | _ => 1

structure NumeralExponent where
  upper : Bool := false
  sign : NumeralSign := .bare
  digits : Bytes
  all_digits : digits.all isDecimal = true := by rfl
  nonempty : digits ≠ [] := by decide

def NumeralExponent.text (e : NumeralExponent) : Bytes :=
  (if e.upper then 69 else 101) :: (e.sign.text ++ e.digits)

def NumeralExponent.factor (e : NumeralExponent) : ℚ :=
  if e.sign = .minus then (10 ^ digitsValue e.digits)⁻¹ else 10 ^ digitsValue e.digits

/-- A numeral without a sign; there is a point if there are digits behind it. -/
structure Numeral where
  whole : Bytes
  fraction : Bytes := []
  exponent : Option NumeralExponent := none
  whole_digits : whole.all isDecimal = true := by rfl
  fraction_digits : fraction.all isDecimal = true := by rfl
  nonempty : whole ++ fraction ≠ [] := by decide

namespace Numeral

variable (n : Numeral)

/-- The numeral up to its exponent. -/
def mantissa : Bytes := n.whole ++ if n.fraction = [] then [] else 46 :: n.fraction

def text : Bytes := n.mantissa ++ n.exponent.elim [] NumeralExponent.text

/-- What it is worth up to there. -/
def significand : ℚ := digitsValue n.whole + digitsValue n.fraction / 10 ^ n.fraction.length

def value : ℚ := n.significand * n.exponent.elim 1 NumeralExponent.factor

end Numeral

/-- A sign in front of a text, and the text behind it. -/
def takeSign : Bytes → Bytes × Bytes
  | 43 :: p => ([43], p)
  | 45 :: p => ([45], p)
  | p => ([], p)

/-- What an exponent multiplies with; without digits it is not read. -/
def exponentFactor : Bytes → ℚ
  | 101 :: p => go p
  | 69 :: p => go p
  | _ => 1
where
  go (p : Bytes) : ℚ :=
    let (sign, ds) := takeSign p
    if sign = [45] then (10 ^ readDigits ds)⁻¹ else 10 ^ readDigits ds

/-- The digits behind a point, and the text behind them. -/
def takeFraction : Bytes → Bytes × Bytes
  | 46 :: p => (p.takeWhile isDecimal, p.dropWhile isDecimal)
  | p => ([], p)

/-- `atof(s)` of a decimal text. -/
def atof (s : Bytes) : ℚ :=
  let (sign, u) := takeSign (s.dropWhile isspace)
  let (fraction, p) := takeFraction (u.dropWhile isDecimal)
  (if sign = [45] then -1 else 1) *
    ((readDigits u + digitsValue fraction / 10 ^ fraction.length) * exponentFactor p)

/-! ## What is written is read -/

theorem takeWhile_decimal {ds rest : Bytes} (hds : ∀ b ∈ ds, isDecimal b = true)
    (hrest : ∀ b ∈ rest.head?, isDecimal b = false) :
    (ds ++ rest).takeWhile isDecimal = ds ∧ (ds ++ rest).dropWhile isDecimal = rest := by
  rw [List.takeWhile_append_of_pos hds, List.dropWhile_append_of_pos hds]
  cases rest with
  | nil => simp
  | cons b rest => simp [hrest b rfl]

theorem takeSign_of_ne {p : Bytes} (h : ∀ b ∈ p.head?, b ≠ 43 ∧ b ≠ 45) : takeSign p = ([], p) := by
  unfold takeSign
  split
  · exact absurd rfl (h 43 rfl).1
  · exact absurd rfl (h 45 rfl).2
  · rfl

theorem takeSign_text (sign : NumeralSign) {p : Bytes} (h : ∀ b ∈ p.head?, b ≠ 43 ∧ b ≠ 45) :
    takeSign (sign.text ++ p) = (sign.text, p) := by
  cases sign with
  | bare => exact takeSign_of_ne h
  | plus => rfl
  | minus => rfl

theorem takeFraction_of_ne {p : Bytes} (h : ∀ b ∈ p.head?, b ≠ 46) : takeFraction p = ([], p) := by
  unfold takeFraction
  split
  · exact absurd rfl (h 46 rfl)
  · rfl

theorem digits_head {ds rest : Bytes} (hds : ∀ b ∈ ds, isDecimal b = true) (hne : ds ≠ []) :
    ∀ b ∈ (ds ++ rest).head?, isDecimal b = true := by
  cases ds with
  | nil => exact absurd rfl hne
  | cons d ds =>
    rintro _ ⟨⟩
    exact hds d List.mem_cons_self

theorem NumeralExponent.sign_head (e : NumeralExponent) {rest : Bytes} :
    ∀ b ∈ (e.digits ++ rest).head?, b ≠ 43 ∧ b ≠ 45 := by
  intro b hb
  have hdecimal := isDecimal_cases (digits_head (List.all_eq_true.1 e.all_digits) e.nonempty b hb)
  exact ⟨hdecimal.2.2, hdecimal.2.1⟩

theorem exponentFactor_text (e : NumeralExponent) : exponentFactor e.text = e.factor := by
  have hgo : exponentFactor.go (e.sign.text ++ e.digits) = e.factor := by
    have hsign := takeSign_text e.sign (p := e.digits ++ []) e.sign_head
    have hread : readDigits (e.digits ++ []) = digitsValue e.digits :=
      readDigits_append (List.all_eq_true.1 e.all_digits) (fun _ h => by cases h)
    rw [List.append_nil] at hsign hread
    unfold exponentFactor.go
    rw [hsign, NumeralExponent.factor]
    simp only [hread]
    cases e.sign <;> rfl
  rw [NumeralExponent.text]
  cases e.upper
  · exact hgo
  · exact hgo

namespace Numeral

variable (n : Numeral)

/-- An exponent begins with its letter. -/
theorem exponent_head :
    ∀ b ∈ (n.exponent.elim [] NumeralExponent.text).head?, b = 101 ∨ b = 69 := by
  cases n.exponent with
  | none => nofun
  | some e =>
    rintro b ⟨⟩
    cases e.upper
    · exact .inl rfl
    · exact .inr rfl

theorem exponent_stops :
    ∀ b ∈ (n.exponent.elim [] NumeralExponent.text).head?, isDecimal b = false ∧ b ≠ 46 := by
  intro b hb
  rcases n.exponent_head b hb with rfl | rfl <;> decide

/-- A numeral begins with a digit or its point. -/
theorem mantissa_head (rest : Bytes) :
    ∀ b ∈ (n.mantissa ++ rest).head?, isDecimal b = true ∨ b = 46 := by
  intro b hb
  rw [mantissa, List.append_assoc] at hb
  by_cases hwhole : n.whole = []
  · have hfraction : n.fraction ≠ [] := fun h => n.nonempty (by rw [hwhole, h]; rfl)
    rw [hwhole, if_neg hfraction] at hb
    cases hb
    exact .inr rfl
  · exact .inl (digits_head (List.all_eq_true.1 n.whole_digits) hwhole b hb)

theorem mantissa_ne_nil : n.mantissa ≠ [] := by
  intro h
  have hempty : n.whole ++ n.fraction = [] := by
    rw [mantissa, List.append_eq_nil_iff] at h
    obtain ⟨hwhole, hpoint⟩ := h
    by_cases hfraction : n.fraction = []
    · rw [hwhole, hfraction]
      rfl
    · rw [if_neg hfraction] at hpoint
      cases hpoint
  exact n.nonempty hempty

theorem text_ne_nil : n.text ≠ [] := fun h => n.mantissa_ne_nil (List.append_eq_nil_iff.1 h).1

theorem dropWhile_mantissa (rest : Bytes) :
    (n.mantissa ++ rest).dropWhile isspace = n.mantissa ++ rest := by
  have hhead := n.mantissa_head rest
  cases hs : n.mantissa ++ rest with
  | nil => rfl
  | cons b s =>
    refine List.dropWhile_cons_of_neg ?_
    rcases hhead b (by rw [hs]; rfl) with hb | rfl
    · rw [(isDecimal_cases hb).1]
      exact Bool.false_ne_true
    · decide

theorem takeSign_mantissa (rest : Bytes) :
    takeSign (n.mantissa ++ rest) = ([], n.mantissa ++ rest) := by
  refine takeSign_of_ne fun b hb => ?_
  rcases n.mantissa_head rest b hb with hb | rfl
  · exact ⟨(isDecimal_cases hb).2.2, (isDecimal_cases hb).2.1⟩
  · decide

/-- The mantissa is read up to what can be no part of it, which is read as an exponent. -/
theorem atof_mantissa {rest : Bytes} (hrest : ∀ b ∈ rest.head?, isDecimal b = false ∧ b ≠ 46) :
    atof (n.mantissa ++ rest) = n.significand * exponentFactor rest := by
  have hdigit : ∀ b ∈ rest.head?, isDecimal b = false := fun b hb => (hrest b hb).1
  unfold atof
  simp only [n.dropWhile_mantissa, n.takeSign_mantissa]
  by_cases hfraction : n.fraction = []
  · have htext : n.mantissa = n.whole := by rw [mantissa, if_pos hfraction, List.append_nil]
    have hwhole := takeWhile_decimal (List.all_eq_true.1 n.whole_digits) hdigit
    have hpoint := takeFraction_of_ne fun b hb => (hrest b hb).2
    rw [htext, readDigits, hwhole.1, hwhole.2, hpoint]
    simp [significand, hfraction]
  · have htext : n.mantissa ++ rest = n.whole ++ 46 :: (n.fraction ++ rest) := by
      rw [mantissa, if_neg hfraction, List.append_assoc, List.cons_append]
    have hpoint : ∀ b ∈ (46 :: (n.fraction ++ rest)).head?, isDecimal b = false := by
      rintro b ⟨⟩
      rfl
    have hwhole := takeWhile_decimal (List.all_eq_true.1 n.whole_digits) hpoint
    have hfrac := takeWhile_decimal (List.all_eq_true.1 n.fraction_digits) hdigit
    rw [htext, readDigits, hwhole.1, hwhole.2]
    simp [takeFraction, hfrac.1, hfrac.2, significand]

/-- What is written is read back. -/
theorem atof_text : atof n.text = n.value := by
  have hexponent : exponentFactor (n.exponent.elim [] NumeralExponent.text) =
      n.exponent.elim 1 NumeralExponent.factor := by
    cases n.exponent with
    | none => rfl
    | some e => exact exponentFactor_text e
  rw [text, n.atof_mantissa n.exponent_stops, hexponent, value]

end Numeral

end TinyFramework.Foundation
