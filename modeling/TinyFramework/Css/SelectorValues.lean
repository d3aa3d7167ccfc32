/-
  Css/SelectorValues.lean --- how An+B is read.

  Numbers are kept within a `long` and then within an `int`, and nothing knows of white space
  inside of An+B.  An argument without it is read as it is meant; `nth_test` finds the places
  that it names.
-/
import TinyFramework.Css.SelectorRun
import TinyFramework.Css.SelectorSyntax
import Mathlib.Data.List.Infix

set_option autoImplicit false

namespace TinyFramework.Css

open TinyFramework.Foundation

/-! ## Selectors that are read as they are meant -/

/-- The value of an `int`. -/
def IsInt (v : Int) : Prop := -2 ^ 31 ≤ v ∧ v < 2 ^ 31

/-- Lower case, numbers in the range of `int`, no white space inside. -/
def Anb.Readable : Anb → Prop
  | odd spelling _ => spelling = ascii "odd"
  | even spelling _ => spelling = ascii "even"
  | integer sign digits => IsInt (signed sign (digitsValue digits.1))
  | linear sign coef n _ offset =>
      n = 110 ∧ IsInt (signed sign ((coef.map fun ds => digitsValue ds.1).getD 1)) ∧
        IsInt (offsetValue offset) ∧ ∀ o ∈ offset, o.1.1 = [] ∧ o.2.2.1.1 = []

/-- The argument ends with an offset, behind which the source reads no further. -/
def Anb.hasOffset : Anb → Bool
  | linear _ _ _ _ (some _) => true
  | _ => false

/-! ## Buffers -/

/-- A text that fits is read up to what ends it. -/
theorem readSome_append {cap : Nat} {more : UInt8 → Bool} {t rest : Bytes}
    (ht : ∀ c ∈ t, more c = true) (hlen : t.length ≤ cap)
    (hrest : ∀ c ∈ rest.head?, more c = false) : readSome cap more (t ++ rest) = (t, rest) := by
  have htail : (rest.take (cap - t.length)).takeWhile more = [] := by
    cases rest with
    | nil => simp
    | cons c rest =>
      have hc := hrest c rfl
      cases hk : cap - t.length with
      | zero => rfl
      | succ k => simp [hc]
  have hbuf : ((t ++ rest).take cap).takeWhile more = t := by
    rw [List.take_append, List.take_of_length_le hlen, List.takeWhile_append_of_pos ht, htail,
      List.append_nil]
  rw [readSome, hbuf, List.drop_left]

/-! ## An+B -/

theorem toInt_of_isInt {v : Int} (h : IsInt v) : toInt v = v := by
  obtain ⟨hlow, hhigh⟩ := h
  rw [toInt, Int.bmod_eq_of_le_mul_two] <;> omega

theorem foldl_digits (ds : Bytes) (v : Nat) :
    ds.foldl (fun (v : Int) d => v * 10 + ((d.toNat - 48 : Nat) : Int)) v =
      ((ds.foldl (fun v d => v * 10 + (d.toNat - 48)) v : Nat) : Int) := by
  induction ds generalizing v with
  | nil => rfl
  | cons d ds ih =>
    rw [List.foldl_cons, List.foldl_cons, ← ih]
    push_cast
    rfl

theorem isspace_of_isdigit {c : UInt8} (h : isdigit c = true) : isspace c = false := by
  simp only [isdigit, Bool.and_eq_true, decide_eq_true_eq, UInt8.le_iff_toNat_le,
    UInt8.reduceToNat] at h
  rw [Bool.eq_false_iff]
  simp only [isspace, ne_eq, Bool.or_eq_true, Bool.and_eq_true, beq_iff_eq, decide_eq_true_eq,
    UInt8.le_iff_toNat_le, ← UInt8.toNat_inj, UInt8.reduceToNat]
  omega

theorem isspace_of_isBlank {c : UInt8} (h : isBlank c = true) : isspace c = true := by
  simp only [isBlank, Bool.or_eq_true, beq_iff_eq] at h
  rcases h with (((rfl | rfl) | rfl) | rfl) | rfl <;> rfl

theorem dropWhile_blanks (s : Blanks) {t : Bytes} (ht : ∀ c ∈ t.head?, isspace c = false) :
    (s.1 ++ t).dropWhile isspace = t := by
  have hs : ∀ c ∈ s.1, isspace c = true := fun c hc =>
    isspace_of_isBlank (List.all_eq_true.1 s.2 c hc)
  rw [List.dropWhile_append_of_pos hs]
  cases t with
  | nil => rfl
  | cons c t => simp [ht c rfl]

/-- A number is read up to what is no digit, and kept within a `long`. -/
theorem strtol_number (sign : Option Sign) (ds : Digits) (rest : Bytes)
    (hrest : ∀ c ∈ rest.head?, isdigit c = false) :
    strtol (signText sign ++ (ds.1 ++ rest)) =
      (max (min (signed sign (digitsValue ds.1)) (2 ^ 63 - 1)) (-2 ^ 63), rest) := by
  obtain ⟨ds, hne, hdigits⟩ := ds
  have hall := List.all_eq_true.1 hdigits
  obtain ⟨d, ds', rfl⟩ := List.exists_cons_of_ne_nil hne
  have htake : ((d :: ds') ++ rest).takeWhile isdigit = d :: ds' := by
    rw [List.takeWhile_append_of_pos hall]
    cases rest with
    | nil => simp
    | cons c rest => simp [hrest c rfl]
  have hdrop : ((d :: ds') ++ rest).dropWhile isdigit = rest := by
    rw [List.dropWhile_append_of_pos hall]
    cases rest with
    | nil => rfl
    | cons c rest => simp [hrest c rfl]
  have hvalue : (d :: ds').foldl (fun (v : Int) d => v * 10 + ((d.toNat - 48 : Nat) : Int)) 0 =
      (digitsValue (d :: ds') : Int) := foldl_digits (d :: ds') 0
  have hd : isdigit d = true := hall d List.mem_cons_self
  have hspace : isspace d = false := isspace_of_isdigit hd
  simp only [List.cons_append] at htake hdrop
  cases sign with
  | none =>
    have hminus : d ≠ 45 := by rintro rfl; cases hd
    have hplus : d ≠ 43 := by rintro rfl; cases hd
    have hrange : signed none (digitsValue (d :: ds')) = (digitsValue (d :: ds') : Int) := rfl
    rw [hrange]
    simp [strtol, signText, hspace, hminus, hplus, htake, hdrop, hvalue]
  | some sign =>
    cases sign with
    | plus =>
      have hrange : signed (some .plus) (digitsValue (d :: ds')) =
          (digitsValue (d :: ds') : Int) := rfl
      rw [hrange]
      simp [strtol, signText, Sign.byte, isspace, htake, hdrop, hvalue]
    | minus =>
      have hrange : signed (some .minus) (digitsValue (d :: ds')) =
          -(digitsValue (d :: ds') : Int) := rfl
      rw [hrange]
      simp [strtol, signText, Sign.byte, isspace, htake, hdrop, hvalue]

theorem strtol_append (sign : Option Sign) (ds : Digits) (rest : Bytes)
    (hint : IsInt (signed sign (digitsValue ds.1))) (hrest : ∀ c ∈ rest.head?, isdigit c = false) :
    strtol (signText sign ++ (ds.1 ++ rest)) = (signed sign (digitsValue ds.1), rest) := by
  obtain ⟨hlow, hhigh⟩ := hint
  rw [strtol_number sign ds rest hrest, min_eq_left (by omega), max_eq_left (by omega)]

/-- What follows the `n`. -/
theorem anbOffset_append {a : Int} {offset : Option (Blanks × Sign × Blanks × Digits)}
    (hplain : ∀ o ∈ offset, o.1.1 = [] ∧ o.2.2.1.1 = []) (hint : IsInt (offsetValue offset))
    {after : Blanks} (hafter : after.1 = [] ∨ offset.isSome = true) :
    anbOffset a (offsetText offset ++ after.1) = some (a, offsetValue offset) := by
  cases offset with
  | none =>
    have hnil : after.1 = [] := hafter.resolve_right (by simp)
    simp [offsetText, offsetValue, anbOffset, hnil]
  | some o =>
    obtain ⟨before, sign, between, digits⟩ := o
    obtain ⟨hbefore, hbetween⟩ := hplain _ rfl
    have hread : strtol (sign.byte :: (digits.1 ++ after.1)) =
        (sign.apply (digitsValue digits.1), after.1) := by
      refine strtol_append (some sign) digits after.1 hint fun c hc => ?_
      have hspace := isspace_of_isBlank (List.all_eq_true.1 after.2 c (List.mem_of_mem_head? hc))
      rw [Bool.eq_false_iff]
      intro hdigit
      rw [isspace_of_isdigit hdigit] at hspace
      cases hspace
    have htext : offsetText (some (before, sign, between, digits)) ++ after.1 =
        sign.byte :: (digits.1 ++ after.1) := by
      show (before.1 ++ (sign.byte :: (between.1 ++ digits.1))) ++ after.1 = _
      rw [show before.1 = [] from hbefore, show between.1 = [] from hbetween]
      rfl
    have hsign : (sign.byte == 43 || sign.byte == 45) = true := by cases sign <;> rfl
    rw [htext]
    simp only [anbOffset, hsign, if_true, hread]
    exact congrArg some (congrArg (Prod.mk a) (toInt_of_isInt hint))

theorem parseAnb_blanks (before : Blanks) {t : Bytes} (ht : ∀ c ∈ t.head?, isspace c = false) :
    parseAnb (before.1 ++ t) = parseAnb t := by
  have hself := dropWhile_blanks ⟨[], rfl⟩ ht
  unfold parseAnb
  rw [dropWhile_blanks before ht]
  simp only [List.nil_append] at hself
  rw [hself]

theorem ascii_odd : ascii "odd" = [111, 100, 100] := by decide

theorem ascii_even : ascii "even" = [101, 118, 101, 110] := by decide

/-- The first character of a number, which no keyword and no `n` begins with. -/
theorem number_cons (sign : Option Sign) (ds : Digits) (rest : Bytes) :
    ∃ c s, signText sign ++ (ds.1 ++ rest) = c :: s ∧ isspace c = false ∧ c ≠ 111 ∧ c ≠ 101 ∧
      c ≠ 110 ∧ ∀ r, c :: s ≠ 43 :: 110 :: r ∧ c :: s ≠ 45 :: 110 :: r := by
  obtain ⟨ds, hne, hdigits⟩ := ds
  obtain ⟨d, ds', rfl⟩ := List.exists_cons_of_ne_nil hne
  have hd : isdigit d = true := List.all_eq_true.1 hdigits d List.mem_cons_self
  have hother : ∀ k, isdigit k = false → d ≠ k := by
    rintro k hk rfl
    rw [hd] at hk
    cases hk
  cases sign with
  | none =>
    refine ⟨d, ds' ++ rest, rfl, isspace_of_isdigit hd, hother 111 rfl, hother 101 rfl,
      hother 110 rfl, fun r => ⟨fun h => ?_, fun h => ?_⟩⟩
    · exact hother 43 rfl (List.cons.inj h).1
    · exact hother 45 rfl (List.cons.inj h).1
  | some sign =>
    have hnext : ∀ k r, sign.byte :: (d :: ds' ++ rest) ≠ k :: 110 :: r := fun k r h =>
      hother 110 rfl (List.cons.inj (List.cons.inj h).2).1
    refine ⟨sign.byte, d :: ds' ++ rest, rfl, ?_, ?_, ?_, ?_, fun r => ⟨hnext 43 r, hnext 45 r⟩⟩
    all_goals cases sign <;> decide

/-- What becomes of a number in front, by what follows it. -/
def anbBehind (coef : Int) : Bytes → Option (Int × Int)
  | [] => some (0, coef)
  | 110 :: r => anbOffset coef r
  | _ => none

/-- A text that begins with a number goes to `strtol`. -/
theorem parseAnb_number (sign : Option Sign) (ds : Digits) (rest : Bytes)
    (hrest : ∀ c ∈ rest.head?, isdigit c = false) :
    parseAnb (signText sign ++ (ds.1 ++ rest)) =
      anbBehind (toInt (strtol (signText sign ++ (ds.1 ++ rest))).1) rest := by
  have hread := strtol_number sign ds rest hrest
  have hlen : rest ≠ signText sign ++ (ds.1 ++ rest) := by
    intro h
    have hpos := List.length_pos_iff.2 ds.2.1
    have heq := congrArg List.length h
    simp only [List.length_append] at heq
    omega
  obtain ⟨c, s, ht, hspace, hodd, heven, hn, hsign⟩ := number_cons sign ds rest
  rw [ht] at hread hlen ⊢
  have hskip : (c :: s).dropWhile isspace = c :: s := by simp [hspace]
  have hne_odd : c :: s ≠ ascii "odd" := by
    rw [ascii_odd]
    exact fun h => hodd (List.cons.inj h).1
  have hne_even : c :: s ≠ ascii "even" := by
    rw [ascii_even]
    exact fun h => heven (List.cons.inj h).1
  unfold parseAnb
  simp only [hskip, List.isEmpty_cons, Bool.false_eq_true, if_false, hne_odd, hne_even]
  split
  · rename_i heq
    exact absurd (List.cons.inj heq).1 hn
  · rename_i r heq
    exact absurd heq (hsign r).1
  · rename_i r heq
    exact absurd heq (hsign r).2
  · simp only [hread, hlen, if_false]
    rfl

/-- An argument of lower case without inner white space is read as it is meant. -/
theorem parseAnb_append {before after : Blanks} {arg : Anb} (h : arg.Readable)
    (hafter : after.1 = [] ∨ arg.hasOffset = true) :
    parseAnb (before.1 ++ (arg.text ++ after.1)) = some arg.value := by
  cases arg with
  | odd spelling legal =>
    obtain rfl : spelling = ascii "odd" := h
    have hnil : after.1 = [] := hafter.resolve_right (by simp [Anb.hasOffset])
    simp only [Anb.text, hnil, List.append_nil]
    rw [parseAnb_blanks before (by simp [ascii_odd, isspace])]
    rfl
  | even spelling legal =>
    obtain rfl : spelling = ascii "even" := h
    have hnil : after.1 = [] := hafter.resolve_right (by simp [Anb.hasOffset])
    simp only [Anb.text, hnil, List.append_nil]
    rw [parseAnb_blanks before (by simp [ascii_even, isspace])]
    rfl
  | integer sign digits =>
    have hnil : after.1 = [] := hafter.resolve_right (by simp [Anb.hasOffset])
    obtain ⟨c, s, ht, hspace, -⟩ := number_cons sign digits []
    have hparse := parseAnb_number sign digits [] (by simp)
    rw [strtol_append sign digits [] h (by simp), toInt_of_isInt h, anbBehind] at hparse
    simp only [Anb.text, hnil, List.append_nil] at ht hparse ⊢
    rw [parseAnb_blanks before (by rw [ht]; simpa using hspace), hparse]
    rfl
  | linear sign coef n legal offset =>
    obtain ⟨rfl, hcoef, hoffset, hplain⟩ := h
    have hend : after.1 = [] ∨ offset.isSome = true := hafter.imp_right fun h => by
      cases offset with
      | none => cases h
      | some o => rfl
    simp only [Anb.text, List.append_assoc, List.cons_append]
    cases coef with
    | none =>
      have hn : ∀ r, parseAnb (110 :: r) = anbOffset 1 r := fun r => by
        simp [parseAnb, isspace, ascii_odd, ascii_even]
      have hsign : ∀ (sign : Sign) r, parseAnb (sign.byte :: 110 :: r) =
          anbOffset (sign.apply 1) r := fun sign r => by
        cases sign <;> simp [parseAnb, isspace, ascii_odd, ascii_even, Sign.byte, Sign.apply]
      have hspace : ∀ sign : Sign, isspace sign.byte = false := fun sign => by
        cases sign <;> decide
      cases sign with
      | none =>
        simp only [signText, Option.map_none, Option.getD_none, List.nil_append]
        rw [parseAnb_blanks before (by simp [isspace]), hn, anbOffset_append hplain hoffset hend]
        rfl
      | some sign =>
        simp only [signText, Option.map_none, Option.getD_none, List.nil_append, List.cons_append]
        rw [parseAnb_blanks before (by simp [hspace]), hsign, anbOffset_append hplain hoffset hend]
        rfl
    | some ds =>
      have hcoef : IsInt (signed sign (digitsValue ds.1)) := hcoef
      obtain ⟨c, s, ht, hspace, -⟩ :=
        number_cons sign ds (110 :: (offsetText offset ++ after.1))
      have hdigit : ∀ c ∈ (110 :: (offsetText offset ++ after.1)).head?, isdigit c = false := by
        simp [isdigit]
      have hparse := parseAnb_number sign ds (110 :: (offsetText offset ++ after.1)) hdigit
      rw [strtol_append sign ds _ hcoef hdigit, toInt_of_isInt hcoef, anbBehind] at hparse
      simp only [Option.map_some, Option.getD_some]
      rw [parseAnb_blanks before (by rw [ht]; simpa using hspace), hparse,
        anbOffset_append hplain hoffset hend]
      rfl

theorem isInt_small {v : Int} (hlow : 0 ≤ v) (hhigh : v ≤ 2) : IsInt v := by
  unfold IsInt
  omega

/-- `nth_test` finds the places of An+B. -/
theorem nthTest_iff {idx : Nat} {a b : Int} (ha : IsInt a) (hb : IsInt b) (hidx : 0 < idx)
    (hdiff : a = 0 ∨ idx - b < 2 ^ 31) :
    nthTest idx a b = true ↔ ∃ k : Nat, a * k + b = idx := by
  unfold nthTest
  split_ifs with hzero
  · subst hzero
    rw [beq_iff_eq]
    constructor
    · rintro rfl
      exact ⟨0, by simp⟩
    · rintro ⟨k, hk⟩
      simpa using hk.symm
  · have hint : IsInt (idx - b) := ⟨by have := hb.2; omega, hdiff.resolve_left hzero⟩
    simp only [toInt_of_isInt hint]
    constructor
    · intro h
      split_ifs at h with hmod
      have hnonneg : 0 ≤ ((idx : Int) - b).tdiv a := of_decide_eq_true h
      refine ⟨(((idx : Int) - b).tdiv a).toNat, ?_⟩
      rw [Int.toNat_of_nonneg hnonneg, Int.mul_tdiv_cancel_of_tmod_eq_zero (not_not.1 hmod)]
      omega
    · rintro ⟨k, hk⟩
      have heq : (idx : Int) - b = a * k := by omega
      rw [heq, Int.mul_tmod_right, Int.mul_tdiv_cancel_left _ hzero]
      simp

end TinyFramework.Css
