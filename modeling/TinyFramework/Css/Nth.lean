/-
  Css/Nth.lean --- the arguments An+B that select what they say.

  `parse_anb` knows lower case only, reads white space in front of the argument and nowhere
  else, and stores its numbers in an `int`; `nth_test` subtracts them from the index.
-/
import TinyFramework.Css.SelectorTests

set_option autoImplicit false

namespace TinyFramework.Css

open TinyFramework.Foundation TinyFramework.Dom

/-! ## Reading -/

theorem isInt_toInt (v : Int) : IsInt (toInt v) := by
  have hlow := Int.le_bmod (x := v) (m := 2 ^ 32) (by decide)
  have hhigh := Int.bmod_lt (x := v) (m := 2 ^ 32) (by decide)
  unfold IsInt toInt
  omega

theorem toInt_eq_iff {v w : Int} (hw : w = max (min v (2 ^ 63 - 1)) (-2 ^ 63)) :
    toInt w = v ↔ IsInt v := by
  constructor
  · intro h
    exact h ▸ isInt_toInt w
  · rintro ⟨hlow, hhigh⟩
    have heq : w = v := by omega
    rw [heq, toInt_of_isInt ⟨hlow, hhigh⟩]

/-- What may follow the `n`: no white space in front of the sign, none behind it either unless
the number is 0 anyway, and none at the end of an argument without a number there. -/
def OffsetRead (offset : Option (Blanks × Sign × Blanks × Digits)) (after : Blanks) : Prop :=
  match offset with
  | none => after.1 = []
  | some (before, sign, between, digits) =>
      before.1 = [] ∧ IsInt (sign.apply (digitsValue digits.1)) ∧
        (between.1 = [] ∨ digitsValue digits.1 = 0)

/-- The arguments whose numbers are read: of lower case, with numbers in the range of `int`. -/
def Anb.Read (after : Blanks) : Anb → Prop
  | odd spelling _ => spelling = ascii "odd" ∧ after.1 = []
  | even spelling _ => spelling = ascii "even" ∧ after.1 = []
  | integer sign digits => IsInt (signed sign (digitsValue digits.1)) ∧ after.1 = []
  | linear sign coef n _ offset =>
      n = 110 ∧ IsInt (signed sign ((coef.map fun ds => digitsValue ds.1).getD 1)) ∧
        OffsetRead offset after

theorem blank_not_digit {s : Blanks} {c : UInt8} (hc : c ∈ s.1.head?) :
    isdigit c = false ∧ c ≠ 110 ∧ c ≠ 43 ∧ c ≠ 45 := by
  have hblank : isBlank c = true := List.all_eq_true.1 s.2 c (List.mem_of_mem_head? hc)
  simp only [isBlank, Bool.or_eq_true, beq_iff_eq] at hblank
  rcases hblank with (((rfl | rfl) | rfl) | rfl) | rfl <;> decide

/-- Text that is no number is not read. -/
theorem strtol_sign_blank (sign : Sign) {between : Blanks} (hne : between.1 ≠ []) (rest : Bytes) :
    strtol (sign.byte :: (between.1 ++ rest)) = (0, sign.byte :: (between.1 ++ rest)) := by
  obtain ⟨c, s, hs⟩ := List.exists_cons_of_ne_nil hne
  have hdigit : isdigit c = false := (blank_not_digit (s := between) (by rw [hs]; rfl)).1
  have hspace : isspace sign.byte = false := by cases sign <;> decide
  rw [hs]
  cases sign <;> simp [strtol, Sign.byte, isspace, hdigit]

theorem anbOffset_eq_iff (a : Int) (offset : Option (Blanks × Sign × Blanks × Digits))
    (after : Blanks) (b : Int) :
    anbOffset a (offsetText offset ++ after.1) = some (b, offsetValue offset) ↔
      a = b ∧ OffsetRead offset after := by
  cases offset with
  | none =>
    simp only [offsetText, offsetValue, List.nil_append, OffsetRead]
    cases hafter : after.1 with
    | nil => simp [anbOffset]
    | cons c s =>
      obtain ⟨-, -, hplus, hminus⟩ := blank_not_digit (s := after) (c := c) (by rw [hafter]; rfl)
      simp [anbOffset, hplus, hminus]
  | some o =>
    obtain ⟨before, sign, between, digits⟩ := o
    simp only [offsetText, offsetValue, OffsetRead, List.append_assoc, List.cons_append]
    cases hbefore : before.1 with
    | cons c s =>
      obtain ⟨-, -, hplus, hminus⟩ := blank_not_digit (s := before) (c := c) (by rw [hbefore]; rfl)
      simp [anbOffset, hplus, hminus]
    | nil =>
      have hsign : (sign.byte == 43 || sign.byte == 45) = true := by cases sign <;> rfl
      simp only [List.nil_append, anbOffset, hsign, if_true, Option.some.injEq, Prod.mk.injEq,
        true_and]
      refine and_congr_right fun _ => ?_
      cases hbetween : between.1 with
      | nil =>
        have hread := strtol_number (some sign) digits after.1 fun c hc =>
          (blank_not_digit hc).1
        have hvalue : (strtol (sign.byte :: ([] ++ (digits.1 ++ after.1)))).1 =
            max (min (sign.apply (digitsValue digits.1)) (2 ^ 63 - 1)) (-2 ^ 63) :=
          congrArg Prod.fst hread
        rw [toInt_eq_iff hvalue]
        simp
      | cons c s =>
        have hread : strtol (sign.byte :: (c :: s ++ (digits.1 ++ after.1))) =
            (0, sign.byte :: (c :: s ++ (digits.1 ++ after.1))) := by
          have hne : between.1 ≠ [] := by simp [hbetween]
          have hblank := strtol_sign_blank sign hne (digits.1 ++ after.1)
          rwa [hbetween] at hblank
        rw [hread]
        have hzero : (sign.apply (digitsValue digits.1) = 0) ↔ digitsValue digits.1 = 0 := by
          cases sign <;> simp [Sign.apply]
        constructor
        · intro h
          have h0 : sign.apply (digitsValue digits.1) = 0 := h.symm
          rw [h0]
          exact ⟨⟨by decide, by decide⟩, .inr (hzero.1 h0)⟩
        · rintro ⟨-, hnil | h0⟩
          · cases hnil
          · rw [hzero.2 h0]
            rfl

/-- Text that begins neither with a number nor with an `n` is a keyword or nothing. -/
theorem parseAnb_none {c : UInt8} {s : Bytes} (hspace : isspace c = false)
    (hodd : c :: s ≠ ascii "odd") (heven : c :: s ≠ ascii "even") (hn : c ≠ 110)
    (hsign : ∀ r, c :: s ≠ 43 :: 110 :: r ∧ c :: s ≠ 45 :: 110 :: r)
    (hread : (strtol (c :: s)).2 = c :: s) : parseAnb (c :: s) = none := by
  have hskip : (c :: s).dropWhile isspace = c :: s := by simp [hspace]
  unfold parseAnb
  simp only [hskip, List.isEmpty_cons, Bool.false_eq_true, if_false, hodd, heven]
  split
  · rename_i heq
    exact absurd (List.cons.inj heq).1 hn
  · rename_i r heq
    exact absurd heq (hsign r).1
  · rename_i r heq
    exact absurd heq (hsign r).2
  · simp only [hread, if_true]

/-- The letters of the keywords, in either case. -/
theorem letter_of_tolower {c : UInt8} (h : tolower c = 110 ∨ tolower c = 111 ∨ tolower c = 101) :
    isspace c = false ∧ isdigit c = false ∧ c ≠ 43 ∧ c ≠ 45 := by
  have hlow : c.toNat ≤ 57 → tolower c = c := by
    intro hle
    rw [tolower, if_neg]
    rintro ⟨hlow, -⟩
    have hlow : 65 ≤ c.toNat := UInt8.le_iff_toNat_le.1 hlow
    omega
  have hhigh : 57 < c.toNat := by
    by_contra hle
    rw [hlow (Nat.not_lt.1 hle)] at h
    rcases h with rfl | rfl | rfl <;> exact absurd hle (by decide)
  refine ⟨?_, ?_, ?_, ?_⟩
  · rw [Bool.eq_false_iff]
    simp only [isspace, ne_eq, Bool.or_eq_true, Bool.and_eq_true, beq_iff_eq, decide_eq_true_eq,
      UInt8.le_iff_toNat_le, ← UInt8.toNat_inj, UInt8.reduceToNat]
    omega
  · rw [Bool.eq_false_iff]
    simp only [isdigit, ne_eq, Bool.and_eq_true, decide_eq_true_eq, UInt8.le_iff_toNat_le,
      UInt8.reduceToNat]
    omega
  all_goals
    rintro rfl
    exact absurd hhigh (by decide)

theorem parseAnb_keyword {spelling word : Bytes} (hword : word = ascii "odd" ∨ word = ascii "even")
    (hspell : spelling.map tolower = word) (before after : Blanks) :
    parseAnb (before.1 ++ (spelling ++ after.1)) ≠ none ↔ spelling = word ∧ after.1 = [] := by
  have hlength : spelling.length = word.length := by rw [← hspell, List.length_map]
  obtain ⟨c, s, rfl⟩ : ∃ c s, spelling = c :: s := by
    refine List.exists_cons_of_length_pos ?_
    rw [hlength]
    rcases hword with rfl | rfl <;> decide
  have hc : tolower c = 111 ∨ tolower c = 101 := by
    have hhead := congrArg List.head? hspell
    rw [List.map_cons, List.head?_cons] at hhead
    rcases hword with rfl | rfl
    · rw [ascii_odd] at hhead
      exact .inl (Option.some.inj hhead)
    · rw [ascii_even] at hhead
      exact .inr (Option.some.inj hhead)
  obtain ⟨hspace, hdigit, hplus, hminus⟩ := letter_of_tolower (.inr hc)
  have hn : c ≠ 110 := by
    rintro rfl
    revert hc
    decide
  rw [parseAnb_blanks before (by simpa using hspace)]
  constructor
  · intro hread
    by_contra hother
    have hwhole : ∀ other, other = ascii "odd" ∨ other = ascii "even" →
        c :: (s ++ after.1) ≠ other := by
      rintro other hmem rfl
      apply hother
      have hsame : word = c :: (s ++ after.1) := by
        have hfirst := congrArg List.head? hspell
        rcases hword with rfl | rfl <;> rcases hmem with heq | heq
        · exact heq.symm
        · rw [ascii_even] at heq
          rw [ascii_odd, List.map_cons, (List.cons.inj heq).1] at hfirst
          exact absurd (Option.some.inj hfirst) (by decide)
        · rw [ascii_odd] at heq
          rw [ascii_even, List.map_cons, (List.cons.inj heq).1] at hfirst
          exact absurd (Option.some.inj hfirst) (by decide)
        · exact heq.symm
      have hlast : after.1 = [] := by
        refine List.eq_nil_of_length_eq_zero ?_
        rw [hsame, List.length_cons, List.length_cons, List.length_append] at hlength
        omega
      exact ⟨by rw [hsame, hlast, List.append_nil], hlast⟩
    refine hread (parseAnb_none hspace (hwhole _ (.inl rfl)) (hwhole _ (.inr rfl)) hn
      (fun r => ⟨fun h => hplus (List.cons.inj h).1, fun h => hminus (List.cons.inj h).1⟩) ?_)
    simp [strtol, hspace, hdigit, hplus, hminus]
  · rintro ⟨rfl, hafter⟩
    rw [hafter, List.append_nil]
    rcases hword with h | h <;> rw [h] <;> decide

/-- A letter behind the sign is read as the `n` in front of an offset, if it is a small one. -/
theorem parseAnb_letter (before : Blanks) (sign : Option Sign) {n : UInt8} (legal : tolower n = 110)
    (t : Bytes) :
    parseAnb (before.1 ++ (signText sign ++ n :: t)) =
      if n = 110 then anbOffset (signed sign 1) t else none := by
  obtain ⟨hspace, hdigit, hplus, hminus⟩ := letter_of_tolower (.inl legal)
  cases sign with
  | none =>
    simp only [signText, List.nil_append]
    rw [parseAnb_blanks before (by simpa using hspace)]
    split_ifs with hn
    · subst hn
      simp [parseAnb, isspace, ascii_odd, ascii_even, signed, Sign.apply]
    · refine parseAnb_none hspace ?_ ?_ hn (fun r => ?_) ?_
      · rw [ascii_odd]
        intro h
        rw [(List.cons.inj h).1] at legal
        exact absurd legal (by decide)
      · rw [ascii_even]
        intro h
        rw [(List.cons.inj h).1] at legal
        exact absurd legal (by decide)
      · exact ⟨fun h => hplus (List.cons.inj h).1, fun h => hminus (List.cons.inj h).1⟩
      · simp [strtol, hspace, hdigit, hplus, hminus]
  | some sign =>
    have hblank : isspace sign.byte = false := by cases sign <;> decide
    simp only [signText, List.cons_append, List.nil_append]
    rw [parseAnb_blanks before (by simpa using hblank)]
    split_ifs with hn
    · subst hn
      cases sign <;>
        simp [parseAnb, isspace, ascii_odd, ascii_even, Sign.byte, signed, Sign.apply]
    · refine parseAnb_none hblank ?_ ?_ ?_ (fun r => ?_) ?_
      · cases sign <;> simp [ascii_odd, Sign.byte]
      · cases sign <;> simp [ascii_even, Sign.byte]
      · cases sign <;> decide
      · cases sign <;> simp [Sign.byte, hn]
      · cases sign <;> simp [strtol, Sign.byte, isspace, hdigit]

theorem parseAnb_keyword_iff (before after : Blanks) {spelling word : Bytes} {value : Int × Int}
    (hword : word = ascii "odd" ∨ word = ascii "even") (legal : spelling.map tolower = word)
    (hread : spelling = word → after.1 = [] →
      parseAnb (before.1 ++ (spelling ++ after.1)) = some value) :
    parseAnb (before.1 ++ (spelling ++ after.1)) = some value ↔
      spelling = word ∧ after.1 = [] := by
  refine ⟨fun h => (parseAnb_keyword hword legal before after).1 ?_,
    fun ⟨hspell, hafter⟩ => hread hspell hafter⟩
  rw [h]
  exact Option.some_ne_none _

theorem parseAnb_integer_iff (before after : Blanks) (sign : Option Sign) (digits : Digits) :
    parseAnb (before.1 ++ ((Anb.integer sign digits).text ++ after.1)) =
        some (Anb.integer sign digits).value ↔ (Anb.integer sign digits).Read after := by
  obtain ⟨c, s, ht, hspace, -⟩ := number_cons sign digits after.1
  have hdigit : ∀ c ∈ after.1.head?, isdigit c = false := fun c hc => (blank_not_digit hc).1
  have hparse := parseAnb_number sign digits after.1 hdigit
  have hvalue := congrArg Prod.fst (strtol_number sign digits after.1 hdigit)
  have hints : (Anb.integer sign digits).value = (0, signed sign (digitsValue digits.1)) := rfl
  simp only [Anb.text, List.append_assoc]
  rw [parseAnb_blanks before (by rw [ht]; simpa using hspace), hparse, hints]
  cases hafter : after.1 with
  | nil =>
    rw [hafter] at hvalue
    simp only [anbBehind, Anb.Read, hafter, and_true, Option.some.injEq, Prod.mk.injEq, true_and]
    exact toInt_eq_iff hvalue
  | cons d r =>
    have hd : d ≠ 110 := (blank_not_digit (s := after) (by rw [hafter]; rfl)).2.1
    simp [anbBehind, Anb.Read, hafter, hd]

/-- The arguments that are read as they are meant. -/
theorem parseAnb_eq_iff (before after : Blanks) (arg : Anb) :
    parseAnb (before.1 ++ (arg.text ++ after.1)) = some arg.value ↔ arg.Read after := by
  cases arg with
  | odd spelling legal =>
    exact parseAnb_keyword_iff before after (.inl rfl) legal fun hspell hafter =>
      @parseAnb_append before after (.odd spelling legal) hspell (.inl hafter)
  | even spelling legal =>
    exact parseAnb_keyword_iff before after (.inr rfl) legal fun hspell hafter =>
      @parseAnb_append before after (.even spelling legal) hspell (.inl hafter)
  | integer sign digits => exact parseAnb_integer_iff before after sign digits
  | linear sign coef n legal offset =>
    have hread : ∀ a,
        parseAnb (before.1 ++ ((Anb.linear sign coef n legal offset).text ++ after.1)) =
          (if n = 110 then anbOffset a (offsetText offset ++ after.1) else none) →
        (a = signed sign ((coef.map fun ds => digitsValue ds.1).getD 1) ↔
          IsInt (signed sign ((coef.map fun ds => digitsValue ds.1).getD 1))) →
        (parseAnb (before.1 ++ ((Anb.linear sign coef n legal offset).text ++ after.1)) =
          some (Anb.linear sign coef n legal offset).value ↔
        (Anb.linear sign coef n legal offset).Read after) := by
      intro a hparse ha
      rw [hparse]
      split_ifs with hn
      · rw [Anb.value, anbOffset_eq_iff, ha]
        simp [Anb.Read, hn]
      · simp [Anb.Read, hn]
    simp only [Anb.text, List.append_assoc, List.cons_append] at hread ⊢
    cases coef with
    | none =>
      have hone : signed sign 1 = signed sign 1 ↔ IsInt (signed sign 1) := by
        refine iff_of_true rfl ?_
        cases sign with
        | none => exact ⟨by decide, by decide⟩
        | some sign => cases sign <;> exact ⟨by decide, by decide⟩
      exact hread (signed sign 1) (parseAnb_letter before sign legal _) hone
    | some ds =>
      have hdigit : ∀ c ∈ (n :: (offsetText offset ++ after.1)).head?, isdigit c = false := by
        simpa using (letter_of_tolower (.inl legal)).2.1
      obtain ⟨c, s, ht, hspace, -⟩ := number_cons sign ds (n :: (offsetText offset ++ after.1))
      have hparse := parseAnb_number sign ds _ hdigit
      have hvalue := congrArg Prod.fst (strtol_number sign ds _ hdigit)
      refine hread _ ?_ (toInt_eq_iff hvalue)
      simp only [Option.map_some, Option.getD_some]
      rw [parseAnb_blanks before (by rw [ht]; simpa using hspace), hparse]
      split_ifs with hn
      · rw [hn, anbBehind]
      · rw [anbBehind]
        · exact fun h => absurd h (List.cons_ne_nil _ _)
        · exact fun r h => hn (List.cons.inj h).1

/-! ## Counting -/

/-- The difference that does not fit is taken modulo `2 ^ 32`. -/
theorem nthTest_wraps {i : Nat} {a b : Int} (ha : a ≠ 0) (hb : IsInt b) (hi : i < 2 ^ 31)
    (hover : 2 ^ 31 ≤ i - b) : nthTest i a b = true ↔ a < 0 ∧ a ∣ i - b - 2 ^ 32 := by
  have hwrap : toInt (i - b) = i - b - 2 ^ 32 := by
    have hint : IsInt ((i : Int) - b - 2 ^ 32) := by
      obtain ⟨hlow, -⟩ := hb
      exact ⟨by omega, by omega⟩
    have hmod := toInt_of_isInt hint
    unfold toInt at hmod ⊢
    have hsame : ((i : Int) - b).bmod (2 ^ 32) = ((i : Int) - b - 2 ^ 32).bmod (2 ^ 32) :=
      (Int.sub_bmod_right _ _).symm
    exact hsame.trans hmod
  have hneg : (i : Int) - b - 2 ^ 32 < 0 := by
    obtain ⟨hlow, -⟩ := hb
    omega
  unfold nthTest
  rw [if_neg ha]
  simp only [hwrap]
  generalize (i : Int) - b - 2 ^ 32 = d at hneg
  split_ifs with hmod
  · rw [Int.dvd_iff_tmod_eq_zero]
    exact iff_of_false id fun h => hmod h.2
  · have hdvd : a ∣ d := Int.dvd_of_tmod_eq_zero (not_not.1 hmod)
    obtain ⟨q, rfl⟩ := hdvd
    rw [Int.mul_tdiv_cancel_left _ ha, decide_eq_true_eq, and_iff_left (Dvd.intro q rfl)]
    rcases Int.lt_or_gt_of_ne ha with hlt | hgt
    · refine iff_of_true ?_ hlt
      by_contra hq
      have hpos := mul_pos_of_neg_of_neg hlt (not_le.1 hq)
      omega
    · refine iff_of_false ?_ (by omega)
      intro hq
      have hpos := mul_nonneg (le_of_lt hgt) hq
      omega

/-- An index counts for An+B. -/
def InAnb (a b : Int) (i : Nat) : Prop := ∃ k : Nat, a * k + b = i

/-- No index is so far from B that the distance does not fit into an `int` and yet counts: it is
divisible by A, as it is if A is positive, and as it comes out modulo `2 ^ 32` if A is negative. -/
def NoneWraps (a b : Int) : Prop :=
  a = 0 ∨ ∀ i : Nat, 1 ≤ i → i < 2 ^ 31 → 2 ^ 31 ≤ (i : Int) - b →
    if 0 < a then ¬ a ∣ i - b else ¬ a ∣ i - b - 2 ^ 32

theorem nthTest_iff_all {a b : Int} (ha : IsInt a) (hb : IsInt b) :
    (∀ i : Nat, 1 ≤ i → i < 2 ^ 31 → (nthTest i a b = true ↔ InAnb a b i)) ↔ NoneWraps a b := by
  have hbeyond : ∀ i : Nat, a ≠ 0 → 2 ^ 31 ≤ (i : Int) - b →
      (InAnb a b i ↔ 0 < a ∧ a ∣ i - b) := by
    intro i hzero hover
    constructor
    · rintro ⟨k, hk⟩
      have heq : (i : Int) - b = a * k := by omega
      refine ⟨?_, heq ▸ Dvd.intro _ rfl⟩
      by_contra hle
      have hnonpos := mul_nonpos_of_nonpos_of_nonneg (not_lt.1 hle) (Int.natCast_nonneg k)
      omega
    · rintro ⟨hpos, q, hq⟩
      have hqpos : 0 ≤ q := by
        by_contra hneg
        have hmul := mul_neg_of_pos_of_neg hpos (not_le.1 hneg)
        omega
      refine ⟨q.toNat, ?_⟩
      rw [Int.toNat_of_nonneg hqpos]
      omega
  constructor
  · intro hall
    refine or_iff_not_imp_left.2 fun hzero i hone hi hover => ?_
    have htest := hall i hone hi
    rw [nthTest_wraps hzero hb hi hover, hbeyond i hzero hover] at htest
    split_ifs with hpos
    · exact fun hdvd => absurd (htest.2 ⟨hpos, hdvd⟩).1 (by omega)
    · exact fun hdvd => hpos (htest.1 ⟨by omega, hdvd⟩).1
  · intro hnone i hone hi
    by_cases hdiff : a = 0 ∨ (i : Int) - b < 2 ^ 31
    · exact nthTest_iff ha hb hone hdiff
    · obtain ⟨hzero, hover⟩ := not_or.1 hdiff
      have hover : 2 ^ 31 ≤ (i : Int) - b := by omega
      have hwraps := (hnone.resolve_left hzero) i hone hi hover
      rw [nthTest_wraps hzero hb hi hover, hbeyond i hzero hover]
      split_ifs at hwraps with hpos
      · exact iff_of_false (fun h => absurd h.1 (by omega)) fun h => hwraps h.2
      · exact iff_of_false (fun h => hwraps h.2) fun h => hpos h.1

/-! ## Selecting -/

/-- The index of an element among its siblings, or those of its type, from either end. -/
def Page.index (page : Page) (n : NodeId) (ofType fromEnd : Bool) : Nat :=
  1 + ((page.others n fromEnd).filter fun s =>
    page.isElement s && (!ofType || page.sameTag n s)).length

/-- The argument is accepted with its two numbers, the test finds the indices that count, and so
the four pseudo-classes select the elements with such an index. -/
structure Anb.Selects (arg : Anb) (before after : Blanks) : Prop where
  accepted : parseAnb (before.1 ++ (arg.text ++ after.1)) = some arg.value
  tests : ∀ i : Nat, 1 ≤ i → i < 2 ^ 31 →
    (nthTest i arg.value.1 arg.value.2 = true ↔ InAnb arg.value.1 arg.value.2 i)
  selects : ∀ (page : Page) (n : NodeId) (ofType fromEnd : Bool), WellFormed page.heap →
    page.isElement n = true → (page.heap.node n).tag ≠ none →
    page.index n ofType fromEnd < 2 ^ 31 →
    (structuralPseudo page n (Structural.nth ofType fromEnd before arg after).keyword
        (before.1 ++ (arg.text ++ after.1)) = some true ↔
      InAnb arg.value.1 arg.value.2 (page.index n ofType fromEnd))

theorem index_eq {page : Page} {n : NodeId} (hwf : WellFormed page.heap)
    (hn : page.isElement n = true) (htag : (page.heap.node n).tag ≠ none) (ofType fromEnd : Bool) :
    (if ofType then page.elemIndexOfType n fromEnd else page.elemIndex n fromEnd) =
      page.index n ofType fromEnd := by
  have hsome : (page.heap.node n).tag.isNone = false :=
    Option.isNone_eq_false_iff.2 (Option.isSome_iff_ne_none.2 htag)
  cases ofType with
  | false =>
    cases fromEnd <;>
      simp [Page.index, Page.elemIndex, prevElems_eq hwf hn, nextElems_eq hwf hn]
  | true =>
    cases fromEnd <;>
      simp [Page.index, Page.elemIndexOfType, hsome, prevElems_eq hwf hn, nextElems_eq hwf hn,
        List.filter_filter, List.filter_reverse, Bool.and_comm]

theorem Anb.Read.isInt {arg : Anb} {after : Blanks} (h : arg.Read after) :
    IsInt arg.value.1 ∧ IsInt arg.value.2 := by
  cases arg with
  | odd spelling legal =>
    exact ⟨isInt_small (v := 2) (by decide) (by decide),
      isInt_small (v := 1) (by decide) (by decide)⟩
  | even spelling legal =>
    exact ⟨isInt_small (v := 2) (by decide) (by decide),
      isInt_small (v := 0) (by decide) (by decide)⟩
  | integer sign digits => exact ⟨isInt_small (v := 0) (by decide) (by decide), h.1⟩
  | linear sign coef n legal offset =>
    obtain ⟨-, hcoef, hoffset⟩ := h
    refine ⟨hcoef, ?_⟩
    cases offset with
    | none => exact isInt_small (v := 0) (by decide) (by decide)
    | some o => exact hoffset.2.1

/-- An argument selects what it says exactly if its numbers are read and none wraps. -/
theorem anb_selects_iff (arg : Anb) (before after : Blanks) :
    arg.Selects before after ↔ arg.Read after ∧ NoneWraps arg.value.1 arg.value.2 := by
  constructor
  · intro h
    have hread := (parseAnb_eq_iff before after arg).1 h.accepted
    obtain ⟨ha, hb⟩ := hread.isInt
    exact ⟨hread, (nthTest_iff_all ha hb).1 h.tests⟩
  · rintro ⟨hread, hnone⟩
    obtain ⟨ha, hb⟩ := hread.isInt
    have haccepted := (parseAnb_eq_iff before after arg).2 hread
    have htests := (nthTest_iff_all ha hb).2 hnone
    refine ⟨haccepted, htests, fun page n ofType fromEnd hwf hn htag hindex => ?_⟩
    have hone : 1 ≤ page.index n ofType fromEnd := Nat.le_add_right _ _
    rw [structuralPseudo_keyword, Option.some.injEq, ← htests _ hone hindex]
    dsimp only
    rw [index_eq hwf hn htag, nthMatch, haccepted]

/-- `:nth-child(2n + 1)` -/
def spacedAnb : Anb :=
  .linear none (some ⟨ascii "2", by decide, by decide⟩) 110 rfl
    (some (⟨ascii " ", by decide⟩, .plus, ⟨ascii " ", by decide⟩, ⟨ascii "1", by decide, by decide⟩))

/-- White space around the sign is legal and not read. -/
theorem spaced_not_selected : ¬ spacedAnb.Selects ⟨[], rfl⟩ ⟨[], rfl⟩ := by
  intro h
  have hnone : parseAnb ([] ++ (spacedAnb.text ++ [])) = none := by decide
  exact absurd (hnone.symm.trans h.accepted) (Option.some_ne_none _).symm

end TinyFramework.Css
