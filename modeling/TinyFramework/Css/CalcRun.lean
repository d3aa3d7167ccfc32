/-
  Css/CalcRun.lean --- mini_css_eval finds the value of an expression.

  A reader that has read a text stands right behind it.  This is said of factors, of chains of
  factors and of chains of terms, each in front of what may follow it, and goes from the
  smaller texts to the larger ones along the tree.
-/
import TinyFramework.Css.Calc

set_option autoImplicit false

namespace TinyFramework.Css

open TinyFramework.Foundation

variable {reader operand : Reader} {op : UInt8 → Option (ℚ → ℚ → ℚ)} {stops stops' t l r : Bytes}
  {v w : ℚ} {bound : Nat}

/-! ## Readers -/

/-- What comes next is the end of the text, or one of the bytes. -/
def Follows (stops rest : Bytes) : Prop := ∀ c ∈ (skipWs rest).head?, c ∈ stops

/-- In front of one of the bytes the text is read. -/
def ReadsTo (reader : Reader) (stops t : Bytes) (v : ℚ) : Prop :=
  ∀ rest, Follows stops rest → reader (t ++ rest) = some (v, rest)

/-- The text is read as the beginning of a chain, which then goes on with the value. -/
def BeginsChain (operand : Reader) (op : UInt8 → Option (ℚ → ℚ → ℚ)) (stops t : Bytes) (v : ℚ) :
    Prop :=
  ∃ k < t.length, ∀ n rest, Follows stops rest →
    chained operand op (n + k) (t ++ rest) = chain operand op n v rest

/-- White space in front makes no difference. -/
def SkipsSpace (reader : Reader) : Prop := ∀ (b : CalcSpace) p, reader (b.bytes ++ p) = reader p

@[simp] theorem skipWs_blanks (b : CalcSpace) (p : Bytes) : skipWs (b.bytes ++ p) = skipWs p :=
  List.dropWhile_append_of_pos (List.all_eq_true.1 b.all_space)

theorem skipWs_cons {c : UInt8} (hc : isspace c = false) (p : Bytes) : skipWs (c :: p) = c :: p :=
  List.dropWhile_cons_of_neg (by rw [hc]; exact Bool.false_ne_true)

theorem follows_blanks (b : CalcSpace) {c : UInt8} (hc : isspace c = false) (hmem : c ∈ stops)
    (p : Bytes) : Follows stops (b.bytes ++ c :: p) := by
  rw [Follows, skipWs_blanks, skipWs_cons hc]
  rintro _ ⟨⟩
  exact hmem

theorem Follows.mono {rest : Bytes} (h : Follows stops rest) (hsub : stops ⊆ stops') :
    Follows stops' rest := fun c hc => hsub (h c hc)

theorem follows_nil : Follows stops [] := nofun

theorem passOver_blanks (b : CalcSpace) {c : UInt8} (hc : isspace c = false) (p : Bytes) :
    passOver c (b.bytes ++ c :: p) = p := by
  rw [passOver, skipWs_blanks, skipWs_cons hc]
  exact if_pos rfl

theorem SkipsSpace.chained (h : SkipsSpace operand) (n : Nat) :
    SkipsSpace (chained operand op n) := fun b p => by
  rw [Css.chained, Css.chained, h b p]

theorem ReadsTo.spaced (h : ReadsTo reader stops t v) (hskip : SkipsSpace reader) (b : CalcSpace) :
    ReadsTo reader stops (b.bytes ++ t) v := fun rest hrest => by
  rw [List.append_assoc, hskip, h rest hrest]

theorem BeginsChain.spaced (h : BeginsChain operand op stops t v) (hskip : SkipsSpace operand)
    (b : CalcSpace) : BeginsChain operand op stops (b.bytes ++ t) v := by
  obtain ⟨k, hk, hread⟩ := h
  refine ⟨k, Nat.lt_of_lt_of_le hk (by simp), fun n rest hrest => ?_⟩
  rw [List.append_assoc, hskip.chained, hread n rest hrest]

/-! ## Chains -/

/-- An operand is a chain. -/
theorem ReadsTo.begins (h : ReadsTo operand stops t v) (hne : t ≠ []) :
    BeginsChain operand op stops t v :=
  ⟨0, List.length_pos_of_ne_nil hne, fun n rest hrest => by
    rw [Nat.add_zero, Css.chained, h rest hrest]
    rfl⟩

/-- An operator and an operand make a chain longer. -/
theorem BeginsChain.more (hl : BeginsChain operand op stops l v) (hr : ReadsTo operand stops r w)
    (b : CalcSpace) {c : UInt8} {f : ℚ → ℚ → ℚ} (hspace : isspace c = false) (hc : c ∈ stops)
    (hop : op c = some f) : BeginsChain operand op stops (l ++ (b.bytes ++ c :: r)) (f v w) := by
  obtain ⟨k, hk, hread⟩ := hl
  refine ⟨k + 1, by simp; omega, fun n rest hrest => ?_⟩
  rw [List.append_assoc, List.append_assoc, List.cons_append, ← Nat.add_assoc, Nat.add_right_comm,
    hread (n + 1) _ (follows_blanks b hspace hc _), chain, skipWs_blanks, skipWs_cons hspace]
  simp only [hop]
  rw [hr rest hrest]
  rfl

/-- A chain ends in front of a byte that is no operator. -/
theorem BeginsChain.readsTo (h : BeginsChain operand op stops t v) (hlen : t.length ≤ bound)
    (hsub : stops' ⊆ stops) (hstop : ∀ c ∈ stops', op c = none) :
    ReadsTo (chained operand op bound) stops' t v := by
  obtain ⟨k, hk, hread⟩ := h
  intro rest hrest
  rw [show bound = (bound - k - 1) + 1 + k by omega, hread _ rest (hrest.mono hsub), chain]
  cases hskip : skipWs rest with
  | nil => rfl
  | cons c p =>
    have hnone := hstop c (hrest c (by rw [hskip]; rfl))
    simp only [hnone]

/-! ## Numbers -/

/-- What may follow a factor, a term and an expression. -/
def afterFactor : Bytes := [41, 44, 42, 47, 43, 45]

def afterTerm : Bytes := [41, 44, 43, 45]

def afterExpr : Bytes := [41, 44]

theorem scanExponent_text (e : NumeralExponent) {rest : Bytes}
    (hrest : ∀ b ∈ rest.head?, isDecimal b = false) :
    scanExponent (e.text ++ rest) = (e.text, rest) := by
  have hdigits : (e.digits ++ rest).takeWhile isDecimal = e.digits ∧
      (e.digits ++ rest).dropWhile isDecimal = rest :=
    takeWhile_decimal (List.all_eq_true.1 e.all_digits) hrest
  have hsign := takeSign_text e.sign (p := e.digits ++ rest) e.sign_head
  obtain ⟨c, hc, htext⟩ : ∃ c, (c = 101 ∨ c = 69) ∧ e.text = c :: (e.sign.text ++ e.digits) := by
    unfold NumeralExponent.text
    cases e.upper
    · exact ⟨101, .inl rfl, rfl⟩
    · exact ⟨69, .inr rfl, rfl⟩
  simp [htext, scanExponent, hc, hsign, hdigits]

theorem scanExponent_none {rest : Bytes} (hrest : ∀ b ∈ rest.head?, b ≠ 101 ∧ b ≠ 69) :
    scanExponent rest = ([], rest) := by
  cases rest with
  | nil => rfl
  | cons b rest =>
    obtain ⟨he, hE⟩ := hrest b rfl
    rw [scanExponent, if_neg (not_or.2 ⟨he, hE⟩)]

/-- A number goes up to what can be no part of it. -/
theorem scanNumber_mantissa (n : Numeral) {rest : Bytes}
    (hrest : ∀ b ∈ rest.head?, isDecimal b = false ∧ b ≠ 46) :
    scanNumber (n.mantissa ++ rest) =
      (n.mantissa ++ (scanExponent rest).1, (scanExponent rest).2) := by
  have hmantissa : ∀ b ∈ n.mantissa, (isDecimal b || b == 46) = true := by
    intro b hb
    rw [Bool.or_eq_true, beq_iff_eq]
    rcases List.mem_append.1 hb with hb | hb
    · exact .inl (List.all_eq_true.1 n.whole_digits b hb)
    · split_ifs at hb
      · cases hb
      · exact (List.mem_cons.1 hb).symm.imp (List.all_eq_true.1 n.fraction_digits b) id
  have hstop : rest.takeWhile (fun c => isDecimal c || c == 46) = [] ∧
      rest.dropWhile (fun c => isDecimal c || c == 46) = rest := by
    cases rest with
    | nil => exact ⟨rfl, rfl⟩
    | cons b rest =>
      obtain ⟨hdecimal, hpoint⟩ := hrest b rfl
      have hno : ¬ (isDecimal b || b == 46) = true := by simp [hdecimal, hpoint]
      exact ⟨List.takeWhile_cons_of_neg hno, List.dropWhile_cons_of_neg hno⟩
  unfold scanNumber
  rw [n.takeSign_mantissa]
  dsimp only
  rw [List.takeWhile_append_of_pos hmantissa, List.dropWhile_append_of_pos hmantissa, hstop.1,
    hstop.2, List.append_nil]
  rfl

theorem parseNumber_mantissa (n : Numeral) {rest : Bytes}
    (hrest : ∀ b ∈ rest.head?, isDecimal b = false ∧ b ≠ 46) :
    parseNumber (n.mantissa ++ rest) =
      (atof ((n.mantissa ++ (scanExponent rest).1).take 31), (scanExponent rest).2) := by
  rw [parseNumber, skipWs, n.dropWhile_mantissa, scanNumber_mantissa n hrest]

theorem parseNumber_text {n : Numeral} (hlen : n.text.length ≤ 31) {rest : Bytes}
    (hrest : ∀ b ∈ rest.head?, isDecimal b = false ∧ b ≠ 46 ∧
      (n.exponent = none → b ≠ 101 ∧ b ≠ 69)) :
    parseNumber (n.text ++ rest) = (n.value, rest) := by
  have hscan : scanExponent (n.exponent.elim [] NumeralExponent.text ++ rest) =
      (n.exponent.elim [] NumeralExponent.text, rest) := by
    cases hexponent : n.exponent with
    | none => exact scanExponent_none fun b hb => (hrest b hb).2.2 hexponent
    | some e => exact scanExponent_text e fun b hb => (hrest b hb).1
  have hstop : ∀ b ∈ (n.exponent.elim [] NumeralExponent.text ++ rest).head?,
      isDecimal b = false ∧ b ≠ 46 := by
    intro b hb
    cases hexponent : n.exponent.elim [] NumeralExponent.text with
    | nil =>
      rw [hexponent] at hb
      exact (hrest b hb).imp_right And.left
    | cons c e =>
      refine n.exponent_stops b ?_
      rw [hexponent] at hb ⊢
      exact hb
  rw [Numeral.text, List.append_assoc, parseNumber_mantissa n hstop, hscan]
  dsimp only
  rw [← Numeral.text, List.take_of_length_le hlen, n.atof_text]

theorem convUnit_text (ctx : MiniCssCtx) (v : ℚ) (unit : CalcUnit) {rest : Bytes}
    (hrest : Follows afterFactor rest) :
    convUnit ctx v (unit.text ++ rest) = (v * unit.size ctx, rest) := by
  cases unit with
  | number =>
    rw [CalcUnit.size, mul_one]
    show convUnit ctx v rest = (v, rest)
    unfold convUnit
    cases hskip : skipWs rest with
    | nil => rfl
    | cons c p =>
      have hc := hrest c (by rw [hskip]; rfl)
      simp only [afterFactor, List.mem_cons, List.not_mem_nil, or_false] at hc
      rcases hc with rfl | rfl | rfl | rfl | rfl | rfl <;> rfl
  | px => exact congrArg (·, rest) (mul_one v).symm
  | percent => exact congrArg (·, rest) (mul_div_assoc v _ _)
  | em => rfl
  | rem => rfl
  | vw => exact congrArg (·, rest) (mul_div_assoc v _ _)
  | vh => exact congrArg (·, rest) (mul_div_assoc v _ _)
  | vmin =>
    have hmin : (if ctx.vw < ctx.vh then ctx.vw else ctx.vh) = min ctx.vw ctx.vh := by
      rw [min_def_lt]
    rw [CalcUnit.size, ← mul_div_assoc, ← hmin]
    rfl
  | vmax =>
    have hmax : (if ctx.vw > ctx.vh then ctx.vw else ctx.vh) = max ctx.vw ctx.vh := by
      rw [max_comm, max_def_lt]
    rw [CalcUnit.size, ← mul_div_assoc, ← hmax]
    rfl

/-- What follows a factor does not go on with its number. -/
theorem Follows.head {rest : Bytes} (h : Follows afterFactor rest) :
    ∀ b ∈ rest.head?, isDecimal b = false ∧ b ≠ 46 ∧ b ≠ 101 ∧ b ≠ 69 := by
  cases rest with
  | nil => nofun
  | cons b rest =>
    rintro _ ⟨⟩
    by_cases hspace : isspace b = true
    · refine ⟨?_, ?_, ?_, ?_⟩
      · refine Bool.eq_false_of_not_eq_true fun hdecimal => ?_
        rw [(isDecimal_cases hdecimal).1] at hspace
        exact Bool.false_ne_true hspace
      all_goals
        rintro rfl
        exact absurd hspace (by decide)
    · have hb := h b (by rw [skipWs_cons (Bool.eq_false_of_not_eq_true hspace)]; rfl)
      simp only [afterFactor, List.mem_cons, List.not_mem_nil, or_false] at hb
      rcases hb with rfl | rfl | rfl | rfl | rfl | rfl <;> decide

theorem unit_head (n : Numeral) {unit : CalcUnit} (hem : unit = .em → n.exponent.isSome = true)
    {rest : Bytes} (hrest : Follows afterFactor rest) :
    ∀ b ∈ (unit.text ++ rest).head?, isDecimal b = false ∧ b ≠ 46 ∧
      (n.exponent = none → b ≠ 101 ∧ b ≠ 69) := by
  cases unit with
  | number => exact fun b hb => (hrest.head b hb).imp_right fun h => h.imp_right fun h _ => h
  | em =>
    rintro b ⟨⟩
    refine ⟨rfl, by decide, fun hnone => ?_⟩
    have hsome := hem rfl
    rw [hnone] at hsome
    cases hsome
  | _ =>
    rintro b ⟨⟩
    exact ⟨rfl, by decide, fun _ => by decide⟩

/-! ## Factors -/

variable {m : MathLib} {ctx : MiniCssCtx} {factor : Reader}

theorem skipsSpace_factorStep : SkipsSpace (factorStep m ctx bound factor) := fun b p => by
  unfold factorStep parseNumber
  simp only [skipWs_blanks]

theorem skipsSpace_evalFactor (depth : Nat) : SkipsSpace (evalFactor m ctx bound depth) := by
  cases depth with
  | zero => exact fun _ _ => rfl
  | succ depth => exact skipsSpace_factorStep

/-- Without functions. -/
def noMath : MathLib where
  sinf _ := 0
  cosf _ := 0
  tanf _ := 0
  asinf _ := 0
  acosf _ := 0
  atanf _ := 0
  atan2f _ _ := 0
  sqrtf _ := 0
  powf _ _ := 0

/-- A call begins with a letter. -/
theorem cssFunctions_none {c : UInt8} (hc : tolower c < 97) (p : Bytes) :
    (cssFunctions m).find? (fun fn => cssStartsWith (c :: p) fn.1) = none := by
  have hletter : ∀ name ∈ (cssFunctions m).map Prod.fst,
      (name.map tolower).head?.any (97 ≤ ·) = true := by
    rw [show (cssFunctions m).map Prod.fst = (cssFunctions noMath).map Prod.fst from rfl]
    decide
  rw [List.find?_eq_none]
  intro fn hfn hstarts
  have hname := hletter fn.1 (List.mem_map_of_mem hfn)
  rw [cssStartsWith, decide_eq_true_iff, List.map_cons] at hstarts
  cases hlower : fn.1.map tolower with
  | nil =>
    rw [hlower] at hname
    exact absurd hname Bool.false_ne_true
  | cons d ds =>
    rw [hlower, List.cons_prefix_cons] at hstarts
    rw [hlower, List.head?_cons, Option.any_some, decide_eq_true_iff, hstarts.1] at hname
    exact absurd hc (UInt8.not_lt.2 hname)

theorem isspace_of_letter {c : UInt8} (hc : 97 ≤ tolower c) : isspace c = false := by
  have hlower : tolower c = c ∨ 65 ≤ c := by
    unfold tolower
    split_ifs with h
    · exact .inr h.1
    · exact .inl rfl
  have hge : 65 ≤ c := by
    rcases hlower with h | h
    · rw [h] at hc
      exact UInt8.le_trans (by decide) hc
    · exact h
  refine Bool.eq_false_of_not_eq_true fun hspace => ?_
  rw [isspace, Bool.or_eq_true, beq_iff_eq, Bool.and_eq_true, decide_eq_true_iff,
    decide_eq_true_iff] at hspace
  rcases hspace with rfl | ⟨-, hle⟩
  · exact absurd hge (by decide)
  · exact absurd (UInt8.le_trans hge hle) (by decide)

/-- A function is found by its name in any case. -/
theorem factorStep_call {key : Bytes} (fn : CssFunction) (name : Spelling key)
    (hletter : key.head?.any (97 ≤ ·) = true)
    (hfind : ∀ p s, p.map tolower = key ++ 40 :: s →
      (cssFunctions m).find? (fun fn => cssStartsWith p fn.1) = some (key ++ [40], fn))
    (q : Bytes) :
    factorStep m ctx bound factor (name.letters ++ 40 :: q) =
      evalCall m bound (evalExpr bound factor) (name.letters ++ 40 :: q) fn q := by
  have hspace : skipWs (name.letters ++ 40 :: q) = name.letters ++ 40 :: q := by
    have hspells := name.spells
    cases hletters : name.letters with
    | nil =>
      rw [← hspells, hletters] at hletter
      exact absurd hletter Bool.false_ne_true
    | cons c letters =>
      rw [← hspells, hletters, List.map_cons, List.head?_cons, Option.any_some,
        decide_eq_true_iff] at hletter
      exact skipWs_cons (isspace_of_letter hletter) _
  have hlength : name.letters.length = key.length := by
    have hspells := congrArg List.length name.spells
    rwa [List.length_map] at hspells
  have hdrop : (name.letters ++ 40 :: q).drop (key ++ [40]).length = q := by
    rw [List.append_cons name.letters]
    exact List.drop_left' (by rw [List.length_append, List.length_append, hlength])
  unfold factorStep
  rw [hspace]
  dsimp only
  rw [hfind _ (q.map tolower) (by rw [List.map_append, name.spells]; rfl)]
  dsimp only
  rw [hdrop]

/-! ## What is read -/

/-- What begins with no letter is no call. -/
theorem factorStep_other {c : UInt8} {p : Bytes} (hc : tolower c < 97)
    (hspace : skipWs (c :: p) = c :: p) :
    factorStep m ctx bound factor (c :: p) =
      match c :: p with
      | 40 :: q => argument (evalExpr bound factor) 41 q
      | 45 :: q => (factor q).map fun (v, r) => (-v, r)
      | 43 :: q => factor q
      | _ => some (convUnit ctx (parseNumber (c :: p)).1 (parseNumber (c :: p)).2) := by
  unfold factorStep
  rw [hspace]
  dsimp only
  rw [cssFunctions_none hc]
  rfl

/-- What begins with a digit or a point is a number with a unit. -/
theorem factorStep_mantissa (n : Numeral) (rest : Bytes) :
    factorStep m ctx bound factor (n.mantissa ++ rest) =
      some (convUnit ctx (parseNumber (n.mantissa ++ rest)).1
        (parseNumber (n.mantissa ++ rest)).2) := by
  have hspace := n.dropWhile_mantissa rest
  have hhead := n.mantissa_head rest
  cases htext : n.mantissa ++ rest with
  | nil => exact absurd (List.append_eq_nil_iff.1 htext).1 n.mantissa_ne_nil
  | cons c p =>
    have hc : 46 ≤ c ∧ c ≤ 57 := by
      rcases hhead c (by rw [htext]; rfl) with hc | rfl
      · rw [isDecimal, Bool.and_eq_true, decide_eq_true_iff, decide_eq_true_iff] at hc
        exact ⟨UInt8.le_trans (by decide) hc.1, hc.2⟩
      · decide
    have hlower : tolower c = c :=
      if_neg fun h => absurd (UInt8.le_trans h.1 hc.2) (by decide)
    have hletter : tolower c < 97 := by
      rw [hlower]
      exact UInt8.lt_of_le_of_lt hc.2 (by decide)
    rw [htext] at hspace
    rw [factorStep_other hletter hspace]
    have hne : ∀ d : UInt8, ¬ 46 ≤ d → ∀ q, c :: p ≠ d :: q := fun d hd q heq =>
      hd ((List.cons.inj heq).1 ▸ hc.1)
    split
    · rename_i heq
      exact absurd heq (hne 40 (by decide) _)
    · rename_i heq
      exact absurd heq (hne 45 (by decide) _)
    · rename_i heq
      exact absurd heq (hne 43 (by decide) _)
    · rfl

/-- A number that is not signed. -/
theorem factorStep_number {n : Numeral} {unit : CalcUnit} (hlen : n.text.length ≤ 31)
    (hem : unit = .em → n.exponent.isSome = true) :
    ReadsTo (factorStep m ctx bound factor) afterFactor (n.text ++ unit.text)
      (n.value * unit.size ctx) := by
  intro rest hrest
  have hparse := parseNumber_text hlen (unit_head n hem hrest)
  rw [Numeral.text, List.append_assoc] at hparse
  rw [Numeral.text, List.append_assoc, List.append_assoc, factorStep_mantissa, hparse]
  dsimp only
  rw [convUnit_text ctx _ _ hrest]

theorem ReadsTo.argument {expr : Reader} (h : ReadsTo expr afterExpr t v) (gap : CalcSpace)
    (stop : UInt8) (hstop : stop ∈ afterExpr) (hspace : isspace stop = false) (rest : Bytes) :
    argument expr stop (t ++ (gap.bytes ++ stop :: rest)) = some (v, rest) := by
  rw [Css.argument, h _ (follows_blanks gap hspace hstop rest), Option.map_some]
  dsimp only
  rw [passOver_blanks gap hspace]

theorem ReadsTo.parens (h : ReadsTo (evalExpr bound factor) afterExpr t v) (gap : CalcSpace) :
    ReadsTo (factorStep m ctx bound factor) afterFactor (40 :: (t ++ (gap.bytes ++ [41]))) v := by
  intro rest _
  rw [List.cons_append, factorStep_other (by decide) rfl]
  have harg := h.argument gap 41 (by decide) (by decide) rest
  simpa using harg

theorem ReadsTo.calc (h : ReadsTo (evalExpr bound factor) afterExpr t v)
    (name : Spelling (ascii "calc")) (gap : CalcSpace) :
    ReadsTo (factorStep m ctx bound factor) afterFactor
      (name.letters ++ 40 :: (t ++ (gap.bytes ++ [41]))) v := by
  intro rest _
  have harg := h.argument gap 41 (by decide) (by decide) rest
  rw [List.append_assoc, List.cons_append, factorStep_call (.unary fun v => v) name (by decide)
    (fun p s hp => by unfold cssStartsWith; simp only [hp]; rfl)]
  simpa [evalCall] using harg

theorem clampf_eq_iff (x y z : ℚ) : clampf x y z = max x (min y z) ↔ x ≤ z ∨ y < x := by
  unfold clampf
  split_ifs with hlow hhigh
  · exact iff_of_true (max_eq_left ((min_le_left y z).trans hlow.le)).symm (.inr hlow)
  · rw [min_eq_right hhigh.le, right_eq_sup, or_iff_left hlow]
  · rw [min_eq_left (not_lt.1 hhigh), max_eq_right (not_lt.1 hlow)]
    exact iff_of_true rfl (.inl ((not_lt.1 hlow).trans (not_lt.1 hhigh)))

theorem ReadsTo.clamp {a b c : Bytes} {x y z : ℚ}
    (ha : ReadsTo (evalExpr bound factor) afterExpr a x)
    (hb : ReadsTo (evalExpr bound factor) afterExpr b y)
    (hc : ReadsTo (evalExpr bound factor) afterExpr c z)
    (name : Spelling (ascii "clamp")) (gapA gapB gapC : CalcSpace) :
    ReadsTo (factorStep m ctx bound factor) afterFactor
      (name.letters ++ 40 :: (a ++ (gapA.bytes ++ 44 :: (b ++ (gapB.bytes ++
        44 :: (c ++ (gapC.bytes ++ [41]))))))) (clampf x y z) := by
  intro rest _
  have hfirst := ha.argument gapA 44 (by decide) (by decide)
  have hsecond := hb.argument gapB 44 (by decide) (by decide)
  have hthird := hc.argument gapC 41 (by decide) (by decide) rest
  rw [List.append_assoc, List.cons_append, factorStep_call (.ternary clampf) name (by decide)
    (fun p s hp => by unfold cssStartsWith; simp only [hp]; rfl)]
  simp [evalCall, hfirst, hsecond, hthird]

/-- The best one of what came before and a value. -/
def Extremum.with (kind : Extremum) (best : Option ℚ) (v : ℚ) : ℚ := best.elim v (kind.pick · v)

theorem better_eq (kind : Extremum) (best : Option ℚ) (v : ℚ) :
    better (kind == .min) best v = kind.with best v := by
  cases best with
  | none => rfl
  | some best =>
    cases kind with
    | min =>
      show (if v < best then v else best) = min best v
      rw [min_comm, min_def_lt]
    | max =>
      show (if v > best then v else best) = max best v
      rw [max_def_lt]

theorem Extremum.with_pick (kind : Extremum) (best : Option ℚ) (v w : ℚ) :
    kind.with (some (kind.with best v)) w = kind.with best (kind.pick v w) := by
  cases best with
  | none => rfl
  | some best =>
    cases kind with
    | min => exact min_assoc best v w
    | max => exact max_assoc best v w

/-- What the second letter makes of the name. -/
def Extremum.read (letters : Bytes) : Extremum := if letters[1]? = some 105 then .min else .max

theorem Extremum.read_eq {kind : Extremum} (name : Spelling kind.name)
    (hsafe : kind = .min → name.letters[1]? = some 105) : Extremum.read name.letters = kind := by
  cases kind with
  | min => exact if_pos (hsafe rfl)
  | max =>
    refine if_neg fun hletter => ?_
    have hsecond := congrArg (·[1]?) name.spells
    rw [List.getElem?_map, hletter] at hsecond
    exact absurd hsecond (by decide)

theorem second_letter {kind : Extremum} (name : Spelling kind.name) (q : Bytes) :
    ((name.letters ++ 40 :: q)[1]? == some 105) = (Extremum.read name.letters == .min) := by
  have hlength := congrArg List.length name.spells
  rw [List.length_map] at hlength
  have hlong : 1 < name.letters.length := by
    rw [hlength]
    cases kind <;> decide
  rw [List.getElem?_append_left hlong, Extremum.read]
  by_cases hletter : name.letters[1]? = some 105
  · rw [if_pos hletter, hletter]
    rfl
  · rw [if_neg hletter]
    exact beq_eq_false_iff_ne.2 hletter

/-- The arguments are read, and the best one is kept. -/
def ArgumentsRead (expr : Reader) (kind : Extremum) (t : Bytes) (v : ℚ) : Prop :=
  ∀ n, t.length ≤ n → ∀ best rest,
    arguments expr (better (kind == .min)) n best (t ++ rest) = some (kind.with best v, rest)

theorem ReadsTo.last {expr : Reader} (h : ReadsTo expr afterExpr t v) (kind : Extremum)
    (gap : CalcSpace) : ArgumentsRead expr kind (t ++ (gap.bytes ++ [41])) v := by
  intro n hn best rest
  obtain ⟨n, rfl⟩ : ∃ n', n = n' + 1 := ⟨n - 1, by simp at hn; omega⟩
  rw [List.append_assoc, List.append_assoc, List.singleton_append, arguments,
    h _ (follows_blanks gap (by decide) (by decide) rest), Option.bind_some]
  simp [better_eq, isspace]

theorem ReadsTo.more {expr : Reader} {kind : Extremum} (h : ReadsTo expr afterExpr t v)
    (hrest : ArgumentsRead expr kind r w) (gap : CalcSpace) :
    ArgumentsRead expr kind (t ++ (gap.bytes ++ 44 :: r)) (kind.pick v w) := by
  intro n hn best rest
  obtain ⟨n, rfl⟩ : ∃ n', n = n' + 1 := ⟨n - 1, by simp at hn; omega⟩
  have hr := hrest n (by simp at hn; omega) (some (kind.with best v)) rest
  rw [List.append_assoc, List.append_assoc, List.cons_append, arguments,
    h _ (follows_blanks gap (by decide) (by decide) _), Option.bind_some]
  rw [Extremum.with_pick] at hr
  simp [better_eq, isspace, hr]

theorem ArgumentsRead.call {kind : Extremum} {args : Bytes} (name : Spelling kind.name)
    (h : ArgumentsRead (evalExpr bound factor) (.read name.letters) args v)
    (hbound : args.length ≤ bound) :
    ReadsTo (factorStep m ctx bound factor) afterFactor (name.letters ++ 40 :: args) v := by
  intro rest _
  have hcall : factorStep m ctx bound factor (name.letters ++ 40 :: (args ++ rest)) =
      evalCall m bound (evalExpr bound factor) (name.letters ++ 40 :: (args ++ rest)) .extremum
        (args ++ rest) := by
    refine factorStep_call .extremum name ?_ (fun p s hp => ?_) _
    · cases kind <;> decide
    · unfold cssStartsWith
      simp only [hp]
      cases kind <;> rfl
  rw [List.append_assoc, List.cons_append, hcall, evalCall, second_letter name,
    h bound hbound none rest]
  rfl

/-! ## Trees -/

/-- What is known of a text of each level: a factor, a chain of factors, a chain of terms. -/
def ReadsAt (bound : Nat) (factor : Reader) : Nat → Bytes → ℚ → Prop
  | 0 => BeginsChain (evalTerm bound factor) addOp afterTerm
  | 1 => BeginsChain factor mulOp afterFactor
  | _ + 2 => ReadsTo factor afterFactor

theorem BeginsChain.term (h : BeginsChain factor mulOp afterFactor t v) (hlen : t.length ≤ bound) :
    ReadsTo (evalTerm bound factor) afterTerm t v :=
  h.readsTo hlen (by simp [afterTerm, afterFactor]) (by simp [afterTerm, mulOp])

theorem BeginsChain.expr (h : BeginsChain (evalTerm bound factor) addOp afterTerm t v)
    (hlen : t.length ≤ bound) : ReadsTo (evalExpr bound factor) afterExpr t v :=
  h.readsTo hlen (by simp [afterExpr, afterTerm]) (by simp [afterExpr, addOp])

/-- A factor is a term, and a term is an expression. -/
theorem ReadsAt.down {j k : Nat} (h : ReadsAt bound factor k t v) (hjk : j ≤ k) (hne : t ≠ [])
    (hlen : t.length ≤ bound) : ReadsAt bound factor j t v := by
  have hterm : ∀ {i}, 1 ≤ i → ReadsAt bound factor i t v → ReadsAt bound factor 1 t v := by
    intro i hi h
    match i, hi, h with
    | 1, _, h => exact h
    | i + 2, _, h => exact ReadsTo.begins h hne
  match j, k, hjk, h with
  | 0, 0, _, h => exact h
  | 0, k + 1, _, h => exact ((hterm (Nat.succ_pos k) h).term hlen).begins hne
  | 1, k, hjk, h => exact hterm hjk h
  | j + 2, k + 2, _, h => exact h

theorem ReadsAt.spaced {k : Nat} (h : ReadsAt bound factor k t v) (hskip : SkipsSpace factor)
    (b : CalcSpace) : ReadsAt bound factor k (b.bytes ++ t) v := by
  match k, h with
  | 0, h => exact BeginsChain.spaced h (hskip.chained bound) b
  | 1, h => exact BeginsChain.spaced h hskip b
  | k + 2, h => exact ReadsTo.spaced h hskip b

/-- An operand that binds too loosely is read in its parentheses. -/
theorem readsAt_enclosed {level k depth : Nat} (hk : k ≤ 2) (hne : t ≠ [])
    (hdepth : (enclosed (level < k) t).length ≤ depth)
    (hbound : (enclosed (level < k) t).length ≤ bound)
    (h : ∀ d, t.length ≤ d → t.length ≤ bound →
      ReadsAt bound (evalFactor m ctx bound d) level t v) :
    ReadsAt bound (evalFactor m ctx bound depth) k (enclosed (level < k) t) v := by
  by_cases hloose : level < k
  · rw [enclosed, if_pos hloose] at hdepth hbound ⊢
    simp only [List.length_cons, List.length_append, List.length_nil] at hdepth hbound
    obtain ⟨d, rfl⟩ : ∃ d, depth = d + 1 := ⟨depth - 1, by omega⟩
    have hread := (h d (by omega) (by omega)).down (Nat.zero_le _) hne (by omega)
    have hexpr := BeginsChain.expr hread (by omega)
    have hparens : ReadsAt bound (evalFactor m ctx bound (d + 1)) 2 (40 :: (t ++ [41])) v :=
      hexpr.parens {}
    exact hparens.down hk (List.cons_ne_nil _ _) (by simp; omega)
  · rw [enclosed, if_neg hloose] at hdepth hbound ⊢
    exact (h depth hdepth hbound).down (Nat.not_lt.1 hloose) hne hbound

theorem CalcTree.text_ne_nil (t : CalcTree) : t.text ≠ [] := by
  match t with
  | .number sign n unit =>
    rw [CalcTree.text]
    exact fun h => n.text_ne_nil (List.append_eq_nil_iff.1 (List.append_eq_nil_iff.1 h).2).1
  | .op _ _ _ _ _ => simp [CalcTree.text]
  | .spaced _ t =>
    rw [CalcTree.text]
    exact fun h => t.text_ne_nil (List.append_eq_nil_iff.1 h).2
  | .parens _ _ => simp [CalcTree.text]
  | .calc _ _ _ => simp [CalcTree.text]
  | .extremum _ _ _ => simp [CalcTree.text]
  | .clamp _ _ _ _ _ _ _ => simp [CalcTree.text]

theorem evalFactor_sign (sign : NumeralSign) {p : Bytes}
    (h : ∀ d, evalFactor m ctx bound (d + 1) p = some (v, r)) {depth : Nat}
    (hdepth : sign.text.length < depth) :
    evalFactor m ctx bound depth (sign.text ++ p) = some (sign.factor * v, r) := by
  cases sign with
  | bare =>
    obtain ⟨d, rfl⟩ : ∃ d, depth = d + 1 := ⟨depth - 1, by omega⟩
    rw [show NumeralSign.bare.factor = 1 from rfl, one_mul]
    exact h d
  | plus =>
    simp only [NumeralSign.text, List.length_singleton] at hdepth
    obtain ⟨d, rfl⟩ : ∃ d, depth = d + 2 := ⟨depth - 2, by omega⟩
    rw [show NumeralSign.plus.factor = 1 from rfl, one_mul]
    show factorStep m ctx bound _ (43 :: p) = _
    rw [factorStep_other (by decide) rfl]
    exact h d
  | minus =>
    simp only [NumeralSign.text, List.length_singleton] at hdepth
    obtain ⟨d, rfl⟩ : ∃ d, depth = d + 2 := ⟨depth - 2, by omega⟩
    show factorStep m ctx bound _ (45 :: p) = _
    rw [factorStep_other (by decide) rfl, NumeralSign.factor, neg_one_mul]
    show (evalFactor m ctx bound (d + 1) p).map _ = _
    rw [h d]
    rfl

theorem readsAt_number (sign : NumeralSign) {n : Numeral} {unit : CalcUnit}
    (hlen : n.text.length ≤ 31) (hem : unit = .em → n.exponent.isSome = true) {depth : Nat}
    (hdepth : (sign.text ++ (n.text ++ unit.text)).length ≤ depth) :
    ReadsTo (evalFactor m ctx bound depth) afterFactor (sign.text ++ (n.text ++ unit.text))
      (sign.factor * (n.value * unit.size ctx)) := by
  intro rest hrest
  have hpos := List.length_pos_of_ne_nil n.text_ne_nil
  simp only [List.length_append] at hdepth
  rw [List.append_assoc]
  exact evalFactor_sign sign (fun d => factorStep_number hlen hem rest hrest) (by omega)

theorem addOp_byte {o : CalcOp} (h : o.level = 0) : addOp o.byte = some o.apply := by
  cases o with
  | add => rfl
  | sub => rfl
  | mul => cases h
  | div => cases h

theorem mulOp_byte {o : CalcOp} (h : o.level = 1) : mulOp o.byte = some o.apply := by
  cases o with
  | add => cases h
  | sub => cases h
  | mul => rfl
  | div =>
    refine congrArg some (funext fun v => funext fun w => ?_)
    by_cases hw : w = 0 <;> simp [CalcOp.apply, hw]

/-- An operator between two operands that are as closely bound as it asks for. -/
theorem readsAt_op {o : CalcOp} (hskip : SkipsSpace factor)
    (hl : ReadsAt bound factor o.level l v) (hr : ReadsAt bound factor (o.level + 1) r w)
    (hlen : r.length ≤ bound) (before after : CalcSpace) :
    ReadsAt bound factor o.level (l ++ (before.bytes ++ o.byte :: (after.bytes ++ r)))
      (o.apply v w) := by
  cases hlevel : o.level with
  | zero =>
    rw [hlevel] at hl hr
    have hterm : ReadsTo (evalTerm bound factor) afterTerm r w := BeginsChain.term hr hlen
    refine BeginsChain.more hl (hterm.spaced (hskip.chained bound) after) before ?_ ?_
      (addOp_byte hlevel)
    · cases o <;> rfl
    · cases o with
      | add => decide
      | sub => decide
      | mul => cases hlevel
      | div => cases hlevel
  | succ k =>
    have hone : o.level = 1 := by
      cases o with
      | add => cases hlevel
      | sub => cases hlevel
      | mul => rfl
      | div => rfl
    rw [← hlevel, hone]
    rw [hone] at hl hr
    refine BeginsChain.more hl (ReadsTo.spaced hr hskip after) before ?_ ?_ (mulOp_byte hone)
    · cases o <;> rfl
    · cases o <;> decide

theorem ReadsAt.expr {k : Nat} (h : ReadsAt bound factor k t v) (hne : t ≠ [])
    (hlen : t.length ≤ bound) : ReadsTo (evalExpr bound factor) afterExpr t v :=
  BeginsChain.expr (h.down (Nat.zero_le k) hne hlen) hlen

mutual

/-- Every numeral is taken for what it is. -/
def CalcTree.Legible : CalcTree → Prop
  | .number _ n unit => n.text.length ≤ 31 ∧ (unit = .em → n.exponent.isSome = true)
  | .op _ _ _ l r => l.Legible ∧ r.Legible
  | .spaced _ t => t.Legible
  | .parens t _ => t.Legible
  | .calc _ t _ => t.Legible
  | .extremum _ _ args => args.Legible
  | .clamp _ a _ b _ c _ => a.Legible ∧ b.Legible ∧ c.Legible

def CalcArgs.Legible : CalcArgs → Prop
  | .last t _ => t.Legible
  | .more t _ args => t.Legible ∧ args.Legible

end

mutual

/-- What the evaluator makes of an expression. -/
def CalcTree.asRead (ctx : MiniCssCtx) : CalcTree → ℚ
  | .number sign n unit => sign.factor * (n.value * unit.size ctx)
  | .op o _ _ l r => o.apply (l.asRead ctx) (r.asRead ctx)
  | .spaced _ t => t.asRead ctx
  | .parens t _ => t.asRead ctx
  | .calc _ t _ => t.asRead ctx
  | .extremum _ name args => args.asRead ctx (.read name.letters)
  | .clamp _ a _ b _ c _ => clampf (a.asRead ctx) (b.asRead ctx) (c.asRead ctx)

def CalcArgs.asRead (ctx : MiniCssCtx) (kind : Extremum) : CalcArgs → ℚ
  | .last t _ => t.asRead ctx
  | .more t _ args => kind.pick (t.asRead ctx) (args.asRead ctx kind)

end

variable (m ctx bound)

mutual

theorem CalcTree.reads (t : CalcTree) (ht : t.Legible) {depth : Nat}
    (hdepth : t.text.length ≤ depth) (hbound : t.text.length ≤ bound) :
    ReadsAt bound (evalFactor m ctx bound depth) t.level t.text (t.asRead ctx) := by
  match t with
  | .number sign n unit =>
    rw [CalcTree.text] at hdepth
    exact readsAt_number sign ht.1 ht.2 hdepth
  | .op o before after l r =>
    simp only [CalcTree.text, List.length_append, List.length_cons] at hdepth hbound
    have hlevel : o.level + 1 ≤ 2 := by cases o <;> decide
    have hl : ReadsAt bound (evalFactor m ctx bound depth) o.level
        (enclosed (l.level < o.level) l.text) (l.asRead ctx) :=
      readsAt_enclosed (by omega) l.text_ne_nil (by omega) (by omega) fun _ hd hb =>
        CalcTree.reads l ht.1 hd hb
    have hr : ReadsAt bound (evalFactor m ctx bound depth) (o.level + 1)
        (enclosed (r.level < o.level + 1) r.text) (r.asRead ctx) :=
      readsAt_enclosed hlevel r.text_ne_nil (by omega) (by omega) fun _ hd hb =>
        CalcTree.reads r ht.2 hd hb
    exact readsAt_op (skipsSpace_evalFactor depth) hl hr (by omega) before after
  | .spaced before t =>
    simp only [CalcTree.text, List.length_append] at hdepth hbound
    exact (CalcTree.reads t ht (by omega) (by omega)).spaced (skipsSpace_evalFactor depth) before
  | .parens t gap =>
    simp only [CalcTree.text, List.length_append, List.length_cons, List.length_nil]
      at hdepth hbound
    obtain ⟨d, rfl⟩ : ∃ d, depth = d + 1 := ⟨depth - 1, by omega⟩
    have hread : ReadsAt bound (evalFactor m ctx bound d) t.level t.text (t.asRead ctx) :=
      CalcTree.reads t ht (by omega) (by omega)
    exact (hread.expr t.text_ne_nil (by omega)).parens gap
  | .calc name t gap =>
    simp only [CalcTree.text, List.length_append, List.length_cons, List.length_nil]
      at hdepth hbound
    obtain ⟨d, rfl⟩ : ∃ d, depth = d + 1 := ⟨depth - 1, by omega⟩
    have hread : ReadsAt bound (evalFactor m ctx bound d) t.level t.text (t.asRead ctx) :=
      CalcTree.reads t ht (by omega) (by omega)
    exact (hread.expr t.text_ne_nil (by omega)).calc name gap
  | .extremum kind name args =>
    simp only [CalcTree.text, List.length_append, List.length_cons] at hdepth hbound
    obtain ⟨d, rfl⟩ : ∃ d, depth = d + 1 := ⟨depth - 1, by omega⟩
    have hargs : ArgumentsRead (evalExpr bound (evalFactor m ctx bound d)) (.read name.letters)
        args.text (args.asRead ctx (.read name.letters)) :=
      CalcArgs.reads args _ ht (by omega) (by omega)
    exact hargs.call name (by omega)
  | .clamp name a gapA b gapB c gapC =>
    simp only [CalcTree.text, List.length_append, List.length_cons, List.length_nil]
      at hdepth hbound
    obtain ⟨d, rfl⟩ : ∃ d, depth = d + 1 := ⟨depth - 1, by omega⟩
    have ha : ReadsAt bound (evalFactor m ctx bound d) a.level a.text (a.asRead ctx) :=
      CalcTree.reads a ht.1 (by omega) (by omega)
    have hb : ReadsAt bound (evalFactor m ctx bound d) b.level b.text (b.asRead ctx) :=
      CalcTree.reads b ht.2.1 (by omega) (by omega)
    have hc : ReadsAt bound (evalFactor m ctx bound d) c.level c.text (c.asRead ctx) :=
      CalcTree.reads c ht.2.2 (by omega) (by omega)
    exact (ha.expr a.text_ne_nil (by omega)).clamp (hb.expr b.text_ne_nil (by omega))
      (hc.expr c.text_ne_nil (by omega)) name gapA gapB gapC

theorem CalcArgs.reads (args : CalcArgs) (kind : Extremum) (hargs : args.Legible) {depth : Nat}
    (hdepth : args.text.length ≤ depth) (hbound : args.text.length ≤ bound) :
    ArgumentsRead (evalExpr bound (evalFactor m ctx bound depth)) kind args.text
      (args.asRead ctx kind) := by
  match args with
  | .last t gap =>
    simp only [CalcArgs.text, List.length_append] at hdepth hbound
    have hread : ReadsAt bound (evalFactor m ctx bound depth) t.level t.text (t.asRead ctx) :=
      CalcTree.reads t hargs (by omega) (by omega)
    exact (hread.expr t.text_ne_nil (by omega)).last kind gap
  | .more t gap args =>
    simp only [CalcArgs.text, List.length_append, List.length_cons] at hdepth hbound
    have hread : ReadsAt bound (evalFactor m ctx bound depth) t.level t.text (t.asRead ctx) :=
      CalcTree.reads t hargs.1 (by omega) (by omega)
    exact (hread.expr t.text_ne_nil (by omega)).more
      (CalcArgs.reads args kind hargs.2 (by omega) (by omega)) gap

end

mutual

/-- A safe expression is read as it is meant. -/
theorem CalcTree.Safe.reads {ctx : MiniCssCtx} {t : CalcTree} (h : t.Safe ctx) :
    t.Legible ∧ t.asRead ctx = t.value ctx := by
  match t with
  | .number sign n unit => exact ⟨h, rfl⟩
  | .op o before after l r =>
    obtain ⟨hl, hleft⟩ := CalcTree.Safe.reads h.1
    obtain ⟨hr, hright⟩ := CalcTree.Safe.reads h.2
    exact ⟨⟨hl, hr⟩, by rw [CalcTree.asRead, CalcTree.value, hleft, hright]⟩
  | .spaced before t => exact CalcTree.Safe.reads (t := t) h
  | .parens t gap => exact CalcTree.Safe.reads (t := t) h
  | .calc name t gap => exact CalcTree.Safe.reads (t := t) h
  | .extremum kind name args =>
    obtain ⟨hargs, hread⟩ := CalcArgs.Safe.reads h.2
    refine ⟨hargs, ?_⟩
    rw [CalcTree.asRead, CalcTree.value, Extremum.read_eq name h.1, hread]
  | .clamp name a gapA b gapB c gapC =>
    obtain ⟨ha, hb, hc, hclamp⟩ := h
    obtain ⟨hlegA, hreadA⟩ := CalcTree.Safe.reads ha
    obtain ⟨hlegB, hreadB⟩ := CalcTree.Safe.reads hb
    obtain ⟨hlegC, hreadC⟩ := CalcTree.Safe.reads hc
    refine ⟨⟨hlegA, hlegB, hlegC⟩, ?_⟩
    rw [CalcTree.asRead, CalcTree.value, hreadA, hreadB, hreadC]
    exact (clampf_eq_iff _ _ _).2 hclamp

theorem CalcArgs.Safe.reads {ctx : MiniCssCtx} {args : CalcArgs} (h : args.Safe ctx) :
    args.Legible ∧ ∀ kind, args.asRead ctx kind = args.value ctx kind := by
  match args with
  | .last t gap =>
    obtain ⟨hlegible, hread⟩ := CalcTree.Safe.reads (t := t) h
    exact ⟨hlegible, fun _ => hread⟩
  | .more t gap args =>
    obtain ⟨hlegible, hread⟩ := CalcTree.Safe.reads h.1
    obtain ⟨hargs, hrest⟩ := CalcArgs.Safe.reads h.2
    refine ⟨⟨hlegible, hargs⟩, fun kind => ?_⟩
    rw [CalcArgs.asRead, CalcArgs.value, hread, hrest]

end

variable {m ctx}

/-! ## Whole texts -/

theorem miniCssEval_of_reads {ctx : Option MiniCssCtx} (after : CalcSpace)
    (h : ∀ bound, t.length < bound →
      ReadsTo (evalExpr bound (evalFactor m (ctx.getD {}) bound bound)) afterExpr t v) :
    miniCssEval m (some (t ++ after.bytes)) ctx = some (v, true) := by
  have hafter : Follows afterExpr after.bytes := by
    have hblank := skipWs_blanks after []
    rw [List.append_nil] at hblank
    rw [Follows, hblank]
    exact follows_nil
  have hread := h ((t ++ after.bytes).length + 1) (by rw [List.length_append]; omega)
  rw [miniCssEval]
  dsimp only
  rw [hread after.bytes hafter]
  rfl

/-- The letter of `em` is read as that of an exponent, and nothing is read behind it. -/
theorem parseNumber_em {n : Numeral} (hlen : n.text.length ≤ 31) (hnone : n.exponent = none)
    (rest : Bytes) : parseNumber (n.mantissa ++ 101 :: 109 :: rest) = (n.value, 109 :: rest) := by
  have htext : n.text = n.mantissa := by rw [Numeral.text, hnone, Option.elim_none, List.append_nil]
  have hvalue : n.value = n.significand * exponentFactor [] := by rw [Numeral.value, hnone]; rfl
  have hletter : exponentFactor [101] = exponentFactor [] := by
    show (10 : ℚ) ^ 0 = 1
    exact pow_zero _
  rw [parseNumber_mantissa n (by rintro b ⟨⟩; decide)]
  have hscan : scanExponent (101 :: 109 :: rest) = ([101], 109 :: rest) := rfl
  rw [hscan]
  dsimp only
  rw [htext] at hlen
  rw [List.take_append, List.take_of_length_le hlen, hvalue]
  cases 31 - n.mantissa.length with
  | zero => rw [List.take_zero, n.atof_mantissa fun _ h => by cases h]
  | succ k =>
    rw [List.take_succ_cons, List.take_nil, n.atof_mantissa (by rintro b ⟨⟩; decide), hletter]

theorem miniCssEval_em (m : MathLib) (ctx : Option MiniCssCtx) (sign : NumeralSign) {n : Numeral}
    (hlen : n.text.length ≤ 31) (hnone : n.exponent = none) (after : CalcSpace) :
    miniCssEval m (some ((CalcTree.number sign n .em).text ++ after.bytes)) ctx =
      some (sign.factor * n.value, true) := by
  have htext : (CalcTree.number sign n .em).text ++ after.bytes =
      sign.text ++ (n.mantissa ++ 101 :: 109 :: after.bytes) := by
    rw [CalcTree.text, Numeral.text, hnone, Option.elim_none, List.append_nil, List.append_assoc,
      List.append_assoc]
    rfl
  rw [htext, miniCssEval]
  dsimp only
  generalize hbound : (sign.text ++ (n.mantissa ++ 101 :: 109 :: after.bytes)).length + 1 = bound
  have hfactor : evalFactor m (ctx.getD {}) bound bound
      (sign.text ++ (n.mantissa ++ 101 :: 109 :: after.bytes)) =
        some (sign.factor * n.value, 109 :: after.bytes) := by
    refine evalFactor_sign sign (fun d => ?_) (by rw [← hbound, List.length_append]; omega)
    show factorStep m (ctx.getD {}) bound _ _ = _
    rw [factorStep_mantissa, parseNumber_em hlen hnone]
    rfl
  rw [evalExpr, chained, evalTerm, chained, hfactor, ← hbound]
  rfl

/-- What is legible is evaluated as it is read. -/
theorem miniCssEval_asRead (m : MathLib) (ctx : Option MiniCssCtx) {t : CalcTree} (ht : t.Legible)
    (after : CalcSpace) :
    miniCssEval m (some (t.text ++ after.bytes)) ctx = some (t.asRead (ctx.getD {}), true) :=
  miniCssEval_of_reads after fun bound hbound =>
    (CalcTree.reads bound m (ctx.getD {}) t ht hbound.le hbound.le).expr t.text_ne_nil hbound.le

/-- An expression is evaluated to its value if it is safe; and where what stands under its root is
safe, exactly if its root is, with white space behind it or not. -/
theorem miniCssEval_value (m : MathLib) (ctx : Option MiniCssCtx) (t : CalcTree)
    (after : CalcSpace) :
    (t.Safe (ctx.getD {}) →
        miniCssEval m (some (t.text ++ after.bytes)) ctx = some (t.value (ctx.getD {}), true)) ∧
      (t.PartsSafe (ctx.getD {}) →
        (miniCssEval m (some (t.text ++ after.bytes)) ctx = some (t.value (ctx.getD {}), true) ↔
          t.RootSafe (ctx.getD {}))) := by
  have hsafe : ∀ t : CalcTree, t.Safe (ctx.getD {}) →
      miniCssEval m (some (t.text ++ after.bytes)) ctx = some (t.value (ctx.getD {}), true) := by
    intro t ht
    rw [miniCssEval_asRead m ctx ht.reads.1 after, ht.reads.2]
  refine ⟨hsafe t, fun hparts => ?_⟩
  match t with
  | .number sign n unit =>
    by_cases hem : unit = .em ∧ n.exponent = none
    · obtain ⟨rfl, hnone⟩ := hem
      have hsign : sign.factor ≠ 0 := by cases sign <;> simp [NumeralSign.factor]
      rw [miniCssEval_em m ctx sign hparts hnone after]
      simp [CalcTree.value, CalcTree.RootSafe, CalcUnit.size, hnone, hsign, eq_comm]
    · have hroot : unit = .em → n.exponent.isSome = true := fun hunit =>
        Option.isSome_iff_ne_none.2 fun hnone => hem ⟨hunit, hnone⟩
      exact iff_of_true (hsafe _ ⟨hparts, hroot⟩) fun hunit hnone => absurd ⟨hunit, hnone⟩ hem
  | .op o before after l r => exact iff_of_true (hsafe _ hparts) trivial
  | .spaced before t => exact iff_of_true (hsafe _ hparts) trivial
  | .parens t gap => exact iff_of_true (hsafe _ hparts) trivial
  | .calc name t gap => exact iff_of_true (hsafe _ hparts) trivial
  | .extremum kind name args =>
    obtain ⟨hargs, hread⟩ := CalcArgs.Safe.reads hparts
    have hlegible : (CalcTree.extremum kind name args).Legible := hargs
    rw [miniCssEval_asRead m ctx hlegible after, CalcTree.asRead, hread]
    by_cases hswapped : kind = .min ∧ name.letters[1]? ≠ some 105
    · obtain ⟨rfl, hletter⟩ := hswapped
      have hmax : Extremum.read name.letters = .max := if_neg hletter
      simp [hmax, CalcTree.value, CalcTree.RootSafe, hletter]
    · have hroot : kind = .min → name.letters[1]? = some 105 := fun hmin =>
        not_not.1 fun hletter => hswapped ⟨hmin, hletter⟩
      rw [Extremum.read_eq name hroot]
      exact iff_of_true rfl fun hmin hletter => absurd (hroot hmin) hletter
  | .clamp name a gapA b gapB c gapC =>
    obtain ⟨ha, hb, hc⟩ := hparts
    have hlegible : (CalcTree.clamp name a gapA b gapB c gapC).Legible :=
      ⟨ha.reads.1, hb.reads.1, hc.reads.1⟩
    rw [miniCssEval_asRead m ctx hlegible after, CalcTree.asRead, ha.reads.2, hb.reads.2,
      hc.reads.2, CalcTree.value, CalcTree.RootSafe, ← clampf_eq_iff]
    simp

/-- `calc(100% - 2 * 1e1em)` -/
def calcSample : CalcTree :=
  .calc { letters := ascii "Calc", spells := by decide }
    (.op .sub { bytes := [32] } { bytes := [32] } (.number .bare { whole := [49, 48, 48] } .percent)
      (.op .mul { bytes := [32] } { bytes := [32] } (.number .bare { whole := [50] } .number)
        (.number .bare { whole := [49], exponent := some { digits := [49] } } .em))) {}

theorem miniCssEval_value_calc :
    miniCssEval noMath (some (calcSample.text ++ [])) (some { pctBase := 800 }) =
      some (calcSample.value { pctBase := 800 }, true) :=
  (miniCssEval_value noMath (some { pctBase := 800 }) calcSample {}).1
    ⟨⟨by decide, nofun⟩, ⟨by decide, nofun⟩, by decide, fun _ => rfl⟩

/-- The letter of the unit is taken for that of an exponent. -/
theorem em_not_converted :
    miniCssEval noMath (some (CalcTree.number .bare { whole := [50] } .em).text) none ≠
      some ((CalcTree.number .bare { whole := [50] } .em).value {}, true) := by
  decide +kernel

end TinyFramework.Css
