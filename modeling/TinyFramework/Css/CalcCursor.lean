/-
  Css/CalcCursor.lean --- the cursor of mini_css_eval, in the memory that holds its text.

  Here the loops and calls have no bound.  Instead each turn of a loop, and each factor within a
  factor, fails if the cursor has not moved on.  None does, and none goes past the terminator.
-/
import Mathlib.Data.List.Find
import TinyFramework.Css.Calc

set_option autoImplicit false

namespace TinyFramework.Css

open TinyFramework.Foundation

/-! ## The evaluator -/

/-- The loops of `eval_term` and `eval_expr`. -/
def chainMoving (operand : Reader) (op : UInt8 → Option (ℚ → ℚ → ℚ)) (v : ℚ) (p : Bytes) :
    Option (ℚ × Bytes) :=
  match skipWs p with
  | [] => some (v, p)
  | c :: q =>
      match op c with
      | none => some (v, p)
      | some f =>
          (operand q).bind fun (w, r) =>
            if _h : r.length < p.length then chainMoving operand op (f v w) r else none
termination_by p.length

def chainedMoving (operand : Reader) (op : UInt8 → Option (ℚ → ℚ → ℚ)) : Reader := fun p =>
  (operand p).bind fun (v, r) => chainMoving operand op v r

/-- `eval_term` -/
def termMoving (factor : Reader) : Reader := chainedMoving factor mulOp

/-- `eval_expr` -/
def exprMoving (factor : Reader) : Reader := chainedMoving (termMoving factor) addOp

/-- The loops over the arguments of `min`, `max` and `hypot`. -/
def argumentsMoving (expr : Reader) (combine : Option ℚ → ℚ → ℚ) (acc : Option ℚ) (p : Bytes) :
    Option (ℚ × Bytes) :=
  (expr p).bind fun (v, r) =>
    match skipWs r with
    | 44 :: q =>
        if _h : q.length < p.length then argumentsMoving expr combine (some (combine acc v)) q
        else none
    | 41 :: q => some (combine acc v, q)
    | _ => some (combine acc v, r)
termination_by p.length

/-- A call.  The other functions have no loop. -/
def callMoving (m : MathLib) (expr : Reader) (p : Bytes) : CssFunction → Reader
  | .extremum, q => argumentsMoving expr (better (p[1]? == some 105)) none q
  | .hypot, q => (argumentsMoving expr sumOfSquares none q).map fun (v, r) => (m.sqrtf v, r)
  | fn, q => evalCall m 0 expr p fn q

/-- The body of `eval_factor`. -/
def factorStepMoving (m : MathLib) (ctx : MiniCssCtx) (factor : Reader) : Reader := fun e =>
  let p := skipWs e
  match (cssFunctions m).find? fun fn => cssStartsWith p fn.1 with
  | some (name, fn) => callMoving m (exprMoving factor) p fn (p.drop name.length)
  | none =>
      match p with
      | 40 :: q => argument (exprMoving factor) 41 q
      | 45 :: q => (factor q).map fun (v, r) => (-v, r)
      | 43 :: q => factor q
      | _ =>
          let (v, r) := parseNumber e
          some (convUnit ctx v r)

/-- `eval_factor` -/
def factorMoving (m : MathLib) (ctx : MiniCssCtx) (e : Bytes) : Option (ℚ × Bytes) :=
  factorStepMoving m ctx
    (fun q => if _h : q.length < e.length then factorMoving m ctx q else none) e
termination_by e.length

/-! ## The terminator -/

/-- A text in memory: its terminator, and what is behind it. -/
def terminated (junk t : Bytes) : Bytes := t ++ 0 :: junk

variable {junk t : Bytes}

theorem terminated_nil : terminated junk [] = 0 :: junk := rfl

theorem terminated_cons (c : UInt8) (t : Bytes) :
    terminated junk (c :: t) = c :: terminated junk t := rfl

theorem terminated_lt {r : Bytes} (h : r.length < t.length) :
    (terminated junk r).length < (terminated junk t).length := by
  simp only [terminated, List.length_append]
  omega

theorem dropWhile_terminated {q : UInt8 → Bool} (hq : q 0 = false) (t : Bytes) :
    (terminated junk t).dropWhile q = terminated junk (t.dropWhile q) := by
  unfold terminated
  induction t with
  | nil => exact List.dropWhile_cons_of_neg (by rw [hq]; exact Bool.false_ne_true)
  | cons c t ih =>
    cases hc : q c with
    | true =>
      rw [List.cons_append, List.dropWhile_cons_of_pos hc, List.dropWhile_cons_of_pos hc, ih]
    | false =>
      have hstop : ¬ q c = true := by
        rw [hc]
        exact Bool.false_ne_true
      rw [List.cons_append, List.dropWhile_cons_of_neg hstop, List.dropWhile_cons_of_neg hstop,
        List.cons_append]

theorem takeWhile_terminated {q : UInt8 → Bool} (hq : q 0 = false) (t : Bytes) :
    (terminated junk t).takeWhile q = t.takeWhile q := by
  unfold terminated
  induction t with
  | nil => exact List.takeWhile_cons_of_neg (by rw [hq]; exact Bool.false_ne_true)
  | cons c t ih =>
    cases hc : q c with
    | true =>
      rw [List.cons_append, List.takeWhile_cons_of_pos hc, List.takeWhile_cons_of_pos hc, ih]
    | false =>
      have hstop : ¬ q c = true := by
        rw [hc]
        exact Bool.false_ne_true
      rw [List.cons_append, List.takeWhile_cons_of_neg hstop, List.takeWhile_cons_of_neg hstop]

/-- A text without a null byte is not matched past the terminator. -/
theorem prefix_terminated {pre : Bytes} (hpre : 0 ∉ pre) (t : Bytes) :
    pre <+: terminated junk t ↔ pre <+: t := by
  refine ⟨fun h => ?_, fun h => h.trans (List.prefix_append _ _)⟩
  rcases List.prefix_or_prefix_of_prefix h (List.prefix_append t (0 :: junk)) with hle | hle
  · exact hle
  · obtain ⟨s, rfl⟩ := hle
    cases s with
    | nil => exact (List.append_nil t).symm ▸ List.prefix_rfl
    | cons b s =>
      have hb := (List.prefix_append_right_inj t).1 h
      rw [List.cons_prefix_cons] at hb
      exact absurd (List.mem_append_right t (by rw [hb.1]; exact List.mem_cons_self)) hpre

theorem tolower_eq_zero {c : UInt8} : tolower c = 0 ↔ c = 0 := by
  unfold tolower
  constructor
  · grind
  · rintro rfl
    rfl

theorem startsWith_terminated {pre : Bytes} (hpre : 0 ∉ pre) (t : Bytes) :
    cssStartsWith (terminated junk t) pre = cssStartsWith t pre := by
  have hlower : ∀ s : Bytes, 0 ∈ s.map tolower ↔ 0 ∈ s := fun s => by
    simp [tolower_eq_zero]
  have hmap : (terminated junk t).map tolower =
      terminated (junk.map tolower) (t.map tolower) := by
    rw [terminated, List.map_append]
    rfl
  unfold cssStartsWith
  rw [hmap, decide_eq_decide]
  exact prefix_terminated (by rwa [hlower]) _

theorem drop_terminated {n : Nat} (hn : n ≤ t.length) :
    (terminated junk t).drop n = terminated junk (t.drop n) :=
  List.drop_append_of_le_length hn

theorem skipWs_terminated (t : Bytes) : skipWs (terminated junk t) = terminated junk (skipWs t) :=
  dropWhile_terminated rfl t

theorem skipWs_suffix (t : Bytes) : skipWs t <:+ t :=
  List.dropWhile_suffix _

theorem passOver_terminated {stop : UInt8} (hstop : stop ≠ 0) (t : Bytes) :
    passOver stop (terminated junk t) = terminated junk (passOver stop t) := by
  unfold passOver
  rw [skipWs_terminated]
  cases skipWs t with
  | nil => exact if_neg hstop.symm
  | cons c q => exact (apply_ite (terminated junk) _ _ _).symm

theorem passOver_suffix (stop : UInt8) (t : Bytes) : passOver stop t <:+ t := by
  unfold passOver
  have hskip := skipWs_suffix t
  cases hq : skipWs t with
  | nil => exact List.suffix_rfl
  | cons c q =>
    rw [hq] at hskip
    dsimp only
    split
    · exact (List.suffix_cons c q).trans hskip
    · exact List.suffix_rfl

/-! ## Numbers and units -/

theorem takeSign_terminated (t : Bytes) :
    takeSign (terminated junk t) = ((takeSign t).1, terminated junk (takeSign t).2) := by
  unfold terminated takeSign
  cases t with
  | nil => rfl
  | cons c q =>
    rw [List.cons_append]
    split
    · simp_all
    · simp_all
    · simp_all

theorem scanExponent_terminated (t : Bytes) :
    scanExponent (terminated junk t) = ((scanExponent t).1, terminated junk (scanExponent t).2) := by
  cases t with
  | nil => rfl
  | cons c q =>
    show scanExponent (c :: terminated junk q) = _
    unfold scanExponent
    dsimp only
    split
    · rw [takeSign_terminated, takeWhile_terminated rfl, dropWhile_terminated rfl]
    · rfl

theorem scanNumber_terminated (t : Bytes) :
    scanNumber (terminated junk t) = ((scanNumber t).1, terminated junk (scanNumber t).2) := by
  unfold scanNumber
  rw [takeSign_terminated]
  dsimp only
  rw [takeWhile_terminated rfl, dropWhile_terminated rfl, scanExponent_terminated]

theorem parseNumber_terminated (t : Bytes) :
    parseNumber (terminated junk t) = ((parseNumber t).1, terminated junk (parseNumber t).2) := by
  unfold parseNumber
  rw [skipWs_terminated, scanNumber_terminated]

theorem takeSign_suffix (t : Bytes) : (takeSign t).2 <:+ t := by
  unfold takeSign
  split
  · exact List.suffix_cons _ _
  · exact List.suffix_cons _ _
  · exact List.suffix_rfl

theorem scanExponent_suffix (t : Bytes) : (scanExponent t).2 <:+ t := by
  cases t with
  | nil => exact List.suffix_rfl
  | cons c q =>
    unfold scanExponent
    dsimp only
    split
    · exact ((List.dropWhile_suffix _).trans (takeSign_suffix q)).trans (List.suffix_cons c q)
    · exact List.suffix_rfl

theorem parseNumber_suffix (t : Bytes) : (parseNumber t).2 <:+ t := by
  have hsign := (takeSign_suffix (skipWs t)).trans (skipWs_suffix t)
  exact (scanExponent_suffix _).trans ((List.dropWhile_suffix _).trans hsign)

/-- A null byte is in no unit. -/
theorem cssUnits_no_null (ctx : MiniCssCtx) : ∀ u ∈ cssUnits ctx, 0 ∉ u.1 := by
  have hnames : ∀ name ∈ (cssUnits ctx).map Prod.fst, 0 ∉ name := by
    show ∀ name ∈ [ascii "px", ascii "%", ascii "em", ascii "rem", ascii "vw", ascii "vh",
      ascii "vmin", ascii "vmax", ascii "ch", ascii "icq", ascii "deg", ascii "rad", ascii "grad",
      ascii "turn"], 0 ∉ name
    decide
  exact fun u hu => hnames u.1 (List.mem_map_of_mem hu)

theorem convUnit_terminated (ctx : MiniCssCtx) (v : ℚ) (t : Bytes) :
    convUnit ctx v (terminated junk t) =
      ((convUnit ctx v t).1, terminated junk (convUnit ctx v t).2) := by
  have hfind : ((cssUnits ctx).find? fun u => u.1 <+: skipWs (terminated junk t)) =
      (cssUnits ctx).find? fun u => u.1 <+: skipWs t := by
    refine List.find?_congr fun u hu => ?_
    rw [skipWs_terminated, decide_eq_decide]
    exact prefix_terminated (cssUnits_no_null ctx u hu) _
  unfold convUnit
  rw [hfind]
  cases hu : (cssUnits ctx).find? fun u => u.1 <+: skipWs t with
  | none => rfl
  | some u =>
    have hpre : u.1 <+: skipWs t := by simpa using List.find?_some hu
    dsimp only
    rw [skipWs_terminated, drop_terminated hpre.length_le]

theorem convUnit_suffix (ctx : MiniCssCtx) (v : ℚ) (t : Bytes) : (convUnit ctx v t).2 <:+ t := by
  unfold convUnit
  split
  · exact (List.drop_suffix _ _).trans (skipWs_suffix t)
  · exact List.suffix_rfl

/-! ## Readings -/

/-- A reading in memory has the outcome `y` of a reading of `t`, and leaves the cursor in `t`. -/
def SameReading (junk t : Bytes) (x y : Option (ℚ × Bytes)) : Prop :=
  ∃ v r, y = some (v, r) ∧ x = some (v, terminated junk r) ∧ r <:+ t

/-- The readers have the same outcome on every text shorter than `n`. -/
def Agree (junk : Bytes) (n : Nat) (moving bounded : Reader) : Prop :=
  ∀ t, t.length < n → SameReading junk t (moving (terminated junk t)) (bounded t)

variable {s : Bytes} {n bound : Nat} {x y : Option (ℚ × Bytes)}

theorem SameReading.done {r : Bytes} (v : ℚ) (h : r <:+ t) :
    SameReading junk t (some (v, terminated junk r)) (some (v, r)) :=
  ⟨v, r, rfl, rfl, h⟩

theorem SameReading.mono (h : SameReading junk s x y) (hst : s <:+ t) : SameReading junk t x y := by
  obtain ⟨v, r, hy, hx, hr⟩ := h
  exact ⟨v, r, hy, hx, hr.trans hst⟩

theorem SameReading.bind {f g : ℚ × Bytes → Option (ℚ × Bytes)} (h : SameReading junk t x y)
    (hnext : ∀ v r, r <:+ t → SameReading junk r (f (v, terminated junk r)) (g (v, r))) :
    SameReading junk t (x.bind f) (y.bind g) := by
  obtain ⟨v, r, rfl, rfl, hr⟩ := h
  exact (hnext v r hr).mono hr

theorem SameReading.map {f g : ℚ × Bytes → ℚ × Bytes} (h : SameReading junk t x y)
    (hnext : ∀ v r, r <:+ t →
      SameReading junk r (some (f (v, terminated junk r))) (some (g (v, r)))) :
    SameReading junk t (x.map f) (y.map g) := by
  rw [Option.map_eq_bind, Option.map_eq_bind]
  exact h.bind hnext

section readers

variable {m : MathLib} {ctx : MiniCssCtx} {moving bounded : Reader}

/-- An operand stands behind its operator, so the text gets shorter with every turn. -/
theorem chain_same {op : UInt8 → Option (ℚ → ℚ → ℚ)} (hop : op 0 = none)
    (h : Agree junk n moving bounded) (v : ℚ) (hn : t.length ≤ n) (hbound : t.length < bound) :
    SameReading junk t (chainMoving moving op v (terminated junk t))
      (chain bounded op bound v t) := by
  induction bound generalizing v t with
  | zero => exact absurd hbound (Nat.not_lt_zero _)
  | succ bound ih =>
    have hskip := skipWs_suffix t
    unfold chainMoving chain
    rw [skipWs_terminated]
    cases hq : skipWs t with
    | nil =>
      rw [terminated_nil]
      dsimp only
      rw [hop]
      exact .done v List.suffix_rfl
    | cons c q =>
      rw [hq] at hskip
      have hlen := hskip.length_le
      rw [List.length_cons] at hlen
      rw [terminated_cons]
      dsimp only
      cases hc : op c with
      | none => exact .done v List.suffix_rfl
      | some f =>
        have hqt : q <:+ t := (List.suffix_cons c q).trans hskip
        refine SameReading.mono (SameReading.bind (h q (by omega)) fun w r hr => ?_) hqt
        have hrq := hr.length_le
        dsimp only
        rw [dif_pos (terminated_lt (by omega))]
        exact ih (f v w) (by omega) (by omega)

theorem chained_same {op : UInt8 → Option (ℚ → ℚ → ℚ)} (hop : op 0 = none)
    (h : Agree junk n moving bounded) (hn : n ≤ bound) :
    Agree junk n (chainedMoving moving op) (chained bounded op bound) := fun t ht => by
  refine SameReading.bind (h t ht) fun v r hr => ?_
  have hlen := hr.length_le
  exact chain_same hop h v (by omega) (by omega)

theorem expr_same (h : Agree junk n moving bounded) (hn : n ≤ bound) :
    Agree junk n (exprMoving moving) (evalExpr bound bounded) :=
  chained_same rfl (chained_same rfl h hn) hn

theorem argument_same (h : Agree junk n moving bounded) {stop : UInt8} (hstop : stop ≠ 0)
    (ht : t.length < n) :
    SameReading junk t (argument moving stop (terminated junk t)) (argument bounded stop t) := by
  refine SameReading.map (h t ht) fun v r _ => ?_
  dsimp only
  rw [passOver_terminated hstop]
  exact .done v (passOver_suffix stop r)

theorem arguments_same (combine : Option ℚ → ℚ → ℚ) (h : Agree junk n moving bounded)
    (acc : Option ℚ) (hn : t.length < n) (hbound : t.length < bound) :
    SameReading junk t (argumentsMoving moving combine acc (terminated junk t))
      (arguments bounded combine bound acc t) := by
  induction bound generalizing acc t with
  | zero => exact absurd hbound (Nat.not_lt_zero _)
  | succ bound ih =>
    unfold argumentsMoving arguments
    refine SameReading.bind (h t hn) fun v r hr => ?_
    dsimp only
    rw [skipWs_terminated]
    have hskip := skipWs_suffix r
    cases hq : skipWs r with
    | nil => exact .done _ List.suffix_rfl
    | cons c q =>
      rw [hq] at hskip
      have hqr : q <:+ r := (List.suffix_cons c q).trans hskip
      have hlen := hskip.length_le.trans hr.length_le
      rw [List.length_cons] at hlen
      rw [terminated_cons]
      by_cases hcomma : c = 44
      · subst hcomma
        refine SameReading.mono (s := q) ?_ hqr
        show SameReading junk q
          (if _h : (terminated junk q).length < (terminated junk t).length then
            argumentsMoving moving combine (some (combine acc v)) (terminated junk q)
          else none) (arguments bounded combine bound (some (combine acc v)) q)
        rw [dif_pos (terminated_lt (by omega))]
        exact ih (some (combine acc v)) (by omega) (by omega)
      by_cases hclose : c = 41
      · subst hclose
        exact .done _ hqr
      · split <;> split <;> first | exact .done _ List.suffix_rfl | simp_all

/-- The strategy of `round()`, and the text behind it. -/
def roundMode (p : Bytes) : (ℚ → ℚ) × Bytes :=
  match roundModes.find? fun mode => cssStartsWith (skipWs p) mode.1 with
  | some (name, f) => (f, (skipWs p).drop name.length)
  | none => (roundf, p)

/-- The second argument of `round()`. -/
def roundStep (expr : Reader) (r : Bytes) : Option (ℚ × Bytes) :=
  match skipWs r with
  | 44 :: q => expr q
  | _ => some (1, r)

theorem roundArguments_eq (expr : Reader) (p : Bytes) :
    roundArguments expr p = (expr (roundMode p).2).bind fun (a, r) =>
      (roundStep expr r).map fun (step, r) =>
        ((roundMode p).1 (a / if step ≤ 0 then 1 else step) * (if step ≤ 0 then 1 else step),
          passOver 41 r) := rfl

theorem startsWith_length {p pre : Bytes} (h : cssStartsWith p pre = true) :
    pre.length ≤ p.length := by
  have hlen := (of_decide_eq_true h).length_le
  rwa [List.length_map, List.length_map] at hlen

theorem roundMode_terminated (t : Bytes) :
    roundMode (terminated junk t) = ((roundMode t).1, terminated junk (roundMode t).2) := by
  have hnames : ∀ mode ∈ roundModes.map Prod.fst, 0 ∉ mode := by decide
  have hfind : (roundModes.find? fun mode => cssStartsWith (skipWs (terminated junk t)) mode.1) =
      roundModes.find? fun mode => cssStartsWith (skipWs t) mode.1 := by
    refine List.find?_congr fun mode hmode => ?_
    rw [skipWs_terminated, startsWith_terminated (hnames mode.1 (List.mem_map_of_mem hmode))]
  unfold roundMode
  rw [hfind]
  cases hmode : roundModes.find? fun mode => cssStartsWith (skipWs t) mode.1 with
  | none => rfl
  | some mode =>
    have hstarts : cssStartsWith (skipWs t) mode.1 = true := by simpa using List.find?_some hmode
    dsimp only
    rw [skipWs_terminated, drop_terminated (startsWith_length hstarts)]

theorem roundMode_suffix (t : Bytes) : (roundMode t).2 <:+ t := by
  unfold roundMode
  split
  · exact (List.drop_suffix _ _).trans (skipWs_suffix t)
  · exact List.suffix_rfl

theorem roundStep_same (h : Agree junk n moving bounded) (ht : t.length < n) :
    SameReading junk t (roundStep moving (terminated junk t)) (roundStep bounded t) := by
  unfold roundStep
  rw [skipWs_terminated]
  have hskip := skipWs_suffix t
  cases hq : skipWs t with
  | nil => exact .done _ List.suffix_rfl
  | cons c q =>
    rw [hq] at hskip
    have hlen := hskip.length_le
    rw [List.length_cons] at hlen
    rw [terminated_cons]
    by_cases hcomma : c = 44
    · subst hcomma
      exact (h q (by omega)).mono ((List.suffix_cons 44 q).trans hskip)
    · split <;> split <;> first | exact .done _ List.suffix_rfl | simp_all

theorem roundArguments_same (h : Agree junk n moving bounded) (ht : t.length < n) :
    SameReading junk t (roundArguments moving (terminated junk t)) (roundArguments bounded t) := by
  rw [roundArguments_eq, roundArguments_eq, roundMode_terminated]
  have hmode := roundMode_suffix t
  have hlen := hmode.length_le
  refine SameReading.mono (SameReading.bind (h _ (by omega)) fun a r hr => ?_) hmode
  have hshort := hr.length_le
  refine SameReading.map (roundStep_same h (by omega)) fun step q _ => ?_
  dsimp only
  rw [passOver_terminated (by decide)]
  exact .done _ (passOver_suffix 41 q)

/-- Behind the name of a function, the cursor is beyond the start of the factor. -/
theorem callMoving_same (h : Agree junk n moving bounded) (hn : n ≤ bound) {p : Bytes}
    (hp : 2 ≤ p.length) (fn : CssFunction) (ht : t.length < n) :
    SameReading junk t (callMoving m moving (terminated junk p) fn (terminated junk t))
      (evalCall m bound bounded p fn t) := by
  cases fn with
  | unary f =>
    exact SameReading.map (argument_same h (by decide) ht) fun v r _ => .done _ List.suffix_rfl
  | binary f =>
    refine SameReading.bind (argument_same h (by decide) ht) fun a q hq => ?_
    have hlen := hq.length_le
    exact SameReading.map (argument_same h (by decide) (by omega)) fun b r _ =>
      .done _ List.suffix_rfl
  | ternary f =>
    refine SameReading.bind (argument_same h (by decide) ht) fun a q hq => ?_
    have hlen := hq.length_le
    refine SameReading.bind (argument_same h (by decide) (by omega)) fun b s hs => ?_
    have hlen' := hs.length_le
    exact SameReading.map (argument_same h (by decide) (by omega)) fun c r _ =>
      .done _ List.suffix_rfl
  | extremum =>
    have hsecond : (terminated junk p)[1]? = p[1]? := List.getElem?_append_left hp
    show SameReading junk t (argumentsMoving moving (better ((terminated junk p)[1]? == some 105))
      none (terminated junk t)) _
    rw [hsecond]
    exact arguments_same _ h none ht (by omega)
  | round => exact roundArguments_same h ht
  | hypot =>
    exact SameReading.map (arguments_same sumOfSquares h none ht (by omega)) fun v r _ =>
      .done _ List.suffix_rfl

/-- A null byte is in no name of a function, and more than its parenthesis is. -/
theorem cssFunctions_names (m : MathLib) : ∀ fn ∈ cssFunctions m, 0 ∉ fn.1 ∧ 2 ≤ fn.1.length := by
  have hnames : ∀ name ∈ (cssFunctions m).map Prod.fst, 0 ∉ name ∧ 2 ≤ name.length := by
    show ∀ name ∈ [ascii "calc(", ascii "min(", ascii "max(", ascii "clamp(", ascii "sin(",
      ascii "cos(", ascii "tan(", ascii "asin(", ascii "acos(", ascii "atan(", ascii "atan2(",
      ascii "sqrt(", ascii "pow(", ascii "abs(", ascii "mod(", ascii "rem(", ascii "round(",
      ascii "hypot("], 0 ∉ name ∧ 2 ≤ name.length
    decide
  exact fun fn hfn => hnames fn.1 (List.mem_map_of_mem hfn)

theorem factorStep_same (h : Agree junk t.length moving bounded) (hn : t.length ≤ bound) :
    SameReading junk t (factorStepMoving m ctx moving (terminated junk t))
      (factorStep m ctx bound bounded t) := by
  have hskip := skipWs_suffix t
  have hlen := hskip.length_le
  have hfind : ((cssFunctions m).find? fun fn => cssStartsWith (terminated junk (skipWs t)) fn.1) =
      (cssFunctions m).find? fun fn => cssStartsWith (skipWs t) fn.1 :=
    List.find?_congr fun fn hfn => startsWith_terminated (cssFunctions_names m fn hfn).1 _
  unfold factorStepMoving factorStep
  rw [skipWs_terminated]
  dsimp only
  rw [hfind]
  cases hfn : (cssFunctions m).find? fun fn => cssStartsWith (skipWs t) fn.1 with
  | some fn =>
    have hstarts : cssStartsWith (skipWs t) fn.1 = true := by simpa using List.find?_some hfn
    have hname := startsWith_length hstarts
    have hlong := (cssFunctions_names m fn (List.mem_of_find?_eq_some hfn)).2
    dsimp only
    rw [drop_terminated hname]
    refine (callMoving_same (expr_same h hn) hn (by omega) fn.2 ?_).mono
      ((List.drop_suffix _ _).trans hskip)
    rw [List.length_drop]
    omega
  | none =>
    have hnumber : SameReading junk t
        (some (convUnit ctx (parseNumber (terminated junk t)).1
          (parseNumber (terminated junk t)).2))
        (some (convUnit ctx (parseNumber t).1 (parseNumber t).2)) := by
      rw [parseNumber_terminated, convUnit_terminated]
      exact .done _ ((convUnit_suffix ctx _ _).trans (parseNumber_suffix t))
    dsimp only
    cases hq : skipWs t with
    | nil => exact hnumber
    | cons c q =>
      rw [hq] at hskip hlen
      rw [List.length_cons] at hlen
      have hqt : q <:+ t := (List.suffix_cons c q).trans hskip
      rw [terminated_cons]
      by_cases hopen : c = 40
      · subst hopen
        exact (argument_same (expr_same h hn) (by decide) (by omega)).mono hqt
      by_cases hminus : c = 45
      · subst hminus
        exact SameReading.map (.mono (h q (by omega)) hqt) fun v r _ => .done _ List.suffix_rfl
      by_cases hplus : c = 43
      · subst hplus
        exact (h q (by omega)).mono hqt
      · -- every other byte begins a number
        split <;> split <;> first | exact hnumber | simp_all

theorem factorMoving_same (junk : Bytes) {depth : Nat} (hdepth : t.length < depth)
    (hn : t.length ≤ bound) :
    SameReading junk t (factorMoving m ctx (terminated junk t))
      (evalFactor m ctx bound depth t) := by
  induction depth generalizing t with
  | zero => exact absurd hdepth (Nat.not_lt_zero _)
  | succ depth ih =>
    unfold factorMoving evalFactor
    refine factorStep_same (fun q hq => ?_) hn
    rw [dif_pos (terminated_lt hq)]
    exact ih (by omega) (by omega)

end readers

/-- mini_css_eval returns, whatever text it is given and whatever lies behind its terminator: every
turn and every nested factor begins further on, and at the end the cursor is still in the text.
The cursor only moves forward, so that it never was beyond the terminator. -/
theorem miniCssEval_moves (m : MathLib) (ctx : Option MiniCssCtx) (text junk : Bytes) :
    ∃ v r, exprMoving (factorMoving m (ctx.getD {})) (terminated junk text) =
        some (v, terminated junk r) ∧
      r <:+ text ∧ miniCssEval m (some text) ctx = some (v, true) := by
  have hfactor : Agree junk (text.length + 1) (factorMoving m (ctx.getD {}))
      (evalFactor m (ctx.getD {}) (text.length + 1) (text.length + 1)) :=
    fun t ht => factorMoving_same junk ht (Nat.le_of_lt ht)
  obtain ⟨v, r, hbounded, hmoving, hr⟩ :=
    expr_same hfactor (Nat.le_refl _) text (Nat.lt_succ_self _)
  refine ⟨v, r, hmoving, hr, ?_⟩
  unfold miniCssEval
  dsimp only
  rw [hbounded]
  rfl

end TinyFramework.Css
