/-
  Css/Calc.lean --- mini_css_eval, and what the expressions it reads are worth.

  The evaluator walks over the text once: a factor is a call, a text in parentheses, a sign and
  a factor, or a number with a unit; terms and expressions are chains of operators.  Floats are
  rational numbers here.  Against it stand expression trees, with the text that each is written
  as and its value.
-/
import Mathlib.Data.Rat.Floor
import TinyFramework.Foundation.Decimal

set_option autoImplicit false

namespace TinyFramework.Css

open TinyFramework.Foundation

/-! ## Texts -/

/-- `skip_ws` -/
abbrev skipWs (s : Bytes) : Bytes := s.dropWhile isspace

/-- `starts_with`, in letters of any case. -/
def cssStartsWith (s pre : Bytes) : Bool := pre.map tolower <+: s.map tolower

/-- The text behind `stop`, if it is what comes next. -/
def passOver (stop : UInt8) (p : Bytes) : Bytes :=
  match skipWs p with
  | c :: q => if c = stop then q else p
  | [] => p

/-! ## Numbers -/

/-- `MiniCssCtx`, with the values of `default_ctx`. -/
structure MiniCssCtx where
  pctBase : ℚ := 0
  fontPx : ℚ := 16
  rootFontPx : ℚ := 16
  vw : ℚ := 1280
  vh : ℚ := 720
  deriving DecidableEq, Repr

/-- The bytes of an exponent, if its letter comes next, and the text behind them. -/
def scanExponent : Bytes → Bytes × Bytes
  | c :: q =>
      if c = 101 ∨ c = 69 then
        let (sign, r) := takeSign q
        (c :: (sign ++ r.takeWhile isDecimal), r.dropWhile isDecimal)
      else ([], c :: q)
  | [] => ([], [])

/-- The bytes that `parse_number` takes for a number, and the text behind them. -/
def scanNumber (s : Bytes) : Bytes × Bytes :=
  let (sign, p) := takeSign s
  let (exponent, q) := scanExponent (p.dropWhile fun c => isDecimal c || c == 46)
  (sign ++ (p.takeWhile (fun c => isDecimal c || c == 46) ++ exponent), q)

/-- `parse_number`; the buffer holds 31 bytes. -/
def parseNumber (pp : Bytes) : ℚ × Bytes :=
  let (l, p) := scanNumber (skipWs pp)
  (atof (l.take 31), p)

/-- The suffixes of `conv_unit` in its order, with what each makes of a number. -/
def cssUnits (ctx : MiniCssCtx) : List (Bytes × (ℚ → ℚ)) :=
  [(ascii "px", fun v => v),
    (ascii "%", fun v => v * ctx.pctBase / 100),
    (ascii "em", fun v => v * ctx.fontPx),
    (ascii "rem", fun v => v * ctx.rootFontPx),
    (ascii "vw", fun v => v * ctx.vw / 100),
    (ascii "vh", fun v => v * ctx.vh / 100),
    (ascii "vmin", fun v => v * (if ctx.vw < ctx.vh then ctx.vw else ctx.vh) / 100),
    (ascii "vmax", fun v => v * (if ctx.vw > ctx.vh then ctx.vw else ctx.vh) / 100),
    (ascii "ch", fun v => v * ctx.fontPx * (1 / 2)),
    (ascii "icq", fun v => v * ctx.fontPx * (1 / 2)),
    (ascii "deg", fun v => v * (17453292519943295 / 10 ^ 18)),
    (ascii "rad", fun v => v),
    (ascii "grad", fun v => v * (15707963267948967 / 10 ^ 18)),
    (ascii "turn", fun v => v * (6283185307179586 / 10 ^ 15))]

/-- `conv_unit` -/
def convUnit (ctx : MiniCssCtx) (v : ℚ) (pp : Bytes) : ℚ × Bytes :=
  match (cssUnits ctx).find? fun u => u.1 <+: skipWs pp with
  | some (name, convert) => (convert v, (skipWs pp).drop name.length)
  | none => (v, pp)

/-! ## Functions -/

/-- The functions of `<math.h>` whose values are not rational. -/
structure MathLib where
  sinf : ℚ → ℚ
  cosf : ℚ → ℚ
  tanf : ℚ → ℚ
  asinf : ℚ → ℚ
  acosf : ℚ → ℚ
  atanf : ℚ → ℚ
  atan2f : ℚ → ℚ → ℚ
  sqrtf : ℚ → ℚ
  powf : ℚ → ℚ → ℚ

def truncf (v : ℚ) : ℚ := if 0 ≤ v then ⌊v⌋ else ⌈v⌉

/-- Halves are rounded away from zero. -/
def roundf (v : ℚ) : ℚ := if 0 ≤ v then ⌊v + 1 / 2⌋ else ⌈v - 1 / 2⌉

def fmodf (a b : ℚ) : ℚ := a - b * truncf (a / b)

/-- How the arguments of a function are read. -/
inductive CssFunction where
  | unary (f : ℚ → ℚ)
  | binary (f : ℚ → ℚ → ℚ)
  | ternary (f : ℚ → ℚ → ℚ → ℚ)
  | extremum
  | round
  | hypot

/-- The middle value of `clamp`, not above the last, or the first if it is below that. -/
def clampf (a b c : ℚ) : ℚ := if b < a then a else if b > c then c else b

/-- The functions of `eval_factor` in its order. -/
def cssFunctions (m : MathLib) : List (Bytes × CssFunction) :=
  [(ascii "calc(", .unary fun v => v),
    (ascii "min(", .extremum),
    (ascii "max(", .extremum),
    (ascii "clamp(", .ternary clampf),
    (ascii "sin(", .unary m.sinf),
    (ascii "cos(", .unary m.cosf),
    (ascii "tan(", .unary m.tanf),
    (ascii "asin(", .unary m.asinf),
    (ascii "acos(", .unary m.acosf),
    (ascii "atan(", .unary m.atanf),
    (ascii "atan2(", .binary m.atan2f),
    (ascii "sqrt(", .unary fun v => if v ≥ 0 then m.sqrtf v else 0),
    (ascii "pow(", .binary m.powf),
    (ascii "abs(", .unary fun v => |v|),
    (ascii "mod(", .binary fun a b => if b ≠ 0 then fmodf a b else 0),
    (ascii "rem(", .binary fun a b => if b ≠ 0 then fmodf a b else 0),
    (ascii "round(", .round),
    (ascii "hypot(", .hypot)]

/-- The strategies of `round()`. -/
def roundModes : List (Bytes × (ℚ → ℚ)) :=
  [(ascii "nearest,", roundf), (ascii "up,", fun v => ⌈v⌉), (ascii "down,", fun v => ⌊v⌋),
    (ascii "to-zero,", truncf)]

/-! ## Evaluation -/

/-- A value and the text behind it; `none` when the steps do not suffice. -/
abbrev Reader := Bytes → Option (ℚ × Bytes)

/-- Operands and the operators between them, from left to right; the bound is on the operators. -/
def chain (operand : Reader) (op : UInt8 → Option (ℚ → ℚ → ℚ)) : Nat → ℚ → Reader
  | 0, _, _ => none
  | n + 1, v, p =>
      match skipWs p with
      | [] => some (v, p)
      | c :: q =>
          match op c with
          | none => some (v, p)
          | some f => (operand q).bind fun (w, r) => chain operand op n (f v w) r

def chained (operand : Reader) (op : UInt8 → Option (ℚ → ℚ → ℚ)) (n : Nat) : Reader := fun p =>
  (operand p).bind fun (v, r) => chain operand op n v r

def mulOp : UInt8 → Option (ℚ → ℚ → ℚ)
  | 42 => some fun v r => v * r
  | 47 => some fun v r => if r ≠ 0 then v / r else 0
  | _ => none

def addOp : UInt8 → Option (ℚ → ℚ → ℚ)
  | 43 => some fun v r => v + r
  | 45 => some fun v r => v - r
  | _ => none

/-- `eval_term` -/
def evalTerm (bound : Nat) (factor : Reader) : Reader := chained factor mulOp bound

/-- `eval_expr` -/
def evalExpr (bound : Nat) (factor : Reader) : Reader := chained (evalTerm bound factor) addOp bound

/-- An argument and the byte behind it, if it is there. -/
def argument (expr : Reader) (stop : UInt8) : Reader := fun p =>
  (expr p).map fun (v, r) => (v, passOver stop r)

/-- The arguments of `min`, `max` and `hypot`; the bound is on their number. -/
def arguments (expr : Reader) (combine : Option ℚ → ℚ → ℚ) : Nat → Option ℚ → Reader
  | 0, _, _ => none
  | n + 1, acc, p =>
      (expr p).bind fun (v, r) =>
        match skipWs r with
        | 44 :: q => arguments expr combine n (some (combine acc v)) q
        | 41 :: q => some (combine acc v, q)
        | _ => some (combine acc v, r)

/-- The better one of the best argument so far and the next. -/
def better (isMin : Bool) (best : Option ℚ) (v : ℚ) : ℚ :=
  match best with
  | none => v
  | some best => if (if isMin then v < best else v > best) then v else best

def sumOfSquares (sum : Option ℚ) (v : ℚ) : ℚ := sum.getD 0 + v * v

/-- The arguments of `round()`. -/
def roundArguments (expr : Reader) : Reader := fun p =>
  let (mode, p) :=
    match roundModes.find? fun mode => cssStartsWith (skipWs p) mode.1 with
    | some (name, f) => (f, (skipWs p).drop name.length)
    | none => (roundf, p)
  (expr p).bind fun (a, r) =>
    let stepped :=
      match skipWs r with
      | 44 :: q => expr q
      | _ => some (1, r)
    stepped.map fun (step, r) =>
      let step := if step ≤ 0 then 1 else step
      (mode (a / step) * step, passOver 41 r)

/-- A call: `p` is the text from its name on, `q` that behind its parenthesis. -/
def evalCall (m : MathLib) (bound : Nat) (expr : Reader) (p : Bytes) : CssFunction → Reader
  | .unary f, q => (argument expr 41 q).map fun (v, r) => (f v, r)
  | .binary f, q =>
      (argument expr 44 q).bind fun (a, q) =>
        (argument expr 41 q).map fun (b, r) => (f a b, r)
  | .ternary f, q =>
      (argument expr 44 q).bind fun (a, q) =>
        (argument expr 44 q).bind fun (b, q) =>
          (argument expr 41 q).map fun (c, r) => (f a b c, r)
  | .extremum, q => arguments expr (better (p[1]? == some 105)) bound none q
  | .round, q => roundArguments expr q
  | .hypot, q => (arguments expr sumOfSquares bound none q).map fun (v, r) => (m.sqrtf v, r)

/-- The body of `eval_factor`; `factor` is its recursive call. -/
def factorStep (m : MathLib) (ctx : MiniCssCtx) (bound : Nat) (factor : Reader) : Reader := fun e =>
  let p := skipWs e
  match (cssFunctions m).find? fun fn => cssStartsWith p fn.1 with
  | some (name, fn) => evalCall m bound (evalExpr bound factor) p fn (p.drop name.length)
  | none =>
      match p with
      | 40 :: q => argument (evalExpr bound factor) 41 q
      | 45 :: q => (factor q).map fun (v, r) => (-v, r)
      | 43 :: q => factor q
      | _ =>
          let (v, r) := parseNumber e
          some (convUnit ctx v r)

/-- `eval_factor`; the bound is on its nested calls. -/
def evalFactor (m : MathLib) (ctx : MiniCssCtx) (bound : Nat) : Nat → Reader
  | 0 => fun _ => none
  | depth + 1 => factorStep m ctx bound (evalFactor m ctx bound depth)

/-- `mini_css_eval`: the value, and `*ok`. -/
def miniCssEval (m : MathLib) (expr : Option Bytes) (ctx : Option MiniCssCtx) : Option (ℚ × Bool) :=
  match expr with
  | none => some (0, false)
  | some expr =>
      let bound := expr.length + 1
      (evalExpr bound (evalFactor m (ctx.getD {}) bound bound) expr).map fun (v, _) => (v, true)

/-! ## Expression trees -/

/-- White space. -/
structure CalcSpace where
  bytes : Bytes := []
  all_space : bytes.all isspace = true := by rfl

/-- A name in letters of any case. -/
structure Spelling (name : Bytes) where
  letters : Bytes
  spells : letters.map tolower = name := by decide

inductive CalcUnit where
  | number
  | px
  | percent
  | em
  | rem
  | vw
  | vh
  | vmin
  | vmax
  deriving DecidableEq, Repr

def CalcUnit.text : CalcUnit → Bytes
  | number => []
  | px => ascii "px"
  | percent => ascii "%"
  | em => ascii "em"
  | rem => ascii "rem"
  | vw => ascii "vw"
  | vh => ascii "vh"
  | vmin => ascii "vmin"
  | vmax => ascii "vmax"

/-- How much the unit is in pixels. -/
def CalcUnit.size (ctx : MiniCssCtx) : CalcUnit → ℚ
  | number => 1
  | px => 1
  | percent => ctx.pctBase / 100
  | em => ctx.fontPx
  | rem => ctx.rootFontPx
  | vw => ctx.vw / 100
  | vh => ctx.vh / 100
  | vmin => min ctx.vw ctx.vh / 100
  | vmax => max ctx.vw ctx.vh / 100

inductive CalcOp where
  | add
  | sub
  | mul
  | div
  deriving DecidableEq, Repr

def CalcOp.byte : CalcOp → UInt8
  | add => 43
  | sub => 45
  | mul => 42
  | div => 47

def CalcOp.apply : CalcOp → ℚ → ℚ → ℚ
  | add, v, w => v + w
  | sub, v, w => v - w
  | mul, v, w => v * w
  | div, v, w => if w = 0 then 0 else v / w

/-- How closely an operator binds. -/
def CalcOp.level : CalcOp → Nat
  | add => 0
  | sub => 0
  | mul => 1
  | div => 1

inductive Extremum where
  | min
  | max
  deriving DecidableEq, Repr

def Extremum.name : Extremum → Bytes
  | min => ascii "min"
  | max => ascii "max"

def Extremum.pick : Extremum → ℚ → ℚ → ℚ
  | min, v, w => Min.min v w
  | max, v, w => Max.max v w

mutual

/-- An expression, with the white space that stands in front of it, around an operator, and in
front of a comma or a closing parenthesis. -/
inductive CalcTree where
  | number (sign : NumeralSign) (n : Numeral) (unit : CalcUnit)
  | op (o : CalcOp) (before after : CalcSpace) (l r : CalcTree)
  | spaced (before : CalcSpace) (t : CalcTree)
  | parens (t : CalcTree) (gap : CalcSpace)
  | calc (name : Spelling (ascii "calc")) (t : CalcTree) (gap : CalcSpace)
  | extremum (kind : Extremum) (name : Spelling kind.name) (args : CalcArgs)
  | clamp (name : Spelling (ascii "clamp")) (a : CalcTree) (gapA : CalcSpace) (b : CalcTree)
      (gapB : CalcSpace) (c : CalcTree) (gapC : CalcSpace)

/-- One argument or more. -/
inductive CalcArgs where
  | last (t : CalcTree) (gap : CalcSpace)
  | more (t : CalcTree) (gap : CalcSpace) (args : CalcArgs)

end

/-- What binds an expression together: an operator, or nothing that can come loose. -/
def CalcTree.level : CalcTree → Nat
  | .op o _ _ _ _ => o.level
  | .spaced _ t => t.level
  | _ => 2

/-- A text, in parentheses if it binds too loosely. -/
def enclosed (loose : Prop) [Decidable loose] (t : Bytes) : Bytes :=
  if loose then 40 :: (t ++ [41]) else t

mutual

/-- How an expression is written; operands that bind more loosely stand in parentheses. -/
def CalcTree.text : CalcTree → Bytes
  | .number sign n unit => sign.text ++ (n.text ++ unit.text)
  | .op o before after l r =>
      enclosed (l.level < o.level) l.text ++
        (before.bytes ++ o.byte :: (after.bytes ++ enclosed (r.level < o.level + 1) r.text))
  | .spaced before t => before.bytes ++ t.text
  | .parens t gap => 40 :: (t.text ++ (gap.bytes ++ [41]))
  | .calc name t gap => name.letters ++ 40 :: (t.text ++ (gap.bytes ++ [41]))
  | .extremum _ name args => name.letters ++ 40 :: args.text
  | .clamp name a gapA b gapB c gapC =>
      name.letters ++ 40 :: (a.text ++ (gapA.bytes ++ 44 :: (b.text ++ (gapB.bytes ++
        44 :: (c.text ++ (gapC.bytes ++ [41]))))))

def CalcArgs.text : CalcArgs → Bytes
  | .last t gap => t.text ++ (gap.bytes ++ [41])
  | .more t gap args => t.text ++ (gap.bytes ++ 44 :: args.text)

end

mutual

/-- What an expression is worth. -/
def CalcTree.value (ctx : MiniCssCtx) : CalcTree → ℚ
  | .number sign n unit => sign.factor * (n.value * unit.size ctx)
  | .op o _ _ l r => o.apply (l.value ctx) (r.value ctx)
  | .spaced _ t => t.value ctx
  | .parens t _ => t.value ctx
  | .calc _ t _ => t.value ctx
  | .extremum kind _ args => args.value ctx kind
  | .clamp _ a _ b _ c _ => max (a.value ctx) (min (b.value ctx) (c.value ctx))

def CalcArgs.value (ctx : MiniCssCtx) (kind : Extremum) : CalcArgs → ℚ
  | .last t _ => t.value ctx
  | .more t _ args => kind.pick (t.value ctx) (args.value ctx kind)

end

mutual

/-- A numeral fits into the buffer, and has an exponent in front of `em`; `min` has a small second
letter; the last value of a `clamp` is not below the first unless the middle one is, too. -/
def CalcTree.Safe (ctx : MiniCssCtx) : CalcTree → Prop
  | .number _ n unit => n.text.length ≤ 31 ∧ (unit = .em → n.exponent.isSome = true)
  | .op _ _ _ l r => l.Safe ctx ∧ r.Safe ctx
  | .spaced _ t => t.Safe ctx
  | .parens t _ => t.Safe ctx
  | .calc _ t _ => t.Safe ctx
  | .extremum kind name args => (kind = .min → name.letters[1]? = some 105) ∧ args.Safe ctx
  | .clamp _ a _ b _ c _ => a.Safe ctx ∧ b.Safe ctx ∧ c.Safe ctx ∧
      (a.value ctx ≤ c.value ctx ∨ b.value ctx < a.value ctx)

def CalcArgs.Safe (ctx : MiniCssCtx) : CalcArgs → Prop
  | .last t _ => t.Safe ctx
  | .more t _ args => t.Safe ctx ∧ args.Safe ctx

end

/-- What stands under the root is safe, and a numeral there fits into the buffer. -/
def CalcTree.PartsSafe (ctx : MiniCssCtx) : CalcTree → Prop
  | .number _ n _ => n.text.length ≤ 31
  | .op _ _ _ l r => l.Safe ctx ∧ r.Safe ctx
  | .spaced _ t => t.Safe ctx
  | .parens t _ => t.Safe ctx
  | .calc _ t _ => t.Safe ctx
  | .extremum _ _ args => args.Safe ctx
  | .clamp _ a _ b _ c _ => a.Safe ctx ∧ b.Safe ctx ∧ c.Safe ctx

/-- The root is safe, or its values happen to hide that it is not: 1em is one pixel or the number is
zero, or all arguments of `min` are equal. -/
def CalcTree.RootSafe (ctx : MiniCssCtx) : CalcTree → Prop
  | .number _ n unit => unit = .em → n.exponent = none → n.value * ctx.fontPx = n.value
  | .extremum kind name args =>
      kind = .min → name.letters[1]? ≠ some 105 → args.value ctx .max = args.value ctx .min
  | .clamp _ a _ b _ c _ => a.value ctx ≤ c.value ctx ∨ b.value ctx < a.value ctx
  | _ => True

end TinyFramework.Css
