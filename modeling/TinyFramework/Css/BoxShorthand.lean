/-
  Css/BoxShorthand.lean --- parse_len_box4_node, which reads `margin`, `padding` and `inset`.

  A length that needs the layout is not kept in the style: the style holds a mark, and the
  expression stands in a store of the node, under the field it is for.  The shorthand splits its
  value at white space, sets the fields one after the other and copies lengths for the sides
  that no piece is for.  Floats are rational numbers.
-/
import TinyFramework.Css.CalcRun
import TinyFramework.Foundation.CText
import TinyFramework.Foundation.Tokens

set_option autoImplicit false

namespace TinyFramework.Css

open TinyFramework.Foundation

/-! ## Lengths -/

inductive LenUnit where
  | px
  | percent
  | em
  | rem
  | vw
  | vh
  | vmin
  | vmax
  | auto
  | calcSentinel
  | ch
  deriving DecidableEq, Repr

structure MiniLength where
  v : ℚ
  unit : LenUnit
  deriving DecidableEq, Repr

/-- `strtod`: the number that a text starts with, and the text behind it. -/
abbrev StrToD := Bytes → ℚ × Bytes

/-- The units of `parse_length` in its order, but for `auto`. -/
def lenUnits : List (Bytes × LenUnit) :=
  [(ascii "%", .percent), (ascii "em", .em), (ascii "rem", .rem), (ascii "ch", .ch),
    (ascii "vw", .vw), (ascii "vh", .vh), (ascii "vmin", .vmin), (ascii "vmax", .vmax)]

section Read

variable (strtod : StrToD)

/-- `parse_length` -/
def parseLength (v : Bytes) : MiniLength :=
  if v = [] then ⟨0, .px⟩
  else
    let (value, rest) := strtod v
    let rest := rest.dropWhile isspace
    if ascii "auto" <+: rest then ⟨value, .auto⟩
    else
      match lenUnits.find? fun u => u.1 <+: rest with
      | some (_, unit) => ⟨value, unit⟩
      | none => ⟨value, .px⟩

/-- `resolve_len` -/
def resolveLen (ctx : MiniCssCtx) (len : MiniLength) : ℚ :=
  match len.unit with
  | .percent => len.v / 100 * ctx.pctBase
  | .em => len.v * ctx.fontPx
  | .rem => len.v * ctx.rootFontPx
  | .vw => len.v / 100 * ctx.vw
  | .vh => len.v / 100 * ctx.vh
  | .vmin => len.v / 100 * (if ctx.vw < ctx.vh then ctx.vw else ctx.vh)
  | .vmax => len.v / 100 * (if ctx.vw > ctx.vh then ctx.vw else ctx.vh)
  | .ch => len.v * (if ctx.fontPx > 0 then ctx.fontPx else 16) * (55 / 100)
  | .px | .auto | .calcSentinel => len.v

/-! ## The store of expressions -/

inductive CalcField where
  | w
  | h
  | mTop
  | mRight
  | mBot
  | mLeft
  | pTop
  | pRight
  | pBot
  | pLeft
  | top
  | left
  | right
  | bottom
  | font
  | gap
  deriving DecidableEq, Repr

/-- `MiniCalc`, from the head of the list on. -/
abbrev MiniCalcs := List (CalcField × Bytes)

/-- The first entry of a field gets another expression. -/
def replaceCalc (field : CalcField) (expr : Bytes) : MiniCalcs → MiniCalcs
  | [] => []
  | c :: calcs => if c.1 = field then (field, expr) :: calcs else c :: replaceCalc field expr calcs

/-- `mini_calc_set` -/
def miniCalcSet (field : CalcField) (expr : Bytes) (calcs : MiniCalcs) : MiniCalcs :=
  if calcs.any fun c => c.1 = field then replaceCalc field expr calcs else (field, expr) :: calcs

/-- The expression that `mini_calc_resolve` finds. -/
def miniCalcFind (field : CalcField) (calcs : MiniCalcs) : Option Bytes :=
  (calcs.find? fun c => c.1 = field).map Prod.snd

/-- `mini_calc_resolve`; `vars` puts the custom properties of the node into an expression. -/
def miniCalcResolve (m : MathLib) (vars : Bytes → Bytes) (ctx : MiniCssCtx) : Option Bytes → ℚ
  | none => 0
  | some expr =>
      match miniCssEval m (some (vars expr)) (some ctx) with
      | some (v, true) => v
      | _ => 0

/-- The calls that `set_len_field` leaves to the layout. -/
def calcCalls : List Bytes := [ascii "calc(", ascii "min(", ascii "max(", ascii "clamp("]

/-- What `set_len_field` leaves to the layout. -/
def deferred (val : Bytes) : Bool :=
  (cutAt (ascii "var(") val).isSome || calcCalls.any (cssStartsWith val)

/-- `set_len_field` -/
def setLenField (field : CalcField) (val : Bytes) (calcs : MiniCalcs) : MiniLength × MiniCalcs :=
  if val = [] then (parseLength strtod val, calcs)
  else if deferred val then (⟨0, .calcSentinel⟩, miniCalcSet field val calcs)
  else (parseLength strtod val, calcs)

/-! ## The shorthands -/

inductive BoxSide where
  | top
  | right
  | bottom
  | left
  deriving DecidableEq, Repr

inductive BoxShorthand where
  | margin
  | padding
  | inset
  deriving DecidableEq, Repr

/-- The arrays `mf`, `pf` and `inf`. -/
def BoxShorthand.field : BoxShorthand → BoxSide → CalcField
  | .margin, .top => .mTop
  | .margin, .right => .mRight
  | .margin, .bottom => .mBot
  | .margin, .left => .mLeft
  | .padding, .top => .pTop
  | .padding, .right => .pRight
  | .padding, .bottom => .pBot
  | .padding, .left => .pLeft
  | .inset, .top => .top
  | .inset, .right => .right
  | .inset, .bottom => .bottom
  | .inset, .left => .left

/-- The four lengths of a box. -/
structure BoxLengths where
  top : MiniLength
  right : MiniLength
  bottom : MiniLength
  left : MiniLength

def BoxLengths.side (box : BoxLengths) : BoxSide → MiniLength
  | .top => box.top
  | .right => box.right
  | .bottom => box.bottom
  | .left => box.left

/-- The delimiters of the shorthand. -/
def isBoxSpace (c : UInt8) : Bool := c == 32 || c == 9 || c == 13 || c == 10 || c == 12

/-- `parse_len_box4_node`; the buffer holds 255 bytes, and pieces after the fourth are dropped. -/
def parseLenBox4Node (f : BoxSide → CalcField) (v : Bytes) (calcs : MiniCalcs) :
    BoxLengths × MiniCalcs :=
  match (tokens isBoxSpace (v.take 255)).take 4 with
  | [] => (⟨⟨0, .px⟩, ⟨0, .px⟩, ⟨0, .px⟩, ⟨0, .px⟩⟩, calcs)
  | [a] =>
      let (top, calcs) := setLenField strtod (f .top) a calcs
      let (right, calcs) := setLenField strtod (f .right) a calcs
      let (bottom, calcs) := setLenField strtod (f .bottom) a calcs
      let (left, calcs) := setLenField strtod (f .left) a calcs
      (⟨top, right, bottom, left⟩, calcs)
  | a :: b :: more =>
      let (top, calcs) := setLenField strtod (f .top) a calcs
      let (right, calcs) := setLenField strtod (f .right) b calcs
      let (left, calcs) := setLenField strtod (f .left) b calcs
      match more with
      | [] => (⟨top, right, top, left⟩, calcs)
      | c :: more =>
          let (bottom, calcs) := setLenField strtod (f .bottom) c calcs
          match more with
          | [] => (⟨top, right, bottom, left⟩, calcs)
          | d :: _ =>
              let (left, calcs) := setLenField strtod (f .left) d calcs
              (⟨top, right, bottom, left⟩, calcs)

/-- The four longhands, one after the other. -/
def setLonghands (f : BoxSide → CalcField) (val : BoxSide → Bytes) (calcs : MiniCalcs) :
    BoxLengths × MiniCalcs :=
  let (top, calcs) := setLenField strtod (f .top) (val .top) calcs
  let (right, calcs) := setLenField strtod (f .right) (val .right) calcs
  let (bottom, calcs) := setLenField strtod (f .bottom) (val .bottom) calcs
  let (left, calcs) := setLenField strtod (f .left) (val .left) calcs
  (⟨top, right, bottom, left⟩, calcs)

end Read

/-! ## What the layout reads -/

/-- What a side is resolved from. -/
inductive SideSource where
  | length (len : MiniLength)
  | expression (expr : Option Bytes)
  deriving DecidableEq, Repr

def sideSource (field : CalcField) (len : MiniLength) (calcs : MiniCalcs) : SideSource :=
  if len.unit = .calcSentinel then .expression (miniCalcFind field calcs) else .length len

/-- `resolve_field` -/
def resolveField (m : MathLib) (vars : Bytes → Bytes) (ctx : MiniCssCtx) : SideSource → ℚ
  | .length len => resolveLen ctx len
  | .expression expr => miniCalcResolve m vars ctx expr

/-! ## Values -/

/-- The parentheses of a call are closed by its last byte; so many are open. -/
def closedCall : Nat → Bytes → Bool
  | _, [] => false
  | depth, c :: s =>
      if c = 40 then closedCall (depth + 1) s
      else if c = 41 then
        match depth with
        | 0 => false
        | 1 => s.isEmpty
        | depth + 2 => closedCall (depth + 1) s
      else closedCall depth s

/-- A plain length or `auto`, or an expression. -/
structure BoxComponent where
  text : Bytes
  nonempty : text ≠ [] := by decide
  shape :
    (deferred text = false ∧ text.any isBoxSpace = false) ∨
      (calcCalls.any (cssStartsWith text) = true ∧ closedCall 0 text = true)

/-- What stands between two components. -/
structure BoxGap where
  bytes : Bytes
  nonempty : bytes ≠ [] := by decide
  all_space : bytes.all isBoxSpace = true := by rfl

/-- The value of a shorthand, with its white space. -/
structure BoxValue where
  lead : Bytes := []
  lead_space : lead.all isBoxSpace = true := by rfl
  first : BoxComponent
  rest : List (BoxGap × BoxComponent)
  few : rest.length ≤ 3 := by decide
  trail : Bytes := []
  trail_space : trail.all isBoxSpace = true := by rfl

/-- What one to four items give each side. -/
def boxPick {α : Type} (first : α) (rest : List α) : BoxSide → α
  | .top => first
  | .right => rest[0]?.getD first
  | .bottom => rest[1]?.getD first
  | .left => rest[2]?.getD (rest[0]?.getD first)

namespace BoxValue

variable (v : BoxValue)

def text : Bytes :=
  v.lead ++ (v.first.text ++ (v.rest.flatMap (fun r => r.1.bytes ++ r.2.text) ++ v.trail))

def components : List BoxComponent := v.first :: v.rest.map Prod.snd

/-- The component that CSS assigns to a side. -/
def side (s : BoxSide) : BoxComponent := boxPick v.first (v.rest.map Prod.snd) s

end BoxValue

/-- What the layout reads for a side after the shorthand. -/
def shorthandSource (strtod : StrToD) (box : BoxShorthand) (v : Bytes) (calcs : MiniCalcs)
    (side : BoxSide) : SideSource :=
  let (lens, calcs) := parseLenBox4Node strtod box.field v calcs
  sideSource (box.field side) (lens.side side) calcs

/-- What it reads after the longhands. -/
def longhandSource (strtod : StrToD) (box : BoxShorthand) (val : BoxSide → Bytes)
    (calcs : MiniCalcs) (side : BoxSide) : SideSource :=
  let (lens, calcs) := setLonghands strtod box.field val calcs
  sideSource (box.field side) (lens.side side) calcs

/-! ## Setting one field -/

section Store

variable {field field' : CalcField} {expr : Bytes}

theorem find_replaceCalc (calcs : MiniCalcs) :
    miniCalcFind field' (replaceCalc field expr calcs) =
      if field' = field ∧ calcs.any (fun c => c.1 = field) then some expr
      else miniCalcFind field' calcs := by
  induction calcs with
  | nil => simp [replaceCalc]
  | cons c calcs ih =>
    rw [replaceCalc]
    by_cases hc : c.1 = field
    · rw [if_pos hc]
      by_cases hfield : field' = field
      · simp [miniCalcFind, hc, hfield]
      · simp [miniCalcFind, hc, hfield, Ne.symm hfield]
    · rw [if_neg hc]
      by_cases hfield : c.1 = field'
      · subst hfield
        simp [miniCalcFind, hc]
      · have hskip : ∀ l : MiniCalcs, miniCalcFind field' (c :: l) = miniCalcFind field' l := by
          intro l
          simp [miniCalcFind, hfield]
        rw [hskip, hskip, ih, List.any_cons, decide_eq_false hc, Bool.false_or]

theorem find_miniCalcSet (calcs : MiniCalcs) :
    miniCalcFind field' (miniCalcSet field expr calcs) =
      if field' = field then some expr else miniCalcFind field' calcs := by
  rw [miniCalcSet]
  split_ifs with hany hfield hfield
  · rw [find_replaceCalc, if_pos ⟨hfield, hany⟩]
  · rw [find_replaceCalc, if_neg fun h => hfield h.1]
  · simp [miniCalcFind, hfield]
  · simp [miniCalcFind, Ne.symm hfield]

end Store

section Field

variable (strtod : StrToD) {field field' : CalcField}

/-- What a side is read from when a text is set for it. -/
def readSource (val : Bytes) : SideSource :=
  if deferred val then .expression (some val) else .length (parseLength strtod val)

theorem parseLength_unit (val : Bytes) : (parseLength strtod val).unit ≠ .calcSentinel := by
  have hunits : ∀ u ∈ lenUnits, u.2 ≠ .calcSentinel := by decide
  rw [parseLength]
  split_ifs with hnil
  · exact LenUnit.noConfusion
  · dsimp only
    split_ifs
    · exact LenUnit.noConfusion
    · split
      · exact hunits _ (List.mem_of_find?_eq_some ‹_›)
      · exact LenUnit.noConfusion

theorem deferred_nil : deferred [] = false := by decide

/-- The side that a text is set for is read from it. -/
theorem source_setLenField (val : Bytes) (calcs : MiniCalcs) :
    sideSource field (setLenField strtod field val calcs).1
      (setLenField strtod field val calcs).2 = readSource strtod val := by
  rw [setLenField, readSource]
  split_ifs with hnil hdeferred hdeferred
  · rw [hnil, deferred_nil] at hdeferred
    cases hdeferred
  · exact if_neg (parseLength_unit strtod val)
  · rw [sideSource, if_pos rfl, find_miniCalcSet, if_pos rfl]
  · exact if_neg (parseLength_unit strtod val)

/-- The other fields keep their expressions. -/
theorem find_setLenField (hne : field' ≠ field) (val : Bytes) (calcs : MiniCalcs) :
    miniCalcFind field' (setLenField strtod field val calcs).2 = miniCalcFind field' calcs := by
  rw [setLenField]
  split_ifs
  · rfl
  · rw [find_miniCalcSet, if_neg hne]
  · rfl

theorem source_setLenField_of_ne (hne : field' ≠ field) (len : MiniLength) (val : Bytes)
    (calcs : MiniCalcs) :
    sideSource field' len (setLenField strtod field val calcs).2 = sideSource field' len calcs := by
  rw [sideSource, sideSource, find_setLenField strtod hne]

/-- Elsewhere the length of the text stands for what is stored there. -/
theorem source_copied (val : Bytes) (calcs calcs' : MiniCalcs) :
    sideSource field' (setLenField strtod field val calcs).1 calcs' =
      if deferred val then .expression (miniCalcFind field' calcs') else readSource strtod val := by
  rw [setLenField, readSource]
  split_ifs with hnil hdeferred hdeferred
  · rw [hnil, deferred_nil] at hdeferred
    cases hdeferred
  · exact if_neg (parseLength_unit strtod val)
  · exact if_pos rfl
  · exact if_neg (parseLength_unit strtod val)

end Field

/-! ## What the shorthand sets -/

@[simp] theorem BoxShorthand.field_inj (box : BoxShorthand) {a b : BoxSide} :
    box.field a = box.field b ↔ a = b := by
  cases box <;> cases a <;> cases b <;> decide

/-- The pieces that a value is split into. -/
def boxPieces (v : Bytes) : List Bytes := (tokens isBoxSpace (v.take 255)).take 4

/-- The piece that a side is set to, and the empty text if there is none. -/
def boxPiece (pieces : List Bytes) (side : BoxSide) : Bytes :=
  boxPick (pieces.headD []) pieces.tail side

/-- The length of a side is copied, and nothing is stored for it. -/
def Copied (pieces : List Bytes) (side : BoxSide) : Prop :=
  side = .bottom ∧ pieces.length = 2 ∧ deferred (pieces.headD []) = true

instance (pieces : List Bytes) (side : BoxSide) : Decidable (Copied pieces side) :=
  inferInstanceAs (Decidable (_ ∧ _ ∧ _))

section Source

variable (strtod : StrToD) (box : BoxShorthand) (calcs : MiniCalcs)

theorem longhandSource_eq (val : BoxSide → Bytes) (side : BoxSide) :
    longhandSource strtod box val calcs side = readSource strtod (val side) := by
  cases side <;>
    simp [longhandSource, setLonghands, BoxLengths.side, source_setLenField,
      source_setLenField_of_ne]

/-- Two pieces set three sides, and the length of the first is copied for the bottom. -/
theorem shorthandSource_eq (v : Bytes) (side : BoxSide) :
    shorthandSource strtod box v calcs side =
      if Copied (boxPieces v) side then .expression (miniCalcFind (box.field .bottom) calcs)
      else readSource strtod (boxPiece (boxPieces v) side) := by
  rw [shorthandSource, parseLenBox4Node, ← boxPieces]
  rcases boxPieces v with _ | ⟨a, _ | ⟨b, _ | ⟨c, _ | ⟨d, more⟩⟩⟩⟩
  · cases side <;>
      simp [Copied, boxPiece, boxPick, readSource, deferred_nil, parseLength, sideSource,
        BoxLengths.side]
  · cases side <;>
      simp [Copied, boxPiece, boxPick, BoxLengths.side, source_setLenField,
        source_setLenField_of_ne]
  · cases side
    case bottom =>
      simp [Copied, boxPiece, boxPick, BoxLengths.side, source_copied, find_setLenField]
    all_goals
      simp [Copied, boxPiece, boxPick, BoxLengths.side, source_setLenField,
        source_setLenField_of_ne]
  · cases side <;>
      simp [Copied, boxPiece, boxPick, BoxLengths.side, source_setLenField,
        source_setLenField_of_ne]
  · cases side <;>
      simp [Copied, boxPiece, boxPick, BoxLengths.side, source_setLenField,
        source_setLenField_of_ne]

end Source

/-! ## The pieces of a value -/

theorem paren_mem_of_closedCall {depth : Nat} {s : Bytes} (h : closedCall depth s = true) :
    41 ∈ s := by
  induction s generalizing depth with
  | nil =>
    unfold closedCall at h
    cases h
  | cons c s ih =>
    unfold closedCall at h
    split_ifs at h with hopen hclose
    · exact List.mem_cons_of_mem _ (ih h)
    · rw [hclose]
      exact List.mem_cons_self
    · exact List.mem_cons_of_mem _ (ih h)

theorem solid_of_any {t : Bytes} (h : t.any isBoxSpace = false) :
    ∀ b ∈ t, isBoxSpace b = false :=
  fun b hb => Bool.eq_false_iff.2 (List.any_eq_false.1 h b hb)

/-- A component is not only white space. -/
theorem BoxComponent.exists_mem (c : BoxComponent) : ∃ b ∈ c.text, isBoxSpace b = false := by
  rcases c.shape with ⟨-, hplain⟩ | ⟨-, hclosed⟩
  · obtain ⟨b, hb⟩ := List.exists_mem_of_ne_nil _ c.nonempty
    exact ⟨b, hb, solid_of_any hplain b hb⟩
  · exact ⟨41, paren_mem_of_closedCall hclosed, rfl⟩

/-- A component without white space. -/
def BoxComponent.Solid (c : BoxComponent) : Prop := ∀ b ∈ c.text, isBoxSpace b = false

/-- Only an expression has white space. -/
theorem BoxComponent.deferred_of_not_solid {c : BoxComponent} (h : ¬ c.Solid) :
    deferred c.text = true := by
  rcases c.shape with ⟨-, hplain⟩ | ⟨hcall, -⟩
  · exact absurd (solid_of_any hplain) h
  · rw [deferred, hcall, Bool.or_true]

theorem boxPick_map {α β : Type} (f : α → β) (first : α) (rest : List α) (s : BoxSide) :
    boxPick (f first) (rest.map f) s = f (boxPick first rest s) := by
  rcases rest with _ | ⟨a, _ | ⟨b, _ | ⟨c, rest⟩⟩⟩ <;> cases s <;> rfl

theorem boxPick_mem {α : Type} (first : α) (rest : List α) (s : BoxSide) :
    boxPick first rest s ∈ first :: rest := by
  rcases rest with _ | ⟨a, _ | ⟨b, _ | ⟨c, rest⟩⟩⟩ <;> cases s <;> simp [boxPick]

theorem exists_boxPick {α : Type} {first x : α} {rest : List α} (hfew : rest.length ≤ 3)
    (hx : x ∈ first :: rest) : ∃ s, boxPick first rest s = x := by
  obtain ⟨i, hi, rfl⟩ := List.mem_iff_getElem.1 hx
  rw [List.length_cons] at hi
  obtain hi | hi | hi | hi : i = 0 ∨ i = 1 ∨ i = 2 ∨ i = 3 := by omega
  · exact ⟨.top, by simp [boxPick, hi]⟩
  · have hlen : 0 < rest.length := by omega
    exact ⟨.right, by simp [boxPick, hi, hlen]⟩
  · have hlen : 1 < rest.length := by omega
    exact ⟨.bottom, by simp [boxPick, hi, hlen]⟩
  · have hlen : 2 < rest.length := by omega
    exact ⟨.left, by simp [boxPick, hi, hlen]⟩

namespace BoxValue

variable (v : BoxValue)

theorem tokens_text :
    tokens isBoxSpace v.text = v.components.flatMap fun c => tokens isBoxSpace c.text := by
  have hrest : ∀ (rest : List (BoxGap × BoxComponent)) (a : Bytes),
      tokens isBoxSpace (a ++ rest.flatMap fun r => r.1.bytes ++ r.2.text) =
        tokens isBoxSpace a ++
          (rest.map Prod.snd).flatMap fun c => tokens isBoxSpace c.text := by
    intro rest
    induction rest with
    | nil =>
      intro a
      simp
    | cons r rest ih =>
      intro a
      rw [List.flatMap_cons, List.append_assoc, tokens_append_gap r.1.nonempty (List.all_eq_true.1 r.1.all_space), ih,
        List.map_cons, List.flatMap_cons]
  rw [text, tokens_append_of_space (List.all_eq_true.1 v.lead_space), ← List.append_assoc,
    tokens_append_trail _ (List.all_eq_true.1 v.trail_space), hrest, components, List.flatMap_cons]

theorem length_components : v.components.length = v.rest.length + 1 := by
  rw [components, List.length_cons, List.length_map]

/-- Every component gives a piece. -/
theorem length_components_le : v.components.length ≤ (tokens isBoxSpace v.text).length := by
  have hall : ∀ cs : List BoxComponent,
      cs.length ≤ (cs.flatMap fun c => tokens isBoxSpace c.text).length := by
    intro cs
    induction cs with
    | nil => exact Nat.le_refl 0
    | cons c cs ih =>
      obtain ⟨b, hb, hsolid⟩ := c.exists_mem
      have hpos := List.length_pos_of_ne_nil (tokens_ne_nil hb hsolid)
      rw [List.flatMap_cons, List.length_append, List.length_cons]
      omega
  rw [tokens_text]
  exact hall _

/-- Components without white space are the pieces. -/
theorem pieces_of_solid (hshort : v.text.length ≤ 255) (hsolid : ∀ c ∈ v.components, c.Solid) :
    boxPieces v.text = v.components.map BoxComponent.text := by
  have hall : ∀ cs : List BoxComponent, (∀ c ∈ cs, c.Solid) →
      (cs.flatMap fun c => tokens isBoxSpace c.text) = cs.map BoxComponent.text := by
    intro cs hcs
    induction cs with
    | nil => rfl
    | cons c cs ih =>
      rw [List.forall_mem_cons] at hcs
      rw [List.flatMap_cons, tokens_alone c.nonempty hcs.1, ih hcs.2]
      rfl
  have hlen := v.length_components
  have hfew := v.few
  rw [boxPieces, List.take_of_length_le hshort, tokens_text, hall _ hsolid,
    List.take_of_length_le (by rw [List.length_map]; omega)]

theorem boxPiece_components (s : BoxSide) :
    boxPiece (v.components.map BoxComponent.text) s = (v.side s).text := by
  rw [boxPiece, components, List.map_cons]
  exact boxPick_map BoxComponent.text v.first (v.rest.map Prod.snd) s

/-- Each component is for some side. -/
theorem exists_side {c : BoxComponent} (hc : c ∈ v.components) : ∃ s, v.side s = c := by
  rw [components] at hc
  exact exists_boxPick (by rw [List.length_map]; exact v.few) hc

theorem side_bottom (h : v.rest.length ≤ 1) : v.side .bottom = v.first := by
  rw [side, boxPick, List.getElem?_eq_none (by rw [List.length_map]; exact h)]
  rfl

end BoxValue

/-! ## When the shorthand does what the longhands do -/

/-- Two texts that are read as the same length or expression. -/
def ReadsSame (strtod : StrToD) (a b : Bytes) : Prop :=
  a = b ∨
    deferred a = false ∧ deferred b = false ∧ parseLength strtod a = parseLength strtod b

theorem readSource_eq_iff (strtod : StrToD) (a b : Bytes) :
    readSource strtod a = readSource strtod b ↔ ReadsSame strtod a b := by
  rw [readSource, readSource]
  constructor
  · intro h
    split_ifs at h with ha hb hb
    · exact .inl (Option.some.inj (SideSource.expression.inj h))
    · exact .inr ⟨Bool.eq_false_iff.2 ha, Bool.eq_false_iff.2 hb, SideSource.length.inj h⟩
  · rintro (rfl | ⟨ha, hb, hlen⟩)
    · rfl
    · rw [if_neg (ne_of_eq_of_ne ha Bool.false_ne_true),
        if_neg (ne_of_eq_of_ne hb Bool.false_ne_true), hlen]

/-- Up to 255 bytes a value is kept when no expression has white space, and when, with two
components of which the first is an expression, it is what the bottom side already has.  Of a
longer value the first 255 bytes have to give each side what reads as its component. -/
def BoxValue.Kept (strtod : StrToD) (stored : Option Bytes) (v : BoxValue) : Prop :=
  if v.text.length ≤ 255 then
    (∀ c ∈ v.components, c.Solid) ∧
      ¬ (v.components.length = 2 ∧ deferred v.first.text = true ∧ stored ≠ some v.first.text)
  else
    ∀ s, if Copied (boxPieces v.text) s then
        deferred (v.side s).text = true ∧ stored = some (v.side s).text
      else ReadsSame strtod (boxPiece (boxPieces v.text) s) (v.side s).text

section Settled

variable (strtod : StrToD) (box : BoxShorthand) (calcs : MiniCalcs) (v : BoxValue)

/-- Each side is resolved as after its longhand. -/
def AsLonghands : Prop :=
  ∀ s, shorthandSource strtod box v.text calcs s =
    longhandSource strtod box (fun s => (v.side s).text) calcs s

theorem asLonghands_iff_pieces :
    AsLonghands strtod box calcs v ↔
      ∀ s, if Copied (boxPieces v.text) s then
          deferred (v.side s).text = true ∧
            miniCalcFind (box.field .bottom) calcs = some (v.side s).text
        else ReadsSame strtod (boxPiece (boxPieces v.text) s) (v.side s).text := by
  refine forall_congr' fun s => ?_
  rw [shorthandSource_eq, longhandSource_eq]
  split_ifs with hcopied
  · rw [readSource]
    split_ifs with hdeferred
    · simp [hdeferred]
    · simp [hdeferred]
  · exact readSource_eq_iff strtod _ _

/-- A side that a piece is for has no white space of its component. -/
theorem solid_of_readsAs {c : BoxComponent} {t : Bytes} (ht : ∀ b ∈ t, isBoxSpace b = false)
    (h : ReadsSame strtod t c.text) : c.Solid := by
  by_contra hnot
  rcases h with rfl | ⟨-, hdeferred, -⟩
  · exact hnot ht
  · rw [c.deferred_of_not_solid hnot] at hdeferred
    cases hdeferred

theorem boxPiece_solid (t : Bytes) (s : BoxSide) :
    ∀ b ∈ boxPiece (boxPieces t) s, isBoxSpace b = false := by
  have hpieces : ∀ p ∈ boxPieces t, ∀ b ∈ p, isBoxSpace b = false :=
    fun p hp b hb => (mem_tokens (List.mem_of_mem_take hp) hb).2
  rw [boxPiece]
  cases h : boxPieces t with
  | nil => cases s <;> exact fun _ hb => absurd hb List.not_mem_nil
  | cons p ps =>
    rw [h] at hpieces
    exact hpieces _ (boxPick_mem p ps s)

/-- The components of a short value that is read as it stands have no white space. -/
theorem solid_of_asLonghands (hshort : v.text.length ≤ 255)
    (h : AsLonghands strtod box calcs v) : ∀ c ∈ v.components, c.Solid := by
  rw [asLonghands_iff_pieces] at h
  have hside : ∀ s, ¬ Copied (boxPieces v.text) s → (v.side s).Solid := by
    intro s hs
    have hreads := h s
    rw [if_neg hs] at hreads
    exact solid_of_readsAs strtod (boxPiece_solid v.text s) hreads
  intro c hc
  obtain ⟨s, rfl⟩ := v.exists_side hc
  by_cases hs : Copied (boxPieces v.text) s
  · -- With two pieces there are at most two components, and the bottom has that of the top.
    obtain ⟨rfl, htwo, -⟩ := hs
    have hle := v.length_components_le
    rw [boxPieces, List.take_of_length_le hshort, List.length_take] at htwo
    rw [v.length_components] at hle
    rw [v.side_bottom (by omega)]
    exact hside .top fun h => BoxSide.noConfusion h.1
  · exact hside s hs

theorem asLonghands_iff :
    AsLonghands strtod box calcs v ↔
      v.Kept strtod (miniCalcFind (box.field .bottom) calcs) := by
  rw [BoxValue.Kept]
  split_ifs with hshort
  · have hcopied : ∀ s, (∀ c ∈ v.components, c.Solid) → (Copied (boxPieces v.text) s ↔
        s = .bottom ∧ v.components.length = 2 ∧ deferred v.first.text = true) := by
      intro s hsolid
      rw [Copied, v.pieces_of_solid hshort hsolid, List.length_map]
      rfl
    have hbottom : v.components.length = 2 → v.side .bottom = v.first := by
      intro htwo
      rw [v.length_components] at htwo
      exact v.side_bottom (by omega)
    constructor
    · intro h
      have hsolid := solid_of_asLonghands strtod box calcs v hshort h
      refine ⟨hsolid, ?_⟩
      rintro ⟨htwo, hdeferred, hstored⟩
      have hread := (asLonghands_iff_pieces strtod box calcs v).1 h .bottom
      rw [if_pos ((hcopied _ hsolid).2 ⟨rfl, htwo, hdeferred⟩), hbottom htwo] at hread
      exact hstored hread.2
    · rintro ⟨hsolid, hstale⟩
      rw [asLonghands_iff_pieces]
      intro s
      split_ifs with hs
      · obtain ⟨rfl, htwo, hdeferred⟩ := (hcopied s hsolid).1 hs
        rw [hbottom htwo]
        exact ⟨hdeferred, by_contra fun hne => hstale ⟨htwo, hdeferred, hne⟩⟩
      · rw [v.pieces_of_solid hshort hsolid, v.boxPiece_components]
        exact .inl rfl
  · exact asLonghands_iff_pieces strtod box calcs v

/-- The shorthand resolves each side as its longhand does, in every context of the layout,
exactly on the values that are kept. -/
theorem parseLenBox4Node_iff :
    (AsLonghands strtod box calcs v ↔
        v.Kept strtod (miniCalcFind (box.field .bottom) calcs)) ∧
      (v.Kept strtod (miniCalcFind (box.field .bottom) calcs) → ∀ m vars ctx s,
        resolveField m vars ctx (shorthandSource strtod box v.text calcs s) =
          resolveField m vars ctx (readSource strtod (v.side s).text)) := by
  have h := asLonghands_iff strtod box calcs v
  refine ⟨h, fun hkept m vars ctx s => ?_⟩
  rw [h.2 hkept s, longhandSource_eq]

end Settled

/-- Digits and nothing else. -/
def decimalDigits : StrToD := fun s => (atof (s.takeWhile isDecimal), s.dropWhile isDecimal)

def calcComponent : BoxComponent where
  text := ascii "calc(1px)"
  shape := .inr (by decide)

def lengthComponent : BoxComponent where
  text := ascii "2px"
  shape := .inl (by decide)

/-- `calc(1px) 2px` -/
def calcAndLength : BoxValue where
  first := calcComponent
  rest := [(⟨[32], by decide, rfl⟩, lengthComponent)]

/-- Of `margin: calc(1px) 2px` the bottom is 0px, where `margin-bottom: calc(1px)` makes 1px. -/
theorem bottom_not_stored :
    resolveField noMath id {}
        (shorthandSource decimalDigits .margin calcAndLength.text [] .bottom) = 0 ∧
      resolveField noMath id {} (longhandSource decimalDigits .margin
        (fun s => (calcAndLength.side s).text) [] .bottom) = 1 := by
  decide +kernel

end TinyFramework.Css
