/-
  Layout/BlockFlow.lean --- the two paths of block layout (`mini_dom.c`).

  A container that clips its overflow, or has floats, is laid out by `layout_block_children`;
  any other one by the block branch of `layout_node`.  Both put the children one below the
  other, their adjoining margins collapsed, and both call `layout_node` for each child, which
  adds the top margin.  Lengths are exact.
-/
import Mathlib.Data.List.Chain
import Mathlib.Tactic.Linarith
import Mathlib.Tactic.Ring
import TinyFramework.Foundation.GrowingArray

set_option autoImplicit false

namespace TinyFramework.Layout

open Foundation

/-! ## Children -/

/-- What `layout_node` makes of a child: its size and margins. -/
structure Laid where
  w : ℚ
  h : ℚ
  mTop : ℚ
  mRight : ℚ
  mBottom : ℚ
  mLeft : ℚ
  deriving DecidableEq

/-- An element.  `lay` is its layout in an available width and height; `oldTop` is the top
margin that an earlier layout left, 0 before the first; `parentTop` is the top margin resolved
in a content width with the font of the container, where the style sets one; `data-clear` wants
left or right floats, or neither, cleared. -/
structure FlowElem where
  floatLeft : Option Bool
  clear : Option (Bool × Bool)
  oldTop : ℚ
  topSet : Bool
  parentTop : ℚ → ℚ
  lineHeight : ℚ
  lay : ℚ → ℚ → Laid

/-- A child in the flow: a text of a height in each width, or an element. -/
inductive FlowKid where
  | text (height : ℚ → ℚ)
  | element (c : FlowElem)

/-- Where a child was put. -/
structure FlowPlace where
  absX : ℚ
  absY : ℚ
  deriving DecidableEq

def collapseMargins (m1 m2 : ℚ) : ℚ :=
  if m1 ≥ 0 ∧ m2 ≥ 0 then if m1 > m2 then m1 else m2
  else if m1 ≤ 0 ∧ m2 ≤ 0 then if m1 < m2 then m1 else m2
  else m1 + m2

/-! ## `layout_block_children` -/

structure MiniFloat where
  x : ℚ
  w : ℚ
  top : ℚ
  bottom : ℚ
  left : Bool
  deriving DecidableEq

/-- What the loop keeps. -/
structure FlowState where
  y : ℚ
  fl : List MiniFloat := []
  prevMBottom : ℚ := 0
  hasPrev : Bool := false

section BlockChildren

/- The content box of the container. -/
variable (contentLeft contentW contentH : ℚ)

/-- How far a float beside the cursor reaches in, from the left or from the right. -/
def reach (y : ℚ) (p : ℚ × ℚ) (f : MiniFloat) : ℚ × ℚ :=
  if f.bottom > y then
    if f.left then (if f.x + f.w > p.1 then f.x + f.w else p.1, p.2)
    else (p.1, if contentLeft + contentW - f.x > p.2 then contentLeft + contentW - f.x else p.2)
  else p

/-- `lo` and `ro`, of all floats. -/
def intrusions (y : ℚ) (fl : List MiniFloat) : ℚ × ℚ :=
  fl.foldl (reach contentLeft contentW y) (0, 0)

/-- The lowest bottom of the floats, from `y` down. -/
def lowest (y : ℚ) (fl : List MiniFloat) : ℚ :=
  fl.foldl (fun y f => if f.bottom > y then f.bottom else y) y

/-- `clear_to` -/
def clearTo (want : Bool × Bool) (y : ℚ) (fl : List MiniFloat) : ℚ :=
  fl.foldl (fun y f =>
    if ((want.1 && f.left) || (want.2 && !f.left)) ∧ f.bottom > y then f.bottom else y) y

/-- The floats that end above the cursor are dropped. -/
def dropPassed (y : ℚ) (i : Nat) (fl : List MiniFloat) : List MiniFloat :=
  match h : fl[i]? with
  | none => fl
  | some f => if f.bottom ≤ y then dropPassed y i (swapRemove fl i) else dropPassed y (i + 1) fl
termination_by fl.length - i
decreasing_by
  · have hi := (List.getElem?_eq_some_iff.1 h).1
    have := (swapRemove_perm h).length_eq
    rw [List.length_cons] at this
    omega
  · have hi := (List.getElem?_eq_some_iff.1 h).1
    omega

/-- The cursor goes below what the element wants cleared. -/
def clearFloats (c : FlowElem) (st : FlowState) : FlowState :=
  match c.clear with
  | none => st
  | some want =>
      let cleared := clearTo want st.y st.fl
      let y := if st.y < cleared then cleared else st.y
      { st with y, fl := dropPassed y 0 st.fl }

/-- A text at the cursor, in the width between the floats. -/
def placeText (height : ℚ → ℚ) (st : FlowState) : FlowPlace × FlowState :=
  let (lo, ro) := intrusions contentLeft contentW st.y st.fl
  (⟨contentLeft + lo, st.y⟩, { st with y := st.y + height (contentW - lo - ro) })

/-- A float goes to its side, below the others where it does not fit. -/
def placeFloat (side : Bool) (c : FlowElem) (st : FlowState) : FlowPlace × FlowState :=
  let laid := c.lay contentW 0
  let fw := laid.w + laid.mRight + laid.mLeft
  let fx := if side then contentLeft else contentLeft + contentW - fw
  let (lo, ro) := intrusions contentLeft contentW st.y st.fl
  let y :=
    if fx < contentLeft + lo ∨ fx + fw > contentLeft + contentW - ro then lowest 0 st.fl else st.y
  (⟨fx + laid.mLeft, y + laid.mTop⟩,
    { st with y, fl := st.fl ++ [⟨fx, fw, y, y + laid.h + laid.mTop + laid.mBottom, side⟩] })

/-- `cwid`: what is left of the width. -/
def cwid (p : ℚ × ℚ) : ℚ := if contentW - p.1 - p.2 < 0 then 0 else contentW - p.1 - p.2

/-- Where there is room for a block: between the floats, or below them when they leave no
width. -/
def blockRoom (st : FlowState) : (ℚ × ℚ) × ℚ :=
  let p := intrusions contentLeft contentW st.y st.fl
  if cwid contentW p ≤ 0 ∧ st.fl.length > 0 then
    (intrusions contentLeft contentW (lowest st.y st.fl) st.fl, lowest st.y st.fl)
  else (p, st.y)

/-- A block goes where there is room. -/
def placeBlock (c : FlowElem) (st : FlowState) : FlowPlace × FlowState :=
  let (p, y) := blockRoom contentLeft contentW st
  let y :=
    if st.hasPrev then y + (collapseMargins st.prevMBottom c.oldTop - st.prevMBottom)
    else y + c.oldTop
  let laid := c.lay (cwid contentW p) contentH
  (⟨contentLeft + p.1 + laid.mLeft, y + laid.mTop⟩,
    { st with y := y + laid.h, prevMBottom := laid.mBottom, hasPrev := true })

/-- A turn of the loop. -/
def flowTurn : FlowKid → FlowState → FlowPlace × FlowState
  | .text height, st => placeText contentLeft contentW height st
  | .element c, st =>
      let st := clearFloats c st
      match c.floatLeft with
      | some side =>
          if st.fl.length < 64 then placeFloat contentLeft contentW side c st
          else placeBlock contentLeft contentW contentH c st
      | none => placeBlock contentLeft contentW contentH c st

/-- The loop over the children: their places, and the state behind them. -/
def flowLoop : List FlowKid → FlowState → List FlowPlace × FlowState
  | [], st => ([], st)
  | c :: rest, st =>
      let turn := flowTurn contentLeft contentW contentH c st
      let more := flowLoop rest turn.2
      (turn.1 :: more.1, more.2)

/-- `layout_block_children`: the places of the children, and `out_bottom`. -/
def layoutBlockChildren (contentTop : ℚ) (kids : List FlowKid) : List FlowPlace × ℚ :=
  let out := flowLoop contentLeft contentW contentH kids { y := contentTop }
  let y := if out.2.hasPrev then out.2.y + out.2.prevMBottom else out.2.y
  (out.1, lowest y out.2.fl)

end BlockChildren

/-! ## The block branch of `layout_node` -/

/-- What the branch keeps between blocks. -/
structure BranchState where
  cy : ℚ
  prevMBottom : ℚ := 0
  hasPrev : Bool := false

/-- A turn for a block: the cursor goes up by the top margin that `layout_node` will add. -/
def branchTurn (contentLeft contentW contentH : ℚ) (c : FlowElem) (st : BranchState) :
    FlowPlace × BranchState :=
  let cMTop := if c.topSet then c.parentTop contentW else c.oldTop
  let cy :=
    if st.hasPrev then st.cy - st.prevMBottom + collapseMargins st.prevMBottom cMTop - cMTop
    else st.cy
  let laid := c.lay contentW contentH
  let actualH := if laid.h ≤ 0 then c.lineHeight else laid.h
  (⟨contentLeft + laid.mLeft, cy + laid.mTop⟩,
    { cy := cy + laid.mTop + actualH + laid.mBottom, prevMBottom := laid.mBottom, hasPrev := true })

def branchLoop (contentLeft contentW contentH : ℚ) : List FlowElem → BranchState → List FlowPlace
  | [], _ => []
  | c :: rest, st =>
      let turn := branchTurn contentLeft contentW contentH c st
      turn.1 :: branchLoop contentLeft contentW contentH rest turn.2

/-- The block branch for children that are all blocks, from the top of the content. -/
def layoutBlocks (contentLeft contentW contentH contentTop : ℚ) (kids : List FlowElem) :
    List FlowPlace :=
  branchLoop contentLeft contentW contentH kids { cy := contentTop }

/-! ## What the paths are to do -/

/-- A block in the flow, not a float, whose height is positive.  A top margin that the style
does not set is 0. -/
structure FlowBlock where
  clear : Option (Bool × Bool)
  oldTop : ℚ
  topSet : Bool
  parentTop : ℚ → ℚ
  lineHeight : ℚ
  lay : ℚ → ℚ → Laid
  h_pos : ∀ w h, 0 < (lay w h).h
  mTop_unset : topSet = false → ∀ w h, (lay w h).mTop = 0

def FlowBlock.elem (c : FlowBlock) : FlowElem where
  floatLeft := none
  clear := c.clear
  oldTop := c.oldTop
  topSet := c.topSet
  parentTop := c.parentTop
  lineHeight := c.lineHeight
  lay := c.lay

/-- The content box of a container; `layout_node` makes its sizes no less than 0. -/
structure ContentBox where
  left : ℚ
  top : ℚ
  w : ℚ
  h : ℚ
  w_nonneg : 0 ≤ w

section Spec

variable (box : ContentBox)

/-- The layout of a block in the box. -/
def FlowBlock.laid (c : FlowBlock) : Laid := c.lay box.w box.h

/-- The tops of the children by `layout_block_children`. -/
def childrenTops (kids : List FlowBlock) : List ℚ :=
  (layoutBlockChildren box.left box.w box.h box.top
    (kids.map fun c => .element c.elem)).1.map (·.absY)

/-- And by the block branch. -/
def branchTops (kids : List FlowBlock) : List ℚ :=
  (layoutBlocks box.left box.w box.h box.top (kids.map FlowBlock.elem)).map (·.absY)

/-- Both paths put each child at the same height, neighbours apart by collapsed margins. -/
structure PathsAgree (kids : List FlowBlock) : Prop where
  same : childrenTops box kids = branchTops box kids
  collapsed : (kids.zip (branchTops box kids)).IsChain fun a b =>
    b.2 - (a.2 + (a.1.laid box).h) = collapseMargins (a.1.laid box).mBottom (b.1.laid box).mTop

/-- Every child moves with the content. -/
def Shifts (d : ℚ) (kids : List FlowKid) : Prop :=
  (layoutBlockChildren (box.left + d) box.w box.h box.top kids).1.map (·.absX) =
    (layoutBlockChildren box.left box.w box.h box.top kids).1.map (·.absX + d)

end Spec

/-! ## When they do -/

/-- The top margin that the block branch collapses with the one before. -/
def FlowBlock.usedTop (contentW : ℚ) (c : FlowBlock) : ℚ :=
  if c.topSet then c.parentTop contentW else c.oldTop

/-- The first child has no top margin from an earlier layout.  Between two children, the margin
that the block branch uses collapses like the one that is laid out; and what
`layout_block_children` moves the cursor by, with the margins it has not collapsed, is that too. -/
structure MarginsMeet (box : ContentBox) (kids : List FlowBlock) : Prop where
  first : ∀ c ∈ kids.head?, c.oldTop = 0
  branch : kids.IsChain fun a b =>
    collapseMargins (a.laid box).mBottom (b.usedTop box.w) - b.usedTop box.w + (b.laid box).mTop =
      collapseMargins (a.laid box).mBottom (b.laid box).mTop
  children : kids.IsChain fun a b =>
    collapseMargins (a.laid box).mBottom b.oldTop - (a.laid box).mBottom - (a.laid box).mTop +
        (b.laid box).mTop =
      collapseMargins (a.laid box).mBottom (b.laid box).mTop

/-- No left float reaches below the cursor. -/
def LeftFree (st : FlowState) : Prop := ∀ f ∈ st.fl, f.left = true → f.bottom ≤ st.y

instance (st : FlowState) : Decidable (LeftFree st) :=
  inferInstanceAs (Decidable (∀ f ∈ st.fl, f.left = true → f.bottom ≤ st.y))

/-- Each child is laid out, when what it wants is cleared, with no left float beside it.  A float is
none the less asked for it: whether it fits, and with it its top, is computed from `lo`. -/
def LeftFreeRun (contentLeft contentW contentH : ℚ) : List FlowKid → FlowState → Prop
  | [], _ => True
  | c :: rest, st =>
      (match c with
        | .text _ => LeftFree st
        | .element c => LeftFree (clearFloats c st)) ∧
        LeftFreeRun contentLeft contentW contentH rest
          (flowTurn contentLeft contentW contentH c st).2

/-! ## Tops one below the other -/

section Tops

variable {α : Type} {gap gap' : α → α → ℚ} {y y' : ℚ} {a : α} {l : List α}

/-- The first top, and each next one by a step further down. -/
def topsFrom (gap : α → α → ℚ) : ℚ → α → List α → List ℚ
  | y, _, [] => [y]
  | y, a, b :: rest => y :: topsFrom gap (y + gap a b) b rest

theorem topsFrom_eq_iff :
    topsFrom gap y a l = topsFrom gap' y' a l ↔
      y = y' ∧ (a :: l).IsChain fun a b => gap a b = gap' a b := by
  induction l generalizing y y' a with
  | nil => simp [topsFrom]
  | cons b l ih =>
    rw [topsFrom, topsFrom, List.cons.injEq, ih, List.isChain_cons_cons]
    constructor
    · rintro ⟨rfl, hgap, hchain⟩
      exact ⟨rfl, add_left_cancel hgap, hchain⟩
    · rintro ⟨rfl, hgap, hchain⟩
      exact ⟨rfl, congrArg (y + ·) hgap, hchain⟩

/-- What holds of the distances of neighbours holds of the steps. -/
theorem topsFrom_isChain (R : α → α → ℚ → Prop) :
    ((a :: l).zip (topsFrom gap y a l)).IsChain (fun p q => R p.1 q.1 (q.2 - p.2)) ↔
      (a :: l).IsChain fun a b => R a b (gap a b) := by
  induction l generalizing y a with
  | nil => exact iff_of_true (.singleton _) (.singleton _)
  | cons b l ih =>
    rw [topsFrom, List.zip_cons_cons]
    cases l with
    | nil => simp [topsFrom]
    | cons c l =>
      rw [topsFrom, List.zip_cons_cons, List.isChain_cons_cons, ← List.zip_cons_cons, ← topsFrom,
        ih, List.isChain_cons_cons (l := c :: l)]
      rw [add_sub_cancel_left]

end Tops

/-! ## The paths without floats -/

section Plain

variable {box : ContentBox} {kids : List FlowBlock} {c : FlowBlock}

/-- Where `layout_block_children` puts the next block below the cursor. -/
def childTop (box : ContentBox) (c : FlowBlock) (st : FlowState) : ℚ :=
  (if st.hasPrev then st.y + (collapseMargins st.prevMBottom c.oldTop - st.prevMBottom)
    else st.y + c.oldTop) + (c.laid box).mTop

/-- And how far below the top of one block it puts the next. -/
def childStep (box : ContentBox) (a b : FlowBlock) : ℚ :=
  (a.laid box).h - (a.laid box).mTop +
    (collapseMargins (a.laid box).mBottom b.oldTop - (a.laid box).mBottom) + (b.laid box).mTop

theorem clearFloats_nil {e : FlowElem} {st : FlowState} (h : st.fl = []) :
    clearFloats e st = st := by
  unfold clearFloats
  cases e.clear with
  | none => rfl
  | some want =>
    obtain ⟨y, fl, prev, has⟩ := st
    obtain rfl : fl = [] := h
    have hdrop : dropPassed y 0 [] = [] := by
      rw [dropPassed]
      rfl
    simp [clearTo, hdrop]

theorem flowTurn_block (box : ContentBox) (c : FlowBlock) {st : FlowState} (h : st.fl = []) :
    ((flowTurn box.left box.w box.h (.element c.elem) st).1.absY = childTop box c st) ∧
      (flowTurn box.left box.w box.h (.element c.elem) st).2 =
        { y := childTop box c st - (c.laid box).mTop + (c.laid box).h, fl := [],
          prevMBottom := (c.laid box).mBottom, hasPrev := true } := by
  have hw : ¬ box.w < 0 := not_lt.2 box.w_nonneg
  have hturn : flowTurn box.left box.w box.h (.element c.elem) st =
      placeBlock box.left box.w box.h c.elem st := by
    rw [flowTurn, clearFloats_nil h]
    rfl
  rw [hturn]
  obtain ⟨y, fl, prev, has⟩ := st
  obtain rfl : fl = [] := h
  simp only [placeBlock, blockRoom, cwid, intrusions, List.foldl_nil, List.length_nil, gt_iff_lt,
    lt_self_iff_false, and_false, if_false, sub_zero, if_neg hw, childTop, FlowBlock.laid,
    FlowBlock.elem, add_sub_cancel_right, and_self]

theorem flowLoop_tops (st : FlowState) (h : st.fl = []) :
    (flowLoop box.left box.w box.h ((c :: kids).map fun c => .element c.elem) st).1.map (·.absY) =
      topsFrom (childStep box) (childTop box c st) c kids := by
  induction kids generalizing c st with
  | nil =>
    rw [List.map_singleton, flowLoop, flowLoop, topsFrom, List.map_singleton, (flowTurn_block box c h).1]
  | cons b kids ih =>
    obtain ⟨htop, hstate⟩ := flowTurn_block box c h
    rw [List.map_cons, flowLoop, List.map_cons, htop, hstate, ih _ rfl, topsFrom]
    congr 2
    simp only [childTop, childStep, if_true]
    ring

/-- The same of the block branch. -/
def branchTop (box : ContentBox) (c : FlowBlock) (st : BranchState) : ℚ :=
  (if st.hasPrev then
      st.cy - st.prevMBottom + collapseMargins st.prevMBottom (c.usedTop box.w) - c.usedTop box.w
    else st.cy) + (c.laid box).mTop

def branchStep (box : ContentBox) (a b : FlowBlock) : ℚ :=
  (a.laid box).h + collapseMargins (a.laid box).mBottom (b.usedTop box.w) - b.usedTop box.w +
    (b.laid box).mTop

theorem branchTurn_block (box : ContentBox) (c : FlowBlock) (st : BranchState) :
    ((branchTurn box.left box.w box.h c.elem st).1.absY = branchTop box c st) ∧
      (branchTurn box.left box.w box.h c.elem st).2 =
        { cy := branchTop box c st + (c.laid box).h + (c.laid box).mBottom,
          prevMBottom := (c.laid box).mBottom, hasPrev := true } := by
  have hh : ¬ (c.lay box.w box.h).h ≤ 0 := not_le.2 (c.h_pos _ _)
  refine ⟨rfl, ?_⟩
  unfold branchTurn
  dsimp only [FlowBlock.elem]
  rw [if_neg hh]
  rfl

theorem branchLoop_tops (st : BranchState) :
    (branchLoop box.left box.w box.h ((c :: kids).map FlowBlock.elem) st).map (·.absY) =
      topsFrom (branchStep box) (branchTop box c st) c kids := by
  induction kids generalizing c st with
  | nil =>
    rw [List.map_singleton, branchLoop, branchLoop, topsFrom, List.map_singleton,
      (branchTurn_block box c st).1]
  | cons b kids ih =>
    obtain ⟨htop, hstate⟩ := branchTurn_block box c st
    rw [List.map_cons, branchLoop, List.map_cons, htop, hstate, ih, topsFrom]
    congr 2
    simp only [branchTop, branchStep, if_true]
    ring

theorem pathsAgree_iff (box : ContentBox) (kids : List FlowBlock) :
    PathsAgree box kids ↔ MarginsMeet box kids := by
  cases kids with
  | nil => exact iff_of_true ⟨rfl, .nil⟩ ⟨fun c hc => (nomatch hc), .nil, .nil⟩
  | cons c kids =>
    have hsame : childrenTops box (c :: kids) =
        topsFrom (childStep box) (childTop box c { y := box.top }) c kids :=
      flowLoop_tops _ rfl
    have hbranch : branchTops box (c :: kids) =
        topsFrom (branchStep box) (branchTop box c { cy := box.top }) c kids :=
      branchLoop_tops _
    have hstart : childTop box c { y := box.top } = branchTop box c { cy := box.top } ↔
        c.oldTop = 0 := by
      simp only [childTop, branchTop, Bool.false_eq_true, if_false]
      constructor <;> intro h <;> linarith
    have hcollapsed : ((c :: kids).zip (branchTops box (c :: kids))).IsChain (fun a b =>
          b.2 - (a.2 + (a.1.laid box).h) =
            collapseMargins (a.1.laid box).mBottom (b.1.laid box).mTop) ↔
        (c :: kids).IsChain fun a b => branchStep box a b - (a.laid box).h =
          collapseMargins (a.laid box).mBottom (b.laid box).mTop := by
      rw [hbranch]
      simp only [← sub_sub]
      exact topsFrom_isChain fun (a b : FlowBlock) δ => δ - (a.laid box).h =
        collapseMargins (a.laid box).mBottom (b.laid box).mTop
    have hagree : PathsAgree box (c :: kids) ↔
        (c.oldTop = 0 ∧ (c :: kids).IsChain fun a b => childStep box a b = branchStep box a b) ∧
          (c :: kids).IsChain fun a b => branchStep box a b - (a.laid box).h =
            collapseMargins (a.laid box).mBottom (b.laid box).mTop := by
      rw [← hstart, ← topsFrom_eq_iff, ← hsame, ← hbranch, ← hcollapsed]
      exact ⟨fun h => ⟨h.same, h.collapsed⟩, fun h => ⟨h.1, h.2⟩⟩
    rw [hagree]
    constructor
    · rintro ⟨⟨hfirst, hsteps⟩, hbranches⟩
      refine ⟨fun b hb => Option.mem_some_iff.1 hb ▸ hfirst, hbranches.imp fun a b h => ?_,
        List.isChain_iff_getElem.2 fun i hi => ?_⟩
      · unfold branchStep at h
        linarith
      · have hstep := List.isChain_iff_getElem.1 hsteps i hi
        have hbranch := List.isChain_iff_getElem.1 hbranches i hi
        unfold childStep at hstep
        linarith
    · intro h
      refine ⟨⟨h.first c rfl, List.isChain_iff_getElem.2 fun i hi => ?_⟩,
        h.branch.imp fun a b h => ?_⟩
      · have hchild := List.isChain_iff_getElem.1 h.children i hi
        have hbranch := List.isChain_iff_getElem.1 h.branch i hi
        unfold childStep branchStep
        linarith
      · unfold branchStep
        linarith

end Plain

/-! ## Moving the content -/

section Shift

variable {left w h y d : ℚ} {fl : List MiniFloat} {st : FlowState} {kids : List FlowKid}

def MiniFloat.shift (d : ℚ) (f : MiniFloat) : MiniFloat := { f with x := f.x + d }

def FlowState.shift (d : ℚ) (st : FlowState) : FlowState :=
  { st with fl := st.fl.map (MiniFloat.shift d) }

def FlowPlace.shift (d : ℚ) (p : FlowPlace) : FlowPlace := { p with absX := p.absX + d }

/-- A right float reaches in from the right edge as far as before. -/
theorem reach_shift {f : MiniFloat} (hfree : f.left = true → f.bottom ≤ y) (p : ℚ × ℚ) :
    reach (left + d) w y p (f.shift d) = reach left w y p f := by
  by_cases hpassed : f.bottom > y
  · have hleft : f.left = false :=
      Bool.eq_false_iff.2 fun h => absurd hpassed (not_lt.2 (hfree h))
    have hedge : left + d + w - (f.x + d) = left + w - f.x := by ring
    unfold reach MiniFloat.shift
    rw [hedge, hleft]
    rfl
  · exact (if_neg hpassed).trans (if_neg hpassed).symm

theorem intrusions_shift (left w d : ℚ) (hfree : ∀ f ∈ fl, f.left = true → f.bottom ≤ y) :
    intrusions (left + d) w y (fl.map (MiniFloat.shift d)) = intrusions left w y fl := by
  unfold intrusions
  generalize ((0, 0) : ℚ × ℚ) = p
  induction fl generalizing p with
  | nil => rfl
  | cons f fl ih =>
    obtain ⟨hf, hfl⟩ := List.forall_mem_cons.1 hfree
    rw [List.map_cons, List.foldl_cons, List.foldl_cons, reach_shift hf, ih hfl]

theorem lowest_shift : lowest y (fl.map (MiniFloat.shift d)) = lowest y fl := List.foldl_map

theorem clearTo_shift (want : Bool × Bool) :
    clearTo want y (fl.map (MiniFloat.shift d)) = clearTo want y fl := List.foldl_map

theorem le_lowest (y : ℚ) (fl : List MiniFloat) :
    y ≤ lowest y fl ∧ ∀ f ∈ fl, f.bottom ≤ lowest y fl := by
  induction fl generalizing y with
  | nil => exact ⟨le_refl y, fun f hf => nomatch hf⟩
  | cons f fl ih =>
    obtain ⟨hy, hfl⟩ := ih (if f.bottom > y then f.bottom else y)
    have hmax : y ≤ (if f.bottom > y then f.bottom else y) ∧
        f.bottom ≤ if f.bottom > y then f.bottom else y := by
      split_ifs with h
      · exact ⟨le_of_lt h, le_refl _⟩
      · exact ⟨le_refl y, not_lt.1 h⟩
    exact ⟨hmax.1.trans hy, List.forall_mem_cons.2 ⟨hmax.2.trans hy, hfl⟩⟩

theorem dropPassed_none {i : Nat} (h : fl[i]? = none) : dropPassed y i fl = fl := by
  rw [dropPassed]
  split
  · rfl
  · next f hsome => cases h.symm.trans hsome

theorem dropPassed_some {i : Nat} {f : MiniFloat} (h : fl[i]? = some f) :
    dropPassed y i fl =
      if f.bottom ≤ y then dropPassed y i (swapRemove fl i) else dropPassed y (i + 1) fl := by
  rw [dropPassed]
  split
  · next hnone => cases h.symm.trans hnone
  · next g hsome => rw [Option.some.inj (h.symm.trans hsome)]

theorem dropPassed_shift (y : ℚ) (i : Nat) (fl : List MiniFloat) :
    dropPassed y i (fl.map (MiniFloat.shift d)) = (dropPassed y i fl).map (MiniFloat.shift d) := by
  fun_induction dropPassed y i fl with
  | case1 i fl hnone => exact dropPassed_none (by rw [List.getElem?_map, hnone]; rfl)
  | case2 i fl f hsome hpassed ih =>
    have hshift : (fl.map (MiniFloat.shift d))[i]? = some (f.shift d) := by
      rw [List.getElem?_map, hsome]
      rfl
    rw [dropPassed_some hshift, swapRemove_map, ← ih]
    exact if_pos hpassed
  | case3 i fl f hsome hpassed ih =>
    have hshift : (fl.map (MiniFloat.shift d))[i]? = some (f.shift d) := by
      rw [List.getElem?_map, hsome]
      rfl
    rw [dropPassed_some hshift, ← ih]
    exact if_neg hpassed

theorem clearFloats_shift (c : FlowElem) :
    clearFloats c (st.shift d) = (clearFloats c st).shift d := by
  unfold clearFloats
  cases c.clear with
  | none => rfl
  | some want => simp only [FlowState.shift, clearTo_shift, dropPassed_shift]

theorem LeftFree.mono (h : LeftFree st) (hy : st.y ≤ y) :
    ∀ f ∈ st.fl, f.left = true → f.bottom ≤ y := fun f hf hleft => (h f hf hleft).trans hy

theorem placeText_shift {height : ℚ → ℚ} (h : LeftFree st) :
    placeText (left + d) w height (st.shift d) =
      ((placeText left w height st).1.shift d, (placeText left w height st).2.shift d) := by
  have hreach := intrusions_shift left w d (h.mono (le_refl st.y))
  simp only [placeText, FlowState.shift, hreach, FlowPlace.shift, add_right_comm]

/-- A float fits beside the others there as here. -/
theorem fits_shift (fx fw lo ro : ℚ) :
    (fx + d < left + d + lo ∨ fx + d + fw > left + d + w - ro) ↔
      (fx < left + lo ∨ fx + fw > left + w - ro) := by
  refine or_congr ?_ ?_ <;> constructor <;> intro h <;> linarith

theorem placeFloat_shift {side : Bool} {c : FlowElem} (h : LeftFree st) :
    placeFloat (left + d) w side c (st.shift d) =
      ((placeFloat left w side c st).1.shift d, (placeFloat left w side c st).2.shift d) := by
  have hreach := intrusions_shift left w d (h.mono (le_refl st.y))
  have hfx : ∀ fw, (if side then left + d else left + d + w - fw) =
      (if side then left else left + w - fw) + d := by
    intro fw
    split_ifs
    · rfl
    · ring
  simp only [placeFloat, FlowState.shift, hreach, hfx, lowest_shift, fits_shift]
  simp only [FlowPlace.shift, List.map_append, List.map_cons, List.map_nil, MiniFloat.shift,
    add_right_comm]

theorem blockRoom_shift (hfree : LeftFree st) :
    blockRoom (left + d) w (st.shift d) = blockRoom left w st := by
  have hreach := intrusions_shift left w d (hfree.mono (le_refl st.y))
  have hbelow := intrusions_shift left w d
    (hfree.mono (le_lowest st.y st.fl).1)
  simp only [blockRoom, FlowState.shift, hreach, hbelow, List.length_map, lowest_shift]

theorem placeBlock_shift {c : FlowElem} (hfree : LeftFree st) :
    placeBlock (left + d) w h c (st.shift d) =
      ((placeBlock left w h c st).1.shift d, (placeBlock left w h c st).2.shift d) := by
  rw [placeBlock, blockRoom_shift hfree, placeBlock]
  generalize blockRoom left w st = room
  simp only [FlowPlace.shift, FlowState.shift, add_right_comm]
  rfl

theorem flowTurn_shift {c : FlowKid} (hfree : match c with
      | .text _ => LeftFree st
      | .element c => LeftFree (clearFloats c st)) :
    flowTurn (left + d) w h c (st.shift d) =
      ((flowTurn left w h c st).1.shift d, (flowTurn left w h c st).2.shift d) := by
  cases c with
  | text height => exact placeText_shift hfree
  | element c =>
    have hlength : ((clearFloats c st).shift d).fl.length = (clearFloats c st).fl.length :=
      List.length_map _
    unfold flowTurn
    dsimp only
    rw [clearFloats_shift, hlength]
    cases c.floatLeft with
    | none => exact placeBlock_shift hfree
    | some side =>
      dsimp only
      split_ifs
      · exact placeFloat_shift hfree
      · exact placeBlock_shift hfree

theorem flowLoop_shift (hfree : LeftFreeRun left w h kids st) :
    (flowLoop (left + d) w h kids (st.shift d)).1 =
      (flowLoop left w h kids st).1.map (FlowPlace.shift d) := by
  induction kids generalizing st with
  | nil => rfl
  | cons c kids ih =>
    obtain ⟨hc, hrest⟩ := hfree
    rw [flowLoop, flowLoop, flowTurn_shift hc, List.map_cons, ← ih hrest]

end Shift

/-- The two paths agree, neighbours apart by collapsed margins, exactly when the margins of
neighbours meet; and a list all of whose children are laid out with no left float beside them
moves with the content. -/
theorem blockFlow_paths (box : ContentBox) (kids : List FlowBlock) (flow : List FlowKid) :
    (PathsAgree box kids ↔ MarginsMeet box kids) ∧
      (LeftFreeRun box.left box.w box.h flow { y := box.top } → ∀ d, Shifts box d flow) := by
  refine ⟨pathsAgree_iff box kids, fun hfree d => ?_⟩
  have hstart : FlowState.shift d { y := box.top } = { y := box.top } := rfl
  have hloop := flowLoop_shift (d := d) hfree
  rw [hstart] at hloop
  unfold Shifts layoutBlockChildren
  dsimp only
  rw [hloop, List.map_map]
  rfl

/-! ## Two lists -/

/-- A page of 800 pixels at the origin. -/
def pageBox : ContentBox where
  left := 0
  top := 0
  w := 800
  h := 600
  w_nonneg := by decide

/-- A block of 50 pixels, laid out for the first time. -/
def plainBlock (mTop mBottom : ℚ) : FlowBlock where
  clear := none
  oldTop := 0
  topSet := true
  parentTop := fun _ => mTop
  lineHeight := 18
  lay := fun _ _ => ⟨800, 50, mTop, 0, mBottom, 0⟩
  h_pos := fun _ _ => (by decide : (0 : ℚ) < 50)
  mTop_unset := fun h => nomatch h

/-- A float of 20 by 100 pixels. -/
def sideFloat (left : Bool) : FlowElem where
  floatLeft := some left
  clear := none
  oldTop := 0
  topSet := false
  parentTop := fun _ => 0
  lineHeight := 18
  lay := fun _ _ => ⟨20, 100, 0, 0, 0, 0⟩

/-- Two blocks whose margins of 20 and 30 pixels meet, and a block beside a right float. -/
theorem blockFlow_paths_two :
    PathsAgree pageBox [plainBlock 0 20, plainBlock 30 40] ∧
      childrenTops pageBox [plainBlock 0 20, plainBlock 30 40] = [0, 80] ∧
        Shifts pageBox 10 [.element (sideFloat false), .element (plainBlock 0 0).elem] := by
  obtain ⟨hagree, hshifts⟩ := blockFlow_paths pageBox [plainBlock 0 20, plainBlock 30 40]
    [.element (sideFloat false), .element (plainBlock 0 0).elem]
  have hmeet : MarginsMeet pageBox [plainBlock 0 20, plainBlock 30 40] :=
    ⟨fun c hc => Option.some.inj hc ▸ rfl, .cons_cons (by decide +kernel) (.singleton _),
      .cons_cons (by decide +kernel) (.singleton _)⟩
  exact ⟨hagree.2 hmeet, by decide +kernel, hshifts ⟨by decide, by decide, trivial⟩ 10⟩

/-- Two blocks with margins of 30 and 20 pixels between them, and a block beside a left float. -/
theorem margins_not_collapsed :
    ¬ PathsAgree pageBox [plainBlock 0 30, plainBlock 20 0] ∧
      ¬ Shifts pageBox 10 [.element (sideFloat true), .element (plainBlock 0 0).elem] := by
  constructor
  · intro h
    exact absurd h.same (by decide +kernel)
  · unfold Shifts
    decide +kernel

end TinyFramework.Layout
