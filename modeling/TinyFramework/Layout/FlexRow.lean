/-
  Layout/FlexRow.lean --- rows of flex items on a single line (`mini_dom.c`).

  `layout_node` lays each child of a flex container out once to learn its width, lets the
  widths grow or shrink into the content width, and puts the children one behind the other.  A
  child that has children of its own is laid out there once more, from its style.  Lengths are
  exact, and this is the main axis of a row that is not reversed.
-/
import Mathlib.Algebra.Order.BigOperators.Group.List
import Mathlib.Data.List.Chain
import TinyFramework.Foundation.Packing
import TinyFramework.Foundation.Stacking

set_option autoImplicit false

namespace TinyFramework.Layout

open Foundation

/-! ## Children -/

/-- What a row reads of an in-flow child with a width and margins in pixels.  The `padding` is
that of both sides; `ownW` is the width that an attribute or the kind of the element gives when
the style gives none, 0 for most. -/
structure FlexKid where
  order : Int
  lenW : ℚ
  lenW_pos : 0 < lenW
  marginL : ℚ
  marginR : ℚ
  padding : ℚ
  borderBox : Bool
  minW : ℚ
  maxW : ℚ
  ownW : ℚ
  flexGrow : ℚ
  flexShrink : ℚ
  hasChild : Bool
  deriving DecidableEq

namespace FlexKid

/-- `max_w` and `min_w` are applied to a width; a limit that is not positive is none. -/
def limitW (c : FlexKid) (cw : ℚ) : ℚ :=
  let minW := if c.maxW > 0 ∧ c.minW > c.maxW then c.maxW else c.minW
  let cw := if c.maxW > 0 ∧ cw > c.maxW then c.maxW else cw
  if minW > 0 ∧ cw < minW then minW else cw

/-- The width that `layout_node` gives a child whose style has this width, in pixels or as an
earlier layout left it. -/
def layoutW (c : FlexKid) (lenW : ℚ) : ℚ :=
  let w := if lenW ≤ 0 then c.ownW else lenW
  let cw := if c.borderBox then w else w + c.padding
  let cw := c.limitW (c.limitW cw)
  if cw < 0 then 0 else cw

/-- The margins of both sides. -/
def margins (c : FlexKid) : ℚ := c.marginR + c.marginL

/-- A factor that is negative counts as 1. -/
def shrinkFactor (c : FlexKid) : ℚ :=
  if c.flexShrink > 0 ∨ c.flexShrink = 0 then c.flexShrink else 1

end FlexKid

/-- What a row reads of its container: where the content begins and how wide it is, the gap and
`justify-content`. -/
structure FlexRow where
  contentX : ℚ
  mainAvail : ℚ
  gapPx : ℚ
  justifyContent : Nat
  deriving DecidableEq

/-- A child with the width and the place it has so far. -/
structure FlexBox where
  kid : FlexKid
  w : ℚ
  absX : ℚ
  deriving DecidableEq

/-- The width with the margins. -/
def FlexBox.outer (b : FlexBox) : ℚ := b.w + b.kid.margins

/-! ## The layout of a row -/

/-- `flex_kids`: the children by ascending `order`. -/
def flexKids (kids : List FlexKid) : List FlexKid := shiftSort (ascending FlexKid.order) kids

namespace FlexRow

variable (row : FlexRow)

def totalGap (kcount : Nat) : ℚ := if kcount > 1 then (kcount - 1 : ℚ) * row.gapPx else 0

/-- The first layout of a child: its width, or its part of the row when it can grow. -/
def firstLayout (kcount : Nat) (c : FlexKid) : FlexBox :=
  let constraint :=
    if c.flexGrow > 0 then (row.mainAvail - row.totalGap kcount) / kcount else row.mainAvail
  let w := c.layoutW c.lenW
  let w :=
    if c.flexGrow > 0 then
      let w := constraint - c.marginR - c.marginL
      if w < 0 then 0 else w
    else w
  ⟨c, w, row.contentX + c.marginL⟩

/-- `used` -/
def used (boxes : List FlexBox) : ℚ := (boxes.map FlexBox.outer).sum

/-- `total_grow` -/
def totalGrow (boxes : List FlexBox) : ℚ :=
  (boxes.map fun b => if b.kid.flexGrow > 0 then b.kid.flexGrow else 0).sum

/-- `total_shrink` -/
def totalShrink (boxes : List FlexBox) : ℚ :=
  (boxes.map fun b => b.kid.shrinkFactor * b.w).sum

def leftover (boxes : List FlexBox) : ℚ :=
  row.mainAvail - used boxes - row.totalGap boxes.length

/-- A child gets a width and is laid out with it. -/
def relayout (b : FlexBox) (w : ℚ) : FlexBox :=
  { b with w := b.kid.layoutW w, absX := row.contentX + b.kid.marginL }

/-- A child that can grow gets its part of what is left over. -/
def grow (leftover total : ℚ) (b : FlexBox) : FlexBox :=
  if b.kid.flexGrow > 0 then row.relayout b (b.w + leftover * (b.kid.flexGrow / total)) else b

/-- Every child loses its part of the overflow, as far as it has it. -/
def shrink (overflow total : ℚ) (b : FlexBox) : FlexBox :=
  let reduction := overflow * (b.kid.shrinkFactor * b.w) / total
  let w := b.w - reduction
  row.relayout b (if w < 0 then 0 else w)

/-- The children that grew or shrank, and what is then left over. -/
def flex (boxes : List FlexBox) : List FlexBox × ℚ :=
  let leftover := row.leftover boxes
  if leftover > 0 ∧ totalGrow boxes > 0 then
    (boxes.map (row.grow leftover (totalGrow boxes)), 0)
  else if leftover < 0 ∧ totalShrink boxes > 0 then
    (boxes.map (row.shrink (-leftover) (totalShrink boxes)), 0)
  else (boxes, leftover)

/-- `lead` and `gap` for `justify-content`. -/
def justify (kcount : Nat) (leftover : ℚ) : ℚ × ℚ :=
  if leftover > 0 then
    match row.justifyContent with
    | 1 => (leftover / 2, 0)
    | 2 => (leftover, 0)
    | 3 => (0, if kcount > 1 then leftover / (kcount - 1) else 0)
    | 4 => if kcount > 0 then (leftover / (kcount * 2), leftover / kcount) else (0, 0)
    | 5 => if kcount > 0 then (leftover / (kcount + 1), leftover / (kcount + 1)) else (0, 0)
    | _ => (0, 0)
  else (0, 0)

/-- A child at its place; one with children is laid out there again. -/
def placeAt (pos : ℚ) (b : FlexBox) : FlexBox :=
  let nx := pos + b.kid.marginL
  if b.kid.hasChild then { b with w := b.kid.layoutW b.kid.lenW, absX := nx + b.kid.marginL }
  else { b with absX := nx }

/-- The final placement. -/
def place (gap : ℚ) : ℚ → List FlexBox → List FlexBox
  | _, [] => []
  | pos, b :: rest =>
      let b := placeAt pos b
      b :: place gap (pos + (b.w + b.kid.marginR + b.kid.marginL + (gap + row.gapPx))) rest

/-- The single-line branch of `layout_node`. -/
def layout (kids : List FlexKid) : List FlexBox :=
  let kids := flexKids kids
  let (boxes, leftover) := row.flex (kids.map (row.firstLayout kids.length))
  let (lead, gap) := row.justify kids.length leftover
  row.place gap (row.contentX + lead) boxes

end FlexRow

/-! ## What a row is to be -/

namespace FlexRow

variable (row : FlexRow) (kids : List FlexKid)

/-- What the widths of the children, their margins and the gaps leave of the row. -/
def room : ℚ :=
  row.mainAvail - (kids.map fun c => c.layoutW c.lenW + c.margins).sum - row.totalGap kids.length

/-- A child can grow into the room, or shrink where there is none. -/
def FactorApplies : Prop :=
  (0 < row.room kids ∧ ∃ c ∈ kids, 0 < c.flexGrow) ∨
    (row.room kids < 0 ∧ ∃ c ∈ kids, 0 < c.flexShrink)

/-- What `justify-content` puts between two children, of room that no child grows into. -/
def spacing : ℚ :=
  if ∃ c ∈ kids, 0 < c.flexGrow then 0 else (row.justify kids.length (row.room kids)).2

/-- The children stand by their order values, each the gap and the spacing behind the one before
it, and fill the row when a factor applies. -/
structure Placed (boxes : List FlexBox) : Prop where
  sorted : (boxes.map (·.kid)).Pairwise fun a b => a.order ≤ b.order
  stable : ∀ o, (boxes.map (·.kid)).filter (·.order = o) = kids.filter (·.order = o)
  apart : boxes.IsChain fun a b =>
    b.absX - b.kid.marginL - (a.absX + a.w + a.kid.marginR) = row.gapPx + row.spacing kids
  fills : row.FactorApplies kids →
    (boxes.map FlexBox.outer).sum + row.totalGap kids.length = row.mainAvail

/-! ## When it is -/

/-- The children with the widths of the first layout. -/
def basis : List FlexBox := (flexKids kids).map (row.firstLayout kids.length)

/-- The boxes grow. -/
def Grows (boxes : List FlexBox) : Prop := 0 < row.leftover boxes ∧ 0 < totalGrow boxes

/-- The boxes shrink. -/
def Shrinks (boxes : List FlexBox) : Prop := row.leftover boxes < 0 ∧ 0 < totalShrink boxes

instance (boxes : List FlexBox) : Decidable (row.Grows boxes) := inferInstanceAs (Decidable (_ ∧ _))

instance (boxes : List FlexBox) : Decidable (row.Shrinks boxes) :=
  inferInstanceAs (Decidable (_ ∧ _))

/-- What shrinking takes from a box. -/
def reduction (boxes : List FlexBox) (b : FlexBox) : ℚ :=
  -row.leftover boxes * (b.kid.shrinkFactor * b.w) / totalShrink boxes

/-- The width that a box of these is given by growing and shrinking. -/
def given (boxes : List FlexBox) (b : FlexBox) : ℚ :=
  if row.Grows boxes then
    b.w + row.leftover boxes *
      ((if b.kid.flexGrow > 0 then b.kid.flexGrow else 0) / totalGrow boxes)
  else if row.Shrinks boxes then max 0 (b.w - row.reduction boxes b)
  else b.w

/-- What is left over when the boxes have the widths they are given. -/
def missed (boxes : List FlexBox) : ℚ :=
  if row.Grows boxes then 0
  else if row.Shrinks boxes then
    -(boxes.map fun b => max 0 (row.reduction boxes b - b.w)).sum
  else row.leftover boxes

/-- The width that a box has in the end: that of its style when the child has children, else
what the layout of the box makes of the width it was given. -/
def kept (boxes : List FlexBox) (b : FlexBox) : ℚ :=
  if b.kid.hasChild then b.kid.layoutW b.kid.lenW
  else if row.Grows boxes ∧ b.kid.flexGrow > 0 ∨ row.Shrinks boxes then
    b.kid.layoutW (row.given boxes b)
  else row.given boxes b

end FlexRow

/-- How far the final layout moves a child: by its left margin once more. -/
def FlexKid.shift (c : FlexKid) : ℚ := if c.hasChild then c.marginL else 0

/-- Neighbours are moved by the same amount, and what the later layouts change of the widths
given makes up for what these leave over. -/
structure FlexRow.Stands (row : FlexRow) (kids : List FlexKid) : Prop where
  shifts : (flexKids kids).IsChain fun a b => a.shift = b.shift
  widths : row.FactorApplies kids →
    ((row.basis kids).map fun b => row.kept (row.basis kids) b - row.given (row.basis kids) b).sum =
      row.missed (row.basis kids)

/-! ## The placement -/

namespace FlexRow

variable {row : FlexRow} {kids : List FlexKid} {boxes : List FlexBox} {gap pos : ℚ}

@[simp] theorem placeAt_kid (pos : ℚ) (b : FlexBox) : (placeAt pos b).kid = b.kid := by
  unfold placeAt
  split_ifs <;> rfl

theorem placeAt_w (pos : ℚ) (b : FlexBox) :
    (placeAt pos b).w = if b.kid.hasChild then b.kid.layoutW b.kid.lenW else b.w := by
  unfold placeAt
  split_ifs <;> rfl

theorem placeAt_absX (pos : ℚ) (b : FlexBox) :
    (placeAt pos b).absX = pos + b.kid.marginL + b.kid.shift := by
  unfold placeAt FlexKid.shift
  split_ifs
  · rfl
  · exact (add_zero _).symm

theorem place_map {α : Type} (f : FlexBox → α) (g : FlexBox → α)
    (hfg : ∀ pos b, f (placeAt pos b) = g b) :
    (row.place gap pos boxes).map f = boxes.map g := by
  induction boxes generalizing pos with
  | nil => rfl
  | cons b boxes ih => rw [place, List.map_cons, List.map_cons, ih, hfg]

/-- Two neighbours are apart by the gaps and by how far they are moved. -/
theorem place_isChain {d : ℚ} (hd : d = row.gapPx + gap) :
    (row.place gap pos boxes).IsChain (fun a b =>
        b.absX - b.kid.marginL - (a.absX + a.w + a.kid.marginR) = d) ↔
      boxes.IsChain fun a b => a.kid.shift = b.kid.shift := by
  induction boxes generalizing pos with
  | nil => exact iff_of_true .nil .nil
  | cons b boxes ih =>
    cases boxes with
    | nil => exact iff_of_true (.singleton _) (.singleton _)
    | cons b' boxes =>
      rw [place, place, List.isChain_cons_cons, List.isChain_cons_cons, ← place, ih]
      refine and_congr_left fun _ => ?_
      simp only [placeAt_kid, placeAt_absX, hd]
      constructor <;> intro h <;> linarith

/-! ## The first layout and the flexing -/

theorem flexKids_perm : (flexKids kids).Perm kids := shiftSort_perm _ kids

theorem length_basis : (row.basis kids).length = kids.length := by
  rw [basis, List.length_map, flexKids_perm.length_eq]

theorem totalGrow_pos_iff : 0 < totalGrow (row.basis kids) ↔ ∃ c ∈ kids, 0 < c.flexGrow := by
  have hsum : totalGrow (row.basis kids) =
      (kids.map fun c => if c.flexGrow > 0 then c.flexGrow else 0).sum := by
    rw [totalGrow, basis, List.map_map]
    exact (flexKids_perm.map _).sum_eq
  rw [hsum]
  constructor
  · intro hpos
    by_contra hnone
    refine absurd (List.sum_eq_zero ?_) (ne_of_gt hpos)
    refine List.forall_mem_map.2 fun c hc => if_neg fun hgrow => hnone ⟨c, hc, hgrow⟩
  · rintro ⟨c, hc, hgrow⟩
    have hnonneg : ∀ x ∈ kids.map fun c => if c.flexGrow > 0 then c.flexGrow else 0, 0 ≤ x := by
      refine List.forall_mem_map.2 fun c _ => ?_
      split_ifs with h
      · exact le_of_lt h
      · exact le_refl 0
    have hle := List.single_le_sum hnonneg _ (List.mem_map_of_mem hc)
    rw [if_pos hgrow] at hle
    exact lt_of_lt_of_le hgrow hle

/-- Where no child grows, the first layout is that of the children by themselves. -/
theorem leftover_basis (h : ¬ ∃ c ∈ kids, 0 < c.flexGrow) :
    row.leftover (row.basis kids) = row.room kids := by
  have hperm : ((flexKids kids).map fun c => c.layoutW c.lenW + c.margins).sum =
      (kids.map fun c => c.layoutW c.lenW + c.margins).sum := (flexKids_perm.map _).sum_eq
  have hused : used (row.basis kids) = (kids.map fun c => c.layoutW c.lenW + c.margins).sum := by
    rw [used, basis, List.map_map, ← hperm]
    refine congrArg List.sum (List.map_congr_left fun c hc => ?_)
    have hgrow : ¬ c.flexGrow > 0 := fun hpos => h ⟨c, flexKids_perm.mem_iff.1 hc, hpos⟩
    simp only [Function.comp_apply, FlexBox.outer, firstLayout, if_neg hgrow]
  rw [leftover, room, hused, length_basis]

/-- A box that grew, shrank or was left. -/
def flexed (row : FlexRow) (boxes : List FlexBox) (b : FlexBox) : FlexBox :=
  if row.Grows boxes then row.grow (row.leftover boxes) (totalGrow boxes) b
  else if row.Shrinks boxes then row.shrink (-row.leftover boxes) (totalShrink boxes) b
  else b

theorem flex_eq (boxes : List FlexBox) :
    row.flex boxes = (boxes.map (row.flexed boxes),
      if row.Grows boxes ∨ row.Shrinks boxes then 0 else row.leftover boxes) := by
  by_cases hgrows : row.Grows boxes
  · have hflexed : row.flexed boxes = row.grow (row.leftover boxes) (totalGrow boxes) :=
      funext fun b => if_pos hgrows
    rw [hflexed, if_pos (.inl hgrows)]
    exact if_pos hgrows
  by_cases hshrinks : row.Shrinks boxes
  · have hflexed : row.flexed boxes = row.shrink (-row.leftover boxes) (totalShrink boxes) :=
      funext fun b => (if_neg hgrows).trans (if_pos hshrinks)
    rw [hflexed, if_pos (.inr hshrinks)]
    exact (if_neg hgrows).trans (if_pos hshrinks)
  · have hflexed : row.flexed boxes = id :=
      funext fun b => (if_neg hgrows).trans (if_neg hshrinks)
    rw [hflexed, if_neg (not_or_intro hgrows hshrinks), List.map_id]
    exact (if_neg hgrows).trans (if_neg hshrinks)

@[simp] theorem flexed_kid (boxes : List FlexBox) (b : FlexBox) :
    (row.flexed boxes b).kid = b.kid := by
  unfold flexed grow shrink relayout
  split_ifs <;> rfl

theorem if_neg_zero (w : ℚ) : (if w < 0 then 0 else w) = max 0 w := by
  split_ifs with h
  · exact (max_eq_left (le_of_lt h)).symm
  · exact (max_eq_right (not_lt.1 h)).symm

theorem Grows.not_shrinks {boxes : List FlexBox} (h : row.Grows boxes) : ¬ row.Shrinks boxes :=
  fun h' => lt_asymm h.1 h'.1

/-- The width in the end, of which the flexing is one part and the final layout the other. -/
theorem placeAt_flexed_w (boxes : List FlexBox) (pos : ℚ) (b : FlexBox) :
    (placeAt pos (row.flexed boxes b)).w = row.kept boxes b := by
  rw [placeAt_w, flexed_kid, kept]
  refine if_congr Iff.rfl rfl ?_
  unfold flexed given
  by_cases hgrows : row.Grows boxes
  · rw [if_pos hgrows, if_pos hgrows, grow]
    by_cases hgrow : b.kid.flexGrow > 0
    · rw [if_pos hgrow, if_pos hgrow, if_pos (.inl ⟨hgrows, hgrow⟩)]
      rfl
    · rw [if_neg hgrow, if_neg hgrow, zero_div, mul_zero, add_zero,
        if_neg (not_or_intro (fun h => hgrow h.2) hgrows.not_shrinks)]
  · rw [if_neg hgrows, if_neg hgrows]
    by_cases hshrinks : row.Shrinks boxes
    · rw [if_pos hshrinks, if_pos hshrinks, if_pos (.inr hshrinks), shrink]
      dsimp only [relayout]
      rw [if_neg_zero, reduction]
    · rw [if_neg hshrinks, if_neg hshrinks, if_neg (not_or_intro (fun h => hgrows h.1) hshrinks)]

/-- The widths given take up what is left over, but for what they miss. -/
theorem sum_given (row : FlexRow) (boxes : List FlexBox) :
    (boxes.map (row.given boxes)).sum =
      (boxes.map (·.w)).sum + row.leftover boxes - row.missed boxes := by
  unfold given missed
  by_cases hgrows : row.Grows boxes
  · simp only [if_pos hgrows]
    rw [List.sum_map_add, totalGrow, sum_share _ (ne_of_gt hgrows.2), sub_zero]
  simp only [if_neg hgrows]
  by_cases hshrinks : row.Shrinks boxes
  · simp only [if_pos hshrinks]
    have htaken : (boxes.map (row.reduction boxes)).sum = -row.leftover boxes := by
      have hshare : row.reduction boxes = fun b =>
          -row.leftover boxes * (b.kid.shrinkFactor * b.w / totalShrink boxes) :=
        funext fun b => mul_div_assoc _ _ _
      rw [hshare]
      exact sum_share _ (ne_of_gt hshrinks.2)
    rw [sum_left_over, htaken]
    abel
  · simp only [if_neg hshrinks]
    abel

/-- What is left over when the boxes have grown or shrunk. -/
def settled (row : FlexRow) (boxes : List FlexBox) : ℚ :=
  if row.Grows boxes ∨ row.Shrinks boxes then 0 else row.leftover boxes

theorem layout_eq (row : FlexRow) (kids : List FlexKid) :
    row.layout kids =
      row.place (row.justify kids.length (row.settled (row.basis kids))).2
        (row.contentX + (row.justify kids.length (row.settled (row.basis kids))).1)
        ((row.basis kids).map (row.flexed (row.basis kids))) := by
  have hlength : (flexKids kids).length = kids.length := flexKids_perm.length_eq
  rw [layout]
  dsimp only
  rw [hlength, ← basis, flex_eq]
  rfl

/-- The space that the code puts between two children is that of `justify-content`. -/
theorem justify_eq_spacing (row : FlexRow) (kids : List FlexKid) :
    (row.justify kids.length (row.settled (row.basis kids))).2 = row.spacing kids := by
  have hnone : ∀ {leftover : ℚ}, leftover ≤ 0 → (row.justify kids.length leftover).2 = 0 :=
    fun h => by rw [justify, if_neg (not_lt.2 h)]
  unfold spacing settled
  by_cases hgrow : ∃ c ∈ kids, 0 < c.flexGrow
  · rw [if_pos hgrow]
    refine hnone ?_
    split_ifs with hflexed
    · exact le_refl 0
    · exact not_lt.1 fun hpos => hflexed (.inl ⟨hpos, totalGrow_pos_iff.2 hgrow⟩)
  · rw [if_neg hgrow, ← leftover_basis hgrow]
    split_ifs with hflexed
    · rcases hflexed with hgrows | hshrinks
      · exact absurd (totalGrow_pos_iff.1 hgrows.2) hgrow
      · rw [hnone (le_refl 0), hnone (le_of_lt hshrinks.1)]
    · rfl

/-! ## The whole row -/

/-- The row is as it is to be exactly when neighbours are moved by the same amount in the final
layout and the widths change in no more than what is left over. -/
theorem layout_placed_iff (row : FlexRow) (kids : List FlexKid) :
    row.Placed kids (row.layout kids) ↔ row.Stands kids := by
  have hlayout := layout_eq row kids
  rw [justify_eq_spacing] at hlayout
  have hkids : (row.layout kids).map (·.kid) = flexKids kids := by
    rw [hlayout, place_map (·.kid) (·.kid) placeAt_kid, List.map_map, basis, List.map_map]
    exact List.map_id'' (fun c => flexed_kid _ _) _
  have hapart : (row.layout kids).IsChain (fun a b =>
        b.absX - b.kid.marginL - (a.absX + a.w + a.kid.marginR) = row.gapPx + row.spacing kids) ↔
      (flexKids kids).IsChain fun a b => a.shift = b.shift := by
    rw [hlayout, place_isChain rfl, List.isChain_map, basis, List.isChain_map]
    simp only [flexed_kid]
    rfl
  have houter : (row.layout kids).map FlexBox.outer =
      (row.basis kids).map fun b => row.kept (row.basis kids) b + b.kid.margins := by
    rw [hlayout, place_map FlexBox.outer (fun b => (placeAt 0 b).outer), List.map_map]
    · refine List.map_congr_left fun b _ => ?_
      rw [Function.comp_apply, FlexBox.outer, placeAt_flexed_w, placeAt_kid, flexed_kid]
    · intro pos b
      rw [FlexBox.outer, FlexBox.outer, placeAt_w, placeAt_w, placeAt_kid, placeAt_kid]
  have hfills : ((row.layout kids).map FlexBox.outer).sum + row.totalGap kids.length =
      row.mainAvail ↔ ((row.basis kids).map fun b =>
        row.kept (row.basis kids) b - row.given (row.basis kids) b).sum =
      row.missed (row.basis kids) := by
    have hgiven := sum_given row (row.basis kids)
    have hleft : row.leftover (row.basis kids) = row.mainAvail -
        (((row.basis kids).map (·.w)).sum + ((row.basis kids).map (·.kid.margins)).sum) -
        row.totalGap kids.length := by
      rw [leftover, length_basis, ← List.sum_map_add]
      rfl
    rw [houter, List.sum_map_add, sum_map_sub]
    constructor <;> intro h <;> linarith
  constructor
  · intro h
    exact ⟨hapart.1 h.apart, fun happlies => hfills.1 (h.fills happlies)⟩
  · intro h
    obtain ⟨hsorted, hstable⟩ := shiftSort_ascending FlexKid.order kids
    refine ⟨?_, ?_, hapart.2 h.shifts, fun happlies => hfills.2 (h.widths happlies)⟩
    · rwa [hkids]
    · rwa [hkids]

end FlexRow

/-! ## Rows in which every width is kept -/

/-- A child that is laid out with any width it is given: no padding to add, no limits, and no
children of its own. -/
structure FlexKid.Bare (c : FlexKid) : Prop where
  alone : c.hasChild = false
  padding : c.borderBox = true ∨ c.padding = 0
  minW : c.minW ≤ 0
  maxW : c.maxW ≤ 0
  ownW : c.ownW = 0

theorem FlexKid.Bare.layoutW_eq {c : FlexKid} (h : c.Bare) {w : ℚ} (hw : 0 ≤ w) :
    c.layoutW w = w := by
  have hlimit : ∀ cw, c.limitW cw = cw := fun cw => by
    simp [limitW, not_lt.2 h.maxW, not_lt.2 h.minW]
  have hgiven : (if w ≤ 0 then c.ownW else w) = w := by
    split_ifs with hzero
    · rw [h.ownW, le_antisymm hzero hw]
    · rfl
  have hpadding : (if c.borderBox then w else w + c.padding) = w := by
    rcases h.padding with hbox | hnone
    · rw [if_pos hbox]
    · rw [hnone, add_zero, ite_self]
  simp only [layoutW, hgiven, hpadding, hlimit, if_neg (not_lt.2 hw)]

namespace FlexRow

variable {row : FlexRow} {kids : List FlexKid} {boxes : List FlexBox} {b : FlexBox}

theorem given_nonneg (hw : 0 ≤ b.w) : 0 ≤ row.given boxes b := by
  unfold given
  split_ifs with hgrows hgrow hshrinks
  · exact add_nonneg hw (mul_nonneg (le_of_lt hgrows.1)
      (div_nonneg (le_of_lt hgrow) (le_of_lt hgrows.2)))
  · rw [zero_div, mul_zero, add_zero]
    exact hw
  · exact le_max_left _ _
  · exact hw

theorem kept_eq_given (hbare : ∀ c ∈ kids, c.Bare) (hb : b ∈ row.basis kids) :
    row.kept (row.basis kids) b = row.given (row.basis kids) b := by
  obtain ⟨c, hc, rfl⟩ := List.mem_map.1 hb
  have hbarec : c.Bare := hbare c (flexKids_perm.mem_iff.1 hc)
  have hw : 0 ≤ (row.firstLayout kids.length c).w := by
    rw [firstLayout]
    dsimp only
    rw [hbarec.layoutW_eq (le_of_lt c.lenW_pos)]
    split_ifs with hgrow hneg
    · exact le_refl 0
    · exact not_lt.1 hneg
    · exact le_of_lt c.lenW_pos
  have halone : (row.firstLayout kids.length c).kid.hasChild = false := hbarec.alone
  rw [kept, halone, if_neg Bool.false_ne_true]
  split_ifs
  · exact hbarec.layoutW_eq (given_nonneg hw)
  · rfl

/-- Where the children grow or shrink and are bare, the row is filled exactly if no child would have
to lose more than its width. -/
theorem widths_iff_uncut (hbare : ∀ c ∈ kids, c.Bare)
    (hflexes : row.Grows (row.basis kids) ∨ row.Shrinks (row.basis kids)) :
    ((row.basis kids).map fun b =>
        row.kept (row.basis kids) b - row.given (row.basis kids) b).sum = row.missed (row.basis kids) ↔
      (row.Shrinks (row.basis kids) →
        ∀ b ∈ row.basis kids, row.reduction (row.basis kids) b ≤ b.w) := by
  have hzero : ((row.basis kids).map fun b =>
      row.kept (row.basis kids) b - row.given (row.basis kids) b).sum = 0 :=
    List.sum_eq_zero (List.forall_mem_map.2 fun b hb => by rw [kept_eq_given hbare hb, sub_self])
  rw [hzero, missed]
  rcases hflexes with hgrows | hshrinks
  · rw [if_pos hgrows]
    exact iff_of_true rfl fun hshrinks => absurd hshrinks hgrows.not_shrinks
  · rw [if_neg fun hgrows : row.Grows _ => hgrows.not_shrinks hshrinks, if_pos hshrinks, eq_comm,
      neg_eq_zero]
    generalize row.basis kids = boxes at hshrinks
    have hall : ∀ l : List FlexBox,
        (l.map fun b => max 0 (row.reduction boxes b - b.w)).sum = 0 ↔
          ∀ b ∈ l, row.reduction boxes b ≤ b.w := by
      intro l
      induction l with
      | nil => exact iff_of_true rfl (List.forall_mem_nil _)
      | cons b l ih =>
        have hrest : 0 ≤ (l.map fun b => max 0 (row.reduction boxes b - b.w)).sum :=
          List.sum_nonneg (List.forall_mem_map.2 fun b _ => le_max_left _ _)
        rw [List.map_cons, List.sum_cons, add_eq_zero_iff_of_nonneg (le_max_left _ _) hrest, ih,
          List.forall_mem_cons, max_eq_left_iff, sub_nonpos]
    exact ⟨fun h _ => (hall boxes).1 h, fun h => (hall boxes).2 (h hshrinks)⟩

end FlexRow

/-- A child of 100 pixels that can grow, with or without a child of its own. -/
def growingKid (hasChild : Bool) : FlexKid where
  order := 0
  lenW := 100
  lenW_pos := by decide
  marginL := 10
  marginR := 0
  padding := 0
  borderBox := false
  minW := 0
  maxW := 0
  ownW := 0
  flexGrow := 1
  flexShrink := 1
  hasChild := hasChild

/-- In a row of 300 pixels one with a child of its own is back at 100 pixels in the end. -/
theorem growing_not_placed :
    ¬ FlexRow.Placed ⟨0, 300, 0, 0⟩ [growingKid true]
      (FlexRow.layout ⟨0, 300, 0, 0⟩ [growingKid true]) := by
  intro h
  have happlies : FlexRow.FactorApplies ⟨0, 300, 0, 0⟩ [growingKid true] :=
    .inl ⟨by decide +kernel, growingKid true, List.mem_singleton_self _, by decide⟩
  exact absurd (h.fills happlies) (by decide +kernel)

/-- One without fills the row. -/
example : (FlexRow.layout ⟨0, 300, 0, 0⟩ [growingKid false]).map (fun b => (b.w, b.absX)) =
    [(290, 10)] := by decide +kernel

end TinyFramework.Layout
