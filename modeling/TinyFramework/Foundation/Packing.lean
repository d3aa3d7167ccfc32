/-
  Foundation/Packing.lean --- rooms for what has a size: cells, shelves and shares.

  The grid has a number of columns and as many rows as are needed.  A block goes to the first
  place, row by row, where it lies within the columns and on no cell of an earlier block: from
  the origin for each block, or from behind the block before it.

  A shelf packer puts each rectangle behind the one before it, and begins a shelf below all of
  them when there is no room.  What was put anywhere lies behind the cursor, and what is put
  at the cursor or after it is apart from that.

  What is shared out by weights adds up to the amount.  Where more is to be taken away than
  there is nothing is left, and the rest is not taken.
-/
import Mathlib.Algebra.BigOperators.Ring.List
import Mathlib.Algebra.Order.Field.Basic
import Mathlib.Data.List.Pairwise
import Mathlib.Data.Prod.Lex
import Mathlib.Tactic.Abel
import Mathlib.Tactic.Linarith

set_option autoImplicit false

namespace TinyFramework.Foundation

/-- A block of cells. -/
structure GridArea where
  row : Nat
  col : Nat
  rowSpan : Nat
  colSpan : Nat
  deriving DecidableEq, Repr

namespace GridArea

/-- The cell is one of the block. -/
def Covers (a : GridArea) (r c : Nat) : Prop :=
  (a.row ≤ r ∧ r < a.row + a.rowSpan) ∧ a.col ≤ c ∧ c < a.col + a.colSpan

/-- No cell of one is a cell of the other. -/
def CellsApart (a b : GridArea) : Prop := ∀ r c, a.Covers r c → ¬ b.Covers r c

/-- The place of a block, ordered row by row. -/
def place (a : GridArea) : Nat ×ₗ Nat := toLex (a.row, a.col)

/-- The place behind a block. -/
def behind (a : GridArea) : Nat ×ₗ Nat := toLex (a.row, a.col + a.colSpan)

/-- Within the columns, and apart from the blocks that are there. -/
structure Fits (ncols : Nat) (placed : List GridArea) (a : GridArea) : Prop where
  within : a.col + a.colSpan ≤ ncols
  apart : ∀ b ∈ placed, b.CellsApart a

/-- The first place from the cursor on where a block of its size fits. -/
structure IsFirst (ncols : Nat) (placed : List GridArea) (cursor : Nat ×ₗ Nat)
    (a : GridArea) : Prop where
  fits : a.Fits ncols placed
  from_cursor : cursor ≤ a.place
  first : ∀ r c, Fits ncols placed { a with row := r, col := c } → cursor ≤ toLex (r, c) →
    a.place ≤ toLex (r, c)

theorem place_lt_behind {a : GridArea} (h : 0 < a.colSpan) : a.place < a.behind :=
  Prod.Lex.toLex_lt_toLex.2 (.inr ⟨rfl, Nat.lt_add_of_pos_right h⟩)

variable {ncols : Nat} {placed : List GridArea} {cursor : Nat ×ₗ Nat} {a b : GridArea}

theorem IsFirst.unique (ha : a.IsFirst ncols placed cursor) (hb : b.IsFirst ncols placed cursor)
    (hrow : a.rowSpan = b.rowSpan) (hcol : a.colSpan = b.colSpan) : a = b := by
  obtain ⟨ar, ac, arows, acols⟩ := a
  obtain ⟨br, bc, brows, bcols⟩ := b
  obtain rfl : arows = brows := hrow
  obtain rfl : acols = bcols := hcol
  have hab := ha.first br bc hb.fits hb.from_cursor
  have hba := hb.first ar ac ha.fits ha.from_cursor
  have heq : (ar, ac) = (br, bc) := toLex_inj.1 (le_antisymm hab hba)
  cases heq
  rfl

/-- The search may as well begin later, up to where it ends. -/
theorem IsFirst.of_le {cursor' : Nat ×ₗ Nat} (h : a.IsFirst ncols placed cursor)
    (hle : cursor ≤ cursor') (ha : cursor' ≤ a.place) : a.IsFirst ncols placed cursor' :=
  ⟨h.fits, ha, fun r c hrc hc => h.first r c hrc (hle.trans hc)⟩

/-- A place that is not the one is passed. -/
theorem IsFirst.next {r c : Nat} (h : a.IsFirst ncols placed (toLex (r, c)))
    (hne : ¬ (a.row = r ∧ a.col = c)) : a.IsFirst ncols placed (toLex (r, c + 1)) := by
  have hle := Prod.Lex.toLex_le_toLex.1 h.from_cursor
  apply h.of_le
  · exact Prod.Lex.toLex_le_toLex.2 (.inr ⟨rfl, Nat.le_succ c⟩)
  · apply Prod.Lex.toLex_le_toLex.2
    dsimp only at hle ⊢
    omega

/-- And so is the rest of a row that has not columns enough. -/
theorem IsFirst.wrap {r c : Nat} (h : a.IsFirst ncols placed (toLex (r, c)))
    (hc : ncols < c + a.colSpan) : a.IsFirst ncols placed (toLex (r + 1, 0)) := by
  have hle := Prod.Lex.toLex_le_toLex.1 h.from_cursor
  have hwithin := h.fits.within
  apply h.of_le
  · exact Prod.Lex.toLex_le_toLex.2 (.inl (Nat.lt_succ_self r))
  · apply Prod.Lex.toLex_le_toLex.2
    dsimp only at hle ⊢
    omega

/-- A row below all blocks. -/
theorem exists_row_below (placed : List GridArea) (n : Nat) :
    ∃ r, n < r ∧ ∀ b ∈ placed, b.row + b.rowSpan ≤ r := by
  induction placed with
  | nil => exact ⟨n + 1, Nat.lt_succ_self n, fun b hb => nomatch hb⟩
  | cons a rest ih =>
    obtain ⟨r, hn, hrest⟩ := ih
    refine ⟨r + (a.row + a.rowSpan), Nat.lt_add_right _ hn, fun b hb => ?_⟩
    rcases List.mem_cons.1 hb with rfl | hb
    · exact Nat.le_add_left _ _
    · exact Nat.le_add_right_of_le (hrest b hb)

/-- There is always room in the rows below. -/
theorem exists_isFirst (placed : List GridArea) (cursor : Nat ×ₗ Nat) (rows : Nat)
    {cols : Nat} (h : cols ≤ ncols) :
    ∃ a : GridArea, a.IsFirst ncols placed cursor ∧ a.rowSpan = rows ∧ a.colSpan = cols := by
  let Candidate : Set (Nat ×ₗ Nat) := fun p =>
    Fits ncols placed ⟨(ofLex p).1, (ofLex p).2, rows, cols⟩ ∧ cursor ≤ p
  have hne : Set.Nonempty Candidate := by
    obtain ⟨r, hlt, hbelow⟩ := exists_row_below placed (ofLex cursor).1
    refine ⟨toLex (r, 0), ⟨by simpa using h, fun b hb i j hbij haij => ?_⟩, ?_⟩
    · have := hbelow b hb
      have hi : r ≤ i := haij.1.1
      have := hbij.1.2
      omega
    · exact le_of_lt (Prod.Lex.lt_iff.2 (.inl hlt))
  obtain ⟨p, ⟨hfits, hcursor⟩, hmin⟩ := wellFounded_lt.has_min Candidate hne
  refine ⟨⟨(ofLex p).1, (ofLex p).2, rows, cols⟩, ⟨hfits, hcursor, fun r c hrc hle => ?_⟩, rfl, rfl⟩
  exact not_lt.1 (hmin (toLex (r, c)) ⟨hrc, hle⟩)

end GridArea

section Grid

open GridArea

/-- Where the search for the next block begins. -/
def searchFrom (dense : Bool) (cursor : Nat ×ₗ Nat) : Nat ×ₗ Nat :=
  if dense then toLex (0, 0) else cursor

/-- Blocks of the sizes, rows and columns, each put at the first place that fits. -/
def FirstFit (ncols : Nat) (dense : Bool) :
    List GridArea → Nat ×ₗ Nat → List (Nat × Nat) → List GridArea → Prop
  | _, _, [], areas => areas = []
  | _, _, _ :: _, [] => False
  | placed, cursor, size :: sizes, a :: areas =>
      a.IsFirst ncols placed (searchFrom dense cursor) ∧ (a.rowSpan, a.colSpan) = size ∧
        FirstFit ncols dense (placed ++ [a]) a.behind sizes areas

variable {ncols : Nat} {dense : Bool} {placed areas : List GridArea} {cursor : Nat ×ₗ Nat}
  {sizes : List (Nat × Nat)}

/-- The cursor matters no more than the search that begins there. -/
theorem FirstFit.of_cursor {cursor' : Nat ×ₗ Nat}
    (h : FirstFit ncols dense placed cursor sizes areas)
    (hcursor : searchFrom dense cursor = searchFrom dense cursor') :
    FirstFit ncols dense placed cursor' sizes areas := by
  cases sizes with
  | nil =>
    rw [FirstFit] at h ⊢
    exact h
  | cons size sizes =>
    cases areas with
    | nil => exact h.elim
    | cons a areas => exact ⟨hcursor ▸ h.1, h.2⟩

theorem FirstFit.sizes_eq (h : FirstFit ncols dense placed cursor sizes areas) :
    areas.map (fun a => (a.rowSpan, a.colSpan)) = sizes := by
  induction areas generalizing placed cursor sizes with
  | nil =>
    cases sizes with
    | nil => rfl
    | cons size sizes => exact h.elim
  | cons a areas ih =>
    cases sizes with
    | nil => cases h
    | cons size sizes => exact congrArg₂ _ h.2.1 (ih h.2.2)

theorem FirstFit.within (h : FirstFit ncols dense placed cursor sizes areas) :
    ∀ a ∈ areas, a.col + a.colSpan ≤ ncols := by
  induction areas generalizing placed cursor sizes with
  | nil => exact fun a ha => nomatch ha
  | cons a areas ih =>
    cases sizes with
    | nil => cases h
    | cons size sizes => exact List.forall_mem_cons.2 ⟨h.1.fits.within, ih h.2.2⟩

/-- The blocks share no cells with those that were there, nor with each other. -/
theorem FirstFit.apart (h : FirstFit ncols dense placed cursor sizes areas) :
    (∀ b ∈ placed, ∀ a ∈ areas, b.CellsApart a) ∧ areas.Pairwise CellsApart := by
  induction areas generalizing placed cursor sizes with
  | nil => exact ⟨fun b _ a ha => (nomatch ha), .nil⟩
  | cons a areas ih =>
    cases sizes with
    | nil => cases h
    | cons size sizes =>
      obtain ⟨hearlier, hlater⟩ := ih h.2.2
      refine ⟨fun b hb => List.forall_mem_cons.2 ⟨h.1.fits.apart b hb, fun x hx => ?_⟩,
        .cons (fun x hx => ?_) hlater⟩
      · exact hearlier b (List.mem_append_left _ hb) x hx
      · exact hearlier a (List.mem_append_right _ (List.mem_singleton_self a)) x hx

/-- In dense flow every block is at the first place that fits beside those before it. -/
theorem FirstFit.dense_first (h : FirstFit ncols true placed cursor sizes areas) :
    ∀ front a back, areas = front ++ a :: back →
      a.IsFirst ncols (placed ++ front) (toLex (0, 0)) := by
  induction areas generalizing placed cursor sizes with
  | nil =>
    intro front a back heq
    cases front <;> cases heq
  | cons b areas ih =>
    cases sizes with
    | nil => cases h
    | cons size sizes =>
      intro front a back heq
      cases front with
      | nil =>
        cases heq
        rw [List.append_nil]
        exact h.1
      | cons b' front =>
        cases heq
        have hfirst := ih h.2.2 front a back rfl
        rwa [List.append_assoc] at hfirst

/-- Without dense flow the places go up. -/
theorem FirstFit.sparse_ascends (h : FirstFit ncols false placed cursor sizes areas)
    (hpos : ∀ size ∈ sizes, 0 < size.2) :
    (∀ a ∈ areas, cursor ≤ a.place) ∧ areas.Pairwise (fun a b => a.place < b.place) := by
  induction areas generalizing placed cursor sizes with
  | nil => exact ⟨fun a ha => (nomatch ha), .nil⟩
  | cons a areas ih =>
    cases sizes with
    | nil => cases h
    | cons size sizes =>
      obtain ⟨hcursor, hlater⟩ := ih h.2.2 (List.forall_mem_cons.1 hpos).2
      have hspan : 0 < a.colSpan := by
        have := hpos size List.mem_cons_self
        rwa [← h.2.1] at this
      have hbehind : a.place < a.behind := place_lt_behind hspan
      refine ⟨List.forall_mem_cons.2 ⟨h.1.from_cursor, fun b hb => ?_⟩,
        .cons (fun b hb => ?_) hlater⟩
      · exact le_of_lt (h.1.from_cursor.trans_lt (hbehind.trans_le (hcursor b hb)))
      · exact hbehind.trans_le (hcursor b hb)

theorem FirstFit.unique {areas' : List GridArea}
    (h : FirstFit ncols dense placed cursor sizes areas)
    (h' : FirstFit ncols dense placed cursor sizes areas') : areas = areas' := by
  induction areas generalizing placed cursor sizes areas' with
  | nil =>
    cases sizes with
    | nil =>
      rw [FirstFit] at h'
      exact h'.symm
    | cons size sizes => exact h.elim
  | cons a areas ih =>
    cases sizes with
    | nil => cases h
    | cons size sizes =>
      cases areas' with
      | nil => exact h'.elim
      | cons a' areas' =>
        have hsize := h.2.1.trans h'.2.1.symm
        obtain rfl := h.1.unique h'.1 (Prod.ext_iff.1 hsize).1 (Prod.ext_iff.1 hsize).2
        rw [ih h.2.2 h'.2.2]

/-- With rows enough there is always such a placement. -/
theorem exists_firstFit (placed : List GridArea) (cursor : Nat ×ₗ Nat)
    (hsizes : ∀ size ∈ sizes, size.2 ≤ ncols) :
    ∃ areas, FirstFit ncols dense placed cursor sizes areas := by
  induction sizes generalizing placed cursor with
  | nil => exact ⟨[], rfl⟩
  | cons size sizes ih =>
    obtain ⟨a, hfirst, hrow, hcol⟩ := exists_isFirst placed (searchFrom dense cursor)
      size.1 (hsizes size List.mem_cons_self)
    obtain ⟨areas, hareas⟩ := ih (placed ++ [a]) a.behind (List.forall_mem_cons.1 hsizes).2
    exact ⟨a :: areas, hfirst, Prod.ext hrow hcol, hareas⟩

end Grid

/-! ## Shelves -/

/-- A rectangle of pixels. -/
structure PixelRect where
  x : Int
  y : Int
  w : Int
  h : Int
  deriving DecidableEq, Repr

namespace PixelRect

/-- No pixel of one is a pixel of the other. -/
def Apart (r p : PixelRect) : Prop :=
  r.x + r.w ≤ p.x ∨ p.x + p.w ≤ r.x ∨ r.y + r.h ≤ p.y ∨ p.y + p.h ≤ r.y

/-- Inside an area of a width and a height. -/
def Within (r : PixelRect) (width height : Int) : Prop :=
  (0 ≤ r.x ∧ r.x + r.w ≤ width) ∧ 0 ≤ r.y ∧ r.y + r.h ≤ height

theorem Apart.symm {r p : PixelRect} (h : r.Apart p) : p.Apart r := by
  rcases h with h | h | h | h
  · exact .inr (.inl h)
  · exact .inl h
  · exact .inr (.inr (.inr h))
  · exact .inr (.inr (.inl h))

end PixelRect

/-- The cursor of a packer: where the next rectangle goes, and the height of its shelf. -/
structure Shelf where
  x : Int := 0
  y : Int := 0
  rowH : Int := 0
  deriving DecidableEq, Repr

namespace Shelf

/-- The start of a shelf below this one. -/
def below (c : Shelf) (gap : Int) : Shelf := { x := 0, y := c.y + (c.rowH + gap), rowH := 0 }

/-- The cursor behind a cell that was put at it. -/
def past (c : Shelf) (w h : Int) : Shelf :=
  { c with x := c.x + w, rowH := if c.rowH < h then h else c.rowH }

/-- No coordinate is negative. -/
structure Sound (c : Shelf) : Prop where
  x : 0 ≤ c.x
  y : 0 ≤ c.y
  rowH : 0 ≤ c.rowH

/-- The rectangle is on a shelf above the cursor, or on its shelf and left of it. -/
def Behind (r : PixelRect) (c : Shelf) : Prop :=
  r.y + r.h ≤ c.y ∨ (r.x + r.w ≤ c.x ∧ r.y + r.h ≤ c.y + c.rowH)

variable {c : Shelf} {r p : PixelRect}

theorem sound_start : Sound {} := ⟨Int.le_refl 0, Int.le_refl 0, Int.le_refl 0⟩

theorem Sound.below (hc : c.Sound) {gap : Int} (hgap : 0 ≤ gap) : (c.below gap).Sound :=
  ⟨Int.le_refl 0, Int.add_nonneg hc.y (Int.add_nonneg hc.rowH hgap), Int.le_refl 0⟩

theorem Sound.past (hc : c.Sound) {w : Int} (h : Int) (hw : 0 ≤ w) : (c.past w h).Sound := by
  refine ⟨Int.add_nonneg hc.x hw, hc.y, ?_⟩
  unfold Shelf.past
  have hrow := hc.rowH
  dsimp only
  split <;> omega

theorem Behind.below (hr : Behind r c) (hc : c.Sound) {gap : Int} (hgap : 0 ≤ gap) :
    Behind r (c.below gap) := by
  have hrow := hc.rowH
  apply Or.inl
  unfold Shelf.below
  dsimp only
  rcases hr with hr | ⟨_, hr⟩ <;> omega

theorem Behind.past (hr : Behind r c) {w : Int} (h : Int) (hw : 0 ≤ w) :
    Behind r (c.past w h) := by
  unfold Shelf.past Behind
  rcases hr with hr | ⟨hx, hy⟩
  · exact .inl hr
  · apply Or.inr
    dsimp only
    refine ⟨by omega, ?_⟩
    split <;> omega

/-- A rectangle inside the cell at the cursor is behind the cursor that passed the cell. -/
theorem behind_past {w h : Int} (hx : r.x + r.w ≤ c.x + w) (hy : r.y + r.h ≤ c.y + h) :
    Behind r (c.past w h) := by
  unfold Shelf.past
  apply Or.inr
  refine ⟨hx, ?_⟩
  dsimp only
  split <;> omega

/-- What goes to the cursor or after it is apart from what is behind. -/
theorem Behind.apart (hr : Behind r c) (hx : c.x ≤ p.x) (hy : c.y ≤ p.y) : r.Apart p := by
  rcases hr with hr | ⟨hr, _⟩
  · exact .inr (.inr (.inl (Int.le_trans hr hy)))
  · exact .inl (Int.le_trans hr hx)

end Shelf

/-! ## Shares -/

section Share

variable {K ι : Type} [Field K] {l : List ι}

/-- The weighted shares of an amount are the amount. -/
theorem sum_share (amount : K) {weight : ι → K} (h : (l.map weight).sum ≠ 0) :
    (l.map fun i => amount * (weight i / (l.map weight).sum)).sum = amount := by
  simp only [div_eq_mul_inv]
  rw [List.sum_map_mul_left, List.sum_map_mul_right, mul_inv_cancel₀ h, mul_one]

theorem sum_map_sub (f g : ι → K) :
    (l.map fun i => f i - g i).sum = (l.map f).sum - (l.map g).sum := by
  induction l with
  | nil => simp
  | cons i l ih =>
    simp only [List.map_cons, List.sum_cons, ih]
    abel

variable [LinearOrder K] [IsStrictOrderedRing K]

/-- What is left of some amounts, from each of which something is taken away. -/
theorem sum_left_over (stock cut : ι → K) :
    (l.map fun i => max 0 (stock i - cut i)).sum =
      (l.map stock).sum - (l.map cut).sum + (l.map fun i => max 0 (cut i - stock i)).sum := by
  induction l with
  | nil => simp
  | cons i l ih =>
    have hi : max 0 (stock i - cut i) = stock i - cut i + max 0 (cut i - stock i) := by
      rcases le_total (stock i) (cut i) with hle | hle
      · rw [max_eq_left (sub_nonpos.2 hle), max_eq_right (sub_nonneg.2 hle)]
        abel
      · rw [max_eq_right (sub_nonneg.2 hle), max_eq_left (sub_nonpos.2 hle), add_zero]
    simp only [List.map_cons, List.sum_cons, ih, hi]
    abel

end Share

end TinyFramework.Foundation
