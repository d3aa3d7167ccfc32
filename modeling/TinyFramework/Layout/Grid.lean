/-
  Layout/Grid.lean --- the automatic placement of grid items (`mini_dom.c`).

  `layout_grid` keeps a table of the cells that are taken, 512 rows of them, and looks for the
  first block of free cells for each child: from the origin in dense flow, and behind the child
  before it otherwise.  The size of the table is multiplied in 32-bit `int`, and a child that
  would end below the last row ends the placement.
-/
import Mathlib.Data.List.TakeWhile
import TinyFramework.Foundation.Decimal
import TinyFramework.Foundation.Packing
import TinyFramework.Foundation.Raster

set_option autoImplicit false

namespace TinyFramework.Layout

open Foundation

/-! ## The number of columns -/

/-- Past the `)` that closes a `repeat(` (the `rdepth` loop). -/
def skipRepeat (rdepth : Int) : Bytes → Bytes
  | [] => []
  | b :: p =>
      if b = 40 then skipRepeat (rdepth + 1) p
      else if b = 41 then if rdepth - 1 = 0 then p else skipRepeat (rdepth - 1) p
      else skipRepeat rdepth p

/-- Past a track: to white space or a comma outside of parentheses. -/
def skipTrack (depth : Int) : Bytes → Bytes
  | [] => []
  | b :: p =>
      if depth = 0 ∧ (isspace b = true ∨ b = 44) then b :: p
      else skipTrack (if b = 40 then depth + 1 else if b = 41 then depth - 1 else depth) p

theorem skipRepeat_length (rdepth : Int) (p : Bytes) : (skipRepeat rdepth p).length ≤ p.length := by
  induction p generalizing rdepth with
  | nil => exact Nat.le_refl _
  | cons b p ih =>
    rw [skipRepeat, List.length_cons]
    split_ifs
    · exact Nat.le_succ_of_le (ih _)
    · exact Nat.le_succ _
    · exact Nat.le_succ_of_le (ih _)
    · exact Nat.le_succ_of_le (ih _)

theorem skipTrack_length (depth : Int) (p : Bytes) : (skipTrack depth p).length ≤ p.length := by
  induction p generalizing depth with
  | nil => exact Nat.le_refl _
  | cons b p ih =>
    rw [skipTrack, List.length_cons]
    split_ifs
    · exact Nat.le_refl _
    all_goals exact Nat.le_succ_of_le (ih _)

/-- `isspace((unsigned char)*p) || *p == ','` -/
def isTrackSep (b : UInt8) : Bool := isspace b || b == 44

theorem skipRepeat_length_lt {b : UInt8} {q : Bytes} (h : ascii "repeat(" <+: b :: q) :
    (skipRepeat 0 (b :: q)).length < (b :: q).length := by
  obtain rfl : 114 = b := (List.cons_prefix_cons.1 h).1
  exact Nat.lt_succ_of_le (skipRepeat_length 0 q)

/-- The tracks of a `grid-template-columns`; `none` is a count that no `int` holds. -/
def countTracks (cnt : Int) (p : Bytes) : Option Int :=
  match h : p.dropWhile isTrackSep with
  | [] => some cnt
  | b :: q =>
      if hrepeat : ascii "repeat(" <+: b :: q then
        let nCnt := atoi ((b :: q).drop 7)
        let cnt := if nCnt > 0 then cnt + nCnt else cnt
        if 2 ^ 31 ≤ cnt then none else countTracks cnt (skipRepeat 0 (b :: q))
      else if 2 ^ 31 ≤ cnt + 1 then none
      else countTracks (cnt + 1) (skipTrack 0 (b :: q))
termination_by p.length
decreasing_by
  · have hlen := congrArg List.length h
    have := skipRepeat_length_lt hrepeat
    have := (List.dropWhile_sublist isTrackSep (l := p)).length_le
    omega
  · have hlen := congrArg List.length h
    have hsep : isTrackSep b = false := by
      have := List.head?_dropWhile_not isTrackSep p
      rw [h] at this
      simpa using this
    have := (List.dropWhile_sublist isTrackSep (l := p)).length_le
    rw [skipTrack, if_neg]
    · have := skipTrack_length (if b = 40 then 0 + 1 else if b = 41 then 0 - 1 else 0) q
      simp only [List.length_cons] at *
      omega
    · simpa [isTrackSep] using hsep

/-- `grid-template-columns` in `mini_style_set`, the `grid_cols` it sets. -/
def gridTemplateColumns (v : Bytes) : Option Int := countTracks 0 v

/-- Every positive `int` is a count that the property takes. -/
theorem gridTemplateColumns_repeat {n : Nat} (hn : 0 < n) (hmax : n < 2 ^ 31) :
    gridTemplateColumns (ascii "repeat(" ++ (decimal n ++ ascii ",1fr)")) = some (n : Int) := by
  have hdigits : ∀ (ds : Bytes), (∀ b ∈ ds, isDecimal b = true) →
      skipRepeat 1 (ds ++ ascii ",1fr)") = [] := by
    intro ds hds
    induction ds with
    | nil => rfl
    | cons b ds ih =>
      have hb := hds b List.mem_cons_self
      rw [List.cons_append, skipRepeat, if_neg, if_neg]
      · exact ih fun c hc => hds c (List.mem_cons_of_mem _ hc)
      · rintro rfl
        cases hb
      · rintro rfl
        cases hb
  have hskip : skipRepeat 0 (ascii "repeat(" ++ (decimal n ++ ascii ",1fr)")) = [] :=
    hdigits _ fun b hb => isDecimal_of_mem_decimal hb
  have hatoi : atoi (decimal n ++ ascii ",1fr)") = n :=
    atoi_decimal n _ (by rintro b ⟨⟩; rfl)
  have hpre : ascii "repeat(" <+: ascii "repeat(" ++ (decimal n ++ ascii ",1fr)") :=
    List.prefix_append _ _
  rw [gridTemplateColumns, countTracks]
  split
  next hnil => cases hnil
  next b q heq =>
    obtain heq : ascii "repeat(" ++ (decimal n ++ ascii ",1fr)") = b :: q := heq
    have hread : atoi ((b :: q).drop 7) = n := by
      rw [← heq]
      exact hatoi
    have hend : countTracks n [] = some (n : Int) := by
      rw [countTracks]
      rfl
    rw [dif_pos (heq ▸ hpre), hread, ← heq, hskip]
    dsimp only
    rw [if_pos (Int.natCast_pos.2 hn), Int.zero_add, if_neg (by omega), hend]

/-- The columns of a grid: of `auto-fit` and `auto-fill`, of the template, or by the children. -/
def columnCount (autoFit : Option Int) (gridCols : Int) (nkids : Nat) : Nat :=
  let ncols : Int :=
    match autoFit with
    | some n => if n < 1 then 1 else n
    | none =>
        if gridCols > 0 then gridCols
        else if nkids ≥ 3 then 3 else if nkids > 0 then nkids else 1
  (if ncols < 1 then 1 else ncols).toNat

/-! ## Placing the children -/

/-- The rows of the table. -/
def maxRows : Nat := 512

/-- An in-flow child, and the spans of its style. -/
structure GridKid where
  node : Nat
  gridColSpan : Int
  gridRowSpan : Int
  deriving DecidableEq, Repr

def GridKid.spanC (ncols : Nat) (c : GridKid) : Nat :=
  let span := if c.gridColSpan > 1 then c.gridColSpan.toNat else 1
  if span > ncols then ncols else span

def GridKid.spanR (c : GridKid) : Nat :=
  let span := if c.gridRowSpan > 1 then c.gridRowSpan.toNat else 1
  if span > maxRows then maxRows else span

/-- A child with the cells it was given. -/
structure GridItem where
  node : Nat
  area : GridArea
  deriving DecidableEq, Repr

/-- No cell from an index on is taken (the `c_chk` loop); `none` is an index that is not in the
table. -/
def rowFree (occupied : List Bool) (i : Nat) : Nat → Option Bool
  | 0 => some true
  | n + 1 => do if ← occupied[i]? then some false else rowFree occupied (i + 1) n

/-- `fits`: the rows from `row` on have the columns from `col` on free (the `r_chk` loop). -/
def blockFree (ncols : Nat) (occupied : List Bool) (col spanC row : Nat) : Nat → Option Bool
  | 0 => some true
  | n + 1 =>
      if row ≥ maxRows then some false
      else do
        if ← rowFree occupied (row * ncols + col) spanC then
          blockFree ncols occupied col spanC (row + 1) n
        else some false

/-- The `while (1)` loop: the row and column it is left with. -/
def findPlace (ncols : Nat) (occupied : List Bool) (spanR spanC row col : Nat) :
    Option (Nat × Nat) :=
  let wraps := col + spanC > ncols
  let row' := if wraps then row + 1 else row
  let col' := if wraps then 0 else col
  if row' ≥ maxRows then some (row', col')
  else do
    if ← blockFree ncols occupied col' spanC row' spanR then some (row', col')
    else findPlace ncols occupied spanR spanC row' (col' + 1)
termination_by (maxRows - row, ncols + 1 - col)
decreasing_by
  rename_i hrow
  simp only [row', wraps] at hrow ⊢
  split_ifs at hrow ⊢
  · exact Prod.Lex.left _ _ (by omega)
  · exact Prod.Lex.right _ (by omega)

/-- A row of a block is taken (the `c_idx` loop). -/
def markRow (occupied : List Bool) (i : Nat) : Nat → Option (List Bool)
  | 0 => some occupied
  | n + 1 => if i < occupied.length then markRow (occupied.set i true) (i + 1) n else none

/-- The cells of a block are taken (the `r` loop). -/
def markBlock (ncols col spanC : Nat) (occupied : List Bool) (row : Nat) : Nat → Option (List Bool)
  | 0 => some occupied
  | n + 1 =>
      (if row ≥ maxRows then some occupied
        else markRow occupied (row * ncols + col) spanC).bind fun occupied =>
      markBlock ncols col spanC occupied (row + 1) n

/-- What the loop over the children keeps. -/
structure GridState where
  occupied : List Bool
  items : List GridItem := []
  currentRow : Nat := 0
  currentCol : Nat := 0

/-- The loop over the children, of which there are `nkids`. -/
def placeKids (ncols nkids : Nat) (dense : Bool) : List GridKid → GridState → Option (List GridItem)
  | [], st => some st.items
  | c :: rest, st => do
      let spanC := c.spanC ncols
      let spanR := c.spanR
      let row := if dense then 0 else st.currentRow
      let col := if dense then 0 else st.currentCol
      let (row, col) ← findPlace ncols st.occupied spanR spanC row col
      if row ≥ maxRows then some st.items
      else
        let occupied ← markBlock ncols col spanC st.occupied row spanR
        placeKids ncols nkids dense rest
          { occupied
            items := if st.items.length < nkids then
                st.items ++ [⟨c.node, ⟨row, col, spanR, spanC⟩⟩]
              else st.items
            currentRow := row
            currentCol := if dense then col else col + spanC }

/-- The items that `layout_grid` places; `none` when a product is not an `int`, or a cell is not
in the table. -/
def layoutGrid (autoFit : Option Int) (gridCols : Int) (dense : Bool) (kids : List GridKid) :
    Option (List GridItem) :=
  if kids.length = 0 then some []
  else
    let ncols := columnCount autoFit gridCols kids.length
    if maxRows * ncols < 2 ^ 31 then
      placeKids ncols kids.length dense kids { occupied := List.replicate (maxRows * ncols) false }
    else none

/-! ## What the placement is to be -/

/-- The rows and columns that the children are to have. -/
def gridSizes (ncols : Nat) (kids : List GridKid) : List (Nat × Nat) :=
  kids.map fun c => (c.spanR, c.spanC ncols)

/-- Every child has a block of its size within the columns, and no two have a cell in common;
in dense flow each block is at the first place that fits, and otherwise the places go up. -/
structure GridPlaced (ncols : Nat) (dense : Bool) (kids : List GridKid) (items : List GridItem) :
    Prop where
  every : items.map (·.node) = kids.map (·.node)
  sizes : items.map (fun it => (it.area.rowSpan, it.area.colSpan)) = gridSizes ncols kids
  within : ∀ it ∈ items, it.area.col + it.area.colSpan ≤ ncols
  apart : (items.map (·.area)).Pairwise GridArea.CellsApart
  first : dense = true → ∀ front a back, items.map (·.area) = front ++ a :: back →
    a.IsFirst ncols front (toLex (0, 0))
  ascends : dense = false →
    (items.map (·.area)).Pairwise fun a b => a.place < b.place

/-- The block lies in the rows of the table. -/
def InRows (a : GridArea) : Prop := a.row + a.rowSpan ≤ maxRows

instance (a : GridArea) : Decidable (InRows a) := inferInstanceAs (Decidable (_ ≤ _))

/-! ## The cells of the table -/

/-- The table shows which cells the blocks cover. -/
structure Marked (ncols : Nat) (placed : List GridArea) (occupied : List Bool) : Prop where
  size : occupied.length = maxRows * ncols
  cell : ∀ j < occupied.length,
    occupied[j]? = some true ↔ ∃ b ∈ placed, b.Covers (j / ncols) (j % ncols)

theorem marked_start (ncols : Nat) : Marked ncols [] (List.replicate (maxRows * ncols) false) := by
  refine ⟨List.length_replicate, fun j hj => ⟨fun h => ?_, fun ⟨b, hb, _⟩ => nomatch hb⟩⟩
  rw [List.length_replicate] at hj
  rw [List.getElem?_replicate, if_pos hj] at h
  cases h

variable {ncols row col spanC spanR n i j : Nat} {occupied : List Bool} {placed : List GridArea}

theorem mem_row_iff (hcol : col + spanC ≤ ncols) :
    (row * ncols + col ≤ j ∧ j < row * ncols + col + spanC) ↔
      j / ncols = row ∧ col ≤ j % ncols ∧ j % ncols < col + spanC := by
  constructor
  · rintro ⟨hlow, hhigh⟩
    obtain ⟨hdiv, hmod⟩ := row_column (w := ncols) (y := row) (p := j) (by omega)
    rw [hdiv, hmod]
    omega
  · rintro ⟨hdiv, hlow, hhigh⟩
    have := Nat.div_add_mod j ncols
    rw [hdiv, Nat.mul_comm] at this
    omega

/-- A row of the table ends in it. -/
theorem row_le_size (hrow : row < maxRows) (hcol : col + spanC ≤ ncols) :
    row * ncols + col + spanC ≤ maxRows * ncols := by
  have := Nat.mul_le_mul_right ncols (Nat.succ_le_of_lt hrow)
  rw [Nat.succ_mul] at this
  omega

/-- The cells of a block are those of its first row and those of the rows below. -/
theorem covers_succ {r c : Nat} :
    GridArea.Covers ⟨row, col, n + 1, spanC⟩ r c ↔
      (r = row ∧ col ≤ c ∧ c < col + spanC) ∨ GridArea.Covers ⟨row + 1, col, n, spanC⟩ r c := by
  simp only [GridArea.Covers]
  omega

theorem rowFree_spec (h : i + n ≤ occupied.length) :
    ∃ free, rowFree occupied i n = some free ∧
      (free = true ↔ ∀ j, i ≤ j ∧ j < i + n → occupied[j]? ≠ some true) := by
  induction n generalizing i with
  | zero => exact ⟨true, rfl, iff_of_true rfl fun j hj => absurd hj (by omega)⟩
  | succ n ih =>
    have hi : i < occupied.length := by omega
    rw [rowFree, List.getElem?_eq_getElem hi]
    cases htaken : occupied[i] with
    | true =>
      refine ⟨false, rfl, iff_of_false Bool.false_ne_true fun hall => ?_⟩
      exact hall i ⟨Nat.le_refl i, by omega⟩ (by rw [List.getElem?_eq_getElem hi, htaken])
    | false =>
      obtain ⟨free, hfree, hiff⟩ := ih (i := i + 1) (by omega)
      refine ⟨free, hfree, hiff.trans ⟨fun hall j hj => ?_, fun hall j hj => hall j (by omega)⟩⟩
      rcases Nat.eq_or_lt_of_le hj.1 with rfl | hlt
      · rw [List.getElem?_eq_getElem hi, htaken]
        exact fun hsome => nomatch hsome
      · exact hall j (by omega)

theorem blockFree_spec (hsize : occupied.length = maxRows * ncols) (hcol : col + spanC ≤ ncols)
    (hrow : row ≤ maxRows) :
    ∃ free, blockFree ncols occupied col spanC row n = some free ∧
      (free = true ↔ row + n ≤ maxRows ∧ ∀ j < occupied.length,
        GridArea.Covers ⟨row, col, n, spanC⟩ (j / ncols) (j % ncols) →
          occupied[j]? ≠ some true) := by
  induction n generalizing row with
  | zero =>
    refine ⟨true, rfl, iff_of_true rfl ⟨hrow, fun j _ hcovers => ?_⟩⟩
    exact absurd hcovers.1 (by dsimp only; omega)
  | succ n ih =>
    rw [blockFree]
    split_ifs with hend
    · exact ⟨false, rfl, iff_of_false Bool.false_ne_true fun h => absurd h.1 (by omega)⟩
    · have hlt : row < maxRows := Nat.lt_of_not_le hend
      have hin := row_le_size hlt hcol
      obtain ⟨first, hfirst, hfirst_iff⟩ := rowFree_spec (hin.trans_eq hsize.symm)
      obtain ⟨free, hfree, hfree_iff⟩ := ih hlt
      simp only [mem_row_iff hcol] at hfirst_iff
      rw [hfirst]
      cases first with
      | true =>
        refine ⟨free, hfree, hfree_iff.trans ⟨fun ⟨hrows, hall⟩ => ⟨by omega, fun j hj hc => ?_⟩,
          fun ⟨hrows, hall⟩ => ⟨by omega, fun j hj hc => hall j hj (covers_succ.2 (.inr hc))⟩⟩⟩
        rcases covers_succ.1 hc with hc | hc
        · exact hfirst_iff.1 rfl j hc
        · exact hall j hj hc
      | false =>
        refine ⟨false, rfl, iff_of_false Bool.false_ne_true fun ⟨_, hall⟩ => ?_⟩
        refine Bool.false_ne_true (hfirst_iff.2 fun j hj => hall j ?_ (covers_succ.2 (.inl hj)))
        have := ((mem_row_iff hcol).2 hj).2
        omega

theorem Marked.apart_iff (hmarked : Marked ncols placed occupied) {a : GridArea}
    (hcol : a.col + a.colSpan ≤ ncols) (hrows : InRows a) :
    (∀ b ∈ placed, b.CellsApart a) ↔
      ∀ j < occupied.length, a.Covers (j / ncols) (j % ncols) → occupied[j]? ≠ some true := by
  constructor
  · intro hapart j hj hcovers htaken
    obtain ⟨b, hb, hcell⟩ := (hmarked.cell j hj).1 htaken
    exact hapart b hb _ _ hcell hcovers
  · intro hfree b hb r c hbc hac
    have hr : r < maxRows := Nat.lt_of_lt_of_le hac.1.2 hrows
    have hc : c + 1 ≤ ncols := by have := hac.2.2; omega
    have hj : r * ncols + c < occupied.length := by
      rw [hmarked.size]
      exact row_le_size hr hc
    obtain ⟨hdiv, hmod⟩ := row_column (w := ncols) (y := r) (p := r * ncols + c) (by omega)
    rw [Nat.add_sub_cancel_left] at hmod
    refine hfree _ hj (by rwa [hdiv, hmod]) ((hmarked.cell _ hj).2 ⟨b, hb, ?_⟩)
    rwa [hdiv, hmod]

/-- The loop over the cells finds out whether the block fits and ends in the table. -/
theorem Marked.blockFree_iff (hmarked : Marked ncols placed occupied) (spanR : Nat)
    (hcol : col + spanC ≤ ncols) (hrow : row < maxRows) :
    ∃ free, blockFree ncols occupied col spanC row spanR = some free ∧
      (free = true ↔ InRows ⟨row, col, spanR, spanC⟩ ∧
        GridArea.Fits ncols placed ⟨row, col, spanR, spanC⟩) := by
  obtain ⟨free, hfree, hiff⟩ := blockFree_spec hmarked.size hcol (Nat.le_of_lt hrow)
  refine ⟨free, hfree, hiff.trans (and_congr_right fun hrows => ?_)⟩
  rw [← hmarked.apart_iff (a := ⟨row, col, spanR, spanC⟩) hcol hrows]
  exact ⟨fun h => ⟨hcol, h⟩, fun h => h.apart⟩

theorem markRow_spec (h : i + n ≤ occupied.length) :
    ∃ marked, markRow occupied i n = some marked ∧ marked.length = occupied.length ∧
      ∀ j < occupied.length,
        marked[j]? = some true ↔ (i ≤ j ∧ j < i + n) ∨ occupied[j]? = some true := by
  induction n generalizing i occupied with
  | zero => exact ⟨occupied, rfl, rfl, fun j _ => ⟨.inr, fun h => h.resolve_left (by omega)⟩⟩
  | succ n ih =>
    have hi : i < occupied.length := by omega
    have hset : i + 1 + n ≤ (occupied.set i true).length := by
      rw [List.length_set]
      omega
    obtain ⟨marked, hmarked, hlength, hcell⟩ := ih hset
    rw [List.length_set] at hlength hcell
    refine ⟨marked, by rw [markRow, if_pos hi, hmarked], hlength, fun j hj => ?_⟩
    rw [hcell j hj, List.getElem?_set]
    split_ifs with heq
    · exact iff_of_true (.inr rfl) (.inl (by omega))
    · exact or_congr_left (by omega)

theorem markBlock_spec (row n : Nat) (hsize : occupied.length = maxRows * ncols)
    (hcol : col + spanC ≤ ncols) :
    ∃ marked, markBlock ncols col spanC occupied row n = some marked ∧
      marked.length = occupied.length ∧ ∀ j < occupied.length,
        marked[j]? = some true ↔
          GridArea.Covers ⟨row, col, n, spanC⟩ (j / ncols) (j % ncols) ∨
            occupied[j]? = some true := by
  induction n generalizing row occupied with
  | zero =>
    refine ⟨occupied, rfl, rfl, fun j _ => ⟨.inr, fun h => h.resolve_left fun hcovers => ?_⟩⟩
    exact absurd hcovers.1 (by dsimp only; omega)
  | succ n ih =>
    -- the cells of the first row, of which there are none below the table
    have hfirst : ∃ first, (if row ≥ maxRows then some occupied
          else markRow occupied (row * ncols + col) spanC) = some first ∧
        first.length = occupied.length ∧ ∀ j < occupied.length, first[j]? = some true ↔
          (j / ncols = row ∧ col ≤ j % ncols ∧ j % ncols < col + spanC) ∨
            occupied[j]? = some true := by
      split_ifs with hrow
      · refine ⟨occupied, rfl, rfl, fun j hj => ⟨.inr, fun h => h.resolve_left fun hj' => ?_⟩⟩
        have : j / ncols < maxRows := Nat.div_lt_of_lt_mul (by rwa [Nat.mul_comm, ← hsize])
        omega
      · have hin := row_le_size (Nat.lt_of_not_le hrow) hcol
        have hspec := markRow_spec (hin.trans_eq hsize.symm)
        simpa only [mem_row_iff hcol] using hspec
    obtain ⟨first, hfirst, hlength, hcell⟩ := hfirst
    obtain ⟨marked, hmarked, hlength', hcell'⟩ := ih (row + 1) (hlength.trans hsize)
    refine ⟨marked, ?_, hlength'.trans hlength, fun j hj => ?_⟩
    · rw [markBlock, hfirst]
      exact hmarked
    · rw [hcell' j (hlength ▸ hj), hcell j hj, covers_succ, ← or_assoc,
        or_comm (a := GridArea.Covers _ _ _)]

/-- Taking the cells of a block adds it to what the table shows. -/
theorem Marked.mark (hmarked : Marked ncols placed occupied) (row spanR : Nat)
    (hcol : col + spanC ≤ ncols) :
    ∃ marked, markBlock ncols col spanC occupied row spanR = some marked ∧
      Marked ncols (placed ++ [⟨row, col, spanR, spanC⟩]) marked := by
  obtain ⟨marked, hmark, hlength, hcell⟩ := markBlock_spec row spanR hmarked.size hcol
  refine ⟨marked, hmark, hlength.trans hmarked.size, fun j hj => ?_⟩
  rw [hlength] at hj
  rw [hcell j hj, hmarked.cell j hj]
  simp only [List.mem_append, List.mem_singleton, or_and_right, exists_or, exists_eq_left]
  exact or_comm

/-! ## The search -/

variable {a : GridArea}

/-- Where a turn of the search looks, when it began at the row and column. -/
theorem turn_place (row : Nat) (hspan : spanC ≤ ncols) :
    (if col + spanC > ncols then 0 else col) + spanC ≤ ncols ∧
      toLex (row, col) ≤ toLex
        (if col + spanC > ncols then row + 1 else row, if col + spanC > ncols then 0 else col) := by
  split_ifs with hwraps
  · exact ⟨by omega, Prod.Lex.toLex_le_toLex.2 (.inl (Nat.lt_succ_self row))⟩
  · exact ⟨Nat.le_of_not_lt hwraps, le_refl _⟩

/-- The block is not to the left of where the turn looks. -/
theorem isFirst_turn (hfirst : a.IsFirst ncols placed (toLex (row, col))) :
    a.IsFirst ncols placed (toLex
      (if col + a.colSpan > ncols then row + 1 else row,
        if col + a.colSpan > ncols then 0 else col)) := by
  split_ifs with hwraps
  · exact hfirst.wrap hwraps
  · exact hfirst

/-- The search comes to the first place that fits, when the block ends in the table there. -/
theorem findPlace_found (hmarked : Marked ncols placed occupied)
    (hfirst : a.IsFirst ncols placed (toLex (row, col))) (hrows : InRows a)
    (hspan : 0 < a.rowSpan) :
    findPlace ncols occupied a.rowSpan a.colSpan row col = some (a.row, a.col) := by
  have hwithin := hfirst.fits.within
  have ha : a.row < maxRows := by unfold InRows at hrows; omega
  fun_induction findPlace ncols occupied a.rowSpan a.colSpan row col with
  | case1 row col wraps row' col' hend =>
    have hturn : a.IsFirst ncols placed (toLex (row', col')) := isFirst_turn hfirst
    have hle := Prod.Lex.toLex_le_toLex.1 hturn.from_cursor
    exact absurd hend (by dsimp only at hle; omega)
  | case2 row col wraps row' col' hend ih =>
    have hturn : a.IsFirst ncols placed (toLex (row', col')) := isFirst_turn hfirst
    have hcol : col' + a.colSpan ≤ ncols := (turn_place row (by omega)).1
    obtain ⟨free, hfree, hiff⟩ :=
      hmarked.blockFree_iff a.rowSpan hcol (Nat.lt_of_not_le hend)
    rw [hfree]
    cases free with
    | true =>
      have hplace := le_antisymm (hturn.first row' col' (hiff.1 rfl).2 (le_refl _))
        hturn.from_cursor
      exact congrArg some (toLex_inj.1 hplace).symm
    | false =>
      refine ih (hturn.next fun hat => Bool.false_ne_true (hiff.2 ?_))
      rw [← hat.1, ← hat.2]
      exact ⟨hrows, hturn.fits⟩

/-- And goes below the table, when no place from the cursor on that fits ends in it. -/
theorem findPlace_full (hmarked : Marked ncols placed occupied) (hspan : spanC ≤ ncols)
    (hnone : ∀ r c, toLex (row, col) ≤ toLex (r, c) →
      GridArea.Fits ncols placed ⟨r, c, spanR, spanC⟩ → ¬ InRows ⟨r, c, spanR, spanC⟩) :
    ∃ r c, findPlace ncols occupied spanR spanC row col = some (r, c) ∧ r ≥ maxRows := by
  fun_induction findPlace ncols occupied spanR spanC row col with
  | case1 row col wraps row' col' hend => exact ⟨row', col', rfl, hend⟩
  | case2 row col wraps row' col' hend ih =>
    have hturn : col' + spanC ≤ ncols ∧ toLex (row, col) ≤ toLex (row', col') :=
      turn_place row hspan
    obtain ⟨free, hfree, hiff⟩ :=
      hmarked.blockFree_iff spanR hturn.1 (Nat.lt_of_not_le hend)
    rw [hfree]
    cases free with
    | true =>
      obtain ⟨hrows, hfits⟩ := hiff.1 rfl
      exact absurd hrows (hnone row' col' hturn.2 hfits)
    | false =>
      have hnext : toLex (row', col') ≤ toLex (row', col' + 1) :=
        Prod.Lex.toLex_le_toLex.2 (.inr ⟨rfl, Nat.le_succ col'⟩)
      exact ih fun r c hrc => hnone r c (hturn.2.trans (hnext.trans hrc))

/-- The search from a cursor of the first place, which it finds in the rows of the table. -/
theorem findPlace_spec (hmarked : Marked ncols placed occupied)
    (hfirst : a.IsFirst ncols placed (toLex (row, col))) (hspan : 0 < a.rowSpan) :
    ∃ r c, findPlace ncols occupied a.rowSpan a.colSpan row col = some (r, c) ∧
      (if InRows a then r = a.row ∧ c = a.col else r ≥ maxRows) := by
  split_ifs with hrows
  · exact ⟨a.row, a.col, findPlace_found hmarked hfirst hrows hspan, rfl, rfl⟩
  · have hwithin := hfirst.fits.within
    refine findPlace_full hmarked (by omega) fun r c hrc hfits hin => hrows ?_
    have hle := Prod.Lex.toLex_le_toLex.1 (hfirst.first r c hfits hrc)
    unfold InRows at hin ⊢
    dsimp only at hin hle
    omega

/-! ## The loop over the children -/

theorem GridKid.spanC_pos (h : 0 < ncols) (c : GridKid) : 0 < c.spanC ncols := by
  unfold GridKid.spanC
  dsimp only
  split_ifs <;> omega

theorem GridKid.spanC_le (h : 0 < ncols) (c : GridKid) : c.spanC ncols ≤ ncols := by
  unfold GridKid.spanC
  dsimp only
  split_ifs <;> omega

theorem GridKid.spanR_pos (c : GridKid) : 0 < c.spanR := by
  unfold GridKid.spanR maxRows
  dsimp only
  split_ifs <;> omega

/-- The children with their blocks. -/
def pairUp (kids : List GridKid) (areas : List GridArea) : List GridItem :=
  (kids.zip areas).map fun p => ⟨p.1.node, p.2⟩

/-- The items of the children whose blocks lie in the table, up to the first one that does not. -/
def itemsOf (kids : List GridKid) (areas : List GridArea) : List GridItem :=
  (pairUp kids areas).takeWhile fun it => InRows it.area

theorem placeKids_spec {nkids : Nat} {dense : Bool} {kids : List GridKid} {st : GridState}
    {areas : List GridArea}
    (hmarked : Marked ncols (st.items.map (·.area)) st.occupied)
    (hfit : FirstFit ncols dense (st.items.map (·.area)) (toLex (st.currentRow, st.currentCol))
      (gridSizes ncols kids) areas)
    (hcount : st.items.length + kids.length = nkids) :
    placeKids ncols nkids dense kids st = some (st.items ++ itemsOf kids areas) := by
  induction kids generalizing st areas with
  | nil =>
    exact congrArg some (List.append_nil _).symm
  | cons c kids ih =>
    cases areas with
    | nil => exact hfit.elim
    | cons a areas =>
      obtain ⟨hfirst, hsize, hrest⟩ := hfit
      obtain ⟨hrowSpan, hcolSpan⟩ : a.rowSpan = c.spanR ∧ a.colSpan = c.spanC ncols :=
        Prod.mk.inj hsize
      have hcursor : searchFrom dense (toLex (st.currentRow, st.currentCol)) =
          toLex (if dense then 0 else st.currentRow, if dense then 0 else st.currentCol) := by
        cases dense <;> rfl
      rw [hcursor] at hfirst
      obtain ⟨row, col, hfind, hplace⟩ :=
        findPlace_spec hmarked hfirst (hrowSpan ▸ c.spanR_pos)
      rw [hrowSpan, hcolSpan] at hfind
      have hitems : itemsOf (c :: kids) (a :: areas) =
          if InRows a then ⟨c.node, a⟩ :: itemsOf kids areas else [] := by
        rw [itemsOf, pairUp, List.zip_cons_cons, List.map_cons, List.takeWhile_cons]
        simp only [decide_eq_true_eq]
        rfl
      rw [placeKids, hfind, hitems]
      split_ifs at hplace with hrows
      · obtain ⟨rfl, rfl⟩ := hplace
        have hlt : a.row < maxRows := by
          have := c.spanR_pos
          unfold InRows at hrows
          omega
        have hwithin := hfirst.fits.within
        obtain ⟨marked, hmark, hmarked'⟩ :=
          hmarked.mark a.row c.spanR (hcolSpan ▸ hwithin)
        dsimp only [bind, Option.bind]
        rw [if_neg (Nat.not_le_of_lt hlt), hmark]
        have ha : (⟨a.row, a.col, c.spanR, c.spanC ncols⟩ : GridArea) = a := by
          rw [← hrowSpan, ← hcolSpan]
        have hroom : st.items.length < nkids := by
          rw [← hcount, List.length_cons]
          omega
        have hrest' : FirstFit ncols dense ((st.items ++ [(⟨c.node, a⟩ : GridItem)]).map (·.area))
            (toLex (a.row, if dense then a.col else a.col + c.spanC ncols))
            (gridSizes ncols kids) areas := by
          rw [List.map_append]
          refine hrest.of_cursor ?_
          rw [GridArea.behind, hcolSpan]
          cases dense <;> rfl
        rw [ha] at hmarked' ⊢
        dsimp only
        rw [if_pos hroom, if_pos hrows]
        refine (ih ?_ hrest' ?_).trans ?_
        · rwa [List.map_append]
        · rw [List.length_append, List.length_singleton, ← hcount, List.length_cons]
          omega
        · rw [List.append_assoc, List.singleton_append]
      · rw [if_neg hrows, List.append_nil]
        exact if_pos hplace

theorem columnCount_pos (autoFit : Option Int) (gridCols : Int) (nkids : Nat) :
    0 < columnCount autoFit gridCols nkids := by
  unfold columnCount
  dsimp only
  split_ifs <;> omega

section Placed

variable {dense : Bool} {kids : List GridKid} {areas : List GridArea}

theorem gridSizes_length (ncols : Nat) (kids : List GridKid) :
    (gridSizes ncols kids).length = kids.length := List.length_map _

theorem firstFit_length {cursor : Nat ×ₗ Nat}
    (hfit : FirstFit ncols dense placed cursor (gridSizes ncols kids) areas) :
    areas.length = kids.length := by
  rw [← gridSizes_length ncols, ← hfit.sizes_eq, List.length_map]

theorem pairUp_areas (h : areas.length = kids.length) :
    (pairUp kids areas).map (·.area) = areas := by
  rw [pairUp, List.map_map]
  exact List.map_snd_zip (Nat.le_of_eq h)

theorem pairUp_nodes (h : areas.length = kids.length) :
    (pairUp kids areas).map (·.node) = kids.map (·.node) := by
  have hfst : (kids.zip areas).map Prod.fst = kids := List.map_fst_zip (Nat.le_of_eq h.symm)
  rw [pairUp, List.map_map]
  nth_rewrite 2 [← hfst]
  rw [List.map_map]
  rfl

/-- Blocks at the first places that fit are as they are to be. -/
theorem gridPlaced_of_firstFit (hn : 0 < ncols)
    (hfit : FirstFit ncols dense [] (toLex (0, 0)) (gridSizes ncols kids) areas) :
    GridPlaced ncols dense kids (pairUp kids areas) := by
  have hlength := firstFit_length hfit
  have hareas := pairUp_areas hlength
  refine ⟨pairUp_nodes hlength, ?_, ?_, ?_, ?_, ?_⟩
  · rw [← hfit.sizes_eq]
    nth_rewrite 2 [← hareas]
    rw [List.map_map]
    rfl
  · intro it hit
    exact hfit.within it.area (hareas ▸ List.mem_map_of_mem hit)
  · rw [hareas]
    exact hfit.apart.2
  · rintro rfl
    rw [hareas]
    exact hfit.dense_first
  · rintro rfl
    rw [hareas]
    exact (hfit.sparse_ascends (List.forall_mem_map.2 fun c _ => c.spanC_pos hn)).2

theorem itemsOf_self (h : areas.length = kids.length) (hrows : ∀ a ∈ areas, InRows a) :
    itemsOf kids areas = pairUp kids areas :=
  List.takeWhile_eq_self_iff.2 fun it hit =>
    decide_eq_true (hrows it.area (pairUp_areas h ▸ List.mem_map_of_mem hit))

theorem itemsOf_length_iff (h : areas.length = kids.length) :
    (itemsOf kids areas).length = kids.length ↔ ∀ a ∈ areas, InRows a := by
  have hpair : (pairUp kids areas).length = kids.length := by
    rw [← h, ← List.length_map (f := (·.area)), pairUp_areas h]
  constructor
  · intro hall
    have hself := (List.takeWhile_prefix _).eq_of_length (hall.trans hpair.symm)
    rw [← pairUp_areas h]
    exact List.forall_mem_map.2 fun it hit =>
      of_decide_eq_true (List.takeWhile_eq_self_iff.1 hself it hit)
  · intro hrows
    rw [itemsOf_self h hrows, hpair]

end Placed

/-- Every child's block, at the first place that fits in a grid of unlimited rows, ends in the
rows of the table. -/
def FitsTable (ncols : Nat) (dense : Bool) (kids : List GridKid) : Prop :=
  ∃ areas, FirstFit ncols dense [] (toLex (0, 0)) (gridSizes ncols kids) areas ∧
    ∀ a ∈ areas, InRows a

/-- The placement is as it is to be exactly when the size of the table is an `int` and the
children fit the 512 rows of the table; of no children there is nothing to place. -/
theorem layoutGrid_placed_iff (autoFit : Option Int) (gridCols : Int) (dense : Bool)
    (kids : List GridKid) :
    (∃ items, layoutGrid autoFit gridCols dense kids = some items ∧
      GridPlaced (columnCount autoFit gridCols kids.length) dense kids items) ↔
    kids = [] ∨
      (maxRows * columnCount autoFit gridCols kids.length < 2 ^ 31 ∧
        FitsTable (columnCount autoFit gridCols kids.length) dense kids) := by
  have hn := columnCount_pos autoFit gridCols kids.length
  unfold layoutGrid
  dsimp only
  generalize columnCount autoFit gridCols kids.length = ncols at hn ⊢
  have hsizes : ∀ size ∈ gridSizes ncols kids, size.2 ≤ ncols :=
    List.forall_mem_map.2 fun c _ => c.spanC_le hn
  obtain ⟨areas, hfit⟩ : ∃ areas, FirstFit ncols dense [] (toLex (0, 0)) _ areas :=
    exists_firstFit [] (toLex (0, 0)) hsizes
  have hrun : placeKids ncols kids.length dense kids
      { occupied := List.replicate (maxRows * ncols) false } = some ([] ++ itemsOf kids areas) :=
    placeKids_spec (marked_start ncols) hfit (Nat.zero_add kids.length)
  have hlength := firstFit_length hfit
  have hplaced := gridPlaced_of_firstFit hn hfit
  split_ifs with hnone hsize
  · obtain rfl := List.length_eq_zero_iff.1 hnone
    exact iff_of_true ⟨[], rfl, by simpa [pairUp] using hplaced⟩ (.inl rfl)
  · rw [hrun, List.nil_append]
    constructor
    · rintro ⟨items, ⟨⟩, hitems⟩
      refine .inr ⟨hsize, areas, hfit, (itemsOf_length_iff hlength).1 ?_⟩
      rw [← List.length_map (f := (·.node)), hitems.every, List.length_map]
    · rintro (rfl | ⟨_, areas', hfit', hrows⟩)
      · exact absurd rfl hnone
      · obtain rfl := hfit.unique hfit'
        refine ⟨_, rfl, ?_⟩
        rwa [itemsOf_self hlength hrows]
  · constructor
    · rintro ⟨items, ⟨⟩, _⟩
    · rintro (rfl | ⟨hsize', _⟩)
      · exact absurd rfl hnone
      · exact absurd hsize' hsize

/-- 4194304 columns make the size of the table 2³¹. -/
theorem table_too_large : ∃ n, gridTemplateColumns (ascii "repeat(4194304,1fr)") = some n ∧
    ¬ ∃ items, layoutGrid none n false [⟨0, 1, 1⟩] = some items ∧
      GridPlaced (columnCount none n 1) false [⟨0, 1, 1⟩] items := by
  refine ⟨4194304, ?_, fun ⟨items, hitems, _⟩ => ?_⟩
  · exact gridTemplateColumns_repeat (n := 4194304) (by decide) (by decide)
  · have hnone : layoutGrid none 4194304 false [⟨0, 1, 1⟩] = none := rfl
    rw [hnone] at hitems
    cases hitems

end TinyFramework.Layout
