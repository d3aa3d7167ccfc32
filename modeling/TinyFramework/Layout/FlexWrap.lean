/-
  Layout/FlexWrap.lean --- the lines of a wrapping flex row (`mini_dom.c`).

  The multi-line branch of `layout_node` opens a line when the widths on the line so far, the
  next one and one gap go past the content width, and keeps the lines in a table of 128.
  Lengths are exact.
-/
import Mathlib.Data.List.Chain
import Mathlib.Tactic.Linarith
import TinyFramework.Foundation.LineFill

set_option autoImplicit false

namespace TinyFramework.Layout

open Foundation

/-- An entry of the table of lines. -/
structure FlexLine where
  startIdx : Nat
  count : Nat
  lineUsed : ℚ
  lineMaxCross : ℚ
  deriving DecidableEq, Repr

/-- What the loop keeps of the lines so far and of the one that it fills. -/
structure WrapState where
  lines : List FlexLine := []
  lineStart : Nat := 0
  lineCount : Nat := 0
  lineUsed : ℚ := 0
  lineMaxCross : ℚ := 0

/-- `FlexLine lines[128]` -/
def maxLines : Nat := 128

/-- The line is put into the table, if there is room. -/
def WrapState.push (st : WrapState) : List FlexLine :=
  if st.lines.length < maxLines then
    st.lines ++ [⟨st.lineStart, st.lineCount, st.lineUsed, st.lineMaxCross⟩]
  else st.lines

section Wrap

/- Children with the outer sizes, width and height with margins, of their first layout. -/
variable {α : Type} (outer cross : α → ℚ) (mainAvail gapPx : ℚ)

/-- A turn of the loop, for the child with an index. -/
def wrapTurn (i : Nat) (c : α) (st : WrapState) : WrapState :=
  let st :=
    if st.lineCount > 0 ∧ st.lineUsed + outer c + gapPx > mainAvail then
      { lines := st.push, lineStart := i }
    else st
  { st with
    lineUsed := st.lineUsed + outer c
    lineMaxCross := if cross c > st.lineMaxCross then cross c else st.lineMaxCross
    lineCount := st.lineCount + 1 }

/-- The loop over the children from an index on, and the line behind it. -/
def wrapLoop : Nat → List α → WrapState → List FlexLine
  | _, [], st => if st.lineCount > 0 then st.push else st.lines
  | i, c :: rest, st => wrapLoop (i + 1) rest (wrapTurn outer cross mainAvail gapPx i c st)

/-- The lines of the children of a wrapping row. -/
def flexLines (kids : List α) : List FlexLine := wrapLoop outer cross mainAvail gapPx 0 kids {}

/-! ## What the lines are to be -/

/-- The children on a line. -/
def FlexLine.kidsOf (kids : List α) (l : FlexLine) : List α := (kids.drop l.startIdx).take l.count

/-- Consecutive runs that leave out no child; those of several children fit with their gaps, and
the first child of each one behind another would not have fitted there. -/
structure Wrapped (kids : List α) (lines : List FlexLine) : Prop where
  parts : (lines.map fun l => List.range' l.startIdx l.count).flatten = List.range kids.length
  nonempty : ∀ l ∈ lines, 0 < l.count
  fits : ∀ l ∈ lines, 1 < l.count →
    widthOf outer (l.kidsOf kids) + (l.count - 1 : ℚ) * gapPx ≤ mainAvail
  breaks : lines.IsChain fun a b => ∀ c, kids[b.startIdx]? = some c →
    mainAvail < widthOf outer (a.kidsOf kids) + a.count * gapPx + outer c

/-! ## When they are -/

/-- The test of the loop: the widths and one gap go past the content width. -/
def opensLine (line : List α) (c : α) : Bool :=
  !line.isEmpty && decide (widthOf outer line + outer c + gapPx > mainAvail)

/-- The children as lines filled by that test, without an end. -/
def runs (kids : List α) : List (List α) :=
  (fillLines (opensLine outer mainAvail gapPx) [] (kids.map some)).map (·.words)

/-- There is room for the lines; the test counts one gap of a line, and in those of three children
or more what it leaves has room for the others; and where gaps are negative the first child of the
next line does not fit with all of them. -/
structure WrapStands (kids : List α) : Prop where
  room : (runs outer mainAvail gapPx kids).length ≤ maxLines
  fits : ∀ run ∈ runs outer mainAvail gapPx kids, 2 < run.length →
    (run.length - 2 : ℚ) * gapPx ≤ mainAvail - (widthOf outer run + gapPx)
  breaks : gapPx < 0 → (runs outer mainAvail gapPx kids).IsChain fun a b =>
    1 < a.length → ∀ c ∈ b.head?, mainAvail < widthOf outer a + a.length * gapPx + outer c

/-! ## The loop -/

variable {outer cross mainAvail gapPx}

/-- `line_max_cross` of a line. -/
def maxCross (cross : α → ℚ) (line : List α) : ℚ :=
  line.foldl (fun m c => if cross c > m then cross c else m) 0

/-- The entry of a line whose first child has the index. -/
def lineAt (outer cross : α → ℚ) (i : Nat) (line : List α) : FlexLine :=
  ⟨i, line.length, widthOf outer line, maxCross cross line⟩

/-- The entries of lines one behind another. -/
def entries (outer cross : α → ℚ) : Nat → List (List α) → List FlexLine
  | _, [] => []
  | i, line :: rest => lineAt outer cross i line :: entries outer cross (i + line.length) rest

/-- The state holds the lines so far, as far as the table goes, and the line it fills. -/
structure Fills (outer cross : α → ℚ) (lines : List FlexLine) (i : Nat) (line : List α)
    (st : WrapState) : Prop where
  lines : st.lines = lines.take maxLines
  start : st.lineStart + line.length = i
  entry : lineAt outer cross st.lineStart line =
    ⟨st.lineStart, st.lineCount, st.lineUsed, st.lineMaxCross⟩

variable {lines : List FlexLine} {i : Nat} {line : List α} {st : WrapState} {c : α}

theorem Fills.count (h : Fills outer cross lines i line st) : st.lineCount = line.length :=
  (congrArg FlexLine.count h.entry).symm

theorem Fills.used (h : Fills outer cross lines i line st) : st.lineUsed = widthOf outer line :=
  (congrArg FlexLine.lineUsed h.entry).symm

theorem Fills.push (h : Fills outer cross lines i line st) :
    st.push = (lines ++ [lineAt outer cross st.lineStart line]).take maxLines := by
  rw [WrapState.push, ← h.entry, h.lines, List.length_take]
  split_ifs with hroom
  · rw [List.take_of_length_le (by omega), List.take_of_length_le]
    rw [List.length_append, List.length_singleton]
    omega
  · rw [List.take_append_of_le_length (by omega)]

/-- A child that stays on the line. -/
theorem Fills.stays (h : Fills outer cross lines i line st) (c : α) :
    Fills outer cross lines (i + 1) (line ++ [c])
      { st with
        lineUsed := st.lineUsed + outer c
        lineMaxCross := if cross c > st.lineMaxCross then cross c else st.lineMaxCross
        lineCount := st.lineCount + 1 } := by
  have hcross : st.lineMaxCross = maxCross cross line :=
    (congrArg FlexLine.lineMaxCross h.entry).symm
  refine ⟨h.lines, ?_, ?_⟩
  · rw [List.length_append, List.length_singleton, ← Nat.add_assoc, h.start]
  · rw [lineAt, widthOf_concat, ← h.used, List.length_append, List.length_singleton, ← h.count,
      maxCross, List.foldl_concat, ← maxCross, ← hcross]

/-- The test of the loop is that of the filling. -/
theorem Fills.opens_iff (h : Fills outer cross lines i line st) :
    (st.lineCount > 0 ∧ st.lineUsed + outer c + gapPx > mainAvail) ↔
      opensLine outer mainAvail gapPx line c = true := by
  rw [opensLine, Bool.and_eq_true, Bool.not_eq_true', List.isEmpty_eq_false_iff,
    decide_eq_true_eq, h.count, h.used, gt_iff_lt, List.length_pos_iff]

theorem wrapTurn_stays (h : Fills outer cross lines i line st)
    (hopens : ¬ opensLine outer mainAvail gapPx line c = true) :
    Fills outer cross lines (i + 1) (line ++ [c])
      (wrapTurn outer cross mainAvail gapPx i c st) ∧
      (wrapTurn outer cross mainAvail gapPx i c st).lineStart = st.lineStart := by
  rw [wrapTurn, if_neg (mt h.opens_iff.1 hopens)]
  exact ⟨h.stays c, rfl⟩

theorem wrapTurn_opens (h : Fills outer cross lines i line st)
    (hopens : opensLine outer mainAvail gapPx line c = true) :
    Fills outer cross (lines ++ [lineAt outer cross st.lineStart line]) (i + 1) [c]
      (wrapTurn outer cross mainAvail gapPx i c st) ∧
      (wrapTurn outer cross mainAvail gapPx i c st).lineStart = st.lineStart + line.length := by
  have hnew : Fills outer cross (lines ++ [lineAt outer cross st.lineStart line]) i []
      { lines := st.push, lineStart := i } := ⟨h.push, rfl, rfl⟩
  rw [wrapTurn, if_pos (h.opens_iff.2 hopens)]
  exact ⟨hnew.stays c, h.start.symm⟩

/-- The lines of the loop are those of the filling, as many as the table holds. -/
theorem wrapLoop_eq (kids : List α) (h : Fills outer cross lines i line st) :
    wrapLoop outer cross mainAvail gapPx i kids st =
      (lines ++ entries outer cross st.lineStart
        ((fillLines (opensLine outer mainAvail gapPx) line (kids.map some)).map (·.words))).take
          maxLines := by
  induction kids generalizing lines i line st with
  | nil =>
    have hcount := h.count
    rw [wrapLoop, List.map_nil, fillLines]
    cases line with
    | nil =>
      rw [if_neg (by simp [hcount]), h.lines]
      simp [entries]
    | cons c line =>
      rw [if_pos (by simp [hcount]), h.push]
      rfl
  | cons c kids ih =>
    rw [wrapLoop, List.map_cons]
    by_cases hopens : opensLine outer mainAvail gapPx line c = true
    · obtain ⟨hturn, hstart⟩ := wrapTurn_opens h hopens
      rw [ih hturn, hstart, fillLines_opens hopens, List.map_cons, entries, List.append_assoc,
        List.singleton_append]
    · obtain ⟨hturn, hstart⟩ := wrapTurn_stays h hopens
      rw [ih hturn, hstart, fillLines_stays hopens]

/-- The table of lines in full. -/
theorem flexLines_eq (kids : List α) :
    flexLines outer cross mainAvail gapPx kids =
      (entries outer cross 0 (runs outer mainAvail gapPx kids)).take maxLines := by
  have hstart : Fills outer cross [] 0 [] {} := ⟨rfl, rfl, rfl⟩
  exact wrapLoop_eq kids hstart

/-! ## The entries of lines -/

theorem length_entries (outer cross : α → ℚ) (i : Nat) (rs : List (List α)) :
    (entries outer cross i rs).length = rs.length := by
  induction rs generalizing i with
  | nil => rfl
  | cons r rs ih => rw [entries, List.length_cons, ih, List.length_cons]

theorem entries_parts (outer cross : α → ℚ) (i : Nat) (rs : List (List α)) :
    ((entries outer cross i rs).map fun l => List.range' l.startIdx l.count).flatten =
      List.range' i rs.flatten.length := by
  induction rs generalizing i with
  | nil => rfl
  | cons r rs ih =>
    rw [entries, List.map_cons, List.flatten_cons, ih, List.flatten_cons, List.length_append]
    exact List.range'_append_1

/-- The entries beside the lines they are of. -/
theorem entries_kidsOf (outer cross : α → ℚ) (front : List α) (rs : List (List α)) :
    (entries outer cross front.length rs).map (FlexLine.kidsOf (front ++ rs.flatten)) = rs := by
  induction rs generalizing front with
  | nil => rfl
  | cons r rs ih =>
    have hrest := ih (front ++ r)
    rw [List.length_append, List.append_assoc] at hrest
    rw [entries, List.map_cons, List.flatten_cons, hrest]
    refine congrArg (· :: rs) ?_
    rw [FlexLine.kidsOf, lineAt, List.drop_left, List.take_left]

theorem entries_count (outer cross : α → ℚ) (i : Nat) (rs : List (List α)) :
    (entries outer cross i rs).map (·.count) = rs.map List.length := by
  induction rs generalizing i with
  | nil => rfl
  | cons r rs ih => rw [entries, List.map_cons, List.map_cons, ih, lineAt]

/-- The first child of a line that is not empty. -/
theorem head?_kidsOf {kids : List α} {l : FlexLine} (h : 0 < l.count) :
    (l.kidsOf kids).head? = kids[l.startIdx]? := by
  rw [FlexLine.kidsOf, List.head?_take, if_neg (Nat.pos_iff_ne_zero.1 h), List.head?_drop]

/-! ## The whole -/

variable {kids : List α}

theorem flatten_runs : (runs outer mainAvail gapPx kids).flatten = kids :=
  flatten_fillLines _ kids []

theorem opensLine_nil (c : α) : opensLine outer mainAvail gapPx [] c = false := rfl

theorem runs_grown :
    (∀ r ∈ runs outer mainAvail gapPx kids,
      r ≠ [] ∧ Grown (opensLine outer mainAvail gapPx) r) ∧
    (runs outer mainAvail gapPx kids).IsChain fun a b =>
      ∀ c ∈ b.head?, opensLine outer mainAvail gapPx a c = true := by
  have hnil : Grown (opensLine outer mainAvail gapPx) [] := fun a t b h => by simp at h
  obtain ⟨hmem, hchain⟩ := fillLines_grown opensLine_nil kids hnil
  exact ⟨List.forall_mem_map.2 hmem, (List.isChain_map _).2 hchain⟩

theorem entries_runs (outer cross : α → ℚ) (mainAvail gapPx : ℚ) (kids : List α) :
    (entries outer cross 0 (runs outer mainAvail gapPx kids)).map (FlexLine.kidsOf kids) =
      runs outer mainAvail gapPx kids := by
  have h := entries_kidsOf outer cross [] (runs outer mainAvail gapPx kids)
  rwa [List.nil_append, flatten_runs] at h

theorem entry_count {l : FlexLine}
    (hl : l ∈ entries outer cross 0 (runs outer mainAvail gapPx kids)) :
    l.count = (l.kidsOf kids).length := by
  have hcounts := entries_count outer cross 0 (runs outer mainAvail gapPx kids)
  nth_rewrite 2 [← entries_runs outer cross] at hcounts
  rw [List.map_map] at hcounts
  exact List.map_eq_map_iff.1 hcounts l hl

/-- A line of two children fits with its gap, and the child behind a line of one does not. -/
theorem width_of_two {r : List α} (hr : r ∈ runs outer mainAvail gapPx kids) (htwo : r.length = 2) :
    widthOf outer r + (r.length - 1 : ℚ) * gapPx ≤ mainAvail := by
  obtain ⟨a, b, rfl⟩ := List.length_eq_two.1 htwo
  have hgrown := (runs_grown.1 _ hr).2 [a] b [] rfl
  simp only [opensLine, List.isEmpty_cons, Bool.not_false, Bool.true_and,
    decide_eq_false_iff_not, not_lt, gt_iff_lt, widthOf_singleton] at hgrown
  have hwidth : widthOf outer [a, b] = outer a + outer b := by
    rw [← List.singleton_append, widthOf_concat, widthOf_singleton]
  rw [htwo, hwidth]
  push_cast
  linarith

/-- A child that opens a line does not fit on the one before it, where its gaps are no less than
one gap. -/
theorem width_of_next {a : List α} {c : α} (hopens : opensLine outer mainAvail gapPx a c = true)
    (hgap : 0 ≤ gapPx ∨ a.length = 1) :
    mainAvail < widthOf outer a + a.length * gapPx + outer c := by
  rw [opensLine, Bool.and_eq_true, Bool.not_eq_true', List.isEmpty_eq_false_iff,
    decide_eq_true_eq] at hopens
  have hlen : (1 : ℚ) ≤ a.length := by
    exact_mod_cast List.length_pos_iff.2 hopens.1
  have hgaps : gapPx ≤ a.length * gapPx := by
    rcases hgap with hgap | hgap
    · nlinarith
    · rw [hgap, Nat.cast_one, one_mul]
  linarith [hopens.2]

/-- What is to hold of the entries is said of the lines themselves. -/
theorem wrapped_iff {L : List FlexLine}
    (hparts : (L.map fun l => List.range' l.startIdx l.count).flatten = List.range kids.length)
    (hcount : ∀ l ∈ L, l.count = (l.kidsOf kids).length) (hpos : ∀ l ∈ L, 0 < l.count) :
    Wrapped outer mainAvail gapPx kids L ↔
      (∀ run ∈ L.map (FlexLine.kidsOf kids), 1 < run.length →
        widthOf outer run + (run.length - 1 : ℚ) * gapPx ≤ mainAvail) ∧
      (L.map (FlexLine.kidsOf kids)).IsChain fun a b => ∀ c ∈ b.head?,
        mainAvail < widthOf outer a + a.length * gapPx + outer c := by
  rw [List.forall_mem_map, List.isChain_map, List.IsChain.iff_mem]
  constructor
  · intro h
    refine ⟨fun l hl => by rw [← hcount l hl]; exact h.fits l hl, ?_⟩
    refine (List.IsChain.iff_mem.1 h.breaks).imp fun a b ⟨ha, hb, hab⟩ => ⟨ha, hb, ?_⟩
    intro c hc
    rw [← hcount a ha]
    exact hab c ((head?_kidsOf (hpos b hb)).symm.trans hc)
  · rintro ⟨hfits, hbreaks⟩
    refine ⟨hparts, hpos, fun l hl => by rw [hcount l hl]; exact hfits l hl, ?_⟩
    refine hbreaks.imp fun a b ⟨ha, hb, hab⟩ c hc => ?_
    rw [hcount a ha]
    exact hab c ((head?_kidsOf (hpos b hb)).trans hc)

/-- The lines are as they are to be exactly when the table has room for them, those of three
children or more fit with all their gaps, and no negative gaps would let the next child fit. -/
theorem flexLines_wrapped_iff (outer cross : α → ℚ) (mainAvail gapPx : ℚ) (kids : List α) :
    Wrapped outer mainAvail gapPx kids (flexLines outer cross mainAvail gapPx kids) ↔
      WrapStands outer mainAvail gapPx kids := by
  have hmap := entries_runs outer cross mainAvail gapPx kids
  have hcount : ∀ l ∈ entries outer cross 0 (runs outer mainAvail gapPx kids),
      l.count = (l.kidsOf kids).length := fun l => entry_count
  have hparts := entries_parts outer cross 0 (runs outer mainAvail gapPx kids)
  have hlength := length_entries outer cross 0 (runs outer mainAvail gapPx kids)
  rw [flatten_runs, ← List.range_eq_range'] at hparts
  rw [flexLines_eq]
  generalize entries outer cross 0 (runs outer mainAvail gapPx kids) = L at *
  have hpos : ∀ l ∈ L, 0 < l.count := by
    intro l hl
    have hmem := List.mem_map_of_mem (f := FlexLine.kidsOf kids) hl
    rw [hmap] at hmem
    rw [hcount l hl]
    exact List.length_pos_iff.2 (runs_grown.1 _ hmem).1
  constructor
  · intro h
    have hroom : L.length ≤ maxLines := by
      have hall : ((L.take maxLines ++ L.drop maxLines).map fun l =>
          List.range' l.startIdx l.count).flatten = List.range kids.length := by
        rwa [List.take_append_drop]
      rw [List.map_append, List.flatten_append, h.parts, List.append_right_eq_self,
        List.flatten_eq_nil_iff, List.forall_mem_map] at hall
      cases hdrop : L.drop maxLines with
      | nil => exact List.drop_eq_nil_iff.1 hdrop
      | cons l rest =>
        have hl : l ∈ L.drop maxLines := hdrop ▸ List.mem_cons_self
        have hzero : l.count = 0 := List.range'_eq_nil_iff.1 (hall l hl)
        exact absurd hzero (Nat.pos_iff_ne_zero.1 (hpos l (List.mem_of_mem_drop hl)))
    rw [List.take_of_length_le hroom, wrapped_iff hparts hcount hpos, hmap] at h
    refine ⟨hlength ▸ hroom, fun r hr hthree => ?_, fun _ => ?_⟩
    · have hfits := h.1 r hr (by omega)
      linarith
    exact h.2.imp fun a b hab _ => hab
  · intro h
    rw [List.take_of_length_le (hlength.trans_le h.room), wrapped_iff hparts hcount hpos, hmap]
    refine ⟨fun r hr hlong => ?_, ?_⟩
    · rcases Nat.lt_or_eq_of_le hlong with hthree | htwo
      · have hfits := h.fits r hr hthree
        linarith
      · exact width_of_two hr htwo.symm
    · rw [List.isChain_iff_getElem]
      intro i hi c hc
      have hne := (runs_grown.1 _ (List.getElem_mem (Nat.lt_of_succ_lt hi))).1
      have hopens := List.isChain_iff_getElem.1 runs_grown.2 i hi c hc
      rcases le_or_gt 0 gapPx with hgap | hgap
      · exact width_of_next hopens (.inl hgap)
      rcases Nat.lt_or_eq_of_le (List.length_pos_iff.2 hne) with hlong | hone
      · exact List.isChain_iff_getElem.1 (h.breaks hgap) i hi hlong c hc
      · exact width_of_next hopens (.inr hone.symm)

end Wrap

/-- Three children of 30 pixels and two gaps of 10 on a line of 100 pixels. -/
theorem three_not_wrapped :
    ¬ Wrapped (fun w : ℚ => w) 100 10 [30, 30, 30]
      (flexLines (fun w => w) (fun _ => 20) 100 10 [30, 30, 30]) := by
  intro h
  have hline : (⟨0, 3, 90, 20⟩ : FlexLine) ∈
      flexLines (fun w : ℚ => w) (fun _ => 20) 100 10 [30, 30, 30] := by decide +kernel
  exact absurd (h.fits _ hline (by decide)) (by decide +kernel)

end TinyFramework.Layout
