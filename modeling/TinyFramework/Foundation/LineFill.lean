/-
  Foundation/LineFill.lean --- greedy filling of lines.

  Words are put on a line until a test says that the next one opens a new line, or until
  a break is forced.  A wrapper that keeps only the width of its line, and counts, agrees
  with the filled lines where no line falls between its own limit and theirs.
-/
import Mathlib.Algebra.BigOperators.Group.List.Basic
import Mathlib.Algebra.Order.Group.Defs

set_option autoImplicit false

namespace TinyFramework.Foundation

/-- What ended a line: a word that opened the next one, a forced break, or the end. -/
inductive LineEnd where
  | wrap
  | forced
  | last
  deriving DecidableEq, Repr

/-- A filled line. -/
structure FilledLine (α : Type) where
  words : List α
  ending : LineEnd
  deriving DecidableEq, Repr

section Fill

variable {α : Type} (opens : List α → α → Bool)

/-- The lines of a sequence of words, begun behind `line`; `none` forces a break, and
`opens line t` says that `t` does not go on `line` any more. -/
def fillLines : List α → List (Option α) → List (FilledLine α)
  | line, [] => if line.isEmpty then [] else [⟨line, .last⟩]
  | line, none :: ts => ⟨line, .forced⟩ :: fillLines [] ts
  | line, some t :: ts =>
      if opens line t then ⟨line, .wrap⟩ :: fillLines [t] ts else fillLines (line ++ [t]) ts

variable {line : List α} {t : α} {ts : List (Option α)}

/-- The words a line was begun with stand at its head. -/
theorem fillLines_head (ts : List (Option α)) (line : List α) (hne : line ≠ []) :
    ∃ more ending rest, fillLines opens line ts = ⟨line ++ more, ending⟩ :: rest := by
  induction ts generalizing line with
  | nil =>
    refine ⟨[], .last, [], ?_⟩
    rw [List.append_nil]
    exact if_neg (by simpa using hne)
  | cons t ts ih =>
    cases t with
    | none => exact ⟨[], .forced, fillLines opens [] ts, by rw [List.append_nil]; rfl⟩
    | some t =>
      by_cases hopens : opens line t = true
      · refine ⟨[], .wrap, fillLines opens [t] ts, ?_⟩
        rw [List.append_nil]
        exact if_pos hopens
      · obtain ⟨more, ending, rest, h⟩ := ih (line ++ [t]) (by simp)
        refine ⟨t :: more, ending, rest, ?_⟩
        rw [List.append_assoc, List.singleton_append] at h
        rw [← h]
        exact if_neg hopens

variable {opens}

theorem fillLines_opens (h : opens line t = true) :
    fillLines opens line (some t :: ts) = ⟨line, .wrap⟩ :: fillLines opens [t] ts :=
  if_pos h

theorem fillLines_stays (h : ¬ opens line t = true) :
    fillLines opens line (some t :: ts) = fillLines opens (line ++ [t]) ts :=
  if_neg h

/-- A line that takes no more words and was ended by a wrap was ended by the next one. -/
theorem fillLines_wrap {rest : List (FilledLine α)}
    (h : fillLines opens line ts = ⟨line, .wrap⟩ :: rest) :
    ∃ t ts', ts = some t :: ts' ∧ opens line t = true := by
  cases ts with
  | nil =>
    unfold fillLines at h
    split_ifs at h
    simp at h
  | cons t ts =>
    cases t with
    | none => simp [fillLines] at h
    | some t =>
      refine ⟨t, ts, rfl, ?_⟩
      by_contra hopens
      rw [fillLines_stays hopens] at h
      obtain ⟨more, ending, rest', h'⟩ :=
        fillLines_head opens ts (line ++ [t]) (by simp)
      rw [h'] at h
      have hwords := congrArg FilledLine.words (List.cons.inj h).1
      simp at hwords

/-- No word is lost. -/
theorem exists_line_of_mem (opens : List α → α → Bool) {t : α} (ts : List (Option α)) (line : List α)
    (h : t ∈ line ∨ some t ∈ ts) : ∃ l ∈ fillLines opens line ts, t ∈ l.words := by
  induction ts generalizing line with
  | nil =>
    have ht : t ∈ line := by simpa using h
    refine ⟨⟨line, .last⟩, ?_, ht⟩
    have hfill : fillLines opens line [] = [⟨line, .last⟩] :=
      if_neg (by simpa using List.ne_nil_of_mem ht)
    rw [hfill]
    exact List.mem_singleton_self _
  | cons u ts ih =>
    cases u with
    | none =>
      rcases h with h | h
      · exact ⟨⟨line, .forced⟩, List.mem_cons_self, h⟩
      · obtain ⟨l, hl, ht⟩ := ih [] (Or.inr (by simpa using h))
        exact ⟨l, List.mem_cons_of_mem _ hl, ht⟩
    | some u =>
      by_cases hopens : opens line u = true
      · rw [fillLines_opens hopens]
        rcases h with h | h
        · exact ⟨⟨line, .wrap⟩, List.mem_cons_self, h⟩
        · obtain ⟨l, hl, ht⟩ := ih [u] (by simpa using h)
          exact ⟨l, List.mem_cons_of_mem _ hl, ht⟩
      · rw [fillLines_stays hopens]
        refine ih (line ++ [u]) ?_
        rw [List.mem_append, List.mem_singleton]
        rw [List.mem_cons, Option.some.injEq] at h
        tauto

/-- Every break and every word begins at most one line. -/
theorem length_fillLines_le (opens : List α → α → Bool) (ts : List (Option α)) (line : List α) :
    (fillLines opens line ts).length ≤ ts.length + 1 := by
  induction ts generalizing line with
  | nil =>
    unfold fillLines
    split_ifs <;> simp
  | cons u ts ih =>
    cases u with
    | none => exact Nat.succ_le_succ (ih [])
    | some u =>
      unfold fillLines
      split_ifs
      · exact Nat.succ_le_succ (ih [u])
      · exact Nat.le_succ_of_le (ih _)

/-- Without forced breaks the lines are the words. -/
theorem flatten_fillLines (opens : List α → α → Bool) (ws line : List α) :
    ((fillLines opens line (ws.map some)).map (·.words)).flatten = line ++ ws := by
  induction ws generalizing line with
  | nil =>
    rw [List.map_nil, fillLines, List.append_nil]
    split_ifs with hline
    · rw [List.isEmpty_iff.1 hline]
      rfl
    · simp
  | cons t ws ih =>
    rw [List.map_cons]
    by_cases hopens : opens line t = true
    · rw [fillLines_opens hopens, List.map_cons, List.flatten_cons, ih [t], List.singleton_append]
    · rw [fillLines_stays hopens, ih, List.append_assoc, List.singleton_append]

/-- No word of the line opened another. -/
def Grown (opens : List α → α → Bool) (line : List α) : Prop :=
  ∀ a t b, line = a ++ t :: b → opens a t = false

theorem Grown.concat (hline : Grown opens line) (ht : opens line t = false) :
    Grown opens (line ++ [t]) := by
  intro a u b heq
  rcases List.eq_nil_or_concat b with rfl | ⟨b, v, rfl⟩
  · obtain ⟨rfl, hlast⟩ := List.append_inj' heq rfl
    cases hlast
    exact ht
  · rw [List.concat_eq_append, ← List.cons_append, ← List.append_assoc] at heq
    exact hline a u b (List.append_inj' heq rfl).1

/-- What holds of the lines when a word never opens a line behind an empty one. -/
theorem fillLines_grown (hempty : ∀ t, opens [] t = false) (ws : List α) {line : List α}
    (hline : Grown opens line) :
    (∀ l ∈ fillLines opens line (ws.map some), l.words ≠ [] ∧ Grown opens l.words) ∧
      (fillLines opens line (ws.map some)).IsChain fun l l' =>
        ∀ t ∈ l'.words.head?, opens l.words t = true := by
  induction ws generalizing line with
  | nil =>
    rw [List.map_nil, fillLines]
    split_ifs with hnil
    · exact ⟨fun l hl => (nomatch hl), .nil⟩
    · refine ⟨fun l hl => ?_, .singleton _⟩
      obtain rfl := List.mem_singleton.1 hl
      exact ⟨fun h => hnil (List.isEmpty_iff.2 h), hline⟩
  | cons t ws ih =>
    rw [List.map_cons]
    by_cases hopens : opens line t = true
    · have hne : line ≠ [] := by
        rintro rfl
        exact Bool.false_ne_true ((hempty t).symm.trans hopens)
      have hsingle : Grown opens [t] := Grown.concat (fun a u b h => by simp at h) (hempty t)
      obtain ⟨hmem, hchain⟩ := ih hsingle
      obtain ⟨more, ending, rest, hfill⟩ :=
        fillLines_head opens (ws.map some) [t] (List.cons_ne_nil t [])
      rw [fillLines_opens hopens]
      refine ⟨List.forall_mem_cons.2 ⟨⟨hne, hline⟩, hmem⟩, ?_⟩
      rw [hfill] at hchain ⊢
      refine List.isChain_cons_cons.2 ⟨fun u hu => ?_, hchain⟩
      obtain rfl : t = u := by simpa using hu
      exact hopens
    · rw [fillLines_stays hopens]
      exact ih (hline.concat (Bool.eq_false_iff.2 hopens))

end Fill

/-! ## A wrapper that counts -/

section Width

variable {α K : Type} [AddMonoid K]

/-- The width of the words of a line. -/
def widthOf (width : α → K) (line : List α) : K := (line.map width).sum

@[simp] theorem widthOf_nil (width : α → K) : widthOf width [] = 0 := rfl

@[simp] theorem widthOf_singleton (width : α → K) (t : α) : widthOf width [t] = width t := by
  simp [widthOf]

@[simp] theorem widthOf_concat (width : α → K) (line : List α) (t : α) :
    widthOf width (line ++ [t]) = widthOf width line + width t := by
  simp [widthOf]

end Width

section Tally

variable {α K : Type} [AddMonoid K] [LinearOrder K]

/-- One word of a wrapper that keeps the number of lines and the width of the last.  A
word that `drops` is not carried over to the line it opens. -/
def tally (width : α → K) (limit : K) (drops : α → Bool) :
    Nat × K → Option α → Nat × K
  | (n, _), none => (n + 1, 0)
  | (n, w), some t =>
      if 0 < w ∧ limit < w + width t then (n + 1, if drops t then 0 else width t)
      else (n, w + width t)

/-- No word of the line goes past the limit, but perhaps a last one that is dropped where
the line is wrapped anyway. -/
def Snug (width : α → K) (limit : K) (drops : α → Bool) (l : FilledLine α) : Prop :=
  ∀ a t b, l.words = a ++ t :: b → 0 < widthOf width a → limit < widthOf width a + width t →
    drops t = true ∧ b = [] ∧ l.ending = .wrap

theorem getLast?_tail_ne {β : Type} {a b : β} {ts : List β}
    (h : (a :: ts).getLast? ≠ some b) : ts.getLast? ≠ some b := by
  cases ts with
  | nil => simp
  | cons c ts => simpa [List.getLast?_cons] using h

instance (width : α → K) (limit : K) (drops : α → Bool) (l : FilledLine α) :
    Decidable (Snug width limit drops l) :=
  decidable_of_iff
    (∀ i : Fin l.words.length, 0 < widthOf width (l.words.take i) →
      limit < widthOf width (l.words.take i) + width (l.words.get i) →
      drops (l.words.get i) = true ∧ i.val + 1 = l.words.length ∧ l.ending = .wrap) (by
    constructor
    · intro h a t b hwords hpos hover
      have hlt : a.length < l.words.length := by simp [hwords]
      have htake : l.words.take a.length = a := by simp [hwords]
      have hget : l.words.get ⟨a.length, hlt⟩ = t := by simp [hwords]
      obtain ⟨hdrop, hend, hwrap⟩ := h ⟨a.length, hlt⟩ (by rw [htake]; exact hpos)
        (by rw [htake, hget]; exact hover)
      have hb : b.length = 0 := by
        simp only [hwords, List.length_append, List.length_cons] at hend
        omega
      exact ⟨hget ▸ hdrop, List.length_eq_zero_iff.1 hb, hwrap⟩
    · intro h i hpos hover
      obtain ⟨hdrop, hb, hwrap⟩ := h (l.words.take i) (l.words.get i) (l.words.drop (i + 1))
        (by simp) hpos hover
      have hlen := List.drop_eq_nil_iff.1 hb
      exact ⟨hdrop, by omega, hwrap⟩)

variable {opens : List α → α → Bool} {width : α → K} {limit : K} {drops : α → Bool}

/-- A wrapper counts the filled lines if they are snug and none is begun at the end. -/
theorem tally_fillLines
    (hopens : ∀ line t, opens line t = true →
      0 < widthOf width line ∧ limit < widthOf width line + width t ∧ drops t = false)
    (ts : List (Option α)) (n : Nat) (line : List α) (hne : line ≠ [] ∨ ts ≠ [])
    (hlast : ts.getLast? ≠ some none)
    (hsnug : ∀ l ∈ fillLines opens line ts, Snug width limit drops l) :
    (ts.foldl (tally width limit drops) (n, widthOf width line)).1 + 1 =
      n + (fillLines opens line ts).length := by
  -- strong induction: a dropped word is taken together with the one behind it
  induction hlen : ts.length using Nat.strong_induction_on generalizing ts n line with
  | _ len ih =>
  subst hlen
  match ts with
  | [] =>
    have hfill : fillLines opens line [] = [⟨line, .last⟩] := if_neg (by simpa using hne)
    rw [hfill]
    rfl
  | none :: ts =>
    have hts : ts ≠ [] := by
      rintro rfl
      exact hlast rfl
    have hcount := ih ts.length (Nat.lt_succ_self _) ts (n + 1) [] (Or.inr hts)
      (getLast?_tail_ne hlast)
      (fun l hl => hsnug l (List.mem_cons_of_mem _ hl)) rfl
    rw [List.foldl_cons]
    change (ts.foldl _ (n + 1, 0)).1 + 1 = n + ((fillLines opens [] ts).length + 1)
    rw [← widthOf_nil width, hcount]
    omega
  | some t :: ts =>
    have hlast' : ts.getLast? ≠ some none := getLast?_tail_ne hlast
    by_cases hopen : opens line t = true
    · obtain ⟨hpos, hover, hkeep⟩ := hopens line t hopen
      have hstep : tally width limit drops (n, widthOf width line) (some t) =
          (n + 1, widthOf width [t]) := by
        simp [tally, hpos, hover, hkeep]
      rw [fillLines_opens hopen] at hsnug ⊢
      have hcount := ih ts.length (Nat.lt_succ_self _) ts (n + 1) [t] (Or.inl (by simp)) hlast'
        (fun l hl => hsnug l (List.mem_cons_of_mem _ hl)) rfl
      rw [List.foldl_cons, hstep, hcount, List.length_cons]
      omega
    · rw [fillLines_stays hopen] at hsnug ⊢
      rw [List.foldl_cons]
      by_cases hover : 0 < widthOf width line ∧ limit < widthOf width line + width t
      · -- the word is dropped, so it is the line's last and the next one opens a line
        obtain ⟨more, ending, rest, hfill⟩ :=
          fillLines_head opens ts (line ++ [t]) (by simp)
        obtain ⟨hdrop, hmore, hend⟩ := hsnug _ (hfill ▸ List.mem_cons_self) line t more
          (by simp) hover.1 hover.2
        dsimp only at hend
        subst hmore hend
        rw [List.append_nil] at hfill
        obtain ⟨u, ts', rfl, hu⟩ := fillLines_wrap hfill
        have hstep : tally width limit drops (tally width limit drops
            (n, widthOf width line) (some t)) (some u) = (n + 1, widthOf width [u]) := by
          simp [tally, hover.1, hover.2, hdrop]
        rw [fillLines_opens hu] at hsnug ⊢
        have hshort : ts'.length < (some t :: some u :: ts').length := by
          simp only [List.length_cons]
          omega
        have hcount := ih ts'.length hshort ts' (n + 1) [u] (Or.inl (by simp))
          (getLast?_tail_ne hlast') (fun l hl => hsnug l (List.mem_cons_of_mem _ hl)) rfl
        rw [List.foldl_cons, hstep, hcount, List.length_cons]
        omega
      · have hstep : tally width limit drops (n, widthOf width line) (some t) =
            (n, widthOf width (line ++ [t])) := by
          rw [widthOf_concat]
          exact if_neg hover
        rw [hstep]
        exact ih ts.length (Nat.lt_succ_self _) ts n (line ++ [t]) (Or.inl (by simp)) hlast'
          hsnug rfl

end Tally

end TinyFramework.Foundation
