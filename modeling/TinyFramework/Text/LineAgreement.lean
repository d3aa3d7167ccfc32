/-
  Text/LineAgreement.lean --- when the three line breakers agree.

  The reference is the greedy filling of lines up to four pixels past the width.  The
  reported lines and the drawn lines are both compared with it; `text_wrap_lines` has a
  limit two pixels lower, and counts the same lines where none of them falls between.
-/
import TinyFramework.Text.LineBreak

set_option autoImplicit false

namespace TinyFramework.Text

open TinyFramework.Foundation

/-! ## The pieces make up the text -/

/-- A piece is not empty; a word that begins with a space or a cluster is no more than it. -/
structure Piece.Cut (piece : Piece) : Prop where
  raw_ne : piece.raw ≠ []
  blank : ∀ c rest, piece = .word (c :: rest) → isspace c = true → rest = []
  cluster : ∀ c rest, piece = .word (c :: rest) → 0x80 ≤ c → rest.length + 1 ≤ clusterLen c

theorem clusterLen_pos (c : UInt8) : 0 < clusterLen c := by
  unfold clusterLen
  split_ifs <;> decide

theorem takePiece_cut (c : UInt8) (rest : Bytes) : (takePiece c rest).Cut := by
  obtain ⟨n, hn⟩ := Nat.exists_eq_add_of_lt (clusterLen_pos c)
  rw [Nat.zero_add] at hn
  unfold takePiece
  split_ifs with hcrlf hnl hsp hhigh
  · exact ⟨by simp [Piece.raw], by simp, by simp⟩
  · exact ⟨by simp [Piece.raw], by simp, by simp⟩
  · refine ⟨by simp [Piece.raw], ?_, ?_⟩
    · rintro d rest' h -
      exact (List.cons.inj (Piece.word.inj h)).2.symm
    · rintro d rest' h -
      obtain ⟨-, rfl⟩ := List.cons.inj (Piece.word.inj h)
      exact clusterLen_pos d
  · have hhead : ∀ d rest', Piece.word ((c :: rest).take (clusterLen c)) = .word (d :: rest') →
        d = c ∧ rest' = rest.take n := by
      intro d rest' h
      rw [hn, List.take_succ_cons] at h
      obtain ⟨rfl, rfl⟩ := List.cons.inj (Piece.word.inj h)
      exact ⟨rfl, rfl⟩
    refine ⟨by simp [Piece.raw, hn], ?_, ?_⟩
    · intro d rest' h hd
      rw [(hhead d rest' h).1] at hd
      exact absurd hd hsp
    · rintro d rest' h -
      obtain ⟨rfl, rfl⟩ := hhead d rest' h
      rw [hn, List.length_take]
      omega
  · refine ⟨by simp [Piece.raw], ?_, ?_⟩
    · intro d rest' h hd
      obtain ⟨rfl, -⟩ := List.cons.inj (Piece.word.inj h)
      exact absurd hd hsp
    · intro d rest' h hd
      obtain ⟨rfl, -⟩ := List.cons.inj (Piece.word.inj h)
      exact absurd hd hhigh

/-- A piece stands in front of the text it was taken from. -/
theorem takePiece_prefix (c : UInt8) (rest : Bytes) :
    (takePiece c rest).raw ++ (c :: rest).drop (takePiece c rest).raw.length = c :: rest := by
  have hprefix : (takePiece c rest).raw <+: c :: rest := by
    unfold takePiece
    split_ifs with hcrlf hnl hsp hhigh
    · obtain ⟨rfl, hnext⟩ := hcrlf
      obtain ⟨rest', rfl⟩ : ∃ rest', rest = 10 :: rest' := by
        cases rest with
        | nil => simp at hnext
        | cons d rest' => exact ⟨rest', by simpa using hnext⟩
      exact ⟨rest', rfl⟩
    · exact ⟨rest, rfl⟩
    · exact ⟨rest, rfl⟩
    · exact List.take_prefix _ _
    · obtain ⟨more, hmore⟩ := List.takeWhile_prefix (l := rest) isWordByte
      exact ⟨more, by rw [Piece.raw, List.cons_append, hmore]⟩
  obtain ⟨more, hmore⟩ := hprefix
  rw [← hmore, List.drop_left]

theorem piecesFrom_spec (fuel : Nat) (text : Bytes) (h : text.length ≤ fuel) :
    (piecesFrom fuel text).flatMap Piece.raw = text ∧ (∀ p ∈ piecesFrom fuel text, p.Cut) ∧
      (piecesFrom fuel text).length ≤ text.length := by
  induction fuel generalizing text with
  | zero =>
    obtain rfl := List.length_eq_zero_iff.1 (Nat.le_zero.1 h)
    simp [piecesFrom]
  | succ fuel ih =>
    cases text with
    | nil => simp [piecesFrom]
    | cons c rest =>
      have hcut := takePiece_cut c rest
      have hpos : 0 < (takePiece c rest).raw.length := List.length_pos_of_ne_nil hcut.raw_ne
      have hlen : ((c :: rest).drop (takePiece c rest).raw.length).length ≤ rest.length := by
        rw [List.length_drop, List.length_cons]
        omega
      obtain ⟨hflat, hall, hcount⟩ := ih _ (Nat.le_trans hlen (Nat.le_of_succ_le_succ h))
      unfold piecesFrom
      refine ⟨?_, ?_, ?_⟩
      · rw [List.flatMap_cons, hflat]
        exact takePiece_prefix c rest
      · intro p hp
        rcases List.mem_cons.1 hp with rfl | hp
        · exact hcut
        · exact hall p hp
      · exact Nat.succ_le_succ (Nat.le_trans hcount hlen)

theorem flatMap_pieces (text : Bytes) : (pieces text).flatMap Piece.raw = text :=
  (piecesFrom_spec text.length text (Nat.le_refl _)).1

theorem cut_of_mem_pieces {text : Bytes} {p : Piece} (h : p ∈ pieces text) : p.Cut :=
  (piecesFrom_spec text.length text (Nat.le_refl _)).2.1 p h

theorem length_pieces_le (text : Bytes) : (pieces text).length ≤ text.length :=
  (piecesFrom_spec text.length text (Nat.le_refl _)).2.2

theorem nonempty_concat {line : List Bytes} {raw : Bytes} (h : ∀ w ∈ line, w ≠ [])
    (hraw : raw ≠ []) : ∀ w ∈ line ++ [raw], w ≠ [] := by
  intro w hw
  rcases List.mem_append.1 hw with hw | hw
  · exact h w hw
  · exact List.mem_singleton.1 hw ▸ hraw

/-- Splitting a single cluster leaves it whole. -/
theorem clusters_of_cluster {c : UInt8} {rest : Bytes} (h : rest.length + 1 ≤ clusterLen c) :
    clusters (c :: rest) = [c :: rest] := by
  have htake : (c :: rest).take (clusterLen c) = c :: rest := List.take_of_length_le h
  have hdrop : (c :: rest).drop (clusterLen c) = [] := List.drop_eq_nil_of_le h
  change (c :: rest).take (clusterLen c) :: clustersFrom rest.length ((c :: rest).drop _) = _
  rw [htake, hdrop]
  cases rest <;> rfl

/-! ## The greedy layout -/

/-- The test of a breaker with margin `limit`: a space never opens a line. -/
def opensLine (width : Bytes → ℚ) (limit : ℚ) (line : List Bytes) (word : Bytes) : Bool :=
  decide (0 < widthOf width line) && decide (limit < widthOf width line + width word) &&
    !isBlank word

theorem opensLine_iff {width : Bytes → ℚ} {limit : ℚ} {line : List Bytes} {word : Bytes} :
    opensLine width limit line word = true ↔
      0 < widthOf width line ∧ limit < widthOf width line + width word ∧ isBlank word = false := by
  simp [opensLine, and_assoc]

/-- The lines of a text in a box, filled greedily. -/
def layout (width : Bytes → ℚ) (maxW : ℚ) (text : Bytes) : List (FilledLine Bytes) :=
  fillLines (opensLine width (wrapWidth maxW + 4)) [] ((pieces text).map Piece.word?)

/-- The pieces that are left go into `word_buf` whole. -/
def Whole (ps : List Piece) : Prop :=
  ∀ raw, .word raw ∈ ps → raw.length < 127

theorem Whole.tail {p : Piece} {ps : List Piece} (h : Whole (p :: ps)) : Whole ps :=
  fun raw hraw => h raw (List.mem_cons_of_mem _ hraw)

/-- The lines left to fill are short enough for `word_buf`, which holds a line as well. -/
def Short (ls : List (FilledLine Bytes)) : Prop :=
  ∀ l ∈ ls, l.words.flatten.length < 127

instance (ls : List (FilledLine Bytes)) : Decidable (Short ls) :=
  inferInstanceAs (Decidable (∀ l ∈ ls, l.words.flatten.length < 127))

theorem Short.whole {opens : List Bytes → Bytes → Bool} {ps : List Piece}
    (h : Short (fillLines opens [] (ps.map Piece.word?))) : Whole ps := by
  intro raw hraw
  have hmem : some raw ∈ ps.map Piece.word? := List.mem_map.2 ⟨.word raw, hraw, rfl⟩
  obtain ⟨l, hl, hword⟩ := exists_line_of_mem opens _ [] (Or.inr hmem)
  have hlen := List.Sublist.length_le (List.sublist_flatten_of_mem hword)
  exact Nat.lt_of_le_of_lt hlen (h l hl)

/-- The line in hand is short, too. -/
theorem Short.head {opens : List Bytes → Bytes → Bool} {line : List Bytes}
    {ts : List (Option Bytes)} (h : Short (fillLines opens line ts)) :
    line.flatten.length < 127 := by
  by_cases hne : line = []
  · simp [hne]
  · obtain ⟨more, ending, rest, hfill⟩ := fillLines_head opens ts line hne
    have hlen := h _ (hfill ▸ List.mem_cons_self)
    rw [List.flatten_append, List.length_append] at hlen
    omega

/-! ## Reported lines -/

/-- A reported line is the filled one. -/
structure Reports (width : Bytes → ℚ) (text : Bytes) (o : TextLine) (l : FilledLine Bytes) :
    Prop where
  slice : o.slice text = l.words.flatten
  width : o.width = widthOf width l.words

/-- The loop has `line` in hand. -/
structure Breaker.Holds (width : Bytes → ℚ) (text : Bytes) (s : Breaker) (line : List Bytes) :
    Prop where
  pos : s.pos = s.lineStart + s.lineLen
  len : s.lineLen = line.flatten.length
  slice : (text.drop s.lineStart).take s.lineLen = line.flatten
  lineW : s.lineW = widthOf width line

namespace Breaker

variable {width : Bytes → ℚ} {text : Bytes} {s : Breaker} {line : List Bytes}

theorem Holds.reports (h : s.Holds width text line) (e : LineEnd) :
    Reports width text s.line ⟨line, e⟩ := by
  refine ⟨?_, h.lineW⟩
  rw [TextLine.slice, Breaker.line, Nat.add_sub_cancel_left]
  exact h.slice

/-- The words of the line in hand and the text behind them. -/
theorem Holds.add (h : s.Holds width text line) {raw rest : Bytes}
    (htext : text.drop s.pos = raw ++ rest) {s' : Breaker}
    (hs' : s' = { s with
      pos := s.pos + raw.length, lineLen := s.lineLen + raw.length
      lineW := s.lineW + width raw }) : s'.Holds width text (line ++ [raw]) := by
  subst hs'
  refine ⟨?_, ?_, ?_, ?_⟩
  · rw [h.pos, Nat.add_assoc]
  · simp [h.len]
  · change (text.drop s.lineStart).take (s.lineLen + raw.length) = _
    rw [List.take_add, h.slice, List.drop_drop, ← h.pos, htext]
    simp
  · rw [widthOf_concat, ← h.lineW]

/-- A word that opens a line begins where the loop stands. -/
theorem Holds.begin (h : s.Holds width text line) {raw rest : Bytes}
    (htext : text.drop s.pos = raw ++ rest) (lines : List TextLine) :
    ({ lines := lines, pos := s.pos + raw.length, lineStart := s.lineStart + s.lineLen
       lineLen := raw.length, lineW := width raw } : Breaker).Holds width text [raw] := by
  refine ⟨?_, ?_, ?_, ?_⟩
  · dsimp only
    rw [h.pos]
  · simp
  · dsimp only
    rw [← h.pos, htext]
    simp
  · simp

/-- An empty line begins where the loop stands. -/
theorem holds_nil (width : Bytes → ℚ) (text : Bytes) (lines : List TextLine) (pos : Nat) :
    ({ lines := lines, pos := pos, lineStart := pos, lineLen := 0, lineW := 0 } : Breaker).Holds
      width text [] :=
  ⟨rfl, rfl, rfl, rfl⟩

theorem step_newline {limit : ℚ} {maxLines : Nat} {raw : Bytes}
    (hlines : s.lines.length < maxLines) :
    s.step width limit maxLines (.newline raw) =
      { lines := s.lines ++ [s.line], pos := s.pos + raw.length
        lineStart := s.pos + raw.length, lineLen := 0, lineW := 0 } :=
  if_neg (Nat.not_le.2 hlines)

theorem step_opens {limit : ℚ} {maxLines : Nat} {raw : Bytes}
    (hlines : s.lines.length + 1 < maxLines) (hraw : raw.length < 127)
    (hlineW : s.lineW = widthOf width line) (hopens : opensLine width limit line raw = true) :
    s.step width limit maxLines (.word raw) =
      { lines := s.lines ++ [s.line], pos := s.pos + raw.length
        lineStart := s.lineStart + s.lineLen, lineLen := raw.length, lineW := width raw } := by
  have hbuf : wordBuf raw = raw := List.take_of_length_le (Nat.le_of_lt hraw)
  have hwrap : 0 < s.lineW ∧ limit < s.lineW + width raw ∧ isBlank raw = false := by
    rw [hlineW]
    exact opensLine_iff.1 hopens
  unfold step
  rw [if_neg (by omega)]
  dsimp only [Piece.raw]
  rw [hbuf, if_pos hwrap, if_pos ⟨by simpa using hlines, by simpa using hraw⟩]
  simp

theorem step_stays {limit : ℚ} {maxLines : Nat} {raw : Bytes}
    (hlines : s.lines.length < maxLines) (hlen : s.lineLen + raw.length < 127)
    (hlineW : s.lineW = widthOf width line) (hstays : ¬ opensLine width limit line raw = true) :
    s.step width limit maxLines (.word raw) =
      { s with
        pos := s.pos + raw.length, lineLen := s.lineLen + raw.length
        lineW := s.lineW + width raw } := by
  have hbuf : wordBuf raw = raw := List.take_of_length_le (by omega)
  have hwrap : ¬ (0 < s.lineW ∧ limit < s.lineW + width raw ∧ isBlank raw = false) := by
    rw [hlineW]
    exact fun h => hstays (opensLine_iff.2 h)
  unfold step
  rw [if_neg (by omega)]
  dsimp only [Piece.raw]
  rw [hbuf, if_neg hwrap, if_pos ⟨hlines, hlen⟩]

/-- What the function returns behind the loop. -/
def finish (maxLines : Nat) (s : Breaker) : List TextLine :=
  if 0 < s.lineLen ∧ s.lines.length < maxLines then s.lines ++ [s.line] else s.lines

/-- The loop reports the lines it fills. -/
theorem fold_reports (limit : ℚ) {maxLines : Nat} (ps : List Piece) (s : Breaker)
    (line : List Bytes) (hs : s.Holds width text line)
    (htext : text.drop s.pos = ps.flatMap Piece.raw) (hcut : ∀ p ∈ ps, p.Cut)
    (hwords : ∀ w ∈ line, w ≠ []) (hwhole : Whole ps)
    (hshort : Short (fillLines (opensLine width limit) line (ps.map Piece.word?)))
    (hroom : s.lines.length +
      (fillLines (opensLine width limit) line (ps.map Piece.word?)).length ≤ maxLines) :
    ∃ out, (ps.foldl (Breaker.step width limit maxLines) s).finish maxLines = s.lines ++ out ∧
      List.Forall₂ (Reports width text) out
        (fillLines (opensLine width limit) line (ps.map Piece.word?)) := by
  induction ps generalizing s line with
  | nil =>
    cases line with
    | nil =>
      refine ⟨[], ?_, .nil⟩
      have hlen : s.lineLen = 0 := hs.len
      simp [finish, hlen]
    | cons w ws =>
      have hfill : fillLines (opensLine width limit) (w :: ws) [] = [⟨w :: ws, .last⟩] := rfl
      rw [List.map_nil, hfill] at hroom ⊢
      have hw : 0 < w.length := List.length_pos_of_ne_nil (hwords w List.mem_cons_self)
      have hlen : 0 < s.lineLen := by
        rw [hs.len, List.flatten_cons, List.length_append]
        omega
      exact ⟨[s.line], if_pos ⟨hlen, hroom⟩, .cons (hs.reports .last) .nil⟩
  | cons p ps ih =>
    have hcut' : ∀ p ∈ ps, p.Cut := fun q hq => hcut q (List.mem_cons_of_mem _ hq)
    have hdrop : text.drop (s.pos + p.raw.length) = ps.flatMap Piece.raw := by
      rw [← List.drop_drop, htext, List.flatMap_cons, List.drop_left]
    rw [List.foldl_cons]
    cases p with
    | newline raw =>
      have hfill : fillLines (opensLine width limit) line
          ((Piece.newline raw :: ps).map Piece.word?) =
          ⟨line, .forced⟩ :: fillLines (opensLine width limit) [] (ps.map Piece.word?) := rfl
      rw [hfill] at hshort hroom ⊢
      rw [List.length_cons] at hroom
      have hroom' : (s.lines ++ [s.line]).length +
          (fillLines (opensLine width limit) [] (ps.map Piece.word?)).length ≤ maxLines := by
        rw [List.length_append, List.length_singleton]
        omega
      rw [step_newline (by omega)]
      obtain ⟨out, hout, hall⟩ := ih _ [] (holds_nil width text _ _) hdrop hcut' (by simp) hwhole.tail
        (fun l hl => hshort l (List.mem_cons_of_mem _ hl)) hroom'
      exact ⟨s.line :: out, hout.trans (List.append_assoc s.lines [s.line] out),
        .cons (hs.reports .forced) hall⟩
    | word raw =>
      have hraw : raw ≠ [] := (hcut _ List.mem_cons_self).raw_ne
      rw [List.flatMap_cons] at htext
      by_cases hopens : opensLine width limit line raw = true
      · have hfill : fillLines (opensLine width limit) line
            ((Piece.word raw :: ps).map Piece.word?) =
            ⟨line, .wrap⟩ :: fillLines (opensLine width limit) [raw] (ps.map Piece.word?) :=
          fillLines_opens hopens
        rw [hfill] at hshort hroom ⊢
        rw [List.length_cons] at hroom
        have hshort' : Short (fillLines (opensLine width limit) [raw] (ps.map Piece.word?)) :=
          fun l hl => hshort l (List.mem_cons_of_mem _ hl)
        obtain ⟨more, ending, rest, hnext⟩ :=
          fillLines_head (opensLine width limit) (ps.map Piece.word?) [raw] (by simp)
        have hlines : s.lines.length + 1 < maxLines := by
          rw [hnext, List.length_cons] at hroom
          omega
        have hroom' : (s.lines ++ [s.line]).length +
            (fillLines (opensLine width limit) [raw] (ps.map Piece.word?)).length ≤ maxLines := by
          rw [List.length_append, List.length_singleton]
          omega
        rw [step_opens hlines (hwhole raw List.mem_cons_self) hs.lineW hopens]
        obtain ⟨out, hout, hall⟩ := ih _ [raw] (hs.begin htext _) hdrop hcut'
          (by simpa using hraw) hwhole.tail hshort' hroom'
        exact ⟨s.line :: out, hout.trans (List.append_assoc s.lines [s.line] out),
          .cons (hs.reports .wrap) hall⟩
      · have hfill : fillLines (opensLine width limit) line
            ((Piece.word raw :: ps).map Piece.word?) =
            fillLines (opensLine width limit) (line ++ [raw]) (ps.map Piece.word?) :=
          fillLines_stays hopens
        rw [hfill] at hshort hroom ⊢
        obtain ⟨more, ending, rest, hnext⟩ :=
          fillLines_head (opensLine width limit) (ps.map Piece.word?) (line ++ [raw]) (by simp)
        have hlines : s.lines.length < maxLines := by
          rw [hnext, List.length_cons] at hroom
          omega
        have hlen : s.lineLen + raw.length < 127 := by
          have := hshort.head
          rw [hs.len]
          simpa using this
        rw [step_stays hlines hlen hs.lineW hopens]
        exact ih _ (line ++ [raw]) (hs.add htext rfl) hdrop hcut' (nonempty_concat hwords hraw)
          hwhole.tail hshort hroom

end Breaker

/-! ## Drawn lines -/

/-- A word of two bytes or more that is not a cluster. -/
def isLongWord (raw : Bytes) : Bool := decide (1 < raw.length) && raw.head?.any (· < 0x80)

/-- Only a word that goes past the limit as a whole is split. -/
def Unsplit (width : Bytes → ℚ) (limit : ℚ) (ps : List Piece) : Prop :=
  ∀ raw, .word raw ∈ ps → isLongWord raw = true → width raw ≤ limit

/-- Splitting does not matter for the words that are not split. -/
theorem clusters_of_wide {width : Bytes → ℚ} {limit : ℚ} {raw : Bytes}
    (hcut : (Piece.word raw).Cut) (hunsplit : isLongWord raw = true → width raw ≤ limit)
    (hwide : limit < width raw) (hlen : 1 < raw.length) : clusters raw = [raw] := by
  cases raw with
  | nil => exact absurd hlen (Nat.not_lt_zero 1)
  | cons c rest =>
    by_cases hc : (0x80 : UInt8) ≤ c
    · exact clusters_of_cluster (hcut.cluster c rest rfl hc)
    · have hlong : isLongWord (c :: rest) = true := by
        rw [isLongWord, decide_eq_true hlen]
        simpa using hc
      exact absurd hwide (not_lt.2 (hunsplit hlong))

/-- The calls that draw a line in a row of the box, none for an empty one. -/
def drawRow (st : TextStyle) (box : TextBox) (row : Nat) (line : Bytes) (lineW : ℚ) :
    List TextDraw :=
  if line.isEmpty then [] else drawLine st box (row * st.lh) line lineW

theorem drawRow_of_pos {st : TextStyle} {box : TextBox} {row : Nat} {line : Bytes} {lineW : ℚ}
    (drawn : List TextDraw) :
    (if 0 < line.length then drawn ++ drawLine st box (row * st.lh) line lineW else drawn) =
      drawn ++ drawRow st box row line lineW := by
  unfold drawRow
  cases line <;> simp

/-- What is drawn for lines that begin with the given row. -/
def drawLines (width : Bytes → ℚ) (st : TextStyle) (box : TextBox) (row : Nat)
    (ls : List (FilledLine Bytes)) : List TextDraw :=
  (ls.zipIdx row).flatMap fun l => drawRow st box l.2 l.1.words.flatten (widthOf width l.1.words)

theorem drawLines_cons (width : Bytes → ℚ) (st : TextStyle) (box : TextBox) (row : Nat)
    (l : FilledLine Bytes) (ls : List (FilledLine Bytes)) :
    drawLines width st box row (l :: ls) =
      drawRow st box row l.words.flatten (widthOf width l.words) ++
        drawLines width st box (row + 1) ls := by
  rw [drawLines, List.zipIdx_cons, List.flatMap_cons]
  rfl

namespace Pen

/-- The loop has `line` in hand, in the given row. -/
structure Holds (width : Bytes → ℚ) (st : TextStyle) (s : Pen) (row : Nat) (words : List Bytes) :
    Prop where
  line : s.line = words.flatten
  lineW : s.lineW = widthOf width words
  penY : s.penY = row * st.lh

variable {width : Bytes → ℚ} {st : TextStyle} {box : TextBox} {s : Pen} {row : Nat}
  {words : List Bytes}

/-- What the function returns behind the loop. -/
def finish (st : TextStyle) (box : TextBox) (s : Pen) : List TextDraw :=
  if 0 < s.line.length then s.drawn ++ drawLine st box s.penY s.line s.lineW else s.drawn

theorem Holds.finish (h : s.Holds width st row words) :
    s.finish st box = s.drawn ++ drawRow st box row words.flatten (widthOf width words) := by
  rw [Pen.finish, h.line, h.lineW, h.penY]
  exact drawRow_of_pos s.drawn

/-- Behind a line the next one begins, a row below. -/
theorem holds_next (width : Bytes → ℚ) (st : TextStyle) (drawn : List TextDraw) (row : Nat) :
    ({ drawn := drawn, penY := row * st.lh + st.lh, line := [], lineW := 0 } : Pen).Holds
      width st (row + 1) [] := by
  refine ⟨rfl, rfl, ?_⟩
  push_cast
  ring

theorem Holds.place (h : s.Holds width st row words) (raw : Bytes)
    (hlen : words.flatten.length + raw.length < 127) :
    (s.place raw (width raw)).Holds width st row (words ++ [raw]) ∧
      (s.place raw (width raw)).drawn = s.drawn := by
  have hplace : s.place raw (width raw) =
      { s with line := s.line ++ raw, lineW := s.lineW + width raw } := by
    refine if_pos ?_
    rw [h.line]
    omega
  rw [hplace]
  refine ⟨⟨?_, ?_, h.penY⟩, rfl⟩
  · simp [h.line]
  · rw [widthOf_concat, ← h.lineW]

/-- A line that is wider than nothing is drawn where the next one begins. -/
theorem Holds.makeRoom (h : s.Holds width st row words) (hwords : ∀ w ∈ words, w ≠ []) {w : ℚ}
    (hpos : 0 < widthOf width words) (hover : box.maxW + 4 < widthOf width words + w) :
    s.makeRoom st box w =
      { drawn := s.finish st box, penY := row * st.lh + st.lh, line := [], lineW := 0 } := by
  have hlen : 0 < s.line.length := by
    cases words with
    | nil => exact absurd hpos (lt_irrefl 0)
    | cons v vs =>
      have hv : 0 < v.length := List.length_pos_of_ne_nil (hwords v List.mem_cons_self)
      rw [h.line, List.flatten_cons, List.length_append]
      omega
  rw [← h.lineW] at hpos hover
  rw [Pen.finish, if_pos hlen, ← h.penY]
  exact if_pos ⟨hpos, hover⟩

/-- A word that is short enough makes room for itself, unless it is a space, and is placed. -/
theorem step_word {raw : Bytes} (hcut : (Piece.word raw).Cut) (hraw : raw.length < 127)
    (hunsplit : isLongWord raw = true → width raw ≤ box.maxW + 4) :
    s.step width st box (.word raw) =
      (if isBlank raw then s else s.makeRoom st box (width raw)).place raw (width raw) := by
  have hbuf : wordBuf raw = raw := List.take_of_length_le (Nat.le_of_lt hraw)
  unfold step
  dsimp only
  rw [hbuf]
  split_ifs with hwide hblank
  · -- a space is a single byte
    obtain ⟨c, rest, rfl⟩ := List.exists_cons_of_ne_nil hcut.raw_ne
    obtain rfl := hcut.blank c rest rfl hblank
    exact absurd hwide.2 (Nat.lt_irrefl 1)
  · rw [clusters_of_wide hcut hunsplit hwide.1 hwide.2]
    rfl
  · rfl
  · rfl

/-- The loop draws the lines it fills. -/
theorem fold_draws (box : TextBox) (ps : List Piece) (s : Pen) (row : Nat) (words : List Bytes)
    (hs : s.Holds width st row words) (hcut : ∀ p ∈ ps, p.Cut) (hwords : ∀ w ∈ words, w ≠ [])
    (hwhole : Whole ps) (hunsplit : Unsplit width (box.maxW + 4) ps)
    (hshort : Short (fillLines (opensLine width (box.maxW + 4)) words (ps.map Piece.word?))) :
    (ps.foldl (Pen.step width st box) s).finish st box =
      s.drawn ++ drawLines width st box row
        (fillLines (opensLine width (box.maxW + 4)) words (ps.map Piece.word?)) := by
  induction ps generalizing s row words with
  | nil =>
    rw [List.foldl_nil, hs.finish]
    cases words with
    | nil => rfl
    | cons w ws =>
      have hfill : fillLines (opensLine width (box.maxW + 4)) (w :: ws) [] =
          [⟨w :: ws, .last⟩] := rfl
      rw [List.map_nil, hfill, drawLines_cons]
      simp [drawLines]
  | cons p ps ih =>
    have hcut' : ∀ p ∈ ps, p.Cut := fun q hq => hcut q (List.mem_cons_of_mem _ hq)
    have hunsplit' : Unsplit width (box.maxW + 4) ps :=
      fun raw hraw => hunsplit raw (List.mem_cons_of_mem _ hraw)
    rw [List.foldl_cons]
    cases p with
    | newline raw =>
      have hfill : fillLines (opensLine width (box.maxW + 4)) words
          ((Piece.newline raw :: ps).map Piece.word?) =
          ⟨words, .forced⟩ :: fillLines (opensLine width (box.maxW + 4)) []
            (ps.map Piece.word?) := rfl
      rw [hfill] at hshort ⊢
      have hstep : s.step width st box (.newline raw) =
          { drawn := s.finish st box, penY := row * st.lh + st.lh, line := [], lineW := 0 } := by
        rw [← hs.penY]
        rfl
      rw [hstep, ih _ (row + 1) [] (holds_next width st _ row) hcut' (by simp) hwhole.tail
        hunsplit' (fun l hl => hshort l (List.mem_cons_of_mem _ hl)), hs.finish, drawLines_cons,
        List.append_assoc]
    | word raw =>
      have hraw : raw.length < 127 := hwhole raw List.mem_cons_self
      have hraw_ne : raw ≠ [] := (hcut _ List.mem_cons_self).raw_ne
      rw [step_word (hcut _ List.mem_cons_self) hraw (hunsplit raw List.mem_cons_self)]
      by_cases hopens : opensLine width (box.maxW + 4) words raw = true
      · have hfill : fillLines (opensLine width (box.maxW + 4)) words
            ((Piece.word raw :: ps).map Piece.word?) =
            ⟨words, .wrap⟩ :: fillLines (opensLine width (box.maxW + 4)) [raw]
              (ps.map Piece.word?) := fillLines_opens hopens
        rw [hfill] at hshort ⊢
        obtain ⟨hpos, hover, hblank⟩ := opensLine_iff.1 hopens
        rw [if_neg (by rw [hblank]; exact Bool.false_ne_true), hs.makeRoom hwords hpos hover]
        obtain ⟨hheld, hdrawn⟩ :=
          (holds_next width st (s.finish st box) row).place raw (by simpa using hraw)
        rw [ih _ (row + 1) [raw] hheld hcut' (by simpa using hraw_ne) hwhole.tail hunsplit'
          (fun l hl => hshort l (List.mem_cons_of_mem _ hl)), hdrawn, hs.finish, drawLines_cons,
          List.append_assoc]
      · have hfill : fillLines (opensLine width (box.maxW + 4)) words
            ((Piece.word raw :: ps).map Piece.word?) =
            fillLines (opensLine width (box.maxW + 4)) (words ++ [raw]) (ps.map Piece.word?) :=
          fillLines_stays hopens
        rw [hfill] at hshort ⊢
        have hroom : (if isBlank raw then s else s.makeRoom st box (width raw)) = s := by
          split_ifs with hblank
          · rfl
          · refine if_neg ?_
            rw [hs.lineW]
            exact fun h => hopens (opensLine_iff.2 ⟨h.1, h.2, by simpa using hblank⟩)
        have hlen : words.flatten.length + raw.length < 127 := by
          have hhead := hshort.head
          simpa using hhead
        obtain ⟨hheld, hdrawn⟩ := hs.place raw hlen
        rw [hroom, ih _ row (words ++ [raw]) hheld hcut' (nonempty_concat hwords hraw_ne)
          hwhole.tail hunsplit' hshort, hdrawn]

end Pen

/-! ## Counted lines -/

/-- Where all spaces measure the same and no word is split, `text_wrap_lines` is the wrapper
of the library. -/
theorem wrapStep_eq_tally {width : Bytes → ℚ} {maxW : ℚ} {p : Piece} (hcut : p.Cut)
    (hwhole : ∀ raw, p = .word raw → raw.length < 127)
    (hblank : ∀ raw, p = .word raw → isBlank raw = true → width raw = width [32])
    (hunsplit : ∀ raw, p = .word raw → isLongWord raw = true → width raw ≤ maxW + 2)
    (s : Nat × ℚ) : wrapStep width maxW s p = tally width (maxW + 2) isBlank s p.word? := by
  obtain ⟨n, w⟩ := s
  cases p with
  | newline raw => rfl
  | word raw =>
    have hbuf : wordBuf raw = raw := List.take_of_length_le (Nat.le_of_lt (hwhole raw rfl))
    unfold wrapStep tally Piece.word?
    dsimp only
    by_cases hb : isBlank raw = true
    · rw [if_pos hb, if_pos hb, hblank raw rfl hb]
      exact if_congr And.comm rfl rfl
    · rw [if_neg hb, if_neg hb, hbuf]
      by_cases hwide : maxW + 2 < width raw ∧ 1 < raw.length
      · rw [if_pos hwide, clusters_of_wide hcut (hunsplit raw rfl) hwide.1 hwide.2]
        rfl
      · rw [if_neg hwide]

/-! ## The three together -/

/-- The three breakers agree: what is drawn is the reported substrings, each in its row, and
as many lines are counted. -/
structure BreaksAlike (measure : Measure) (text : Bytes) (x y maxW : ℚ) (st : TextStyle)
    (maxLines : Nat) : Prop where
  draws : drawTextWrappedEx measure text x y maxW st =
    (miniTextBreakLines measure text maxW st.fs st.ls maxLines).zipIdx.flatMap fun l =>
      drawRow st { x := x, y := y, maxW := wrapWidth maxW } l.2 (l.1.slice text) l.1.width
  counts : textWrapLines measure text st.fs maxW st.ls =
    (miniTextBreakLines measure text maxW st.fs st.ls maxLines).length

/-- A text whose lines are counted by the loop of `text_wrap_lines`: no line is begun at the
end, all spaces measure the same, no word is split at the lower limit, and no line falls
between the limits. -/
structure CountedSafely (measure : Measure) (text : Bytes) (maxW fs ls : ℚ) : Prop where
  wide : 0 < maxW ∧ maxW + 4 < measure text fs ls
  last : ∀ raw, (pieces text).getLast? ≠ some (.newline raw)
  blank : ∀ raw, .word raw ∈ pieces text → isBlank raw = true →
    measure raw fs ls = measure [32] fs ls
  unsplit : Unsplit (fun w => measure w fs ls) (maxW + 2) (pieces text)
  snug : ∀ l ∈ layout (fun w => measure w fs ls) maxW text,
    Snug (fun w => measure w fs ls) (maxW + 2) isBlank l

/-- A text and a width at which none of the breakers leaves the greedy layout: it is not
empty, its lines fit into `word_buf`, no word is split, and either `text_wrap_lines` stops
early at a text of one line, or it counts safely. -/
structure SafeText (measure : Measure) (text : Bytes) (maxW fs ls : ℚ) : Prop where
  text_ne : text ≠ []
  fs_pos : 0 < fs
  short : Short (layout (fun w => measure w fs ls) maxW text)
  unsplit : Unsplit (fun w => measure w fs ls) (wrapWidth maxW + 4) (pieces text)
  counted : ((maxW ≤ 0 ∨ measure text fs ls ≤ maxW + 4) ∧
      (layout (fun w => measure w fs ls) maxW text).length = 1) ∨
    CountedSafely measure text maxW fs ls

section Agreement

variable {measure : Measure} {text : Bytes} {maxW fs ls : ℚ}

/-- The reported lines are the greedy layout. -/
theorem SafeText.reports (h : SafeText measure text maxW fs ls) {maxLines : Nat}
    (hlines : text.length < maxLines) :
    List.Forall₂ (Reports (fun w => measure w fs ls) text)
      (miniTextBreakLines measure text maxW fs ls maxLines)
      (layout (fun w => measure w fs ls) maxW text) := by
  have hroom : (layout (fun w => measure w fs ls) maxW text).length ≤ maxLines := by
    have hfill := length_fillLines_le (opensLine (fun w => measure w fs ls)
      (wrapWidth maxW + 4)) ((pieces text).map Piece.word?) []
    have hpieces := length_pieces_le text
    rw [List.length_map] at hfill
    exact Nat.le_trans hfill (Nat.le_trans (Nat.succ_le_succ hpieces) hlines)
  obtain ⟨out, hout, hall⟩ := Breaker.fold_reports (wrapWidth maxW + 4) (pieces text)
    { lines := [], pos := 0, lineStart := 0, lineLen := 0, lineW := 0 } []
    (Breaker.holds_nil (fun w => measure w fs ls) text [] 0)
    (by rw [flatMap_pieces, List.drop_zero])
    (fun p hp => cut_of_mem_pieces hp) (by simp) h.short.whole h.short
    (by simpa [layout] using hroom)
  have heq : miniTextBreakLines measure text maxW fs ls maxLines = out := by
    have hne : ¬ (text = [] ∨ maxLines = 0) := by
      rintro (hnil | hzero)
      · exact h.text_ne hnil
      · omega
    rw [miniTextBreakLines, if_neg hne]
    exact hout
  rw [heq]
  exact hall

/-- The drawn lines are the greedy layout. -/
theorem SafeText.draws {x y : ℚ} {st : TextStyle} (h : SafeText measure text maxW st.fs st.ls) :
    drawTextWrappedEx measure text x y maxW st =
      drawLines (fun w => measure w st.fs st.ls) st { x := x, y := y, maxW := wrapWidth maxW } 0
        (layout (fun w => measure w st.fs st.ls) maxW text) := by
  have hstart : ({ drawn := [], penY := 0, line := [], lineW := 0 } : Pen).Holds
      (fun w => measure w st.fs st.ls) st 0 [] := ⟨rfl, rfl, by simp⟩
  have hne : ¬ (text = [] ∨ st.fs ≤ 0) := by
    rintro (hnil | hfs)
    · exact h.text_ne hnil
    · exact not_lt.2 hfs h.fs_pos
  rw [drawTextWrappedEx, if_neg hne]
  exact Pen.fold_draws { x := x, y := y, maxW := wrapWidth maxW } (pieces text) _ 0 [] hstart
    (fun p hp => cut_of_mem_pieces hp) (by simp) h.short.whole h.unsplit h.short

/-- The counted lines are the greedy layout. -/
theorem SafeText.counts (h : SafeText measure text maxW fs ls) :
    textWrapLines measure text fs maxW ls =
      (layout (fun w => measure w fs ls) maxW text).length := by
  unfold textWrapLines
  rcases h.counted with ⟨hearly, hone⟩ | hsafe
  · split_ifs with hnil htotal
    · exact hone.symm
    · exact hone.symm
    · exact absurd hearly (by rw [not_or] at hnil ⊢; exact ⟨hnil.2, htotal⟩)
  · obtain ⟨hpos, hwide⟩ := hsafe.wide
    have hne : ¬ (text = [] ∨ maxW ≤ 0) := by
      rintro (hnil | hmax)
      · exact h.text_ne hnil
      · exact not_lt.2 hmax hpos
    rw [if_neg hne, if_neg (not_le.2 hwide)]
    have hwidth : wrapWidth maxW = maxW := if_neg (not_le.2 hpos)
    have hpieces : pieces text ≠ [] := by
      intro hnil
      have hflat := flatMap_pieces text
      rw [hnil] at hflat
      exact h.text_ne hflat.symm
    have hfold : (pieces text).foldl (wrapStep (fun w => measure w fs ls) maxW) (1, 0) =
        ((pieces text).map Piece.word?).foldl
          (tally (fun w => measure w fs ls) (maxW + 2) isBlank) (1, 0) := by
      rw [List.foldl_map]
      refine List.foldl_ext _ _ _ fun s p hp => ?_
      refine wrapStep_eq_tally (cut_of_mem_pieces hp) ?_ ?_ ?_ s
      · rintro raw rfl
        exact h.short.whole raw hp
      · rintro raw rfl
        exact hsafe.blank raw hp
      · rintro raw rfl
        exact hsafe.unsplit raw hp
    have hlast : ((pieces text).map Piece.word?).getLast? ≠ some none := by
      rw [List.getLast?_map]
      cases hp : (pieces text).getLast? with
      | none => simp
      | some p =>
        cases p with
        | newline raw => exact absurd hp (hsafe.last raw)
        | word raw => simp [Piece.word?]
    have hopens : ∀ line word,
        opensLine (fun w => measure w fs ls) (wrapWidth maxW + 4) line word = true →
        0 < widthOf (fun w => measure w fs ls) line ∧
          maxW + 2 < widthOf (fun w => measure w fs ls) line + measure word fs ls ∧
          isBlank word = false := by
      intro line word h
      obtain ⟨hw, hover, hblank⟩ := opensLine_iff.1 h
      rw [hwidth] at hover
      exact ⟨hw, by linarith, hblank⟩
    have hcount := tally_fillLines hopens
      ((pieces text).map Piece.word?) 1 [] (Or.inr (by simpa using hpieces)) hlast hsafe.snug
    rw [hfold]
    rw [widthOf_nil] at hcount
    unfold layout
    omega

end Agreement

/-- Lines that report the filled ones are drawn as they are. -/
theorem drawLines_of_reports {width : Bytes → ℚ} {text : Bytes} {st : TextStyle} {box : TextBox}
    {out : List TextLine} {ls : List (FilledLine Bytes)}
    (h : List.Forall₂ (Reports width text) out ls) (row : Nat) :
    drawLines width st box row ls =
      (out.zipIdx row).flatMap fun l => drawRow st box l.2 (l.1.slice text) l.1.width := by
  induction h generalizing row with
  | nil => rfl
  | cons hreport _ ih =>
    rw [drawLines_cons, List.zipIdx_cons, List.flatMap_cons, ih, hreport.slice, hreport.width]

/-- Drawn, reported and counted lines agree for every safe text, however a text is measured. -/
theorem breaksAlike_of_safeText (measure : Measure) (text : Bytes) (x y maxW : ℚ)
    (st : TextStyle) (maxLines : Nat) (hlines : text.length < maxLines)
    (hsafe : SafeText measure text maxW st.fs st.ls) :
    BreaksAlike measure text x y maxW st maxLines := by
  have hreports := hsafe.reports hlines
  refine ⟨?_, ?_⟩
  · rw [hsafe.draws]
    exact drawLines_of_reports hreports 0
  · rw [hsafe.counts, hreports.length_eq]

/-! ## Two texts -/

/-- A font whose bytes are eight pixels wide. -/
def fixedWidth : Measure := fun text _ _ => 8 * text.length

/-- Left-aligned black text of the regular weight. -/
def plainStyle : TextStyle :=
  { fs := 16, cr := 0, cg := 0, cb := 0, ca := 1, align := 0, ls := 0, lh := 20
    fontWeight := 400, fontStyle := 0 }

/-- Two words that wrap, the space behind the first hanging over the lower limit. -/
theorem breaksAlike_of_safeText_twoWords :
    BreaksAlike fixedWidth (ascii "ab cd") 0 0 20 plainStyle 64 := by
  refine breaksAlike_of_safeText fixedWidth (ascii "ab cd") 0 0 20 plainStyle 64 (by decide) ?_
  have hpieces : pieces (ascii "ab cd") =
      [.word (ascii "ab"), .word (ascii " "), .word (ascii "cd")] := by decide +kernel
  have hlayout : layout (fun w => fixedWidth w plainStyle.fs plainStyle.ls) 20 (ascii "ab cd") =
      [⟨[ascii "ab", ascii " "], .wrap⟩, ⟨[ascii "cd"], .last⟩] := by decide +kernel
  have hwords : ∀ raw, .word raw ∈ pieces (ascii "ab cd") →
      raw = ascii "ab" ∨ raw = ascii " " ∨ raw = ascii "cd" := by
    intro raw hraw
    rw [hpieces] at hraw
    simpa using hraw
  refine ⟨by decide, by decide, ?_, ?_, Or.inr ⟨by decide +kernel, ?_, ?_, ?_, ?_⟩⟩
  · rw [hlayout]
    decide
  · intro raw hraw
    rcases hwords raw hraw with rfl | rfl | rfl <;> decide +kernel
  · intro raw
    rw [hpieces]
    simp
  · intro raw hraw
    rcases hwords raw hraw with rfl | rfl | rfl <;> decide +kernel
  · intro raw hraw
    rcases hwords raw hraw with rfl | rfl | rfl <;> decide +kernel
  · rw [hlayout]
    decide +kernel

/-- Text measured byte by byte: a line break inside a text that fits the box makes two lines
to draw and to report, but one to reserve. -/
theorem fitting_newline_uncounted :
    (∀ a b, fixedWidth (a ++ b) 16 0 = fixedWidth a 16 0 + fixedWidth b 16 0) ∧
    (miniTextBreakLines fixedWidth (ascii "a\nb") 100 16 0 64).length = 2 ∧
    (drawTextWrappedEx fixedWidth (ascii "a\nb") 0 0 100 plainStyle).map TextDraw.text =
      [ascii "a", ascii "b"] ∧
    textWrapLines fixedWidth (ascii "a\nb") 16 100 0 = 1 ∧
    ¬ BreaksAlike fixedWidth (ascii "a\nb") 0 0 100 plainStyle 64 := by
  have hlines : (miniTextBreakLines fixedWidth (ascii "a\nb") 100 16 0 64).length = 2 := by
    decide +kernel
  have hcount : textWrapLines fixedWidth (ascii "a\nb") 16 100 0 = 1 := by decide +kernel
  refine ⟨?_, hlines, by decide +kernel, hcount, ?_⟩
  · intro a b
    simp [fixedWidth]
    ring
  · intro h
    have hcounts := h.counts
    change textWrapLines fixedWidth (ascii "a\nb") 16 100 0 =
      (miniTextBreakLines fixedWidth (ascii "a\nb") 100 16 0 64).length at hcounts
    rw [hlines, hcount] at hcounts
    exact absurd hcounts (by decide)

end TinyFramework.Text
