/-
  Text/LineBreak.lean --- the three line breakers of `mini_dom.c`.

  Layout counts the lines of a text (`text_wrap_lines`), painting draws them
  (`draw_text_wrapped_ex`), and hit-testing asks where they start and end
  (`mini_text_break_lines`).  All three loops take the same pieces from the text, one a
  pass, so a loop is a fold of its body over the pieces.  `mini_text_measure_ex` is a
  parameter, and the arithmetic of the pixel sizes is exact.
-/
import Mathlib.Data.Rat.Floor
import TinyFramework.Foundation.Ascii
import TinyFramework.Foundation.LineFill

set_option autoImplicit false

namespace TinyFramework.Text

open TinyFramework.Foundation

/-- The signature of `mini_text_measure_ex`: text, font size and letter spacing. -/
abbrev Measure := Bytes → ℚ → ℚ → ℚ

/-! ## The pieces of a text -/

/-- What one pass of a loop takes: a line break or a word, as it stands in the text. -/
inductive Piece where
  | newline (raw : Bytes)
  | word (raw : Bytes)
  deriving DecidableEq, Repr

def Piece.raw : Piece → Bytes
  | .newline raw => raw
  | .word raw => raw

def Piece.word? : Piece → Option Bytes
  | .newline _ => none
  | .word raw => some raw

/-- The length of a multibyte cluster by its lead byte, `clen` and `ulen` of the source. -/
def clusterLen (c : UInt8) : Nat :=
  if 0xF0 ≤ c then 4 else if 0xE0 ≤ c then 3 else if 0xC0 ≤ c then 2 else 1

/-- A byte of a run of words: neither space nor part of a cluster. -/
def isWordByte (c : UInt8) : Bool := !isspace c && c < 0x80

/-- The piece in front of a text, whose first byte is given. -/
def takePiece (c : UInt8) (rest : Bytes) : Piece :=
  if c = 13 ∧ rest.head? = some 10 then .newline [13, 10]
  else if c = 10 ∨ c = 13 then .newline [c]
  else if isspace c then .word [c]
  else if 0x80 ≤ c then .word ((c :: rest).take (clusterLen c))
  else .word (c :: rest.takeWhile isWordByte)

def piecesFrom : Nat → Bytes → List Piece
  | 0, _ => []
  | _, [] => []
  | fuel + 1, c :: rest =>
      let piece := takePiece c rest
      piece :: piecesFrom fuel ((c :: rest).drop piece.raw.length)

/-- The pieces of a text.  Every pass takes a byte. -/
def pieces (text : Bytes) : List Piece := piecesFrom text.length text

/-- Whether a word is a space. -/
def isBlank (word : Bytes) : Bool := word.head?.any isspace

/-- What of a word fits into `word_buf`. -/
def wordBuf (word : Bytes) : Bytes := word.take 127

/-- The passes of the loop that splits a long word. -/
def clustersFrom : Nat → Bytes → List Bytes
  | 0, _ => []
  | _, [] => []
  | fuel + 1, c :: rest =>
      (c :: rest).take (clusterLen c) :: clustersFrom fuel ((c :: rest).drop (clusterLen c))

def clusters (word : Bytes) : List Bytes := clustersFrom word.length word

/-! ## `mini_text_break_lines` -/

/-- A reported line: `out_start`, `out_end` and `out_w`. -/
structure TextLine where
  start : Nat
  stop : Nat
  width : ℚ
  deriving DecidableEq, Repr

/-- The substring a line reports. -/
def TextLine.slice (l : TextLine) (text : Bytes) : Bytes :=
  (text.drop l.start).take (l.stop - l.start)

/-- The variables of the loop; `pos` is `p - text`. -/
structure Breaker where
  lines : List TextLine
  pos : Nat
  lineStart : Nat
  lineLen : Nat
  lineW : ℚ

def Breaker.line (s : Breaker) : TextLine :=
  { start := s.lineStart, stop := s.lineStart + s.lineLen, width := s.lineW }

/-- One pass of the loop.  A word that does not fit into the buffer is left out. -/
def Breaker.step (width : Bytes → ℚ) (safeMaxW : ℚ) (maxLines : Nat) (s : Breaker)
    (piece : Piece) : Breaker :=
  if maxLines ≤ s.lines.length then s
  else
    let pos := s.pos + piece.raw.length
    match piece with
    | .newline _ =>
        { lines := s.lines ++ [s.line], pos := pos, lineStart := pos, lineLen := 0, lineW := 0 }
    | .word raw =>
        let word := wordBuf raw
        let s :=
          if 0 < s.lineW ∧ safeMaxW < s.lineW + width word ∧ isBlank word = false then
            { s with
              lines := s.lines ++ [s.line]
              lineStart := s.lineStart + s.lineLen
              lineLen := 0
              lineW := 0 }
          else s
        -- the loop is left here when the lines have run out
        if s.lines.length < maxLines ∧ s.lineLen + word.length < 127 then
          { s with
            pos := pos, lineLen := s.lineLen + word.length, lineW := s.lineW + width word }
        else { s with pos := pos }

/-- The width a box without a width is taken to have. -/
def wrapWidth (maxW : ℚ) : ℚ := if maxW ≤ 0 then 1000000000 else maxW

/-- `mini_text_break_lines` -/
def miniTextBreakLines (measure : Measure) (text : Bytes) (wrapW fs ls : ℚ) (maxLines : Nat) :
    List TextLine :=
  if text = [] ∨ maxLines = 0 then []
  else
    let s := (pieces text).foldl
      (Breaker.step (fun w => measure w fs ls) (wrapWidth wrapW + 4) maxLines)
      { lines := [], pos := 0, lineStart := 0, lineLen := 0, lineW := 0 }
    if 0 < s.lineLen ∧ s.lines.length < maxLines then s.lines ++ [s.line] else s.lines

/-! ## `draw_text_wrapped_ex` -/

/-- The arguments of `draw_text_wrapped_ex` behind the box and the text. -/
structure TextStyle where
  fs : ℚ
  cr : ℚ
  cg : ℚ
  cb : ℚ
  ca : ℚ
  align : Int
  ls : ℚ
  lh : ℚ
  fontWeight : Int
  fontStyle : Int
  deriving DecidableEq

/-- A call of `mini_draw_text_styled`. -/
structure TextDraw where
  x : ℚ
  y : ℚ
  text : Bytes
  fs : ℚ
  cr : ℚ
  cg : ℚ
  cb : ℚ
  ca : ℚ
  ls : ℚ
  fontStyle : Int
  deriving DecidableEq

/-- Where a text is drawn, the width no more zero. -/
structure TextBox where
  x : ℚ
  y : ℚ
  maxW : ℚ

/-- The calls that draw one line, a second one for a bold font. -/
def drawLine (st : TextStyle) (box : TextBox) (penY : ℚ) (line : Bytes) (lineW : ℚ) :
    List TextDraw :=
  let drawX :=
    if st.align = 1 then box.x + (box.maxW - lineW) * (1 / 2)
    else if st.align = 2 then box.x + (box.maxW - lineW)
    else box.x
  let drawX : ℚ := ⌊drawX + 1 / 2⌋
  let vOff := if st.fs < st.lh then (st.lh - st.fs) * (1 / 2) else 0
  let drawY : ℚ := ⌊box.y + penY + vOff + 1 / 2⌋
  let call (x : ℚ) : TextDraw :=
    { x := x, y := drawY, text := line, fs := st.fs, cr := st.cr, cg := st.cg, cb := st.cb
      ca := if st.ca ≤ 0 then 1 else st.ca, ls := st.ls, fontStyle := st.fontStyle }
  if 600 ≤ st.fontWeight then
    [call drawX, call (drawX + if 800 ≤ st.fontWeight then 2 else 1)]
  else [call drawX]

/-- The variables of the loop; `line` is what stands in `line_buf`. -/
structure Pen where
  drawn : List TextDraw
  penY : ℚ
  line : Bytes
  lineW : ℚ

/-- Draw the line and begin the next one. -/
def Pen.flush (st : TextStyle) (box : TextBox) (s : Pen) : Pen :=
  { drawn := s.drawn ++ drawLine st box s.penY s.line s.lineW
    penY := s.penY + st.lh, line := [], lineW := 0 }

/-- Begin the next line if `w` more pixels go past the margin. -/
def Pen.makeRoom (st : TextStyle) (box : TextBox) (s : Pen) (w : ℚ) : Pen :=
  if 0 < s.lineW ∧ box.maxW + 4 < s.lineW + w then s.flush st box else s

/-- Put a word into `line_buf` if it has room. -/
def Pen.place (s : Pen) (word : Bytes) (w : ℚ) : Pen :=
  if s.line.length + word.length < 1023 then
    { s with line := s.line ++ word, lineW := s.lineW + w }
  else s

/-- One pass of the loop. -/
def Pen.step (width : Bytes → ℚ) (st : TextStyle) (box : TextBox) (s : Pen) (piece : Piece) :
    Pen :=
  match piece with
  | .newline _ =>
      let drawn := if 0 < s.line.length then s.drawn ++ drawLine st box s.penY s.line s.lineW
        else s.drawn
      { drawn := drawn, penY := s.penY + st.lh, line := [], lineW := 0 }
  | .word raw =>
      let word := wordBuf raw
      if box.maxW + 4 < width word ∧ 1 < word.length then
        -- a word wider than the box goes cluster by cluster
        (clusters word).foldl (fun s c => (s.makeRoom st box (width c)).place c (width c)) s
      else
        let s := if isBlank word then s else s.makeRoom st box (width word)
        s.place word (width word)

/-- `draw_text_wrapped_ex`: the calls it makes. -/
def drawTextWrappedEx (measure : Measure) (text : Bytes) (x y maxW : ℚ) (st : TextStyle) :
    List TextDraw :=
  if text = [] ∨ st.fs ≤ 0 then []
  else
    let box : TextBox := { x := x, y := y, maxW := wrapWidth maxW }
    let s := (pieces text).foldl (Pen.step (fun w => measure w st.fs st.ls) st box)
      { drawn := [], penY := 0, line := [], lineW := 0 }
    if 0 < s.line.length then s.drawn ++ drawLine st box s.penY s.line s.lineW else s.drawn

/-! ## `text_wrap_lines` -/

/-- One pass of the loop, on the number of lines and the width of the last. -/
def wrapStep (width : Bytes → ℚ) (maxW : ℚ) (s : Nat × ℚ) (piece : Piece) : Nat × ℚ :=
  let (lines, lineW) := s
  match piece with
  | .newline _ => (lines + 1, 0)
  | .word raw =>
      if isBlank raw then
        let spW := width [32]
        if maxW + 2 < lineW + spW ∧ 0 < lineW then (lines + 1, 0) else (lines, lineW + spW)
      else
        let word := wordBuf raw
        let put (s : Nat × ℚ) (w : ℚ) : Nat × ℚ :=
          if 0 < s.2 ∧ maxW + 2 < s.2 + w then (s.1 + 1, w) else (s.1, s.2 + w)
        if maxW + 2 < width word ∧ 1 < word.length then
          (clusters word).foldl (fun s c => put s (width c)) (lines, lineW)
        else put (lines, lineW) (width word)

/-- `text_wrap_lines` -/
def textWrapLines (measure : Measure) (text : Bytes) (fontSize maxW ls : ℚ) : Nat :=
  if text = [] ∨ maxW ≤ 0 then 1
  else if measure text fontSize ls ≤ maxW + 4 then 1
  else ((pieces text).foldl (wrapStep (fun w => measure w fontSize ls) maxW) (1, 0)).1

end TinyFramework.Text
