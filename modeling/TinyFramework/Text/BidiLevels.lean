/-
  Text/BidiLevels.lean --- bidirectional text.

  `T` and `L` of `mini_bidi_reorder` are lists, and each rule is one pass over them that carries
  the variables of its loop.  Memory does not run out.

  The step is done twice: on the levels themselves, and then on the indices by what has become of
  the levels.  The levels that are handed out are therefore in visual order, and the visual order
  is that of the levels so mixed up.
-/
import TinyFramework.Foundation.Runs

set_option autoImplicit false

namespace TinyFramework.Text

open TinyFramework.Foundation

/-! ## Classes -/

/-- `MiniBidiClass` -/
inductive BidiClass where
  | L | R | AL | EN | ES | ET | AN | CS | NSM | BN | BS | SS | WS | ON
  | LRE | RLE | LRO | RLO | PDF | FSI | LRI | RLI | PDI
  deriving DecidableEq, Repr

/-- A code point from `a` to `b`. -/
def within (c a b : Nat) : Bool := a ≤ c && c ≤ b

/-- The Hebrew block, 0590 to 05FF. -/
def hebrewClass (c : Nat) : BidiClass :=
  if within c 0x0591 0x05BD then .NSM
  else if c = 0x05BE ∨ c = 0x05C0 ∨ c = 0x05C3 then .R
  else if c = 0x05C4 ∨ c = 0x05C5 ∨ c = 0x05C7 then .NSM
  else .R

/-- The Arabic block, 0600 to 06FF. -/
def arabicClass (c : Nat) : BidiClass :=
  if c = 0x060C then .CS
  else if c = 0x061B ∨ c = 0x061F then .ON
  else if within c 0x0660 0x0669 then .AN
  else if within c 0x06F0 0x06F9 then .EN
  else if within c 0x064B 0x065F then .NSM
  else if c = 0x0670 ∨ c = 0x0640 then .AL
  else if c = 0x06DD ∨ c = 0x06DE then .AN
  else if c = 0x066A then .ET
  else if c = 0x066B ∨ c = 0x066C then .CS
  else .AL

/-- The characters that take part in explicit embedding, and the controls. -/
def controlClass (c : Nat) : Option BidiClass :=
  if c = 0x200E ∨ c = 0x200F then some .BN
  else if c = 0x202A then some .LRE
  else if c = 0x202B then some .RLE
  else if c = 0x202C then some .PDF
  else if c = 0x202D then some .LRO
  else if c = 0x202E then some .RLO
  else if c = 0x2066 then some .LRI
  else if c = 0x2067 then some .RLI
  else if c = 0x2068 then some .FSI
  else if c = 0x2069 then some .PDI
  else if c = 0x2028 then some .BS
  else if c = 0x2029 then some .SS
  else if c = 0x0009 ∨ c = 0x000A ∨ c = 0x000D then some .BS
  else if c = 0x0000 ∨ c = 0x000B ∨ within c 0x000E 0x001F ∨ c = 0x007F ∨
      within c 0x0080 0x009F then
    some .BN
  else none

/-- White space, ASCII and Latin-1. -/
def latinClass (c : Nat) : Option BidiClass :=
  if c = 0x0020 ∨ within c 0x2000 0x200A ∨ c = 0x1680 ∨ c = 0x3000 then some .WS
  else if within c 0x41 0x5A ∨ within c 0x61 0x7A then some .L
  else if within c 0x30 0x39 then some .EN
  else if c = 0x2B ∨ c = 0x2D then some .ES
  else if c = 0x24 then some .ET
  else if c = 0x25 ∨ c = 0x066B ∨ c = 0x066C then some .ET
  else if c = 0x2C ∨ c = 0x2E ∨ c = 0x2F ∨ c = 0x3A then some .CS
  else if c = 0x28 ∨ c = 0x29 ∨ c = 0x5B ∨ c = 0x5D ∨ c = 0x7B ∨ c = 0x7D ∨ c = 0x3C ∨ c = 0x3E ∨
      c = 0x2018 ∨ c = 0x2019 ∨ c = 0x201C ∨ c = 0x201D ∨ c = 0x2010 ∨ c = 0x2013 ∨ c = 0x2014 ∨
      c = 0x2026 ∨ c = 0x2039 ∨ c = 0x203A then some .ON
  else if within c 0x0021 0x002F ∨ within c 0x003A 0x0040 ∨ within c 0x005B 0x0060 ∨
      within c 0x007B 0x007E then some .ON
  else if c = 0x00A0 then some .CS
  else if c = 0x00AD then some .BN
  else if within c 0x00B0 0x00B9 ∨ c = 0x2070 then some .EN
  else none

/-- Combining marks and the other scripts. -/
def scriptClass (c : Nat) : BidiClass :=
  if within c 0x0300 0x036F ∨ within c 0x1AB0 0x1AFF ∨ within c 0x1DC0 0x1DFF ∨
      within c 0xFE20 0xFE2F then .NSM
  else if within c 0x0590 0x05FF then hebrewClass c
  else if within c 0x0600 0x06FF then arabicClass c
  else if within c 0xFB50 0xFDFF ∨ within c 0xFE70 0xFEFF then .AL
  else if within c 0xFB1D 0xFB4F then .R
  else if within c 0x0700 0x074F ∨ within c 0x0750 0x077F ∨ within c 0x07C0 0x07FF ∨
      within c 0x0800 0x083F ∨ within c 0x0840 0x085F ∨ within c 0x08A0 0x08FF then .AL
  else if within c 0x0900 0x097F ∨ within c 0x00C0 0x024F then .L
  else .ON

/-- `mini_bidi_class` -/
def miniBidiClass (c : Nat) : BidiClass :=
  ((controlClass c).orElse fun _ => latinClass c).getD (scriptClass c)

/-! ## P2, P3 and X1 to X9 -/

/-- `plevel`: that of the first strong character. -/
def paragraphLevel : List BidiClass → Nat
  | [] => 0
  | .L :: _ => 0
  | .R :: _ => 1
  | .AL :: _ => 1
  | _ :: T => paragraphLevel T

/-- `cur`, `override` and what the stack holds of both. -/
structure Embedding where
  cur : Nat
  override : BidiClass := .ON
  stack : List (Nat × BidiClass) := []

/-- One of the four characters that open an embedding. -/
def isEmbedding (t : BidiClass) : Bool := t = .RLE || t = .LRE || t = .RLO || t = .LRO

/-- The level that an embedding opens; no more than 61. -/
def nextLevel (cur : Nat) (t : BidiClass) : Nat :=
  min 61 (if t = .RLE ∨ t = .RLO then (cur ||| 1) + 1 else (cur + 2) / 2 * 2)

def Embedding.enter (e : Embedding) (t : BidiClass) : Embedding :=
  { cur := nextLevel e.cur t
    override := if t = .LRO then .L else if t = .RLO then .R else .ON
    stack := if e.stack.length < 64 then (e.cur, e.override) :: e.stack else e.stack }

def Embedding.leave (e : Embedding) : Embedding :=
  match e.stack with
  | [] => e
  | (cur, override) :: stack => { cur := cur, override := override, stack := stack }

/-- The classes and levels behind the explicit rules. -/
def explicitLevels : Embedding → List BidiClass → List (BidiClass × Nat)
  | _, [] => []
  | e, t :: T =>
      if isEmbedding t then (.BN, (e.enter t).cur) :: explicitLevels (e.enter t) T
      else if t = .PDF then (.BN, e.leave.cur) :: explicitLevels e.leave T
      else if t = .BN then (.BN, e.cur) :: explicitLevels e T
      else
        (if e.override ≠ .ON ∧ t ≠ .WS then e.override else t, e.cur) :: explicitLevels e T

/-! ## W1 to W7 -/

/-- The class that stands for the start of the text. -/
def startClass (plevel : Nat) : BidiClass := if plevel = 0 then .L else .R

/-- W1: a mark takes the class in front of it. -/
def w1 : BidiClass → List BidiClass → List BidiClass
  | _, [] => []
  | prev, t :: T => if t = .NSM then prev :: w1 prev T else t :: w1 (if t = .BN then prev else t) T

def isStrong (t : BidiClass) : Bool := t = .L || t = .R || t = .AL

/-- W2: a European number behind an Arabic letter is an Arabic one. -/
def w2 : BidiClass → List BidiClass → List BidiClass
  | _, [] => []
  | last, t :: T =>
      if t = .BN then t :: w2 last T
      else
        let t := if t = .EN ∧ last = .AL then .AN else t
        t :: w2 (if isStrong t then t else last) T

/-- W3 -/
def w3 (T : List BidiClass) : List BidiClass := T.map fun t => if t = .AL then .R else t

/-- The first class that is no boundary neutral. -/
def nearest (T : List BidiClass) : BidiClass := ((T.dropWhile (· = .BN)).head?).getD .BN

/-- W4: a separator between two numbers of one kind; `before` is what is passed, the last first. -/
def w4 : List BidiClass → List BidiClass → List BidiClass
  | _, [] => []
  | before, t :: T =>
      let t :=
        if t = .ES ∨ t = .CS then
          if nearest before = .EN ∧ nearest T = .EN then .EN
          else if nearest before = .AN ∧ nearest T = .AN then .AN
          else t
        else t
      t :: w4 (t :: before) T

/-- W5: a run of terminators beside a European number; `run` of them are pending behind `prev`. -/
def w5 : BidiClass → Nat → List BidiClass → List BidiClass
  | prev, run, [] => List.replicate run (if prev = .EN then .EN else .ET)
  | prev, run, t :: T =>
      if t = .ET then w5 prev (run + 1) T
      else List.replicate run (if prev = .EN ∨ t = .EN then .EN else .ET) ++ t :: w5 t 0 T

/-- W6 -/
def w6 (T : List BidiClass) : List BidiClass :=
  T.map fun t => if t = .ES ∨ t = .ET ∨ t = .CS then .ON else t

/-- W7: a European number behind a Latin letter. -/
def w7 : BidiClass → List BidiClass → List BidiClass
  | _, [] => []
  | last, t :: T =>
      if t = .BN then t :: w7 last T
      else
        let t := if t = .EN ∧ last = .L then .L else t
        t :: w7 (if t = .L ∨ t = .R then t else last) T

def weakClasses (plevel : Nat) (T : List BidiClass) : List BidiClass :=
  w7 (startClass plevel)
    (w6 (w5 .BN 0 (w4 [] (w3 (w2 (startClass plevel) (w1 (startClass plevel) T))))))

/-! ## N1, N2, I1 and I2 -/

def isNeutral (t : BidiClass) : Bool := t = .WS || t = .ON || t = .BS || t = .SS

/-- `strong_for_neutral` -/
def strongForNeutral (t : BidiClass) : BidiClass :=
  if t = .L then .L else if t = .R ∨ t = .AL ∨ t = .EN ∨ t = .AN then .R else t

def levelClass (level : Nat) : BidiClass := if level % 2 = 1 then .R else .L

/-- What a run of neutrals meets on one side: its own direction, unless a letter or a number. -/
def sideClass (level : Nat) (side : List BidiClass) : BidiClass :=
  let t := nearest side
  strongForNeutral (if t = .L ∨ t = .R ∨ t = .EN ∨ t = .AN then t else levelClass level)

/-- The class that a run of neutrals takes; the level is that of its first place. -/
def neutralClass (level : Nat) (before after : List BidiClass) : BidiClass :=
  if sideClass level before = sideClass level after then sideClass level before
  else levelClass level

/-- N1 and N2: `run` neutrals are pending, the first at a level; `before` is what is passed in
front of them, the last first. -/
def resolveNeutrals : List BidiClass → Nat → Nat → List (BidiClass × Nat) → List BidiClass
  | before, run, level, [] => List.replicate run (neutralClass level before [])
  | before, run, level, (t, l) :: rest =>
      if isNeutral t then
        if run = 0 then resolveNeutrals before 1 l rest
        else resolveNeutrals before (run + 1) level rest
      else
        let passed := List.replicate run (neutralClass level before (t :: rest.map Prod.fst))
        passed ++ t :: resolveNeutrals (t :: (passed ++ before)) 0 0 rest

/-- I1 and I2 -/
def implicitLevel (t : BidiClass) (e : Nat) : Nat :=
  if e % 2 = 0 then (if t = .R ∨ t = .AN then e + 1 else e)
  else if t = .L ∨ t = .EN then e + 1
  else e

/-- The array `L` in front of the step L2. -/
def resolvedLevels (cps : List Nat) : List Nat :=
  let T := cps.map miniBidiClass
  let plevel := paragraphLevel T
  let explicit := explicitLevels { cur := plevel } T
  let L := explicit.map Prod.snd
  let T := resolveNeutrals [] 0 0 ((weakClasses plevel (explicit.map Prod.fst)).zip L)
  List.zipWith implicitLevel T L

/-! ## L2 -/

/-- `maxl` -/
def maxLevel (L : List Nat) : Nat := L.foldl max 0

/-- `min_odd`; 63 if there is none. -/
def minOdd (L : List Nat) : Nat := (L.filter (· % 2 = 1)).foldl min 63

/-- The passes of the step: from the maximum down to the lowest odd level. -/
def l2Levels (L : List Nat) : List Nat :=
  (List.range' (minOdd L) (maxLevel L + 1 - minOdd L)).reverse

/-- The order that UAX #9 asks for: from the identity, each pass reverses the runs of its level or
a higher one. -/
def l2Order (L : List Nat) : List Nat := reversals L (l2Levels L) (List.range L.length)

/-- What `mini_bidi_reorder` returns and writes. -/
structure BidiResult where
  plevel : Nat
  visual : List Nat
  levels : List Nat
  deriving DecidableEq, Repr

/-- `mini_bidi_reorder` -/
def miniBidiReorder (cps : List Nat) : BidiResult :=
  let L := resolvedLevels cps
  let L := selfReversals (l2Levels L) L
  { plevel := paragraphLevel (cps.map miniBidiClass)
    visual := reversals L (l2Levels L) (List.range L.length)
    levels := L }

theorem l2Levels_down (L : List Nat) : (l2Levels L).Pairwise (· ≥ ·) := by
  rw [l2Levels, List.pairwise_reverse]
  exact List.pairwise_le_range'

/-- The levels that are handed out are those of the characters in visual order. -/
theorem miniBidiReorder_levels (cps : List Nat) :
    (miniBidiReorder cps).levels =
      (l2Order (resolvedLevels cps)).map fun i => (resolvedLevels cps).getD i 0 := by
  dsimp only [miniBidiReorder, l2Order]
  exact selfReversals_eq_map _ (l2Levels_down _) _

/-- The visual order is that of the levels handed out. -/
theorem miniBidiReorder_visual (cps : List Nat) :
    (miniBidiReorder cps).visual = l2Order (miniBidiReorder cps).levels := by
  dsimp only [miniBidiReorder, l2Order]

/-- Levels and order are those of the characters exactly if the levels read the same in visual
order as in logical order. -/
theorem miniBidiReorder_iff (cps : List Nat) :
    ((miniBidiReorder cps).levels = resolvedLevels cps ∧
        (miniBidiReorder cps).visual = l2Order (resolvedLevels cps)) ↔
      (l2Order (resolvedLevels cps)).map (fun i => (resolvedLevels cps).getD i 0) =
        resolvedLevels cps := by
  rw [miniBidiReorder_visual, miniBidiReorder_levels]
  constructor
  · exact And.left
  · intro hsame
    exact ⟨hsame, congrArg l2Order hsame⟩

/-- A Hebrew letter in front of a number: the digits change places, and so do the levels. -/
theorem digits_reversed_behind_hebrew :
    (miniBidiReorder [0x05D0, 0x31, 0x32]).levels ≠ resolvedLevels [0x05D0, 0x31, 0x32] ∧
      (miniBidiReorder [0x05D0, 0x31, 0x32]).visual ≠
        l2Order (resolvedLevels [0x05D0, 0x31, 0x32]) := by
  decide

end TinyFramework.Text
