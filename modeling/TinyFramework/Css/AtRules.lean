/-
  Css/AtRules.lean --- at-rules, and how much of a sheet they reach.

  Blocks of `@media`, `@supports` and `@layer` are copied out, those of `@keyframes` and
  `@font-face` handed on, all others skipped.  `mini_css_media_matches` computes with floating
  point and is a parameter.

  `css_expand_at_rules` goes wrong at the last character alone: a brace there that opens a
  block to be copied.
-/
import TinyFramework.Css.NestingBounds
import TinyFramework.Foundation.CText

set_option autoImplicit false

namespace TinyFramework.Css

open TinyFramework.Foundation

/-! ## `@supports` -/

/-- `known_props` -/
def knownProps : List Bytes :=
  ["display", "flex-direction", "flex-wrap", "flex-grow", "flex-shrink",
    "flex-basis", "flex", "order", "align-content", "justify-content",
    "align-items", "align-self", "gap", "grid-template-columns",
    "grid-template-rows", "grid-auto-flow", "grid-column", "grid-row",
    "grid-area", "position", "top", "left", "right", "bottom", "z-index",
    "width", "height", "min-width", "max-width", "min-height", "max-height",
    "margin", "padding", "border", "border-radius", "box-shadow",
    "box-sizing", "color", "background", "background-color", "background-image",
    "font-size", "font-weight", "font-family", "font-style", "text-align",
    "text-decoration", "text-transform", "vertical-align", "line-height",
    "letter-spacing", "opacity", "overflow", "transform", "filter",
    "backdrop-filter", "transition", "animation", "cursor", "pointer-events",
    "visibility", "float", "clear"].map ascii

/-- `mini_style_is_supported_prop_val`; the value is not looked at. -/
def miniStyleIsSupportedPropVal (prop : Bytes) : Bool :=
  !prop.isEmpty && knownProps.contains (prop.dropWhile isspace)

/-- `css_eval_supports_single` -/
def cssEvalSupportsSingle (expr : Bytes) : Bool :=
  let expr := expr.dropWhile isspace
  let expr := if expr.head? == some 40 then expr.tail else expr
  if expr.contains 58 then
    miniStyleIsSupportedPropVal
      ((((expr.takeWhile (· != 58)).take 63).rdropWhile isspace).dropWhile isspace)
  else false

/-- The tokens of `strtok_r` with these delimiters, each without the space in front. -/
def supportsItems (delims s : Bytes) : List Bytes :=
  (((s.splitOnP delims.contains).filter fun t => !t.isEmpty).map
    fun t => t.dropWhile isspace).filter fun t => !t.isEmpty

/-- `css_eval_supports` -/
def cssEvalSupports (cond : Bytes) : Bool :=
  let has := fun needle => (cutAt (ascii needle) cond).isSome
  if cond.isEmpty then true
  else if (has "not " || has "not(") && cond.contains 40 then
    !cssEvalSupportsSingle (cond.dropWhile (· != 40))
  else if has " and " then (supportsItems (ascii " and ") (cond.take 255)).all cssEvalSupportsSingle
  else if has " or " then (supportsItems (ascii " or ") (cond.take 255)).any cssEvalSupportsSingle
  else cssEvalSupportsSingle cond

/-! ## The loop -/

/-- What is written and stored. -/
structure AtSheet where
  out : Bytes
  /-- the calls of `mini_css_keyframes_set` -/
  keyframes : List (Bytes × Bytes)
  /-- the calls of `mini_css_fontface_set` -/
  fontFaces : List Bytes
  deriving DecidableEq, Repr

/-- An at-rule reads on, ends the loop, or copies a block of a length below zero. -/
inductive AtStep where
  | resume (p : Bytes) (st : AtSheet)
  | stop
  | overrun

/-- What is done with the block behind the next brace. -/
def onBlock (p : Bytes) (block : Bytes → Bytes → AtStep) : AtStep :=
  match p.dropWhile (· != 123) with
  | [] => .stop
  | _ :: ib => block (p.takeWhile (· != 123)) ib

/-- A block that is copied: where, the sheet says. -/
def copyBlock (ib : Bytes) (put : Bytes → AtSheet) : AtStep :=
  if 0 ≤ blockLength ib then .resume (blockResume ib) (put (blockBody ib)) else .overrun

/-- The characters of a rule name. -/
def isKeyframesName (c : UInt8) : Bool := isalnum c || c == 45 || c == 95

section Expansion

variable (media : Bytes → Bool)

/-- One at-rule, behind its keyword. -/
def atRule (kw p : Bytes) (st : AtSheet) : AtStep :=
  let write := fun body => { st with out := st.out ++ (body ++ [10]) }
  if kw = ascii "media" then
    onBlock p fun cond ib =>
      if media (cond.take 255) then copyBlock ib write else .resume (blockResume ib) st
  else if kw = ascii "keyframes" then
    let ns := p.dropWhile isspace
    let name := (ns.takeWhile isKeyframesName).take 63
    onBlock (ns.dropWhile isKeyframesName) fun _ ib =>
      copyBlock ib fun body => { st with keyframes := st.keyframes ++ [(name, body)] }
  else if kw = ascii "font-face" then
    onBlock p fun _ ib =>
      copyBlock ib fun body => { st with fontFaces := st.fontFaces ++ [body] }
  else if kw = ascii "supports" then
    onBlock p fun cond ib =>
      if cssEvalSupports (cond.take 255) then copyBlock ib write else .resume (blockResume ib) st
  else if kw = ascii "layer" then
    match p.dropWhile isHead with
    | [] => .stop
    | c :: rest => if c == 59 then .resume rest st else copyBlock rest write
  else
    match p.dropWhile isHead with
    | [] => .stop
    | c :: rest => .resume (if c == 59 then rest else cssSkipBlock 1 rest) st

/-- The characters of an at-keyword. -/
def isKeyword (c : UInt8) : Bool := isalpha c || c == 45

/-- The at-keyword as it is compared: cut at 23 characters, in lower case. -/
def keyword (p : Bytes) : Bytes := ((p.takeWhile isKeyword).take 23).map tolower

theorem blockResume_length_le_succ (ib : Bytes) : (blockResume ib).length ≤ ib.length + 1 := by
  unfold blockResume
  simp only
  split
  · rw [List.length_tail, List.length_drop, List.length_cons]
    omega
  · rw [List.length_drop, List.length_cons]
    omega

/-- The text goes on behind a character that is read. -/
def AtStep.Shorter (n : Nat) : AtStep → Prop
  | resume p _ => p.length ≤ n
  | _ => True

theorem copyBlock_shorter (ib : Bytes) (put : Bytes → AtSheet) :
    (copyBlock ib put).Shorter (ib.length + 1) := by
  unfold copyBlock
  split
  · exact blockResume_length_le_succ ib
  · trivial

theorem onBlock_shorter {p : Bytes} {block : Bytes → Bytes → AtStep}
    (h : ∀ cond ib, (block cond ib).Shorter (ib.length + 1)) : (onBlock p block).Shorter p.length := by
  have hle := (List.dropWhile_suffix (l := p) (· != 123)).length_le
  unfold onBlock
  split
  · trivial
  · rename_i ib hib
    rw [hib, List.length_cons] at hle
    have hstep := h (p.takeWhile (· != 123)) ib
    cases hblock : block (p.takeWhile (· != 123)) ib with
    | resume q st =>
      rw [hblock] at hstep
      exact Nat.le_trans hstep hle
    | stop => trivial
    | overrun => trivial

theorem AtStep.Shorter.mono {m n : Nat} (hmn : m ≤ n) {step : AtStep} (h : step.Shorter m) :
    step.Shorter n := by
  cases step with
  | resume p st => exact Nat.le_trans h hmn
  | stop => trivial
  | overrun => trivial

theorem length_dropWhile_le (f : UInt8 → Bool) (p : Bytes) : (p.dropWhile f).length ≤ p.length :=
  (List.dropWhile_suffix f).length_le

theorem atRule_shorter (kw p : Bytes) (st : AtSheet) : (atRule media kw p st).Shorter p.length := by
  have hsheet : ∀ (test : Bytes → Bool) (put : Bytes → AtSheet) (cond ib : Bytes),
      (if test (cond.take 255) then copyBlock ib put else .resume (blockResume ib) st).Shorter
        (ib.length + 1) := by
    intro test put cond ib
    split
    · exact copyBlock_shorter ib put
    · exact blockResume_length_le_succ ib
  have hhead := length_dropWhile_le isHead p
  unfold atRule
  simp only
  split
  · exact onBlock_shorter (hsheet media _)
  split
  · refine (onBlock_shorter fun _ ib => copyBlock_shorter ib _).mono ?_
    exact (length_dropWhile_le _ _).trans (length_dropWhile_le _ _)
  split
  · exact onBlock_shorter fun _ ib => copyBlock_shorter ib _
  split
  · exact onBlock_shorter (hsheet cssEvalSupports _)
  split
  · split
    · trivial
    · rename_i c rest hrest
      rw [hrest, List.length_cons] at hhead
      split
      · exact Nat.le_of_succ_le hhead
      · exact (copyBlock_shorter rest _).mono hhead
  · split
    · trivial
    · rename_i c rest hrest
      rw [hrest, List.length_cons] at hhead
      have hskip := cssSkipBlock_length_le 1 rest
      change (if c == 59 then rest else cssSkipBlock 1 rest).length ≤ _
      split <;> omega

/-- `css_expand_at_rules` -/
def expandAtRules (p : Bytes) (st : AtSheet) : Option AtSheet :=
  match p with
  | [] => some st
  | c :: p =>
      if c != 64 then expandAtRules p { st with out := st.out ++ [c] }
      else
        match _ : atRule media (keyword p) (p.dropWhile isKeyword) st with
        | .resume q st' => expandAtRules q st'
        | .stop => some st
        | .overrun => none
termination_by p.length
decreasing_by
  · exact Nat.lt_succ_self _
  · have hstep := atRule_shorter media (keyword p) (p.dropWhile isKeyword) st
    rw [‹atRule media _ _ _ = _›] at hstep
    exact Nat.lt_succ_of_le (Nat.le_trans hstep (length_dropWhile_le isKeyword p))

/-- `css_expand_at_rules` on a whole text. -/
def cssExpandAtRules (css : Bytes) : Option AtSheet := expandAtRules media css ⟨[], [], []⟩

end Expansion

/-! ## Reading -/

/-- The at-rules that a semicolon does not end. -/
def blockKeywords : List Bytes := ["media", "keyframes", "font-face", "supports"].map ascii

/-- An at-rule up to the brace or semicolon that ends its prelude. -/
structure AtHead where
  word : Bytes
  prelude : Bytes
  isWord : ∀ c ∈ word, isKeyword c = true
  ends : ∀ c ∈ prelude.head?, isKeyword c = false
  noBrace : 123 ∉ prelude
  noSemicolon : (word.take 23).map tolower ∉ blockKeywords → 59 ∉ prelude

namespace AtHead

/-- The keyword as it is compared. -/
def name (r : AtHead) : Bytes := (r.word.take 23).map tolower

def text (r : AtHead) : Bytes := 64 :: (r.word ++ r.prelude)

/-- The block of the rule is copied. -/
def copies (media : Bytes → Bool) (r : AtHead) : Bool :=
  if r.name = ascii "media" then media (r.prelude.take 255)
  else if r.name = ascii "supports" then cssEvalSupports (r.prelude.take 255)
  else (["keyframes", "font-face", "layer"].map ascii).contains r.name

end AtHead

/-- A text is read up to another: characters, statements and closed blocks. -/
inductive Leads : Bytes → Bytes → Prop where
  | here (t : Bytes) : Leads t t
  | char {c : UInt8} {s t : Bytes} : c ≠ 64 → Leads s t → Leads (c :: s) t
  | statement (r : AtHead) {s t : Bytes} : r.name ∉ blockKeywords → Leads s t →
      Leads (r.text ++ 59 :: s) t
  | block (r : AtHead) {body s t : Bytes} : NoStray 123 125 body → EvenBrackets 123 125 body →
      Leads s t → Leads (r.text ++ 123 :: (body ++ 125 :: s)) t

/-- The text does not end with the brace of a block to be copied. -/
def EndsClear (media : Bytes → Bool) (css : Bytes) : Prop :=
  ∀ r : AtHead, Leads css (r.text ++ [123]) → r.copies media = false

theorem Leads.length_le {s t : Bytes} (h : Leads s t) : t.length ≤ s.length := by
  induction h with
  | here => exact Nat.le_refl _
  | char _ _ ih => exact Nat.le_succ_of_le ih
  | statement => simp only [List.length_append, List.length_cons]; omega
  | block => simp only [List.length_append, List.length_cons]; omega

theorem endsClear_of_length_le_one (media : Bytes → Bool) {css : Bytes} (h : css.length ≤ 1) :
    EndsClear media css := by
  intro r hr
  have hle := hr.length_le
  simp only [AtHead.text, List.length_append, List.length_cons] at hle
  omega

/-! ## Steps -/

theorem not_isKeyword_of_stop {c : UInt8} (hc : c = 59 ∨ c = 123) : isKeyword c = false := by
  rcases hc with rfl | rfl <;> rfl

theorem AtHead.ends_behind (r : AtHead) {c : UInt8} (hc : c = 59 ∨ c = 123) (s : Bytes) :
    ∀ d ∈ (r.prelude ++ c :: s).head?, isKeyword d = false := by
  intro d hd
  cases hpre : r.prelude with
  | nil =>
    rw [hpre] at hd
    obtain rfl : c = d := Option.some.inj hd
    exact not_isKeyword_of_stop hc
  | cons e pre =>
    rw [hpre] at hd
    exact r.ends d (hpre ▸ hd)

/-- The rule that is read is the rule of the text. -/
theorem AtHead.read (r : AtHead) {c : UInt8} (hc : c = 59 ∨ c = 123) (s : Bytes) :
    keyword (r.word ++ (r.prelude ++ c :: s)) = r.name ∧
      (r.word ++ (r.prelude ++ c :: s)).dropWhile isKeyword = r.prelude ++ c :: s := by
  obtain ⟨htake, hdrop⟩ := takeWhile_stop r.isWord (r.ends_behind hc s)
  exact ⟨by rw [keyword, htake]; rfl, hdrop⟩

theorem onBlock_brace {pre : Bytes} (h : 123 ∉ pre) (ib : Bytes)
    (block : Bytes → Bytes → AtStep) : onBlock (pre ++ 123 :: ib) block = block pre ib := by
  obtain ⟨htake, hdrop⟩ := takeWhile_stop (f := (· != 123)) (w := pre) (q := 123 :: ib)
    (fun c hc => bne_iff_ne.2 fun h' => h (h' ▸ hc)) (fun c hc => by
      obtain rfl := Option.some.inj hc
      rfl)
  unfold onBlock
  rw [hdrop, htake]

theorem onBlock_stop {p : Bytes} (h : 123 ∉ p) (block : Bytes → Bytes → AtStep) :
    onBlock p block = .stop := by
  have hdrop : p.dropWhile (· != 123) = [] :=
    List.dropWhile_eq_nil_iff.2 fun c hc => bne_iff_ne.2 fun h' => h (h' ▸ hc)
  unfold onBlock
  rw [hdrop]

theorem dropWhile_upto {f : UInt8 → Bool} (hf : f 123 = false) (pre ib : Bytes) :
    (pre ++ 123 :: ib).dropWhile f = pre.dropWhile f ++ 123 :: ib := by
  induction pre with
  | nil => exact List.dropWhile_cons_of_neg (by simp [hf])
  | cons c pre ih =>
    rw [List.cons_append]
    by_cases hc : f c = true
    · rw [List.dropWhile_cons_of_pos hc, List.dropWhile_cons_of_pos hc, ih]
    · rw [List.dropWhile_cons_of_neg hc, List.dropWhile_cons_of_neg hc]
      rfl

section Rule

variable (media : Bytes → Bool) (r : AtHead) (st : AtSheet)

theorem AtHead.isHead_prelude (h : r.name ∉ blockKeywords) : ∀ c ∈ r.prelude, isHead c = true := by
  intro c hc
  simp only [isHead, Bool.and_eq_true, bne_iff_ne]
  exact ⟨fun h59 => r.noSemicolon h (h59 ▸ hc), fun h123 => r.noBrace (h123 ▸ hc)⟩

theorem ne_blockKeyword {name : Bytes} (h : name ∉ blockKeywords) :
    name ≠ ascii "media" ∧ name ≠ ascii "keyframes" ∧ name ≠ ascii "font-face" ∧
      name ≠ ascii "supports" := by
  simp only [blockKeywords, List.map_cons, List.map_nil, List.mem_cons, List.not_mem_nil, or_false,
    not_or] at h
  exact h

theorem AtHead.atRule_semicolon (h : r.name ∉ blockKeywords) (s : Bytes) :
    atRule media r.name (r.prelude ++ 59 :: s) st = .resume s st := by
  obtain ⟨hmedia, hkeyframes, hface, hsupports⟩ := ne_blockKeyword h
  unfold atRule
  simp only [if_neg hmedia, if_neg hkeyframes, if_neg hface, if_neg hsupports,
    (takeWhile_head (r.isHead_prelude h) (show isHead 59 = false from rfl) s).2]
  split <;> rfl

theorem AtHead.atRule_copies (h : r.copies media = true) (ib : Bytes) :
    ∃ put, atRule media r.name (r.prelude ++ 123 :: ib) st = copyBlock ib put := by
  unfold copies at h
  unfold atRule
  by_cases hmedia : r.name = ascii "media"
  · rw [if_pos hmedia] at h
    simp only [if_pos hmedia, onBlock_brace r.noBrace, if_pos h]
    exact ⟨_, rfl⟩
  rw [if_neg hmedia] at h
  simp only [if_neg hmedia]
  by_cases hkeyframes : r.name = ascii "keyframes"
  · have hno : 123 ∉ (r.prelude.dropWhile isspace).dropWhile isKeyframesName := fun hmem =>
      r.noBrace ((List.dropWhile_suffix isspace).subset ((List.dropWhile_suffix _).subset hmem))
    simp only [if_pos hkeyframes, dropWhile_upto (show isspace 123 = false from rfl),
      dropWhile_upto (show isKeyframesName 123 = false from rfl), onBlock_brace hno]
    exact ⟨_, rfl⟩
  simp only [if_neg hkeyframes]
  by_cases hface : r.name = ascii "font-face"
  · simp only [if_pos hface, onBlock_brace r.noBrace]
    exact ⟨_, rfl⟩
  simp only [if_neg hface]
  by_cases hsupports : r.name = ascii "supports"
  · rw [if_pos hsupports] at h
    simp only [if_pos hsupports, onBlock_brace r.noBrace, if_pos h]
    exact ⟨_, rfl⟩
  rw [if_neg hsupports] at h
  simp only [if_neg hsupports]
  have hlayer : r.name = ascii "layer" := by simpa [hkeyframes, hface] using h
  have hhead := r.isHead_prelude (by rw [hlayer]; decide)
  simp only [if_pos hlayer, (takeWhile_head hhead (show isHead 123 = false from rfl) ib).2]
  exact ⟨_, if_neg (by decide)⟩

theorem AtHead.atRule_passes (h : r.copies media = false) (ib : Bytes) :
    ∃ q, (q = blockResume ib ∨ q = cssSkipBlock 1 ib) ∧
      atRule media r.name (r.prelude ++ 123 :: ib) st = .resume q st := by
  unfold copies at h
  unfold atRule
  by_cases hmedia : r.name = ascii "media"
  · rw [if_pos hmedia] at h
    refine ⟨_, .inl rfl, ?_⟩
    simp only [if_pos hmedia, onBlock_brace r.noBrace]
    rw [if_neg (ne_true_of_eq_false h)]
  rw [if_neg hmedia] at h
  by_cases hsupports : r.name = ascii "supports"
  · rw [if_pos hsupports] at h
    have hother : r.name ≠ ascii "keyframes" ∧ r.name ≠ ascii "font-face" := by
      rw [hsupports]
      decide
    refine ⟨_, .inl rfl, ?_⟩
    simp only [if_neg hmedia, if_pos hsupports, if_neg hother.1, if_neg hother.2,
      onBlock_brace r.noBrace]
    rw [if_neg (ne_true_of_eq_false h)]
  rw [if_neg hsupports] at h
  have hnot : r.name ≠ ascii "keyframes" ∧ r.name ≠ ascii "font-face" ∧ r.name ≠ ascii "layer" := by
    simpa using h
  have hblock : r.name ∉ blockKeywords := by
    simp [blockKeywords, hmedia, hsupports, hnot]
  refine ⟨_, .inr rfl, ?_⟩
  simp only [if_neg hmedia, if_neg hnot.1, if_neg hnot.2.1, if_neg hsupports, if_neg hnot.2.2,
    (takeWhile_head (r.isHead_prelude hblock) (show isHead 123 = false from rfl) ib).2]
  rfl

end Rule

/-! ## The rule that is met -/

theorem atRule_stop_block (media : Bytes → Bool) {kw p : Bytes} (hkw : kw ∈ blockKeywords)
    (hp : 123 ∉ p) (st : AtSheet) : atRule media kw p st = .stop := by
  have hname : 123 ∉ (p.dropWhile isspace).dropWhile isKeyframesName := fun hmem =>
    hp ((List.dropWhile_suffix isspace).subset ((List.dropWhile_suffix _).subset hmem))
  unfold atRule
  simp only [onBlock_stop hp, onBlock_stop hname]
  simp only [blockKeywords, List.map_cons, List.map_nil, List.mem_cons, List.not_mem_nil,
    or_false] at hkw
  rcases hkw with rfl | rfl | rfl | rfl <;> rfl

theorem atRule_stop (media : Bytes → Bool) {kw p : Bytes} (hkw : kw ∉ blockKeywords)
    (hp : p.dropWhile isHead = []) (st : AtSheet) : atRule media kw p st = .stop := by
  obtain ⟨hmedia, hkeyframes, hface, hsupports⟩ := ne_blockKeyword hkw
  unfold atRule
  simp only [if_neg hmedia, if_neg hkeyframes, if_neg hface, if_neg hsupports, hp]
  split <;> rfl

theorem not_isKeyword_head (p : Bytes) :
    ∀ c ∈ (p.dropWhile isKeyword).head?, isKeyword c = false := by
  intro c hc
  have hnot := List.head?_dropWhile_not isKeyword p
  rw [Option.mem_def.1 hc] at hnot
  exact hnot

/-- Behind an `@` the loop ends, or a rule is read up to its semicolon or brace. -/
theorem atRule_cases (media : Bytes → Bool) (p : Bytes) :
    (∀ st, atRule media (keyword p) (p.dropWhile isKeyword) st = .stop) ∨
      (∃ r : AtHead, r.name ∉ blockKeywords ∧ ∃ s, p = r.word ++ (r.prelude ++ 59 :: s)) ∨
      ∃ (r : AtHead) (ib : Bytes), p = r.word ++ (r.prelude ++ 123 :: ib) := by
  have hword : ∀ c ∈ p.takeWhile isKeyword, isKeyword c = true :=
    List.all_eq_true.1 List.all_takeWhile
  have hparts := List.takeWhile_append_dropWhile (p := isKeyword) (l := p)
  have hends : ∀ pre t, p.dropWhile isKeyword = pre ++ t → ∀ c ∈ pre.head?, isKeyword c = false := by
    rintro (_ | ⟨d, pre⟩) t hq c hc
    · cases hc
    · refine not_isKeyword_head p c ?_
      rw [hq]
      exact hc
  by_cases hblock : keyword p ∈ blockKeywords
  · by_cases hbrace : 123 ∈ p.dropWhile isKeyword
    · obtain ⟨pre, ib, hq, hpre⟩ := List.eq_append_cons_of_mem hbrace
      exact .inr (.inr ⟨⟨p.takeWhile isKeyword, pre, hword, hends pre _ hq, hpre,
        fun h => absurd hblock h⟩, ib, by rw [← hq, hparts]⟩)
    · exact .inl (atRule_stop_block media hblock hbrace)
  · rcases exists_head (p.dropWhile isKeyword) with ⟨_, _, hend, _⟩ | ⟨pre, c, s, hq, hc, hhead⟩
    · exact .inl (atRule_stop media hblock hend)
    · have hno : 59 ∉ pre := fun hmem => absurd (hhead 59 hmem) (by decide)
      have hrest : p = p.takeWhile isKeyword ++ (pre ++ c :: s) := by rw [← hq, hparts]
      rcases hc with rfl | rfl
      · exact .inr (.inl ⟨⟨p.takeWhile isKeyword, pre, hword, hends pre _ hq, notMem_head hhead,
          fun _ => hno⟩, hblock, s, hrest⟩)
      · exact .inr (.inr ⟨⟨p.takeWhile isKeyword, pre, hword, hends pre _ hq, notMem_head hhead,
          fun _ => hno⟩, s, hrest⟩)

/-! ## The loop -/

section Loop

variable (media : Bytes → Bool)

theorem expandAtRules_nil (st : AtSheet) : expandAtRules media [] st = some st := by
  rw [expandAtRules]

theorem expandAtRules_char {c : UInt8} (hc : c ≠ 64) (p : Bytes) (st : AtSheet) :
    expandAtRules media (c :: p) st = expandAtRules media p { st with out := st.out ++ [c] } := by
  rw [expandAtRules, if_pos (bne_iff_ne.2 hc)]

theorem expandAtRules_at (p : Bytes) (st : AtSheet) :
    expandAtRules media (64 :: p) st =
      match atRule media (keyword p) (p.dropWhile isKeyword) st with
      | .resume q st' => expandAtRules media q st'
      | .stop => some st
      | .overrun => none := by
  rw [expandAtRules, if_neg (by decide)]
  split <;> (rename_i h; rw [h])

/-- A rule whose block ends is read, whatever is done with the block. -/
theorem atRule_closed (r : AtHead) {body : Bytes} (hstray : NoStray 123 125 body)
    (heven : EvenBrackets 123 125 body) (s : Bytes) (st : AtSheet) :
    ∃ st', atRule media r.name (r.prelude ++ 123 :: (body ++ 125 :: s)) st = .resume s st' := by
  cases hcopies : r.copies media with
  | true =>
    obtain ⟨put, hput⟩ := r.atRule_copies media st hcopies (body ++ 125 :: s)
    refine ⟨put body, hput.trans ?_⟩
    unfold copyBlock
    rw [if_pos (by rw [blockLength_closed hstray heven]; exact Int.natCast_nonneg _),
      blockResume_closed hstray heven, blockBody_closed hstray heven]
  | false =>
    obtain ⟨q, hq, hstep⟩ := r.atRule_passes media st hcopies (body ++ 125 :: s)
    rw [blockResume_closed hstray heven, skip_closed hstray heven, or_self] at hq
    exact ⟨st, hq ▸ hstep⟩

/-- A text that leads to the last brace of a copied block is not expanded. -/
theorem expandAtRules_none {p t : Bytes} (h : Leads p t) {r : AtHead} (ht : t = r.text ++ [123])
    (hcopies : r.copies media = true) (st : AtSheet) : expandAtRules media p st = none := by
  induction h generalizing st with
  | here t =>
    obtain ⟨hname, hdrop⟩ := r.read (.inr rfl) []
    obtain ⟨put, hput⟩ := r.atRule_copies media st hcopies []
    rw [ht, AtHead.text, List.cons_append, List.append_assoc, expandAtRules_at, hname, hdrop, hput]
    rfl
  | char hc _ ih => rw [expandAtRules_char media hc, ih ht]
  | statement q hq _ ih =>
    rename_i s _ _
    obtain ⟨hname, hdrop⟩ := q.read (.inl rfl) s
    rw [AtHead.text, List.cons_append, List.append_assoc, expandAtRules_at, hname, hdrop,
      q.atRule_semicolon media st hq]
    exact ih ht st
  | block q hstray heven _ ih =>
    rename_i body s _ _
    obtain ⟨hname, hdrop⟩ := q.read (.inr rfl) (body ++ 125 :: s)
    obtain ⟨st', hstep⟩ := atRule_closed media q hstray heven s st
    rw [AtHead.text, List.cons_append, List.append_assoc, expandAtRules_at, hname, hdrop, hstep]
    exact ih ht st'

theorem blockResume_length_le_one {ib : Bytes} (h : NoStray 123 125 ib) :
    (blockResume ib).length ≤ 1 := by
  rcases List.eq_nil_or_concat ib with rfl | ⟨body, c, rfl⟩
  · exact Nat.le_refl 1
  · rw [List.concat_eq_append] at h ⊢
    rw [blockResume_unclosed h]
    split <;> simp

/-- Behind a block that does not end there is one character at most. -/
theorem atRule_unclosed (r : AtHead) {ib : Bytes} (hstray : NoStray 123 125 ib)
    (hclear : ib = [] → r.copies media = false) (st : AtSheet) :
    ∃ q st', atRule media r.name (r.prelude ++ 123 :: ib) st = .resume q st' ∧ q.length ≤ 1 := by
  cases hcopies : r.copies media with
  | true =>
    obtain ⟨put, hput⟩ := r.atRule_copies media st hcopies ib
    rcases List.eq_nil_or_concat ib with rfl | ⟨body, c, rfl⟩
    · exact absurd (hclear rfl) (by rw [hcopies]; exact Bool.true_eq_false_eq_False)
    · rw [List.concat_eq_append] at hstray hput ⊢
      refine ⟨_, put (blockBody (body ++ [c])), hput.trans ?_, blockResume_length_le_one hstray⟩
      unfold copyBlock
      rw [if_pos (by rw [blockLength_unclosed hstray]; exact Int.natCast_nonneg _)]
  | false =>
    obtain ⟨q, hq, hstep⟩ := r.atRule_passes media st hcopies ib
    refine ⟨q, st, hstep, ?_⟩
    rcases hq with rfl | rfl
    · exact blockResume_length_le_one hstray
    · rw [cssSkipBlock_encloses (.unclosed ib hstray)]
      exact Nat.zero_le 1

theorem expandAtRules_isSome {p : Bytes} (h : EndsClear media p) (st : AtSheet) :
    (expandAtRules media p st).isSome := by
  induction hn : p.length using Nat.strongRecOn generalizing p st with
  | ind n ih =>
    have hnext : ∀ q st', q.length < p.length → EndsClear media q →
        (expandAtRules media q st').isSome := fun q st' hlt hq => ih q.length (hn ▸ hlt) hq st' rfl
    cases p with
    | nil => rw [expandAtRules_nil]; rfl
    | cons c p =>
      by_cases hc : c = 64
      swap
      · rw [expandAtRules_char media hc]
        exact hnext p _ (Nat.lt_succ_self _) fun r hr => h r (.char hc hr)
      subst hc
      rw [expandAtRules_at]
      rcases atRule_cases media p with hstop | ⟨r, hr, s, rfl⟩ | ⟨r, ib, rfl⟩
      · rw [hstop]
        rfl
      · obtain ⟨hname, hdrop⟩ := r.read (.inl rfl) s
        rw [hname, hdrop, r.atRule_semicolon media st hr]
        refine hnext s st (by simp; omega) fun q hq => h q ?_
        have hlead := Leads.statement r hr hq
        rwa [AtHead.text, List.cons_append, List.append_assoc] at hlead
      · obtain ⟨hname, hdrop⟩ := r.read (.inr rfl) ib
        rw [hname, hdrop]
        obtain ⟨body, after, hblock⟩ := exists_encloses (123 : UInt8) 125 ib
        cases hblock with
        | closed _ _ hstray heven =>
          obtain ⟨st', hstep⟩ := atRule_closed media r hstray heven after st
          rw [hstep]
          refine hnext after st' (by simp; omega) fun q hq => h q ?_
          have hlead := Leads.block r hstray heven hq
          rwa [AtHead.text, List.cons_append, List.append_assoc] at hlead
        | unclosed _ hstray =>
          obtain ⟨q, st', hstep, hq⟩ := atRule_unclosed media r hstray
            (fun hnil => h r (by
              rw [hnil, AtHead.text, List.cons_append, List.append_assoc]
              exact .here _)) st
          rw [hstep]
          refine hnext q st' ?_ (endsClear_of_length_le_one media hq)
          simp only [List.length_cons, List.length_append]
          omega

end Loop

/-- The at-rules are expanded within the text exactly when it does not end with the brace of a
block to be copied. -/
theorem cssExpandAtRules_isSome (media : Bytes → Bool) (css : Bytes) :
    (cssExpandAtRules media css).isSome ↔ EndsClear media css := by
  constructor
  · intro h r hr
    by_contra hcopies
    have hnone := expandAtRules_none media hr rfl (by simpa using hcopies) ⟨[], [], []⟩
    unfold cssExpandAtRules at h
    rw [hnone] at h
    exact absurd h Bool.false_ne_true
  · exact fun h => expandAtRules_isSome media h _

/-- Both expansions of a style sheet stay within it, and have no block of a length below zero,
exactly when the text does not end with the brace of a copied block, and every opening brace has
behind it a character for every rule that is open there. -/
theorem expansions_in_bounds_iff (media : Bytes → Bool) (css : Bytes) :
    ((cssExpandAtRules media css).isSome ∧ (cssExpandNesting css).isSome) ↔
      EndsClear media css ∧ Roomy false css :=
  and_congr (cssExpandAtRules_isSome media css) (cssExpandNesting_isSome css)

/-- The block `b{}` is closed, the block around it is not: its brace ends the text that is left
of it. -/
theorem cut_block_overruns : cssExpandNesting (ascii "a\x7bb\x7b\x7d") = none := by
  have hrule : ¬ Roomy false (ascii "a\x7bb\x7b\x7d") := fun h =>
    absurd (h (ascii "a\x7bb") (ascii "\x7d") (by decide)) (by decide)
  rw [← cssExpandNesting_isSome, Bool.not_eq_true, Option.isSome_eq_false_iff,
    Option.isNone_iff_eq_none] at hrule
  exact hrule

end TinyFramework.Css
