/-
  Css/Nesting.lean --- nested style rules written out flat (`mini_dom.c`).

  A text is the part of the style sheet from a pointer to its end.  A block is copied by its
  length, the distance from its first character to the closing brace: `none` stands for a
  length below zero, which `memcpy` reads as one beyond all memory.
-/
import TinyFramework.Css.Selector
import TinyFramework.Foundation.Brackets
import Mathlib.Data.List.DropRight

set_option autoImplicit false

namespace TinyFramework.Css

open TinyFramework.Foundation

/-! ## Blocks -/

/-- `css_skip_block`, behind the opening brace: the text behind the brace that brings the depth
to 0, or the end. -/
def cssSkipBlock : Nat → Bytes → Bytes
  | _, [] => []
  | depth, c :: q =>
      if c == 123 then cssSkipBlock (depth + 1) q
      else if c == 125 then
        if depth - 1 = 0 then q else cssSkipBlock (depth - 1) q
      else cssSkipBlock depth q

/-- `close - ib`: `close` is the character in front of what `css_skip_block` returns, `ib` the
text behind the opening brace. -/
def blockLength (ib : Bytes) : Int := ib.length - (cssSkipBlock 1 ib).length - 1

/-- The block as it is copied. -/
def blockBody (ib : Bytes) : Bytes := ib.take (blockLength ib).toNat

/-- `(*close == '}') ? close + 1 : close` -/
def blockResume (ib : Bytes) : Bytes :=
  let close := (123 :: ib).drop (ib.length - (cssSkipBlock 1 ib).length)
  if close.head? == some 125 then close.tail else close

/-! ## Selectors -/

/-- A text without the white space around it. -/
def trim (s : Bytes) : Bytes := (s.dropWhile isspace).rdropWhile isspace

/-- The items of a selector list, read from a copy of 255 characters. -/
def selectorItems (s : Bytes) : List Bytes :=
  (commaTokens (s.take 255)).map (List.rdropWhile isspace)

/-- The parent in the place of every `&`, as long as there is room. -/
def substitute (cap : Nat) (parent : Bytes) : Bytes → Bytes → Bytes
  | out, [] => out
  | out, c :: child =>
      if out.length + 1 < cap then
        if c == 38 then
          substitute cap parent
            (if out.length + parent.length < cap then out ++ parent else out) child
        else substitute cap parent (out ++ [c]) child
      else out

/-- A child that begins with a combinator is not set off by a blank. -/
def needsSpace (child : Bytes) : Bool :=
  match child with
  | c :: _ => c != 62 && c != 43 && c != 126
  | [] => true

/-- The parent in front of the child. -/
def descend (parent child : Bytes) : Bytes :=
  if needsSpace child then parent ++ 32 :: child else parent ++ child

/-- One parent and one child put behind `out`. -/
def combineItem (cap : Nat) (parent out child : Bytes) : Bytes :=
  let out := if 0 < out.length ∧ out.length + 2 < cap then out ++ ascii ", " else out
  if child.contains 38 then substitute cap parent out child
  else if out.length + (descend parent child).length < cap then out ++ descend parent child
  else out

/-- `css_combine_selectors` -/
def cssCombineSelectors (parent child : Bytes) (cap : Nat) : Bytes :=
  if parent.isEmpty then child.take (cap - 1)
  else
    (selectorItems parent).foldl
      (fun out p => (selectorItems child).foldl (combineItem cap p) out) []

/-! ## Rules -/

/-- A rule as it is written. -/
def flatRule (sel decls : Bytes) : Bytes := sel ++ ascii " \x7b " ++ decls ++ ascii " \x7d\n"

/-- Neither the end of a declaration nor the beginning of a block. -/
def isHead (c : UInt8) : Bool := c != 59 && c != 123

theorem cssSkipBlock_length_le (depth : Nat) (q : Bytes) :
    (cssSkipBlock depth q).length ≤ q.length := by
  fun_induction cssSkipBlock depth q <;> simp only [List.length_cons, List.length_nil] <;> omega

theorem length_behind_head {s rest : Bytes} {c : UInt8}
    (h : (s.dropWhile isspace).dropWhile isHead = c :: rest) : rest.length < s.length := by
  have hle := ((List.dropWhile_suffix isHead).trans
    (List.dropWhile_suffix (l := s) isspace)).length_le
  rw [h, List.length_cons] at hle
  exact hle

theorem length_behind_brace {s : Bytes} (h : (s.dropWhile isspace).head? = some 123) :
    (cssSkipBlock 1 (s.dropWhile isspace).tail).length < s.length := by
  have hskip := cssSkipBlock_length_le 1 (s.dropWhile isspace).tail
  have hle := (List.dropWhile_suffix (l := s) isspace).length_le
  have hne : s.dropWhile isspace ≠ [] := by
    intro hnil
    rw [hnil] at h
    exact absurd h (Option.some_ne_none _).symm
  have hpos := List.length_pos_of_ne_nil hne
  rw [List.length_tail] at hskip
  omega

theorem blockBody_length_le (ib : Bytes) : (blockBody ib).length ≤ ib.length :=
  List.length_take_le' _ _

theorem blockResume_length_le {ib : Bytes} (h : 0 ≤ blockLength ib) :
    (blockResume ib).length ≤ ib.length := by
  have hafter := cssSkipBlock_length_le 1 ib
  have hdrop : ((123 :: ib).drop (ib.length - (cssSkipBlock 1 ib).length)).length ≤ ib.length := by
    unfold blockLength at h
    rw [List.length_drop, List.length_cons]
    omega
  unfold blockResume
  simp only
  split
  · rw [List.length_tail]
    omega
  · exact hdrop

mutual

/-- `css_expand_nesting_rec`, with what is written to `out`. -/
def expandNestingRec (parent css out : Bytes) : Option Bytes :=
  let p := css.dropWhile isspace
  match _ : p.dropWhile isHead with
  | [] => some out
  | c :: rest =>
      if c == 59 then
        -- `semi < brace`
        if rest.contains 123 then
          expandNestingRec parent rest
            (if parent.isEmpty then out
            else out ++ flatRule parent (p.takeWhile isHead ++ [59]))
        else some out
      else if _ : 0 ≤ blockLength rest then
        let resolved := cssCombineSelectors parent (trim ((p.takeWhile isHead).take 255)) 512
        (expandBody resolved (blockBody rest) [] out).bind fun (decls, out) =>
          let idt := decls.dropWhile isspace
          expandNestingRec parent (blockResume rest)
            (if idt.isEmpty then out else out ++ flatRule resolved idt)
      else none
termination_by (css.length, 0)
decreasing_by
  · exact Prod.Lex.left _ _ (length_behind_head ‹_›)
  · exact Prod.Lex.left _ _ ((blockBody_length_le _).trans_lt (length_behind_head ‹_›))
  · exact Prod.Lex.left _ _ ((blockResume_length_le ‹_›).trans_lt (length_behind_head ‹_›))

/-- The loop over the body of a rule: the declarations met, and `out` with the nested rules. -/
def expandBody (resolved body decls out : Bytes) : Option (Bytes × Bytes) :=
  let bp := body.dropWhile isspace
  if bp.head? = some 123 then expandBody resolved (cssSkipBlock 1 bp.tail) decls out
  else
    match _ : bp.dropWhile isHead with
    | [] => some (decls ++ bp, out)
    | c :: rest =>
        if c == 59 then
          expandBody resolved rest (decls ++ (bp.takeWhile isHead ++ [59])) out
        else
          (expandNestingRec resolved
            (bp.take (bp.length - (cssSkipBlock 1 rest).length)) out).bind fun out =>
              expandBody resolved (cssSkipBlock 1 rest) decls out
termination_by (body.length, 1)
decreasing_by
  · exact Prod.Lex.left _ _ (length_behind_brace ‹_›)
  · exact Prod.Lex.left _ _ (length_behind_head ‹_›)
  · -- a nested rule is as long as the body at most
    have hle := (List.dropWhile_suffix (l := body) isspace).length_le
    rw [Prod.lex_def]
    simp only [List.length_take]
    omega
  · exact Prod.Lex.left _ _
      ((cssSkipBlock_length_le 1 rest).trans_lt (length_behind_head ‹_›))

end

/-- `css_expand_nesting` -/
def cssExpandNesting (css : Bytes) : Option Bytes := expandNestingRec [] css []

/-! ## Unfolding -/

theorem takeWhile_stop {f : UInt8 → Bool} {w q : Bytes} (hw : ∀ c ∈ w, f c = true)
    (hq : ∀ c ∈ q.head?, f c = false) :
    (w ++ q).takeWhile f = w ∧ (w ++ q).dropWhile f = q := by
  rw [List.takeWhile_append_of_pos hw, List.dropWhile_append_of_pos hw]
  cases q with
  | nil => exact ⟨List.append_nil w, rfl⟩
  | cons c q =>
    have hc := hq c rfl
    rw [List.takeWhile_cons_of_neg (by simp [hc]), List.dropWhile_cons_of_neg (by simp [hc])]
    exact ⟨List.append_nil w, rfl⟩

theorem takeWhile_head {head : Bytes} (h : ∀ c ∈ head, isHead c = true) {c : UInt8}
    (hc : isHead c = false) (rest : Bytes) :
    (head ++ c :: rest).takeWhile isHead = head ∧
      (head ++ c :: rest).dropWhile isHead = c :: rest :=
  takeWhile_stop h fun d hd => by
    obtain rfl := Option.some.inj hd
    exact hc

/-- A text up to the next `;` or brace. -/
theorem exists_head (p : Bytes) :
    (∃ head, p = head ∧ p.dropWhile isHead = [] ∧ ∀ c ∈ head, isHead c = true) ∨
      ∃ head c rest, p = head ++ c :: rest ∧ (c = 59 ∨ c = 123) ∧ ∀ c ∈ head, isHead c = true := by
  have hparts := List.takeWhile_append_dropWhile (p := isHead) (l := p)
  have hall : ∀ c ∈ p.takeWhile isHead, isHead c = true := List.all_eq_true.1 List.all_takeWhile
  cases hdrop : p.dropWhile isHead with
  | nil =>
    rw [hdrop, List.append_nil] at hparts
    exact .inl ⟨_, hparts.symm, rfl, hall⟩
  | cons c rest =>
    rw [hdrop] at hparts
    have hc : ¬ isHead c = true := by
      have hne : p.dropWhile isHead ≠ [] := hdrop ▸ List.cons_ne_nil c rest
      have hnot := List.head_dropWhile_not isHead hne
      simp only [hdrop, List.head_cons] at hnot
      exact ne_true_of_eq_false hnot
    refine .inr ⟨_, c, rest, hparts.symm, ?_, hall⟩
    simp only [isHead, Bool.and_eq_true, bne_iff_ne] at hc
    by_contra hne
    exact hc ⟨fun h => hne (.inl h), fun h => hne (.inr h)⟩

section Rules

variable (parent css out : Bytes)

theorem expandNestingRec_eq :
    expandNestingRec parent css out =
      match (css.dropWhile isspace).dropWhile isHead with
      | [] => some out
      | c :: rest =>
          let head := (css.dropWhile isspace).takeWhile isHead
          let resolved := cssCombineSelectors parent (trim (head.take 255)) 512
          if c == 59 then
            if rest.contains 123 then
              expandNestingRec parent rest
                (if parent.isEmpty then out else out ++ flatRule parent (head ++ [59]))
            else some out
          else if 0 ≤ blockLength rest then
            (expandBody resolved (blockBody rest) [] out).bind fun (decls, out) =>
              let idt := decls.dropWhile isspace
              expandNestingRec parent (blockResume rest)
                (if idt.isEmpty then out else out ++ flatRule resolved idt)
          else none := by
  rw [expandNestingRec]
  simp only
  split
  · rename_i hp
    rw [hp]
  · rename_i c rest hp
    rw [hp]
    rfl

variable {css} {head rest : Bytes}

theorem expandNestingRec_end (h : (css.dropWhile isspace).dropWhile isHead = []) :
    expandNestingRec parent css out = some out := by
  rw [expandNestingRec_eq, h]

variable (hhead : ∀ c ∈ head, isHead c = true)
include hhead

theorem expandNestingRec_semi (hcss : css.dropWhile isspace = head ++ 59 :: rest) :
    expandNestingRec parent css out =
      if rest.contains 123 then
        expandNestingRec parent rest
          (if parent.isEmpty then out else out ++ flatRule parent (head ++ [59]))
      else some out := by
  obtain ⟨htake, hdrop⟩ := takeWhile_head hhead (show isHead 59 = false from rfl) rest
  rw [expandNestingRec_eq, hcss, hdrop, htake]
  rfl

theorem expandNestingRec_rule (hcss : css.dropWhile isspace = head ++ 123 :: rest)
    (hlen : 0 ≤ blockLength rest) :
    expandNestingRec parent css out =
      (expandBody (cssCombineSelectors parent (trim (head.take 255)) 512) (blockBody rest) []
        out).bind fun (decls, out) =>
          expandNestingRec parent (blockResume rest)
            (if (decls.dropWhile isspace).isEmpty then out
            else out ++ flatRule (cssCombineSelectors parent (trim (head.take 255)) 512)
              (decls.dropWhile isspace)) := by
  obtain ⟨htake, hdrop⟩ := takeWhile_head hhead (show isHead 123 = false from rfl) rest
  rw [expandNestingRec_eq, hcss, hdrop, htake]
  simp only
  rw [if_neg (by decide), if_pos hlen]

theorem expandNestingRec_overrun (hcss : css.dropWhile isspace = head ++ 123 :: rest)
    (hlen : blockLength rest < 0) : expandNestingRec parent css out = none := by
  obtain ⟨htake, hdrop⟩ := takeWhile_head hhead (show isHead 123 = false from rfl) rest
  rw [expandNestingRec_eq, hcss, hdrop, htake]
  simp only
  rw [if_neg (by decide), if_neg (by omega)]

end Rules

section Body

variable (resolved body decls out : Bytes)

theorem expandBody_eq :
    expandBody resolved body decls out =
      let bp := body.dropWhile isspace
      if bp.head? = some 123 then expandBody resolved (cssSkipBlock 1 bp.tail) decls out
      else
        match bp.dropWhile isHead with
        | [] => some (decls ++ bp, out)
        | c :: rest =>
            if c == 59 then
              expandBody resolved rest (decls ++ (bp.takeWhile isHead ++ [59])) out
            else
              (expandNestingRec resolved
                (bp.take (bp.length - (cssSkipBlock 1 rest).length)) out).bind
                  fun out => expandBody resolved (cssSkipBlock 1 rest) decls out := by
  rw [expandBody]
  simp only
  split_ifs
  · rfl
  · split
    · rename_i hp
      rw [hp]
    · rename_i hp
      rw [hp]

variable {body} {head rest : Bytes}

theorem expandBody_skip (hbody : body.dropWhile isspace = 123 :: rest) :
    expandBody resolved body decls out = expandBody resolved (cssSkipBlock 1 rest) decls out := by
  rw [expandBody_eq, hbody]
  rfl

theorem expandBody_end (hne : (body.dropWhile isspace).head? ≠ some 123)
    (h : (body.dropWhile isspace).dropWhile isHead = []) :
    expandBody resolved body decls out = some (decls ++ body.dropWhile isspace, out) := by
  rw [expandBody_eq]
  simp only
  rw [if_neg hne, h]

variable (hhead : ∀ c ∈ head, isHead c = true)
include hhead

theorem expandBody_semi (hbody : body.dropWhile isspace = head ++ 59 :: rest) :
    expandBody resolved body decls out =
      expandBody resolved rest (decls ++ (head ++ [59])) out := by
  obtain ⟨htake, hdrop⟩ := takeWhile_head hhead (show isHead 59 = false from rfl) rest
  have hne : (head ++ 59 :: rest).head? ≠ some 123 := by
    cases head with
    | nil => simp
    | cons c head =>
      have hc := hhead c List.mem_cons_self
      rintro heq
      rw [Option.some.inj heq] at hc
      exact absurd hc (by decide)
  rw [expandBody_eq, hbody]
  simp only
  rw [if_neg hne, hdrop, htake]
  rfl

theorem expandBody_rule (hbody : body.dropWhile isspace = head ++ 123 :: rest) (hne : head ≠ []) :
    expandBody resolved body decls out =
      (expandNestingRec resolved ((head ++ 123 :: rest).take
        ((head ++ 123 :: rest).length - (cssSkipBlock 1 rest).length)) out).bind
          fun out => expandBody resolved (cssSkipBlock 1 rest) decls out := by
  obtain ⟨htake, hdrop⟩ := takeWhile_head hhead (show isHead 123 = false from rfl) rest
  obtain ⟨c, head, rfl⟩ := List.exists_cons_of_ne_nil hne
  have hc : ((c :: head) ++ 123 :: rest).head? ≠ some 123 := by
    have hc := hhead c List.mem_cons_self
    rintro heq
    rw [Option.some.inj heq] at hc
    exact absurd hc (by decide)
  rw [expandBody_eq, hbody]
  simp only
  rw [if_neg hc, hdrop]
  rfl

end Body

end TinyFramework.Css
