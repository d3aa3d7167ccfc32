/-
  Html5/Markup.lean --- runs of the tokenizer over markup.

  Every round of the loop of `tokenize_run` uses up at least one byte, so the
  bound in the model is never what ends it, and a run may be unfolded round by
  round.

  A start or end tag without attributes and a run of text, read from `TS_DATA`,
  send one token and leave the tokenizer where it was.
-/
import TinyFramework.Html5.Tokenizer
import Mathlib.Data.List.TakeWhile

set_option autoImplicit false

namespace TinyFramework.Html5

open TinyFramework.Foundation TinyFramework.Dom

/-! ## Every round uses up a byte -/

theorem h5DecodeRefBody_pos {s out : Bytes} {used : Nat}
    (h : h5DecodeRefBody s = some (out, used)) : 0 < used := by
  unfold h5DecodeRefBody at h
  split at h
  · dsimp only at h
    generalize refDigits _ _ _ _ = r at h
    by_cases hdigits : r.2.1 = 0
    · rw [if_pos hdigits] at h
      cases h
    · rw [if_neg hdigits] at h
      split at h
      · cases h
      · cases h
        exact Nat.succ_pos _
      · cases h
        exact Nat.add_pos_right _ (Nat.pos_of_ne_zero hdigits)
  · dsimp only at h
    split_ifs at h
    split at h
    · cases h
    · obtain ⟨e, -, heq⟩ := Option.map_eq_some_iff.1 h
      obtain ⟨-, rfl⟩ := Prod.mk.inj heq
      split_ifs <;> exact Nat.succ_pos _

theorem h5DecodeRef_pos {s out : Bytes} {used : Nat} (h : h5DecodeRef s = some (out, used)) :
    0 < used := by
  unfold h5DecodeRef at h
  split at h
  · exact h5DecodeRefBody_pos h
  · cases h

theorem length_drop_cons_le {used : Nat} (hused : 0 < used) (c : UInt8) (rest : Bytes) :
    ((c :: rest).drop used).length ≤ rest.length := by
  rw [List.length_drop, List.length_cons]
  omega

namespace Parser

/-- A round leaves at most the rest of the buffer. -/
def Consumes (r : Id (Parser × Bytes)) (rest : Bytes) : Prop :=
  r.2.length ≤ rest.length

namespace Consumes

variable {x y : Id (Parser × Bytes)} {rest : Bytes}

theorem ite {b : Prop} [Decidable b] (ht : b → Consumes x rest) (hf : ¬ b → Consumes y rest) :
    Consumes (if b then x else y) rest := by
  split_ifs with hb
  · exact ht hb
  · exact hf hb

theorem all {q : Parser} : Consumes (pure (q, rest)) rest := Nat.le_refl _

theorem drop (q : Parser) (k : Nat) : Consumes (pure (q, rest.drop k)) rest :=
  (List.length_drop ▸ Nat.sub_le _ _ : (rest.drop k).length ≤ rest.length)

end Consumes

variable (p : Parser) (c : UInt8) (rest : Bytes)

theorem stepData_consumes : Consumes (p.stepData processId c rest) rest := by
  unfold stepData
  refine Consumes.ite (fun _ => ?_) fun _ => Consumes.ite (fun _ => Consumes.all) fun htag => ?_
  · split
    · rename_i hdec
      exact length_drop_cons_le (h5DecodeRef_pos hdec) c rest
    · exact Consumes.all
  · rename_i href
    change ((c :: rest).dropWhile fun c => decide (c ≠ 60 ∧ c ≠ 38)).length ≤ rest.length
    rw [List.dropWhile_cons_of_pos (by simp [href, htag])]
    exact (List.dropWhile_suffix _).length_le

theorem closeTag_consumes : Consumes (p.closeTag processId rest) rest := Nat.le_refl _

theorem emitAcc_consumes (type : H5TokType) : Consumes (p.emitAcc processId type rest) rest :=
  Nat.le_refl _

theorem stepBogusComment_consumes : Consumes (p.stepBogusComment processId c rest) rest :=
  Consumes.ite (fun _ => p.emitAcc_consumes rest .comment) fun _ => Consumes.all

theorem stepTagOpen_consumes : Consumes (p.stepTagOpen processId c rest) rest :=
  Consumes.ite (fun _ => Consumes.all) fun _ => Consumes.ite (fun _ => Consumes.all) fun _ =>
    Consumes.ite (fun _ => Consumes.all) fun _ => Consumes.ite (fun _ => Consumes.all) fun _ =>
      stepData_consumes _ c rest

theorem stepEndTagOpen_consumes : Consumes (p.stepEndTagOpen processId c rest) rest :=
  Consumes.ite (fun _ => Consumes.all) fun _ => Consumes.ite (fun _ => Consumes.all) fun _ =>
    stepBogusComment_consumes _ c rest

theorem stepTagName_consumes : Consumes (p.stepTagName processId c rest) rest :=
  Consumes.ite (fun _ => Consumes.all) fun _ => Consumes.ite (fun _ => Consumes.all) fun _ =>
    Consumes.ite (fun _ => closeTag_consumes _ rest) fun _ => Consumes.all

theorem stepAfterAttrName_consumes : Consumes (p.stepAfterAttrName processId c rest) rest :=
  Consumes.ite (fun _ => Consumes.all) fun _ => Consumes.ite (fun _ => Consumes.all) fun _ =>
    Consumes.ite (fun _ => Consumes.all) fun _ =>
      Consumes.ite (fun _ => closeTag_consumes _ rest) fun _ => Consumes.all

theorem stepBeforeAttrName_consumes : Consumes (p.stepBeforeAttrName processId c rest) rest :=
  Consumes.ite (fun _ => Consumes.all) fun _ =>
    Consumes.ite (fun _ => stepAfterAttrName_consumes _ c rest) fun _ => Consumes.all

theorem stepAttrName_consumes : Consumes (p.stepAttrName processId c rest) rest :=
  Consumes.ite (fun _ => Consumes.all) fun _ =>
    Consumes.ite (fun _ => stepAfterAttrName_consumes _ c rest) fun _ =>
      Consumes.ite (fun _ => Consumes.all) fun _ => Consumes.all

theorem valueByte_consumes : Consumes (p.valueByte c rest) rest := by
  refine Consumes.ite (fun _ => ?_) fun _ => Consumes.all
  split
  · rename_i hdec
    exact length_drop_cons_le (h5DecodeRef_pos hdec) c rest
  · exact Consumes.all

theorem stepAttrValueQuoted_consumes (quote : UInt8) :
    Consumes (p.stepAttrValueQuoted quote c rest) rest :=
  Consumes.ite (fun _ => Consumes.all) fun _ => p.valueByte_consumes c rest

theorem stepAttrValueUq_consumes : Consumes (p.stepAttrValueUq processId c rest) rest :=
  Consumes.ite (fun _ => Consumes.all) fun _ =>
    Consumes.ite (fun _ => closeTag_consumes _ rest) fun _ => p.valueByte_consumes c rest

theorem stepBeforeAttrValue_consumes : Consumes (p.stepBeforeAttrValue processId c rest) rest :=
  Consumes.ite (fun _ => Consumes.all) fun _ => Consumes.ite (fun _ => Consumes.all) fun _ =>
    Consumes.ite (fun _ => Consumes.all) fun _ =>
      Consumes.ite (fun _ => closeTag_consumes _ rest) fun _ =>
        stepAttrValueUq_consumes _ c rest

theorem stepAfterAttrValue_consumes : Consumes (p.stepAfterAttrValue processId c rest) rest :=
  Consumes.ite (fun _ => Consumes.all) fun _ => Consumes.ite (fun _ => Consumes.all) fun _ =>
    Consumes.ite (fun _ => closeTag_consumes _ rest) fun _ =>
      stepBeforeAttrName_consumes _ c rest

theorem stepSelfClosing_consumes : Consumes (p.stepSelfClosing processId c rest) rest :=
  Consumes.ite (fun _ => closeTag_consumes _ rest) fun _ => stepBeforeAttrName_consumes _ c rest

theorem stepMarkupDeclOpen_consumes : Consumes (p.stepMarkupDeclOpen processId c rest) rest :=
  Consumes.ite (fun _ => List.drop_one ▸ Consumes.drop _ 1) fun _ =>
    Consumes.ite (fun _ => Consumes.all) fun _ => stepBogusComment_consumes _ c rest

theorem stepComment_consumes : Consumes (p.stepComment processId c rest) rest :=
  Consumes.ite (fun _ => Consumes.drop _ 2) fun _ => Consumes.all

theorem stepDoctype_consumes : Consumes (p.stepDoctype processId c rest) rest :=
  Consumes.ite (fun _ => p.emitAcc_consumes rest .doctype) fun _ => Consumes.all

theorem findRawEnd_length {tn buf text after : Bytes} (h : findRawEnd tn buf = some (text, after)) :
    after.length < buf.length := by
  induction buf generalizing text with
  | nil => cases h
  | cons c rest ih =>
    have hmap : ∀ {r : Bytes × Bytes}, (findRawEnd tn rest).map (fun r => (c :: r.1, r.2)) =
        some (text, after) → after.length < (c :: rest).length := by
      intro _ hr
      obtain ⟨r, hfound, heq⟩ := Option.map_eq_some_iff.1 hr
      obtain ⟨-, rfl⟩ := Prod.mk.inj heq
      exact Nat.lt_succ_of_lt (ih hfound)
    unfold findRawEnd at h
    split at h
    · rename_i after'
      split_ifs at h
      · cases h
        simp only [List.length_cons]
        omega
      · exact hmap (r := ([], [])) h
    · exact hmap (r := ([], [])) h

theorem stepRaw_consumes : Consumes (p.stepRaw processId (c :: rest)) rest := by
  unfold stepRaw
  split
  · rename_i text after hfound
    have hlt := findRawEnd_length hfound
    change (afterRawEnd p.cur.name after).length ≤ rest.length
    have hle : (afterRawEnd p.cur.name after).length ≤ after.length := by
      unfold afterRawEnd
      have h₁ := (List.dropWhile_suffix (· ≠ (62 : UInt8)) (l := after.drop p.cur.name.length)).length_le
      simp only [List.length_drop] at h₁ ⊢
      omega
    simp only [List.length_cons] at hlt
    omega
  · exact Nat.zero_le _

theorem step_consumes : Consumes (p.step processId c rest) rest := by
  unfold step
  cases p.ts with
  | data => exact p.stepData_consumes c rest
  | tagOpen => exact p.stepTagOpen_consumes c rest
  | endTagOpen => exact p.stepEndTagOpen_consumes c rest
  | tagName => exact p.stepTagName_consumes c rest
  | beforeAttrName => exact p.stepBeforeAttrName_consumes c rest
  | attrName => exact p.stepAttrName_consumes c rest
  | afterAttrName => exact p.stepAfterAttrName_consumes c rest
  | beforeAttrValue => exact p.stepBeforeAttrValue_consumes c rest
  | attrValueDq => exact p.stepAttrValueQuoted_consumes c rest 34
  | attrValueSq => exact p.stepAttrValueQuoted_consumes c rest 39
  | attrValueUq => exact p.stepAttrValueUq_consumes c rest
  | afterAttrValue => exact p.stepAfterAttrValue_consumes c rest
  | selfClosing => exact p.stepSelfClosing_consumes c rest
  | bogusComment => exact p.stepBogusComment_consumes c rest
  | markupDeclOpen => exact p.stepMarkupDeclOpen_consumes c rest
  | comment => exact p.stepComment_consumes c rest
  | doctype => exact p.stepDoctype_consumes c rest
  | rawtext | rcdata => exact p.stepRaw_consumes c rest
  | eof => exact Nat.zero_le _

/-! ## Runs -/

/-- `tokenize_run` in the program. -/
def run (p : Parser) (buf : Bytes) : Parser :=
  p.tokenizeRun processId buf

theorem tokenizeLoop_of_le {fuel : Nat} {buf : Bytes} (hfuel : buf.length ≤ fuel) (p : Parser) :
    tokenizeLoop processId fuel p buf = p.run buf := by
  -- both bounds suffice; induction on a bound for the two of them
  have haux : ∀ (n : Nat) (fuel fuel' : Nat) (p : Parser) (buf : Bytes), buf.length ≤ n →
      buf.length ≤ fuel → buf.length ≤ fuel' →
      tokenizeLoop processId fuel p buf = tokenizeLoop processId fuel' p buf := by
    intro n
    induction n with
    | zero =>
      intro fuel fuel' p buf hn _ _
      obtain rfl := List.length_eq_zero_iff.1 (Nat.le_zero.1 hn)
      cases fuel <;> cases fuel' <;> rfl
    | succ n ih =>
      intro fuel fuel' p buf hn hf hf'
      cases buf with
      | nil => cases fuel <;> cases fuel' <;> rfl
      | cons c rest =>
        obtain _ | fuel := fuel
        · exact absurd hf (Nat.not_succ_le_zero _)
        obtain _ | fuel' := fuel'
        · exact absurd hf' (Nat.not_succ_le_zero _)
        have hstep : (p.step processId c rest).2.length ≤ rest.length := p.step_consumes c rest
        simp only [List.length_cons, Nat.add_le_add_iff_right] at hn hf hf'
        exact ih fuel fuel' _ _ (Nat.le_trans hstep hn) (Nat.le_trans hstep hf)
          (Nat.le_trans hstep hf')
  exact haux buf.length fuel buf.length p buf (Nat.le_refl _) hfuel (Nat.le_refl _)

@[simp] theorem run_nil : p.run [] = p := rfl

/-- One round of a run. -/
theorem run_cons :
    p.run (c :: rest) = run (p.step processId c rest).1 (p.step processId c rest).2 := by
  exact tokenizeLoop_of_le (p.step_consumes c rest) _

end Parser

/-! ## Tokenizing plain markup -/

/-- The parser between two tokens. -/
def dataParser (s : TreeBuilder) : Parser := { tree := s }

theorem miniHtml5Init_eq (d : NodeHeap) (root : NodeId) (body : Option NodeId) :
    miniHtml5Init d root body = dataParser (miniHtml5Init d root body).tree := by
  unfold miniHtml5Init
  dsimp only
  split <;> rfl

/-! ## Tags -/

/-- The name of a tag: lower-case letters. -/
structure TagName (name : Bytes) : Prop where
  ne_nil : name ≠ []
  alpha : ∀ c ∈ name, isalpha c = true
  lower : name.map tolower = name

theorem isalpha_ne {c d : UInt8} (hc : isalpha c = true) (hd : isalpha d = false) : c ≠ d := by
  rintro rfl
  rw [hc] at hd
  cases hd

theorem isTokSpace_of_isalpha {c : UInt8} (hc : isalpha c = true) : isTokSpace c = false := by
  simp [isTokSpace, isalpha_ne hc (d := 32) rfl, isalpha_ne hc (d := 9) rfl,
    isalpha_ne hc (d := 10) rfl, isalpha_ne hc (d := 13) rfl, isalpha_ne hc (d := 12) rfl]

theorem cstr_of_not_mem {b : Bytes} (h : 0 ∉ b) : cstr b = b :=
  List.takeWhile_eq_self_iff.2 fun _ hx => decide_eq_true fun heq => h (heq ▸ hx)

theorem TagName.cstr {name : Bytes} (h : TagName name) : cstr name = name :=
  cstr_of_not_mem fun hmem => isalpha_ne (h.alpha 0 hmem) (d := 0) rfl rfl

namespace Parser

/-- The letters of a name go to the accumulator. -/
theorem run_tagName {name : Bytes} (hname : ∀ c ∈ name, isalpha c = true) {p : Parser}
    (hts : p.ts = .tagName) (rest : Bytes) :
    p.run (name ++ rest) = run { p with acc := p.acc ++ name } rest := by
  induction name generalizing p with
  | nil => simp
  | cons c name ih =>
    have hc := hname c List.mem_cons_self
    have hstep : p.step processId c (name ++ rest) = (p.accPutc c, name ++ rest) := by
      simp only [step, hts, stepTagName, isTokSpace_of_isalpha hc, Bool.false_eq_true, if_false,
        isalpha_ne hc (d := 47) rfl, isalpha_ne hc (d := 62) rfl]
      rfl
    rw [List.cons_append, run_cons, hstep,
      ih (fun x hx => hname x (List.mem_cons_of_mem c hx)) (p := p.accPutc c) hts]
    simp [accPutc]

/-- A name and the `>` behind it. -/
theorem run_nameAndClose {name : Bytes} (hname : TagName name) (s : TreeBuilder)
    (type : H5TokType) (htype : type = .start ∨ type = .endTag) (rest : Bytes) :
    run { tree := s, ts := .tagName, cur := { type := type } } (name ++ 62 :: rest) =
      run (if type = .start then
        (dataParser (s.processToken { type := type, name := name })).maybeEnterRawtext
        else dataParser (s.processToken { type := type, name := name })) rest := by
  rw [run_tagName hname.alpha rfl, run_cons]
  have hstep : step
      ({ tree := s, ts := .tagName, acc := [] ++ name, cur := { type := type } } : Parser)
      processId 62 rest = ((if type = .start then
        (dataParser (s.processToken { type := type, name := name })).maybeEnterRawtext
        else dataParser (s.processToken { type := type, name := name })), rest) := by
    have hspace : isTokSpace 62 = false := rfl
    have hnc : ¬ (type = .comment ∨ type = .doctype) := by
      rcases htype with rfl | rfl <;> simp
    simp only [step, stepTagName, hspace, Bool.false_eq_true, if_false, nameFromAcc, closeTag,
      emitCurrent, goto, hnc, List.nil_append, hname.cstr, hname.ne_nil, hname.lower]
    rfl
  rw [hstep]

/-- The tag of the current node does not switch the tokenizer to raw text. -/
def plainCurrent (s : TreeBuilder) : Bool :=
  (s.tag s.currentNode).all fun t => !h5IsRawtext t && !h5IsRcdata t

theorem maybeEnterRawtext_of_plain {s : TreeBuilder} (h : plainCurrent s = true) :
    (dataParser s).maybeEnterRawtext = dataParser s := by
  unfold maybeEnterRawtext
  unfold plainCurrent at h
  cases htag : s.tag s.currentNode with
  | none =>
    have htree : (dataParser s).tree.tag (dataParser s).tree.currentNode = none := htag
    rw [htree]
  | some t =>
    have htree : (dataParser s).tree.tag (dataParser s).tree.currentNode = some t := htag
    rw [htag] at h
    simp only [Option.all_some, Bool.and_eq_true, Bool.not_eq_true'] at h
    rw [htree]
    simp [h.1, h.2]

theorem run_startTag {name : Bytes} (hname : TagName name) {s : TreeBuilder}
    (hplain : plainCurrent (s.processToken { name := name }) = true) (rest : Bytes) :
    (dataParser s).run (60 :: (name ++ 62 :: rest)) =
      (dataParser (s.processToken { name := name })).run rest := by
  obtain ⟨c, name', rfl⟩ := List.exists_cons_of_ne_nil hname.ne_nil
  have hc := hname.alpha c List.mem_cons_self
  have hrest : ∀ x ∈ name', isalpha x = true := fun x hx =>
    hname.alpha x (List.mem_cons_of_mem c hx)
  have hopen : (dataParser s).step processId 60 (c :: (name' ++ 62 :: rest)) =
      ((dataParser s).goto .tagOpen, c :: (name' ++ 62 :: rest)) := rfl
  have hfirst : ((dataParser s).goto .tagOpen).step processId c (name' ++ 62 :: rest) =
      ({ tree := s, ts := .tagName, acc := [c], cur := {} }, name' ++ 62 :: rest) := by
    simp only [step, goto, stepTagOpen, isalpha_ne hc (d := 33) rfl, isalpha_ne hc (d := 47) rfl,
      if_false, hc, if_true]
    rfl
  have hwhole := run_nameAndClose hname s .start (.inl rfl) rest
  rw [if_pos rfl, maybeEnterRawtext_of_plain hplain, run_tagName hname.alpha rfl] at hwhole
  rw [List.cons_append, run_cons, hopen, run_cons, hfirst, run_tagName hrest rfl, ← hwhole]
  rfl

theorem run_endTag {name : Bytes} (hname : TagName name) (s : TreeBuilder) (rest : Bytes) :
    (dataParser s).run (60 :: 47 :: (name ++ 62 :: rest)) =
      (dataParser (s.processToken { type := .endTag, name := name })).run rest := by
  obtain ⟨c, name', rfl⟩ := List.exists_cons_of_ne_nil hname.ne_nil
  have hc := hname.alpha c List.mem_cons_self
  have hrest : ∀ x ∈ name', isalpha x = true := fun x hx =>
    hname.alpha x (List.mem_cons_of_mem c hx)
  have hopen : (dataParser s).step processId 60 (47 :: c :: (name' ++ 62 :: rest)) =
      ((dataParser s).goto .tagOpen, 47 :: c :: (name' ++ 62 :: rest)) := rfl
  have hslash : ((dataParser s).goto .tagOpen).step processId 47 (c :: (name' ++ 62 :: rest)) =
      ((dataParser s).goto .endTagOpen, c :: (name' ++ 62 :: rest)) := rfl
  have hfirst : ((dataParser s).goto .endTagOpen).step processId c (name' ++ 62 :: rest) =
      ({ tree := s, ts := .tagName, acc := [c], cur := { type := .endTag } },
        name' ++ 62 :: rest) := by
    simp only [step, goto, stepEndTagOpen, hc, if_true]
    rfl
  have hwhole := run_nameAndClose hname s .endTag (.inr rfl) rest
  rw [if_neg (by simp), run_tagName hname.alpha rfl] at hwhole
  rw [List.cons_append, run_cons, hopen, run_cons, hslash, run_cons, hfirst,
    run_tagName hrest rfl, ← hwhole]
  rfl

/-! ## Text -/

/-- A run of text up to the next tag is one character token. -/
theorem run_text {text : Bytes} (hne : text ≠ []) (htag : 60 ∉ text) (href : 38 ∉ text)
    (s : TreeBuilder) (rest : Bytes) :
    (dataParser s).run (text ++ 60 :: rest) =
      (dataParser (s.processToken { type := .char, name := cstr text })).run (60 :: rest) := by
  obtain ⟨c, text', rfl⟩ := List.exists_cons_of_ne_nil hne
  have hall : ∀ x ∈ c :: text', decide (x ≠ 60 ∧ x ≠ 38) = true := fun x hx =>
    decide_eq_true ⟨fun heq => htag (heq ▸ hx), fun heq => href (heq ▸ hx)⟩
  have hc : c ≠ 60 ∧ c ≠ 38 := of_decide_eq_true (hall c List.mem_cons_self)
  have htake : (c :: (text' ++ 60 :: rest)).takeWhile (fun c => decide (c ≠ 60 ∧ c ≠ 38)) =
      c :: text' := by
    rw [← List.cons_append, List.takeWhile_append_of_pos hall]
    simp
  have hdrop : (c :: (text' ++ 60 :: rest)).dropWhile (fun c => decide (c ≠ 60 ∧ c ≠ 38)) =
      60 :: rest := by
    rw [← List.cons_append, List.dropWhile_append_of_pos hall]
    simp
  have hstep : (dataParser s).step processId c (text' ++ 60 :: rest) =
      (dataParser (s.processToken { type := .char, name := cstr (c :: text') }), 60 :: rest) := by
    simp only [step, dataParser, stepData, hc.1, hc.2, if_false, htake, hdrop]
    rfl
  rw [List.cons_append, run_cons, hstep]

end Parser

end TinyFramework.Html5
