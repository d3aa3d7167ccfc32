/-
  Html5/ParseRun.lean --- a parse from its first token on, and the tree it makes.

  The tokenizer reads the tree builder (for raw text) but changes it only by
  sending tokens.  With a tree builder that keeps a log, the tokens of a parse
  are a list, and the document after the parse is that of the run of this list.

  In the lenient reading of the invariant everything that was in the document,
  and everything the parser made, reaches the document root.  So as long as the
  adoption agency makes no cycle, the parse of any bytes leaves a well-formed tree
  from which no node and no text has been lost.
-/
import TinyFramework.Html5.Document

set_option autoImplicit false

namespace TinyFramework.Html5

open TinyFramework.Foundation TinyFramework.Dom

/-! ## Logging -/

/-- The tree builder with a log of the tokens it was sent. -/
def processLogged (s : TreeBuilder) (t : H5Token) : StateM (List H5Token) TreeBuilder :=
  fun log => (s.processToken t, log ++ [t])

/-- The tokens sent while the chunks are fed and the parser is finished. -/
def sentTokens (p : Parser) (chunks : List Bytes) : List H5Token :=
  (parseChunks processLogged p chunks []).2

/-- The logging run `x` and the program's run `y` agree: the same result, whose
tree is that of the run of the logged tokens from `s`. -/
def Logs {α : Type} (tree : α → TreeBuilder) (s : TreeBuilder)
    (x : StateM (List H5Token) α) (y : Id α) : Prop :=
  ∃ ts, (∀ log, x log = (y, log ++ ts)) ∧ tree y = tokenRun s ts

namespace Logs

variable {α β : Type} {tree : α → TreeBuilder} {tree' : β → TreeBuilder} {s : TreeBuilder}

theorem pure {a : α} (h : tree a = s) : Logs tree s (Pure.pure a) (Pure.pure a) :=
  ⟨[], fun log => by rw [List.append_nil]; rfl, h⟩

theorem bind {x : StateM (List H5Token) α} {y : Id α} {f : α → StateM (List H5Token) β}
    {g : α → Id β} (hx : Logs tree s x y) (hf : ∀ a, Logs tree' (tree a) (f a) (g a)) :
    Logs tree' s (x >>= f) (y >>= g) := by
  obtain ⟨ts, hx, hs⟩ := hx
  obtain ⟨us, hf, hs'⟩ := hf y
  refine ⟨ts ++ us, fun log => ?_, ?_⟩
  · change f (x log).1 (x log).2 = _
    rw [hx log, hf (log ++ ts), List.append_assoc]
    rfl
  · change tree' (g y) = _
    rw [hs', hs, tokenRun_append]

theorem ite {c : Prop} [Decidable c] {x x' : StateM (List H5Token) α} {y y' : Id α}
    (ht : c → Logs tree s x y) (hf : ¬ c → Logs tree s x' y') :
    Logs tree s (if c then x else x') (if c then y else y') := by
  split_ifs with hc
  · exact ht hc
  · exact hf hc

end Logs

namespace Parser

variable (p : Parser)

/-- The logging run of a parser function and the program's run of it agree. -/
abbrev StepLogs (x : StateM (List H5Token) (Parser × Bytes)) (y : Id (Parser × Bytes)) : Prop :=
  Logs (fun r => r.1.tree) p.tree x y

theorem send_logs (t : H5Token) :
    Logs Parser.tree p.tree (p.send processLogged t) (p.send processId t) :=
  ⟨[t], fun _ => rfl, rfl⟩

theorem emitChar_logs (u : Bytes) :
    Logs Parser.tree p.tree (p.emitChar processLogged u) (p.emitChar processId u) :=
  p.send_logs _

theorem maybeEnterRawtext_tree : p.maybeEnterRawtext.tree = p.tree := by
  unfold maybeEnterRawtext
  split
  · rfl
  · split_ifs <;> rfl

theorem emitCurrent_logs :
    Logs Parser.tree p.tree (p.emitCurrent processLogged) (p.emitCurrent processId) := by
  unfold emitCurrent
  refine Logs.ite (fun _ => ?_) fun _ => Logs.ite (fun _ => Logs.pure rfl) fun _ => ?_
  · exact (p.send_logs _).bind fun q => Logs.pure rfl
  · refine (p.send_logs _).bind fun q => Logs.pure ?_
    split_ifs
    · exact maybeEnterRawtext_tree _
    · rfl

/-- A step that ends in handing on the parser. -/
theorem then_pure_logs {x : StateM (List H5Token) Parser} {y : Id Parser}
    (h : Logs Parser.tree p.tree x y) (rest : Bytes) :
    p.StepLogs (x >>= fun q => pure (q, rest)) (y >>= fun q => pure (q, rest)) :=
  h.bind fun _ => Logs.pure rfl

/-! ## The states -/

variable (c : UInt8) (rest : Bytes)

theorem stepData_logs :
    p.StepLogs (p.stepData processLogged c rest) (p.stepData processId c rest) := by
  unfold stepData
  refine Logs.ite (fun _ => ?_) fun _ => Logs.ite (fun _ => Logs.pure rfl) fun _ =>
    p.then_pure_logs (p.emitChar_logs _) _
  split
  · exact p.then_pure_logs (p.emitChar_logs _) _
  · exact p.then_pure_logs (p.emitChar_logs _) _

theorem closeTag_logs :
    p.StepLogs (p.closeTag processLogged rest) (p.closeTag processId rest) :=
  p.then_pure_logs ((p.goto .data).emitCurrent_logs) rest

theorem emitAcc_logs (type : H5TokType) :
    p.StepLogs (p.emitAcc processLogged type rest) (p.emitAcc processId type rest) :=
  p.then_pure_logs (p.withAccToken type).emitCurrent_logs rest

theorem stepBogusComment_logs :
    p.StepLogs (p.stepBogusComment processLogged c rest) (p.stepBogusComment processId c rest) :=
  Logs.ite (fun _ => p.emitAcc_logs rest .comment) fun _ => Logs.pure rfl

theorem stepTagOpen_logs :
    p.StepLogs (p.stepTagOpen processLogged c rest) (p.stepTagOpen processId c rest) :=
  Logs.ite (fun _ => Logs.pure rfl) fun _ => Logs.ite (fun _ => Logs.pure rfl) fun _ =>
    Logs.ite (fun _ => Logs.pure rfl) fun _ => Logs.ite (fun _ => Logs.pure rfl) fun _ =>
      (p.emitChar_logs _).bind fun q => (q.goto .data).stepData_logs c rest

theorem stepEndTagOpen_logs :
    p.StepLogs (p.stepEndTagOpen processLogged c rest) (p.stepEndTagOpen processId c rest) :=
  Logs.ite (fun _ => Logs.pure rfl) fun _ => Logs.ite (fun _ => Logs.pure rfl) fun _ =>
    p.enterBogusComment.stepBogusComment_logs c rest

theorem stepTagName_logs :
    p.StepLogs (p.stepTagName processLogged c rest) (p.stepTagName processId c rest) :=
  Logs.ite (fun _ => Logs.pure rfl) fun _ => Logs.ite (fun _ => Logs.pure rfl) fun _ =>
    Logs.ite (fun _ => p.nameFromAcc.closeTag_logs rest) fun _ => Logs.pure rfl

theorem stepAfterAttrName_logs :
    p.StepLogs (p.stepAfterAttrName processLogged c rest)
      (p.stepAfterAttrName processId c rest) :=
  Logs.ite (fun _ => Logs.pure rfl) fun _ => Logs.ite (fun _ => Logs.pure rfl) fun _ =>
    Logs.ite (fun _ => Logs.pure rfl) fun _ => Logs.ite (fun _ => p.closeTag_logs rest) fun _ =>
      Logs.pure rfl

theorem stepBeforeAttrName_logs :
    p.StepLogs (p.stepBeforeAttrName processLogged c rest)
      (p.stepBeforeAttrName processId c rest) :=
  Logs.ite (fun _ => Logs.pure rfl) fun _ =>
    Logs.ite (fun _ => (p.goto .afterAttrName).stepAfterAttrName_logs c rest) fun _ =>
      Logs.pure rfl

theorem stepAttrName_logs :
    p.StepLogs (p.stepAttrName processLogged c rest) (p.stepAttrName processId c rest) :=
  Logs.ite (fun _ => Logs.pure rfl) fun _ =>
    Logs.ite (fun _ => (p.attrFromAcc.goto .afterAttrName).stepAfterAttrName_logs c rest) fun _ =>
      Logs.ite (fun _ => Logs.pure rfl) fun _ => Logs.pure rfl

theorem valueByte_logs :
    p.StepLogs (p.valueByte c rest) (p.valueByte c rest) := by
  refine Logs.ite (fun _ => ?_) fun _ => Logs.pure rfl
  split
  · exact Logs.pure rfl
  · exact Logs.pure rfl

theorem stepAttrValueQuoted_logs (quote : UInt8) :
    p.StepLogs (p.stepAttrValueQuoted quote c rest) (p.stepAttrValueQuoted quote c rest) :=
  Logs.ite (fun _ => Logs.pure rfl) fun _ => p.valueByte_logs c rest

theorem stepAttrValueUq_logs :
    p.StepLogs (p.stepAttrValueUq processLogged c rest) (p.stepAttrValueUq processId c rest) :=
  Logs.ite (fun _ => Logs.pure rfl) fun _ =>
    Logs.ite (fun _ => p.valueFromAcc.closeTag_logs rest) fun _ => p.valueByte_logs c rest

theorem stepBeforeAttrValue_logs :
    p.StepLogs (p.stepBeforeAttrValue processLogged c rest)
      (p.stepBeforeAttrValue processId c rest) :=
  Logs.ite (fun _ => Logs.pure rfl) fun _ => Logs.ite (fun _ => Logs.pure rfl) fun _ =>
    Logs.ite (fun _ => Logs.pure rfl) fun _ => Logs.ite (fun _ => p.closeTag_logs rest) fun _ =>
      (p.goto .attrValueUq).stepAttrValueUq_logs c rest

theorem stepAfterAttrValue_logs :
    p.StepLogs (p.stepAfterAttrValue processLogged c rest)
      (p.stepAfterAttrValue processId c rest) :=
  Logs.ite (fun _ => Logs.pure rfl) fun _ => Logs.ite (fun _ => Logs.pure rfl) fun _ =>
    Logs.ite (fun _ => p.closeTag_logs rest) fun _ =>
      (p.goto .beforeAttrName).stepBeforeAttrName_logs c rest

theorem stepSelfClosing_logs :
    p.StepLogs (p.stepSelfClosing processLogged c rest) (p.stepSelfClosing processId c rest) :=
  Logs.ite
    (fun _ => closeTag_logs ({ p with cur := { p.cur with isSelfClosing := true } } : Parser) rest)
    fun _ => (p.goto .beforeAttrName).stepBeforeAttrName_logs c rest

theorem stepMarkupDeclOpen_logs :
    p.StepLogs (p.stepMarkupDeclOpen processLogged c rest)
      (p.stepMarkupDeclOpen processId c rest) :=
  Logs.ite (fun _ => Logs.pure rfl) fun _ => Logs.ite (fun _ => Logs.pure rfl) fun _ =>
    p.enterBogusComment.stepBogusComment_logs c rest

theorem stepComment_logs :
    p.StepLogs (p.stepComment processLogged c rest) (p.stepComment processId c rest) :=
  Logs.ite (fun _ => p.emitAcc_logs _ .comment) fun _ => Logs.pure rfl

theorem stepDoctype_logs :
    p.StepLogs (p.stepDoctype processLogged c rest) (p.stepDoctype processId c rest) :=
  Logs.ite (fun _ => p.emitAcc_logs _ .doctype) fun _ => Logs.pure rfl

theorem sendChunks_logs (us : List Bytes) :
    Logs Parser.tree p.tree (sendChunks processLogged p us) (sendChunks processId p us) := by
  induction us generalizing p with
  | nil => exact Logs.pure rfl
  | cons u us ih => exact (p.send_logs _).bind fun q => ih q

theorem stepRaw_logs (buf : Bytes) :
    p.StepLogs (p.stepRaw processLogged buf) (p.stepRaw processId buf) := by
  unfold stepRaw
  split
  · exact (p.sendChunks_logs _).bind fun q => (q.send_logs _).bind fun r => Logs.pure rfl
  · exact p.then_pure_logs (p.sendChunks_logs _) _

theorem step_logs : p.StepLogs (p.step processLogged c rest) (p.step processId c rest) := by
  unfold step
  cases p.ts with
  | data => exact p.stepData_logs c rest
  | tagOpen => exact p.stepTagOpen_logs c rest
  | endTagOpen => exact p.stepEndTagOpen_logs c rest
  | tagName => exact p.stepTagName_logs c rest
  | beforeAttrName => exact p.stepBeforeAttrName_logs c rest
  | attrName => exact p.stepAttrName_logs c rest
  | afterAttrName => exact p.stepAfterAttrName_logs c rest
  | beforeAttrValue => exact p.stepBeforeAttrValue_logs c rest
  | attrValueDq => exact p.stepAttrValueQuoted_logs c rest 34
  | attrValueSq => exact p.stepAttrValueQuoted_logs c rest 39
  | attrValueUq => exact p.stepAttrValueUq_logs c rest
  | afterAttrValue => exact p.stepAfterAttrValue_logs c rest
  | selfClosing => exact p.stepSelfClosing_logs c rest
  | bogusComment => exact p.stepBogusComment_logs c rest
  | markupDeclOpen => exact p.stepMarkupDeclOpen_logs c rest
  | comment => exact p.stepComment_logs c rest
  | doctype => exact p.stepDoctype_logs c rest
  | rawtext | rcdata => exact p.stepRaw_logs (c :: rest)
  | eof => exact Logs.pure rfl

/-! ## Whole parses -/

theorem tokenizeLoop_logs (fuel : Nat) (buf : Bytes) :
    Logs Parser.tree p.tree (tokenizeLoop processLogged fuel p buf)
      (tokenizeLoop processId fuel p buf) := by
  induction fuel generalizing p buf with
  | zero => cases buf <;> exact Logs.pure rfl
  | succ fuel ih =>
    cases buf with
    | nil => exact Logs.pure rfl
    | cons c rest => exact (p.step_logs c rest).bind fun r => ih r.1 r.2

theorem miniHtml5Feed_logs (data : Bytes) :
    Logs Parser.tree p.tree (p.miniHtml5Feed processLogged data)
      (p.miniHtml5Feed processId data) :=
  Logs.ite (fun _ => Logs.pure rfl) fun _ =>
    (p.tokenizeLoop_logs _ _).bind fun _ => Logs.pure rfl

theorem miniHtml5Finish_logs :
    Logs Parser.tree p.tree (p.miniHtml5Finish processLogged) (p.miniHtml5Finish processId) :=
  Logs.ite (fun _ => Logs.pure rfl) fun _ =>
    tokenizeLoop_logs ({ p with carry := [] } : Parser) _ _

theorem feedAll_logs (chunks : List Bytes) :
    Logs Parser.tree p.tree
      (chunks.foldlM (fun p a => p.miniHtml5Feed processLogged a) p)
      (chunks.foldlM (fun p a => p.miniHtml5Feed processId a) p) := by
  induction chunks generalizing p with
  | nil => exact Logs.pure rfl
  | cons a chunks ih => exact (p.miniHtml5Feed_logs a).bind fun q => ih q

end Parser

/-- The document after a parse is the one that its tokens build. -/
theorem parseChunks_tree (p : Parser) (chunks : List Bytes) :
    (parseChunks processId p chunks).tree = tokenRun p.tree (sentTokens p chunks) := by
  obtain ⟨ts, hlog, htree⟩ : Logs Parser.tree p.tree (parseChunks processLogged p chunks)
      (parseChunks processId p chunks) :=
    (p.feedAll_logs chunks).bind fun q => q.miniHtml5Finish_logs
  rw [sentTokens, hlog []]
  exact htree

/-! ## The tree that a parse builds -/

/-- What a parse promises of a state `s` that is reached from `s₀`, the state
after `mini_html5_init`: the heap is a well-formed forest, and every node that was
in the document or was made since reaches the document root. -/
structure KeepsTree (s₀ s : TreeBuilder) : Prop where
  wf : WellFormed s.heap
  reach : ∀ x < s.heap.size, s₀.heap.size ≤ x ∨ Below s₀.heap.parentOf x s₀.root →
    Below s.heap.parentOf x s.root

/-- The lenient invariant gives the promise. -/
theorem Initial.keepsTree {s₀ s : TreeBuilder} (h₀ : Initial s₀)
    (h : TreeInv (docBase false s₀ h₀) s) : KeepsTree s₀ s := by
  refine ⟨h.heap.wf, fun x hx hmem => ?_⟩
  rw [h.root]
  by_cases hown : s₀.heap.size ≤ x
  · exact h.heap.reach x hx (.inl hown)
  · exact h.heap.reach x hx (.inr ⟨Nat.lt_of_not_le hown, hmem.resolve_left hown⟩)

/-- Feeding any bytes in any chunks to a parser on a live document, when every
adoption agency on the way is safe: in every state on the way and at the end the
tree is kept, and every text that was there on the way is still there at the
end. -/
theorem parseChunks_keepsTree {d : NodeHeap} {root : NodeId} {body : Option NodeId}
    (hdoc : LiveDocument d root body) (chunks : List Bytes)
    (hsafe : SafeTokens false (miniHtml5Init d root body).tree
      (sentTokens (miniHtml5Init d root body) chunks)) :
    let s₀ := (miniHtml5Init d root body).tree
    let s := (parseChunks processId (miniHtml5Init d root body) chunks).tree
    KeepsTree s₀ s ∧
    ∀ pre, pre <+: sentTokens (miniHtml5Init d root body) chunks →
      KeepsTree s₀ (tokenRun s₀ pre) ∧ Grows (tokenRun s₀ pre).heap s.heap := by
  intro s₀ s
  have h₀ := miniHtml5Init_initial hdoc
  have hs : s = tokenRun s₀ (sentTokens (miniHtml5Init d root body) chunks) :=
    parseChunks_tree _ chunks
  have hrun := fun {tokens : List H5Token} (ht : SafeTokens false s₀ tokens) =>
    (h₀.treeInv false).tokenRun ht
  refine ⟨hs ▸ h₀.keepsTree (hrun hsafe).inv, fun pre hpre => ?_⟩
  obtain ⟨post, hpost⟩ := hpre
  rw [← hpost] at hsafe hs
  obtain ⟨hpre, hrest⟩ := SafeTokens.append_iff.1 hsafe
  refine ⟨h₀.keepsTree (hrun hpre).inv, ?_⟩
  rw [hs, tokenRun_append]
  exact ((hrun hpre).inv.tokenRun hrest).grows

/-- A paragraph that ends outside the `b` it starts in. -/
theorem parseChunks_keepsTree_paragraph :
    KeepsTree freshParser.tree
      (parseChunks processId freshParser [ascii "<b>x<p>y</b>z", ascii "</p>"]).tree :=
  (parseChunks_keepsTree miniDocCreate_live [ascii "<b>x<p>y</b>z", ascii "</p>"]
    (by decide +kernel)).1

/-- `<b><i><u><p>x</b>`: the paragraph and the clone of `u` become each other's
parent, and the text is lost. -/
theorem misnested_formatting_cycle :
    ¬ KeepsTree freshParser.tree
      (parseChunks processId freshParser [ascii "<b><i><u><p>x</b>"]).tree := by
  intro h
  have hp : (parseChunks processId freshParser [ascii "<b><i><u><p>x</b>"]).tree.heap.parentOf 7 =
      some 9 := by decide +kernel
  have hu : (parseChunks processId freshParser [ascii "<b><i><u><p>x</b>"]).tree.heap.parentOf 9 =
      some 7 := by decide +kernel
  exact h.wf.acyclic 7 (.tail (.single hp) hu)

end TinyFramework.Html5
