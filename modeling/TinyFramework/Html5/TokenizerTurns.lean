/-
  Html5/TokenizerTurns.lean --- the loop of `tokenize_run` turn by turn, and the
  activations of `process_token`.

  A `continue` without `i++` is a turn of its own here: it leaves the byte unread
  and changes the state.  No state can be reached from itself that way, so the loop
  ends; nor can `process_token` come back to a mode by calling itself.
-/
import TinyFramework.Foundation.Loops
import TinyFramework.Html5.RcdataText

set_option autoImplicit false

namespace TinyFramework.Html5

open TinyFramework.Foundation TinyFramework.Dom

namespace Parser

/-! ## One turn -/

section Turn

variable {m : Type → Type} [Monad m] (process : TreeBuilder → H5Token → m TreeBuilder)
  (p : Parser) (c : UInt8) (rest : Bytes)

/-- `case TS_TAG_OPEN`, one turn. -/
def turnTagOpen : m (Parser × Bytes) := do
  if c = 33 then pure (p.goto .markupDeclOpen, rest)
  else if c = 47 then pure (p.goto .endTagOpen, rest)
  else if isalpha c then
    pure ({ p.accStart c with cur := { p.cur with type := .start }, ts := .tagName }, rest)
  else if c = 63 then pure (p.enterBogusComment, rest)
  else
    let p ← p.emitChar process [60]
    pure (p.goto .data, c :: rest)

/-- `case TS_END_TAG_OPEN`, one turn. -/
def turnEndTagOpen : m (Parser × Bytes) :=
  if isalpha c then
    pure ({ p.accStart c with cur := { p.cur with type := .endTag }, ts := .tagName }, rest)
  else if c = 62 then pure (p.goto .data, rest)
  else pure (p.enterBogusComment, c :: rest)

/-- `case TS_BEFORE_ATTR_NAME`, one turn. -/
def turnBeforeAttrName : m (Parser × Bytes) :=
  if isTokSpace c then pure (p, rest)
  else if c = 47 ∨ c = 62 then pure (p.goto .afterAttrName, c :: rest)
  else pure ((p.accStart c).goto .attrName, rest)

/-- `case TS_ATTR_NAME`, one turn. -/
def turnAttrName : m (Parser × Bytes) :=
  if isTokSpace c then pure (p.attrFromAcc.goto .afterAttrName, rest)
  else if c = 47 ∨ c = 62 then pure (p.attrFromAcc.goto .afterAttrName, c :: rest)
  else if c = 61 then pure (p.attrFromAcc.goto .beforeAttrValue, rest)
  else pure (p.accPutc c, rest)

/-- `case TS_BEFORE_ATTR_VALUE`, one turn. -/
def turnBeforeAttrValue : m (Parser × Bytes) :=
  if isTokSpace c then pure (p, rest)
  else if c = 34 then pure (p.goto .attrValueDq, rest)
  else if c = 39 then pure (p.goto .attrValueSq, rest)
  else if c = 62 then p.closeTag process rest
  else pure (p.goto .attrValueUq, c :: rest)

/-- `case TS_AFTER_ATTR_VALUE`, one turn. -/
def turnAfterAttrValue : m (Parser × Bytes) :=
  if isTokSpace c then pure (p.goto .beforeAttrName, rest)
  else if c = 47 then pure (p.goto .selfClosing, rest)
  else if c = 62 then p.closeTag process rest
  else pure (p.goto .beforeAttrName, c :: rest)

/-- `case TS_SELF_CLOSING`, one turn. -/
def turnSelfClosing : m (Parser × Bytes) :=
  if c = 62 then
    ({ p with cur := { p.cur with isSelfClosing := true } } : Parser).closeTag process rest
  else pure (p.goto .beforeAttrName, c :: rest)

/-- `case TS_MARKUP_DECL_OPEN`, one turn. -/
def turnMarkupDeclOpen : m (Parser × Bytes) :=
  if c = 45 ∧ rest.head? = some 45 then
    pure ({ p with ts := .comment, acc := [] }, rest.tail)
  else if tolower c = 100 then pure ((p.accStart c).goto .doctype, rest)
  else pure (p.enterBogusComment, c :: rest)

/-- One turn of the loop of `tokenize_run`; the other states never leave the byte
unread. -/
def turn : m (Parser × Bytes) :=
  match p.ts with
  | .tagOpen => p.turnTagOpen process c rest
  | .endTagOpen => p.turnEndTagOpen c rest
  | .beforeAttrName => p.turnBeforeAttrName c rest
  | .attrName => p.turnAttrName c rest
  | .beforeAttrValue => p.turnBeforeAttrValue process c rest
  | .afterAttrValue => p.turnAfterAttrValue process c rest
  | .selfClosing => p.turnSelfClosing process c rest
  | .markupDeclOpen => p.turnMarkupDeclOpen c rest
  | _ => p.step process c rest

end Turn

/-- A turn in the program. -/
def turnId (p : Parser) (c : UInt8) (rest : Bytes) : Parser × Bytes :=
  p.turn processId c rest

end Parser

/-- How often a byte may be left unread from a state on. -/
def H5TokState.rereads : H5TokState → Nat
  | .afterAttrValue | .selfClosing => 2
  | .tagOpen | .endTagOpen | .beforeAttrName | .attrName | .beforeAttrValue
  | .markupDeclOpen => 1
  | _ => 0

namespace Parser

variable (p : Parser) (c : UInt8) (rest : Bytes)

/-- A turn is the round of the model, or leaves the byte to a later turn of it. -/
def TurnsInto (r round : Parser × Bytes) : Prop :=
  r = round ∨ (r.2 = c :: rest ∧ r.1.ts.rereads < p.ts.rereads ∧
    round = r.1.step processId c rest)

namespace TurnsInto

variable {p c rest} {r r' round round' : Parser × Bytes}

theorem refl : p.TurnsInto c rest r r := .inl rfl

theorem ite {b : Prop} [Decidable b] (ht : b → p.TurnsInto c rest r round)
    (hf : ¬ b → p.TurnsInto c rest r' round') :
    p.TurnsInto c rest (if b then r else r') (if b then round else round') := by
  split_ifs with hb
  · exact ht hb
  · exact hf hb

/-- The byte is left to the state of `q`. -/
theorem reread {q : Parser} {ts : H5TokState} (hts : p.ts = ts)
    (hlow : q.ts.rereads < ts.rereads) (hround : round = q.step processId c rest) :
    p.TurnsInto c rest (q, c :: rest) round :=
  .inr ⟨rfl, hts ▸ hlow, hround⟩

end TurnsInto

theorem turnId_turnsInto : p.TurnsInto c rest (p.turnId c rest) (p.step processId c rest) := by
  unfold turnId turn step
  cases hts : p.ts with
  | tagOpen =>
    refine .ite (fun _ => .refl) fun _ => .ite (fun _ => .refl) fun _ =>
      .ite (fun _ => .refl) fun _ => .ite (fun _ => .refl) fun _ => ?_
    exact .reread hts Nat.zero_lt_one rfl
  | endTagOpen =>
    exact .ite (fun _ => .refl) fun _ => .ite (fun _ => .refl) fun _ =>
      .reread hts Nat.zero_lt_one rfl
  | beforeAttrName =>
    exact .ite (fun _ => .refl) fun _ =>
      .ite (fun _ => .reread hts Nat.zero_lt_one rfl) fun _ => .refl
  | attrName =>
    exact .ite (fun _ => .refl) fun _ =>
      .ite (fun _ => .reread hts Nat.zero_lt_one rfl) fun _ => .refl
  | beforeAttrValue =>
    refine .ite (fun _ => .refl) fun _ => .ite (fun _ => .refl) fun _ =>
      .ite (fun _ => .refl) fun _ => .ite (fun _ => .refl) fun _ => ?_
    exact .reread hts Nat.zero_lt_one rfl
  | afterAttrValue =>
    refine .ite (fun _ => .refl) fun _ => .ite (fun _ => .refl) fun _ =>
      .ite (fun _ => .refl) fun _ => ?_
    exact .reread hts Nat.one_lt_two rfl
  | selfClosing => exact .ite (fun _ => .refl) fun _ => .reread hts Nat.one_lt_two rfl
  | markupDeclOpen =>
    exact .ite (fun _ => .refl) fun _ => .ite (fun _ => .refl) fun _ =>
      .reread hts Nat.zero_lt_one rfl
  | _ => exact .refl

/-- A run may be unfolded turn by turn. -/
theorem run_turn : p.run (c :: rest) = run (p.turnId c rest).1 (p.turnId c rest).2 := by
  rw [run_cons]
  rcases p.turnId_turnsInto c rest with heq | ⟨hsame, -, hround⟩
  · rw [heq]
  · rw [hround, hsame, run_cons]

theorem turnId_readsOrLowers : ReadsOrLowers turnId (·.ts.rereads) p c rest := by
  rcases p.turnId_turnsInto c rest with heq | ⟨hsame, hlow, -⟩
  · left
    rw [heq]
    exact p.step_consumes c rest
  · exact .inr ⟨hsame, hlow⟩

theorem turns_run (n : Nat) (p : Parser) (buf : Bytes) :
    run (turns turnId n (p, buf)).1 (turns turnId n (p, buf)).2 = p.run buf := by
  induction n generalizing p buf with
  | zero => rfl
  | succ n ih =>
    cases buf with
    | nil => rw [turns_nil]
    | cons c rest => rw [turns_succ, ih, run_turn]

theorem rereads_le (p : Parser) : p.ts.rereads ≤ 2 := by
  cases p.ts <;> decide

/-- A byte that is left unread is read in one of the next two turns. -/
theorem turnId_reads :
    (p.turnId c rest).2.length ≤ rest.length ∨
      ((p.turnId c rest).2 = c :: rest ∧ (p.turnId c rest).1.ts ≠ p.ts ∧
        ∃ n ≤ 2, (turns turnId n (p.turnId c rest)).2.length ≤ rest.length) := by
  rcases p.turnId_readsOrLowers c rest with hread | ⟨hsame, hlow⟩
  · exact .inl hread
  · obtain ⟨n, hn, hread⟩ := exists_turns_read
      (fun p c rest => turnId_readsOrLowers p c rest) (p.turnId c rest).1 c rest
    have hle := p.rereads_le
    change (p.turnId c rest).1.ts.rereads < p.ts.rereads at hlow
    refine .inr ⟨hsame, fun hts => ?_, n + 1, by omega, ?_⟩
    · rw [hts] at hlow
      exact Nat.lt_irrefl _ hlow
    · rw [← hsame] at hread
      exact hread

/-- The loop of `tokenize_run` ends, after at most three turns for a byte. -/
theorem exists_turns_run (p : Parser) (buf : Bytes) :
    ∃ n ≤ 3 * buf.length, turns turnId n (p, buf) = (p.run buf, []) := by
  obtain ⟨n, hn, hend⟩ := exists_turns_end (fun p c rest => turnId_readsOrLowers p c rest)
    rereads_le p buf
  refine ⟨n, hn, Prod.ext ?_ hend⟩
  have hrun := turns_run n p buf
  rwa [hend, run_nil] at hrun

/-- The decoding loop of `TS_RCDATA` ends: a larger bound on its turns changes
nothing. -/
theorem rcdataChunks_of_le {fuel : Nat} {s : Bytes} (hfuel : s.length ≤ fuel) (out : Bytes) :
    rcdataChunks fuel out s = rcdataChunks s.length out s := by
  rw [rcdataChunks_eq_stage hfuel, rcdataChunks_eq_stage (Nat.le_refl _)]

end Parser

/-! ## The activations of `process_token` -/

/-- How an activation of `process_token` ends: it returns, or calls itself with the
token it was given. -/
inductive Activation where
  | returns (s : TreeBuilder)
  | calls (s : TreeBuilder)

namespace TreeBuilder

/-- `case M_IN_HEAD`, up to its calls of `process_token`. -/
def activateInHead (s : TreeBuilder) (t : H5Token) : Activation :=
  match t.type with
  | .start =>
      if tagIn t.name ["title", "style", "script"] then .returns (s.appendAndPush t)
      else if tagIn t.name ["meta", "link", "base"] then
        let (n, s) := s.createElementForToken t
        .returns (s.appendChild s.currentNode n)
      else .calls { s.openPop with mode := .afterHead }
  | .endTag =>
      if tagIn t.name ["head"] then .returns { s.openPop with mode := .afterHead }
      else if tagIn t.name ["title", "style", "script"] then
        .returns (if tagIs (s.tag s.currentNode) t.name then s.openPop else s)
      else if tagIn t.name ["body", "html"] then .calls { s.openPop with mode := .afterHead }
      else .returns s
  | .char => .returns (s.insertChar t.name)
  | .comment => .returns (s.insertComment s.currentNode t.name)
  | _ => .calls { s.openPop with mode := .afterHead }

/-- `case M_AFTER_HEAD`, up to its call of `process_token`. -/
def activateAfterHead (s : TreeBuilder) (t : H5Token) : Activation :=
  if t.type = .start && tagIn t.name ["body"] then
    let (b, s) := s.createElementForToken t
    .returns { (s.appendChild s.currentNode b).openPush b with body := some b, mode := .inBody }
  else if t.type = .start && tagIn t.name ["head"] then .returns s
  else
    let (b, s) := s.createElementForToken { name := ascii "body" }
    .calls { (s.appendChild s.currentNode b).openPush b with body := some b, mode := .inBody }

/-- One activation of `process_token`. -/
def activate (s : TreeBuilder) (t : H5Token) : Activation :=
  match s.mode with
  | .initial | .beforeHtml =>
      let s := s.ensureHtml
      if t.type = .char then
        .returns (({ s with mode := .beforeHead } : TreeBuilder).insertChar t.name)
      else if t.type = .start && tagIn t.name ["head"] then
        .returns (({ s with mode := .inBody } : TreeBuilder).openHead t)
      else .returns { s with mode := .inBody }
  | .beforeHead =>
      if t.type = .start && tagIn t.name ["head"] then .returns (s.openHead t)
      else .calls (s.openHead { name := ascii "head" })
  | .inHead => s.activateInHead t
  | .afterHead => s.activateAfterHead t
  | .inBody => .returns (s.processInBody t)
  | .inTable => .returns (s.processContent inTableStart inTableEnd t)
  | .inTableBody => .returns (s.processInTableBody t)
  | .inRow =>
      .returns (if t.type = .comment then s else s.processContent inRowStart inTableEnd t)
  | .inCell => .returns (s.processContent inBodyStart inCellEnd t)
  | .inSelect =>
      .returns (if t.type = .comment then s else s.processContent inBodyStart inBodyEnd t)
  | .afterBody =>
      if t.type = .endTag && tagIn t.name ["html"] then
        .returns { s with mode := .afterAfterBody }
      else .calls { s with mode := .inBody }
  | .afterAfterBody =>
      if t.type = .char then .returns (s.insertChar t.name) else .calls { s with mode := .inBody }

/-- `process_token` within a number of activations; `none` when it needs more. -/
def processWithin : Nat → TreeBuilder → H5Token → Option TreeBuilder
  | 0, _, _ => none
  | n + 1, s, t =>
      match s.activate t with
      | .returns s => some s
      | .calls s => processWithin n s t

end TreeBuilder

/-- How often `process_token` may call itself from a mode on. -/
def H5Mode.calls : H5Mode → Nat
  | .beforeHead => 3
  | .inHead => 2
  | .afterHead | .afterBody | .afterAfterBody => 1
  | _ => 0

namespace TreeBuilder

/-- An activation ends with the result `r` of the whole of `process_token`, or leaves
it to a call in a later mode. -/
def EndsIn (t : H5Token) (k : Nat) (a : Activation) (r : TreeBuilder) : Prop :=
  a = .returns r ∨ ∃ s, a = .calls s ∧ s.mode.calls < k ∧ s.processToken t = r

namespace EndsIn

variable {t : H5Token} {k : Nat} {a a' : Activation} {r r' s : TreeBuilder}

theorem ret : EndsIn t k (.returns r) r := .inl rfl

theorem call (hlow : s.mode.calls < k) (hr : s.processToken t = r) : EndsIn t k (.calls s) r :=
  .inr ⟨s, rfl, hlow, hr⟩

theorem ite {b : Prop} [Decidable b] (ht : EndsIn t k a r) (hf : EndsIn t k a' r') :
    EndsIn t k (if b then a else a') (if b then r else r') := by
  split_ifs
  · exact ht
  · exact hf

end EndsIn

variable (s : TreeBuilder) (t : H5Token)

theorem activateInHead_endsIn : EndsIn t 2 (s.activateInHead t) (s.processInHead t) := by
  have hleave : EndsIn t 2 (.calls { s.openPop with mode := .afterHead }) (s.leaveHead t) :=
    .call Nat.one_lt_two rfl
  unfold activateInHead processInHead
  cases t.type with
  | start => exact .ite .ret (.ite .ret hleave)
  | endTag =>
    exact .ite .ret (.ite .ret (.ite hleave .ret))
  | char | comment => exact .ret
  | doctype | eof => exact hleave

theorem activateAfterHead_endsIn :
    EndsIn t 1 (s.activateAfterHead t) (s.processAfterHead t) :=
  .ite .ret (.ite .ret (.call Nat.zero_lt_one rfl))

theorem activate_endsIn : EndsIn t s.mode.calls (s.activate t) (s.processToken t) := by
  unfold activate processToken
  cases s.mode with
  | initial | beforeHtml => exact .ite .ret (.ite .ret .ret)
  | beforeHead => exact .ite .ret (.call (Nat.lt_succ_self 2) rfl)
  | inHead => exact s.activateInHead_endsIn t
  | afterHead => exact s.activateAfterHead_endsIn t
  | afterBody => exact .ite .ret (.call Nat.zero_lt_one rfl)
  | afterAfterBody => exact .ite .ret (.call Nat.zero_lt_one rfl)
  | _ => exact .ret

theorem processWithin_of_lt {n : Nat} (hn : s.mode.calls < n) :
    processWithin n s t = some (s.processToken t) := by
  induction n generalizing s with
  | zero => exact absurd hn (Nat.not_lt_zero _)
  | succ n ih =>
    rw [processWithin]
    rcases s.activate_endsIn t with heq | ⟨s', heq, hlow, hr⟩
    · rw [heq]
    · rw [heq, ← hr]
      exact ih s' (by omega)

/-- `process_token` ends within four activations. -/
theorem processWithin_four : processWithin 4 s t = some (s.processToken t) := by
  refine s.processWithin_of_lt t ?_
  cases s.mode <;> decide

end TreeBuilder

/-! ## The tokenizer ends -/

/-- From any state and for any buffer: a turn of the loop reads a byte, or changes to
a state from which one of the next two turns does; so the loop ends, and within three
turns for a byte.  Decoding a reference stays inside the buffer and reads at least the
`&`, decoding in `TS_RCDATA` ends, and `process_token` calls itself three times at
most. -/
theorem tokenizeRun_ends (p : Parser) (buf : Bytes) :
    (∀ (q : Parser) (c : UInt8) (rest : Bytes),
      (q.turnId c rest).2.length ≤ rest.length ∨
        ((q.turnId c rest).2 = c :: rest ∧ (q.turnId c rest).1.ts ≠ q.ts ∧
          ∃ n ≤ 2, (turns Parser.turnId n (q.turnId c rest)).2.length ≤ rest.length)) ∧
    (∃ n ≤ 3 * buf.length, turns Parser.turnId n (p, buf) = (p.run buf, [])) ∧
    (∀ out used, h5DecodeRef buf = some (out, used) → 0 < used ∧ used ≤ buf.length) ∧
    (∀ fuel ≥ buf.length, ∀ out,
      Parser.rcdataChunks fuel out buf = Parser.rcdataChunks buf.length out buf) ∧
    ∀ t, TreeBuilder.processWithin 4 p.tree t = some (p.tree.processToken t) := by
  refine ⟨Parser.turnId_reads, p.exists_turns_run buf, fun out used h => ?_,
    fun fuel hfuel out => Parser.rcdataChunks_of_le hfuel out, p.tree.processWithin_four⟩
  exact ⟨h5DecodeRef_pos h, (h5DecodeRef_refText h).used_le⟩

end TinyFramework.Html5
