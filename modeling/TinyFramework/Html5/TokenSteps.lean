/-
  Html5/TokenSteps.lean --- every token keeps the invariant of the tree builder.

  One step lemma for each insertion mode.  Two of the calls need a condition on
  the state before them: `adoption_agency`, and, where the old part of the stack
  has to stay, the pop loop at the end of `in_body_end`.
-/
import TinyFramework.Html5.AdoptionAgency

set_option autoImplicit false

namespace TinyFramework.Html5

open TinyFramework.Foundation TinyFramework.Dom

/-! ## The condition on a token -/

/-- After `gen_implied_end` an element with the tag is still open, so that the
pop loop which follows stops at it. -/
def popSafe (s : TreeBuilder) (tag : Bytes) : Bool :=
  (s.genImpliedEnd none).stack.any fun n => tagIs (s.tag n) tag

/-- The end tag gets to the last branch of `in_body_end`. -/
def isOtherEnd (tag : Bytes) : Bool :=
  !h5IsFormatting tag && !TreeBuilder.tagIn tag ["p", "li", "dd", "dt", "body", "html"]

/-- `in_body_end` is safe: its adoption agency makes no cycle, and in the strict
reading its pop loop stops. -/
def inBodyEndSafe (strict : Bool) (s : TreeBuilder) (tag : Bytes) : Bool :=
  if h5IsFormatting tag then adoptionSafe s tag
  else if strict && isOtherEnd tag && s.hasInScope tag false then popSafe s tag
  else true

/-- The modes that hand an end tag on to `in_body_end`. -/
def reachesInBodyEnd (mode : H5Mode) (tag : Bytes) : Bool :=
  match mode with
  | .inBody | .afterAfterBody => true
  | .inTable | .inRow =>
      !TreeBuilder.tagIn tag ["table", "tbody", "tfoot", "thead", "tr", "th", "td"]
  | .inCell => !TreeBuilder.tagIn tag ["td", "th", "tr", "tbody", "thead", "tfoot"]
  | .afterBody => !TreeBuilder.tagIn tag ["html"]
  | _ => false

/-- The state in which `in_body_end` runs: the modes after the body go back to it
first. -/
def backInBody (s : TreeBuilder) : TreeBuilder :=
  match s.mode with
  | .afterBody | .afterAfterBody => { s with mode := .inBody }
  | _ => s

/-- The condition on a token in the state before it. -/
def tokenSafe (strict : Bool) (s : TreeBuilder) (t : H5Token) : Bool :=
  if t.type = .endTag && reachesInBodyEnd s.mode t.name then
    inBodyEndSafe strict (backInBody s) t.name
  else true

namespace TreeInv

variable {b : DocBase} {s : TreeBuilder}

/-! ## Start tags -/

theorem closeForStart (h : TreeInv b s) (tag : Bytes) : Step b s (s.closeForStart tag) := by
  have h₁ : Step b s (if h5ClosesP tag then s.closePIfOpen else s) :=
    Step.ite (fun _ => h.closePIfOpen) fun _ => Step.refl h
  refine h₁.andThen fun h' => ?_
  have h₂ := Step.ite (c := TreeBuilder.tagIn tag ["li"] = true)
    (fun _ => h'.genImpliedEnd (some (ascii "li"))) fun _ => Step.refl h'
  exact h₂.andThen fun h'' =>
    Step.ite (fun _ => h''.genImpliedEnd none) fun _ => Step.refl h''

theorem setTable (h : TreeInv b s) {n : NodeId} (hown : b.first ≤ n) (hlt : n < s.heap.size)
    {m : H5Mode} (hm : m.running = true) :
    Step b s { s with tableFoster := some n, mode := m } := by
  refine ⟨{ h with mode := hm, table := fun x hx => ?_ }, Grows.refl _⟩
  cases hx
  exact ⟨hown, hlt⟩

theorem insertInBody (h : TreeInv b s) (t : H5Token) : Step b s (s.insertInBody t) := by
  unfold TreeBuilder.insertInBody
  simp only [createElementForToken_eq]
  refine Step.ite (fun _ => ?_) fun _ => Step.ite (fun _ => ?_) fun _ => ?_
  · refine (h.appendPushFresh (plain_elementFor t) h.currentNode_site h.currentNode_lt).andThen
      fun h' => h'.setTable h.heap.first ?_ rfl
    exact (size_appendChild_alloc (plain_elementFor t) _).symm ▸ Nat.lt_succ_self _
  · refine h.reconstructActiveFormatting.andThen fun h' => (h'.insertElementFor t).andThen
      fun h'' => h''.afePush fun x hx => ?_
    cases hx
    exact ⟨h'.heap.first,
      (size_appendChild_alloc (plain_elementFor t) _).symm ▸ Nat.lt_succ_self _⟩
  · exact h.reconstructActiveFormatting.andThen fun h' => Step.ite
      (fun _ => h'.appendFresh (plain_elementFor t) h'.currentNode_site h'.currentNode_lt)
      fun _ => h'.insertElementFor t

theorem headOrCurrent_site (h : TreeInv b s) :
    b.Site (s.headElement.getD s.currentNode) ∧
      s.headElement.getD s.currentNode < s.heap.size := by
  cases hh : s.headElement with
  | none => exact ⟨h.currentNode_site, h.currentNode_lt⟩
  | some x => exact ⟨.inr (h.head x hh), h.site_lt (h.head x hh)⟩

theorem inBodyStart (h : TreeInv b s) (t : H5Token) : Step b s (s.inBodyStart t) := by
  unfold TreeBuilder.inBodyStart
  simp only [createElementForToken_eq]
  refine Step.ite (fun _ => Step.refl h) fun _ => Step.ite (fun _ => ?_) fun _ =>
    Step.ite (fun _ => h.appendAndPush t) fun _ => Step.ite (fun _ => Step.refl h) fun _ =>
      (h.closeForStart t.name).andThen fun h' => h'.insertInBody t
  obtain ⟨hsite, hlt⟩ := h.headOrCurrent_site
  exact Step.ite (fun _ => h.appendFresh (plain_elementFor t) hsite hlt) fun _ =>
    h.appendPushFresh (plain_elementFor t) hsite hlt

/-- Any other element in a table. -/
theorem insertInTable (h : TreeInv b s) (t : H5Token) : Step b s (s.insertInTable t) := by
  unfold TreeBuilder.insertInTable
  simp only [createElementForToken_eq]
  refine h.reconstructActiveFormatting.andThen fun h' =>
    Step.ite (fun _ => ?_) fun _ => h'.fosterInsert t
  split
  · rename_i table ht
    obtain ⟨q, hq, hlisted, hsite⟩ := h'.table_parent ht
    rw [NodeHeap.alloc_node, if_neg (Nat.ne_of_lt (h'.table table ht).2), hq]
    exact h'.insertFresh (plain_elementFor t) hlisted hsite
  · exact h'.appendFresh (plain_elementFor t) h'.currentNode_site h'.currentNode_lt

theorem appendAndPush_mode (h : TreeInv b s) (t : H5Token) {m : H5Mode} (hm : m.running = true) :
    Step b s { s.appendAndPush t with mode := m } :=
  (h.appendAndPush t).andThen fun h' => h'.setMode hm

theorem offBase_table : OffBase (ascii "table") := by simp only [OffBase]; decide

theorem inTableStart (h : TreeInv b s) (t : H5Token) : Step b s (s.inTableStart t) := by
  unfold TreeBuilder.inTableStart
  simp only [createElementForToken_eq]
  refine Step.ite (fun _ => ?_) fun _ => Step.ite (fun _ => h.appendAndPush t) fun _ =>
    Step.ite (fun _ => ?_) fun _ => Step.ite (fun _ => h.appendAndPush_mode t rfl) fun _ =>
      Step.ite (fun _ => h.appendAndPush_mode t rfl) fun _ => Step.ite (fun _ => ?_) fun _ =>
        h.insertInTable t
  · refine (h.popUntil offBase_table).andThen fun h' => (h'.appendAndPush t).andThen fun h'' => ?_
    exact (h''.afePush fun x hx => by cases hx).andThen fun h₃ => h₃.setMode rfl
  · exact h.appendFresh (plain_elementFor t) h.currentNode_site h.currentNode_lt
  · exact (h.appendAndPush _).andThen fun h' => h'.appendAndPush_mode t rfl

/-! ## End tags -/

theorem tagIn_append {t : Bytes} (names names' : List String) :
    TreeBuilder.tagIn t (names ++ names') =
      (TreeBuilder.tagIn t names || TreeBuilder.tagIn t names') := by
  simp [TreeBuilder.tagIn]

/-- Pop an element that is in scope. -/
theorem popInScope (h : TreeInv b s) {t : Bytes} (ht : OffBase t) (scope : Bool) :
    Step b s (if s.hasInScope t scope then s.popUntil t else s) :=
  Step.ite (fun _ => h.popUntil ht) fun _ => Step.refl h

theorem inBodyEnd (h : TreeInv b s) {t : H5Token}
    (hsafe : inBodyEndSafe b.strict s t.name = true) : Step b s (s.inBodyEnd t) := by
  have hp : OffBase (ascii "p") := by simp only [OffBase]; decide
  unfold TreeBuilder.inBodyEnd
  unfold inBodyEndSafe at hsafe
  refine Step.ite (fun hfmt => ?_) fun hfmt => Step.ite (fun _ => ?_) fun hnp =>
    Step.ite (fun hli => ?_) fun hnli => Step.ite (fun _ => h.setMode rfl) fun hnbody =>
      Step.ite (fun hscope => ?_) fun _ => Step.refl h
  · rw [if_pos hfmt] at hsafe
    exact h.adoptionAgency hfmt hsafe
  · exact (h.genImpliedEnd _).andThen fun h' => h'.popInScope hp false
  · have hoff : OffBase t.name := offBase_of_tagIn hli (by simp only [OffBase]; decide)
    exact (h.genImpliedEnd _).andThen fun h' => h'.popInScope hoff false
  · rw [if_neg hfmt] at hsafe
    refine (h.genImpliedEnd none).andThen fun h' => h'.popLoop fun hs => ⟨?_, fun x hx => ?_⟩
    · have hother : isOtherEnd t.name = true := by
        have happ : (["p", "li", "dd", "dt", "body", "html"] : List String) =
            ["p"] ++ (["li", "dd", "dt"] ++ (["body"] ++ ["html"])) := rfl
        simp only [isOtherEnd, happ, tagIn_append, Bool.not_eq_true] at *
        simp_all
      rw [if_pos (by simp [hs, hother, hscope])] at hsafe
      exact List.any_eq_true.1 hsafe
    · refine h'.base_not_tag hs hx ?_
      simpa [OffBase, TreeBuilder.tagIn, and_comm] using hnbody

theorem closeInTableScope (h : TreeInv b s) {tag : Bytes} (ht : OffBase tag) {m : H5Mode}
    (hm : m.running = true) : Step b s (s.closeInTableScope tag m) :=
  Step.ite (fun _ => (h.popUntil ht).andThen fun h' => h'.setMode hm) fun _ => Step.refl h

theorem clearTable (h : TreeInv b s) {m : H5Mode} (hm : m.running = true) :
    Step b s { s with tableFoster := none, mode := m } :=
  ⟨{ h with mode := hm, table := fun x hx => by cases hx }, Grows.refl _⟩

theorem inTableEnd (h : TreeInv b s) {t : H5Token}
    (hsafe : TreeBuilder.tagIn t.name ["table", "tbody", "tfoot", "thead", "tr", "th", "td"] =
      false → inBodyEndSafe b.strict s t.name = true) : Step b s (s.inTableEnd t) := by
  have hoff : ∀ n ∈ (["table", "tbody", "tfoot", "thead", "tr", "th", "td"] : List String),
      OffBase (ascii n) := by
    simp only [OffBase]
    decide
  have hsub : ∀ {names : List String}, TreeBuilder.tagIn t.name names = true →
      names ⊆ ["table", "tbody", "tfoot", "thead", "tr", "th", "td"] → OffBase t.name :=
    fun htag hin => offBase_of_tagIn htag fun n hn => hoff n (hin hn)
  unfold TreeBuilder.inTableEnd
  refine Step.ite (fun _ => ?_) fun hn₁ => Step.ite (fun htag => ?_) fun hn₂ =>
    Step.ite (fun htag => ?_) fun hn₃ => Step.ite (fun htag => ?_) fun hn₄ => ?_
  · exact Step.ite (fun _ => (h.popUntil offBase_table).andThen fun h' => h'.clearTable rfl)
      fun _ => Step.refl h
  · exact h.closeInTableScope (hsub htag (by decide)) rfl
  · exact h.closeInTableScope (hsub htag (by decide)) rfl
  · exact h.closeInTableScope (hsub htag (by decide)) rfl
  · refine h.inBodyEnd (hsafe ?_)
    have happ : (["table", "tbody", "tfoot", "thead", "tr", "th", "td"] : List String) =
        ["table"] ++ (["tbody", "tfoot", "thead"] ++ (["tr"] ++ ["th", "td"])) := rfl
    rw [happ, tagIn_append, tagIn_append, tagIn_append]
    simp [hn₁, hn₂, hn₃, hn₄]

theorem closeRow (h : TreeInv b s) : Step b s s.closeRow :=
  h.popInScope (by simp only [OffBase]; decide) true

theorem inRowStart (h : TreeInv b s) (t : H5Token) : Step b s (s.inRowStart t) := by
  unfold TreeBuilder.inRowStart
  refine Step.ite (fun _ => h.appendAndPush_mode t rfl) fun _ => Step.ite (fun _ => ?_) fun _ => ?_
  · exact h.closeRow.andThen fun h' => h'.appendAndPush t
  · exact h.closeRow.andThen fun h' => (h'.setMode rfl).andThen fun h'' => h''.inTableStart t

theorem inCellEnd (h : TreeInv b s) {t : H5Token}
    (hsafe : TreeBuilder.tagIn t.name ["td", "th", "tr", "tbody", "thead", "tfoot"] = false →
      inBodyEndSafe b.strict s t.name = true) : Step b s (s.inCellEnd t) := by
  have htd : OffBase (ascii "td") := by simp only [OffBase]; decide
  have hth : OffBase (ascii "th") := by simp only [OffBase]; decide
  unfold TreeBuilder.inCellEnd
  refine Step.ite (fun htag => ?_) fun hn₁ => Step.ite (fun htag => ?_) fun hn₂ => ?_
  · have hoff : OffBase t.name := offBase_of_tagIn htag (by simp only [OffBase]; decide)
    exact Step.ite (fun _ => (h.genImpliedEnd none).andThen fun h' =>
      (h'.popUntil hoff).andThen fun h'' => h''.setMode rfl) fun _ => Step.refl h
  · refine Step.ite (fun _ => ?_) fun _ => Step.refl h
    refine (h.genImpliedEnd none).andThen fun h₁ => (h₁.popUntil htd).andThen fun h₂ =>
      (h₂.popUntil hth).andThen fun h₃ => (h₃.setMode rfl).andThen fun h₄ => h₄.inTableEnd ?_
    intro hno
    -- the tag is one of those that `in_table_end` treats itself
    have hin := List.any_eq_false.1 hno
    obtain ⟨n, hn, hci⟩ := List.any_eq_true.1 htag
    have hsub : (["tr", "tbody", "thead", "tfoot"] : List String) ⊆
        ["table", "tbody", "tfoot", "thead", "tr", "th", "td"] := by decide
    exact absurd hci (hin n (hsub hn))
  · refine h.inBodyEnd (hsafe ?_)
    have happ : (["td", "th", "tr", "tbody", "thead", "tfoot"] : List String) =
        ["td", "th"] ++ ["tr", "tbody", "thead", "tfoot"] := rfl
    rw [happ, tagIn_append]
    simp [hn₁, hn₂]

/-! ## Every token -/

/-- A mode that inserts text and comments as they come. -/
theorem processContent (h : TreeInv b s) {onStart onEnd : TreeBuilder → H5Token → TreeBuilder}
    {t : H5Token} (hstart : Step b s (onStart s t))
    (hend : t.type = .endTag → Step b s (onEnd s t)) :
    Step b s (s.processContent onStart onEnd t) := by
  unfold TreeBuilder.processContent
  split
  case h_1 => exact hstart
  case h_2 ht => exact hend ht
  case h_3 => exact h.insertChar t.name
  case h_4 => exact h.insertComment t.name
  case h_5 => exact Step.refl h

theorem processInBody (h : TreeInv b s) {t : H5Token}
    (hsafe : t.type = .endTag → inBodyEndSafe b.strict s t.name = true) :
    Step b s (s.processInBody t) := by
  unfold TreeBuilder.processInBody
  split
  case h_1 => exact h.insertChar t.name
  case h_2 => exact h.insertComment t.name
  case h_3 => exact h.inBodyStart t
  case h_4 ht => exact h.inBodyEnd (hsafe ht)
  case h_5 => exact Step.refl h

theorem processInTableBody (h : TreeInv b s) (t : H5Token) :
    Step b s (s.processInTableBody t) := by
  unfold TreeBuilder.processInTableBody
  refine Step.ite (fun _ => h.appendAndPush_mode t rfl) fun _ => Step.ite (fun hc => ?_) fun _ =>
    Step.ite (fun _ => ?_) fun _ => Step.refl h
  · have htag : TreeBuilder.tagIn t.name ["tbody", "thead", "tfoot"] = true := by
      simp only [Bool.and_eq_true] at hc
      exact hc.2
    exact h.closeInTableScope (offBase_of_tagIn htag (by simp only [OffBase]; decide)) rfl
  · have hbody : OffBase (ascii "tbody") := by simp only [OffBase]; decide
    have hhead : OffBase (ascii "thead") := by simp only [OffBase]; decide
    have hfoot : OffBase (ascii "tfoot") := by simp only [OffBase]; decide
    have hpop := h.popUntilOne hbody hhead hfoot
    have hclose : Step b s (if s.hasInScope (ascii "tbody") true ||
        s.hasInScope (ascii "thead") true || s.hasInScope (ascii "tfoot") true then
        s.popUntilOne (ascii "tbody") (ascii "thead") (ascii "tfoot") else s) :=
      Step.ite (fun _ => hpop) fun _ => Step.refl h
    refine hclose.andThen fun h' => ?_
    exact (h'.setMode rfl).andThen fun h'' => h''.inTableStart t

/-- What `tokenSafe` says of an end tag that gets to `in_body_end`. -/
theorem inBodyEndSafe_of_tokenSafe {strict : Bool} {t : H5Token}
    (hsafe : tokenSafe strict s t = true) (ht : t.type = .endTag)
    (hreach : reachesInBodyEnd s.mode t.name = true) :
    inBodyEndSafe strict (backInBody s) t.name = true := by
  simpa [tokenSafe, ht, hreach] using hsafe

/-- Every safe token keeps the invariant. -/
theorem processToken (h : TreeInv b s) {t : H5Token} (hsafe : tokenSafe b.strict s t = true) :
    Step b s (s.processToken t) := by
  have hmode := h.mode
  have hend := fun ht hreach => inBodyEndSafe_of_tokenSafe hsafe ht hreach
  unfold TreeBuilder.processToken
  cases hm : s.mode with
  | initial | beforeHtml | beforeHead | inHead | afterHead | inSelect =>
    rw [hm] at hmode
    cases hmode
  | inBody =>
    simp only [hm, reachesInBodyEnd, backInBody] at hend
    exact h.processInBody fun ht => hend ht trivial
  | inTable =>
    simp only [hm, reachesInBodyEnd, backInBody] at hend
    exact h.processContent (h.inTableStart t) fun ht => h.inTableEnd fun hno =>
      hend ht (by rw [hno]; rfl)
  | inTableBody => exact h.processInTableBody t
  | inRow =>
    simp only [hm, reachesInBodyEnd, backInBody] at hend
    exact Step.ite (fun _ => Step.refl h) fun _ =>
      h.processContent (h.inRowStart t) fun ht => h.inTableEnd fun hno =>
        hend ht (by rw [hno]; rfl)
  | inCell =>
    simp only [hm, reachesInBodyEnd, backInBody] at hend
    exact h.processContent (h.inBodyStart t) fun ht => h.inCellEnd fun hno =>
      hend ht (by rw [hno]; rfl)
  | afterBody =>
    simp only [hm, reachesInBodyEnd, backInBody] at hend
    refine Step.ite (fun _ => h.setMode rfl) fun hc => (h.setMode rfl).andThen fun h' =>
      h'.processInBody fun ht => hend ht ?_
    simpa [ht] using hc
  | afterAfterBody =>
    simp only [hm, reachesInBodyEnd, backInBody] at hend
    exact Step.ite (fun _ => h.insertChar t.name) fun _ => (h.setMode rfl).andThen fun h' =>
      h'.processInBody fun ht => hend ht trivial

end TreeInv

/-! ## Every run -/

/-- The tree builder after a list of tokens. -/
def tokenRun (s : TreeBuilder) (tokens : List H5Token) : TreeBuilder :=
  tokens.foldl TreeBuilder.processToken s

theorem tokenRun_append (s : TreeBuilder) (pre post : List H5Token) :
    tokenRun s (pre ++ post) = tokenRun (tokenRun s pre) post :=
  List.foldl_append

/-- Every token is safe in the state it is processed in. -/
def SafeTokens (strict : Bool) : TreeBuilder → List H5Token → Prop
  | _, [] => True
  | s, t :: ts => tokenSafe strict s t = true ∧ SafeTokens strict (s.processToken t) ts

instance SafeTokens.decidable (strict : Bool) :
    (s : TreeBuilder) → (tokens : List H5Token) → Decidable (SafeTokens strict s tokens)
  | _, [] => isTrue trivial
  | s, t :: ts =>
      have := SafeTokens.decidable strict (s.processToken t) ts
      inferInstanceAs (Decidable (tokenSafe strict s t = true ∧ _))

theorem SafeTokens.append_iff {strict : Bool} {s : TreeBuilder} {pre post : List H5Token} :
    SafeTokens strict s (pre ++ post) ↔
      SafeTokens strict s pre ∧ SafeTokens strict (tokenRun s pre) post := by
  induction pre generalizing s with
  | nil => simp [SafeTokens, tokenRun]
  | cons t pre ih =>
    simp only [List.cons_append, SafeTokens, ih, and_assoc]
    rfl

/-- Every run of safe tokens keeps the invariant. -/
theorem TreeInv.tokenRun {b : DocBase} {s : TreeBuilder} {tokens : List H5Token}
    (h : TreeInv b s) (hsafe : SafeTokens b.strict s tokens) :
    Step b s (Html5.tokenRun s tokens) := by
  induction tokens generalizing s with
  | nil => exact Step.refl h
  | cons t tokens ih =>
    obtain ⟨ht, hrest⟩ := hsafe
    exact (h.processToken ht).andThen fun h' => ih h' hrest

end TinyFramework.Html5
