/-
  Events/References.lean --- the nodes that `MiniEventState` refers to.

  The handlers of `mini_events.c` as they read and write these fields.  What is hit, what
  a node is and what a listener prevents are answers given from outside, so they hold for
  every document; a node that is answered exists.  During a dispatch listeners make any
  calls of their own, destruction and the handlers themselves included.
-/
import TinyFramework.Events.Listeners
import TinyFramework.Events.MouseButtons

set_option autoImplicit false

namespace TinyFramework.Events.References

open TinyFramework.Foundation TinyFramework.Dom

/-- The fields of `MiniEventState` that hold a node; the listeners hold the others. -/
inductive RefField where
  | hover
  | focus
  | pressTarget
  | lastClickTarget
  | dragRange
  | selAnchor
  | selFocus
  | dndSource
  | dropTarget
  | moveNode
  deriving DecidableEq, Repr

/-- What the host, or a listener, does. -/
inductive Call where
  | mouseMove
  | mouseButton (button : Nat) (isPress : Bool)
  | key (keydown : Bool)
  | char
  | wheel
  | resize
  | dropFiles
  | focus (n : Option NodeId)
  | releaseCapture
  | selectAll
  | selectionText
  | activeElement
  | addListener (r : Request)
  | removeListener (h : Option Nat)
  | destroy (n : NodeId)
  deriving DecidableEq

/-- What the document and the listeners will answer, in the order of asking. -/
structure Answers where
  bools : List Bool := []
  nodes : List (Option NodeId) := []
  calls : List (List Call) := []

/-- The fields of `MiniEventState` that decide which references are read and written. -/
structure EventFlags where
  dndStarted : Bool := false
  dropAllowed : Bool := false
  isSelecting : Bool := false
  suppressChar : Bool := false
  buttonsMask : BitVec 32 := 0

/-- `MiniEventState`, the document's own two references, and what has been destroyed. -/
structure EventState where
  field : RefField → Option NodeId := fun _ => none
  registry : Registry := Registry.empty
  flags : EventFlags := {}
  body : Option NodeId
  root : NodeId
  destroyed : List NodeId := []
  answers : Answers
  /-- A field was read while the node in it was gone. -/
  staleRead : Bool := false
  /-- No node was destroyed that a field still holds afterwards, that is the document's
  body or root, or that a running handler stores later. -/
  careful : Bool := true

abbrev Handler := StateM EventState

namespace EventState

/-- The state that `mini_events_state_create` gives for a document. -/
def created (body : Option NodeId) (root : NodeId) (answers : Answers) : EventState :=
  { body := body, root := root, answers := answers }

/-- A node that has not been destroyed. -/
def Exists (s : EventState) (n : NodeId) : Prop := n ∉ s.destroyed

instance (s : EventState) (n : NodeId) : Decidable (s.Exists n) :=
  inferInstanceAs (Decidable (n ∉ s.destroyed))

/-- The field refers to a node that is gone. -/
def stale (s : EventState) (f : RefField) : Bool :=
  (s.field f).any fun n => decide (¬ s.Exists n)

/-- Some listener targets a node that is gone. -/
def staleListener (s : EventState) : Bool :=
  s.registry.ls.any fun l => l.target.any fun n => decide (¬ s.Exists n)

/-- The field has been read. -/
def afterRead (s : EventState) (f : RefField) : EventState :=
  { s with staleRead := s.staleRead || s.stale f }

/-- The target of each listener has been read. -/
def afterScan (s : EventState) : EventState :=
  { s with staleRead := s.staleRead || s.staleListener }

def withField (s : EventState) (f : RefField) (n : Option NodeId) : EventState :=
  { s with field := Function.update s.field f n }

end EventState

/-! ## Reading, writing and asking -/

/-- Read a field. -/
def read (f : RefField) : Handler (Option NodeId) := do
  let s ← get
  set (s.afterRead f)
  return s.field f

/-- Write a field. -/
def store (f : RefField) (n : Option NodeId) : Handler Unit :=
  modify fun s => s.withField f n

def setFlags (f : EventFlags → EventFlags) : Handler Unit :=
  modify fun s => { s with flags := f s.flags }

/-- A scan of the listeners, which compares the target of each. -/
def scanListeners : Handler Unit :=
  modify fun s => s.afterScan

/-- Whether something holds: of a node, a value, a time or an event. -/
def ask : Handler Bool := do
  let s ← get
  set { s with answers := { s.answers with bools := s.answers.bools.tail } }
  return s.answers.bools.headD false

/-- What is hit, what a selector finds, which ancestor or text node there is: a node that
exists, if any. -/
def askNode : Handler (Option NodeId) := do
  let s ← get
  set { s with answers := { s.answers with nodes := s.answers.nodes.tail } }
  return (s.answers.nodes.headD none).filter fun n => s.Exists n

/-- What is hit, else the body. -/
def orBody (hit : Option NodeId) : Handler (Option NodeId) := do
  return hit <|> (← get).body

/-- What is hit, else the body, else the root. -/
def orRoot (hit : Option NodeId) : Handler NodeId := do
  let s ← get
  return (hit <|> s.body).getD s.root

/-- The calls that the listeners of a dispatch make. -/
def askCalls : Handler (List Call) := do
  let s ← get
  set { s with answers := { s.answers with calls := s.answers.calls.tail } }
  return s.answers.calls.headD []

/-! ## Destruction -/

/-- The comparison of one field in `mini_events_on_node_destroyed`. -/
def clearIf (n : NodeId) (f : RefField) : Handler Unit := do
  if (← read f) = some n then store f none

/-- The listeners of the node go. -/
def removeListeners (n : NodeId) : Handler Unit := do
  scanListeners
  modify fun s => { s with registry := removeTargeting s.registry n }

/-- `mini_events_on_node_destroyed` -/
def miniEventsOnNodeDestroyed (n : NodeId) : Handler Unit := do
  clearIf n .hover
  clearIf n .focus
  clearIf n .pressTarget
  clearIf n .lastClickTarget
  clearIf n .dragRange
  clearIf n .selAnchor
  clearIf n .selFocus
  removeListeners n

/-- A destruction that leaves nothing behind: of a node that is neither in one of the three
fields that `mini_events_on_node_destroyed` does not look at, nor the document's body or
root, nor one that a running handler stores later. -/
def EventState.CarefulToDestroy (s : EventState) (held : List NodeId) (n : NodeId) : Prop :=
  (∀ f ∈ [RefField.dndSource, .dropTarget, .moveNode], s.field f ≠ some n) ∧
    s.body ≠ some n ∧ s.root ≠ n ∧ n ∉ held

instance (s : EventState) (held : List NodeId) (n : NodeId) :
    Decidable (s.CarefulToDestroy held n) :=
  inferInstanceAs (Decidable ((∀ f ∈ _, _) ∧ _ ∧ _ ∧ _))

/-- A node is destroyed while the running handlers are going to store the nodes `held`. -/
def destroy (held : List NodeId) (n : NodeId) : Handler Unit := do
  let s ← get
  if s.Exists n then
    miniEventsOnNodeDestroyed n
    modify fun s' => { s' with
      destroyed := n :: s'.destroyed
      careful := s'.careful && decide (s.CarefulToDestroy held n) }

/-! ## Focus, drags and selections -/

section Handlers

-- what happens while the running handlers are going to store the nodes `held`
variable (react : List NodeId → Handler Unit) (held : List NodeId)

/-- `mini_event_dispatch`: whether the event was prevented. -/
def dispatch : Option NodeId → Handler Bool
  | none => return false
  | some _ => do
      react held
      ask

/-- The `blur` and the `change` of `mini_events_focus`. -/
def blurFocused : Handler Unit := do
  if (← read .focus).isSome then
    let _ ← dispatch react held (← read .focus)
    if ← ask then let _ ← dispatch react held (← read .focus)

/-- `mini_events_focus` -/
def miniEventsFocus (n : Option NodeId) : Handler Unit := do
  if (← read .focus) = n then return
  blurFocused react (n.toList ++ held)
  store .focus n
  let _ ← dispatch react held n

/-- `dnd_reset` -/
def dndReset : Handler Unit := do
  store .dndSource none
  store .dropTarget none
  setFlags fun s => { s with dndStarted := false, dropAllowed := false }

/-- `dnd_begin` -/
def dndBegin (src : Option NodeId) : Handler Unit := do
  store .dndSource src
  store .dropTarget none
  setFlags fun s => { s with dndStarted := false, dropAllowed := false }
  if ← dispatch react held src then dndReset
  else setFlags fun s => { s with dndStarted := true }

/-- What `dnd_move` does when the pointer comes over another node. -/
def dragOnto (hit : NodeId) : Handler Unit := do
  if (← read .dropTarget).isSome then
    let _ ← dispatch react (hit :: held) (← read .dropTarget)
  let _ ← dispatch react (hit :: held) (some hit)
  store .dropTarget (some hit)
  setFlags fun s => { s with dropAllowed := false }

/-- `dnd_move`, from the hit test on. -/
def dragOver : Handler Unit := do
  match ← askNode with
  | none => return
  | some hit =>
      if (← read .dropTarget) ≠ some hit then dragOnto react held hit
      let allowed ← dispatch react held (some hit)
      setFlags fun s => { s with dropAllowed := allowed }

/-- `dnd_move` -/
def dndMove : Handler Unit := do
  if (← get).flags.dndStarted = false then return
  if (← read .dndSource) = none then return
  let _ ← dispatch react held (← read .dndSource)
  dragOver react held

/-- `dnd_end` -/
def dndEnd : Handler Unit := do
  if (← get).flags.dndStarted = false then
    dndReset
  else
    let target ← read .dropTarget
    if (← get).flags.dropAllowed then let _ ← dispatch react held target
    if (← read .dndSource).isSome then
      let _ ← dispatch react held (← read .dndSource)
    dndReset

/-- `selection_clear` -/
def selectionClear : Handler Unit := do
  let _ ← read .selAnchor
  let _ ← read .selFocus
  store .selAnchor none
  store .selFocus none
  setFlags fun s => { s with isSelecting := false }

/-- `selection_begin` -/
def selectionBegin : Handler Unit := do
  selectionClear
  let tn ← askNode
  if tn.isSome then
    store .selAnchor tn
    store .selFocus tn
    setFlags fun s => { s with isSelecting := true }

/-- `selection_extend` -/
def selectionExtend : Handler Unit := do
  let tn ← askNode
  if tn.isSome then
    let _ ← read .selFocus
    store .selFocus tn

/-- `mini_events_select_all`: from the first text to the last. -/
def miniEventsSelectAll : Handler Unit := do
  selectionClear
  let first ← askNode
  if first.isSome then
    store .selAnchor first
    store .selFocus (← askNode)

/-! ## The mouse -/

/-- The value of a held slider follows the pointer. -/
def dragRangeStep : Handler Unit := do
  if (← read .dragRange).isSome then
    let _ ← read .dragRange
    if ← ask then let _ ← dispatch react held (← read .dragRange)

/-- A drag begins or goes on, and so does a move of a node. -/
def dragStep : Handler Unit := do
  if (← read .dndSource).isSome ∧ (← get).flags.dndStarted = false then
    dndBegin react held (← read .dndSource)
  if (← get).flags.dndStarted then dndMove react held
  if (← read .moveNode).isSome then let _ ← read .moveNode

/-- The hover goes over to what is hit. -/
def hoverStep (t : Option NodeId) : Handler Unit := do
  let old ← read .hover
  if t ≠ old then
    let _ ← dispatch react (t.toList ++ held) old
    let _ ← dispatch react (t.toList ++ held) old
    let _ ← dispatch react (t.toList ++ held) t
    let _ ← dispatch react (t.toList ++ held) t
    store .hover t

/-- The selection of the page and of a pressed field follow the pointer. -/
def selectStep (t : Option NodeId) : Handler Unit := do
  if (← get).flags.isSelecting ∧ t.isSome then selectionExtend
  if (← get).flags.buttonsMask &&& 1 ≠ 0 then let _ ← read .pressTarget

/-- `mini_events_handle_mouse_move` -/
def miniEventsHandleMouseMove : Handler Unit := do
  dragRangeStep react held
  dragStep react held
  let t ← askNode
  hoverStep react held t
  selectStep t
  let _ ← dispatch react held (← orBody t)

/-- A press on what is neither a slider nor a field. -/
def pressPlain : Handler Unit := do
  match ← askNode with
  | some dr =>
      selectionClear
      store .dndSource (some dr)
      setFlags fun s => { s with dndStarted := false }
  | none =>
      match ← askNode with
      | some mv =>
          selectionClear
          store .moveNode (some mv)
      | none => selectionBegin

/-- What a left press on `t` captures. -/
def pressCaptures (t : NodeId) : Handler Unit := do
  if ← ask then
    store .dragRange (some t)
    if ← ask then let _ ← dispatch react (t :: held) (some t)
  if ← ask then selectionClear
  if ← ask then pressPlain

/-- A press focuses its target if it can be, and nothing else. -/
def focusedBy (t : NodeId) : Handler (Option NodeId) := do
  return if ← ask then some t else none

/-- The press half of `mini_events_handle_mouse_button`. -/
def pressOn (button : Nat) (t : NodeId) : Handler Unit := do
  store .pressTarget (some t)
  setFlags fun s => { s with buttonsMask := s.buttonsMask ||| maskBit (w3cButton button) }
  let prevented ← dispatch react (t :: held) (some t)
  let focused ← focusedBy t
  if w3cButton button = 0 ∧ prevented = false then
    miniEventsFocus react (t :: held) focused
    pressCaptures react held t
  else miniEventsFocus react held focused

/-- The drags end with the button. -/
def releaseDrags : Handler Unit := do
  setFlags fun s => { s with isSelecting := false }
  if (← read .dndSource).isSome then dndEnd react held
  store .moveNode none
  let r ← read .dragRange
  if r.isSome then
    store .dragRange none
    if ← ask then let _ ← dispatch react held r

/-- `click_tgt` -/
def clickedBy (t : NodeId) : Handler (Option NodeId) := do
  match ← read .pressTarget with
  | none => return some t
  | some p =>
      if t = p then return some t
      else if ← ask then return some p
      else if ← ask then return some t
      else return none

/-- A click, the change of a checkbox, and the second click. -/
def leftClick (t c : NodeId) : Handler Unit := do
  if (← dispatch react (t :: held) (some c)) = false then
    let _ ← dispatch react (t :: held) (← askNode)
  if (← read .lastClickTarget) = some t ∧ (← ask) then
    let _ ← dispatch react held (some t)
    store .lastClickTarget none
  else store .lastClickTarget (some t)

/-- The release half of `mini_events_handle_mouse_button`. -/
def releaseOn (button : Nat) (t : NodeId) : Handler Unit := do
  let w3c := w3cButton button
  let later := if w3c = 0 then t :: held else held
  releaseDrags react later
  let _ ← read .pressTarget
  setFlags fun s => { s with buttonsMask := s.buttonsMask &&& ~~~maskBit w3c }
  let _ ← dispatch react later (some t)
  match ← clickedBy t with
  | some c =>
      if w3c = 0 then leftClick react held t c
      else if w3c = 2 then let _ ← dispatch react held (some t)
  | none => if w3c = 2 then let _ ← dispatch react held (some t)
  store .pressTarget none

/-- `mini_events_handle_mouse_button`, past the gestures of the middle button and a press
on the scrollbar. -/
def miniEventsHandleMouseButton (button : Nat) (isPress : Bool) : Handler Unit := do
  let t ← orRoot (← askNode)
  let aside ← ask
  if button = 2 ∨ w3cButton button = 1 then
    if isPress = false ∧ aside = true then react held
  else if isPress then
    if w3cButton button ≠ 0 ∨ aside = false then pressOn react held button t
  else releaseOn react held button t

/-! ## The keyboard, the wheel and the host -/

/-- The text selected on the page: `mini_events_selection_text`, and
`mini_events_node_selection_range` of the renderer. -/
def miniEventsSelectionText : Handler Unit := do
  let _ ← read .selAnchor
  let _ ← read .selFocus

/-- A key or a character edits the focused field. -/
def editFocused : Handler Unit := do
  if (← read .focus).isSome then
    if ← ask then
      let n ← read .focus
      if ← ask then let _ ← dispatch react held n

/-- `Ctrl+A` and `Ctrl+C`: of the focused field, else of the page. -/
def keyShortcuts : Handler Unit := do
  let selectsAll ← ask
  if selectsAll = true then
    if (← read .focus).isSome ∧ (← ask) then let _ ← read .focus
    else miniEventsSelectAll
  let copies ← ask
  if copies = true then
    if (← read .focus).isSome ∧ (← ask) then let _ ← read .focus
    else miniEventsSelectionText

/-- `Tab` -/
def tabFocus : Handler Unit := do
  if ← ask then
    let _ ← read .focus
    let nxt ← askNode
    if nxt.isSome then miniEventsFocus react held nxt

/-- `mini_events_handle_key` -/
def miniEventsHandleKey (keydown : Bool) : Handler Unit := do
  let _ ← dispatch react held (← orBody (← read .focus))
  if keydown then
    tabFocus react held
    keyShortcuts
    editFocused react held
    let prevented ← ask
    setFlags fun s => { s with suppressChar := prevented }

/-- `mini_events_handle_char` -/
def miniEventsHandleChar : Handler Unit := do
  if (← get).flags.suppressChar then setFlags fun s => { s with suppressChar := false }
  else editFocused react held

/-- `mini_events_handle_wheel` -/
def miniEventsHandleWheel : Handler Unit := do
  let prevented ← dispatch react held (← orBody (← askNode))
  let scrolled ← ask
  if prevented = false ∧ scrolled = true then
    let _ ← dispatch react held (← orBody none)

/-- `mini_events_handle_drop_files` -/
def miniEventsHandleDropFiles : Handler Unit := do
  let hit ← orBody (← askNode)
  store .dndSource none
  store .dropTarget hit
  setFlags fun s => { s with dropAllowed := true }
  let _ ← dispatch react held hit
  let _ ← dispatch react held hit
  let _ ← dispatch react held hit

/-- `mini_events_release_capture` -/
def miniEventsReleaseCapture : Handler Unit := do
  let _ ← read .dragRange
  store .dragRange none
  store .dndSource none
  store .moveNode none
  setFlags fun s => { s with dndStarted := false, isSelecting := false }
  let _ ← read .pressTarget
  store .pressTarget none

/-- A call that names a node which is gone is not made. -/
def EventState.Names (s : EventState) (n : Option NodeId) : Prop := ∀ m ∈ n, s.Exists m

instance (s : EventState) (n : Option NodeId) : Decidable (s.Names n) :=
  inferInstanceAs (Decidable (∀ m ∈ n, s.Exists m))

/-- One call. -/
def perform : Call → Handler Unit
  | .mouseMove => miniEventsHandleMouseMove react held
  | .mouseButton button isPress => miniEventsHandleMouseButton react held button isPress
  | .key keydown => miniEventsHandleKey react held keydown
  | .char => miniEventsHandleChar react held
  | .wheel => miniEventsHandleWheel react held
  | .resize => do let _ ← dispatch react held (← orBody none)
  | .dropFiles => miniEventsHandleDropFiles react held
  | .focus n => do if (← get).Names n then miniEventsFocus react held n
  | .releaseCapture => miniEventsReleaseCapture
  | .selectAll => miniEventsSelectAll
  | .selectionText => miniEventsSelectionText
  | .activeElement => do let _ ← read .focus
  | .addListener r => do
      if (← get).Names r.target then
        modify fun s => { s with registry := (miniEventsAddListener s.registry r).2 }
  | .removeListener h =>
      modify fun s => { s with registry := miniEventsRemoveListener s.registry h }
  | .destroy n => destroy held n

/-- Call after call, and `next` after each. -/
def performAll (next : Handler Unit) : List Call → Handler Unit
  | [] => return
  | c :: calls => do
      perform react held c
      next
      performAll next calls

end Handlers

/-- What the listeners of a dispatch do: the table is scanned before the first and after
each.  `depth` bounds how deep their own calls nest. -/
def react : Nat → List NodeId → Handler Unit
  | 0, _ => scanListeners
  | depth + 1, held => do
      scanListeners
      let calls ← askCalls
      performAll (react depth) held scanListeners calls

/-- The calls of the host, one after another. -/
def run (depth : Nat) (calls : List Call) (s : EventState) : EventState :=
  (performAll (react depth) [] (pure ()) calls s).2

end TinyFramework.Events.References
