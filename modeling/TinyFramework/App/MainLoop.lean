/-
  App/MainLoop.lean --- the marks that make the main loop repaint.

  `mini_app_run` lays out and renders when a mark of the document or of the loop says
  so.  The marks are set by the mutators, cleared at the start of
  `mini_dom_tick_frame`, by the layout and at the end of a frame, and the idle gate
  tests some of them.  Trees are counted: `tree` is the number of mutations so far,
  `laidOut` the tree of the last layout, `rendered` the layout the last render showed.
-/
import Mathlib.Data.List.Basic

set_option autoImplicit false

namespace TinyFramework.App

/-! ## Mutations -/

/-- A call that changes the tree or an attribute.  `insertBefore` is the path with a
reference child; `moved` says that the new child had a parent. -/
inductive DomMutation where
  | append
  | appendFragment
  | insertBefore (moved : Bool)
  | remove
  | setAttribute
  | removeAttribute
  deriving DecidableEq, Repr

/-- The call comes to `notify_mutation`. -/
def DomMutation.marks : DomMutation → Bool
  | append => true
  | appendFragment => false
  | insertBefore moved => moved
  | remove => true
  | setAttribute => true
  | removeAttribute => true

/-- The marks of the document, `g_input_dirty`, and the three counts. -/
structure LoopState where
  dirty : Bool
  layoutDirty : Bool
  paintDirty : Bool
  activeEffects : Bool
  inputDirty : Bool
  tree : Nat
  laidOut : Nat
  rendered : Nat
  deriving DecidableEq, Repr

namespace LoopState

def mutate (s : LoopState) (m : DomMutation) : LoopState :=
  { s with
    tree := s.tree + 1
    dirty := s.dirty || m.marks
    paintDirty := s.paintDirty || m.marks }

/-- The mutations made by a callback, a command or a job. -/
def mutations (s : LoopState) (ms : List DomMutation) : LoopState :=
  ms.foldl mutate s

/-! ## The steps of the loop -/

/-- `mini_layout_run` -/
def miniLayoutRun (s : LoopState) : LoopState :=
  { s with layoutDirty := false, laidOut := s.tree }

/-- `mini_dom_tick_frame` on a page without running transitions and animations.
`stamped` says that `apply_animations` comes to a node with `dirty_layout` or
`dirty_paint`, `canvas` that canvas commands wait to be drawn. -/
def miniDomTickFrame (s : LoopState) (stamped canvas : Bool) : LoopState :=
  { s with dirty := stamped, activeEffects := canvas, paintDirty := canvas }

/-- `mini_dom_restyle`; without a stylesheet it returns at once. -/
def miniDomRestyle (s : LoopState) (css : Bool) : LoopState :=
  if css then { s with layoutDirty := true } else s

/-- `mini_dom_render_into`: it shows the geometry of the last layout. -/
def miniDomRenderInto (s : LoopState) : LoopState :=
  { s with rendered := s.laidOut }

end LoopState

/-- What one iteration finds: the mutations made in each of its steps, input, and the
other reasons to draw a frame.  Those of the idle branch and those of the frame are
used in the branch taken. -/
structure Iteration where
  poll : List DomMutation := []
  pollInput : Bool := false
  cdp : List DomMutation := []
  viewportChanged : Bool := false
  events : Bool := true
  resize : List DomMutation := []
  stamped : Bool := false
  canvas : Bool := false
  pump : List DomMutation := []
  pendingRaf : Bool := false
  emuActive : Bool := false
  frameCap : Bool := false
  secNeed : Bool := false
  overlay : Bool := false
  css : Bool := true
  idleCdp : List DomMutation := []
  wait : List DomMutation := []
  waitInput : Bool := false
  wakeCdp : List DomMutation := []
  raf : List DomMutation := []
  finalPump : List DomMutation := []
  lastCdp : List DomMutation := []

namespace Iteration

/-- The handling of a changed viewport. -/
def handleResize (it : Iteration) (s : LoopState) : LoopState :=
  if it.viewportChanged then
    let s := { s with dirty := true, layoutDirty := true }
    if it.events then s.miniLayoutRun.mutations it.resize else s
  else s

/-- From the top of the loop to the idle gate. -/
def toGate (it : Iteration) (s : LoopState) : LoopState :=
  let s := s.mutations it.poll
  let s := { s with inputDirty := s.inputDirty || it.pollInput }
  let s := s.mutations it.cdp
  let s := it.handleResize s
  let s := s.miniDomTickFrame it.stamped it.canvas
  s.mutations it.pump

/-- `need_frame`; no text field has the focus. -/
def needFrame (it : Iteration) (s : LoopState) : Bool :=
  s.inputDirty || it.viewportChanged || it.pendingRaf || s.dirty || s.activeEffects ||
    it.emuActive || it.frameCap || it.secNeed || it.overlay

/-- The branch that draws. -/
def frame (it : Iteration) (s : LoopState) : LoopState :=
  let s := if s.dirty || s.inputDirty || it.viewportChanged then s.miniDomRestyle it.css else s
  let s := { s with inputDirty := false }
  let s := if s.dirty || s.layoutDirty then s.miniLayoutRun else s
  let s := s.mutations it.raf
  let s := s.miniDomRenderInto
  let s := s.mutations it.finalPump
  let s := { s with dirty := false }
  s.mutations it.lastCdp

/-- The state at the idle wait, when the iteration comes to it. -/
def atWait (it : Iteration) (s : LoopState) : Option LoopState :=
  let s := it.toGate s
  if it.needFrame s then none else some (s.mutations it.idleCdp)

/-- One iteration. -/
def exec (it : Iteration) (s : LoopState) : LoopState :=
  match it.atWait s with
  | none => it.frame (it.toGate s)
  | some s =>
      let s := s.mutations it.wait
      let s := { s with inputDirty := s.inputDirty || it.waitInput }
      s.mutations it.wakeCdp

end Iteration

def loopRun (s : LoopState) (its : List Iteration) : LoopState :=
  its.foldl (fun s it => it.exec s) s

/-- The state at the top of the loop: the page is laid out and nothing is marked but
`g_input_dirty`, which is set until the first frame. -/
def loopStart : LoopState where
  dirty := false
  layoutDirty := false
  paintDirty := false
  activeEffects := false
  inputDirty := true
  tree := 0
  laidOut := 0
  rendered := 0

/-- Every mutation was followed by a layout and after it a render when the loop comes to
its idle wait. -/
def NoLostRepaint (its : List Iteration) : Prop :=
  ∀ pre it, pre ++ [it] <+: its → ∀ s, it.atWait (loopRun loopStart pre) = some s →
    s.rendered = s.tree

/-! ## The condition -/

/-- The iteration lays out after its pump: a job marked the document or the tick came to
a stamped node, or there is a stylesheet and input or a new viewport. -/
def layoutDue (s : LoopState) (it : Iteration) : Bool :=
  it.stamped || it.pump.any DomMutation.marks ||
    (it.css && (s.inputDirty || it.pollInput || it.viewportChanged)) ||
    (it.viewportChanged && !it.events)

/-- The condition on an iteration and the state before it: it lays out when a mutation
is not laid out yet or is made before its gate, and the poll right before the idle wait
makes none. -/
def iterationSafe (s : LoopState) (it : Iteration) : Prop :=
  (s.laidOut ≠ s.tree ∨ it.poll ++ it.cdp ++ it.resize ++ it.pump ≠ [] → layoutDue s it = true) ∧
    it.idleCdp = []

def SafeLoop : LoopState → List Iteration → Prop
  | _, [] => True
  | s, it :: its => iterationSafe s it ∧ SafeLoop (it.exec s) its

/-! ## What an iteration keeps -/

namespace LoopState

variable {s : LoopState} {ms : List DomMutation}

theorem mutations_tree (s : LoopState) (ms : List DomMutation) :
    (s.mutations ms).tree = s.tree + ms.length := by
  induction ms generalizing s with
  | nil => rfl
  | cons m ms ih =>
    have hone : (s.mutate m).tree = s.tree + 1 := rfl
    rw [mutations, List.foldl_cons, ← mutations, ih, hone, List.length_cons, Nat.add_assoc,
      Nat.add_comm 1]

/-- A mutation sets the marks of the document only. -/
theorem mutations_kept (s : LoopState) (ms : List DomMutation) :
    (s.mutations ms).layoutDirty = s.layoutDirty ∧ (s.mutations ms).inputDirty = s.inputDirty ∧
      (s.mutations ms).activeEffects = s.activeEffects ∧
      (s.mutations ms).laidOut = s.laidOut ∧ (s.mutations ms).rendered = s.rendered := by
  induction ms generalizing s with
  | nil => exact ⟨rfl, rfl, rfl, rfl, rfl⟩
  | cons m ms ih => exact ih (s.mutate m)

theorem mutations_dirty (s : LoopState) (ms : List DomMutation) :
    (s.mutations ms).dirty = (s.dirty || ms.any DomMutation.marks) := by
  induction ms generalizing s with
  | nil => simp [mutations]
  | cons m ms ih =>
    rw [mutations, List.foldl_cons, ← mutations, ih, List.any_cons, mutate, Bool.or_assoc]

end LoopState

/-- Between two iterations: no layout is due, and the last layout was rendered. -/
structure Settled (s : LoopState) : Prop where
  layoutDirty : s.layoutDirty = false
  rendered : s.rendered = s.laidOut

section Iterations

variable {s : LoopState} {it : Iteration}

/-- The state at the gate. -/
structure AtGate (s g : LoopState) (it : Iteration) : Prop where
  dirty : g.dirty = (it.stamped || it.pump.any DomMutation.marks)
  inputDirty : g.inputDirty = (s.inputDirty || it.pollInput)
  activeEffects : g.activeEffects = it.canvas
  layoutDirty : g.layoutDirty = (it.viewportChanged && !it.events)
  rendered : g.rendered = s.rendered
  idle : it.viewportChanged = false → g.laidOut = s.laidOut ∧
    g.tree = s.tree + it.poll.length + it.cdp.length + it.pump.length

theorem handleResize_spec (it : Iteration) (s : LoopState) :
    (it.handleResize s).inputDirty = s.inputDirty ∧ (it.handleResize s).rendered = s.rendered ∧
      (it.handleResize s).layoutDirty =
        (if it.viewportChanged then !it.events else s.layoutDirty) ∧
      (it.viewportChanged = false → it.handleResize s = s) := by
  unfold Iteration.handleResize
  dsimp only
  split_ifs with hview hevents
  · obtain ⟨hlayout, hinput, -, -, hrendered⟩ := LoopState.mutations_kept
      ({ s with dirty := true, layoutDirty := true } : LoopState).miniLayoutRun it.resize
    refine ⟨hinput, hrendered, ?_, fun hno => ?_⟩
    · rw [hlayout, hevents]
      rfl
    · rw [hview] at hno
      cases hno
  · refine ⟨rfl, rfl, ?_, fun hno => ?_⟩
    · rw [Bool.not_eq_true] at hevents
      rw [hevents]
      rfl
    · rw [hview] at hno
      cases hno
  · exact ⟨rfl, rfl, rfl, fun _ => rfl⟩

theorem atGate (h : Settled s) (it : Iteration) : AtGate s (it.toGate s) it := by
  have hkept := LoopState.mutations_kept
  unfold Iteration.toGate
  dsimp only
  set polled : LoopState := { s.mutations it.poll with
    inputDirty := (s.mutations it.poll).inputDirty || it.pollInput } with hpolled
  obtain ⟨hinput, hrendered, hlayout, hsame⟩ := handleResize_spec it (polled.mutations it.cdp)
  constructor
  case dirty => rw [LoopState.mutations_dirty, LoopState.miniDomTickFrame]
  case inputDirty =>
    rw [(hkept _ _).2.1, LoopState.miniDomTickFrame, hinput, (hkept _ _).2.1, hpolled,
      (hkept _ _).2.1]
  case activeEffects => rw [(hkept _ _).2.2.1, LoopState.miniDomTickFrame]
  case layoutDirty =>
    rw [(hkept _ _).1, LoopState.miniDomTickFrame, hlayout, (hkept _ _).1, hpolled, (hkept _ _).1,
      h.layoutDirty]
    cases it.viewportChanged <;> rfl
  case rendered =>
    rw [(hkept _ _).2.2.2.2, LoopState.miniDomTickFrame, hrendered, (hkept _ _).2.2.2.2, hpolled,
      (hkept _ _).2.2.2.2]
  case idle =>
    intro hview
    rw [(hkept _ _).2.2.2.1, LoopState.mutations_tree, LoopState.miniDomTickFrame, hsame hview,
      (hkept _ _).2.2.2.1, LoopState.mutations_tree, hpolled, (hkept _ _).2.2.2.1,
      LoopState.mutations_tree]
    exact ⟨rfl, rfl⟩

/-- What is due at the gate takes the frame branch. -/
theorem needFrame_of_layoutDue (h : Settled s) (hdue : layoutDue s it = true) :
    it.needFrame (it.toGate s) = true := by
  have hgate := atGate h it
  unfold Iteration.needFrame
  rw [hgate.dirty, hgate.inputDirty]
  revert hdue
  simp only [layoutDue, Bool.or_eq_true, Bool.and_eq_true]
  tauto

/-- A frame renders its last layout, and lays out when that is due. -/
theorem frame_spec (it : Iteration) (g : LoopState) :
    (it.frame g).layoutDirty = false ∧ (it.frame g).rendered = (it.frame g).laidOut ∧
      (it.frame g).laidOut = if g.dirty || g.layoutDirty ||
        (it.css && (g.inputDirty || it.viewportChanged)) then g.tree else g.laidOut := by
  have hkept := LoopState.mutations_kept
  unfold Iteration.frame
  simp only [(hkept _ _).1, (hkept _ _).2.2.2.1, (hkept _ _).2.2.2.2,
    LoopState.miniDomRenderInto, LoopState.miniDomRestyle, LoopState.miniLayoutRun]
  obtain ⟨dirty, layoutDirty, paintDirty, effects, inputDirty, tree, laidOut, rendered⟩ := g
  generalize it.viewportChanged = view
  generalize it.css = css
  cases dirty <;> cases layoutDirty <;> cases inputDirty <;> cases view <;> cases css <;> simp

/-- The step: a safe iteration idles only when everything is rendered. -/
theorem iteration_step (h : Settled s) (hsafe : iterationSafe s it) :
    Settled (it.exec s) ∧ ∀ w, it.atWait s = some w → w.rendered = w.tree := by
  have hgate := atGate h it
  have hkept := LoopState.mutations_kept
  cases hneed : it.needFrame (it.toGate s) with
  | true =>
    obtain ⟨hlayout, hrendered, -⟩ := frame_spec it (it.toGate s)
    have hwait : it.atWait s = none := if_pos hneed
    refine ⟨?_, fun w hw => ?_⟩
    · rw [Iteration.exec, hwait]
      exact ⟨hlayout, hrendered⟩
    · rw [hwait] at hw
      cases hw
  | false =>
    have hwait : it.atWait s = some (it.toGate s) := by
      rw [Iteration.atWait, hneed, hsafe.2]
      rfl
    have hnotdue : layoutDue s it ≠ true := fun hdue => by
      rw [needFrame_of_layoutDue h hdue] at hneed
      cases hneed
    have hview : it.viewportChanged = false := by
      revert hneed
      unfold Iteration.needFrame
      cases it.viewportChanged <;> simp
    -- nothing was outstanding, and nothing was made before the gate
    have hquiet := mt hsafe.1 hnotdue
    rw [not_or, not_not, not_not, List.append_eq_nil_iff, List.append_eq_nil_iff,
      List.append_eq_nil_iff] at hquiet
    obtain ⟨hlaid, ⟨⟨hpoll, hcdp⟩, -⟩, hpump⟩ := hquiet
    obtain ⟨hidle, htree⟩ := hgate.idle hview
    rw [hpoll, hcdp, hpump] at htree
    refine ⟨?_, fun w hw => ?_⟩
    · rw [Iteration.exec, hwait]
      refine ⟨?_, ?_⟩
      · rw [(hkept _ _).1, (hkept _ _).1, hgate.layoutDirty, hview]
        rfl
      · simp only [(hkept _ _).2.2.2.2, (hkept _ _).2.2.2.1, hgate.rendered, hidle, h.rendered]
    · rw [hwait] at hw
      obtain rfl := Option.some.inj hw
      rw [hgate.rendered, h.rendered, htree]
      exact hlaid

end Iterations

/-! ## Runs -/

theorem SafeLoop.append {s : LoopState} {pre post : List Iteration}
    (h : SafeLoop s (pre ++ post)) : SafeLoop s pre ∧ SafeLoop (loopRun s pre) post := by
  induction pre generalizing s with
  | nil => exact ⟨trivial, h⟩
  | cons it pre ih =>
    obtain ⟨hpre, hpost⟩ := ih h.2
    exact ⟨⟨h.1, hpre⟩, hpost⟩

theorem Settled.run {s : LoopState} (h : Settled s) {its : List Iteration}
    (hsafe : SafeLoop s its) : Settled (loopRun s its) := by
  induction its generalizing s with
  | nil => exact h
  | cons it its ih => exact ih (iteration_step h hsafe.1).1 hsafe.2

/-- In every run whose iterations all meet the condition, no repaint is lost. -/
theorem noLostRepaint_of_safeLoop {its : List Iteration} (hsafe : SafeLoop loopStart its) :
    NoLostRepaint its := by
  rintro pre it ⟨rest, rfl⟩ w hw
  obtain ⟨hpre, hlast⟩ := hsafe.append.1.append
  have hstart : Settled loopStart := ⟨rfl, rfl⟩
  exact (iteration_step (hstart.run hpre) hlast.1).2 w hw

/-- A job inserts a node in an idle page, and the page is idle again afterwards. -/
def jobRun : List Iteration :=
  [{}, { pump := [.append, .appendFragment] }, {}]

theorem noLostRepaint_of_safeLoop_job : NoLostRepaint jobRun := by
  refine noLostRepaint_of_safeLoop ⟨⟨by decide, rfl⟩, ⟨by decide, rfl⟩, ⟨by decide, rfl⟩, trivial⟩

/-- A command of the inspector removes a node: the tick clears the mark before the idle
gate sees it. -/
theorem cdp_removal_lost : ¬ NoLostRepaint [{}, { cdp := [.remove] }] := by
  intro h
  have hwait := h [{}] { cdp := [.remove] } List.prefix_rfl
    ((Iteration.toGate { cdp := [.remove] }) (loopRun loopStart [{}])) rfl
  revert hwait
  decide

end TinyFramework.App
