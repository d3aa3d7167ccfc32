/-
  Events/MouseButtons.lean --- presses, releases and the clicks between them.

  `mini_events_handle_mouse_button` over a document that does not change.  What is hit by
  an event is given with it, so every position and every scroll offset is covered; of the
  dispatched events those of the mouse are kept, with their targets.
-/
import Mathlib.Algebra.Order.Ring.Rat
import TinyFramework.Dom.DocumentOrder

set_option autoImplicit false

namespace TinyFramework.Events

open TinyFramework.Foundation TinyFramework.Dom

/-- A laid out document; `root` is there from its creation. -/
structure PointerDoc where
  heap : NodeHeap
  body : Option NodeId
  root : NodeId
  wellFormed : WellFormed heap
  body_lt : ∀ b, body = some b → b < heap.size
  root_lt : root < heap.size

inductive MouseEventType where
  | mousedown
  | mouseup
  | click
  | dblclick
  | contextmenu
  deriving DecidableEq, Repr

/-- A dispatched event and its target. -/
abbrev Dispatched := MouseEventType × NodeId

/-- The fields of `MiniEventState` that buttons read and write. -/
structure MouseState where
  pressTarget : Option NodeId := none
  pressButton : Nat := 0
  buttonsMask : BitVec 32 := 0
  dragScrollbar : Bool := false
  gestureActive : Bool := false
  lastClickTarget : Option NodeId := none
  lastClickTime : ℚ := 0
  deriving DecidableEq

/-- The calls: a press with what is hit and whether the scrollbar is, a release with what is
hit and the time, a move. -/
inductive MouseEvent where
  | press (button : Nat) (hit : Option NodeId) (onScrollbar : Bool)
  | release (button : Nat) (hit : Option NodeId) (now : ℚ)
  | move
  deriving DecidableEq

/-! ## The handler -/

/-- GLFW 0=left 1=right 2=middle -> W3C 0=left 2=right 1=middle -/
def w3cButton (button : Nat) : Nat :=
  if button = 0 then 0 else if button = 1 then 2 else 1

/-- `mask_bit` -/
def maskBit (w3c : Nat) : BitVec 32 :=
  if w3c = 0 then 1 else if w3c = 2 then 2 else 4

namespace PointerDoc

variable (doc : PointerDoc)

/-- `t`: what is hit, else the body, else the root. -/
def under (hit : Option NodeId) : NodeId := hit.getD (doc.body.getD doc.root)

/-- `click_tgt` -/
def clickTgt (t : NodeId) (pressTarget : Option NodeId) : Option NodeId :=
  match pressTarget with
  | some p =>
      if t = p then some t
      else if miniIsAnc doc.heap p t then some p
      else if miniIsAnc doc.heap t p then some t
      else none
  | none => some t

/-- The press half of `mini_events_handle_mouse_button`. -/
def press (s : MouseState) (button : Nat) (hit : Option NodeId) (onScrollbar : Bool) :
    MouseState × List Dispatched :=
  let t := doc.under hit
  let w3c := w3cButton button
  if button = 2 ∨ w3c = 1 then ({ s with gestureActive := true }, [])
  else if w3c = 0 ∧ onScrollbar = true then ({ s with dragScrollbar := true }, [])
  else
    ({ s with
        pressTarget := some t
        pressButton := button
        buttonsMask := s.buttonsMask ||| maskBit w3c },
      [(.mousedown, t)])

/-- The dispatches of a left release that clicks, and what it remembers of the click. -/
def clicked (s : MouseState) (t c : NodeId) (now : ℚ) : MouseState × List Dispatched :=
  if some t = s.lastClickTarget ∧ now - s.lastClickTime < 1 / 2 then
    ({ s with lastClickTarget := none }, [(.click, c), (.dblclick, t)])
  else ({ s with lastClickTarget := some t, lastClickTime := now }, [(.click, c)])

/-- The release half of `mini_events_handle_mouse_button`. -/
def release (s : MouseState) (button : Nat) (hit : Option NodeId) (now : ℚ) :
    MouseState × List Dispatched :=
  let t := doc.under hit
  let w3c := w3cButton button
  if button = 2 ∨ w3c = 1 then ({ s with gestureActive := false }, [])
  else
    let s := { s with dragScrollbar := false, buttonsMask := s.buttonsMask &&& ~~~maskBit w3c }
    let (s, out) :=
      match doc.clickTgt t s.pressTarget with
      | some c => if w3c = 0 then clicked s t c now else (s, [(.contextmenu, t)])
      | none => if w3c = 2 then (s, [(.contextmenu, t)]) else (s, [])
    ({ s with pressTarget := none }, (.mouseup, t) :: out)

/-- One call; a move touches none of these fields. -/
def handle (s : MouseState) : MouseEvent → MouseState × List Dispatched
  | .press button hit onScrollbar => doc.press s button hit onScrollbar
  | .release button hit now => doc.release s button hit now
  | .move => (s, [])

end PointerDoc

/-! ## What has been seen -/

/-- What the host and the listeners have seen: the element of the latest left press since
the last left release, if that press was dispatched, and the buttons held by a dispatched
press. -/
structure Seen where
  leftPress : Option NodeId := none
  left : Bool := false
  right : Bool := false
  deriving DecidableEq

/-- The element that a `mousedown` went to. -/
def downTarget (out : List Dispatched) : Option NodeId :=
  (out.find? fun d => d.1 == .mousedown).map Prod.snd

def Seen.observe (seen : Seen) (out : List Dispatched) : MouseEvent → Seen
  | .press 0 _ _ =>
      { seen with leftPress := downTarget out, left := seen.left || (downTarget out).isSome }
  | .press 1 _ _ => { seen with right := seen.right || (downTarget out).isSome }
  | .release 0 _ _ => { seen with leftPress := none, left := false }
  | .release 1 _ _ => { seen with right := false }
  | _ => seen

/-- A state and what led to it. -/
structure MouseHistory where
  state : MouseState := {}
  seen : Seen := {}
  deriving DecidableEq

namespace PointerDoc

variable (doc : PointerDoc)

def step (h : MouseHistory) (event : MouseEvent) : MouseHistory where
  state := (doc.handle h.state event).1
  seen := h.seen.observe (doc.handle h.state event).2 event

/-- The history after a sequence of calls. -/
def mouseRun (h : MouseHistory) (events : List MouseEvent) : MouseHistory :=
  events.foldl doc.step h

/-- The click a left release over `t` is to dispatch: on the one of the two elements that
contains the other. -/
def ClickDue (seen : Seen) (t c : NodeId) : Prop :=
  ∃ p, seen.leftPress = some p ∧
    (c = p ∧ Below doc.heap.parentOf t p ∨ c = t ∧ Below doc.heap.parentOf p t)

/-- The call dispatches the clicks that are due, and no others. -/
def ClicksMatch (h : MouseHistory) (event : MouseEvent) : Prop :=
  ∀ c, (MouseEventType.click, c) ∈ (doc.handle h.state event).2 ↔
    ∃ hit now, event = .release 0 hit now ∧ doc.ClickDue h.seen (doc.under hit) c

/-- The mask of the buttons that are held. -/
def heldMask (seen : Seen) : BitVec 32 :=
  (if seen.left then 1 else 0) ||| (if seen.right then 2 else 0)

/-! ## When they match -/

/-- Off the scrollbar, and between a left press and its release no other button than the
middle one; and no left release without a press. -/
def ownsLeft (s : MouseState) : MouseEvent → Bool
  | .press 0 _ onScrollbar => !onScrollbar
  | .press 1 _ _ => s.buttonsMask &&& 1 == 0
  | .release 0 _ _ => s.buttonsMask &&& 1 != 0
  | .release 1 _ _ => s.buttonsMask &&& 1 == 0
  | _ => true

/-- Every call of the sequence is made so. -/
def SafeClicks : MouseHistory → List MouseEvent → Prop
  | _, [] => True
  | h, event :: events => ownsLeft h.state event = true ∧ SafeClicks (doc.step h event) events

variable {doc : PointerDoc} {h : MouseHistory} {event : MouseEvent}

theorem w3cButton_of_two_le {button : Nat} (hbutton : 2 ≤ button) : w3cButton button = 1 := by
  unfold w3cButton
  split_ifs <;> omega

/-- A press of a further button is taken for a gesture. -/
theorem press_middle {s : MouseState} {button : Nat} (hbutton : 2 ≤ button)
    (hit : Option NodeId) (onScrollbar : Bool) :
    doc.press s button hit onScrollbar = ({ s with gestureActive := true }, []) := by
  unfold press
  simp [w3cButton_of_two_le hbutton]

theorem release_middle {s : MouseState} {button : Nat} (hbutton : 2 ≤ button)
    (hit : Option NodeId) (now : ℚ) :
    doc.release s button hit now = ({ s with gestureActive := false }, []) := by
  unfold release
  simp [w3cButton_of_two_le hbutton]

theorem press_left (doc : PointerDoc) (s : MouseState) (hit : Option NodeId) (onScrollbar : Bool) :
    doc.press s 0 hit onScrollbar =
      if onScrollbar = true then ({ s with dragScrollbar := true }, [])
      else
        ({ s with
            pressTarget := some (doc.under hit), pressButton := 0
            buttonsMask := s.buttonsMask ||| 1 },
          [(.mousedown, doc.under hit)]) := by
  simp [press, w3cButton, maskBit]

theorem press_right (doc : PointerDoc) (s : MouseState) (hit : Option NodeId) (onScrollbar : Bool) :
    doc.press s 1 hit onScrollbar =
      ({ s with
          pressTarget := some (doc.under hit), pressButton := 1
          buttonsMask := s.buttonsMask ||| 2 },
        [(.mousedown, doc.under hit)]) := by
  simp [press, w3cButton, maskBit]

theorem clicked_fields {s : MouseState} {t c : NodeId} {now : ℚ} :
    (clicked s t c now).1.buttonsMask = s.buttonsMask ∧
      ∀ a, (MouseEventType.click, a) ∈ (clicked s t c now).2 ↔ a = c := by
  unfold clicked
  split_ifs <;> simp

/-- A left release: the mask, the press target, and the clicks. -/
theorem release_left (doc : PointerDoc) (s : MouseState) (hit : Option NodeId) (now : ℚ) :
    (doc.release s 0 hit now).1.buttonsMask = s.buttonsMask &&& ~~~1 ∧
      (doc.release s 0 hit now).1.pressTarget = none ∧
      ∀ a, (MouseEventType.click, a) ∈ (doc.release s 0 hit now).2 ↔
        doc.clickTgt (doc.under hit) s.pressTarget = some a := by
  unfold release
  simp only [w3cButton, maskBit, if_true]
  rw [if_neg (by decide)]
  cases htgt : doc.clickTgt (doc.under hit) s.pressTarget with
  | none => simp
  | some c =>
    obtain ⟨hmask, hclick⟩ := @clicked_fields
      { s with dragScrollbar := false, buttonsMask := s.buttonsMask &&& ~~~1 } (doc.under hit) c now
    refine ⟨hmask, rfl, fun a => ⟨fun hmem => ?_, fun heq => ?_⟩⟩
    · have hout := (List.mem_cons.1 hmem).resolve_left (by simp)
      rw [(hclick a).1 hout]
    · exact List.mem_cons_of_mem _ ((hclick a).2 (Option.some.inj heq).symm)

/-- A right release clicks nothing. -/
theorem release_right (doc : PointerDoc) (s : MouseState) (hit : Option NodeId) (now : ℚ) :
    (doc.release s 1 hit now).1.buttonsMask = s.buttonsMask &&& ~~~2 ∧
      (doc.release s 1 hit now).1.pressTarget = none ∧
      ∀ a, (MouseEventType.click, a) ∉ (doc.release s 1 hit now).2 := by
  unfold release
  simp only [w3cButton, maskBit]
  rw [if_neg (by decide)]
  cases doc.clickTgt (doc.under hit) s.pressTarget <;> simp

/-! ## Runs -/

theorem heldMask_left (seen : Seen) : heldMask seen &&& 1 = if seen.left then 1 else 0 := by
  cases hl : seen.left <;> cases hr : seen.right <;> simp [heldMask, hl, hr]

/-- The mask is kept by every call. -/
theorem mask_step (hmask : h.state.buttonsMask = heldMask h.seen) :
    (doc.step h event).state.buttonsMask = heldMask (doc.step h event).seen := by
  have hbits : ∀ l r : Bool,
      (((if l then 1 else 0) ||| (if r then 2 else 0) : BitVec 32) ||| 1 =
          (if true then 1 else 0) ||| (if r then 2 else 0)) ∧
        (((if l then 1 else 0) ||| (if r then 2 else 0) : BitVec 32) ||| 2 =
          (if l then 1 else 0) ||| (if true then 2 else 0)) ∧
        (((if l then 1 else 0) ||| (if r then 2 else 0) : BitVec 32) &&& ~~~1 =
          (if false then 1 else 0) ||| (if r then 2 else 0)) ∧
        (((if l then 1 else 0) ||| (if r then 2 else 0) : BitVec 32) &&& ~~~2 =
          (if l then 1 else 0) ||| (if false then 2 else 0)) := by
    decide
  obtain ⟨hor1, hor2, hand1, hand2⟩ := hbits h.seen.left h.seen.right
  unfold step handle
  cases event with
  | move => exact hmask
  | press button hit onScrollbar =>
    match button with
    | 0 =>
      dsimp only
      rw [press_left]
      by_cases hbar : onScrollbar = true
      · rw [if_pos hbar]
        simpa [Seen.observe, downTarget, heldMask] using hmask
      · rw [if_neg hbar]
        simp only [Seen.observe, downTarget, hmask, heldMask, hor1]
        simp
    | 1 =>
      dsimp only
      rw [press_right]
      simp only [Seen.observe, downTarget, hmask, heldMask, hor2]
      simp
    | button + 2 =>
      dsimp only
      rw [press_middle (Nat.le_add_left 2 button)]
      exact hmask
  | release button hit now =>
    match button with
    | 0 =>
      show (doc.release h.state 0 hit now).1.buttonsMask = _
      rw [(release_left doc h.state hit now).1, hmask]
      exact hand1
    | 1 =>
      show (doc.release h.state 1 hit now).1.buttonsMask = _
      rw [(release_right doc h.state hit now).1, hmask]
      exact hand2
    | button + 2 =>
      dsimp only
      rw [release_middle (Nat.le_add_left 2 button)]
      exact hmask

/-- The elements a call names are nodes of the document. -/
def Names (doc : PointerDoc) : MouseEvent → Prop
  | .press _ hit _ => ∀ n, hit = some n → n < doc.heap.size
  | .release _ hit _ => ∀ n, hit = some n → n < doc.heap.size
  | .move => True

theorem under_lt {hit : Option NodeId} (hhit : ∀ n, hit = some n → n < doc.heap.size) :
    doc.under hit < doc.heap.size := by
  unfold under
  cases hit with
  | some n => exact hhit n rfl
  | none =>
    cases hbody : doc.body with
    | some b => exact doc.body_lt b hbody
    | none => exact doc.root_lt

/-- While the left button is held, the press target is what it was pressed on. -/
structure LeftOwned (doc : PointerDoc) (h : MouseHistory) : Prop where
  mask : h.state.buttonsMask = heldMask h.seen
  held : h.seen.left = true → ∃ p, h.seen.leftPress = some p ∧
    h.state.pressTarget = some p ∧ p < doc.heap.size
  free : h.seen.left = false → h.seen.leftPress = none

namespace LeftOwned

theorem left_iff (hinv : doc.LeftOwned h) :
    (h.state.buttonsMask &&& 1 == 0) = !h.seen.left := by
  rw [hinv.mask, heldMask_left]
  cases h.seen.left <;> rfl

theorem left_up (hinv : doc.LeftOwned h) (hup : (h.state.buttonsMask &&& 1 == 0) = true) :
    h.seen.left = false := by
  rw [hinv.left_iff] at hup
  simpa using hup

/-- What a call of no consequence leaves is still owned. -/
theorem of_same (hinv : doc.LeftOwned h) (hseen : (doc.step h event).seen = h.seen)
    (htarget : (doc.step h event).state.pressTarget = h.state.pressTarget) :
    doc.LeftOwned (doc.step h event) where
  mask := mask_step hinv.mask
  held := by
    rw [hseen, htarget]
    exact hinv.held
  free := by
    rw [hseen]
    exact hinv.free

/-- While the left button is up, the press target may be anything. -/
theorem of_free (hinv : doc.LeftOwned h) (hleft : (doc.step h event).seen.left = false)
    (hpress : (doc.step h event).seen.leftPress = none) : doc.LeftOwned (doc.step h event) where
  mask := mask_step hinv.mask
  held := fun hheld => by
    rw [hleft] at hheld
    cases hheld
  free := fun _ => hpress

theorem step (hinv : doc.LeftOwned h) (hnames : doc.Names event)
    (hsafe : ownsLeft h.state event = true) : doc.LeftOwned (doc.step h event) := by
  cases event with
  | move => exact hinv.of_same rfl rfl
  | press button hit onScrollbar =>
    match button with
    | 0 =>
      have hbar : onScrollbar = false := by simpa [ownsLeft] using hsafe
      subst hbar
      have hstep := press_left doc h.state hit false
      simp only [Bool.false_eq_true, if_false] at hstep
      have hseen : (doc.step h (.press 0 hit false)).seen.leftPress = some (doc.under hit) := by
        show (h.seen.observe (doc.press h.state 0 hit false).2 _).leftPress = _
        rw [hstep]
        rfl
      have htarget : (doc.step h (.press 0 hit false)).state.pressTarget =
          some (doc.under hit) := by
        show (doc.press h.state 0 hit false).1.pressTarget = _
        rw [hstep]
      refine ⟨mask_step hinv.mask, fun _ => ⟨_, hseen, htarget, under_lt hnames⟩, fun hfree => ?_⟩
      have hleft : (doc.step h (.press 0 hit false)).seen.left = true := by
        show (h.seen.observe (doc.press h.state 0 hit false).2 _).left = _
        rw [hstep]
        simp [Seen.observe, downTarget]
      rw [hleft] at hfree
      cases hfree
    | 1 =>
      have hleft := hinv.left_up hsafe
      exact hinv.of_free hleft (hinv.free hleft)
    | button + 2 =>
      refine hinv.of_same rfl ?_
      show (doc.press h.state (button + 2) hit onScrollbar).1.pressTarget = _
      rw [press_middle (Nat.le_add_left 2 button)]
  | release button hit now =>
    match button with
    | 0 => exact hinv.of_free rfl rfl
    | 1 =>
      have hleft := hinv.left_up hsafe
      exact hinv.of_free hleft (hinv.free hleft)
    | button + 2 =>
      refine hinv.of_same rfl ?_
      show (doc.release h.state (button + 2) hit now).1.pressTarget = _
      rw [release_middle (Nat.le_add_left 2 button)]

end LeftOwned

/-- The click goes to the one of two elements that contains the other. -/
theorem clickTgt_iff {t p a : NodeId} (ht : t < doc.heap.size) (hp : p < doc.heap.size) :
    doc.clickTgt t (some p) = some a ↔
      a = p ∧ Below doc.heap.parentOf t p ∨ a = t ∧ Below doc.heap.parentOf p t := by
  have hanc : miniIsAnc doc.heap p t = true ↔ Below doc.heap.parentOf t p :=
    doc.wellFormed.isAnc_iff ht
  have hanc' : miniIsAnc doc.heap t p = true ↔ Below doc.heap.parentOf p t :=
    doc.wellFormed.isAnc_iff hp
  unfold clickTgt
  dsimp only
  by_cases heq : t = p
  · subst heq
    simp [Below.refl, eq_comm]
  rw [if_neg heq]
  by_cases htp : Below doc.heap.parentOf t p
  · have hnot : ¬ Below doc.heap.parentOf p t := by
      intro hpt
      rcases htp.eq_or_parent with h | ⟨q, hq, hqp⟩
      · exact heq h
      · exact doc.wellFormed.acyclic.not_below_of_parent hq (hqp.trans hpt)
    rw [if_pos (hanc.2 htp)]
    simp [htp, hnot, eq_comm]
  · rw [if_neg (mt hanc.1 htp)]
    by_cases hpt : Below doc.heap.parentOf p t
    · rw [if_pos (hanc'.2 hpt)]
      simp [htp, hpt, eq_comm]
    · rw [if_neg (mt hanc'.1 hpt)]
      simp [htp, hpt]

theorem LeftOwned.clicksMatch (hinv : doc.LeftOwned h) (hnames : doc.Names event)
    (hsafe : ownsLeft h.state event = true) : doc.ClicksMatch h event := by
  intro c
  cases event with
  | move => simp [handle]
  | press button hit onScrollbar =>
    have hnone : (MouseEventType.click, c) ∉ (doc.press h.state button hit onScrollbar).2 := by
      unfold press
      dsimp only
      split_ifs <;> simp
    exact ⟨fun hmem => absurd hmem hnone, fun ⟨_, _, heq, _⟩ => by cases heq⟩
  | release button hit now =>
    match button with
    | 0 =>
      have hleft : h.seen.left = true := by
        have hdown : (h.state.buttonsMask &&& 1 != 0) = true := hsafe
        rw [bne, hinv.left_iff, Bool.not_not] at hdown
        exact hdown
      obtain ⟨p, hpress, htarget, hp⟩ := hinv.held hleft
      have hclick := (release_left doc h.state hit now).2.2 c
      rw [htarget, clickTgt_iff (under_lt hnames) hp] at hclick
      refine hclick.trans ⟨fun hdue => ⟨hit, now, rfl, p, hpress, hdue⟩, ?_⟩
      rintro ⟨_, _, ⟨⟩, q, hq, hdue⟩
      rw [hpress] at hq
      cases hq
      exact hdue
    | 1 =>
      have hnone := (release_right doc h.state hit now).2.2 c
      exact ⟨fun hmem => absurd hmem hnone, fun ⟨_, _, heq, _⟩ => by cases heq⟩
    | button + 2 =>
      have hnone : (MouseEventType.click, c) ∉ (doc.release h.state (button + 2) hit now).2 := by
        rw [release_middle (Nat.le_add_left 2 button)]
        simp
      exact ⟨fun hmem => absurd hmem hnone, fun ⟨_, _, heq, _⟩ => by cases heq⟩

theorem SafeClicks.append {events : List MouseEvent} (hsafe : doc.SafeClicks h (events ++ [event])) :
    doc.SafeClicks h events ∧ ownsLeft (doc.mouseRun h events).state event = true := by
  induction events generalizing h with
  | nil => exact ⟨trivial, hsafe.1⟩
  | cons e events ih =>
    obtain ⟨hrest, hlast⟩ := ih hsafe.2
    exact ⟨⟨hsafe.1, hrest⟩, hlast⟩

theorem mask_run {events : List MouseEvent} (hmask : h.state.buttonsMask = heldMask h.seen) :
    (doc.mouseRun h events).state.buttonsMask = heldMask (doc.mouseRun h events).seen := by
  induction events generalizing h with
  | nil => exact hmask
  | cons e events ih => exact ih (mask_step hmask)

theorem LeftOwned.run {events : List MouseEvent} (hinv : doc.LeftOwned h)
    (hnames : ∀ e ∈ events, doc.Names e) (hsafe : doc.SafeClicks h events) :
    doc.LeftOwned (doc.mouseRun h events) := by
  induction events generalizing h with
  | nil => exact hinv
  | cons e events ih =>
    obtain ⟨hname, hnames⟩ := List.forall_mem_cons.1 hnames
    exact ih (hinv.step hname hsafe.1) hnames hsafe.2

theorem leftOwned_start : doc.LeftOwned {} :=
  ⟨by decide, fun hheld => absurd hheld (by decide), fun _ => rfl⟩

/-- After any calls the mask is that of the held buttons; and when all calls were made as
`ownsLeft` asks, the next one dispatches the clicks that are due. -/
theorem clicksMatch_of_safeClicks (doc : PointerDoc) (events : List MouseEvent)
    (event : MouseEvent) :
    (doc.mouseRun {} events).state.buttonsMask = heldMask (doc.mouseRun {} events).seen ∧
      ((∀ e ∈ events ++ [event], doc.Names e) → doc.SafeClicks {} (events ++ [event]) →
        doc.ClicksMatch (doc.mouseRun {} events) event) := by
  refine ⟨mask_run (by decide), fun hnames hsafe => ?_⟩
  obtain ⟨hbefore, hlast⟩ := hsafe.append
  have hinv := leftOwned_start.run (fun e he => hnames e (List.mem_append_left _ he)) hbefore
  exact hinv.clicksMatch (hnames event (by simp)) hlast

/-- `html`, `body`, and two elements side by side. -/
def twoElements : PointerDoc where
  heap := domRun { size := 4, node := fun _ => {} }
    [.appendChild (some 0) (some 1), .appendChild (some 1) (some 2),
      .appendChild (some 1) (some 3)]
  body := some 1
  root := 0
  wellFormed := by
    refine (domRun_contract (wellFormed_of_bare fun _ => rfl) ?_).1
    simp only [SafeRun, DomCall.Existing]
    decide
  body_lt := by
    rintro _ ⟨⟩
    decide
  root_lt := by decide

/-- Pressed on one element and released over both's parent. -/
theorem clicksMatch_of_safeClicks_parent :
    (twoElements.handle (twoElements.mouseRun {} [.press 0 (some 2) false, .move]).state
        (.release 0 (some 1) 1)).2 = [(.mouseup, 1), (.click, 1)] ∧
      twoElements.ClicksMatch (twoElements.mouseRun {} [.press 0 (some 2) false, .move])
        (.release 0 (some 1) 1) := by
  refine ⟨by decide, ?_⟩
  refine (clicksMatch_of_safeClicks twoElements [.press 0 (some 2) false, .move]
    (.release 0 (some 1) 1)).2 ?_ ⟨by decide, by decide, by decide, trivial⟩
  intro e he
  have hcases : e = .press 0 (some 2) false ∨ e = .move ∨ e = .release 0 (some 1) 1 := by
    simpa using he
  rcases hcases with rfl | rfl | rfl
  · rintro _ ⟨⟩
    decide
  · trivial
  · rintro _ ⟨⟩
    decide

/-- A press on the scrollbar, released over an element, clicks it; and so does a left press
on another element with a right click in between. -/
theorem unrelated_click :
    ¬ twoElements.ClicksMatch (twoElements.mouseRun {} [.press 0 (some 2) true])
        (.release 0 (some 3) 1) ∧
      ¬ twoElements.ClicksMatch
        (twoElements.mouseRun {}
          [.press 0 (some 2) false, .press 1 (some 3) false, .release 1 (some 3) 1])
        (.release 0 (some 3) 2) := by
  constructor
  · intro hmatch
    obtain ⟨_, _, -, p, hpress, -⟩ := (hmatch 3).1 (by decide)
    exact absurd hpress (by decide +revert +kernel)
  · intro hmatch
    obtain ⟨_, _, ⟨⟩, p, hpress, hdue⟩ := (hmatch 3).1 (by decide)
    have hp : p = 2 := by
      have hseen : (twoElements.mouseRun {} [.press 0 (some 2) false, .press 1 (some 3) false,
          .release 1 (some 3) 1]).seen.leftPress = some 2 := by decide
      rw [hseen] at hpress
      exact (Option.some.inj hpress).symm
    subst hp
    have hdisjoint : miniIsAnc twoElements.heap 3 2 = false := by decide
    rcases hdue with ⟨heq, -⟩ | ⟨-, hbelow⟩
    · exact absurd heq (by decide)
    · have hanc := (twoElements.wellFormed.isAnc_iff (by decide)).2 hbelow
      rw [show twoElements.under (some 3) = 3 from rfl, hdisjoint] at hanc
      cases hanc

end PointerDoc

end TinyFramework.Events
