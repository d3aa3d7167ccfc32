/-
  Js/Timers.lean --- timers and frame callbacks.

  The timers stand in an array.  The pump reads the clock and goes over the array by index;
  a timeout that is due is taken out by moving the last entry to its place, an interval is
  set again.  The frame callbacks are detached and then called one after another.  What a
  callback does when it is called is arbitrary.
-/
import TinyFramework.Foundation.GrowingArray
import Mathlib.Algebra.Order.Ring.Rat

set_option autoImplicit false

namespace TinyFramework.Js

open TinyFramework.Foundation

/-! ## The source -/

/-- `MiniTimer`; the callback is known by the id. -/
structure MiniTimer where
  id : Nat
  due : ℚ
  interval : ℚ
  recurring : Bool
  deriving DecidableEq, Repr

/-- What a script calls. -/
inductive TimerOp where
  | setTimeout (ms : ℚ)
  | setInterval (ms : ℚ)
  | clearTimer (id : Nat)
  | requestAnimationFrame
  | cancelAnimationFrame (id : Nat)
  deriving DecidableEq, Repr

/-- What happens, as far as an observer of the timers and frames sees it. -/
inductive TimerEntry where
  | created (id : Nat) (reading ms : ℚ) (recurring : Bool)
  | cleared (id : Nat)
  | requested (id : Nat)
  | cancelled (id : Nat)
  | pumpBegin (now : ℚ)
  | started (id : Nat)
  | pumpEnd
  | rafBegin
  | frame (id : Nat)
  | rafEnd
  deriving DecidableEq, Repr

/-- The timers and frames of `MiniBridge`, how often the clock was read and a callback called,
and what has happened, the last entry first. -/
structure TimerBridge where
  timers : List MiniTimer := []
  tmNextId : Nat := 0
  raf : List Nat := []
  rafNextId : Nat := 0
  reads : Nat := 0
  calls : Nat := 0
  log : List TimerEntry := []
  deriving DecidableEq, Repr

/-- Where the engine is: between two calls from the main loop, in the loop of
`mini_bridge_pump` at an index, or in the loop of `mini_bridge_fire_raf` with the callbacks
that are left. -/
inductive TimerControl where
  | idle
  | pump (now : ℚ) (i : Nat)
  | raf (batch : List Nat)
  deriving DecidableEq, Repr

/-- What the main loop does next. -/
inductive TimerCall where
  | script (ops : List TimerOp)
  | pump
  | fireRaf
  deriving DecidableEq, Repr

structure TimerMachine where
  bridge : TimerBridge := {}
  control : TimerControl := .idle
  todo : List TimerCall := []
  deriving DecidableEq, Repr

section Source

-- the readings of the clock, and what the callbacks do, each by its number in the run
variable (clock : Nat → ℚ) (program : Nat → List TimerOp)

/-- `add_timer` -/
def addTimer (b : TimerBridge) (ms : ℚ) (recurring : Bool) : TimerBridge :=
  let id := b.tmNextId + 1
  { b with
    timers := b.timers ++ [{ id := id
                             due := clock b.reads + max ms 0
                             interval := if recurring then max ms 0 else 0
                             recurring := recurring }]
    tmNextId := id
    reads := b.reads + 1
    log := .created id (clock b.reads) ms recurring :: b.log }

/-- The index of the timer with an id. -/
def timerIndex (timers : List MiniTimer) (id : Nat) : Option Nat :=
  timers.findIdx? fun t => t.id == id

/-- `js_clearTimer` -/
def clearTimer (b : TimerBridge) (id : Nat) : TimerBridge :=
  { b with
    timers := match timerIndex b.timers id with
      | some i => swapRemove b.timers i
      | none => b.timers
    log := .cleared id :: b.log }

/-- `js_requestAnimationFrame` -/
def requestAnimationFrame (b : TimerBridge) : TimerBridge :=
  let id := b.rafNextId + 1
  { b with raf := b.raf ++ [id], rafNextId := id, log := .requested id :: b.log }

/-- `js_cancelAnimationFrame` -/
def cancelAnimationFrame (b : TimerBridge) (id : Nat) : TimerBridge :=
  { b with raf := b.raf.erase id, log := .cancelled id :: b.log }

def execTimerOp (b : TimerBridge) : TimerOp → TimerBridge
  | .setTimeout ms => addTimer clock b ms false
  | .setInterval ms => addTimer clock b ms true
  | .clearTimer id => clearTimer b id
  | .requestAnimationFrame => requestAnimationFrame b
  | .cancelAnimationFrame id => cancelAnimationFrame b id

/-- What a script does one after another. -/
def execTimerOps (b : TimerBridge) (ops : List TimerOp) : TimerBridge :=
  ops.foldl (execTimerOp clock) b

/-- The timer that is due is set again or taken out, before its callback is called. -/
def takeDue (b : TimerBridge) (now : ℚ) (i : Nat) (t : MiniTimer) : TimerBridge :=
  { b with
    timers :=
      if t.recurring then b.timers.set i { t with due := now + max t.interval 1 }
      else swapRemove b.timers i
    calls := b.calls + 1
    log := .started t.id :: b.log }

/-- The index at which the loop goes on. -/
def nextIndex (i : Nat) (t : MiniTimer) : Nat := if t.recurring then i + 1 else i

/-- One step: a call from the main loop, a turn of the loop of `mini_bridge_pump` or one of the
loop of `mini_bridge_fire_raf`. -/
def TimerMachine.step (m : TimerMachine) : TimerMachine :=
  let b := m.bridge
  match m.control with
  | .idle =>
      match m.todo with
      | [] => m
      | .script ops :: todo => { m with bridge := execTimerOps clock b ops, todo := todo }
      | .pump :: todo =>
          { bridge := { b with
              reads := b.reads + 1
              log := .pumpBegin (clock b.reads) :: b.log }
            control := .pump (clock b.reads) 0
            todo := todo }
      | .fireRaf :: todo =>
          { bridge := { b with raf := [], log := .rafBegin :: b.log }
            control := .raf b.raf
            todo := todo }
  | .pump now i =>
      match b.timers[i]? with
      | none => { m with bridge := { b with log := .pumpEnd :: b.log }, control := .idle }
      | some t =>
          if t.due ≤ now then
            { m with
              bridge := execTimerOps clock (takeDue b now i t) (program b.calls)
              control := .pump now (nextIndex i t) }
          else { m with control := .pump now (i + 1) }
  | .raf [] => { m with bridge := { b with log := .rafEnd :: b.log }, control := .idle }
  | .raf (id :: batch) =>
      { m with
        bridge := execTimerOps clock
          { b with calls := b.calls + 1, log := .frame id :: b.log } (program b.calls)
        control := .raf batch }

/-- The machine after a number of steps. -/
def timerRun (calls : List TimerCall) : Nat → TimerMachine
  | 0 => { todo := calls }
  | n + 1 => (timerRun calls n).step clock program

end Source

/-! ## What timers and frames are for -/

/-- Earlier due, or due at the same time and created earlier. -/
def MiniTimer.Before (t t' : MiniTimer) : Prop :=
  t.due < t'.due ∨ (t.due = t'.due ∧ t.id ≤ t'.id)

instance (t t' : MiniTimer) : Decidable (t.Before t') :=
  inferInstanceAs (Decidable (t.due < t'.due ∨ (t.due = t'.due ∧ t.id ≤ t'.id)))

def MiniTimer.isDue (now : ℚ) (t : MiniTimer) : Bool := decide (t.due ≤ now)

/-- The timers that are set, in the order of their creation, the frames that are requested, the
last ids given to a timer and to a frame, the reading of the pump that goes on, and the frames
that are still to be called. -/
structure TimerSpec where
  timers : List MiniTimer := []
  frames : List Nat := []
  lastTimer : Nat := 0
  lastFrame : Nat := 0
  now : Option ℚ := none
  batch : Option (List Nat) := none
  deriving DecidableEq, Repr

/-- The timer is set again, or it is no longer set. -/
def rearm (now : ℚ) (t : MiniTimer) (timers : List MiniTimer) : List MiniTimer :=
  if t.recurring then
    timers.map fun s => if s.id = t.id then { t with due := now + max t.interval 1 } else s
  else timers.filter fun s => s.id ≠ t.id

/-- A timer may start in a pump: it is set, it is due, and no other one that is due comes
before it. -/
def TimerSpec.MayStart (s : TimerSpec) (now : ℚ) (t : MiniTimer) : Prop :=
  t.due ≤ now ∧ ∀ t' ∈ s.timers, t'.due ≤ now → t.Before t'

instance (s : TimerSpec) (now : ℚ) (t : MiniTimer) : Decidable (s.MayStart now t) :=
  inferInstanceAs (Decidable (t.due ≤ now ∧ ∀ t' ∈ s.timers, t'.due ≤ now → t.Before t'))

/-- What may happen next, and what is set and requested then; `none` when it must not happen.
An id is new.  A pump must not end before every timer that is due has started, a fire of the
frames not before every frame has. -/
def TimerSpec.step (s : TimerSpec) : TimerEntry → Option TimerSpec
  | .created id reading ms recurring =>
      if s.lastTimer < id then
        some { s with
          timers := s.timers ++ [{ id := id
                                   due := reading + max ms 0
                                   interval := if recurring then max ms 0 else 0
                                   recurring := recurring }]
          lastTimer := id }
      else none
  | .cleared id => some { s with timers := s.timers.filter fun t => t.id ≠ id }
  | .requested id =>
      if s.lastFrame < id then some { s with frames := s.frames ++ [id], lastFrame := id }
      else none
  | .cancelled id => some { s with
      frames := s.frames.filter (· ≠ id)
      batch := s.batch.map (List.filter (· ≠ id)) }
  | .pumpBegin now =>
      if s.now = none ∧ s.batch = none then some { s with now := some now } else none
  | .started id =>
      match s.now, s.timers.find? fun t => t.id == id with
      | some now, some t =>
          if s.MayStart now t then some { s with timers := rearm now t s.timers } else none
      | _, _ => none
  | .pumpEnd =>
      match s.now with
      | some now =>
          if ∀ t ∈ s.timers, ¬ t.due ≤ now then some { s with now := none } else none
      | none => none
  | .rafBegin =>
      if s.now = none ∧ s.batch = none then some { s with frames := [], batch := some s.frames }
      else none
  | .frame id =>
      match s.batch with
      | some (id' :: batch) => if id = id' then some { s with batch := some batch } else none
      | _ => none
  | .rafEnd => if s.batch = some [] then some { s with batch := none } else none

/-- The state that a log leads to, `none` when something in it must not have happened. -/
def timerSpec : List TimerEntry → Option TimerSpec
  | [] => some {}
  | e :: older => (timerSpec older).bind fun s => s.step e

/-! ## Where the array keeps to it -/

/-- The timers that are due stand in their order. -/
def DueSorted (now : ℚ) (timers : List MiniTimer) : Prop :=
  (timers.filter (MiniTimer.isDue now)).Pairwise MiniTimer.Before

instance (now : ℚ) (timers : List MiniTimer) : Decidable (DueSorted now timers) :=
  inferInstanceAs (Decidable ((timers.filter (MiniTimer.isDue now)).Pairwise MiniTimer.Before))

section Safe

variable (clock : Nat → ℚ) (program : Nat → List TimerOp)

/-- A timer cleared in a pump that goes on at index `j`: the entry that takes its place is not
due, or it passes no entry that is, nor the index. -/
def SafeOp (now : ℚ) (j : Nat) (b : TimerBridge) : TimerOp → Prop
  | .clearTimer id =>
      ∀ p ∈ timerIndex b.timers id, SwapKeeps (MiniTimer.isDue now) j p b.timers
  | _ => True

instance (now : ℚ) (j : Nat) (b : TimerBridge) (op : TimerOp) : Decidable (SafeOp now j b op) :=
  match op with
  | .clearTimer id => inferInstanceAs (Decidable
      (∀ p ∈ timerIndex b.timers id, SwapKeeps (MiniTimer.isDue now) j p b.timers))
  | .setTimeout _ => isTrue trivial
  | .setInterval _ => isTrue trivial
  | .requestAnimationFrame => isTrue trivial
  | .cancelAnimationFrame _ => isTrue trivial

def SafeOps (now : ℚ) (j : Nat) : TimerBridge → List TimerOp → Prop
  | _, [] => True
  | b, op :: ops => SafeOp now j b op ∧ SafeOps now j (execTimerOp clock b op) ops

instance instDecidableSafeOps (now : ℚ) (j : Nat) :
    ∀ (b : TimerBridge) (ops : List TimerOp), Decidable (SafeOps clock now j b ops)
  | _, [] => isTrue trivial
  | b, op :: ops =>
      have := instDecidableSafeOps now j (execTimerOp clock b op) ops
      inferInstanceAs (Decidable (SafeOp now j b op ∧
        SafeOps clock now j (execTimerOp clock b op) ops))

/-- When a pump begins, the timers that are due stand in their order; a timeout that starts,
or a timer cleared by a callback, leaves them so; and a frame callback cancels none that is
still to be called in the same fire. -/
def SafeTimerStep (m : TimerMachine) : Prop :=
  match m.control with
  | .idle => m.todo.head? = some .pump → DueSorted (clock m.bridge.reads) m.bridge.timers
  | .pump now i => ∀ t ∈ m.bridge.timers[i]?, t.due ≤ now →
      (t.recurring = false → SwapKeeps (MiniTimer.isDue now) i i m.bridge.timers) ∧
        SafeOps clock now (nextIndex i t) (takeDue m.bridge now i t) (program m.bridge.calls)
  | .raf [] => True
  | .raf (_ :: batch) => ∀ id ∈ batch, .cancelAnimationFrame id ∉ program m.bridge.calls

instance (m : TimerMachine) : Decidable (SafeTimerStep clock program m) :=
  match m with
  | ⟨b, .idle, todo⟩ =>
      inferInstanceAs (Decidable (todo.head? = some .pump → DueSorted (clock b.reads) b.timers))
  | ⟨b, .pump now i, _⟩ => inferInstanceAs (Decidable (∀ t ∈ b.timers[i]?, t.due ≤ now →
      (t.recurring = false → SwapKeeps (MiniTimer.isDue now) i i b.timers) ∧
        SafeOps clock now (nextIndex i t) (takeDue b now i t) (program b.calls)))
  | ⟨_, .raf [], _⟩ => isTrue trivial
  | ⟨b, .raf (_ :: batch), _⟩ =>
      inferInstanceAs (Decidable (∀ id ∈ batch, .cancelAnimationFrame id ∉ program b.calls))

end Safe

end TinyFramework.Js
