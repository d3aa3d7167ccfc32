/-
  App/EventLoop.lean --- the queues of tasks and microtasks, and `mini_eventloop_pump`.

  A callback is run with a world of its own and makes calls of `mini_eventloop_queue_task` and
  `mini_eventloop_queue_microtask`; a null callback is one that does nothing.  Callbacks need not
  come to an end with what they queue: a pump that returns is one for which a bound on the
  microtasks is enough.  What is queued and what is started is written into a trace.
-/
import TinyFramework.Foundation.Queues

set_option autoImplicit false

namespace TinyFramework.App

open TinyFramework.Foundation

universe u v

variable {C : Type u} {W : Type v}

inductive LoopQueue where
  | task
  | microtask
  deriving DecidableEq, Repr

/-- `MiniEventLoop`: the cells of `Task`, and the head and the tail of each queue. -/
structure MiniEventLoop (C : Type u) where
  store : CellStore C
  queue : LoopQueue → LinkedQueue := fun _ => {}

/-- What callbacks do: the world behind them, and their calls. -/
abbrev Program (C : Type u) (W : Type v) := W → C → W × List (LoopQueue × C)

namespace MiniEventLoop

variable (alloc : CellAllocator)

/-- A `Task` behind the tail of a queue. -/
def enqueue (el : MiniEventLoop C) (k : LoopQueue) (cb : C) : MiniEventLoop C :=
  let (store, q) := el.store.enqueue alloc (el.queue k) cb
  { store := store, queue := Function.update el.queue k q }

/-- `mini_eventloop_queue_task` -/
def queueTask (el : MiniEventLoop C) (cb : C) : MiniEventLoop C := el.enqueue alloc .task cb

/-- `mini_eventloop_queue_microtask` -/
def queueMicrotask (el : MiniEventLoop C) (cb : C) : MiniEventLoop C :=
  el.enqueue alloc .microtask cb

end MiniEventLoop

/-! ## The pump -/

inductive LoopEvent (C : Type u) where
  | queued (k : LoopQueue) (cb : C)
  | started (k : LoopQueue) (cb : C)
  deriving DecidableEq, Repr

structure LoopRun (C : Type u) (W : Type v) where
  loop : MiniEventLoop C
  world : W
  trace : List (LoopEvent C) := []

namespace LoopRun

variable (alloc : CellAllocator) (prog : Program C W)

def call (s : LoopRun C W) (c : LoopQueue × C) : LoopRun C W :=
  { s with
    loop :=
      match c.1 with
      | .task => s.loop.queueTask alloc c.2
      | .microtask => s.loop.queueMicrotask alloc c.2
    trace := s.trace ++ [.queued c.1 c.2] }

/-- `t->cb(t->ud)` -/
def runCallback (s : LoopRun C W) (cb : C) : LoopRun C W :=
  let (world, calls) := prog s.world cb
  calls.foldl (call alloc) { s with world := world }

/-- The task at the head of a queue is taken off it, run and freed. -/
def takeOne (s : LoopRun C W) (k : LoopQueue) : Option (LoopRun C W) :=
  (s.loop.store.dequeue (s.loop.queue k)).map fun (t, q) =>
    let cb := (s.loop.store.cell t).item
    let s : LoopRun C W :=
      { s with
        loop := { s.loop with queue := Function.update s.loop.queue k q }
        trace := s.trace ++ [.started k cb] }
    let s := s.runCallback alloc prog cb
    { s with loop := { s.loop with store := s.loop.store.free t } }

/-- `drain_microtasks`, and how many it fired. -/
def drainMicrotasks : Nat → LoopRun C W → Option (LoopRun C W × Nat)
  | 0, _ => none
  | bound + 1, s =>
      match s.takeOne alloc prog .microtask with
      | none => some (s, 0)
      | some s => (drainMicrotasks bound s).map fun (s, fired) => (s, fired + 1)

/-- `run_one_task` -/
def runOneTask (s : LoopRun C W) : LoopRun C W × Nat :=
  match s.takeOne alloc prog .task with
  | none => (s, 0)
  | some s => (s, 1)

/-- `mini_eventloop_pump` -/
def miniEventloopPump (bound : Nat) (s : LoopRun C W) : Option (LoopRun C W × Nat) := do
  let (s, fired) ← drainMicrotasks alloc prog bound s
  let (s, ran) := s.runOneTask alloc prog
  let (s, more) ← drainMicrotasks alloc prog bound s
  return (s, fired + ran + more)

end LoopRun

/-- What the host does: it queues callbacks, and pumps. -/
inductive LoopStep (C : Type u) where
  | queue (k : LoopQueue) (cb : C)
  | pump (bound : Nat)

def LoopRun.start (world : W) (blank : C) : LoopRun C W :=
  { loop := { store := ⟨[], fun _ => ⟨blank, none⟩⟩ }, world := world }

/-- The state behind a run, if its pumps return. -/
def LoopRun.exec (alloc : CellAllocator) (prog : Program C W) :
    List (LoopStep C) → LoopRun C W → Option (LoopRun C W)
  | [], s => some s
  | .queue k cb :: steps, s => exec alloc prog steps (s.call alloc (k, cb))
  | .pump bound :: steps, s =>
      (s.miniEventloopPump alloc prog bound).bind fun r => exec alloc prog steps r.1

/-! ## The law -/

/-- What was queued, in the order of the queueing. -/
def queuedOn (k : LoopQueue) (trace : List (LoopEvent C)) : List C :=
  trace.filterMap fun
    | .queued k' cb => if k' = k then some cb else none
    | .started _ _ => none

def startedOn (k : LoopQueue) (trace : List (LoopEvent C)) : List C :=
  trace.filterMap fun
    | .queued _ _ => none
    | .started k' cb => if k' = k then some cb else none

/-- A callback may start if it is the first of those queued that have not started, and a task only
if all microtasks have. -/
def MayStart (before : List (LoopEvent C)) : LoopEvent C → Prop
  | .queued _ _ => True
  | .started k cb =>
      startedOn k before ++ [cb] <+: queuedOn k before ∧
        (k = .task → startedOn .microtask before = queuedOn .microtask before)

def TraceLaw (trace : List (LoopEvent C)) : Prop :=
  ∀ before e after, trace = before ++ e :: after → MayStart before e

/-- A pump starts a task at most, leaves no microtask behind, and returns how many callbacks it
started. -/
structure PumpLaw (s s' : LoopRun C W) (fired : Nat) : Prop where
  one : (startedOn .task s'.trace).length ≤ (startedOn .task s.trace).length + 1
  calm : startedOn .microtask s'.trace = queuedOn .microtask s'.trace
  empty : (s'.loop.queue .microtask).head = none
  counted : (startedOn .task s'.trace).length + (startedOn .microtask s'.trace).length =
    (startedOn .task s.trace).length + (startedOn .microtask s.trace).length + fired

theorem TraceLaw.nil : TraceLaw ([] : List (LoopEvent C)) := fun _ _ _ h => by simp at h

theorem TraceLaw.snoc {trace : List (LoopEvent C)} {e : LoopEvent C} (h : TraceLaw trace)
    (he : MayStart trace e) : TraceLaw (trace ++ [e]) := by
  intro before e' after hsplit
  rcases List.eq_nil_or_concat after with rfl | ⟨after, last, rfl⟩
  · obtain ⟨rfl, hlast⟩ := List.append_inj' hsplit rfl
    exact (List.cons.inj hlast).1 ▸ he
  · rw [List.concat_eq_append, ← List.cons_append, ← List.append_assoc] at hsplit
    exact h before e' after (List.append_inj' hsplit rfl).1

theorem queuedOn_queued (k k' : LoopQueue) (trace : List (LoopEvent C)) (cb : C) :
    queuedOn k (trace ++ [.queued k' cb]) = queuedOn k trace ++ if k' = k then [cb] else [] := by
  rw [queuedOn, List.filterMap_append]
  split_ifs with h <;> simp [queuedOn, h]

theorem queuedOn_started (k k' : LoopQueue) (trace : List (LoopEvent C)) (cb : C) :
    queuedOn k (trace ++ [.started k' cb]) = queuedOn k trace := by
  rw [queuedOn, List.filterMap_append]
  simp [queuedOn]

theorem startedOn_queued (k k' : LoopQueue) (trace : List (LoopEvent C)) (cb : C) :
    startedOn k (trace ++ [.queued k' cb]) = startedOn k trace := by
  rw [startedOn, List.filterMap_append]
  simp [startedOn]

theorem startedOn_started (k k' : LoopQueue) (trace : List (LoopEvent C)) (cb : C) :
    startedOn k (trace ++ [.started k' cb]) = startedOn k trace ++ if k' = k then [cb] else [] := by
  rw [startedOn, List.filterMap_append]
  split_ifs with h <;> simp [startedOn, h]

/-! ## What the queues hold -/

namespace LoopRun

/-- The queues hold what is queued and has not started, each in cells of its own, and none of them
in the cell of the callback under way. -/
structure Held (s : LoopRun C W) (busy : List Nat) (cells : LoopQueue → List Nat)
    (held : LoopQueue → List C) : Prop where
  holds : ∀ k, (s.loop.queue k).Holds s.loop.store (cells k) (held k)
  apart : ∀ k k' a, a ∈ cells k → a ∈ cells k' → k = k'
  busy : ∀ a ∈ busy, a ∈ s.loop.store.live ∧ ∀ k, a ∉ cells k
  queued : ∀ k, queuedOn k s.trace = startedOn k s.trace ++ held k
  law : TraceLaw s.trace

def Inv (s : LoopRun C W) (busy : List Nat) : Prop := ∃ cells held, s.Held busy cells held

theorem Inv.start (world : W) (blank : C) : (LoopRun.start world blank).Inv [] :=
  ⟨fun _ => [], fun _ => [],
    { holds := fun _ => LinkedQueue.Holds.empty _
      apart := fun _ _ _ h => absurd h List.not_mem_nil
      busy := fun _ h => absurd h List.not_mem_nil
      queued := fun _ => rfl
      law := TraceLaw.nil }⟩

variable {alloc : CellAllocator} {prog : Program C W} {s s' : LoopRun C W} {busy : List Nat}

theorem call_eq (s : LoopRun C W) (k : LoopQueue) (cb : C) :
    s.call alloc (k, cb) =
      { s with loop := s.loop.enqueue alloc k cb, trace := s.trace ++ [.queued k cb] } := by
  cases k <;> rfl

theorem Inv.call (h : s.Inv busy) (c : LoopQueue × C) : (s.call alloc c).Inv busy := by
  obtain ⟨cells, held, h⟩ := h
  obtain ⟨k, cb⟩ := c
  rw [call_eq]
  have hfresh : ∀ k', alloc.pick s.loop.store.live ∉ cells k' := fun k' hmem =>
    alloc.fresh _ ((h.holds k').live _ hmem)
  have hlive : (s.loop.store.enqueue alloc (s.loop.queue k) cb).1.live =
      alloc.pick s.loop.store.live :: s.loop.store.live := LinkedQueue.Holds.live_enqueue
  refine ⟨Function.update cells k (cells k ++ [alloc.pick s.loop.store.live]),
    Function.update held k (held k ++ [cb]), ?_, ?_, ?_, ?_, h.law.snoc trivial⟩
  · intro k'
    show (Function.update s.loop.queue k _ k').Holds (s.loop.store.enqueue alloc _ cb).1 _ _
    by_cases hk : k' = k
    · subst hk
      rw [Function.update_self, Function.update_self, Function.update_self]
      exact (h.holds k').enqueue
    · rw [Function.update_of_ne hk, Function.update_of_ne hk, Function.update_of_ne hk]
      refine (h.holds k').frame (fun a ha => ?_) fun a ha => ?_
      · rw [hlive]
        exact List.mem_cons_of_mem _ ((h.holds k').live a ha)
      · exact (h.holds k).cell_enqueue ((h.holds k').live a ha) fun hmem =>
          hk (h.apart k' k a ha hmem)
  · have hmem : ∀ k' a, a ∈ Function.update cells k (cells k ++ [alloc.pick s.loop.store.live]) k' →
        a ∈ cells k' ∨ (k' = k ∧ a = alloc.pick s.loop.store.live) := by
      intro k' a ha
      by_cases hk : k' = k
      · subst hk
        rw [Function.update_self] at ha
        exact (List.mem_append.1 ha).imp_right fun ha => ⟨rfl, List.mem_singleton.1 ha⟩
      · rw [Function.update_of_ne hk] at ha
        exact Or.inl ha
    intro k₁ k₂ a h₁ h₂
    rcases hmem k₁ a h₁ with hold₁ | ⟨hk₁, hnew⟩
    · rcases hmem k₂ a h₂ with hold₂ | ⟨-, hnew⟩
      · exact h.apart k₁ k₂ a hold₁ hold₂
      · exact absurd (hnew ▸ hold₁) (hfresh k₁)
    · rcases hmem k₂ a h₂ with hold₂ | ⟨hk₂, -⟩
      · exact absurd (hnew ▸ hold₂) (hfresh k₂)
      · exact hk₁.trans hk₂.symm
  · intro a ha
    obtain ⟨halive, hout⟩ := h.busy a ha
    refine ⟨?_, fun k' hmem => ?_⟩
    · show a ∈ (s.loop.store.enqueue alloc _ cb).1.live
      rw [hlive]
      exact List.mem_cons_of_mem _ halive
    · by_cases hk : k' = k
      · subst hk
        rw [Function.update_self] at hmem
        rcases List.mem_append.1 hmem with hmem | hmem
        · exact hout k' hmem
        · exact alloc.fresh _ (List.mem_singleton.1 hmem ▸ halive)
      · rw [Function.update_of_ne hk] at hmem
        exact hout k' hmem
  · intro k'
    show queuedOn k' (s.trace ++ [.queued k cb]) = startedOn k' (s.trace ++ [.queued k cb]) ++ _
    rw [queuedOn_queued, startedOn_queued, h.queued k', List.append_assoc]
    by_cases hk : k' = k
    · subst hk
      rw [Function.update_self, if_pos rfl]
    · rw [Function.update_of_ne hk, if_neg (Ne.symm hk), List.append_nil]

theorem Inv.runCallback (h : s.Inv busy) (cb : C) : (s.runCallback alloc prog cb).Inv busy := by
  have hcalls : ∀ (calls : List (LoopQueue × C)) (s : LoopRun C W), s.Inv busy →
      (calls.foldl (LoopRun.call alloc) s).Inv busy := by
    intro calls
    induction calls with
    | nil => exact fun _ h => h
    | cons c calls ih => exact fun s h => ih _ (h.call c)
  obtain ⟨cells, held, h⟩ := h
  exact hcalls _ _ ⟨cells, held, h.holds, h.apart, h.busy, h.queued, h.law⟩

/-- Nothing that callbacks do takes a callback off a queue. -/
theorem startedOn_runCallback (k : LoopQueue) (s : LoopRun C W) (cb : C) :
    startedOn k (s.runCallback alloc prog cb).trace = startedOn k s.trace := by
  have hcalls : ∀ (calls : List (LoopQueue × C)) (s : LoopRun C W),
      startedOn k (calls.foldl (LoopRun.call alloc) s).trace = startedOn k s.trace := by
    intro calls
    induction calls with
    | nil => exact fun _ => rfl
    | cons c calls ih =>
      intro s
      obtain ⟨k', cb'⟩ := c
      rw [List.foldl_cons, ih, call_eq, startedOn_queued]
  exact hcalls _ _

/-- An empty queue has started all that was queued on it. -/
theorem Inv.takeOne_none (h : s.Inv []) {k : LoopQueue} (hs : s.takeOne alloc prog k = none) :
    (s.loop.queue k).head = none ∧ startedOn k s.trace = queuedOn k s.trace := by
  obtain ⟨cells, held, h⟩ := h
  have hhead : (s.loop.queue k).head = none := by
    rw [takeOne, Option.map_eq_none_iff, CellStore.dequeue, Option.map_eq_none_iff] at hs
    exact hs
  refine ⟨hhead, ?_⟩
  rw [h.queued k, (h.holds k).entries_of_head_none hhead, List.append_nil]

/-- The callback at the head is the first that has not started. -/
theorem Inv.takeOne (h : s.Inv []) {k : LoopQueue} (hs : s.takeOne alloc prog k = some s')
    (hcalm : k = .task → startedOn .microtask s.trace = queuedOn .microtask s.trace) :
    s'.Inv [] ∧ ∃ cb, ∀ k', startedOn k' s'.trace =
      startedOn k' s.trace ++ if k = k' then [cb] else [] := by
  obtain ⟨cells, held, h⟩ := h
  rw [LoopRun.takeOne, Option.map_eq_some_iff] at hs
  obtain ⟨⟨t, q⟩, hdequeue, hs⟩ := hs
  have hqueue := h.holds k
  obtain ⟨a, as, has⟩ : ∃ a as, cells k = a :: as := by
    cases hcells : cells k with
    | nil =>
      rw [CellStore.dequeue, hqueue.head, hcells] at hdequeue
      cases hdequeue
    | cons a as => exact ⟨a, as, rfl⟩
  obtain ⟨x, xs, hxs⟩ : ∃ x xs, held k = x :: xs := by
    cases hheld : held k with
    | nil =>
      have hchained := hqueue.chained
      rw [has, hheld] at hchained
      exact hchained.elim
    | cons x xs => exact ⟨x, xs, rfl⟩
  rw [has, hxs] at hqueue
  obtain ⟨q', htaken, hitem, hrest⟩ := hqueue.dequeue
  obtain ⟨rfl, rfl⟩ := Prod.mk.inj (Option.some.inj (htaken.symm.trans hdequeue))
  dsimp only at hs
  rw [hitem] at hs
  have hmay : MayStart s.trace (.started k x) := by
    refine ⟨?_, hcalm⟩
    rw [h.queued k, hxs]
    exact ⟨xs, by simp⟩
  -- while the callback runs, its cell belongs to no queue
  have hunder : LoopRun.Inv (C := C)
      { s with
        loop := { s.loop with queue := Function.update s.loop.queue k q' }
        trace := s.trace ++ [.started k x] } [a] := by
    have hout : a ∉ as := (List.nodup_cons.1 hqueue.nodup).1
    have hsub : ∀ k' b, b ∈ Function.update cells k as k' → b ∈ cells k' := by
      intro k' b hb
      by_cases hk : k' = k
      · subst hk
        rw [Function.update_self] at hb
        rw [has]
        exact List.mem_cons_of_mem _ hb
      · rwa [Function.update_of_ne hk] at hb
    refine ⟨Function.update cells k as, Function.update held k xs, ?_, ?_, ?_, ?_, h.law.snoc hmay⟩
    · intro k'
      show (Function.update s.loop.queue k q' k').Holds s.loop.store _ _
      by_cases hk : k' = k
      · subst hk
        rw [Function.update_self, Function.update_self, Function.update_self]
        exact hrest
      · rw [Function.update_of_ne hk, Function.update_of_ne hk, Function.update_of_ne hk]
        exact h.holds k'
    · exact fun k₁ k₂ b h₁ h₂ => h.apart k₁ k₂ b (hsub k₁ b h₁) (hsub k₂ b h₂)
    · intro b hb
      obtain rfl := List.mem_singleton.1 hb
      refine ⟨hqueue.live b List.mem_cons_self, fun k' hmem => ?_⟩
      have hk := h.apart k' k b (hsub k' b hmem) (has ▸ List.mem_cons_self)
      subst hk
      rw [Function.update_self] at hmem
      exact hout hmem
    · intro k'
      show queuedOn k' (s.trace ++ [.started k x]) = startedOn k' (s.trace ++ [.started k x]) ++ _
      rw [queuedOn_started, startedOn_started, h.queued k']
      by_cases hk : k' = k
      · subst hk
        rw [Function.update_self, if_pos rfl, hxs, List.append_assoc]
        rfl
      · rw [Function.update_of_ne hk, if_neg (Ne.symm hk), List.append_nil]
  obtain ⟨cells', held', hafter⟩ : Inv (LoopRun.runCallback alloc prog _ x) [_] :=
    hunder.runCallback x
  subst hs
  refine ⟨⟨cells', held', ?_, hafter.apart, fun _ hb => absurd hb List.not_mem_nil, hafter.queued,
    hafter.law⟩, x, fun k' => ?_⟩
  · intro k'
    refine (hafter.holds k').frame (fun b hb => ?_) fun _ _ => rfl
    refine (List.mem_erase_of_ne ?_).2 ((hafter.holds k').live b hb)
    rintro rfl
    exact (hafter.busy b (List.mem_singleton_self b)).2 k' hb
  · exact (startedOn_runCallback k' _ x).trans (startedOn_started k' k s.trace x)

/-! ## The pump -/

/-- How many callbacks have started. -/
def fired (s : LoopRun C W) : Nat :=
  (startedOn .task s.trace).length + (startedOn .microtask s.trace).length

theorem Inv.drain (h : s.Inv []) {bound n : Nat}
    (hs : s.drainMicrotasks alloc prog bound = some (s', n)) :
    s'.Inv [] ∧ s'.fired = s.fired + n ∧ startedOn .task s'.trace = startedOn .task s.trace ∧
      (s'.loop.queue .microtask).head = none ∧
      startedOn .microtask s'.trace = queuedOn .microtask s'.trace := by
  induction bound generalizing s n with
  | zero => cases hs
  | succ bound ih =>
    rw [drainMicrotasks] at hs
    cases htake : s.takeOne alloc prog .microtask with
    | none =>
      rw [htake] at hs
      obtain ⟨rfl, rfl⟩ := Prod.mk.inj (Option.some.inj hs)
      exact ⟨h, rfl, rfl, h.takeOne_none htake⟩
    | some s₁ =>
      rw [htake] at hs
      obtain ⟨⟨s₂, m⟩, hrest, hpair⟩ := Option.map_eq_some_iff.1 hs
      obtain ⟨rfl, rfl⟩ := Prod.mk.inj hpair
      obtain ⟨hinv, cb, hstarted⟩ := h.takeOne htake (by simp)
      obtain ⟨hinv', hfired, htasks, hempty, hcalm⟩ := ih hinv hrest
      have htask := hstarted .task
      have hmicro := hstarted .microtask
      rw [if_neg (by decide), List.append_nil] at htask
      rw [if_pos rfl] at hmicro
      refine ⟨hinv', ?_, htasks.trans htask, hempty, hcalm⟩
      rw [hfired, fired, fired, htask, hmicro, List.length_append, List.length_singleton]
      omega

theorem Inv.runOneTask (alloc : CellAllocator) (prog : Program C W) (h : s.Inv [])
    (hcalm : startedOn .microtask s.trace = queuedOn .microtask s.trace) :
    (s.runOneTask alloc prog).1.Inv [] ∧
      (s.runOneTask alloc prog).1.fired = s.fired + (s.runOneTask alloc prog).2 ∧
      (startedOn .task (s.runOneTask alloc prog).1.trace).length ≤
        (startedOn .task s.trace).length + 1 := by
  unfold LoopRun.runOneTask
  cases htake : s.takeOne alloc prog .task with
  | none => exact ⟨h, rfl, Nat.le_succ _⟩
  | some s' =>
    obtain ⟨hinv, cb, hstarted⟩ := h.takeOne htake fun _ => hcalm
    have htask := hstarted .task
    have hmicro := hstarted .microtask
    rw [if_pos rfl] at htask
    rw [if_neg (by decide), List.append_nil] at hmicro
    refine ⟨hinv, ?_, ?_⟩
    · show s'.fired = s.fired + 1
      rw [fired, fired, htask, hmicro, List.length_append, List.length_singleton]
      omega
    · refine Nat.le_of_eq ?_
      rw [htask, List.length_append, List.length_singleton]

theorem Inv.pump (h : s.Inv []) {bound n : Nat}
    (hs : s.miniEventloopPump alloc prog bound = some (s', n)) : s'.Inv [] ∧ PumpLaw s s' n := by
  unfold miniEventloopPump at hs
  obtain ⟨⟨s₁, before⟩, hbefore, hs⟩ := Option.bind_eq_some_iff.1 hs
  obtain ⟨⟨s₂, after⟩, hafter, hs⟩ := Option.bind_eq_some_iff.1 hs
  obtain ⟨rfl, rfl⟩ := Prod.mk.inj (Option.some.inj hs)
  obtain ⟨hinv₁, hfired₁, htasks₁, -, hcalm₁⟩ := h.drain hbefore
  obtain ⟨hinv, hfired, hone⟩ := hinv₁.runOneTask alloc prog hcalm₁
  obtain ⟨hinv₂, hfired₂, htasks₂, hempty, hcalm⟩ := hinv.drain hafter
  refine ⟨hinv₂, ?_, hcalm, hempty, ?_⟩
  · rw [htasks₂, ← htasks₁]
    exact hone
  · show s₂.fired = s.fired + (before + (s₁.runOneTask alloc prog).2 + after)
    rw [hfired₂, hfired, hfired₁]
    omega

theorem Inv.exec {steps : List (LoopStep C)} (h : s.Inv [])
    (hs : s.exec alloc prog steps = some s') : s'.Inv [] := by
  induction steps generalizing s with
  | nil => exact Option.some.inj hs ▸ h
  | cons a steps ih =>
    cases a with
    | queue k cb => exact ih (h.call (k, cb)) hs
    | pump bound =>
      obtain ⟨⟨s₁, n⟩, hpump, hs⟩ := Option.bind_eq_some_iff.1 hs
      exact ih (h.pump hpump).1 hs

end LoopRun

/-- In every run whose pumps return: callbacks start once each at most, in the order in which they
were queued, and no task starts while a microtask waits; and the next pump, if it returns, starts
one task at most, empties the queue of microtasks and returns what it has run. -/
theorem eventLoop_law (alloc : CellAllocator) (prog : Program C W) (world : W) (blank : C)
    (steps : List (LoopStep C)) {s : LoopRun C W}
    (hs : (LoopRun.start world blank).exec alloc prog steps = some s) :
    TraceLaw s.trace ∧ ∀ bound s' n, s.miniEventloopPump alloc prog bound = some (s', n) →
      PumpLaw s s' n := by
  have hinv := (LoopRun.Inv.start world blank).exec hs
  refine ⟨?_, fun bound s' n hpump => (hinv.pump hpump).2⟩
  obtain ⟨_, _, hheld⟩ := hinv
  exact hheld.law

/-- A callback that queues a microtask, and others that queue nothing. -/
def queuesMicrotask : Program Nat Unit := fun _ cb => ((), if cb = 1 then [(.microtask, 2)] else [])

/-- A microtask, and a task that queues another one: all three run in one pump. -/
theorem eventLoop_law_selftest :
    ∃ s, (LoopRun.start () 0).exec CellAllocator.behind queuesMicrotask
        [.queue .microtask 2, .queue .task 1, .pump 3] = some s ∧
      s.trace = [.queued .microtask 2, .queued .task 1, .started .microtask 2, .started .task 1,
        .queued .microtask 2, .started .microtask 2] ∧ TraceLaw s.trace :=
  ⟨_, rfl, rfl, (eventLoop_law CellAllocator.behind queuesMicrotask () 0
    [.queue .microtask 2, .queue .task 1, .pump 3] rfl).1⟩

end TinyFramework.App
