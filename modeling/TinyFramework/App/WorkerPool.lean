/-
  App/WorkerPool.lean --- the tasks of the background workers, from `mini_worker_submit` to the
  callback.

  A task is named by the number of its submission.  A step is a critical section of a worker or of
  the main thread with what the thread does alone behind it; a worker whose condition is not met
  waits, and its step changes nothing.  What a task reads and writes is not modelled.
-/
import Mathlib.Data.List.Range
import Mathlib.Data.List.Nodup
import TinyFramework.Foundation.GrowingArray
import TinyFramework.Foundation.Histories

set_option autoImplicit false

namespace TinyFramework.App

open TinyFramework.Foundation

/-- Where a worker is; one whose thread was not started is not there. -/
inductive Worker where
  | absent
  | idle
  | holding (task : Nat)
  | exited
  deriving DecidableEq, Repr

/-- `MiniWorkerQueue`, the batches of the pumps that have not returned, and what became of the
tasks. -/
structure WorkerPool where
  pending : GrowingArray Nat := .empty
  ready : GrowingArray Nat := .empty
  threads : List Worker
  shutdown : Bool := false
  freed : Bool := false
  batches : List (List Nat) := []
  submitted : Nat := 0
  executed : List Nat := []
  invoked : List Nat := []
  released : List Nat := []

/-- What is granted to a step is the memory that it asks for. -/
inductive PoolStep where
  | submit (task room : Bool)
  | take (worker : Nat) (result : Bool)
  | finish (worker : Nat) (room : Bool)
  | pump (batch : Bool)
  | fire
  | destroy
  | free (rt : Bool)

namespace PoolStep

/-- Allocations succeed. -/
def Granted : PoolStep → Prop
  | .submit task room => task = true ∧ room = true
  | .take _ result => result = true
  | .finish _ room => room = true
  | .pump batch => batch = true
  | _ => True

end PoolStep

namespace WorkerPool

/-- `mini_worker_init` -/
def miniWorkerInit (nThreads : Int) (starts : Nat → Bool) : WorkerPool :=
  let n := (if nThreads < 1 then 1 else if 8 < nThreads then 8 else nThreads).toNat
  { threads := (List.range n).map fun i => if starts i then .idle else .absent }

variable (s : WorkerPool)

/-- `mini_worker_submit`, which the main thread does not call while it destroys the pool. -/
def miniWorkerSubmit (task room : Bool) : WorkerPool :=
  if s.shutdown then s
  else
    let s' := { s with submitted := s.submitted + 1 }
    if task then
      match s.pending.push room s.submitted with
      | some pending => { s' with pending := pending }
      | none => s'
    else s'

/-- `worker_main`, until the task is done. -/
def workerTake (worker : Nat) (result : Bool) : WorkerPool :=
  match s.threads[worker]? with
  | some .idle =>
      match s.pending.pop with
      | none => if s.shutdown then { s with threads := s.threads.set worker .exited } else s
      | some (pending, task) =>
          if result then
            { s with
              pending := pending
              threads := s.threads.set worker (.holding task)
              executed := s.executed ++ [task] }
          else { s with pending := pending }
  | _ => s

/-- `worker_main`, from the second lock on; a result for which there is no room is dropped. -/
def workerFinish (worker : Nat) (room : Bool) : WorkerPool :=
  match s.threads[worker]? with
  | some (.holding task) =>
      let s' := { s with threads := s.threads.set worker .idle }
      match s.ready.push room task with
      | some ready => { s' with ready := ready }
      | none => s'
  | _ => s

/-- `mini_worker_pump`, as far as its batch. -/
def pumpDrain (batch : Bool) : WorkerPool :=
  if s.shutdown then s
  else if batch then
    { s with batches := s.ready.items :: s.batches, ready := s.ready.clear }
  else s

/-- The loop of `mini_worker_pump`: the callback of the next result of its batch. -/
def pumpFire : WorkerPool :=
  match s.batches with
  | [] => s
  | [] :: outer => { s with batches := outer }
  | (task :: batch) :: outer =>
      { s with batches := batch :: outer, invoked := s.invoked ++ [task] }

/-- `mini_worker_destroy`, until the workers are joined.  No pump is then under way. -/
def destroyBegin : WorkerPool :=
  if s.batches = [] then { s with shutdown := true } else s

def Joined : Prop := ∀ t ∈ s.threads, t = .exited ∨ t = .absent

instance : Decidable s.Joined := inferInstanceAs (Decidable (∀ t ∈ s.threads, _))

/-- `mini_worker_destroy`, from there on. -/
def destroyFree (rt : Bool) : WorkerPool :=
  if s.shutdown ∧ ¬ s.freed ∧ s.Joined then
    { s with
      pending := s.pending.clear
      ready := s.ready.clear
      freed := true
      released := s.released ++ if rt then s.pending.items ++ s.ready.items else [] }
  else s

def exec : PoolStep → WorkerPool
  | .submit task room => s.miniWorkerSubmit task room
  | .take worker result => s.workerTake worker result
  | .finish worker room => s.workerFinish worker room
  | .pump batch => s.pumpDrain batch
  | .fire => s.pumpFire
  | .destroy => s.destroyBegin
  | .free rt => s.destroyFree rt

/-! ## The law -/

variable (single : Prop)

/-- No callback is invoked or released twice, both, or without a task; none is left when the pool is
destroyed; and if `single`, the tasks are executed in the order of their submission. -/
structure Lawful : Prop where
  once : (s.invoked ++ s.released).Nodup
  known : ∀ task ∈ s.invoked ++ s.released, task < s.submitted
  none_left : s.freed → ∀ task < s.submitted, task ∈ s.invoked ++ s.released
  in_order : single → s.executed <+: List.range s.submitted

def Right (a : PoolStep) : Prop := (s.exec a).Lawful single

/-- A worker finds no second task that waits, and what is stranded is released to a runtime. -/
def Safe : PoolStep → Prop
  | .take worker _ => single → s.threads[worker]? = some .idle → s.pending.items.length ≤ 1
  | .free rt => s.shutdown → s.freed = false → s.Joined → s.pending.items ++ s.ready.items ≠ [] →
      rt = true
  | _ => True

/-! ## Where the tasks are -/

/-- How often a task is somewhere. -/
def places (task : Nat) : Nat :=
  s.pending.items.count task + s.threads.count (.holding task) + s.ready.items.count task +
    s.batches.flatten.count task + s.invoked.count task + s.released.count task

/-- Each task is in one place, and what is not executed waits in the order of the submission. -/
structure Inv : Prop where
  placed : ∀ task, s.places task = if task < s.submitted then 1 else 0
  quiet : s.shutdown → s.batches = []
  done : s.freed → s.shutdown ∧ s.Joined ∧ s.pending.items = [] ∧ s.ready.items = []
  ordered : single → ∃ rest, s.executed ++ rest = List.range s.submitted ∧
    (s.freed = false → rest = s.pending.items)

variable {s} {single : Prop}

theorem count_set_add {threads : List Worker} {i : Nat} {t : Worker} (h : threads[i]? = some t)
    (t' w : Worker) : (threads.set i t').count w + (if t = w then 1 else 0) =
      threads.count w + if t' = w then 1 else 0 := by
  obtain ⟨hi, rfl⟩ := List.getElem?_eq_some_iff.1 h
  have hthere : threads[i] = w → 0 < threads.count w := fun hw =>
    List.count_pos_iff.2 (hw ▸ List.getElem_mem hi)
  rw [List.count_set hi]
  simp only [beq_iff_eq]
  split_ifs with hold hnew
  · have hpos := hthere hold
    omega
  · have hpos := hthere hold
    omega
  · omega
  · omega

theorem Joined.count_holding (h : s.Joined) (task : Nat) : s.threads.count (.holding task) = 0 := by
  refine List.count_eq_zero.2 fun hmem => ?_
  rcases h _ hmem with heq | heq <;> cases heq

theorem Inv.lawful (h : s.Inv single) : s.Lawful single where
  once := by
    refine List.nodup_iff_count_le_one.2 fun task => ?_
    have hplaced := h.placed task
    rw [List.count_append]
    simp only [places] at hplaced
    split_ifs at hplaced <;> omega
  known := by
    intro task hmem
    have hplaced := h.placed task
    have hcount := List.count_pos_iff.2 hmem
    rw [List.count_append] at hcount
    simp only [places] at hplaced
    split_ifs at hplaced with hlt
    · exact hlt
    · omega
  none_left := by
    intro hfreed task hlt
    obtain ⟨hshutdown, hjoined, hpending, hready⟩ := h.done hfreed
    have hplaced := h.placed task
    simp only [places, hpending, hready, h.quiet hshutdown, hjoined.count_holding, if_pos hlt,
      List.flatten_nil, List.count_nil] at hplaced
    refine List.count_pos_iff.1 ?_
    rw [List.count_append]
    omega
  in_order hsingle := by
    obtain ⟨rest, hrest, -⟩ := h.ordered hsingle
    exact ⟨rest, hrest⟩

theorem Inv.start (nThreads : Int) (starts : Nat → Bool) :
    (miniWorkerInit nThreads starts).Inv single where
  placed task := by
    have hnone : (miniWorkerInit nThreads starts).threads.count (.holding task) = 0 := by
      refine List.count_eq_zero.2 fun hmem => ?_
      obtain ⟨i, -, hi⟩ := List.mem_map.1 hmem
      split_ifs at hi
    show 0 + (miniWorkerInit nThreads starts).threads.count (.holding task) + 0 + 0 + 0 + 0 = 0
    rw [hnone]
  quiet h := by cases h
  done h := by cases h
  ordered _ := ⟨[], rfl, fun _ => rfl⟩

/-- While a worker is there, the pool is. -/
theorem Inv.not_freed (h : s.Inv single) {worker : Nat} {t : Worker}
    (ht : s.threads[worker]? = some t) (hthere : t ≠ .exited ∧ t ≠ .absent) : s.freed = false := by
  by_contra hfreed
  obtain ⟨-, hjoined, -⟩ := h.done (Bool.not_eq_false _ ▸ hfreed)
  rcases hjoined t (List.mem_of_getElem? ht) with heq | heq
  · exact hthere.1 heq
  · exact hthere.2 heq

/-! ## The steps -/

theorem Inv.submit (h : s.Inv single) : (s.miniWorkerSubmit true true).Inv single := by
  simp only [miniWorkerSubmit, if_true]
  split_ifs with hshutdown
  · exact h
  · obtain ⟨pending, hpush, hitems⟩ := s.pending.push_granted s.submitted
    have hfreed : s.freed = false := by
      by_contra hfreed
      exact hshutdown (h.done (Bool.not_eq_false _ ▸ hfreed)).1
    simp only [hpush]
    refine ⟨fun task => ?_, fun hs => absurd hs hshutdown, fun hf => ?_, fun hsingle => ?_⟩
    · have hplaced := h.placed task
      simp only [places, hitems, List.count_append, List.count_singleton, beq_iff_eq] at hplaced ⊢
      split_ifs at hplaced ⊢ <;> omega
    · rw [hfreed] at hf
      cases hf
    · obtain ⟨rest, hrest, hwaits⟩ := h.ordered hsingle
      refine ⟨rest ++ [s.submitted], ?_, fun _ => ?_⟩
      · rw [← List.append_assoc, hrest, List.range_succ]
      · rw [hwaits hfreed, hitems]

theorem Inv.take (h : s.Inv single) {worker : Nat}
    (hsafe : s.Safe single (.take worker true)) : (s.workerTake worker true).Inv single := by
  unfold workerTake
  cases ht : s.threads[worker]? with
  | none => exact h
  | some t =>
    cases t with
    | absent => exact h
    | holding task => exact h
    | exited => exact h
    | idle =>
      have hfreed := h.not_freed ht ⟨by decide, by decide⟩
      rcases List.eq_nil_or_concat' s.pending.items with hnone | ⟨init, task, hitems⟩
      · simp only [GrowingArray.pop_eq_none hnone]
        split_ifs
        · refine ⟨fun task => ?_, h.quiet, fun hf => ?_, h.ordered⟩
          · have hplaced := h.placed task
            have hcount := count_set_add ht .exited (.holding task)
            simp only [places] at hplaced ⊢
            simp only [reduceCtorEq, if_false] at hcount
            omega
          · rw [hfreed] at hf
            cases hf
        · exact h
      · obtain ⟨pending, hpop, hinit⟩ := GrowingArray.pop_concat hitems
        simp only [hpop, if_true]
        refine ⟨fun t => ?_, h.quiet, fun hf => ?_, fun hsingle => ?_⟩
        · have hplaced := h.placed t
          have hcount := count_set_add ht (.holding task) (.holding t)
          simp only [places, hitems, hinit, List.count_append, List.count_singleton, beq_iff_eq]
            at hplaced ⊢
          simp only [Worker.holding.injEq, reduceCtorEq, if_false] at hcount
          omega
        · rw [hfreed] at hf
          cases hf
        · obtain ⟨rest, hrest, hwaits⟩ := h.ordered hsingle
          -- the only task that waits is the first that is not executed
          have hlength := hsafe hsingle ht
          rw [hitems, List.length_append, List.length_singleton] at hlength
          have hnil : init = [] := List.eq_nil_of_length_eq_zero (by omega)
          refine ⟨[], ?_, fun _ => ?_⟩
          · rw [List.append_nil, ← hrest, hwaits hfreed, hitems, hnil]
            rfl
          · rw [hinit, hnil]

theorem Inv.finish (h : s.Inv single) (worker : Nat) :
    (s.workerFinish worker true).Inv single := by
  unfold workerFinish
  cases ht : s.threads[worker]? with
  | none => exact h
  | some t =>
    cases t with
    | absent => exact h
    | idle => exact h
    | exited => exact h
    | holding task =>
      have hfreed := h.not_freed ht ⟨by simp, by simp⟩
      obtain ⟨ready, hpush, hitems⟩ := s.ready.push_granted task
      simp only [hpush]
      refine ⟨fun t => ?_, h.quiet, fun hf => ?_, h.ordered⟩
      · have hplaced := h.placed t
        have hcount := count_set_add ht .idle (.holding t)
        simp only [places, hitems, List.count_append, List.count_singleton, beq_iff_eq]
          at hplaced ⊢
        simp only [Worker.holding.injEq, reduceCtorEq, if_false] at hcount
        omega
      · rw [hfreed] at hf
        cases hf

theorem Inv.drain (h : s.Inv single) : (s.pumpDrain true).Inv single := by
  simp only [pumpDrain, if_true]
  split_ifs with hshutdown
  · exact h
  · refine ⟨fun task => ?_, fun hs => absurd hs hshutdown, fun hf => ?_, h.ordered⟩
    · have hplaced := h.placed task
      simp only [places, List.flatten_cons, List.count_append, GrowingArray.clear, List.count_nil]
        at hplaced ⊢
      omega
    · exact absurd (h.done hf).1 hshutdown

theorem Inv.open_of_batches (h : s.Inv single) (hne : s.batches ≠ []) : ¬ s.shutdown :=
  fun hs => hne (h.quiet hs)

theorem Inv.fire (h : s.Inv single) : s.pumpFire.Inv single := by
  unfold pumpFire
  match hbatches : s.batches with
  | [] => exact h
  | [] :: outer =>
    have hopen := h.open_of_batches (hbatches ▸ List.cons_ne_nil _ _)
    refine ⟨fun task => ?_, fun hs => absurd hs hopen, fun hf => absurd (h.done hf).1 hopen, h.ordered⟩
    have hplaced := h.placed task
    simp only [places, hbatches] at hplaced ⊢
    exact hplaced
  | (cb :: batch) :: outer =>
    have hopen := h.open_of_batches (hbatches ▸ List.cons_ne_nil _ _)
    refine ⟨fun task => ?_, fun hs => absurd hs hopen, fun hf => absurd (h.done hf).1 hopen, h.ordered⟩
    have hplaced := h.placed task
    simp only [places, hbatches, List.flatten_cons, List.count_append, List.count_cons,
      List.count_nil] at hplaced ⊢
    omega

theorem Inv.destroy (h : s.Inv single) : s.destroyBegin.Inv single := by
  unfold destroyBegin
  split_ifs with hquiet
  · exact ⟨h.placed, fun _ => hquiet, fun hf => ⟨rfl, (h.done hf).2⟩, h.ordered⟩
  · exact h

theorem Inv.free (h : s.Inv single) {rt : Bool} (hsafe : s.Safe single (.free rt)) :
    (s.destroyFree rt).Inv single := by
  by_cases hready : s.shutdown ∧ ¬ s.freed ∧ s.Joined
  · rw [destroyFree, if_pos hready]
    obtain ⟨hshutdown, hfreed, hjoined⟩ := hready
    refine ⟨fun task => ?_, h.quiet, fun _ => ⟨hshutdown, hjoined, rfl, rfl⟩, fun hsingle => ?_⟩
    · have hplaced := h.placed task
      have hall : (if rt then s.pending.items ++ s.ready.items else []) =
          s.pending.items ++ s.ready.items := by
        by_cases hnone : s.pending.items ++ s.ready.items = []
        · rw [hnone, ite_self]
        · rw [if_pos (hsafe hshutdown (by simpa using hfreed) hjoined hnone)]
      simp only [places, hall, List.count_append, GrowingArray.clear, List.count_nil] at hplaced ⊢
      omega
    · obtain ⟨rest, hrest, -⟩ := h.ordered hsingle
      exact ⟨rest, hrest, fun hf => by cases hf⟩
  · rw [destroyFree, if_neg hready]
    exact h

theorem Inv.step (h : s.Inv single) {a : PoolStep} (hgranted : a.Granted)
    (hsafe : s.Safe single a) : (s.exec a).Inv single := by
  cases a with
  | submit task room =>
    obtain ⟨rfl, rfl⟩ := hgranted
    exact h.submit
  | take worker result =>
    cases hgranted
    exact h.take hsafe
  | finish worker room =>
    cases hgranted
    exact h.finish worker
  | pump batch =>
    cases hgranted
    exact h.drain
  | fire => exact h.fire
  | destroy => exact h.destroy
  | free rt => exact h.free hsafe

/-! ## What goes wrong -/

/-- Of two tasks that wait, the worker takes the one that was submitted last. -/
theorem Inv.take_safe (h : s.Inv single) {worker : Nat}
    (hright : s.Right single (.take worker true)) : s.Safe single (.take worker true) := by
  intro hsingle ht
  by_contra hmany
  obtain ⟨rest, hrest, hwaits⟩ := h.ordered hsingle
  rw [hwaits (h.not_freed ht ⟨by decide, by decide⟩)] at hrest
  rcases List.eq_nil_or_concat' s.pending.items with hnone | ⟨init, task, hitems⟩
  · rw [hnone] at hmany
    exact hmany (Nat.zero_le _)
  · obtain ⟨pending, hpop, hinit⟩ := GrowingArray.pop_concat hitems
    have horder : s.executed ++ [task] <+: List.range s.submitted := by
      have hin := hright.in_order hsingle
      simpa only [exec, workerTake, ht, hpop, if_true] using hin
    rw [← hrest, List.prefix_append_right_inj, hitems] at horder
    have hdistinct : (init ++ [task]).Nodup := by
      rw [← hitems]
      exact (hrest ▸ List.nodup_range).of_append_right
    cases init with
    | nil =>
      rw [hitems] at hmany
      exact hmany (Nat.le_refl _)
    | cons first init =>
      have hfirst : task = first := (List.cons_prefix_cons.1 horder).1
      rw [hfirst, List.cons_append, List.nodup_cons] at hdistinct
      exact hdistinct.1 (List.mem_append_right _ (List.mem_singleton_self _))

theorem Inv.free_safe (h : s.Inv single) {rt : Bool} (hright : s.Right single (.free rt)) :
    s.Safe single (.free rt) := by
  intro hshutdown hfreed hjoined hstranded
  by_contra hrt
  obtain ⟨task, hmem⟩ := List.exists_mem_of_ne_nil _ hstranded
  have hfree : s.shutdown ∧ ¬ s.freed ∧ s.Joined := ⟨hshutdown, by simp [hfreed], hjoined⟩
  have hplaced := h.placed task
  have hcount := List.count_pos_iff.2 hmem
  rw [List.count_append] at hcount
  have hlt : task < s.submitted := by
    by_contra hge
    simp only [places, if_neg hge] at hplaced
    omega
  have hfound := hright.none_left
  simp only [exec, destroyFree, if_pos hfree, if_neg hrt, List.append_nil, forall_const] at hfound
  have hthere := List.count_pos_iff.2 (hfound task hlt)
  rw [List.count_append] at hthere
  simp only [places, if_pos hlt] at hplaced
  omega

theorem Inv.right_iff (h : s.Inv single) {a : PoolStep} (hgranted : a.Granted) :
    s.Right single a ↔ s.Safe single a := by
  refine ⟨fun hright => ?_, fun hsafe => (h.step hgranted hsafe).lawful⟩
  cases a with
  | take worker result =>
    cases hgranted
    exact h.take_safe hright
  | free rt => exact h.free_safe hright
  | _ => trivial

end WorkerPool

/-- One thread was started. -/
def SingleWorker (nThreads : Int) (starts : Nat → Bool) : Prop :=
  (WorkerPool.miniWorkerInit nThreads starts).threads.count .idle = 1

/-- In every run whose allocations succeed: each callback is invoked or released once, and a single
worker executes the tasks in the order of their submission, exactly if such a worker never finds two
of them that wait, and the pool is destroyed with a runtime, or with nothing stranded. -/
theorem poolLaw_iff (nThreads : Int) (starts : Nat → Bool) (steps : List PoolStep)
    (hgranted : ∀ a ∈ steps, a.Granted) :
    (∀ pre a post, steps = pre ++ a :: post →
        (pre.foldl WorkerPool.exec (.miniWorkerInit nThreads starts)).Right
          (SingleWorker nThreads starts) a) ↔
      ∀ pre a post, steps = pre ++ a :: post →
        (pre.foldl WorkerPool.exec (.miniWorkerInit nThreads starts)).Safe
          (SingleWorker nThreads starts) a := by
  have hmem : ∀ {pre a post}, steps = pre ++ a :: post → a.Granted := fun hsteps =>
    hgranted _ (hsteps ▸ List.mem_append_right _ (List.mem_cons_self ..))
  exact Histories.right_iff (fun s => WorkerPool.Inv s (SingleWorker nThreads starts))
    (fun s => WorkerPool.Right s (SingleWorker nThreads starts))
    (fun s => WorkerPool.Safe s (SingleWorker nThreads starts))
    (WorkerPool.Inv.start nThreads starts)
    (fun _ _ _ hsteps h => h.right_iff (hmem hsteps))
    (fun _ _ _ hsteps h hsafe => h.step (hmem hsteps) hsafe)

/-- A single worker executes two tasks one behind the other, and the pool is destroyed. -/
def tasksInTurn : List PoolStep :=
  [.submit true true, .take 0 true, .finish 0 true, .submit true true, .take 0 true, .finish 0 true,
    .pump true, .fire, .destroy]

theorem poolLaw_iff_two :
    (∀ pre a post, tasksInTurn = pre ++ a :: post →
        (pre.foldl WorkerPool.exec (.miniWorkerInit 1 fun _ => true)).Safe
          (SingleWorker 1 fun _ => true) a) ∧
      ∀ pre a post, tasksInTurn = pre ++ a :: post →
        (pre.foldl WorkerPool.exec (.miniWorkerInit 1 fun _ => true)).Right
          (SingleWorker 1 fun _ => true) a := by
  have hsafe : ∀ pre a post, tasksInTurn = pre ++ a :: post →
      (pre.foldl WorkerPool.exec (.miniWorkerInit 1 fun _ => true)).Safe
        (SingleWorker 1 fun _ => true) a :=
    (Histories.forall_iff_throughout (P := fun s : WorkerPool => s.Safe _)).2
      ⟨trivial, fun _ _ => by decide, trivial, trivial, fun _ _ => by decide, trivial, trivial,
        trivial, trivial, trivial⟩
  exact ⟨hsafe, (poolLaw_iff 1 _ _ (by simp [tasksInTurn, PoolStep.Granted])).2 hsafe⟩

/-- The single worker begins with the second of two tasks. -/
theorem last_task_first :
    ¬ ∀ pre a post, [PoolStep.submit true true, .submit true true, .take 0 true] = pre ++ a :: post →
      (pre.foldl WorkerPool.exec (.miniWorkerInit 1 fun _ => true)).Right
        (SingleWorker 1 fun _ => true) a := by
  intro hlaw
  have hright := hlaw [.submit true true, .submit true true] (.take 0 true) [] rfl
  have horder : [1] <+: [0, 1] := hright.in_order rfl
  exact absurd horder (by decide)

end TinyFramework.App
