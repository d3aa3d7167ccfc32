/-
  App/AnimationFrames.lean --- the callbacks that `mini_eventloop_render_phase` runs for a frame.

  A callback is named by the number of its registration.  The phase counts the array as empty, and
  runs what is in it nevertheless: what a callback registers is written over the array from its
  first place on.  The callbacks of the observers run behind them.  A call that gets no memory
  registers nothing and is left out.
-/
import Mathlib.Data.List.Range
import TinyFramework.Foundation.Histories

set_option autoImplicit false

namespace TinyFramework.App

open TinyFramework.Foundation

/-- `raf` with `raf_n` places in use; how many registrations were made, and which callbacks were
run. -/
structure RafState where
  raf : List Nat := []
  rafN : Nat := 0
  made : Nat := 0
  ran : List Nat := []
  deriving DecidableEq, Repr

/-- How many callbacks a callback registers, which may depend on what was run before. -/
abbrev RafProgram := List Nat → Nat → Nat

namespace RafState

/-- `mini_eventloop_add_raf` -/
def addRaf (s : RafState) : RafState :=
  { s with
    raf := if s.rafN < s.raf.length then s.raf.set s.rafN s.made else s.raf ++ [s.made]
    rafN := s.rafN + 1
    made := s.made + 1 }

variable (registers : RafProgram)

/-- The callback at a place of the array is run. -/
def runRaf (s : RafState) (i : Nat) : RafState :=
  let cb := s.raf.getD i 0
  addRaf^[registers s.ran cb] { s with ran := s.ran ++ [cb] }

/-- `mini_eventloop_render_phase`, in which the observers register `observed` callbacks. -/
def miniEventloopRenderPhase (observed : Nat) (s : RafState) : RafState :=
  let n := s.rafN
  let s := (List.range n).foldl (runRaf registers) { s with rafN := 0 }
  addRaf^[observed] s

end RafState

/-! ## Runs -/

inductive RafStep where
  | register
  | phase (observed : Nat)

/-- The array, and the callbacks that the next phase is to run. -/
structure RafRun where
  state : RafState := {}
  waiting : List Nat := []

/-- How many callbacks the first `k` of a list register, if they are run in order. -/
def registered (registers : RafProgram) (ran waiting : List Nat) : Nat → Nat
  | 0 => 0
  | k + 1 => registered registers ran waiting k +
      registers (ran ++ waiting.take k) (waiting.getD k 0)

namespace RafRun

variable (registers : RafProgram)

def exec (s : RafRun) : RafStep → RafRun
  | .register => { state := s.state.addRaf, waiting := s.waiting ++ [s.state.made] }
  | .phase observed =>
      let state := s.state.miniEventloopRenderPhase registers observed
      { state := state, waiting := List.range' s.state.made (state.made - s.state.made) }

/-- A phase runs the callbacks that wait, in the order of their registration, and no others. -/
def Right (s : RafRun) : RafStep → Prop
  | .register => True
  | .phase observed =>
      (s.state.miniEventloopRenderPhase registers observed).ran = s.state.ran ++ s.waiting

/-- In front of each callback, no more callbacks were registered in the phase than run. -/
def Safe (s : RafRun) : RafStep → Prop
  | .register => True
  | .phase _ => ∀ i < s.waiting.length, registered registers s.state.ran s.waiting i ≤ i

end RafRun

/-! ## What is written over -/

/-- The array of `s₀`, with `c` registrations from its first place on. -/
structure Filled (s₀ : RafState) (c : Nat) (s : RafState) : Prop where
  raf : s.raf = List.range' s₀.made c ++ s₀.raf.drop c
  rafN : s.rafN = c
  made : s.made = s₀.made + c

namespace Filled

variable {s₀ s : RafState} {c : Nat}

theorem addRaf (h : Filled s₀ c s) : Filled s₀ (c + 1) s.addRaf := by
  refine ⟨?_, ?_, ?_⟩
  · have hraf : s.addRaf.raf =
        if s.rafN < s.raf.length then s.raf.set s.rafN s.made else s.raf ++ [s.made] := rfl
    rw [hraf, h.rafN, h.made, h.raf, List.length_append, List.length_range', List.length_drop,
      List.range'_1_concat]
    split_ifs with hroom
    · have hdrop : s₀.raf.drop c = s₀.raf[c] :: s₀.raf.drop (c + 1) :=
        List.drop_eq_getElem_cons (by omega)
      rw [List.set_append_right _ _ (Nat.le_of_eq List.length_range'), List.length_range',
        Nat.sub_self, hdrop, List.set_cons_zero, List.append_assoc, List.singleton_append]
    · have hnone : s₀.raf.drop c = [] := List.drop_of_length_le (by omega)
      have hnext : s₀.raf.drop (c + 1) = [] := List.drop_of_length_le (by omega)
      rw [hnone, hnext, List.append_nil, List.append_nil]
  · exact congrArg (· + 1) h.rafN
  · exact congrArg (· + 1) h.made

theorem iterate (h : Filled s₀ c s) (m : Nat) : Filled s₀ (c + m) (RafState.addRaf^[m] s) := by
  induction m with
  | zero => exact h
  | succ m ih =>
    rw [Function.iterate_succ_apply']
    exact ih.addRaf

theorem ran_iterate (m : Nat) (s : RafState) : (RafState.addRaf^[m] s).ran = s.ran := by
  induction m with
  | zero => rfl
  | succ m ih =>
    rw [Function.iterate_succ_apply']
    exact ih

end Filled

/-! ## A phase -/

namespace RafRun

variable {registers : RafProgram} {s : RafRun}

/-- The places in use hold what waits, and nothing waits that is not registered yet. -/
structure Inv (s : RafRun) : Prop where
  holds : s.state.raf.take s.state.rafN = s.waiting
  within : s.state.rafN ≤ s.state.raf.length
  made : ∀ cb ∈ s.waiting, cb < s.state.made

theorem Inv.length (h : s.Inv) : s.waiting.length = s.state.rafN := by
  rw [← h.holds, List.length_take, Nat.min_eq_left h.within]

/-- The loop over the array, as far as the place `k`. -/
theorem Inv.loop (h : s.Inv) (registers : RafProgram) {k : Nat} (hk : k ≤ s.state.rafN) :
    ∃ c r, Filled s.state c
        ((List.range k).foldl (RafState.runRaf registers) { s.state with rafN := 0 }) ∧
      ((List.range k).foldl (RafState.runRaf registers) { s.state with rafN := 0 }).ran =
        s.state.ran ++ r ∧
      r.length = k ∧
      (r = s.waiting.take k → c = registered registers s.state.ran s.waiting k) ∧
      (r = s.waiting.take k ↔
        ∀ i < k, registered registers s.state.ran s.waiting i ≤ i) := by
  induction k with
  | zero =>
    refine ⟨0, [], ⟨rfl, rfl, rfl⟩, (List.append_nil _).symm, rfl, fun _ => rfl, ?_⟩
    exact iff_of_true rfl fun i hi => absurd hi (Nat.not_lt_zero i)
  | succ k ih =>
    obtain ⟨c, r, hfilled, hran, hlength, hcount, hiff⟩ := ih (Nat.le_of_succ_le hk)
    rw [List.range_succ, List.foldl_concat]
    generalize (List.range k).foldl (RafState.runRaf registers) { s.state with rafN := 0 } = t
      at hfilled hran
    have hwaits : k < s.waiting.length := by
      rw [h.length]
      exact hk
    -- the callback that is run is the one that waits, unless its place was written over
    have hcb : t.raf.getD k 0 = if c ≤ k then s.waiting[k] else s.state.made + k := by
      rw [hfilled.raf]
      split_ifs with hc
      · have hplace : k - c + c = k := Nat.sub_add_cancel hc
        rw [List.getD_eq_getElem?_getD,
          List.getElem?_append_right (by rw [List.length_range']; exact hc), List.length_range', List.getElem?_drop, Nat.add_comm, hplace]
        simp only [← h.holds, List.getElem_take]
        rw [List.getElem?_eq_getElem (Nat.lt_of_lt_of_le hk h.within)]
        rfl
      · rw [List.getD_eq_getElem?_getD,
          List.getElem?_append_left (by rw [List.length_range']; omega),
          List.getElem?_range' (by omega)]
        simp
    have htake : s.waiting.take (k + 1) = s.waiting.take k ++ [s.waiting[k]] :=
      List.take_succ_eq_append_getElem hwaits
    have hgrown : ∀ cb, r ++ [cb] = s.waiting.take (k + 1) ↔
        r = s.waiting.take k ∧ cb = s.waiting[k] := by
      intro cb
      rw [htake]
      refine ⟨fun hsame => ?_, fun ⟨hr, hcb⟩ => by rw [hr, hcb]⟩
      obtain ⟨hr, hlast⟩ := List.append_inj' hsame rfl
      exact ⟨hr, (List.cons.inj hlast).1⟩
    refine ⟨c + registers t.ran (t.raf.getD k 0), r ++ [t.raf.getD k 0], ?_, ?_, ?_, ?_, ?_⟩
    · have hstart : Filled s.state c { t with ran := t.ran ++ [t.raf.getD k 0] } :=
        ⟨hfilled.raf, hfilled.rafN, hfilled.made⟩
      exact hstart.iterate (registers t.ran (t.raf.getD k 0))
    · show (RafState.addRaf^[_] _).ran = _
      rw [Filled.ran_iterate, hran, List.append_assoc]
    · rw [List.length_append, List.length_singleton, hlength]
    · rw [hgrown]
      rintro ⟨hr, hlast⟩
      rw [hlast, registered, hcount hr, hran, hr, List.getD_eq_getElem?_getD,
        List.getElem?_eq_getElem hwaits, Option.getD_some]
    · rw [hgrown, Nat.forall_lt_succ_right, hiff]
      refine and_congr_right fun hbefore => ?_
      rw [hcb, ← hcount (hiff.2 hbefore)]
      split_ifs with hc
      · exact iff_of_true rfl hc
      · refine iff_of_false (fun hsame => ?_) hc
        have := h.made _ (List.getElem_mem hwaits)
        omega

theorem Inv.start : Inv {} := ⟨rfl, Nat.le_refl _, fun _ h => absurd h List.not_mem_nil⟩

theorem Inv.step (h : s.Inv) (a : RafStep) : (s.exec registers a).Inv := by
  cases a with
  | register =>
    have hlength := h.within
    have hraf : s.state.addRaf.raf = if s.state.rafN < s.state.raf.length then
        s.state.raf.set s.state.rafN s.state.made else s.state.raf ++ [s.state.made] := rfl
    refine ⟨?_, ?_, ?_⟩
    · show s.state.addRaf.raf.take (s.state.rafN + 1) = s.waiting ++ [s.state.made]
      rw [hraf, ← h.holds]
      split_ifs with hroom
      · rw [List.take_succ_eq_append_getElem (by rw [List.length_set]; exact hroom),
          List.getElem_set_self, List.take_set_of_le (Nat.le_refl _)]
      · have hfull : s.state.rafN = s.state.raf.length := by omega
        rw [hfull, List.take_of_length_le (by simp), List.take_length]
    · show s.state.rafN + 1 ≤ s.state.addRaf.raf.length
      rw [hraf]
      split_ifs with hroom
      · rw [List.length_set]
        exact hroom
      · rw [List.length_append, List.length_singleton]
        omega
    · intro cb hcb
      rcases List.mem_append.1 hcb with hcb | hcb
      · exact Nat.lt_succ_of_lt (h.made cb hcb)
      · exact List.mem_singleton.1 hcb ▸ Nat.lt_succ_self _
  | phase observed =>
    obtain ⟨c, -, hfilled, -⟩ := h.loop registers (Nat.le_refl _)
    have hafter := hfilled.iterate observed
    have hmade := hafter.made
    refine ⟨?_, ?_, fun cb hcb => ?_⟩
    · show (RafState.addRaf^[observed] _).raf.take (RafState.addRaf^[observed] _).rafN =
        List.range' s.state.made ((RafState.addRaf^[observed] _).made - s.state.made)
      rw [hafter.raf, hafter.rafN, hmade, Nat.add_sub_cancel_left, List.take_left' (by simp)]
    · show (RafState.addRaf^[observed] _).rafN ≤ (RafState.addRaf^[observed] _).raf.length
      rw [hafter.raf, hafter.rafN, List.length_append, List.length_range']
      exact Nat.le_add_right _ _
    · obtain ⟨-, hlt⟩ := List.mem_range'_1.1 hcb
      show cb < (RafState.addRaf^[observed] _).made
      have hle : s.state.made ≤ (s.state.miniEventloopRenderPhase registers observed).made :=
        hmade ▸ Nat.le_add_right _ _
      exact Nat.lt_of_lt_of_eq hlt (Nat.add_sub_cancel' hle)

theorem Inv.right_iff (h : s.Inv) (a : RafStep) :
    s.Right registers a ↔ s.Safe registers a := by
  cases a with
  | register => exact Iff.rfl
  | phase observed =>
    obtain ⟨c, r, -, hran, -, -, hiff⟩ := h.loop registers (Nat.le_refl _)
    show (RafState.addRaf^[observed] _).ran = _ ↔ _
    rw [Filled.ran_iterate, hran, List.append_cancel_left_eq]
    rw [← h.length, List.take_length] at hiff
    exact hiff

end RafRun

/-- In every run of registrations and phases: each phase runs what was registered since the last
one began, once and in order, exactly if in each phase no callback finds that more were registered
than run. -/
theorem rafLaw_iff (registers : RafProgram) (steps : List RafStep) :
    (∀ pre a post, steps = pre ++ a :: post →
        (pre.foldl (RafRun.exec registers) {}).Right registers a) ↔
      ∀ pre a post, steps = pre ++ a :: post →
        (pre.foldl (RafRun.exec registers) {}).Safe registers a := by
  have hinv : ∀ pre : List RafStep, (pre.foldl (RafRun.exec registers) {}).Inv := fun pre =>
    Histories.invariant RafRun.Inv RafRun.Inv.start (fun _ a _ _ h => h.step a) pre []
      (List.append_nil _).symm
  exact forall_congr' fun pre => forall_congr' fun a => forall_congr' fun _ => forall_congr' fun _ =>
    (hinv pre).right_iff a

/-- A callback registers two, and the next one is not run. -/
theorem overwritten_callback_lost :
    ¬ ∀ pre a post, [RafStep.register, .register, .phase 0] = pre ++ a :: post →
      (pre.foldl (RafRun.exec fun _ cb => if cb = 0 then 2 else 0) {}).Right
        (fun _ cb => if cb = 0 then 2 else 0) a := by
  intro hlaw
  have hright : [0, 3] = [0, 1] := hlaw [.register, .register] (.phase 0) [] rfl
  exact absurd hright (by decide)

end TinyFramework.App
