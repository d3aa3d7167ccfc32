/-
  Js/TimersRun.lean --- the timers of a run start as they have to.

  The array holds the timers that are set, in some order.  While a pump goes on, the timers
  that are due stand in their order and none is behind the index, so the one that the loop
  comes to is the first of them.
-/
import TinyFramework.Js.Timers
import Mathlib.Data.List.Nodup
import Mathlib.Tactic.Linarith

set_option autoImplicit false

namespace TinyFramework.Js

open TinyFramework.Foundation

/-! ## The array and the set of timers -/

/-- The timers and frames of the bridge are those that the log asks for. -/
structure Agrees (b : TimerBridge) (s : TimerSpec) : Prop where
  log : timerSpec b.log = some s
  timers : s.timers.Perm b.timers
  nodup : (b.timers.map MiniTimer.id).Nodup
  fresh : ∀ t ∈ b.timers, t.id ≤ b.tmNextId
  frames : s.frames = b.raf
  frames_nodup : b.raf.Nodup
  frames_fresh : ∀ id ∈ b.raf, id ≤ b.rafNextId
  lastTimer : s.lastTimer = b.tmNextId
  lastFrame : s.lastFrame = b.rafNextId

theorem timerSpec_cons {older : List TimerEntry} {s : TimerSpec}
    (h : timerSpec older = some s) (e : TimerEntry) : timerSpec (e :: older) = s.step e := by
  rw [timerSpec, h, Option.bind_some]

/-- An entry that sets and clears no timer and asks for no frame. -/
theorem Agrees.note {b : TimerBridge} {s : TimerSpec} (h : Agrees b s) {e : TimerEntry}
    {now : Option ℚ} {batch : Option (List Nat)}
    (hstep : s.step e = some { s with now := now, batch := batch }) (reads calls : Nat) :
    Agrees { b with reads := reads, calls := calls, log := e :: b.log }
      { s with now := now, batch := batch } :=
  ⟨(timerSpec_cons h.log e).trans hstep, h.timers, h.nodup, h.fresh, h.frames, h.frames_nodup,
    h.frames_fresh, h.lastTimer, h.lastFrame⟩

/-- Without the timer of an id, the array is what a removal leaves. -/
theorem filter_perm_swapRemove {l : List MiniTimer} {i : Nat} {t : MiniTimer}
    (h : l[i]? = some t) (hnodup : (l.map MiniTimer.id).Nodup) :
    (l.filter fun s => s.id ≠ t.id).Perm (swapRemove l i) := by
  have hperm := swapRemove_perm h
  have hrest := ((hperm.map MiniTimer.id).nodup_iff.1 hnodup)
  rw [List.map_cons, List.nodup_cons] at hrest
  have hall : (swapRemove l i).filter (fun s => s.id ≠ t.id) = swapRemove l i := by
    rw [List.filter_eq_self]
    intro s hs
    rw [decide_eq_true_iff]
    intro heq
    apply hrest.1
    rw [← heq]
    exact List.mem_map_of_mem hs
  have hfilter := hperm.filter fun s => s.id ≠ t.id
  rw [List.filter_cons_of_neg (by simp), hall] at hfilter
  exact hfilter

theorem swapRemove_nodup {l : List MiniTimer} {i : Nat} {t : MiniTimer}
    (h : l[i]? = some t) (hnodup : (l.map MiniTimer.id).Nodup) :
    ((swapRemove l i).map MiniTimer.id).Nodup := by
  have hrest := (((swapRemove_perm h).map MiniTimer.id).nodup_iff.1 hnodup)
  rw [List.map_cons, List.nodup_cons] at hrest
  exact hrest.2

theorem mem_of_mem_swapRemove {l : List MiniTimer} {i : Nat} {t s : MiniTimer}
    (h : l[i]? = some t) (hs : s ∈ swapRemove l i) : s ∈ l :=
  (swapRemove_perm h).mem_iff.2 (List.mem_cons_of_mem _ hs)

theorem timerIndex_some {timers : List MiniTimer} {id i : Nat}
    (h : timerIndex timers id = some i) : ∃ t, timers[i]? = some t ∧ t.id = id := by
  obtain ⟨hi, hid, -⟩ := List.findIdx?_eq_some_iff_getElem.1 h
  exact ⟨timers[i], List.getElem?_eq_getElem hi, beq_iff_eq.1 hid⟩

theorem timerIndex_none {timers : List MiniTimer} {id : Nat}
    (h : timerIndex timers id = none) : ∀ t ∈ timers, t.id ≠ id := by
  intro t ht heq
  have hnone := List.findIdx?_eq_none_iff.1 h t ht
  rw [heq, beq_self_eq_true] at hnone
  exact Bool.noConfusion hnone

section Steps

variable {clock : Nat → ℚ} {program : Nat → List TimerOp}

/-! ## What a script does -/

theorem addTimer_agrees {b : TimerBridge} {s : TimerSpec} (h : Agrees b s) (ms : ℚ)
    (recurring : Bool) :
    ∃ s', Agrees (addTimer clock b ms recurring) s' ∧ s'.now = s.now ∧ s'.batch = s.batch := by
  have hlog := timerSpec_cons h.log (.created (b.tmNextId + 1) (clock b.reads) ms recurring)
  have hnew : s.lastTimer < b.tmNextId + 1 := Nat.lt_succ_of_le (Nat.le_of_eq h.lastTimer)
  refine ⟨_, ⟨hlog.trans (if_pos hnew), h.timers.append_right _, ?_, ?_, h.frames,
    h.frames_nodup, h.frames_fresh, rfl, h.lastFrame⟩, rfl, rfl⟩
  · unfold addTimer
    rw [List.map_append, List.nodup_append]
    refine ⟨h.nodup, List.nodup_singleton _, ?_⟩
    intro a ha c hc heq
    obtain ⟨t, ht, rfl⟩ := List.mem_map.1 ha
    rw [List.map_singleton, List.mem_singleton] at hc
    have hbound := h.fresh t ht
    dsimp only at hc
    omega
  · intro t ht
    rcases List.mem_append.1 ht with ht | ht
    · exact Nat.le_succ_of_le (h.fresh t ht)
    · rw [List.mem_singleton.1 ht]
      exact Nat.le_refl _

/-- Timers whose index was not found, or the array after the removal. -/
theorem clearTimer_timers {b : TimerBridge} {s : TimerSpec} (h : Agrees b s) (id : Nat) :
    (s.timers.filter fun t => t.id ≠ id).Perm (clearTimer b id).timers ∧
      ((clearTimer b id).timers.map MiniTimer.id).Nodup ∧
      ∀ t ∈ (clearTimer b id).timers, t ∈ b.timers := by
  have hperm := h.timers.filter fun t => t.id ≠ id
  unfold clearTimer
  dsimp only
  cases hi : timerIndex b.timers id with
  | none =>
      have hsame : b.timers.filter (fun t => t.id ≠ id) = b.timers := by
        rw [List.filter_eq_self]
        intro t ht
        rw [decide_eq_true_iff]
        exact timerIndex_none hi t ht
      rw [hsame] at hperm
      exact ⟨hperm, h.nodup, fun _ ht => ht⟩
  | some i =>
      obtain ⟨t, ht, rfl⟩ := timerIndex_some hi
      exact ⟨hperm.trans (filter_perm_swapRemove ht h.nodup), swapRemove_nodup ht h.nodup,
        fun _ hs => mem_of_mem_swapRemove ht hs⟩

theorem clearTimer_agrees {b : TimerBridge} {s : TimerSpec} (h : Agrees b s) (id : Nat) :
    ∃ s', Agrees (clearTimer b id) s' ∧ s'.now = s.now ∧ s'.batch = s.batch := by
  have hlog := timerSpec_cons h.log (.cleared id)
  obtain ⟨hperm, hnodup, hmem⟩ := clearTimer_timers h id
  exact ⟨_, ⟨hlog, hperm, hnodup, fun t ht => h.fresh t (hmem t ht), h.frames,
    h.frames_nodup, h.frames_fresh, h.lastTimer, h.lastFrame⟩, rfl, rfl⟩

theorem requestAnimationFrame_agrees {b : TimerBridge} {s : TimerSpec} (h : Agrees b s) :
    ∃ s', Agrees (requestAnimationFrame b) s' ∧ s'.now = s.now ∧ s'.batch = s.batch := by
  have hlog := timerSpec_cons h.log (.requested (b.rafNextId + 1))
  have hnew : s.lastFrame < b.rafNextId + 1 := Nat.lt_succ_of_le (Nat.le_of_eq h.lastFrame)
  refine ⟨_, ⟨hlog.trans (if_pos hnew), h.timers, h.nodup, h.fresh, ?_, ?_, ?_, h.lastTimer,
    rfl⟩, rfl, rfl⟩
  · unfold requestAnimationFrame
    dsimp only
    rw [h.frames]
  · unfold requestAnimationFrame
    rw [List.nodup_append]
    refine ⟨h.frames_nodup, List.nodup_singleton _, ?_⟩
    intro a ha c hc heq
    rw [List.mem_singleton] at hc
    have hbound := h.frames_fresh a ha
    omega
  · intro id hid
    rcases List.mem_append.1 hid with hid | hid
    · exact Nat.le_succ_of_le (h.frames_fresh id hid)
    · rw [List.mem_singleton.1 hid]
      exact Nat.le_refl _

theorem cancelAnimationFrame_agrees {b : TimerBridge} {s : TimerSpec} (h : Agrees b s)
    (id : Nat) :
    ∃ s', Agrees (cancelAnimationFrame b id) s' ∧ s'.now = s.now ∧
      s'.batch = s.batch.map (List.filter (· ≠ id)) := by
  have hlog := timerSpec_cons h.log (.cancelled id)
  refine ⟨_, ⟨hlog, h.timers, h.nodup, h.fresh, ?_, h.frames_nodup.erase _, ?_,
    h.lastTimer, h.lastFrame⟩, rfl, rfl⟩
  · unfold cancelAnimationFrame
    dsimp only
    rw [h.frames, h.frames_nodup.erase_eq_filter]
    congr 1
    funext a
    rw [Bool.eq_iff_iff, decide_eq_true_iff, bne_iff_ne]
  · intro a ha
    exact h.frames_fresh a (List.mem_of_mem_erase ha)

/-- A call of a script that cancels no frame of the batch. -/
theorem execTimerOp_agrees (clock : Nat → ℚ) {b : TimerBridge} {s : TimerSpec} (h : Agrees b s)
    (op : TimerOp)
    (hbatch : ∀ batch ∈ s.batch, ∀ id ∈ batch, .cancelAnimationFrame id ≠ op) :
    ∃ s', Agrees (execTimerOp clock b op) s' ∧ s'.now = s.now ∧ s'.batch = s.batch := by
  cases op with
  | setTimeout ms => exact addTimer_agrees h ms false
  | setInterval ms => exact addTimer_agrees h ms true
  | clearTimer id => exact clearTimer_agrees h id
  | requestAnimationFrame => exact requestAnimationFrame_agrees h
  | cancelAnimationFrame id =>
      obtain ⟨s', hs', hnow, hmap⟩ := cancelAnimationFrame_agrees h id
      refine ⟨s', hs', hnow, ?_⟩
      rw [hmap]
      cases hb : s.batch with
      | none => rfl
      | some batch =>
          have hkept : batch.filter (· ≠ id) = batch := by
            rw [List.filter_eq_self]
            intro a ha
            rw [decide_eq_true_iff]
            rintro rfl
            exact hbatch batch hb a ha rfl
          rw [Option.map_some, hkept]

theorem execTimerOps_agrees (clock : Nat → ℚ) (ops : List TimerOp) :
    ∀ {b : TimerBridge} {s : TimerSpec}, Agrees b s →
      (∀ batch ∈ s.batch, ∀ id ∈ batch, .cancelAnimationFrame id ∉ ops) →
        ∃ s', Agrees (execTimerOps clock b ops) s' ∧ s'.now = s.now ∧ s'.batch = s.batch := by
  induction ops with
  | nil =>
      intro b s h _
      exact ⟨s, h, rfl, rfl⟩
  | cons op ops ih =>
      intro b s h hbatch
      obtain ⟨s₁, h₁, hnow₁, hbatch₁⟩ := execTimerOp_agrees clock h op
        fun batch hb id hid heq => hbatch batch hb id hid (heq ▸ List.mem_cons_self)
      obtain ⟨s₂, h₂, hnow₂, hbatch₂⟩ := ih h₁ (by
        rw [hbatch₁]
        intro batch hb id hid hmem
        exact hbatch batch hb id hid (List.mem_cons_of_mem _ hmem))
      exact ⟨s₂, h₂, hnow₂.trans hnow₁, hbatch₂.trans hbatch₁⟩

/-! ## The loop of the pump -/

/-- The pump reads an earlier time than what is read later; no timer behind the index is due;
and those that are due stand in their order. -/
structure Pumping (clock : Nat → ℚ) (now : ℚ) (j : Nat) (b : TimerBridge) : Prop where
  later : now < clock b.reads
  behind : ∀ t ∈ b.timers.take j, t.isDue now = false
  sorted : DueSorted now b.timers

theorem DueSorted.of_sublist {now : ℚ} {l l' : List MiniTimer} (h : DueSorted now l)
    (hsub : (l'.filter (MiniTimer.isDue now)).Sublist (l.filter (MiniTimer.isDue now))) :
    DueSorted now l' :=
  List.Pairwise.sublist hsub h

theorem isDue_iff {now : ℚ} {t : MiniTimer} : t.isDue now = true ↔ t.due ≤ now :=
  decide_eq_true_iff

theorem isDue_of_lt {now : ℚ} {t : MiniTimer} (h : now < t.due) : t.isDue now = false :=
  decide_eq_false (not_le.2 h)

/-- An interval that is set again is not due in the same pump. -/
theorem isDue_rearmed (now : ℚ) (t : MiniTimer) :
    MiniTimer.isDue now { t with due := now + max t.interval 1 } = false :=
  isDue_of_lt (lt_add_of_pos_right now (lt_of_lt_of_le one_pos (le_max_right _ _)))

theorem addTimer_pumping (hclock : StrictMono clock) {now : ℚ} {j : Nat} {b : TimerBridge}
    (h : Pumping clock now j b) (ms : ℚ) (recurring : Bool) :
    Pumping clock now j (addTimer clock b ms recurring) := by
  have hnew : now < clock b.reads + max ms 0 :=
    lt_of_lt_of_le h.later (le_add_of_nonneg_right (le_max_right _ _))
  refine ⟨h.later.trans (hclock (Nat.lt_succ_self _)), ?_, ?_⟩
  · intro t ht
    unfold addTimer at ht
    rw [List.take_append] at ht
    rcases List.mem_append.1 ht with ht | ht
    · exact h.behind t ht
    · have hsame := List.mem_singleton.1 (List.mem_of_mem_take ht)
      rw [hsame]
      exact isDue_of_lt hnew
  · unfold addTimer DueSorted
    rw [List.filter_append, List.filter_cons_of_neg, List.filter_nil, List.append_nil]
    · exact h.sorted
    · rw [isDue_of_lt hnew]
      exact Bool.false_ne_true

theorem execTimerOp_pumping (hclock : StrictMono clock) {now : ℚ} {j : Nat} {b : TimerBridge}
    {op : TimerOp} (h : Pumping clock now j b) (hsafe : SafeOp now j b op) :
    Pumping clock now j (execTimerOp clock b op) := by
  cases op with
  | setTimeout ms => exact addTimer_pumping hclock h ms false
  | setInterval ms => exact addTimer_pumping hclock h ms true
  | clearTimer id =>
      unfold execTimerOp clearTimer
      dsimp only
      cases hi : timerIndex b.timers id with
      | none => exact ⟨h.later, h.behind, h.sorted⟩
      | some i =>
          obtain ⟨t, ht, -⟩ := timerIndex_some hi
          have hkeeps := hsafe i hi
          exact ⟨h.later, swapRemove_take ht hkeeps h.behind,
            h.sorted.of_sublist (swapRemove_filter ht hkeeps)⟩
  | requestAnimationFrame => exact ⟨h.later, h.behind, h.sorted⟩
  | cancelAnimationFrame id => exact ⟨h.later, h.behind, h.sorted⟩

theorem execTimerOps_pumping (hclock : StrictMono clock) {now : ℚ} {j : Nat} :
    ∀ {ops : List TimerOp} {b : TimerBridge}, Pumping clock now j b → SafeOps clock now j b ops →
      Pumping clock now j (execTimerOps clock b ops)
  | [], _, h, _ => h
  | op :: ops, b, h, ⟨hsafe, hsafes⟩ => by
      have hnext := execTimerOp_pumping hclock h hsafe
      unfold execTimerOps
      rw [List.foldl_cons]
      exact execTimerOps_pumping hclock hnext hsafes

/-! ## A timer that starts -/

theorem getElem?_split {l : List MiniTimer} {i : Nat} {t : MiniTimer} (h : l[i]? = some t) :
    l = l.take i ++ t :: l.drop (i + 1) ∧ (l.take i).length = i := by
  obtain ⟨hi, ht⟩ := List.getElem?_eq_some_iff.1 h
  refine ⟨?_, List.length_take_of_le (Nat.le_of_lt hi)⟩
  rw [← ht, List.getElem_cons_drop, List.take_append_drop]

theorem eq_of_id_eq {l : List MiniTimer} (hnodup : (l.map MiniTimer.id).Nodup)
    {t t' : MiniTimer} (ht : t ∈ l) (ht' : t' ∈ l) (hid : t.id = t'.id) : t = t' :=
  List.inj_on_of_nodup_map hnodup ht ht' hid

/-- The timer that the loop comes to is the first of those that are due. -/
theorem Pumping.first {now : ℚ} {i : Nat} {b : TimerBridge} {t : MiniTimer}
    (h : Pumping clock now i b) (ht : b.timers[i]? = some t) (hdue : t.due ≤ now) :
    ∀ t' ∈ b.timers, t'.due ≤ now → t.Before t' := by
  obtain ⟨hsplit, -⟩ := getElem?_split ht
  have hbehind : (b.timers.take i).filter (MiniTimer.isDue now) = [] := by
    rw [List.filter_eq_nil_iff]
    intro t' ht'
    rw [h.behind t' ht']
    exact Bool.false_ne_true
  have hsorted := h.sorted
  unfold DueSorted at hsorted
  rw [hsplit, List.filter_append, hbehind, List.nil_append,
    List.filter_cons_of_pos (isDue_iff.2 hdue), List.pairwise_cons] at hsorted
  intro t' ht' hdue'
  rw [hsplit] at ht'
  rcases List.mem_append.1 ht' with hmem | hmem
  · have hfalse := h.behind t' hmem
    rw [isDue_iff.2 hdue'] at hfalse
    exact Bool.noConfusion hfalse
  · rcases List.mem_cons.1 hmem with rfl | hmem
    · exact .inr ⟨rfl, Nat.le_refl _⟩
    · exact hsorted.1 t' (List.mem_filter.2 ⟨hmem, isDue_iff.2 hdue'⟩)

/-- An interval that is set again keeps its place. -/
theorem set_eq_map {l : List MiniTimer} {i : Nat} {t : MiniTimer} (h : l[i]? = some t)
    (hnodup : (l.map MiniTimer.id).Nodup) (t' : MiniTimer) :
    l.set i t' = l.map fun s => if s.id = t.id then t' else s := by
  obtain ⟨hi, ht⟩ := List.getElem?_eq_some_iff.1 h
  apply List.ext_getElem
  · rw [List.length_set, List.length_map]
  · intro k hk hk'
    rw [List.getElem_set, List.getElem_map]
    rw [List.length_set] at hk
    split_ifs with hik hid hid
    · rfl
    · subst hik
      exact absurd (congrArg MiniTimer.id ht) hid
    · have hsame := eq_of_id_eq hnodup (List.getElem_mem hk) (List.mem_of_getElem? h) hid
      rw [← ht] at hsame
      have hindex := (List.Nodup.getElem_inj_iff (List.Nodup.of_map _ hnodup)).1 hsame
      exact absurd hindex.symm hik
    · rfl

theorem takeDue_timers (now : ℚ) {b : TimerBridge} {s : TimerSpec} {i : Nat} {t : MiniTimer}
    (h : Agrees b s) (ht : b.timers[i]? = some t) :
    (rearm now t s.timers).Perm (takeDue b now i t).timers ∧
      ((takeDue b now i t).timers.map MiniTimer.id).Nodup ∧
      ∀ t' ∈ (takeDue b now i t).timers, t'.id ≤ b.tmNextId := by
  unfold rearm takeDue
  dsimp only
  split_ifs with hrecurring
  · rw [set_eq_map ht h.nodup]
    refine ⟨h.timers.map _, ?_, ?_⟩
    · have hids : (b.timers.map fun s => if s.id = t.id then
          { t with due := now + max t.interval 1 } else s).map MiniTimer.id =
          b.timers.map MiniTimer.id := by
        rw [List.map_map]
        apply List.map_congr_left
        intro t' _
        dsimp only [Function.comp]
        split_ifs with hid
        · exact hid.symm
        · rfl
      rw [hids]
      exact h.nodup
    · intro t' ht'
      obtain ⟨s', hs', rfl⟩ := List.mem_map.1 ht'
      split_ifs with hid
      · exact h.fresh t (List.mem_of_getElem? ht)
      · exact h.fresh s' hs'
  · have hperm := h.timers.filter fun s => s.id ≠ t.id
    exact ⟨hperm.trans (filter_perm_swapRemove ht h.nodup), swapRemove_nodup ht h.nodup,
      fun t' ht' => h.fresh t' (mem_of_mem_swapRemove ht ht')⟩

theorem takeDue_agrees {b : TimerBridge} {s : TimerSpec} {now : ℚ} {i : Nat} {t : MiniTimer}
    (h : Agrees b s) (hnow : s.now = some now) (hpumping : Pumping clock now i b)
    (ht : b.timers[i]? = some t) (hdue : t.due ≤ now) :
    ∃ s', Agrees (takeDue b now i t) s' ∧ s'.now = s.now ∧ s'.batch = s.batch := by
  have hmem : t ∈ s.timers := h.timers.mem_iff.2 (List.mem_of_getElem? ht)
  have hfind : s.timers.find? (fun t' => t'.id == t.id) = some t := by
    cases hfound : s.timers.find? (fun t' => t'.id == t.id) with
    | none =>
        have hnone := List.find?_eq_none.1 hfound t hmem
        rw [beq_self_eq_true] at hnone
        exact absurd rfl hnone
    | some t' =>
        have htest : (t'.id == t.id) = true :=
          List.find?_some (p := fun s : MiniTimer => s.id == t.id) hfound
        have hid := beq_iff_eq.1 htest
        have hmem' := h.timers.mem_iff.1 (List.mem_of_find?_eq_some hfound)
        rw [eq_of_id_eq h.nodup hmem' (List.mem_of_getElem? ht) hid]
  have hmay : s.MayStart now t := by
    refine ⟨hdue, fun t' ht' hdue' => ?_⟩
    exact hpumping.first ht hdue t' (h.timers.mem_iff.1 ht') hdue'
  have hstep : s.step (.started t.id) =
      some { s with timers := rearm now t s.timers } := by
    simp only [TimerSpec.step, hnow, hfind, if_pos hmay]
  have hlog := (timerSpec_cons h.log (.started t.id)).trans hstep
  obtain ⟨hperm, hnodup, hfresh⟩ := takeDue_timers now h ht
  exact ⟨_, ⟨hlog, hperm, hnodup, hfresh, h.frames, h.frames_nodup, h.frames_fresh,
    h.lastTimer, h.lastFrame⟩, rfl, rfl⟩

theorem takeDue_pumping {b : TimerBridge} {now : ℚ} {i : Nat} {t : MiniTimer}
    (h : Pumping clock now i b) (ht : b.timers[i]? = some t)
    (hsafe : t.recurring = false → SwapKeeps (MiniTimer.isDue now) i i b.timers) :
    Pumping clock now (nextIndex i t) (takeDue b now i t) := by
  unfold takeDue nextIndex
  split_ifs with hrecurring
  · obtain ⟨hsplit, hlength⟩ := getElem?_split ht
    have hset : b.timers.set i { t with due := now + max t.interval 1 } =
        b.timers.take i ++ { t with due := now + max t.interval 1 } ::
          b.timers.drop (i + 1) := by
      conv_lhs => rw [hsplit]
      rw [List.set_append_right _ _ (Nat.le_of_eq hlength), hlength, Nat.sub_self,
        List.set_cons_zero]
    refine ⟨h.later, ?_, ?_⟩
    · intro t' ht'
      dsimp only at ht'
      rw [hset, List.take_append, hlength, Nat.add_sub_cancel_left, List.take_succ_cons,
        List.take_zero, List.take_of_length_le (by omega)] at ht'
      rcases List.mem_append.1 ht' with ht' | ht'
      · exact h.behind t' ht'
      · rw [List.mem_singleton.1 ht']
        exact isDue_rearmed now t
    · apply h.sorted.of_sublist
      dsimp only
      rw [hset]
      conv_rhs => rw [hsplit]
      rw [List.filter_append, List.filter_append,
        List.filter_cons_of_neg (by rw [isDue_rearmed]; exact Bool.false_ne_true)]
      exact List.Sublist.append_left (((List.sublist_cons_self t _).filter _)) _
  · have hkeeps := hsafe (Bool.eq_false_iff.2 hrecurring)
    exact ⟨h.later, swapRemove_take ht hkeeps h.behind,
      h.sorted.of_sublist (swapRemove_filter ht hkeeps)⟩

/-! ## Runs -/

/-- What holds between two steps. -/
structure TimerInv (clock : Nat → ℚ) (m : TimerMachine) (s : TimerSpec) : Prop where
  agrees : Agrees m.bridge s
  control : match m.control with
    | .idle => s.now = none ∧ s.batch = none
    | .pump now i => (s.now = some now ∧ s.batch = none) ∧ Pumping clock now i m.bridge
    | .raf batch => s.now = none ∧ s.batch = some batch

theorem noBatch {s : TimerSpec} (h : s.batch = none) (ops : List TimerOp) :
    ∀ batch ∈ s.batch, ∀ id ∈ batch, .cancelAnimationFrame id ∉ ops := by
  intro batch hb
  rw [h] at hb
  cases hb

/-- Between two calls, the next call begins. -/
theorem idle_inv (hclock : StrictMono clock) {b : TimerBridge} {todo : List TimerCall}
    {s : TimerSpec} (hagrees : Agrees b s) (hnow : s.now = none) (hbatch : s.batch = none)
    (hsafe : SafeTimerStep clock program ⟨b, .idle, todo⟩) :
    ∃ s', TimerInv clock (TimerMachine.step clock program ⟨b, .idle, todo⟩) s' := by
  match todo with
  | [] => exact ⟨s, hagrees, hnow, hbatch⟩
  | .script ops :: todo =>
      obtain ⟨s', hs', hnow', hbatch'⟩ :=
        execTimerOps_agrees clock _ hagrees (noBatch hbatch ops)
      exact ⟨s', hs', hnow'.trans hnow, hbatch'.trans hbatch⟩
  | .pump :: todo =>
      have hstep : s.step (.pumpBegin (clock b.reads)) =
          some { s with now := some (clock b.reads) } := if_pos ⟨hnow, hbatch⟩
      refine ⟨_, hagrees.note hstep (b.reads + 1) b.calls, ⟨rfl, hbatch⟩, ?_⟩
      refine ⟨hclock (Nat.lt_succ_self _), ?_, hsafe rfl⟩
      intro t ht
      exact absurd ht List.not_mem_nil
  | .fireRaf :: todo =>
      have hlog := timerSpec_cons hagrees.log .rafBegin
      have hstep : s.step .rafBegin = some { s with frames := [], batch := some s.frames } :=
        if_pos ⟨hnow, hbatch⟩
      refine ⟨_, ⟨hlog.trans hstep, hagrees.timers, hagrees.nodup, hagrees.fresh, rfl,
        List.nodup_nil, ?_, hagrees.lastTimer, hagrees.lastFrame⟩, hnow,
        congrArg some hagrees.frames⟩
      intro id hid
      exact absurd hid List.not_mem_nil

/-- When the index is behind the last timer, none that is due is left. -/
theorem Pumping.none_due {b : TimerBridge} {s : TimerSpec} {now : ℚ} {i : Nat}
    (h : Pumping clock now i b) (hagrees : Agrees b s) (hend : b.timers.length ≤ i) :
    ∀ t ∈ s.timers, ¬ t.due ≤ now := by
  intro t hmem hdue
  have hbehind := h.behind t (by
    rw [List.take_of_length_le hend]
    exact hagrees.timers.mem_iff.1 hmem)
  rw [isDue_iff.2 hdue] at hbehind
  exact Bool.noConfusion hbehind

/-- The loop of the pump ends, starts a timer, or passes one that is not due. -/
theorem pump_inv (hclock : StrictMono clock) {b : TimerBridge} {todo : List TimerCall} {now : ℚ}
    {i : Nat} {s : TimerSpec} (hagrees : Agrees b s) (hnow : s.now = some now)
    (hbatch : s.batch = none) (hpumping : Pumping clock now i b)
    (hsafe : SafeTimerStep clock program ⟨b, .pump now i, todo⟩) :
    ∃ s', TimerInv clock (TimerMachine.step clock program ⟨b, .pump now i, todo⟩) s' := by
  unfold TimerMachine.step
  dsimp only
  cases ht : b.timers[i]? with
  | none =>
      have hnone := hpumping.none_due hagrees (List.getElem?_eq_none_iff.1 ht)
      have hstep : s.step .pumpEnd = some { s with now := none } := by
        simp only [TimerSpec.step, hnow, if_pos hnone]
      exact ⟨_, hagrees.note hstep b.reads b.calls, rfl, hbatch⟩
  | some t =>
      dsimp only
      split_ifs with hdue
      · obtain ⟨htaken, hops⟩ := hsafe t ht hdue
        obtain ⟨s₁, h₁, hnow₁, hbatch₁⟩ := takeDue_agrees hagrees hnow hpumping ht hdue
        obtain ⟨s₂, h₂, hnow₂, hbatch₂⟩ := execTimerOps_agrees clock _ h₁
          (noBatch (hbatch₁.trans hbatch) (program b.calls))
        have hnext := takeDue_pumping hpumping ht htaken
        refine ⟨s₂, h₂, ⟨?_, ?_⟩, execTimerOps_pumping hclock hnext hops⟩
        · exact hnow₂.trans (hnow₁.trans hnow)
        · exact hbatch₂.trans (hbatch₁.trans hbatch)
      · refine ⟨s, hagrees, ⟨hnow, hbatch⟩, hpumping.later, ?_, hpumping.sorted⟩
        intro t' ht'
        obtain ⟨hi, hti⟩ := List.getElem?_eq_some_iff.1 ht
        rw [List.take_succ_eq_append_getElem hi] at ht'
        rcases List.mem_append.1 ht' with ht' | ht'
        · exact hpumping.behind t' ht'
        · rw [List.mem_singleton.1 ht', hti]
          exact decide_eq_false hdue

/-- The fire ends, or calls the next frame of its batch. -/
theorem raf_inv {b : TimerBridge} {todo : List TimerCall} {batch : List Nat} {s : TimerSpec}
    (hagrees : Agrees b s) (hnow : s.now = none) (hbatch : s.batch = some batch)
    (hsafe : SafeTimerStep clock program ⟨b, .raf batch, todo⟩) :
    ∃ s', TimerInv clock (TimerMachine.step clock program ⟨b, .raf batch, todo⟩) s' := by
  match batch with
  | [] =>
      have hstep : s.step .rafEnd = some { s with batch := none } := if_pos hbatch
      exact ⟨_, hagrees.note hstep b.reads b.calls, hnow, rfl⟩
  | id :: batch =>
      have hstep : s.step (.frame id) = some { s with batch := some batch } := by
        simp only [TimerSpec.step, hbatch, if_pos]
      obtain ⟨s', hs', hnow', hbatch'⟩ := execTimerOps_agrees clock
        (program b.calls) (hagrees.note hstep b.reads (b.calls + 1)) (by
          intro batch' hb id' hid'
          cases hb
          exact hsafe id' hid')
      exact ⟨s', hs', hnow'.trans hnow, hbatch'⟩

theorem step_inv (hclock : StrictMono clock) {m : TimerMachine} {s : TimerSpec}
    (h : TimerInv clock m s) (hsafe : SafeTimerStep clock program m) :
    ∃ s', TimerInv clock (m.step clock program) s' := by
  obtain ⟨b, control, todo⟩ := m
  obtain ⟨hagrees, hcontrol⟩ := h
  cases control with
  | idle => exact idle_inv hclock hagrees hcontrol.1 hcontrol.2 hsafe
  | pump now i => exact pump_inv hclock hagrees hcontrol.1.1 hcontrol.1.2 hcontrol.2 hsafe
  | raf batch => exact raf_inv hagrees hcontrol.1 hcontrol.2 hsafe

theorem timerRun_inv (hclock : StrictMono clock) (calls : List TimerCall) :
    ∀ n, (∀ k < n, SafeTimerStep clock program (timerRun clock program calls k)) →
      ∃ s, TimerInv clock (timerRun clock program calls n) s
  | 0, _ => by
      refine ⟨{}, ⟨rfl, List.Perm.refl _, List.nodup_nil, ?_, rfl, List.nodup_nil, ?_, rfl, rfl⟩,
        rfl, rfl⟩
      · intro t ht
        exact absurd ht List.not_mem_nil
      · intro id hid
        exact absurd hid List.not_mem_nil
  | n + 1, hsafe => by
      obtain ⟨s, hs⟩ := timerRun_inv hclock calls n fun k hk => hsafe k (Nat.lt_succ_of_lt hk)
      exact step_inv hclock hs (hsafe n (Nat.lt_succ_self n))

/-! ## Every call ends -/

/-- How many timers are due. -/
def dueCount (now : ℚ) (b : TimerBridge) : Nat := b.timers.countP (MiniTimer.isDue now)

theorem countP_swapRemove {P : MiniTimer → Bool} {l : List MiniTimer} {i : Nat} {t : MiniTimer}
    (h : l[i]? = some t) : l.countP P = (if P t then 1 else 0) + (swapRemove l i).countP P := by
  rw [(swapRemove_perm h).countP_eq, List.countP_cons]
  exact Nat.add_comm _ _

/-- A script sets no timer that is due in a pump that read the clock before. -/
theorem execTimerOp_dueCount (hclock : StrictMono clock) {now : ℚ} {b : TimerBridge}
    (h : now < clock b.reads) (op : TimerOp) :
    now < clock (execTimerOp clock b op).reads ∧
      dueCount now (execTimerOp clock b op) ≤ dueCount now b := by
  have hadd : ∀ ms recurring, now < clock (addTimer clock b ms recurring).reads ∧
      dueCount now (addTimer clock b ms recurring) ≤ dueCount now b := by
    intro ms recurring
    refine ⟨h.trans (hclock (Nat.lt_succ_self _)), ?_⟩
    have hnew : now < clock b.reads + max ms 0 :=
      lt_of_lt_of_le h (le_add_of_nonneg_right (le_max_right _ _))
    unfold dueCount addTimer
    rw [List.countP_append, List.countP_cons_of_neg, List.countP_nil, Nat.add_zero]
    rw [isDue_of_lt hnew]
    exact Bool.false_ne_true
  cases op with
  | setTimeout ms => exact hadd ms false
  | setInterval ms => exact hadd ms true
  | clearTimer id =>
      refine ⟨h, ?_⟩
      unfold execTimerOp clearTimer dueCount
      dsimp only
      cases hi : timerIndex b.timers id with
      | none => exact Nat.le_refl _
      | some i =>
          obtain ⟨t, ht, -⟩ := timerIndex_some hi
          dsimp only
          rw [countP_swapRemove ht]
          exact Nat.le_add_left _ _
  | requestAnimationFrame => exact ⟨h, Nat.le_refl _⟩
  | cancelAnimationFrame id => exact ⟨h, Nat.le_refl _⟩

theorem execTimerOps_dueCount (hclock : StrictMono clock) {now : ℚ} :
    ∀ (ops : List TimerOp) {b : TimerBridge}, now < clock b.reads →
      now < clock (execTimerOps clock b ops).reads ∧
        dueCount now (execTimerOps clock b ops) ≤ dueCount now b
  | [], _, h => ⟨h, Nat.le_refl _⟩
  | op :: ops, b, h => by
      obtain ⟨hnext, hle⟩ := execTimerOp_dueCount hclock h op
      obtain ⟨hrest, hle'⟩ := execTimerOps_dueCount hclock ops hnext
      exact ⟨hrest, hle'.trans hle⟩

theorem takeDue_dueCount {b : TimerBridge} {now : ℚ} {i : Nat} {t : MiniTimer}
    (ht : b.timers[i]? = some t) (hdue : t.due ≤ now) :
    dueCount now (takeDue b now i t) < dueCount now b := by
  have hsplit := countP_swapRemove (P := MiniTimer.isDue now) ht
  rw [isDue_iff.2 hdue, if_pos rfl] at hsplit
  unfold dueCount takeDue
  dsimp only
  split_ifs with hrecurring
  · obtain ⟨hi, htop⟩ := List.getElem?_eq_some_iff.1 ht
    rw [List.countP_set hi, htop, isDue_iff.2 hdue, isDue_rearmed, if_pos rfl,
      if_neg Bool.false_ne_true]
    omega
  · omega

/-- The machine is between two calls after some steps, with the same calls to come. -/
def Ends (clock : Nat → ℚ) (program : Nat → List TimerOp) (m : TimerMachine) : Prop :=
  ∃ n, ((TimerMachine.step clock program)^[n] m).control = .idle ∧
    ((TimerMachine.step clock program)^[n] m).todo = m.todo

theorem Ends.of_step {m : TimerMachine} (h : Ends clock program (m.step clock program))
    (htodo : (m.step clock program).todo = m.todo) : Ends clock program m := by
  obtain ⟨n, hidle, hsame⟩ := h
  exact ⟨n + 1, hidle, hsame.trans htodo⟩

theorem Ends.idle {m : TimerMachine} (h : m.control = .idle) : Ends clock program m :=
  ⟨0, h, rfl⟩

/-- The loop of the pump ends: with each callback fewer timers are due, and without one the
index comes nearer to the end. -/
theorem pump_ends (hclock : StrictMono clock) (c : Nat) :
    ∀ (k : Nat) (b : TimerBridge) (todo : List TimerCall) (now : ℚ) (i : Nat),
      now < clock b.reads → dueCount now b = c → b.timers.length - i = k →
        Ends clock program ⟨b, .pump now i, todo⟩ := by
  induction c using Nat.strong_induction_on with
  | h c ihc =>
    intro k
    induction k using Nat.strong_induction_on with
    | h k ihk =>
      intro b todo now i hlater hcount hlength
      cases ht : b.timers[i]? with
      | none =>
          have hstep : TimerMachine.step clock program ⟨b, .pump now i, todo⟩ =
              ⟨{ b with log := .pumpEnd :: b.log }, .idle, todo⟩ := by
            simp only [TimerMachine.step, ht]
          apply Ends.of_step
          · rw [hstep]
            exact Ends.idle rfl
          · rw [hstep]
      | some t =>
          obtain ⟨hi, -⟩ := List.getElem?_eq_some_iff.1 ht
          by_cases hdue : t.due ≤ now
          · have hstep : TimerMachine.step clock program ⟨b, .pump now i, todo⟩ =
                ⟨execTimerOps clock (takeDue b now i t) (program b.calls),
                  .pump now (nextIndex i t), todo⟩ := by
              simp only [TimerMachine.step, ht, if_pos hdue]
            have htaken := takeDue_dueCount ht hdue
            obtain ⟨hlater', hle⟩ := execTimerOps_dueCount hclock (program b.calls)
              (b := takeDue b now i t) hlater
            apply Ends.of_step
            · rw [hstep]
              exact ihc _ (by omega) _ _ _ _ _ hlater' rfl rfl
            · rw [hstep]
          · have hstep : TimerMachine.step clock program ⟨b, .pump now i, todo⟩ =
                ⟨b, .pump now (i + 1), todo⟩ := by
              simp only [TimerMachine.step, ht, if_neg hdue]
            apply Ends.of_step
            · rw [hstep]
              exact ihk _ (by omega) _ _ _ _ hlater hcount rfl
            · rw [hstep]

theorem raf_ends (batch : List Nat) (todo : List TimerCall) :
    ∀ b : TimerBridge, Ends clock program ⟨b, .raf batch, todo⟩ := by
  induction batch with
  | nil =>
      intro b
      apply Ends.of_step
      · exact Ends.idle rfl
      · rfl
  | cons id batch ih =>
      intro b
      apply Ends.of_step
      · exact ih _
      · rfl

/-- All calls are made and end. -/
theorem calls_end (program : Nat → List TimerOp) (hclock : StrictMono clock)
    (todo : List TimerCall) :
    ∀ b : TimerBridge, ∃ n,
      ((TimerMachine.step clock program)^[n] ⟨b, .idle, todo⟩).control = .idle ∧
        ((TimerMachine.step clock program)^[n] ⟨b, .idle, todo⟩).todo = [] := by
  induction todo with
  | nil =>
      intro b
      exact ⟨0, rfl, rfl⟩
  | cons call todo ih =>
      intro b
      have hfirst : Ends clock program
          (TimerMachine.step clock program ⟨b, .idle, call :: todo⟩) := by
        cases call with
        | script ops => exact Ends.idle rfl
        | pump => exact pump_ends hclock _ _ _ _ _ _ (hclock (Nat.lt_succ_self _)) rfl rfl
        | fireRaf => exact raf_ends _ _ _
      obtain ⟨n, hidle, hsame⟩ := hfirst
      have htodo : (TimerMachine.step clock program ⟨b, .idle, call :: todo⟩).todo = todo := by
        cases call <;> rfl
      generalize hm : (TimerMachine.step clock program)^[n]
        (TimerMachine.step clock program ⟨b, .idle, call :: todo⟩) = reached at hidle hsame
      obtain ⟨b', control, todo'⟩ := reached
      dsimp only at hidle hsame
      rw [htodo] at hsame
      subst hidle hsame
      obtain ⟨n', hidle', hdone⟩ := ih b'
      refine ⟨n' + (n + 1), ?_, ?_⟩
      · rw [Function.iterate_add_apply, Function.iterate_succ_apply, hm]
        exact hidle'
      · rw [Function.iterate_add_apply, Function.iterate_succ_apply, hm]
        exact hdone

theorem timerRun_eq_iterate (calls : List TimerCall) (n : Nat) :
    timerRun clock program calls n = (TimerMachine.step clock program)^[n] { todo := calls } := by
  induction n with
  | zero => rfl
  | succ n ih => rw [timerRun, ih, Function.iterate_succ_apply']

end Steps

/-- Every run comes to its end, and while its steps are safe, timers and frames start exactly
as they may: each that is due in its pump and in its order, each frame in its fire, and none
that was cleared or cancelled. -/
theorem timerRun_accepted {clock : Nat → ℚ} (hclock : StrictMono clock)
    (program : Nat → List TimerOp) (calls : List TimerCall) :
    (∃ n, (timerRun clock program calls n).control = .idle ∧
      (timerRun clock program calls n).todo = []) ∧
    ∀ n, (∀ k < n, SafeTimerStep clock program (timerRun clock program calls k)) →
      ∃ s, timerSpec (timerRun clock program calls n).bridge.log = some s := by
  constructor
  · obtain ⟨n, hidle, hdone⟩ := calls_end program hclock calls {}
    refine ⟨n, ?_, ?_⟩
    · rw [timerRun_eq_iterate]
      exact hidle
    · rw [timerRun_eq_iterate]
      exact hdone
  · intro n hsafe
    obtain ⟨s, hs⟩ := timerRun_inv hclock calls n hsafe
    exact ⟨s, hs.agrees.log⟩

/-- A clock that goes on by thirty at each reading. -/
def thirties (n : Nat) : ℚ := 30 * n

theorem thirties_strictMono : StrictMono thirties := by
  intro a b hab
  have hcast : (a : ℚ) < b := by exact_mod_cast hab
  unfold thirties
  linarith

/-- Two timeouts and a frame, in their order. -/
theorem timerRun_accepted_two :
    ∃ s, timerSpec (timerRun thirties (fun _ => [])
      [.script [.setTimeout 1, .setTimeout 1, .requestAnimationFrame], .pump, .fireRaf]
      9).bridge.log = some s := by
  apply (timerRun_accepted thirties_strictMono (fun _ => [])
    [.script [.setTimeout 1, .setTimeout 1, .requestAnimationFrame], .pump, .fireRaf]).2
  decide +kernel

/-- The later of two timeouts that are due starts first. -/
theorem earlier_timeout_second :
    ¬ ∃ s, timerSpec (timerRun thirties (fun _ => [])
      [.script [.setTimeout 50, .setTimeout 1], .pump] 9).bridge.log = some s := by
  have hnone : timerSpec (timerRun thirties (fun _ => [])
      [.script [.setTimeout 50, .setTimeout 1], .pump] 9).bridge.log = none := by
    decide +kernel
  rw [hnone]
  rintro ⟨s, hs⟩
  cases hs

end TinyFramework.Js
