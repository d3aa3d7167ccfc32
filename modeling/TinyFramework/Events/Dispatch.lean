/-
  Events/Dispatch.lean --- the dispatch of events.

  A callback may add and remove listeners while the table is scanned.  What it does is a
  list of actions that may depend on everything that was called and removed before.  Of
  the event the dispatch reads the type, whether it bubbles, and `stopPropagation`.

  As long as nothing runs the table and the attributes stay as they are, so what will run can be
  told from the state before: something does exactly if a node of the path has an active listener
  that hears the event, or an inline handler.
-/
import TinyFramework.Events.Listeners
import TinyFramework.Foundation.Forest

set_option autoImplicit false

namespace TinyFramework.Events

open TinyFramework.Foundation TinyFramework.Dom

/-- `MiniEvent.phase` -/
inductive Phase where
  | capture
  | target
  | bubble
  deriving DecidableEq, Repr

/-- The fields of a `MiniEvent` that are set before the dispatch. -/
structure Event where
  type : Bytes
  bubbles : Bool
  deriving DecidableEq

/-- Whether a listener of one type hears an event of another: the pointer types are heard
with the mouse events. -/
def typeMatches (listener ev : Bytes) : Bool :=
  listener == ev ||
    (ev == ascii "mousedown" && listener == ascii "pointerdown") ||
    (ev == ascii "mousemove" && listener == ascii "pointermove") ||
    (ev == ascii "mouseup" && listener == ascii "pointerup") ||
    (ev == ascii "mouseleave" && listener == ascii "pointercancel")

/-- Whether a listener fires in a phase. -/
def fires (phase : Phase) (l : Listener) : Bool :=
  match phase with
  | .capture => l.useCapture
  | .target => true
  | .bubble => !l.useCapture

/-- A listener called: in which firing, where, and in which phase. -/
structure Call where
  turn : Nat
  node : NodeId
  phase : Phase
  listener : Listener
  deriving DecidableEq

/-- What happens during a dispatch. -/
inductive TraceEvent where
  /-- The firing of a turn begins, behind that many registrations. -/
  | enter (turn added : Nat)
  | call (c : Call)
  | inline (turn : Nat) (node : NodeId)
  | remove (l : Listener)
  deriving DecidableEq

/-- The calls of a trace. -/
def calls (trace : List TraceEvent) : List Call :=
  trace.filterMap fun
    | .call c => some c
    | _ => none

/-- What a callback does. -/
inductive Action where
  | add (r : Request)
  | remove (h : Option Nat)
  | stopPropagation
  deriving DecidableEq

/-- The callbacks, `inline_handler_cb`, and the attributes of the document, all of which may
depend on what happened before. -/
structure Host where
  callback : List TraceEvent → Listener → List Action
  inlineHandler : Option (List TraceEvent → NodeId → Bytes → List Action)
  attr : List TraceEvent → NodeId → Bytes → Option Bytes

/-- The state of a dispatch.  `safe` is not in the source: it says that no listener was
added to a slot that breaks the order of its node or that the pass has still to visit. -/
structure Firing where
  reg : Registry
  stop : Bool
  trace : List TraceEvent
  safe : Bool
  deriving DecidableEq

/-- The pass that is under way: where it stands in the table, and where it ends. -/
structure Pass where
  node : NodeId
  index : Nat
  count : Nat

/-- Whether a request may be put into a slot: no listener of its node that hears the event
stands behind it, and the pass does not come by. -/
def slotSafe (ev : Event) (pass : Pass) (st : Registry) (r : Request) (i : Nat) : Bool :=
  !typeMatches (r.listener st.added).type ev.type ||
    ((st.ls.drop (i + 1)).all fun m =>
      !m.active || m.target != r.target || !typeMatches m.type ev.type) &&
    !(r.target == some pass.node && pass.index < i && i < pass.count)

/-- One action of a callback. -/
def Firing.act (ev : Event) (pass : Pass) (s : Firing) : Action → Firing
  | .add r =>
      match miniEventsAddListener s.reg r with
      | (some i, reg) => { s with reg := reg, safe := s.safe && slotSafe ev pass s.reg r i }
      | (none, reg) => { s with reg := reg }
  | .remove h =>
      let removed := match h.bind (s.reg.ls[·]?) with
        | some l => if l.active then [.remove l] else []
        | none => []
      { s with reg := miniEventsRemoveListener s.reg h, trace := s.trace ++ removed }
  | .stopPropagation => { s with stop := true }

/-- The slots of `fire_at` from `i` on; `count` is the snapshot of `ls_n`. -/
def fireLoop (host : Host) (ev : Event) (node : NodeId) (phase : Phase) (turn count : Nat) :
    Nat → Nat → Firing → Firing
  | 0, _, s => s
  | fuel + 1, i, s =>
      if i < count then
        match s.reg.ls[i]? with
        | none => s
        | some l =>
            if l.active = true ∧ l.target = some node ∧ typeMatches l.type ev.type = true ∧
                fires phase l = true then
              let s := { s with trace := s.trace ++ [.call ⟨turn, node, phase, l⟩] }
              let s := (host.callback s.trace l).foldl (Firing.act ev ⟨node, i, count⟩) s
              if s.stop then s else fireLoop host ev node phase turn count fuel (i + 1) s
            else fireLoop host ev node phase turn count fuel (i + 1) s
      else s

/-- The inline `on<type>` attribute. -/
def fireInline (host : Host) (ev : Event) (node : NodeId) (phase : Phase) (turn count : Nat)
    (s : Firing) : Firing :=
  match host.inlineHandler with
  | some handler =>
      if phase = .target ∨ phase = .bubble then
        match host.attr s.trace node ((ascii "on" ++ ev.type).take 31) with
        | some (c :: code) =>
            let s := { s with trace := s.trace ++ [.inline turn node] }
            (handler s.trace node (c :: code)).foldl (Firing.act ev ⟨node, count, count⟩) s
        | _ => s
      else s
  | none => s

/-- `fire_at` -/
def fireAt (host : Host) (ev : Event) (node : NodeId) (phase : Phase) (turn : Nat) (s : Firing) :
    Firing :=
  let count := s.reg.ls.length
  let s := { s with trace := s.trace ++ [.enter turn s.reg.added] }
  let s := fireLoop host ev node phase turn count count 0 s
  if s.stop then s else fireInline host ev node phase turn count s

/-- `path`: the target and what is above it, 64 nodes at most. -/
def path (d : NodeHeap) (target : NodeId) : List NodeId := ancestors d.parentOf 63 target

/-- The firings of a dispatch along a path from the target upwards: capture from the root
down, the target, and bubble up again if the event bubbles. -/
def plan (ev : Event) (path : List NodeId) : List (Phase × NodeId) :=
  path.tail.reverse.map (Prod.mk .capture) ++ (path.take 1).map (Prod.mk .target) ++
    if ev.bubbles then path.tail.map (Prod.mk .bubble) else []

/-- The firings, one after another. -/
def fireAll (host : Host) (ev : Event) : Nat → List (Phase × NodeId) → Firing → Firing
  | _, [], s => s
  | turn, (phase, node) :: rest, s =>
      let s := fireAt host ev node phase turn s
      if s.stop then s else fireAll host ev (turn + 1) rest s

/-- `mini_event_dispatch` -/
def miniEventDispatch (d : NodeHeap) (host : Host) (st : Registry) (ev : Event) (target : NodeId) :
    Firing :=
  fireAll host ev 0 (plan ev (path d target))
    { reg := st, stop := false, trace := [], safe := true }

/-! ## The plan -/

/-- The path reaches the root. -/
def PathWhole (d : NodeHeap) (target : NodeId) : Prop :=
  ∀ n, (path d target).getLast? = some n → d.parentOf n = none

instance (d : NodeHeap) (target : NodeId) : Decidable (PathWhole d target) :=
  inferInstanceAs (Decidable (∀ n, n ∈ (path d target).getLast? → d.parentOf n = none))

theorem mem_ancestors_of_whole {parent : NodeId → Option NodeId} {k : Nat} {x a : NodeId}
    (hwhole : ∀ n, (ancestors parent k x).getLast? = some n → parent n = none)
    (h : Below parent x a) : a ∈ ancestors parent k x := by
  induction k generalizing x with
  | zero =>
    rcases h.eq_or_parent with rfl | ⟨p, hp, -⟩
    · exact mem_ancestors_self parent 0 _
    · rw [hwhole x rfl] at hp
      exact absurd hp.symm (Option.some_ne_none p)
  | succ k ih =>
    rcases h.eq_or_parent with rfl | ⟨p, hp, hpa⟩
    · exact mem_ancestors_self parent _ _
    · have hmem := ih (x := p) (fun n hn => hwhole n (by
        cases hk : ancestors parent k p with
        | nil => rw [hk] at hn; exact absurd hn.symm (Option.some_ne_none n)
        | cons y ys =>
          rw [hk] at hn
          simp only [ancestors, hp, hk]
          exact hn)) hpa
      simp only [ancestors, hp]
      exact List.mem_cons_of_mem _ hmem

theorem path_eq_cons (d : NodeHeap) (target : NodeId) :
    ∃ above, path d target = target :: above := ⟨_, rfl⟩

/-- No listener fires in two turns of a plan. -/
theorem plan_pairwise (ev : Event) {t : NodeId} {above : List NodeId} (h : (t :: above).Nodup) :
    (plan ev (t :: above)).Pairwise fun e e' =>
      e.2 = e'.2 → ∀ l, ¬ (fires e.1 l = true ∧ fires e'.1 l = true) := by
  obtain ⟨ht, habove⟩ := List.nodup_cons.1 h
  have hdiff : ∀ phase, above.Pairwise fun a b => a = b → ∀ l,
      ¬ (fires phase l = true ∧ fires phase l = true) :=
    fun phase => habove.imp fun hne heq => absurd heq hne
  have hcapture : (above.reverse.map (Prod.mk Phase.capture)).Pairwise fun e e' =>
      e.2 = e'.2 → ∀ l, ¬ (fires e.1 l = true ∧ fires e'.1 l = true) := by
    rw [List.pairwise_map, List.pairwise_reverse]
    exact habove.imp fun hne heq => absurd heq.symm hne
  have hbubble : (above.map (Prod.mk Phase.bubble)).Pairwise fun e e' =>
      e.2 = e'.2 → ∀ l, ¬ (fires e.1 l = true ∧ fires e'.1 l = true) := by
    rw [List.pairwise_map]
    exact hdiff .bubble
  unfold plan
  rw [List.pairwise_append, List.pairwise_append]
  refine ⟨⟨hcapture, List.pairwise_singleton _ _, ?_⟩, ?_, ?_⟩
  · intro e he e' he' heq
    obtain ⟨a, ha, rfl⟩ := List.mem_map.1 he
    obtain rfl := List.mem_singleton.1 he'
    have hat : a = t := heq
    exact absurd (hat ▸ List.mem_reverse.1 ha) ht
  · split_ifs
    · exact hbubble
    · exact List.Pairwise.nil
  · intro e he e' he' heq l hl
    split_ifs at he' with hb
    · obtain ⟨b, hbmem, rfl⟩ := List.mem_map.1 he'
      rcases List.mem_append.1 he with he | he
      · obtain ⟨a, ha, rfl⟩ := List.mem_map.1 he
        simp [fires] at hl
      · obtain rfl := List.mem_singleton.1 he
        have htb : t = b := heq
        exact absurd (htb ▸ hbmem) ht
    · exact absurd he' (List.not_mem_nil)

/-- Every node of the path has its turns. -/
theorem exists_turn (ev : Event) {t n : NodeId} {above : List NodeId} {l : Listener}
    (hn : n ∈ t :: above) (hfires : n = t ∨ l.useCapture = true ∨ ev.bubbles = true) :
    ∃ (turn : Nat) (phase : Phase),
      (plan ev (t :: above))[turn]? = some (phase, n) ∧ fires phase l = true := by
  have hmem : ∀ phase, (phase, n) ∈ plan ev (t :: above) → fires phase l = true →
      ∃ (turn : Nat) (phase : Phase),
      (plan ev (t :: above))[turn]? = some (phase, n) ∧ fires phase l = true := by
    intro phase h hf
    obtain ⟨turn, hturn⟩ := List.mem_iff_getElem?.1 h
    exact ⟨turn, phase, hturn, hf⟩
  rcases List.mem_cons.1 hn with rfl | habove
  · exact hmem .target (by simp [plan]) rfl
  · by_cases hcap : l.useCapture = true
    · exact hmem .capture (by simp [plan, habove]) hcap
    · rcases hfires with rfl | hcap' | hb
      · exact hmem .target (by simp [plan]) rfl
      · exact absurd hcap' hcap
      · exact hmem .bubble (by simp [plan, hb, habove]) (by simpa [fires] using hcap)

/-! ## Dispatches in which nothing runs -/

/-- A listener or an inline handler runs. -/
def TraceEvent.isHeard : TraceEvent → Bool
  | .call _ => true
  | .inline _ _ => true
  | _ => false

/-- Nothing has run. -/
def Unheard (trace : List TraceEvent) : Prop := ∀ e ∈ trace, e.isHeard = false

/-- The text of the inline handler. -/
def Host.inlineText (host : Host) (ev : Event) (node : NodeId) : Bytes :=
  (host.attr [] node ((ascii "on" ++ ev.type).take 31)).getD []

/-- A slot that fires at a node in a phase. -/
def Listener.FiresAt (l : Listener) (ev : Event) (phase : Phase) (node : NodeId) : Prop :=
  l.active = true ∧ l.target = some node ∧ typeMatches l.type ev.type = true ∧ fires phase l = true

/-- Nothing fires at a node in a phase. -/
def QuietAt (host : Host) (ev : Event) (st : Registry) (phase : Phase) (node : NodeId) : Prop :=
  (∀ l ∈ st.ls, ¬ l.FiresAt ev phase node) ∧
    (phase = .target ∨ phase = .bubble → host.inlineText ev node = [])

/-- The nodes of a path have no listener and no handler for the event. -/
def QuietPath (host : Host) (ev : Event) (st : Registry) (path : List NodeId) : Prop :=
  ∀ node ∈ path, (∀ l ∈ st.ls, l.active = true → l.target = some node →
    typeMatches l.type ev.type = false) ∧ host.inlineText ev node = []

/-- Attributes change only where something runs. -/
structure Host.Steady (host : Host) : Prop where
  inlineHandler : host.inlineHandler.isSome = true
  attr : ∀ trace, Unheard trace → host.attr trace = host.attr []

variable {host : Host} {ev : Event} {node : NodeId} {phase : Phase} {turn count : Nat} {s : Firing}

/-! ## What a dispatch keeps -/

/-- The firing of a turn, the call of a listener and an inline handler all keep it. -/
structure Host.Keeps (host : Host) (ev : Event) (P : Firing → Prop) : Prop where
  enter : ∀ s turn, P s → P { s with trace := s.trace ++ [.enter turn s.reg.added] }
  call : ∀ s pass c, P s →
    P ((host.callback (s.trace ++ [.call c]) c.listener).foldl (Firing.act ev pass)
      { s with trace := s.trace ++ [.call c] })
  inline : ∀ s pass turn node handler code, host.inlineHandler = some handler → P s →
    P ((handler (s.trace ++ [.inline turn node]) node code).foldl (Firing.act ev pass)
      { s with trace := s.trace ++ [.inline turn node] })

variable {P : Firing → Prop}

theorem fireLoop_keeps (hkeeps : host.Keeps ev P) (fuel i : Nat) (h : P s) :
    P (fireLoop host ev node phase turn count fuel i s) := by
  induction fuel generalizing i s with
  | zero => exact h
  | succ fuel ih =>
    unfold fireLoop
    split
    · split
      · exact h
      · split
        · dsimp only
          split
          · exact hkeeps.call s _ _ h
          · exact ih _ (hkeeps.call s _ _ h)
        · exact ih _ h
    · exact h

theorem fireInline_keeps (hkeeps : host.Keeps ev P) (h : P s) :
    P (fireInline host ev node phase turn count s) := by
  unfold fireInline
  split
  · rename_i handler hhandler
    split
    · split
      · exact hkeeps.inline s _ turn node handler _ hhandler h
      · exact h
    · exact h
  · exact h

theorem fireAt_keeps (hkeeps : host.Keeps ev P) (h : P s) : P (fireAt host ev node phase turn s) := by
  unfold fireAt
  dsimp only
  split
  · exact fireLoop_keeps hkeeps _ _ (hkeeps.enter s turn h)
  · exact fireInline_keeps hkeeps (fireLoop_keeps hkeeps _ _ (hkeeps.enter s turn h))

theorem fireAll_keeps (hkeeps : host.Keeps ev P) (turns : List (Phase × NodeId)) (h : P s) :
    P (fireAll host ev turn turns s) := by
  induction turns generalizing turn s with
  | nil => exact h
  | cons e turns ih =>
    obtain ⟨phase, node⟩ := e
    unfold fireAll
    dsimp only
    split
    · exact fireAt_keeps hkeeps h
    · exact ih (fireAt_keeps hkeeps h)

/-! ## Nothing runs -/

theorem unheard_nil : Unheard [] := fun _ he => absurd he List.not_mem_nil

theorem Unheard.enter {trace : List TraceEvent} (h : Unheard trace) (turn added : Nat) :
    Unheard (trace ++ [.enter turn added]) := by
  intro e he
  rcases List.mem_append.1 he with he | he
  · exact h e he
  · rw [List.mem_singleton.1 he]
    rfl

theorem fireLoop_quiet (hquiet : ∀ l ∈ s.reg.ls, ¬ l.FiresAt ev phase node) (fuel i : Nat) :
    fireLoop host ev node phase turn count fuel i s = s := by
  induction fuel generalizing i with
  | zero => rfl
  | succ fuel ih =>
    unfold fireLoop
    split_ifs with hi
    · cases hslot : s.reg.ls[i]? with
      | none => rfl
      | some l =>
        have hnot : ¬ l.FiresAt ev phase node := hquiet l (List.mem_of_getElem? hslot)
        exact (if_neg hnot).trans (ih (i + 1))
    · rfl

theorem fireInline_quiet (hsteady : host.Steady) (hunheard : Unheard s.trace)
    (hquiet : phase = .target ∨ phase = .bubble → host.inlineText ev node = []) :
    fireInline host ev node phase turn count s = s := by
  unfold fireInline
  cases host.inlineHandler with
  | none => rfl
  | some handler =>
    dsimp only
    split_ifs with hphase
    · have htext := hquiet hphase
      rw [Host.inlineText] at htext
      rw [hsteady.attr s.trace hunheard]
      cases hattr : host.attr [] node ((ascii "on" ++ ev.type).take 31) with
      | none => rfl
      | some text =>
        rw [hattr] at htext
        obtain rfl : text = [] := htext
        rfl
    · rfl

theorem fireAt_quiet (hsteady : host.Steady) (hstop : s.stop = false) (hunheard : Unheard s.trace)
    (hquiet : QuietAt host ev s.reg phase node) :
    fireAt host ev node phase turn s = { s with trace := s.trace ++ [.enter turn s.reg.added] } := by
  unfold fireAt
  dsimp only
  rw [fireLoop_quiet (by exact hquiet.1)]
  dsimp only
  rw [hstop, if_neg Bool.false_ne_true]
  exact fireInline_quiet hsteady (hunheard.enter turn s.reg.added) hquiet.2

/-- Where nothing fires, nothing happens. -/
theorem fireAll_quiet (hsteady : host.Steady) (turns : List (Phase × NodeId)) (hstop : s.stop = false)
    (hunheard : Unheard s.trace) (hquiet : ∀ e ∈ turns, QuietAt host ev s.reg e.1 e.2) :
    Unheard (fireAll host ev turn turns s).trace := by
  induction turns generalizing turn s with
  | nil => exact hunheard
  | cons e turns ih =>
    obtain ⟨phase, node⟩ := e
    unfold fireAll
    dsimp only
    rw [fireAt_quiet hsteady hstop hunheard (hquiet _ List.mem_cons_self),
      if_neg (by rw [hstop]; exact Bool.false_ne_true)]
    apply ih (s := { s with trace := s.trace ++ [.enter turn s.reg.added] }) hstop
    · exact hunheard.enter turn s.reg.added
    · exact fun e he => hquiet e (List.mem_cons_of_mem _ he)

/-! ## Something runs -/

theorem Unheard.of_longer {trace longer : List TraceEvent} (h : Unheard longer)
    (hbegins : trace <+: longer) : Unheard trace :=
  fun e he => h e (hbegins.subset he)

theorem act_grows (ev : Event) (pass : Pass) (s : Firing) (a : Action) :
    s.trace <+: (Firing.act ev pass s a).trace := by
  cases a with
  | add r =>
    unfold Firing.act
    dsimp only
    split
    · exact List.prefix_refl _
    · exact List.prefix_refl _
  | remove h => exact List.prefix_append _ _
  | stopPropagation => exact List.prefix_refl _

theorem acts_grows (ev : Event) (pass : Pass) (acts : List Action) (s : Firing) :
    s.trace <+: (acts.foldl (Firing.act ev pass) s).trace := by
  induction acts generalizing s with
  | nil => exact List.prefix_refl _
  | cons a acts ih => exact (act_grows ev pass s a).trans (ih _)

/-- What an event does comes behind it. -/
theorem logged_grows (ev : Event) (pass : Pass) (s : Firing) (e : TraceEvent) (acts : List Action) :
    s.trace ++ [e] <+: (acts.foldl (Firing.act ev pass) { s with trace := s.trace ++ [e] }).trace :=
  acts_grows ev pass acts { s with trace := s.trace ++ [e] }

theorem keeps_grown (host : Host) (ev : Event) (trace : List TraceEvent) :
    host.Keeps ev fun s => trace <+: s.trace where
  enter _ _ h := h.trans (List.prefix_append _ _)
  call _ pass c h := (h.trans (List.prefix_append _ _)).trans (logged_grows ev pass _ (.call c) _)
  inline _ pass turn node _ _ _ h :=
    (h.trans (List.prefix_append _ _)).trans (logged_grows ev pass _ (.inline turn node) _)

theorem fireLoop_grows (fuel i : Nat) (s : Firing) :
    s.trace <+: (fireLoop host ev node phase turn count fuel i s).trace :=
  fireLoop_keeps (keeps_grown host ev s.trace) fuel i (List.prefix_refl _)

theorem fireInline_grows (s : Firing) :
    s.trace <+: (fireInline host ev node phase turn count s).trace :=
  fireInline_keeps (keeps_grown host ev s.trace) (List.prefix_refl _)

theorem fireAt_grows (s : Firing) : s.trace <+: (fireAt host ev node phase turn s).trace :=
  fireAt_keeps (keeps_grown host ev s.trace) (List.prefix_refl _)

theorem fireAll_grows (turns : List (Phase × NodeId)) (s : Firing) :
    s.trace <+: (fireAll host ev turn turns s).trace :=
  fireAll_keeps (keeps_grown host ev s.trace) turns (List.prefix_refl _)

/-- A slot of the pass that fires is heard. -/
theorem fireLoop_unheard {fuel i : Nat} (hfuel : count - i ≤ fuel) (hcount : count ≤ s.reg.ls.length)
    (hunheard : Unheard (fireLoop host ev node phase turn count fuel i s).trace) {j : Nat}
    (hi : i ≤ j) (hj : j < count) {l : Listener} (hl : s.reg.ls[j]? = some l) :
    ¬ l.FiresAt ev phase node := by
  induction fuel generalizing i with
  | zero => omega
  | succ fuel ih =>
    intro hfires
    unfold fireLoop at hunheard
    rw [if_pos (Nat.lt_of_le_of_lt hi hj)] at hunheard
    have hslot : s.reg.ls[i]? = some s.reg.ls[i] := List.getElem?_eq_getElem (by omega)
    rw [hslot] at hunheard
    dsimp only at hunheard
    split at hunheard
    · -- the slot is called, and the call stays in the trace
      have hcalled := logged_grows ev ⟨node, i, count⟩ s (.call ⟨turn, node, phase, s.reg.ls[i]⟩)
        (host.callback (s.trace ++ [.call ⟨turn, node, phase, s.reg.ls[i]⟩]) s.reg.ls[i])
      have hlogged : Unheard (s.trace ++ [.call ⟨turn, node, phase, s.reg.ls[i]⟩]) := by
        split at hunheard
        · exact hunheard.of_longer hcalled
        · exact hunheard.of_longer (hcalled.trans (fireLoop_grows _ _ _))
      cases hlogged _ (List.mem_append_right _ List.mem_cons_self)
    · rename_i hnot
      rcases eq_or_ne i j with rfl | hne
      · obtain rfl := Option.some.inj (hslot.symm.trans hl)
        exact hnot hfires
      · exact ih (i := i + 1) (by omega) hunheard (by omega) hfires

theorem fireInline_unheard (hsteady : host.Steady)
    (hunheard : Unheard (fireInline host ev node phase turn count s).trace)
    (hphase : phase = .target ∨ phase = .bubble) : host.inlineText ev node = [] := by
  have hbefore : Unheard s.trace := hunheard.of_longer (fireInline_grows s)
  obtain ⟨handler, hhandler⟩ := Option.isSome_iff_exists.1 hsteady.inlineHandler
  unfold fireInline at hunheard
  rw [hhandler] at hunheard
  dsimp only at hunheard
  rw [if_pos hphase, hsteady.attr s.trace hbefore] at hunheard
  unfold Host.inlineText
  cases hattr : host.attr [] node ((ascii "on" ++ ev.type).take 31) with
  | none => rfl
  | some text =>
    cases text with
    | nil => rfl
    | cons c code =>
      rw [hattr] at hunheard
      have hlogged := logged_grows ev ⟨node, count, count⟩ s (.inline turn node)
        (handler (s.trace ++ [.inline turn node]) node (c :: code))
      cases hunheard.of_longer hlogged _ (List.mem_append_right _ List.mem_cons_self)

theorem fireAt_unheard (hsteady : host.Steady) (hstop : s.stop = false)
    (hunheard : Unheard (fireAt host ev node phase turn s).trace) :
    QuietAt host ev s.reg phase node := by
  unfold fireAt at hunheard
  dsimp only at hunheard
  have hloop : Unheard (fireLoop host ev node phase turn s.reg.ls.length s.reg.ls.length 0
      { s with trace := s.trace ++ [.enter turn s.reg.added] }).trace := by
    split at hunheard
    · exact hunheard
    · exact hunheard.of_longer (fireInline_grows _)
  have hslots : ∀ l ∈ s.reg.ls, ¬ l.FiresAt ev phase node := by
    intro l hl
    obtain ⟨j, hj, rfl⟩ := List.mem_iff_getElem.1 hl
    exact fireLoop_unheard (s := { s with trace := s.trace ++ [.enter turn s.reg.added] })
      (Nat.sub_le _ _) (Nat.le_refl _) hloop (Nat.zero_le j) hj (List.getElem?_eq_getElem hj)
  refine ⟨hslots, fun hphase => ?_⟩
  rw [fireLoop_quiet (by exact hslots), if_neg (by rw [hstop]; exact Bool.false_ne_true)] at hunheard
  exact fireInline_unheard hsteady hunheard hphase

theorem fireAll_unheard (hsteady : host.Steady) (turns : List (Phase × NodeId))
    (hstop : s.stop = false) (hunheard : Unheard (fireAll host ev turn turns s).trace) :
    ∀ e ∈ turns, QuietAt host ev s.reg e.1 e.2 := by
  induction turns generalizing turn s with
  | nil => exact fun e he => absurd he List.not_mem_nil
  | cons e turns ih =>
    obtain ⟨phase, node⟩ := e
    unfold fireAll at hunheard
    dsimp only at hunheard
    have hbefore : Unheard (fireAt host ev node phase turn s).trace := by
      split at hunheard
      · exact hunheard
      · exact hunheard.of_longer (fireAll_grows turns _)
    have hquiet := fireAt_unheard hsteady hstop hbefore
    rw [fireAt_quiet hsteady hstop (hbefore.of_longer (fireAt_grows s)) hquiet,
      if_neg (by rw [hstop]; exact Bool.false_ne_true)] at hunheard
    intro e he
    rcases List.mem_cons.1 he with rfl | he
    · exact hquiet
    · exact ih (s := { s with trace := s.trace ++ [.enter turn s.reg.added] }) hstop hunheard e he

/-! ## Along a path -/

/-- The turns of an event that bubbles come by every listener and every handler of the path. -/
theorem quiet_plan_iff (hbubbles : ev.bubbles = true) {st : Registry} {t : NodeId}
    {above : List NodeId} :
    (∀ e ∈ plan ev (t :: above), QuietAt host ev st e.1 e.2) ↔ QuietPath host ev st (t :: above) := by
  constructor
  · intro hquiet n hn
    refine ⟨fun l hl hactive htarget => ?_, ?_⟩
    · obtain ⟨turn, phase, hturn, hfires⟩ := exists_turn ev hn (l := l) (Or.inr (Or.inr hbubbles))
      have hnot := (hquiet _ (List.mem_of_getElem? hturn)).1 l hl
      exact Bool.eq_false_iff.2 fun hhears => hnot ⟨hactive, htarget, hhears, hfires⟩
    · rcases List.mem_cons.1 hn with rfl | habove
      · exact (hquiet (.target, n) (by simp [plan])).2 (Or.inl rfl)
      · exact (hquiet (.bubble, n) (by simp [plan, hbubbles, habove])).2 (Or.inr rfl)
  · intro hquiet e he
    have hnode : e.2 ∈ t :: above := by
      unfold plan at he
      rw [if_pos hbubbles] at he
      simp only [List.tail_cons, List.take_succ_cons, List.take_zero, List.mem_append, List.mem_map,
        List.mem_reverse] at he
      rcases he with (⟨a, ha, rfl⟩ | ⟨a, ha, rfl⟩) | ⟨a, ha, rfl⟩
      · exact List.mem_cons_of_mem _ ha
      · exact List.mem_cons.2 (Or.inl (List.mem_singleton.1 ha))
      · exact List.mem_cons_of_mem _ ha
    obtain ⟨hslots, htext⟩ := hquiet e.2 hnode
    refine ⟨fun l hl hfires => ?_, fun _ => htext⟩
    have hdeaf := hslots l hl hfires.1 hfires.2.1
    exact Bool.false_ne_true (hdeaf.symm.trans hfires.2.2.1)

/-- Nothing runs in the dispatch of an event that bubbles exactly if the path is quiet. -/
theorem dispatch_unheard_iff (d : NodeHeap) (hsteady : host.Steady) (hbubbles : ev.bubbles = true)
    (st : Registry) (target : NodeId) :
    Unheard (miniEventDispatch d host st ev target).trace ↔
      QuietPath host ev st (path d target) := by
  obtain ⟨above, hpath⟩ := path_eq_cons d target
  rw [hpath, ← quiet_plan_iff hbubbles]
  unfold miniEventDispatch
  rw [hpath]
  constructor
  · exact fireAll_unheard hsteady _ rfl
  · intro hquiet
    exact fireAll_quiet hsteady _ rfl unheard_nil hquiet

end TinyFramework.Events
