/-
  Events/DispatchOrder.lean --- which listeners a dispatch calls, and in which order.

  The dispatch stands at a slot of a turn.  What was called before comes before that
  place, what is still to be called is still in its slot or was removed in time, and a
  listener that is added takes a slot that changes neither.
-/
import TinyFramework.Events.Dispatch

set_option autoImplicit false

namespace TinyFramework.Events

open TinyFramework.Foundation TinyFramework.Dom

/-! ## Traces -/

@[simp] theorem calls_append (a b : List TraceEvent) : calls (a ++ b) = calls a ++ calls b :=
  List.filterMap_append

theorem mem_calls {trace : List TraceEvent} {c : Call} :
    c ∈ calls trace ↔ TraceEvent.call c ∈ trace := by
  unfold calls
  rw [List.mem_filterMap]
  constructor
  · rintro ⟨e, he, hc⟩
    cases e <;> simp at hc
    exact hc ▸ he
  · exact fun h => ⟨.call c, h, rfl⟩

/-- A call comes before the turn of a listener. -/
def Call.Before (c : Call) (turn number : Nat) : Prop :=
  c.turn < turn ∨ c.turn = turn ∧ c.listener.number < number

/-- A listener was removed before its turn. -/
def RemovedBefore (trace : List TraceEvent) (turn : Nat) (l : Listener) : Prop :=
  ∃ a b, trace = a ++ .remove l :: b ∧ ∀ c ∈ calls a, c.Before turn l.number

theorem RemovedBefore.append {trace : List TraceEvent} {turn : Nat} {l : Listener}
    (h : RemovedBefore trace turn l) (more : List TraceEvent) :
    RemovedBefore (trace ++ more) turn l := by
  obtain ⟨a, b, rfl, ha⟩ := h
  exact ⟨a, b ++ more, by simp, ha⟩

/-- No listener is called behind its removal. -/
def Silent (trace : List TraceEvent) : Prop :=
  trace.Pairwise fun e e' =>
    ∀ l c, e = .remove l → e' = .call c → c.listener.number ≠ l.number

theorem Silent.concat {trace : List TraceEvent} (h : Silent trace) {e : TraceEvent}
    (he : ∀ l c, TraceEvent.remove l ∈ trace → e = .call c → c.listener.number ≠ l.number) :
    Silent (trace ++ [e]) := by
  refine List.pairwise_append.2 ⟨h, List.pairwise_singleton _ _, ?_⟩
  intro e' he' e'' he'' l c hremove hcall
  obtain rfl := List.mem_singleton.1 he''
  exact he l c (hremove ▸ he') hcall

/-! ## The registry during a dispatch -/

/-- Active slots hold different registrations, all of them made already. -/
structure Registry.Numbered (st : Registry) : Prop where
  below : ∀ j m, st.Holds j m → m.number < st.added
  distinct : ∀ i j l m, st.Holds i l → st.Holds j m → l.number = m.number → i = j

/-- On every node the listeners that hear the event stand in the order of registration. -/
def Registry.Ordered (st : Registry) (type : Bytes) : Prop :=
  st.ls.Pairwise fun l m => l.active = true → m.active = true → l.target = m.target →
    typeMatches l.type type = true → typeMatches m.type type = true → l.number < m.number

instance (st : Registry) (type : Bytes) : Decidable (st.Ordered type) :=
  inferInstanceAs (Decidable (List.Pairwise _ _))

namespace Registry

variable {st : Registry} {type : Bytes}

theorem ordered_iff : st.Ordered type ↔ ∀ i j l m, i < j → st.Holds i l → st.Holds j m →
    l.target = m.target → typeMatches l.type type = true → typeMatches m.type type = true →
    l.number < m.number := by
  unfold Ordered
  rw [List.pairwise_iff_getElem]
  constructor
  · intro h i j l m hij hl hm htarget
    obtain ⟨hi, hli⟩ := List.getElem?_eq_some_iff.1 hl.1
    obtain ⟨hj, hmj⟩ := List.getElem?_eq_some_iff.1 hm.1
    have hpair := h i j hi hj hij
    rw [hli, hmj] at hpair
    exact hpair hl.2 hm.2 htarget
  · intro h i j hi hj hij hactive hactive'
    exact h i j _ _ hij ⟨List.getElem?_eq_getElem hi, hactive⟩ ⟨List.getElem?_eq_getElem hj, hactive'⟩

theorem Numbered.put (h : st.Numbered) {i : Nat} (hi : i ≤ st.ls.length) {l : Listener}
    (hl : l.active = true) (hnumber : l.number = st.added) : (st.put i l).Numbered := by
  refine ⟨?_, ?_⟩
  · intro j m hm
    change m.number < st.added + 1
    rcases (holds_put hi hl).1 hm with ⟨-, rfl⟩ | ⟨-, hm⟩
    · omega
    · exact Nat.lt_succ_of_lt (h.below j m hm)
  · intro j j' m m' hm hm' heq
    rcases (holds_put hi hl).1 hm with ⟨rfl, rfl⟩ | ⟨-, hold⟩ <;>
      rcases (holds_put hi hl).1 hm' with ⟨rfl, rfl⟩ | ⟨-, hold'⟩
    · rfl
    · have hlt := h.below j' m' hold'
      omega
    · have hlt := h.below j m hold
      omega
    · exact h.distinct j j' m m' hold hold' heq

theorem Numbered.remove (h : st.Numbered) (i : Nat) :
    (miniEventsRemoveListener st (some i)).Numbered :=
  ⟨fun j m hm => h.below j m (holds_remove.1 hm).2,
    fun j j' m m' hm hm' => h.distinct j j' m m' (holds_remove.1 hm).2 (holds_remove.1 hm').2⟩

theorem Ordered.remove (h : st.Ordered type) (i : Nat) :
    (miniEventsRemoveListener st (some i)).Ordered type :=
  ordered_iff.2 fun j j' l m hj hl hm =>
    ordered_iff.1 h j j' l m hj (holds_remove.1 hl).2 (holds_remove.1 hm).2

/-- The slot of a listener that hears the event has none of its node behind it. -/
theorem Ordered.put (h : st.Ordered type) (hn : st.Numbered) {i : Nat} (hi : i ≤ st.ls.length)
    {l : Listener} (hl : l.active = true) (hnumber : l.number = st.added)
    (hlast : typeMatches l.type type = true → ∀ j m, i < j → st.Holds j m →
      m.target = l.target → typeMatches m.type type = true → False) :
    (st.put i l).Ordered type := by
  refine ordered_iff.2 fun j j' m m' hj hm hm' htarget hhear hhear' => ?_
  rcases (holds_put hi hl).1 hm with ⟨rfl, rfl⟩ | ⟨-, hold⟩ <;>
    rcases (holds_put hi hl).1 hm' with ⟨rfl, rfl⟩ | ⟨-, hold'⟩
  · exact absurd hj (Nat.lt_irrefl _)
  · exact absurd (hlast hhear j' m' hj hold' htarget.symm hhear') id
  · rw [hnumber]
    exact hn.below j m hold
  · exact ordered_iff.1 h j j' m m' hj hold hold' htarget hhear hhear'

end Registry

/-! ## What holds during a dispatch -/

/-- The dispatch stands at slot `i` of turn `k`. -/
structure Running (reg₀ : Registry) (ev : Event) (turns : List (Phase × NodeId)) (k i : Nat)
    (s : Firing) : Prop where
  stop : s.stop = false
  numbered : s.reg.Numbered
  ordered : s.reg.Ordered ev.type
  added : reg₀.added ≤ s.reg.added
  length : reg₀.ls.length ≤ s.reg.ls.length
  /-- A registration from before the dispatch is still in its slot. -/
  old : ∀ j m, s.reg.Holds j m → m.number < reg₀.added → reg₀.Holds j m
  /-- A removed registration is gone for good. -/
  spent : ∀ l, TraceEvent.remove l ∈ s.trace → l.number < s.reg.added ∧
    ∀ j m, s.reg.Holds j m → m.number ≠ l.number
  silent : Silent s.trace
  placed : ∀ c ∈ calls s.trace, turns[c.turn]? = some (c.phase, c.node) ∧
    c.listener.target = some c.node ∧ fires c.phase c.listener = true ∧
    c.listener.number < s.reg.added ∧
    (c.listener.number < reg₀.added → ∃ j, reg₀.Holds j c.listener)
  fresh : ∀ c ∈ calls s.trace, ∃ added, TraceEvent.enter c.turn added ∈ s.trace ∧
    c.listener.number < added
  order : (calls s.trace).Pairwise fun c c' => c.Before c'.turn c'.listener.number
  /-- What was called comes before what is ahead. -/
  ahead : ∀ c ∈ calls s.trace, c.turn < k ∨ c.turn = k ∧ ∀ phase node,
    turns[k]? = some (phase, node) → ∀ j m, i ≤ j → s.reg.Holds j m → m.target = some node →
      typeMatches m.type ev.type = true → c.listener.number < m.number
  /-- A listener from before the dispatch is waiting, called, or was removed in time. -/
  fate : ∀ j l turn phase node, reg₀.Holds j l → typeMatches l.type ev.type = true →
    turns[turn]? = some (phase, node) → l.target = some node → fires phase l = true →
    ((k < turn ∨ k = turn ∧ i ≤ j) ∧ s.reg.Holds j l) ∨
      ((turn < k ∨ turn = k ∧ j < i) ∧ TraceEvent.call ⟨turn, node, phase, l⟩ ∈ s.trace) ∨
      RemovedBefore s.trace turn l

/-- The slots that the pass has still to visit were registered before its firing. -/
def Bound (ev : Event) (node : NodeId) (k count i : Nat) (s : Firing) : Prop :=
  ∃ added, TraceEvent.enter k added ∈ s.trace ∧ ∀ j m, i ≤ j → j < count → s.reg.Holds j m →
    m.target = some node → typeMatches m.type ev.type = true → m.number < added

section

variable {reg₀ : Registry} {ev : Event} {turns : List (Phase × NodeId)} {k i : Nat} {s : Firing}

/-- What a listener still to be called has before it. -/
theorem Running.before (h : Running reg₀ ev turns k i s) {j turn : Nat} {l : Listener}
    {phase : Phase} {node : NodeId} (hl : s.reg.Holds j l)
    (hhear : typeMatches l.type ev.type = true) (hturn : turns[turn]? = some (phase, node))
    (htarget : l.target = some node) (hplace : k < turn ∨ k = turn ∧ i ≤ j) :
    ∀ c ∈ calls s.trace, c.Before turn l.number := by
  intro c hc
  rcases h.ahead c hc with hlt | ⟨heq, hahead⟩
  · rcases hplace with hk | ⟨rfl, -⟩
    · exact Or.inl (Nat.lt_trans hlt hk)
    · exact Or.inl hlt
  · rcases hplace with hk | ⟨rfl, hij⟩
    · exact Or.inl (heq ▸ hk)
    · exact Or.inr ⟨heq, hahead phase node hturn j l hij hl htarget hhear⟩

/-- An event that is neither a call nor a removal changes nothing. -/
theorem Running.log (h : Running reg₀ ev turns k i s) {e : TraceEvent}
    (hcall : ∀ c, e ≠ .call c) (hremove : ∀ l, e ≠ .remove l) :
    Running reg₀ ev turns k i { s with trace := s.trace ++ [e] } := by
  have hcalls : calls (s.trace ++ [e]) = calls s.trace := by
    rw [calls_append]
    cases e with
    | call c => exact absurd rfl (hcall c)
    | _ => simp [calls]
  refine
    { stop := h.stop, numbered := h.numbered, ordered := h.ordered, added := h.added
      length := h.length, old := h.old, spent := ?_
      silent := h.silent.concat fun l c _ he => absurd he (hcall c), placed := ?_, fresh := ?_
      order := ?_, ahead := ?_, fate := ?_ }
  · intro l hl
    rcases List.mem_append.1 hl with hl | hl
    · exact h.spent l hl
    · exact absurd (List.mem_singleton.1 hl).symm (hremove l)
  · exact hcalls ▸ h.placed
  · intro c hc
    obtain ⟨added, henter, hlt⟩ := h.fresh c (hcalls ▸ hc)
    exact ⟨added, List.mem_append_left _ henter, hlt⟩
  · exact hcalls ▸ h.order
  · exact hcalls ▸ h.ahead
  · intro j l turn phase node hl hhear hturn htarget hfires
    rcases h.fate j l turn phase node hl hhear hturn htarget hfires with hwait | ⟨hpast, hc⟩ | hgone
    · exact Or.inl hwait
    · exact Or.inr (Or.inl ⟨hpast, List.mem_append_left _ hc⟩)
    · exact Or.inr (Or.inr (hgone.append _))

/-- A safe slot has no listener of its node that hears the event behind it. -/
theorem slotSafe_last {pass : Pass} {st : Registry} {r : Request} {slot : Nat}
    (h : slotSafe ev pass st r slot = true)
    (hhear : typeMatches (r.listener st.added).type ev.type = true) {j : Nat} {m : Listener}
    (hj : slot < j) (hm : st.Holds j m) (htarget : m.target = r.target)
    (hhear' : typeMatches m.type ev.type = true) : False := by
  unfold slotSafe at h
  rw [hhear] at h
  have hmem : m ∈ st.ls.drop (slot + 1) := by
    refine List.mem_iff_getElem?.2 ⟨j - (slot + 1), ?_⟩
    rw [List.getElem?_drop, Nat.add_sub_cancel' hj]
    exact hm.1
  have hall : st.ls.drop (slot + 1) |>.all fun m =>
      !m.active || m.target != r.target || !typeMatches m.type ev.type := by
    rw [Bool.not_true, Bool.false_or, Bool.and_eq_true] at h
    exact h.1
  have hone := List.all_eq_true.1 hall m hmem
  simp [hm.2, htarget, hhear'] at hone

/-- The slots of a registry that grows by one listener. -/
theorem Running.added_holds {slot : Nat} {l : Listener} (hslot : slot ≤ s.reg.ls.length)
    (hl : l.active = true) {j : Nat} {m : Listener} (hfree : ∀ m, ¬ s.reg.Holds slot m)
    (hm : s.reg.Holds j m) : (s.reg.put slot l).Holds j m := by
  refine (Registry.holds_put hslot hl).2 (Or.inr ⟨?_, hm⟩)
  rintro rfl
  exact hfree m hm

/-- A listener that is added takes a slot in which none was waiting. -/
theorem Running.add (h : Running reg₀ ev turns k i s) {pass : Pass} {r : Request} {slot : Nat}
    (hslot : s.reg.freeSlot = some slot) (hsafe : slotSafe ev pass s.reg r slot = true)
    (safe : Bool) :
    Running reg₀ ev turns k i
      { s with reg := s.reg.put slot (r.listener s.reg.added), safe := safe } := by
  obtain ⟨hle, hfree⟩ := Registry.freeSlot_spec hslot
  have hputs : ∀ {j m}, (s.reg.put slot (r.listener s.reg.added)).Holds j m →
      m.number = s.reg.added ∨ s.reg.Holds j m := by
    intro j m hm
    rcases (Registry.holds_put hle rfl).1 hm with ⟨-, rfl⟩ | ⟨-, hm⟩
    · exact Or.inl rfl
    · exact Or.inr hm
  refine
    { stop := h.stop, numbered := h.numbered.put hle rfl rfl
      ordered := h.ordered.put h.numbered hle rfl rfl
        fun hhear j m hj hm => slotSafe_last hsafe hhear hj hm
      added := Nat.le_succ_of_le h.added, length := ?_, old := ?_, spent := ?_
      silent := h.silent, placed := ?_, fresh := h.fresh, order := h.order, ahead := ?_
      fate := ?_ }
  · refine Nat.le_trans h.length ?_
    dsimp only [Registry.put]
    split_ifs <;> simp
  · intro j m hm hlt
    rcases hputs hm with hnew | hold
    · exact absurd hlt (by have := h.added; omega)
    · exact h.old j m hold hlt
  · intro l hl
    obtain ⟨hlt, hgone⟩ := h.spent l hl
    refine ⟨Nat.lt_succ_of_lt hlt, fun j m hm => ?_⟩
    rcases hputs hm with hnew | hold
    · omega
    · exact hgone j m hold
  · intro c hc
    obtain ⟨hturn, htarget, hfires, hlt, hold⟩ := h.placed c hc
    exact ⟨hturn, htarget, hfires, Nat.lt_succ_of_lt hlt, hold⟩
  · intro c hc
    refine (h.ahead c hc).imp_right fun ⟨hk, hahead⟩ => ⟨hk, ?_⟩
    intro phase node hturn j m hij hm htarget hhear
    rcases hputs hm with hnew | hold
    · rw [hnew]
      exact (h.placed c hc).2.2.2.1
    · exact hahead phase node hturn j m hij hold htarget hhear
  · intro j l turn phase node hl hhear hturn htarget hfires
    rcases h.fate j l turn phase node hl hhear hturn htarget hfires with ⟨hplace, hwait⟩ | hrest
    · exact Or.inl ⟨hplace, Running.added_holds hle rfl hfree hwait⟩
    · exact Or.inr hrest

/-- A listener that is removed is removed before its turn, or behind it. -/
theorem Running.remove (h : Running reg₀ ev turns k i s) {slot : Nat} {l : Listener}
    (hl : s.reg.Holds slot l) :
    Running reg₀ ev turns k i
      { s with
        reg := miniEventsRemoveListener s.reg (some slot), trace := s.trace ++ [.remove l] } := by
  have hcalls : calls (s.trace ++ [.remove l]) = calls s.trace := by
    rw [calls_append]
    exact List.append_nil _
  have hkept : ∀ {j m}, (miniEventsRemoveListener s.reg (some slot)).Holds j m →
      s.reg.Holds j m := fun hm => (Registry.holds_remove.1 hm).2
  refine
    { stop := h.stop, numbered := h.numbered.remove slot, ordered := h.ordered.remove slot
      added := h.added, length := ?_, old := fun j m hm => h.old j m (hkept hm), spent := ?_
      silent := h.silent.concat fun l c _ he => absurd he (by simp), placed := hcalls ▸ h.placed
      fresh := ?_, order := hcalls ▸ h.order, ahead := ?_, fate := ?_ }
  · dsimp only [miniEventsRemoveListener]
    rw [List.length_modify]
    exact h.length
  · intro l' hl'
    rcases List.mem_append.1 hl' with hl' | hl'
    · obtain ⟨hlt, hgone⟩ := h.spent l' hl'
      exact ⟨hlt, fun j m hm => hgone j m (hkept hm)⟩
    · obtain rfl : l' = l := by simpa using hl'
      refine ⟨h.numbered.below slot l' hl, fun j m hm heq => ?_⟩
      obtain ⟨hne, hold⟩ := Registry.holds_remove.1 hm
      exact hne (h.numbered.distinct j slot m l' hold hl heq)
  · intro c hc
    obtain ⟨added, henter, hlt⟩ := h.fresh c (hcalls ▸ hc)
    exact ⟨added, List.mem_append_left _ henter, hlt⟩
  · intro c hc
    refine (h.ahead c (hcalls ▸ hc)).imp_right fun ⟨hk, hahead⟩ => ⟨hk, ?_⟩
    exact fun phase node hturn j m hij hm => hahead phase node hturn j m hij (hkept hm)
  · intro j m turn phase node hm hhear hturn htarget hfires
    rcases h.fate j m turn phase node hm hhear hturn htarget hfires with
      ⟨hplace, hwait⟩ | ⟨hpast, hc⟩ | hgone
    · by_cases hj : j = slot
      · subst hj
        obtain rfl := hl.unique hwait
        exact Or.inr (Or.inr ⟨s.trace, [], rfl, h.before hwait hhear hturn htarget hplace⟩)
      · exact Or.inl ⟨hplace, Registry.holds_remove.2 ⟨hj, hwait⟩⟩
    · exact Or.inr (Or.inl ⟨hpast, List.mem_append_left _ hc⟩)
    · exact Or.inr (Or.inr (hgone.append _))

/-! ## One step -/

/-- An addition either finds no slot and changes nothing, or fills one. -/
theorem act_add (ev : Event) (pass : Pass) (s : Firing) (r : Request) :
    s.act ev pass (.add r) = s ∨ ∃ slot, s.reg.freeSlot = some slot ∧
      s.act ev pass (.add r) =
        { s with
          reg := s.reg.put slot (r.listener s.reg.added)
          safe := s.safe && slotSafe ev pass s.reg r slot } := by
  by_cases hnull : r.target = none ∨ r.type = none ∨ r.cb = none
  · have hadd : miniEventsAddListener s.reg r = (none, s.reg) := if_pos hnull
    refine Or.inl ?_
    dsimp only [Firing.act]
    rw [hadd]
  · cases hslot : s.reg.freeSlot with
    | none =>
      have hadd : miniEventsAddListener s.reg r = (none, s.reg) := by
        rw [miniEventsAddListener, if_neg hnull, hslot]
      refine Or.inl ?_
      dsimp only [Firing.act]
      rw [hadd]
    | some slot =>
      have hadd : miniEventsAddListener s.reg r =
          (some slot, s.reg.put slot (r.listener s.reg.added)) := by
        rw [miniEventsAddListener, if_neg hnull, hslot]
      refine Or.inr ⟨slot, rfl, ?_⟩
      dsimp only [Firing.act]
      rw [hadd]

/-- A removal of a handle either removes a listener or changes none. -/
theorem act_remove (ev : Event) (pass : Pass) (s : Firing) (o : Option Nat) :
    (∃ slot l, s.reg.Holds slot l ∧ s.act ev pass (.remove o) =
      { s with
        reg := miniEventsRemoveListener s.reg (some slot), trace := s.trace ++ [.remove l] }) ∨
      ((s.act ev pass (.remove o)).trace = s.trace ∧ (s.act ev pass (.remove o)).stop = s.stop ∧
        (s.act ev pass (.remove o)).safe = s.safe ∧
        (s.act ev pass (.remove o)).reg.added = s.reg.added ∧
        (s.act ev pass (.remove o)).reg.ls.length = s.reg.ls.length ∧
        ∀ j m, (s.act ev pass (.remove o)).reg.Holds j m ↔ s.reg.Holds j m) := by
  cases o with
  | none => exact Or.inr (by simp [Firing.act, miniEventsRemoveListener])
  | some slot =>
    by_cases hheld : ∃ l, s.reg.Holds slot l
    · obtain ⟨l, hl⟩ := hheld
      refine Or.inl ⟨slot, l, hl, ?_⟩
      unfold Firing.act
      dsimp only [Option.bind_some]
      rw [hl.1]
      dsimp only
      rw [if_pos hl.2]
    · refine Or.inr ⟨?_, rfl, rfl, rfl, ?_, fun j m => ?_⟩
      · unfold Firing.act
        dsimp only [Option.bind_some]
        cases hslot : s.reg.ls[slot]? with
        | none => exact List.append_nil _
        | some l =>
          have hactive : l.active = false := by
            by_contra h
            exact hheld ⟨l, hslot, by simpa using h⟩
          dsimp only
          rw [hactive]
          exact List.append_nil _
      · exact List.length_modify ..
      · refine Registry.holds_remove.trans ⟨And.right, fun hm => ⟨?_, hm⟩⟩
        rintro rfl
        exact hheld ⟨m, hm⟩

/-- A state with the same trace and the same active slots is as good. -/
theorem Running.of_same {s' : Firing} (h : Running reg₀ ev turns k i s)
    (htrace : s'.trace = s.trace) (hstop : s'.stop = s.stop) (hadded : s'.reg.added = s.reg.added)
    (hlen : s'.reg.ls.length = s.reg.ls.length)
    (hholds : ∀ j m, s'.reg.Holds j m ↔ s.reg.Holds j m) : Running reg₀ ev turns k i s' where
  stop := hstop.trans h.stop
  numbered := ⟨fun j m hm => hadded ▸ h.numbered.below j m ((hholds j m).1 hm),
    fun j j' m m' hm hm' => h.numbered.distinct j j' m m' ((hholds j m).1 hm) ((hholds j' m').1 hm')⟩
  ordered := Registry.ordered_iff.2 fun j j' m m' hj hm hm' =>
    Registry.ordered_iff.1 h.ordered j j' m m' hj ((hholds j m).1 hm) ((hholds j' m').1 hm')
  added := hadded ▸ h.added
  length := hlen ▸ h.length
  old := fun j m hm => h.old j m ((hholds j m).1 hm)
  spent := by
    intro l hl
    rw [htrace] at hl
    exact ⟨hadded ▸ (h.spent l hl).1, fun j m hm => (h.spent l hl).2 j m ((hholds j m).1 hm)⟩
  silent := htrace ▸ h.silent
  placed := by
    rw [htrace, hadded]
    exact h.placed
  fresh := htrace ▸ h.fresh
  order := htrace ▸ h.order
  ahead := by
    intro c hc
    refine (h.ahead c (htrace ▸ hc)).imp_right fun ⟨hk, hahead⟩ => ⟨hk, ?_⟩
    exact fun phase node hturn j m hij hm => hahead phase node hturn j m hij ((hholds j m).1 hm)
  fate := by
    intro j l turn phase node hl hhear hturn htarget hfires
    rw [htrace, hholds j l]
    exact h.fate j l turn phase node hl hhear hturn htarget hfires

/-- One action of a callback that does not stop the event. -/
theorem Running.act {pass : Pass} {a : Action} (ha : a ≠ .stopPropagation)
    (h : s.safe = true → Running reg₀ ev turns k i s)
    (hsafe : (s.act ev pass a).safe = true) : Running reg₀ ev turns k i (s.act ev pass a) := by
  cases a with
  | stopPropagation => exact absurd rfl ha
  | remove o =>
    rcases act_remove ev pass s o with ⟨slot, l, hl, heq⟩ | ⟨htrace, hstop, hs, hadded, hlen, hholds⟩
    · rw [heq] at hsafe ⊢
      exact (h hsafe).remove hl
    · exact (h (hs ▸ hsafe)).of_same htrace hstop hadded hlen hholds
  | add r =>
    rcases act_add ev pass s r with heq | ⟨slot, hslot, heq⟩
    · rw [heq] at hsafe ⊢
      exact h hsafe
    · rw [heq] at hsafe ⊢
      obtain ⟨hs, hslotSafe⟩ := Bool.and_eq_true_iff.1 hsafe
      exact (h hs).add hslot hslotSafe _

/-- A safe addition does not come between the pass and what it has still to visit. -/
theorem Bound.act {node : NodeId} {count : Nat} {a : Action}
    (h : s.safe = true → Bound ev node k count (i + 1) s)
    (hsafe : (s.act ev ⟨node, i, count⟩ a).safe = true) :
    Bound ev node k count (i + 1) (s.act ev ⟨node, i, count⟩ a) := by
  cases a with
  | stopPropagation => exact h hsafe
  | remove o =>
    rcases act_remove ev ⟨node, i, count⟩ s o with
      ⟨slot, l, hl, heq⟩ | ⟨htrace, -, hs, -, -, hholds⟩
    · rw [heq] at hsafe ⊢
      obtain ⟨added, henter, hbound⟩ := h hsafe
      exact ⟨added, List.mem_append_left _ henter, fun j m hij hj hm =>
        hbound j m hij hj (Registry.holds_remove.1 hm).2⟩
    · obtain ⟨added, henter, hbound⟩ := h (hs ▸ hsafe)
      exact ⟨added, htrace ▸ henter, fun j m hij hj hm =>
        hbound j m hij hj ((hholds j m).1 hm)⟩
  | add r =>
    rcases act_add ev ⟨node, i, count⟩ s r with heq | ⟨slot, hslot, heq⟩
    · rw [heq] at hsafe ⊢
      exact h hsafe
    · rw [heq] at hsafe ⊢
      obtain ⟨hs, hslotSafe⟩ := Bool.and_eq_true_iff.1 hsafe
      obtain ⟨hle, -⟩ := Registry.freeSlot_spec hslot
      obtain ⟨added, henter, hbound⟩ := h hs
      refine ⟨added, henter, fun j m hij hj hm htarget hhear => ?_⟩
      rcases (Registry.holds_put hle rfl).1 hm with ⟨rfl, rfl⟩ | ⟨-, hold⟩
      · -- the pass would come by the new listener
        exfalso
        have hij' : i < j := hij
        have htarget' : r.target = some node := htarget
        unfold slotSafe at hslotSafe
        rw [hhear] at hslotSafe
        simp [htarget', hij', hj] at hslotSafe
      · exact hbound j m hij hj hold htarget hhear

/-- The slot whose turn it is is called. -/
theorem Running.call (h : Running reg₀ ev turns k i s) {l : Listener} {node : NodeId}
    {phase : Phase} {count : Nat} (hl : s.reg.Holds i l) (hturn : turns[k]? = some (phase, node))
    (htarget : l.target = some node) (hhear : typeMatches l.type ev.type = true)
    (hfires : fires phase l = true) (hbound : Bound ev node k count i s) (hi : i < count) :
    Running reg₀ ev turns k (i + 1)
      { s with trace := s.trace ++ [.call ⟨k, node, phase, l⟩] } := by
  have hcalls : calls (s.trace ++ [.call ⟨k, node, phase, l⟩]) =
      calls s.trace ++ [⟨k, node, phase, l⟩] := calls_append _ _
  refine
    { stop := h.stop, numbered := h.numbered, ordered := h.ordered, added := h.added
      length := h.length, old := h.old, spent := ?_, silent := ?_, placed := ?_, fresh := ?_
      order := ?_, ahead := ?_, fate := ?_ }
  · intro l' hl'
    rcases List.mem_append.1 hl' with hl' | hl'
    · exact h.spent l' hl'
    · exact absurd (List.mem_singleton.1 hl') (by simp)
  · refine h.silent.concat fun l' c hl' hc => ?_
    obtain rfl := TraceEvent.call.inj hc
    exact (h.spent l' hl').2 i l hl
  · intro c hc
    rcases List.mem_append.1 (hcalls ▸ hc) with hc | hc
    · exact h.placed c hc
    · obtain rfl := List.mem_singleton.1 hc
      exact ⟨hturn, htarget, hfires, h.numbered.below i l hl, fun hlt => ⟨i, h.old i l hl hlt⟩⟩
  · intro c hc
    rcases List.mem_append.1 (hcalls ▸ hc) with hc | hc
    · obtain ⟨added, henter, hlt⟩ := h.fresh c hc
      exact ⟨added, List.mem_append_left _ henter, hlt⟩
    · obtain rfl := List.mem_singleton.1 hc
      obtain ⟨added, henter, hall⟩ := hbound
      exact ⟨added, List.mem_append_left _ henter,
        hall i l (Nat.le_refl i) hi hl htarget hhear⟩
  · dsimp only
    rw [hcalls, List.pairwise_append]
    refine ⟨h.order, List.pairwise_singleton _ _, fun c hc c' hc' => ?_⟩
    obtain rfl := List.mem_singleton.1 hc'
    exact h.before hl hhear hturn htarget (Or.inr ⟨rfl, Nat.le_refl i⟩) c hc
  · intro c hc
    rcases List.mem_append.1 (hcalls ▸ hc) with hc | hc
    · refine (h.ahead c hc).imp_right fun ⟨hk, hahead⟩ => ⟨hk, ?_⟩
      exact fun phase' node' hturn' j m hij => hahead phase' node' hturn' j m (Nat.le_of_succ_le hij)
    · obtain rfl := List.mem_singleton.1 hc
      refine Or.inr ⟨rfl, fun phase' node' hturn' j m hij hm htarget' hhear' => ?_⟩
      rw [hturn] at hturn'
      obtain ⟨-, rfl⟩ := Prod.mk.inj (Option.some.inj hturn')
      exact Registry.ordered_iff.1 h.ordered i j l m hij hl hm (htarget.trans htarget'.symm)
        hhear hhear'
  · intro j l' turn phase' node' hl' hhear' hturn' htarget' hfires'
    rcases h.fate j l' turn phase' node' hl' hhear' hturn' htarget' hfires' with
      ⟨hplace, hwait⟩ | ⟨hpast, hc⟩ | hgone
    · rcases hplace with hk | ⟨rfl, hij⟩
      · exact Or.inl ⟨Or.inl hk, hwait⟩
      · rcases Nat.eq_or_lt_of_le hij with rfl | hlt
        · obtain rfl := hl.unique hwait
          rw [hturn] at hturn'
          obtain ⟨rfl, rfl⟩ := Prod.mk.inj (Option.some.inj hturn')
          exact Or.inr (Or.inl ⟨Or.inr ⟨rfl, Nat.lt_succ_self i⟩, by simp⟩)
        · exact Or.inl ⟨Or.inr ⟨rfl, hlt⟩, hwait⟩
    · exact Or.inr (Or.inl ⟨hpast.imp_right fun h => ⟨h.1, Nat.lt_succ_of_lt h.2⟩,
        List.mem_append_left _ hc⟩)
    · exact Or.inr (Or.inr (hgone.append _))

/-- A slot that does not fire is passed by. -/
theorem Running.skip (h : Running reg₀ ev turns k i s) {node : NodeId} {phase : Phase}
    (hturn : turns[k]? = some (phase, node))
    (hnot : ∀ l, s.reg.Holds i l → l.target = some node → typeMatches l.type ev.type = true →
      fires phase l = true → False) : Running reg₀ ev turns k (i + 1) s :=
  { h with
    ahead := fun c hc => (h.ahead c hc).imp_right fun ⟨hk, hahead⟩ => ⟨hk,
      fun phase' node' hturn' j m hij => hahead phase' node' hturn' j m (Nat.le_of_succ_le hij)⟩
    fate := by
      intro j l turn phase' node' hl hhear hturn' htarget hfires
      rcases h.fate j l turn phase' node' hl hhear hturn' htarget hfires with
        ⟨hplace, hwait⟩ | ⟨hpast, hc⟩ | hgone
      · rcases hplace with hk | ⟨rfl, hij⟩
        · exact Or.inl ⟨Or.inl hk, hwait⟩
        · rcases Nat.eq_or_lt_of_le hij with rfl | hlt
          · rw [hturn] at hturn'
            obtain ⟨rfl, rfl⟩ := Prod.mk.inj (Option.some.inj hturn')
            exact absurd (hnot l hwait htarget hhear hfires) id
          · exact Or.inl ⟨Or.inr ⟨rfl, hlt⟩, hwait⟩
      · exact Or.inr (Or.inl ⟨hpast.imp_right fun h => ⟨h.1, Nat.lt_succ_of_lt h.2⟩, hc⟩)
      · exact Or.inr (Or.inr hgone) }

/-- Behind the slots there were before the dispatch the turn is over. -/
theorem Running.next (h : Running reg₀ ev turns k i s) (hi : reg₀.ls.length ≤ i) :
    Running reg₀ ev turns (k + 1) 0 s :=
  { h with
    ahead := fun c hc => Or.inl <| by
      rcases h.ahead c hc with hlt | ⟨rfl, -⟩
      · exact Nat.lt_succ_of_lt hlt
      · exact Nat.lt_succ_self _
    fate := by
      intro j l turn phase node hl hhear hturn htarget hfires
      rcases h.fate j l turn phase node hl hhear hturn htarget hfires with
        ⟨hplace, hwait⟩ | ⟨hpast, hc⟩ | hgone
      · rcases hplace with hk | ⟨rfl, hij⟩
        · refine Or.inl ⟨?_, hwait⟩
          rcases Nat.eq_or_lt_of_le (Nat.succ_le_of_lt hk) with heq | hlt
          · exact Or.inr ⟨heq, Nat.zero_le j⟩
          · exact Or.inl hlt
        · exact absurd hl.lt (Nat.not_lt.2 (Nat.le_trans hi hij))
      · refine Or.inr (Or.inl ⟨Or.inl ?_, hc⟩)
        rcases hpast with hlt | ⟨rfl, -⟩
        · exact Nat.lt_succ_of_lt hlt
        · exact Nat.lt_succ_self _
      · exact Or.inr (Or.inr hgone) }

theorem Bound.succ {node : NodeId} {count : Nat} (h : Bound ev node k count i s) :
    Bound ev node k count (i + 1) s := by
  obtain ⟨added, henter, hbound⟩ := h
  exact ⟨added, henter, fun j m hij => hbound j m (Nat.le_of_succ_le hij)⟩

theorem Bound.log {node : NodeId} {count : Nat} (h : Bound ev node k count i s) (e : TraceEvent) :
    Bound ev node k count i { s with trace := s.trace ++ [e] } := by
  obtain ⟨added, henter, hbound⟩ := h
  exact ⟨added, List.mem_append_left _ henter, hbound⟩

/-! ## Runs -/

/-- No callback stops the event. -/
structure Host.NeverStops (host : Host) : Prop where
  callback : ∀ trace l, Action.stopPropagation ∉ host.callback trace l
  inline : ∀ handler, host.inlineHandler = some handler →
    ∀ trace node code, Action.stopPropagation ∉ handler trace node code

theorem Running.acts {pass : Pass} (as : List Action) (ha : Action.stopPropagation ∉ as)
    {s : Firing} (h : s.safe = true → Running reg₀ ev turns k i s)
    (hsafe : (as.foldl (Firing.act ev pass) s).safe = true) :
    Running reg₀ ev turns k i (as.foldl (Firing.act ev pass) s) := by
  induction as generalizing s with
  | nil => exact h hsafe
  | cons a as ih =>
    rw [List.mem_cons, not_or] at ha
    exact ih ha.2 (fun hs => Running.act (Ne.symm ha.1) h hs) hsafe

/-- What is safe behind some actions was safe before. -/
theorem acts_safe {pass : Pass} (as : List Action) {s : Firing}
    (hsafe : (as.foldl (Firing.act ev pass) s).safe = true) : s.safe = true := by
  induction as generalizing s with
  | nil => exact hsafe
  | cons a as ih =>
    have hact := ih hsafe
    cases a with
    | add r =>
      rcases act_add ev pass s r with heq | ⟨slot, -, heq⟩
      · exact heq ▸ hact
      · rw [heq] at hact
        exact (Bool.and_eq_true_iff.1 hact).1
    | remove o => exact hact
    | stopPropagation => exact hact

theorem Bound.acts {node : NodeId} {count : Nat} (as : List Action) {s : Firing}
    (h : s.safe = true → Bound ev node k count (i + 1) s)
    (hsafe : (as.foldl (Firing.act ev ⟨node, i, count⟩) s).safe = true) :
    Bound ev node k count (i + 1) (as.foldl (Firing.act ev ⟨node, i, count⟩) s) := by
  induction as generalizing s with
  | nil => exact h hsafe
  | cons a as ih => exact ih (fun hs => Bound.act h hs) hsafe

variable {host : Host} {node : NodeId} {phase : Phase} {count : Nat}

/-- The scan of the table ends behind the slots there were before the dispatch. -/
theorem Running.loop (hstops : host.NeverStops) (hturn : turns[k]? = some (phase, node))
    (fuel : Nat) {i : Nat} {s : Firing} (hfuel : count ≤ i + fuel)
    (h : s.safe = true → Running reg₀ ev turns k i s ∧ Bound ev node k count i s ∧
      reg₀.ls.length ≤ count)
    (hsafe : (fireLoop host ev node phase k count fuel i s).safe = true) :
    Running reg₀ ev turns (k + 1) 0 (fireLoop host ev node phase k count fuel i s) := by
  induction fuel generalizing i s with
  | zero => exact (h hsafe).1.next (Nat.le_trans (h hsafe).2.2 hfuel)
  | succ fuel ih =>
    unfold fireLoop at hsafe ⊢
    by_cases hi : i < count
    · rw [if_pos hi] at hsafe ⊢
      cases hslot : s.reg.ls[i]? with
      | none =>
        rw [hslot] at hsafe
        dsimp only at hsafe ⊢
        have hlen := List.getElem?_eq_none_iff.1 hslot
        exact (h hsafe).1.next (Nat.le_trans (h hsafe).1.length hlen)
      | some l =>
        rw [hslot] at hsafe
        dsimp only at hsafe ⊢
        by_cases hfire : l.active = true ∧ l.target = some node ∧
            typeMatches l.type ev.type = true ∧ fires phase l = true
        · rw [if_pos hfire] at hsafe ⊢
          obtain ⟨hactive, htarget, hhear, hfires⟩ := hfire
          generalize hs' : (host.callback _ l).foldl _ _ = s' at hsafe ⊢
          have hnext : s'.safe = true → Running reg₀ ev turns k (i + 1) s' ∧
              Bound ev node k count (i + 1) s' ∧ reg₀.ls.length ≤ count := by
            intro hs
            rw [← hs'] at hs ⊢
            have hcalled := acts_safe _ hs
            refine ⟨Running.acts _ (hstops.callback _ l) (fun hs => ?_) hs,
              Bound.acts _ (fun hs => ?_) hs, (h hcalled).2.2⟩
            · exact (h hs).1.call ⟨hslot, hactive⟩ hturn htarget hhear hfires (h hs).2.1 hi
            · exact (h hs).2.1.succ.log _
          by_cases hstop : s'.stop = true
          · rw [if_pos hstop] at hsafe
            exact absurd hstop (by rw [(hnext hsafe).1.stop]; exact Bool.false_ne_true)
          · rw [if_neg hstop] at hsafe ⊢
            exact ih (by omega) hnext hsafe
        · rw [if_neg hfire] at hsafe ⊢
          refine ih (by omega)
            (fun hs => ⟨(h hs).1.skip hturn ?_, (h hs).2.1.succ, (h hs).2.2⟩) hsafe
          intro m hm htarget hhear hfires
          have hlm : l = m := Option.some.inj (hslot.symm.trans hm.1)
          exact hfire (hlm ▸ ⟨hm.2, htarget, hhear, hfires⟩)
    · rw [if_neg hi] at hsafe ⊢
      exact (h hsafe).1.next (Nat.le_trans (h hsafe).2.2 (Nat.not_lt.1 hi))

/-- The inline handler is no listener. -/
theorem Running.inline (hstops : host.NeverStops) {turn : Nat} {s : Firing}
    (h : s.safe = true → Running reg₀ ev turns k i s)
    (hsafe : (fireInline host ev node phase turn count s).safe = true) :
    Running reg₀ ev turns k i (fireInline host ev node phase turn count s) := by
  unfold fireInline at hsafe ⊢
  cases hhandler : host.inlineHandler with
  | none =>
    rw [hhandler] at hsafe
    exact h hsafe
  | some handler =>
    rw [hhandler] at hsafe
    dsimp only at hsafe ⊢
    by_cases hphase : phase = .target ∨ phase = .bubble
    · rw [if_pos hphase] at hsafe ⊢
      generalize host.attr s.trace node ((ascii "on" ++ ev.type).take 31) = code at hsafe ⊢
      match code, hsafe with
      | none, hsafe => exact h hsafe
      | some [], hsafe => exact h hsafe
      | some (c :: code), hsafe =>
        exact Running.acts _ (hstops.inline handler hhandler _ _ _)
          (fun hs => (h hs).log (by simp) (by simp)) hsafe
    · rw [if_neg hphase] at hsafe ⊢
      exact h hsafe

/-- One firing is one turn. -/
theorem Running.fireAt (hstops : host.NeverStops) (hturn : turns[k]? = some (phase, node))
    {s : Firing} (h : s.safe = true → Running reg₀ ev turns k 0 s)
    (hsafe : (fireAt host ev node phase k s).safe = true) :
    Running reg₀ ev turns (k + 1) 0 (fireAt host ev node phase k s) := by
  unfold Events.fireAt at hsafe ⊢
  dsimp only at hsafe ⊢
  generalize hs' : fireLoop _ _ _ _ _ _ _ _ _ = s' at hsafe ⊢
  have hloop : s'.safe = true → Running reg₀ ev turns (k + 1) 0 s' := by
    intro hs
    rw [← hs'] at hs ⊢
    refine Running.loop hstops hturn _ (Nat.le_of_eq (Nat.zero_add _).symm) (fun hs => ?_) hs
    have hrun := h hs
    refine ⟨hrun.log (by simp) (by simp), ?_, hrun.length⟩
    exact ⟨s.reg.added, by simp, fun j m _ _ hm _ _ => hrun.numbered.below j m hm⟩
  by_cases hstop : s'.stop = true
  · rw [if_pos hstop] at hsafe ⊢
    exact hloop hsafe
  · rw [if_neg hstop] at hsafe ⊢
    exact Running.inline hstops hloop hsafe

/-- The firings of a plan, from turn `k` on. -/
theorem Running.all (hstops : host.NeverStops) (rest : List (Phase × NodeId)) {k : Nat} {s : Firing}
    (hrest : turns.drop k = rest) (h : s.safe = true → Running reg₀ ev turns k 0 s)
    (hsafe : (fireAll host ev k rest s).safe = true) :
    Running reg₀ ev turns turns.length 0 (fireAll host ev k rest s) := by
  induction rest generalizing k s with
  | nil =>
    have hrun := h hsafe
    have hk : turns.length ≤ k := List.drop_eq_nil_iff.1 hrest
    exact
      { hrun with
        ahead := fun c hc => Or.inl (List.getElem?_eq_some_iff.1 (hrun.placed c hc).1).1
        fate := by
          intro j l turn phase node hl hhear hturn htarget hfires
          have hlt := (List.getElem?_eq_some_iff.1 hturn).1
          rcases hrun.fate j l turn phase node hl hhear hturn htarget hfires with
            ⟨hplace, -⟩ | ⟨-, hc⟩ | hgone
          · omega
          · exact Or.inr (Or.inl ⟨Or.inl hlt, hc⟩)
          · exact Or.inr (Or.inr hgone) }
  | cons e rest ih =>
    obtain ⟨phase, node⟩ := e
    have hturn : turns[k]? = some (phase, node) := by
      rw [← List.head?_drop, hrest]
      rfl
    have hrest' : turns.drop (k + 1) = rest := by
      rw [← List.drop_drop, hrest]
      rfl
    unfold fireAll at hsafe ⊢
    dsimp only at hsafe ⊢
    have hfire := fun hs => Running.fireAt hstops hturn h hs
    by_cases hstop : (Events.fireAt host ev node phase k s).stop = true
    · rw [if_pos hstop] at hsafe
      exact absurd hstop (by rw [(hfire hsafe).stop]; exact Bool.false_ne_true)
    · rw [if_neg hstop] at hsafe ⊢
      exact ih hrest' hfire hsafe

end

/-! ## The registry of a history -/

/-- Whatever happened, the active slots are numbered. -/
theorem numbered_iff {st : Registry} : st.Numbered ↔
    (∀ l ∈ st.ls, l.active = true → l.number < st.added) ∧
      st.ls.Pairwise fun l m => l.active = true → m.active = true → l.number ≠ m.number := by
  constructor
  · intro h
    refine ⟨fun l hl hactive => ?_, List.pairwise_iff_getElem.2 ?_⟩
    · obtain ⟨j, hj⟩ := Registry.exists_holds_of_mem hl hactive
      exact h.below j l hj
    · intro i j hi hj hij hactive hactive' heq
      exact Nat.ne_of_lt hij (h.distinct i j _ _ ⟨List.getElem?_eq_getElem hi, hactive⟩
        ⟨List.getElem?_eq_getElem hj, hactive'⟩ heq)
  · rintro ⟨hbelow, hpair⟩
    have hdiff : ∀ i j l m, i < j → st.Holds i l → st.Holds j m → l.number ≠ m.number := by
      intro i j l m hij hl hm
      obtain ⟨hi, hli⟩ := List.getElem?_eq_some_iff.1 hl.1
      obtain ⟨hj, hmj⟩ := List.getElem?_eq_some_iff.1 hm.1
      have hne := List.pairwise_iff_getElem.1 hpair i j hi hj hij
      rw [hli, hmj] at hne
      exact hne hl.2 hm.2
    refine ⟨fun j m hm => hbelow m hm.mem hm.2, fun i j l m hl hm heq => ?_⟩
    rcases Nat.lt_trichotomy i j with hij | hij | hij
    · exact absurd heq (hdiff i j l m hij hl hm)
    · exact hij
    · exact absurd heq.symm (hdiff j i m l hij hm hl)

theorem History.numbered_step {s : History} (h : s.reg.Numbered) (e : Step) :
    (s.step e).reg.Numbered := by
  cases e with
  | add r =>
    unfold History.step miniEventsAddListener
    dsimp only
    by_cases hnull : r.target = none ∨ r.type = none ∨ r.cb = none
    · rw [if_pos hnull]
      exact h
    · rw [if_neg hnull]
      cases hslot : s.reg.freeSlot with
      | none => exact h
      | some slot => exact h.put (Registry.freeSlot_spec hslot).1 rfl rfl
  | remove number =>
    unfold History.step
    dsimp only
    cases s.live.find? fun r => r.listener.number = number with
    | none => exact h
    | some r => exact h.remove r.handle
  | destroy n =>
    obtain ⟨hbelow, hpair⟩ := numbered_iff.1 h
    exact numbered_iff.2 ⟨fun l hl => hbelow l (List.mem_filter.1 hl).1, hpair.filter _⟩

theorem History.numbered_run {s : History} (h : s.reg.Numbered) (steps : List Step) :
    (s.run steps).reg.Numbered := by
  induction steps generalizing s with
  | nil => exact h
  | cons e es ih => exact ih (History.numbered_step h e)

theorem History.numbered (steps : List Step) : (History.start.run steps).reg.Numbered :=
  History.numbered_run (numbered_iff.2 ⟨by simp [start, Registry.empty], List.Pairwise.nil⟩) steps

/-! ## What a dispatch calls -/

/-- Every call is where the plan puts it, in the order of the plan and on a node in the order
of registration, and of a listener that was registered before the firing.  Every listener of
the event's type on the target or above it, registered before the dispatch, is called once, in
its turn, or was removed before. -/
structure DispatchesOnce (d : NodeHeap) (reg₀ : Registry) (ev : Event) (target : NodeId)
    (trace : List TraceEvent) : Prop where
  order : (calls trace).Pairwise fun c c' => c.Before c'.turn c'.listener.number
  placed : ∀ c ∈ calls trace, (plan ev (path d target))[c.turn]? = some (c.phase, c.node) ∧
    c.listener.target = some c.node ∧ fires c.phase c.listener = true
  fresh : ∀ c ∈ calls trace, ∃ added, TraceEvent.enter c.turn added ∈ trace ∧
    c.listener.number < added
  once : ∀ i l node, reg₀.Holds i l → l.type = ev.type → l.target = some node →
    Below d.parentOf target node →
    (node = target ∨ l.useCapture = true ∨ ev.bubbles = true) →
    ∃ turn phase, (plan ev (path d target))[turn]? = some (phase, node) ∧ fires phase l = true ∧
      ((calls trace).filter (fun c => c.listener.number = l.number) = [⟨turn, node, phase, l⟩] ∨
        (calls trace).filter (fun c => c.listener.number = l.number) = [] ∧
          RemovedBefore trace turn l)

theorem eq_singleton_of_pairwise {α : Type} {R : α → α → Prop} {l : List α} {a : α}
    (hpair : l.Pairwise R) (hirrefl : ¬ R a a) (hall : ∀ x ∈ l, x = a) (ha : a ∈ l) : l = [a] := by
  cases l with
  | nil => exact absurd ha List.not_mem_nil
  | cons x rest =>
    obtain rfl := hall x List.mem_cons_self
    cases rest with
    | nil => rfl
    | cons y rest =>
      obtain rfl := hall y (by simp)
      exact absurd ((List.pairwise_cons.1 hpair).1 y List.mem_cons_self) hirrefl

theorem Running.once {reg₀ : Registry} {ev : Event} {turns : List (Phase × NodeId)} {s : Firing}
    (h : Running reg₀ ev turns turns.length 0 s) (hnumbered : reg₀.Numbered)
    (hturns : turns.Pairwise fun e e' =>
      e.2 = e'.2 → ∀ l, ¬ (fires e.1 l = true ∧ fires e'.1 l = true))
    {i turn : Nat} {l : Listener} {node : NodeId} {phase : Phase} (hl : reg₀.Holds i l)
    (hhear : typeMatches l.type ev.type = true) (hturn : turns[turn]? = some (phase, node))
    (htarget : l.target = some node) (hfires : fires phase l = true) :
    (calls s.trace).filter (fun c => c.listener.number = l.number) = [⟨turn, node, phase, l⟩] ∨
      (calls s.trace).filter (fun c => c.listener.number = l.number) = [] ∧
        RemovedBefore s.trace turn l := by
  have hlt := (List.getElem?_eq_some_iff.1 hturn).1
  -- every call of the registration is this one
  have hall : ∀ c ∈ calls s.trace, c.listener.number = l.number → c = ⟨turn, node, phase, l⟩ := by
    intro c hc heq
    obtain ⟨hcturn, hctarget, hcfires, -, hold⟩ := h.placed c hc
    obtain ⟨j, hj⟩ := hold (heq ▸ hnumbered.below i l hl)
    obtain rfl := hnumbered.distinct j i _ l hj hl heq
    have hcl : c.listener = l := hj.unique hl
    have hnode : c.node = node := by
      rw [hcl, htarget] at hctarget
      exact (Option.some.inj hctarget).symm
    have hsame : c.turn = turn := by
      obtain ⟨hci, hcget⟩ := List.getElem?_eq_some_iff.1 hcturn
      obtain ⟨hti, htget⟩ := List.getElem?_eq_some_iff.1 hturn
      rw [hcl] at hcfires
      rcases Nat.lt_trichotomy c.turn turn with hlt | heq | hlt
      · have hpair := List.pairwise_iff_getElem.1 hturns _ _ hci hti hlt
        rw [hcget, htget] at hpair
        exact absurd ⟨hcfires, hfires⟩ (hpair hnode l)
      · exact heq
      · have hpair := List.pairwise_iff_getElem.1 hturns _ _ hti hci hlt
        rw [hcget, htget] at hpair
        exact absurd ⟨hfires, hcfires⟩ (hpair hnode.symm l)
    have hphase : c.phase = phase := by
      rw [hsame, hturn] at hcturn
      exact (Prod.mk.inj (Option.some.inj hcturn)).1.symm
    obtain ⟨cturn, cnode, cphase, clistener⟩ := c
    dsimp only at hsame hnode hphase hcl
    rw [hsame, hnode, hphase, hcl]
  rcases h.fate i l turn phase node hl hhear hturn htarget hfires with
    ⟨hplace, -⟩ | ⟨-, hc⟩ | ⟨a, b, htrace, hbefore⟩
  · omega
  · refine Or.inl (eq_singleton_of_pairwise (h.order.filter _) ?_ ?_ ?_)
    · simp [Call.Before]
    · intro c hc'
      obtain ⟨hc', heq⟩ := List.mem_filter.1 hc'
      exact hall c hc' (by simpa using heq)
    · exact List.mem_filter.2 ⟨mem_calls.2 hc, by simp⟩
  · refine Or.inr ⟨List.filter_eq_nil_iff.2 fun c hc heq => ?_, a, b, htrace, hbefore⟩
    have heq' : c.listener.number = l.number := by simpa using heq
    obtain rfl := hall c hc heq'
    rw [htrace, calls_append] at hc
    rcases List.mem_append.1 hc with hc | hc
    · rcases hbefore _ hc with hlt' | ⟨-, hlt'⟩
      · exact Nat.lt_irrefl _ hlt'
      · exact Nat.lt_irrefl _ hlt'
    · -- nothing is called behind its removal
      have hsilent := h.silent
      rw [Silent, htrace, List.pairwise_append] at hsilent
      have hb : TraceEvent.call ⟨turn, node, phase, l⟩ ∈ b := by
        rcases List.mem_cons.1 (mem_calls.1 hc) with hc | hc
        · exact absurd hc (by simp)
        · exact hc
      exact (List.pairwise_cons.1 hsilent.2.1).1 _ hb l _ rfl rfl rfl

/-- A dispatch that is not stopped calls every listener once and in order, if the path reaches
the root, the listeners of a node stood in the order of registration, and no callback added a
listener to a slot that breaks this order or that the pass had still to visit. -/
theorem dispatchesOnce_of_safe (d : NodeHeap) (hacyclic : Acyclic d.parentOf)
    (history : List Step) (host : Host) (hstops : host.NeverStops) (ev : Event) (target : NodeId)
    (hwhole : PathWhole d target) (hordered : (History.start.run history).reg.Ordered ev.type)
    (hsafe : (miniEventDispatch d host (History.start.run history).reg ev target).safe = true) :
    DispatchesOnce d (History.start.run history).reg ev target
      (miniEventDispatch d host (History.start.run history).reg ev target).trace := by
  have hnumbered := History.numbered history
  have hstart : Running (History.start.run history).reg ev (plan ev (path d target)) 0 0
      { reg := (History.start.run history).reg, stop := false, trace := [], safe := true } :=
    { stop := rfl, numbered := hnumbered, ordered := hordered, added := Nat.le_refl _
      length := Nat.le_refl _, old := fun j m hm _ => hm, spent := by simp
      silent := List.Pairwise.nil, placed := by simp [calls], fresh := by simp [calls]
      order := List.Pairwise.nil, ahead := by simp [calls]
      fate := fun j l turn phase node hl _ _ _ _ => Or.inl ⟨by omega, hl⟩ }
  have hrun := Running.all hstops (plan ev (path d target)) List.drop_zero (fun _ => hstart) hsafe
  obtain ⟨above, hpath⟩ := path_eq_cons d target
  have hnodup : (target :: above).Nodup := hpath ▸ hacyclic.nodup_ancestors 63 target
  refine ⟨hrun.order, fun c hc => ?_, hrun.fresh, ?_⟩
  · obtain ⟨hturn, htarget, hfires, -, -⟩ := hrun.placed c hc
    exact ⟨hturn, htarget, hfires⟩
  · intro i l node hl htype htarget hbelow hreached
    have hmem : node ∈ target :: above := hpath ▸ mem_ancestors_of_whole hwhole hbelow
    obtain ⟨turn, phase, hturn, hfires⟩ := exists_turn ev hmem hreached
    rw [← hpath] at hturn
    have hhear : typeMatches l.type ev.type = true := by simp [typeMatches, htype]
    exact ⟨turn, phase, hturn, hfires, hrun.once hnumbered
      (hpath ▸ plan_pairwise ev hnodup) hl hhear hturn htarget hfires⟩

/-! ## Two dispatches -/

/-- A document with an element in its root element. -/
def nestedHeap : NodeHeap :=
  { size := 3
    node := fun i => if i = 0 then {} else if i < 3 then { parent := some (i - 1) } else {} }

theorem acyclic_nestedHeap : Acyclic nestedHeap.parentOf := by
  refine acyclic_of_lt fun x p hp => ?_
  unfold NodeHeap.parentOf nestedHeap at hp
  dsimp only at hp
  split_ifs at hp with hx hx3
  · obtain rfl := Option.some.inj hp
    exact Nat.sub_lt (Nat.pos_of_ne_zero hx) Nat.one_pos

/-- A listener for clicks that captures or bubbles. -/
def clickListener (n : NodeId) (useCapture : Bool) : Request :=
  { target := some n, type := some (ascii "click"), cb := some 1, ud := none
    useCapture := useCapture }

/-- Callbacks that do something only for the first registration. -/
def firstDoes (as : List Action) : Host :=
  { callback := fun _ l => if l.number = 0 then as else []
    inlineHandler := none, attr := fun _ _ _ => none }

theorem firstDoes_neverStops {as : List Action} (h : Action.stopPropagation ∉ as) :
    (firstDoes as).NeverStops := by
  refine ⟨fun trace l => ?_, by simp [firstDoes]⟩
  unfold firstDoes
  dsimp only
  split_ifs
  · exact h
  · exact List.not_mem_nil

/-- A listener on the root that adds one on the target and removes a bubbling one. -/
theorem dispatchesOnce_of_safe_nested :
    DispatchesOnce nestedHeap
      (History.start.run [.add (clickListener 0 true), .add (clickListener 1 false),
        .add (clickListener 2 false)]).reg ⟨ascii "click", true⟩ 2
      (miniEventDispatch nestedHeap (firstDoes [.add (clickListener 2 true), .remove (some 1)])
        (History.start.run [.add (clickListener 0 true), .add (clickListener 1 false),
          .add (clickListener 2 false)]).reg ⟨ascii "click", true⟩ 2).trace :=
  dispatchesOnce_of_safe nestedHeap acyclic_nestedHeap _ _ (firstDoes_neverStops (by decide)) _ 2
    (by decide) (by decide) (by decide)

/-- The first listener of a node removes the second and adds a third.  The third takes the
slot of the second and is called in the firing in which it was added. -/
theorem added_listener_called :
    let reg := (History.start.run [.add (clickListener 0 false), .add (clickListener 0 false)]).reg
    let host := firstDoes [.remove (some 1), .add (clickListener 0 false)]
    let trace := (miniEventDispatch nestedHeap host reg ⟨ascii "click", true⟩ 0).trace
    (calls trace).map (fun c => c.listener.number) = [0, 2] ∧
      ¬ DispatchesOnce nestedHeap reg ⟨ascii "click", true⟩ 0 trace := by
  intro reg host trace
  have htrace : trace =
      [.enter 0 2, .call ⟨0, 0, .target, (clickListener 0 false).listener 0⟩,
        .remove ((clickListener 0 false).listener 1),
        .call ⟨0, 0, .target, (clickListener 0 false).listener 2⟩] := by decide
  refine ⟨by decide, fun h => ?_⟩
  obtain ⟨added, henter, hlt⟩ :=
    h.fresh ⟨0, 0, .target, (clickListener 0 false).listener 2⟩ (by rw [htrace]; decide)
  rw [htrace] at henter
  obtain rfl : added = 2 := by simpa using henter
  exact absurd hlt (by decide)

end TinyFramework.Events
