/-
  Events/Listeners.lean --- the listener registry of `mini_events.c`.

  All listeners live in one table.  An added listener takes the first inactive slot or
  a new one behind the last; its handle is the slot's address, here its index.  What lies
  behind the last slot is never read again, so a write through a handle that points
  there is lost.  The number of a registration is not stored by the source.
-/
import TinyFramework.Dom.Node

set_option autoImplicit false

namespace TinyFramework.Events

open TinyFramework.Foundation TinyFramework.Dom

/-- `MiniEventListener`.  Function and data pointers are addresses. -/
structure Listener where
  target : Option NodeId
  type : Bytes
  cb : Option Nat
  ud : Option Nat
  useCapture : Bool
  active : Bool
  /-- Which registration, counted from the first, wrote the slot. -/
  number : Nat
  deriving DecidableEq, Repr

/-- `MINI_LS_MAX` -/
def miniLsMax : Nat := 256

/-- `ls` up to `ls_n`, and the number of registrations so far. -/
structure Registry where
  ls : List Listener
  added : Nat
  deriving DecidableEq

def Registry.empty : Registry := ⟨[], 0⟩

/-- What an `addEventListener` gives: the arguments of `mini_events_add_listener`. -/
structure Request where
  target : Option NodeId
  type : Option Bytes
  cb : Option Nat
  ud : Option Nat
  useCapture : Bool
  deriving DecidableEq, Repr

/-- The slot that a registration writes, its type cut to the 23 bytes that are stored. -/
def Request.listener (r : Request) (number : Nat) : Listener :=
  { target := r.target, type := (r.type.getD []).take 23, cb := r.cb, ud := r.ud
    useCapture := r.useCapture, active := true, number := number }

/-- The slot a listener is put into: the first inactive one, or a new one. -/
def Registry.freeSlot (st : Registry) : Option Nat :=
  match st.ls.findIdx? fun l => !l.active with
  | some i => some i
  | none => if miniLsMax ≤ st.ls.length then none else some st.ls.length

/-- Write a slot, or the one behind the last. -/
def Registry.put (st : Registry) (i : Nat) (l : Listener) : Registry :=
  { ls := if i < st.ls.length then st.ls.set i l else st.ls ++ [l], added := st.added + 1 }

/-- `mini_events_add_listener`: the handle, if any. -/
def miniEventsAddListener (st : Registry) (r : Request) : Option Nat × Registry :=
  if r.target = none ∨ r.type = none ∨ r.cb = none then (none, st)
  else
    match st.freeSlot with
    | none => (none, st)
    | some i => (some i, st.put i (r.listener st.added))

/-- `mini_events_remove_listener` -/
def miniEventsRemoveListener (st : Registry) (h : Option Nat) : Registry :=
  match h with
  | none => st
  | some i =>
      { st with
        ls := st.ls.modify i fun l =>
          { l with active := false, target := none, cb := none, ud := none } }

/-- The loop of `mini_events_on_node_destroyed` over the listeners: the slots that target
the node are taken out, and those behind them move up. -/
def removeTargeting (st : Registry) (n : NodeId) : Registry :=
  { st with ls := st.ls.filter fun l => l.target != some n }

/-! ## Slots -/

/-- The slot `i` is active and holds `l`. -/
def Registry.Holds (st : Registry) (i : Nat) (l : Listener) : Prop :=
  st.ls[i]? = some l ∧ l.active = true

namespace Registry

variable {st : Registry} {i j : Nat} {l m : Listener}

theorem Holds.lt (h : st.Holds i l) : i < st.ls.length := by
  obtain ⟨hlt, -⟩ := List.getElem?_eq_some_iff.1 h.1
  exact hlt

theorem Holds.unique (h : st.Holds i l) (h' : st.Holds i m) : l = m :=
  Option.some.inj (h.1.symm.trans h'.1)

theorem Holds.mem (h : st.Holds i l) : l ∈ st.ls := List.mem_of_getElem? h.1

theorem exists_holds_of_mem (h : l ∈ st.ls) (hactive : l.active = true) : ∃ i, st.Holds i l := by
  obtain ⟨i, hi⟩ := List.mem_iff_getElem?.1 h
  exact ⟨i, hi, hactive⟩

/-- The slot that is taken is inactive or new. -/
theorem freeSlot_spec (h : st.freeSlot = some i) : i ≤ st.ls.length ∧ ∀ m, ¬ st.Holds i m := by
  unfold freeSlot at h
  cases hfind : st.ls.findIdx? fun l => !l.active with
  | some k =>
    rw [hfind] at h
    obtain rfl := Option.some.inj h
    obtain ⟨hk, hfree, -⟩ := List.findIdx?_eq_some_iff_getElem.1 hfind
    refine ⟨Nat.le_of_lt hk, ?_⟩
    rintro m ⟨hm, hactive⟩
    rw [List.getElem?_eq_getElem hk] at hm
    obtain rfl := Option.some.inj hm
    simp [hactive] at hfree
  | none =>
    rw [hfind] at h
    dsimp only at h
    split_ifs at h
    obtain rfl := Option.some.inj h
    exact ⟨Nat.le_refl _, fun m hm => Nat.lt_irrefl _ hm.lt⟩

theorem put_getElem? (hi : i ≤ st.ls.length) (l : Listener) (j : Nat) :
    (st.put i l).ls[j]? = if j = i then some l else st.ls[j]? := by
  unfold put
  dsimp only
  split_ifs with hlt hj hj
  · rw [hj, List.getElem?_set_self hlt]
  · rw [List.getElem?_set_ne (Ne.symm hj)]
  · obtain rfl : i = st.ls.length := Nat.le_antisymm hi (Nat.not_lt.1 hlt)
    rw [hj, List.getElem?_concat_length]
  · obtain rfl : i = st.ls.length := Nat.le_antisymm hi (Nat.not_lt.1 hlt)
    rcases Nat.lt_or_gt_of_ne hj with hj | hj
    · rw [List.getElem?_append_left hj]
    · rw [List.getElem?_eq_none (by simpa using Nat.succ_le_of_lt hj),
        List.getElem?_eq_none (Nat.le_of_lt hj)]

/-- A written slot is held; nothing else changes. -/
theorem holds_put (hi : i ≤ st.ls.length) (hl : l.active = true) :
    (st.put i l).Holds j m ↔ (j = i ∧ m = l) ∨ (j ≠ i ∧ st.Holds j m) := by
  unfold Holds
  rw [put_getElem? hi]
  by_cases hj : j = i
  · rw [if_pos hj, Option.some.injEq]
    constructor
    · rintro ⟨rfl, -⟩
      exact Or.inl ⟨hj, rfl⟩
    · rintro (⟨-, rfl⟩ | ⟨hne, -⟩)
      · exact ⟨rfl, hl⟩
      · exact absurd hj hne
  · rw [if_neg hj]
    constructor
    · exact fun h => Or.inr ⟨hj, h⟩
    · rintro (⟨h, -⟩ | ⟨-, h⟩)
      · exact absurd h hj
      · exact h

/-- A removed slot is not held any more; nothing else changes. -/
theorem holds_remove : (miniEventsRemoveListener st (some i)).Holds j m ↔
    j ≠ i ∧ st.Holds j m := by
  unfold Holds miniEventsRemoveListener
  dsimp only
  by_cases hj : j = i
  · subst hj
    rw [List.getElem?_modify_eq]
    constructor
    · rintro ⟨hm, hactive⟩
      obtain ⟨k, -, rfl⟩ := Option.map_eq_some_iff.1 hm
      exact absurd hactive Bool.false_ne_true
    · exact fun h => absurd rfl h.1
  · rw [List.getElem?_modify_ne _ _ (Ne.symm hj)]
    exact ⟨fun h => ⟨hj, h⟩, fun h => h.2⟩

end Registry

/-! ## A history of registrations -/

/-- A live registration: the handle it was given, and what was registered. -/
structure Registration where
  handle : Nat
  listener : Listener
  deriving DecidableEq

/-- A step of a history; a removal names the registration whose handle it passes. -/
inductive Step where
  | add (r : Request)
  | remove (number : Nat)
  | destroy (n : NodeId)
  deriving DecidableEq

/-- The registry beside the registrations that are live: returned by an addition, neither
removed nor on a destroyed node. -/
structure History where
  reg : Registry
  live : List Registration

def History.start : History := ⟨Registry.empty, []⟩

/-- A request as it was made. -/
def Request.asked (r : Request) (number : Nat) : Listener :=
  { target := r.target, type := r.type.getD [], cb := r.cb, ud := r.ud
    useCapture := r.useCapture, active := true, number := number }

/-- A step of the registry; beside it the live registrations gain what was asked for, and
lose what was removed or destroyed.  A handle is removed only while its registration is live. -/
def History.step (s : History) : Step → History
  | .add r =>
      match miniEventsAddListener s.reg r with
      | (some h, reg) => ⟨reg, s.live ++ [⟨h, r.asked s.reg.added⟩]⟩
      | (none, reg) => ⟨reg, s.live⟩
  | .remove number =>
      match s.live.find? fun r => r.listener.number = number with
      | some r =>
          ⟨miniEventsRemoveListener s.reg (some r.handle),
            s.live.filter fun r => r.listener.number ≠ number⟩
      | none => s
  | .destroy n =>
      ⟨removeTargeting s.reg n, s.live.filter fun r => r.listener.target ≠ some n⟩

def History.run (s : History) (steps : List Step) : History := steps.foldl History.step s

/-- Handles are stable: the active slots are the live registrations, each in the slot that
its handle is the address of, with the data it was registered with. -/
def History.HandlesStable (s : History) : Prop :=
  ∀ h l, s.reg.Holds h l ↔ ⟨h, l⟩ ∈ s.live

/-- Behind a listener of the node no active one of another node stands. -/
def Registry.LastOf (st : Registry) (n : NodeId) : Prop :=
  st.ls.Pairwise fun l m => l.target = some n → m.active = true → m.target = some n

instance (st : Registry) (n : NodeId) : Decidable (st.LastOf n) :=
  inferInstanceAs (Decidable (List.Pairwise _ _))

/-- A step that moves no slot a live handle points to: the listeners of a destroyed node
are the last ones.  The type of an added listener is stored whole. -/
def History.SafeStep (s : History) : Step → Prop
  | .add r => (r.type.getD []).length < 24
  | .remove _ => True
  | .destroy n => s.reg.LastOf n

instance (s : History) : ∀ e : Step, Decidable (s.SafeStep e)
  | .add r => inferInstanceAs (Decidable ((r.type.getD []).length < 24))
  | .remove _ => inferInstanceAs (Decidable True)
  | .destroy n => inferInstanceAs (Decidable (s.reg.LastOf n))

/-- Every step is safe where it is made. -/
def History.SafeRun : History → List Step → Prop
  | _, [] => True
  | s, e :: es => s.SafeStep e ∧ (s.step e).SafeRun es

instance History.decidableSafeRun :
    ∀ (s : History) (steps : List Step), Decidable (s.SafeRun steps)
  | _, [] => isTrue trivial
  | s, e :: es =>
      have := History.decidableSafeRun (s.step e) es
      inferInstanceAs (Decidable (s.SafeStep e ∧ (s.step e).SafeRun es))

/-- What holds in every state of a safe history. -/
structure History.Inv (s : History) : Prop where
  stable : s.HandlesStable
  /-- Registrations are numbered one after another. -/
  below : ∀ r ∈ s.live, r.listener.number < s.reg.added
  distinct : ∀ r ∈ s.live, ∀ r' ∈ s.live, r.listener.number = r'.listener.number → r = r'

namespace History

variable {s : History}

theorem inv_start : start.Inv := by
  refine ⟨?_, by simp [start], by simp [start]⟩
  intro h l
  simp [start, Registry.empty, Registry.Holds]

theorem Inv.add (hs : s.Inv) (r : Request) (hsafe : s.SafeStep (.add r)) :
    (s.step (.add r)).Inv := by
  unfold step miniEventsAddListener
  dsimp only
  split_ifs with hnull
  · exact hs
  · cases hfree : s.reg.freeSlot with
    | none => exact hs
    | some i =>
      obtain ⟨hi, hempty⟩ := Registry.freeSlot_spec hfree
      have hwhole : r.asked s.reg.added = r.listener s.reg.added := by
        unfold Request.asked Request.listener
        rw [List.take_of_length_le (Nat.le_of_lt_succ hsafe)]
      refine ⟨?_, ?_, ?_⟩
      · intro h l
        dsimp only
        rw [Registry.holds_put hi rfl, List.mem_append, List.mem_singleton, hwhole]
        constructor
        · rintro (⟨rfl, rfl⟩ | ⟨-, hl⟩)
          · exact Or.inr rfl
          · exact Or.inl ((hs.stable h l).1 hl)
        · rintro (hl | hl)
          · have hheld := (hs.stable h l).2 hl
            refine Or.inr ⟨?_, hheld⟩
            rintro rfl
            exact hempty l hheld
          · obtain ⟨rfl, rfl⟩ := Registration.mk.inj hl
            exact Or.inl ⟨rfl, rfl⟩
      · intro r' hr'
        change _ < s.reg.added + 1
        rcases List.mem_append.1 hr' with hr' | hr'
        · exact Nat.lt_succ_of_lt (hs.below r' hr')
        · obtain rfl := List.mem_singleton.1 hr'
          exact Nat.lt_succ_self _
      · intro r' hr' r'' hr'' heq
        rcases List.mem_append.1 hr' with hr' | hr' <;> rcases List.mem_append.1 hr'' with hr'' | hr''
        · exact hs.distinct r' hr' r'' hr'' heq
        · obtain rfl := List.mem_singleton.1 hr''
          exact absurd heq (Nat.ne_of_lt (hs.below r' hr'))
        · obtain rfl := List.mem_singleton.1 hr'
          exact absurd heq.symm (Nat.ne_of_lt (hs.below r'' hr''))
        · rw [List.mem_singleton.1 hr', List.mem_singleton.1 hr'']

theorem Inv.remove (hs : s.Inv) (number : Nat) : (s.step (.remove number)).Inv := by
  unfold step
  dsimp only
  cases hfind : s.live.find? fun r => r.listener.number = number with
  | none => exact hs
  | some r =>
    have hr : r ∈ s.live := List.mem_of_find?_eq_some hfind
    have hnumber : r.listener.number = number := by simpa using List.find?_some hfind
    refine ⟨?_, fun r' hr' => hs.below r' (List.mem_filter.1 hr').1,
      fun r' hr' r'' hr'' => hs.distinct r' (List.mem_filter.1 hr').1 r''
        (List.mem_filter.1 hr'').1⟩
    · intro h l
      rw [Registry.holds_remove, hs.stable h l, List.mem_filter]
      constructor
      · rintro ⟨hne, hl⟩
        refine ⟨hl, ?_⟩
        rw [decide_eq_true_eq]
        intro heq
        have hsame : (⟨h, l⟩ : Registration) = r :=
          hs.distinct _ hl _ hr (heq.trans hnumber.symm)
        exact hne (congrArg Registration.handle hsame)
      · rintro ⟨hl, hne⟩
        refine ⟨?_, hl⟩
        rintro rfl
        have hsame : l = r.listener :=
          Registry.Holds.unique ((hs.stable r.handle l).2 hl) ((hs.stable r.handle r.listener).2 hr)
        rw [decide_eq_true_eq] at hne
        exact hne (hsame ▸ hnumber)

theorem split_of_getElem? {α : Type} {l : List α} {i : Nat} {x : α} (h : l[i]? = some x) :
    ∃ a b, l = a ++ x :: b ∧ a.length = i := by
  obtain ⟨hi, rfl⟩ := List.getElem?_eq_some_iff.1 h
  refine ⟨l.take i, l.drop (i + 1), ?_, List.length_take_of_le (Nat.le_of_lt hi)⟩
  rw [← List.drop_eq_getElem_cons hi, List.take_append_drop]

/-- Taking out slots moves no active slot in front of which none is taken out. -/
theorem holds_removeTargeting {st : Registry} {n : NodeId} {h : Nat} {l : Listener}
    (hsafe : st.LastOf n) :
    (removeTargeting st n).Holds h l ↔ st.Holds h l ∧ l.target ≠ some n := by
  -- what stands in front of an active listener of another node stays
  have hkept : ∀ a m b, st.ls = a ++ m :: b → m.active = true → m.target ≠ some n →
      a.filter (fun l => l.target != some n) = a := by
    intro a m b hsplit hactive hne
    refine List.filter_eq_self.2 fun k hk => ?_
    have hlast := hsafe
    rw [Registry.LastOf, hsplit, List.pairwise_append] at hlast
    rw [bne_iff_ne]
    exact fun htarget => hne (hlast.2.2 k hk m List.mem_cons_self htarget hactive)
  constructor
  · rintro ⟨hl, hactive⟩
    obtain ⟨front, back, hsplit, hlen⟩ := split_of_getElem? hl
    obtain ⟨a, rest, hls, hfront, hrest⟩ := List.filter_eq_append_iff.1 hsplit
    obtain ⟨mid, b, hmid, hall, hne, -⟩ := List.filter_eq_cons_iff.1 hrest
    rw [bne_iff_ne] at hne
    have hsplit' : st.ls = (a ++ mid) ++ l :: b := by rw [hls, hmid, List.append_assoc]
    have hself := hkept _ l b hsplit' hactive hne
    have hnone : mid.filter (fun l => l.target != some n) = [] :=
      List.filter_eq_nil_iff.2 hall
    rw [List.filter_append, hfront, hnone, List.append_nil] at hself
    refine ⟨⟨?_, hactive⟩, hne⟩
    rw [hsplit', ← hself, ← hlen]
    simp
  · rintro ⟨⟨hl, hactive⟩, hne⟩
    obtain ⟨a, b, hsplit, hlen⟩ := split_of_getElem? hl
    refine ⟨?_, hactive⟩
    change (st.ls.filter _)[h]? = some l
    rw [hsplit, List.filter_append, hkept a l b hsplit hactive hne,
      List.filter_cons_of_pos (by simpa using hne), ← hlen]
    simp

theorem Inv.destroy (hs : s.Inv) (n : NodeId) (hsafe : s.SafeStep (.destroy n)) :
    (s.step (.destroy n)).Inv := by
  refine ⟨?_, fun r' hr' => hs.below r' (List.mem_filter.1 hr').1,
    fun r' hr' r'' hr'' => hs.distinct r' (List.mem_filter.1 hr').1 r'' (List.mem_filter.1 hr'').1⟩
  intro h l
  change (removeTargeting s.reg n).Holds h l ↔ _ ∈ s.live.filter _
  rw [holds_removeTargeting hsafe, hs.stable h l, List.mem_filter, decide_eq_true_eq]

theorem Inv.step (hs : s.Inv) (e : Step) (hsafe : s.SafeStep e) : (s.step e).Inv := by
  cases e with
  | add r => exact hs.add r hsafe
  | remove number => exact hs.remove number
  | destroy n => exact hs.destroy n hsafe

theorem Inv.run (hs : s.Inv) (steps : List Step) (hsafe : s.SafeRun steps) :
    (s.run steps).Inv := by
  induction steps generalizing s with
  | nil => exact hs
  | cons e es ih => exact ih (hs.step e hsafe.1) hsafe.2

end History

/-- Listener handles are stable in every safe history. -/
theorem handlesStable_of_safeRun (steps : List Step) (hsafe : History.start.SafeRun steps) :
    (History.start.run steps).HandlesStable :=
  (History.inv_start.run steps hsafe).stable

/-- A click listener. -/
def clickOn (n : NodeId) : Request :=
  { target := some n, type := some (ascii "click"), cb := some 1, ud := none, useCapture := false }

/-- A listener on each of two nodes; the second node goes first, and the first listener's slot
is used again. -/
theorem handlesStable_of_safeRun_twoNodes :
    (History.start.run [.add (clickOn 1), .add (clickOn 2), .destroy 2, .remove 0,
      .add (clickOn 3)]).HandlesStable :=
  handlesStable_of_safeRun _ (by decide)

/-- The first of two nodes with a listener is destroyed.  The other's listener moves to the
first slot, and its handle removes nothing. -/
theorem destroyed_moves_handle :
    let s := History.start.run [.add (clickOn 1), .add (clickOn 2)]
    let s' := s.run [.destroy 1, .remove 1]
    s.live.map Registration.handle = [0, 1] ∧ s'.live = [] ∧
      s'.reg.Holds 0 ((clickOn 2).listener 1) ∧ ¬ s'.HandlesStable := by
  have hheld : ((History.start.run [.add (clickOn 1), .add (clickOn 2)]).run
      [.destroy 1, .remove 1]).reg.Holds 0 ((clickOn 2).listener 1) := ⟨by decide, by decide⟩
  refine ⟨by decide, by decide, hheld, fun hstable => ?_⟩
  exact absurd ((hstable 0 _).1 hheld) (by decide)

end TinyFramework.Events
