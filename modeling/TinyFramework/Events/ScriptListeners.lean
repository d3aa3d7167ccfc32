/-
  Events/ScriptListeners.lean --- the listeners that scripts add.

  A script's listener is a record of the bridge beside a slot of the native table.  Callbacks
  are numbers that are equal where the functions are; memory can be had.  What a callback does
  is a list of actions, what other listeners do in a dispatch of its own among them.

  The native table and the records stay in step whatever the scripts do.  What the calls should
  do is another matter: each is right in some states only, and those are told here.
-/
import TinyFramework.Events.Dispatch
import TinyFramework.Foundation.CText
import TinyFramework.Foundation.Histories
import Mathlib.Data.List.Infix

set_option autoImplicit false

namespace TinyFramework.Events

open TinyFramework.Foundation TinyFramework.Dom

/-- The `this` of a call. -/
inductive EventTarget where
  | element (n : NodeId)
  | document
  | window
  deriving DecidableEq, Repr

/-- The root and the body of the document. -/
structure BridgeDocument where
  root : Option NodeId
  body : Option NodeId

/-- `listener_target` -/
def listenerTarget (doc : BridgeDocument) : EventTarget → Option NodeId
  | .element n => some n
  | .document => doc.root.orElse fun _ => doc.body
  | .window => doc.body

/-- The third argument. -/
inductive ListenerOptions where
  | absent
  | flag (capture : Bool)
  | options (capture once : Bool)
  deriving DecidableEq, Repr

namespace ListenerOptions

/-- `JS_ToBool`: an object is true. -/
def toBool : ListenerOptions → Bool
  | .absent => false
  | .flag capture => capture
  | .options _ _ => true

/-- What the caller asks for. -/
def capture : ListenerOptions → Bool
  | .absent => false
  | .flag capture => capture
  | .options capture _ => capture

def once : ListenerOptions → Bool
  | .options _ once => once
  | _ => false

end ListenerOptions

/-- `JsEvListener`; whether it was asked for once is not in the source. -/
structure JsEvListener where
  cb : Nat
  jsTarget : EventTarget
  handle : Nat
  once : Bool
  deriving DecidableEq, Repr

/-- `ev` and `ev_listeners`, in which a removed record leaves a hole. -/
structure Bridge where
  ev : Registry
  evListeners : List (Option JsEvListener)

def Bridge.start : Bridge := ⟨Registry.empty, []⟩

/-- The address of `ev_trampoline`. -/
def evTrampoline : Nat := 1

/-- The arguments of a call. -/
structure ListenerCall where
  this : EventTarget
  type : Bytes
  cb : Nat
  options : ListenerOptions
  deriving DecidableEq, Repr

/-- What `js_addEventListener` asks the native table for. -/
def ListenerCall.request (c : ListenerCall) (doc : BridgeDocument) (b : Bridge) : Request :=
  { target := listenerTarget doc c.this, type := some (cString c.type), cb := some evTrampoline
    ud := some b.evListeners.length, useCapture := c.options.toBool }

/-- `js_addEventListener` -/
def jsAddEventListener (doc : BridgeDocument) (b : Bridge) (c : ListenerCall) : Bridge :=
  match miniEventsAddListener b.ev (c.request doc b) with
  | (none, ev) => { b with ev := ev }
  | (some h, ev) =>
      { ev := ev
        evListeners := b.evListeners ++
          [some { cb := c.cb, jsTarget := c.this, handle := h, once := c.options.once }] }

/-- The test that `js_removeEventListener` makes of a record; the third argument is not read. -/
def Bridge.removes (doc : BridgeDocument) (b : Bridge) (c : ListenerCall) (r : JsEvListener) : Bool :=
  (b.ev.ls[r.handle]?).any fun l =>
    l.target == listenerTarget doc c.this && l.type == cString c.type && r.cb == c.cb

/-- The first record that passes it, and its place. -/
def Bridge.findRemoved (doc : BridgeDocument) (b : Bridge) (c : ListenerCall) :
    Option (Nat × JsEvListener) :=
  (b.evListeners.findIdx? fun o => o.any (b.removes doc c)).bind fun i =>
    (b.evListeners[i]?.join).map (i, ·)

/-- `js_removeEventListener` -/
def jsRemoveEventListener (doc : BridgeDocument) (b : Bridge) (c : ListenerCall) : Bridge :=
  match b.findRemoved doc c with
  | none => b
  | some (i, r) =>
      { ev := miniEventsRemoveListener b.ev (some r.handle), evListeners := b.evListeners.set i none }

/-! ## `dispatchEvent` -/

/-- What a dispatch reads of the event object that it is given, and what it should. -/
structure ScriptEvent where
  type : Bytes
  bubbles : Bool
  cancelable : Bool
  deriving DecidableEq, Repr

/-- What a callback does. -/
inductive ScriptAction where
  | addEventListener (c : ListenerCall)
  | removeEventListener (c : ListenerCall)
  | stopPropagation
  | preventDefault
  deriving DecidableEq

/-- What the action does to the bridge. -/
def ScriptAction.perform (doc : BridgeDocument) (b : Bridge) : ScriptAction → Bridge
  | .addEventListener c => jsAddEventListener doc b c
  | .removeEventListener c => jsRemoveEventListener doc b c
  | .stopPropagation => b
  | .preventDefault => b

/-- What comes of it in `mini_events.c`. -/
def ScriptAction.native (doc : BridgeDocument) (b : Bridge) : ScriptAction → List Action
  | .addEventListener c => [.add (c.request doc b)]
  | .removeEventListener c =>
      (b.findRemoved doc c).toList.map fun found => .remove (some found.2.handle)
  | .stopPropagation => [.stopPropagation]
  | .preventDefault => []

def nativeActions (doc : BridgeDocument) (b : Bridge) : List ScriptAction → List Action
  | [] => []
  | a :: as => a.native doc b ++ nativeActions doc (a.perform doc b) as

/-- What the scripts do that a dispatch runs, and the attributes of the document, all of which may
depend on what ran before. -/
structure Script where
  callback : List TraceEvent → Listener → List ScriptAction
  inline : List TraceEvent → NodeId → List ScriptAction
  attr : List TraceEvent → NodeId → Bytes → Option Bytes

/-- What is done in the last event of a trace. -/
def Script.actionsAt (script : Script) (trace : List TraceEvent) : List ScriptAction :=
  match trace.getLast? with
  | some (.call c) => script.callback trace c.listener
  | some (.inline _ node) => script.inline trace node
  | _ => []

/-- The bridge after some events of a dispatch, of which `done` were before. -/
def Bridge.after (doc : BridgeDocument) (script : Script) (b : Bridge) :
    List TraceEvent → List TraceEvent → Bridge
  | _, [] => b
  | done, e :: rest =>
      ((script.actionsAt (done ++ [e])).foldl (ScriptAction.perform doc) b).after doc script
        (done ++ [e]) rest

/-- The callbacks as `mini_events.c` calls them: `ev_trampoline` and `js_inline_event_handler`. -/
def Script.host (script : Script) (doc : BridgeDocument) (b : Bridge) : Host :=
  { callback := fun trace l =>
      nativeActions doc (b.after doc script [] trace.dropLast) (script.callback trace l)
    inlineHandler := some fun trace node _ =>
      nativeActions doc (b.after doc script [] trace.dropLast) (script.inline trace node)
    attr := fun trace => script.attr (trace.filter TraceEvent.isHeard) }

/-- `MiniEvent`: what the dispatch reads, and `ud`. -/
structure MiniEvent where
  event : Event
  ud : Option ScriptEvent

/-- The event that `js_dispatchEvent` makes. -/
def ScriptEvent.miniEvent (e : ScriptEvent) : MiniEvent :=
  { event := { type := cString e.type, bubbles := true }, ud := none }

/-- The object that `ev_trampoline` hands to a callback, where it is not built for the call. -/
def MiniEvent.handedOn (ev : MiniEvent) : Option ScriptEvent := ev.ud

/-- The dispatch below `js_dispatchEvent`; without a target there is none. -/
def jsFiring (d : NodeHeap) (doc : BridgeDocument) (script : Script) (b : Bridge)
    (this : EventTarget) (e : ScriptEvent) : Firing :=
  match listenerTarget doc this with
  | none => { reg := b.ev, stop := false, trace := [], safe := true }
  | some n => miniEventDispatch d (script.host doc b) b.ev e.miniEvent.event n

/-- Whether something that ran called `preventDefault` of the event it was given. -/
def Script.prevented (script : Script) (trace : List TraceEvent) : Bool :=
  trace.inits.any fun ran => ScriptAction.preventDefault ∈ script.actionsAt ran

/-- `js_dispatchEvent`: what is returned, and the bridge afterwards. -/
def jsDispatchEvent (d : NodeHeap) (doc : BridgeDocument) (script : Script) (b : Bridge)
    (this : EventTarget) (e : ScriptEvent) : Bool × Bridge :=
  let s := jsFiring d doc script b this e
  (!script.prevented s.trace, { b.after doc script [] s.trace with ev := s.reg })

/-! ## Registrations -/

/-- What a registration is known by. -/
structure ListenerKey where
  target : EventTarget
  type : Bytes
  cb : Nat
  capture : Bool
  deriving DecidableEq, Repr

/-- The key that a call means. -/
def ListenerCall.key (c : ListenerCall) : ListenerKey := ⟨c.this, c.type, c.cb, c.options.capture⟩

/-- The key that a registration of the call gets. -/
def ListenerCall.storedKey (c : ListenerCall) : ListenerKey :=
  ⟨c.this, (cString c.type).take 23, c.cb, c.options.toBool⟩

/-- The key of a record, as far as it stands in its slot. -/
def Bridge.keyOf (b : Bridge) (r : JsEvListener) : Option ListenerKey :=
  (b.ev.ls[r.handle]?).map fun l => ⟨r.jsTarget, l.type, r.cb, l.useCapture⟩

def Bridge.registrations (b : Bridge) : List ListenerKey :=
  b.evListeners.filterMap fun o => o.bind b.keyOf

/-- The two tables are in step: a record points to an active slot of its own, and an active slot
to the record that points to it. -/
structure Paired (doc : BridgeDocument) (b : Bridge) : Prop where
  held : ∀ i r, b.evListeners[i]? = some (some r) →
    ∃ l, b.ev.Holds r.handle l ∧ l.ud = some i ∧
      l.target = listenerTarget doc r.jsTarget ∧ cString l.type = l.type
  owned : ∀ h l, b.ev.Holds h l →
    ∃ i r, l.ud = some i ∧ b.evListeners[i]? = some (some r) ∧ r.handle = h

theorem paired_start (doc : BridgeDocument) : Paired doc Bridge.start := by
  refine ⟨fun i r h => ?_, fun h l hl => ?_⟩
  · simp [Bridge.start] at h
  · exact absurd hl.lt (Nat.not_lt_zero h)

variable {doc : BridgeDocument} {b : Bridge} {c : ListenerCall}

/-! ## Adding -/

/-- A slot and a record for the call. -/
def Bridge.register (doc : BridgeDocument) (b : Bridge) (c : ListenerCall) (i : Nat) : Bridge :=
  { ev := b.ev.put i ((c.request doc b).listener b.ev.added)
    evListeners := b.evListeners ++ [some ⟨c.cb, c.this, i, c.options.once⟩] }

/-- An addition is dropped, or writes a slot that was free and a record behind the last. -/
theorem jsAddEventListener_cases (doc : BridgeDocument) (b : Bridge) (c : ListenerCall) :
    ((listenerTarget doc c.this = none ∨ b.ev.freeSlot = none) ∧ jsAddEventListener doc b c = b) ∨
    ∃ n i, listenerTarget doc c.this = some n ∧ b.ev.freeSlot = some i ∧
      jsAddEventListener doc b c = b.register doc c i := by
  unfold jsAddEventListener miniEventsAddListener
  cases htarget : listenerTarget doc c.this with
  | none =>
    have hnull : (c.request doc b).target = none ∨ (c.request doc b).type = none ∨
        (c.request doc b).cb = none := Or.inl htarget
    rw [if_pos hnull]
    exact Or.inl ⟨Or.inl rfl, rfl⟩
  | some n =>
    have hnull : ¬ ((c.request doc b).target = none ∨ (c.request doc b).type = none ∨
        (c.request doc b).cb = none) := by
      rintro (h | h | h)
      · exact Option.some_ne_none n (htarget.symm.trans h)
      · cases h
      · cases h
    rw [if_neg hnull]
    cases hfree : b.ev.freeSlot with
    | none => exact Or.inl ⟨Or.inr rfl, rfl⟩
    | some i => exact Or.inr ⟨n, i, rfl, rfl, rfl⟩

/-- Behind a free slot all keys are as they were. -/
theorem registrations_register (hpaired : Paired doc b) {i : Nat} (hfree : b.ev.freeSlot = some i) :
    (b.register doc c i).registrations = b.registrations ++ [c.storedKey] := by
  obtain ⟨hi, hempty⟩ := Registry.freeSlot_spec hfree
  unfold Bridge.registrations Bridge.register
  rw [List.filterMap_append]
  congr 1
  · refine List.filterMap_congr fun o ho => ?_
    cases o with
    | none => rfl
    | some r =>
      obtain ⟨j, hj⟩ := List.mem_iff_getElem?.1 ho
      obtain ⟨l, hl, -, -, -⟩ := hpaired.held j r hj
      have hne : r.handle ≠ i := fun heq => hempty l (heq ▸ hl)
      show (Registry.put _ _ _).ls[r.handle]?.map _ = (b.ev.ls[r.handle]?).map _
      rw [Registry.put_getElem? hi, if_neg hne]
  · show [some _].filterMap _ = _
    simp [Bridge.keyOf, Registry.put_getElem? hi, ListenerCall.storedKey, Request.listener,
      ListenerCall.request]

theorem cString_take (s : Bytes) (n : Nat) : cString ((cString s).take n) = (cString s).take n := by
  unfold cString
  rw [List.take_takeWhile, List.takeWhile_takeWhile]
  simp only [and_self, Bool.decide_eq_true]

theorem Paired.register (hpaired : Paired doc b) {i : Nat} (hfree : b.ev.freeSlot = some i) :
    Paired doc (b.register doc c i) := by
  obtain ⟨hi, hempty⟩ := Registry.freeSlot_spec hfree
  have hholds : ∀ {h l}, _ ↔ _ := fun {h l} =>
    Registry.holds_put (j := h) (m := l) hi (l := (c.request doc b).listener b.ev.added) rfl
  refine ⟨fun j r hr => ?_, fun h l hl => ?_⟩
  · change (b.evListeners ++ [_])[j]? = _ at hr
    rcases Nat.lt_or_ge j b.evListeners.length with hj | hj
    · rw [List.getElem?_append_left hj] at hr
      obtain ⟨l, hl, hrest⟩ := hpaired.held j r hr
      have hne : r.handle ≠ i := fun heq => hempty l (heq ▸ hl)
      exact ⟨l, hholds.2 (Or.inr ⟨hne, hl⟩), hrest⟩
    · rw [List.getElem?_append_right hj, List.getElem?_singleton] at hr
      split_ifs at hr with hzero
      obtain rfl := Option.some.inj (Option.some.inj hr)
      obtain rfl : j = b.evListeners.length := by omega
      exact ⟨_, hholds.2 (Or.inl ⟨rfl, rfl⟩), rfl, rfl, cString_take c.type 23⟩
  · rcases hholds.1 hl with ⟨rfl, rfl⟩ | ⟨-, hl⟩
    · exact ⟨b.evListeners.length, _, rfl, List.getElem?_concat_length, rfl⟩
    · obtain ⟨j, r, hud, hr, hhandle⟩ := hpaired.owned h l hl
      obtain ⟨hj, -⟩ := List.getElem?_eq_some_iff.1 hr
      refine ⟨j, r, hud, ?_, hhandle⟩
      show (b.evListeners ++ [_])[j]? = _
      rw [List.getElem?_append_left hj, hr]

/-! ## Removing -/

/-- The slot and the record are given back. -/
def Bridge.unregister (b : Bridge) (i : Nat) (r : JsEvListener) : Bridge :=
  { ev := miniEventsRemoveListener b.ev (some r.handle), evListeners := b.evListeners.set i none }

theorem findRemoved_some {i : Nat} {r : JsEvListener} (h : b.findRemoved doc c = some (i, r)) :
    b.evListeners[i]? = some (some r) ∧ b.removes doc c r = true := by
  unfold Bridge.findRemoved at h
  obtain ⟨j, hj, h⟩ := Option.bind_eq_some_iff.1 h
  obtain ⟨r', hr', hpair⟩ := Option.map_eq_some_iff.1 h
  obtain ⟨rfl, rfl⟩ := Prod.mk.inj hpair
  obtain ⟨hlt, hremoves, -⟩ := List.findIdx?_eq_some_iff_getElem.1 hj
  rw [List.getElem?_eq_getElem hlt] at hr'
  have hr : b.evListeners[j] = some r' := hr'
  rw [hr] at hremoves
  exact ⟨by rw [List.getElem?_eq_getElem hlt, hr], hremoves⟩

theorem findRemoved_none (h : b.findRemoved doc c = none) {r : JsEvListener}
    (hr : some r ∈ b.evListeners) : b.removes doc c r = false := by
  unfold Bridge.findRemoved at h
  cases hidx : b.evListeners.findIdx? fun o => o.any (b.removes doc c) with
  | none => exact List.findIdx?_eq_none_iff.1 hidx (some r) hr
  | some j =>
    obtain ⟨hlt, hremoves, -⟩ := List.findIdx?_eq_some_iff_getElem.1 hidx
    rw [hidx, Option.bind_some, List.getElem?_eq_getElem hlt] at h
    cases hj : b.evListeners[j] with
    | none =>
      rw [hj] at hremoves
      cases hremoves
    | some r' =>
      rw [hj] at h
      cases h

/-- Where nothing is found the key is not registered. -/
theorem not_mem_registrations (hpaired : Paired doc b) (h : b.findRemoved doc c = none) :
    c.key ∉ b.registrations := by
  intro hmem
  obtain ⟨o, ho, hkey⟩ := List.mem_filterMap.1 hmem
  obtain ⟨r, rfl, hkey⟩ := Option.bind_eq_some_iff.1 hkey
  obtain ⟨i, hi⟩ := List.mem_iff_getElem?.1 ho
  obtain ⟨l, hl, -, htarget, htype⟩ := hpaired.held i r hi
  change (b.ev.ls[r.handle]?).map _ = _ at hkey
  rw [hl.1, Option.map_some] at hkey
  obtain ⟨hthis, hname, hcb, -⟩ := ListenerKey.mk.inj (Option.some.inj hkey)
  have hremoves : b.removes doc c r = true := by
    unfold Bridge.removes
    rw [hl.1, Option.any_some, htarget, hthis, ← hname, htype, hcb]
    simp
  rw [findRemoved_none h ho] at hremoves
  cases hremoves

/-- Two records have not the same slot. -/
theorem Paired.slot_unique (hpaired : Paired doc b) {i j : Nat} {r r' : JsEvListener}
    (hr : b.evListeners[i]? = some (some r)) (hr' : b.evListeners[j]? = some (some r'))
    (hslot : r.handle = r'.handle) : i = j := by
  obtain ⟨l, hl, hud, -⟩ := hpaired.held i r hr
  obtain ⟨l', hl', hud', -⟩ := hpaired.held j r' hr'
  have hsame := Registry.Holds.unique hl (hslot ▸ hl')
  exact Option.some.inj (hud.symm.trans (hsame ▸ hud'))

/-- The key of the record goes, and no other one. -/
theorem registrations_unregister (hpaired : Paired doc b) {i : Nat} {r : JsEvListener}
    (hr : b.evListeners[i]? = some (some r)) :
    ∃ front k back, b.keyOf r = some k ∧ b.registrations = front ++ k :: back ∧
      (b.unregister i r).registrations = front ++ back := by
  obtain ⟨l, hl, -⟩ := hpaired.held i r hr
  have hkey : b.keyOf r = some ⟨r.jsTarget, l.type, r.cb, l.useCapture⟩ := by
    rw [Bridge.keyOf, hl.1]
    rfl
  obtain ⟨front, back, hsplit, hlength⟩ := History.split_of_getElem? hr
  -- the other records read their own slots
  have hother : ∀ (j : Nat) (o : Option JsEvListener), j ≠ i → b.evListeners[j]? = some o →
      o.bind (b.unregister i r).keyOf = o.bind b.keyOf := by
    intro j o hj ho
    cases o with
    | none => rfl
    | some r' =>
      have hne : r.handle ≠ r'.handle := fun heq => hj (hpaired.slot_unique hr ho heq).symm
      show ((miniEventsRemoveListener b.ev (some r.handle)).ls[r'.handle]?).map _ = _
      rw [miniEventsRemoveListener, List.getElem?_modify_ne _ _ hne]
      rfl
  refine ⟨front.filterMap fun o => o.bind b.keyOf, _, back.filterMap fun o => o.bind b.keyOf, hkey,
    ?_, ?_⟩
  · rw [Bridge.registrations, hsplit, List.filterMap_append, List.filterMap_cons_some (by exact hkey)]
  · have hset : (b.unregister i r).evListeners = front ++ none :: back := by
      show b.evListeners.set i none = _
      rw [hsplit, ← hlength, List.set_append_right _ _ (Nat.le_refl _), Nat.sub_self,
        List.set_cons_zero]
    unfold Bridge.registrations
    rw [hset, List.filterMap_append, List.filterMap_cons_none rfl]
    congr 1
    · refine List.filterMap_congr fun o ho => ?_
      obtain ⟨j, hj, rfl⟩ := List.mem_iff_getElem.1 ho
      refine hother j _ (Nat.ne_of_lt (hlength ▸ hj)) ?_
      rw [hsplit, List.getElem?_append_left hj, List.getElem?_eq_getElem hj]
    · refine List.filterMap_congr fun o ho => ?_
      obtain ⟨j, hj, rfl⟩ := List.mem_iff_getElem.1 ho
      refine hother (front.length + (j + 1)) _ (by omega) ?_
      rw [hsplit, List.getElem?_append_right (Nat.le_add_right _ _), Nat.add_sub_cancel_left,
        List.getElem?_cons_succ, List.getElem?_eq_getElem hj]

theorem Paired.unregister (hpaired : Paired doc b) {i : Nat} {r : JsEvListener}
    (hr : b.evListeners[i]? = some (some r)) : Paired doc (b.unregister i r) := by
  have hlt : i < b.evListeners.length := (List.getElem?_eq_some_iff.1 hr).1
  refine ⟨fun j r' hr' => ?_, fun h l hl => ?_⟩
  · change (b.evListeners.set i none)[j]? = _ at hr'
    rcases eq_or_ne i j with rfl | hij
    · rw [List.getElem?_set_self hlt] at hr'
      cases Option.some.inj hr'
    · rw [List.getElem?_set_ne hij] at hr'
      obtain ⟨l, hl, hrest⟩ := hpaired.held j r' hr'
      refine ⟨l, Registry.holds_remove.2 ⟨fun heq => hij ?_, hl⟩, hrest⟩
      exact hpaired.slot_unique hr hr' heq.symm
  · obtain ⟨hne, hl⟩ := Registry.holds_remove.1 hl
    obtain ⟨j, r', hud, hr', hhandle⟩ := hpaired.owned h l hl
    refine ⟨j, r', hud, ?_, hhandle⟩
    show (b.evListeners.set i none)[j]? = _
    rw [List.getElem?_set_ne, hr']
    rintro rfl
    obtain rfl := Option.some.inj (Option.some.inj (hr.symm.trans hr'))
    exact hne hhandle.symm

/-! ## What callbacks do -/

theorem Paired.add (hpaired : Paired doc b) (c : ListenerCall) :
    Paired doc (jsAddEventListener doc b c) := by
  rcases jsAddEventListener_cases doc b c with ⟨-, h⟩ | ⟨n, i, -, hfree, h⟩
  · rw [h]
    exact hpaired
  · rw [h]
    exact hpaired.register hfree

theorem Paired.remove (hpaired : Paired doc b) (c : ListenerCall) :
    Paired doc (jsRemoveEventListener doc b c) := by
  unfold jsRemoveEventListener
  cases hfound : b.findRemoved doc c with
  | none => exact hpaired
  | some found => exact hpaired.unregister (findRemoved_some hfound).1

theorem Paired.perform (hpaired : Paired doc b) (a : ScriptAction) : Paired doc (a.perform doc b) := by
  cases a with
  | addEventListener c => exact hpaired.add c
  | removeEventListener c => exact hpaired.remove c
  | stopPropagation => exact hpaired
  | preventDefault => exact hpaired

theorem Paired.performAll (hpaired : Paired doc b) (acts : List ScriptAction) :
    Paired doc (acts.foldl (ScriptAction.perform doc) b) := by
  induction acts generalizing b with
  | nil => exact hpaired
  | cons a acts ih => exact ih (hpaired.perform a)

theorem Paired.after (hpaired : Paired doc b) (script : Script) (done rest : List TraceEvent) :
    Paired doc (b.after doc script done rest) := by
  induction rest generalizing b done with
  | nil => exact hpaired
  | cons e rest ih => exact ih (hpaired.performAll _) (done ++ [e])

/-! ## The tables in a dispatch -/

theorem actionsAt_unheard (script : Script) (trace : List TraceEvent) {e : TraceEvent}
    (he : e.isHeard = false) : script.actionsAt (trace ++ [e]) = [] := by
  unfold Script.actionsAt
  rw [List.getLast?_concat]
  cases e with
  | enter turn added => rfl
  | call c => cases he
  | inline turn node => cases he
  | remove l => rfl

theorem after_unheard (script : Script) (b : Bridge) (done : List TraceEvent)
    {rest : List TraceEvent} (hrest : Unheard rest) : b.after doc script done rest = b := by
  induction rest generalizing done with
  | nil => rfl
  | cons e rest ih =>
    have he : e.isHeard = false := hrest e List.mem_cons_self
    unfold Bridge.after
    rw [actionsAt_unheard script done he]
    exact ih (done ++ [e]) fun x hx => hrest x (List.mem_cons_of_mem _ hx)

theorem after_append (script : Script) (b : Bridge) (done xs ys : List TraceEvent) :
    b.after doc script done (xs ++ ys) =
      (b.after doc script done xs).after doc script (done ++ xs) ys := by
  induction xs generalizing b done with
  | nil =>
    rw [List.append_nil]
    rfl
  | cons e xs ih =>
    rw [List.cons_append, Bridge.after, Bridge.after, ih, List.append_assoc, List.singleton_append]

/-- What an action does to the bridge, it does to the native table of the dispatch. -/
theorem native_fold (doc : BridgeDocument) (ev : Event) (pass : Pass) (a : ScriptAction)
    (b : Bridge) (s : Firing) (hreg : s.reg = b.ev) :
    ((a.native doc b).foldl (Firing.act ev pass) s).reg = (a.perform doc b).ev ∧
      ∃ removed, Unheard removed ∧
        ((a.native doc b).foldl (Firing.act ev pass) s).trace = s.trace ++ removed := by
  cases a with
  | addEventListener c =>
    change (Firing.act ev pass s (.add (c.request doc b))).reg = (jsAddEventListener doc b c).ev ∧
      ∃ removed, Unheard removed ∧
        (Firing.act ev pass s (.add (c.request doc b))).trace = s.trace ++ removed
    unfold Firing.act jsAddEventListener
    dsimp only
    rw [hreg]
    rcases miniEventsAddListener b.ev (c.request doc b) with ⟨_ | h, ev'⟩
    · exact ⟨rfl, [], unheard_nil, (List.append_nil _).symm⟩
    · exact ⟨rfl, [], unheard_nil, (List.append_nil _).symm⟩
  | removeEventListener c =>
    change (((b.findRemoved doc c).toList.map fun found => Action.remove (some found.2.handle)).foldl
        (Firing.act ev pass) s).reg = (jsRemoveEventListener doc b c).ev ∧
      ∃ removed, Unheard removed ∧
        (((b.findRemoved doc c).toList.map fun found => Action.remove (some found.2.handle)).foldl
          (Firing.act ev pass) s).trace = s.trace ++ removed
    unfold jsRemoveEventListener
    cases b.findRemoved doc c with
    | none => exact ⟨hreg, [], unheard_nil, (List.append_nil _).symm⟩
    | some found =>
      refine ⟨congrArg (miniEventsRemoveListener · (some found.2.handle)) hreg, _, ?_, rfl⟩
      -- the slot that is logged, if it was active
      intro e he
      split at he
      · split at he
        · rw [List.mem_singleton.1 he]
          rfl
        · cases he
      · cases he
  | stopPropagation => exact ⟨hreg, [], unheard_nil, (List.append_nil _).symm⟩
  | preventDefault => exact ⟨hreg, [], unheard_nil, (List.append_nil _).symm⟩

theorem nativeActions_fold (doc : BridgeDocument) (ev : Event) (pass : Pass)
    (acts : List ScriptAction) (b : Bridge) (s : Firing) (hreg : s.reg = b.ev) :
    ((nativeActions doc b acts).foldl (Firing.act ev pass) s).reg =
        (acts.foldl (ScriptAction.perform doc) b).ev ∧
      ∃ removed, Unheard removed ∧
        ((nativeActions doc b acts).foldl (Firing.act ev pass) s).trace = s.trace ++ removed := by
  induction acts generalizing b s with
  | nil => exact ⟨hreg, [], unheard_nil, (List.append_nil _).symm⟩
  | cons a acts ih =>
    unfold nativeActions
    rw [List.foldl_append, List.foldl_cons]
    obtain ⟨hreg', removed, hremoved, htrace⟩ := native_fold doc ev pass a b s hreg
    obtain ⟨hfinal, removed', hremoved', htrace'⟩ := ih (a.perform doc b) _ hreg'
    refine ⟨hfinal, removed ++ removed', fun e he => ?_, ?_⟩
    · rcases List.mem_append.1 he with he | he
      · exact hremoved e he
      · exact hremoved' e he
    · rw [htrace', htrace, List.append_assoc]

/-- Along a dispatch its table is that of the bridge. -/
theorem keeps_tables (doc : BridgeDocument) (script : Script) (b : Bridge) (ev : Event) :
    (script.host doc b).Keeps ev fun s => s.reg = (b.after doc script [] s.trace).ev := by
  -- an event and what the script does in it
  have hheard : ∀ (s : Firing) (pass : Pass) (e : TraceEvent),
      s.reg = (b.after doc script [] s.trace).ev →
      let s' := (nativeActions doc (b.after doc script [] (s.trace ++ [e]).dropLast)
        (script.actionsAt (s.trace ++ [e]))).foldl (Firing.act ev pass)
          { s with trace := s.trace ++ [e] }
      s'.reg = (b.after doc script [] s'.trace).ev := by
    intro s pass e h
    obtain ⟨hreg, removed, hremoved, htrace⟩ := nativeActions_fold doc ev pass
      (script.actionsAt (s.trace ++ [e])) (b.after doc script [] s.trace)
      { s with trace := s.trace ++ [e] } h
    dsimp only
    rw [List.dropLast_concat, hreg, htrace, after_append, after_unheard _ _ _ hremoved, after_append]
    rfl
  refine ⟨fun s turn h => ?_, fun s pass c h => ?_, fun s pass turn node handler code hhandler h => ?_⟩
  · rw [after_append, after_unheard]
    · exact h
    · intro e he
      rw [List.mem_singleton.1 he]
      rfl
  · have hstep := hheard s pass (.call c) h
    unfold Script.actionsAt at hstep
    rw [List.getLast?_concat] at hstep
    exact hstep
  · have hstep := hheard s pass (.inline turn node) h
    unfold Script.actionsAt at hstep
    rw [List.getLast?_concat] at hstep
    obtain rfl := Option.some.inj hhandler
    exact hstep

/-- The table that a dispatch leaves is the one the bridge gets to. -/
theorem jsDispatchEvent_bridge (d : NodeHeap) (doc : BridgeDocument) (script : Script) (b : Bridge)
    (this : EventTarget) (e : ScriptEvent) :
    (jsDispatchEvent d doc script b this e).2 =
      b.after doc script [] (jsFiring d doc script b this e).trace := by
  have hreg : (jsFiring d doc script b this e).reg =
      (b.after doc script [] (jsFiring d doc script b this e).trace).ev := by
    unfold jsFiring
    cases listenerTarget doc this with
    | none => rfl
    | some n => exact fireAll_keeps (keeps_tables doc script b e.miniEvent.event) _ rfl
  unfold jsDispatchEvent
  dsimp only
  rw [hreg]

/-! ## Histories -/

/-- The calls of a script, a dispatch with the document as it stands. -/
inductive ScriptCall where
  | addEventListener (c : ListenerCall)
  | removeEventListener (c : ListenerCall)
  | dispatchEvent (d : NodeHeap) (this : EventTarget) (e : ScriptEvent) (script : Script)

def ScriptCall.exec (doc : BridgeDocument) (b : Bridge) : ScriptCall → Bridge
  | .addEventListener c => jsAddEventListener doc b c
  | .removeEventListener c => jsRemoveEventListener doc b c
  | .dispatchEvent d this e script => (jsDispatchEvent d doc script b this e).2

/-- The bridge behind a history. -/
def bridgeAfter (doc : BridgeDocument) (calls : List ScriptCall) : Bridge :=
  calls.foldl (ScriptCall.exec doc) Bridge.start

theorem Paired.exec (hpaired : Paired doc b) (call : ScriptCall) : Paired doc (call.exec doc b) := by
  cases call with
  | addEventListener c => exact hpaired.add c
  | removeEventListener c => exact hpaired.remove c
  | dispatchEvent d this e script =>
    show Paired doc (jsDispatchEvent d doc script b this e).2
    rw [jsDispatchEvent_bridge]
    exact hpaired.after script _ _

/-- The table and the records are in step behind every history, whatever its callbacks do. -/
theorem paired_history (doc : BridgeDocument) (calls : List ScriptCall) :
    Paired doc (bridgeAfter doc calls) := by
  refine List.foldlRecOn (motive := Paired doc) calls (ScriptCall.exec doc) (paired_start doc) ?_
  intro b hpaired call _
  exact hpaired.exec call

/-! ## What the calls should do -/

/-- One key more. -/
def KeyAdded (before after : Bridge) (k : ListenerKey) : Prop :=
  after.registrations.Nodup ∧
    ∀ k', k' ∈ after.registrations ↔ k' ∈ before.registrations ∨ k' = k

/-- One key less. -/
def KeyRemoved (before after : Bridge) (k : ListenerKey) : Prop :=
  after.registrations.Nodup ∧
    ∀ k', k' ∈ after.registrations ↔ k' ∈ before.registrations ∧ k' ≠ k

/-- What a callback does is right. -/
def ScriptAction.Right (doc : BridgeDocument) (b : Bridge) : ScriptAction → Prop
  | .addEventListener c => KeyAdded b (jsAddEventListener doc b c) c.key
  | .removeEventListener c => KeyRemoved b (jsRemoveEventListener doc b c) c.key
  | .stopPropagation => True
  | .preventDefault => True

/-- What is heard in the bubble phase: inline handlers have no phase of their own, but above the
target they run in no other one. -/
def TraceEvent.InBubblePhase (target : Option NodeId) : TraceEvent → Prop
  | .call c => c.phase = .bubble
  | .inline _ node => some node ≠ target
  | _ => False

/-- A dispatch is right. -/
structure RightDispatch (d : NodeHeap) (doc : BridgeDocument) (script : Script) (b : Bridge)
    (this : EventTarget) (e : ScriptEvent) : Prop where
  /-- All that is heard is given the event itself. -/
  handed : ∀ x ∈ (jsFiring d doc script b this e).trace, x.isHeard = true →
    e.miniEvent.handedOn = some e
  bubbled : ∀ x ∈ (jsFiring d doc script b this e).trace,
    x.InBubblePhase (listenerTarget doc this) → e.bubbles = true
  /-- What was registered once is gone when its callback has been called. -/
  once : ∀ ran c i r, ran ++ [.call c] <+: (jsFiring d doc script b this e).trace →
    c.listener.ud = some i →
    (b.after doc script [] (ran ++ [.call c])).evListeners[i]? = some (some r) → r.once = false
  /-- What its callbacks do is right where they do it. -/
  actions : ∀ ran x front a back, ran ++ [x] <+: (jsFiring d doc script b this e).trace →
    script.actionsAt (ran ++ [x]) = front ++ a :: back →
    a.Right doc (front.foldl (ScriptAction.perform doc) (b.after doc script [] ran))
  returned : (jsDispatchEvent d doc script b this e).1 = false ↔
    e.cancelable = true ∧ script.prevented (jsFiring d doc script b this e).trace = true

/-- A call is right. -/
def ScriptCall.Right (doc : BridgeDocument) (b : Bridge) : ScriptCall → Prop
  | .addEventListener c => KeyAdded b (jsAddEventListener doc b c) c.key
  | .removeEventListener c => KeyRemoved b (jsRemoveEventListener doc b c) c.key
  | .dispatchEvent d this e script => RightDispatch d doc script b this e

/-! ## Where they do it -/

/-- The addition has a slot, its key is new and is stored as it is meant; or it has none, and its
key is there already. -/
def SafeAdd (doc : BridgeDocument) (b : Bridge) (c : ListenerCall) : Prop :=
  if (listenerTarget doc c.this).isSome ∧ b.ev.freeSlot.isSome then
    c.storedKey = c.key ∧ c.key ∉ b.registrations
  else c.key ∈ b.registrations

/-- The record that is found, if any, has the key that is meant. -/
def SafeRemove (doc : BridgeDocument) (b : Bridge) (c : ListenerCall) : Prop :=
  ∀ found ∈ b.findRemoved doc c, b.keyOf found.2 = some c.key

/-- Nothing hears the event. -/
def SafeDispatch (d : NodeHeap) (doc : BridgeDocument) (script : Script) (b : Bridge)
    (this : EventTarget) (e : ScriptEvent) : Prop :=
  ∀ n ∈ listenerTarget doc this,
    QuietPath (script.host doc b) e.miniEvent.event b.ev (path d n)

def ScriptCall.Safe (doc : BridgeDocument) (b : Bridge) : ScriptCall → Prop
  | .addEventListener c => SafeAdd doc b c
  | .removeEventListener c => SafeRemove doc b c
  | .dispatchEvent d this e script => SafeDispatch d doc script b this e

theorem keyAdded_iff (hpaired : Paired doc b) (hdistinct : b.registrations.Nodup) :
    KeyAdded b (jsAddEventListener doc b c) c.key ↔ SafeAdd doc b c := by
  rcases jsAddEventListener_cases doc b c with ⟨hdropped, h⟩ | ⟨n, i, htarget, hfree, h⟩
  · have hno : ¬ ((listenerTarget doc c.this).isSome ∧ b.ev.freeSlot.isSome) := by
      intro hboth
      rcases hdropped with hnone | hnone
      · rw [hnone] at hboth
        cases hboth.1
      · rw [hnone] at hboth
        cases hboth.2
    unfold KeyAdded SafeAdd
    rw [h, if_neg hno]
    constructor
    · exact fun hadded => (hadded.2 c.key).2 (Or.inr rfl)
    · intro hmem
      refine ⟨hdistinct, fun k => ⟨Or.inl, ?_⟩⟩
      rintro (hk | rfl)
      · exact hk
      · exact hmem
  · have hyes : (listenerTarget doc c.this).isSome ∧ b.ev.freeSlot.isSome :=
      ⟨by rw [htarget]; rfl, by rw [hfree]; rfl⟩
    unfold KeyAdded SafeAdd
    rw [h, if_pos hyes, registrations_register hpaired hfree, List.nodup_append]
    constructor
    · rintro ⟨⟨-, -, hnew⟩, hmem⟩
      have hnot : c.storedKey ∉ b.registrations := fun hk =>
        hnew _ hk _ (List.mem_singleton_self _) rfl
      have hkey : c.storedKey = c.key :=
        ((hmem c.storedKey).1 (List.mem_append_right _ (List.mem_singleton_self _))).resolve_left hnot
      exact ⟨hkey, hkey ▸ hnot⟩
    · rintro ⟨hkey, hnew⟩
      rw [hkey]
      refine ⟨⟨hdistinct, List.nodup_singleton _, ?_⟩, fun k => ?_⟩
      · rintro k hk k' hk' rfl
        exact hnew (List.mem_singleton.1 hk' ▸ hk)
      · rw [List.mem_append, List.mem_singleton]

theorem keyRemoved_iff (hpaired : Paired doc b) (hdistinct : b.registrations.Nodup) :
    KeyRemoved b (jsRemoveEventListener doc b c) c.key ↔ SafeRemove doc b c := by
  unfold KeyRemoved SafeRemove jsRemoveEventListener
  cases hfound : b.findRemoved doc c with
  | none =>
    refine ⟨fun _ found h => absurd h (Option.not_mem_none _), fun _ => ⟨hdistinct, fun k => ?_⟩⟩
    refine ⟨fun hk => ⟨hk, ?_⟩, And.left⟩
    rintro rfl
    exact not_mem_registrations hpaired hfound hk
  | some found =>
    obtain ⟨i, r⟩ := found
    obtain ⟨front, k, back, hkey, hbefore, hafter⟩ :=
      registrations_unregister hpaired (findRemoved_some hfound).1
    change (b.unregister i r).registrations.Nodup ∧
      (∀ k', k' ∈ (b.unregister i r).registrations ↔ _) ↔ _
    rw [hafter, hbefore]
    rw [hbefore, List.nodup_middle, List.nodup_cons] at hdistinct
    obtain ⟨hnot, hrest⟩ := hdistinct
    constructor
    · rintro ⟨-, hmem⟩ found hsome
      obtain rfl := Option.some.inj hsome
      by_contra hne
      have hother : k ≠ c.key := fun heq => hne (hkey.trans (congrArg some heq))
      exact hnot ((hmem k).2 ⟨List.mem_append_right _ List.mem_cons_self, hother⟩)
    · intro hsafe
      obtain rfl : k = c.key := Option.some.inj (hkey.symm.trans (hsafe (i, r) rfl))
      refine ⟨hrest, fun k' => ⟨fun hk' => ⟨?_, ?_⟩, ?_⟩⟩
      · exact ((List.sublist_cons_self _ back).append_left front).subset hk'
      · rintro rfl
        exact hnot hk'
      · rintro ⟨hk', hne⟩
        rcases List.mem_append.1 hk' with hk' | hk'
        · exact List.mem_append_left _ hk'
        · exact List.mem_append_right _ ((List.mem_cons.1 hk').resolve_left hne)

/-! ## Dispatches -/

theorem steady_host (script : Script) (doc : BridgeDocument) (b : Bridge) :
    (script.host doc b).Steady := by
  refine ⟨rfl, fun trace hunheard => ?_⟩
  show script.attr (trace.filter TraceEvent.isHeard) = script.attr []
  rw [List.filter_eq_nil_iff.2 fun e he => ?_]
  rw [hunheard e he]
  exact Bool.false_ne_true

theorem unheard_iff (d : NodeHeap) (doc : BridgeDocument) (script : Script) (b : Bridge)
    (this : EventTarget) (e : ScriptEvent) :
    Unheard (jsFiring d doc script b this e).trace ↔ SafeDispatch d doc script b this e := by
  unfold SafeDispatch jsFiring
  cases listenerTarget doc this with
  | none =>
    exact ⟨fun _ n hn => absurd hn (Option.not_mem_none n), fun _ => unheard_nil⟩
  | some n =>
    have hdispatch : Unheard (miniEventDispatch d (script.host doc b) b.ev e.miniEvent.event n).trace ↔
        QuietPath (script.host doc b) e.miniEvent.event b.ev (path d n) :=
      dispatch_unheard_iff d (steady_host script doc b) rfl b.ev n
    refine hdispatch.trans ⟨fun hquiet n' hn' => ?_, fun hsafe => hsafe n rfl⟩
    obtain rfl := Option.some.inj hn'
    exact hquiet

theorem prevented_unheard (script : Script) {trace : List TraceEvent} (hunheard : Unheard trace) :
    script.prevented trace = false := by
  unfold Script.prevented
  rw [List.any_eq_false]
  intro ran hran
  have hbegins : ran <+: trace := (List.mem_inits ran trace).1 hran
  rcases List.eq_nil_or_concat ran with rfl | ⟨ran, x, rfl⟩
  · simp [Script.actionsAt]
  · rw [List.concat_eq_append] at hbegins ⊢
    have hx : x.isHeard = false :=
      hunheard x (hbegins.subset (List.mem_append_right _ (List.mem_singleton_self x)))
    rw [actionsAt_unheard script ran hx]
    simp

/-- A dispatch is right exactly if nothing hears the event. -/
theorem rightDispatch_iff (d : NodeHeap) (doc : BridgeDocument) (script : Script) (b : Bridge)
    (this : EventTarget) (e : ScriptEvent) :
    RightDispatch d doc script b this e ↔ SafeDispatch d doc script b this e := by
  rw [← unheard_iff]
  constructor
  · intro hright x hx
    by_contra hheard
    cases hright.handed x hx ((Bool.not_eq_false _).mp hheard)
  · intro hunheard
    have hlast : ∀ {ran x}, ran ++ [x] <+: (jsFiring d doc script b this e).trace →
        x.isHeard = false := fun {ran x} hbegins =>
      hunheard x (hbegins.subset (List.mem_append_right _ (List.mem_singleton_self x)))
    refine ⟨fun x hx hheard => ?_, fun x hx hbubble => ?_, fun ran c i r hbegins => ?_,
      fun ran x front a back hbegins hactions => ?_, ?_⟩
    · rw [hunheard x hx] at hheard
      cases hheard
    · have hsilent := hunheard x hx
      cases x with
      | enter turn added => cases hbubble
      | call c => cases hsilent
      | inline turn node => cases hsilent
      | remove l => cases hbubble
    · cases hlast hbegins
    · rw [actionsAt_unheard script ran (hlast hbegins)] at hactions
      exact absurd hactions.symm (List.append_ne_nil_of_right_ne_nil _ (List.cons_ne_nil _ _))
    · show (!script.prevented (jsFiring d doc script b this e).trace) = false ↔ _
      rw [prevented_unheard script hunheard]
      simp

theorem right_iff (hpaired : Paired doc b) (hdistinct : b.registrations.Nodup) (call : ScriptCall) :
    call.Right doc b ↔ call.Safe doc b := by
  cases call with
  | addEventListener c => exact keyAdded_iff hpaired hdistinct
  | removeEventListener c => exact keyRemoved_iff hpaired hdistinct
  | dispatchEvent d this e script => exact rightDispatch_iff d doc script b this e

theorem right_nodup (hdistinct : b.registrations.Nodup) {call : ScriptCall}
    (hright : call.Right doc b) : (call.exec doc b).registrations.Nodup := by
  cases call with
  | addEventListener c => exact hright.1
  | removeEventListener c => exact hright.1
  | dispatchEvent d this e script =>
    have hunheard := (unheard_iff d doc script b this e).2
      ((rightDispatch_iff d doc script b this e).1 hright)
    show (jsDispatchEvent d doc script b this e).2.registrations.Nodup
    rw [jsDispatchEvent_bridge, after_unheard script b [] hunheard]
    exact hdistinct

/-- The registrations are a set behind every history, and every call of it is right. -/
def ListenerLaw (doc : BridgeDocument) (calls : List ScriptCall) : Prop :=
  (∀ pre post, calls = pre ++ post → (bridgeAfter doc pre).registrations.Nodup) ∧
    ∀ pre call post, calls = pre ++ call :: post → call.Right doc (bridgeAfter doc pre)

/-- A history is lawful exactly if every call of it is safe. -/
theorem listenerLaw_iff (doc : BridgeDocument) (calls : List ScriptCall) :
    ListenerLaw doc calls ↔
      ∀ pre call post, calls = pre ++ call :: post → call.Safe doc (bridgeAfter doc pre) := by
  apply Histories.law_iff (fun b : Bridge => b.registrations.Nodup)
    (fun b (call : ScriptCall) => call.Right doc b) (fun b call => call.Safe doc b)
  · exact List.nodup_nil
  · intro pre call hdistinct
    have hcall := right_iff (paired_history doc pre) hdistinct call
    constructor
    · rintro ⟨-, hright⟩
      exact hcall.1 hright
    · intro hsafe
      have hright := hcall.2 hsafe
      exact ⟨right_nodup hdistinct hright, hright⟩

/-- A listener of the window, and a dispatch that it hears: it is given another object. -/
theorem other_event_given :
    let heap := (NodeHeap.empty.alloc {}).alloc { parent := some 0 }
    ¬ ListenerLaw ⟨some 0, some 1⟩
      [.addEventListener ⟨.window, ascii "load", 7, .absent⟩,
        .dispatchEvent heap .window ⟨ascii "load", false, false⟩
          ⟨fun _ _ => [], fun _ _ => [], fun _ _ _ => none⟩] := by
  intro heap hlaw
  have hright := hlaw.2 [_] _ [] rfl
  have hcall : ∃ x ∈ (jsFiring heap ⟨some 0, some 1⟩ ⟨fun _ _ => [], fun _ _ => [], fun _ _ _ => none⟩
      (jsAddEventListener ⟨some 0, some 1⟩ Bridge.start ⟨.window, ascii "load", 7, .absent⟩) .window
      ⟨ascii "load", false, false⟩).trace, x.isHeard = true := by
    decide
  obtain ⟨x, hx, hheard⟩ := hcall
  cases hright.handed x hx hheard

end TinyFramework.Events
