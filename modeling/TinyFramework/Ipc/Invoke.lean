/-
  Ipc/Invoke.lean --- invocations of the main context, from `ipcRenderer.invoke` to the promise.

  The text of a value is that of standard JSON, which is not modelled, and neither is what a handler
  does: it ends, at some time, with an outcome.  A step is one call from outside of the functions of
  the shim; a dispatch is a step for each message that it hands over, with what else is called
  meanwhile between them.  A promise is named by the number of its invocation.
-/
import TinyFramework.Ipc.Mailbox
import TinyFramework.Foundation.Histories

set_option autoImplicit false

namespace TinyFramework.Ipc

open TinyFramework.Foundation

abbrev JsString := List UInt16

def jsText (s : String) : JsString := s.toList.map fun c => UInt16.ofNat c.toNat

/-- What is thrown: its `message`, if it has one, and what `String` makes of it, unless that throws
too. -/
structure Thrown where
  message : Option JsString
  string : Option JsString
  deriving DecidableEq, Repr

/-- `new Error(msg)` -/
def newError (msg : JsString) : Thrown :=
  { message := some msg
    string := some (if msg = [] then jsText "Error" else jsText "Error: " ++ msg) }

/-- Values, and the functions of JSON; a value may have no text, and its text may throw. -/
structure Json (V : Type) where
  undefined : V
  emptyArray : V
  ofString : JsString → V
  asString : V → Option JsString
  stringify : V → Except Thrown (Option JsString)
  parse : JsString → Except Thrown V

/-! ## The shim -/

/-- `String(e&&e.message||e)` -/
def Thrown.text (e : Thrown) : Option JsString :=
  match e.message with
  | some m => if m = [] then e.string else some m
  | none => e.string

/-- How a handler ends. -/
inductive Outcome (V : Type) where
  | fulfilled (v : V)
  | threw (e : Thrown)

inductive Settlement (V : Type) where
  | fulfilled (v : V)
  | rejected (e : Thrown)

namespace Json

variable {V : Type} [DecidableEq V] (J : Json V)

/-- The response to an error; there is none if it has no text. -/
def refuse (e : Thrown) : Option (Bool × Option JsString) :=
  e.text.bind fun m =>
    match J.stringify (J.ofString m) with
    | .ok t => some (false, t)
    | .error _ => none

/-- The response of `__ipcDispatchInvokeMain`. -/
def answer : Outcome V → Option (Bool × Option JsString)
  | .fulfilled v =>
      if v = J.undefined then some (true, some (jsText "undefined"))
      else
        match J.stringify v with
        | .ok t => some (true, t)
        | .error e => J.refuse e
  | .threw e => J.refuse e

/-- `resultJson? JSON.parse(resultJson): absent` -/
def parseOr (result : Option JsString) (absent : V) : Except Thrown V :=
  match result with
  | none => .ok absent
  | some t => if t = [] then .ok absent else J.parse t

/-- What `__ipcResolveInvoke` does with the promise. -/
def resolve (ok : Bool) (result : Option JsString) : Settlement V :=
  if ok then
    match J.parseOr result J.undefined with
    | .ok v => .fulfilled v
    | .error e => .rejected e
  else
    match J.parseOr result (J.ofString (jsText "ipc error")) with
    | .error e => .rejected e
    | .ok v =>
        match J.asString v with
        | some msg => .rejected (newError msg)
        | none =>
            match J.stringify v with
            | .ok t => .rejected (newError (t.getD []))
            | .error e => .rejected e

end Json

/-- The renderer and the number of an invocation. -/
abbrev InvokeKey := Int × Int

structure HandlerCall where
  reqId : Int
  src : Int
  deriving DecidableEq

def HandlerCall.key (c : HandlerCall) : InvokeKey := (c.src, c.reqId)

structure Settled (V : Type) where
  promise : Nat
  key : InvokeKey
  settlement : Settlement V

/-- The mailbox, the handlers of the main context and their calls, and the promises that each
renderer waits for; and for the account, what was asked, under which channel handlers were looked
up, how they ended, and what was settled. -/
structure InvokeRun (V : Type) where
  ipc : MiniIPC JsString := {}
  mainHandlers : List JsString := []
  calls : List HandlerCall := []
  pendingInvokes : InvokeKey → Option Nat := fun _ => none
  asked : List (InvokeKey × JsString) := []
  served : List (Nat × JsString) := []
  outcomes : Nat → Option (Outcome V) := fun _ => none
  settled : List (Settled V) := []
  lost : Bool := false

/-- The first message for a context, taken off the queue. -/
def MiniIPC.takeFirst {T : Type} (ipc : MiniIPC T) (ctx : Int) : Option (IpcMsg T × MiniIPC T) :=
  (ipc.q.items.findIdx? fun m => m.dst = ctx).bind fun i =>
    ipc.q.items[i]?.map fun m => (m, { ipc with q := ipc.q.eraseIdx i })

inductive InvokeStep (V : Type) where
  | handle (channel : JsString)
  | removeHandler (channel : JsString)
  | send (granted : Bool) (src dst : Int) (channel : JsString) (args : Option JsString)
  | invoke (granted : Bool) (ctx : Int) (channel : JsString) (args : V)
  | deliver (granted : Bool) (ctx : Int)
  | finish (granted : Bool) (call : Nat) (o : Outcome V)

namespace InvokeRun

variable {V : Type} [DecidableEq V] (J : Json V) (carry : JsString → JsString)

/-- A message is posted; the texts in it are carried by C strings. -/
def post (s : InvokeRun V) (granted : Bool) (p : IpcPost JsString) : InvokeRun V :=
  { s with
    ipc := s.ipc.post granted p
    lost := s.lost || (s.ipc.q.push granted (p.message s.ipc.nextReqId)).isNone }

/-- `ipcRenderer.invoke`, which the main context does not have. -/
def ipcRendererInvoke (s : InvokeRun V) (granted : Bool) (ctx : Int) (channel : JsString)
    (args : V) : InvokeRun V :=
  if ctx = 0 then s
  else
    match J.stringify args with
    | .error _ => s
    | .ok text =>
        let rid := s.ipc.nextReqId
        let s' := s.post granted (.invoke ctx 0 (carry channel) (text.map carry))
        { s' with
          pendingInvokes := Function.update s.pendingInvokes (ctx, rid) (some s.asked.length)
          asked := s.asked ++ [((ctx, rid), channel)] }

/-- The handler for an invocation has ended, and the response to it is posted. -/
def handlerEnds (s : InvokeRun V) (granted : Bool) (key : InvokeKey) (o : Outcome V) :
    InvokeRun V :=
  let s' :=
    match J.answer o with
    | none => s
    | some (ok, result) => s.post granted (.response key.2 key.1 ok (result.map carry))
  match s.pendingInvokes key with
  | none => s'
  | some n => { s' with outcomes := Function.update s.outcomes n (some o) }

/-- `__ipcDispatchInvokeMain`, as far as the handler. -/
def ipcDispatchInvokeMain (s : InvokeRun V) (granted : Bool) (channel : JsString)
    (key : InvokeKey) (args : Option JsString) : InvokeRun V :=
  match J.parseOr args J.emptyArray with
  | .error _ => s
  | .ok _ =>
      let s' :=
        match s.pendingInvokes key with
        | none => s
        | some n => { s with served := s.served ++ [(n, channel)] }
      if channel ∈ s.mainHandlers then { s' with calls := s.calls ++ [⟨key.2, key.1⟩] }
      else
        s'.handlerEnds J carry granted key
          (.threw (newError (jsText "No handler registered for " ++ channel)))

/-- `__ipcResolveInvoke` -/
def ipcResolveInvoke (s : InvokeRun V) (key : InvokeKey) (ok : Bool)
    (result : Option JsString) : InvokeRun V :=
  match s.pendingInvokes key with
  | none => s
  | some n =>
      { s with
        pendingInvokes := Function.update s.pendingInvokes key none
        settled := s.settled ++ [⟨n, key, J.resolve ok result⟩] }

/-- A dispatch hands a message to its context. -/
def deliver (s : InvokeRun V) (granted : Bool) (ctx : Int) : InvokeRun V :=
  match s.ipc.takeFirst ctx with
  | none => s
  | some (m, ipc) =>
      let s := { s with ipc := ipc }
      match m.call ctx with
      | some (.dispatchInvokeMain channel reqId src args) =>
          s.ipcDispatchInvokeMain J carry granted (channel.getD []) (src, reqId) args
      | some (.resolveInvoke reqId ok result) => s.ipcResolveInvoke J (ctx, reqId) ok result
      | _ => s

def exec (s : InvokeRun V) : InvokeStep V → InvokeRun V
  | .handle channel => { s with mainHandlers := channel :: s.mainHandlers }
  | .removeHandler channel => { s with mainHandlers := s.mainHandlers.filter (· ≠ channel) }
  | .send granted src dst channel args => s.post granted (.send src dst (carry channel) args)
  | .invoke granted ctx channel args => s.ipcRendererInvoke J carry granted ctx channel args
  | .deliver granted ctx => s.deliver J carry granted ctx
  | .finish granted call o =>
      match s.calls[call]? with
      | none => s
      | some c => { s with calls := s.calls.eraseIdx call }.handlerEnds J carry granted c.key o

end InvokeRun

/-! ## The law -/

/-- What is documented of JSON, and of C strings that carry its texts. -/
structure Json.Standard {V : Type} (J : Json V) (carry : JsString → JsString) : Prop where
  string_text : ∀ s, ∃ t, J.stringify (J.ofString s) = .ok (some t) ∧ J.parse t = .ok (J.ofString s)
  asString_ofString : ∀ s, J.asString (J.ofString s) = some s
  text_ne_nil : ∀ v t, J.stringify v = .ok (some t) → t ≠ []
  text_parses : ∀ v t, J.stringify v = .ok (some t) → ∃ w, J.parse t = .ok w
  carry_text : ∀ v t, J.stringify v = .ok (some t) → carry t = t

/-- A value behind its text; one without a text is no more than undefined. -/
def Json.roundTrip {V : Type} (J : Json V) (v : V) : Except Thrown V :=
  match J.stringify v with
  | .error e => .error e
  | .ok none => .ok J.undefined
  | .ok (some t) => J.parse t

/-- The message of what was thrown. -/
def Thrown.claimed (e : Thrown) : Option JsString := e.message.or e.string

def Thrown.rejection {V : Type} (e : Thrown) : Option (Settlement V) :=
  e.claimed.map fun msg => .rejected (newError msg)

/-- How a promise is to be settled. -/
def Json.expected {V : Type} [DecidableEq V] (J : Json V) : Outcome V → Option (Settlement V)
  | .threw e => e.rejection
  | .fulfilled v =>
      if v = J.undefined then some (.fulfilled J.undefined)
      else
        match J.roundTrip v with
        | .ok w => some (.fulfilled w)
        | .error e => e.rejection

/-- It has a text, and its message is not empty. -/
def Thrown.Plain (e : Thrown) : Prop := e.message ≠ some [] ∧ e.text ≠ none

/-- The outcomes for which the promise is settled as it is to be. -/
def Json.Plain {V : Type} (J : Json V) : Outcome V → Prop
  | .threw e => e.Plain
  | .fulfilled v => v ≠ J.undefined ∧ ∀ e, J.stringify v = .error e → e.Plain

def IpcMsg.key {T : Type} (m : IpcMsg T) : Option InvokeKey :=
  match m.kind with
  | .send => none
  | .invoke => some (m.src, m.reqId)
  | .invokeResp => some (m.dst, m.reqId)

namespace InvokeRun

variable {V : Type} [DecidableEq V] (J : Json V) (carry : JsString → JsString)

/-- Promises are settled as the handlers ended, each at most once and by a response to its own
invocation; handlers are looked up under the channel that was asked for; and if no message was lost,
an invocation that is not settled is on its way: to its handler, or back with what that did. -/
structure Lawful (s : InvokeRun V) : Prop where
  as_handled : ∀ r ∈ s.settled,
    ∃ o, s.outcomes r.promise = some o ∧ J.expected o = some r.settlement
  by_key : ∀ r ∈ s.settled, ∃ channel, s.asked[r.promise]? = some (r.key, channel)
  once : (s.settled.map Settled.promise).Nodup
  own_handler : ∀ h ∈ s.served, ∃ key, s.asked[h.1]? = some (key, h.2)
  under_way : s.lost = false → ∀ n key channel, s.asked[n]? = some (key, channel) →
    n ∈ s.settled.map Settled.promise ∨
      (∃ m ∈ s.ipc.q.items, m.key = some key ∧ m.kind = .invoke ∧ m.dst = 0) ∨
      (∃ c ∈ s.calls, c.key = key) ∨
      ∃ m ∈ s.ipc.q.items, m.key = some key ∧ m.kind = .invokeResp ∧
        ∃ o, s.outcomes n = some o ∧ J.expected o = some (J.resolve m.ok m.result)

/-- The number that is drawn is not that of an invocation for which the renderer waits, and a C
string carries the channel; and the handler ends with a plain outcome. -/
def Safe (s : InvokeRun V) : InvokeStep V → Prop
  | .invoke _ ctx channel _ =>
      carry channel = channel ∧ s.pendingInvokes (ctx, s.ipc.nextReqId) = none
  | .finish _ _ o => J.Plain o
  | _ => True

end InvokeRun

/-! ## Responses -/

section Responses

variable {V : Type} {J : Json V} {carry : JsString → JsString}

theorem Json.Standard.resolve_refuse (hJ : J.Standard carry) {e : Thrown} (he : e.Plain) :
    ∃ r : Bool × Option JsString, J.refuse e = some r ∧
      e.rejection = some (J.resolve r.1 (r.2.map carry)) := by
  obtain ⟨hmessage, htext⟩ := he
  obtain ⟨msg, hmsg⟩ := Option.ne_none_iff_exists'.1 htext
  have hclaimed : e.claimed = some msg := by
    obtain ⟨message, string⟩ := e
    cases message with
    | none => exact hmsg
    | some m =>
      have hm : m ≠ [] := fun hnil => hmessage (congrArg some hnil)
      have hsame : some m = some msg := by
        simpa only [Thrown.text, if_neg hm] using hmsg
      exact hsame
  obtain ⟨t, ht, hparse⟩ := hJ.string_text msg
  refine ⟨(false, some t), by simp only [Json.refuse, hmsg, Option.bind_some, ht], ?_⟩
  simp only [Thrown.rejection, hclaimed, Option.map_some, hJ.carry_text _ _ ht, Json.resolve,
    Bool.false_eq_true, if_false, Json.parseOr, if_neg (hJ.text_ne_nil _ _ ht), hparse,
    hJ.asString_ofString]

theorem newError_plain {msg : JsString} (h : msg ≠ []) : (newError msg).Plain := by
  refine ⟨fun hnil => h (Option.some.inj hnil), ?_⟩
  simp only [Thrown.text, newError, if_neg h]
  exact Option.some_ne_none msg

variable [DecidableEq V]

/-- The response to a plain outcome settles the promise as it is to be. -/
theorem Json.Standard.resolve_answer (hJ : J.Standard carry) {o : Outcome V} (ho : J.Plain o) :
    ∃ r : Bool × Option JsString, J.answer o = some r ∧
      J.expected o = some (J.resolve r.1 (r.2.map carry)) := by
  cases o with
  | threw e => exact hJ.resolve_refuse ho
  | fulfilled v =>
    obtain ⟨hdefined, hplain⟩ := ho
    simp only [Json.answer, Json.expected, if_neg hdefined, Json.roundTrip]
    cases ht : J.stringify v with
    | error e => exact hJ.resolve_refuse (hplain e ht)
    | ok t =>
      refine ⟨(true, t), rfl, ?_⟩
      cases t with
      | none => rfl
      | some t =>
        obtain ⟨w, hw⟩ := hJ.text_parses v t ht
        simp only [hw, Option.map_some, hJ.carry_text v t ht, Json.resolve, if_true, Json.parseOr,
          if_neg (hJ.text_ne_nil v t ht)]

end Responses

end TinyFramework.Ipc
