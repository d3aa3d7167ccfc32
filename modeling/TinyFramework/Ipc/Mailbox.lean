/-
  Ipc/Mailbox.lean --- the queue of messages between the contexts, and `mini_ipc_dispatch`.

  The messages for all contexts are in one array.  A dispatch takes those for its context out, one
  after another, and calls a function of the context for each, which may post further messages; the
  texts of a message are not looked into.  A post that gets no memory loses its message.
-/
import Mathlib.Algebra.Group.Nat.Defs
import TinyFramework.Foundation.GrowingArray

set_option autoImplicit false

namespace TinyFramework.Ipc

open TinyFramework.Foundation

universe u v

variable {T : Type u} {W : Type v}

inductive IpcKind where
  | send
  | invoke
  | invokeResp
  deriving DecidableEq, Repr

structure IpcMsg (T : Type u) where
  src : Int
  dst : Int
  kind : IpcKind
  reqId : Int := 0
  ok : Bool := false
  channel : Option T := none
  args : Option T := none
  result : Option T := none
  deriving DecidableEq, Repr

structure MiniIPC (T : Type u) where
  q : GrowingArray (IpcMsg T) := .empty
  nextReqId : Int := 1

/-- The calls that post a message. -/
inductive IpcPost (T : Type u) where
  | send (src dst : Int) (channel : T) (args : Option T)
  | invoke (src dst : Int) (channel : T) (args : Option T)
  | response (reqId dst : Int) (ok : Bool) (result : Option T)

/-- The message of `mini_ipc_post_send`, `js_ipc_invoke` and `js_ipc_post_response`. -/
def IpcPost.message (nextReqId : Int) : IpcPost T → IpcMsg T
  | send src dst channel args =>
      { src := src, dst := dst, kind := .send, channel := some channel, args := args }
  | invoke src dst channel args =>
      { src := src, dst := dst, kind := .invoke, reqId := nextReqId, channel := some channel,
        args := args }
  | response reqId dst ok result =>
      { src := 0, dst := dst, kind := .invokeResp, reqId := reqId, ok := ok, result := result }

namespace MiniIPC

/-- `ipc_push` -/
def ipcPush (ipc : MiniIPC T) (granted : Bool) (m : IpcMsg T) : MiniIPC T :=
  match ipc.q.push granted m with
  | some q => { ipc with q := q }
  | none => ipc

/-- A call that posts a message; an invocation draws a number. -/
def post (ipc : MiniIPC T) (granted : Bool) (p : IpcPost T) : MiniIPC T :=
  let ipc' := ipc.ipcPush granted (p.message ipc.nextReqId)
  match p with
  | .invoke .. => { ipc' with nextReqId := (ipc.nextReqId + 1).bmod (2 ^ 32) }
  | _ => ipc'

end MiniIPC

/-- The functions of a context that are called for a message. -/
inductive IpcCall (T : Type u) where
  | dispatchSend (channel args : Option T) (src : Int)
  | dispatchInvokeMain (channel : Option T) (reqId src : Int) (args : Option T)
  | resolveInvoke (reqId : Int) (ok : Bool) (result : Option T)

/-- What is called in a context; only the main one answers an invocation. -/
def IpcMsg.call (m : IpcMsg T) (ctx : Int) : Option (IpcCall T) :=
  match m.kind with
  | .send => some (.dispatchSend m.channel m.args m.src)
  | .invoke =>
      if ctx = 0 then some (.dispatchInvokeMain m.channel m.reqId m.src m.args) else none
  | .invokeResp => some (.resolveInvoke m.reqId m.ok m.result)

/-- What the contexts do when one of them is called: the world behind them, and what they post.
They know the number that is drawn next. -/
abbrev IpcProgram (T : Type u) (W : Type v) := W → Int → Int → IpcCall T → W × List (IpcPost T)

/-- The mailbox with the contexts, and what was posted, lost, and handed to which context. -/
structure IpcRun (T : Type u) (W : Type v) where
  ipc : MiniIPC T := {}
  world : W
  posted : List (IpcMsg T) := []
  lost : List (IpcMsg T) := []
  handed : List (Int × IpcMsg T) := []

namespace IpcRun

variable (memory : Nat → Bool) (prog : IpcProgram T W)

def post (s : IpcRun T W) (p : IpcPost T) : IpcRun T W :=
  let m := p.message s.ipc.nextReqId
  let granted := memory s.posted.length
  { s with
    ipc := s.ipc.post granted p
    posted := s.posted ++ [m]
    lost := if (s.ipc.q.push granted m).isSome then s.lost else s.lost ++ [m] }

/-- A message is handed to a context. -/
def hand (s : IpcRun T W) (ctx : Int) (m : IpcMsg T) : IpcRun T W :=
  let s := { s with handed := s.handed ++ [(ctx, m)] }
  match m.call ctx with
  | none => s
  | some call =>
      let (world, posts) := prog s.world ctx s.ipc.nextReqId call
      posts.foldl (post memory) { s with world := world }

/-- The loop of `mini_ipc_dispatch` from the place `i` on, if it comes to an end. -/
def dispatchFrom (ctx : Int) : Nat → Nat → IpcRun T W → Option (IpcRun T W)
  | 0, _, _ => none
  | bound + 1, i, s =>
      match s.ipc.q.items[i]? with
      | none => some s
      | some m =>
          if m.dst ≠ ctx then dispatchFrom ctx bound (i + 1) s
          else
            let s := { s with ipc := { s.ipc with q := s.ipc.q.eraseIdx i } }
            dispatchFrom ctx bound i (s.hand memory prog ctx m)

/-- `mini_ipc_dispatch` -/
def miniIpcDispatch (bound : Nat) (ctx : Int) (s : IpcRun T W) : Option (IpcRun T W) :=
  s.dispatchFrom memory prog ctx bound 0

end IpcRun

/-- What the host does: it runs the contexts, which post messages, and dispatches. -/
inductive IpcStep (T : Type u) (W : Type v) where
  | run (world : W) (posts : List (IpcPost T))
  | dispatch (bound : Nat) (ctx : Int)

/-- The state behind a run, if its dispatches come to an end. -/
def IpcRun.exec (memory : Nat → Bool) (prog : IpcProgram T W) :
    List (IpcStep T W) → IpcRun T W → Option (IpcRun T W)
  | [], s => some s
  | .run world posts :: steps, s =>
      exec memory prog steps (posts.foldl (post memory) { s with world := world })
  | .dispatch bound ctx :: steps, s =>
      (s.miniIpcDispatch memory prog bound ctx).bind (exec memory prog steps)

/-! ## The law -/

/-- The messages for a context, and those for the others. -/
def toward (ctx : Int) (messages : List (IpcMsg T)) : List (IpcMsg T) :=
  messages.filter fun m => m.dst = ctx

def away (ctx : Int) (messages : List (IpcMsg T)) : List (IpcMsg T) :=
  messages.filter fun m => m.dst ≠ ctx

namespace IpcRun

def handedTo (s : IpcRun T W) (ctx : Int) : List (IpcMsg T) :=
  s.handed.filterMap fun h => if h.1 = ctx then some h.2 else none

/-- Messages are handed to their own contexts only; what was handed to a context, and after it what
is queued for it, was posted to it in this order, and it is all of it if nothing was lost. -/
structure Delivered (s : IpcRun T W) : Prop where
  own : ∀ h ∈ s.handed, h.2.dst = h.1
  in_order : ∀ ctx, (s.handedTo ctx ++ toward ctx s.ipc.q.items).Sublist (toward ctx s.posted)
  complete : s.lost = [] →
    ∀ ctx, s.handedTo ctx ++ toward ctx s.ipc.q.items = toward ctx s.posted

/-- Behind a dispatch, what was queued for the other contexts is queued as it was, and behind it
only what was posted to them meanwhile. -/
def Drained (ctx : Int) (s s' : IpcRun T W) : Prop :=
  ∃ since new, s'.posted = s.posted ++ since ∧ new.Sublist (away ctx since) ∧
    s'.ipc.q.items = away ctx s.ipc.q.items ++ new

end IpcRun

/-! ## What a step does -/

theorem MiniIPC.items_post (ipc : MiniIPC T) (granted : Bool) (p : IpcPost T) :
    (ipc.post granted p).q.items =
      ipc.q.items ++ if (ipc.q.push granted (p.message ipc.nextReqId)).isSome
        then [p.message ipc.nextReqId] else [] := by
  have hpush : (ipc.ipcPush granted (p.message ipc.nextReqId)).q.items =
      ipc.q.items ++ if (ipc.q.push granted (p.message ipc.nextReqId)).isSome
        then [p.message ipc.nextReqId] else [] := by
    unfold ipcPush
    cases hq : ipc.q.push granted (p.message ipc.nextReqId) with
    | none => exact (List.append_nil _).symm
    | some q => exact GrowingArray.items_of_push hq
  cases p <;> exact hpush

namespace IpcRun

variable {memory : Nat → Bool} {prog : IpcProgram T W} {s s' s₀ : IpcRun T W} {ctx : Int}

/-- A post puts its message behind the queue, or loses it. -/
theorem post_cases (memory : Nat → Bool) (s : IpcRun T W) (p : IpcPost T) :
    ∃ m new, (s.post memory p).posted = s.posted ++ [m] ∧
      (s.post memory p).ipc.q.items = s.ipc.q.items ++ new ∧
      (new = [m] ∧ (s.post memory p).lost = s.lost ∨
        new = [] ∧ (s.post memory p).lost = s.lost ++ [m]) := by
  refine ⟨p.message s.ipc.nextReqId, _, rfl, MiniIPC.items_post s.ipc _ p, ?_⟩
  cases hpush : (s.ipc.q.push (memory s.posted.length) (p.message s.ipc.nextReqId)).isSome with
  | true => exact Or.inl ⟨rfl, if_pos hpush⟩
  | false => exact Or.inr ⟨rfl, if_neg (by rw [hpush]; exact Bool.false_ne_true)⟩

/-- What each post keeps, a call that posts several keeps. -/
theorem foldl_post {P : IpcRun T W → Prop} (hpost : ∀ s p, P s → P (s.post memory p))
    (posts : List (IpcPost T)) (h : P s) : P (posts.foldl (post memory) s) := by
  induction posts generalizing s with
  | nil => exact h
  | cons p posts ih => exact ih (hpost s p h)

theorem Delivered.post (h : s.Delivered) (p : IpcPost T) : (s.post memory p).Delivered := by
  obtain ⟨m, new, hposted, hitems, hkept⟩ := post_cases memory s p
  have hnew : new.Sublist [m] := by
    rcases hkept with ⟨rfl, -⟩ | ⟨rfl, -⟩
    · exact List.Sublist.refl _
    · exact List.nil_sublist _
  refine ⟨h.own, fun ctx => ?_, fun hlost ctx => ?_⟩
  · have hsplit := (h.in_order ctx).append (hnew.filter fun m => m.dst = ctx)
    rw [hposted, hitems]
    simp only [toward, List.filter_append, List.append_assoc] at hsplit ⊢
    exact hsplit
  · rcases hkept with ⟨rfl, hsame⟩ | ⟨-, hmore⟩
    · have hall := h.complete (hsame ▸ hlost) ctx
      rw [hposted, hitems]
      simp only [toward, List.filter_append] at hall ⊢
      rw [← hall, List.append_assoc]
      rfl
    · rw [hmore] at hlost
      exact absurd hlost (List.append_ne_nil_of_right_ne_nil _ (List.cons_ne_nil m []))

/-- A context is handed the first of its messages. -/
def taken (s : IpcRun T W) (ctx : Int) (i : Nat) (m : IpcMsg T) : IpcRun T W :=
  { s with
    ipc := { s.ipc with q := s.ipc.q.eraseIdx i }
    handed := s.handed ++ [(ctx, m)] }

theorem items_split {i : Nat} {m : IpcMsg T} (hm : s.ipc.q.items[i]? = some m) :
    s.ipc.q.items = s.ipc.q.items.take i ++ m :: s.ipc.q.items.drop (i + 1) := by
  obtain ⟨hi, rfl⟩ := List.getElem?_eq_some_iff.1 hm
  rw [← List.drop_eq_getElem_cons hi, List.take_append_drop]

theorem items_taken (s : IpcRun T W) (ctx : Int) (i : Nat) (m : IpcMsg T) :
    (s.taken ctx i m).ipc.q.items = s.ipc.q.items.take i ++ s.ipc.q.items.drop (i + 1) :=
  List.eraseIdx_eq_take_drop_succ _ _

theorem toward_eq_nil {messages : List (IpcMsg T)} (h : ∀ m ∈ messages, m.dst ≠ ctx) :
    toward ctx messages = [] :=
  List.filter_eq_nil_iff.2 fun m hm hdst => h m hm (of_decide_eq_true hdst)

theorem away_eq_self {messages : List (IpcMsg T)} (h : ∀ m ∈ messages, m.dst ≠ ctx) :
    away ctx messages = messages :=
  List.filter_eq_self.2 fun m hm => decide_eq_true (h m hm)

theorem Delivered.taken (h : s.Delivered) {i : Nat} {m : IpcMsg T}
    (hm : s.ipc.q.items[i]? = some m) (hdst : m.dst = ctx)
    (hscanned : ∀ m ∈ s.ipc.q.items.take i, m.dst ≠ ctx) : (s.taken ctx i m).Delivered := by
  have hsame : ∀ other, (s.taken ctx i m).handedTo other ++
      toward other (s.taken ctx i m).ipc.q.items =
        s.handedTo other ++ toward other s.ipc.q.items := by
    intro other
    have hhanded : (s.taken ctx i m).handedTo other =
        s.handedTo other ++ if ctx = other then [m] else [] := by
      simp only [handedTo, IpcRun.taken, List.filterMap_append, List.append_cancel_left_eq]
      split_ifs with hother <;> simp [hother]
    rw [hhanded, items_taken]
    conv_rhs => rw [items_split hm]
    simp only [toward, List.filter_append, List.filter_cons, hdst, decide_eq_true_eq]
    split_ifs with hother
    · subst hother
      have hnone := toward_eq_nil hscanned
      rw [toward] at hnone
      rw [hnone, List.nil_append, List.nil_append, List.append_assoc]
      rfl
    · rw [List.append_nil]
  refine ⟨fun given hgiven => ?_, fun other => ?_, fun hlost other => ?_⟩
  · rcases List.mem_append.1 hgiven with hold | hnew
    · exact h.own given hold
    · rw [List.mem_singleton.1 hnew]
      exact hdst
  · rw [hsame]
    exact h.in_order other
  · rw [hsame]
    exact h.complete hlost other

/-! ## The loop -/

/-- In front of the place of the loop is nothing for the context. -/
structure Draining (ctx : Int) (s₀ : IpcRun T W) (i : Nat) (s : IpcRun T W) : Prop where
  scanned : ∀ m ∈ s.ipc.q.items.take i, m.dst ≠ ctx
  within : i ≤ s.ipc.q.items.length
  others : ∃ since new, s.posted = s₀.posted ++ since ∧ new.Sublist (away ctx since) ∧
    away ctx s.ipc.q.items = away ctx s₀.ipc.q.items ++ new

theorem Draining.post {i : Nat} (h : Draining ctx s₀ i s) (p : IpcPost T) :
    Draining ctx s₀ i (s.post memory p) := by
  obtain ⟨m, added, hposted, hitems, hkept⟩ := post_cases memory s p
  obtain ⟨since, new, hsince, hnew, haway⟩ := h.others
  have hadded : added.Sublist [m] := by
    rcases hkept with ⟨rfl, -⟩ | ⟨rfl, -⟩
    · exact List.Sublist.refl _
    · exact List.nil_sublist _
  refine ⟨?_, ?_, since ++ [m], new ++ away ctx added, ?_, ?_, ?_⟩
  · rw [hitems, List.take_append_of_le_length h.within]
    exact h.scanned
  · rw [hitems, List.length_append]
    exact Nat.le_add_right_of_le h.within
  · rw [hposted, hsince, List.append_assoc]
  · have hboth := hnew.append (hadded.filter fun m => m.dst ≠ ctx)
    simpa only [away, List.filter_append] using hboth
  · rw [hitems, ← List.append_assoc, ← haway]
    exact List.filter_append ..

theorem Draining.taken {i : Nat} (h : Draining ctx s₀ i s) {m : IpcMsg T}
    (hm : s.ipc.q.items[i]? = some m) (hdst : m.dst = ctx) :
    Draining ctx s₀ i (s.taken ctx i m) := by
  have hlength : (s.ipc.q.items.take i).length = i := List.length_take_of_le h.within
  refine ⟨?_, ?_, ?_⟩
  · rw [items_taken, List.take_left' hlength]
    exact h.scanned
  · rw [items_taken, List.length_append, hlength]
    exact Nat.le_add_right _ _
  · obtain ⟨since, new, hsince, hnew, haway⟩ := h.others
    refine ⟨since, new, hsince, hnew, haway ▸ ?_⟩
    conv_rhs => rw [items_split hm]
    simp only [items_taken, away, List.filter_append, List.filter_cons, hdst, ne_eq,
      not_true_eq_false, decide_false, Bool.false_eq_true, if_false]

theorem Draining.next {i : Nat} (h : Draining ctx s₀ i s) {m : IpcMsg T}
    (hm : s.ipc.q.items[i]? = some m) (hdst : m.dst ≠ ctx) : Draining ctx s₀ (i + 1) s := by
  obtain ⟨hi, rfl⟩ := List.getElem?_eq_some_iff.1 hm
  refine ⟨fun m hmem => ?_, hi, h.others⟩
  rw [List.take_succ_eq_append_getElem hi] at hmem
  rcases List.mem_append.1 hmem with hbefore | hhere
  · exact h.scanned m hbefore
  · exact List.mem_singleton.1 hhere ▸ hdst

/-- What a context does with a message keeps what posts keep. -/
theorem hand_keeps {P : IpcRun T W → Prop} (hpost : ∀ s p, P s → P (s.post memory p))
    (hworld : ∀ s world, P s → P { s with world := world }) {i : Nat} {m : IpcMsg T}
    (h : P (s.taken ctx i m)) :
    P ({ s with ipc := { s.ipc with q := s.ipc.q.eraseIdx i } }.hand memory prog ctx m) := by
  unfold hand
  dsimp only
  split
  · exact h
  · exact foldl_post hpost _ (hworld _ _ h)

theorem dispatchFrom_spec {bound i : Nat} (h : s.Delivered) (hdraining : Draining ctx s₀ i s)
    (hs : s.dispatchFrom memory prog ctx bound i = some s') :
    s'.Delivered ∧ ∃ i, Draining ctx s₀ i s' ∧ s'.ipc.q.items.length ≤ i := by
  induction bound generalizing i s with
  | zero => cases hs
  | succ bound ih =>
    rw [dispatchFrom] at hs
    cases hm : s.ipc.q.items[i]? with
    | none =>
      rw [hm] at hs
      cases hs
      exact ⟨h, i, hdraining, List.getElem?_eq_none_iff.1 hm⟩
    | some m =>
      rw [hm] at hs
      dsimp only at hs
      split_ifs at hs with hdst
      · exact ih h (hdraining.next hm hdst) hs
      · have hown : m.dst = ctx := not_not.1 hdst
        refine ih (hand_keeps (fun _ p h => h.post p)
          (fun _ _ h => ⟨h.own, h.in_order, h.complete⟩) (h.taken hm hown hdraining.scanned))
          (hand_keeps (fun _ p h => h.post p) (fun _ _ h => ⟨h.scanned, h.within, h.others⟩)
            (hdraining.taken hm hown)) hs

theorem Draining.start (ctx : Int) (s : IpcRun T W) : Draining ctx s 0 s :=
  ⟨fun _ h => absurd h List.not_mem_nil, Nat.zero_le _, [], [], (List.append_nil _).symm,
    List.nil_sublist _, (List.append_nil _).symm⟩

theorem Draining.drained {i : Nat} (h : Draining ctx s₀ i s) (hi : s.ipc.q.items.length ≤ i) :
    toward ctx s.ipc.q.items = [] ∧ Drained ctx s₀ s := by
  have hscanned := h.scanned
  rw [List.take_of_length_le hi] at hscanned
  obtain ⟨since, new, hsince, hnew, haway⟩ := h.others
  refine ⟨toward_eq_nil hscanned, since, new, hsince, hnew, ?_⟩
  rw [← haway, away_eq_self hscanned]

theorem Delivered.run {steps : List (IpcStep T W)} (h : s.Delivered)
    (hs : exec memory prog steps s = some s') : s'.Delivered := by
  induction steps generalizing s with
  | nil =>
    cases hs
    exact h
  | cons a steps ih =>
    cases a with
    | run world posts =>
      have hworld : Delivered { s with world := world } := ⟨h.own, h.in_order, h.complete⟩
      exact ih (foldl_post (fun _ p h => h.post p) posts hworld) hs
    | dispatch bound ctx =>
      obtain ⟨s₁, hdispatch, hrest⟩ := Option.bind_eq_some_iff.1 hs
      exact ih (dispatchFrom_spec h (.start ctx s) hdispatch).1 hrest

theorem Delivered.start (world : W) : Delivered (T := T) { world := world } :=
  ⟨fun _ h => absurd h List.not_mem_nil, fun _ => List.Sublist.refl _, fun _ _ => rfl⟩

end IpcRun

/-- In every run whose dispatches come to an end, messages are handed to their own contexts in the
order of the posting, each at most once; and behind a dispatch no message for its context is left,
and the others are as they were. -/
theorem ipc_delivery (memory : Nat → Bool) (prog : IpcProgram T W) (world : W)
    (steps : List (IpcStep T W)) (s : IpcRun T W)
    (hs : IpcRun.exec memory prog steps { world := world } = some s) :
    s.Delivered ∧ ∀ bound ctx s', s.miniIpcDispatch memory prog bound ctx = some s' →
      toward ctx s'.ipc.q.items = [] ∧ IpcRun.Drained ctx s s' := by
  have hdelivered := (IpcRun.Delivered.start world).run hs
  refine ⟨hdelivered, fun bound ctx s' hs' => ?_⟩
  obtain ⟨-, i, hdraining, hi⟩ := IpcRun.dispatchFrom_spec hdelivered (.start ctx s) hs'
  exact hdraining.drained hi

/-- The main context answers a message of one window by a message to it. -/
theorem ipc_delivery_reply :
    ∃ s : IpcRun Nat Unit, IpcRun.exec (fun _ => true)
        (fun _ ctx _ _ => ((), if ctx = 0 then [.send 0 1 7 none] else []))
        [.run () [.send 1 0 5 none, .send 2 1 6 none], .dispatch 9 0, .dispatch 9 1]
        { world := () } = some s ∧
      s.Delivered ∧ ∀ bound ctx s', s.miniIpcDispatch (fun _ => true)
          (fun _ ctx _ _ => ((), if ctx = 0 then [.send 0 1 7 none] else [])) bound ctx = some s' →
        toward ctx s'.ipc.q.items = [] ∧ IpcRun.Drained ctx s s' :=
  ⟨_, rfl, ipc_delivery (fun _ => true)
    (fun _ ctx _ _ => ((), if ctx = 0 then [.send 0 1 7 none] else [])) ()
    [.run () [.send 1 0 5 none, .send 2 1 6 none], .dispatch 9 0, .dispatch 9 1] _ rfl⟩

end TinyFramework.Ipc
