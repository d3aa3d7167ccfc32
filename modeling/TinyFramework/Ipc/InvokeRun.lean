/-
  Ipc/InvokeRun.lean --- what holds of the invocations throughout a run.

  An invocation that is not settled is in one place: its message in the queue, a call of its
  handler, or the response in the queue.  As long as no renderer draws a number for which it waits,
  the place is the only one with that number.
-/
import Mathlib.Data.List.Perm.Basic
import TinyFramework.Ipc.Invoke

set_option autoImplicit false

namespace TinyFramework.Ipc

open TinyFramework.Foundation

/-! ## The queue -/

section Queue

variable {T : Type} {ipc ipc' : MiniIPC T} {ctx : Int} {m : IpcMsg T}

theorem MiniIPC.takeFirst_cases (h : ipc.takeFirst ctx = some (m, ipc')) :
    ∃ l₁ l₂, ipc.q.items = l₁ ++ m :: l₂ ∧ ipc'.q.items = l₁ ++ l₂ ∧ m.dst = ctx := by
  obtain ⟨i, hi, hm⟩ := Option.bind_eq_some_iff.1 h
  obtain ⟨m', hm', hpair⟩ := Option.map_eq_some_iff.1 hm
  obtain ⟨rfl, rfl⟩ := Prod.mk.inj hpair
  obtain ⟨hlt, rfl⟩ := List.getElem?_eq_some_iff.1 hm'
  obtain ⟨_, hdst, -⟩ := List.findIdx?_eq_some_iff_getElem.1 hi
  refine ⟨ipc.q.items.take i, ipc.q.items.drop (i + 1), ?_, ?_, of_decide_eq_true hdst⟩
  · rw [← List.drop_eq_getElem_cons hlt, List.take_append_drop]
  · exact List.eraseIdx_eq_take_drop_succ _ _

end Queue

namespace InvokeRun

variable {V : Type} [DecidableEq V] {J : Json V} {carry : JsString → JsString} {s : InvokeRun V}

/-! ## Where an invocation is -/

/-- How many messages and calls an invocation has. -/
def uses (s : InvokeRun V) (key : InvokeKey) : Nat :=
  (s.ipc.q.items.filterMap IpcMsg.key).count key + (s.calls.map HandlerCall.key).count key

/-- A message of the queue is right: an invocation goes to the main context and has not been
answered; a response settles its promise as it is to be. -/
def MessageOk (J : Json V) (s : InvokeRun V) (m : IpcMsg JsString) : Prop :=
  match m.kind with
  | .send => True
  | .invoke =>
      m.dst = 0 ∧ (∃ w, J.parseOr m.args J.emptyArray = .ok w) ∧
        ∀ n, s.pendingInvokes (m.src, m.reqId) = some n →
          s.outcomes n = none ∧ ∃ key, s.asked[n]? = some (key, m.channel.getD [])
  | .invokeResp =>
      ∀ n, s.pendingInvokes (m.dst, m.reqId) = some n →
        ∃ o, s.outcomes n = some o ∧ J.expected o = some (J.resolve m.ok m.result)

/-- A message stays right where what is pending under its key was so before, with the same outcome. -/
theorem MessageOk.transfer {s' : InvokeRun V} {m : IpcMsg JsString} (h : s.MessageOk J m)
    (hpending : ∀ key n, m.key = some key → s'.pendingInvokes key = some n →
      s.pendingInvokes key = some n ∧ s'.outcomes n = s.outcomes n)
    (hasked : ∀ (n : Nat) x, s.asked[n]? = some x → s'.asked[n]? = some x) : s'.MessageOk J m := by
  unfold MessageOk at h ⊢
  cases hk : m.kind with
  | send => trivial
  | invoke =>
    rw [hk] at h
    refine ⟨h.1, h.2.1, fun n hn => ?_⟩
    obtain ⟨hbefore, hsame⟩ := hpending _ n (by rw [IpcMsg.key, hk]) hn
    obtain ⟨hnot, key, hkey⟩ := h.2.2 n hbefore
    exact ⟨hsame.trans hnot, key, hasked _ _ hkey⟩
  | invokeResp =>
    rw [hk] at h
    intro n hn
    obtain ⟨hbefore, hsame⟩ := hpending _ n (by rw [IpcMsg.key, hk]) hn
    rw [hsame]
    exact h n hbefore

omit [DecidableEq V] in
theorem uses_pos_of_message {m : IpcMsg JsString} (hm : m ∈ s.ipc.q.items) {key : InvokeKey}
    (hkey : m.key = some key) : 0 < s.uses key :=
  Nat.add_pos_left (List.count_pos_iff.2 (List.mem_filterMap.2 ⟨m, hm, hkey⟩)) _

omit [DecidableEq V] in
theorem uses_pos_of_call {c : HandlerCall} (hc : c ∈ s.calls) : 0 < s.uses c.key :=
  Nat.add_pos_right _ (List.count_pos_iff.2 (List.mem_map_of_mem hc))

structure Inv (J : Json V) (s : InvokeRun V) : Prop where
  single : ∀ key, s.uses key ≤ 1
  live : ∀ key, 0 < s.uses key → s.pendingInvokes key ≠ none
  known : ∀ key n, s.pendingInvokes key = some n → ∃ channel, s.asked[n]? = some (key, channel)
  unsettled : ∀ key n, s.pendingInvokes key = some n → n ∉ s.settled.map Settled.promise
  accounted : ∀ n key channel, s.asked[n]? = some (key, channel) →
    s.pendingInvokes key = some n ∨ n ∈ s.settled.map Settled.promise
  placed : s.lost = false → ∀ key, s.pendingInvokes key ≠ none → 0 < s.uses key
  unasked : ∀ n, s.asked.length ≤ n → s.outcomes n = none
  messages : ∀ m ∈ s.ipc.q.items, s.MessageOk J m
  runs : ∀ c ∈ s.calls, ∀ n, s.pendingInvokes c.key = some n → s.outcomes n = none
  as_handled : ∀ r ∈ s.settled,
    ∃ o, s.outcomes r.promise = some o ∧ J.expected o = some r.settlement
  by_key : ∀ r ∈ s.settled, ∃ channel, s.asked[r.promise]? = some (r.key, channel)
  once : (s.settled.map Settled.promise).Nodup
  own_handler : ∀ h ∈ s.served, ∃ key, s.asked[h.1]? = some (key, h.2)

namespace Inv

theorem start : Inv J {} where
  single _ := Nat.zero_le _
  live _ h := absurd h (Nat.lt_irrefl 0)
  known _ _ h := by cases h
  unsettled _ _ h := by cases h
  accounted _ _ _ h := by cases h
  placed _ _ h := absurd rfl h
  unasked _ _ := rfl
  messages _ h := absurd h List.not_mem_nil
  runs _ h := absurd h List.not_mem_nil
  as_handled _ h := absurd h List.not_mem_nil
  by_key _ h := absurd h List.not_mem_nil
  once := List.nodup_nil
  own_handler _ h := absurd h List.not_mem_nil

theorem lawful (h : s.Inv J) : s.Lawful J where
  as_handled := h.as_handled
  by_key := h.by_key
  once := h.once
  own_handler := h.own_handler
  under_way := by
    intro hlost n key channel hn
    rcases h.accounted n key channel hn with hpending | hsettled
    · refine Or.inr ?_
      have huse := h.placed hlost key (by rw [hpending]; exact Option.some_ne_none n)
      rcases Nat.eq_zero_or_pos ((s.ipc.q.items.filterMap IpcMsg.key).count key) with hnone | hsome
      · have hcall : 0 < (s.calls.map HandlerCall.key).count key := by
          rw [uses, hnone, Nat.zero_add] at huse
          exact huse
        obtain ⟨c, hc, hkey⟩ := List.mem_map.1 (List.count_pos_iff.1 hcall)
        exact Or.inr (Or.inl ⟨c, hc, hkey⟩)
      · obtain ⟨m, hm, hkey⟩ := List.mem_filterMap.1 (List.count_pos_iff.1 hsome)
        have hok := h.messages m hm
        unfold MessageOk at hok
        cases hkind : m.kind with
        | send => simp [IpcMsg.key, hkind] at hkey
        | invoke =>
          rw [hkind] at hok
          exact Or.inl ⟨m, hm, hkey, hkind, hok.1⟩
        | invokeResp =>
          rw [hkind] at hok
          have hsame : (m.dst, m.reqId) = key := by
            simpa only [IpcMsg.key, hkind, Option.some.injEq] using hkey
          exact Or.inr (Or.inr ⟨m, hm, hkey, hkind, hok n (hsame ▸ hpending)⟩)
    · exact Or.inl hsettled

/-- A promise is that of one invocation. -/
theorem key_unique (h : s.Inv J) {key key' : InvokeKey} {n : Nat}
    (hkey : s.pendingInvokes key = some n) (hkey' : s.pendingInvokes key' = some n) :
    key = key' := by
  obtain ⟨channel, hn⟩ := h.known key n hkey
  obtain ⟨channel', hn'⟩ := h.known key' n hkey'
  exact congrArg Prod.fst (Option.some.inj (hn.symm.trans hn'))

theorem pending_lt (h : s.Inv J) {key : InvokeKey} {n : Nat}
    (hkey : s.pendingInvokes key = some n) : n < s.asked.length := by
  obtain ⟨channel, hn⟩ := h.known key n hkey
  exact (List.getElem?_eq_some_iff.1 hn).1

/-- Only which calls there are matters, not their order. -/
theorem perm (h : s.Inv J) {calls : List HandlerCall} (hperm : s.calls.Perm calls) :
    Inv J { s with calls := calls } := by
  have huses : ∀ key, uses { s with calls := calls } key = s.uses key := fun key => by
    simp only [uses, ((hperm.map HandlerCall.key).count_eq key)]
  exact
    { h with
      single := fun key => huses key ▸ h.single key
      live := fun key hkey => h.live key (huses key ▸ hkey)
      placed := fun hlost key hkey => huses key ▸ h.placed hlost key hkey
      messages := h.messages
      runs := fun c hc => h.runs c (hperm.mem_iff.2 hc) }

/-! ## Messages come and go -/

/-- What is left in the queue was there. -/
theorem messages_left (h : s.Inv J) {l₁ l₂ : List (IpcMsg JsString)} {m : IpcMsg JsString}
    (hitems : s.ipc.q.items = l₁ ++ m :: l₂) : ∀ m' ∈ l₁ ++ l₂, s.MessageOk J m' :=
  fun m' hm' => h.messages m' (hitems ▸ ((List.sublist_cons_self m l₂).append_left l₁).subset hm')

/-- The message of an invocation is taken out of the queue, and its handler is called. -/
theorem take_invoke (h : s.Inv J) {l₁ l₂ : List (IpcMsg JsString)} {m : IpcMsg JsString}
    {ipc : MiniIPC JsString} (hitems : s.ipc.q.items = l₁ ++ m :: l₂)
    (hipc : ipc.q.items = l₁ ++ l₂) (hkind : m.kind = .invoke) :
    Inv J { s with ipc := ipc, calls := ⟨m.reqId, m.src⟩ :: s.calls } := by
  have hmem : m ∈ s.ipc.q.items := hitems ▸ List.mem_append_right _ (List.mem_cons_self ..)
  have hok := h.messages m hmem
  have huses : ∀ key, uses { s with ipc := ipc, calls := ⟨m.reqId, m.src⟩ :: s.calls } key =
      s.uses key := by
    intro key
    simp only [uses, hitems, hipc, List.filterMap_append, List.filterMap_cons, IpcMsg.key, hkind,
      List.count_append, List.count_cons, List.map_cons, HandlerCall.key]
    omega
  rw [MessageOk, hkind] at hok
  exact
    { h with
      single := fun key => huses key ▸ h.single key
      live := fun key hkey => h.live key (huses key ▸ hkey)
      placed := fun hlost key hkey => huses key ▸ h.placed hlost key hkey
      messages := fun m' hm' => h.messages_left hitems m' (hipc ▸ hm')
      runs := fun c hc n hn => by
        rcases List.mem_cons.1 hc with rfl | hc
        · exact (hok.2.2 n hn).1
        · exact h.runs c hc n hn }

theorem take_send (h : s.Inv J) {l₁ l₂ : List (IpcMsg JsString)} {m : IpcMsg JsString}
    {ipc : MiniIPC JsString} (hitems : s.ipc.q.items = l₁ ++ m :: l₂)
    (hipc : ipc.q.items = l₁ ++ l₂) (hkind : m.kind = .send) : Inv J { s with ipc := ipc } := by
  have huses : ∀ key, uses { s with ipc := ipc } key = s.uses key := by
    intro key
    have hkey : m.key = none := by rw [IpcMsg.key, hkind]
    simp only [uses, hitems, hipc, List.filterMap_append, List.filterMap_cons, hkey]
  exact
    { h with
      single := fun key => huses key ▸ h.single key
      live := fun key hkey => h.live key (huses key ▸ hkey)
      placed := fun hlost key hkey => huses key ▸ h.placed hlost key hkey
      messages := fun m' hm' => h.messages_left hitems m' (hipc ▸ hm') }

/-- A response is taken out of the queue, and settles its promise. -/
theorem take_response (h : s.Inv J) {l₁ l₂ : List (IpcMsg JsString)} {m : IpcMsg JsString}
    {ipc : MiniIPC JsString} (hitems : s.ipc.q.items = l₁ ++ m :: l₂)
    (hipc : ipc.q.items = l₁ ++ l₂) (hkind : m.kind = .invokeResp) :
    Inv J (ipcResolveInvoke J { s with ipc := ipc } (m.dst, m.reqId) m.ok m.result) := by
  have hmem : m ∈ s.ipc.q.items := hitems ▸ List.mem_append_right _ (List.mem_cons_self ..)
  have hkey : m.key = some (m.dst, m.reqId) := by rw [IpcMsg.key, hkind]
  have huses : ∀ key, s.uses key =
      uses { s with ipc := ipc } key + if (m.dst, m.reqId) = key then 1 else 0 := by
    intro key
    simp only [uses, hitems, hipc, List.filterMap_append, List.filterMap_cons, hkey,
      List.count_append, List.count_cons, beq_iff_eq]
    omega
  obtain ⟨n, hn⟩ := Option.ne_none_iff_exists'.1 (h.live (m.dst, m.reqId) (by
    rw [huses, if_pos rfl]
    exact Nat.succ_pos _))
  have hok := h.messages m hmem
  rw [MessageOk, hkind] at hok
  have hafter : uses { s with ipc := ipc } (m.dst, m.reqId) = 0 := by
    have hone := h.single (m.dst, m.reqId)
    rw [huses, if_pos rfl] at hone
    omega
  -- what is pending afterwards was, and is not the invocation of the response
  have hpending : ∀ {key n'},
      Function.update s.pendingInvokes (m.dst, m.reqId) none key = some n' →
        key ≠ (m.dst, m.reqId) ∧ s.pendingInvokes key = some n' := by
    intro key n' hsome
    by_cases hsame : key = (m.dst, m.reqId)
    · rw [hsame, Function.update_self] at hsome
      cases hsome
    · rw [Function.update_of_ne hsame] at hsome
      exact ⟨hsame, hsome⟩
  have hnew : ∀ {key n'}, key ≠ (m.dst, m.reqId) → s.pendingInvokes key = some n' → n' ≠ n := by
    rintro key n' hne hsome rfl
    exact hne (h.key_unique hsome hn)
  simp only [ipcResolveInvoke, hn]
  refine ⟨fun key => ?_, fun key hpos => ?_, fun key n' hsome => h.known key n' (hpending hsome).2,
    fun key n' hsome hmem => ?_, fun n' key channel hasked => ?_, fun hlost key hsome => ?_,
    h.unasked, fun m' hm' => ?_, fun c hc n' hsome => h.runs c hc n' (hpending hsome).2,
    fun r hr => ?_, fun r hr => ?_, ?_, h.own_handler⟩
  · have hone := h.single key
    rw [huses] at hone
    exact Nat.le_trans (Nat.le_add_right _ _) hone
  · by_cases hsame : key = (m.dst, m.reqId)
    · subst hsame
      exact absurd hafter (Nat.ne_of_gt hpos)
    · show Function.update s.pendingInvokes (m.dst, m.reqId) none key ≠ none
      rw [Function.update_of_ne hsame]
      refine h.live key ?_
      rw [huses]
      exact Nat.lt_of_lt_of_le hpos (Nat.le_add_right _ _)
  · rw [List.map_append] at hmem
    rcases List.mem_append.1 hmem with hold | hthis
    · exact h.unsettled key n' (hpending hsome).2 hold
    · exact hnew (hpending hsome).1 (hpending hsome).2 (List.mem_singleton.1 hthis)
  · rw [List.map_append]
    rcases h.accounted n' key channel hasked with hsome | hold
    · by_cases hsame : key = (m.dst, m.reqId)
      · rw [hsame, hn] at hsome
        exact Or.inr (List.mem_append_right _ (List.mem_singleton.2 (Option.some.inj hsome).symm))
      · exact Or.inl ((Function.update_of_ne hsame _ _).trans hsome)
    · exact Or.inr (List.mem_append_left _ hold)
  · obtain ⟨n', hsome⟩ := Option.ne_none_iff_exists'.1 hsome
    have hplaced := h.placed hlost key (by rw [(hpending hsome).2]; exact Option.some_ne_none n')
    rw [huses, if_neg (Ne.symm (hpending hsome).1)] at hplaced
    exact hplaced
  · exact MessageOk.transfer (h.messages_left hitems m' (hipc ▸ hm'))
      (fun _ _ _ hsome => ⟨(hpending hsome).2, rfl⟩) fun _ _ => id
  · rcases List.mem_append.1 hr with hold | hthis
    · exact h.as_handled r hold
    · rw [List.mem_singleton.1 hthis]
      exact hok n hn
  · rcases List.mem_append.1 hr with hold | hthis
    · exact h.by_key r hold
    · rw [List.mem_singleton.1 hthis]
      exact h.known _ n hn
  · rw [List.map_append]
    refine List.nodup_append.2 ⟨h.once, List.pairwise_singleton _ n, fun n' hold b hthis hsame => ?_⟩
    rw [hsame, List.mem_singleton.1 hthis] at hold
    exact h.unsettled _ n hn hold

/-- The message of a call is put into the queue, or lost; the outcome of its promise may be told. -/
theorem put {c : HandlerCall} (h : Inv J { s with calls := c :: s.calls })
    {m : IpcMsg JsString} (hkey : m.key = some c.key) {ipc : MiniIPC JsString} {lost : Bool}
    {outcomes : Nat → Option (Outcome V)}
    (hcases : ipc.q.items = s.ipc.q.items ++ [m] ∧ lost = s.lost ∨
      ipc.q.items = s.ipc.q.items ∧ lost = true)
    (htold : ∀ n, s.pendingInvokes c.key ≠ some n → outcomes n = s.outcomes n)
    (hok : MessageOk J { s with outcomes := outcomes } m) :
    Inv J { s with ipc := ipc, lost := lost, outcomes := outcomes } := by
  have huses : ∀ key, uses { s with calls := c :: s.calls } key =
      s.uses key + if c.key = key then 1 else 0 := by
    intro key
    simp only [uses, List.map_cons, List.count_cons, beq_iff_eq]
    omega
  have hle : ∀ key, uses { s with ipc := ipc, lost := lost, outcomes := outcomes } key ≤
      uses { s with calls := c :: s.calls } key := by
    intro key
    rw [huses]
    rcases hcases with ⟨hitems, -⟩ | ⟨hitems, -⟩ <;>
      simp only [uses, hitems, List.filterMap_append, List.filterMap_cons, hkey,
        List.filterMap_nil, List.count_append, List.count_singleton, beq_iff_eq]
    · omega
    · exact Nat.le_add_right _ _
  have hnone : s.uses c.key = 0 := by
    have hone := h.single c.key
    rw [huses, if_pos rfl] at hone
    omega
  -- another invocation with a message or a call has another promise
  have hother : ∀ {key n}, 0 < s.uses key → s.pendingInvokes key = some n →
      outcomes n = s.outcomes n := by
    intro key n hpos hn
    refine htold n fun hc => ?_
    rw [h.key_unique hn hc, hnone] at hpos
    exact absurd hpos (Nat.lt_irrefl 0)
  have hkeep : ∀ m' ∈ s.ipc.q.items, MessageOk J { s with outcomes := outcomes } m' := by
    intro m' hm'
    exact MessageOk.transfer (h.messages m' hm')
      (fun key n hkey hn => ⟨hn, hother (uses_pos_of_message hm' hkey) hn⟩) fun _ _ => id
  refine ⟨fun key => Nat.le_trans (hle key) (h.single key),
    fun key hpos => h.live key (Nat.lt_of_lt_of_le hpos (hle key)), h.known, h.unsettled,
    h.accounted, fun hlost key hsome => ?_, fun n hn => ?_, fun m' hm' => ?_, fun c' hc n hn => ?_,
    fun r hr => ?_, h.by_key, h.once, h.own_handler⟩
  · rcases hcases with ⟨hitems, hsame⟩ | ⟨-, htrue⟩
    · have hplaced := h.placed (hsame ▸ hlost) key hsome
      rw [huses] at hplaced
      simp only [uses, hitems, List.filterMap_append, List.filterMap_cons, hkey, List.filterMap_nil,
        List.count_append, List.count_singleton, beq_iff_eq] at hplaced ⊢
      omega
    · rw [show lost = false from hlost] at htrue
      cases htrue
  · have hfar : s.pendingInvokes c.key ≠ some n := fun hc =>
      Nat.lt_irrefl _ (Nat.lt_of_lt_of_le (h.pending_lt hc) hn)
    exact (htold n hfar).trans (h.unasked n hn)
  · rcases hcases with ⟨hitems, -⟩ | ⟨hitems, -⟩
    · rw [hitems] at hm'
      rcases List.mem_append.1 hm' with hold | hthis
      · exact hkeep m' hold
      · rw [List.mem_singleton.1 hthis]
        exact hok
    · rw [hitems] at hm'
      exact hkeep m' hm'
  · exact (hother (uses_pos_of_call hc) hn).trans (h.runs c' (List.mem_cons_of_mem _ hc) n hn)
  · obtain ⟨o, ho, hexpected⟩ := h.as_handled r hr
    refine ⟨o, (htold r.promise fun hc => ?_).trans ho, hexpected⟩
    exact h.unsettled c.key r.promise hc (List.mem_map_of_mem hr)

theorem put_send (h : s.Inv J) {m : IpcMsg JsString} (hkind : m.kind = .send)
    {ipc : MiniIPC JsString} {lost : Bool}
    (hcases : ipc.q.items = s.ipc.q.items ++ [m] ∧ lost = s.lost ∨
      ipc.q.items = s.ipc.q.items ∧ lost = true) : Inv J { s with ipc := ipc, lost := lost } := by
  have hkey : m.key = none := by rw [IpcMsg.key, hkind]
  have huses : ∀ key, uses { s with ipc := ipc, lost := lost } key = s.uses key := by
    intro key
    rcases hcases with ⟨hitems, -⟩ | ⟨hitems, -⟩ <;>
      simp only [uses, hitems, List.filterMap_append, List.filterMap_cons, hkey,
        List.filterMap_nil, List.append_nil]
  exact
    { h with
      single := fun key => huses key ▸ h.single key
      live := fun key hpos => h.live key (huses key ▸ hpos)
      placed := fun hlost key hsome => by
        rcases hcases with ⟨-, hsame⟩ | ⟨-, htrue⟩
        · exact huses key ▸ h.placed (hsame ▸ hlost) key hsome
        · rw [show lost = false from hlost] at htrue
          cases htrue
      messages := fun m' hm' => by
        rcases hcases with ⟨hitems, -⟩ | ⟨hitems, -⟩ <;> rw [hitems] at hm'
        · rcases List.mem_append.1 hm' with hold | hthis
          · exact h.messages m' hold
          · rw [List.mem_singleton.1 hthis, MessageOk, hkind]
            trivial
        · exact h.messages m' hm' }

/-- The new invocation is pending, and the others are accounted for as they were. -/
theorem register_accounted (h : s.Inv J) {c : HandlerCall} {channel ch : JsString}
    (hfresh : s.pendingInvokes c.key = none) {n : Nat} {key : InvokeKey}
    (hn : (s.asked ++ [(c.key, channel)])[n]? = some (key, ch)) :
    Function.update s.pendingInvokes c.key (some s.asked.length) key = some n ∨
      n ∈ s.settled.map Settled.promise := by
  rcases Nat.lt_or_ge n s.asked.length with hlt | hge
  · have hold : s.asked[n]? = some (key, ch) := by
      rw [← hn]
      exact (List.getElem?_append_left hlt).symm
    rcases h.accounted n key ch hold with hsome | hsettled
    · have hkey : key ≠ c.key := by
        rintro rfl
        rw [hfresh] at hsome
        cases hsome
      exact Or.inl ((Function.update_of_ne hkey _ _).trans hsome)
    · exact Or.inr hsettled
  · have hlt := (List.getElem?_eq_some_iff.1 hn).1
    rw [List.length_append, List.length_singleton] at hlt
    obtain rfl : n = s.asked.length := by omega
    have hlast : some (c.key, channel) = some (key, ch) :=
      List.getElem?_concat_length.symm.trans hn
    obtain ⟨rfl, -⟩ := Prod.mk.inj (Option.some.inj hlast)
    exact Or.inl (Function.update_self ..)

/-- A renderer registers a promise under a number that is not in use. -/
theorem register (h : s.Inv J) {c : HandlerCall} (hfresh : s.pendingInvokes c.key = none)
    (channel : JsString) :
    Inv J { s with
      calls := c :: s.calls
      pendingInvokes := Function.update s.pendingInvokes c.key (some s.asked.length)
      asked := s.asked ++ [(c.key, channel)] } := by
  have hnone : s.uses c.key = 0 := by
    by_contra hpos
    exact h.live c.key (Nat.pos_of_ne_zero hpos) hfresh
  have huses : ∀ key, uses { s with
        calls := c :: s.calls
        pendingInvokes := Function.update s.pendingInvokes c.key (some s.asked.length)
        asked := s.asked ++ [(c.key, channel)] } key = s.uses key + if c.key = key then 1 else 0 := by
    intro key
    simp only [uses, List.map_cons, List.count_cons, beq_iff_eq]
    omega
  have hpending : ∀ {key n},
      Function.update s.pendingInvokes c.key (some s.asked.length) key = some n →
        key = c.key ∧ s.asked.length = n ∨ key ≠ c.key ∧ s.pendingInvokes key = some n := by
    intro key n hsome
    by_cases hkey : key = c.key
    · rw [hkey, Function.update_self] at hsome
      exact Or.inl ⟨hkey, Option.some.inj hsome⟩
    · rw [Function.update_of_ne hkey] at hsome
      exact Or.inr ⟨hkey, hsome⟩
  have hasked : ∀ {n x}, s.asked[n]? = some x → (s.asked ++ [(c.key, channel)])[n]? = some x :=
    fun hn => by rw [List.getElem?_append_left (List.getElem?_eq_some_iff.1 hn).1, hn]
  -- what has a message or a call already is pending as it was
  have hbefore : ∀ {key n}, 0 < s.uses key →
      Function.update s.pendingInvokes c.key (some s.asked.length) key = some n →
        s.pendingInvokes key = some n := by
    intro key n hpos hsome
    rcases hpending hsome with ⟨rfl, -⟩ | ⟨-, hold⟩
    · exact absurd hnone (Nat.ne_of_gt hpos)
    · exact hold
  refine ⟨fun key => ?_, fun key hpos => ?_, fun key n hsome => ?_, fun key n hsome hmem => ?_,
    fun n key ch => h.register_accounted hfresh, fun hlost key hsome => ?_, fun n hn => ?_,
    fun m hm => ?_,
    fun c' hc n hsome => ?_, h.as_handled, fun r hr => ?_, h.once, fun sv hsv => ?_⟩
  · rw [huses]
    have hone := h.single key
    split_ifs with hkey
    · rewrite [← hkey, hnone]
      exact Nat.le_refl 1
    · exact hone
  · show Function.update s.pendingInvokes c.key _ key ≠ none
    by_cases hkey : key = c.key
    · rw [hkey, Function.update_self]
      exact Option.some_ne_none _
    · rw [huses, if_neg (Ne.symm hkey)] at hpos
      rw [Function.update_of_ne hkey]
      exact h.live key hpos
  · rcases hpending hsome with ⟨rfl, rfl⟩ | ⟨-, hold⟩
    · exact ⟨channel, List.getElem?_concat_length⟩
    · obtain ⟨ch, hn⟩ := h.known key n hold
      exact ⟨ch, hasked hn⟩
  · rcases hpending hsome with ⟨-, rfl⟩ | ⟨-, hold⟩
    · obtain ⟨r, hr, hrn⟩ := List.mem_map.1 hmem
      obtain ⟨ch, hrch⟩ := h.by_key r hr
      have hlt := (List.getElem?_eq_some_iff.1 hrch).1
      exact Nat.ne_of_lt hlt hrn
    · exact h.unsettled key n hold hmem
  · rw [huses]
    obtain ⟨n, hsome⟩ := Option.ne_none_iff_exists'.1 hsome
    rcases hpending hsome with ⟨rfl, -⟩ | ⟨-, hold⟩
    · rw [if_pos rfl]
      exact Nat.succ_pos _
    · exact Nat.add_pos_left (h.placed hlost key (by rw [hold]; exact Option.some_ne_none n)) _
  · refine h.unasked n ?_
    rw [List.length_append] at hn
    exact Nat.le_trans (Nat.le_add_right _ _) hn
  · exact MessageOk.transfer (h.messages m hm)
      (fun key n hkey hsome => ⟨hbefore (uses_pos_of_message (s := s) hm hkey) hsome, rfl⟩)
      fun _ _ => hasked
  · rcases List.mem_cons.1 hc with rfl | hc
    · rcases hpending hsome with ⟨-, rfl⟩ | ⟨hne, -⟩
      · exact h.unasked _ (Nat.le_refl _)
      · exact absurd rfl hne
    · exact h.runs c' hc n (hbefore (uses_pos_of_call hc) hsome)
  · obtain ⟨ch, hn⟩ := h.by_key r hr
    exact ⟨ch, hasked hn⟩
  · obtain ⟨key, hn⟩ := h.own_handler sv hsv
    exact ⟨key, hasked hn⟩

/-! ## The steps -/

omit [DecidableEq V] in
theorem post_cases (s : InvokeRun V) (granted : Bool) (p : IpcPost JsString) :
    (s.post granted p).ipc.q.items = s.ipc.q.items ++ [p.message s.ipc.nextReqId] ∧
        (s.post granted p).lost = s.lost ∨
      (s.post granted p).ipc.q.items = s.ipc.q.items ∧ (s.post granted p).lost = true := by
  have hitems : (s.post granted p).ipc.q.items = _ := MiniIPC.items_post s.ipc granted p
  rw [hitems]
  simp only [InvokeRun.post]
  cases s.ipc.q.push granted (p.message s.ipc.nextReqId) with
  | none => exact Or.inr ⟨List.append_nil _, Bool.or_true _⟩
  | some q => exact Or.inl ⟨rfl, Bool.or_false _⟩

/-- A call of a handler ends. -/
theorem handlerEnds (hJ : J.Standard carry) {c : HandlerCall}
    (h : Inv J { s with calls := c :: s.calls }) {o : Outcome V} (ho : J.Plain o)
    (granted : Bool) : Inv J (s.handlerEnds J carry granted c.key o) := by
  obtain ⟨r, hr, hexpected⟩ := hJ.resolve_answer ho
  have hpos : 0 < uses { s with calls := c :: s.calls } c.key :=
    Nat.add_pos_right _ (List.count_pos_iff.2 (List.mem_cons_self ..))
  obtain ⟨n, hn⟩ : ∃ n, s.pendingInvokes c.key = some n :=
    Option.ne_none_iff_exists'.1 (h.live c.key hpos)
  simp only [InvokeRun.handlerEnds, hr, hn]
  refine h.put rfl (post_cases s granted (.response c.reqId c.src r.1 (r.2.map carry)))
    (fun n' hne => Function.update_of_ne (fun hsame => hne (hn.trans (congrArg some hsame.symm))) _ _)
    ?_
  intro n' hn'
  obtain rfl : n = n' := Option.some.inj (hn.symm.trans hn')
  exact ⟨o, Function.update_self .., hexpected⟩

theorem ipcRendererInvoke (hJ : J.Standard carry) (h : s.Inv J) (granted : Bool) (ctx : Int)
    {channel : JsString} (args : V) (hcarry : carry channel = channel)
    (hfresh : s.pendingInvokes (ctx, s.ipc.nextReqId) = none) :
    Inv J (s.ipcRendererInvoke J carry granted ctx channel args) := by
  unfold InvokeRun.ipcRendererInvoke
  split_ifs
  · exact h
  · cases htext : J.stringify args with
    | error e => exact h
    | ok text =>
      have hregistered := h.register (c := ⟨s.ipc.nextReqId, ctx⟩) hfresh channel
      refine put (s := { s with
          pendingInvokes := Function.update s.pendingInvokes (ctx, s.ipc.nextReqId)
            (some s.asked.length)
          asked := s.asked ++ [((ctx, s.ipc.nextReqId), channel)] }) hregistered rfl
        (post_cases s granted (.invoke ctx 0 (carry channel) (text.map carry)))
        (fun _ _ => rfl) ?_
      refine ⟨rfl, ?_, fun n hn => ?_⟩
      · cases text with
        | none => exact ⟨J.emptyArray, rfl⟩
        | some t =>
          obtain ⟨w, hw⟩ := hJ.text_parses args t htext
          refine ⟨w, ?_⟩
          show J.parseOr (some (carry t)) _ = _
          rw [hJ.carry_text args t htext, Json.parseOr, if_neg (hJ.text_ne_nil args t htext), hw]
      · have hlast : s.asked.length = n := by
          have hself : Function.update s.pendingInvokes (ctx, s.ipc.nextReqId)
              (some s.asked.length) (ctx, s.ipc.nextReqId) = some s.asked.length :=
            Function.update_self ..
          exact Option.some.inj (hself.symm.trans hn)
        subst hlast
        refine ⟨h.unasked _ (Nat.le_refl _), (ctx, s.ipc.nextReqId), ?_⟩
        show (s.asked ++ [_])[s.asked.length]? = some (_, carry channel)
        rw [hcarry]
        exact List.getElem?_concat_length

theorem deliver (hJ : J.Standard carry) (h : s.Inv J) (granted : Bool) (ctx : Int) :
    Inv J (s.deliver J carry granted ctx) := by
  unfold InvokeRun.deliver
  cases htake : s.ipc.takeFirst ctx with
  | none => exact h
  | some taken =>
    obtain ⟨m, ipc⟩ := taken
    obtain ⟨l₁, l₂, hitems, hipc, rfl⟩ := MiniIPC.takeFirst_cases htake
    have hmem : m ∈ s.ipc.q.items := hitems ▸ List.mem_append_right _ (List.mem_cons_self ..)
    have hok := h.messages m hmem
    unfold MessageOk at hok
    cases hkind : m.kind with
    | send =>
      simp only [IpcMsg.call, hkind]
      exact h.take_send hitems hipc hkind
    | invokeResp =>
      simp only [IpcMsg.call, hkind]
      exact h.take_response hitems hipc hkind
    | invoke =>
      rw [hkind] at hok
      obtain ⟨hdst, ⟨w, hw⟩, htold⟩ := hok
      have htaken := h.take_invoke hitems hipc hkind
      obtain ⟨n, hn⟩ : ∃ n, s.pendingInvokes (m.src, m.reqId) = some n :=
        Option.ne_none_iff_exists'.1 (htaken.live (m.src, m.reqId)
          (Nat.add_pos_right _ (List.count_pos_iff.2 (List.mem_cons_self ..))))
      have hserved : Inv J { s with
          ipc := ipc
          calls := ⟨m.reqId, m.src⟩ :: s.calls
          served := s.served ++ [(n, m.channel.getD [])] } :=
        { htaken with
          messages := htaken.messages
          own_handler := fun sv hsv => by
            rcases List.mem_append.1 hsv with hold | hthis
            · exact h.own_handler sv hold
            · rw [List.mem_singleton.1 hthis]
              exact (htold n hn).2 }
      simp only [IpcMsg.call, hkind, if_pos hdst, ipcDispatchInvokeMain, hw, hn]
      split_ifs
      · exact hserved.perm (List.perm_append_singleton _ _).symm
      · have hplain : (newError (jsText "No handler registered for " ++ m.channel.getD [])).Plain :=
          newError_plain (List.append_ne_nil_of_left_ne_nil (by decide) _)
        exact handlerEnds (c := ⟨m.reqId, m.src⟩) (o := .threw _) hJ hserved hplain granted

theorem step (hJ : J.Standard carry) (h : s.Inv J) {a : InvokeStep V} (hsafe : s.Safe J carry a) :
    Inv J (s.exec J carry a) := by
  cases a with
  | handle channel => exact { h with messages := h.messages }
  | removeHandler channel => exact { h with messages := h.messages }
  | send granted src dst channel args =>
    exact h.put_send rfl (post_cases s granted (.send src dst (carry channel) args))
  | invoke granted ctx channel args => exact h.ipcRendererInvoke hJ granted ctx args hsafe.1 hsafe.2
  | deliver granted ctx => exact h.deliver hJ granted ctx
  | finish granted call o =>
    simp only [exec]
    cases hc : s.calls[call]? with
    | none => exact h
    | some c =>
      have hcalls : s.calls.Perm (c :: s.calls.eraseIdx call) := by
        obtain ⟨hi, rfl⟩ := List.getElem?_eq_some_iff.1 hc
        exact (List.getElem_cons_eraseIdx_perm hi).symm
      exact handlerEnds (s := { s with calls := s.calls.eraseIdx call }) hJ (h.perm hcalls) hsafe
        granted

end Inv

end InvokeRun

/-- In every run whose numbers are fresh, whose channels are carried by C strings, and whose handlers
end with plain outcomes, the law holds throughout. -/
theorem invoke_law {V : Type} [DecidableEq V] (J : Json V) (carry : JsString → JsString)
    (hJ : J.Standard carry) (steps : List (InvokeStep V))
    (hsafe : ∀ pre a post, steps = pre ++ a :: post →
      (pre.foldl (InvokeRun.exec J carry) {}).Safe J carry a) (pre post : List (InvokeStep V))
    (hsteps : steps = pre ++ post) : (pre.foldl (InvokeRun.exec J carry) {}).Lawful J := by
  have hinv : (pre.foldl (InvokeRun.exec J carry) {}).Inv J :=
    Histories.invariant (InvokeRun.Inv J) InvokeRun.Inv.start
      (fun pre a post hsteps h => h.step hJ (hsafe pre a post hsteps)) pre post hsteps
  exact hinv.lawful

/-! ## Two runs -/

inductive PlainValue where
  | undefined
  | emptyArray
  | string (s : JsString)
  deriving DecidableEq

def syntaxError : Thrown :=
  { message := some (jsText "unexpected token")
    string := some (jsText "SyntaxError: unexpected token") }

/-- JSON, as far as the strings in which nothing is escaped. -/
def plainJson : Json PlainValue where
  undefined := .undefined
  emptyArray := .emptyArray
  ofString := .string
  asString
    | .string s => some s
    | _ => none
  stringify
    | .undefined => .ok none
    | .emptyArray => .ok (some [91, 93])
    | .string s => .ok (some (34 :: (s ++ [34])))
  parse
    | [91, 93] => .ok .emptyArray
    | 34 :: t => if t.getLast? = some 34 then .ok (.string t.dropLast) else .error syntaxError
    | _ => .error syntaxError

theorem plainJson_standard : plainJson.Standard id where
  string_text s := ⟨34 :: (s ++ [34]), rfl, by simp [plainJson]⟩
  asString_ofString _ := rfl
  text_ne_nil v t ht := by
    cases v <;> cases ht <;> exact List.cons_ne_nil _ _
  text_parses v t ht := by
    cases v <;> cases ht
    · exact ⟨.emptyArray, rfl⟩
    · exact ⟨.string _, by simp [plainJson]; rfl⟩
  carry_text _ _ _ := rfl

/-- An invocation whose handler ends with `o`, from the call to the settlement. -/
def oneInvocation (o : Outcome PlainValue) : List (InvokeStep PlainValue) :=
  [.handle [65], .invoke true 1 [65] .emptyArray, .deliver true 0, .finish true 0 o,
    .deliver true 1]

/-- Two renderers invoke one channel.  The handler of the second one ends first, and throws. -/
def twoInvocations : List (InvokeStep PlainValue) :=
  [.handle [65], .invoke true 1 [65] .emptyArray, .invoke true 2 [65] .emptyArray,
    .deliver true 0, .deliver true 0, .finish true 1 (.threw syntaxError),
    .finish true 0 (.fulfilled (.string [72])), .deliver true 2, .deliver true 1]

theorem invoke_law_two :
    (twoInvocations.foldl (InvokeRun.exec plainJson id) {}).Lawful plainJson ∧
      (twoInvocations.foldl (InvokeRun.exec plainJson id) {}).settled.map Settled.promise =
        [1, 0] := by
  refine ⟨invoke_law plainJson id plainJson_standard twoInvocations
    (Histories.forall_iff_throughout.2 ?_) twoInvocations [] (List.append_nil _).symm, rfl⟩
  have hthrew : plainJson.Plain (.threw syntaxError) := ⟨by decide, by decide⟩
  have hended : plainJson.Plain (.fulfilled (.string [72])) :=
    ⟨by decide, fun e he => by cases he⟩
  exact ⟨trivial, ⟨rfl, rfl⟩, ⟨rfl, rfl⟩, trivial, trivial, hthrew, hended, trivial, trivial, trivial⟩

/-- An invocation whose handler fulfils with undefined is rejected. -/
theorem undefined_rejected : plainJson.Standard id ∧
    ¬ ((oneInvocation (.fulfilled .undefined)).foldl (InvokeRun.exec plainJson id) {}).Lawful
      plainJson := by
  refine ⟨plainJson_standard, fun hlaw => ?_⟩
  obtain ⟨o, ho, hexpected⟩ := hlaw.as_handled ⟨0, (1, 1), .rejected syntaxError⟩
    (List.mem_singleton.2 rfl)
  cases ho
  cases hexpected

end TinyFramework.Ipc
