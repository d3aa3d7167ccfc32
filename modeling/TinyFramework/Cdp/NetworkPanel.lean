/-
  Cdp/NetworkPanel.lean --- the recorded requests and the Network domain.

  A record gets the next id when it is added, and the ids only grow; a record is looked up
  at the position of its id.  The table keeps the last 256 records, so positions and ids
  agree until the first record is dropped.
-/
import Mathlib.Data.List.Infix
import Mathlib.Data.List.Nodup
import Mathlib.Data.List.Range
import TinyFramework.Foundation.Decimal

set_option autoImplicit false

namespace TinyFramework.Cdp

open TinyFramework.Foundation

/-! ## The table -/

/-- `MiniNetRecord`: what is reported and asked for.  A body that is NULL is `none`. -/
structure NetRecord where
  method : Bytes
  url : Bytes
  reqBody : Option Bytes
  status : Int
  respBody : Option Bytes
  respBodyLen : Nat
  mime : Bytes
  reported : Bool := false
  id : Nat := 0
  deriving DecidableEq

/-- `g_recs` up to `g_rec_n`, `g_rec_next_id` and `g_net_enabled`; the next id is an `int` that fewer
than 2^31 records do not wrap. -/
structure NetPanel where
  recs : List NetRecord := []
  nextId : Nat := 1
  enabled : Bool := false

/-- `NET_REC_CAP` -/
def netRecCap : Nat := 256

namespace NetPanel

variable (s : NetPanel)

/-- `mini_net_record_add` -/
def miniNetRecordAdd (rec : NetRecord) : NetPanel :=
  let kept := if s.recs.length < netRecCap then s.recs else s.recs.tail
  { s with
    recs := kept ++ [{ rec with id := s.nextId, reported := false }]
    nextId := s.nextId + 1 }

/-- `mini_net_record_get` -/
def miniNetRecordGet (i : Int) : Option NetRecord :=
  if i < 0 then none else s.recs[i.toNat]?

/-- `mini_net_record_mark_reported` -/
def miniNetRecordMarkReported (i : Nat) : NetPanel :=
  { s with recs := s.recs.modify i fun r => { r with reported := true } }

end NetPanel

/-! ## What is sent -/

/-- The events of a flush; time stamps are left out. -/
inductive NetEvent where
  | requestWillBeSent (requestId : Nat) (url method type : Bytes)
  | responseReceived (requestId : Nat) (type url : Bytes) (status : Int) (mime : Bytes)
  | loadingFinished (requestId encodedDataLength : Nat)
  deriving DecidableEq

def NetEvent.requestId : NetEvent → Nat
  | .requestWillBeSent requestId .. => requestId
  | .responseReceived requestId .. => requestId
  | .loadingFinished requestId _ => requestId

/-- The `result` of a reply. -/
inductive NetReply where
  | empty
  | body (body mime : Bytes)
  | postData (postData : Bytes)
  deriving DecidableEq

namespace NetRecord

variable (r : NetRecord)

/-- `strstr(s, needle)` -/
def contains (s : Bytes) (needle : String) : Bool := decide (ascii needle <:+: s)

/-- The `type` that is guessed from the media type, or else from the address. -/
def resourceType : Bytes :=
  if r.mime ≠ [] then
    if contains r.mime "javascript" then ascii "Script"
    else if contains r.mime "css" then ascii "Stylesheet"
    else if contains r.mime "image" then ascii "Image"
    else if contains r.mime "html" then ascii "Document"
    else if contains r.mime "json" then ascii "Fetch"
    else ascii "Other"
  else if contains r.url ".js" then ascii "Script"
  else if contains r.url ".css" then ascii "Stylesheet"
  else if contains r.url ".png" || contains r.url ".jpg" || contains r.url ".svg" then
    ascii "Image"
  else if contains r.url ".html" then ascii "Document"
  else ascii "Other"

/-- The media type that is sent. -/
def sentMime : Bytes := if r.mime = [] then ascii "text/plain" else r.mime

/-- The three events of a record. -/
def events : List NetEvent :=
  [.requestWillBeSent r.id r.url r.method r.resourceType,
    .responseReceived r.id r.resourceType r.url r.status r.sentMime,
    .loadingFinished r.id r.respBodyLen]

/-- The events that a record still owes. -/
def owed : List NetEvent := if r.reported then [] else r.events

end NetRecord

/-- One turn of the loop of a flush. -/
def flushStep (acc : NetPanel × List NetEvent) (i : Nat) : NetPanel × List NetEvent :=
  match acc.1.miniNetRecordGet i with
  | none => acc
  | some r =>
      if r.reported then acc else (acc.1.miniNetRecordMarkReported i, acc.2 ++ r.events)

/-- `mini_cdp_network_flush` -/
def miniCdpNetworkFlush (s : NetPanel) : NetPanel × List NetEvent :=
  if s.enabled then (List.range s.recs.length).foldl flushStep (s, []) else (s, [])

namespace NetPanel

variable (s : NetPanel)

/-- The record that a `requestId` leads to. -/
def recordOf (requestId : Bytes) : Option NetRecord := s.miniNetRecordGet (atoi requestId - 1)

/-- `Network.getResponseBody` -/
def getResponseBody (requestId : Bytes) : NetReply :=
  match s.recordOf requestId with
  | none => .empty
  | some r => (r.respBody.map fun body => .body body r.sentMime).getD .empty

/-- `Network.getRequestPostData` -/
def getRequestPostData (requestId : Bytes) : NetReply :=
  .postData (((s.recordOf requestId).bind NetRecord.reqBody).getD [])

end NetPanel

/-! ## Histories -/

/-- What happens to the table.  Requests for data read it only. -/
inductive NetStep where
  | add (rec : NetRecord)
  | enable
  | disable
  | flush
  deriving DecidableEq

/-- The table, the events sent so far, and the next id when the panel was last flushed. -/
structure NetRun where
  panel : NetPanel := {}
  sent : List NetEvent := []
  flushedTo : Nat := 1

def NetRun.step (s : NetRun) : NetStep → NetRun
  | .add rec => { s with panel := s.panel.miniNetRecordAdd rec }
  | .enable => { s with panel := { s.panel with enabled := true } }
  | .disable => { s with panel := { s.panel with enabled := false } }
  | .flush =>
      let r := miniCdpNetworkFlush s.panel
      { panel := r.1
        sent := s.sent ++ r.2
        flushedTo := if s.panel.enabled then s.panel.nextId else s.flushedTo }

def netRun (steps : List NetStep) : NetRun := steps.foldl NetRun.step {}

/-- The record of a request, if it is still in the table. -/
def NetPanel.kept (s : NetPanel) (requestId : Nat) : Option NetRecord :=
  s.recs.find? fun r => r.id = requestId

/-- A record in the table has been reported once if the panel was flushed since it came, and
else not at all; and what is asked for about a reported request comes from its own record, or
from none when that is gone. -/
structure NetRun.Consistent (s : NetRun) : Prop where
  once : ∀ r ∈ s.panel.recs,
    s.sent.filter (fun e => e.requestId = r.id) = if r.id < s.flushedTo then r.events else []
  own : ∀ e ∈ s.sent, s.panel.recordOf (decimal e.requestId) = s.panel.kept e.requestId

/-! ## The invariant -/

/-- The ids in the table are the last ones. -/
structure NetPanel.Numbered (s : NetPanel) : Prop where
  ids : s.recs.map NetRecord.id = List.range' (s.nextId - s.recs.length) s.recs.length
  room : s.recs.length < s.nextId
  full : s.recs.length = netRecCap ∨ s.nextId = s.recs.length + 1 ∧ s.recs.length ≤ netRecCap

structure NetRun.Inv (s : NetRun) : Prop where
  numbered : s.panel.Numbered
  marked : ∀ r ∈ s.panel.recs, (r.reported = true ↔ r.id < s.flushedTo)
  once : ∀ r ∈ s.panel.recs,
    s.sent.filter (fun e => e.requestId = r.id) = if r.id < s.flushedTo then r.events else []
  sent : ∀ e ∈ s.sent, 1 ≤ e.requestId ∧ e.requestId < s.flushedTo
  flushed : s.flushedTo ≤ s.panel.nextId

/-- A run of numbers without its first and with its next one. -/
theorem range'_next {a n : Nat} (hn : 0 < n) :
    (List.range' a n).tail ++ [a + n] = List.range' (a + 1) n := by
  obtain ⟨m, rfl⟩ := Nat.exists_eq_succ_of_ne_zero (Nat.ne_of_gt hn)
  rw [List.range'_succ, List.tail_cons, List.range'_concat, Nat.one_mul, Nat.succ_add_eq_add_succ]

namespace NetPanel

variable {s : NetPanel}

/-- The position of a record in the table gives its id. -/
theorem Numbered.id_eq (h : s.Numbered) {i : Nat} {r : NetRecord} (hr : s.recs[i]? = some r) :
    r.id = s.nextId - s.recs.length + i := by
  have hi : i < s.recs.length := (List.getElem?_eq_some_iff.1 hr).1
  have hid : (s.recs.map NetRecord.id)[i]? = some r.id := by
    rw [List.getElem?_map, hr]
    rfl
  rw [h.ids, List.getElem?_range' hi] at hid
  have := Option.some.inj hid
  omega

theorem Numbered.bounds (h : s.Numbered) {r : NetRecord} (hr : r ∈ s.recs) :
    s.nextId - s.recs.length ≤ r.id ∧ r.id < s.nextId := by
  obtain ⟨i, hi, hget⟩ := List.getElem_of_mem hr
  have hid := h.id_eq ((List.getElem?_eq_getElem hi).trans (congrArg some hget))
  have hroom := h.room
  omega

theorem Numbered.add (h : s.Numbered) (rec : NetRecord) : (s.miniNetRecordAdd rec).Numbered := by
  obtain ⟨hids, hroom, hfull⟩ := h
  unfold miniNetRecordAdd
  split_ifs with hlt
  · have hcount : s.nextId = s.recs.length + 1 := (hfull.resolve_left (Nat.ne_of_lt hlt)).1
    refine ⟨?_, ?_, Or.inr ⟨?_, ?_⟩⟩
    · simp only [List.map_append, List.map_cons, List.map_nil, hids, List.length_append,
        List.length_singleton]
      rw [List.range'_concat]
      congr 2 <;> omega
    · simp only [List.length_append, List.length_singleton]
      omega
    · simp only [List.length_append, List.length_singleton]
      omega
    · simp only [List.length_append, List.length_singleton]
      omega
  · -- the table is full and its first record is dropped
    have hlen : s.recs.length = netRecCap := by
      rcases hfull with hfull | ⟨-, hle⟩
      · exact hfull
      · omega
    have hpos : 0 < s.recs.length := by rw [hlen]; decide
    have htail : (s.recs.tail ++ [({ rec with id := s.nextId, reported := false } : NetRecord)]).length
        = s.recs.length := by
      rw [List.length_append, List.length_tail, List.length_singleton]
      omega
    refine ⟨?_, ?_, Or.inl (htail.trans hlen)⟩
    · have hnext : s.nextId = (s.nextId - s.recs.length) + s.recs.length := by omega
      have hshift := range'_next (a := s.nextId - s.recs.length) hpos
      rw [← hnext] at hshift
      dsimp only
      rw [htail, List.map_append, List.map_tail, hids]
      refine hshift.trans (congrArg (List.range' · s.recs.length) ?_)
      omega
    · rw [htail]
      show _ < s.nextId + 1
      omega

/-- In the table there is what was there, or what came. -/
theorem mem_add {rec r : NetRecord} (hr : r ∈ (s.miniNetRecordAdd rec).recs) :
    r ∈ s.recs ∨ r = { rec with id := s.nextId, reported := false } := by
  unfold miniNetRecordAdd at hr
  rcases List.mem_append.1 hr with hr | hr
  · refine Or.inl ?_
    split_ifs at hr
    · exact hr
    · exact List.mem_of_mem_tail hr
  · exact Or.inr (List.mem_singleton.1 hr)

end NetPanel

/-- The record with its mark. -/
def NetRecord.mark (r : NetRecord) : NetRecord := { r with reported := true }

theorem modify_middle {α : Type} (f : α → α) (l : List α) (a : α) (l' : List α) :
    (l ++ a :: l').modify l.length f = l ++ f a :: l' := by
  induction l with
  | nil => rfl
  | cons b l ih => exact congrArg (List.cons b) ih

/-- The first turns of a flush mark the first records and send what they owe. -/
theorem flush_prefix (s : NetPanel) {k : Nat} (hk : k ≤ s.recs.length) :
    (List.range k).foldl flushStep (s, []) =
      ({ s with recs := (s.recs.take k).map NetRecord.mark ++ s.recs.drop k },
        (s.recs.take k).flatMap NetRecord.owed) := by
  induction k with
  | zero => simp
  | succ k ih =>
    rw [List.range_succ, List.foldl_concat, ih (Nat.le_of_succ_le hk)]
    obtain ⟨r, hr⟩ : ∃ r, s.recs[k]? = some r := ⟨_, List.getElem?_eq_getElem hk⟩
    have htake : s.recs.take (k + 1) = s.recs.take k ++ [r] := by
      rw [List.take_add_one, hr]
      rfl
    have hdrop : s.recs.drop k = r :: s.recs.drop (k + 1) := by
      rw [List.drop_eq_getElem_cons hk, (List.getElem?_eq_some_iff.1 hr).2]
    have hlen : ((s.recs.take k).map NetRecord.mark).length = k := by
      rw [List.length_map, List.length_take_of_le (Nat.le_of_succ_le hk)]
    have hget : ({ s with recs := (s.recs.take k).map NetRecord.mark ++ s.recs.drop k } :
        NetPanel).miniNetRecordGet k = some r := by
      rw [NetPanel.miniNetRecordGet, if_neg (by omega)]
      show ((s.recs.take k).map NetRecord.mark ++ s.recs.drop k)[k]? = some r
      rw [List.getElem?_append_right (Nat.le_of_eq hlen), hlen, Nat.sub_self, hdrop]
      rfl
    unfold flushStep
    dsimp only
    rw [hget, htake]
    dsimp only
    cases hrep : r.reported with
    | true =>
      have hmark : r.mark = r := by rw [NetRecord.mark, ← hrep]
      rw [if_pos rfl, List.map_append, List.flatMap_append, List.append_assoc, hdrop]
      simp [NetRecord.owed, hrep, hmark]
    | false =>
      rw [if_neg Bool.false_ne_true, List.map_append, List.flatMap_append, List.append_assoc]
      have hmodify := modify_middle NetRecord.mark ((s.recs.take k).map NetRecord.mark) r
        (s.recs.drop (k + 1))
      rw [hlen, ← hdrop] at hmodify
      refine Prod.ext ?_ ?_
      · exact congrArg (fun l => ({ s with recs := l } : NetPanel)) hmodify
      · simp [NetRecord.owed, hrep]

theorem flush_enabled {s : NetPanel} (h : s.enabled = true) :
    miniCdpNetworkFlush s =
      ({ s with recs := s.recs.map NetRecord.mark }, s.recs.flatMap NetRecord.owed) := by
  rw [miniCdpNetworkFlush, if_pos h, flush_prefix s (Nat.le_refl _), List.take_length,
    List.drop_length, List.append_nil]

theorem requestId_of_mem_owed {r : NetRecord} {e : NetEvent} (he : e ∈ r.owed) :
    e.requestId = r.id := by
  unfold NetRecord.owed at he
  split_ifs at he
  · cases he
  · simp only [NetRecord.events, List.mem_cons, List.not_mem_nil, or_false] at he
    rcases he with rfl | rfl | rfl <;> rfl

/-- Of what is sent for records with different ids, a record finds its own. -/
theorem filter_owed {l : List NetRecord} (hids : (l.map NetRecord.id).Nodup) {r : NetRecord}
    (hr : r ∈ l) : (l.flatMap NetRecord.owed).filter (fun e => e.requestId = r.id) = r.owed := by
  have hother : ∀ r' : NetRecord, r'.id ≠ r.id →
      r'.owed.filter (fun e => e.requestId = r.id) = [] := by
    intro r' hne
    refine List.filter_eq_nil_iff.2 fun e he => ?_
    rw [decide_eq_true_iff, requestId_of_mem_owed he]
    exact hne
  induction l with
  | nil => cases hr
  | cons r' l ih =>
    obtain ⟨hnew, hids⟩ := List.nodup_cons.1 hids
    rw [List.flatMap_cons, List.filter_append]
    rcases List.mem_cons.1 hr with rfl | hr
    · have hrest : (l.flatMap NetRecord.owed).filter (fun e => e.requestId = r.id) = [] := by
        rw [List.filter_flatMap, List.flatMap_eq_nil_iff]
        intro r' hr'
        exact hother r' fun heq => hnew (heq ▸ List.mem_map_of_mem hr')
      have hown : r.owed.filter (fun e => e.requestId = r.id) = r.owed :=
        List.filter_eq_self.2 fun e he => decide_eq_true (requestId_of_mem_owed he)
      rw [hown, hrest, List.append_nil]
    · have hne : r'.id ≠ r.id := fun heq => hnew (heq ▸ List.mem_map_of_mem hr)
      rw [hother r' hne, List.nil_append]
      exact ih hids hr

namespace NetRun

variable {s : NetRun}

theorem Inv.start : Inv {} := by
  refine ⟨⟨rfl, Nat.one_pos, Or.inr ⟨rfl, Nat.zero_le _⟩⟩, ?_, ?_, ?_, Nat.le_refl _⟩
  · intro r hr
    cases hr
  · intro r hr
    cases hr
  · intro e he
    cases he

theorem Inv.add (h : s.Inv) (rec : NetRecord) : (s.step (.add rec)).Inv := by
  have hnext : (s.panel.miniNetRecordAdd rec).nextId = s.panel.nextId + 1 := rfl
  refine ⟨h.numbered.add rec, ?_, ?_, h.sent, Nat.le_succ_of_le h.flushed⟩
  · intro r hr
    rcases NetPanel.mem_add hr with hr | rfl
    · exact h.marked r hr
    · exact iff_of_false Bool.false_ne_true (Nat.not_lt.2 h.flushed)
  · intro r hr
    rcases NetPanel.mem_add hr with hr | rfl
    · exact h.once r hr
    · -- the id is new
      refine Eq.trans ?_ (if_neg (Nat.not_lt.2 h.flushed)).symm
      refine List.filter_eq_nil_iff.2 fun e he => ?_
      rw [decide_eq_true_iff]
      exact Nat.ne_of_lt (Nat.lt_of_lt_of_le (h.sent e he).2 h.flushed)

theorem Inv.flush (h : s.Inv) : (s.step .flush).Inv := by
  show Inv
    { panel := (miniCdpNetworkFlush s.panel).1
      sent := s.sent ++ (miniCdpNetworkFlush s.panel).2
      flushedTo := if s.panel.enabled then s.panel.nextId else s.flushedTo }
  cases hon : s.panel.enabled with
  | false =>
    rw [miniCdpNetworkFlush, hon, if_neg Bool.false_ne_true, if_neg Bool.false_ne_true,
      List.append_nil]
    exact h
  | true =>
    rw [flush_enabled hon, if_pos rfl]
    have hids : (s.panel.recs.map NetRecord.mark).map NetRecord.id =
        s.panel.recs.map NetRecord.id := by
      rw [List.map_map]
      rfl
    have hnodup : (s.panel.recs.map NetRecord.id).Nodup := by
      rw [h.numbered.ids]
      exact List.nodup_range'
    refine ⟨⟨?_, ?_, ?_⟩, ?_, ?_, ?_, Nat.le_refl _⟩
    · dsimp only
      rw [hids, List.length_map]
      exact h.numbered.ids
    · dsimp only
      rw [List.length_map]
      exact h.numbered.room
    · dsimp only
      rw [List.length_map]
      exact h.numbered.full
    · intro r hr
      obtain ⟨r₀, hr₀, rfl⟩ := List.mem_map.1 hr
      exact iff_of_true rfl (h.numbered.bounds hr₀).2
    · intro r hr
      obtain ⟨r, hold, rfl⟩ := List.mem_map.1 hr
      have hid : r.mark.id < s.panel.nextId := (h.numbered.bounds hold).2
      rw [if_pos hid, List.filter_append]
      show s.sent.filter (fun e => e.requestId = r.id) ++
        (s.panel.recs.flatMap NetRecord.owed).filter (fun e => e.requestId = r.id) = r.events
      rw [h.once r hold, filter_owed hnodup hold]
      by_cases hbefore : r.id < s.flushedTo
      · rw [if_pos hbefore, NetRecord.owed, if_pos ((h.marked r hold).2 hbefore), List.append_nil]
      · rw [if_neg hbefore, NetRecord.owed, if_neg fun hrep => hbefore ((h.marked r hold).1 hrep)]
        rfl
    · intro e he
      rcases List.mem_append.1 he with he | he
      · obtain ⟨hpos, hlt⟩ := h.sent e he
        exact ⟨hpos, Nat.lt_of_lt_of_le hlt h.flushed⟩
      · obtain ⟨r, hr, he⟩ := List.mem_flatMap.1 he
        have hbounds := h.numbered.bounds hr
        have hroom := h.numbered.room
        rw [requestId_of_mem_owed he]
        dsimp only
        omega

theorem Inv.step (h : s.Inv) (step : NetStep) : (s.step step).Inv := by
  cases step with
  | add rec => exact h.add rec
  | enable => exact { h with numbered := { h.numbered with } }
  | disable => exact { h with numbered := { h.numbered with } }
  | flush => exact h.flush

theorem Inv.run (h : s.Inv) (steps : List NetStep) : (steps.foldl NetRun.step s).Inv := by
  induction steps generalizing s with
  | nil => exact h
  | cons step steps ih => exact ih (h.step step)

end NetRun

/-! ## Lookups -/

/-- The position of the id is the position of its record: no record has been dropped, or the
request is gone and its id is beyond the table. -/
def NetPanel.Reachable (s : NetPanel) (requestId : Nat) : Prop :=
  s.nextId ≤ netRecCap + 1 ∨ netRecCap < requestId ∧ requestId + netRecCap < s.nextId

namespace NetPanel

variable {s : NetPanel}

theorem Numbered.kept_eq_some (h : s.Numbered) {requestId : Nat} {r : NetRecord} :
    s.kept requestId = some r ↔ r ∈ s.recs ∧ r.id = requestId := by
  constructor
  · intro hkept
    have hid := List.find?_some (p := fun r : NetRecord => decide (r.id = requestId)) hkept
    exact ⟨List.mem_of_find?_eq_some hkept, of_decide_eq_true hid⟩
  · rintro ⟨hr, rfl⟩
    obtain ⟨r', hr'⟩ : ∃ r', s.kept r.id = some r' := by
      refine Option.isSome_iff_exists.1 (List.find?_isSome.2 ⟨r, hr, ?_⟩)
      exact decide_eq_true rfl
    have hmem := List.mem_of_find?_eq_some hr'
    have hid : r'.id = r.id := of_decide_eq_true
      (List.find?_some (p := fun r' : NetRecord => decide (r'.id = r.id)) hr')
    have hnodup : (s.recs.map NetRecord.id).Nodup := by
      rw [h.ids]
      exact List.nodup_range'
    rw [hr', List.inj_on_of_nodup_map hnodup hmem hr hid]

theorem recordOf_decimal {requestId : Nat} (hpos : 1 ≤ requestId) :
    s.recordOf (decimal requestId) = s.recs[requestId - 1]? := by
  have hatoi : atoi (decimal requestId) = requestId := by
    have hread := atoi_decimal requestId [] (by simp)
    rwa [List.append_nil] at hread
  rw [recordOf, hatoi, miniNetRecordGet, if_neg (by omega)]
  congr 1
  omega

/-- A lookup finds the record of the request exactly if positions and ids agree on it. -/
theorem Numbered.recordOf_iff (h : s.Numbered) {requestId : Nat} (hpos : 1 ≤ requestId)
    (hnext : requestId < s.nextId) :
    s.recordOf (decimal requestId) = s.kept requestId ↔ s.Reachable requestId := by
  rw [recordOf_decimal hpos]
  have hroom := h.room
  by_cases hfirst : s.nextId ≤ netRecCap + 1
  · refine iff_of_true ?_ (Or.inl hfirst)
    have hcount : s.nextId = s.recs.length + 1 := by
      rcases h.full with hfull | ⟨hcount, -⟩
      · omega
      · exact hcount
    obtain ⟨r, hr⟩ : ∃ r, s.recs[requestId - 1]? = some r :=
      ⟨_, List.getElem?_eq_getElem (by omega)⟩
    have hid := h.id_eq hr
    have hkept := h.kept_eq_some.2 ⟨List.mem_of_getElem? hr, (by omega : r.id = requestId)⟩
    rw [hr, hkept]
  · have hfull : s.recs.length = netRecCap := by
      rcases h.full with hfull | ⟨hcount, hle⟩
      · exact hfull
      · omega
    by_cases hbeyond : netRecCap < requestId
    · have hnone : s.recs[requestId - 1]? = none := List.getElem?_eq_none (by omega)
      rw [hnone]
      constructor
      · intro hkept
        refine Or.inr ⟨hbeyond, ?_⟩
        by_contra hle
        obtain ⟨r, hr⟩ : ∃ r, s.recs[requestId - (s.nextId - s.recs.length)]? = some r :=
          ⟨_, List.getElem?_eq_getElem (by omega)⟩
        have hid := h.id_eq hr
        have hkept' := h.kept_eq_some.2
          ⟨List.mem_of_getElem? hr, (by omega : r.id = requestId)⟩
        rw [hkept'] at hkept
        cases hkept
      · rintro (hle | ⟨-, hgone⟩)
        · exact absurd hle hfirst
        · symm
          rw [Option.eq_none_iff_forall_ne_some]
          intro r hkept
          obtain ⟨hr, hid⟩ := h.kept_eq_some.1 hkept
          have hbounds := h.bounds hr
          omega
    · -- the position holds the record of a later request
      refine iff_of_false ?_ ?_
      · obtain ⟨r, hr⟩ : ∃ r, s.recs[requestId - 1]? = some r :=
          ⟨_, List.getElem?_eq_getElem (by omega)⟩
        have hid := h.id_eq hr
        rw [hr]
        intro hkept
        have hown := (h.kept_eq_some.1 hkept.symm).2
        omega
      · rintro (hle | ⟨hlt, -⟩)
        · exact hfirst hle
        · exact hbeyond hlt

end NetPanel

/-- The panel is consistent after a history exactly if every reported request can be
reached at its position. -/
theorem consistent_iff_reachable (steps : List NetStep) :
    (netRun steps).Consistent ↔
      ∀ e ∈ (netRun steps).sent, (netRun steps).panel.Reachable e.requestId := by
  have hinv : (netRun steps).Inv := NetRun.Inv.start.run steps
  have hiff : ∀ e ∈ (netRun steps).sent,
      ((netRun steps).panel.recordOf (decimal e.requestId) =
        (netRun steps).panel.kept e.requestId ↔
      (netRun steps).panel.Reachable e.requestId) := by
    intro e he
    obtain ⟨hpos, hlt⟩ := hinv.sent e he
    exact hinv.numbered.recordOf_iff hpos (Nat.lt_of_lt_of_le hlt hinv.flushed)
  constructor
  · exact fun h e he => (hiff e he).1 (h.own e he)
  · exact fun h => ⟨hinv.once, fun e he => (hiff e he).2 (h e he)⟩

/-- A record whose response says which it is. -/
def numberedRecord (n : Nat) : NetRecord where
  method := ascii "GET"
  url := ascii "http://a/"
  reqBody := none
  status := 200
  respBody := some (decimal n)
  respBodyLen := (decimal n).length
  mime := ascii "text/html"

/-- Two records are reported, and 255 more come. -/
def twoReported : List NetStep :=
  [.enable, .add (numberedRecord 1), .add (numberedRecord 2), .flush] ++
    (List.range 255).map fun n => .add (numberedRecord (n + 3))

/-- The body of each of them is the number under which it is kept. -/
theorem numbered_bodies (k : Nat) :
    let s := netRun ([.enable, .add (numberedRecord 1), .add (numberedRecord 2), .flush] ++
      (List.range k).map fun n => .add (numberedRecord (n + 3)))
    s.panel.nextId = k + 3 ∧
      ∀ r ∈ s.panel.recs, r.respBody = some (decimal r.id) ∧ r.mime = ascii "text/html" := by
  induction k with
  | zero => decide
  | succ k ih =>
    obtain ⟨hnext, hbodies⟩ := ih
    dsimp only at hnext hbodies ⊢
    rw [List.range_succ, List.map_append, ← List.append_assoc, netRun, List.foldl_append,
      ← netRun, List.map_singleton, List.foldl_cons, List.foldl_nil, NetRun.step]
    dsimp only
    refine ⟨by rw [NetPanel.miniNetRecordAdd, hnext], fun r hr => ?_⟩
    rcases NetPanel.mem_add hr with hr | rfl
    · exact hbodies r hr
    · rw [hnext]
      exact ⟨rfl, rfl⟩

/-- With the 257th record the body of the second request is that of the third. -/
theorem second_body_of_third :
    (netRun twoReported).panel.getResponseBody (ascii "2") =
        .body (ascii "3") (ascii "text/html") ∧
      ¬ (netRun twoReported).Consistent := by
  have hinv : (netRun twoReported).Inv := NetRun.Inv.start.run twoReported
  obtain ⟨hnext, hbodies⟩ : (netRun twoReported).panel.nextId = 258 ∧
      ∀ r ∈ (netRun twoReported).panel.recs,
        r.respBody = some (decimal r.id) ∧ r.mime = ascii "text/html" :=
    numbered_bodies 255
  constructor
  · generalize netRun twoReported = s at hinv hnext hbodies ⊢
    have hlength : s.panel.recs.length = 256 := by
      rcases hinv.numbered.full with hfull | ⟨hcount, hle⟩
      · exact hfull
      · have hcap : netRecCap = 256 := rfl
        omega
    obtain ⟨r, hr⟩ : ∃ r, s.panel.recs[1]? = some r := ⟨_, List.getElem?_eq_getElem (by omega)⟩
    have hid : r.id = 3 := by
      rw [hinv.numbered.id_eq hr, hnext, hlength]
    obtain ⟨hbody, hmime⟩ := hbodies r (List.mem_of_getElem? hr)
    have htwo : ascii "2" = decimal 2 := by decide
    have hthree : ascii "3" = decimal 3 := by decide
    have hfound : s.panel.recordOf (decimal 2) = some r :=
      (NetPanel.recordOf_decimal (by decide)).trans hr
    have hsent : r.sentMime = ascii "text/html" := by
      rw [NetRecord.sentMime, hmime]
      decide
    rw [htwo, hthree, NetPanel.getResponseBody, hfound]
    dsimp only
    rw [hbody, hid, hsent]
    rfl
  · intro h
    have hown := h.own (.loadingFinished 2 1) (by decide)
    rcases (hinv.numbered.recordOf_iff (by decide) (by rw [hnext]; decide)).1 hown with hle | ⟨hlt, -⟩
    · rw [hnext] at hle
      exact absurd hle (by decide)
    · exact absurd hlt (by decide)

end TinyFramework.Cdp
