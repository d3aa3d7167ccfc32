/-
  Cdp/Frames.lean --- frames of the inspector.

  One client, behind the handshake; what follows the request head is already in `rx`.  The header
  is that of `mini_ws_decode_frame`.  What `cdp_handle` does is left open: it is given a C string,
  and may drop the client.  `frag_op` is never read, and what is sent back is left out.

  A frame is read as it is meant to be if its length does not wrap, and then the messages are those
  of the stream as long as the server knows which message is under way: it takes `frag_len` for
  that, and forgets a message that grows too long before its last fragment.
-/
import TinyFramework.Net.WsMessages

set_option autoImplicit false

namespace TinyFramework.Cdp

open TinyFramework.Foundation TinyFramework.Net

/-- `CDP_BUF` -/
def cdpBuf : Nat := 65536

/-- `CDP_MAX_FRAG` -/
def cdpMaxFrag : Nat := 4 * 1024 * 1024

/-! ## A client -/

/-- `CDPClient`; `handled` are the messages that `cdp_handle` was called with, and `removed` is `rx`
in front of each frame that was reported and behind it. -/
structure CdpClient where
  connected : Bool
  rx : Bytes
  rx_le : rx.length ≤ cdpBuf - 1
  frag : Bytes
  fragCap : Nat
  frag_le : frag.length ≤ fragCap
  handled : List Bytes
  removed : List (Bytes × Bytes)

theorem noFrag_le : ([] : Bytes).length ≤ 0 := Nat.zero_le _

/-- A client behind the handshake. -/
def upgraded : CdpClient :=
  { connected := true, rx := [], rx_le := Nat.zero_le _, frag := [], fragCap := 0
    frag_le := noFrag_le, handled := [], removed := [] }

/-- The message under way, reset. -/
def CdpClient.resetFrag (c : CdpClient) : CdpClient :=
  { c with frag := [], frag_le := Nat.zero_le _ }

/-- `cdp_drop_client` -/
def cdpDropClient (c : CdpClient) : CdpClient :=
  { c with
    connected := false
    rx := []
    rx_le := Nat.zero_le _
    frag := []
    frag_le := Nat.zero_le _ }

/-! ## `ws_decode_one` -/

/-- `memmove` of what stands behind a frame of `total` bytes. -/
def CdpClient.shift (c : CdpClient) (total : Nat) : CdpClient :=
  { c with
    rx := c.rx.drop total
    rx_le := (List.length_drop ▸ Nat.sub_le _ _ : (c.rx.drop total).length ≤ _).trans c.rx_le
    removed := c.removed ++ [(c.rx, c.rx.drop total)] }

/-- `ws_decode_one`; a close frame is -2, and no other frame is less than 0. -/
def wsDecodeOne (c : CdpClient) : Except WsStop (WsFrame × CdpClient) := do
  let head ← wsHead c.rx
  if head.masked = true ∧ c.rx.length < head.hlen then throw .more
  if c.rx.length < (head.hlen + head.plen) % 2 ^ 64 then throw .more
  let n := if head.plen < cdpBuf - 1 then head.plen else cdpBuf - 1
  let p ← unmask c.rx head n 0
  return (⟨head.opcode, head.fin, p⟩, c.shift ((head.hlen + head.plen) % 2 ^ 64))

/-! ## Messages -/

/-- The size that `frag` grows to. -/
def grownCap (need cap : Nat) : Nat :=
  min (doubleTo need (if cap = 0 then 65536 else cap)) cdpMaxFrag

theorem le_grownCap {need cap : Nat} (hneed : need ≤ cdpMaxFrag) : need ≤ grownCap need cap := by
  refine le_min (le_doubleTo ?_) hneed
  split_ifs with h
  · decide
  · exact h

/-- `cdp_frag_append`, and whether it returns 0. -/
def cdpFragAppend (alloc : Nat → Bool) (c : CdpClient) (payload : Bytes) : CdpClient × Bool :=
  if h : cdpMaxFrag < payload.length ∨ cdpMaxFrag < c.frag.length + payload.length then
    (c.resetFrag, false)
  else if hcap : c.fragCap < c.frag.length + payload.length then
    let nc := grownCap (c.frag.length + payload.length) c.fragCap
    if alloc nc = false then (c.resetFrag, false)
    else
      ({ c with
          frag := c.frag ++ payload
          fragCap := nc
          frag_le := by
            rw [List.length_append]
            exact le_grownCap (Nat.le_of_not_lt fun hlt => h (Or.inr hlt)) }, true)
  else
    ({ c with
        frag := c.frag ++ payload
        frag_le := by
          rw [List.length_append]
          exact Nat.le_of_not_lt hcap }, true)

/-- `cdp_handle`, which may drop the client. -/
def cdpHandle (keeps : List Bytes → Bool) (c : CdpClient) (msg : Bytes) : CdpClient :=
  let c := { c with handled := c.handled ++ [cString msg] }
  if keeps c.handled then c else cdpDropClient c

/-- The body of the frame loop, behind `ws_decode_one`. -/
def cdpFrame (alloc : Nat → Bool) (keeps : List Bytes → Bool) (c : CdpClient) (f : WsFrame) :
    CdpClient :=
  if f.opcode = 9 ∨ f.opcode = 10 then c
  else if f.fin = false then
    (cdpFragAppend alloc (if f.opcode = 1 ∨ f.opcode = 2 then c.resetFrag else c) f.payload).1
  else if 0 < c.frag.length ∧ f.opcode = 0 then
    match cdpFragAppend alloc c f.payload with
    | (c, true) =>
        let msg := if alloc (c.frag.length + 1) then c.frag else f.payload
        cdpHandle keeps c.resetFrag msg
    | (c, false) => c
  else cdpHandle keeps c.resetFrag f.payload

/-- Why the frame loop ends. -/
inductive CdpEnd where
  /-- -1 -/
  | more
  /-- -2 -/
  | close
  /-- the client is dropped -/
  | gone
  deriving DecidableEq, Repr

/-- The WebSocket frame loop.  There is no result if a byte outside of `rx` is read. -/
def frameLoop (alloc : Nat → Bool) (keeps : List Bytes → Bool) :
    Nat → CdpClient → Option (CdpClient × CdpEnd)
  | 0, c => some (c, .more)
  | fuel + 1, c =>
      match wsDecodeOne c with
      | .error .outside => none
      | .error _ => some (c, .more)
      | .ok (f, c) =>
          if f.opcode = 8 then some (c, .close)
          else
            let c := cdpFrame alloc keeps c f
            if c.connected = false then some (c, .gone) else frameLoop alloc keeps fuel c

/-! ## `mini_cdp_poll` -/

/-- A poll behind the handshake, when the socket is read. -/
def cdpService (alloc : Nat → Bool) (keeps : List Bytes → Bool) (c : CdpClient) :
    Option CdpClient :=
  if c.rx.length = 0 then some c
  else
    match frameLoop alloc keeps c.rx.length c with
    | none => none
    | some (c, .close) => some (cdpDropClient c)
    | some (c, .more) => some (if cdpBuf - 1 ≤ c.rx.length then cdpDropClient c else c)
    | some (c, .gone) => some c

/-- What arrives for a poll; `ends` says that `recv` gives 0 or an error when all is read. -/
structure CdpPoll where
  arrives : Bytes
  ends : Bool

/-- A client with the bytes that have arrived and were not read. -/
structure CdpLine where
  client : CdpClient
  unread : Bytes

/-- What `recv` gives for the room there is, behind what is in `rx`. -/
def CdpClient.hear (c : CdpClient) (incoming : Bytes) : CdpClient :=
  { c with
    rx := c.rx ++ incoming.take (cdpBuf - 1 - c.rx.length)
    rx_le := by
      have hrx := c.rx_le
      rw [List.length_append, List.length_take]
      omega }

/-- `mini_cdp_poll`, for one client. -/
def cdpPoll (alloc : Nat → Bool) (keeps : List Bytes → Bool) (line : Option CdpLine)
    (p : CdpPoll) : Option CdpLine := do
  let ⟨c, unread⟩ ← line
  let incoming := unread ++ p.arrives
  if c.connected = false then return ⟨c, incoming⟩
  if 0 < cdpBuf - 1 - c.rx.length then
    if incoming = [] then
      if p.ends then return ⟨cdpDropClient c, []⟩
      return ⟨← cdpService alloc keeps c, []⟩
    return ⟨← cdpService alloc keeps (c.hear incoming),
      incoming.drop (cdpBuf - 1 - c.rx.length)⟩
  return ⟨← cdpService alloc keeps c, incoming⟩

/-- Any number of polls. -/
def cdpPolls (alloc : Nat → Bool) (keeps : List Bytes → Bool) (polls : List CdpPoll) :
    Option CdpLine :=
  polls.foldl (cdpPoll alloc keeps) (some { client := upgraded, unread := [] })

/-! ## What the stream says -/

/-- The bytes that arrive. -/
def clientStream (polls : List CdpPoll) : Bytes := polls.flatMap CdpPoll.arrives

/-- A frame that is removed whole: header and payload are counted with numbers. -/
def RemovedWhole (rx rest : Bytes) : Prop :=
  ∃ head, wsHead rx = .ok head ∧ head.hlen + head.plen ≤ rx.length ∧
    rest = rx.drop (head.hlen + head.plen)

/-- A message of the frames of a stream: all its fragments, from the first one, of opcode 1 or 2, to
the one with FIN. -/
def MessageOf (stream msg : Bytes) : Prop :=
  ∃ fs rest, wsFraming.Passed stream fs rest ∧
    ∃ before cut after, fs.map WsFrame.piece = before ++ (CutMessage.pieces cut ++ after) ∧
      cut.whole.2 = msg

/-- Behind every poll: nothing outside of `rx` was read, every frame was removed whole, and every
message that was handled is a message of the stream. -/
def CdpLaw (alloc : Nat → Bool) (keeps : List Bytes → Bool) (polls : List CdpPoll) : Prop :=
  ∀ pre post, polls = pre ++ post →
    ∃ line, cdpPolls alloc keeps pre = some line ∧
      (∀ r ∈ line.client.removed, RemovedWhole r.1 r.2) ∧
      ∀ msg ∈ line.client.handled, MessageOf (clientStream pre) msg

/-! ## One frame off the buffer -/

theorem takeFrame_none_of_error {b : Bytes} {e : WsStop} (h : wsHead b = .error e) :
    takeFrame b = none := by
  unfold takeFrame
  rw [h]

theorem takeFrame_none_of_short {b : Bytes} {head : WsHead} (hhead : wsHead b = .ok head)
    (hshort : b.length < head.hlen + head.plen) : takeFrame b = none := by
  unfold takeFrame
  rw [hhead]
  exact if_neg (Nat.not_le_of_lt hshort)

theorem wsDecodeOne_head {c : CdpClient} {head : WsHead} (hhead : wsHead c.rx = .ok head)
    (hwrap : head.hlen + head.plen < 2 ^ 64) :
    wsDecodeOne c =
      if c.rx.length < head.hlen + head.plen then .error .more
      else .ok (head.frame c.rx, c.shift (head.hlen + head.plen)) := by
  have hsized := wsHead_sized hhead
  have hrx := c.rx_le
  unfold wsDecodeOne
  rw [hhead]
  simp only [bind, Except.bind]
  rw [Nat.mod_eq_of_lt hwrap]
  by_cases hshort : c.rx.length < head.hlen + head.plen
  · rw [if_pos hshort, if_pos hshort]
    by_cases hmask : head.masked = true ∧ c.rx.length < head.hlen
    · rw [if_pos hmask]
      rfl
    · rw [if_neg hmask]
      rfl
  · have hsmall : head.plen < cdpBuf - 1 := by
      have hpos := hsized.pos
      omega
    rw [if_neg hshort, if_neg (by omega), if_neg hshort, if_pos hsmall,
      unmask_inside hsized.mask (by omega)]
    simp [pure, Except.pure, WsHead.frame]

/-- Without a length that wraps, the decoder takes the frame that is there. -/
theorem wsDecodeOne_cases {c : CdpClient}
    (hwrap : ∀ head, wsHead c.rx = .ok head → head.hlen + head.plen < 2 ^ 64) :
    (wsDecodeOne c = .error .more ∧ takeFrame c.rx = none) ∨
      ∃ f total, wsDecodeOne c = .ok (f, c.shift total) ∧
        takeFrame c.rx = some (f, c.rx.drop total) ∧ RemovedWhole c.rx (c.rx.drop total) ∧
        0 < total ∧ total ≤ c.rx.length ∧ f.payload.length ≤ cdpBuf := by
  cases hhead : wsHead c.rx with
  | error e =>
    obtain ⟨rfl, -⟩ := wsHead_short hhead
    refine Or.inl ⟨?_, takeFrame_none_of_error hhead⟩
    unfold wsDecodeOne
    rw [hhead]
    rfl
  | ok head =>
    rw [wsDecodeOne_head hhead (hwrap head hhead)]
    rcases Nat.lt_or_ge c.rx.length (head.hlen + head.plen) with hshort | hle
    · exact Or.inl ⟨if_pos hshort, takeFrame_none_of_short hhead hshort⟩
    · have hpos := (wsHead_sized hhead).pos
      refine Or.inr ⟨_, _, if_neg (Nat.not_lt_of_le hle), takeFrame_of_head hhead hle,
        ⟨head, hhead, hle, rfl⟩, by omega, hle, ?_⟩
      have hrx := c.rx_le
      rw [WsHead.frame, List.length_mapIdx, List.length_take]
      omega

/-! ## One frame of a message -/

/-- What has come of the message under way. -/
def held : UnderWay Nat UInt8 → Bytes
  | none => []
  | some m => m.2

/-- The messages that some frames complete, without those that are too long. -/
def wholeMessages (s : UnderWay Nat UInt8) (fs : List WsFrame) : List Bytes :=
  ((s.messages (fs.map WsFrame.piece)).map Prod.snd).filter fun m => decide (m.length ≤ cdpMaxFrag)

/-- What keeps a frame clear of the faults of the loop, with the message that is under way in the
stream: an opcode that means something, no continuation of nothing, no message that is too long
before its last fragment, and no NUL. -/
structure FrameSafe (s : UnderWay Nat UInt8) (f : WsFrame) : Prop where
  known : f.opcode ≤ 2 ∨ f.opcode = 8 ∨ f.opcode = 9 ∨ f.opcode = 10
  started : f.opcode = 0 → s ≠ none
  fits : f.opcode = 0 → f.fin = false → (held s).length + f.payload.length ≤ cdpMaxFrag
  text : f.opcode ≤ 2 → 0 ∉ f.payload

/-- What `cdp_frag_append` does with memory at hand. -/
theorem cdpFragAppend_fits {alloc : Nat → Bool} (halloc : ∀ n, alloc n = true) (c : CdpClient)
    (payload : Bytes) (hfits : c.frag.length + payload.length ≤ cdpMaxFrag) :
    ∃ cap hle, cdpFragAppend alloc c payload =
      ({ c with frag := c.frag ++ payload, fragCap := cap, frag_le := hle }, true) := by
  unfold cdpFragAppend
  rw [dif_neg (by omega)]
  by_cases hcap : c.fragCap < c.frag.length + payload.length
  · rw [dif_pos hcap, if_neg (by simp [halloc])]
    exact ⟨_, _, rfl⟩
  · rw [dif_neg hcap]
    exact ⟨_, _, rfl⟩

theorem cdpFragAppend_over (alloc : Nat → Bool) (c : CdpClient) {payload : Bytes}
    (hover : cdpMaxFrag < c.frag.length + payload.length) :
    cdpFragAppend alloc c payload = (c.resetFrag, false) := by
  unfold cdpFragAppend
  rw [dif_pos (Or.inr hover)]

theorem cdpHandle_spec (keeps : List Bytes → Bool) (c : CdpClient) (msg : Bytes) :
    (cdpHandle keeps c msg).removed = c.removed ∧
      (cdpHandle keeps c msg).handled = c.handled ++ [cString msg] ∧
      ((cdpHandle keeps c msg).connected = true →
        (cdpHandle keeps c msg).rx = c.rx ∧ (cdpHandle keeps c msg).frag = c.frag) := by
  unfold cdpHandle
  dsimp only
  split_ifs
  · exact ⟨rfl, rfl, fun _ => ⟨rfl, rfl⟩⟩
  · exact ⟨rfl, rfl, fun h => nomatch h⟩

/-- The client behind a frame, when it held `s` in front of it. -/
structure Took (c : CdpClient) (s : UnderWay Nat UInt8) (f : WsFrame) (c' : CdpClient) : Prop where
  removed : c'.removed = c.removed
  handled : c'.handled = c.handled ++ wholeMessages s [f]
  going : c'.connected = true →
    c'.rx = c.rx ∧ c'.frag = held (s.next f.piece) ∧ 0 ∉ c'.frag

theorem wholeMessages_done {s : UnderWay Nat UInt8} {f : WsFrame} {kind : Nat} {msg : Bytes}
    (h : s.done f.piece = some (kind, msg)) :
    wholeMessages s [f] = if msg.length ≤ cdpMaxFrag then [msg] else [] := by
  simp [wholeMessages, UnderWay.messages, h, List.filter_cons]

theorem wholeMessages_none {s : UnderWay Nat UInt8} {f : WsFrame} (h : s.done f.piece = none) :
    wholeMessages s [f] = [] := by
  simp [wholeMessages, UnderWay.messages, h]

/-- The last fragment of a message goes to `cdp_handle` with what is in front of it. -/
theorem Took.handle {keeps : List Bytes → Bool} {c : CdpClient} {s : UnderWay Nat UInt8}
    {f : WsFrame} {kind : Nat} {msg : Bytes} (hdone : s.done f.piece = some (kind, msg))
    (hnext : s.next f.piece = none) (hle : msg.length ≤ cdpMaxFrag) (htext : 0 ∉ msg)
    {c₀ : CdpClient} (hfrag : c₀.frag = []) (hrx : c₀.rx = c.rx) (hremoved : c₀.removed = c.removed)
    (hhandled : c₀.handled = c.handled) : Took c s f (cdpHandle keeps c₀ msg) := by
  obtain ⟨hremoved', hhandled', hgoing⟩ := cdpHandle_spec keeps c₀ msg
  refine ⟨hremoved'.trans hremoved, ?_, fun hconnected => ?_⟩
  · rw [hhandled', hhandled, cString_eq_self_iff.2 htext, wholeMessages_done hdone, if_pos hle]
  · obtain ⟨hrx', hfrag'⟩ := hgoing hconnected
    rw [hfrag', hfrag, hnext]
    exact ⟨hrx'.trans hrx, rfl, List.not_mem_nil⟩

/-- A frame that ends no message leaves what is under way behind it. -/
theorem Took.keep {c c' : CdpClient} {s : UnderWay Nat UInt8} {f : WsFrame}
    (hdone : s.done f.piece = none) (hfrag : c'.frag = held (s.next f.piece)) (hclean : 0 ∉ c'.frag)
    (hrx : c'.rx = c.rx) (hremoved : c'.removed = c.removed) (hhandled : c'.handled = c.handled) :
    Took c s f c' := by
  refine ⟨hremoved, ?_, fun _ => ⟨hrx, hfrag, hclean⟩⟩
  rw [hhandled, wholeMessages_none hdone, List.append_nil]

section Frame

variable {alloc : Nat → Bool} (halloc : ∀ n, alloc n = true) (keeps : List Bytes → Bool)
  {c : CdpClient} {s : UnderWay Nat UInt8} {f : WsFrame}

theorem cdpFrame_control (hfrag : c.frag = held s) (hclean : 0 ∉ c.frag)
    (hop : f.opcode = 9 ∨ f.opcode = 10) : Took c s f (cdpFrame alloc keeps c f) := by
  have haside : f.piece = .aside := by
    unfold WsFrame.piece
    rw [if_neg (by omega), if_neg (by omega)]
  unfold cdpFrame
  rw [if_pos hop]
  refine Took.keep ?_ ?_ hclean rfl rfl rfl
  · rw [haside]
    rfl
  · rw [haside]
    exact hfrag

include halloc

/-- The first fragment of a message, or all of it. -/
theorem cdpFrame_first (htext : 0 ∉ f.payload) (hlength : f.payload.length ≤ cdpMaxFrag)
    (hfirst : f.opcode = 1 ∨ f.opcode = 2) : Took c s f (cdpFrame alloc keeps c f) := by
  have hpiece : f.piece = .first f.opcode f.fin f.payload := if_pos hfirst
  unfold cdpFrame
  rw [if_neg (by omega)]
  cases hfin : f.fin with
  | false =>
    rw [hfin] at hpiece
    obtain ⟨cap, hle, happend⟩ := cdpFragAppend_fits halloc c.resetFrag f.payload
      (by simpa [CdpClient.resetFrag] using hlength)
    rw [if_pos rfl, if_pos hfirst, happend]
    refine Took.keep ?_ ?_ (by simpa [CdpClient.resetFrag] using htext) rfl rfl rfl
    · rw [hpiece]
      rfl
    · rw [hpiece]
      rfl
  | true =>
    rw [hfin] at hpiece
    rw [if_neg (by simp), if_neg (by omega)]
    exact Took.handle (by rw [hpiece]; rfl) (by rw [hpiece]; rfl) hlength htext rfl rfl rfl rfl

/-- A fragment in the middle of a message is appended. -/
theorem cdpFrame_further {kind : Nat} (hclean : 0 ∉ c.frag ++ f.payload) (hzero : f.opcode = 0)
    (hfin : f.fin = false) (hfits : c.frag.length + f.payload.length ≤ cdpMaxFrag) :
    Took c (some (kind, c.frag)) f (cdpFrame alloc keeps c f) := by
  have hfirst : ¬ (f.opcode = 1 ∨ f.opcode = 2) := by omega
  have hpiece : f.piece = .further false f.payload := by
    unfold WsFrame.piece
    rw [if_neg hfirst, if_pos hzero, hfin]
  obtain ⟨cap, hle, happend⟩ := cdpFragAppend_fits halloc c f.payload hfits
  unfold cdpFrame
  rw [if_neg (by omega), hfin, if_pos rfl, if_neg hfirst, happend]
  refine Took.keep ?_ ?_ hclean rfl rfl rfl
  · rw [hpiece]
    rfl
  · rw [hpiece]
    rfl

/-- The last fragment ends the message, or one that is too long. -/
theorem cdpFrame_last {kind : Nat} (hclean : 0 ∉ c.frag ++ f.payload) (hzero : f.opcode = 0)
    (hfin : f.fin = true) (hlength : f.payload.length ≤ cdpMaxFrag) :
    Took c (some (kind, c.frag)) f (cdpFrame alloc keeps c f) := by
  have hpiece : f.piece = .further true f.payload := by
    unfold WsFrame.piece
    rw [if_neg (by omega), if_pos hzero, hfin]
  have hdone : UnderWay.done (some (kind, c.frag)) f.piece =
      some (kind, c.frag ++ f.payload) := by
    rw [hpiece]
    rfl
  have hnext : UnderWay.next (some (kind, c.frag)) f.piece = none := by
    rw [hpiece]
    rfl
  unfold cdpFrame
  rw [if_neg (by omega), hfin, if_neg (by simp)]
  by_cases hheld : 0 < c.frag.length
  · rw [if_pos ⟨hheld, hzero⟩]
    rcases Nat.lt_or_ge cdpMaxFrag (c.frag.length + f.payload.length) with hover | hfits
    -- the message is too long, and is forgotten with its last fragment
    · rw [cdpFragAppend_over alloc c hover]
      refine ⟨rfl, ?_, fun _ => ⟨rfl, ?_, List.not_mem_nil⟩⟩
      · rw [wholeMessages_done hdone, if_neg, List.append_nil]
        · rfl
        · rw [List.length_append]
          omega
      · rw [hnext]
        rfl
    · obtain ⟨cap, hle, happend⟩ := cdpFragAppend_fits halloc c _ hfits
      rw [happend]
      dsimp only
      rw [halloc, if_pos rfl]
      refine Took.handle hdone hnext ?_ hclean rfl rfl rfl rfl
      rw [List.length_append]
      exact hfits
  -- the fragments so far were empty, and the loop does not know of them
  · have hnil : c.frag = [] := List.length_eq_zero_iff.1 (by omega)
    rw [if_neg fun h => hheld h.1]
    rw [hnil, List.nil_append] at hclean
    rw [hnil] at hdone hnext ⊢
    exact Took.handle hdone hnext hlength hclean rfl rfl rfl rfl

/-- A frame of a message does with the client what it does with the message under way. -/
theorem cdpFrame_took (hfrag : c.frag = held s) (hclean : 0 ∉ c.frag) (hsafe : FrameSafe s f)
    (hclose : f.opcode ≠ 8) (hlength : f.payload.length ≤ cdpBuf) :
    Took c s f (cdpFrame alloc keeps c f) := by
  have hfits : f.payload.length ≤ cdpMaxFrag := hlength.trans (by decide)
  rcases Nat.lt_or_ge 2 f.opcode with hcontrol | hdata
  · refine cdpFrame_control keeps hfrag hclean ?_
    rcases hsafe.known with h | h | h | h
    · omega
    · exact absurd h hclose
    · exact Or.inl h
    · exact Or.inr h
  have htext := hsafe.text hdata
  by_cases hfirst : f.opcode = 1 ∨ f.opcode = 2
  · exact cdpFrame_first halloc keeps htext hfits hfirst
  have hzero : f.opcode = 0 := by omega
  obtain ⟨⟨kind, got⟩, rfl⟩ := Option.ne_none_iff_exists'.1 (hsafe.started hzero)
  obtain rfl : c.frag = got := hfrag
  have hboth : 0 ∉ c.frag ++ f.payload := by simpa using ⟨hclean, htext⟩
  cases hfin : f.fin with
  | false => exact cdpFrame_further halloc keeps hboth hzero hfin (hsafe.fits hzero hfin)
  | true => exact cdpFrame_last halloc keeps hboth hzero hfin hfits

end Frame

/-! ## The frame loop -/

/-- What keeps a stream clear of the faults, up to its first close frame: no declared length wraps,
and every frame is safe where it stands. -/
def StreamSafe (stream : Bytes) : Prop :=
  ∀ fs rest, wsFraming.Passed stream fs rest → (∀ f ∈ fs, f.opcode ≠ 8) →
    (∀ head, wsHead rest = .ok head → head.hlen + head.plen < 2 ^ 64) ∧
      ∀ f rest', takeFrame rest = some (f, rest') →
        FrameSafe (UnderWay.behind none (fs.map WsFrame.piece)) f

/-- A client goes on behind some frames of the stream. -/
structure Going (stream : Bytes) (c : CdpClient) (unread : Bytes) : Prop where
  at_frame : ∃ fs, wsFraming.Passed stream fs (c.rx ++ unread) ∧ (∀ f ∈ fs, f.opcode ≠ 8) ∧
    c.handled = wholeMessages none fs ∧
    c.frag = held (UnderWay.behind none (fs.map WsFrame.piece)) ∧ 0 ∉ c.frag

/-- What a client has done so far is in order. -/
structure InOrder (stream : Bytes) (c : CdpClient) : Prop where
  removed : ∀ r ∈ c.removed, RemovedWhole r.1 r.2
  handled : ∃ fs rest, wsFraming.Passed stream fs rest ∧ c.handled = wholeMessages none fs

theorem wholeMessages_snoc (s : UnderWay Nat UInt8) (fs : List WsFrame) (f : WsFrame) :
    wholeMessages s (fs ++ [f]) =
      wholeMessages s fs ++ wholeMessages (s.behind (fs.map WsFrame.piece)) [f] := by
  simp [wholeMessages, UnderWay.messages_append]

theorem behind_snoc (s : UnderWay Nat UInt8) (fs : List WsFrame) (f : WsFrame) :
    s.behind ((fs ++ [f]).map WsFrame.piece) = (s.behind (fs.map WsFrame.piece)).next f.piece := by
  rw [List.map_append, UnderWay.behind_append]
  rfl

theorem InOrder.shift {stream : Bytes} {c : CdpClient} (h : InOrder stream c) {total : Nat}
    (hwhole : RemovedWhole c.rx (c.rx.drop total)) : InOrder stream (c.shift total) := by
  refine ⟨fun r hr => ?_, h.handled⟩
  rcases List.mem_append.1 hr with hr | hr
  · exact h.removed r hr
  · rw [List.mem_singleton.1 hr]
    exact hwhole

/-- The loop keeps to the stream, and ends at the first close frame. -/
theorem frameLoop_spec {alloc : Nat → Bool} (halloc : ∀ n, alloc n = true)
    (keeps : List Bytes → Bool) {stream unread : Bytes} (hsafe : StreamSafe stream) (fuel : Nat)
    {c : CdpClient} (horder : InOrder stream c) (hgoing : Going stream c unread) :
    ∃ c' e, frameLoop alloc keeps fuel c = some (c', e) ∧ InOrder stream c' ∧
      (e ≠ .close → c'.connected = true → Going stream c' unread) := by
  induction fuel generalizing c with
  | zero => exact ⟨c, .more, rfl, horder, fun _ _ => hgoing⟩
  | succ fuel ih =>
    obtain ⟨fs, hpassed, hopen, hhandled, hfrag, hclean⟩ := hgoing.at_frame
    obtain ⟨hwrap, hframe⟩ := hsafe fs _ hpassed hopen
    rw [frameLoop]
    rcases wsDecodeOne_cases fun head hhead => hwrap head (wsHead_append hhead unread) with
      ⟨hdecode, -⟩ | ⟨f, total, hdecode, htake, hwhole, -, -, hlength⟩
    · rw [hdecode]
      exact ⟨c, .more, rfl, horder, fun _ _ => hgoing⟩
    · rw [hdecode]
      dsimp only
      have htake' : wsFraming.take (c.rx ++ unread) = some (f, c.rx.drop total ++ unread) :=
        wsFraming.append htake unread
      by_cases hclose : f.opcode = 8
      · rw [if_pos hclose]
        exact ⟨_, .close, rfl, horder.shift hwhole, fun hne => absurd rfl hne⟩
      · rw [if_neg hclose]
        have htook := cdpFrame_took halloc keeps (c := c.shift total) hfrag hclean
          (hframe f _ htake') hclose hlength
        generalize cdpFrame alloc keeps (c.shift total) f = c' at htook ⊢
        have hpassed' := hpassed.snoc htake'
        have hhandled' : c'.handled = wholeMessages none (fs ++ [f]) := by
          rw [htook.handled, wholeMessages_snoc, ← hhandled]
          rfl
        have horder' : InOrder stream c' := by
          refine ⟨?_, fs ++ [f], _, hpassed', hhandled'⟩
          rw [htook.removed]
          exact (horder.shift hwhole).removed
        by_cases hgone : c'.connected = false
        · rw [if_pos hgone]
          exact ⟨c', .gone, rfl, horder', fun _ hon => by rw [hgone] at hon; cases hon⟩
        · rw [if_neg hgone]
          obtain ⟨hrx, hfrag', hclean'⟩ := htook.going (Bool.eq_true_of_not_eq_false hgone)
          refine ih horder' ⟨fs ++ [f], ?_, ?_, hhandled', ?_, hclean'⟩
          · rw [hrx]
            exact hpassed'
          · intro g hg
            rcases List.mem_append.1 hg with hg | hg
            · exact hopen g hg
            · rw [List.mem_singleton.1 hg]
              exact hclose
          · rw [hfrag', behind_snoc]

theorem InOrder.drop {stream : Bytes} {c : CdpClient} (h : InOrder stream c) :
    InOrder stream (cdpDropClient c) :=
  ⟨h.removed, h.handled⟩

theorem cdpService_spec {alloc : Nat → Bool} (halloc : ∀ n, alloc n = true)
    (keeps : List Bytes → Bool) {stream unread : Bytes} (hsafe : StreamSafe stream)
    {c : CdpClient} (horder : InOrder stream c) (hgoing : Going stream c unread) :
    ∃ c', cdpService alloc keeps c = some c' ∧ InOrder stream c' ∧
      (c'.connected = true → Going stream c' unread) := by
  unfold cdpService
  by_cases hempty : c.rx.length = 0
  · rw [if_pos hempty]
    exact ⟨c, rfl, horder, fun _ => hgoing⟩
  · obtain ⟨c', e, hloop, horder', hgoing'⟩ :=
      frameLoop_spec halloc keeps hsafe c.rx.length horder hgoing
    rw [if_neg hempty, hloop]
    cases e with
    | close => exact ⟨_, rfl, horder'.drop, fun hon => nomatch hon⟩
    | gone => exact ⟨_, rfl, horder', hgoing' (by decide)⟩
    | more =>
      dsimp only
      split_ifs
      · exact ⟨_, rfl, horder'.drop, fun hon => nomatch hon⟩
      · exact ⟨_, rfl, horder', hgoing' (by decide)⟩

/-! ## Poll after poll -/

theorem StreamSafe.of_append {stream s : Bytes} (h : StreamSafe (stream ++ s)) :
    StreamSafe stream := by
  intro fs rest hpassed hopen
  obtain ⟨hwrap, hframe⟩ := h fs _ (hpassed.append s) hopen
  exact ⟨fun head hhead => hwrap head (wsHead_append hhead s),
    fun f rest' htake => hframe f _ (wsFraming.append htake s)⟩

theorem InOrder.append {stream : Bytes} {c : CdpClient} (h : InOrder stream c) (s : Bytes) :
    InOrder (stream ++ s) c := by
  obtain ⟨fs, rest, hpassed, hhandled⟩ := h.handled
  exact ⟨h.removed, fs, rest ++ s, hpassed.append s, hhandled⟩

theorem Going.append {stream unread : Bytes} {c : CdpClient} (h : Going stream c unread)
    (s : Bytes) : Going (stream ++ s) c (unread ++ s) := by
  obtain ⟨fs, hpassed, hrest⟩ := h.at_frame
  refine ⟨fs, ?_, hrest⟩
  rw [← List.append_assoc]
  exact hpassed.append s

theorem Going.hear {stream incoming : Bytes} {c : CdpClient} (h : Going stream c incoming) :
    Going stream (c.hear incoming) (incoming.drop (cdpBuf - 1 - c.rx.length)) := by
  obtain ⟨fs, hpassed, hrest⟩ := h.at_frame
  refine ⟨fs, ?_, hrest⟩
  rw [CdpClient.hear, List.append_assoc, List.take_append_drop]
  exact hpassed

/-- One more poll. -/
theorem cdpPoll_spec {alloc : Nat → Bool} (halloc : ∀ n, alloc n = true)
    (keeps : List Bytes → Bool) {stream : Bytes} {line : CdpLine} {p : CdpPoll}
    (hsafe : StreamSafe (stream ++ p.arrives)) (horder : InOrder stream line.client)
    (hgoing : line.client.connected = true → Going stream line.client line.unread) :
    ∃ line', cdpPoll alloc keeps (some line) p = some line' ∧
      InOrder (stream ++ p.arrives) line'.client ∧
      (line'.client.connected = true →
        Going (stream ++ p.arrives) line'.client line'.unread) := by
  have horder' := horder.append p.arrives
  unfold cdpPoll
  simp only [bind, Option.bind]
  cases hon : line.client.connected with
  | false =>
    refine ⟨_, rfl, horder', fun h => ?_⟩
    rw [hon] at h
    cases h
  | true =>
    have hgoing' := (hgoing hon).append p.arrives
    rw [if_neg (by simp)]
    by_cases hroom : 0 < cdpBuf - 1 - line.client.rx.length
    · rw [if_pos hroom]
      by_cases hnone : line.unread ++ p.arrives = []
      · rw [if_pos hnone]
        rw [hnone] at hgoing'
        cases p.ends with
        | true => exact ⟨_, rfl, horder'.drop, fun h => nomatch h⟩
        | false =>
          obtain ⟨c', hservice, hrest⟩ := cdpService_spec halloc keeps hsafe horder' hgoing'
          rw [hservice]
          exact ⟨_, rfl, hrest⟩
      · obtain ⟨c', hservice, hrest⟩ := cdpService_spec halloc keeps hsafe
          (c := line.client.hear (line.unread ++ p.arrives)) ⟨horder'.removed, horder'.handled⟩
          hgoing'.hear
        rw [if_neg hnone, hservice]
        exact ⟨_, rfl, hrest⟩
    · obtain ⟨c', hservice, hrest⟩ := cdpService_spec halloc keeps hsafe horder' hgoing'
      rw [if_neg hroom, hservice]
      exact ⟨_, rfl, hrest⟩

theorem cdpPolls_inOrder {alloc : Nat → Bool} (halloc : ∀ n, alloc n = true)
    (keeps : List Bytes → Bool) {polls : List CdpPoll} (hsafe : StreamSafe (clientStream polls)) :
    ∃ line, cdpPolls alloc keeps polls = some line ∧
      InOrder (clientStream polls) line.client ∧
      (line.client.connected = true → Going (clientStream polls) line.client line.unread) := by
  induction polls using List.reverseRecOn with
  | nil =>
    have hnone : wholeMessages none [] = [] := rfl
    refine ⟨_, rfl, ⟨fun r hr => absurd hr List.not_mem_nil, [], [], .refl _, hnone.symm⟩, ?_⟩
    exact fun _ => ⟨[], .refl _, fun f hf => absurd hf List.not_mem_nil, hnone.symm, rfl,
      List.not_mem_nil⟩
  | append_singleton polls p ih =>
    have hstream : clientStream (polls ++ [p]) = clientStream polls ++ p.arrives := by
      simp [clientStream]
    rw [hstream] at hsafe ⊢
    obtain ⟨line, hrun, horder, hgoing⟩ := ih hsafe.of_append
    obtain ⟨line', hpoll, hrest⟩ := cdpPoll_spec halloc keeps hsafe horder hgoing
    refine ⟨line', ?_, hrest⟩
    rw [cdpPolls, List.foldl_concat, ← cdpPolls, hrun]
    exact hpoll

theorem messageOf_whole {stream rest msg : Bytes} {fs : List WsFrame}
    (hpassed : wsFraming.Passed stream fs rest) (hmsg : msg ∈ wholeMessages none fs) :
    MessageOf stream msg := by
  obtain ⟨m, hm, rfl⟩ := List.mem_map.1 (List.mem_of_mem_filter hmsg)
  obtain ⟨before, cut, after, hpieces, hwhole⟩ := CutMessage.mem_messages hm
  exact ⟨fs, rest, hpassed, before, cut, after, hpieces, by rw [hwhole]⟩

/-- On a safe stream the server is right behind every poll. -/
theorem cdpPolls_law {alloc : Nat → Bool} (halloc : ∀ n, alloc n = true)
    (keeps : List Bytes → Bool) {polls : List CdpPoll} (hsafe : StreamSafe (clientStream polls)) :
    CdpLaw alloc keeps polls := by
  intro pre post hpolls
  have hpre : StreamSafe (clientStream pre) := by
    rw [hpolls, clientStream, List.flatMap_append] at hsafe
    exact hsafe.of_append
  obtain ⟨line, hrun, horder, -⟩ := cdpPolls_inOrder halloc keeps hpre
  obtain ⟨fs, rest, hpassed, hhandled⟩ := horder.handled
  exact ⟨line, hrun, horder.removed, fun msg hmsg => messageOf_whole hpassed (hhandled ▸ hmsg)⟩

/-- A text in two fragments, of which the first poll has half a header. -/
def fragmentedText : List CdpPoll :=
  [{ arrives := [0x01], ends := false },
    { arrives := [0x01, 0x78, 0x80, 0x01, 0x79], ends := false }]

theorem cdpPolls_law_text : CdpLaw (fun _ => true) (fun _ => true) fragmentedText ∧
    (cdpPolls (fun _ => true) (fun _ => true) fragmentedText).map (fun line => line.client.handled) =
      some [[0x78, 0x79]] := by
  refine ⟨cdpPolls_law (fun _ => rfl) _ fun fs rest hpassed _ => ?_, by decide +kernel⟩
  have hfirst : wsFraming.take (clientStream fragmentedText) =
      some (⟨1, false, [0x78]⟩, [0x80, 0x01, 0x79]) := rfl
  have hsecond : wsFraming.take [0x80, 0x01, 0x79] = some (⟨0, true, [0x79]⟩, []) := rfl
  rcases hpassed.of_some hfirst with ⟨rfl, rfl⟩ | ⟨further, rfl, hfurther⟩
  · have hhead : wsHead (clientStream fragmentedText) = .ok ⟨1, false, false, 1, 2⟩ := rfl
    refine ⟨fun head h => ?_, fun f rest h => ?_⟩
    · obtain rfl := Except.ok.inj (hhead.symm.trans h)
      decide
    · obtain ⟨rfl, -⟩ := Prod.mk.inj (Option.some.inj (hfirst.symm.trans h))
      exact ⟨Or.inl (by decide), (fun h => nomatch h), (fun h => nomatch h), fun _ => by decide⟩
  rcases hfurther.of_some hsecond with ⟨rfl, rfl⟩ | ⟨last, rfl, hlast⟩
  · have hhead : wsHead [0x80, 0x01, 0x79] = .ok ⟨0, true, false, 1, 2⟩ := rfl
    refine ⟨fun head h => ?_, fun f rest h => ?_⟩
    · obtain rfl := Except.ok.inj (hhead.symm.trans h)
      decide
    · obtain ⟨rfl, -⟩ := Prod.mk.inj (Option.some.inj (hsecond.symm.trans h))
      exact ⟨Or.inl (by decide), (fun _ => Option.some_ne_none _), (fun _ h => nomatch h),
        fun _ => by decide⟩
  · obtain ⟨rfl, rfl⟩ := hlast.of_none rfl
    exact ⟨(fun head h => nomatch h), fun f rest h => nomatch h⟩

/-- A continuation of nothing, with FIN: it is handled as a message. -/
theorem stray_continuation_handled :
    ¬ CdpLaw (fun _ => true) (fun _ => true)
      [{ arrives := [0x80, 0x01, 0x78], ends := false }] := by
  intro h
  obtain ⟨line, hrun, -, hmessages⟩ := h [{ arrives := [0x80, 0x01, 0x78], ends := false }] [] rfl
  have hhandled : (cdpPolls (fun _ => true) (fun _ => true)
      [{ arrives := [0x80, 0x01, 0x78], ends := false }]).map (fun line => line.client.handled) =
        some [[0x78]] := rfl
  rw [hrun] at hhandled
  have hone : line.client.handled = [[0x78]] := Option.some.inj hhandled
  rw [hone] at hmessages
  obtain ⟨fs, rest, hpassed, before, cut, after, hpieces, -⟩ :=
    hmessages [0x78] List.mem_cons_self
  have hfirst : .first cut.kind cut.tail.isEmpty cut.head.2 ∈ fs.map WsFrame.piece := by
    rw [hpieces, CutMessage.pieces]
    simp
  have htake : takeFrame [0x80, 0x01, 0x78] = some (⟨0, true, [0x78]⟩, []) := rfl
  rcases hpassed.of_some htake with ⟨rfl, -⟩ | ⟨rest', rfl, hrest⟩
  · exact absurd hfirst List.not_mem_nil
  · obtain ⟨rfl, -⟩ := hrest.of_none rfl
    cases List.mem_singleton.1 hfirst

end TinyFramework.Cdp
