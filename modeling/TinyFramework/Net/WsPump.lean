/-
  Net/WsPump.lean --- the pump of a WebSocket.

  What arrives in a call of the pump is a list of segments, with what `recv` says behind them: that
  nothing is there, that the peer has shut the connection, or an error.  `recv` takes as much of a
  segment as there is room for.  The count that the pump returns is left out, as nothing reads it.

  A call is right as long as no frame is larger than the buffer, which would fill up and be read no
  more, and as long as nothing that calls back stands behind a close frame in it: the loops look at
  the state of the connection only when the pump is called.
-/
import TinyFramework.Net.WsMessages

set_option autoImplicit false

namespace TinyFramework.Net

open TinyFramework.Foundation

/-! ## The pump -/

/-- What `recv` says when the segments of a call are read. -/
inductive WsEnding where
  /-- `EWOULDBLOCK` -/
  | quiet
  /-- 0 -/
  | shut
  /-- any other error -/
  | failed
  deriving DecidableEq, Repr

/-- What a call of the pump finds. -/
structure WsCall where
  segments : List Bytes
  ending : WsEnding

/-- `ws_fail` -/
def wsFail (ws : MiniWS) : MiniWS :=
  if ws.state = .closed then ws else { ws with state := .closed, log := ws.log ++ [.onErr] }

/-- What the pump does when there is nothing to read. -/
def WsEnding.act (ws : MiniWS) : WsEnding → MiniWS
  | .quiet => ws
  | .shut => { ws with state := .closed, log := ws.log ++ [.onClose 1000 []] }
  | .failed => wsFail ws

/-- What one `recv` gives for the room there is, and the segments behind it. -/
structure WsRead (space : Nat) where
  got : Bytes
  fits : got.length ≤ space
  rest : List Bytes

/-- `recv`; nothing when all segments are read. -/
def wsRecv (space : Nat) : List Bytes → Option (WsRead space)
  | [] => none
  | s :: rest =>
      if s = [] then wsRecv space rest
      else
        some { got := s.take space, fits := List.length_take_le _ _, rest := s.drop space :: rest }

/-- The bytes of a read behind those in `rbuf`. -/
def MiniWS.hear (ws : MiniWS) (read : WsRead (wsBufSize - ws.rbuf.length)) : MiniWS :=
  { ws with
    rbuf := ws.rbuf ++ read.got
    rlen_le := by
      have hbuf := ws.rlen_le
      have hgot := read.fits
      rw [List.length_append]
      omega }

/-- `memmove` of what stands behind the first `n` bytes. -/
def MiniWS.skip (ws : MiniWS) (n : Nat) : MiniWS :=
  { ws with
    rbuf := ws.rbuf.drop n
    rlen_le := (List.length_drop ▸ Nat.sub_le _ _ : (ws.rbuf.drop n).length ≤ _).trans ws.rlen_le }

/-- The inner loop, and whether the outer one goes on.  There is no result if a byte outside of the
buffer is read. -/
def decodeLoop (alloc : Nat → Bool) : Nat → MiniWS → Option (MiniWS × Bool)
  | 0, ws => some (ws, true)
  | fuel + 1, ws =>
      match miniWsDecodeFrame alloc ws.rbuf with
      | .error .outside => none
      | .error .more => some (ws, true)
      | .error .memory => some (wsFail ws, false)
      | .ok (f, consumed) =>
          let ws := wsHandleFrame alloc ws f
          if ws.rbuf.length ≤ consumed then some (ws.skip ws.rbuf.length, true)
          else decodeLoop alloc fuel (ws.skip consumed)

/-- The outer loop: the connection, and the segments that were not read. -/
def pumpLoop (alloc : Nat → Bool) (ending : WsEnding) :
    Nat → MiniWS → List Bytes → Option (MiniWS × List Bytes)
  | 0, ws, segments => some (ws, segments)
  | fuel + 1, ws, segments =>
      if wsBufSize - ws.rbuf.length = 0 then some (ws, segments)
      else
        match wsRecv (wsBufSize - ws.rbuf.length) segments with
        | none => some (ending.act ws, segments)
        | some read =>
            match decodeLoop alloc (ws.hear read).rbuf.length (ws.hear read) with
            | none => none
            | some (ws, false) => some (ws, read.rest)
            | some (ws, true) => pumpLoop alloc ending fuel ws read.rest

/-- The deferred `onopen`. -/
def MiniWS.dispatchOpen (ws : MiniWS) : MiniWS :=
  if ws.dispatchedOpen = false ∧ ws.state = .opened then
    { ws with dispatchedOpen := true, log := ws.log ++ [.onOpen] }
  else ws

/-- `mini_ws_pump` -/
def miniWsPump (alloc : Nat → Bool) (ending : WsEnding) (ws : MiniWS) (segments : List Bytes) :
    Option (MiniWS × List Bytes) :=
  if ws.state = .closed then some (ws, segments)
  else pumpLoop alloc ending (segments.flatten.length + 1) ws.dispatchOpen segments

/-- A connection with the segments that have arrived and were not read. -/
structure WsLine where
  ws : MiniWS
  unread : List Bytes

/-- One call of the pump. -/
def pumpCall (alloc : Nat → Bool) (line : Option WsLine) (call : WsCall) : Option WsLine := do
  let line ← line
  let (ws, unread) ← miniWsPump alloc call.ending line.ws (line.unread ++ call.segments)
  return { ws := ws, unread := unread }

/-- Any number of calls. -/
def pumpCalls (alloc : Nat → Bool) (calls : List WsCall) : Option WsLine :=
  calls.foldl (pumpCall alloc) (some { ws := connected, unread := [] })

/-! ## The inner loop -/

/-- The connection with nothing in its buffer. -/
def MiniWS.emptied (ws : MiniWS) : MiniWS := { ws with rbuf := [], rlen_le := Nat.zero_le _ }

@[simp] theorem skip_rbuf (ws : MiniWS) (n : Nat) : (ws.skip n).rbuf = ws.rbuf.drop n := rfl

@[simp] theorem hear_rbuf (ws : MiniWS) (read : WsRead (wsBufSize - ws.rbuf.length)) :
    (ws.hear read).rbuf = ws.rbuf ++ read.got := rfl

@[simp] theorem emptied_skip (ws : MiniWS) (n : Nat) : (ws.skip n).emptied = ws.emptied := rfl

/-- A frame leaves the buffer alone, and what is in it does not matter; only a close frame changes
the state. -/
theorem handle_keeps (alloc : Nat → Bool) (ws : MiniWS) (f : WsFrame) :
    (wsHandleFrame alloc ws f).rbuf = ws.rbuf ∧
      (wsHandleFrame alloc ws f).emptied = wsHandleFrame alloc ws.emptied f ∧
      (wsHandleFrame alloc ws f).dispatchedOpen = ws.dispatchedOpen ∧
      (f.opcode ≠ 8 → (wsHandleFrame alloc ws f).state = ws.state) := by
  unfold wsHandleFrame
  by_cases hcontrol : f.opcode = 9 ∨ f.opcode = 10
  · rw [if_pos hcontrol, if_pos hcontrol]
    exact ⟨rfl, rfl, rfl, fun _ => rfl⟩
  · rw [if_neg hcontrol, if_neg hcontrol]
    by_cases hclose : f.opcode = 8
    · rw [if_pos hclose, if_pos hclose]
      exact ⟨rfl, rfl, rfl, fun hne => absurd hclose hne⟩
    · rw [if_neg hclose, if_neg hclose]
      by_cases hdata : f.opcode = 1 ∨ f.opcode = 2
      · rw [if_pos hdata, if_pos hdata]
        cases f.fin with
        | true => exact ⟨rfl, rfl, rfl, fun _ => rfl⟩
        | false => exact ⟨rfl, rfl, rfl, fun _ => rfl⟩
      · rw [if_neg hdata, if_neg hdata]
        by_cases hcont : f.opcode = 0
        · rw [if_pos hcont, if_pos hcont]
          have hfrag : ws.emptied.frag = ws.frag := rfl
          rw [hfrag]
          cases ws.frag with
          | none => exact ⟨rfl, rfl, rfl, fun _ => rfl⟩
          | some frag =>
            dsimp only
            cases frag.append alloc f.payload with
            | none => exact ⟨rfl, rfl, rfl, fun _ => rfl⟩
            | some frag =>
              cases f.fin with
              | true => exact ⟨rfl, rfl, rfl, fun _ => rfl⟩
              | false => exact ⟨rfl, rfl, rfl, fun _ => rfl⟩
        · rw [if_neg hcont, if_neg hcont]
          exact ⟨rfl, rfl, rfl, fun _ => rfl⟩

/-- Every header in a stream declares a frame that fits into the buffer. -/
def FramesFit (b : Bytes) : Prop :=
  ∀ fs r head, wsFraming.Passed b fs r → wsHead r = .ok head →
    head.hlen + head.plen ≤ wsBufSize

theorem FramesFit.passed {b r : Bytes} {fs : List WsFrame} (hfits : FramesFit b)
    (hr : wsFraming.Passed b fs r) : FramesFit r :=
  fun gs s head hs hhead => hfits (fs ++ gs) s head (hr.trans hs) hhead

/-- On a buffer that holds a whole frame or a part of one that fits, the decoder does what it is
to do. -/
theorem decode_takeFrame {alloc : Nat → Bool} (halloc : ∀ n, alloc n = true) {b : Bytes}
    (hfits : FramesFit b) :
    (∃ f r, takeFrame b = some (f, r) ∧
        miniWsDecodeFrame alloc b = .ok (f, b.length - r.length) ∧
        r = b.drop (b.length - r.length) ∧ r.length < b.length) ∨
      takeFrame b = none ∧ miniWsDecodeFrame alloc b = .error .more := by
  cases hhead : wsHead b with
  | error e =>
    obtain ⟨rfl, -⟩ := wsHead_short hhead
    refine Or.inr ⟨?_, miniWsDecodeFrame_more alloc hhead⟩
    unfold takeFrame
    rw [hhead]
  | ok head =>
    have hsized := wsHead_sized hhead
    have hbuf : head.hlen + head.plen ≤ wsBufSize := hfits [] b head (.refl b) hhead
    have hmod : (head.hlen + head.plen) % 2 ^ 64 = head.hlen + head.plen :=
      Nat.mod_eq_of_lt (hbuf.trans_lt (by decide))
    rw [miniWsDecodeFrame_head alloc hhead, hmod, if_neg (Bool.eq_false_iff.not_left.2 (halloc _))]
    by_cases hle : head.hlen + head.plen ≤ b.length
    · have hcount : b.length - (b.drop (head.hlen + head.plen)).length = head.hlen + head.plen := by
        rw [List.length_drop]
        omega
      have hpos := hsized.pos
      refine Or.inl ⟨_, _, takeFrame_of_head hhead hle, ?_, ?_, ?_⟩
      · rw [if_neg (by omega), if_neg (by omega), hcount]
      · rw [hcount]
      · rw [List.length_drop]
        omega
    · refine Or.inr ⟨?_, if_pos (by omega)⟩
      unfold takeFrame
      rw [hhead]
      exact if_neg hle

/-- The inner loop handles all frames of the buffer and keeps what is left. -/
theorem decodeLoop_spec {alloc : Nat → Bool} (halloc : ∀ n, alloc n = true) {fuel : Nat}
    {ws : MiniWS} (hfits : FramesFit ws.rbuf) (hfuel : ws.rbuf.length ≤ fuel) :
    ∃ ws', decodeLoop alloc fuel ws = some (ws', true) ∧
      ws'.emptied = (wsFraming.items ws.rbuf).foldl (wsHandleFrame alloc) ws.emptied ∧
      ws'.rbuf = wsFraming.left ws.rbuf := by
  induction fuel generalizing ws with
  | zero =>
    have hnil : ws.rbuf = [] := List.length_eq_zero_iff.1 (Nat.le_zero.1 hfuel)
    have hnone : wsFraming.take ws.rbuf = none := by
      rw [hnil]
      rfl
    refine ⟨ws, rfl, ?_, ?_⟩
    · rw [Framing.items_of_none hnone]
      rfl
    · rw [Framing.left_of_none hnone]
  | succ fuel ih =>
    rw [decodeLoop]
    rcases decode_takeFrame halloc hfits with
      ⟨f, r, htake, hdecode, hr, hshorter⟩ | ⟨htake, hdecode⟩
    · obtain ⟨hrbuf, hemptied, -, -⟩ := handle_keeps alloc ws f
      rw [hdecode, Framing.items_of_some htake, Framing.left_of_some htake, List.foldl_cons,
        ← hemptied]
      dsimp only
      rw [hrbuf]
      have hskip : ((wsHandleFrame alloc ws f).skip (ws.rbuf.length - r.length)).rbuf = r := by
        rw [skip_rbuf, hrbuf]
        exact hr.symm
      by_cases hall : ws.rbuf.length ≤ ws.rbuf.length - r.length
      -- the frame is all that the buffer holds
      · have hnil : r = [] := List.length_eq_zero_iff.1 (by omega)
        have hnone : wsFraming.take r = none := by
          rw [hnil]
          rfl
        rw [if_pos hall, Framing.items_of_none hnone, Framing.left_of_none hnone]
        refine ⟨_, rfl, rfl, ?_⟩
        rw [skip_rbuf, hrbuf, List.drop_length, hnil]
      · rw [if_neg hall]
        have hrest := @ih ((wsHandleFrame alloc ws f).skip (ws.rbuf.length - r.length))
          (by rw [hskip]; exact hfits.passed (.step htake (.refl r))) (by rw [hskip]; omega)
        rwa [hskip, emptied_skip] at hrest
    · rw [hdecode, Framing.items_of_none htake, Framing.left_of_none htake]
      exact ⟨ws, rfl, rfl, rfl⟩

/-! ## The outer loop -/

theorem FramesFit.of_append {b s : Bytes} (hfits : FramesFit (b ++ s)) : FramesFit b :=
  fun fs r head hr hhead => hfits fs (r ++ s) head (hr.append s) (wsHead_append hhead s)

theorem FramesFit.left_append {b s : Bytes} (hfits : FramesFit (b ++ s)) :
    FramesFit (wsFraming.left b ++ s) :=
  hfits.passed ((Framing.passed_left b).append s)

/-- A part of a frame that fits leaves room. -/
theorem FramesFit.room {b : Bytes} (hfits : FramesFit b) (hpart : takeFrame b = none) :
    b.length < wsBufSize := by
  cases hhead : wsHead b with
  | error e => exact (wsHead_short hhead).2.trans (by decide)
  | ok head =>
    have hbuf : head.hlen + head.plen ≤ wsBufSize := hfits [] b head (.refl b) hhead
    rcases Nat.lt_or_ge b.length (head.hlen + head.plen) with hlt | hle
    · exact hlt.trans_le hbuf
    · rw [takeFrame_of_head hhead hle] at hpart
      cases hpart

theorem wsRecv_none {space : Nat} {segments : List Bytes} (h : wsRecv space segments = none) :
    segments.flatten = [] := by
  induction segments with
  | nil => rfl
  | cons s rest ih =>
    rw [wsRecv] at h
    split_ifs at h with hnil
    rw [List.flatten_cons, hnil, ih h]
    rfl

theorem wsRecv_some {space : Nat} (hspace : 0 < space) {segments : List Bytes}
    {read : WsRead space} (h : wsRecv space segments = some read) :
    segments.flatten = read.got ++ read.rest.flatten ∧ 0 < read.got.length := by
  induction segments with
  | nil => cases h
  | cons s rest ih =>
    rw [wsRecv] at h
    split_ifs at h with hnil
    · rw [List.flatten_cons, hnil, List.nil_append]
      exact ih h
    · obtain rfl := Option.some.inj h
      have hpos := List.length_pos_iff.2 hnil
      refine ⟨?_, ?_⟩
      · rw [List.flatten_cons, List.flatten_cons, ← List.append_assoc, List.take_append_drop]
      · rw [List.length_take]
        omega

/-- The outer loop reads all there is, and handles all frames of it. -/
theorem pumpLoop_spec {alloc : Nat → Bool} (halloc : ∀ n, alloc n = true) (ending : WsEnding)
    {fuel : Nat} (ws : MiniWS) (segments : List Bytes) (hpart : takeFrame ws.rbuf = none)
    (hfits : FramesFit (ws.rbuf ++ segments.flatten)) (hfuel : segments.flatten.length < fuel) :
    ∃ ws' rest, pumpLoop alloc ending fuel ws segments = some (ending.act ws', rest) ∧
      rest.flatten = [] ∧
      ws'.emptied = (wsFraming.items (ws.rbuf ++ segments.flatten)).foldl (wsHandleFrame alloc)
        ws.emptied ∧
      ws'.rbuf = wsFraming.left (ws.rbuf ++ segments.flatten) := by
  induction fuel generalizing ws segments with
  | zero => exact absurd hfuel (Nat.not_lt_zero _)
  | succ fuel ih =>
    have hroom := hfits.of_append.room hpart
    rw [pumpLoop, if_neg (by omega)]
    cases hrecv : wsRecv (wsBufSize - ws.rbuf.length) segments with
    | none =>
      have hnil := wsRecv_none hrecv
      rw [hnil, List.append_nil, Framing.items_of_none hpart, Framing.left_of_none hpart]
      exact ⟨ws, segments, rfl, hnil, rfl, rfl⟩
    | some read =>
      obtain ⟨hflat, hgot⟩ := wsRecv_some (by omega) hrecv
      have hall : ws.rbuf ++ segments.flatten = (ws.hear read).rbuf ++ read.rest.flatten := by
        rw [hflat, hear_rbuf, List.append_assoc]
      rw [hall] at hfits ⊢
      obtain ⟨ws', hloop, hemptied, hrbuf⟩ := decodeLoop_spec halloc hfits.of_append (le_refl _)
      have hfuel' : read.rest.flatten.length < fuel := by
        rw [hflat, List.length_append] at hfuel
        omega
      have hrest := ih ws' read.rest
        (by rw [hrbuf]; exact Framing.take_left wsFraming _)
        (by rw [hrbuf]; exact hfits.left_append) hfuel'
      rw [hrbuf, hemptied] at hrest
      dsimp only
      rw [hloop, Framing.items_append, Framing.left_append, List.foldl_append]
      exact hrest

/-! ## The stream as a whole -/

/-- The bytes that arrive, up to the call that finds the connection ended, and how it ends. -/
def arrived : List WsCall → Bytes × WsEnding
  | [] => ([], .quiet)
  | call :: calls =>
      if call.ending = .quiet then
        (call.segments.flatten ++ (arrived calls).1, (arrived calls).2)
      else (call.segments.flatten, call.ending)

/-- A frame, but not behind a close frame. -/
def handleUnlessClosed (alloc : Nat → Bool) (ws : MiniWS) (f : WsFrame) : MiniWS :=
  if ws.state = .closed then ws else wsHandleFrame alloc ws f

/-- A connection that decodes a stream frame by frame, up to and including the first close frame. -/
def decodeStream (alloc : Nat → Bool) (stream : Bytes) : MiniWS :=
  (wsFraming.items stream).foldl (handleUnlessClosed alloc) connected.dispatchOpen

/-- What the calls as a whole are to come to. -/
def pumpReference (alloc : Nat → Bool) (calls : List WsCall) : MiniWS :=
  let ws := decodeStream alloc (arrived calls).1
  if ws.state = .closed then ws else (arrived calls).2.act ws

/-- `on_close` and `on_err` -/
def WsEvent.Ends : WsEvent → Prop
  | .onClose _ _ => True
  | .onErr => True
  | _ => False

/-- Behind every call the callbacks are those of the stream, none stands behind the end, and what
is held fits into the buffer. -/
def PumpLaw (alloc : Nat → Bool) (calls : List WsCall) : Prop :=
  ∀ pre post, calls = pre ++ post → pre ≠ [] →
    ∃ line, pumpCalls alloc pre = some line ∧ line.ws.log = (pumpReference alloc pre).log ∧
      (∀ e ∈ line.ws.log.dropLast, ¬ e.Ends) ∧ line.ws.rbuf.length ≤ wsBufSize

/-! ## The end of a connection -/

theorem handle_close (alloc : Nat → Bool) (ws : MiniWS) {f : WsFrame} (hclose : f.opcode = 8) :
    wsHandleFrame alloc ws f =
      { ws with state := .closed, log := ws.log ++ [closeEvent f.payload] } := by
  unfold wsHandleFrame
  rw [if_neg (by omega), if_pos hclose]

/-- Behind a close frame the state stays. -/
theorem handle_closed (alloc : Nat → Bool) {ws : MiniWS} (hclosed : ws.state = .closed)
    (f : WsFrame) : (wsHandleFrame alloc ws f).state = .closed := by
  by_cases hclose : f.opcode = 8
  · rw [handle_close alloc ws hclose]
  · rw [(handle_keeps alloc ws f).2.2.2 hclose, hclosed]

theorem fold_closed (alloc : Nat → Bool) {ws : MiniWS} (hclosed : ws.state = .closed)
    (fs : List WsFrame) :
    (fs.foldl (wsHandleFrame alloc) ws).state = .closed ∧
      fs.foldl (handleUnlessClosed alloc) ws = ws := by
  induction fs generalizing ws with
  | nil => exact ⟨hclosed, rfl⟩
  | cons f fs ih =>
    have hunless : handleUnlessClosed alloc ws f = ws := if_pos hclosed
    rw [List.foldl_cons, List.foldl_cons, hunless]
    exact ⟨(ih (handle_closed alloc hclosed f)).1, (ih hclosed).2⟩

/-- Without a close frame there is no difference. -/
theorem fold_open (alloc : Nat → Bool) {ws : MiniWS} (hopen : ws.state ≠ .closed)
    {fs : List WsFrame} (hfs : ∀ f ∈ fs, f.opcode ≠ 8) :
    fs.foldl (handleUnlessClosed alloc) ws = fs.foldl (wsHandleFrame alloc) ws ∧
      (fs.foldl (wsHandleFrame alloc) ws).state = ws.state := by
  induction fs generalizing ws with
  | nil => exact ⟨rfl, rfl⟩
  | cons f fs ih =>
    have hunless : handleUnlessClosed alloc ws f = wsHandleFrame alloc ws f := if_neg hopen
    have hstate := (handle_keeps alloc ws f).2.2.2 (hfs f List.mem_cons_self)
    obtain ⟨hfold, hkeep⟩ := ih (hstate ▸ hopen) fun g hg => hfs g (List.mem_cons_of_mem f hg)
    rw [List.foldl_cons, List.foldl_cons, hunless]
    exact ⟨hfold, hkeep.trans hstate⟩

/-- Behind a close frame of a call nothing calls back: there is no other close frame, no message is
completed, and the peer does not shut the connection yet. -/
def QuietBehindClose (s : UnderWay Nat UInt8) (fs : List WsFrame) (ending : WsEnding) : Prop :=
  ∀ pre c post, fs = pre ++ c :: post → c.opcode = 8 →
    ending ≠ .shut ∧ (∀ f ∈ post, f.opcode ≠ 8) ∧
      (s.behind (pre.map WsFrame.piece)).messages (post.map WsFrame.piece) = []

/-- The frames of a call without a close frame, or up to the first. -/
theorem close_cases (fs : List WsFrame) :
    (∀ f ∈ fs, f.opcode ≠ 8) ∨
      ∃ pre c post, fs = pre ++ c :: post ∧ c.opcode = 8 ∧ ∀ f ∈ pre, f.opcode ≠ 8 := by
  cases hfind : fs.find? fun f => f.opcode = 8 with
  | none => exact Or.inl fun f hf => by simpa using List.find?_eq_none.1 hfind f hf
  | some c =>
    obtain ⟨hc, pre, post, hfs, hpre⟩ := List.find?_eq_some_iff_append.1 hfind
    exact Or.inr ⟨pre, c, post, hfs, by simpa using hc, fun f hf => by simpa using hpre f hf⟩

/-- The message under way behind frames that do not close the connection. -/
theorem handle_behind {alloc : Nat → Bool} (halloc : ∀ n, alloc n = true) (ws : MiniWS)
    {fs : List WsFrame} (hfs : ∀ f ∈ fs, f.opcode ≠ 8) :
    (fs.foldl (wsHandleFrame alloc) ws).underWay = ws.underWay.behind (fs.map WsFrame.piece) := by
  induction fs generalizing ws with
  | nil => rfl
  | cons f fs ih =>
    rw [List.foldl_cons, ih _ fun g hg => hfs g (List.mem_cons_of_mem f hg),
      (handle_piece halloc ws f (hfs f List.mem_cons_self)).1]
    rfl

/-- What the loops make of the frames of a call against what they are to make of them. -/
theorem fold_unless_closed {alloc : Nat → Bool} (halloc : ∀ n, alloc n = true) {ws : MiniWS}
    (hopen : ws.state ≠ .closed) {fs : List WsFrame} {ending : WsEnding}
    (hquiet : QuietBehindClose ws.underWay fs ending) :
    fs.foldl (wsHandleFrame alloc) ws = fs.foldl (handleUnlessClosed alloc) ws ∧
        (fs.foldl (handleUnlessClosed alloc) ws).state ≠ .closed ∨
      (fs.foldl (handleUnlessClosed alloc) ws).state = .closed ∧
        (fs.foldl (wsHandleFrame alloc) ws).state = .closed ∧
        (fs.foldl (wsHandleFrame alloc) ws).log = (fs.foldl (handleUnlessClosed alloc) ws).log ∧
        ending ≠ .shut := by
  rcases close_cases fs with hfs | ⟨pre, c, post, rfl, hc, hpre⟩
  · obtain ⟨hfold, hstate⟩ := fold_open alloc hopen hfs
    rw [hfold]
    exact Or.inl ⟨rfl, hstate ▸ hopen⟩
  · obtain ⟨hshut, hpost, hmessages⟩ := hquiet pre c post rfl hc
    obtain ⟨hfold, hstate⟩ := fold_open alloc hopen hpre
    have hbehind := handle_behind halloc ws hpre
    rw [List.foldl_append, List.foldl_append, List.foldl_cons, List.foldl_cons, hfold]
    generalize pre.foldl (wsHandleFrame alloc) ws = at' at hstate hbehind ⊢
    have hunless : handleUnlessClosed alloc at' c = wsHandleFrame alloc at' c :=
      if_neg (hstate ▸ hopen)
    have hclosed : (wsHandleFrame alloc at' c).state = .closed := by rw [handle_close alloc at' hc]
    have hunder : (wsHandleFrame alloc at' c).underWay = at'.underWay := by
      rw [handle_close alloc at' hc]
      rfl
    rw [hunless, (fold_closed alloc hclosed post).2]
    refine Or.inr ⟨hclosed, (fold_closed alloc hclosed post).1, ?_, hshut⟩
    rw [handle_pieces halloc _ post hpost, hunder, hbehind, hmessages, List.map_nil,
      List.append_nil]

theorem act_emptied (ending : WsEnding) (ws : MiniWS) :
    (ending.act ws).emptied = ending.act ws.emptied ∧ (ending.act ws).rbuf = ws.rbuf ∧
      (ending.act ws).dispatchedOpen = ws.dispatchedOpen := by
  cases ending with
  | quiet => exact ⟨rfl, rfl, rfl⟩
  | shut => exact ⟨rfl, rfl, rfl⟩
  | failed =>
    have hstate : ws.emptied.state = ws.state := rfl
    unfold WsEnding.act wsFail
    rw [hstate]
    split_ifs
    · exact ⟨rfl, rfl, rfl⟩
    · exact ⟨rfl, rfl, rfl⟩

/-- No end but the end of the peer calls back on a connection that is closed. -/
theorem act_closed {ending : WsEnding} {ws : MiniWS} (hclosed : ws.state = .closed)
    (hshut : ending ≠ .shut) : ending.act ws = ws := by
  cases ending with
  | quiet => rfl
  | shut => exact absurd rfl hshut
  | failed => exact if_pos hclosed

theorem act_open {ending : WsEnding} {ws : MiniWS} (hopen : (ending.act ws).state ≠ .closed) :
    ending = .quiet := by
  cases ending with
  | quiet => rfl
  | shut => exact absurd rfl hopen
  | failed =>
    exfalso
    unfold WsEnding.act wsFail at hopen
    split_ifs at hopen with hclosed
    · exact hopen hclosed
    · exact hopen rfl

/-! ## The callbacks of the stream -/

/-- An end stands only at the end of the callbacks, and only if the connection is closed. -/
structure EndsLast (ws : MiniWS) : Prop where
  last : ∀ e ∈ ws.log.dropLast, ¬ e.Ends
  none_open : ws.state ≠ .closed → ∀ e ∈ ws.log, ¬ e.Ends

theorem EndsLast.of_open {ws : MiniWS} (h : ∀ e ∈ ws.log, ¬ e.Ends) : EndsLast ws :=
  ⟨fun e he => h e (List.dropLast_subset _ he), fun _ => h⟩

/-- One more callback on a connection that is open, and it is closed. -/
theorem EndsLast.close {ws ws' : MiniWS} (h : EndsLast ws) (hopen : ws.state ≠ .closed)
    (hclosed : ws'.state = .closed) {e : WsEvent} (hlog : ws'.log = ws.log ++ [e]) :
    EndsLast ws' := by
  refine ⟨?_, fun hne => absurd hclosed hne⟩
  rw [hlog, List.dropLast_concat]
  exact h.none_open hopen

theorem messageEvent_not_ends (op : Nat) (data : Bytes) : ¬ (messageEvent op data).Ends := by
  unfold messageEvent
  split_ifs
  · exact id
  · exact id

theorem EndsLast.handle {alloc : Nat → Bool} (halloc : ∀ n, alloc n = true) {ws : MiniWS}
    (h : EndsLast ws) (f : WsFrame) : EndsLast (handleUnlessClosed alloc ws f) := by
  unfold handleUnlessClosed
  split_ifs with hclosed
  · exact h
  · by_cases hclose : f.opcode = 8
    · rw [handle_close alloc ws hclose]
      exact h.close hclosed rfl rfl
    · refine .of_open fun e he => ?_
      rw [(handle_piece halloc ws f hclose).2, List.mem_append] at he
      rcases he with he | he
      · exact h.none_open hclosed e he
      · obtain ⟨m, -, rfl⟩ := Option.map_eq_some_iff.1 (Option.mem_toList.1 he)
        exact messageEvent_not_ends m.1 m.2

theorem EndsLast.act {ws : MiniWS} (h : EndsLast ws) (hopen : ws.state ≠ .closed)
    (ending : WsEnding) : EndsLast (ending.act ws) := by
  cases ending with
  | quiet => exact h
  | shut => exact h.close hopen rfl rfl
  | failed =>
    unfold WsEnding.act wsFail
    rw [if_neg hopen]
    exact h.close hopen rfl rfl

theorem EndsLast.fold {alloc : Nat → Bool} (halloc : ∀ n, alloc n = true) {ws : MiniWS}
    (h : EndsLast ws) (fs : List WsFrame) : EndsLast (fs.foldl (handleUnlessClosed alloc) ws) := by
  induction fs generalizing ws with
  | nil => exact h
  | cons f fs ih => exact ih (h.handle halloc f)

theorem pumpReference_endsLast {alloc : Nat → Bool} (halloc : ∀ n, alloc n = true)
    (calls : List WsCall) : EndsLast (pumpReference alloc calls) := by
  have hstart : EndsLast connected.dispatchOpen := .of_open (by
    intro e he
    rw [List.mem_singleton.1 he]
    exact id)
  have hstream := hstart.fold halloc (wsFraming.items (arrived calls).1)
  unfold pumpReference
  dsimp only
  split_ifs with hclosed
  · exact hstream
  · exact hstream.act hclosed _

theorem fold_dispatched (alloc : Nat → Bool) (ws : MiniWS) (fs : List WsFrame) :
    (fs.foldl (handleUnlessClosed alloc) ws).dispatchedOpen = ws.dispatchedOpen := by
  induction fs generalizing ws with
  | nil => rfl
  | cons f fs ih =>
    rw [List.foldl_cons, ih]
    unfold handleUnlessClosed
    split_ifs
    · rfl
    · exact (handle_keeps alloc ws f).2.2.1

theorem pumpReference_dispatched (alloc : Nat → Bool) (calls : List WsCall) :
    (pumpReference alloc calls).dispatchedOpen = true := by
  have hstream : (decodeStream alloc (arrived calls).1).dispatchedOpen = true :=
    fold_dispatched alloc connected.dispatchOpen _
  unfold pumpReference
  dsimp only
  split_ifs
  · exact hstream
  · rw [(act_emptied _ _).2.2, hstream]

/-! ## Call after call -/

/-- What arrives goes on as long as no call has found the end. -/
theorem arrived_snoc (calls : List WsCall) (call : WsCall) :
    arrived (calls ++ [call]) =
      if (arrived calls).2 = .quiet then
        ((arrived calls).1 ++ call.segments.flatten, call.ending)
      else arrived calls := by
  induction calls with
  | nil =>
    cases hending : call.ending <;> simp [arrived, hending]
  | cons first calls ih =>
    rw [List.cons_append, arrived, arrived, ih]
    split_ifs <;> simp_all

theorem decodeStream_append (alloc : Nat → Bool) (b s : Bytes) :
    decodeStream alloc (b ++ s) =
      (wsFraming.items (wsFraming.left b ++ s)).foldl (handleUnlessClosed alloc)
        (decodeStream alloc b) := by
  unfold decodeStream
  rw [Framing.items_append, List.foldl_append]

/-- The connection behind some calls is what their stream comes to. -/
structure InStep (alloc : Nat → Bool) (calls : List WsCall) (line : WsLine) : Prop where
  log : calls ≠ [] → line.ws.log = (pumpReference alloc calls).log
  ended : (pumpReference alloc calls).state = .closed → line.ws.state = .closed
  going : (pumpReference alloc calls).state ≠ .closed →
    line.ws.state ≠ .closed ∧ line.ws.dispatchOpen.emptied = pumpReference alloc calls ∧
      line.ws.rbuf = wsFraming.left (arrived calls).1 ∧ line.unread.flatten = []

/-- What keeps a call clear of the faults of the loops: no frame is larger than the buffer, and
nothing calls back behind a close frame. -/
def SafeCall (line : WsLine) (call : WsCall) : Prop :=
  line.ws.state ≠ .closed →
    FramesFit (line.ws.rbuf ++ (line.unread ++ call.segments).flatten) ∧
      QuietBehindClose line.ws.underWay
        (wsFraming.items (line.ws.rbuf ++ (line.unread ++ call.segments).flatten)) call.ending

theorem dispatchOpen_keeps (ws : MiniWS) :
    ws.dispatchOpen.rbuf = ws.rbuf ∧ ws.dispatchOpen.emptied.underWay = ws.underWay ∧
      ws.dispatchOpen.state = ws.state := by
  unfold MiniWS.dispatchOpen
  split_ifs
  · exact ⟨rfl, rfl, rfl⟩
  · exact ⟨rfl, rfl, rfl⟩

theorem dispatchOpen_of_dispatched {ws : MiniWS} (h : ws.dispatchedOpen = true) :
    ws.dispatchOpen = ws := by
  unfold MiniWS.dispatchOpen
  rw [if_neg fun hboth => by simp [h] at hboth]

theorem pumpReference_open {alloc : Nat → Bool} {calls : List WsCall}
    (hopen : (pumpReference alloc calls).state ≠ .closed) :
    (arrived calls).2 = .quiet ∧
      pumpReference alloc calls = decodeStream alloc (arrived calls).1 := by
  unfold pumpReference at hopen ⊢
  dsimp only at hopen ⊢
  split_ifs at hopen ⊢ with hclosed
  · exact absurd hclosed hopen
  · have hquiet := act_open hopen
    rw [hquiet]
    exact ⟨rfl, rfl⟩

theorem pumpReference_closed {alloc : Nat → Bool} {calls : List WsCall}
    (hclosed : (pumpReference alloc calls).state = .closed) (call : WsCall) :
    pumpReference alloc (calls ++ [call]) = pumpReference alloc calls := by
  by_cases hquiet : (arrived calls).2 = .quiet
  · have hstream : (decodeStream alloc (arrived calls).1).state = .closed := by
      unfold pumpReference at hclosed
      dsimp only at hclosed
      rw [hquiet] at hclosed
      split_ifs at hclosed with h
      · exact h
      · exact hclosed
    have hsame : decodeStream alloc ((arrived calls).1 ++ call.segments.flatten) =
        decodeStream alloc (arrived calls).1 := by
      rw [decodeStream_append]
      exact (fold_closed alloc hstream _).2
    unfold pumpReference
    rw [arrived_snoc, if_pos hquiet]
    dsimp only
    rw [hsame, if_pos hstream, if_pos hstream]
  · unfold pumpReference
    rw [arrived_snoc, if_neg hquiet]

theorem pumpReference_nil (alloc : Nat → Bool) :
    pumpReference alloc [] = connected.dispatchOpen := by
  have hnone : wsFraming.take [] = none := rfl
  unfold pumpReference decodeStream
  rw [arrived, Framing.items_of_none hnone]
  rfl

/-- The pump on a connection that is open. -/
theorem miniWsPump_spec {alloc : Nat → Bool} (halloc : ∀ n, alloc n = true) (ending : WsEnding)
    {ws : MiniWS} {segments : List Bytes} (hopen : ws.state ≠ .closed)
    (hpart : takeFrame ws.rbuf = none) (hfits : FramesFit (ws.rbuf ++ segments.flatten)) :
    ∃ ws' rest, miniWsPump alloc ending ws segments = some (ending.act ws', rest) ∧
      rest.flatten = [] ∧
      ws'.emptied = (wsFraming.items (ws.rbuf ++ segments.flatten)).foldl (wsHandleFrame alloc)
        ws.dispatchOpen.emptied ∧
      ws'.rbuf = wsFraming.left (ws.rbuf ++ segments.flatten) := by
  obtain ⟨hrbuf, -, -⟩ := dispatchOpen_keeps ws
  have hloop := pumpLoop_spec halloc ending ws.dispatchOpen segments
    (by rwa [hrbuf]) (by rwa [hrbuf]) (Nat.lt_succ_self _)
  rw [hrbuf] at hloop
  rw [miniWsPump, if_neg hopen]
  exact hloop

/-- One more call of the pump. -/
theorem InStep.call {alloc : Nat → Bool} (halloc : ∀ n, alloc n = true) {calls : List WsCall}
    {line : WsLine} (h : InStep alloc calls line) {call : WsCall} (hsafe : SafeCall line call) :
    ∃ line', pumpCall alloc (some line) call = some line' ∧
      InStep alloc (calls ++ [call]) line' := by
  by_cases hclosed : (pumpReference alloc calls).state = .closed
  -- the pump returns at once
  · have hne : calls ≠ [] := by
      rintro rfl
      rw [pumpReference_nil] at hclosed
      cases hclosed
    refine ⟨⟨line.ws, line.unread ++ call.segments⟩, ?_, ?_, ?_, ?_⟩
    · simp [pumpCall, miniWsPump, h.ended hclosed]
    · rw [pumpReference_closed hclosed]
      exact fun _ => h.log hne
    · exact fun _ => h.ended hclosed
    · rw [pumpReference_closed hclosed]
      exact fun hopen => absurd hclosed hopen
  · obtain ⟨hopen, hemptied, hrbuf, hunread⟩ := h.going hclosed
    obtain ⟨hfits, hquiet⟩ := hsafe hopen
    obtain ⟨hgone, hstream⟩ := pumpReference_open hclosed
    obtain ⟨ws', rest, hpump, hrest, hws', hleft⟩ := miniWsPump_spec halloc call.ending hopen
      (by rw [hrbuf]; exact Framing.take_left wsFraming _) hfits
    rw [List.flatten_append, hunread, List.nil_append, hrbuf] at hws' hleft hquiet
    rw [hemptied] at hws'
    rw [← (dispatchOpen_keeps line.ws).2.1, hemptied] at hquiet
    refine ⟨⟨call.ending.act ws', rest⟩, ?_, ?_⟩
    · unfold pumpCall
      dsimp only [bind, Option.bind]
      rw [hpump]
      rfl
    have harrived := arrived_snoc calls call
    rw [if_pos hgone] at harrived
    have hdecode := decodeStream_append alloc (arrived calls).1 call.segments.flatten
    rw [← hstream] at hdecode
    have hreference : pumpReference alloc (calls ++ [call]) =
        if (decodeStream alloc ((arrived calls).1 ++ call.segments.flatten)).state = .closed then
          decodeStream alloc ((arrived calls).1 ++ call.segments.flatten)
        else call.ending.act
          (decodeStream alloc ((arrived calls).1 ++ call.segments.flatten)) := by
      unfold pumpReference
      rw [harrived]
    rcases fold_unless_closed halloc hclosed hquiet with
      ⟨hsame, hgoing⟩ | ⟨hstop, hstop', hlog, hshut⟩
    · rw [← hdecode] at hsame hgoing
      rw [if_neg hgoing] at hreference
      have hact : (call.ending.act ws').emptied = pumpReference alloc (calls ++ [call]) := by
        rw [(act_emptied _ _).1, hws', hsame, hreference]
      have hdispatched : (call.ending.act ws').dispatchedOpen = true := by
        have hd := pumpReference_dispatched alloc (calls ++ [call])
        rwa [← hact] at hd
      refine ⟨fun _ => ?_, fun hend => ?_, fun hgo => ⟨?_, ?_, ?_, hrest⟩⟩
      · rw [← hact]
        rfl
      · rw [← hact] at hend
        exact hend
      · rw [← hact] at hgo
        exact hgo
      · rw [dispatchOpen_of_dispatched hdispatched, hact]
      · rw [(act_emptied _ _).2.1, hleft, harrived, ← Framing.left_append]
    · rw [← hdecode] at hstop hlog
      rw [if_pos hstop] at hreference
      rw [← hws'] at hstop' hlog
      have hsame : call.ending.act ws' = ws' := act_closed hstop' hshut
      rw [hsame]
      refine ⟨fun _ => ?_, fun _ => hstop', fun hgo => ?_⟩
      · rw [hreference]
        exact hlog
      · rw [hreference] at hgo
        exact absurd hstop hgo

theorem inStep_run {alloc : Nat → Bool} (halloc : ∀ n, alloc n = true) {calls : List WsCall}
    (hsafe : ∀ pre call post line, calls = pre ++ call :: post →
      pumpCalls alloc pre = some line → SafeCall line call) (pre post : List WsCall)
    (hcalls : calls = pre ++ post) :
    ∃ line, pumpCalls alloc pre = some line ∧ InStep alloc pre line := by
  induction pre using List.reverseRecOn generalizing post with
  | nil =>
    refine ⟨_, rfl, fun hne => absurd rfl hne, fun hclosed => ?_, fun _ => ⟨?_, ?_, ?_, rfl⟩⟩
    · rw [pumpReference_nil] at hclosed
      cases hclosed
    · exact fun hstate => nomatch hstate
    · rw [pumpReference_nil]
      rfl
    · exact (Framing.left_of_none (F := wsFraming) (b := []) rfl).symm
  | append_singleton pre call ih =>
    rw [List.append_assoc, List.singleton_append] at hcalls
    obtain ⟨line, hrun, hstep⟩ := ih _ hcalls
    obtain ⟨line', hcall, hstep'⟩ := hstep.call halloc (hsafe pre call post line hcalls hrun)
    refine ⟨line', ?_, hstep'⟩
    rw [pumpCalls, List.foldl_concat, ← pumpCalls, hrun]
    exact hcall

/-- In a run of safe calls the pump is right behind every call. -/
theorem pump_run {alloc : Nat → Bool} (halloc : ∀ n, alloc n = true) {calls : List WsCall}
    (hsafe : ∀ pre call post line, calls = pre ++ call :: post →
      pumpCalls alloc pre = some line → SafeCall line call) : PumpLaw alloc calls := by
  intro pre post hcalls hne
  obtain ⟨line, hrun, hstep⟩ := inStep_run halloc hsafe pre post hcalls
  refine ⟨line, hrun, hstep.log hne, ?_, line.ws.rlen_le⟩
  rw [hstep.log hne]
  exact (pumpReference_endsLast halloc pre).last

/-- A text frame in two segments. -/
theorem pump_run_text :
    PumpLaw (fun _ => true) [{ segments := [[0x81, 0x01], [0x68]], ending := .quiet }] := by
  refine pump_run (fun _ => rfl) fun pre call post line hcalls hrun _ => ?_
  have hpre : pre = [] ∧ call = { segments := [[0x81, 0x01], [0x68]], ending := .quiet } := by
    cases pre with
    | nil => exact ⟨rfl, (List.cons.inj hcalls).1.symm⟩
    | cons first pre => simp at hcalls
  obtain ⟨rfl, rfl⟩ := hpre
  obtain rfl := Option.some.inj hrun
  have hheader : wsHead [0x81, 0x01, 0x68] = .ok ⟨1, true, false, 1, 2⟩ := rfl
  have htake : wsFraming.take [0x81, 0x01, 0x68] = some (⟨1, true, [0x68]⟩, []) := rfl
  have hnone : wsFraming.take [] = none := rfl
  refine ⟨fun fs r head hr hhead => ?_, fun before c behind hitems hc => ?_⟩
  · cases hr with
    | refl =>
      obtain rfl := Except.ok.inj (hhead.symm.trans hheader)
      decide
    | step h hr =>
      cases h.symm.trans htake
      cases hr with
      | refl => cases hhead
      | step h hr => cases h.symm.trans hnone
  · have hframes : wsFraming.items [0x81, 0x01, 0x68] = [⟨1, true, [0x68]⟩] := by
      rw [Framing.items_of_some htake, Framing.items_of_none hnone]
    have hmem : c ∈ wsFraming.items [0x81, 0x01, 0x68] := by
      rw [show wsFraming.items [0x81, 0x01, 0x68] = _ from hitems]
      simp
    rw [hframes, List.mem_singleton] at hmem
    rw [hmem] at hc
    cases hc

/-- A close frame, and the peer shuts the connection before the call ends: `on_close` twice. -/
theorem close_called_twice :
    ¬ PumpLaw (fun _ => true) [{ segments := [[0x88, 0x00]], ending := .shut }] := by
  intro h
  obtain ⟨line, hrun, -, hends, -⟩ := h [{ segments := [[0x88, 0x00]], ending := .shut }] []
    rfl (List.cons_ne_nil _ _)
  have hlog : (pumpCalls (fun _ => true) [{ segments := [[0x88, 0x00]], ending := .shut }]).map
      (fun line => line.ws.log) = some [.onOpen, .onClose 1000 [], .onClose 1000 []] := rfl
  rw [hrun] at hlog
  have hthree : line.ws.log = [.onOpen, .onClose 1000 [], .onClose 1000 []] := Option.some.inj hlog
  rw [hthree] at hends
  exact hends (.onClose 1000 []) (by simp) trivial

end TinyFramework.Net
