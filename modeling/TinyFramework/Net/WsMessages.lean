/-
  Net/WsMessages.lean --- `ws_handle_frame` of `mini_websocket.c`: frames to callbacks.

  All callbacks are set, and they leave the connection alone; what is sent back is left out.
  `realloc` may fail, but sizes are unbounded: what is in memory has fewer than 2^63 bytes, and
  no sum of two such sizes wraps.
-/
import TinyFramework.Foundation.CText
import TinyFramework.Net.WsFrame

set_option autoImplicit false

namespace TinyFramework.Net

open TinyFramework.Foundation

/-- `MiniWsState` -/
inductive MiniWsState where
  | connecting | opened | closing | closed
  deriving DecidableEq, Repr

/-- The calls of the callbacks. -/
inductive WsEvent where
  | onOpen
  | onText (data : Bytes)
  | onBin (data : Bytes)
  | onClose (code : Nat) (reason : Bytes)
  | onErr
  deriving DecidableEq, Repr

/-- `frag`, `frag_len` and `frag_cap`: what is held fits into what is allocated. -/
structure WsFrag where
  data : Bytes
  cap : Nat
  fits : data.length ≤ cap

/-- The size of `rbuf`. -/
def wsBufSize : Nat := 8192

/-- `MiniWS`; `log` are the callbacks so far, and `rbuf` its first `rlen` bytes. -/
structure MiniWS where
  state : MiniWsState
  rbuf : Bytes
  rlen_le : rbuf.length ≤ wsBufSize
  frag : Option WsFrag
  fragOp : Nat
  dispatchedOpen : Bool
  log : List WsEvent

/-- A connection as `mini_ws_connect` leaves it. -/
def connected : MiniWS :=
  { state := .opened, rbuf := [], rlen_le := Nat.zero_le _, frag := none, fragOp := 0
    dispatchedOpen := false, log := [] }

/-! ## `ws_handle_frame` -/

/-- `nc` doubled until it reaches what is needed. -/
def doubleTo (need nc : Nat) : Nat :=
  if h : nc = 0 ∨ need ≤ nc then nc else doubleTo need (2 * nc)
termination_by need - nc

theorem le_doubleTo {need nc : Nat} (hnc : nc ≠ 0) : need ≤ doubleTo need nc := by
  induction hmeasure : need - nc using Nat.strong_induction_on generalizing nc with
  | _ n ih =>
    rw [doubleTo]
    split_ifs with h
    · exact h.resolve_left hnc
    · exact ih (need - 2 * nc) (by omega) (by omega) rfl

/-- `frag_cap ? frag_cap : 64` -/
def firstCap (cap : Nat) : Nat := if cap = 0 then 64 else cap

theorem firstCap_ne_zero (cap : Nat) : firstCap cap ≠ 0 := by
  unfold firstCap
  split_ifs with h
  · decide
  · exact h

/-- What is held with a payload behind it; nothing if `realloc` fails. -/
def WsFrag.append (alloc : Nat → Bool) (frag : WsFrag) (pl : Bytes) : Option WsFrag :=
  let need := frag.data.length + pl.length
  if h : frag.cap < need then
    let nc := doubleTo need (firstCap frag.cap)
    if alloc nc then
      some { data := frag.data ++ pl, cap := nc
             fits := by
               rw [List.length_append]
               exact le_doubleTo (firstCap_ne_zero _) }
    else none
  else
    some { data := frag.data ++ pl, cap := frag.cap
           fits := by
             rw [List.length_append]
             exact Nat.le_of_not_lt h }

/-- The callback for a message. -/
def messageEvent (op : Nat) (data : Bytes) : WsEvent := if op = 1 then .onText data else .onBin data

/-- The callback for the payload of a close frame. -/
def closeEvent (pl : Bytes) : WsEvent :=
  .onClose (if 2 ≤ pl.length then (pl.getD 0 0).toNat * 256 + (pl.getD 1 0).toNat else 1000)
    (if 2 < pl.length then cString (pl.drop 2) else [])

/-- `ws_handle_frame` -/
def wsHandleFrame (alloc : Nat → Bool) (ws : MiniWS) (f : WsFrame) : MiniWS :=
  if f.opcode = 9 ∨ f.opcode = 10 then ws
  else if f.opcode = 8 then
    { ws with state := .closed, log := ws.log ++ [closeEvent f.payload] }
  else if f.opcode = 1 ∨ f.opcode = 2 then
    -- a message that is under way is dropped
    if f.fin then
      { ws with
        frag := none, fragOp := f.opcode, log := ws.log ++ [messageEvent f.opcode f.payload] }
    else
      { ws with
        frag := some ⟨f.payload, f.payload.length, Nat.le_refl _⟩, fragOp := f.opcode }
  else if f.opcode = 0 then
    match ws.frag with
    | none => ws
    | some frag =>
        match frag.append alloc f.payload with
        | none => { ws with frag := none }
        | some frag =>
            if f.fin then
              { ws with frag := none, log := ws.log ++ [messageEvent ws.fragOp frag.data] }
            else { ws with frag := some frag }
  else ws

/-! ## Frames as pieces of messages -/

def WsFrame.piece (f : WsFrame) : Piece Nat UInt8 :=
  if f.opcode = 1 ∨ f.opcode = 2 then .first f.opcode f.fin f.payload
  else if f.opcode = 0 then .further f.fin f.payload
  else .aside

/-- The message under way on a connection. -/
def MiniWS.underWay (ws : MiniWS) : UnderWay Nat UInt8 :=
  ws.frag.map fun frag => (ws.fragOp, frag.data)

theorem WsFrag.append_eq {alloc : Nat → Bool} (halloc : ∀ n, alloc n = true) (frag : WsFrag)
    (pl : Bytes) : ∃ frag', frag.append alloc pl = some frag' ∧ frag'.data = frag.data ++ pl := by
  unfold WsFrag.append
  dsimp only
  split_ifs with hcap hmem
  · exact ⟨_, rfl, rfl⟩
  · exact absurd (halloc _) hmem
  · exact ⟨_, rfl, rfl⟩

/-- One frame, but for a close frame, is one step of reassembly. -/
theorem handle_piece {alloc : Nat → Bool} (halloc : ∀ n, alloc n = true) (ws : MiniWS)
    (f : WsFrame) (hclose : f.opcode ≠ 8) :
    (wsHandleFrame alloc ws f).underWay = ws.underWay.next f.piece ∧
      (wsHandleFrame alloc ws f).log =
        ws.log ++ ((ws.underWay.done f.piece).map fun m => messageEvent m.1 m.2).toList := by
  unfold wsHandleFrame WsFrame.piece
  by_cases hcontrol : f.opcode = 9 ∨ f.opcode = 10
  · rw [if_pos hcontrol, if_neg (by omega), if_neg (by omega)]
    exact ⟨rfl, (List.append_nil _).symm⟩
  · rw [if_neg hcontrol, if_neg hclose]
    by_cases hdata : f.opcode = 1 ∨ f.opcode = 2
    · rw [if_pos hdata, if_pos hdata]
      cases hfin : f.fin with
      | true => exact ⟨rfl, rfl⟩
      | false => exact ⟨rfl, (List.append_nil _).symm⟩
    · rw [if_neg hdata, if_neg hdata]
      by_cases hcont : f.opcode = 0
      · rw [if_pos hcont, if_pos hcont]
        cases hfrag : ws.frag with
        | none =>
          have hnone : ws.underWay = none := by rw [MiniWS.underWay, hfrag]; rfl
          rw [hnone]
          cases f.fin with
          | true => exact ⟨rfl, (List.append_nil _).symm⟩
          | false => exact ⟨rfl, (List.append_nil _).symm⟩
        | some frag =>
          have hsome : ws.underWay = some (ws.fragOp, frag.data) := by
            rw [MiniWS.underWay, hfrag]
            rfl
          obtain ⟨frag', happend, hframe⟩ := WsFrag.append_eq halloc frag f.payload
          dsimp only
          rw [happend, hsome]
          cases hfin : f.fin with
          | true =>
            refine ⟨rfl, ?_⟩
            show ws.log ++ [messageEvent ws.fragOp frag'.data] = _
            rw [hframe]
            rfl
          | false =>
            refine ⟨?_, (List.append_nil _).symm⟩
            show some (ws.fragOp, frag'.data) = _
            rw [hframe]
            rfl
      · rw [if_neg hcont, if_neg hcont]
        exact ⟨rfl, (List.append_nil _).symm⟩

/-- A run of frames without a close frame calls back for the messages that it completes. -/
theorem handle_pieces {alloc : Nat → Bool} (halloc : ∀ n, alloc n = true) (ws : MiniWS)
    (fs : List WsFrame) (hclose : ∀ f ∈ fs, f.opcode ≠ 8) :
    (fs.foldl (wsHandleFrame alloc) ws).log =
      ws.log ++
        (ws.underWay.messages (fs.map WsFrame.piece)).map fun m => messageEvent m.1 m.2 := by
  induction fs generalizing ws with
  | nil => exact (List.append_nil _).symm
  | cons f fs ih =>
    obtain ⟨hnext, hlog⟩ := handle_piece halloc ws f (hclose f List.mem_cons_self)
    rw [List.foldl_cons, ih _ fun g hg => hclose g (List.mem_cons_of_mem f hg), hnext, hlog,
      List.append_assoc, List.map_cons, UnderWay.messages, List.map_append]
    cases ws.underWay.done f.piece <;> rfl

/-! ## Messages -/

/-- A ping or a pong. -/
structure WsControl where
  pong : Bool
  fin : Bool
  payload : Bytes

def WsControl.frame (c : WsControl) : WsFrame :=
  { opcode := if c.pong then 10 else 9, fin := c.fin, payload := c.payload }

/-- A fragment with what comes in front of it. -/
structure WsFragment where
  controls : List WsControl
  payload : Bytes

/-- A message in fragments. -/
structure WsMessage where
  binary : Bool
  head : WsFragment
  tail : List WsFragment

/-- The frames behind the first one: each a continuation, the last with FIN. -/
def continuations : List WsFragment → List WsFrame
  | [] => []
  | fragment :: tail =>
      fragment.controls.map WsControl.frame ++
        { opcode := 0, fin := tail.isEmpty, payload := fragment.payload } :: continuations tail

/-- The frames of a message. -/
def WsMessage.frames (m : WsMessage) : List WsFrame :=
  m.head.controls.map WsControl.frame ++
    { opcode := if m.binary then 2 else 1, fin := m.tail.isEmpty, payload := m.head.payload } ::
      continuations m.tail

/-- The payloads of a message, one behind the other. -/
def WsMessage.data (m : WsMessage) : Bytes := m.head.payload ++ m.tail.flatMap WsFragment.payload

/-- The callback that a message is owed. -/
def WsMessage.event (m : WsMessage) : WsEvent :=
  if m.binary then .onBin m.data else .onText m.data

def WsFragment.cut (fragment : WsFragment) : Nat × Bytes :=
  (fragment.controls.length, fragment.payload)

def WsMessage.cut (m : WsMessage) : CutMessage Nat UInt8 :=
  { kind := if m.binary then 2 else 1, head := m.head.cut, tail := m.tail.map WsFragment.cut }

theorem controls_pieces (cs : List WsControl) :
    (cs.map WsControl.frame).map WsFrame.piece = List.replicate cs.length .aside := by
  rw [List.map_map, List.eq_replicate_iff]
  refine ⟨List.length_map _, fun p hp => ?_⟩
  obtain ⟨c, -, rfl⟩ := List.mem_map.1 hp
  cases c with
  | mk pong fin payload => cases pong <;> rfl

theorem continuations_pieces (tail : List WsFragment) :
    (continuations tail).map WsFrame.piece = CutMessage.furthers (tail.map WsFragment.cut) := by
  induction tail with
  | nil => rfl
  | cons fragment tail ih =>
    rw [continuations, List.map_append, List.map_cons, controls_pieces, ih, List.map_cons,
      WsFragment.cut, CutMessage.furthers]
    cases tail <;> rfl

theorem WsMessage.frames_pieces (m : WsMessage) : m.frames.map WsFrame.piece = m.cut.pieces := by
  rw [WsMessage.frames, List.map_append, List.map_cons, controls_pieces, continuations_pieces,
    CutMessage.pieces]
  have hempty : m.tail.isEmpty = m.cut.tail.isEmpty := (List.isEmpty_map).symm
  rw [hempty]
  cases hbinary : m.binary <;> simp [WsFrame.piece, WsMessage.cut, WsFragment.cut, hbinary]

theorem control_open (c : WsControl) : c.frame.opcode ≠ 8 := by
  unfold WsControl.frame
  split_ifs <;> simp

theorem controls_open {cs : List WsControl} : ∀ f ∈ cs.map WsControl.frame, f.opcode ≠ 8 := by
  intro f hf
  obtain ⟨c, -, rfl⟩ := List.mem_map.1 hf
  exact control_open c

theorem continuations_open {tail : List WsFragment} :
    ∀ f ∈ continuations tail, f.opcode ≠ 8 := by
  induction tail with
  | nil => exact fun f hf => absurd hf List.not_mem_nil
  | cons fragment tail ih =>
    intro f hf
    rw [continuations, List.mem_append, List.mem_cons] at hf
    rcases hf with hf | rfl | hf
    · exact controls_open f hf
    · exact Nat.zero_ne_add_one 7
    · exact ih f hf

theorem WsMessage.frames_open (m : WsMessage) : ∀ f ∈ m.frames, f.opcode ≠ 8 := by
  intro f hf
  rw [WsMessage.frames, List.mem_append, List.mem_cons] at hf
  rcases hf with hf | rfl | hf
  · exact controls_open f hf
  · dsimp only
    split_ifs <;> simp
  · exact continuations_open f hf

theorem WsMessage.event_eq (m : WsMessage) :
    messageEvent m.cut.whole.1 m.cut.whole.2 = m.event := by
  have hdata : m.cut.whole.2 = m.data := by
    simp [CutMessage.whole, WsMessage.cut, WsFragment.cut, WsMessage.data, List.flatMap_map]
  rw [hdata]
  unfold messageEvent WsMessage.event CutMessage.whole WsMessage.cut
  cases m.binary <;> rfl

/-- Every message is called back for once, in order and as a whole. -/
theorem handle_messages {alloc : Nat → Bool} (halloc : ∀ n, alloc n = true) (ws : MiniWS)
    (ms : List WsMessage) (rest : List WsControl) :
    ((ms.flatMap WsMessage.frames ++ rest.map WsControl.frame).foldl (wsHandleFrame alloc) ws).log =
      ws.log ++ ms.map WsMessage.event := by
  have hclose : ∀ f ∈ ms.flatMap WsMessage.frames ++ rest.map WsControl.frame, f.opcode ≠ 8 := by
    intro f hf
    rw [List.mem_append, List.mem_flatMap] at hf
    rcases hf with ⟨m, -, hf⟩ | hf
    · exact m.frames_open f hf
    · exact controls_open f hf
  have hpieces : (ms.flatMap WsMessage.frames).map WsFrame.piece =
      (ms.map WsMessage.cut).flatMap CutMessage.pieces := by
    rw [List.map_flatMap, List.flatMap_map]
    simp only [WsMessage.frames_pieces]
  rw [handle_pieces halloc ws _ hclose, List.map_append, hpieces, controls_pieces,
    UnderWay.messages_append, CutMessage.messages_spec, (UnderWay.asides _ _).1, List.append_nil,
    List.map_map, List.map_map]
  exact congrArg _ (List.map_congr_left fun m _ => m.event_eq)

/-- A text in two fragments with a ping in between, when memory does not run out. -/
theorem handle_messages_ping :
    (([⟨false, ⟨[], ascii "he"⟩, [⟨[⟨false, true, []⟩], ascii "llo"⟩]⟩].flatMap WsMessage.frames ++
      [].map WsControl.frame).foldl (wsHandleFrame fun _ => true) connected).log =
      connected.log ++ [⟨false, ⟨[], ascii "he"⟩, [⟨[⟨false, true, []⟩], ascii "llo"⟩]⟩].map
        WsMessage.event :=
  handle_messages (fun _ => rfl) connected _ []

end TinyFramework.Net
