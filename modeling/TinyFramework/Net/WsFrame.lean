/-
  Net/WsFrame.lean --- WebSocket frames.

  A buffer is the list of its bytes, and a read behind its end stops the run.  `size_t` has 64 bits;
  which sizes `malloc` grants is a parameter, and so is the mask key, which is made of the time.

  Header and payload are counted with numbers here, which do not wrap: this is what a stream means,
  not what a decoder makes of it.
-/
import TinyFramework.Foundation.Endian
import TinyFramework.Foundation.Framing
import Mathlib.Tactic.IntervalCases

set_option autoImplicit false

namespace TinyFramework.Net

open TinyFramework.Foundation

/-! ## Frames -/

/-- Why a decoder ends without a frame. -/
inductive WsStop where
  /-- a byte behind the end of the buffer was read -/
  | outside
  /-- more bytes are needed: 1 is returned -/
  | more
  /-- `malloc` gave nothing: -1 is returned -/
  | memory
  deriving DecidableEq, Repr

/-- What a decoder makes of a frame. -/
structure WsFrame where
  opcode : Nat
  fin : Bool
  payload : Bytes
  deriving DecidableEq, Repr

/-- What stands in front of a payload: its length, and the size of the header with the mask. -/
structure WsHead where
  opcode : Nat
  fin : Bool
  masked : Bool
  plen : Nat
  hlen : Nat
  deriving DecidableEq, Repr

/-- `buf[i]` -/
def readAt (buf : Bytes) (i : Nat) : Except WsStop UInt8 :=
  match buf[i]? with
  | some b => .ok b
  | none => .error .outside

/-- The `n` bytes from a place on. -/
def readFrom (buf : Bytes) (i : Nat) : Nat → Except WsStop Bytes
  | 0 => .ok []
  | n + 1 => do
      let b ← readAt buf i
      let bs ← readFrom buf (i + 1) n
      return b :: bs

/-- `plen` and `hlen` in front of the mask. -/
def wsLength (buf : Bytes) : Except WsStop (Nat × Nat) := do
  let b1 ← readAt buf 1
  if b1.toNat % 128 = 126 then
    if buf.length < 4 then throw .more
    return (beValue (← readFrom buf 2 2), 4)
  else if b1.toNat % 128 = 127 then
    if buf.length < 10 then throw .more
    return (beValue (← readFrom buf 2 8), 10)
  else return (b1.toNat % 128, 2)

/-- The header of a frame. -/
def wsHead (buf : Bytes) : Except WsStop WsHead := do
  if buf.length < 2 then throw .more
  let b0 ← readAt buf 0
  let b1 ← readAt buf 1
  let (plen, hlen) ← wsLength buf
  let masked := decide (128 ≤ b1.toNat)
  return {
    opcode := b0.toNat % 16, fin := decide (128 ≤ b0.toNat), masked := masked
    plen := plen, hlen := if masked then hlen + 4 else hlen }

/-- `mask ? mask[i % 4] : 0` -/
def readMask (buf : Bytes) (head : WsHead) (i : Nat) : Except WsStop UInt8 :=
  if head.masked then readAt buf (head.hlen - 4 + i % 4) else .ok 0

/-- The loop over the payload; `n` bytes are left, from the `i`th on. -/
def unmask (buf : Bytes) (head : WsHead) : Nat → Nat → Except WsStop Bytes
  | 0, _ => .ok []
  | n + 1, i => do
      let s ← readAt buf (head.hlen + i)
      let m ← readMask buf head i
      let p ← unmask buf head n (i + 1)
      return (s ^^^ m) :: p

/-- `mini_ws_decode_frame`: the frame, and how many bytes it took. -/
def miniWsDecodeFrame (alloc : Nat → Bool) (buf : Bytes) : Except WsStop (WsFrame × Nat) := do
  let head ← wsHead buf
  if buf.length < (head.hlen + head.plen) % 2 ^ 64 then throw .more
  if alloc ((head.plen + 1) % 2 ^ 64) = false then throw .memory
  let p ← unmask buf head head.plen 0
  return (⟨head.opcode, head.fin, p⟩, (head.hlen + head.plen) % 2 ^ 64)

/-- The length of a payload, in the three forms. -/
def wsLengthBytes (plen : Nat) : Bytes :=
  if plen < 126 then [UInt8.ofNat (128 + plen)]
  else if plen ≤ 0xFFFF then UInt8.ofNat (128 + 126) :: beBytes 2 plen
  else UInt8.ofNat (128 + 127) :: beBytes 8 plen

/-- The header in front of the mask key. -/
def wsPrefix (opcode : Nat) (fin : Bool) (plen : Nat) : Bytes :=
  UInt8.ofNat ((if fin then 128 else 0) + opcode % 16) :: wsLengthBytes plen

/-- `payload[i] ^ mk[i % 4]` -/
def maskBytes (mk : Nat → UInt8) (payload : Bytes) : Bytes :=
  payload.mapIdx fun i b => b ^^^ mk (i % 4)

/-- `mini_ws_encode_frame`; `mk` is the mask key. -/
def miniWsEncodeFrame (mk : Nat → UInt8) (opcode : Nat) (fin : Bool) (payload : Bytes) (cap : Nat) :
    Option Bytes :=
  let out := wsPrefix opcode fin payload.length ++
    ([mk 0, mk 1, mk 2, mk 3] ++ maskBytes mk payload)
  if cap < out.length then none else some out

/-! ## Reads -/

theorem readAt_of_lt {buf : Bytes} {i : Nat} (h : i < buf.length) :
    readAt buf i = .ok (buf.getD i 0) := by
  simp [readAt, List.getElem?_eq_getElem h]

theorem readAt_of_le {buf : Bytes} {i : Nat} (h : buf.length ≤ i) :
    readAt buf i = .error .outside := by
  simp [readAt, List.getElem?_eq_none h]

theorem readFrom_of_le {buf : Bytes} {i n : Nat} (h : i + n ≤ buf.length) :
    readFrom buf i n = .ok ((buf.drop i).take n) := by
  induction n generalizing i with
  | zero => simp [readFrom]
  | succ n ih =>
    have hi : i < buf.length := by omega
    rw [readFrom, readAt_of_lt hi, ih (by omega), List.drop_eq_getElem_cons hi, List.take_succ_cons]
    simp [bind, Except.bind, pure, Except.pure, List.getElem?_eq_getElem hi]

/-- The part of the header that says how long the payload is. -/
theorem wsLength_eq {buf : Bytes} (hlen : 2 ≤ buf.length) :
    wsLength buf =
      if (buf.getD 1 0).toNat % 128 = 126 then
        if buf.length < 4 then .error .more else .ok (beValue ((buf.drop 2).take 2), 4)
      else if (buf.getD 1 0).toNat % 128 = 127 then
        if buf.length < 10 then .error .more else .ok (beValue ((buf.drop 2).take 8), 10)
      else .ok ((buf.getD 1 0).toNat % 128, 2) := by
  unfold wsLength
  rw [readAt_of_lt (by omega)]
  simp only [bind, Except.bind]
  split_ifs with h126 hshort h127 hshort
  · rfl
  · rw [readFrom_of_le (by omega)]
    rfl
  · rfl
  · rw [readFrom_of_le (by omega)]
    rfl
  · rfl

/-- A slice of at most eight bytes is a number of 64 bits. -/
theorem beValue_slice_lt (buf : Bytes) (i : Nat) {n : Nat} (hn : n ≤ 8) :
    beValue ((buf.drop i).take n) < 2 ^ 64 :=
  calc beValue ((buf.drop i).take n) < 256 ^ ((buf.drop i).take n).length := beValue_lt _
    _ ≤ 256 ^ 8 := Nat.pow_le_pow_right (by decide) ((List.length_take_le _ _).trans hn)
    _ = 2 ^ 64 := by decide

/-- The length is not there yet, or it stays as it is whatever follows. -/
theorem wsLength_cases {buf : Bytes} (hlen : 2 ≤ buf.length) :
    wsLength buf = .error .more ∨
      ∃ plen hlen, wsLength buf = .ok (plen, hlen) ∧ 2 ≤ hlen ∧ hlen ≤ 10 ∧ plen < 2 ^ 64 ∧
        ∀ s, wsLength (buf ++ s) = .ok (plen, hlen) := by
  have hget : ∀ s : Bytes, (buf ++ s).getD 1 0 = buf.getD 1 0 := fun s => by
    simp [List.getElem?_append_left (show 1 < buf.length by omega)]
  have hslice : ∀ (s : Bytes) (n : Nat), 2 + n ≤ buf.length →
      ((buf ++ s).drop 2).take n = (buf.drop 2).take n := fun s n hn => by
    rw [List.drop_append_of_le_length (by omega), List.take_append_of_le_length]
    rw [List.length_drop]
    omega
  have hall : ∀ s : Bytes, 2 ≤ (buf ++ s).length := fun s => by
    rw [List.length_append]
    omega
  rw [wsLength_eq hlen]
  by_cases h126 : (buf.getD 1 0).toNat % 128 = 126
  · rw [if_pos h126]
    by_cases hshort : buf.length < 4
    · exact Or.inl (if_pos hshort)
    · refine Or.inr ⟨_, _, if_neg hshort, by omega, by omega, beValue_slice_lt _ _ (by omega),
        fun s => ?_⟩
      rw [wsLength_eq (hall s), hget, if_pos h126, hslice s 2 (by omega),
        if_neg (by rw [List.length_append]; omega)]
  · rw [if_neg h126]
    by_cases h127 : (buf.getD 1 0).toNat % 128 = 127
    · rw [if_pos h127]
      by_cases hshort : buf.length < 10
      · exact Or.inl (if_pos hshort)
      · refine Or.inr ⟨_, _, if_neg hshort, by omega, by omega, beValue_slice_lt _ _ (by omega),
          fun s => ?_⟩
        rw [wsLength_eq (hall s), hget, if_neg h126, if_pos h127, hslice s 8 (by omega),
          if_neg (by rw [List.length_append]; omega)]
    · refine Or.inr ⟨_, _, if_neg h127, by omega, by omega, by omega, fun s => ?_⟩
      rw [wsLength_eq (hall s), hget, if_neg h126, if_neg h127]

theorem wsHead_eq {buf : Bytes} (hlen : 2 ≤ buf.length) :
    wsHead buf = (wsLength buf).map fun p =>
      { opcode := (buf.getD 0 0).toNat % 16, fin := decide (128 ≤ (buf.getD 0 0).toNat)
        masked := decide (128 ≤ (buf.getD 1 0).toNat), plen := p.1
        hlen := if decide (128 ≤ (buf.getD 1 0).toNat) then p.2 + 4 else p.2 } := by
  unfold wsHead
  rw [if_neg (by omega), readAt_of_lt (by omega), readAt_of_lt (by omega)]
  cases wsLength buf <;> rfl

/-- The bounds of a header: the mask is part of it, and what it declares is a `uint64_t`. -/
structure WsHead.Sized (head : WsHead) : Prop where
  pos : 2 ≤ head.hlen
  le : head.hlen ≤ 14
  mask : head.masked = true → 6 ≤ head.hlen
  plen : head.plen < 2 ^ 64

/-- The header is not there yet, or it stays as it is whatever follows. -/
theorem wsHead_cases (buf : Bytes) :
    wsHead buf = .error .more ∨
      ∃ head, wsHead buf = .ok head ∧ head.Sized ∧ ∀ s, wsHead (buf ++ s) = .ok head := by
  rcases Nat.lt_or_ge buf.length 2 with hshort | hlen
  · left
    unfold wsHead
    rw [if_pos hshort]
    rfl
  · have hall : ∀ s : Bytes, 2 ≤ (buf ++ s).length := fun s => by
      rw [List.length_append]
      omega
    have hget : ∀ (s : Bytes) (i : Nat), i < 2 → (buf ++ s).getD i 0 = buf.getD i 0 :=
      fun s i hi => by simp [List.getElem?_append_left (show i < buf.length by omega)]
    rcases wsLength_cases hlen with hmore | ⟨plen, hlen', hok, hpos, hle, hplen, happend⟩
    · left
      rw [wsHead_eq hlen, hmore]
      rfl
    · right
      refine ⟨_, by rw [wsHead_eq hlen, hok]; rfl, ⟨?_, ?_, fun hmasked => ?_, hplen⟩, fun s => ?_⟩
      · dsimp only
        split_ifs <;> omega
      · dsimp only
        split_ifs <;> omega
      · dsimp only at hmasked ⊢
        rw [if_pos hmasked]
        omega
      · rw [wsHead_eq (hall s), happend s, hget s 0 (by omega), hget s 1 (by omega)]
        rfl

theorem wsHead_sized {buf : Bytes} {head : WsHead} (h : wsHead buf = .ok head) : head.Sized := by
  rcases wsHead_cases buf with hmore | ⟨head', hok, hsized, -⟩
  · rw [hmore] at h
    cases h
  · rw [hok] at h
    exact Except.ok.inj h ▸ hsized

theorem wsHead_append {buf : Bytes} {head : WsHead} (h : wsHead buf = .ok head) (s : Bytes) :
    wsHead (buf ++ s) = .ok head := by
  rcases wsHead_cases buf with hmore | ⟨head', hok, -, happend⟩
  · rw [hmore] at h
    cases h
  · rw [hok] at h
    exact Except.ok.inj h ▸ happend s

theorem wsLength_short {buf : Bytes} (hlen : 2 ≤ buf.length) {e : WsStop}
    (h : wsLength buf = .error e) : e = .more ∧ buf.length < 10 := by
  rw [wsLength_eq hlen] at h
  split_ifs at h with h126 hshort h127 hshort
  · exact ⟨(Except.error.inj h).symm, by omega⟩
  · exact ⟨(Except.error.inj h).symm, hshort⟩

/-- A header has at most ten bytes in front of the mask. -/
theorem wsHead_short {buf : Bytes} {e : WsStop} (h : wsHead buf = .error e) :
    e = .more ∧ buf.length < 10 := by
  rcases Nat.lt_or_ge buf.length 2 with hshort | hlen
  · unfold wsHead at h
    rw [if_pos hshort] at h
    exact ⟨(Except.error.inj h).symm, by omega⟩
  · rw [wsHead_eq hlen] at h
    cases hlength : wsLength buf with
    | error e' =>
      rw [hlength] at h
      exact Except.error.inj h ▸ wsLength_short hlen hlength
    | ok p =>
      rw [hlength] at h
      cases h

/-! ## The payload -/

/-- The mask byte for a place. -/
def WsHead.maskAt (head : WsHead) (buf : Bytes) (i : Nat) : UInt8 :=
  if head.masked then buf.getD (head.hlen - 4 + i % 4) 0 else 0

theorem readMask_eq {buf : Bytes} {head : WsHead} (hmask : head.masked = true → 6 ≤ head.hlen)
    (i : Nat) (h : head.hlen ≤ buf.length) : readMask buf head i = .ok (head.maskAt buf i) := by
  unfold readMask WsHead.maskAt
  split_ifs with hmasked
  · have := hmask hmasked
    exact readAt_of_lt (by omega)
  · rfl

theorem unmask_inside {buf : Bytes} {head : WsHead} (hmask : head.masked = true → 6 ≤ head.hlen)
    {n i : Nat} (h : head.hlen + i + n ≤ buf.length) :
    unmask buf head n i =
      .ok (((buf.drop (head.hlen + i)).take n).mapIdx fun j s => s ^^^ head.maskAt buf (i + j)) := by
  induction n generalizing i with
  | zero => simp [unmask]
  | succ n ih =>
    have hi : head.hlen + i < buf.length := by omega
    rw [unmask, readAt_of_lt hi, readMask_eq hmask i (by omega), ih (by omega),
      List.drop_eq_getElem_cons hi, List.take_succ_cons, List.mapIdx_cons]
    simp [bind, Except.bind, pure, Except.pure, List.getElem?_eq_getElem hi, Nat.add_assoc,
      Nat.add_comm 1]

theorem unmask_outside {buf : Bytes} {head : WsHead} (hmask : head.masked = true → 6 ≤ head.hlen)
    {n i : Nat} (h : buf.length < head.hlen + i + n) (hn : 0 < n) :
    unmask buf head n i = .error .outside := by
  induction n generalizing i with
  | zero => exact absurd hn (Nat.lt_irrefl 0)
  | succ n ih =>
    rcases Nat.lt_or_ge (head.hlen + i) buf.length with hi | hi
    · rw [unmask, readAt_of_lt hi, readMask_eq hmask i (by omega), ih (by omega) (by omega)]
      rfl
    · rw [unmask, readAt_of_le hi]
      rfl

/-! ## `mini_ws_decode_frame` -/

theorem miniWsDecodeFrame_more (alloc : Nat → Bool) {buf : Bytes}
    (h : wsHead buf = .error .more) : miniWsDecodeFrame alloc buf = .error .more := by
  unfold miniWsDecodeFrame
  rw [h]
  rfl

/-- The frame that a header announces, as far as the buffer has it. -/
def WsHead.frame (head : WsHead) (buf : Bytes) : WsFrame :=
  { opcode := head.opcode, fin := head.fin
    payload := ((buf.drop head.hlen).take head.plen).mapIdx fun i s => s ^^^ head.maskAt buf i }

/-- All that the decoder can do behind a header. -/
theorem miniWsDecodeFrame_head (alloc : Nat → Bool) {buf : Bytes} {head : WsHead}
    (h : wsHead buf = .ok head) :
    miniWsDecodeFrame alloc buf =
      if buf.length < (head.hlen + head.plen) % 2 ^ 64 then .error .more
      else if alloc ((head.plen + 1) % 2 ^ 64) = false then .error .memory
      else if buf.length < head.hlen + head.plen then .error .outside
      else .ok (head.frame buf, (head.hlen + head.plen) % 2 ^ 64) := by
  have hsized := wsHead_sized h
  unfold miniWsDecodeFrame
  rw [h]
  simp only [bind, Except.bind]
  by_cases hshort : buf.length < (head.hlen + head.plen) % 2 ^ 64
  · rw [if_pos hshort, if_pos hshort]
    rfl
  · rw [if_neg hshort, if_neg hshort]
    by_cases hmem : alloc ((head.plen + 1) % 2 ^ 64) = false
    · rw [if_pos hmem, if_pos hmem]
      rfl
    · rw [if_neg hmem, if_neg hmem]
      by_cases hout : buf.length < head.hlen + head.plen
      · have hle := hsized.le
        rw [if_pos hout, unmask_outside hsized.mask (by omega) (by omega)]
      · rw [if_neg hout, unmask_inside hsized.mask (by omega)]
        simp [pure, Except.pure, WsHead.frame]

/-! ## `mini_ws_encode_frame` -/

/-- The header that the encoder writes is read back. -/
theorem wsHead_encoded {opcode : Nat} (hop : opcode < 16) (fin : Bool) {n : Nat} (hn : n < 2 ^ 64)
    (rest : Bytes) :
    wsHead (wsPrefix opcode fin n ++ rest) =
      .ok { opcode := opcode, fin := fin, masked := true, plen := n
            hlen := (wsPrefix opcode fin n).length + 4 } := by
  have hb0 : (UInt8.ofNat ((if fin then 128 else 0) + opcode % 16)).toNat =
      (if fin then 128 else 0) + opcode := by
    rw [UInt8.toNat_ofNat']
    split_ifs <;> omega
  unfold wsPrefix
  generalize UInt8.ofNat ((if fin then 128 else 0) + opcode % 16) = b0 at hb0
  have hop0 : b0.toNat % 16 = opcode := by
    rw [hb0]
    split_ifs <;> omega
  have hfin0 : decide (128 ≤ b0.toNat) = fin := by
    rw [hb0]
    cases fin
    · simpa using by omega
    · simp
  have hb1 : ∀ k < 128, (UInt8.ofNat (128 + k)).toNat = 128 + k := fun k hk => by
    rw [UInt8.toNat_ofNat']
    omega
  unfold wsLengthBytes
  split_ifs with h126 h65536
  · have hmod : (128 + n) % 128 = n := by omega
    rw [wsHead_eq (by simp), wsLength_eq (by simp)]
    simp only [List.cons_append, List.getD_cons_zero, List.getD_cons_succ, hb1 n (by omega)]
    rw [if_neg (by omega), if_neg (by omega)]
    simp [hop0, hfin0, hmod, Except.map]
  · have htake : (beBytes 2 n ++ rest).take 2 = beBytes 2 n := List.take_left' (length_beBytes 2 n)
    rw [wsHead_eq (by simp), wsLength_eq (by simp)]
    simp only [List.cons_append, List.getD_cons_zero, List.getD_cons_succ, hb1 126 (by omega)]
    rw [if_pos (by decide), if_neg (by simp)]
    simp [hop0, hfin0, htake, Except.map, beValue_beBytes (k := 2) (n := n) (by omega)]
  · have htake : (beBytes 8 n ++ rest).take 8 = beBytes 8 n := List.take_left' (length_beBytes 8 n)
    rw [wsHead_eq (by simp), wsLength_eq (by simp)]
    simp only [List.cons_append, List.getD_cons_zero, List.getD_cons_succ, hb1 127 (by omega)]
    rw [if_neg (by decide), if_pos (by decide), if_neg (by simp)]
    simp [hop0, hfin0, htake, Except.map, beValue_beBytes (k := 8) (n := n) (by omega)]

@[simp] theorem length_maskBytes (mk : Nat → UInt8) (payload : Bytes) :
    (maskBytes mk payload).length = payload.length := List.length_mapIdx

/-- The mask key twice gives the payload back. -/
theorem unmask_maskBytes (mk : Nat → UInt8) (payload : Bytes) :
    (maskBytes mk payload).mapIdx (fun i s => s ^^^ mk (i % 4)) = payload := by
  refine List.ext_getElem (by simp [maskBytes]) fun i _ hi => ?_
  simp only [maskBytes, List.getElem_mapIdx]
  rw [UInt8.xor_assoc, UInt8.xor_self, UInt8.xor_zero]

/-- The mask key stands in front of the payload. -/
theorem maskAt_encoded (mk : Nat → UInt8) (start rest : Bytes) (head : WsHead)
    (hmasked : head.masked = true) (hhlen : head.hlen = start.length + 4) (i : Nat) :
    head.maskAt (start ++ ([mk 0, mk 1, mk 2, mk 3] ++ rest)) i = mk (i % 4) := by
  have hi : i % 4 < 4 := Nat.mod_lt i (by decide)
  have hplace : head.hlen - 4 + i % 4 = start.length + i % 4 := by omega
  rw [WsHead.maskAt, if_pos hmasked, hplace, List.getD_eq_getElem?_getD,
    List.getElem?_append_right (Nat.le_add_right _ _), Nat.add_sub_cancel_left]
  interval_cases i % 4 <;> rfl

theorem miniWsEncodeFrame_eq {mk : Nat → UInt8} {opcode cap : Nat} {fin : Bool}
    {payload frame : Bytes} (h : miniWsEncodeFrame mk opcode fin payload cap = some frame) :
    frame = wsPrefix opcode fin payload.length ++
        ([mk 0, mk 1, mk 2, mk 3] ++ maskBytes mk payload) ∧
      frame.length = (wsPrefix opcode fin payload.length).length + 4 + payload.length := by
  unfold miniWsEncodeFrame at h
  dsimp only at h
  split_ifs at h
  obtain rfl := Option.some.inj h
  refine ⟨rfl, ?_⟩
  simp
  omega

/-- The header that the encoder writes, and where its frame ends. -/
theorem wsHead_frame {mk : Nat → UInt8} {opcode cap : Nat} (hop : opcode < 16) {fin : Bool}
    {payload frame : Bytes} (h : miniWsEncodeFrame mk opcode fin payload cap = some frame)
    (hint : frame.length < 2 ^ 31) :
    ∃ head, wsHead frame = .ok head ∧ head.hlen + head.plen = frame.length := by
  obtain ⟨rfl, hlength⟩ := miniWsEncodeFrame_eq h
  refine ⟨_, wsHead_encoded hop fin (by omega) _, hlength.symm⟩

/-- A whole frame is decoded, whatever follows it. -/
theorem decode_encoded {alloc : Nat → Bool} (halloc : ∀ n, n < 2 ^ 31 → alloc n = true)
    {mk : Nat → UInt8} {opcode cap : Nat} (hop : opcode < 16) {fin : Bool} {payload frame : Bytes}
    (h : miniWsEncodeFrame mk opcode fin payload cap = some frame) (hint : frame.length < 2 ^ 31)
    (suffix : Bytes) :
    miniWsDecodeFrame alloc (frame ++ suffix) = .ok (⟨opcode, fin, payload⟩, frame.length) := by
  obtain ⟨rfl, hlength⟩ := miniWsEncodeFrame_eq h
  rw [hlength] at hint ⊢
  have hframe : wsPrefix opcode fin payload.length ++
      ([mk 0, mk 1, mk 2, mk 3] ++ maskBytes mk payload) ++ suffix =
        wsPrefix opcode fin payload.length ++
          ([mk 0, mk 1, mk 2, mk 3] ++ (maskBytes mk payload ++ suffix)) := by simp
  have hfits : (wsPrefix opcode fin payload.length).length + 4 + payload.length ≤
      (wsPrefix opcode fin payload.length ++
        ([mk 0, mk 1, mk 2, mk 3] ++ (maskBytes mk payload ++ suffix))).length := by
    rw [← hframe, List.length_append, hlength]
    exact Nat.le_add_right _ _
  have hdrop : ((wsPrefix opcode fin payload.length ++
      ([mk 0, mk 1, mk 2, mk 3] ++ (maskBytes mk payload ++ suffix))).drop
        ((wsPrefix opcode fin payload.length).length + 4)).take payload.length =
          maskBytes mk payload := by
    rw [← List.append_assoc, List.drop_left' (by simp),
      List.take_left' (length_maskBytes mk payload)]
  rw [hframe, miniWsDecodeFrame_head alloc (wsHead_encoded hop fin (by omega) _)]
  dsimp only
  rw [if_neg (by omega), halloc _ (by omega), if_neg (by simp), if_neg (by omega),
    Nat.mod_eq_of_lt (by omega)]
  have hmask := maskAt_encoded mk (wsPrefix opcode fin payload.length)
    (maskBytes mk payload ++ suffix) ⟨opcode, fin, true, payload.length, _⟩ rfl rfl
  unfold WsHead.frame
  rw [hdrop]
  simp only [hmask]
  rw [unmask_maskBytes]

/-- Of a frame that is not whole, more is asked for. -/
theorem decode_prefix (alloc : Nat → Bool) {buf p : Bytes} {head : WsHead}
    (hhead : wsHead buf = .ok head) (hwhole : head.hlen + head.plen = buf.length)
    (hlength : buf.length < 2 ^ 64) (hp : p <+: buf) (hne : p ≠ buf) :
    miniWsDecodeFrame alloc p = .error .more := by
  obtain ⟨s, rfl⟩ := hp
  rcases wsHead_cases p with hmore | ⟨head', hok, -, happend⟩
  · exact miniWsDecodeFrame_more alloc hmore
  · rw [happend s] at hhead
    obtain rfl := Except.ok.inj hhead
    have hshort : p.length < (p ++ s).length := by
      rw [List.length_append]
      exact Nat.lt_add_of_pos_right
        (List.length_pos_iff.2 fun hs => hne (by rw [hs, List.append_nil]))
    rw [miniWsDecodeFrame_head alloc hok, if_pos]
    rw [Nat.mod_eq_of_lt (by omega)]
    omega

/-! ## The codec as a whole -/

/-- What is encoded is decoded, and nothing short of it is. -/
def RoundTrips (alloc : Nat → Bool) : Prop :=
  ∀ (mk : Nat → UInt8) (opcode cap : Nat) (fin : Bool) (payload frame : Bytes),
    opcode < 16 → miniWsEncodeFrame mk opcode fin payload cap = some frame →
    frame.length < 2 ^ 31 →
    (∀ suffix, miniWsDecodeFrame alloc (frame ++ suffix) =
      .ok (⟨opcode, fin, payload⟩, frame.length)) ∧
      ∀ p, p <+: frame → p ≠ frame → miniWsDecodeFrame alloc p = .error .more

/-- Of a buffer only its bytes are read, and a frame is reported only if it is there. -/
def ReadsInside (alloc : Nat → Bool) (buf : Bytes) : Prop :=
  miniWsDecodeFrame alloc buf ≠ .error .outside ∧
    ∀ frame consumed, miniWsDecodeFrame alloc buf = .ok (frame, consumed) →
      ∃ head, wsHead buf = .ok head ∧ head.hlen + head.plen ≤ buf.length ∧
        consumed = head.hlen + head.plen

/-- A header that does not reach past 64 bits; or the sum that is left is still too large, or there
is no memory for it. -/
def NoWrap (alloc : Nat → Bool) (buf : Bytes) : Prop :=
  ∀ head, wsHead buf = .ok head → 2 ^ 64 ≤ head.hlen + head.plen →
    buf.length < head.hlen + head.plen - 2 ^ 64 ∨ alloc ((head.plen + 1) % 2 ^ 64) = false

theorem roundTrips {alloc : Nat → Bool} (halloc : ∀ n, n < 2 ^ 31 → alloc n = true) :
    RoundTrips alloc := by
  intro mk opcode cap fin payload frame hop hframe hint
  refine ⟨decode_encoded halloc hop hframe hint, fun p hp hne => ?_⟩
  obtain ⟨head, hhead, hwhole⟩ := wsHead_frame hop hframe hint
  exact decode_prefix alloc hhead hwhole (by omega) hp hne

theorem readsInside_iff (alloc : Nat → Bool) (buf : Bytes) :
    ReadsInside alloc buf ↔ NoWrap alloc buf := by
  rcases wsHead_cases buf with hmore | ⟨head, hok, hsized, -⟩
  · unfold ReadsInside NoWrap
    rw [miniWsDecodeFrame_more alloc hmore, hmore]
    exact iff_of_true ⟨by simp, by simp⟩ (by simp)
  · have hle := hsized.le
    have hplen := hsized.plen
    unfold ReadsInside NoWrap
    rw [miniWsDecodeFrame_head alloc hok, hok]
    by_cases hwrap : 2 ^ 64 ≤ head.hlen + head.plen
    · have hmod : (head.hlen + head.plen) % 2 ^ 64 = head.hlen + head.plen - 2 ^ 64 := by omega
      rw [hmod]
      by_cases hshort : buf.length < head.hlen + head.plen - 2 ^ 64
      · rw [if_pos hshort]
        refine iff_of_true ⟨by simp, by simp⟩ fun head' hhead _ => ?_
        obtain rfl := Except.ok.inj hhead
        exact Or.inl hshort
      · rw [if_neg hshort]
        by_cases hmem : alloc ((head.plen + 1) % 2 ^ 64) = false
        · rw [if_pos hmem]
          refine iff_of_true ⟨by simp, by simp⟩ fun head' hhead _ => ?_
          obtain rfl := Except.ok.inj hhead
          exact Or.inr hmem
        · rw [if_neg hmem]
          refine iff_of_false (fun h => ?_) fun h => (h head rfl hwrap).elim hshort hmem
          split_ifs at h with hout
          · exact h.1 rfl
          -- a buffer so long that all is there: the sum that is reported has wrapped
          · obtain ⟨head', hhead, -, hconsumed⟩ := h.2 _ _ rfl
            obtain rfl := Except.ok.inj hhead
            omega
    · rw [Nat.mod_eq_of_lt (by omega)]
      refine iff_of_true ?_ fun head' hhead hwrap' => ?_
      · split_ifs with hshort hmem
        · exact ⟨by simp, by simp⟩
        · exact ⟨by simp, by simp⟩
        · refine ⟨by simp, fun frame consumed hframe => ⟨head, rfl, by omega, ?_⟩⟩
          exact (Prod.mk.inj (Except.ok.inj hframe)).2.symm
      · obtain rfl := Except.ok.inj hhead
        exact absurd hwrap' hwrap

/-- The codec is right on a buffer exactly if the length that it declares does not wrap. -/
theorem wsCodec_iff {alloc : Nat → Bool} (halloc : ∀ n, n < 2 ^ 31 → alloc n = true)
    (buf : Bytes) : (RoundTrips alloc ∧ ReadsInside alloc buf) ↔ NoWrap alloc buf := by
  rw [readsInside_iff]
  exact and_iff_right (roundTrips halloc)

/-- A text of two letters; `malloc` grants what has a size of 31 bits, nothing at all included. -/
theorem wsCodec_iff_small :
    let granted : Nat → Bool := fun n => decide (n < 2 ^ 31)
    NoWrap granted [0x81, 0x02, 0x68, 0x69] ∧ RoundTrips granted ∧
      ReadsInside granted [0x81, 0x02, 0x68, 0x69] := by
  intro granted
  have hhead : wsHead [0x81, 0x02, 0x68, 0x69] = .ok ⟨1, true, false, 2, 2⟩ := rfl
  have hwrap : NoWrap granted [0x81, 0x02, 0x68, 0x69] := by
    intro head h hlong
    obtain rfl := Except.ok.inj (hhead.symm.trans h)
    exact absurd hlong (by decide)
  exact ⟨hwrap, (wsCodec_iff (fun _ hn => decide_eq_true hn) _).2 hwrap⟩

/-- A declared length of 2^64 - 1: with the header it comes to 9, and `malloc(0)` gives a block. -/
theorem declared_length_wraps :
    ¬ ReadsInside (fun n => decide (n < 2 ^ 31))
      [0x82, 0x7F, 0xFF, 0xFF, 0xFF, 0xFF, 0xFF, 0xFF, 0xFF, 0xFF] := by
  rw [readsInside_iff]
  intro h
  have hhead : wsHead [0x82, 0x7F, 0xFF, 0xFF, 0xFF, 0xFF, 0xFF, 0xFF, 0xFF, 0xFF] =
      .ok ⟨2, true, false, 2 ^ 64 - 1, 10⟩ := by decide
  rcases h _ hhead (by decide) with hshort | hmem
  · exact absurd hshort (by decide)
  · exact absurd hmem (by decide)

/-! ## The frames of a stream of bytes -/

/-- The payload is in the buffer with its header. -/
theorem WsHead.frame_append {head : WsHead} (hsized : head.Sized) {b : Bytes}
    (h : head.hlen + head.plen ≤ b.length) (s : Bytes) : head.frame (b ++ s) = head.frame b := by
  have hmask : ∀ i, head.maskAt (b ++ s) i = head.maskAt b i := by
    intro i
    unfold WsHead.maskAt
    split_ifs with hmasked
    · have := hsized.mask hmasked
      simp [List.getElem?_append_left (show head.hlen - 4 + i % 4 < b.length by omega)]
    · rfl
  have hslice : ((b ++ s).drop head.hlen).take head.plen = (b.drop head.hlen).take head.plen := by
    rw [List.drop_append_of_le_length (by omega), List.take_append_of_le_length]
    rw [List.length_drop]
    omega
  unfold WsHead.frame
  rw [hslice]
  simp only [hmask]

/-- A frame off the front of a stream; lengths are numbers, and do not wrap. -/
def takeFrame (b : Bytes) : Option (WsFrame × Bytes) :=
  match wsHead b with
  | .error _ => none
  | .ok head =>
      if head.hlen + head.plen ≤ b.length then
        some (head.frame b, b.drop (head.hlen + head.plen))
      else none

theorem takeFrame_eq_some {b r : Bytes} {f : WsFrame} (h : takeFrame b = some (f, r)) :
    ∃ head, wsHead b = .ok head ∧ head.hlen + head.plen ≤ b.length ∧ f = head.frame b ∧
      r = b.drop (head.hlen + head.plen) := by
  unfold takeFrame at h
  cases hhead : wsHead b with
  | error e =>
    rw [hhead] at h
    cases h
  | ok head =>
    rw [hhead] at h
    dsimp only at h
    split_ifs at h with hle
    cases h
    exact ⟨head, rfl, hle, rfl, rfl⟩

theorem takeFrame_of_head {b : Bytes} {head : WsHead} (hhead : wsHead b = .ok head)
    (hle : head.hlen + head.plen ≤ b.length) :
    takeFrame b = some (head.frame b, b.drop (head.hlen + head.plen)) := by
  unfold takeFrame
  rw [hhead]
  exact if_pos hle

/-- The frames of a stream. -/
def wsFraming : Framing UInt8 WsFrame where
  take := takeFrame
  shorter h := by
    obtain ⟨head, hhead, hle, -, rfl⟩ := takeFrame_eq_some h
    have hpos := (wsHead_sized hhead).pos
    rw [List.length_drop]
    omega
  append h s := by
    obtain ⟨head, hhead, hle, rfl, rfl⟩ := takeFrame_eq_some h
    rw [takeFrame_of_head (wsHead_append hhead s) (hle.trans (by simp)),
      WsHead.frame_append (wsHead_sized hhead) hle, List.drop_append_of_le_length hle]

end TinyFramework.Net
