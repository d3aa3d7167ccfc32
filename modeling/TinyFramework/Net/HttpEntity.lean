/-
  Net/HttpEntity.lean --- readers of a response and its entity.

  What the peer sends arrives in segments, the peer closes the connection behind them, and no
  `recv` fails.  Whether the connection goes back to the pool is read off as well.

  A buffer is not ended by a NUL: what is searched as a string goes on in the memory behind it.
  `behind n` are the bytes behind a buffer that holds `n` bytes.

  The status is always right.  The body is cut behind the first text `Content-Length:` of the head,
  wherever that stands, and taken for chunks where the head holds `chunked` anywhere.
-/
import TinyFramework.Foundation.Arrivals
import TinyFramework.Net.Dechunk

set_option autoImplicit false

namespace TinyFramework.Net

open TinyFramework.Foundation

/-! ## The readers -/

/-- The string that a search in a buffer sees. -/
def bufferString (behind : Nat → Bytes) (buf : Bytes) : Bytes := cString (buf ++ behind buf.length)

/-- `hdr_end_off`, if the string in the buffer has a blank line; an empty buffer is no buffer. -/
def headerEnd (behind : Nat → Bytes) (buf : Bytes) : Option Nat :=
  if buf = [] then none
  else (cutAt (ascii "\r\n\r\n") (bufferString behind buf)).map fun cut => cut.1.length + 4

/-- What `read_until_headers` leaves: `hdr_end_off`, the buffer and what was not read. -/
structure HeaderRead where
  off : Option Nat
  buf : Bytes
  rest : List Bytes

/-- `read_until_headers` -/
def readUntilHeaders (behind : Nat → Bytes) (buf : Bytes) (segments : List Bytes) : HeaderRead :=
  if 8192 ≤ buf.length then ⟨none, buf, segments⟩
  else
    match recv 1024 segments with
    | none => ⟨headerEnd behind buf, buf, segments⟩
    | some read =>
        match headerEnd behind (buf ++ read.got) with
        | some off => ⟨some off, buf ++ read.got, read.rest⟩
        | none => readUntilHeaders behind (buf ++ read.got) read.rest
termination_by segments.flatten.length
decreasing_by exact read.shorter (by decide)

/-- `read_exact`: the buffer, and whether all was there. -/
def readExact (got need : Nat) (buf : Bytes) (segments : List Bytes) : Bytes × Bool :=
  if _hneed : need ≤ got then (buf, true)
  else
    match recv (min (need - got) 4096) segments with
    | none => (buf, false)
    | some read => readExact (got + read.got.length) need (buf ++ read.got) read.rest
termination_by segments.flatten.length
decreasing_by exact read.shorter (Nat.lt_min.2 ⟨by omega, by decide⟩)

/-- There is room in the buffers that `read_chunked` and `read_until_close` read into. -/
theorem tmp_pos : 0 < 4096 := Nat.zero_lt_succ _

/-- What stops `read_chunked`: a last chunk in the string of the buffer, or too much. -/
def chunkedStop (behind : Nat → Bytes) (raw : Bytes) : Bool :=
  (cutAt (ascii "\r\n0\r\n\r\n") (bufferString behind raw)).isSome ||
    decide (8 * 1024 * 1024 < raw.length)

/-- `read_chunked` -/
def readChunked (behind : Nat → Bytes) (raw : Bytes) (segments : List Bytes) : Bytes :=
  readUntil (chunkedStop behind) tmp_pos raw segments

/-- What stops `read_until_close`. -/
def closeStop (buf : Bytes) : Bool := decide (64 * 1024 * 1024 < buf.length)

/-- `read_until_close` -/
def readUntilClose (buf : Bytes) (segments : List Bytes) : Bytes :=
  readUntil closeStop tmp_pos buf segments

/-! ## What the headers say -/

/-- What `mini_net_parse_response_meta` finds out. -/
structure ResponseMeta where
  cl : Int := -1
  chunked : Bool := false
  close : Bool := false
  deriving DecidableEq, Repr

/-- `HNAME` -/
def hasName (p : Bytes) (llen : Nat) (name : Bytes) : Bool :=
  decide (name.length < llen) && strncasecmp p name name.length && p[name.length]? == some 58

/-- One line, which is the first `llen` bytes of `p`.  The searches go on behind it. -/
def responseMetaLine (m : ResponseMeta) (p : Bytes) (llen : Nat) : ResponseMeta :=
  if hasName p llen (ascii "Content-Length") then
    match scanInt (cString (p.drop 15)) with
    | none => m
    | some (v, _) => { m with cl := v }
  else if hasName p llen (ascii "Transfer-Encoding") then
    if (strcasestr (ascii "chunked") (cString (p.drop 18))).isSome then { m with chunked := true }
    else m
  else if hasName p llen (ascii "Connection") then
    if (strcasestr (ascii "close") (cString (p.drop 11))).isSome then { m with close := true }
    else m
  else m

theorem less_behind_line {p : Bytes} {left : Nat}
    (h : ((p.take left).takeWhile (· ≠ 13)).length ≠ (p.take left).length) :
    left - (((p.take left).takeWhile (· ≠ 13)).length + 1) < left := by
  have hshort := (List.takeWhile_sublist (· ≠ (13 : UInt8)) (l := p.take left)).length_le
  have htake : (p.take left).length ≤ left := List.length_take_le _ _
  omega

/-- The lines of the first `left` bytes of `p`. -/
def responseMetaLines (m : ResponseMeta) (p : Bytes) (left : Nat) : ResponseMeta :=
  let line := (p.take left).takeWhile (· ≠ 13)
  if _hline : line.length = (p.take left).length then m
  else
    let m := responseMetaLine m p line.length
    let next := p.drop (line.length + 1)
    let more := left - (line.length + 1)
    if 0 < more ∧ next.head? = some 10 then responseMetaLines m next.tail (more - 1)
    else responseMetaLines m next more
termination_by left
decreasing_by
  · exact Nat.lt_of_le_of_lt (Nat.sub_le _ 1) (less_behind_line _hline)
  · exact less_behind_line _hline

/-- `mini_net_parse_response_meta` of the first `hlen` bytes of a buffer. -/
def miniNetParseResponseMeta (hdrs : Bytes) (hlen : Nat) : ResponseMeta :=
  responseMetaLines {} hdrs hlen

/-! ## The two ways to read -/

/-- What is read, and whether the connection can be used again. -/
structure ResponseRead where
  resp : Bytes
  reusable : Bool

/-- The rule for responses that have no body. -/
def noBody (method : Bytes) (rstatus : Int) : Bool :=
  decide (100 ≤ rstatus ∧ rstatus < 200) || rstatus == 204 || rstatus == 304 ||
    strcasecmp method (ascii "HEAD")

/-- The reading from a connection of the pool.  Where the end of the head was found in the memory
behind the buffer, `body_have` wraps, and no length is more. -/
def pooledRead (behind : Nat → Bytes) (method : Bytes) (segments : List Bytes) : ResponseRead :=
  let h := readUntilHeaders behind [] segments
  match h.off with
  | none => { resp := readUntilClose h.buf h.rest, reusable := false }
  | some off =>
      let m := miniNetParseResponseMeta (h.buf ++ behind h.buf.length) off
      let have_ := h.buf.length - off
      if noBody method (responseStatus (bufferString behind h.buf)) = true ∨ m.cl = 0 then
        { resp := h.buf.take off, reusable := !m.close }
      else if m.chunked then { resp := readChunked behind h.buf h.rest, reusable := !m.close }
      else if 0 ≤ m.cl then
        if off ≤ h.buf.length ∧ have_ < m.cl.toNat then
          let got := readExact have_ m.cl.toNat h.buf h.rest
          { resp := got.1, reusable := !m.close && got.2 }
        else { resp := h.buf, reusable := !m.close }
      else { resp := readUntilClose h.buf h.rest, reusable := false }

/-- The reading from a connection for one request. -/
def oneOffRead (segments : List Bytes) : ResponseRead :=
  { resp := readUntilClose [] segments, reusable := false }

/-! ## Calls and deliveries -/

/-- The arguments of a call that gets as far as a connection. -/
structure HttpCall where
  method : Bytes
  url : Bytes
  extraHeaders : Option Bytes
  body : Bytes
  connects : (parseUrl url 256 1024).1 = true

namespace HttpCall

/-- The record when the request is sent. -/
def sentRecord (call : HttpCall) : MiniNetRecord :=
  let parsed := parseUrl call.url 256 1024
  { method := call.method.take 7, url := call.url.take 1023
    reqHeaders := some
      (requestHead call.method parsed.2.host parsed.2.path call.extraHeaders call.body)
    reqBody := if call.body = [] then none else some call.body }

/-- The call, with a connection for it alone. -/
def oneOff (call : HttpCall) (segments : List Bytes) : Bool × MiniNetRecord :=
  miniNetHttp (fun _ => some (oneOffRead segments).resp) call.method call.url call.extraHeaders
    call.body

theorem oneOff_eq (call : HttpCall) (segments : List Bytes) :
    call.oneOff segments = readResponse call.sentRecord (oneOffRead segments).resp := by
  have hparsed : ¬ (parseUrl call.url 256 1024).1 = false := by
    rw [call.connects]
    exact Bool.noConfusion
  unfold oneOff miniNetHttp
  dsimp only
  rw [if_neg hparsed]
  rfl

end HttpCall

/-- A response on its way, in any segments. -/
structure Delivery (r : HttpResponse) where
  segments : List Bytes
  whole : segments.flatten = r.text

/-! ## The law and its condition -/

/-- The call returns the body and the status that the response carries. -/
def EntityReturned (call : HttpCall) (r : HttpResponse) (d : Delivery r) : Prop :=
  (call.oneOff d.segments).1 = true ∧
    (call.oneOff d.segments).2.respBody = some r.body.entity ∧
      (call.oneOff d.segments).2.status = r.status

/-- The number behind the first text `Content-Length:`, or else `content-length:`, of a head. -/
def countedText (head : Bytes) : Int :=
  (responseField (ascii "Content-Length:") (ascii "content-length:") head).elim (-1) atoi

/-- The body is there as far as `n`, and not cut before. -/
def HttpResponse.Looks (r : HttpResponse) (reaches : Nat → Prop) (n : Nat) : Prop :=
  reaches n ∧ (0 ≤ countedText r.head → n ≤ countedText r.head)

/-- A body that is read rightly, as far as it is there.  One that is not chunked: the head holds
`chunked` nowhere, and all of the body is looked at.  One that is: no size has more than sixteen
digits, and all of the data is looked at, but no seventeenth zero of the last chunk. -/
def HttpResponse.ReadRightly (r : HttpResponse) (reaches : Nat → Prop) : Prop :=
  r.body.entity = [] ∨
    match r.body with
    | .chunked b =>
        (∀ c ∈ b.chunks, c.size.length ≤ 16) ∧ r.Looks reaches b.dataEnd ∧
          ¬ (16 < b.zeros ∧ r.Looks reaches (b.chunksText.length + 17))
    | .counted entity | .untilClose entity =>
        (strcasestr (ascii "chunked") r.head).isSome = false ∧ r.Looks reaches entity.length

/-- No read ends with more than 64 MiB before this place of the body. -/
def Delivery.Received {r : HttpResponse} (d : Delivery r) (n : Nat) : Prop :=
  Unstopped closeStop tmp_pos [] d.segments (r.head.length + 4 + n)

/-! ## The head -/

/-- The blank line is found behind the lines, which are not empty. -/
theorem cutAt_lines (first : Bytes) (hfirst : 13 ∉ first) (fields : List HeaderField)
    (rest : Bytes) :
    cutAt (ascii "\r\n\r\n")
        (first ++ fields.flatMap (fun f => 13 :: 10 :: f.line) ++ ascii "\r\n\r\n" ++ rest) =
      some (first ++ fields.flatMap (fun f => 13 :: 10 :: f.line), rest) := by
  induction fields generalizing first with
  | nil =>
    rw [List.flatMap_nil, List.append_nil, List.append_assoc, cutAt_skip rfl hfirst]
    have hhere : cutAt (ascii "\r\n\r\n") (ascii "\r\n\r\n" ++ rest) = some ([], rest) := by
      show (if ascii "\r\n\r\n" <+: ascii "\r\n\r\n" ++ rest then _ else _) = _
      rw [if_pos (List.prefix_append _ _)]
      rfl
    rw [hhere, Option.map_some, List.append_nil]
  | cons f fields ih =>
    have hline : 13 ∉ f.line := fun h => (isLineByte_iff.1 (f.line_bytes 13 h)).2.1 rfl
    have hnext := ih f.line hline
    rw [List.flatMap_cons]
    generalize fields.flatMap (fun f => 13 :: 10 :: f.line) = lines at hnext ⊢
    have hsplit : first ++ (13 :: 10 :: f.line ++ lines) ++ ascii "\r\n\r\n" ++ rest =
        first ++ 13 :: 10 :: (f.line ++ lines ++ ascii "\r\n\r\n" ++ rest) := by simp
    rw [hsplit, cutAt_skip rfl hfirst]
    -- a line that is not empty follows, so the blank line is not here
    obtain ⟨b, line, hb⟩ := List.exists_cons_of_ne_nil f.line_ne_nil
    have hne : b ≠ 13 := by
      rintro rfl
      exact hline (hb ▸ List.mem_cons_self)
    rw [hb] at hnext ⊢
    have hskip : ∀ s : Bytes, cutAt (ascii "\r\n\r\n") (13 :: 10 :: b :: s) =
        (cutAt (ascii "\r\n\r\n") (b :: s)).map fun cut => (13 :: 10 :: cut.1, cut.2) := by
      intro s
      have h13 : ¬ ascii "\r\n\r\n" <+: 13 :: 10 :: b :: s := by
        rintro ⟨t, ht⟩
        exact hne (List.cons.inj (List.cons.inj (List.cons.inj ht).2).2).1.symm
      have h10 : ¬ ascii "\r\n\r\n" <+: 10 :: b :: s := by
        rintro ⟨t, ht⟩
        exact absurd (List.cons.inj ht).1 (by decide)
      rw [cutAt, if_neg h13, cutAt, if_neg h10, Option.map_map]
      rfl
    rw [List.cons_append, List.cons_append, List.cons_append, hskip, ← List.cons_append,
      ← List.cons_append, ← List.cons_append, hnext]
    simp

namespace HttpResponse

theorem head_noNul (r : HttpResponse) : ∀ b ∈ r.head, b ≠ 0 := by
  intro b hb
  rcases List.mem_append.1 hb with hstatus | hfields
  · exact (isLineByte_iff.1 (r.statusLine_bytes b hstatus)).1
  · obtain ⟨f, -, hb⟩ := List.mem_flatMap.1 hfields
    rcases List.mem_cons.1 hb with rfl | hb
    · decide
    · rcases List.mem_cons.1 hb with rfl | hb
      · decide
      · exact (isLineByte_iff.1 (f.line_bytes b hb)).1

theorem cutAt_head (r : HttpResponse) (rest : Bytes) :
    cutAt (ascii "\r\n\r\n") (r.head ++ ascii "\r\n\r\n" ++ rest) = some (r.head, rest) :=
  cutAt_lines r.statusLine (fun h => (isLineByte_iff.1 (r.statusLine_bytes 13 h)).2.1 rfl) r.fields
    rest

theorem blankLine_noNul (r : HttpResponse) : ∀ b ∈ r.head ++ ascii "\r\n\r\n", b ≠ 0 := by
  have hblank : ∀ c ∈ ascii "\r\n\r\n", c ≠ 0 := forall_mem_ascii (by decide)
  intro b hb
  rcases List.mem_append.1 hb with hb | hb
  · exact r.head_noNul b hb
  · exact hblank b hb

theorem cString_head (r : HttpResponse) (rest : Bytes) :
    cString (r.head ++ ascii "\r\n\r\n" ++ rest) = r.head ++ ascii "\r\n\r\n" ++ cString rest :=
  List.takeWhile_append_of_pos fun b hb => decide_eq_true (r.blankLine_noNul b hb)

theorem length_blankLine (r : HttpResponse) :
    (r.head ++ ascii "\r\n\r\n").length = r.head.length + 4 := by
  simp [ascii]

/-- A beginning of the text with all of the head is split behind it. -/
theorem split_head (r : HttpResponse) (rest : Bytes) :
    splitResponse (r.head ++ ascii "\r\n\r\n" ++ rest) = (r.head, rest) := by
  unfold splitResponse
  rw [cString_head, cutAt_head]
  show (r.head, (r.head ++ ascii "\r\n\r\n" ++ rest).drop (r.head.length + 4)) = _
  rw [List.drop_left' r.length_blankLine]

theorem take_short (r : HttpResponse) {n : Nat} (hn : n < r.head.length + 4) :
    r.text.take n = (r.head ++ ascii "\r\n\r\n").take n :=
  List.take_append_of_le_length (by rw [r.length_blankLine]; omega)

theorem cString_short (r : HttpResponse) {n : Nat} (hn : n < r.head.length + 4) :
    cString (r.text.take n) = r.text.take n := by
  rw [r.take_short hn, cString_eq_self_iff]
  exact fun h => r.blankLine_noNul 0 (List.mem_of_mem_take h) rfl

/-- In a beginning without all of the head there is no blank line. -/
theorem cutAt_short (r : HttpResponse) {n : Nat} (hn : n < r.head.length + 4) :
    cutAt (ascii "\r\n\r\n") (r.text.take n) = none := by
  have hcut := r.cutAt_head []
  rw [List.append_nil] at hcut
  rw [r.take_short hn]
  exact cutAt_take_none hcut hn

/-- So it is not split. -/
theorem split_short (r : HttpResponse) {n : Nat} (hn : n < r.head.length + 4) :
    splitResponse (r.text.take n) = (r.text.take n, []) := by
  unfold splitResponse
  rw [r.cString_short hn, r.cutAt_short hn]
  rfl

theorem statusLine_eq (r : HttpResponse) (rest : Bytes) : r.statusLine ++ rest =
    ascii "HTTP/1.1" ++ 32 :: (decimal r.status ++ 32 :: (r.reason ++ rest)) := by
  simp [statusLine, ascii]

theorem responseStatus_front (r : HttpResponse) {rest : Bytes}
    (hrest : ∀ b ∈ rest.head?, isDecimal b = false) :
    responseStatus (ascii "HTTP/1.1" ++ 32 :: (decimal r.status ++ rest)) = r.status := by
  have hcut : cutAt [32] (ascii "HTTP/1.1" ++ 32 :: (decimal r.status ++ rest)) =
      some (ascii "HTTP/1.1", decimal r.status ++ rest) := by
    rw [cutAt_skip (c := 32) rfl (by decide)]
    rfl
  unfold responseStatus
  rw [hcut]
  exact atoi_decimal r.status rest hrest

/-- The status is read off any beginning that has it. -/
theorem responseStatus_take (r : HttpResponse) {n : Nat} (hn : 12 ≤ n) (rest : Bytes) :
    responseStatus ((r.statusLine ++ rest).take n) = r.status := by
  have hdigits : (decimal r.status).length ≤ 3 :=
    length_decimal_le (by decide) (by have := r.status_digits; omega)
  obtain ⟨m, rfl⟩ := Nat.exists_eq_add_of_le hn
  have htake : (ascii "HTTP/1.1" ++ 32 :: (decimal r.status ++ 32 :: (r.reason ++ rest))).take
      (12 + m) = ascii "HTTP/1.1" ++ 32 :: (decimal r.status ++
        (32 :: (r.reason ++ rest)).take (12 + m - 9 - (decimal r.status).length)) := by
    have hlength : (ascii "HTTP/1.1").length = 8 := by decide
    rw [List.take_append, List.take_of_length_le (by omega), hlength,
      show 12 + m - 8 = (12 + m - 9) + 1 by omega, List.take_succ_cons, List.take_append,
      List.take_of_length_le (by omega)]
  rw [statusLine_eq, htake]
  refine r.responseStatus_front fun b hb => ?_
  rw [List.head?_take] at hb
  split_ifs at hb
  · cases hb
  · obtain rfl := Option.some.inj hb
    decide

theorem responseStatus_head (r : HttpResponse) : responseStatus r.head = r.status := by
  have htake : responseStatus (r.head.take (12 + r.head.length)) = r.status :=
    r.responseStatus_take (Nat.le_add_right _ _) _
  rw [List.take_of_length_le (Nat.le_add_left _ _)] at htake
  exact htake

end HttpResponse

/-! ## The body -/

theorem trimBlanks_within (s : Bytes) : trimBlanks s <:+: s := by
  have hfront := List.dropWhile_suffix (fun b : UInt8 => b == 32 || b == 9) (l := s)
  have hback := List.dropWhile_suffix (fun b : UInt8 => b == 32 || b == 9)
    (l := (s.dropWhile fun b => b == 32 || b == 9).reverse)
  have hprefix := List.reverse_prefix.2 hback
  rw [List.reverse_reverse] at hprefix
  exact hprefix.isInfix.trans hfront.isInfix

namespace HttpResponse

theorem field_within (r : HttpResponse) {f : HeaderField} (hf : f ∈ r.fields) :
    f.value <:+: r.head := by
  have hline : f.value <:+: f.line := ⟨f.name ++ [58], [], by simp [HeaderField.line]⟩
  have hfields : 13 :: 10 :: f.line <:+: r.fields.flatMap fun f => 13 :: 10 :: f.line := by
    obtain ⟨a, c, hac⟩ := List.append_of_mem hf
    rw [hac]
    exact ⟨a.flatMap fun f => 13 :: 10 :: f.line, c.flatMap fun f => 13 :: 10 :: f.line, by simp⟩
  have hbreak : f.line <:+: 13 :: 10 :: f.line := ⟨[13, 10], [], by simp⟩
  exact ((hline.trans hbreak).trans hfields).trans ⟨r.statusLine, [], by simp [head]⟩

/-- The header that announces chunks is seen. -/
theorem chunked_seen (r : HttpResponse) {b : ChunkedBody} (hbody : r.body = .chunked b) :
    (strcasestr (ascii "chunked") r.head).isSome = true := by
  have hframed := r.framed
  rw [hbody] at hframed
  obtain ⟨-, hsome, hall⟩ := hframed
  obtain ⟨f, hf⟩ := List.exists_mem_of_ne_nil _ hsome
  obtain ⟨s, t, hhead⟩ :=
    (trimBlanks_within f.value).trans (r.field_within (List.mem_of_mem_filter hf))
  rw [← hhead]
  exact strcasestr_isSome (by decide) (hall f hf)

end HttpResponse

namespace ChunkedBody

theorem length_text (b : ChunkedBody) :
    b.chunksText.length + (b.zeros + 4) ≤ b.text.length := by
  unfold text
  rw [lastText_eq]
  simp only [List.length_append, List.length_replicate, List.length_cons, List.length_nil]
  omega

theorem dataEnd_le (b : ChunkedBody) : b.dataEnd ≤ b.text.length := by
  have htext := b.length_text
  unfold dataEnd
  omega

theorem seventeenth_le (b : ChunkedBody) (hlong : 16 < b.zeros) :
    b.chunksText.length + 17 ≤ b.text.length := by
  have htext := b.length_text
  omega

end ChunkedBody

/-- The cut behind the text `Content-Length:`. -/
theorem cut_eq (cl : Int) (w : Bytes) (k : Nat) : ∃ m,
    (if 0 ≤ cl ∧ cl.toNat ≤ (w.take k).length then (w.take k).take cl.toNat else w.take k) =
        w.take m ∧
      ∀ n ≤ w.length, n ≤ m ↔ n ≤ k ∧ (0 ≤ cl → (n : Int) ≤ cl) := by
  have hlength : (w.take k).length = min k w.length := List.length_take
  split_ifs with hcut
  · refine ⟨cl.toNat, ?_, fun n hn => ?_⟩
    · rw [List.take_take, Nat.min_eq_left (by omega)]
    · omega
  · exact ⟨k, rfl, fun n hn => by omega⟩

namespace HttpResponse

/-- The body that is made of a beginning of the body's text is the one that the response carries
exactly if it is read rightly. -/
theorem responseBody_take_iff (r : HttpResponse) (k : Nat) :
    responseBody r.head (r.body.text.take k) = r.body.entity ↔ r.ReadRightly (· ≤ k) := by
  obtain ⟨m, hcut, hreach⟩ := cut_eq (countedText r.head) r.body.text k
  have hbody : responseBody r.head (r.body.text.take k) =
      if (strcasestr (ascii "chunked") r.head).isSome then dechunk [] (r.body.text.take m)
      else r.body.text.take m := by
    rw [← hcut]
    rfl
  have hlooks : ∀ n ≤ r.body.text.length, n ≤ m ↔ r.Looks (· ≤ k) n := hreach
  rw [hbody]
  unfold ReadRightly
  have hplain : ∀ e : Bytes, r.body.text = e →
      ((if (strcasestr (ascii "chunked") r.head).isSome then dechunk [] (e.take m)
        else e.take m) = e ↔
        e = [] ∨
          ((strcasestr (ascii "chunked") r.head).isSome = false ∧ r.Looks (· ≤ k) e.length)) := by
    intro e he
    rcases List.eq_nil_or_concat e with hnil | hconcat
    · rw [hnil, List.take_nil, dechunk_nil, ite_self]
      exact iff_of_true rfl (Or.inl rfl)
    have hne : e ≠ [] := by
      obtain ⟨front, b, rfl⟩ := hconcat
      simp
    rw [or_iff_right hne, ← hlooks e.length (Nat.le_of_eq (congrArg List.length he.symm))]
    cases hseen : (strcasestr (ascii "chunked") r.head).isSome with
    | false =>
      rw [if_neg Bool.false_ne_true, List.take_eq_self_iff, and_iff_right rfl]
    | true =>
      -- what is taken for chunks comes out shorter
      rw [if_pos rfl]
      refine iff_of_false (fun h => ?_) fun h => Bool.noConfusion h.1
      by_cases hnone : e.take m = []
      · rw [hnone, dechunk_nil] at h
        exact hne h.symm
      · have hless := length_dechunk_lt [] hnone
        rw [h, List.length_take, List.length_nil] at hless
        omega
  cases hkind : r.body with
  | counted e =>
    rw [hkind] at hplain
    exact hplain e rfl
  | untilClose e =>
    rw [hkind] at hplain
    exact hplain e rfl
  | chunked b =>
    rw [r.chunked_seen hkind, if_pos rfl]
    rw [hkind] at hlooks
    show dechunk [] (b.text.take m) = b.data ↔ b.data = [] ∨ _
    by_cases hnil : b.data = []
    · rw [hnil]
      exact iff_of_true (b.dechunk_take_nil m hnil) (Or.inl rfl)
    · rw [or_iff_right hnil, b.dechunk_take_iff m hnil, hlooks b.dataEnd b.dataEnd_le]
      exact and_congr_right fun _ => and_congr_right fun _ => not_congr
        (and_congr_right fun hlong => hlooks _ (b.seventeenth_le hlong))

theorem looks_congr (r : HttpResponse) {p q : Nat → Prop} {n : Nat} (h : p n ↔ q n) :
    r.Looks p n ↔ r.Looks q n :=
  and_congr_left fun _ => h

/-- Only what is there of the body counts. -/
theorem readRightly_congr (r : HttpResponse) {p q : Nat → Prop}
    (h : ∀ n ≤ r.body.text.length, p n ↔ q n) : r.ReadRightly p ↔ r.ReadRightly q := by
  unfold ReadRightly
  refine or_congr_right ?_
  cases hkind : r.body with
  | counted e =>
    rw [hkind] at h
    exact and_congr_right fun _ => r.looks_congr (h e.length (Nat.le_refl _))
  | untilClose e =>
    rw [hkind] at h
    exact and_congr_right fun _ => r.looks_congr (h e.length (Nat.le_refl _))
  | chunked b =>
    rw [hkind] at h
    exact and_congr_right fun _ => and_congr (r.looks_congr (h _ b.dataEnd_le)) (not_congr
      (and_congr_right fun hlong => r.looks_congr (h _ (b.seventeenth_le hlong))))

/-- Where nothing of the body is there, it is right if there is none. -/
theorem readRightly_none (r : HttpResponse) :
    r.ReadRightly (fun _ => False) ↔ r.body.entity = [] := by
  unfold ReadRightly
  refine or_iff_left ?_
  cases r.body with
  | counted e => exact fun h => h.2.1
  | untilClose e => exact fun h => h.2.1
  | chunked b => exact fun h => h.2.1.1

/-! ## A response that is read in part -/

theorem length_text_ge (r : HttpResponse) : 12 ≤ r.text.length := by
  have hdigits := List.length_pos_iff.2 (decimal_ne_nil r.status)
  simp only [text, head, statusLine, ascii, List.length_append, List.length_cons, List.length_map]
  have hversion : "HTTP/1.1 ".toList.length = 9 := by decide
  have hblank : "\r\n\r\n".toList.length = 4 := by decide
  omega

theorem take_text (r : HttpResponse) {n : Nat} (hn : r.head.length + 4 ≤ n) :
    r.text.take n =
      r.head ++ ascii "\r\n\r\n" ++ r.body.text.take (n - (r.head.length + 4)) := by
  have hlength := r.length_blankLine
  unfold text
  rw [List.take_append, List.take_of_length_le (by omega), hlength]

/-- The record of a beginning with all of the head. -/
theorem readResponse_take (r : HttpResponse) (out : MiniNetRecord) {n : Nat}
    (hn : r.head.length + 4 ≤ n) : readResponse out (r.text.take n) =
      (true, { out with
        respHeaders := some r.head
        respBody := some (responseBody r.head (r.body.text.take (n - (r.head.length + 4))))
        status := r.status, mime := responseMime r.head }) := by
  have hne : r.text.take n ≠ [] := by
    rw [r.take_text hn]
    simp [ascii]
  unfold readResponse
  rw [if_neg hne, r.take_text hn, r.split_head]
  dsimp only
  rw [responseStatus_head]

theorem responseBody_nil (head : Bytes) : responseBody head [] = [] := by
  unfold responseBody
  dsimp only
  rw [List.take_nil, ite_self, dechunk_nil, ite_self]

/-- The record of a beginning without all of the head. -/
theorem readResponse_short (r : HttpResponse) (out : MiniNetRecord) {n : Nat} (hfront : 12 ≤ n)
    (hn : n < r.head.length + 4) : readResponse out (r.text.take n) =
      (true, { out with
        respHeaders := some (r.text.take n), respBody := some [], status := r.status
        mime := responseMime (r.text.take n) }) := by
  have hlength := r.length_text_ge
  have hne : r.text.take n ≠ [] := by
    rw [Ne, List.take_eq_nil_iff]
    rintro (hzero | hnil)
    · omega
    · rw [hnil] at hlength
      exact absurd hlength (by decide)
  have hstatus : responseStatus (r.text.take n) = r.status := by
    unfold text head
    rw [List.append_assoc, List.append_assoc]
    exact r.responseStatus_take hfront _
  unfold readResponse
  rw [if_neg hne, r.split_short hn]
  dsimp only
  rw [hstatus, responseBody_nil]

end HttpResponse

/-! ## The connection that is closed -/

namespace Delivery

variable {r : HttpResponse}

/-- What is read is a beginning of the response. -/
theorem oneOff_begins (d : Delivery r) : (oneOffRead d.segments).resp <+: r.text := by
  rw [← d.whole]
  exact (readUntil_between closeStop tmp_pos [] d.segments).2

/-- It reaches a place of the body exactly if that is received. -/
theorem received_iff (d : Delivery r) {n : Nat} (hn : n ≤ r.body.text.length) :
    d.Received n ↔ r.head.length + 4 + n ≤ (oneOffRead d.segments).resp.length := by
  refine (le_length_readUntil_iff ?_).symm
  rw [List.nil_append, d.whole]
  simp only [HttpResponse.text, ascii, List.length_append, List.length_map]
  have hblank : "\r\n\r\n".toList.length = 4 := by decide
  omega

/-- The first 64 MiB are always read. -/
theorem length_oneOff_ge (d : Delivery r) : 12 ≤ (oneOffRead d.segments).resp.length := by
  refine (le_length_readUntil_iff ?_).2 fun b _ hlt => decide_eq_false (by omega)
  rw [List.nil_append, d.whole]
  exact r.length_text_ge

end Delivery

/-- For all calls, all well-formed responses and all segments: the status is right, and the body
exactly if it is read rightly as far as it is received. -/
theorem entityReturned_iff (call : HttpCall) (r : HttpResponse) (d : Delivery r) :
    EntityReturned call r d ↔ r.ReadRightly d.Received := by
  have hread := List.prefix_iff_eq_take.1 d.oneOff_begins
  unfold EntityReturned
  rw [call.oneOff_eq, hread]
  rcases Nat.lt_or_ge (oneOffRead d.segments).resp.length (r.head.length + 4) with hshort | hlong
  · rw [r.readResponse_short _ d.length_oneOff_ge hshort, r.readRightly_congr (q := fun _ => False)
      fun n hn => by rw [d.received_iff hn]; exact iff_false_intro (by omega), r.readRightly_none]
    constructor
    · rintro ⟨-, hbody, -⟩
      exact (Option.some.inj hbody).symm
    · exact fun hnil => ⟨rfl, congrArg some hnil.symm, rfl⟩
  · rw [r.readResponse_take _ hlong, r.readRightly_congr
      (q := (· ≤ (oneOffRead d.segments).resp.length - (r.head.length + 4)))
      fun n hn => by rw [d.received_iff hn]; omega, ← r.responseBody_take_iff]
    constructor
    · rintro ⟨-, hbody, -⟩
      exact Option.some.inj hbody
    · exact fun hbody => ⟨rfl, congrArg some hbody, rfl⟩

/-- A response of status 200. -/
def okResponse (fields : List HeaderField) (body : HttpBody) (framed : Framed fields body) :
    HttpResponse :=
  { status := 200, reason := ascii "OK", fields, body, status_digits := by decide
    reason_bytes := forall_mem_ascii (by decide), framed }

/-- The header `X-Content-Length: 2`. -/
def otherLengthField : HeaderField :=
  { name := ascii "X-Content-Length", value := ascii " 2", named := by rw [ascii_ofList]; decide
    name_bytes := forall_mem_ascii (by decide), value_bytes := forall_mem_ascii (by decide) }

/-- A response with that header, whose body goes on until the connection is closed. -/
def otherLengthResponse : HttpResponse :=
  okResponse [otherLengthField] (.untilClose (ascii "hello")) ⟨rfl, rfl⟩

def otherLengthDelivery : Delivery otherLengthResponse :=
  { segments := [otherLengthResponse.text], whole := List.append_nil _ }

/-- A page of `a.test`. -/
def pageCall : HttpCall :=
  { method := ascii "GET", url := ascii "http://a.test/", extraHeaders := none, body := []
    connects := by decide }

/-- The end of another header's name counts the body. -/
theorem body_cut_by_other_header :
    ¬ EntityReturned pageCall otherLengthResponse otherLengthDelivery := by
  rintro ⟨-, hbody, -⟩
  revert hbody
  decide +kernel

end TinyFramework.Net
