/-
  Net/HttpPooled.lean --- the reading from a connection of the pool beside the reading of the whole
  stream.

  The headers say how to go on, and they are read right.  What can end the reading too early is a
  text that looks like the last chunk where a read ends, and the limits on the size; and what stands
  in the memory behind the buffer, where it ends such a text or the head.
-/
import TinyFramework.Net.HttpMeta

set_option autoImplicit false

namespace TinyFramework.Net

open TinyFramework.Foundation

variable {behind : Nat → Bytes}

/-! ## The law and its condition -/

/-- The call makes of what it reads off a connection of the pool what it would make of the whole
stream. -/
def PooledAgrees (behind : Nat → Bytes) (call : HttpCall) (r : HttpResponse) (d : Delivery r) :
    Prop :=
  readResponse call.sentRecord (pooledRead behind call.method d.segments).resp =
    readResponse call.sentRecord r.text

/-- There is room in the buffer that `read_until_headers` reads into. -/
theorem header_tmp_pos : 0 < 1024 := Nat.zero_lt_succ _

/-- The searches for the end of a head are quiet: none of a buffer without all of the head finds a
blank line with the memory behind it.  Behind a read that ends with 8 KiB there is none. -/
def HeadQuiet (behind : Nat → Bytes) (head : Bytes) (buf : Bytes) (segments : List Bytes) : Prop :=
  ∀ front b back, arrivals header_tmp_pos buf segments = front ++ b :: back →
    (∀ c ∈ front, c.length < 8192) → b.length < head.length + 4 → headerEnd behind b = none

/-- The reading goes on up to this place of the body.  Where the response has no body by rule, there
is only the place at its beginning.  No read on the way ends where what looks like a last chunk is
found, or with more than 8 MiB, if the body is chunked; or with more than 64 MiB, if it goes on until the
connection is closed or the head has not ended after 8 KiB. -/
def Delivery.Kept {r : HttpResponse} (d : Delivery r) (behind : Nat → Bytes) (method : Bytes)
    (n : Nat) : Prop :=
  let h := readUntilHeaders behind [] d.segments
  let place := r.head.length + 4 + n
  match h.off with
  | none => Unstopped closeStop tmp_pos h.buf h.rest place
  | some _ =>
      if noBody method r.status = true then n = 0
      else
        match r.body with
        | .counted _ => True
        | .chunked _ => Unstopped (chunkedStop behind) tmp_pos h.buf h.rest place
        | .untilClose _ => Unstopped closeStop tmp_pos h.buf h.rest place

/-- The head is within the limit, and the whole body is not taken for chunks where it is not
chunked, or is read rightly where it is. -/
def HttpResponse.DechunkedRightly (r : HttpResponse) : Prop :=
  r.head.length + 4 ≤ 64 * 1024 * 1024 ∧
    match r.body with
    | .chunked _ => r.ReadRightly fun _ => True
    | .counted entity | .untilClose entity =>
        entity = [] ∨ (strcasestr (ascii "chunked") r.head).isSome = false

/-- How much of the body counts: all data of the chunks; or all of it, up to the cut. -/
def HttpResponse.looksAt (r : HttpResponse) : Nat :=
  match r.body with
  | .chunked b => b.dataEnd
  | .counted entity | .untilClose entity =>
      if 0 ≤ countedText r.head ∧ countedText r.head ≤ entity.length then
        (countedText r.head).toNat
      else entity.length

/-! ## The head -/

theorem readUntilHeaders_some {buf : Bytes} {segments : List Bytes} (hfull : ¬ 8192 ≤ buf.length)
    {read : Arrival 1024 segments} (h : recv 1024 segments = some read) :
    readUntilHeaders behind buf segments =
      match headerEnd behind (buf ++ read.got) with
      | some off => ⟨some off, buf ++ read.got, read.rest⟩
      | none => readUntilHeaders behind (buf ++ read.got) read.rest := by
  rewrite [readUntilHeaders, if_neg hfull, h]
  rfl

namespace HttpResponse

/-- The end of the head is seen as soon as it is there. -/
theorem headerEnd_take (r : HttpResponse) {n : Nat} (hn : r.head.length + 4 ≤ n) :
    headerEnd behind (r.text.take n) = some (r.head.length + 4) := by
  have hne : r.head ++ ascii "\r\n\r\n" ++ r.body.text.take (n - (r.head.length + 4)) ≠ [] := by
    simp [ascii]
  rw [r.take_text hn, headerEnd, if_neg hne, bufferString, List.append_assoc, r.cString_head,
    r.cutAt_head]
  rfl

/-- With a NUL behind every buffer, the end is not seen before. -/
theorem headQuiet_nul (r : HttpResponse) {buf : Bytes} {segments : List Bytes}
    (hwhole : buf ++ segments.flatten = r.text) (hnul : ∀ n, (behind n).head? = some 0) :
    HeadQuiet behind r.head buf segments := by
  intro front b back harrivals _ hshort
  have hmem : b ∈ arrivals header_tmp_pos buf segments := by
    rw [harrivals]
    exact List.mem_append_right _ List.mem_cons_self
  have hbegin := List.prefix_iff_eq_take.1 (hwhole ▸ prefix_of_mem_arrivals hmem)
  obtain ⟨t, ht⟩ := List.head?_eq_some_iff.1 (hnul b.length)
  have hstring : bufferString behind b = b := by
    have hplain := r.cString_short hshort
    rw [← hbegin, cString_eq_self_iff] at hplain
    rw [bufferString, ht, cString, List.takeWhile_append_of_pos, List.takeWhile_cons_of_neg (by simp),
      List.append_nil]
    exact fun c hc => decide_eq_true fun hzero => hplain (hzero ▸ hc)
  rw [headerEnd, hstring]
  split_ifs with hnil
  · rfl
  · have hcut := r.cutAt_short hshort
    rw [← hbegin] at hcut
    rw [hcut]
    rfl

/-- What `read_until_headers` leaves of a response: the whole head in the buffer, or 8 KiB of it and
more. -/
structure HeadersRead (r : HttpResponse) (h : HeaderRead) : Prop where
  whole : h.buf ++ h.rest.flatten = r.text
  found : (h.off = some (r.head.length + 4) ∧ r.head.length + 4 ≤ h.buf.length) ∨
    (h.off = none ∧ 8192 ≤ h.buf.length ∧ h.buf.length < r.head.length + 4)

theorem length_text (r : HttpResponse) :
    r.text.length = r.head.length + 4 + r.body.text.length := by
  unfold text
  rw [List.length_append, r.length_blankLine]

theorem readUntilHeaders_spec (r : HttpResponse) (buf : Bytes) (segments : List Bytes)
    (hwhole : buf ++ segments.flatten = r.text) (hbuf : buf.length < r.head.length + 4)
    (hquiet : buf.length < 8192 → HeadQuiet behind r.head buf segments) :
    r.HeadersRead (readUntilHeaders behind buf segments) := by
  induction buf, segments using recvInduction (by decide : 0 < 1024) with
  | hnone buf segments h =>
    -- the stream does not end within the head
    have hlength := congrArg List.length hwhole
    rw [flatten_of_recv_none h, List.append_nil, r.length_text] at hlength
    omega
  | hsome buf segments read h ih =>
    by_cases hfull : 8192 ≤ buf.length
    · rw [readUntilHeaders, if_pos hfull]
      exact ⟨hwhole, Or.inr ⟨rfl, hfull, hbuf⟩⟩
    · have hgrown := read.joined_append buf
      rw [hwhole] at hgrown
      have hbegin : buf ++ read.got = r.text.take (buf ++ read.got).length := by
        rw [← hgrown, List.take_left]
      have harrivals : arrivals header_tmp_pos buf segments =
          (buf ++ read.got) :: arrivals header_tmp_pos (buf ++ read.got) read.rest :=
        arrivals_some h
      rw [readUntilHeaders_some hfull h]
      rcases Nat.lt_or_ge (buf ++ read.got).length (r.head.length + 4) with hshort | hend
      · rw [hquiet (Nat.lt_of_not_le hfull) [] _ _ harrivals (by simp) hshort]
        refine ih hgrown hshort fun hmore front b back hback hfront hb => ?_
        rw [hback] at harrivals
        exact hquiet (Nat.lt_of_not_le hfull) (_ :: front) b back harrivals
          (List.forall_mem_cons.2 ⟨hmore, hfront⟩) hb
      · have hfound : headerEnd behind (buf ++ read.got) = some (r.head.length + 4) :=
          hbegin ▸ r.headerEnd_take hend
        rw [hfound]
        exact ⟨hgrown, Or.inl ⟨rfl, hend⟩⟩

end HttpResponse

namespace Delivery

variable {r : HttpResponse}

/-- No search finds the end of the head too early. -/
def Quiet (d : Delivery r) (behind : Nat → Bytes) : Prop := HeadQuiet behind r.head [] d.segments

theorem headersRead (d : Delivery r) (hquiet : d.Quiet behind) :
    r.HeadersRead (readUntilHeaders behind [] d.segments) :=
  r.readUntilHeaders_spec [] d.segments d.whole (Nat.zero_lt_succ _) fun _ => hquiet

end Delivery

/-! ## A body that is counted -/

/-- All that is needed is read, if it is there. -/
theorem readExact_eq (got need : Nat) (buf : Bytes) (segments : List Bytes)
    (henough : need ≤ got + segments.flatten.length) :
    readExact got need buf segments = (buf ++ segments.flatten.take (need - got), true) := by
  induction hn : segments.flatten.length using Nat.strongRecOn generalizing got buf segments with
  | _ n ih =>
    subst hn
    rw [readExact]
    split_ifs with hneed
    · rw [Nat.sub_eq_zero_of_le hneed, List.take_zero, List.append_nil]
    · have hroom : 0 < min (need - got) 4096 := Nat.lt_min.2 ⟨by omega, by decide⟩
      cases h : recv (min (need - got) 4096) segments with
      | none =>
        rw [flatten_of_recv_none h, List.length_nil] at henough
        omega
      | some read =>
        have hlength := congrArg List.length read.joined
        rw [List.length_append] at hlength
        have hfits : read.got.length ≤ need - got := (Nat.le_min.1 read.fits).1
        have htake : (read.got ++ read.rest.flatten).take (need - got) =
            read.got ++ read.rest.flatten.take (need - (got + read.got.length)) := by
          rw [List.take_append, List.take_of_length_le hfits, Nat.sub_add_eq]
        dsimp only
        rw [ih _ (read.shorter hroom) (got + read.got.length) (buf ++ read.got) read.rest
          (by omega) rfl, ← read.joined, htake, List.append_assoc]

/-! ## What is read -/

namespace Delivery

variable {r : HttpResponse}

/-- Behind a head that is read, the status is there. -/
theorem responseStatus_buf (r : HttpResponse) (rest : Bytes) :
    responseStatus (cString (r.head ++ ascii "\r\n\r\n" ++ rest)) = r.status := by
  have hsplit : r.head ++ ascii "\r\n\r\n" ++ cString rest = r.statusLine ++
      ((r.fields.flatMap fun f => 13 :: 10 :: f.line) ++ (ascii "\r\n\r\n" ++ cString rest)) := by
    simp [HttpResponse.head]
  rw [r.cString_head, hsplit]
  generalize
    (r.fields.flatMap fun f => 13 :: 10 :: f.line) ++ (ascii "\r\n\r\n" ++ cString rest) = z
  have htake := r.responseStatus_take (Nat.le_add_right 12 (r.statusLine ++ z).length) z
  rw [List.take_of_length_le (Nat.le_add_left _ 12)] at htake
  exact htake

/-- What is read from the pool where the head is in the buffer. -/
theorem pooledRead_found (d : Delivery r) (hquiet : d.Quiet behind) (method : Bytes)
    (hoff : (readUntilHeaders behind [] d.segments).off = some (r.head.length + 4))
    (hbuf : r.head.length + 4 ≤ (readUntilHeaders behind [] d.segments).buf.length) :
    (pooledRead behind method d.segments).resp =
      if noBody method r.status = true then r.head ++ ascii "\r\n\r\n"
      else
        match r.body with
        | .counted _ => r.text
        | .chunked _ =>
            readChunked behind (readUntilHeaders behind [] d.segments).buf (readUntilHeaders behind [] d.segments).rest
        | .untilClose _ =>
            readUntilClose (readUntilHeaders behind [] d.segments).buf
              (readUntilHeaders behind [] d.segments).rest := by
  have hwhole := (d.headersRead hquiet).whole
  unfold pooledRead
  generalize readUntilHeaders behind [] d.segments = h at hoff hbuf hwhole ⊢
  have hbegin : h.buf = r.text.take h.buf.length := by rw [← hwhole, List.take_left]
  rw [r.take_text hbuf] at hbegin
  have hmemory : h.buf ++ behind h.buf.length = r.head ++ ascii "\r\n\r\n" ++
      (r.body.text.take (h.buf.length - (r.head.length + 4)) ++ behind h.buf.length) := by
    have hsame := congrArg (fun buf => buf ++ behind h.buf.length) hbegin
    exact hsame.trans (List.append_assoc _ _ _)
  obtain ⟨hcl, hchunked⟩ := r.parseMeta_head
    (r.body.text.take (h.buf.length - (r.head.length + 4)) ++ behind h.buf.length)
  have hstatus := responseStatus_buf r
    (r.body.text.take (h.buf.length - (r.head.length + 4)) ++ behind h.buf.length)
  rw [← hmemory] at hcl hchunked hstatus
  have hfront : h.buf.take (r.head.length + 4) = r.head ++ ascii "\r\n\r\n" := by
    rw [hbegin, List.take_left' r.length_blankLine]
  dsimp only
  rw [hoff]
  dsimp only
  rw [bufferString, hstatus, hcl, hchunked]
  by_cases hnone : noBody method r.status = true
  · rw [if_pos (Or.inl hnone), if_pos hnone]
    exact hfront
  rw [if_neg hnone]
  cases hkind : r.body with
  | chunked b =>
    have hlen : r.announcedLength = -1 := by rw [HttpResponse.announcedLength, hkind]
    have hch : r.announcesChunks = true := by rw [HttpResponse.announcesChunks, hkind]
    rw [hlen, hch, if_neg (not_or.2 ⟨hnone, by decide⟩), if_pos rfl]
  | untilClose e =>
    have hlen : r.announcedLength = -1 := by rw [HttpResponse.announcedLength, hkind]
    have hch : r.announcesChunks = false := by rw [HttpResponse.announcesChunks, hkind]
    rw [hlen, hch, if_neg (not_or.2 ⟨hnone, by decide⟩), if_neg Bool.false_ne_true,
      if_neg (by decide)]
  | counted e =>
    have hlen : r.announcedLength = e.length := by rw [HttpResponse.announcedLength, hkind]
    have hch : r.announcesChunks = false := by rw [HttpResponse.announcesChunks, hkind]
    have htext : r.text = r.head ++ ascii "\r\n\r\n" ++ e := by
      rw [HttpResponse.text, hkind]
      rfl
    have hjoined := congrArg List.length hwhole
    rw [List.length_append, htext, List.length_append, r.length_blankLine] at hjoined
    rw [hlen, hch]
    by_cases hempty : e = []
    · rw [if_pos (Or.inr (by rw [hempty]; rfl)), htext, hempty, List.append_nil]
      exact hfront
    · have hpos := List.length_pos_iff.2 hempty
      rw [if_neg (not_or.2 ⟨hnone, by omega⟩), if_neg Bool.false_ne_true, if_pos (by omega)]
      split_ifs with hmissing
      · rw [readExact_eq _ _ _ _ (by omega), List.take_of_length_le (by omega), hwhole]
      · -- all is in the buffer already
        have hrest : h.rest.flatten = [] := List.length_eq_zero_iff.1 (by omega)
        rw [← hwhole, hrest, List.append_nil]

/-- What is read where the head is not in the buffer. -/
theorem pooledRead_missing (d : Delivery r) (method : Bytes)
    (hoff : (readUntilHeaders behind [] d.segments).off = none) :
    (pooledRead behind method d.segments).resp =
      readUntilClose (readUntilHeaders behind [] d.segments).buf
        (readUntilHeaders behind [] d.segments).rest := by
  unfold pooledRead
  dsimp only
  rw [hoff]

/-- What is read is a beginning of the response. -/
theorem pooled_begins (d : Delivery r) (hquiet : d.Quiet behind) (method : Bytes) :
    (pooledRead behind method d.segments).resp <+: r.text := by
  have hwhole := (d.headersRead hquiet).whole
  rcases (d.headersRead hquiet).found with ⟨hoff, hbuf⟩ | ⟨hoff, -, -⟩
  · rw [d.pooledRead_found hquiet method hoff hbuf]
    split_ifs with hnone
    · exact List.prefix_append _ _
    · cases r.body with
      | counted e => exact List.prefix_rfl
      | chunked b => exact hwhole ▸ (readUntil_between (chunkedStop behind) _ _ _).2
      | untilClose e => exact hwhole ▸ (readUntil_between closeStop _ _ _).2
  · rw [d.pooledRead_missing method hoff]
    exact hwhole ▸ (readUntil_between closeStop _ _ _).2

/-- It reaches a place of the body exactly if the reading goes on up to there. -/
theorem kept_iff (d : Delivery r) (hquiet : d.Quiet behind) (method : Bytes) {n : Nat}
    (hn : n ≤ r.body.text.length) :
    d.Kept behind method n ↔ r.head.length + 4 + n ≤ (pooledRead behind method d.segments).resp.length := by
  have hplace : r.head.length + 4 + n ≤ ((readUntilHeaders behind [] d.segments).buf ++
      (readUntilHeaders behind [] d.segments).rest.flatten).length := by
    rw [(d.headersRead hquiet).whole, r.length_text]
    omega
  unfold Kept
  rcases (d.headersRead hquiet).found with ⟨hoff, hbuf⟩ | ⟨hoff, -, -⟩
  · rw [d.pooledRead_found hquiet method hoff hbuf]
    dsimp only
    rw [hoff]
    dsimp only
    by_cases hnone : noBody method r.status = true
    · rw [if_pos hnone, if_pos hnone, r.length_blankLine]
      omega
    · rw [if_neg hnone, if_neg hnone]
      have htext := r.length_text
      cases hkind : r.body with
      | counted e => exact iff_of_true trivial (by dsimp only; omega)
      | chunked b => exact (le_length_readUntil_iff hplace).symm
      | untilClose e => exact (le_length_readUntil_iff hplace).symm
  · rw [d.pooledRead_missing method hoff]
    dsimp only
    rw [hoff]
    exact (le_length_readUntil_iff hplace).symm

/-- Of a head that ends within 64 MiB all is read. -/
theorem kept_zero (d : Delivery r) (hquiet : d.Quiet behind) (method : Bytes)
    (hhead : r.head.length + 4 ≤ 64 * 1024 * 1024) : d.Kept behind method 0 := by
  have hstart : ∀ buf segments,
      Unstopped closeStop tmp_pos buf segments (r.head.length + 4 + 0) := by
    intro buf segments b _ hlt
    exact decide_eq_false (by omega)
  unfold Kept
  rcases (d.headersRead hquiet).found with ⟨hoff, hbuf⟩ | ⟨hoff, -, -⟩
  · dsimp only
    rw [hoff]
    dsimp only
    split_ifs
    · rfl
    · cases r.body with
      | counted e => trivial
      | chunked b => exact unstopped_of_le hbuf
      | untilClose e => exact hstart _ _
  · dsimp only
    rw [hoff]
    exact hstart _ _

end Delivery

/-! ## What is made of it -/

namespace HttpResponse

/-- The number behind the first text `Content-Length:` cuts a beginning of a body and all of it
alike exactly if the beginning reaches what counts. -/
theorem plain_alike_iff (r : HttpResponse)
    (hplain : (strcasestr (ascii "chunked") r.head).isSome = false) (k : Nat) :
    responseBody r.head (r.body.text.take k) = responseBody r.head r.body.text ↔
      (if 0 ≤ countedText r.head ∧ countedText r.head ≤ r.body.text.length then
        (countedText r.head).toNat else r.body.text.length) ≤ k := by
  obtain ⟨m, hcut, hreach⟩ := cut_eq (countedText r.head) r.body.text k
  obtain ⟨M, hwhole, hall⟩ := cut_eq (countedText r.head) r.body.text r.body.text.length
  rw [List.take_length] at hwhole
  have hbody : ∀ w, responseBody r.head w =
      if 0 ≤ countedText r.head ∧ (countedText r.head).toNat ≤ w.length then
        w.take (countedText r.head).toNat else w := by
    intro w
    show (if (strcasestr (ascii "chunked") r.head).isSome then _ else _) = _
    rw [hplain]
    rfl
  rw [hbody, hbody, hcut, hwhole, List.take_eq_take_iff]
  generalize countedText r.head = cl at hreach hall ⊢
  generalize r.body.text.length = len at hreach hall ⊢
  have hm := hreach (min m len) (Nat.min_le_right _ _)
  have hM := hall (min M len) (Nat.min_le_right _ _)
  split_ifs with hcl
  · have hm' := hreach cl.toNat (by omega)
    have hM' := hall cl.toNat (by omega)
    omega
  · have hm' := hreach len (Nat.le_refl _)
    have hM' := hall len (Nat.le_refl _)
    omega

/-- Beginnings of chunks give the same as all of them exactly if they reach the end of the data,
where all of them are read rightly. -/
theorem chunked_alike_iff (r : HttpResponse) {b : ChunkedBody} (hkind : r.body = .chunked b)
    (hright : r.ReadRightly fun _ => True) (k : Nat) :
    responseBody r.head (r.body.text.take k) = responseBody r.head r.body.text ↔ b.dataEnd ≤ k := by
  have hwhole : responseBody r.head r.body.text = r.body.entity := by
    have htake := r.responseBody_take_iff r.body.text.length
    rw [List.take_length] at htake
    exact htake.2 ((r.readRightly_congr fun n hn => iff_of_true hn trivial).2 hright)
  rw [hwhole, r.responseBody_take_iff]
  unfold ReadRightly at hright ⊢
  rw [hkind] at hright ⊢
  rcases hright with hnil | ⟨hsizes, hend, hzeros⟩
  · refine iff_of_true (Or.inl hnil) ?_
    rw [ChunkedBody.dataEnd_eq_zero hnil]
    exact Nat.zero_le k
  · constructor
    · rintro (hnil | ⟨-, hlooks, -⟩)
      · rw [ChunkedBody.dataEnd_eq_zero hnil]
        exact Nat.zero_le k
      · exact hlooks.1
    · intro hk
      exact Or.inr ⟨hsizes, ⟨hk, hend.2⟩, fun hlong => hzeros ⟨hlong.1, trivial, hlong.2.2⟩⟩

theorem looksAt_le (r : HttpResponse) : r.looksAt ≤ r.body.text.length := by
  have hcut : ∀ e : Bytes, (if 0 ≤ countedText r.head ∧ countedText r.head ≤ e.length then
      (countedText r.head).toNat else e.length) ≤ e.length := by
    intro e
    split_ifs <;> omega
  unfold looksAt
  cases r.body with
  | counted e => exact hcut e
  | untilClose e => exact hcut e
  | chunked b => exact b.dataEnd_le

/-- A beginning of the body gives the same as all of it exactly if it reaches what counts. -/
theorem alike_iff (r : HttpResponse) (hright : r.DechunkedRightly) (k : Nat) :
    responseBody r.head (r.body.text.take k) = responseBody r.head r.body.text ↔ r.looksAt ≤ k := by
  obtain ⟨-, hright⟩ := hright
  have hlooks := r.looksAt_le
  have hempty : r.body.text = [] →
      (responseBody r.head (r.body.text.take k) = responseBody r.head r.body.text ↔
        r.looksAt ≤ k) := by
    intro hnil
    rw [hnil] at hlooks ⊢
    rw [List.take_nil]
    exact iff_of_true rfl (hlooks.trans (Nat.zero_le k))
  have hplain := fun h => r.plain_alike_iff h k
  unfold looksAt at hempty ⊢
  cases hkind : r.body with
  | counted e =>
    rw [hkind] at hright hempty hplain
    exact hright.elim hempty hplain
  | untilClose e =>
    rw [hkind] at hright hempty hplain
    exact hright.elim hempty hplain
  | chunked b =>
    have hchunked := r.chunked_alike_iff hkind (by rw [hkind] at hright; exact hright) k
    rw [hkind] at hchunked
    exact hchunked

end HttpResponse

/-- For all calls, all well-formed responses, all segments and whatever stands behind the buffers: if
no search ends the head too early and the reading goes on up to the end of the body, it agrees with
the reading of the whole stream; and where the latter does not go wrong over chunks, exactly if it
goes on as far as the body counts. -/
theorem pooled_agrees (behind : Nat → Bytes) (call : HttpCall) (r : HttpResponse) (d : Delivery r) :
    (d.Quiet behind → d.Kept behind call.method r.body.text.length →
        PooledAgrees behind call r d) ∧
      (d.Quiet behind → r.DechunkedRightly →
        (PooledAgrees behind call r d ↔ d.Kept behind call.method r.looksAt)) := by
  have hbegins := fun hquiet : d.Quiet behind =>
    List.prefix_iff_eq_take.1 (d.pooled_begins hquiet call.method)
  unfold PooledAgrees
  constructor
  · intro hquiet hkept
    have hread := hbegins hquiet
    have hall := (d.kept_iff hquiet call.method (Nat.le_refl _)).1 hkept
    rw [← r.length_text] at hall
    rw [hread, List.take_of_length_le hall]
  · intro hquiet hright
    have hread := hbegins hquiet
    have hhead := (d.kept_iff hquiet call.method (Nat.zero_le _)).1
      (d.kept_zero hquiet call.method hright.1)
    have hwhole := r.readResponse_take call.sentRecord (n := r.text.length) (by
      rw [r.length_text]
      exact Nat.le_add_right _ _)
    have hrest : r.text.length - (r.head.length + 4) = r.body.text.length := by
      rw [r.length_text]
      omega
    rw [List.take_length, hrest, List.take_length] at hwhole
    rw [d.kept_iff hquiet call.method r.looksAt_le, hwhole, hread, r.readResponse_take _ hhead, ← hread]
    have hplace : r.head.length + 4 + r.looksAt ≤ (pooledRead behind call.method d.segments).resp.length ↔
        r.looksAt ≤ (pooledRead behind call.method d.segments).resp.length - (r.head.length + 4) := by
      omega
    rw [hplace, ← r.alike_iff hright]
    constructor
    · intro hsame
      have hbody := congrArg (fun got => got.2.respBody) hsame
      exact Option.some.inj hbody
    · intro hbody
      rw [hbody]

theorem no_extension : IsExtension [] :=
  ⟨fun b hb => absurd hb (Option.not_mem_none b), fun _ hb => absurd hb List.not_mem_nil⟩

/-- A chunk whose data look like a last chunk. -/
def decoyChunk : Chunk :=
  { size := ascii "a", extension := [], data := ascii "\r\n0\r\n\r\nxyz"
    size_digits := by decide +kernel, size_eq := by decide +kernel
    extended := no_extension, filled := by decide +kernel }

def codingField : HeaderField :=
  { name := ascii "Transfer-Encoding", value := ascii " chunked"
    named := by rw [ascii_ofList]; decide
    name_bytes := forall_mem_ascii (by decide), value_bytes := forall_mem_ascii (by decide) }

def decoyBody : ChunkedBody :=
  { chunks := [decoyChunk], zeros := 1, extension := [], trailers := [], zeros_pos := Nat.one_pos
    extended := no_extension }

def decoyResponse : HttpResponse :=
  okResponse [codingField] (.chunked decoyBody) ⟨rfl, by decide, by decide⟩

/-- A read ends behind what looks like the last chunk. -/
def decoyDelivery : Delivery decoyResponse :=
  { segments :=
      [decoyResponse.head ++ ascii "\r\n\r\n", ascii "a\r\n\r\n0\r\n\r\n",
        ascii "xyz\r\n0\r\n\r\n"]
    whole := by decide }

/-- The reading ends there, and the chunk is not whole, also where a NUL stands behind. -/
theorem decoy_ends_body : ¬ PooledAgrees (fun _ => [0]) pageCall decoyResponse decoyDelivery := by
  unfold PooledAgrees
  decide +kernel

end TinyFramework.Net
