/-
  Net/Http.lean --- HTTP messages and their grammar.

  The network is a parameter: what is read from the connection until it is closed.  Connections
  are not kept, as `g_keepalive_enabled` is zero.  The times and the numbers of the recording are
  left out of the record.

  Not in the source: this says what the readers of a response are for.  A body is counted by
  `Content-Length`, chunked, or goes on until the connection is closed.
-/
import TinyFramework.Foundation.Search
import TinyFramework.Net.Cookies
import TinyFramework.Net.UrlParse
import Mathlib.Data.List.Infix

set_option autoImplicit false

namespace TinyFramework.Net

open TinyFramework.Foundation

/-- `MiniNetRecord`; a buffer that was not allocated is `none`. -/
structure MiniNetRecord where
  method : Bytes := []
  url : Bytes := []
  reqHeaders : Option Bytes := none
  reqBody : Option Bytes := none
  status : Int := 0
  respHeaders : Option Bytes := none
  respBody : Option Bytes := none
  mime : Bytes := []
  failed : Bool := false
  deriving DecidableEq, Repr

/-- What is sent, and to which server. -/
structure NetRequest where
  host : Bytes
  port : Int32
  isHttps : Bool
  text : Bytes

/-- What comes back until the connection is closed; `none` if nothing can be sent. -/
abbrev Network := NetRequest → Option Bytes

/-! ## The request -/

/-- A block of header lines, with a line break at its end. -/
def headerBlock (headers : Bytes) : Bytes :=
  if headers = [] then []
  else if headers.getLast? = some 10 then headers
  else headers ++ [13, 10]

/-- The head of the request. -/
def requestHead (method host path : Bytes) (extraHeaders : Option Bytes) (body : Bytes) : Bytes :=
  method ++ ascii " " ++ path ++ ascii " HTTP/1.1\r\nHost: " ++ host ++
    ascii "\r\nConnection: close\r\n" ++
    ascii "User-Agent: Mozilla/5.0 (Windows NT 10.0; Win64; x64) " ++
    ascii "AppleWebKit/537.36 (KHTML, like Gecko) " ++
    ascii "TinyFramework/1.0 Chrome/120 Safari/537.36\r\n" ++
    ascii "Accept: */*\r\n" ++ ascii "Accept-Language: en-US,en;q=0.9\r\n" ++
    (if body = [] then []
    else
      ascii "Content-Length: " ++ decimal body.length ++ [13, 10] ++
        if extraHeaders.any fun headers => decide ¬ ascii "Content-Type" <:+: headers then
          ascii "Content-Type: application/x-www-form-urlencoded\r\n"
        else []) ++
    headerBlock (extraHeaders.getD []) ++ [13, 10]

/-! ## The response -/

/-- The value of a hexadecimal digit. -/
def hexDigit (b : UInt8) : Option Nat :=
  if 48 ≤ b ∧ b ≤ 57 then some (b.toNat - 48)
  else if 97 ≤ b ∧ b ≤ 102 then some (b.toNat - 97 + 10)
  else if 65 ≤ b ∧ b ≤ 70 then some (b.toNat - 65 + 10)
  else none

/-- `dechunk`; `dst` is what was moved so far.  On an error the length is zero. -/
def dechunk (dst src : Bytes) : Bytes :=
  if src = [] then dst
  else
    let digits := src.takeWhile fun b => (hexDigit b).isSome
    let csz := digits.foldl (fun csz b => csz * 16 + (hexDigit b).getD 0) 0
    let rest := ((src.drop digits.length).dropWhile (· ≠ 10)).tail
    if 16 < digits.length then []
    else if _hcsz : csz = 0 then dst
    else if _hrest : rest.length < csz then []
    else dechunk (dst ++ rest.take csz) ((rest.drop csz).dropWhile fun b => b == 13 || b == 10)
termination_by src.length
decreasing_by
  have hskip := (List.dropWhile_sublist (fun b => b == 13 || b == 10) (l := rest.drop csz)).length_le
  have hline := (List.dropWhile_sublist (· ≠ (10 : UInt8)) (l := src.drop digits.length)).length_le
  have hdrop : (rest.drop csz).length = rest.length - csz := List.length_drop
  have hrest : rest.length ≤ src.length := by
    rw [List.length_tail]
    rw [List.length_drop] at hline
    omega
  show ((rest.drop csz).dropWhile fun b => b == 13 || b == 10).length < src.length
  omega

/-- What stands behind the name of a header, which may be in lower case. -/
def responseField (name lower head : Bytes) : Option Bytes :=
  ((cutAt name head).orElse fun _ => cutAt lower head).map Prod.snd

/-- The type behind `Content-Type:`. -/
def responseMime (head : Bytes) : Bytes :=
  let mime := (responseField (ascii "Content-Type:") (ascii "content-type:") head).elim [] fun ct =>
    ((ct.dropWhile fun b => b == 32 || b == 9).takeWhile
      fun b => b ≠ 0 && b ≠ 13 && b ≠ 10 && b ≠ 59).take 127
  if mime = [] then ascii "text/plain" else mime

/-- The head of a response as a string, and all that is behind it.  The code goes on searching behind
a response that has no blank line, in memory that is not modelled. -/
def splitResponse (resp : Bytes) : Bytes × Bytes :=
  (cutAt (ascii "\r\n\r\n") (cString resp)).elim (cString resp, [])
    fun cut => (cut.1, resp.drop (cut.1.length + 4))

/-- The body of a response. -/
def responseBody (head rest : Bytes) : Bytes :=
  let cl := (responseField (ascii "Content-Length:") (ascii "content-length:") head).elim (-1) atoi
  let body := if 0 ≤ cl ∧ cl.toNat ≤ rest.length then rest.take cl.toNat else rest
  if (strcasestr (ascii "chunked") head).isSome then dechunk [] body else body

/-- The number behind the first blank. -/
def responseStatus (head : Bytes) : Int := (cutAt [32] head).elim 0 fun cut => atoi cut.2

/-- What is made of a response; an empty one is a failure. -/
def readResponse (out : MiniNetRecord) (resp : Bytes) : Bool × MiniNetRecord :=
  if resp = [] then (false, { out with failed := true })
  else
    let split := splitResponse resp
    (true, { out with
      respHeaders := some split.1, respBody := some (responseBody split.1 split.2)
      status := responseStatus split.1, mime := responseMime split.1 })

/-- `mini_net_http`: whether it gives zero, and the record. -/
def miniNetHttp (network : Network) (method url : Bytes) (extraHeaders : Option Bytes)
    (body : Bytes) : Bool × MiniNetRecord :=
  let out : MiniNetRecord := { method := method.take 7, url := url.take 1023 }
  let parsed := parseUrl url 256 1024
  if parsed.1 = false then (false, { out with failed := true })
  else
    let head := requestHead method parsed.2.host parsed.2.path extraHeaders body
    match network ⟨parsed.2.host, parsed.2.port, parsed.2.isHttps, head ++ body⟩ with
    | none => (false, { out with failed := true })
    | some resp =>
        readResponse { out with
          reqHeaders := some head, reqBody := if body = [] then none else some body } resp

theorem readResponse_ok {out : MiniNetRecord} {resp : Bytes}
    (h : (readResponse out resp).1 = true) :
    (readResponse out resp).2.respHeaders.isSome = true ∧
      (readResponse out resp).2.respBody.isSome = true := by
  unfold readResponse at h ⊢
  split_ifs at h ⊢
  exact ⟨rfl, rfl⟩

/-- A response has a head and a body. -/
theorem miniNetHttp_ok {network : Network} {method url body : Bytes} {hdrs : Option Bytes}
    (h : (miniNetHttp network method url hdrs body).1 = true) :
    (miniNetHttp network method url hdrs body).2.respHeaders.isSome = true ∧
      (miniNetHttp network method url hdrs body).2.respBody.isSome = true := by
  unfold miniNetHttp at h ⊢
  dsimp only at h ⊢
  by_cases hparsed : (parseUrl url 256 1024).1 = false
  · rw [if_pos hparsed] at h
    cases h
  · rw [if_neg hparsed] at h ⊢
    split at h
    · cases h
    · exact readResponse_ok h

/-! ## The headers of a response -/

/-- The lines of a text; `line` is what was read of the one under way. -/
def crlfLines : Bytes → Bytes → List Bytes
  | line, [] => [line]
  | line, 13 :: 10 :: s => line :: crlfLines [] s
  | line, b :: s => crlfLines (line ++ [b]) s

/-- `header_value` -/
def headerValue (hdrs name : Bytes) (cap : Nat) : Option Bytes :=
  ((crlfLines [] hdrs).find? fun l =>
    decide (name.length < l.length) && strncasecmp l name name.length &&
      l[name.length]? == some 58).map
  fun line => ((line.drop (name.length + 1)).dropWhile fun b => b == 32 || b == 9).take (cap - 1)

/-- What is behind a line break, if there is one. -/
def skipBreak (p : Bytes) : Bytes :=
  let p := if p.head? = some 13 then p.tail else p
  if p.head? = some 10 then p.tail else p

theorem length_skipBreak_le (p : Bytes) : (skipBreak p).length ≤ p.length := by
  have hskip : ∀ (q : Bytes) (c : UInt8), (if q.head? = some c then q.tail else q).length ≤ q.length :=
    fun q c => by
      split_ifs
      · rw [List.length_tail]
        exact Nat.sub_le _ _
      · exact Nat.le_refl _
  exact (hskip _ 10).trans (hskip p 13)

/-- The cookies that `capture_set_cookies` finds, one after the other. -/
def setCookies (hdrs : Bytes) : List Bytes :=
  match _h : strcasestr (ascii "Set-Cookie:") hdrs with
  | none => []
  | some p =>
      let p := (p.drop 11).dropWhile fun b => b == 32 || b == 9
      let line := (p.takeWhile fun b => b ≠ 13 && b ≠ 10).take 1023
      (if line = [] then [] else [line]) ++ setCookies (skipBreak (p.drop line.length))
termination_by hdrs.length
decreasing_by
  rename_i found
  obtain ⟨hpos, hle⟩ := strcasestr_length _h
  have hblank := (List.dropWhile_sublist (fun b => b == 32 || b == 9) (l := found.drop 11)).length_le
  have hbreak := length_skipBreak_le (p.drop line.length)
  rw [List.length_drop] at hblank hbreak
  have hp : p.length ≤ found.length - 11 := hblank
  show (skipBreak (p.drop line.length)).length < hdrs.length
  omega

/-- `capture_set_cookies` -/
def captureSetCookies (jar : List MiniCookie) (now : Int) (host path : Bytes) (isHttps : Bool)
    (hdrs : Bytes) : List MiniCookie :=
  (setCookies hdrs).foldl
    (fun jar line => (miniCookiesSetFromHeader jar now host path isHttps line).2) jar

/-! ## Lines -/

/-- A byte of a line. -/
def isLineByte (b : UInt8) : Bool := b ≠ 0 && b ≠ 13 && b ≠ 10

/-- A byte of the name of a header. -/
def isNameByte (b : UInt8) : Bool :=
  isalpha b || isDecimal b || decide (b ∈ ascii "!#$%&'*+-.^_|~" ++ [96])

/-- A text without the blanks at its ends. -/
def trimBlanks (s : Bytes) : Bytes :=
  (((s.dropWhile fun b => b == 32 || b == 9).reverse).dropWhile fun b => b == 32 || b == 9).reverse

/-- A header; the blanks around its value belong to the value. -/
structure HeaderField where
  name : Bytes
  value : Bytes
  named : name ≠ []
  name_bytes : ∀ b ∈ name, isNameByte b = true
  value_bytes : ∀ b ∈ value, isLineByte b = true

namespace HeaderField

def line (f : HeaderField) : Bytes := f.name ++ 58 :: f.value

/-- Names are compared without regard to case. -/
def isNamed (f : HeaderField) (name : Bytes) : Bool := strcasecmp f.name name

/-- The value is this number. -/
def Counts (f : HeaderField) (n : Nat) : Prop :=
  trimBlanks f.value ≠ [] ∧ (∀ b ∈ trimBlanks f.value, isDecimal b = true) ∧
    digitsValue (trimBlanks f.value) = n

/-- The value is `chunked`. -/
def saysChunked (f : HeaderField) : Bool := strcasecmp (trimBlanks f.value) (ascii "chunked")

end HeaderField

/-! ## Chunks -/

/-- The number that hexadecimal digits write. -/
def hexNumber (digits : Bytes) : Nat :=
  digits.foldl (fun csz b => csz * 16 + (hexDigit b).getD 0) 0

/-- What may stand behind the size of a chunk: nothing, or what begins with a blank or `;`. -/
def IsExtension (s : Bytes) : Prop :=
  (∀ b ∈ s.head?, b = 59 ∨ b = 32 ∨ b = 9) ∧ ∀ b ∈ s, isLineByte b = true

structure Chunk where
  size : Bytes
  extension : Bytes
  data : Bytes
  size_digits : ∀ b ∈ size, (hexDigit b).isSome = true
  size_eq : hexNumber size = data.length
  extended : IsExtension extension
  filled : data ≠ []

/-- All but the line break behind the data. -/
def Chunk.front (c : Chunk) : Bytes := c.size ++ c.extension ++ 13 :: 10 :: c.data

def Chunk.text (c : Chunk) : Bytes := c.front ++ [13, 10]

structure ChunkedBody where
  chunks : List Chunk
  zeros : Nat
  extension : Bytes
  trailers : List HeaderField
  zeros_pos : 0 < zeros
  extended : IsExtension extension

namespace ChunkedBody

def chunksText (b : ChunkedBody) : Bytes := b.chunks.flatMap Chunk.text

/-- The last chunk and the trailers. -/
def lastText (b : ChunkedBody) : Bytes :=
  List.replicate b.zeros 48 ++ b.extension ++ [13, 10] ++
    b.trailers.flatMap (fun f => f.line ++ [13, 10]) ++ [13, 10]

def text (b : ChunkedBody) : Bytes := b.chunksText ++ b.lastText

def data (b : ChunkedBody) : Bytes := b.chunks.flatMap Chunk.data

/-- Where the data of the last chunk that has any ends. -/
def dataEnd (b : ChunkedBody) : Nat := b.chunksText.length - 2

end ChunkedBody

/-! ## Responses -/

inductive HttpBody where
  | counted (entity : Bytes)
  | chunked (body : ChunkedBody)
  | untilClose (entity : Bytes)

namespace HttpBody

def text : HttpBody → Bytes
  | .counted entity => entity
  | .chunked body => body.text
  | .untilClose entity => entity

def entity : HttpBody → Bytes
  | .counted entity => entity
  | .chunked body => body.data
  | .untilClose entity => entity

end HttpBody

/-- The headers say how the body is delimited, and none of them says otherwise. -/
def Framed (fields : List HeaderField) (body : HttpBody) : Prop :=
  let lengths := fields.filter fun f => f.isNamed (ascii "Content-Length")
  let codings := fields.filter fun f => f.isNamed (ascii "Transfer-Encoding")
  match body with
  | .counted entity => lengths ≠ [] ∧ (∀ f ∈ lengths, f.Counts entity.length) ∧ codings = []
  | .chunked _ => lengths = [] ∧ codings ≠ [] ∧ ∀ f ∈ codings, f.saysChunked = true
  | .untilClose _ => lengths = [] ∧ codings = []

structure HttpResponse where
  status : Nat
  reason : Bytes
  fields : List HeaderField
  body : HttpBody
  status_digits : 100 ≤ status ∧ status ≤ 999
  reason_bytes : ∀ b ∈ reason, isLineByte b = true
  framed : Framed fields body

namespace HttpResponse

def statusLine (r : HttpResponse) : Bytes :=
  ascii "HTTP/1.1 " ++ decimal r.status ++ 32 :: r.reason

/-- The status line and the headers. -/
def head (r : HttpResponse) : Bytes :=
  r.statusLine ++ r.fields.flatMap fun f => 13 :: 10 :: f.line

/-- All that is sent. -/
def text (r : HttpResponse) : Bytes := r.head ++ ascii "\r\n\r\n" ++ r.body.text

end HttpResponse

/-! ## The head -/

theorem isLineByte_iff {b : UInt8} : isLineByte b = true ↔ b ≠ 0 ∧ b ≠ 13 ∧ b ≠ 10 := by
  simp [isLineByte, and_assoc]

theorem isLineByte_of_isNameByte {b : UInt8} (h : isNameByte b = true) : isLineByte b = true := by
  rw [isLineByte_iff]
  refine ⟨?_, ?_, ?_⟩ <;> rintro rfl <;> exact absurd h (by decide)

theorem HeaderField.line_bytes (f : HeaderField) : ∀ b ∈ f.line, isLineByte b = true := by
  intro b hb
  rcases List.mem_append.1 hb with hname | hvalue
  · exact isLineByte_of_isNameByte (f.name_bytes b hname)
  · rcases List.mem_cons.1 hvalue with rfl | hvalue
    · decide
    · exact f.value_bytes b hvalue

theorem HeaderField.line_ne_nil (f : HeaderField) : f.line ≠ [] :=
  List.append_ne_nil_of_left_ne_nil f.named _

theorem HttpResponse.statusLine_bytes (r : HttpResponse) :
    ∀ b ∈ r.statusLine, isLineByte b = true := by
  intro b hb
  rcases List.mem_append.1 hb with hfront | hreason
  · have hall : ∀ c ∈ ascii "HTTP/1.1 ", isLineByte c = true := forall_mem_ascii (by decide)
    rcases List.mem_append.1 hfront with hversion | hstatus
    · exact hall b hversion
    · exact isLineByte_iff.2 (decimal_noBreak hstatus)
  · rcases List.mem_cons.1 hreason with rfl | hreason
    · decide
    · exact r.reason_bytes b hreason

end TinyFramework.Net
