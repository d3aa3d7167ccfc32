/-
  Net/UrlParse.lean --- `parse_url` of `mini_net.c` beside `mini_origin_parse`.

  One parser says which server a security decision is about, the other which server is
  contacted.  A host of the first ends at a query or a fragment too, and the second reads a
  port of zero as none.
-/
import TinyFramework.Net.Policy

set_option autoImplicit false

namespace TinyFramework.Net

open TinyFramework.Foundation

/-- What `parse_url` fills in. -/
structure ParsedUrl where
  host : Bytes
  port : Int32
  path : Bytes
  isHttps : Bool
  deriving DecidableEq, Repr

/-- What is behind `http://` or `https://`, and whether it is the latter. -/
def httpRest (url : Bytes) : Option (Bytes × Bool) :=
  if ascii "http://" <+: url then some (url.drop 7, false)
  else if ascii "https://" <+: url then some (url.drop 8, true)
  else none

/-- A byte that goes on with the host of an address. -/
def isUrlHost (b : UInt8) : Bool := b ≠ 58 && b ≠ 47

/-- `parse_url`: whether it succeeds, and what it fills in; `hcap` and `pcap` are the sizes of
the buffers. -/
def parseUrl (url : Bytes) (hcap pcap : Nat) : Bool × ParsedUrl :=
  let start := (httpRest url).getD (url, false)
  let isHttps := start.2
  let p := start.1
  let host := (p.takeWhile isUrlHost).take (hcap - 1)
  let p := p.drop host.length
  let usual := if isHttps then 443 else 80
  let port :=
    if p.head? = some 58 then
      if readPort p.tail = 0 then usual else readPort p.tail
    else usual
  let p := if p.head? = some 58 then p.tail.dropWhile isDecimal else p
  let path := if p.head? = some 47 then p.take (pcap - 1) else [47]
  (host ≠ [], { host := host, port := port, path := path, isHttps := isHttps })

/-- Both parsers say the same host and port. -/
def SameServer (url : Bytes) : Prop :=
  (miniOriginParse url).2.host = (parseUrl url 256 1024).2.host ∧
    (miniOriginParse url).2.port = (parseUrl url 256 1024).2.port

/-- A URL on which the parsers agree.  Behind `http://` or `https://`: no query and no fragment
begins right behind the host, but for a host of 255 bytes, and a port that is written is not zero.
Otherwise `parse_url` takes the scheme for the host, and the port is 80.  A port is what an `int`
holds of it. -/
def PlainAuthority (url : Bytes) : Prop :=
  match httpRest url with
  | some (p, _) =>
      let host := p.takeWhile isOriginHost
      let next := p.drop (host.take 255).length
      (next.head? = some 63 ∨ next.head? = some 35 → host.length = 255) ∧
        (next.head? = some 58 → readPort next.tail ≠ 0)
  | none =>
      let scheme := url.takeWhile (· ≠ 58)
      let p := url.drop (scheme.length + 3)
      let host := (p.takeWhile isOriginHost).take 255
      let next := p.drop host.length
      host = scheme.takeWhile (· ≠ 47) ∧ (next.head? = some 58 → readPort next.tail = 80)

instance (url : Bytes) : Decidable (PlainAuthority url) := by
  unfold PlainAuthority
  split <;> infer_instance

/-! ## Texts that end where a predicate does -/

/-- A longer reading goes on where a shorter one ends. -/
theorem takeWhile_split {q r : UInt8 → Bool} (hqr : ∀ b, q b = true → r b = true) (p : Bytes) :
    p.takeWhile r = p.takeWhile q ++ (p.drop (p.takeWhile q).length).takeWhile r := by
  induction p with
  | nil => rfl
  | cons b p ih =>
    cases hq : q b with
    | true =>
      rw [List.takeWhile_cons_of_pos (hqr b hq), List.takeWhile_cons_of_pos hq, List.length_cons,
        List.drop_succ_cons, List.cons_append, ← ih]
    | false =>
      rw [List.takeWhile_cons_of_neg (p := q) (by simp [hq])]
      rfl

/-- Behind a reading stands nothing, or a byte that it does not take. -/
theorem head_drop_takeWhile (q : UInt8 → Bool) (p : Bytes) :
    ∀ b ∈ (p.drop (p.takeWhile q).length).head?, q b = false := by
  induction p with
  | nil => simp
  | cons a p ih =>
    cases hq : q a with
    | true =>
      rw [List.takeWhile_cons_of_pos hq, List.length_cons, List.drop_succ_cons]
      exact ih
    | false =>
      rw [List.takeWhile_cons_of_neg (by simp [hq])]
      simp [hq]

/-- Within a reading stands a byte that it takes. -/
theorem head_drop_of_lt {q : UInt8 → Bool} {p : Bytes} {k : Nat}
    (hk : k < (p.takeWhile q).length) : ∀ b ∈ (p.drop k).head?, q b = true := by
  intro b hb
  rw [List.head?_drop] at hb
  obtain ⟨t, ht⟩ := List.takeWhile_prefix q (l := p)
  have hget : (p.takeWhile q)[k]? = some b := by
    have hinside : (p.takeWhile q ++ t)[k]? = (p.takeWhile q)[k]? := List.getElem?_append_left hk
    rw [← hinside, ht]
    exact hb
  exact List.mem_takeWhile_imp (List.mem_of_getElem? hget)

/-! ## http and https -/

theorem isUrlHost_iff (b : UInt8) : isUrlHost b = true ↔ isOriginHost b = true ∨ b = 63 ∨ b = 35 := by
  by_cases hquery : b = 63
  · subst hquery
    simp [isUrlHost]
  · by_cases hfragment : b = 35
    · subst hfragment
      simp [isUrlHost]
    · simp [isUrlHost, isOriginHost, hquery, hfragment]

/-- Cut to one length, the hosts are the same unless a query or a fragment begins before it. -/
theorem takeHost_eq_iff (p : Bytes) (n : Nat) :
    (p.takeWhile isOriginHost).take n = (p.takeWhile isUrlHost).take n ↔
      ((p.drop (p.takeWhile isOriginHost).length).head? = some 63 ∨
        (p.drop (p.takeWhile isOriginHost).length).head? = some 35 →
          n ≤ (p.takeWhile isOriginHost).length) := by
  have hstop := head_drop_takeWhile isOriginHost p
  rw [takeWhile_split (r := isUrlHost) (fun b hb => (isUrlHost_iff b).2 (Or.inl hb)) p,
    List.take_append]
  generalize p.takeWhile isOriginHost = host at hstop ⊢
  generalize p.drop host.length = next at hstop ⊢
  cases next with
  | nil => simp
  | cons b next =>
    have hb : isOriginHost b = false := hstop b rfl
    have htake : (b :: next).takeWhile isUrlHost ≠ [] ↔ b = 63 ∨ b = 35 := by
      rw [List.takeWhile_cons, Ne]
      have hurl := isUrlHost_iff b
      rw [hb] at hurl
      split_ifs with h <;> simp_all
    rw [List.head?_cons, Option.some.injEq, Option.some.injEq, List.self_eq_append_right,
      List.take_eq_nil_iff, Nat.sub_eq_zero_iff_le, ← htake]
    by_cases hnil : (b :: next).takeWhile isUrlHost = [] <;> simp [hnil]

/-- The ports are the same unless zero is written. -/
theorem port_eq_iff (usual : Int32) (husual : usual ≠ 0) (p : Bytes) :
    (if p.head? = some 58 then readPort p.tail else usual) =
        (if p.head? = some 58 then
          if readPort p.tail = 0 then usual else readPort p.tail
        else usual) ↔
      (p.head? = some 58 → readPort p.tail ≠ 0) := by
  split_ifs with hcolon hzero
  · rw [hzero]
    exact ⟨fun h => absurd h.symm husual, fun h => absurd rfl (h hcolon)⟩
  · exact ⟨fun _ _ => hzero, fun _ => rfl⟩
  · exact ⟨fun _ h => absurd h hcolon, fun _ => rfl⟩

/-! ## The scheme -/

/-- A text that `mini_origin_parse` takes has a short scheme, `://` and a host. -/
theorem miniOriginParse_split {url : Bytes} (h : (miniOriginParse url).1 = true) :
    ∃ scheme p, url = scheme ++ 58 :: 47 :: 47 :: p ∧ (58 : UInt8) ∉ scheme ∧
      scheme.length ≤ 7 ∧ (miniOriginParse url).2 = originAuthority scheme p := by
  unfold miniOriginParse at h ⊢
  dsimp only at h ⊢
  have hprefix : (url.takeWhile (· ≠ 58)).take 7 <+: url :=
    (List.take_prefix _ _).trans (List.takeWhile_prefix _)
  have hmem : ∀ b ∈ (url.takeWhile (· ≠ 58)).take 7, b ≠ 58 := by
    intro b hb
    have htaken := List.mem_takeWhile_imp (List.mem_of_mem_take hb)
    simpa using htaken
  have hlength : ((url.takeWhile (· ≠ 58)).take 7).length ≤ 7 := List.length_take_le _ _
  generalize (url.takeWhile (· ≠ 58)).take 7 = scheme at h hprefix hmem hlength ⊢
  split_ifs at h ⊢ with hslashes
  obtain ⟨rest, rfl⟩ := hprefix
  rw [List.drop_left] at hslashes
  obtain ⟨p, rfl⟩ := hslashes
  refine ⟨scheme, p, rfl, fun hcolon => hmem 58 hcolon rfl, hlength, ?_⟩
  rw [List.drop_append, List.drop_of_length_le (by omega)]
  simp [ascii]

theorem takeWhile_urlHost {s t : Bytes} (hs : (58 : UInt8) ∉ s) :
    (s ++ 58 :: t).takeWhile isUrlHost = s.takeWhile (· ≠ 47) := by
  induction s with
  | nil => simp [isUrlHost]
  | cons b s ih =>
    rw [List.mem_cons, not_or] at hs
    have hb : isUrlHost b = decide (b ≠ 47) := by simp [isUrlHost, Ne.symm hs.1]
    rw [List.cons_append, List.takeWhile_cons, List.takeWhile_cons, ih hs.2, hb]

/-- Without `http://` and `https://` the scheme is taken for the host, and the port is 80. -/
theorem parseUrl_other {scheme p : Bytes} (hscheme : (58 : UInt8) ∉ scheme)
    (hlength : scheme.length ≤ 7) (hnone : httpRest (scheme ++ 58 :: 47 :: 47 :: p) = none) :
    (parseUrl (scheme ++ 58 :: 47 :: 47 :: p) 256 1024).2.host = scheme.takeWhile (· ≠ 47) ∧
      (parseUrl (scheme ++ 58 :: 47 :: 47 :: p) 256 1024).2.port = 80 := by
  have hshort : (scheme.takeWhile (· ≠ 47)).length ≤ 255 :=
    ((List.takeWhile_sublist _).length_le.trans hlength).trans (by omega)
  unfold parseUrl
  rw [hnone, Option.getD_none]
  dsimp only
  rw [takeWhile_urlHost hscheme, List.take_of_length_le hshort, if_neg Bool.false_ne_true]
  refine ⟨rfl, ?_⟩
  -- behind a scheme that is a host stand the slashes, and no digit
  have hafter : ∀ s : Bytes, (58 : UInt8) ∉ s →
      ((s ++ 58 :: 47 :: 47 :: p).drop (s.takeWhile (· ≠ 47)).length).head? = some 58 →
      readPort ((s ++ 58 :: 47 :: 47 :: p).drop (s.takeWhile (· ≠ 47)).length).tail = 0 := by
    intro s hs
    induction s with
    | nil => exact fun _ => rfl
    | cons b s ih =>
      rw [List.mem_cons, not_or] at hs
      by_cases hb : b = 47
      · subst hb
        intro hcolon
        exact absurd hcolon (by simp)
      · rw [List.takeWhile_cons_of_pos (by simpa using hb), List.length_cons, List.cons_append,
          List.drop_succ_cons]
        exact ih hs.2
  split_ifs with hcolon hzero
  · rfl
  · exact absurd (hafter scheme hscheme hcolon) hzero
  · rfl

/-! ## Agreement -/

theorem httpRest_eq_some {url p : Bytes} {isHttps : Bool} (h : httpRest url = some (p, isHttps)) :
    url = ascii (if isHttps then "https" else "http") ++ 58 :: 47 :: 47 :: p := by
  unfold httpRest at h
  split_ifs at h with hhttp hhttps
  · obtain ⟨t, rfl⟩ := hhttp
    obtain ⟨rfl, rfl⟩ := Prod.mk.inj (Option.some.inj h)
    rfl
  · obtain ⟨t, rfl⟩ := hhttps
    obtain ⟨rfl, rfl⟩ := Prod.mk.inj (Option.some.inj h)
    rfl

/-- The byte behind a host of 255 bytes or fewer. -/
theorem next_query_iff (p : Bytes) :
    ((p.drop (p.takeWhile isOriginHost).length).head? = some 63 ∨
        (p.drop (p.takeWhile isOriginHost).length).head? = some 35 →
          255 ≤ (p.takeWhile isOriginHost).length) ↔
      ((p.drop ((p.takeWhile isOriginHost).take 255).length).head? = some 63 ∨
        (p.drop ((p.takeWhile isOriginHost).take 255).length).head? = some 35 →
          (p.takeWhile isOriginHost).length = 255) := by
  rcases Nat.lt_or_ge 255 (p.takeWhile isOriginHost).length with hlong | hshort
  · have hin := head_drop_of_lt hlong
    rw [List.length_take_of_le (Nat.le_of_lt hlong)]
    refine ⟨fun _ hnext => ?_, fun _ _ => Nat.le_of_lt hlong⟩
    rcases hnext with hnext | hnext
    · exact absurd (hin 63 hnext) (by decide)
    · exact absurd (hin 35 hnext) (by decide)
  · rw [List.take_of_length_le hshort]
    exact ⟨fun h hnext => Nat.le_antisymm hshort (h hnext), fun h hnext => Nat.le_of_eq (h hnext).symm⟩

/-- Where `mini_origin_parse` succeeds, both say the same host and port exactly if the authority is
plain. -/
theorem sameServer_iff (url : Bytes) (horigin : (miniOriginParse url).1 = true) :
    SameServer url ↔ PlainAuthority url := by
  obtain ⟨scheme, p, rfl, hcolon, hlength, horiginEq⟩ := miniOriginParse_split horigin
  unfold SameServer PlainAuthority
  rw [horiginEq]
  cases hrest : httpRest (scheme ++ 58 :: 47 :: 47 :: p) with
  | some rest =>
    obtain ⟨q, isHttps⟩ := rest
    have htext := httpRest_eq_some hrest
    have hscheme : scheme = ascii (if isHttps then "https" else "http") := by
      have htake := congrArg (List.takeWhile (· ≠ 58)) htext
      rw [takeWhile_colon hcolon, takeWhile_colon (by cases isHttps <;> decide)] at htake
      exact htake
    obtain rfl : q = p := by
      rw [hscheme] at htext
      have hcancel := List.append_cancel_left htext
      simpa using hcancel.symm
    have husual : (if scheme = ascii "https" then (443 : Int32) else 80) =
        if isHttps then 443 else 80 := by
      rw [hscheme]
      cases isHttps <;> rfl
    unfold parseUrl originAuthority
    rw [hrest, Option.getD_some, husual]
    dsimp only
    rw [takeHost_eq_iff, next_query_iff]
    refine and_congr_right fun hquery => ?_
    rw [← (takeHost_eq_iff q 255).2 ((next_query_iff q).2 hquery)]
    exact port_eq_iff _ (by cases isHttps <;> decide) _
  | none =>
    obtain ⟨hhost, hport⟩ := parseUrl_other hcolon hlength hrest
    have hnot : scheme ≠ ascii "https" := by
      rintro rfl
      exact absurd hrest (by simp [httpRest, ascii])
    rw [hhost, hport]
    dsimp only
    rw [takeWhile_colon hcolon, List.drop_append, List.drop_of_length_le (by omega)]
    have hskip : scheme.length + 3 - scheme.length = 3 := by omega
    rw [hskip, List.nil_append]
    unfold originAuthority
    simp only [if_neg hnot, List.drop_succ_cons, List.drop_zero]
    refine and_congr_right fun _ => ?_
    split_ifs with hnext
    · exact ⟨fun h _ => h, fun h => h hnext⟩
    · exact ⟨fun _ h => absurd h hnext, fun _ => rfl⟩

/-- An address with a port, which both read. -/
theorem sameServer_iff_port : PlainAuthority (ascii "https://a.test:8443/x?y") ∧
    SameServer (ascii "https://a.test:8443/x?y") :=
  have hplain : PlainAuthority (ascii "https://a.test:8443/x?y") := by decide
  ⟨hplain, (sameServer_iff _ (by decide)).2 hplain⟩

/-- A query right behind the host belongs to the host for `parse_url`. -/
theorem query_in_host : (miniOriginParse (ascii "http://a.test?b")).1 = true ∧
    (parseUrl (ascii "http://a.test?b") 256 1024).1 = true ∧
    ¬ SameServer (ascii "http://a.test?b") := by
  refine ⟨by decide, by decide, ?_⟩
  rintro ⟨hhost, -⟩
  exact absurd hhost (by decide)

end TinyFramework.Net
