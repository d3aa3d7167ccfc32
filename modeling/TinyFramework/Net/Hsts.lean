/-
  Net/Hsts.lean --- which requests `mini_net_fetch` sends without TLS, and which responses change
  the HSTS table.

  The table is asked about the host that `mini_origin_parse` reads off the URL, the connection
  goes to the host that `parse_url` reads, and what a response says is remembered whichever way
  it came.
-/
import TinyFramework.Net.Fetch

set_option autoImplicit false

namespace TinyFramework.Net

open TinyFramework.Foundation

/-! ## What the law is about -/

/-- The server that `mini_net_http` is to connect to, unless the cache answers. -/
def FetchRequest.opens (r : FetchRequest) (st : FetchState) (now : Int) : Option ParsedUrl :=
  let parsed := parseUrl (fetchTarget st.hsts now r.url).url 256 1024
  if (r.cached st now).isNone = true ∧ parsed.1 = true then some parsed.2 else none

/-- The head of the response that comes back from there. -/
def FetchRequest.answer (r : FetchRequest) (network : Network) (st : FetchState) (now : Int) :
    Option Bytes :=
  if (r.cached st now).isNone = true ∧ (r.sent network st now).ok = true then
    (r.sent network st now).record.respHeaders
  else none

/-- One of the directives of a value is `max-age`. -/
def hasMaxAge (sts : Bytes) : Bool :=
  (sts.splitOn 59).any fun d => strcasecmp (trimBlanks (d.takeWhile (· ≠ 61))) (ascii "max-age")

/-- A response has an HSTS header with such a directive; the value counts as far as it goes. -/
def DeclaresMaxAge (head : Bytes) : Prop :=
  ∃ sts ∈ headerValue head (ascii "Strict-Transport-Security") (head.length + 1),
    hasMaxAge sts = true

/-- No connection without TLS goes to a host that the table wants to be asked with TLS, and only a
response over TLS that has a `max-age` changes the table. -/
structure HstsLaw (network : Network) (start finish : Int) (st : FetchState) (r : FetchRequest) :
    Prop where
  upgraded : ∀ c ∈ r.opens st start, c.isHttps = false →
    miniHstsShouldUpgrade st.hsts start c.host = false
  secure : (miniNetFetch network start finish st r).state.hsts ≠ st.hsts →
    ∃ c ∈ r.opens st start, c.isHttps = true ∧ ∃ head ∈ r.answer network st start,
      DeclaresMaxAge head

/-! ## When it holds -/

/-- The host behind `http://`, as the table is asked about it. -/
def askedHost (p : Bytes) : Bytes := (p.takeWhile isOriginHost).take 255

/-- An address of https, or one of http whose host the table covers. -/
def GoesByTls (hsts : List HstsEntry) (now : Int) (url : Bytes) : Prop :=
  match httpRest url with
  | some (_, true) => True
  | some (p, false) => askedHost p ≠ [] ∧ miniHstsShouldUpgrade hsts now (askedHost p) = true
  | none => False

/-- What a URL is that makes no plain connection to a host of the table.  Of http: what stands up
to the next colon or slash is no such host if a query or a fragment begins right behind the
host.  Without `http://` and `https://`: what it begins with is no such host. -/
def PlainSafely (hsts : List HstsEntry) (now : Int) (url : Bytes) : Prop :=
  match httpRest url with
  | some (_, true) => True
  | some (p, false) =>
      let host := p.takeWhile isOriginHost
      let next := p.drop host.length
      (next.head? = some 63 ∨ next.head? = some 35) → host.length < 255 →
        miniHstsShouldUpgrade hsts now ((p.takeWhile isUrlHost).take 255) = false
  | none =>
      let host := (url.takeWhile isUrlHost).take 255
      host = [] ∨ miniHstsShouldUpgrade hsts now host = false

/-- A value that says of a host what the table has on it. -/
def NothingNew (hsts : List HstsEntry) (now : Int) (host sts : Bytes) : Prop :=
  let known := hsts.find? fun e => strcasecmp e.host host
  if hstsAge sts ≤ 0 then known = none
  else
    ∃ e ∈ known, e.expires = now + hstsAge sts ∧
      e.subs = (strcasestr (ascii "includeSubDomains") sts).isSome

/-- The head of a response has no value for the table, or a value with a `max-age` over TLS, or
one that is not new. -/
def HeadSafe (tls : Prop) (hsts : List HstsEntry) (now : Int) (host head : Bytes) : Prop :=
  ∀ sts ∈ headerValue head (ascii "Strict-Transport-Security") 256,
    sts = [] ∨ (tls ∧ DeclaresMaxAge head) ∨ NothingNew hsts now host sts

/-! ## The URL that is requested -/

theorem httpRest_some_iff {url p : Bytes} {isHttps : Bool} :
    httpRest url = some (p, isHttps) ↔
      url = ascii (if isHttps then "https" else "http") ++ 58 :: 47 :: 47 :: p := by
  refine ⟨httpRest_eq_some, ?_⟩
  rintro rfl
  cases isHttps with
  | true => rfl
  | false => rfl

/-- What is cut off the end of an address is not at its beginning. -/
theorem httpRest_take (url : Bytes) : httpRest (url.take 1023) =
    (httpRest url).map fun rest => (rest.1.take (if rest.2 then 1015 else 1016), rest.2) := by
  cases hrest : httpRest url with
  | some rest =>
    obtain ⟨p, isHttps⟩ := rest
    rw [httpRest_eq_some hrest]
    cases isHttps with
    | true => rfl
    | false => rfl
  | none =>
    refine Option.eq_none_iff_forall_ne_some.2 fun rest hcut => ?_
    obtain ⟨t, ht⟩ := List.take_prefix 1023 url
    rw [httpRest_eq_some hcut] at ht
    have hwhole : httpRest url = some (rest.1 ++ t, rest.2) := by
      rw [httpRest_some_iff, ← ht]
      simp
    exact absurd (hwhole.symm.trans hrest) (Option.some_ne_none _)

theorem takeHost_take (q : UInt8 → Bool) (p : Bytes) {n : Nat} (hn : 255 ≤ n) :
    ((p.take n).takeWhile q).take 255 = (p.takeWhile q).take 255 := by
  rw [← List.take_takeWhile, List.take_take, Nat.min_eq_left hn]

/-- So it is read alike when it is cut to the size of the buffer. -/
theorem parseUrl_take (url : Bytes) :
    (parseUrl (url.take 1023) 256 1024).1 = (parseUrl url 256 1024).1 ∧
      (parseUrl (url.take 1023) 256 1024).2.host = (parseUrl url 256 1024).2.host ∧
      (parseUrl (url.take 1023) 256 1024).2.isHttps = (parseUrl url 256 1024).2.isHttps := by
  have hhost : (parseUrl (url.take 1023) 256 1024).2.host = (parseUrl url 256 1024).2.host := by
    show (((httpRest (url.take 1023)).getD (url.take 1023, false)).1.takeWhile isUrlHost).take 255 =
      (((httpRest url).getD (url, false)).1.takeWhile isUrlHost).take 255
    rw [httpRest_take]
    cases httpRest url with
    | none => exact takeHost_take isUrlHost url (by omega)
    | some rest => exact takeHost_take isUrlHost rest.1 (by split_ifs <;> omega)
  refine ⟨?_, hhost, ?_⟩
  · show decide ((parseUrl (url.take 1023) 256 1024).2.host ≠ []) =
      decide ((parseUrl url 256 1024).2.host ≠ [])
    rw [hhost]
  · show ((httpRest (url.take 1023)).getD (url.take 1023, false)).2 =
      ((httpRest url).getD (url, false)).2
    rw [httpRest_take]
    cases httpRest url with
    | none => rfl
    | some rest => rfl

theorem miniOriginParse_http (p : Bytes) (isHttps : Bool) :
    miniOriginParse (ascii (if isHttps then "https" else "http") ++ 58 :: 47 :: 47 :: p) =
      (decide (askedHost p ≠ []),
        originAuthority (ascii (if isHttps then "https" else "http")) p) := by
  unfold miniOriginParse
  rw [takeWhile_colon (by cases isHttps <;> decide)]
  cases isHttps with
  | true => rfl
  | false => rfl

/-- The request goes by https instead exactly if the table covers the host of its http address. -/
theorem upgrade_iff (hsts : List HstsEntry) (now : Int) (url : Bytes) :
    ((miniOriginParse url).1 = true ∧ (miniOriginParse url).2.scheme = ascii "http" ∧
        miniHstsShouldUpgrade hsts now (miniOriginParse url).2.host = true) ↔
      ∃ p, httpRest url = some (p, false) ∧ askedHost p ≠ [] ∧
        miniHstsShouldUpgrade hsts now (askedHost p) = true := by
  constructor
  · rintro ⟨hparsed, hscheme, hcovered⟩
    obtain ⟨scheme, p, rfl, -, -, horigin⟩ := miniOriginParse_split hparsed
    obtain rfl : scheme = ascii "http" := by
      rw [horigin] at hscheme
      exact hscheme
    have hread : miniOriginParse (ascii "http" ++ 58 :: 47 :: 47 :: p) =
        (decide (askedHost p ≠ []), originAuthority (ascii "http") p) :=
      miniOriginParse_http p false
    rw [hread] at hparsed hcovered
    exact ⟨p, httpRest_some_iff.2 rfl, of_decide_eq_true hparsed, hcovered⟩
  · rintro ⟨p, hrest, hhost, hcovered⟩
    rw [httpRest_eq_some hrest, miniOriginParse_http p false]
    exact ⟨decide_eq_true hhost, rfl, hcovered⟩

theorem target_upgraded {hsts : List HstsEntry} {now : Int} {url p : Bytes}
    (hrest : httpRest url = some (p, false)) (hhost : askedHost p ≠ [])
    (hcovered : miniHstsShouldUpgrade hsts now (askedHost p) = true) :
    (fetchTarget hsts now url).url = (ascii "https" ++ 58 :: 47 :: 47 :: p).take 1023 ∧
      (fetchTarget hsts now url).origin.host = askedHost p := by
  unfold fetchTarget
  rw [if_pos ((upgrade_iff hsts now url).2 ⟨p, hrest, hhost, hcovered⟩), httpRest_eq_some hrest]
  refine ⟨rfl, ?_⟩
  show (miniOriginParse (ascii (if true then "https" else "http") ++ 58 :: 47 :: 47 ::
    p.take 1015)).2.host = askedHost p
  rw [miniOriginParse_http]
  exact takeHost_take isOriginHost p (by omega)

theorem target_kept {hsts : List HstsEntry} {now : Int} {url : Bytes}
    (h : ¬ ∃ p, httpRest url = some (p, false) ∧ askedHost p ≠ [] ∧
      miniHstsShouldUpgrade hsts now (askedHost p) = true) :
    (fetchTarget hsts now url).url = url.take 1023 ∧
      (fetchTarget hsts now url).origin = (miniOriginParse url).2 := by
  unfold fetchTarget
  rw [if_neg (mt (upgrade_iff hsts now url).1 h)]
  exact ⟨rfl, rfl⟩

/-- Either way the origin is that of the address that is given. -/
theorem target_host (hsts : List HstsEntry) (now : Int) (url : Bytes) :
    (fetchTarget hsts now url).origin.host = (miniOriginParse url).2.host := by
  by_cases h : ∃ p, httpRest url = some (p, false) ∧ askedHost p ≠ [] ∧
      miniHstsShouldUpgrade hsts now (askedHost p) = true
  · obtain ⟨p, hrest, hhost, hcovered⟩ := h
    rw [(target_upgraded hrest hhost hcovered).2, httpRest_eq_some hrest, miniOriginParse_http]
    rfl
  · rw [(target_kept h).2]

theorem length_originHost_le (url : Bytes) : (miniOriginParse url).2.host.length ≤ 255 := by
  unfold miniOriginParse
  dsimp only
  split_ifs
  · exact List.length_take_le _ _
  · exact Nat.zero_le _

/-! ## The connection -/

/-- The connection is by TLS exactly if the URL asks for it, or the table does. -/
theorem target_isHttps_iff (hsts : List HstsEntry) (now : Int) (url : Bytes) :
    (parseUrl (fetchTarget hsts now url).url 256 1024).2.isHttps = true ↔
      GoesByTls hsts now url := by
  by_cases h : ∃ p, httpRest url = some (p, false) ∧ askedHost p ≠ [] ∧
      miniHstsShouldUpgrade hsts now (askedHost p) = true
  · obtain ⟨p, hrest, hhost, hcovered⟩ := h
    have htls : GoesByTls hsts now url := by
      unfold GoesByTls
      rw [hrest]
      exact ⟨hhost, hcovered⟩
    rw [(target_upgraded hrest hhost hcovered).1]
    exact iff_of_true rfl htls
  · rw [(target_kept h).1, (parseUrl_take url).2.2]
    show ((httpRest url).getD (url, false)).2 = true ↔ GoesByTls hsts now url
    unfold GoesByTls
    cases hrest : httpRest url with
    | none => exact iff_of_false Bool.false_ne_true id
    | some rest =>
      obtain ⟨p, isHttps⟩ := rest
      cases isHttps with
      | true => exact iff_of_true rfl trivial
      | false => exact iff_of_false Bool.false_ne_true fun hp => h ⟨p, hrest, hp⟩

/-- A plain connection is safe exactly as `PlainSafely` says of the URL. -/
theorem plain_safe_iff {hsts : List HstsEntry} {now : Int} {url : Bytes}
    (hplain : ¬ GoesByTls hsts now url) :
    ((parseUrl (fetchTarget hsts now url).url 256 1024).1 = true →
        miniHstsShouldUpgrade hsts now
          (parseUrl (fetchTarget hsts now url).url 256 1024).2.host = false) ↔
      PlainSafely hsts now url := by
  have hkept : ¬ ∃ p, httpRest url = some (p, false) ∧ askedHost p ≠ [] ∧
      miniHstsShouldUpgrade hsts now (askedHost p) = true := by
    rintro ⟨p, hrest, hp⟩
    refine hplain ?_
    unfold GoesByTls
    rw [hrest]
    exact hp
  rw [(target_kept hkept).1, (parseUrl_take url).1, (parseUrl_take url).2.1]
  show (decide ((((httpRest url).getD (url, false)).1.takeWhile isUrlHost).take 255 ≠ []) = true →
    miniHstsShouldUpgrade hsts now
      ((((httpRest url).getD (url, false)).1.takeWhile isUrlHost).take 255) = false) ↔ _
  unfold PlainSafely
  rw [decide_eq_true_iff]
  cases hrest : httpRest url with
  | none => exact imp_iff_not_or.trans (or_congr_left Decidable.not_not)
  | some rest =>
    obtain ⟨p, isHttps⟩ := rest
    cases isHttps with
    | true =>
      refine absurd ?_ hplain
      unfold GoesByTls
      rw [hrest]
      trivial
    | false =>
      rw [Option.getD_some]
      dsimp only
      constructor
      · intro hsafe hnext hshort
        refine hsafe fun hnil => ?_
        -- a query or a fragment would be taken into the host
        have hurl := (List.take_eq_nil_iff.1 hnil).resolve_left (by decide)
        rw [takeWhile_split (q := isOriginHost) (fun b hb => (isUrlHost_iff b).2 (Or.inl hb)),
          List.append_eq_nil_iff] at hurl
        have hsame : (p.takeWhile isOriginHost).take 255 = (p.takeWhile isUrlHost).take 255 := by
          rw [hnil, hurl.1, List.take_nil]
        exact absurd ((takeHost_eq_iff p 255).1 hsame hnext) (Nat.not_le.2 hshort)
      · intro hsafe hhost
        by_cases hsame : askedHost p = (p.takeWhile isUrlHost).take 255
        · rw [← hsame] at hhost ⊢
          exact Bool.eq_false_iff.2 fun hcovered => hkept ⟨p, hrest, hhost, hcovered⟩
        · have hnext := mt (takeHost_eq_iff p 255).2 hsame
          rw [Classical.not_imp] at hnext
          exact hsafe hnext.1 (Nat.lt_of_not_le hnext.2)

/-! ## The table -/

theorem strcasecmp_refl (s : Bytes) : strcasecmp s s = true := beq_self_eq_true _

/-- The first entry of a host, and its place. -/
theorem find_of_findIdx {hsts : List HstsEntry} {p : HstsEntry → Bool} {idx : Nat}
    (h : hsts.findIdx? p = some idx) :
    ∃ hidx : idx < hsts.length, hsts.find? p = some hsts[idx] := by
  obtain ⟨hidx, hp, hbefore⟩ := List.findIdx?_eq_some_iff_getElem.1 h
  refine ⟨hidx, List.find?_eq_some_iff_getElem.2 ⟨hp, idx, hidx, rfl, fun j hj => ?_⟩⟩
  simpa using hbefore j hj

/-- A change of one element changes nothing exactly if it leaves that as it is. -/
theorem modify_eq_iff {l : List HstsEntry} {f : HstsEntry → HstsEntry} {idx : Nat}
    (hidx : idx < l.length) : l.modify idx f = l ↔ f l[idx] = l[idx] := by
  constructor
  · intro hsame
    have hget : (l.modify idx f)[idx]? = l[idx]? := by rw [hsame]
    rw [List.getElem?_modify_eq, List.getElem?_eq_getElem hidx] at hget
    exact Option.some.inj hget
  · intro hkept
    refine List.ext_getElem? fun j => ?_
    by_cases hj : idx = j
    · subst hj
      rw [List.getElem?_modify_eq, List.getElem?_eq_getElem hidx]
      exact congrArg some hkept
    · exact List.getElem?_modify_ne f l hj

/-- A value leaves the table as it is exactly if it is empty or says nothing new. -/
theorem miniHstsRemember_eq_iff (hsts : List HstsEntry) (now : Int) {host : Bytes}
    (hhost : host.length ≤ 255) (sts : Bytes) :
    miniHstsRemember hsts now host sts = hsts ↔ sts = [] ∨ NothingNew hsts now host sts := by
  unfold miniHstsRemember
  by_cases hempty : sts = []
  · rw [if_pos hempty]
    exact iff_of_true rfl (Or.inl hempty)
  rw [if_neg hempty, or_iff_right hempty]
  unfold NothingNew
  cases hfound : hsts.findIdx? fun e => strcasecmp e.host host with
  | some idx =>
    obtain ⟨hidx, hfind⟩ := find_of_findIdx hfound
    rw [hfind]
    dsimp only
    by_cases hage : hstsAge sts ≤ 0
    · rw [if_pos hage, if_pos hage]
      refine iff_of_false (fun herased => ?_) (Option.some_ne_none _)
      have hlength := List.length_eraseIdx_of_lt hidx
      rw [herased] at hlength
      omega
    · rw [if_neg hage, if_neg hage, modify_eq_iff hidx]
      constructor
      · intro hkept
        exact ⟨hsts[idx], rfl, congrArg HstsEntry.expires hkept.symm,
          congrArg HstsEntry.subs hkept.symm⟩
      · rintro ⟨e, he, hexpires, hsubs⟩
        obtain rfl := Option.some.inj he
        rw [← hexpires, ← hsubs]
  | none =>
    have hother := List.findIdx?_eq_none_iff.1 hfound
    have hfind : (hsts.find? fun e => strcasecmp e.host host) = none := by
      rw [List.find?_eq_none]
      intro e he
      rw [hother e he]
      exact Bool.false_ne_true
    rw [hfind]
    dsimp only
    by_cases hage : hstsAge sts ≤ 0
    · rw [if_pos hage, if_pos hage]
      exact iff_of_true rfl rfl
    · rw [if_neg hage, if_neg hage]
      refine iff_of_false (fun hsame => ?_) ?_
      · -- the entry that is put at the end would have been found
        have hmem : (⟨host.take 255, now + hstsAge sts,
            (strcasestr (ascii "includeSubDomains") sts).isSome⟩ : HstsEntry) ∈ hsts := by
          rw [← hsame]
          exact List.mem_append_right _ (List.mem_singleton.2 rfl)
        have hself := hother _ hmem
        rw [List.take_of_length_le hhost, strcasecmp_refl] at hself
        cases hself
      · rintro ⟨e, he, -⟩
        cases he

/-- What a response does to the table, whichever body goes with it. -/
theorem fetchResponse_hsts (now : Int) (r : FetchRequest) (t : FetchTarget) (sent : Sent) :
    (fetchResponse now r t sent).state.hsts =
      match headerValue (sent.record.respHeaders.getD [])
          (ascii "Strict-Transport-Security") 256 with
      | none => sent.state.hsts
      | some sts => miniHstsRemember sent.state.hsts now t.origin.host sts := by
  cases hreplayed : sent.replayed t with
  | some se =>
    rw [fetchResponse_replayed hreplayed]
    rfl
  | none =>
    unfold Sent.replayed at hreplayed
    unfold fetchResponse
    dsimp only
    by_cases hstatus : sent.record.status = 304
    · rw [if_pos hstatus] at hreplayed ⊢
      rw [hreplayed]
      rfl
    · rw [if_neg hstatus]
      rfl

/-- The table after a fetch. -/
theorem fetch_hsts (network : Network) (start finish : Int) (st : FetchState) (r : FetchRequest) :
    (miniNetFetch network start finish st r).state.hsts =
      match r.answer network st start with
      | none => st.hsts
      | some head =>
          match headerValue head (ascii "Strict-Transport-Security") 256 with
          | none => st.hsts
          | some sts => miniHstsRemember st.hsts finish (miniOriginParse r.url).2.host sts := by
  unfold FetchRequest.answer
  cases hcached : r.cached st start with
  | some ce =>
    rw [miniNetFetch_cached hcached]
    rfl
  | none =>
    rw [miniNetFetch_sent hcached]
    cases hok : (r.sent network st start).ok with
    | false => rfl
    | true =>
      obtain ⟨hhead, -⟩ := sent_response hok
      obtain ⟨head, hhead⟩ := Option.isSome_iff_exists.1 hhead
      rw [if_pos rfl, if_pos ⟨rfl, rfl⟩, fetchResponse_hsts, target_host, hhead]
      rfl

/-! ## The law -/

/-- What comes back comes from the server that is connected to. -/
theorem opens_of_answer {network : Network} {st : FetchState} {r : FetchRequest} {now : Int}
    {head : Bytes} (h : head ∈ r.answer network st now) :
    r.opens st now = some (parseUrl (fetchTarget st.hsts now r.url).url 256 1024).2 := by
  unfold FetchRequest.answer at h
  split_ifs at h with hanswered
  · obtain ⟨hcached, hok⟩ := hanswered
    unfold FetchRequest.opens
    refine if_pos ⟨hcached, ?_⟩
    by_contra hfailed
    have hsent : (r.sent network st now).ok =
        (miniNetHttp network r.method (fetchTarget st.hsts now r.url).url _ r.body).1 := rfl
    unfold miniNetHttp at hsent
    rw [if_pos (Bool.not_eq_true _ ▸ hfailed)] at hsent
    exact absurd (hsent.symm.trans hok) Bool.false_ne_true
  · cases h

/-- The half of the law about connections. -/
theorem upgraded_iff (st : FetchState) (r : FetchRequest) (start : Int) :
    (∀ c ∈ r.opens st start, c.isHttps = false →
        miniHstsShouldUpgrade st.hsts start c.host = false) ↔
      (r.cached st start).isSome = true ∨ GoesByTls st.hsts start r.url ∨
        PlainSafely st.hsts start r.url := by
  unfold FetchRequest.opens
  cases hcached : r.cached st start with
  | some ce =>
    refine iff_of_true (fun c hc => ?_) (Or.inl rfl)
    cases hc
  | none =>
    rw [or_iff_right (by exact Bool.false_ne_true)]
    by_cases htls : GoesByTls st.hsts start r.url
    · refine iff_of_true (fun c hc hplain => ?_) (Or.inl htls)
      dsimp only at hc
      split_ifs at hc
      · obtain rfl := Option.some.inj hc
        exact absurd ((target_isHttps_iff _ _ _).2 htls) (by rw [hplain]; exact Bool.false_ne_true)
      · cases hc
    · rw [or_iff_right htls, ← plain_safe_iff htls]
      have hplain := Bool.eq_false_iff.2 (mt (target_isHttps_iff _ _ _).1 htls)
      constructor
      · intro hsafe hparsed
        exact hsafe _ (if_pos ⟨rfl, hparsed⟩) hplain
      · intro hsafe c hc _
        dsimp only at hc
        split_ifs at hc with hopened
        · obtain rfl := Option.some.inj hc
          exact hsafe hopened.2
        · cases hc

/-- The half of the law about the table. -/
theorem secure_iff (network : Network) (start finish : Int) (st : FetchState) (r : FetchRequest) :
    ((miniNetFetch network start finish st r).state.hsts ≠ st.hsts →
        ∃ c ∈ r.opens st start, c.isHttps = true ∧ ∃ head ∈ r.answer network st start,
          DeclaresMaxAge head) ↔
      ∀ head ∈ r.answer network st start,
        HeadSafe (GoesByTls st.hsts start r.url) st.hsts finish (miniOriginParse r.url).2.host
          head := by
  rw [fetch_hsts]
  cases hanswer : r.answer network st start with
  | none =>
    refine iff_of_true (fun hchanged => absurd rfl hchanged) fun head hhead => ?_
    cases hhead
  | some head =>
    have hsecure : (∃ c ∈ r.opens st start, c.isHttps = true ∧ ∃ h ∈ some head, DeclaresMaxAge h) ↔
        GoesByTls st.hsts start r.url ∧ DeclaresMaxAge head := by
      rw [opens_of_answer hanswer, ← target_isHttps_iff]
      constructor
      · rintro ⟨c, hc, htls, h, hh, hage⟩
        obtain rfl := Option.some.inj hc
        obtain rfl := Option.some.inj hh
        exact ⟨htls, hage⟩
      · rintro ⟨htls, hage⟩
        exact ⟨_, rfl, htls, head, rfl, hage⟩
    rw [hsecure]
    unfold HeadSafe
    dsimp only
    cases hvalue : headerValue head (ascii "Strict-Transport-Security") 256 with
    | none =>
      refine iff_of_true (fun hchanged => absurd rfl hchanged) fun h hh sts hsts => ?_
      obtain rfl := Option.some.inj hh
      rw [hvalue] at hsts
      cases hsts
    | some sts =>
      dsimp only
      rw [Ne, miniHstsRemember_eq_iff _ _ (length_originHost_le r.url)]
      constructor
      · intro hlaw h hh value hread
        obtain rfl := Option.some.inj hh
        obtain rfl := Option.some.inj (hvalue.symm.trans hread)
        by_cases hsame : sts = [] ∨ NothingNew st.hsts finish (miniOriginParse r.url).2.host sts
        · exact hsame.imp_right Or.inr
        · exact Or.inr (Or.inl (hlaw hsame))
      · intro hsafe hchanged
        rcases hsafe head rfl sts hvalue with hempty | hdeclared | hknown
        · exact absurd (Or.inl hempty) hchanged
        · exact hdeclared
        · exact absurd (Or.inr hknown) hchanged

/-- For all states, URLs, networks and times: a fetch keeps the law exactly if it is answered by
the cache, goes by TLS or has a URL whose plain connection is safe, and the head that comes back
is safe for the table. -/
theorem hstsLaw_iff (network : Network) (start finish : Int) (st : FetchState) (r : FetchRequest) :
    HstsLaw network start finish st r ↔
      ((r.cached st start).isSome = true ∨ GoesByTls st.hsts start r.url ∨
          PlainSafely st.hsts start r.url) ∧
        ∀ head ∈ r.answer network st start,
          HeadSafe (GoesByTls st.hsts start r.url) st.hsts finish (miniOriginParse r.url).2.host
            head := by
  rw [← upgraded_iff, ← secure_iff]
  exact ⟨fun h => ⟨h.upgraded, h.secure⟩, fun h => ⟨h.1, h.2⟩⟩

/-- A page of `a.test`, by http. -/
def plainFetch : FetchRequest :=
  { method := ascii "GET", url := ascii "http://a.test/", extraHeaders := [], body := []
    pageOrigin := none }

/-- The table takes up what is said without TLS. -/
theorem plain_response_remembered : ¬ HstsLaw
    (fun _ => some (ascii "HTTP/1.1 200 OK\r\nStrict-Transport-Security: max-age=9\r\n\r\n")) 0 0
    emptyFetchState plainFetch := by
  intro hlaw
  obtain ⟨c, hc, htls, -⟩ := hlaw.secure (by decide)
  revert c
  decide

end TinyFramework.Net
