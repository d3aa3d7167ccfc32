/-
  Net/Fetch.lean --- fetching and its checks across origins.

  Nothing else runs between its steps.  A body goes along with what the response that brought it
  said about origins, through the cache too.

  The gate of `mini_net_fetch` changes the status of a record and keeps its body, and a fresh
  entry of the cache does not come to it.
-/
import TinyFramework.Net.Http
import TinyFramework.Net.HttpCache

set_option autoImplicit false

namespace TinyFramework.Net

open TinyFramework.Foundation

/-- Of the response that a body comes from: its `Access-Control-Allow-Origin`, and whether cookies
had been sent.  Not in the source. -/
structure BodyOrigin where
  acao : Option Bytes
  credentialed : Bool
  deriving DecidableEq, Repr

/-- What is global. -/
structure FetchState where
  jar : List MiniCookie
  hsts : List HstsEntry
  cache : HttpCache BodyOrigin

/-- The state at the first start of the program. -/
def emptyFetchState : FetchState :=
  { jar := [], hsts := []
    cache := { entries := [], disk := ⟨fun _ => none, fun _ => none, fun _ => ⟨none, false⟩⟩ } }

/-- The arguments; `none` is a null page origin. -/
structure FetchRequest where
  method : Bytes
  url : Bytes
  extraHeaders : Bytes
  body : Bytes
  pageOrigin : Option Bytes

/-- Whether zero is returned, the record, and the state afterwards. -/
structure FetchResult where
  ok : Bool
  record : MiniNetRecord
  bodyOrigin : Option BodyOrigin
  state : FetchState

/-! ## The URL -/

/-- `eff_url`, `o` and whether that is an origin. -/
structure FetchTarget where
  url : Bytes
  origin : MiniOrigin
  parsed : Bool

/-- The URL that is requested: by https if its host asks for that. -/
def fetchTarget (hsts : List HstsEntry) (now : Int) (url : Bytes) : FetchTarget :=
  let o := miniOriginParse url
  if o.1 = true ∧ o.2.scheme = ascii "http" ∧ miniHstsShouldUpgrade hsts now o.2.host = true then
    let url := (ascii "https://" ++ url.drop 7).take 1023
    { url := url, origin := (miniOriginParse url).2, parsed := true }
  else { url := url.take 1023, origin := o.2, parsed := o.1 }

def FetchTarget.isHttps (t : FetchTarget) : Bool := t.parsed && t.origin.scheme == ascii "https"

/-- `reqpath` -/
def FetchTarget.path (t : FetchTarget) : Bytes :=
  match cutAt (ascii "://") t.url with
  | none => [47]
  | some cut =>
      let sl := cut.2.dropWhile (· ≠ 47)
      if sl = [] then [47] else sl.take 1023

/-! ## The parts -/

def FetchRequest.isGet (r : FetchRequest) : Bool := strcasecmp r.method (ascii "GET")

/-- `serve_from_cache` -/
def serveFromCache {τ : Type} (method url : Bytes) (ce : MiniCacheEntry τ) : MiniNetRecord :=
  { method := method.take 7, url := url.take 1023, status := ce.status, mime := ce.mime
    respBody := some ce.body
    respHeaders := some ((ascii "HTTP/1.1 " ++ printInt ce.status ++
      ascii " OK (from cache)\r\nContent-Type: " ++ ce.mime ++ ascii "\r\n\r\n").take 255) }

/-- A request that goes to the network: what comes back, whether cookies went with it, and the
state. -/
structure Sent where
  ok : Bool
  record : MiniNetRecord
  credentialed : Bool
  state : FetchState

/-- The merged headers, and `mini_net_http` with them. -/
def fetchSend (network : Network) (now : Int) (st : FetchState) (r : FetchRequest)
    (t : FetchTarget) (stale : Bool) : Sent :=
  let cookie := miniCookiesBuildHeader st.jar now t.origin.host t.path t.isHttps false 2048
  let hasCookie := cookie.length.any (0 < ·)
  let cond := if stale then miniHttpcacheConditionalHeaders st.cache t.url else (none, st.cache)
  let hdrs := (if hasCookie then ascii "Cookie: " ++ cookie.out ++ [13, 10] else []) ++
    cond.1.getD [] ++ headerBlock r.extraHeaders
  let http := miniNetHttp network r.method t.url (if hdrs = [] then none else some hdrs) r.body
  { ok := http.1, record := http.2, credentialed := hasCookie
    state := { st with jar := cookie.jar, cache := cond.2 } }

/-- After a 304 the entry stands in for the response. -/
def revalidated {τ : Type} (out : MiniNetRecord) (se : MiniCacheEntry τ) : MiniNetRecord :=
  { out with respBody := some se.body, status := se.status, mime := se.mime }

/-- Whether the gate blocks a response for the page. -/
def corsBlocked (pageOrigin : Option Bytes) (o : MiniOrigin) (credentialed : Bool)
    (hdrs : Bytes) : Bool :=
  match pageOrigin with
  | none => false
  | some page =>
      let po := miniOriginParse page
      po.1 && !miniOriginSame po.2 o &&
        match headerValue hdrs (ascii "Access-Control-Allow-Origin") 256 with
        | none => true
        | some acao => !miniCorsResponseAllowed (some po.2) (some acao) credentialed

/-- What is handed to `mini_httpcache_store`. -/
def storeRequest (url hdrs : Bytes) (out : MiniNetRecord) (bodyOrigin : BodyOrigin) :
    StoreRequest BodyOrigin :=
  { url := url, status := out.status, mime := out.mime, body := out.respBody.getD []
    etag := (headerValue hdrs (ascii "ETag") 256).getD []
    lastModified := (headerValue hdrs (ascii "Last-Modified") 128).getD []
    cacheControl := (headerValue hdrs (ascii "Cache-Control") 256).getD []
    origin := bodyOrigin }

/-- All that is done with the headers of a response: cookies, HSTS, the gate, the cache. -/
def fetchHeaders (now : Int) (st : FetchState) (r : FetchRequest) (t : FetchTarget)
    (credentialed : Bool) (hdrs : Bytes) (out : MiniNetRecord) (bodyOrigin : BodyOrigin) :
    FetchResult :=
  let jar := captureSetCookies st.jar now t.origin.host t.path t.isHttps hdrs
  let hsts :=
    match headerValue hdrs (ascii "Strict-Transport-Security") 256 with
    | none => st.hsts
    | some sts => miniHstsRemember st.hsts now t.origin.host sts
  let out :=
    if corsBlocked r.pageOrigin t.origin credentialed hdrs then
      { out with failed := true, status := 0 }
    else out
  let cache :=
    if r.isGet = true ∧ 200 ≤ out.status ∧ out.status < 300 then
      miniHttpcacheStore st.cache now (storeRequest t.url hdrs out bodyOrigin)
    else st.cache
  { ok := true, record := out, bodyOrigin := some bodyOrigin
    state := { jar := jar, hsts := hsts, cache := cache } }

/-- What is done with a response. -/
def fetchResponse (now : Int) (r : FetchRequest) (t : FetchTarget) (sent : Sent) : FetchResult :=
  let found :=
    if sent.record.status = 304 then miniHttpcacheGetAny sent.state.cache t.url
    else (none, sent.state.cache)
  let st := { sent.state with cache := found.2 }
  let hdrs := sent.record.respHeaders.getD []
  match found.1 with
  | none =>
      fetchHeaders now st r t sent.credentialed hdrs sent.record
        ⟨headerValue hdrs (ascii "Access-Control-Allow-Origin") 256, sent.credentialed⟩
  | some se =>
      fetchHeaders now st r t sent.credentialed hdrs (revalidated sent.record se) se.origin

/-- `mini_net_fetch`; the request is made at one time and its response there at another. -/
def miniNetFetch (network : Network) (start finish : Int) (st : FetchState) (r : FetchRequest) :
    FetchResult :=
  let t := fetchTarget st.hsts start r.url
  let got := miniHttpcacheGet st.cache start t.url
  match (if r.isGet then got.1.entry else none) with
  | some ce =>
      { ok := true, record := serveFromCache r.method t.url ce, bodyOrigin := some ce.origin
        state := { st with cache := got.2 } }
  | none =>
      let sent := fetchSend network start { st with cache := got.2 } r t got.1.stale
      if sent.ok then fetchResponse finish r t sent
      else { ok := false, record := sent.record, bodyOrigin := none, state := sent.state }

/-- `MwResult`, as far as a fetch fills it in. -/
structure WorkerResult where
  status : Int
  buf : Option Bytes
  mime : Bytes
  err : Bool
  deriving DecidableEq, Repr

/-- `worker_do` for `MW_FETCH` -/
def workerDo (fetched : FetchResult) : WorkerResult :=
  match fetched.ok, fetched.record.respBody with
  | true, some body =>
      { status := fetched.record.status, buf := some body, mime := fetched.record.mime.take 127
        err := false }
  | _, _ => { status := fetched.record.status, buf := none, mime := [], err := true }

/-! ## What a fetch comes to -/

/-- The gate takes no body away. -/
theorem fetchHeaders_body (now : Int) (st : FetchState) (r : FetchRequest) (t : FetchTarget)
    (credentialed : Bool) (hdrs : Bytes) (out : MiniNetRecord) (b : BodyOrigin) :
    (fetchHeaders now st r t credentialed hdrs out b).record.respBody = out.respBody := by
  unfold fetchHeaders
  dsimp only
  split_ifs <;> rfl

/-- A blocked response is not stored, as its status is zero. -/
theorem fetchHeaders_cache (now : Int) (st : FetchState) (r : FetchRequest) (t : FetchTarget)
    (credentialed : Bool) (hdrs : Bytes) (out : MiniNetRecord) (b : BodyOrigin) :
    (fetchHeaders now st r t credentialed hdrs out b).state.cache =
      if r.isGet = true ∧ corsBlocked r.pageOrigin t.origin credentialed hdrs = false ∧
          200 ≤ out.status ∧ out.status < 300 then
        miniHttpcacheStore st.cache now (storeRequest t.url hdrs out b)
      else st.cache := by
  unfold fetchHeaders
  dsimp only
  cases corsBlocked r.pageOrigin t.origin credentialed hdrs with
  | true =>
    rw [if_pos rfl, if_neg (by simp), if_neg (by simp)]
  | false => simp

/-- The entry that is served without the network. -/
def FetchRequest.cached (r : FetchRequest) (st : FetchState) (now : Int) :
    Option (MiniCacheEntry BodyOrigin) :=
  if r.isGet then (miniHttpcacheGet st.cache now (fetchTarget st.hsts now r.url).url).1.entry
  else none

/-- The request that goes to the network otherwise. -/
def FetchRequest.sent (r : FetchRequest) (network : Network) (st : FetchState) (now : Int) : Sent :=
  let t := fetchTarget st.hsts now r.url
  let got := miniHttpcacheGet st.cache now t.url
  fetchSend network now { st with cache := got.2 } r t got.1.stale

theorem miniNetFetch_cached {network : Network} {start finish : Int} {st : FetchState}
    {r : FetchRequest} {ce : MiniCacheEntry BodyOrigin} (h : r.cached st start = some ce) :
    miniNetFetch network start finish st r =
      { ok := true, record := serveFromCache r.method (fetchTarget st.hsts start r.url).url ce
        bodyOrigin := some ce.origin
        state := { st with
          cache := (miniHttpcacheGet st.cache start (fetchTarget st.hsts start r.url).url).2 } } := by
  unfold FetchRequest.cached at h
  unfold miniNetFetch
  dsimp only
  rw [h]

theorem miniNetFetch_sent {network : Network} {start finish : Int} {st : FetchState}
    {r : FetchRequest} (h : r.cached st start = none) :
    miniNetFetch network start finish st r =
      if (r.sent network st start).ok then
        fetchResponse finish r (fetchTarget st.hsts start r.url) (r.sent network st start)
      else
        { ok := false, record := (r.sent network st start).record, bodyOrigin := none
          state := (r.sent network st start).state } := by
  unfold FetchRequest.cached at h
  unfold miniNetFetch
  dsimp only
  rw [h]
  rfl

theorem sent_response {network : Network} {now : Int} {st : FetchState} {r : FetchRequest}
    (h : (r.sent network st now).ok = true) :
    (r.sent network st now).record.respHeaders.isSome = true ∧
      (r.sent network st now).record.respBody.isSome = true :=
  miniNetHttp_ok h

/-- The entry that stands in for the response after a 304. -/
def Sent.replayed (sent : Sent) (t : FetchTarget) : Option (MiniCacheEntry BodyOrigin) :=
  if sent.record.status = 304 then (miniHttpcacheGetAny sent.state.cache t.url).1 else none

theorem fetchResponse_replayed {now : Int} {r : FetchRequest} {t : FetchTarget} {sent : Sent}
    {se : MiniCacheEntry BodyOrigin} (h : sent.replayed t = some se) :
    fetchResponse now r t sent =
      fetchHeaders now { sent.state with cache := (miniHttpcacheGetAny sent.state.cache t.url).2 } r t
        sent.credentialed (sent.record.respHeaders.getD []) (revalidated sent.record se)
        se.origin := by
  unfold Sent.replayed at h
  unfold fetchResponse
  split_ifs at h ⊢
  dsimp only
  rw [h]

theorem fetchResponse_own (now : Int) (r : FetchRequest) {t : FetchTarget} {sent : Sent}
    (h : sent.replayed t = none) :
    ∃ st, fetchResponse now r t sent =
      fetchHeaders now st r t sent.credentialed (sent.record.respHeaders.getD []) sent.record
        ⟨headerValue (sent.record.respHeaders.getD []) (ascii "Access-Control-Allow-Origin") 256,
          sent.credentialed⟩ := by
  unfold Sent.replayed at h
  unfold fetchResponse
  split_ifs at h ⊢
  · dsimp only
    rw [h]
    exact ⟨_, rfl⟩
  · exact ⟨_, rfl⟩

/-! ## Which bodies a page of another origin gets -/

/-- The page's origin, if it has one. -/
def pageOrigin (page : Bytes) : Option MiniOrigin :=
  if (miniOriginParse page).1 then some (miniOriginParse page).2 else none

/-- The page is of another origin than what is requested. -/
def CrossOrigin (page : Bytes) (t : FetchTarget) : Prop :=
  ∀ po ∈ pageOrigin page, miniOriginSame po t.origin = false

instance (page : Bytes) (t : FetchTarget) : Decidable (CrossOrigin page t) :=
  inferInstanceAs (Decidable (∀ po ∈ pageOrigin page, _))

/-- The response allowed the page's origin. -/
def BodyOrigin.acceptedFor (b : BodyOrigin) (page : Bytes) : Bool :=
  miniCorsResponseAllowed (pageOrigin page) b.acao b.credentialed

/-- A page of another origin gets a body only if the response that it comes from allowed the
page's origin. -/
def BodyGuarded (network : Network) (start finish : Int) (st : FetchState) (r : FetchRequest) :
    Prop :=
  ∀ page, r.pageOrigin = some page → CrossOrigin page (fetchTarget st.hsts start r.url) →
    ∀ body, (workerDo (miniNetFetch network start finish st r)).buf = some body →
      ∃ b ∈ (miniNetFetch network start finish st r).bodyOrigin, b.acceptedFor page = true

/-- The page's origin was allowed with the fresh entry that is found; or, where there is none, with
the entry that a 304 lets stand; or, where there is none either, with the response. -/
def SourceAllows (network : Network) (start : Int) (st : FetchState) (r : FetchRequest)
    (page : Bytes) : Prop :=
  match r.cached st start with
  | some ce => ce.origin.acceptedFor page = true
  | none =>
      let sent := r.sent network st start
      sent.ok = true →
        match sent.replayed (fetchTarget st.hsts start r.url) with
        | some se => se.origin.acceptedFor page = true
        | none =>
            miniCorsResponseAllowed (pageOrigin page)
              (headerValue (sent.record.respHeaders.getD [])
                (ascii "Access-Control-Allow-Origin") 256) sent.credentialed = true

/-- Whatever comes back is handed on. -/
theorem workerDo_buf {fetched : FetchResult} {body : Bytes} (hok : fetched.ok = true)
    (hbody : fetched.record.respBody = some body) : (workerDo fetched).buf = some body := by
  unfold workerDo
  rw [hok, hbody]

theorem workerDo_failed {fetched : FetchResult} (hok : fetched.ok = false) :
    (workerDo fetched).buf = none := by
  unfold workerDo
  rw [hok]

/-- So after a response it is the origin of the body alone that counts. -/
theorem headers_guarded_iff {now : Int} {st : FetchState} {r : FetchRequest} {t : FetchTarget}
    {credentialed : Bool} {hdrs : Bytes} {out : MiniNetRecord} {b : BodyOrigin} {page : Bytes}
    (hbody : out.respBody.isSome = true) :
    (∀ body, (workerDo (fetchHeaders now st r t credentialed hdrs out b)).buf = some body →
      ∃ b' ∈ (fetchHeaders now st r t credentialed hdrs out b).bodyOrigin,
        b'.acceptedFor page = true) ↔ b.acceptedFor page = true := by
  obtain ⟨body, hbody⟩ := Option.isSome_iff_exists.1 hbody
  constructor
  · intro hguarded
    have hbuf := workerDo_buf rfl
      ((fetchHeaders_body now st r t credentialed hdrs out b).trans hbody)
    obtain ⟨b', hb', haccepted⟩ := hguarded body hbuf
    obtain rfl := Option.some.inj hb'
    exact haccepted
  · exact fun haccepted _ _ => ⟨b, rfl, haccepted⟩

/-- For all states and all responses: bodies are kept from a page of another origin exactly as far
as the cache and the server allow it everything that it asks for. -/
theorem bodyGuarded_iff (network : Network) (start finish : Int) (st : FetchState)
    (r : FetchRequest) : BodyGuarded network start finish st r ↔
      ∀ page, r.pageOrigin = some page → CrossOrigin page (fetchTarget st.hsts start r.url) →
        SourceAllows network start st r page := by
  refine forall_congr' fun page => imp_congr_right fun _ => imp_congr_right fun _ => ?_
  unfold SourceAllows
  cases hcached : r.cached st start with
  | some ce =>
    rw [miniNetFetch_cached hcached]
    constructor
    · intro hguarded
      obtain ⟨b, hb, haccepted⟩ := hguarded ce.body rfl
      obtain rfl := Option.some.inj hb
      exact haccepted
    · exact fun haccepted body _ => ⟨ce.origin, rfl, haccepted⟩
  | none =>
    rw [miniNetFetch_sent hcached]
    cases hok : (r.sent network st start).ok with
    | false =>
      refine ⟨fun _ h => absurd (hok.symm.trans h) Bool.false_ne_true, fun _ body hbody => ?_⟩
      rw [if_neg Bool.false_ne_true, workerDo_failed rfl] at hbody
      cases hbody
    | true =>
      obtain ⟨-, hbody⟩ := sent_response hok
      dsimp only
      rw [if_pos rfl, forall_prop_of_true hok]
      cases hreplayed : (r.sent network st start).replayed (fetchTarget st.hsts start r.url) with
      | some se =>
        rw [fetchResponse_replayed hreplayed]
        exact headers_guarded_iff rfl
      | none =>
        obtain ⟨st', hown⟩ := fetchResponse_own finish r hreplayed
        rw [hown]
        exact headers_guarded_iff hbody

/-- A page of `evil.test` asks for what another server allows nobody. -/
def crossFetch : FetchRequest :=
  { method := ascii "GET", url := ascii "http://a.test/x", extraHeaders := [], body := []
    pageOrigin := some (ascii "https://evil.test") }

/-- The response is blocked, and its body handed on. -/
theorem blocked_body_handed_on : ¬ BodyGuarded
    (fun _ => some (ascii "HTTP/1.1 200 OK\r\nContent-Length: 6\r\n\r\nsecret")) 0 0
    emptyFetchState crossFetch := by
  intro hguarded
  obtain ⟨b, hb, haccepted⟩ := hguarded (ascii "https://evil.test") rfl
    (by decide) (ascii "secret") (by decide)
  revert b
  decide

end TinyFramework.Net
