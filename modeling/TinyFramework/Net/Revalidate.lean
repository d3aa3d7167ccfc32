/-
  Net/Revalidate.lean --- what is left of a cache entry after a 304.

  A 304 takes the status of the entry and is stored like a response of its own: what its headers
  do not say is not taken from the entry.
-/
import TinyFramework.Net.Fetch

set_option autoImplicit false

namespace TinyFramework.Net

open TinyFramework.Foundation

/-! ## The 304 -/

/-- A 304 comes for a URL with a stale entry. -/
structure Revalidates (network : Network) (start : Int) (st : FetchState) (r : FetchRequest)
    (se : MiniCacheEntry BodyOrigin) : Prop where
  entry : (findEntry st.cache (fetchTarget st.hsts start r.url).url).1 = some se
  stale : fresh se start = false
  ok : (r.sent network st start).ok = true
  notModified : (r.sent network st start).record.status = 304

/-- The headers of the 304. -/
def notModifiedHeaders (network : Network) (start : Int) (st : FetchState) (r : FetchRequest) :
    Bytes :=
  (r.sent network st start).record.respHeaders.getD []

/-- The value of the `Cache-Control` header, or nothing. -/
def cacheControlOf (hdrs : Bytes) : Bytes :=
  (headerValue hdrs (ascii "Cache-Control") 256).getD []

/-- Whether a `max-age` with a number is given. -/
def carriesMaxAge (cc : Bytes) : Bool := ((maxAgeText cc).bind scanInt).isSome

/-- An entry is there with the old body, and with the old values of all that the headers do not
carry. -/
def KeepsEntry (se : MiniCacheEntry BodyOrigin) (hdrs : Bytes)
    (after : Option (MiniCacheEntry BodyOrigin)) : Prop :=
  ∃ e, after = some e ∧ e.body = se.body ∧
    (headerValue hdrs (ascii "ETag") 256 = none → e.etag = se.etag) ∧
    (headerValue hdrs (ascii "Last-Modified") 128 = none → e.lastModified = se.lastModified) ∧
    (ccHas (cacheControlOf hdrs) (ascii "no-cache") = false → e.noCache = se.noCache) ∧
    (carriesMaxAge (cacheControlOf hdrs) = false → e.maxAge = se.maxAge)

/-- The 304 is not stored: it is no GET, or the page may not read it, or it says `no-store`, or the
entry is none of a success. -/
def NotStored (t : FetchTarget) (r : FetchRequest) (credentialed : Bool)
    (se : MiniCacheEntry BodyOrigin) (hdrs : Bytes) : Prop :=
  r.isGet = false ∨ corsBlocked r.pageOrigin t.origin credentialed hdrs = true ∨
    ccHas (cacheControlOf hdrs) (ascii "no-store") = true ∨ se.status < 200 ∨ 300 ≤ se.status

/-- What the headers do not carry was nothing, or what is stored where nothing is said. -/
def NothingToKeep (url : Bytes) (se : MiniCacheEntry BodyOrigin) (hdrs : Bytes) : Prop :=
  (headerValue hdrs (ascii "ETag") 256 = none → se.etag = []) ∧
  (headerValue hdrs (ascii "Last-Modified") 128 = none → se.lastModified = []) ∧
  (ccHas (cacheControlOf hdrs) (ascii "no-cache") = false → se.noCache = 0) ∧
  (carriesMaxAge (cacheControlOf hdrs) = false →
    se.maxAge = if ccHas (cacheControlOf hdrs) (ascii "no-cache") then -1 else heuristicMaxAge url)

/-! ## What is stored -/

/-- Nothing can be requested without a URL. -/
theorem url_of_sent {network : Network} {now : Int} {st : FetchState} {r : FetchRequest}
    (h : (r.sent network st now).ok = true) : (fetchTarget st.hsts now r.url).url ≠ [] := by
  intro hurl
  have hfailed : (r.sent network st now).ok = false := by
    show (miniNetHttp network r.method (fetchTarget st.hsts now r.url).url _ r.body).1 = false
    rw [hurl]
    rfl
  exact absurd (hfailed.symm.trans h) Bool.false_ne_true

theorem length_fetchTarget (hsts : List HstsEntry) (now : Int) (url : Bytes) :
    (fetchTarget hsts now url).url.length ≤ 1023 := by
  unfold fetchTarget
  dsimp only
  split_ifs <;> exact List.length_take_le _ _

theorem maxAge_of_absent {cc : Bytes} (h : carriesMaxAge cc = false) :
    (miniHttpcacheParseCc cc).maxAge = -1 := by
  rw [carriesMaxAge, Option.isSome_eq_false_iff, Option.isNone_iff_eq_none] at h
  rw [miniHttpcacheParseCc, h]
  rfl

/-- What a 304 makes of the entry where it is stored. -/
theorem keepsEntry_stored {now : Int} {url hdrs : Bytes} {se : MiniCacheEntry BodyOrigin}
    {out : MiniNetRecord} :
    KeepsEntry se hdrs
        (some ((storeRequest url hdrs (revalidated out se) se.origin).entry now url)) ↔
      NothingToKeep url se hdrs := by
  let e := (storeRequest url hdrs (revalidated out se) se.origin).entry now url
  have hetag : headerValue hdrs (ascii "ETag") 256 = none → e.etag = [] := fun h => by
    show ((headerValue hdrs (ascii "ETag") 256).getD []).take 255 = []
    rw [h]
    rfl
  have hmodified : headerValue hdrs (ascii "Last-Modified") 128 = none → e.lastModified = [] :=
    fun h => by
      show ((headerValue hdrs (ascii "Last-Modified") 128).getD []).take 63 = []
      rw [h]
      rfl
  have hnoCache : ccHas (cacheControlOf hdrs) (ascii "no-cache") = false → e.noCache = 0 :=
    fun h => by
      show (if ccHas (cacheControlOf hdrs) (ascii "no-cache") = true then (1 : Int) else 0) = 0
      rw [h]
      rfl
  have hmaxAge : carriesMaxAge (cacheControlOf hdrs) = false →
      e.maxAge = if ccHas (cacheControlOf hdrs) (ascii "no-cache") then -1
        else heuristicMaxAge url := fun h => by
    have habsent := maxAge_of_absent h
    show storedMaxAge url (miniHttpcacheParseCc (cacheControlOf hdrs)) = _
    unfold storedMaxAge
    rw [habsent]
    cases hcc : ccHas (cacheControlOf hdrs) (ascii "no-cache") with
    | true => exact if_neg fun hno => absurd (hcc.symm.trans hno.2) (by decide)
    | false => exact if_pos ⟨by decide, hcc⟩
  have hkeeps : KeepsEntry se hdrs (some e) ↔ e.body = se.body ∧
      (headerValue hdrs (ascii "ETag") 256 = none → e.etag = se.etag) ∧
      (headerValue hdrs (ascii "Last-Modified") 128 = none → e.lastModified = se.lastModified) ∧
      (ccHas (cacheControlOf hdrs) (ascii "no-cache") = false → e.noCache = se.noCache) ∧
      (carriesMaxAge (cacheControlOf hdrs) = false → e.maxAge = se.maxAge) := by
    simp [KeepsEntry]
  refine hkeeps.trans ((and_iff_right rfl).trans ?_)
  refine and_congr (imp_congr_right fun h => ?_) (and_congr (imp_congr_right fun h => ?_)
    (and_congr (imp_congr_right fun h => ?_) (imp_congr_right fun h => ?_)))
  · rw [hetag h, eq_comm]
  · rw [hmodified h, eq_comm]
  · rw [hnoCache h, eq_comm]
  · rw [hmaxAge h, eq_comm]

variable {network : Network} {start : Int} {st : FetchState} {r : FetchRequest}
  {se : MiniCacheEntry BodyOrigin}

/-- A stale entry is not served, and its 304 finds it in memory. -/
theorem Revalidates.fetched (h : Revalidates network start st r se) (finish : Int) :
    ∃ st' : FetchState, st'.cache.entries.find? (fun e => e.url = (fetchTarget st.hsts start r.url).url)
        = some se ∧
      miniNetFetch network start finish st r =
        fetchHeaders finish st' r (fetchTarget st.hsts start r.url)
          (r.sent network st start).credentialed (notModifiedHeaders network start st r)
          (revalidated (r.sent network st start).record se) se.origin := by
  have hcached : r.cached st start = none := by
    unfold FetchRequest.cached
    rw [miniHttpcacheGet_eq, h.entry]
    simp [h.stale]
  have hfind := find_of_findEntry h.entry
  have hagain := findEntry_of_find hfind
  have hcache : (r.sent network st start).state.cache =
      (findEntry st.cache (fetchTarget st.hsts start r.url).url).2 := by
    unfold FetchRequest.sent fetchSend
    dsimp only
    rw [miniHttpcacheGet_eq]
    dsimp only
    split_ifs
    · rw [miniHttpcacheConditionalHeaders_snd, hagain]
    · rfl
  have hreplayed : (r.sent network st start).replayed (fetchTarget st.hsts start r.url) = some se := by
    unfold Sent.replayed miniHttpcacheGetAny
    rw [if_pos h.notModified, hcache, hagain]
  refine ⟨{ (r.sent network st start).state with
    cache := (miniHttpcacheGetAny (r.sent network st start).state.cache
      (fetchTarget st.hsts start r.url).url).2 }, ?_, ?_⟩
  · show (miniHttpcacheGetAny (r.sent network st start).state.cache
      (fetchTarget st.hsts start r.url).url).2.entries.find? _ = _
    unfold miniHttpcacheGetAny
    rw [hcache, hagain]
    exact hfind
  · rw [miniNetFetch_sent hcached, if_pos h.ok, fetchResponse_replayed hreplayed]
    rfl

/-- The entry after a 304 keeps what the 304 does not carry exactly if it is not stored anew, or
there was nothing to keep. -/
theorem keepsEntry_iff (h : Revalidates network start st r se) (finish : Int) :
    KeepsEntry se (notModifiedHeaders network start st r)
        (findEntry (miniNetFetch network start finish st r).state.cache
          (fetchTarget st.hsts start r.url).url).1 ↔
      NotStored (fetchTarget st.hsts start r.url) r (r.sent network st start).credentialed se
          (notModifiedHeaders network start st r) ∨
        NothingToKeep (fetchTarget st.hsts start r.url).url se
          (notModifiedHeaders network start st r) := by
  obtain ⟨st', hfind, hfetch⟩ := h.fetched finish
  have hurl := url_of_sent h.ok
  have hshort := length_fetchTarget st.hsts start r.url
  rw [hfetch, fetchHeaders_cache]
  generalize fetchTarget st.hsts start r.url = t at hfind hurl hshort ⊢
  generalize notModifiedHeaders network start st r = hdrs
  have hkept : KeepsEntry se hdrs (some se) :=
    ⟨se, rfl, rfl, fun _ => rfl, fun _ => rfl, fun _ => rfl, fun _ => rfl⟩
  split_ifs with hstore
  · obtain ⟨hget, hpassed, hlow, hhigh⟩ := hstore
    rcases store_cases st'.cache finish
      (r := storeRequest t.url hdrs (revalidated (r.sent network st start).record se) se.origin)
      hshort with ⟨hnil, -⟩ | ⟨hnoStore, hcache⟩ | ⟨-, hstatus, -⟩ | ⟨hstored, -, -, hcache⟩
    · exact absurd hnil hurl
    · have hfound : findEntry { st'.cache with disk := deleteFromDisk st'.cache.disk t.url } t.url =
          (some se, _) := findEntry_of_find hfind
      rw [hcache]
      refine iff_of_true ?_ (Or.inl (Or.inr (Or.inr (Or.inl hnoStore))))
      exact hfound ▸ hkept
    · exact absurd hstatus (by
        rintro (h | h)
        · exact absurd hlow (Int.not_le.2 h)
        · exact absurd hhigh (Int.not_lt.2 h))
    · have hfound := fun disk => findEntry_place st'.cache.entries disk
        ((storeRequest t.url hdrs (revalidated (r.sent network st start).record se) se.origin).entry
          finish t.url)
      rw [hcache]
      refine (iff_of_eq (congrArg (KeepsEntry se hdrs) (hfound _))).trans
        (keepsEntry_stored.trans (or_iff_right ?_).symm)
      rintro (h | h | h | h | h)
      · exact absurd (h.symm.trans hget) Bool.false_ne_true
      · exact absurd (hpassed.symm.trans h) Bool.false_ne_true
      · exact absurd (hstored.symm.trans h) Bool.false_ne_true
      · exact absurd hlow (Int.not_le.2 h)
      · exact absurd hhigh (Int.not_lt.2 h)
  · rw [findEntry_of_find hfind]
    refine iff_of_true hkept (Or.inl ?_)
    by_contra hnot
    rw [NotStored, not_or, not_or, not_or, not_or, Bool.not_eq_false, Bool.not_eq_true, Int.not_lt,
      Int.not_le] at hnot
    exact hstore ⟨hnot.1, hnot.2.1, hnot.2.2.2⟩

/-- A page asks for a resource again. -/
def againFetch : FetchRequest :=
  { method := ascii "GET", url := ascii "http://a.test/x", extraHeaders := [], body := []
    pageOrigin := none }

/-- A response that is to be revalidated before each use. -/
def noCacheResponse : Network := fun _ =>
  some (ascii "HTTP/1.1 200 OK\r\nETag: v1\r\nCache-Control: no-cache\r\n\r\nbody")

def notModifiedResponse : Network := fun _ => some (ascii "HTTP/1.1 304 Not Modified\r\n\r\n")

/-- The state after the first response. -/
def noCacheState : FetchState := (miniNetFetch noCacheResponse 0 0 emptyFetchState againFetch).state

/-- Its entry. -/
def noCacheEntry : MiniCacheEntry BodyOrigin :=
  { url := ascii "http://a.test/x", status := 200, mime := ascii "text/plain", body := ascii "body"
    etag := ascii "v1", lastModified := [], storedAt := 0, maxAge := -1, noCache := 1, noStore := 0
    origin := ⟨none, false⟩ }

theorem noCache_revalidates :
    Revalidates notModifiedResponse 1 noCacheState againFetch noCacheEntry := by
  constructor <;> decide +kernel

theorem keepsEntry_iff_noCache :
    Revalidates notModifiedResponse 1 noCacheState againFetch noCacheEntry ∧
    (KeepsEntry noCacheEntry (notModifiedHeaders notModifiedResponse 1 noCacheState againFetch)
        (findEntry (miniNetFetch notModifiedResponse 1 2 noCacheState againFetch).state.cache
          (fetchTarget noCacheState.hsts 1 againFetch.url).url).1 ↔
      NotStored (fetchTarget noCacheState.hsts 1 againFetch.url) againFetch
          (againFetch.sent notModifiedResponse noCacheState 1).credentialed noCacheEntry
          (notModifiedHeaders notModifiedResponse 1 noCacheState againFetch) ∨
        NothingToKeep (fetchTarget noCacheState.hsts 1 againFetch.url).url noCacheEntry
          (notModifiedHeaders notModifiedResponse 1 noCacheState againFetch)) :=
  ⟨noCache_revalidates, keepsEntry_iff noCache_revalidates 2⟩

/-- After a 304 without `Cache-Control` the entry is one that may be used for a day. -/
theorem noCache_forgotten :
    Revalidates notModifiedResponse 1 noCacheState againFetch noCacheEntry ∧
    ¬ KeepsEntry noCacheEntry (notModifiedHeaders notModifiedResponse 1 noCacheState againFetch)
      (findEntry (miniNetFetch notModifiedResponse 1 2 noCacheState againFetch).state.cache
        (ascii "http://a.test/x")).1 := by
  refine ⟨noCache_revalidates, ?_⟩
  rintro ⟨e, he, -, -, -, hnoCache, -⟩
  have hafter : (findEntry (miniNetFetch notModifiedResponse 1 2 noCacheState againFetch).state.cache
      (ascii "http://a.test/x")).1.map MiniCacheEntry.noCache = some 0 := by decide +kernel
  rw [he, Option.map_some, hnoCache (by decide +kernel)] at hafter
  exact absurd hafter (by decide)

end TinyFramework.Net
