/-
  Net/CookieJar.lean --- the cookie jar and whom its cookies return to.

  The jar keeps no trace of the attribute: `canon_domain` puts the host of the response into
  the field that the attribute would fill.  Which set a cookie comes from is read off the
  history.

  The domain of a cookie is kept in lower case.  The host that asks for it is compared as it is
  spelled.
-/
import TinyFramework.Foundation.Histories
import TinyFramework.Net.Cookies
import Mathlib.Algebra.Order.BigOperators.Group.List

set_option autoImplicit false

namespace TinyFramework.Net

open TinyFramework.Foundation

/-! ## Jars -/

/-- A jar within its bound that has one cookie of a name, domain and path at most. -/
structure CookieJar where
  cookies : List MiniCookie
  bounded : cookies.length ≤ maxCookies
  distinct : (cookies.map MiniCookie.key).Nodup

namespace CookieJar

variable (jar : CookieJar)

def empty : CookieJar := ⟨[], Nat.zero_le _, List.nodup_nil⟩

/-- The jar without the expired cookies. -/
def purge (now : Int) : CookieJar where
  cookies := purgeExpired jar.cookies now
  bounded := (purgeExpired_sublist jar.cookies now).length_le.trans jar.bounded
  distinct := jar.distinct.sublist ((purgeExpired_sublist jar.cookies now).map _)

/-- A cookie in its place. -/
def place (c : MiniCookie) : CookieJar where
  cookies := KeyedTable.place MiniCookie.key maxCookies c jar.cookies
  bounded := KeyedTable.length_place jar.bounded (Nat.succ_pos _)
  distinct := KeyedTable.nodup_place jar.distinct

/-- Every step gives a jar again. -/
theorem exec (s : CookieStep) : ∃ jar' : CookieJar, jar'.cookies = s.exec jar.cookies := by
  rcases s.exec_cases jar.cookies with ⟨c, -, h⟩ | ⟨-, h | ⟨-, h⟩ | h⟩
  · exact ⟨(jar.purge s.now).place c, h.symm⟩
  · exact ⟨jar, h.symm⟩
  · exact ⟨empty, h.symm⟩
  · exact ⟨jar.purge s.now, h.symm⟩

/-- What is behind a history is a jar. -/
theorem reached (steps : List CookieStep) : ∃ jar : CookieJar, jar.cookies = jarAfter steps := by
  refine List.foldlRecOn (motive := fun cookies => ∃ jar : CookieJar, jar.cookies = cookies)
    steps CookieStep.exec ⟨empty, rfl⟩ ?_
  rintro _ ⟨jar, rfl⟩ s -
  exact jar.exec s

end CookieJar

/-! ## What a header shows -/

/-- A header is made of cookies of the jar; none of them is a `Secure` one unless the request is
https, none is an `HttpOnly` one if it goes to a script, and none has expired. -/
def BuiltHeader.Filtered (built : BuiltHeader) (jar : List MiniCookie) (now : Int)
    (isHttps forJs : Bool) : Prop :=
  built.out = headerText built.sent ∧
    ∀ c ∈ built.sent, c ∈ jar ∧ (isHttps = false → c.secure = false) ∧
      (forJs = true → c.httpOnly = false) ∧ ¬ (c.expires ≠ 0 ∧ c.expires ≤ now)

theorem buildFor_filtered (jar : List MiniCookie) (now : Int) (r : CookieRequest) (cap : Nat) :
    (buildFor jar now r cap).Filtered jar now r.isHttps r.forJs := by
  refine ⟨buildFor_out jar now r cap, fun c hc => ?_⟩
  obtain ⟨hjar, hexpired, helig⟩ := mem_sent hc
  obtain ⟨hjs, hsecure, -, -⟩ := eligible_iff.1 helig
  refine ⟨hjar, fun hhttp => ?_, hjs, hexpired⟩
  cases hsec : c.secure with
  | false => rfl
  | true => exact absurd (hsecure hsec) (hhttp ▸ Bool.false_ne_true)

/-- After every history the headers and the texts for scripts leave out what they have to. -/
theorem header_filtered (steps : List CookieStep) (now : Int) (host path : Bytes)
    (isHttps forJs : Bool) (cap : Nat) :
    (miniCookiesBuildHeader (jarAfter steps) now host path isHttps forJs cap).Filtered
        (jarAfter steps) now isHttps forJs ∧
      (miniCookiesGetJs (jarAfter steps) now host path isHttps cap).Filtered
        (jarAfter steps) now isHttps true :=
  ⟨buildFor_filtered _ _ _ _, buildFor_filtered _ _ _ _⟩

/-! ## What a script can do to a cookie it cannot read -/

/-- The cookie that a set shifts out of a full jar. -/
def EvictedBy (jar : List MiniCookie) (now : Int) (host : Bytes) (isHttps : Bool)
    (cookieStr : Bytes) (x : MiniCookie) : Prop :=
  ∃ c, acceptedCookie host isHttps cookieStr now = some c ∧
    KeyedTable.Evicts MiniCookie.key maxCookies c.key (purgeExpired jar now) x

/-- An assignment to `document.cookie` leaves every `HttpOnly` cookie as it is, but for those that
expired or are shifted out. -/
def KeepsHttpOnly (jar : List MiniCookie) (now : Int) (host path : Bytes) (isHttps : Bool)
    (cookieStr : Bytes) : Prop :=
  ∀ x ∈ jar, x.httpOnly = true → ¬ x.Expired now → ¬ EvictedBy jar now host isHttps cookieStr x →
    x ∈ (miniCookiesSetJs jar now host path isHttps cookieStr).2

/-- In every jar the `HttpOnly` cookies are left alone exactly if the text is no cookie, or one
that differs in name, domain or path from each of them that has not expired, or is equal to it. -/
theorem keepsHttpOnly_iff (jar : CookieJar) (now : Int) (host path : Bytes) (isHttps : Bool)
    (cookieStr : Bytes) :
    KeepsHttpOnly jar.cookies now host path isHttps cookieStr ↔
      ∀ c ∈ acceptedCookie host isHttps cookieStr now, ∀ x ∈ jar.cookies, x.httpOnly = true →
        ¬ x.Expired now → x.key = c.key → x = c := by
  unfold KeepsHttpOnly EvictedBy miniCookiesSetJs
  rw [setFromHeader_eq]
  cases acceptedCookie host isHttps cookieStr now with
  | none =>
    refine ⟨fun _ c hc => ?_, fun _ x hx _ _ _ => hx⟩
    cases hc
  | some c =>
    have hpurge := (jar.purge now).distinct
    constructor
    · rintro hkeeps c' hc' x hx hhttp hexpired hkey
      obtain rfl := Option.some.inj hc'
      have hpurged : x ∈ purgeExpired jar.cookies now := mem_purgeExpired.2 ⟨hx, hexpired⟩
      have hstays := hkeeps x hx hhttp hexpired (by
        rintro ⟨c', hc', hslot, -⟩
        obtain rfl := Option.some.inj hc'
        exact KeyedTable.slot_eq_none.1 hslot x hpurged hkey)
      rcases KeyedTable.mem_place hpurge hstays with h | ⟨-, hne⟩
      · exact h
      · exact absurd hkey hne
    · intro hsame x hx hhttp hexpired hstays
      have hpurged : x ∈ purgeExpired jar.cookies now := mem_purgeExpired.2 ⟨hx, hexpired⟩
      by_cases hkey : x.key = c.key
      · obtain rfl := hsame c rfl x hx hhttp hexpired hkey
        exact KeyedTable.self_mem_place
      · exact KeyedTable.mem_place_of_ne hpurge (jar.purge now).bounded hpurged hkey
          fun hevicts => hstays ⟨c, rfl, hevicts⟩

/-- A session cookie that a server hides from scripts. -/
def hiddenCookie : MiniCookie :=
  { name := ascii "sid", value := ascii "abc", domain := ascii "a.test", path := [47], expires := 0
    secure := false, httpOnly := true, sameSite := .none }

/-- A script of the host overwrites it. -/
theorem script_overwrites_httpOnly :
    ¬ KeepsHttpOnly
      (jarAfter [⟨100, .setFromHeader (ascii "a.test") [47] false (ascii "sid=abc; HttpOnly")⟩])
      200 (ascii "a.test") [47] false (ascii "sid=evil") := by
  have hjar : jarAfter
      [⟨100, .setFromHeader (ascii "a.test") [47] false (ascii "sid=abc; HttpOnly")⟩] =
        [hiddenCookie] := by decide +kernel
  have hgone : hiddenCookie ∉
      (miniCookiesSetJs [hiddenCookie] 200 (ascii "a.test") [47] false (ascii "sid=evil")).2 := by
    decide +kernel
  rw [hjar]
  intro hkeeps
  refine hgone (hkeeps hiddenCookie List.mem_cons_self rfl (by decide) ?_)
  rintro ⟨c, -, -, hfull, -⟩
  exact absurd hfull (by decide)

/-! ## What every history keeps -/

/-- A cookie whose time is over when it is set; for a `Max-Age` that is not positive the expiry
is 1. -/
def MiniCookie.SetExpired (c : MiniCookie) (now : Int) : Prop := c.expires = 1 ∨ c.Expired now

/-- The bound, one cookie of a name, domain and path at most, and none of the three empty. -/
structure JarInv (jar : List MiniCookie) : Prop where
  bounded : jar.length ≤ maxCookies
  distinct : (jar.map MiniCookie.key).Nodup
  named : ∀ c ∈ jar, c.name ≠ [] ∧ c.domain ≠ [] ∧ c.path ≠ []

/-- If the step sets a cookie that has expired, every other cookie that has not stays. -/
def ExpiredHarmless (jar : List MiniCookie) (s : CookieStep) : Prop :=
  ∀ c ∈ s.accepted, c.SetExpired s.now → ∀ x ∈ jar, ¬ x.Expired s.now → x.key ≠ c.key →
    x ∈ s.exec jar

/-- What stands before the first equals sign. -/
def cookieName (setCookie : Bytes) : Bytes := (setCookie.takeWhile (· ≠ 59)).takeWhile (· ≠ 61)

/-- The name that is set is not blank, and a cookie that has expired finds its place or room. -/
def SafeCookieStep (jar : List MiniCookie) (s : CookieStep) : Prop :=
  ∀ c ∈ s.accepted,
    (∀ a ∈ s.call.setter, ∃ b ∈ cookieName a.2.2, isspace b = false) ∧
    (c.SetExpired s.now → (∃ x ∈ purgeExpired jar s.now, x.key = c.key) ∨
      (purgeExpired jar s.now).length < maxCookies)

theorem draftCookie_name {str : Bytes} {out : CookieDraft} (h : draftCookie str = some out) :
    out.name = (cookieName str).rdropWhile isspace := by
  have hset : ∀ (l : List (Bytes × Bytes)) (d : CookieDraft),
      (l.foldl (fun out a => out.set a.1 a.2) d).name = d.name := by
    intro l
    induction l with
    | nil => exact fun d => rfl
    | cons a l ih =>
      intro d
      rw [List.foldl_cons, ih]
      unfold CookieDraft.set
      split_ifs <;> rfl
  unfold draftCookie readPair at h
  dsimp only at h
  split_ifs at h with hlt hbad
  · cases h
  · obtain rfl := Option.some.inj h
    rw [hset]
    rfl
  · cases h

/-- Of a cookie that is taken only the name can be empty, and it is if the text before the equals
sign is blank. -/
theorem accepted_named {s : CookieStep} {c : MiniCookie} (h : s.accepted = some c) :
    (c.name ≠ [] ↔ ∀ a ∈ s.call.setter, ∃ b ∈ cookieName a.2.2, isspace b = false) ∧
      c.domain ≠ [] ∧ c.path ≠ [] := by
  unfold CookieStep.accepted at h
  obtain ⟨a, ha, hparse⟩ := Option.bind_eq_some_iff.1 h
  unfold acceptedCookie at hparse
  split_ifs at hparse
  obtain ⟨out, hdraft, hname, -, hdomain, hpath, -⟩ := parseCookie_eq_some hparse
  refine ⟨?_, hdomain, hpath⟩
  rw [hname, draftCookie_name hdraft, ha, Ne, List.rdropWhile_eq_nil_iff]
  simp

theorem jarInv_step_iff {jar : List MiniCookie} (hjar : JarInv jar) (s : CookieStep) :
    JarInv (s.exec jar) ∧ ExpiredHarmless jar s ↔ SafeCookieStep jar s := by
  obtain ⟨kept, hkept⟩ := CookieJar.exec ⟨jar, hjar.bounded, hjar.distinct⟩ s
  change kept.cookies = s.exec jar at hkept
  have hpurged : ((purgeExpired jar s.now).map MiniCookie.key).Nodup :=
    hjar.distinct.sublist ((purgeExpired_sublist jar s.now).map _)
  have hlength : (purgeExpired jar s.now).length ≤ maxCookies :=
    (purgeExpired_sublist jar s.now).length_le.trans hjar.bounded
  rcases s.exec_cases jar with ⟨c, hc, hexec⟩ | ⟨hnone, hexec⟩
  · obtain ⟨hname, hdomain, hpath⟩ := accepted_named hc
    constructor
    · rintro ⟨hinv, hharmless⟩ c' hc'
      obtain rfl := Option.some.inj (hc.symm.trans hc')
      refine ⟨hname.1 (hinv.named c (hexec ▸ KeyedTable.self_mem_place)).1, fun hset => ?_⟩
      by_contra hno
      rw [not_or, not_exists, Nat.not_lt] at hno
      obtain ⟨hslot, hfull⟩ := hno
      -- the first cookie of the full jar is shifted out
      obtain ⟨x, rest, hx⟩ := List.exists_cons_of_ne_nil
        (List.ne_nil_of_length_pos (Nat.lt_of_lt_of_le (Nat.succ_pos _) hfull))
      have hmem : x ∈ purgeExpired jar s.now := hx ▸ List.mem_cons_self
      have hne : x.key ≠ c.key := fun hkey => hslot x ⟨hmem, hkey⟩
      have hevicts : KeyedTable.Evicts MiniCookie.key maxCookies c.key (purgeExpired jar s.now) x :=
        ⟨KeyedTable.slot_eq_none.2 fun y hy hkey => hslot y ⟨hy, hkey⟩, hfull, by rw [hx]; rfl⟩
      obtain ⟨hxjar, hxlive⟩ := mem_purgeExpired.1 hmem
      refine KeyedTable.not_mem_place_of_evicts hpurged hne hevicts ?_
      rw [← hexec]
      exact hharmless c hc hset x hxjar hxlive hne
    · intro hsafe
      obtain ⟨hblank, hroom⟩ := hsafe c hc
      refine ⟨⟨hkept ▸ kept.bounded, hkept ▸ kept.distinct, fun x hx => ?_⟩, ?_⟩
      · rw [hexec] at hx
        rcases KeyedTable.mem_place hpurged hx with rfl | ⟨hx, -⟩
        · exact ⟨hname.2 hblank, hdomain, hpath⟩
        · exact hjar.named x (mem_purgeExpired.1 hx).1
      · intro c' hc' hset x hx hlive hne
        obtain rfl := Option.some.inj (hc.symm.trans hc')
        rw [hexec]
        refine KeyedTable.mem_place_of_ne hpurged hlength (mem_purgeExpired.2 ⟨hx, hlive⟩) hne ?_
        rintro ⟨hslot, hfull, -⟩
        rcases hroom hset with ⟨y, hy, hkey⟩ | hlt
        · exact KeyedTable.slot_eq_none.1 hslot y hy hkey
        · exact absurd hfull (Nat.not_le.2 hlt)
  · have hnot : ∀ c, c ∉ s.accepted := fun c hc => by
      rw [hnone] at hc
      cases hc
    have hsub : ∀ x ∈ s.exec jar, x ∈ jar := by
      rcases hexec with h | ⟨-, h⟩ | h
      · exact fun x hx => h ▸ hx
      · intro x hx
        rw [h] at hx
        cases hx
      · exact fun x hx => (mem_purgeExpired.1 (h ▸ hx)).1
    refine ⟨fun _ c hc => absurd hc (hnot c), fun _ => ⟨⟨hkept ▸ kept.bounded,
      hkept ▸ kept.distinct, fun x hx => hjar.named x (hsub x hx)⟩, fun c hc => absurd hc (hnot c)⟩⟩

/-- The jar is in order behind every history, and no expired cookie costs another one its place,
exactly if every set is safe. -/
theorem jarHistory_iff (steps : List CookieStep) :
    ((∀ pre post, steps = pre ++ post → JarInv (jarAfter pre)) ∧
        ∀ pre s post, steps = pre ++ s :: post → ExpiredHarmless (jarAfter pre) s) ↔
      ∀ pre s post, steps = pre ++ s :: post → SafeCookieStep (jarAfter pre) s := by
  apply Histories.law_iff JarInv ExpiredHarmless SafeCookieStep
  · exact ⟨Nat.zero_le _, List.nodup_nil, fun c hc => absurd hc List.not_mem_nil⟩
  · exact fun pre s hinv => jarInv_step_iff hinv s

/-- A name of one space is cut to nothing after its length was checked. -/
theorem blank_name_kept :
    ¬ JarInv (jarAfter [⟨100, .setFromHeader (ascii "a.test") [47] true (ascii " =v")⟩]) := by
  intro hinv
  have hnameless : ∃ c ∈ jarAfter
      [⟨100, .setFromHeader (ascii "a.test") [47] true (ascii " =v")⟩], c.name = [] := by
    decide +kernel
  obtain ⟨c, hc, hname⟩ := hnameless
  exact (hinv.named c hc).1 hname

/-! ## Where a cookie comes from -/

/-- The last step of a history that set a cookie of some name, domain and path. -/
def lastSet (steps : List CookieStep) (k : CookieKey) : Option CookieStep :=
  steps.reverse.find? fun s => s.accepted.any fun c => c.key = k

theorem lastSet_concat_self {steps : List CookieStep} {s : CookieStep} {c : MiniCookie}
    (h : s.accepted = some c) : lastSet (steps ++ [s]) c.key = some s := by
  rw [lastSet, List.reverse_append, List.reverse_singleton, List.singleton_append]
  exact List.find?_cons_of_pos (by simp [h])

theorem lastSet_concat_of_ne {steps : List CookieStep} {s : CookieStep} {k : CookieKey}
    (h : ∀ c ∈ s.accepted, c.key ≠ k) : lastSet (steps ++ [s]) k = lastSet steps k := by
  rw [lastSet, List.reverse_append, List.reverse_singleton, List.singleton_append]
  refine List.find?_cons_of_neg ?_
  cases hs : s.accepted with
  | none => simp
  | some c => simpa using h c hs

/-- Every cookie in the jar is what the last set of its name, domain and path made it. -/
theorem lastSet_of_mem (steps : List CookieStep) {c : MiniCookie} (hc : c ∈ jarAfter steps) :
    ∃ s, lastSet steps c.key = some s ∧ s.accepted = some c := by
  induction steps using List.reverseRecOn generalizing c with
  | nil => cases hc
  | append_singleton steps s ih =>
    rw [jarAfter_concat] at hc
    obtain ⟨jar, hjar⟩ := CookieJar.reached steps
    rcases s.exec_cases (jarAfter steps) with ⟨d, hd, hexec⟩ | ⟨hnone, hexec⟩
    · rw [hexec] at hc
      rcases KeyedTable.mem_place (hjar ▸ (jar.purge s.now).distinct) hc with rfl | ⟨hold, hne⟩
      · exact ⟨s, lastSet_concat_self hd, hd⟩
      · obtain ⟨s', hlast, haccepted⟩ := ih (mem_purgeExpired.1 hold).1
        refine ⟨s', ?_, haccepted⟩
        rw [lastSet_concat_of_ne, hlast]
        intro d' hd' hkey
        obtain rfl := Option.some.inj (hd.symm.trans hd')
        exact hne hkey.symm
    · have hold : c ∈ jarAfter steps := by
        rcases hexec with h | ⟨-, h⟩ | h
        · exact h ▸ hc
        · rw [h] at hc
          cases hc
        · exact (mem_purgeExpired.1 (h ▸ hc)).1
      obtain ⟨s', hlast, haccepted⟩ := ih hold
      refine ⟨s', ?_, haccepted⟩
      rw [lastSet_concat_of_ne, hlast]
      intro d hd
      rw [hnone] at hd
      cases hd

/-- Whether a text has a `Domain` attribute. -/
def hasDomainAttribute (setCookie : Bytes) : Bool :=
  (attributes (attributeText setCookie)).any fun a => strcasecmp a.1 (ascii "domain")

/-- The last set of the cookie came from the host and had no `Domain` attribute. -/
def HostOnlyFrom (steps : List CookieStep) (c : MiniCookie) (h : Bytes) : Prop :=
  ∃ s isHttps setCookie, lastSet steps c.key = some s ∧
    s.call.setter = some (h, isHttps, setCookie) ∧ hasDomainAttribute setCookie = false

/-- Without the attribute the domain stays empty until `canon_domain`. -/
theorem foldl_set_domain {l : List (Bytes × Bytes)}
    (h : (l.any fun a => strcasecmp a.1 (ascii "domain")) = false) (d : CookieDraft) :
    (l.foldl (fun out a => out.set a.1 a.2) d).domain = d.domain := by
  induction l generalizing d with
  | nil => rfl
  | cons a l ih =>
    rw [List.any_cons, Bool.or_eq_false_iff] at h
    rw [List.foldl_cons, ih h.2]
    unfold CookieDraft.set
    rw [if_neg (c := strcasecmp a.1 (ascii "domain") = true) (by rw [h.1]; exact Bool.false_ne_true)]
    split_ifs <;> rfl

/-- What `canon_domain` makes of a host that sets no `Domain`. -/
def hostDomain (h : Bytes) : Bytes := (h.take 255).map tolower

theorem HostOnlyFrom.domain {steps : List CookieStep} {c : MiniCookie} {h : Bytes}
    (hfrom : HostOnlyFrom steps c h) (hc : c ∈ jarAfter steps) : c.domain = hostDomain h := by
  obtain ⟨s, isHttps, setCookie, hlast, hsetter, hnone⟩ := hfrom
  obtain ⟨s', hlast', haccepted⟩ := lastSet_of_mem steps hc
  obtain rfl := Option.some.inj (hlast.symm.trans hlast')
  rw [CookieStep.accepted, hsetter, Option.bind_some, acceptedCookie] at haccepted
  split_ifs at haccepted
  obtain ⟨out, hdraft, -, hdomain, -, -, -⟩ := parseCookie_eq_some haccepted
  have hout : out.domain = [] := by
    obtain ⟨pair, -, rfl⟩ := Option.map_eq_some_iff.1 hdraft
    exact foldl_set_domain hnone _
  rw [hdomain, hout, canonDomain, if_pos rfl, hostDomain]

/-! ## Where it goes -/

theorem pathMatches_self {path : Bytes} (h : path ≠ []) : pathMatches path path = true := by
  unfold pathMatches
  rw [if_neg h]
  split_ifs with hroot hlt hne hlength
  · rfl
  · exact absurd hlt (Nat.lt_irrefl _)
  · exact absurd List.take_length.symm hne
  · rfl
  · exact absurd rfl hlength

/-- The bytes that cookies take up in a header, at most. -/
def headerRoom (jar : List MiniCookie) : Nat :=
  (jar.map fun c => c.name.length + c.value.length + 4).sum

/-- A header with room for all cookies holds every eligible one. -/
theorem buildLoop_room (r : CookieRequest) (cap : Nat) (jar sent : List MiniCookie) (out : Bytes)
    (hroom : out.length + headerRoom jar ≤ cap) :
    (buildLoop r cap jar (sent, out)).1 = sent ++ jar.filter (eligible · r) := by
  induction jar generalizing sent out with
  | nil => simp [buildLoop]
  | cons c jar ih =>
    rw [headerRoom, List.map_cons, List.sum_cons] at hroom
    cases hc : eligible c r with
    | false =>
      have hrest := ih sent out (by rw [headerRoom]; omega)
      simpa [buildLoop, hc] using hrest
    | true =>
      have hsep : (if sent.length = 0 then [] else ascii "; ").length ≤ 2 := by
        split_ifs
        · exact Nat.zero_le _
        · exact Nat.le_refl _
      have hfits : ¬ cap < out.length + (if sent.length = 0 then [] else ascii "; ").length +
          c.name.length + 1 + c.value.length + 1 := by omega
      have hpair : c.pair.length = c.name.length + 1 + c.value.length := by
        rw [MiniCookie.pair, List.length_append, List.length_cons]
        omega
      have hrest := ih (sent ++ [c]) (out ++ (if sent.length = 0 then [] else ascii "; ") ++ c.pair) (by
        rw [List.length_append, List.length_append, hpair, headerRoom]
        omega)
      have hfilter : (c :: jar).filter (eligible · r) = c :: jar.filter (eligible · r) :=
        List.filter_cons_of_pos hc
      simp only [buildLoop, hc, Bool.not_true, Bool.false_eq_true, if_false, if_neg hfits]
      rw [hrest, hfilter, List.append_assoc, List.singleton_append]

/-- No header for the host, whatever it is asked for, holds a cookie that another host set without
a `Domain` attribute. -/
def HostOnlyAt (steps : List CookieStep) (now : Int) (host : Bytes) : Prop :=
  ∀ path isHttps forJs cap,
    ∀ c ∈ (miniCookiesBuildHeader (jarAfter steps) now host path isHttps forJs cap).sent,
      ∀ h, HostOnlyFrom steps c h → host = h

/-- After every history this is so exactly if the host is no subdomain of another one (in lower
case) of which the jar holds such a cookie that has not expired. -/
theorem hostOnly_iff (steps : List CookieStep) (now : Int) (host : Bytes) :
    HostOnlyAt steps now host ↔
      ∀ c ∈ jarAfter steps, ¬ c.Expired now → ∀ h, HostOnlyFrom steps c h → host ≠ h →
        hostMatches (hostDomain h) host = false := by
  constructor
  · intro honly c hc hlive h hfrom hne
    by_contra hmatch
    rw [Bool.not_eq_false, ← hfrom.domain hc] at hmatch
    obtain ⟨s, -, haccepted⟩ := lastSet_of_mem steps hc
    obtain ⟨-, -, hpath⟩ := accepted_named haccepted
    -- the request for the cookie's own path, by https and with room for all
    have helig : eligible c ⟨host, c.path, true, false⟩ = true :=
      eligible_iff.2 ⟨fun hjs => absurd hjs Bool.false_ne_true, fun _ => rfl, hmatch,
        pathMatches_self hpath⟩
    refine hne (honly c.path true false (headerRoom (purgeExpired (jarAfter steps) now)) c ?_ h hfrom)
    change c ∈ (buildLoop _ _ (purgeExpired (jarAfter steps) now) ([], [])).1
    rw [buildLoop_room _ _ _ _ _ (Nat.le_of_eq (Nat.zero_add _)), List.nil_append]
    exact List.mem_filter.2 ⟨mem_purgeExpired.2 ⟨hc, hlive⟩, helig⟩
  · intro hnone path isHttps forJs cap c hc h hfrom
    obtain ⟨hjar, hlive, helig⟩ := mem_sent hc
    obtain ⟨-, -, hmatch, -⟩ := eligible_iff.1 helig
    by_contra hne
    rw [hfrom.domain hjar, hnone c hjar hlive h hfrom hne] at hmatch
    exact absurd hmatch Bool.false_ne_true

/-- `example.com` sets a cookie for itself. -/
def hostOnlySteps : List CookieStep :=
  [⟨100, .setFromHeader (ascii "example.com") [47] true (ascii "sid=abc; Path=/")⟩]

/-- Its subdomain is sent the cookie. -/
theorem subdomain_gets_hostOnly : ¬ HostOnlyAt hostOnlySteps 200 (ascii "evil.example.com") := by
  intro honly
  have hsent : ∃ c ∈ (miniCookiesBuildHeader (jarAfter hostOnlySteps) 200
      (ascii "evil.example.com") [47] true false 2048).sent,
        lastSet hostOnlySteps c.key = hostOnlySteps.head? := by decide +kernel
  obtain ⟨c, hc, hlast⟩ := hsent
  have hhost := honly [47] true false 2048 c hc (ascii "example.com")
    ⟨_, true, ascii "sid=abc; Path=/", hlast, rfl, by decide +kernel⟩
  exact absurd hhost (by decide)

/-! ## Headers with room for all -/

theorem length_headerText (sent : List MiniCookie) :
    (headerText sent).length + (if sent = [] then 0 else 2) =
      (sent.map fun c => c.pair.length + 2).sum := by
  induction sent using List.reverseRecOn with
  | nil => rfl
  | append_singleton sent c ih =>
    rw [headerText_concat, List.map_append, List.sum_append, ← ih]
    cases sent with
    | nil => simp [headerText]
    | cons d sent =>
      have hsep : (ascii "; ").length = 2 := by decide
      simp [hsep]
      omega

/-- Fewer cookies need no more room. -/
theorem length_headerText_le {sent sent' : List MiniCookie} (h : sent.Sublist sent') :
    (headerText sent).length ≤ (headerText sent').length := by
  have hsum := (h.map fun c => c.pair.length + 2).sum_le_sum fun _ _ => Nat.zero_le _
  have hleft := length_headerText sent
  have hright := length_headerText sent'
  by_cases hempty : sent = []
  · subst hempty
    exact Nat.zero_le _
  · have hempty' : sent' ≠ [] := by
      rintro rfl
      exact hempty (List.sublist_nil.1 h)
    rw [if_neg hempty] at hleft
    rw [if_neg hempty'] at hright
    omega

/-- A header that holds all eligible cookies is built with them. -/
theorem buildLoop_fits (r : CookieRequest) (cap : Nat) (jar sent : List MiniCookie)
    (hroom : (headerText (sent ++ jar.filter (eligible · r))).length < cap) :
    (buildLoop r cap jar (sent, headerText sent)).1 = sent ++ jar.filter (eligible · r) := by
  induction jar generalizing sent with
  | nil => simp [buildLoop]
  | cons c jar ih =>
    cases hc : eligible c r with
    | false =>
      have hfilter : (c :: jar).filter (eligible · r) = jar.filter (eligible · r) :=
        List.filter_cons_of_neg (by rw [hc]; exact Bool.false_ne_true)
      rw [hfilter] at hroom ⊢
      simpa [buildLoop, hc] using ih sent hroom
    | true =>
      have hfilter : (c :: jar).filter (eligible · r) = c :: jar.filter (eligible · r) :=
        List.filter_cons_of_pos hc
      rw [hfilter, List.append_cons] at hroom ⊢
      have hfirst : (headerText (sent ++ [c])).length < cap :=
        Nat.lt_of_le_of_lt (length_headerText_le (List.sublist_append_left _ _)) hroom
      have hpair : c.pair.length = c.name.length + 1 + c.value.length := by
        rw [MiniCookie.pair, List.length_append, List.length_cons]
        omega
      have hfits : ¬ cap < (headerText sent).length +
          (if sent.length = 0 then [] else ascii "; ").length + c.name.length + 1 +
            c.value.length + 1 := by
        rw [headerText_concat, List.length_append, List.length_append, hpair] at hfirst
        omega
      have hrest := ih (sent ++ [c]) hroom
      rw [headerText_concat] at hrest
      simp only [buildLoop, hc, Bool.not_true, Bool.false_eq_true, if_false, if_neg hfits]
      exact hrest

/-! ## Setting and asking -/

/-- The value of the last `Domain` attribute. -/
def domainAttribute (setCookie : Bytes) : Bytes :=
  ((attributes (attributeText setCookie)).reverse.find? fun a =>
    strcasecmp a.1 (ascii "domain")).elim [] Prod.snd

/-- Whatever is in the jar when a host sets a cookie over https, the next header for the cookie's
path holds its pair, if there is room for all cookies. -/
def ReadsOwnWrite (host setCookie : Bytes) (now : Int) (c : MiniCookie) : Prop :=
  ∀ (jar : List MiniCookie) (path : Bytes) (later : Int) (cap : Nat),
    let set := miniCookiesSetFromHeader jar now host path true setCookie
    let built := miniCookiesBuildHeader set.2 later host c.path true false cap
    (headerText set.2).length < cap →
      built.out = headerText built.sent ∧ ∃ d ∈ built.sent, d.pair = c.pair

theorem CookieDraft.set_domain (out : CookieDraft) {aname : Bytes} (aval : Bytes)
    (h : strcasecmp aname (ascii "domain") = true) : (out.set aname aval).domain = aval := by
  have hpath : strcasecmp aname (ascii "path") = false := by
    rw [strcasecmp, beq_iff_eq] at h
    rw [strcasecmp, h]
    decide
  unfold CookieDraft.set
  rw [if_neg (by rw [hpath]; exact Bool.false_ne_true), if_pos h]

theorem CookieDraft.set_domain_of_ne (out : CookieDraft) {aname : Bytes} (aval : Bytes)
    (h : strcasecmp aname (ascii "domain") = false) : (out.set aname aval).domain = out.domain := by
  unfold CookieDraft.set
  rw [if_neg (c := strcasecmp aname (ascii "domain") = true) (by rw [h]; exact Bool.false_ne_true)]
  split_ifs <;> rfl

theorem foldl_set_domain_eq (l : List (Bytes × Bytes)) (d : CookieDraft) :
    (l.foldl (fun out a => out.set a.1 a.2) d).domain =
      (l.reverse.find? fun a => strcasecmp a.1 (ascii "domain")).elim d.domain Prod.snd := by
  induction l using List.reverseRecOn with
  | nil => rfl
  | append_singleton l a ih =>
    rw [List.foldl_concat, List.reverse_append, List.reverse_singleton, List.singleton_append]
    cases ha : strcasecmp a.1 (ascii "domain") with
    | true =>
      rw [CookieDraft.set_domain _ _ ha,
        List.find?_cons_of_pos (p := fun a : Bytes × Bytes => strcasecmp a.1 (ascii "domain")) ha,
        Option.elim_some]
    | false =>
      rw [List.find?_cons_of_neg (by rw [ha]; exact Bool.false_ne_true),
        CookieDraft.set_domain_of_ne _ _ ha, ih]

theorem draftCookie_domain {str : Bytes} {out : CookieDraft} (h : draftCookie str = some out) :
    out.domain = domainAttribute str := by
  obtain ⟨pair, -, rfl⟩ := Option.map_eq_some_iff.1 h
  exact foldl_set_domain_eq _ _

/-- A cookie that is taken matches its host, but for the letters of a host that set no domain. -/
theorem accepted_matches {host setCookie : Bytes} {now : Int} {c : MiniCookie}
    (haccepted : acceptedCookie host true setCookie now = some c) :
    hostMatches c.domain host = true ↔
      domainAttribute setCookie ≠ [] ∨ hostMatches (hostDomain host) host = true := by
  unfold acceptedCookie at haccepted
  split_ifs at haccepted
  obtain ⟨out, hdraft, -, hdomain, hne, -⟩ := parseCookie_eq_some haccepted
  rw [draftCookie_domain hdraft] at hdomain
  by_cases hattribute : domainAttribute setCookie = []
  · rw [hdomain, canonDomain, if_pos hattribute, ← hostDomain]
    exact (or_iff_right (not_not.2 hattribute)).symm
  · refine iff_of_true ?_ (Or.inl hattribute)
    rw [hdomain, canonDomain, if_neg hattribute] at hne ⊢
    dsimp only at hne ⊢
    generalize (if (domainAttribute setCookie).head? = some 46 then
      (domainAttribute setCookie).tail else domainAttribute setCookie).map tolower = d at hne ⊢
    by_cases hmatch : hostMatches d host = true
    · rw [if_pos hmatch]
      exact hmatch
    · exact absurd (if_neg hmatch) hne

/-- A session cookie that is taken comes back exactly if its text names a domain, or the host
matches what it is in lower case. -/
theorem readsOwnWrite_iff {host setCookie : Bytes} {now : Int} {c : MiniCookie}
    (haccepted : acceptedCookie host true setCookie now = some c) (hsession : c.expires = 0) :
    ReadsOwnWrite host setCookie now c ↔
      domainAttribute setCookie ≠ [] ∨ hostMatches (hostDomain host) host = true := by
  have hset : ∀ jar path, miniCookiesSetFromHeader jar now host path true setCookie =
      (true, KeyedTable.place MiniCookie.key maxCookies c (purgeExpired jar now)) := by
    intro jar path
    rw [setFromHeader_eq, haccepted]
  have hlive : ∀ later, ¬ c.Expired later := fun later h => h.1 hsession
  have helig : eligible c ⟨host, c.path, true, false⟩ = true ↔
      hostMatches c.domain host = true := by
    have hpath : c.path ≠ [] := by
      unfold acceptedCookie at haccepted
      split_ifs at haccepted
      obtain ⟨-, -, -, -, -, hpath, -⟩ := parseCookie_eq_some haccepted
      exact hpath
    rw [eligible_iff]
    simp [pathMatches_self hpath]
  rw [← accepted_matches haccepted, ← helig]
  constructor
  · intro hreads
    -- in an empty jar no other cookie has the pair
    have hback := hreads [] [] now ((headerText [c]).length + 1)
    have hjar : KeyedTable.place MiniCookie.key maxCookies c (purgeExpired [] now) = [c] := rfl
    rw [hset, hjar] at hback
    obtain ⟨-, d, hd, -⟩ := hback (Nat.lt_succ_self _)
    obtain ⟨hmem, -, hd⟩ := mem_sent hd
    rwa [List.mem_singleton.1 hmem] at hd
  · intro hc jar path later cap
    rw [hset]
    dsimp only
    intro hroom
    refine ⟨buildFor_out _ _ _ _, c, ?_, rfl⟩
    have hpurged := purgeExpired_sublist
      (KeyedTable.place MiniCookie.key maxCookies c (purgeExpired jar now)) later
    have hfits := Nat.lt_of_le_of_lt (length_headerText_le
      ((List.filter_sublist (p := (eligible · ⟨host, c.path, true, false⟩))).trans hpurged)) hroom
    change c ∈ (buildLoop _ _ (purgeExpired _ later) ([], headerText [])).1
    rw [buildLoop_fits _ _ _ _ hfits, List.nil_append]
    exact List.mem_filter.2
      ⟨mem_purgeExpired.2 ⟨KeyedTable.self_mem_place, hlive later⟩, hc⟩

/-- A host in lower case reads what it wrote. -/
theorem readsOwnWrite_iff_lowerHost :
    ∃ c, acceptedCookie (ascii "example.com") true (ascii "sid=abc") 100 = some c ∧
      (ReadsOwnWrite (ascii "example.com") (ascii "sid=abc") 100 c ↔
        domainAttribute (ascii "sid=abc") ≠ [] ∨
          hostMatches (hostDomain (ascii "example.com")) (ascii "example.com") = true) :=
  ⟨⟨ascii "sid", ascii "abc", ascii "example.com", [47], 0, false, false, .none⟩,
    by decide +kernel, readsOwnWrite_iff (by decide +kernel) rfl⟩

/-- A host with a capital letter is not sent its cookie. -/
theorem capital_host_not_sent :
    ∃ c, acceptedCookie (ascii "Example.com") true (ascii "sid=abc") 100 = some c ∧
      c.expires = 0 ∧ ¬ ReadsOwnWrite (ascii "Example.com") (ascii "sid=abc") 100 c := by
  refine ⟨⟨ascii "sid", ascii "abc", ascii "example.com", [47], 0, false, false, .none⟩,
    by decide +kernel, rfl, ?_⟩
  intro hreads
  obtain ⟨-, d, hd, -⟩ := hreads [] [] 100 64 (by decide +kernel)
  have hnone : (miniCookiesBuildHeader (miniCookiesSetFromHeader [] 100 (ascii "Example.com") [] true
      (ascii "sid=abc")).2 100 (ascii "Example.com") [47] true false 64).sent = [] := by
    decide +kernel
  rw [hnone] at hd
  cases hd

end TinyFramework.Net
