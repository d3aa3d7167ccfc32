/-
  Net/Cookies.lean --- the cookie jar of `mini_cookies.c`.

  `g_jar` up to `g_jar_n` is a list.  A call reads the clock; what it reads is an argument.
-/
import TinyFramework.Foundation.KeyedTable
import TinyFramework.Net.CookieParse

set_option autoImplicit false

namespace TinyFramework.Net

open TinyFramework.Foundation

/-- `MAX_COOKIES` -/
def maxCookies : Nat := 256

/-- What two cookies of one slot have in common. -/
abbrev CookieKey := Bytes × Bytes × Bytes

def MiniCookie.key (c : MiniCookie) : CookieKey := (c.name, c.domain, c.path)

/-! ## The jar -/

/-- `find_slot` -/
def findSlot (jar : List MiniCookie) (c : MiniCookie) : Option Nat :=
  jar.findIdx? fun d => d.key = c.key

/-- A cookie that `purge_expired` drops. -/
def MiniCookie.Expired (c : MiniCookie) (now : Int) : Prop := c.expires ≠ 0 ∧ c.expires ≤ now

instance (c : MiniCookie) (now : Int) : Decidable (c.Expired now) :=
  inferInstanceAs (Decidable (_ ∧ _))

/-- `purge_expired`: the others move up. -/
def purgeExpired (jar : List MiniCookie) (now : Int) : List MiniCookie :=
  jar.filter fun c => ¬ c.Expired now

/-- `mini_cookies_set_from_header`: whether the cookie was taken, and the jar.  The path of the
response is not looked at. -/
def miniCookiesSetFromHeader (jar : List MiniCookie) (now : Int) (host _path : Bytes)
    (isHttps : Bool) (setCookie : Bytes) : Bool × List MiniCookie :=
  if setCookie = [] then (false, jar)
  else
    match parseCookie setCookie host isHttps now with
    | none => (false, jar)
    | some c =>
      let jar := purgeExpired jar now
      match findSlot jar c with
      | some idx => (true, jar.set idx c)
      | none =>
        let jar := if maxCookies ≤ jar.length then jar.tail.take (maxCookies - 1) else jar
        (true, jar ++ [c])

/-- `mini_cookies_set_js` -/
def miniCookiesSetJs (jar : List MiniCookie) (now : Int) (host path : Bytes) (isHttps : Bool)
    (cookieStr : Bytes) : Bool × List MiniCookie :=
  miniCookiesSetFromHeader jar now host path isHttps cookieStr

/-- `path_matches` -/
def pathMatches (cpath reqPath : Bytes) : Bool :=
  if cpath = [] then false
  else if cpath = [47] then true
  else if reqPath.length < cpath.length then false
  else if cpath ≠ reqPath.take cpath.length then false
  else if reqPath.length = cpath.length then true
  else reqPath[cpath.length]? == some 47 || cpath.getLast? == some 47

/-- What a `Cookie` header is asked for. -/
structure CookieRequest where
  host : Bytes
  path : Bytes
  isHttps : Bool
  forJs : Bool
  deriving DecidableEq

/-- `eligible` -/
def eligible (c : MiniCookie) (r : CookieRequest) : Bool :=
  if r.forJs && c.httpOnly then false
  else if c.secure && !r.isHttps then false
  else if !hostMatches c.domain r.host then false
  else if !pathMatches c.path r.path then false
  else true

/-- A cookie in a header. -/
def MiniCookie.pair (c : MiniCookie) : Bytes := c.name ++ 61 :: c.value

/-- The header that holds some cookies. -/
def headerText (sent : List MiniCookie) : Bytes :=
  (ascii "; ").intercalate (sent.map MiniCookie.pair)

/-- The loop of `build_for`: the cookies that are in `out`, and `out`.  The source keeps the
number of the former only. -/
def buildLoop (r : CookieRequest) (cap : Nat) :
    List MiniCookie → List MiniCookie × Bytes → List MiniCookie × Bytes
  | [], s => s
  | c :: cs, (sent, out) =>
      if !eligible c r then buildLoop r cap cs (sent, out)
      else
        let sep := if sent.length = 0 then [] else ascii "; "
        if cap < out.length + sep.length + c.name.length + 1 + c.value.length + 1 then (sent, out)
        else buildLoop r cap cs (sent ++ [c], out ++ sep ++ c.pair)

/-- What `build_for` yields: the length that it returns (-1 is `none`), what it writes to `out`,
and the jar that it leaves; `sent` are the cookies in `out`. -/
structure BuiltHeader where
  length : Option Nat
  out : Bytes
  jar : List MiniCookie
  sent : List MiniCookie

/-- `build_for` -/
def buildFor (jar : List MiniCookie) (now : Int) (r : CookieRequest) (cap : Nat) : BuiltHeader :=
  let jar := purgeExpired jar now
  let built := buildLoop r cap jar ([], [])
  { length := if built.1.length = 0 then none else some built.2.length
    out := built.2, jar := jar, sent := built.1 }

/-- `mini_cookies_build_header` -/
def miniCookiesBuildHeader (jar : List MiniCookie) (now : Int) (host path : Bytes)
    (isHttps forJs : Bool) (cap : Nat) : BuiltHeader :=
  buildFor jar now ⟨host, path, isHttps, forJs⟩ cap

/-- `mini_cookies_get_js` -/
def miniCookiesGetJs (jar : List MiniCookie) (now : Int) (host path : Bytes) (isHttps : Bool)
    (cap : Nat) : BuiltHeader :=
  buildFor jar now ⟨host, path, isHttps, true⟩ cap

/-- `mini_cookies_count` -/
def miniCookiesCount (jar : List MiniCookie) (now : Int) : Nat × List MiniCookie :=
  ((purgeExpired jar now).length, purgeExpired jar now)

/-! ## Histories -/

/-- A call that may change the jar. -/
inductive CookieCall where
  | setFromHeader (host path : Bytes) (isHttps : Bool) (setCookie : Bytes)
  | setJs (host path : Bytes) (isHttps : Bool) (cookieStr : Bytes)
  | clear
  | count
  | buildHeader (r : CookieRequest) (cap : Nat)
  | getJs (host path : Bytes) (isHttps : Bool) (cap : Nat)
  deriving DecidableEq

/-- A call and the time at which it is made. -/
structure CookieStep where
  now : Int
  call : CookieCall
  deriving DecidableEq

def CookieStep.exec (jar : List MiniCookie) (s : CookieStep) : List MiniCookie :=
  match s.call with
  | .setFromHeader host path isHttps setCookie =>
      (miniCookiesSetFromHeader jar s.now host path isHttps setCookie).2
  | .setJs host path isHttps cookieStr =>
      (miniCookiesSetJs jar s.now host path isHttps cookieStr).2
  | .clear => []
  | .count => (miniCookiesCount jar s.now).2
  | .buildHeader r cap => (miniCookiesBuildHeader jar s.now r.host r.path r.isHttps r.forJs cap).jar
  | .getJs host path isHttps cap => (miniCookiesGetJs jar s.now host path isHttps cap).jar

/-- The jar behind a history. -/
def jarAfter (steps : List CookieStep) : List MiniCookie := steps.foldl CookieStep.exec []

/-- The host, the scheme and the text of a call that sets a cookie. -/
def CookieCall.setter : CookieCall → Option (Bytes × Bool × Bytes)
  | .setFromHeader host _ isHttps setCookie => some (host, isHttps, setCookie)
  | .setJs host _ isHttps cookieStr => some (host, isHttps, cookieStr)
  | _ => none

/-- The cookie that a text gives, if it is taken. -/
def acceptedCookie (host : Bytes) (isHttps : Bool) (setCookie : Bytes) (now : Int) :
    Option MiniCookie :=
  if setCookie = [] then none else parseCookie setCookie host isHttps now

/-- The cookie that a step puts into the jar. -/
def CookieStep.accepted (s : CookieStep) : Option MiniCookie :=
  s.call.setter.bind fun a => acceptedCookie a.1 a.2.1 a.2.2 s.now

/-! ## A set is a place in a keyed table -/

theorem mem_purgeExpired {jar : List MiniCookie} {now : Int} {c : MiniCookie} :
    c ∈ purgeExpired jar now ↔ c ∈ jar ∧ ¬ c.Expired now := by
  rw [purgeExpired, List.mem_filter, decide_eq_true_eq]

theorem purgeExpired_sublist (jar : List MiniCookie) (now : Int) :
    (purgeExpired jar now).Sublist jar := List.filter_sublist

/-- A cookie that is taken is placed in the jar without the expired ones. -/
theorem setFromHeader_eq (jar : List MiniCookie) (now : Int) (host path : Bytes) (isHttps : Bool)
    (setCookie : Bytes) :
    miniCookiesSetFromHeader jar now host path isHttps setCookie =
      match acceptedCookie host isHttps setCookie now with
      | none => (false, jar)
      | some c =>
          (true, KeyedTable.place MiniCookie.key maxCookies c (purgeExpired jar now)) := by
  unfold miniCookiesSetFromHeader acceptedCookie
  split_ifs with hempty
  · rfl
  · cases parseCookie setCookie host isHttps now with
    | none => rfl
    | some c =>
      dsimp only
      unfold KeyedTable.place
      change (match KeyedTable.slot MiniCookie.key c.key (purgeExpired jar now) with
        | some idx => _
        | none => _) = _
      cases KeyedTable.slot MiniCookie.key c.key (purgeExpired jar now) with
      | some idx => rfl
      | none => rfl

/-- What a step leaves in the jar. -/
theorem CookieStep.exec_cases (jar : List MiniCookie) (s : CookieStep) :
    (∃ c, s.accepted = some c ∧
      s.exec jar = KeyedTable.place MiniCookie.key maxCookies c (purgeExpired jar s.now)) ∨
    (s.accepted = none ∧
      (s.exec jar = jar ∨ s.call = .clear ∧ s.exec jar = [] ∨ s.exec jar = purgeExpired jar s.now)) := by
  have hset : ∀ host path isHttps text,
      s.accepted = acceptedCookie host isHttps text s.now →
      s.exec jar = (miniCookiesSetFromHeader jar s.now host path isHttps text).2 →
      (∃ c, s.accepted = some c ∧
        s.exec jar = KeyedTable.place MiniCookie.key maxCookies c (purgeExpired jar s.now)) ∨
      (s.accepted = none ∧ (s.exec jar = jar ∨ s.call = .clear ∧ s.exec jar = [] ∨
        s.exec jar = purgeExpired jar s.now)) := by
    intro host path isHttps text haccepted hexec
    rw [setFromHeader_eq] at hexec
    cases hc : acceptedCookie host isHttps text s.now with
    | none =>
      rw [hc] at haccepted hexec
      exact Or.inr ⟨haccepted, Or.inl hexec⟩
    | some c =>
      rw [hc] at haccepted hexec
      exact Or.inl ⟨c, haccepted, hexec⟩
  obtain ⟨now, call⟩ := s
  cases call with
  | setFromHeader host path isHttps text => exact hset host path isHttps text rfl rfl
  | setJs host path isHttps text => exact hset host path isHttps text rfl rfl
  | clear => exact Or.inr ⟨rfl, Or.inr (Or.inl ⟨rfl, rfl⟩)⟩
  | count => exact Or.inr ⟨rfl, Or.inr (Or.inr rfl)⟩
  | buildHeader r cap => exact Or.inr ⟨rfl, Or.inr (Or.inr rfl)⟩
  | getJs host path isHttps cap => exact Or.inr ⟨rfl, Or.inr (Or.inr rfl)⟩

theorem jarAfter_concat (steps : List CookieStep) (s : CookieStep) :
    jarAfter (steps ++ [s]) = s.exec (jarAfter steps) := List.foldl_concat ..

/-! ## The header -/

theorem headerText_concat (sent : List MiniCookie) (c : MiniCookie) :
    headerText (sent ++ [c]) =
      headerText sent ++ (if sent.length = 0 then [] else ascii "; ") ++ c.pair := by
  induction sent with
  | nil => simp [headerText]
  | cons d sent ih =>
    cases sent with
    | nil => simp [headerText, List.intercalate_cons_cons]
    | cons e sent =>
      have hcons : ∀ rest, headerText (d :: e :: rest) =
          d.pair ++ ascii "; " ++ headerText (e :: rest) := by
        intro rest
        simp [headerText, List.intercalate_cons_cons]
      rw [List.cons_append, List.cons_append, hcons, hcons, ← List.cons_append, ih]
      simp

/-- The loop writes the cookies that it counts, which are the first of the eligible ones. -/
theorem buildLoop_spec (r : CookieRequest) (cap : Nat) (jar sent : List MiniCookie) :
    ∃ more, (buildLoop r cap jar (sent, headerText sent)).1 = sent ++ more ∧
      more <+: jar.filter (eligible · r) ∧
      (buildLoop r cap jar (sent, headerText sent)).2 = headerText (sent ++ more) := by
  induction jar generalizing sent with
  | nil => exact ⟨[], by simp [buildLoop], by simp, by simp [buildLoop]⟩
  | cons c jar ih =>
    cases hc : eligible c r with
    | false =>
      obtain ⟨more, hsent, hbegins, hout⟩ := ih sent
      refine ⟨more, ?_, ?_, ?_⟩
      · simpa [buildLoop, hc] using hsent
      · simpa [hc] using hbegins
      · simpa [buildLoop, hc] using hout
    | true =>
      by_cases hfits : cap < (headerText sent).length +
          (if sent.length = 0 then [] else ascii "; ").length + c.name.length + 1 +
            c.value.length + 1
      · refine ⟨[], ?_, List.nil_prefix, ?_⟩
        · simp only [buildLoop, hc, Bool.not_true, Bool.false_eq_true, if_false, if_pos hfits,
            List.append_nil]
        · simp only [buildLoop, hc, Bool.not_true, Bool.false_eq_true, if_false, if_pos hfits,
            List.append_nil]
      · obtain ⟨more, hsent, hbegins, hout⟩ := ih (sent ++ [c])
        rw [headerText_concat] at hsent hout
        refine ⟨c :: more, ?_, ?_, ?_⟩
        · simp only [buildLoop, hc, Bool.not_true, Bool.false_eq_true, if_false, if_neg hfits]
          rw [hsent, List.append_assoc, List.singleton_append]
        · have hfilter : (c :: jar).filter (eligible · r) = c :: jar.filter (eligible · r) :=
            List.filter_cons_of_pos hc
          rw [hfilter]
          exact List.cons_prefix_cons.2 ⟨rfl, hbegins⟩
        · simp only [buildLoop, hc, Bool.not_true, Bool.false_eq_true, if_false, if_neg hfits]
          rw [hout, List.append_assoc, List.singleton_append]

theorem buildFor_out (jar : List MiniCookie) (now : Int) (r : CookieRequest) (cap : Nat) :
    (buildFor jar now r cap).out = headerText (buildFor jar now r cap).sent := by
  obtain ⟨more, hsent, -, hout⟩ := buildLoop_spec r cap (purgeExpired jar now) []
  change (buildLoop r cap (purgeExpired jar now) ([], [])).2 = headerText (buildLoop r cap _ _).1
  exact hout.trans (congrArg headerText hsent.symm)

/-- A cookie in a header is in the jar, has not expired and is eligible. -/
theorem mem_sent {jar : List MiniCookie} {now : Int} {r : CookieRequest} {cap : Nat}
    {c : MiniCookie} (hc : c ∈ (buildFor jar now r cap).sent) :
    c ∈ jar ∧ ¬ c.Expired now ∧ eligible c r = true := by
  obtain ⟨more, hsent, hbegins, -⟩ := buildLoop_spec r cap (purgeExpired jar now) []
  have hmem : c ∈ more := by
    have hbuilt : c ∈ (buildLoop r cap (purgeExpired jar now) ([], [])).1 := hc
    exact (hsent ▸ hbuilt : c ∈ [] ++ more)
  obtain ⟨hpurged, helig⟩ := List.mem_filter.1 (hbegins.subset hmem)
  exact ⟨(mem_purgeExpired.1 hpurged).1, (mem_purgeExpired.1 hpurged).2, helig⟩

theorem eligible_iff {c : MiniCookie} {r : CookieRequest} : eligible c r = true ↔
    (r.forJs = true → c.httpOnly = false) ∧ (c.secure = true → r.isHttps = true) ∧
      hostMatches c.domain r.host = true ∧ pathMatches c.path r.path = true := by
  unfold eligible
  cases r.forJs <;> cases c.httpOnly <;> cases c.secure <;> cases r.isHttps <;>
    cases hostMatches c.domain r.host <;> cases pathMatches c.path r.path <;> simp

end TinyFramework.Net
