/-
  Net/CookieParse.lean --- Set-Cookie lines and their dates.

  Times and numbers are unbounded, as in `Foundation/Decimal.lean`.  The clock does not move
  within a call.  `max_age` and `used` of a `MiniCookie` are never set and are left out.
-/
import TinyFramework.Foundation.CText
import TinyFramework.Foundation.Calendar
import Mathlib.Data.List.DropRight

set_option autoImplicit false

namespace TinyFramework.Net

open TinyFramework.Foundation

inductive MiniSameSite where
  | none
  | lax
  | strict
  deriving DecidableEq, Repr

structure MiniCookie where
  name : Bytes
  value : Bytes
  domain : Bytes
  path : Bytes
  /-- 0 for a session cookie -/
  expires : Int
  secure : Bool
  httpOnly : Bool
  sameSite : MiniSameSite
  deriving DecidableEq, Repr

/-! ## Dates -/

/-- `COOKIE_MONTHS` -/
def cookieMonths : List Bytes :=
  [ascii "Jan", ascii "Feb", ascii "Mar", ascii "Apr", ascii "May", ascii "Jun",
    ascii "Jul", ascii "Aug", ascii "Sep", ascii "Oct", ascii "Nov", ascii "Dec"]

/-- `month_num`; -1 is `none`. -/
def monthNum (m : Bytes) : Option Nat := cookieMonths.findIdx? fun month => strncasecmp m month 3

/-- What `parse_http_date` sets of a `struct tm`; the year is the whole one. -/
structure BrokenDownTime where
  year : Int
  mon : Nat
  mday : Int
  hour : Int
  min : Int
  sec : Int

/-- `mkgmtime_utc` -/
def mkgmtimeUtc (t : BrokenDownTime) : Int :=
  let dsm : List Int := [0, 31, 59, 90, 120, 151, 181, 212, 243, 273, 304, 334]
  let days := (t.year - 1970) * 365 + (t.year - 1969).tdiv 4 - (t.year - 1901).tdiv 100 +
    (t.year - 1601).tdiv 400
  let days := days + dsm.getD t.mon 0
  let days :=
    if 1 < t.mon ∧ (t.year.tmod 4 = 0 ∧ t.year.tmod 100 ≠ 0 ∨ t.year.tmod 400 = 0) then days + 1
    else days
  let days := days + (t.mday - 1)
  days * 86400 + t.hour * 3600 + t.min * 60 + t.sec

/-- The six conversions of a date. -/
structure ScannedDate where
  day : Int
  mname : Bytes
  year : Int
  hh : Int
  mm : Int
  ss : Int

/-- `%d:%d:%d` behind white space -/
def scanClock (day : Int) (mname : Bytes) (year : Int) (s : Bytes) : Option ScannedDate := do
  let (hh, s) ← scanInt s
  let s ← scanByte 58 s
  let (mm, s) ← scanInt s
  let s ← scanByte 58 s
  let (ss, _) ← scanInt s
  return ⟨day, mname, year, hh, mm, ss⟩

/-- `sscanf(p, "%d %3s %d %d:%d:%d", ...) == 6` -/
def scanRfc1123 (p : Bytes) : Option ScannedDate := do
  let (day, s) ← scanInt p
  let (mname, s) ← scanWord 3 s
  let (year, s) ← scanInt s
  scanClock day mname year s

/-- `sscanf(p, "%d-%3[^-]-%d %d:%d:%d", ...) == 6` -/
def scanRfc850 (p : Bytes) : Option ScannedDate := do
  let (day, s) ← scanInt p
  let s ← scanByte 45 s
  let (mname, s) ← scanUntil 3 45 s
  let s ← scanByte 45 s
  let (year, s) ← scanInt s
  scanClock day mname year s

/-- The time of a scanned date; 0 if its month has no name. -/
def ScannedDate.time (d : ScannedDate) (year : Int) : Int :=
  match monthNum d.mname with
  | none => 0
  | some mon => mkgmtimeUtc ⟨year, mon, d.day, d.hh, d.mm, d.ss⟩

/-- `parse_http_date` -/
def parseHttpDate (s : Bytes) : Int :=
  let p := s.dropWhile fun b => isalpha b || b == 44 || isspace b
  match scanRfc1123 p with
  | some d => d.time d.year
  | none =>
    match scanRfc850 p with
    | some d =>
        d.time (if d.year < 100 then d.year + (if d.year < 70 then 2000 else 1900) else d.year)
    | none => 0

/-- `parse_expiry`; a `Max-Age` that a `long` cannot hold is read as it stands. -/
def parseExpiry (maxAge expires : Bytes) (now : Int) : Int :=
  if maxAge ≠ [] then
    let s := atoi maxAge
    if s ≤ 0 then 1 else now + s
  else if expires ≠ [] then parseHttpDate expires
  else 0

/-! ## Domains -/

/-- `host_matches` -/
def hostMatches (domain host : Bytes) : Bool :=
  if domain = [] then false
  else if host = domain then true
  else
    decide (domain.length < host.length) && host[host.length - domain.length - 1]? == some 46 &&
      host.drop (host.length - domain.length) == domain

/-- `canon_domain`; an empty domain is a rejection. -/
def canonDomain (domain host : Bytes) : Bytes :=
  if domain = [] then (host.take 255).map tolower
  else
    let d := if domain.head? = some 46 then domain.tail else domain
    let d := d.map tolower
    if hostMatches d host then d else []

/-! ## Attributes -/

/-- The cookie under construction, `max_age` and `expires`. -/
structure CookieDraft where
  name : Bytes
  value : Bytes
  domain : Bytes := []
  path : Bytes := []
  secure : Bool := false
  httpOnly : Bool := false
  sameSite : MiniSameSite := .none
  maxAge : Bytes := []
  expires : Bytes := []

/-- `aname` and `aval` of the attribute that a text begins with.  A name that is cut is none of
the known ones, and its value is not used. -/
def readAttribute (a : Bytes) : Bytes × Bytes :=
  let text := a.takeWhile (· ≠ 59)
  let aeq := (text.takeWhile (· ≠ 61)).length
  let anlen := min aeq 31
  if aeq < text.length then
    (a.take anlen, (a.drop (aeq + 1)).take (min (text.length - anlen - 1) 127))
  else (a.take anlen, [])

/-- What an attribute sets. -/
def CookieDraft.set (out : CookieDraft) (aname aval : Bytes) : CookieDraft :=
  if strcasecmp aname (ascii "path") then { out with path := aval }
  else if strcasecmp aname (ascii "domain") then { out with domain := aval }
  else if strcasecmp aname (ascii "secure") then { out with secure := true }
  else if strcasecmp aname (ascii "httponly") then { out with httpOnly := true }
  else if strcasecmp aname (ascii "max-age") then { out with maxAge := aval.take 31 }
  else if strcasecmp aname (ascii "expires") then { out with expires := aval.take 63 }
  else if strcasecmp aname (ascii "samesite") then
    { out with
      sameSite :=
        if strcasecmp aval (ascii "lax") then .lax
        else if strcasecmp aval (ascii "strict") then .strict
        else .none }
  else out

/-- The start of the next attribute. -/
def skipToAttribute (rest : Bytes) : Bytes := rest.dropWhile fun b => b == 59 || isspace b

theorem length_skipToAttribute (rest : Bytes) : (skipToAttribute rest).length ≤ rest.length :=
  (List.dropWhile_sublist _).length_le

/-- What is behind the attribute that a text begins with. -/
def pastAttribute (a : Bytes) : Bytes := a.drop ((a.takeWhile (· ≠ 59)).length + 1)

/-- The loop over the attributes: their names and values. -/
def attributes (rest : Bytes) : List (Bytes × Bytes) :=
  if _hrest : rest = [] then []
  else
    readAttribute (skipToAttribute rest) :: attributes (pastAttribute (skipToAttribute rest))
termination_by rest.length
decreasing_by
  have hskip := length_skipToAttribute rest
  have hpos : 0 < rest.length := List.length_pos_iff.2 _hrest
  rw [pastAttribute, List.length_drop]
  omega

/-! ## `parse_cookie` -/

/-- What is behind the first semicolon. -/
def attributeText (str : Bytes) : Bytes := pastAttribute str

/-- The name and the value of the first pair; spaces behind the name are cut off after its
length is checked. -/
def readPair (str : Bytes) : Option (Bytes × Bytes) :=
  let pair := str.takeWhile (· ≠ 59)
  let name := pair.takeWhile (· ≠ 61)
  if name.length < pair.length then
    let value := pair.drop (name.length + 1)
    if name = [] ∨ 128 ≤ name.length ∨ 1024 ≤ value.length then none
    else some (name.rdropWhile isspace, value)
  else none

/-- The cookie with its attributes. -/
def draftCookie (str : Bytes) : Option CookieDraft :=
  (readPair str).map fun pair =>
    (attributes (attributeText str)).foldl (fun out a => out.set a.1 a.2)
      { name := pair.1, value := pair.2 }

/-- `parse_cookie` -/
def parseCookie (str host : Bytes) (isHttps : Bool) (now : Int) : Option MiniCookie :=
  match draftCookie str with
  | none => none
  | some out =>
    if out.secure && !isHttps then none
    else
      let domain := canonDomain out.domain host
      if domain = [] then none
      else
        some
          { name := out.name, value := out.value, domain := domain
            path := if out.path = [] then [47] else out.path
            expires := parseExpiry out.maxAge out.expires now
            secure := out.secure, httpOnly := out.httpOnly, sameSite := out.sameSite }

example : parseCookie (ascii "sid=abc; Path=/; HttpOnly; Secure; SameSite=Lax")
    (ascii "Example.com") true 100 = some
      { name := ascii "sid", value := ascii "abc", domain := ascii "example.com", path := [47]
        expires := 0, secure := true, httpOnly := true, sameSite := .lax } := by decide +kernel

example : parseHttpDate (ascii "Wed, 09 Jun 2021 10:18:14 GMT") = 1623233894 := by decide +kernel

/-! ## What a parsed cookie holds -/

theorem parseCookie_eq_some {str host : Bytes} {isHttps : Bool} {now : Int} {c : MiniCookie}
    (h : parseCookie str host isHttps now = some c) :
    ∃ out, draftCookie str = some out ∧ c.name = out.name ∧
      c.domain = canonDomain out.domain host ∧ c.domain ≠ [] ∧ c.path ≠ [] ∧
      c.expires = parseExpiry out.maxAge out.expires now := by
  unfold parseCookie at h
  cases hdraft : draftCookie str with
  | none =>
    rw [hdraft] at h
    cases h
  | some out =>
    rw [hdraft] at h
    dsimp only at h
    split_ifs at h with hsecure hdomain hpath
    · obtain rfl := Option.some.inj h
      exact ⟨out, rfl, rfl, rfl, hdomain, List.cons_ne_nil _ _, rfl⟩
    · obtain rfl := Option.some.inj h
      exact ⟨out, rfl, rfl, rfl, hdomain, hpath, rfl⟩

/-! ## The times of `mkgmtime_utc` are counted in seconds from 1970 on -/

/-- An instant as it stands in a `struct tm`. -/
def brokenDown (t : Instant) : BrokenDownTime :=
  ⟨t.date.year, t.date.month, t.date.day, t.hour, t.minute, t.second⟩

/-- The leap day is counted with the year, but for the days in front of it. -/
theorem daysBeforeMonth_table (y : Int) {m : Nat} (hm : m < 12) :
    daysBeforeMonth y m =
      ([0, 31, 59, 90, 120, 151, 181, 212, 243, 273, 304, 334] : List Int).getD m 0 +
        if 1 < m ∧ IsLeapYear y then 1 else 0 := by
  by_cases hleap : IsLeapYear y
  · interval_cases m <;> simp [daysBeforeMonth, daysInMonth, hleap]
  · interval_cases m <;> simp [daysBeforeMonth, daysInMonth, hleap]

theorem leapTest_iff {y : Int} (hy : 0 ≤ y) :
    (y.tmod 4 = 0 ∧ y.tmod 100 ≠ 0 ∨ y.tmod 400 = 0) ↔ IsLeapYear y := by
  rw [Int.tmod_eq_emod_of_nonneg hy, Int.tmod_eq_emod_of_nonneg hy, Int.tmod_eq_emod_of_nonneg hy,
    IsLeapYear]
  omega

/-- No division is of a negative number from 1970 on. -/
theorem truncated_years {y : Int} (hy : 1970 ≤ y) :
    (y - 1970) * 365 + (y - 1969).tdiv 4 - (y - 1901).tdiv 100 + (y - 1601).tdiv 400 =
      daysBeforeYear y - 719527 := by
  rw [Int.tdiv_eq_ediv_of_nonneg (by omega), Int.tdiv_eq_ediv_of_nonneg (by omega),
    Int.tdiv_eq_ediv_of_nonneg (by omega), daysBeforeYear]
  omega

theorem mkgmtimeUtc_eq {t : Instant} (hyear : 1970 ≤ t.date.year) :
    mkgmtimeUtc (brokenDown t) = t.number - unixEpoch.number := by
  have hmonth := daysBeforeMonth_table t.date.year t.date.month_lt
  have hleap : 1 < t.date.month ∧ (t.date.year.tmod 4 = 0 ∧ t.date.year.tmod 100 ≠ 0 ∨
      t.date.year.tmod 400 = 0) ↔ 1 < t.date.month ∧ IsLeapYear t.date.year :=
    and_congr_right fun _ => leapTest_iff (by omega)
  have hyears := truncated_years hyear
  rw [unixEpoch_number]
  simp only [mkgmtimeUtc, brokenDown, hyears, hleap, Instant.number, Instant.secondOfDay,
    CivilDate.number, hmonth]
  split_ifs <;> push_cast <;> omega

/-- From 1970 on a time is how many seconds after the first of them the instant is. -/
theorem mkgmtimeUtc_seconds (t : Instant) (hyear : 1970 ≤ t.date.year) :
    ∃ n : Nat, mkgmtimeUtc (brokenDown t) = n ∧ Instant.next^[n] unixEpoch = t := by
  have hepoch : unixEpoch.number ≤ t.number := by
    have hdays := t.date.number_in_year
    have hmono := daysBeforeYear_mono hyear
    have hfirst : daysBeforeYear 1970 = 719527 := by decide
    rw [unixEpoch_number, Instant.number]
    omega
  obtain ⟨n, hn⟩ := Int.eq_ofNat_of_zero_le (Int.sub_nonneg_of_le hepoch)
  refine ⟨n, (mkgmtimeUtc_eq hyear).trans hn, Instant.iterate_next_iff.2 ?_⟩
  omega

/-- Noon of the leap day of 2000. -/
def leapDayNoon : Instant :=
  ⟨⟨2000, 1, 29, by decide, by decide, by decide⟩, 12, 0, 0, by decide, unixEpoch.minute_lt,
    unixEpoch.second_lt⟩

theorem mkgmtimeUtc_seconds_leapDay : ∃ n : Nat,
    mkgmtimeUtc (brokenDown leapDayNoon) = n ∧ Instant.next^[n] unixEpoch = leapDayNoon :=
  mkgmtimeUtc_seconds leapDayNoon (by decide)

end TinyFramework.Net
