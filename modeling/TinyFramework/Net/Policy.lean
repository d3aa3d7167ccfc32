/-
  Net/Policy.lean --- origins, HSTS and the CORS gate of `mini_policy.c`.

  A port is an `int` and wraps, times are unbounded.  CSP and preflights are not asked by the
  fetch path.
-/
import TinyFramework.Foundation.CText

set_option autoImplicit false

namespace TinyFramework.Net

open TinyFramework.Foundation

/-! ## Origins -/

structure MiniOrigin where
  scheme : Bytes := []
  host : Bytes := []
  port : Int32 := 0
  deriving DecidableEq, Repr

/-- `while (*p >= '0' && *p <= '9') port = port * 10 + (*p++ - '0');` -/
def readPort (p : Bytes) : Int32 :=
  (p.takeWhile isDecimal).foldl (fun port d => port * 10 + Int32.ofNat (d.toNat - 48)) 0

/-- The number that is written, as far as an `int` holds it. -/
theorem readPort_eq (p : Bytes) : readPort p = Int32.ofNat (readDigits p) := by
  unfold readPort readDigits digitsValue
  have hfold : ∀ (ds : Bytes) (n : Nat),
      ds.foldl (fun port d => port * 10 + Int32.ofNat (d.toNat - 48)) (Int32.ofNat n) =
        Int32.ofNat (ds.foldl (fun v d => v * 10 + (d.toNat - 48)) n) := by
    intro ds
    induction ds with
    | nil => exact fun _ => rfl
    | cons d ds ih =>
      intro n
      rw [List.foldl_cons, List.foldl_cons, ← ih, Int32.ofNat_add, Int32.ofNat_mul]
      rfl
  exact hfold (p.takeWhile isDecimal) 0

/-- A byte that goes on with the host of an origin. -/
def isOriginHost (b : UInt8) : Bool := b ≠ 58 && b ≠ 47 && b ≠ 63 && b ≠ 35

/-- The host and the port behind `scheme://`. -/
def originAuthority (scheme p : Bytes) : MiniOrigin :=
  let host := (p.takeWhile isOriginHost).take 255
  let p := p.drop host.length
  { scheme := scheme, host := host
    port :=
      if p.head? = some 58 then readPort p.tail
      else if scheme = ascii "https" then 443 else 80 }

/-- `mini_origin_parse`: whether it succeeds, and what is in `o` either way. -/
def miniOriginParse (url : Bytes) : Bool × MiniOrigin :=
  let scheme := (url.takeWhile (· ≠ 58)).take 7
  if ascii "://" <+: url.drop scheme.length then
    let o := originAuthority scheme (url.drop (scheme.length + 3))
    (o.host ≠ [], o)
  else (false, { scheme := scheme })

theorem takeWhile_colon {s t : Bytes} (hs : (58 : UInt8) ∉ s) :
    (s ++ 58 :: t).takeWhile (· ≠ 58) = s := by
  rw [List.takeWhile_append_of_pos, List.takeWhile_cons_of_neg (by simp), List.append_nil]
  intro b hb
  rw [decide_eq_true_eq]
  rintro rfl
  exact hs hb

/-- `mini_origin_same` -/
def miniOriginSame (a b : MiniOrigin) : Bool :=
  a.scheme == b.scheme && strcasecmp a.host b.host && a.port == b.port

/-- `mini_origin_str` -/
def miniOriginStr (o : MiniOrigin) : Bytes := o.scheme ++ ascii "://" ++ o.host

/-! ## HSTS -/

structure HstsEntry where
  host : Bytes
  expires : Int
  subs : Bool
  deriving DecidableEq, Repr

/-- `HSTS_MAX` -/
def hstsMax : Nat := 64

/-- The `max-age` of a header, also where a `long` cannot hold it; -1 if it has none. -/
def hstsAge (sts : Bytes) : Int :=
  match strcasestr (ascii "max-age") sts with
  | none => -1
  | some ma => atoi ((ma.drop 7).dropWhile fun b => b == 32 || b == 61 || b == 9)

/-- `mini_hsts_remember` -/
def miniHstsRemember (hsts : List HstsEntry) (now : Int) (host sts : Bytes) : List HstsEntry :=
  if sts = [] then hsts
  else
    let age := hstsAge sts
    let subs := (strcasestr (ascii "includeSubDomains") sts).isSome
    match hsts.findIdx? fun e => strcasecmp e.host host with
    | some idx =>
        if age ≤ 0 then hsts.eraseIdx idx
        else hsts.modify idx fun e => { e with expires := now + age, subs := subs }
    | none =>
        if age ≤ 0 then hsts
        else
          let hsts := if hstsMax ≤ hsts.length then hsts.tail.take (hstsMax - 1) else hsts
          hsts ++ [{ host := host.take 255, expires := now + age, subs := subs }]

/-- Whether an entry asks for https on a host. -/
def HstsEntry.covers (e : HstsEntry) (now : Int) (host : Bytes) : Bool :=
  if e.expires ≠ 0 ∧ e.expires ≤ now then false
  else
    strcasecmp e.host host ||
      (e.subs && decide (e.host.length < host.length) &&
        host[host.length - e.host.length - 1]? == some 46 &&
        strcasecmp (host.drop (host.length - e.host.length)) e.host)

/-- `mini_hsts_should_upgrade` -/
def miniHstsShouldUpgrade (hsts : List HstsEntry) (now : Int) (host : Bytes) : Bool :=
  hsts.any fun e => e.covers now host

/-! ## CORS -/

/-- `mini_cors_response_allowed`; `aca_credentials` is not looked at. -/
def miniCorsResponseAllowed (reqOrigin : Option MiniOrigin) (acaOrigin : Option Bytes)
    (isCredentialed : Bool) : Bool :=
  match acaOrigin with
  | none => false
  | some [] => false
  | some aca =>
    if aca = ascii "*" then !isCredentialed
    else
      match reqOrigin with
      | none => false
      | some o =>
          strcasecmp aca (miniOriginStr o) ||
            (aca == ascii "null" && miniOriginStr o == ascii "null")

example : miniOriginParse (ascii "https://example.com:8443") =
    (true, ⟨ascii "https", ascii "example.com", 8443⟩) := by decide

end TinyFramework.Net
