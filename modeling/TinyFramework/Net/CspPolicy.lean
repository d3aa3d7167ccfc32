/-
  Net/CspPolicy.lean --- content security policies.

  The origin of a URL is cut to the fields of `MiniOrigin`; where they hold it, it is what the
  header says, `scheme://host[:port]`.

  Of a policy the first eight directives are kept, and of a source its scheme and its host are
  compared.  A directive whose texts do not fit is read in pieces, which is not seen by the others.
-/
import TinyFramework.Net.Policy
import Mathlib.Data.List.DropRight
import Mathlib.Data.List.Find

set_option autoImplicit false

namespace TinyFramework.Net

open TinyFramework.Foundation

/-! ## Setting a policy -/

/-- `CSP_MAX_DIRS` -/
def cspMaxDirs : Nat := 8

/-- `CSP_MAX_SRC` -/
def cspMaxSrc : Nat := 16

/-- `CspDir` -/
structure CspDir where
  name : Bytes
  src : List Bytes
  deriving DecidableEq, Repr

/-- A byte of a name or a source. -/
def isCspWord (b : UInt8) : Bool := b ≠ 32 && b ≠ 59

/-- A byte between two directives. -/
def isCspBreak (b : UInt8) : Bool := b = 32 || b = 59

/-- The token that a text begins with, as far as a buffer of so many bytes holds it. -/
def cspToken (size : Nat) (p : Bytes) : Bytes := (p.takeWhile isCspWord).take (size - 1)

/-- `while (*p == ' ') p++;` -/
def skipBlanks (p : Bytes) : Bytes := p.dropWhile (· == 32)

/-- What one turn of the loop over the sources leaves of the text. -/
def pastCspSource (p : Bytes) : Bytes :=
  skipBlanks ((skipBlanks p).drop (cspToken 128 (skipBlanks p)).length)

theorem length_skipBlanks_le (p : Bytes) : (skipBlanks p).length ≤ p.length :=
  (List.dropWhile_sublist _).length_le

/-- A turn takes a blank or a byte of a token. -/
theorem length_pastCspSource_lt {p : Bytes} (h : ¬ (p = [] ∨ p.head? = some 59)) :
    (pastCspSource p).length < p.length := by
  have hpast := length_skipBlanks_le ((skipBlanks p).drop (cspToken 128 (skipBlanks p)).length)
  rw [List.length_drop] at hpast
  cases p with
  | nil => exact absurd (Or.inl rfl) h
  | cons b p =>
    unfold pastCspSource
    rcases eq_or_ne b 32 with rfl | hblank
    · have hskip : skipBlanks (32 :: p) = skipBlanks p := List.dropWhile_cons_of_pos rfl
      have hlength := length_skipBlanks_le p
      rw [hskip] at hpast ⊢
      rw [List.length_cons]
      omega
    · have hskip : skipBlanks (b :: p) = b :: p := List.dropWhile_cons_of_neg (by simpa using hblank)
      have hword : isCspWord b = true := by
        simp only [isCspWord, hblank, ne_eq, not_false_eq_true, decide_true, Bool.true_and,
          decide_eq_true_eq]
        rintro rfl
        exact h (Or.inr rfl)
      have htoken : 0 < (cspToken 128 (b :: p)).length := by
        rw [cspToken, List.takeWhile_cons_of_pos hword]
        exact Nat.succ_pos _
      rw [hskip] at hpast ⊢
      rw [List.length_cons] at hpast ⊢
      omega

/-- The loop over the sources of a directive: those that are kept, and the rest of the text. -/
def cspSources (src : List Bytes) (p : Bytes) : List Bytes × Bytes :=
  if _h : p = [] ∨ p.head? = some 59 then (src, p)
  else
    let tok := cspToken 128 (skipBlanks p)
    cspSources (if tok ≠ [] ∧ src.length < cspMaxSrc then src ++ [tok] else src) (pastCspSource p)
termination_by p.length
decreasing_by exact length_pastCspSource_lt _h

/-- `if (*p == ';') p++;` -/
def skipSemicolon (p : Bytes) : Bytes := if p.head? = some 59 then p.tail else p

/-- The loop over the directives, with room for so many. -/
def cspDirs : Nat → Bytes → List CspDir
  | 0, _ => []
  | room + 1, p =>
    if p = [] then []
    else
      let p := p.dropWhile isCspBreak
      let name := cspToken 24 p
      if name = [] then []
      else
        let sources := cspSources [] (skipBlanks (p.drop name.length))
        { name := name, src := sources.1 } :: cspDirs room (skipSemicolon sources.2)

/-- `mini_csp_set` -/
def miniCspSet (csp : Bytes) : List CspDir := cspDirs cspMaxDirs csp

/-! ## Asking it -/

/-- `csp_find` -/
def cspFind (csp : List CspDir) (name : Bytes) : Option CspDir :=
  csp.find? fun d => strcasecmp d.name name

/-- Whether a source is the scheme and the host of an origin. -/
def cspSourceAllows (s : Bytes) (o : MiniOrigin) : Bool :=
  if strncasecmp s (ascii "http") 4 || ascii "data:" <+: s || ascii "blob:" <+: s then
    let so := miniOriginParse s
    so.1 && strcasecmp ((so.2.scheme ++ ascii "://" ++ so.2.host).take 127)
      ((o.scheme ++ ascii "://" ++ o.host).take 279)
  else false

/-- `has_self`, `has_none` and `has_star` -/
structure CspFlags where
  hasSelf : Bool := false
  hasNone : Bool := false
  hasStar : Bool := false
  deriving DecidableEq, Repr

/-- The loop over the sources; `none` if one of them allows the URL.  `o` is its origin, if that
was parsed. -/
def cspFlags (o : Option MiniOrigin) : List Bytes → CspFlags → Option CspFlags
  | [], f => some f
  | s :: src, f =>
    if s = ascii "'none'" then cspFlags o src { f with hasNone := true }
    else if s = ascii "'self'" then cspFlags o src { f with hasSelf := true }
    else if s = ascii "*" then cspFlags o src { f with hasStar := true }
    else if o.any (cspSourceAllows s) then none
    else cspFlags o src f

/-- `mini_csp_allows` -/
def miniCspAllows (csp : List CspDir) (directive : Bytes) (page : Option MiniOrigin) (url : Bytes) :
    Bool :=
  match (cspFind csp directive).or (cspFind csp (ascii "default-src")) with
  | none => true
  | some d =>
    let parsed := miniOriginParse url
    let o := if parsed.1 then some parsed.2 else none
    match cspFlags o d.src {} with
    | none => true
    | some f =>
      if f.hasNone then false
      else if f.hasStar then true
      else if f.hasSelf then page.any fun page => o.any (miniOriginSame page)
      else false

example : miniCspAllows
    (miniCspSet (ascii "default-src 'self'; script-src 'self' https://cdn.example"))
    (ascii "script-src") none (ascii "https://cdn.example/lib.js") = true := by decide +kernel

/-! ## Origins that are not cut -/

/-- An origin as it is written. -/
structure UrlOrigin where
  scheme : Bytes
  host : Bytes
  port : Nat
  deriving DecidableEq, Repr

/-- The host and the port behind `scheme://`, whatever their lengths. -/
def wholeAuthority (scheme p : Bytes) : UrlOrigin :=
  let host := p.takeWhile isOriginHost
  let after := p.drop host.length
  { scheme := scheme, host := host
    port :=
      if after.head? = some 58 then readDigits after.tail
      else if scheme = ascii "https" then 443 else 80 }

/-- The origin that a URL begins with. -/
def urlOrigin (url : Bytes) : Option UrlOrigin :=
  let scheme := url.takeWhile (· ≠ 58)
  if ascii "://" <+: url.drop scheme.length then
    let o := wholeAuthority scheme (url.drop (scheme.length + 3))
    if o.host = [] then none else some o
  else none

namespace UrlOrigin

/-- The fields of `MiniOrigin` hold the host and the port. -/
def Fits (u : UrlOrigin) : Prop := u.host.length ≤ 255 ∧ u.port < 2147483648

instance (u : UrlOrigin) : Decidable u.Fits := inferInstanceAs (Decidable (_ ∧ _))

/-- The same origin as that of a page: a host is compared in any case. -/
def SameOrigin (u : UrlOrigin) (page : MiniOrigin) : Prop :=
  page.scheme = u.scheme ∧ strcasecmp page.host u.host = true ∧ page.port.toInt = u.port

end UrlOrigin

theorem originAuthority_port {scheme p : Bytes}
    (h : (wholeAuthority scheme p).host.length ≤ 255) :
    (originAuthority scheme p).port = Int32.ofNat (wholeAuthority scheme p).port := by
  have hhost : (p.takeWhile isOriginHost).take 255 = p.takeWhile isOriginHost :=
    List.take_of_length_le h
  unfold originAuthority wholeAuthority
  dsimp only
  rw [hhost, readPort_eq]
  split_ifs <;> rfl

/-- Where a colon follows, the scheme was not cut. -/
theorem take_scheme_eq {url : Bytes} {n : Nat}
    (h : ascii "://" <+: url.drop ((url.takeWhile (· ≠ 58)).take n).length) :
    (url.takeWhile (· ≠ 58)).take n = url.takeWhile (· ≠ 58) := by
  refine List.take_of_length_le (Nat.le_of_not_lt fun hlt => ?_)
  rw [List.length_take_of_le (Nat.le_of_lt hlt)] at h
  obtain ⟨rest, hrest⟩ := h
  obtain ⟨t, ht⟩ := List.takeWhile_prefix (· ≠ 58) (l := url)
  have hcolon : (url.takeWhile (· ≠ 58) ++ t)[n]? = some 58 := by
    rw [ht, ← List.head?_drop, ← hrest]
    rfl
  rw [List.getElem?_append_left hlt] at hcolon
  simpa using List.mem_takeWhile_imp (List.mem_of_getElem? hcolon)

/-- A parsed origin is that of the URL, but for the end of its host and what an `int` does not
hold. -/
theorem miniOriginParse_eq {url : Bytes} (h : (miniOriginParse url).1 = true) :
    ∃ u, urlOrigin url = some u ∧ (miniOriginParse url).2.scheme = u.scheme ∧
      (miniOriginParse url).2.host = u.host.take 255 ∧
      (u.host.length ≤ 255 → (miniOriginParse url).2.port = Int32.ofNat u.port) := by
  unfold miniOriginParse at h ⊢
  dsimp only at h ⊢
  split_ifs at h ⊢ with hslashes
  have hscheme := take_scheme_eq hslashes
  rw [hscheme] at h hslashes ⊢
  have hhost : (wholeAuthority (url.takeWhile (· ≠ 58))
      (url.drop ((url.takeWhile (· ≠ 58)).length + 3))).host ≠ [] := by
    intro hempty
    refine of_decide_eq_true h ?_
    change (List.takeWhile isOriginHost _).take 255 = []
    rw [show List.takeWhile isOriginHost _ = [] from hempty, List.take_nil]
  unfold urlOrigin
  dsimp only
  rw [if_pos hslashes, if_neg hhost]
  exact ⟨_, rfl, rfl, rfl, originAuthority_port⟩

/-- The buffers of `MiniOrigin`. -/
theorem length_miniOriginParse (url : Bytes) : (miniOriginParse url).2.scheme.length ≤ 7 ∧
    (miniOriginParse url).2.host.length ≤ 255 := by
  have htake : ∀ (s : Bytes) (n : Nat), (s.take n).length ≤ n := fun s n => by
    rw [List.length_take]
    exact Nat.min_le_left _ _
  unfold miniOriginParse
  dsimp only
  split_ifs
  · exact ⟨htake _ _, htake _ _⟩
  · exact ⟨htake _ _, Nat.zero_le _⟩

/-! ## Policies -/

/-- A source `scheme://host[:port]`. -/
structure OriginSource where
  scheme : Bytes
  host : Bytes
  port : Option Nat
  scheme_word : ∀ b ∈ scheme, isCspWord b = true ∧ b ≠ 58
  host_word : ∀ b ∈ host, isCspWord b = true ∧ isOriginHost b = true
  host_ne : host ≠ []
  deriving DecidableEq

namespace OriginSource

def portText (s : OriginSource) : Bytes := s.port.elim [] fun n => 58 :: decimal n

def text (s : OriginSource) : Bytes := s.scheme ++ ascii "://" ++ s.host ++ s.portText

/-- The origin that it names. -/
def origin (s : OriginSource) : UrlOrigin :=
  { scheme := s.scheme, host := s.host
    port := s.port.getD (if s.scheme = ascii "https" then 443 else 80) }

end OriginSource

inductive CspSource where
  | none
  | self
  | star
  | origin (s : OriginSource)
  deriving DecidableEq

def CspSource.text : CspSource → Bytes
  | none => ascii "'none'"
  | self => ascii "'self'"
  | star => ascii "*"
  | origin s => s.text

/-- A directive, with what stands in front of it, and one blank or more in front of each source. -/
structure CspDirective where
  lead : Bytes
  name : Bytes
  spacedSources : List (Nat × CspSource)
  lead_break : ∀ b ∈ lead, isCspBreak b = true
  name_word : ∀ b ∈ name, isCspWord b = true
  name_ne : name ≠ []
  deriving DecidableEq

namespace CspDirective

def sources (d : CspDirective) : List CspSource := d.spacedSources.map Prod.snd

def sourceText (s : Nat × CspSource) : Bytes := List.replicate (s.1 + 1) 32 ++ s.2.text

def text (d : CspDirective) : Bytes := d.name ++ d.spacedSources.flatMap sourceText

/-- The name and the sources fit into the buffers of the parser. -/
def Fits (d : CspDirective) : Prop :=
  d.name.length ≤ 23 ∧ ∀ s ∈ d.sources, s.text.length ≤ 127

instance (d : CspDirective) : Decidable d.Fits := inferInstanceAs (Decidable (_ ∧ _))

/-- The entry of the table: what is too long for a buffer goes on as the next source. -/
def kept (d : CspDirective) : CspDir :=
  { name := d.name.take 23
    src := (cspSources [] (skipBlanks (d.name.drop 23 ++ d.spacedSources.flatMap sourceText))).1 }

end CspDirective

/-- The text of directives and of what stands behind them. -/
def directivesText (ds : List CspDirective) (tail : Bytes) : Bytes :=
  ds.flatMap (fun d => d.lead ++ d.text) ++ tail

/-- Directives with semicolons between them. -/
structure CspPolicy where
  directives : List CspDirective
  tail : Bytes
  tail_break : ∀ b ∈ tail, isCspBreak b = true
  separated : ∀ d ∈ directives.tail, 59 ∈ d.lead

namespace CspPolicy

def text (P : CspPolicy) : Bytes := directivesText P.directives P.tail

/-- The directive of a name among the first eight. -/
def find (P : CspPolicy) (name : Bytes) : Option CspDirective :=
  (P.directives.take cspMaxDirs).find? fun d => strcasecmp d.name name

/-- The directive that decides: that of the name, else `default-src`. -/
def governing (P : CspPolicy) (name : Bytes) : Option CspDirective :=
  (P.find name).or (P.find (ascii "default-src"))

end CspPolicy

/-! ## Words and breaks -/

theorem isCspBreak_eq_not (b : UInt8) : isCspBreak b = !isCspWord b := by
  simp [isCspBreak, isCspWord]

theorem isCspWord_of_isDecimal {b : UInt8} (h : isDecimal b = true) : isCspWord b = true := by
  have hblank : b ≠ 32 := by
    rintro rfl
    exact absurd h (by decide)
  have hsemicolon : b ≠ 59 := by
    rintro rfl
    exact absurd h (by decide)
  simp [isCspWord, hblank, hsemicolon]

theorem OriginSource.word (s : OriginSource) : ∀ b ∈ s.text, isCspWord b = true := by
  intro b hb
  unfold OriginSource.text at hb
  simp only [List.mem_append] at hb
  rcases hb with ((hb | hb) | hb) | hb
  · exact (s.scheme_word b hb).1
  · have hslashes : ∀ b ∈ ascii "://", isCspWord b = true := forall_mem_ascii (by decide)
    exact hslashes b hb
  · exact (s.host_word b hb).1
  · unfold OriginSource.portText at hb
    cases hport : s.port with
    | none =>
      rw [hport] at hb
      cases hb
    | some n =>
      rw [hport] at hb
      rcases List.mem_cons.1 hb with rfl | hb
      · rfl
      · exact isCspWord_of_isDecimal (isDecimal_of_mem_decimal hb)

theorem CspSource.word (s : CspSource) : ∀ b ∈ s.text, isCspWord b = true := by
  cases s with
  | none => exact forall_mem_ascii (by decide)
  | self => exact forall_mem_ascii (by decide)
  | star => exact forall_mem_ascii (by decide)
  | origin s => exact s.word

theorem OriginSource.colon_mem (s : OriginSource) : 58 ∈ s.text := by
  unfold OriginSource.text
  simp [ascii]

theorem CspSource.text_ne (s : CspSource) : s.text ≠ [] := by
  cases s with
  | none => decide
  | self => decide
  | star => decide
  | origin s => exact List.ne_nil_of_mem s.colon_mem

/-- What follows a token is nothing, or begins with a break. -/
def Ends (p : Bytes) : Prop := ∀ b ∈ p.head?, isCspWord b = false

/-- A token does not go on behind a break. -/
theorem cspToken_ends {p : Bytes} (hp : Ends p) (size : Nat) (t : Bytes) :
    cspToken size (t ++ p) = cspToken size t := by
  have hnone : p.takeWhile isCspWord = [] := by
    cases p with
    | nil => rfl
    | cons b p =>
      exact List.takeWhile_cons_of_neg (by rw [hp b rfl]; exact Bool.false_ne_true)
  rw [cspToken, cspToken, List.takeWhile_append, hnone, List.append_nil]
  split_ifs with hall
  · rw [(List.takeWhile_prefix isCspWord).eq_of_length hall]
  · rfl

theorem cspToken_word {size : Nat} {tok : Bytes} (htok : ∀ b ∈ tok, isCspWord b = true) :
    cspToken size tok = tok.take (size - 1) := by
  rw [cspToken, List.takeWhile_eq_self_iff.2 htok]

theorem cspToken_append {size : Nat} {tok p : Bytes} (htok : ∀ b ∈ tok, isCspWord b = true)
    (hlength : tok.length ≤ size - 1) (hp : Ends p) : cspToken size (tok ++ p) = tok := by
  rw [cspToken_ends hp, cspToken_word htok, List.take_of_length_le hlength]

theorem skipBlanks_replicate (n : Nat) (p : Bytes) :
    skipBlanks (List.replicate n 32 ++ p) = skipBlanks p :=
  List.dropWhile_append_of_pos fun b hb => by rw [List.eq_of_mem_replicate hb]; rfl

theorem skipBlanks_word {tok p : Bytes} (htok : ∀ b ∈ tok, isCspWord b = true) (hne : tok ≠ []) :
    skipBlanks (tok ++ p) = tok ++ p := by
  cases tok with
  | nil => exact absurd rfl hne
  | cons b tok =>
    refine List.dropWhile_cons_of_neg fun h => ?_
    have hb := htok b List.mem_cons_self
    rw [eq_of_beq h] at hb
    exact absurd hb (by decide)

/-! ## Reading a directive -/

open CspDirective (sourceText)

theorem ends_sources {l : List (Nat × CspSource)} {p : Bytes} (hp : Ends p) :
    Ends (l.flatMap sourceText ++ p) := by
  cases l with
  | nil => exact hp
  | cons s l =>
    intro b hb
    obtain rfl : 32 = b := by simpa [sourceText, List.replicate_succ] using hb
    rfl

theorem cspSources_end {src : List Bytes} {p : Bytes} (hp : p = [] ∨ p.head? = some 59) :
    cspSources src p = (src, p) := by
  rw [cspSources, dif_pos hp]

theorem skipBlanks_cons {b : UInt8} (hb : isCspWord b = true) (p : Bytes) :
    skipBlanks (b :: p) = b :: p :=
  List.dropWhile_cons_of_neg fun h => by
    rw [eq_of_beq h] at hb
    exact absurd hb (by decide)

/-- One turn of the loop over the sources. -/
theorem cspSources_turn {src : List Bytes} {b : UInt8} (hb : isCspWord b = true) (p : Bytes) :
    cspSources src (b :: p) =
      cspSources (if cspToken 128 (b :: p) ≠ [] ∧ src.length < cspMaxSrc then
          src ++ [cspToken 128 (b :: p)] else src)
        (skipBlanks ((b :: p).drop (cspToken 128 (b :: p)).length)) := by
  have hstart : ¬ (b :: p = [] ∨ (b :: p).head? = some 59) := by
    rintro (h | h)
    · cases h
    · rw [Option.some.inj h] at hb
      exact absurd hb (by decide)
  conv_lhs => rw [cspSources, dif_neg hstart, pastCspSource, skipBlanks_cons hb]

theorem cspSources_token {src : List Bytes} {tok p : Bytes}
    (htok : ∀ b ∈ tok, isCspWord b = true) (hne : tok ≠ []) (hlength : tok.length ≤ 127)
    (hp : Ends p) :
    cspSources src (tok ++ p) =
      cspSources (if src.length < cspMaxSrc then src ++ [tok] else src) (skipBlanks p) := by
  have htoken : cspToken 128 (tok ++ p) = tok := cspToken_append htok hlength hp
  obtain ⟨b, t, hcons⟩ := List.exists_cons_of_ne_nil hne
  have hb := htok b (by rw [hcons]; exact List.mem_cons_self)
  have htext : tok ++ p = b :: (t ++ p) := by rw [hcons, List.cons_append]
  rw [htext, cspSources_turn hb, ← htext, htoken, List.drop_left]
  simp only [ne_eq, hne, not_false_eq_true, true_and]

/-- The sources are read, as far as there is room for them. -/
theorem cspSources_text (l : List (Nat × CspSource)) {src : List Bytes} {p : Bytes}
    (hl : ∀ s ∈ l, s.2.text.length ≤ 127) (hsrc : src.length ≤ cspMaxSrc) (hp : Ends p)
    (hend : skipBlanks p = [] ∨ (skipBlanks p).head? = some 59) :
    cspSources src (skipBlanks (l.flatMap sourceText ++ p)) =
      ((src ++ l.map fun s => s.2.text).take cspMaxSrc, skipBlanks p) := by
  induction l generalizing src with
  | nil =>
    rw [List.flatMap_nil, List.nil_append, cspSources_end hend, List.map_nil, List.append_nil,
      List.take_of_length_le hsrc]
  | cons s l ih =>
    rw [List.forall_mem_cons] at hl
    have hword := s.2.word
    rw [List.flatMap_cons, sourceText, List.append_assoc, List.append_assoc, skipBlanks_replicate,
      skipBlanks_word hword s.2.text_ne, cspSources_token hword s.2.text_ne hl.1 (ends_sources hp)]
    split_ifs with hroom
    · have hroom' : (src ++ [s.2.text]).length ≤ cspMaxSrc := by
        rw [List.length_append, List.length_singleton]
        exact hroom
      rw [ih hl.2 hroom', List.append_assoc, List.singleton_append, List.map_cons]
    · have hfull : cspMaxSrc = src.length := Nat.le_antisymm (Nat.le_of_not_lt hroom) hsrc
      rw [ih hl.2 hsrc, hfull, List.take_left, List.take_left]

/-- What stands in front of a break is read as if nothing stood behind it. -/
theorem cspSources_append {src : List Bytes} {p : Bytes} (t : Bytes) (ht : 59 ∉ t) (hp : Ends p)
    (hend : skipBlanks p = [] ∨ (skipBlanks p).head? = some 59) :
    cspSources src (skipBlanks (t ++ p)) =
      ((cspSources src (skipBlanks t)).1, skipBlanks p) := by
  induction hlength : t.length using Nat.strong_induction_on generalizing t src with
  | _ n ih =>
    subst hlength
    have hshort := length_skipBlanks_le t
    have hnone : 59 ∉ skipBlanks t := fun h => ht ((List.dropWhile_sublist _).mem h)
    have hskip : skipBlanks (t ++ p) =
        if skipBlanks t = [] then skipBlanks p else skipBlanks t ++ p := by
      unfold skipBlanks
      rw [List.dropWhile_append]
      simp only [List.isEmpty_iff]
    cases htext : skipBlanks t with
    | nil => rw [hskip, if_pos htext, cspSources_end hend, cspSources_end (Or.inl rfl)]
    | cons b u =>
      have hb : isCspWord b = true := by
        have hblank := List.head?_dropWhile_not (· == 32) t
        rw [show t.dropWhile (· == 32) = b :: u from htext] at hblank
        have hne : b ≠ 59 := fun h => hnone (by rw [htext, h]; exact List.mem_cons_self)
        simpa [isCspWord, hne] using hblank
      rw [htext] at hshort hnone hskip
      rw [hskip, if_neg (List.cons_ne_nil b u), List.cons_append, cspSources_turn hb,
        cspSources_turn hb, ← List.cons_append, cspToken_ends hp]
      have hprefix : cspToken 128 (b :: u) <+: b :: u :=
        (List.take_prefix _ _).trans (List.takeWhile_prefix _)
      have htoken : cspToken 128 (b :: u) ≠ [] := by
        rw [cspToken, List.takeWhile_cons_of_pos hb]
        exact List.cons_ne_nil _ _
      have hpos := List.length_pos_of_ne_nil htoken
      have hless : ((b :: u).drop (cspToken 128 (b :: u)).length).length < t.length := by
        rw [List.length_drop]
        have := hprefix.length_le
        omega
      rw [List.drop_append_of_le_length hprefix.length_le]
      exact ih _ hless _ (fun h => hnone ((List.drop_sublist _ _).mem h)) rfl

/-! ## Reading a policy -/

/-- Breaks in front do not count. -/
theorem cspDirs_skip (room : Nat) (p : Bytes) :
    cspDirs room p = cspDirs room (p.dropWhile isCspBreak) := by
  cases room with
  | zero => rfl
  | succ room =>
    have hnone : cspDirs (room + 1) [] = [] := rfl
    rcases eq_or_ne p [] with rfl | hp
    · rfl
    · rcases eq_or_ne (p.dropWhile isCspBreak) [] with hskip | hskip
      · rw [hskip, hnone, cspDirs, if_neg hp, hskip]
        exact if_pos rfl
      · rw [cspDirs, cspDirs, if_neg hp, if_neg hskip, List.dropWhile_idempotent]

theorem dropWhile_skipSemicolon (p : Bytes) :
    (skipSemicolon (skipBlanks p)).dropWhile isCspBreak = p.dropWhile isCspBreak := by
  induction p with
  | nil => rfl
  | cons b p ih =>
    rcases eq_or_ne b 32 with rfl | hblank
    · exact ih
    · have hskip : skipBlanks (b :: p) = b :: p :=
        List.dropWhile_cons_of_neg (by simpa using hblank)
      rw [hskip, skipSemicolon]
      split_ifs with hsemicolon
      · obtain rfl := Option.some.inj hsemicolon
        rfl
      · rfl

/-- Breaks end a token. -/
theorem ends_breaks {s p : Bytes} (hs : ∀ b ∈ s, isCspBreak b = true) (hp : s = [] → Ends p) :
    Ends (s ++ p) := by
  cases s with
  | nil => exact hp rfl
  | cons b s =>
    intro c hc
    obtain rfl := Option.some.inj hc
    have hb := hs b List.mem_cons_self
    rw [isCspBreak_eq_not] at hb
    simpa using hb

theorem skipBlanks_breaks {s : Bytes} (hs : ∀ b ∈ s, isCspBreak b = true) (p : Bytes)
    (hp : 59 ∈ s ∨ p = []) : skipBlanks (s ++ p) = [] ∨ (skipBlanks (s ++ p)).head? = some 59 := by
  induction s with
  | nil => exact hp.elim (fun h => absurd h List.not_mem_nil) fun h => Or.inl (by rw [h]; rfl)
  | cons b s ih =>
    rw [List.forall_mem_cons] at hs
    rcases eq_or_ne b 32 with rfl | hblank
    · exact ih hs.2 (hp.imp_left fun h => (List.mem_cons.1 h).resolve_left (by decide))
    · obtain rfl : b = 59 := by simpa [isCspBreak, hblank] using hs.1
      exact Or.inr rfl

/-- Behind a directive. -/
theorem ends_directives {ds : List CspDirective} {tail : Bytes}
    (htail : ∀ b ∈ tail, isCspBreak b = true) (hds : ∀ d ∈ ds, 59 ∈ d.lead) :
    Ends (directivesText ds tail) ∧ (skipBlanks (directivesText ds tail) = [] ∨
      (skipBlanks (directivesText ds tail)).head? = some 59) := by
  cases ds with
  | nil =>
    have hnil : directivesText [] tail = tail ++ [] := (List.append_nil tail).symm
    rw [hnil]
    exact ⟨ends_breaks htail fun _ => nofun, skipBlanks_breaks htail [] (Or.inr rfl)⟩
  | cons d ds =>
    have hlead := hds d List.mem_cons_self
    have hcons : directivesText (d :: ds) tail = d.lead ++ (d.text ++ directivesText ds tail) := by
      rw [directivesText, List.flatMap_cons, List.append_assoc, List.append_assoc, directivesText]
    rw [hcons]
    exact ⟨ends_breaks d.lead_break fun h => absurd hlead (by rw [h]; exact List.not_mem_nil),
      skipBlanks_breaks d.lead_break _ (Or.inl hlead)⟩

/-- No semicolon stands within a directive. -/
theorem CspDirective.semicolon_notMem (d : CspDirective) :
    59 ∉ d.name.drop 23 ++ d.spacedSources.flatMap sourceText := by
  have hword : isCspWord 59 = false := rfl
  intro h
  rcases List.mem_append.1 h with h | h
  · exact absurd (d.name_word 59 (List.mem_of_mem_drop h)) (by rw [hword]; exact Bool.false_ne_true)
  · obtain ⟨s, -, hs⟩ := List.mem_flatMap.1 h
    rcases List.mem_append.1 hs with hs | hs
    · exact absurd (List.eq_of_mem_replicate hs) (by decide)
    · exact absurd (s.2.word 59 hs) (by rw [hword]; exact Bool.false_ne_true)

/-- The directives are read, as far as there is room for them. -/
theorem cspDirs_text (room : Nat) {ds : List CspDirective} {tail : Bytes}
    (htail : ∀ b ∈ tail, isCspBreak b = true) (hds : ∀ d ∈ ds.tail, 59 ∈ d.lead) :
    cspDirs room (directivesText ds tail) = (ds.take room).map CspDirective.kept := by
  induction ds generalizing room with
  | nil =>
    have hnone : tail.dropWhile isCspBreak = [] := List.dropWhile_eq_nil_iff.2 htail
    rw [cspDirs_skip, directivesText, List.flatMap_nil, List.nil_append, hnone, List.take_nil]
    cases room <;> rfl
  | cons d ds ih =>
    cases room with
    | zero => rfl
    | succ room =>
      change ∀ d ∈ ds, 59 ∈ d.lead at hds
      obtain ⟨hends, hend⟩ := ends_directives htail hds
      have hmore := ih room fun d hd => hds d (List.mem_of_mem_tail hd)
      have hcons : directivesText (d :: ds) tail =
          d.lead ++ (d.name ++ (d.spacedSources.flatMap sourceText ++ directivesText ds tail)) := by
        simp only [directivesText, List.flatMap_cons, CspDirective.text, List.append_assoc]
      have hstart : (d.name ++ (d.spacedSources.flatMap sourceText ++
          directivesText ds tail)).dropWhile isCspBreak =
          d.name ++ (d.spacedSources.flatMap sourceText ++ directivesText ds tail) := by
        obtain ⟨b, name, hname⟩ := List.exists_cons_of_ne_nil d.name_ne
        have hb := d.name_word b (by rw [hname]; exact List.mem_cons_self)
        rw [hname]
        exact List.dropWhile_cons_of_neg (by rw [isCspBreak_eq_not, hb]; exact Bool.false_ne_true)
      have hname : cspToken 24 (d.name ++ (d.spacedSources.flatMap sourceText ++
          directivesText ds tail)) = d.name.take 23 := by
        rw [cspToken_ends (ends_sources hends), cspToken_word d.name_word]
      have hne : d.name.take 23 ≠ [] := by simpa using d.name_ne
      have hbehind : (d.name ++ (d.spacedSources.flatMap sourceText ++
          directivesText ds tail)).drop (d.name.take 23).length =
          d.name.drop 23 ++ d.spacedSources.flatMap sourceText ++ directivesText ds tail := by
        rw [List.length_take, List.append_assoc]
        rcases Nat.le_total 23 d.name.length with hlong | hshort
        · rw [Nat.min_eq_left hlong, List.drop_append_of_le_length hlong]
        · rw [Nat.min_eq_right hshort, List.drop_left, List.drop_of_length_le hshort,
            List.nil_append]
      rw [hcons, cspDirs_skip, List.dropWhile_append_of_pos d.lead_break, hstart, cspDirs]
      dsimp only
      rw [if_neg fun h => d.name_ne (List.append_eq_nil_iff.1 h).1, hstart, hname, if_neg hne,
        hbehind, cspSources_append _ d.semicolon_notMem hends hend, cspDirs_skip,
        dropWhile_skipSemicolon, ← cspDirs_skip, hmore, List.take_succ_cons, List.map_cons,
        CspDirective.kept]

/-- What `mini_csp_set` keeps of a policy. -/
theorem miniCspSet_text (P : CspPolicy) :
    miniCspSet P.text = (P.directives.take cspMaxDirs).map CspDirective.kept :=
  cspDirs_text _ P.tail_break P.separated

/-- Of a directive that fits, the name and the first sixteen sources. -/
theorem CspDirective.kept_of_fits {d : CspDirective} (hfit : d.Fits) :
    d.kept = { name := d.name, src := (d.sources.map CspSource.text).take cspMaxSrc } := by
  have hnone : ([] : List Bytes).length ≤ cspMaxSrc := Nat.zero_le _
  have hends : Ends ([] : Bytes) := fun b hb => absurd hb (Option.not_mem_none b)
  have hsources := cspSources_text d.spacedSources
    (fun s hs => hfit.2 _ (List.mem_map_of_mem hs)) hnone hends (Or.inl rfl)
  rw [List.append_nil, List.nil_append] at hsources
  rw [CspDirective.kept, List.take_of_length_le hfit.1, List.drop_eq_nil_of_le hfit.1,
    List.nil_append, hsources, CspDirective.sources, List.map_map]
  rfl

/-! ## The origin of a source -/

theorem OriginSource.urlOrigin_text (s : OriginSource) : urlOrigin s.text = some s.origin := by
  have hscheme : s.text.takeWhile (· ≠ 58) = s.scheme := by
    rw [OriginSource.text, List.append_assoc, List.append_assoc]
    exact takeWhile_colon fun h => (s.scheme_word 58 h).2 rfl
  have hrest : s.text.drop s.scheme.length = ascii "://" ++ (s.host ++ s.portText) := by
    rw [OriginSource.text, List.append_assoc, List.append_assoc, List.drop_left]
  have hauthority : s.text.drop (s.scheme.length + 3) = s.host ++ s.portText := by
    rw [← List.drop_drop, hrest]
    rfl
  have horigin : wholeAuthority s.scheme (s.host ++ s.portText) = s.origin := by
    have hport : s.portText.takeWhile isOriginHost = [] := by
      unfold OriginSource.portText
      cases s.port <;> rfl
    rw [wholeAuthority, List.takeWhile_append_of_pos fun b hb => (s.host_word b hb).2, hport,
      List.append_nil, List.drop_left, OriginSource.origin, OriginSource.portText]
    cases s.port with
    | none => rfl
    | some n =>
      have hdigits : readDigits (decimal n) = n := by
        simpa using readDigits_decimal n [] (by simp)
      simp [hdigits]
  rw [urlOrigin, hscheme, hrest]
  dsimp only
  have hne : s.origin.host ≠ [] := s.host_ne
  rw [if_pos (List.prefix_append _ _), hauthority, horigin, if_neg hne]

/-- The scheme and the host of an origin are those of a source, in any case. -/
def OriginSource.Names (s : OriginSource) (o : UrlOrigin) : Prop :=
  strcasecmp s.scheme o.scheme = true ∧ strcasecmp s.host o.host = true

/-- A colon is no letter. -/
theorem colon_notMem_lower {s : Bytes} (h : 58 ∉ s) : 58 ∉ s.map tolower := by
  intro hmem
  obtain ⟨b, hb, hlower⟩ := List.mem_map.1 hmem
  have hcolon : b = 58 := by
    unfold tolower at hlower
    grind
  exact h (hcolon ▸ hb)

theorem strcasecmp_origin {s t h k : Bytes} (hs : 58 ∉ s) (ht : 58 ∉ t)
    (heq : strcasecmp (s ++ ascii "://" ++ h) (t ++ ascii "://" ++ k) = true) :
    strcasecmp s t = true ∧ strcasecmp h k = true := by
  have hlower : ∀ a b : Bytes, (a ++ ascii "://" ++ b).map tolower =
      a.map tolower ++ 58 :: ([47, 47] ++ b.map tolower) := fun a b => by
    have hslashes : (ascii "://").map tolower = [58, 47, 47] := by decide
    rw [List.map_append, List.map_append, hslashes, List.append_assoc]
    rfl
  rw [strcasecmp, beq_iff_eq, hlower, hlower] at heq
  have hscheme : s.map tolower = t.map tolower := by
    rw [← takeWhile_colon (t := [47, 47] ++ h.map tolower) (colon_notMem_lower hs), heq,
      takeWhile_colon (colon_notMem_lower ht)]
  rw [hscheme] at heq
  have hhost := (List.cons.inj (List.append_cancel_left heq)).2
  exact ⟨beq_iff_eq.2 hscheme, beq_iff_eq.2 (List.append_cancel_left hhost)⟩

/-! ## What is allowed -/

theorem urlOrigin_noColon {url : Bytes} {u : UrlOrigin} (h : urlOrigin url = some u) :
    58 ∉ u.scheme := by
  unfold urlOrigin at h
  dsimp only at h
  split_ifs at h
  obtain rfl := Option.some.inj h
  exact fun hmem => by simpa using List.mem_takeWhile_imp hmem

/-- A source allows what it names. -/
theorem OriginSource.names_of_allows {s : OriginSource} (hlength : s.text.length ≤ 127)
    {url : Bytes} (hparsed : (miniOriginParse url).1 = true)
    (h : cspSourceAllows s.text (miniOriginParse url).2 = true) :
    ∃ u, urlOrigin url = some u ∧ s.Names u := by
  unfold cspSourceAllows at h
  split_ifs at h
  dsimp only at h
  rw [Bool.and_eq_true] at h
  obtain ⟨hsource, hequal⟩ := h
  obtain ⟨u, hu, huscheme, huhost, -⟩ := miniOriginParse_eq hparsed
  obtain ⟨o, ho, hoscheme, hohost, -⟩ := miniOriginParse_eq hsource
  obtain rfl : s.origin = o := Option.some.inj (s.urlOrigin_text.symm.trans ho)
  -- neither of the two texts is cut
  have hslashes : (ascii "://").length = 3 := by decide
  have hhost : s.host.length + 3 + s.scheme.length ≤ 127 := by
    simp only [OriginSource.text, List.length_append] at hlength
    omega
  have hwhole : s.origin.host.take 255 = s.host :=
    List.take_of_length_le (show s.host.length ≤ 255 by omega)
  rw [hoscheme, hohost, hwhole] at hequal
  have hsourceText : (s.scheme ++ ascii "://" ++ s.host).length ≤ 127 := by
    rw [List.length_append, List.length_append]
    omega
  have hurlText : ((miniOriginParse url).2.scheme ++ ascii "://" ++
      (miniOriginParse url).2.host).length ≤ 279 := by
    obtain ⟨hscheme, hlength⟩ := length_miniOriginParse url
    rw [List.length_append, List.length_append]
    omega
  rw [List.take_of_length_le hurlText] at hequal
  have htake : (s.origin.scheme ++ ascii "://" ++ s.host).take 127 =
      s.scheme ++ ascii "://" ++ s.host := List.take_of_length_le hsourceText
  rw [htake, huscheme, huhost] at hequal
  obtain ⟨hscheme, hcut⟩ :=
    strcasecmp_origin (fun h => (s.scheme_word 58 h).2 rfl) (urlOrigin_noColon hu) hequal
  -- as short as that of the source, the host of the URL is not cut either
  have hshort : u.host.length ≤ 255 := by
    have hlengths := congrArg List.length (beq_iff_eq.1 hcut)
    rw [List.length_map, List.length_map, List.length_take] at hlengths
    omega
  rw [List.take_of_length_le hshort] at hcut
  exact ⟨u, hu, hscheme, hcut⟩

theorem cspFlags_none {o : Option MiniOrigin} {src : List Bytes} {f : CspFlags}
    (h : cspFlags o src f = none) : ∃ s ∈ src, s ≠ ascii "'none'" ∧ s ≠ ascii "'self'" ∧
      s ≠ ascii "*" ∧ o.any (cspSourceAllows s) = true := by
  induction src generalizing f with
  | nil => cases h
  | cons s src ih =>
    have hlater : ∀ {g}, cspFlags o src g = none → ∃ t ∈ s :: src, t ≠ ascii "'none'" ∧
        t ≠ ascii "'self'" ∧ t ≠ ascii "*" ∧ o.any (cspSourceAllows t) = true := fun h =>
      (ih h).imp fun t ht => ht.imp_left (List.mem_cons_of_mem s)
    rw [cspFlags] at h
    split_ifs at h with hnone hself hstar hallows
    · exact hlater h
    · exact hlater h
    · exact hlater h
    · exact ⟨s, List.mem_cons_self, hnone, hself, hstar, hallows⟩
    · exact hlater h

/-- A flag is set by its source only. -/
theorem cspFlags_some {o : Option MiniOrigin} {src : List Bytes} {f g : CspFlags}
    (h : cspFlags o src f = some g) :
    (g.hasSelf = true → f.hasSelf = true ∨ ascii "'self'" ∈ src) ∧
      (g.hasStar = true → f.hasStar = true ∨ ascii "*" ∈ src) := by
  induction src generalizing f with
  | nil =>
    obtain rfl := Option.some.inj h
    exact ⟨Or.inl, Or.inl⟩
  | cons s src ih =>
    rw [cspFlags] at h
    split_ifs at h with hnone hself hstar
    · obtain ⟨hgself, hgstar⟩ := ih h
      exact ⟨fun hg => (hgself hg).imp_right (List.mem_cons_of_mem s),
        fun hg => (hgstar hg).imp_right (List.mem_cons_of_mem s)⟩
    · obtain ⟨-, hgstar⟩ := ih h
      exact ⟨fun _ => Or.inr (by rw [hself]; exact List.mem_cons_self),
        fun hg => (hgstar hg).imp_right (List.mem_cons_of_mem s)⟩
    · obtain ⟨hgself, -⟩ := ih h
      exact ⟨fun hg => (hgself hg).imp_right (List.mem_cons_of_mem s),
        fun _ => Or.inr (by rw [hstar]; exact List.mem_cons_self)⟩
    · obtain ⟨hgself, hgstar⟩ := ih h
      exact ⟨fun hg => (hgself hg).imp_right (List.mem_cons_of_mem s),
        fun hg => (hgstar hg).imp_right (List.mem_cons_of_mem s)⟩

/-- The texts of different sources of no origin are different. -/
theorem CspSource.text_eq {s : CspSource} :
    (s.text = ascii "'self'" → s = .self) ∧ (s.text = ascii "*" → s = .star) := by
  cases s with
  | none => exact ⟨fun h => absurd h (by decide), fun h => absurd h (by decide)⟩
  | self => exact ⟨fun _ => rfl, fun h => absurd h (by decide)⟩
  | star => exact ⟨fun h => absurd h (by decide), fun _ => rfl⟩
  | origin s =>
    have hcolon : 58 ∈ (CspSource.origin s).text := s.colon_mem
    constructor
    · intro h
      rw [h] at hcolon
      exact absurd hcolon (by decide)
    · intro h
      rw [h] at hcolon
      exact absurd hcolon (by decide)

/-- Whether a directive is for a URL: a source names its origin, or the URL is of the origin of the
page, as `'self'` says, or it does not matter. -/
def CspDirective.Admits (d : CspDirective) (names : OriginSource → UrlOrigin → Prop)
    (page : Option MiniOrigin) (url : Bytes) : Prop :=
  (∃ s u, .origin s ∈ d.sources ∧ urlOrigin url = some u ∧ names s u) ∨
  (.self ∈ d.sources ∧ ∃ o u, page = some o ∧ urlOrigin url = some u ∧ u.SameOrigin o) ∨
  .star ∈ d.sources

/-- No directive with a name of more than 23 bytes is taken for another one by its beginning. -/
def CspPolicy.Distinct (P : CspPolicy) (name : Bytes) : Prop :=
  ∀ d ∈ P.directives, 23 < d.name.length → strcasecmp (d.name.take 23) name = false

instance (P : CspPolicy) (name : Bytes) : Decidable (P.Distinct name) :=
  inferInstanceAs (Decidable (∀ d ∈ P.directives, _ → _))

theorem strcasecmp_length {s t : Bytes} (h : strcasecmp s t = true) : s.length = t.length := by
  have hlengths := congrArg List.length (beq_iff_eq.1 h)
  rwa [List.length_map, List.length_map] at hlengths

theorem CspPolicy.length_of_find {P : CspPolicy} {name : Bytes} {d : CspDirective}
    (h : P.find name = some d) : d.name.length = name.length := by
  have hsame : strcasecmp d.name name = true := by simpa using List.find?_some h
  exact strcasecmp_length hsame

/-- A name of more than 23 bytes is not found. -/
theorem cspFind_text {P : CspPolicy} {name : Bytes} (hdistinct : P.Distinct name)
    (hshort : ∀ d, P.find name = some d → d.name.length ≤ 23) :
    cspFind (miniCspSet P.text) name = (P.find name).map CspDirective.kept := by
  have hname : ∀ d ∈ P.directives.take cspMaxDirs,
      strcasecmp (d.name.take 23) name = strcasecmp d.name name := by
    intro d hd
    rcases Nat.lt_or_ge 23 d.name.length with hlong | hfits
    · rw [hdistinct d (List.mem_of_mem_take hd) hlong, eq_comm, Bool.eq_false_iff]
      intro hsame
      -- a name as long is found, if not this one
      have hsome : (P.find name).isSome = true := List.find?_isSome.2 ⟨d, hd, hsame⟩
      obtain ⟨e, he⟩ := Option.isSome_iff_exists.1 hsome
      have hlength := strcasecmp_length hsame
      have hfound := CspPolicy.length_of_find he
      have hfits := hshort e he
      omega
    · rw [List.take_of_length_le hfits]
  rw [miniCspSet_text, cspFind, List.find?_map, CspPolicy.find]
  exact congrArg _ (List.find?_congr hname)

theorem CspPolicy.distinct_default (P : CspPolicy) : P.Distinct (ascii "default-src") := by
  intro d _ hlong
  rw [Bool.eq_false_iff]
  intro h
  have hlength := strcasecmp_length h
  rw [List.length_take_of_le (Nat.le_of_lt hlong)] at hlength
  exact absurd hlength (by decide)

/-- The directive that decides is found in the table, if it fits. -/
theorem cspFind_governing {P : CspPolicy} {directive : Bytes} {d : CspDirective}
    (hdistinct : P.Distinct directive) (hd : P.governing directive = some d) (hfit : d.Fits) :
    (cspFind (miniCspSet P.text) directive).or
      (cspFind (miniCspSet P.text) (ascii "default-src")) = some d.kept := by
  have hshort : ∀ e, P.find directive = some e → e.name.length ≤ 23 := fun e he => by
    rw [CspPolicy.governing, he, Option.some_or] at hd
    obtain rfl := Option.some.inj hd
    exact hfit.1
  have hdefault : ∀ e, P.find (ascii "default-src") = some e → e.name.length ≤ 23 := fun e he => by
    rw [CspPolicy.length_of_find he]
    decide
  rw [cspFind_text hdistinct hshort, cspFind_text P.distinct_default hdefault, ← Option.map_or,
    ← CspPolicy.governing, hd, Option.map_some]

/-- Only what the directive that decides is for is allowed, if its texts fit into their buffers. -/
theorem miniCspAllows_admits {P : CspPolicy} {directive url : Bytes} {page : Option MiniOrigin}
    {d : CspDirective} (hurl : ∀ u, urlOrigin url = some u → u.Fits)
    (hdistinct : P.Distinct directive) (hd : P.governing directive = some d) (hfit : d.Fits)
    (hallowed : miniCspAllows (miniCspSet P.text) directive page url = true) :
    d.Admits OriginSource.Names page url := by
  have hkept : ∀ {t}, t ∈ d.kept.src → ∃ s ∈ d.sources, s.text = t := fun ht => by
    rw [CspDirective.kept_of_fits hfit] at ht
    exact List.mem_map.1 (List.mem_of_mem_take ht)
  unfold miniCspAllows at hallowed
  rw [cspFind_governing hdistinct hd hfit] at hallowed
  dsimp only at hallowed
  cases hflags : cspFlags (if (miniOriginParse url).1 = true then some (miniOriginParse url).2
    else none) d.kept.src {} with
  | none =>
    obtain ⟨t, ht, hnone, hself, hstar, hallows⟩ := cspFlags_none hflags
    obtain ⟨s, hs, rfl⟩ := hkept ht
    split_ifs at hallows with hparsed
    · cases s with
      | none => exact absurd rfl hnone
      | self => exact absurd rfl hself
      | star => exact absurd rfl hstar
      | origin s =>
        obtain ⟨u, hu, hnames⟩ := OriginSource.names_of_allows (hfit.2 _ hs) hparsed hallows
        exact Or.inl ⟨s, u, hs, hu, hnames⟩
    · cases hallows
  | some f =>
    obtain ⟨hself, hstar⟩ := cspFlags_some hflags
    rw [hflags] at hallowed
    dsimp only at hallowed
    split_ifs at hallowed with hnone hf hf hparsed
    · obtain ⟨s, hs, htext⟩ := hkept ((hstar hf).resolve_left Bool.false_ne_true)
      exact Or.inr (Or.inr (CspSource.text_eq.2 htext ▸ hs))
    · obtain ⟨s, hs, htext⟩ := hkept ((hself hf).resolve_left Bool.false_ne_true)
      obtain ⟨o, rfl, hsame⟩ := (Option.any_eq_true _ _).1 hallowed
      obtain ⟨u, hu, hscheme, hhost, hport⟩ := miniOriginParse_eq hparsed
      obtain ⟨hlength, hint⟩ := hurl u hu
      rw [Option.any_some, miniOriginSame, hscheme, hhost, List.take_of_length_le hlength,
        hport hlength, Bool.and_eq_true, Bool.and_eq_true, beq_iff_eq, beq_iff_eq] at hsame
      obtain ⟨⟨hsscheme, hshost⟩, hsport⟩ := hsame
      exact Or.inr (Or.inl ⟨CspSource.text_eq.1 htext ▸ hs, o, u, rfl, hu, hsscheme, hshost,
        by rw [hsport, Int32.toInt_ofNat_of_lt hint]⟩)
    · cases page <;> cases hallowed

/-! ## What the tables leave out -/

/-- The port counts as well. -/
def OriginSource.NamesServer (s : OriginSource) (o : UrlOrigin) : Prop :=
  s.Names o ∧ s.origin.port = o.port

/-- `https://a.example:8443` -/
def portSource : OriginSource where
  scheme := ascii "https"
  host := ascii "a.example"
  port := some 8443
  scheme_word := forall_mem_ascii (by decide)
  host_word := forall_mem_ascii (by decide)
  host_ne := by decide

/-- A directive with one source. -/
def scriptDirective (lead : Bytes) (lead_break : ∀ b ∈ lead, isCspBreak b = true) (s : CspSource) :
    CspDirective where
  lead := lead
  name := ascii "script-src"
  spacedSources := [(0, s)]
  lead_break := lead_break
  name_word := forall_mem_ascii (by decide)
  name_ne := by decide

/-- A directive without sources, named by a letter. -/
def letterDirective (b : UInt8) (hb : isCspWord b = true) : CspDirective where
  lead := [59]
  name := [b]
  spacedSources := []
  lead_break := by decide +kernel
  name_word := by simpa using hb
  name_ne := List.cons_ne_nil _ _

/-- `upgrade-insecure-requests`, whose name does not fit. -/
def upgradeDirective : CspDirective where
  lead := []
  name := ascii "upgrade-insecure-requests"
  spacedSources := []
  lead_break := by simp
  name_word := forall_mem_ascii (by decide)
  name_ne := by decide

/-- `upgrade-insecure-requests; script-src https://a.example:8443` -/
def portPolicy : CspPolicy where
  directives := [upgradeDirective, scriptDirective [59, 32] (by decide +kernel) (.origin portSource)]
  tail := []
  tail_break := by decide +kernel
  separated := by decide

/-- `;a;b;c;d;e;f;g;h; script-src 'none'` -/
def ninthPolicy : CspPolicy where
  directives :=
    [letterDirective 97 rfl, letterDirective 98 rfl, letterDirective 99 rfl, letterDirective 100 rfl,
      letterDirective 101 rfl, letterDirective 102 rfl, letterDirective 103 rfl,
      letterDirective 104 rfl, scriptDirective [59, 32] (by decide +kernel) .none]
  tail := []
  tail_break := by decide +kernel
  separated := by decide

theorem miniCspAllows_admits_port :
    (scriptDirective [59, 32] (by decide +kernel) (.origin portSource)).Admits OriginSource.Names none
      (ascii "https://A.example:8443/x.js") := by
  have hallowed : miniCspAllows (miniCspSet portPolicy.text) (ascii "Script-Src") none
      (ascii "https://A.example:8443/x.js") = true := by decide +kernel
  have horigin : urlOrigin (ascii "https://A.example:8443/x.js") =
      some ⟨ascii "https", ascii "A.example", 8443⟩ := by decide
  refine miniCspAllows_admits (fun u hu => ?_) (by decide +kernel) rfl (by decide +kernel) hallowed
  obtain rfl := Option.some.inj (horigin.symm.trans hu)
  decide

/-- A port is not compared, and what is written in the ninth directive does not count. -/
theorem port_and_ninth_not_kept :
    (∃ d ∈ portPolicy.directives, strcasecmp d.name (ascii "script-src") = true ∧
      miniCspAllows (miniCspSet portPolicy.text) (ascii "script-src") none
        (ascii "https://a.example/x.js") = true ∧
      ¬ d.Admits OriginSource.NamesServer none (ascii "https://a.example/x.js")) ∧
    ∃ d ∈ ninthPolicy.directives, strcasecmp d.name (ascii "script-src") = true ∧
      miniCspAllows (miniCspSet ninthPolicy.text) (ascii "script-src") none
        (ascii "https://a.example/x.js") = true ∧
      ¬ d.Admits OriginSource.NamesServer none (ascii "https://a.example/x.js") := by
  constructor
  · refine ⟨_, List.mem_cons_of_mem _ List.mem_cons_self, by decide +kernel, by decide +kernel, ?_⟩
    rintro (⟨s, u, hs, hu, hnames, hport⟩ | ⟨hself, -⟩ | hstar)
    · obtain rfl : s = portSource := CspSource.origin.inj (List.mem_singleton.1 hs)
      have horigin : urlOrigin (ascii "https://a.example/x.js") =
          some ⟨ascii "https", ascii "a.example", 443⟩ := by decide
      obtain rfl := Option.some.inj (horigin.symm.trans hu)
      exact absurd hport (by decide)
    · cases List.mem_singleton.1 hself
    · cases List.mem_singleton.1 hstar
  · refine ⟨scriptDirective [59, 32] (by decide +kernel) .none, by decide +kernel,
      by decide +kernel, by decide +kernel, ?_⟩
    rintro (⟨s, u, hs, -⟩ | ⟨hself, -⟩ | hstar)
    · cases List.mem_singleton.1 hs
    · cases List.mem_singleton.1 hself
    · cases List.mem_singleton.1 hstar

end TinyFramework.Net
