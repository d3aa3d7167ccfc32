/-
  Cdp/RequestRead.lean --- requests of the inspector.

  The readers look for a key in quotes anywhere in the text, go on to the next colon, and read
  what stands there.  What they have to read is a member of the request's object or of its
  `params`.

  Where the first place of the key leads to the member's colon the readers stand before its
  value, and there they read a string without code units, an integer, or a truth value as they
  are meant to.
-/
import TinyFramework.Foundation.Encodings
import TinyFramework.Foundation.JsonText

set_option autoImplicit false

namespace TinyFramework.Cdp

open TinyFramework.Foundation

/-! ## The source -/

/-- `strstr(j, needle)` -/
def strstr (needle : Bytes) : Bytes → Option Bytes
  | [] => if needle = [] then some [] else none
  | c :: s => if needle <+: c :: s then some (c :: s) else strstr needle s

/-- `snprintf(needle, sizeof needle, "\"%s\"", key)` -/
def keyNeedle (key : Bytes) : Bytes := (34 :: (key ++ [34])).take 63

/-- `snprintf(needle, sizeof needle, "\"%s\":", key)` -/
def colonNeedle (key : Bytes) : Bytes := (34 :: (key ++ [34, 58])).take 63

/-- What follows the next colon and the white space behind it. -/
def pastColon (p : Bytes) : Option Bytes :=
  match p.dropWhile (· ≠ 58) with
  | [] => none
  | _ :: p => some (p.dropWhile isspace)

/-- `strtol(p, NULL, 10)`, of 64 bits. -/
def strtol (p : Bytes) : Int :=
  let n := atoi p
  if n < -9223372036854775808 then -9223372036854775808
  else if 9223372036854775807 < n then 9223372036854775807
  else n

/-- `cdp_jint` -/
def cdpJint (j key : Bytes) : Int :=
  match strstr (keyNeedle key) j with
  | none => -1
  | some p =>
      match pastColon (p.drop (keyNeedle key).length) with
      | none => -1
      | some p => strtol p

/-- The byte for an escape; `\u` gives its letter. -/
def unescaped (c : UInt8) : UInt8 :=
  if c = 110 then 10
  else if c = 114 then 13
  else if c = 116 then 9
  else if c = 98 then 8
  else if c = 102 then 12
  else c

/-- The loop of `cdp_jstr`, with the room that is left in `out`. -/
def copyString : Nat → Bytes → Bytes
  | 0, _ => []
  | _ + 1, [] => []
  | room + 1, c :: p =>
      if c = 34 then []
      else
        match p with
        | [] => [c]
        | e :: rest =>
            if c = 92 then unescaped e :: copyString room rest else c :: copyString room (e :: rest)

/-- `cdp_jstr`: what it leaves in `out`, or nothing when it returns -1. -/
def cdpJstr (j key : Bytes) (cap : Nat) : Option Bytes :=
  match strstr (keyNeedle key) j with
  | none => none
  | some p =>
      match pastColon (p.drop (key.length + 2)) with
      | none => none
      | some p => if p.head? = some 34 then some (copyString (cap - 1) p.tail) else none

/-- `cdp_jbool` -/
def cdpJbool (j key : Bytes) : Int :=
  match strstr (colonNeedle key) j with
  | none => -1
  | some p =>
      let p := (p.drop (colonNeedle key).length).dropWhile isspace
      if ascii "true" <+: p then 1 else if ascii "false" <+: p then 0 else -1

/-- The prefixes of the domains in the order of `mini_cdp_dispatch`. -/
def domainPrefixes : List Bytes :=
  ["Runtime.", "Debugger.", "DOM.", "CSS.", "Overlay.", "Page.", "Network.", "DOMDebugger.",
    "Tracing.", "Log.", "Target.", "Performance.", "Emulation.", "Storage.", "Input.",
    "HeapProfiler.", "Profiler.", "SystemInfo.", "Security."].map ascii

/-- A call of a domain. -/
structure CdpCall where
  id : Int
  method : Option Bytes
  domain : Option (Bytes × Bytes)
  deriving DecidableEq, Repr

/-- `mini_cdp_dispatch`: the id and the method, and the domain that gets the rest of it. -/
def miniCdpDispatch (msg : Bytes) : CdpCall :=
  let method := cdpJstr msg (ascii "method") 128
  { id := cdpJint msg (ascii "id")
    method := method
    domain := method.bind fun m =>
      (domainPrefixes.find? fun d => d.isPrefixOf m).map fun d => (d, m.drop d.length) }

/-! ## What a request says -/

/-- A request: an object, with white space around it. -/
structure CdpRequest where
  before : JsonSpace := {}
  space : JsonSpace := {}
  members : List (JsonMember JsonText)
  after : JsonSpace := {}

def CdpRequest.text (req : CdpRequest) : Bytes :=
  req.before.text ++ ((JsonText.obj req.space req.members).text ++ req.after.text)

/-- A member of the request's object, with the text before its colon and behind its value. -/
def TopAt (req : CdpRequest) (key : Bytes) (m : JsonMember JsonText) (pre post : Bytes) : Prop :=
  ∃ pre' post', MemberAt req.members key m pre' post' ∧
    pre = req.before.text ++ 123 :: pre' ∧ post = post' ++ 125 :: req.after.text

/-- A member of the object `params`, with the text before its colon and behind its value. -/
def ParamAt (req : CdpRequest) (key : Bytes) (m : JsonMember JsonText) (pre post : Bytes) : Prop :=
  ∃ params space members, (params.value = .obj space members) ∧
    ∃ preP postP pre' post', TopAt req (ascii "params") params preP postP ∧
      MemberAt members key m pre' post' ∧
      pre = preP ++ 58 :: (params.afterColon.text ++ 123 :: pre') ∧ post = post' ++ 125 :: postP

/-- The reader for a value gives the value, a string where it fits with its terminator. -/
def ReadsValue (text key : Bytes) : JsonText → Prop
  | .str s => ∀ cap, (decodeString s).length < cap → cdpJstr text key cap = some (decodeString s)
  | .num n => (cdpJint text key : ℚ) = n.value
  | .bool b => cdpJbool text key = if b then 1 else 0
  | _ => True

/-- The id and the method are those of the request's object. -/
def TakesTop (req : CdpRequest) (key : Bytes) : JsonText → Prop
  | .num n => key = ascii "id" → ((miniCdpDispatch req.text).id : ℚ) = n.value
  | .str s => key = ascii "method" → (decodeString s).length < 128 →
      (miniCdpDispatch req.text).method = some (decodeString s)
  | _ => True

/-! ## Where the readers keep to it -/

/-- The first colon behind the first place of the key in quotes is the one behind `pre`. -/
def FirstColon (text key pre : Bytes) : Prop :=
  ∃ a b, pre = a ++ (keyNeedle key ++ b) ∧ 58 ∉ b ∧
    ∀ a' s, text = a' ++ (keyNeedle key ++ s) → a.length ≤ a'.length

/-- The first place of the key in quotes with a colon is at the end of `pre`. -/
def FirstName (text key pre : Bytes) : Prop :=
  ∃ a, pre ++ [58] = a ++ colonNeedle key ∧
    ∀ a' s, text = a' ++ (colonNeedle key ++ s) → a.length ≤ a'.length

def isUnit : JsonChar → Bool
  | .unit _ _ _ _ => true
  | _ => false

/-- No code unit is written in hexadecimal. -/
def NoUnits (s : JsonString) : Prop := ∀ c ∈ s, isUnit c = false

/-- What a reader has to meet for a value behind `pre`. -/
def SafeRead (text key pre : Bytes) : JsonText → Prop
  | .str s => (FirstColon text key pre ∧ key.length ≤ 61) ∧ NoUnits s
  | .num n => FirstColon text key pre ∧ n.value = n.integral ∧
      -9223372036854775808 ≤ n.integral ∧ n.integral ≤ 9223372036854775807
  | .bool _ => FirstName text key pre
  | _ => True

/-! ## The way to the value -/

theorem strstr_first {needle s : Bytes} (a text : Bytes) (htext : text = a ++ (needle ++ s))
    (hfirst : ∀ a' s', text = a' ++ (needle ++ s') → a.length ≤ a'.length) :
    strstr needle text = some (needle ++ s) := by
  induction a generalizing text with
  | nil =>
      rw [List.nil_append] at htext
      cases text with
      | nil =>
          obtain ⟨hneedle, hs⟩ := List.append_eq_nil_iff.1 htext.symm
          rw [hneedle, hs]
          rfl
      | cons c text =>
          rw [strstr, if_pos ⟨s, htext.symm⟩, htext]
  | cons x a ih =>
      cases text with
      | nil => cases htext
      | cons c text =>
          have hlater : ¬ needle <+: c :: text := by
            rintro ⟨s', hs'⟩
            have hle := hfirst [] s' hs'.symm
            exact absurd hle (Nat.not_succ_le_zero _)
          rw [strstr, if_neg hlater]
          apply ih text (List.cons.inj htext).2
          intro a' s' heq
          have hle := hfirst (c :: a') s' (by rw [heq, List.cons_append])
          exact Nat.le_of_succ_le_succ hle

theorem isspace_of_isJsonSpace {b : UInt8} (hb : isJsonSpace b = true) : isspace b = true := by
  unfold isJsonSpace at hb
  simp only [Bool.or_eq_true, beq_iff_eq] at hb
  rcases hb with ((rfl | rfl) | rfl) | rfl <;> rfl

theorem dropWhile_space (space : JsonSpace) {p : Bytes}
    (hp : ∀ b ∈ p.head?, isspace b = false) :
    (space.text ++ p).dropWhile isspace = p := by
  have hblank : ∀ b ∈ space.text, isspace b = true :=
    fun b hb => isspace_of_isJsonSpace (space.blank b hb)
  rw [List.dropWhile_append_of_pos hblank]
  cases p with
  | nil => rfl
  | cons b p => rw [List.dropWhile_cons_of_neg (by rw [hp b rfl]; exact Bool.false_ne_true)]

theorem pastColon_append {b : Bytes} (hb : 58 ∉ b) (p : Bytes) :
    pastColon (b ++ 58 :: p) = some (p.dropWhile isspace) := by
  have hskip : ∀ x ∈ b, decide (x ≠ 58) = true := by
    intro x hx
    exact decide_eq_true (ne_of_mem_of_not_mem hx hb)
  rw [pastColon, List.dropWhile_append_of_pos hskip]
  rfl

/-- From the first place of the key to the value. -/
theorem FirstColon.leads {text key pre p : Bytes} {space : JsonSpace}
    (hfirst : FirstColon text key pre) (htext : text = pre ++ 58 :: (space.text ++ p))
    (hp : ∀ b ∈ p.head?, isspace b = false) :
    ∃ rest, strstr (keyNeedle key) text = some (keyNeedle key ++ rest) ∧
      pastColon rest = some p := by
  obtain ⟨a, b, hpre, hcolon, hmin⟩ := hfirst
  refine ⟨b ++ 58 :: (space.text ++ p), ?_, ?_⟩
  · apply strstr_first a text ?_ hmin
    rw [htext, hpre]
    simp
  · rw [pastColon_append hcolon, dropWhile_space space hp]

/-! ## Strings -/

theorem copyString_plain (room : Nat) {c : UInt8} (p : Bytes) (hquote : c ≠ 34)
    (hback : c ≠ 92) : copyString (room + 1) (c :: p) = c :: copyString room p := by
  cases p with
  | nil =>
      refine (if_neg hquote).trans ?_
      cases room <;> rfl
  | cons e rest => exact (if_neg hquote).trans (if_neg hback)

theorem copyString_escape (room : Nat) (e : UInt8) (p : Bytes) :
    copyString (room + 1) (92 :: e :: p) = unescaped e :: copyString room p := rfl

theorem copyString_quote (room : Nat) (p : Bytes) : copyString room (34 :: p) = [] := by
  cases room <;> rfl

theorem copyString_block {bs : Bytes} {room : Nat} (p : Bytes)
    (hbs : ∀ b ∈ bs, b ≠ 34 ∧ b ≠ 92) (hroom : bs.length ≤ room) :
    copyString room (bs ++ p) = bs ++ copyString (room - bs.length) p := by
  induction bs generalizing room with
  | nil => rfl
  | cons b bs ih =>
      cases room with
      | zero => exact absurd hroom (Nat.not_succ_le_zero _)
      | succ room =>
          obtain ⟨hquote, hback⟩ := hbs b List.mem_cons_self
          rw [List.cons_append, copyString_plain room _ hquote hback,
            ih (fun x hx => hbs x (List.mem_cons_of_mem _ hx)) (Nat.le_of_succ_le_succ hroom),
            List.length_cons, Nat.succ_sub_succ, List.cons_append]

theorem plainChar_bytes (c : PlainChar) :
    ∀ b ∈ String.utf8EncodeChar c.char, b ≠ 34 ∧ b ≠ 92 := by
  have hbig : ∀ b : UInt8, 128 ≤ b.toNat → b ≠ 34 ∧ b ≠ 92 := by
    intro b hb
    constructor
    · rintro rfl
      exact absurd hb (by decide)
    · rintro rfl
      exact absurd hb (by decide)
  intro b hb
  rcases utf8EncodeChar_cases c.char with ⟨hsmall, heq⟩ | ⟨_, b', bs, heq, _, hb', hbs⟩
  · rw [heq, List.mem_singleton] at hb
    obtain ⟨hquote, hback, _⟩ := c.plain
    have hnat : b.toNat = c.char.toNat := by
      rw [hb, toNat_ofNat_lt (by omega)]
    constructor
    · rintro rfl
      exact hquote (Char.toNat_inj.1 hnat.symm)
    · rintro rfl
      exact hback (Char.toNat_inj.1 hnat.symm)
  · rw [heq] at hb
    rcases List.mem_cons.1 hb with rfl | hb
    · exact hbig b (by omega)
    · exact hbig b (hbs b hb).1

theorem unescaped_letter (e : JsonEscape) : unescaped e.letter = e.value := by
  cases e <;> rfl

theorem copyString_text {s : JsonString} (hunits : NoUnits s) (rest : Bytes) {room : Nat}
    (hroom : (decodeString s).length ≤ room) :
    copyString room (s.flatMap JsonChar.text ++ 34 :: rest) = decodeString s := by
  induction s generalizing room with
  | nil => exact copyString_quote room rest
  | cons c s ih =>
      have htail : NoUnits s := fun x hx => hunits x (List.mem_cons_of_mem _ hx)
      rw [List.flatMap_cons, List.append_assoc]
      cases c with
      | plain c =>
          rw [decodeString, List.length_append] at hroom
          rw [JsonChar.text, copyString_block _ (plainChar_bytes c) (by omega), decodeString,
            ih htail (by omega)]
      | escape e =>
          rw [decodeString, List.length_cons] at hroom
          cases room with
          | zero => exact absurd hroom (Nat.not_succ_le_zero _)
          | succ room =>
              rw [JsonChar.text, decodeString, ← ih htail (Nat.le_of_succ_le_succ hroom),
                ← unescaped_letter e]
              exact copyString_escape room e.letter _
      | unit a b c d => cases hunits _ List.mem_cons_self

/-! ## Numbers -/

/-- A byte that is neither a digit nor part of a fraction or an exponent ends a number. -/
theorem atoi_number (n : JsonNumber) {post : Bytes} (hpost : ∀ b ∈ post.head?, isDecimal b = false) :
    atoi (n.text ++ post) = n.integral := by
  have htail : ∀ b ∈ ((n.frac.elim [] fun f => 46 :: f.text) ++
      (n.exponent.elim [] JsonExponent.text ++ post)).head?, isDecimal b = false := by
    cases n.frac with
    | some f =>
        intro b hb
        cases hb
        rfl
    | none =>
        cases n.exponent with
        | none => exact hpost
        | some e =>
            intro b hb
            cases hb
            cases e.upper <;> rfl
  have hdigits := atoi_decimal n.int _ htail
  have hread := readDigits_decimal n.int _ htail
  unfold JsonNumber.text JsonNumber.integral
  cases n.negative with
  | false =>
      rw [if_neg Bool.false_ne_true, if_neg Bool.false_ne_true, List.nil_append,
        List.append_assoc, List.append_assoc, hdigits]
  | true =>
      rw [if_pos rfl, if_pos rfl, List.append_assoc, List.append_assoc, List.append_assoc]
      exact congrArg (fun k : Nat => -(k : Int)) hread

theorem strtol_eq {p : Bytes} (hlow : -9223372036854775808 ≤ atoi p)
    (hhigh : atoi p ≤ 9223372036854775807) : strtol p = atoi p := by
  unfold strtol
  dsimp only
  rw [if_neg (Int.not_lt.2 hlow), if_neg (Int.not_lt.2 hhigh)]

/-! ## Values -/

section Value

variable {text key pre post : Bytes} {space : JsonSpace}

theorem length_keyNeedle (hkey : key.length ≤ 61) : (keyNeedle key).length = key.length + 2 := by
  unfold keyNeedle
  rw [List.length_take, List.length_cons, List.length_append, List.length_singleton]
  omega

theorem cdpJstr_eq {s : JsonString} {cap : Nat}
    (htext : text = pre ++ 58 :: (space.text ++ (quotedText s ++ post)))
    (hfirst : FirstColon text key pre) (hkey : key.length ≤ 61) (hunits : NoUnits s)
    (hfits : (decodeString s).length < cap) : cdpJstr text key cap = some (decodeString s) := by
  have hquote : ∀ b ∈ (quotedText s ++ post).head?, isspace b = false := by
    intro b hb
    cases hb
    rfl
  obtain ⟨rest, hstrstr, hpast⟩ := hfirst.leads htext hquote
  unfold cdpJstr
  rw [hstrstr]
  dsimp only
  rw [← length_keyNeedle hkey, List.drop_left, hpast]
  refine (if_pos rfl).trans (congrArg some ?_)
  rw [quotedText, List.cons_append, List.tail_cons, List.append_assoc]
  exact copyString_text hunits post (Nat.le_sub_one_of_lt hfits)

theorem number_head (n : JsonNumber) : ∀ b ∈ (n.text ++ post).head?, isspace b = false := by
  have hdigit : ∀ b, isDecimal b = true → isspace b = false := by
    intro b hb
    unfold isDecimal at hb
    rw [Bool.and_eq_true, decide_eq_true_eq, decide_eq_true_eq] at hb
    unfold isspace
    rw [Bool.or_eq_false_iff, Bool.and_eq_false_iff, beq_eq_false_iff_ne]
    refine ⟨?_, .inr (decide_eq_false ?_)⟩
    · rintro rfl
      exact absurd hb.1 (by decide)
    · intro hle
      exact absurd (UInt8.le_trans hb.1 hle) (by decide)
  intro b hb
  unfold JsonNumber.text at hb
  cases hneg : n.negative with
  | true =>
      rw [hneg] at hb
      cases hb
      rfl
  | false =>
      rw [hneg, if_neg Bool.false_ne_true, List.nil_append] at hb
      obtain ⟨d, ds, hds⟩ := List.exists_cons_of_ne_nil (decimal_ne_nil n.int)
      rw [hds] at hb
      cases hb
      apply hdigit
      apply isDecimal_of_mem_decimal (n := n.int)
      rw [hds]
      exact List.mem_cons_self

theorem cdpJint_eq {n : JsonNumber}
    (htext : text = pre ++ 58 :: (space.text ++ (n.text ++ post)))
    (hpost : ∀ b ∈ post.head?, isDecimal b = false) (hfirst : FirstColon text key pre)
    (hlow : -9223372036854775808 ≤ n.integral) (hhigh : n.integral ≤ 9223372036854775807) :
    cdpJint text key = n.integral := by
  obtain ⟨rest, hstrstr, hpast⟩ := hfirst.leads htext (number_head n)
  have hatoi := atoi_number n hpost
  unfold cdpJint
  rw [hstrstr]
  dsimp only
  rw [List.drop_left, hpast]
  dsimp only
  rw [strtol_eq (by rw [hatoi]; exact hlow) (by rw [hatoi]; exact hhigh), hatoi]

theorem cdpJbool_eq {b : Bool}
    (htext : text = pre ++ 58 :: (space.text ++ ((JsonText.bool b).text ++ post)))
    (hfirst : FirstName text key pre) : cdpJbool text key = if b then 1 else 0 := by
  obtain ⟨a, hpre, hmin⟩ := hfirst
  have hstrstr : strstr (colonNeedle key) text =
      some (colonNeedle key ++ (space.text ++ ((JsonText.bool b).text ++ post))) := by
    apply strstr_first a text ?_ hmin
    rw [htext, ← List.append_assoc a, ← hpre]
    simp
  have hletter : ∀ x ∈ ((JsonText.bool b).text ++ post).head?, isspace x = false := by
    intro x hx
    rw [JsonText.text.eq_def] at hx
    cases b with
    | true =>
        cases hx
        rfl
    | false =>
        cases hx
        rfl
  unfold cdpJbool
  rw [hstrstr]
  dsimp only
  rw [List.drop_left, dropWhile_space space hletter, JsonText.text.eq_def]
  cases b with
  | true => exact if_pos (List.prefix_append _ _)
  | false =>
      have hother : ¬ ascii "true" <+: ascii "false" ++ post := by
        rintro ⟨rest, hrest⟩
        exact absurd (List.cons.inj hrest).1 (by decide)
      exact (if_neg hother).trans (if_pos (List.prefix_append _ _))

/-- Where it is safe the reader for a value gives it. -/
theorem readsValue_of_safe {v : JsonText}
    (htext : text = pre ++ 58 :: (space.text ++ (v.text ++ post)))
    (hpost : ∀ b ∈ post.head?, isDecimal b = false) (hsafe : SafeRead text key pre v) :
    ReadsValue text key v := by
  cases v with
  | null => trivial
  | bool b => exact cdpJbool_eq htext hsafe
  | num n =>
      obtain ⟨hfirst, hint, hlow, hhigh⟩ := hsafe
      rw [JsonText.text] at htext
      have hread := cdpJint_eq htext hpost hfirst hlow hhigh
      rw [ReadsValue, hread, hint]
  | str s =>
      obtain ⟨⟨hfirst, hkey⟩, hunits⟩ := hsafe
      rw [JsonText.text] at htext
      exact fun cap hfits => cdpJstr_eq htext hfirst hkey hunits hfits
  | arr space items => trivial
  | obj space members => trivial

end Value

/-! ## Requests -/

/-- What stands behind the last value of an object begins with no digit. -/
theorem memberAt_post_head {members : List (JsonMember JsonText)} {key : Bytes}
    {m : JsonMember JsonText} {pre post : Bytes} (hm : MemberAt members key m pre post)
    (rest : Bytes) : ∀ b ∈ (post ++ 125 :: rest).head?, isDecimal b = false := by
  obtain ⟨_, later, _, _, _, hpost⟩ := hm.split
  have hblank := m.after.blank
  intro b hb
  rw [hpost, List.append_assoc] at hb
  cases hspace : m.after.text with
  | cons x space =>
      rw [hspace] at hb hblank
      cases hb
      have hx := hblank b List.mem_cons_self
      unfold isJsonSpace at hx
      simp only [Bool.or_eq_true, beq_iff_eq] at hx
      rcases hx with ((rfl | rfl) | rfl) | rfl <;> rfl
  | nil =>
      rw [hspace, List.nil_append] at hb
      cases htexts : memberTexts later with
      | nil =>
          rw [htexts] at hb
          cases hb
          rfl
      | cons t texts =>
          rw [htexts] at hb
          cases hb
          rfl

/-- The text around the value of a member of the request's object. -/
theorem TopAt.text {req : CdpRequest} {key : Bytes} {m : JsonMember JsonText} {pre post : Bytes}
    (hm : TopAt req key m pre post) :
    req.text = pre ++ 58 :: (m.afterColon.text ++ (m.value.text ++ post)) ∧
      ∀ b ∈ post.head?, isDecimal b = false := by
  obtain ⟨pre', post', hat, rfl, rfl⟩ := hm
  refine ⟨?_, memberAt_post_head hat req.after.text⟩
  unfold CdpRequest.text
  rw [JsonText.text, hat.bracketed]
  simp

/-- The text around the value of a parameter. -/
theorem ParamAt.text {req : CdpRequest} {key : Bytes} {m : JsonMember JsonText} {pre post : Bytes}
    (hm : ParamAt req key m pre post) :
    req.text = pre ++ 58 :: (m.afterColon.text ++ (m.value.text ++ post)) ∧
      ∀ b ∈ post.head?, isDecimal b = false := by
  obtain ⟨params, space, members, hvalue, preP, postP, pre', post', htop, hat, rfl, rfl⟩ := hm
  refine ⟨?_, memberAt_post_head hat postP⟩
  rw [htop.text.1, hvalue, JsonText.text, hat.bracketed]
  simp

/-- The id and the method are taken from the request's object and a parameter from its
`params`, wherever it is safe to read them. -/
theorem cdpRequest_read (req : CdpRequest) (key : Bytes) (m : JsonMember JsonText)
    (pre post : Bytes) (hsafe : SafeRead req.text key pre m.value) :
    (TopAt req key m pre post → TakesTop req key m.value) ∧
      (ParamAt req key m pre post → ReadsValue req.text key m.value) := by
  constructor
  · intro hm
    have hread := readsValue_of_safe hm.text.1 hm.text.2 hsafe
    cases hvalue : m.value with
    | num n =>
        rw [hvalue] at hread
        rintro rfl
        exact hread
    | str s =>
        rw [hvalue] at hread
        rintro rfl hfits
        exact hread 128 hfits
    | null => trivial
    | bool b => trivial
    | arr space items => trivial
    | obj space members => trivial
  · intro hm
    exact readsValue_of_safe hm.text.1 hm.text.2 hsafe

/-! ## Two requests -/

/-- A string without escapes. -/
def literal (s : String) : JsonString :=
  s.toList.filterMap fun c =>
    if h : c ≠ '"' ∧ c ≠ '\\' ∧ 32 ≤ c.toNat then some (.plain { char := c, plain := h }) else none

theorem first_of_drop {needle a text : Bytes}
    (hfirst : ∀ k < a.length, ¬ needle <+: text.drop k) :
    ∀ a' s, text = a' ++ (needle ++ s) → a.length ≤ a'.length := by
  intro a' s htext
  by_contra hlt
  apply hfirst a'.length (Nat.lt_of_not_le hlt)
  rw [htext, List.drop_left]
  exact List.prefix_append _ _

/-- The expression of a `Runtime.evaluate`. -/
def expressionMember : JsonMember JsonText where
  name := literal "expression"
  value := .str (literal "f(" ++ (.escape .quote :: literal "id") ++ [.escape .quote])

def paramsMember : JsonMember JsonText where
  name := literal "params"
  value := .obj {} [expressionMember]

def evaluateRequest : CdpRequest where
  members := [{ name := literal "id", value := .num { int := 1 } },
    { name := literal "method", value := .str (literal "Runtime.evaluate") }, paramsMember]

theorem cdpRequest_read_expression :
    cdpJstr evaluateRequest.text (ascii "expression") 16 = some (ascii "f(\"id\"") := by
  have hat : ParamAt evaluateRequest (ascii "expression") expressionMember
      (ascii "\x7b\"id\":1,\"method\":\"Runtime.evaluate\",\"params\":\x7b\"expression\"")
      (ascii "\x7d\x7d") := by
    refine ⟨paramsMember, {}, [expressionMember], rfl, _, _, _, _,
      ⟨_, _, ⟨⟨evaluateRequest.members.take 2, [], rfl, nofun, rfl, rfl⟩, ?_⟩, rfl, rfl⟩,
      ⟨⟨[], [], rfl, nofun, rfl, rfl⟩, ?_⟩, ?_, ?_⟩ <;> decide
  have hsafe : SafeRead evaluateRequest.text (ascii "expression")
      (ascii "\x7b\"id\":1,\"method\":\"Runtime.evaluate\",\"params\":\x7b\"expression\"")
      expressionMember.value := by
    refine ⟨⟨⟨ascii "\x7b\"id\":1,\"method\":\"Runtime.evaluate\",\"params\":\x7b", [], ?_,
      List.not_mem_nil, first_of_drop ?_⟩, ?_⟩, ?_⟩
    · decide
    · decide
    · decide
    · show ∀ c ∈ _, isUnit c = false
      decide
  have hread := (cdpRequest_read evaluateRequest (ascii "expression") expressionMember _ _ hsafe).2
    hat 16 (by decide)
  rw [hread]
  decide

/-- A request whose parameters have an id of their own. -/
def nestedIdRequest : CdpRequest where
  members := [{ name := literal "params"
                value := .obj {} [{ name := literal "id", value := .num { int := 7 } }] },
    { name := literal "id", value := .num { int := 1 } },
    { name := literal "method", value := .str (literal "DOM.enable") }]

/-- The id of the parameters is taken for the one of the request. -/
theorem cdpRequest_nestedId :
    ¬ ∀ m pre post, TopAt nestedIdRequest (ascii "id") m pre post →
      TakesTop nestedIdRequest (ascii "id") m.value := by
  intro hall
  have htop : ∃ pre post, TopAt nestedIdRequest (ascii "id")
      { name := literal "id", value := .num { int := 1 } } pre post := by
    refine ⟨_, _, _, _, ⟨⟨nestedIdRequest.members.take 1, nestedIdRequest.members.drop 2, rfl, ?_,
      rfl, rfl⟩, ?_⟩, rfl, rfl⟩
    · decide
    · decide
  obtain ⟨pre, post, hat⟩ := htop
  have htaken : ((miniCdpDispatch nestedIdRequest.text).id : ℚ) = JsonNumber.value { int := 1 } :=
    hall _ pre post hat rfl
  have hseven : (miniCdpDispatch nestedIdRequest.text).id = 7 := by decide +kernel
  rw [hseven] at htaken
  exact absurd htaken (by decide +kernel)

end TinyFramework.Cdp
