/-
  Js/CStrings.lean --- strings between QuickJS and C.

  `JS_ToCString` writes code points in UTF-8, a surrogate without partner as a code point
  of its own.  `JS_NewStringLen` reads such bytes and makes U+FFFD of every byte that
  begins no sequence; a string whose code units are all below 256 is stored otherwise in
  the engine, with the same code units.
-/
import TinyFramework.Foundation.Search
import TinyFramework.Js.Base64

set_option autoImplicit false

namespace TinyFramework.Js

open TinyFramework.Foundation

/-! ## Writing -/

/-- `utf8_encode`, of a code point. -/
def utf8Encode (c : Nat) : Bytes :=
  if c < 0x80 then [UInt8.ofNat c]
  else if c < 0x800 then
    [UInt8.ofNat (0xC0 ||| c >>> 6), UInt8.ofNat (0x80 ||| (c &&& 0x3F))]
  else if c < 0x10000 then
    [UInt8.ofNat (0xE0 ||| c >>> 12), UInt8.ofNat (0x80 ||| (c >>> 6 &&& 0x3F)),
      UInt8.ofNat (0x80 ||| (c &&& 0x3F))]
  else
    [UInt8.ofNat (0xF0 ||| c >>> 18), UInt8.ofNat (0x80 ||| (c >>> 12 &&& 0x3F)),
      UInt8.ofNat (0x80 ||| (c >>> 6 &&& 0x3F)), UInt8.ofNat (0x80 ||| (c &&& 0x3F))]

/-- `from_surrogate` -/
def fromSurrogate (hi lo : Nat) : Nat := 65536 + 1024 * (hi &&& 1023) + (lo &&& 1023)

/-- `JS_ToCString`, without the NUL behind the bytes. -/
def toCString : JsString → Bytes
  | [] => []
  | [c] => utf8Encode c.toNat
  | c :: c1 :: rest =>
      if isHighSurrogate c && isLowSurrogate c1 then
        utf8Encode (fromSurrogate c.toNat c1.toNat) ++ toCString rest
      else utf8Encode c.toNat ++ toCString (c1 :: rest)

/-! ## Reading -/

/-- `utf8_decode`: the code point at the front, and how many bytes it takes. -/
def utf8Decode (p : Bytes) : Nat × Nat :=
  let c := (p.getD 0 0).toNat
  let p0 := (p.getD 1 0).toNat
  let p1 := (p.getD 2 0).toNat
  let p2 := (p.getD 3 0).toNat
  if c < 0x80 then (c, 1)
  else if 0xC2 ≤ c ∧ c ≤ 0xDF then
    if 0x80 ≤ p0 ∧ p0 ≤ 0xBF then (((c - 0xC0) <<< 6) + (p0 - 0x80), 2) else (0xFFFD, 1)
  else if 0xE0 ≤ c ∧ c ≤ 0xEF then
    let lower := if c = 0xE0 then 0xA0 else 0x80
    if lower ≤ p0 ∧ p0 ≤ 0xBF ∧ 0x80 ≤ p1 ∧ p1 ≤ 0xBF then
      (((c - 0xE0) <<< 12) + ((p0 - 0x80) <<< 6) + (p1 - 0x80), 3)
    else (0xFFFD, 1)
  else if 0xF0 ≤ c ∧ c ≤ 0xF4 then
    let lower := if c = 0xF0 then 0x90 else 0x80
    let upper := if c = 0xF4 then 0x8F else 0xBF
    if lower ≤ p0 ∧ p0 ≤ upper ∧ 0x80 ≤ p1 ∧ p1 ≤ 0xBF ∧ 0x80 ≤ p2 ∧ p2 ≤ 0xBF then
      (((c - 0xF0) <<< 18) + ((p0 - 0x80) <<< 12) + ((p1 - 0x80) <<< 6) + (p2 - 0x80), 4)
    else (0xFFFD, 1)
  else (0xFFFD, 1)

/-- `utf8_decode_len`: a sequence that goes on behind the end is none. -/
def utf8DecodeLen (p : Bytes) : Nat × Nat :=
  let c := (p.getD 0 0).toNat
  if p.length = 1 ∧ 0x80 ≤ c ∨ p.length = 2 ∧ 0xE0 ≤ c ∨ p.length = 3 ∧ 0xF0 ≤ c then (0xFFFD, 1)
  else utf8Decode p

/-- The code units of a code point: `get_hi_surrogate` and `get_lo_surrogate` above U+FFFF. -/
def codeUnits (c : Nat) : JsString :=
  if 0xFFFF < c then
    [UInt16.ofNat ((c >>> 10) - (0x10000 >>> 10) + 0xD800), UInt16.ofNat ((c &&& 0x3FF) ||| 0xDC00)]
  else [UInt16.ofNat c]

/-- `JS_NewStringLen` -/
def newStringLen : Bytes → JsString
  | [] => []
  | b :: s =>
      if b.toNat < 0x80 then UInt16.ofNat b.toNat :: newStringLen s
      else
        let (c, n) := utf8DecodeLen (b :: s)
        codeUnits c ++ newStringLen (s.drop (n - 1))
termination_by p => p.length
decreasing_by
  · exact Nat.lt_succ_self _
  · simp only [List.length_drop, List.length_cons]
    omega

/-! ## Sequences -/

theorem utf8Encode_cases {c : Nat} (hc : c < 0x110000) :
    (c < 0x80 ∧ utf8Encode c = [UInt8.ofNat c]) ∨
    (0x80 ≤ c ∧ c < 0x800 ∧
      utf8Encode c = [UInt8.ofNat (c / 64 + 192), UInt8.ofNat (c % 64 + 128)]) ∨
    (0x800 ≤ c ∧ c < 0x10000 ∧
      utf8Encode c = [UInt8.ofNat (c / 4096 + 224), UInt8.ofNat (c / 64 % 64 + 128),
        UInt8.ofNat (c % 64 + 128)]) ∨
    (0x10000 ≤ c ∧
      utf8Encode c = [UInt8.ofNat (c / 262144 + 240), UInt8.ofNat (c / 4096 % 64 + 128),
        UInt8.ofNat (c / 64 % 64 + 128), UInt8.ofNat (c % 64 + 128)]) := by
  unfold utf8Encode
  simp only [tail_or, Nat.shiftRight_eq_div_pow]
  split_ifs with h1 h2 h3
  · exact .inl ⟨h1, rfl⟩
  · have hlead : 0xC0 ||| c / 2 ^ 6 = c / 64 + 192 :=
      lead_or (i := 6) (k := 3) (by omega)
    rw [hlead]
    exact .inr (.inl ⟨by omega, h2, rfl⟩)
  · have hlead : 0xE0 ||| c / 2 ^ 12 = c / 4096 + 224 :=
      lead_or (i := 5) (k := 7) (by omega)
    rw [hlead]
    exact .inr (.inr (.inl ⟨by omega, h3, rfl⟩))
  · have hlead : 0xF0 ||| c / 2 ^ 18 = c / 262144 + 240 :=
      lead_or (i := 4) (k := 15) (by omega)
    rw [hlead]
    exact .inr (.inr (.inr ⟨by omega, rfl⟩))

/-- The code points, surrogates among them. -/
abbrev CodePoint := Fin 0x110000

/-- The bytes of a code point. -/
def encodePoint (c : CodePoint) : Bytes := utf8Encode c.val

def pointUnits (c : CodePoint) : JsString := codeUnits c.val

/-- How many bytes follow the first one. -/
def followers (b : UInt8) : Nat :=
  if b.toNat < 0x80 then 0 else if b.toNat < 0xE0 then 1 else if b.toNat < 0xF0 then 2 else 3

/-- The first byte of a sequence tells its length. -/
theorem encodePoint_block (c : CodePoint) :
    ∃ b bs, encodePoint c = b :: bs ∧ isCont b = false ∧ (∀ x ∈ bs, isCont x = true) ∧
      bs.length = followers b := by
  have hc := c.isLt
  have hcont : ∀ v : Nat, isCont (UInt8.ofNat (v % 64 + 128)) = true := fun v => by
    rw [isCont_iff, toNat_ofNat_lt (by omega)]
    omega
  have hhead : ∀ v : Nat, v < 256 → (v < 128 ∨ 192 ≤ v) → isCont (UInt8.ofNat v) = false := by
    intro v hv hor
    rw [← Bool.not_eq_true, isCont_iff, toNat_ofNat_lt hv]
    omega
  unfold encodePoint
  rcases utf8Encode_cases hc with ⟨h, heq⟩ | ⟨h, h', heq⟩ | ⟨h, h', heq⟩ | ⟨h, heq⟩
  · refine ⟨_, _, heq, hhead _ (by omega) (by omega), List.forall_mem_nil _, ?_⟩
    rw [followers, toNat_ofNat_lt (by omega), if_pos h]
    rfl
  · refine ⟨_, _, heq, hhead _ (by omega) (by omega), ?_, ?_⟩
    · exact List.forall_mem_singleton.2 (hcont _)
    · rw [followers, toNat_ofNat_lt (by omega), if_neg (by omega), if_pos (by omega)]
      rfl
  · refine ⟨_, _, heq, hhead _ (by omega) (by omega), ?_, ?_⟩
    · exact List.forall_mem_cons.2 ⟨hcont _, List.forall_mem_singleton.2 (hcont _)⟩
    · rw [followers, toNat_ofNat_lt (by omega), if_neg (by omega), if_neg (by omega),
        if_pos (by omega)]
      rfl
  · refine ⟨_, _, heq, hhead _ (by omega) (by omega), ?_, ?_⟩
    · exact List.forall_mem_cons.2
        ⟨hcont _, List.forall_mem_cons.2 ⟨hcont _, List.forall_mem_singleton.2 (hcont _)⟩⟩
    · rw [followers, toNat_ofNat_lt (by omega), if_neg (by omega), if_neg (by omega),
        if_neg (by omega)]
      rfl

theorem encodePoint_selfSync : SelfSync encodePoint isCont where
  block c := by
    obtain ⟨b, bs, heq, hb, hbs, -⟩ := encodePoint_block c
    exact ⟨b, bs, heq, hb, hbs⟩

theorem encodePoint_prefixFree : PrefixFree encodePoint := by
  intro c c' h
  obtain ⟨b, bs, heq, -, -, hlen⟩ := encodePoint_block c
  obtain ⟨b', bs', heq', -, -, hlen'⟩ := encodePoint_block c'
  rw [heq, heq'] at h ⊢
  obtain ⟨rfl, htail⟩ := List.cons_prefix_cons.1 h
  rw [htail.eq_of_length (hlen.trans hlen'.symm)]

/-! ## What is read -/

theorem utf8DecodeLen_encodePoint (c : CodePoint) (rest : Bytes) :
    utf8DecodeLen (encodePoint c ++ rest) = (c.val, (encodePoint c).length) := by
  have hc := c.isLt
  unfold encodePoint
  rcases utf8Encode_cases hc with ⟨h, heq⟩ | ⟨h, h', heq⟩ | ⟨h, h', heq⟩ | ⟨h, heq⟩
  · rw [heq]
    simp only [utf8DecodeLen, utf8Decode, List.cons_append, List.getD_cons_zero, List.length_cons,
      List.length_nil]
    rw [toNat_ofNat_lt (by omega), if_neg (by omega), if_pos h]
  · rw [heq]
    simp only [utf8DecodeLen, utf8Decode, List.cons_append, List.getD_cons_zero,
      List.getD_cons_succ, List.length_cons, List.length_nil]
    rw [toNat_ofNat_lt (by omega), toNat_ofNat_lt (by omega), if_neg (by omega),
      if_neg (by omega), if_pos (by omega), if_pos (by omega), Nat.shiftLeft_eq]
    exact Prod.ext (by omega) rfl
  · rw [heq]
    simp only [utf8DecodeLen, utf8Decode, List.cons_append, List.getD_cons_zero,
      List.getD_cons_succ, List.length_cons, List.length_nil]
    rw [toNat_ofNat_lt (by omega), toNat_ofNat_lt (by omega), toNat_ofNat_lt (by omega),
      if_neg (by omega), if_neg (by omega), if_neg (by omega), if_pos (by omega),
      if_pos (by split_ifs <;> omega), Nat.shiftLeft_eq, Nat.shiftLeft_eq]
    exact Prod.ext (by omega) rfl
  · rw [heq]
    simp only [utf8DecodeLen, utf8Decode, List.cons_append, List.getD_cons_zero,
      List.getD_cons_succ, List.length_cons, List.length_nil]
    rw [toNat_ofNat_lt (by omega), toNat_ofNat_lt (by omega), toNat_ofNat_lt (by omega),
      toNat_ofNat_lt (by omega), if_neg (by omega), if_neg (by omega), if_neg (by omega),
      if_neg (by omega), if_pos (by omega), if_pos (by split_ifs <;> omega), Nat.shiftLeft_eq,
      Nat.shiftLeft_eq, Nat.shiftLeft_eq]
    exact Prod.ext (by omega) rfl

/-- A byte at a place within the text. -/
theorem getD_toNat_pos {s : Bytes} {k : Nat} (h : 0 < (s.getD k 0).toNat) : k < s.length := by
  rcases Nat.lt_or_ge k s.length with hlt | hge
  · exact hlt
  · rw [List.getD_eq_getElem?_getD, List.getElem?_eq_none hge] at h
    exact absurd h (by decide)

theorem byte_ofNat {v : Nat} {x : UInt8} (h : v = x.toNat) : UInt8.ofNat v = x := by
  rw [h, UInt8.ofNat_toNat]

section Sequences

variable {b p0 p1 p2 : UInt8}

theorem encodePoint_two (hb : 0xC2 ≤ b.toNat ∧ b.toNat ≤ 0xDF)
    (h0 : 0x80 ≤ p0.toNat ∧ p0.toNat ≤ 0xBF) : ∃ c, encodePoint c = [b, p0] := by
  have hc : (b.toNat - 0xC0) * 64 + (p0.toNat - 0x80) < 0x110000 := by omega
  refine ⟨⟨_, hc⟩, ?_⟩
  rcases utf8Encode_cases hc with ⟨h, -⟩ | ⟨-, -, heq⟩ | ⟨h, -⟩ | ⟨h, -⟩
  · omega
  · rw [encodePoint, heq, byte_ofNat (x := b) (by omega), byte_ofNat (x := p0) (by omega)]
  · omega
  · omega

theorem encodePoint_three (hb : 0xE0 ≤ b.toNat ∧ b.toNat ≤ 0xEF)
    (h0 : (if b.toNat = 0xE0 then 0xA0 else 0x80) ≤ p0.toNat ∧ p0.toNat ≤ 0xBF)
    (h1 : 0x80 ≤ p1.toNat ∧ p1.toNat ≤ 0xBF) : ∃ c, encodePoint c = [b, p0, p1] := by
  have hlow : 0x80 ≤ p0.toNat ∧ (b.toNat = 0xE0 → 0xA0 ≤ p0.toNat) := by
    have hle := h0.1
    split_ifs at hle <;> omega
  have hc : (b.toNat - 0xE0) * 4096 + (p0.toNat - 0x80) * 64 + (p1.toNat - 0x80) < 0x110000 := by
    omega
  refine ⟨⟨_, hc⟩, ?_⟩
  rcases utf8Encode_cases hc with ⟨h, -⟩ | ⟨h, h', -⟩ | ⟨-, -, heq⟩ | ⟨h, -⟩
  · omega
  · omega
  · rw [encodePoint, heq, byte_ofNat (x := b) (by omega), byte_ofNat (x := p0) (by omega),
      byte_ofNat (x := p1) (by omega)]
  · omega

theorem encodePoint_four (hb : 0xF0 ≤ b.toNat ∧ b.toNat ≤ 0xF4)
    (h0 : (if b.toNat = 0xF0 then 0x90 else 0x80) ≤ p0.toNat ∧
      p0.toNat ≤ if b.toNat = 0xF4 then 0x8F else 0xBF)
    (h1 : 0x80 ≤ p1.toNat ∧ p1.toNat ≤ 0xBF) (h2 : 0x80 ≤ p2.toNat ∧ p2.toNat ≤ 0xBF) :
    ∃ c, encodePoint c = [b, p0, p1, p2] := by
  have hlow : 0x80 ≤ p0.toNat ∧ (b.toNat = 0xF0 → 0x90 ≤ p0.toNat) := by
    have hle := h0.1
    split_ifs at hle <;> omega
  have hhigh : p0.toNat ≤ 0xBF ∧ (b.toNat = 0xF4 → p0.toNat ≤ 0x8F) := by
    have hle := h0.2
    split_ifs at hle <;> omega
  have hc : (b.toNat - 0xF0) * 262144 + (p0.toNat - 0x80) * 4096 + (p1.toNat - 0x80) * 64 +
      (p2.toNat - 0x80) < 0x110000 := by omega
  refine ⟨⟨_, hc⟩, ?_⟩
  rcases utf8Encode_cases hc with ⟨h, -⟩ | ⟨h, h', -⟩ | ⟨h, h', -⟩ | ⟨-, heq⟩
  · omega
  · omega
  · omega
  · rw [encodePoint, heq, byte_ofNat (x := b) (by omega), byte_ofNat (x := p0) (by omega),
      byte_ofNat (x := p1) (by omega), byte_ofNat (x := p2) (by omega)]

end Sequences

/-- A byte that is no sequence is read alone, or the bytes spell a code point. -/
theorem utf8Decode_or {b : UInt8} {s : Bytes} (hb : 0x80 ≤ b.toNat) :
    utf8Decode (b :: s) = (0xFFFD, 1) ∨ ∃ c, encodePoint c <+: b :: s := by
  have hcons : ∀ {t : Bytes}, 0 < (t.getD 0 0).toNat → ∃ x u, t = x :: u := fun h =>
    List.exists_cons_of_length_pos (getD_toNat_pos h)
  have hfront : ∀ {l t : Bytes}, (∃ c, encodePoint c = l) → ∃ c, encodePoint c <+: l ++ t :=
    fun ⟨c, hc⟩ => ⟨c, hc ▸ List.prefix_append _ _⟩
  unfold utf8Decode
  simp only [List.getD_cons_zero, List.getD_cons_succ]
  rw [if_neg (Nat.not_lt.2 hb)]
  by_cases h2 : 0xC2 ≤ b.toNat ∧ b.toNat ≤ 0xDF
  · rw [if_pos h2]
    split_ifs with hgood
    · obtain ⟨p0, t, rfl⟩ := hcons (t := s) (by omega)
      exact .inr (hfront (encodePoint_two h2 hgood))
    · exact .inl rfl
  rw [if_neg h2]
  by_cases h3 : 0xE0 ≤ b.toNat ∧ b.toNat ≤ 0xEF
  · rw [if_pos h3]
    by_cases hgood : (if b.toNat = 0xE0 then 0xA0 else 0x80) ≤ (s.getD 0 0).toNat ∧
        (s.getD 0 0).toNat ≤ 0xBF ∧ 0x80 ≤ (s.getD 1 0).toNat ∧ (s.getD 1 0).toNat ≤ 0xBF
    · obtain ⟨p0, t, rfl⟩ := hcons (t := s) (by have := hgood.1; split_ifs at this <;> omega)
      obtain ⟨p1, t, rfl⟩ := hcons (t := t) (Nat.lt_of_lt_of_le (by decide) hgood.2.2.1)
      exact .inr (hfront (encodePoint_three h3 ⟨hgood.1, hgood.2.1⟩ hgood.2.2))
    · exact .inl (if_neg hgood)
  rw [if_neg h3]
  by_cases h4 : 0xF0 ≤ b.toNat ∧ b.toNat ≤ 0xF4
  · rw [if_pos h4]
    by_cases hgood : (if b.toNat = 0xF0 then 0x90 else 0x80) ≤ (s.getD 0 0).toNat ∧
        ((s.getD 0 0).toNat ≤ if b.toNat = 0xF4 then 0x8F else 0xBF) ∧
        0x80 ≤ (s.getD 1 0).toNat ∧ (s.getD 1 0).toNat ≤ 0xBF ∧
        0x80 ≤ (s.getD 2 0).toNat ∧ (s.getD 2 0).toNat ≤ 0xBF
    · obtain ⟨p0, t, rfl⟩ := hcons (t := s) (by have := hgood.1; split_ifs at this <;> omega)
      obtain ⟨p1, t, rfl⟩ := hcons (t := t) (Nat.lt_of_lt_of_le (by decide) hgood.2.2.1)
      obtain ⟨p2, t, rfl⟩ := hcons (t := t) (Nat.lt_of_lt_of_le (by decide) hgood.2.2.2.2.1)
      exact .inr (hfront (encodePoint_four h4 ⟨hgood.1, hgood.2.1⟩ ⟨hgood.2.2.1, hgood.2.2.2.1⟩
        hgood.2.2.2.2))
    · exact .inl (if_neg hgood)
  · exact .inl (if_neg h4)

theorem newStringLen_cons {b : UInt8} {s : Bytes} :
    newStringLen (b :: s) =
      codeUnits (utf8DecodeLen (b :: s)).1 ++
        newStringLen (s.drop ((utf8DecodeLen (b :: s)).2 - 1)) := by
  rw [newStringLen]
  split_ifs with hb
  · have hlen : utf8DecodeLen (b :: s) = (b.toNat, 1) := by
      unfold utf8DecodeLen utf8Decode
      simp only [List.getD_cons_zero]
      rw [if_neg (by omega), if_pos hb]
    rw [hlen, codeUnits, if_neg (by omega)]
    rfl
  · rfl

/-- The reader of the engine reads sequences, and replaces every other byte. -/
theorem newStringLen_replaces : Replaces encodePoint pointUnits 0xFFFD newStringLen where
  nil := newStringLen.eq_1
  block c rest := by
    have hread := utf8DecodeLen_encodePoint c rest
    obtain ⟨b, bs, heq, -⟩ := encodePoint_block c
    rw [heq] at hread ⊢
    rw [List.cons_append] at hread ⊢
    rw [newStringLen_cons, hread, List.length_cons, Nat.add_sub_cancel, List.drop_left]
    rfl
  other b rest hnone := by
    have hb : 0x80 ≤ b.toNat := by
      refine Nat.le_of_not_lt fun hlt => hnone ⟨b.toNat, by omega⟩ ?_
      rw [encodePoint, utf8Encode, if_pos hlt, UInt8.ofNat_toNat]
      exact List.cons_prefix_cons.2 ⟨rfl, List.nil_prefix⟩
    have hread : utf8DecodeLen (b :: rest) = (0xFFFD, 1) := by
      unfold utf8DecodeLen
      dsimp only
      split_ifs
      · rfl
      · exact (utf8Decode_or hb).resolve_right fun ⟨c, hc⟩ => hnone c hc
    rw [newStringLen_cons, hread]
    rfl

/-! ## What was written -/

/-- A code unit, as a code point. -/
def unitPoint (u : UInt16) : CodePoint := ⟨u.toNat, Nat.lt_trans u.toNat_lt (by decide)⟩

/-- The code point of a pair of surrogates. -/
def pairPoint (u v : UInt16) : CodePoint :=
  ⟨65536 + 1024 * (u.toNat % 1024) + v.toNat % 1024, by omega⟩

/-- The code points of a string. -/
def points : JsString → List CodePoint
  | [] => []
  | [u] => [unitPoint u]
  | u :: v :: rest =>
      if isHighSurrogate u && isLowSurrogate v then pairPoint u v :: points rest
      else unitPoint u :: points (v :: rest)

theorem toCString_eq (t : JsString) : toCString t = spell encodePoint (points t) := by
  induction t using points.induct with
  | case1 => rfl
  | case2 u =>
    rw [toCString, points, spell, List.flatMap_singleton]
    rfl
  | case3 u v rest hpair ih =>
    have hpoint : fromSurrogate u.toNat v.toNat = (pairPoint u v).val := by
      rw [fromSurrogate, (Nat.and_two_pow_sub_one_eq_mod _ 10 : u.toNat &&& 1023 = _),
        (Nat.and_two_pow_sub_one_eq_mod _ 10 : v.toNat &&& 1023 = _)]
      rfl
    rw [toCString, if_pos hpair, points, if_pos hpair, ih, hpoint, spell, spell, List.flatMap_cons]
    rfl
  | case4 u v rest hpair ih =>
    rw [toCString, if_neg hpair, points, if_neg hpair, ih, spell, spell, List.flatMap_cons]
    rfl

theorem lowSurrogate_or (n : Nat) : (n &&& 0x3FF) ||| 0xDC00 = n % 1024 + 0xDC00 := by
  rw [Nat.or_comm, (Nat.and_two_pow_sub_one_eq_mod _ 10 : n &&& 0x3FF = _)]
  exact lead_or (i := 10) (k := 55) (by omega)

theorem pointUnits_unitPoint (u : UInt16) : pointUnits (unitPoint u) = [u] := by
  have hu := u.toNat_lt
  rw [pointUnits, codeUnits, unitPoint, if_neg (by simpa using by omega), UInt16.ofNat_toNat]

theorem pointUnits_pairPoint {u v : UInt16} (hu : isHighSurrogate u = true)
    (hv : isLowSurrogate v = true) : pointUnits (pairPoint u v) = [u, v] := by
  rw [isHighSurrogate_iff] at hu
  rw [isLowSurrogate_iff] at hv
  rw [pointUnits, codeUnits, pairPoint]
  simp only [lowSurrogate_or, Nat.shiftRight_eq_div_pow]
  rw [if_pos (by omega)]
  have hhead : (65536 + 1024 * (u.toNat % 1024) + v.toNat % 1024) / 2 ^ 10 - 65536 / 2 ^ 10 +
      0xD800 = u.toNat := by omega
  have htail : (65536 + 1024 * (u.toNat % 1024) + v.toNat % 1024) % 1024 + 0xDC00 = v.toNat := by
    omega
  rw [hhead, htail, UInt16.ofNat_toNat, UInt16.ofNat_toNat]

/-- The code points are those of the string. -/
theorem flatMap_points (t : JsString) : (points t).flatMap pointUnits = t := by
  induction t using points.induct with
  | case1 => rfl
  | case2 u => rw [points, List.flatMap_singleton, pointUnits_unitPoint]
  | case3 u v rest hpair ih =>
    obtain ⟨hu, hv⟩ := (Bool.and_eq_true_iff.1 hpair)
    rw [points, if_pos hpair, List.flatMap_cons, ih, pointUnits_pairPoint hu hv]
    rfl
  | case4 u v rest hpair ih =>
    rw [points, if_neg hpair, List.flatMap_cons, ih, pointUnits_unitPoint]
    rfl

/-- What does not begin with a low surrogate makes no pair with what is in front. -/
theorem points_append (s : JsString) {t : JsString}
    (ht : ∀ u ∈ t.head?, isLowSurrogate u = false) : points (s ++ t) = points s ++ points t := by
  induction s using points.induct with
  | case1 => rfl
  | case2 u =>
    cases t with
    | nil => rfl
    | cons v t =>
      have hpair : ¬ (isHighSurrogate u && isLowSurrogate v) = true := by
        rw [ht v rfl, Bool.and_false]
        exact Bool.false_ne_true
      have hcons : points (u :: v :: t) = unitPoint u :: points (v :: t) := by
        rw [points, if_neg hpair]
      exact hcons
  | case3 u v rest hpair ih =>
    rw [List.cons_append, List.cons_append, points, if_pos hpair, ih, points, if_pos hpair]
    rfl
  | case4 u v rest hpair ih =>
    rw [List.cons_append, List.cons_append, points, if_neg hpair, ← List.cons_append, ih, points,
      if_neg hpair]
    rfl

/-- The string is what is read of its bytes. -/
theorem newStringLen_toCString (t : JsString) : newStringLen (toCString t) = t := by
  have hread := newStringLen_replaces.read_spell (points t) []
  rw [List.append_nil, newStringLen_replaces.nil, List.append_nil, flatMap_points] at hread
  rw [toCString_eq, hread]

/-- A string has no more code units than bytes. -/
theorem length_le_toCString (t : JsString) : t.length ≤ (toCString t).length := by
  have hpoint : ∀ c : CodePoint, (pointUnits c).length ≤ (encodePoint c).length := by
    intro c
    rw [encodePoint, utf8Encode, pointUnits, codeUnits]
    split_ifs <;> simp only [List.length_cons, List.length_nil] <;> omega
  have hpoints : ∀ l : List CodePoint,
      (l.flatMap pointUnits).length ≤ (spell encodePoint l).length := by
    intro l
    induction l with
    | nil => exact Nat.le_refl _
    | cons c l ih =>
      rw [List.flatMap_cons, spell, List.flatMap_cons, List.length_append, List.length_append]
      exact Nat.add_le_add (hpoint c) ih
  rw [toCString_eq]
  exact (congrArg List.length (flatMap_points t)).symm.le.trans (hpoints _)

/-! ## What is read of a part -/

/-- The code point of the sign that stands for other bytes. -/
def signPoint : CodePoint := ⟨0xFFFD, by decide⟩

theorem signPoint_spec : pointUnits signPoint = [0xFFFD] ∧ (encodePoint signPoint).length = 3 := by
  decide

/-- Only the code point of the sign is read as signs. -/
theorem eq_signPoint {c : CodePoint} (h : ∀ u ∈ pointUnits c, u = 0xFFFD) : c = signPoint := by
  have hc := c.isLt
  unfold pointUnits codeUnits at h
  split_ifs at h with hlarge
  · have hhead := congrArg UInt16.toNat (h _ List.mem_cons_self)
    simp only [Nat.shiftRight_eq_div_pow] at hhead
    rw [UInt16.toNat_ofNat', Nat.mod_eq_of_lt (by omega)] at hhead
    change c.val / 2 ^ 10 - 65536 / 2 ^ 10 + 0xD800 = 0xFFFD at hhead
    omega
  · have hunit := congrArg UInt16.toNat (h _ List.mem_cons_self)
    rw [UInt16.toNat_ofNat', Nat.mod_eq_of_lt (by omega)] at hunit
    exact Fin.ext hunit

theorem points_replicate (i : Nat) :
    points (List.replicate i 0xFFFD) = List.replicate i signPoint := by
  induction i with
  | zero => rfl
  | succ i ih =>
    have happend := points_append [0xFFFD] (t := List.replicate i 0xFFFD) fun u hu => by
      rw [List.eq_of_mem_replicate (List.mem_of_mem_head? hu)]
      decide
    rw [List.replicate_succ, ← List.singleton_append, happend, ih]
    rfl

/-- Code points that are read as signs only. -/
theorem eq_replicate_of_flatMap {l : List CodePoint} {i : Nat}
    (h : l.flatMap pointUnits = List.replicate i 0xFFFD) : l = List.replicate i signPoint := by
  induction l generalizing i with
  | nil =>
    obtain rfl : i = 0 := by simpa using (congrArg List.length h).symm
    rfl
  | cons c l ih =>
    rw [List.flatMap_cons] at h
    obtain rfl : c = signPoint := eq_signPoint fun u hu =>
      List.eq_of_mem_replicate (h ▸ List.mem_append_left _ hu)
    rw [signPoint_spec.1] at h
    cases i with
    | zero => cases h
    | succ i => rw [ih (List.cons.inj h).2, List.replicate_succ]

/-- A string is read of the first `k` bytes of its own only when it has no more, or when what
is left of its last signs is read as these. -/
theorem newStringLen_take_iff (t : JsString) (k : Nat) :
    newStringLen ((toCString t).take k) = t ↔ (toCString t).length ≤ k ∨
      ∃ s i, (i = 1 ∨ i = 2) ∧ t = s ++ List.replicate i 0xFFFD ∧ (toCString s).length + i = k := by
  have hiff := newStringLen_replaces.read_take_eq_iff encodePoint_selfSync
    encodePoint_prefixFree (points t) k
  rw [flatMap_points, ← toCString_eq] at hiff
  rw [hiff]
  refine or_congr_right ⟨?_, ?_⟩
  · rintro ⟨l₁, a, l₂, i, hpoints, hi, hk, hrest⟩
    have hl : a :: l₂ = List.replicate i signPoint := eq_replicate_of_flatMap hrest
    have ht : t = l₁.flatMap pointUnits ++ List.replicate i 0xFFFD := by
      rw [← flatMap_points t, hpoints, List.flatMap_append, List.flatMap_cons, hrest]
    have hsign : ∀ u ∈ (List.replicate i (0xFFFD : UInt16)).head?, isLowSurrogate u = false := by
      intro u hu
      rw [List.eq_of_mem_replicate (List.mem_of_mem_head? hu)]
      decide
    have hl₁ : points (l₁.flatMap pointUnits) = l₁ := by
      have happend := points_append (l₁.flatMap pointUnits) hsign
      rw [← ht, hpoints, points_replicate, ← hl] at happend
      exact (List.append_cancel_right happend).symm
    obtain ⟨i, rfl⟩ : ∃ j, i = j + 1 := by
      cases i with
      | zero => cases hl
      | succ i => exact ⟨i, rfl⟩
    obtain ⟨rfl, -⟩ := List.cons.inj hl
    rw [signPoint_spec.2] at hi
    refine ⟨_, i + 1, by omega, ht, ?_⟩
    rw [toCString_eq, hl₁, hk]
  · rintro ⟨s, i, hi, rfl, rfl⟩
    have hsign : ∀ u ∈ (List.replicate i (0xFFFD : UInt16)).head?, isLowSurrogate u = false := by
      intro u hu
      rw [List.eq_of_mem_replicate (List.mem_of_mem_head? hu)]
      decide
    obtain ⟨j, rfl⟩ : ∃ j, i = j + 1 := ⟨i - 1, by omega⟩
    refine ⟨points s, signPoint, List.replicate j signPoint, j + 1, ?_, ?_, ?_, ?_⟩
    · rw [points_append s hsign, points_replicate, List.replicate_succ]
    · rw [signPoint_spec.2]
      omega
    · rw [toCString_eq]
    · rw [← List.flatMap_cons, ← List.replicate_succ, ← points_replicate, flatMap_points]

/-! ## Strings with a NUL -/

theorem zero_mem_encodePoint {c : CodePoint} : 0 ∈ encodePoint c ↔ 0 ∈ pointUnits c := by
  constructor
  · intro h
    obtain ⟨b, bs, heq, -, hbs, hlen⟩ := encodePoint_block c
    rw [heq] at h
    rcases List.mem_cons.1 h with rfl | h
    · obtain rfl : bs = [] := List.length_eq_zero_iff.1 hlen
      have hread := newStringLen_replaces.block c []
      rw [List.append_nil, heq, newStringLen_replaces.nil, List.append_nil, newStringLen,
        if_pos (by decide)] at hread
      exact hread ▸ List.mem_cons_self
    · exact absurd (hbs 0 h) (by decide)
  · intro h
    have hc := c.isLt
    have hzero : ∀ v : Nat, v < 0x10000 → (0 : UInt16) = UInt16.ofNat v → v = 0 := by
      intro v hv heq
      have htoNat := congrArg UInt16.toNat heq
      rw [UInt16.toNat_ofNat', Nat.mod_eq_of_lt (by omega)] at htoNat
      exact htoNat.symm
    unfold pointUnits codeUnits at h
    simp only [Nat.shiftRight_eq_div_pow] at h
    split_ifs at h with hlarge
    · have hlow : (c.val &&& 0x3FF) ||| 0xDC00 = c.val % 1024 + 0xDC00 := lowSurrogate_or c.val
      rcases List.mem_cons.1 h with h | h
      · have := hzero _ (by omega) h
        omega
      · rw [hlow] at h
        have := hzero _ (by omega) (List.mem_singleton.1 h)
        omega
    · have hval := hzero _ (by omega) (List.mem_singleton.1 h)
      rw [encodePoint, hval]
      decide

/-- Only the code unit 0 makes a byte 0. -/
theorem zero_mem_toCString {t : JsString} : 0 ∈ toCString t ↔ 0 ∈ t := by
  have hunits : 0 ∈ t ↔ 0 ∈ (points t).flatMap pointUnits := by rw [flatMap_points]
  rw [toCString_eq, hunits]
  simp only [spell, List.mem_flatMap, zero_mem_encodePoint]

/-- A C string ends where the string has its first NUL. -/
theorem cString_toCString {s t : JsString} (hs : 0 ∉ s) :
    cString (toCString (s ++ 0 :: t)) = toCString s := by
  have happend : points (s ++ 0 :: t) = points s ++ points (0 :: t) :=
    points_append s fun u hu => by
      obtain rfl : 0 = u := Option.some.inj hu
      decide
  have hrest : ∃ r, toCString (0 :: t) = 0 :: r := by
    cases t with
    | nil => exact ⟨[], rfl⟩
    | cons v t =>
      rw [toCString, if_neg (by simp [isHighSurrogate])]
      exact ⟨_, rfl⟩
  obtain ⟨r, hr⟩ := hrest
  have hbytes : toCString (s ++ 0 :: t) = toCString s ++ 0 :: r := by
    rw [← hr]
    simp only [toCString_eq, happend, spell_append]
  have hplain : ∀ b ∈ toCString s, decide (b ≠ 0) = true := by
    intro b hb
    refine decide_eq_true ?_
    rintro rfl
    exact hs (zero_mem_toCString.1 hb)
  rw [hbytes, cString, List.takeWhile_append_of_pos hplain]
  simp

/-- A string is read back of the C string of its bytes, cut to `k` bytes. -/
theorem newStringLen_cString_take_iff (t : JsString) (k : Nat) :
    newStringLen ((cString (toCString t)).take k) = t ↔ 0 ∉ t ∧ ((toCString t).length ≤ k ∨
      ∃ s i, (i = 1 ∨ i = 2) ∧ t = s ++ List.replicate i 0xFFFD ∧
        (toCString s).length + i = k) := by
  by_cases hzero : 0 ∈ t
  · refine iff_of_false (fun heq => ?_) fun h => h.1 hzero
    obtain ⟨s, r, rfl, hs⟩ := List.eq_append_cons_of_mem hzero
    have hmem : (0 : UInt16) ∈ s ++ 0 :: r := hzero
    rw [← heq, cString_toCString hs, toCString_eq] at hmem
    rcases newStringLen_replaces.read_take encodePoint_selfSync encodePoint_prefixFree (points s) k
      with ⟨-, hread⟩ | ⟨l₁, a, l₂, i, hpoints, -, -, hread⟩
    · rw [hread, flatMap_points] at hmem
      exact hs hmem
    · rw [hread] at hmem
      rcases List.mem_append.1 hmem with hmem | hmem
      · refine hs ?_
        rw [← flatMap_points s, hpoints, List.flatMap_append]
        exact List.mem_append_left _ hmem
      · exact absurd (List.eq_of_mem_replicate hmem) (by decide)
  · have hplain : cString (toCString t) = toCString t :=
      cString_eq_self_iff.2 fun h => hzero (zero_mem_toCString.1 h)
    rw [hplain, newStringLen_take_iff]
    exact (and_iff_right hzero).symm

end TinyFramework.Js
