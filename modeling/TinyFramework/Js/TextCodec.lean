/-
  Js/TextCodec.lean --- `TextEncoder` and `TextDecoder` of `mini_js_shim`.

  The decoder is modelled on the bytes that its first lines take from a view or a
  buffer.  A byte or a code unit behind the end is `undefined` or `NaN` in the source,
  and 0 once it is masked.
-/
import TinyFramework.Foundation.Encodings
import TinyFramework.Js.Base64

set_option autoImplicit false

namespace TinyFramework.Js

open TinyFramework.Foundation

/-! ## The encoder -/

/-- The bytes pushed for a pair of surrogates. -/
def pushPair (high low : Nat) : Bytes :=
  let code := 0x10000 + (((high &&& 0x3FF) <<< 10) ||| (low &&& 0x3FF))
  [UInt8.ofNat (0xF0 ||| (code >>> 18)), UInt8.ofNat (0x80 ||| ((code >>> 12) &&& 0x3F)),
    UInt8.ofNat (0x80 ||| ((code >>> 6) &&& 0x3F)), UInt8.ofNat (0x80 ||| (code &&& 0x3F))]

/-- `TextEncoder.prototype.encode`. -/
def textEncode : JsString → Bytes
  | [] => []
  | u :: rest =>
      let code := u.toNat
      if code < 0x80 then UInt8.ofNat code :: textEncode rest
      else if code < 0x800 then
        UInt8.ofNat (0xC0 ||| (code >>> 6)) :: UInt8.ofNat (0x80 ||| (code &&& 0x3F)) ::
          textEncode rest
      else if code < 0xD800 ∨ 0xE000 ≤ code then
        UInt8.ofNat (0xE0 ||| (code >>> 12)) :: UInt8.ofNat (0x80 ||| ((code >>> 6) &&& 0x3F)) ::
          UInt8.ofNat (0x80 ||| (code &&& 0x3F)) :: textEncode rest
      else match rest with
        | [] => pushPair code 0
        | v :: rest => pushPair code v.toNat ++ textEncode rest

/-! ## The decoder -/

/-- The character of a block of two bytes. -/
def twoBytes (b₁ b₂ : Nat) : JsString := [UInt16.ofNat (((b₁ &&& 0x1F) <<< 6) ||| (b₂ &&& 0x3F))]

/-- The character of a block of three bytes. -/
def threeBytes (b₁ b₂ b₃ : Nat) : JsString :=
  [UInt16.ofNat (((b₁ &&& 0x0F) <<< 12) ||| ((b₂ &&& 0x3F) <<< 6) ||| (b₃ &&& 0x3F))]

/-- The pair of surrogates of a block of four bytes; `code` may be negative, where `>>`
and `&` are those of two's complement. -/
def fourBytes (b₁ b₂ b₃ b₄ : Nat) : JsString :=
  let code : Int := ((((b₁ &&& 0x07) <<< 18) ||| ((b₂ &&& 0x3F) <<< 12) |||
    ((b₃ &&& 0x3F) <<< 6) ||| (b₄ &&& 0x3F) : Nat) : Int) - 0x10000
  [UInt16.ofInt (0xD800 + code / 1024), UInt16.ofInt (0xDC00 + code % 1024)]

/-- `TextDecoder.prototype.decode` on the bytes of its input. -/
def textDecode : Bytes → JsString
  | [] => []
  | b :: rest =>
      let b₁ := b.toNat
      if b₁ < 0x80 then UInt16.ofNat b₁ :: textDecode rest
      else if 0xBF < b₁ ∧ b₁ < 0xE0 then
        match rest with
        | [] => twoBytes b₁ 0
        | b₂ :: rest => twoBytes b₁ b₂.toNat ++ textDecode rest
      else if 0xDF < b₁ ∧ b₁ < 0xF0 then
        match rest with
        | [] => threeBytes b₁ 0 0
        | [b₂] => threeBytes b₁ b₂.toNat 0
        | b₂ :: b₃ :: rest => threeBytes b₁ b₂.toNat b₃.toNat ++ textDecode rest
      else if 0xEF < b₁ then
        match rest with
        | [] => fourBytes b₁ 0 0 0
        | [b₂] => fourBytes b₁ b₂.toNat 0 0
        | [b₂, b₃] => fourBytes b₁ b₂.toNat b₃.toNat 0
        | b₂ :: b₃ :: b₄ :: rest =>
            fourBytes b₁ b₂.toNat b₃.toNat b₄.toNat ++ textDecode rest
      else textDecode rest

example : textEncode [0x41, 0xD83D, 0xDE00] = [0x41, 0xF0, 0x9F, 0x98, 0x80] := by decide

/-! ## Masks and shifts -/

theorem and_3F (n : Nat) : n &&& 0x3F = n % 64 := Nat.and_two_pow_sub_one_eq_mod n 6

theorem and_3FF (n : Nat) : n &&& 0x3FF = n % 1024 := Nat.and_two_pow_sub_one_eq_mod n 10

theorem or_80 {n : Nat} (h : n < 64) : 0x80 ||| n = 0x80 + n :=
  (Nat.two_pow_add_eq_or_of_lt (i := 6) h 2).symm

theorem lt_of_char (c : Char) : c.toNat < 0x110000 := by
  rcases c.valid with h | h
  · exact Nat.lt_trans h (by decide)
  · exact h.2

theorem not_surrogate (c : Char) : c.toNat < 0xD800 ∨ 0xE000 ≤ c.toNat := by
  rcases c.valid with h | h
  · exact .inl h
  · exact .inr h.1

/-! ## Encoding -/

theorem toNat_unit {n : Nat} (h : n < 0x10000) : (UInt16.ofNat n).toNat = n := by
  rw [UInt16.toNat_ofNat']
  omega

/-- The four length classes of UTF-8. -/
theorem utf8EncodeChar_ascii {c : Char} (h : c.toNat < 0x80) :
    String.utf8EncodeChar c = [UInt8.ofNat c.toNat] :=
  if_pos (Nat.le_of_lt_succ h)

theorem utf8EncodeChar_two {c : Char} (h₁ : 0x80 ≤ c.toNat) (h₂ : c.toNat < 0x800) :
    String.utf8EncodeChar c =
      [UInt8.ofNat (0xC0 + c.toNat / 64), UInt8.ofNat (0x80 + c.toNat % 64)] := by
  have hhead : c.toNat / 64 % 0x20 + 0xC0 = 0xC0 + c.toNat / 64 := by omega
  have htail : c.toNat % 0x40 + 0x80 = 0x80 + c.toNat % 64 := by omega
  rw [← hhead, ← htail]
  exact (if_neg (Nat.not_le_of_lt h₁)).trans (if_pos (Nat.le_of_lt_succ h₂))

theorem utf8EncodeChar_three {c : Char} (h₁ : 0x800 ≤ c.toNat) (h₂ : c.toNat < 0x10000) :
    String.utf8EncodeChar c =
      [UInt8.ofNat (0xE0 + c.toNat / 4096), UInt8.ofNat (0x80 + c.toNat / 64 % 64),
        UInt8.ofNat (0x80 + c.toNat % 64)] := by
  have hhead : c.toNat / 4096 % 0x10 + 0xE0 = 0xE0 + c.toNat / 4096 := by omega
  have hmid : c.toNat / 64 % 0x40 + 0x80 = 0x80 + c.toNat / 64 % 64 := by omega
  have htail : c.toNat % 0x40 + 0x80 = 0x80 + c.toNat % 64 := by omega
  rw [← hhead, ← hmid, ← htail]
  exact (if_neg (Nat.not_le_of_lt (Nat.le_trans (by decide) h₁))).trans
    ((if_neg (Nat.not_le_of_lt h₁)).trans (if_pos (Nat.le_of_lt_succ h₂)))

theorem utf8EncodeChar_four {c : Char} (h : 0x10000 ≤ c.toNat) :
    String.utf8EncodeChar c =
      [UInt8.ofNat (0xF0 + c.toNat / 262144), UInt8.ofNat (0x80 + c.toNat / 4096 % 64),
        UInt8.ofNat (0x80 + c.toNat / 64 % 64), UInt8.ofNat (0x80 + c.toNat % 64)] := by
  have hlt := lt_of_char c
  have hhead : c.toNat / 262144 % 0x08 + 0xF0 = 0xF0 + c.toNat / 262144 := by omega
  have hhigh : c.toNat / 4096 % 0x40 + 0x80 = 0x80 + c.toNat / 4096 % 64 := by omega
  have hmid : c.toNat / 64 % 0x40 + 0x80 = 0x80 + c.toNat / 64 % 64 := by omega
  have htail : c.toNat % 0x40 + 0x80 = 0x80 + c.toNat % 64 := by omega
  rw [← hhead, ← hhigh, ← hmid, ← htail]
  exact (if_neg (Nat.not_le_of_lt (Nat.le_trans (by decide) h))).trans
    ((if_neg (Nat.not_le_of_lt (Nat.le_trans (by decide) h))).trans
      (if_neg (Nat.not_le_of_lt h)))

theorem pushPair_char {c : Char} (h : 0x10000 ≤ c.toNat) :
    pushPair (0xD800 + (c.toNat - 0x10000) / 1024) (0xDC00 + (c.toNat - 0x10000) % 1024) =
      String.utf8EncodeChar c := by
  have hlt := lt_of_char c
  have hcode : 0x10000 + (((0xD800 + (c.toNat - 0x10000) / 1024) % 1024) <<< 10 |||
      (0xDC00 + (c.toNat - 0x10000) % 1024) % 1024) = c.toNat := by
    rw [shiftLeft_or 10 (by omega)]
    omega
  have hhead : 0xF0 ||| c.toNat / 262144 = 0xF0 + c.toNat / 262144 :=
    (Nat.two_pow_add_eq_or_of_lt (i := 4) (by omega) 15).symm
  rw [pushPair, and_3FF, and_3FF]
  rw [hcode, utf8EncodeChar_four h, and_3F, and_3F, and_3F, or_80 (by omega), or_80 (by omega),
    or_80 (by omega)]
  simp only [Nat.shiftRight_eq_div_pow]
  rw [hhead]

theorem textEncode_char (c : Char) (rest : JsString) :
    textEncode (utf16EncodeChar c ++ rest) = String.utf8EncodeChar c ++ textEncode rest := by
  have hlt := lt_of_char c
  have hscalar := not_surrogate c
  by_cases hbmp : c.toNat < 0x10000
  · have hunit := toNat_unit hbmp
    rw [utf16EncodeChar, if_pos hbmp, List.cons_append, List.nil_append, textEncode.eq_def]
    dsimp only
    rw [hunit]
    by_cases h₁ : c.toNat < 0x80
    · rw [if_pos h₁, utf8EncodeChar_ascii h₁]
      rfl
    · by_cases h₂ : c.toNat < 0x800
      · have hhead : 0xC0 ||| c.toNat / 64 = 0xC0 + c.toNat / 64 :=
          (Nat.two_pow_add_eq_or_of_lt (i := 6) (by omega) 3).symm
        rw [if_neg h₁, if_pos h₂, utf8EncodeChar_two (by omega) h₂, and_3F, or_80 (by omega),
          Nat.shiftRight_eq_div_pow]
        rw [hhead]
        rfl
      · have hhead : 0xE0 ||| c.toNat / 4096 = 0xE0 + c.toNat / 4096 :=
          (Nat.two_pow_add_eq_or_of_lt (i := 5) (by omega) 7).symm
        rw [if_neg h₁, if_neg h₂, if_pos (by omega), utf8EncodeChar_three (by omega) hbmp,
          and_3F, and_3F, or_80 (by omega), or_80 (by omega), Nat.shiftRight_eq_div_pow,
          Nat.shiftRight_eq_div_pow]
        rw [hhead]
        rfl
  · have hhigh := toNat_unit (n := 0xD800 + (c.toNat - 0x10000) / 1024) (by omega)
    have hlow := toNat_unit (n := 0xDC00 + (c.toNat - 0x10000) % 1024) (by omega)
    rw [utf16EncodeChar, if_neg hbmp, List.cons_append, List.cons_append, List.nil_append,
      textEncode.eq_def]
    dsimp only
    rw [hhigh, hlow, if_neg (by omega), if_neg (by omega), if_neg (by omega),
      pushPair_char (by omega)]

/-- The encoder makes UTF-8 of well-formed text. -/
theorem textEncode_utf16 (l : List Char) : textEncode (utf16 l) = utf8 l := by
  induction l with
  | nil => rfl
  | cons c l ih =>
    rw [utf16, utf8, spell, spell, List.flatMap_cons, List.flatMap_cons, textEncode_char]
    exact congrArg _ ih

/-! ## Decoding -/

theorem twoBytes_char {c : Char} (h₁ : 0x80 ≤ c.toNat) (h₂ : c.toNat < 0x800) :
    twoBytes (0xC0 + c.toNat / 64) (0x80 + c.toNat % 64) = utf16EncodeChar c := by
  have hhead : (0xC0 + c.toNat / 64) &&& 0x1F = c.toNat / 64 := by
    rw [(Nat.and_two_pow_sub_one_eq_mod _ 5 : _ &&& 0x1F = _)]
    omega
  have hcode : c.toNat / 64 * 2 ^ 6 + (0x80 + c.toNat % 64) % 64 = c.toNat := by omega
  rw [twoBytes, hhead, and_3F, shiftLeft_or 6 (by omega), hcode, utf16EncodeChar,
    if_pos (by omega)]

theorem threeBytes_char {c : Char} (h₁ : 0x800 ≤ c.toNat) (h₂ : c.toNat < 0x10000) :
    threeBytes (0xE0 + c.toNat / 4096) (0x80 + c.toNat / 64 % 64) (0x80 + c.toNat % 64) =
      utf16EncodeChar c := by
  have hhead : (0xE0 + c.toNat / 4096) &&& 0x0F = c.toNat / 4096 := by
    rw [(Nat.and_two_pow_sub_one_eq_mod _ 4 : _ &&& 0x0F = _)]
    omega
  have hcode : c.toNat / 4096 * 2 ^ 12 + ((0x80 + c.toNat / 64 % 64) % 64 * 2 ^ 6 +
      (0x80 + c.toNat % 64) % 64) = c.toNat := by omega
  rw [threeBytes, hhead, and_3F, and_3F, Nat.or_assoc, shiftLeft_or 6 (by omega),
    shiftLeft_or 12 (by omega), hcode, utf16EncodeChar, if_pos h₂]

theorem ofInt_natCast (n : Nat) : UInt16.ofInt n = UInt16.ofNat n := by
  have hmod : ((n : Int) % 2 ^ 16).toNat = n % 2 ^ 16 := by omega
  rw [← UInt16.toNat_inj, UInt16.toNat_ofNat', UInt16.ofInt, UInt16.toNat_ofNat', hmod,
    Nat.mod_mod]

theorem fourBytes_char {c : Char} (h : 0x10000 ≤ c.toNat) :
    fourBytes (0xF0 + c.toNat / 262144) (0x80 + c.toNat / 4096 % 64) (0x80 + c.toNat / 64 % 64)
      (0x80 + c.toNat % 64) = utf16EncodeChar c := by
  have hlt := lt_of_char c
  have hhead : (0xF0 + c.toNat / 262144) &&& 0x07 = c.toNat / 262144 := by
    rw [(Nat.and_two_pow_sub_one_eq_mod _ 3 : _ &&& 0x07 = _)]
    omega
  have hcode : c.toNat / 262144 * 2 ^ 18 + ((0x80 + c.toNat / 4096 % 64) % 64 * 2 ^ 12 +
      ((0x80 + c.toNat / 64 % 64) % 64 * 2 ^ 6 + (0x80 + c.toNat % 64) % 64)) = c.toNat := by
    omega
  have hhigh : (0xD800 + ((c.toNat : Int) - 0x10000) / 1024) =
      ((0xD800 + (c.toNat - 0x10000) / 1024 : Nat) : Int) := by omega
  have hlow : (0xDC00 + ((c.toNat : Int) - 0x10000) % 1024) =
      ((0xDC00 + (c.toNat - 0x10000) % 1024 : Nat) : Int) := by omega
  rw [fourBytes, hhead, and_3F, and_3F, and_3F, Nat.or_assoc, Nat.or_assoc,
    shiftLeft_or 6 (by omega), shiftLeft_or 12 (by omega), shiftLeft_or 18 (by omega), hcode,
    hhigh, hlow, ofInt_natCast, ofInt_natCast, utf16EncodeChar, if_neg (by omega)]

theorem textDecode_char (c : Char) (rest : Bytes) :
    textDecode (String.utf8EncodeChar c ++ rest) = utf16EncodeChar c ++ textDecode rest := by
  have hlt := lt_of_char c
  by_cases h₁ : c.toNat < 0x80
  · rw [utf8EncodeChar_ascii h₁, utf16EncodeChar, if_pos (by omega), List.cons_append,
      List.nil_append, textDecode.eq_def]
    dsimp only
    rw [toNat_ofNat_lt (by omega), if_pos h₁]
    rfl
  · by_cases h₂ : c.toNat < 0x800
    · rw [utf8EncodeChar_two (by omega) h₂, ← twoBytes_char (by omega) h₂]
      simp only [List.cons_append, List.nil_append]
      rw [textDecode.eq_def]
      dsimp only
      rw [toNat_ofNat_lt (by omega), toNat_ofNat_lt (by omega), if_neg (by omega),
        if_pos (by omega)]
    · by_cases h₃ : c.toNat < 0x10000
      · rw [utf8EncodeChar_three (by omega) h₃, ← threeBytes_char (by omega) h₃]
        simp only [List.cons_append, List.nil_append]
        rw [textDecode.eq_def]
        dsimp only
        rw [toNat_ofNat_lt (by omega), toNat_ofNat_lt (by omega), toNat_ofNat_lt (by omega),
          if_neg (by omega), if_neg (by omega), if_pos (by omega)]
      · rw [utf8EncodeChar_four (by omega), ← fourBytes_char (by omega)]
        simp only [List.cons_append, List.nil_append]
        rw [textDecode.eq_def]
        dsimp only
        rw [toNat_ofNat_lt (by omega), toNat_ofNat_lt (by omega), toNat_ofNat_lt (by omega),
          toNat_ofNat_lt (by omega), if_neg (by omega), if_neg (by omega), if_neg (by omega),
          if_pos (by omega)]

/-- The decoder makes UTF-16 of UTF-8. -/
theorem textDecode_utf8 (l : List Char) : textDecode (utf8 l) = utf16 l := by
  induction l with
  | nil => rfl
  | cons c l ih =>
    rw [utf16, utf8, spell, spell, List.flatMap_cons, List.flatMap_cons, textDecode_char]
    exact congrArg _ ih

/-! ## The codecs are inverse -/

/-- Well-formed UTF-8: the bytes of some characters. -/
def WellFormedUtf8 (u : Bytes) : Prop := ∃ l, u = utf8 l

/-- `atob` and the decoder of the bridge undo `btoa` on strings of bytes, and the
decoder never stores outside of its buffer; `TextEncoder` and `TextDecoder` undo each
other on well-formed texts. -/
theorem textCodecs_inverse :
    (∀ s : JsString, (∀ u ∈ s, u.toNat < 256) → atob (btoa s) = s ∧
      jsBridgeBase64Decode ((btoa s).map UInt16.toUInt8) = some (s.map UInt16.toUInt8)) ∧
    (∀ src, (jsBridgeBase64Decode src).isSome = true) ∧
    (∀ s, wellFormedUtf16 s = true → textDecode (textEncode s) = s) ∧
    ∀ u, WellFormedUtf8 u → textEncode (textDecode u) = u := by
  refine ⟨fun s hs => ⟨atob_btoa hs, jsBridgeBase64Decode_btoa hs⟩,
    jsBridgeBase64Decode_isSome, fun s hs => ?_, ?_⟩
  · obtain ⟨l, rfl⟩ := exists_utf16 hs
    rw [textEncode_utf16, textDecode_utf8]
  · rintro u ⟨l, rfl⟩
    rw [textDecode_utf8, textEncode_utf16]

theorem textCodecs_inverse_samples :
    (atob (btoa [0, 255, 65, 200]) = [0, 255, 65, 200] ∧
      jsBridgeBase64Decode ((btoa [0, 255, 65, 200]).map UInt16.toUInt8) =
        some ([0, 255, 65, 200].map UInt16.toUInt8)) ∧
    textDecode (textEncode [0x41, 0xD83D, 0xDE00]) = [0x41, 0xD83D, 0xDE00] ∧
    textEncode (textDecode [0xC3, 0xA9]) = [0xC3, 0xA9] :=
  ⟨textCodecs_inverse.1 _ (by simp), textCodecs_inverse.2.2.1 _ (by decide),
    textCodecs_inverse.2.2.2 _ ⟨['é'], by decide⟩⟩

end TinyFramework.Js
