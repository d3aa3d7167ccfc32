/-
  Js/Base64.lean --- `btoa` and `atob` of `mini_js_shim`, and
  `js_bridge_base64_decode`.

  A JavaScript string is the list of its code units.  What `btoa` and `atob` compute
  with `|`, `<<` and `>>` is below 2^24 where a result depends on it, so 32-bit words
  without a sign stand for the numbers.
-/
import Mathlib.Algebra.Group.Nat.Defs
import TinyFramework.Foundation.Ascii

set_option autoImplicit false

namespace TinyFramework.Js

open TinyFramework.Foundation

/-- The code units of a string. -/
abbrev JsString := List UInt16

/-! ## The shim -/

/-- `_b64ch`. -/
def b64ch : JsString :=
  (ascii "ABCDEFGHIJKLMNOPQRSTUVWXYZabcdefghijklmnopqrstuvwxyz0123456789+/").map
    UInt8.toUInt16

/-- `_b64ch[k & 63]`. -/
def b64char (k : UInt32) : UInt16 := (b64ch[(k &&& 63).toNat]?).getD 0

/-- `btoa`: the loop over groups of three, and what it leaves. -/
def btoa : JsString → JsString
  | a :: b :: c :: rest =>
      let n := (a.toUInt32 <<< 16) ||| (b.toUInt32 <<< 8) ||| c.toUInt32
      b64char (n >>> 18) :: b64char (n >>> 12) :: b64char (n >>> 6) :: b64char n :: btoa rest
  | [a, b] =>
      let n := (a.toUInt32 <<< 16) ||| (b.toUInt32 <<< 8)
      [b64char (n >>> 18), b64char (n >>> 12), b64char (n >>> 6), 61]
  | [a] =>
      let n := a.toUInt32 <<< 16
      [b64char (n >>> 18), b64char (n >>> 12), 61, 61]
  | [] => []

/-- What the regular expression of `atob` leaves in the string. -/
def isB64 (u : UInt16) : Bool :=
  (65 ≤ u && u ≤ 90) || (97 ≤ u && u ≤ 122) || (48 ≤ u && u ≤ 57) || u == 43 || u == 47 ||
    u == 61

/-- `lu[c]` as an operand of `<<` and `|`, where `undefined` is 0. -/
def b64value (u : UInt16) : UInt32 := UInt32.ofNat ((b64ch.idxOf? u).getD 0)

/-- `String.fromCharCode(n & 255)`. -/
def lowByteChar (n : UInt32) : UInt16 := (n &&& 255).toUInt16

/-- The loop of `atob`. -/
def atobLoop : JsString → JsString
  | a :: b :: c :: d :: rest =>
      let n := (b64value a <<< 18) ||| (b64value b <<< 12) |||
        ((if c = 61 then 0 else b64value c) <<< 6) ||| (if d = 61 then 0 else b64value d)
      lowByteChar (n >>> 16) :: ((if c ≠ 61 then [lowByteChar (n >>> 8)] else []) ++
        (if d ≠ 61 then [lowByteChar n] else []) ++ atobLoop rest)
  | _ => []

/-- `atob`. -/
def atob (s : JsString) : JsString := atobLoop (s.filter isB64)

/-! ## The decoder of the bridge -/

/-- `b64_table`. -/
def b64Table : List Int :=
  [-1, -1, -1, -1, -1, -1, -1, -1, -1, -1, -1, -1, -1, -1, -1, -1,
    -1, -1, -1, -1, -1, -1, -1, -1, -1, -1, -1, -1, -1, -1, -1, -1,
    -1, -1, -1, -1, -1, -1, -1, -1, -1, -1, -1, 62, -1, -1, -1, 63,
    52, 53, 54, 55, 56, 57, 58, 59, 60, 61, -1, -1, -1, 0, -1, -1,
    -1, 0, 1, 2, 3, 4, 5, 6, 7, 8, 9, 10, 11, 12, 13, 14,
    15, 16, 17, 18, 19, 20, 21, 22, 23, 24, 25, -1, -1, -1, -1, -1,
    -1, 26, 27, 28, 29, 30, 31, 32, 33, 34, 35, 36, 37, 38, 39, 40,
    41, 42, 43, 44, 45, 46, 47, 48, 49, 50, 51, -1, -1, -1, -1, -1] ++ List.replicate 128 (-1)

/-- The loop of `js_bridge_base64_decode`; `none` is a store outside of the buffer. -/
def b64DecodeLoop (cap : Nat) : UInt32 → Nat → Bytes → Bytes → Option Bytes
  | _, _, out, [] => some out
  | acc, bits, out, c :: src =>
      if c = 61 then some out
      else
        let val := (b64Table[c.toNat]?).getD (-1)
        if val < 0 then b64DecodeLoop cap acc bits out src
        else
          let acc := (acc <<< 6) ||| UInt32.ofInt val
          let bits := bits + 6
          if 8 ≤ bits then
            let bits := bits - 8
            if out.length < cap then
              b64DecodeLoop cap acc bits
                (out ++ [((acc >>> UInt32.ofNat bits) &&& 0xFF).toUInt8]) src
            else none
          else b64DecodeLoop cap acc bits out src

/-- The size of the buffer for `len` characters. -/
def b64Cap (len : Nat) : Nat := (len / 4 + 1) * 3 + 4

/-- `js_bridge_base64_decode`; `malloc` is taken to succeed. -/
def jsBridgeBase64Decode (src : Bytes) : Option Bytes :=
  b64DecodeLoop (b64Cap src.length) 0 0 [] src

example : btoa [77, 97] = [84, 87, 69, 61] := by decide

example : jsBridgeBase64Decode (ascii "TW\nFu") = some (ascii "Man") := by decide

/-! ## The alphabet -/

/-- The digit number `k`. -/
def digit (k : Nat) : UInt16 := (b64ch[k]?).getD 0

theorem digit_facts : ∀ k < 64, isB64 (digit k) = true ∧ digit k ≠ 61 ∧
    b64value (digit k) = UInt32.ofNat k ∧ (digit k).toUInt8 ≠ 61 ∧
    (b64Table[(digit k).toUInt8.toNat]?).getD (-1) = k := by
  decide +kernel

theorem b64char_eq (n : UInt32) : b64char n = digit (n.toNat % 64) := by
  have hmask : (n &&& 63).toNat = n.toNat % 64 := by
    rw [UInt32.toNat_and]
    exact Nat.and_two_pow_sub_one_eq_mod n.toNat 6
  rw [b64char, hmask, digit]

theorem lowByteChar_eq (n : UInt32) : lowByteChar n = UInt16.ofNat (n.toNat % 256) := by
  have hmask : (n &&& 255).toNat = n.toNat % 256 := by
    rw [UInt32.toNat_and]
    exact Nat.and_two_pow_sub_one_eq_mod n.toNat 8
  rw [lowByteChar, ← UInt16.toNat_inj, UInt32.toNat_toUInt16, hmask, UInt16.toNat_ofNat']

/-! ## Bits put together -/

/-- A shifted word with a smaller one in its free bits. -/
theorem shiftLeft_or {a b : Nat} (k : Nat) (hb : b < 2 ^ k) : a <<< k ||| b = a * 2 ^ k + b := by
  rw [← Nat.shiftLeft_add_eq_or_of_lt hb, Nat.shiftLeft_eq]

/-- What `btoa` puts together of a group of bytes. -/
theorem toNat_group {a b c : UInt16} (ha : a.toNat < 256) (hb : b.toNat < 256)
    (hc : c.toNat < 256) :
    ((a.toUInt32 <<< 16) ||| (b.toUInt32 <<< 8) ||| c.toUInt32).toNat =
      a.toNat * 65536 + b.toNat * 256 + c.toNat := by
  have h16 : a.toNat <<< 16 % 2 ^ 32 = a.toNat <<< 16 := by
    rw [Nat.shiftLeft_eq]
    omega
  have h8 : b.toNat <<< 8 % 2 ^ 32 = b.toNat <<< 8 := by
    rw [Nat.shiftLeft_eq]
    omega
  have hlow : b.toNat <<< 8 ||| c.toNat = b.toNat * 256 + c.toNat := shiftLeft_or 8 hc
  have hall : a.toNat <<< 16 ||| (b.toNat * 256 + c.toNat) =
      a.toNat * 65536 + (b.toNat * 256 + c.toNat) := shiftLeft_or 16 (by omega)
  simp only [UInt32.toNat_or, UInt32.toNat_shiftLeft, UInt16.toNat_toUInt32]
  change a.toNat <<< 16 % 2 ^ 32 ||| b.toNat <<< 8 % 2 ^ 32 ||| c.toNat = _
  rw [h16, h8, Nat.or_assoc, hlow, hall, Nat.add_assoc]

/-- What `atob` puts together of four digits. -/
theorem toNat_digits {a b c d : UInt32} (ha : a.toNat < 64) (hb : b.toNat < 64)
    (hc : c.toNat < 64) (hd : d.toNat < 64) :
    ((a <<< 18) ||| (b <<< 12) ||| (c <<< 6) ||| d).toNat =
      a.toNat * 262144 + b.toNat * 4096 + c.toNat * 64 + d.toNat := by
  have h18 : a.toNat <<< 18 % 2 ^ 32 = a.toNat <<< 18 := by
    rw [Nat.shiftLeft_eq]
    omega
  have h12 : b.toNat <<< 12 % 2 ^ 32 = b.toNat <<< 12 := by
    rw [Nat.shiftLeft_eq]
    omega
  have h6 : c.toNat <<< 6 % 2 ^ 32 = c.toNat <<< 6 := by
    rw [Nat.shiftLeft_eq]
    omega
  have hcd : c.toNat <<< 6 ||| d.toNat = c.toNat * 64 + d.toNat := shiftLeft_or 6 hd
  have hbcd : b.toNat <<< 12 ||| (c.toNat * 64 + d.toNat) =
      b.toNat * 4096 + (c.toNat * 64 + d.toNat) := shiftLeft_or 12 (by omega)
  have hall : a.toNat <<< 18 ||| (b.toNat * 4096 + (c.toNat * 64 + d.toNat)) =
      a.toNat * 262144 + (b.toNat * 4096 + (c.toNat * 64 + d.toNat)) := shiftLeft_or 18 (by omega)
  simp only [UInt32.toNat_or, UInt32.toNat_shiftLeft]
  change a.toNat <<< 18 % 2 ^ 32 ||| b.toNat <<< 12 % 2 ^ 32 ||| c.toNat <<< 6 % 2 ^ 32 |||
    d.toNat = _
  rw [h18, h12, h6, Nat.or_assoc, hcd, Nat.or_assoc, hbcd, hall]
  omega

/-- A digit pushed into the accumulator of the bridge's decoder. -/
theorem toNat_push {acc v : UInt32} (hv : v.toNat < 64) :
    ((acc <<< 6) ||| v).toNat = acc.toNat % 2 ^ 26 * 64 + v.toNat := by
  have h6 : acc.toNat <<< 6 % 2 ^ 32 = (acc.toNat % 2 ^ 26) <<< 6 := by
    rw [Nat.shiftLeft_eq, Nat.shiftLeft_eq]
    omega
  have hall : (acc.toNat % 2 ^ 26) <<< 6 ||| v.toNat = acc.toNat % 2 ^ 26 * 64 + v.toNat :=
    shiftLeft_or 6 hv
  simp only [UInt32.toNat_or, UInt32.toNat_shiftLeft]
  change acc.toNat <<< 6 % 2 ^ 32 ||| v.toNat = _
  rw [h6, hall]

theorem toNat_shiftRight {n k : UInt32} (hk : k.toNat < 32) :
    (n >>> k).toNat = n.toNat / 2 ^ k.toNat := by
  rw [UInt32.toNat_shiftRight, Nat.mod_eq_of_lt hk, Nat.shiftRight_eq_div_pow]

/-! ## Encoding -/

/-- The digits of a group of three bytes. -/
theorem b64char_group {n : UInt32} {a b c : Nat} (ha : a < 256) (hb : b < 256) (hc : c < 256)
    (hn : n.toNat = a * 65536 + b * 256 + c) :
    b64char (n >>> 18) = digit (a / 4) ∧ b64char (n >>> 12) = digit (a % 4 * 16 + b / 16) ∧
      b64char (n >>> 6) = digit (b % 16 * 4 + c / 64) ∧ b64char n = digit (c % 64) := by
  have h18 : (n >>> 18).toNat = n.toNat / 2 ^ 18 := toNat_shiftRight (by decide)
  have h12 : (n >>> 12).toNat = n.toNat / 2 ^ 12 := toNat_shiftRight (by decide)
  have h6 : (n >>> 6).toNat = n.toNat / 2 ^ 6 := toNat_shiftRight (by decide)
  simp only [b64char_eq, h18, h12, h6, hn]
  refine ⟨congrArg digit ?_, congrArg digit ?_, congrArg digit ?_, congrArg digit ?_⟩ <;> omega

theorem btoa_group {a b c : UInt16} (ha : a.toNat < 256) (hb : b.toNat < 256)
    (hc : c.toNat < 256) (rest : JsString) :
    btoa (a :: b :: c :: rest) =
      digit (a.toNat / 4) :: digit (a.toNat % 4 * 16 + b.toNat / 16) ::
        digit (b.toNat % 16 * 4 + c.toNat / 64) :: digit (c.toNat % 64) :: btoa rest := by
  obtain ⟨h₁, h₂, h₃, h₄⟩ := b64char_group ha hb hc (toNat_group ha hb hc)
  rw [btoa, h₁, h₂, h₃, h₄]

theorem btoa_two {a b : UInt16} (ha : a.toNat < 256) (hb : b.toNat < 256) :
    btoa [a, b] = [digit (a.toNat / 4), digit (a.toNat % 4 * 16 + b.toNat / 16),
      digit (b.toNat % 16 * 4), 61] := by
  have hn := toNat_group ha hb (c := 0) (by decide)
  obtain ⟨h₁, h₂, h₃, -⟩ := b64char_group ha hb (by decide) hn
  have hzero : (a.toUInt32 <<< 16) ||| (b.toUInt32 <<< 8) ||| (0 : UInt16).toUInt32 =
      (a.toUInt32 <<< 16) ||| (b.toUInt32 <<< 8) := UInt32.or_zero
  rw [hzero] at h₁ h₂ h₃
  rw [btoa, h₁, h₂, h₃]
  rfl

theorem btoa_one {a : UInt16} (ha : a.toNat < 256) :
    btoa [a] = [digit (a.toNat / 4), digit (a.toNat % 4 * 16), 61, 61] := by
  have hn := toNat_group ha (b := 0) (c := 0) (by decide) (by decide)
  obtain ⟨h₁, h₂, -, -⟩ := b64char_group ha (by decide) (by decide) hn
  have hzero : (a.toUInt32 <<< 16) ||| ((0 : UInt16).toUInt32 <<< 8) ||| (0 : UInt16).toUInt32 =
      a.toUInt32 <<< 16 := by
    change (a.toUInt32 <<< 16) ||| (0 : UInt32) ||| (0 : UInt32) = a.toUInt32 <<< 16
    rw [UInt32.or_zero, UInt32.or_zero]
  rw [hzero] at h₁ h₂
  rw [btoa, h₁, h₂]
  rfl

/-- An induction over groups of three. -/
theorem groups_induction {α : Type} {motive : List α → Prop} (nil : motive [])
    (one : ∀ a, motive [a]) (two : ∀ a b, motive [a, b])
    (group : ∀ a b c rest, motive rest → motive (a :: b :: c :: rest)) : ∀ l, motive l
  | [] => nil
  | [a] => one a
  | [a, b] => two a b
  | a :: b :: c :: rest => group a b c rest (groups_induction nil one two group rest)

/-! ## `atob` -/

theorem b64value_digit {k : Nat} (hk : k < 64) : (b64value (digit k)).toNat = k := by
  rw [(digit_facts k hk).2.2.1, UInt32.toNat_ofNat']
  omega

theorem lowByteChar_shift {n k : UInt32} (hk : k.toNat < 32) :
    lowByteChar (n >>> k) = UInt16.ofNat (n.toNat / 2 ^ k.toNat % 256) := by
  rw [lowByteChar_eq, toNat_shiftRight hk]

/-- A turn of `atob` on four characters with the values `k₁` to `k₄`. -/
theorem atobLoop_cons {a b c d : UInt16} {k₁ k₂ k₃ k₄ : Nat} (h₁ : k₁ < 64) (h₂ : k₂ < 64)
    (h₃ : k₃ < 64) (h₄ : k₄ < 64) (ha : (b64value a).toNat = k₁) (hb : (b64value b).toNat = k₂)
    (hc : (if c = 61 then 0 else b64value c).toNat = k₃)
    (hd : (if d = 61 then 0 else b64value d).toNat = k₄) (rest : JsString) :
    atobLoop (a :: b :: c :: d :: rest) =
      UInt16.ofNat (k₁ * 4 + k₂ / 16) ::
        ((if c ≠ 61 then [UInt16.ofNat (k₂ % 16 * 16 + k₃ / 4)] else []) ++
          (if d ≠ 61 then [UInt16.ofNat (k₃ % 4 * 64 + k₄)] else []) ++ atobLoop rest) := by
  have hn := toNat_digits (ha ▸ h₁) (hb ▸ h₂) (hc ▸ h₃) (hd ▸ h₄)
  rw [ha, hb, hc, hd] at hn
  rw [atobLoop]
  generalize (b64value a <<< 18) ||| (b64value b <<< 12) |||
    ((if c = 61 then 0 else b64value c) <<< 6) ||| (if d = 61 then 0 else b64value d) = n at hn
  have h16 : n.toNat / 2 ^ UInt32.toNat 16 % 256 = k₁ * 4 + k₂ / 16 := by
    simp only [UInt32.reduceToNat]
    omega
  have h8 : n.toNat / 2 ^ UInt32.toNat 8 % 256 = k₂ % 16 * 16 + k₃ / 4 := by
    simp only [UInt32.reduceToNat]
    omega
  have h0 : n.toNat % 256 = k₃ % 4 * 64 + k₄ := by omega
  rw [lowByteChar_shift (by decide), lowByteChar_shift (by decide), lowByteChar_eq, h16, h8, h0]

theorem ofNat_eq {m : Nat} {u : UInt16} (h : m = u.toNat) : UInt16.ofNat m = u :=
  h ▸ UInt16.ofNat_toNat

theorem atobLoop_btoa {s : JsString} (hs : ∀ u ∈ s, u.toNat < 256) : atobLoop (btoa s) = s := by
  have hval : ∀ k < 64, (if digit k = 61 then 0 else b64value (digit k)).toNat = k := by
    intro k hk
    rw [if_neg (digit_facts k hk).2.1]
    exact b64value_digit hk
  have hpad : (if (61 : UInt16) = 61 then 0 else b64value 61).toNat = 0 := rfl
  induction s using groups_induction with
  | nil => rfl
  | one a =>
    have ha := hs a (by simp)
    have hbyte : a.toNat / 4 * 4 + a.toNat % 4 * 16 / 16 = a.toNat := by omega
    rw [btoa_one ha, atobLoop_cons (by omega) (by omega) (by decide) (by decide)
      (b64value_digit (by omega)) (b64value_digit (by omega)) hpad hpad, ofNat_eq hbyte]
    rfl
  | two a b =>
    have ha := hs a (by simp)
    have hb := hs b (by simp)
    have hbyte : a.toNat / 4 * 4 + (a.toNat % 4 * 16 + b.toNat / 16) / 16 = a.toNat := by omega
    have hbyte' : (a.toNat % 4 * 16 + b.toNat / 16) % 16 * 16 + b.toNat % 16 * 4 / 4 =
        b.toNat := by omega
    rw [btoa_two ha hb, atobLoop_cons (by omega) (by omega) (by omega) (by decide)
      (b64value_digit (by omega)) (b64value_digit (by omega)) (hval _ (by omega)) hpad,
      if_pos (digit_facts _ (by omega)).2.1, ofNat_eq hbyte, ofNat_eq hbyte']
    rfl
  | group a b c rest ih =>
    have ha := hs a (by simp)
    have hb := hs b (by simp)
    have hc := hs c (by simp)
    have hbyte : a.toNat / 4 * 4 + (a.toNat % 4 * 16 + b.toNat / 16) / 16 = a.toNat := by omega
    have hbyte' : (a.toNat % 4 * 16 + b.toNat / 16) % 16 * 16 +
        (b.toNat % 16 * 4 + c.toNat / 64) / 4 = b.toNat := by omega
    have hbyte'' : (b.toNat % 16 * 4 + c.toNat / 64) % 4 * 64 + c.toNat % 64 = c.toNat := by
      omega
    rw [btoa_group ha hb hc, atobLoop_cons (by omega) (by omega) (by omega) (by omega)
      (b64value_digit (by omega)) (b64value_digit (by omega)) (hval _ (by omega))
      (hval _ (by omega)), if_pos (digit_facts _ (by omega)).2.1,
      if_pos (digit_facts _ (by omega)).2.1, ofNat_eq hbyte, ofNat_eq hbyte', ofNat_eq hbyte'',
      ih fun u hu => hs u (by simp [hu])]
    rfl

/-! ## The characters of an encoding -/

/-- What holds of every digit and of `=` holds of every character `btoa` writes. -/
theorem forall_mem_btoa {P : UInt16 → Prop} (hdigit : ∀ k < 64, P (digit k)) (hpad : P 61)
    {s : JsString} (hs : ∀ u ∈ s, u.toNat < 256) : ∀ u ∈ btoa s, P u := by
  induction s using groups_induction with
  | nil => simp [btoa]
  | one a =>
    have ha := hs a (by simp)
    rw [btoa_one ha]
    simp only [List.forall_mem_cons]
    exact ⟨hdigit _ (by omega), hdigit _ (by omega), hpad, hpad, by simp⟩
  | two a b =>
    have ha := hs a (by simp)
    have hb := hs b (by simp)
    rw [btoa_two ha hb]
    simp only [List.forall_mem_cons]
    exact ⟨hdigit _ (by omega), hdigit _ (by omega), hdigit _ (by omega), hpad, by simp⟩
  | group a b c rest ih =>
    have ha := hs a (by simp)
    have hb := hs b (by simp)
    have hc := hs c (by simp)
    rw [btoa_group ha hb hc]
    simp only [List.forall_mem_cons]
    exact ⟨hdigit _ (by omega), hdigit _ (by omega), hdigit _ (by omega), hdigit _ (by omega),
      ih fun u hu => hs u (by simp [hu])⟩

theorem atob_btoa {s : JsString} (hs : ∀ u ∈ s, u.toNat < 256) : atob (btoa s) = s := by
  have hkept : (btoa s).filter isB64 = btoa s :=
    List.filter_eq_self.2
      (forall_mem_btoa (P := (isB64 · = true)) (fun k hk => (digit_facts k hk).1) rfl hs)
  rw [atob, hkept, atobLoop_btoa hs]

/-! ## The decoder of the bridge -/

/-- No store of the decoder is outside a buffer with room for three bytes in every
four characters. -/
theorem b64DecodeLoop_isSome {cap : Nat} (src : Bytes) (acc : UInt32) {bits : Nat} {out : Bytes}
    (hroom : out.length * 8 + bits + src.length * 6 ≤ cap * 8) :
    (b64DecodeLoop cap acc bits out src).isSome = true := by
  induction src generalizing acc bits out with
  | nil => rfl
  | cons c src ih =>
    rw [List.length_cons] at hroom
    unfold b64DecodeLoop
    dsimp only
    split_ifs with hend hskip hbyte hstore
    · rfl
    · exact ih acc (by omega)
    · refine ih _ ?_
      rw [List.length_append, List.length_singleton]
      omega
    · omega
    · exact ih _ (by omega)

theorem jsBridgeBase64Decode_isSome (src : Bytes) : (jsBridgeBase64Decode src).isSome = true := by
  refine b64DecodeLoop_isSome src 0 ?_
  rw [List.length_nil, b64Cap]
  omega

/-- The accumulator with a digit pushed into it. -/
def push (acc : UInt32) (k : Nat) : UInt32 := (acc <<< 6) ||| UInt32.ofInt k

theorem push_toNat {acc : UInt32} {k : Nat} (hk : k < 64) :
    (push acc k).toNat = acc.toNat % 2 ^ 26 * 64 + k := by
  have hnat : (UInt32.ofInt k).toNat = k := by
    have hmod : ((k : Int) % 2 ^ 32).toNat % 2 ^ 32 = k := by omega
    simpa [UInt32.ofInt, UInt32.toNat_ofNat'] using hmod
  have hsmall : (UInt32.ofInt k).toNat < 64 := by rwa [hnat]
  have hpush : (push acc k).toNat = acc.toNat % 2 ^ 26 * 64 + (UInt32.ofInt k).toNat :=
    toNat_push hsmall
  rwa [hnat] at hpush

/-- Pushing a digit that completes no byte. -/
theorem b64DecodeLoop_push {cap bits k : Nat} (hk : k < 64) (hbits : bits < 2) (acc : UInt32)
    (out src : Bytes) :
    b64DecodeLoop cap acc bits out ((digit k).toUInt8 :: src) =
      b64DecodeLoop cap (push acc k) (bits + 6) out src := by
  obtain ⟨-, -, -, hne, hval⟩ := digit_facts k hk
  rw [b64DecodeLoop, if_neg hne, hval]
  rw [if_neg (by omega), if_neg (by omega), push]

/-- Pushing a digit that completes a byte. -/
theorem b64DecodeLoop_store {cap bits k : Nat} (hk : k < 64) (hbits : 2 ≤ bits) (acc : UInt32)
    {out : Bytes} (hroom : out.length < cap) (src : Bytes) :
    b64DecodeLoop cap acc bits out ((digit k).toUInt8 :: src) =
      b64DecodeLoop cap (push acc k) (bits - 2)
        (out ++ [((push acc k >>> UInt32.ofNat (bits - 2)) &&& 0xFF).toUInt8]) src := by
  obtain ⟨-, -, -, hne, hval⟩ := digit_facts k hk
  have hleft : bits + 6 - 8 = bits - 2 := by omega
  rw [b64DecodeLoop, if_neg hne, hval]
  rw [if_neg (by omega), if_pos (by omega)]
  dsimp only
  rw [if_pos hroom, hleft, push]

/-- The byte stored, when the accumulator has the bits of `u` above the last ones. -/
theorem stored_eq {acc : UInt32} {bits : Nat} {u : UInt16} (hbits : bits < 32)
    (hu : acc.toNat / 2 ^ bits % 256 = u.toNat) :
    ((acc >>> UInt32.ofNat bits) &&& 0xFF).toUInt8 = u.toUInt8 := by
  have hnat : (UInt32.ofNat bits).toNat = bits := by
    rw [UInt32.toNat_ofNat']
    omega
  have hmask : ((acc >>> UInt32.ofNat bits) &&& 0xFF).toNat = acc.toNat / 2 ^ bits % 256 := by
    rw [UInt32.toNat_and, toNat_shiftRight (by omega), hnat]
    exact Nat.and_two_pow_sub_one_eq_mod _ 8
  rw [← UInt8.toNat_inj, UInt32.toNat_toUInt8, hmask, hu, UInt16.toNat_toUInt8]

/-- What `btoa` makes of bytes, the decoder makes into them again. -/
theorem b64DecodeLoop_btoa {cap : Nat} {s : JsString} (hs : ∀ u ∈ s, u.toNat < 256)
    (acc : UInt32) {out : Bytes} (hroom : out.length + s.length ≤ cap) :
    b64DecodeLoop cap acc 0 out ((btoa s).map UInt16.toUInt8) =
      some (out ++ s.map UInt16.toUInt8) := by
  induction s using groups_induction generalizing acc out with
  | nil => simp [btoa, b64DecodeLoop]
  | one a =>
    have ha := hs a (by simp)
    simp only [List.length_singleton] at hroom
    simp only [btoa_one ha, List.map_cons, List.map_nil]
    rw [b64DecodeLoop_push (by omega) (by decide), b64DecodeLoop_store (by omega) (by decide) _
      (by omega), stored_eq (u := a) (by decide), b64DecodeLoop]
    · rfl
    · rw [push_toNat (by omega), push_toNat (by omega)]
      omega
  | two a b =>
    have ha := hs a (by simp)
    have hb := hs b (by simp)
    simp only [List.length_cons, List.length_nil] at hroom
    simp only [btoa_two ha hb, List.map_cons, List.map_nil]
    rw [b64DecodeLoop_push (by omega) (by decide), b64DecodeLoop_store (by omega) (by decide) _
      (by omega), stored_eq (u := a) (by decide), b64DecodeLoop_store (by omega) (by decide) _
      (by simp; omega), stored_eq (u := b) (by decide), b64DecodeLoop]
    · simp
    · rw [push_toNat (by omega), push_toNat (by omega), push_toNat (by omega)]
      omega
    · rw [push_toNat (by omega), push_toNat (by omega)]
      omega
  | group a b c rest ih =>
    have ha := hs a (by simp)
    have hb := hs b (by simp)
    have hc := hs c (by simp)
    simp only [List.length_cons] at hroom
    simp only [btoa_group ha hb hc, List.map_cons]
    rw [b64DecodeLoop_push (by omega) (by decide), b64DecodeLoop_store (by omega) (by decide) _
      (by omega), stored_eq (u := a) (by decide), b64DecodeLoop_store (by omega) (by decide) _
      (by simp; omega), stored_eq (u := b) (by decide),
      b64DecodeLoop_store (by omega) (by decide) _ (by simp; omega), stored_eq (u := c)
      (by decide)]
    · refine (ih (fun u hu => hs u (by simp [hu])) _ ?_).trans (by simp)
      simp only [List.length_append, List.length_singleton]
      omega
    · rw [push_toNat (by omega), push_toNat (by omega), push_toNat (by omega),
        push_toNat (by omega)]
      omega
    · rw [push_toNat (by omega), push_toNat (by omega), push_toNat (by omega)]
      omega
    · rw [push_toNat (by omega), push_toNat (by omega)]
      omega

theorem length_btoa (s : JsString) : (btoa s).length = (s.length + 2) / 3 * 4 := by
  induction s using groups_induction with
  | nil => rfl
  | one a => simp [btoa]
  | two a b => simp [btoa]
  | group a b c rest ih =>
    simp only [btoa, List.length_cons, ih]
    omega

theorem jsBridgeBase64Decode_btoa {s : JsString} (hs : ∀ u ∈ s, u.toNat < 256) :
    jsBridgeBase64Decode ((btoa s).map UInt16.toUInt8) = some (s.map UInt16.toUInt8) := by
  have hroom : ([] : Bytes).length + s.length ≤ b64Cap ((btoa s).map UInt16.toUInt8).length := by
    rw [List.length_map, List.length_nil, length_btoa, b64Cap]
    omega
  exact b64DecodeLoop_btoa hs 0 hroom

end TinyFramework.Js
