/-
  Vfs/Bundle.lean --- the AEAD construction and the VFS bundle of
  `mini_vfs_decrypt.c`.

  A bundle is nonce (12) ++ ciphertext (n) ++ tag (16).  Allocations are taken
  to succeed; the NULL checks of the public functions are kept, a pointer being
  an `Option`.
-/
import TinyFramework.Vfs.Poly1305

set_option autoImplicit false

namespace TinyFramework.Vfs

open TinyFramework.Foundation

/-! ## The construction -/

/-- `pad16`: the bytes, then zeros up to a multiple of 16. -/
def pad16 (d : List UInt8) : List UInt8 :=
  let rem := d.length % 16
  if rem ≠ 0 then d ++ List.replicate (16 - rem) 0 else d

/-- `for (i = 0; i < 8; i++) *cur++ = (uint8_t)(len >> (8*i))`. -/
def le64Length (len : Nat) : List UInt8 :=
  let la := UInt64.ofNat len
  (List.range 8).map fun i => (la >>> UInt64.ofNat (8 * i)).toUInt8

/-- `aead_seal`: ciphertext and tag. -/
def aeadSeal (key nonce aad inp : List UInt8) : List UInt8 × List UInt8 :=
  let block0 := chacha20Block key 0 nonce
  let ct := chacha20Xor key 1 nonce inp
  let m := pad16 aad ++ pad16 ct ++ le64Length aad.length ++ le64Length inp.length
  (ct, poly1305Mac WordArith.wrapping block0 m)

/-- `diff |= (uint8_t)(tag[i] ^ tag2[i])` over the 16 positions. -/
def tagDiff (tag tag2 : List UInt8) : UInt8 :=
  (List.range 16).foldl (fun diff i => diff ||| (tag.getD i 0 ^^^ tag2.getD i 0)) 0

/-- `aead_open`: the return code, and the plaintext when it is 0. -/
def aeadOpen (key nonce aad ct tag : List UInt8) : Int × Option (List UInt8) :=
  let block0 := chacha20Block key 0 nonce
  let m := pad16 aad ++ pad16 ct ++ le64Length aad.length ++ le64Length ct.length
  let tag2 : List UInt8 := poly1305Mac WordArith.wrapping block0 m
  if tagDiff tag tag2 ≠ 0 then (-1, none)
  else (0, some (chacha20Xor key 1 nonce ct))

/-! ## The bundle -/

/-- What the out-parameters `*out` and `*out_len` point at. -/
structure OutSlot where
  out : List UInt8
  outLen : Nat
  deriving DecidableEq, Repr

/-- `mini_vfs_encrypt`: return code and out-parameters. -/
def miniVfsEncrypt (inp key nonce : Option (List UInt8)) (aad : List UInt8)
    (slot : OutSlot) : Int × OutSlot :=
  match inp, key, nonce with
  | some inp, some key, some nonce =>
      let total := 12 + inp.length + 16
      let (ct, tag) := aeadSeal key nonce aad inp
      (0, ⟨nonce.take 12 ++ ct ++ tag, total⟩)
  | _, _, _ => (-1, slot)

/-- `mini_vfs_decrypt`: return code and out-parameters. -/
def miniVfsDecrypt (bundle key : Option (List UInt8)) (aad : List UInt8)
    (slot : OutSlot) : Int × OutSlot :=
  match bundle, key with
  | some bundle, some key =>
      if bundle.length < 12 + 16 then (-1, slot)
      else
        let ctLen := bundle.length - 12 - 16
        let nonce := bundle
        let ct := (bundle.drop 12).take ctLen
        let tag := bundle.drop (12 + ctLen)
        match aeadOpen key nonce aad ct tag with
        | (0, some pt) => (0, ⟨pt, ctLen⟩)
        | _ => (-2, slot)
  | _, _ => (-1, slot)

/-! ## The tag compare is equality -/

theorem xor_eq_zero_iff (a b : UInt8) : a ^^^ b = 0 ↔ a = b := by
  constructor
  · intro h
    calc a = a ^^^ b ^^^ b := by rw [UInt8.xor_assoc, UInt8.xor_self, UInt8.xor_zero]
      _ = b := by rw [h, UInt8.zero_xor]
  · rintro rfl
    exact UInt8.xor_self

/-- An or-accumulation is zero exactly when it starts at zero and every term is
zero. -/
theorem foldl_or_eq_zero (f : Nat → UInt8) (is : List Nat) (d : UInt8) :
    is.foldl (fun diff i => diff ||| f i) d = 0 ↔ d = 0 ∧ ∀ i ∈ is, f i = 0 := by
  induction is generalizing d with
  | nil => simp
  | cons i is ih =>
      rw [List.foldl_cons, ih, UInt8.or_eq_zero_iff]
      simp [and_assoc]

/-- The constant-time compare accepts exactly equal tags. -/
theorem tagDiff_eq_zero_iff {tag tag2 : List UInt8} (h : tag.length = 16)
    (h2 : tag2.length = 16) : tagDiff tag tag2 = 0 ↔ tag = tag2 := by
  rw [tagDiff, foldl_or_eq_zero]
  constructor
  · rintro ⟨-, hall⟩
    apply List.ext_getElem (by rw [h, h2])
    intro i hi hi2
    have hbyte := (xor_eq_zero_iff _ _).mp (hall i (List.mem_range.mpr (h ▸ hi)))
    rwa [List.getD_eq_getElem _ _ hi, List.getD_eq_getElem _ _ hi2] at hbyte
  · rintro rfl
    exact ⟨rfl, fun i _ => UInt8.xor_self⟩

/-! ## Lengths -/

theorem length_poly1305Mac (key msg : List UInt8) :
    (poly1305Mac WordArith.wrapping key msg : List UInt8).length = 16 := rfl

theorem length_aeadSeal (key nonce aad inp : List UInt8) :
    (aeadSeal key nonce aad inp).1.length = inp.length ∧
      (aeadSeal key nonce aad inp).2.length = 16 :=
  ⟨length_chacha20Xor key 1 nonce inp, length_poly1305Mac _ _⟩

/-! ## Only twelve nonce bytes are read -/

theorem le32_take (p : List UInt8) {n : Nat} (hn : 4 ≤ n) : le32 (p.take n) = le32 p := by
  have hbyte : ∀ i, i < 4 → (p.take n).getD i 0 = p.getD i 0 := by
    intro i hi
    rw [List.getD_eq_getElem?_getD, List.getElem?_take_of_lt (by omega),
      ← List.getD_eq_getElem?_getD]
  rw [le32, le32, hbyte 0 (by decide), hbyte 1 (by decide), hbyte 2 (by decide),
    hbyte 3 (by decide)]

theorem chacha20Block_take_nonce (key : List UInt8) (counter : UInt32)
    (nonce : List UInt8) :
    chacha20Block key counter (nonce.take 12) = chacha20Block key counter nonce := by
  have hword : ∀ k, k ≤ 8 → le32 ((nonce.take 12).drop k) = le32 (nonce.drop k) := by
    intro k hk
    rw [List.drop_take, le32_take _ (by omega)]
  have hinit : chachaInit key counter (nonce.take 12) = chachaInit key counter nonce := by
    simp only [chachaInit, le32_take nonce (by decide : 4 ≤ 12), hword 4 (by decide),
      hword 8 (by decide)]
  simp only [chacha20Block, hinit]

theorem chacha20Xor_take_nonce (key : List UInt8) (counter : UInt32)
    (nonce inp : List UInt8) :
    chacha20Xor key counter (nonce.take 12) inp = chacha20Xor key counter nonce inp := by
  fun_induction chacha20Xor key counter nonce inp with
  | case1 => simp [chacha20Xor]
  | case2 counter inp hne blk m ih =>
      rw [chacha20Xor, dif_neg hne, chacha20Block_take_nonce]
      exact congrArg _ ih

theorem aeadSeal_take_nonce (key nonce aad inp : List UInt8) :
    aeadSeal key (nonce.take 12) aad inp = aeadSeal key nonce aad inp := by
  simp only [aeadSeal, chacha20Block_take_nonce, chacha20Xor_take_nonce]

/-! ## Open inverts seal -/

/-- `aead_open` accepts exactly what `aead_seal` produces, and returns what was
sealed. -/
theorem aeadOpen_eq_iff {key nonce aad ct tag pt : List UInt8} (htag : tag.length = 16) :
    aeadOpen key nonce aad ct tag = (0, some pt) ↔
      aeadSeal key nonce aad pt = (ct, tag) := by
  have hmac := tagDiff_eq_zero_iff htag (length_poly1305Mac (chacha20Block key 0 nonce)
    (pad16 aad ++ pad16 ct ++ le64Length aad.length ++ le64Length ct.length))
  constructor
  · intro h
    simp only [aeadOpen] at h
    split at h
    · cases h
    · rename_i hdiff
      have hpt : chacha20Xor key 1 nonce ct = pt := by simpa using h
      have hct : chacha20Xor key 1 nonce pt = ct := by
        rw [← hpt, chacha20Xor_involutive]
      have hlen : pt.length = ct.length := by rw [← hpt, length_chacha20Xor]
      rw [aeadSeal, hct, hlen, hmac.mp (not_not.mp hdiff)]
  · intro h
    obtain ⟨hct, hsealed⟩ := Prod.mk.inj h
    have hlen : ct.length = pt.length := by rw [← hct, length_chacha20Xor]
    rw [hct, ← hlen] at hsealed
    rw [aeadOpen, if_neg (not_not.mpr (hmac.mpr hsealed.symm)), ← hct,
      chacha20Xor_involutive]

/-- `aead_open` returns either 0 with a plaintext or -1. -/
theorem aeadOpen_cases (key nonce aad ct tag : List UInt8) :
    (∃ pt, aeadOpen key nonce aad ct tag = (0, some pt)) ∨
      aeadOpen key nonce aad ct tag = (-1, none) := by
  simp only [aeadOpen]
  split
  · exact .inr rfl
  · exact .inl ⟨_, rfl⟩

/-! ## The bundle layout -/

/-- A bundle of at least 28 bytes, cut as `mini_vfs_decrypt` cuts it. -/
theorem bundle_split {bundle : List UInt8} (h : 28 ≤ bundle.length) :
    bundle = bundle.take 12 ++ (bundle.drop 12).take (bundle.length - 12 - 16) ++
        bundle.drop (12 + (bundle.length - 12 - 16)) ∧
      ((bundle.drop 12).take (bundle.length - 12 - 16)).length = bundle.length - 12 - 16 ∧
      (bundle.drop (12 + (bundle.length - 12 - 16))).length = 16 := by
  refine ⟨?_, ?_, ?_⟩
  · rw [← List.drop_drop, List.append_assoc, List.take_append_drop, List.take_append_drop]
  · rw [List.length_take, List.length_drop]
    omega
  · rw [List.length_drop]
    omega

/-- `mini_vfs_encrypt` writes `bundle` exactly when sealing gives its ciphertext
and tag. -/
theorem miniVfsEncrypt_eq_iff {bundle key aad pt : List UInt8} {slot : OutSlot}
    (h : 28 ≤ bundle.length) :
    miniVfsEncrypt (some pt) (some key) (some (bundle.take 12)) aad slot =
        (0, ⟨bundle, bundle.length⟩) ↔
      aeadSeal key bundle aad pt =
        ((bundle.drop 12).take (bundle.length - 12 - 16),
          bundle.drop (12 + (bundle.length - 12 - 16))) := by
  obtain ⟨hsplit, hctLen, htagLen⟩ := bundle_split h
  obtain ⟨hsealCt, hsealTag⟩ := length_aeadSeal key bundle aad pt
  simp only [miniVfsEncrypt, aeadSeal_take_nonce, List.take_take, Nat.min_self]
  constructor
  · intro hrun
    obtain ⟨hbytes, hlen⟩ : (bundle.take 12 ++ (aeadSeal key bundle aad pt).1 ++
        (aeadSeal key bundle aad pt).2 = bundle) ∧ 12 + pt.length + 16 = bundle.length := by
      simpa using hrun
    rw [List.append_assoc] at hbytes hsplit
    have htail := List.append_cancel_left (hbytes.trans hsplit)
    obtain ⟨hct, htag⟩ := List.append_inj htail (by rw [hsealCt, hctLen]; omega)
    exact Prod.ext hct htag
  · intro hseal
    rw [hseal] at hsealCt ⊢
    simp only at hsealCt ⊢
    have hlen : 12 + pt.length + 16 = bundle.length := by omega
    rw [← hsplit, hlen]

/-- `mini_vfs_encrypt` never writes fewer than 28 bytes. -/
theorem le_length_of_miniVfsEncrypt {bundle key aad pt : List UInt8} {slot : OutSlot}
    (h : miniVfsEncrypt (some pt) (some key) (some (bundle.take 12)) aad slot =
      (0, ⟨bundle, bundle.length⟩)) : 28 ≤ bundle.length := by
  have hlen : 12 + pt.length + 16 = bundle.length := by
    simpa [miniVfsEncrypt] using congrArg (fun r => r.2.outLen) h
  omega

/-- The run of `mini_vfs_decrypt` on a bundle that is long enough. -/
theorem miniVfsDecrypt_of_le {bundle : List UInt8} (h : 28 ≤ bundle.length)
    (key aad : List UInt8) (slot : OutSlot) :
    miniVfsDecrypt (some bundle) (some key) aad slot =
      match aeadOpen key bundle aad ((bundle.drop 12).take (bundle.length - 12 - 16))
        (bundle.drop (12 + (bundle.length - 12 - 16))) with
      | (0, some pt) => (0, ⟨pt, bundle.length - 12 - 16⟩)
      | _ => (-2, slot) := by
  rw [miniVfsDecrypt, if_neg (by omega)]

/-- On a bundle that is long enough, `mini_vfs_decrypt` returns 0 exactly when
the bundle opens. -/
theorem miniVfsDecrypt_eq_zero_iff {bundle key aad pt : List UInt8} {slot : OutSlot}
    (h : 28 ≤ bundle.length) :
    miniVfsDecrypt (some bundle) (some key) aad slot = (0, ⟨pt, pt.length⟩) ↔
      aeadOpen key bundle aad ((bundle.drop 12).take (bundle.length - 12 - 16))
        (bundle.drop (12 + (bundle.length - 12 - 16))) = (0, some pt) := by
  obtain ⟨-, hctLen, htagLen⟩ := bundle_split h
  rw [miniVfsDecrypt_of_le h]
  rcases aeadOpen_cases key bundle aad ((bundle.drop 12).take (bundle.length - 12 - 16))
    (bundle.drop (12 + (bundle.length - 12 - 16))) with ⟨pt', hopen⟩ | hopen
  · -- the length written is that of the plaintext
    have hpt : pt'.length = bundle.length - 12 - 16 := by
      have hseal := (aeadOpen_eq_iff htagLen).mp hopen
      have hlen := (length_aeadSeal key bundle aad pt').1
      rw [hseal, hctLen] at hlen
      exact hlen.symm
    rw [hopen]
    simp only [Prod.mk.injEq, true_and, OutSlot.mk.injEq, Option.some.injEq]
    constructor
    · exact fun heq => heq.1
    · rintro rfl
      exact ⟨rfl, hpt.symm⟩
  · rw [hopen]
    simp

/-- `mini_vfs_decrypt` accepts exactly the image of `mini_vfs_encrypt`: it
returns 0 with plaintext `pt` if and only if the bundle is what
`mini_vfs_encrypt` writes for `pt` under the same key and additional data and the
bundle's own nonce.  Otherwise a bundle shorter than 28 bytes gives -1 and any
other one -2, and `*out` and `*out_len` keep what they held. -/
theorem miniVfsDecrypt_iff_miniVfsEncrypt (key : Vector UInt8 32)
    (aad bundle : List UInt8) (slot : OutSlot) :
    (∀ pt, miniVfsDecrypt (some bundle) (some key.toList) aad slot = (0, ⟨pt, pt.length⟩) ↔
      miniVfsEncrypt (some pt) (some key.toList) (some (bundle.take 12)) aad slot =
        (0, ⟨bundle, bundle.length⟩)) ∧
    ((∃ pt, miniVfsDecrypt (some bundle) (some key.toList) aad slot = (0, ⟨pt, pt.length⟩)) ∨
      (bundle.length < 28 ∧
        miniVfsDecrypt (some bundle) (some key.toList) aad slot = (-1, slot)) ∨
      (28 ≤ bundle.length ∧
        miniVfsDecrypt (some bundle) (some key.toList) aad slot = (-2, slot))) := by
  by_cases hlen : 28 ≤ bundle.length
  · obtain ⟨-, -, htagLen⟩ := bundle_split hlen
    refine ⟨fun pt => ?_, ?_⟩
    · rw [miniVfsEncrypt_eq_iff hlen, ← aeadOpen_eq_iff htagLen, miniVfsDecrypt_eq_zero_iff hlen]
    · rcases aeadOpen_cases key.toList bundle aad
        ((bundle.drop 12).take (bundle.length - 12 - 16))
        (bundle.drop (12 + (bundle.length - 12 - 16))) with ⟨pt, hopen⟩ | hopen
      · exact .inl ⟨pt, (miniVfsDecrypt_eq_zero_iff hlen).mpr hopen⟩
      · exact .inr (.inr ⟨hlen, by simp [miniVfsDecrypt_of_le hlen, hopen]⟩)
  · have hshort : miniVfsDecrypt (some bundle) (some key.toList) aad slot = (-1, slot) := by
      rw [miniVfsDecrypt, if_pos (by omega)]
    refine ⟨fun pt => ⟨?_, fun h => absurd (le_length_of_miniVfsEncrypt h) hlen⟩,
      .inr (.inl ⟨by omega, hshort⟩)⟩
    intro h
    rw [hshort] at h
    simp at h

end TinyFramework.Vfs
