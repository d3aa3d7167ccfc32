/-
  Vfs/Poly1305Correct.lean --- `poly1305_mac` computes the RFC 8439 tag.

  The specification is a polynomial over `Nat`; the limb code meets it through
  one invariant, `Carried`: after every block four limbs are below 2^26 and `h1`
  is at most 2^26.  Each stage has one `Exact` lemma, so a single chain of lemmas
  yields both that no checked operation wraps and what the result is.
-/
import Mathlib.Data.Nat.ModEq
import Mathlib.Tactic.IntervalCases
import TinyFramework.Vfs.Poly1305

set_option autoImplicit false

namespace TinyFramework.Vfs

open TinyFramework.Foundation
open TinyFramework.Foundation.WordArith

/-! ## The specification -/

/-- The prime 2^130 - 5. -/
def poly1305P : Nat := 2 ^ 130 - 5

/-- RFC 8439 clamping of the 16 bytes of `r`: the top four bits of bytes 3, 7,
11, 15 and the bottom two bits of bytes 4, 8, 12 are cleared. -/
def clampByte (i : Nat) (b : UInt8) : UInt8 :=
  if i = 3 ∨ i = 7 ∨ i = 11 ∨ i = 15 then b &&& 15
  else if i = 4 ∨ i = 8 ∨ i = 12 then b &&& 252
  else b

/-- `r`, the clamped first half of the key. -/
def rfcR (key : List UInt8) : Nat :=
  leValue ((key.take 16).mapIdx clampByte)

/-- `s`, the second half of the key. -/
def rfcS (key : List UInt8) : Nat :=
  leValue ((key.drop 16).take 16)

/-- A block of the message with the bit above its last byte set. -/
def rfcBlock (blk : List UInt8) : Nat :=
  leValue blk + 2 ^ (8 * blk.length)

/-- The message cut into 16-byte blocks, the last one possibly shorter. -/
def rfcBlocks (msg : List UInt8) : List (List UInt8) :=
  if _hempty : msg = [] then [] else msg.take 16 :: rfcBlocks (msg.drop 16)
termination_by msg.length
decreasing_by
  have : 0 < msg.length := List.length_pos_iff.mpr _hempty
  simp only [List.length_drop]
  omega

/-- The sum over the blocks of `(block + 2^(8*len)) * r^k`, the first block with
the highest power and the last with `k = 1`. -/
def rfcSum (r : Nat) : List (List UInt8) → Nat
  | [] => 0
  | blk :: rest => rfcBlock blk * r ^ (rest.length + 1) + rfcSum r rest

/-- The residue modulo 2^130 - 5 to which the pad is added. -/
def rfcResidue (key msg : List UInt8) : Nat :=
  rfcSum (rfcR key) (rfcBlocks msg) % poly1305P

/-- The RFC 8439 tag. -/
def rfcTag (key msg : List UInt8) : List UInt8 :=
  leBytes 16 ((rfcResidue key msg + rfcS key) % 2 ^ 128)

/-! ## Words and bytes -/

theorem le32_toNat (p : List UInt8) :
    (le32 p).toNat = (p.getD 0 0).toNat + 2 ^ 8 * (p.getD 1 0).toNat +
      2 ^ 16 * (p.getD 2 0).toNat + 2 ^ 24 * (p.getD 3 0).toNat := by
  have h0 := (p.getD 0 0).toNat_lt
  have h1 := (p.getD 1 0).toNat_lt
  have h2 := (p.getD 2 0).toNat_lt
  have h3 := (p.getD 3 0).toNat_lt
  have hshift : ∀ (b : UInt8) (k : UInt32), k.toNat ≤ 24 →
      (b.toUInt32 <<< k).toNat = b.toNat * 2 ^ k.toNat := by
    intro b k hk
    have hb := b.toNat_lt
    have hpow : 2 ^ k.toNat ≤ 2 ^ 24 := Nat.pow_le_pow_right (by decide) hk
    have hlt : b.toNat * 2 ^ k.toNat < 2 ^ 32 :=
      lt_of_lt_of_le (Nat.mul_lt_mul_of_lt_of_le hb hpow (by decide)) (by decide)
    rw [UInt32.toNat_shiftLeft, Nat.mod_eq_of_lt (show k.toNat < 32 by omega),
      UInt8.toNat_toUInt32, Nat.shiftLeft_eq, Nat.mod_eq_of_lt hlt]
  have e8 := hshift (p.getD 1 0) 8 (by decide)
  have e16 := hshift (p.getD 2 0) 16 (by decide)
  have e24 := hshift (p.getD 3 0) 24 (by decide)
  simp only [show (8 : UInt32).toNat = 8 from rfl, show (16 : UInt32).toNat = 16 from rfl,
    show (24 : UInt32).toNat = 24 from rfl] at e8 e16 e24
  rw [le32, UInt32.toNat_or, UInt32.toNat_or, UInt32.toNat_or, e8, e16, e24,
    UInt8.toNat_toUInt32, lor_high (i := 8) _ h0, lor_high (i := 16) _ (by omega),
    lor_high (i := 24) _ (by omega)]
  ring

/-- Four bytes of a string are one word of its value. -/
theorem leValue_eq_le32 (p : List UInt8) :
    leValue p = (le32 p).toNat + 2 ^ 32 * leValue (p.drop 4) := by
  rw [le32_toNat]
  match p with
  | [] => rfl
  | [_] => simp
  | [_, _] => simp
  | [_, _, _] => simp; ring
  | _ :: _ :: _ :: _ :: _ => simp; ring

theorem le32s_eq_leBytes (v : UInt32) : le32s v = leBytes 4 v.toNat := by
  have hbyte : ∀ k : UInt32, k.toNat < 32 →
      (v >>> k).toUInt8 = UInt8.ofNat (v.toNat / 2 ^ k.toNat) := by
    intro k hk
    apply UInt8.toNat_inj.mp
    rw [UInt32.toNat_toUInt8, UInt32.toNat_shiftRight, Nat.mod_eq_of_lt hk,
      Nat.shiftRight_eq_div_pow, UInt8.toNat_ofNat']
  have h8 := hbyte 8 (by decide)
  have h16 := hbyte 16 (by decide)
  have h24 := hbyte 24 (by decide)
  simp only [show (8 : UInt32).toNat = 8 from rfl, show (16 : UInt32).toNat = 16 from rfl,
    show (24 : UInt32).toNat = 24 from rfl] at h8 h16 h24
  rw [le32s, h8, h16, h24]
  simp only [leBytes, Nat.div_div_eq_div_mul]
  rfl

/-! ## Limb arithmetic over `Nat` -/

theorem shr26_toNat (x : UInt32) : (x >>> 26).toNat = x.toNat / 2 ^ 26 := by
  rw [UInt32.toNat_shiftRight, Nat.shiftRight_eq_div_pow]
  rfl

theorem shr26_toNat64 (x : UInt64) : (x >>> 26).toNat = x.toNat / 2 ^ 26 := by
  rw [UInt64.toNat_shiftRight, Nat.shiftRight_eq_div_pow]
  rfl

theorem limbMask_toNat (x : UInt32) : (x &&& limbMask).toNat = x.toNat % 2 ^ 26 := by
  rw [UInt32.toNat_and, ← Nat.and_two_pow_sub_one_eq_mod]
  rfl

theorem limbMask_toNat64 (x : UInt64) : (x &&& 0x3ffffff).toNat = x.toNat % 2 ^ 26 := by
  rw [UInt64.toNat_and, ← Nat.and_two_pow_sub_one_eq_mod]
  rfl

/-- Every limb is below 2^26 and the value therefore below 2^130. -/
structure Limbs.Reduced (h : Limbs) : Prop where
  l0 : h.l0.toNat < 2 ^ 26
  l1 : h.l1.toNat < 2 ^ 26
  l2 : h.l2.toNat < 2 ^ 26
  l3 : h.l3.toNat < 2 ^ 26
  l4 : h.l4.toNat < 2 ^ 26

/-- The invariant of the block loop: only `h1` may keep one unit of carry. -/
structure Limbs.Carried (h : Limbs) : Prop where
  l0 : h.l0.toNat < 2 ^ 26
  l1 : h.l1.toNat ≤ 2 ^ 26
  l2 : h.l2.toNat < 2 ^ 26
  l3 : h.l3.toNat < 2 ^ 26
  l4 : h.l4.toNat < 2 ^ 26

theorem Limbs.carried_zero : Limbs.zero.Carried := by
  constructor <;> decide

/-! ## The clamped key -/

theorem clampByte_zero (i : Nat) : clampByte i 0 = 0 := by
  unfold clampByte
  split
  · rfl
  · split <;> rfl

theorem and15_toNat (b : UInt8) : (b &&& 15).toNat = b.toNat % 16 := by
  rw [UInt8.toNat_and]
  exact Nat.and_two_pow_sub_one_eq_mod b.toNat 4

theorem and252_toNat (b : UInt8) : (b &&& 252).toNat = b.toNat / 4 * 4 := by
  have hb := b.toNat_lt
  rw [UInt8.toNat_and, show (252 : UInt8).toNat = (2 ^ 6 - 1) <<< 2 from rfl, land_field]
  omega

/-- The clamped `r`, byte by byte. -/
theorem rfcR_eq (key : List UInt8) (b : Nat → Nat)
    (hb : ∀ i, b i = (key.getD i 0).toNat) :
    rfcR key = b 0 + 2 ^ 8 * b 1 + 2 ^ 16 * b 2 + 2 ^ 24 * (b 3 % 16) +
      2 ^ 32 * (b 4 / 4 * 4) + 2 ^ 40 * b 5 + 2 ^ 48 * b 6 + 2 ^ 56 * (b 7 % 16) +
      2 ^ 64 * (b 8 / 4 * 4) + 2 ^ 72 * b 9 + 2 ^ 80 * b 10 + 2 ^ 88 * (b 11 % 16) +
      2 ^ 96 * (b 12 / 4 * 4) + 2 ^ 104 * b 13 + 2 ^ 112 * b 14 + 2 ^ 120 * (b 15 % 16) := by
  rw [rfcR, leValue_take_mapIdx 16 clampByte clampByte_zero]
  simp only [Finset.sum_range_succ, Finset.sum_range_zero, clampByte]
  simp only [hb, Nat.reduceEqDiff, or_true, or_false, or_self, if_true, if_false,
    and15_toNat, and252_toNat]
  ring

theorem shr_toNat (x k : UInt32) (hk : k.toNat < 32) :
    (x >>> k).toNat = x.toNat / 2 ^ k.toNat := by
  rw [UInt32.toNat_shiftRight, Nat.mod_eq_of_lt hk, Nat.shiftRight_eq_div_pow]

/-- The five limbs of `r` denote the clamped number, and clamping keeps `r4`
below 2^20. -/
theorem clampLimbs_spec (key : List UInt8) :
    (clampLimbs key).value = rfcR key ∧ (clampLimbs key).Reduced ∧
      (clampLimbs key).l4.toNat < 2 ^ 20 := by
  obtain ⟨b, hb⟩ : ∃ b : Nat → Nat, ∀ i, b i = (key.getD i 0).toNat := ⟨_, fun _ => rfl⟩
  have hlt : ∀ i, b i < 2 ^ 8 := fun i => by rw [hb]; exact (key.getD i 0).toNat_lt
  have hword : ∀ k, (le32 (key.drop k)).toNat =
      b k + 2 ^ 8 * b (k + 1) + 2 ^ 16 * b (k + 2) + 2 ^ 24 * b (k + 3) := by
    intro k
    simp only [le32_toNat, hb, List.getD_eq_getElem?_getD, List.getElem?_drop, Nat.add_zero]
  have e0 : (clampLimbs key).l0.toNat =
      b 0 + 2 ^ 8 * b 1 + 2 ^ 16 * b 2 + 2 ^ 24 * (b 3 % 4) := by
    have h : (le32 key).toNat = b 0 + 2 ^ 8 * b 1 + 2 ^ 16 * b 2 + 2 ^ 24 * b 3 := hword 0
    have := hlt 0; have := hlt 1; have := hlt 2; have := hlt 3
    rw [clampLimbs, UInt32.toNat_and, show (0x03ffffff : UInt32).toNat = 2 ^ 26 - 1 from rfl,
      Nat.and_two_pow_sub_one_eq_mod, h]
    omega
  have e1 : (clampLimbs key).l1.toNat =
      b 3 % 16 / 4 + 2 ^ 8 * (b 4 / 4) + 2 ^ 14 * b 5 + 2 ^ 22 * (b 6 % 16) := by
    have := hlt 3; have := hlt 4; have := hlt 5; have := hlt 6
    rw [clampLimbs, UInt32.toNat_and, shr_toNat _ _ (by decide), show (le32 (key.drop 3)).toNat = b 3 + 2 ^ 8 * b 4 + 2 ^ 16 * b 5 +
        2 ^ 24 * b 6 from hword 3,
      show (0x03ffff03 : UInt32).toNat = 2 ^ 2 - 1 ||| (2 ^ 18 - 1) <<< 8 from rfl,
      land_two_fields _ _ (by decide), show (2 : UInt32).toNat = 2 from rfl]
    omega
  have e2 : (clampLimbs key).l2.toNat =
      b 6 / 16 + 2 ^ 4 * (b 7 % 16) + 2 ^ 14 * (b 8 / 4) + 2 ^ 20 * (b 9 % 64) := by
    have := hlt 6; have := hlt 7; have := hlt 8; have := hlt 9
    rw [clampLimbs, UInt32.toNat_and, shr_toNat _ _ (by decide), show (le32 (key.drop 6)).toNat = b 6 + 2 ^ 8 * b 7 + 2 ^ 16 * b 8 +
        2 ^ 24 * b 9 from hword 6,
      show (0x03ffc0ff : UInt32).toNat = 2 ^ 8 - 1 ||| (2 ^ 12 - 1) <<< 14 from rfl,
      land_two_fields _ _ (by decide), show (4 : UInt32).toNat = 4 from rfl]
    omega
  have e3 : (clampLimbs key).l3.toNat =
      b 9 / 64 + 2 ^ 2 * b 10 + 2 ^ 10 * (b 11 % 16) + 2 ^ 20 * (b 12 / 4) := by
    have := hlt 9; have := hlt 10; have := hlt 11; have := hlt 12
    rw [clampLimbs, UInt32.toNat_and, shr_toNat _ _ (by decide), show (le32 (key.drop 9)).toNat = b 9 + 2 ^ 8 * b 10 + 2 ^ 16 * b 11 +
        2 ^ 24 * b 12 from hword 9,
      show (0x03f03fff : UInt32).toNat = 2 ^ 14 - 1 ||| (2 ^ 6 - 1) <<< 20 from rfl,
      land_two_fields _ _ (by decide), show (6 : UInt32).toNat = 6 from rfl]
    omega
  have e4 : (clampLimbs key).l4.toNat = b 13 + 2 ^ 8 * b 14 + 2 ^ 16 * (b 15 % 16) := by
    have := hlt 12; have := hlt 13; have := hlt 14; have := hlt 15
    rw [clampLimbs, UInt32.toNat_and, shr_toNat _ _ (by decide), show (le32 (key.drop 12)).toNat = b 12 + 2 ^ 8 * b 13 + 2 ^ 16 * b 14 +
        2 ^ 24 * b 15 from hword 12,
      show (0x00fffff : UInt32).toNat = 2 ^ 20 - 1 from rfl,
      Nat.and_two_pow_sub_one_eq_mod, show (8 : UInt32).toNat = 8 from rfl]
    omega
  refine ⟨?_, ⟨?_, ?_, ?_, ?_, ?_⟩, ?_⟩
  · have hb3 : b 3 % 16 = b 3 % 4 + 4 * (b 3 % 16 / 4) := by omega
    have hb6 : b 6 = b 6 % 16 + 16 * (b 6 / 16) := by omega
    have hb9 : b 9 = b 9 % 64 + 64 * (b 9 / 64) := by omega
    rw [Limbs.value, e0, e1, e2, e3, e4, rfcR_eq key b hb]
    omega
  · have := hlt 0; have := hlt 1; have := hlt 2; omega
  · have := hlt 4; have := hlt 5; omega
  · have := hlt 6; have := hlt 8; omega
  · have := hlt 9; have := hlt 10; have := hlt 12; omega
  · have := hlt 13; have := hlt 14; omega
  · have := hlt 13; have := hlt 14; omega

/-! ## Loading a block -/

/-- A limb cut across two words: the high bits of `lo` below the low bits of
`hi`. -/
theorem joinWords_toNat (lo hi u : UInt32) (k : UInt32) (j : Nat) (hk : k.toNat < 32)
    (hj : 32 - k.toNat = j) (hj26 : j ≤ 26)
    (hu : u.toNat = hi.toNat * 2 ^ j % 2 ^ 32) :
    ((lo >>> k ||| u) &&& limbMask).toNat =
      lo.toNat / 2 ^ k.toNat + 2 ^ j * (hi.toNat % 2 ^ (26 - j)) := by
  have hlo : lo.toNat / 2 ^ k.toNat < 2 ^ j := by
    apply Nat.div_lt_of_lt_mul
    rw [← Nat.pow_add, show k.toNat + j = 32 by omega]
    exact lo.toNat_lt
  have hhi : hi.toNat * 2 ^ j % 2 ^ 32 = hi.toNat % 2 ^ k.toNat * 2 ^ j := by
    rw [show (2 : Nat) ^ 32 = 2 ^ k.toNat * 2 ^ j by rw [← Nat.pow_add]; congr 1; omega,
      Nat.mul_mod_mul_right]
  have hsplit : (2 : Nat) ^ 26 = 2 ^ j * 2 ^ (26 - j) := by
    rw [← Nat.pow_add]; congr 1; omega
  have hdvd : 2 ^ (26 - j) ∣ 2 ^ k.toNat := Nat.pow_dvd_pow 2 (by omega)
  rw [limbMask_toNat, UInt32.toNat_or, shr_toNat _ _ hk, hu, hhi, lor_high _ hlo, hsplit,
    Nat.mod_mul, Nat.add_mul_mod_self_right, Nat.mod_eq_of_lt hlo,
    Nat.add_mul_div_right _ _ (Nat.two_pow_pos j), Nat.div_eq_of_lt hlo, Nat.zero_add,
    Nat.mod_mod_of_dvd _ hdvd]

theorem loadLimbs_exact (buf : List UInt8) (hbuf : buf.length = 16) :
    Exact (loadLimbs checked buf) (loadLimbs wrapping buf)
      (fun nn => nn.value = leValue buf ∧ nn.Reduced ∧ nn.l4.toNat < 2 ^ 24) := by
  have hvalue : leValue buf = (le32 buf).toNat + 2 ^ 32 * (le32 (buf.drop 4)).toNat +
      2 ^ 64 * (le32 (buf.drop 8)).toNat + 2 ^ 96 * (le32 (buf.drop 12)).toNat := by
    have hend : buf.drop 16 = [] := List.drop_eq_nil_of_le (by omega)
    rw [leValue_eq_le32, leValue_eq_le32 (buf.drop 4), leValue_eq_le32 ((buf.drop 4).drop 4),
      leValue_eq_le32 (((buf.drop 4).drop 4).drop 4)]
    simp only [List.drop_drop, Nat.reduceAdd, hend, leValue_nil]
    ring
  have h0 := (le32 buf).toNat_lt
  have h1 := (le32 (buf.drop 4)).toNat_lt
  have h2 := (le32 (buf.drop 8)).toNat_lt
  have h3 := (le32 (buf.drop 12)).toNat_lt
  rw [hvalue]
  unfold loadLimbs
  refine (exact_shl32 (by decide)).bind fun u1 hu1 => ?_
  refine (exact_shl32 (by decide)).bind fun u2 hu2 => ?_
  refine (exact_shl32 (by decide)).bind fun u3 hu3 => Exact.pure ?_
  have e1 := joinWords_toNat (le32 buf) _ u1 26 6 (by decide) (by decide) (by decide) hu1
  have e2 := joinWords_toNat (le32 (buf.drop 4)) _ u2 20 12 (by decide) (by decide) (by decide) hu2
  have e3 := joinWords_toNat (le32 (buf.drop 8)) _ u3 14 18 (by decide) (by decide) (by decide) hu3
  have e4 := shr_toNat (le32 (buf.drop 12)) 8 (by decide)
  simp only [show (26 : UInt32).toNat = 26 from rfl, show (20 : UInt32).toNat = 20 from rfl,
    show (14 : UInt32).toNat = 14 from rfl, show (8 : UInt32).toNat = 8 from rfl] at e1 e2 e3 e4
  refine ⟨?_, ⟨?_, ?_, ?_, ?_, ?_⟩, ?_⟩
  · simp only [Limbs.value, e1, e2, e3, e4, limbMask_toNat]
    omega
  · simp only [limbMask_toNat]
    omega
  · simp only [e1]
    omega
  · simp only [e2]
    omega
  · simp only [e3]
    omega
  · simp only [e4]
    omega
  · simp only [e4]
    omega

/-- The padding bit lands just above the bytes of the block, whichever limb that
is in. -/
theorem placePadBit_spec (nn : Limbs) (bs : Nat) (hpos : 0 < bs) (hbs : bs ≤ 16)
    (hnn : nn.Reduced) (h4 : nn.l4.toNat < 2 ^ 24) (hvalue : nn.value < 2 ^ (8 * bs)) :
    (placePadBit nn bs).value = nn.value + 2 ^ (8 * bs) ∧ (placePadBit nn bs).Reduced := by
  obtain ⟨n0, n1, n2, n3, n4⟩ := nn
  obtain ⟨h0, h1, h2, h3, h4'⟩ := hnn
  simp only [Limbs.value] at h0 h1 h2 h3 h4 h4' hvalue ⊢
  have hor : ∀ (x : UInt32) (k : Nat), k < 26 → x.toNat < 2 ^ k →
      (x ||| (1 <<< UInt32.ofNat k)).toNat = x.toNat + 2 ^ k := by
    intro x k hk hx
    have hof : (UInt32.ofNat k).toNat = k :=
      UInt32.toNat_ofNat_of_lt' (lt_trans hk (by decide))
    have hone : ((1 : UInt32) <<< UInt32.ofNat k).toNat = 1 * 2 ^ k := by
      have hlt : 2 ^ k < 2 ^ 32 := Nat.pow_lt_pow_right (by decide) (by omega)
      rw [UInt32.toNat_shiftLeft, hof, Nat.mod_eq_of_lt (by omega : k < 32), Nat.shiftLeft_eq,
        show (1 : UInt32).toNat = 1 from rfl, Nat.one_mul, Nat.mod_eq_of_lt hlt]
    rw [UInt32.toNat_or, hone, lor_high _ hx, Nat.one_mul]
  -- one case per block length: the limb and the offset are then numerals
  interval_cases bs <;>
    simp only [placePadBit, Nat.reduceMul, Nat.reduceDiv, Nat.reduceMod, Nat.reducePow]
      at hvalue ⊢ <;>
    refine ⟨?_, ⟨?_, ?_, ?_, ?_, ?_⟩⟩ <;>
    simp (disch := omega) only [hor, Nat.reducePow] <;>
    omega

/-! ## One block -/

/-- All limbs below 2^27, as after adding a block to a carried accumulator. -/
structure Limbs.Loose (h : Limbs) : Prop where
  l0 : h.l0.toNat < 2 ^ 27
  l1 : h.l1.toNat < 2 ^ 27
  l2 : h.l2.toNat < 2 ^ 27
  l3 : h.l3.toNat < 2 ^ 27
  l4 : h.l4.toNat < 2 ^ 27

theorem addLimbs_exact {h nn : Limbs} (hh : h.Carried) (hnn : nn.Reduced) :
    Exact (addLimbs checked h nn) (addLimbs wrapping h nn)
      (fun out => out.value = h.value + nn.value ∧ out.Loose) := by
  obtain ⟨h0, h1, h2, h3, h4⟩ := hh
  obtain ⟨n0, n1, n2, n3, n4⟩ := hnn
  unfold addLimbs
  refine (exact_add32 (by omega)).bind fun x0 e0 => ?_
  refine (exact_add32 (by omega)).bind fun x1 e1 => ?_
  refine (exact_add32 (by omega)).bind fun x2 e2 => ?_
  refine (exact_add32 (by omega)).bind fun x3 e3 => ?_
  refine (exact_add32 (by omega)).bind fun x4 e4 => Exact.pure ⟨?_, ?_⟩
  · simp only [Limbs.value]
    omega
  · constructor <;> simp only <;> omega

/-- A row of the product neither wraps nor exceeds five products of its
bounds. -/
theorem mulRow_exact {h : Limbs} (hh : h.Loose) (y0 y1 y2 y3 y4 : UInt32) {B : Nat}
    (hB : B ≤ 2 ^ 29) (hy0 : y0.toNat < B) (hy1 : y1.toNat < B) (hy2 : y2.toNat < B)
    (hy3 : y3.toNat < B) (hy4 : y4.toNat < B) :
    Exact (mulRow checked h y0 y1 y2 y3 y4) (mulRow wrapping h y0 y1 y2 y3 y4)
      (fun d => d.toNat = h.l0.toNat * y0.toNat + h.l1.toNat * y1.toNat +
        h.l2.toNat * y2.toNat + h.l3.toNat * y3.toNat + h.l4.toNat * y4.toNat ∧
        d.toNat ≤ 5 * (2 ^ 27 * B)) := by
  have hprod : ∀ {x y : UInt32}, x.toNat < 2 ^ 27 → y.toNat < B →
      x.toNat * y.toNat ≤ 2 ^ 27 * B :=
    fun hx hy => Nat.mul_le_mul (Nat.le_of_lt hx) (Nat.le_of_lt hy)
  have p0 := hprod hh.l0 hy0
  have p1 := hprod hh.l1 hy1
  have p2 := hprod hh.l2 hy2
  have p3 := hprod hh.l3 hy3
  have p4 := hprod hh.l4 hy4
  have hB' : 2 ^ 27 * B ≤ 2 ^ 56 := Nat.mul_le_mul_left (2 ^ 27) hB
  unfold mulRow
  simp only [Nat.reducePow] at *
  refine (exact_mul64 (by simp only [UInt32.toNat_toUInt64]; omega)).bind fun t0 e0 => ?_
  refine (exact_mul64 (by simp only [UInt32.toNat_toUInt64]; omega)).bind fun t1 e1 => ?_
  simp only [UInt32.toNat_toUInt64] at e0 e1
  refine (exact_add64 (by omega)).bind fun s1 f1 => ?_
  refine (exact_mul64 (by simp only [UInt32.toNat_toUInt64]; omega)).bind fun t2 e2 => ?_
  simp only [UInt32.toNat_toUInt64] at e2
  refine (exact_add64 (by omega)).bind fun s2 f2 => ?_
  refine (exact_mul64 (by simp only [UInt32.toNat_toUInt64]; omega)).bind fun t3 e3 => ?_
  simp only [UInt32.toNat_toUInt64] at e3
  refine (exact_add64 (by omega)).bind fun s3 f3 => ?_
  refine (exact_mul64 (by simp only [UInt32.toNat_toUInt64]; omega)).bind fun t4 e4 => ?_
  simp only [UInt32.toNat_toUInt64] at e4
  refine (exact_add64 (by omega)).imp fun d f4 => ⟨?_, ?_⟩ <;> omega

/-- The unreduced product as a number. -/
def Wide.value (d : Wide) : Nat :=
  d.d0.toNat + 2 ^ 26 * d.d1.toNat + 2 ^ 52 * d.d2.toNat + 2 ^ 78 * d.d3.toNat +
    2 ^ 104 * d.d4.toNat

/-- What the multiplier `s` holds: five times the limbs of `r` above the first. -/
structure IsFold (r s : Limbs) : Prop where
  l1 : s.l1.toNat = r.l1.toNat * 5
  l2 : s.l2.toNat = r.l2.toNat * 5
  l3 : s.l3.toNat = r.l3.toNat * 5
  l4 : s.l4.toNat = r.l4.toNat * 5

theorem mul5_exact {a : UInt32} (h : a.toNat * 5 < 2 ^ 32) :
    Exact (checked.mul32 a 5) (wrapping.mul32 a 5) (fun x => x.toNat = a.toNat * 5) :=
  exact_mul32 h

theorem foldLimbs_exact {r : Limbs} (hr : r.Reduced) :
    Exact (foldLimbs checked r) (foldLimbs wrapping r) (IsFold r) := by
  obtain ⟨_, h1, h2, h3, h4⟩ := hr
  unfold foldLimbs
  refine (mul5_exact (by omega)).bind fun x1 e1 => ?_
  refine (mul5_exact (by omega)).bind fun x2 e2 => ?_
  refine (mul5_exact (by omega)).bind fun x3 e3 => ?_
  refine (mul5_exact (by omega)).bind fun x4 e4 => Exact.pure ?_
  exact ⟨e1, e2, e3, e4⟩

/-- Folding the limbs above 2^130 back with a factor 5 changes the product by a
multiple of 2^130 - 5. -/
theorem mulFold_identity (h0 h1 h2 h3 h4 r0 r1 r2 r3 r4 : Nat) :
    (h0 + 2 ^ 26 * h1 + 2 ^ 52 * h2 + 2 ^ 78 * h3 + 2 ^ 104 * h4) *
        (r0 + 2 ^ 26 * r1 + 2 ^ 52 * r2 + 2 ^ 78 * r3 + 2 ^ 104 * r4) =
      (h0 * r0 + h1 * (r4 * 5) + h2 * (r3 * 5) + h3 * (r2 * 5) + h4 * (r1 * 5)) +
      2 ^ 26 * (h0 * r1 + h1 * r0 + h2 * (r4 * 5) + h3 * (r3 * 5) + h4 * (r2 * 5)) +
      2 ^ 52 * (h0 * r2 + h1 * r1 + h2 * r0 + h3 * (r4 * 5) + h4 * (r3 * 5)) +
      2 ^ 78 * (h0 * r3 + h1 * r2 + h2 * r1 + h3 * r0 + h4 * (r4 * 5)) +
      2 ^ 104 * (h0 * r4 + h1 * r3 + h2 * r2 + h3 * r1 + h4 * r0) +
      poly1305P * (h1 * r4 + h2 * r3 + h3 * r2 + h4 * r1 +
        2 ^ 26 * (h2 * r4 + h3 * r3 + h4 * r2) + 2 ^ 52 * (h3 * r4 + h4 * r3) +
        2 ^ 78 * (h4 * r4)) := by
  rw [show poly1305P = 1361129467683753853853498429727072845819 from rfl]
  ring

theorem mulFold_exact {h r s : Limbs} (hh : h.Loose) (hr : r.Reduced) (hs : IsFold r s) :
    Exact (mulFold checked h r s) (mulFold wrapping h r s)
      (fun d => d.value ≡ h.value * r.value [MOD poly1305P] ∧
        d.d0.toNat ≤ 5 * 2 ^ 56 ∧ d.d1.toNat ≤ 5 * 2 ^ 56 ∧ d.d2.toNat ≤ 5 * 2 ^ 56 ∧
        d.d3.toNat ≤ 5 * 2 ^ 56 ∧ d.d4.toNat ≤ 5 * 2 ^ 53) := by
  obtain ⟨r0, r1, r2, r3, r4⟩ := hr
  obtain ⟨s1, s2, s3, s4⟩ := hs
  have hwide : (2 : Nat) ^ 29 ≤ 2 ^ 29 := Nat.le_refl _
  unfold mulFold
  refine (mulRow_exact hh _ _ _ _ _ hwide (by omega) (by omega) (by omega) (by omega)
    (by omega)).bind fun d0 e0 => ?_
  refine (mulRow_exact hh _ _ _ _ _ hwide (by omega) (by omega) (by omega) (by omega)
    (by omega)).bind fun d1 e1 => ?_
  refine (mulRow_exact hh _ _ _ _ _ hwide (by omega) (by omega) (by omega) (by omega)
    (by omega)).bind fun d2 e2 => ?_
  refine (mulRow_exact hh _ _ _ _ _ hwide (by omega) (by omega) (by omega) (by omega)
    (by omega)).bind fun d3 e3 => ?_
  -- the last row has no folded limb, so its bound is the tighter one
  refine (mulRow_exact hh _ _ _ _ _ (show 2 ^ 26 ≤ 2 ^ 29 by decide) (by omega) (by omega)
    (by omega) (by omega) (by omega)).bind fun d4 e4 => Exact.pure ?_
  refine ⟨?_, e0.2, e1.2, e2.2, e3.2, e4.2⟩
  simp only [Wide.value, Limbs.value, e0.1, e1.1, e2.1, e3.1, e4.1, s1, s2, s3, s4]
  rw [mulFold_identity]
  exact (Nat.add_mul_mod_self_left _ _ _).symm

/-- The 64-bit carry chain leaves 26-bit limbs and a carry small enough that
five times it still fits in 32 bits. -/
theorem carryWide_exact {d : Wide} (h0 : d.d0.toNat ≤ 5 * 2 ^ 56)
    (h1 : d.d1.toNat ≤ 5 * 2 ^ 56) (h2 : d.d2.toNat ≤ 5 * 2 ^ 56)
    (h3 : d.d3.toNat ≤ 5 * 2 ^ 56) (h4 : d.d4.toNat ≤ 5 * 2 ^ 53) :
    Exact (carryWide checked d) (carryWide wrapping d)
      (fun out => d.value = out.1.value + 2 ^ 130 * out.2.toNat ∧
        out.2.toNat ≤ 5 * 2 ^ 27 + 160 ∧ out.1.d0.toNat < 2 ^ 26 ∧
        out.1.d1.toNat < 2 ^ 26 ∧ out.1.d2.toNat < 2 ^ 26 ∧ out.1.d3.toNat < 2 ^ 26 ∧
        out.1.d4.toNat < 2 ^ 26) := by
  unfold carryWide
  refine (exact_add64 (by rw [shr26_toNat64]; omega)).bind fun d1 e1 => ?_
  rw [shr26_toNat64] at e1
  refine (exact_add64 (by rw [shr26_toNat64]; omega)).bind fun d2 e2 => ?_
  rw [shr26_toNat64] at e2
  refine (exact_add64 (by rw [shr26_toNat64]; omega)).bind fun d3 e3 => ?_
  rw [shr26_toNat64] at e3
  refine (exact_add64 (by rw [shr26_toNat64]; omega)).bind fun d4 e4 => Exact.pure ?_
  rw [shr26_toNat64] at e4
  simp only [Wide.value, limbMask_toNat64, shr26_toNat64]
  omega

/-- The 32-bit carry chain restores the loop invariant and changes the value by
a multiple of 2^130 - 5. -/
theorem carryBlock_exact {d : Wide} {c : UInt64} (h0 : d.d0.toNat < 2 ^ 26)
    (h1 : d.d1.toNat < 2 ^ 26) (h2 : d.d2.toNat < 2 ^ 26) (h3 : d.d3.toNat < 2 ^ 26)
    (h4 : d.d4.toNat < 2 ^ 26) (hc : c.toNat ≤ 5 * 2 ^ 27 + 160) :
    Exact (carryBlock checked d c) (carryBlock wrapping d c)
      (fun out => out.Carried ∧
        out.value ≡ d.value + 2 ^ 130 * c.toNat [MOD poly1305P]) := by
  unfold carryBlock
  refine (exact_narrow (by omega)).bind fun n0 g0 => ?_
  refine (exact_narrow (by omega)).bind fun nc gc => ?_
  refine (mul5_exact (by omega)).bind fun c5 gc5 => ?_
  refine (exact_add32 (by omega)).bind fun x0 e0 => ?_
  refine (exact_narrow (by omega)).bind fun n1 g1 => ?_
  refine (exact_add32 (by rw [shr26_toNat]; omega)).bind fun x1 e1 => ?_
  refine (exact_narrow (by omega)).bind fun n2 g2 => ?_
  rw [shr26_toNat] at e1
  refine (exact_add32 (by rw [shr26_toNat]; omega)).bind fun x2 e2 => ?_
  refine (exact_narrow (by omega)).bind fun n3 g3 => ?_
  rw [shr26_toNat] at e2
  refine (exact_add32 (by rw [shr26_toNat]; omega)).bind fun x3 e3 => ?_
  refine (exact_narrow (by omega)).bind fun n4 g4 => ?_
  rw [shr26_toNat] at e3
  refine (exact_add32 (by rw [shr26_toNat]; omega)).bind fun x4 e4 => ?_
  rw [shr26_toNat] at e4
  refine (mul5_exact (by rw [shr26_toNat]; omega)).bind fun t5 g5 => ?_
  rw [shr26_toNat] at g5
  refine (exact_add32 (by rw [limbMask_toNat]; omega)).bind fun y0 f0 => ?_
  rw [limbMask_toNat] at f0
  refine (exact_add32 (by rw [limbMask_toNat, shr26_toNat]; omega)).bind fun y1 f1 => ?_
  rw [limbMask_toNat, shr26_toNat] at f1
  refine Exact.pure ⟨?_, ?_⟩
  · constructor <;> simp only [limbMask_toNat] <;> omega
  · have hkey : d.value + 2 ^ 130 * c.toNat =
        Limbs.value ⟨y0 &&& limbMask, y1, x2 &&& limbMask, x3 &&& limbMask, x4 &&& limbMask⟩ +
          poly1305P * (c.toNat + x4.toNat / 2 ^ 26) := by
      simp only [Wide.value, Limbs.value, limbMask_toNat, poly1305P]
      omega
    rw [hkey]
    exact (Nat.add_mul_mod_self_left _ _ _).symm

/-- One iteration of the loop: `h` becomes `(h + block) * r` modulo 2^130 - 5. -/
theorem poly1305Block_exact {r s h : Limbs} {blk : List UInt8} (hh : h.Carried)
    (hr : r.Reduced) (hs : IsFold r s) (hpos : 0 < blk.length) (hlen : blk.length ≤ 16) :
    Exact (poly1305Block checked r s h blk) (poly1305Block wrapping r s h blk)
      (fun out => out.Carried ∧
        out.value ≡ (h.value + rfcBlock blk) * r.value [MOD poly1305P]) := by
  have hbuf : (blk ++ List.replicate (16 - blk.length) 0).length = 16 := by
    rw [List.length_append, List.length_replicate]; omega
  unfold poly1305Block
  refine (loadLimbs_exact _ hbuf).bind fun nn ⟨hval, hred, hl4⟩ => ?_
  rw [leValue_append_zeros] at hval
  have hbound : nn.value < 2 ^ (8 * blk.length) := by
    rw [hval, Nat.pow_mul]
    exact leValue_lt blk
  obtain ⟨hpad, hpadRed⟩ := placePadBit_spec nn blk.length hpos hlen hred hl4 hbound
  refine (addLimbs_exact hh hpadRed).bind fun a ⟨hsum, hloose⟩ => ?_
  refine (mulFold_exact hloose hr hs).bind fun d ⟨hprod, b0, b1, b2, b3, b4⟩ => ?_
  refine (carryWide_exact b0 b1 b2 b3 b4).bind fun w hw => ?_
  obtain ⟨hwval, hc, w0, w1, w2, w3, w4⟩ := hw
  refine (carryBlock_exact w0 w1 w2 w3 w4 hc).imp fun out ⟨hcar, hout⟩ => ⟨hcar, ?_⟩
  calc out.value ≡ w.1.value + 2 ^ 130 * w.2.toNat [MOD poly1305P] := hout
    _ = d.value := hwval.symm
    _ ≡ a.value * r.value [MOD poly1305P] := hprod
    _ = (h.value + rfcBlock blk) * r.value := by rw [hsum, hpad, hval, rfcBlock]

/-! ## The whole message -/

/-- The block length the loop picks cuts the message where the specification
does. -/
theorem blockLength_cut (msg : List UInt8) :
    msg.take (if 16 ≤ msg.length then 16 else msg.length) = msg.take 16 ∧
      msg.drop (if 16 ≤ msg.length then 16 else msg.length) = msg.drop 16 := by
  split
  · exact ⟨rfl, rfl⟩
  · have hle : msg.length ≤ 16 := by omega
    rw [List.take_of_length_le hle, List.drop_eq_nil_of_le hle]
    simp

/-- Invariant of the loop: the blocks already read are a Horner prefix of the
sum, modulo 2^130 - 5. -/
theorem poly1305Blocks_exact {r s : Limbs} (hr : r.Reduced) (hs : IsFold r s)
    (msg : List UInt8) : ∀ h : Limbs, h.Carried →
    Exact (poly1305Blocks checked r s h msg) (poly1305Blocks wrapping r s h msg)
      (fun out => out.Carried ∧ out.value ≡
        h.value * r.value ^ (rfcBlocks msg).length + rfcSum r.value (rfcBlocks msg)
          [MOD poly1305P]) := by
  fun_induction rfcBlocks msg with
  | case1 =>
      intro h hh
      rw [poly1305Blocks_nil, poly1305Blocks_nil]
      exact Exact.pure ⟨hh, by simpa [rfcSum] using Nat.ModEq.refl _⟩
  | case2 msg hne ih =>
      intro h hh
      obtain ⟨htake, hdrop⟩ := blockLength_cut msg
      have hpos : 0 < msg.length := List.length_pos_iff.mpr hne
      rw [poly1305Blocks, poly1305Blocks, dif_neg hne, dif_neg hne]
      simp only [htake, hdrop]
      refine (poly1305Block_exact hh hr hs (by rw [List.length_take]; omega)
        (by rw [List.length_take]; omega)).bind fun h' hblock => ?_
      obtain ⟨hh', hstep⟩ := hblock
      refine (ih h' hh').imp fun out hout => ⟨hout.1, hout.2.trans ?_⟩
      have hmul := hstep.mul_right (r.value ^ (rfcBlocks (msg.drop 16)).length)
      refine (hmul.add_right _).trans (congrArg (· % poly1305P) ?_)
      rw [List.length_cons, rfcSum]
      ring

/-! ## The final reduction -/

theorem Limbs.Reduced.carried {h : Limbs} (hh : h.Reduced) : h.Carried :=
  ⟨hh.l0, Nat.le_of_lt hh.l1, hh.l2, hh.l3, hh.l4⟩

theorem Limbs.Reduced.value_lt {h : Limbs} (hh : h.Reduced) : h.value < 2 ^ 130 := by
  obtain ⟨h0, h1, h2, h3, h4⟩ := hh
  rw [Limbs.value]
  omega

/-- A carry pass leaves every limb below 2^26: when the top carry wraps round,
the value that is left is so small that `h1` cannot overflow again. -/
theorem carryPass_exact {h : Limbs} (hh : h.Carried) :
    Exact (carryPass checked h) (carryPass wrapping h)
      (fun out => out.Reduced ∧ out.value ≡ h.value [MOD poly1305P]) := by
  obtain ⟨h0, h1, h2, h3, h4⟩ := hh
  unfold carryPass
  refine (exact_add32 (by rw [shr26_toNat]; omega)).bind fun x2 e2 => ?_
  rw [shr26_toNat] at e2
  refine (exact_add32 (by rw [shr26_toNat]; omega)).bind fun x3 e3 => ?_
  rw [shr26_toNat] at e3
  refine (exact_add32 (by rw [shr26_toNat]; omega)).bind fun x4 e4 => ?_
  rw [shr26_toNat] at e4
  refine (mul5_exact (by rw [shr26_toNat]; omega)).bind fun c5 e5 => ?_
  rw [shr26_toNat] at e5
  refine (exact_add32 (by omega)).bind fun y0 f0 => ?_
  refine (exact_add32 (by rw [limbMask_toNat, shr26_toNat]; omega)).bind fun y1 f1 => ?_
  rw [limbMask_toNat, shr26_toNat] at f1
  refine Exact.pure ⟨?_, ?_⟩
  · constructor <;> simp only [limbMask_toNat] <;> omega
  · have hkey : h.value =
        Limbs.value ⟨y0 &&& limbMask, y1, x2 &&& limbMask, x3 &&& limbMask, x4 &&& limbMask⟩ +
          poly1305P * (x4.toNat / 2 ^ 26) := by
      simp only [Limbs.value, limbMask_toNat, poly1305P]
      omega
    rw [hkey]
    exact (Nat.add_mul_mod_self_left _ _ _).symm

/-- The conditional subtraction returns the canonical residue. -/
theorem subtractP_exact {h : Limbs} (hh : h.Reduced) :
    Exact (subtractP checked h) (subtractP wrapping h)
      (fun out => out.Reduced ∧ out.value = h.value % poly1305P) := by
  obtain ⟨h0, h1, h2, h3, h4⟩ := hh
  have hfive : (5 : UInt32).toNat = 5 := rfl
  unfold subtractP
  refine (exact_add32 (by omega)).bind fun g0 e0 => ?_
  refine (exact_add32 (by rw [shr26_toNat]; omega)).bind fun g1 e1 => ?_
  rw [shr26_toNat] at e1
  refine (exact_add32 (by rw [shr26_toNat]; omega)).bind fun g2 e2 => ?_
  rw [shr26_toNat] at e2
  refine (exact_add32 (by rw [shr26_toNat]; omega)).bind fun g3 e3 => ?_
  rw [shr26_toNat] at e3
  refine (exact_add32 (by rw [shr26_toNat]; omega)).bind fun t e4 => ?_
  rw [shr26_toNat] at e4
  refine (exact_sub32 _ _).bind fun g4 eg => ?_
  refine (exact_sub32 _ _).bind fun mask em => Exact.pure ?_
  rw [show (0x4000000 : UInt32).toNat = 2 ^ 26 from rfl] at eg
  rw [shr_toNat _ _ (by decide), show (31 : UInt32).toNat = 31 from rfl,
    show (1 : UInt32).toNat = 1 from rfl] at em
  by_cases hge : 2 ^ 26 ≤ t.toNat
  · -- `h >= p`: no borrow, the mask is all ones and `h - p` is selected
    have hmask : mask = -1 := by
      apply UInt32.toNat_inj.mp
      rw [em, show (-1 : UInt32).toNat = 2 ^ 32 - 1 from rfl]
      omega
    subst hmask
    simp only [UInt32.not_neg_one, UInt32.and_zero, UInt32.zero_or, UInt32.and_neg_one]
    refine ⟨?_, ?_⟩
    · constructor <;> simp only [limbMask_toNat] <;> omega
    · have hsub : h.value = Limbs.value ⟨g0 &&& limbMask, g1 &&& limbMask, g2 &&& limbMask,
          g3 &&& limbMask, g4⟩ + poly1305P := by
        simp only [Limbs.value, limbMask_toNat, poly1305P]
        omega
      have hlt := Limbs.Reduced.value_lt ⟨h0, h1, h2, h3, h4⟩
      rw [hsub, Nat.add_mod_right, Nat.mod_eq_of_lt]
      simp only [poly1305P] at hsub ⊢
      omega
  · -- `h < p`: the borrow sets bit 31, the mask is zero and `h` is kept
    have hmask : mask = 0 := by
      apply UInt32.toNat_inj.mp
      rw [em, show (0 : UInt32).toNat = 0 from rfl]
      omega
    subst hmask
    simp only [UInt32.not_zero, UInt32.and_neg_one, UInt32.and_zero, UInt32.or_zero]
    refine ⟨⟨h0, h1, h2, h3, h4⟩, (Nat.mod_eq_of_lt ?_).symm⟩
    simp only [Limbs.value, poly1305P]
    omega

/-- The two carry passes and the conditional subtraction together. -/
theorem poly1305Reduce_exact {h : Limbs} (hh : h.Carried) :
    Exact (poly1305Reduce checked h) (poly1305Reduce wrapping h)
      (fun out => out.Reduced ∧ out.value = h.value % poly1305P) := by
  unfold poly1305Reduce
  refine (carryPass_exact hh).bind fun a ⟨ha, hmod⟩ => ?_
  refine (carryPass_exact ha.carried).bind fun b ⟨hb, hmod'⟩ => ?_
  refine (subtractP_exact hb).imp fun out ⟨hout, hval⟩ => ⟨hout, ?_⟩
  rw [hval]
  exact hmod'.trans hmod

/-! ## Repacking and the pad -/

/-- Four 32-bit words as one number. -/
def wordsValue (w : UInt32 × UInt32 × UInt32 × UInt32) : Nat :=
  w.1.toNat + 2 ^ 32 * w.2.1.toNat + 2 ^ 64 * w.2.2.1.toNat + 2 ^ 96 * w.2.2.2.toNat

theorem shr32_toNat64 (x : UInt64) : (x >>> 32).toNat = x.toNat / 2 ^ 32 := by
  rw [UInt64.toNat_shiftRight, Nat.shiftRight_eq_div_pow]
  rfl

theorem repack_exact {h : Limbs} (hh : h.Reduced) :
    Exact (repack checked h) (repack wrapping h)
      (fun w => wordsValue w = h.value % 2 ^ 128) := by
  obtain ⟨h0, h1, h2, h3, h4⟩ := hh
  have s26 : (26 : UInt64).toNat = 26 := rfl
  have s20 : (20 : UInt64).toNat = 20 := rfl
  have s14 : (14 : UInt64).toNat = 14 := rfl
  have s8 : (8 : UInt64).toNat = 8 := rfl
  unfold repack
  refine (exact_shl64 (by decide) (by rw [UInt32.toNat_toUInt64, s26]; omega)).bind
    fun a1 e1 => ?_
  refine (exact_shl64 (by decide) (by rw [UInt32.toNat_toUInt64, s20]; omega)).bind
    fun a2 e2 => ?_
  refine (exact_shl64 (by decide) (by rw [UInt32.toNat_toUInt64, s14]; omega)).bind
    fun a3 e3 => ?_
  refine (exact_shl64 (by decide) (by rw [UInt32.toNat_toUInt64, s8]; omega)).bind
    fun a4 e4 => Exact.pure ?_
  rw [UInt32.toNat_toUInt64, s26] at e1
  rw [UInt32.toNat_toUInt64, s20] at e2
  rw [UInt32.toNat_toUInt64, s14] at e3
  rw [UInt32.toNat_toUInt64, s8] at e4
  -- each word boundary leaves fewer bits in `acc` than the next shift skips
  have f1 : (h.l0.toUInt64 ||| a1).toNat = h.l0.toNat + h.l1.toNat * 2 ^ 26 := by
    rw [UInt64.toNat_or, UInt32.toNat_toUInt64, e1, lor_high _ h0]
  generalize h.l0.toUInt64 ||| a1 = acc1 at f1
  have f2 : (acc1 >>> 32 ||| a2).toNat = acc1.toNat / 2 ^ 32 + h.l2.toNat * 2 ^ 20 := by
    rw [UInt64.toNat_or, shr32_toNat64, e2, lor_high _ (by omega)]
  generalize acc1 >>> 32 ||| a2 = acc2 at f2
  have f3 : (acc2 >>> 32 ||| a3).toNat = acc2.toNat / 2 ^ 32 + h.l3.toNat * 2 ^ 14 := by
    rw [UInt64.toNat_or, shr32_toNat64, e3, lor_high _ (by omega)]
  generalize acc2 >>> 32 ||| a3 = acc3 at f3
  have f4 : (acc3 >>> 32 ||| a4).toNat = acc3.toNat / 2 ^ 32 + h.l4.toNat * 2 ^ 8 := by
    rw [UInt64.toNat_or, shr32_toNat64, e4, lor_high _ (by omega)]
  generalize acc3 >>> 32 ||| a4 = acc4 at f4
  simp only [wordsValue, Limbs.value, UInt64.toNat_toUInt32]
  omega

/-- The pad is the four words of the key's second half. -/
theorem rfcS_eq {key : List UInt8} (hkey : key.length = 32) :
    rfcS key = (le32 (key.drop 16)).toNat + 2 ^ 32 * (le32 (key.drop 20)).toNat +
      2 ^ 64 * (le32 (key.drop 24)).toNat + 2 ^ 96 * (le32 (key.drop 28)).toNat := by
  have hend : key.drop 32 = [] := List.drop_eq_nil_of_le (by omega)
  rw [rfcS, List.take_of_length_le (by rw [List.length_drop]; omega), leValue_eq_le32,
    leValue_eq_le32 ((key.drop 16).drop 4), leValue_eq_le32 (((key.drop 16).drop 4).drop 4),
    leValue_eq_le32 ((((key.drop 16).drop 4).drop 4).drop 4)]
  simp only [List.drop_drop, Nat.reduceAdd, hend, leValue_nil]
  ring

theorem addPad_exact {key : List UInt8} (hkey : key.length = 32)
    (w : UInt32 × UInt32 × UInt32 × UInt32) :
    Exact (addPad checked key w) (addPad wrapping key w)
      (fun tag => tag = leBytes 16 ((wordsValue w + rfcS key) % 2 ^ 128)) := by
  obtain ⟨w0, w1, w2, w3⟩ := w
  have hw0 := w0.toNat_lt
  have hw1 := w1.toNat_lt
  have hw2 := w2.toNat_lt
  have hw3 := w3.toNat_lt
  have hp0 := (le32 (key.drop 16)).toNat_lt
  have hp1 := (le32 (key.drop 20)).toNat_lt
  have hp2 := (le32 (key.drop 24)).toNat_lt
  have hp3 := (le32 (key.drop 28)).toNat_lt
  rw [rfcS_eq hkey]
  unfold addPad
  simp only
  refine (exact_add64 (by simp only [UInt32.toNat_toUInt64]; omega)).bind fun f0 e0 => ?_
  refine (exact_add64 (by simp only [UInt32.toNat_toUInt64]; omega)).bind fun t1 d1 => ?_
  simp only [UInt32.toNat_toUInt64] at e0 d1
  refine (exact_add64 (by rw [shr32_toNat64]; omega)).bind fun f1 e1 => ?_
  refine (exact_add64 (by simp only [UInt32.toNat_toUInt64]; omega)).bind fun t2 d2 => ?_
  simp only [UInt32.toNat_toUInt64, shr32_toNat64] at e1 d2
  refine (exact_add64 (by rw [shr32_toNat64]; omega)).bind fun f2 e2 => ?_
  refine (exact_add64 (by simp only [UInt32.toNat_toUInt64]; omega)).bind fun t3 d3 => ?_
  simp only [UInt32.toNat_toUInt64, shr32_toNat64] at e2 d3
  refine (exact_add64 (by rw [shr32_toNat64]; omega)).bind fun f3 e3 => Exact.pure ?_
  rw [shr32_toNat64] at e3
  simp only [le32s_eq_leBytes, UInt64.toNat_toUInt32]
  rw [leBytes_append 4 4 _ _ (show f0.toNat % 2 ^ 32 < 256 ^ 4 by omega),
    leBytes_append 8 4 _ _ (by omega), leBytes_append 12 4 _ _ (by omega)]
  simp only [wordsValue]
  congr 1
  omega

/-! ## The tag -/

/-- The accumulator after the message, before the final reduction. -/
theorem poly1305Accumulate_exact (key msg : List UInt8) :
    Exact (poly1305Accumulate checked key msg) (poly1305Accumulate wrapping key msg)
      (fun h => h.Carried ∧
        h.value ≡ rfcSum (rfcR key) (rfcBlocks msg) [MOD poly1305P]) := by
  obtain ⟨hval, hred, _⟩ := clampLimbs_spec key
  unfold poly1305Accumulate
  refine (foldLimbs_exact hred).bind fun s hs => ?_
  refine (poly1305Blocks_exact hred hs msg .zero Limbs.carried_zero).imp fun h ⟨hcar, hh⟩ =>
    ⟨hcar, ?_⟩
  have hzero : Limbs.zero.value = 0 := rfl
  rwa [hval, hzero, Nat.zero_mul, Nat.zero_add] at hh

/-- The tag as a run of the checked reading. -/
theorem poly1305Mac_exact {key : List UInt8} (hkey : key.length = 32) (msg : List UInt8) :
    Exact (poly1305Mac checked key msg) (poly1305Mac wrapping key msg)
      (fun tag => tag = rfcTag key msg) := by
  unfold poly1305Mac
  refine (poly1305Accumulate_exact key msg).bind fun h ⟨hcar, hmod⟩ => ?_
  refine (poly1305Reduce_exact hcar).bind fun g ⟨hred, hval⟩ => ?_
  refine (repack_exact hred).bind fun w hw => ?_
  refine (addPad_exact hkey w).imp fun tag htag => ?_
  have hres : g.value = rfcResidue key msg := hval.trans hmod
  rw [htag, hw, hres, rfcTag, Nat.mod_add_mod]

/-- `poly1305_mac` returns the RFC 8439 tag for every 32-byte key and every
message.  No sum, product or 64-bit shift of the run wraps, and no narrowing of a
limb sum or a carry: the checked reading succeeds with the same tag.  The two carry passes and the
conditional subtraction leave 26-bit limbs that denote the canonical residue. -/
theorem poly1305Mac_rfc8439 (key : Vector UInt8 32) (msg : List UInt8) :
    poly1305Mac wrapping key.toList msg = rfcTag key.toList msg ∧
    poly1305Mac checked key.toList msg = some (rfcTag key.toList msg) ∧
    (∃ h g : Limbs, poly1305Accumulate checked key.toList msg = some h ∧
      poly1305Reduce checked h = some g ∧ g.Reduced ∧
      g.value = rfcResidue key.toList msg) := by
  have hkey : key.toList.length = 32 := by simp
  obtain ⟨hrun, htag⟩ := poly1305Mac_exact hkey msg
  obtain ⟨hacc, hcar, hmod⟩ := poly1305Accumulate_exact key.toList msg
  obtain ⟨hredRun, hred, hval⟩ := poly1305Reduce_exact hcar
  exact ⟨htag, hrun.trans (congrArg some htag), _, _, hacc, hredRun, hred, hval.trans hmod⟩

/-- Not every intermediate fits its type: the borrow `h4 + c - (1u<<26)` of the
conditional subtraction wraps on the empty message, so the strict reading, which
forbids every wrap, fails there. -/
theorem poly1305Mac_borrow_wraps :
    ¬ ∀ (key : Vector UInt8 32) (msg : List UInt8),
      poly1305Mac strict key.toList msg ≠ none := by
  intro h
  refine h (Vector.replicate 32 0) [] ?_
  simp only [poly1305Mac, poly1305Accumulate, poly1305Blocks_nil]
  rfl

end TinyFramework.Vfs
