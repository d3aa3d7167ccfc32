/-
  Vfs/Poly1305.lean --- ChaCha20 and Poly1305.

  Byte pointers are byte lists and `p + k` is `p.drop k`; a read past the end of
  a list is a read of 0, which no caller performs.

  The routine is written once over a reading of the word arithmetic
  (`Foundation.WordArith`).  `poly1305Mac .wrapping` is the C function; the same
  text read by `.checked` fails as soon as a sum, a product, a 64-bit shift or the
  narrowing of a limb sum or a carry does not fit its type.  The casts of `repack`
  and `addPad` are no narrowings in this sense: they take the low word, and what is
  above it is carried on or, above bit 128, dropped.

  The long C body is cut where its comments cut it: clamp, load a block, multiply
  and fold, carry twice, subtract p conditionally, repack, add the pad.
-/
import TinyFramework.Foundation.Endian

set_option autoImplicit false

namespace TinyFramework.Vfs

open TinyFramework.Foundation

/-! ## little-endian I/O -/

/-- `le32`: the word stored in the first four bytes. -/
def le32 (p : List UInt8) : UInt32 :=
  (p.getD 0 0).toUInt32 ||| (p.getD 1 0).toUInt32 <<< 8 |||
    (p.getD 2 0).toUInt32 <<< 16 ||| (p.getD 3 0).toUInt32 <<< 24

/-- `le32s`: the four bytes of a word. -/
def le32s (v : UInt32) : List UInt8 :=
  [v.toUInt8, (v >>> 8).toUInt8, (v >>> 16).toUInt8, (v >>> 24).toUInt8]

/-- `ROTL32`. -/
def rotl32 (x c : UInt32) : UInt32 := x <<< c ||| x >>> (32 - c)

/-! ## ChaCha20 -/

/-- `chacha_qr`, on the words `a`, `b`, `c`, `d` of the state. -/
def chachaQr (s : Vector UInt32 16) (a b c d : Fin 16) : Vector UInt32 16 :=
  let s := s.set a (s[a] + s[b])
  let s := s.set d (rotl32 (s[d] ^^^ s[a]) 16)
  let s := s.set c (s[c] + s[d])
  let s := s.set b (rotl32 (s[b] ^^^ s[c]) 12)
  let s := s.set a (s[a] + s[b])
  let s := s.set d (rotl32 (s[d] ^^^ s[a]) 8)
  let s := s.set c (s[c] + s[d])
  s.set b (rotl32 (s[b] ^^^ s[c]) 7)

theorem stateWords_ne_zero : 16 ≠ 0 := by decide

local instance stateWords_neZero : NeZero 16 := ⟨stateWords_ne_zero⟩

/-- One iteration of the round loop: four column and four diagonal quarter
rounds. -/
def chachaDoubleRound (x : Vector UInt32 16) : Vector UInt32 16 :=
  let x := chachaQr x 0 4 8 12
  let x := chachaQr x 1 5 9 13
  let x := chachaQr x 2 6 10 14
  let x := chachaQr x 3 7 11 15
  let x := chachaQr x 0 5 10 15
  let x := chachaQr x 1 6 11 12
  let x := chachaQr x 2 7 8 13
  chachaQr x 3 4 9 14

/-- The words `chacha20_block` starts from: constants, key, counter, nonce. -/
def chachaInit (key : List UInt8) (counter : UInt32) (nonce : List UInt8) :
    Vector UInt32 16 :=
  #v[0x61707865, 0x3320646e, 0x79622d32, 0x6b206574,
     le32 key, le32 (key.drop 4), le32 (key.drop 8), le32 (key.drop 12),
     le32 (key.drop 16), le32 (key.drop 20), le32 (key.drop 24), le32 (key.drop 28),
     counter, le32 nonce, le32 (nonce.drop 4), le32 (nonce.drop 8)]

/-- `chacha20_block`: the 64-byte keystream block for (key, counter, nonce). -/
def chacha20Block (key : List UInt8) (counter : UInt32) (nonce : List UInt8) :
    List UInt8 :=
  let s := chachaInit key counter nonce
  let x := Nat.iterate chachaDoubleRound 10 s
  (Vector.zipWith (· + ·) x s).toList.flatMap le32s

/-- `chacha20_xor`: xor with the keystream, a block at a time; the counter is a
`uint32_t` and wraps. -/
def chacha20Xor (key : List UInt8) (counter : UInt32) (nonce : List UInt8)
    (inp : List UInt8) : List UInt8 :=
  if _hempty : inp = [] then []
  else
    let blk := chacha20Block key counter nonce
    let m := if inp.length < 64 then inp.length else 64
    List.zipWith (· ^^^ ·) (inp.take m) (blk.take m) ++
      chacha20Xor key (counter + 1) nonce (inp.drop m)
termination_by inp.length
decreasing_by
  have : 0 < inp.length := List.length_pos_iff.mpr _hempty
  simp only [List.length_drop]
  split <;> omega

/-! ## The keystream is as long as its input and cancels itself -/

theorem length_le32s (v : UInt32) : (le32s v).length = 4 := rfl

theorem length_flatMap_le32s (ws : List UInt32) :
    (ws.flatMap le32s).length = 4 * ws.length := by
  induction ws with
  | nil => rfl
  | cons w ws ih =>
      rw [List.flatMap_cons, List.length_append, ih, length_le32s, List.length_cons]
      omega

theorem length_chacha20Block (key : List UInt8) (counter : UInt32)
    (nonce : List UInt8) : (chacha20Block key counter nonce).length = 64 := by
  rw [chacha20Block, length_flatMap_le32s, Vector.length_toList]

/-- Xoring twice with bytes that cover the input gives the input back. -/
theorem zipWith_xor_cancel (xs ks : List UInt8) (h : xs.length ≤ ks.length) :
    List.zipWith (· ^^^ ·) (List.zipWith (· ^^^ ·) xs ks) ks = xs := by
  induction xs generalizing ks with
  | nil => simp
  | cons x xs ih =>
      cases ks with
      | nil => simp at h
      | cons k ks =>
          have hlen : xs.length ≤ ks.length := by simpa using h
          have hhead : (x ^^^ k) ^^^ k = x := by
            rw [UInt8.xor_assoc, UInt8.xor_self, UInt8.xor_zero]
          simp [hhead, ih ks hlen]

theorem length_chacha20Xor (key : List UInt8) (counter : UInt32)
    (nonce inp : List UInt8) :
    (chacha20Xor key counter nonce inp).length = inp.length := by
  fun_induction chacha20Xor key counter nonce inp with
  | case1 => rfl
  | case2 counter inp _ blk m ih =>
      have hblk : blk.length = 64 := length_chacha20Block key counter nonce
      have hm : m ≤ inp.length ∧ m ≤ 64 := by
        simp only [m]; split <;> omega
      rw [List.length_append, ih, List.length_zipWith, List.length_take,
        List.length_take, List.length_drop, hblk]
      omega

/-- `chacha20_xor` is its own inverse, for any number of whole blocks and any
partial tail. -/
theorem chacha20Xor_involutive (key : List UInt8) (counter : UInt32)
    (nonce inp : List UInt8) :
    chacha20Xor key counter nonce (chacha20Xor key counter nonce inp) = inp := by
  fun_induction chacha20Xor key counter nonce inp with
  | case1 => simp [chacha20Xor]
  | case2 counter inp hne blk m ih =>
      have hblk : blk.length = 64 := length_chacha20Block key counter nonce
      have hpos : 0 < inp.length := List.length_pos_iff.mpr hne
      have hm : m ≤ inp.length ∧ m ≤ 64 := by
        simp only [m]; split <;> omega
      have hhead : (List.zipWith (· ^^^ ·) (inp.take m) (blk.take m)).length = m := by
        rw [List.length_zipWith, List.length_take, List.length_take, hblk]
        omega
      have hlen : (List.zipWith (· ^^^ ·) (inp.take m) (blk.take m) ++
          chacha20Xor key (counter + 1) nonce (inp.drop m)).length = inp.length := by
        rw [List.length_append, hhead, length_chacha20Xor, List.length_drop]
        omega
      -- the second pass cuts its input at the same place as the first
      rw [chacha20Xor, dif_neg (List.ne_nil_of_length_pos (by omega))]
      simp only [hlen]
      change List.zipWith _ (List.take m _) (List.take m blk) ++
        chacha20Xor key (counter + 1) nonce (List.drop m _) = inp
      rw [List.take_left' hhead, List.drop_left' hhead, ih,
        zipWith_xor_cancel _ _ (by rw [List.length_take, List.length_take, hblk]; omega),
        List.take_append_drop]

/-! ## `poly1305_mac` of `mini_vfs_decrypt.c` -/

/-- Five limbs, 26 bits each once they are carried. -/
structure Limbs where
  l0 : UInt32
  l1 : UInt32
  l2 : UInt32
  l3 : UInt32
  l4 : UInt32
  deriving DecidableEq, Repr

namespace Limbs

/-- The number the limbs denote. -/
def value (h : Limbs) : Nat :=
  h.l0.toNat + 2 ^ 26 * h.l1.toNat + 2 ^ 52 * h.l2.toNat + 2 ^ 78 * h.l3.toNat +
    2 ^ 104 * h.l4.toNat

/-- The accumulator before the first block. -/
def zero : Limbs := ⟨0, 0, 0, 0, 0⟩

end Limbs

/-- `0x3ffffff`, the mask of one limb. -/
def limbMask : UInt32 := 0x3ffffff

/-- The five limbs `r0 .. r4` of the clamped key. -/
def clampLimbs (key : List UInt8) : Limbs where
  l0 := le32 key &&& 0x03ffffff
  l1 := le32 (key.drop 3) >>> 2 &&& 0x03ffff03
  l2 := le32 (key.drop 6) >>> 4 &&& 0x03ffc0ff
  l3 := le32 (key.drop 9) >>> 6 &&& 0x03f03fff
  l4 := le32 (key.drop 12) >>> 8 &&& 0x00fffff

section Stages

variable {m : Type → Type} [Monad m] (A : WordArith m)

/-- `nn[0] .. nn[4]` before the padding bit: the 16 bytes of `buf` cut into
26-bit groups. -/
def loadLimbs (buf : List UInt8) : m Limbs := do
  let t0 := le32 buf
  let t1 := le32 (buf.drop 4)
  let t2 := le32 (buf.drop 8)
  let t3 := le32 (buf.drop 12)
  let u1 ← A.shl32 t1 6
  let u2 ← A.shl32 t2 12
  let u3 ← A.shl32 t3 18
  return ⟨t0 &&& limbMask, (t0 >>> 26 ||| u1) &&& limbMask,
    (t1 >>> 20 ||| u2) &&& limbMask, (t2 >>> 14 ||| u3) &&& limbMask, t3 >>> 8⟩

/-- `nn[hb/26] |= (1u << (hb%26))` with `hb = 8*bs`. -/
def placePadBit (nn : Limbs) (bs : Nat) : Limbs :=
  let bit : UInt32 := 1 <<< UInt32.ofNat (8 * bs % 26)
  match 8 * bs / 26 with
  | 0 => { nn with l0 := nn.l0 ||| bit }
  | 1 => { nn with l1 := nn.l1 ||| bit }
  | 2 => { nn with l2 := nn.l2 ||| bit }
  | 3 => { nn with l3 := nn.l3 ||| bit }
  | _ => { nn with l4 := nn.l4 ||| bit }

/-- `h0 += nn[0]; .. h4 += nn[4];`. -/
def addLimbs (h nn : Limbs) : m Limbs := do
  return ⟨← A.add32 h.l0 nn.l0, ← A.add32 h.l1 nn.l1, ← A.add32 h.l2 nn.l2,
    ← A.add32 h.l3 nn.l3, ← A.add32 h.l4 nn.l4⟩

/-- One row of the product: `(uint64_t)h0*y0 + .. + (uint64_t)h4*y4`. -/
def mulRow (h : Limbs) (y0 y1 y2 y3 y4 : UInt32) : m UInt64 := do
  let s ← A.mul64 h.l0.toUInt64 y0.toUInt64
  let s ← A.add64 s (← A.mul64 h.l1.toUInt64 y1.toUInt64)
  let s ← A.add64 s (← A.mul64 h.l2.toUInt64 y2.toUInt64)
  let s ← A.add64 s (← A.mul64 h.l3.toUInt64 y3.toUInt64)
  A.add64 s (← A.mul64 h.l4.toUInt64 y4.toUInt64)

/-- The unreduced product, and after it the same with the 64-bit carries done. -/
structure Wide where
  d0 : UInt64
  d1 : UInt64
  d2 : UInt64
  d3 : UInt64
  d4 : UInt64

/-- `d0 .. d4`: `h * r`, the high limbs folded in with `s = r*5`. -/
def mulFold (h r s : Limbs) : m Wide := do
  return ⟨← mulRow A h r.l0 s.l4 s.l3 s.l2 s.l1,
    ← mulRow A h r.l1 r.l0 s.l4 s.l3 s.l2,
    ← mulRow A h r.l2 r.l1 r.l0 s.l4 s.l3,
    ← mulRow A h r.l3 r.l2 r.l1 r.l0 s.l4,
    ← mulRow A h r.l4 r.l3 r.l2 r.l1 r.l0⟩

/-- `s1 .. s4 = r1*5 .. r4*5` (there is no `s0`). -/
def foldLimbs (r : Limbs) : m Limbs := do
  return ⟨0, ← A.mul32 r.l1 5, ← A.mul32 r.l2 5, ← A.mul32 r.l3 5, ← A.mul32 r.l4 5⟩

/-- The 64-bit carry chain `c = d0>>26; d0 &= mask; d1 += c; ..`; the last carry
is returned beside the limbs. -/
def carryWide (d : Wide) : m (Wide × UInt64) := do
  let d1 ← A.add64 d.d1 (d.d0 >>> 26)
  let d2 ← A.add64 d.d2 (d1 >>> 26)
  let d3 ← A.add64 d.d3 (d2 >>> 26)
  let d4 ← A.add64 d.d4 (d3 >>> 26)
  return (⟨d.d0 &&& 0x3ffffff, d1 &&& 0x3ffffff, d2 &&& 0x3ffffff, d3 &&& 0x3ffffff,
    d4 &&& 0x3ffffff⟩, d4 >>> 26)

/-- The 32-bit carry chain at the end of a block: `h0 = d0 + c*5`, then up to
`h4`, whose carry goes back into `h0` and from there into `h1`. -/
def carryBlock (d : Wide) (c : UInt64) : m Limbs := do
  let h0 ← A.add32 (← A.narrow d.d0) (← A.mul32 (← A.narrow c) 5)
  let h1 ← A.add32 (← A.narrow d.d1) (h0 >>> 26)
  let h2 ← A.add32 (← A.narrow d.d2) (h1 >>> 26)
  let h3 ← A.add32 (← A.narrow d.d3) (h2 >>> 26)
  let h4 ← A.add32 (← A.narrow d.d4) (h3 >>> 26)
  let h0 ← A.add32 (h0 &&& limbMask) (← A.mul32 (h4 >>> 26) 5)
  let h1 ← A.add32 (h1 &&& limbMask) (h0 >>> 26)
  return ⟨h0 &&& limbMask, h1, h2 &&& limbMask, h3 &&& limbMask, h4 &&& limbMask⟩

/-- One iteration of the block loop, on the `bs <= 16` bytes at `p`. -/
def poly1305Block (r s h : Limbs) (blk : List UInt8) : m Limbs := do
  let buf := blk ++ List.replicate (16 - blk.length) 0
  let nn ← loadLimbs A buf
  let h ← addLimbs A h (placePadBit nn blk.length)
  let d ← mulFold A h r s
  let (d, c) ← carryWide A d
  carryBlock A d c

/-- The block loop: `bs = left>=16 ? 16 : left`. -/
def poly1305Blocks (r s h : Limbs) (msg : List UInt8) : m Limbs :=
  if _hempty : msg = [] then pure h
  else do
    let bs := if 16 ≤ msg.length then 16 else msg.length
    let h ← poly1305Block A r s h (msg.take bs)
    poly1305Blocks r s h (msg.drop bs)
termination_by msg.length
decreasing_by
  have : 0 < msg.length := List.length_pos_iff.mpr _hempty
  simp only [List.length_drop]
  split <;> omega

theorem poly1305Blocks_nil (r s h : Limbs) : poly1305Blocks A r s h [] = pure h := by
  rw [poly1305Blocks, dif_pos rfl]

/-- One of the two final carry passes, from `h1` round to `h1`. -/
def carryPass (h : Limbs) : m Limbs := do
  let h2 ← A.add32 h.l2 (h.l1 >>> 26)
  let h3 ← A.add32 h.l3 (h2 >>> 26)
  let h4 ← A.add32 h.l4 (h3 >>> 26)
  let h0 ← A.add32 h.l0 (← A.mul32 (h4 >>> 26) 5)
  let h1 ← A.add32 (h.l1 &&& limbMask) (h0 >>> 26)
  return ⟨h0 &&& limbMask, h1, h2 &&& limbMask, h3 &&& limbMask, h4 &&& limbMask⟩

/-- `h + (-p)`, selected by the mask when `h >= p`. -/
def subtractP (h : Limbs) : m Limbs := do
  let g0 ← A.add32 h.l0 5
  let g1 ← A.add32 h.l1 (g0 >>> 26)
  let g2 ← A.add32 h.l2 (g1 >>> 26)
  let g3 ← A.add32 h.l3 (g2 >>> 26)
  let g4 ← A.sub32 (← A.add32 h.l4 (g3 >>> 26)) 0x4000000
  let mask ← A.sub32 (g4 >>> 31) 1
  return ⟨(h.l0 &&& ~~~mask) ||| (g0 &&& limbMask &&& mask),
    (h.l1 &&& ~~~mask) ||| (g1 &&& limbMask &&& mask),
    (h.l2 &&& ~~~mask) ||| (g2 &&& limbMask &&& mask),
    (h.l3 &&& ~~~mask) ||| (g3 &&& limbMask &&& mask),
    (h.l4 &&& ~~~mask) ||| (g4 &&& mask)⟩

/-- The two carry passes and the conditional subtraction. -/
def poly1305Reduce (h : Limbs) : m Limbs := do
  let h ← carryPass A h
  let h ← carryPass A h
  subtractP A h

/-- Repack 5x26 into 4x32; bits 128 and above are dropped. -/
def repack (h : Limbs) : m (UInt32 × UInt32 × UInt32 × UInt32) := do
  let acc := h.l0.toUInt64 ||| (← A.shl64 h.l1.toUInt64 26)
  let w0 := acc.toUInt32
  let acc := acc >>> 32 ||| (← A.shl64 h.l2.toUInt64 20)
  let w1 := acc.toUInt32
  let acc := acc >>> 32 ||| (← A.shl64 h.l3.toUInt64 14)
  let w2 := acc.toUInt32
  let acc := acc >>> 32 ||| (← A.shl64 h.l4.toUInt64 8)
  return (w0, w1, w2, acc.toUInt32)

/-- Add the pad `s` (the key's second half) modulo 2^128 and store the tag. -/
def addPad (key : List UInt8) (w : UInt32 × UInt32 × UInt32 × UInt32) :
    m (List UInt8) := do
  let (w0, w1, w2, w3) := w
  let f0 ← A.add64 w0.toUInt64 (le32 (key.drop 16)).toUInt64
  let f1 ← A.add64 (← A.add64 w1.toUInt64 (le32 (key.drop 20)).toUInt64) (f0 >>> 32)
  let f2 ← A.add64 (← A.add64 w2.toUInt64 (le32 (key.drop 24)).toUInt64) (f1 >>> 32)
  let f3 ← A.add64 (← A.add64 w3.toUInt64 (le32 (key.drop 28)).toUInt64) (f2 >>> 32)
  return le32s f0.toUInt32 ++ le32s f1.toUInt32 ++ le32s f2.toUInt32 ++
    le32s f3.toUInt32

/-- The accumulator after the whole message, not yet reduced. -/
def poly1305Accumulate (key msg : List UInt8) : m Limbs := do
  let r := clampLimbs key
  let s ← foldLimbs A r
  poly1305Blocks A r s .zero msg

/-- `poly1305_mac`. -/
def poly1305Mac (key msg : List UInt8) : m (List UInt8) := do
  let h ← poly1305Accumulate A key msg
  let h ← poly1305Reduce A h
  addPad A key (← repack A h)

end Stages

end TinyFramework.Vfs
