/-
  Render/Png.lean --- the screenshot encoder: `mini_png_encode_rgba` writes what a reader of the
  format reads back.

  What is written into a buffer behind its cursor is a text that is appended.
-/
import TinyFramework.Foundation.PngFormat

set_option autoImplicit false

namespace TinyFramework.Render

open TinyFramework.Foundation

/-! ## Checks -/

def pngCrcStep (c : BitVec 32) : BitVec 32 :=
  if c &&& 1#32 ≠ 0#32 then 0xEDB88320#32 ^^^ (c >>> 1) else c >>> 1

/-- `png_crc_table`, as `png_crc_build` fills it -/
def pngCrcTable : List (BitVec 32) :=
  (List.range 256).map fun i => pngCrcStep^[8] (BitVec.ofNat 32 i)

/-- `png_crc32` -/
def pngCrc32 (p : Bytes) : BitVec 32 :=
  let c := p.foldl (fun c b =>
    pngCrcTable.getD ((c ^^^ b.toBitVec.setWidth 32) &&& 0xFF#32).toNat 0 ^^^ (c >>> 8)) 0xFFFFFFFF#32
  c ^^^ 0xFFFFFFFF#32

/-- `png_adler32` -/
def pngAdler32 (p : Bytes) : Nat :=
  let (a, b) := p.foldl (fun (a, b) x =>
    let a := (a + x.toNat) % 65521
    (a, (b + a) % 65521)) (1, 0)
  b <<< 16 ||| a

/-! ## The stream and the chunks -/

def putBe32 (v : Nat) : Bytes := beBytes 4 v

/-- `png_write_chunk` -/
def pngWriteChunk (type data : Bytes) : Bytes :=
  putBe32 data.length ++ (type ++ (data ++ putBe32 (pngCrc32 (type ++ data)).toNat))

/-- The loop over the stored blocks, from `off` on. -/
def storeBlocks (raw : Bytes) (off : Nat) : Bytes :=
  if off < raw.length then
    let left := raw.length - off
    let chunk := if 65535 < left then 65535 else left
    let last := if 65535 < left then 0 else 1
    let len16 := BitVec.ofNat 16 chunk
    last :: (leBytes 2 len16.toNat ++ (leBytes 2 (~~~len16).toNat ++ (raw.drop off).take chunk)) ++
      storeBlocks raw (off + chunk)
  else []
termination_by raw.length - off
decreasing_by
  split_ifs <;> omega

/-- The filtered scanlines. -/
def filterRows (rgba : Bytes) (w h : Nat) : Bytes :=
  (List.range h).flatMap fun y => 0 :: (rgba.drop (y * (w * 4))).take (w * 4)

def zlibStore (raw : Bytes) : Bytes :=
  [0x78, 0x01] ++ storeBlocks raw 0 ++ putBe32 (pngAdler32 raw)

/-- `zlib_cap` -/
def zlibCap (rawLen : Nat) : Nat := 2 + (rawLen + 65534) / 65535 * (5 + 65535) + 4

structure PngOutput where
  out : Bytes
  outLen : Nat

/-- `mini_png_encode_rgba`, if memory is granted to each of its three buffers. -/
def miniPngEncodeRgba (memory : Nat → Bool) (rgba : Bytes) (w h : Int) : Option PngOutput :=
  if w ≤ 0 ∨ h ≤ 0 then none
  else if ¬ (memory 0 ∧ memory 1 ∧ memory 2) then none
  else
    let zlib := zlibStore (filterRows rgba w.toNat h.toNat)
    let ihdr := putBe32 w.toNat ++ putBe32 h.toNat ++ [8, 6, 0, 0, 0]
    let png := [137, 80, 78, 71, 13, 10, 26, 10] ++ pngWriteChunk (ascii "IHDR") ihdr ++
      pngWriteChunk (ascii "IDAT") zlib ++ pngWriteChunk (ascii "IEND") []
    let total := 8 + (4 + 4 + 13 + 4) + (4 + 4 + zlib.length + 4) + (4 + 4 + 0 + 4)
    some ⟨png, total⟩

/-! ## The checks are those of the format -/

theorem pngCrcStep_eq (c : BitVec 32) : pngCrcStep c = crcBit 0xEDB88320#32 c := by
  have hbit : c &&& 1#32 ≠ 0#32 ↔ c.getLsbD 0 = true := by
    rw [BitVec.and_one_eq_setWidth_ofBool_getLsbD]
    cases c.getLsbD 0 <;> decide
  simp only [pngCrcStep, crcBit, hbit]

theorem pngCrcTable_getD (v : BitVec 32) :
    pngCrcTable.getD (v &&& 0xFF#32).toNat 0 = (crcBit 0xEDB88320#32)^[8] (crcLow v) := by
  have hlow : v &&& 0xFF#32 = crcLow v := by
    refine BitVec.eq_of_getLsbD_eq fun i hi => ?_
    have hmask : (0xFF#32).getLsbD i = decide (i < 8) := by
      revert i
      decide
    rw [getLsbD_crcLow, BitVec.getLsbD_and, hmask, Bool.and_comm]
  have hlt : (v &&& 0xFF#32).toNat < 256 := by
    rw [BitVec.toNat_and]
    exact Nat.lt_of_le_of_lt Nat.and_le_right (by decide)
  have hstep : pngCrcStep = crcBit 0xEDB88320#32 := funext pngCrcStep_eq
  rw [pngCrcTable, List.getD_eq_getElem?_getD, List.getElem?_map, List.getElem?_range hlt,
    Option.map_some, Option.getD_some, BitVec.ofNat_toNat, BitVec.setWidth_eq, hstep, hlow]

theorem pngCrc32_eq (p : Bytes) : (pngCrc32 p).toNat = pngCheck p := by
  have hfold : ∀ c : BitVec 32, p.foldl (fun c b =>
      pngCrcTable.getD ((c ^^^ b.toBitVec.setWidth 32) &&& 0xFF#32).toNat 0 ^^^ (c >>> 8)) c =
        p.foldl (crcByte 0xEDB88320#32) c := by
    induction p with
    | nil => exact fun _ => rfl
    | cons b p ih =>
      intro c
      rw [List.foldl_cons, List.foldl_cons, ih, pngCrcTable_getD, crcByte_eq]
      rfl
  rw [pngCrc32, hfold]
  rfl

theorem adlerSecond_concat (bs : Bytes) (x : UInt8) :
    adlerSecond (bs ++ [x]) = adlerSecond bs + adlerFirst (bs ++ [x]) := by
  have hsame : ∀ k ∈ List.range bs.length,
      adlerFirst ((bs ++ [x]).take (k + 1)) = adlerFirst (bs.take (k + 1)) := fun k hk => by
    rw [List.take_append_of_le_length (List.mem_range.1 hk)]
  rw [adlerSecond, List.length_append, List.length_singleton, List.range_succ, List.map_append,
    List.sum_append, List.map_congr_left hsame, List.map_singleton, List.sum_singleton,
    List.take_of_length_le (by simp)]
  rfl

theorem pngAdler32_eq (p : Bytes) : pngAdler32 p = adlerCheck p := by
  have hfold : p.foldl (fun (a, b) x =>
      let a := (a + x.toNat) % 65521
      (a, (b + a) % 65521)) (1, 0) = (adlerFirst p % 65521, adlerSecond p % 65521) := by
    induction p using List.reverseRecOn with
    | nil => rfl
    | append_singleton p x ih =>
      have hfirst : adlerFirst (p ++ [x]) = adlerFirst p + x.toNat := by
        simp only [adlerFirst, List.map_append, List.sum_append, List.map_singleton,
          List.sum_singleton, Nat.add_assoc]
      rw [List.foldl_concat, ih, adlerSecond_concat, hfirst]
      simp only [Nat.mod_add_mod, Nat.add_mod_mod]
  have hlt : adlerFirst p % 65521 < 2 ^ 16 :=
    Nat.lt_trans (Nat.mod_lt _ (by decide)) (by decide)
  rw [pngAdler32, hfold]
  dsimp only
  rw [← Nat.shiftLeft_add_eq_or_of_lt hlt, Nat.shiftLeft_eq]
  rfl

/-! ## The stored blocks -/

/-- The loop writes a block of what is left, and goes on behind it. -/
theorem storeBlocks_eq {raw : Bytes} {off : Nat} (h : off < raw.length) :
    ∃ chunk, chunk ≤ 65535 ∧ 0 < chunk ∧ off + chunk ≤ raw.length ∧
      (chunk < raw.length - off → chunk = 65535) ∧
      storeBlocks raw off =
        storedBlock (decide (chunk = raw.length - off)) ((raw.drop off).take chunk) ++
          storeBlocks raw (off + chunk) := by
  refine ⟨if 65535 < raw.length - off then 65535 else raw.length - off, ?_, ?_, ?_, ?_, ?_⟩
  · split_ifs <;> omega
  · split_ifs <;> omega
  · split_ifs <;> omega
  · split_ifs <;> omega
  · generalize hchunk : (if 65535 < raw.length - off then 65535 else raw.length - off) = chunk
    have hle : chunk ≤ 65535 := by
      rw [← hchunk]
      split_ifs <;> omega
    have hfits : chunk ≤ raw.length - off := by
      rw [← hchunk]
      split_ifs <;> omega
    have hlen : (BitVec.ofNat 16 chunk).toNat = chunk := by
      rw [BitVec.toNat_ofNat]
      exact Nat.mod_eq_of_lt (Nat.lt_succ_of_le hle)
    have hnlen : (~~~BitVec.ofNat 16 chunk).toNat = 65535 - chunk := by
      rw [BitVec.toNat_not, hlen]
    have hdata : ((raw.drop off).take chunk).length = chunk := by
      rw [List.length_take, List.length_drop]
      exact Nat.min_eq_left hfits
    have hlast : (if 65535 < raw.length - off then (0 : UInt8) else 1) =
        if decide (chunk = raw.length - off) then 1 else 0 := by
      rw [← hchunk]
      split_ifs with hmore <;> simp_all
    rw [storeBlocks, if_pos h]
    dsimp only
    rw [hchunk, hlen, hnlen, hlast, storedBlock, hdata]

theorem storeBlocks_end {raw : Bytes} {off : Nat} (h : raw.length ≤ off) :
    storeBlocks raw off = [] := by
  rw [storeBlocks, if_neg (Nat.not_lt.2 h)]

theorem length_storedBlock (last : Bool) (data : Bytes) :
    (storedBlock last data).length = data.length + 5 := by
  simp only [storedBlock, List.length_cons, List.length_append, length_leBytes]
  omega

/-- Each block has five bytes in front of it. -/
theorem length_storeBlocks (raw : Bytes) (off : Nat) : (storeBlocks raw off).length =
    (raw.length - off) + 5 * ((raw.length - off + 65534) / 65535) := by
  generalize hn : raw.length - off = n
  induction n using Nat.strongRecOn generalizing off with
  | ind n ih =>
    rcases Nat.lt_or_ge off raw.length with hlt | hge
    · obtain ⟨chunk, hle, hpos, hfits, hfull, heq⟩ := storeBlocks_eq hlt
      have hdata : ((raw.drop off).take chunk).length = chunk := by
        rw [List.length_take, List.length_drop]
        omega
      rw [heq, List.length_append, length_storedBlock, hdata, ih (n - chunk) (by omega) _ (by omega)]
      rcases Nat.lt_or_ge chunk n with hmore | hlast
      · have hchunk := hfull (by omega)
        omega
      · have hchunk : chunk = n := by omega
        have hblocks : (n + 65534) / 65535 = 1 := by omega
        rw [hchunk, Nat.sub_self, hblocks]
    · rw [storeBlocks_end hge, List.length_nil]
      have hzero : n = 0 := by omega
      rw [hzero]

theorem readStored_storeBlocks {raw : Bytes} {off fuel : Nat} (h : off < raw.length)
    (hfuel : raw.length - off ≤ fuel) (tail : Bytes) :
    readStored fuel (storeBlocks raw off ++ tail) = some (raw.drop off, tail) := by
  induction fuel generalizing off with
  | zero => omega
  | succ fuel ih =>
    obtain ⟨chunk, hle, hpos, hfits, -, heq⟩ := storeBlocks_eq h
    have hdata : ((raw.drop off).take chunk).length ≤ 65535 := by
      rw [List.length_take]
      omega
    rw [heq, List.append_assoc, readStored_storedBlock hdata]
    by_cases hlast : chunk = raw.length - off
    · rw [decide_eq_true hlast, if_pos rfl, storeBlocks_end (by omega), List.nil_append,
        List.take_of_length_le (by rw [List.length_drop]; omega)]
    · rw [decide_eq_false hlast, if_neg Bool.false_ne_true, ih (by omega) (by omega), Option.map_some,
        ← List.drop_drop]
      dsimp only
      rw [List.take_append_drop]

/-- The stream is read back as what it was made of. -/
theorem inflateStored_zlibStore {raw : Bytes} (h : raw ≠ []) :
    inflateStored (zlibStore raw) = some raw := by
  have hpos : 0 < raw.length := List.length_pos_iff.2 h
  have hform : zlibStore raw = 0x78 :: 0x01 :: (storeBlocks raw 0 ++ putBe32 (pngAdler32 raw)) := rfl
  have hfuel : raw.length - 0 ≤ (storeBlocks raw 0 ++ putBe32 (pngAdler32 raw)).length := by
    rw [List.length_append, length_storeBlocks]
    omega
  have hcheck : adlerCheck raw < 256 ^ 4 := by
    have hfirst : adlerFirst raw % 65521 < 65521 := Nat.mod_lt _ (by decide)
    have hsecond : adlerSecond raw % 65521 < 65521 := Nat.mod_lt _ (by decide)
    rw [adlerCheck]
    omega
  rw [hform, inflateStored, if_pos (by decide), readStored_storeBlocks hpos hfuel,
    Option.bind_some, List.drop_zero]
  exact if_pos ⟨length_beBytes 4 _, by rw [putBe32, pngAdler32_eq, beValue_beBytes hcheck]⟩

/-- What the loops write does not go beyond the buffer. -/
theorem length_zlibStore_le (raw : Bytes) : (zlibStore raw).length ≤ zlibCap raw.length := by
  have hblocks := length_storeBlocks raw 0
  simp only [zlibStore, putBe32, zlibCap, List.length_append, length_beBytes, List.length_cons,
    List.length_nil]
  omega

/-! ## The file -/

theorem pngWriteChunk_eq (type data : Bytes) : pngWriteChunk type data = chunkBytes ⟨type, data⟩ := by
  simp only [pngWriteChunk, chunkBytes, putBe32, pngCrc32_eq]

theorem length_filterRows {rgba : Bytes} {w h : Nat} (hlength : rgba.length = h * (w * 4)) :
    (filterRows rgba w h).length = h * (w * 4 + 1) := by
  have hrow : ∀ y ∈ List.range h, ((0 : UInt8) :: (rgba.drop (y * (w * 4))).take (w * 4)).length =
      w * 4 + 1 := by
    intro y hy
    have hy : y + 1 ≤ h := List.mem_range.1 hy
    have hroom : (y + 1) * (w * 4) ≤ rgba.length := hlength ▸ Nat.mul_le_mul_right _ hy
    rw [Nat.succ_mul] at hroom
    rw [List.length_cons, List.length_take, List.length_drop, Nat.min_eq_left (by omega)]
  rw [filterRows, List.length_flatMap, List.map_congr_left hrow, List.map_const', List.sum_replicate,
    List.length_range]
  rfl

/-- The file of an image with natural numbers for its size. -/
theorem readPng_chunks (rgba : Bytes) {w h : Nat} (hw : 1 ≤ w) (hh : 1 ≤ h)
    (hlength : rgba.length = h * (w * 4)) (hfits : h * (w * 4 + 1) < 2 ^ 31) :
    readPng (pngSignature ++ ([⟨ihdrType, putBe32 w ++ putBe32 h ++ [8, 6, 0, 0, 0]⟩,
        ⟨idatType, zlibStore (filterRows rgba w h)⟩].flatMap chunkBytes ++
          chunkBytes ⟨iendType, []⟩)) =
      some ⟨w, h, rgba⟩ := by
  have hraw := length_filterRows hlength
  have hzlib : (zlibStore (filterRows rgba w h)).length < 2 ^ 32 := by
    have hcap := length_zlibStore_le (filterRows rgba w h)
    simp only [zlibCap, hraw] at hcap
    omega
  have hnonempty : filterRows rgba w h ≠ [] := by
    rw [← List.length_pos_iff, hraw]
    exact Nat.mul_pos hh (Nat.succ_pos _)
  have hwlt : w < 256 ^ 4 := by
    have hone : 1 * (w * 4 + 1) ≤ h * (w * 4 + 1) := Nat.mul_le_mul_right _ hh
    omega
  have hhlt : h < 256 ^ 4 := by
    have hone : h * 1 ≤ h * (w * 4 + 1) := Nat.mul_le_mul_left _ (Nat.succ_pos _)
    omega
  have hchunks : ∀ c ∈ [(⟨ihdrType, putBe32 w ++ putBe32 h ++ [8, 6, 0, 0, 0]⟩ : PngChunk),
      ⟨idatType, zlibStore (filterRows rgba w h)⟩],
        c.type.length = 4 ∧ c.data.length < 2 ^ 32 ∧ c.type ≠ iendType := by
    intro c hc
    rcases List.mem_cons.1 hc with rfl | hc
    · refine ⟨rfl, ?_, show ihdrType ≠ iendType by decide⟩
      simp only [putBe32, List.length_append, length_beBytes, List.length_cons, List.length_nil]
      omega
    · rw [List.mem_singleton.1 hc]
      exact ⟨rfl, hzlib, show idatType ≠ iendType by decide⟩
  have hwidth : (putBe32 w ++ putBe32 h ++ [8, 6, 0, 0, 0]).take 4 = beBytes 4 w := by
    rw [List.append_assoc, putBe32, List.take_left' (length_beBytes 4 _)]
  have hheight : ((putBe32 w ++ putBe32 h ++ [8, 6, 0, 0, 0]).drop 4).take 4 = beBytes 4 h := by
    rw [List.append_assoc, putBe32, List.drop_left' (length_beBytes 4 _), putBe32,
      List.take_left' (length_beBytes 4 _)]
  have hrest : (putBe32 w ++ putBe32 h ++ [8, 6, 0, 0, 0]).drop 8 = [8, 6, 0, 0, 0] :=
    List.drop_left' (by rw [List.length_append, putBe32, putBe32, length_beBytes, length_beBytes])
  have hrows : readRows h (4 * w) (filterRows rgba w h) = some rgba := by
    rw [Nat.mul_comm 4 w]
    exact readRows_flatMap rgba hlength
  have hsignature : ∀ bs, (pngSignature ++ bs).take 8 = pngSignature ∧
      (pngSignature ++ bs).drop 8 = bs := fun bs => ⟨List.take_left' rfl, List.drop_left' rfl⟩
  rw [readPng, if_pos (hsignature _).1, (hsignature _).2, readChunks_chunkBytes _ hchunks (by
    simp only [List.length_append, List.length_cons, List.length_nil, pngSignature]
    omega)]
  simp only [Option.bind_some, readImage, hwidth, hheight, hrest, beValue_beBytes hwlt,
    beValue_beBytes hhlt, List.flatMap_singleton, inflateStored_zlibStore hnonempty, hrows]
  refine if_pos ⟨trivial, trivial, by omega, by omega, fun c hc => ?_⟩
  rw [List.mem_singleton.1 hc]

/-- Every image whose filtered rows have fewer than 2^31 bytes is read back from its file, which has
the length that is told. -/
theorem png_round_trip (memory : Nat → Bool) {rgba : Bytes} {w h : Int} (hw : 1 ≤ w) (hh : 1 ≤ h)
    (hlength : (rgba.length : Int) = h * (w * 4)) (hfits : h * (w * 4 + 1) < 2 ^ 31) {r : PngOutput}
    (hr : miniPngEncodeRgba memory rgba w h = some r) :
    readPng r.out = some ⟨w.toNat, h.toNat, rgba⟩ ∧ r.out.length = r.outLen := by
  obtain ⟨w, rfl⟩ := Int.eq_ofNat_of_zero_le (show 0 ≤ w by omega)
  obtain ⟨h, rfl⟩ := Int.eq_ofNat_of_zero_le (show 0 ≤ h by omega)
  have hnamed : ascii "IHDR" = ihdrType ∧ ascii "IDAT" = idatType ∧ ascii "IEND" = iendType := by
    decide
  unfold miniPngEncodeRgba at hr
  split_ifs at hr
  cases hr
  simp only [Int.toNat_natCast, hnamed, pngWriteChunk_eq]
  constructor
  · have hread := readPng_chunks rgba (show 1 ≤ w by omega) (show 1 ≤ h by omega)
      (by exact_mod_cast hlength) (by exact_mod_cast hfits)
    simpa only [List.flatMap_cons, List.flatMap_nil, List.append_nil, List.append_assoc,
      pngSignature] using hread
  · simp only [chunkBytes, putBe32, List.length_append, length_beBytes, List.length_cons,
      List.length_nil, ihdrType, idatType, iendType]
    omega

theorem png_round_trip_pixel :
    ∃ r, miniPngEncodeRgba (fun _ => true) [1, 2, 3, 4] 1 1 = some r ∧
      readPng r.out = some ⟨1, 1, [1, 2, 3, 4]⟩ ∧ r.out.length = r.outLen :=
  ⟨_, rfl, png_round_trip (fun _ => true) (show (1 : Int) ≤ 1 by decide) (show (1 : Int) ≤ 1 by decide)
    rfl (show (1 : Int) * (1 * 4 + 1) < 2 ^ 31 by decide) rfl⟩

end TinyFramework.Render
