/-
  Foundation/PngFormat.lean --- the format of PNG files, and the check of its chunks.

  The register is shifted to the right, and the polynomial is taken away where a one falls out.  This
  is linear over the exclusive or, so that eight shifts are one look into a table of the remainders
  of the bytes.

  A reader of the three formats in each other: chunks with their checks, a stream of stored blocks
  with the check of what is in it, and rows behind the type of their filter, which is none.  A
  length is an unsigned number of four bytes.  Compressed blocks, other filters and other chunks are
  refused.
-/
import TinyFramework.Foundation.Endian

set_option autoImplicit false

namespace TinyFramework.Foundation

section Crc

variable {n : Nat} (poly : BitVec n)

def crcBit (c : BitVec n) : BitVec n :=
  if c.getLsbD 0 then poly ^^^ (c >>> 1) else c >>> 1

/-- A byte as a register. -/
def crcWiden (b : UInt8) : BitVec n := b.toBitVec.setWidth n

def crcByte (c : BitVec n) (b : UInt8) : BitVec n := (crcBit poly)^[8] (c ^^^ crcWiden b)

/-- The check of a text; the register begins with ones, and is inverted in the end. -/
def crcCheck (bs : List UInt8) : BitVec n :=
  bs.foldl (crcByte poly) (BitVec.allOnes n) ^^^ BitVec.allOnes n

/-- The low byte of a register, as a register. -/
def crcLow (c : BitVec n) : BitVec n := (c.setWidth 8).setWidth n

/-! ## By a table -/

variable {poly}

theorem crcBit_xor (x y : BitVec n) : crcBit poly (x ^^^ y) = crcBit poly x ^^^ crcBit poly y := by
  simp only [crcBit, BitVec.getLsbD_xor, BitVec.ushiftRight_xor_distrib]
  cases x.getLsbD 0 <;> cases y.getLsbD 0 <;> simp only [Bool.xor_false, Bool.xor_true,
    Bool.not_false, Bool.not_true, Bool.false_eq_true, if_true, if_false]
  · rw [← BitVec.xor_assoc, ← BitVec.xor_assoc, BitVec.xor_comm poly (x >>> 1)]
  · rw [BitVec.xor_assoc]
  · rw [BitVec.xor_comm poly (x >>> 1), BitVec.xor_assoc, ← BitVec.xor_assoc poly,
      BitVec.xor_self, BitVec.zero_xor]

theorem crcBit_iterate_xor (k : Nat) (x y : BitVec n) :
    (crcBit poly)^[k] (x ^^^ y) = (crcBit poly)^[k] x ^^^ (crcBit poly)^[k] y := by
  induction k with
  | zero => rfl
  | succ k ih => rw [Function.iterate_succ_apply', Function.iterate_succ_apply',
      Function.iterate_succ_apply', ih, crcBit_xor]

/-- While zeros fall out, the register is only shifted. -/
theorem crcBit_iterate_zeros {c : BitVec n} {k : Nat} (h : ∀ i < k, c.getLsbD i = false) :
    (crcBit poly)^[k] c = c >>> k := by
  induction k with
  | zero => rfl
  | succ k ih =>
    have hbit : (c >>> k).getLsbD 0 = false := by
      rw [BitVec.getLsbD_ushiftRight, Nat.add_zero]
      exact h k (Nat.lt_succ_self k)
    rw [Function.iterate_succ_apply', ih fun i hi => h i (Nat.lt_succ_of_lt hi), crcBit, hbit,
      if_neg Bool.false_ne_true, BitVec.shiftRight_add]

theorem getLsbD_crcLow (c : BitVec n) (i : Nat) :
    (crcLow c).getLsbD i = (decide (i < 8) && c.getLsbD i) := by
  rw [crcLow, BitVec.getLsbD_setWidth, BitVec.getLsbD_setWidth]
  by_cases hi : i < n
  · simp only [hi, decide_true, Bool.true_and]
  · rw [BitVec.getLsbD_of_ge c i (Nat.not_lt.1 hi), Bool.and_false, Bool.and_false]

/-- The register behind a byte: the remainder of its low byte, and what is above shifted down. -/
theorem crcByte_eq (c : BitVec n) (b : UInt8) :
    crcByte poly c b = (crcBit poly)^[8] (crcLow (c ^^^ crcWiden b)) ^^^ (c >>> 8) := by
  have hsplit : ∀ v : BitVec n, v = crcLow v ^^^ (v ^^^ crcLow v) := fun v => by
    rw [BitVec.xor_comm v, ← BitVec.xor_assoc, BitVec.xor_self, BitVec.zero_xor]
  have hhigh : ∀ v : BitVec n, (crcBit poly)^[8] (v ^^^ crcLow v) = v >>> 8 := by
    intro v
    rw [crcBit_iterate_zeros fun i hi => ?_]
    · refine BitVec.eq_of_getLsbD_eq fun i _ => ?_
      rw [BitVec.getLsbD_ushiftRight, BitVec.getLsbD_ushiftRight, BitVec.getLsbD_xor,
        getLsbD_crcLow, decide_eq_false (by omega), Bool.false_and, Bool.xor_false]
    · rw [BitVec.getLsbD_xor, getLsbD_crcLow, decide_eq_true hi, Bool.true_and, Bool.xor_self]
  have hbyte : (c ^^^ crcWiden b) >>> 8 = c >>> 8 := by
    refine BitVec.eq_of_getLsbD_eq fun i _ => ?_
    rw [BitVec.getLsbD_ushiftRight, BitVec.getLsbD_ushiftRight, BitVec.getLsbD_xor, crcWiden,
      BitVec.getLsbD_setWidth, BitVec.getLsbD_of_ge b.toBitVec (8 + i) (Nat.le_add_right 8 i),
      Bool.and_false, Bool.xor_false]
  calc (crcBit poly)^[8] (c ^^^ crcWiden b)
      = (crcBit poly)^[8] (crcLow (c ^^^ crcWiden b) ^^^
          ((c ^^^ crcWiden b) ^^^ crcLow (c ^^^ crcWiden b))) :=
        congrArg (crcBit poly)^[8] (hsplit (c ^^^ crcWiden b))
    _ = (crcBit poly)^[8] (crcLow (c ^^^ crcWiden b)) ^^^ (c >>> 8) := by
        rw [crcBit_iterate_xor, hhigh, hbyte]

end Crc

/-! ## Chunks -/

structure PngChunk where
  type : Bytes
  data : Bytes
  deriving DecidableEq, Repr

def pngSignature : Bytes := [137, 80, 78, 71, 13, 10, 26, 10]

def ihdrType : Bytes := [73, 72, 68, 82]

def idatType : Bytes := [73, 68, 65, 84]

def iendType : Bytes := [73, 69, 78, 68]

/-- The check of a chunk. -/
def pngCheck (bs : Bytes) : Nat := (crcCheck 0xEDB88320#32 bs).toNat

def readChunk (bs : Bytes) : Option (PngChunk × Bytes) :=
  let len := beValue (bs.take 4)
  let type := (bs.drop 4).take 4
  let data := (bs.drop 8).take len
  let rest := (bs.drop 8).drop len
  if 8 ≤ bs.length ∧ len ≤ (bs.drop 8).length ∧ 4 ≤ rest.length ∧
      beValue (rest.take 4) = pngCheck (type ++ data) then
    some (⟨type, data⟩, rest.drop 4)
  else none

/-- The chunks in front of the last one, with which the file ends. -/
def readChunks : Nat → Bytes → Option (List PngChunk)
  | 0, _ => none
  | fuel + 1, bs => do
      let (c, rest) ← readChunk bs
      if c.type = iendType then
        if c.data = [] ∧ rest = [] then some [] else none
      else
        let chunks ← readChunks fuel rest
        return c :: chunks

/-! ## Stored blocks -/

def readStored : Nat → Bytes → Option (Bytes × Bytes)
  | 0, _ => none
  | _ + 1, [] => none
  | fuel + 1, b :: bs =>
      let len := leValue (bs.take 2)
      let nlen := leValue ((bs.drop 2).take 2)
      let rest := bs.drop 4
      if b.toNat / 2 % 4 = 0 ∧ 4 ≤ bs.length ∧ len + nlen = 65535 ∧ len ≤ rest.length then
        if b.toNat % 2 = 1 then some (rest.take len, rest.drop len)
        else (readStored fuel (rest.drop len)).map fun (data, tail) => (rest.take len ++ data, tail)
      else none

/-- The sum of the bytes and one. -/
def adlerFirst (bs : Bytes) : Nat := 1 + (bs.map UInt8.toNat).sum

/-- The sum of the first sums of all beginnings. -/
def adlerSecond (bs : Bytes) : Nat :=
  ((List.range bs.length).map fun k => adlerFirst (bs.take (k + 1))).sum

def adlerCheck (bs : Bytes) : Nat := adlerSecond bs % 65521 * 65536 + adlerFirst bs % 65521

/-- A stream without a dictionary, and nothing behind its check. -/
def inflateStored : Bytes → Option Bytes
  | cmf :: flg :: blocks =>
      if (cmf.toNat * 256 + flg.toNat) % 31 = 0 ∧ cmf.toNat % 16 = 8 ∧ cmf.toNat / 16 ≤ 7 ∧
          flg.toNat / 32 % 2 = 0 then
        (readStored blocks.length blocks).bind fun (data, check) =>
          if check.length = 4 ∧ beValue check = adlerCheck data then some data else none
      else none
  | _ => none

/-! ## Images -/

/-- The rows of an image, each behind the type of its filter. -/
def readRows : Nat → Nat → Bytes → Option Bytes
  | 0, _, bs => if bs = [] then some [] else none
  | _ + 1, _, [] => none
  | h + 1, row, filter :: bs =>
      if filter = 0 ∧ row ≤ bs.length then
        (readRows h row (bs.drop row)).map (bs.take row ++ ·)
      else none

structure RgbaImage where
  width : Nat
  height : Nat
  rgba : Bytes
  deriving DecidableEq, Repr

/-- The first chunk has the size, and that there are eight bits a channel with alpha; the others
have the rows. -/
def readImage : List PngChunk → Option RgbaImage
  | [] => none
  | header :: rest =>
      let width := beValue (header.data.take 4)
      let height := beValue ((header.data.drop 4).take 4)
      if header.type = ihdrType ∧ header.data.drop 8 = [8, 6, 0, 0, 0] ∧ width ≠ 0 ∧ height ≠ 0 ∧
          ∀ c ∈ rest, c.type = idatType then
        (inflateStored (rest.flatMap PngChunk.data)).bind fun raw =>
          (readRows height (4 * width) raw).map (⟨width, height, ·⟩)
      else none

def readPng (bs : Bytes) : Option RgbaImage :=
  if bs.take 8 = pngSignature then (readChunks bs.length (bs.drop 8)).bind readImage else none

/-! ## What is written is read -/

/-- A chunk with its length and its check. -/
def chunkBytes (c : PngChunk) : Bytes :=
  beBytes 4 c.data.length ++ (c.type ++ (c.data ++ beBytes 4 (pngCheck (c.type ++ c.data))))

theorem readChunk_chunkBytes {c : PngChunk} (htype : c.type.length = 4)
    (hdata : c.data.length < 2 ^ 32) (rest : Bytes) :
    readChunk (chunkBytes c ++ rest) = some (c, rest) := by
  have hcheck : pngCheck (c.type ++ c.data) < 256 ^ 4 := BitVec.isLt _
  have hform : chunkBytes c ++ rest = beBytes 4 c.data.length ++
      (c.type ++ (c.data ++ (beBytes 4 (pngCheck (c.type ++ c.data)) ++ rest))) := by
    simp only [chunkBytes, List.append_assoc]
  have htake : (chunkBytes c ++ rest).take 4 = beBytes 4 c.data.length := by
    rw [hform, List.take_left' (length_beBytes 4 _)]
  have hdrop : (chunkBytes c ++ rest).drop 4 =
      c.type ++ (c.data ++ (beBytes 4 (pngCheck (c.type ++ c.data)) ++ rest)) := by
    rw [hform, List.drop_left' (length_beBytes 4 _)]
  have hdrop8 : (chunkBytes c ++ rest).drop 8 =
      c.data ++ (beBytes 4 (pngCheck (c.type ++ c.data)) ++ rest) := by
    rw [show 8 = 4 + 4 from rfl, ← List.drop_drop, hdrop, List.drop_left' htype]
  have hlen : beValue ((chunkBytes c ++ rest).take 4) = c.data.length := by
    rw [htake, beValue_beBytes hdata]
  have hok : 8 ≤ (chunkBytes c ++ rest).length ∧
      c.data.length ≤ (c.data ++ (beBytes 4 (pngCheck (c.type ++ c.data)) ++ rest)).length ∧
      4 ≤ (beBytes 4 (pngCheck (c.type ++ c.data)) ++ rest).length ∧
      beValue ((beBytes 4 (pngCheck (c.type ++ c.data)) ++ rest).take 4) =
        pngCheck (c.type ++ c.data) := by
    refine ⟨?_, ?_, ?_, ?_⟩
    · rw [hform, List.length_append, List.length_append, length_beBytes, htype]
      omega
    · rw [List.length_append]
      exact Nat.le_add_right _ _
    · rw [List.length_append, length_beBytes]
      exact Nat.le_add_right _ _
    · rw [List.take_left' (length_beBytes 4 _), beValue_beBytes hcheck]
  simp only [readChunk, hlen, hdrop8, hdrop, List.take_left' htype, List.take_left, List.drop_left,
    if_pos hok, List.drop_left' (length_beBytes 4 _)]

/-- The last chunk ends the file. -/
theorem readChunks_chunkBytes (chunks : List PngChunk)
    (h : ∀ c ∈ chunks, c.type.length = 4 ∧ c.data.length < 2 ^ 32 ∧ c.type ≠ iendType) {fuel : Nat}
    (hfuel : chunks.length < fuel) :
    readChunks fuel (chunks.flatMap chunkBytes ++ chunkBytes ⟨iendType, []⟩) = some chunks := by
  induction chunks generalizing fuel with
  | nil =>
    obtain ⟨fuel, rfl⟩ := Nat.exists_eq_succ_of_ne_zero (Nat.ne_of_gt hfuel)
    have hread := readChunk_chunkBytes (c := ⟨iendType, []⟩) rfl (by decide) []
    rw [List.append_nil] at hread
    simp only [List.flatMap_nil, List.nil_append, readChunks, hread]
    rfl
  | cons c chunks ih =>
    obtain ⟨fuel, rfl⟩ := Nat.exists_eq_succ_of_ne_zero (Nat.ne_of_gt (Nat.zero_lt_of_lt hfuel))
    obtain ⟨htype, hdata, hend⟩ := h c (List.mem_cons_self ..)
    have hrest := ih (fun c hc => h c (List.mem_cons_of_mem _ hc)) (Nat.lt_of_succ_lt_succ hfuel)
    simp only [List.flatMap_cons, List.append_assoc, readChunks,
      readChunk_chunkBytes htype hdata, Option.bind_eq_bind, Option.bind_some, if_neg hend, hrest]
    rfl

/-- A stored block of fewer than 65536 bytes. -/
def storedBlock (last : Bool) (data : Bytes) : Bytes :=
  (if last then 1 else 0) ::
    (leBytes 2 data.length ++ (leBytes 2 (65535 - data.length) ++ data))

theorem readStored_storedBlock {data : Bytes} (h : data.length ≤ 65535) (last : Bool) (fuel : Nat)
    (rest : Bytes) :
    readStored (fuel + 1) (storedBlock last data ++ rest) =
      if last then some (data, rest)
      else (readStored fuel rest).map fun (more, tail) => (data ++ more, tail) := by
  have hform : leBytes 2 data.length ++ (leBytes 2 (65535 - data.length) ++ data) ++ rest =
      leBytes 2 data.length ++ (leBytes 2 (65535 - data.length) ++ (data ++ rest)) := by
    simp only [List.append_assoc]
  have hdrop : (leBytes 2 data.length ++ (leBytes 2 (65535 - data.length) ++ (data ++ rest))).drop 4 =
      data ++ rest := by
    rw [show 4 = 2 + 2 from rfl, ← List.drop_drop, List.drop_left' (length_leBytes 2 _),
      List.drop_left' (length_leBytes 2 _)]
  have hok : (if last then (1 : UInt8) else 0).toNat / 2 % 4 = 0 ∧
      4 ≤ (leBytes 2 data.length ++ (leBytes 2 (65535 - data.length) ++ (data ++ rest))).length ∧
      data.length + (65535 - data.length) = 65535 ∧ data.length ≤ (data ++ rest).length := by
    refine ⟨by cases last <;> rfl, ?_, Nat.add_sub_of_le h, ?_⟩
    · rw [List.length_append, List.length_append, length_leBytes, length_leBytes]
      omega
    · rw [List.length_append]
      exact Nat.le_add_right _ _
  simp only [storedBlock, List.cons_append, readStored, hform, hdrop,
    List.take_left' (length_leBytes 2 _), List.drop_left' (length_leBytes 2 _),
    leValue_leBytes (show data.length < 256 ^ 2 by omega),
    leValue_leBytes (show 65535 - data.length < 256 ^ 2 by omega), if_pos hok, List.take_left,
    List.drop_left]
  cases last <;> rfl

theorem readRows_flatMap (rgba : Bytes) {h row : Nat} (hlength : rgba.length = h * row) :
    readRows h row ((List.range h).flatMap fun y => 0 :: (rgba.drop (y * row)).take row) =
      some rgba := by
  induction h generalizing rgba with
  | zero =>
    rw [Nat.zero_mul] at hlength
    rw [List.eq_nil_of_length_eq_zero hlength]
    rfl
  | succ h ih =>
    have hrest := ih (rgba.drop row) (by rw [List.length_drop, hlength, Nat.succ_mul]; omega)
    have hrow : row ≤ rgba.length := by
      rw [hlength, Nat.succ_mul]
      exact Nat.le_add_left _ _
    have hfirst : (rgba.take row).length = row := List.length_take_of_le hrow
    have hrows : ((List.range (h + 1)).flatMap fun y => 0 :: (rgba.drop (y * row)).take row) =
        0 :: (rgba.take row ++
          (List.range h).flatMap fun y => 0 :: ((rgba.drop row).drop (y * row)).take row) := by
      rw [List.range_succ_eq_map, List.flatMap_cons, List.flatMap_map, Nat.zero_mul, List.drop_zero,
        List.cons_append]
      simp only [Nat.succ_mul, List.drop_drop, Nat.add_comm]
    have hok : (0 : UInt8) = 0 ∧ row ≤ (rgba.take row ++
        (List.range h).flatMap fun y => 0 :: ((rgba.drop row).drop (y * row)).take row).length := by
      rw [List.length_append, hfirst]
      exact ⟨rfl, Nat.le_add_right _ _⟩
    rw [hrows, readRows, if_pos hok, List.drop_left' hfirst, List.take_left' hfirst, hrest,
      Option.map_some, List.take_append_drop]

end TinyFramework.Foundation
