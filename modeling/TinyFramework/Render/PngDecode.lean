/-
  Render/PngDecode.lean --- `mini_png_decode_rgba`, the reader of BMP and TGA images.

  A read or a write outside of its buffer, and an overflow of `int`, end the run without a value.
  Cells of the new buffer hold nothing until they are written.
-/
import TinyFramework.Foundation.Endian
import TinyFramework.Foundation.Raster

set_option autoImplicit false

namespace TinyFramework.Render

open TinyFramework.Foundation

/-! ## Rows -/

/-- What `malloc` returned. -/
abbrev Cells := List (Option UInt8)

/-- The bytes of a pixel, which are read with blue first, as they are written. -/
def rgbaOf : Bytes → Bytes
  | [b, g, r, a] => [r, g, b, a]
  | [b, g, r] => [r, g, b, 255]
  | s => s

/-- One turn of the loops over a row, with `px` bytes in a pixel of the input. -/
def copyPixel (data : Bytes) (px src dst : Nat) (rgba : Cells) : Option Cells :=
  (readRange data src px).bind fun s => writeRange rgba dst ((rgbaOf s).map some)

/-- The loops over a row: the pointers move on by `px` and by 4. -/
def copyRow (data : Bytes) (px w src dst : Nat) (rgba : Cells) : Option Cells :=
  (List.range w).foldlM (fun rgba x => copyPixel data px (src + x * px) (dst + x * 4) rgba) rgba

/-! ## Headers -/

/-- A number of `n` bytes in a header. -/
def headerNat (data : Bytes) (i n : Nat) : Option Nat := (readRange data i n).map leValue

structure BmpHeader where
  dataOffset : UInt32
  w : Int32
  h : Int32
  bpp : UInt16
  deriving DecidableEq, Repr

def bmpHeader (data : Bytes) : Option BmpHeader := do
  let dataOffset ← headerNat data 10 4
  let w ← headerNat data 18 4
  let h ← headerNat data 22 4
  let bpp ← headerNat data 28 2
  some ⟨.ofNat dataOffset, .ofNat w, .ofNat h, .ofNat bpp⟩

structure TgaHeader where
  w : UInt16
  h : UInt16
  bpp : UInt8
  idLen : UInt8
  descriptor : UInt8
  deriving DecidableEq, Repr

def tgaHeader (data : Bytes) : Option TgaHeader := do
  let w ← headerNat data 12 2
  let h ← headerNat data 14 2
  let bpp ← data[16]?
  let idLen ← data[0]?
  let descriptor ← data[17]?
  some ⟨.ofNat w, .ofNat h, bpp, idLen, descriptor⟩

/-! ## Images -/

structure RgbaImage where
  rgba : Cells
  w : Nat
  h : Nat
  deriving DecidableEq, Repr

/-- The loop over the rows of a BMP, from row `y` on; it ends at a row that is not in the file. -/
def bmpRows (data : Bytes) (px w h dataOffset rowStride : Nat) (flipY : Bool) :
    Nat → Nat → Cells → Option Cells
  | 0, _, rgba => some rgba
  | n + 1, y, rgba =>
      let srcY := if flipY then h - 1 - y else y
      let rowOff := (dataOffset + srcY * rowStride) % 2 ^ 64
      if data.length < (rowOff + w * px) % 2 ^ 64 then some rgba
      else
        (copyRow data px w rowOff (y * w * 4) rgba).bind
          (bmpRows data px w h dataOffset rowStride flipY n (y + 1))

/-- A BMP whose width is positive, with `px` bytes in a pixel; `malloc` tells which sizes it finds
room for. -/
def bmpImage (malloc : Nat → Bool) (data : Bytes) (px w h dataOffset : Nat) (flipY : Bool) :
    Option (Option RgbaImage) :=
  let size := w * h * 4 % 2 ^ 64
  if malloc size then do
    let rowBytes ← checkedInt (w * px)
    let padded ← checkedInt (rowBytes + 3)
    let rgba ← bmpRows data px w h dataOffset (padded.toNat / 4 * 4) flipY h 0
      (List.replicate size none)
    some (some ⟨rgba, w, h⟩)
  else some none

/-- `if (h < 0) { h = -h; … }` -/
def bmpHeight (h : Int32) : Option ℤ := if h.toInt < 0 then checkedInt (-h.toInt) else some h.toInt

/-- The BMP parser. -/
def decodeBmp (malloc : Nat → Bool) (data : Bytes) (header : BmpHeader) :
    Option (Option RgbaImage) :=
  let w := header.w.toInt
  let bpp := header.bpp.toNat
  if w ≤ 0 ∨ header.h.toInt = 0 ∨ (bpp ≠ 24 ∧ bpp ≠ 32) ∨ data.length ≤ header.dataOffset.toNat then
    some none
  else
    (bmpHeight header.h).bind fun h =>
      bmpImage malloc data (bpp / 8) w.toNat h.toNat header.dataOffset.toNat (0 ≤ header.h.toInt)

/-- The loop over the rows of a TGA. -/
def tgaRows (data : Bytes) (px w h src : Nat) (topDown : Bool) (rgba : Cells) : Option Cells :=
  (List.range h).foldlM (fun rgba y =>
    let dstY := if topDown then y else h - 1 - y
    copyRow data px w (src + y * w * px) (dstY * w * 4) rgba) rgba

/-- The TGA parser. -/
def decodeTga (malloc : Nat → Bool) (data : Bytes) (header : TgaHeader) :
    Option (Option RgbaImage) :=
  let w := header.w.toNat
  let h := header.h.toNat
  let bpp := header.bpp.toNat
  let src := 18 + header.idLen.toNat
  if 0 < w ∧ 0 < h ∧ (bpp = 24 ∨ bpp = 32) ∧ (src : ℤ) < (Int32.ofNat data.length).toInt then
    let size := w * h * 4 % 2 ^ 64
    if malloc size then do
      let rgba ← tgaRows data (bpp / 8) w h src (header.descriptor &&& 0x20 ≠ 0)
        (List.replicate size none)
      some (some ⟨rgba, w, h⟩)
    else some none
  else some none

/-- `mini_png_decode_rgba`: `none` is a run that goes wrong, `some none` the result -1. -/
def miniPngDecodeRgba (malloc : Nat → Bool) (data : Bytes) : Option (Option RgbaImage) :=
  if data.length < 18 then some none
  else if data[0]? = some 66 ∧ data[1]? = some 77 ∧ 54 ≤ data.length then
    (bmpHeader data).bind (decodeBmp malloc data)
  else if data[2]? = some 2 then (tgaHeader data).bind (decodeTga malloc data)
  else some none

/-! ## What is written -/

/-- Every pixel of the image is one of the input. -/
def WrittenFromInput (data : Bytes) (img : RgbaImage) : Prop :=
  img.rgba.length = img.w * img.h * 4 ∧
    ∀ p < img.w * img.h, ∃ i n s, (n = 3 ∨ n = 4) ∧ readRange data i n = some s ∧
      pixel 4 img.rgba p = (rgbaOf s).map some

/-- Nothing goes wrong, and an image that is returned is written as a whole. -/
def Whole (data : Bytes) (run : Option (Option RgbaImage)) : Prop :=
  ∃ r, run = some r ∧ ∀ img ∈ r, WrittenFromInput data img

section rows

variable {data : Bytes} {px w h n y d src dataOffset rowStride : Nat} {flipY topDown : Bool}
  {rgba : Cells}

/-- What is written for the pixel at `i`. -/
def inputPixel (data : Bytes) (px i : Nat) : Cells := (rgbaOf ((data.drop i).take px)).map some

theorem length_rgbaOf {s : Bytes} (h : s.length = 3 ∨ s.length = 4) : (rgbaOf s).length = 4 := by
  rcases s with _ | ⟨b, _ | ⟨g, _ | ⟨r, _ | ⟨a, _ | ⟨e, s⟩⟩⟩⟩⟩
  all_goals first | rfl | simp at h

theorem length_inputPixel (hpx : px = 3 ∨ px = 4) (hsrc : src + px ≤ data.length) :
    (inputPixel data px src).length = 4 := by
  have htake : ((data.drop src).take px).length = px := by
    rw [List.length_take, List.length_drop]
    omega
  rw [inputPixel, List.length_map]
  exact length_rgbaOf (by rwa [htake])

theorem copyPixel_painted (hpx : px = 3 ∨ px = 4) (hsrc : src + px ≤ data.length)
    (hdst : d * 4 + 4 ≤ rgba.length) :
    ∃ c, copyPixel data px src (d * 4) rgba = some c ∧
      Painted 4 (· = d) (fun _ => inputPixel data px src) rgba c := by
  have hcells : (inputPixel data px src).length = 1 * 4 := length_inputPixel hpx hsrc
  obtain ⟨c, hc, hpaint⟩ := writeRange_painted hcells (by omega)
  refine ⟨c, ?_, hpaint.congr (fun p => by omega) fun p hp => ?_⟩
  · rw [copyPixel, readRange_of_le hsrc]
    exact hc
  · obtain rfl : p = d := by omega
    rw [Nat.sub_self]
    exact pixel_one hcells

theorem copyPixel_length {c : Cells} {dst : Nat} (h : copyPixel data px src dst rgba = some c) :
    c.length = rgba.length := by
  obtain ⟨s, _, hwrite⟩ := Option.bind_eq_some_iff.1 h
  exact writeRange_length hwrite

/-- A row whose pixels are all in the input. -/
theorem copyRow_painted (hpx : px = 3 ∨ px = 4) (hsrc : src + w * px ≤ data.length)
    (hdst : d * 4 + w * 4 ≤ rgba.length) :
    ∃ c, copyRow data px w src (d * 4) rgba = some c ∧
      Painted 4 (fun p => d ≤ p ∧ p < d + w) (fun p => inputPixel data px (src + (p - d) * px))
        rgba c := by
  have hturn : ∀ x ∈ List.range w, ∀ b : Cells, b.length = rgba.length →
      ∃ c, copyPixel data px (src + x * px) (d * 4 + x * 4) b = some c ∧
        Painted 4 (· = d + x) (fun p => inputPixel data px (src + (p - d) * px)) b c := by
    intro x hx b hb
    rw [List.mem_range] at hx
    have hturns : x * px + px ≤ w * px := by
      rw [← Nat.succ_mul]
      exact Nat.mul_le_mul_right px hx
    have hread : src + x * px + px ≤ data.length := by omega
    have hwrite : (d + x) * 4 + 4 ≤ b.length := by omega
    rw [← Nat.add_mul]
    obtain ⟨c, hc, hpaint⟩ := copyPixel_painted hpx hread hwrite
    refine ⟨c, hc, hpaint.congr (fun _ => Iff.rfl) fun p hp => ?_⟩
    rw [hp, Nat.add_sub_cancel_left]
  obtain ⟨c, hc, hpaint⟩ := foldlM_painted hturn
  refine ⟨c, hc, hpaint.congr (fun p => ?_) fun _ _ => rfl⟩
  simp only [List.mem_range]
  exact ⟨fun ⟨x, hx, hp⟩ => by omega, fun hp => ⟨p - d, by omega, by omega⟩⟩

theorem copyRow_length {c : Cells} {dst : Nat} (h : copyRow data px w src dst rgba = some c) :
    c.length = rgba.length :=
  foldlM_length (fun _ _ _ _ => copyPixel_length) h

/-- A row whose last pixel is not. -/
theorem copyRow_fails {dst : Nat} (hw : 0 < w) (hsrc : data.length < src + w * px) :
    copyRow data px w src dst rgba = none := by
  refine foldlM_eq_none (fun _ _ _ _ => copyPixel_length) ⟨w - 1, ?_, fun b _ => ?_⟩
  · rw [List.mem_range]
    omega
  · have hlast : (w - 1) * px + px = w * px := by
      rw [← Nat.succ_mul, Nat.succ_eq_add_one, Nat.sub_add_cancel hw]
    rw [copyPixel, readRange_eq_none_iff.2 (by omega)]
    rfl

/-- The row of the input that is read for row `y`. -/
def srcRow (flipY : Bool) (h y : Nat) : Nat := if flipY then h - 1 - y else y

theorem srcRow_lt (hy : y < h) : srcRow flipY h y < h := by
  unfold srcRow
  split_ifs <;> omega

theorem srcRow_srcRow (hy : y < h) : srcRow flipY h (srcRow flipY h y) = y := by
  unfold srcRow
  split_ifs <;> omega

/-- All rows are in the input. -/
theorem bmpRows_painted (hpx : px = 3 ∨ px = 4) (hlength : rgba.length = h * w * 4)
    (hfits : ∀ r < h, dataOffset + r * rowStride + w * px ≤ data.length)
    (hwrap : dataOffset + h * rowStride + w * px < 2 ^ 64) (hn : y + n = h) :
    ∃ c, bmpRows data px w h dataOffset rowStride flipY n y rgba = some c ∧
      Painted 4 (fun p => y * w ≤ p ∧ p < h * w)
        (fun p => inputPixel data px
          (dataOffset + srcRow flipY h (p / w) * rowStride + p % w * px)) rgba c := by
  induction n generalizing y rgba with
  | zero =>
    obtain rfl : y = h := hn
    exact ⟨rgba, rfl, .nothing fun p hp => by omega⟩
  | succ n ih =>
    have hrow : srcRow flipY h y < h := srcRow_lt (by omega)
    have hin := hfits (srcRow flipY h y) hrow
    have hoff : srcRow flipY h y * rowStride ≤ h * rowStride :=
      Nat.mul_le_mul_right rowStride (Nat.le_of_lt hrow)
    have hnext : (y + 1) * w ≤ h * w := Nat.mul_le_mul_right w (by omega)
    rw [Nat.succ_mul] at hnext
    have hwrite : y * w * 4 + w * 4 ≤ rgba.length := by omega
    obtain ⟨b, hb, hpaint⟩ := copyRow_painted hpx hin hwrite
    obtain ⟨c, hc, hrest⟩ := ih (y := y + 1) (hpaint.length.trans hlength) (by omega)
    refine ⟨c, ?_, ?_⟩
    · unfold bmpRows
      dsimp only
      rw [show (if flipY = true then h - 1 - y else y) = srcRow flipY h y from rfl,
        Nat.mod_eq_of_lt (a := dataOffset + srcRow flipY h y * rowStride) (by omega),
        Nat.mod_eq_of_lt (by omega), if_neg (by omega), hb]
      exact hc
    · refine Painted.congr (Painted.trans (hpaint.congr (fun _ => Iff.rfl) fun p hp => ?_) hrest)
        (fun p => ?_) fun _ _ => rfl
      · rw [(row_column hp).1, (row_column hp).2]
      · rw [Nat.succ_mul]
        omega

/-- A row is not in the input, so the loop ends before the last row is written. -/
theorem bmpRows_truncated (hpx : px = 3 ∨ px = 4) (hlength : rgba.length = h * w * 4)
    (hwrap : dataOffset + h * rowStride + w * px < 2 ^ 64) (hn : y + n = h)
    (hcut : ∃ r, y ≤ r ∧ r < h ∧ data.length < dataOffset + srcRow flipY h r * rowStride + w * px) :
    ∃ c, bmpRows data px w h dataOffset rowStride flipY n y rgba = some c ∧
      ∀ p, (h - 1) * w ≤ p → pixel 4 c p = pixel 4 rgba p := by
  induction n generalizing y rgba with
  | zero =>
    obtain ⟨r, hyr, hrh, _⟩ := hcut
    exact absurd hrh (by omega)
  | succ n ih =>
    have hrow : srcRow flipY h y < h := srcRow_lt (by omega)
    have hoff : srcRow flipY h y * rowStride ≤ h * rowStride :=
      Nat.mul_le_mul_right rowStride (Nat.le_of_lt hrow)
    unfold bmpRows
    dsimp only
    rw [show (if flipY = true then h - 1 - y else y) = srcRow flipY h y from rfl,
      Nat.mod_eq_of_lt (a := dataOffset + srcRow flipY h y * rowStride) (by omega),
      Nat.mod_eq_of_lt (by omega)]
    split_ifs with hend
    · exact ⟨rgba, rfl, fun _ _ => rfl⟩
    · obtain ⟨r, hyr, hrh, hr⟩ := hcut
      have hlater : y + 1 ≤ r := by
        rcases Nat.lt_or_eq_of_le hyr with hlt | rfl
        · exact hlt
        · exact absurd hr hend
      have hbefore : (y + 1) * w ≤ (h - 1) * w := Nat.mul_le_mul_right w (by omega)
      have hlast : (h - 1) * w ≤ h * w := Nat.mul_le_mul_right w (Nat.sub_le h 1)
      rw [Nat.succ_mul] at hbefore
      have hwrite : y * w * 4 + w * 4 ≤ rgba.length := by omega
      obtain ⟨b, hb, hpaint⟩ := copyRow_painted hpx (Nat.le_of_not_lt hend) hwrite
      obtain ⟨c, hc, hrest⟩ := ih (y := y + 1) (hpaint.length.trans hlength) (by omega)
        ⟨r, hlater, hrh, hr⟩
      refine ⟨c, ?_, fun p hp => ?_⟩
      · rw [hb]
        exact hc
      · rw [hrest p hp, hpaint.outside p (by omega)]

/-- Where a pixel of row `y` ends. -/
theorem pixel_end (hw : 0 < w) (hy : y < h) (px p : Nat) :
    y * w * px + p % w * px + px ≤ h * w * px := by
  have hcolumn := Nat.mod_lt p hw
  have hrow : (y + 1) * w ≤ h * w := Nat.mul_le_mul_right w hy
  rw [Nat.succ_mul] at hrow
  rw [← Nat.add_mul, ← Nat.succ_mul]
  exact Nat.mul_le_mul_right px (by omega)

/-- All pixels are in the input. -/
theorem tgaRows_painted (hpx : px = 3 ∨ px = 4) (hlength : rgba.length = h * w * 4)
    (hfits : src + h * w * px ≤ data.length) :
    ∃ c, tgaRows data px w h src topDown rgba = some c ∧
      Painted 4 (· < h * w)
        (fun p => inputPixel data px (src + srcRow (!topDown) h (p / w) * w * px + p % w * px))
        rgba c := by
  have hrows : ∀ y < h, srcRow (!topDown) h y * w + w ≤ h * w := fun y hy => by
    rw [← Nat.succ_mul]
    exact Nat.mul_le_mul_right w (srcRow_lt hy)
  have hturn : ∀ y ∈ List.range h, ∀ b : Cells, b.length = rgba.length →
      ∃ c, copyRow data px w (src + y * w * px) (srcRow (!topDown) h y * w * 4) b = some c ∧
        Painted 4 (fun p => srcRow (!topDown) h y * w ≤ p ∧ p < srcRow (!topDown) h y * w + w)
          (fun p => inputPixel data px (src + srcRow (!topDown) h (p / w) * w * px + p % w * px))
          b c := by
    intro y hy b hb
    rw [List.mem_range] at hy
    have hturns : (y * w + w) * px ≤ h * w * px := by
      rw [← Nat.succ_mul]
      exact Nat.mul_le_mul_right px (Nat.mul_le_mul_right w hy)
    rw [Nat.add_mul] at hturns
    have hrow := hrows y hy
    have hread : src + y * w * px + w * px ≤ data.length := by omega
    have hwrite : srcRow (!topDown) h y * w * 4 + w * 4 ≤ b.length := by omega
    obtain ⟨c, hc, hpaint⟩ := copyRow_painted hpx hread hwrite
    refine ⟨c, hc, hpaint.congr (fun _ => Iff.rfl) fun p hp => ?_⟩
    rw [(row_column hp).1, (row_column hp).2, srcRow_srcRow hy]
  obtain ⟨c, hc, hpaint⟩ := foldlM_painted hturn
  refine ⟨c, ?_, hpaint.congr (fun p => ?_) fun _ _ => rfl⟩
  · rw [← hc]
    unfold tgaRows srcRow
    cases topDown <;> rfl
  · simp only [List.mem_range]
    constructor
    · rintro ⟨y, hy, _, hp⟩
      have hrow := hrows y hy
      omega
    · intro hp
      have hw : 0 < w := by
        rcases Nat.eq_zero_or_pos w with rfl | hw
        · exact absurd hp (Nat.not_lt_zero p)
        · exact hw
      have hrow : p / w < h := Nat.div_lt_of_lt_mul (by rwa [Nat.mul_comm])
      have hdiv := Nat.div_add_mod p w
      have hmod := Nat.mod_lt p hw
      rw [Nat.mul_comm] at hdiv
      refine ⟨srcRow (!topDown) h (p / w), srcRow_lt hrow, ?_⟩
      rw [srcRow_srcRow hrow]
      omega

/-- The last pixel is not. -/
theorem tgaRows_fails (hw : 0 < w) (hh : 0 < h) (hcut : data.length < src + h * w * px) :
    tgaRows data px w h src topDown rgba = none := by
  refine foldlM_eq_none (fun _ _ _ _ => copyRow_length) ⟨h - 1, ?_, fun b _ => ?_⟩
  · rw [List.mem_range]
    omega
  · have hlast : (h - 1) * w * px + w * px = h * w * px := by
      rw [← Nat.add_mul, ← Nat.succ_mul, Nat.succ_eq_add_one, Nat.sub_add_cancel hh]
    exact copyRow_fails hw (by omega)

theorem whole_failed : Whole data (some none) := ⟨none, rfl, nofun⟩

theorem not_whole_none : ¬ Whole data none := fun ⟨_, hrun, _⟩ => absurd hrun nofun

/-- An image all of whose pixels have a place in the input. -/
theorem whole_of_painted {place : Nat → Nat} {b c : Cells} (hpx : px = 3 ∨ px = 4)
    (hlength : b.length = h * w * 4)
    (hpaint : Painted 4 (· < h * w) (fun p => inputPixel data px (place p)) b c)
    (hplace : ∀ p < h * w, place p + px ≤ data.length) : Whole data (some (some ⟨c, w, h⟩)) := by
  refine ⟨some ⟨c, w, h⟩, rfl, fun img himg => ?_⟩
  obtain rfl := Option.some.inj himg
  rw [Nat.mul_comm h w] at hlength hpaint hplace
  refine ⟨hpaint.length.trans hlength, fun p hp => ?_⟩
  exact ⟨place p, px, _, hpx, readRange_of_le (hplace p hp), hpaint.inside p hp⟩

/-- An image with a pixel that is not written. -/
theorem not_whole_of_untouched {c : Cells} {p : Nat} (hp : p < w * h)
    (huntouched : pixel 4 c p = pixel 4 (List.replicate n none) p) :
    ¬ Whole data (some (some ⟨c, w, h⟩)) := by
  rintro ⟨r, hr, hwritten⟩
  obtain rfl := Option.some.inj hr
  obtain ⟨i, k, s, hk, hs, hpixel⟩ := (hwritten _ rfl).2 p hp
  have hfour := length_rgbaOf (s := s) (by rwa [readRange_length hs])
  cases hrgba : rgbaOf s with
  | nil =>
    rw [hrgba] at hfour
    exact absurd hfour (by decide)
  | cons v t =>
    have hmem : some v ∈ pixel 4 c p := by
      rw [hpixel, hrgba, List.map_cons]
      exact List.mem_cons_self
    rw [huntouched] at hmem
    exact absurd (List.eq_of_mem_replicate (List.mem_of_mem_drop (List.mem_of_mem_take hmem))) nofun

/-! ## BMP -/

/-- The header is one of an image. -/
def BmpHeader.Valid (header : BmpHeader) (size : Nat) : Prop :=
  0 < header.w.toInt ∧ header.h.toInt ≠ 0 ∧ (header.bpp.toNat = 24 ∨ header.bpp.toNat = 32) ∧
    header.dataOffset.toNat < size

/-- The height can be negated, a row is not too long for an `int`, and the last row of the image
is in the file. -/
def BmpHeader.Complete (header : BmpHeader) (malloc : Nat → Bool) (size : Nat) : Prop :=
  let w := header.w.toInt.toNat
  let h := header.h.toInt.natAbs
  let px := header.bpp.toNat / 8
  header.h.toInt ≠ -2 ^ 31 ∧
    (malloc (w * h * 4) = true → w * px + 3 < 2 ^ 31 ∧
      header.dataOffset.toNat + (h - 1) * ((w * px + 3) / 4 * 4) + w * px ≤ size)

theorem decodeBmp_invalid {header : BmpHeader} (malloc : Nat → Bool)
    (h : ¬ header.Valid data.length) : decodeBmp malloc data header = some none := by
  unfold BmpHeader.Valid at h
  unfold decodeBmp
  exact if_pos (by omega)

theorem bmpHeight_eq (h : Int32) :
    bmpHeight h = if h.toInt = -2 ^ 31 then none else some (h.toInt.natAbs : ℤ) := by
  have hlow := h.le_toInt
  have hhigh := h.toInt_lt
  unfold bmpHeight
  by_cases hneg : h.toInt < 0
  · rw [if_pos hneg]
    split_ifs with hmin
    · rw [hmin]
      rfl
    · rw [checkedInt_of_fits (by omega)]
      congr 1
      omega
  · rw [if_neg hneg, if_neg (by omega), Int.natAbs_of_nonneg (Int.not_lt.1 hneg)]

/-- A row fits into an `int`, and so does what its padding adds. -/
theorem bmpImage_row (malloc : Nat → Bool) {dataOffset : Nat} (hsize : w * h * 4 < 2 ^ 64) :
    bmpImage malloc data px w h dataOffset flipY =
      if malloc (w * h * 4) = true then
        if w * px + 3 < 2 ^ 31 then
          (bmpRows data px w h dataOffset ((w * px + 3) / 4 * 4) flipY h 0
            (List.replicate (w * h * 4) none)).bind fun rgba => some (some ⟨rgba, w, h⟩)
        else none
      else some none := by
  unfold bmpImage
  dsimp only
  rw [Nat.mod_eq_of_lt hsize]
  split_ifs with hmalloc hrow
  · have hfits : (w : ℤ) * px + 3 < 2147483648 := by exact_mod_cast hrow
    have hpos : (0 : ℤ) ≤ (w : ℤ) * px := by exact_mod_cast Nat.zero_le (w * px)
    have hpadded : ((w : ℤ) * px + 3).toNat = w * px + 3 := by omega
    rw [checkedInt_of_fits (by omega), Option.bind_eq_bind, Option.bind_some,
      checkedInt_of_fits (by omega), Option.bind_eq_bind, Option.bind_some, hpadded]
  · have hover : ¬ (w : ℤ) * px + 3 < 2147483648 := by exact_mod_cast hrow
    have hpos : (0 : ℤ) ≤ (w : ℤ) * px := by exact_mod_cast Nat.zero_le (w * px)
    by_cases hbytes : (w : ℤ) * px < 2147483648
    · rw [checkedInt_of_fits (by omega), Option.bind_eq_bind, Option.bind_some,
        checkedInt_eq_none (by omega)]
      rfl
    · rw [checkedInt_eq_none (by omega)]
      rfl
  · rfl

theorem bmpImage_whole_iff (malloc : Nat → Bool) {dataOffset : Nat} (hpx : px = 3 ∨ px = 4)
    (hw : 0 < w ∧ w < 2 ^ 31) (hh : 0 < h ∧ h < 2 ^ 31) (hoff : dataOffset < 2 ^ 32) :
    Whole data (bmpImage malloc data px w h dataOffset flipY) ↔
      (malloc (w * h * 4) = true → w * px + 3 < 2 ^ 31 ∧
        dataOffset + (h - 1) * ((w * px + 3) / 4 * 4) + w * px ≤ data.length) := by
  have hcells : w * h ≤ (2 ^ 31 - 1) * (2 ^ 31 - 1) :=
    Nat.mul_le_mul (Nat.le_sub_one_of_lt hw.2) (Nat.le_sub_one_of_lt hh.2)
  rw [bmpImage_row malloc (by omega)]
  split_ifs with hmalloc hrow
  · rw [Nat.mul_comm w h] at hmalloc ⊢
    have hstride : h * ((w * px + 3) / 4 * 4) ≤ (2 ^ 31 - 1) * 2 ^ 31 :=
      Nat.mul_le_mul (Nat.le_sub_one_of_lt hh.2) (by omega)
    have hwrap : dataOffset + h * ((w * px + 3) / 4 * 4) + w * px < 2 ^ 64 := by omega
    have hlength : (List.replicate (h * w * 4) (none : Option UInt8)).length = h * w * 4 :=
      List.length_replicate
    by_cases hlast : dataOffset + (h - 1) * ((w * px + 3) / 4 * 4) + w * px ≤ data.length
    · refine iff_of_true ?_ fun _ => ⟨hrow, hlast⟩
      have hfits : ∀ r < h, dataOffset + r * ((w * px + 3) / 4 * 4) + w * px ≤ data.length := by
        intro r hr
        have hmul : r * ((w * px + 3) / 4 * 4) ≤ (h - 1) * ((w * px + 3) / 4 * 4) :=
          Nat.mul_le_mul_right _ (Nat.le_sub_one_of_lt hr)
        omega
      obtain ⟨c, hc, hpaint⟩ := bmpRows_painted hpx hlength hfits hwrap (Nat.zero_add h)
      rw [hc, Option.bind_some]
      refine whole_of_painted hpx hlength (hpaint.congr (fun p => by omega) fun _ _ => rfl)
        fun p hp => ?_
      have hrow : p / w < h := Nat.div_lt_of_lt_mul (by rwa [Nat.mul_comm])
      have hplace := hfits (srcRow flipY h (p / w)) (srcRow_lt hrow)
      have hcolumn : (p % w + 1) * px ≤ w * px := Nat.mul_le_mul_right px (Nat.mod_lt p hw.1)
      rw [Nat.succ_mul] at hcolumn
      omega
    · refine iff_of_false ?_ fun hfits => hlast (hfits hmalloc).2
      have hcut : ∃ r, 0 ≤ r ∧ r < h ∧
          data.length < dataOffset + srcRow flipY h r * ((w * px + 3) / 4 * 4) + w * px := by
        refine ⟨srcRow flipY h (h - 1), Nat.zero_le _, srcRow_lt (by omega), ?_⟩
        rw [srcRow_srcRow (by omega)]
        exact Nat.lt_of_not_le hlast
      obtain ⟨c, hc, huntouched⟩ := bmpRows_truncated hpx hlength hwrap (Nat.zero_add h) hcut
      rw [hc, Option.bind_some]
      have hfirst : (h - 1) * w < w * h := by
        rw [Nat.mul_comm]
        exact Nat.mul_lt_mul_of_pos_left (by omega) hw.1
      exact not_whole_of_untouched hfirst (huntouched _ (Nat.le_refl _))
  · exact iff_of_false not_whole_none fun hfits => hrow (hfits hmalloc).1
  · exact iff_of_true whole_failed fun htrue => absurd htrue hmalloc

theorem decodeBmp_whole_iff {header : BmpHeader} (malloc : Nat → Bool)
    (h : header.Valid data.length) :
    Whole data (decodeBmp malloc data header) ↔ header.Complete malloc data.length := by
  obtain ⟨hw, hh, hbpp, hoff⟩ := h
  have hwlow : 0 < header.w.toInt.toNat := by omega
  have hwhigh : header.w.toInt.toNat < 2 ^ 31 := by
    have hlt := header.w.toInt_lt
    omega
  have hoffset := header.dataOffset.toNat_lt
  unfold decodeBmp BmpHeader.Complete
  dsimp only
  rw [if_neg (by omega), bmpHeight_eq]
  split_ifs with hmin
  · exact iff_of_false not_whole_none fun hcomplete => hcomplete.1 hmin
  · have hlow := header.h.le_toInt
    have hhigh := header.h.toInt_lt
    rw [Option.bind_some, Int.toNat_natCast,
      bmpImage_whole_iff malloc (by omega) ⟨hwlow, hwhigh⟩ (by omega) hoffset]
    exact (and_iff_right hmin).symm

/-! ## TGA -/

/-- The header is one of an image. -/
def TgaHeader.Valid (header : TgaHeader) (size : Nat) : Prop :=
  0 < header.w.toNat ∧ 0 < header.h.toNat ∧ (header.bpp.toNat = 24 ∨ header.bpp.toNat = 32) ∧
    ((18 + header.idLen.toNat : ℕ) : ℤ) < (Int32.ofNat size).toInt

/-- The pixels of the image are in the file. -/
def TgaHeader.Complete (header : TgaHeader) (malloc : Nat → Bool) (size : Nat) : Prop :=
  malloc (header.w.toNat * header.h.toNat * 4) = true →
    18 + header.idLen.toNat + header.h.toNat * header.w.toNat * (header.bpp.toNat / 8) ≤ size

theorem decodeTga_invalid {header : TgaHeader} (malloc : Nat → Bool)
    (h : ¬ header.Valid data.length) : decodeTga malloc data header = some none :=
  if_neg h

theorem decodeTga_whole_iff {header : TgaHeader} (malloc : Nat → Bool)
    (hvalid : header.Valid data.length) :
    Whole data (decodeTga malloc data header) ↔ header.Complete malloc data.length := by
  have hwhigh := header.w.toNat_lt
  have hhhigh := header.h.toNat_lt
  have hcells : header.w.toNat * header.h.toNat ≤ 2 ^ 16 * 2 ^ 16 :=
    Nat.mul_le_mul (Nat.le_of_lt hwhigh) (Nat.le_of_lt hhhigh)
  unfold TgaHeader.Valid at hvalid
  unfold decodeTga TgaHeader.Complete
  dsimp only
  rw [if_pos hvalid, Nat.mod_eq_of_lt (by omega), Nat.mul_comm header.w.toNat]
  obtain ⟨hw, hh, hbpp, _⟩ := hvalid
  split_ifs with hmalloc
  · by_cases hfits : 18 + header.idLen.toNat +
        header.h.toNat * header.w.toNat * (header.bpp.toNat / 8) ≤ data.length
    · refine iff_of_true ?_ fun _ => hfits
      obtain ⟨c, hc, hpaint⟩ := tgaRows_painted (by omega) List.length_replicate hfits
      rw [hc]
      refine whole_of_painted (by omega) List.length_replicate hpaint fun p hp => ?_
      have hrow : p / header.w.toNat < header.h.toNat :=
        Nat.div_lt_of_lt_mul (by rwa [Nat.mul_comm])
      generalize hy : srcRow _ header.h.toNat (p / header.w.toNat) = y
      have hylt : y < header.h.toNat := hy ▸ srcRow_lt hrow
      have hend := pixel_end hw hylt (header.bpp.toNat / 8) p
      omega
    · refine iff_of_false ?_ fun hcomplete => hfits (hcomplete hmalloc)
      rw [tgaRows_fails hw hh (by omega)]
      exact not_whole_none
  · exact iff_of_true whole_failed fun htrue => absurd htrue hmalloc

end rows

/-! ## Files -/

/-- The file is read as a BMP. -/
def IsBmp (data : Bytes) : Prop := data[0]? = some 66 ∧ data[1]? = some 77 ∧ 54 ≤ data.length

/-- A valid BMP or TGA is complete. -/
def FileComplete (malloc : Nat → Bool) (data : Bytes) : Prop :=
  (IsBmp data → ∀ header ∈ bmpHeader data, header.Valid data.length →
      header.Complete malloc data.length) ∧
    (¬ IsBmp data → 18 ≤ data.length → data[2]? = some 2 → ∀ header ∈ tgaHeader data,
      header.Valid data.length → header.Complete malloc data.length)

theorem headerNat_of_le {data : Bytes} {i n : Nat} (h : i + n ≤ data.length) :
    headerNat data i n = some (leValue ((data.drop i).take n)) := by
  rw [headerNat, readRange_of_le h]
  rfl

/-- A header is in the file. -/
theorem exists_bmpHeader {data : Bytes} (h : 54 ≤ data.length) :
    ∃ header, bmpHeader data = some header := by
  unfold bmpHeader
  rw [headerNat_of_le (by omega), headerNat_of_le (by omega), headerNat_of_le (by omega),
    headerNat_of_le (by omega)]
  exact ⟨_, rfl⟩

theorem exists_tgaHeader {data : Bytes} (h : 18 ≤ data.length) :
    ∃ header, tgaHeader data = some header := by
  unfold tgaHeader
  rw [headerNat_of_le (by omega), headerNat_of_le (by omega), List.getElem?_eq_getElem (by omega),
    List.getElem?_eq_getElem (by omega), List.getElem?_eq_getElem (by omega)]
  exact ⟨_, rfl⟩

/-- mini_png_decode_rgba reads only inside its input, without an overflow, and returns only images
that are written as a whole, exactly on the complete files. -/
theorem miniPngDecodeRgba_iff (malloc : Nat → Bool) (data : Bytes) :
    Whole data (miniPngDecodeRgba malloc data) ↔ FileComplete malloc data := by
  unfold miniPngDecodeRgba FileComplete
  split_ifs with hshort hbmp htga
  · refine iff_of_true whole_failed ⟨fun hbmp => ?_, fun _ hsize => ?_⟩
    · exact absurd hbmp.2.2 (by omega)
    · exact absurd hshort (by omega)
  · obtain ⟨header, hheader⟩ := exists_bmpHeader hbmp.2.2
    rw [hheader, Option.bind_some]
    by_cases hvalid : header.Valid data.length
    · rw [decodeBmp_whole_iff malloc hvalid]
      constructor
      · exact fun h => ⟨fun _ _ heq _ => Option.some.inj heq ▸ h, fun hnot => absurd hbmp hnot⟩
      · exact fun h => h.1 hbmp header rfl hvalid
    · rw [decodeBmp_invalid malloc hvalid]
      exact iff_of_true whole_failed
        ⟨fun _ _ heq hv => absurd (Option.some.inj heq ▸ hv) hvalid, fun hnot => absurd hbmp hnot⟩
  · obtain ⟨header, hheader⟩ := exists_tgaHeader (Nat.le_of_not_lt hshort)
    rw [hheader, Option.bind_some]
    by_cases hvalid : header.Valid data.length
    · rw [decodeTga_whole_iff malloc hvalid]
      constructor
      · exact fun h => ⟨fun hyes => absurd hyes hbmp, fun _ _ _ _ heq _ => Option.some.inj heq ▸ h⟩
      · exact fun h => h.2 hbmp (Nat.le_of_not_lt hshort) htga header rfl hvalid
    · rw [decodeTga_invalid malloc hvalid]
      exact iff_of_true whole_failed ⟨fun hyes => absurd hyes hbmp,
        fun _ _ _ _ heq hv => absurd (Option.some.inj heq ▸ hv) hvalid⟩
  · exact iff_of_true whole_failed ⟨fun h => absurd h hbmp, fun _ _ h => absurd h htga⟩

/-- A BMP of two rows, from the top down, with one of them in the file. -/
def truncatedBmp : Bytes :=
  [66, 77, 0, 0, 0, 0, 0, 0, 0, 0, 54, 0, 0, 0, 40, 0, 0, 0, 1, 0, 0, 0, 254, 255, 255, 255, 1, 0,
    24, 0] ++ List.replicate 24 0 ++ [1, 2, 3, 0]

theorem truncatedBmp_not_whole :
    ¬ Whole truncatedBmp (miniPngDecodeRgba (fun _ => true) truncatedBmp) := by
  have hrun : miniPngDecodeRgba (fun _ => true) truncatedBmp =
      some (some ⟨[some 3, some 2, some 1, some 255, none, none, none, none], 1, 2⟩) := by
    decide
  rw [hrun]
  exact not_whole_of_untouched (p := 1) (n := 8) (by decide) rfl

end TinyFramework.Render
