/-
  Canvas/PixelClips.lean --- pixels of a canvas and their clips.

  Coordinates are whole numbers of 32 bits.  An access outside of a buffer, and a result that an
  `int` cannot hold, end a run without a value.
-/
import TinyFramework.Foundation.Ascii
import TinyFramework.Foundation.Raster
import TinyFramework.Foundation.Words
import Mathlib.Data.Int.Range
import Mathlib.Tactic.Linarith

set_option autoImplicit false

namespace TinyFramework.Canvas

open TinyFramework.Foundation

/-! ## Memory -/

/-- The cells from `i` on; of no cells, any place will do. -/
def load (buf : Bytes) (i : ℤ) (n : Nat) : Option Bytes :=
  if n = 0 then some [] else if 0 ≤ i then readRange buf i.toNat n else none

def store (buf : Bytes) (i : ℤ) (s : Bytes) : Option Bytes :=
  if s = [] then some buf else if 0 ≤ i then writeRange buf i.toNat s else none

/-- The buffer is looked at before the `n` bytes are made, of which there may be 2^64. -/
def memset (buf : Bytes) (i : ℤ) (v : UInt8) (n : Nat) : Option Bytes :=
  if n ≤ buf.length then store buf i (List.replicate n v) else none

/-- `(size_t)n * 4` -/
def byteCount (n : ℤ) : Nat := (n * 4 % 2 ^ 64).toNat

/-- `(row * width + x) * 4` -/
def rowStart (row width x : ℤ) : Option ℤ := do
  let cells ← checkedInt (row * width)
  let place ← checkedInt (cells + x)
  checkedInt (place * 4)

/-! ## Canvases -/

/-- The properties of a canvas element that are read here; `pixels` is `__pixels`. -/
structure CanvasElement where
  width : Int32
  height : Int32
  pixels : Option Bytes
  deriving DecidableEq, Repr

/-- What `ctx2d_get_canvas_buffer` finds: four bytes for every pixel. -/
structure CanvasBuffer where
  w : Nat
  h : Nat
  pixels : Bytes
  w_fits : 0 < w ∧ w < 2 ^ 31
  h_fits : 0 < h ∧ h < 2 ^ 31
  length_pixels : pixels.length = h * w * 4
  deriving DecidableEq, Repr

theorem size_fits {v : Int32} (h : 0 < v.toInt) : 0 < v.toInt.toNat ∧ v.toInt.toNat < 2 ^ 31 := by
  have hlt := v.toInt_lt
  omega

/-- `ctx2d_get_canvas_buffer`; `room` tells which sizes `calloc` finds room for. -/
def ctx2dGetCanvasBuffer (room : Nat → Bool) (cv : CanvasElement) : Option CanvasBuffer :=
  if hpos : 0 < cv.width.toInt ∧ 0 < cv.height.toInt then
    let w := cv.width.toInt.toNat
    let h := cv.height.toInt.toNat
    if hheld : (cv.pixels.getD []).length = h * w * 4 then
      some ⟨w, h, cv.pixels.getD [], size_fits hpos.1, size_fits hpos.2, hheld⟩
    else if room (h * w * 4) then
      some ⟨w, h, List.replicate (h * w * 4) 0, size_fits hpos.1, size_fits hpos.2,
        List.length_replicate⟩
    else none
  else none

/-- An operation draws into the buffer, which the element has from then on. -/
def drawn (room : Nat → Bool) (cv : CanvasElement) (draw : CanvasBuffer → Option Bytes) :
    Option CanvasElement :=
  match ctx2dGetCanvasBuffer room cv with
  | none => some cv
  | some c => (draw c).map fun pixels => { cv with pixels := some pixels }

/-! ## Rectangles -/

structure PixelRect where
  x : ℤ
  y : ℤ
  w : ℤ
  h : ℤ
  deriving DecidableEq, Repr

/-- The pixel is one of the rectangle. -/
def PixelRect.Contains (r : PixelRect) (x y : ℤ) : Prop :=
  r.x ≤ x ∧ x < r.x + r.w ∧ r.y ≤ y ∧ y < r.y + r.h

instance (r : PixelRect) (x y : ℤ) : Decidable (r.Contains x y) :=
  inferInstanceAs (Decidable (_ ∧ _ ∧ _ ∧ _))

/-- The rows and columns that the loops run over. -/
structure Bounds where
  x0 : ℤ
  y0 : ℤ
  x1 : ℤ
  y1 : ℤ
  deriving DecidableEq, Repr

def PixelRect.clipped (r : PixelRect) (c : CanvasBuffer) : Bounds :=
  ⟨max r.x 0, max r.y 0, min (r.x + r.w) c.w, min (r.y + r.h) c.h⟩

/-- How each of the operations clips its rectangle. -/
def PixelRect.clip (r : PixelRect) (c : CanvasBuffer) : Option Bounds := do
  let _ ← checkedInt (r.x + r.w)
  let _ ← checkedInt (r.y + r.h)
  some (r.clipped c)

/-- `for (int row = y0; row < y1; row++)` -/
def Bounds.eachRow (k : Bounds) (turn : ℤ → Bytes → Option Bytes) (buf : Bytes) : Option Bytes :=
  (Int.range k.y0 k.y1).foldlM (fun buf row => turn row buf) buf

/-! ## Operations -/

/-- One row of `js_ctx2d_clearRect`. -/
def clearRow (c : CanvasBuffer) (k : Bounds) (row : ℤ) (buf : Bytes) : Option Bytes := do
  let dst ← rowStart row c.w k.x0
  memset buf dst 0 (byteCount (k.x1 - k.x0))

/-- `js_ctx2d_clearRect` -/
def clearRect (room : Nat → Bool) (cv : CanvasElement) (r : PixelRect) : Option CanvasElement :=
  drawn room cv fun c => (r.clip c).bind fun k => k.eachRow (clearRow c k) c.pixels

/-- A fill colour with `ua >= 254`. -/
structure OpaqueColor where
  r : UInt8
  g : UInt8
  b : UInt8
  a : UInt8
  a_high : 254 ≤ a
  deriving DecidableEq, Repr

/-- What is written for a pixel. -/
def OpaqueColor.bytes (color : OpaqueColor) : Bytes := [color.r, color.g, color.b, 255]

/-- One row of `js_ctx2d_fillRect`; `dst` moves on by 4 with every column. -/
def fillRow (c : CanvasBuffer) (color : OpaqueColor) (k : Bounds) (row : ℤ) (buf : Bytes) :
    Option Bytes := do
  let dst ← rowStart row c.w k.x0
  (Int.range k.x0 k.x1).foldlM (fun buf col => store buf (dst + (col - k.x0) * 4) color.bytes) buf

/-- `js_ctx2d_fillRect`, without a gradient. -/
def fillRect (room : Nat → Bool) (cv : CanvasElement) (color : OpaqueColor) (r : PixelRect) :
    Option CanvasElement :=
  drawn room cv fun c => (r.clip c).bind fun k => k.eachRow (fillRow c color k) c.pixels

/-- One row of `js_ctx2d_putImageData`. -/
def putRow (c : CanvasBuffer) (src : Bytes) (r : PixelRect) (k : Bounds) (row : ℤ) (buf : Bytes) :
    Option Bytes := do
  let sRow ← checkedInt (row - r.y)
  let skipped ← checkedInt (k.x0 - r.x)
  let s ← rowStart sRow r.w skipped
  let d ← rowStart row c.w k.x0
  let bytes ← load src s (byteCount (k.x1 - k.x0))
  store buf d bytes

/-- `js_ctx2d_putImageData`: `r` has the place and the size of the image, `src` its data. -/
def putImageData (room : Nat → Bool) (cv : CanvasElement) (src : Bytes) (r : PixelRect) :
    Option CanvasElement :=
  drawn room cv fun c =>
    if r.w ≤ 0 ∨ r.h ≤ 0 then some c.pixels
    else (r.clip c).bind fun k => k.eachRow (putRow c src r k) c.pixels

structure ImageData where
  w : ℤ
  h : ℤ
  data : Bytes
  deriving DecidableEq, Repr

/-- `js_ctx2d_createImageData` -/
def createImageData (w h : ℤ) : Option ImageData := do
  let w := max w 1
  let h := max h 1
  let cells ← checkedInt (w * h)
  let size ← checkedInt (cells * 4)
  some ⟨w, h, List.replicate size.toNat 0⟩

/-- One pixel of `js_ctx2d_getImageData`. -/
def getPixel (c : CanvasBuffer) (r : PixelRect) (srcY dy dx : ℤ) (data : Bytes) : Option Bytes := do
  let srcX ← checkedInt (r.x + dx)
  if srcX < 0 ∨ c.w ≤ srcX then some data
  else
    let bytes ← load c.pixels ((srcY * c.w + srcX) * 4) 4
    store data ((dy * r.w + dx) * 4) bytes

/-- One row of `js_ctx2d_getImageData`. -/
def getRow (c : CanvasBuffer) (r : PixelRect) (dy : ℤ) (data : Bytes) : Option Bytes := do
  let srcY ← checkedInt (r.y + dy)
  if srcY < 0 ∨ c.h ≤ srcY then some data
  else (Int.range 0 r.w).foldlM (fun data dx => getPixel c r srcY dy dx data) data

/-- `js_ctx2d_getImageData` -/
def getImageData (room : Nat → Bool) (cv : CanvasElement) (r : PixelRect) : Option ImageData := do
  let r := { r with w := max r.w 1, h := max r.h 1 }
  let o ← createImageData r.w r.h
  match ctx2dGetCanvasBuffer room cv with
  | none => some o
  | some c =>
      let data ← (Int.range 0 r.h).foldlM (fun data dy => getRow c r dy data) o.data
      some { o with data := data }

/-! ## Textures -/

/-- The loop over the rows of a flip, each of `rowBytes`; `junk` is what `malloc` left in the new
buffer. -/
def flipRows (junk : Nat → UInt8) (rowBytes h : Nat) (src : Bytes) : Option Bytes :=
  (List.range h).foldlM (fun out y =>
    (readRange src (y * rowBytes) rowBytes).bind (writeRange out ((h - 1 - y) * rowBytes)))
    ((List.range (rowBytes * h)).map junk)

/-- The row flip of `js_gl_texImage2D`: what is uploaded instead of `src`. -/
def flipped (junk : Nat → UInt8) (w h : ℤ) (src : Bytes) : Option Bytes :=
  let w := max w 1
  let h := max h 1
  if 1 < h then flipRows junk (w.toNat * 4) h.toNat src else some src

/-! ## Memory -/

variable {buf b s : Bytes} {i : ℤ} {n q : Nat}

theorem store_length (h : store buf i s = some b) : b.length = buf.length := by
  unfold store at h
  split_ifs at h
  · rw [Option.some.inj h]
  · exact writeRange_length h

theorem store_painted (hs : s.length = n * 4) (hin : q * 4 + n * 4 ≤ buf.length) :
    ∃ b, store buf ((q : ℤ) * 4) s = some b ∧
      Painted 4 (fun p => q ≤ p ∧ p < q + n) (fun p => pixel 4 s (p - q)) buf b := by
  unfold store
  split_ifs with hempty hi
  · have hn : n = 0 := by
      rw [hempty, List.length_nil] at hs
      omega
    exact ⟨buf, rfl, .nothing fun p => by omega⟩
  · have hplace : ((q : ℤ) * 4).toNat = q * 4 := by omega
    rw [hplace]
    exact writeRange_painted hs hin
  · omega

theorem load_of_le (h : q * 4 + n * 4 ≤ s.length) :
    load s ((q : ℤ) * 4) (n * 4) = some ((s.drop (q * 4)).take (n * 4)) := by
  unfold load
  split_ifs with hn hi
  · rw [hn, List.take_zero]
  · have hplace : ((q : ℤ) * 4).toNat = q * 4 := by omega
    rw [hplace, readRange_of_le h]
  · omega

/-- What a load that succeeds tells. -/
theorem load_inside (h : load buf i n = some s) :
    s.length = n ∧ (0 < n → i.toNat + n ≤ buf.length) := by
  unfold load readRange at h
  split_ifs at h with hn hi hin
  · rw [← Option.some.inj h, hn]
    exact ⟨rfl, fun hpos => absurd hpos (Nat.lt_irrefl 0)⟩
  · rw [← Option.some.inj h, List.length_take, List.length_drop]
    exact ⟨by omega, fun _ => hin⟩

theorem store_inside (h : store buf i s = some b) : s.length ≤ buf.length := by
  unfold store writeRange at h
  split_ifs at h with hempty hi hin
  · rw [hempty]
    exact Nat.zero_le _
  · omega

theorem byteCount_natCast (h : n < 2 ^ 31) : byteCount n = n * 4 := by
  unfold byteCount
  omega

/-- A negative count is more than any canvas has. -/
theorem byteCount_neg {v : ℤ} (hneg : v < 0) (hlow : -2 ^ 31 ≤ v) :
    2 ^ 64 - 2 ^ 33 ≤ byteCount v := by
  unfold byteCount
  omega

theorem checkedInt_eq_some {u v : ℤ} (h : checkedInt v = some u) : u = v := by
  unfold checkedInt at h
  split_ifs at h
  exact (Option.some.inj h).symm

theorem rowStart_eq (row width x : Nat) :
    rowStart row width x =
      if (row * width + x) * 4 < 2 ^ 31 then some (((row * width + x : Nat) : ℤ) * 4)
      else none := by
  unfold rowStart
  split_ifs with hfits
  · have hplace : (((row * width + x) * 4 : Nat) : ℤ) < 2147483648 := by exact_mod_cast hfits
    push_cast at hplace ⊢
    have hcells : (0 : ℤ) ≤ (row : ℤ) * width := by positivity
    rw [checkedInt_of_fits (by omega), Option.bind_eq_bind, Option.bind_some,
      checkedInt_of_fits (by omega), Option.bind_some, checkedInt_of_fits (by omega)]
  · have hplace : ¬ (((row * width + x) * 4 : Nat) : ℤ) < 2147483648 := by exact_mod_cast hfits
    push_cast at hplace
    have hcells : (0 : ℤ) ≤ (row : ℤ) * width := by positivity
    by_cases hrow : (row : ℤ) * width < 2147483648
    · rw [checkedInt_of_fits (by omega), Option.bind_eq_bind, Option.bind_some]
      by_cases hx : (row : ℤ) * width + x < 2147483648
      · rw [checkedInt_of_fits (by omega), Option.bind_some, checkedInt_eq_none (by omega)]
      · rw [checkedInt_eq_none (by omega)]
        rfl
    · rw [checkedInt_eq_none (by omega)]
      rfl

/-! ## Clipped drawing -/

/-- The pixels of the rectangle that are in the canvas are as `new` says, and the others are as they
were. -/
def Clipped (c : CanvasBuffer) (r : PixelRect) (new : Nat → Nat → Bytes) (buf : Bytes) : Prop :=
  buf.length = c.pixels.length ∧ ∀ x < c.w, ∀ y < c.h, pixel 4 buf (y * c.w + x) =
    if r.Contains x y then new x y else pixel 4 c.pixels (y * c.w + x)

/-- The rectangle is given by four `int`s. -/
structure PixelRect.Ints (r : PixelRect) : Prop where
  x : -2 ^ 31 ≤ r.x ∧ r.x < 2 ^ 31
  y : -2 ^ 31 ≤ r.y ∧ r.y < 2 ^ 31
  w : -2 ^ 31 ≤ r.w ∧ r.w < 2 ^ 31
  h : -2 ^ 31 ≤ r.h ∧ r.h < 2 ^ 31

/-- The far sides of the rectangle are `int`s. -/
def PixelRect.SidesFit (r : PixelRect) : Prop :=
  -2 ^ 31 ≤ r.x + r.w ∧ r.x + r.w < 2 ^ 31 ∧ -2 ^ 31 ≤ r.y + r.h ∧ r.y + r.h < 2 ^ 31

variable {c : CanvasBuffer} {r : PixelRect} {turn : ℤ → Bytes → Option Bytes}
  {new : Nat → Nat → Bytes}

theorem clip_eq (hfits : r.SidesFit) : r.clip c = some (r.clipped c) := by
  unfold PixelRect.SidesFit at hfits
  unfold PixelRect.clip
  rw [checkedInt_of_fits (by omega), checkedInt_of_fits (by omega)]
  rfl

theorem clip_eq_none (hfits : ¬ r.SidesFit) : r.clip c = none := by
  unfold PixelRect.SidesFit at hfits
  unfold PixelRect.clip
  by_cases hx : -2147483648 ≤ r.x + r.w ∧ r.x + r.w < 2147483648
  · rw [checkedInt_of_fits hx, checkedInt_eq_none (by omega)]
    rfl
  · rw [checkedInt_eq_none hx]
    rfl

theorem clipped_x0 : (r.clipped c).x0 = max r.x 0 := rfl

theorem clipped_y0 : (r.clipped c).y0 = max r.y 0 := rfl

theorem clipped_x1 : (r.clipped c).x1 = min (r.x + r.w) c.w := rfl

theorem clipped_y1 : (r.clipped c).y1 = min (r.y + r.h) c.h := rfl

/-- The loops run inside the canvas. -/
theorem clipped_inside (r : PixelRect) (c : CanvasBuffer) :
    0 ≤ (r.clipped c).x0 ∧ 0 ≤ (r.clipped c).y0 ∧ (r.clipped c).x1 ≤ c.w ∧ (r.clipped c).y1 ≤ c.h :=
  ⟨le_max_right _ _, le_max_right _ _, min_le_right _ _, min_le_right _ _⟩

/-- What each turn does to its row, the loop does to the rectangle. -/
theorem eachRow_clipped
    (h : ∀ row : Nat, (r.clipped c).y0 ≤ row → (row : ℤ) < (r.clipped c).y1 →
      ∀ b : Bytes, b.length = c.pixels.length → ∃ b', turn row b = some b' ∧
        Painted 4 (fun p => (row * c.w : ℤ) + (r.clipped c).x0 ≤ p ∧
          (p : ℤ) < row * c.w + (r.clipped c).x1) (fun p => new (p % c.w) (p / c.w)) b b') :
    ∃ buf, (r.clipped c).eachRow turn c.pixels = some buf ∧ Clipped c r new buf := by
  obtain ⟨hx0, hy0, hx1, hy1⟩ := clipped_inside r c
  have hturn : ∀ row ∈ Int.range (r.clipped c).y0 (r.clipped c).y1, ∀ b : Bytes,
      b.length = c.pixels.length → ∃ b', turn row b = some b' ∧
        Painted 4 (fun p => row * c.w + (r.clipped c).x0 ≤ p ∧
          (p : ℤ) < row * c.w + (r.clipped c).x1) (fun p => new (p % c.w) (p / c.w)) b b' := by
    intro row hrow
    rw [Int.mem_range_iff] at hrow
    lift row to ℕ using hy0.trans hrow.1
    exact h row hrow.1 hrow.2
  obtain ⟨buf, hbuf, hpaint⟩ := foldlM_painted hturn
  refine ⟨buf, hbuf, hpaint.length, fun x hx y hy => ?_⟩
  obtain ⟨hrow, hcolumn⟩ : (y * c.w + x) / c.w = y ∧ (y * c.w + x) % c.w = y * c.w + x - y * c.w :=
    row_column (by omega)
  rw [Nat.add_sub_cancel_left] at hcolumn
  have hcontains : (∃ row ∈ Int.range (r.clipped c).y0 (r.clipped c).y1,
      row * c.w + (r.clipped c).x0 ≤ (y * c.w + x : Nat) ∧
        ((y * c.w + x : Nat) : ℤ) < row * c.w + (r.clipped c).x1) ↔ r.Contains x y := by
    unfold PixelRect.Contains
    constructor
    · rintro ⟨row, hmem, hlow, hhigh⟩
      rw [Int.mem_range_iff] at hmem
      lift row to ℕ using hy0.trans hmem.1
      have hsame : (y * c.w + x) / c.w = row := (row_column (by omega)).1
      obtain rfl : y = row := hrow.symm.trans hsame
      rw [clipped_x0] at hlow
      rw [clipped_x1] at hhigh
      rw [clipped_y0, clipped_y1] at hmem
      omega
    · intro hin
      refine ⟨y, ?_, ?_⟩
      · rw [Int.mem_range_iff, clipped_y0, clipped_y1]
        omega
      · rw [clipped_x0, clipped_x1]
        omega
  split_ifs with hin
  · rw [hpaint.inside _ (hcontains.2 hin), hrow, hcolumn]
  · exact hpaint.outside _ (mt hcontains.1 hin)

theorem eachRow_fails (hlength : ∀ row b b', turn row b = some b' → b'.length = b.length) (row : ℤ)
    (hrow : (r.clipped c).y0 ≤ row ∧ row < (r.clipped c).y1)
    (h : ∀ b : Bytes, b.length = c.pixels.length → turn row b = none) :
    (r.clipped c).eachRow turn c.pixels = none :=
  foldlM_eq_none (fun row _ b b' => hlength row b b') ⟨row, Int.mem_range_iff.2 hrow, h⟩

/-- A run ends, and has drawn what `new` says into the rectangle. -/
def Draws (c : CanvasBuffer) (r : PixelRect) (new : Nat → Nat → Bytes) (run : Option Bytes) :
    Prop :=
  ∃ buf, run = some buf ∧ Clipped c r new buf

section rows

variable {fits : Prop} {turn : Bounds → ℤ → Bytes → Option Bytes}

/-- A run that ends has drawn the last row. -/
theorem fits_of_run {buf : Bytes}
    (hlength : ∀ row b b', turn (r.clipped c) row b = some b' → b'.length = b.length)
    (hfails : r.SidesFit → (r.clipped c).y0 < (r.clipped c).y1 → ¬ fits → ∀ b : Bytes,
      b.length = c.pixels.length → turn (r.clipped c) ((r.clipped c).y1 - 1) b = none)
    (h : (r.clip c).bind (fun k => k.eachRow (turn k) c.pixels) = some buf) :
    r.SidesFit ∧ ((r.clipped c).y0 < (r.clipped c).y1 → fits) := by
  have hsides : r.SidesFit := by
    by_contra hnot
    rw [clip_eq_none hnot] at h
    exact absurd h nofun
  rw [clip_eq hsides, Option.bind_some] at h
  refine ⟨hsides, fun hrows => ?_⟩
  by_contra hnot
  rw [eachRow_fails hlength _ ⟨by omega, by omega⟩ (hfails hsides hrows hnot)] at h
  exact absurd h nofun

/-- The loops draw if they can draw the last row. -/
theorem draws_iff
    (hlength : ∀ row b b', turn (r.clipped c) row b = some b' → b'.length = b.length)
    (hpaints : fits → ∀ row : Nat, (r.clipped c).y0 ≤ row → (row : ℤ) < (r.clipped c).y1 →
      ∀ b : Bytes, b.length = c.pixels.length → ∃ b', turn (r.clipped c) row b = some b' ∧
        Painted 4 (fun p => (row * c.w : ℤ) + (r.clipped c).x0 ≤ p ∧
          (p : ℤ) < row * c.w + (r.clipped c).x1) (fun p => new (p % c.w) (p / c.w)) b b')
    (hfails : r.SidesFit → (r.clipped c).y0 < (r.clipped c).y1 → ¬ fits → ∀ b : Bytes,
      b.length = c.pixels.length → turn (r.clipped c) ((r.clipped c).y1 - 1) b = none) :
    Draws c r new ((r.clip c).bind fun k => k.eachRow (turn k) c.pixels) ↔
      r.SidesFit ∧ ((r.clipped c).y0 < (r.clipped c).y1 → fits) := by
  refine ⟨fun ⟨_, hbuf, _⟩ => fits_of_run hlength hfails hbuf, fun ⟨hsides, hfits⟩ => ?_⟩
  rw [clip_eq hsides, Option.bind_some]
  exact eachRow_clipped fun row hlow hhigh => hpaints (hfits (by omega)) row hlow hhigh

end rows

/-- The place of a row's first pixel, as the loops compute it, is an `int`. -/
def StartFits (c : CanvasBuffer) (k : Bounds) (row : ℤ) : Prop := (row * c.w + k.x0) * 4 < 2 ^ 31

theorem StartFits.mono {k : Bounds} {row' : ℤ} (h : StartFits c k row') (row : ℤ)
    (hle : row ≤ row') : StartFits c k row := by
  have hmul : row * c.w ≤ row' * c.w := Int.mul_le_mul_of_nonneg_right hle (by omega)
  unfold StartFits at h ⊢
  omega

theorem StartFits.start {k : Bounds} {row x : Nat} (h : StartFits c k row) (hx : k.x0 = x) :
    rowStart row c.w k.x0 = some (((row * c.w + x : Nat) : ℤ) * 4) := by
  unfold StartFits at h
  rw [hx] at h ⊢
  rw [rowStart_eq, if_pos (by exact_mod_cast h)]

theorem start_fails {k : Bounds} {row : ℤ} (hx0 : 0 ≤ k.x0) (hrow : 0 ≤ row)
    (h : ¬ StartFits c k row) : rowStart row c.w k.x0 = none := by
  unfold StartFits at h
  lift row to ℕ using hrow
  obtain ⟨x, hx⟩ := Int.eq_ofNat_of_zero_le hx0
  rw [hx] at h ⊢
  rw [rowStart_eq, if_neg (by exact_mod_cast h)]

/-- A row of the canvas is in its buffer. -/
theorem row_inside (c : CanvasBuffer) (row : Nat) (h : row < c.h) :
    row * c.w * 4 + c.w * 4 ≤ c.pixels.length := by
  rw [c.length_pixels, ← Nat.add_mul, ← Nat.succ_mul]
  exact Nat.mul_le_mul_right 4 (Nat.mul_le_mul_right c.w h)

/-- Clipped from the side, the count of bytes of a row is more than the canvas has. -/
theorem byteCount_left (hr : r.Ints) (hsides : r.SidesFit)
    (hleft : (r.clipped c).x1 < (r.clipped c).x0) :
    c.pixels.length < byteCount ((r.clipped c).x1 - (r.clipped c).x0) := by
  have hcells : c.h * c.w ≤ (2 ^ 31 - 1) * (2 ^ 31 - 1) :=
    Nat.mul_le_mul (Nat.le_sub_one_of_lt c.h_fits.2) (Nat.le_sub_one_of_lt c.w_fits.2)
  have hlow : -2 ^ 31 ≤ (r.clipped c).x1 - (r.clipped c).x0 := by
    have hx := hr.x
    have hw := hr.w
    have hright := hsides.1
    rw [clipped_x0, clipped_x1]
    omega
  have hcount := byteCount_neg (Int.sub_neg_of_lt hleft) hlow
  rw [c.length_pixels]
  omega

/-! ## clearRect -/

/-- The rectangle is not wholly to one side, and the places of its rows are `int`s. -/
def ClearFits (c : CanvasBuffer) (k : Bounds) : Prop := k.x0 ≤ k.x1 ∧ StartFits c k (k.y1 - 1)

theorem clearRow_length {k : Bounds} {row : ℤ} {b' : Bytes} (h : clearRow c k row b = some b') :
    b'.length = b.length := by
  obtain ⟨dst, _, hset⟩ := Option.bind_eq_some_iff.1 h
  unfold memset at hset
  split_ifs at hset with hn
  exact store_length hset

theorem clearRow_painted (hfits : ClearFits c (r.clipped c)) (row : Nat)
    (hhigh : (row : ℤ) < (r.clipped c).y1) (hb : b.length = c.pixels.length) :
    ∃ b', clearRow c (r.clipped c) row b = some b' ∧
      Painted 4 (fun p => (row * c.w : ℤ) + (r.clipped c).x0 ≤ p ∧
        (p : ℤ) < row * c.w + (r.clipped c).x1) (fun _ => [0, 0, 0, 0]) b b' := by
  obtain ⟨hx0, _, hx1, hy1⟩ := clipped_inside r c
  obtain ⟨hle, hlast⟩ := hfits
  have hstart := hlast.mono row (by omega)
  obtain ⟨x, hx⟩ := Int.eq_ofNat_of_zero_le hx0
  obtain ⟨n, hn⟩ := Int.eq_ofNat_of_zero_le (Int.sub_nonneg.2 hle)
  have hw := c.w_fits.2
  have hin := row_inside c row (by omega)
  have hzeros : (List.replicate (n * 4) (0 : UInt8)).length = n * 4 := List.length_replicate
  have hwrite : (row * c.w + x) * 4 + n * 4 ≤ b.length := by omega
  obtain ⟨b', hb', hpaint⟩ := store_painted hzeros hwrite
  refine ⟨b', ?_, hpaint.congr (fun p => ?_) fun p hp => ?_⟩
  · unfold clearRow
    rw [hstart.start hx, hn, byteCount_natCast (by omega)]
    show memset b _ 0 (n * 4) = _
    rw [memset, if_pos (by omega)]
    exact hb'
  · omega
  · exact pixel_replicate (by omega)

theorem clearRow_fails (hr : r.Ints) (hsides : r.SidesFit)
    (hrows : (r.clipped c).y0 < (r.clipped c).y1) (hfits : ¬ ClearFits c (r.clipped c))
    (hb : b.length = c.pixels.length) :
    clearRow c (r.clipped c) ((r.clipped c).y1 - 1) b = none := by
  obtain ⟨hx0, hy0, hx1, _⟩ := clipped_inside r c
  unfold clearRow
  by_cases hstart : StartFits c (r.clipped c) ((r.clipped c).y1 - 1)
  · have hleft : (r.clipped c).x1 < (r.clipped c).x0 := by
      by_contra hle
      exact hfits ⟨by omega, hstart⟩
    have hcount := byteCount_left hr hsides hleft
    cases hdst : rowStart ((r.clipped c).y1 - 1) c.w (r.clipped c).x0 with
    | none => rfl
    | some dst =>
      show memset b dst 0 (byteCount ((r.clipped c).x1 - (r.clipped c).x0)) = none
      exact if_neg (by omega)
  · rw [start_fails hx0 (by omega) hstart]
    rfl

theorem clearRect_draws_iff (hr : r.Ints) :
    Draws c r (fun _ _ => [0, 0, 0, 0])
        ((r.clip c).bind fun k => k.eachRow (clearRow c k) c.pixels) ↔
      r.SidesFit ∧ ((r.clipped c).y0 < (r.clipped c).y1 → ClearFits c (r.clipped c)) :=
  draws_iff (fun _ _ _ => clearRow_length)
    (fun hfits row _ hhigh _ hb => clearRow_painted hfits row hhigh hb)
    fun hsides hrows hfits _ hb => clearRow_fails hr hsides hrows hfits hb

/-! ## fillRect -/

variable {color : OpaqueColor}

theorem fillRow_length {k : Bounds} {row : ℤ} {b' : Bytes} (h : fillRow c color k row b = some b') :
    b'.length = b.length := by
  obtain ⟨dst, _, hloop⟩ := Option.bind_eq_some_iff.1 h
  exact foldlM_length (fun _ _ _ _ => store_length) hloop

theorem fillRow_painted (hfits : StartFits c (r.clipped c) ((r.clipped c).y1 - 1)) (row : Nat)
    (hhigh : (row : ℤ) < (r.clipped c).y1) (hb : b.length = c.pixels.length) :
    ∃ b', fillRow c color (r.clipped c) row b = some b' ∧
      Painted 4 (fun p => (row * c.w : ℤ) + (r.clipped c).x0 ≤ p ∧
        (p : ℤ) < row * c.w + (r.clipped c).x1) (fun _ => color.bytes) b b' := by
  obtain ⟨hx0, _, hx1, hy1⟩ := clipped_inside r c
  have hstart := hfits.mono row (by omega)
  obtain ⟨x, hx⟩ := Int.eq_ofNat_of_zero_le hx0
  have hin := row_inside c row (by omega)
  have hturn : ∀ col ∈ Int.range (r.clipped c).x0 (r.clipped c).x1, ∀ d : Bytes,
      d.length = b.length → ∃ b',
        store d (((row * c.w + x : Nat) : ℤ) * 4 + (col - (r.clipped c).x0) * 4) color.bytes =
          some b' ∧
        Painted 4 (fun p => (p : ℤ) = row * c.w + col) (fun _ => color.bytes) d b' := by
    intro col hcol d hd
    rw [Int.mem_range_iff] at hcol
    lift col to ℕ using hx0.trans hcol.1
    have hplace : ((row * c.w + x : Nat) : ℤ) * 4 + (col - (r.clipped c).x0) * 4 =
        ((row * c.w + col : Nat) : ℤ) * 4 := by
      push_cast
      omega
    have hfour : color.bytes.length = 1 * 4 := rfl
    have hwrite : (row * c.w + col) * 4 + 1 * 4 ≤ d.length := by omega
    rw [hplace]
    obtain ⟨b', hb', hpaint⟩ := store_painted hfour hwrite
    refine ⟨b', hb', hpaint.congr (fun p => by omega) fun p hp => ?_⟩
    obtain rfl : p = row * c.w + col := by omega
    rw [Nat.sub_self]
    exact pixel_one hfour
  obtain ⟨b', hb', hpaint⟩ := foldlM_painted hturn
  refine ⟨b', ?_, hpaint.congr (fun p => ?_) fun _ _ => rfl⟩
  · unfold fillRow
    rw [hstart.start hx]
    exact hb'
  · simp only [Int.mem_range_iff]
    exact ⟨fun ⟨col, hcol, hp⟩ => by omega, fun hp => ⟨p - row * c.w, by omega, by omega⟩⟩

theorem fillRect_draws_iff :
    Draws c r (fun _ _ => color.bytes)
        ((r.clip c).bind fun k => k.eachRow (fillRow c color k) c.pixels) ↔
      r.SidesFit ∧ ((r.clipped c).y0 < (r.clipped c).y1 →
        StartFits c (r.clipped c) ((r.clipped c).y1 - 1)) := by
  refine draws_iff (fun _ _ _ => fillRow_length)
    (fun hfits row _ hhigh _ hb => fillRow_painted hfits row hhigh hb)
    fun _ hrows hfits b _ => ?_
  obtain ⟨hx0, hy0, _, _⟩ := clipped_inside r c
  unfold fillRow
  rw [start_fails hx0 (by omega) hfits]
  rfl

/-! ## putImageData -/

/-- The rectangle is not wholly to one side, the places in the canvas and in the image are `int`s,
and the last row that is copied is in the array. -/
structure PutFits (c : CanvasBuffer) (r : PixelRect) (src : Bytes) (k : Bounds) : Prop where
  not_left : k.x0 ≤ k.x1
  start : StartFits c k (k.y1 - 1)
  source : ((k.y1 - 1 - r.y) * r.w + (k.x0 - r.x)) * 4 < 2 ^ 31
  enough : k.x0 < k.x1 → ((k.y1 - 1 - r.y) * r.w + (k.x1 - r.x)) * 4 ≤ src.length

/-- The pixel of the image that belongs to a pixel of the canvas. -/
def imagePixel (src : Bytes) (r : PixelRect) (x y : Nat) : Bytes :=
  pixel 4 src ((y - r.y) * r.w + (x - r.x)).toNat

variable {src : Bytes}

theorem putRow_length {k : Bounds} {row : ℤ} {b' : Bytes} (h : putRow c src r k row b = some b') :
    b'.length = b.length := by
  obtain ⟨sRow, _, h⟩ := Option.bind_eq_some_iff.1 h
  obtain ⟨skipped, _, h⟩ := Option.bind_eq_some_iff.1 h
  obtain ⟨sPlace, _, h⟩ := Option.bind_eq_some_iff.1 h
  obtain ⟨dPlace, _, h⟩ := Option.bind_eq_some_iff.1 h
  obtain ⟨bytes, _, h⟩ := Option.bind_eq_some_iff.1 h
  exact store_length h

theorem putRow_painted (hr : r.Ints) (hw : 0 < r.w) (hfits : PutFits c r src (r.clipped c))
    (row : Nat) (hlow : (r.clipped c).y0 ≤ row) (hhigh : (row : ℤ) < (r.clipped c).y1)
    (hb : b.length = c.pixels.length) :
    ∃ b', putRow c src r (r.clipped c) row b = some b' ∧
      Painted 4 (fun p => (row * c.w : ℤ) + (r.clipped c).x0 ≤ p ∧
        (p : ℤ) < row * c.w + (r.clipped c).x1)
        (fun p => imagePixel src r (p % c.w) (p / c.w)) b b' := by
  obtain ⟨hx0, _, hx1, hy1⟩ := clipped_inside r c
  obtain ⟨hle, hlast, hsource, henough⟩ := hfits
  have hstart := hlast.mono row (by omega)
  have hxr : r.x ≤ (r.clipped c).x0 := le_max_left _ _
  have hyr : r.y ≤ (r.clipped c).y0 := le_max_left _ _
  have hright : (r.clipped c).x1 ≤ r.x + r.w := min_le_left _ _
  have hbottom : (r.clipped c).y1 ≤ r.y + r.h := min_le_left _ _
  have hwhigh := hr.w
  have hhhigh := hr.h
  obtain ⟨x, hx⟩ := Int.eq_ofNat_of_zero_le hx0
  obtain ⟨n, hn⟩ := Int.eq_ofNat_of_zero_le (Int.sub_nonneg.2 hle)
  obtain ⟨sRow, hsRow⟩ : ∃ sRow : ℕ, row - r.y = sRow := Int.eq_ofNat_of_zero_le (by omega)
  obtain ⟨skipped, hskipped⟩ : ∃ skipped : ℕ, (r.clipped c).x0 - r.x = skipped :=
    Int.eq_ofNat_of_zero_le (by omega)
  obtain ⟨w, hweq⟩ := Int.eq_ofNat_of_zero_le (Int.le_of_lt hw)
  have hrows : (sRow : ℤ) * w ≤ ((r.clipped c).y1 - 1 - r.y) * r.w := by
    rw [hweq]
    exact Int.mul_le_mul_of_nonneg_right (by omega) (Int.natCast_nonneg w)
  have hfit : (sRow * w + skipped) * 4 < 2 ^ 31 := by
    zify
    omega
  have hcolumns := c.w_fits.2
  have hin := row_inside c row (by omega)
  have hwrite : (row * c.w + x) * 4 + n * 4 ≤ b.length := by omega
  have hread : load src (((sRow * w + skipped : ℕ) : ℤ) * 4) (n * 4) =
      some ((src.drop ((sRow * w + skipped) * 4)).take (n * 4)) := by
    rcases Nat.eq_zero_or_pos n with rfl | hpos
    · rw [Nat.zero_mul, List.take_zero]
      rfl
    · have hsrc := henough (by omega)
      refine load_of_le ?_
      zify
      omega
  obtain ⟨b', hb', hpaint⟩ := store_painted (load_inside hread).1 hwrite
  refine ⟨b', ?_, hpaint.congr (fun p => by omega) fun p hp => ?_⟩
  · unfold putRow
    have hrow : checkedInt (row - r.y) = some (sRow : ℤ) := by
      rw [hsRow]
      exact checkedInt_of_fits (by omega)
    have hskip : checkedInt ((r.clipped c).x0 - r.x) = some (skipped : ℤ) := by
      rw [hskipped]
      exact checkedInt_of_fits (by omega)
    have hplace : rowStart sRow r.w skipped = some (((sRow * w + skipped : ℕ) : ℤ) * 4) := by
      rw [hweq, rowStart_eq, if_pos hfit]
    have hcount : byteCount ((r.clipped c).x1 - (r.clipped c).x0) = n * 4 := by
      rw [hn]
      exact byteCount_natCast (by omega)
    rw [hrow, Option.bind_eq_bind, Option.bind_some, hskip, Option.bind_some, hplace,
      Option.bind_some, hstart.start hx, Option.bind_some, hcount, hread]
    exact hb'
  · obtain ⟨hrow, hcolumn⟩ : p / c.w = row ∧ p % c.w = p - row * c.w := row_column (by omega)
    have hplace : ((row - r.y) * r.w + ((p - row * c.w : ℕ) - r.x)).toNat =
        sRow * w + skipped + (p - (row * c.w + x)) := by
      rw [hsRow, hweq]
      omega
    rw [hrow, hcolumn, imagePixel, hplace]
    exact pixel_take_drop (by omega)

/-- A row that is put is one that fits. -/
theorem putRow_fits (hr : r.Ints) (hw : 0 < r.w) (hsides : r.SidesFit)
    (hrows : (r.clipped c).y0 < (r.clipped c).y1) (hb : b.length = c.pixels.length) {b' : Bytes}
    (h : putRow c src r (r.clipped c) ((r.clipped c).y1 - 1) b = some b') :
    PutFits c r src (r.clipped c) := by
  obtain ⟨hx0, hy0, hx1, hy1⟩ := clipped_inside r c
  obtain ⟨sRow, hsRow, h₁⟩ := Option.bind_eq_some_iff.1 h
  obtain ⟨skipped, hskipped, h₂⟩ := Option.bind_eq_some_iff.1 h₁
  obtain ⟨sPlace, hsPlace, h₃⟩ := Option.bind_eq_some_iff.1 h₂
  obtain ⟨dPlace, hdPlace, h₄⟩ := Option.bind_eq_some_iff.1 h₃
  obtain ⟨bytes, hbytes, h₅⟩ := Option.bind_eq_some_iff.1 h₄
  rw [checkedInt_eq_some hsRow, checkedInt_eq_some hskipped] at hsPlace
  obtain ⟨hlength, hinside⟩ := load_inside hbytes
  have hstore := store_inside h₅
  have hyr : r.y ≤ (r.clipped c).y0 := le_max_left _ _
  have hxr : r.x ≤ (r.clipped c).x0 := le_max_left _ _
  have hcolumns := c.w_fits.2
  obtain ⟨y, hy⟩ : ∃ y : ℕ, (r.clipped c).y1 - 1 - r.y = y := Int.eq_ofNat_of_zero_le (by omega)
  obtain ⟨x, hx⟩ : ∃ x : ℕ, (r.clipped c).x0 - r.x = x := Int.eq_ofNat_of_zero_le (by omega)
  obtain ⟨w, hweq⟩ : ∃ w : ℕ, r.w = w := Int.eq_ofNat_of_zero_le (Int.le_of_lt hw)
  rw [hy, hx, hweq, rowStart_eq] at hsPlace
  split_ifs at hsPlace with hsource
  obtain rfl := Option.some.inj hsPlace
  have hle : (r.clipped c).x0 ≤ (r.clipped c).x1 := by
    by_contra hleft
    have hcount := byteCount_left hr hsides (Int.not_le.1 hleft)
    omega
  refine ⟨hle, ?_, ?_, fun hlt => ?_⟩
  · by_contra hstart
    rw [start_fails hx0 (by omega) hstart] at hdPlace
    exact absurd hdPlace nofun
  · rw [hy, hx, hweq]
    exact_mod_cast hsource
  · obtain ⟨n, hn⟩ : ∃ n : ℕ, (r.clipped c).x1 - (r.clipped c).x0 = n :=
      Int.eq_ofNat_of_zero_le (by omega)
    rw [hn, byteCount_natCast (by omega)] at hinside
    have hend := hinside (by omega)
    rw [hy, hweq]
    omega

theorem putRow_fails (hr : r.Ints) (hw : 0 < r.w) (hsides : r.SidesFit)
    (hrows : (r.clipped c).y0 < (r.clipped c).y1) (hfits : ¬ PutFits c r src (r.clipped c))
    (hb : b.length = c.pixels.length) :
    putRow c src r (r.clipped c) ((r.clipped c).y1 - 1) b = none := by
  cases hrow : putRow c src r (r.clipped c) ((r.clipped c).y1 - 1) b with
  | none => rfl
  | some b' => exact absurd (putRow_fits hr hw hsides hrows hb hrow) hfits

theorem putImageData_draws_iff (hr : r.Ints) (hw : 0 < r.w) :
    Draws c r (imagePixel src r)
        ((r.clip c).bind fun k => k.eachRow (putRow c src r k) c.pixels) ↔
      r.SidesFit ∧ ((r.clipped c).y0 < (r.clipped c).y1 → PutFits c r src (r.clipped c)) :=
  draws_iff (fun _ _ _ => putRow_length)
    (fun hfits row hlow hhigh _ hb => putRow_painted hr hw hfits row hlow hhigh hb)
    fun hsides hrows hfits _ hb => putRow_fails hr hw hsides hrows hfits hb

end TinyFramework.Canvas
