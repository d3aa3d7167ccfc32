/-
  Canvas/PixelImages.lean --- images of pixels and the calls on them.

  The staging rows of the flip are there: its `malloc` does not fail.  The script that makes the
  array of an image does not throw.
-/
import TinyFramework.Canvas.PixelClips

set_option autoImplicit false

namespace TinyFramework.Canvas

open TinyFramework.Foundation

section ImageData

variable {b : Bytes} {c : CanvasBuffer} {r : PixelRect}

/-! ## getImageData -/

/-- The place is in the canvas. -/
def InCanvas (c : CanvasBuffer) (x y : ℤ) : Prop := 0 ≤ x ∧ x < c.w ∧ 0 ≤ y ∧ y < c.h

instance (c : CanvasBuffer) (x y : ℤ) : Decidable (InCanvas c x y) :=
  inferInstanceAs (Decidable (_ ∧ _ ∧ _ ∧ _))

/-- The pixel at a place, which is transparent outside of the canvas. -/
def canvasPixel (c : CanvasBuffer) (x y : ℤ) : Bytes :=
  if InCanvas c x y then pixel 4 c.pixels (y * c.w + x).toNat else [0, 0, 0, 0]

/-- The image has the size of the rectangle and its pixels; without a canvas, none. -/
def Shows (canvas : Option CanvasBuffer) (r : PixelRect) (img : ImageData) : Prop :=
  img.w = r.w ∧ img.h = r.h ∧ img.data.length = r.h.toNat * r.w.toNat * 4 ∧
    ∀ x < r.w.toNat, ∀ y < r.h.toNat, pixel 4 img.data (y * r.w.toNat + x) =
      match canvas with
      | none => [0, 0, 0, 0]
      | some c => canvasPixel c (r.x + x) (r.y + y)

theorem createImageData_eq {w h : Nat} (hw : 0 < w) (hh : 0 < h) :
    createImageData w h =
      if h * w * 4 < 2 ^ 31 then some ⟨w, h, List.replicate (h * w * 4) 0⟩ else none := by
  have hwmax : max (w : ℤ) 1 = w := by omega
  have hhmax : max (h : ℤ) 1 = h := by omega
  have hcells : (0 : ℤ) ≤ (w : ℤ) * h := by positivity
  unfold createImageData
  rw [hwmax, hhmax, Nat.mul_comm h w]
  dsimp only
  split_ifs with hfits
  · have hsize : (((w * h) * 4 : Nat) : ℤ) < 2147483648 := by exact_mod_cast hfits
    push_cast at hsize
    have hnat : ((w : ℤ) * h * 4).toNat = w * h * 4 := by omega
    rw [checkedInt_of_fits (by omega), Option.bind_eq_bind, Option.bind_some,
      checkedInt_of_fits (by omega), Option.bind_some, hnat]
  · have hsize : ¬ (((w * h) * 4 : Nat) : ℤ) < 2147483648 := by exact_mod_cast hfits
    push_cast at hsize
    by_cases hproduct : (w : ℤ) * h < 2147483648
    · rw [checkedInt_of_fits (by omega), Option.bind_eq_bind, Option.bind_some,
        checkedInt_eq_none (by omega)]
      rfl
    · rw [checkedInt_eq_none (by omega)]
      rfl

theorem getPixel_length {srcY dy dx : ℤ} {b' : Bytes} (h : getPixel c r srcY dy dx b = some b') :
    b'.length = b.length := by
  obtain ⟨srcX, _, h⟩ := Option.bind_eq_some_iff.1 h
  split_ifs at h
  · rw [Option.some.inj h]
  · obtain ⟨bytes, _, hstore⟩ := Option.bind_eq_some_iff.1 h
    exact store_length hstore

theorem getRow_length {dy : ℤ} {b' : Bytes} (h : getRow c r dy b = some b') :
    b'.length = b.length := by
  obtain ⟨srcY, _, h⟩ := Option.bind_eq_some_iff.1 h
  split_ifs at h
  · rw [Option.some.inj h]
  · exact foldlM_length (fun _ _ _ _ => getPixel_length) h

/-- A pixel that is in the canvas is copied. -/
theorem getPixel_painted {w dx dy : Nat} (hw : r.w = w) (hdx : dx < w)
    (hx : -2 ^ 31 ≤ r.x + dx ∧ r.x + dx < 2 ^ 31) (hy : 0 ≤ r.y + dy ∧ r.y + dy < c.h)
    (hin : (dy * w + dx) * 4 + 4 ≤ b.length) :
    ∃ b', getPixel c r (r.y + dy) dy dx b = some b' ∧
      Painted 4 (fun p => p = dy * w + dx ∧ InCanvas c (r.x + dx) (r.y + dy))
        (fun p => canvasPixel c (r.x + (p % w : ℕ)) (r.y + (p / w : ℕ))) b b' := by
  unfold getPixel
  rw [checkedInt_of_fits (by omega)]
  by_cases hout : r.x + dx < 0 ∨ c.w ≤ r.x + dx
  · refine ⟨b, if_pos hout, .nothing fun p hp => ?_⟩
    have hinside := hp.2
    unfold InCanvas at hinside
    omega
  · obtain ⟨x, hxeq⟩ : ∃ x : ℕ, r.x + dx = x := Int.eq_ofNat_of_zero_le (by omega)
    obtain ⟨y, hyeq⟩ : ∃ y : ℕ, r.y + dy = y := Int.eq_ofNat_of_zero_le hy.1
    have hrow := row_inside c y (by omega)
    have hplace : (y * c.w + x) * 4 + 1 * 4 ≤ c.pixels.length := by omega
    have hread : load c.pixels (((y * c.w + x : ℕ) : ℤ) * 4) 4 =
        some (pixel 4 c.pixels (y * c.w + x)) := load_of_le hplace
    have hfour : (pixel 4 c.pixels (y * c.w + x)).length = 1 * 4 := (load_inside hread).1
    obtain ⟨b', hb', hpaint⟩ := store_painted hfour hin
    have hinside : InCanvas c (r.x + dx) (r.y + dy) := by
      unfold InCanvas
      omega
    refine ⟨b', ?_, hpaint.congr (fun p => ?_) fun p hp => ?_⟩
    · rw [Option.bind_eq_bind, Option.bind_some, if_neg hout, hxeq, hyeq, hw]
      rw [← Nat.cast_mul, ← Nat.cast_add, hread]
      exact hb'
    · rw [and_iff_left hinside]
      omega
    · obtain rfl : p = dy * w + dx := by omega
      obtain ⟨hdiv, hmod⟩ : (dy * w + dx) / w = dy ∧ (dy * w + dx) % w = dy * w + dx - dy * w :=
        row_column (by omega)
      rw [hdiv, hmod, Nat.add_sub_cancel_left, canvasPixel, if_pos hinside, Nat.sub_self,
        pixel_one hfour, hxeq, hyeq]
      rfl

theorem getRow_painted {w dy : Nat} (hw : r.w = w) (hx : -2 ^ 31 ≤ r.x)
    (hright : 0 ≤ r.y + dy → r.y + dy < c.h → r.x + w - 1 < 2 ^ 31)
    (hy : -2 ^ 31 ≤ r.y + dy ∧ r.y + dy < 2 ^ 31) (hin : dy * w * 4 + w * 4 ≤ b.length) :
    ∃ b', getRow c r dy b = some b' ∧
      Painted 4 (fun p => (dy * w ≤ p ∧ p < dy * w + w) ∧
          InCanvas c (r.x + (p % w : ℕ)) (r.y + (p / w : ℕ)))
        (fun p => canvasPixel c (r.x + (p % w : ℕ)) (r.y + (p / w : ℕ))) b b' := by
  unfold getRow
  rw [checkedInt_of_fits (by omega)]
  by_cases hout : r.y + dy < 0 ∨ c.h ≤ r.y + dy
  · refine ⟨b, if_pos hout, .nothing fun p hp => ?_⟩
    obtain ⟨hrow, hinside⟩ := hp
    rw [(row_column hrow).1] at hinside
    unfold InCanvas at hinside
    omega
  · have hfits := hright (by omega) (by omega)
    have hturn : ∀ dx ∈ Int.range 0 r.w, ∀ d : Bytes, d.length = b.length →
        ∃ b', getPixel c r (r.y + dy) dy dx d = some b' ∧
          Painted 4 (fun p => (p : ℤ) = dy * w + dx ∧ InCanvas c (r.x + dx) (r.y + dy))
            (fun p => canvasPixel c (r.x + (p % w : ℕ)) (r.y + (p / w : ℕ))) d b' := by
      intro dx hdx d hd
      rw [Int.mem_range_iff] at hdx
      lift dx to ℕ using hdx.1
      have hcolumn : dx < w := by omega
      have hplace : (dy * w + dx) * 4 + 4 ≤ d.length := by omega
      have hx' : -2 ^ 31 ≤ r.x + dx ∧ r.x + dx < 2 ^ 31 := by omega
      have hy' : 0 ≤ r.y + dy ∧ r.y + dy < c.h := by omega
      obtain ⟨b', hb', hpaint⟩ := getPixel_painted hw hcolumn hx' hy' hplace
      exact ⟨b', hb', hpaint.congr (fun p => and_congr_left fun _ => by omega) fun _ _ => rfl⟩
    obtain ⟨b', hb', hpaint⟩ := foldlM_painted hturn
    refine ⟨b', (if_neg hout).trans hb', hpaint.congr (fun p => ?_) fun _ _ => rfl⟩
    simp only [Int.mem_range_iff]
    constructor
    · rintro ⟨dx, hdx, hp, hinside⟩
      lift dx to ℕ using hdx.1
      have hrow : dy * w ≤ p ∧ p < dy * w + w := by omega
      obtain ⟨hdiv, hmod⟩ := row_column hrow
      have hcolumn : p % w = dx := by omega
      rw [hdiv, hcolumn]
      exact ⟨hrow, hinside⟩
    · rintro ⟨hrow, hinside⟩
      obtain ⟨hdiv, hmod⟩ := row_column hrow
      rw [hdiv] at hinside
      exact ⟨(p % w : ℕ), by omega, by omega, hinside⟩

/-- The last places that are computed are `int`s. -/
def RowsFit (c : CanvasBuffer) (r : PixelRect) : Prop :=
  r.y + r.h - 1 < 2 ^ 31 ∧
    ((r.clipped c).y0 < (r.clipped c).y1 → r.x + r.w - 1 < 2 ^ 31)

theorem getRows_painted {w h : Nat} (hr : r.Ints) (hw : r.w = w) (hh : r.h = h)
    (hfits : RowsFit c r) (hb : b.length = h * w * 4) :
    ∃ b', (Int.range 0 r.h).foldlM (fun b dy => getRow c r dy b) b = some b' ∧
      Painted 4 (fun p => p < h * w ∧ InCanvas c (r.x + (p % w : ℕ)) (r.y + (p / w : ℕ)))
        (fun p => canvasPixel c (r.x + (p % w : ℕ)) (r.y + (p / w : ℕ))) b b' := by
  obtain ⟨hbottom, hright⟩ := hfits
  rw [clipped_y0, clipped_y1] at hright
  have hxlow := hr.x.1
  have hylow := hr.y.1
  have hturn : ∀ dy ∈ Int.range 0 r.h, ∀ d : Bytes, d.length = b.length →
      ∃ b', getRow c r dy d = some b' ∧
        Painted 4 (fun p => (dy * w ≤ p ∧ (p : ℤ) < dy * w + w) ∧
            InCanvas c (r.x + (p % w : ℕ)) (r.y + (p / w : ℕ)))
          (fun p => canvasPixel c (r.x + (p % w : ℕ)) (r.y + (p / w : ℕ))) d b' := by
    intro dy hdy d hd
    rw [Int.mem_range_iff] at hdy
    lift dy to ℕ using hdy.1
    have hrows : (dy + 1) * w ≤ h * w := Nat.mul_le_mul_right w (by omega)
    rw [Nat.succ_mul] at hrows
    have hplace : dy * w * 4 + w * 4 ≤ d.length := by omega
    have hy : -2 ^ 31 ≤ r.y + dy ∧ r.y + dy < 2 ^ 31 := by omega
    have hx : 0 ≤ r.y + dy → r.y + dy < c.h → r.x + w - 1 < 2 ^ 31 := by omega
    obtain ⟨b', hb', hpaint⟩ := getRow_painted hw hxlow hx hy hplace
    exact ⟨b', hb', hpaint.congr (fun p => and_congr_left fun _ => by omega) fun _ _ => rfl⟩
  obtain ⟨b', hb', hpaint⟩ := foldlM_painted hturn
  refine ⟨b', hb', hpaint.congr (fun p => ?_) fun _ _ => rfl⟩
  simp only [Int.mem_range_iff]
  constructor
  · rintro ⟨dy, hdy, hp, hinside⟩
    lift dy to ℕ using hdy.1
    have hrows : (dy + 1) * w ≤ h * w := Nat.mul_le_mul_right w (by omega)
    rw [Nat.succ_mul] at hrows
    exact ⟨by omega, hinside⟩
  · rintro ⟨hp, hinside⟩
    have hdiv := Nat.div_add_mod p w
    rw [Nat.mul_comm] at hdiv
    have hmod : p % w < w := Nat.mod_lt p (by
      rcases Nat.eq_zero_or_pos w with rfl | hpos
      · exact absurd hp (Nat.not_lt_zero p)
      · exact hpos)
    have hrow : p / w < h := Nat.div_lt_of_lt_mul (by rwa [Nat.mul_comm])
    have hdy : ((p / w : ℕ) : ℤ) < r.h := by
      rw [hh]
      exact_mod_cast hrow
    refine ⟨(p / w : ℕ), ⟨Int.natCast_nonneg _, hdy⟩, ⟨?_, ?_⟩, hinside⟩
    · exact_mod_cast Nat.div_mul_le_self p w
    · have hend : p < p / w * w + w := by omega
      exact_mod_cast hend

theorem getRows_fail (hw : 0 < r.w) (hh : 0 < r.h) (hfits : ¬ RowsFit c r) :
    (Int.range 0 r.h).foldlM (fun b dy => getRow c r dy b) b = none := by
  have hrows := c.h_fits.2
  by_cases hbottom : r.y + r.h - 1 < 2 ^ 31
  · have hover : (r.clipped c).y0 < (r.clipped c).y1 ∧ ¬ r.x + r.w - 1 < 2 ^ 31 := by
      by_contra hnot
      exact hfits ⟨hbottom, fun hlt => by
        by_contra hright
        exact hnot ⟨hlt, hright⟩⟩
    rw [clipped_y0, clipped_y1] at hover
    refine foldlM_eq_none (fun _ _ _ _ => getRow_length) ⟨max r.y 0 - r.y, ?_, fun d _ => ?_⟩
    · rw [Int.mem_range_iff]
      omega
    · unfold getRow
      rw [checkedInt_of_fits (by omega), Option.bind_eq_bind, Option.bind_some, if_neg (by omega)]
      refine foldlM_eq_none (fun _ _ _ _ => getPixel_length) ⟨r.w - 1, ?_, fun d _ => ?_⟩
      · rw [Int.mem_range_iff]
        omega
      · unfold getPixel
        rw [checkedInt_eq_none (by omega)]
        rfl
  · refine foldlM_eq_none (fun _ _ _ _ => getRow_length) ⟨r.h - 1, ?_, fun d _ => ?_⟩
    · rw [Int.mem_range_iff]
      omega
    · unfold getRow
      rw [checkedInt_eq_none (by omega)]
      rfl

/-- The rectangle of an image: sides of less than one pixel count as one. -/
def PixelRect.ofImage (r : PixelRect) : PixelRect := { r with w := max r.w 1, h := max r.h 1 }

/-- The image is not too large, and the last places are `int`s. -/
def GetFits (canvas : Option CanvasBuffer) (r : PixelRect) : Prop :=
  r.h * r.w * 4 < 2 ^ 31 ∧ ∀ c ∈ canvas, RowsFit c r

variable {room : Nat → Bool} {cv : CanvasElement}

theorem ofImage_ints (hr : r.Ints) : r.ofImage.Ints := by
  have hw := hr.w
  have hh := hr.h
  refine ⟨hr.x, hr.y, ?_, ?_⟩
  · show -2 ^ 31 ≤ max r.w 1 ∧ max r.w 1 < 2 ^ 31
    omega
  · show -2 ^ 31 ≤ max r.h 1 ∧ max r.h 1 < 2 ^ 31
    omega

/-- An image of zeros shows what is in no canvas. -/
theorem shows_zeros {w h : Nat} (hw : r.w = w) (hh : r.h = h) :
    Shows none r ⟨w, h, List.replicate (h * w * 4) 0⟩ := by
  have hwnat : r.w.toNat = w := by omega
  have hhnat : r.h.toNat = h := by omega
  refine ⟨hw.symm, hh.symm, ?_, fun x hx y hy => ?_⟩
  · rw [hwnat, hhnat]
    exact List.length_replicate
  · rw [hwnat] at hx ⊢
    have hend : (y + 1) * w ≤ h * w := Nat.mul_le_mul_right w (by omega)
    rw [Nat.succ_mul] at hend
    exact pixel_replicate (by omega)

theorem shows_painted {w h : Nat} (hw : r.w = w) (hh : r.h = h) {data : Bytes}
    (hpaint : Painted 4 (fun p => p < h * w ∧ InCanvas c (r.x + (p % w : ℕ)) (r.y + (p / w : ℕ)))
      (fun p => canvasPixel c (r.x + (p % w : ℕ)) (r.y + (p / w : ℕ)))
      (List.replicate (h * w * 4) 0) data) : Shows (some c) r ⟨w, h, data⟩ := by
  have hwnat : r.w.toNat = w := by omega
  have hhnat : r.h.toNat = h := by omega
  refine ⟨hw.symm, hh.symm, ?_, fun x hx y hy => ?_⟩
  · rw [hwnat, hhnat]
    exact hpaint.length.trans List.length_replicate
  · rw [hwnat] at hx ⊢
    have hend : (y + 1) * w ≤ h * w := Nat.mul_le_mul_right w (by omega)
    rw [Nat.succ_mul] at hend
    obtain ⟨hrow, hcolumn⟩ : (y * w + x) / w = y ∧ (y * w + x) % w = y * w + x - y * w :=
      row_column (by omega)
    rw [Nat.add_sub_cancel_left] at hcolumn
    show pixel 4 data (y * w + x) = canvasPixel c (r.x + x) (r.y + y)
    by_cases hinside : InCanvas c (r.x + x) (r.y + y)
    · rw [hpaint.inside _ ⟨by omega, by rwa [hrow, hcolumn]⟩, hrow, hcolumn]
    · have hout : ¬ (y * w + x < h * w ∧
          InCanvas c (r.x + ((y * w + x) % w : ℕ)) (r.y + ((y * w + x) / w : ℕ))) := by
        rw [hrow, hcolumn]
        exact fun hp => hinside hp.2
      rw [hpaint.outside _ hout, canvasPixel, if_neg hinside]
      exact pixel_replicate (by omega)

theorem getImageData_shows_iff (hr : r.Ints) :
    (∃ img, getImageData room cv r = some img ∧
        Shows (ctx2dGetCanvasBuffer room cv) r.ofImage img) ↔
      GetFits (ctx2dGetCanvasBuffer room cv) r.ofImage := by
  have hw : 0 < r.ofImage.w := by
    show 0 < max r.w 1
    omega
  have hh : 0 < r.ofImage.h := by
    show 0 < max r.h 1
    omega
  obtain ⟨w, hweq⟩ := Int.eq_ofNat_of_zero_le (Int.le_of_lt hw)
  obtain ⟨h, hheq⟩ := Int.eq_ofNat_of_zero_le (Int.le_of_lt hh)
  have hrun : getImageData room cv r = (createImageData r.ofImage.w r.ofImage.h).bind fun o =>
      match ctx2dGetCanvasBuffer room cv with
      | none => some o
      | some c =>
          ((Int.range 0 r.ofImage.h).foldlM (fun b dy => getRow c r.ofImage dy b) o.data).bind
            fun data => some { o with data := data } := rfl
  rw [hrun, hweq, hheq, createImageData_eq (by omega) (by omega)]
  unfold GetFits
  rw [hweq, hheq]
  split_ifs with hsize
  · have hfits : (h : ℤ) * w * 4 < 2 ^ 31 := by exact_mod_cast hsize
    rw [Option.bind_some]
    cases ctx2dGetCanvasBuffer room cv with
    | none => exact iff_of_true ⟨_, rfl, shows_zeros hweq hheq⟩ ⟨hfits, nofun⟩
    | some c =>
      dsimp only
      by_cases hrows : RowsFit c r.ofImage
      · obtain ⟨data, hdata, hpaint⟩ := getRows_painted (ofImage_ints hr) hweq hheq hrows
          List.length_replicate
        rw [hheq] at hdata
        rw [hdata]
        exact iff_of_true ⟨_, rfl, shows_painted hweq hheq hpaint⟩
          ⟨hfits, fun _ hc => Option.some.inj hc ▸ hrows⟩
      · have hnone := getRows_fail (b := List.replicate (h * w * 4) 0) hw hh hrows
        rw [hheq] at hnone
        rw [hnone]
        exact iff_of_false (fun ⟨_, hsome, _⟩ => absurd hsome nofun)
          fun hall => hrows (hall.2 c rfl)
  · refine iff_of_false (fun ⟨_, hsome, _⟩ => absurd hsome nofun) fun hall => hsize ?_
    exact_mod_cast hall.1

/-! ## Drawing on an element -/

/-- A run ends with the element; where it has a canvas, the rectangle is drawn. -/
def DrawsOn (room : Nat → Bool) (cv : CanvasElement) (r : PixelRect) (new : Nat → Nat → Bytes)
    (run : Option CanvasElement) : Prop :=
  ∃ cv', run = some cv' ∧
    match ctx2dGetCanvasBuffer room cv with
    | none => cv' = cv
    | some c => ∃ buf, cv' = { cv with pixels := some buf } ∧ Clipped c r new buf

theorem drawn_iff {new : Nat → Nat → Bytes} {draw : CanvasBuffer → Option Bytes} :
    DrawsOn room cv r new (drawn room cv draw) ↔
      ∀ c ∈ ctx2dGetCanvasBuffer room cv, Draws c r new (draw c) := by
  unfold DrawsOn drawn
  cases ctx2dGetCanvasBuffer room cv with
  | none => exact iff_of_true ⟨cv, rfl, rfl⟩ nofun
  | some c =>
    dsimp only
    constructor
    · rintro ⟨cv', hrun, buf, hcv, hclipped⟩ d hd
      obtain rfl := Option.some.inj hd
      obtain ⟨pixels, hpixels, hsame⟩ := Option.map_eq_some_iff.1 hrun
      obtain rfl : pixels = buf := by
        rw [hcv] at hsame
        exact Option.some.inj (CanvasElement.mk.inj hsame).2.2
      exact ⟨pixels, hpixels, hclipped⟩
    · intro h
      obtain ⟨buf, hbuf, hclipped⟩ := h c rfl
      exact ⟨_, by rw [hbuf, Option.map_some], buf, rfl, hclipped⟩

/-- The element has the buffer that was drawn. -/
theorem ctx2dGetCanvasBuffer_drawn {buf : Bytes} (hc : c ∈ ctx2dGetCanvasBuffer room cv)
    (hbuf : buf.length = c.h * c.w * 4) :
    ctx2dGetCanvasBuffer room { cv with pixels := some buf } =
      some { c with pixels := buf, length_pixels := hbuf } := by
  rw [Option.mem_def] at hc
  unfold ctx2dGetCanvasBuffer at hc ⊢
  dsimp only at hc ⊢
  split_ifs at hc with hpos hheld hroom
  · obtain rfl := Option.some.inj hc
    rw [dif_pos hpos]
    exact dif_pos hbuf
  · obtain rfl := Option.some.inj hc
    rw [dif_pos hpos]
    exact dif_pos hbuf

/-! ## The image that was put -/

/-- The whole rectangle is in the canvas. -/
def PixelRect.Inside (r : PixelRect) (c : CanvasBuffer) : Prop :=
  0 < r.w ∧ 0 < r.h ∧ 0 ≤ r.x ∧ 0 ≤ r.y ∧ r.x + r.w ≤ c.w ∧ r.y + r.h ≤ c.h

/-- The image is not too large, and the place of its last row is an `int`. -/
def ImageFits (c : CanvasBuffer) (r : PixelRect) : Prop :=
  r.h * r.w * 4 < 2 ^ 31 ∧ ((r.y + r.h - 1) * c.w + r.x) * 4 < 2 ^ 31

theorem putFits_iff {src : Bytes} (h : r.Inside c) (hsrc : (src.length : ℤ) = r.h * r.w * 4)
    (hsize : r.h * r.w * 4 < 2 ^ 31) :
    PutFits c r src (r.clipped c) ↔ ((r.y + r.h - 1) * c.w + r.x) * 4 < 2 ^ 31 := by
  obtain ⟨hw, hh, hx, hy, hright, hbottom⟩ := h
  have hx0 : (r.clipped c).x0 = r.x := max_eq_left hx
  have hx1 : (r.clipped c).x1 = r.x + r.w := min_eq_left hright
  have hy1 : (r.clipped c).y1 = r.y + r.h := min_eq_left hbottom
  have hlast : (r.h - 1) * r.w + r.w = r.h * r.w := by ring
  constructor
  · intro hfits
    have hstart := hfits.start
    rwa [StartFits, hy1, hx0] at hstart
  · intro hstart
    have hrow : r.y + r.h - 1 - r.y = r.h - 1 := by omega
    refine ⟨by omega, ?_, ?_, fun _ => ?_⟩
    · rwa [StartFits, hy1, hx0]
    · rw [hy1, hx0, hrow]
      omega
    · rw [hy1, hx1, hrow]
      omega

theorem PixelRect.Inside.sides (h : r.Inside c) : r.SidesFit := by
  obtain ⟨hw, hh, hx, hy, hright, hbottom⟩ := h
  have hwfits := c.w_fits.2
  have hhfits := c.h_fits.2
  unfold PixelRect.SidesFit
  omega

theorem PixelRect.Inside.ofImage (h : r.Inside c) : r.ofImage = r := by
  obtain ⟨hw, hh, _⟩ := h
  have hwmax : max r.w 1 = r.w := by omega
  have hhmax : max r.h 1 = r.h := by omega
  rw [PixelRect.ofImage, hwmax, hhmax]

theorem PixelRect.Inside.rows (h : r.Inside c) : RowsFit c r := by
  obtain ⟨hw, hh, hx, hy, hright, hbottom⟩ := h
  have hwfits := c.w_fits.2
  have hhfits := c.h_fits.2
  exact ⟨by omega, fun _ => by omega⟩

/-- What is shown of a canvas into which an image was put is the image. -/
theorem shows_put {src buf : Bytes} {img : ImageData} (h : r.Inside c)
    (hsrc : (src.length : ℤ) = r.h * r.w * 4) (hbuf : buf.length = c.h * c.w * 4)
    (hclipped : Clipped c r (imagePixel src r) buf)
    (hshows : Shows (some { c with pixels := buf, length_pixels := hbuf }) r img) :
    img = ⟨r.w, r.h, src⟩ := by
  obtain ⟨himgw, himgh, hlength, hpixels⟩ := hshows
  obtain ⟨hw, hh, hx, hy, hright, hbottom⟩ := h
  obtain ⟨w, hweq⟩ := Int.eq_ofNat_of_zero_le (Int.le_of_lt hw)
  obtain ⟨h, hheq⟩ := Int.eq_ofNat_of_zero_le (Int.le_of_lt hh)
  rw [hweq, hheq] at hsrc hlength
  rw [hweq, hheq, Int.toNat_natCast, Int.toNat_natCast] at hpixels
  have hsrcnat : src.length = h * w * 4 := by exact_mod_cast hsrc
  have hdata : img.data = src := by
    refine eq_of_pixels (by decide) hlength hsrcnat fun p hp => ?_
    obtain ⟨y, x, hyh, hxw, rfl⟩ : ∃ y x, y < h ∧ x < w ∧ p = y * w + x := by
      have hdiv := Nat.div_add_mod p w
      rw [Nat.mul_comm] at hdiv
      exact ⟨p / w, p % w, Nat.div_lt_of_lt_mul (by rwa [Nat.mul_comm]),
        Nat.mod_lt p (by omega), hdiv.symm⟩
    have hpixel := hpixels x hxw y hyh
    obtain ⟨cx, hcx⟩ : ∃ cx : ℕ, r.x + x = cx := Int.eq_ofNat_of_zero_le (by omega)
    obtain ⟨cy, hcy⟩ : ∃ cy : ℕ, r.y + y = cy := Int.eq_ofNat_of_zero_le (by omega)
    have hcontains : r.Contains cx cy := by
      unfold PixelRect.Contains
      omega
    have hdrawn := hclipped.2 cx (by omega) cy (by omega)
    have hplace : ((cy - r.y) * r.w + (cx - r.x)).toNat = y * w + x := by
      rw [hweq, ← hcy, ← hcx, add_sub_cancel_left, add_sub_cancel_left]
      omega
    rw [if_pos hcontains, imagePixel, hplace] at hdrawn
    have hinside : InCanvas { c with pixels := buf, length_pixels := hbuf } cx cy := by
      unfold InCanvas
      dsimp only
      omega
    have hcell : ((cy : ℤ) * c.w + cx).toNat = cy * c.w + cx := by omega
    rw [hpixel, hcx, hcy]
    dsimp only
    rw [canvasPixel, if_pos hinside, hcell]
    exact hdrawn
  rw [← hdata, ← himgw, ← himgh]

/-- An image that is returned is not too large. -/
theorem getImageData_size {img : ImageData} (h : getImageData room cv r = some img) :
    r.ofImage.h * r.ofImage.w * 4 < 2 ^ 31 := by
  obtain ⟨o, hcreate, _⟩ := Option.bind_eq_some_iff.1 h
  have hw : 0 < r.ofImage.w := by
    show 0 < max r.w 1
    omega
  have hh : 0 < r.ofImage.h := by
    show 0 < max r.h 1
    omega
  change createImageData r.ofImage.w r.ofImage.h = some o at hcreate
  obtain ⟨w, hweq⟩ := Int.eq_ofNat_of_zero_le (Int.le_of_lt hw)
  obtain ⟨h, hheq⟩ := Int.eq_ofNat_of_zero_le (Int.le_of_lt hh)
  rw [hweq, hheq, createImageData_eq (by omega) (by omega)] at hcreate
  rw [hweq, hheq]
  split_ifs at hcreate with hsize
  exact_mod_cast hsize

/-- getImageData after putImageData, of an image that lies in the canvas. -/
theorem getImageData_putImageData_iff {src : Bytes} (hr : r.Ints)
    (hc : c ∈ ctx2dGetCanvasBuffer room cv) (h : r.Inside c)
    (hsrc : (src.length : ℤ) = r.h * r.w * 4) :
    (∃ cv', putImageData room cv src r = some cv' ∧
        getImageData room cv' r = some ⟨r.w, r.h, src⟩) ↔ ImageFits c r := by
  have hrows : (r.clipped c).y0 < (r.clipped c).y1 := by
    obtain ⟨_, hh, _, hy, _, hbottom⟩ := h
    rw [clipped_y0, clipped_y1]
    omega
  have hpositive : ¬ (r.w ≤ 0 ∨ r.h ≤ 0) := by
    have hw := h.1
    have hh := h.2.1
    omega
  have hput : putImageData room cv src r =
      ((r.clip c).bind fun k => k.eachRow (putRow c src r k) c.pixels).map fun pixels =>
        { cv with pixels := some pixels } := by
    unfold putImageData drawn
    rw [Option.mem_def.1 hc]
    dsimp only
    rw [if_neg hpositive]
  rw [hput]
  constructor
  · rintro ⟨cv', hcv, hget⟩
    have hsize := getImageData_size hget
    rw [h.ofImage] at hsize
    obtain ⟨buf, hbuf, _⟩ := Option.map_eq_some_iff.1 hcv
    have hfits := (fits_of_run (fun _ _ _ => putRow_length)
      (fun hsides hrows hfits _ hb => putRow_fails hr h.1 hsides hrows hfits hb) hbuf).2 hrows
    exact ⟨hsize, (putFits_iff h hsrc hsize).1 hfits⟩
  · rintro ⟨hsize, hstart⟩
    have hfits := (putFits_iff h hsrc hsize).2 hstart
    obtain ⟨buf, hbuf, hclipped⟩ :=
      (putImageData_draws_iff hr h.1).2 ⟨h.sides, fun _ => hfits⟩
    have hlength : buf.length = c.h * c.w * 4 := hclipped.1.trans c.length_pixels
    have hheld := ctx2dGetCanvasBuffer_drawn hc hlength
    have hget : GetFits (ctx2dGetCanvasBuffer room { cv with pixels := some buf }) r.ofImage := by
      rw [hheld, h.ofImage]
      refine ⟨hsize, fun d hd => ?_⟩
      obtain rfl := Option.some.inj hd
      exact PixelRect.Inside.rows (c := { c with pixels := buf, length_pixels := hlength }) h
    obtain ⟨img, himg, hshows⟩ := (getImageData_shows_iff hr).2 hget
    rw [hheld, h.ofImage] at hshows
    refine ⟨_, by rw [hbuf, Option.map_some], ?_⟩
    rw [himg, shows_put h hsrc hlength hclipped hshows]

end ImageData

/-! ## The row flip -/

/-- The bytes of a pixel in some format and type. -/
structure TexelSize where
  bytes : Nat
  bytes_pos : 0 < bytes
  deriving DecidableEq, Repr

/-- The flip reads inside every array of `len` bytes, and what is uploaded has the rows in
reverse. -/
def FlipReverses (w h : ℤ) (texel : TexelSize) (len : Nat) : Prop :=
  ∀ (junk : Nat → UInt8) (src : Bytes), src.length = len →
    ∃ out, flipped junk w h src = some out ∧ ∀ y < (max h 1).toNat,
      pixel ((max w 1).toNat * texel.bytes) out y =
        pixel ((max w 1).toNat * texel.bytes) src ((max h 1).toNat - 1 - y)

/-- There is one row, or a pixel has four bytes and the array all of them. -/
def FlipFits (w h : ℤ) (texel : TexelSize) (len : Nat) : Prop :=
  h ≤ 1 ∨ (texel.bytes = 4 ∧ (max h 1).toNat * (max w 1).toNat * 4 ≤ len)

variable {junk : Nat → UInt8} {w h : Nat} {src : Bytes}

theorem flipRows_painted {n : Nat} (hsrc : h * n ≤ src.length) :
    ∃ out, flipRows junk n h src = some out ∧
      Painted n (· < h) (fun p => pixel n src (h - 1 - p)) ((List.range (n * h)).map junk) out := by
  have hlength : ((List.range (n * h)).map junk).length = n * h := by
    rw [List.length_map, List.length_range]
  have hturn : ∀ y ∈ List.range h, ∀ b : Bytes, b.length = ((List.range (n * h)).map junk).length →
      ∃ c, (readRange src (y * n) n).bind (writeRange b ((h - 1 - y) * n)) = some c ∧
        Painted n (· = h - 1 - y) (fun p => pixel n src (h - 1 - p)) b c := by
    intro y hy b hb
    rw [List.mem_range] at hy
    have hrow : (y + 1) * n ≤ h * n := Nat.mul_le_mul_right n hy
    have hplace : (h - 1 - y + 1) * n ≤ h * n := Nat.mul_le_mul_right n (by omega)
    rw [Nat.succ_mul] at hrow hplace
    have hread : y * n + n ≤ src.length := by omega
    have hcells : ((src.drop (y * n)).take n).length = 1 * n := by
      rw [List.length_take, List.length_drop]
      omega
    have hwrite : (h - 1 - y) * n + 1 * n ≤ b.length := by
      rw [hb, hlength, Nat.mul_comm n h]
      omega
    obtain ⟨c, hc, hpaint⟩ := writeRange_painted hcells hwrite
    refine ⟨c, ?_, hpaint.congr (fun p => by omega) fun p hp => ?_⟩
    · rw [readRange_of_le hread]
      exact hc
    · obtain rfl : p = h - 1 - y := by omega
      have hback : h - 1 - (h - 1 - y) = y := by omega
      rw [Nat.sub_self, pixel_one (by omega), hback, pixel]
  obtain ⟨out, hout, hpaint⟩ := foldlM_painted hturn
  refine ⟨out, hout, hpaint.congr (fun p => ?_) fun _ _ => rfl⟩
  simp only [List.mem_range]
  constructor
  · rintro ⟨y, hy, rfl⟩
    omega
  · intro hp
    exact ⟨h - 1 - p, by omega, by omega⟩

/-- The last row is not in the array. -/
theorem flipRows_fails {n : Nat} (hh : 0 < h) (hsrc : src.length < h * n) :
    flipRows junk n h src = none := by
  refine foldlM_eq_none (fun y _ b c hc => ?_) ⟨h - 1, ?_, fun b _ => ?_⟩
  · obtain ⟨bytes, _, hwrite⟩ := Option.bind_eq_some_iff.1 hc
    exact writeRange_length hwrite
  · rw [List.mem_range]
    omega
  · have hlast : (h - 1) * n + n = h * n := by
      rw [← Nat.succ_mul, Nat.succ_eq_add_one, Nat.sub_add_cancel hh]
    rw [readRange_eq_none_iff.2 (by omega)]
    rfl

/-- Rows of more bytes than are copied are not reversed: the last one is too short. -/
theorem not_reversed_of_long {out : Bytes} {n m : Nat} (hn : 0 < n) (hlong : n < m) (hh : 1 < h)
    (hout : out.length = n * h) (hsrc : h * n ≤ src.length) :
    pixel m out (h - 1) ≠ pixel m src 0 := by
  intro heq
  have hlength := congrArg List.length heq
  have hlast : (h - 1) * m + m = h * m := by
    rw [← Nat.succ_mul, Nat.succ_eq_add_one, Nat.sub_add_cancel (by omega)]
  have hmore : h * n < h * m := Nat.mul_lt_mul_of_pos_left hlong (by omega)
  have hfirst : 1 * m ≤ (h - 1) * m := Nat.mul_le_mul_right m (by omega)
  have hsome : 0 < h * n := Nat.mul_pos (by omega) hn
  rw [Nat.mul_comm] at hout
  simp only [pixel, List.length_take, List.length_drop] at hlength
  omega

/-- Nor are rows of fewer: a mark in the last row that is copied is not at its place. -/
theorem not_reversed_of_short {n m len : Nat} (hshort : m < n) (hm : 0 < m) (hh : 1 < h)
    (hlen : h * n ≤ len) : ∃ src : Bytes, src.length = len ∧
      ∀ out : Bytes, pixel n out 0 = pixel n src (h - 1) → pixel m out 0 ≠ pixel m src (h - 1) := by
  refine ⟨(List.range len).map fun i => if i = (h - 1) * n then 1 else 0, by simp, ?_⟩
  intro out hout heq
  have hmark : (h - 1) * m < (h - 1) * n := Nat.mul_lt_mul_of_pos_left hshort (by omega)
  have hlast : (h - 1) * n < h * n := Nat.mul_lt_mul_of_pos_right (by omega) (by omega)
  have hone := congrArg (·[0]?) hout
  have hzero := congrArg (·[0]?) heq
  simp only [getElem?_pixel, if_pos hm, if_pos (hm.trans hshort), Nat.zero_mul, Nat.add_zero,
    List.getElem?_map, List.getElem?_range (hlast.trans_le hlen),
    List.getElem?_range (hmark.trans (hlast.trans_le hlen)), Option.map_some, if_pos,
    if_neg (Nat.ne_of_lt hmark)] at hone hzero
  rw [hone] at hzero
  exact absurd (Option.some.inj hzero) (by decide)

/-- A texture of more than one row: four bytes for each pixel, and all of them in the array. -/
theorem flipRows_reverses_iff {w h len : Nat} (hw : 0 < w) (hh : 1 < h) (texel : TexelSize) :
    (∀ (junk : Nat → UInt8) (src : Bytes), src.length = len →
        ∃ out, flipRows junk (w * 4) h src = some out ∧
          ∀ y < h, pixel (w * texel.bytes) out y = pixel (w * texel.bytes) src (h - 1 - y)) ↔
      texel.bytes = 4 ∧ h * w * 4 ≤ len := by
  have hrow : 0 < w * texel.bytes := Nat.mul_pos hw texel.bytes_pos
  rw [Nat.mul_assoc]
  constructor
  · intro hrev
    have hlen : h * (w * 4) ≤ len := by
      by_contra hshort
      obtain ⟨out, hout, _⟩ := hrev (fun _ => 0) (List.replicate len 0) List.length_replicate
      rw [flipRows_fails (by omega) (by rw [List.length_replicate]; omega)] at hout
      exact absurd hout nofun
    refine ⟨?_, hlen⟩
    rcases Nat.lt_trichotomy texel.bytes 4 with hless | hfour | hmore
    · have hshort : w * texel.bytes < w * 4 := Nat.mul_lt_mul_of_pos_left hless hw
      obtain ⟨src, hsrc, hnot⟩ := not_reversed_of_short hshort hrow hh hlen
      obtain ⟨out, hout, hrows⟩ := hrev (fun _ => 0) src hsrc
      obtain ⟨out', hout', hpaint⟩ := flipRows_painted (hlen.trans_eq hsrc.symm)
      obtain rfl : out' = out := Option.some.inj (hout'.symm.trans hout)
      exact absurd (hrows 0 (by omega)) (hnot out' (hpaint.inside 0 (by omega)))
    · exact hfour
    · have hlong : w * 4 < w * texel.bytes := Nat.mul_lt_mul_of_pos_left hmore hw
      have hsrc : (List.replicate len (0 : UInt8)).length = len := List.length_replicate
      obtain ⟨out, hout, hrows⟩ := hrev (fun _ => 0) (List.replicate len 0) hsrc
      obtain ⟨out', hout', hpaint⟩ := flipRows_painted (hlen.trans_eq hsrc.symm)
      obtain rfl : out' = out := Option.some.inj (hout'.symm.trans hout)
      have hlength : out'.length = w * 4 * h := by
        rw [hpaint.length, List.length_map, List.length_range]
      have hlast := hrows (h - 1) (by omega)
      rw [Nat.sub_self] at hlast
      exact absurd hlast
        (not_reversed_of_long (by omega) hlong hh hlength (hlen.trans_eq hsrc.symm))
  · rintro ⟨hfour, hlen⟩ junk src hsrc
    obtain ⟨out, hout, hpaint⟩ := flipRows_painted (hlen.trans_eq hsrc.symm)
    rw [hfour]
    exact ⟨out, hout, fun y hy => hpaint.inside y hy⟩

theorem flipReverses_iff (w h : ℤ) (texel : TexelSize) (len : Nat) :
    FlipReverses w h texel len ↔ FlipFits w h texel len := by
  unfold FlipReverses FlipFits
  by_cases hh : h ≤ 1
  · refine iff_of_true (fun junk src _ => ⟨src, if_neg (by omega), fun y hy => ?_⟩) (Or.inl hh)
    obtain rfl : y = 0 := by omega
    have hfirst : (max h 1).toNat - 1 - 0 = 0 := by omega
    rw [hfirst]
  · have hrun : ∀ junk src, flipped junk w h src =
        flipRows junk ((max w 1).toNat * 4) (max h 1).toNat src := fun junk src =>
      if_pos (by omega)
    simp only [hrun]
    rw [flipRows_reverses_iff (by omega) (by omega), or_iff_right hh]

/-! ## Calls -/

/-- The rectangle of a call. -/
def rectOf (x y w h : Int32) : PixelRect := ⟨x.toInt, y.toInt, w.toInt, h.toInt⟩

theorem rectOf_ints (x y w h : Int32) : (rectOf x y w h).Ints :=
  ⟨⟨x.le_toInt, x.toInt_lt⟩, ⟨y.le_toInt, y.toInt_lt⟩, ⟨w.le_toInt, w.toInt_lt⟩,
    ⟨h.le_toInt, h.toInt_lt⟩⟩

/-- A call with its coordinates, on an element `cv`; a flip is of an array of `len` bytes. -/
inductive PixelCall where
  | clearRect (cv : CanvasElement) (x y w h : Int32)
  | fillRect (cv : CanvasElement) (color : OpaqueColor) (x y w h : Int32)
  | putImageData (cv : CanvasElement) (src : Bytes) (dx dy sw sh : Int32)
  | getImageData (cv : CanvasElement) (sx sy sw sh : Int32)
  /-- `getImageData` after `putImageData` -/
  | putAndGet (cv : CanvasElement) (src : Bytes) (dx dy sw sh : Int32)
  | flip (w h : Int32) (texel : TexelSize) (len : Nat)

/-- The call is a clipped copy. -/
def PixelCall.Copies (room : Nat → Bool) : PixelCall → Prop
  | .clearRect cv x y w h =>
      DrawsOn room cv (rectOf x y w h) (fun _ _ => [0, 0, 0, 0])
        (Canvas.clearRect room cv (rectOf x y w h))
  | .fillRect cv color x y w h =>
      DrawsOn room cv (rectOf x y w h) (fun _ _ => color.bytes)
        (Canvas.fillRect room cv color (rectOf x y w h))
  | .putImageData cv src dx dy sw sh =>
      DrawsOn room cv (rectOf dx dy sw sh) (imagePixel src (rectOf dx dy sw sh))
        (Canvas.putImageData room cv src (rectOf dx dy sw sh))
  | .getImageData cv sx sy sw sh =>
      ∃ img, Canvas.getImageData room cv (rectOf sx sy sw sh) = some img ∧
        Shows (ctx2dGetCanvasBuffer room cv) (rectOf sx sy sw sh).ofImage img
  | .putAndGet cv src dx dy sw sh =>
      ∀ c ∈ ctx2dGetCanvasBuffer room cv, (rectOf dx dy sw sh).Inside c →
        (src.length : ℤ) = sh.toInt * sw.toInt * 4 →
          ∃ cv', Canvas.putImageData room cv src (rectOf dx dy sw sh) = some cv' ∧
            Canvas.getImageData room cv' (rectOf dx dy sw sh) = some ⟨sw.toInt, sh.toInt, src⟩
  | .flip w h texel len => FlipReverses w.toInt h.toInt texel len

/-- A rectangle with its far sides in an `int`, where each row that is in the canvas fits. -/
def RectFits (room : Nat → Bool) (cv : CanvasElement) (r : PixelRect)
    (fits : CanvasBuffer → Bounds → Prop) : Prop :=
  ∀ c ∈ ctx2dGetCanvasBuffer room cv,
    r.SidesFit ∧ ((r.clipped c).y0 < (r.clipped c).y1 → fits c (r.clipped c))

/-- What a call must meet. -/
def PixelCall.Fits (room : Nat → Bool) : PixelCall → Prop
  | .clearRect cv x y w h => RectFits room cv (rectOf x y w h) ClearFits
  | .fillRect cv _ x y w h =>
      RectFits room cv (rectOf x y w h) fun c k => StartFits c k (k.y1 - 1)
  | .putImageData cv src dx dy sw sh =>
      0 < sw.toInt → 0 < sh.toInt →
        RectFits room cv (rectOf dx dy sw sh) fun c k => PutFits c (rectOf dx dy sw sh) src k
  | .getImageData cv sx sy sw sh =>
      GetFits (ctx2dGetCanvasBuffer room cv) (rectOf sx sy sw sh).ofImage
  | .putAndGet cv src dx dy sw sh =>
      ∀ c ∈ ctx2dGetCanvasBuffer room cv, (rectOf dx dy sw sh).Inside c →
        (src.length : ℤ) = sh.toInt * sw.toInt * 4 → ImageFits c (rectOf dx dy sw sh)
  | .flip w h texel len => FlipFits w.toInt h.toInt texel len

variable {room : Nat → Bool} {cv : CanvasElement} {r : PixelRect}

/-- An image without pixels leaves everything as it was. -/
theorem draws_empty {c : CanvasBuffer} {new : Nat → Nat → Bytes} (h : r.w ≤ 0 ∨ r.h ≤ 0) :
    Draws c r new (some c.pixels) := by
  refine ⟨c.pixels, rfl, rfl, fun x _ y _ => ?_⟩
  have hnot : ¬ r.Contains x y := by
    unfold PixelRect.Contains
    omega
  rw [if_neg hnot]

theorem putImageData_drawsOn_iff {src : Bytes} (hr : r.Ints) :
    DrawsOn room cv r (imagePixel src r) (putImageData room cv src r) ↔
      (0 < r.w → 0 < r.h → RectFits room cv r fun c k => PutFits c r src k) := by
  unfold putImageData
  rw [drawn_iff]
  by_cases hempty : r.w ≤ 0 ∨ r.h ≤ 0
  · refine iff_of_true (fun c _ => ?_) fun hw hh => by omega
    rw [if_pos hempty]
    exact draws_empty hempty
  · rw [imp_iff_right (by omega), imp_iff_right (by omega)]
    refine forall₂_congr fun c _ => ?_
    rw [if_neg hempty, putImageData_draws_iff hr (by omega)]

/-- A pixel operation is a clipped copy exactly where its computations fit: the far sides of the
rectangle and the places of its rows are `int`s, a rectangle is not wholly to one side of the canvas
where it is cleared or put, the array has the rows of the image, and a flipped pixel has four
bytes. -/
theorem PixelCall.copies_iff (room : Nat → Bool) (call : PixelCall) :
    call.Copies room ↔ call.Fits room := by
  cases call with
  | clearRect cv x y w h =>
    exact drawn_iff.trans (forall₂_congr fun c _ => clearRect_draws_iff (rectOf_ints x y w h))
  | fillRect cv color x y w h =>
    exact drawn_iff.trans (forall₂_congr fun c _ => fillRect_draws_iff)
  | putImageData cv src dx dy sw sh => exact putImageData_drawsOn_iff (rectOf_ints dx dy sw sh)
  | getImageData cv sx sy sw sh => exact getImageData_shows_iff (rectOf_ints sx sy sw sh)
  | putAndGet cv src dx dy sw sh =>
    exact forall₄_congr fun c hc hinside hsrc =>
      getImageData_putImageData_iff (rectOf_ints dx dy sw sh) hc hinside hsrc
  | flip w h texel len => exact flipReverses_iff w.toInt h.toInt texel len

/-- A rectangle beside the canvas is cleared, a pixel is put from an empty array, and two rows of
one pixel with three bytes are flipped. -/
theorem calls_not_copies :
    ¬ (PixelCall.clearRect ⟨1, 1, none⟩ (-5) 0 2 1).Copies (fun _ => true) ∧
      ¬ (PixelCall.putImageData ⟨1, 1, none⟩ [] 0 0 1 1).Copies (fun _ => true) ∧
        ¬ (PixelCall.flip 1 2 ⟨3, by decide⟩ 6).Copies (fun _ => true) := by
  have hclear : clearRect (fun _ => true) ⟨1, 1, none⟩ (rectOf (-5) 0 2 1) = none := by
    decide
  have hput : putImageData (fun _ => true) ⟨1, 1, none⟩ [] (rectOf 0 0 1 1) = none := by
    decide
  have hflip : flipped (fun _ => 0) 1 2 [1, 2, 3, 4, 5, 6] = none := by decide
  refine ⟨?_, ?_, fun hreverses => ?_⟩
  · rintro ⟨_, hrun, _⟩
    exact absurd (hclear.symm.trans hrun) nofun
  · rintro ⟨_, hrun, _⟩
    exact absurd (hput.symm.trans hrun) nofun
  · obtain ⟨_, hrun, _⟩ := hreverses (fun _ => 0) [1, 2, 3, 4, 5, 6] rfl
    exact absurd (hflip.symm.trans hrun) nofun

end TinyFramework.Canvas
