/-
  Render/GlyphCache.lean --- the cache of glyphs.

  A glyph is searched in the fonts in their order, and what was found is kept in an
  open-addressing table together with its cell of the atlas; that there is no bitmap is kept
  too.  When the atlas or the table is full both start again.  `stb_truetype` is whatever
  gives indices, bitmaps and metrics; font sizes and metrics are exact.

  Every cached glyph looks as a search of the fonts would have it, and its cell lies behind
  the cursor of the atlas; a new cell goes to the cursor.  A font that is added at the end
  changes nothing for a glyph that has a bitmap already.
-/
import TinyFramework.Foundation.Packing
import TinyFramework.Foundation.ProbeTable
import TinyFramework.Render.GradientCache

set_option autoImplicit false

namespace TinyFramework.Render

open TinyFramework.Foundation

/-! ## The fonts -/

/-- What `stbtt_GetCodepointBitmap` returns. -/
structure GlyphBitmap where
  w : Nat
  h : Nat
  xoff : Int
  yoff : Int
  deriving DecidableEq, Repr

/-- `stb_truetype`, of fonts of some type. -/
structure TrueType (F : Type) where
  findGlyphIndex : F → UInt32 → Int
  scaleForPixelHeight : F → ℚ → ℚ
  codepointBitmap : F → ℚ → UInt32 → Option GlyphBitmap
  codepointAdvance : F → UInt32 → Int

/-- `TT_SIZE_BUCKETS` -/
def ttSizeBuckets : Nat := 64

/-- `TT_GLYPH_CAP` -/
def ttGlyphCap : Nat := 2048

/-- `TT_ATLAS_PAD` -/
def ttAtlasPad : Int := 1

/-- `MINI_MAX_FONTS` -/
def miniMaxFonts : Nat := 8

def atlasW : Int := 2048

def atlasH : Int := 2048

/-- `FONT_ADV` -/
def fontAdv (fs : ℚ) : ℚ := 9 / 2 * (fs / (15 / 2))

/-- `tt_size_bucket` -/
def ttSizeBucket (fontSize : ℚ) : Nat :=
  let b := truncate (fontSize * 2 + 1 / 2)
  if b < 1 then 1 else if (ttSizeBuckets * 64 : Nat) < b then ttSizeBuckets * 64 else b.toNat

/-- `tt_bucket_to_size` -/
def ttBucketToSize (bucket : Nat) : ℚ := bucket / 2

/-! ## The cache -/

/-- `TtGlyph`, in a slot that is in use. -/
structure TtGlyph where
  cp : UInt32
  sizeBucket : Nat
  atlasX : Int
  atlasY : Int
  gw : Int
  gh : Int
  xoff : Int
  yoff : Int
  advance : ℚ
  deriving DecidableEq, Repr

/-- The fields of the renderer that the cache uses; `fonts` are those below `num_fonts`, which
are all loaded. -/
structure GlyphRenderer (F : Type) where
  fonts : List F := []
  ttfLoaded : Bool := false
  ttCache : ProbeTable TtGlyph := ProbeTable.empty
  ttAtlas : Shelf := {}

/-- The conversion to `int16_t`. -/
def toInt16 (n : Int) : Int := n.bmod 65536

/-- The slots in the order of the probe. -/
def glyphSlots (cp : UInt32) (bucket : Nat) : List Nat :=
  let hash := ((cp * 2654435761) ^^^ UInt32.ofNat (bucket * 1013)) &&& UInt32.ofNat (ttGlyphCap - 1)
  ProbeTable.chain ttGlyphCap hash.toNat ttGlyphCap

def isGlyph (cp : UInt32) (bucket : Nat) (g : TtGlyph) : Bool :=
  g.cp == cp && g.sizeBucket == bucket

section Source

variable {F : Type} (tt : TrueType F)

/-- A font of the loop over the fonts. -/
def TrueType.tryFont (cp : UInt32) (fs : ℚ) (info : F) : Option (F × GlyphBitmap) :=
  if 0 < tt.findGlyphIndex info cp then
    let s := tt.scaleForPixelHeight info fs
    if 0 < s then (tt.codepointBitmap info s cp).map fun bmp => (info, bmp) else none
  else none

/-- The search through all loaded fonts in fallback order. -/
def TrueType.search (fonts : List F) (cp : UInt32) (fs : ℚ) : Option (F × GlyphBitmap) :=
  fonts.findSome? (tt.tryFont cp fs)

/-- The advance of the chosen font. -/
def TrueType.glyphAdvance (chosen : Option F) (cp : UInt32) (fs : ℚ) : ℚ :=
  match chosen with
  | none => fontAdv fs
  | some info =>
      let scale := tt.scaleForPixelHeight info fs
      let advance := tt.codepointAdvance info cp
      if 0 < scale ∧ 0 < advance then scale * advance else fontAdv fs

/-- A shelf for a cell of a width: the next one when this one has no room for it. -/
def shelfFor (c : Shelf) (cellW : Int) : Shelf :=
  if atlasW < c.x + cellW then c.below ttAtlasPad else c

/-- The slot of a new glyph and the cache and the shelf it goes to; they are cleared when
there is no slot or no room. -/
def GlyphRenderer.makeRoom (r : GlyphRenderer F) (firstEmpty : Option Nat) (home : Nat)
    (cellW cellH : Int) : Nat × ProbeTable TtGlyph × Shelf :=
  let shelf := shelfFor r.ttAtlas cellW
  match firstEmpty with
  | none => (home, ProbeTable.empty, {})
  | some i => if atlasH < shelf.y + cellH then (home, ProbeTable.empty, {}) else (i, r.ttCache, shelf)

/-- `tt_get_glyph` -/
def ttGetGlyph (r : GlyphRenderer F) (cp : UInt32) (fontSize : ℚ) :
    Option TtGlyph × GlyphRenderer F :=
  if r.ttfLoaded = false ∨ r.fonts = [] then (none, r)
  else
    let bucket := ttSizeBucket fontSize
    let slots := glyphSlots cp bucket
    match r.ttCache.lookup (isGlyph cp bucket) slots with
    | some g => (some g, r)
    | none =>
        let fs := ttBucketToSize bucket
        let firstEmpty := r.ttCache.claim (fun _ => false) slots
        match tt.search r.fonts cp fs with
        | none =>
            match firstEmpty with
            | none => (none, r)
            | some i =>
                let g : TtGlyph :=
                  { cp := cp, sizeBucket := bucket, atlasX := 0, atlasY := 0, gw := 0, gh := 0
                    xoff := 0, yoff := 0, advance := tt.glyphAdvance r.fonts.head? cp fs }
                (some g, { r with ttCache := r.ttCache.store i g })
        | some (info, bmp) =>
            let cellW := (bmp.w : Int) + ttAtlasPad * 2
            let cellH := (bmp.h : Int) + ttAtlasPad * 2
            let (i, cache, shelf) := r.makeRoom firstEmpty (slots.headD 0) cellW cellH
            let g : TtGlyph :=
              { cp := cp
                sizeBucket := bucket
                atlasX := toInt16 (shelf.x + ttAtlasPad)
                atlasY := toInt16 (shelf.y + ttAtlasPad)
                gw := toInt16 bmp.w
                gh := toInt16 bmp.h
                xoff := toInt16 bmp.xoff
                yoff := toInt16 bmp.yoff
                advance := tt.glyphAdvance (some info) cp fs }
            (some g, { r with ttCache := cache.store i g, ttAtlas := shelf.past cellW cellH })

/-- `mini_renderer_load_font`, with the font in the file if there is one. -/
def miniRendererLoadFont (r : GlyphRenderer F) (font : Option F) : GlyphRenderer F :=
  match font with
  | none => r
  | some info =>
      { fonts := info :: r.fonts.tail, ttfLoaded := true, ttCache := ProbeTable.empty
        ttAtlas := {} }

/-- `mini_renderer_load_fallback_font` -/
def miniRendererLoadFallbackFont (r : GlyphRenderer F) (font : Option F) : GlyphRenderer F :=
  match font with
  | none => r
  | some info => if miniMaxFonts ≤ r.fonts.length then r else { r with fonts := r.fonts ++ [info] }

/-- `mini_renderer_add_font_data` -/
def miniRendererAddFontData (r : GlyphRenderer F) (font : Option F) : GlyphRenderer F :=
  miniRendererLoadFallbackFont r font

inductive GlyphOp (F : Type) where
  | getGlyph (cp : UInt32) (fontSize : ℚ)
  | loadFont (font : Option F)
  | loadFallbackFont (font : Option F)
  | addFontData (font : Option F)

def GlyphRenderer.step (r : GlyphRenderer F) : GlyphOp F → GlyphRenderer F
  | .getGlyph cp fontSize => (ttGetGlyph tt r cp fontSize).2
  | .loadFont font => miniRendererLoadFont r font
  | .loadFallbackFont font => miniRendererLoadFallbackFont r font
  | .addFontData font => miniRendererAddFontData r font

/-- The renderer after some calls. -/
def glyphRun (ops : List (GlyphOp F)) : GlyphRenderer F :=
  ops.foldl (GlyphRenderer.step tt) {}

/-- The part of the atlas that `mini_atlas_blit_glyph` writes. -/
def miniAtlasBlitGlyph (dst : PixelRect) : Option PixelRect :=
  let x := if dst.x < 0 then 0 else dst.x
  let y := if dst.y < 0 then 0 else dst.y
  let w := if dst.x < 0 then dst.w + dst.x else dst.w
  let h := if dst.y < 0 then dst.h + dst.y else dst.h
  let cw := if atlasW < x + w then atlasW - x else w
  let ch := if atlasH < y + h then atlasH - y else h
  if dst.w ≤ 0 ∨ dst.h ≤ 0 ∨ cw ≤ 0 ∨ ch ≤ 0 then none
  else some { x := x, y := y, w := cw, h := ch }

end Source

/-! ## What the cache is for -/

section Spec

variable {F : Type} (tt : TrueType F)

/-- The cell of the atlas. -/
def TtGlyph.cell (g : TtGlyph) : PixelRect := { x := g.atlasX, y := g.atlasY, w := g.gw, h := g.gh }

/-- The glyph has pixels. -/
def TtGlyph.HasPixels (g : TtGlyph) : Prop := 0 < g.gw ∧ 0 < g.gh

/-- The size and the advance of a glyph. -/
structure GlyphLook where
  w : Int
  h : Int
  advance : ℚ
  deriving DecidableEq, Repr

def TtGlyph.look (g : TtGlyph) : GlyphLook := { w := g.gw, h := g.gh, advance := g.advance }

/-- What a search of the fonts gives: the bitmap of the first font that has one, or none with
the advance in the first font. -/
def TrueType.freshLook (fonts : List F) (cp : UInt32) (bucket : Nat) : GlyphLook :=
  let fs := ttBucketToSize bucket
  match tt.search fonts cp fs with
  | none => { w := 0, h := 0, advance := tt.glyphAdvance fonts.head? cp fs }
  | some (info, bmp) => { w := bmp.w, h := bmp.h, advance := tt.glyphAdvance (some info) cp fs }

/-- The cells of glyphs with pixels are inside the atlas, and apart from one another. -/
structure CellsRight (r : GlyphRenderer F) : Prop where
  inside : ∀ i g, r.ttCache i = some g → g.HasPixels → g.cell.Within atlasW atlasH
  apart : ∀ i j g g', i ≠ j → r.ttCache i = some g → r.ttCache j = some g' →
    g.HasPixels → g'.HasPixels → g.cell.Apart g'.cell

/-- The glyph that is returned is the one that was asked for, as a search gives it. -/
def GlyphRight (r : GlyphRenderer F) (cp : UInt32) (fontSize : ℚ) : Prop :=
  ∃ g, (ttGetGlyph tt r cp fontSize).1 = some g ∧
    (g.cp = cp ∧ g.sizeBucket = ttSizeBucket fontSize) ∧
    g.look = tt.freshLook r.fonts cp (ttSizeBucket fontSize)

end Spec

/-! ## Where the cache keeps to it -/

section Safe

variable {F : Type} (tt : TrueType F)

/-- A bitmap with pixels is smaller than the atlas; any other one has a size for `int16_t`. -/
def GlyphBitmap.Fits (bmp : GlyphBitmap) : Prop :=
  if 0 < bmp.w ∧ 0 < bmp.h then (bmp.w : Int) < atlasW ∧ (bmp.h : Int) < atlasH
  else bmp.w < 32768 ∧ bmp.h < 32768

instance (bmp : GlyphBitmap) : Decidable bmp.Fits :=
  inferInstanceAs (Decidable (if 0 < bmp.w ∧ 0 < bmp.h then
    (bmp.w : Int) < atlasW ∧ (bmp.h : Int) < atlasH else bmp.w < 32768 ∧ bmp.h < 32768))

/-- A glyph that is not cached has a bitmap that fits, or none while the table has a slot. -/
def SafeGlyph (r : GlyphRenderer F) (cp : UInt32) (fontSize : ℚ) : Prop :=
  let bucket := ttSizeBucket fontSize
  let slots := glyphSlots cp bucket
  r.ttCache.lookup (isGlyph cp bucket) slots = none →
    match tt.search r.fonts cp (ttBucketToSize bucket) with
    | none => r.ttCache.claim (fun _ => false) slots ≠ none
    | some (_, bmp) => bmp.Fits

/-- No glyph that is cached without a bitmap has one in the font that is added. -/
def SafeAdd (r : GlyphRenderer F) (font : Option F) : Prop :=
  ∀ info ∈ font, ∀ i g, r.ttCache i = some g →
    tt.search r.fonts g.cp (ttBucketToSize g.sizeBucket) = none →
    tt.tryFont g.cp (ttBucketToSize g.sizeBucket) info = none

def SafeGlyphOp (r : GlyphRenderer F) : GlyphOp F → Prop
  | .getGlyph cp fontSize => r.ttfLoaded = true → SafeGlyph tt r cp fontSize
  | .loadFont _ => True
  | .loadFallbackFont font => SafeAdd tt r font
  | .addFontData font => SafeAdd tt r font

/-- Every call is safe in the state it meets. -/
def SafeGlyphOps : GlyphRenderer F → List (GlyphOp F) → Prop
  | _, [] => True
  | r, op :: ops => SafeGlyphOp tt r op ∧ SafeGlyphOps (r.step tt op) ops

end Safe

/-! ## The glyph cache stays coherent -/

variable {F : Type} {tt : TrueType F}

/-! ## The search -/

theorem toInt16_eq {n : Int} (hlow : 0 ≤ n) (hhigh : n < 32768) : toInt16 n = n := by
  unfold toInt16
  rw [Int.bmod_def]
  split <;> omega

theorem GlyphBitmap.Fits.toInt16_eq {bmp : GlyphBitmap} (hfits : bmp.Fits) :
    toInt16 bmp.w = bmp.w ∧ toInt16 bmp.h = bmp.h := by
  have hsmall : bmp.w < 32768 ∧ bmp.h < 32768 := by
    unfold GlyphBitmap.Fits at hfits
    split at hfits
    · unfold atlasW atlasH at hfits
      omega
    · exact hfits
  refine ⟨Render.toInt16_eq ?_ ?_, Render.toInt16_eq ?_ ?_⟩ <;> omega

theorem search_append (fonts : List F) (info : F) (cp : UInt32) (fs : ℚ) :
    tt.search (fonts ++ [info]) cp fs = (tt.search fonts cp fs).or (tt.tryFont cp fs info) := by
  unfold TrueType.search
  rw [List.findSome?_append, List.findSome?_cons, List.findSome?_nil]
  congr 1
  cases tt.tryFont cp fs info with
  | none => rfl
  | some found => rfl

theorem freshLook_append {fonts : List F} {info : F} {cp : UInt32} {bucket : Nat}
    (hfonts : fonts ≠ [])
    (hsafe : tt.search fonts cp (ttBucketToSize bucket) = none →
      tt.tryFont cp (ttBucketToSize bucket) info = none) :
    tt.freshLook (fonts ++ [info]) cp bucket = tt.freshLook fonts cp bucket := by
  have hhead : (fonts ++ [info]).head? = fonts.head? := by
    rw [List.head?_append]
    cases fonts with
    | nil => exact absurd rfl hfonts
    | cons first fonts => rfl
  unfold TrueType.freshLook
  dsimp only
  rw [search_append, hhead]
  cases hsearch : tt.search fonts cp (ttBucketToSize bucket) with
  | some found => rfl
  | none =>
      rw [hsafe hsearch]
      rfl

/-! ## The invariant -/

def CellsApart (g g' : TtGlyph) : Prop :=
  g.HasPixels → g'.HasPixels → g.cell.Apart g'.cell

theorem CellsApart.symm (g g' : TtGlyph) (h : CellsApart g g') : CellsApart g' g :=
  fun hg' hg => (h hg hg').symm

/-- The cached glyphs, against the fonts and the cursor. -/
structure Coherent (tt : TrueType F) (r : GlyphRenderer F) : Prop where
  loaded : r.ttfLoaded = true → r.fonts ≠ []
  look : ProbeTable.Holds
    (fun g => r.fonts ≠ [] ∧ g.look = tt.freshLook r.fonts g.cp g.sizeBucket) r.ttCache
  inside : ProbeTable.Holds (fun g => g.HasPixels → g.cell.Within atlasW atlasH) r.ttCache
  behind : ProbeTable.Holds (fun g => g.HasPixels → Shelf.Behind g.cell r.ttAtlas) r.ttCache
  apart : ProbeTable.Pairwise CellsApart r.ttCache
  shelf : r.ttAtlas.Sound

theorem Coherent.cellsRight {r : GlyphRenderer F} (hr : Coherent tt r) : CellsRight r :=
  ⟨hr.inside, hr.apart⟩

/-- A renderer without glyphs. -/
theorem coherent_of_empty {r : GlyphRenderer F} (hloaded : r.ttfLoaded = true → r.fonts ≠ [])
    (hcache : r.ttCache = ProbeTable.empty) (hshelf : r.ttAtlas = {}) : Coherent tt r := by
  refine ⟨hloaded, ?_, ?_, ?_, ?_, ?_⟩
  · rw [hcache]
    exact ProbeTable.holds_empty
  · rw [hcache]
    exact ProbeTable.holds_empty
  · rw [hcache]
    exact ProbeTable.holds_empty
  · rw [hcache]
    exact ProbeTable.pairwise_empty
  · rw [hshelf]
    exact Shelf.sound_start

/-! ## Room for a cell -/

/-- What `makeRoom` leaves: some of the glyphs, all behind the shelf, and a shelf where the cell
fits or that is at the border. -/
structure Room (r : GlyphRenderer F) (cellW cellH : Int) (cache : ProbeTable TtGlyph)
    (shelf : Shelf) : Prop where
  kept : cache = r.ttCache ∨ cache = ProbeTable.empty
  behind : ProbeTable.Holds (fun g => g.HasPixels → Shelf.Behind g.cell shelf) cache
  sound : shelf.Sound
  width : shelf.x + cellW ≤ atlasW ∨ shelf.x = 0
  height : shelf.y + cellH ≤ atlasH ∨ shelf.y = 0

theorem room_cleared (r : GlyphRenderer F) (cellW cellH : Int) :
    Room r cellW cellH ProbeTable.empty {} :=
  ⟨.inr rfl, ProbeTable.holds_empty, Shelf.sound_start, .inr rfl, .inr rfl⟩

theorem room_shelfFor {r : GlyphRenderer F} (hr : Coherent tt r) {cellW cellH : Int}
    (hroom : (shelfFor r.ttAtlas cellW).y + cellH ≤ atlasH) :
    Room r cellW cellH r.ttCache (shelfFor r.ttAtlas cellW) := by
  have hpad : 0 ≤ ttAtlasPad := Int.one_nonneg
  unfold shelfFor at hroom ⊢
  by_cases hfull : atlasW < r.ttAtlas.x + cellW
  · rw [if_pos hfull] at hroom ⊢
    exact ⟨.inl rfl, hr.behind.imp fun g hg hpix => (hg hpix).below hr.shelf hpad,
      hr.shelf.below hpad, .inr rfl, .inl hroom⟩
  · rw [if_neg hfull] at hroom ⊢
    exact ⟨.inl rfl, hr.behind, hr.shelf, .inl (Int.not_lt.1 hfull), .inl hroom⟩

theorem Coherent.room {r : GlyphRenderer F} (hr : Coherent tt r) (firstEmpty : Option Nat)
    (home : Nat) (cellW cellH : Int) :
    Room r cellW cellH (r.makeRoom firstEmpty home cellW cellH).2.1
      (r.makeRoom firstEmpty home cellW cellH).2.2 := by
  unfold GlyphRenderer.makeRoom
  dsimp only
  cases firstEmpty with
  | none => exact room_cleared r cellW cellH
  | some i =>
      dsimp only
      by_cases hfull : atlasH < (shelfFor r.ttAtlas cellW).y + cellH
      · rw [if_pos hfull]
        exact room_cleared r cellW cellH
      · rw [if_neg hfull]
        exact room_shelfFor hr (Int.not_lt.1 hfull)

theorem Room.holds {r : GlyphRenderer F} {cellW cellH : Int} {cache : ProbeTable TtGlyph}
    {shelf : Shelf} (hroom : Room r cellW cellH cache shelf) {P : TtGlyph → Prop}
    (hP : ProbeTable.Holds P r.ttCache) : ProbeTable.Holds P cache := by
  rcases hroom.kept with hkept | hkept
  · rw [hkept]
    exact hP
  · rw [hkept]
    exact ProbeTable.holds_empty

theorem Room.pairwise {r : GlyphRenderer F} {cellW cellH : Int} {cache : ProbeTable TtGlyph}
    {shelf : Shelf} (hroom : Room r cellW cellH cache shelf) {R : TtGlyph → TtGlyph → Prop}
    (hR : ProbeTable.Pairwise R r.ttCache) : ProbeTable.Pairwise R cache := by
  rcases hroom.kept with hkept | hkept
  · rw [hkept]
    exact hR
  · rw [hkept]
    exact ProbeTable.pairwise_empty

/-- A glyph that is put at the shelf. -/
theorem Coherent.place {r : GlyphRenderer F} (hr : Coherent tt r) {bmp : GlyphBitmap}
    (hfits : bmp.Fits) {cache : ProbeTable TtGlyph} {shelf : Shelf}
    (hroom : Room r (bmp.w + ttAtlasPad * 2) (bmp.h + ttAtlasPad * 2) cache shelf) (i : Nat)
    {g : TtGlyph} (hfonts : r.fonts ≠ [])
    (hlook : g.look = tt.freshLook r.fonts g.cp g.sizeBucket)
    (hcell : g.cell = {
      x := toInt16 (shelf.x + ttAtlasPad), y := toInt16 (shelf.y + ttAtlasPad)
      w := bmp.w, h := bmp.h }) :
    Coherent tt { r with
      ttCache := cache.store i g
      ttAtlas := shelf.past (bmp.w + ttAtlasPad * 2) (bmp.h + ttAtlasPad * 2) } := by
  have hsound := hroom.sound
  have hx := hsound.x
  have hy := hsound.y
  have hw : 0 ≤ (bmp.w : Int) + ttAtlasPad * 2 := by
    unfold ttAtlasPad
    omega
  -- a glyph with pixels is at the shelf
  have hplaced : g.HasPixels →
      g.cell = { x := shelf.x + ttAtlasPad, y := shelf.y + ttAtlasPad, w := bmp.w, h := bmp.h } ∧
        g.cell.Within atlasW atlasH := by
    intro hpix
    have hgw : g.gw = bmp.w := congrArg PixelRect.w hcell
    have hgh : g.gh = bmp.h := congrArg PixelRect.h hcell
    unfold TtGlyph.HasPixels at hpix
    rw [hgw, hgh] at hpix
    unfold GlyphBitmap.Fits at hfits
    rw [if_pos ⟨Int.natCast_pos.1 hpix.1, Int.natCast_pos.1 hpix.2⟩] at hfits
    have hwidth := hroom.width
    have hheight := hroom.height
    rw [hcell]
    unfold ttAtlasPad atlasW atlasH at *
    rw [toInt16_eq (by omega) (by omega), toInt16_eq (by omega) (by omega)]
    refine ⟨rfl, ⟨?_, ?_⟩, ?_, ?_⟩
    · dsimp only
      omega
    · dsimp only
      omega
    · dsimp only
      omega
    · dsimp only
      omega
  refine ⟨hr.loaded, ?_, ?_, ?_, ?_, hsound.past _ hw⟩
  · exact (hroom.holds hr.look).store i ⟨hfonts, hlook⟩
  · exact (hroom.holds hr.inside).store i fun hpix => (hplaced hpix).2
  · refine (hroom.behind.imp fun g' hg' hpix => (hg' hpix).past _ hw).store i ?_
    intro hpix
    rw [(hplaced hpix).1]
    apply Shelf.behind_past
    · dsimp only
      unfold ttAtlasPad
      omega
    · dsimp only
      unfold ttAtlasPad
      omega
  · refine (hroom.pairwise hr.apart).store CellsApart.symm i ?_
    refine hroom.behind.imp ?_
    intro g' hbehind hpix hpix'
    apply PixelRect.Apart.symm
    apply (hbehind hpix').apart
    · rw [(hplaced hpix).1]
      exact Int.le_add_one (Int.le_refl _)
    · rw [(hplaced hpix).1]
      exact Int.le_add_one (Int.le_refl _)

/-! ## The calls -/

theorem isGlyph_iff {cp : UInt32} {bucket : Nat} {g : TtGlyph} :
    isGlyph cp bucket g = true ↔ g.cp = cp ∧ g.sizeBucket = bucket := by
  unfold isGlyph
  rw [Bool.and_eq_true, beq_iff_eq, beq_iff_eq]

/-- A safe lookup. -/
theorem Coherent.getGlyph {r : GlyphRenderer F} (hr : Coherent tt r)
    (hloaded : r.ttfLoaded = true) {cp : UInt32} {fontSize : ℚ}
    (hsafe : SafeGlyph tt r cp fontSize) :
    Coherent tt (ttGetGlyph tt r cp fontSize).2 ∧ GlyphRight tt r cp fontSize := by
  have hfonts := hr.loaded hloaded
  have hready : ¬ (r.ttfLoaded = false ∨ r.fonts = []) := by
    rw [hloaded]
    exact not_or.2 ⟨Bool.noConfusion, hfonts⟩
  unfold SafeGlyph at hsafe
  unfold GlyphRight ttGetGlyph
  rw [if_neg hready]
  dsimp only at hsafe ⊢
  cases hcached : r.ttCache.lookup (isGlyph cp (ttSizeBucket fontSize))
      (glyphSlots cp (ttSizeBucket fontSize)) with
  | some g =>
      obtain ⟨hhit, _, hlook⟩ := hr.look.lookup hcached
      obtain ⟨hcp, hbucket⟩ := isGlyph_iff.1 hhit
      rw [hcp, hbucket] at hlook
      exact ⟨hr, g, rfl, ⟨hcp, hbucket⟩, hlook⟩
  | none =>
      have hmiss := hsafe hcached
      dsimp only
      cases hsearch : tt.search r.fonts cp (ttBucketToSize (ttSizeBucket fontSize)) with
      | none =>
          rw [hsearch] at hmiss
          dsimp only at hmiss ⊢
          cases hslot : r.ttCache.claim (fun _ => false)
              (glyphSlots cp (ttSizeBucket fontSize)) with
          | none => exact absurd hslot hmiss
          | some i =>
              dsimp only
              refine ⟨⟨hr.loaded, ?_, ?_, ?_, ?_, hr.shelf⟩, _, rfl, ⟨rfl, rfl⟩, ?_⟩
              · apply hr.look.store i
                refine ⟨hfonts, ?_⟩
                unfold TrueType.freshLook
                dsimp only
                rw [hsearch]
                rfl
              · apply hr.inside.store i
                intro hpix
                exact absurd hpix.1 (Int.lt_irrefl 0)
              · apply hr.behind.store i
                intro hpix
                exact absurd hpix.1 (Int.lt_irrefl 0)
              · apply hr.apart.store CellsApart.symm i
                intro j g' _ hpix
                exact absurd hpix.1 (Int.lt_irrefl 0)
              · unfold TrueType.freshLook
                dsimp only
                rw [hsearch]
                rfl
      | some found =>
          obtain ⟨info, bmp⟩ := found
          rw [hsearch] at hmiss
          dsimp only at hmiss ⊢
          have hroom := hr.room (r.ttCache.claim (fun _ => false)
            (glyphSlots cp (ttSizeBucket fontSize)))
            ((glyphSlots cp (ttSizeBucket fontSize)).headD 0)
            (bmp.w + ttAtlasPad * 2) (bmp.h + ttAtlasPad * 2)
          generalize r.makeRoom _ _ _ _ = room at hroom
          obtain ⟨i, cache, shelf⟩ := room
          dsimp only at hroom ⊢
          have hsize : toInt16 bmp.w = bmp.w ∧ toInt16 bmp.h = bmp.h := hmiss.toInt16_eq
          have hlook : (⟨bmp.w, bmp.h, tt.glyphAdvance (some info) cp
                (ttBucketToSize (ttSizeBucket fontSize))⟩ : GlyphLook) =
              tt.freshLook r.fonts cp (ttSizeBucket fontSize) := by
            unfold TrueType.freshLook
            dsimp only
            rw [hsearch]
          refine ⟨hr.place hmiss hroom i hfonts ?_ ?_, _, rfl, ⟨rfl, rfl⟩, ?_⟩
          · rw [← hlook, TtGlyph.look, hsize.1, hsize.2]
          · rw [TtGlyph.cell, hsize.1, hsize.2]
          · rw [← hlook, TtGlyph.look, hsize.1, hsize.2]

theorem Coherent.loadFont {r : GlyphRenderer F} (hr : Coherent tt r) (font : Option F) :
    Coherent tt (miniRendererLoadFont r font) := by
  unfold miniRendererLoadFont
  cases font with
  | none => exact hr
  | some info => exact coherent_of_empty (fun _ => List.cons_ne_nil _ _) rfl rfl

theorem Coherent.addFont {r : GlyphRenderer F} (hr : Coherent tt r) {font : Option F}
    (hsafe : SafeAdd tt r font) : Coherent tt (miniRendererLoadFallbackFont r font) := by
  unfold miniRendererLoadFallbackFont
  cases font with
  | none => exact hr
  | some info =>
      dsimp only
      split
      · exact hr
      · refine ⟨fun _ => List.append_ne_nil_of_right_ne_nil _ (List.cons_ne_nil _ _), ?_,
          hr.inside, hr.behind, hr.apart, hr.shelf⟩
        intro i g hg
        obtain ⟨hfonts, hlook⟩ := hr.look i g hg
        refine ⟨List.append_ne_nil_of_left_ne_nil hfonts _, ?_⟩
        rw [hlook]
        exact (freshLook_append hfonts (hsafe info rfl i g hg)).symm

theorem ttGetGlyph_unloaded {r : GlyphRenderer F} (hloaded : r.ttfLoaded = false) (cp : UInt32)
    (fontSize : ℚ) : ttGetGlyph tt r cp fontSize = (none, r) :=
  if_pos (.inl hloaded)

theorem fonts_step_getGlyph (tt : TrueType F) (r : GlyphRenderer F) (cp : UInt32)
    (fontSize : ℚ) : (r.step tt (.getGlyph cp fontSize)).fonts = r.fonts := by
  unfold GlyphRenderer.step ttGetGlyph
  dsimp only
  split
  · rfl
  split
  · rfl
  split
  · split <;> rfl
  · rfl

theorem Coherent.step {r : GlyphRenderer F} (hr : Coherent tt r) {op : GlyphOp F}
    (hsafe : SafeGlyphOp tt r op) : Coherent tt (r.step tt op) := by
  cases op with
  | getGlyph cp fontSize =>
      unfold GlyphRenderer.step
      dsimp only
      cases hloaded : r.ttfLoaded with
      | false =>
          rw [ttGetGlyph_unloaded hloaded]
          exact hr
      | true => exact (hr.getGlyph hloaded (hsafe hloaded)).1
  | loadFont font => exact hr.loadFont font
  | loadFallbackFont font => exact hr.addFont hsafe
  | addFontData font => exact hr.addFont hsafe

theorem Coherent.run {r : GlyphRenderer F} (hr : Coherent tt r) (ops : List (GlyphOp F))
    (hsafe : SafeGlyphOps tt r ops) : Coherent tt (ops.foldl (GlyphRenderer.step tt) r) := by
  induction ops generalizing r with
  | nil => exact hr
  | cons op ops ih =>
      rw [List.foldl_cons]
      exact ih (hr.step hsafe.1) hsafe.2

/-- What a cached glyph's bitmap is blitted to is its cell. -/
theorem miniAtlasBlitGlyph_cell {r : GlyphRenderer F} (hr : CellsRight r) {i : Nat} {g : TtGlyph}
    (hg : r.ttCache i = some g) (hpix : g.HasPixels) : miniAtlasBlitGlyph g.cell = some g.cell := by
  obtain ⟨⟨hx, hright⟩, hy, hbottom⟩ := hr.inside i g hg hpix
  obtain ⟨hw, hh⟩ : 0 < g.cell.w ∧ 0 < g.cell.h := hpix
  unfold miniAtlasBlitGlyph
  dsimp only
  rw [if_neg (Int.not_lt.2 hx), if_neg (Int.not_lt.2 hy), if_neg (Int.not_lt.2 hx),
    if_neg (Int.not_lt.2 hy), if_neg (Int.not_lt.2 hright), if_neg (Int.not_lt.2 hbottom)]
  refine if_neg ?_
  omega

/-! ## Runs -/

/-- In every run of safe calls the cells are inside the atlas and apart, and the next safe
lookup gives what a search of the fonts would give. -/
theorem glyphRun_coherent (tt : TrueType F) (ops : List (GlyphOp F))
    (hsafe : SafeGlyphOps tt {} ops) :
    CellsRight (glyphRun tt ops) ∧
      ∀ cp fontSize, (glyphRun tt ops).ttfLoaded = true →
        SafeGlyph tt (glyphRun tt ops) cp fontSize →
          GlyphRight tt (glyphRun tt ops) cp fontSize := by
  have hempty : Coherent tt {} := coherent_of_empty nofun rfl rfl
  have hr := hempty.run ops hsafe
  refine ⟨hr.cellsRight, ?_⟩
  intro cp fontSize hloaded hglyph
  exact (hr.getGlyph hloaded hglyph).2

theorem safeGlyph_of_search {r : GlyphRenderer F} {cp : UInt32} {fontSize : ℚ} (info : F)
    (bmp : GlyphBitmap)
    (hsearch : tt.search r.fonts cp (ttBucketToSize (ttSizeBucket fontSize)) = some (info, bmp))
    (hfits : bmp.Fits) : SafeGlyph tt r cp fontSize := by
  intro _
  rw [hsearch]
  exact hfits

/-- Two fonts: both have an A, and only the second has a B. -/
def twoFonts : TrueType Bool where
  findGlyphIndex := fun font cp => if cp = 65 ∨ font = true then 1 else 0
  scaleForPixelHeight := fun _ fs => fs / 16
  codepointBitmap := fun _ _ cp =>
    if cp = 65 then some { w := 9, h := 11, xoff := 0, yoff := -11 }
    else some { w := 8, h := 10, xoff := 1, yoff := -10 }
  codepointAdvance := fun _ _ => 10

theorem glyphRun_coherent_twoFonts :
    CellsRight (glyphRun twoFonts [.loadFont (some true), .getGlyph 65 16, .getGlyph 66 16]) ∧
      GlyphRight twoFonts
        (glyphRun twoFonts [.loadFont (some true), .getGlyph 65 16, .getGlyph 66 16]) 65 16 := by
  have hA : ∀ r : GlyphRenderer Bool, r.fonts = [true] → SafeGlyph twoFonts r 65 16 := by
    intro r hfonts
    apply safeGlyph_of_search true ⟨9, 11, 0, -11⟩
    · rw [hfonts]
      decide +kernel
    · decide
  have hB : ∀ r : GlyphRenderer Bool, r.fonts = [true] → SafeGlyph twoFonts r 66 16 := by
    intro r hfonts
    apply safeGlyph_of_search true ⟨8, 10, 1, -10⟩
    · rw [hfonts]
      decide +kernel
    · decide
  have hone : (GlyphRenderer.step twoFonts {} (.loadFont (some true))).fonts = [true] := rfl
  have htwo := (fonts_step_getGlyph twoFonts _ 65 16).trans hone
  have hthree := (fonts_step_getGlyph twoFonts _ 66 16).trans htwo
  have hsafe : SafeGlyphOps twoFonts {}
      [.loadFont (some true), .getGlyph 65 16, .getGlyph 66 16] := by
    refine ⟨trivial, fun _ => hA _ hone, fun _ => hB _ ?_, trivial⟩
    exact htwo
  obtain ⟨hcells, hglyph⟩ := glyphRun_coherent twoFonts _ hsafe
  refine ⟨hcells, hglyph 65 16 (by decide +kernel) (hA _ ?_)⟩
  unfold glyphRun
  rw [List.foldl_cons, List.foldl_cons, List.foldl_cons, List.foldl_nil]
  exact hthree

/-- A glyph that was looked up before its font was added stays without a bitmap. -/
theorem glyphRun_stale_twoFonts :
    ¬ GlyphRight twoFonts (glyphRun twoFonts
      [.loadFont (some false), .getGlyph 66 16, .addFontData (some true)]) 66 16 := by
  rintro ⟨g, hg, _, hlook⟩
  have hold : ((ttGetGlyph twoFonts (glyphRun twoFonts
      [.loadFont (some false), .getGlyph 66 16, .addFontData (some true)]) 66 16).1.map
        TtGlyph.gw) = some 0 := by decide +kernel
  have hfresh : (twoFonts.freshLook (glyphRun twoFonts
      [.loadFont (some false), .getGlyph 66 16, .addFontData (some true)]).fonts 66
        (ttSizeBucket 16)).w = 8 := by decide +kernel
  rw [hg] at hold
  have hgw : g.gw = 8 := (congrArg GlyphLook.w hlook).trans hfresh
  have hzero : g.gw = 0 := Option.some.inj hold
  omega

end TinyFramework.Render
