/-
  Render/GradientCache.lean --- the texture cache of gradients and the commands that use it.

  A gradient of several stops is looked up when it is drawn and its command carries the
  texture; one of two stops is looked up when its command is executed.  Both share sixteen
  slots, and a miss deletes the texture of the stalest slot.  Lengths and angles are exact.
-/
import Mathlib.Algebra.GroupWithZero.Nat
import Mathlib.Algebra.Order.Ring.Rat
import Mathlib.Data.List.AList
import Mathlib.Data.Fintype.Fin

set_option autoImplicit false

namespace TinyFramework.Render

/-! ## Gradients -/

structure GradColor where
  r : ℚ
  g : ℚ
  b : ℚ
  a : ℚ
  deriving DecidableEq, Repr

/-- A colour stop, five floats as their bits. -/
structure GradStop where
  offset : UInt32
  r : UInt32
  g : UInt32
  b : UInt32
  a : UInt32
  deriving DecidableEq, Repr

/-- What `mini_gradient_raster` and `mini_gradient_raster_multi` are called with. -/
inductive Gradient where
  | twoStop (type angle bw bh : Int) (c1 c2 : GradColor)
  | multi (type : Int) (angle : ℚ) (bw bh : Int) (stops : List GradStop)
  deriving DecidableEq, Repr

/-- The conversion of a float to an integer. -/
def truncate (q : ℚ) : Int := q.num.tdiv q.den

def packChannel (f : ℚ) : UInt32 :=
  if f ≤ 0 then 0 else if 1 ≤ f then 255 else UInt32.ofInt (truncate (f * 255 + 1 / 2))

/-- `grad_pack_rgba` -/
def gradPackRgba (c : GradColor) : UInt32 :=
  (packChannel c.r <<< 24) ||| (packChannel c.g <<< 16) ||| (packChannel c.b <<< 8) |||
    packChannel c.a

/-- `mini_gradient_norm_angle_deg` -/
def miniGradientNormAngleDeg (angle : ℚ) : Int :=
  truncate (angle - 360 * (angle / 360).floor + 1 / 2) % 360

def wordBytes (w : UInt32) : List UInt32 :=
  [w &&& 255, (w >>> 8) &&& 255, (w >>> 16) &&& 255, w >>> 24]

def GradStop.bytes (s : GradStop) : List UInt32 :=
  wordBytes s.offset ++ wordBytes s.r ++ wordBytes s.g ++ wordBytes s.b ++ wordBytes s.a

/-- The hash of `grad_cache_multi_get`. -/
def multiHash (type : Int) (angle : ℚ) (bw bh : Int) (stops : List GradStop) : UInt32 :=
  ([UInt32.ofInt type, UInt32.ofInt (truncate (angle * 10)), UInt32.ofInt bw, UInt32.ofInt bh,
      UInt32.ofNat stops.length] ++ stops.flatMap GradStop.bytes).foldl
    (fun h v => (h ^^^ v) * 16777619) 2166136261

/-! ## The cache -/

/-- `MINI_GRAD_CACHE_CAP` -/
abbrev miniGradCacheCap : Nat := 16

theorem miniGradCacheCap_ne_zero : miniGradCacheCap ≠ 0 := by decide

local instance miniGradCacheCap_neZero : NeZero miniGradCacheCap := ⟨miniGradCacheCap_ne_zero⟩

/-- `MINI_CMD_CAP` -/
def miniCmdCap : Nat := 8192

/-- An entry of `r->grad_cache`; the slot is empty when `tex` is 0. -/
structure GradSlot where
  tex : Nat := 0
  type : Int := 0
  angle : Int := 0
  bw : Int := 0
  bh : Int := 0
  c1 : UInt32 := 0
  c2 : UInt32 := 0
  tick : UInt32 := 0
  deriving DecidableEq, Repr

/-- A texture that lives: what was rasterised into it, and which call of `glGenTextures`
made it. -/
structure GradTexture where
  source : Gradient
  born : Nat
  deriving DecidableEq, Repr

abbrev GradTextures := AList fun _ : Nat => GradTexture

/-- A command of the buffer: one with a texture of the cache, with the gradient and the texture
its name stood for when it was recorded; `MINI_CMD_GRADIENT`; or any other one. -/
inductive GradCmd where
  | textured (tex : Nat) (drawn : Gradient) (recorded : Option GradTexture)
  | gradient (w h : ℚ) (type angle : Int) (c1 c2 : GradColor)
  | other
  deriving DecidableEq, Repr

/-- A use of a texture: a lookup that hit, and the execution of a textured command. -/
inductive GradUse where
  | hit (drawn : Gradient) (found : Option GradTexture)
  | executed (drawn : Gradient) (recorded found : Option GradTexture)
  deriving DecidableEq, Repr

/-- The cache, the textures and the command buffer, with the gradients that were looked up and
the uses of textures so far. -/
structure GradState where
  gradCache : Fin miniGradCacheCap → GradSlot := fun _ => {}
  gradTick : UInt32 := 0
  textures : GradTextures := ∅
  made : Nat := 0
  cmds : List GradCmd := []
  asked : List Gradient := []
  uses : List GradUse := []

/-- The fields that a lookup writes to the slot of a gradient. -/
def Gradient.key : Gradient → GradSlot
  | .twoStop type angle bw bh c1 c2 =>
      { type := type, angle := angle, bw := bw, bh := bh
        c1 := gradPackRgba c1, c2 := gradPackRgba c2 }
  | .multi type angle bw bh stops =>
      { type := type, angle := truncate angle, bw := bw, bh := bh
        c1 := multiHash type angle bw bh stops, c2 := 0 }

/-- The fields that a lookup compares. -/
def Gradient.sameKey : Gradient → GradSlot → Bool
  | .twoStop type angle bw bh c1 c2, s =>
      s.type == type && s.angle == angle && s.bw == bw && s.bh == bh &&
        s.c1 == gradPackRgba c1 && s.c2 == gradPackRgba c2
  | .multi type angle bw bh stops, s =>
      s.type == type && s.bw == bw && s.bh == bh && s.c1 == multiHash type angle bw bh stops

def GradState.hitSlot (r : GradState) (g : Gradient) : Option (Fin miniGradCacheCap) :=
  (List.finRange miniGradCacheCap).find? fun i =>
    (r.gradCache i).tex != 0 && g.sameKey (r.gradCache i)

def GradState.lru (r : GradState) : Fin miniGradCacheCap :=
  (List.finRange miniGradCacheCap).foldl
    (fun lru i => if (r.gradCache i).tick < (r.gradCache lru).tick then i else lru) 0

/-- `glDeleteTextures` for the texture of a slot. -/
def GradTextures.dropSlot (textures : GradTextures) (s : GradSlot) : GradTextures :=
  if s.tex ≠ 0 then textures.erase s.tex else textures

section Source

-- the name that a call of `glGenTextures` returns, from the number of calls before and the
-- textures that live
variable (gen : Nat → GradTextures → Nat)

/-- The common part of `grad_cache_get` and `grad_cache_multi_get`. -/
def gradCacheLookup (r : GradState) (g : Gradient) : GradState × Nat :=
  match r.hitSlot g with
  | some i =>
      let slot := r.gradCache i
      ({ r with
          gradCache := Function.update r.gradCache i { slot with tick := r.gradTick + 1 }
          gradTick := r.gradTick + 1
          asked := g :: r.asked
          uses := .hit g (r.textures.lookup slot.tex) :: r.uses },
        slot.tex)
  | none =>
      let textures := r.textures.dropSlot (r.gradCache r.lru)
      let tex := gen r.made textures
      if tex = 0 then ({ r with textures := textures, made := r.made + 1 }, 0)
      else
        ({ r with
            gradCache := Function.update r.gradCache r.lru
              { g.key with tex := tex, tick := r.gradTick + 1 }
            gradTick := r.gradTick + 1
            textures := textures.insert tex ⟨g, r.made⟩
            made := r.made + 1
            asked := g :: r.asked },
          tex)

/-- `grad_cache_get` -/
def gradCacheGet (r : GradState) (type angle bw bh : Int) (c1 c2 : GradColor) :
    GradState × Nat :=
  gradCacheLookup gen r (.twoStop type angle bw bh c1 c2)

/-- `grad_cache_multi_get` -/
def gradCacheMultiGet (r : GradState) (type : Int) (angle : ℚ) (bw bh : Int)
    (stops : List GradStop) : GradState × Nat :=
  gradCacheLookup gen r (.multi type angle bw bh stops)

/-- Whether `MINI_CMD_GRADIENT` takes the texture path. -/
def takesTexture (w h : ℚ) (type angle : Int) : Prop :=
  ¬ (type = 0 ∧ angle % 90 = 0) ∧ 0 < w ∧ 0 < h

instance (w h : ℚ) (type angle : Int) : Decidable (takesTexture w h type angle) :=
  inferInstanceAs (Decidable (¬ (type = 0 ∧ angle % 90 = 0) ∧ 0 < w ∧ 0 < h))

/-- The size in whole pixels that a gradient is rasterised for. -/
def boxSize (w : ℚ) : Int := truncate (w + 1 / 2)

/-- `mini_exec_cmd` for gradients and textures. -/
def execGradCmd (r : GradState) : GradCmd → GradState
  | .textured tex g recorded =>
      { r with uses := .executed g recorded (r.textures.lookup tex) :: r.uses }
  | .gradient w h type angle c1 c2 =>
      if takesTexture w h type angle then
        (gradCacheGet gen r type angle (boxSize w) (boxSize h) c1 c2).1
      else r
  | .other => r

/-- `mini_renderer_flush` -/
def gradFlush (r : GradState) : GradState :=
  { r.cmds.foldl (execGradCmd gen) r with cmds := [] }

/-- `mini_push` -/
def gradPush (r : GradState) (c : GradCmd) : GradState :=
  let r := if r.cmds.length ≥ miniCmdCap then gradFlush gen r else r
  { r with cmds := r.cmds ++ [c] }

/-- `mini_draw_gradient_multi` -/
def drawGradientMulti (r : GradState) (w h : ℚ) (stops : List GradStop) (type : Int)
    (angle : ℚ) : GradState :=
  if stops = [] ∨ w ≤ 0 ∨ h ≤ 0 then r
  else
    let g := Gradient.multi type angle (boxSize w) (boxSize h) stops
    let got := gradCacheMultiGet gen r type angle (boxSize w) (boxSize h) stops
    if got.2 = 0 then got.1
    else gradPush gen got.1 (.textured got.2 g (got.1.textures.lookup got.2))

/-- `mini_draw_gradient` -/
def drawGradient (r : GradState) (w h : ℚ) (c1 c2 : GradColor) (type : Int) (angle : ℚ) :
    GradState :=
  gradPush gen r (.gradient w h type (miniGradientNormAngleDeg angle) c1 c2)

/-- The calls that a page's frame makes. -/
inductive GradEvent where
  | gradientMulti (w h : ℚ) (stops : List GradStop) (type : Int) (angle : ℚ)
  | gradient (w h : ℚ) (c1 c2 : GradColor) (type : Int) (angle : ℚ)
  | draw
  | flush
  | beginFrame
  deriving DecidableEq, Repr

def GradState.step (r : GradState) : GradEvent → GradState
  | .gradientMulti w h stops type angle => drawGradientMulti gen r w h stops type angle
  | .gradient w h c1 c2 type angle => drawGradient gen r w h c1 c2 type angle
  | .draw => gradPush gen r .other
  | .flush => gradFlush gen r
  | .beginFrame => { r with cmds := [] }

def gradRun (events : List GradEvent) : GradState := events.foldl (GradState.step gen) {}

end Source

/-! ## What the uses of textures have to show -/

/-- A hit finds a texture rasterised for the gradient asked for; an executed command finds the
texture it was recorded with, rasterised for its gradient. -/
def GradUse.Valid : GradUse → Prop
  | .hit g found => ∃ t ∈ found, t.source = g
  | .executed g recorded found => found = recorded ∧ ∃ t ∈ found, t.source = g

instance (u : GradUse) : Decidable u.Valid :=
  match u with
  | .hit g found => inferInstanceAs (Decidable (∃ t ∈ found, t.source = g))
  | .executed g recorded found =>
      inferInstanceAs (Decidable (found = recorded ∧ ∃ t ∈ found, t.source = g))

def GradCmd.names : GradCmd → List Nat
  | .textured tex _ _ => [tex]
  | _ => []

/-- The texture names of commands that are still to be executed. -/
def pendingNames (cmds : List GradCmd) : List Nat := cmds.flatMap GradCmd.names

/-- No other gradient was looked up that the cache takes for this one, and when the lookup
misses, the stalest slot is empty or no command still to come names its texture. -/
def SafeLookup (r : GradState) (named : List Nat) (g : Gradient) : Prop :=
  (∀ g' ∈ r.asked, g.sameKey g'.key = true → g' = g) ∧
    (r.hitSlot g = none → (r.gradCache r.lru).tex = 0 ∨ (r.gradCache r.lru).tex ∉ named)

instance (r : GradState) (named : List Nat) (g : Gradient) : Decidable (SafeLookup r named g) :=
  inferInstanceAs (Decidable ((∀ g' ∈ r.asked, g.sameKey g'.key = true → g' = g) ∧
    (r.hitSlot g = none → (r.gradCache r.lru).tex = 0 ∨ (r.gradCache r.lru).tex ∉ named)))

section Safe

variable (gen : Nat → GradTextures → Nat)

def SafeCmd (r : GradState) (named : List Nat) : GradCmd → Prop
  | .gradient w h type angle c1 c2 =>
      takesTexture w h type angle →
        SafeLookup r named (.twoStop type angle (boxSize w) (boxSize h) c1 c2)
  | _ => True

instance (r : GradState) (named : List Nat) (c : GradCmd) : Decidable (SafeCmd r named c) :=
  match c with
  | .gradient w h type angle c1 c2 =>
      inferInstanceAs (Decidable (takesTexture w h type angle →
        SafeLookup r named (.twoStop type angle (boxSize w) (boxSize h) c1 c2)))
  | .textured .. => isTrue trivial
  | .other => isTrue trivial

/-- Each command that looks a gradient up finds it safe, with the commands behind it and the
names `held` still to come. -/
def SafeFlush (held : List Nat) : GradState → List GradCmd → Prop
  | _, [] => True
  | r, c :: cs =>
      SafeCmd r (held ++ pendingNames cs) c ∧ SafeFlush held (execGradCmd gen r c) cs

instance instDecidableSafeFlush (held : List Nat) :
    ∀ (r : GradState) (cmds : List GradCmd), Decidable (SafeFlush gen held r cmds)
  | _, [] => isTrue trivial
  | r, c :: cs =>
      have := instDecidableSafeFlush held (execGradCmd gen r c) cs
      inferInstanceAs (Decidable (SafeCmd r (held ++ pendingNames cs) c ∧
        SafeFlush gen held (execGradCmd gen r c) cs))

def SafePush (r : GradState) (held : List Nat) : Prop :=
  r.cmds.length ≥ miniCmdCap → SafeFlush gen held r r.cmds

instance (r : GradState) (held : List Nat) : Decidable (SafePush gen r held) :=
  inferInstanceAs (Decidable (r.cmds.length ≥ miniCmdCap → SafeFlush gen held r r.cmds))

def SafeGradEvent (r : GradState) : GradEvent → Prop
  | .gradientMulti w h stops type angle =>
      ¬ (stops = [] ∨ w ≤ 0 ∨ h ≤ 0) →
        SafeLookup r (pendingNames r.cmds) (.multi type angle (boxSize w) (boxSize h) stops) ∧
          SafePush gen (gradCacheMultiGet gen r type angle (boxSize w) (boxSize h) stops).1
            [(gradCacheMultiGet gen r type angle (boxSize w) (boxSize h) stops).2]
  | .gradient .. => SafePush gen r []
  | .draw => SafePush gen r []
  | .flush => SafeFlush gen [] r r.cmds
  | .beginFrame => True

instance (r : GradState) (e : GradEvent) : Decidable (SafeGradEvent gen r e) :=
  match e with
  | .gradientMulti w h stops type angle =>
      inferInstanceAs (Decidable (¬ (stops = [] ∨ w ≤ 0 ∨ h ≤ 0) →
        SafeLookup r (pendingNames r.cmds) (.multi type angle (boxSize w) (boxSize h) stops) ∧
          SafePush gen (gradCacheMultiGet gen r type angle (boxSize w) (boxSize h) stops).1
            [(gradCacheMultiGet gen r type angle (boxSize w) (boxSize h) stops).2]))
  | .gradient .. => inferInstanceAs (Decidable (SafePush gen r []))
  | .draw => inferInstanceAs (Decidable (SafePush gen r []))
  | .flush => inferInstanceAs (Decidable (SafeFlush gen [] r r.cmds))
  | .beginFrame => isTrue trivial

def SafeGradRun : GradState → List GradEvent → Prop
  | _, [] => True
  | r, e :: es => SafeGradEvent gen r e ∧ SafeGradRun (r.step gen e) es

end Safe

/-- The names that `glGenTextures` returns are not 0 and not in use. -/
def FreshNames (gen : Nat → GradTextures → Nat) : Prop :=
  ∀ n textures, gen n textures ≠ 0 ∧ gen n textures ∉ textures

/-! ## The invariant -/

/-- The gradient of a texture that lives under a name. -/
def GradTextures.Holds (textures : GradTextures) (tex : Nat) (g : Gradient) : Prop :=
  ∃ t ∈ textures.lookup tex, t.source = g

/-- A command still to come finds its texture. -/
def GradCmd.Ready (textures : GradTextures) : GradCmd → Prop
  | .textured tex g recorded => textures.lookup tex = recorded ∧ textures.Holds tex g
  | _ => True

/-- Every slot in use has the texture of a gradient that was looked up, under that gradient's
key; no two slots share a texture; and the commands still to come find theirs. -/
structure GradInv (r : GradState) (pending : List GradCmd) : Prop where
  slot : ∀ i, (r.gradCache i).tex ≠ 0 → ∃ g ∈ r.asked,
    r.gradCache i = { g.key with tex := (r.gradCache i).tex, tick := (r.gradCache i).tick } ∧
      r.textures.Holds (r.gradCache i).tex g
  distinct : ∀ i j, (r.gradCache i).tex ≠ 0 → (r.gradCache i).tex = (r.gradCache j).tex → i = j
  ready : ∀ c ∈ pending, c.Ready r.textures
  uses : ∀ u ∈ r.uses, u.Valid

theorem GradInv.weaken {r : GradState} {pending pending' : List GradCmd}
    (h : GradInv r pending) (hsub : ∀ c ∈ pending', c ∈ pending) : GradInv r pending' :=
  ⟨h.slot, h.distinct, fun c hc => h.ready c (hsub c hc), h.uses⟩

theorem sameKey_congr (g : Gradient) (s : GradSlot) (tex : Nat) (tick : UInt32) :
    g.sameKey { s with tex := tex, tick := tick } = g.sameKey s := by
  cases g <;> rfl

theorem mem_pendingNames {cmds : List GradCmd} {tex : Nat} {g : Gradient}
    {recorded : Option GradTexture} (h : .textured tex g recorded ∈ cmds) :
    tex ∈ pendingNames cmds :=
  List.mem_flatMap.2 ⟨_, h, List.mem_singleton_self _⟩

/-! ## A lookup -/

theorem hitSlot_some {r : GradState} {g : Gradient} {i : Fin miniGradCacheCap}
    (h : r.hitSlot g = some i) :
    (r.gradCache i).tex ≠ 0 ∧ g.sameKey (r.gradCache i) = true := by
  have hfound := List.find?_some h
  rw [Bool.and_eq_true, bne_iff_ne] at hfound
  exact hfound

theorem GradInv.hit_holds {r : GradState} {pending : List GradCmd} {named : List Nat}
    {g : Gradient} {i : Fin miniGradCacheCap} (h : GradInv r pending)
    (hsafe : SafeLookup r named g) (hi : r.hitSlot g = some i) :
    r.textures.Holds (r.gradCache i).tex g := by
  obtain ⟨hused, hkey⟩ := hitSlot_some hi
  obtain ⟨g', hasked, hslot, hholds⟩ := h.slot i hused
  rw [hslot, sameKey_congr] at hkey
  have hsame := hsafe.1 g' hasked hkey
  rw [← hsame]
  exact hholds

theorem lookup_dropSlot {textures : GradTextures} {s : GradSlot} {tex : Nat}
    (h : s.tex ≠ 0 → tex ≠ s.tex) :
    (textures.dropSlot s).lookup tex = textures.lookup tex := by
  unfold GradTextures.dropSlot
  split_ifs with hused
  · exact AList.lookup_erase_ne (h hused)
  · rfl

/-- Names that a miss leaves alone: the new one is none of them, and neither is the one of the
stalest slot. -/
theorem lookup_miss {textures : GradTextures} {s : GradSlot} {tex tex' : Nat}
    {t : GradTexture} (hfresh : tex' ∉ textures.dropSlot s) (hlive : tex ∈ textures)
    (h : s.tex ≠ 0 → tex ≠ s.tex) :
    ((textures.dropSlot s).insert tex' t).lookup tex = textures.lookup tex := by
  have hkept : (textures.dropSlot s).lookup tex = textures.lookup tex := lookup_dropSlot h
  have hne : tex ≠ tex' := by
    rintro rfl
    apply hfresh
    rw [← AList.lookup_isSome, hkept, AList.lookup_isSome]
    exact hlive
  rw [AList.lookup_insert_ne hne, hkept]

theorem GradTextures.Holds.mem {textures : GradTextures} {tex : Nat} {g : Gradient}
    (h : textures.Holds tex g) : tex ∈ textures := by
  obtain ⟨t, ht, -⟩ := h
  rw [← AList.lookup_isSome, Option.mem_def.1 ht]
  rfl

section Steps

variable {gen : Nat → GradTextures → Nat}

/-- A hit stamps its slot. -/
theorem gradCacheLookup_hit {r : GradState} {pending : List GradCmd} {g : Gradient}
    (h : GradInv r pending) (hsafe : SafeLookup r (pendingNames pending) g)
    {i : Fin miniGradCacheCap} (hi : r.hitSlot g = some i) :
    GradInv (gradCacheLookup gen r g).1 pending ∧
      (gradCacheLookup gen r g).1.textures.Holds (gradCacheLookup gen r g).2 g ∧
      (gradCacheLookup gen r g).1.cmds = r.cmds := by
  unfold gradCacheLookup
  rw [hi]
  dsimp only
  have hholds := h.hit_holds hsafe hi
  refine ⟨⟨?_, ?_, h.ready, ?_⟩, hholds, rfl⟩
  · intro j hj
    by_cases hji : j = i
    · subst hji
      obtain ⟨g', hasked, hslot, hold⟩ := h.slot j (hitSlot_some hi).1
      refine ⟨g', List.mem_cons_of_mem _ hasked, ?_, ?_⟩
      · dsimp only
        rw [Function.update_self, hslot]
      · dsimp only
        rw [Function.update_self]
        exact hold
    · dsimp only at hj ⊢
      rw [Function.update_of_ne hji] at hj ⊢
      obtain ⟨g', hasked, hslot⟩ := h.slot j hj
      exact ⟨g', List.mem_cons_of_mem _ hasked, hslot⟩
  · have htex : ∀ j, (Function.update r.gradCache i
        { r.gradCache i with tick := r.gradTick + 1 } j).tex = (r.gradCache j).tex := by
      intro j
      by_cases hji : j = i
      · rw [hji, Function.update_self]
      · rw [Function.update_of_ne hji]
    intro j k hj hjk
    dsimp only at hj hjk
    rw [htex] at hj hjk
    rw [htex] at hjk
    exact h.distinct j k hj hjk
  · intro u hu
    rcases List.mem_cons.1 hu with rfl | hu
    · exact hholds
    · exact h.uses u hu

/-- A miss gives the stalest slot a new texture. -/
theorem gradCacheLookup_miss (hgen : FreshNames gen) {r : GradState} {pending : List GradCmd}
    {g : Gradient} (h : GradInv r pending) (hsafe : SafeLookup r (pendingNames pending) g)
    (hi : r.hitSlot g = none) :
    GradInv (gradCacheLookup gen r g).1 pending ∧
      (gradCacheLookup gen r g).1.textures.Holds (gradCacheLookup gen r g).2 g ∧
      (gradCacheLookup gen r g).1.cmds = r.cmds := by
  unfold gradCacheLookup
  rw [hi]
  dsimp only
  obtain ⟨hnonzero, hfresh⟩ := hgen r.made (r.textures.dropSlot (r.gradCache r.lru))
  rw [if_neg hnonzero]
  -- what is named by a command or another slot is still there
  have hother : ∀ j, j ≠ r.lru → (r.gradCache j).tex ≠ 0 →
      (r.gradCache r.lru).tex ≠ 0 → (r.gradCache j).tex ≠ (r.gradCache r.lru).tex := by
    intro j hj hused _ heq
    exact hj (h.distinct j r.lru hused heq)
  refine ⟨⟨?_, ?_, ?_, h.uses⟩, ?_, rfl⟩
  · intro j hj
    by_cases hji : j = r.lru
    · subst hji
      dsimp only
      rw [Function.update_self]
      exact ⟨g, List.mem_cons_self, rfl, _, AList.lookup_insert _, rfl⟩
    · dsimp only at hj ⊢
      rw [Function.update_of_ne hji] at hj ⊢
      obtain ⟨g', hasked, hslot, hholds⟩ := h.slot j hj
      refine ⟨g', List.mem_cons_of_mem _ hasked, hslot, ?_⟩
      unfold GradTextures.Holds
      rw [lookup_miss hfresh hholds.mem (hother j hji hj)]
      exact hholds
  · have hnew : ∀ j, j ≠ r.lru → (r.gradCache j).tex ≠ 0 → (r.gradCache j).tex ≠
        gen r.made (r.textures.dropSlot (r.gradCache r.lru)) := by
      intro j hj hused heq
      obtain ⟨g', -, -, hholds⟩ := h.slot j hused
      apply hfresh
      rw [← heq, ← AList.lookup_isSome, lookup_dropSlot (hother j hj hused),
        AList.lookup_isSome]
      exact hholds.mem
    intro j k hj hjk
    dsimp only at hj hjk
    by_cases hjl : j = r.lru
    · by_cases hkl : k = r.lru
      · rw [hjl, hkl]
      · rw [hjl, Function.update_self, Function.update_of_ne hkl] at hjk
        have hk : (r.gradCache k).tex ≠ 0 := by
          rw [← hjk]
          exact hnonzero
        exact absurd hjk.symm (hnew k hkl hk)
    · rw [Function.update_of_ne hjl] at hj hjk
      by_cases hkl : k = r.lru
      · rw [hkl, Function.update_self] at hjk
        exact absurd hjk (hnew j hjl hj)
      · rw [Function.update_of_ne hkl] at hjk
        exact h.distinct j k hj hjk
  · intro c hc
    match c with
    | .textured tex g' recorded =>
        obtain ⟨hrecorded, hholds⟩ := h.ready _ hc
        have hkept : (r.gradCache r.lru).tex ≠ 0 → tex ≠ (r.gradCache r.lru).tex := by
          intro hused heq
          rcases hsafe.2 hi with hempty | hnot
          · exact hused hempty
          · apply hnot
            rw [← heq]
            exact mem_pendingNames hc
        have hlookup := lookup_miss (t := ⟨g, r.made⟩) hfresh hholds.mem hkept
        refine ⟨?_, ?_⟩
        · dsimp only
          rw [hlookup]
          exact hrecorded
        · unfold GradTextures.Holds
          rw [hlookup]
          exact hholds
    | .gradient .. => trivial
    | .other => trivial
  · exact ⟨_, AList.lookup_insert _, rfl⟩

/-- A lookup keeps what holds, leaves the command buffer, and returns a name of a texture of
the gradient. -/
theorem gradCacheLookup_inv (hgen : FreshNames gen) {r : GradState} {pending : List GradCmd}
    {g : Gradient} (h : GradInv r pending) (hsafe : SafeLookup r (pendingNames pending) g) :
    GradInv (gradCacheLookup gen r g).1 pending ∧
      (gradCacheLookup gen r g).1.textures.Holds (gradCacheLookup gen r g).2 g ∧
      (gradCacheLookup gen r g).1.cmds = r.cmds := by
  cases hi : r.hitSlot g with
  | some i => exact gradCacheLookup_hit h hsafe hi
  | none => exact gradCacheLookup_miss hgen h hsafe hi

/-! ## The command buffer -/

theorem execGradCmd_inv (hgen : FreshNames gen) {r : GradState} {kept cs : List GradCmd}
    {c : GradCmd} (h : GradInv r (kept ++ c :: cs))
    (hsafe : SafeCmd r (pendingNames kept ++ pendingNames cs) c) :
    GradInv (execGradCmd gen r c) (kept ++ cs) ∧ (execGradCmd gen r c).cmds = r.cmds := by
  have hrest : GradInv r (kept ++ cs) := by
    apply h.weaken
    intro d hd
    rcases List.mem_append.1 hd with hd | hd
    · exact List.mem_append_left _ hd
    · exact List.mem_append_right _ (List.mem_cons_of_mem _ hd)
  cases c with
  | textured tex g recorded =>
      refine ⟨⟨hrest.slot, hrest.distinct, hrest.ready, ?_⟩, rfl⟩
      intro u hu
      rcases List.mem_cons.1 hu with rfl | hu
      · exact h.ready _ (List.mem_append_right _ List.mem_cons_self)
      · exact h.uses u hu
  | gradient w h' type angle c1 c2 =>
      unfold execGradCmd
      dsimp only
      split_ifs with htakes
      · have hlookup := hsafe htakes
        rw [pendingNames, pendingNames, ← List.flatMap_append] at hlookup
        obtain ⟨hinv, -, hcmds⟩ := gradCacheLookup_inv hgen hrest hlookup
        exact ⟨hinv, hcmds⟩
      · exact ⟨hrest, rfl⟩
  | other => exact ⟨hrest, rfl⟩

theorem foldl_execGradCmd_inv (hgen : FreshNames gen) {kept : List GradCmd} :
    ∀ {cs : List GradCmd} {r : GradState}, GradInv r (kept ++ cs) →
      SafeFlush gen (pendingNames kept) r cs →
        GradInv (cs.foldl (execGradCmd gen) r) kept ∧
          (cs.foldl (execGradCmd gen) r).cmds = r.cmds
  | [], _, h, _ => ⟨h.weaken fun _ hc => List.mem_append_left _ hc, rfl⟩
  | c :: cs, r, h, ⟨hsafe, hsafes⟩ => by
      obtain ⟨hinv, hcmds⟩ := execGradCmd_inv hgen h hsafe
      obtain ⟨hinv', hcmds'⟩ := foldl_execGradCmd_inv hgen hinv hsafes
      exact ⟨hinv', hcmds'.trans hcmds⟩

/-- What holds does not depend on the command buffer itself. -/
theorem GradInv.setCmds {r : GradState} {pending : List GradCmd} (h : GradInv r pending)
    (cmds : List GradCmd) : GradInv { r with cmds := cmds } pending :=
  ⟨h.slot, h.distinct, h.ready, h.uses⟩

theorem gradFlush_inv (hgen : FreshNames gen) {r : GradState} {kept : List GradCmd}
    (h : GradInv r (kept ++ r.cmds)) (hsafe : SafeFlush gen (pendingNames kept) r r.cmds) :
    GradInv (gradFlush gen r) kept :=
  (foldl_execGradCmd_inv hgen h hsafe).1.setCmds []

theorem gradPush_inv (hgen : FreshNames gen) {r : GradState} {c : GradCmd}
    (h : GradInv r (c :: r.cmds)) (hsafe : SafePush gen r c.names) :
    GradInv (gradPush gen r c) (gradPush gen r c).cmds := by
  unfold gradPush
  dsimp only
  split_ifs with hfull
  · have hheld : pendingNames [c] = c.names := List.append_nil _
    have hflush := hsafe hfull
    rw [← hheld] at hflush
    exact (gradFlush_inv hgen h hflush).setCmds _
  · apply (h.setCmds _).weaken
    intro d hd
    rcases List.mem_append.1 hd with hd | hd
    · exact List.mem_cons_of_mem _ hd
    · rw [List.mem_singleton.1 hd]
      exact List.mem_cons_self

theorem GradInv.cons {r : GradState} {pending : List GradCmd} {c : GradCmd}
    (h : GradInv r pending) (hc : c.Ready r.textures) : GradInv r (c :: pending) := by
  refine ⟨h.slot, h.distinct, ?_, h.uses⟩
  intro d hd
  rcases List.mem_cons.1 hd with rfl | hd
  · exact hc
  · exact h.ready d hd

theorem GradState.step_inv (hgen : FreshNames gen) {r : GradState} {e : GradEvent}
    (h : GradInv r r.cmds) (hsafe : SafeGradEvent gen r e) :
    GradInv (r.step gen e) (r.step gen e).cmds := by
  cases e with
  | gradientMulti w h' stops type angle =>
      unfold GradState.step drawGradientMulti
      dsimp only
      split_ifs with hnothing hfailed
      · exact h
      · obtain ⟨hlookup, -⟩ := hsafe hnothing
        obtain ⟨hinv, -, hcmds⟩ := gradCacheLookup_inv hgen h hlookup
        rw [gradCacheMultiGet, hcmds]
        exact hinv
      · obtain ⟨hlookup, hpush⟩ := hsafe hnothing
        obtain ⟨hinv, hholds, hcmds⟩ := gradCacheLookup_inv hgen h hlookup
        apply gradPush_inv hgen
        · rw [gradCacheMultiGet, hcmds]
          exact hinv.cons ⟨rfl, hholds⟩
        · exact hpush
  | gradient w h' c1 c2 type angle => exact gradPush_inv hgen (h.cons trivial) hsafe
  | draw => exact gradPush_inv hgen (h.cons trivial) hsafe
  | flush => exact gradFlush_inv hgen h hsafe
  | beginFrame => exact (h.setCmds []).weaken fun c hc => absurd hc List.not_mem_nil

theorem foldl_step_inv (hgen : FreshNames gen) :
    ∀ {events : List GradEvent} {r : GradState}, GradInv r r.cmds → SafeGradRun gen r events →
      GradInv (events.foldl (GradState.step gen) r) (events.foldl (GradState.step gen) r).cmds
  | [], _, h, _ => h
  | e :: es, r, h, ⟨hsafe, hsafes⟩ => by
      have hnext := r.step_inv hgen h hsafe
      rw [List.foldl_cons]
      exact foldl_step_inv hgen hnext hsafes

theorem emptyCache_inv : GradInv {} [] := by
  refine ⟨?_, ?_, ?_, ?_⟩
  · intro i hi
    exact absurd rfl hi
  · intro i j hi
    exact absurd rfl hi
  · intro c hc
    exact absurd hc List.not_mem_nil
  · intro u hu
    exact absurd hu List.not_mem_nil

end Steps

/-- In every run in which no lookup misses onto a slot whose texture a command still needs and
no two gradients share a key, every executed command and every hit finds the texture of its
gradient. -/
theorem gradRun_uses_valid {gen : Nat → GradTextures → Nat} (hgen : FreshNames gen)
    (events : List GradEvent) (hsafe : SafeGradRun gen {} events) :
    ∀ u ∈ (gradRun gen events).uses, u.Valid :=
  (foldl_step_inv hgen emptyCache_inv hsafe).uses

/-! ## More gradients than slots -/

/-- A name above all that are in use. -/
def nextName (_ : Nat) (textures : GradTextures) : Nat := textures.keys.foldr max 0 + 1

theorem nextName_fresh : FreshNames nextName := by
  intro n textures
  refine ⟨Nat.succ_ne_zero _, ?_⟩
  intro hmem
  have hle : ∀ (names : List Nat), ∀ a ∈ names, a ≤ names.foldr max 0 := by
    intro names
    induction names with
    | nil =>
        intro a ha
        exact absurd ha List.not_mem_nil
    | cons b names ih =>
        intro a ha
        rcases List.mem_cons.1 ha with rfl | ha
        · exact le_max_left _ _
        · exact (ih a ha).trans (le_max_right _ _)
  have hbound := hle textures.keys _ (AList.mem_keys.2 hmem)
  unfold nextName at hbound
  omega

/-- Gradients of ten pixels that differ in the offset of their stop. -/
def gradientNumber (n : Nat) : GradEvent :=
  .gradientMulti 10 10 [⟨UInt32.ofNat n, 0, 0, 0, 0⟩] 1 0

/-- One gradient that is drawn twice. -/
theorem gradRun_uses_valid_twice :
    (gradRun nextName [gradientNumber 1, gradientNumber 1, .flush]).uses.length = 3 ∧
      ∀ u ∈ (gradRun nextName [gradientNumber 1, gradientNumber 1, .flush]).uses, u.Valid := by
  refine ⟨by decide +kernel, ?_⟩
  apply gradRun_uses_valid nextName_fresh
  refine ⟨?_, ?_, ?_, trivial⟩ <;> decide +kernel

/-- Seventeen gradients between two flushes: the texture of the first is deleted before its
command is executed. -/
theorem seventeenth_gradient_deletes :
    ¬ ∀ u ∈ (gradRun nextName (((List.range 17).map gradientNumber) ++ [.flush])).uses,
      u.Valid := by
  decide +kernel

end TinyFramework.Render
