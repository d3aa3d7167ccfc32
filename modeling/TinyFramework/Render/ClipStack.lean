/-
  Render/ClipStack.lean --- the clip commands of the renderer.

  A push cuts the new rectangle to the top of a stack of 32, a pop takes the top off, and
  the scissor rectangle is the top of the stack.  The stencil test is one switch for all
  rounded clips.  Coordinates are exact and there is no transform, so the corners of a
  rectangle are where it says.
-/
import Mathlib.Tactic.Linarith
import Mathlib.Tactic.Ring

set_option autoImplicit false

namespace TinyFramework.Render

universe u

/-- `MiniClipRect`, and the rectangle of a command. -/
structure Rect (R : Type u) where
  x : R
  y : R
  w : R
  h : R
  deriving DecidableEq, Repr

/-- An entry of `r->clip`. -/
structure ClipEntry (R : Type u) where
  rect : Rect R
  stencil : Bool
  deriving DecidableEq, Repr

/-- The commands of the buffer; whatever else draws is `draw`. -/
inductive ClipCmd (R : Type u) where
  | pushClip (r : Rect R)
  | pushRoundedClip (r : Rect R)
  | popClip
  | draw
  deriving DecidableEq, Repr

/-- `r->clip` up to `r->clip_top`, the top first, and the GL state it governs: the scissor
rectangle from the lower edge of the viewport when the test is enabled, and the stencil
test. -/
structure ClipState (R : Type u) where
  height : R
  stencilBits : Bool
  clip : List (ClipEntry R) := []
  scissor : Option (Rect R) := none
  stencilTest : Bool := false
  deriving DecidableEq, Repr

/-- `MINI_CLIP_DEPTH` -/
def miniClipDepth : Nat := 32

section Source

variable {R : Type u} [CommRing R] [LinearOrder R]

/-- The part of a new rectangle inside the top of the stack. -/
def clipWithin (a b : Rect R) : Rect R :=
  let nx := max a.x b.x
  let ny := max a.y b.y
  let nr := min (a.x + a.w) (b.x + b.w)
  let nb := min (a.y + a.h) (b.y + b.h)
  { x := nx
    y := ny
    w := if nx < nr then nr - nx else 0
    h := if ny < nb then nb - ny else 0 }

/-- The arguments of `glScissor` for a rectangle. -/
def scissorOf (height : R) (r : Rect R) : Rect R :=
  let w := max r.w 0
  let h := max r.h 0
  { x := r.x, y := max (height - (r.y + h)) 0, w := w, h := h }

/-- `apply_clip` -/
def applyClip (s : ClipState R) : ClipState R :=
  { s with scissor := s.clip.head?.map fun top => scissorOf s.height top.rect }

/-- The push of `MINI_CMD_PUSH_CLIP` and `MINI_CMD_PUSH_ROUNDED_CLIP`. -/
def pushEntry (s : ClipState R) (r : Rect R) (stencil : Bool) : ClipState R :=
  if s.clip.length < miniClipDepth then
    let rect := match s.clip with
      | [] => r
      | top :: _ => clipWithin top.rect r
    { s with clip := ⟨rect, stencil⟩ :: s.clip }
  else s

/-- `mini_exec_cmd` for the clip commands. -/
def execClip (s : ClipState R) : ClipCmd R → ClipState R
  | .pushClip r => applyClip (pushEntry s r false)
  | .pushRoundedClip r =>
      let s := applyClip (pushEntry s r true)
      if s.stencilBits then { s with stencilTest := true } else s
  | .popClip =>
      match s.clip with
      | [] => applyClip s
      | top :: rest =>
          applyClip { s with
            clip := rest
            stencilTest := if top.stencil then false else s.stencilTest }
  | .draw => s

/-- The state after a list of commands of a frame. -/
def execClips (height : R) (stencilBits : Bool) (cmds : List (ClipCmd R)) : ClipState R :=
  cmds.foldl execClip { height := height, stencilBits := stencilBits }

end Source

/-! ## What the commands ask for -/

section Model

variable {R : Type u} [CommRing R] [LinearOrder R]

def Rect.Contains (r : Rect R) (p : R × R) : Prop :=
  (r.x ≤ p.1 ∧ p.1 < r.x + r.w) ∧ r.y ≤ p.2 ∧ p.2 < r.y + r.h

/-- The clips that are open, the innermost first, each with whether it is rounded. -/
abbrev Opened (R : Type u) := List (Rect R × Bool)

def Opened.step (o : Opened R) : ClipCmd R → Opened R
  | .pushClip r => (r, false) :: o
  | .pushRoundedClip r => (r, true) :: o
  | .popClip => o.tail
  | .draw => o

def openedBy (cmds : List (ClipCmd R)) : Opened R := cmds.foldl Opened.step []

/-- A point inside all clips that are open. -/
def Opened.Common (o : Opened R) (p : R × R) : Prop := ∀ c ∈ o, c.1.Contains p

/-- A point that passes the scissor test; its second coordinate is from the upper edge. -/
def ClipState.Passes (s : ClipState R) (p : R × R) : Prop :=
  ∀ sc ∈ s.scissor, Rect.Contains ⟨sc.x, s.height - (sc.y + sc.h), sc.w, sc.h⟩ p

/-- The scissor rectangle is the common part of the open clips, the test is off exactly when
none is open, and the stencil test is on exactly when one of them is rounded. -/
structure Clipped (s : ClipState R) (o : Opened R) : Prop where
  scissor : ∀ p, s.Passes p ↔ o.Common p
  disabled : s.scissor = none ↔ o = []
  stencil : s.stencilTest = true ↔ ∃ c ∈ o, c.2 = true

/-- No pop without an open clip. -/
def Nested : Opened R → List (ClipCmd R) → Prop
  | _, [] => True
  | o, cmd :: cmds => (cmd = .popClip → o ≠ []) ∧ Nested (o.step cmd) cmds

/-- Nothing of what the open clips have in common lies below the viewport. -/
def Opened.Above (height : R) (o : Opened R) : Prop := ∀ p, o.Common p → p.2 < height

/-- There is room for a pushed clip and it ends above the lower edge; a rounded clip finds a
stencil buffer; and with a rounded clip that is popped no other one stays open. -/
def SafeClip (height : R) (stencilBits : Bool) (o : Opened R) : ClipCmd R → Prop
  | .pushClip r => o.length < miniClipDepth ∧ Opened.Above height ((r, false) :: o)
  | .pushRoundedClip r =>
      (o.length < miniClipDepth ∧ Opened.Above height ((r, true) :: o)) ∧ stencilBits = true
  | .popClip => (∃ c ∈ o.head?, c.2 = true) → ∀ c ∈ o.tail, c.2 = false
  | .draw => True

def SafeClips (height : R) (stencilBits : Bool) : Opened R → List (ClipCmd R) → Prop
  | _, [] => True
  | o, cmd :: cmds =>
      SafeClip height stencilBits o cmd ∧ SafeClips height stencilBits (o.step cmd) cmds

end Model

/-! ## Rectangles -/

section Rectangles

variable {R : Type u} [CommRing R] [LinearOrder R]

/-- A half-open interval cut to another one. -/
theorem mem_cut {a b c d p : R} :
    (max a c ≤ p ∧ p < max a c + if max a c < min b d then min b d - max a c else 0) ↔
      (a ≤ p ∧ p < b) ∧ c ≤ p ∧ p < d := by
  rw [max_le_iff]
  split_ifs with hlt
  · rw [add_sub_cancel, lt_min_iff]
    tauto
  · rw [add_zero, lt_max_iff]
    constructor
    · rintro ⟨⟨ha, hc⟩, hp | hp⟩
      · exact absurd hp (not_lt.2 ha)
      · exact absurd hp (not_lt.2 hc)
    · rintro ⟨⟨ha, hb⟩, hc, hd⟩
      exact absurd (lt_of_le_of_lt (max_le ha hc) (lt_min hb hd)) hlt

theorem clipWithin_contains (a b : Rect R) (p : R × R) :
    (clipWithin a b).Contains p ↔ a.Contains p ∧ b.Contains p := by
  unfold clipWithin Rect.Contains
  rw [mem_cut, mem_cut]
  tauto

variable [IsStrictOrderedRing R]

theorem lt_add_max_iff {a b p : R} (ha : a ≤ p) : p < a + max b 0 ↔ p < a + b := by
  rcases le_total 0 b with hb | hb
  · rw [max_eq_left hb]
  · rw [max_eq_right hb, add_zero]
    exact iff_of_false (not_lt.2 ha) (not_lt.2 (by linarith))

/-- The scissor rectangle of a rectangle above the lower edge passes its points. -/
theorem scissorOf_contains {height : R} {r : Rect R} (h : ∀ p, r.Contains p → p.2 < height)
    (p : R × R) :
    Rect.Contains ⟨(scissorOf height r).x,
        height - ((scissorOf height r).y + (scissorOf height r).h), (scissorOf height r).w,
        (scissorOf height r).h⟩ p ↔ r.Contains p := by
  have hx : (r.x ≤ p.1 ∧ p.1 < r.x + max r.w 0) ↔ (r.x ≤ p.1 ∧ p.1 < r.x + r.w) :=
    and_congr_right lt_add_max_iff
  unfold scissorOf
  dsimp only [Rect.Contains]
  rw [hx]
  refine and_congr_right fun hpx => ?_
  rcases le_or_gt (r.y + max r.h 0) height with hfit | hbelow
  · have htop : height - (max (height - (r.y + max r.h 0)) 0 + max r.h 0) = r.y := by
      rw [max_eq_left (by linarith)]
      ring
    rw [htop]
    exact and_congr_right lt_add_max_iff
  · -- nothing is as high as that, so the rectangle has no points
    rw [max_eq_right (by linarith)]
    have hempty : r.h ≤ 0 := by
      by_contra hpos
      rw [max_eq_left (le_of_not_ge hpos)] at hbelow
      have hpoint := h (p.1, max r.y height) ⟨hpx, le_max_left _ _,
        max_lt (by linarith) hbelow⟩
      exact absurd hpoint (not_lt.2 (le_max_right _ _))
    rw [max_eq_right hempty]
    refine iff_of_false ?_ ?_
    · rintro ⟨hlow, hhigh⟩
      linarith
    · rintro ⟨hlow, hhigh⟩
      linarith

end Rectangles

/-! ## The stack -/

section Stack

variable {R : Type u} [CommRing R] [LinearOrder R]

/-- The entries of the stack against the open clips: every entry is the common part of the
clips from its own one outwards. -/
def Stacked (height : R) : List (ClipEntry R) → Opened R → Prop
  | [], [] => True
  | e :: es, c :: cs =>
      (∀ p, e.rect.Contains p ↔ Opened.Common (c :: cs) p) ∧ e.stencil = c.2 ∧
        Opened.Above height (c :: cs) ∧ Stacked height es cs
  | _, _ => False

theorem Stacked.length_eq {height : R} :
    ∀ {es : List (ClipEntry R)} {o : Opened R}, Stacked height es o → es.length = o.length
  | [], [], _ => rfl
  | _ :: _, _ :: _, ⟨_, _, _, htail⟩ => congrArg (· + 1) htail.length_eq

/-- What holds between two commands. -/
structure ClipInv (height : R) (stencilBits : Bool) (s : ClipState R) (o : Opened R) :
    Prop where
  height_eq : s.height = height
  bits_eq : s.stencilBits = stencilBits
  stacked : Stacked height s.clip o
  scissor_eq : s.scissor = s.clip.head?.map fun top => scissorOf s.height top.rect
  stencil : s.stencilTest = true ↔ ∃ c ∈ o, c.2 = true

end Stack

section Steps

variable {R : Type u} [CommRing R] [LinearOrder R]

/-- A push for which there is room puts the common part on the stack. -/
theorem pushEntry_stacked {height : R} {s : ClipState R} {o : Opened R} (r : Rect R)
    (rounded : Bool) (hstacked : Stacked height s.clip o) (hroom : o.length < miniClipDepth)
    (habove : Opened.Above height ((r, rounded) :: o)) :
    Stacked height (pushEntry s r rounded).clip ((r, rounded) :: o) := by
  have hlength : s.clip.length < miniClipDepth := by
    rw [hstacked.length_eq]
    exact hroom
  unfold pushEntry
  rw [if_pos hlength]
  refine ⟨?_, rfl, habove, hstacked⟩
  intro p
  match hclip : s.clip, o, hstacked with
  | [], [], _ => simp [Opened.Common]
  | top :: rest, c :: cs, ⟨hrect, _⟩ =>
      dsimp only
      rw [clipWithin_contains, hrect p, and_comm]
      constructor
      · rintro ⟨hnew, hold⟩ d hd
        rcases List.mem_cons.1 hd with rfl | hd
        · exact hnew
        · exact hold d hd
      · intro hall
        exact ⟨hall _ List.mem_cons_self, fun d hd => hall d (List.mem_cons_of_mem _ hd)⟩

@[simp] theorem pushEntry_frame (s : ClipState R) (r : Rect R) (rounded : Bool) :
    (pushEntry s r rounded).height = s.height ∧
      (pushEntry s r rounded).stencilBits = s.stencilBits ∧
      (pushEntry s r rounded).stencilTest = s.stencilTest := by
  unfold pushEntry
  split_ifs <;> exact ⟨rfl, rfl, rfl⟩

theorem execClip_inv {height : R} {stencilBits : Bool} {s : ClipState R} {o : Opened R}
    {cmd : ClipCmd R} (h : ClipInv height stencilBits s o) (hopen : cmd = .popClip → o ≠ [])
    (hsafe : SafeClip height stencilBits o cmd) :
    ClipInv height stencilBits (execClip s cmd) (o.step cmd) := by
  obtain ⟨hheight, hbits, hstacked, hscissor, hstencil⟩ := h
  cases cmd with
  | pushClip r =>
      obtain ⟨hroom, habove⟩ := hsafe
      obtain ⟨hheight', hbits', htest'⟩ := pushEntry_frame s r false
      refine ⟨hheight'.trans hheight, hbits'.trans hbits,
        pushEntry_stacked r false hstacked hroom habove, rfl, ?_⟩
      have htest : (execClip s (.pushClip r)).stencilTest = s.stencilTest := htest'
      rw [htest, hstencil]
      simp [Opened.step]
  | pushRoundedClip r =>
      obtain ⟨⟨hroom, habove⟩, hhas⟩ := hsafe
      obtain ⟨hheight', hbits', -⟩ := pushEntry_frame s r true
      have hset : execClip s (.pushRoundedClip r) =
          { applyClip (pushEntry s r true) with stencilTest := true } := by
        have hcond : (applyClip (pushEntry s r true)).stencilBits = true :=
          (hbits'.trans hbits).trans hhas
        dsimp only [execClip]
        rw [if_pos hcond]
      rw [hset]
      refine ⟨hheight'.trans hheight, hbits'.trans hbits,
        pushEntry_stacked r true hstacked hroom habove, rfl, ?_⟩
      exact iff_of_true rfl ⟨_, List.mem_cons_self, rfl⟩
  | popClip =>
      match hclip : s.clip, o, hstacked with
      | [], [], _ => exact absurd rfl (hopen rfl)
      | top :: rest, c :: cs, ⟨_, hflag, _, htail⟩ =>
          have hpop : execClip s .popClip = applyClip { s with
              clip := rest
              stencilTest := if top.stencil then false else s.stencilTest } := by
            unfold execClip
            rw [hclip]
          rw [hpop]
          refine ⟨hheight, hbits, htail, rfl, ?_⟩
          change (if top.stencil then false else s.stencilTest) = true ↔ ∃ d ∈ cs, d.2 = true
          cases hrounded : c.2 with
          | true =>
              -- the pop switches the test off, and no rounded clip is left
              have hplain := hsafe ⟨c, rfl, hrounded⟩
              rw [hflag.trans hrounded, if_pos rfl]
              refine iff_of_false Bool.false_ne_true ?_
              rintro ⟨d, hd, hdr⟩
              exact Bool.false_ne_true ((hplain d hd).symm.trans hdr)
          | false =>
              rw [hflag.trans hrounded, if_neg Bool.false_ne_true, hstencil]
              simp [hrounded]
  | draw => exact ⟨hheight, hbits, hstacked, hscissor, hstencil⟩

theorem foldl_execClip_inv {height : R} {stencilBits : Bool} :
    ∀ {cmds : List (ClipCmd R)} {s : ClipState R} {o : Opened R},
      ClipInv height stencilBits s o → Nested o cmds → SafeClips height stencilBits o cmds →
        ClipInv height stencilBits (cmds.foldl execClip s) (cmds.foldl Opened.step o)
  | [], _, _, h, _, _ => h
  | cmd :: cmds, s, o, h, ⟨hopen, hnested⟩, ⟨hsafe, hsafes⟩ => by
      have hnext := execClip_inv h hopen hsafe
      rw [List.foldl_cons, List.foldl_cons]
      exact foldl_execClip_inv hnext hnested hsafes

theorem frame_start (height : R) (stencilBits : Bool) :
    ClipInv height stencilBits { height := height, stencilBits := stencilBits } [] :=
  ⟨rfl, rfl, trivial, rfl, by simp⟩

variable [IsStrictOrderedRing R]

theorem ClipInv.clipped {height : R} {stencilBits : Bool} {s : ClipState R} {o : Opened R}
    (h : ClipInv height stencilBits s o) : Clipped s o := by
  obtain ⟨hheight, -, hstacked, hscissor, hstencil⟩ := h
  refine ⟨?_, ?_, hstencil⟩
  · intro p
    unfold ClipState.Passes
    rw [hscissor]
    match hclip : s.clip, o, hstacked with
    | [], [], _ =>
        constructor
        · intro _ c hc
          cases hc
        · intro _ sc hsc
          cases hsc
    | top :: rest, c :: cs, htop =>
        rw [hclip] at hstacked
        obtain ⟨hrect, -, habove, -⟩ := htop
        have hinside : ∀ p, top.rect.Contains p → p.2 < s.height := by
          intro q hq
          rw [hheight]
          exact habove q ((hrect q).1 hq)
        have hpasses := scissorOf_contains hinside p
        rw [← hrect p, ← hpasses]
        constructor
        · intro hall
          exact hall _ rfl
        · intro hin sc hsc
          cases hsc
          exact hin
  · rw [hscissor]
    match hclip : s.clip, o, hstacked with
    | [], [], _ => exact iff_of_true rfl rfl
    | top :: rest, c :: cs, _ =>
        exact iff_of_false (Option.some_ne_none _) (List.cons_ne_nil _ _)

/-- After any properly nested commands whose pushes find room and end above the lower edge
and whose rounded clips do not nest, what is drawn next is clipped to exactly the open
clips. -/
theorem draw_clipped (height : R) (stencilBits : Bool) (cmds : List (ClipCmd R))
    (hnested : Nested [] cmds) (hsafe : SafeClips height stencilBits [] cmds) :
    Clipped (execClips height stencilBits cmds) (openedBy cmds) :=
  (foldl_execClip_inv (frame_start height stencilBits) hnested hsafe).clipped

/-- A plain clip in a rounded one, and another plain one after both. -/
theorem draw_clipped_mixed :
    Clipped (execClips (600 : ℚ) true
        [.pushRoundedClip ⟨0, 0, 100, 100⟩, .pushClip ⟨50, 50, 100, 100⟩, .popClip])
      [(⟨0, 0, 100, 100⟩, true)] := by
  apply draw_clipped (600 : ℚ) true
    [.pushRoundedClip ⟨0, 0, 100, 100⟩, .pushClip ⟨50, 50, 100, 100⟩, .popClip]
  · simp [Nested, Opened.step]
  · refine ⟨⟨⟨by decide, ?_⟩, rfl⟩, ⟨by decide, ?_⟩, ?_, trivial⟩
    · intro p hp
      have hin := (hp _ List.mem_cons_self).2.2
      norm_num at hin ⊢
      linarith
    · intro p hp
      have hin := (hp _ List.mem_cons_self).2.2
      norm_num at hin ⊢
      linarith
    · rintro ⟨c, hc, hrounded⟩
      cases hc
      cases hrounded

/-- When the inner one of two rounded clips is popped, the stencil test goes off though the
outer one is open. -/
theorem inner_pop_stops_stencil :
    ¬ Clipped (execClips (600 : ℚ) true
        [.pushRoundedClip ⟨0, 0, 100, 100⟩, .pushRoundedClip ⟨10, 10, 50, 50⟩, .popClip])
      (openedBy [.pushRoundedClip (⟨0, 0, 100, 100⟩ : Rect ℚ),
        .pushRoundedClip ⟨10, 10, 50, 50⟩, .popClip]) := by
  intro h
  have hon := h.stencil.2 ⟨_, List.mem_cons_self, rfl⟩
  exact Bool.false_ne_true hon

end Steps

end TinyFramework.Render
