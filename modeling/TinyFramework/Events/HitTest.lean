/-
  Events/HitTest.lean --- hit-testing against the order of painting.

  `render_node` and `render_children_z` give the elements in the order in which they are
  painted, `hit_rec` looks for one from the last to the first.  Of a node's style the two
  read the box, what hides or clips it, and its place in the order; the drawing itself is
  left out, and the coordinates are exact.

  The two go different ways at shadow roots, slots, and elements that draw their content
  themselves.  That does no harm where they still end at the same child, on the way that
  the point takes.
-/
import Mathlib.Tactic.Linarith
import TinyFramework.Dom.Mutation
import TinyFramework.Foundation.Stacking
import TinyFramework.Foundation.Walk

set_option autoImplicit false

namespace TinyFramework.Events

open TinyFramework.Foundation TinyFramework.Dom

/-- The fields of `MiniStyle` that decide where a node is painted and hit. -/
structure BoxStyle where
  display : Nat := 0
  position : Nat := 0
  overflow : Nat := 0
  pointerEvents : Nat := 0
  zIndex : Int := 0
  absX : ℚ := 0
  absY : ℚ := 0
  w : ℚ := 0
  h : ℚ := 0
  deriving DecidableEq

/-- `MINI_DISPLAY_NONE` -/
def displayNone : Nat := 2

/-- The box contains a point; its edges belong to it. -/
def BoxStyle.Contains (s : BoxStyle) (x y : ℚ) : Prop :=
  s.absX ≤ x ∧ x ≤ s.absX + s.w ∧ s.absY ≤ y ∧ y ≤ s.absY + s.h

instance (s : BoxStyle) (x y : ℚ) : Decidable (s.Contains x y) :=
  inferInstanceAs (Decidable (_ ∧ _ ∧ _ ∧ _))

/-- A document that is laid out. -/
structure Scene where
  heap : NodeHeap
  style : NodeId → BoxStyle
  body : Option NodeId
  scrollX : ℚ
  scrollY : ℚ

namespace Scene

variable (scene : Scene)

def tagIs (n : NodeId) (tag : String) : Bool := (scene.heap.node n).tag == some (ascii tag)

/-! ## Painting -/

/-- `render_children_z`: the first 256 children, stably sorted by `z_index`. -/
def childrenZ (n : NodeId) : List NodeId :=
  shiftSort (ascending fun c => (scene.style c).zIndex) ((children scene.heap n).take 256)

/-- `slot_host` -/
def slotHost (slot : NodeId) : Option NodeId :=
  ((ancestors scene.heap.parentOf scene.heap.size slot).tail.find?
    fun n => scene.tagIs n "#shadow-root").bind fun n => scene.heap.parentOf n

/-- The child lies outside its clipping parent. -/
def culled (n : NodeId) : Bool :=
  match scene.heap.parentOf n with
  | none => false
  | some p =>
      let ps := scene.style p
      let s := scene.style n
      ps.overflow == 1 && s.position != 3 &&
        (decide (ps.absX + ps.w < s.absX) || decide (s.absX + s.w < ps.absX) ||
          decide (ps.absY + ps.h < s.absY) || decide (s.absY + s.h < ps.absY))

/-- The nodes that `render_node` goes on to. -/
def renderNext (n : NodeId) : List NodeId :=
  if scene.tagIs n "svg" || scene.tagIs n "textarea" || scene.tagIs n "select" then []
  else
    match (scene.heap.node n).shadowRoot with
    | some root => [root]
    | none =>
        if scene.tagIs n "slot" then
          match scene.slotHost n with
          | some host =>
              let light := (children scene.heap host).filter
                fun c => (scene.heap.node c).type == .elementNode
              if light.isEmpty then children scene.heap n else light
          | none => children scene.heap n
        else scene.childrenZ n

/-- `render_node`: the boxes it paints, in order; the bound is on the depth. -/
def renderNode : Nat → NodeId → List NodeId
  | 0, _ => []
  | fuel + 1, n =>
      let type := (scene.heap.node n).type
      if type ≠ .elementNode ∧ type ≠ .documentFragmentNode then []
      else if (scene.style n).display = displayNone then []
      else if scene.culled n then []
      else n :: (scene.renderNext n).flatMap (renderNode fuel)

/-! ## Hit-testing -/

/-- The accumulated clip of `hit_rec`. -/
structure ClipRect where
  x0 : ℚ
  y0 : ℚ
  x1 : ℚ
  y1 : ℚ

def ClipRect.Contains (c : ClipRect) (x y : ℚ) : Prop :=
  c.x0 ≤ x ∧ x ≤ c.x1 ∧ c.y0 ≤ y ∧ y ≤ c.y1

instance (c : ClipRect) (x y : ℚ) : Decidable (c.Contains x y) :=
  inferInstanceAs (Decidable (_ ∧ _ ∧ _ ∧ _))

/-- The clip inside a box. -/
def ClipRect.within (c : ClipRect) (s : BoxStyle) : ClipRect :=
  { x0 := if c.x0 < s.absX then s.absX else c.x0
    y0 := if c.y0 < s.absY then s.absY else c.y0
    x1 := if s.absX + s.w < c.x1 then s.absX + s.w else c.x1
    y1 := if s.absY + s.h < c.y1 then s.absY + s.h else c.y1 }

/-- `collect_children_zdesc` -/
def collectChildrenZdesc (n : NodeId) : List NodeId :=
  shiftSort (descending fun c => (scene.style c).zIndex) ((children scene.heap n).take 256)

/-- `hit_rec`; the bound is on the depth. -/
def hitRec (x y : ℚ) : Nat → NodeId → ClipRect → Option NodeId
  | 0, _, _ => none
  | fuel + 1, n, clip =>
      let type := (scene.heap.node n).type
      let s := scene.style n
      if s.display = displayNone then none
      else
        let testX := if s.position = 3 ∨ s.position = 4 then x else x + scene.scrollX
        let testY := if s.position = 3 ∨ s.position = 4 then y else y + scene.scrollY
        let inner := if s.overflow = 1 then clip.within s else clip
        let kids :=
          if type = .elementNode ∨ type = .documentFragmentNode ∨ type = .documentNode then
            scene.collectChildrenZdesc n
          else []
        let hit :=
          if inner.Contains testX testY then kids.findSome? fun c => hitRec x y fuel c inner
          else none
        match hit with
        | some h => some h
        | none =>
            if type = .elementNode ∧ s.pointerEvents ≠ 1 ∧ 0 < s.w ∧ 0 < s.h ∧
                s.Contains testX testY ∧ clip.Contains testX testY then some n
            else none

/-- The clip a hit test begins with. -/
def ClipRect.start : ClipRect := ⟨-1000000000, -1000000000, 1000000000, 1000000000⟩

/-- `mini_dom_hit_test_doc` -/
def miniDomHitTestDoc (x y : ℚ) : Option NodeId :=
  scene.body.bind fun body => scene.hitRec x y scene.heap.size body .start

/-! ## What hit-testing is for -/

/-- An element that the pointer can hit at a point. -/
def Target (x y : ℚ) (n : NodeId) : Prop :=
  (scene.heap.node n).type = .elementNode ∧ (scene.style n).pointerEvents ≠ 1 ∧
    0 < (scene.style n).w ∧ 0 < (scene.style n).h ∧ (scene.style n).Contains x y

/-- No clipping box around `n` excludes the point. -/
def Unclipped (x y : ℚ) (n : NodeId) : Prop :=
  ∀ a, Below scene.heap.parentOf n a → a ≠ n → (scene.style a).overflow = 1 →
    (scene.style a).Contains x y

def Candidate (x y : ℚ) (n : NodeId) : Prop :=
  scene.Target x y n ∧ scene.Unclipped x y n

/-- The boxes of a document in the order in which they are painted, down to a depth. -/
def paintOrder (depth : Nat) : List NodeId :=
  match scene.body with
  | some body => scene.renderNode depth body
  | none => []

/-! ## Where the two agree -/

/-- `hit_rec` goes on to the children of a node. -/
def Enters (x y : ℚ) (n : NodeId) : Prop :=
  (scene.style n).display ≠ displayNone ∧
    ((scene.heap.node n).type = .elementNode ∨ (scene.heap.node n).type = .documentFragmentNode ∨
      (scene.heap.node n).type = .documentNode) ∧
    ((scene.style n).overflow = 1 → (scene.style n).Contains x y)

/-- Something can be hit at or below a node. -/
inductive Hittable (x y : ℚ) : NodeId → Prop
  | self {n : NodeId} (hd : (scene.style n).display ≠ displayNone) (h : scene.Target x y n) :
      Hittable x y n
  | child {n c : NodeId} (hn : scene.Enters x y n) (hc : c ∈ scene.childrenZ n)
      (h : Hittable x y c) : Hittable x y n

/-- `render_node` paints a node. -/
def Painted (n : NodeId) : Prop :=
  ((scene.heap.node n).type = .elementNode ∨ (scene.heap.node n).type = .documentFragmentNode) ∧
    (scene.style n).display ≠ displayNone ∧ scene.culled n = false

/-- A node is painted at or below another one. -/
inductive Paints : NodeId → NodeId → Prop
  | self {n : NodeId} (hn : scene.Painted n) : Paints n n
  | next {n r m : NodeId} (hn : scene.Painted n) (hr : r ∈ scene.renderNext n) (h : Paints r m) :
      Paints n m

/-- What counts at the point and is painted below `n` ends with what is painted of `c`. -/
inductive EndsIn (x y : ℚ) (c : NodeId) : NodeId → Prop
  | here : EndsIn x y c c
  | next {n r : NodeId} {front back : List NodeId} (hn : scene.Painted n)
      (hr : scene.renderNext n = front ++ r :: back)
      (hback : ∀ b ∈ back, ∀ m, scene.Paints b m → ¬ scene.Candidate x y m)
      (h : EndsIn x y c r) : EndsIn x y c n

/-- The way of the point from `n` on is that of painting.  It ends where no child can be hit and
nothing that is painted below counts; it goes on with the last child that can be hit, where the
painting ends in this one. -/
inductive Mirrored (x y : ℚ) : NodeId → Prop
  | leaf {n : NodeId}
      (hkids : scene.Enters x y n → ∀ c ∈ scene.childrenZ n, ¬ scene.Hittable x y c)
      (hpaint : ∀ r ∈ scene.renderNext n, ∀ m, scene.Painted n → scene.Paints r m →
        ¬ scene.Candidate x y m) : Mirrored x y n
  | child {n c : NodeId} {front back : List NodeId} (hn : scene.Enters x y n)
      (hkids : scene.childrenZ n = front ++ c :: back)
      (hback : ∀ b ∈ back, ¬ scene.Hittable x y b) (hc : scene.Hittable x y c)
      (hends : scene.EndsIn x y c n) (h : Mirrored x y c) : Mirrored x y n

/-- A node without children that could be hit. -/
def Leafy (scene : Scene) (n : NodeId) : Prop :=
  ∀ c ∈ children scene.heap n, (scene.heap.node c).type ≠ .elementNode ∧
    (scene.heap.node c).type ≠ .documentFragmentNode ∧ (scene.heap.node c).type ≠ .documentNode

instance (scene : Scene) (n : NodeId) : Decidable (scene.Leafy n) :=
  inferInstanceAs (Decidable (∀ c ∈ children scene.heap n, _ ∧ _ ∧ _))

/-- Painting and hit-testing go on from a node to the same children. -/
structure Plain (scene : Scene) (n : NodeId) : Prop where
  shadow : (scene.heap.node n).shadowRoot = none
  document : (scene.heap.node n).type ≠ .documentNode
  special : (scene.tagIs n "svg" || scene.tagIs n "textarea" || scene.tagIs n "select") = true →
    scene.Leafy n
  slot : scene.tagIs n "slot" = true → scene.slotHost n = none ∧
    (scene.childrenZ n = children scene.heap n ∨ scene.Leafy n)
  culled : scene.culled n = true → scene.Leafy n

/-- The nodes below `top` that are displayed. -/
inductive Displayed (scene : Scene) (top : NodeId) : NodeId → Prop
  | top (h : (scene.style top).display ≠ displayNone) : Displayed scene top top
  | child {n c : NodeId} (hn : Displayed scene top n) (hc : c ∈ children scene.heap n)
      (h : (scene.style c).display ≠ displayNone) : Displayed scene top c

variable {scene : Scene} {x y : ℚ} {n : NodeId} {fuel : Nat} {clip : ClipRect}

theorem ClipRect.within_contains {s : BoxStyle} :
    (clip.within s).Contains x y ↔ clip.Contains x y ∧ s.Contains x y := by
  unfold ClipRect.Contains ClipRect.within BoxStyle.Contains
  dsimp only
  constructor
  · rintro ⟨h0, h1, h2, h3⟩
    split_ifs at h0 h1 h2 h3 <;> exact ⟨⟨by linarith, by linarith, by linarith, by linarith⟩,
      by linarith, by linarith, by linarith, by linarith⟩
  · rintro ⟨⟨h0, h1, h2, h3⟩, h4, h5, h6, h7⟩
    refine ⟨?_, ?_, ?_, ?_⟩ <;> split_ifs <;> assumption

theorem mem_childrenZ {c : NodeId} (h : c ∈ scene.childrenZ n) : c ∈ children scene.heap n :=
  List.mem_of_mem_take (mem_shiftSort.1 h)

theorem mem_collectChildrenZdesc {c : NodeId} (h : c ∈ scene.collectChildrenZdesc n) :
    c ∈ children scene.heap n :=
  List.mem_of_mem_take (mem_shiftSort.1 h)

theorem collectChildrenZdesc_eq : scene.collectChildrenZdesc n = (scene.childrenZ n).reverse :=
  shiftSort_mirror (fun c => (scene.style c).zIndex) _

/-- From a plain node painting goes on to its children, if to any that count. -/
theorem Plain.renderNext (h : scene.Plain n) :
    (∀ c ∈ scene.renderNext n, c ∈ children scene.heap n) ∧
      (scene.renderNext n = scene.childrenZ n ∨ scene.Leafy n) := by
  unfold Scene.renderNext
  by_cases hspecial : (scene.tagIs n "svg" || scene.tagIs n "textarea" ||
      scene.tagIs n "select") = true
  · rw [if_pos hspecial]
    exact ⟨by simp, Or.inr (h.special hspecial)⟩
  · rw [if_neg hspecial, h.shadow]
    dsimp only
    by_cases hslot : scene.tagIs n "slot" = true
    · obtain ⟨hhost, hkids⟩ := h.slot hslot
      rw [if_pos hslot, hhost]
      exact ⟨fun c hc => hc, hkids.imp_left Eq.symm⟩
    · rw [if_neg hslot]
      exact ⟨fun c => mem_childrenZ, Or.inl rfl⟩

/-- A child is inside what clips it when its parent is, and is in the parent's own box. -/
theorem unclipped_child {c : NodeId}
    (hc : scene.heap.parentOf c = some n) (hn : scene.Unclipped x y n)
    (hbox : (scene.style n).overflow = 1 → (scene.style n).Contains x y) :
    scene.Unclipped x y c := by
  intro a hca hne
  have hna : Below scene.heap.parentOf n a := hca.of_parent_eq (Ne.symm hne) hc
  rcases eq_or_ne a n with rfl | han
  · exact hbox
  · exact hn a hna han

/-- What a clipping box excludes has no candidate in it. -/
theorem not_candidate_below (hac : Acyclic scene.heap.parentOf) {c m : NodeId}
    (hc : scene.heap.parentOf c = some n) (hm : Below scene.heap.parentOf m c)
    (hover : (scene.style n).overflow = 1) (hbox : ¬ (scene.style n).Contains x y) :
    ¬ scene.Candidate x y m := by
  rintro ⟨-, hclip⟩
  refine hbox (hclip n (hm.trans (Below.of_parent hc)) ?_ hover)
  rintro rfl
  exact hac.not_below_of_parent hc hm

/-- A culled box does not contain a point that its parent's box contains. -/
theorem not_contains_of_culled (hac : Acyclic scene.heap.parentOf)
    (hculled : scene.culled n = true) (hn : scene.Unclipped x y n) :
    ¬ (scene.style n).Contains x y := by
  rintro ⟨hx0, hx1, hy0, hy1⟩
  unfold culled at hculled
  cases hp : scene.heap.parentOf n with
  | none => simp [hp] at hculled
  | some p =>
    simp only [hp, Bool.and_eq_true, Bool.or_eq_true, beq_iff_eq, decide_eq_true_eq] at hculled
    obtain ⟨⟨hover, -⟩, hside⟩ := hculled
    have hne : p ≠ n := by
      rintro rfl
      exact hac.not_below_of_parent hp (Below.refl p)
    obtain ⟨hpx0, hpx1, hpy0, hpy1⟩ := hn p (Below.of_parent hp) hne hover
    rcases hside with ((h | h) | h) | h <;> linarith

instance : Decidable (scene.Target x y n) :=
  inferInstanceAs (Decidable (_ ∧ _ ∧ _ ∧ _ ∧ _))

instance : Decidable (scene.Enters x y n) := inferInstanceAs (Decidable (_ ∧ _ ∧ _))

instance : Decidable (scene.Painted n) := inferInstanceAs (Decidable (_ ∧ _ ∧ _))

/-- The clip for the children of `n`. -/
def innerClip (scene : Scene) (clip : ClipRect) (n : NodeId) : ClipRect :=
  if (scene.style n).overflow = 1 then clip.within (scene.style n) else clip

theorem innerClip_contains : (scene.innerClip clip n).Contains x y ↔ clip.Contains x y ∧
    ((scene.style n).overflow = 1 → (scene.style n).Contains x y) := by
  unfold innerClip
  split_ifs with hover
  · simp [ClipRect.within_contains, hover]
  · simp [hover]

/-- With nothing scrolled, inside of the clip a displayed node asks its children, then itself. -/
theorem hitRec_succ (hx : scene.scrollX = 0) (hy : scene.scrollY = 0) (hclip : clip.Contains x y) :
    scene.hitRec x y (fuel + 1) n clip =
      if (scene.style n).display = displayNone then none
      else
        (if scene.Enters x y n then
            (scene.childrenZ n).reverse.findSome?
              fun c => scene.hitRec x y fuel c (scene.innerClip clip n)
          else none).or
        (if scene.Target x y n then some n else none) := by
  rw [hitRec]
  by_cases hdisplay : (scene.style n).display = displayNone
  · simp only [hdisplay, if_true]
  have hinner : (if (scene.style n).overflow = 1 then clip.within (scene.style n) else clip) =
      scene.innerClip clip n := rfl
  have hin : (scene.innerClip clip n).Contains x y ↔ clip.Contains x y ∧
      ((scene.style n).overflow = 1 → (scene.style n).Contains x y) := innerClip_contains
  simp only [hx, hy, add_zero, ite_self, if_neg hdisplay, hinner, collectChildrenZdesc_eq]
  have htarget : ((scene.heap.node n).type = .elementNode ∧ (scene.style n).pointerEvents ≠ 1 ∧
      0 < (scene.style n).w ∧ 0 < (scene.style n).h ∧ (scene.style n).Contains x y ∧
        clip.Contains x y) ↔ scene.Target x y n := by
    unfold Target
    tauto
  simp only [htarget]
  have hkids : (if (scene.innerClip clip n).Contains x y then
        (if (scene.heap.node n).type = .elementNode ∨
            (scene.heap.node n).type = .documentFragmentNode ∨
            (scene.heap.node n).type = .documentNode then (scene.childrenZ n).reverse
          else []).findSome? fun c => scene.hitRec x y fuel c (scene.innerClip clip n)
      else none) =
      if scene.Enters x y n then
        (scene.childrenZ n).reverse.findSome?
          fun c => scene.hitRec x y fuel c (scene.innerClip clip n)
      else none := by
    unfold Enters
    split_ifs <;> simp_all
  rw [← hkids]
  split
  · rename_i _ _ hhit
    rw [hhit]
    rfl
  · rename_i _ hhit
    rw [hhit]
    rfl

/-- With room for everything below `n`, one more level changes nothing. -/
theorem hitRec_stable (hw : WellFormed scene.heap) {A : Finset NodeId}
    (hA : ∀ m, Below scene.heap.parentOf m n → m ∈ A) (hfuel : A.card ≤ fuel) :
    scene.hitRec x y (fuel + 1) n clip = scene.hitRec x y fuel n clip := by
  induction fuel generalizing n clip A with
  | zero =>
    have hn := hA n (Below.refl n)
    rw [Finset.card_eq_zero.1 (Nat.le_zero.1 hfuel)] at hn
    cases hn
  | succ fuel ih =>
    have hkids : ∀ (kids : List NodeId) (inner : ClipRect),
        (∀ c ∈ kids, c ∈ children scene.heap n) →
        (kids.findSome? fun c => scene.hitRec x y (fuel + 1) c inner) =
          kids.findSome? fun c => scene.hitRec x y fuel c inner := by
      intro kids inner hmem
      induction kids with
      | nil => rfl
      | cons c kids ihkids =>
        have hup := hw.mirrors.parent n c (hmem c List.mem_cons_self)
        obtain ⟨hbelow, hcard⟩ := hw.acyclic.room_child hup hA hfuel
        rw [List.findSome?_cons, List.findSome?_cons, ih hbelow hcard,
          ihkids fun c' hc' => hmem c' (List.mem_cons_of_mem c hc')]
    conv_lhs => rw [hitRec]
    conv_rhs => rw [hitRec]
    dsimp only
    rw [hkids _ _ fun c hc => by split_ifs at hc; exacts [mem_collectChildrenZdesc hc, by cases hc]]

/-! ## What is painted -/

theorem renderNode_succ (hn : scene.Painted n) :
    scene.renderNode (fuel + 1) n = n :: (scene.renderNext n).flatMap (scene.renderNode fuel) := by
  obtain ⟨htype, hdisplay, hculled⟩ := hn
  have hother : ¬ ((scene.heap.node n).type ≠ .elementNode ∧
      (scene.heap.node n).type ≠ .documentFragmentNode) := by tauto
  rw [renderNode, if_neg hother, if_neg hdisplay, if_neg (by simp [hculled])]

theorem renderNode_of_not_painted (hn : ¬ scene.Painted n) : scene.renderNode fuel n = [] := by
  cases fuel with
  | zero => rfl
  | succ fuel =>
    rw [renderNode]
    split_ifs with hother hdisplay hculled
    · rfl
    · rfl
    · rfl
    · exact absurd ⟨by tauto, hdisplay, Bool.eq_false_iff.2 hculled⟩ hn

theorem paints_of_mem {m : NodeId} (hm : m ∈ scene.renderNode fuel n) : scene.Paints n m := by
  induction fuel generalizing n with
  | zero => cases hm
  | succ fuel ih =>
    by_cases hn : scene.Painted n
    · rw [renderNode_succ hn] at hm
      rcases List.mem_cons.1 hm with rfl | hm
      · exact .self hn
      · obtain ⟨r, hr, hmr⟩ := List.mem_flatMap.1 hm
        exact .next hn hr (ih hmr)
    · rw [renderNode_of_not_painted hn] at hm
      cases hm

/-- With some more levels, what is painted of `c` is what is painted last of what counts. -/
theorem EndsIn.renderNode {c : NodeId} (h : scene.EndsIn x y c n) :
    ∃ k, ∀ fuel, ∃ front back, scene.renderNode (fuel + k) n =
      front ++ scene.renderNode fuel c ++ back ∧ ∀ m ∈ back, ¬ scene.Candidate x y m := by
  induction h with
  | here => exact ⟨0, fun fuel => ⟨[], [], by simp, by simp⟩⟩
  | @next n r front back hn hr hback _ ih =>
    obtain ⟨k, hk⟩ := ih
    refine ⟨k + 1, fun fuel => ?_⟩
    obtain ⟨front', back', heq, hback'⟩ := hk fuel
    refine ⟨n :: (front.flatMap (scene.renderNode (fuel + k)) ++ front'),
      back' ++ back.flatMap (scene.renderNode (fuel + k)), ?_, fun m hm => ?_⟩
    · rw [← Nat.add_assoc, renderNode_succ hn, hr, List.flatMap_append, List.flatMap_cons, heq]
      simp
    · rcases List.mem_append.1 hm with hm | hm
      · exact hback' m hm
      · obtain ⟨b, hb, hmb⟩ := List.mem_flatMap.1 hm
        exact hback b hb m (paints_of_mem hmb)

/-! ## What is hit -/

section Hit

variable (hx : scene.scrollX = 0) (hy : scene.scrollY = 0)
include hx hy

theorem hitRec_none (hclip : clip.Contains x y) (h : ¬ scene.Hittable x y n) :
    scene.hitRec x y fuel n clip = none := by
  induction fuel generalizing n clip with
  | zero => rfl
  | succ fuel ih =>
    rw [hitRec_succ hx hy hclip]
    split_ifs with hdisplay hn htarget htarget
    · rfl
    · exact absurd (.self hdisplay htarget) h
    · rw [Option.or_none]
      refine List.findSome?_eq_none_iff.2 fun c hc => ?_
      exact ih (innerClip_contains.2 ⟨hclip, hn.2.2⟩) fun hhit =>
        h (.child hn (List.mem_reverse.1 hc) hhit)
    · exact absurd (.self hdisplay htarget) h
    · rfl

theorem hitRec_some (hw : WellFormed scene.heap) {A : Finset NodeId}
    (hA : ∀ m, Below scene.heap.parentOf m n → m ∈ A) (hfuel : A.card ≤ fuel)
    (hclip : clip.Contains x y) (h : scene.Hittable x y n) :
    ∃ m, scene.hitRec x y fuel n clip = some m := by
  induction h generalizing A fuel clip with
  | @self n hd htarget =>
    cases fuel with
    | zero =>
      have hn := hA n (Below.refl n)
      rw [Finset.card_eq_zero.1 (Nat.le_zero.1 hfuel)] at hn
      cases hn
    | succ fuel =>
      rw [hitRec_succ hx hy hclip, if_neg hd, if_pos htarget]
      exact Option.isSome_iff_exists.1 (by simp)
  | @child n c hn hc _ ih =>
    cases fuel with
    | zero =>
      have hn := hA n (Below.refl n)
      rw [Finset.card_eq_zero.1 (Nat.le_zero.1 hfuel)] at hn
      cases hn
    | succ fuel =>
      have hup := hw.mirrors.parent n c (mem_childrenZ hc)
      obtain ⟨hbelow, hcard⟩ := hw.acyclic.room_child hup hA hfuel
      obtain ⟨m, hm⟩ := ih hbelow hcard (innerClip_contains.2 ⟨hclip, hn.2.2⟩)
      rw [hitRec_succ hx hy hclip, if_neg hn.1, if_pos hn]
      refine Option.isSome_iff_exists.1 ?_
      rw [Option.isSome_or, Bool.or_eq_true, List.findSome?_isSome_iff]
      exact Or.inl ⟨c, List.mem_reverse.2 hc, by rw [hm]; rfl⟩

/-- Where the way of the point is that of painting, the hit is the last candidate that is painted. -/
theorem lastOf_hitRec (hw : WellFormed scene.heap) (h : scene.Mirrored x y n) {A : Finset NodeId}
    (hA : ∀ m, Below scene.heap.parentOf m n → m ∈ A) (hfuel : A.card ≤ fuel)
    (hclip : clip.Contains x y) (hopen : scene.Unclipped x y n) :
    ∃ depth, ∀ d, depth ≤ d →
      LastOf (scene.Candidate x y) (scene.renderNode d n) (scene.hitRec x y fuel n clip) := by
  induction h generalizing A fuel clip with
  | @leaf n hkids hpaint =>
    obtain _ | fuel := fuel
    · have hn := hA n (Below.refl n)
      rw [Finset.card_eq_zero.1 (Nat.le_zero.1 hfuel)] at hn
      cases hn
    have hown : scene.hitRec x y (fuel + 1) n clip =
        if (scene.style n).display = displayNone then none
        else if scene.Target x y n then some n else none := by
      rw [hitRec_succ hx hy hclip]
      split_ifs with hdisplay hn htarget htarget <;> try rfl
      all_goals
        rw [List.findSome?_eq_none_iff.2 fun c hc => hitRec_none hx hy
          (innerClip_contains.2 ⟨hclip, hn.2.2⟩) (hkids hn c (List.mem_reverse.1 hc))]
        rfl
    refine ⟨1, fun d hd => ?_⟩
    obtain ⟨d, rfl⟩ := Nat.exists_eq_add_of_le' hd
    rw [hown]
    by_cases hn : scene.Painted n
    · rw [renderNode_succ hn, if_neg hn.2.1]
      have hbelow : LastOf (scene.Candidate x y)
          ((scene.renderNext n).flatMap (scene.renderNode d)) none := by
        intro m hm
        obtain ⟨r, hr, hmr⟩ := List.mem_flatMap.1 hm
        exact hpaint r hr m hn (paints_of_mem hmr)
      exact LastOf.cons (LastOf.singleton ⟨fun h => h.1, fun h => ⟨h, hopen⟩⟩) hbelow
    · -- what is not painted is no target that is displayed
      rw [renderNode_of_not_painted hn]
      have hnone : ¬ ((scene.style n).display ≠ displayNone ∧ scene.Target x y n) := by
        rintro ⟨hdisplay, htarget⟩
        refine hn ⟨Or.inl htarget.1, hdisplay, Bool.eq_false_iff.2 fun hculled => ?_⟩
        exact not_contains_of_culled hw.acyclic hculled hopen htarget.2.2.2.2
      split_ifs with hdisplay htarget
      · exact fun a ha => absurd ha List.not_mem_nil
      · exact absurd ⟨hdisplay, htarget⟩ hnone
      · exact fun a ha => absurd ha List.not_mem_nil
  | @child n c front back hn hkids hback hc hends _ ih =>
    obtain _ | fuel := fuel
    · have hmem := hA n (Below.refl n)
      rw [Finset.card_eq_zero.1 (Nat.le_zero.1 hfuel)] at hmem
      cases hmem
    have hchild : c ∈ scene.childrenZ n := hkids ▸ List.mem_append_right front List.mem_cons_self
    have hup := hw.mirrors.parent n c (mem_childrenZ hchild)
    have hin : (scene.innerClip clip n).Contains x y := innerClip_contains.2 ⟨hclip, hn.2.2⟩
    obtain ⟨hbelow, hcard⟩ := hw.acyclic.room_child hup hA hfuel
    obtain ⟨m, hm⟩ := hitRec_some hx hy hw hbelow hcard hin hc
    obtain ⟨depth, hdepth⟩ := ih hbelow hcard hin (unclipped_child hup hopen hn.2.2)
    obtain ⟨k, hk⟩ := hends.renderNode
    have hhit : scene.hitRec x y (fuel + 1) n clip = some m := by
      have hnone : (back.reverse.findSome?
          fun c => scene.hitRec x y fuel c (scene.innerClip clip n)) = none :=
        List.findSome?_eq_none_iff.2 fun b hb =>
          hitRec_none hx hy hin (hback b (List.mem_reverse.1 hb))
      rw [hitRec_succ hx hy hclip, if_neg hn.1, if_pos hn, hkids, List.reverse_append,
        List.reverse_cons, List.append_assoc, List.findSome?_append, hnone, Option.none_or,
        List.singleton_append, List.findSome?_cons, hm]
      rfl
    refine ⟨depth + k, fun d hd => ?_⟩
    obtain ⟨d, rfl⟩ := Nat.exists_eq_add_of_le' ((Nat.le_add_left k depth).trans hd)
    obtain ⟨front', back', heq, hback'⟩ := hk d
    have hlast := hdepth d (by omega)
    rw [hm] at hlast
    rw [hhit, heq]
    exact (hlast.append_left front').append_right hback'

end Hit

/-! ## Documents in which nothing goes another way -/

section Plain

theorem Displayed.above {c m : NodeId} (hn : (scene.style n).display ≠ displayNone)
    (hc : c ∈ children scene.heap n) (h : scene.Displayed c m) : scene.Displayed n m := by
  induction h with
  | top h => exact .child (.top hn) hc h
  | child _ hm h ih => exact .child ih hm h

theorem Hittable.not_leafy {c : NodeId} (h : scene.Hittable x y c)
    (hc : c ∈ children scene.heap n) : ¬ scene.Leafy n := by
  intro hleafy
  obtain ⟨helem, hfragment, hdocument⟩ := hleafy c hc
  cases h with
  | self _ htarget => exact helem htarget.1
  | child hn _ _ =>
    obtain ⟨-, helem' | hfragment' | hdocument', -⟩ := hn
    · exact helem helem'
    · exact hfragment hfragment'
    · exact hdocument hdocument'

variable (hw : WellFormed scene.heap)
include hw

/-- Painting goes down to a child that `hit_rec` goes down to as well. -/
theorem Plain.paints_child {r m : NodeId} (hp : scene.Plain n) (hn : scene.Painted n)
    (hr : r ∈ scene.renderNext n) (h : scene.Paints r m) (hbelow : Below scene.heap.parentOf m r)
    (hm : scene.Candidate x y m) : scene.Enters x y n ∧ r ∈ scene.childrenZ n := by
  obtain ⟨hdown, hnext⟩ := hp.renderNext
  have hparent := hw.mirrors.parent n r (hdown r hr)
  refine ⟨⟨hn.2.1, hn.1.imp_right Or.inl, fun hover => ?_⟩, ?_⟩
  · by_contra hbox
    exact not_candidate_below hw.acyclic hparent hbelow hover hbox hm
  · rcases hnext with hnext | hleafy
    · exact hnext ▸ hr
    · obtain ⟨helem, hfragment, -⟩ := hleafy r (hdown r hr)
      have hpainted : scene.Painted r := by
        cases h with
        | self hn => exact hn
        | next hn _ _ => exact hn
      exact absurd hpainted.1 (not_or.2 ⟨helem, hfragment⟩)

/-- A candidate that is painted below a node can be hit there. -/
theorem hittable_of_paints {m : NodeId} (hplain : ∀ m, scene.Displayed n m → scene.Plain m)
    (h : scene.Paints n m) (hm : scene.Candidate x y m) :
    Below scene.heap.parentOf m n ∧ scene.Hittable x y n := by
  induction h with
  | @self n hn => exact ⟨Below.refl n, .self hn.2.1 hm.1⟩
  | @next n r m hn hr h ih =>
    have hp := hplain n (.top hn.2.1)
    have hchild := hp.renderNext.1 r hr
    obtain ⟨hbelow, hhit⟩ := ih (fun m hm => hplain m (hm.above hn.2.1 hchild)) hm
    obtain ⟨henters, hr⟩ := hp.paints_child hw hn hr h hbelow hm
    exact ⟨hbelow.trans (Below.of_parent (hw.mirrors.parent n r hchild)),
      .child henters hr hhit⟩

/-- Where every displayed node is plain, the way of any point is that of painting. -/
theorem mirrored_of_plain {A : Finset NodeId}
    (hA : ∀ m, Below scene.heap.parentOf m n → m ∈ A)
    (hplain : ∀ m, scene.Displayed n m → scene.Plain m) : scene.Mirrored x y n := by
  have hdown : GoesDown scene.heap.parentOf (children scene.heap) := hw.mirrors.parent
  revert hplain
  refine hw.acyclic.down_induction hdown
    (P := fun n => (∀ m, scene.Displayed n m → scene.Plain m) → scene.Mirrored x y n)
    (fun n ih hplain => ?_) hA
  by_cases hex : scene.Enters x y n ∧ ∃ c ∈ scene.childrenZ n, scene.Hittable x y c
  · obtain ⟨hn, hsome⟩ := hex
    have hp := hplain n (.top hn.1)
    obtain ⟨c, hc, front, back, hkids, hback⟩ := LastOf.exists_some hsome
    have hchild : ∀ b ∈ scene.childrenZ n, ∀ m, scene.Displayed b m → scene.Plain m :=
      fun b hb m hm => hplain m (hm.above hn.1 (mem_childrenZ hb))
    have hmem : ∀ b ∈ c :: back, b ∈ scene.childrenZ n := fun b hb =>
      hkids ▸ List.mem_append_right front hb
    have hcz := hmem c List.mem_cons_self
    have hleafy := hc.not_leafy (mem_childrenZ hcz)
    have hpainted : scene.Painted n := by
      refine ⟨?_, hn.1, Bool.eq_false_iff.2 fun hculled => hleafy (hp.culled hculled)⟩
      exact hn.2.1.imp_right fun h => h.resolve_right hp.document
    have hnext := (hp.renderNext.2.resolve_right hleafy).trans hkids
    refine .child hn hkids hback hc (.next hpainted hnext (fun b hb m hpaints hm => ?_) .here)
      (ih c (mem_childrenZ hcz) (hchild c hcz))
    exact hback b hb (hittable_of_paints hw (hchild b (hmem b (List.mem_cons_of_mem c hb)))
      hpaints hm).2
  · refine .leaf (fun hn c hc hhit => hex ⟨hn, c, hc, hhit⟩) fun r hr m hn hpaints hm => ?_
    have hp := hplain n (.top hn.2.1)
    have hchild := hp.renderNext.1 r hr
    obtain ⟨hbelow, hhit⟩ :=
      hittable_of_paints hw (fun m hm => hplain m (hm.above hn.2.1 hchild)) hpaints hm
    obtain ⟨henters, hrz⟩ := hp.paints_child hw hn hr hpaints hbelow hm
    exact hex ⟨henters, r, hrz, hhit⟩

end Plain

/-! ## The document -/

/-- A point that the first clip contains and no box around the body excludes, whose way from the
body on is that of painting. -/
structure Aligned (scene : Scene) (x y : ℚ) (body : NodeId) : Prop where
  reach : ClipRect.start.Contains x y
  allocated : body < scene.heap.size
  unclipped : scene.Unclipped x y body
  mirrored : scene.Mirrored x y body

theorem mem_range_of_below (hw : WellFormed scene.heap) {body : NodeId}
    (hbody : body < scene.heap.size) (m : NodeId) (hm : Below scene.heap.parentOf m body) :
    m ∈ Finset.range scene.heap.size := by
  refine Finset.mem_range.2 ?_
  rcases hm.eq_or_parent with rfl | ⟨p, hp, -⟩
  · exact hbody
  · exact (hw.mirrors.allocated m p hp).1

/-- More than a level for each node changes nothing. -/
theorem enough_fuel (hw : WellFormed scene.heap) {body : NodeId}
    (hbody : body < scene.heap.size) (hfuel : scene.heap.size ≤ fuel) :
    scene.hitRec x y fuel body clip = scene.hitRec x y scene.heap.size body clip := by
  induction fuel, hfuel using Nat.le_induction with
  | base => rfl
  | succ fuel hfuel ih =>
    have hcard : (Finset.range scene.heap.size).card ≤ fuel := by
      rw [Finset.card_range]
      exact hfuel
    rw [hitRec_stable hw (mem_range_of_below hw hbody) hcard]
    exact ih

/-- `html`, `body`, a shadow host with an element in its tree, and an element over the host. -/
def stackedHeap : NodeHeap :=
  domRun { size := 5, node := fun _ => { tag := some (ascii "div") } }
    [.appendChild (some 0) (some 1), .appendChild (some 1) (some 2),
      .appendChild (some 1) (some 3), .attachShadow (some 2), .appendChild (some 5) (some 4)]

def stackedScene : Scene where
  heap := stackedHeap
  style := fun _ => { w := 50, h := 50 }
  body := some 1
  scrollX := 0
  scrollY := 0

theorem wellFormed_stackedHeap : WellFormed stackedHeap := by
  refine (domRun_contract (wellFormed_of_bare fun _ => rfl) ?_).1
  simp only [SafeRun, DomCall.Existing]
  decide

theorem aligned_stackedScene : stackedScene.Aligned 10 10 1 := by
  refine ⟨by decide, by decide, fun a ha hne hover => ?_, ?_⟩
  · exact absurd hover (by simp [stackedScene])
  have hkids : stackedScene.childrenZ 1 = [2] ++ 3 :: [] := by decide
  have hnext : stackedScene.renderNext 1 = [2] ++ 3 :: [] := by decide
  have hends : stackedScene.EndsIn 10 10 3 1 :=
    .next (by decide) hnext (fun b hb => absurd hb List.not_mem_nil) .here
  refine .child (by decide) hkids (fun b hb => absurd hb List.not_mem_nil)
    (.self (by decide) (by decide +kernel)) hends (.leaf (fun _ c hc => ?_) fun r hr => ?_)
  · exact absurd hc ((by decide : stackedScene.childrenZ 3 = []) ▸ List.not_mem_nil)
  · exact absurd hr ((by decide : stackedScene.renderNext 3 = []) ▸ List.not_mem_nil)

/-- `html`, `body`, and an element whose shadow root holds another. -/
def shadedHeap : NodeHeap :=
  domRun { size := 4, node := fun _ => { tag := some (ascii "div") } }
    [.appendChild (some 0) (some 1), .appendChild (some 1) (some 2), .attachShadow (some 2),
      .appendChild (some 4) (some 3)]

def shadedScene : Scene where
  heap := shadedHeap
  style := fun _ => { w := 50, h := 50 }
  body := some 1
  scrollX := 0
  scrollY := 0

theorem shadedScene_paintOrder {d : Nat} (hd : 4 ≤ d) :
    shadedScene.paintOrder d = [1, 2, 4, 3] := by
  obtain ⟨d, rfl⟩ := Nat.exists_eq_add_of_le' hd
  have hnext : shadedScene.renderNext 1 = [2] ∧ shadedScene.renderNext 2 = [4] ∧
      shadedScene.renderNext 4 = [3] ∧ shadedScene.renderNext 3 = [] := by decide +kernel
  obtain ⟨h1, h2, h4, h3⟩ := hnext
  have hpainted : shadedScene.Painted 1 ∧ shadedScene.Painted 2 ∧ shadedScene.Painted 4 ∧
      shadedScene.Painted 3 := by decide +kernel
  obtain ⟨hp1, hp2, hp4, hp3⟩ := hpainted
  show shadedScene.renderNode (d + 3 + 1) 1 = _
  rw [renderNode_succ hp1, h1, List.flatMap_singleton, renderNode_succ hp2, h2,
    List.flatMap_singleton, renderNode_succ hp4, h4, List.flatMap_singleton, renderNode_succ hp3, h3]
  rfl

end Scene

end TinyFramework.Events
