/-
  Style/Transition.lean --- transitions of a node and of a tree.

  Timing functions, the list `active_transitions` with `mini_add_transition_val`, and
  what one tick does to that list and to the style fields it drives.  Arithmetic is
  exact, over an ordered field.  A property is driven by at most one transition of a
  node, so a tick can be followed for one property at a time.

  `mini_dom_tick_frame` walks the document three times: the keyframe animations, the
  transitions, and the dirty marks.  What the keyframes set in a frame is an input
  here: for each visit the calls of `mini_style_set` with what they do to the node.
  A generated `::before` or `::after` node is visited twice in a frame, and its
  transitions advance twice.
-/
import TinyFramework.Dom.Pseudo
import Mathlib.Algebra.Order.Field.Basic
import Mathlib.Algebra.Order.Ring.Rat
import Mathlib.Tactic.Ring

set_option autoImplicit false

namespace TinyFramework.Style

universe u

/-! ## Timing functions -/

section Timing

variable {R : Type u} [Field R] [LinearOrder R]

/-- One coordinate of the curve with end points 0 and 1. -/
def bezierAt (p1 p2 u : R) : R :=
  3 * (1 - u) * (1 - u) * u * p1 + 3 * (1 - u) * u * u * p2 + u * u * u

/-- The Newton steps of `mini_css_cubic_bezier`. -/
def newtonLoop (x1 x2 x : R) : Nat → R → R
  | 0, u => u
  | n + 1, u =>
      let dx := 3 * (1 - u) * (1 - u) * x1 + 6 * (1 - u) * u * (x2 - x1) + 3 * u * u * (1 - x2)
      let diff := bezierAt x1 x2 u - x
      if |diff| < 1 / 10 ^ 5 then u
      else if |dx| < 1 / 10 ^ 6 then u
      else
        let u := u - diff / dx
        let u := if u < 0 then 0 else u
        newtonLoop x1 x2 x n (if 1 < u then 1 else u)

/-- The bisection of `mini_css_cubic_bezier`. -/
def bisectLoop (x1 x2 x : R) : Nat → R → R → R → R
  | 0, u, _, _ => u
  | n + 1, _, low, high =>
      let u := (low + high) / 2
      if x < bezierAt x1 x2 u then bisectLoop x1 x2 x n u low u else bisectLoop x1 x2 x n u u high

/-- `mini_css_cubic_bezier` -/
def miniCssCubicBezier (x1 y1 x2 y2 x : R) : R :=
  if x ≤ 0 then 0
  else if 1 ≤ x then 1
  else
    let u := newtonLoop x1 x2 x 8 x
    let u := if 1 / 10 ^ 3 < |bezierAt x1 x2 u - x| then bisectLoop x1 x2 x 12 u 0 1 else u
    bezierAt y1 y2 u

/-- `mini_css_eval_timing` -/
def miniCssEvalTiming (mode : Int) (bezier : R × R × R × R) (t : R) : R :=
  if t ≤ 0 then 0
  else if 1 ≤ t then 1
  else if mode = 1 then miniCssCubicBezier (1 / 4) (1 / 10) (1 / 4) 1 t
  else if mode = 2 then miniCssCubicBezier (42 / 100) 0 1 1 t
  else if mode = 3 then miniCssCubicBezier 0 0 (58 / 100) 1 t
  else if mode = 4 then miniCssCubicBezier (42 / 100) 0 (58 / 100) 1 t
  else if mode = 5 then miniCssCubicBezier bezier.1 bezier.2.1 bezier.2.2.1 bezier.2.2.2 t
  else t

/-- Every timing function maps 1 to 1. -/
theorem miniCssEvalTiming_one [IsStrictOrderedRing R] (mode : Int) (bezier : R × R × R × R) :
    miniCssEvalTiming mode bezier 1 = 1 := by
  rw [miniCssEvalTiming, if_neg (not_le.2 one_pos), if_pos le_rfl]

end Timing

/-! ## Properties and the fields they drive -/

/-- The properties `mini_add_transition_val` is called with.  The other names the tick
compares with, `shadow`, `border` and `background`, never name a transition. -/
inductive TransitionProp where
  | opacity
  | transform
  | boxShadow
  | borderColor
  | backgroundColor
  | color
  | left
  | top
  deriving DecidableEq, Repr

/-- The fields of `MiniStyle` a transition can drive. -/
inductive StyleField where
  | opacity
  | translateX
  | translateY
  | translateZ
  | scaleX
  | scaleY
  | rotateX
  | rotateY
  | rotateZ
  | shadowX
  | shadowY
  | shadowBlur
  | shadowSpread
  | shadowR
  | shadowG
  | shadowB
  | shadowA
  | borderR
  | borderG
  | borderB
  | borderA
  | bgR
  | bgG
  | bgB
  | bgA
  | colorR
  | colorG
  | colorB
  | colorA
  | lenLeft
  | lenTop
  deriving DecidableEq, Repr

/-- The fields of a property, in the order of its values. -/
def TransitionProp.fields : TransitionProp → List StyleField
  | opacity => [.opacity]
  | transform =>
      [.translateX, .translateY, .translateZ, .scaleX, .scaleY, .rotateX, .rotateY, .rotateZ]
  | boxShadow =>
      [.shadowX, .shadowY, .shadowBlur, .shadowSpread, .shadowR, .shadowG, .shadowB, .shadowA]
  | borderColor => [.borderR, .borderG, .borderB, .borderA]
  | backgroundColor => [.bgR, .bgG, .bgB, .bgA]
  | color => [.colorR, .colorG, .colorB, .colorA]
  | left => [.lenLeft]
  | top => [.lenTop]

theorem TransitionProp.nodup_fields (p : TransitionProp) : p.fields.Nodup := by
  cases p <;> decide

theorem TransitionProp.fields_disjoint {p q : TransitionProp} (hpq : p ≠ q) :
    ∀ f ∈ p.fields, f ∉ q.fields := by
  revert hpq
  cases p <;> cases q <;> decide

/-- The part of `MiniStyle` a tick writes: the fields, the flags beside them, and the
first entry of `shadows` with the number of entries. -/
structure AnimStyle (R : Type u) where
  value : StyleField → R
  hasOpacity : Bool
  hasTransform : Bool
  hasShadow : Bool
  numShadows : Nat
  shadow0 : Nat → R

/-- `MiniActiveTransition`; the values are the cells of the two arrays. -/
structure ActiveTransition (R : Type u) where
  prop : TransitionProp
  startVal : Nat → R
  targetVal : Nat → R
  numVals : Nat
  startTime : R
  duration : R
  timing : Int
  bezier : R × R × R × R

section Lists

variable {R : Type u} {l : List (ActiveTransition R)} {p : TransitionProp}

/-- The transition of a property. -/
def activeOn (p : TransitionProp) (l : List (ActiveTransition R)) : Option (ActiveTransition R) :=
  l.find? fun tr => tr.prop = p

/-- Every property is driven by at most one transition. -/
def DistinctProps (l : List (ActiveTransition R)) : Prop :=
  (l.map ActiveTransition.prop).Nodup

theorem activeOn_cons (tr : ActiveTransition R) (l : List (ActiveTransition R)) :
    activeOn p (tr :: l) = if tr.prop = p then some tr else activeOn p l := by
  rw [activeOn, List.find?_cons]
  by_cases h : tr.prop = p
  · simp [h]
  · simp [h, activeOn]

theorem activeOn_eq_none (hp : p ∉ l.map ActiveTransition.prop) : activeOn p l = none := by
  refine List.find?_eq_none.2 fun tr htr hprop => hp ?_
  exact List.mem_map.2 ⟨tr, htr, of_decide_eq_true hprop⟩

theorem prop_of_activeOn {tr : ActiveTransition R} (hp : activeOn p l = some tr) :
    tr.prop = p := by
  rw [activeOn] at hp
  simpa using List.find?_some hp

end Lists

section Node

variable {R : Type u} [Field R] [LinearOrder R]

/-- The progress of a transition, at most 1. -/
def ActiveTransition.progress (tr : ActiveTransition R) : R :=
  let prog := if 0 < tr.duration then tr.startTime / tr.duration else 1
  if 1 < prog then 1 else prog

/-! ## Starting a transition -/

/-- The arguments of `mini_add_transition_val` after the node. -/
structure AddCall (R : Type u) where
  prop : TransitionProp
  startVals : Nat → R
  targetVals : Nat → R
  numVals : Nat
  duration : R
  timing : Int
  bezier : Option (R × R × R × R)

/-- Two arrays agree up to the tolerance on the first `n` cells. -/
def closeOn (n : Nat) (x y : Nat → R) : Bool :=
  (List.range n).all fun i => !decide (1 / 10 ^ 4 < |x i - y i|)

/-- A transition of the property gets the new target, from where it is now. -/
def ActiveTransition.retarget (tr : ActiveTransition R) (c : AddCall R) (dur : R) :
    ActiveTransition R :=
  let ease := miniCssEvalTiming tr.timing tr.bezier tr.progress
  let live := fun i => if i < tr.numVals then
    tr.startVal i * (1 - ease) + tr.targetVal i * ease else c.startVals i
  { tr with
    startVal := fun i => if i < min c.numVals 8 then live i else tr.startVal i
    targetVal := fun i => if i < min c.numVals 8 then c.targetVals i else tr.targetVal i
    numVals := c.numVals
    startTime := 0
    duration := dur
    timing := c.timing
    bezier := c.bezier.getD tr.bezier }

/-- The call keeps the transition as it is: its target is the one the transition has. -/
def ActiveTransition.keeps (tr : ActiveTransition R) (c : AddCall R) : Bool :=
  closeOn (min c.numVals tr.numVals) tr.targetVal c.targetVals ||
    closeOn (min c.numVals 8) tr.targetVal c.targetVals

/-- The loop over the list: the first transition of the property answers the call. -/
def answerAdd (c : AddCall R) (dur : R) :
    List (ActiveTransition R) → Option (List (ActiveTransition R))
  | [] => none
  | tr :: rest =>
      if tr.prop = c.prop then some ((if tr.keeps c then tr else tr.retarget c dur) :: rest)
      else (answerAdd c dur rest).map (tr :: ·)

/-- `mini_add_transition_val` -/
def miniAddTransitionVal (l : List (ActiveTransition R)) (c : AddCall R) :
    List (ActiveTransition R) :=
  if c.numVals = 0 then l
  else
    let dur := if 0 < c.duration then c.duration else 3 / 10
    if closeOn c.numVals c.startVals c.targetVals then l
    else
      match answerAdd c dur l with
      | some l => l
      | none =>
          { prop := c.prop
            startVal := fun i => if i < min c.numVals 8 then c.startVals i else 0
            targetVal := fun i => if i < min c.numVals 8 then c.targetVals i else 0
            numVals := c.numVals
            startTime := 0
            duration := dur
            timing := c.timing
            bezier := c.bezier.getD (0, 0, 0, 0) } :: l

/-! ## One tick -/

/-- Write the values of a property to its fields. -/
def writeFields (v : StyleField → R) (fields : List StyleField) (val : Nat → R) :
    StyleField → R :=
  fun f => if f ∈ fields then val (fields.idxOf f) else v f

/-- The assignments of the branch of a property, for an eased progress. -/
def AnimStyle.drive (s : AnimStyle R) (tr : ActiveTransition R) (ease : R) : AnimStyle R :=
  let val := fun i => tr.startVal i * (1 - ease) + tr.targetVal i * ease
  let s := { s with value := writeFields s.value tr.prop.fields val }
  match tr.prop with
  | .opacity => { s with hasOpacity := true }
  | .transform => { s with hasTransform := true }
  | .boxShadow =>
      { s with
        hasShadow := decide (1 / 10 ^ 3 < s.value .shadowA)
        shadow0 := if 0 < s.numShadows then val else s.shadow0 }
  | _ => s

/-- The body of the loop of `tick_transitions`: the style, and the transition unless it
is done. -/
def tickTransition (dt : R) (s : AnimStyle R) (tr : ActiveTransition R) :
    AnimStyle R × Option (ActiveTransition R) :=
  let tr := { tr with startTime := tr.startTime + dt }
  let s := s.drive tr (miniCssEvalTiming tr.timing tr.bezier tr.progress)
  (s, if 1 ≤ tr.progress then none else some tr)

/-- The loop of `tick_transitions` over the list of one node. -/
def tickList (dt : R) : AnimStyle R → List (ActiveTransition R) →
    AnimStyle R × List (ActiveTransition R)
  | s, [] => (s, [])
  | s, tr :: rest =>
      let (s, kept) := tickTransition dt s tr
      let (s, rest) := tickList dt s rest
      (s, kept.toList ++ rest)

/-! ## Following one property -/

variable {s : AnimStyle R} {tr : ActiveTransition R} {l : List (ActiveTransition R)}
  {p : TransitionProp} {dt : R}

theorem AnimStyle.drive_value (s : AnimStyle R) (tr : ActiveTransition R) (ease : R)
    (f : StyleField) :
    (s.drive tr ease).value f = if f ∈ tr.prop.fields then
      tr.startVal (tr.prop.fields.idxOf f) * (1 - ease) +
        tr.targetVal (tr.prop.fields.idxOf f) * ease else s.value f := by
  unfold AnimStyle.drive
  dsimp only
  split <;> rfl

/-- A tick drops transitions and keeps the order of the others. -/
theorem tickList_props (dt : R) (s : AnimStyle R) (l : List (ActiveTransition R)) :
    List.Sublist ((tickList dt s l).2.map ActiveTransition.prop)
      (l.map ActiveTransition.prop) := by
  induction l generalizing s with
  | nil => exact List.Sublist.refl _
  | cons tr l ih =>
    rw [tickList]
    dsimp only [tickTransition]
    split_ifs
    · exact (ih _).cons _
    · exact (ih _).cons_cons _

/-- A tick leaves the fields of other properties alone. -/
theorem tickList_value {f : StyleField} (hf : ∀ tr ∈ l, f ∉ tr.prop.fields) (s : AnimStyle R) :
    (tickList dt s l).1.value f = s.value f := by
  induction l generalizing s with
  | nil => rfl
  | cons tr l ih =>
    have hhead : f ∉ tr.prop.fields := hf tr List.mem_cons_self
    rw [tickList]
    dsimp only [tickTransition]
    rw [ih fun tr' htr' => hf tr' (List.mem_cons_of_mem tr htr'), AnimStyle.drive_value,
      if_neg hhead]

/-- What one tick does to the transition of a property: it advances, or it is done and
its fields hold the target. -/
structure Ticked (dt : R) (p : TransitionProp) (tr : ActiveTransition R) (s' : AnimStyle R)
    (l' : List (ActiveTransition R)) : Prop where
  running : tr.startTime + dt < tr.duration →
    activeOn p l' = some { tr with startTime := tr.startTime + dt }
  done : tr.duration ≤ tr.startTime + dt → activeOn p l' = none ∧
    ∀ i f, p.fields[i]? = some f → s'.value f = tr.targetVal i

/-- The progress is 1 from the end of the duration on. -/
theorem ActiveTransition.progress_spec [IsStrictOrderedRing R] (hdur : 0 < tr.duration) :
    (1 ≤ tr.progress ↔ tr.duration ≤ tr.startTime) ∧ (1 ≤ tr.progress → tr.progress = 1) := by
  unfold ActiveTransition.progress
  dsimp only
  rw [if_pos hdur]
  split_ifs with hlt
  · exact ⟨iff_of_true le_rfl ((one_le_div hdur).1 hlt.le), fun _ => rfl⟩
  · exact ⟨one_le_div hdur, fun hle => le_antisymm (not_lt.1 hlt) hle⟩

theorem tickList_spec [IsStrictOrderedRing R] (hl : DistinctProps l)
    (hp : activeOn p l = some tr) (hdur : 0 < tr.duration) (s : AnimStyle R) :
    Ticked dt p tr (tickList dt s l).1 (tickList dt s l).2 := by
  induction l generalizing s with
  | nil => cases hp
  | cons head l ih =>
    obtain ⟨hnot, hrest⟩ := List.nodup_cons.1 hl
    rw [activeOn_cons] at hp
    rw [tickList]
    dsimp only [tickTransition]
    split_ifs at hp with hhead
    · -- the transition itself; what follows it drives other fields
      obtain rfl := Option.some.inj hp
      subst hhead
      set moved : ActiveTransition R := { head with startTime := head.startTime + dt }
        with hmoved
      have hspec : (1 ≤ moved.progress ↔ moved.duration ≤ moved.startTime) ∧
          (1 ≤ moved.progress → moved.progress = 1) := ActiveTransition.progress_spec hdur
      obtain ⟨hiff, hone⟩ := hspec
      have hgone : activeOn head.prop (tickList dt (s.drive moved
          (miniCssEvalTiming head.timing head.bezier moved.progress)) l).2 = none :=
        activeOn_eq_none fun hmem => hnot ((tickList_props dt _ l).subset hmem)
      constructor
      · intro hlt
        rw [if_neg fun hle => not_lt.2 (hiff.1 hle) hlt]
        exact (activeOn_cons _ _).trans (if_pos rfl)
      · intro hle
        rw [if_pos (hiff.2 hle)]
        refine ⟨hgone, fun i f hf => ?_⟩
        have hmem := List.mem_of_getElem? hf
        have hidx : head.prop.fields.idxOf f = i := by
          obtain ⟨hi, rfl⟩ := List.getElem?_eq_some_iff.1 hf
          exact head.prop.nodup_fields.idxOf_getElem i hi
        rw [tickList_value, AnimStyle.drive_value, if_pos hmem, hone (hiff.2 hle),
          miniCssEvalTiming_one, hidx]
        · ring
        · intro tr htr hother
          have hne : head.prop ≠ tr.prop := fun heq =>
            hnot (heq ▸ List.mem_map_of_mem (f := ActiveTransition.prop) htr)
          exact TransitionProp.fields_disjoint hne f hmem hother
    · -- another property comes first, and stays or goes
      set moved : ActiveTransition R := { head with startTime := head.startTime + dt }
        with hmoved
      have hspec := ih hrest hp
        (s.drive moved (miniCssEvalTiming head.timing head.bezier moved.progress))
      refine ⟨fun hlt => ?_, fun hle => ⟨?_, (hspec.done hle).2⟩⟩
      · split_ifs
        · exact hspec.running hlt
        · exact (activeOn_cons _ _).trans ((if_neg hhead).trans (hspec.running hlt))
      · split_ifs
        · exact (hspec.done hle).1
        · exact (activeOn_cons _ _).trans ((if_neg hhead).trans (hspec.done hle).1)

/-! ## Lists of one node -/

/-- What every list of active transitions satisfies. -/
structure ActiveOk (l : List (ActiveTransition R)) : Prop where
  distinct : DistinctProps l
  positive : ∀ tr ∈ l, 0 < tr.duration

theorem ActiveOk.nil : ActiveOk ([] : List (ActiveTransition R)) :=
  ⟨List.nodup_nil, fun _ h => nomatch h⟩

theorem ActiveOk.tail (h : ActiveOk (tr :: l)) : ActiveOk l :=
  ⟨(List.nodup_cons.1 h.distinct).2, fun tr' htr' => h.positive tr' (List.mem_cons_of_mem _ htr')⟩

theorem answerAdd_none {c : AddCall R} {dur : R} (h : answerAdd c dur l = none) :
    c.prop ∉ l.map ActiveTransition.prop := by
  induction l with
  | nil => exact List.not_mem_nil
  | cons tr l ih =>
    rw [answerAdd] at h
    split_ifs at h with hprop
    rw [List.map_cons, List.mem_cons, not_or]
    exact ⟨Ne.symm hprop, ih (Option.map_eq_none_iff.1 h)⟩

/-- The answer changes one transition of the list and no property. -/
theorem answerAdd_ok {c : AddCall R} {dur : R} {l' : List (ActiveTransition R)} (hdur : 0 < dur)
    (h : answerAdd c dur l = some l') (hl : ActiveOk l) :
    ActiveOk l' ∧ l'.map ActiveTransition.prop = l.map ActiveTransition.prop := by
  induction l generalizing l' with
  | nil => cases h
  | cons tr l ih =>
    rw [answerAdd] at h
    split_ifs at h with hprop hkeeps
    · obtain rfl := Option.some.inj h
      exact ⟨hl, rfl⟩
    · obtain rfl := Option.some.inj h
      refine ⟨⟨hl.distinct, fun tr' htr' => ?_⟩, rfl⟩
      rcases List.mem_cons.1 htr' with rfl | htr'
      · exact hdur
      · exact hl.tail.positive tr' htr'
    · obtain ⟨rest, hrest, rfl⟩ := Option.map_eq_some_iff.1 h
      obtain ⟨hok, hprops⟩ := ih hrest hl.tail
      refine ⟨⟨?_, fun tr' htr' => ?_⟩, congrArg (tr.prop :: ·) hprops⟩
      · rw [DistinctProps, List.map_cons, hprops]
        exact hl.distinct
      · rcases List.mem_cons.1 htr' with rfl | htr'
        · exact hl.positive _ List.mem_cons_self
        · exact hok.positive tr' htr'

theorem ActiveOk.add [IsStrictOrderedRing R] (h : ActiveOk l) (c : AddCall R) :
    ActiveOk (miniAddTransitionVal l c) := by
  have hdur : 0 < if 0 < c.duration then c.duration else (3 / 10 : R) := by
    split_ifs with hpos
    · exact hpos
    · exact div_pos three_pos (by norm_num)
  unfold miniAddTransitionVal
  dsimp only
  generalize (if 0 < c.duration then c.duration else (3 / 10 : R)) = dur at hdur ⊢
  split_ifs
  · exact h
  · exact h
  · split
    · next l' hans => exact (answerAdd_ok hdur hans h).1
    · next hans =>
      refine ⟨List.nodup_cons.2 ⟨answerAdd_none hans, h.distinct⟩, fun tr htr => ?_⟩
      rcases List.mem_cons.1 htr with rfl | htr
      · exact hdur
      · exact h.positive tr htr

theorem ActiveOk.tick (h : ActiveOk l) (dt : R) (s : AnimStyle R) :
    ActiveOk (tickList dt s l).2 := by
  refine ⟨h.distinct.sublist (tickList_props dt s l), ?_⟩
  have hpos := h.positive
  clear h
  induction l generalizing s with
  | nil => exact hpos
  | cons tr l ih =>
    have hrest := fun s => ih s fun tr' htr' => hpos tr' (List.mem_cons_of_mem _ htr')
    rw [tickList]
    dsimp only [tickTransition]
    split_ifs
    · exact hrest _
    · intro tr' htr'
      rcases List.mem_cons.1 htr' with rfl | htr'
      · exact hpos tr List.mem_cons_self
      · exact hrest _ tr' htr'

/-- A call that does not touch the transition: it is about another property, it has
nothing to do, or it asks for the target the transition has. -/
def ActiveTransition.undisturbed (tr : ActiveTransition R) (c : AddCall R) : Bool :=
  c.prop ≠ tr.prop || c.numVals = 0 || closeOn c.numVals c.startVals c.targetVals || tr.keeps c

theorem answerAdd_activeOn {c : AddCall R} {dur : R} {l' : List (ActiveTransition R)}
    (h : answerAdd c dur l = some l') (hp : activeOn p l = some tr)
    (hkeep : c.prop ≠ p ∨ tr.keeps c) : activeOn p l' = some tr := by
  induction l generalizing l' with
  | nil => cases h
  | cons head l ih =>
    rw [answerAdd] at h
    rw [activeOn_cons] at hp
    split_ifs at h with hprop hkeeps
    · obtain rfl := Option.some.inj h
      rw [activeOn_cons, hp]
    · obtain rfl := Option.some.inj h
      split_ifs at hp with hhead
      · obtain rfl := Option.some.inj hp
        rcases hkeep with hne | hkeep
        · exact absurd (hprop.symm.trans hhead) hne
        · exact absurd hkeep hkeeps
      · exact (activeOn_cons _ _).trans ((if_neg hhead).trans hp)
    · obtain ⟨rest, hrest, rfl⟩ := Option.map_eq_some_iff.1 h
      rw [activeOn_cons]
      split_ifs at hp ⊢ with hhead
      · exact hp
      · exact ih hrest hp

theorem miniAddTransitionVal_activeOn {c : AddCall R} (hp : activeOn p l = some tr)
    (hcalm : tr.undisturbed c = true) : activeOn p (miniAddTransitionVal l c) = some tr := by
  have hprop := prop_of_activeOn hp
  simp only [ActiveTransition.undisturbed, Bool.or_eq_true, decide_eq_true_eq, hprop] at hcalm
  unfold miniAddTransitionVal
  dsimp only
  generalize (if 0 < c.duration then c.duration else (3 / 10 : R)) = dur
  split_ifs with hzero hclose
  · exact hp
  · exact hp
  · have hkeep : c.prop ≠ p ∨ tr.keeps c = true := by tauto
    split
    · next l' hans => exact answerAdd_activeOn hans hp hkeep
    · next hans =>
      have hne : c.prop ≠ p := by
        rintro rfl
        refine answerAdd_none hans (List.mem_map.2 ⟨tr, ?_, hprop⟩)
        exact List.mem_of_find?_eq_some hp
      exact (activeOn_cons _ _).trans ((if_neg hne).trans hp)

/-- The list `active_transitions` of a node. -/
structure ActiveList (R : Type u) [Field R] [LinearOrder R] where
  list : List (ActiveTransition R)
  ok : ActiveOk list

def ActiveList.empty : ActiveList R :=
  ⟨[], ActiveOk.nil⟩

def ActiveList.add [IsStrictOrderedRing R] (l : ActiveList R) (c : AddCall R) : ActiveList R :=
  ⟨miniAddTransitionVal l.list c, l.ok.add c⟩

def ActiveList.tick (l : ActiveList R) (dt : R) (s : AnimStyle R) : AnimStyle R × ActiveList R :=
  ((tickList dt s l.list).1, ⟨(tickList dt s l.list).2, l.ok.tick dt s⟩)

end Node

open TinyFramework.Foundation TinyFramework.Dom

/-! ## The functions of the source -/

/-- What a call of `mini_style_set` does: the style it leaves, the transition it
starts, and whether the property affects layout. -/
structure StyleSet (R : Type u) where
  style : AnimStyle R → AnimStyle R
  add : Option (AddCall R)
  affectsLayout : Bool

/-- One visit of `apply_animations`: whether the animation changes anything visible,
whether it keeps frames coming, and the declarations of its keyframe. -/
structure AnimVisit (R : Type u) where
  changes : Bool
  drives : Bool
  sets : List (StyleSet R)

/-- The inputs of one frame. -/
structure Frame (R : Type u) where
  delta : R
  canvasCommands : Nat
  anim : Nat → AnimVisit R

/-- The document with what a frame reads and writes.  The tree stays as it is. -/
structure TickDoc (R : Type u) [Field R] [LinearOrder R] where
  style : NodeId → AnimStyle R
  active : NodeId → ActiveList R
  dirtyLayout : NodeId → Bool
  dirtyPaint : NodeId → Bool
  dirty : Bool
  layoutDirty : Bool
  activeEffects : Bool
  paintDirty : Bool
  animTime : R

section Frames

variable {R : Type u} [Field R] [LinearOrder R]

/-- `mini_style_set` inside a frame. -/
def miniStyleSet [IsStrictOrderedRing R] (n : NodeId) (s : TickDoc R) (c : StyleSet R) :
    TickDoc R :=
  { s with
    style := Function.update s.style n (c.style (s.style n))
    active := Function.update s.active n
      (match c.add with
      | some call => (s.active n).add call
      | none => s.active n)
    dirtyLayout := Function.update s.dirtyLayout n (s.dirtyLayout n || c.affectsLayout)
    dirtyPaint := Function.update s.dirtyPaint n true
    layoutDirty := s.layoutDirty || c.affectsLayout }

/-- The body of `apply_animations`, with the number of visits so far. -/
def applyVisit [IsStrictOrderedRing R] (anim : Nat → AnimVisit R) (r : TickDoc R × Nat)
    (n : NodeId) : TickDoc R × Nat :=
  let (s, k) := r
  let s := { s with
    dirty := s.dirty || s.dirtyLayout n || s.dirtyPaint n
    activeEffects := s.activeEffects || (anim k).changes || (anim k).drives
    paintDirty := s.paintDirty || (anim k).changes }
  ((anim k).sets.foldl (miniStyleSet n) s, k + 1)

/-- `apply_animations` -/
def applyAnimations [IsStrictOrderedRing R] (t : PseudoTree) (anim : Nat → AnimVisit R)
    (s : TickDoc R) : TickDoc R :=
  (descend t.frameLinks (applyVisit anim) t.heap.size t.root (s, 0)).1

/-- The body of `tick_transitions`. -/
def tickVisit (dt : R) (s : TickDoc R) (n : NodeId) : TickDoc R :=
  let l := (s.active n).list
  let (style, active) := (s.active n).tick dt (s.style n)
  { s with
    style := Function.update s.style n style
    active := Function.update s.active n active
    dirtyLayout := Function.update s.dirtyLayout n
      (s.dirtyLayout n || l.any fun tr => tr.prop = .left || tr.prop = .top)
    dirtyPaint := Function.update s.dirtyPaint n (s.dirtyPaint n || !l.isEmpty)
    activeEffects := s.activeEffects || !l.isEmpty
    paintDirty := s.paintDirty || !l.isEmpty }

/-- `tick_transitions` -/
def tickTransitions (t : PseudoTree) (dt : R) (s : TickDoc R) : TickDoc R :=
  descend t.frameLinks (tickVisit dt) t.heap.size t.root s

/-- `clear_dirty_rec` -/
def clearDirtyRec (t : PseudoTree) (s : TickDoc R) : TickDoc R :=
  descend t.clearLinks (fun s n => { s with
    dirtyLayout := Function.update s.dirtyLayout n false
    dirtyPaint := Function.update s.dirtyPaint n false }) t.heap.size t.root s

/-- `mini_dom_tick_frame` -/
def miniDomTickFrame [IsStrictOrderedRing R] (t : PseudoTree) (s : TickDoc R) (f : Frame R) :
    TickDoc R :=
  let s := { s with
    animTime := s.animTime + f.delta
    dirty := false
    activeEffects := decide (0 < f.canvasCommands)
    paintDirty := decide (0 < f.canvasCommands) }
  clearDirtyRec t (tickTransitions t f.delta (applyAnimations t f.anim s))

/-! ## What a frame does to one node -/

variable {t : PseudoTree} {s : TickDoc R} {x n : NodeId} {p : TransitionProp}
  {tr : ActiveTransition R} {dt : R}

/-- A fold whose visits keep the other nodes does to `x` what its visit does. -/
theorem tickVisits_away (dt : R) (s : TickDoc R) {l : List NodeId} (hx : x ∉ l) :
    (l.foldl (tickVisit dt) s).active x = s.active x ∧
      (l.foldl (tickVisit dt) s).style x = s.style x := by
  induction l generalizing s with
  | nil => exact ⟨rfl, rfl⟩
  | cons n l ih =>
    rw [List.mem_cons, not_or] at hx
    rw [List.foldl_cons, (ih _ hx.2).1, (ih _ hx.2).2]
    exact ⟨Function.update_of_ne hx.1 _ _, Function.update_of_ne hx.1 _ _⟩

/-- What is visited once ticks once. -/
theorem tickTransitions_node (hcount : (walk t.frameLinks t.heap.size t.root).count x = 1)
    (dt : R) (s : TickDoc R) :
    (tickTransitions t dt s).active x = ((s.active x).tick dt (s.style x)).2 ∧
      (tickTransitions t dt s).style x = ((s.active x).tick dt (s.style x)).1 := by
  obtain ⟨l₁, l₂, hl, h₁, h₂⟩ := exists_split_of_count_eq_one hcount
  obtain ⟨hactive, hstyle⟩ := tickVisits_away dt s h₁
  obtain ⟨hactive', hstyle'⟩ := tickVisits_away dt (tickVisit dt (l₁.foldl (tickVisit dt) s) x) h₂
  rw [tickTransitions, descend_eq, hl, List.foldl_append, List.foldl_cons, hactive', hstyle']
  simp only [tickVisit, Function.update_self, hactive, hstyle, and_self]

theorem clearDirtyRec_kept (t : PseudoTree) (s : TickDoc R) :
    (clearDirtyRec t s).active = s.active ∧ (clearDirtyRec t s).style = s.style := by
  rw [clearDirtyRec, descend_eq]
  generalize walk t.clearLinks t.heap.size t.root = l
  induction l generalizing s with
  | nil => exact ⟨rfl, rfl⟩
  | cons n l ih => exact ih _

/-- The keyframes of a frame leave the transition of `x` alone: no call they make on
`x` gives it another target. -/
def Frame.leaves (t : PseudoTree) (f : Frame R) (x : NodeId) (tr : ActiveTransition R) : Prop :=
  ∀ k : Nat, (walk t.frameLinks t.heap.size t.root)[k]? = some x →
    ∀ c ∈ (f.anim k).sets, ∀ call, c.add = some call → tr.undisturbed call = true

variable [IsStrictOrderedRing R]

theorem styleSets_active {sets : List (StyleSet R)}
    (hp : activeOn p (s.active x).list = some tr)
    (hcalm : n = x → ∀ c ∈ sets, ∀ call, c.add = some call → tr.undisturbed call = true) :
    activeOn p ((sets.foldl (miniStyleSet n) s).active x).list = some tr := by
  induction sets generalizing s with
  | nil => exact hp
  | cons c sets ih =>
    refine ih ?_ fun hn c' hc' => hcalm hn c' (List.mem_cons_of_mem c hc')
    by_cases hn : n = x
    · subst hn
      rw [miniStyleSet]
      dsimp only
      rw [Function.update_self]
      cases hadd : c.add with
      | none => exact hp
      | some call =>
        exact miniAddTransitionVal_activeOn hp (hcalm rfl c List.mem_cons_self call hadd)
    · rw [miniStyleSet]
      dsimp only
      rw [Function.update_of_ne (Ne.symm hn)]
      exact hp

theorem applyVisits_active {anim : Nat → AnimVisit R} {l : List NodeId} {k : Nat}
    (hp : activeOn p (s.active x).list = some tr)
    (hcalm : ∀ i : Nat, l[i]? = some x → ∀ c ∈ (anim (k + i)).sets, ∀ call, c.add = some call →
      tr.undisturbed call = true) :
    activeOn p ((l.foldl (applyVisit anim) (s, k)).1.active x).list = some tr := by
  induction l generalizing s k with
  | nil => exact hp
  | cons n l ih =>
    rw [List.foldl_cons, applyVisit]
    refine ih (styleSets_active hp fun hn => ?_) fun i hi => ?_
    · exact hcalm 0 (congrArg some hn)
    · rw [Nat.add_assoc, Nat.add_comm 1 i]
      exact hcalm (i + 1) hi

/-- The step: in a frame that leaves it alone, the transition of a node that is
visited once advances by the delta. -/
theorem tickFrame_ticked (hcount : (walk t.frameLinks t.heap.size t.root).count x = 1)
    {f : Frame R} (hcalm : f.leaves t x tr) (hp : activeOn p (s.active x).list = some tr) :
    Ticked f.delta p tr ((miniDomTickFrame t s f).style x)
      ((miniDomTickFrame t s f).active x).list := by
  rw [miniDomTickFrame, (clearDirtyRec_kept t _).1, (clearDirtyRec_kept t _).2,
    (tickTransitions_node hcount _ _).1, (tickTransitions_node hcount _ _).2]
  have hactive : activeOn p ((applyAnimations t f.anim { s with
      animTime := s.animTime + f.delta
      dirty := false
      activeEffects := decide (0 < f.canvasCommands)
      paintDirty := decide (0 < f.canvasCommands) }).active x).list = some tr := by
    rw [applyAnimations, descend_eq]
    exact applyVisits_active hp fun i hi => by rw [Nat.zero_add]; exact hcalm i hi
  exact tickList_spec (ActiveList.ok _).distinct hactive
    ((ActiveList.ok _).positive tr (List.mem_of_find?_eq_some hactive)) _

/-! ## Runs of frames -/

/-- The frames of a run, one after the other. -/
def tickFrames (t : PseudoTree) (s : TickDoc R) (fs : List (Frame R)) : TickDoc R :=
  fs.foldl (miniDomTickFrame t) s

/-- The time a transition has elapsed after the frames. -/
def elapsedAfter (tr : ActiveTransition R) (fs : List (Frame R)) : R :=
  tr.startTime + (fs.map Frame.delta).sum

/-- The transition `tr` of `x`, active in `s`, advances once per frame: as long as
its duration is not reached it has elapsed the sum of the deltas, and in the frame
that reaches it the transition is removed and its fields hold the target. -/
def AdvancesOncePerFrame (t : PseudoTree) (s : TickDoc R) (x : NodeId) (tr : ActiveTransition R)
    (fs : List (Frame R)) : Prop :=
  (∀ pre, pre <+: fs → pre ≠ fs → elapsedAfter tr pre < tr.duration) →
    (elapsedAfter tr fs < tr.duration → activeOn tr.prop ((tickFrames t s fs).active x).list =
      some { tr with startTime := elapsedAfter tr fs }) ∧
    (fs ≠ [] → tr.duration ≤ elapsedAfter tr fs →
      activeOn tr.prop ((tickFrames t s fs).active x).list = none ∧
      ∀ i f, tr.prop.fields[i]? = some f → ((tickFrames t s fs).style x).value f = tr.targetVal i)

/-- In every run whose keyframes leave it alone, a transition of a node that neither
is generated nor stands in a generated node advances once per frame. -/
theorem advances_of_not_generated (h : t.Built) (hx : Below t.heap.parentOf x t.root)
    (hgen : ∀ a, Below t.heap.parentOf x a → ¬ t.Generated a)
    (hp : activeOn tr.prop (s.active x).list = some tr) {fs : List (Frame R)}
    (hcalm : ∀ f ∈ fs, f.leaves t x tr) : AdvancesOncePerFrame t s x tr fs := by
  have hcount := h.count_visits hx hgen
  intro hfirst
  induction fs using List.reverseRecOn with
  | nil =>
    refine ⟨fun _ => ?_, fun hne => absurd rfl hne⟩
    simpa [elapsedAfter, tickFrames] using hp
  | append_singleton pre f ih =>
    -- the frames before leave the transition running
    have hstrict : pre ≠ pre ++ [f] := fun heq => by simpa using congrArg List.length heq
    have hrunning := (ih (fun g hg => hcalm g (List.mem_append_left _ hg))
      fun pre' hpre' hne => hfirst pre' (hpre'.trans (List.prefix_append _ _)) fun heq => by
        have hlen := hpre'.length_le
        rw [heq, List.length_append] at hlen
        simp at hlen).1 (hfirst pre (List.prefix_append _ _) hstrict)
    have hleaves : f.leaves t x { tr with startTime := elapsedAfter tr pre } :=
      hcalm f (List.mem_append_right _ List.mem_cons_self)
    have hstep := tickFrame_ticked hcount hleaves hrunning
    have helapsed : elapsedAfter tr (pre ++ [f]) = elapsedAfter tr pre + f.delta := by
      simp [elapsedAfter, add_assoc]
    rw [tickFrames, List.foldl_append, List.foldl_cons, List.foldl_nil, helapsed]
    exact ⟨hstep.running, fun _ => hstep.done⟩

end Frames

/-! ## Concrete documents -/

/-- A transition of the opacity over 2 seconds. -/
def fade : ActiveTransition ℚ where
  prop := .opacity
  startVal _ := 0
  targetVal _ := 1
  numVals := 1
  startTime := 0
  duration := 2
  timing := 0
  bezier := (0, 0, 0, 0)

theorem activeOk_fade : ActiveOk [fade] :=
  ⟨List.nodup_singleton _, fun tr htr => by
    rw [List.mem_singleton.1 htr]
    exact two_pos⟩

/-- The node `x` fades. -/
def fadeDoc (x : NodeId) : TickDoc ℚ where
  style _ := ⟨fun _ => 0, false, false, false, 0, fun _ => 0⟩
  active n := if n = x then ⟨[fade], activeOk_fade⟩ else ActiveList.empty
  dirtyLayout _ := false
  dirtyPaint _ := false
  dirty := false
  layoutDirty := false
  activeEffects := false
  paintDirty := false
  animTime := 0

/-- A frame of one second without keyframes. -/
def secondFrame : Frame ℚ :=
  ⟨1, 0, fun _ => ⟨false, false, []⟩⟩

theorem advances_of_not_generated_body :
    AdvancesOncePerFrame bodyTree (fadeDoc 1) 1 fade [secondFrame, secondFrame] := by
  have hbelow : Below bodyTree.heap.parentOf 1 bodyTree.root := Below.of_parent (by decide)
  refine advances_of_not_generated built_bodyTree hbelow ?_ rfl fun f hf => ?_
  · rintro a - ⟨p, hp | hp⟩ <;> cases hp
  · intro k _ c hc
    rw [show f = secondFrame by simpa using hf] at hc
    cases hc

/-- The generated node of the body (node 2) has elapsed 2 after a frame of 1. -/
theorem generated_advances_twice :
    ¬ AdvancesOncePerFrame (bodyTree.createPseudo .before 1) (fadeDoc 2) 2 fade [secondFrame] := by
  intro h
  have hfirst : ∀ pre, pre <+: [secondFrame] → pre ≠ [secondFrame] →
      elapsedAfter fade pre < fade.duration := by
    intro pre hpre hne
    rcases List.prefix_cons_iff.1 hpre with rfl | ⟨t, rfl, ht⟩
    · decide +kernel
    · rw [List.prefix_nil.1 ht] at hne
      exact absurd rfl hne
  have hrun := (h hfirst).1 (by decide +kernel)
  have hgone : (activeOn fade.prop ((tickFrames (bodyTree.createPseudo .before 1) (fadeDoc 2)
      [secondFrame]).active 2).list).isNone = true := by decide +kernel
  rw [hrun] at hgone
  cases hgone

end TinyFramework.Style
