/-
  Canvas/Transform.lean --- the transform stack of the 2d context.

  The current matrix `g2d_m`, the sixteen slots of `g2d_stk` and the seven calls
  that touch them, over an arbitrary commutative ring in place of the float
  arithmetic.  Above them, the drawing model of a canvas: a list of the operations
  in force and the lists that the open saves put aside.

  `mini_2d_transform` puts its argument on the wrong side and `mini_2d_save` drops
  every save beyond the sixteenth; away from both the calls follow the model.
-/
import Mathlib.Analysis.SpecialFunctions.Trigonometric.Basic
import TinyFramework.Foundation.Affine

set_option autoImplicit false

namespace TinyFramework.Canvas

open TinyFramework.Foundation

universe u

/-- The part of `MiniDocumentContext` the transform calls use: `g2d_m`, and the
filled slots of `g2d_stk`, the top one first. -/
structure Ctx2d (R : Type u) where
  m : Affine R
  stk : List (Affine R)
  deriving DecidableEq, Repr

/-- The calls that change the current matrix. -/
inductive Call (R : Type u) where
  | translate (x y : R)
  | scale (sx sy : R)
  | rotate (rad : R)
  | transform (a b c d e f : R)
  | setTransform (a b c d e f : R)
  | save
  | restore
  deriving DecidableEq, Repr

/-! ## The calls of the source -/

section Source

variable {R : Type u} [CommRing R]

/-- The context `mini_doc_create` sets up. -/
def Ctx2d.initial : Ctx2d R := { m := ⟨1, 0, 0, 1, 0, 0⟩, stk := [] }

/-- `mini_2d_save`: sixteen slots. -/
def mini2dSave (g : Ctx2d R) : Ctx2d R :=
  if g.stk.length < 16 then { g with stk := g.m :: g.stk } else g

/-- `mini_2d_restore` -/
def mini2dRestore (g : Ctx2d R) : Ctx2d R :=
  match g.stk with
  | [] => g
  | top :: rest => { m := top, stk := rest }

/-- `mini_2d_translate` -/
def mini2dTranslate (g : Ctx2d R) (x y : R) : Ctx2d R :=
  { g with
    m := { g.m with
      e := g.m.e + (g.m.a * x + g.m.c * y)
      f := g.m.f + (g.m.b * x + g.m.d * y) } }

/-- `mini_2d_scale` -/
def mini2dScale (g : Ctx2d R) (sx sy : R) : Ctx2d R :=
  { g with
    m := { g.m with
      a := g.m.a * sx
      b := g.m.b * sx
      c := g.m.c * sy
      d := g.m.d * sy } }

/-- `mini_2d_rotate`, with the values of `cosf` and `sinf` at the angle. -/
def mini2dRotate (g : Ctx2d R) (c s : R) : Ctx2d R :=
  { g with
    m := { g.m with
      a := g.m.a * c + g.m.c * s
      b := g.m.b * c + g.m.d * s
      c := -g.m.a * s + g.m.c * c
      d := -g.m.b * s + g.m.d * c } }

/-- `mini_2d_transform` -/
def mini2dTransform (g : Ctx2d R) (a b c d e f : R) : Ctx2d R :=
  { g with
    m :=
      { a := a * g.m.a + c * g.m.b
        b := b * g.m.a + d * g.m.b
        c := a * g.m.c + c * g.m.d
        d := b * g.m.c + d * g.m.d
        e := a * g.m.e + c * g.m.f + e
        f := b * g.m.e + d * g.m.f + f } }

/-- `mini_2d_set_transform` -/
def mini2dSetTransform (g : Ctx2d R) (a b c d e f : R) : Ctx2d R :=
  { g with m := ⟨a, b, c, d, e, f⟩ }

variable (cosf sinf : R → R)

/-- One call. -/
def Call.exec (g : Ctx2d R) : Call R → Ctx2d R
  | .translate x y => mini2dTranslate g x y
  | .scale sx sy => mini2dScale g sx sy
  | .rotate rad => mini2dRotate g (cosf rad) (sinf rad)
  | .transform a b c d e f => mini2dTransform g a b c d e f
  | .setTransform a b c d e f => mini2dSetTransform g a b c d e f
  | .save => mini2dSave g
  | .restore => mini2dRestore g

/-- A sequence of calls. -/
def runCalls (g : Ctx2d R) (calls : List (Call R)) : Ctx2d R :=
  calls.foldl (Call.exec cosf sinf) g

end Source

/-! ## The drawing model -/

/-- The operations in force, oldest first, and the lists put aside by the saves
that are still open, the innermost first. -/
structure Drawing (R : Type u) where
  ops : List (Affine R)
  saved : List (List (Affine R))

section Model

variable {R : Type u} [CommRing R]

/-- The composition of the operations in force: the newest is applied first. -/
def Drawing.matrix (s : Drawing R) : Affine R := s.ops.prod

/-- Nothing drawn, nothing saved. -/
def Drawing.initial : Drawing R := { ops := [], saved := [] }

variable (cosf sinf : R → R)

/-- What a call asks for. -/
def Drawing.step (s : Drawing R) : Call R → Drawing R
  | .translate x y => { s with ops := s.ops ++ [⟨1, 0, 0, 1, x, y⟩] }
  | .scale sx sy => { s with ops := s.ops ++ [⟨sx, 0, 0, sy, 0, 0⟩] }
  | .rotate rad =>
      { s with ops := s.ops ++ [⟨cosf rad, sinf rad, -sinf rad, cosf rad, 0, 0⟩] }
  | .transform a b c d e f => { s with ops := s.ops ++ [⟨a, b, c, d, e, f⟩] }
  | .setTransform a b c d e f => { s with ops := [⟨a, b, c, d, e, f⟩] }
  | .save => { s with saved := s.ops :: s.saved }
  | .restore =>
    match s.saved with
    | [] => s
    | ops :: saved => { ops := ops, saved := saved }

/-- What a sequence of calls asks for. -/
def Drawing.run (s : Drawing R) (calls : List (Call R)) : Drawing R :=
  calls.foldl (Drawing.step cosf sinf) s

/-- Calls in which every save has its restore and no restore reaches further out. -/
inductive Balanced : List (Call R) → Prop
  | nil : Balanced []
  | plain {call : Call R} {rest : List (Call R)} (hsave : call ≠ .save)
      (hrestore : call ≠ .restore) (hrest : Balanced rest) : Balanced (call :: rest)
  | nested {inner rest : List (Call R)} (hinner : Balanced inner) (hrest : Balanced rest) :
      Balanced (.save :: inner ++ .restore :: rest)

/-- The canvas follows the model through every prefix of the calls, and a restore
gives back the matrix its matching save has seen. -/
def FollowsModel (calls : List (Call R)) : Prop :=
  (∀ pre, pre <+: calls →
    (runCalls cosf sinf .initial pre).m = (Drawing.run cosf sinf .initial pre).matrix) ∧
  ∀ pre inner, Balanced inner → pre ++ (.save :: inner ++ [.restore]) <+: calls →
    (runCalls cosf sinf .initial (pre ++ (.save :: inner ++ [.restore]))).m =
      (runCalls cosf sinf .initial pre).m

/-! ## Away from the two defects -/

/-- The call meets neither defect: the argument of a transform commutes with the
current matrix, and a save finds a free slot. -/
def callSafe (g : Ctx2d R) : Call R → Prop
  | .transform a b c d e f => Commute g.m ⟨a, b, c, d, e, f⟩
  | .save => g.stk.length < 16
  | _ => True

/-- Every call of the sequence meets neither defect. -/
def SafeCalls (g : Ctx2d R) : List (Call R) → Prop
  | [] => True
  | call :: rest => callSafe g call ∧ SafeCalls (call.exec cosf sinf g) rest

variable {cosf sinf} {g : Ctx2d R} {s : Drawing R}

/-- The context stores the matrices of the model. -/
def Refines (g : Ctx2d R) (s : Drawing R) : Prop :=
  g.m = s.matrix ∧ g.stk = s.saved.map List.prod

theorem refines_initial : Refines (.initial : Ctx2d R) .initial :=
  ⟨rfl, rfl⟩

/-- A call that only composes the current matrix on the right with `op`. -/
theorem Refines.compose (h : Refines g s) {m : Affine R} (op : Affine R) (hm : m = g.m * op) :
    Refines { g with m := m } { s with ops := s.ops ++ [op] } := by
  refine ⟨?_, h.2⟩
  rw [Drawing.matrix, List.prod_append, List.prod_singleton]
  exact hm.trans (congrArg (· * op) h.1)

/-- The formula of `mini_2d_transform` composes on the left. -/
theorem mini2dTransform_m (g : Ctx2d R) (a b c d e f : R) :
    (mini2dTransform g a b c d e f).m = ⟨a, b, c, d, e, f⟩ * g.m :=
  rfl

/-- So a transform is the composition it should be exactly when its argument
commutes with the current matrix. -/
theorem transform_composes_iff (g : Ctx2d R) (a b c d e f : R) :
    (mini2dTransform g a b c d e f).m = g.m * ⟨a, b, c, d, e, f⟩ ↔
      callSafe g (.transform a b c d e f) := by
  rw [mini2dTransform_m]
  exact eq_comm

theorem Refines.step (h : Refines g s) {call : Call R} (hsafe : callSafe g call) :
    Refines (call.exec cosf sinf g) (s.step cosf sinf call) := by
  cases call with
  | translate x y =>
    refine h.compose ⟨1, 0, 0, 1, x, y⟩ ?_
    ext <;> simp only [Affine.mul_def, Affine.comp] <;> ring
  | scale sx sy =>
    refine h.compose ⟨sx, 0, 0, sy, 0, 0⟩ ?_
    ext <;> simp only [Affine.mul_def, Affine.comp] <;> ring
  | rotate rad =>
    refine h.compose ⟨cosf rad, sinf rad, -sinf rad, cosf rad, 0, 0⟩ ?_
    ext <;> simp only [Affine.mul_def, Affine.comp] <;> ring
  | transform a b c d e f => exact h.compose _ ((transform_composes_iff g a b c d e f).2 hsafe)
  | setTransform a b c d e f => exact ⟨(List.prod_singleton).symm, h.2⟩
  | save =>
    have hslot : g.stk.length < 16 := hsafe
    rw [Call.exec, mini2dSave, if_pos hslot]
    exact ⟨h.1, congrArg₂ List.cons h.1 h.2⟩
  | restore =>
    obtain ⟨hm, hstk⟩ := h
    rw [Call.exec, mini2dRestore, Drawing.step]
    cases hsaved : s.saved with
    | nil =>
      rw [hsaved] at hstk
      rw [hstk]
      exact ⟨hm, hstk.trans (congrArg (List.map List.prod) hsaved.symm)⟩
    | cons ops saved =>
      rw [hsaved] at hstk
      rw [hstk]
      exact ⟨rfl, rfl⟩

theorem Drawing.run_append (pre post : List (Call R)) :
    s.run cosf sinf (pre ++ post) = (s.run cosf sinf pre).run cosf sinf post :=
  List.foldl_append

theorem SafeCalls.of_append {pre post : List (Call R)}
    (h : SafeCalls cosf sinf g (pre ++ post)) : SafeCalls cosf sinf g pre := by
  induction pre generalizing g with
  | nil => trivial
  | cons call pre ih => exact ⟨h.1, ih h.2⟩

theorem Refines.run (h : Refines g s) {calls : List (Call R)}
    (hsafe : SafeCalls cosf sinf g calls) :
    Refines (runCalls cosf sinf g calls) (s.run cosf sinf calls) := by
  induction calls generalizing g s with
  | nil => exact h
  | cons call calls ih => exact ih (h.step hsafe.1) hsafe.2

theorem Drawing.step_restore {ops : List (Affine R)} {saved : List (List (Affine R))}
    (h : s.saved = ops :: saved) :
    s.step cosf sinf .restore = { ops := ops, saved := saved } := by
  rw [Drawing.step, h]

/-- Balanced calls leave the open saves of the model alone. -/
theorem Balanced.saved {calls : List (Call R)} (h : Balanced calls) (s : Drawing R) :
    (s.run cosf sinf calls).saved = s.saved := by
  induction h generalizing s with
  | nil => rfl
  | @plain call rest hsave hrestore _ ih =>
    refine (ih _).trans ?_
    cases call with
    | save => exact absurd rfl hsave
    | restore => exact absurd rfl hrestore
    | _ => rfl
  | @nested inner rest _ _ ihinner ihrest =>
    have hinner : ((s.step cosf sinf .save).run cosf sinf inner).saved = s.ops :: s.saved :=
      ihinner _
    change ((s.step cosf sinf .save).run cosf sinf (inner ++ .restore :: rest)).saved = s.saved
    rw [Drawing.run_append]
    exact (ihrest _).trans (congrArg Drawing.saved (Drawing.step_restore hinner))

/-- In the model a restore gives back what its matching save has put aside. -/
theorem Balanced.restores {inner : List (Call R)} (h : Balanced inner) (s : Drawing R) :
    s.run cosf sinf (.save :: inner ++ [.restore]) = s := by
  have hinner : ((s.step cosf sinf .save).run cosf sinf inner).saved = s.ops :: s.saved :=
    h.saved _
  change (s.step cosf sinf .save).run cosf sinf (inner ++ [.restore]) = s
  rw [Drawing.run_append]
  exact (Drawing.step_restore hinner : Drawing.step cosf sinf _ .restore = s)

/-- Calls that meet neither defect follow the drawing model. -/
theorem followsModel_of_safeCalls (cosf sinf : R → R) {calls : List (Call R)}
    (hsafe : SafeCalls cosf sinf .initial calls) : FollowsModel cosf sinf calls := by
  have hrun : ∀ pre, pre <+: calls →
      (runCalls cosf sinf .initial pre).m = (Drawing.run cosf sinf .initial pre).matrix := by
    rintro pre ⟨post, rfl⟩
    exact (refines_initial.run hsafe.of_append).1
  refine ⟨hrun, fun pre inner hinner hpre => ?_⟩
  have hpre' : pre <+: calls := (List.prefix_append pre _).trans hpre
  rw [hrun _ hpre, hrun _ hpre', Drawing.run_append, hinner.restores]

end Model

/-! ## Concrete runs -/

section Runs

open Real

/-- Two nested saves, a rotation, and a quarter turn after a uniform scale. -/
theorem followsModel_of_safeCalls_nested :
    FollowsModel cos sin
      [.save, .scale 2 2, .transform 0 1 (-1) 0 0 0, .save, .rotate π, .restore, .restore] := by
  refine followsModel_of_safeCalls cos sin ?_
  simp [SafeCalls, callSafe, Call.exec, mini2dSave, mini2dScale, mini2dTransform,
    Ctx2d.initial, Commute, SemiconjBy, Affine.mul_def, Affine.comp]

/-- `scale(2, 1); transform(1, 0, 0, 1, 1, 0)`: the shift by one is not scaled. -/
theorem transform_after_scale :
    ¬ FollowsModel cos sin [.scale 2 1, .transform 1 0 0 1 1 0] := by
  intro h
  have he := congrArg Affine.e (h.1 _ List.prefix_rfl)
  simp [runCalls, Call.exec, mini2dScale, mini2dTransform, Ctx2d.initial, Drawing.run,
    Drawing.step, Drawing.matrix, Drawing.initial, Affine.mul_def, Affine.comp] at he

end Runs

end TinyFramework.Canvas
