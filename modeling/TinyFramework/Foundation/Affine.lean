/-
  Foundation/Affine.lean --- affine maps of the plane by their six coefficients.

  The coefficients `a b c d e f` send the point `(x, y)` to
  `(a x + c y + e, b x + d y + f)`, the order in which drawing interfaces list
  them.  Maps form a monoid under composition; `m * n` applies `n` first.
-/
import Mathlib.Algebra.BigOperators.Group.List.Basic
import Mathlib.Tactic.Ring

set_option autoImplicit false

namespace TinyFramework.Foundation

universe u

/-- An affine map of the plane, column by column. -/
@[ext]
structure Affine (R : Type u) where
  a : R
  b : R
  c : R
  d : R
  e : R
  f : R
  deriving DecidableEq, Repr

namespace Affine

variable {R : Type u} [CommRing R]

/-- The map that applies `n` first and `m` to its result. -/
def comp (m n : Affine R) : Affine R where
  a := m.a * n.a + m.c * n.b
  b := m.b * n.a + m.d * n.b
  c := m.a * n.c + m.c * n.d
  d := m.b * n.c + m.d * n.d
  e := m.a * n.e + m.c * n.f + m.e
  f := m.b * n.e + m.d * n.f + m.f

/-- The map that moves nothing. -/
def identity : Affine R := ⟨1, 0, 0, 1, 0, 0⟩

theorem comp_assoc (m n k : Affine R) : (m.comp n).comp k = m.comp (n.comp k) := by
  ext <;> simp only [comp] <;> ring

theorem identity_comp (m : Affine R) : identity.comp m = m := by
  ext <;> simp [comp, identity]

theorem comp_identity (m : Affine R) : m.comp identity = m := by
  ext <;> simp [comp, identity]

instance : Monoid (Affine R) where
  mul := comp
  one := identity
  mul_assoc := comp_assoc
  one_mul := identity_comp
  mul_one := comp_identity

theorem mul_def (m n : Affine R) : m * n = m.comp n := rfl

end Affine

end TinyFramework.Foundation
