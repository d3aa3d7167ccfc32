/-
  Foundation/Histories.lean --- what holds behind every beginning of a history.

  A system carries out one step after another from a start.  An invariant that a step keeps
  only if it is safe holds throughout a history of safe steps; if safety is exactly what a step
  has to have to keep it and to be right, the histories that are in order throughout are those
  of safe steps.
-/
import Mathlib.Data.List.Basic
import Mathlib.Data.List.Induction

set_option autoImplicit false

namespace TinyFramework.Foundation

universe u v

namespace Histories

variable {σ : Type u} {τ : Type v} {exec : σ → τ → σ} {start : σ} (Inv : σ → Prop)

/-- What each step of a history meets, one step behind the other. -/
def Throughout (exec : σ → τ → σ) (P : σ → τ → Prop) : σ → List τ → Prop
  | _, [] => True
  | s, a :: rest => P s a ∧ Throughout exec P (exec s a) rest

theorem forall_iff_throughout {P : σ → τ → Prop} {steps : List τ} :
    (∀ pre a post, steps = pre ++ a :: post → P (pre.foldl exec start) a) ↔
      Throughout exec P start steps := by
  induction steps generalizing start with
  | nil =>
    refine iff_of_true (fun pre a post h => ?_) trivial
    exact absurd h.symm (List.append_ne_nil_of_right_ne_nil pre (List.cons_ne_nil a post))
  | cons b rest ih =>
    constructor
    · intro h
      refine ⟨h [] b rest rfl, ih.1 fun pre a post hrest => h (b :: pre) a post ?_⟩
      rw [hrest, List.cons_append]
    · rintro ⟨hb, hrest⟩ pre a post hsteps
      cases pre with
      | nil =>
        obtain ⟨rfl, -⟩ := List.cons.inj hsteps
        exact hb
      | cons c pre =>
        obtain ⟨rfl, htail⟩ := List.cons.inj hsteps
        exact ih.2 hrest pre a post htail

/-- An invariant that each step of a history keeps in its place. -/
theorem invariant {steps : List τ} (hstart : Inv start)
    (hkeep : ∀ pre a post, steps = pre ++ a :: post → Inv (pre.foldl exec start) →
      Inv (exec (pre.foldl exec start) a)) (pre post : List τ) (hsteps : steps = pre ++ post) :
    Inv (pre.foldl exec start) := by
  induction pre using List.reverseRecOn generalizing post with
  | nil => exact hstart
  | append_singleton pre a ih =>
    rw [List.append_assoc, List.singleton_append] at hsteps
    rw [List.foldl_concat]
    exact hkeep pre a post hsteps (ih _ hsteps)

variable (Right Safe : σ → τ → Prop)

/-- If the invariant makes right steps and safe ones the same, and safe steps keep it, the histories
of right steps are those of safe steps. -/
theorem right_iff {steps : List τ} (hstart : Inv start)
    (hstep : ∀ pre a post, steps = pre ++ a :: post → Inv (pre.foldl exec start) →
      (Right (pre.foldl exec start) a ↔ Safe (pre.foldl exec start) a))
    (hkeep : ∀ pre a post, steps = pre ++ a :: post → Inv (pre.foldl exec start) →
      Safe (pre.foldl exec start) a → Inv (exec (pre.foldl exec start) a)) :
    (∀ pre a post, steps = pre ++ a :: post → Right (pre.foldl exec start) a) ↔
      ∀ pre a post, steps = pre ++ a :: post → Safe (pre.foldl exec start) a := by
  constructor
  · intro hright pre a post hsteps
    have hinv : Inv (pre.foldl exec start) :=
      invariant Inv hstart (fun pre a post hsteps hinv =>
        hkeep pre a post hsteps hinv ((hstep pre a post hsteps hinv).1 (hright pre a post hsteps)))
        pre _ hsteps
    exact (hstep pre a post hsteps hinv).1 (hright pre a post hsteps)
  · intro hsafe pre a post hsteps
    have hinv : Inv (pre.foldl exec start) :=
      invariant Inv hstart (fun pre a post hsteps hinv =>
        hkeep pre a post hsteps hinv (hsafe pre a post hsteps)) pre _ hsteps
    exact (hstep pre a post hsteps hinv).2 (hsafe pre a post hsteps)

/-- The invariant holds throughout and every step is right, exactly if every step is safe. -/
theorem law_iff (hstart : Inv start)
    (hstep : ∀ (pre : List τ) (a : τ), Inv (pre.foldl exec start) →
      (Inv (exec (pre.foldl exec start) a) ∧ Right (pre.foldl exec start) a ↔
        Safe (pre.foldl exec start) a)) (steps : List τ) :
    ((∀ pre post, steps = pre ++ post → Inv (pre.foldl exec start)) ∧
        ∀ pre a post, steps = pre ++ a :: post → Right (pre.foldl exec start) a) ↔
      ∀ pre a post, steps = pre ++ a :: post → Safe (pre.foldl exec start) a := by
  constructor
  · rintro ⟨hinv, hright⟩ pre a post hsteps
    refine (hstep pre a (hinv pre _ hsteps)).1 ⟨?_, hright pre a post hsteps⟩
    rw [← List.foldl_concat exec]
    exact hinv (pre ++ [a]) post (by rw [hsteps, List.append_assoc, List.singleton_append])
  · intro hsafe
    have hinv : ∀ pre post, steps = pre ++ post → Inv (pre.foldl exec start) :=
      invariant Inv hstart fun pre a post hsteps hinv =>
        ((hstep pre a hinv).2 (hsafe pre a post hsteps)).1
    exact ⟨hinv, fun pre a post hsteps =>
      ((hstep pre a (hinv pre _ hsteps)).2 (hsafe pre a post hsteps)).2⟩

end Histories

end TinyFramework.Foundation
