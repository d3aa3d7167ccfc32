/-
  Foundation/CallTree.lean --- recursions that make further calls.

  A call makes the calls that `next` names, in that order.  Over finitely many calls the
  recursion comes to an end exactly when no call that it makes leads back to itself.  When
  the calls are of two kinds, and those of one kind alone lead nowhere back, it is enough to
  look at the places where a call of the other kind is made.
-/
import Mathlib.Data.Set.Card

set_option autoImplicit false

namespace TinyFramework.Foundation

universe u

variable {α : Type u}

/-- The calls that a call makes, itself first; none when they go deeper than the bound. -/
def callTrace (next : α → List α) : Nat → α → Option (List α)
  | 0, _ => none
  | fuel + 1, a => ((next a).mapM (callTrace next fuel)).map fun traces => a :: traces.flatten

/-- The recursion makes only finitely many calls. -/
def Finishes (next : α → List α) (a : α) : Prop := ∃ fuel, (callTrace next fuel a).isSome

section Finishes

variable {next : α → List α} {a b : α}

theorem mapM_isSome_iff {β : Type u} (f : α → Option β) (l : List α) :
    (l.mapM f).isSome ↔ ∀ x ∈ l, (f x).isSome := by
  induction l with
  | nil => simp
  | cons x l ih =>
    rw [List.mapM_cons, List.forall_mem_cons, ← ih]
    cases hx : f x with
    | none => simp
    | some y => cases hl : l.mapM f <;> simp

theorem callTrace_isSome_succ (fuel : Nat) (a : α) :
    (callTrace next (fuel + 1) a).isSome ↔ ∀ b ∈ next a, (callTrace next fuel b).isSome := by
  rw [callTrace, Option.isSome_map, mapM_isSome_iff]

theorem callTrace_isSome_mono {fuel fuel' : Nat} (hle : fuel ≤ fuel')
    (h : (callTrace next fuel a).isSome) : (callTrace next fuel' a).isSome := by
  induction fuel generalizing fuel' a with
  | zero => cases h
  | succ fuel ih =>
    obtain ⟨fuel', rfl⟩ := Nat.exists_eq_add_of_le' hle
    rw [← Nat.add_assoc, callTrace_isSome_succ] at *
    exact fun b hb => ih (Nat.le_add_left _ _) (h b hb)

/-- A call whose calls all come to an end does. -/
theorem finishes_of_next (h : ∀ b ∈ next a, Finishes next b) : Finishes next a := by
  have hall : ∃ fuel, ∀ b ∈ next a, (callTrace next fuel b).isSome := by
    generalize next a = l at h
    induction l with
    | nil => exact ⟨0, fun _ hb => absurd hb List.not_mem_nil⟩
    | cons b l ih =>
      obtain ⟨fuel, hfuel⟩ := h b List.mem_cons_self
      obtain ⟨fuel', hfuel'⟩ := ih fun c hc => h c (List.mem_cons_of_mem b hc)
      refine ⟨max fuel fuel', List.forall_mem_cons.2 ⟨?_, fun c hc => ?_⟩⟩
      · exact callTrace_isSome_mono (Nat.le_max_left _ _) hfuel
      · exact callTrace_isSome_mono (Nat.le_max_right _ _) (hfuel' c hc)
  obtain ⟨fuel, hfuel⟩ := hall
  exact ⟨fuel + 1, (callTrace_isSome_succ fuel a).2 hfuel⟩

theorem Finishes.of_mem (h : Finishes next a) (hb : b ∈ next a) : Finishes next b := by
  obtain ⟨fuel, hfuel⟩ := h
  cases fuel with
  | zero => cases hfuel
  | succ fuel => exact ⟨fuel, (callTrace_isSome_succ fuel a).1 hfuel b hb⟩

end Finishes

/-! ## Cycles -/

/-- `a` makes the call `b`. -/
def Makes (next : α → List α) (a b : α) : Prop := b ∈ next a

section Cycles

variable {next : α → List α} {a b : α}

theorem Finishes.leads (h : Finishes next a) (hb : Relation.ReflTransGen (Makes next) a b) :
    Finishes next b := by
  induction hb with
  | refl => exact h
  | tail _ hstep ih => exact ih.of_mem hstep

/-- A call that comes to an end does not lead back to itself. -/
theorem Finishes.not_cycle (h : Finishes next a) : ¬ Relation.TransGen (Makes next) a a := by
  obtain ⟨fuel, hfuel⟩ := h
  have hdeep : ∀ fuel b, (callTrace next fuel b).isSome →
      ¬ (Relation.ReflTransGen (Makes next) b a ∧ Relation.TransGen (Makes next) a a) := by
    intro fuel
    induction fuel with
    | zero => exact fun b hb => absurd hb Bool.false_ne_true
    | succ fuel ih =>
      rintro b hb ⟨hba, haa⟩
      rw [callTrace_isSome_succ] at hb
      obtain ⟨c, hc, hca⟩ := Relation.TransGen.head'_iff.1 (Relation.TransGen.trans_right hba haa)
      exact ih c (hb c hc) ⟨hca, haa⟩
  exact fun haa => hdeep fuel a hfuel ⟨.refl, haa⟩

/-- Without a cycle, a recursion over finitely many calls comes to an end. -/
theorem finishes_of_no_cycle (hfin : {b | Relation.ReflTransGen (Makes next) a b}.Finite)
    (h : ∀ b, Relation.ReflTransGen (Makes next) a b → ¬ Relation.TransGen (Makes next) b b) :
    Finishes next a := by
  have hall : ∀ n b, Relation.ReflTransGen (Makes next) a b →
      {c | Relation.TransGen (Makes next) b c}.ncard = n → Finishes next b := by
    intro n
    induction n using Nat.strongRecOn with
    | ind n ih =>
      intro b hb hn
      have hfinb : {c | Relation.TransGen (Makes next) b c}.Finite :=
        hfin.subset fun c hc => hb.trans hc.to_reflTransGen
      refine finishes_of_next fun c hc => ih _ ?_ c (hb.tail hc) rfl
      rw [← hn]
      refine Set.ncard_lt_ncard ⟨fun x hx => ?_, fun hback => ?_⟩ hfinb
      · exact Relation.TransGen.head hc hx
      · exact h c (hb.tail hc) (hback (Relation.TransGen.single hc))
  exact hall _ a .refl rfl

theorem finishes_iff (hfin : {b | Relation.ReflTransGen (Makes next) a b}.Finite) :
    Finishes next a ↔
      ∀ b, Relation.ReflTransGen (Makes next) a b → ¬ Relation.TransGen (Makes next) b b :=
  ⟨fun h _ hb => (h.leads hb).not_cycle, finishes_of_no_cycle hfin⟩

end Cycles

/-! ## Two kinds of calls -/

section Jumps

variable {r s t : α → α → Prop} {a b u v : α}

/-- A call of the second kind, and calls of the first kind from there to a place where the next one
of the second kind is made. -/
def Jump (r s : α → α → Prop) (u v : α) : Prop :=
  ∃ b, s u b ∧ Relation.ReflTransGen r b v ∧ ∃ w, s v w

/-- On a way that ends where a call of the second kind is made, either there are no such calls, or
it goes from one to the next. -/
theorem reach_cases (ht : ∀ a b, t a b ↔ r a b ∨ s a b) (h : Relation.ReflTransGen t a v)
    (hv : ∃ w, s v w) :
    Relation.ReflTransGen r a v ∨
      ∃ u, Relation.ReflTransGen r a u ∧ Relation.TransGen (Jump r s) u v := by
  induction h using Relation.ReflTransGen.head_induction_on with
  | refl => exact .inl .refl
  | @head a b hab _ ih =>
    rcases (ht a b).1 hab with hr | hs
    · rcases ih with hb | ⟨u, hbu, huv⟩
      · exact .inl (.head hr hb)
      · exact .inr ⟨u, .head hr hbu, huv⟩
    · rcases ih with hb | ⟨u, hbu, huv⟩
      · exact .inr ⟨a, .refl, .single ⟨b, hs, hb, hv⟩⟩
      · have hu : ∃ w, s u w := by
          obtain ⟨c, huc, -⟩ := Relation.TransGen.head'_iff.1 huv
          obtain ⟨w, hw, -⟩ := huc
          exact ⟨w, hw⟩
        exact .inr ⟨a, .refl, .head ⟨b, hs, hbu, hu⟩ huv⟩

theorem reach_of_jump (ht : ∀ a b, t a b ↔ r a b ∨ s a b) (h : Jump r s u v) :
    Relation.TransGen t u v := by
  obtain ⟨b, hs, hr, -⟩ := h
  have hrest : Relation.ReflTransGen t b v :=
    Relation.ReflTransGen.mono (fun a b hab => (ht a b).2 (.inl hab)) _ _ hr
  exact .head' ((ht u b).2 (.inr hs)) hrest

/-- When the calls of the first kind lead nowhere back, a cycle is one of jumps. -/
theorem cycle_iff_jumps (ht : ∀ a b, t a b ↔ r a b ∨ s a b)
    (hr : ∀ a, ¬ Relation.TransGen r a a) :
    (∀ b, Relation.ReflTransGen t a b → ¬ Relation.TransGen t b b) ↔
      ∀ u, Relation.ReflTransGen t a u → ¬ Relation.TransGen (Jump r s) u u := by
  constructor
  · intro h u hu hcycle
    refine h u hu ?_
    clear h hu
    have hmap : ∀ v, Relation.TransGen (Jump r s) u v → Relation.TransGen t u v := by
      intro v hv
      induction hv with
      | single hj => exact reach_of_jump ht hj
      | tail _ hj ih => exact ih.trans (reach_of_jump ht hj)
    exact hmap u hcycle
  · intro h b hb hcycle
    -- some call on the cycle is of the second kind, else it were a cycle of the first
    have hsome : ∀ c, Relation.TransGen t b c →
        Relation.TransGen r b c ∨ ∃ u, Relation.ReflTransGen t b u ∧
          (∃ w, s u w ∧ Relation.ReflTransGen t w c) := by
      intro c hc
      induction hc with
      | single hstep =>
        rcases (ht _ _).1 hstep with hstep | hstep
        · exact .inl (.single hstep)
        · exact .inr ⟨b, .refl, _, hstep, .refl⟩
      | tail hbc hstep ih =>
        rcases ih with ih | ⟨u, hbu, w, huw, hwc⟩
        · rcases (ht _ _).1 hstep with hstep' | hstep'
          · exact .inl (ih.tail hstep')
          · exact .inr ⟨_, hbc.to_reflTransGen, _, hstep', .refl⟩
        · exact .inr ⟨u, hbu, w, huw, hwc.tail hstep⟩
    obtain ⟨u, hbu, w, huw, hwb⟩ := (hsome b hcycle).resolve_left (hr b)
    have hwu : Relation.ReflTransGen t w u := hwb.trans hbu
    refine h u (hb.trans hbu) ?_
    rcases reach_cases ht hwu ⟨w, huw⟩ with hdirect | ⟨v, hwv, hvu⟩
    · exact .single ⟨w, huw, hdirect, w, huw⟩
    · have hv : ∃ x, s v x := by
        obtain ⟨c, hvc, -⟩ := Relation.TransGen.head'_iff.1 hvu
        obtain ⟨x, hx, -⟩ := hvc
        exact ⟨x, hx⟩
      exact .head ⟨w, huw, hwv, hv⟩ hvu

end Jumps

end TinyFramework.Foundation
