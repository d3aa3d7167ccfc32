/-
  Foundation/Brackets.lean --- brackets that enclose, told from how often each occurs.

  Behind an open bracket a text is enclosed up to the first bracket that closes more than was
  opened, or to its end.  What is enclosed is split at the first separator that no inner
  bracket holds.
-/
import Mathlib.Data.List.Infix

set_option autoImplicit false

namespace TinyFramework.Foundation

universe u

variable {α : Type u} [DecidableEq α] {opening closing sep : α}

/-- Nothing is closed that was not opened before. -/
def NoStray (opening closing : α) (t : List α) : Prop :=
  ∀ p, p <+: t → p.count closing ≤ p.count opening

/-- As many are closed as are opened. -/
def EvenBrackets (opening closing : α) (t : List α) : Prop := t.count closing = t.count opening

/-- What an open bracket encloses of the text behind it, and what follows. -/
inductive Encloses (opening closing : α) : List α → List α → List α → Prop where
  | closed (inner rest : List α) : NoStray opening closing inner → EvenBrackets opening closing inner →
      Encloses opening closing (inner ++ closing :: rest) inner rest
  | unclosed (inner : List α) : NoStray opening closing inner →
      Encloses opening closing inner inner []

/-- What is in front of the first separator outside of brackets, and what is behind it. -/
inductive SplitsAt (opening closing sep : α) : List α → List α → Option (List α) → Prop where
  | whole (t : List α) : (∀ a b, t = a ++ sep :: b → ¬ EvenBrackets opening closing a) →
      SplitsAt opening closing sep t t none
  | split (head tail : List α) : (∀ a b, head = a ++ sep :: b → ¬ EvenBrackets opening closing a) →
      EvenBrackets opening closing head →
        SplitsAt opening closing sep (head ++ sep :: tail) head (some tail)

theorem NoStray.of_append {a b : List α} (h : NoStray opening closing (a ++ b)) :
    NoStray opening closing a :=
  fun p hp => h p (hp.trans (List.prefix_append a b))

theorem NoStray.concat {t : List α} (h : NoStray opening closing t) {x : α}
    (hx : x = closing → ¬ EvenBrackets opening closing t) : NoStray opening closing (t ++ [x]) := by
  intro p hp
  rcases List.prefix_concat_iff.1 hp with rfl | hp
  · have hle := h t List.prefix_rfl
    rw [List.count_append, List.count_append]
    by_cases heq : x = closing
    · have hne := hx heq
      unfold EvenBrackets at hne
      rw [heq, List.count_singleton_self]
      omega
    · rw [List.count_singleton, if_neg (by simpa using heq)]
      omega
  · exact h p hp

theorem Encloses.length_le {t inner rest : List α} (h : Encloses opening closing t inner rest) :
    rest.length ≤ t.length := by
  cases h with
  | closed _ _ => simp; omega
  | unclosed _ => exact Nat.zero_le _

/-- Behind what is enclosed the text ends, or a bracket closes. -/
theorem Encloses.parts {t inner rest : List α} (h : Encloses opening closing t inner rest) :
    ∃ close, t = inner ++ close ∧ NoStray opening closing inner ∧
      (close = [] ∧ rest = [] ∨ close = closing :: rest ∧ EvenBrackets opening closing inner) := by
  cases h with
  | closed _ _ hstray heven => exact ⟨_, rfl, hstray, .inr ⟨rfl, heven⟩⟩
  | unclosed _ hstray => exact ⟨[], (List.append_nil _).symm, hstray, .inl ⟨rfl, rfl⟩⟩

theorem exists_encloses (opening closing : α) (t : List α) :
    ∃ inner rest, Encloses opening closing t inner rest := by
  induction t using List.reverseRecOn with
  | nil =>
    refine ⟨[], [], .unclosed [] fun p hp => ?_⟩
    rw [List.prefix_nil.1 hp]
    exact Nat.le_refl 0
  | append_singleton t x ih =>
    obtain ⟨inner, rest, h⟩ := ih
    cases h with
    | closed _ _ hstray heven =>
      refine ⟨inner, rest ++ [x], ?_⟩
      rw [List.append_assoc]
      exact .closed inner (rest ++ [x]) hstray heven
    | unclosed _ hstray =>
      by_cases hcloses : x = closing ∧ EvenBrackets opening closing t
      · obtain ⟨rfl, heven⟩ := hcloses
        exact ⟨t, [], .closed t [] hstray heven⟩
      · exact ⟨t ++ [x], [], .unclosed _ (hstray.concat fun hx h => hcloses ⟨hx, h⟩)⟩

theorem exists_splitsAt (opening closing sep : α) (t : List α) :
    ∃ head tail, SplitsAt opening closing sep t head tail := by
  induction t using List.reverseRecOn with
  | nil => exact ⟨[], none, .whole [] fun a b h => by simp at h⟩
  | append_singleton t x ih =>
    obtain ⟨head, tail, h⟩ := ih
    cases h with
    | split _ tail hfirst heven =>
      refine ⟨head, some (tail ++ [x]), ?_⟩
      rw [List.append_assoc]
      exact .split head (tail ++ [x]) hfirst heven
    | whole _ hnone =>
      by_cases hsep : x = sep ∧ EvenBrackets opening closing t
      · obtain ⟨rfl, heven⟩ := hsep
        exact ⟨t, some [], .split t [] hnone heven⟩
      · refine ⟨t ++ [x], none, .whole _ fun a b hab => ?_⟩
        -- the separator is the last element, or one of `t`
        rcases List.eq_nil_or_concat b with rfl | ⟨b, y, rfl⟩
        · obtain ⟨rfl, hx⟩ := List.append_inj' hab rfl
          exact fun heven => hsep ⟨(List.cons.inj hx).1, heven⟩
        · rw [List.concat_eq_append, ← List.cons_append, ← List.append_assoc] at hab
          exact hnone a b (List.append_inj' hab rfl).1

/-! ## Balanced texts -/

/-- All brackets are closed, in order. -/
def Balanced (opening closing : α) (t : List α) : Prop :=
  NoStray opening closing t ∧ EvenBrackets opening closing t

theorem NoStray.append {a b : List α} (ha : Balanced opening closing a)
    (hb : NoStray opening closing b) : NoStray opening closing (a ++ b) := by
  intro p hp
  rcases List.prefix_or_prefix_of_prefix hp (List.prefix_append a b) with hp' | ⟨q, rfl⟩
  · exact ha.1 p hp'
  · have heven := ha.2
    have hle := hb q ((List.prefix_append_right_inj a).1 hp)
    unfold EvenBrackets at heven
    rw [List.count_append, List.count_append]
    omega

theorem Balanced.append {a b : List α} (ha : Balanced opening closing a)
    (hb : Balanced opening closing b) : Balanced opening closing (a ++ b) := by
  refine ⟨.append ha hb.1, ?_⟩
  have ha' := ha.2
  have hb' := hb.2
  unfold EvenBrackets at ha' hb' ⊢
  rw [List.count_append, List.count_append, ha', hb']

theorem balanced_of_notMem {t : List α} (hopen : opening ∉ t) (hclose : closing ∉ t) :
    Balanced opening closing t := by
  refine ⟨fun p hp => ?_, ?_⟩
  · rw [List.count_eq_zero_of_not_mem fun h => hclose (hp.subset h)]
    exact Nat.zero_le _
  · unfold EvenBrackets
    rw [List.count_eq_zero_of_not_mem hclose, List.count_eq_zero_of_not_mem hopen]

theorem Balanced.enclose {t : List α} (h : Balanced opening closing t)
    (hne : opening ≠ closing) : Balanced opening closing (opening :: (t ++ [closing])) := by
  have heven := h.2
  unfold EvenBrackets at heven
  refine ⟨fun p hp => ?_, ?_⟩
  · rcases p with _ | ⟨x, p⟩
    · exact Nat.le_refl _
    obtain ⟨rfl, hp'⟩ := List.cons_prefix_cons.1 hp
    rw [List.count_cons_self, List.count_cons_of_ne hne]
    rcases List.prefix_concat_iff.1 hp' with rfl | hp'
    · rw [List.count_append, List.count_append, List.count_singleton_self, List.count_singleton,
        if_neg (by simpa using hne.symm)]
      omega
    · have := h.1 p hp'
      omega
  · unfold EvenBrackets
    rw [List.count_cons_self, List.count_cons_of_ne hne, List.count_append, List.count_append,
      List.count_singleton_self, List.count_singleton, if_neg (by simpa using hne.symm)]
    omega

/-! ## Counting the open brackets -/

/-- Reading the text leads from one number of open brackets to another. -/
inductive BracketRun (opening closing : α) : Nat → List α → Nat → Prop where
  | nil (d : Nat) : BracketRun opening closing d [] d
  | opens {d e : Nat} {t : List α} : BracketRun opening closing (d + 1) t e →
      BracketRun opening closing d (opening :: t) e
  | closes {d e : Nat} {t : List α} : BracketRun opening closing d t e →
      BracketRun opening closing (d + 1) (closing :: t) e
  | other {d e : Nat} {x : α} {t : List α} : x ≠ opening → x ≠ closing →
      BracketRun opening closing d t e → BracketRun opening closing d (x :: t) e

theorem bracketRun_of_prefixes (hne : opening ≠ closing) {d : Nat} {t : List α}
    (h : ∀ p, p <+: t → p.count closing ≤ d + p.count opening) :
    BracketRun opening closing d t (d + t.count opening - t.count closing) := by
  induction t generalizing d with
  | nil => exact .nil d
  | cons x t ih =>
    have htail : ∀ p, p <+: t → (x :: p).count closing ≤ d + (x :: p).count opening :=
      fun p hp => h (x :: p) (List.cons_prefix_cons.2 ⟨rfl, hp⟩)
    by_cases hopen : x = opening
    · subst hopen
      simp only [List.count_cons_self, List.count_cons_of_ne hne] at htail ⊢
      have hrest := ih (d := d + 1) fun p hp => by have := htail p hp; omega
      rw [show d + 1 + t.count x - t.count closing = d + (t.count x + 1) - t.count closing by
        omega] at hrest
      exact .opens hrest
    by_cases hclose : x = closing
    · subst hclose
      simp only [List.count_cons_self, List.count_cons_of_ne hne.symm] at htail ⊢
      have hdeep := htail [] List.nil_prefix
      obtain _ | d := d
      · simp at hdeep
      have hrest := ih (d := d) fun p hp => by have := htail p hp; omega
      rw [show d + t.count opening - t.count x = d + 1 + t.count opening - (t.count x + 1) by
        omega] at hrest
      exact .closes hrest
    · simp only [List.count_cons_of_ne hopen, List.count_cons_of_ne hclose]
        at htail ⊢
      exact .other hopen hclose (ih htail)

/-- A balanced text leads back to where it began. -/
theorem Balanced.bracketRun {t : List α} (h : Balanced opening closing t)
    (hne : opening ≠ closing) (d : Nat) : BracketRun opening closing d t d := by
  have heven := h.2
  unfold EvenBrackets at heven
  have hrun := bracketRun_of_prefixes hne (d := d) fun p hp =>
    Nat.le_trans (h.1 p hp) (Nat.le_add_left _ _)
  rwa [heven, Nat.add_sub_cancel] at hrun

end TinyFramework.Foundation
