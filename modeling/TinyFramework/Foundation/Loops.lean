/-
  Foundation/Loops.lean --- loops that stop, run side by side, or read once more.

  A turn takes a state to the next one or leaves the loop.  A loop all of whose turns make a
  measure smaller ends; one that comes to a state from which every turn stays among such
  states does not.

  A program written over an arbitrary monad can be run with a store behind it and
  without one.  A `Lockstep` relates the runs: it is closed under returning a value and
  under going on from a value both runs return.  A program that is built by these two
  from related calls is then related as a whole, and nothing about the store has to be
  said again for it.

  A turn of the loop takes the first item of the input and gives back a state and
  the input it goes on with.  It reads at least the item, or leaves the input as it
  was and lowers a rank of the state; with a rank of at most `k`, an item is read
  within `k + 1` turns.
-/
import Mathlib.Data.List.Basic
import Mathlib.Logic.Relation

set_option autoImplicit false

namespace TinyFramework.Foundation

universe u v w

section Turns

variable {σ : Type u} (turn : σ → Option σ)

/-- Some turns of the loop, as long as none leaves it. -/
def runTurns : Nat → σ → Option σ
  | 0, s => some s
  | n + 1, s => (turn s).bind (runTurns n)

/-- The loop is left after some turn. -/
def Ends (s : σ) : Prop := ∃ n, runTurns turn n s = none

/-- A state that turns lead to. -/
def LeadsTo (s s' : σ) : Prop := Relation.ReflTransGen (fun a b => turn a = some b) s s'

variable {turn} {s s' : σ} {μ : σ → Nat} {Stuck : σ → Prop}

theorem Ends.of_none (h : turn s = none) : Ends turn s := ⟨1, congrArg (Option.bind · _) h⟩

theorem ends_iff_of_some (h : turn s = some s') : Ends turn s ↔ Ends turn s' := by
  constructor
  · rintro ⟨n, hn⟩
    cases n with
    | zero => cases hn
    | succ n =>
      rw [runTurns, h] at hn
      exact ⟨n, hn⟩
  · rintro ⟨n, hn⟩
    refine ⟨n + 1, ?_⟩
    rw [runTurns, h]
    exact hn

theorem LeadsTo.refl (s : σ) : LeadsTo turn s s := Relation.ReflTransGen.refl

theorem LeadsTo.head {t : σ} (h : turn s = some s') (ht : LeadsTo turn s' t) : LeadsTo turn s t :=
  Relation.ReflTransGen.head h ht

theorem ends_iff_of_leadsTo (h : LeadsTo turn s s') : Ends turn s ↔ Ends turn s' := by
  induction h with
  | refl => exact Iff.rfl
  | tail _ hstep ih => exact ih.trans (ends_iff_of_some hstep)

/-- A loop whose turns make the measure smaller ends. -/
theorem ends_of_descends
    (h : ∀ t, LeadsTo turn s t → ∀ t', turn t = some t' → μ t' < μ t) : Ends turn s := by
  generalize hn : μ s = n
  induction n using Nat.strongRecOn generalizing s with
  | ind n ih =>
    cases hturn : turn s with
    | none => exact .of_none hturn
    | some s' =>
      refine (ends_iff_of_some hturn).2 (ih (μ s') ?_ (fun t ht => h t (.head hturn ht)) rfl)
      exact hn ▸ h s (.refl s) s' hturn

/-- A loop that comes to states it does not get out of goes on for ever. -/
theorem not_ends_of_stuck (hstuck : ∀ t, Stuck t → ∃ t', turn t = some t' ∧ Stuck t')
    (h : Stuck s) : ¬ Ends turn s := by
  rintro ⟨n, hn⟩
  induction n generalizing s with
  | zero => cases hn
  | succ n ih =>
    obtain ⟨s', hturn, hs'⟩ := hstuck s h
    rw [runTurns, hturn] at hn
    exact ih hs' hn

/-- When the other turns make the measure smaller, such states are all that keeps the loop from
ending. -/
theorem ends_iff_not_stuck (hstuck : ∀ t, Stuck t → ∃ t', turn t = some t' ∧ Stuck t')
    (hdown : ∀ t t', ¬ Stuck t → turn t = some t' → μ t' < μ t) :
    Ends turn s ↔ ∀ t, LeadsTo turn s t → ¬ Stuck t := by
  constructor
  · intro hends t ht hs
    exact not_ends_of_stuck hstuck hs ((ends_iff_of_leadsTo ht).1 hends)
  · exact fun hfree => ends_of_descends fun t ht t' => hdown t t' (hfree t ht)

/-- And all that keeps a turn from making the measure smaller. -/
theorem descends_iff_not_stuck (hstuck : ∀ t, Stuck t → ∃ t', turn t = some t' ∧ Stuck t')
    (hdown : ∀ t t', ¬ Stuck t → turn t = some t' → μ t' < μ t) :
    (∀ t, LeadsTo turn s t → ∀ t', turn t = some t' → μ t' < μ t) ↔
      ∀ t, LeadsTo turn s t → ¬ Stuck t := by
  refine ⟨fun hall => ?_, fun hfree t ht t' => hdown t t' (hfree t ht)⟩
  exact (ends_iff_not_stuck hstuck hdown).1 (ends_of_descends hall)

end Turns

/-! ## Two monads in step -/

/-- A relation between the computations of two monads that every program respects. -/
structure Lockstep (m : Type u → Type v) (m' : Type u → Type w) [Monad m] [Monad m'] where
  agree : ∀ {α : Type u}, m α → m' α → Prop
  pure : ∀ {α : Type u} (a : α), agree (Pure.pure a) (Pure.pure a)
  bind : ∀ {α β : Type u} {x : m α} {x' : m' α} {f : α → m β} {f' : α → m' β},
    agree x x' → (∀ a, agree (f a) (f' a)) → agree (x >>= f) (x' >>= f')

namespace Lockstep

section

variable {m : Type u → Type v} {m' : Type u → Type w} [Monad m] [Monad m']
  (L : Lockstep m m') {α β : Type u} {P : α → Prop} {Q : β → Prop} {x : m α} {x' : m' α}

/-- Both runs read a value of which `P` holds. -/
def Reads (P : α → Prop) (x : m α) (x' : m' α) : Prop :=
  ∀ {γ : Type u} (f : α → m γ) (f' : α → m' γ),
    (∀ a, P a → L.agree (f a) (f' a)) → L.agree (x >>= f) (x' >>= f')

variable {L}

theorem Reads.map [LawfulMonad m] [LawfulMonad m'] (h : L.Reads P x x') {g : α → β}
    (hg : ∀ a, P a → Q (g a)) : L.Reads Q (g <$> x) (g <$> x') := by
  intro γ f f' hf
  rw [bind_map_left, bind_map_left]
  exact h _ _ fun a ha => hf (g a) (hg a ha)

/-- Both runs go the same way. -/
theorem agree_ite {c : Prop} [Decidable c] {y : m α} {y' : m' α} (hx : c → L.agree x x')
    (hy : ¬ c → L.agree y y') : L.agree (if c then x else y) (if c then x' else y') := by
  split_ifs with hc
  · exact hx hc
  · exact hy hc

end

section

variable {m : Type → Type v} {m' : Type → Type w} [Monad m] [Monad m'] {L : Lockstep m m'}
  {α : Type u}

/-- Both runs ask, and go the way of the answer. -/
theorem agree_test {β : Type} {x : m Bool} {x' : m' Bool} {y z : m β} {y' z' : m' β}
    (hx : L.agree x x') (hy : L.agree y y') (hz : L.agree z z') :
    L.agree (do if ← x then y else z) (do if ← x' then y' else z') :=
  L.bind hx fun _ => agree_ite (fun _ => hy) fun _ => hz

/-- Trying the members of a list until one succeeds. -/
theorem agree_anyM {p : α → m Bool} {p' : α → m' Bool} {l : List α}
    (h : ∀ a ∈ l, L.agree (p a) (p' a)) : L.agree (l.anyM p) (l.anyM p') := by
  induction l with
  | nil => exact L.pure false
  | cons a l ih =>
    refine L.bind (h a List.mem_cons_self) fun b => ?_
    cases b with
    | true => exact L.pure true
    | false => exact ih fun b hb => h b (List.mem_cons_of_mem a hb)

end

end Lockstep

section Reading

variable {σ β : Type} (turn : σ → β → List β → σ × List β) (rank : σ → Nat)

/-- `n` turns, fewer when the input ends. -/
def turns : Nat → σ × List β → σ × List β
  | 0, x => x
  | _, (s, []) => (s, [])
  | n + 1, (s, b :: rest) => turns n (turn s b rest)

/-- A turn reads an item, or lowers the rank and reads nothing. -/
def ReadsOrLowers (s : σ) (b : β) (rest : List β) : Prop :=
  (turn s b rest).2.length ≤ rest.length ∨
    ((turn s b rest).2 = b :: rest ∧ rank (turn s b rest).1 < rank s)

variable {turn rank}

theorem turns_nil (n : Nat) (s : σ) : turns turn n (s, []) = (s, []) := by
  cases n <;> rfl

theorem turns_succ (n : Nat) (s : σ) (b : β) (rest : List β) :
    turns turn (n + 1) (s, b :: rest) = turns turn n (turn s b rest) := rfl

theorem turns_add (m n : Nat) (x : σ × List β) :
    turns turn (m + n) x = turns turn n (turns turn m x) := by
  induction m generalizing x with
  | zero => rw [Nat.zero_add, turns]
  | succ m ih =>
    obtain ⟨s, _ | ⟨b, rest⟩⟩ := x
    · simp only [turns_nil]
    · rw [Nat.add_right_comm, turns_succ, turns_succ, ih]

/-- The item is read within as many turns as its state has ranks below it, and one. -/
theorem exists_turns_read (h : ∀ s b rest, ReadsOrLowers turn rank s b rest) (s : σ) (b : β)
    (rest : List β) :
    ∃ n ≤ rank s, (turns turn (n + 1) (s, b :: rest)).2.length ≤ rest.length := by
  induction hk : rank s using Nat.strongRecOn generalizing s with
  | ind k ih =>
    rcases h s b rest with hread | ⟨hsame, hlow⟩
    · exact ⟨0, Nat.zero_le _, hread⟩
    · obtain ⟨n, hn, hread⟩ := ih _ (hk ▸ hlow) _ rfl
      refine ⟨n + 1, by omega, ?_⟩
      rw [turns_succ]
      have hturn : turn s b rest = ((turn s b rest).1, b :: rest) := by rw [← hsame]
      rwa [hturn]

/-- The loop ends: every item costs at most `k + 1` turns. -/
theorem exists_turns_end {k : Nat} (h : ∀ s b rest, ReadsOrLowers turn rank s b rest)
    (hrank : ∀ s, rank s ≤ k) (s : σ) (input : List β) :
    ∃ n ≤ (k + 1) * input.length, (turns turn n (s, input)).2 = [] := by
  induction hlen : input.length using Nat.strongRecOn generalizing s input with
  | ind len ih =>
    cases input with
    | nil => exact ⟨0, Nat.zero_le _, rfl⟩
    | cons b rest =>
      obtain ⟨n, hn, hread⟩ := exists_turns_read h s b rest
      generalize hr : turns turn (n + 1) (s, b :: rest) = r at hread
      rw [List.length_cons] at hlen
      obtain ⟨m, hm, hend⟩ := ih r.2.length (by omega) r.1 r.2 rfl
      refine ⟨n + 1 + m, ?_, ?_⟩
      · have hk := hrank s
        calc n + 1 + m ≤ (k + 1) + (k + 1) * r.2.length := by omega
          _ = (k + 1) * (r.2.length + 1) := by rw [Nat.mul_succ, Nat.add_comm]
          _ ≤ (k + 1) * len := Nat.mul_le_mul_left _ (by omega)
      · rw [turns_add, hr]
        exact hend

end Reading

end TinyFramework.Foundation
