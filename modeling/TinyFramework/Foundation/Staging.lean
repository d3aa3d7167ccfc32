/-
  Foundation/Staging.lean --- text put together in a buffer of fixed size.

  Pieces go to a buffer of `cap` places, the last kept for a terminator.  A block
  is taken as far as it fits and is not followed by a test of the level; a single
  item is, and at the level `mark` the buffer is flushed.
-/
import Mathlib.Data.List.Basic

set_option autoImplicit false

namespace TinyFramework.Foundation.Staging

variable {α : Type}

/-- What is written to the buffer; an item that is not `guarded` is stored without
a look at the level. -/
inductive Piece (α : Type) where
  | block (l : List α)
  | item (a : α) (guarded : Bool)

/-- The text of a piece. -/
def Piece.text : Piece α → List α
  | .block l => l
  | .item a _ => [a]

/-- The text of all pieces. -/
def text (ps : List (Piece α)) : List α := ps.flatMap Piece.text

@[simp] theorem text_cons (q : Piece α) (ps : List (Piece α)) :
    text (q :: ps) = q.text ++ text ps := rfl

section Buffer

variable (cap mark : Nat)

/-- A piece put behind what the buffer holds. -/
def put (out : List α) : Piece α → List α
  | .block l => out ++ l.take (cap - 1 - out.length)
  | .item a guarded => if guarded = false ∨ out.length + 1 < cap then out ++ [a] else out

/-- The piece is followed by a flush. -/
def flushes (out : List α) : Piece α → Bool
  | .block _ => false
  | .item _ _ => decide (mark ≤ out.length)

/-- The contents flushed, and what is left in the buffer. -/
def stage : List α → List (Piece α) → List (List α) × List α
  | out, [] => ([], out)
  | out, q :: ps =>
      let out := put cap out q
      if flushes mark out q then
        let (chunks, left) := stage [] ps
        (out :: chunks, left)
      else stage out ps

/-- The places a piece is stored to at the level `n`. -/
def putStores (n : Nat) : Piece α → List Nat
  | .block l => List.range' n (min l.length (cap - 1 - n))
  | .item _ guarded => if guarded = false ∨ n + 1 < cap then [n] else []

/-- All places stored to, those of the terminators with them. -/
def stores : List α → List (Piece α) → List Nat
  | out, [] => [out.length]
  | out, q :: ps =>
      let out' := put cap out q
      putStores cap out.length q ++
        if flushes mark out' q then out'.length :: stores [] ps else stores out' ps

/-- The level behind a piece that was put whole at the level `n`. -/
def next (n : Nat) : Piece α → Nat
  | .block l => n + l.length
  | .item _ _ => if mark ≤ n + 1 then 0 else n + 1

/-- Every piece leaves room for the terminator; `n` is the level. -/
def Fits : Nat → List (Piece α) → Prop
  | _, [] => True
  | n, q :: ps => n + q.text.length < cap ∧ Fits (next mark n q) ps

instance Fits.instDecidable : ∀ (n : Nat) (ps : List (Piece α)), Decidable (Fits cap mark n ps)
  | _, [] => inferInstanceAs (Decidable True)
  | n, q :: ps => @instDecidableAnd _ _ _ (Fits.instDecidable (next mark n q) ps)

/-- The whole output. -/
def emitted (out : List α) (ps : List (Piece α)) : List α :=
  (stage cap mark out ps).1.flatten ++ (stage cap mark out ps).2

variable {cap mark}

theorem emitted_cons (out : List α) (q : Piece α) (ps : List (Piece α)) :
    emitted cap mark out (q :: ps) =
      if flushes mark (put cap out q) q then put cap out q ++ emitted cap mark [] ps
      else emitted cap mark (put cap out q) ps := by
  unfold emitted
  by_cases hf : flushes mark (put cap out q) q = true
  · simp [stage, hf]
  · simp [stage, hf]

/-! ## Nothing is added -/

theorem length_put_le (out : List α) (q : Piece α) :
    (put cap out q).length ≤ out.length + q.text.length := by
  cases q with
  | block l =>
    simp only [put, Piece.text, List.length_append, List.length_take]
    omega
  | item a guarded =>
    simp only [put, Piece.text, List.length_singleton]
    split_ifs <;> simp

theorem length_emitted_le (ps : List (Piece α)) (out : List α) :
    (emitted cap mark out ps).length ≤ out.length + (text ps).length := by
  induction ps generalizing out with
  | nil => simp [emitted, stage]
  | cons q ps ih =>
    have hput : (put cap out q).length ≤ out.length + q.text.length := length_put_le out q
    rw [emitted_cons, text_cons, List.length_append]
    split_ifs
    · have := ih []
      simp only [List.length_append, List.length_nil] at this ⊢
      omega
    · have := ih (put cap out q)
      omega

theorem put_subset (out : List α) (q : Piece α) : put cap out q ⊆ out ++ q.text := by
  cases q with
  | block l =>
    exact List.append_subset.2 ⟨List.subset_append_left _ _,
      List.Subset.trans (List.take_subset _ _) (List.subset_append_right _ _)⟩
  | item a guarded =>
    simp only [put, Piece.text]
    split_ifs
    · exact List.Subset.refl _
    · exact List.subset_append_left _ _

/-- What is flushed and what is left comes from the text. -/
theorem stage_subset {ps : List (Piece α)} {out : List α} {l : List α}
    (hl : l ∈ (stage cap mark out ps).2 :: (stage cap mark out ps).1) :
    l ⊆ out ++ text ps := by
  induction ps generalizing out with
  | nil =>
    obtain rfl : l = out := by simpa [stage] using hl
    simp
  | cons q ps ih =>
    have hput : put cap out q ⊆ out ++ q.text := put_subset out q
    have hmono : ∀ {o : List α}, o ⊆ out ++ q.text →
        o ++ text ps ⊆ out ++ text (q :: ps) := by
      intro o ho
      rw [text_cons, ← List.append_assoc]
      exact List.append_subset.2 ⟨List.Subset.trans ho (List.subset_append_left _ _),
        List.subset_append_right _ _⟩
    by_cases hf : flushes mark (put cap out q) q = true
    · simp only [stage, hf, if_true, List.mem_cons] at hl
      rcases hl with hl | rfl | hl
      · exact List.Subset.trans (ih (List.mem_cons.2 (.inl hl))) (hmono (List.nil_subset _))
      · exact List.Subset.trans (List.subset_append_left _ _) (hmono hput)
      · exact List.Subset.trans (ih (List.mem_cons.2 (.inr hl))) (hmono (List.nil_subset _))
    · simp only [stage, hf] at hl
      exact List.Subset.trans (ih hl) (hmono hput)

/-! ## Everything is kept -/

theorem put_of_fits {out : List α} {q : Piece α} (h : out.length + q.text.length < cap) :
    put cap out q = out ++ q.text := by
  cases q with
  | block l =>
    simp only [Piece.text] at h
    rw [put, List.take_of_length_le (by omega)]
    rfl
  | item a guarded => exact if_pos (.inr h)

theorem putStores_lt {n : Nat} {q : Piece α} (h : n + q.text.length < cap) :
    ∀ i ∈ putStores cap n q, i < cap := by
  intro i hi
  cases q with
  | block l =>
    simp only [putStores, List.mem_range'_1, Piece.text] at hi h
    omega
  | item a guarded =>
    simp only [Piece.text, List.length_singleton] at h
    rw [putStores, if_pos (.inr h), List.mem_singleton] at hi
    omega

/-- A piece that does not fit is cut, or stored with a terminator behind the
buffer. -/
theorem cut_or_past {out : List α} {q : Piece α} (hout : out.length < cap)
    (h : ¬ out.length + q.text.length < cap) :
    (put cap out q).length < out.length + q.text.length ∨
      (flushes mark (put cap out q) q = decide (mark ≤ cap) ∧
        (put cap out q).length = cap) := by
  cases q with
  | block l =>
    left
    simp only [put, Piece.text, List.length_append, List.length_take] at h ⊢
    omega
  | item a guarded =>
    simp only [Piece.text, List.length_singleton] at h ⊢
    by_cases hg : guarded = false
    · right
      have hput : put cap out (.item a guarded) = out ++ [a] := if_pos (.inl hg)
      have hlen : (out ++ [a]).length = cap := by
        rw [List.length_append, List.length_singleton]
        omega
      rw [hput, flushes, hlen]
      exact ⟨rfl, rfl⟩
    · left
      rw [put, if_neg (by simp [hg, h])]
      exact Nat.lt_succ_self _

theorem next_of_flushes {out : List α} {q : Piece α}
    (hf : flushes mark (out ++ q.text) q = true) : next mark out.length q = 0 := by
  cases q with
  | block l => cases hf
  | item a guarded => exact if_pos (by simpa [flushes, Piece.text] using hf)

theorem next_of_not_flushes {out : List α} {q : Piece α}
    (hf : ¬ flushes mark (out ++ q.text) q = true) :
    next mark out.length q = (out ++ q.text).length := by
  rw [List.length_append]
  cases q with
  | block l => rfl
  | item a guarded => exact if_neg (by simpa [flushes, Piece.text] using hf)

/-- A piece that does not fit spoils the output or a store. -/
theorem not_exact_of_not_fits (hmark : mark ≤ cap) {out : List α} (hout : out.length < cap)
    {q : Piece α} (hfit : ¬ out.length + q.text.length < cap) (ps : List (Piece α)) :
    ¬ (emitted cap mark out (q :: ps) = out ++ text (q :: ps) ∧
      ∀ i ∈ stores cap mark out (q :: ps), i < cap) := by
  rintro ⟨htext, hall⟩
  have hcases : (put cap out q).length < out.length + q.text.length ∨
      (flushes mark (put cap out q) q = decide (mark ≤ cap) ∧ (put cap out q).length = cap) :=
    cut_or_past hout hfit
  rcases hcases with hcut | ⟨hf, hlen⟩
  · have hle : (emitted cap mark out (q :: ps)).length ≤
        (put cap out q).length + (text ps).length := by
      rw [emitted_cons]
      split_ifs
      · have hrest : (emitted cap mark [] ps).length ≤ ([] : List α).length + (text ps).length :=
          length_emitted_le ps []
        simp only [List.length_append, List.length_nil] at hrest ⊢
        omega
      · exact length_emitted_le ps _
    rw [htext, text_cons, List.length_append, List.length_append] at hle
    omega
  · rw [decide_eq_true hmark] at hf
    have hpast : cap < cap := hall cap (by simp [stores, hf, hlen])
    exact Nat.lt_irrefl _ hpast

/-- The text comes out whole and every store is inside the buffer exactly when the
pieces fit. -/
theorem emitted_stores_iff (hmark : mark ≤ cap) (ps : List (Piece α)) {out : List α}
    (hout : out.length < cap) :
    (emitted cap mark out ps = out ++ text ps ∧ ∀ i ∈ stores cap mark out ps, i < cap) ↔
      Fits cap mark out.length ps := by
  induction ps generalizing out with
  | nil => simpa [emitted, stage, stores, Fits, text] using hout
  | cons q ps ih =>
    by_cases hfit : out.length + q.text.length < cap
    · have hput := put_of_fits hfit
      have hstores := putStores_lt hfit
      have hlen : (out ++ q.text).length < cap := by rwa [List.length_append]
      rw [Fits, and_iff_right hfit, emitted_cons, stores, hput, text_cons, ← List.append_assoc]
      by_cases hf : flushes mark (out ++ q.text) q = true
      · -- the buffer is flushed, and starts again from the bottom
        have ih' : (emitted cap mark [] ps = [] ++ text ps ∧
            ∀ i ∈ stores cap mark [] ps, i < cap) ↔ Fits cap mark 0 ps :=
          ih (Nat.zero_lt_of_lt hout)
        rw [List.nil_append] at ih'
        rw [next_of_flushes hf, ← ih', if_pos hf, List.append_cancel_left_eq]
        simp only [hf, if_true, List.forall_mem_append, List.forall_mem_cons]
        constructor
        · rintro ⟨htext, -, -, hall⟩
          exact ⟨htext, hall⟩
        · rintro ⟨htext, hall⟩
          exact ⟨htext, hstores, hlen, hall⟩
      · rw [next_of_not_flushes hf, ← ih hlen, if_neg hf]
        simp only [hf, Bool.false_eq_true, if_false, List.forall_mem_append]
        constructor
        · rintro ⟨htext, -, hall⟩
          exact ⟨htext, hall⟩
        · rintro ⟨htext, hall⟩
          exact ⟨htext, hstores, hall⟩
    · exact iff_of_false (not_exact_of_not_fits hmark hout hfit ps) fun h => hfit h.1

end Buffer

end TinyFramework.Foundation.Staging
