/-
  Foundation/Tokens.lean --- the pieces of a text between separators.

  Separators next to one another count as one, and those at the two ends count for nothing: no
  piece is empty.

  A list of segments is written with a separator in front of each; a text is cut at its
  separators.  The two undo each other, and the length of a text is that of its segments
  and their separators.
-/
import Mathlib.Algebra.GroupWithZero.Nat
import Mathlib.Data.List.Basic

set_option autoImplicit false

namespace TinyFramework.Foundation

universe u

section Tokens

variable {α : Type} (sep : α → Bool)

/-- `strtok` -/
def tokens (s : List α) : List (List α) := (s.splitOnP sep).filter fun t => !t.isEmpty

@[simp] theorem tokens_nil : tokens sep [] = [] := by
  rw [tokens, List.splitOnP_nil]
  rfl

variable {sep}

theorem tokens_append_cons (a b : List α) {c : α} (hc : sep c) :
    tokens sep (a ++ c :: b) = tokens sep a ++ tokens sep b := by
  rw [tokens, List.splitOnP_append_cons a b hc, List.filter_append]
  rfl

theorem tokens_cons {c : α} (hc : sep c) (s : List α) : tokens sep (c :: s) = tokens sep s := by
  have h := tokens_append_cons [] s hc
  rwa [List.nil_append, tokens_nil, List.nil_append] at h

/-- Separators in front are passed over. -/
theorem tokens_append_of_space {lead : List α} (hlead : ∀ c ∈ lead, sep c) (s : List α) :
    tokens sep (lead ++ s) = tokens sep s := by
  induction lead with
  | nil => rfl
  | cons c lead ih =>
    rw [List.forall_mem_cons] at hlead
    rw [List.cons_append, tokens_cons hlead.1, ih hlead.2]

theorem tokens_of_space {s : List α} (hs : ∀ c ∈ s, sep c) : tokens sep s = [] := by
  have h := tokens_append_of_space hs []
  rwa [List.append_nil, tokens_nil] at h

/-- Two texts with separators between them are split on their own. -/
theorem tokens_append_gap {gap : List α} (hne : gap ≠ []) (hgap : ∀ c ∈ gap, sep c)
    (a b : List α) : tokens sep (a ++ (gap ++ b)) = tokens sep a ++ tokens sep b := by
  cases gap with
  | nil => exact absurd rfl hne
  | cons c gap =>
    rw [List.forall_mem_cons] at hgap
    rw [List.cons_append, tokens_append_cons _ _ hgap.1, tokens_append_of_space hgap.2]

theorem tokens_append_trail (s : List α) {trail : List α} (htrail : ∀ c ∈ trail, sep c) :
    tokens sep (s ++ trail) = tokens sep s := by
  cases trail with
  | nil => rw [List.append_nil]
  | cons c trail =>
    rw [List.forall_mem_cons] at htrail
    rw [tokens_append_cons _ _ htrail.1, tokens_of_space htrail.2, List.append_nil]

/-- A text without separators is one piece. -/
theorem tokens_alone {s : List α} (hne : s ≠ []) (hs : ∀ c ∈ s, sep c = false) :
    tokens sep s = [s] := by
  rw [tokens, List.splitOnP_eq_singleton hs, List.filter_cons_of_pos, List.filter_nil]
  rw [List.isEmpty_eq_false_iff.2 hne]
  rfl

theorem flatten_splitOnP (s : List α) : (s.splitOnP sep).flatten = s.filter fun c => !sep c := by
  induction s with
  | nil => rw [List.splitOnP_nil, List.filter_nil, List.flatten_singleton]
  | cons c s ih =>
    rw [List.splitOnP_cons_eq_if_modifyHead]
    split_ifs with hc
    · rw [List.flatten_cons, List.nil_append, ih, List.filter_cons_of_neg (by simp [hc])]
    · rw [List.filter_cons_of_pos (by simp [hc]), ← ih]
      cases hsplit : s.splitOnP sep with
      | nil => exact absurd hsplit (List.splitOnP_ne_nil sep s)
      | cons first rest => rfl

/-- The pieces hold what is no separator, in its order. -/
theorem flatten_tokens (s : List α) : (tokens sep s).flatten = s.filter fun c => !sep c := by
  have hfilter : ∀ l : List (List α), (l.filter fun t => !t.isEmpty).flatten = l.flatten := by
    intro l
    induction l with
    | nil => rfl
    | cons t l ih =>
      cases t with
      | nil => exact ih
      | cons c t => rw [List.filter_cons_of_pos rfl, List.flatten_cons, List.flatten_cons, ih]
  rw [tokens, hfilter, flatten_splitOnP]

theorem tokens_nonempty {s t : List α} (ht : t ∈ tokens sep s) : t ≠ [] := by
  rintro rfl
  cases (List.mem_filter.1 ht).2

theorem mem_tokens {s t : List α} (ht : t ∈ tokens sep s) {c : α} (hc : c ∈ t) :
    c ∈ s ∧ sep c = false := by
  have hmem := List.mem_flatten_of_mem ht hc
  rw [flatten_tokens, List.mem_filter] at hmem
  exact ⟨hmem.1, by simpa using hmem.2⟩

/-- The pieces with one place more for each are no longer than the text with one more. -/
theorem sum_tokens_le (s : List α) :
    ((tokens sep s).map fun t => t.length + 1).sum ≤ s.length + 1 := by
  have hfilter : ∀ l : List (List α),
      ((l.filter fun t => !t.isEmpty).map fun t => t.length + 1).sum ≤
        (l.map fun t => t.length + 1).sum := by
    intro l
    induction l with
    | nil => exact Nat.le_refl _
    | cons t l ih =>
      rw [List.map_cons, List.sum_cons, List.filter_cons]
      split_ifs
      · rw [List.map_cons, List.sum_cons]
        omega
      · omega
  have hsum : ∀ s : List α, ((s.splitOnP sep).map fun t => t.length + 1).sum = s.length + 1 := by
    intro s
    induction s with
    | nil => rw [List.splitOnP_nil]; rfl
    | cons c s ih =>
      rw [List.splitOnP_cons_eq_if_modifyHead]
      split_ifs
      · rw [List.map_cons, List.sum_cons, ih, List.length_nil, List.length_cons]
        omega
      · cases hsplit : s.splitOnP sep with
        | nil => exact absurd hsplit (List.splitOnP_ne_nil sep s)
        | cons first rest =>
          rw [hsplit, List.map_cons, List.sum_cons] at ih
          rw [List.modifyHead_cons, List.map_cons, List.sum_cons, List.length_cons,
            List.length_cons]
          omega
  exact Nat.le_trans (hfilter _) (Nat.le_of_eq (hsum s))

/-- There is a piece where something is no separator. -/
theorem tokens_ne_nil {s : List α} {c : α} (hmem : c ∈ s) (hc : sep c = false) :
    tokens sep s ≠ [] := by
  intro hnil
  have hflat : (tokens sep s).flatten = s.filter fun c => !sep c := flatten_tokens s
  rw [hnil, List.flatten_nil] at hflat
  have hin : c ∈ s.filter fun c => !sep c := List.mem_filter.2 ⟨hmem, by rw [hc]; rfl⟩
  rw [← hflat] at hin
  cases hin

end Tokens

/-! ## Segments -/

section Segments

variable {α : Type u}

/-- The segments, each behind a separator. -/
def segmented (sep : α) (segments : List (List α)) : List α := segments.flatMap (sep :: ·)

@[simp] theorem segmented_nil (sep : α) : segmented sep [] = [] := rfl

@[simp] theorem segmented_cons (sep : α) (s : List α) (segments : List (List α)) :
    segmented sep (s :: segments) = sep :: (s ++ segmented sep segments) := rfl

@[simp] theorem segmented_append (sep : α) (a b : List (List α)) :
    segmented sep (a ++ b) = segmented sep a ++ segmented sep b :=
  List.flatMap_append

theorem segmented_eq_nil_iff {sep : α} {segments : List (List α)} :
    segmented sep segments = [] ↔ segments = [] := by
  cases segments with
  | nil => exact iff_of_true rfl rfl
  | cons s segments => exact iff_of_false (List.cons_ne_nil _ _) (List.cons_ne_nil _ _)

theorem segmented_eq_cons_intercalate (sep : α) {segments : List (List α)}
    (h : segments ≠ []) : segmented sep segments = sep :: [sep].intercalate segments := by
  induction segments with
  | nil => exact absurd rfl h
  | cons s segments ih =>
      cases segments with
      | nil => simp
      | cons s' segments =>
          rw [segmented_cons, ih (List.cons_ne_nil _ _), List.intercalate_cons_cons]
          simp

theorem length_segmented (sep : α) (segments : List (List α)) :
    (segmented sep segments).length = (segments.map fun s => s.length + 1).sum := by
  induction segments with
  | nil => rfl
  | cons s segments ih =>
      rw [segmented_cons, List.length_cons, List.length_append, ih, List.map_cons, List.sum_cons]
      omega

variable [BEq α] [LawfulBEq α]

theorem segmented_splitOn (sep : α) (t : List α) :
    segmented sep (t.splitOn sep) = sep :: t := by
  rw [segmented_eq_cons_intercalate sep (List.splitOn_ne_nil sep t), List.intercalate_splitOn]

theorem splitOn_eq_of_segmented {sep : α} {segments : List (List α)} {t : List α}
    (hfree : ∀ s ∈ segments, sep ∉ s) (h : segmented sep segments = sep :: t) :
    t.splitOn sep = segments := by
  have hne : segments ≠ [] := by
    rintro rfl
    cases h
  rw [segmented_eq_cons_intercalate sep hne] at h
  rw [← (List.cons.inj h).2]
  exact List.splitOn_intercalate sep hfree hne

theorem not_mem_of_mem_splitOn {sep : α} (t : List α) :
    ∀ s ∈ t.splitOn sep, sep ∉ s := by
  induction t with
  | nil =>
      intro s hs
      rw [List.splitOn_nil, List.mem_singleton] at hs
      rw [hs]
      exact List.not_mem_nil
  | cons c t ih =>
      intro s hs
      rw [List.splitOn_cons_eq_if_modifyHead] at hs
      split at hs
      · rcases List.mem_cons.1 hs with rfl | hs
        · exact List.not_mem_nil
        · exact ih s hs
      · next hc =>
        cases hsplit : t.splitOn sep with
        | nil => exact absurd hsplit (List.splitOn_ne_nil sep t)
        | cons first rest =>
            rw [hsplit] at hs ih
            rcases List.mem_cons.1 hs with rfl | hs
            · intro hmem
              rcases List.mem_cons.1 hmem with heq | hmem
              · exact hc (beq_iff_eq.2 heq.symm)
              · exact ih first List.mem_cons_self hmem
            · exact ih s (List.mem_cons_of_mem _ hs)

theorem splitOn_sep_cons (sep : α) (t : List α) :
    (sep :: t).splitOn sep = [] :: t.splitOn sep := by
  rw [List.splitOn_cons_eq_if_modifyHead, if_pos (beq_self_eq_true sep)]

/-- Some of the segments take no more room than the text and one separator. -/
theorem sum_segments_le (sep : α) (t : List α) (keep : List α → Bool) :
    (((t.splitOn sep).filter keep).map fun s => s.length + 1).sum ≤ t.length + 1 := by
  have hall : ((t.splitOn sep).map fun s => s.length + 1).sum = t.length + 1 := by
    rw [← length_segmented sep, segmented_splitOn, List.length_cons]
  rw [← hall]
  generalize t.splitOn sep = segments
  induction segments with
  | nil => exact Nat.le_refl _
  | cons s segments ih =>
      rw [List.map_cons, List.sum_cons]
      cases hs : keep s with
      | true =>
          rw [List.filter_cons_of_pos hs, List.map_cons, List.sum_cons]
          exact Nat.add_le_add_left ih _
      | false =>
          rw [List.filter_cons_of_neg (by rw [hs]; exact Bool.false_ne_true)]
          exact Nat.le_add_left_of_le ih

end Segments

end TinyFramework.Foundation
