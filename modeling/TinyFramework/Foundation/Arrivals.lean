/-
  Foundation/Arrivals.lean --- a stream that is read until a predicate of what was read stops it.

  The stream arrives in segments, and a read gives as much of a segment as there is room for.
  What is read is always a beginning of the stream, and it reaches a place in it exactly if no
  read that ends before that place stops the reading.
-/
import Mathlib.Data.List.Basic

set_option autoImplicit false

namespace TinyFramework.Foundation

universe u

variable {α : Type u}

/-- What one read gives, and the segments behind it. -/
structure Arrival (room : Nat) (segments : List (List α)) where
  got : List α
  rest : List (List α)
  joined : got ++ rest.flatten = segments.flatten
  fits : got.length ≤ room
  nonempty : 0 < room → got ≠ []

/-- One read; nothing when all segments are read. -/
def recv (room : Nat) : (segments : List (List α)) → Option (Arrival room segments)
  | [] => none
  | s :: segments =>
      if h : s = [] then
        (recv room segments).map fun read =>
          { read with joined := by rw [h, List.flatten_cons, List.nil_append]; exact read.joined }
      else
        some
          { got := s.take room, rest := s.drop room :: segments
            joined := by
              rw [List.flatten_cons, ← List.append_assoc, List.take_append_drop, List.flatten_cons]
            fits := List.length_take_le _ _
            nonempty := fun hroom hnil => by
              rcases List.take_eq_nil_iff.1 hnil with hzero | hnil
              · exact absurd hzero (Nat.ne_of_gt hroom)
              · exact h hnil }

variable {room : Nat} {segments : List (List α)} {buf : List α}

theorem flatten_of_recv_none (h : recv room segments = none) : segments.flatten = [] := by
  induction segments with
  | nil => rfl
  | cons s segments ih =>
    rw [recv] at h
    split_ifs at h with hs
    rw [List.flatten_cons, hs, List.nil_append]
    exact ih (Option.map_eq_none_iff.1 h)

theorem Arrival.shorter (read : Arrival room segments) (hroom : 0 < room) :
    read.rest.flatten.length < segments.flatten.length := by
  have hgot := List.length_pos_iff.2 (read.nonempty hroom)
  rw [← read.joined, List.length_append]
  omega

theorem Arrival.joined_append (read : Arrival room segments) (buf : List α) :
    buf ++ read.got ++ read.rest.flatten = buf ++ segments.flatten := by
  rw [List.append_assoc, read.joined]

/-- The reading of a stream behind what is in a buffer. -/
def readUntil (stop : List α → Bool) (hroom : 0 < room) (buf : List α)
    (segments : List (List α)) : List α :=
  match recv room segments with
  | none => buf
  | some read =>
      if stop (buf ++ read.got) then buf ++ read.got
      else readUntil stop hroom (buf ++ read.got) read.rest
termination_by segments.flatten.length
decreasing_by exact read.shorter hroom

/-- What is in the buffer after each of the reads of a whole stream. -/
def arrivals (hroom : 0 < room) (buf : List α) (segments : List (List α)) : List (List α) :=
  match recv room segments with
  | none => []
  | some read => (buf ++ read.got) :: arrivals hroom (buf ++ read.got) read.rest
termination_by segments.flatten.length
decreasing_by exact read.shorter hroom

/-- No read that ends before a place stops the reading. -/
def Unstopped (stop : List α → Bool) (hroom : 0 < room) (buf : List α) (segments : List (List α))
    (n : Nat) : Prop :=
  ∀ b ∈ arrivals hroom buf segments, b.length < n → stop b = false

variable {hroom : 0 < room} {stop : List α → Bool}

/-- An induction on the reads of a stream. -/
theorem recvInduction (hroom : 0 < room) {P : List α → List (List α) → Prop}
    (hnone : ∀ buf segments, recv room segments = none → P buf segments)
    (hsome : ∀ buf segments (read : Arrival room segments), recv room segments = some read →
      P (buf ++ read.got) read.rest → P buf segments)
    (buf : List α) (segments : List (List α)) : P buf segments := by
  induction hn : segments.flatten.length using Nat.strongRecOn generalizing buf segments with
  | _ n ih =>
    cases h : recv room segments with
    | none => exact hnone buf segments h
    | some read => exact hsome buf segments read h (ih _ (hn ▸ read.shorter hroom) _ _ rfl)

theorem readUntil_none (h : recv room segments = none) :
    readUntil stop hroom buf segments = buf := by
  rw [readUntil, h]

theorem readUntil_some {read : Arrival room segments} (h : recv room segments = some read) :
    readUntil stop hroom buf segments =
      if stop (buf ++ read.got) then buf ++ read.got
      else readUntil stop hroom (buf ++ read.got) read.rest := by
  rw [readUntil, h]

theorem arrivals_none (h : recv room segments = none) : arrivals hroom buf segments = [] := by
  rw [arrivals, h]

theorem arrivals_some {read : Arrival room segments} (h : recv room segments = some read) :
    arrivals hroom buf segments =
      (buf ++ read.got) :: arrivals hroom (buf ++ read.got) read.rest := by
  rw [arrivals, h]

/-- What is read goes on from the buffer, and is a beginning of the stream. -/
theorem readUntil_between (stop : List α → Bool) (hroom : 0 < room) (buf : List α)
    (segments : List (List α)) :
    buf <+: readUntil stop hroom buf segments ∧
      readUntil stop hroom buf segments <+: buf ++ segments.flatten := by
  induction buf, segments using recvInduction hroom with
  | hnone buf segments h =>
    rw [readUntil_none h]
    exact ⟨List.prefix_rfl, List.prefix_append _ _⟩
  | hsome buf segments read h ih =>
    rw [readUntil_some h]
    split_ifs with hstop
    · rw [← read.joined_append]
      exact ⟨List.prefix_append _ _, List.prefix_append _ _⟩
    · rw [← read.joined_append]
      exact ⟨(List.prefix_append _ _).trans ih.1, ih.2⟩

theorem length_le_of_mem_arrivals {b : List α} (hb : b ∈ arrivals hroom buf segments) :
    buf.length ≤ b.length := by
  induction buf, segments using recvInduction hroom with
  | hnone buf segments h =>
    rw [arrivals_none h] at hb
    cases hb
  | hsome buf segments read h ih =>
    rw [arrivals_some h] at hb
    have hgrown : buf.length ≤ (buf ++ read.got).length := (List.prefix_append _ _).length_le
    rcases List.mem_cons.1 hb with rfl | hb
    · exact hgrown
    · exact Nat.le_trans hgrown (ih hb)

theorem prefix_of_mem_arrivals {b : List α} (hb : b ∈ arrivals hroom buf segments) :
    b <+: buf ++ segments.flatten := by
  induction buf, segments using recvInduction hroom with
  | hnone buf segments h =>
    rw [arrivals_none h] at hb
    cases hb
  | hsome buf segments read h ih =>
    rw [arrivals_some h] at hb
    rw [← read.joined_append]
    rcases List.mem_cons.1 hb with rfl | hb
    · exact List.prefix_append _ _
    · exact ih hb

/-- What is in the buffer at first does not count. -/
theorem unstopped_of_le {n : Nat} (h : n ≤ buf.length) : Unstopped stop hroom buf segments n :=
  fun _ hb hlt => absurd (Nat.le_trans h (length_le_of_mem_arrivals hb)) (Nat.not_le.2 hlt)

/-- The reading reaches a place of the stream exactly if it is not stopped before. -/
theorem le_length_readUntil_iff {n : Nat} (hn : n ≤ (buf ++ segments.flatten).length) :
    n ≤ (readUntil stop hroom buf segments).length ↔ Unstopped stop hroom buf segments n := by
  induction buf, segments using recvInduction hroom with
  | hnone buf segments h =>
    rw [flatten_of_recv_none h, List.append_nil] at hn
    rw [readUntil_none h]
    exact iff_of_true hn (unstopped_of_le hn)
  | hsome buf segments read h ih =>
    rw [← read.joined_append] at hn
    rw [readUntil_some h]
    unfold Unstopped at ih ⊢
    rw [arrivals_some h, List.forall_mem_cons]
    split_ifs with hstop
    · constructor
      · intro hle
        exact ⟨fun hlt => absurd hle (Nat.not_le.2 hlt), unstopped_of_le hle⟩
      · intro hgo
        refine Nat.le_of_not_lt fun hlt => ?_
        rw [hgo.1 hlt] at hstop
        cases hstop
    · rw [ih hn, and_iff_right]
      exact fun _ => Bool.eq_false_iff.2 hstop

end TinyFramework.Foundation
