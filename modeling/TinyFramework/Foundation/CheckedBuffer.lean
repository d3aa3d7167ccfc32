/-
  Foundation/CheckedBuffer.lean --- buffers of a fixed length, read and written range by range.

  A range that is not wholly inside the buffer is no range: nothing is read or written.
-/
import Mathlib.Data.List.Basic

set_option autoImplicit false

namespace TinyFramework.Foundation

variable {α : Type}

/-- The buffer with a range replaced. -/
def overwrite (buf : List α) (i : Nat) (s : List α) : List α :=
  buf.take i ++ s ++ buf.drop (i + s.length)

/-- So many values from a place on. -/
def readRange (buf : List α) (i n : Nat) : Option (List α) :=
  if i + n ≤ buf.length then some ((buf.drop i).take n) else none

/-- A range is written. -/
def writeRange (buf : List α) (i : Nat) (s : List α) : Option (List α) :=
  if i + s.length ≤ buf.length then some (overwrite buf i s) else none

variable {buf s : List α} {i k n : Nat}

theorem length_overwrite (h : i + s.length ≤ buf.length) :
    (overwrite buf i s).length = buf.length := by
  simp only [overwrite, List.length_append, List.length_take, List.length_drop]
  omega

theorem take_overwrite (h : i ≤ buf.length) :
    (overwrite buf i s).take (i + s.length) = buf.take i ++ s := by
  have hlength : (buf.take i ++ s).length = i + s.length := by
    rw [List.length_append, List.length_take_of_le h]
  rw [overwrite, ← hlength, List.take_left]

theorem take_overwrite_of_le (h : i ≤ buf.length) (hk : k ≤ i) :
    (overwrite buf i s).take k = buf.take k := by
  have hlength : k ≤ (buf.take i).length := by rwa [List.length_take_of_le h]
  rw [overwrite, List.append_assoc, List.take_append_of_le_length hlength, List.take_take,
    Nat.min_eq_left hk]

theorem drop_overwrite (h : i ≤ buf.length) (hk : i + s.length ≤ k) :
    (overwrite buf i s).drop k = buf.drop k := by
  have hlength : (buf.take i ++ s).length = i + s.length := by
    rw [List.length_append, List.length_take_of_le h]
  rw [overwrite, List.drop_append, List.drop_eq_nil_of_le (by omega), List.nil_append, hlength,
    List.drop_drop, Nat.add_sub_cancel' hk]

theorem getElem?_overwrite (h : i ≤ buf.length) (j : Nat) :
    (overwrite buf i s)[j]? =
      if j < i then buf[j]? else if j < i + s.length then s[j - i]? else buf[j]? := by
  have hlength : (buf.take i ++ s).length = i + s.length := by
    rw [List.length_append, List.length_take_of_le h]
  unfold overwrite
  split_ifs with hbefore hinside
  · rw [List.append_assoc, List.getElem?_append_left (by rwa [List.length_take_of_le h]),
      List.getElem?_take_of_lt hbefore]
  · rw [List.getElem?_append_left (by omega), List.getElem?_append_right (by
      rw [List.length_take_of_le h]
      omega), List.length_take_of_le h]
  · rw [List.getElem?_append_right (by omega), List.getElem?_drop, hlength,
      Nat.add_sub_cancel' (by omega)]

theorem readRange_of_le (h : i + n ≤ buf.length) :
    readRange buf i n = some ((buf.drop i).take n) :=
  if_pos h

theorem writeRange_of_le (h : i + s.length ≤ buf.length) :
    writeRange buf i s = some (overwrite buf i s) :=
  if_pos h

theorem writeRange_length {c : List α} (h : writeRange buf i s = some c) :
    c.length = buf.length := by
  unfold writeRange at h
  split_ifs at h with hin
  rw [← Option.some.inj h]
  exact length_overwrite hin

theorem readRange_length (h : readRange buf i n = some s) : s.length = n := by
  unfold readRange at h
  split_ifs at h with hin
  rw [← Option.some.inj h, List.length_take, List.length_drop]
  omega

theorem readRange_eq_none_iff : readRange buf i n = none ↔ buf.length < i + n := by
  unfold readRange
  split_ifs with h
  · exact iff_of_false nofun (by omega)
  · exact iff_of_true rfl (by omega)

end TinyFramework.Foundation
