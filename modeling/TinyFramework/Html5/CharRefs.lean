/-
  Html5/CharRefs.lean --- what `h5_decode_ref` gives back.

  The text of a character reference fits the bytes it was decoded from, and
  decoding never goes past the end of the input.
-/
import TinyFramework.Html5.Elements

set_option autoImplicit false

namespace TinyFramework.Html5

open TinyFramework.Foundation

/-! ## References -/

theorem forall_mem_h5Ent : ∀ e ∈ h5Ent, e.2.length ≤ e.1.length + 1 ∧ 0 ∉ e.2 := by
  simp only [h5Ent, List.forall_mem_map]
  decide

theorem length_h5Utf8 (cp : UInt32) : (h5Utf8 cp).length ≤ 4 := by
  unfold h5Utf8
  split_ifs <;> simp

theorem zero_notMem_h5Utf8 {cp : UInt32} (hcp : cp ≠ 0) : 0 ∉ h5Utf8 cp := by
  unfold h5Utf8
  split_ifs with h
  · intro hmem
    have hlow : cp.toUInt8 = 0 := (List.mem_singleton.1 hmem).symm
    have hlt : cp.toNat < 128 := h
    have hnat : cp.toNat % 256 = 0 := congrArg UInt8.toNat hlow
    exact hcp (UInt32.toNat_inj.1 (by rw [UInt32.toNat_zero]; omega))
  all_goals simp [eq_comm (a := (0 : UInt8))]

theorem refDigit_lt {hex : Bool} {c : UInt8} {d : UInt32} (h : refDigit hex c = some d) :
    d.toNat < 16 := by
  unfold refDigit at h
  split_ifs at h
  all_goals
    obtain rfl := Option.some.inj h
    simp only [UInt8.le_iff_toNat_le, UInt8.toNat_toUInt32, UInt8.toNat_add, UInt8.toNat_sub,
      UInt8.reduceToNat] at *
    omega

/-- The digits counted so far stay counted. -/
theorem le_refDigits (hex : Bool) (s : Bytes) (val : UInt32) (k : Nat) :
    k ≤ (refDigits hex val k s).2.1 := by
  induction s generalizing val k with
  | nil => exact Nat.le_refl _
  | cons c s ih =>
    unfold refDigits
    split
    · exact Nat.le_refl _
    · exact Nat.le_of_succ_le (ih _ _)

/-- One digit makes a value below 16. -/
theorem refDigits_one {hex : Bool} {s : Bytes} (h : (refDigits hex 0 0 s).2.1 = 1) :
    (refDigits hex 0 0 s).1.toNat < 16 := by
  cases s with
  | nil => cases h
  | cons c s =>
    unfold refDigits at h ⊢
    split at h
    · cases h
    · rename_i d hd
      have hval : (0 * 16 + d : UInt32) = d := by simp
      simp only [hval] at h ⊢
      cases s with
      | nil => exact refDigit_lt hd
      | cons c' s =>
        unfold refDigits at h ⊢
        split at h
        · exact refDigit_lt hd
        · rename_i d' hd'
          have hle := le_refDigits hex s (d * 16 + d') (0 + 1 + 1)
          rw [h] at hle
          exact absurd hle (by decide)

theorem refDigit_zero (hex : Bool) : refDigit hex 0 = none := by
  cases hex <;> rfl

/-- The input is the digits and the rest, and no digit is a NUL byte. -/
theorem refDigits_split (hex : Bool) (s : Bytes) (val : UInt32) (k : Nat) :
    ∃ ds, s = ds ++ (refDigits hex val k s).2.2 ∧
      (refDigits hex val k s).2.1 = k + ds.length ∧ 0 ∉ ds := by
  induction s generalizing val k with
  | nil => exact ⟨[], rfl, rfl, List.not_mem_nil⟩
  | cons c s ih =>
    unfold refDigits
    split
    · exact ⟨[], rfl, rfl, List.not_mem_nil⟩
    · rename_i d hd
      obtain ⟨ds, hs, hk, hzero⟩ := ih (val * 16 + d) (k + 1)
      have hc : 0 ≠ c := by
        rintro rfl
        rw [refDigit_zero] at hd
        cases hd
      refine ⟨c :: ds, congrArg (c :: ·) hs, ?_, List.not_mem_cons_of_ne_of_not_mem hc hzero⟩
      rw [hk, List.length_cons]
      omega

/-! ## What a decoded reference is -/

/-- What is used of the input is there and has no NUL byte; nor has the text of the
reference, which is no longer than that. -/
structure RefText (s out : Bytes) (used : Nat) : Prop where
  length_le : out.length ≤ used
  zero_notMem : 0 ∉ out
  exists_ref : ∃ ref rest, s = ref ++ rest ∧ ref.length = used ∧ 0 ∉ ref

namespace RefText

variable {s out : Bytes} {used : Nat}

theorem used_le (h : RefText s out used) : used ≤ s.length := by
  obtain ⟨ref, rest, rfl, rfl, -⟩ := h.exists_ref
  exact List.length_append ▸ Nat.le_add_right _ _

theorem zero_mem_drop_iff (h : RefText s out used) : 0 ∈ s.drop used ↔ 0 ∈ s := by
  obtain ⟨ref, rest, rfl, rfl, hzero⟩ := h.exists_ref
  rw [List.drop_left, List.mem_append]
  exact (or_iff_right hzero).symm

end RefText

/-- The code point of a numeric reference. -/
def refCodePoint (val : UInt32) : UInt32 :=
  if val = 0 ∨ (0x10FFFF < val ∧ val < 0x80000000) then 0xFFFD else val

theorem refCodePoint_ne_zero (val : UInt32) : refCodePoint val ≠ 0 := by
  unfold refCodePoint
  split_ifs with h
  · decide
  · exact fun hz => h (.inl hz)

theorem length_h5Utf8_refCodePoint {val : UInt32} (h : val.toNat < 16) :
    (h5Utf8 (refCodePoint val)).length ≤ 3 := by
  unfold refCodePoint
  split_ifs
  · decide
  · unfold h5Utf8
    rw [if_pos (UInt32.lt_iff_toNat_lt.2 (Nat.lt_trans h (by decide)))]
    exact Nat.le_add_left 1 2

/-- A numeric reference with at least one digit. -/
theorem refText_numeric {hex : Bool} {digits ref rest : Bytes} {used : Nat}
    (hsome : (refDigits hex 0 0 digits).2.1 ≠ 0) (hlen : ref.length = used)
    (hused : 2 + (refDigits hex 0 0 digits).2.1 ≤ used) (hzero : 0 ∉ ref) :
    RefText (ref ++ rest) (h5Utf8 (refCodePoint (refDigits hex 0 0 digits).1)) used := by
  refine ⟨?_, zero_notMem_h5Utf8 (refCodePoint_ne_zero _), ref, rest, rfl, hlen, hzero⟩
  by_cases hone : (refDigits hex 0 0 digits).2.1 = 1
  · have hthree := length_h5Utf8_refCodePoint (refDigits_one hone)
    omega
  · have hfour := length_h5Utf8 (refCodePoint (refDigits hex 0 0 digits).1)
    omega

theorem refText_named {name rest ref : Bytes} {e : Bytes × Bytes} {used : Nat}
    (he : h5Ent.find? (fun e => e.1 == name.take 23) = some e)
    (hlen : ref.length = used) (hused : name.length + 1 ≤ used) (hzero : 0 ∉ ref) :
    RefText (ref ++ rest) e.2 used := by
  obtain ⟨htext, hfree⟩ := forall_mem_h5Ent e (List.mem_of_find?_eq_some he)
  have hname : e.1 = name.take 23 := by simpa using List.find?_some he
  have htake : e.1.length ≤ name.length := by
    rw [hname, List.length_take]
    exact Nat.min_le_right _ _
  exact ⟨by omega, hfree, ref, rest, rfl, hlen, hzero⟩

/-- The end of a numeric reference, behind its digits. -/
theorem refText_afterDigits {hex : Bool} {pre digits out rest : Bytes} {used k : Nat}
    {val : UInt32} (hpre : 2 ≤ pre.length) (hzero : 0 ∉ pre)
    (hr : refDigits hex 0 0 digits = (val, k, rest))
    (h : (if k = 0 then none
      else match rest with
        | [] => none
        | 59 :: _ => some (h5Utf8 (refCodePoint val), pre.length + k + 1)
        | _ => some (h5Utf8 (refCodePoint val), pre.length + k)) = some (out, used)) :
    RefText (pre ++ digits) out used := by
  obtain ⟨ds, hdigits, hk, hds⟩ := refDigits_split hex digits 0 0
  have htext := @refText_numeric hex digits
  rw [hr] at hdigits hk htext
  dsimp only at hdigits hk htext
  rw [Nat.zero_add] at hk
  have href : 0 ∉ pre ++ ds := fun hmem => (List.mem_append.1 hmem).elim hzero hds
  split_ifs at h with hsome
  split at h
  · cases h
  · rename_i rest'
    obtain ⟨rfl, rfl⟩ := Prod.mk.inj (Option.some.inj h)
    have hsplit : pre ++ digits = (pre ++ ds ++ [59]) ++ rest' := by
      rw [hdigits]
      simp
    rw [hsplit]
    refine htext hsome ?_ (by omega) ?_
    · simp only [List.length_append, List.length_singleton]
      omega
    · exact fun hmem => (List.mem_append.1 hmem).elim href (by decide)
  · obtain ⟨rfl, rfl⟩ := Prod.mk.inj (Option.some.inj h)
    rw [hdigits, ← List.append_assoc]
    refine htext hsome ?_ (by omega) href
    rw [List.length_append]
    omega

theorem isRefName_ne_zero {name : Bytes} (h : ∀ c ∈ name, isRefName c = true) : 0 ∉ name := by
  intro hmem
  cases h 0 hmem

theorem h5DecodeRef_refText {s out : Bytes} {used : Nat} (h : h5DecodeRef s = some (out, used)) :
    RefText s out used := by
  unfold h5DecodeRef at h
  split at h
  · rename_i s
    unfold h5DecodeRefBody at h
    split at h
    · rename_i s
      split at h
      rename_i hex digits pre heq
      have hpre : ∃ p, 38 :: 35 :: s = p ++ digits ∧ p.length = pre ∧ 2 ≤ p.length ∧
          0 ∉ p := by
        split at heq <;> cases heq
        · exact ⟨[38, 35, 120], rfl, rfl, Nat.le_succ 2, by decide⟩
        · exact ⟨[38, 35, 88], rfl, rfl, Nat.le_succ 2, by decide⟩
        · exact ⟨[38, 35], rfl, rfl, Nat.le_refl 2, by decide⟩
      obtain ⟨p, hs, rfl, hlen, hzero⟩ := hpre
      cases hr : refDigits hex 0 0 digits with
      | mk val r =>
        rw [hr] at h
        rw [hs]
        exact refText_afterDigits hlen hzero hr h
    · have hname : 0 ∉ 38 :: s.takeWhile isRefName := by
        refine List.not_mem_cons_of_ne_of_not_mem (by decide) (isRefName_ne_zero fun c hc => ?_)
        exact List.all_eq_true.1 List.all_takeWhile c hc
      have hsplit : 38 :: s = (38 :: s.takeWhile isRefName) ++ s.dropWhile isRefName :=
        congrArg (38 :: ·) (List.takeWhile_append_dropWhile).symm
      dsimp only at h
      split_ifs at h
      split at h
      · cases h
      · rename_i c rest hrest
        obtain ⟨e, hfind, heq⟩ := Option.map_eq_some_iff.1 h
        obtain ⟨rfl, rfl⟩ := Prod.mk.inj heq
        rw [hsplit, hrest]
        split_ifs with hsemi
        · have hs : (38 :: s.takeWhile isRefName) ++ c :: rest =
              (38 :: s.takeWhile isRefName ++ [59]) ++ rest := by
            rw [hsemi]
            simp
          rw [hs]
          refine refText_named hfind (by simp) (Nat.le_succ _) fun hmem => ?_
          exact (List.mem_append.1 hmem).elim hname (by decide)
        · exact refText_named hfind rfl (Nat.le_refl _) hname
  · cases h

end TinyFramework.Html5
