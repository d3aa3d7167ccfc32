/-
  Foundation/Raster.lean --- buffers of pixels, and loops that paint some of them.

  What a step does is said of whole pixels: which ones it paints, and with what.  The steps of a
  loop, and the loops of a loop, are put together from that.
-/
import TinyFramework.Foundation.CheckedBuffer

set_option autoImplicit false

namespace TinyFramework.Foundation

variable {α ι : Type} {k n p q i : Nat} {buf b c s : List α}

/-! ## Pixels -/

/-- The pixel at a place, where each has `k` cells. -/
def pixel (k : Nat) (buf : List α) (p : Nat) : List α := (buf.drop (p * k)).take k

theorem getElem?_pixel (j : Nat) :
    (pixel k buf p)[j]? = if j < k then buf[p * k + j]? else none := by
  rw [pixel, List.getElem?_take, List.getElem?_drop]

theorem pixel_one (h : s.length = k) : pixel k s 0 = s := by
  rw [pixel, Nat.zero_mul, List.drop_zero, List.take_of_length_le (Nat.le_of_eq h)]

/-- So many pixels from one on. -/
theorem pixel_take_drop (h : p < n) :
    pixel k ((buf.drop (q * k)).take (n * k)) p = pixel k buf (q + p) := by
  have hin : p * k + k ≤ n * k := by
    rw [← Nat.succ_mul]
    exact Nat.mul_le_mul_right k h
  rw [pixel, List.drop_take, List.drop_drop, List.take_take, ← Nat.add_mul,
    Nat.min_eq_left (by omega), pixel]

theorem pixel_overwrite (hs : s.length = n * k) (hin : q * k + n * k ≤ buf.length) :
    pixel k (overwrite buf (q * k) s) p =
      if q ≤ p ∧ p < q + n then pixel k s (p - q) else pixel k buf p := by
  refine List.ext_getElem? fun j => ?_
  rw [getElem?_pixel, getElem?_overwrite (by omega), hs]
  by_cases hj : j < k
  · rw [if_pos hj]
    rcases Nat.lt_or_ge p q with hbefore | hfrom
    · have hcell : p * k + k ≤ q * k := by
        rw [← Nat.succ_mul]
        exact Nat.mul_le_mul_right k hbefore
      rw [if_pos (by omega), if_neg (by omega), getElem?_pixel, if_pos hj]
    obtain ⟨d, rfl⟩ := Nat.exists_eq_add_of_le hfrom
    rw [Nat.add_sub_cancel_left, Nat.add_mul]
    rcases Nat.lt_or_ge d n with hinside | hbehind
    · have hcell : d * k + k ≤ n * k := by
        rw [← Nat.succ_mul]
        exact Nat.mul_le_mul_right k hinside
      rw [if_neg (by omega), if_pos (by omega), if_pos (by omega), getElem?_pixel, if_pos hj]
      congr 1
      omega
    · have hcell : n * k ≤ d * k := Nat.mul_le_mul_right k hbehind
      rw [if_neg (by omega), if_neg (by omega), if_neg (by omega), getElem?_pixel, if_pos hj,
        Nat.add_mul]
  · rw [if_neg hj]
    split_ifs <;> rw [getElem?_pixel, if_neg hj]

theorem pixel_replicate {v : α} (h : p < n) :
    pixel k (List.replicate (n * k) v) p = List.replicate k v := by
  have hin : p * k + k ≤ n * k := by
    rw [← Nat.succ_mul]
    exact Nat.mul_le_mul_right k h
  rw [pixel, List.drop_replicate, List.take_replicate, Nat.min_eq_left (by omega)]

/-- Buffers with the same pixels are the same. -/
theorem eq_of_pixels (hk : 0 < k) (hb : b.length = n * k) (hc : c.length = n * k)
    (h : ∀ p < n, pixel k b p = pixel k c p) : b = c := by
  refine List.ext_getElem? fun j => ?_
  rcases Nat.lt_or_ge j (n * k) with hj | hj
  · have hpixel := h (j / k) (Nat.div_lt_of_lt_mul (by rwa [Nat.mul_comm]))
    have hcell := congrArg (·[j % k]?) hpixel
    have hdiv := Nat.div_add_mod j k
    rw [Nat.mul_comm] at hdiv
    simpa only [getElem?_pixel, if_pos (Nat.mod_lt j hk), hdiv] using hcell
  · rw [List.getElem?_eq_none (by omega), List.getElem?_eq_none (by omega)]

/-- A pixel of row `y`, and its column. -/
theorem row_column {w y : Nat} (h : y * w ≤ p ∧ p < y * w + w) : p / w = y ∧ p % w = p - y * w := by
  have hrow : p / w = y := Nat.div_eq_of_lt_le h.1 (by
    rw [Nat.succ_mul]
    exact h.2)
  refine ⟨hrow, ?_⟩
  rw [Nat.mod_eq_sub, hrow, Nat.mul_comm]

/-! ## Painting -/

/-- The pixels of `w` are painted as `f` says, and no other. -/
structure Painted (k : Nat) (w : Nat → Prop) (f : Nat → List α) (b c : List α) : Prop where
  length : c.length = b.length
  inside : ∀ p, w p → pixel k c p = f p
  outside : ∀ p, ¬ w p → pixel k c p = pixel k b p

variable {w v : Nat → Prop} {f g : Nat → List α}

theorem Painted.nothing (h : ∀ p, ¬ w p) : Painted k w f b b where
  length := rfl
  inside p hp := absurd hp (h p)
  outside _ _ := rfl

theorem Painted.congr (h : Painted k w f b c) (hw : ∀ p, w p ↔ v p) (hf : ∀ p, w p → f p = g p) :
    Painted k v g b c where
  length := h.length
  inside p hp := (h.inside p ((hw p).2 hp)).trans (hf p ((hw p).2 hp))
  outside p hp := h.outside p fun hwp => hp ((hw p).1 hwp)

theorem Painted.trans {d : List α} (h : Painted k w f b c) (h' : Painted k v f c d) :
    Painted k (fun p => w p ∨ v p) f b d where
  length := h'.length.trans h.length
  inside p hp := by
    by_cases hv : v p
    · exact h'.inside p hv
    · rw [h'.outside p hv]
      exact h.inside p (hp.resolve_right hv)
  outside p hp := by
    rw [not_or] at hp
    rw [h'.outside p hp.2, h.outside p hp.1]

theorem writeRange_painted (hs : s.length = n * k) (hin : q * k + n * k ≤ buf.length) :
    ∃ c, writeRange buf (q * k) s = some c ∧
      Painted k (fun p => q ≤ p ∧ p < q + n) (fun p => pixel k s (p - q)) buf c := by
  have hwrite : q * k + s.length ≤ buf.length := by rwa [hs]
  refine ⟨_, writeRange_of_le hwrite, length_overwrite hwrite, fun p hp => ?_, fun p hp => ?_⟩
  · rw [pixel_overwrite hs hin, if_pos hp]
  · rw [pixel_overwrite hs hin, if_neg hp]

/-! ## Loops -/

variable {is : List ι} {body : ι → List α → Option (List α)}

/-- What every turn paints, the loop paints. -/
theorem foldlM_painted {w : ι → Nat → Prop} (h : ∀ i ∈ is, ∀ b, b.length = buf.length →
      ∃ c, body i b = some c ∧ Painted k (w i) f b c) :
    ∃ c, is.foldlM (fun b i => body i b) buf = some c ∧
      Painted k (fun p => ∃ i ∈ is, w i p) f buf c := by
  induction is generalizing buf with
  | nil => exact ⟨buf, rfl, .nothing fun p => by simp⟩
  | cons i is ih =>
    obtain ⟨b, hb, hpaint⟩ := h i List.mem_cons_self buf rfl
    obtain ⟨c, hc, hrest⟩ := @ih b fun j hj d hd =>
      h j (List.mem_cons_of_mem i hj) d (hd.trans hpaint.length)
    refine ⟨c, ?_, (hpaint.trans hrest).congr (fun p => ?_) fun _ _ => rfl⟩
    · rw [List.foldlM_cons, hb]
      exact hc
    · simp

/-- A loop fails with any of its turns. -/
theorem foldlM_eq_none (hlength : ∀ i ∈ is, ∀ b c, body i b = some c → c.length = b.length)
    (h : ∃ i ∈ is, ∀ b, b.length = buf.length → body i b = none) :
    is.foldlM (fun b i => body i b) buf = none := by
  induction is generalizing buf with
  | nil =>
    obtain ⟨i, hi, _⟩ := h
    exact absurd hi List.not_mem_nil
  | cons i is ih =>
    rw [List.foldlM_cons]
    cases hb : body i buf with
    | none => rfl
    | some b =>
      have hlen := hlength i List.mem_cons_self buf b hb
      refine ih (fun j hj => hlength j (List.mem_cons_of_mem i hj)) ?_
      obtain ⟨j, hj, hfails⟩ := h
      rcases List.mem_cons.1 hj with rfl | hj
      · rw [hfails buf rfl] at hb
        exact absurd hb nofun
      · exact ⟨j, hj, fun d hd => hfails d (hd.trans hlen)⟩

theorem foldlM_length (hlength : ∀ i ∈ is, ∀ b c, body i b = some c → c.length = b.length)
    (h : is.foldlM (fun b i => body i b) buf = some c) : c.length = buf.length := by
  induction is generalizing buf with
  | nil => exact congrArg List.length (Option.some.inj h).symm
  | cons i is ih =>
    rw [List.foldlM_cons] at h
    obtain ⟨b, hb, hrest⟩ := Option.bind_eq_some_iff.1 h
    rw [ih (fun j hj => hlength j (List.mem_cons_of_mem i hj)) hrest,
      hlength i List.mem_cons_self buf b hb]

end TinyFramework.Foundation
