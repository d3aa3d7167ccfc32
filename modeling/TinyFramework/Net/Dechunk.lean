/-
  Net/Dechunk.lean --- what `dechunk` makes of a chunked body, or of a beginning of one.

  The chunks are followed one by one.  A beginning that ends within a chunk gives nothing, or what
  stands before that chunk.
-/
import TinyFramework.Net.Http

set_option autoImplicit false

namespace TinyFramework.Net

open TinyFramework.Foundation

/-- The end of the line of a chunk's size. -/
def isBreak (b : UInt8) : Bool := b == 13 || b == 10

/-- `dechunk` where a size is read: its digits, and what is behind them. -/
theorem dechunk_digits (dst : Bytes) {digits z : Bytes} (hsrc : digits ++ z ≠ [])
    (hdigits : ∀ b ∈ digits, (hexDigit b).isSome = true)
    (hz : ∀ b ∈ z.head?, (hexDigit b).isSome = false) :
    dechunk dst (digits ++ z) =
      if 16 < digits.length then []
      else if hexNumber digits = 0 then dst
      else if ((z.dropWhile (· ≠ 10)).tail).length < hexNumber digits then []
      else
        dechunk (dst ++ ((z.dropWhile (· ≠ 10)).tail).take (hexNumber digits))
          ((((z.dropWhile (· ≠ 10)).tail).drop (hexNumber digits)).dropWhile isBreak) := by
  have htake : (digits ++ z).takeWhile (fun b => (hexDigit b).isSome) = digits := by
    rw [List.takeWhile_append_of_pos hdigits]
    cases z with
    | nil => exact List.append_nil _
    | cons b z =>
      rw [List.takeWhile_cons_of_neg (by rw [hz b rfl]; exact Bool.false_ne_true), List.append_nil]
  rw [dechunk, if_neg hsrc]
  dsimp only
  rw [htake, List.drop_left]
  rfl

@[simp] theorem dechunk_nil (dst : Bytes) : dechunk dst [] = dst := by
  rw [dechunk, if_pos rfl]

/-! ## One chunk -/

theorem Chunk.size_ne_nil (c : Chunk) : c.size ≠ [] := by
  intro hnil
  have hsize := c.size_eq
  rw [hnil] at hsize
  exact c.filled (List.length_eq_zero_iff.1 hsize.symm)

theorem Chunk.data_pos (c : Chunk) : 0 < c.data.length := List.length_pos_iff.2 c.filled

theorem IsExtension.head_not_digit {s : Bytes} (h : IsExtension s) (t : Bytes) :
    ∀ b ∈ (s ++ 13 :: t).head?, (hexDigit b).isSome = false := by
  intro b hb
  cases s with
  | nil =>
    obtain rfl := Option.some.inj hb
    decide
  | cons c s =>
    obtain rfl := Option.some.inj hb
    rcases h.1 c rfl with rfl | rfl | rfl <;> decide

/-- Behind the line of a size stand the data. -/
theorem behind_size {extension : Bytes} (h : IsExtension extension) (t : Bytes) :
    (((extension ++ 13 :: 10 :: t).dropWhile (· ≠ 10)).tail) = t := by
  have hline : ∀ b ∈ extension ++ [13], decide (b ≠ 10) = true := by
    intro b hb
    rw [decide_eq_true_eq]
    rcases List.mem_append.1 hb with hb | hb
    · exact (isLineByte_iff.1 (h.2 b hb)).2.2
    · rw [List.mem_singleton.1 hb]
      decide
  have hsplit : extension ++ 13 :: 10 :: t = (extension ++ [13]) ++ 10 :: t := by simp
  rw [hsplit, List.dropWhile_append_of_pos hline, List.dropWhile_cons_of_neg (by decide)]
  rfl

/-- A whole chunk adds its data; a size of more than sixteen digits is an error. -/
theorem dechunk_front (c : Chunk) (dst z : Bytes) :
    dechunk dst (c.front ++ z) =
      if 16 < c.size.length then [] else dechunk (dst ++ c.data) (z.dropWhile isBreak) := by
  have hsplit : c.front ++ z = c.size ++ (c.extension ++ 13 :: 10 :: (c.data ++ z)) := by
    simp [Chunk.front]
  have hdata := c.data_pos
  rw [hsplit, dechunk_digits dst (List.append_ne_nil_of_left_ne_nil c.size_ne_nil _) c.size_digits
    (c.extended.head_not_digit _), behind_size c.extended, c.size_eq,
    if_neg (Nat.ne_of_gt hdata)]
  have henough : ¬ (c.data ++ z).length < c.data.length := by
    rw [List.length_append]
    omega
  rw [if_neg henough, List.take_left, List.drop_left]

/-- Of the line of a size and the data behind it, what is left behind the line. -/
theorem length_behind_size_le {extension : Bytes} (h : IsExtension extension) (t : Bytes)
    (k : Nat) :
    ((((extension ++ 13 :: 10 :: t).take k).dropWhile (· ≠ 10)).tail).length ≤
      k - (extension.length + 2) := by
  rcases Nat.lt_or_ge k (extension.length + 2) with hshort | hlong
  · -- no line break is left
    have hall : ∀ b ∈ (extension ++ 13 :: 10 :: t).take k, decide (b ≠ 10) = true := by
      intro b hb
      have hmem : b ∈ extension ++ [13] := by
        have hsplit : extension ++ 13 :: 10 :: t = (extension ++ [13]) ++ 10 :: t := by simp
        have hlength : (extension ++ [13]).length = extension.length + 1 := by simp
        rw [hsplit, List.take_append_of_le_length (by omega)] at hb
        exact List.mem_of_mem_take hb
      rw [decide_eq_true_eq]
      rcases List.mem_append.1 hmem with hb | hb
      · exact (isLineByte_iff.1 (h.2 b hb)).2.2
      · rw [List.mem_singleton.1 hb]
        decide
    rw [List.dropWhile_eq_nil_iff.2 hall]
    exact Nat.zero_le _
  · obtain ⟨m, rfl⟩ := Nat.exists_eq_add_of_le hlong
    have htake : (extension ++ 13 :: 10 :: t).take (extension.length + 2 + m) =
        extension ++ 13 :: 10 :: t.take m := by
      rw [List.take_append, List.take_of_length_le (by omega),
        show extension.length + 2 + m - extension.length = m + 1 + 1 by omega]
      rfl
    rw [htake, behind_size h, List.length_take]
    omega

/-- A beginning that ends within a chunk adds nothing. -/
theorem dechunk_front_take (c : Chunk) (dst : Bytes) {n : Nat} (hn : n < c.front.length) :
    dechunk dst (c.front.take n) = [] ∨ dechunk dst (c.front.take n) = dst := by
  rcases Nat.eq_zero_or_pos n with rfl | hpos
  · exact Or.inr (dechunk_nil dst)
  have hfront : c.front = c.size ++ (c.extension ++ 13 :: 10 :: c.data) := by simp [Chunk.front]
  have htake : c.front.take n = c.size.take n ++
      (c.extension ++ 13 :: 10 :: c.data).take (n - c.size.length) := by
    rw [hfront, List.take_append]
  have hlength : c.front.length = c.size.length + (c.extension.length + 2 + c.data.length) := by
    rw [hfront]
    simp only [List.length_append, List.length_cons]
    omega
  have hne :
      c.size.take n ++ (c.extension ++ 13 :: 10 :: c.data).take (n - c.size.length) ≠ [] := by
    refine List.append_ne_nil_of_left_ne_nil (fun hnil => ?_) _
    rcases List.take_eq_nil_iff.1 hnil with hzero | hnil
    · omega
    · exact c.size_ne_nil hnil
  have hhead : ∀ b ∈ ((c.extension ++ 13 :: 10 :: c.data).take (n - c.size.length)).head?,
      (hexDigit b).isSome = false := by
    intro b hb
    rw [List.head?_take] at hb
    split_ifs at hb with hzero
    · cases hb
    · exact c.extended.head_not_digit _ b hb
  rw [htake, dechunk_digits dst hne
    (fun b hb => c.size_digits b (List.mem_of_mem_take hb)) hhead]
  have hbehind := length_behind_size_le c.extended c.data (n - c.size.length)
  split_ifs with hlong hzero hshort
  · exact Or.inl rfl
  · exact Or.inr rfl
  · exact Or.inl rfl
  · -- the size is read, so some of the data is missing
    refine absurd ?_ hshort
    rcases Nat.lt_or_ge n c.size.length with hin | hbeyond
    · have hzero' : n - c.size.length = 0 := by omega
      rw [hzero'] at hbehind ⊢
      exact Nat.lt_of_le_of_lt hbehind (by omega)
    · rw [List.take_of_length_le hbeyond, c.size_eq]
      have hdata := c.data_pos
      omega

/-! ## The whole body -/

namespace ChunkedBody

theorem hexNumber_zeros (n : Nat) : hexNumber (List.replicate n 48) = 0 := by
  unfold hexNumber
  induction n with
  | zero => rfl
  | succ n ih => exact ih

theorem lastText_eq (b : ChunkedBody) : b.lastText = List.replicate b.zeros 48 ++
    (b.extension ++ 13 :: 10 ::
      (b.trailers.flatMap (fun f => f.line ++ [13, 10]) ++ [13, 10])) := by
  simp [lastText]

/-- The last chunk ends it; more than sixteen zeros are an error. -/
theorem dechunk_last (b : ChunkedBody) (dst : Bytes) (n : Nat) :
    dechunk dst (b.lastText.take n) = if 16 < min n b.zeros then [] else dst := by
  rcases Nat.eq_zero_or_pos n with rfl | hpos
  · rw [Nat.zero_min, if_neg (by decide)]
    exact dechunk_nil dst
  have hzeros := b.zeros_pos
  rw [lastText_eq, List.take_append, List.take_replicate, List.length_replicate]
  have hne : List.replicate (min n b.zeros) (48 : UInt8) ≠ [] := by
    rw [Ne, List.replicate_eq_nil_iff]
    omega
  have hdigits : ∀ d ∈ List.replicate (min n b.zeros) (48 : UInt8), (hexDigit d).isSome = true := by
    intro d hd
    rw [List.eq_of_mem_replicate hd]
    decide
  have hhead : ∀ d ∈ ((b.extension ++ 13 :: 10 ::
      (b.trailers.flatMap (fun f : HeaderField => f.line ++ [13, 10]) ++ [13, 10])).take
        (n - b.zeros)).head?, (hexDigit d).isSome = false := by
    intro d hd
    rw [List.head?_take] at hd
    split_ifs at hd with hzero
    · cases hd
    · exact b.extended.head_not_digit _ d hd
  rw [dechunk_digits dst (List.append_ne_nil_of_left_ne_nil hne _) hdigits hhead,
    List.length_replicate, hexNumber_zeros, if_pos rfl]

/-- Where the line breaks behind a chunk are skipped, the next chunk or the last one begins. -/
theorem skip_breaks (b : ChunkedBody) (cs : List Chunk) (n : Nat) :
    ((13 :: 10 :: (cs.flatMap Chunk.text ++ b.lastText)).take n).dropWhile isBreak =
      (cs.flatMap Chunk.text ++ b.lastText).take (n - 2) := by
  have hhead : ∀ d ∈ ((cs.flatMap Chunk.text ++ b.lastText).take (n - 2)).head?,
      isBreak d = false := by
    have hdigit : ∀ d ∈ (cs.flatMap Chunk.text ++ b.lastText).head?,
        (hexDigit d).isSome = true := by
      intro d hd
      cases cs with
      | nil =>
        rw [List.flatMap_nil, List.nil_append, lastText_eq] at hd
        obtain ⟨z, hz⟩ := Nat.exists_eq_succ_of_ne_zero (Nat.ne_of_gt b.zeros_pos)
        rw [hz] at hd
        obtain rfl := Option.some.inj hd
        decide
      | cons c cs =>
        have hsplit : (c :: cs).flatMap Chunk.text ++ b.lastText = c.size ++ (c.extension ++
            13 :: 10 :: (c.data ++ 13 :: 10 :: (cs.flatMap Chunk.text ++ b.lastText))) := by
          simp [Chunk.text, Chunk.front]
        rw [hsplit] at hd
        cases hsize : c.size with
        | nil => exact absurd hsize c.size_ne_nil
        | cons s size =>
          rw [hsize] at hd
          obtain rfl := Option.some.inj hd
          exact c.size_digits _ (hsize ▸ List.mem_cons_self)
    intro d hd
    rw [List.head?_take] at hd
    split_ifs at hd with hzero
    · cases hd
    · have hsome := hdigit d hd
      have hno : ∀ e : UInt8, e = 13 ∨ e = 10 → (hexDigit e).isSome = false := by
        rintro e (rfl | rfl) <;> decide
      cases hbreak : isBreak d with
      | false => rfl
      | true =>
        rw [hno d (by simpa [isBreak] using hbreak)] at hsome
        cases hsome
  match n with
  | 0 => rfl
  | 1 => rfl
  | n + 2 =>
    rw [List.take_succ_cons, List.take_succ_cons, List.dropWhile_cons_of_pos (by decide),
      List.dropWhile_cons_of_pos (by decide)]
    rw [show n + 2 - 2 = n from rfl] at hhead ⊢
    cases hrest : (cs.flatMap Chunk.text ++ b.lastText).take n with
    | nil => rfl
    | cons d rest =>
      rw [hrest] at hhead
      exact List.dropWhile_cons_of_neg (by rw [hhead d rfl]; exact Bool.false_ne_true)

/-- A beginning of chunks and a last chunk gives all of the data exactly if no size is too long,
all of the data is there and not too many zeros are. -/
theorem dechunk_chunks_iff (b : ChunkedBody) (cs : List Chunk) (dst : Bytes) (n : Nat)
    (hne : dst ++ cs.flatMap Chunk.data ≠ []) :
    dechunk dst ((cs.flatMap Chunk.text ++ b.lastText).take n) = dst ++ cs.flatMap Chunk.data ↔
      (∀ c ∈ cs, c.size.length ≤ 16) ∧ (cs.flatMap Chunk.text).length - 2 ≤ n ∧
        ¬ (16 < b.zeros ∧ (cs.flatMap Chunk.text).length + 17 ≤ n) := by
  induction cs generalizing dst n with
  | nil =>
    rw [List.flatMap_nil, List.append_nil] at hne
    rw [List.flatMap_nil, List.flatMap_nil, List.nil_append, List.append_nil, dechunk_last]
    have hzeros : 16 < min n b.zeros ↔ 16 < b.zeros ∧ ([] : Bytes).length + 17 ≤ n := by
      rw [List.length_nil]
      omega
    rw [← hzeros]
    split_ifs with hlong
    · exact iff_of_false (fun h => hne h.symm) fun h => h.2.2 hlong
    · exact iff_of_true rfl ⟨fun c hc => absurd hc List.not_mem_nil, Nat.zero_le _, hlong⟩
  | cons c cs ih =>
    have htext : (c :: cs).flatMap Chunk.text ++ b.lastText =
        c.front ++ 13 :: 10 :: (cs.flatMap Chunk.text ++ b.lastText) := by
      simp [Chunk.text]
    have hlength : ((c :: cs).flatMap Chunk.text).length =
        c.front.length + 2 + (cs.flatMap Chunk.text).length := by
      simp only [List.flatMap_cons, List.length_append, Chunk.text, List.length_cons,
        List.length_nil]
    have hdata :
        dst ++ (c :: cs).flatMap Chunk.data = (dst ++ c.data) ++ cs.flatMap Chunk.data := by
      rw [List.flatMap_cons, List.append_assoc]
    rw [htext, hlength, List.forall_mem_cons]
    rcases Nat.lt_or_ge n c.front.length with hin | hbeyond
    · -- within the chunk
      refine iff_of_false (fun h => ?_) fun h => ?_
      · rw [List.take_append_of_le_length (Nat.le_of_lt hin)] at h
        rcases dechunk_front_take c dst hin with hnone | hsame
        · exact hne (h.symm.trans hnone)
        · have hgrown := congrArg List.length (hsame.symm.trans h)
          have hpos := c.data_pos
          rw [List.flatMap_cons, List.length_append, List.length_append] at hgrown
          omega
      · have hreach := h.2.1
        omega
    · rw [List.take_append, List.take_of_length_le hbeyond, dechunk_front, skip_breaks]
      split_ifs with hlong
      · exact iff_of_false (fun h => hne h.symm) fun h => absurd h.1.1 (Nat.not_le.2 hlong)
      · rw [hdata] at hne ⊢
        rw [ih _ _ hne, and_iff_right (Nat.le_of_not_lt hlong)]
        refine and_congr_right fun _ => ?_
        have hchunk : cs = [] ∨ 3 ≤ (cs.flatMap Chunk.text).length := by
          cases cs with
          | nil => exact Or.inl rfl
          | cons d cs =>
            have hpos := d.data_pos
            refine Or.inr ?_
            simp only [List.flatMap_cons, List.length_append, Chunk.text, Chunk.front,
              List.length_cons, List.length_nil]
            omega
        rcases hchunk with rfl | hchunk
        · rw [List.flatMap_nil, List.length_nil]
          omega
        · omega

/-- A beginning of a chunked body that has data. -/
theorem dechunk_take_iff (b : ChunkedBody) (n : Nat) (hne : b.data ≠ []) :
    dechunk [] (b.text.take n) = b.data ↔
      (∀ c ∈ b.chunks, c.size.length ≤ 16) ∧ b.dataEnd ≤ n ∧
        ¬ (16 < b.zeros ∧ b.chunksText.length + 17 ≤ n) :=
  dechunk_chunks_iff b b.chunks [] n hne

/-- Without data there are no chunks. -/
theorem chunks_eq_nil {b : ChunkedBody} (hnil : b.data = []) : b.chunks = [] := by
  unfold data at hnil
  cases hcs : b.chunks with
  | nil => rfl
  | cons c cs =>
    rw [hcs, List.flatMap_cons, List.append_eq_nil_iff] at hnil
    exact absurd hnil.1 c.filled

theorem dataEnd_eq_zero {b : ChunkedBody} (hnil : b.data = []) : b.dataEnd = 0 := by
  unfold dataEnd chunksText
  rw [chunks_eq_nil hnil]
  rfl

/-- A beginning of one that has none. -/
theorem dechunk_take_nil (b : ChunkedBody) (n : Nat) (hnil : b.data = []) :
    dechunk [] (b.text.take n) = [] := by
  unfold text chunksText
  rw [chunks_eq_nil hnil, List.flatMap_nil, List.nil_append, dechunk_last]
  split_ifs <;> rfl

end ChunkedBody

/-! ## Other bytes -/

/-- Whatever the bytes are, less is made of them, as there is no chunk without a size. -/
theorem length_dechunk_lt (dst : Bytes) {src : Bytes} (hsrc : src ≠ []) :
    (dechunk dst src).length < dst.length + src.length := by
  induction hn : src.length using Nat.strongRecOn generalizing dst src with
  | _ n ih =>
    subst hn
    have hpos := List.length_pos_iff.2 hsrc
    rw [dechunk, if_neg hsrc]
    dsimp only
    have hdigits := (List.takeWhile_sublist (fun b => (hexDigit b).isSome) (l := src)).length_le
    have hnum : (src.takeWhile fun b => (hexDigit b).isSome) = [] →
        hexNumber (src.takeWhile fun b => (hexDigit b).isSome) = 0 := fun hnil => by rw [hnil]; rfl
    generalize src.takeWhile (fun b => (hexDigit b).isSome) = digits at hdigits hnum ⊢
    have hline :=
      (List.dropWhile_sublist (· ≠ (10 : UInt8)) (l := src.drop digits.length)).length_le
    rw [List.length_drop] at hline
    have htail := List.length_tail (l := (src.drop digits.length).dropWhile (· ≠ 10))
    generalize ((src.drop digits.length).dropWhile (· ≠ 10)).tail = rest at htail ⊢
    change (if 16 < digits.length then []
      else if hexNumber digits = 0 then dst
      else if rest.length < hexNumber digits then []
      else dechunk (dst ++ rest.take (hexNumber digits))
        ((rest.drop (hexNumber digits)).dropWhile isBreak)).length < _
    split_ifs with hlong hzero hshort
    · rw [List.length_nil]
      omega
    · omega
    · rw [List.length_nil]
      omega
    · have hsome : 0 < digits.length := by
        refine Nat.pos_of_ne_zero fun hnone => hzero (hnum (List.length_eq_zero_iff.1 hnone))
      have hskip := (List.dropWhile_sublist isBreak (l := rest.drop (hexNumber digits))).length_le
      rw [List.length_drop] at hskip
      by_cases hend : (rest.drop (hexNumber digits)).dropWhile isBreak = []
      · rw [hend, dechunk_nil, List.length_append, List.length_take]
        omega
      · have hless := ih _ (by omega) (dst ++ rest.take (hexNumber digits)) hend rfl
        rw [List.length_append, List.length_take] at hless
        omega

end TinyFramework.Net
