/-
  Foundation/Encodings.lean --- texts in UTF-8 and UTF-16.

  A letter is spelled as a block: one unit that begins it, then units that continue it.
  The boundaries of a spelled text are the offsets of its prefixes.  To back up over
  continuing units leads to the boundary before, to run over them to the one behind.

  A text is well formed when every surrogate in it is one of a pair; these texts are
  exactly the ones that are made of characters.
-/
import TinyFramework.Foundation.Ascii
import Mathlib.Algebra.Group.Nat.Defs
import Mathlib.Data.Nat.Init

set_option autoImplicit false

namespace TinyFramework.Foundation

section Letters

variable {α β : Type}

/-- Every letter is a unit that begins, and units that continue. -/
structure SelfSync (enc : α → List β) (cont : β → Bool) : Prop where
  block : ∀ a, ∃ b bs, enc a = b :: bs ∧ cont b = false ∧ ∀ x ∈ bs, cont x = true

/-- The units of a text. -/
def spell (enc : α → List β) (l : List α) : List β := l.flatMap enc

/-- Where the letter number `k` begins. -/
def offset (enc : α → List β) (l : List α) (k : Nat) : Nat := (spell enc (l.take k)).length

/-- A unit that continues a block stands at `q`. -/
def contAt (cont : β → Bool) (s : List β) (q : Nat) : Bool := (s[q]?).any cont

/-- Go back while the condition holds. -/
def backUp (p : Nat → Bool) : Nat → Nat
  | 0 => 0
  | o + 1 => if p (o + 1) then backUp p o else o + 1

theorem backUp_eq {p : Nat → Bool} {m o : Nat} (hstop : m = 0 ∨ p m = false) (hmo : m ≤ o)
    (hp : ∀ q, m < q → q ≤ o → p q = true) : backUp p o = m := by
  induction o with
  | zero => exact (Nat.le_zero.1 hmo).symm
  | succ o ih =>
    rcases Nat.lt_or_eq_of_le hmo with hlt | rfl
    · rw [backUp, if_pos (hp (o + 1) hlt (Nat.le_refl _))]
      exact ih (Nat.le_of_lt_succ hlt) fun q hq hqo => hp q hq (Nat.le_succ_of_le hqo)
    · rcases hstop with h | h
      · omega
      · rw [backUp, if_neg (by simp [h])]

section Offsets

variable (enc : α → List β) (l : List α)

@[simp] theorem spell_append (l m : List α) : spell enc (l ++ m) = spell enc l ++ spell enc m :=
  List.flatMap_append

theorem spell_split (k : Nat) : spell enc l = spell enc (l.take k) ++ spell enc (l.drop k) := by
  rw [← spell_append, List.take_append_drop]

@[simp] theorem offset_zero : offset enc l 0 = 0 := rfl

theorem offset_length : offset enc l l.length = (spell enc l).length := by
  rw [offset, List.take_length]

theorem take_offset (k : Nat) : (spell enc l).take (offset enc l k) = spell enc (l.take k) := by
  rw [spell_split enc l k]
  exact List.take_left' rfl

theorem drop_offset (k : Nat) : (spell enc l).drop (offset enc l k) = spell enc (l.drop k) := by
  rw [spell_split enc l k]
  exact List.drop_left' rfl

/-- An edit between two boundaries is an edit of the text. -/
theorem splice_offset (i j : Nat) (m : List α) :
    (spell enc l).take (offset enc l i) ++ spell enc m ++ (spell enc l).drop (offset enc l j) =
      spell enc (l.take i ++ m ++ l.drop j) := by
  rw [take_offset, drop_offset, spell_append, spell_append]

theorem offset_splice {i : Nat} (m r : List α) (hi : i ≤ l.length) :
    offset enc (l.take i ++ m ++ r) (i + m.length) = offset enc l i + (spell enc m).length := by
  have hlen : (l.take i ++ m).length = i + m.length := by simp [hi]
  rw [offset, List.take_left' hlen, spell_append, List.length_append, offset]

theorem offset_succ {k : Nat} (hk : k < l.length) :
    offset enc l (k + 1) = offset enc l k + (enc l[k]).length := by
  have htake : l.take (k + 1) = l.take k ++ [l[k]] := (List.take_append_getElem hk).symm
  rw [offset, htake, spell_append, List.length_append]
  simp [spell, offset]

theorem drop_block {k : Nat} (hk : k < l.length) :
    (spell enc l).drop (offset enc l k) = enc l[k] ++ spell enc (l.drop (k + 1)) := by
  rw [drop_offset, List.drop_eq_getElem_cons hk]
  rfl

end Offsets

namespace SelfSync

variable {enc : α → List β} {cont : β → Bool} {l : List α} {k i j : Nat}

theorem length_pos (h : SelfSync enc cont) (a : α) : 0 < (enc a).length := by
  obtain ⟨b, bs, heq, -⟩ := h.block a
  rw [heq]
  exact Nat.succ_pos _

theorem spell_eq_nil (h : SelfSync enc cont) : spell enc l = [] ↔ l = [] := by
  refine ⟨fun hnil => ?_, fun hnil => hnil ▸ rfl⟩
  cases l with
  | nil => rfl
  | cons a l =>
    have hlen := h.length_pos a
    rw [(List.append_eq_nil_iff.1 hnil).1] at hlen
    exact absurd hlen (Nat.lt_irrefl 0)

theorem offset_lt (h : SelfSync enc cont) (hij : i < j) (hj : j ≤ l.length) :
    offset enc l i < offset enc l j := by
  induction j, hij using Nat.le_induction with
  | base =>
    rw [offset_succ enc l hj]
    exact Nat.lt_add_of_pos_right (h.length_pos _)
  | succ j hij ih =>
    rw [offset_succ enc l hj]
    exact Nat.lt_of_lt_of_le (ih (Nat.le_of_succ_le hj)) (Nat.le_add_right _ _)

theorem offset_lt_iff (h : SelfSync enc cont) (hi : i ≤ l.length) (hj : j ≤ l.length) :
    offset enc l i < offset enc l j ↔ i < j := by
  refine ⟨fun hlt => ?_, fun hij => h.offset_lt hij hj⟩
  rcases Nat.lt_trichotomy i j with hij | rfl | hji
  · exact hij
  · exact absurd hlt (Nat.lt_irrefl _)
  · exact absurd hlt (Nat.lt_asymm (h.offset_lt hji hi))

theorem offset_inj (h : SelfSync enc cont) (hi : i ≤ l.length) (hj : j ≤ l.length) :
    offset enc l i = offset enc l j ↔ i = j := by
  refine ⟨fun heq => ?_, fun hij => hij ▸ rfl⟩
  rcases Nat.lt_trichotomy i j with hij | hij | hji
  · exact absurd heq (Nat.ne_of_lt (h.offset_lt hij hj))
  · exact hij
  · exact absurd heq.symm (Nat.ne_of_lt (h.offset_lt hji hi))

theorem offset_le_length (h : SelfSync enc cont) (hk : k ≤ l.length) :
    offset enc l k ≤ (spell enc l).length := by
  rw [← offset_length]
  rcases Nat.lt_or_eq_of_le hk with hlt | rfl
  · exact Nat.le_of_lt (h.offset_lt hlt (Nat.le_refl _))
  · exact Nat.le_refl _

/-- At a boundary nothing is continued. -/
theorem contAt_offset (h : SelfSync enc cont) (hk : k ≤ l.length) :
    contAt cont (spell enc l) (offset enc l k) = false := by
  have hhead : (spell enc l)[offset enc l k]? = ((spell enc l).drop (offset enc l k))[0]? := by
    rw [List.getElem?_drop, Nat.add_zero]
  rw [contAt, hhead]
  rcases Nat.lt_or_eq_of_le hk with hlt | rfl
  · obtain ⟨b, bs, heq, hb, -⟩ := h.block l[k]
    rw [drop_block enc l hlt, heq]
    simp [hb]
  · rw [drop_offset, List.drop_length]
    rfl

/-- Inside a block everything is. -/
theorem contAt_inside (h : SelfSync enc cont) (hk : k < l.length) {q : Nat}
    (hq : offset enc l k < q) (hq' : q < offset enc l (k + 1)) :
    contAt cont (spell enc l) q = true := by
  obtain ⟨b, bs, heq, -, hbs⟩ := h.block l[k]
  obtain ⟨r, rfl⟩ := Nat.exists_eq_add_of_lt hq
  rw [offset_succ enc l hk, heq, List.length_cons] at hq'
  have hr : r < bs.length := by omega
  have hunit : (spell enc l)[offset enc l k + r + 1]? = some bs[r] := by
    rw [Nat.add_assoc, ← List.getElem?_drop, drop_block enc l hk, heq, List.cons_append,
      List.getElem?_cons_succ, List.getElem?_append_left hr, List.getElem?_eq_getElem hr]
  rw [contAt, hunit]
  exact hbs _ (List.getElem_mem hr)

/-- From a boundary there is nothing to back up over. -/
theorem backUp_offset (h : SelfSync enc cont) (hk : k ≤ l.length) :
    backUp (contAt cont (spell enc l)) (offset enc l k) = offset enc l k :=
  backUp_eq (Or.inr (h.contAt_offset hk)) (Nat.le_refl _) fun _ hq hq' =>
    absurd hq (Nat.not_lt.2 hq')

/-- From inside the block before a boundary, to that block's own beginning. -/
theorem backUp_before (h : SelfSync enc cont) (hk : k < l.length) :
    backUp (contAt cont (spell enc l)) (offset enc l (k + 1) - 1) = offset enc l k := by
  have hlt : offset enc l k < offset enc l (k + 1) := h.offset_lt (Nat.lt_succ_self k) hk
  refine backUp_eq (Or.inr (h.contAt_offset (Nat.le_of_lt hk))) (by omega) fun q hq hq' => ?_
  exact h.contAt_inside hk hq (by omega)

/-- The units that continue the block at a boundary. -/
theorem takeWhile_block (h : SelfSync enc cont) (hk : k < l.length) :
    (((spell enc l).drop (offset enc l k + 1)).takeWhile cont).length + 1 =
      (enc l[k]).length := by
  obtain ⟨b, bs, heq, -, hbs⟩ := h.block l[k]
  have hdrop : (spell enc l).drop (offset enc l k + 1) = bs ++ spell enc (l.drop (k + 1)) := by
    rw [← List.drop_drop, drop_block enc l hk, heq]
    rfl
  have hrest : (spell enc (l.drop (k + 1))).takeWhile cont = [] := by
    cases l.drop (k + 1) with
    | nil => rfl
    | cons a r =>
      obtain ⟨b', bs', heq', hb', -⟩ := h.block a
      simp [spell, heq', hb']
  rw [hdrop, List.takeWhile_append_of_pos hbs, hrest, List.append_nil, heq, List.length_cons]

end SelfSync

end Letters

/-! ## UTF-8 -/

/-- `(b & 0xC0) == 0x80` -/
def isCont (b : UInt8) : Bool := b &&& 0xC0 == 0x80

theorem toNat_ofNat_lt {n : Nat} (h : n < 256) : (UInt8.ofNat n).toNat = n := by
  simp [UInt8.toNat_ofNat', Nat.mod_eq_of_lt h]

/-- The bits of a leading byte are apart from those that are shifted in. -/
theorem lead_or {i k v : Nat} (hv : v < 2 ^ i) : 2 ^ i * k ||| v = v + 2 ^ i * k := by
  rw [Nat.add_comm]
  exact (Nat.two_pow_add_eq_or_of_lt hv k).symm

theorem tail_or (v : Nat) : 0x80 ||| (v &&& 0x3F) = v % 64 + 128 := by
  have hmod : v &&& 0x3F = v % 64 := Nat.and_two_pow_sub_one_eq_mod v 6
  rw [hmod]
  exact lead_or (i := 7) (k := 1) (by omega)

theorem isCont_iff (b : UInt8) : isCont b = true ↔ 128 ≤ b.toNat ∧ b.toNat < 192 := by
  have hall : ∀ n < 256, isCont (UInt8.ofNat n) = true ↔ 128 ≤ n ∧ n < 192 := by
    decide +kernel
  have hb := hall b.toNat b.toNat_lt
  rwa [UInt8.ofNat_toNat] at hb

/-- The block of a character, by the size of its number. -/
theorem utf8EncodeChar_cases (c : Char) :
    (c.toNat < 128 ∧ String.utf8EncodeChar c = [UInt8.ofNat c.toNat]) ∨
      (128 ≤ c.toNat ∧ ∃ b bs, String.utf8EncodeChar c = b :: bs ∧ bs ≠ [] ∧ 192 ≤ b.toNat ∧
        ∀ x ∈ bs, 128 ≤ x.toNat ∧ x.toNat < 192) := by
  have htail : ∀ v : Nat, 128 ≤ (UInt8.ofNat (v % 64 + 128)).toNat ∧
      (UInt8.ofNat (v % 64 + 128)).toNat < 192 := by
    intro v
    rw [toNat_ofNat_lt (by omega)]
    omega
  have hval : c.val.toNat = c.toNat := rfl
  unfold String.utf8EncodeChar
  dsimp only
  rw [hval]
  split_ifs with h1 h2 h3
  · exact Or.inl ⟨by omega, rfl⟩
  · refine Or.inr ⟨by omega, _, _, rfl, by simp, ?_, ?_⟩
    · rw [toNat_ofNat_lt (by omega)]
      omega
    · simpa using htail _
  · refine Or.inr ⟨by omega, _, _, rfl, by simp, ?_, ?_⟩
    · rw [toNat_ofNat_lt (by omega)]
      omega
    · simpa using ⟨htail _, htail _⟩
  · refine Or.inr ⟨by omega, _, _, rfl, by simp, ?_, ?_⟩
    · rw [toNat_ofNat_lt (by omega)]
      omega
    · simpa using ⟨htail _, htail _, htail _⟩

theorem utf8_selfSync : SelfSync String.utf8EncodeChar isCont where
  block c := by
    rcases utf8EncodeChar_cases c with ⟨hc, heq⟩ | ⟨-, b, bs, heq, -, hb, hbs⟩
    · refine ⟨_, [], heq, ?_, by simp⟩
      rw [← Bool.not_eq_true, isCont_iff, toNat_ofNat_lt (by omega)]
      omega
    · refine ⟨b, bs, heq, ?_, fun x hx => (isCont_iff x).2 (hbs x hx)⟩
      rw [← Bool.not_eq_true, isCont_iff]
      omega

/-- The text of a list of characters. -/
abbrev utf8 (l : List Char) : Bytes := spell String.utf8EncodeChar l

/-- Where the character number `k` begins. -/
abbrev utf8Offset (l : List Char) (k : Nat) : Nat := offset String.utf8EncodeChar l k

/-- An ASCII byte stands only for its own character. -/
theorem ascii_mem_utf8 {c : Char} (hc : c.toNat < 128) (l : List Char) :
    UInt8.ofNat c.toNat ∈ utf8 l ↔ c ∈ l := by
  have hblock : ∀ d, UInt8.ofNat c.toNat ∈ String.utf8EncodeChar d ↔ c = d := by
    intro d
    rcases utf8EncodeChar_cases d with ⟨hd, heq⟩ | ⟨hd, b, bs, heq, -, hb, hbs⟩
    · rw [heq, List.mem_singleton]
      refine ⟨fun h => ?_, fun h => h ▸ rfl⟩
      have hnat := congrArg UInt8.toNat h
      rw [toNat_ofNat_lt (by omega), toNat_ofNat_lt (by omega)] at hnat
      exact Char.toNat_inj.1 hnat
    · rw [heq, List.mem_cons]
      constructor
      · rintro (h | h)
        · rw [← h, toNat_ofNat_lt (by omega)] at hb
          omega
        · have hge := (hbs _ h).1
          rw [toNat_ofNat_lt (by omega)] at hge
          omega
      · rintro rfl
        omega
  unfold utf8 spell
  rw [List.mem_flatMap]
  constructor
  · rintro ⟨d, hd, hmem⟩
    exact (hblock d).1 hmem ▸ hd
  · exact fun h => ⟨c, h, (hblock c).2 rfl⟩

/-! ## UTF-16 -/

/-- The code units of a character. -/
def utf16EncodeChar (c : Char) : List UInt16 :=
  if c.toNat < 0x10000 then [UInt16.ofNat c.toNat]
  else
    [UInt16.ofNat (0xD800 + (c.toNat - 0x10000) / 1024),
      UInt16.ofNat (0xDC00 + (c.toNat - 0x10000) % 1024)]

/-- The text of a list of characters. -/
abbrev utf16 (l : List Char) : List UInt16 := spell utf16EncodeChar l

def isHighSurrogate (u : UInt16) : Bool := 0xD800 ≤ u && u < 0xDC00

def isLowSurrogate (u : UInt16) : Bool := 0xDC00 ≤ u && u < 0xE000

/-- No surrogate stands alone. -/
def wellFormedUtf16 : List UInt16 → Bool
  | [] => true
  | [u] => !isHighSurrogate u && !isLowSurrogate u
  | u :: v :: rest =>
      if isHighSurrogate u then isLowSurrogate v && wellFormedUtf16 rest
      else !isLowSurrogate u && wellFormedUtf16 (v :: rest)

theorem isHighSurrogate_iff (u : UInt16) :
    isHighSurrogate u = true ↔ 0xD800 ≤ u.toNat ∧ u.toNat < 0xDC00 := by
  simp [isHighSurrogate, UInt16.le_iff_toNat_le, UInt16.lt_iff_toNat_lt]

theorem isLowSurrogate_iff (u : UInt16) :
    isLowSurrogate u = true ↔ 0xDC00 ≤ u.toNat ∧ u.toNat < 0xE000 := by
  simp [isLowSurrogate, UInt16.le_iff_toNat_le, UInt16.lt_iff_toNat_lt]

/-! ## Characters -/

theorem exists_char {n : Nat} (h : n < 0xD800 ∨ (0xDFFF < n ∧ n < 0x110000)) :
    ∃ c : Char, c.toNat = n := by
  refine ⟨Char.ofNat n, ?_⟩
  rw [Char.ofNat, dif_pos h]
  rfl

/-- A unit that is no surrogate is a character. -/
theorem exists_utf16_unit {u : UInt16} (hhigh : ¬ isHighSurrogate u = true)
    (hlow : ¬ isLowSurrogate u = true) : ∃ c, utf16EncodeChar c = [u] := by
  rw [isHighSurrogate_iff] at hhigh
  rw [isLowSurrogate_iff] at hlow
  have hlt := u.toNat_lt
  obtain ⟨c, hc⟩ := exists_char (n := u.toNat) (by omega)
  refine ⟨c, ?_⟩
  rw [utf16EncodeChar, if_pos (by omega), hc, UInt16.ofNat_toNat]

/-- A pair of surrogates is a character. -/
theorem exists_utf16_pair {u v : UInt16} (hhigh : isHighSurrogate u = true)
    (hlow : isLowSurrogate v = true) : ∃ c, utf16EncodeChar c = [u, v] := by
  rw [isHighSurrogate_iff] at hhigh
  rw [isLowSurrogate_iff] at hlow
  obtain ⟨c, hc⟩ := exists_char
    (n := 0x10000 + (u.toNat - 0xD800) * 1024 + (v.toNat - 0xDC00)) (by omega)
  refine ⟨c, ?_⟩
  have hu : 0xD800 + (c.toNat - 0x10000) / 1024 = u.toNat := by omega
  have hv : 0xDC00 + (c.toNat - 0x10000) % 1024 = v.toNat := by omega
  rw [utf16EncodeChar, if_neg (by omega), hu, hv, UInt16.ofNat_toNat, UInt16.ofNat_toNat]

/-- A well-formed text is made of characters. -/
theorem exists_utf16 {s : List UInt16} (h : wellFormedUtf16 s = true) : ∃ l, s = utf16 l := by
  induction s using wellFormedUtf16.induct with
  | case1 => exact ⟨[], rfl⟩
  | case2 u =>
    simp only [wellFormedUtf16, Bool.and_eq_true, Bool.not_eq_true'] at h
    obtain ⟨c, hc⟩ := exists_utf16_unit (Bool.not_eq_true _ ▸ h.1) (Bool.not_eq_true _ ▸ h.2)
    exact ⟨[c], by simp [spell, hc]⟩
  | case3 u v rest hhigh ih =>
    simp only [wellFormedUtf16, hhigh, if_true, Bool.and_eq_true] at h
    obtain ⟨l, rfl⟩ := ih h.2
    obtain ⟨c, hc⟩ := exists_utf16_pair hhigh h.1
    exact ⟨c :: l, by simp [spell, hc]⟩
  | case4 u v rest hhigh ih =>
    simp only [wellFormedUtf16, hhigh, Bool.false_eq_true, if_false, Bool.and_eq_true,
      Bool.not_eq_true'] at h
    obtain ⟨l, hl⟩ := ih h.2
    obtain ⟨c, hc⟩ := exists_utf16_unit hhigh (Bool.not_eq_true _ ▸ h.1)
    exact ⟨c :: l, by rw [hl]; simp [spell, hc]⟩

end TinyFramework.Foundation
