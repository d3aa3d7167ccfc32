/-
  Foundation/Search.lean --- searching a text and replacing in it.

  A text is found no sooner than all of it is there, and bytes that cannot begin it are passed over.

  Blocks are read as the letters they spell, and a unit that begins no block as a sign of
  its own.  A spelled text that is cut is read up to the letter that the cut is in, and
  what is left of that letter is read as signs.
-/
import TinyFramework.Foundation.CText
import TinyFramework.Foundation.Encodings

set_option autoImplicit false

namespace TinyFramework.Foundation

section Strings

variable {needle s t : Bytes} {cut : Bytes × Bytes}

/-! ## `strstr` -/

/-- A text too short for what is searched. -/
theorem cutAt_short (h : s.length < needle.length) : cutAt needle s = none := by
  induction s with
  | nil => rfl
  | cons b s ih =>
    rw [List.length_cons] at h
    have hnot : ¬ needle <+: b :: s := fun hfound =>
      absurd hfound.length_le (by rw [List.length_cons]; omega)
    rw [cutAt, if_neg hnot, ih (by omega)]
    rfl

/-- What is cut off before the end of what is found is not found. -/
theorem cutAt_take_none (h : cutAt needle s = some cut) {k : Nat}
    (hk : k < cut.1.length + needle.length) : cutAt needle (s.take k) = none := by
  induction s generalizing cut k with
  | nil => cases h
  | cons b s ih =>
    rw [cutAt] at h
    split_ifs at h with hfound
    · obtain rfl := Option.some.inj h
      refine cutAt_short ?_
      have hlength := List.length_take_le k (b :: s)
      rw [List.length_nil] at hk
      omega
    · obtain ⟨cut', hcut', rfl⟩ := Option.map_eq_some_iff.1 h
      cases k with
      | zero => rfl
      | succ k =>
        rw [List.length_cons] at hk
        have hnot : ¬ needle <+: b :: s.take k := fun hcut =>
          hfound (hcut.trans (List.take_prefix (k + 1) (b :: s)))
        rw [List.take_succ_cons, cutAt, if_neg hnot, ih hcut' (by omega)]
        rfl

/-- Nothing is found that begins within bytes which do not begin it. -/
theorem cutAt_skip {c : UInt8} (hneedle : needle.head? = some c) (hs : c ∉ s) (t : Bytes) :
    cutAt needle (s ++ t) = (cutAt needle t).map fun cut => (s ++ cut.1, cut.2) := by
  induction s with
  | nil =>
    rw [List.nil_append]
    cases cutAt needle t with
    | none => rfl
    | some cut => rfl
  | cons b s ih =>
    rw [List.mem_cons, not_or] at hs
    have hnot : ¬ needle <+: b :: (s ++ t) := by
      intro hfound
      obtain ⟨u, hu⟩ := hfound
      cases needle with
      | nil => cases hneedle
      | cons d needle =>
        obtain rfl := Option.some.inj hneedle
        exact hs.1 (List.cons.inj hu).1
    rw [List.cons_append, cutAt, if_neg hnot, ih hs.2, Option.map_map]
    rfl

/-! ## In any case -/

/-- A text is found that is there in other letters. -/
theorem strcasestr_isSome {m : Bytes} (hneedle : needle ≠ []) (hm : strcasecmp m needle = true) :
    (strcasestr needle (s ++ m ++ t)).isSome = true := by
  have hsame : m.map tolower = needle.map tolower := eq_of_beq hm
  have hlength : m.length = needle.length := by
    rw [← List.length_map tolower, hsame, List.length_map]
  induction s with
  | nil =>
    cases m with
    | nil => exact absurd (List.length_eq_zero_iff.1 hlength.symm) hneedle
    | cons b m =>
      have hfound : strncasecmp needle (b :: (m ++ t)) needle.length = true := by
        show strcasecmp (needle.take needle.length) ((b :: m ++ t).take needle.length) = true
        rw [List.take_length, ← hlength, List.take_left]
        exact beq_iff_eq.2 hsame.symm
      rw [List.nil_append, List.cons_append, strcasestr, if_pos hfound]
      rfl
  | cons b s ih =>
    rw [List.cons_append, List.cons_append, strcasestr]
    split_ifs
    · rfl
    · exact ih

end Strings

/-! ## Reading that replaces -/

section Replacing

variable {α β δ : Type}

/-- A letter `a` is spelled `enc a` and read as `out a`; `sign` replaces other units. -/
structure Replaces (enc : α → List β) (out : α → List δ) (sign : δ) (read : List β → List δ) :
    Prop where
  nil : read [] = []
  block : ∀ a rest, read (enc a ++ rest) = out a ++ read rest
  other : ∀ b rest, (∀ a, ¬ enc a <+: b :: rest) → read (b :: rest) = sign :: read rest

/-- No letter is spelled in front of another. -/
def PrefixFree (enc : α → List β) : Prop := ∀ a a', enc a <+: enc a' → enc a = enc a'

namespace Replaces

variable {enc : α → List β} {out : α → List δ} {sign : δ} {read : List β → List δ}
  {cont : β → Bool}

theorem read_spell (h : Replaces enc out sign read) (l : List α) (rest : List β) :
    read (spell enc l ++ rest) = l.flatMap out ++ read rest := by
  induction l with
  | nil => rfl
  | cons a l ih =>
    have hspell : spell enc (a :: l) = enc a ++ spell enc l := List.flatMap_cons
    rw [hspell, List.append_assoc, h.block, ih, List.flatMap_cons, List.append_assoc]

/-- Units that continue a block are replaced when none begins it. -/
theorem read_continued (h : Replaces enc out sign read) (hsync : SelfSync enc cont) {t : List β}
    (ht : ∀ x ∈ t, cont x = true) : read t = List.replicate t.length sign := by
  induction t with
  | nil => exact h.nil
  | cons b t ih =>
    have hnone : ∀ a, ¬ enc a <+: b :: t := by
      intro a ha
      obtain ⟨c, bs, hblock, hc, -⟩ := hsync.block a
      rw [hblock] at ha
      obtain ⟨rfl, -⟩ := List.cons_prefix_cons.1 ha
      rw [ht c List.mem_cons_self] at hc
      cases hc
    rw [h.other b t hnone, ih fun x hx => ht x (List.mem_cons_of_mem b hx)]
    rfl

/-- A part of a block, from its beginning on, is replaced unit by unit. -/
theorem read_part (h : Replaces enc out sign read) (hsync : SelfSync enc cont)
    (hfree : PrefixFree enc) {a : α} {p : List β} (hp : p <+: enc a) (hne : p ≠ enc a) :
    read p = List.replicate p.length sign := by
  cases p with
  | nil => exact h.nil
  | cons b p =>
    obtain ⟨c, bs, hblock, -, hbs⟩ := hsync.block a
    have hnone : ∀ a', ¬ enc a' <+: b :: p := by
      intro a' ha'
      have heq := hfree a' a (ha'.trans hp)
      exact hne (hp.eq_of_length (Nat.le_antisymm hp.length_le (heq ▸ ha'.length_le)))
    have htail : ∀ x ∈ p, cont x = true := by
      rw [hblock] at hp
      exact fun x hx => hbs x ((List.cons_prefix_cons.1 hp).2.subset hx)
    rw [h.other b p hnone, h.read_continued hsync htail]
    rfl

/-- Where a text is cut: behind a letter, or inside of one. -/
theorem exists_cut (enc : α → List β) (l : List α) (k : Nat) :
    (spell enc l).length ≤ k ∨ ∃ l₁ a l₂ p, l = l₁ ++ a :: l₂ ∧ p <+: enc a ∧ p ≠ enc a ∧
      (spell enc l).take k = spell enc l₁ ++ p := by
  induction l generalizing k with
  | nil => exact .inl (Nat.zero_le k)
  | cons a l ih =>
    have hspell : spell enc (a :: l) = enc a ++ spell enc l := List.flatMap_cons
    rw [hspell, List.length_append, List.take_append]
    rcases Nat.lt_or_ge k (enc a).length with hlt | hge
    · refine .inr ⟨[], a, l, (enc a).take k, rfl, List.take_prefix _ _, fun heq => ?_, ?_⟩
      · have hlen := congrArg List.length heq
        rw [List.length_take] at hlen
        omega
      · rw [Nat.sub_eq_zero_of_le (Nat.le_of_lt hlt), List.take_zero, List.append_nil]
        rfl
    · rw [List.take_of_length_le hge]
      rcases ih (k - (enc a).length) with hle | ⟨l₁, c, l₂, p, rfl, hp, hne, htake⟩
      · exact .inl (by omega)
      · refine .inr ⟨a :: l₁, c, l₂, p, rfl, hp, hne, ?_⟩
        have hcons : spell enc (a :: l₁) = enc a ++ spell enc l₁ := List.flatMap_cons
        rw [htake, hcons, List.append_assoc]

/-- What is read of a text that is cut. -/
theorem read_take (h : Replaces enc out sign read) (hsync : SelfSync enc cont)
    (hfree : PrefixFree enc) (l : List α) (k : Nat) :
    (spell enc l).length ≤ k ∧ read ((spell enc l).take k) = l.flatMap out ∨
      ∃ l₁ a l₂ i, l = l₁ ++ a :: l₂ ∧ i < (enc a).length ∧ k = (spell enc l₁).length + i ∧
        read ((spell enc l).take k) = l₁.flatMap out ++ List.replicate i sign := by
  rcases exists_cut enc l k with hle | ⟨l₁, a, l₂, p, rfl, hp, hne, htake⟩
  · refine .inl ⟨hle, ?_⟩
    have hread := h.read_spell l []
    rw [List.append_nil, h.nil, List.append_nil] at hread
    rw [List.take_of_length_le hle, hread]
  · have hlt : p.length < (enc a).length :=
      Nat.lt_of_le_of_ne hp.length_le fun heq => hne (hp.eq_of_length heq)
    have hk : k = (spell enc l₁).length + p.length := by
      have hcons : spell enc (a :: l₂) = enc a ++ spell enc l₂ := List.flatMap_cons
      have hlen := congrArg List.length htake
      simp only [List.length_take, spell_append, hcons, List.length_append] at hlen
      omega
    refine .inr ⟨l₁, a, l₂, p.length, rfl, hlt, hk, ?_⟩
    rw [htake, h.read_spell, h.read_part hsync hfree hp hne]

/-- A text that is cut is read as the whole only when nothing is cut off, or when what is
left of a letter is read as what is cut off. -/
theorem read_take_eq_iff (h : Replaces enc out sign read) (hsync : SelfSync enc cont)
    (hfree : PrefixFree enc) (l : List α) (k : Nat) :
    read ((spell enc l).take k) = l.flatMap out ↔
      (spell enc l).length ≤ k ∨ ∃ l₁ a l₂ i, l = l₁ ++ a :: l₂ ∧ i < (enc a).length ∧
        k = (spell enc l₁).length + i ∧ out a ++ l₂.flatMap out = List.replicate i sign := by
  constructor
  · intro heq
    rcases h.read_take hsync hfree l k with ⟨hle, -⟩ | ⟨l₁, a, l₂, i, rfl, hi, hk, hread⟩
    · exact .inl hle
    · rw [hread, List.flatMap_append, List.flatMap_cons] at heq
      exact .inr ⟨l₁, a, l₂, i, rfl, hi, hk, (List.append_cancel_left heq).symm⟩
  · rintro (hle | ⟨l₁, a, l₂, i, rfl, hi, hk, hrest⟩)
    · rcases h.read_take hsync hfree l k with ⟨-, hread⟩ | ⟨l₁, a, l₂, i, rfl, hi, hk, -⟩
      · exact hread
      · have hcons : spell enc (a :: l₂) = enc a ++ spell enc l₂ := List.flatMap_cons
        rw [spell_append, hcons, List.length_append, List.length_append] at hle
        omega
    · have hcons : spell enc (a :: l₂) = enc a ++ spell enc l₂ := List.flatMap_cons
      have htake : (spell enc (l₁ ++ a :: l₂)).take k = spell enc l₁ ++ (enc a).take i := by
        rw [spell_append, hcons, hk, List.take_length_add_append,
          List.take_append_of_le_length (Nat.le_of_lt hi)]
      have hne : (enc a).take i ≠ enc a := by
        intro heq
        have hlen := congrArg List.length heq
        rw [List.length_take] at hlen
        omega
      rw [htake, h.read_spell, h.read_part hsync hfree (List.take_prefix i _) hne,
        List.flatMap_append, List.flatMap_cons, hrest, List.length_take,
        Nat.min_eq_left (Nat.le_of_lt hi)]

end Replaces

end Replacing

end TinyFramework.Foundation
