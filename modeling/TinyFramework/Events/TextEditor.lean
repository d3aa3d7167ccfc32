/-
  Events/TextEditor.lean --- text fields and their editor.

  The value is a C string, caret and anchor are byte offsets in it; an anchor of -1 is
  `none`.  A key comes without listeners, so its default is prevented by the field alone.

  The editor has a text, a caret and an anchor that are positions between characters.
  A field shows an editor when its value is the text in UTF-8 and its offsets are those of
  the positions.
-/
import TinyFramework.Foundation.Encodings
import Mathlib.Algebra.Order.Ring.Nat

set_option autoImplicit false

namespace TinyFramework.Events

open TinyFramework.Foundation

/-- What the two edit functions ask of the tag and of the `type` attribute. -/
inductive FieldKind where
  | textarea
  | numberInput
  | otherInput
  deriving DecidableEq, Repr

/-- The focused `input` or `textarea`. -/
structure TextField where
  kind : FieldKind
  value : Bytes := []
  caretOffset : Nat := 0
  selAnchorOff : Option Nat := some 0
  deriving DecidableEq, Repr

/-- The keys that edit or move. -/
inductive EditKey where
  | backspace
  | delete
  | enter
  | arrowLeft
  | arrowRight
  | home
  | end_
  deriving DecidableEq, Repr

/-! ## Code points -/

/-- `while (start > 0 && (cur[start] & 0xC0) == 0x80) start--;`; the NUL at the end
continues nothing. -/
def backOver (s : Bytes) (start : Nat) : Nat := backUp (contAt isCont s) start

/-- `utf8_cplen_at` -/
def utf8CplenAt (s : Bytes) (i : Nat) : Nat :=
  if s.length ≤ i then 0
  else if s.getD i 0 &&& 0x80 == 0 then 1
  else 1 + ((s.drop (i + 1)).takeWhile isCont).length

/-- `caret_clamp` -/
def caretClamp (s : Bytes) (off : Nat) : Nat :=
  if s.length < off then s.length else backOver s off

/-- The bytes of a code point as `apply_text_char` writes them. -/
def utf8Bytes (cp : Nat) : Bytes :=
  if cp < 0x80 then [UInt8.ofNat cp]
  else if cp < 0x800 then
    [UInt8.ofNat (0xC0 ||| cp >>> 6), UInt8.ofNat (0x80 ||| (cp &&& 0x3F))]
  else if cp < 0x10000 then
    [UInt8.ofNat (0xE0 ||| cp >>> 12), UInt8.ofNat (0x80 ||| (cp >>> 6 &&& 0x3F)),
      UInt8.ofNat (0x80 ||| (cp &&& 0x3F))]
  else
    [UInt8.ofNat (0xF0 ||| cp >>> 18), UInt8.ofNat (0x80 ||| (cp >>> 12 &&& 0x3F)),
      UInt8.ofNat (0x80 ||| (cp >>> 6 &&& 0x3F)), UInt8.ofNat (0x80 ||| (cp &&& 0x3F))]

/-! ## Editing -/

namespace TextField

/-- `has_sel` -/
def hasSel (f : TextField) (caret : Nat) : Bool :=
  f.selAnchorOff.any fun a => a != caret

/-- `sel_a` and `sel_b`; without a selection both are `dflt`. -/
def selBounds (f : TextField) (caret dflt : Nat) : Nat × Nat :=
  let a := f.selAnchorOff.getD caret
  if f.hasSel caret then (min a caret, min (max a caret) f.value.length)
  else (dflt, min dflt f.value.length)

/-- The value with `ins` in the place of what lies between two offsets. -/
def splice (f : TextField) (a b : Nat) (ins : Bytes) : Bytes :=
  f.value.take a ++ ins ++ f.value.drop b

/-- `SEL_ANCHOR_BEGIN` -/
def anchorBegin (f : TextField) (caret : Nat) (shift : Bool) : Option Nat :=
  if shift then some (f.selAnchorOff.getD caret) else none

/-- `apply_text_edit_key`: the field, and whether the key's default is prevented. -/
def applyTextEditKey (f : TextField) (key : EditKey) (shift : Bool) : TextField × Bool :=
  let cur := f.value
  let caret := caretClamp cur f.caretOffset
  let (selA, selB) := f.selBounds caret 0
  let dropSelection : TextField :=
    { f with value := f.splice selA selB [], caretOffset := selA, selAnchorOff := none }
  match key with
  | .backspace =>
      if f.hasSel caret && selA < selB then (dropSelection, false)
      else if 0 < caret then
        let start := backOver cur (caret - 1)
        ({ f with value := f.splice start caret [], caretOffset := start, selAnchorOff := none },
          false)
      else (f, false)
  | .delete =>
      if f.hasSel caret && selA < selB then (dropSelection, false)
      else if caret < cur.length then
        let cpl := utf8CplenAt cur caret
        ({ f with
            value := f.splice caret (caret + cpl) [], caretOffset := caret, selAnchorOff := none },
          false)
      else (f, false)
  | .enter =>
      if f.kind = .textarea then
        ({ f with value := f.splice caret caret [10], caretOffset := caret + 1 }, false)
      else (f, false)
  | .arrowLeft =>
      let off := if 0 < caret then backOver cur (caret - 1) else f.caretOffset
      ({ f with caretOffset := off, selAnchorOff := f.anchorBegin caret shift }, true)
  | .arrowRight =>
      let off := if caret < cur.length then caret + utf8CplenAt cur caret else f.caretOffset
      ({ f with caretOffset := off, selAnchorOff := f.anchorBegin caret shift }, true)
  | .home => ({ f with caretOffset := 0, selAnchorOff := f.anchorBegin caret shift }, true)
  | .end_ =>
      ({ f with caretOffset := cur.length, selAnchorOff := f.anchorBegin caret shift }, true)

/-- What an `input` of type `number` takes. -/
def numberTakes (cur chr : Bytes) : Bool :=
  let c := chr.headD 0
  if c == 46 then !cur.contains 46 && chr.length == 1
  else if c == 45 || c == 43 then cur.length == 0 && chr.length == 1
  else (48 ≤ c && c ≤ 57) && chr.length == 1

/-- `apply_text_char` -/
def applyTextChar (f : TextField) (cp : Nat) : TextField :=
  if cp = 0 then f
  else
    let chr := utf8Bytes cp
    let caret := caretClamp f.value f.caretOffset
    if f.kind = .numberInput ∧ numberTakes f.value chr = false then f
    else
      let (selA, selB) := f.selBounds caret caret
      { f with
        value := f.splice selA selB chr, caretOffset := selA + chr.length, selAnchorOff := none }

end TextField

/-! ## Events -/

/-- The focused field and `suppress_char`. -/
structure EditState where
  field : TextField
  suppressChar : Bool := false
  deriving DecidableEq, Repr

inductive EditEvent where
  | char (c : Char)
  | key (key : EditKey) (shift : Bool)
  | ctrlA
  deriving DecidableEq, Repr

namespace EditState

/-- `mini_events_handle_char` and the `keydown` part of `mini_events_handle_key`. -/
def handle (s : EditState) : EditEvent → EditState
  | .char c =>
      if s.suppressChar then { s with suppressChar := false }
      else { s with field := s.field.applyTextChar c.toNat }
  | .key key shift =>
      let (field, preventDefault) := s.field.applyTextEditKey key shift
      { field, suppressChar := preventDefault }
  | .ctrlA =>
      { field :=
          { s.field with selAnchorOff := some 0, caretOffset := s.field.value.length }
        suppressChar := true }

/-- The state after a sequence of events. -/
def run (s : EditState) (events : List EditEvent) : EditState :=
  events.foldl handle s

end EditState

/-! ## The editor -/

/-- A text with a caret, and an anchor when something may be selected. -/
structure Editor where
  kind : FieldKind
  text : List Char
  caret : Nat
  anchor : Option Nat
  caret_le : caret ≤ text.length
  anchor_le : ∀ a, anchor = some a → a ≤ text.length

namespace Editor

variable (e : Editor)

/-- Where the selection begins; the caret, without one. -/
def lo : Nat := min (e.anchor.getD e.caret) e.caret

/-- Where the selection ends. -/
def hi : Nat := max (e.anchor.getD e.caret) e.caret

theorem lo_le_hi : e.lo ≤ e.hi := le_trans (min_le_right _ _) (le_max_right _ _)

theorem lo_le : e.lo ≤ e.text.length := le_trans (min_le_right _ _) e.caret_le

theorem getD_le : e.anchor.getD e.caret ≤ e.text.length := by
  cases h : e.anchor with
  | none => exact e.caret_le
  | some a => exact e.anchor_le a h

theorem hi_le : e.hi ≤ e.text.length := max_le e.getD_le e.caret_le

/-- Put `m` in the place of the characters from `i` to `j`, and drop the anchor. -/
def replace (i j : Nat) (m : List Char) (h : i ≤ e.text.length) : Editor where
  kind := e.kind
  text := e.text.take i ++ m ++ e.text.drop j
  caret := i + m.length
  anchor := none
  caret_le := by
    simp only [List.length_append, List.length_take, Nat.min_eq_left h]
    exact Nat.le_add_right _ _
  anchor_le := by simp

/-- Go to `k`; what is passed over is selected if `shift` is held. -/
def moveTo (k : Nat) (h : k ≤ e.text.length) (shift : Bool) : Editor where
  kind := e.kind
  text := e.text
  caret := k
  anchor := if shift then some (e.anchor.getD e.caret) else none
  caret_le := h
  anchor_le := by
    intro a ha
    split_ifs at ha
    exact Option.some.inj ha ▸ e.getD_le

def selectAll : Editor where
  kind := e.kind
  text := e.text
  caret := e.text.length
  anchor := some 0
  caret_le := Nat.le_refl _
  anchor_le := by simp

/-- The characters that the field takes; a `number` field has a filter. -/
def takes (c : Char) : Bool :=
  c != Char.ofNat 0 && (e.kind != .numberInput ||
    if c = '.' then !e.text.contains '.'
    else if c = '-' ∨ c = '+' then e.text.isEmpty
    else c.isDigit)

/-- A character replaces the selection. -/
def type (c : Char) : Editor :=
  if e.takes c then e.replace e.lo e.hi [c] e.lo_le else e

def backspace : Editor :=
  if e.lo < e.hi then e.replace e.lo e.hi [] e.lo_le
  else if 0 < e.caret then
    e.replace (e.caret - 1) e.caret [] (le_trans (Nat.sub_le _ _) e.caret_le)
  else e

def delete : Editor :=
  if e.lo < e.hi then e.replace e.lo e.hi [] e.lo_le
  else if e.caret < e.text.length then e.replace e.caret (e.caret + 1) [] e.caret_le
  else e

/-- A new line replaces the selection, in a `textarea`. -/
def enter : Editor :=
  if e.kind = .textarea then e.replace e.lo e.hi ['\n'] e.lo_le else e

def step : EditEvent → Editor
  | .char c => e.type c
  | .key .backspace _ => e.backspace
  | .key .delete _ => e.delete
  | .key .enter _ => e.enter
  | .key .arrowLeft shift => e.moveTo (e.caret - 1) (le_trans (Nat.sub_le _ _) e.caret_le) shift
  | .key .arrowRight shift =>
      e.moveTo (min (e.caret + 1) e.text.length) (min_le_right _ _) shift
  | .key .home shift => e.moveTo 0 (Nat.zero_le _) shift
  | .key .end_ shift => e.moveTo e.text.length (Nat.le_refl _) shift
  | .ctrlA => e.selectAll

def run (events : List EditEvent) : Editor := events.foldl step e

end Editor

/-- An optional sign, then digits with at most one point. -/
structure NumberForm (text : List Char) : Prop where
  first : ∀ c ∈ text.head?, c.isDigit ∨ c = '.' ∨ c = '-' ∨ c = '+'
  rest : ∀ c ∈ text.tail, c.isDigit ∨ c = '.'
  points : text.count '.' ≤ 1

/-! ## The field shows the editor -/

/-- The value is the text, the offsets are those of caret and anchor. -/
structure Shows (f : TextField) (e : Editor) : Prop where
  kind : f.kind = e.kind
  value : f.value = utf8 e.text
  caret : f.caretOffset = utf8Offset e.text e.caret
  anchor : f.selAnchorOff = e.anchor.map (utf8Offset e.text)

theorem utf8Bytes_eq (c : Char) : utf8Bytes c.toNat = String.utf8EncodeChar c := by
  have hval : c.val.toNat = c.toNat := rfl
  have hlt : c.toNat < 1114112 := by
    rcases c.valid with h | h
    · exact Nat.lt_trans h (by omega)
    · exact h.2
  unfold utf8Bytes String.utf8EncodeChar
  dsimp only
  rw [hval]
  simp only [tail_or, Nat.shiftRight_eq_div_pow]
  rcases Nat.lt_or_ge c.toNat 128 with h1 | h1
  · rw [if_pos h1, if_pos (show c.toNat ≤ 127 by omega)]
  rw [if_neg (show ¬ c.toNat < 128 by omega), if_neg (show ¬ c.toNat ≤ 127 by omega)]
  rcases Nat.lt_or_ge c.toNat 2048 with h2 | h2
  · have hlead : 0xC0 ||| c.toNat / 2 ^ 6 = c.toNat / 64 % 32 + 192 := by
      have hor := lead_or (i := 6) (k := 3) (v := c.toNat / 2 ^ 6) (by omega)
      refine Eq.trans hor ?_
      omega
    rw [if_pos h2, if_pos (show c.toNat ≤ 2047 by omega), hlead]
  rw [if_neg (show ¬ c.toNat < 2048 by omega), if_neg (show ¬ c.toNat ≤ 2047 by omega)]
  rcases Nat.lt_or_ge c.toNat 65536 with h3 | h3
  · have hlead : 0xE0 ||| c.toNat / 2 ^ 12 = c.toNat / 4096 % 16 + 224 := by
      have hor := lead_or (i := 5) (k := 7) (v := c.toNat / 2 ^ 12) (by omega)
      refine Eq.trans hor ?_
      omega
    rw [if_pos h3, if_pos (show c.toNat ≤ 65535 by omega), hlead]
  · have hlead : 0xF0 ||| c.toNat / 2 ^ 18 = c.toNat / 262144 % 8 + 240 := by
      have hor := lead_or (i := 4) (k := 15) (v := c.toNat / 2 ^ 18) (by omega)
      refine Eq.trans hor ?_
      omega
    rw [if_neg (show ¬ c.toNat < 65536 by omega), if_neg (show ¬ c.toNat ≤ 65535 by omega), hlead]

theorem lowBit_iff (b : UInt8) : (b &&& 0x80 == 0) = true ↔ b.toNat < 128 := by
  have hall : ∀ n < 256, (UInt8.ofNat n &&& 0x80 == 0) = true ↔ n < 128 := by
    decide +kernel
  have hb := hall b.toNat b.toNat_lt
  rwa [UInt8.ofNat_toNat] at hb

theorem isDigit_iff (c : Char) : c.isDigit = true ↔ 48 ≤ c.toNat ∧ c.toNat ≤ 57 := by
  simp [Char.isDigit, UInt32.le_iff_toNat_le]

theorem ofNat_eq_iff {n : Nat} (hn : n < 256) (c : Char) (hc : c.toNat < 128) :
    UInt8.ofNat c.toNat = UInt8.ofNat n ↔ c.toNat = n := by
  rw [← UInt8.toNat_inj, toNat_ofNat_lt (by omega), toNat_ofNat_lt hn]

namespace Shows

variable {f : TextField} {e : Editor}

theorem clamp (h : Shows f e) :
    caretClamp f.value f.caretOffset = utf8Offset e.text e.caret := by
  rw [h.value, h.caret]
  unfold caretClamp backOver
  rw [if_neg (Nat.not_lt.2 (utf8_selfSync.offset_le_length e.caret_le)),
    utf8_selfSync.backUp_offset e.caret_le]

/-- Positions are as far apart as their offsets. -/
theorem offset_min {l : List Char} {i j : Nat} (hi : i ≤ l.length) (hj : j ≤ l.length) :
    min (utf8Offset l i) (utf8Offset l j) = utf8Offset l (min i j) ∧
      max (utf8Offset l i) (utf8Offset l j) = utf8Offset l (max i j) := by
  rcases Nat.lt_or_ge i j with h | h
  · have hlt := utf8_selfSync.offset_lt h hj
    rw [Nat.min_eq_left (Nat.le_of_lt h), Nat.max_eq_right (Nat.le_of_lt h)]
    exact ⟨Nat.min_eq_left (Nat.le_of_lt hlt), Nat.max_eq_right (Nat.le_of_lt hlt)⟩
  · have hle : utf8Offset l j ≤ utf8Offset l i := by
      rcases Nat.lt_or_eq_of_le h with hlt | rfl
      · exact Nat.le_of_lt (utf8_selfSync.offset_lt hlt hi)
      · exact Nat.le_refl _
    rw [Nat.min_eq_right h, Nat.max_eq_left h]
    exact ⟨Nat.min_eq_right hle, Nat.max_eq_left hle⟩

theorem getD_anchor (h : Shows f e) :
    f.selAnchorOff.getD (utf8Offset e.text e.caret) =
      utf8Offset e.text (e.anchor.getD e.caret) := by
  rw [h.anchor]
  cases e.anchor <;> rfl

/-- Something is selected where the selection is not empty. -/
theorem hasSel_iff (h : Shows f e) :
    f.hasSel (utf8Offset e.text e.caret) = true ↔ e.lo < e.hi := by
  have hne : e.lo < e.hi ↔ e.anchor.getD e.caret ≠ e.caret := by
    unfold Editor.lo Editor.hi
    omega
  rw [hne, TextField.hasSel, h.anchor]
  cases ha : e.anchor with
  | none => simp
  | some a => simp [utf8_selfSync.offset_inj (e.anchor_le a ha) e.caret_le]

/-- The bounds of a selection are the offsets of its ends. -/
theorem selBounds_of_lt (h : Shows f e) (hsel : e.lo < e.hi) (dflt : Nat) :
    f.selBounds (utf8Offset e.text e.caret) dflt =
      (utf8Offset e.text e.lo, utf8Offset e.text e.hi) := by
  obtain ⟨hmin, hmax⟩ := offset_min e.getD_le e.caret_le
  have hlen : utf8Offset e.text e.hi ≤ (utf8 e.text).length :=
    utf8_selfSync.offset_le_length e.hi_le
  unfold TextField.selBounds
  rw [if_pos (h.hasSel_iff.2 hsel), h.getD_anchor, hmin, hmax, h.value]
  exact congrArg (Prod.mk _) (Nat.min_eq_left hlen)

/-- With the caret for a default they are so even when nothing is selected. -/
theorem selBounds_caret (h : Shows f e) :
    f.selBounds (utf8Offset e.text e.caret) (utf8Offset e.text e.caret) =
      (utf8Offset e.text e.lo, utf8Offset e.text e.hi) := by
  rcases Nat.lt_or_ge e.lo e.hi with hsel | hsel
  · exact h.selBounds_of_lt hsel _
  · have hlo : e.lo = e.caret := by
      unfold Editor.lo Editor.hi at *
      omega
    have hhi : e.hi = e.caret := by
      unfold Editor.lo Editor.hi at *
      omega
    have hnone : ¬ f.hasSel (utf8Offset e.text e.caret) = true := by
      rw [h.hasSel_iff]
      exact Nat.not_lt.2 hsel
    unfold TextField.selBounds
    rw [if_neg hnone, hlo, hhi, h.value,
      Nat.min_eq_left (utf8_selfSync.offset_le_length e.caret_le)]

/-- Back from a position to the one before. -/
theorem backOver_before (h : Shows f e) {k : Nat} (hpos : 0 < k) (hk : k ≤ e.text.length) :
    backOver f.value (utf8Offset e.text k - 1) = utf8Offset e.text (k - 1) := by
  obtain ⟨k, rfl⟩ := Nat.exists_eq_succ_of_ne_zero (Nat.ne_of_gt hpos)
  rw [h.value]
  exact utf8_selfSync.backUp_before hk

/-- Forth from a position to the next. -/
theorem cplen (h : Shows f e) {k : Nat} (hk : k < e.text.length) :
    utf8Offset e.text k + utf8CplenAt f.value (utf8Offset e.text k) =
      utf8Offset e.text (k + 1) := by
  have hlt : utf8Offset e.text k < (utf8 e.text).length :=
    lt_of_lt_of_le (utf8_selfSync.offset_lt (Nat.lt_succ_self k) hk)
      (utf8_selfSync.offset_le_length hk)
  have hunit : (utf8 e.text).getD (utf8Offset e.text k) 0 =
      (String.utf8EncodeChar e.text[k]).headD 0 := by
    have hdrop := drop_block String.utf8EncodeChar e.text hk
    have hhead := congrArg (fun s => s.headD (0 : UInt8)) hdrop
    obtain ⟨b, bs, heq, -⟩ := utf8_selfSync.block e.text[k]
    rw [heq] at hhead ⊢
    rw [List.getD_eq_getElem?_getD, ← List.head?_drop, ← List.headD_eq_head?_getD]
    exact hhead
  have hblock := utf8_selfSync.takeWhile_block hk
  have hnext := offset_succ String.utf8EncodeChar e.text hk
  unfold utf8CplenAt
  rw [h.value, if_neg (Nat.not_le.2 hlt), hunit]
  rcases utf8EncodeChar_cases e.text[k] with ⟨hascii, heq⟩ | ⟨-, b, bs, heq, -, hb, -⟩
  · have hbit : (UInt8.ofNat e.text[k].toNat &&& 0x80 == 0) = true := by
      rw [lowBit_iff, toNat_ofNat_lt (by omega)]
      exact hascii
    rw [heq, List.headD_cons, if_pos hbit]
    rw [heq] at hnext
    exact hnext.symm
  · have hbit : ¬ (b &&& 0x80 == 0) = true := by
      rw [lowBit_iff]
      omega
    rw [heq, List.headD_cons, if_neg hbit, Nat.add_comm 1]
    exact (congrArg _ hblock).trans hnext.symm

/-- A splice between two positions. -/
theorem replace (h : Shows f e) {i j off : Nat} {m : List Char} {ins : Bytes}
    (hi : i ≤ e.text.length) (hins : ins = utf8 m)
    (hoff : off = utf8Offset e.text i + ins.length) :
    Shows
      { f with
        value := f.splice (utf8Offset e.text i) (utf8Offset e.text j) ins, caretOffset := off,
        selAnchorOff := none }
      (e.replace i j m hi) := by
  refine ⟨h.kind, ?_, ?_, rfl⟩
  · show f.value.take _ ++ ins ++ f.value.drop _ = _
    rw [h.value, hins]
    exact splice_offset String.utf8EncodeChar e.text i j m
  · rw [hoff, hins]
    exact (offset_splice String.utf8EncodeChar e.text m _ hi).symm

theorem moveTo (h : Shows f e) {k off : Nat} (hk : k ≤ e.text.length)
    (hoff : off = utf8Offset e.text k) (shift : Bool) :
    Shows
      { f with
        caretOffset := off
        selAnchorOff := f.anchorBegin (utf8Offset e.text e.caret) shift }
      (e.moveTo k hk shift) := by
  refine ⟨h.kind, h.value, hoff, ?_⟩
  show f.anchorBegin _ shift = Option.map _ (if shift then _ else none)
  cases shift with
  | false => rfl
  | true => exact congrArg some h.getD_anchor

theorem offset_pos_iff : 0 < utf8Offset e.text e.caret ↔ 0 < e.caret :=
  utf8_selfSync.offset_lt_iff (i := 0) (Nat.zero_le _) e.caret_le

theorem offset_lt_length_iff (h : Shows f e) :
    utf8Offset e.text e.caret < f.value.length ↔ e.caret < e.text.length := by
  rw [h.value]
  show utf8Offset e.text e.caret < (spell String.utf8EncodeChar e.text).length ↔ _
  rw [← offset_length]
  exact utf8_selfSync.offset_lt_iff e.caret_le (Nat.le_refl _)

theorem hasSel_eq_false (h : Shows f e) (hsel : e.hi ≤ e.lo) :
    f.hasSel (utf8Offset e.text e.caret) = false := by
  rw [← Bool.not_eq_true, h.hasSel_iff]
  exact Nat.not_lt.2 hsel

/-! ### One event -/

theorem backspace (h : Shows f e) (shift : Bool) :
    Shows (f.applyTextEditKey .backspace shift).1 e.backspace := by
  unfold TextField.applyTextEditKey Editor.backspace
  dsimp only
  rw [h.clamp]
  rcases Nat.lt_or_ge e.lo e.hi with hsel | hsel
  · have hoffsets := utf8_selfSync.offset_lt hsel e.hi_le
    rw [h.selBounds_of_lt hsel, if_pos hsel]
    simp only [h.hasSel_iff.2 hsel, Bool.true_and, decide_eq_true_eq, if_pos hoffsets]
    exact h.replace e.lo_le rfl rfl
  · rw [h.hasSel_eq_false hsel, if_neg (Nat.not_lt.2 hsel)]
    simp only [Bool.false_and, if_false, Bool.false_eq_true]
    by_cases hpos : 0 < e.caret
    · rw [if_pos (offset_pos_iff.2 hpos), if_pos hpos, h.backOver_before hpos e.caret_le]
      exact h.replace _ rfl rfl
    · rw [if_neg (mt offset_pos_iff.1 hpos), if_neg hpos]
      exact h

theorem delete (h : Shows f e) (shift : Bool) :
    Shows (f.applyTextEditKey .delete shift).1 e.delete := by
  unfold TextField.applyTextEditKey Editor.delete
  dsimp only
  rw [h.clamp]
  rcases Nat.lt_or_ge e.lo e.hi with hsel | hsel
  · have hoffsets := utf8_selfSync.offset_lt hsel e.hi_le
    rw [h.selBounds_of_lt hsel, if_pos hsel]
    simp only [h.hasSel_iff.2 hsel, Bool.true_and, decide_eq_true_eq, if_pos hoffsets]
    exact h.replace e.lo_le rfl rfl
  · rw [h.hasSel_eq_false hsel, if_neg (Nat.not_lt.2 hsel)]
    simp only [Bool.false_and, if_false, Bool.false_eq_true]
    by_cases hlt : e.caret < e.text.length
    · rw [if_pos (h.offset_lt_length_iff.2 hlt), if_pos hlt, h.cplen hlt]
      exact h.replace _ rfl rfl
    · rw [if_neg (mt h.offset_lt_length_iff.1 hlt), if_neg hlt]
      exact h

/-- Without an anchor a new line goes where the selection would be. -/
theorem enter (h : Shows f e) (shift : Bool)
    (hanchor : f.kind = .textarea → f.selAnchorOff = none) :
    Shows (f.applyTextEditKey .enter shift).1 e.enter := by
  unfold TextField.applyTextEditKey Editor.enter
  dsimp only
  rw [h.clamp, ← h.kind]
  by_cases hkind : f.kind = .textarea
  · have hnone : e.anchor = none := by
      have hmap := h.anchor
      rw [hanchor hkind] at hmap
      exact Option.map_eq_none_iff.1 hmap.symm
    have hlo : e.lo = e.caret := by simp [Editor.lo, hnone]
    have hhi : e.hi = e.lo := by simp [Editor.lo, Editor.hi, hnone]
    have hline : [10] = utf8 ['\n'] := by decide
    have hreplace := h.replace (j := e.lo) e.lo_le hline rfl
    rw [if_pos hkind, if_pos hkind, hanchor hkind, hhi, ← hlo]
    exact hreplace
  · rw [if_neg hkind, if_neg hkind]
    exact h

theorem moves (h : Shows f e) (shift : Bool) :
    Shows (f.applyTextEditKey .arrowLeft shift).1 (e.step (.key .arrowLeft shift)) ∧
      Shows (f.applyTextEditKey .arrowRight shift).1 (e.step (.key .arrowRight shift)) ∧
      Shows (f.applyTextEditKey .home shift).1 (e.step (.key .home shift)) ∧
      Shows (f.applyTextEditKey .end_ shift).1 (e.step (.key .end_ shift)) := by
  unfold TextField.applyTextEditKey
  dsimp only
  rw [h.clamp]
  refine ⟨h.moveTo _ ?_ shift, h.moveTo _ ?_ shift, h.moveTo (k := 0) _ rfl shift,
    h.moveTo _ ?_ shift⟩
  · by_cases hpos : 0 < e.caret
    · rw [if_pos (offset_pos_iff.2 hpos), h.backOver_before hpos e.caret_le]
    · rw [if_neg (mt offset_pos_iff.1 hpos), h.caret, Nat.sub_eq_zero_of_le (by omega),
        Nat.eq_zero_of_not_pos hpos]
  · by_cases hlt : e.caret < e.text.length
    · rw [if_pos (h.offset_lt_length_iff.2 hlt), h.cplen hlt, Nat.min_eq_left hlt]
    · rw [if_neg (mt h.offset_lt_length_iff.1 hlt), h.caret,
        Nat.min_eq_right (by omega), Nat.le_antisymm e.caret_le (Nat.not_lt.1 hlt)]
  · rw [h.value]
    exact (offset_length String.utf8EncodeChar e.text).symm

/-- The filter of a `number` field sees the bytes of the characters. -/
theorem numberTakes_iff (h : Shows f e) (c : Char) :
    TextField.numberTakes f.value (utf8Bytes c.toNat) =
      if c = '.' then !e.text.contains '.'
      else if c = '-' ∨ c = '+' then e.text.isEmpty
      else c.isDigit := by
  have hpoint : f.value.contains 46 = e.text.contains '.' := by
    rw [h.value, Bool.eq_iff_iff, List.contains_iff_mem, List.contains_iff_mem]
    exact ascii_mem_utf8 (c := '.') (by decide) e.text
  have hempty : (f.value.length == 0) = e.text.isEmpty := by
    rw [h.value, Bool.eq_iff_iff, beq_iff_eq, List.length_eq_zero_iff, List.isEmpty_iff]
    exact utf8_selfSync.spell_eq_nil
  have hdot : c = '.' ↔ c.toNat = 46 := Char.toNat_inj.symm
  have hsign : c = '-' ∨ c = '+' ↔ c.toNat = 45 ∨ c.toNat = 43 := 
    or_congr Char.toNat_inj.symm Char.toNat_inj.symm
  unfold TextField.numberTakes
  rw [utf8Bytes_eq, hpoint, hempty]
  rcases utf8EncodeChar_cases c with ⟨hascii, heq⟩ | ⟨hbig, b, bs, heq, hbs, -⟩
  · have hbyte : ∀ n < 256, (UInt8.ofNat c.toNat == UInt8.ofNat n) = decide (c.toNat = n) := by
      intro n hn
      rw [Bool.eq_iff_iff, beq_iff_eq, decide_eq_true_eq]
      exact ofNat_eq_iff hn c hascii
    have h46 : (UInt8.ofNat c.toNat == 46) = decide (c.toNat = 46) := hbyte 46 (by omega)
    have h45 : (UInt8.ofNat c.toNat == 45) = decide (c.toNat = 45) := hbyte 45 (by omega)
    have h43 : (UInt8.ofNat c.toNat == 43) = decide (c.toNat = 43) := hbyte 43 (by omega)
    have hdigit : (decide (48 ≤ UInt8.ofNat c.toNat) && decide (UInt8.ofNat c.toNat ≤ 57)) =
        c.isDigit := by
      rw [Bool.eq_iff_iff, isDigit_iff, Bool.and_eq_true, decide_eq_true_eq, decide_eq_true_eq,
        UInt8.le_iff_toNat_le, UInt8.le_iff_toNat_le, toNat_ofNat_lt (by omega)]
      rfl
    rw [heq]
    simp only [List.headD_cons, List.length_singleton, Bool.and_true, beq_self_eq_true]
    by_cases hc : c = '.'
    · rw [if_pos hc, if_pos]
      exact h46.trans (decide_eq_true (hdot.1 hc))
    rw [if_neg hc, if_neg (by rw [h46]; simpa using mt hdot.2 hc)]
    refine if_congr ?_ rfl hdigit
    rw [hsign, h45, h43, Bool.or_eq_true, decide_eq_true_eq, decide_eq_true_eq]
  · have hlen : ((b :: bs).length == 1) = false := by
      simpa using hbs
    have hdigit : c.isDigit = false := by
      rw [← Bool.not_eq_true, isDigit_iff]
      omega
    have hnodot : ¬ c = '.' := by
      rw [hdot]
      omega
    have hnosign : ¬ (c = '-' ∨ c = '+') := by
      rw [hsign]
      omega
    rw [heq, if_neg hnodot, if_neg hnosign, hdigit]
    simp only [hlen, Bool.and_false, ite_self]

theorem char (h : Shows f e) (c : Char) : Shows (f.applyTextChar c.toNat) (e.type c) := by
  unfold TextField.applyTextChar Editor.type Editor.takes
  have hnul : c = Char.ofNat 0 ↔ c.toNat = 0 := by
    rw [← Char.toNat_inj]
    rfl
  by_cases hc : c.toNat = 0
  · rw [if_pos hc, hnul.2 hc]
    exact h
  rw [if_neg hc, ← h.numberTakes_iff, ← h.kind]
  dsimp only
  rw [h.clamp, h.selBounds_caret]
  have hne : (c != Char.ofNat 0) = true := bne_iff_ne.2 (mt hnul.1 hc)
  rw [hne, Bool.true_and]
  by_cases hrefused : f.kind = .numberInput ∧
      TextField.numberTakes f.value (utf8Bytes c.toNat) = false
  · rw [if_pos hrefused, hrefused.1, hrefused.2]
    exact h
  · have htaken : (f.kind != .numberInput ||
        TextField.numberTakes f.value (utf8Bytes c.toNat)) = true := by
      rw [Bool.or_eq_true, bne_iff_ne]
      by_cases hkind : f.kind = .numberInput
      · exact Or.inr (Bool.not_eq_false _ ▸ fun hfalse => hrefused ⟨hkind, hfalse⟩)
      · exact Or.inl hkind
    rw [if_neg hrefused, if_pos htaken]
    refine h.replace e.lo_le ?_ rfl
    rw [utf8Bytes_eq]
    simp [spell]

end Shows

/-! ## The form of a number -/

namespace NumberForm

variable {text : List Char}

theorem of_mem (h : NumberForm text) {c : Char} (hc : c ∈ text) :
    c.isDigit ∨ c = '.' ∨ c = '-' ∨ c = '+' := by
  cases text with
  | nil => cases hc
  | cons a t =>
    rcases List.mem_cons.1 hc with rfl | hc
    · exact h.first c rfl
    · exact (h.rest c hc).imp_right Or.inl

/-- What is left of a number is one. -/
theorem sublist (h : NumberForm text) {t : List Char} (ht : t.Sublist text) : NumberForm t where
  first _ hc := h.of_mem (ht.subset (List.mem_of_mem_head? hc))
  rest c hc := h.rest c (ht.tail.subset hc)
  points := (ht.count_le '.').trans h.points

theorem kept_sublist {i j : Nat} (hij : i ≤ j) :
    (text.take i ++ [] ++ text.drop j).Sublist text := by
  have hsub := (List.Sublist.refl (text.take i)).append (List.drop_sublist_drop_left text hij)
  rw [List.append_nil]
  rwa [List.take_append_drop] at hsub

/-- A digit or the point goes anywhere but before the sign. -/
theorem insert (h : NumberForm text) {c : Char} (hc : c.isDigit ∨ c = '.')
    (hpoint : c = '.' → '.' ∉ text) {i j : Nat} (hij : i ≤ j)
    (hsign : j = 0 → ∀ a ∈ text.head?, a ≠ '-' ∧ a ≠ '+') :
    NumberForm (text.take i ++ [c] ++ text.drop j) where
  first a ha := by
    have hmem := List.mem_of_mem_head? ha
    simp only [List.mem_append, List.mem_singleton] at hmem
    rcases hmem with (hmem | rfl) | hmem
    · exact h.of_mem (List.mem_of_mem_take hmem)
    · exact hc.imp_right Or.inl
    · exact h.of_mem (List.mem_of_mem_drop hmem)
  rest a ha := by
    cases text with
    | nil => simp at ha
    | cons b t =>
      have hrest : ∀ x ∈ t, x.isDigit ∨ x = '.' := h.rest
      cases i with
      | zero =>
        rw [List.take_zero, List.nil_append, List.singleton_append, List.tail_cons] at ha
        cases j with
        | zero =>
          rcases List.mem_cons.1 ha with rfl | ha
          · have hplain := hsign rfl a rfl
            rcases h.first a rfl with hd | hd | hd | hd
            · exact Or.inl hd
            · exact Or.inr hd
            · exact absurd hd hplain.1
            · exact absurd hd hplain.2
          · exact hrest a ha
        | succ j => exact hrest a (List.mem_of_mem_drop ha)
      | succ i =>
        obtain ⟨k, rfl⟩ := Nat.exists_eq_add_of_le hij
        rw [Nat.add_right_comm i 1 k] at ha
        simp only [List.take_succ_cons, List.cons_append, List.tail_cons, List.drop_succ_cons,
          List.mem_append, List.mem_singleton] at ha
        rcases ha with (ha | rfl) | ha
        · exact hrest a (List.mem_of_mem_take ha)
        · exact hc
        · exact hrest a (List.mem_of_mem_drop ha)
  points := by
    have hkept : (text.take i ++ [] ++ text.drop j).count '.' ≤ text.count '.' :=
      (kept_sublist hij).count_le '.'
    simp only [List.append_nil, List.count_append] at hkept ⊢
    by_cases hdot : c = '.'
    · have hnone : text.count '.' = 0 := List.count_eq_zero.2 (hpoint hdot)
      rw [hdot, List.count_singleton_self]
      omega
    · have hnone : [c].count '.' = 0 := List.count_eq_zero.2 (by simpa using Ne.symm hdot)
      have hle := h.points
      omega

end NumberForm

/-! ## Runs -/

/-- The character would come before the sign of a number. -/
def TextField.beforeSign (f : TextField) (c : Char) : Bool :=
  let caret := caretClamp f.value f.caretOffset
  f.kind == .numberInput && (f.value.head? == some 45 || f.value.head? == some 43) &&
    (f.selBounds caret caret).2 == 0 && TextField.numberTakes f.value (utf8Bytes c.toNat)

/-- What the field must be like for an event to be the editor's: no character is
swallowed or comes before the sign of a number, a new line finds no anchor. -/
def EditState.followsEditor (s : EditState) : EditEvent → Bool
  | .char c => !s.suppressChar && !s.field.beforeSign c
  | .key .enter _ => s.field.kind != .textarea || s.field.selAnchorOff.isNone
  | _ => true

/-- Every event of the sequence finds the field so. -/
def SafeEdits : EditState → List EditEvent → Prop
  | _, [] => True
  | s, event :: events => s.followsEditor event = true ∧ SafeEdits (s.handle event) events

instance : (s : EditState) → (events : List EditEvent) → Decidable (SafeEdits s events)
  | _, [] => isTrue trivial
  | s, event :: events =>
      haveI : Decidable (SafeEdits (s.handle event) events) :=
        instDecidableSafeEdits (s.handle event) events
      inferInstanceAs (Decidable (_ ∧ _))

theorem Shows.step {s : EditState} {e : Editor} (h : Shows s.field e) {event : EditEvent}
    (hsafe : s.followsEditor event = true) : Shows (s.handle event).field (e.step event) := by
  cases event with
  | char c =>
    simp only [EditState.followsEditor, Bool.and_eq_true, Bool.not_eq_true'] at hsafe
    simp only [EditState.handle, hsafe.1, Bool.false_eq_true, if_false]
    exact h.char c
  | key key shift =>
    cases key with
    | backspace => exact h.backspace shift
    | delete => exact h.delete shift
    | enter =>
      refine h.enter shift fun hkind => ?_
      simp only [EditState.followsEditor, hkind, bne_self_eq_false, Bool.false_or,
        Option.isNone_iff_eq_none] at hsafe
      exact hsafe
    | arrowLeft => exact (h.moves shift).1
    | arrowRight => exact (h.moves shift).2.1
    | home => exact (h.moves shift).2.2.1
    | end_ => exact (h.moves shift).2.2.2
  | ctrlA =>
    refine ⟨h.kind, h.value, ?_, rfl⟩
    show s.field.value.length = _
    rw [h.value]
    exact (offset_length String.utf8EncodeChar e.text).symm

theorem Editor.kind_step (e : Editor) (event : EditEvent) : (e.step event).kind = e.kind := by
  cases event with
  | char c =>
    show (e.type c).kind = e.kind
    unfold Editor.type
    split_ifs <;> rfl
  | ctrlA => rfl
  | key key shift =>
    cases key <;> simp only [Editor.step, Editor.backspace, Editor.delete, Editor.enter] <;>
      first
      | rfl
      | split_ifs <;> rfl

/-- A number that does not begin with a byte of a sign begins with no sign. -/
theorem Shows.head_plain {f : TextField} {e : Editor} (h : Shows f e)
    (hplain : (f.value.head? == some 45 || f.value.head? == some 43) = false) :
    ∀ a ∈ e.text.head?, a ≠ '-' ∧ a ≠ '+' := by
  intro a ha
  cases htext : e.text with
  | nil =>
    rw [htext] at ha
    cases ha
  | cons b t =>
    rw [htext] at ha
    cases ha
    rw [h.value, htext] at hplain
    constructor <;> rintro rfl <;> revert hplain <;> simp [spell, String.utf8EncodeChar]

theorem NumberForm.type {f : TextField} {e : Editor} (hshow : Shows f e)
    (hkind : e.kind = .numberInput) (h : NumberForm e.text) {c : Char}
    (hsafe : f.beforeSign c = false) : NumberForm (e.type c).text := by
  unfold Editor.type
  by_cases htaken : e.takes c = true
  · rw [if_pos htaken]
    have hfilter := hshow.numberTakes_iff c
    simp only [Editor.takes, hkind, bne_self_eq_false, Bool.false_or, Bool.and_eq_true] at htaken
    rw [htaken.2] at hfilter
    have hsign : e.hi = 0 → ∀ a ∈ e.text.head?, a ≠ '-' ∧ a ≠ '+' := by
      intro hhi
      refine hshow.head_plain ?_
      unfold TextField.beforeSign at hsafe
      dsimp only at hsafe
      rw [hfilter, hshow.clamp, hshow.selBounds_caret, hhi, hshow.kind, hkind] at hsafe
      simpa using hsafe
    have hc := htaken.2
    split_ifs at hc with hdot hsgn
    · refine h.insert (Or.inr hdot) (fun _ => ?_) e.lo_le_hi hsign
      simpa using hc
    · have hnil := List.isEmpty_iff.1 hc
      show NumberForm (e.text.take e.lo ++ [c] ++ e.text.drop e.hi)
      rw [hnil, List.take_nil, List.drop_nil]
      refine ⟨fun a ha => ?_, fun a ha => absurd ha List.not_mem_nil, ?_⟩
      · cases ha
        exact Or.inr (Or.inr hsgn)
      · exact List.count_le_length
    · exact h.insert (Or.inl hc) (fun heq => absurd heq hdot) e.lo_le_hi hsign
  · rw [if_neg htaken]
    exact h

theorem NumberForm.step {s : EditState} {e : Editor} (hshow : Shows s.field e)
    (hkind : e.kind = .numberInput) (h : NumberForm e.text) {event : EditEvent}
    (hsafe : s.followsEditor event = true) : NumberForm (e.step event).text := by
  have hremoved : ∀ {i j : Nat} (hi : i ≤ e.text.length), i ≤ j →
      NumberForm (e.replace i j [] hi).text := fun _ hij => h.sublist (kept_sublist hij)
  cases event with
  | char c =>
    simp only [EditState.followsEditor, Bool.and_eq_true, Bool.not_eq_true'] at hsafe
    exact NumberForm.type hshow hkind h hsafe.2
  | ctrlA => exact h
  | key key shift =>
    cases key with
    | backspace =>
      show NumberForm e.backspace.text
      unfold Editor.backspace
      split_ifs
      · exact hremoved _ e.lo_le_hi
      · exact hremoved _ (Nat.sub_le _ _)
      · exact h
    | delete =>
      show NumberForm e.delete.text
      unfold Editor.delete
      split_ifs
      · exact hremoved _ e.lo_le_hi
      · exact hremoved _ (Nat.le_succ _)
      · exact h
    | enter =>
      show NumberForm e.enter.text
      unfold Editor.enter
      rw [hkind, if_neg (by decide)]
      exact h
    | arrowLeft => exact h
    | arrowRight => exact h
    | home => exact h
    | end_ => exact h

/-- An empty field, its anchor at the start. -/
def emptyEditor (kind : FieldKind) : Editor where
  kind := kind
  text := []
  caret := 0
  anchor := some 0
  caret_le := Nat.le_refl _
  anchor_le := by simp

theorem shows_emptyEditor (kind : FieldKind) : Shows { kind := kind } (emptyEditor kind) :=
  ⟨rfl, rfl, rfl, rfl⟩

theorem numberForm_nil : NumberForm [] :=
  ⟨fun _ h => absurd h (by simp), fun _ h => absurd h List.not_mem_nil, Nat.zero_le _⟩

/-- A text does not end in a byte that continues a character of which nothing else is there. -/
theorem not_utf8_of_split {b : UInt8} (hb : b.toNat < 128) {x : UInt8} (hx : isCont x = true)
    (l : List Char) : utf8 l ≠ [b, x] := by
  intro heq
  have hbound : contAt isCont (utf8 l) 1 = true := by
    rw [heq]
    exact hx
  cases l with
  | nil => cases heq
  | cons c t =>
    have hblock : String.utf8EncodeChar c ++ utf8 t = [b, x] := heq
    rcases utf8EncodeChar_cases c with ⟨-, hc⟩ | ⟨-, d, ds, hc, -, hd, -⟩
    · have hone : offset String.utf8EncodeChar (c :: t) 1 = 1 := by
        show (spell String.utf8EncodeChar [c]).length = 1
        simp [spell, hc]
      have hnone := utf8_selfSync.contAt_offset (l := c :: t) (k := 1) (by simp)
      rw [hone] at hnone
      rw [hnone] at hbound
      cases hbound
    · rw [hc, List.cons_append] at hblock
      rw [(List.cons.inj hblock).1] at hd
      omega

end TinyFramework.Events
