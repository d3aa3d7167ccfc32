/-
  Css/NestingBounds.lean --- nested rules are expanded within the text.

  Where a block does not end, `close` is the last character: every block around the end of the
  text costs the blocks inside one character.  A text is expanded when that leaves something
  behind each opening brace.
-/
import TinyFramework.Css.Nesting

set_option autoImplicit false

namespace TinyFramework.Css

open TinyFramework.Foundation

/-! ## Blocks -/

theorem cssSkipBlock_append {a : Bytes} {depth : Nat}
    (h : ∀ p, p <+: a → p.count 125 < depth + p.count 123) (s : Bytes) :
    cssSkipBlock depth (a ++ s) = cssSkipBlock (depth + a.count 123 - a.count 125) s := by
  induction a generalizing depth with
  | nil => rfl
  | cons c a ih =>
    have htail : ∀ p, p <+: a → (c :: p).count 125 < depth + (c :: p).count 123 :=
      fun p hp => h (c :: p) (List.cons_prefix_cons.2 ⟨rfl, hp⟩)
    rw [List.cons_append, cssSkipBlock]
    by_cases hopen : c = 123
    · subst hopen
      simp only [List.count_cons_self, List.count_cons_of_ne (show (123 : UInt8) ≠ 125 by decide)]
        at htail ⊢
      rw [if_pos (by decide), ih fun p hp => by have := htail p hp; omega]
      exact congrArg (cssSkipBlock · s) (by omega)
    · by_cases hclose : c = 125
      · subst hclose
        simp only [List.count_cons_self, List.count_cons_of_ne (show (125 : UInt8) ≠ 123 by decide)]
          at htail ⊢
        have hdeep := htail [] List.nil_prefix
        rw [List.count_nil, List.count_nil] at hdeep
        rw [if_neg (by decide), if_pos (by decide), if_neg (by omega),
          ih fun p hp => by have := htail p hp; omega]
        exact congrArg (cssSkipBlock · s) (by omega)
      · simp only [List.count_cons_of_ne hopen, List.count_cons_of_ne hclose] at htail ⊢
        rw [if_neg (by simpa using hopen), if_neg (by simpa using hclose), ih htail]

theorem below_of_noStray {a p : Bytes} (h : NoStray 123 125 a) (hp : p <+: a) :
    p.count 125 < 1 + p.count 123 := by
  have := h p hp
  omega

/-- `css_skip_block` returns what follows the block. -/
theorem cssSkipBlock_encloses {ib body after : Bytes} (h : Encloses 123 125 ib body after) :
    cssSkipBlock 1 ib = after := by
  cases h with
  | closed _ _ hstray heven =>
    unfold EvenBrackets at heven
    rw [cssSkipBlock_append (fun p hp => below_of_noStray hstray hp), show
      1 + body.count 123 - body.count 125 = 1 by omega, cssSkipBlock, if_neg (by decide),
      if_pos (by decide), if_pos rfl]
  | unclosed _ hstray =>
    have h := cssSkipBlock_append (fun p hp => below_of_noStray hstray hp) []
    rw [List.append_nil] at h
    rw [h, cssSkipBlock]

section Closed

variable {body after : Bytes} (hstray : NoStray 123 125 body) (heven : EvenBrackets 123 125 body)
include hstray heven

theorem skip_closed : cssSkipBlock 1 (body ++ 125 :: after) = after :=
  cssSkipBlock_encloses (.closed body after hstray heven)

theorem blockLength_closed : blockLength (body ++ 125 :: after) = body.length := by
  unfold blockLength
  rw [skip_closed hstray heven, List.length_append, List.length_cons]
  omega

theorem blockBody_closed : blockBody (body ++ 125 :: after) = body := by
  unfold blockBody
  rw [blockLength_closed hstray heven, Int.toNat_natCast, List.take_left]

theorem blockResume_closed : blockResume (body ++ 125 :: after) = after := by
  unfold blockResume
  have hclose : (123 :: (body ++ 125 :: after)).drop
      ((body ++ 125 :: after).length - after.length) = 125 :: after := by
    rw [List.length_append, List.length_cons,
      show body.length + (after.length + 1) - after.length = body.length + 1 by omega,
      List.drop_succ_cons, List.drop_left]
  rw [skip_closed hstray heven]
  simp only [hclose]
  rfl

end Closed

theorem blockLength_nil : blockLength [] = -1 := rfl

section Unclosed

variable {body : Bytes} {c : UInt8} (hstray : NoStray 123 125 (body ++ [c]))
include hstray

theorem skip_unclosed : cssSkipBlock 1 (body ++ [c]) = [] :=
  cssSkipBlock_encloses (.unclosed _ hstray)

theorem blockLength_unclosed : blockLength (body ++ [c]) = body.length := by
  unfold blockLength
  rw [skip_unclosed hstray, List.length_append, List.length_singleton, List.length_nil]
  omega

theorem blockBody_unclosed : blockBody (body ++ [c]) = body := by
  unfold blockBody
  rw [blockLength_unclosed hstray, Int.toNat_natCast, List.take_left]

/-- Behind an unclosed block the last character is read again, unless it is a brace. -/
theorem blockResume_unclosed : blockResume (body ++ [c]) = if c = 125 then [] else [c] := by
  unfold blockResume
  have hclose : (123 :: (body ++ [c])).drop ((body ++ [c]).length - ([] : Bytes).length) = [c] := by
    rw [List.length_append, List.length_singleton, List.length_nil, Nat.sub_zero,
      List.drop_succ_cons, List.drop_left]
  rw [skip_unclosed hstray]
  simp only [hclose]
  by_cases hc : c = 125
  · rw [if_pos hc, hc]
    rfl
  · rw [if_neg hc, if_neg (by simpa using hc)]

end Unclosed

/-! ## Open blocks -/

/-- The blocks open at the end of a text: of style rules, and of what is skipped inside them.
`named` says that a brace opens the block of a rule. -/
structure Blocks where
  styled : Nat
  skipped : Nat
  named : Bool
  deriving DecidableEq, Repr

/-- Outside of all blocks every brace opens a rule, inside a body only one with text in front. -/
def opensRule (inner : Bool) (styled : Nat) : Bool := styled == 0 && !inner

/-- The blocks behind the next character of a style sheet, or of the body of a rule. -/
def Blocks.next (inner : Bool) (st : Blocks) (c : UInt8) : Blocks :=
  if c = 123 then
    if 0 < st.skipped then { st with skipped := st.skipped + 1 }
    else if st.named then ⟨st.styled + 1, 0, false⟩
    else ⟨st.styled, 1, false⟩
  else if c = 125 then
    if 0 < st.skipped then ⟨st.styled, st.skipped - 1, opensRule inner st.styled⟩
    else if st.styled = 0 then { st with named := true }
    else ⟨st.styled - 1, 0, opensRule inner (st.styled - 1)⟩
  else if 0 < st.skipped then st
  else if c = 59 then { st with named := opensRule inner st.styled }
  else if isspace c then st
  else { st with named := true }

/-- No block is open. -/
def Blocks.start (inner : Bool) : Blocks := ⟨0, 0, opensRule inner 0⟩

/-- The blocks open at the end of a text. -/
def readBlocks (inner : Bool) (st : Blocks) (t : Bytes) : Blocks := t.foldl (Blocks.next inner) st

/-- The blocks of style rules that a text leaves open. -/
def openBlocks (inner : Bool) (t : Bytes) : Nat := (readBlocks inner (.start inner) t).styled

/-- Behind each opening brace there is a character for every rule that is open there. -/
def Roomy (inner : Bool) (t : Bytes) : Prop :=
  ∀ u v, t = u ++ 123 :: v → openBlocks inner (u ++ [123]) ≤ v.length

/-- The same behind a text that leaves `st` open. -/
def RoomyFrom (inner : Bool) (st : Blocks) (t : Bytes) : Prop :=
  ∀ u v, t = u ++ 123 :: v → (readBlocks inner st (u ++ [123])).styled ≤ v.length

theorem readBlocks_append (inner : Bool) (st : Blocks) (s t : Bytes) :
    readBlocks inner st (s ++ t) = readBlocks inner (readBlocks inner st s) t := List.foldl_append

theorem readBlocks_cons (inner : Bool) (st : Blocks) (c : UInt8) (t : Bytes) :
    readBlocks inner st (c :: t) = readBlocks inner (st.next inner c) t := rfl

/-- The depth to which braces are open. -/
def Blocks.depth (st : Blocks) : Nat := st.styled + st.skipped

/-- The same blocks inside the block of a rule. -/
def Blocks.inside (st : Blocks) : Blocks := { st with styled := st.styled + 1 }

theorem Blocks.depth_next (inner : Bool) {st : Blocks} {c : UInt8} (h : c = 125 → 0 < st.depth) :
    (st.next inner c).depth + (if c = 125 then 1 else 0) =
      st.depth + (if c = 123 then 1 else 0) := by
  unfold next depth at *
  by_cases hopen : c = 123
  · subst hopen
    rw [if_pos rfl, if_neg (show (123 : UInt8) ≠ 125 by decide), if_pos rfl]
    split_ifs <;> simp only <;> omega
  · by_cases hclose : c = 125
    · have hpos := h hclose
      rw [if_neg hopen, if_pos hclose, if_pos hclose, if_neg hopen]
      split_ifs <;> simp only <;> omega
    · rw [if_neg hopen, if_neg hclose, if_neg hclose, if_neg hopen]
      split_ifs <;> rfl

theorem Blocks.next_inside (inner : Bool) {st : Blocks} {c : UInt8} (h : c = 125 → 0 < st.depth) :
    st.inside.next inner c = (st.next true c).inside := by
  obtain ⟨styled, skipped, named⟩ := st
  unfold next inside depth at *
  simp only at h ⊢
  by_cases hclose : c = 125
  · subst hclose
    have hpos := h rfl
    rcases Nat.eq_zero_or_pos skipped with rfl | hskip
    · obtain ⟨k, rfl⟩ : ∃ k, styled = k + 1 := ⟨styled - 1, by omega⟩
      simp [opensRule]
    · simp [hskip, opensRule]
  · simp only [if_neg hclose]
    split_ifs <;> simp_all [opensRule]

/-- A brace closes the last block. -/
theorem Blocks.next_close (inner : Bool) {st : Blocks} (h : st.depth = 1) :
    st.next inner 125 = .start inner := by
  obtain ⟨styled, skipped, named⟩ := st
  unfold depth at h
  simp only at h
  obtain ⟨rfl, rfl⟩ | ⟨rfl, rfl⟩ : styled = 0 ∧ skipped = 1 ∨ styled = 1 ∧ skipped = 0 := by omega
  · rfl
  · rfl

/-- Inside a body nothing is closed that was not opened there: the blocks are the same inside
the block of the rule. -/
theorem readBlocks_inside (inner : Bool) {t : Bytes} (h : NoStray 123 125 t) :
    readBlocks inner ⟨1, 0, false⟩ t = (readBlocks true (.start true) t).inside ∧
      (readBlocks true (.start true) t).depth + t.count 125 = t.count 123 := by
  induction t using List.reverseRecOn with
  | nil => exact ⟨rfl, rfl⟩
  | append_singleton t c ih =>
    obtain ⟨hsame, hdepth⟩ := ih h.of_append
    have hpos : c = 125 → 0 < (readBlocks true (.start true) t).depth := by
      rintro rfl
      have hlast := h (t ++ [125]) List.prefix_rfl
      rw [List.count_append, List.count_append, List.count_singleton_self,
        List.count_singleton, if_neg (by decide)] at hlast
      omega
    rw [readBlocks_append, readBlocks_append, hsame]
    refine ⟨Blocks.next_inside inner hpos, ?_⟩
    have hnext := Blocks.depth_next true hpos
    simp only [List.count_append, List.count_singleton, beq_iff_eq]
    rw [readBlocks_cons]
    change ((readBlocks true (.start true) t).next true c).depth + _ = _
    omega

/-- What is skipped opens no rule. -/
theorem readBlocks_skipped (inner : Bool) (styled : Nat) {t : Bytes} (h : NoStray 123 125 t) :
    (readBlocks inner ⟨styled, 1, false⟩ t).styled = styled ∧
      (readBlocks inner ⟨styled, 1, false⟩ t).skipped + t.count 125 = 1 + t.count 123 := by
  induction t using List.reverseRecOn with
  | nil => exact ⟨rfl, rfl⟩
  | append_singleton t c ih =>
    obtain ⟨hsame, hskip⟩ := ih h.of_append
    have hlast := h (t ++ [c]) List.prefix_rfl
    have hbefore := h t (List.prefix_append t [c])
    rw [readBlocks_append, readBlocks_cons]
    change ((readBlocks inner ⟨styled, 1, false⟩ t).next inner c).styled = _ ∧
      ((readBlocks inner ⟨styled, 1, false⟩ t).next inner c).skipped + _ = _
    unfold Blocks.next
    rw [if_pos (show 0 < (readBlocks inner ⟨styled, 1, false⟩ t).skipped by omega)]
    simp only [List.count_append, List.count_singleton, beq_iff_eq] at hlast ⊢
    split_ifs at hlast ⊢ <;> simp_all <;> omega

/-! ## Room -/

theorem roomyFrom_nil (inner : Bool) (st : Blocks) : RoomyFrom inner st [] :=
  fun u v h => by simp at h

theorem roomyFrom_cons (inner : Bool) (st : Blocks) (c : UInt8) (t : Bytes) :
    RoomyFrom inner st (c :: t) ↔
      (c = 123 → (st.next inner c).styled ≤ t.length) ∧ RoomyFrom inner (st.next inner c) t := by
  constructor
  · refine fun h => ⟨?_, fun u v huv => ?_⟩
    · rintro rfl
      exact h [] t rfl
    · exact h (c :: u) v (congrArg (c :: ·) huv)
  · rintro ⟨hhere, hbehind⟩ (_ | ⟨d, u⟩) v huv
    · obtain ⟨rfl, rfl⟩ := List.cons.inj huv
      exact hhere rfl
    · obtain ⟨rfl, rfl⟩ := List.cons.inj huv
      exact hbehind u v rfl

theorem roomyFrom_append {inner : Bool} {st : Blocks} {s : Bytes} (hs : RoomyFrom inner st s)
    (t : Bytes) :
    RoomyFrom inner st (s ++ t) ↔ RoomyFrom inner (readBlocks inner st s) t := by
  induction s generalizing st with
  | nil => rfl
  | cons c s ih =>
    obtain ⟨hhere, hbehind⟩ := (roomyFrom_cons inner st c s).1 hs
    rw [List.cons_append, roomyFrom_cons, ih hbehind, readBlocks_cons, and_iff_right_iff_imp]
    intro _ hc
    have hle := hhere hc
    rw [List.length_append]
    omega

theorem roomyFrom_of_notMem (inner : Bool) (st : Blocks) {t : Bytes} (h : 123 ∉ t) :
    RoomyFrom inner st t := by
  rintro u v rfl
  exact absurd (List.mem_append_right u List.mem_cons_self) h

theorem readBlocks_blank (inner : Bool) (st : Blocks) (hst : st.skipped = 0) {t : Bytes}
    (h : ∀ c ∈ t, isspace c = true) : readBlocks inner st t = st := by
  induction t with
  | nil => rfl
  | cons c t ih =>
    obtain ⟨hc, ht⟩ := List.forall_mem_cons.1 h
    have hnext : st.next inner c = st := by
      have h123 : c ≠ 123 := by rintro rfl; exact absurd hc (by decide)
      have h125 : c ≠ 125 := by rintro rfl; exact absurd hc (by decide)
      have h59 : c ≠ 59 := by rintro rfl; exact absurd hc (by decide)
      simp [Blocks.next, h123, h125, h59, hst, hc]
    rw [readBlocks_cons, hnext, ih ht]

theorem roomy_dropSpace (inner : Bool) (t : Bytes) :
    Roomy inner t ↔ Roomy inner (t.dropWhile isspace) := by
  have hblank : ∀ c ∈ t.takeWhile isspace, isspace c = true :=
    List.all_eq_true.1 List.all_takeWhile
  have hno : 123 ∉ t.takeWhile isspace := fun hmem => absurd (hblank 123 hmem) (by decide)
  have happ := roomyFrom_append (roomyFrom_of_notMem inner (.start inner) hno)
    (t.dropWhile isspace)
  rw [List.takeWhile_append_dropWhile, readBlocks_blank inner _ rfl hblank] at happ
  exact happ

theorem readBlocks_head (inner : Bool) (named : Bool) {head : Bytes}
    (h : ∀ c ∈ head, isHead c = true) :
    readBlocks inner ⟨0, 0, named⟩ head = ⟨0, 0, named || head.any fun c => !isspace c⟩ := by
  induction head generalizing named with
  | nil => exact congrArg (Blocks.mk 0 0) (Bool.or_false named).symm
  | cons c head ih =>
    obtain ⟨hc, hhead⟩ := List.forall_mem_cons.1 h
    simp only [isHead, Bool.and_eq_true, bne_iff_ne] at hc
    have hnext : Blocks.next inner ⟨0, 0, named⟩ c = ⟨0, 0, named || !isspace c⟩ := by
      by_cases hclose : c = 125
      · subst hclose
        simp [Blocks.next, show isspace 125 = false from rfl]
      · by_cases hspace : isspace c = true
        · simp [Blocks.next, hc, hclose, hspace]
        · simp [Blocks.next, hc, hclose, hspace]
    rw [readBlocks_cons, hnext, ih _ hhead, List.any_cons, Bool.or_assoc]

theorem notMem_head {head : Bytes} (h : ∀ c ∈ head, isHead c = true) : 123 ∉ head :=
  fun hmem => absurd (h 123 hmem) (by decide)

/-- A declaration opens nothing. -/
theorem roomy_declaration (inner : Bool) {head : Bytes} (h : ∀ c ∈ head, isHead c = true)
    (t : Bytes) : Roomy inner (head ++ 59 :: t) ↔ Roomy inner t := by
  have hread : readBlocks inner (.start inner) (head ++ [59]) = .start inner := by
    rw [readBlocks_append, Blocks.start, readBlocks_head inner _ h]
    rfl
  have hno : 123 ∉ head ++ [59] := by
    rw [List.mem_append, List.mem_singleton, not_or]
    exact ⟨notMem_head h, by decide⟩
  have happ := roomyFrom_append (roomyFrom_of_notMem inner (.start inner) hno) t
  rw [hread, List.append_assoc, List.singleton_append] at happ
  exact happ

section Rule

variable {inner : Bool} {head : Bytes} (h : ∀ c ∈ head, isHead c = true)
  (hnamed : (opensRule inner 0 || head.any fun c => !isspace c) = true)
include h hnamed

/-- The block of a rule costs a character, and its body is read inside it. -/
theorem roomy_rule (t : Bytes) :
    Roomy inner (head ++ 123 :: t) ↔ 1 ≤ t.length ∧ RoomyFrom inner ⟨1, 0, false⟩ t := by
  have happ := roomyFrom_append (roomyFrom_of_notMem inner (.start inner) (notMem_head h))
    (123 :: t)
  rw [Blocks.start, readBlocks_head inner _ h, hnamed, roomyFrom_cons] at happ
  exact happ.trans (and_congr_left fun _ => ⟨fun hone => hone rfl, fun hone _ => hone⟩)

end Rule

/-! ## Blocks and room -/

/-- What a body leaves open is closed behind it. -/
theorem openBlocks_le {t : Bytes} (h : NoStray 123 125 t) :
    openBlocks true t + t.count 125 ≤ t.count 123 := by
  have hdepth := (readBlocks_inside true h).2
  unfold Blocks.depth at hdepth
  unfold openBlocks
  omega

theorem styled_inside (inner : Bool) {t : Bytes} (h : NoStray 123 125 t) :
    (readBlocks inner ⟨1, 0, false⟩ t).styled = openBlocks true t + 1 := by
  rw [(readBlocks_inside inner h).1]
  rfl

theorem noStray_upto {t u v : Bytes} (h : NoStray 123 125 t) (huv : t = u ++ 123 :: v) :
    NoStray 123 125 (u ++ [123]) := by
  rw [huv, List.append_cons] at h
  exact h.of_append

theorem roomy_of_even {body : Bytes} (hstray : NoStray 123 125 body)
    (heven : EvenBrackets 123 125 body) : Roomy true body := by
  intro u v huv
  have hopen := openBlocks_le (noStray_upto hstray huv)
  have hclose := List.count_le_length (a := (125 : UInt8)) (l := v)
  unfold EvenBrackets at heven
  rw [huv, List.append_cons, List.count_append (a := 125), List.count_append (a := 123)] at heven
  omega

/-- An opening brace is the last character, or stands in what is in front of it. -/
theorem brace_concat {u v body : Bytes} {c : UInt8} (h : body ++ [c] = u ++ 123 :: v) :
    (v = [] ∧ c = 123) ∨ ∃ v', v = v' ++ [c] ∧ body = u ++ 123 :: v' := by
  rcases List.eq_nil_or_concat v with rfl | ⟨v', d, rfl⟩
  · exact .inl ⟨rfl, (List.cons.inj (List.append_inj' h rfl).2).1⟩
  · rw [List.concat_eq_append, ← List.cons_append, ← List.append_assoc] at h
    obtain ⟨hbody, hd⟩ := List.append_inj' h rfl
    obtain rfl := (List.cons.inj hd).1
    exact .inr ⟨v', List.concat_eq_append, hbody⟩

section Closed

variable {body : Bytes} (hstray : NoStray 123 125 body) (heven : EvenBrackets 123 125 body)
include hstray heven

theorem readBlocks_closed (inner : Bool) :
    readBlocks inner ⟨1, 0, false⟩ (body ++ [125]) = .start inner := by
  obtain ⟨hsame, hdepth⟩ := readBlocks_inside inner hstray
  unfold EvenBrackets at heven
  have hone : (readBlocks true (.start true) body).inside.depth = 1 := by
    unfold Blocks.depth at hdepth
    unfold Blocks.inside Blocks.depth
    simp only
    omega
  rw [readBlocks_append, hsame]
  exact Blocks.next_close inner hone

theorem roomyFrom_closed (inner : Bool) (after : Bytes) :
    RoomyFrom inner ⟨1, 0, false⟩ (body ++ 125 :: after) ↔ Roomy inner after := by
  have hblock : RoomyFrom inner ⟨1, 0, false⟩ (body ++ [125]) := by
    intro u v huv
    rcases brace_concat huv with ⟨_, hbad⟩ | ⟨v', rfl, hbody⟩
    · exact absurd hbad (by decide)
    · have hle := roomy_of_even hstray heven u v' hbody
      rw [styled_inside inner (noStray_upto hstray hbody), List.length_append,
        List.length_singleton]
      omega
  rw [List.append_cons, roomyFrom_append hblock, readBlocks_closed hstray heven]
  rfl

theorem roomy_skipped_closed (after : Bytes) :
    Roomy true (123 :: (body ++ 125 :: after)) ↔ Roomy true after := by
  have hblock : RoomyFrom true ⟨0, 1, false⟩ (body ++ [125]) := by
    intro u v huv
    rcases brace_concat huv with ⟨_, hbad⟩ | ⟨v', rfl, hbody⟩
    · exact absurd hbad (by decide)
    · rw [(readBlocks_skipped true 0 (noStray_upto hstray hbody)).1]
      exact Nat.zero_le _
  have hread : readBlocks true ⟨0, 1, false⟩ (body ++ [125]) = .start true := by
    obtain ⟨hstyled, hskipped⟩ := readBlocks_skipped true 0 hstray
    unfold EvenBrackets at heven
    rw [readBlocks_append]
    refine Blocks.next_close true ?_
    unfold Blocks.depth
    omega
  unfold Roomy
  change RoomyFrom true (.start true) _ ↔ RoomyFrom true (.start true) _
  rw [roomyFrom_cons, List.append_cons]
  change _ ∧ RoomyFrom true ⟨0, 1, false⟩ _ ↔ _
  rw [roomyFrom_append hblock, hread]
  exact and_iff_right fun _ => Nat.zero_le _

end Closed

/-- An unclosed block costs its body the last character. -/
theorem roomyFrom_unclosed (inner : Bool) {body : Bytes} {c : UInt8}
    (hstray : NoStray 123 125 (body ++ [c])) :
    RoomyFrom inner ⟨1, 0, false⟩ (body ++ [c]) ↔ c ≠ 123 ∧ Roomy true body := by
  have hstyled : ∀ u v, body ++ [c] = u ++ 123 :: v →
      (readBlocks inner ⟨1, 0, false⟩ (u ++ [123])).styled = openBlocks true (u ++ [123]) + 1 :=
    fun u v huv => styled_inside inner (noStray_upto hstray huv)
  constructor
  · refine fun h => ⟨?_, fun u v huv => ?_⟩
    · rintro rfl
      have hle := h body [] rfl
      rw [hstyled body [] rfl] at hle
      exact absurd hle (Nat.not_succ_le_zero _)
    · have heq : body ++ [c] = u ++ 123 :: (v ++ [c]) := by rw [huv]; simp
      have hle := h u (v ++ [c]) heq
      rw [hstyled u _ heq, List.length_append, List.length_singleton] at hle
      omega
  · rintro ⟨hc, hbody⟩ u v huv
    rw [hstyled u v huv]
    rcases brace_concat huv with ⟨_, hbad⟩ | ⟨v', rfl, hbody'⟩
    · exact absurd hbad hc
    · have hle := hbody u v' hbody'
      rw [List.length_append, List.length_singleton]
      omega

/-- A block that stays open is read alike outside and inside a body. -/
theorem roomyFrom_unclosed_congr {t : Bytes} (h : NoStray 123 125 t) :
    RoomyFrom false ⟨1, 0, false⟩ t ↔ RoomyFrom true ⟨1, 0, false⟩ t := by
  refine forall_congr' fun u => forall_congr' fun v => forall_congr' fun huv => ?_
  rw [styled_inside false (noStray_upto h huv), styled_inside true (noStray_upto h huv)]

theorem roomy_skipped_unclosed {t : Bytes} (h : NoStray 123 125 t) : Roomy true (123 :: t) := by
  change RoomyFrom true (.start true) _
  rw [roomyFrom_cons]
  refine ⟨fun _ => Nat.zero_le _, fun u v huv => ?_⟩
  change (readBlocks true ⟨0, 1, false⟩ (u ++ [123])).styled ≤ _
  rw [(readBlocks_skipped true 0 (noStray_upto h huv)).1]
  exact Nat.zero_le _

/-! ## Steps -/

theorem isSome_bind_iff {α β : Type} {x : Option α} {f : α → Option β} {P : Prop}
    (h : ∀ a, (f a).isSome ↔ P) : (x.bind f).isSome ↔ x.isSome ∧ P := by
  cases x with
  | none => simp
  | some a => simpa using h a

theorem length_drop_head {s head rest : Bytes} {c : UInt8}
    (h : s.dropWhile isspace = head ++ c :: rest) : head.length + rest.length < s.length := by
  have hle := (List.dropWhile_suffix (l := s) isspace).length_le
  rw [h, List.length_append, List.length_cons] at hle
  omega

/-- The character that is read again opens nothing. -/
theorem roomy_resume (c : UInt8) : Roomy false (if c = 125 then [] else [c]) ↔ c ≠ 123 := by
  split_ifs with hclose
  · rw [hclose]
    exact iff_of_true (roomyFrom_nil false _) (by decide)
  · constructor
    · rintro h rfl
      exact absurd (h [] [] rfl) (by decide)
    · exact fun hc => roomyFrom_of_notMem _ _ (by simpa using hc.symm)

/-- A rule is cut out of the text with its block. -/
theorem take_rule (head inner after : Bytes) :
    (head ++ 123 :: (inner ++ 125 :: after)).take
        ((head ++ 123 :: (inner ++ 125 :: after)).length - after.length) =
      head ++ 123 :: (inner ++ [125]) := by
  have hsplit : head ++ 123 :: (inner ++ 125 :: after) =
      (head ++ 123 :: (inner ++ [125])) ++ after := by simp
  have hlen : ((head ++ 123 :: (inner ++ [125])) ++ after).length - after.length =
      (head ++ 123 :: (inner ++ [125])).length := by
    rw [List.length_append, Nat.add_sub_cancel]
  rw [hsplit, hlen, List.take_left]

section Sheet

variable {css : Bytes}
  (hrules : ∀ t : Bytes, t.length < css.length →
    ∀ parent out, (expandNestingRec parent t out).isSome ↔ Roomy false t)
  (hbodies : ∀ t : Bytes, t.length < css.length →
    ∀ resolved decls out, (expandBody resolved t decls out).isSome ↔ Roomy true t)

include hrules hbodies in
/-- A style sheet is expanded when its rules are. -/
theorem expandNestingRec_step (parent out : Bytes) :
    (expandNestingRec parent css out).isSome ↔ Roomy false css := by
  rw [roomy_dropSpace]
  rcases exists_head (css.dropWhile isspace) with ⟨head, hcss, hend, hhead⟩ |
    ⟨head, c, rest, hcss, hc, hhead⟩
  · rw [expandNestingRec_end parent out hend, hcss]
    exact iff_of_true rfl (roomyFrom_of_notMem _ _ (notMem_head hhead))
  have hlen := length_drop_head hcss
  rcases hc with rfl | rfl
  · rw [expandNestingRec_semi parent out hhead hcss, hcss, roomy_declaration false hhead]
    split_ifs with hbrace hparent
    · exact hrules rest (by omega) parent out
    · exact hrules rest (by omega) parent _
    · exact iff_of_true rfl (roomyFrom_of_notMem _ _ (by simpa using hbrace))
  · rw [hcss, roomy_rule hhead rfl]
    obtain ⟨body, after, hblock⟩ := exists_encloses (123 : UInt8) 125 rest
    cases hblock with
    | closed _ _ hstray heven =>
      rw [List.length_append, List.length_cons] at hlen
      rw [expandNestingRec_rule parent out hhead hcss
          (by rw [blockLength_closed hstray heven]; exact Int.natCast_nonneg _),
        blockBody_closed hstray heven, blockResume_closed hstray heven,
        isSome_bind_iff fun a => hrules after (by omega) parent _,
        hbodies body (by omega), roomyFrom_closed hstray heven false after]
      refine ⟨fun h => ⟨?_, h.2⟩, fun h => ⟨roomy_of_even hstray heven, h.2⟩⟩
      rw [List.length_append, List.length_cons]
      omega
    | unclosed _ hstray =>
      rcases List.eq_nil_or_concat rest with rfl | ⟨body, c, rfl⟩
      · rw [expandNestingRec_overrun parent out hhead hcss (by rw [blockLength_nil]; decide)]
        exact iff_of_false Bool.false_ne_true fun h => absurd h.1 (by decide)
      · rw [List.concat_eq_append] at hstray hcss hlen ⊢
        rw [List.length_append, List.length_singleton] at hlen
        rw [expandNestingRec_rule parent out hhead hcss
            (by rw [blockLength_unclosed hstray]; exact Int.natCast_nonneg _),
          blockBody_unclosed hstray, blockResume_unclosed hstray,
          roomyFrom_unclosed false hstray, isSome_bind_iff (P := c ≠ 123) fun a => ?_,
          hbodies body (by omega)]
        · refine ⟨fun h => ⟨?_, h.2, h.1⟩, fun h => ⟨h.2.2, h.2.1⟩⟩
          rw [List.length_append, List.length_singleton]
          omega
        · rw [hrules _ (by split_ifs <;> simp <;> omega), roomy_resume]

end Sheet

section Body

variable {body : Bytes}
  (hrules : ∀ t : Bytes, t.length ≤ body.length →
    ∀ parent out, (expandNestingRec parent t out).isSome ↔ Roomy false t)
  (hbodies : ∀ t : Bytes, t.length < body.length →
    ∀ resolved decls out, (expandBody resolved t decls out).isSome ↔ Roomy true t)

include hrules hbodies in
/-- A body is expanded when the rules in it are. -/
theorem expandBody_step (resolved decls out : Bytes) :
    (expandBody resolved body decls out).isSome ↔ Roomy true body := by
  rw [roomy_dropSpace]
  rcases exists_head (body.dropWhile isspace) with ⟨head, hbody, hend, hhead⟩ |
    ⟨head, c, rest, hbody, hc, hhead⟩
  · have hno : 123 ∉ body.dropWhile isspace := hbody ▸ notMem_head hhead
    rw [expandBody_end resolved decls out (fun h => hno (List.mem_of_mem_head? h)) hend]
    exact iff_of_true rfl (roomyFrom_of_notMem _ _ hno)
  have hlen := length_drop_head hbody
  rcases hc with rfl | rfl
  · rw [expandBody_semi resolved decls out hhead hbody, hbody, roomy_declaration true hhead]
    exact hbodies rest (by omega) resolved _ out
  obtain ⟨inner, after, hblock⟩ := exists_encloses (123 : UInt8) 125 rest
  rcases eq_or_ne head [] with rfl | hne
  · -- a brace with nothing in front is skipped with its block
    rw [expandBody_skip resolved decls out hbody, hbody, List.nil_append,
      cssSkipBlock_encloses hblock]
    rw [hbodies after (by have := hblock.length_le; omega)]
    cases hblock with
    | closed _ _ hstray heven => exact (roomy_skipped_closed hstray heven after).symm
    | unclosed _ hstray =>
      exact iff_of_true (roomyFrom_nil true _) (roomy_skipped_unclosed hstray)
  have hnamed : (opensRule true 0 || head.any fun c => !isspace c) = true := by
    obtain ⟨c, tail, rfl⟩ := List.exists_cons_of_ne_nil hne
    have hnonblank : body.dropWhile isspace ≠ [] := by
      rw [hbody]
      exact List.cons_ne_nil _ _
    have hc := List.head_dropWhile_not isspace hnonblank
    simp only [hbody, List.cons_append, List.head_cons] at hc
    rw [List.any_cons, hc]
    rfl
  rw [expandBody_rule resolved decls out hhead hbody hne, cssSkipBlock_encloses hblock,
    isSome_bind_iff fun a => hbodies after (by have := hblock.length_le; omega) resolved decls a,
    hbody, roomy_rule hhead hnamed]
  cases hblock with
  | closed inner _ hstray heven =>
    have hone : 1 ≤ (inner ++ [125]).length := by simp
    have hroomy : Roomy false (head ++ 123 :: (inner ++ [125])) :=
      (roomy_rule hhead rfl _).2
        ⟨hone, (roomyFrom_closed hstray heven false []).2 (roomyFrom_nil false _)⟩
    rw [List.length_append, List.length_cons] at hlen
    rw [take_rule, hrules _ (by simp; omega), roomyFrom_closed hstray heven]
    exact and_congr_left fun _ => iff_of_true hroomy (by simp; omega)
  | unclosed _ hstray =>
    rw [List.length_nil, Nat.sub_zero, List.take_length,
      hrules _ (by rw [List.length_append, List.length_cons]; omega), roomy_rule hhead rfl,
      roomyFrom_unclosed_congr hstray]
    exact and_iff_left (roomyFrom_nil true _)

end Body

/-- Rules and bodies of every length: each is expanded when it leaves room. -/
theorem expand_isSome (n : Nat) :
    (∀ t : Bytes, t.length ≤ n →
      ∀ parent out, (expandNestingRec parent t out).isSome ↔ Roomy false t) ∧
    ∀ t : Bytes, t.length ≤ n →
      ∀ resolved decls out, (expandBody resolved t decls out).isSome ↔ Roomy true t := by
  induction n using Nat.strongRecOn with
  | ind n ih =>
    have hrules : ∀ t : Bytes, t.length ≤ n →
        ∀ parent out, (expandNestingRec parent t out).isSome ↔ Roomy false t :=
      fun t ht => expandNestingRec_step
        (fun s hs => (ih s.length (by omega)).1 s (Nat.le_refl _))
        (fun s hs => (ih s.length (by omega)).2 s (Nat.le_refl _))
    exact ⟨hrules, fun t ht => expandBody_step (fun s hs => hrules s (by omega))
      (fun s hs => (ih s.length (by omega)).2 s (Nat.le_refl _))⟩

/-- The expansion of nested rules stays within the text exactly when every opening brace has
behind it a character for every rule that is open there. -/
theorem cssExpandNesting_isSome (css : Bytes) :
    (cssExpandNesting css).isSome ↔ Roomy false css :=
  (expand_isSome css.length).1 css (Nat.le_refl _) [] []

end TinyFramework.Css
