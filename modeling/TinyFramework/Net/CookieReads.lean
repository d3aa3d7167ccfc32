/-
  Net/CookieReads.lean --- which bytes of its text `parse_cookie` reads.

  A pointer into the text is a position in it, and the terminating NUL stands behind the last
  byte.  The length of a value is computed from that of the name, which may have been cut.
-/
import TinyFramework.Foundation.Tokens
import TinyFramework.Net.CookieParse

set_option autoImplicit false

namespace TinyFramework.Net

open TinyFramework.Foundation

/-- Bytes that are read one behind the other. -/
structure TextRead where
  start : Nat
  count : Nat
  deriving DecidableEq, Repr

/-- Nothing behind the terminator is read. -/
def TextRead.Inside (r : TextRead) (str : Bytes) : Prop := r.start + r.count ≤ str.length + 1

instance (r : TextRead) (str : Bytes) : Decidable (r.Inside str) :=
  inferInstanceAs (Decidable (_ ≤ _))

/-! ## One attribute -/

/-- One turn of the loop of `parse_cookie`. -/
structure AttributeTurn where
  rest : Nat
  /-- `a` -/
  start : Nat
  /-- `alen` -/
  length : Nat
  /-- `aeq - a`, or `alen` without an equals sign -/
  equals : Nat
  deriving DecidableEq, Repr

namespace AttributeTurn

variable (t : AttributeTurn)

/-- `anlen` -/
def nameCount : Nat := min t.equals 31

/-- `aeq + 1` -/
def valueStart : Nat := t.start + t.equals + 1

/-- `avlen` -/
def valueCount : Nat :=
  if t.equals < t.length then min (t.length - t.nameCount - 1) 127 else 0

/-- What a turn reads: the tests of the two loops, `strchr` (and `strlen`, which reads the same),
`memchr`, and what is copied to `aname` and `aval`. -/
def reads : List TextRead :=
  [⟨t.rest, 1⟩, ⟨t.rest, t.start - t.rest + 1⟩, ⟨t.start, t.length + 1⟩,
    ⟨t.start, min (t.equals + 1) t.length⟩, ⟨t.start, t.nameCount⟩] ++
      if t.equals < t.length then [⟨t.valueStart, t.valueCount⟩] else []

/-- The value is taken from the text of the attribute. -/
def OwnValue : Prop :=
  t.equals < t.length → t.valueStart + t.valueCount ≤ t.start + t.length

instance : Decidable t.OwnValue := inferInstanceAs (Decidable (_ → _))

/-- Where the loop goes on. -/
def next (str : Bytes) : Nat := min (t.start + t.length + 1) str.length

end AttributeTurn

/-- The turn of the loop at a position. -/
def attributeTurn (str : Bytes) (rest : Nat) : AttributeTurn :=
  let s := str.drop rest
  let text := (skipToAttribute s).takeWhile (· ≠ 59)
  { rest := rest, start := rest + (s.takeWhile fun b => b == 59 || isspace b).length
    length := text.length, equals := (text.takeWhile (· ≠ 61)).length }

theorem drop_start (str : Bytes) (rest : Nat) :
    str.drop (attributeTurn str rest).start = skipToAttribute (str.drop rest) := by
  have hsplit := List.takeWhile_append_dropWhile (p := fun b => b == 59 || isspace b)
    (l := str.drop rest)
  show str.drop (rest + _) = _
  rw [← List.drop_drop]
  exact (congrArg (List.drop _) hsplit).symm.trans List.drop_left

/-- An attribute lies in the text. -/
structure AttributeTurn.Placed (t : AttributeTurn) (str : Bytes) : Prop where
  rest_le : t.rest ≤ t.start
  end_le : t.start + t.length ≤ str.length
  equals_le : t.equals ≤ t.length

theorem attributeTurn_placed (str : Bytes) {rest : Nat} (h : rest ≤ str.length) :
    (attributeTurn str rest).Placed str := by
  have hskip : (attributeTurn str rest).start ≤ str.length := by
    have hle := (List.takeWhile_sublist (fun b => b == 59 || isspace b)
      (l := str.drop rest)).length_le
    rw [List.length_drop] at hle
    show rest + _ ≤ _
    omega
  refine ⟨Nat.le_add_right _ _, ?_, (List.takeWhile_sublist _).length_le⟩
  have htext : (attributeTurn str rest).length ≤
      (str.drop (attributeTurn str rest).start).length := by
    rw [drop_start]
    exact (List.takeWhile_sublist _).length_le
  rw [List.length_drop] at htext
  omega

theorem lt_next {str : Bytes} {rest : Nat} (h : rest < str.length) :
    rest < (attributeTurn str rest).next str := by
  have hstart : rest ≤ (attributeTurn str rest).start :=
    (attributeTurn_placed str (Nat.le_of_lt h)).rest_le
  unfold AttributeTurn.next
  omega

/-- The loop of `parse_cookie`. -/
def attributeTurns (str : Bytes) (rest : Nat) : List AttributeTurn :=
  if _hrest : rest < str.length then
    attributeTurn str rest :: attributeTurns str ((attributeTurn str rest).next str)
  else []
termination_by str.length - rest
decreasing_by
  have hnext := lt_next _hrest
  omega

/-! ## The whole text -/

/-- What is read of the first pair; its bytes are copied if it is taken. -/
def pairReads (str : Bytes) : List TextRead :=
  let nvlen := (str.takeWhile (· ≠ 59)).length
  let nlen := ((str.takeWhile (· ≠ 59)).takeWhile (· ≠ 61)).length
  [⟨0, nvlen + 1⟩, ⟨0, min (nlen + 1) nvlen⟩] ++
    if (readPair str).isSome then [⟨0, nlen⟩, ⟨nlen + 1, nvlen - nlen - 1⟩] else []

/-- The turns of the loop, if it is reached. -/
def parseCookieTurns (str : Bytes) : List AttributeTurn :=
  if (readPair str).isSome then
    attributeTurns str (min ((str.takeWhile (· ≠ 59)).length + 1) str.length)
  else []

/-- All that `parse_cookie` reads of its text; the last read is the test that ends the loop. -/
def parseCookieReads (str : Bytes) : List TextRead :=
  pairReads str ++ (parseCookieTurns str).flatMap AttributeTurn.reads ++ [⟨str.length, 1⟩]

/-- An attribute, its name up to an equals sign: if the name is cut, the value has so many bytes
that it is cut, too. -/
def SafeAttribute (text : Bytes) : Prop :=
  61 ∈ text → (text.takeWhile (· ≠ 61)).length ≤ 31 ∨
    127 ≤ text.length - (text.takeWhile (· ≠ 61)).length - 1

/-- The attributes of a text that gives a cookie: what stands between semicolons behind the first
one, without the white space in front. -/
def attributePieces (str : Bytes) : List Bytes :=
  if (readPair str).isSome then
    ((attributeText str).splitOn 59).map (List.dropWhile isspace)
  else []

/-! ## The loop reads what the parser does -/

theorem drop_next (str : Bytes) (rest : Nat) :
    str.drop ((attributeTurn str rest).next str) = pastAttribute (skipToAttribute (str.drop rest)) := by
  rw [pastAttribute, ← drop_start, List.drop_drop, AttributeTurn.next]
  rcases Nat.le_total ((attributeTurn str rest).start + (attributeTurn str rest).length + 1)
    str.length with hle | hle
  · rw [Nat.min_eq_left hle]
    rw [drop_start, ← Nat.add_assoc]
    rfl
  · rw [Nat.min_eq_right hle, List.drop_length, drop_start]
    exact (List.drop_eq_nil_of_le hle).symm

/-- A turn copies the name and the value of its attribute. -/
theorem readAttribute_turn (str : Bytes) (rest : Nat) :
    readAttribute (str.drop (attributeTurn str rest).start) =
      ((str.drop (attributeTurn str rest).start).take (attributeTurn str rest).nameCount,
        (str.drop (attributeTurn str rest).valueStart).take (attributeTurn str rest).valueCount) := by
  have hlength : ((str.drop (attributeTurn str rest).start).takeWhile (· ≠ 59)).length =
      (attributeTurn str rest).length := by rw [drop_start]; rfl
  have hequals : (((str.drop (attributeTurn str rest).start).takeWhile (· ≠ 59)).takeWhile
      (· ≠ 61)).length = (attributeTurn str rest).equals := by rw [drop_start]; rfl
  unfold readAttribute
  dsimp only
  rw [hlength, hequals, AttributeTurn.valueCount, AttributeTurn.valueStart]
  split_ifs
  · rw [List.drop_drop, Nat.add_assoc]
    rfl
  · rw [List.take_zero]
    rfl

theorem attributes_turns (str : Bytes) (rest : Nat) :
    (attributeTurns str rest).map (fun t =>
        ((str.drop t.start).take t.nameCount, (str.drop t.valueStart).take t.valueCount)) =
      attributes (str.drop rest) := by
  induction rest using attributeTurns.induct str with
  | case1 rest h ih =>
    have hne : str.drop rest ≠ [] := by
      rw [Ne, List.drop_eq_nil_iff]
      omega
    conv_rhs => rw [attributes, dif_neg hne]
    rw [attributeTurns, dif_pos h, List.map_cons, ih, drop_next, ← readAttribute_turn, drop_start]
  | case2 rest h =>
    rw [attributeTurns, dif_neg h, List.drop_eq_nil_of_le (Nat.not_lt.1 h), attributes, dif_pos rfl]
    rfl

theorem drop_pair (str : Bytes) :
    str.drop (min ((str.takeWhile (· ≠ 59)).length + 1) str.length) = attributeText str := by
  rw [attributeText, pastAttribute]
  rcases Nat.le_total ((str.takeWhile (· ≠ 59)).length + 1) str.length with hle | hle
  · rw [Nat.min_eq_left hle]
  · rw [Nat.min_eq_right hle, List.drop_length, List.drop_eq_nil_of_le hle]

/-- The cookie is made of what the turns copy. -/
theorem draftCookie_turns (str : Bytes) :
    draftCookie str = (readPair str).map fun pair =>
      ((parseCookieTurns str).map fun t =>
        ((str.drop t.start).take t.nameCount, (str.drop t.valueStart).take t.valueCount)).foldl
          (fun out a => out.set a.1 a.2) { name := pair.1, value := pair.2 } := by
  unfold draftCookie parseCookieTurns
  cases readPair str with
  | none => rfl
  | some pair =>
    rw [Option.isSome_some, if_pos rfl, attributes_turns, drop_pair]

/-! ## The attributes of a text -/

/-- The texts of the attributes, one for each turn. -/
def attributeTexts (rest : Bytes) : List Bytes :=
  if _hrest : rest = [] then []
  else
    (skipToAttribute rest).takeWhile (· ≠ 59) ::
      attributeTexts (pastAttribute (skipToAttribute rest))
termination_by rest.length
decreasing_by
  have hskip := length_skipToAttribute rest
  have hpos : 0 < rest.length := List.length_pos_iff.2 _hrest
  rw [pastAttribute, List.length_drop]
  omega

theorem attributeTexts_of_ne_nil {s : Bytes} (h : s ≠ []) :
    attributeTexts s = (skipToAttribute s).takeWhile (· ≠ 59) ::
      attributeTexts (pastAttribute (skipToAttribute s)) := by
  conv_lhs => rw [attributeTexts, dif_neg h]

theorem attributeTexts_turns (str : Bytes) (rest : Nat) :
    (attributeTurns str rest).map (fun t => (str.drop t.start).take t.length) =
      attributeTexts (str.drop rest) := by
  induction rest using attributeTurns.induct str with
  | case1 rest h ih =>
    have hne : str.drop rest ≠ [] := by
      rw [Ne, List.drop_eq_nil_iff]
      omega
    have htext : (skipToAttribute (str.drop rest)).take (attributeTurn str rest).length =
        (skipToAttribute (str.drop rest)).takeWhile (· ≠ 59) :=
      (List.prefix_iff_eq_take.1 (List.takeWhile_prefix _)).symm
    rw [attributeTurns, dif_pos h, List.map_cons, ih, drop_next, attributeTexts_of_ne_nil hne,
      drop_start, htext]
  | case2 rest h =>
    rw [attributeTurns, dif_neg h, List.drop_eq_nil_of_le (Nat.not_lt.1 h), attributeTexts,
      dif_pos rfl]
    rfl

/-- Without a semicolon, white space is skipped. -/
theorem skipToAttribute_piece {s : Bytes} (h : 59 ∉ s) :
    skipToAttribute s = s.dropWhile isspace := by
  induction s with
  | nil => rfl
  | cons b s ih =>
    rw [List.mem_cons, not_or] at h
    have hb : (b == 59) = false := beq_eq_false_iff_ne.2 fun heq => h.1 heq.symm
    rw [skipToAttribute, List.dropWhile_cons, List.dropWhile_cons, hb, Bool.false_or]
    split_ifs
    · exact ih h.2
    · rfl

theorem skipToAttribute_blank {s : Bytes} (h : 59 ∉ s) (hblank : s.dropWhile isspace = [])
    (t : Bytes) : skipToAttribute (s ++ 59 :: t) = skipToAttribute t := by
  rw [← skipToAttribute_piece h] at hblank
  rw [skipToAttribute, List.dropWhile_append, ← skipToAttribute, hblank, List.isEmpty_nil, if_pos rfl]
  exact List.dropWhile_cons_of_pos (by simp)

theorem skipToAttribute_filled {s : Bytes} (h : 59 ∉ s) (hfilled : s.dropWhile isspace ≠ [])
    (t : Bytes) : skipToAttribute (s ++ 59 :: t) = s.dropWhile isspace ++ 59 :: t := by
  rw [← skipToAttribute_piece h] at hfilled ⊢
  rw [skipToAttribute, List.dropWhile_append, ← skipToAttribute, if_neg]
  rwa [List.isEmpty_iff]

theorem takeWhile_piece {s : Bytes} (h : 59 ∉ s) : s.takeWhile (· ≠ 59) = s := by
  rw [List.takeWhile_eq_self_iff]
  intro b hb
  rw [decide_eq_true_eq]
  rintro rfl
  exact h hb

/-- The turns of the loop are at what stands between semicolons. -/
theorem forall_attributeTexts_iff {P : Bytes → Prop} (hnil : P []) (s : Bytes) :
    (∀ t ∈ attributeTexts s, P t) ↔ ∀ piece ∈ s.splitOn 59, P (piece.dropWhile isspace) := by
  induction hn : s.length using Nat.strongRecOn generalizing s with
  | _ n ih =>
    subst hn
    by_cases hsemi : 59 ∈ s
    · obtain ⟨piece, t, rfl, hpiece⟩ := List.eq_append_cons_of_mem hsemi
      have hne : piece ++ 59 :: t ≠ [] := by simp
      have ht := ih t.length (by rw [List.length_append, List.length_cons]; omega) t rfl
      rw [List.splitOn_append_cons_self_of_not_mem hpiece, List.forall_mem_cons]
      by_cases hblank : piece.dropWhile isspace = []
      · rw [hblank, and_iff_right hnil, ← ht, attributeTexts_of_ne_nil hne,
          skipToAttribute_blank hpiece hblank]
        by_cases hend : t = []
        · subst hend
          simpa [skipToAttribute, pastAttribute, attributeTexts] using hnil
        · rw [attributeTexts_of_ne_nil hend]
      · have hown : 59 ∉ piece.dropWhile isspace := fun hmem =>
          hpiece ((List.dropWhile_sublist isspace).subset hmem)
        have htext : (piece.dropWhile isspace ++ 59 :: t).takeWhile (· ≠ 59) =
            piece.dropWhile isspace := by
          rw [List.takeWhile_append_of_pos (by simpa using fun b hb => ne_of_mem_of_not_mem hb hown)]
          simp
        rw [attributeTexts_of_ne_nil hne, skipToAttribute_filled hpiece hblank, List.forall_mem_cons,
          pastAttribute, htext, List.drop_append]
        simp only [Nat.add_sub_cancel_left, List.drop_succ_cons, List.drop_zero,
          List.drop_eq_nil_of_le (Nat.le_succ _), List.nil_append]
        exact and_congr_right fun _ => ht
    · rw [List.splitOn_eq_singleton hsemi, List.forall_mem_singleton]
      by_cases hend : s = []
      · subst hend
        simpa [attributeTexts] using hnil
      · have hown : 59 ∉ s.dropWhile isspace := fun hmem =>
          hsemi ((List.dropWhile_sublist isspace).subset hmem)
        rw [attributeTexts_of_ne_nil hend, skipToAttribute_piece hsemi, takeWhile_piece hown,
          List.forall_mem_cons, pastAttribute, takeWhile_piece hown,
          List.drop_eq_nil_of_le (Nat.le_succ _), attributeTexts, dif_pos rfl]
        simp

/-! ## What is read lies in the text -/

theorem mem_iff_takeWhile_lt {c : UInt8} {s : Bytes} :
    c ∈ s ↔ (s.takeWhile (· ≠ c)).length < s.length := by
  induction s with
  | nil => simp
  | cons b s ih =>
    by_cases hb : b = c
    · simp [hb]
    · have hne : ¬ c = b := fun h => hb h.symm
      simp [hb, hne, ih]

/-- A value is an attribute's own unless its name was cut and it itself was not. -/
theorem ownValue_iff (str : Bytes) (rest : Nat) :
    (attributeTurn str rest).OwnValue ↔
      SafeAttribute ((str.drop (attributeTurn str rest).start).take
        (attributeTurn str rest).length) := by
  have htext : (str.drop (attributeTurn str rest).start).take (attributeTurn str rest).length =
      (skipToAttribute (str.drop rest)).takeWhile (· ≠ 59) := by
    rw [drop_start]
    exact (List.prefix_iff_eq_take.1 (List.takeWhile_prefix _)).symm
  have hequals : (((skipToAttribute (str.drop rest)).takeWhile (· ≠ 59)).takeWhile
      (· ≠ 61)).length = (attributeTurn str rest).equals := rfl
  have hlength : ((skipToAttribute (str.drop rest)).takeWhile (· ≠ 59)).length =
      (attributeTurn str rest).length := rfl
  rw [htext, SafeAttribute, hequals, hlength]
  have hmem : 61 ∈ (skipToAttribute (str.drop rest)).takeWhile (· ≠ 59) ↔
      (attributeTurn str rest).equals < (attributeTurn str rest).length := by
    rw [← hequals, ← hlength]
    exact mem_iff_takeWhile_lt
  rw [hmem, AttributeTurn.OwnValue, AttributeTurn.valueCount, AttributeTurn.valueStart,
    AttributeTurn.nameCount]
  refine imp_congr_right fun hlt => ?_
  rw [if_pos hlt]
  omega

theorem AttributeTurn.Placed.reads_inside {t : AttributeTurn} {str : Bytes} (h : t.Placed str)
    (hown : t.OwnValue) : ∀ r ∈ t.reads, r.Inside str := by
  obtain ⟨hrest, hend, hequals⟩ := h
  intro r hr
  unfold AttributeTurn.reads at hr
  rcases List.mem_append.1 hr with hr | hr
  · simp only [List.mem_cons, List.not_mem_nil, or_false] at hr
    unfold AttributeTurn.nameCount at hr
    rcases hr with rfl | rfl | rfl | rfl | rfl <;> simp only [TextRead.Inside] <;> omega
  · split_ifs at hr with hlt
    · rw [List.mem_singleton.1 hr]
      have hvalue := hown hlt
      simp only [TextRead.Inside]
      omega
    · cases hr

theorem placed_of_mem_turns {str : Bytes} {rest : Nat} {t : AttributeTurn}
    (h : t ∈ attributeTurns str rest) : ∃ r, t = attributeTurn str r ∧ t.Placed str := by
  induction rest using attributeTurns.induct str with
  | case1 rest hrest ih =>
    rw [attributeTurns, dif_pos hrest] at h
    rcases List.mem_cons.1 h with rfl | h
    · exact ⟨rest, rfl, attributeTurn_placed str (Nat.le_of_lt hrest)⟩
    · exact ih h
  | case2 rest hrest =>
    rw [attributeTurns, dif_neg hrest] at h
    cases h

theorem pairReads_inside (str : Bytes) : ∀ r ∈ pairReads str, r.Inside str := by
  have hpair := (List.takeWhile_sublist (· ≠ (59 : UInt8)) (l := str)).length_le
  have hname := (List.takeWhile_sublist (· ≠ (61 : UInt8))
    (l := str.takeWhile (· ≠ 59))).length_le
  intro r hr
  unfold pairReads at hr
  dsimp only at hr
  rcases List.mem_append.1 hr with hr | hr
  · simp only [List.mem_cons, List.not_mem_nil, or_false] at hr
    rcases hr with rfl | rfl <;> simp only [TextRead.Inside] <;> omega
  · split_ifs at hr
    · simp only [List.mem_cons, List.not_mem_nil, or_false] at hr
      rcases hr with rfl | rfl <;> simp only [TextRead.Inside] <;> omega
    · cases hr

/-- No turn of the loop stays where it is. -/
theorem length_attributeTurns (str : Bytes) (rest : Nat) :
    (attributeTurns str rest).length ≤ str.length - rest := by
  induction rest using attributeTurns.induct str with
  | case1 rest h ih =>
    have hnext := lt_next h
    rw [attributeTurns, dif_pos h, List.length_cons]
    omega
  | case2 rest h =>
    rw [attributeTurns, dif_neg h]
    exact Nat.zero_le _

/-! ## The theorem -/

/-- No read goes past the terminator, and every value is its attribute's own. -/
def ReadsOwnText (str : Bytes) : Prop :=
  (∀ r ∈ parseCookieReads str, r.Inside str) ∧ ∀ t ∈ parseCookieTurns str, t.OwnValue

theorem ownValues_iff (str : Bytes) :
    (∀ t ∈ parseCookieTurns str, t.OwnValue) ↔ ∀ text ∈ attributePieces str, SafeAttribute text := by
  unfold parseCookieTurns attributePieces
  split_ifs with hpair
  · have hnil : SafeAttribute [] := nofun
    rw [List.forall_mem_map, ← forall_attributeTexts_iff hnil, ← drop_pair, ← attributeTexts_turns,
      List.forall_mem_map]
    refine forall₂_congr fun t ht => ?_
    obtain ⟨r, rfl, -⟩ := placed_of_mem_turns ht
    exact ownValue_iff str r
  · exact iff_of_true nofun nofun

/-- Whatever the text is, the loop ends.  The parser reads nothing but the text, and for a value
nothing but that of the attribute, exactly if no attribute has a name of more than 31 bytes and a
value of less than 127. -/
theorem parseCookie_reads_iff (str : Bytes) :
    (parseCookieTurns str).length ≤ str.length ∧
      (ReadsOwnText str ↔ ∀ text ∈ attributePieces str, SafeAttribute text) := by
  constructor
  · unfold parseCookieTurns
    split_ifs
    · exact Nat.le_trans (length_attributeTurns str _) (Nat.sub_le _ _)
    · exact Nat.zero_le _
  · rw [← ownValues_iff]
    refine ⟨And.right, fun hown => ⟨fun r hr => ?_, hown⟩⟩
    unfold parseCookieReads at hr
    rcases List.mem_append.1 hr with hr | hr
    · rcases List.mem_append.1 hr with hr | hr
      · exact pairReads_inside str r hr
      · obtain ⟨t, ht, hr⟩ := List.mem_flatMap.1 hr
        have hplaced : t.Placed str := by
          unfold parseCookieTurns at ht
          split_ifs at ht
          · obtain ⟨-, -, hplaced⟩ := placed_of_mem_turns ht
            exact hplaced
          · cases ht
        exact hplaced.reads_inside (hown t ht) r hr
    · rw [List.mem_singleton.1 hr]
      exact Nat.le_refl _

/-- A name of 40 bytes without a value: nine bytes are read, of which the text has one. -/
theorem long_name_reads_past : ¬ ReadsOwnText (ascii "a=b; " ++ List.replicate 40 120 ++ [61]) := by
  rintro ⟨hreads, -⟩
  have hread : ⟨46, 9⟩ ∈ parseCookieReads (ascii "a=b; " ++ List.replicate 40 120 ++ [61]) := by
    decide +kernel
  exact absurd (hreads _ hread) (by decide +kernel)

end TinyFramework.Net
