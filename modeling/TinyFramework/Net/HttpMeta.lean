/-
  Net/HttpMeta.lean --- what `mini_net_parse_response_meta` finds in the head of a well-formed
  response: exactly the length and the chunks that its headers announce.

  A search for a value goes on behind its line, but there is nothing to be found there that the
  line does not say.
-/
import TinyFramework.Net.HttpEntity

set_option autoImplicit false

namespace TinyFramework.Net

open TinyFramework.Foundation

/-! ## One line after the other -/

theorem responseMetaLines_end (m : ResponseMeta) (p : Bytes) : responseMetaLines m p 0 = m := by
  rw [responseMetaLines]
  exact dif_pos rfl

theorem responseMetaLines_line (m : ResponseMeta) {line : Bytes} (hline : 13 ∉ line) (p : Bytes)
    (left : Nat) : responseMetaLines m (line ++ 13 :: 10 :: p) (line.length + 2 + left) =
      responseMetaLines (responseMetaLine m (line ++ 13 :: 10 :: p) line.length) p left := by
  have htake : (line ++ 13 :: 10 :: p).take (line.length + 2 + left) =
      line ++ 13 :: 10 :: p.take left := by
    rw [List.take_append, List.take_of_length_le (by omega),
      show line.length + 2 + left - line.length = left + 1 + 1 by omega]
    rfl
  have hread :
      ((line ++ 13 :: 10 :: p).take (line.length + 2 + left)).takeWhile (· ≠ 13) = line := by
    rw [htake, List.takeWhile_append_of_pos, List.takeWhile_cons_of_neg (by decide),
      List.append_nil]
    intro b hb
    rw [decide_eq_true_eq]
    rintro rfl
    exact hline hb
  have hdrop : (line ++ 13 :: 10 :: p).drop (line.length + 1) = 10 :: p := by
    rw [List.drop_append, List.drop_of_length_le (by omega),
      show line.length + 1 - line.length = 1 by omega]
    rfl
  have hmore : line.length + 2 + left - (line.length + 1) = left + 1 := by omega
  rw [responseMetaLines]
  dsimp only
  rw [hread, hdrop, hmore, dif_neg, if_pos ⟨Nat.succ_pos _, rfl⟩]
  · rfl
  · rw [htake, List.length_append, List.length_cons]
    omega

/-! ## One header -/

theorem isNameByte_colon : isNameByte 58 = false := by decide

theorem length_of_strcasecmp {a b : Bytes} (h : strcasecmp a b = true) : a.length = b.length := by
  have hmap : a.map tolower = b.map tolower := eq_of_beq h
  rw [← List.length_map tolower, hmap, List.length_map]

/-- `HNAME` on the line of a header says whether that has the name. -/
theorem hasName_field (f : HeaderField) (rest : Bytes) {name : Bytes}
    (hname : ∀ b ∈ name, tolower b ≠ 58) :
    hasName (f.line ++ rest) f.line.length name = f.isNamed name := by
  have hline : f.line ++ rest = f.name ++ 58 :: (f.value ++ rest) := by simp [HeaderField.line]
  have hlength : f.line.length = f.name.length + (f.value.length + 1) := by
    simp [HeaderField.line]
  rw [Bool.eq_iff_iff]
  unfold hasName strncasecmp HeaderField.isNamed
  rw [Bool.and_eq_true, Bool.and_eq_true, decide_eq_true_eq, List.take_length, beq_iff_eq, hline]
  constructor
  · rintro ⟨⟨hshort, hsame⟩, hcolon⟩
    have heq : f.name.length = name.length := by
      rcases Nat.lt_trichotomy name.length f.name.length with hlt | heq | hgt
      · -- the colon would stand within the name
        rw [List.getElem?_append_left hlt] at hcolon
        have hbyte := f.name_bytes 58 (List.mem_of_getElem? hcolon)
        rw [isNameByte_colon] at hbyte
        cases hbyte
      · exact heq.symm
      · -- the colon behind the name would stand in the other one
        have hmap : ((f.name ++ 58 :: (f.value ++ rest)).take name.length).map tolower =
            name.map tolower := eq_of_beq hsame
        have hget := congrArg (·[f.name.length]?) hmap
        rw [List.getElem?_map, List.getElem?_take_of_lt hgt,
          List.getElem?_append_right (Nat.le_refl _), Nat.sub_self, List.getElem?_map,
          List.getElem?_eq_getElem hgt] at hget
        have hbyte : tolower 58 = tolower name[f.name.length] := Option.some.inj hget
        exact absurd hbyte.symm (hname _ (List.getElem_mem hgt))
    rw [← heq, List.take_left] at hsame
    exact hsame
  · intro hsame
    have heq := length_of_strcasecmp hsame
    refine ⟨⟨by omega, ?_⟩, ?_⟩
    · rw [← heq, List.take_left]
      exact hsame
    · rw [← heq, List.getElem?_append_right (Nat.le_refl _), Nat.sub_self]
      rfl

/-- What is cut off the ends of a text are blanks. -/
theorem trimBlanks_split (s : Bytes) : ∃ a c, s = a ++ trimBlanks s ++ c ∧
    (∀ b ∈ a, b = 32 ∨ b = 9) ∧ ∀ b ∈ c, b = 32 ∨ b = 9 := by
  have hblank : ∀ {t : Bytes} {b : UInt8}, b ∈ t.takeWhile (fun b => b == 32 || b == 9) →
      b = 32 ∨ b = 9 := by
    intro t b hb
    have htaken := List.mem_takeWhile_imp hb
    simpa using htaken
  refine ⟨s.takeWhile fun b => b == 32 || b == 9,
    ((s.dropWhile fun b => b == 32 || b == 9).reverse.takeWhile fun b => b == 32 || b == 9).reverse,
    ?_, fun b hb => hblank hb, fun b hb => hblank (List.mem_reverse.1 hb)⟩
  unfold trimBlanks
  rw [List.append_assoc, ← List.reverse_append, List.takeWhile_append_dropWhile,
    List.reverse_reverse, List.takeWhile_append_dropWhile]

/-- The number of a header is read up to its end. -/
theorem scanInt_value {f : HeaderField} {n : Nat} (hcounts : f.Counts n) (rest : Bytes) :
    ∃ t, scanInt (cString (f.value ++ 13 :: rest)) = some ((n : Int), t) := by
  obtain ⟨hne, hdigits, hvalue⟩ := hcounts
  obtain ⟨a, c, hsplit, ha, hc⟩ := trimBlanks_split f.value
  have hnoNul : ∀ b ∈ f.value ++ [13], decide (b ≠ 0) = true := by
    intro b hb
    rw [decide_eq_true_eq]
    rcases List.mem_append.1 hb with hb | hb
    · exact (isLineByte_iff.1 (f.value_bytes b hb)).1
    · rw [List.mem_singleton.1 hb]
      decide
  have hstring : cString (f.value ++ 13 :: rest) =
      a ++ (trimBlanks f.value ++ (c ++ 13 :: cString rest)) := by
    have hcut : cString (f.value ++ [13] ++ rest) = f.value ++ [13] ++ cString rest :=
      List.takeWhile_append_of_pos hnoNul
    have hcons : f.value ++ 13 :: rest = f.value ++ [13] ++ rest := by simp
    rw [hcons, hcut]
    nth_rewrite 1 [hsplit]
    simp
  have hspace : ∀ b ∈ a, isspace b = true := by
    intro b hb
    rcases ha b hb with rfl | rfl <;> decide
  have hrest : ∀ b ∈ (c ++ 13 :: cString rest).head?, isDecimal b = false := by
    intro b hb
    cases c with
    | nil =>
      obtain rfl := Option.some.inj hb
      decide
    | cons d c =>
      obtain rfl := Option.some.inj hb
      rcases hc d List.mem_cons_self with rfl | rfl <;> decide
  obtain ⟨d, ds, hds⟩ := List.exists_cons_of_ne_nil hne
  have hd := isDecimal_cases (hdigits d (hds ▸ List.mem_cons_self))
  have hatoi := atoi_digits hne hdigits hrest
  generalize c ++ 13 :: cString rest = z at hstring hatoi
  have hskip : scanSpace (cString (f.value ++ 13 :: rest)) = trimBlanks f.value ++ z := by
    unfold scanSpace
    rw [hstring, List.dropWhile_append_of_pos hspace, hds, List.cons_append,
      List.dropWhile_cons_of_neg (by rw [hd.1]; exact Bool.false_ne_true)]
  have hsign : ¬ ((trimBlanks f.value ++ z).head? = some 45 ∨
      (trimBlanks f.value ++ z).head? = some 43) := by
    rw [hds]
    rintro (h | h)
    · exact hd.2.1 (Option.some.inj h)
    · exact hd.2.2 (Option.some.inj h)
  have hsome : (trimBlanks f.value ++ z).takeWhile isDecimal ≠ [] := by
    rw [hds, List.cons_append,
      List.takeWhile_cons_of_pos (hdigits d (hds ▸ List.mem_cons_self))]
    exact List.cons_ne_nil _ _
  refine ⟨(trimBlanks f.value ++ z).dropWhile isDecimal, ?_⟩
  unfold scanInt
  dsimp only
  rw [hskip, if_neg hsign, if_neg hsome, hatoi, hvalue]

/-- That a header says `chunked` is seen. -/
theorem chunked_value {f : HeaderField} (hchunked : f.saysChunked = true) (rest : Bytes) :
    (strcasestr (ascii "chunked") (cString (f.value ++ rest))).isSome = true := by
  have hstring : cString (f.value ++ rest) = f.value ++ cString rest :=
    List.takeWhile_append_of_pos fun b hb =>
      decide_eq_true (isLineByte_iff.1 (f.value_bytes b hb)).1
  obtain ⟨s, t, hsplit⟩ := trimBlanks_within f.value
  rw [hstring, ← hsplit, List.append_assoc (s ++ trimBlanks f.value)]
  exact strcasestr_isSome (by decide) hchunked

theorem not_both_named {f : HeaderField} (h : f.isNamed (ascii "Content-Length") = true) :
    f.isNamed (ascii "Transfer-Encoding") = false := by
  cases hother : f.isNamed (ascii "Transfer-Encoding") with
  | false => rfl
  | true =>
    have hlengths := (length_of_strcasecmp h).symm.trans (length_of_strcasecmp hother)
    exact absurd hlengths (by decide)

/-- What the line of a header that says the truth adds. -/
theorem responseMetaLine_field (m : ResponseMeta) {f : HeaderField} {n : Nat}
    (hcounts : f.isNamed (ascii "Content-Length") = true → f.Counts n)
    (hchunked : f.isNamed (ascii "Transfer-Encoding") = true → f.saysChunked = true)
    (rest : Bytes) :
    (responseMetaLine m (f.line ++ 13 :: 10 :: rest) f.line.length).cl =
        (if f.isNamed (ascii "Content-Length") then (n : Int) else m.cl) ∧
      (responseMetaLine m (f.line ++ 13 :: 10 :: rest) f.line.length).chunked =
        (m.chunked || f.isNamed (ascii "Transfer-Encoding")) := by
  have hbehind : ∀ k, f.name.length = k → (f.line ++ 13 :: 10 :: rest).drop (k + 1) =
      f.value ++ 13 :: 10 :: rest := by
    rintro k rfl
    have hline :
        f.line ++ 13 :: 10 :: rest = (f.name ++ [58]) ++ (f.value ++ 13 :: 10 :: rest) := by
      simp [HeaderField.line]
    rw [hline, List.drop_left' (by simp)]
  unfold responseMetaLine
  rw [hasName_field f _ (forall_mem_ascii (by decide)),
    hasName_field f _ (forall_mem_ascii (by decide)),
    hasName_field f _ (forall_mem_ascii (by decide))]
  by_cases hlength : f.isNamed (ascii "Content-Length") = true
  · obtain ⟨t, hscan⟩ := scanInt_value (hcounts hlength) (10 :: rest)
    rw [if_pos hlength, if_pos hlength, hbehind 14 (length_of_strcasecmp hlength), hscan,
      not_both_named hlength]
    exact ⟨rfl, (Bool.or_false _).symm⟩
  · rw [if_neg hlength, if_neg hlength]
    by_cases hcoding : f.isNamed (ascii "Transfer-Encoding") = true
    · rw [if_pos hcoding, hbehind 17 (length_of_strcasecmp hcoding),
        chunked_value (hchunked hcoding), hcoding]
      exact ⟨rfl, (Bool.or_true _).symm⟩
    · rw [if_neg hcoding, Bool.eq_false_iff.2 hcoding, Bool.or_false]
      split_ifs <;> exact ⟨rfl, rfl⟩

/-! ## The whole head -/

/-- What the lines of the headers add, one after the other. -/
theorem responseMetaLines_fields (fields : List HeaderField) (m : ResponseMeta) {n : Nat}
    (hcounts : ∀ f ∈ fields, f.isNamed (ascii "Content-Length") = true → f.Counts n)
    (hchunked : ∀ f ∈ fields, f.isNamed (ascii "Transfer-Encoding") = true →
      f.saysChunked = true) (rest : Bytes) :
    let got := responseMetaLines m
      (fields.flatMap (fun f => f.line ++ [13, 10]) ++ 13 :: 10 :: rest)
      ((fields.flatMap fun f => f.line ++ [13, 10]).length + 2)
    got.cl = (if fields.any fun f => f.isNamed (ascii "Content-Length") then (n : Int) else m.cl) ∧
      got.chunked = (m.chunked || fields.any fun f => f.isNamed (ascii "Transfer-Encoding")) := by
  induction fields generalizing m with
  | nil =>
    have hlast := responseMetaLines_line m (List.not_mem_nil : (13 : UInt8) ∉ []) rest 0
    rw [responseMetaLines_end] at hlast
    dsimp only
    rw [List.flatMap_nil, List.nil_append, List.length_nil]
    rw [List.nil_append, List.length_nil] at hlast
    rw [hlast]
    exact ⟨rfl, (Bool.or_false _).symm⟩
  | cons f fields ih =>
    have hline : 13 ∉ f.line := fun h => (isLineByte_iff.1 (f.line_bytes 13 h)).2.1 rfl
    have hrest := ih (responseMetaLine m (f.line ++ 13 :: 10 ::
      (fields.flatMap (fun f => f.line ++ [13, 10]) ++ 13 :: 10 :: rest)) f.line.length)
      (fun g hg => hcounts g (List.mem_cons_of_mem f hg))
      (fun g hg => hchunked g (List.mem_cons_of_mem f hg))
    obtain ⟨hcl, hch⟩ := responseMetaLine_field m (hcounts f List.mem_cons_self)
      (hchunked f List.mem_cons_self)
      (fields.flatMap (fun f => f.line ++ [13, 10]) ++ 13 :: 10 :: rest)
    have htext : (f :: fields).flatMap (fun f => f.line ++ [13, 10]) ++ 13 :: 10 :: rest =
        f.line ++ 13 :: 10 ::
          (fields.flatMap (fun f => f.line ++ [13, 10]) ++ 13 :: 10 :: rest) := by
      simp
    have hlength : ((f :: fields).flatMap fun f => f.line ++ [13, 10]).length + 2 =
        f.line.length + 2 + ((fields.flatMap fun f => f.line ++ [13, 10]).length + 2) := by
      simp only [List.flatMap_cons, List.length_append, List.length_cons, List.length_nil]
      omega
    dsimp only at hrest ⊢
    rw [htext, hlength, responseMetaLines_line m hline, hrest.1, hrest.2, hcl, hch, List.any_cons,
      List.any_cons, Bool.or_assoc]
    refine ⟨?_, rfl⟩
    cases f.isNamed (ascii "Content-Length") with
    | true => exact ite_self _
    | false => rfl

/-- A status line has no name that is asked for. -/
theorem hasName_version (p : Bytes) (llen : Nat) {name : Bytes} {c : UInt8}
    (hc : name.head? = some c) (hother : tolower c ≠ 104) :
    hasName (72 :: p) llen name = false := by
  cases name with
  | nil => cases hc
  | cons d name =>
    obtain rfl := Option.some.inj hc
    unfold hasName strncasecmp
    rw [Bool.and_eq_false_iff, Bool.and_eq_false_iff]
    refine Or.inl (Or.inr (beq_eq_false_iff_ne.2 fun hsame => hother ?_))
    rw [List.take_length, List.length_cons, List.take_succ_cons, List.map_cons,
      List.map_cons] at hsame
    exact (List.cons.inj hsame).1.symm

theorem responseMetaLine_version (m : ResponseMeta) (p : Bytes) (llen : Nat) :
    responseMetaLine m (72 :: p) llen = m := by
  unfold responseMetaLine
  rw [hasName_version p llen rfl (by decide), hasName_version p llen rfl (by decide),
    hasName_version p llen rfl (by decide)]
  rfl

namespace HttpResponse

/-- The head with the line break behind each of its lines. -/
theorem head_lines (r : HttpResponse) (rest : Bytes) : r.head ++ ascii "\r\n\r\n" ++ rest =
    r.statusLine ++ 13 :: 10 ::
      (r.fields.flatMap (fun f => f.line ++ [13, 10]) ++ 13 :: 10 :: rest) := by
  have hmove : ∀ fields : List HeaderField,
      (fields.flatMap fun f => 13 :: 10 :: f.line) ++ [13, 10] =
        13 :: 10 :: fields.flatMap fun f => f.line ++ [13, 10] := by
    intro fields
    induction fields with
    | nil => rfl
    | cons f fields ih =>
      rw [List.flatMap_cons, List.append_assoc, ih]
      simp
  have hsplit : r.head ++ ascii "\r\n\r\n" ++ rest = r.statusLine ++
      ((r.fields.flatMap fun f => 13 :: 10 :: f.line) ++ [13, 10]) ++ 13 :: 10 :: rest := by
    simp [head, ascii]
  rw [hsplit, hmove]
  simp

theorem length_head_lines (r : HttpResponse) : r.head.length + 4 =
    r.statusLine.length + 2 + ((r.fields.flatMap fun f => f.line ++ [13, 10]).length + 2) := by
  have hlines := congrArg List.length (r.head_lines [])
  simp only [List.length_append, List.length_cons, List.length_nil, ascii,
    List.length_map] at hlines
  have hblank : "\r\n\r\n".toList.length = 4 := by decide
  omega

/-- The length that is read off the head. -/
def announcedLength (r : HttpResponse) : Int :=
  match r.body with
  | .counted entity => entity.length
  | .chunked _ => -1
  | .untilClose _ => -1

/-- Whether chunks are read off the head. -/
def announcesChunks (r : HttpResponse) : Bool :=
  match r.body with
  | .counted _ => false
  | .chunked _ => true
  | .untilClose _ => false

theorem any_of_filter {fields : List HeaderField} {name : Bytes} :
    (fields.filter fun f => f.isNamed name) = [] ↔
      (fields.any fun f => f.isNamed name) = false := by
  simp [List.filter_eq_nil_iff]

/-- What is read off the head is what its headers announce. -/
theorem parseMeta_head (r : HttpResponse) (rest : Bytes) :
    (miniNetParseResponseMeta (r.head ++ ascii "\r\n\r\n" ++ rest) (r.head.length + 4)).cl =
        r.announcedLength ∧
      (miniNetParseResponseMeta (r.head ++ ascii "\r\n\r\n" ++ rest) (r.head.length + 4)).chunked =
        r.announcesChunks := by
  have hstatus : 13 ∉ r.statusLine := fun h => (isLineByte_iff.1 (r.statusLine_bytes 13 h)).2.1 rfl
  have hversion : ∀ tail : Bytes, ∃ p, r.statusLine ++ tail = 72 :: p := by
    intro tail
    rw [r.statusLine_eq]
    exact ⟨_, rfl⟩
  have hframed := r.framed
  unfold miniNetParseResponseMeta
  rw [r.head_lines, r.length_head_lines, responseMetaLines_line _ hstatus]
  obtain ⟨p, hp⟩ := hversion (13 :: 10 ::
    (r.fields.flatMap (fun f => f.line ++ [13, 10]) ++ 13 :: 10 :: rest))
  rw [hp, responseMetaLine_version]
  have hnever : ∀ {name : Bytes} {P : HeaderField → Prop},
      (r.fields.filter fun f => f.isNamed name) = [] →
      ∀ f ∈ r.fields, f.isNamed name = true → P f := by
    intro name P hnone f hf hnamed
    exact absurd hnamed ((List.filter_eq_nil_iff.1 hnone) f hf)
  have hof : ∀ {name : Bytes} {P : HeaderField → Prop},
      (∀ f ∈ r.fields.filter fun f => f.isNamed name, P f) →
      ∀ f ∈ r.fields, f.isNamed name = true → P f := by
    intro name P hall f hf hnamed
    exact hall f (List.mem_filter.2 ⟨hf, hnamed⟩)
  unfold announcedLength announcesChunks
  cases hkind : r.body with
  | counted e =>
    rw [hkind] at hframed
    obtain ⟨hsome, hcounts, hnone⟩ := hframed
    have hread := responseMetaLines_fields r.fields {} (hof hcounts) (hnever hnone) rest
    rw [any_of_filter.1 hnone, Bool.eq_true_of_not_eq_false (mt any_of_filter.2 hsome)] at hread
    exact hread
  | chunked b =>
    rw [hkind] at hframed
    obtain ⟨hnone, hsome, hchunked⟩ := hframed
    have hread := responseMetaLines_fields r.fields {} (n := 0) (hnever hnone) (hof hchunked) rest
    rw [any_of_filter.1 hnone, Bool.eq_true_of_not_eq_false (mt any_of_filter.2 hsome)] at hread
    exact hread
  | untilClose e =>
    rw [hkind] at hframed
    obtain ⟨hlengths, hcodings⟩ := hframed
    have hread :=
      responseMetaLines_fields r.fields {} (n := 0) (hnever hlengths) (hnever hcodings) rest
    rw [any_of_filter.1 hlengths, any_of_filter.1 hcodings] at hread
    exact hread

end HttpResponse

end TinyFramework.Net
