/-
  Html5/RcdataText.lean --- the text of `title` and `textarea`.

  The `TS_RCDATA` branch of `tokenize_run` decodes the contents of the element
  into a buffer of 1024 bytes.  Behind a decoded reference the level is not
  tested, and a literal `&` is stored whatever the level is.
-/
import TinyFramework.Foundation.Staging
import TinyFramework.Html5.CharRefs
import TinyFramework.Html5.Markup
import TinyFramework.Html5.ParseRun

set_option autoImplicit false

namespace TinyFramework.Html5

open TinyFramework.Foundation TinyFramework.Foundation.Staging TinyFramework.Dom

/-! ## The contents as references and bytes -/

/-- The contents read from the left: a reference wherever `h5_decode_ref` finds
one, a single byte everywhere else.  Only `&` is stored unguarded. -/
def rcdataPieces (s : Bytes) : List (Piece UInt8) :=
  match s with
  | [] => []
  | c :: rest =>
      match h : h5DecodeRef (c :: rest) with
      | some (o, u) =>
          have : 0 < u := h5DecodeRef_pos h
          .block o :: rcdataPieces ((c :: rest).drop u)
      | none => .item c (decide (c ≠ 38)) :: rcdataPieces rest
  termination_by s.length
  decreasing_by
    · simp only [List.length_drop, List.length_cons]
      omega
    · exact Nat.lt_succ_self _

/-- The complete decoding of the contents. -/
def rcdataText (s : Bytes) : Bytes := text (rcdataPieces s)

/-- The places of `outbuf` that are stored to, the terminators with them. -/
def rcdataStores : Nat → Bytes → Bytes → List Nat
  | 0, out, _ => [out.length]
  | _, out, [] => [out.length]
  | fuel + 1, out, c :: s =>
      match h5DecodeRef (c :: s) with
      | some (o, u) =>
          let taken := (o.take u).take (1023 - out.length)
          List.range' out.length taken.length ++
            rcdataStores fuel (out ++ taken) ((c :: s).drop u)
      | none =>
          let stored := c = 38 ∨ out.length + 1 < 1024
          let out' := if stored then out ++ [c] else out
          (if stored then [out.length] else []) ++
            -- the level reached the mark: terminate, emit, start again
            if 1020 ≤ out'.length then out'.length :: rcdataStores fuel [] s
            else rcdataStores fuel out' s

/-- The stores of the branch for the contents `b`, which it skips when there are none. -/
def outbufStores (b : Bytes) : List Nat :=
  if b = [] then [] else rcdataStores b.length [] b

theorem rcdataPieces_ref {c : UInt8} {s o : Bytes} {u : Nat}
    (h : h5DecodeRef (c :: s) = some (o, u)) :
    rcdataPieces (c :: s) = .block o :: rcdataPieces ((c :: s).drop u) := by
  rw [rcdataPieces]
  split
  · rename_i h'
    rw [h] at h'
    cases h'
    rfl
  · rename_i h'
    rw [h] at h'
    cases h'

theorem rcdataPieces_byte {c : UInt8} {s : Bytes} (h : h5DecodeRef (c :: s) = none) :
    rcdataPieces (c :: s) = .item c (decide (c ≠ 38)) :: rcdataPieces s := by
  rw [rcdataPieces]
  split
  · rename_i h'
    rw [h] at h'
    cases h'
  · rfl

/-! ## The branch is the staging of its pieces -/

theorem put_ref {out s o : Bytes} {u : Nat} (h : h5DecodeRef s = some (o, u)) :
    put 1024 out (.block o) = out ++ (o.take u).take (1023 - out.length) := by
  rw [List.take_of_length_le (h5DecodeRef_refText h).length_le]
  rfl

theorem put_byte (out : Bytes) (c : UInt8) :
    put 1024 out (.item c (decide (c ≠ 38))) =
      if c = 38 ∨ out.length + 1 < 1024 then out ++ [c] else out := by
  simp only [Staging.put, decide_eq_false_iff_not, Decidable.not_not]

theorem rcdataChunks_eq_stage {fuel : Nat} {s : Bytes} (hfuel : s.length ≤ fuel) (out : Bytes) :
    Parser.rcdataChunks fuel out s =
      ((stage 1024 1020 out (rcdataPieces s)).1.map cstr,
        (stage 1024 1020 out (rcdataPieces s)).2) := by
  induction fuel generalizing s out with
  | zero =>
    obtain rfl := List.length_eq_zero_iff.1 (Nat.le_zero.1 hfuel)
    simp [Parser.rcdataChunks, rcdataPieces, stage]
  | succ fuel ih =>
    cases s with
    | nil => simp [Parser.rcdataChunks, rcdataPieces, stage]
    | cons c s =>
      rw [List.length_cons, Nat.add_le_add_iff_right] at hfuel
      rw [Parser.rcdataChunks]
      split
      · rename_i o u href
        have hdrop := length_drop_cons_le (h5DecodeRef_pos href) c s
        rw [rcdataPieces_ref href, stage, put_ref href, ih (Nat.le_trans hdrop hfuel)]
        rfl
      · rename_i hnone
        rw [rcdataPieces_byte hnone, stage, put_byte]
        simp only [flushes, decide_eq_true_eq]
        split_ifs <;> simp [ih hfuel]

theorem rcdataStores_eq_stores {fuel : Nat} {s : Bytes} (hfuel : s.length ≤ fuel) (out : Bytes) :
    rcdataStores fuel out s = stores 1024 1020 out (rcdataPieces s) := by
  induction fuel generalizing s out with
  | zero =>
    obtain rfl := List.length_eq_zero_iff.1 (Nat.le_zero.1 hfuel)
    simp [rcdataStores, rcdataPieces, stores]
  | succ fuel ih =>
    cases s with
    | nil => simp [rcdataStores, rcdataPieces, stores]
    | cons c s =>
      rw [List.length_cons, Nat.add_le_add_iff_right] at hfuel
      rw [rcdataStores]
      split
      · rename_i o u href
        have hdrop := length_drop_cons_le (h5DecodeRef_pos href) c s
        have htake := List.take_of_length_le (h5DecodeRef_refText href).length_le
        rw [rcdataPieces_ref href, stores, put_ref href]
        dsimp only
        rw [ih (Nat.le_trans hdrop hfuel)]
        simp only [putStores, flushes, htake, List.length_take, Bool.false_eq_true, if_false,
          Nat.min_comm]
      · rename_i hnone
        rw [rcdataPieces_byte hnone, stores, put_byte]
        simp only [flushes, putStores, decide_eq_true_eq, decide_eq_false_iff_not,
          Decidable.not_not, ih hfuel]

/-! ## What the branch emits -/

/-- The text of the character tokens the branch emits for the rest of a buffer. -/
def Parser.rawCharText (p : Parser) (buf : Bytes) : Bytes :=
  (((p.stepRaw processLogged buf).run []).2.filter (·.type = .char)).flatMap (·.name)

/-- A character token with the text `u`. -/
def charToken (u : Bytes) : H5Token := { type := .char, name := u }

theorem sendChunks_logged (chunks : List Bytes) (p : Parser) (ts : List H5Token) :
    (Parser.sendChunks processLogged p chunks).run ts =
      ({ p with tree := chunks.foldl (fun s u => s.processToken (charToken u)) p.tree },
        ts ++ chunks.map charToken) := by
  induction chunks generalizing p ts with
  | nil =>
    rw [List.map_nil, List.append_nil]
    rfl
  | cons u us ih =>
    have hstep : (Parser.sendChunks processLogged p (u :: us)).run ts =
        (Parser.sendChunks processLogged { p with tree := p.tree.processToken (charToken u) }
          us).run (ts ++ [charToken u]) := rfl
    rw [hstep, ih, List.append_assoc]
    rfl

theorem stepRaw_logged {p : Parser} {buf b after : Bytes}
    (hend : Parser.findRawEnd p.cur.name buf = some (b, after)) :
    ((p.stepRaw processLogged buf).run []).2 =
      (p.rawChunks b true).map charToken ++ [{ type := .endTag, name := p.cur.name }] := by
  let sent := (Parser.sendChunks processLogged p (p.rawChunks b true)).run []
  have hsent : ((p.stepRaw processLogged buf).run []).2 =
      sent.2 ++ [{ type := .endTag, name := sent.1.cur.name }] := by
    unfold Parser.stepRaw
    rw [hend]
    rfl
  have heq : sent = _ := sendChunks_logged (p.rawChunks b true) p []
  rw [hsent, heq, List.nil_append]

theorem rawCharText_eq {p : Parser} {buf b after : Bytes}
    (hend : Parser.findRawEnd p.cur.name buf = some (b, after)) :
    p.rawCharText buf = (p.rawChunks b true).flatten := by
  unfold Parser.rawCharText
  rw [stepRaw_logged hend, List.filter_append, List.filter_map, List.flatMap_append,
    List.flatMap_map]
  simp [charToken, Function.comp_def, List.flatMap_id']

/-! ## NUL bytes -/

theorem zero_mem_rcdataText (b : Bytes) : 0 ∈ rcdataText b ↔ 0 ∈ b := by
  unfold rcdataText
  induction b using rcdataPieces.induct with
  | case1 => simp [rcdataPieces, text]
  | case2 c rest o u href hu ih =>
    have htext := h5DecodeRef_refText href
    rw [rcdataPieces_ref href, text_cons, List.mem_append, ih, htext.zero_mem_drop_iff]
    exact or_iff_right htext.zero_notMem
  | case3 c rest hnone ih =>
    rw [rcdataPieces_byte hnone, text_cons, List.mem_append, ih, Piece.text, List.mem_singleton,
      List.mem_cons]

theorem zero_notMem_cstr (b : Bytes) : 0 ∉ cstr b := fun hmem => by
  simpa using List.all_eq_true.1 List.all_takeWhile 0 hmem

/-- The tokens as the pieces staged, each cut at a NUL byte. -/
theorem flatten_rawChunks {p : Parser} (hts : p.ts = .rcdata) (b : Bytes) :
    (p.rawChunks b true).flatten =
      ((stage 1024 1020 [] (rcdataPieces b)).1.map cstr).flatten ++
        cstr (stage 1024 1020 [] (rcdataPieces b)).2 := by
  unfold Parser.rawChunks
  by_cases hb : b = []
  · rw [if_pos hb, hb]
    simp [rcdataPieces, stage, cstr]
  · rw [if_neg hb, if_pos hts, rcdataChunks_eq_stage (Nat.le_refl _)]
    dsimp only
    split_ifs with hleft
    · simp
    · have hnil : (stage 1024 1020 [] (rcdataPieces b)).2 = [] := by simpa using hleft
      rw [hnil]
      simp [cstr]

theorem rawChunks_of_zero_notMem {p : Parser} (hts : p.ts = .rcdata) {b : Bytes} (hb : 0 ∉ b) :
    (p.rawChunks b true).flatten = emitted 1024 1020 [] (rcdataPieces b) := by
  have hfree : ∀ l ∈ (stage 1024 1020 [] (rcdataPieces b)).2 ::
      (stage 1024 1020 [] (rcdataPieces b)).1, cstr l = l := by
    intro l hl
    refine cstr_of_not_mem fun hmem => hb ((zero_mem_rcdataText b).1 ?_)
    exact stage_subset hl hmem
  rw [flatten_rawChunks hts, emitted, hfree _ List.mem_cons_self,
    List.map_congr_left fun l hl => hfree l (List.mem_cons_of_mem _ hl), List.map_id']

theorem outbufStores_lt_iff (b : Bytes) :
    (∀ i ∈ outbufStores b, i < 1024) ↔
      ∀ i ∈ stores 1024 1020 [] (rcdataPieces b), i < 1024 := by
  unfold outbufStores
  split_ifs with hb
  · rw [hb]
    simp [rcdataPieces, stores]
  · rw [rcdataStores_eq_stores (Nat.le_refl _)]

/-! ## Inside a title -/

/-- The tokenizer inside a `title`. -/
def titleParser : Parser :=
  { freshParser with ts := .rcdata, cur := { name := ascii "title" } }

theorem findRawEnd_append {b : Bytes} (hb : 60 ∉ b) (tn rest : Bytes) :
    Parser.findRawEnd tn (b ++ rest) =
      (Parser.findRawEnd tn rest).map fun r => (b ++ r.1, r.2) := by
  induction b with
  | nil => simp
  | cons c b ih =>
    have hc : c ≠ 60 := fun h => hb (h ▸ List.mem_cons_self)
    rw [List.cons_append, Parser.findRawEnd, ih fun h => hb (List.mem_cons_of_mem c h),
      Option.map_map]
    · rfl
    · exact fun _ h => absurd h hc

theorem findRawEnd_titleParser {b : Bytes} (hb : 60 ∉ b) :
    Parser.findRawEnd titleParser.cur.name (b ++ ascii "</title>") =
      some (b, ascii "title>") := by
  have hend : Parser.findRawEnd titleParser.cur.name (ascii "</title>") =
      some ([], ascii "title>") := by decide
  rw [findRawEnd_append hb, hend, Option.map_some, List.append_nil]

/-! ## When the text comes out whole -/

/-- The tokens of the contents `b`, at the front of `buf`, make up their decoding,
and every store is inside the buffer. -/
def RcdataExact (p : Parser) (buf b : Bytes) : Prop :=
  p.rawCharText buf = rcdataText b ∧ ∀ i ∈ outbufStores b, i < 1024

section Contents

variable {p : Parser} {buf b after : Bytes}

theorem rcdataExact_of_zero_notMem (hts : p.ts = .rcdata)
    (hend : Parser.findRawEnd p.cur.name buf = some (b, after)) (hb : 0 ∉ b) :
    RcdataExact p buf b ↔ Fits 1024 1020 0 (rcdataPieces b) := by
  rw [RcdataExact, rawCharText_eq hend, rawChunks_of_zero_notMem hts hb, outbufStores_lt_iff]
  have hempty : ([] : Bytes).length < 1024 := by decide
  exact emitted_stores_iff (by decide) (rcdataPieces b) hempty

theorem not_rcdataExact_of_zero_mem (hts : p.ts = .rcdata)
    (hend : Parser.findRawEnd p.cur.name buf = some (b, after)) (hb : 0 ∈ b) :
    ¬ RcdataExact p buf b := by
  rintro ⟨htext, -⟩
  -- no token has a NUL byte, the decoding has one
  have hmem := (zero_mem_rcdataText b).2 hb
  rw [← htext, rawCharText_eq hend, flatten_rawChunks hts] at hmem
  rcases List.mem_append.1 hmem with hmem | hmem
  · obtain ⟨l, hl, hzero⟩ := List.mem_flatten.1 hmem
    obtain ⟨l', -, rfl⟩ := List.mem_map.1 hl
    exact zero_notMem_cstr l' hzero
  · exact zero_notMem_cstr _ hmem

/-- Terminated contents come out whole, with every store inside the buffer, exactly
when they have no NUL byte and no piece of them meets a buffer too full for it. -/
theorem rcdata_exact_iff (hts : p.ts = .rcdata)
    (hend : Parser.findRawEnd p.cur.name buf = some (b, after)) :
    RcdataExact p buf b ↔ 0 ∉ b ∧ Fits 1024 1020 0 (rcdataPieces b) := by
  by_cases hb : 0 ∈ b
  · exact iff_of_false (not_rcdataExact_of_zero_mem hts hend hb) fun h => h.1 hb
  · rw [and_iff_right hb]
    exact rcdataExact_of_zero_notMem hts hend hb

end Contents

theorem rcdata_exact_iff_title :
    RcdataExact titleParser (ascii "a&lt;b" ++ ascii "</title>") (ascii "a&lt;b") ↔
      0 ∉ ascii "a&lt;b" ∧ Fits 1024 1020 0 (rcdataPieces (ascii "a&lt;b")) :=
  rcdata_exact_iff rfl (findRawEnd_titleParser (by decide))

/-! ## A title of bullets -/

theorem rcdataPieces_bullet (s : Bytes) :
    rcdataPieces (ascii "&bull;" ++ s) = .block [0xE2, 0x80, 0xA2] :: rcdataPieces s := by
  have href : h5DecodeRef (38 :: (ascii "bull;" ++ s)) = some ([0xE2, 0x80, 0xA2], 6) := by
    rfl
  exact rcdataPieces_ref href

/-- The level behind `k` bullets. -/
theorem fits_bullets (k : Nat) (s : Bytes) (n : Nat) :
    Fits 1024 1020 n (rcdataPieces ((List.replicate k (ascii "&bull;")).flatten ++ s)) →
      Fits 1024 1020 (n + 3 * k) (rcdataPieces s) := by
  induction k generalizing n with
  | zero => exact id
  | succ k ih =>
    intro h
    rw [List.replicate_succ, List.flatten_cons, List.append_assoc, rcdataPieces_bullet] at h
    have hnext : n + 3 * (k + 1) = n + 3 + 3 * k := by omega
    rw [hnext]
    exact ih (n + 3) h.2

/-- 341 bullets fill the buffer to 1023 bytes. -/
def bullets : Bytes := (List.replicate 341 (ascii "&bull;")).flatten

/-- Behind 341 bullets a letter is lost, and a `&` ends up in the last place with its
terminator behind the buffer. -/
theorem bullets_not_exact :
    ¬ RcdataExact titleParser (bullets ++ ascii "x" ++ ascii "</title>") (bullets ++ ascii "x") ∧
      ¬ RcdataExact titleParser (bullets ++ ascii "&" ++ ascii "</title>")
        (bullets ++ ascii "&") := by
  have hfree : ∀ c ∈ ascii "&bull;", c ≠ 0 ∧ c ≠ 60 := forall_mem_ascii (by decide)
  have hbullets : ∀ c ∈ bullets, c ≠ 0 ∧ c ≠ 60 := by
    intro c hc
    obtain ⟨l, hl, hcl⟩ := List.mem_flatten.1 hc
    exact hfree c ((List.mem_replicate.1 hl).2 ▸ hcl)
  have hnot : ∀ d ∈ [(120 : UInt8), 38],
      ¬ RcdataExact titleParser (bullets ++ [d] ++ ascii "</title>") (bullets ++ [d]) := by
    intro d hd
    have hd' : (∀ c ∈ [d], c ≠ 0 ∧ c ≠ 60) ∧ h5DecodeRef [d] = none := by
      rcases List.mem_pair.1 hd with rfl | rfl
      · exact ⟨by simp, by decide⟩
      · exact ⟨by simp, by decide⟩
    have hall : ∀ c ∈ bullets ++ [d], c ≠ 0 ∧ c ≠ 60 :=
      List.forall_mem_append.2 ⟨hbullets, hd'.1⟩
    have hend := findRawEnd_titleParser fun h => (hall 60 h).2 rfl
    rw [rcdataExact_of_zero_notMem rfl hend fun h => (hall 0 h).1 rfl]
    intro hfits
    have hlast := fits_bullets 341 [d] 0 hfits
    rw [rcdataPieces_byte hd'.2] at hlast
    exact absurd hlast.1 (by simp [Piece.text])
  exact ⟨hnot 120 (by decide), hnot 38 (by decide)⟩

end TinyFramework.Html5
