/-
  Net/CacheMeta.lean --- the files of the HTTP cache.

  The length of the body always is: it stands in the last line.  The other fields are, exactly
  if no line ends within a text and every text fits into its line and its field.

  What can go wrong is the name: an entry without a URL has no file.

  The meta file is written before the body, over the old one, and nothing in it speaks of the
  body but its length.
-/
import TinyFramework.Net.HttpCache

set_option autoImplicit false

namespace TinyFramework.Net

open TinyFramework.Foundation

variable {τ : Type}

/-! ## Lines -/

/-- After a line break a text is read as if it began there. -/
theorem fgetsCalls_break (size : Nat) (line s t : Bytes) :
    fgetsCalls size line (s ++ 10 :: t) = fgetsCalls size line (s ++ [10]) ++ fgetsCalls size [] t := by
  induction s generalizing line with
  | nil => simp [fgetsCalls]
  | cons b s ih =>
    simp only [List.cons_append, fgetsCalls]
    split_ifs
    · rw [ih, List.cons_append]
    · exact ih _

/-- What has room in the buffer is read in one call, so far. -/
theorem fgetsCalls_append {size : Nat} {line s : Bytes} (t : Bytes) (hs : 10 ∉ s)
    (hroom : line.length + s.length + 2 ≤ size) :
    fgetsCalls size line (s ++ t) = fgetsCalls size (line ++ s) t := by
  induction s generalizing line with
  | nil => simp
  | cons b s ih =>
    have hb : ¬ (b = 10 ∨ line.length + 2 = size) := by
      rintro (rfl | hfull)
      · exact hs List.mem_cons_self
      · rw [List.length_cons] at hroom
        omega
    have hroom' : (line ++ [b]).length + s.length + 2 ≤ size := by
      rw [List.length_append, List.length_singleton]
      rw [List.length_cons] at hroom
      omega
    have hrest := ih (fun h => hs (List.mem_cons_of_mem b h)) hroom'
    rw [List.cons_append, fgetsCalls, if_neg hb, hrest, List.append_assoc, List.singleton_append]

theorem length_of_mem_fgetsCalls {size : Nat} (hsize : 2 ≤ size) {line text l : Bytes}
    (hline : line.length + 2 ≤ size) (h : l ∈ fgetsCalls size line text) : l.length + 1 ≤ size := by
  induction text generalizing line with
  | nil =>
    rw [fgetsCalls] at h
    split_ifs at h with hempty
    · cases h
    · rw [List.mem_singleton.1 h]
      omega
  | cons b text ih =>
    rw [fgetsCalls] at h
    split_ifs at h with hend
    · rcases List.mem_cons.1 h with rfl | h
      · rw [List.length_append, List.length_singleton]
        omega
      · have hempty : ([] : Bytes).length + 2 ≤ size := hsize
        exact ih hempty h
    · refine ih ?_ h
      rw [List.length_append, List.length_singleton]
      omega

theorem cutLine_eq {line : Bytes} (hline : ∀ b ∈ line, inLine b = true) (t : Bytes) :
    cutLine (line ++ 10 :: t) = line := by
  rw [cutLine, List.takeWhile_append_of_pos hline, List.takeWhile_cons_of_neg (by decide),
    List.append_nil]

theorem inLine_of_mem_cutLine {line : Bytes} {b : UInt8} (h : b ∈ cutLine line) :
    inLine b = true :=
  List.mem_takeWhile_imp h

/-! ## The loop over the lines -/

namespace CacheMeta

theorem readText_break (m : CacheMeta) (s t : Bytes) :
    m.readText (s ++ 10 :: t) = (m.readText (s ++ [10])).readText t := by
  rw [readText, readText, readText, fgetsCalls_break, List.foldl_append]

theorem readText_lines (m : CacheMeta) (lines : List Bytes) (t : Bytes) :
    m.readText (lines.flatMap (· ++ [10]) ++ t) =
      (lines.foldl (fun m line => m.readText (line ++ [10])) m).readText t := by
  induction lines generalizing m with
  | nil => rfl
  | cons line lines ih =>
    rw [List.flatMap_cons, List.append_assoc, List.append_assoc, List.singleton_append,
      readText_break, ih, List.foldl_cons]

/-- A line that fits is read as one, its break perhaps in a call of its own. -/
theorem readText_line (m : CacheMeta) {line : Bytes} (hline : ∀ b ∈ line, inLine b = true)
    (hlength : line.length ≤ 1023) : m.readText (line ++ [10]) = m.readLine line := by
  have hbreak : (10 : UInt8) ∉ line := fun h => absurd (hline 10 h) (by decide)
  rcases Nat.lt_or_ge line.length 1023 with hshort | hlong
  · have hcalls : fgetsCalls 1024 [] (line ++ [10]) = [line ++ [10]] := by
      rw [fgetsCalls_append [10] hbreak (by simpa using by omega)]
      simp [fgetsCalls]
    rw [readText, hcalls, List.foldl_cons, List.foldl_nil, cutLine_eq hline]
  · obtain ⟨front, b, rfl⟩ : ∃ front b, line = front ++ [b] :=
      ⟨line.dropLast, line.getLast (by rintro rfl; simp at hlong), (List.dropLast_append_getLast _).symm⟩
    rw [List.length_append, List.length_singleton] at hlong hlength
    have hcalls : fgetsCalls 1024 [] (front ++ [b] ++ [10]) = [front ++ [b], [10]] := by
      have hfront : (10 : UInt8) ∉ front := fun h => hbreak (List.mem_append_left _ h)
      have hfull : b = 10 ∨ ([] ++ front).length + 2 = 1024 := Or.inr (by
        rw [List.nil_append]
        omega)
      rw [List.append_assoc, fgetsCalls_append _ hfront (by simpa using by omega)]
      rw [List.singleton_append, fgetsCalls, if_pos hfull]
      simp [fgetsCalls]
    have hcut : cutLine (front ++ [b]) = front ++ [b] := List.takeWhile_eq_self_iff.2 hline
    rw [readText, hcalls, List.foldl_cons, List.foldl_cons, List.foldl_nil, hcut]
    rfl

/-! ## The fields -/

/-- Where no tag begins another one, a line is found by its own. -/
theorem find_tag {β : Type} {l : List (Bytes × β)} {f : Bytes × β} (x : Bytes)
    (htags : (l.map Prod.fst).Pairwise fun a b => ¬ a <+: b ∧ ¬ b <+: a) (hf : f ∈ l) :
    l.find? (fun g => g.1 <+: f.1 ++ x) = some f := by
  induction l with
  | nil => cases hf
  | cons g l ih =>
    rw [List.map_cons, List.pairwise_cons] at htags
    rcases List.mem_cons.1 hf with rfl | hf
    · exact List.find?_cons_of_pos (by simp)
    · obtain ⟨hgf, hfg⟩ := htags.1 f.1 (List.mem_map_of_mem hf)
      have hg : ¬ g.1 <+: f.1 ++ x := fun h =>
        (List.prefix_or_prefix_of_prefix h (List.prefix_append f.1 x)).elim hgf hfg
      rw [List.find?_cons_of_neg (by simpa using hg), ih htags.2 hf]

theorem readLine_tag (m : CacheMeta) {f : Bytes × (CacheMeta → Bytes → CacheMeta)}
    (hf : f ∈ metaFields) (x : Bytes) : m.readLine (f.1 ++ x) = f.2 m x := by
  have hfind := find_tag x (by decide) hf
  rw [readLine, hfind, Option.elim_some, List.drop_left]

/-- What `mini_httpcache_save_to_disk` prints into its lines. -/
def metaValues (e : MiniCacheEntry τ) : List Bytes :=
  [e.url, printInt e.status, e.mime, e.etag, e.lastModified, printInt e.storedAt,
    printInt e.maxAge, printInt e.noCache, printInt e.noStore, decimal e.body.length]

theorem metaLines_eq (e : MiniCacheEntry τ) :
    metaLines e = List.zipWith (fun f x => f.1 ++ x) metaFields (metaValues e) :=
  rfl

theorem foldl_readLine {fs : List (Bytes × (CacheMeta → Bytes → CacheMeta))}
    (hfs : ∀ f ∈ fs, f ∈ metaFields) (xs : List Bytes) (m : CacheMeta) :
    (List.zipWith (fun f x => f.1 ++ x) fs xs).foldl readLine m =
      (fs.zip xs).foldl (fun m p => p.1.2 m p.2) m := by
  induction fs generalizing xs m with
  | nil => rfl
  | cons f fs ih =>
    cases xs with
    | nil => rfl
    | cons x xs =>
      rw [List.zipWith_cons_cons, List.zip_cons_cons, List.foldl_cons, List.foldl_cons,
        readLine_tag m (hfs f List.mem_cons_self)]
      exact ih (fun f hf => hfs f (List.mem_cons_of_mem _ hf)) xs _

end CacheMeta

/-! ## What fits -/

/-- A text of so many bytes at most, within a line. -/
def Fits (n : Nat) (s : Bytes) : Prop := s.length ≤ n ∧ ∀ b ∈ s, inLine b = true

theorem Fits.append {n k : Nat} {s t : Bytes} (hs : Fits n s) (ht : Fits k t) :
    Fits (n + k) (s ++ t) := by
  refine ⟨?_, fun b hb => (List.mem_append.1 hb).elim (hs.2 b) (ht.2 b)⟩
  rw [List.length_append]
  exact Nat.add_le_add hs.1 ht.1

theorem Fits.mono {n k : Nat} {s : Bytes} (hs : Fits n s) (hnk : n ≤ k) : Fits k s :=
  ⟨Nat.le_trans hs.1 hnk, hs.2⟩

theorem fits_ascii {n : Nat} {l : List Char} (hlength : l.length ≤ n)
    (hline : (l.all fun c => inLine (UInt8.ofNat c.toNat)) = true) :
    Fits n (ascii (String.ofList l)) := by
  refine ⟨?_, forall_mem_ascii (by simpa using hline)⟩
  rwa [ascii_ofList, List.length_map]

theorem Fits.take {n : Nat} {s : Bytes} (hs : Fits n s) (k : Nat) : Fits (min k n) (s.take k) := by
  refine ⟨?_, fun b hb => hs.2 b (List.mem_of_mem_take hb)⟩
  rw [List.length_take]
  exact min_le_min_left k hs.1

theorem fits_printInt {n : Int} (h : n.natAbs < 2 ^ 64) : Fits 21 (printInt n) := by
  refine ⟨length_printInt_le (k := 20) (by decide) (Nat.lt_trans h (by decide)), fun b hb => ?_⟩
  simpa [inLine, and_assoc] using printInt_noBreak hb

theorem fits_decimal {n : Nat} (h : n < 2 ^ 64) : Fits 20 (decimal n) := by
  refine ⟨length_decimal_le (by decide) (Nat.lt_trans h (by decide)), fun b hb => ?_⟩
  simpa [inLine, and_assoc] using decimal_noBreak hb

theorem readText_fits (m : CacheMeta) {line : Bytes} (h : Fits 1023 line) :
    m.readText (line ++ [10]) = m.readLine line :=
  m.readText_line h.2 h.1

namespace MiniCacheEntry

/-- The numbers have 64 bits, as those of the source have. -/
structure Sized (e : MiniCacheEntry τ) : Prop where
  status : e.status.natAbs < 2 ^ 64
  storedAt : e.storedAt.natAbs < 2 ^ 64
  maxAge : e.maxAge.natAbs < 2 ^ 64
  noCache : e.noCache.natAbs < 2 ^ 64
  noStore : e.noStore.natAbs < 2 ^ 64
  body : e.body.length < 2 ^ 64

/-- The texts fit into their lines and their fields. -/
def Plain (e : MiniCacheEntry τ) : Prop :=
  Fits 1018 e.url ∧ Fits 127 e.mime ∧ Fits 255 e.etag ∧ Fits 63 e.lastModified

end MiniCacheEntry

/-! ## What is read back -/

variable {e : MiniCacheEntry τ}

/-- The length of the body is. -/
theorem readMeta_bodyLen (hbody : e.body.length < 2 ^ 64) :
    (readMeta (metaText e)).bodyLen = e.body.length := by
  have hlines : metaText e = (metaLines e).dropLast.flatMap (· ++ [10]) ++
      (ascii "BODY_LEN: " ++ decimal e.body.length ++ [10]) := by
    have hsplit : metaLines e =
        (metaLines e).dropLast ++ [ascii "BODY_LEN: " ++ decimal e.body.length] := rfl
    rw [metaText, hsplit, List.flatMap_append, ← hsplit, List.flatMap_singleton]
  have htag : Fits 10 (ascii "BODY_LEN: ") := fits_ascii (by decide) (by decide)
  rw [readMeta, hlines, CacheMeta.readText_lines,
    readText_fits _ ((htag.append (fits_decimal hbody)).mono (by decide))]
  have hread : ∀ m : CacheMeta, m.readLine (ascii "BODY_LEN: " ++ decimal e.body.length) =
      { m with bodyLen := atoi (decimal e.body.length) } := fun m =>
    m.readLine_tag (f := (ascii "BODY_LEN: ", fun m s => { m with bodyLen := atoi s }))
      (List.mem_of_getElem? (i := 9) rfl) _
  have hatoi : atoi (decimal e.body.length) = e.body.length := by
    simpa using atoi_decimal e.body.length [] (by simp)
  rw [hread, hatoi]

theorem metaLines_fit (hplain : e.Plain) (hsized : e.Sized) :
    ∀ line ∈ metaLines e, Fits 1023 line := by
  obtain ⟨hurl, hmime, hetag, hmodified⟩ := hplain
  have hfits : ∀ {tag value : Bytes} {n k : Nat}, Fits n tag → Fits k value → n + k ≤ 1023 →
      Fits 1023 (tag ++ value) := fun htag hvalue hroom => (htag.append hvalue).mono hroom
  unfold metaLines
  simp only [List.forall_mem_cons]
  refine ⟨hfits (n := 5) (fits_ascii (by decide) (by decide)) hurl (by decide),
    hfits (n := 8) (fits_ascii (by decide) (by decide)) (fits_printInt hsized.status) (by decide),
    hfits (n := 6) (fits_ascii (by decide) (by decide)) hmime (by decide),
    hfits (n := 6) (fits_ascii (by decide) (by decide)) hetag (by decide),
    hfits (n := 15) (fits_ascii (by decide) (by decide)) hmodified (by decide),
    hfits (n := 11) (fits_ascii (by decide) (by decide)) (fits_printInt hsized.storedAt) (by decide),
    hfits (n := 9) (fits_ascii (by decide) (by decide)) (fits_printInt hsized.maxAge) (by decide),
    hfits (n := 10) (fits_ascii (by decide) (by decide)) (fits_printInt hsized.noCache) (by decide),
    hfits (n := 10) (fits_ascii (by decide) (by decide)) (fits_printInt hsized.noStore) (by decide),
    hfits (n := 10) (fits_ascii (by decide) (by decide)) (fits_decimal hsized.body) (by decide), ?_⟩
  exact fun line hline => absurd hline List.not_mem_nil

/-- Everything is if the texts fit. -/
theorem readMeta_of_plain (hplain : e.Plain) (hsized : e.Sized) :
    readMeta (metaText e) = ⟨e.url, e.status, e.mime, e.etag, e.lastModified, e.storedAt,
      e.maxAge, e.noCache, e.noStore, e.body.length⟩ := by
  have hfold : readMeta (metaText e) = (metaLines e).foldl CacheMeta.readLine {} := by
    have hlines := CacheMeta.readText_lines {} (metaLines e) []
    rw [List.append_nil] at hlines
    have heach : (metaLines e).foldl (fun m line => m.readText (line ++ [10])) {} =
        (metaLines e).foldl CacheMeta.readLine {} :=
      List.foldl_ext _ _ _ fun m line hmem =>
        readText_fits m (metaLines_fit hplain hsized line hmem)
    exact hlines.trans heach
  have hnumber : ∀ n : Int, atoi (printInt n) = n := fun n => by
    simpa using atoi_printInt n [] (by simp)
  have hlength : atoi (decimal e.body.length) = e.body.length := by
    simpa using atoi_decimal e.body.length [] (by simp)
  obtain ⟨hurl, hmime, hetag, hmodified⟩ := hplain
  rw [hfold, CacheMeta.metaLines_eq, CacheMeta.foldl_readLine fun f hf => hf]
  simp only [metaFields, CacheMeta.metaValues, List.zip_cons_cons, List.foldl_cons, List.foldl_nil,
    List.zip_nil_right, hnumber, hlength, List.take_of_length_le hmime.1,
    List.take_of_length_le hetag.1, List.take_of_length_le hmodified.1,
    List.take_of_length_le (Nat.le_trans hurl.1 (by decide : 1018 ≤ 1023))]

/-- The texts that were read so far fit. -/
def CacheMeta.TextsFit (m : CacheMeta) : Prop :=
  Fits 1018 m.url ∧ Fits 127 m.mime ∧ Fits 255 m.etag ∧ Fits 63 m.lastModified

theorem CacheMeta.TextsFit.readLine {m : CacheMeta} (hm : m.TextsFit) {line : Bytes}
    (hlength : line.length ≤ 1023) : (m.readLine (cutLine line)).TextsFit := by
  obtain ⟨hurl, hmime, hetag, hmodified⟩ := hm
  unfold CacheMeta.readLine
  cases hfind : metaFields.find? fun f => f.1 <+: cutLine line with
  | none => exact ⟨hurl, hmime, hetag, hmodified⟩
  | some f =>
    have hrest : Fits (1023 - f.1.length) ((cutLine line).drop f.1.length) := by
      refine ⟨?_, fun b hb => inLine_of_mem_cutLine (List.mem_of_mem_drop hb)⟩
      have hcut : (cutLine line).length ≤ line.length :=
        (List.takeWhile_sublist inLine).length_le
      rw [List.length_drop]
      omega
    rw [Option.elim_some]
    generalize (cutLine line).drop f.1.length = rest at hrest
    have hf := List.mem_of_find?_eq_some hfind
    simp only [metaFields, List.mem_cons, List.not_mem_nil, or_false] at hf
    rcases hf with rfl | rfl | rfl | rfl | rfl | rfl | rfl | rfl | rfl | rfl
    · exact ⟨(hrest.take 1023).mono (by decide), hmime, hetag, hmodified⟩
    · exact ⟨hurl, hmime, hetag, hmodified⟩
    · exact ⟨hurl, (hrest.take 127).mono (by decide), hetag, hmodified⟩
    · exact ⟨hurl, hmime, (hrest.take 255).mono (by decide), hmodified⟩
    · exact ⟨hurl, hmime, hetag, (hrest.take 63).mono (by decide)⟩
    all_goals exact ⟨hurl, hmime, hetag, hmodified⟩

/-- Whatever is read fits. -/
theorem readMeta_fits (text : Bytes) : (readMeta text).TextsFit := by
  have hnil : ∀ n, Fits n [] := fun n => ⟨Nat.zero_le n, fun b hb => absurd hb List.not_mem_nil⟩
  have hempty : CacheMeta.TextsFit {} := ⟨hnil 1018, hnil 127, hnil 255, hnil 63⟩
  refine List.foldlRecOn (motive := CacheMeta.TextsFit) _ _ hempty fun m hm line hline => ?_
  have hlength := length_of_mem_fgetsCalls (by decide) (by decide) hline
  exact hm.readLine (by omega)

/-- An entry is read back as it is exactly if its texts fit. -/
theorem readsBack_iff (hsized : e.Sized) :
    (readMeta (metaText e)).entry e.body e.origin = e ↔ e.Plain := by
  constructor
  · intro h
    have hfits := readMeta_fits (metaText e)
    have hurl : (readMeta (metaText e)).url = e.url := congrArg MiniCacheEntry.url h
    have hmime : (readMeta (metaText e)).mime = e.mime := congrArg MiniCacheEntry.mime h
    have hetag : (readMeta (metaText e)).etag = e.etag := congrArg MiniCacheEntry.etag h
    have hmodified : (readMeta (metaText e)).lastModified = e.lastModified :=
      congrArg MiniCacheEntry.lastModified h
    rwa [CacheMeta.TextsFit, hurl, hmime, hetag, hmodified] at hfits
  · intro hplain
    rw [readMeta_of_plain hplain hsized, CacheMeta.entry]

/-! ## What the files hold -/

theorem saveToDisk_metaFile (disk : CacheDisk τ) {e : MiniCacheEntry τ} (hurl : e.url ≠ []) :
    (saveToDisk disk e).metaFile (urlToFilename e.url) = some (metaText e) ∧
      (saveToDisk disk e).origin (urlToFilename e.url) = e.origin := by
  unfold saveToDisk saveWrites
  rw [if_neg hurl]
  split_ifs <;> simp [DiskWrite.exec]

/-- An empty body leaves the old file as it is. -/
theorem saveToDisk_binFile (disk : CacheDisk τ) {e : MiniCacheEntry τ} (hurl : e.url ≠ [])
    (hbody : e.body ≠ []) :
    (saveToDisk disk e).binFile (urlToFilename e.url) = some e.body := by
  unfold saveToDisk saveWrites
  rw [if_neg hurl]
  simp [DiskWrite.exec, hbody]

/-- Whatever is on the disk, an entry whose texts fit comes back. -/
theorem load_of_plain (disk : CacheDisk τ) {e : MiniCacheEntry τ} (hurl : e.url ≠ [])
    (hplain : e.Plain) (hsized : e.Sized) : loadFromDisk (saveToDisk disk e) e.url = some e := by
  obtain ⟨hmeta, horigin⟩ := saveToDisk_metaFile disk hurl
  have hread := readMeta_of_plain hplain hsized
  have hnamed : ¬ ((readMeta (metaText e)).url ≠ e.url ∨ (readMeta (metaText e)).bodyLen < 0) := by
    rw [hread]
    rintro (hother | hnegative)
    · exact hother rfl
    · dsimp only at hnegative
      omega
  unfold loadFromDisk
  simp only [if_neg hurl, hmeta, horigin]
  rw [if_neg hnamed, hread]
  rcases eq_or_ne e.body [] with hbody | hbody
  · rw [if_neg (by simp [hbody]), CacheMeta.entry, ← hbody]
  · have hpos := List.length_pos_iff.2 hbody
    rw [if_pos (by dsimp only; omega), saveToDisk_binFile disk hurl hbody, Option.map_some,
      Int.toNat_natCast, List.take_length, CacheMeta.entry]

/-! ## The entries of the source -/

/-- A string in an array of so many bytes. -/
def HeldText (size : Nat) (s : Bytes) : Prop := s.length < size ∧ 0 ∉ s

instance (size : Nat) (s : Bytes) : Decidable (HeldText size s) :=
  inferInstanceAs (Decidable (_ ∧ _))

/-- A number of so many bits. -/
def HeldNumber (bits : Nat) (n : Int) : Prop := -2 ^ (bits - 1) ≤ n ∧ n < 2 ^ (bits - 1)

instance (bits : Nat) (n : Int) : Decidable (HeldNumber bits n) :=
  inferInstanceAs (Decidable (_ ∧ _))

/-- An entry as `MiniCacheEntry` of the source can hold it. -/
structure HeldEntry (τ : Type) extends MiniCacheEntry τ where
  url_held : HeldText 1024 url
  mime_held : HeldText 128 mime
  etag_held : HeldText 256 etag
  lastModified_held : HeldText 64 lastModified
  status_held : HeldNumber 32 status
  storedAt_held : HeldNumber 64 storedAt
  maxAge_held : HeldNumber 64 maxAge
  noCache_held : HeldNumber 32 noCache
  noStore_held : HeldNumber 32 noStore
  body_held : HeldNumber 64 body.length

theorem HeldNumber.natAbs_lt {bits : Nat} {n : Int} (h : HeldNumber bits n) (hbits : bits ≤ 64) :
    n.natAbs < 2 ^ 64 := by
  obtain ⟨hlow, hhigh⟩ := h
  have hpow : (2 : Int) ^ (bits - 1) ≤ 2 ^ 63 := pow_le_pow_right₀ (by decide) (by omega)
  omega

theorem HeldText.fits {size n : Nat} {s : Bytes} (h : HeldText size s) (hlength : s.length ≤ n)
    (hbreaks : 13 ∉ s ∧ 10 ∉ s) : Fits n s := by
  refine ⟨hlength, fun b hb => ?_⟩
  have hnull : b ≠ 0 := ne_of_mem_of_not_mem hb h.2
  have hreturn : b ≠ 13 := ne_of_mem_of_not_mem hb hbreaks.1
  have hbreak : b ≠ 10 := ne_of_mem_of_not_mem hb hbreaks.2
  simp [inLine, hnull, hreturn, hbreak]

namespace HeldEntry

theorem sized (e : HeldEntry τ) : e.toMiniCacheEntry.Sized where
  status := e.status_held.natAbs_lt (by decide)
  storedAt := e.storedAt_held.natAbs_lt (by decide)
  maxAge := e.maxAge_held.natAbs_lt (by decide)
  noCache := e.noCache_held.natAbs_lt (by decide)
  noStore := e.noStore_held.natAbs_lt (by decide)
  body := by simpa using e.body_held.natAbs_lt (by decide)

/-- The strings, of which each has a line of its own. -/
def texts (e : HeldEntry τ) : List Bytes := [e.url, e.mime, e.etag, e.lastModified]

theorem plain {e : HeldEntry τ} (hbreaks : ∀ s ∈ e.texts, 13 ∉ s ∧ 10 ∉ s)
    (hlength : e.url.length ≤ 1018) : e.toMiniCacheEntry.Plain := by
  unfold texts at hbreaks
  simp only [List.forall_mem_cons] at hbreaks
  obtain ⟨hurl, hmime, hetag, hmodified, -⟩ := hbreaks
  exact ⟨e.url_held.fits hlength hurl, e.mime_held.fits (Nat.le_of_lt_succ e.mime_held.1) hmime,
    e.etag_held.fits (Nat.le_of_lt_succ e.etag_held.1) hetag,
    e.lastModified_held.fits (Nat.le_of_lt_succ e.lastModified_held.1) hmodified⟩

end HeldEntry

/-- An entry with a name is loaded as it was saved, over any files. -/
theorem load_saved (disk : CacheDisk τ) (e : HeldEntry τ)
    (hbreaks : ∀ s ∈ e.texts, 13 ∉ s ∧ 10 ∉ s) (hlength : e.url.length ≤ 1018)
    (hurl : e.url ≠ []) :
    loadFromDisk (saveToDisk disk e.toMiniCacheEntry) e.url = some e.toMiniCacheEntry :=
  load_of_plain disk hurl (HeldEntry.plain hbreaks hlength) e.sized

/-- An entry whose texts look like other lines of its file. -/
def keyLikeEntry : HeldEntry Unit where
  url := ascii "URL: STATUS: 1"
  status := -1
  mime := ascii "STATUS: 7"
  body := ascii "BODY_LEN: 0"
  etag := ascii "URL: "
  lastModified := []
  storedAt := -2 ^ 63
  maxAge := -1
  noCache := 1
  noStore := 0
  origin := ()
  url_held := by decide
  mime_held := by decide
  etag_held := by decide
  lastModified_held := by decide
  status_held := by decide
  storedAt_held := by decide
  maxAge_held := by decide
  noCache_held := by decide
  noStore_held := by decide
  body_held := by decide

theorem load_saved_keyLike :
    loadFromDisk (saveToDisk ⟨fun _ => some [13], fun _ => none, fun _ => ()⟩
      keyLikeEntry.toMiniCacheEntry) keyLikeEntry.url = some keyLikeEntry.toMiniCacheEntry :=
  load_saved _ _ (by decide) (by decide) (by decide)

/-- An entry without a URL. -/
def unnamedEntry : HeldEntry Unit := { keyLikeEntry with url := [], url_held := by decide }

/-- It is neither saved nor loaded. -/
theorem unnamed_not_loaded :
    (∀ s ∈ unnamedEntry.texts, 13 ∉ s ∧ 10 ∉ s) ∧ unnamedEntry.url.length ≤ 1018 ∧
    loadFromDisk (saveToDisk ⟨fun _ => none, fun _ => none, fun _ => ()⟩
      unnamedEntry.toMiniCacheEntry) unnamedEntry.url ≠ some unnamedEntry.toMiniCacheEntry :=
  ⟨by decide, by decide, by decide⟩

/-! ## A crash between two writes -/

/-- The disk after so many writes of `mini_httpcache_save_to_disk`. -/
def savedUpTo (disk : CacheDisk Unit) (new : MiniCacheEntry Unit) (k : Nat) : CacheDisk Unit :=
  ((saveWrites new).take k).foldl DiskWrite.exec disk

/-- However many writes are done, nothing is loaded, or what was before, or the new entry. -/
def CrashConsistent (disk : CacheDisk Unit) (new : MiniCacheEntry Unit) : Prop :=
  ∀ k, loadFromDisk (savedUpTo disk new k) new.url = none ∨
    loadFromDisk (savedUpTo disk new k) new.url = loadFromDisk disk new.url ∨
    loadFromDisk (savedUpTo disk new k) new.url = some new

/-- The new entry as its meta file gives it, with some body. -/
def asRead (new : MiniCacheEntry Unit) (body : Bytes) : MiniCacheEntry Unit :=
  (readMeta (metaText new)).entry body ()

/-- No write can go missing without harm, or there is none. -/
def CrashSafe (disk : CacheDisk Unit) (new : MiniCacheEntry Unit) : Prop :=
  new.url = [] ∨ (asRead new []).url ≠ new.url ∨
  (new.body = [] ∧ (new.Plain ∨ loadFromDisk disk new.url = some (asRead new []))) ∨
  (new.body ≠ [] ∧ new.Plain ∧ loadFromDisk disk new.url = some { new with body := [] } ∧
    ∀ bin, disk.binFile (urlToFilename new.url) = some bin →
      bin.take new.body.length = [] ∨ bin.take new.body.length = new.body)

variable {disk : CacheDisk Unit} {new : MiniCacheEntry Unit}

/-! ## The prefixes -/

theorem asRead_eq_new (hsized : new.Sized) {body : Bytes} :
    asRead new body = new ↔ new.Plain ∧ body = new.body := by
  constructor
  · intro h
    obtain rfl : body = new.body := congrArg MiniCacheEntry.body h
    exact ⟨(readsBack_iff hsized).1 h, rfl⟩
  · rintro ⟨hplain, rfl⟩
    exact (readsBack_iff hsized).2 hplain

theorem asRead_of_plain (hsized : new.Sized) (hplain : new.Plain) (body : Bytes) :
    asRead new body = { new with body := body } := by
  have hnew : asRead new new.body = new := (asRead_eq_new hsized).2 ⟨hplain, rfl⟩
  calc asRead new body = { asRead new new.body with body := body } := rfl
    _ = { new with body := body } := by rw [hnew]

/-- What may be loaded once the meta file is written. -/
theorem asRead_allowed (hsized : new.Sized) {old : Option (MiniCacheEntry Unit)} {body : Bytes} :
    some (asRead new body) = none ∨ some (asRead new body) = old ∨
      some (asRead new body) = some new ↔
    old = some (asRead new body) ∨ new.Plain ∧ body = new.body := by
  rw [Option.some_inj, asRead_eq_new hsized, eq_comm (b := old)]
  exact or_iff_right (Option.some_ne_none _)

/-- With the meta file of the new entry, the body decides. -/
theorem load_written (disk : CacheDisk Unit) (hurl : new.url ≠ []) (hsized : new.Sized)
    (hmeta : disk.metaFile (urlToFilename new.url) = some (metaText new))
    (hnamed : (asRead new []).url = new.url) :
    loadFromDisk disk new.url =
      if new.body = [] then some (asRead new [])
      else (disk.binFile (urlToFilename new.url)).map fun bin =>
        asRead new (bin.take new.body.length) := by
  have hlength := readMeta_bodyLen hsized.body
  have hnone : ¬ ((readMeta (metaText new)).url ≠ new.url ∨
      (readMeta (metaText new)).bodyLen < 0) := by
    rintro (h | h)
    · exact h hnamed
    · omega
  unfold loadFromDisk
  simp only [if_neg hurl, hmeta]
  rw [if_neg hnone, hlength]
  rcases eq_or_ne new.body [] with hbody | hbody
  · rw [if_pos hbody, if_neg (by simp [hbody])]
    rfl
  · have hpos := List.length_pos_iff.2 hbody
    rw [if_neg hbody, if_pos (by omega)]
    rfl

theorem load_unnamed (hmeta : disk.metaFile (urlToFilename new.url) = some (metaText new))
    (hnamed : (asRead new []).url ≠ new.url) : loadFromDisk disk new.url = none := by
  have hother : (readMeta (metaText new)).url ≠ new.url ∨
      (readMeta (metaText new)).bodyLen < 0 := Or.inl hnamed
  unfold loadFromDisk
  simp only [hmeta]
  rw [if_pos hother]
  exact ite_self _

theorem load_truncated (hurl : new.url ≠ [])
    (hmeta : disk.metaFile (urlToFilename new.url) = some []) :
    loadFromDisk disk new.url = none := by
  have hempty : (readMeta []).url ≠ new.url ∨ (readMeta []).bodyLen < 0 :=
    Or.inl fun h => hurl h.symm
  unfold loadFromDisk
  simp only [if_neg hurl, hmeta]
  rw [if_pos hempty]

/-- The five states that there are, by what is in the two files. -/
theorem savedUpTo_cases (disk : CacheDisk Unit) (hurl : new.url ≠ []) (k : Nat) :
    savedUpTo disk new k = disk ∨
    (savedUpTo disk new k).metaFile (urlToFilename new.url) = some [] ∨
    ((savedUpTo disk new k).metaFile (urlToFilename new.url) = some (metaText new) ∧
      ((savedUpTo disk new k).binFile = disk.binFile ∨
        new.body ≠ [] ∧ ((savedUpTo disk new k).binFile (urlToFilename new.url) = some [] ∨
          (savedUpTo disk new k).binFile (urlToFilename new.url) = some new.body))) := by
  unfold savedUpTo saveWrites
  rw [if_neg hurl]
  rcases k with _ | _ | _ | _ | k
  · exact Or.inl rfl
  · exact Or.inr (Or.inl (by simp [DiskWrite.exec]))
  · exact Or.inr (Or.inr (by simp [DiskWrite.exec]))
  · split_ifs with hbody
    · exact Or.inr (Or.inr (by simp [DiskWrite.exec]))
    · exact Or.inr (Or.inr (by simp [DiskWrite.exec, hbody]))
  · split_ifs with hbody
    · exact Or.inr (Or.inr (by simp [DiskWrite.exec]))
    · exact Or.inr (Or.inr (by simp [DiskWrite.exec, hbody]))

theorem savedUpTo_two (disk : CacheDisk Unit) (hurl : new.url ≠ []) :
    (savedUpTo disk new 2).metaFile (urlToFilename new.url) = some (metaText new) ∧
    (savedUpTo disk new 2).binFile = disk.binFile := by
  unfold savedUpTo saveWrites
  rw [if_neg hurl]
  simp [DiskWrite.exec]

theorem savedUpTo_body (disk : CacheDisk Unit) (hurl : new.url ≠ []) (hbody : new.body ≠ []) :
    (savedUpTo disk new 3).metaFile (urlToFilename new.url) = some (metaText new) ∧
    (savedUpTo disk new 3).binFile (urlToFilename new.url) = some [] ∧
    (savedUpTo disk new 4).metaFile (urlToFilename new.url) = some (metaText new) ∧
    (savedUpTo disk new 4).binFile (urlToFilename new.url) = some new.body := by
  unfold savedUpTo saveWrites
  rw [if_neg hurl]
  simp [DiskWrite.exec, hbody]

/-! ## The theorem -/

/-- The states in between show what a body may be. -/
theorem crashSafe_of_consistent (hsized : new.Sized) (hurl : new.url ≠ [])
    (hnamed : (asRead new []).url = new.url) (hcrash : CrashConsistent disk new) :
    CrashSafe disk new := by
  have hwritten := fun k h => load_written (savedUpTo disk new k) hurl hsized h hnamed
  obtain ⟨hmeta, hbin⟩ := savedUpTo_two disk hurl
  have hkept := hcrash 2
  rw [hwritten 2 hmeta, hbin] at hkept
  refine Or.inr (Or.inr ?_)
  rcases eq_or_ne new.body [] with hbody | hbody
  · rw [if_pos hbody, asRead_allowed hsized] at hkept
    exact Or.inl ⟨hbody, hkept.symm.imp_left And.left⟩
  · obtain ⟨hmeta₃, hbin₃, hmeta₄, hbin₄⟩ := savedUpTo_body disk hurl hbody
    have hempty := hcrash 3
    rw [hwritten 3 hmeta₃, hbin₃, if_neg hbody, Option.map_some, List.take_nil,
      asRead_allowed hsized] at hempty
    have hfull := hcrash 4
    rw [hwritten 4 hmeta₄, hbin₄, if_neg hbody, Option.map_some, List.take_length,
      asRead_allowed hsized] at hfull
    have hold : loadFromDisk disk new.url = some (asRead new []) :=
      hempty.resolve_right fun h => hbody h.2.symm
    have hplain : new.Plain := by
      refine (hfull.resolve_left fun h => hbody ?_).1
      exact congrArg MiniCacheEntry.body (Option.some.inj (h.symm.trans hold))
    refine Or.inr ⟨hbody, hplain, ?_, fun bin hbin => ?_⟩
    · rw [hold, asRead_of_plain hsized hplain]
    · rw [hbin, if_neg hbody, Option.map_some, asRead_allowed hsized, hold] at hkept
      refine hkept.imp (fun h => ?_) And.right
      exact (congrArg MiniCacheEntry.body (Option.some.inj h)).symm

/-- The old entry without a body and the new one are all that is read. -/
theorem load_allowed (hsized : new.Sized) (hplain : new.Plain) {body : Bytes}
    (hbody : body = [] ∨ body = new.body) :
    some (asRead new body) = none ∨ some (asRead new body) = some (asRead new []) ∨
      some (asRead new body) = some new := by
  rcases hbody with rfl | rfl
  · exact Or.inr (Or.inl rfl)
  · exact (asRead_allowed hsized).2 (Or.inr ⟨hplain, rfl⟩)

theorem consistent_of_crashSafe (hsized : new.Sized) (hurl : new.url ≠ [])
    (hnamed : (asRead new []).url = new.url) (hsafe : CrashSafe disk new) :
    CrashConsistent disk new := by
  intro k
  rcases savedUpTo_cases disk hurl k with h | h | ⟨hmeta, hbin⟩
  · exact Or.inr (Or.inl (by rw [h]))
  · exact Or.inl (load_truncated hurl h)
  rw [load_written (savedUpTo disk new k) hurl hsized hmeta hnamed]
  rcases hsafe with h | h | ⟨hbody, hsafe⟩ | ⟨hbody, hplain, hold, hfits⟩
  · exact absurd h hurl
  · exact absurd hnamed h
  · rw [if_pos hbody, asRead_allowed hsized]
    exact hsafe.symm.imp_right fun hplain => ⟨hplain, hbody.symm⟩
  · rw [if_neg hbody, hold, ← asRead_of_plain hsized hplain]
    rcases hbin with hbin | ⟨-, hbin | hbin⟩
    · rw [hbin]
      cases hfile : disk.binFile (urlToFilename new.url) with
      | none => exact Or.inl rfl
      | some bin => exact load_allowed hsized hplain (hfits bin hfile)
    · rw [hbin, Option.map_some, List.take_nil]
      exact load_allowed hsized hplain (Or.inl rfl)
    · rw [hbin, Option.map_some, List.take_length]
      exact load_allowed hsized hplain (Or.inr rfl)

/-- A save that is cut off leaves nothing, the old entry or the new one exactly if the new meta
file does not even name its URL, or there is no body to be missed, or the old entry is the new one
without its body, and what is in the old file does not count or is the new body. -/
theorem crashConsistent_iff (disk : CacheDisk Unit) (new : MiniCacheEntry Unit)
    (hsized : new.Sized) : CrashConsistent disk new ↔ CrashSafe disk new := by
  rcases eq_or_ne new.url [] with hurl | hurl
  · have hnothing : ∀ disk : CacheDisk Unit, loadFromDisk disk new.url = none := fun disk => by
      rw [loadFromDisk, if_pos hurl]
    exact ⟨fun _ => Or.inl hurl, fun _ k => Or.inl (hnothing _)⟩
  rcases ne_or_eq (asRead new []).url new.url with hnamed | hnamed
  · refine ⟨fun _ => Or.inr (Or.inl hnamed), fun _ k => ?_⟩
    rcases savedUpTo_cases disk hurl k with h | h | ⟨h, -⟩
    · exact Or.inr (Or.inl (by rw [h]))
    · exact Or.inl (load_truncated hurl h)
    · exact Or.inl (load_unnamed h hnamed)
  · exact ⟨crashSafe_of_consistent hsized hurl hnamed, consistent_of_crashSafe hsized hurl hnamed⟩

/-- The old entry is "old", the new one "newer". -/
def crashEntry (body etag : Bytes) : MiniCacheEntry Unit :=
  { url := ascii "https://x/y", status := 200, mime := ascii "text/plain", body := body
    etag := etag, lastModified := [], storedAt := 0, maxAge := 60, noCache := 0, noStore := 0
    origin := () }

theorem crashEntry_sized : (crashEntry (ascii "newer") (ascii "2")).Sized := by
  constructor <;> decide

theorem crashConsistent_iff_newer :
    (crashEntry (ascii "newer") (ascii "2")).Sized ∧
    (CrashConsistent ⟨fun _ => none, fun _ => none, fun _ => ()⟩
      (crashEntry (ascii "newer") (ascii "2")) ↔
    CrashSafe ⟨fun _ => none, fun _ => none, fun _ => ()⟩
      (crashEntry (ascii "newer") (ascii "2"))) :=
  ⟨crashEntry_sized, crashConsistent_iff _ _ crashEntry_sized⟩

/-- Cut off after its meta file, the new entry is loaded with the body of the old one. -/
theorem newer_meta_older_body : ¬ CrashConsistent
    (saveToDisk ⟨fun _ => none, fun _ => none, fun _ => ()⟩ (crashEntry (ascii "old") (ascii "1")))
    (crashEntry (ascii "newer") (ascii "2")) := by
  intro hcrash
  have hkept := hcrash 2
  revert hkept
  decide

end TinyFramework.Net
