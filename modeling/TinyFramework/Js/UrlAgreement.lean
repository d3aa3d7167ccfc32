/-
  Js/UrlAgreement.lean --- the resolvers agree for pages served from the site root.

  The three results are compared with each other and with the RFC for each kind of reference.
  The one of `script_resolve_url` is the reference behind the origin, so the others agree with
  it only where the base has no directory and the reference needs no change.
-/
import TinyFramework.Js.UrlResolve

set_option autoImplicit false

namespace TinyFramework.Js

open TinyFramework.Foundation

/-! ## Dot segments -/

theorem mem_removeDots :
    ∀ (segs out : List UrlText), ∀ s ∈ removeDots segs out,
      s ∈ out ∨ s = [] ∨ (s ∈ segs ∧ ¬ IsDots s)
  | [], out, s, hs => .inl (List.mem_reverse.1 hs)
  | [seg], out, s, hs => by
      unfold removeDots at hs
      split_ifs at hs with hdot hdots
      · rcases List.mem_cons.1 (List.mem_reverse.1 hs) with rfl | hs
        · exact .inr (.inl rfl)
        · exact .inl hs
      · rcases List.mem_cons.1 (List.mem_reverse.1 hs) with rfl | hs
        · exact .inr (.inl rfl)
        · exact .inl (List.mem_of_mem_tail hs)
      · rcases List.mem_cons.1 (List.mem_reverse.1 hs) with rfl | hs
        · exact .inr (.inr ⟨List.mem_cons_self, fun h => h.elim hdot hdots⟩)
        · exact .inl hs
  | seg :: seg' :: rest, out, s, hs => by
      unfold removeDots at hs
      have hlater : ∀ out', s ∈ removeDots (seg' :: rest) out' →
          s ∈ out' ∨ s = [] ∨ (s ∈ seg :: seg' :: rest ∧ ¬ IsDots s) := by
        intro out' hs'
        rcases mem_removeDots (seg' :: rest) out' s hs' with h | h | ⟨h, hdots⟩
        · exact .inl h
        · exact .inr (.inl h)
        · exact .inr (.inr ⟨List.mem_cons_of_mem _ h, hdots⟩)
      split_ifs at hs with hdot hdots
      · exact hlater _ hs
      · rcases hlater _ hs with h | h
        · exact .inl (List.mem_of_mem_tail h)
        · exact .inr h
      · rcases hlater _ hs with h | h
        · rcases List.mem_cons.1 h with rfl | h
          · exact .inr (.inr ⟨List.mem_cons_self, fun h => h.elim hdot hdots⟩)
          · exact .inl h
        · exact .inr h

theorem removeDots_plain :
    ∀ (segs out : List UrlText), (∀ s ∈ segs, ¬ IsDots s) →
      removeDots segs out = out.reverse ++ segs
  | [], out, _ => (List.append_nil _).symm
  | [seg], out, h => by
      have hseg := h seg List.mem_cons_self
      unfold removeDots
      rw [if_neg fun h => hseg (.inl h), if_neg fun h => hseg (.inr h), List.reverse_cons]
  | seg :: seg' :: rest, out, h => by
      have hseg := h seg List.mem_cons_self
      unfold removeDots
      rw [if_neg fun h => hseg (.inl h), if_neg fun h => hseg (.inr h),
        removeDots_plain (seg' :: rest) (seg :: out) fun s hs => h s (List.mem_cons_of_mem _ hs)]
      simp

/-- The RFC leaves a path as it is exactly when it has no dot segments. -/
theorem removeDotSegments_eq_iff (t : UrlText) :
    removeDotSegments ('/' :: t) = '/' :: t ↔ NoDots ('/' :: t) := by
  have hdots : NoDots ('/' :: t) ↔ ∀ s ∈ t.splitOn '/', ¬ IsDots s := by
    unfold NoDots
    rw [splitOn_sep_cons, List.forall_mem_cons]
    refine and_iff_right ?_
    rintro (h | h) <;> cases h
  have hrds : removeDotSegments ('/' :: t) = segmented '/' (removeDots (t.splitOn '/') []) := rfl
  rw [hdots, hrds]
  constructor
  · intro h
    have hmem := mem_removeDots (t.splitOn '/') []
    have hsplit : t.splitOn '/' = removeDots (t.splitOn '/') [] := by
      apply splitOn_eq_of_segmented _ h
      intro s hs
      rcases hmem s hs with hs | rfl | ⟨hs, -⟩
      · exact absurd hs List.not_mem_nil
      · exact List.not_mem_nil
      · exact not_mem_of_mem_splitOn t s hs
    intro s hs
    rw [hsplit] at hs
    rcases hmem s hs with hs | rfl | ⟨-, hplain⟩
    · exact absurd hs List.not_mem_nil
    · rintro (h | h) <;> cases h
    · exact hplain
  · intro h
    rw [removeDots_plain _ _ h, List.reverse_nil, List.nil_append, segmented_splitOn]

/-! ## The texts -/

theorem urlSuffix_head (query fragment : Option UrlText) :
    ∀ c ∈ (urlSuffix query fragment).head?, c = '?' ∨ c = '#' := by
  intro c hc
  unfold urlSuffix at hc
  match query, fragment, hc with
  | some _, _, hc =>
      cases hc
      exact .inl rfl
  | none, some _, hc =>
      cases hc
      exact .inr rfl

/-- What follows the authority of a base. -/
def HttpUrl.tail (b : HttpUrl) : UrlText := b.path ++ b.suffix

theorem HttpUrl.text_eq (b : HttpUrl) :
    b.text = b.scheme ++ "://".toList ++ (b.authority ++ b.tail) := by
  unfold HttpUrl.text HttpUrl.origin HttpUrl.tail
  simp only [List.append_assoc]

theorem HttpUrl.tail_head (b : HttpUrl) :
    ∀ c ∈ b.tail.head?, (c = '/' ∧ b.path ≠ []) ∨ ((c = '?' ∨ c = '#') ∧ b.path = []) := by
  intro c hc
  unfold HttpUrl.tail at hc
  rcases b.path_slash with hnil | hslash
  · rw [hnil, List.nil_append] at hc
    exact .inr ⟨urlSuffix_head _ _ c hc, hnil⟩
  · cases hpath : b.path with
    | nil =>
        rw [hpath] at hslash
        cases hslash
    | cons d path =>
        rw [hpath] at hc hslash
        cases hc
        cases hslash
        exact .inl ⟨rfl, List.cons_ne_nil _ _⟩

theorem schemeEnd_text (b : HttpUrl) : schemeEnd b.text = some b.scheme.length := by
  rw [b.text_eq]
  rcases b.scheme_http with h | h <;> rw [h] <;> rfl

theorem take_text (b : HttpUrl) :
    b.text.take (b.scheme.length + 3) = b.scheme ++ "://".toList := by
  rw [b.text_eq]
  exact List.take_left' (by simp)

theorem drop_text (b : HttpUrl) :
    b.text.drop (b.scheme.length + 3) = b.authority ++ b.tail := by
  rw [b.text_eq]
  exact List.drop_left' (by simp)

theorem authority_noSlash (b : HttpUrl) : ∀ c ∈ b.authority, decide (c ≠ '/') = true :=
  fun c hc => decide_eq_true (b.authority_plain c hc).1

/-- The base up to the first slash behind the authority. -/
def HttpUrl.upToSlash (b : HttpUrl) : UrlText := b.origin ++ b.tail.takeWhile (· ≠ '/')

theorem takeWhile_host (b : HttpUrl) :
    (b.authority ++ b.tail).takeWhile (· ≠ '/') = b.authority ++ b.tail.takeWhile (· ≠ '/') :=
  List.takeWhile_append_of_pos (authority_noSlash b)

theorem dropWhile_host (b : HttpUrl) :
    (b.authority ++ b.tail).dropWhile (· ≠ '/') = b.tail.dropWhile (· ≠ '/') :=
  List.dropWhile_append_of_pos (authority_noSlash b)

/-- The host of `script_resolve_url` ends where the authority does. -/
theorem takeWhile_authority (b : HttpUrl) :
    ((b.authority ++ b.tail).takeWhile fun c => c ≠ '/' ∧ c ≠ '?' ∧ c ≠ '#') = b.authority := by
  rw [List.takeWhile_append_of_pos fun c hc => decide_eq_true (b.authority_plain c hc)]
  have hnone : (b.tail.takeWhile fun c => decide (c ≠ '/' ∧ c ≠ '?' ∧ c ≠ '#')) = [] := by
    cases htail : b.tail with
    | nil => rfl
    | cons c tail =>
        have hhead := b.tail_head c (by rw [htail]; rfl)
        apply List.takeWhile_cons_of_neg
        rw [decide_eq_true_iff]
        rintro ⟨hslash, hquery, hfragment⟩
        rcases hhead with ⟨h, -⟩ | ⟨h | h, -⟩
        · exact hslash h
        · exact hquery h
        · exact hfragment h
  rw [hnone, List.append_nil]

theorem isHttp_base (b : HttpUrl) : isHttp b.text = true := by
  rw [b.text_eq]
  rcases b.scheme_http with h | h <;> rw [h] <;> rfl

/-- The base up to its first slash ends with the authority exactly when there is a path or
nothing behind the authority. -/
theorem upToSlash_eq_origin_iff (b : HttpUrl) :
    b.upToSlash = b.origin ↔ b.path ≠ [] ∨ b.suffix = [] := by
  unfold HttpUrl.upToSlash
  rw [List.append_right_eq_self]
  cases htail : b.tail with
  | nil =>
      have hnil := List.append_eq_nil_iff.1 htail
      exact iff_of_true rfl (.inr hnil.2)
  | cons c tail =>
      rcases b.tail_head c (by rw [htail]; rfl) with ⟨rfl, hpath⟩ | ⟨hc, hpath⟩
      · exact iff_of_true rfl (.inl hpath)
      · have hne : c ≠ '/' := by
          rintro rfl
          rcases hc with hc | hc <;> cases hc
        rw [List.takeWhile_cons_of_pos (p := fun d => decide (d ≠ '/')) (decide_eq_true hne)]
        refine iff_of_false (List.cons_ne_nil _ _) ?_
        rintro (hne' | hsuffix)
        · exact hne' hpath
        · unfold HttpUrl.tail at htail
          rw [hpath, hsuffix] at htail
          cases htail

/-! ## The three resolvers on them -/

theorem miniUrlJoin_text (b : HttpUrl) (ref : UrlText) :
    miniUrlJoin b.text ref = b.upToSlash ++ joinedPath
      ((if ref.head? = some '/' then [] else upToLast (b.tail.dropWhile (· ≠ '/'))) ++ ref) := by
  unfold miniUrlJoin
  rw [schemeEnd_text]
  dsimp only
  rw [joinRun_out]
  unfold joinParts
  dsimp only
  rw [drop_text, take_text, takeWhile_host, dropWhile_host, ← List.append_assoc]
  rfl

theorem text_ne_nil (b : HttpUrl) : b.text ≠ [] := by
  rw [b.text_eq]
  rcases b.scheme_http with h | h <;> rw [h] <;> exact List.cons_ne_nil _ _

theorem miniUrlHref_text (b : HttpUrl) {ref : UrlText} (h : hasScheme ref = false) :
    miniUrlHref ref b.text =
      if ref.head? = some '/' then b.upToSlash ++ ref else upToLast b.text ++ ref := by
  have hcond : b.text ≠ [] ∧ (!hasScheme ref) = true := by
    rw [h]
    exact ⟨text_ne_nil b, rfl⟩
  unfold miniUrlHref
  rw [if_pos hcond, schemeEnd_text]
  dsimp only
  rw [drop_text, take_text, takeWhile_host, ← List.append_assoc]
  rfl

theorem isHttp_of_not_hasScheme {t : UrlText} (h : hasScheme t = false) : isHttp t = false := by
  cases ht : isHttp t with
  | false => rfl
  | true =>
      unfold isHttp at ht
      rw [Bool.or_eq_true] at ht
      rcases ht with ht | ht
      all_goals
        obtain ⟨u, rfl⟩ := List.isPrefixOf_iff_prefix.1 ht
        exact Bool.noConfusion h

/-- What `script_resolve_url` prints for a reference without a scheme. -/
def scriptForm (b : HttpUrl) (ref : UrlText) : UrlText :=
  if ref.take 2 = ['/', '/'] then b.scheme ++ ':' :: ref
  else if ref.head? = some '/' then b.origin ++ ref
  else b.origin ++ '/' :: ref

theorem scriptResolved_text (b : HttpUrl) {ref : UrlText} (hne : ref ≠ [])
    (h : hasScheme ref = false) : scriptResolved b.text ref = some (scriptForm b ref) := by
  have hscheme : b.text.take b.scheme.length = b.scheme := by
    rw [b.text_eq, List.append_assoc, List.take_left]
  unfold scriptResolved
  rw [if_neg hne, isHttp_of_not_hasScheme h, isHttp_base, schemeEnd_text]
  dsimp only
  rw [drop_text, take_text, takeWhile_authority, Option.getD_some, hscheme,
    if_neg Bool.false_ne_true, if_neg (by decide)]
  unfold scriptForm HttpUrl.origin
  split_ifs <;> rfl

/-! ## References -/

/-- The characters before a colon that would end a scheme belong to the first segment. -/
theorem mem_first_of_scheme {z : UrlText} (hz : ∀ c ∈ z.head?, c = '?' ∨ c = '#') :
    ∀ path : UrlText, ((path ++ z).dropWhile isSchemeChar).head? = some ':' →
      ':' ∈ path.takeWhile (· ≠ '/')
  | [], h => by
      rw [List.nil_append] at h
      cases z with
      | nil => cases h
      | cons c z =>
          rcases hz c rfl with rfl | rfl <;> cases h
  | c :: path, h => by
      rw [List.cons_append] at h
      cases hc : isSchemeChar c with
      | true =>
          have hslash : decide (c ≠ '/') = true := by
            apply decide_eq_true
            rintro rfl
            exact Bool.noConfusion hc
          rw [List.dropWhile_cons_of_pos hc] at h
          rw [List.takeWhile_cons_of_pos (p := fun d => decide (d ≠ '/')) hslash]
          exact List.mem_cons_of_mem _ (mem_first_of_scheme hz path h)
      | false =>
          rw [List.dropWhile_cons_of_neg (by rw [hc]; exact Bool.false_ne_true)] at h
          cases h
          exact List.mem_cons_self

theorem UrlReference.suffix_head (r : UrlReference) :
    ∀ c ∈ r.suffix.head?, c = '?' ∨ c = '#' :=
  urlSuffix_head _ _

theorem UrlReference.text_path {r : UrlReference} (h : r.authority = none) :
    r.text = r.path ++ r.suffix := by
  unfold UrlReference.text
  rw [h]
  rfl

theorem hasScheme_text (r : UrlReference) : hasScheme r.text = false := by
  cases hauthority : r.authority with
  | some a =>
      unfold UrlReference.text
      rw [hauthority]
      rfl
  | none =>
      rw [UrlReference.text_path hauthority]
      cases hpath : r.path with
      | nil =>
          rw [List.nil_append]
          cases hsuffix : r.suffix with
          | nil => rfl
          | cons c suffix =>
              rcases r.suffix_head c (by rw [hsuffix]; rfl) with rfl | rfl <;> rfl
      | cons c path =>
          have hcases : hasScheme (c :: path ++ r.suffix) = (c.isAlpha &&
              ((path ++ r.suffix).dropWhile isSchemeChar).head? == some ':') := rfl
          rw [hcases]
          cases hcolon : ((path ++ r.suffix).dropWhile isSchemeChar).head? == some ':' with
          | false => exact Bool.and_false _
          | true =>
              cases hc : c.isAlpha with
              | false => rfl
              | true =>
                  have hmem := mem_first_of_scheme r.suffix_head path (beq_iff_eq.1 hcolon)
                  have hslash : decide (c ≠ '/') = true := by
                    apply decide_eq_true
                    rintro rfl
                    exact Bool.noConfusion hc
                  have hno := r.no_scheme hauthority
                  rw [hpath, List.takeWhile_cons_of_pos (p := fun d => decide (d ≠ '/'))
                    hslash] at hno
                  exact absurd (List.mem_cons_of_mem _ hmem) hno

theorem text_ref_ne_nil (r : UrlReference) : r.text ≠ [] := by
  unfold UrlReference.text UrlReference.suffix urlSuffix
  rcases r.kind with h | h | h
  · cases ha : r.authority with
    | none => exact absurd ha h
    | some a => exact List.cons_ne_nil _ _
  · intro hnil
    exact h (List.append_eq_nil_iff.1 (List.append_eq_nil_iff.1 hnil).1).2
  · cases hq : r.query with
    | none => exact absurd hq h
    | some q =>
        intro hnil
        have hsuffix := (List.append_eq_nil_iff.1 hnil).2
        cases hsuffix

/-- `script_resolve_url` prints the whole text when it is short. -/
theorem scriptResolveUrl_eq {base src u : UrlText} (h : scriptResolved base src = some u)
    (hshort : ∀ v ∈ scriptResolved base src, v.length < fullurlCap) :
    scriptResolveUrl base src fullurlCap = some u := by
  have hlength := hshort u h
  unfold scriptResolveUrl
  rw [h, Option.map_some, List.take_of_length_le (by omega)]

theorem upToLast_split (t : UrlText) : ∃ w, t = upToLast t ++ w ∧ '/' ∉ w := by
  refine ⟨t.rtakeWhile (· ≠ '/'), List.rdropWhile_append_rtakeWhile.symm, ?_⟩
  intro hmem
  have hne := List.mem_rtakeWhile_imp hmem
  exact of_decide_eq_true hne rfl

theorem upToLast_append {u w : UrlText} (h : '/' ∉ w) :
    upToLast (u ++ '/' :: w) = u ++ ['/'] := by
  unfold upToLast
  have hw : ∀ c ∈ w, decide (c ≠ '/') = true := by
    intro c hc
    apply decide_eq_true
    rintro rfl
    exact h hc
  rw [← List.singleton_append, ← List.append_assoc]
  unfold List.rdropWhile
  rw [List.reverse_append, List.dropWhile_append_of_pos fun c hc => hw c (List.mem_reverse.1 hc)]
  simp

theorem upToLast_slash {w : UrlText} (h : '/' ∉ w) : upToLast ('/' :: w) = ['/'] :=
  upToLast_append (u := []) h

/-! ## The three kinds of references -/

/-- With an authority in the reference the resolvers never agree. -/
theorem not_alike_of_authority {b : HttpUrl} {r : UrlReference} (h : r.authority ≠ none)
    (hshort : ∀ v ∈ scriptResolved b.text r.text, v.length < fullurlCap) :
    ¬ ResolveAlike b r := by
  obtain ⟨a, ha⟩ := Option.ne_none_iff_exists'.1 h
  have htext : r.text = '/' :: '/' :: (a ++ r.path ++ r.suffix) := by
    unfold UrlReference.text
    rw [ha]
    rfl
  rintro ⟨-, hscript, hhref⟩
  have hform : scriptForm b r.text = b.scheme ++ ':' :: r.text := by
    unfold scriptForm
    rw [htext]
    rfl
  have hprinted := scriptResolved_text b (text_ref_ne_nil r) (hasScheme_text r)
  rw [scriptResolveUrl_eq hprinted hshort, hform] at hscript
  rw [miniUrlHref_text b (hasScheme_text r), if_pos (by rw [htext]; rfl),
    ← Option.some.inj hscript] at hhref
  have hlength := congrArg List.length hhref
  unfold HttpUrl.upToSlash HttpUrl.origin at hlength
  simp only [List.length_append, List.length_cons] at hlength
  have hthree : "://".toList.length = 3 := rfl
  omega

/-- An absolute path. -/
theorem alike_iff_of_absolute {b : HttpUrl} {r : UrlReference} (h : r.authority = none)
    (hslash : r.path.head? = some '/')
    (hshort : ∀ v ∈ scriptResolved b.text r.text, v.length < fullurlCap) :
    ResolveAlike b r ↔ NoDots r.path ∧
      (b.path ≠ [] ∨ b.suffix = []) ∧ (r.text = ['/'] ∨ PlainSegments r.text.tail) := by
  obtain ⟨path, hpath⟩ := List.head?_eq_some_iff.1 hslash
  have htext : r.text = '/' :: (path ++ r.suffix) := by
    rw [UrlReference.text_path h, hpath]
    rfl
  have hhead : r.text.head? = some '/' := by rw [htext]; rfl
  have hform : scriptForm b r.text = b.origin ++ r.text := by
    have hsingle : r.text.take 2 ≠ ['/', '/'] := by
      have hpair := r.path_single h
      rw [hpath] at hpair
      rw [htext]
      cases path with
      | cons c path => exact hpair
      | nil =>
          cases hsuffix : r.suffix with
          | nil => exact nofun
          | cons c suffix =>
              rcases r.suffix_head c (by rw [hsuffix]; rfl) with rfl | rfl <;> exact nofun
    unfold scriptForm
    rw [if_neg hsingle, if_pos hhead]
  have hprinted := scriptResolved_text b (text_ref_ne_nil r) (hasScheme_text r)
  have htarget : resolveReference b r = b.origin ++ removeDotSegments r.path ++ r.suffix := by
    unfold resolveReference
    rw [h]
    dsimp only
    rw [if_neg (by rw [hpath]; exact List.cons_ne_nil _ _), if_pos hslash]
  have hrds : resolveReference b r = b.origin ++ r.text ↔ NoDots r.path := by
    rw [htarget, UrlReference.text_path h, List.append_assoc, List.append_cancel_left_eq,
      List.append_cancel_right_eq, hpath]
    exact removeDotSegments_eq_iff path
  have hjoin : miniUrlJoin b.text r.text = b.upToSlash ++ joinedPath r.text := by
    rw [miniUrlJoin_text, if_pos hhead, List.nil_append]
  have hplain : joinedPath r.text = r.text ↔ r.text = ['/'] ∨ PlainSegments r.text.tail := by
    rw [htext, joinedPath_eq_iff]
    refine or_congr_left ?_
    constructor
    · intro hnil
      rw [hnil]
    · intro hone
      exact (List.cons.inj hone).2
  have hhref : miniUrlHref r.text b.text = b.upToSlash ++ r.text := by
    rw [miniUrlHref_text b (hasScheme_text r), if_pos hhead]
  rw [← hrds, ← upToSlash_eq_origin_iff, ← hplain]
  constructor
  · rintro ⟨hjoin', hscript', hhref'⟩
    rw [scriptResolveUrl_eq hprinted hshort, hform] at hscript'
    have hresolved := Option.some.inj hscript'
    rw [hhref, ← hresolved, List.append_cancel_right_eq] at hhref'
    rw [hjoin, ← hresolved, hhref', List.append_cancel_left_eq] at hjoin'
    exact ⟨hresolved.symm, hhref', hjoin'⟩
  · rintro ⟨hresolved, hupTo, hsame⟩
    refine ⟨?_, ?_, ?_⟩
    · rw [hjoin, hupTo, hsame, hresolved]
    · rw [scriptResolveUrl_eq hprinted hshort, hform, hresolved]
    · rw [hhref, hupTo, hresolved]

/-- What follows the authority is a slash and a text without slashes. -/
theorem tail_eq_iff (b : HttpUrl) :
    (∃ w, b.tail = '/' :: w ∧ '/' ∉ w) ↔
      (∃ file, b.path = '/' :: file ∧ '/' ∉ file) ∧ '/' ∉ b.suffix := by
  constructor
  · rintro ⟨w, hw, hno⟩
    have hpath : b.path ≠ [] := by
      rcases b.tail_head '/' (by rw [hw]; rfl) with ⟨-, hne⟩ | ⟨h | h, -⟩
      · exact hne
      · cases h
      · cases h
    obtain ⟨c, file, hfile⟩ := List.exists_cons_of_ne_nil hpath
    unfold HttpUrl.tail at hw
    rw [hfile, List.cons_append] at hw
    obtain ⟨rfl, rfl⟩ := List.cons.inj hw
    refine ⟨⟨file, hfile, fun hmem => hno (List.mem_append_left _ hmem)⟩, ?_⟩
    intro hmem
    exact hno (List.mem_append_right _ hmem)
  · rintro ⟨⟨file, hfile, hno⟩, hsuffix⟩
    refine ⟨file ++ b.suffix, ?_, ?_⟩
    · unfold HttpUrl.tail
      rw [hfile]
      rfl
    · intro hmem
      rcases List.mem_append.1 hmem with hmem | hmem
      · exact hno hmem
      · exact hsuffix hmem

/-- `MiniURL` takes the base up to the slash behind the authority exactly when that is the
last slash. -/
theorem upToLast_text_iff (b : HttpUrl) :
    upToLast b.text = b.origin ++ ['/'] ↔ ∃ w, b.tail = '/' :: w ∧ '/' ∉ w := by
  have htext : b.text = b.origin ++ b.tail := by
    unfold HttpUrl.text HttpUrl.tail
    rw [List.append_assoc]
  constructor
  · intro h
    obtain ⟨w, hw, hno⟩ := upToLast_split b.text
    rw [h, htext, List.append_assoc, List.append_cancel_left_eq] at hw
    exact ⟨w, hw, hno⟩
  · rintro ⟨w, hw, hno⟩
    rw [htext, hw]
    exact upToLast_append hno

theorem noDots_cons (path : UrlText) : NoDots ('/' :: path) ↔ NoDots path := by
  unfold NoDots
  rw [splitOn_sep_cons, List.forall_mem_cons]
  refine and_iff_right ?_
  rintro (h | h) <;> cases h

section Relative

variable {b : HttpUrl} {r : UrlReference} (h : r.authority = none)
  (hslash : r.path.head? ≠ some '/')
include h hslash

theorem head_text_of_relative : r.text.head? ≠ some '/' := by
  rw [UrlReference.text_path h]
  cases hpath : r.path with
  | nil =>
      intro hsuffix
      rcases r.suffix_head '/' hsuffix with hc | hc <;> cases hc
  | cons c path =>
      rw [hpath] at hslash
      exact hslash

/-- `script_resolve_url` puts the reference behind the origin. -/
theorem scriptForm_of_relative (b : HttpUrl) :
    scriptForm b r.text = b.origin ++ '/' :: r.text := by
  have hhead := head_text_of_relative h hslash
  have hpair : r.text.take 2 ≠ ['/', '/'] := by
    intro hpair
    apply hhead
    cases ht : r.text with
    | nil => exact absurd ht (text_ref_ne_nil r)
    | cons c t =>
        rw [ht] at hpair
        rw [(List.cons.inj hpair).1]
        rfl
  unfold scriptForm
  rw [if_neg hpair, if_neg hhead]

/-- `mini_url_join` does so for a base at the root, if every segment is plain. -/
theorem miniUrlJoin_at_root {w : UrlText} (hw : b.tail = '/' :: w) (hno : '/' ∉ w) :
    miniUrlJoin b.text r.text = b.origin ++ '/' :: r.text ↔ PlainSegments r.text := by
  obtain ⟨⟨file, hfile, -⟩, -⟩ := (tail_eq_iff b).1 ⟨w, hw, hno⟩
  have hpathNe : b.path ≠ [] := by
    rw [hfile]
    exact List.cons_ne_nil _ _
  have hdir : upToLast (b.tail.dropWhile (· ≠ '/')) = ['/'] := by
    rw [hw, List.dropWhile_cons_of_neg (by simp)]
    exact upToLast_slash hno
  rw [miniUrlJoin_text, if_neg (head_text_of_relative h hslash), hdir,
    (upToSlash_eq_origin_iff b).2 (.inl hpathNe), List.append_cancel_left_eq]
  exact (joinedPath_eq_iff r.text).trans (or_iff_right (text_ref_ne_nil r))

/-- And so does the RFC, if there are no dot segments. -/
theorem resolveReference_at_root {w : UrlText} (hw : b.tail = '/' :: w) (hno : '/' ∉ w) :
    resolveReference b r = b.origin ++ '/' :: r.text ↔
      NoDots r.path ∧ (r.path = [] → b.path = ['/']) := by
  have htext := UrlReference.text_path h
  obtain ⟨⟨file, hfile, hfileNo⟩, -⟩ := (tail_eq_iff b).1 ⟨w, hw, hno⟩
  have hpathNe : b.path ≠ [] := by
    rw [hfile]
    exact List.cons_ne_nil _ _
  unfold resolveReference
  rw [h]
  dsimp only
  by_cases hpath : r.path = []
  · have hquery : r.query.or b.query = r.query := by
      rcases r.kind with hk | hk | hk
      · exact absurd h hk
      · exact absurd hpath hk
      · obtain ⟨q, hq⟩ := Option.ne_none_iff_exists'.1 hk
        rw [hq]
        rfl
    rw [if_pos hpath, hquery, List.append_assoc, List.append_cancel_left_eq, htext, hpath,
      List.nil_append]
    have hnoDots : NoDots [] := by
      intro s hs
      rw [List.splitOn_nil, List.mem_singleton] at hs
      rw [hs]
      rintro (hd | hd) <;> cases hd
    constructor
    · intro heq
      refine ⟨hnoDots, fun _ => ?_⟩
      exact List.append_cancel_right heq
    · rintro ⟨-, hbase⟩
      rw [hbase rfl]
      rfl
  · have hmerge : mergePaths b.path r.path = '/' :: r.path := by
      unfold mergePaths
      rw [if_neg hpathNe, hfile, upToLast_slash hfileNo]
      rfl
    rw [if_neg hpath, if_neg hslash, hmerge, List.append_assoc, List.append_cancel_left_eq,
      htext, ← List.cons_append, List.append_cancel_right_eq, removeDotSegments_eq_iff,
      noDots_cons]
    exact (and_iff_left fun hnil => absurd hnil hpath).symm

/-- A path that is not absolute, or a query alone. -/
theorem alike_iff_of_relative (hshort : ∀ v ∈ scriptResolved b.text r.text, v.length < fullurlCap) :
    ResolveAlike b r ↔ NoDots r.path ∧
      ((∃ file, b.path = '/' :: file ∧ '/' ∉ file ∧ (r.path = [] → file = [])) ∧
        '/' ∉ b.suffix) ∧ PlainSegments r.text := by
  have hform := scriptForm_of_relative h hslash b
  have hprinted := scriptResolved_text b (text_ref_ne_nil r) (hasScheme_text r)
  have hhref : miniUrlHref r.text b.text = upToLast b.text ++ r.text := by
    rw [miniUrlHref_text b (hasScheme_text r), if_neg (head_text_of_relative h hslash)]
  constructor
  · rintro ⟨hjoin, hscript, hconstructor⟩
    rw [scriptResolveUrl_eq hprinted hshort, hform] at hscript
    have hresolved := (Option.some.inj hscript).symm
    rw [hhref, hresolved, ← List.singleton_append, ← List.append_assoc,
      List.append_cancel_right_eq, upToLast_text_iff] at hconstructor
    obtain ⟨w, hw, hno⟩ := hconstructor
    have hjoinIff := miniUrlJoin_at_root h hslash hw hno
    have hresolveIff := resolveReference_at_root h hslash hw hno
    rw [hresolved] at hjoin
    obtain ⟨hnoDots, hquery⟩ := hresolveIff.1 hresolved
    obtain ⟨⟨file, hfile, hfileNo⟩, hsuffix⟩ := (tail_eq_iff b).1 ⟨w, hw, hno⟩
    refine ⟨hnoDots, ⟨⟨file, hfile, hfileNo, ?_⟩, hsuffix⟩, hjoinIff.1 hjoin⟩
    intro hpath
    have hbase := hquery hpath
    rw [hfile] at hbase
    exact (List.cons.inj hbase).2
  · rintro ⟨hnoDots, ⟨⟨file, hfile, hfileNo, hquery⟩, hsuffix⟩, hplain⟩
    obtain ⟨w, hw, hno⟩ := (tail_eq_iff b).2 ⟨⟨file, hfile, hfileNo⟩, hsuffix⟩
    have hjoinIff := miniUrlJoin_at_root h hslash hw hno
    have hresolveIff := resolveReference_at_root h hslash hw hno
    have hresolved := hresolveIff.2 ⟨hnoDots, fun hpath => by rw [hfile, hquery hpath]⟩
    refine ⟨?_, ?_, ?_⟩
    · rw [hjoinIff.2 hplain, hresolved]
    · rw [scriptResolveUrl_eq hprinted hshort, hform, hresolved]
    · rw [hhref, (upToLast_text_iff b).2 ⟨w, hw, hno⟩, hresolved, List.append_assoc]
      rfl

end Relative

/-- The resolvers agree exactly for pages at the root and plain references. -/
theorem alike_iff_atRoot (b : HttpUrl) (r : UrlReference)
    (hshort : ∀ v ∈ scriptResolved b.text r.text, v.length < fullurlCap) :
    ResolveAlike b r ↔ AtRoot b r := by
  cases h : r.authority with
  | some a =>
      have hne : r.authority ≠ none := by
        rw [h]
        exact Option.some_ne_none a
      exact iff_of_false (not_alike_of_authority hne hshort) fun hroot => hne hroot.authority
  | none =>
      by_cases hslash : r.path.head? = some '/'
      · rw [alike_iff_of_absolute h hslash hshort]
        constructor
        · rintro ⟨hnoDots, hbase⟩
          exact ⟨h, hnoDots, fun _ => hbase, fun hne => absurd hslash hne⟩
        · intro hroot
          exact ⟨hroot.noDots, hroot.absolute hslash⟩
      · rw [alike_iff_of_relative h hslash hshort]
        constructor
        · rintro ⟨hnoDots, hbase⟩
          exact ⟨h, hnoDots, fun heq => absurd heq hslash, fun _ => hbase⟩
        · intro hroot
          exact ⟨hroot.noDots, hroot.relative hslash⟩

/-- For every base and reference whose result fits `script_resolve_url`, the three resolvers
yield what the RFC prescribes exactly for pages at the root and plain references; and for all
texts `mini_url_join` writes within its buffer, and it keeps every segment exactly when its
stack has room for each. -/
theorem resolvers_spec (b : HttpUrl) (r : UrlReference) (base ref : UrlText) (i : Nat) :
    ((∀ v ∈ scriptResolved b.text r.text, v.length < fullurlCap) →
      (ResolveAlike b r ↔ AtRoot b r)) ∧
    (joinRun (joinParts base ref i)).written ≤ (joinParts base ref i).cap ∧
    ((joinRun (joinParts base ref i)).dropped = false ↔
      SegmentsFit 0 (joinSegments (joinParts base ref i).raw)) :=
  ⟨alike_iff_atRoot b r, joinRun_written base ref i, joinRun_dropped _⟩

/-- `http://h/index.html` -/
def rootPage : HttpUrl where
  scheme := "http".toList
  authority := "h".toList
  path := "/index.html".toList
  query := none
  fragment := none
  scheme_http := .inl rfl
  authority_ne := by decide
  authority_plain := by simp
  path_slash := .inr rfl
  path_plain := by simp
  query_plain := nofun

/-- `http://h/a/b.js` -/
def innerModule : HttpUrl where
  scheme := "http".toList
  authority := "h".toList
  path := "/a/b.js".toList
  query := none
  fragment := none
  scheme_http := .inl rfl
  authority_ne := by decide
  authority_plain := by simp
  path_slash := .inr rfl
  path_plain := by simp
  query_plain := nofun

/-- `c.js` -/
def plainFile : UrlReference where
  authority := none
  path := "c.js".toList
  query := none
  fragment := none
  authority_plain := nofun
  path_plain := by simp
  path_network := fun h => absurd rfl h
  path_single := fun _ => by decide
  no_scheme := fun _ => by decide
  query_plain := nofun
  kind := .inr (.inl (by decide))

/-- A file beside the page at the root. -/
theorem resolvers_spec_root :
    AtRoot rootPage plainFile ∧ ResolveAlike rootPage plainFile := by
  have hdots : ∀ s ∈ plainFile.path.splitOn '/', s ≠ [] ∧ ¬ (s = ['.'] ∨ s = ['.', '.']) := by
    decide
  have hroot : AtRoot rootPage plainFile :=
    { authority := rfl
      noDots := fun s hs => (hdots s hs).2
      absolute := fun h => absurd h (by decide)
      relative := fun _ => ⟨⟨⟨"index.html".toList, rfl, by decide, by decide⟩, by decide⟩,
        by decide, hdots⟩ }
  exact ⟨hroot, ((resolvers_spec rootPage plainFile [] [] 0).1 (by decide)).2 hroot⟩

/-- A file beside a module that is not at the root: `script_resolve_url` puts it at the root. -/
theorem beside_inner_module : ¬ ResolveAlike innerModule plainFile := by
  rintro ⟨-, hscript, -⟩
  exact absurd hscript (by decide)

end TinyFramework.Js
