/-
  Js/UrlResolve.lean --- resolving and joining of URLs.

  `mini_url_join` serves module imports, `script_resolve_url` script sources and `fetch`, and
  `MiniURL` is the URL constructor.  Beside them stands the resolution of RFC 3986, section
  5.2, on the components of the two texts.

  The buffer and the stack of indices stand for a list of segments.  Where the segments of a
  text are plain and the stack has room for them, all are kept; the writes stay within the
  buffer in any case.
-/
import TinyFramework.Foundation.Tokens
import Mathlib.Data.List.DropRight

set_option autoImplicit false

namespace TinyFramework.Js

open TinyFramework.Foundation

/-- Text in ASCII. -/
abbrev UrlText := List Char

/-! ## The source -/

/-- `strstr(base, "://")` -/
def schemeEnd : UrlText → Option Nat
  | [] => none
  | c :: cs => if ['/', '/'].isPrefixOf cs ∧ c = ':' then some 0 else (schemeEnd cs).map (· + 1)

/-- The text up to its last slash. -/
def upToLast (t : UrlText) : UrlText := t.rdropWhile (· ≠ '/')

/-- `out` up to `opos`, the stack with its top first, one above the highest index of `out` that
was written, and whether a segment was left out for want of room on the stack. -/
structure JoinState where
  out : UrlText
  stk : List Nat := []
  written : Nat
  dropped : Bool := false
  deriving DecidableEq, Repr

/-- How many entries the stack takes. -/
def joinStackCap : Nat := 255

/-- The body of the loop of `mini_url_join` for a segment. -/
def joinStep (authlen : Nat) (s : JoinState) (seg : UrlText) : JoinState :=
  if seg = ['.'] then s
  else if seg = ['.', '.'] then
    match s.stk with
    | [] => s
    | start :: stk =>
        { s with out := s.out.take (if stk = [] then authlen else start - 1), stk := stk }
  else if s.stk.length < joinStackCap then
    { s with
      out := s.out ++ '/' :: seg
      stk := (s.out.length + 1) :: s.stk
      written := max s.written (s.out.length + 1 + seg.length) }
  else { s with dropped := true }

/-- The segments that the loop goes over: separators are skipped. -/
def joinSegments (raw : UrlText) : List UrlText := (raw.splitOn '/').filter fun s => !s.isEmpty

/-- What `mini_url_join` cuts out of its arguments: the base up to the first slash behind the
host, and the text whose segments it goes over. -/
structure JoinParts where
  auth : UrlText
  raw : UrlText
  cap : Nat
  deriving DecidableEq, Repr

def joinParts (base ref : UrlText) (i : Nat) : JoinParts :=
  let host := base.drop (i + 3)
  let auth := base.take (i + 3) ++ host.takeWhile (· ≠ '/')
  let path := host.dropWhile (· ≠ '/')
  let dir := if ref.head? = some '/' then [] else upToLast path
  { auth := auth, raw := dir ++ ref, cap := auth.length + dir.length + ref.length + 2 }

/-- The state behind the loop and the final writes. -/
def joinRun (p : JoinParts) : JoinState :=
  let s := (joinSegments p.raw).foldl (joinStep p.auth.length)
    { out := p.auth, written := p.auth.length }
  let s := { s with written := max s.written (s.out.length + 1) }
  if s.out.length = p.auth.length then
    { s with out := s.out ++ ['/'], written := max s.written (s.out.length + 2) }
  else s

/-- `mini_url_join` -/
def miniUrlJoin (base ref : UrlText) : UrlText :=
  match schemeEnd base with
  | none => ref
  | some i => (joinRun (joinParts base ref i)).out

def isHttp (t : UrlText) : Bool :=
  "http://".toList.isPrefixOf t || "https://".toList.isPrefixOf t

/-- The text that `script_resolve_url` prints. -/
def scriptResolved (base src : UrlText) : Option UrlText :=
  if src = [] then none
  else if isHttp src then some src
  else if !isHttp base then none
  else
    let host := match schemeEnd base with
      | some i => i + 3
      | none => 0
    let origin := base.take host ++
      (base.drop host).takeWhile fun c => c ≠ '/' ∧ c ≠ '?' ∧ c ≠ '#'
    if src.take 2 = ['/', '/'] then some (base.take ((schemeEnd base).getD 4) ++ ':' :: src)
    else if src.head? = some '/' then some (origin ++ src)
    else some (origin ++ '/' :: src)

/-- `script_resolve_url` with a buffer of `outcap` bytes -/
def scriptResolveUrl (base src : UrlText) (outcap : Nat) : Option UrlText :=
  (scriptResolved base src).map (·.take (outcap - 1))

/-- `fullurl` and `fetch_fullurl` -/
def fullurlCap : Nat := 1100

def isSchemeChar (c : Char) : Bool := c.isAlphanum || c == '+' || c == '.' || c == '-'

/-- `/^[a-zA-Z][a-zA-Z0-9+.-]*:/` -/
def hasScheme : UrlText → Bool
  | [] => false
  | c :: cs => c.isAlpha && (cs.dropWhile isSchemeChar).head? == some ':'

/-- The `href` that `MiniURL` computes. -/
def miniUrlHref (url base : UrlText) : UrlText :=
  if base ≠ [] ∧ !hasScheme url then
    if url.head? = some '/' then
      let host := match schemeEnd base with
        | some i => i + 3
        | none => 2
      base.take host ++ (base.drop host).takeWhile (· ≠ '/') ++ url
    else upToLast base ++ url
  else url

/-! ## RFC 3986 -/

/-- The query and the fragment as they are written. -/
def urlSuffix (query fragment : Option UrlText) : UrlText :=
  (query.elim [] ('?' :: ·)) ++ (fragment.elim [] ('#' :: ·))

/-- An absolute `http` or `https` URL. -/
structure HttpUrl where
  scheme : UrlText
  authority : UrlText
  path : UrlText
  query : Option UrlText
  fragment : Option UrlText
  scheme_http : scheme = "http".toList ∨ scheme = "https".toList
  authority_ne : authority ≠ []
  authority_plain : ∀ c ∈ authority, c ≠ '/' ∧ c ≠ '?' ∧ c ≠ '#'
  path_slash : path = [] ∨ path.head? = some '/'
  path_plain : ∀ c ∈ path, c ≠ '?' ∧ c ≠ '#'
  query_plain : ∀ q ∈ query, '#' ∉ q

/-- A reference without a scheme: with an authority, or with a path or a query. -/
structure UrlReference where
  authority : Option UrlText
  path : UrlText
  query : Option UrlText
  fragment : Option UrlText
  authority_plain : ∀ a ∈ authority, ∀ c ∈ a, c ≠ '/' ∧ c ≠ '?' ∧ c ≠ '#'
  path_plain : ∀ c ∈ path, c ≠ '?' ∧ c ≠ '#'
  path_network : authority ≠ none → path = [] ∨ path.head? = some '/'
  path_single : authority = none → path.take 2 ≠ ['/', '/']
  no_scheme : authority = none → ':' ∉ path.takeWhile (· ≠ '/')
  query_plain : ∀ q ∈ query, '#' ∉ q
  kind : authority ≠ none ∨ path ≠ [] ∨ query ≠ none

namespace HttpUrl

def suffix (b : HttpUrl) : UrlText := urlSuffix b.query b.fragment

/-- `scheme://authority` -/
def origin (b : HttpUrl) : UrlText := b.scheme ++ "://".toList ++ b.authority

def text (b : HttpUrl) : UrlText := b.origin ++ b.path ++ b.suffix

end HttpUrl

namespace UrlReference

def suffix (r : UrlReference) : UrlText := urlSuffix r.query r.fragment

def text (r : UrlReference) : UrlText :=
  r.authority.elim [] ("//".toList ++ ·) ++ r.path ++ r.suffix

end UrlReference

/-- Section 5.2.4 for a path that begins with a slash, segment by segment; a dot segment at the
end leaves an empty one. -/
def removeDots : List UrlText → List UrlText → List UrlText
  | [], out => out.reverse
  | [s], out =>
      if s = ['.'] then ([] :: out).reverse
      else if s = ['.', '.'] then ([] :: out.tail).reverse
      else (s :: out).reverse
  | s :: rest, out =>
      if s = ['.'] then removeDots rest out
      else if s = ['.', '.'] then removeDots rest out.tail
      else removeDots rest (s :: out)

/-- `remove_dot_segments` -/
def removeDotSegments : UrlText → UrlText
  | '/' :: t => segmented '/' (removeDots (t.splitOn '/') [])
  | t => t

/-- `merge` of section 5.2.3 -/
def mergePaths (base ref : UrlText) : UrlText :=
  if base = [] then '/' :: ref else upToLast base ++ ref

/-- Sections 5.2.2 and 5.3 -/
def resolveReference (b : HttpUrl) (r : UrlReference) : UrlText :=
  match r.authority with
  | some a => b.scheme ++ "://".toList ++ a ++ removeDotSegments r.path ++ r.suffix
  | none =>
      if r.path = [] then
        b.origin ++ b.path ++ urlSuffix (r.query.or b.query) r.fragment
      else if r.path.head? = some '/' then b.origin ++ removeDotSegments r.path ++ r.suffix
      else b.origin ++ removeDotSegments (mergePaths b.path r.path) ++ r.suffix

/-! ## When they agree -/

/-- The three resolvers yield what the RFC prescribes. -/
structure ResolveAlike (b : HttpUrl) (r : UrlReference) : Prop where
  join : miniUrlJoin b.text r.text = resolveReference b r
  script : scriptResolveUrl b.text r.text fullurlCap = some (resolveReference b r)
  constructor : miniUrlHref r.text b.text = resolveReference b r

def IsDots (s : UrlText) : Prop := s = ['.'] ∨ s = ['.', '.']

/-- No segment of a path is a dot segment. -/
def NoDots (path : UrlText) : Prop := ∀ s ∈ path.splitOn '/', ¬ IsDots s

/-- Between its slashes a text has no more segments than the stack takes, none of them empty
and none a dot segment. -/
def PlainSegments (t : UrlText) : Prop :=
  (t.splitOn '/').length ≤ joinStackCap ∧ ∀ s ∈ t.splitOn '/', s ≠ [] ∧ ¬ IsDots s

/-- The reference has no authority and no dot segments.  When its path is absolute, the base has
a path or ends behind its authority, and the reference is a slash or has plain segments behind
it.  Otherwise the base is served from the root, without slashes behind it, and the reference
has plain segments; and if it is a query alone, the base has no file name. -/
structure AtRoot (b : HttpUrl) (r : UrlReference) : Prop where
  authority : r.authority = none
  noDots : NoDots r.path
  absolute : r.path.head? = some '/' →
    (b.path ≠ [] ∨ b.suffix = []) ∧ (r.text = ['/'] ∨ PlainSegments r.text.tail)
  relative : r.path.head? ≠ some '/' →
    ((∃ file, b.path = '/' :: file ∧ '/' ∉ file ∧ (r.path = [] → file = [])) ∧ '/' ∉ b.suffix) ∧
      PlainSegments r.text

/-- The stack has room for each segment when its turn comes, from a number of entries on. -/
def SegmentsFit : Nat → List UrlText → Prop
  | _, [] => True
  | d, s :: rest =>
      if s = ['.'] then SegmentsFit d rest
      else if s = ['.', '.'] then SegmentsFit (d - 1) rest
      else d < joinStackCap ∧ SegmentsFit (d + 1) rest

/-! ## The loop of `mini_url_join` -/

/-- The segments on the stack, the last one first. -/
def stackStep (st : List UrlText) (seg : UrlText) : List UrlText :=
  if seg = ['.'] then st
  else if seg = ['.', '.'] then st.tail
  else if st.length < joinStackCap then seg :: st
  else st

/-- Where the segments on the stack start. -/
def starts (authlen : Nat) : List UrlText → List Nat
  | [] => []
  | _ :: st => (authlen + (segmented '/' st.reverse).length + 1) :: starts authlen st

theorem starts_length (authlen : Nat) (st : List UrlText) :
    (starts authlen st).length = st.length := by
  induction st with
  | nil => rfl
  | cons _ st ih => exact congrArg (· + 1) ih

/-- The buffer and the stack stand for a list of segments. -/
structure JoinOf (auth : UrlText) (s : JoinState) (st : List UrlText) : Prop where
  out : s.out = auth ++ segmented '/' st.reverse
  stk : s.stk = starts auth.length st

theorem joinStep_of {auth : UrlText} {s : JoinState} {st : List UrlText}
    (h : JoinOf auth s st) (seg : UrlText) :
    JoinOf auth (joinStep auth.length s seg) (stackStep st seg) := by
  unfold joinStep stackStep
  split_ifs with hdot hdots hroom hroom' hroom'
  · exact h
  · cases st with
    | nil =>
        rw [h.stk]
        exact h
    | cons top st =>
        rw [h.stk]
        refine ⟨?_, rfl⟩
        have hout := h.out
        rw [List.reverse_cons, segmented_append] at hout
        have hend : (if starts auth.length st = [] then auth.length
            else auth.length + (segmented '/' st.reverse).length + 1 - 1) =
            (auth ++ segmented '/' st.reverse).length := by
          rw [List.length_append]
          split_ifs with hnil
          · have hst : st = [] := by
              have hlength := starts_length auth.length st
              rw [hnil] at hlength
              exact List.eq_nil_of_length_eq_zero hlength.symm
            rw [hst]
            rfl
          · rfl
        dsimp only [starts, List.tail_cons]
        rw [hend, hout, ← List.append_assoc, List.take_left]
  · refine ⟨?_, ?_⟩
    · dsimp only
      rw [h.out, List.reverse_cons, segmented_append, List.append_assoc]
      simp
    · dsimp only [starts]
      rw [h.out, List.length_append, h.stk]
  · rw [h.stk, starts_length] at hroom
    exact absurd hroom hroom'
  · rw [h.stk, starts_length] at hroom
    exact absurd hroom' hroom
  · exact ⟨h.out, h.stk⟩

theorem foldl_joinStep_of {auth : UrlText} :
    ∀ (segs : List UrlText) {s : JoinState} {st : List UrlText}, JoinOf auth s st →
      JoinOf auth (segs.foldl (joinStep auth.length) s) (segs.foldl stackStep st)
  | [], _, _, h => h
  | seg :: segs, s, st, h => by
      have hnext := joinStep_of h seg
      rw [List.foldl_cons, List.foldl_cons]
      exact foldl_joinStep_of segs hnext

/-- The segments that `mini_url_join` keeps of a text. -/
def keptSegments (raw : UrlText) : List UrlText := ((joinSegments raw).foldl stackStep []).reverse

/-- What `mini_url_join` writes behind the host. -/
def joinedPath (raw : UrlText) : UrlText :=
  if keptSegments raw = [] then ['/'] else segmented '/' (keptSegments raw)

theorem joinRun_out (p : JoinParts) : (joinRun p).out = p.auth ++ joinedPath p.raw := by
  have hstart : JoinOf p.auth { out := p.auth, written := p.auth.length } [] :=
    ⟨(List.append_nil _).symm, rfl⟩
  have hend := foldl_joinStep_of (joinSegments p.raw) hstart
  have hlength : ((joinSegments p.raw).foldl (joinStep p.auth.length)
      { out := p.auth, written := p.auth.length }).out.length = p.auth.length ↔
      keptSegments p.raw = [] := by
    rw [hend.out, List.length_append]
    unfold keptSegments
    have hnil : segmented '/' ((joinSegments p.raw).foldl stackStep []).reverse = [] ↔
        ((joinSegments p.raw).foldl stackStep []).reverse = [] := segmented_eq_nil_iff
    rw [← hnil, ← List.length_eq_zero_iff]
    omega
  unfold joinRun joinedPath
  dsimp only
  split_ifs with hroot hkept hkept
  · dsimp only
    rw [hend.out]
    unfold keptSegments at hkept
    rw [hkept, segmented_nil, List.append_nil]
  · exact absurd (hlength.1 hroot) hkept
  · exact absurd (hlength.2 hkept) hroot
  · exact hend.out

/-! ## The segments that are kept -/

theorem mem_stackStep {st : List UrlText} {seg s : UrlText} (h : s ∈ stackStep st seg) :
    s ∈ st ∨ (s = seg ∧ ¬ IsDots seg) := by
  unfold stackStep at h
  split_ifs at h with hdot hdots hroom
  · exact .inl h
  · exact .inl (List.mem_of_mem_tail h)
  · rcases List.mem_cons.1 h with rfl | h
    · exact .inr ⟨rfl, fun hboth => hboth.elim hdot hdots⟩
    · exact .inl h
  · exact .inl h

theorem stackStep_length {st : List UrlText} (h : st.length ≤ joinStackCap) (seg : UrlText) :
    (stackStep st seg).length ≤ joinStackCap := by
  unfold stackStep
  split_ifs with hdot hdots hroom
  · exact h
  · rw [List.length_tail]
    omega
  · exact hroom
  · exact h

theorem foldl_stackStep_spec :
    ∀ (segs st : List UrlText), st.length ≤ joinStackCap →
      (segs.foldl stackStep st).length ≤ joinStackCap ∧
        ∀ s ∈ segs.foldl stackStep st, s ∈ st ∨ (s ∈ segs ∧ ¬ IsDots s)
  | [], _, h => ⟨h, fun _ hs => .inl hs⟩
  | seg :: segs, st, h => by
      obtain ⟨hlength, hmem⟩ := foldl_stackStep_spec segs _ (stackStep_length h seg)
      rw [List.foldl_cons]
      refine ⟨hlength, ?_⟩
      intro s hs
      rcases hmem s hs with hs | ⟨hs, hdots⟩
      · rcases mem_stackStep hs with hs | ⟨rfl, hdots⟩
        · exact .inl hs
        · exact .inr ⟨List.mem_cons_self, hdots⟩
      · exact .inr ⟨List.mem_cons_of_mem _ hs, hdots⟩

/-- Plain segments all go onto the stack. -/
theorem foldl_stackStep_plain :
    ∀ (segs st : List UrlText), (∀ s ∈ segs, ¬ IsDots s) →
      st.length + segs.length ≤ joinStackCap → segs.foldl stackStep st = segs.reverse ++ st
  | [], _, _, _ => rfl
  | seg :: segs, st, hplain, hroom => by
      have hseg := hplain seg List.mem_cons_self
      rw [List.length_cons] at hroom
      have hstep : stackStep st seg = seg :: st := by
        unfold stackStep
        rw [if_neg fun h => hseg (.inl h), if_neg fun h => hseg (.inr h), if_pos (by omega)]
      rw [List.foldl_cons, hstep, foldl_stackStep_plain segs (seg :: st)
        (fun s hs => hplain s (List.mem_cons_of_mem _ hs))
        (by rw [List.length_cons]; omega)]
      simp

theorem joinSegments_slash (t : UrlText) :
    joinSegments ('/' :: t) = (t.splitOn '/').filter fun s => !s.isEmpty := by
  unfold joinSegments
  rw [splitOn_sep_cons]
  rfl

/-- What is written behind the host is a text behind a slash exactly when the text is empty or
its segments are plain. -/
theorem joinedPath_eq_iff (t : UrlText) :
    joinedPath ('/' :: t) = '/' :: t ↔ t = [] ∨ PlainSegments t := by
  obtain ⟨hlength, hmem⟩ :=
    foldl_stackStep_spec (joinSegments ('/' :: t)) [] (Nat.zero_le _)
  have hkept : ∀ s ∈ keptSegments ('/' :: t), (s ∈ t.splitOn '/' ∧ s ≠ []) ∧ ¬ IsDots s := by
    intro s hs
    rcases hmem s (List.mem_reverse.1 hs) with hs | ⟨hs, hdots⟩
    · exact absurd hs List.not_mem_nil
    · rw [joinSegments_slash, List.mem_filter] at hs
      refine ⟨⟨hs.1, ?_⟩, hdots⟩
      rintro rfl
      exact Bool.noConfusion hs.2
  constructor
  · intro h
    unfold joinedPath at h
    split_ifs at h with hnil
    · exact .inl (List.cons.inj h).2.symm
    · right
      have hsplit := splitOn_eq_of_segmented
        (fun s hs => not_mem_of_mem_splitOn t s (hkept s hs).1.1) h
      unfold PlainSegments
      rw [hsplit]
      refine ⟨?_, fun s hs => ⟨(hkept s hs).1.2, (hkept s hs).2⟩⟩
      unfold keptSegments
      rw [List.length_reverse]
      exact hlength
  · rintro (rfl | ⟨hcount, hplain⟩)
    · rfl
    · have hall : joinSegments ('/' :: t) = t.splitOn '/' := by
        rw [joinSegments_slash, List.filter_eq_self]
        intro s hs
        cases s with
        | nil => exact absurd rfl (hplain [] hs).1
        | cons c s => rfl
      have hsame : keptSegments ('/' :: t) = t.splitOn '/' := by
        unfold keptSegments
        rw [hall, foldl_stackStep_plain _ _ (fun s hs => (hplain s hs).2)
          (by rw [List.length_nil]; omega), List.append_nil, List.reverse_reverse]
      unfold joinedPath
      rw [hsame, if_neg (List.splitOn_ne_nil '/' t), segmented_splitOn]

/-! ## The buffer and the stack -/

theorem joinStep_written (authlen : Nat) {n : Nat} {s : JoinState} (seg : UrlText)
    (h : s.out.length ≤ n ∧ s.written ≤ n) :
    (joinStep authlen s seg).out.length ≤ n + (seg.length + 1) ∧
      (joinStep authlen s seg).written ≤ n + (seg.length + 1) := by
  unfold joinStep
  split_ifs with hdot hdots hroom
  · omega
  · split
    · omega
    · dsimp only
      rw [List.length_take]
      omega
  · dsimp only
    rw [List.length_append, List.length_cons]
    omega
  · dsimp only
    omega

theorem foldl_joinStep_written (authlen : Nat) :
    ∀ (segs : List UrlText) {n : Nat} {s : JoinState}, s.out.length ≤ n ∧ s.written ≤ n →
      (segs.foldl (joinStep authlen) s).out.length ≤
          n + (segs.map fun t => t.length + 1).sum ∧
        (segs.foldl (joinStep authlen) s).written ≤ n + (segs.map fun t => t.length + 1).sum
  | [], _, _, h => h
  | seg :: segs, n, s, h => by
      have hstep := joinStep_written authlen seg h
      have hrest := foldl_joinStep_written authlen segs hstep
      rw [List.foldl_cons, List.map_cons, List.sum_cons, ← Nat.add_assoc]
      exact hrest

/-- `mini_url_join` writes only within its buffer. -/
theorem joinRun_written (base ref : UrlText) (i : Nat) :
    (joinRun (joinParts base ref i)).written ≤ (joinParts base ref i).cap := by
  generalize hp : joinParts base ref i = p
  have hcap : p.cap = p.auth.length + p.raw.length + 2 := by
    rw [← hp]
    unfold joinParts
    dsimp only
    rw [List.length_append, List.length_append]
    omega
  have hsegs : ((joinSegments p.raw).map fun t => t.length + 1).sum ≤ p.raw.length + 1 :=
    sum_segments_le '/' p.raw _
  have hstart : p.auth.length ≤ p.auth.length ∧ p.auth.length ≤ p.auth.length :=
    ⟨Nat.le_refl _, Nat.le_refl _⟩
  have hloop := foldl_joinStep_written p.auth.length (joinSegments p.raw)
    (s := { out := p.auth, written := p.auth.length }) hstart
  unfold joinRun
  dsimp only
  split_ifs with hroot
  · dsimp only
    omega
  · dsimp only
    omega

theorem joinStep_dropped {authlen : Nat} {s : JoinState} (seg : UrlText)
    (rest : List UrlText) :
    (joinStep authlen s seg).dropped = false ∧
        SegmentsFit (joinStep authlen s seg).stk.length rest ↔
      s.dropped = false ∧ SegmentsFit s.stk.length (seg :: rest) := by
  unfold joinStep
  rw [SegmentsFit]
  split_ifs with hdot hdots hroom
  · exact Iff.rfl
  · cases hstk : s.stk with
    | nil =>
        dsimp only
        rw [hstk]
        exact Iff.rfl
    | cons start stk => exact Iff.rfl
  · dsimp only
    rw [List.length_cons]
    tauto
  · dsimp only
    tauto

/-- No segment is left out exactly when the stack has room for each. -/
theorem foldl_joinStep_dropped (authlen : Nat) :
    ∀ (segs : List UrlText) (s : JoinState),
      (segs.foldl (joinStep authlen) s).dropped = false ↔
        s.dropped = false ∧ SegmentsFit s.stk.length segs
  | [], _ => (and_iff_left trivial).symm
  | seg :: segs, s => by
      rw [List.foldl_cons, foldl_joinStep_dropped authlen segs, joinStep_dropped]

theorem joinRun_dropped (p : JoinParts) :
    (joinRun p).dropped = false ↔ SegmentsFit 0 (joinSegments p.raw) := by
  have hloop := foldl_joinStep_dropped p.auth.length (joinSegments p.raw)
    { out := p.auth, written := p.auth.length }
  unfold joinRun
  dsimp only
  split_ifs with hroot
  · exact hloop.trans (and_iff_right rfl)
  · exact hloop.trans (and_iff_right rfl)

end TinyFramework.Js
