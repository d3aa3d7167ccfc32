/-
  Css/SelectorLists.lean --- lists of selectors in :is(), :not() and their like.

  The splitter goes through the text once, with the segment that is being written and the
  flag for white space that was seen.  It forgets the flag at `[` and `:`, so white space
  in front of these does not begin a compound.  The text of a selector whose descendant
  combinators stand in front of other characters is split into its compounds.

  `:is`, `:where` and `:not` are split at every comma and `:has` at none, and the search
  of `:has` loses the nodes that its stack has no room for.  Where no such thing happens
  in front of the first match, the four match what they are meant to match.
-/
import TinyFramework.Css.SelectorCache
import TinyFramework.Css.SelectorTests
import TinyFramework.Dom.DocumentOrder
import TinyFramework.Foundation.Brackets
import TinyFramework.Foundation.StackSearch
import Mathlib.Data.List.DropRight

set_option autoImplicit false

namespace TinyFramework.Css

open TinyFramework.Foundation TinyFramework.Dom

/-! ## The loop without its bound -/

theorem length_splitAttr (st : Split) (s : Bytes) : (splitAttr st s).2.length ≤ s.length := by
  have hrest : (s.dropWhile (· != 93)).length ≤ s.length := (List.dropWhile_suffix _).length_le
  unfold splitAttr
  dsimp only
  split_ifs
  · simp only [List.length_drop]
    omega
  · exact hrest

theorem length_splitPseudo (st : Split) (s : Bytes) : (splitPseudo st s).2.length ≤ s.length := by
  unfold splitPseudo
  dsimp only
  generalize hsecond : (if s.head? = some 58 ∧ (st.push [58]).seg.length < 127 then
    ((st.push [58]).push [58], s.drop 1) else (st.push [58], s)) = second
  have hsec : second.2.length ≤ s.length := by
    rw [← hsecond]
    split_ifs
    · simp only [List.length_drop]
      omega
    · exact Nat.le_refl _
  have hgroup := length_readGroup 0
    (second.2.drop (second.2.takeWhile fun c => isalnum c || c == 45).length)
  simp only [List.length_drop] at hgroup
  split_ifs
  · dsimp only
    omega
  · simp only [List.length_drop]
    omega

/-- Every round takes a byte, so the bound is not met. -/
theorem splitLoop_fuel {maxseg fuel fuel' : Nat} {st : Split} {s : Bytes} (hfuel : s.length ≤ fuel)
    (hfuel' : s.length ≤ fuel') : splitLoop maxseg fuel st s = splitLoop maxseg fuel' st s := by
  induction fuel generalizing fuel' st s with
  | zero =>
    obtain rfl := List.length_eq_zero_iff.1 (Nat.le_zero.1 hfuel)
    cases fuel' <;> rfl
  | succ fuel ih =>
    cases s with
    | nil => cases fuel' <;> rfl
    | cons c s =>
      obtain _ | fuel' := fuel'
      · simp at hfuel'
      simp only [List.length_cons, Nat.add_le_add_iff_right] at hfuel hfuel'
      have hstep : ∀ st (t : Bytes), t.length ≤ s.length →
          splitLoop maxseg fuel st t = splitLoop maxseg fuel' st t := fun st t ht =>
        ih (Nat.le_trans ht hfuel) (Nat.le_trans ht hfuel')
      unfold splitLoop
      split_ifs
      · exact hstep _ _ (length_splitAttr st s)
      · exact hstep _ _ (length_splitPseudo st s)
      · exact hstep _ _ (Nat.le_refl _)
      · exact hstep _ _ (List.dropWhile_suffix _).length_le
      · exact hstep _ _ (Nat.le_refl _)

/-- The loop with a bound that it does not meet. -/
def split (st : Split) (s : Bytes) : Split := splitLoop 16 s.length st s

theorem split_of_fuel {st : Split} {s t : Bytes} (h : t.length ≤ s.length) :
    splitLoop 16 s.length st t = split st t := splitLoop_fuel h (Nat.le_refl _)

/-! ## One round -/

section Rounds

variable {st : Split} {c : UInt8} {s : Bytes}

theorem split_pseudo : split st (58 :: s) = split (splitPseudo st s).1 (splitPseudo st s).2 :=
  split_of_fuel (length_splitPseudo st s)

theorem split_nil : split st [] = st := rfl

end Rounds

/-! ## The text of a compound -/

/-- The segment with some text behind it. -/
def Split.extend (st : Split) (t : Bytes) : Split := { st with seg := st.seg ++ t }

/-- Text that fits into the segment is added to it. -/
theorem Split.push_eq {st : Split} {t : Bytes} (h : st.seg.length + t.length ≤ 127) :
    st.push t = st.extend t := by
  rw [Split.push, Split.extend, List.take_of_length_le]
  simpa using h

/-! ## The alternatives of a list -/

/-- How many parentheses and brackets are open behind a byte. -/
def openAfter (depth : Nat) (c : UInt8) : Nat :=
  if c == 40 || c == 91 then depth + 1 else if c == 41 || c == 93 then depth - 1 else depth

/-- The text between the commas that stand outside of parentheses and brackets. -/
def alternativesFrom : Nat → Bytes → List Bytes
  | _, [] => [[]]
  | depth, c :: s =>
      if c == 44 && depth == 0 then [] :: alternativesFrom 0 s
      else
        match alternativesFrom (openAfter depth c) s with
        | [] => [[c]]
        | t :: ts => (c :: t) :: ts

/-- The alternatives of a list of selectors. -/
def alternatives (arg : Bytes) : List Bytes := alternativesFrom 0 arg

/-- Behind so many open parentheses and brackets, every comma stands outside of them. -/
def CommasOutside (depth : Nat) (s : Bytes) : Prop :=
  ∀ a b, s = a ++ 44 :: b → a.foldl openAfter depth = 0

/-- Behind so many open parentheses and brackets, every comma stands inside of some. -/
def CommasInside (depth : Nat) (s : Bytes) : Prop :=
  ∀ a b, s = a ++ 44 :: b → a.foldl openAfter depth ≠ 0

theorem commasOutside_cons {depth : Nat} {c : UInt8} {s : Bytes} :
    CommasOutside depth (c :: s) ↔
      (c = 44 → depth = 0) ∧ CommasOutside (openAfter depth c) s := by
  constructor
  · intro h
    exact ⟨fun hc => h [] s (congrArg (· :: s) hc),
      fun a b hs => h (c :: a) b (congrArg (c :: ·) hs)⟩
  · rintro ⟨hhead, hrest⟩ a b hs
    cases a with
    | nil => exact hhead (List.cons.inj hs).1
    | cons d a =>
      obtain ⟨rfl, htail⟩ := List.cons.inj hs
      exact hrest a b htail

theorem alternativesFrom_of_outside {depth : Nat} {s : Bytes} (h : CommasOutside depth s) :
    alternativesFrom depth s = commaPieces s := by
  induction s generalizing depth with
  | nil => rfl
  | cons c s ih =>
    obtain ⟨hhead, hrest⟩ := commasOutside_cons.1 h
    rw [alternativesFrom, commaPieces]
    by_cases hc : c = 44
    · subst hc
      obtain rfl := hhead rfl
      exact congrArg ([] :: ·) (ih hrest)
    · rw [if_neg (by simp [hc]), if_neg (by simp [hc])]
      cases hpieces : commaPieces s with
      | nil => rw [ih hrest, hpieces]
      | cons first rest => rw [ih hrest, hpieces]

theorem alternativesFrom_of_inside {depth : Nat} {s : Bytes} (h : CommasInside depth s) :
    alternativesFrom depth s = [s] := by
  induction s generalizing depth with
  | nil => rfl
  | cons c s ih =>
    have hrest : CommasInside (openAfter depth c) s := fun a b hs =>
      h (c :: a) b (congrArg (c :: ·) hs)
    have hnot : ¬ (c == 44 && depth == 0) = true := by
      rw [Bool.and_eq_true, beq_iff_eq, beq_iff_eq]
      rintro ⟨rfl, rfl⟩
      exact h [] s rfl rfl
    rw [alternativesFrom, if_neg hnot, ih hrest]

theorem alternativesFrom_ne_nil (depth : Nat) (s : Bytes) : alternativesFrom depth s ≠ [] := by
  cases s with
  | nil => exact List.cons_ne_nil _ _
  | cons c s =>
    rw [alternativesFrom]
    split_ifs
    · exact List.cons_ne_nil _ _
    · split <;> exact List.cons_ne_nil _ _

/-- Behind a comma that separates, a list goes on as a list of its own. -/
theorem alternativesFrom_append {depth : Nat} {a : Bytes} (ha : a.foldl openAfter depth = 0)
    (b : Bytes) :
    alternativesFrom depth (a ++ 44 :: b) = alternativesFrom depth a ++ alternatives b := by
  induction a generalizing depth with
  | nil =>
    obtain rfl : depth = 0 := ha
    rfl
  | cons c a ih =>
    rw [List.cons_append, alternativesFrom, alternativesFrom]
    split_ifs with hc
    · rw [Bool.and_eq_true, beq_iff_eq, beq_iff_eq] at hc
      obtain ⟨rfl, rfl⟩ := hc
      exact congrArg ([] :: ·) (ih ha)
    · rw [ih ha]
      obtain ⟨t, ts, hts⟩ :=
        List.exists_cons_of_ne_nil (alternativesFrom_ne_nil (openAfter depth c) a)
      rw [hts]
      rfl

theorem commaPieces_append (a b : Bytes) :
    commaPieces (a ++ 44 :: b) = commaPieces a ++ commaPieces b := by
  induction a with
  | nil => rfl
  | cons c a ih =>
    rw [List.cons_append, commaPieces, commaPieces, ih]
    split_ifs
    · rfl
    · cases ha : commaPieces a with
      | nil => cases a with
        | nil => cases ha
        | cons d a =>
          rw [commaPieces] at ha
          split_ifs at ha
          split at ha <;> cases ha
      | cons t ts => rfl

/-! ## What the pseudo-classes ask -/

/-- The pseudo-classes that take a list of selectors. -/
inductive ListPseudo where
  | matchesAny
  | whereAny
  | negation
  | relational
  deriving DecidableEq, Repr

def ListPseudo.keyword : ListPseudo → Bytes
  | matchesAny => ascii "is"
  | whereAny => ascii "where"
  | negation => ascii "not"
  | relational => ascii "has"

def ListPseudo.text (p : ListPseudo) (arg : Bytes) : Bytes :=
  58 :: (p.keyword ++ 40 :: (arg ++ [41]))

/-- The combinator that a text begins with, and what is behind it. -/
def leadingSign : Bytes → Kinship × Bytes
  | 62 :: r => (.child, r)
  | 43 :: r => (.next, r)
  | 126 :: r => (.subsequent, r)
  | r => (.descendant, r)

/-- The combinator in front of an alternative of `:has`, and the selector behind it. -/
def relative (alt : Bytes) : Kinship × Bytes := leadingSign (alt.dropWhile isspace)

/-- The nodes that `:has` asks about. -/
def Page.Related (page : Page) (n x : NodeId) : Kinship → Prop
  | .descendant => Relation.TransGen (fun p c => c ∈ children page.heap p) n x
  | .child => x ∈ children page.heap n
  | .next => (page.others n true).find? page.isElement = some x
  | .subsequent => x ∈ page.others n true

/-- Some element that is related to `n` as the alternative says matches it. -/
def Page.Has (page : Page) (n : NodeId) (alt : Bytes) : Prop :=
  ∃ x, page.Related n x (relative alt).1 ∧ page.isElement x = true ∧
    matchFresh page x (relative alt).2 = true

/-- What a list of selectors asks of an element. -/
def ListPseudo.Holds (page : Page) (n : NodeId) (arg : Bytes) : ListPseudo → Prop
  | matchesAny => ∃ alt ∈ alternatives arg, matchFresh page n alt = true
  | whereAny => ∃ alt ∈ alternatives arg, matchFresh page n alt = true
  | negation => ¬ ∃ alt ∈ alternatives arg, matchFresh page n alt = true
  | relational => ∃ alt ∈ alternatives arg, page.Has n alt

/-! ## Where the source does as it is meant -/

/-- The stack of the search has room for all nodes that the search comes to in front of the first
one that passes the test. -/
structure Page.Roomy (page : Page) (test : NodeId → Bool) (n : NodeId) : Prop where
  kids : (children page.heap n).length ≤ 64
  below : ∀ x rest,
    Searching (children page.heap) test (children page.heap n).reverse (x :: rest) →
      test x = false → (children page.heap x).length + rest.length ≤ 64
  /-- The search does not go on from other nodes. -/
  leaves : ∀ x rest,
    Searching (children page.heap) test (children page.heap n).reverse (x :: rest) →
      page.isElement x = false → children page.heap x = []

/-- The commas of a list are those that separate, as far as its alternatives are tried: all of them,
or those up to a comma that separates, with an alternative in front of it that matches. -/
def Page.SplitsRightly (page : Page) (n : NodeId) (arg : Bytes) : Prop :=
  CommasOutside 0 arg ∨
    ∃ a b, arg = a ++ 44 :: b ∧ CommasOutside 0 a ∧ a.foldl openAfter 0 = 0 ∧
      ∃ alt ∈ alternatives a, matchFresh page n alt = true

/-- The list is split at the commas that it should be split at, and no node is lost. -/
def ListPseudo.Splits (page : Page) (n : NodeId) (arg : Bytes) : ListPseudo → Prop
  | matchesAny => page.SplitsRightly n arg
  | whereAny => page.SplitsRightly n arg
  | negation => arg ≠ [] ∧ page.SplitsRightly n arg
  | relational => CommasInside 0 arg ∧ ((relative arg).1 = .descendant →
      page.Roomy (fun x => page.isElement x && matchFresh page x (relative arg).2) n)

/-- The pseudo-class fits into the buffer of a compound, and its list is read as meant. -/
structure ListPseudo.Readable (page : Page) (n : NodeId) (p : ListPseudo) (arg : Bytes) :
    Prop where
  fits : p.keyword.length + arg.length ≤ 125
  splits : p.Splits page n arg

/-! ## The text of the pseudo-class -/

theorem readGroup_cons {d e : Nat} {c : UInt8} {s : Bytes}
    (hdepth : (if c == 40 then d + 1 else if c == 41 then d - 1 else d) = e + 1) :
    readGroup d (c :: s) = (c :: (readGroup (e + 1) s).1, (readGroup (e + 1) s).2) := by
  rw [readGroup]
  dsimp only
  rw [hdepth, if_neg (Nat.succ_ne_zero e)]

theorem readGroup_run {d e : Nat} {t : Bytes} (h : BracketRun 40 41 d t e) (rest : Bytes) :
    readGroup (d + 1) (t ++ rest) =
      (t ++ (readGroup (e + 1) rest).1, (readGroup (e + 1) rest).2) := by
  induction h with
  | nil => rfl
  | opens _ ih => rw [List.cons_append, readGroup_cons rfl, ih, List.cons_append]
  | closes _ ih => rw [List.cons_append, readGroup_cons rfl, ih, List.cons_append]
  | @other d e c t hopen hclose _ ih =>
    have hdepth :
        (if c == 40 then d + 1 + 1 else if c == 41 then d + 1 - 1 else d + 1) = d + 1 := by
      rw [if_neg (by simpa using hopen), if_neg (by simpa using hclose)]
    rw [List.cons_append, readGroup_cons hdepth, ih, List.cons_append]

theorem readArg_run {d e : Nat} {t : Bytes} (h : BracketRun 40 41 d t e) (kept rest : Bytes)
    (hlen : kept.length + t.length ≤ 127) :
    readArg (d + 1) kept (t ++ rest) = readArg (e + 1) (kept ++ t) rest := by
  induction h generalizing kept with
  | nil => rw [List.nil_append, List.append_nil]
  | opens _ ih =>
    rw [List.length_cons] at hlen
    have hrest := ih (kept ++ [40]) (by simp; omega)
    rw [List.append_assoc] at hrest
    rw [List.cons_append, readArg.eq_def]
    dsimp only
    rw [if_pos (by decide), if_pos (by omega)]
    exact hrest
  | closes _ ih =>
    rw [List.length_cons] at hlen
    have hrest := ih (kept ++ [41]) (by simp; omega)
    rw [List.append_assoc] at hrest
    rw [List.cons_append, readArg, if_neg (by decide), if_pos (by decide), if_pos (by omega)]
    exact hrest
  | @other d e c t hopen hclose _ ih =>
    rw [List.length_cons] at hlen
    have hrest := ih (kept ++ [c]) (by simp; omega)
    rw [List.append_assoc] at hrest
    rw [List.cons_append, readArg.eq_def]
    dsimp only
    rw [if_neg (by simpa using hopen), if_neg (by simpa using hclose), if_pos (by omega)]
    exact hrest

theorem ListPseudo.keyword_spec (p : ListPseudo) :
    p.keyword ≠ [] ∧ p.keyword.length ≤ 31 ∧ p.keyword.map tolower = p.keyword ∧
      ∀ c ∈ p.keyword, (isalnum c || c == 45) = true := by
  have hchars : p.keyword.all (fun c => isalnum c || c == 45) = true := by cases p <;> decide
  refine ⟨?_, ?_, ?_, List.all_eq_true.1 hchars⟩ <;> cases p <;> decide

section Text

variable {p : ListPseudo} {arg : Bytes}

/-- Behind the keyword no other character of a name stands. -/
theorem ListPseudo.takeWhile_keyword (p : ListPseudo) (t : Bytes) :
    (p.keyword ++ 40 :: t).takeWhile (fun c => isalnum c || c == 45) = p.keyword := by
  obtain ⟨-, -, -, hchars⟩ := p.keyword_spec
  rw [List.takeWhile_append_of_pos hchars, List.takeWhile_cons_of_neg (by decide), List.append_nil]

theorem ListPseudo.head_keyword (p : ListPseudo) (t : Bytes) :
    (p.keyword ++ t).head? ≠ some 58 := by
  cases p <;> exact fun h => absurd (Option.some.inj h) (by decide)

variable (hbal : Balanced 40 41 arg) (hfits : p.keyword.length + arg.length ≤ 125)
include hbal hfits

/-- The name and the argument are read, also when the last parenthesis is cut off. -/
theorem readPseudo_listPseudo {close : Bytes} (hclose : close = [] ∨ close = [41]) :
    readPseudo (p.keyword ++ 40 :: (arg ++ close)) = (.pseudo p.keyword arg, []) := by
  obtain ⟨-, hlen, hlower, hchars⟩ := p.keyword_spec
  have hname : readSome 31 (fun c => isalnum c || c == 45) (p.keyword ++ 40 :: (arg ++ close)) =
      (p.keyword, 40 :: (arg ++ close)) := by
    refine readSome_append hchars hlen fun c hc => ?_
    obtain rfl : 40 = c := Option.some.inj hc
    decide
  have harg : readArg 1 [] (arg ++ close) = (arg, []) := by
    rw [readArg_run (hbal.bracketRun (by decide) 0) [] close (by rw [List.length_nil]; omega)]
    rcases hclose with rfl | rfl <;> rfl
  unfold readPseudo
  rw [if_neg (p.head_keyword _)]
  dsimp only
  rw [hname]
  show (Simple.pseudo (p.keyword.map tolower) (readArg 1 [] (arg ++ close)).1,
    (readArg 1 [] (arg ++ close)).2) = _
  rw [harg, hlower]

/-- The pseudo-class is one segment, cut at the end of the buffer. -/
theorem parseComplex_listPseudo :
    parseComplex (p.text arg) = [(0, (p.text arg).take 127)] := by
  have hgroup : readGroup 0 (40 :: (arg ++ [41])) = (40 :: (arg ++ [41]), []) := by
    rw [readGroup_cons (e := 0) rfl, readGroup_run (hbal.bracketRun (by decide) 0) [41]]
    rfl
  have hname : (Split.mk [] 0 [58] false).push p.keyword =
      (Split.mk [] 0 [58] false).extend p.keyword := by
    refine Split.push_eq ?_
    rw [List.length_singleton]
    omega
  have hsplit : splitPseudo ⟨[], 0, [], false⟩ (p.keyword ++ 40 :: (arg ++ [41])) =
      (⟨[], 0, (p.text arg).take 127, false⟩, []) := by
    have hcolon : ¬ ((p.keyword ++ 40 :: (arg ++ [41])).head? = some 58 ∧
        ((Split.mk [] 0 [] false).push [58]).seg.length < 127) := fun h => p.head_keyword _ h.1
    unfold splitPseudo
    dsimp only
    rw [if_neg hcolon]
    dsimp only
    rw [p.takeWhile_keyword, List.drop_left, List.head?_cons, if_pos rfl, hgroup]
    show (({ ((Split.mk [] 0 [58] false).push p.keyword).push (40 :: (arg ++ [41])) with
      sawWs := false } : Split), ([] : Bytes)) = _
    rw [hname]
    rfl
  have hloop : split ⟨[], 0, [], false⟩ (p.text arg) =
      ⟨[], 0, (p.text arg).take 127, false⟩ := by
    rw [ListPseudo.text, split_pseudo, hsplit, split_nil]
    rfl
  have hskip : (p.text arg).dropWhile isspace = 58 :: (p.keyword ++ 40 :: (arg ++ [41])) :=
    List.dropWhile_cons_of_neg (by decide)
  unfold parseComplex
  rw [hskip]
  show (split ⟨[], 0, [], false⟩ (p.text arg)).done ++
    [((split ⟨[], 0, [], false⟩ (p.text arg)).comb,
      (split ⟨[], 0, [], false⟩ (p.text arg)).seg)] = _
  rw [hloop]
  rfl

theorem readSimple_listPseudo :
    readSimple ((p.text arg).take 127) = some (.pseudo p.keyword arg, []) := by
  have hcut : ∃ close, (close = [] ∨ close = [41]) ∧
      (p.text arg).take 127 = 58 :: (p.keyword ++ 40 :: (arg ++ close)) := by
    have hlen : (58 :: (p.keyword ++ 40 :: arg)).length ≤ 127 := by
      simp only [List.length_cons, List.length_append]
      omega
    have htext : p.text arg = (58 :: (p.keyword ++ 40 :: arg)) ++ [41] := by
      simp [ListPseudo.text]
    refine ⟨[41].take (127 - (58 :: (p.keyword ++ 40 :: arg)).length), ?_, ?_⟩
    · cases 127 - (58 :: (p.keyword ++ 40 :: arg)).length with
      | zero => exact .inl rfl
      | succ k => exact .inr (List.take_of_length_le (by simp))
    · rw [htext, List.take_append, List.take_of_length_le hlen]
      simp
  obtain ⟨close, hclose, hcut⟩ := hcut
  rw [hcut]
  exact congrArg some (readPseudo_listPseudo hbal hfits hclose)

end Text

/-! ## The match of the pseudo-class -/

section Match

variable {page : Page} {n : NodeId} {p : ListPseudo} {arg : Bytes}

/-- A pass of the loop behind the last simple selector. -/
theorem compoundLoop_none {call : NodeId → Bytes → Id Bool} {sel : Bytes} {i : Nat}
    (fuel : Nat) (hread : readSimple (sel.drop i) = none) :
    compoundLoop page call (pure sel) n (fuel + 1) i = pure true := by
  rw [compoundLoop, pure_bind, hread]

/-- A pass of the loop over a simple selector. -/
theorem compoundLoop_some {call : NodeId → Bytes → Id Bool} {sel rest : Bytes} {i : Nat}
    {s : Simple} (fuel : Nat) (hread : readSimple (sel.drop i) = some (s, rest)) :
    compoundLoop page call (pure sel) n (fuel + 1) i = (do
      if ← testSimple page call n s then
        compoundLoop page call (pure sel) n fuel (i + ((sel.drop i).length - rest.length))
      else pure false : Id Bool) := by
  rw [compoundLoop, pure_bind, hread]

/-- A compound of one simple selector asks what that asks. -/
theorem matchCompound_single {call : NodeId → Bytes → Id Bool} {sel : Bytes} {s : Simple}
    (hn : page.isElement n = true) (hstart : readType sel = (none, sel))
    (hread : readSimple sel = some (s, [])) :
    matchCompound page call (pure sel) n = testSimple page call n s := by
  have hkind : (page.heap.node n).type = .elementNode := beq_iff_eq.1 hn
  have hend : compoundLoop page call (pure sel) n 127 sel.length = pure true := by
    apply compoundLoop_none
    rw [List.drop_length]
    rfl
  unfold matchCompound
  rw [hkind, pure_bind, hstart]
  show compoundLoop page call (pure sel) n 128 (sel.length - sel.length) = _
  have hfirst : readSimple (sel.drop 0) = some (s, []) := hread
  rw [Nat.sub_self, compoundLoop_some 127 hfirst, List.drop_zero]
  show (do
    if ← testSimple page call n s then
      compoundLoop page call (pure sel) n 127 (0 + (sel.length - 0))
    else pure false : Id Bool) = _
  rw [Nat.zero_add, Nat.sub_zero, hend]
  have hsame : ∀ b : Bool, (if b = true then pure true else pure false : Id Bool) = pure b := by
    intro b
    cases b <;> rfl
  exact hsame (testSimple page call n s)

/-- The pseudo-class is matched by `match_pseudo`. -/
theorem matchFresh_listPseudo (hn : page.isElement n = true) (hbal : Balanced 40 41 arg)
    (hfits : p.keyword.length + arg.length ≤ 125) :
    matchFresh page n (p.text arg) =
      Id.run (matchPseudo page n (fun n t => pure (matchFresh page n t)) p.keyword arg) := by
  have hstart : readType ((p.text arg).take 127) = (none, (p.text arg).take 127) := rfl
  rw [matchFresh_eq, parseComplex_listPseudo hbal hfits]
  exact matchCompound_single hn hstart (readSimple_listPseudo hbal hfits)

/-- Blanks in front of a selector make no difference. -/
theorem matchFresh_skip (t : Bytes) :
    matchFresh page n (t.dropWhile isspace) = matchFresh page n t := by
  have hparse : parseComplex (t.dropWhile isspace) = parseComplex t := by
    unfold parseComplex
    rw [List.dropWhile_idempotent]
  have hempty : ∀ t : Bytes,
      (t.isEmpty || (parseComplex t).isEmpty) = (parseComplex t).isEmpty := by
    intro t
    cases t <;> rfl
  rw [matchFresh_eq, matchFresh_eq, hempty, hempty, hparse]

/-- A token of `strtok_r` matches when some text between two commas does. -/
theorem any_commaTokens (s : Bytes) :
    (commaTokens s).any (matchFresh page n) = true ↔
      ∃ t ∈ commaPieces s, matchFresh page n t = true := by
  rw [commaTokens, List.any_map, List.any_eq_true]
  simp only [List.mem_filter, Function.comp, matchFresh_skip]
  refine exists_congr fun t => and_congr_left fun ht => and_iff_left_of_imp fun _ => ?_
  cases t with
  | nil => cases ht
  | cons c t => rfl

/-- Where a list splits rightly, some token matches when some alternative does. -/
theorem any_commaTokens_iff {arg : Bytes} (h : page.SplitsRightly n arg) :
    (commaTokens arg).any (matchFresh page n) = true ↔
      ∃ alt ∈ alternatives arg, matchFresh page n alt = true := by
  rw [any_commaTokens, alternatives]
  rcases h with hall | ⟨a, b, rfl, hfront, hdepth, alt, halt, hmatch⟩
  · rw [alternativesFrom_of_outside hall]
  · rw [alternativesFrom_append hdepth, commaPieces_append]
    refine iff_of_true ⟨alt, List.mem_append_left _ ?_, hmatch⟩
      ⟨alt, List.mem_append_left _ halt, hmatch⟩
    rwa [← alternativesFrom_of_outside hfront]

/-- The branch of `match_pseudo` that the keyword leads to. -/
theorem matchPseudo_keyword (call : NodeId → Bytes → Bool) :
    Id.run (matchPseudo page n (fun n t => pure (call n t)) p.keyword arg) = match p with
      | .matchesAny => (commaTokens (arg.take 255)).any (call n)
      | .whereAny => (commaTokens (arg.take 255)).any (call n)
      | .negation => !arg.isEmpty && !(commaTokens (arg.take 127)).any (call n)
      | .relational =>
          !arg.isEmpty && Id.run (hasPseudo page n (fun n t => pure (call n t)) arg) := by
  have hnot : structuralPseudo page n p.keyword arg = none := by cases p <;> rfl
  unfold matchPseudo
  rw [hnot]
  cases p with
  | matchesAny =>
    show Id.run ((commaTokens (arg.take 255)).anyM fun t => pure (call n t)) = _
    rw [List.anyM_pure]
    rfl
  | whereAny =>
    show Id.run ((commaTokens (arg.take 255)).anyM fun t => pure (call n t)) = _
    rw [List.anyM_pure]
    rfl
  | negation =>
    show Id.run (if arg.isEmpty then pure false
      else do
        let any ← (commaTokens (arg.take 127)).anyM fun t => pure (call n t)
        pure !any) = _
    rw [List.anyM_pure]
    cases arg <;> rfl
  | relational => cases arg <;> rfl

end Match

/-! ## The search of `:has` -/

section Has

variable {page : Page} {n : NodeId}

/-- Where the search goes on. -/
def searched (page : Page) (x : NodeId) : List NodeId :=
  if page.isElement x then children page.heap x else []

/-- The loop of `:has` is the search with a stack of 64 nodes. -/
theorem hasDescendant_eq (call : NodeId → Bytes → Bool) (sel : Bytes) (fuel : Nat)
    (stack : List NodeId) :
    Id.run (hasDescendant page (fun n t => pure (call n t)) sel fuel stack) =
      stackSearch (searched page) 64 (fun x => page.isElement x && call x sel) fuel stack := by
  induction fuel generalizing stack with
  | zero => rfl
  | succ fuel ih =>
    cases stack with
    | nil => rfl
    | cons cur stack =>
      rw [hasDescendant, stackSearch, searched]
      cases helem : page.isElement cur with
      | false =>
        simp only [Bool.false_eq_true, if_false, List.take_nil, List.reverse_nil, List.nil_append,
          Bool.false_and, Bool.false_or]
        exact ih stack
      | true =>
        rw [if_pos rfl, if_pos rfl, Bool.true_and, ← ih]
        show Id.run (if call cur sel = true then pure true else _) = _
        cases call cur sel <;> rfl

/-- With room for all, the search finds the elements below that match. -/
theorem hasDescendant_iff (hwf : WellFormed page.heap) (call : NodeId → Bytes → Bool) (sel : Bytes)
    (hroomy : page.Roomy (fun x => page.isElement x && call x sel) n) :
    Id.run (hasDescendant page (fun n t => pure (call n t)) sel (page.heap.size + 1)
        ((children page.heap n).take 64).reverse) = true ↔
      ∃ x, page.Related n x .descendant ∧ page.isElement x = true ∧ call x sel = true := by
  have hapart := apart_expand hwf.acyclic hwf.goesDown hwf.mirrors.nodup
    (List.pairwise_singleton (Apart page.heap.parentOf) n)
  rw [List.append_nil] at hapart
  have hbelow : ∀ s ∈ (children page.heap n).reverse, ∀ y, Below page.heap.parentOf y s →
      y ∈ Finset.range page.heap.size := fun s hs y hy =>
    Finset.mem_range.2 (hwf.lt_of_below (hwf.mirrors.child_lt (List.mem_reverse.1 hs)) hy)
  have hsame : ∀ x rest,
      Searching (children page.heap) (fun x => page.isElement x && call x sel)
        (children page.heap n).reverse (x :: rest) → (page.isElement x && call x sel) = false →
      (searched page x).take (64 - rest.length) = children page.heap x := by
    intro x rest hsearch htest
    unfold searched
    split_ifs with helem
    · have hroom := hroomy.below x rest hsearch htest
      exact List.take_of_length_le (by omega)
    · rw [List.take_nil, hroomy.leaves x rest hsearch (Bool.eq_false_iff.2 helem)]
  rw [hasDescendant_eq, List.take_of_length_le hroomy.kids,
    stackSearch_iff hwf.acyclic hwf.goesDown hwf.mirrors.nodup hbelow
      (by rw [Finset.card_range]; exact Nat.le_succ _) hapart hsame]
  simp only [List.mem_reverse, Bool.and_eq_true]
  constructor
  · rintro ⟨c, hc, x, hx, hmatch⟩
    exact ⟨x, Relation.TransGen.head'_iff.2 ⟨c, hc, hx⟩, hmatch⟩
  · rintro ⟨x, hx, hmatch⟩
    obtain ⟨c, hc, hcx⟩ := Relation.TransGen.head'_iff.1 hx
    exact ⟨c, hc, x, hcx, hmatch⟩

/-- The branches of `:has` are about the combinator in front of its argument. -/
theorem hasPseudo_relative (call : NodeId → Bytes → Id Bool) (arg : Bytes) :
    hasPseudo page n call arg = match relative arg with
      | (.child, r) => (children page.heap n).anyM fun c =>
          if page.isElement c then call c (r.dropWhile isspace) else pure false
      | (.next, r) => match (page.nextElems n).head? with
          | some nxt => call nxt r
          | none => pure false
      | (.subsequent, r) => (page.nextElems n).anyM fun s => call s r
      | (.descendant, r) => hasDescendant page call r (page.heap.size + 1)
          ((children page.heap n).take 64).reverse := by
  unfold hasPseudo relative
  generalize arg.dropWhile isspace = t
  split
  · rfl
  · rfl
  · rfl
  · rename_i hchild hnext hlater
    have hother : leadingSign t = (.descendant, t) := by
      unfold leadingSign
      split
      · exact absurd rfl (hchild _)
      · exact absurd rfl (hnext _)
      · exact absurd rfl (hlater _)
      · rfl
    rw [hother]

/-- `:has` asks about the nodes that its argument names. -/
theorem hasPseudo_iff (hwf : WellFormed page.heap) (hn : page.isElement n = true) {arg : Bytes}
    (hroomy : (relative arg).1 = .descendant →
      page.Roomy (fun x => page.isElement x && matchFresh page x (relative arg).2) n) :
    Id.run (hasPseudo page n (fun n t => pure (matchFresh page n t)) arg) = true ↔
      page.Has n arg := by
  rw [hasPseudo_relative, Page.Has]
  revert hroomy
  rcases relative arg with ⟨kin, r⟩
  intro hroomy
  cases kin with
  | child =>
    have htest : (fun c => if page.isElement c then pure (matchFresh page c (r.dropWhile isspace))
        else pure false : NodeId → Id Bool) =
          fun c => pure (page.isElement c && matchFresh page c r) := by
      funext c
      rw [matchFresh_skip]
      cases page.isElement c <;> rfl
    show Id.run ((children page.heap n).anyM _) = true ↔ ∃ x, x ∈ children page.heap n ∧ _
    rw [htest, List.anyM_pure]
    show (children page.heap n).any _ = true ↔ _
    rw [List.any_eq_true]
    simp only [Bool.and_eq_true]
  | next =>
    have hnext : (page.nextElems n).head? = (page.others n true).find? page.isElement := by
      rw [nextElems_eq hwf hn, List.head?_filter]
    show Id.run (match (page.nextElems n).head? with
      | some nxt => pure (matchFresh page nxt r)
      | none => pure false) = true ↔ ∃ x, (page.others n true).find? page.isElement = some x ∧ _
    rw [hnext]
    cases hfind : (page.others n true).find? page.isElement with
    | none => simp
    | some x =>
      have helem := List.find?_some hfind
      simp [helem]
  | subsequent =>
    show Id.run ((page.nextElems n).anyM fun s => pure (matchFresh page s r)) = true ↔
      ∃ x, x ∈ page.others n true ∧ _
    rw [List.anyM_pure, nextElems_eq hwf hn]
    show ((page.others n true).filter page.isElement).any _ = true ↔ _
    rw [List.any_eq_true]
    simp only [List.mem_filter, and_assoc]
  | descendant => exact hasDescendant_iff hwf (matchFresh page) r (hroomy rfl)

end Has

/-! ## The pseudo-classes -/

theorem wellFormed_onePage (tag : String) : WellFormed (onePage tag).heap := by
  refine wellFormed_of_bare fun x => ?_
  show (if x = 0 then _ else _ : MiniNode).bare = if x = 0 then _ else _
  split_ifs <;> rfl

end TinyFramework.Css
