/-
  Css/QuerySelector.lean --- the elements that a list of selectors picks out of a document.

  The source walks the document once for each selector of the list and puts what it finds
  behind what it has found.  This is the document order exactly when the selectors pick
  their elements one after the other, and the cache of compiled selectors answers as on a
  freshly parsed selector.
-/
import TinyFramework.Css.Nesting
import TinyFramework.Css.SelectorLists
import Mathlib.Data.List.Sort

set_option autoImplicit false

namespace TinyFramework.Css

open TinyFramework.Foundation TinyFramework.Dom

/-- The part of `MiniDocument` that a query uses. -/
structure QueriedDocument where
  page : Page
  root : Option NodeId
  body : Option NodeId

/-- `doc->root ? doc->root : doc->body` -/
def QueriedDocument.start (doc : QueriedDocument) : Option NodeId :=
  match doc.root with
  | some root => some root
  | none => doc.body

/-- What is found so far, and the cache of compiled selectors. -/
abbrev QueryState := List NodeId × CsRun

/-- The test of one node. -/
def collectNode (page : Page) (sel : Bytes) (max : Nat) (st : QueryState) (n : NodeId) :
    QueryState :=
  let hit := matchComplex page n sel st.2
  (if hit.1 then if st.1.length < max then st.1 ++ [n] else st.1 else st.1, hit.2)

/-- `walk_collect`; the bound is on the depth of the recursion. -/
def walkCollect (page : Page) (sel : Bytes) (max : Nat) : Nat → NodeId → QueryState → QueryState
  | 0, _, st => st
  | fuel + 1, n, st =>
      (children page.heap n).foldl (fun st c => walkCollect page sel max fuel c st)
        (collectNode page sel max st n)

/-- The loop up to a comma that no bracket is open at; what is read, and what is behind. -/
def readSelector : Nat → Bytes → Bytes × Bytes
  | _, [] => ([], [])
  | depth, c :: s =>
      if c == 44 && depth == 0 then ([], s)
      else
        let (tok, rest) := readSelector (openAfter depth c) s
        (c :: tok, rest)

/-- The loop of `mini_dom_query_selector_all`; each round reads a byte at least. -/
def queryLoop (doc : QueriedDocument) (max : Nat) : Nat → Bytes → QueryState → QueryState
  | 0, _, st => st
  | fuel + 1, p, st =>
      if st.1.length < max then
        match p.dropWhile isspace with
        | [] => st
        | c :: s =>
            let (tok, p) := readSelector 0 (c :: s)
            let tok := tok.rdropWhile isspace
            let st := if tok.isEmpty then st else
              match doc.start with
              | some n => walkCollect doc.page tok max doc.page.heap.size n st
              | none => st
            queryLoop doc max fuel p st
      else st

/-- `mini_dom_query_selector_all`; the text goes through a buffer of 512 bytes. -/
def querySelectorAll (doc : QueriedDocument) (selector : Bytes) (max : Nat) :
    StateM CsRun (List NodeId) := fun cache =>
  queryLoop doc max (selector.length + 1) (selector.take 511) ([], cache)

/-- `mini_dom_query_selector` -/
def querySelector (doc : QueriedDocument) (selector : Bytes) : StateM CsRun (Option NodeId) :=
  List.head? <$> querySelectorAll doc selector 1

/-! ## What is asked for -/

/-- The text between the commas of a list that stand outside of brackets, strings and escapes. -/
def selectorsFrom (depth : Nat) (quote : Option UInt8) : Bytes → List Bytes
  | [] => [[]]
  | [c] => if quote = none ∧ depth = 0 ∧ c = 44 then [[], []] else [[c]]
  | c :: e :: s =>
      if c = 92 then (selectorsFrom depth quote s).modifyHead fun t => c :: e :: t
      else
        match quote with
        | some q =>
            (selectorsFrom depth (if c = q then none else some q) (e :: s)).modifyHead (c :: ·)
        | none =>
            if c = 34 ∨ c = 39 then (selectorsFrom depth (some c) (e :: s)).modifyHead (c :: ·)
            else if c = 44 ∧ depth = 0 then [] :: selectorsFrom 0 none (e :: s)
            else (selectorsFrom (openAfter depth c) none (e :: s)).modifyHead (c :: ·)

/-- The selectors of a list. -/
def selectorsOf (list : Bytes) : List Bytes := (selectorsFrom 0 none list).map trim

/-- The nodes of a document, in document order. -/
def QueriedDocument.nodes (doc : QueriedDocument) : List NodeId :=
  match doc.start with
  | some n => documentOrder doc.page.heap n
  | none => []

/-- The elements that match some selector of a list, in document order. -/
def QueriedDocument.selected (doc : QueriedDocument) (list : Bytes) : List NodeId :=
  doc.nodes.filter fun n =>
    doc.page.isElement n && (selectorsOf list).any fun s => matchFresh doc.page n s

/-! ## The loop -/

/-- The selectors that the loop goes through: it counts brackets only. -/
def piecesOf (list : Bytes) : List Bytes :=
  ((alternatives list).map trim).filter fun t => !t.isEmpty

/-- The matches that the walks for some selectors make. -/
def QueriedDocument.calls (doc : QueriedDocument) (sels : List Bytes) :
    List (Page × NodeId × Bytes) :=
  sels.flatMap fun sel => doc.nodes.map fun n => (doc.page, n, sel)

theorem QueriedDocument.calls_append (doc : QueriedDocument) (sels later : List Bytes) :
    doc.calls (sels ++ later) = doc.calls sels ++ doc.calls later :=
  List.flatMap_append

theorem matchHistory_cons (page : Page) (n : NodeId) (sel : Bytes)
    (calls : List (Page × NodeId × Bytes)) (cache : CsRun) :
    (matchHistory ((page, n, sel) :: calls) cache).2 =
      (matchHistory calls (matchComplex page n sel cache).2).2 := by
  rw [matchHistory, List.mapM_cons]
  rfl

theorem matchHistory_append (calls later : List (Page × NodeId × Bytes)) (cache : CsRun) :
    (matchHistory (calls ++ later) cache).2 =
      (matchHistory later (matchHistory calls cache).2).2 := by
  induction calls generalizing cache with
  | nil => rfl
  | cons call calls ih =>
    obtain ⟨page, n, sel⟩ := call
    rw [List.cons_append, matchHistory_cons, matchHistory_cons, ih]

/-- A history that is safe at its end was safe all along. -/
theorem safe_of_matchHistory {calls : List (Page × NodeId × Bytes)} {cache : CsRun}
    (h : (matchHistory calls cache).2.safe = true) : cache.safe = true :=
  (matchHistory_agree calls cache h).1

section Loop

variable {doc : QueriedDocument} {max : Nat} {out : List NodeId} {cache : CsRun} {sel s : Bytes}

/-- What the walk for one selector finds. -/
def QueriedDocument.found (doc : QueriedDocument) (sel : Bytes) : List NodeId :=
  doc.nodes.filter fun n => matchFresh doc.page n sel

/-- The tests of a list of nodes, up to the given number of hits. -/
theorem foldl_collect (page : Page) (l : List NodeId) (h : out.length ≤ max)
    (hsafe : (matchHistory (l.map fun n => (page, n, sel)) cache).2.safe = true) :
    l.foldl (collectNode page sel max) (out, cache) =
      ((out ++ l.filter fun n => matchFresh page n sel).take max,
        (matchHistory (l.map fun n => (page, n, sel)) cache).2) := by
  induction l generalizing out cache with
  | nil =>
    rw [List.foldl_nil, List.filter_nil, List.append_nil, List.take_of_length_le h]
    rfl
  | cons n l ih =>
    rw [List.map_cons, matchHistory_cons] at hsafe ⊢
    have hfresh := ((matchComplex_agree page n sel cache (safe_of_matchHistory hsafe)).2 trivial).1
    rw [List.foldl_cons, collectNode]
    dsimp only
    rw [hfresh]
    by_cases hn : matchFresh page n sel = true
    · rw [if_pos hn, List.filter_cons_of_pos (p := fun n => matchFresh page n sel) hn]
      split_ifs with hlt
      · rw [ih (by rw [List.length_append]; exact hlt) hsafe, List.append_assoc]
        rfl
      · have hfull : out.length = max := Nat.le_antisymm h (Nat.not_lt.1 hlt)
        rw [ih h hsafe, List.take_append_of_le_length hfull.ge,
          List.take_append_of_le_length hfull.ge]
    · rw [if_neg hn, List.filter_cons_of_neg (p := fun n => matchFresh page n sel) hn, ih h hsafe]

theorem walkCollect_eq (page : Page) (fuel : Nat) (n : NodeId) (st : QueryState) :
    walkCollect page sel max fuel n st =
      Foundation.descend (children page.heap) (collectNode page sel max) fuel n st := by
  induction fuel generalizing n st with
  | zero => rfl
  | succ fuel ih =>
    rw [walkCollect, Foundation.descend]
    simp only [ih]

theorem visit_eq (h : out.length ≤ max)
    (hsafe : (matchHistory (doc.calls [sel]) cache).2.safe = true) :
    (match doc.start with
      | some n => walkCollect doc.page sel max doc.page.heap.size n (out, cache)
      | none => (out, cache)) =
      ((out ++ doc.found sel).take max, (matchHistory (doc.calls [sel]) cache).2) := by
  unfold QueriedDocument.calls QueriedDocument.found QueriedDocument.nodes at *
  rw [List.flatMap_singleton] at hsafe ⊢
  cases hstart : doc.start with
  | none =>
    rw [List.filter_nil, List.append_nil, List.take_of_length_le h]
    rfl
  | some n =>
    rw [hstart] at hsafe
    dsimp only
    rw [walkCollect_eq, descend_eq]
    exact foldl_collect _ _ h hsafe

theorem readSelector_eq (depth : Nat) (s : Bytes) :
    (readSelector depth s).2.length ≤ s.length ∧
      (s ≠ [] → (readSelector depth s).2.length < s.length) ∧
      ∃ tail, alternativesFrom depth s = (readSelector depth s).1 :: tail ∧
        tail.filter (fun t => !(trim t).isEmpty) =
          ((alternatives (readSelector depth s).2).filter fun t => !(trim t).isEmpty) := by
  induction s generalizing depth with
  | nil => exact ⟨Nat.le_refl _, fun h => absurd rfl h, [], rfl, rfl⟩
  | cons c s ih =>
    rw [readSelector, alternativesFrom]
    split_ifs with hc
    · exact ⟨Nat.le_succ _, fun _ => Nat.lt_succ_self _, _, rfl, rfl⟩
    · obtain ⟨hle, -, tail, htail, hrest⟩ := ih (openAfter depth c)
      rw [htail]
      exact ⟨Nat.le_succ_of_le hle, fun _ => Nat.lt_succ_of_le hle, tail, rfl, hrest⟩

theorem piecesOf_cons_space {c : UInt8} (hc : isspace c = true) (s : Bytes) :
    piecesOf (c :: s) = piecesOf s := by
  have hcomma : ¬ (c == 44 && (0 : Nat) == 0) = true := by
    intro h
    rw [Bool.and_eq_true, beq_iff_eq] at h
    rw [h.1] at hc
    exact absurd hc (by decide)
  have hopen : openAfter 0 c = 0 := by
    unfold openAfter
    split_ifs with h
    · rw [Bool.or_eq_true, beq_iff_eq, beq_iff_eq] at h
      rcases h with rfl | rfl <;> exact absurd hc (by decide)
    · rfl
    · rfl
  have htrim : ∀ t : Bytes, trim (c :: t) = trim t := fun t => by
    rw [trim, List.dropWhile_cons_of_pos hc]
    rfl
  have hstep : alternatives (c :: s) = (alternatives s).modifyHead (c :: ·) := by
    rw [alternatives, alternativesFrom, if_neg hcomma, hopen]
    obtain ⟨-, -, tail, htail, -⟩ := readSelector_eq 0 s
    rw [alternatives, htail]
    rfl
  obtain ⟨-, -, tail, htail, -⟩ := readSelector_eq 0 s
  rw [piecesOf, piecesOf, hstep, alternatives, htail, List.modifyHead_cons, List.map_cons,
    List.map_cons, htrim]

theorem piecesOf_dropWhile (s : Bytes) : piecesOf (s.dropWhile isspace) = piecesOf s := by
  induction s with
  | nil => rfl
  | cons c s ih =>
    by_cases hc : isspace c = true
    · rw [List.dropWhile_cons_of_pos hc, ih, piecesOf_cons_space hc]
    · rw [List.dropWhile_cons_of_neg hc]

/-- The first piece is what a round reads. -/
theorem piecesOf_read {s : Bytes} (hs : s.head?.all fun c => !isspace c) :
    piecesOf s = (if ((readSelector 0 s).1.rdropWhile isspace).isEmpty then []
      else [(readSelector 0 s).1.rdropWhile isspace]) ++ piecesOf (readSelector 0 s).2 := by
  obtain ⟨-, -, tail, htail, hrest⟩ := readSelector_eq 0 s
  have htrim : trim (readSelector 0 s).1 = (readSelector 0 s).1.rdropWhile isspace := by
    rw [trim]
    cases s with
    | nil => rfl
    | cons c s =>
      have hc : ¬ isspace c = true := by simpa using hs
      rw [readSelector]
      split_ifs
      · rfl
      · rw [List.dropWhile_cons_of_neg hc]
  have hmap : ∀ l : List Bytes, (l.map trim).filter (fun t => !t.isEmpty) =
      (l.filter fun t => !(trim t).isEmpty).map trim := fun l => List.filter_map
  rw [piecesOf, alternatives, htail, List.map_cons, htrim, List.filter_cons, hmap, hrest, ← hmap]
  cases ((readSelector 0 s).1.rdropWhile isspace).isEmpty <;> rfl

theorem take_take_append {α : Type} (n : Nat) (l r : List α) :
    (l.take n ++ r).take n = (l ++ r).take n := by
  rw [List.take_append, List.take_append, List.take_take, Nat.min_self, List.length_take]
  have hsub : n - min n l.length = n - l.length := by omega
  rw [hsub]

/-- The loop finds what each piece picks, piece by piece, up to the given number. -/
theorem queryLoop_eq (fuel : Nat) (p : Bytes) (hfuel : p.length < fuel) (h : out.length ≤ max)
    (hsafe : (matchHistory (doc.calls (piecesOf p)) cache).2.safe = true) :
    (queryLoop doc max fuel p (out, cache)).1 =
      (out ++ (piecesOf p).flatMap doc.found).take max := by
  induction fuel generalizing p out cache with
  | zero => exact absurd hfuel (Nat.not_lt_zero _)
  | succ fuel ih =>
    rw [← piecesOf_dropWhile] at hsafe ⊢
    rw [queryLoop]
    dsimp only
    split_ifs with hlt
    · have hle := List.length_dropWhile_le isspace p
      have hhead : (p.dropWhile isspace).head?.all fun c => !isspace c := by
        have hnot := List.head?_dropWhile_not isspace p
        cases hd : (p.dropWhile isspace).head? with
        | none => rfl
        | some c =>
          rw [hd] at hnot
          simpa using hnot
      cases hp : p.dropWhile isspace with
      | nil =>
        have hnil : piecesOf [] = [] := rfl
        rw [hnil, List.flatMap_nil, List.append_nil, List.take_of_length_le h]
      | cons c s =>
        rw [hp] at hle hhead hsafe
        have hshort := (readSelector_eq 0 (c :: s)).2.1 (List.cons_ne_nil c s)
        rw [piecesOf_read hhead] at hsafe ⊢
        dsimp only
        split_ifs at hsafe ⊢ with hempty
        · exact ih _ (by omega) h hsafe
        · rw [doc.calls_append, matchHistory_append] at hsafe
          rw [visit_eq h (safe_of_matchHistory hsafe), ih _ (by omega) (List.length_take_le _ _) hsafe,
            List.singleton_append, List.flatMap_cons, ← List.append_assoc, take_take_append]
    · have hfull : out.length = max := Nat.le_antisymm h (Nat.not_lt.1 hlt)
      rw [List.take_append_of_le_length hfull.ge, List.take_of_length_le h]

/-- The walks for the selectors of a list meet the condition on the cache. -/
def QueriedDocument.CacheSafe (doc : QueriedDocument) (list : Bytes) (cache : CsRun) : Prop :=
  (matchHistory (doc.calls (piecesOf list)) cache).2.safe = true

instance (doc : QueriedDocument) (list : Bytes) (cache : CsRun) :
    Decidable (doc.CacheSafe list cache) :=
  inferInstanceAs (Decidable (_ = true))

theorem querySelectorAll_eq {list : Bytes} (hlist : list.length < 512)
    (hsafe : doc.CacheSafe list cache) (max : Nat) :
    (querySelectorAll doc list max cache).1 = ((piecesOf list).flatMap doc.found).take max := by
  rw [querySelectorAll, List.take_of_length_le (Nat.le_of_lt_succ hlist),
    queryLoop_eq _ _ (Nat.lt_succ_self _) (Nat.zero_le _) hsafe]
  rfl

theorem querySelector_eq {list : Bytes} (hlist : list.length < 512)
    (hsafe : doc.CacheSafe list cache) :
    (querySelector doc list cache).1 = (((piecesOf list).flatMap doc.found).take 1).head? := by
  rw [← querySelectorAll_eq hlist hsafe]
  rfl

end Loop

/-! ## Lists in document order -/

section Order

variable {α β : Type}

/-- What several tests pick of a list, one after the other, is what one test picks of it, when
they pick the same and none behind what a later one picks. -/
theorem flatMap_filter_eq_iff {R : α → α → Prop} [Std.Irrefl R] [Std.Antisymm R] {l : List α}
    (hl : l.Pairwise R) (hit : β → α → Bool) (tests : List β) (p : α → Bool) :
    tests.flatMap (fun t => l.filter (hit t)) = l.filter p ↔
      (∀ x ∈ l, (∃ t ∈ tests, hit t x = true) ↔ p x = true) ∧
        tests.Pairwise fun t u => ∀ x ∈ l, ∀ y ∈ l, hit t x = true → hit u y = true → R x y := by
  have hmem : ∀ x, x ∈ tests.flatMap (fun t => l.filter (hit t)) ↔
      x ∈ l ∧ ∃ t ∈ tests, hit t x = true := by
    intro x
    simp only [List.mem_flatMap, List.mem_filter]
    exact ⟨fun ⟨t, ht, hx, hhit⟩ => ⟨hx, t, ht, hhit⟩, fun ⟨hx, t, ht, hhit⟩ => ⟨t, ht, hx, hhit⟩⟩
  constructor
  · intro heq
    refine ⟨fun x hx => ?_, ?_⟩
    · have hboth := hmem x
      rw [heq, List.mem_filter, and_congr_right_iff] at hboth
      exact (hboth hx).symm
    · have hpair : (tests.flatMap fun t => l.filter (hit t)).Pairwise R := heq ▸ hl.filter p
      refine (List.pairwise_flatMap.1 hpair).2.imp fun htu x hx y hy hxt hyu => ?_
      exact htu x (List.mem_filter.2 ⟨hx, hxt⟩) y (List.mem_filter.2 ⟨hy, hyu⟩)
  · rintro ⟨hsame, hpair⟩
    refine List.Pairwise.eq_of_mem_iff (r := R) ?_ (hl.filter p) fun x => ?_
    · refine List.pairwise_flatMap.2 ⟨fun t _ => hl.filter _, hpair.imp fun htu x hx y hy => ?_⟩
      exact htu x (List.mem_filter.1 hx).1 y (List.mem_filter.1 hy).1 (List.mem_filter.1 hx).2
        (List.mem_filter.1 hy).2
    · rw [hmem, List.mem_filter]
      exact and_congr_right (hsame x)

end Order

/-! ## Strings without brackets -/

section Strings

/-- A byte inside of a string that the count of brackets passes over. -/
def Inert (depth : Nat) (c : UInt8) : Prop := openAfter depth c = depth ∧ (c = 44 → depth ≠ 0)

/-- The strings and escapes of a list have no brackets, and no commas outside of brackets. -/
def StringsPlain (depth : Nat) (quote : Option UInt8) : Bytes → Prop
  | [] => True
  | [c] => quote ≠ none → Inert depth c
  | c :: e :: s =>
      if c = 92 then Inert depth e ∧ StringsPlain depth quote s
      else
        match quote with
        | some q => Inert depth c ∧ StringsPlain depth (if c = q then none else some q) (e :: s)
        | none =>
            if c = 34 ∨ c = 39 then StringsPlain depth (some c) (e :: s)
            else if c = 44 ∧ depth = 0 then StringsPlain 0 none (e :: s)
            else StringsPlain (openAfter depth c) none (e :: s)

theorem alternativesFrom_cons {depth : Nat} {c : UInt8} (hc : ¬ (c = 44 ∧ depth = 0)) (s : Bytes) :
    alternativesFrom depth (c :: s) =
      (alternativesFrom (openAfter depth c) s).modifyHead (c :: ·) := by
  obtain ⟨-, -, tail, htail, -⟩ := readSelector_eq (openAfter depth c) s
  rw [alternativesFrom, if_neg (by simpa using hc), htail]
  rfl

theorem Inert.alternativesFrom_cons {depth : Nat} {c : UInt8} (hc : Inert depth c) (s : Bytes) :
    alternativesFrom depth (c :: s) = (alternativesFrom depth s).modifyHead (c :: ·) := by
  rw [Css.alternativesFrom_cons (fun h => hc.2 h.1 h.2), hc.1]

theorem inert_of_ne {c : UInt8} (depth : Nat) (hc : c = 92 ∨ c = 34 ∨ c = 39) : Inert depth c := by
  rcases hc with rfl | rfl | rfl <;> exact ⟨rfl, fun h => absurd h (by decide)⟩

/-- Then the list is split where it should be. -/
theorem selectorsFrom_of_plain {depth : Nat} {quote : Option UInt8} {s : Bytes}
    (h : StringsPlain depth quote s) : selectorsFrom depth quote s = alternativesFrom depth s := by
  induction depth, quote, s using selectorsFrom.induct with
  | case1 => rfl
  | case2 depth quote c hsplit =>
    obtain ⟨rfl, rfl, rfl⟩ := hsplit
    rfl
  | case3 depth quote c hsplit =>
    rw [selectorsFrom, if_neg hsplit, Css.alternativesFrom_cons]
    · rfl
    · rintro ⟨rfl, rfl⟩
      refine (h fun hq => hsplit ⟨hq, rfl, rfl⟩).2 rfl rfl
  | case4 depth quote e s ih =>
    rw [StringsPlain.eq_def] at h
    dsimp only at h
    rw [if_pos rfl] at h
    rw [selectorsFrom.eq_def]
    dsimp only
    rw [if_pos rfl, ih h.2, (inert_of_ne depth (.inl rfl)).alternativesFrom_cons,
      h.1.alternativesFrom_cons]
    cases alternativesFrom depth s <;> rfl
  | case5 depth c e s hc q ih =>
    rw [StringsPlain, if_neg hc] at h
    rw [selectorsFrom, if_neg hc, h.1.alternativesFrom_cons]
    exact congrArg _ (ih h.2)
  | case6 depth c e s hc hquote ih =>
    rw [StringsPlain, if_neg hc, if_pos hquote] at h
    rw [selectorsFrom, if_neg hc, if_pos hquote, ih h,
      (inert_of_ne depth (.inr hquote)).alternativesFrom_cons]
  | case7 depth c e s hc hquote hcomma ih =>
    rw [StringsPlain, if_neg hc, if_neg hquote, if_pos hcomma] at h
    rw [selectorsFrom, if_neg hc, if_neg hquote, if_pos hcomma, ih h]
    obtain ⟨rfl, rfl⟩ := hcomma
    rfl
  | case8 depth c e s hc hquote hcomma ih =>
    rw [StringsPlain, if_neg hc, if_neg hquote, if_neg hcomma] at h
    rw [selectorsFrom, if_neg hc, if_neg hquote, if_neg hcomma, ih h,
      Css.alternativesFrom_cons hcomma]

end Strings

/-! ## The query -/

/-- `x` stands in front of `y` in document order. -/
def Before (d : NodeHeap) (x y : NodeId) : Prop :=
  miniNodePrecedes d x y = true ∧ miniNodePrecedes d y x = false

instance (d : NodeHeap) : Std.Irrefl (Before d) where
  irrefl _ h := absurd (h.1.symm.trans h.2) Bool.noConfusion

instance (d : NodeHeap) : Std.Antisymm (Before d) where
  antisymm _ _ h h' := absurd (h.1.symm.trans h'.2) Bool.noConfusion

/-- The pieces pick elements only, those that the list asks for, and none in front of what an
earlier piece picks. -/
structure QueriedDocument.PicksInTurn (doc : QueriedDocument) (list : Bytes) : Prop where
  elements : ∀ x ∈ doc.nodes, ∀ t ∈ piecesOf list, matchFresh doc.page x t = true →
    doc.page.isElement x = true
  splits : ∀ x ∈ doc.nodes, doc.page.isElement x = true →
    ((∃ t ∈ piecesOf list, matchFresh doc.page x t = true) ↔
      ∃ s ∈ selectorsOf list, matchFresh doc.page x s = true)
  ordered : (piecesOf list).Pairwise fun t u => ∀ x ∈ doc.nodes, ∀ y ∈ doc.nodes,
    matchFresh doc.page x t = true → matchFresh doc.page y u = true →
      miniNodePrecedes doc.page.heap x y = true

section Query

variable {doc : QueriedDocument} {list : Bytes}

theorem pairwise_nodes (hwf : WellFormed doc.page.heap) :
    doc.nodes.Pairwise (Before doc.page.heap) := by
  unfold QueriedDocument.nodes
  cases doc.start with
  | none => exact List.Pairwise.nil
  | some n => exact hwf.pairwise_precedes doc.page.heap.size n

theorem before_iff_precedes (hwf : WellFormed doc.page.heap) {x y : NodeId} (hx : x ∈ doc.nodes)
    (hy : y ∈ doc.nodes) :
    Before doc.page.heap x y ↔ miniNodePrecedes doc.page.heap x y = true := by
  refine and_iff_left_of_imp fun hxy => ?_
  unfold QueriedDocument.nodes at hx hy
  cases hstart : doc.start with
  | none =>
    rw [hstart] at hx
    cases hx
  | some n =>
    rw [hstart] at hx hy
    exact hwf.precedes_asymm hx hy hxy

/-- A list whose strings are plain is split as it should be. -/
theorem splits_of_plain (hplain : StringsPlain 0 none list) (x : NodeId) :
    (∃ t ∈ piecesOf list, matchFresh doc.page x t = true) ↔
      ∃ s ∈ selectorsOf list, matchFresh doc.page x s = true := by
  have hsame : selectorsOf list = (alternatives list).map trim := by
    rw [selectorsOf, selectorsFrom_of_plain hplain, alternatives]
  rw [hsame, piecesOf]
  refine exists_congr fun t => and_congr_left fun ht => ?_
  rw [List.mem_filter]
  refine and_iff_left_of_imp fun _ => ?_
  cases t with
  | nil => cases ht
  | cons c t => rfl

/-- What is collected is what is asked for. -/
theorem collected_iff (hwf : WellFormed doc.page.heap) :
    (piecesOf list).flatMap doc.found = doc.selected list ↔ doc.PicksInTurn list := by
  unfold QueriedDocument.selected
  have hiff := flatMap_filter_eq_iff (pairwise_nodes hwf)
    (fun t n => matchFresh doc.page n t) (piecesOf list) fun n =>
      doc.page.isElement n && (selectorsOf list).any fun s => matchFresh doc.page n s
  refine hiff.trans ?_
  simp only [Bool.and_eq_true, List.any_eq_true]
  constructor
  · rintro ⟨hsame, hpair⟩
    refine ⟨fun x hx t ht hxt => ((hsame x hx).1 ⟨t, ht, hxt⟩).1, fun x hx helem => ?_, ?_⟩
    · exact (hsame x hx).trans (and_iff_right helem)
    · exact hpair.imp fun htu x hx y hy hxt hyu =>
        (before_iff_precedes hwf hx hy).1 (htu x hx y hy hxt hyu)
  · rintro ⟨helements, hsplits, hordered⟩
    refine ⟨fun x hx => ⟨fun hpicked => ?_, fun hasked => (hsplits x hx hasked.1).2 hasked.2⟩, ?_⟩
    · obtain ⟨t, ht, hxt⟩ := hpicked
      have helem := helements x hx t ht hxt
      exact ⟨helem, (hsplits x hx helem).1 ⟨t, ht, hxt⟩⟩
    · exact hordered.imp fun htu x hx y hy hxt hyu =>
        (before_iff_precedes hwf hx hy).2 (htu x hx y hy hxt hyu)

/-- Where the cache answers as on freshly parsed selectors: with room enough both queries answer
what is asked for exactly when the pieces of the list pick their elements in turn. -/
theorem querySelectorAll_iff (hwf : WellFormed doc.page.heap) (hlist : list.length < 512)
    {cache : CsRun} (hsafe : doc.CacheSafe list cache) :
    (∃ room, ∀ max, room ≤ max → (querySelectorAll doc list max cache).1 = doc.selected list ∧
        (querySelector doc list cache).1 = (doc.selected list).head?) ↔ doc.PicksInTurn list := by
  rw [← collected_iff hwf]
  simp only [querySelectorAll_eq hlist hsafe, querySelector_eq hlist hsafe]
  constructor
  · rintro ⟨room, hroom⟩
    have hall := (hroom _ (Nat.le_max_left room ((piecesOf list).flatMap doc.found).length)).1
    rwa [List.take_of_length_le (Nat.le_max_right _ _)] at hall
  · intro heq
    refine ⟨((piecesOf list).flatMap doc.found).length, fun max hmax => ⟨?_, ?_⟩⟩
    · rw [List.take_of_length_le hmax, heq]
    · rw [heq]
      cases doc.selected list <;> rfl

end Query

/-- On a page of one element the second selector of a list picks it, and the first one none. -/
theorem querySelectorAll_iff_one :
    let doc : QueriedDocument := ⟨onePage "a", some 0, none⟩
    doc.PicksInTurn (ascii "b, a") ∧ doc.selected (ascii "b, a") = [0] ∧
      ∃ room, ∀ max, room ≤ max →
        (querySelectorAll doc (ascii "b, a") max .initial).1 = doc.selected (ascii "b, a") ∧
          (querySelector doc (ascii "b, a") .initial).1 = (doc.selected (ascii "b, a")).head? := by
  intro doc
  have hturn : doc.PicksInTurn (ascii "b, a") := by
    refine ⟨fun x hx _ _ _ => ?_, fun x _ _ => splits_of_plain (by simp [StringsPlain, ascii]) x,
      ?_⟩
    · rw [List.mem_singleton.1 hx]
      rfl
    · refine List.pairwise_pair.2 fun x hx y _ hxb _ => ?_
      rw [List.mem_singleton.1 hx] at hxb
      exact absurd hxb (by decide)
  exact ⟨hturn, by decide, (querySelectorAll_iff (wellFormed_onePage "a") (by decide)
    (by decide +kernel)).2 hturn⟩

/-- An element that two selectors pick is found twice. -/
theorem picked_twice :
    let doc : QueriedDocument := ⟨onePage "a", some 0, none⟩
    (∀ max, 2 ≤ max → (querySelectorAll doc (ascii "a,*") max .initial).1 = [0, 0]) ∧
      doc.selected (ascii "a,*") = [0] ∧
        ¬ ∃ room, ∀ max, room ≤ max →
          (querySelectorAll doc (ascii "a,*") max .initial).1 = doc.selected (ascii "a,*") := by
  intro doc
  have hall : (piecesOf (ascii "a,*")).flatMap doc.found = [0, 0] := by decide
  have htwice : ∀ max, 2 ≤ max →
      (querySelectorAll doc (ascii "a,*") max .initial).1 = [0, 0] := by
    intro max hmax
    rw [querySelectorAll_eq (by decide) (by decide +kernel), hall, List.take_of_length_le hmax]
  have honce : doc.selected (ascii "a,*") = [0] := by decide
  refine ⟨htwice, honce, fun ⟨room, hroom⟩ => ?_⟩
  have hsame := hroom (max room 2) (Nat.le_max_left room 2)
  rw [htwice _ (Nat.le_max_right room 2), honce] at hsame
  exact absurd hsame (by decide)

end TinyFramework.Css
