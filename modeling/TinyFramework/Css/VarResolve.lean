/-
  Css/VarResolve.lean --- what the resolution of `var()` comes to.

  A text is read as letters and references; a round of substitution writes a value for each
  reference and copies the rest.  `resolve_vars_uncached` makes eight rounds, or as many as
  there are references in the text.  White space behind `var` that no parenthesis follows is
  lost, so texts that have it are set apart.
-/
import TinyFramework.Css.VarCache
import TinyFramework.Foundation.Brackets

set_option autoImplicit false

namespace TinyFramework.Css

open TinyFramework.Foundation TinyFramework.Dom

/-! ## Values -/

/-- The value of a name: of the nearest node that defines it, else of the registry. -/
inductive ScopedValue (d : NodeHeap) (vars : VarList) (name : Bytes) :
    Option NodeId → Bytes → Prop where
  | registry : ScopedValue d vars name none ((vars.lookup name).getD [])
  | here {n : NodeId} {value : Bytes} : (d.node n).vars.lookup name = some value →
      ScopedValue d vars name (some n) value
  | above {n : NodeId} {value : Bytes} : (d.node n).vars.lookup name = none →
      ScopedValue d vars name (d.node n).parent value → ScopedValue d vars name (some n) value

theorem scopedValue_scopeVars {d : NodeHeap} (hac : Acyclic d.parentOf) (vars : VarList)
    (name : Bytes) {fuel : Nat} {n : NodeId} {A : Finset NodeId}
    (hA : ∀ a, Below d.parentOf n a → a ∈ A) (hfuel : A.card ≤ fuel) :
    ScopedValue d vars name (some n)
      (((scopeVars d fuel (some n)).lookup name).getD ((vars.lookup name).getD [])) := by
  induction fuel generalizing n A with
  | zero =>
    rw [Finset.card_eq_zero.1 (Nat.le_zero.1 hfuel)] at hA
    exact absurd (hA n (Below.refl n)) (Finset.notMem_empty n)
  | succ fuel ih =>
    rw [scopeVars, List.lookup_append]
    cases hhere : (d.node n).vars.lookup name with
    | some value => exact .here hhere
    | none =>
      refine .above hhere ?_
      rw [Option.none_or]
      cases hp : (d.node n).parent with
      | none =>
        have hempty : scopeVars d fuel none = [] := by cases fuel <;> rfl
        rw [hempty]
        exact .registry
      | some p =>
        refine ih (A := A.erase n) (fun a ha => Finset.mem_erase.2 ⟨?_, hA a (.head hp ha)⟩) ?_
        · rintro rfl
          exact hac.not_below_of_parent hp ha
        · rw [Finset.card_erase_of_mem (hA n (Below.refl n))]
          omega

theorem ScopedValue.unique {d : NodeHeap} {vars : VarList} {name : Bytes} {node : Option NodeId}
    {v w : Bytes} (hv : ScopedValue d vars name node v) (hw : ScopedValue d vars name node w) :
    v = w := by
  induction hv with
  | registry =>
    cases hw
    rfl
  | here hhere =>
    cases hw with
    | here hhere' => exact Option.some.inj (hhere.symm.trans hhere')
    | above hnone _ => exact absurd (hhere.symm.trans hnone) (Option.some_ne_none _)
  | above hnone _ ih =>
    cases hw with
    | here hhere => exact absurd (hhere.symm.trans hnone) (Option.some_ne_none _)
    | above _ hw => exact ih hw

theorem getVarScoped_eq (d : NodeHeap) (vars : VarList) (node : Option NodeId) (name : Bytes) :
    getVarScoped d vars node name =
      ((scopeVars d d.size node).lookup name).getD ((vars.lookup name).getD []) := by
  unfold getVarScoped miniCssVarGet
  cases (scopeVars d d.size node).lookup name <;> rfl

/-- The lookup finds the nearest definition. -/
theorem scopedValue_getVarScoped {d : NodeHeap} (hwf : WellFormed d) (vars : VarList)
    {node : Option NodeId} (hnode : ∀ n ∈ node, n < d.size) (name : Bytes) :
    ScopedValue d vars name node (getVarScoped d vars node name) := by
  rw [getVarScoped_eq]
  cases node with
  | none =>
    have hempty : scopeVars d d.size none = [] := by cases d.size <;> rfl
    rw [hempty]
    exact .registry
  | some n =>
    refine scopedValue_scopeVars hwf.acyclic vars name (A := Finset.range d.size) (fun a ha => ?_)
      (Finset.card_range d.size).le
    rcases Relation.ReflTransGen.cases_tail ha with rfl | ⟨x, _, hx⟩
    · exact Finset.mem_range.2 (hnode a rfl)
    · exact Finset.mem_range.2 (hwf.mirrors.allocated x a hx).2

/-! ## Reading -/

/-- A byte that is copied, or a reference with what stands in its parentheses. -/
inductive VarPiece where
  | text (c : UInt8)
  | reference (name : Bytes) (fallback : Option Bytes)
  deriving DecidableEq, Repr

/-- What may stand between `var` and its parenthesis: nothing, or white space that begins with a
blank. -/
def Gap (gap : Bytes) : Prop := (∀ b ∈ gap, isspace b = true) ∧ ∀ b ∈ gap.head?, b = 32

/-- `var`, a gap, and an open parenthesis. -/
def opened (gap t : Bytes) : Bytes := 118 :: 97 :: 114 :: (gap ++ 40 :: t)

theorem gap_nil : Gap [] := ⟨fun _ h => absurd h List.not_mem_nil, fun _ h => by cases h⟩

/-- A text as pieces, from left to right. -/
inductive ReadsAs : Bytes → List VarPiece → Prop where
  | nil : ReadsAs [] []
  | text {c : UInt8} {t : Bytes} {pieces : List VarPiece} :
      (∀ gap u, Gap gap → c :: t ≠ opened gap u) → ReadsAs t pieces →
      ReadsAs (c :: t) (.text c :: pieces)
  | reference {gap t inner rest name : Bytes} {fallback : Option Bytes} {pieces : List VarPiece} :
      Gap gap → Encloses 40 41 t inner rest → SplitsAt 40 41 44 inner name fallback →
      ReadsAs rest pieces → ReadsAs (opened gap t) (.reference name fallback :: pieces)

/-- What is written for a piece: the value of the name if it is not empty, else the fallback, else
`0`. -/
def VarPiece.written (scope : Bytes → Bytes) : VarPiece → Bytes
  | .text c => [c]
  | .reference name fallback =>
      let value := scope (withoutDashes (trimmed name))
      if value ≠ [] then value else (fallback.map trimmed).getD [48]

/-- One round of substitution. -/
def Round (scope : Bytes → Bytes) (t u : Bytes) : Prop :=
  ∃ pieces, ReadsAs t pieces ∧ u = pieces.flatMap (VarPiece.written scope)

/-- So many rounds, one behind the other. -/
inductive Rounds (scope : Bytes → Bytes) : Nat → Bytes → Bytes → Prop where
  | zero (t : Bytes) : Rounds scope 0 t t
  | succ {n : Nat} {t u r : Bytes} : Round scope t u → Rounds scope n u r → Rounds scope (n + 1) t r

/-- There is no reference in the text. -/
def NoReference (t : Bytes) : Prop := ReadsAs t (t.map .text)

/-- Rounds are made until no reference is left. -/
def Substituted (scope : Bytes → Bytes) (t r : Bytes) : Prop :=
  (∃ n, Rounds scope n t r) ∧ NoReference r

/-- No white space is copied behind a `var` that is copied. -/
def NoLooseVar (pieces : List VarPiece) : Prop :=
  ∀ before c after, pieces = before ++ .text 118 :: .text 97 :: .text 114 :: .text c :: after →
    isspace c = false

def PlainText (t : Bytes) : Prop := ∀ pieces, ReadsAs t pieces → NoLooseVar pieces

variable {scope : Bytes → Bytes} {t u : Bytes} {pieces : List VarPiece}

theorem NoLooseVar.tail {p : VarPiece} (h : NoLooseVar (p :: pieces)) : NoLooseVar pieces :=
  fun before c after heq => h (p :: before) c after (by rw [heq, List.cons_append])

theorem ReadsAs.of_cons {c : UInt8} (h : ReadsAs (c :: t) pieces) (hc : c ≠ 118) :
    ∃ rest, pieces = .text c :: rest ∧ ReadsAs t rest := by
  generalize hs : c :: t = s at h
  cases h with
  | nil => cases hs
  | text _ h =>
    cases hs
    exact ⟨_, rfl, h⟩
  | reference _ _ _ _ => exact absurd (List.cons.inj hs).1 hc

theorem ReadsAs.mem_of_text {c : UInt8} (h : ReadsAs t pieces) (hc : .text c ∈ pieces) : c ∈ t := by
  induction h with
  | nil => cases hc
  | text _ _ ih =>
    rcases List.mem_cons.1 hc with hc | hc
    · cases hc
      exact List.mem_cons_self
    · exact List.mem_cons_of_mem _ (ih hc)
  | reference _ hinner _ _ ih =>
    rcases List.mem_cons.1 hc with hc | hc
    · cases hc
    · obtain ⟨close, rfl, -, hclose⟩ := hinner.parts
      have hrest := ih hc
      rcases hclose with ⟨-, rfl⟩ | ⟨rfl, -⟩
      · cases hrest
      · simp [opened, hrest]

/-- A text without white space is plain. -/
theorem plainText_of_noSpace (h : ∀ c ∈ t, isspace c = false) : PlainText t := by
  intro pieces hpieces before c after heq
  exact h c (hpieces.mem_of_text (by rw [heq]; simp))

theorem exists_readsAs (t : Bytes) : ∃ pieces, ReadsAs t pieces := by
  induction hlen : t.length using Nat.strong_induction_on generalizing t with
  | _ len ih =>
    cases t with
    | nil => exact ⟨[], .nil⟩
    | cons c t =>
      by_cases hopen : ∃ gap u, Gap gap ∧ c :: t = opened gap u
      · obtain ⟨gap, u, hgap, heq⟩ := hopen
        obtain ⟨inner, rest, hinner⟩ := exists_encloses 40 41 u
        obtain ⟨name, fallback, hname⟩ := exists_splitsAt 40 41 44 inner
        have hrest := hinner.length_le
        have hu := congrArg List.length heq
        simp only [opened, List.length_cons, List.length_append] at hu hlen
        obtain ⟨pieces, hpieces⟩ := ih rest.length (by omega) rest rfl
        rw [heq]
        exact ⟨_, .reference hgap hinner hname hpieces⟩
      · obtain ⟨pieces, hpieces⟩ := ih t.length (by simp at hlen; omega) t rfl
        exact ⟨_, .text (fun gap u hgap heq => hopen ⟨gap, u, hgap, heq⟩) hpieces⟩

/-! ## One pass -/

/-- A part that closes nothing and has no comma that ends it is passed over. -/
theorem spanParen_append {comma : Bool} {a : Bytes} {depth : Nat}
    (hstray : ∀ p, p <+: a → p.count 41 < depth + p.count 40)
    (hcomma : comma = true → ∀ p q, a = p ++ 44 :: q → p.count 41 + 1 ≠ depth + p.count 40)
    (s : Bytes) :
    spanParen comma depth (a ++ s) =
      (spanParen comma (depth + a.count 40 - a.count 41) s).map (a ++ ·) id := by
  induction a generalizing depth with
  | nil => rfl
  | cons c a ih =>
    have hstray' : ∀ p, p <+: a → (c :: p).count 41 < depth + (c :: p).count 40 := fun p hp =>
      hstray (c :: p) (List.cons_prefix_cons.2 ⟨rfl, hp⟩)
    have hcomma' : comma = true → ∀ p q, a = p ++ 44 :: q →
        (c :: p).count 41 + 1 ≠ depth + (c :: p).count 40 := fun h p q heq =>
      hcomma h (c :: p) q (by rw [heq, List.cons_append])
    rw [List.cons_append, spanParen]
    by_cases hopen : c = 40
    · subst hopen
      simp only [List.count_cons_self, List.count_cons_of_ne (show (40 : UInt8) ≠ 41 by decide)]
        at hstray' hcomma' ⊢
      rw [if_pos trivial, ih (fun p hp => by have := hstray' p hp; omega)
        (fun h p q heq => by have := hcomma' h p q heq; omega),
        show depth + 1 + a.count 40 - a.count 41 = depth + (a.count 40 + 1) - a.count 41 by omega]
      rfl
    · rw [if_neg hopen]
      by_cases hclose : c = 41
      · subst hclose
        simp only [List.count_cons_self, List.count_cons_of_ne (show (41 : UInt8) ≠ 40 by decide)]
          at hstray' hcomma' ⊢
        have hdeep := hstray' [] List.nil_prefix
        rw [List.count_nil, List.count_nil] at hdeep
        rw [if_pos trivial, if_neg (by omega), ih (fun p hp => by have := hstray' p hp; omega)
          (fun h p q heq => by have := hcomma' h p q heq; omega),
          show depth - 1 + a.count 40 - a.count 41 = depth + a.count 40 - (a.count 41 + 1) by omega]
        rfl
      · simp only [List.count_cons_of_ne hopen, List.count_cons_of_ne hclose] at hstray' hcomma' ⊢
        rw [if_neg hclose, if_neg, ih hstray' hcomma']
        · rfl
        · rintro ⟨hc, rfl, hone⟩
          have hne := hcomma hc [] a rfl
          rw [List.count_nil, List.count_nil] at hne
          omega

theorem spanParen_enclosed {comma : Bool} {a close : Bytes}
    (hstray : ∀ p, p <+: a → p.count 41 < 1 + p.count 40)
    (hcomma : comma = true → ∀ p q, a = p ++ 44 :: q → p.count 41 + 1 ≠ 1 + p.count 40)
    (hclose : close = [] ∨ ∃ rest, close = 41 :: rest ∧ EvenBrackets 40 41 a) :
    spanParen comma 1 (a ++ close) = (a, close) := by
  rw [spanParen_append hstray hcomma]
  rcases hclose with rfl | ⟨rest, rfl, heven⟩
  · rw [spanParen]
    exact congrArg (·, []) (List.append_nil a)
  · rw [show 1 + a.count 40 - a.count 41 = 1 by unfold EvenBrackets at heven; omega, spanParen,
      if_neg (by decide), if_pos rfl, if_pos rfl]
    exact congrArg (·, 41 :: rest) (List.append_nil a)

theorem spanParen_comma {a s : Bytes} (hstray : NoStray 40 41 a)
    (hcomma : ∀ p q, a = p ++ 44 :: q → ¬ EvenBrackets 40 41 p) (heven : EvenBrackets 40 41 a) :
    spanParen true 1 (a ++ 44 :: s) = (a, 44 :: s) := by
  unfold EvenBrackets at hcomma heven
  rw [spanParen_append (fun p hp => by have := hstray p hp; omega)
    (fun _ p q heq => by have := hcomma p q heq; omega),
    show 1 + a.count 40 - a.count 41 = 1 by omega, spanParen, if_neg (by decide),
    if_neg (by decide), if_pos ⟨rfl, rfl, rfl⟩]
  exact congrArg (·, 44 :: s) (List.append_nil a)

theorem dropWhile_gap {gap : Bytes} (hgap : Gap gap) (t : Bytes) :
    (gap ++ 40 :: t).dropWhile isspace = 40 :: t := by
  rw [List.dropWhile_append_of_pos hgap.1]
  exact List.dropWhile_cons_of_neg (by decide)

/-- The reference is resolved, and the pass goes on behind it. -/
theorem resolveOneVarScoped_reference {gap inner rest name : Bytes} {fallback : Option Bytes}
    (hgap : Gap gap) (hinner : Encloses 40 41 t inner rest)
    (hname : SplitsAt 40 41 44 inner name fallback) :
    resolveOneVarScoped scope (gap ++ 40 :: t) =
      ((VarPiece.reference name fallback).written scope, rest) := by
  obtain ⟨close, rfl, hstray, hclose⟩ := hinner.parts
  have hend : close = [] ∨ ∃ rest, close = 41 :: rest ∧ EvenBrackets 40 41 inner :=
    hclose.imp And.left fun h => ⟨rest, h⟩
  unfold resolveOneVarScoped
  rw [dropWhile_gap hgap]
  cases hname with
  | whole _ hnone =>
    have hspan : spanParen true 1 (inner ++ close) = (inner, close) :=
      spanParen_enclosed (fun p hp => by have := hstray p hp; omega)
        (fun _ p q heq => by have := hnone p q heq; unfold EvenBrackets at this; omega) hend
    simp only [hspan]
    rcases hclose with ⟨rfl, rfl⟩ | ⟨rfl, _⟩ <;> rfl
  | split _ tail hfirst heven =>
    have hspan :
        spanParen true 1 (name ++ 44 :: tail ++ close) = (name, 44 :: (tail ++ close)) := by
      rw [List.append_assoc]
      exact spanParen_comma hstray.of_append hfirst heven
    have htail : spanParen false 1 (tail ++ close) = (tail, close) := by
      refine spanParen_enclosed (fun p hp => ?_) nofun
        (hend.imp id fun ⟨rest, h, hall⟩ => ⟨rest, h, ?_⟩)
      · have hle := hstray (name ++ 44 :: p)
          ((List.prefix_append_right_inj name).2 (List.cons_prefix_cons.2 ⟨rfl, hp⟩))
        unfold EvenBrackets at heven
        simp only [List.count_append, List.count_cons_of_ne (show (44 : UInt8) ≠ 41 by decide),
          List.count_cons_of_ne (show (44 : UInt8) ≠ 40 by decide)] at hle
        omega
      · unfold EvenBrackets at hall heven ⊢
        simp only [List.count_append, List.count_cons_of_ne (show (44 : UInt8) ≠ 41 by decide),
          List.count_cons_of_ne (show (44 : UInt8) ≠ 40 by decide)] at hall
        omega
    simp only [hspan, htail]
    rcases hclose with ⟨rfl, rfl⟩ | ⟨rfl, _⟩ <;> rfl

theorem opensVar_eq_true (h : opensVar t = true) :
    ∃ d u, t = 118 :: 97 :: 114 :: d :: u ∧ (d = 40 ∨ isspace d = true) := by
  unfold opensVar at h
  split at h
  · rename_i d u
    exact ⟨d, u, rfl, by simpa using h⟩
  · exact absurd h Bool.false_ne_true

/-- What begins no reference is no `var` with white space behind it either. -/
theorem ReadsAs.not_opensVar {c : UInt8} (h : ReadsAs t pieces)
    (hno : ∀ gap u, Gap gap → c :: t ≠ opened gap u) (hloose : NoLooseVar (.text c :: pieces)) :
    opensVar (c :: t) = false := by
  by_contra hopens
  obtain ⟨d, u, heq, hd⟩ := opensVar_eq_true (Bool.eq_true_of_not_eq_false hopens)
  rcases hd with rfl | hspace
  · exact hno [] u gap_nil heq
  · obtain ⟨rfl, rfl⟩ := List.cons.inj heq
    have hd : d ≠ 118 := by
      rintro rfl
      exact absurd hspace (by decide)
    obtain ⟨_, rfl, ha⟩ := h.of_cons (by decide)
    obtain ⟨_, rfl, hr⟩ := ha.of_cons (by decide)
    obtain ⟨rest, rfl, -⟩ := hr.of_cons hd
    exact absurd (hloose [] d rest rfl) (by rw [hspace]; exact Bool.false_ne_true.symm)

/-- A pass over a text writes what its pieces stand for. -/
theorem ReadsAs.resolvePass (h : ReadsAs t pieces) (hloose : NoLooseVar pieces) {fuel : Nat}
    (hfuel : t.length ≤ fuel) :
    resolvePass scope fuel t = pieces.flatMap (VarPiece.written scope) := by
  induction h generalizing fuel with
  | nil => cases fuel <;> rfl
  | @text c t pieces hno h ih =>
    cases fuel with
    | zero => exact absurd hfuel (Nat.not_succ_le_zero _)
    | succ fuel =>
      have hopens := h.not_opensVar hno hloose
      rw [Css.resolvePass, hopens, if_neg Bool.false_ne_true,
        ih hloose.tail (Nat.le_of_succ_le_succ hfuel)]
      rfl
  | @reference gap t inner rest name fallback pieces hgap hinner hname h ih =>
    cases fuel with
    | zero => exact absurd hfuel (Nat.not_succ_le_zero _)
    | succ fuel =>
      have hopens : opensVar (opened gap t) = true := by
        cases gap with
        | nil => rfl
        | cons b gap => cases hgap.2 b rfl; rfl
      have hrest := hinner.length_le
      simp only [opened, List.length_cons, List.length_append] at hfuel
      have hbehind := ih hloose.tail (show rest.length ≤ fuel by omega)
      rw [opened, Css.resolvePass, ← opened, hopens, if_pos rfl]
      rw [show (opened gap t).drop 3 = gap ++ 40 :: t from rfl,
        resolveOneVarScoped_reference hgap hinner hname, List.flatMap_cons, ← hbehind]

/-! ## All passes -/

theorem hasVar_eq_false (t : Bytes) :
    hasVar t = false ↔ ¬ ascii "var(" <:+: t ∧ ¬ ascii "var " <:+: t := by
  rw [hasVar, decide_eq_false_iff_not, not_or]

/-- A text without `var(` and `var ` has no reference. -/
theorem ReadsAs.eq_text (h : ReadsAs t pieces) (hvar : hasVar t = false) :
    pieces = t.map .text := by
  rw [hasVar_eq_false] at hvar
  induction h with
  | nil => rfl
  | @text c t pieces _ _ ih =>
    rw [List.map_cons, ← ih ⟨fun h => hvar.1 (h.trans (List.suffix_cons c t).isInfix),
      fun h => hvar.2 (h.trans (List.suffix_cons c t).isInfix)⟩]
  | @reference gap t _ _ _ _ _ hgap _ _ _ _ =>
    cases gap with
    | nil => exact absurd ⟨[], t, rfl⟩ hvar.1
    | cons b gap =>
      cases hgap.2 b rfl
      exact absurd ⟨[], gap ++ 40 :: t, rfl⟩ hvar.2

theorem flatMap_written_text (scope : Bytes → Bytes) (t : Bytes) :
    (t.map VarPiece.text).flatMap (VarPiece.written scope) = t := by
  rw [List.flatMap_map]
  exact List.flatMap_singleton' t

theorem NoReference.round (h : NoReference t) : Round scope t t :=
  ⟨_, h, (flatMap_written_text scope t).symm⟩

/-- A round is what the loop makes of a text. -/
theorem PlainText.round_iff (h : PlainText t) :
    Round scope t u ↔ (if hasVar t then resolvePass scope t.length t else t) = u := by
  have hround : ∀ pieces, ReadsAs t pieces → pieces.flatMap (VarPiece.written scope) =
      if hasVar t then resolvePass scope t.length t else t := by
    intro pieces hpieces
    split_ifs with hvar
    · exact (hpieces.resolvePass (h pieces hpieces) (Nat.le_refl _)).symm
    · rw [hpieces.eq_text (Bool.eq_false_of_not_eq_true hvar), flatMap_written_text]
  constructor
  · rintro ⟨pieces, hpieces, rfl⟩
    exact (hround pieces hpieces).symm
  · rintro rfl
    obtain ⟨pieces, hpieces⟩ := exists_readsAs t
    exact ⟨pieces, hpieces, (hround pieces hpieces).symm⟩

theorem resolvePasses_succ (scope : Bytes → Bytes) (n : Nat) (t : Bytes) :
    resolvePasses scope (n + 1) t =
      resolvePasses scope n (if hasVar t then resolvePass scope t.length t else t) := by
  rw [resolvePasses]
  split_ifs with hvar
  · rfl
  · exact (resolvePasses_of_noVar scope (Bool.eq_false_of_not_eq_true hvar) n).symm

theorem rounds_iff {n : Nat} {r : Bytes} (h : ∀ k < n, ∀ u, Rounds scope k t u → PlainText u) :
    Rounds scope n t r ↔ resolvePasses scope n t = r := by
  induction n generalizing t with
  | zero =>
    constructor
    · rintro ⟨⟩
      rfl
    · rintro rfl
      exact .zero _
  | succ n ih =>
    have hround : ∀ u, Round scope t u ↔
        (if hasVar t then resolvePass scope t.length t else t) = u := fun _ =>
      (h 0 (Nat.succ_pos n) t (.zero t)).round_iff
    rw [resolvePasses_succ, ← ih fun k hk u hu =>
      h (k + 1) (Nat.succ_lt_succ hk) u (.succ ((hround _).2 rfl) hu)]
    constructor
    · rintro (_ | ⟨hfirst, hrest⟩)
      rwa [(hround _).1 hfirst]
    · exact .succ ((hround _).2 rfl)

theorem Rounds.more {n k : Nat} {r : Bytes} (h : Rounds scope n t r) (hr : NoReference r) :
    Rounds scope (n + k) t r := by
  induction h with
  | zero t =>
    rw [Nat.zero_add]
    induction k with
    | zero => exact .zero t
    | succ k ih => exact .succ hr.round ih
  | @succ n t u r hround _ ih =>
    rw [Nat.succ_add_eq_add_succ, Nat.add_succ]
    exact .succ hround (ih hr)

theorem NoReference.not_opened {gap u : Bytes} (hgap : Gap gap) :
    ¬ NoReference (opened gap u) := by
  intro h
  unfold NoReference at h
  generalize hs : opened gap u = s at h
  generalize hp : s.map VarPiece.text = pieces at h
  cases h with
  | nil => cases hs
  | text hno _ => exact hno gap u hgap hs.symm
  | reference _ _ _ _ => cases hp

theorem Rounds.eq_self {n : Nat} {r : Bytes} (h : Rounds scope n t r) (hvar : hasVar t = false) :
    r = t := by
  induction h with
  | zero => rfl
  | succ hround _ ih =>
    obtain ⟨pieces, hpieces, rfl⟩ := hround
    rw [hpieces.eq_text hvar, flatMap_written_text] at ih
    exact ih hvar

/-- Where no white space is copied behind `var` in any round, eight rounds are made; so what comes
out is the full substitution exactly if at most eight rounds are enough for it. -/
theorem resolveVarsUncached_rounds (d : NodeHeap) (vars : VarList) (node : Option NodeId)
    (value : Bytes) (hwf : WellFormed d) (hnode : ∀ n ∈ node, n < d.size)
    (hplain : ∀ k < 8, ∀ t, Rounds (getVarScoped d vars node) k value t → PlainText t) :
    (∀ name v, ScopedValue d vars name node v ↔ getVarScoped d vars node name = v) ∧
      (∀ r, Rounds (getVarScoped d vars node) 8 value r ↔
        resolveVarsUncached d vars node value = r) ∧
      (Substituted (getVarScoped d vars node) value (resolveVarsUncached d vars node value) ↔
        ∃ n ≤ 8, ∃ r, Rounds (getVarScoped d vars node) n value r ∧ NoReference r) := by
  have hscope := scopedValue_getVarScoped hwf vars hnode
  have hrounds : ∀ r, Rounds (getVarScoped d vars node) 8 value r ↔
      resolveVarsUncached d vars node value = r := fun r => rounds_iff hplain
  refine ⟨fun name v => ⟨fun hv => (hscope name).unique hv, fun hv => hv ▸ hscope name⟩,
    hrounds, ?_⟩
  constructor
  · rintro ⟨-, hnone⟩
    exact ⟨8, Nat.le_refl 8, _, (hrounds _).2 rfl, hnone⟩
  · rintro ⟨n, hn, r, hr, hnone⟩
    have height : Rounds (getVarScoped d vars node) 8 value r := by
      rw [← Nat.add_sub_of_le hn]
      exact hr.more hnone
    rw [(hrounds r).1 height]
    exact ⟨⟨n, hr⟩, hnone⟩

/-- No document. -/
def noNodes : NodeHeap := { size := 0, node := fun _ => {} }

/-- A node with a definition of its own, which refers to one of the document. -/
def scopedNode : NodeHeap where
  size := 1
  node _ := { vars := [(ascii "a", ascii "var(--b)")] }

theorem resolveVarsUncached_rounds_nested :
    let vars : VarList := [(ascii "a", ascii "y"), (ascii "b", ascii "x")]
    resolveVarsUncached scopedNode vars (some 0) (ascii "var(--a)") = ascii "x" ∧
      Substituted (getVarScoped scopedNode vars (some 0)) (ascii "var(--a)")
        (resolveVarsUncached scopedNode vars (some 0) (ascii "var(--a)")) := by
  intro vars
  have hnode : ∀ n ∈ some 0, n < scopedNode.size := fun n hn => Option.some.inj hn ▸ Nat.one_pos
  have houter : PlainText (ascii "var(--a)") := plainText_of_noSpace (by decide +kernel)
  have hinner : PlainText (ascii "var(--b)") := plainText_of_noSpace (by decide +kernel)
  have hlast : PlainText (ascii "x") := plainText_of_noSpace (by decide +kernel)
  -- two rounds, and then nothing changes
  have hfirst : ∀ u, Round (getVarScoped scopedNode vars (some 0)) (ascii "var(--a)") u ↔
      ascii "var(--b)" = u := fun u => houter.round_iff
  have hsecond : ∀ u, Round (getVarScoped scopedNode vars (some 0)) (ascii "var(--b)") u ↔
      ascii "x" = u := fun u => hinner.round_iff
  obtain ⟨hrounds, hsubstituted⟩ := (resolveVarsUncached_rounds scopedNode vars (some 0)
    (ascii "var(--a)") (wellFormed_of_bare fun _ => rfl) hnode (by
      rintro k - t (_ | ⟨hone, hrest⟩)
      · exact houter
      obtain rfl := (hfirst _).1 hone
      rcases hrest with _ | ⟨htwo, hrest⟩
      · exact hinner
      obtain rfl := (hsecond _).1 htwo
      rw [hrest.eq_self (by decide)]
      exact hlast)).2
  have htwo : Rounds (getVarScoped scopedNode vars (some 0)) 2 (ascii "var(--a)") (ascii "x") :=
    .succ ((hfirst _).2 rfl) (.succ ((hsecond _).2 rfl) (.zero _))
  have hnone : NoReference (ascii "x") := by
    obtain ⟨pieces, hpieces⟩ := exists_readsAs (ascii "x")
    rw [hpieces.eq_text (by decide)] at hpieces
    exact hpieces
  exact ⟨(hrounds _).1 (htwo.more hnone (k := 6)), hsubstituted.2 ⟨2, by decide, _, htwo, hnone⟩⟩

/-- Names have ranks that fall from a definition to those that it can mention. -/
def AcyclicVars (vars : VarList) : Prop :=
  ∃ rank : Bytes → Nat, ∀ v ∈ vars, ∀ w ∈ vars, ascii "--" ++ w.1 <:+: v.2 → rank w.1 < rank v.1

/-- Nine definitions, each but the last a reference to the next. -/
def nineVars : VarList :=
  [(ascii "a", ascii "var(--b)"), (ascii "b", ascii "var(--c)"), (ascii "c", ascii "var(--d)"),
    (ascii "d", ascii "var(--e)"), (ascii "e", ascii "var(--f)"), (ascii "f", ascii "var(--g)"),
    (ascii "g", ascii "var(--h)"), (ascii "h", ascii "var(--i)"), (ascii "i", ascii "x")]

/-- The ninth reference of a chain is left in the text. -/
theorem ninth_reference_left : AcyclicVars nineVars ∧
    ¬ Substituted (getVarScoped noNodes nineVars none) (ascii "var(--a)")
      (resolveVarsUncached noNodes nineVars none (ascii "var(--a)")) := by
  constructor
  · refine ⟨fun name => 200 - (name.headD 0).toNat, ?_⟩
    decide
  · rintro ⟨-, hnone⟩
    rw [show resolveVarsUncached noNodes nineVars none (ascii "var(--a)") =
      opened [] (ascii "--i)") by decide] at hnone
    exact NoReference.not_opened gap_nil hnone

end TinyFramework.Css
