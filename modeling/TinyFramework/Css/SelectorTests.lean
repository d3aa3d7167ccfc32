/-
  Css/SelectorTests.lean --- the siblings that structural pseudo-classes count.

  The sibling chains of the source are the child list of the parent, read from a child on
  in both directions.  On nodes with ordinary names the tests of the source look at the
  elements that are meant.
-/
import TinyFramework.Css.SelectorValues
import TinyFramework.Dom.Mutation

set_option autoImplicit false

namespace TinyFramework.Css

open TinyFramework.Foundation TinyFramework.Dom

/-! ## Siblings -/

section Siblings

variable {page : Page} {n p : NodeId}

/-- A listed child with what stands on both sides of it. -/
theorem others_of_split {l r : List NodeId} (hl : n ∉ l)
    (hparent : (page.heap.node n).parent = some p)
    (hk : children page.heap p = l ++ n :: r) :
    page.others n false = l ∧ page.others n true = r := by
  have hfamily : page.family n = l ++ n :: r := by
    rw [Page.family, hparent]
    exact hk
  have hne : ∀ x ∈ l, decide (x ≠ n) = true := by
    intro x hx
    refine decide_eq_true ?_
    rintro rfl
    exact hl hx
  constructor
  · rw [Page.others, if_neg Bool.false_ne_true, hfamily, List.takeWhile_append_of_pos hne]
    simp
  · rw [Page.others, if_pos rfl, hfamily, List.dropWhile_append_of_pos hne]
    simp

theorem before_eq (hm : Mirrors page.heap (children page.heap)) {l r : List NodeId} {fuel : Nat}
    (hk : children page.heap p = l ++ r) (hfuel : l.length ≤ fuel) :
    page.before fuel l.getLast? = l.reverse := by
  induction fuel generalizing l r with
  | zero =>
    obtain rfl := List.length_eq_zero_iff.1 (Nat.le_zero.1 hfuel)
    rfl
  | succ fuel ih =>
    rcases l.eq_nil_or_concat with rfl | ⟨l, c, rfl⟩
    · rfl
    · rw [List.concat_eq_append] at hk hfuel ⊢
      have hsplit : children page.heap p = l ++ c :: r := by simpa using hk
      rw [List.getLast?_concat, Page.before, hm.prev_eq hsplit, ih hsplit (by simpa using hfuel)]
      simp

/-- The chains of sibling pointers of an element are the siblings on both sides. -/
theorem siblings_eq (hwf : WellFormed page.heap) (hn : page.isElement n = true) :
    page.before page.heap.size (page.heap.node n).prevSibling = (page.others n false).reverse ∧
      siblingsFrom page.heap page.heap.size (page.heap.node n).nextSibling =
        page.others n true := by
  have hm := hwf.mirrors
  cases hparent : (page.heap.node n).parent with
  | none =>
    obtain ⟨hnext, hprev⟩ := hm.siblings_of_unlisted (hm.unlisted_of_orphan hparent)
    have hnil : ∀ b, page.others n b = [] := fun b => by
      cases b <;> simp [Page.others, Page.family, hparent]
    rw [hnext, hprev, hnil, hnil]
    cases page.heap.size <;> exact ⟨rfl, rfl⟩
  | some p =>
    have hmem : n ∈ children page.heap p := by
      rcases hm.listed n p hparent with hmem | ⟨-, htype⟩
      · exact hmem
      · simp [Page.isElement, htype] at hn
    obtain ⟨l, r, hk⟩ := List.append_of_mem hmem
    have hnodup := hm.nodup p
    rw [hk] at hnodup
    have hl : n ∉ l := (not_mem_of_nodup_middle hnodup).1
    obtain ⟨hbefore, hafter⟩ := others_of_split hl hparent hk
    have hlen := hm.length_le p
    rw [hk, List.length_append, List.length_cons] at hlen
    rw [hm.prev_eq hk, hm.next_eq hk, hbefore, hafter]
    exact ⟨before_eq hm hk (by omega),
      hm.siblingsFrom (l := l ++ [n]) (by simpa using hk) (by omega)⟩

theorem prevElems_eq (hwf : WellFormed page.heap) (hn : page.isElement n = true) :
    page.prevElems n = ((page.others n false).filter page.isElement).reverse := by
  rw [Page.prevElems, (siblings_eq hwf hn).1, List.filter_reverse]

theorem nextElems_eq (hwf : WellFormed page.heap) (hn : page.isElement n = true) :
    page.nextElems n = (page.others n true).filter page.isElement := by
  rw [Page.nextElems, (siblings_eq hwf hn).2]

end Siblings

/-! ## The tests of the source -/

/-- The branch of `match_pseudo` that a keyword leads to. -/
theorem structuralPseudo_keyword {page : Page} {n : NodeId} (s : Structural) (arg : Bytes) :
    structuralPseudo page n s.keyword arg = some (match s with
      | .first ofType => if ofType then page.isFirstOfType n else page.isFirstElementChild n
      | .last ofType => if ofType then page.isLastOfType n else page.isLastElementChild n
      | .only ofType =>
          if ofType then page.isFirstOfType n && page.isLastOfType n
          else page.isFirstElementChild n && page.isLastElementChild n
      | .empty => (page.heap.node n).firstChild.isNone
      | .root => (page.heap.node n).type == .documentNode ||
          match (page.heap.node n).parent with
          | none => true
          | some p => (page.heap.node p).type == .documentNode &&
              (page.heap.node n).tag == some (ascii "html")
      | .nth ofType fromEnd _ _ _ =>
          nthMatch arg (if ofType then page.elemIndexOfType n fromEnd
            else page.elemIndex n fromEnd)) := by
  cases s with
  | first ofType => cases ofType <;> rfl
  | last ofType => cases ofType <;> rfl
  | only ofType => cases ofType <;> rfl
  | empty => rfl
  | root => rfl
  | nth ofType fromEnd before anb after => cases ofType <;> cases fromEnd <;> rfl

end TinyFramework.Css
