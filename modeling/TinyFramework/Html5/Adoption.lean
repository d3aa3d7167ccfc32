/-
  Html5/Adoption.lean --- what the moves of the adoption agency do to the heap.

  The algorithm moves existing subtrees under fresh clones.  Between its first
  and its last move the heap may hold a cycle, so the proof keeps only the
  pointer mirror through the moves, reads off the final parent function, and
  shows from it that every node still reaches the root when `MovesSafe` holds of
  the heap before.
-/
import TinyFramework.Html5.TreeInvariant

set_option autoImplicit false

namespace TinyFramework.Html5

open TinyFramework.Foundation TinyFramework.Dom

/-! ## Moving all children -/

theorem Mirrors.adoptChildren {src dst : NodeId} (hne : src ≠ dst) {rest : List NodeId}
    {fuel : Nat} {d : NodeHeap} {kids : NodeId → List NodeId} (hfuel : rest.length ≤ fuel)
    (hdst : dst < d.size) (hnot : dst ∉ rest) (hk : kids src = rest) (h : Mirrors d kids)
    (htype : ∀ c ∈ rest, (d.node c).type ≠ .documentFragmentNode) :
    Mirrors (TreeBuilder.adoptChildren fuel d src dst rest.head?)
      (Function.update (Function.update kids src []) dst (kids dst ++ rest)) ∧
    (∀ x, ((TreeBuilder.adoptChildren fuel d src dst rest.head?).node x).parent =
      if x ∈ rest then some dst else (d.node x).parent) ∧
    SameContent d (TreeBuilder.adoptChildren fuel d src dst rest.head?) := by
  induction rest generalizing fuel d kids with
  | nil =>
    have hsame : Function.update (Function.update kids src []) dst (kids dst ++ []) = kids := by
      rw [← hk, Function.update_eq_self, hk, List.append_nil, Function.update_eq_self]
    rw [hsame]
    cases fuel <;> exact ⟨h, fun x => rfl, SameContent.refl d⟩
  | cons c rest ih =>
    obtain _ | fuel := fuel
    · simp at hfuel
    have hcs : c ∈ kids src := by simp [hk]
    have hparent := h.parent src c hcs
    have hcrest : c ∉ rest := (List.nodup_cons.1 (hk ▸ h.nodup src)).1
    have hctype := htype c (by simp)
    have hnext : (d.node c).nextSibling = rest.head? := h.next_eq (l := []) hk
    -- the removal, then the append of a node without parent
    have hremove : (miniNodeRemoveChild d (some src) (some c)).2 = unlink d src c := by
      simp [miniNodeRemoveChild, hparent]
    have hun : Mirrors (unlink d src c) (Function.update kids src rest) := by
      simpa using h.unlink_listed (l := []) hk
    have horphan : ((unlink d src c).node c).parent = none := by
      rw [(unlink_node d src c c).1, if_pos rfl]
    have happend : (miniNodeAppendChild (unlink d src c) (some dst) (some c)).2 =
        linkLast (unlink d src c) dst c := by
      rw [appendChild_eq ((SameContent.unlink d src c).type c ▸ hctype), removeFromParent,
        horphan]
    have hfree : ∀ q, c ∉ Function.update kids src rest q := hun.unlisted_of_orphan horphan
    have hstep := hun.link (p := dst) (r := []) (by simp) hfree
      (by simpa using h.child_lt hcs) (by simpa) (hun.linksBetween_linkLast (hfree dst))
    have hsame : SameContent d (linkLast (unlink d src c) dst c) :=
      (SameContent.unlink d src c).trans (SameContent.linkLast _ _ _)
    have hkdst : Function.update kids src rest dst = kids dst :=
      Function.update_of_ne (Ne.symm hne) _ _
    rw [hkdst] at hstep
    have hksrc : Function.update (Function.update kids src rest) dst (kids dst ++ [c]) src =
        rest := by
      rw [Function.update_of_ne hne, Function.update_self]
    obtain ⟨hm, hpar, hcont⟩ := ih (by simpa using hfuel) (by simpa)
      (fun hmem => hnot (by simp [hmem])) hksrc hstep
      (fun x hx => hsame.type x ▸ htype x (by simp [hx]))
    rw [List.head?_cons, TreeBuilder.adoptChildren]
    simp only [hnext, hremove, happend]
    refine ⟨?_, fun x => ?_, hsame.trans hcont⟩
    · convert hm using 1
      funext q
      by_cases hqd : q = dst
      · subst hqd
        simp
      · by_cases hqs : q = src
        · simp [hqs, hne]
        · simp [hqd, hqs]
    · rw [hpar x, (linkLast_node _ dst c x).1, (unlink_node d src c x).1]
      by_cases hx : x = c <;> simp [hx, hcrest]

/-! ## The heap through the moves -/

/-- What holds of the heap even while it has a cycle. -/
structure Movable (b : DocBase) (d : NodeHeap) : Prop where
  mirrors : Mirrors d (children d)
  first : b.first ≤ d.size
  ownType : ∀ x, b.first ≤ x → x < d.size → (d.node x).type ≠ .documentFragmentNode
  ownKids : ∀ x p, (d.node x).parent = some p → b.first ≤ p → b.first ≤ x

namespace Movable

variable {b : DocBase} {d : NodeHeap} {n x last : NodeId}

/-- The parser's own nodes list exactly the nodes that point to them. -/
theorem mem_children_iff (h : Movable b d) (hn : b.first ≤ n) :
    x ∈ children d n ↔ (d.node x).parent = some n := by
  refine ⟨h.mirrors.parent n x, fun hx => (h.mirrors.listed x n hx).resolve_right fun hs => ?_⟩
  exact h.ownType x (h.ownKids x n hx hn) (h.mirrors.allocated x n hx).1 hs.2

theorem fresh_unlisted (h : Movable b d) (q : NodeId) : d.size ∉ children d q := fun hmem =>
  Nat.lt_irrefl _ (h.mirrors.child_lt hmem)

end Movable

/-- The heap part of one round: a clone of `n` is appended to `last` and takes
the children of `n`. -/
def adoptNode (d : NodeHeap) (last n : NodeId) : NodeHeap :=
  let d₁ := d.alloc (TreeInv.cloneOf (d.node n))
  let d₂ := (miniNodeAppendChild d₁ (some last) (some d.size)).2
  TreeBuilder.adoptChildren d₂.size d₂ n d.size (d₂.node n).firstChild

/-- The parent pointers after one round. -/
def adoptedStep (parent : NodeId → Option NodeId) (last n fresh : NodeId) :
    NodeId → Option NodeId :=
  fun x => if x = fresh then some last else if parent x = some n then some fresh else parent x

theorem Movable.adoptNode {b : DocBase} {d : NodeHeap} {last n : NodeId} (h : Movable b d)
    (hn : b.first ≤ n) (hnlt : n < d.size) (hlastlt : last < d.size) (hne : n ≠ last) :
    Movable b (Html5.adoptNode d last n) ∧
    (Html5.adoptNode d last n).size = d.size + 1 ∧
    (Html5.adoptNode d last n).parentOf = adoptedStep d.parentOf last n d.size ∧
    Grows d (Html5.adoptNode d last n) := by
  have hplain : TreeInv.Plain (TreeInv.cloneOf (d.node n)) := ⟨rfl, h.ownType n hn hnlt⟩
  have hm₁ := h.mirrors.alloc hplain.bare
  have hty₁ : ((d.alloc (TreeInv.cloneOf (d.node n))).node d.size).type ≠
      .documentFragmentNode := by
    rw [NodeHeap.alloc_node, if_pos rfl]
    exact hplain.type
  have hparent₁ : ((d.alloc (TreeInv.cloneOf (d.node n))).node d.size).parent = none := by
    rw [NodeHeap.alloc_node, if_pos rfl]
    rfl
  have heq₂ : (miniNodeAppendChild (d.alloc (TreeInv.cloneOf (d.node n))) (some last)
      (some d.size)).2 = linkLast (d.alloc (TreeInv.cloneOf (d.node n))) last d.size := by
    rw [appendChild_eq hty₁, removeFromParent, hparent₁]
  have hm₂ := hm₁.link (p := last) (r := []) (by simp) h.fresh_unlisted (Nat.lt_succ_self _)
    (Nat.lt_succ_of_lt hlastlt) (hm₁.linksBetween_linkLast (h.fresh_unlisted last))
  have hsame₂ := SameContent.linkLast (d.alloc (TreeInv.cloneOf (d.node n))) last d.size
  have htype₂ : ∀ x < d.size + 1, b.first ≤ x →
      ((linkLast (d.alloc (TreeInv.cloneOf (d.node n))) last d.size).node x).type ≠
        .documentFragmentNode := by
    intro x hx hown
    rw [hsame₂.type]
    by_cases hxs : x = d.size
    · exact hxs ▸ hty₁
    · rw [NodeHeap.alloc_node, if_neg hxs]
      exact h.ownType x hown (Nat.lt_of_le_of_ne (Nat.le_of_lt_succ hx) hxs)
  have hk₂ : Function.update (children d) last (children d last ++ [d.size]) n = children d n :=
    Function.update_of_ne hne _ _
  have hnfresh : n ≠ d.size := Nat.ne_of_lt hnlt
  have hfuel : (children d n).length ≤
      (linkLast (d.alloc (TreeInv.cloneOf (d.node n))) last d.size).size :=
    hk₂ ▸ hm₂.length_le n
  obtain ⟨hm, hpar, hsame⟩ := Mirrors.adoptChildren hnfresh hfuel (by simp)
    (h.fresh_unlisted n) hk₂ hm₂
    (fun c hc => htype₂ c (Nat.lt_succ_of_lt (h.mirrors.child_lt hc))
      (h.ownKids c n (h.mirrors.parent n c hc) hn))
  have hfirst : ((linkLast (d.alloc (TreeInv.cloneOf (d.node n))) last d.size).node n).firstChild
      = (children d n).head? := by
    rw [hm₂.first n, hk₂]
  rw [← hfirst] at hm hpar hsame
  have hdef : Html5.adoptNode d last n = TreeBuilder.adoptChildren
      (linkLast (d.alloc (TreeInv.cloneOf (d.node n))) last d.size).size
      (linkLast (d.alloc (TreeInv.cloneOf (d.node n))) last d.size) n d.size
      ((linkLast (d.alloc (TreeInv.cloneOf (d.node n))) last d.size).node n).firstChild := by
    unfold Html5.adoptNode
    dsimp only
    rw [heq₂]
  rw [← hdef] at hm hpar hsame
  have hsize : (Html5.adoptNode d last n).size = d.size + 1 := hsame.1.trans hsame₂.1
  have hparent : (Html5.adoptNode d last n).parentOf = adoptedStep d.parentOf last n d.size := by
    funext x
    unfold NodeHeap.parentOf adoptedStep
    rw [hpar x, (linkLast_node _ last d.size x).1]
    by_cases hx : x = d.size
    · simp [hx, h.fresh_unlisted n]
    · simp [hx, NodeHeap.alloc_node, h.mem_children_iff hn]
  refine ⟨⟨hm.children_eq.symm ▸ hm, ?_, fun x hown hx => ?_, fun x p hp hown => ?_⟩, hsize,
    hparent, ?_⟩
  · exact hsize ▸ Nat.le_succ_of_le h.first
  · rw [hsame.type]
    exact htype₂ x (hsize ▸ hx) hown
  · have hp' : adoptedStep d.parentOf last n d.size x = some p := hparent ▸ hp
    unfold adoptedStep at hp'
    split_ifs at hp' with hx hxn
    · exact hx ▸ h.first
    · exact h.ownKids x n hxn hn
    · exact h.ownKids x p hp' hown
  · exact (Grows.alloc d _).trans (hsame₂.trans hsame).grows

/-- All rounds over the nodes that are cloned: the heap and the last node. -/
def adoptNodes (d : NodeHeap) (last : NodeId) : List NodeId → NodeHeap × NodeId
  | [] => (d, last)
  | n :: ns => adoptNodes (adoptNode d last n) d.size ns

/-- The parent pointers after all rounds. -/
def adoptedParent (parent : NodeId → Option NodeId) (last fresh : NodeId) :
    List NodeId → NodeId → Option NodeId
  | [] => parent
  | n :: ns => adoptedParent (adoptedStep parent last n fresh) fresh (fresh + 1) ns

theorem Movable.adoptNodes {b : DocBase} {ns : List NodeId} (hns : ns.Nodup) {d : NodeHeap}
    {last : NodeId} (h : Movable b d) (hown : ∀ n ∈ ns, b.first ≤ n ∧ n < d.size)
    (hlastlt : last < d.size) (hlast : last ∉ ns) :
    Movable b (Html5.adoptNodes d last ns).1 ∧
    (Html5.adoptNodes d last ns).1.size = d.size + ns.length ∧
    (Html5.adoptNodes d last ns).2 = (if ns = [] then last else d.size + ns.length - 1) ∧
    (Html5.adoptNodes d last ns).1.parentOf = adoptedParent d.parentOf last d.size ns ∧
    Grows d (Html5.adoptNodes d last ns).1 := by
  induction ns generalizing d last with
  | nil => exact ⟨h, rfl, rfl, rfl, Grows.refl d⟩
  | cons n ns ih =>
    obtain ⟨hn, hns⟩ := List.nodup_cons.1 hns
    obtain ⟨hnown, hnlt⟩ := hown n List.mem_cons_self
    obtain ⟨h₁, hsize, hparent, hgrows⟩ := h.adoptNode hnown hnlt hlastlt
      fun heq => hlast (heq ▸ List.mem_cons_self)
    obtain ⟨h₂, hsize₂, hlast₂, hparent₂, hgrows₂⟩ := ih hns h₁
      (fun m hm => ⟨(hown m (List.mem_cons_of_mem n hm)).1, hsize ▸
        Nat.lt_succ_of_lt (hown m (List.mem_cons_of_mem n hm)).2⟩)
      (hsize ▸ Nat.lt_succ_self _)
      (fun hmem => Nat.lt_irrefl _ (hown d.size (List.mem_cons_of_mem n hmem)).2)
    refine ⟨h₂, ?_, ?_, ?_, hgrows.trans hgrows₂⟩
    · change (Html5.adoptNodes (Html5.adoptNode d last n) d.size ns).1.size = _
      rw [hsize₂, hsize, List.length_cons]
      omega
    · change (Html5.adoptNodes (Html5.adoptNode d last n) d.size ns).2 = _
      rw [hlast₂, hsize]
      cases ns with
      | nil => rfl
      | cons m ns =>
        simp only [List.length_cons, reduceCtorEq, if_false]
        exact congrArg (· - 1) (by omega : d.size + 1 + (ns.length + 1) = _)
    · change (Html5.adoptNodes (Html5.adoptNode d last n) d.size ns).1.parentOf = _
      rw [hparent₂, hparent, hsize]
      rfl

/-! ## The parent pointers after all rounds -/

/-- An old node whose parent was cloned hangs under the clone. -/
theorem adoptedParent_old {ns : List NodeId} (hns : ns.Nodup)
    {parent : NodeId → Option NodeId} {last fresh : Nat} (hlt : ∀ n ∈ ns, n < fresh)
    {x : NodeId} (hx : x < fresh) :
    adoptedParent parent last fresh ns x =
      (parent x).map fun p => if p ∈ ns then fresh + ns.idxOf p else p := by
  induction ns generalizing parent last fresh with
  | nil => simp [adoptedParent]
  | cons n ns ih =>
    obtain ⟨hn, hns⟩ := List.nodup_cons.1 hns
    have hlt' : ∀ m ∈ ns, m < fresh := fun m hm => hlt m (List.mem_cons_of_mem n hm)
    have hfresh : fresh ∉ ns := fun hmem => Nat.lt_irrefl _ (hlt' fresh hmem)
    rw [adoptedParent, ih hns (fun m hm => Nat.lt_succ_of_lt (hlt' m hm)) (Nat.lt_succ_of_lt hx),
      adoptedStep, if_neg (Nat.ne_of_lt hx)]
    cases hp : parent x with
    | none => simp
    | some p =>
      by_cases hpn : p = n
      · simp [hpn, hfresh]
      · by_cases hmem : p ∈ ns
        · simp [hpn, hmem, List.idxOf_cons_ne ns (Ne.symm hpn)]
          omega
        · simp [hpn, hmem]

/-- The clones hang under one another, the first under `last`. -/
theorem adoptedParent_fresh {ns : List NodeId} (hns : ns.Nodup)
    {parent : NodeId → Option NodeId} {last fresh : Nat} (hlt : ∀ n ∈ ns, n < fresh)
    (hlast : last ∉ ns) {i : Nat} (hi : i < ns.length) :
    adoptedParent parent last fresh ns (fresh + i) =
      some (if i = 0 then last else fresh + i - 1) := by
  induction ns generalizing parent last fresh i with
  | nil => exact absurd hi (Nat.not_lt_zero i)
  | cons n ns ih =>
    obtain ⟨hn, hns⟩ := List.nodup_cons.1 hns
    have hlt' : ∀ m ∈ ns, m < fresh + 1 := fun m hm =>
      Nat.lt_succ_of_lt (hlt m (List.mem_cons_of_mem n hm))
    have hfresh : fresh ∉ ns := fun hmem =>
      Nat.lt_irrefl _ (hlt fresh (List.mem_cons_of_mem n hmem))
    obtain _ | i := i
    · have hlast' : last ∉ ns := fun hmem => hlast (List.mem_cons_of_mem n hmem)
      change adoptedParent (adoptedStep parent last n fresh) fresh (fresh + 1) ns fresh = some last
      rw [adoptedParent_old hns hlt' (Nat.lt_succ_self _), adoptedStep, if_pos rfl]
      simp [hlast']
    · have hstep := @ih hns (adoptedStep parent last n fresh) _ _ hlt' hfresh _
        (Nat.lt_of_succ_lt_succ hi)
      rw [adoptedParent, show fresh + (i + 1) = fresh + 1 + i by omega, hstep,
        if_neg (Nat.succ_ne_zero i)]
      congr 1
      split_ifs with hi0 <;> omega

/-! ## Reaching the root -/

section Reach

variable {P P' : Nat → Option Nat} {n root block common : Nat} {ns : List Nat}

/-- After the rounds and the last move, every old node and every clone reaches
the root.  The clones hang in a chain under the block, but the last of them under
the common ancestor; the children of a cloned node hang under its clone. -/
theorem adopted_reach (hac : Acyclic P) (hbound : ∀ y p, P y = some p → p < n)
    (hblock : block < n) (hcommon : common < n) (hlen : 0 < ns.length)
    (hold : ∀ x p, P x = some p → P' x = some (if p ∈ ns then n + ns.idxOf p else p))
    (hchain : ∀ i, i + 1 < ns.length → P' (n + i) = some (if i = 0 then block else n + i - 1))
    (hend : P' (n + (ns.length - 1)) = some common)
    (hsafe : (nearestAbove P ns n block = none ∧
        nearestAbove P ns n common ≠ ns.getLast?) ∨
      (nearestAbove P ns n block = ns.getLast? ∧ nearestAbove P ns n common = none))
    (hns : ns.Nodup) (hblockRoot : Below P block root) (hcommonRoot : Below P common root) :
    (∀ x, Below P x root → Below P' x root) ∧
      ∀ i < ns.length, Below P' (n + i) root := by
  have hkeep : ∀ s q, P s = some q → q ∉ ns → P' s = some q := fun s q hq hmem => by
    rw [hold s q hq, if_neg hmem]
  have hkid : ∀ m ∈ ns, Below P' (n + ns.idxOf m) root →
      ∀ s, P s = some m → Below P' s root := fun m hm hroot s hs =>
    Below.head ((hold s m hs).trans (by rw [if_pos hm])) hroot
  -- the clones below the last one hang, one under the other, under the block
  have hclones : Below P' block root → ∀ i, i + 1 < ns.length → Below P' (n + i) root := by
    intro hb i
    induction i with
    | zero => exact fun hi => Below.head (hchain 0 hi) hb
    | succ i ih => exact fun hi => Below.head (hchain (i + 1) hi) (ih (by omega))
  have hlastClone : Below P' common root → Below P' (n + (ns.length - 1)) root :=
    Below.head hend
  have hlastIdx : ∀ m, ns.getLast? = some m → ns.idxOf m = ns.length - 1 := by
    intro m hm
    obtain ⟨l, rfl⟩ := List.getLast?_eq_some_iff.1 hm
    have hml : m ∉ l := (not_mem_of_nodup_middle (r := []) (by simpa using hns)).1
    simp [List.idxOf_append_of_notMem hml]
  -- which of the two ends reaches the root by itself
  obtain ⟨hb, hc⟩ : Below P' block root ∧ Below P' common root := by
    rcases hsafe with ⟨hfree, hne⟩ | ⟨hinside, hfree⟩
    · have hb := below_of_nearestAbove_none hac hblock hbound hfree hkeep hblockRoot
      refine ⟨hb, ?_⟩
      cases hnear : nearestAbove P ns n common with
      | none => exact below_of_nearestAbove_none hac hcommon hbound hnear hkeep hcommonRoot
      | some m =>
        have hm := mem_of_nearestAbove hnear
        refine below_of_nearestAbove hnear hkeep (hkid m hm (hclones hb _ ?_))
        have hlt := List.idxOf_lt_length_of_mem hm
        have hnlast : ns.idxOf m ≠ ns.length - 1 := by
          intro heq
          refine hne ?_
          rw [hnear, List.getLast?_eq_getElem?, ← heq]
          simp [List.getElem?_eq_getElem hlt]
        omega
    · have hc := below_of_nearestAbove_none hac hcommon hbound hfree hkeep hcommonRoot
      refine ⟨?_, hc⟩
      cases hnear : nearestAbove P ns n block with
      | none => exact below_of_nearestAbove_none hac hblock hbound hnear hkeep hblockRoot
      | some m =>
        have hm := mem_of_nearestAbove hnear
        refine below_of_nearestAbove hnear hkeep (hkid m hm ?_)
        rw [hlastIdx m (hinside.symm.trans hnear)]
        exact hlastClone hc
  have hall : ∀ i < ns.length, Below P' (n + i) root := by
    intro i hi
    by_cases hlast : i = ns.length - 1
    · exact hlast ▸ hlastClone hc
    · exact hclones hb i (by omega)
  refine ⟨fun x hx => hx.relay fun s q hq => ?_, hall⟩
  by_cases hmem : q ∈ ns
  · exact .inr ⟨_, (hold s q hq).trans (by rw [if_pos hmem]),
      hall _ (List.idxOf_lt_length_of_mem hmem)⟩
  · exact .inl (hkeep s q hq hmem)

end Reach

/-! ## Placing the last node -/

theorem placeLastNode_heap {s : TreeBuilder} {common last : NodeId}
    (htype : (s.heap.node last).type ≠ .documentFragmentNode) :
    s.placeLastNode common last =
      { s with
        heap := if (s.heap.node last).parent = some common then s.heap
          else linkLast (removeFromParent s.heap last) common last } := by
  unfold TreeBuilder.placeLastNode
  cases hp : (s.heap.node last).parent with
  | none => simp [hp, TreeBuilder.appendChild, appendChild_eq htype]
  | some q =>
    by_cases hq : q = common
    · simp [hq, hp]
    · have hremove : (miniNodeRemoveChild s.heap (some q) (some last)).2 =
          removeFromParent s.heap last := by simp [removeFromParent, hp]
      have horphan : ((removeFromParent s.heap last).node last).parent = none := by
        rw [(removeFromParent_node s.heap last last).1, if_pos rfl]
      have htype' : ((removeFromParent s.heap last).node last).type ≠ .documentFragmentNode :=
        (SameContent.removeFromParent s.heap last).type last ▸ htype
      have hagain : removeFromParent (removeFromParent s.heap last) last =
          removeFromParent s.heap last := by
        rw [removeFromParent, horphan]
      simp [hq, hremove, horphan, TreeBuilder.appendChild, appendChild_eq htype', hagain]

theorem Movable.placeLast {b : DocBase} {d : NodeHeap} (h : Movable b d) {common last : NodeId}
    (hown : b.first ≤ last) (hlast : last < d.size) (hcommon : common < d.size) :
    let d' := if (d.node last).parent = some common then d
      else linkLast (removeFromParent d last) common last
    Movable b d' ∧ SameContent d d' ∧
      ∀ x, (d'.node x).parent = if x = last then some common else (d.node x).parent := by
  have htype := h.ownType last hown hlast
  have hsame : SameContent d (linkLast (removeFromParent d last) common last) :=
    (SameContent.removeFromParent d last).trans (SameContent.linkLast _ _ _)
  have hparent : ∀ x, ((linkLast (removeFromParent d last) common last).node x).parent =
      if x = last then some common else (d.node x).parent := by
    intro x
    rw [(linkLast_node _ common last x).1, (removeFromParent_node d last x).1]
    split_ifs <;> rfl
  dsimp only
  split_ifs with hp
  · refine ⟨h, SameContent.refl d, fun x => ?_⟩
    split_ifs with hx
    · exact hx ▸ hp
    · rfl
  · refine ⟨⟨?_, hsame.1 ▸ h.first, fun x hx hlt => ?_, fun x p hx hpown => ?_⟩, hsame, hparent⟩
    · have hm := h.mirrors.appendPlain (h.mirrors.removable_of_type htype) hlast hcommon
      exact hm.children_eq.symm ▸ hm
    · rw [hsame.type]
      exact h.ownType x hx (hsame.1 ▸ hlt)
    · rw [hparent] at hx
      split_ifs at hx with hxl
      · exact hxl ▸ hown
      · exact h.ownKids x p hx hpown

/-! ## The invariant after the moves -/

theorem HeapInv.movable {b : DocBase} {d : NodeHeap} (h : HeapInv b d) : Movable b d :=
  ⟨h.mirrors, h.first, h.ownType, h.ownKids⟩

/-- A heap whose members all reach the root again. -/
theorem HeapInv.of_moved {b : DocBase} {d d' : NodeHeap} (h : HeapInv b d) (hm : Movable b d')
    (hsize : d.size ≤ d'.size)
    (hreach : ∀ x < d'.size, b.Member x → Below d'.parentOf x b.root)
    (hroot : (d'.node b.root).parent = none)
    (hsame : ∀ x, ¬ b.Member x → d'.parentOf x = d.parentOf x)
    (hplaced : ∀ x, b.first ≤ x → x < d'.size → ∃ p, (d'.node x).parent = some p ∧ b.Site p) :
    HeapInv b d' := by
  refine ⟨⟨hm.mirrors, ?_⟩, hm.first, hroot, hreach, hm.ownType, hm.ownKids, hplaced⟩
  have hrootParent : d'.parentOf b.root = none := hroot
  refine h.wf.acyclic.of_reach hrootParent fun x => ?_
  by_cases hx : b.Member x
  · by_cases hlt : x < d'.size
    · exact .inr (hreach x hlt hx)
    · left
      have hnone : ∀ e : NodeHeap, Mirrors e (children e) → e.size ≤ x → e.parentOf x = none :=
        fun e he hle => Option.eq_none_iff_forall_ne_some.2 fun q hq =>
          absurd (he.allocated x q hq).1 (Nat.not_lt.2 hle)
      have hle := Nat.not_lt.1 hlt
      rw [hnone d' hm.mirrors hle, hnone d h.mirrors (Nat.le_trans hsize hle)]
  · exact .inl (hsame x hx)

/-- The heap after the rounds and the placing of the last node. -/
def adoptedHeap (d : NodeHeap) (block : NodeId) (ns : List NodeId) (common : NodeId) : NodeHeap :=
  let (d', last) := adoptNodes d block ns
  if (d'.node last).parent = some common then d'
  else linkLast (removeFromParent d' last) common last

/-- The condition on the heap before the moves. -/
def MovesSafe (d : NodeHeap) (block : NodeId) (ns : List NodeId) (common : NodeId) : Prop :=
  if ns = [] then ¬ Below d.parentOf common block
  else (nearestAbove d.parentOf ns d.size block = none ∧
      nearestAbove d.parentOf ns d.size common ≠ ns.getLast?) ∨
    (nearestAbove d.parentOf ns d.size block = ns.getLast? ∧
      nearestAbove d.parentOf ns d.size common = none)

namespace HeapInv

variable {b : DocBase} {d : NodeHeap} {block common : NodeId} {ns : List NodeId}

/-- The nodes the moves work on. -/
structure Moves (b : DocBase) (d : NodeHeap) (block : NodeId) (ns : List NodeId)
    (common : NodeId) : Prop where
  block_own : b.first ≤ block ∧ block < d.size
  nodes : ∀ n ∈ ns, b.first ≤ n ∧ n < d.size
  nodup : ns.Nodup
  block_not_mem : block ∉ ns
  common_site : b.Site common
  common_lt : common < d.size
  safe : MovesSafe d block ns common

/-- The parent of every node after the moves. -/
theorem adoptedHeap_parent (h : HeapInv b d) (hv : Moves b d block ns common) :
    let last := if ns = [] then block else d.size + ns.length - 1
    Movable b (adoptedHeap d block ns common) ∧ Grows d (adoptedHeap d block ns common) ∧
    (adoptedHeap d block ns common).size = d.size + ns.length ∧
    (adoptNodes d block ns).2 = last ∧ b.first ≤ last ∧ last < d.size + ns.length ∧
    ∀ x, (adoptedHeap d block ns common).parentOf x =
      if x = last then some common else adoptedParent d.parentOf block d.size ns x := by
  obtain ⟨hm, hsize, hlast, hparent, hgrows⟩ :=
    h.movable.adoptNodes hv.nodup hv.nodes hv.block_own.2 hv.block_not_mem
  have hlastOwn : b.first ≤ (adoptNodes d block ns).2 ∧
      (adoptNodes d block ns).2 < d.size + ns.length := by
    rw [hlast]
    split_ifs with hns
    · exact ⟨hv.block_own.1, Nat.lt_of_lt_of_le hv.block_own.2 (Nat.le_add_right _ _)⟩
    · have hlen : 0 < ns.length := List.length_pos_iff.2 hns
      have hfirst := h.first
      constructor <;> lia
  have hcommon : common < (adoptNodes d block ns).1.size :=
    hsize.symm ▸ Nat.lt_of_lt_of_le hv.common_lt (Nat.le_add_right _ _)
  obtain ⟨hm', hsame, hparent'⟩ := hm.placeLast hlastOwn.1 (hsize.symm ▸ hlastOwn.2) hcommon
  refine ⟨hm', hgrows.trans hsame.grows, hsame.1.trans hsize, hlast, hlast ▸ hlastOwn.1,
    hlast ▸ hlastOwn.2, fun x => ?_⟩
  rw [← hparent, ← hlast]
  exact hparent' x

theorem adoptedHeap_reach (h : HeapInv b d) (hv : Moves b d block ns common) {x : NodeId}
    (hx : x < (adoptedHeap d block ns common).size) (hmem : b.Member x) :
    Below (adoptedHeap d block ns common).parentOf x b.root := by
  obtain ⟨-, -, hsize, -, -, -, hparent⟩ := h.adoptedHeap_parent hv
  have hblock := h.reach block hv.block_own.2 (.inl hv.block_own.1)
  have hcommon := h.reach common hv.common_lt hv.common_site.member
  have hbound : ∀ y p, d.parentOf y = some p → p < d.size := fun y p hy =>
    (h.mirrors.allocated y p hy).2
  by_cases hns : ns = []
  · subst hns
    have hsafe : ¬ Below d.parentOf common block := hv.safe
    simp only [if_true, adoptedParent] at hparent
    rw [hsize] at hx
    have hcommon' : Below (adoptedHeap d block [] common).parentOf common b.root :=
      hcommon.transfer fun s hs _ => by
        rw [hparent, if_neg fun (heq : s = block) => hsafe (heq ▸ hs)]
    refine Below.reparent (p := common) (fun s => ?_) hcommon' (h.reach x hx hmem)
    by_cases hs : s = block
    · exact .inr ((hparent s).trans (if_pos hs))
    · exact .inl ((hparent s).trans (if_neg hs))
  · have hlen : 0 < ns.length := List.length_pos_iff.2 hns
    simp only [hns, if_false] at hparent
    have hsafe := hv.safe
    rw [MovesSafe, if_neg hns] at hsafe
    have hnlt : ∀ m ∈ ns, m < d.size := fun m hm => (hv.nodes m hm).2
    obtain ⟨hold, hnew⟩ := @adopted_reach d.parentOf (adoptedHeap d block ns common).parentOf
      _ b.root _ _ _ h.wf.acyclic hbound hv.block_own.2 hv.common_lt hlen
      (fun y p hy => by
        have hylt := (h.mirrors.allocated y p hy).1
        have hne : y ≠ d.size + ns.length - 1 := by
          intro heq
          rw [heq] at hylt
          lia
        rw [hparent, if_neg hne, adoptedParent_old hv.nodup hnlt hylt, hy]
        rfl)
      (fun i hi => by
        have hne : (d.size + i : Nat) ≠ d.size + ns.length - 1 := by omega
        rw [hparent, if_neg hne,
          adoptedParent_fresh hv.nodup hnlt hv.block_not_mem (by omega)])
      (by rw [hparent, if_pos (by lia)]) hsafe hv.nodup hblock hcommon
    rw [hsize] at hx
    by_cases hxlt : x < d.size
    · exact hold x (h.reach x hxlt hmem)
    · have hxe : x = d.size + (x - d.size) := by
        have hle : (d.size : Nat) ≤ x := Nat.not_lt.1 hxlt
        exact (Nat.add_sub_cancel' hle).symm
      rw [hxe]
      exact hnew _ (Nat.sub_lt_left_of_lt_add (Nat.not_lt.1 hxlt) hx)

/-- The moves keep the heap invariant. -/
theorem adopt (h : HeapInv b d) (hv : Moves b d block ns common) :
    HeapInv b (adoptedHeap d block ns common) := by
  obtain ⟨hm, -, hsize, -, hlastOwn, -, hparent⟩ := h.adoptedHeap_parent hv
  generalize (if ns = [] then block else d.size + ns.length - 1) = last at hlastOwn hparent
  have hnlt : ∀ m ∈ ns, m < d.size := fun m hm => (hv.nodes m hm).2
  have hle : d.size ≤ (adoptedHeap d block ns common).size := hsize ▸ Nat.le_add_right _ _
  -- a node that is not the parser's own keeps its parent
  have hold : ∀ x, x < b.first → (adoptedHeap d block ns common).parentOf x = d.parentOf x := by
    intro x hx
    rw [hparent, if_neg fun (heq : x = _) => Nat.lt_irrefl _ (Nat.lt_of_lt_of_le hx (heq ▸ hlastOwn)),
      adoptedParent_old hv.nodup hnlt (Nat.lt_of_lt_of_le hx h.first)]
    cases hp : d.parentOf x with
    | none => rfl
    | some p =>
      have hpn : p ∉ ns := fun hmem =>
        Nat.lt_irrefl _ (Nat.lt_of_lt_of_le hx (h.ownKids x p hp (hv.nodes p hmem).1))
      simp [hpn]
  refine h.of_moved hm hle (fun x hx hmem => h.adoptedHeap_reach hv hx hmem)
    ((hold _ b.root_lt).trans h.rootParent) (fun x hx => hold x ?_) fun x hown hx => ?_
  · exact Nat.lt_of_not_le fun hle => hx (.inl hle)
  · change ∃ p, (adoptedHeap d block ns common).parentOf x = some p ∧ b.Site p
    rw [hparent]
    split_ifs with hxl
    · exact ⟨common, rfl, hv.common_site⟩
    · by_cases hxlt : x < d.size
      · obtain ⟨p, hp, hsite⟩ := h.placed x hown hxlt
        rw [adoptedParent_old hv.nodup hnlt hxlt]
        change ∃ q, Option.map _ (d.node x).parent = some q ∧ _
        rw [hp]
        refine ⟨_, rfl, ?_⟩
        dsimp only
        split_ifs with hpn
        · exact .inl (Nat.le_add_right_of_le h.first)
        · exact hsite
      · have hxe : x = d.size + (x - d.size) := (Nat.add_sub_cancel' (Nat.not_lt.1 hxlt)).symm
        have hi : x - d.size < ns.length :=
          Nat.sub_lt_left_of_lt_add (Nat.not_lt.1 hxlt) (hsize ▸ hx)
        rw [hxe, adoptedParent_fresh hv.nodup hnlt hv.block_not_mem hi]
        refine ⟨_, rfl, .inl ?_⟩
        split_ifs with hi0
        · exact hv.block_own.1
        · have hfirst := h.first
          lia

/-- The heap part of the end of `adoption_agency`: a clone of `fmt` takes the
children of `last` and becomes its only child. -/
def wrappedHeap (d : NodeHeap) (fmt last : NodeId) : NodeHeap :=
  let d₁ := d.alloc (TreeInv.cloneOf (d.node fmt))
  let d₂ := TreeBuilder.adoptChildren d₁.size d₁ last d.size (d₁.node last).firstChild
  (miniNodeAppendChild d₂ (some last) (some d.size)).2

theorem wrappedHeap_parent (h : HeapInv b d) {fmt last : NodeId} (hfmt : b.first ≤ fmt)
    (hfmtlt : fmt < d.size) (hlast : b.first ≤ last) (hlastlt : last < d.size) :
    Movable b (wrappedHeap d fmt last) ∧ (wrappedHeap d fmt last).size = d.size + 1 ∧
    (wrappedHeap d fmt last).parentOf = adoptedStep d.parentOf last last d.size ∧
    Grows d (wrappedHeap d fmt last) := by
  have hv := h.movable
  have hplain : TreeInv.Plain (TreeInv.cloneOf (d.node fmt)) :=
    ⟨rfl, h.ownType fmt hfmt hfmtlt⟩
  have hm₁ := h.mirrors.alloc hplain.bare
  have hnode₁ : ∀ x, x ≠ d.size → (d.alloc (TreeInv.cloneOf (d.node fmt))).node x = d.node x :=
    fun x hx => by rw [NodeHeap.alloc_node, if_neg hx]
  have hnew₁ : (d.alloc (TreeInv.cloneOf (d.node fmt))).node d.size =
      TreeInv.cloneOf (d.node fmt) := by rw [NodeHeap.alloc_node, if_pos rfl]
  have hlastne : last ≠ d.size := Nat.ne_of_lt hlastlt
  have htype₁ : ∀ x < d.size + 1, b.first ≤ x →
      ((d.alloc (TreeInv.cloneOf (d.node fmt))).node x).type ≠ .documentFragmentNode := by
    intro x hx hown
    by_cases hxs : x = d.size
    · rw [hxs, hnew₁]
      exact hplain.type
    · rw [hnode₁ x hxs]
      exact h.ownType x hown (Nat.lt_of_le_of_ne (Nat.le_of_lt_succ hx) hxs)
  have hfuel : (children d last).length ≤ (d.alloc (TreeInv.cloneOf (d.node fmt))).size :=
    Nat.le_succ_of_le (h.mirrors.length_le last)
  obtain ⟨hm₂, hpar₂, hsame₂⟩ := Mirrors.adoptChildren hlastne hfuel (Nat.lt_succ_self _)
    (hv.fresh_unlisted last) rfl hm₁ (fun c hc => htype₁ c (Nat.lt_succ_of_lt (h.mirrors.child_lt hc))
      (h.ownKids c last (h.mirrors.parent last c hc) hlast))
  rw [← h.mirrors.first last, ← hnode₁ last hlastne] at hm₂ hpar₂ hsame₂
  generalize hd₂ : TreeBuilder.adoptChildren _ _ last d.size _ = d₂ at hm₂ hpar₂ hsame₂
  have horphan : (d₂.node d.size).parent = none := by
    rw [hpar₂, if_neg (hv.fresh_unlisted last), hnew₁]
    rfl
  have hty₂ : (d₂.node d.size).type ≠ .documentFragmentNode := by
    rw [hsame₂.type]
    exact htype₁ _ (Nat.lt_succ_self _) h.first
  have hdef : wrappedHeap d fmt last = linkLast d₂ last d.size := by
    rw [← appendChild_eq_linkLast hty₂ horphan, ← hd₂]
    rfl
  have hfree := hm₂.unlisted_of_orphan horphan
  have hm₃ := hm₂.link (p := last) (r := []) (by simp) hfree (hsame₂.1 ▸ Nat.lt_succ_self _)
    (hsame₂.1 ▸ Nat.lt_succ_of_lt hlastlt) (hm₂.linksBetween_linkLast (hfree last))
  have hsame : SameContent (d.alloc (TreeInv.cloneOf (d.node fmt))) (linkLast d₂ last d.size) :=
    hsame₂.trans (SameContent.linkLast _ _ _)
  have hparent : (linkLast d₂ last d.size).parentOf = adoptedStep d.parentOf last last d.size := by
    funext x
    unfold NodeHeap.parentOf adoptedStep
    rw [(linkLast_node d₂ last d.size x).1, hpar₂]
    by_cases hx : x = d.size
    · simp [hx]
    · simp [hx, hnode₁ x hx, hv.mem_children_iff hlast]
  rw [hdef]
  refine ⟨⟨hm₃.children_eq.symm ▸ hm₃, ?_, fun x hown hx => ?_, fun x p hp hown => ?_⟩, hsame.1,
    hparent, (Grows.alloc d _).trans hsame.grows⟩
  · exact hsame.1 ▸ Nat.le_succ_of_le h.first
  · rw [hsame.1] at hx
    rw [hsame.type]
    exact htype₁ x hx hown
  · have hp' : adoptedStep d.parentOf last last d.size x = some p := hparent ▸ hp
    unfold adoptedStep at hp'
    split_ifs at hp' with hx hxl
    · exact hx ▸ h.first
    · exact h.ownKids x last hxl hlast
    · exact h.ownKids x p hp' hown

/-- Wrapping the children of a node keeps the heap invariant. -/
theorem wrap (h : HeapInv b d) {fmt last : NodeId} (hfmt : b.first ≤ fmt)
    (hfmtlt : fmt < d.size) (hlast : b.first ≤ last) (hlastlt : last < d.size) :
    HeapInv b (wrappedHeap d fmt last) := by
  obtain ⟨hm, hsize, hparent, -⟩ := h.wrappedHeap_parent hfmt hfmtlt hlast hlastlt
  have hle : d.size ≤ (wrappedHeap d fmt last).size := hsize ▸ Nat.le_succ _
  have hstep : ∀ x, x ≠ d.size → d.parentOf x ≠ some last →
      (wrappedHeap d fmt last).parentOf x = d.parentOf x := fun x hx hxl => by
    rw [hparent, adoptedStep, if_neg hx, if_neg hxl]
  have hold : ∀ x, x < b.first → (wrappedHeap d fmt last).parentOf x = d.parentOf x := by
    intro x hx
    refine hstep x (Nat.ne_of_lt (Nat.lt_of_lt_of_le hx h.first)) fun hxl => ?_
    exact Nat.lt_irrefl _ (Nat.lt_of_lt_of_le hx (h.ownKids x last hxl hlast))
  -- the path above `last` holds none of its children
  have hlastReach : Below (wrappedHeap d fmt last).parentOf last b.root := by
    refine (h.reach last hlastlt (.inl hlast)).transfer fun s hs _ => hstep s ?_ fun hsl => ?_
    · rcases Relation.ReflTransGen.cases_tail hs with heq | ⟨q, -, hq⟩
      · exact heq ▸ Nat.ne_of_lt hlastlt
      · exact Nat.ne_of_lt (h.mirrors.allocated q s hq).2
    · exact h.wf.acyclic.not_below_of_parent hsl hs
  have hfresh : Below (wrappedHeap d fmt last).parentOf d.size b.root :=
    Below.head (by rw [hparent, adoptedStep, if_pos rfl]) hlastReach
  refine h.of_moved hm hle (fun x hx hmem => ?_) ((hold _ b.root_lt).trans h.rootParent)
    (fun x hx => hold x (Nat.lt_of_not_le fun hle => hx (.inl hle))) fun x hown hx => ?_
  · by_cases hxs : x = d.size
    · exact hxs ▸ hfresh
    · rw [hsize] at hx
      refine (h.reach x (Nat.lt_of_le_of_ne (Nat.le_of_lt_succ hx) hxs) hmem).relay
        fun s q hq => ?_
      have hsne : s ≠ d.size := Nat.ne_of_lt (h.mirrors.allocated s q hq).1
      by_cases hsl : d.parentOf s = some last
      · exact .inr ⟨d.size, by rw [hparent, adoptedStep, if_neg hsne, if_pos hsl], hfresh⟩
      · exact .inl ((hstep s hsne hsl).trans hq)
  · change ∃ p, (wrappedHeap d fmt last).parentOf x = some p ∧ b.Site p
    by_cases hxs : x = d.size
    · exact ⟨last, by rw [hxs, hparent, adoptedStep, if_pos rfl], .inl hlast⟩
    · by_cases hxl : d.parentOf x = some last
      · exact ⟨d.size, by rw [hparent, adoptedStep, if_neg hxs, if_pos hxl], .inl h.first⟩
      · rw [hsize] at hx
        obtain ⟨p, hp, hsite⟩ :=
          h.placed x hown (Nat.lt_of_le_of_ne (Nat.le_of_lt_succ hx) hxs)
        exact ⟨p, (hstep x hxs hxl).trans hp, hsite⟩

end HeapInv

end TinyFramework.Html5
