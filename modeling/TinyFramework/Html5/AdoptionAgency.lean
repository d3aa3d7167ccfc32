/-
  Html5/AdoptionAgency.lean --- the adoption agency as a step of the tree builder.

  The loop over the open stack is related to the moves of the heap, and the
  whole of `adoption_agency` keeps the invariant of the tree builder when
  `adoptionSafe` holds of the state before it.
-/
import TinyFramework.Html5.Adoption

set_option autoImplicit false

namespace TinyFramework.Html5

open TinyFramework.Foundation TinyFramework.Dom

/-! ## The condition -/

/-- What `adoption_agency` is about to move: the furthest block, the active
formatting elements between it and the formatting element, nearest to the block
first, and the common ancestor.  `none` when it only pops. -/
def TreeBuilder.adoptionPlan (s : TreeBuilder) (subject : Bytes) :
    Option (NodeId × List NodeId × NodeId) :=
  match s.findFormatting subject with
  | none => none
  | some fmt =>
      match s.openIndex fmt with
      | none => none
      | some fi =>
          let above := s.stack.take (s.stack.length - 1 - fi)
          match above.findIdx? s.isBlock, above.find? s.isBlock with
          | some k, some furthest =>
              let between := ((s.stack.drop (k + 1)).takeWhile (· ≠ fmt)).take 256
              let commonAncestor := if 0 < fi then (s.openAt (fi - 1)).getD s.root else s.root
              some (furthest, between.filter fun n => AFEEntry.node n ∈ s.afe, commonAncestor)
          | _, _ => none

/-- The moves make no cycle.  With no formatting element to clone, the block
must not contain its new parent.  With some, going up from the block the first
of them met may only be the last one cloned, and going up from the common
ancestor that one must not be met first; if the block is inside it, none may be
met at all. -/
def adoptionSafe (s : TreeBuilder) (subject : Bytes) : Bool :=
  match s.adoptionPlan subject with
  | none => true
  | some (furthest, between, commonAncestor) =>
      match between.getLast? with
      | none => !miniNodeContains s.heap furthest commonAncestor
      | some outermost =>
          let aboveBlock := nearestAbove s.heap.parentOf between s.heap.size furthest
          let aboveCommon := nearestAbove s.heap.parentOf between s.heap.size commonAncestor
          (aboveBlock = none && aboveCommon ≠ some outermost) ||
            (aboveBlock = some outermost && aboveCommon = none)

/-! ## The loop over the open stack -/

section Loop

variable {b : DocBase}

/-- What the tree builder looks like in the middle of the loop: `done` are the
stack entries from the top down to the last one treated, `todo` those still above
the formatting element, `rest` the parser's other nodes below it. -/
structure LoopState (b : DocBase) (s : TreeBuilder) (fmt last : NodeId)
    (done todo rest below : List NodeId) : Prop where
  stack : s.stack = done ++ todo ++ fmt :: below
  nodup : (done ++ todo ++ fmt :: rest).Nodup
  own : ∀ x ∈ done ++ todo ++ fmt :: rest, b.first ≤ x ∧ x < s.heap.size
  afe : ∀ x, AFEEntry.node x ∈ s.afe → b.first ≤ x ∧ x < s.heap.size
  movable : Movable b s.heap
  last_lt : last < s.heap.size
  last_not_todo : last ∉ todo

theorem openAt_of_split {s : TreeBuilder} {done rest : List NodeId} {x : NodeId}
    (h : s.stack = done ++ x :: rest) : s.openAt rest.length = some x := by
  unfold TreeBuilder.openAt
  have hlen : s.stack.length = done.length + (rest.length + 1) := by simp [h]
  rw [if_pos (by omega), h, List.getElem?_append_right (by simp)]
  have hidx : (done ++ x :: rest).length - 1 - rest.length - done.length = 0 := by simp
  rw [hidx]
  rfl

theorem setOpen_of_split {s : TreeBuilder} {done rest : List NodeId} {x y : NodeId}
    (h : s.stack = done ++ x :: rest) : (s.setOpen rest.length y).stack = done ++ y :: rest := by
  unfold TreeBuilder.setOpen
  have hidx : s.stack.length - 1 - rest.length = done.length := by
    simp [h]
  dsimp only
  rw [hidx, h, List.set_append_right _ _ (Nat.le_refl _)]
  simp

theorem afeIndex_eq_none {s : TreeBuilder} {x : NodeId} :
    s.afeIndex x = none ↔ AFEEntry.node x ∉ s.afe := by
  simp [TreeBuilder.afeIndex, List.idxOf?_eq_none_iff]

theorem getElem_afeIndex {s : TreeBuilder} {x : NodeId} {i : Nat} (h : s.afeIndex x = some i) :
    s.afe[i]? = some (.node x) := by
  obtain ⟨k, hk, rfl⟩ := Option.map_eq_some_iff.1 h
  obtain ⟨hlt, heq, -⟩ := List.idxOf?_eq_some_iff.1 hk
  have hget : s.afe.reverse[k]? = some (.node x) := List.getElem?_eq_some_iff.2 ⟨hlt, heq⟩
  rwa [List.getElem?_reverse (by simpa using hlt)] at hget

/-- Replacing the entry of `n` does not touch the entries of other nodes. -/
theorem mem_set_afe {afe : List AFEEntry} {i : Nat} {n c x : NodeId}
    (hi : afe[i]? = some (.node n)) (hxn : x ≠ n) (hxc : x ≠ c) :
    AFEEntry.node x ∈ afe.set i (.node c) ↔ AFEEntry.node x ∈ afe := by
  constructor
  · intro hmem
    rcases List.mem_or_eq_of_mem_set hmem with hmem | heq
    · exact hmem
    · cases heq
      exact absurd rfl hxc
  · intro hmem
    obtain ⟨j, hj⟩ := List.getElem?_of_mem hmem
    have hij : i ≠ j := by
      rintro rfl
      rw [hi] at hj
      cases hj
      exact hxn rfl
    exact List.mem_of_getElem? ((List.getElem?_set_ne hij).trans hj)

namespace LoopState

variable {s s₁ : TreeBuilder} {fmt last n : NodeId} {done todo rest below : List NodeId}

/-- The clone of an active formatting element takes its place. -/
theorem adopt (h : LoopState b s fmt last done (n :: todo) rest below) {ai : Nat}
    (hstack : s₁.stack = done ++ s.heap.size :: (todo ++ fmt :: below))
    (hafe : s₁.afe = s.afe.set ai (.node s.heap.size))
    (hheap : s₁.heap = adoptNode s.heap last n) :
    LoopState b s₁ fmt s.heap.size (done ++ [s.heap.size]) todo rest below := by
  obtain ⟨hnown, hnlt⟩ := h.own n (by simp)
  have hlastn : n ≠ last := fun heq => h.last_not_todo (by simp [heq])
  obtain ⟨hmov, hsize, -, -⟩ := h.movable.adoptNode hnown hnlt h.last_lt hlastn
  have hgrow : ∀ x, b.first ≤ x ∧ x < s.heap.size → b.first ≤ x ∧ x < s₁.heap.size :=
    fun x hx => ⟨hx.1, by rw [hheap, hsize]; exact Nat.lt_succ_of_lt hx.2⟩
  have hfresh : b.first ≤ s.heap.size ∧ s.heap.size < s₁.heap.size :=
    ⟨h.movable.first, by rw [hheap, hsize]; exact Nat.lt_succ_self _⟩
  have hnotfresh : ∀ x ∈ done ++ n :: todo ++ fmt :: rest, x ≠ s.heap.size := fun x hx =>
    Nat.ne_of_lt (h.own x hx).2
  constructor
  case stack => simpa using hstack
  case nodup =>
    have hold : (done ++ (todo ++ fmt :: rest)).Nodup :=
      h.nodup.sublist (by simp)
    have hmid : (done ++ s.heap.size :: (todo ++ fmt :: rest)).Nodup := by
      rw [List.nodup_middle, List.nodup_cons]
      refine ⟨fun hx => hnotfresh _ ?_ rfl, hold⟩
      simp only [List.mem_append, List.mem_cons] at hx ⊢
      tauto
    simpa using hmid
  case own =>
    intro x hx
    by_cases hxs : x = s.heap.size
    · exact hxs ▸ hfresh
    · refine hgrow x (h.own x ?_)
      simp only [List.mem_append, List.mem_cons, hxs, false_or] at hx ⊢
      tauto
  case afe =>
    intro x hx
    rw [hafe] at hx
    rcases List.mem_or_eq_of_mem_set hx with hx | hx
    · exact hgrow x (h.afe x hx)
    · cases hx
      exact hfresh
  case movable => exact hheap ▸ hmov
  case last_lt => exact hfresh.2
  case last_not_todo => exact fun hl => hnotfresh _ (by simp [hl]) rfl

/-- Any other node leaves the stack. -/
theorem remove (h : LoopState b s fmt last done (n :: todo) rest below) :
    LoopState b (s.openRemove n) fmt last done todo rest below := by
  have hsplit : s.stack = done ++ n :: (todo ++ fmt :: below) := by simpa using h.stack
  have hnodup : (done ++ n :: (todo ++ fmt :: rest)).Nodup := by simpa using h.nodup
  constructor
  case stack =>
    simp only [TreeBuilder.openRemove, hsplit]
    rw [List.erase_append_right _ (not_mem_of_nodup_middle hnodup).1, List.erase_cons_head,
      List.append_assoc]
  case nodup => exact h.nodup.sublist (by simp)
  case own => exact fun x hx => h.own x (by simp at hx ⊢; tauto)
  case afe => exact h.afe
  case movable => exact h.movable
  case last_lt => exact h.last_lt
  case last_not_todo => exact fun hl => h.last_not_todo (List.mem_cons_of_mem n hl)

end LoopState

/-- The loop clones exactly the active formatting elements among the first
`guard` nodes, and leaves the stack a list of the parser's own nodes. -/
theorem adoptionLoop_spec (guard : Nat) {s : TreeBuilder} {fmt last : NodeId}
    {done todo rest below : List NodeId} (h : LoopState b s fmt last done todo rest below) :
    let ns := (todo.take guard).filter fun n => AFEEntry.node n ∈ s.afe
    let r := TreeBuilder.adoptionLoop guard s fmt last (todo ++ fmt :: below).length
    r.1 = { s with heap := (adoptNodes s.heap last ns).1, stack := r.1.stack, afe := r.1.afe } ∧
    r.2 = (adoptNodes s.heap last ns).2 ∧
    ∃ done' todo' last', LoopState b r.1 fmt last' done' todo' rest below := by
  induction guard generalizing s last done todo with
  | zero => exact ⟨rfl, rfl, done, todo, last, h⟩
  | succ guard ih =>
    cases todo with
    | nil =>
      have hsplit : s.stack = done ++ fmt :: below := by simpa using h.stack
      have hat : s.openAt below.length = some fmt := openAt_of_split hsplit
      simp only [List.nil_append, List.length_cons, TreeBuilder.adoptionLoop, hat, if_true]
      exact ⟨rfl, rfl, done, [], last, h⟩
    | cons n todo =>
      have hsplit : s.stack = done ++ n :: (todo ++ fmt :: below) := by simpa using h.stack
      have hat : s.openAt (todo ++ fmt :: below).length = some n := openAt_of_split hsplit
      have hnodup : (done ++ n :: (todo ++ fmt :: rest)).Nodup := by simpa using h.nodup
      obtain ⟨-, hnrest⟩ := not_mem_of_nodup_middle hnodup
      have hnfmt : n ≠ fmt := fun heq => hnrest (by simp [heq])
      have hntodo : n ∉ todo := fun hmem => hnrest (by simp [hmem])
      simp only [List.cons_append, List.length_cons, TreeBuilder.adoptionLoop, hat, hnfmt, if_false,
        List.take_succ_cons]
      cases hafe : s.afeIndex n with
      | some ai =>
        have hget := getElem_afeIndex hafe
        have hmem : AFEEntry.node n ∈ s.afe := List.mem_of_getElem? hget
        simp only [List.filter_cons, hmem, decide_true, if_true, adoptNodes]
        -- the state the loop goes on with
        generalize hs₁ : TreeBuilder.adoptAll _ n _ = s₁
        have hheap : s₁.heap = adoptNode s.heap last n := by
          rw [← hs₁]
          rfl
        have hafe₁ : s₁.afe = s.afe.set ai (.node s.heap.size) := by
          rw [← hs₁]
          rfl
        have hstack₁ : s₁.stack = done ++ s.heap.size :: (todo ++ fmt :: below) := by
          rw [← hs₁]
          exact setOpen_of_split (s := { s with
            heap := (miniNodeClone s.heap n).2
            afe := s.afe.set ai (.node s.heap.size) }) hsplit
        have hrest : s₁.root = s.root ∧ s₁.body = s.body ∧ s₁.mode = s.mode ∧
            s₁.headElement = s.headElement ∧ s₁.tableFoster = s.tableFoster ∧
            s₁.pendingTextTail = s.pendingTextTail := by
          rw [← hs₁]
          exact ⟨rfl, rfl, rfl, rfl, rfl, rfl⟩
        have h' := h.adopt hstack₁ hafe₁ hheap
        have hfilter : (todo.take guard).filter (fun n => AFEEntry.node n ∈ s₁.afe) =
            (todo.take guard).filter fun n => AFEEntry.node n ∈ s.afe := by
          refine List.filter_congr fun x hx => ?_
          have hxt := List.mem_of_mem_take hx
          rw [hafe₁]
          have hxs : x ≠ s.heap.size := Nat.ne_of_lt (h.own x (by simp [hxt])).2
          simp only [mem_set_afe hget (fun heq => hntodo (heq ▸ hxt)) hxs]
        obtain ⟨hr, hr₂, hr₃⟩ := ih h'
        rw [hfilter, hheap] at hr hr₂
        obtain ⟨hroot, hbody, hmode, hhead, htable, hpending⟩ := hrest
        rw [hroot, hbody, hmode, hhead, htable, hpending] at hr
        exact ⟨hr, hr₂, hr₃⟩
      | none =>
        have hmem : AFEEntry.node n ∉ s.afe := afeIndex_eq_none.1 hafe
        have hstep := ih h.remove
        simp only [List.filter_cons, hmem, decide_false, Bool.false_eq_true, if_false]
        exact hstep

end Loop

/-! ## The whole step -/

section Agency

variable {b : DocBase} {s : TreeBuilder} {subject : Bytes} {fmt furthest : NodeId}

theorem findFormatting_mem (h : s.findFormatting subject = some fmt) :
    AFEEntry.node fmt ∈ s.afe ∧ fmt ∈ s.stack := by
  have hloop : ∀ l : List AFEEntry,
      TreeBuilder.findFormatting.loop s subject l = some fmt → AFEEntry.node fmt ∈ l ∧
        fmt ∈ s.stack := by
    intro l
    induction l with
    | nil => exact fun h => by simp [TreeBuilder.findFormatting.loop] at h
    | cons e l ih =>
      intro h
      cases e with
      | marker => simp [TreeBuilder.findFormatting.loop] at h
      | node fn =>
        rw [TreeBuilder.findFormatting.loop] at h
        split_ifs at h with hc
        · obtain rfl := Option.some.inj h
          simp only [Bool.and_eq_true, decide_eq_true_eq] at hc
          exact ⟨List.mem_cons_self, hc.2⟩
        · exact ⟨List.mem_cons_of_mem _ (ih h).1, (ih h).2⟩
  obtain ⟨hmem, hstack⟩ := hloop _ h
  exact ⟨List.mem_reverse.1 hmem, hstack⟩

/-- `find?` and `findIdx?` agree on where the list splits. -/
theorem split_of_find? {l : List NodeId} {f : NodeId → Bool} {x : NodeId}
    (h : l.find? f = some x) :
    ∃ pre mid, l = pre ++ x :: mid ∧ l.findIdx? f = some pre.length := by
  obtain ⟨hx, pre, mid, rfl, hno⟩ := List.find?_eq_some_iff_append.1 h
  refine ⟨pre, mid, rfl, ?_⟩
  have hnone : pre.findIdx? f = none := by
    rw [List.findIdx?_eq_none_iff]
    exact fun y hy => by simpa using hno y hy
  rw [List.findIdx?_append, hnone]
  simp [List.findIdx?_cons, hx]

/-- The open stack cut at one of the parser's own nodes. -/
structure Cut (b : DocBase) (s : TreeBuilder) (fmt : NodeId) (above rest old : List NodeId) :
    Prop where
  stack : s.stack = above ++ fmt :: (rest ++ old)
  nodup : (above ++ fmt :: rest).Nodup
  own : ∀ x ∈ above ++ fmt :: rest, b.first ≤ x ∧ x < s.heap.size
  base : old <:+ b.base
  strict : b.strict = true → old = b.base

theorem TreeInv.cut (h : TreeInv b s) (hown : b.first ≤ fmt) (hmem : fmt ∈ s.stack) :
    ∃ above rest old, Cut b s fmt above rest old := by
  obtain ⟨own, old, heq, hnodup, hlt, hold, hstrict⟩ := h.stack
  rw [heq] at hmem
  have hmem' : fmt ∈ own := by
    refine (List.mem_append.1 hmem).resolve_right fun hx => ?_
    exact Nat.lt_irrefl _ (Nat.lt_of_lt_of_le (b.live_lt fmt (b.base_live _ (hold.subset hx))) hown)
  obtain ⟨above, rest, rfl⟩ := List.append_of_mem hmem'
  exact ⟨above, rest, old, by simp [heq], hnodup, hlt, hold, hstrict⟩

namespace Cut

variable {above rest old : List NodeId}

theorem not_mem_above (h : Cut b s fmt above rest old) : fmt ∉ above :=
  (not_mem_of_nodup_middle h.nodup).1

theorem openIndex (h : Cut b s fmt above rest old) :
    s.openIndex fmt = some (rest ++ old).length := by
  have hidx : s.stack.idxOf? fmt = some above.length := by
    have hnone : above.findIdx? (· == fmt) = none := by
      rw [List.findIdx?_eq_none_iff]
      exact fun x hx => beq_eq_false_iff_ne.2 fun heq => h.not_mem_above (heq ▸ hx)
    rw [h.stack, List.idxOf?, List.findIdx?_append, hnone]
    simp [List.findIdx?_cons]
  rw [TreeBuilder.openIndex, hidx, Option.map_some, h.stack]
  simp

/-- The nodes that `adoption_agency` searches for the furthest block. -/
theorem take_above (h : Cut b s fmt above rest old) :
    s.stack.take (s.stack.length - 1 - (rest ++ old).length) = above := by
  have hlen : s.stack.length - 1 - (rest ++ old).length = above.length := by
    simp [h.stack]
  rw [hlen, h.stack, List.take_left']
  rfl

/-- The common ancestor is the node below the formatting element. -/
theorem common_eq (h : Cut b s fmt above rest old) :
    (if 0 < (rest ++ old).length then (s.openAt ((rest ++ old).length - 1)).getD s.root
      else s.root) = (rest ++ old).head?.getD s.root := by
  have hstack := h.stack
  generalize rest ++ old = below at hstack
  cases below with
  | nil => rfl
  | cons c below =>
    have hsplit : s.stack = (above ++ [fmt]) ++ c :: below := by simpa using hstack
    rw [if_pos (by simp), List.length_cons, Nat.add_sub_cancel, openAt_of_split hsplit]
    rfl

theorem below_suffix (h : Cut b s fmt above rest old) :
    rest ++ old <:+ s.stack ∧ (b.strict = true → b.base <:+ rest ++ old) := by
  refine ⟨⟨above ++ [fmt], by simp [h.stack]⟩, fun hs => ?_⟩
  rw [h.strict hs]
  exact List.suffix_append _ _

theorem plan (h : Cut b s fmt above rest old) (hf : s.findFormatting subject = some fmt)
    {pre mid : List NodeId} (hab : above = pre ++ furthest :: mid)
    (hk : above.findIdx? s.isBlock = some pre.length)
    (hfind : above.find? s.isBlock = some furthest) :
    s.adoptionPlan subject = some (furthest,
      (mid.take 256).filter fun n => AFEEntry.node n ∈ s.afe, (rest ++ old).head?.getD s.root) := by
  have hbetween : (s.stack.drop (pre.length + 1)).takeWhile (· ≠ fmt) = mid := by
    have hdrop : s.stack.drop (pre.length + 1) = mid ++ fmt :: (rest ++ old) := by
      rw [h.stack, hab]
      simp
    have hmid : ∀ x ∈ mid, decide (x ≠ fmt) = true := fun x hx => by
      refine decide_eq_true fun heq => h.not_mem_above ?_
      rw [hab, ← heq]
      simp [hx]
    rw [hdrop, List.takeWhile_append_of_pos hmid]
    simp
  unfold TreeBuilder.adoptionPlan
  simp only [hf, h.openIndex, h.take_above, hk, hfind, hbetween, h.common_eq]

end Cut

/-- What `adoptionSafe` says of a plan. -/
theorem movesSafe_of_adoptionSafe (h : TreeInv b s) {ns : List NodeId} {common : NodeId}
    (hplan : s.adoptionPlan subject = some (furthest, ns, common)) (hcommon : common < s.heap.size)
    (hsafe : adoptionSafe s subject = true) : MovesSafe s.heap furthest ns common := by
  rw [adoptionSafe, hplan] at hsafe
  unfold MovesSafe
  split_ifs with hns
  · subst hns
    simp only [List.getLast?_nil, Bool.not_eq_true'] at hsafe
    rw [← h.heap.wf.contains_iff hcommon, hsafe]
    simp
  · obtain ⟨m, hm⟩ := Option.ne_none_iff_exists'.1 (mt List.getLast?_eq_none_iff.1 hns)
    simp only [hm, Bool.or_eq_true, Bool.and_eq_true, decide_eq_true_eq] at hsafe
    rw [hm]
    exact hsafe

theorem Cut.moves (h : TreeInv b s) {above rest old pre mid : List NodeId}
    (hc : Cut b s fmt above rest old) (hf : s.findFormatting subject = some fmt)
    (hab : above = pre ++ furthest :: mid) (hfind : above.find? s.isBlock = some furthest)
    (hk : above.findIdx? s.isBlock = some pre.length) (hsafe : adoptionSafe s subject = true) :
    HeapInv.Moves b s.heap furthest ((mid.take 256).filter fun n => AFEEntry.node n ∈ s.afe)
      ((rest ++ old).head?.getD s.root) := by
  have hsub : ∀ n ∈ (mid.take 256).filter (fun n => AFEEntry.node n ∈ s.afe), n ∈ mid :=
    fun n hn => List.mem_of_mem_take (List.mem_of_mem_filter hn)
  have habove : above.Nodup := hc.nodup.sublist (List.sublist_append_left _ _)
  have hsplit := not_mem_of_nodup_middle (hab ▸ habove)
  have hmid : mid.Nodup := by
    refine habove.sublist ?_
    rw [hab]
    exact (List.sublist_cons_self _ _).trans (List.sublist_append_right _ _)
  obtain ⟨hsuf, hbase⟩ := hc.below_suffix
  have hsite := h.site_of_stack_tail hsuf hbase
  have hlt : (rest ++ old).head?.getD s.root < s.heap.size := by
    cases hbelow : rest ++ old with
    | nil => exact h.root.symm ▸ Nat.lt_of_lt_of_le b.root_lt h.heap.first
    | cons c below => exact (h.stack_lt (x := c) (hsuf.subset (by simp [hbelow]))).2
  constructor
  case block_own => exact hc.own furthest (by simp [hab])
  case nodes => exact fun n hn => hc.own n (by simp [hab, hsub n hn])
  case nodup => exact (hmid.sublist (List.take_sublist _ _)).filter _
  case block_not_mem => exact fun hmem => hsplit.2 (hsub _ hmem)
  case common_site => exact hsite
  case common_lt => exact hlt
  case safe => exact movesSafe_of_adoptionSafe h (hc.plan hf hab hk hfind) hlt hsafe

/-- Put another heap, stack and list of formatting elements in. -/
theorem TreeInv.rebuild (h : TreeInv b s) {d : NodeHeap} {stack : List NodeId}
    {afe : List AFEEntry} (hheap : HeapInv b d) (hg : Grows s.heap d)
    (hstack : ∃ own old, stack = own ++ old ∧ own.Nodup ∧
      (∀ x ∈ own, b.first ≤ x ∧ x < d.size) ∧ old <:+ b.base ∧ (b.strict = true → old = b.base))
    (hafe : ∀ x, AFEEntry.node x ∈ afe → b.first ≤ x ∧ x < d.size) :
    Step b s { s with heap := d, stack := stack, afe := afe } :=
  ⟨{ (h.grow hheap hg).inv with stack := hstack, afe := hafe }, hg⟩

/-- The end of `adoption_agency`. -/
theorem TreeInv.adoptNewFormatting (h : TreeInv b s) {last : NodeId}
    (hfmt : b.first ≤ fmt ∧ fmt < s.heap.size) (hlast : b.first ≤ last ∧ last < s.heap.size) :
    Step b s (s.adoptNewFormatting fmt last) := by
  obtain ⟨-, hsize, -, hg⟩ := h.heap.wrappedHeap_parent hfmt.1 hfmt.2 hlast.1 hlast.2
  have hlt : s.heap.size < (HeapInv.wrappedHeap s.heap fmt last).size :=
    hsize ▸ Nat.lt_succ_self _
  refine (h.grow (h.heap.wrap hfmt.1 hfmt.2 hlast.1 hlast.2) hg).andThen fun h' => ?_
  refine (h'.push h.heap.first hlt fun hmem => ?_).andThen fun h'' =>
    h''.afePush (e := .node s.heap.size) fun x hx => ?_
  · exact Nat.lt_irrefl _ (h.stack_lt hmem).2
  · cases hx
    exact ⟨h.heap.first, hlt⟩

/-- The case with a furthest block. -/
theorem TreeInv.adoptBlock (h : TreeInv b s) {above rest old pre mid : List NodeId}
    {common : NodeId} (hc : Cut b s fmt above rest old) (hab : above = pre ++ furthest :: mid)
    (hv : HeapInv.Moves b s.heap furthest
      ((mid.take 256).filter fun n => AFEEntry.node n ∈ s.afe) common) :
    let r := TreeBuilder.adoptionLoop 256 s fmt furthest (mid ++ fmt :: (rest ++ old)).length
    Step b s ((((r.1.placeLastNode common r.2).openRemove fmt).afeRemove fmt).adoptNewFormatting
      fmt r.2) := by
  have hl : LoopState b s fmt furthest (pre ++ [furthest]) mid rest (rest ++ old) := by
    constructor
    case stack => simp [hc.stack, hab]
    case nodup => simpa [hab] using hc.nodup
    case own => exact fun x hx => hc.own x (by simpa [hab] using hx)
    case afe => exact h.afe
    case movable => exact h.heap.movable
    case last_lt => exact hv.block_own.2
    case last_not_todo =>
      have habove : above.Nodup := hc.nodup.sublist (List.sublist_append_left _ _)
      exact (not_mem_of_nodup_middle (hab ▸ habove)).2
  obtain ⟨hr, hlast, done', todo', last', hl'⟩ := adoptionLoop_spec 256 hl
  dsimp only at hr hlast hl' ⊢
  generalize TreeBuilder.adoptionLoop 256 s fmt furthest _ = r at hr hlast hl' ⊢
  obtain ⟨-, hg, hsize, hlast', hown, hlt, -⟩ := h.heap.adoptedHeap_parent hv
  rw [← hlast', ← hlast] at hown hlt
  have hheap : r.1.heap = (adoptNodes s.heap furthest
      ((mid.take 256).filter fun n => AFEEntry.node n ∈ s.afe)).1 := congrArg TreeBuilder.heap hr
  have hrsize : r.1.heap.size = (adoptedHeap s.heap furthest
      ((mid.take 256).filter fun n => AFEEntry.node n ∈ s.afe) common).size := by
    rw [hsize, hheap]
    exact (h.heap.movable.adoptNodes hv.nodup hv.nodes hv.block_own.2 hv.block_not_mem).2.1
  rw [← hsize] at hlt
  have hplace : r.1.placeLastNode common r.2 = { s with
      heap := adoptedHeap s.heap furthest
        ((mid.take 256).filter fun n => AFEEntry.node n ∈ s.afe) common
      stack := r.1.stack
      afe := r.1.afe } := by
    have hdef : adoptedHeap s.heap furthest
        ((mid.take 256).filter fun n => AFEEntry.node n ∈ s.afe) common =
        if (r.1.heap.node r.2).parent = some common then r.1.heap
        else linkLast (removeFromParent r.1.heap r.2) common r.2 := by
      rw [hheap, hlast]
      rfl
    rw [placeLastNode_heap (hl'.movable.ownType r.2 hown (hrsize ▸ hlt)), hdef, hr]
  have herase : r.1.stack.erase fmt = (done' ++ todo' ++ rest) ++ old := by
    have hfmt := (not_mem_of_nodup_middle hl'.nodup).1
    rw [hl'.stack, List.erase_append_right _ hfmt, List.erase_cons_head]
    simp
  have hsub : ∀ x ∈ done' ++ todo' ++ rest, x ∈ done' ++ todo' ++ fmt :: rest := by
    simp only [List.mem_append, List.mem_cons]
    tauto
  have hgrowFmt : fmt < (adoptedHeap s.heap furthest
      ((mid.take 256).filter fun n => AFEEntry.node n ∈ s.afe) common).size :=
    Nat.lt_of_lt_of_le (hc.own fmt (by simp)).2 hg.size
  rw [hplace]
  have hmoved := @TreeInv.rebuild _ _ h _ (r.1.stack.erase fmt) r.1.afe (h.heap.adopt hv) hg
    ⟨done' ++ todo' ++ rest, old, herase, hl'.nodup.sublist (by simp),
      fun x hx => hrsize ▸ hl'.own x (hsub x hx), hc.base, hc.strict⟩
    (fun x hx => hrsize ▸ hl'.afe x hx)
  refine (hmoved.andThen fun h' => h'.afeRemove fmt).andThen fun h' => ?_
  have hkeep : ∀ u : TreeBuilder, (u.afeRemove fmt).heap = u.heap := fun u => by
    unfold TreeBuilder.afeRemove
    split <;> rfl
  exact h'.adoptNewFormatting ⟨(hc.own fmt (by simp)).1, (hkeep _).symm ▸ hgrowFmt⟩
    ⟨hown, (hkeep _).symm ▸ hlt⟩

/-! ### Popping for a formatting end tag -/

theorem offBase_of_formatting (h : h5IsFormatting subject = true) : OffBase subject := by
  have hall : ∀ t ∈ formattingTags, OffBase t := by
    simp only [OffBase]
    decide
  exact hall subject (by simpa [h5IsFormatting] using h)

/-- No element with a formatting tag is closed by `gen_implied_end`. -/
theorem formatting_not_implied (h : h5IsFormatting subject = true) {n : NodeId}
    (hn : tagIs (s.tag n) subject = true) (except : Option Bytes) :
    s.impliedEnd except n = false := by
  have hall : ∀ t ∈ formattingTags, ∀ e ∈ impliedEndTags, t.map tolower ≠ e.map tolower := by
    decide
  obtain ⟨u, hu, hut⟩ := tagIs_iff.1 hn
  have himp : isImpliedEnd u = false := by
    rw [isImpliedEnd, List.any_eq_false]
    intro e he hci
    exact hall subject (by simpa [h5IsFormatting] using h) e he (hut.symm.trans (h5Ci_iff.1 hci))
  simp [TreeBuilder.impliedEnd, hu, himp]

theorem mem_dropWhile_of_false {l : List NodeId} {f : NodeId → Bool} {x : NodeId} (hx : x ∈ l)
    (hf : f x = false) : x ∈ l.dropWhile f := by
  induction l with
  | nil => exact absurd hx List.not_mem_nil
  | cons y l ih =>
    rw [List.dropWhile_cons]
    split_ifs with hy
    · rcases List.mem_cons.1 hx with rfl | hx
      · rw [hf] at hy
        cases hy
      · exact ih hx
    · exact hx

theorem exists_of_hasInScope {t : Bytes} {scope : Bool} (h : s.hasInScope t scope = true) :
    ∃ n ∈ s.stack, tagIs (s.tag n) t = true := by
  have hloop : ∀ (bounds : List Bytes) (l : List NodeId),
      TreeBuilder.hasInScope.loop s t bounds l = true → ∃ n ∈ l, tagIs (s.tag n) t = true := by
    intro bounds l
    induction l with
    | nil => exact fun h => by simp [TreeBuilder.hasInScope.loop] at h
    | cons n l ih =>
      intro h
      rw [TreeBuilder.hasInScope.loop] at h
      split_ifs at h with ht hb
      · exact ⟨n, List.mem_cons_self, ht⟩
      · obtain ⟨m, hm, hmt⟩ := ih h
        exact ⟨m, List.mem_cons_of_mem n hm, hmt⟩
  exact hloop _ _ h

/-- `adoption_agency` keeps the invariant when its moves make no cycle. -/
theorem TreeInv.adoptionAgency (h : TreeInv b s) (hsub : h5IsFormatting subject = true)
    (hsafe : adoptionSafe s subject = true) : Step b s (s.adoptionAgency subject) := by
  unfold TreeBuilder.adoptionAgency
  cases hf : s.findFormatting subject with
  | none =>
    refine Step.ite (fun hscope => ?_) fun _ => Step.refl h
    refine (h.genImpliedEnd none).andThen fun h' => h'.popLoop fun hs => ⟨?_, fun x hx => ?_⟩
    · obtain ⟨n, hn, ht⟩ := exists_of_hasInScope hscope
      exact ⟨n, mem_dropWhile_of_false hn (formatting_not_implied hsub ht none), ht⟩
    · exact h'.base_not_tag hs hx (offBase_of_formatting hsub)
  | some fmt =>
    obtain ⟨hafe, hmem⟩ := findFormatting_mem hf
    obtain ⟨above, rest, old, hc⟩ := h.cut (h.afe fmt hafe).1 hmem
    simp only [hc.openIndex, hc.take_above]
    cases hfind : above.find? s.isBlock with
    | none =>
      have hpop : Step b s (s.popLoop (· == fmt)) := by
        refine h.popLoop fun hs => ⟨⟨fmt, hmem, by simp⟩, fun x hx => ?_⟩
        refine beq_eq_false_iff_ne.2 fun heq => ?_
        exact Nat.lt_irrefl _ (Nat.lt_of_lt_of_le (b.live_lt x (b.base_live x hx))
          (heq ▸ (h.afe fmt hafe).1))
      have hres := hpop.andThen fun h' => h'.afeRemove fmt
      split
      · rename_i heq
        cases heq
      · exact hres
    | some furthest =>
      obtain ⟨pre, mid, hab, hk⟩ := split_of_find? hfind
      simp only [hk, hc.common_eq]
      have hidx : s.stack.length - 1 - pre.length = (mid ++ fmt :: (rest ++ old)).length := by
        simp [hc.stack, hab]
      rw [hidx]
      exact h.adoptBlock hc hab (hc.moves h hf hab hfind hk hsafe)

end Agency

end TinyFramework.Html5
