/-
  Dom/Tree.lean --- the tree that the node pointers stand for.

  `Mirrors d kids` ties the six pointers of every node to a function `kids` that
  gives each node its list of children.  The two pointer surgeries of the source,
  taking a node out of a child list and putting it between two parts of one, are
  specified once each over `kids`; every mutator is one or both of them.  A
  shadow root is a node whose parent does not list it.
-/
import TinyFramework.Foundation.Forest
import TinyFramework.Dom.Node

set_option autoImplicit false

namespace TinyFramework.Dom

open TinyFramework.Foundation

/-! ## The invariant -/

/-- The pointers of `d` mirror each other and the child lists `kids`. -/
structure Mirrors (d : NodeHeap) (kids : NodeId → List NodeId) : Prop where
  first : ∀ p, (d.node p).firstChild = (kids p).head?
  last : ∀ p, (d.node p).lastChild = (kids p).getLast?
  next : ∀ x y, (d.node x).nextSibling = some y ↔ ∃ p, Adjacent (kids p) x y
  prev : ∀ x y, (d.node y).prevSibling = some x ↔ ∃ p, Adjacent (kids p) x y
  parent : ∀ p, ∀ c ∈ kids p, (d.node c).parent = some p
  nodup : ∀ p, (kids p).Nodup
  /-- A node its parent does not list is a fragment, the shadow root of that
  parent. -/
  listed : ∀ c p, (d.node c).parent = some p → c ∈ kids p ∨
    ((d.node p).shadowRoot = some c ∧ (d.node c).type = .documentFragmentNode)
  allocated : ∀ c p, (d.node c).parent = some p → c < d.size ∧ p < d.size

namespace Mirrors

variable {d : NodeHeap} {kids : NodeId → List NodeId} {p q c x : NodeId}
  {l r : List NodeId}

/-- A node is in at most one child list. -/
theorem unique (h : Mirrors d kids) (hp : c ∈ kids p) (hq : c ∈ kids q) : p = q := by
  have hparent := h.parent p c hp
  rw [h.parent q c hq] at hparent
  exact (Option.some.inj hparent).symm

theorem child_lt (h : Mirrors d kids) (hc : c ∈ kids p) : c < d.size :=
  (h.allocated c p (h.parent p c hc)).1

theorem parent_lt (h : Mirrors d kids) (hc : c ∈ kids p) : p < d.size :=
  (h.allocated c p (h.parent p c hc)).2

theorem kids_of_unallocated (h : Mirrors d kids) (hp : d.size ≤ p) : kids p = [] := by
  cases hk : kids p with
  | nil => rfl
  | cons c l =>
    exact absurd (h.parent_lt (p := p) (c := c) (by simp [hk])) (Nat.not_lt.2 hp)

/-- The right neighbour of a child is the head of what follows it. -/
theorem next_eq (h : Mirrors d kids) (hk : kids p = l ++ c :: r) :
    (d.node c).nextSibling = r.head? := by
  have hnodup := h.nodup p
  rw [hk] at hnodup
  refine Option.ext fun y => ?_
  rw [h.next]
  constructor
  · rintro ⟨q, hadj⟩
    obtain rfl := h.unique hadj.mem_left (show c ∈ kids p by simp [hk])
    rw [hk, adjacent_append, adjacent_cons] at hadj
    obtain ⟨hl, hr⟩ := not_mem_of_nodup_middle hnodup
    rcases hadj with hadj | (⟨-, hhead⟩ | hadj) | ⟨hlast, -⟩
    · exact absurd hadj.mem_left hl
    · exact hhead
    · exact absurd hadj.mem_left hr
    · exact absurd (List.mem_of_getLast? hlast) hl
  · intro hhead
    refine ⟨p, ?_⟩
    rw [hk, adjacent_append, adjacent_cons]
    exact .inr (.inl (.inl ⟨rfl, hhead⟩))

/-- The left neighbour of a child is the last of what precedes it. -/
theorem prev_eq (h : Mirrors d kids) (hk : kids p = l ++ c :: r) :
    (d.node c).prevSibling = l.getLast? := by
  have hnodup := h.nodup p
  rw [hk] at hnodup
  refine Option.ext fun x => ?_
  rw [h.prev]
  constructor
  · rintro ⟨q, hadj⟩
    obtain rfl := h.unique hadj.mem_right (show c ∈ kids p by simp [hk])
    rw [hk, adjacent_append] at hadj
    obtain ⟨hl, -⟩ := not_mem_of_nodup_middle hnodup
    rcases hadj with hadj | hadj | ⟨hlast, -⟩
    · exact absurd hadj.mem_right hl
    · exact absurd hadj (not_adjacent_first (List.nodup_append.1 hnodup).2.1 rfl)
    · exact hlast
  · intro hlast
    refine ⟨p, ?_⟩
    rw [hk, adjacent_append]
    exact .inr (.inr ⟨hlast, rfl⟩)

/-- A node that no parent lists has no siblings. -/
theorem siblings_of_unlisted (h : Mirrors d kids) (hc : ∀ p, c ∉ kids p) :
    (d.node c).nextSibling = none ∧ (d.node c).prevSibling = none := by
  constructor
  · refine Option.eq_none_iff_forall_ne_some.2 fun y hy => ?_
    obtain ⟨p, hadj⟩ := (h.next c y).1 hy
    exact hc p hadj.mem_left
  · refine Option.eq_none_iff_forall_ne_some.2 fun x hx => ?_
    obtain ⟨p, hadj⟩ := (h.prev x c).1 hx
    exact hc p hadj.mem_right

theorem unlisted_of_orphan (h : Mirrors d kids) (hc : (d.node c).parent = none) (p : NodeId) :
    c ∉ kids p := by
  intro hmem
  have hparent := h.parent p c hmem
  rw [hc] at hparent
  cases hparent

end Mirrors

/-! ## The pointers after each surgery -/

/-- A node without its tree pointers. -/
def MiniNode.bare (n : MiniNode) : MiniNode :=
  { n with
    parent := none, firstChild := none, lastChild := none, prevSibling := none
    nextSibling := none }

theorem field_modify {β : Type} (g : MiniNode → β) (d : NodeHeap) (i j : NodeId)
    (f : MiniNode → MiniNode) :
    g ((d.modify i f).node j) = if j = i then g (f (d.node j)) else g (d.node j) := by
  rw [NodeHeap.modify_node]
  split <;> rfl

section Pointers

variable (d : NodeHeap) (p c ref x : NodeId)

@[simp] theorem unlink_size : (unlink d p c).size = d.size := by
  unfold unlink
  cases hp : (d.node c).prevSibling <;> cases hn : (d.node c).nextSibling <;>
    simp [NodeHeap.setNextSibling, NodeHeap.setPrevSibling, NodeHeap.setParent,
      NodeHeap.setFirstChild, NodeHeap.setLastChild, field_modify, hn]

theorem unlink_node :
    ((unlink d p c).node x).parent = (if x = c then none else (d.node x).parent) ∧
    ((unlink d p c).node x).nextSibling =
      (if x = c then none
      else if (d.node c).prevSibling = some x then (d.node c).nextSibling
      else (d.node x).nextSibling) ∧
    ((unlink d p c).node x).prevSibling =
      (if x = c then none
      else if (d.node c).nextSibling = some x then (d.node c).prevSibling
      else (d.node x).prevSibling) ∧
    ((unlink d p c).node x).firstChild =
      (if x = p ∧ (d.node c).prevSibling = none then (d.node c).nextSibling
      else (d.node x).firstChild) ∧
    ((unlink d p c).node x).lastChild =
      (if x = p ∧ (d.node c).nextSibling = none then (d.node c).prevSibling
      else (d.node x).lastChild) ∧
    ((unlink d p c).node x).bare = (d.node x).bare := by
  unfold unlink
  cases hp : (d.node c).prevSibling <;> cases hn : (d.node c).nextSibling <;>
    simp [NodeHeap.setNextSibling, NodeHeap.setPrevSibling, NodeHeap.setParent,
      NodeHeap.setFirstChild, NodeHeap.setLastChild, field_modify, hp, hn, eq_comm,
      MiniNode.bare]

@[simp] theorem linkLast_size : (linkLast d p c).size = d.size := by
  unfold linkLast
  cases hl : (d.node p).lastChild <;>
    simp [NodeHeap.setNextSibling, NodeHeap.setPrevSibling, NodeHeap.setParent,
      NodeHeap.setFirstChild, NodeHeap.setLastChild, field_modify, hl]

theorem linkLast_node :
    ((linkLast d p c).node x).parent = (if x = c then some p else (d.node x).parent) ∧
    ((linkLast d p c).node x).nextSibling =
      (if (d.node p).lastChild = some x then some c
      else if x = c then none else (d.node x).nextSibling) ∧
    ((linkLast d p c).node x).prevSibling =
      (if x = c then (d.node p).lastChild else (d.node x).prevSibling) ∧
    ((linkLast d p c).node x).firstChild =
      (if x = p ∧ (d.node p).lastChild = none then some c else (d.node x).firstChild) ∧
    ((linkLast d p c).node x).lastChild =
      (if x = p then some c else (d.node x).lastChild) ∧
    ((linkLast d p c).node x).bare = (d.node x).bare := by
  unfold linkLast
  cases hl : (d.node p).lastChild <;>
    simp [NodeHeap.setNextSibling, NodeHeap.setPrevSibling, NodeHeap.setParent,
      NodeHeap.setFirstChild, NodeHeap.setLastChild, field_modify, hl, eq_comm,
      MiniNode.bare]

@[simp] theorem linkBefore_size : (linkBefore d p c ref).size = d.size := by
  unfold linkBefore
  cases hr : (d.node ref).prevSibling <;>
    simp [NodeHeap.setNextSibling, NodeHeap.setPrevSibling, NodeHeap.setParent,
      NodeHeap.setFirstChild, field_modify, hr]

theorem linkBefore_node :
    ((linkBefore d p c ref).node x).parent = (if x = c then some p else (d.node x).parent) ∧
    ((linkBefore d p c ref).node x).nextSibling =
      (if (d.node ref).prevSibling = some x then some c
      else if x = c then some ref else (d.node x).nextSibling) ∧
    ((linkBefore d p c ref).node x).prevSibling =
      (if x = ref then some c
      else if x = c then (d.node ref).prevSibling else (d.node x).prevSibling) ∧
    ((linkBefore d p c ref).node x).firstChild =
      (if x = p ∧ (d.node ref).prevSibling = none then some c else (d.node x).firstChild) ∧
    ((linkBefore d p c ref).node x).lastChild = (d.node x).lastChild ∧
    ((linkBefore d p c ref).node x).bare = (d.node x).bare := by
  unfold linkBefore
  cases hr : (d.node ref).prevSibling <;>
    simp [NodeHeap.setNextSibling, NodeHeap.setPrevSibling, NodeHeap.setParent,
      NodeHeap.setFirstChild, field_modify, hr, eq_comm, MiniNode.bare]

end Pointers

/-- Read a field that is no tree pointer off equal bare nodes. -/
theorem field_of_bare {β : Type} {m n : MiniNode} (g : MiniNode → β) (h : m.bare = n.bare)
    (hg : ∀ k : MiniNode, g k.bare = g k) : g m = g n := by
  rw [← hg m, h, hg n]

/-! ## Allocation and the child list of a node -/

/-- A fresh node without tree pointers changes no child list. -/
theorem Mirrors.alloc {d : NodeHeap} {kids : NodeId → List NodeId} (h : Mirrors d kids)
    {n : MiniNode} (hn : n.bare = n) : Mirrors (d.alloc n) kids := by
  have hk : kids d.size = [] := h.kids_of_unallocated (Nat.le_refl _)
  have hun : ∀ q, d.size ∉ kids q := fun q hmem => Nat.lt_irrefl _ (h.child_lt hmem)
  have hfield : ∀ {β : Type} (g : MiniNode → β), (g n = g (d.node d.size)) →
      ∀ j, g ((d.alloc n).node j) = g (d.node j) := by
    intro β g hg j
    rw [NodeHeap.alloc_node]
    split_ifs with hj
    · rw [hj, hg]
    · rfl
  have hparent : ∀ j, ((d.alloc n).node j).parent = (d.node j).parent := by
    refine hfield _ ?_
    rw [← hn]
    refine Eq.symm (Option.eq_none_iff_forall_ne_some.2 fun q hq => ?_)
    exact Nat.lt_irrefl _ (h.allocated _ _ hq).1
  constructor
  case first =>
    intro q
    rw [hfield MiniNode.firstChild (by rw [h.first, hk, ← hn]; rfl), h.first]
  case last =>
    intro q
    rw [hfield MiniNode.lastChild (by rw [h.last, hk, ← hn]; rfl), h.last]
  case next =>
    intro x y
    rw [hfield MiniNode.nextSibling (by rw [(h.siblings_of_unlisted hun).1, ← hn]; rfl), h.next]
  case prev =>
    intro x y
    rw [hfield MiniNode.prevSibling (by rw [(h.siblings_of_unlisted hun).2, ← hn]; rfl), h.prev]
  case parent =>
    intro q x hx
    rw [hparent]
    exact h.parent q x hx
  case nodup => exact h.nodup
  case listed =>
    intro x q hx
    rw [hparent] at hx
    obtain ⟨hxlt, hqlt⟩ := h.allocated x q hx
    rw [NodeHeap.alloc_node, NodeHeap.alloc_node, if_neg (Nat.ne_of_lt hxlt),
      if_neg (Nat.ne_of_lt hqlt)]
    exact h.listed x q hx
  case allocated =>
    intro x q hx
    rw [hparent] at hx
    obtain ⟨hxlt, hqlt⟩ := h.allocated x q hx
    exact ⟨Nat.lt_succ_of_lt hxlt, Nat.lt_succ_of_lt hqlt⟩

theorem Mirrors.siblingsFrom {d : NodeHeap} {kids : NodeId → List NodeId}
    (h : Mirrors d kids) {p : NodeId} {fuel : Nat} {r l : List NodeId}
    (hk : kids p = l ++ r) (hfuel : r.length ≤ fuel) :
    siblingsFrom d fuel r.head? = r := by
  induction r generalizing l fuel with
  | nil => cases fuel <;> rfl
  | cons c r ih =>
    obtain _ | fuel := fuel
    · simp at hfuel
    · rw [List.head?_cons, Dom.siblingsFrom, h.next_eq hk,
        ih (l := l ++ [c]) (by simpa using hk) (by simpa using hfuel)]

theorem Mirrors.length_le {d : NodeHeap} {kids : NodeId → List NodeId}
    (h : Mirrors d kids) (p : NodeId) : (kids p).length ≤ d.size := by
  have hsub : kids p ⊆ List.range d.size := fun c hc => List.mem_range.2 (h.child_lt hc)
  simpa using (List.subperm_of_subset (h.nodup p) hsub).length_le

/-- The walk finds the child list. -/
theorem Mirrors.children_eq {d : NodeHeap} {kids : NodeId → List NodeId}
    (h : Mirrors d kids) : children d = kids := by
  funext p
  rw [children, h.first]
  exact h.siblingsFrom (l := []) rfl (h.length_le p)

/-! ## Links -/

section Links

variable {link before after : Option NodeId} {c x y : NodeId}

/-- Links with `c` taken out: the node in front of it is linked to the one behind it. -/
theorem unlinked_iff (hbefore : link = some c ↔ before = some x) (hc : before ≠ some c) :
    (if x = c then none else if before = some x then after else link) = some y ↔
      (x ≠ c ∧ y ≠ c ∧ link = some y) ∨ (before = some x ∧ after = some y) := by
  split_ifs with hx hlast
  · subst hx
    simp [hc]
  · rw [hbefore.2 hlast]
    simp [hlast, eq_comm]
  · have hne : link = some y → y ≠ c := fun hy hyc => hlast (hbefore.1 (hyc ▸ hy))
    simpa [hx, hlast] using hne

/-- Links with `c` put between two nodes. -/
theorem linked_iff (hbetween : before = some x → link = after) (hfresh : x = c → link = none)
    (hc : before ≠ some c) :
    (if x = c then after else if before = some x then some c else link) = some y ↔
      (link = some y ∧ ¬ (before = some x ∧ after = some y)) ∨
        (before = some x ∧ y = c) ∨ (x = c ∧ after = some y) := by
  split_ifs with hx hlast
  · subst hx
    simp [hc, hfresh rfl]
  · rw [hbetween hlast]
    simp [hx, hlast, eq_comm]
  · simp [hx, hlast]

end Links

/-! ## Taking a node out of its child list -/

namespace Mirrors

variable {d d' : NodeHeap} {kids : NodeId → List NodeId} {p c ref : NodeId}
  {l r : List NodeId}

theorem adjacent_update {m : List NodeId} {x y : NodeId} :
    (∃ q, Adjacent (Function.update kids p m q) x y) ↔
      Adjacent m x y ∨ ∃ q, q ≠ p ∧ Adjacent (kids q) x y := by
  constructor
  · rintro ⟨q, hadj⟩
    by_cases hq : q = p
    · subst hq
      rw [Function.update_self] at hadj
      exact .inl hadj
    · rw [Function.update_of_ne hq] at hadj
      exact .inr ⟨q, hq, hadj⟩
  · rintro (hadj | ⟨q, hq, hadj⟩)
    · exact ⟨p, by rwa [Function.update_self]⟩
    · exact ⟨q, by rwa [Function.update_of_ne hq]⟩

theorem adjacent_kids {m : List NodeId} (hk : kids p = m) {x y : NodeId} :
    (∃ q, Adjacent (kids q) x y) ↔ Adjacent m x y ∨ ∃ q, q ≠ p ∧ Adjacent (kids q) x y := by
  rw [← adjacent_update, ← hk, Function.update_eq_self]

/-- Dropping `c` from a list: what was adjacent stays so, and the neighbours of
`c` meet. -/
theorem adjacent_dropped (h : Mirrors d kids) (hk : kids p = l ++ c :: r) {x y : NodeId} :
    (∃ q, Adjacent (Function.update kids p (l ++ r) q) x y) ↔
      (x ≠ c ∧ y ≠ c ∧ ∃ q, Adjacent (kids q) x y) ∨
        (l.getLast? = some x ∧ r.head? = some y) := by
  have hnodup := h.nodup p
  rw [hk] at hnodup
  obtain ⟨hl, hr⟩ := not_mem_of_nodup_middle hnodup
  have hcp : c ∈ kids p := by simp [hk]
  have hne : ∀ m, c ∉ m → Adjacent m x y → x ≠ c ∧ y ≠ c := fun m hm hadj =>
    ⟨fun hx => hm (hx ▸ hadj.mem_left), fun hy => hm (hy ▸ hadj.mem_right)⟩
  have hother : (∃ q, q ≠ p ∧ Adjacent (kids q) x y) → x ≠ c ∧ y ≠ c := fun ⟨q, hq, hadj⟩ =>
    hne (kids q) (fun hc => hq (h.unique hc hcp)) hadj
  have hleft := hne l hl
  have hright := hne r hr
  rw [adjacent_update, adjacent_kids hk, adjacent_append, adjacent_append, adjacent_cons,
    List.head?_cons, Option.some_inj]
  grind

/-- `unlink` takes a listed child out of the list. -/
theorem unlink_listed (h : Mirrors d kids) (hk : kids p = l ++ c :: r) :
    Mirrors (unlink d p c) (Function.update kids p (l ++ r)) := by
  have hnodup := h.nodup p
  rw [hk] at hnodup
  obtain ⟨hl, hr⟩ := not_mem_of_nodup_middle hnodup
  have hnext := h.next_eq hk
  have hprev := h.prev_eq hk
  have hnd : (l ++ r).Nodup := hnodup.sublist (by simp)
  have hcp : c ∈ kids p := by simp [hk]
  constructor
  case first =>
    intro q
    rw [(unlink_node d p c q).2.2.2.1, h.first, hnext, hprev]
    by_cases hq : q = p
    · subst hq
      cases l <;> simp [hk]
    · simp [hq]
  case last =>
    intro q
    rw [(unlink_node d p c q).2.2.2.2.1, h.last, hnext, hprev]
    by_cases hq : q = p
    · subst hq
      cases r <;> simp [hk, List.getLast?_append]
    · simp [hq]
  case next =>
    intro x y
    rw [(unlink_node d p c x).2.1, h.adjacent_dropped hk, hnext, hprev, ← h.next]
    exact unlinked_iff (by rw [h.next, ← h.prev, hprev])
      fun hlast => hl (List.mem_of_getLast? hlast)
  case prev =>
    intro x y
    rw [(unlink_node d p c y).2.2.1, h.adjacent_dropped hk, hnext, hprev, ← h.prev,
      and_left_comm, @and_comm (l.getLast? = some x)]
    exact unlinked_iff (by rw [h.prev, ← h.next, hnext])
      fun hhead => hr (List.mem_of_head? hhead)
  case parent =>
    intro q x hx
    have hxq : x ∈ kids q ∧ x ≠ c := by
      by_cases hq : q = p
      · subst hq
        rw [Function.update_self] at hx
        refine ⟨by rw [hk]; simp at hx ⊢; tauto, fun hxc => ?_⟩
        subst hxc
        simp [hl, hr] at hx
      · rw [Function.update_of_ne hq] at hx
        exact ⟨hx, fun hxc => hq (h.unique (hxc ▸ hx) hcp)⟩
    rw [(unlink_node d p c x).1, if_neg hxq.2]
    exact h.parent q x hxq.1
  case nodup =>
    intro q
    by_cases hq : q = p
    · subst hq
      rwa [Function.update_self]
    · rw [Function.update_of_ne hq]
      exact h.nodup q
  case listed =>
    intro x q hx
    rw [(unlink_node d p c x).1] at hx
    rw [field_of_bare MiniNode.shadowRoot (unlink_node d p c q).2.2.2.2.2 fun _ => rfl,
      field_of_bare MiniNode.type (unlink_node d p c x).2.2.2.2.2 fun _ => rfl]
    split_ifs at hx with hxc
    refine (h.listed x q hx).imp_left fun hmem => ?_
    by_cases hq : q = p
    · subst hq
      rw [Function.update_self]
      rw [hk] at hmem
      simp at hmem ⊢
      tauto
    · rwa [Function.update_of_ne hq]
  case allocated =>
    intro x q hx
    rw [(unlink_node d p c x).1] at hx
    split_ifs at hx with hxc
    simpa using h.allocated x q hx

/-- A shadow root is taken off its host, whose child list is empty: the lists
stay as they are. -/
theorem unlink_unlisted (h : Mirrors d kids) (hc : ∀ q, c ∉ kids q) (hp : kids p = []) :
    Mirrors (unlink d p c) kids := by
  obtain ⟨hnext, hprev⟩ := h.siblings_of_unlisted hc
  constructor
  case first =>
    intro q
    rw [(unlink_node d p c q).2.2.2.1, h.first, hnext, hprev]
    by_cases hq : q = p <;> simp [hq, hp]
  case last =>
    intro q
    rw [(unlink_node d p c q).2.2.2.2.1, h.last, hnext, hprev]
    by_cases hq : q = p <;> simp [hq, hp]
  case next =>
    intro x y
    rw [(unlink_node d p c x).2.1, hprev, ← h.next]
    by_cases hx : x = c <;> simp [hx, hnext]
  case prev =>
    intro x y
    rw [(unlink_node d p c y).2.2.1, hnext, ← h.prev]
    by_cases hy : y = c <;> simp [hy, hprev]
  case parent =>
    intro q x hx
    rw [(unlink_node d p c x).1, if_neg fun (hxc : x = c) => hc q (hxc ▸ hx)]
    exact h.parent q x hx
  case nodup => exact h.nodup
  case listed =>
    intro x q hx
    rw [(unlink_node d p c x).1] at hx
    rw [field_of_bare MiniNode.shadowRoot (unlink_node d p c q).2.2.2.2.2 fun _ => rfl,
      field_of_bare MiniNode.type (unlink_node d p c x).2.2.2.2.2 fun _ => rfl]
    split_ifs at hx with hxc
    exact h.listed x q hx
  case allocated =>
    intro x q hx
    rw [(unlink_node d p c x).1] at hx
    split_ifs at hx with hxc
    simpa using h.allocated x q hx

end Mirrors

/-! ## Putting a node into a child list -/

/-- The heap `d'` is `d` with `c` linked between `l` and `r` under `p`. -/
structure LinksBetween (d d' : NodeHeap) (p c : NodeId) (l r : List NodeId) : Prop where
  size : d'.size = d.size
  parent : ∀ x, (d'.node x).parent = if x = c then some p else (d.node x).parent
  next : ∀ x, (d'.node x).nextSibling =
    if x = c then r.head? else if l.getLast? = some x then some c else (d.node x).nextSibling
  prev : ∀ x, (d'.node x).prevSibling =
    if x = c then l.getLast? else if r.head? = some x then some c else (d.node x).prevSibling
  first : ∀ x, (d'.node x).firstChild =
    if x = p then (l ++ c :: r).head? else (d.node x).firstChild
  last : ∀ x, (d'.node x).lastChild =
    if x = p then (l ++ c :: r).getLast? else (d.node x).lastChild
  bare : ∀ x, (d'.node x).bare = (d.node x).bare

namespace Mirrors

variable {d d' : NodeHeap} {kids : NodeId → List NodeId} {p c ref : NodeId}
  {l r : List NodeId}

/-- Linking `c` between `l` and `r`: these two parts no longer meet, each now
meets `c`, and all else stays adjacent. -/
theorem adjacent_linked (h : Mirrors d kids) (hk : kids p = l ++ r) {x y : NodeId} :
    (∃ q, Adjacent (Function.update kids p (l ++ c :: r) q) x y) ↔
      ((∃ q, Adjacent (kids q) x y) ∧ ¬ (l.getLast? = some x ∧ r.head? = some y)) ∨
        (l.getLast? = some x ∧ y = c) ∨ (x = c ∧ r.head? = some y) := by
  have hnodup := h.nodup p
  rw [hk] at hnodup
  obtain ⟨hlnd, hrnd, -⟩ := List.nodup_append.1 hnodup
  have hleft : l.getLast? = some x → ¬ Adjacent l x y := not_adjacent_last hlnd
  have hright : r.head? = some y → ¬ Adjacent r x y := not_adjacent_first hrnd
  have hother : l.getLast? = some x → ¬ ∃ q, q ≠ p ∧ Adjacent (kids q) x y := by
    rintro hlast ⟨q, hq, hadj⟩
    refine hq (h.unique hadj.mem_left ?_)
    rw [hk]
    exact List.mem_append_left _ (List.mem_of_getLast? hlast)
  rw [adjacent_update, adjacent_kids hk, adjacent_append, adjacent_append, adjacent_cons,
    List.head?_cons, Option.some_inj]
  grind

/-- Linking an unlisted node keeps the mirror. -/
theorem link (h : Mirrors d kids) (hk : kids p = l ++ r) (hc : ∀ q, c ∉ kids q)
    (hclt : c < d.size) (hplt : p < d.size) (hlink : LinksBetween d d' p c l r) :
    Mirrors d' (Function.update kids p (l ++ c :: r)) := by
  obtain ⟨hnext, hprev⟩ := h.siblings_of_unlisted hc
  have hcp := hc p
  rw [hk, List.mem_append, not_or] at hcp
  have hcl : l.getLast? ≠ some c := fun hlast => hcp.1 (List.mem_of_getLast? hlast)
  have hcr : r.head? ≠ some c := fun hhead => hcp.2 (List.mem_of_head? hhead)
  constructor
  case first =>
    intro q
    rw [hlink.first, h.first]
    by_cases hq : q = p <;> simp [hq]
  case last =>
    intro q
    rw [hlink.last, h.last]
    by_cases hq : q = p <;> simp [hq]
  case next =>
    intro x y
    rw [hlink.next, h.adjacent_linked hk, ← h.next]
    refine linked_iff (fun hlast => ?_) (fun hx => hx ▸ hnext) hcl
    obtain ⟨l₁, rfl⟩ := List.getLast?_eq_some_iff.1 hlast
    exact h.next_eq (l := l₁) (by simpa using hk)
  case prev =>
    intro x y
    rw [hlink.prev, h.adjacent_linked hk, ← h.prev, @and_comm (l.getLast? = some x),
      @and_comm (l.getLast? = some x), @and_comm (x = c), @or_comm (y = c ∧ _)]
    refine linked_iff (fun hhead => ?_) (fun hy => hy ▸ hprev) hcr
    obtain ⟨r₁, rfl⟩ := List.head?_eq_some_iff.1 hhead
    exact h.prev_eq hk
  case parent =>
    intro q x hx
    rw [hlink.parent]
    split_ifs with hxc
    · by_cases hq : q = p
      · rw [hq]
      · rw [Function.update_of_ne hq] at hx
        exact absurd (hxc ▸ hx) (hc q)
    · refine h.parent q x ?_
      by_cases hq : q = p
      · subst hq
        rw [Function.update_self] at hx
        rw [hk]
        simp [hxc] at hx
        simpa using hx
      · rwa [Function.update_of_ne hq] at hx
  case nodup =>
    intro q
    by_cases hq : q = p
    · subst hq
      rw [Function.update_self, List.perm_middle.nodup_iff, List.nodup_cons, ← hk]
      exact ⟨hc q, h.nodup q⟩
    · rw [Function.update_of_ne hq]
      exact h.nodup q
  case listed =>
    intro x q hx
    rw [hlink.parent] at hx
    rw [field_of_bare MiniNode.shadowRoot (hlink.bare q) fun _ => rfl,
      field_of_bare MiniNode.type (hlink.bare x) fun _ => rfl]
    split_ifs at hx with hxc
    · left
      cases hx
      simp [hxc]
    · refine (h.listed x q hx).imp_left fun hmem => ?_
      by_cases hq : q = p
      · subst hq
        rw [hk, List.mem_append] at hmem
        rw [Function.update_self, List.mem_append, List.mem_cons]
        tauto
      · rwa [Function.update_of_ne hq]
  case allocated =>
    intro x q hx
    rw [hlink.parent] at hx
    rw [hlink.size]
    split_ifs at hx with hxc
    · cases hx
      exact ⟨hxc ▸ hclt, hplt⟩
    · exact h.allocated x q hx

/-- `linkLast` links at the end. -/
theorem linksBetween_linkLast (h : Mirrors d kids) (hc : c ∉ kids p) :
    LinksBetween d (linkLast d p c) p c (kids p) [] := by
  have hlast := h.last p
  have hne : (kids p).getLast? ≠ some c := fun hl => hc (List.mem_of_getLast? hl)
  constructor
  case size => simp
  case parent => exact fun x => (linkLast_node d p c x).1
  case next =>
    intro x
    rw [(linkLast_node d p c x).2.1, hlast]
    by_cases hx : x = c
    · subst hx
      simp [hne]
    · simp [hx]
  case prev =>
    intro x
    rw [(linkLast_node d p c x).2.2.1, hlast]
    simp
  case first =>
    intro x
    rw [(linkLast_node d p c x).2.2.2.1, hlast]
    by_cases hx : x = p
    · subst hx
      rw [h.first]
      cases kids x <;> simp
    · simp [hx]
  case last =>
    intro x
    rw [(linkLast_node d p c x).2.2.2.2.1]
    simp
  case bare => exact fun x => (linkLast_node d p c x).2.2.2.2.2

/-- `linkBefore` links in front of a listed child. -/
theorem linksBetween_linkBefore (h : Mirrors d kids) (hk : kids p = l ++ ref :: r)
    (hc : c ∉ kids p) : LinksBetween d (linkBefore d p c ref) p c l (ref :: r) := by
  have hprev := h.prev_eq hk
  have hcl : l.getLast? ≠ some c := fun hlast =>
    hc (by rw [hk]; exact List.mem_append_left _ (List.mem_of_getLast? hlast))
  have hcr : c ≠ ref := fun hcr => hc (by simp [hk, hcr])
  constructor
  case size => simp
  case parent => exact fun x => (linkBefore_node d p c ref x).1
  case next =>
    intro x
    rw [(linkBefore_node d p c ref x).2.1, hprev]
    by_cases hx : x = c
    · subst hx
      simp [hcl]
    · simp [hx]
  case prev =>
    intro x
    rw [(linkBefore_node d p c ref x).2.2.1, hprev]
    by_cases hx : x = c
    · subst hx
      simp [hcr]
    · simp [hx, eq_comm]
  case first =>
    intro x
    rw [(linkBefore_node d p c ref x).2.2.2.1, hprev]
    by_cases hx : x = p
    · subst hx
      rw [h.first, hk]
      cases l <;> simp
    · simp [hx]
  case last =>
    intro x
    rw [(linkBefore_node d p c ref x).2.2.2.2.1]
    by_cases hx : x = p
    · subst hx
      rw [h.last, hk]
      simp [List.getLast?_append]
    · simp [hx]
  case bare => exact fun x => (linkBefore_node d p c ref x).2.2.2.2.2

end Mirrors

/-! ## The mutators over child lists -/

/-- The child lists without `c`. -/
def dropKid (kids : NodeId → List NodeId) (c : NodeId) : NodeId → List NodeId :=
  fun q => (kids q).erase c

/-- The child lists with `c` at the end of the list of `p`. -/
def addKid (kids : NodeId → List NodeId) (p c : NodeId) : NodeId → List NodeId :=
  Function.update kids p (kids p ++ [c])

namespace Mirrors

variable {d : NodeHeap} {kids : NodeId → List NodeId} {p c ref x : NodeId}

theorem dropKid_of_unlisted (hc : ∀ q, c ∉ kids q) : dropKid kids c = kids :=
  funext fun q => List.erase_of_not_mem (hc q)

theorem not_mem_dropKid (h : Mirrors d kids) (q : NodeId) : c ∉ dropKid kids c q :=
  fun hmem => (h.nodup q).not_mem_erase hmem

theorem dropKid_eq_update (h : Mirrors d kids) {l r : List NodeId}
    (hk : kids p = l ++ c :: r) : dropKid kids c = Function.update kids p (l ++ r) := by
  funext q
  by_cases hq : q = p
  · subst hq
    have hnodup := h.nodup q
    rw [hk] at hnodup
    rw [dropKid, Function.update_self, hk,
      List.erase_append_right _ (not_mem_of_nodup_middle hnodup).1, List.erase_cons_head]
  · rw [Function.update_of_ne hq]
    refine List.erase_of_not_mem fun hmem => hq (h.unique hmem ?_)
    simp [hk]

/-- A node that is not a hanging shadow root of a parent with children. -/
def Removable (d : NodeHeap) (kids : NodeId → List NodeId) (c : NodeId) : Prop :=
  ∀ p, (d.node c).parent = some p → c ∈ kids p ∨ kids p = []

theorem removable_of_listed (h : Mirrors d kids) (hc : c ∈ kids p) : Removable d kids c := by
  intro q hq
  rw [h.parent p c hc] at hq
  cases hq
  exact .inl hc

theorem removable_of_type (h : Mirrors d kids)
    (hc : (d.node c).type ≠ .documentFragmentNode) : Removable d kids c :=
  fun q hq => (h.listed c q hq).imp_right fun hshadow => absurd hshadow.2 hc

/-- `unlink` at the parent of a removable node. -/
theorem unlink (h : Mirrors d kids) (hp : (d.node c).parent = some p)
    (hrem : Removable d kids c) : Mirrors (Dom.unlink d p c) (dropKid kids c) := by
  by_cases hc : c ∈ kids p
  · obtain ⟨l, r, hk⟩ := List.append_of_mem hc
    rw [h.dropKid_eq_update hk]
    exact h.unlink_listed hk
  · have hun : ∀ q, c ∉ kids q := by
      intro q hmem
      have hq := h.parent q c hmem
      rw [hp] at hq
      cases hq
      exact hc hmem
    rw [dropKid_of_unlisted hun]
    exact h.unlink_unlisted hun ((hrem p hp).resolve_left hc)

theorem removeFromParent (h : Mirrors d kids) (hrem : Removable d kids c) :
    Mirrors (Dom.removeFromParent d c) (dropKid kids c) := by
  unfold Dom.removeFromParent miniNodeRemoveChild
  cases hp : (d.node c).parent with
  | none =>
    rw [dropKid_of_unlisted (h.unlisted_of_orphan hp)]
    exact h
  | some q => simpa [hp] using h.unlink hp hrem

end Mirrors

@[simp] theorem removeFromParent_size (d : NodeHeap) (c : NodeId) :
    (removeFromParent d c).size = d.size := by
  unfold removeFromParent miniNodeRemoveChild
  cases hp : (d.node c).parent <;> simp [hp]

theorem removeFromParent_node (d : NodeHeap) (c x : NodeId) :
    ((removeFromParent d c).node x).parent = (if x = c then none else (d.node x).parent) ∧
    ((removeFromParent d c).node x).bare = (d.node x).bare := by
  unfold removeFromParent miniNodeRemoveChild
  cases hp : (d.node c).parent with
  | none =>
    refine ⟨?_, rfl⟩
    split_ifs with hx
    · exact hx ▸ hp
    · rfl
  | some q =>
    simp only [hp, ne_eq, not_true_eq_false, if_false]
    exact ⟨(unlink_node d q c x).1, (unlink_node d q c x).2.2.2.2.2⟩

namespace Mirrors

variable {d : NodeHeap} {kids : NodeId → List NodeId} {p c ref x : NodeId}

/-- The plain path of `mini_node_append_child`. -/
theorem appendPlain (h : Mirrors d kids) (hrem : Removable d kids c) (hc : c < d.size)
    (hp : p < d.size) :
    Mirrors (linkLast (Dom.removeFromParent d c) p c) (addKid (dropKid kids c) p c) := by
  have h' := h.removeFromParent hrem
  exact h'.link (by simp) h.not_mem_dropKid (by simpa) (by simpa)
    (h'.linksBetween_linkLast (h.not_mem_dropKid p))

/-- The linking path of `mini_node_insert_before`. -/
theorem insertPlain (h : Mirrors d kids) (hrem : Removable d kids c) (hc : c < d.size)
    {l r : List NodeId} (hk : dropKid kids c p = l ++ ref :: r) :
    Mirrors (linkBefore (Dom.removeFromParent d c) p c ref)
      (Function.update (dropKid kids c) p (l ++ c :: ref :: r)) := by
  have h' := h.removeFromParent hrem
  have hp : p < (Dom.removeFromParent d c).size := h'.parent_lt (c := ref) (by simp [hk])
  exact h'.link hk h.not_mem_dropKid (by simpa) hp
    (h'.linksBetween_linkBefore hk (h.not_mem_dropKid p))

end Mirrors

end TinyFramework.Dom
