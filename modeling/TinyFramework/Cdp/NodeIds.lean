/-
  Cdp/NodeIds.lean --- the node ids of the inspector protocol.

  `cdp_node_id` is a field of every node, zero until `mini_dom_assign_node_ids`
  writes it.  The assignment looks for the greatest id in the tree and numbers the
  nodes without one from there on, so the id of a node that is out of the tree at
  that moment can be handed out again.  The condition below is that no such node
  comes back.
-/
import Mathlib.Data.Finset.Card
import TinyFramework.Dom.Placement
import TinyFramework.Html5.Document

set_option autoImplicit false

namespace TinyFramework.Cdp

open TinyFramework.Foundation TinyFramework.Dom

/-! ## The functions of the source -/

/-- A document: the nodes, `doc->root`, and the `cdp_node_id` of every node.  The ids are `int`s that
fewer than 2^31 nodes do not wrap. -/
structure CdpState where
  heap : NodeHeap
  root : NodeId
  cdpNodeId : NodeId → Nat

/-- `cdp_max_id_rec`.  The bound is the number of allocated nodes. -/
def cdpMaxIdRec (s : CdpState) : Nat → Option NodeId → Nat → Nat
  | _, none, mx => mx
  | 0, some _, mx => mx
  | fuel + 1, some n, mx =>
      let mx := if s.cdpNodeId n > mx then s.cdpNodeId n else mx
      let mx := cdpMaxIdRec s fuel (s.heap.node n).firstChild mx
      let mx := cdpMaxIdRec s fuel (s.heap.node n).nextSibling mx
      cdpMaxIdRec s fuel (s.heap.node n).shadowRoot mx

/-- Give `n` the next id when it has none. -/
def assignId (r : (NodeId → Nat) × Nat) (n : NodeId) : (NodeId → Nat) × Nat :=
  if r.1 n = 0 then (Function.update r.1 n r.2, r.2 + 1) else r

/-- `assign_ids_rec`: the ids and `*next`. -/
def assignIdsRec (d : NodeHeap) : Nat → Option NodeId → (NodeId → Nat) × Nat → (NodeId → Nat) × Nat
  | _, none, r => r
  | 0, some _, r => r
  | fuel + 1, some n, r =>
      let r := assignId r n
      let r := assignIdsRec d fuel (d.node n).firstChild r
      let r := assignIdsRec d fuel (d.node n).nextSibling r
      assignIdsRec d fuel (d.node n).shadowRoot r

/-- `mini_dom_assign_node_ids`: the greatest id and the document. -/
def miniDomAssignNodeIds (s : CdpState) : Nat × CdpState :=
  let next := cdpMaxIdRec s s.heap.size (some s.root) 0 + 1
  let r := assignIdsRec s.heap s.heap.size (some s.root) (s.cdpNodeId, next)
  (r.2 - 1, { s with cdpNodeId := r.1 })

/-- `find_id_rec` -/
def findIdRec (s : CdpState) (id : Nat) : Nat → Option NodeId → Option NodeId
  | _, none => none
  | 0, some _ => none
  | fuel + 1, some n =>
      if s.cdpNodeId n = id then some n
      else
        match findIdRec s id fuel (s.heap.node n).firstChild with
        | some r => some r
        | none =>
          match findIdRec s id fuel (s.heap.node n).nextSibling with
          | some r => some r
          | none => findIdRec s id fuel (s.heap.node n).shadowRoot

/-- `mini_dom_node_by_id` -/
def miniDomNodeById (s : CdpState) (id : Nat) : Option NodeId :=
  findIdRec s id s.heap.size (some s.root)

/-! ## The order of the visits -/

/-- The nodes the three recursions come to, in their order. -/
def visitRec (d : NodeHeap) : Nat → Option NodeId → List NodeId
  | _, none => []
  | 0, some _ => []
  | fuel + 1, some n =>
      n :: (visitRec d fuel (d.node n).firstChild ++
        (visitRec d fuel (d.node n).nextSibling ++ visitRec d fuel (d.node n).shadowRoot))

@[simp] theorem visitRec_none (d : NodeHeap) (fuel : Nat) : visitRec d fuel none = [] := by
  cases fuel <;> rfl

theorem cdpMaxIdRec_eq (s : CdpState) (fuel : Nat) (start : Option NodeId) (mx : Nat) :
    cdpMaxIdRec s fuel start mx =
      (visitRec s.heap fuel start).foldl (fun mx n => max mx (s.cdpNodeId n)) mx := by
  induction fuel generalizing start mx with
  | zero => cases start <;> rfl
  | succ fuel ih =>
    cases start with
    | none => rfl
    | some n =>
      have hmax : (if s.cdpNodeId n > mx then s.cdpNodeId n else mx) = max mx (s.cdpNodeId n) := by
        split_ifs <;> omega
      simp only [cdpMaxIdRec, visitRec, List.foldl_cons, List.foldl_append, ih, hmax]

theorem assignIdsRec_eq (d : NodeHeap) (fuel : Nat) (start : Option NodeId)
    (r : (NodeId → Nat) × Nat) :
    assignIdsRec d fuel start r = (visitRec d fuel start).foldl assignId r := by
  induction fuel generalizing start r with
  | zero => cases start <;> rfl
  | succ fuel ih =>
    cases start with
    | none => rfl
    | some n => simp only [assignIdsRec, visitRec, List.foldl_cons, List.foldl_append, ih]

theorem findIdRec_eq (s : CdpState) (id fuel : Nat) (start : Option NodeId) :
    findIdRec s id fuel start =
      (visitRec s.heap fuel start).find? fun n => s.cdpNodeId n = id := by
  induction fuel generalizing start with
  | zero => cases start <;> rfl
  | succ fuel ih =>
    cases start with
    | none => rfl
    | some n =>
      simp only [findIdRec, visitRec, List.find?_cons, List.find?_append, ih]
      split_ifs with hn
      · simp [hn]
      · simp only [hn, decide_false]
        cases (visitRec s.heap fuel (s.heap.node n).firstChild).find? fun n => s.cdpNodeId n = id with
        | some r => rfl
        | none =>
          cases (visitRec s.heap fuel (s.heap.node n).nextSibling).find?
              fun n => s.cdpNodeId n = id <;> rfl

/-- A run of siblings up to the last of them: `next_sibling` leads from each to the
next, and none is below a later one. -/
structure SiblingChain (d : NodeHeap) (l : List NodeId) : Prop where
  next : ∀ pre n r, l = pre ++ n :: r → (d.node n).nextSibling = r.head?
  apart : l.Pairwise fun x y => ¬ Below d.parentOf x y

section Visits

variable {d : NodeHeap} {n : NodeId} {l : List NodeId}

theorem SiblingChain.tail (h : SiblingChain d (n :: l)) : SiblingChain d l :=
  ⟨fun pre m r hl => h.next (n :: pre) m r (by rw [hl, List.cons_append]),
    (List.pairwise_cons.1 h.apart).2⟩

theorem siblingChain_singleton (hn : (d.node n).nextSibling = none) : SiblingChain d [n] := by
  refine ⟨fun pre m r hl => ?_, List.pairwise_singleton _ _⟩
  obtain ⟨hpre, hrest⟩ | ⟨_, hpre, hrest⟩ := List.append_eq_cons_iff.1 hl.symm
  · obtain ⟨rfl, rfl⟩ := List.cons.inj hrest
    exact hn
  · simp at hrest

/-- The children of a node from some child on. -/
theorem siblingChain_children (h : WellFormed d) {pre : List NodeId}
    (hk : children d n = pre ++ l) : SiblingChain d l := by
  refine ⟨fun pre' m r hl => ?_, ?_⟩
  · have hk' : children d n = (pre ++ pre') ++ m :: r := by rw [hk, hl, List.append_assoc]
    exact h.mirrors.next_eq hk'
  · have hnodup := h.mirrors.nodup n
    rw [hk] at hnodup
    refine (List.nodup_append.1 hnodup).2.1.imp_of_mem fun {x y} hx hy hne hbelow => ?_
    have hparent : ∀ z ∈ l, d.parentOf z = some n := fun z hz =>
      h.mirrors.parent n z (by rw [hk]; exact List.mem_append_right _ hz)
    exact h.acyclic.not_below_of_parent (hparent y hy) (hbelow.of_parent_eq hne (hparent x hx))

/-- From every child on, listed or not, the walk over the siblings stays among the
children. -/
theorem exists_siblingChain (h : WellFormed d) {c : NodeId} (hc : d.parentOf c = some n) :
    ∃ r, SiblingChain d (c :: r) ∧ ∀ m ∈ c :: r, d.parentOf m = some n := by
  by_cases hlisted : c ∈ children d n
  · obtain ⟨pre, r, hk⟩ := List.append_of_mem hlisted
    refine ⟨r, siblingChain_children h hk, fun m hm => ?_⟩
    exact h.mirrors.parent n m (by rw [hk]; exact List.mem_append_right _ hm)
  · have hun : ∀ q, c ∉ children d q := fun q hmem => by
      have hq := h.mirrors.parent q c hmem
      rw [show (d.node c).parent = some n from hc] at hq
      exact hlisted (Option.some.inj hq ▸ hmem)
    refine ⟨[], siblingChain_singleton (h.mirrors.siblings_of_unlisted hun).1, fun m hm => ?_⟩
    exact List.mem_singleton.1 hm ▸ hc

/-- With room for every node below the siblings, the visits come to all of these,
and more room changes nothing. -/
theorem visitRec_spec (h : WellFormed d) (howned : ShadowOwned d) {fuel : Nat}
    {A : Finset NodeId} (hchain : SiblingChain d l)
    (hA : ∀ x, ∀ m ∈ l, Below d.parentOf x m → x ∈ A) (hfuel : A.card ≤ fuel) :
    (∀ x, x ∈ visitRec d fuel l.head? ↔ ∃ m ∈ l, Below d.parentOf x m) ∧
      visitRec d (fuel + 1) l.head? = visitRec d fuel l.head? := by
  induction fuel generalizing l A with
  | zero =>
    cases l with
    | nil => exact ⟨by simp, by simp⟩
    | cons n l =>
      have hn := hA n n List.mem_cons_self (Below.refl n)
      rw [Finset.card_eq_zero.1 (Nat.le_zero.1 hfuel)] at hn
      cases hn
  | succ fuel ih =>
    cases l with
    | nil => exact ⟨by simp, by simp⟩
    | cons n l =>
      have hn := hA n n List.mem_cons_self (Below.refl n)
      have hcard : (A.erase n).card ≤ fuel := by
        rw [Finset.card_erase_of_mem hn]
        omega
      -- nothing below a child of `n` is `n`
      have hchild : ∀ c, d.parentOf c = some n → ∀ x, Below d.parentOf x c → x ∈ A.erase n := by
        intro c hc x hx
        refine Finset.mem_erase.2 ⟨?_, hA x n List.mem_cons_self (hx.trans (Below.of_parent hc))⟩
        rintro rfl
        exact h.acyclic.not_below_of_parent hc hx
      have hkids := ih (siblingChain_children h (List.nil_append _).symm)
        (fun x m hm => hchild m (h.mirrors.parent n m hm) x) hcard
      have hlater := ih hchain.tail (fun x m hm hx => Finset.mem_erase.2
        ⟨fun (hxn : x = n) => (List.pairwise_cons.1 hchain.apart).1 m hm (hxn ▸ hx),
          hA x m (List.mem_cons_of_mem n hm) hx⟩) hcard
      rw [← h.mirrors.first n] at hkids
      rw [← hchain.next [] n l rfl] at hlater
      have hshadow : (∀ x, x ∈ visitRec d fuel (d.node n).shadowRoot →
            ∃ c, d.parentOf c = some n ∧ Below d.parentOf x c) ∧
          (∀ s x, (d.node n).shadowRoot = some s → Below d.parentOf x s →
            x ∈ visitRec d fuel (d.node n).shadowRoot) ∧
          visitRec d (fuel + 1) (d.node n).shadowRoot = visitRec d fuel (d.node n).shadowRoot := by
        cases hs : (d.node n).shadowRoot with
        | none => exact ⟨by simp, by simp, by simp⟩
        | some s =>
          obtain ⟨r, hr, hparent⟩ := exists_siblingChain h (howned n s hs)
          obtain ⟨hmem, hmore⟩ := ih hr (fun x m hm => hchild m (hparent m hm) x) hcard
          rw [List.head?_cons] at hmem hmore
          refine ⟨fun x hx => ?_, fun s' x hs' hx => ?_, hmore⟩
          · obtain ⟨m, hm, hxm⟩ := (hmem x).1 hx
            exact ⟨m, hparent m hm, hxm⟩
          · obtain rfl := Option.some.inj hs'
            exact (hmem x).2 ⟨s, List.mem_cons_self, hx⟩
      refine ⟨fun x => ?_, ?_⟩
      · rw [List.head?_cons, visitRec, List.mem_cons, List.mem_append, List.mem_append,
          hkids.1, hlater.1]
        constructor
        · rintro (rfl | ⟨c, hc, hx⟩ | ⟨m, hm, hx⟩ | hx)
          · exact ⟨x, List.mem_cons_self, Below.refl x⟩
          · exact ⟨n, List.mem_cons_self, hx.trans (Below.of_parent (h.mirrors.parent n c hc))⟩
          · exact ⟨m, List.mem_cons_of_mem n hm, hx⟩
          · obtain ⟨c, hc, hxc⟩ := hshadow.1 x hx
            exact ⟨n, List.mem_cons_self, hxc.trans (Below.of_parent hc)⟩
        · rintro ⟨m, hm, hx⟩
          rcases List.mem_cons.1 hm with rfl | hm
          · rcases Relation.ReflTransGen.cases_tail hx with heq | ⟨c, hxc, hc⟩
            · exact .inl heq.symm
            · rcases h.mirrors.listed c m hc with hlist | ⟨hs, -⟩
              · exact .inr (.inl ⟨c, hlist, hxc⟩)
              · exact .inr (.inr (.inr (hshadow.2.1 c x hs hxc)))
          · exact .inr (.inr (.inl ⟨m, hm, hx⟩))
      · rw [List.head?_cons, visitRec, hkids.2, hlater.2, hshadow.2.2, visitRec]

end Visits

/-! ## One assignment -/

/-- Reachable by the pointers that lead down: child lists and shadow roots. -/
def Reaches (d : NodeHeap) : NodeId → NodeId → Prop :=
  Relation.ReflTransGen fun x y => y ∈ children d x ∨ (d.node x).shadowRoot = some y

theorem reaches_iff {d : NodeHeap} (h : WellFormed d) (howned : ShadowOwned d) {root x : NodeId} :
    Reaches d root x ↔ Below d.parentOf x root := by
  constructor
  · intro hx
    induction hx with
    | refl => exact Below.refl root
    | @tail x y _ hxy ih =>
      rcases hxy with hkid | hshadow
      · exact Below.head (h.mirrors.parent x y hkid) ih
      · exact Below.head (howned x y hshadow) ih
  · intro hx
    induction hx using Relation.ReflTransGen.head_induction_on with
    | refl => exact .refl
    | @head x q hxq _ ih => exact ih.tail ((h.mirrors.listed x q hxq).imp_right And.left)

/-- The ids of the document name its nodes, and the lookup finds them. -/
def IdsIdentify (s : CdpState) : Prop :=
  (∀ x, Reaches s.heap s.root x → s.cdpNodeId x ≠ 0) ∧
  (∀ x y, Reaches s.heap s.root x → Reaches s.heap s.root y →
    s.cdpNodeId x = s.cdpNodeId y → x = y) ∧
  ∀ x, Reaches s.heap s.root x → miniDomNodeById s (s.cdpNodeId x) = some x

/-- The ids in use among the nodes of `T` are distinct. -/
def DistinctIds (T : NodeId → Prop) (id : NodeId → Nat) : Prop :=
  ∀ x y, T x → T y → id x = id y → id x = 0 ∨ x = y

/-- In the middle of an assignment: `next` is beyond every id of `T`. -/
structure Assigning (T : NodeId → Prop) (r : (NodeId → Nat) × Nat) : Prop where
  pos : 0 < r.2
  lt : ∀ x, T x → r.1 x < r.2
  distinct : DistinctIds T r.1

section Assign

variable {T : NodeId → Prop} {r : (NodeId → Nat) × Nat} {n x : NodeId}

theorem assignId_kept (hx : r.1 x ≠ 0) : (assignId r n).1 x = r.1 x := by
  unfold assignId
  split_ifs with hn
  · exact Function.update_of_ne (fun (hxn : x = n) => hx (hxn ▸ hn)) _ _
  · rfl

theorem Assigning.assignId (h : Assigning T r) :
    Assigning T (assignId r n) ∧ (Cdp.assignId r n).1 n ≠ 0 := by
  unfold Cdp.assignId
  split_ifs with hn
  · refine ⟨⟨Nat.succ_pos _, fun x hx => ?_, fun x y hx hy heq => ?_⟩, ?_⟩
    · simp only [Function.update_apply]
      split_ifs
      · exact Nat.lt_succ_self _
      · exact Nat.lt_succ_of_lt (h.lt x hx)
    · simp only [Function.update_apply] at heq ⊢
      have hltx := h.lt x hx
      have hlty := h.lt y hy
      split_ifs at heq ⊢ with hxn hyn hyn
      · exact .inr (hxn.trans hyn.symm)
      · exact absurd heq.symm (Nat.ne_of_lt hlty)
      · exact absurd heq (Nat.ne_of_lt hltx)
      · exact h.distinct x y hx hy heq
    · simpa using Nat.ne_of_gt h.pos
  · exact ⟨h, hn⟩

theorem foldl_assignId_kept (l : List NodeId) (hx : r.1 x ≠ 0) :
    (l.foldl Cdp.assignId r).1 x = r.1 x := by
  induction l generalizing r with
  | nil => rfl
  | cons n l ih =>
    have hkept : (Cdp.assignId r n).1 x = r.1 x := assignId_kept hx
    exact (ih (hkept ▸ hx)).trans hkept

theorem foldl_assignId_of_not_mem {l : List NodeId} (hx : x ∉ l) :
    (l.foldl Cdp.assignId r).1 x = r.1 x := by
  induction l generalizing r with
  | nil => rfl
  | cons n l ih =>
    obtain ⟨hxn, hxl⟩ := not_or.1 (mt List.mem_cons.2 hx)
    refine (ih hxl).trans ?_
    unfold Cdp.assignId
    split_ifs
    · exact Function.update_of_ne hxn _ _
    · rfl

theorem Assigning.foldl (h : Assigning T r) (l : List NodeId) :
    Assigning T (l.foldl Cdp.assignId r) ∧ ∀ x ∈ l, (l.foldl Cdp.assignId r).1 x ≠ 0 := by
  induction l generalizing r with
  | nil => exact ⟨h, by simp⟩
  | cons n l ih =>
    obtain ⟨hstep, hn⟩ := h.assignId (n := n)
    obtain ⟨hrest, hall⟩ := ih hstep
    refine ⟨hrest, fun x hx => ?_⟩
    rcases List.mem_cons.1 hx with rfl | hx
    · rw [List.foldl_cons, foldl_assignId_kept l hn]
      exact hn
    · exact hall x hx

theorem le_foldl_max (f : NodeId → Nat) (l : List NodeId) (mx : Nat) :
    mx ≤ l.foldl (fun mx n => max mx (f n)) mx ∧
      ∀ x ∈ l, f x ≤ l.foldl (fun mx n => max mx (f n)) mx := by
  induction l generalizing mx with
  | nil => exact ⟨Nat.le_refl _, by simp⟩
  | cons n l ih =>
    obtain ⟨hmx, hall⟩ := ih (max mx (f n))
    refine ⟨(Nat.le_max_left _ _).trans hmx, fun x hx => ?_⟩
    rcases List.mem_cons.1 hx with rfl | hx
    · exact (Nat.le_max_right _ _).trans hmx
    · exact hall x hx

theorem find?_unique {f : NodeId → Nat} {l : List NodeId} (hx : x ∈ l)
    (hunique : ∀ y ∈ l, f y = f x → y = x) : (l.find? fun n => f n = f x) = some x := by
  have hsome : (l.find? fun n => f n = f x).isSome := List.find?_isSome.2 ⟨x, hx, by simp⟩
  obtain ⟨y, hy⟩ := Option.isSome_iff_exists.1 hsome
  have heq : f y = f x := by simpa using List.find?_some hy
  rw [hy, hunique y (List.mem_of_find?_eq_some hy) heq]

end Assign

/-- Between two steps: a well-formed document whose root is the root of its tree, and
no id used twice in the tree. -/
structure TreeIds (s : CdpState) : Prop where
  wf : WellFormed s.heap
  owned : ShadowOwned s.heap
  rootLt : s.root < s.heap.size
  rootOrphan : s.heap.parentOf s.root = none
  fresh : ∀ x, s.heap.size ≤ x → s.cdpNodeId x = 0
  distinct : DistinctIds (fun x => Below s.heap.parentOf x s.root) s.cdpNodeId

namespace TreeIds

variable {s : CdpState}

theorem lt_of_below (h : TreeIds s) {x : NodeId} (hx : Below s.heap.parentOf x s.root) :
    x < s.heap.size := by
  rcases hx.eq_or_parent with rfl | ⟨p, hp, -⟩
  · exact h.rootLt
  · exact (h.wf.mirrors.allocated x p hp).1

/-- From the root, any bound from the number of nodes on gives the same visits, and they
come to the nodes of the tree. -/
theorem visits_spec (h : TreeIds s) (k : Nat) :
    (∀ x, x ∈ visitRec s.heap (s.heap.size + k) (some s.root) ↔
      Below s.heap.parentOf x s.root) ∧
    visitRec s.heap (s.heap.size + (k + 1)) (some s.root) =
      visitRec s.heap (s.heap.size + k) (some s.root) := by
  have hchain : SiblingChain s.heap [s.root] := siblingChain_singleton
    (h.wf.mirrors.siblings_of_unlisted (h.wf.mirrors.unlisted_of_orphan h.rootOrphan)).1
  have hA : ∀ x, ∀ m ∈ [s.root], Below s.heap.parentOf x m → x ∈ Finset.range s.heap.size :=
    fun x m hm hx => Finset.mem_range.2 (h.lt_of_below (List.mem_singleton.1 hm ▸ hx))
  have hcard : (Finset.range s.heap.size).card ≤ s.heap.size + k := by simp
  obtain ⟨hmem, hmore⟩ := visitRec_spec h.wf h.owned hchain hA hcard
  exact ⟨fun x => by simpa using hmem x, hmore⟩

/-- The recursions come to an end: a larger bound visits no more. -/
theorem visits_settled (h : TreeIds s) (k : Nat) :
    visitRec s.heap (s.heap.size + k) (some s.root) =
      visitRec s.heap s.heap.size (some s.root) := by
  induction k with
  | zero => rfl
  | succ k ih => exact (h.visits_spec k).2.trans ih

theorem mem_visits (h : TreeIds s) (x : NodeId) :
    x ∈ visitRec s.heap s.heap.size (some s.root) ↔ Below s.heap.parentOf x s.root :=
  (h.visits_spec 0).1 x

/-- An assignment numbers the tree and keeps the numbers it finds. -/
theorem assign (h : TreeIds s) :
    TreeIds (miniDomAssignNodeIds s).2 ∧ IdsIdentify (miniDomAssignNodeIds s).2 ∧
      ∀ x, s.cdpNodeId x ≠ 0 → (miniDomAssignNodeIds s).2.cdpNodeId x = s.cdpNodeId x := by
  set visits := visitRec s.heap s.heap.size (some s.root) with hvisits
  set next := cdpMaxIdRec s s.heap.size (some s.root) 0 + 1 with hnext
  have hstart : Assigning (fun x => Below s.heap.parentOf x s.root) (s.cdpNodeId, next) := by
    refine ⟨Nat.succ_pos _, fun x hx => ?_, h.distinct⟩
    have hle := (le_foldl_max s.cdpNodeId visits 0).2 x ((h.mem_visits x).2 hx)
    rw [← cdpMaxIdRec_eq] at hle
    exact Nat.lt_succ_of_le hle
  have hids : (miniDomAssignNodeIds s).2 =
      { s with cdpNodeId := (visits.foldl assignId (s.cdpNodeId, next)).1 } := by
    rw [miniDomAssignNodeIds, assignIdsRec_eq]
  obtain ⟨hdone, hall⟩ := hstart.foldl visits
  have hkept : ∀ x, s.cdpNodeId x ≠ 0 →
      (miniDomAssignNodeIds s).2.cdpNodeId x = s.cdpNodeId x := fun x hx => by
    rw [hids]
    exact foldl_assignId_kept visits hx
  rw [hids] at hkept ⊢
  have hne : ∀ x, Below s.heap.parentOf x s.root →
      (visits.foldl assignId (s.cdpNodeId, next)).1 x ≠ 0 :=
    fun x hx => hall x ((h.mem_visits x).2 hx)
  refine ⟨⟨h.wf, h.owned, h.rootLt, h.rootOrphan, fun x hx => ?_, hdone.distinct⟩, ?_, hkept⟩
  · have hx' : x ∉ visits := fun hmem =>
      Nat.not_lt.2 hx (h.lt_of_below ((h.mem_visits x).1 hmem))
    exact (foldl_assignId_of_not_mem hx').trans (h.fresh x hx)
  have hsame : ∀ x y, Below s.heap.parentOf x s.root → Below s.heap.parentOf y s.root →
      (visits.foldl assignId (s.cdpNodeId, next)).1 x =
        (visits.foldl assignId (s.cdpNodeId, next)).1 y → x = y :=
    fun x y hx hy heq => (hdone.distinct x y hx hy heq).resolve_left (hne x hx)
  simp only [IdsIdentify, reaches_iff h.wf h.owned]
  refine ⟨hne, hsame, fun x hx => ?_⟩
  rw [miniDomNodeById, findIdRec_eq]
  exact find?_unique ((h.mem_visits x).2 hx) fun y hy heq =>
    hsame y x ((h.mem_visits y).1 hy) hx heq

end TreeIds

/-! ## Runs -/

/-- One step of a program that works on the document. -/
inductive CdpStep where
  | createElement (tag : Option Bytes)
  | createText (data : Option Bytes)
  | createComment (data : Option Bytes)
  | createFragment
  | mutate (call : DomCall)
  | assign

/-- Run a step. -/
def CdpStep.exec (s : CdpState) : CdpStep → CdpState
  | .createElement tag => { s with heap := (miniNodeCreateElement s.heap tag).2 }
  | .createText data => { s with heap := (miniNodeCreateText s.heap data).2 }
  | .createComment data => { s with heap := (miniNodeCreateComment s.heap data).2 }
  | .createFragment => { s with heap := (miniNodeCreateDocumentFragment s.heap).2 }
  | .mutate call => { s with heap := (call.exec s.heap).2 }
  | .assign => (miniDomAssignNodeIds s).2

/-- Run a sequence of steps. -/
def cdpRun (s : CdpState) (steps : List CdpStep) : CdpState :=
  steps.foldl CdpStep.exec s

/-- A new document: `calloc` leaves every id zero. -/
def cdpStart : CdpState :=
  { heap := Html5.miniDocCreate.1, root := Html5.miniDocCreate.2.1, cdpNodeId := fun _ => 0 }

/-- `x` is in a subtree that the call hangs somewhere. -/
def Moved (s : CdpState) (call : DomCall) (x : NodeId) : Prop :=
  ∃ c ∈ (call.placement s.heap).placed, miniNodeContains s.heap c x = true

/-- `x` is in the tree and in no subtree that the call takes out. -/
def Stays (s : CdpState) (call : DomCall) (x : NodeId) : Prop :=
  miniNodeContains s.heap s.root x = true ∧
    ∀ o ∈ (call.placement s.heap).dropped, miniNodeContains s.heap o x = false

/-- What the call hangs into the tree brings no id that a node of the tree, or another
node it brings, has already. -/
def BringsNoUsedId (s : CdpState) (call : DomCall) : Prop :=
  ∀ p ∈ (call.placement s.heap).target, miniNodeContains s.heap s.root p = true →
    ∀ x < s.heap.size, ∀ y < s.heap.size, Moved s call x → Moved s call y ∨ Stays s call y →
      s.cdpNodeId x = s.cdpNodeId y → s.cdpNodeId x = 0 ∨ x = y

instance (s : CdpState) (call : DomCall) (x : NodeId) : Decidable (Moved s call x) :=
  inferInstanceAs (Decidable (∃ c ∈ (call.placement s.heap).placed, _))

instance (s : CdpState) (call : DomCall) (x : NodeId) : Decidable (Stays s call x) :=
  inferInstanceAs (Decidable (_ ∧ ∀ o ∈ (call.placement s.heap).dropped, _))

instance (s : CdpState) (call : DomCall) : Decidable (BringsNoUsedId s call) :=
  have (x : NodeId) : Decidable (∀ y < s.heap.size, Moved s call x →
      Moved s call y ∨ Stays s call y → s.cdpNodeId x = s.cdpNodeId y →
      s.cdpNodeId x = 0 ∨ x = y) := Nat.decidableBallLT _ _
  have : Decidable (∀ x < s.heap.size, ∀ y < s.heap.size, Moved s call x →
      Moved s call y ∨ Stays s call y → s.cdpNodeId x = s.cdpNodeId y →
      s.cdpNodeId x = 0 ∨ x = y) := Nat.decidableBallLT _ _
  inferInstanceAs (Decidable (∀ p ∈ (call.placement s.heap).target, _ → _))

/-- The condition on a step: a call keeps the tree well formed, leaves shadow roots and
the document root in place, and brings no id in use. -/
def stepSafe (s : CdpState) : CdpStep → Prop
  | .mutate call =>
      call.Existing s.heap ∧ callSafe s.heap call = true ∧ keepsShadow s.heap call = true ∧
        s.root ∉ (call.placement s.heap).placed ∧ BringsNoUsedId s call
  | _ => True

instance (s : CdpState) (step : CdpStep) : Decidable (stepSafe s step) :=
  match step with
  | .mutate call =>
    have : Decidable (call.Existing s.heap) :=
      inferInstanceAs (Decidable (∀ a ∈ call.args, ∀ i ∈ a, _))
    inferInstanceAs (Decidable (_ ∧ _ ∧ _ ∧ _ ∧ BringsNoUsedId s call))
  | .createElement _ | .createText _ | .createComment _ | .createFragment | .assign =>
    inferInstanceAs (Decidable True)

/-- Every step meets the condition where it is made. -/
def SafeSteps : CdpState → List CdpStep → Prop
  | _, [] => True
  | s, step :: rest => stepSafe s step ∧ SafeSteps (step.exec s) rest

namespace TreeIds

variable {s : CdpState}

/-- A fresh node joins no tree. -/
theorem alloc (h : TreeIds s) {m : MiniNode} (hm : m.bare = m) (hshadow : m.shadowRoot = none) :
    TreeIds { s with heap := s.heap.alloc m } := by
  have hnone : ∀ x, s.heap.size ≤ x → s.heap.parentOf x = none := fun x hx =>
    Option.eq_none_iff_forall_ne_some.2 fun p hp =>
      Nat.not_lt.2 hx (h.wf.mirrors.allocated x p hp).1
  have hparent : (s.heap.alloc m).parentOf = s.heap.parentOf := by
    funext x
    rw [NodeHeap.parentOf, NodeHeap.alloc_node]
    split_ifs with hx
    · rw [← hm, hnone x (Nat.le_of_eq hx.symm)]
      rfl
    · rfl
  refine ⟨(h.wf.mirrors.alloc hm).wellFormed ?_, fun p x hp => ?_, Nat.lt_succ_of_lt h.rootLt,
    ?_, fun x hx => h.fresh x (Nat.le_of_succ_le hx), ?_⟩
  · rw [hparent]
    exact h.wf.acyclic
  · rw [NodeHeap.alloc_node] at hp
    rw [hparent]
    split_ifs at hp with hnew
    · rw [hshadow] at hp
      cases hp
    · exact h.owned p x hp
  · rw [hparent]
    exact h.rootOrphan
  · simp only [hparent]
    exact h.distinct

/-- What is in the tree after a call is moved there or stays there. -/
theorem moved_or_stays (h : TreeIds s) {call : DomCall} (hex : call.Existing s.heap)
    (hok : callSafe s.heap call = true) {x : NodeId} (hlt : x < s.heap.size)
    (hx : Below (call.exec s.heap).2.parentOf x s.root) :
    (Moved s call x ∧
      ∃ p ∈ (call.placement s.heap).target, miniNodeContains s.heap s.root p = true) ∨
    Stays s call x := by
  rcases h.wf.below_exec hex hok h.rootOrphan hx with ⟨c, hc, hxc, p, hp, hpr⟩ | ⟨hxr, hkept⟩
  · refine .inl ⟨⟨c, hc, (h.wf.contains_iff hlt).2 hxc⟩, p, hp, ?_⟩
    exact (h.wf.contains_iff (h.lt_of_below hpr)).2 hpr
  · refine .inr ⟨(h.wf.contains_iff hlt).2 hxr, fun o ho => ?_⟩
    exact Bool.eq_false_iff.2 fun hc => hkept o ho ((h.wf.contains_iff hlt).1 hc)

/-- A call that brings no id in use keeps the ids of the tree distinct. -/
theorem mutate (h : TreeIds s) {call : DomCall} (hsafe : stepSafe s (.mutate call)) :
    TreeIds { s with heap := (call.exec s.heap).2 } := by
  obtain ⟨hex, hok, hkeep, hroot, hbrings⟩ := hsafe
  have hsize := DomCall.size_le_exec s.heap call
  refine ⟨h.wf.exec hex hok, h.owned.exec h.wf hex hok hkeep, Nat.lt_of_lt_of_le h.rootLt hsize,
    ?_, fun x hx => h.fresh x (hsize.trans hx), fun x y hx hy heq => ?_⟩
  · have hdrop : s.root ∉ (call.placement s.heap).dropped := fun hmem => by
      obtain ⟨p, hp⟩ := WellFormed.parent_of_dropped hmem
      rw [h.rootOrphan] at hp
      cases hp
    exact (h.wf.exec_parent hex hok _).trans
      ((if_neg hdrop).trans ((if_neg hroot).trans h.rootOrphan))
  · -- a node the call itself creates has no id
    by_cases hxlt : s.heap.size ≤ x
    · exact .inl (h.fresh x hxlt)
    by_cases hylt : s.heap.size ≤ y
    · exact .inl (heq.trans (h.fresh y hylt))
    have hxlt := Nat.lt_of_not_le hxlt
    have hylt := Nat.lt_of_not_le hylt
    rcases h.moved_or_stays hex hok hxlt hx with ⟨hxm, p, hp, hpr⟩ | hxs
    · have hym := (h.moved_or_stays hex hok hylt hy).imp_left And.left
      exact hbrings p hp hpr x hxlt y hylt hxm hym heq
    · rcases h.moved_or_stays hex hok hylt hy with ⟨hym, p, hp, hpr⟩ | hys
      · rcases hbrings p hp hpr y hylt x hxlt hym (.inr hxs) heq.symm with hzero | hyx
        · exact .inl (heq.trans hzero)
        · exact .inr hyx.symm
      · exact h.distinct x y ((h.wf.contains_iff hxlt).1 hxs.1) ((h.wf.contains_iff hylt).1 hys.1)
          heq

theorem step (h : TreeIds s) {step : CdpStep} (hsafe : stepSafe s step) :
    TreeIds (step.exec s) ∧
      ∀ x, s.cdpNodeId x ≠ 0 → (step.exec s).cdpNodeId x = s.cdpNodeId x := by
  cases step with
  | createElement tag => exact ⟨h.alloc rfl rfl, fun x _ => rfl⟩
  | createText data => exact ⟨h.alloc rfl rfl, fun x _ => rfl⟩
  | createComment data => exact ⟨h.alloc rfl rfl, fun x _ => rfl⟩
  | createFragment => exact ⟨h.alloc rfl rfl, fun x _ => rfl⟩
  | mutate call => exact ⟨h.mutate hsafe, fun x _ => rfl⟩
  | assign => exact ⟨h.assign.1, h.assign.2.2⟩

theorem run (h : TreeIds s) {steps : List CdpStep} (hsafe : SafeSteps s steps) :
    TreeIds (cdpRun s steps) ∧
      ∀ x, s.cdpNodeId x ≠ 0 → (cdpRun s steps).cdpNodeId x = s.cdpNodeId x := by
  induction steps generalizing s with
  | nil => exact ⟨h, fun x _ => rfl⟩
  | cons step steps ih =>
    obtain ⟨hstep, hkept⟩ := h.step hsafe.1
    obtain ⟨hrun, hkept'⟩ := ih hstep hsafe.2
    refine ⟨hrun, fun x hx => ?_⟩
    have hid := hkept x hx
    exact (hkept' x (hid ▸ hx)).trans hid

end TreeIds

theorem treeIds_cdpStart : TreeIds cdpStart := by
  have hlive := Html5.miniDocCreate_live.rooted
  have hshadow : ∀ p, (cdpStart.heap.node p).shadowRoot = none := fun p =>
    (shadowRoot_of_sameContent (.appendChild _ _ _) p).trans (by
      simp only [NodeHeap.alloc_node, NodeHeap.modify_node]
      split_ifs <;> rfl)
  refine ⟨hlive.wf, fun p s hs => ?_, hlive.root_lt, hlive.rootParent, fun x _ => rfl,
    fun x y _ _ _ => .inl rfl⟩
  rw [hshadow] at hs
  cases hs

theorem cdpRun_append (s : CdpState) (pre post : List CdpStep) :
    cdpRun s (pre ++ post) = cdpRun (cdpRun s pre) post :=
  List.foldl_append

theorem SafeSteps.append {s : CdpState} {pre post : List CdpStep}
    (h : SafeSteps s (pre ++ post)) : SafeSteps s pre ∧ SafeSteps (cdpRun s pre) post := by
  induction pre generalizing s with
  | nil => exact ⟨trivial, h⟩
  | cons step pre ih =>
    obtain ⟨hpre, hpost⟩ := ih h.2
    exact ⟨⟨h.1, hpre⟩, hpost⟩

/-- Along a run from a new document whose steps all meet the condition, every
assignment leaves ids that identify the nodes, and no id ever changes. -/
theorem idsIdentify_of_safeSteps {steps : List CdpStep} (hsafe : SafeSteps cdpStart steps) :
    (∀ pre, pre ++ [.assign] <+: steps → IdsIdentify (cdpRun cdpStart (pre ++ [.assign]))) ∧
    ∀ pre post, pre ++ post <+: steps → ∀ x, (cdpRun cdpStart pre).cdpNodeId x ≠ 0 →
      (cdpRun cdpStart (pre ++ post)).cdpNodeId x = (cdpRun cdpStart pre).cdpNodeId x := by
  refine ⟨fun pre hpre => ?_, fun pre post hpre => ?_⟩
  · obtain ⟨rest, rfl⟩ := hpre
    have hrun := (treeIds_cdpStart.run hsafe.append.1.append.1).1
    rw [cdpRun_append]
    exact hrun.assign.2.1
  · obtain ⟨rest, rfl⟩ := hpre
    obtain ⟨hfirst, hsecond⟩ := hsafe.append.1.append
    rw [cdpRun_append]
    exact ((treeIds_cdpStart.run hfirst).1.run hsecond).2

/-- A document whose body gets a child, loses it and gets it back. -/
def detachSteps : List CdpStep :=
  [.createElement (some (ascii "div")), .mutate (.appendChild (some 1) (some 2)), .assign,
    .mutate (.removeChild (some 1) (some 2)), .mutate (.appendChild (some 0) (some 2)), .assign]

theorem idsIdentify_of_safeSteps_detach :
    IdsIdentify (cdpRun cdpStart detachSteps) := by
  have hsafe : SafeSteps cdpStart detachSteps := by
    simp only [detachSteps, SafeSteps]
    decide
  exact (idsIdentify_of_safeSteps hsafe).1 (detachSteps.take 5) List.prefix_rfl

/-- The body (id 2) is taken out, a new node gets the next id of the tree, which is 2
again, and the body comes back. -/
theorem reinserted_id_collides :
    ¬ IdsIdentify (cdpRun cdpStart
      [.assign, .mutate (.removeChild (some 0) (some 1)), .createElement (some (ascii "div")),
        .mutate (.appendChild (some 0) (some 2)), .assign,
        .mutate (.appendChild (some 0) (some 1)), .assign]) := by
  intro h
  have hreach : ∀ c ∈ [1, 2], Reaches (cdpRun cdpStart
      [.assign, .mutate (.removeChild (some 0) (some 1)), .createElement (some (ascii "div")),
        .mutate (.appendChild (some 0) (some 2)), .assign,
        .mutate (.appendChild (some 0) (some 1)), .assign]).heap 0 c := by
    intro c hc
    refine .single (.inl ?_)
    revert c
    decide
  exact absurd (h.2.1 1 2 (hreach 1 (by simp)) (hreach 2 (by simp)) (by decide)) (by decide)

end TinyFramework.Cdp
