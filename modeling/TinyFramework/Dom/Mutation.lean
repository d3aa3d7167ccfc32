/-
  Dom/Mutation.lean --- what a sequence of mutator calls does to the tree.

  A heap is well formed when its pointers mirror the child lists they spell out
  and no node is its own ancestor.  The mutators do not look for an ancestor, a
  foreign reference node or a shadow root among their arguments; `callSafe` is
  the condition on the arguments and the heap before the call under which they
  need not, and along every run of such calls each call keeps the forest and
  detaches nothing but what it names.
-/
import TinyFramework.Dom.Tree

set_option autoImplicit false

namespace TinyFramework.Dom

open TinyFramework.Foundation

/-! ## Well-formed heaps -/

/-- The pointers mirror each other and no node is its own ancestor. -/
structure WellFormed (d : NodeHeap) : Prop where
  mirrors : Mirrors d (children d)
  acyclic : Acyclic d.parentOf

theorem Mirrors.wellFormed {d : NodeHeap} {kids : NodeId → List NodeId} (h : Mirrors d kids)
    (hac : Acyclic d.parentOf) : WellFormed d :=
  ⟨h.children_eq.symm ▸ h, hac⟩

theorem miniNodeContains_loop (d : NodeHeap) (root : NodeId) (fuel : Nat) (x : NodeId) :
    miniNodeContains.loop d root fuel (some x) = true ↔
      root ∈ ancestors d.parentOf fuel x := by
  induction fuel generalizing x with
  | zero =>
    simp only [miniNodeContains.loop, ancestors, beq_iff_eq, List.mem_singleton]
    exact eq_comm
  | succ n ih =>
    simp only [miniNodeContains.loop, ancestors, NodeHeap.parentOf, Bool.or_eq_true, beq_iff_eq,
      List.mem_cons, eq_comm (a := x)]
    cases hp : (d.node x).parent with
    | none => simp [miniNodeContains.loop]
    | some q => exact or_congr_right (ih q)

/-- `mini_node_contains` decides the ancestor relation of a well-formed heap. -/
theorem WellFormed.contains_iff {d : NodeHeap} (h : WellFormed d) {root x : NodeId}
    (hx : x < d.size) : miniNodeContains d root x = true ↔ Below d.parentOf x root := by
  rw [miniNodeContains, miniNodeContains_loop]
  exact h.acyclic.mem_ancestors_iff hx fun y p hp => (h.mirrors.allocated y p hp).2

/-! ## Moving the children of a fragment -/

/-- Read the heap in the middle of the fragment loop as a tree: the fragment owns
the children `rest` that are still to be moved. -/
def healed (d : NodeHeap) (frag : NodeId) (rest : List NodeId) : NodeHeap :=
  let d := d.setLastChild frag rest.getLast?
  let d := d.setFirstChild frag rest.head?
  match rest with
  | [] => d
  | c :: _ => d.setPrevSibling c none

theorem MiniNode.ext_fields {m n : MiniNode} (hparent : m.parent = n.parent)
    (hnext : m.nextSibling = n.nextSibling) (hprev : m.prevSibling = n.prevSibling)
    (hfirst : m.firstChild = n.firstChild) (hlast : m.lastChild = n.lastChild)
    (hbare : m.bare = n.bare) : m = n := by
  cases m
  cases n
  simp only [MiniNode.bare, MiniNode.mk.injEq] at *
  tauto

theorem NodeHeap.ext_fields {d d' : NodeHeap} (hsize : d.size = d'.size)
    (hnode : ∀ x, (d.node x).parent = (d'.node x).parent ∧
      (d.node x).nextSibling = (d'.node x).nextSibling ∧
      (d.node x).prevSibling = (d'.node x).prevSibling ∧
      (d.node x).firstChild = (d'.node x).firstChild ∧
      (d.node x).lastChild = (d'.node x).lastChild ∧
      (d.node x).bare = (d'.node x).bare) : d = d' := by
  obtain ⟨n, f⟩ := d
  obtain ⟨n', f'⟩ := d'
  obtain rfl : n = n' := hsize
  congr 1
  funext x
  obtain ⟨h₁, h₂, h₃, h₄, h₅, h₆⟩ := hnode x
  exact MiniNode.ext_fields h₁ h₂ h₃ h₄ h₅ h₆

@[simp] theorem healed_size (d : NodeHeap) (frag : NodeId) (rest : List NodeId) :
    (healed d frag rest).size = d.size := by
  cases rest <;> rfl

theorem healed_node (d : NodeHeap) (frag x : NodeId) (rest : List NodeId) :
    ((healed d frag rest).node x).parent = (d.node x).parent ∧
    ((healed d frag rest).node x).nextSibling = (d.node x).nextSibling ∧
    ((healed d frag rest).node x).prevSibling =
      (if rest.head? = some x then none else (d.node x).prevSibling) ∧
    ((healed d frag rest).node x).firstChild =
      (if x = frag then rest.head? else (d.node x).firstChild) ∧
    ((healed d frag rest).node x).lastChild =
      (if x = frag then rest.getLast? else (d.node x).lastChild) ∧
    ((healed d frag rest).node x).bare = (d.node x).bare := by
  cases rest <;>
    simp [healed, NodeHeap.setFirstChild, NodeHeap.setLastChild, NodeHeap.setPrevSibling,
      field_modify, MiniNode.bare, eq_comm]

/-- One round of the loop, read as a tree, is a removal and an append. -/
theorem healed_linkLast {d : NodeHeap} {frag p c : NodeId} {rest : List NodeId}
    (hnext : (d.node c).nextSibling = rest.head?) (hp : p ≠ frag) (hcf : c ≠ frag)
    (hc : c ∉ rest) :
    healed (linkLast d p c) frag rest =
      linkLast (unlink (healed d frag (c :: rest)) frag c) p c := by
  have hch : rest.head? ≠ some c := fun hh => hc (List.mem_of_head? hh)
  have hlast : rest.head? ≠ none → (c :: rest).getLast? = rest.getLast? := by
    cases rest <;> simp
  refine NodeHeap.ext_fields (by simp) fun x => ?_
  simp only [healed_node, linkLast_node, unlink_node, hnext, List.head?_cons]
  by_cases hx : x = c
  · subst hx
    simp [hch, hcf, hp]
  · by_cases hf : x = frag
    · subst hf
      cases hr : rest.head? with
      | none =>
        obtain rfl : rest = [] := by simpa using hr
        simp [hx, hp, Ne.symm hx, Ne.symm hp]
      | some b => simp [hx, hp, Ne.symm hx, Ne.symm hp, hlast, hr]
    · simp [hx, hf, Ne.symm hx, hp]

/-- The whole loop: the rest of the fragment's children end up behind those of
`p`. -/
theorem Mirrors.moveChildren {p frag : NodeId} (hp : p ≠ frag) {rest : List NodeId}
    {fuel : Nat} {d : NodeHeap} {kids : NodeId → List NodeId} (hfuel : rest.length ≤ fuel)
    (hplt : p < d.size) (hfrag : frag ∉ rest) (hk : kids frag = rest)
    (h : Mirrors (healed d frag rest) kids) :
    Mirrors (healed (Dom.moveChildren fuel d p rest.head?) frag [])
      (Function.update (Function.update kids frag []) p (kids p ++ rest)) ∧
    ∀ x, ((Dom.moveChildren fuel d p rest.head?).node x).parent =
      if x ∈ rest then some p else (d.node x).parent := by
  induction rest generalizing fuel d kids with
  | nil =>
    have hsame : Function.update (Function.update kids frag []) p (kids p ++ []) = kids := by
      rw [← hk, Function.update_eq_self, hk, List.append_nil, Function.update_eq_self]
    rw [hsame]
    cases fuel <;> exact ⟨h, fun x => rfl⟩
  | cons c rest ih =>
    obtain _ | fuel := fuel
    · simp at hfuel
    have hcrest : c ∉ rest := (List.nodup_cons.1 (hk ▸ h.nodup frag)).1
    have hcf : c ≠ frag := fun hcf => hfrag (by simp [hcf])
    have hnext : (d.node c).nextSibling = rest.head? := by
      rw [← (healed_node d frag c (c :: rest)).2.1]
      exact h.next_eq (l := []) hk
    have hun := h.unlink_listed (l := []) hk
    rw [List.nil_append] at hun
    have hfree : ∀ q, c ∉ Function.update kids frag rest q := by
      intro q hmem
      by_cases hq : q = frag
      · rw [hq, Function.update_self] at hmem
        exact hcrest hmem
      · rw [Function.update_of_ne hq] at hmem
        exact hq (h.unique hmem (by simp [hk]))
    have hstep := hun.link (p := p) (r := []) (by simp) hfree
      (by simpa using h.child_lt (p := frag) (by simp [hk])) (by simpa)
      (hun.linksBetween_linkLast (hfree p))
    rw [← healed_linkLast hnext hp hcf hcrest] at hstep
    rw [List.head?_cons, Dom.moveChildren, hnext]
    have hkfrag : Function.update (Function.update kids frag rest) p
        (Function.update kids frag rest p ++ [c]) frag = rest := by
      rw [Function.update_of_ne (Ne.symm hp), Function.update_self]
    obtain ⟨hdone, hparent⟩ := ih (by simpa using hfuel) (by simpa)
      (fun hmem => hfrag (by simp [hmem])) hkfrag hstep
    constructor
    · convert hdone using 1
      funext q
      by_cases hqp : q = p
      · subst hqp
        simp [hp]
      · by_cases hqf : q = frag
        · simp [hqf, Ne.symm hp]
        · simp [hqp, hqf]
    · intro x
      rw [hparent x, (linkLast_node d p c x).1]
      by_cases hx : x = c <;> simp [hx]

/-- Before the loop nothing needs healing. -/
theorem Mirrors.healed_eq {d : NodeHeap} {kids : NodeId → List NodeId} (h : Mirrors d kids)
    (frag : NodeId) : healed d frag (kids frag) = d := by
  refine NodeHeap.ext_fields (by simp) fun x => ?_
  simp only [healed_node]
  refine ⟨trivial, trivial, ?_, ?_, ?_, trivial⟩
  · split_ifs with hx
    · obtain ⟨r, hr⟩ := List.head?_eq_some_iff.1 hx
      exact (h.prev_eq (l := []) hr).symm
    · rfl
  · split_ifs with hx
    · rw [hx, h.first]
    · rfl
  · split_ifs with hx
    · rw [hx, h.last]
    · rfl

/-- The fragment path of `mini_node_append_child`. -/
theorem Mirrors.appendFragment {d : NodeHeap} {kids : NodeId → List NodeId}
    (h : Mirrors d kids) {p frag : NodeId} (hp : p < d.size) (hne : p ≠ frag)
    (hself : frag ∉ kids frag) (hfrag : (d.node frag).type = .documentFragmentNode) :
    Mirrors (miniNodeAppendChild d (some p) (some frag)).2
      (Function.update (Function.update kids frag []) p (kids p ++ kids frag)) ∧
    ∀ x, ((miniNodeAppendChild d (some p) (some frag)).2.node x).parent =
      if x ∈ kids frag then some p else (d.node x).parent := by
  have hmoved := Mirrors.moveChildren hne (h.length_le frag) hp hself rfl
    ((h.healed_eq frag).symm ▸ h)
  rw [← h.first] at hmoved
  simp only [miniNodeAppendChild, hfrag, Ne.symm hne, ne_eq, not_false_eq_true, and_self,
    if_true]
  refine ⟨hmoved.1, fun x => ?_⟩
  rw [← hmoved.2 x]
  exact (healed_node _ frag x []).1

/-! ## The calls -/

/-- A call of one of the five mutators. -/
inductive DomCall where
  | appendChild (parent child : Option NodeId)
  | insertBefore (parent newChild ref : Option NodeId)
  | removeChild (parent child : Option NodeId)
  | replaceChild (parent newChild oldChild : Option NodeId)
  | attachShadow (host : Option NodeId)
  deriving DecidableEq, Repr

/-- What a call returns: a code, or the shadow root. -/
inductive CallResult where
  | code (rc : Int)
  | root (node : Option NodeId)
  deriving DecidableEq, Repr

/-- A negative code or a NULL root. -/
def CallResult.isError : CallResult → Bool
  | .code rc => rc < 0
  | .root node => node.isNone

namespace DomCall

/-- Run a call. -/
def exec (d : NodeHeap) : DomCall → CallResult × NodeHeap
  | appendChild p c => (miniNodeAppendChild d p c).map .code id
  | insertBefore p c r => (miniNodeInsertBefore d p c r).map .code id
  | removeChild p c => (miniNodeRemoveChild d p c).map .code id
  | replaceChild p c o => (miniNodeReplaceChild d p c o).map .code id
  | attachShadow h => (miniNodeAttachShadow d h).map .root id

/-- The pointer arguments. -/
def args : DomCall → List (Option NodeId)
  | appendChild p c => [p, c]
  | insertBefore p c r => [p, c, r]
  | removeChild p c => [p, c]
  | replaceChild p c o => [p, c, o]
  | attachShadow h => [h]

/-- Every argument is NULL or an existing node. -/
def Existing (d : NodeHeap) (call : DomCall) : Prop :=
  ∀ a ∈ call.args, ∀ i ∈ a, i < d.size

/-- The nodes a call may take from their parents: its child arguments, and for an
appended fragment its children, which the call moves. -/
def Names (d : NodeHeap) : DomCall → NodeId → Prop
  | appendChild _ c, x => c = some x ∨
      ∃ f ∈ c, (d.node f).type = .documentFragmentNode ∧ x ∈ children d f
  | insertBefore _ c none, x => c = some x ∨
      ∃ f ∈ c, (d.node f).type = .documentFragmentNode ∧ x ∈ children d f
  | insertBefore _ c (some _), x => c = some x
  | removeChild _ c, x => c = some x
  | replaceChild _ c o, x => c = some x ∨ o = some x
  | attachShadow _, _ => False

/-- The promise about one call: it fails and changes nothing, or it leaves a
well-formed forest and every node it does not name where it was. -/
def Contract (d : NodeHeap) (call : DomCall) : Prop :=
  ((call.exec d).1.isError = true ∧ (call.exec d).2 = d) ∨
    (WellFormed (call.exec d).2 ∧
      ∀ x p, ¬ call.Names d x → (d.node x).parent = some p →
        ((call.exec d).2.node x).parent = some p ∧
          (x ∈ children d p → x ∈ children (call.exec d).2 p))

end DomCall

/-- `c` is listed by its parent, or its parent lists nothing. -/
def removable (d : NodeHeap) (c : NodeId) : Bool :=
  match (d.node c).parent with
  | none => true
  | some q => c ∈ children d q || children d q = []

/-- Appending makes no cycle: neither the child, nor for a fragment any of its
children, is the parent or an ancestor of it. -/
def appendSafe (d : NodeHeap) (p c : NodeId) : Bool :=
  if (d.node c).type = .documentFragmentNode ∧ c ≠ p then
    (children d c).all fun k => !miniNodeContains d k p
  else !miniNodeContains d c p

/-- Linking before `ref` makes no cycle, `ref` is another child of the parent,
and the new child is not the shadow root of a host with children. -/
def insertSafe (d : NodeHeap) (p c ref : NodeId) : Bool :=
  !miniNodeContains d c p && ref != c && ref ∈ children d p && removable d c

/-- The condition on a call and the heap before it. -/
def callSafe (d : NodeHeap) : DomCall → Bool
  | .appendChild (some p) (some c) => appendSafe d p c
  | .insertBefore (some p) (some c) none => appendSafe d p c
  | .insertBefore (some p) (some c) (some ref) => insertSafe d p c ref
  | .removeChild (some p) (some c) => (d.node c).parent ≠ some p || removable d c
  | .replaceChild (some p) (some c) (some o) =>
      (d.node o).parent ≠ some p || insertSafe d p c o
  | _ => true

/-- The heap after a sequence of calls. -/
def domRun (d : NodeHeap) (calls : List DomCall) : NodeHeap :=
  calls.foldl (fun d call => (call.exec d).2) d

/-- Every call of the sequence is made on existing nodes and is safe where it is
made. -/
def SafeRun : NodeHeap → List DomCall → Prop
  | _, [] => True
  | d, call :: rest => call.Existing d ∧ callSafe d call = true ∧ SafeRun (call.exec d).2 rest

/-! ## One call -/

namespace WellFormed

variable {d : NodeHeap}

theorem not_contains (h : WellFormed d) {c p : NodeId} (hp : p < d.size)
    (hc : miniNodeContains d c p = false) : ¬ Below d.parentOf p c := by
  rw [← h.contains_iff hp, hc]
  simp

theorem not_self_child (h : WellFormed d) (c : NodeId) : c ∉ children d c := fun hmem =>
  h.acyclic.not_below_of_parent (h.mirrors.parent c c hmem) (Below.refl c)

theorem removable_iff {c : NodeId} :
    removable d c = true ↔ Mirrors.Removable d (children d) c := by
  unfold removable Mirrors.Removable
  cases hp : (d.node c).parent with
  | none => simp
  | some q => simp

/-- A call that reparents the nodes of `S` under `p` keeps its promise. -/
theorem contract_of_reparent (h : WellFormed d) {call : DomCall}
    {kids : NodeId → List NodeId} (S : NodeId → Prop) (p : NodeId)
    (hm : Mirrors (call.exec d).2 kids)
    (hS : ∀ s, S s → ¬ Below d.parentOf p s)
    (hedge : ∀ s q, ((call.exec d).2.node s).parent = some q →
      (d.node s).parent = some q ∨ (S s ∧ q = p))
    (hframe : ∀ x q, ¬ call.Names d x → (d.node x).parent = some q →
      ((call.exec d).2.node x).parent = some q ∧ (x ∈ children d q → x ∈ kids q)) :
    call.Contract d := by
  refine .inr ⟨hm.wellFormed (h.acyclic.reparent hedge hS), fun x q hx hq => ?_⟩
  rw [hm.children_eq]
  exact hframe x q hx hq

/-- Linking `c` somewhere under `p` after taking it from its parent: the parts
every such call shares. -/
theorem contract_of_link (h : WellFormed d) {call : DomCall} {p c : NodeId}
    {kids : NodeId → List NodeId} (hm : Mirrors (call.exec d).2 kids)
    (hnot : ¬ Below d.parentOf p c) (hname : call.Names d c)
    (hparent : ∀ x, ((call.exec d).2.node x).parent =
      if x = c then some p else (d.node x).parent)
    (hkids : ∀ x q, x ≠ c → x ∈ children d q → x ∈ kids q) : call.Contract d := by
  refine h.contract_of_reparent (S := (· = c)) p hm (by rintro s rfl; exact hnot) ?_ ?_
  · intro s q hs
    rw [hparent] at hs
    split_ifs at hs with hsc
    · exact .inr ⟨hsc, (Option.some.inj hs).symm⟩
    · exact .inl hs
  · intro x q hx hq
    have hxc : x ≠ c := fun hxc => hx (hxc ▸ hname)
    rw [hparent, if_neg hxc]
    exact ⟨hq, hkids x q hxc⟩

theorem mem_dropKid (x q c : NodeId) (hxc : x ≠ c) (hx : x ∈ children d q) :
    x ∈ dropKid (children d) c q :=
  (List.mem_erase_of_ne hxc).2 hx

theorem contract_append (h : WellFormed d) {p c : NodeId} (hp : p < d.size) (hc : c < d.size)
    (hsafe : appendSafe d p c = true) {call : DomCall}
    (hexec : (call.exec d).2 = (miniNodeAppendChild d (some p) (some c)).2)
    (hnames : ∀ x, call.Names d x ↔
      x = c ∨ ((d.node c).type = .documentFragmentNode ∧ x ∈ children d c)) :
    call.Contract d := by
  unfold appendSafe at hsafe
  split_ifs at hsafe with hfrag
  · obtain ⟨htype, hne⟩ := hfrag
    obtain ⟨hm, hparent⟩ :=
      h.mirrors.appendFragment hp (Ne.symm hne) (h.not_self_child c) htype
    rw [← hexec] at hm hparent
    refine h.contract_of_reparent (S := (· ∈ children d c)) p hm ?_ ?_ ?_
    · intro s hs
      have hsafe := List.all_eq_true.1 hsafe s hs
      exact h.not_contains hp (by simpa using hsafe)
    · intro s q hs
      rw [hparent] at hs
      split_ifs at hs with hsc
      · exact .inr ⟨hsc, (Option.some.inj hs).symm⟩
      · exact .inl hs
    · intro x q hx hq
      rw [hnames, not_or, not_and] at hx
      have hxc := hx.2 htype
      rw [hparent, if_neg hxc]
      refine ⟨hq, fun hmem => ?_⟩
      have hqc : q ≠ c := fun hqc => hxc (hqc ▸ hmem)
      by_cases hqp : q = p
      · subst hqp
        simp [hmem]
      · simpa [hqp, hqc] using hmem
  · -- a shadow root is a fragment, so the plain path never meets one but as its own parent
    have hnot := h.not_contains hp (by simpa using hsafe)
    have hcp : c ≠ p := fun hcp => hnot (hcp ▸ Below.refl c)
    have htype : (d.node c).type ≠ .documentFragmentNode := fun ht => hfrag ⟨ht, hcp⟩
    have hm := h.mirrors.appendPlain (h.mirrors.removable_of_type htype) hc hp
    have hrun : (call.exec d).2 = linkLast (removeFromParent d c) p c := by
      rw [hexec, miniNodeAppendChild, if_neg hfrag]
    rw [← hrun] at hm
    refine h.contract_of_link hm hnot ((hnames c).2 (.inl rfl)) (fun x => ?_) ?_
    · rw [hrun, (linkLast_node _ p c x).1, (removeFromParent_node d c x).1]
      split_ifs <;> rfl
    · intro x q hxc hx
      have hx' := mem_dropKid x q c hxc hx
      by_cases hqp : q = p
      · subst hqp
        simp [addKid, hx']
      · simpa [addKid, hqp] using hx'

theorem contract_insert (h : WellFormed d) {p c ref : NodeId} (hp : p < d.size)
    (hc : c < d.size) (hsafe : insertSafe d p c ref = true) :
    (DomCall.insertBefore (some p) (some c) (some ref)).Contract d := by
  simp only [insertSafe, Bool.and_eq_true, Bool.not_eq_true', bne_iff_ne, decide_eq_true_eq] at hsafe
  obtain ⟨⟨⟨hcont, hrc⟩, hmem⟩, hrem⟩ := hsafe
  obtain ⟨l, r, hk⟩ := List.append_of_mem (mem_dropKid ref p c hrc hmem)
  have hm := h.mirrors.insertPlain (removable_iff.1 hrem) hc hk
  refine h.contract_of_link (p := p) (c := c) hm (h.not_contains hp hcont) rfl (fun x => ?_) ?_
  · change ((linkBefore (removeFromParent d c) p c ref).node x).parent = _
    rw [(linkBefore_node _ p c ref x).1, (removeFromParent_node d c x).1]
    split_ifs <;> rfl
  · intro x q hxc hx
    have hx' := mem_dropKid x q c hxc hx
    by_cases hqp : q = p
    · subst hqp
      rw [hk] at hx'
      rw [Function.update_self]
      simp only [List.mem_append, List.mem_cons] at hx' ⊢
      tauto
    · rwa [Function.update_of_ne hqp]

theorem contract_remove (h : WellFormed d) {p c : NodeId}
    (hsafe : (d.node c).parent ≠ some p ∨ removable d c = true) :
    (DomCall.removeChild (some p) (some c)).Contract d := by
  by_cases hp : (d.node c).parent = some p
  · have hrem := removable_iff.1 (hsafe.resolve_left (not_not.2 hp))
    have hrun : ((DomCall.removeChild (some p) (some c)).exec d).2 = unlink d p c := by
      simp [DomCall.exec, miniNodeRemoveChild, hp]
    have hm := h.mirrors.unlink hp hrem
    rw [← hrun] at hm
    refine h.contract_of_reparent (S := fun _ => False) p hm (fun s hs => hs.elim) ?_ ?_
    · intro s q hs
      rw [hrun, (unlink_node d p c s).1] at hs
      split_ifs at hs with hsc
      exact .inl hs
    · intro x q hx hq
      have hxc : x ≠ c := fun hxc => hx (by simp [DomCall.Names, hxc])
      rw [hrun, (unlink_node d p c x).1, if_neg hxc]
      exact ⟨hq, mem_dropKid x q c hxc⟩
  · left
    simp [DomCall.exec, miniNodeRemoveChild, hp, CallResult.isError]

theorem contract_replace (h : WellFormed d) {p c o : NodeId} (hp : p < d.size)
    (hc : c < d.size) (hsafe : (d.node o).parent ≠ some p ∨ insertSafe d p c o = true) :
    (DomCall.replaceChild (some p) (some c) (some o)).Contract d := by
  by_cases ho : (d.node o).parent = some p
  · have hins := hsafe.resolve_left (not_not.2 ho)
    simp only [insertSafe, Bool.and_eq_true, Bool.not_eq_true', bne_iff_ne,
      decide_eq_true_eq] at hins
    obtain ⟨⟨⟨hcont, hoc⟩, hmem⟩, hrem⟩ := hins
    obtain ⟨l, r, hk⟩ := List.append_of_mem (mem_dropKid o p c hoc hmem)
    have hm₁ := h.mirrors.insertPlain (removable_iff.1 hrem) hc hk
    have hparent₁ : ∀ x, ((linkBefore (removeFromParent d c) p c o).node x).parent =
        if x = c then some p else (d.node x).parent := by
      intro x
      rw [(linkBefore_node _ p c o x).1, (removeFromParent_node d c x).1]
      split_ifs <;> rfl
    have hrun : ((DomCall.replaceChild (some p) (some c) (some o)).exec d).2 =
        unlink (linkBefore (removeFromParent d c) p c o) p o := by
      have ho₁ := hparent₁ o
      rw [if_neg hoc, ho] at ho₁
      simp [DomCall.exec, miniNodeReplaceChild, ho, miniNodeInsertBefore, miniNodeRemoveChild,
        ho₁]
    have hm := hm₁.unlink_listed (p := p) (c := o) (l := l ++ [c]) (r := r) (by simp)
    rw [← hrun] at hm
    have hparent : ∀ x, (((DomCall.replaceChild (some p) (some c) (some o)).exec d).2.node x).parent
        = if x = o then none else if x = c then some p else (d.node x).parent := by
      intro x
      rw [hrun, (unlink_node _ p o x).1, hparent₁]
    refine h.contract_of_reparent (S := (· = c)) p hm
      (by rintro s rfl; exact h.not_contains hp hcont) ?_ ?_
    · intro s q hs
      rw [hparent] at hs
      split_ifs at hs with hso hsc
      · exact .inr ⟨hsc, (Option.some.inj hs).symm⟩
      · exact .inl hs
    · intro x q hx hq
      simp only [DomCall.Names, Option.some.injEq, not_or] at hx
      have hxc : x ≠ c := fun hxc => hx.1 hxc.symm
      have hxo : x ≠ o := fun hxo => hx.2 hxo.symm
      rw [hparent, if_neg hxo, if_neg hxc]
      refine ⟨hq, fun hmem' => ?_⟩
      have hx' := mem_dropKid x q c hxc hmem'
      by_cases hqp : q = p
      · subst hqp
        rw [hk] at hx'
        simp only [Function.update_self, List.mem_append, List.mem_cons] at hx' ⊢
        tauto
      · simpa [hqp] using hx'
  · left
    simp [DomCall.exec, miniNodeReplaceChild, ho, CallResult.isError]

theorem attachShadow_node {host : NodeId} (hnone : (d.node host).shadowRoot = none)
    (x : NodeId) :
    let d₁ := d.alloc { type := .documentFragmentNode }
    let d' := (miniNodeAttachShadow d (some host)).2
    (d'.node x).parent = (if x = d.size then some host else (d₁.node x).parent) ∧
    (d'.node x).nextSibling = (d₁.node x).nextSibling ∧
    (d'.node x).prevSibling = (d₁.node x).prevSibling ∧
    (d'.node x).firstChild = (d₁.node x).firstChild ∧
    (d'.node x).lastChild = (d₁.node x).lastChild ∧
    (d'.node x).type = (d₁.node x).type ∧
    (d'.node x).shadowRoot = (if x = host then some d.size else (d₁.node x).shadowRoot) := by
  simp [miniNodeAttachShadow, hnone, miniNodeCreateDocumentFragment, NodeHeap.setTag,
    NodeHeap.setShadowRoot, NodeHeap.setParent, field_modify]

/-- A fresh shadow root hangs under its host outside every child list. -/
theorem mirrors_attachShadow (h : WellFormed d) {host : NodeId} (hhost : host < d.size)
    (hnone : (d.node host).shadowRoot = none) :
    Mirrors (miniNodeAttachShadow d (some host)).2 (children d) ∧
    ∀ x, ((miniNodeAttachShadow d (some host)).2.node x).parent =
      if x = d.size then some host else (d.node x).parent := by
  have hm := h.mirrors.alloc (n := { type := .documentFragmentNode }) rfl
  have hne : host ≠ d.size := Nat.ne_of_lt hhost
  have hroot : (d.node d.size).parent = none :=
    Option.eq_none_iff_forall_ne_some.2 fun q hq =>
      Nat.lt_irrefl _ (h.mirrors.allocated _ _ hq).1
  have hnode := attachShadow_node hnone
  have hparent : ∀ x, ((miniNodeAttachShadow d (some host)).2.node x).parent =
      if x = d.size then some host else (d.node x).parent := by
    intro x
    rw [(hnode x).1, NodeHeap.alloc_node]
    split_ifs <;> rfl
  refine ⟨?_, hparent⟩
  constructor
  case first =>
    intro q
    rw [(hnode q).2.2.2.1, hm.first]
  case last =>
    intro q
    rw [(hnode q).2.2.2.2.1, hm.last]
  case next =>
    intro x y
    rw [(hnode x).2.1, hm.next]
  case prev =>
    intro x y
    rw [(hnode y).2.2.1, hm.prev]
  case parent =>
    intro q x hx
    rw [hparent, if_neg (Nat.ne_of_lt (h.mirrors.child_lt hx))]
    exact h.mirrors.parent q x hx
  case nodup => exact h.mirrors.nodup
  case listed =>
    intro x q hx
    rw [(hnode x).2.2.2.2.2.1, (hnode q).2.2.2.2.2.2]
    rw [hparent] at hx
    split_ifs at hx with hxs
    · cases hx
      right
      simp [NodeHeap.alloc_node, hxs]
    · refine (h.mirrors.listed x q hx).imp_right fun ⟨hshadow, htype⟩ => ?_
      -- the host had no shadow root, so `q` is another node
      have hq : q ≠ host := fun hq => by simp [hq, hnone] at hshadow
      have hqs : q ≠ d.size := Nat.ne_of_lt (h.mirrors.allocated x q hx).2
      simp [NodeHeap.alloc_node, hxs, hq, hqs, hshadow, htype]
  case allocated =>
    intro x q hx
    have hsize : (miniNodeAttachShadow d (some host)).2.size = d.size + 1 := by
      simp [miniNodeAttachShadow, hnone, miniNodeCreateDocumentFragment, NodeHeap.setTag,
        NodeHeap.setShadowRoot, NodeHeap.setParent]
    rw [hparent] at hx
    rw [hsize]
    split_ifs at hx with hxs
    · cases hx
      exact ⟨hxs ▸ Nat.lt_succ_self _, Nat.lt_succ_of_lt hhost⟩
    · obtain ⟨hxlt, hqlt⟩ := h.mirrors.allocated x q hx
      exact ⟨Nat.lt_succ_of_lt hxlt, Nat.lt_succ_of_lt hqlt⟩

theorem contract_attachShadow (h : WellFormed d) {host : NodeId} (hhost : host < d.size) :
    (DomCall.attachShadow (some host)).Contract d := by
  cases hs : (d.node host).shadowRoot with
  | some root =>
    have hrun : ((DomCall.attachShadow (some host)).exec d).2 = d := by
      simp [DomCall.exec, miniNodeAttachShadow, hs]
    right
    rw [hrun]
    exact ⟨h, fun x p _ hx => ⟨hx, id⟩⟩
  | none =>
    obtain ⟨hm, hparent⟩ := h.mirrors_attachShadow hhost hs
    have hfresh : ¬ Below d.parentOf host d.size := by
      intro hbelow
      rcases Relation.ReflTransGen.cases_tail hbelow with heq | ⟨q, -, hq⟩
      · exact Nat.ne_of_lt hhost heq.symm
      · exact Nat.lt_irrefl _ (h.mirrors.allocated q _ hq).2
    refine h.contract_of_reparent (S := (· = d.size)) host hm (by rintro s rfl; exact hfresh) ?_ ?_
    · intro s q hsq
      change ((miniNodeAttachShadow d (some host)).2.node s).parent = some q at hsq
      rw [hparent] at hsq
      split_ifs at hsq with hss
      · exact .inr ⟨hss, (Option.some.inj hsq).symm⟩
      · exact .inl hsq
    · intro x q _ hq
      refine ⟨?_, id⟩
      change ((miniNodeAttachShadow d (some host)).2.node x).parent = some q
      rw [hparent, if_neg (Nat.ne_of_lt (h.mirrors.allocated x q hq).1)]
      exact hq

/-- A safe call keeps its promise. -/
theorem contract (h : WellFormed d) {call : DomCall} (hex : call.Existing d)
    (hsafe : callSafe d call = true) : call.Contract d := by
  have hlt : ∀ {i}, some i ∈ call.args → i < d.size := fun hi => hex _ hi _ rfl
  match call with
  | .appendChild (some p) (some c) =>
    exact h.contract_append (hlt (by simp [DomCall.args])) (hlt (by simp [DomCall.args])) hsafe
      rfl (fun x => by simp [DomCall.Names, eq_comm])
  | .insertBefore (some p) (some c) none =>
    exact h.contract_append (hlt (by simp [DomCall.args])) (hlt (by simp [DomCall.args])) hsafe
      rfl (fun x => by simp [DomCall.Names, eq_comm])
  | .insertBefore (some p) (some c) (some ref) =>
    exact h.contract_insert (hlt (by simp [DomCall.args])) (hlt (by simp [DomCall.args])) hsafe
  | .removeChild (some p) (some c) =>
    exact h.contract_remove (by simpa [callSafe] using hsafe)
  | .replaceChild (some p) (some c) (some o) =>
    exact h.contract_replace (hlt (by simp [DomCall.args])) (hlt (by simp [DomCall.args]))
      (by simpa [callSafe] using hsafe)
  | .attachShadow (some host) =>
    exact h.contract_attachShadow (hlt (by simp [DomCall.args]))
  -- a NULL argument is refused
  | .appendChild none _ | .appendChild (some _) none => exact .inl ⟨rfl, rfl⟩
  | .insertBefore none _ _ | .insertBefore (some _) none _ => exact .inl ⟨rfl, rfl⟩
  | .removeChild none _ | .removeChild (some _) none => exact .inl ⟨rfl, rfl⟩
  | .replaceChild none _ _ | .replaceChild (some _) none _
  | .replaceChild (some _) (some _) none => exact .inl ⟨rfl, rfl⟩
  | .attachShadow none => exact .inl ⟨rfl, rfl⟩

theorem exec (h : WellFormed d) {call : DomCall} (hex : call.Existing d)
    (hsafe : callSafe d call = true) : WellFormed (call.exec d).2 := by
  rcases h.contract hex hsafe with ⟨-, hsame⟩ | ⟨hwf, -⟩
  · exact hsame.symm ▸ h
  · exact hwf

end WellFormed

/-! ## Runs -/

/-- Along every sequence of safe calls on existing nodes, from any well-formed
heap, each call keeps its promise, and the heap it leaves is well formed. -/
theorem domRun_contract {d : NodeHeap} {calls : List DomCall} (h : WellFormed d)
    (hsafe : SafeRun d calls) :
    WellFormed (domRun d calls) ∧
    ∀ pre call post, calls = pre ++ call :: post → call.Contract (domRun d pre) := by
  induction calls generalizing d with
  | nil => exact ⟨h, by simp⟩
  | cons first rest ih =>
    obtain ⟨hex, hok, hrest⟩ := hsafe
    obtain ⟨hwf, hall⟩ := ih (h.exec hex hok) hrest
    refine ⟨hwf, fun pre call post heq => ?_⟩
    cases pre with
    | nil =>
      obtain ⟨rfl, -⟩ := List.cons.inj heq
      exact h.contract hex hok
    | cons first' pre =>
      obtain ⟨rfl, hcons⟩ := List.cons.inj heq
      exact hall pre call post hcons

/-- Nodes fresh from `create` make a well-formed heap. -/
theorem wellFormed_of_bare {d : NodeHeap} (hd : ∀ x, (d.node x).bare = d.node x) :
    WellFormed d := by
  have hparent : ∀ x, (d.node x).parent = none := fun x => by rw [← hd x]; rfl
  have hfirst : ∀ x, (d.node x).firstChild = none := fun x => by rw [← hd x]; rfl
  have hlast : ∀ x, (d.node x).lastChild = none := fun x => by rw [← hd x]; rfl
  have hprev : ∀ x, (d.node x).prevSibling = none := fun x => by rw [← hd x]; rfl
  have hnext : ∀ x, (d.node x).nextSibling = none := fun x => by rw [← hd x]; rfl
  have hm : Mirrors d fun _ => [] := by
    constructor <;> simp [hparent, hfirst, hlast, hprev, hnext]
  refine hm.wellFormed fun x hx => ?_
  obtain ⟨q, -, hq⟩ := Relation.TransGen.tail'_iff.1 hx
  rw [Up, NodeHeap.parentOf, hparent] at hq
  cases hq

/-- Three fresh elements. -/
def threeElements : NodeHeap :=
  { size := 3, node := fun _ => { tag := some (ascii "div") } }

/-- A safe run that appends, attaches a shadow root, inserts, replaces and
removes. -/
theorem domRun_contract_threeElements :
    WellFormed (domRun threeElements
      [.appendChild (some 0) (some 1), .attachShadow (some 0),
        .insertBefore (some 0) (some 2) (some 1), .replaceChild (some 0) (some 2) (some 1),
        .removeChild (some 0) (some 2)]) :=
  (domRun_contract (wellFormed_of_bare fun _ => rfl)
    (by simp only [SafeRun, DomCall.Existing]; decide)).1

/-- Appending an ancestor breaks the promise: after `append(0, 1)` the call
`append(1, 0)` succeeds and makes both nodes their own ancestors. -/
theorem appendChild_cycle :
    ¬ ∀ (d : NodeHeap) (pre : List DomCall) (call : DomCall), WellFormed d →
      (∀ c ∈ call :: pre, c.Existing d) → call.Contract (domRun d pre) := by
  intro hall
  have hbad := hall threeElements [.appendChild (some 0) (some 1)]
    (.appendChild (some 1) (some 0)) (wellFormed_of_bare fun _ => rfl)
    (by simp only [DomCall.Existing]; decide)
  rcases hbad with ⟨herr, -⟩ | ⟨hwf, -⟩
  · exact absurd herr (by decide)
  · exact hwf.acyclic 0 (.tail (.single (b := 1) rfl) rfl)

end TinyFramework.Dom
