/-
  Dom/PseudoOwnership.lean --- who owns a generated node.

  The steps are the calls that create, replace and free nodes.  A generated `::before`
  or `::after` node is a child of its host and in a field of it, so freeing the host
  comes to it twice.  Under the condition that no freed or refilled node has such a
  field set, every step frees what it should, once.
-/
import Mathlib.Data.List.DropRight
import TinyFramework.Dom.FragmentSteps
import TinyFramework.Dom.Pseudo

set_option autoImplicit false

namespace TinyFramework.Dom

open TinyFramework.Foundation

/-! ## The steps of the source -/

/-- A document and the nodes freed so far. -/
structure OwnState where
  tree : PseudoTree
  released : Released

/-- One declaration of a pseudo-element rule for one host it wins for: the value of
`content`, or another property. -/
structure PseudoWork where
  kind : PseudoKind
  host : NodeId
  content : Option Bytes

/-- The text of a `content` declaration: trimmed, without quotes, or the attribute
that `attr()` names. -/
def contentText (d : NodeHeap) (host : NodeId) (val : Bytes) : Bytes :=
  let s := ((val.take 127).dropWhile isspace).rdropWhile isspace
  match s with
  | [] => []
  | q :: rest =>
      if (q = 34 ∨ q = 39) ∧ s.getLast? = some q then rest.dropLast
      else if ascii "attr(" <+: s then
        let ap := (s.drop 5).dropWhile isspace
        if 41 ∈ ap then
          let name := ((ap.takeWhile (· ≠ 41)).take 63).rdropWhile isspace
          (miniNodeGetAttribute d host name).getD s
        else s
      else s

/-- `mini_node_remove_attribute` -/
def miniNodeRemoveAttribute (d : NodeHeap) (n : NodeId) (k : Bytes) : NodeHeap :=
  d.modify n fun m => { m with attrs := m.attrs.eraseP (·.1 == k) }

/-- `free(n->text); n->text = ...` -/
def setText (d : NodeHeap) (n : NodeId) (text : Option Bytes) : NodeHeap :=
  d.modify n fun m => { m with text := text }

namespace OwnState

def visit (s : OwnState) (n : NodeId) : OwnState :=
  { s with released := s.released.visit n }

/-- Free the children of a node one after the other and forget them. -/
def destroyChildren (s : OwnState) (n : NodeId) : OwnState :=
  let r := s.tree.destroyAll (children s.tree.heap n) s.released
  { tree := (s.tree.forget (r.log.drop s.released.log.length)).clearChildren n
    released := r }

/-- The node of a pseudo element that has no node yet is made. -/
def ensurePseudo (s : OwnState) (kind : PseudoKind) (host : NodeId) : OwnState :=
  match s.tree.pseudoOf kind host with
  | some _ => s
  | none => { s with tree := s.tree.createPseudo kind host }

/-- The branch of `mini_css_apply` for `content`. -/
def setContent (s : OwnState) (ps : NodeId) (text : Bytes) : OwnState :=
  if text = ascii "none" then
    let d := miniNodeRemoveAttribute s.tree.heap ps (ascii "content")
    { s with tree := { s.tree with heap := setText d ps none } }
  else
    let d := miniNodeSetAttribute s.tree.heap ps (ascii "content") text
    let s := { s with tree := { s.tree with heap := setText d ps (some text) } }
    let s := s.destroyChildren ps
    if text = [] then s
    else
      let (t, d) := miniNodeCreateText s.tree.heap (some text)
      { s with tree := { s.tree with heap := (miniNodeAppendChild d (some ps) (some t)).2 } }

/-- One round of the loop of `mini_css_apply` over the hosts of a pseudo-element rule. -/
def applyPseudo (s : OwnState) (w : PseudoWork) : OwnState :=
  let s := s.visit w.host
  if ascii "::" <+: ((s.tree.heap.node w.host).tag.getD []) then s
  else
    let s := s.ensurePseudo w.kind w.host
    match s.tree.pseudoOf w.kind w.host with
    | none => s
    | some ps =>
        let s := s.visit ps
        match w.content with
        | none => s
        | some val => s.setContent ps (contentText s.tree.heap w.host val)

/-- `mini_css_apply`: the rounds that touch the tree. -/
def miniCssApply (s : OwnState) (work : List PseudoWork) : OwnState :=
  work.foldl applyPseudo s

/-- `mini_dom_restyle`: reverting and inline styles do not touch the tree. -/
def miniDomRestyle (s : OwnState) (work : List PseudoWork) : OwnState :=
  s.miniCssApply work

/-- `mini_node_set_inner_html` -/
def miniNodeSetInnerHtml (s : OwnState) (n : NodeId) (html : Bytes) : OwnState :=
  let s := (s.visit n).destroyChildren n
  { s with tree := { s.tree with heap := fillInnerHtml s.tree.heap n html } }

/-- `mini_node_remove_child` -/
def removeChild (s : OwnState) (p c : NodeId) : OwnState :=
  let s := (s.visit p).visit c
  { s with tree := { s.tree with
      heap := (miniNodeRemoveChild s.tree.heap (some p) (some c)).2 } }

/-- `mini_node_destroy` -/
def destroy (s : OwnState) (n : NodeId) : OwnState :=
  let r := s.tree.destroyAll [n] s.released
  { tree := s.tree.forget (r.log.drop s.released.log.length), released := r }

end OwnState

inductive OwnStep where
  | cssApply (work : List PseudoWork)
  | restyle (work : List PseudoWork)
  | setInnerHtml (n : NodeId) (html : Bytes)
  | removeChild (p c : NodeId)
  | destroy (n : NodeId)

def OwnStep.exec (s : OwnState) : OwnStep → OwnState
  | cssApply work => s.miniCssApply work
  | restyle work => s.miniDomRestyle work
  | setInnerHtml n html => s.miniNodeSetInnerHtml n html
  | removeChild p c => s.removeChild p c
  | destroy n => s.destroy n

def ownRun (s : OwnState) (steps : List OwnStep) : OwnState :=
  steps.foldl OwnStep.exec s

/-! ## What is claimed -/

/-- Every generated node is a live child of its host, and nothing was freed twice or
used after it was freed. -/
structure PseudoOwned (s : OwnState) : Prop where
  pointers : ∀ p, p ∉ s.released.log → ∀ c, s.tree.before p = some c ∨ s.tree.after p = some c →
    c ∈ children s.tree.heap p ∧ c ∉ s.released.log
  once : s.released.log.Nodup
  noFault : s.released.fault = false

/-- The nodes a step has to free. -/
def OwnStep.frees (s : OwnState) : OwnStep → NodeId → Prop
  | setInnerHtml n _, x => ∃ c ∈ children s.tree.heap n, s.tree.InSubtree c x
  | destroy n, x => s.tree.InSubtree n x
  | _, _ => False

/-- `mini_node_destroy` and `mini_node_set_inner_html` free every node of the destroyed
subtree once, and nothing else. -/
def ReleasesOnce (s s' : OwnState) (step : OwnStep) : Prop :=
  match step with
  | .setInnerHtml _ _ | .destroy _ => ∃ gone, s'.released.log = s.released.log ++ gone ∧
      gone.Nodup ∧ ∀ x, x ∈ gone ↔ step.frees s x
  | _ => True

/-! ## The condition -/

/-- The node is allocated and not freed. -/
def Live (s : OwnState) (n : NodeId) : Prop :=
  n < s.tree.heap.size ∧ n ∉ s.released.log

/-- No node in the subtree has a `::before` or `::after` node. -/
def BareSubtree (s : OwnState) (n : NodeId) : Prop :=
  ∀ x, s.tree.InSubtree n x → s.tree.Bare x

/-- The children can be freed: neither the node nor what is below them has a generated
node. -/
def Refillable (s : OwnState) (n : NodeId) : Prop :=
  s.tree.Bare n ∧ ∀ c ∈ children s.tree.heap n, BareSubtree s c

/-- The condition on one round of `mini_css_apply`: the host is live, and if `content`
replaces the children of its generated node, these can be freed. -/
def workSafe (s : OwnState) (w : PseudoWork) : Prop :=
  Live s w.host ∧ ∀ ps val, ¬ ascii "::" <+: ((s.tree.heap.node w.host).tag.getD []) →
    (s.ensurePseudo w.kind w.host).tree.pseudoOf w.kind w.host = some ps → w.content = some val →
    contentText (s.ensurePseudo w.kind w.host).tree.heap w.host val ≠ ascii "none" →
    Refillable (s.ensurePseudo w.kind w.host) ps

def worksSafe : OwnState → List PseudoWork → Prop
  | _, [] => True
  | s, w :: work => workSafe s w ∧ worksSafe (s.applyPseudo w) work

/-- The condition on a step: the nodes it names are live; the node it destroys is
detached, and no node it frees or refills has a `::before` or `::after` node; the child
it removes is neither generated nor a shadow root. -/
def ownSafe (s : OwnState) : OwnStep → Prop
  | .cssApply work | .restyle work => worksSafe s work
  | .setInnerHtml n _ => Live s n ∧ Refillable s n
  | .removeChild p c => Live s p ∧ Live s c ∧ s.tree.before p ≠ some c ∧ s.tree.after p ≠ some c ∧
      (s.tree.heap.node p).shadowRoot ≠ some c
  | .destroy n => Live s n ∧ s.tree.heap.parentOf n = none ∧
      (∀ p, s.tree.placeholder p ≠ some n) ∧ BareSubtree s n

def OwnSafeRun : OwnState → List OwnStep → Prop
  | _, [] => True
  | s, step :: steps => ownSafe s step ∧ OwnSafeRun (step.exec s) steps

/-- A built document before its first stylesheet. -/
structure OwnStart (s : OwnState) : Prop where
  built : s.tree.Built
  before : ∀ p, s.tree.before p = none
  after : ∀ p, s.tree.after p = none
  placeholder : ∀ p, s.tree.placeholder p = none
  released : s.released = {}

/-! ## What the steps keep -/

theorem samePointers_setText (d : NodeHeap) (n : NodeId) (text : Option Bytes) :
    SamePointers d (setText d n text) := by
  constructor <;> simp [setText, field_modify]

theorem samePointers_setAttribute (d : NodeHeap) (n : NodeId) (k v : Bytes) :
    SamePointers d (miniNodeSetAttribute d n k v) := by
  constructor <;> simp [miniNodeSetAttribute, field_modify]

theorem samePointers_removeAttribute (d : NodeHeap) (n : NodeId) (k : Bytes) :
    SamePointers d (miniNodeRemoveAttribute d n k) := by
  constructor <;> simp [miniNodeRemoveAttribute, field_modify]

namespace PseudoTree

variable {t t' : PseudoTree} {dead : List NodeId} {host n p c : NodeId}

/-- Content may change when the pointers do not. -/
theorem Built.content (h : t.Built) {d : NodeHeap} (hs : SamePointers t.heap d) :
    Built { t with heap := d } := by
  obtain ⟨hwf, hkids⟩ := hs.wellFormed h.wellFormed
  refine ⟨hwf, ?_, fun p c hc => ?_, fun p c hc => ?_, fun p s hp => ?_, fun p s hp => ?_⟩
  · exact hs.size ▸ h.root
  · exact hkids ▸ h.before p c hc
  · exact hkids ▸ h.after p c hc
  · exact hs.parentOf ▸ h.shadow p s ((hs.shadow p).symm.trans hp)
  · exact hkids ▸ h.unlisted p s ((hs.shadow p).symm.trans hp)

/-- A child that is neither generated nor a shadow root may be taken out. -/
theorem Built.remove (h : t.Built) (hc : c ∈ children t.heap p) (hbefore : t.before p ≠ some c)
    (hafter : t.after p ≠ some c) : Built { t with heap := unlink t.heap p c } := by
  have hmir := h.wellFormed.mirrors
  have hparent := hmir.parent p c hc
  have hmir' := hmir.unlink hparent (hmir.removable_of_listed hc)
  have hnode := fun x => unlink_node t.heap p c x
  have hdropped : ∀ x q, (unlink t.heap p c).parentOf x = some q → t.heap.parentOf x = some q := by
    intro x q hx
    rw [NodeHeap.parentOf, (hnode x).1] at hx
    split_ifs at hx
    exact hx
  have hkept : ∀ {q x}, x ∈ children t.heap q → x ≠ c → x ∈ children (unlink t.heap p c) q := by
    intro q x hx hne
    rw [hmir'.children_eq]
    exact (List.mem_erase_of_ne hne).2 hx
  have hpseudo : ∀ {f : NodeId → Option NodeId} {q x}, f p ≠ some c → f q = some x →
      x ∈ children t.heap q → x ≠ c := by
    rintro f q x hne hq hx rfl
    exact hne (hmir.unique hx hc ▸ hq)
  have hshadow : ∀ x, ((unlink t.heap p c).node x).shadowRoot = (t.heap.node x).shadowRoot :=
    fun x => field_of_bare MiniNode.shadowRoot (hnode x).2.2.2.2.2 fun _ => rfl
  refine ⟨hmir'.wellFormed ?_, ?_, fun q x hq => ?_, fun q x hq => ?_, fun q s hq => ?_,
    fun q s hq hmem => ?_⟩
  · exact h.wellFormed.acyclic.reparent (S := fun _ => False) (p := p)
      (fun x q hx => .inl (hdropped x q hx)) fun _ hfalse => hfalse.elim
  · exact (unlink_size t.heap p c).symm ▸ h.root
  · exact hkept (h.before q x hq) (hpseudo hbefore hq (h.before q x hq))
  · exact hkept (h.after q x hq) (hpseudo hafter hq (h.after q x hq))
  · have hq' := (hshadow q).symm.trans hq
    have hne : s ≠ c := by
      rintro rfl
      have hown := h.shadow q s hq'
      rw [NodeHeap.parentOf, hparent] at hown
      cases hown
      exact h.unlisted p s hq' hc
    rw [NodeHeap.parentOf, (hnode s).1, if_neg hne]
    exact h.shadow q s hq'
  · rw [hmir'.children_eq] at hmem
    exact h.unlisted q s ((hshadow q).symm.trans hq) (List.mem_of_mem_erase hmem)

/-- Ownership from a built document whose owners were owners before, or are the host
of a fresh node. -/
theorem Owned.of_owners (h : t.Owned dead) (hb : t'.Built) (hsize : t.heap.size ≤ t'.heap.size)
    (hplace : ∀ p q, t'.placeholder p = some q → p < t'.heap.size ∧ q < t'.heap.size ∧
      t'.heap.parentOf q = none ∧ ∀ p', t'.placeholder p' = some q → p' = p)
    (hhost : host < t.heap.size)
    (howner : ∀ c p, t'.heap.parentOf c = some p ∨ t'.placeholder p = some c →
      t.ownerOf c = some p ∨ (c = t.heap.size ∧ p = host)) : t'.Owned dead := by
  have hedge : ∀ c p, t'.ownerOf c = some p → t.ownerOf c = some p ∨ (c = t.heap.size ∧ p = host) :=
    fun c p hc => howner c p ((ownerOf_eq hplace).1 hc)
  refine ⟨hb, h.acyclic.reparent hedge fun s hs hbelow => ?_, hplace, fun x hx => ?_⟩
  · subst hs
    rcases Relation.ReflTransGen.cases_tail hbelow with heq | ⟨q, -, hq⟩
    · exact Nat.lt_irrefl _ (heq ▸ hhost)
    · exact Nat.lt_irrefl _ (h.owner_lt hq).2
  · obtain ⟨hlt, hnone⟩ := h.dead x hx
    refine ⟨Nat.lt_of_lt_of_le hlt hsize, Option.eq_none_iff_forall_ne_some.2 fun p hp => ?_⟩
    rcases hedge x p hp with hold | ⟨heq, -⟩
    · rw [hnone] at hold
      cases hold
    · exact Nat.ne_of_lt hlt heq

/-- The pointers may lose edges. -/
theorem Owned.shrink (h : t.Owned dead) (hb : t'.Built) (hsize : t'.heap.size = t.heap.size)
    (hplace : t'.placeholder = t.placeholder)
    (hparent : ∀ c p, t'.heap.parentOf c = some p → t.heap.parentOf c = some p) :
    t'.Owned dead := by
  refine h.of_owners hb (Nat.le_of_eq hsize.symm) (fun p q hq => ?_) h.built.root fun c p hc => ?_
  · rw [hplace] at hq
    obtain ⟨hp, hqlt, hnone, huniq⟩ := h.placeholder p q hq
    refine ⟨hsize ▸ hp, hsize ▸ hqlt, Option.eq_none_iff_forall_ne_some.2 fun p' hp' => ?_,
      fun p' hp' => huniq p' (hplace ▸ hp')⟩
    rw [hparent q p' hp'] at hnone
    cases hnone
  · rw [hplace] at hc
    exact .inl (h.owner_iff.2 (hc.imp_left (hparent c p)))

/-- A fresh node hangs under a host. -/
theorem Owned.grow (h : t.Owned dead) (hb : t'.Built) (hhost : host < t.heap.size)
    (hsize : t'.heap.size = t.heap.size + 1) (hplace : t'.placeholder = t.placeholder)
    (hparent : t'.heap.parentOf = Function.update t.heap.parentOf t.heap.size (some host)) :
    t'.Owned dead := by
  refine h.of_owners hb (hsize ▸ Nat.le_succ _) (fun p q hq => ?_) hhost fun c p hc => ?_
  · rw [hplace] at hq
    obtain ⟨hp, hqlt, hnone, huniq⟩ := h.placeholder p q hq
    refine ⟨hsize ▸ Nat.lt_succ_of_lt hp, hsize ▸ Nat.lt_succ_of_lt hqlt, ?_,
      fun p' hp' => huniq p' (hplace ▸ hp')⟩
    rw [hparent, Function.update_of_ne (Nat.ne_of_lt hqlt)]
    exact hnone
  · rw [hplace, hparent, Function.update_apply] at hc
    split_ifs at hc with hfresh
    · rcases hc with hc | hc
      · exact .inr ⟨hfresh, (Option.some.inj hc).symm⟩
      · exact .inl (h.owner_iff.2 (.inr hc))
    · exact .inl (h.owner_iff.2 hc)

/-- The heap after a generated node is made. -/
theorem Built.createPseudo_heap (h : t.Built) (hhost : host < t.heap.size) (kind : PseudoKind) :
    (t.createPseudo kind host).heap.size = t.heap.size + 1 ∧
      (t.createPseudo kind host).heap.parentOf =
        if kind = .placeholder then t.heap.parentOf
        else Function.update t.heap.parentOf t.heap.size (some host) := by
  obtain ⟨m, hbare, htype, -, hcreate⟩ := createElement_pseudo t.heap kind
  unfold PseudoTree.createPseudo
  rw [hcreate]
  cases kind with
  | before =>
    have hd := h.wellFormed.insert_fresh hbare htype hhost
    exact ⟨hd.size, hd.parent⟩
  | after =>
    have hd := h.wellFormed.append_fresh hbare htype hhost
    exact ⟨hd.size, hd.parent⟩
  | placeholder => exact ⟨rfl, h.wellFormed.parentOf_alloc hbare⟩

theorem Owned.createPseudo (h : t.Owned dead) (hhost : host < t.heap.size) (kind : PseudoKind) :
    (t.createPseudo kind host).Owned dead := by
  have hb := h.built.createPseudo hhost kind
  obtain ⟨hsize, hparent⟩ := h.built.createPseudo_heap hhost kind
  cases kind with
  | before => exact h.grow hb hhost hsize rfl hparent
  | after => exact h.grow hb hhost hsize rfl hparent
  | placeholder =>
    rw [if_pos rfl] at hparent
    have hplace : ∀ p, (t.createPseudo .placeholder host).placeholder p =
        if p = host then some t.heap.size else t.placeholder p := fun p =>
      Function.update_apply _ _ _ _
    have hold : ∀ {p q}, t.placeholder p = some q → q ≠ t.heap.size := fun hq =>
      Nat.ne_of_lt (h.placeholder _ _ hq).2.1
    refine h.of_owners hb (hsize ▸ Nat.le_succ _) (fun p q hq => ?_) hhost fun c p hc => ?_
    · rw [hplace] at hq
      rw [hsize, hparent]
      split_ifs at hq with hp
      · obtain rfl := Option.some.inj hq
        refine ⟨Nat.lt_succ_of_lt (hp ▸ hhost), Nat.lt_succ_self _,
          h.built.wellFormed.orphan_fresh, fun p' hp' => ?_⟩
        rw [hplace] at hp'
        split_ifs at hp' with heq
        · exact heq.trans hp.symm
        · exact absurd rfl (hold hp')
      · obtain ⟨hplt, hqlt, hnone, huniq⟩ := h.placeholder p q hq
        refine ⟨Nat.lt_succ_of_lt hplt, Nat.lt_succ_of_lt hqlt, hnone, fun p' hp' => ?_⟩
        rw [hplace] at hp'
        split_ifs at hp' with heq
        · exact absurd (Option.some.inj hp').symm (hold hq)
        · exact huniq p' hp'
    · rw [hparent, hplace] at hc
      rcases hc with hc | hc
      · exact .inl (h.owner_iff.2 (.inl hc))
      · split_ifs at hc with hp
        · exact .inr ⟨(Option.some.inj hc).symm, hp⟩
        · exact .inl (h.owner_iff.2 (.inr hc))

/-- A generated node belongs to its host. -/
theorem Owned.owner_pseudo (h : t.Owned dead) {kind : PseudoKind} {ps : NodeId}
    (hps : t.pseudoOf kind host = some ps) : t.ownerOf ps = some host := by
  refine h.owner_iff.2 ?_
  cases kind with
  | before => exact .inl (h.built.wellFormed.mirrors.parent host ps (h.built.before host ps hps))
  | after => exact .inl (h.built.wellFormed.mirrors.parent host ps (h.built.after host ps hps))
  | placeholder => exact .inr hps

/-! ## The parser hangs fresh nodes -/

/-- In the middle of a parse: the document so far, and open elements in it. -/
structure Parsing (t : PseudoTree) (dead : List NodeId) (f : Fragment) : Prop where
  owned : Owned { t with heap := f.heap } dead
  size : t.heap.size ≤ f.heap.size
  stack : ∀ x ∈ f.stack, x < f.heap.size
  open_ : f.stack ≠ []

namespace Parsing

variable {f : Fragment}

/-- Hanging a fresh node under the innermost element. -/
theorem hang (h : t.Parsing dead f) {m : MiniNode} (hm : m.bare = m)
    (htype : m.type ≠ .documentFragmentNode) (hshadow : m.shadowRoot = none)
    {stack : List NodeId} (hstack : ∀ x ∈ stack, x = f.heap.size ∨ x ∈ f.stack)
    (hopen : stack ≠ []) (rest : Bytes) :
    t.Parsing dead ⟨f.append f.heap.size (f.heap.alloc m), stack, rest⟩ := by
  obtain ⟨top, tail, htop⟩ := List.exists_cons_of_ne_nil h.open_
  have hlt : top < f.heap.size := h.stack top (by rw [htop]; exact List.mem_cons_self)
  have hd := h.owned.built.wellFormed.append_fresh hm htype hlt
  have heq : f.append f.heap.size (f.heap.alloc m) =
      (miniNodeAppendChild (f.heap.alloc m) (some top) (some f.heap.size)).2 := by
    rw [Fragment.append, htop]
    rfl
  obtain ⟨hb, -⟩ := h.owned.built.hang hshadow hd fun c => by
    rw [List.mem_append, List.mem_singleton, or_comm]
  rw [heq]
  refine ⟨h.owned.grow hb hlt hd.size rfl hd.parent, ?_, fun x hx => ?_, hopen⟩
  · exact Nat.le_trans h.size (Nat.le_of_lt (Nat.lt_of_lt_of_eq (Nat.lt_succ_self _) hd.size.symm))
  · refine Nat.lt_of_lt_of_eq ?_ hd.size.symm
    rcases hstack x hx with rfl | hx
    · exact Nat.lt_succ_self _
    · exact Nat.lt_succ_of_lt (h.stack x hx)

theorem rest (h : t.Parsing dead f) {stack : List NodeId} (hsub : stack ⊆ f.stack)
    (hopen : stack ≠ []) (rest : Bytes) : t.Parsing dead ⟨f.heap, stack, rest⟩ :=
  ⟨h.owned, h.size, fun x hx => h.stack x (hsub hx), hopen⟩

theorem kept (t : PseudoTree) (dead : List NodeId) : Fragment.Kept (t.Parsing dead) where
  open_ _ h := h.open_
  hang _ _ _ rest h hm htype hshadow hstack hopen := h.hang hm htype hshadow hstack hopen rest
  rest _ _ rest h hsub hopen := h.rest hsub hopen rest

end Parsing

theorem Owned.fillInnerHtml (h : t.Owned dead) (hn : n < t.heap.size) (html : Bytes) :
    Owned { t with heap := fillInnerHtml t.heap n html } dead := by
  have hstart : ∀ rest, t.Parsing dead ⟨t.heap, [n], rest⟩ := fun rest =>
    ⟨h, Nat.le_refl _, fun x hx => List.mem_singleton.1 hx ▸ hn, List.cons_ne_nil _ _⟩
  obtain ⟨stack, rest, hend⟩ := fillInnerHtml_kept (Parsing.kept t dead) hstart html
  exact hend.owned

end PseudoTree

/-! ## Steps and runs -/

/-- Every node has one owner, freed nodes have none, and nothing went wrong so far. -/
structure Owning (s : OwnState) : Prop where
  owned : s.tree.Owned s.released.log
  once : s.released.log.Nodup
  noFault : s.released.fault = false

/-- The step has freed the nodes `F`, each for the first time. -/
def Freed (s s' : OwnState) (F : NodeId → Prop) : Prop :=
  ∃ gone, s'.released.log = s.released.log ++ gone ∧ gone.Nodup ∧ ∀ x, x ∈ gone ↔ F x

namespace Owning

variable {s : OwnState} {n p c ps : NodeId}

theorem pseudoOwned (h : Owning s) : PseudoOwned s := by
  refine ⟨fun p _ c hc => ?_, h.once, h.noFault⟩
  have hkid : c ∈ children s.tree.heap p := by
    rcases hc with hc | hc
    · exact h.owned.built.before p c hc
    · exact h.owned.built.after p c hc
  have hparent := h.owned.built.wellFormed.mirrors.parent p c hkid
  exact ⟨hkid, h.owned.not_dead_of_owner (h.owned.owner_iff.2 (.inl hparent))⟩

theorem visit_live (hn : n ∉ s.released.log) : s.visit n = s := by
  have hfault : (s.released.visit n) = s.released := by
    rw [Released.visit, decide_eq_false hn, Bool.or_false]
  rw [OwnState.visit, hfault]

/-- The calls that only change the tree. -/
theorem retree (h : Owning s) {t : PseudoTree} (ht : t.Owned s.released.log) :
    Owning { s with tree := t } :=
  ⟨ht, h.once, h.noFault⟩

/-- Freeing a list of subtrees, and with it the child list of `n`. -/
theorem freeAll (h : Owning s) {l : List NodeId} (hlt : ∀ c ∈ l, c < s.tree.heap.size)
    (hl : l.Nodup) (hapart : ∀ c ∈ l, ∀ c' ∈ l, ∀ x, Below s.tree.ownerOf x c →
      Below s.tree.ownerOf x c' → c = c')
    (hbare : ∀ c ∈ l, BareSubtree s c) (hlive : ∀ c ∈ l, c ∉ s.released.log)
    (htop : ∀ c ∈ l, ∀ q, s.tree.ownerOf c = some q → q = n ∧ c ∈ children s.tree.heap n)
    (hkids : ∀ c ∈ children s.tree.heap n, ∃ k ∈ l, s.tree.InSubtree k c)
    (hn : (∀ k ∈ l, ¬ s.tree.InSubtree k n) → s.tree.Bare n) :
    ∃ gone, s.tree.destroyAll l s.released = ⟨s.released.log ++ gone, false⟩ ∧ gone.Nodup ∧
      (∀ x, x ∈ gone ↔ ∃ k ∈ l, s.tree.InSubtree k x) ∧
      Owning ⟨(s.tree.forget gone).clearChildren n, ⟨s.released.log ++ gone, false⟩⟩ := by
  obtain ⟨gone, hgone, hnodup, hmem, hfresh⟩ :=
    h.owned.destroyAll_spec hlt hl hapart hbare hlive
  have hreleased : s.released = ⟨s.released.log, false⟩ := by
    rw [← h.noFault]
  have hcut : s.tree.Cut gone n := by
    refine ⟨fun c p hc hp => ?_, fun c p hc hgone => ?_, fun c hc => (hmem c).2 (hkids c hc),
      fun hnot => hn fun k hk hsub => hnot ((hmem n).2 ⟨k, hk, hsub⟩)⟩
    · obtain ⟨k, hk, hsub⟩ := (hmem p).1 hp
      exact (hmem c).2 ⟨k, hk, hsub.tail (h.owned.mem_ownLinks.2 hc)⟩
    · obtain ⟨k, hk, hsub⟩ := (hmem c).1 hgone
      rcases (h.owned.inSubtree_iff.1 hsub).eq_or_parent with rfl | ⟨q, hq, hbelow⟩
      · exact .inr (htop c hk p hc)
      · rw [hc] at hq
        cases hq
        exact .inl ((hmem p).2 ⟨k, hk, h.owned.inSubtree_iff.2 hbelow⟩)
  have hlt' : ∀ x ∈ gone, x < s.tree.heap.size := by
    intro x hx
    obtain ⟨k, hk, hsub⟩ := (hmem x).1 hx
    rcases (h.owned.inSubtree_iff.1 hsub).eq_or_parent with rfl | ⟨q, hq, -⟩
    · exact hlt x hk
    · exact (h.owned.owner_lt hq).1
  refine ⟨gone, hreleased ▸ hgone, hnodup, hmem, h.owned.cleared hcut hlt', ?_, rfl⟩
  exact List.nodup_append.2 ⟨h.once, hnodup, fun x hx y hy heq => hfresh y hy (heq ▸ hx)⟩

theorem destroyChildren (h : Owning s) (href : Refillable s n) :
    Owning (s.destroyChildren n) ∧ (s.destroyChildren n).tree.heap.size = s.tree.heap.size ∧
      Freed s (s.destroyChildren n) fun x => ∃ c ∈ children s.tree.heap n, s.tree.InSubtree c x := by
  have hmir := h.owned.built.wellFormed.mirrors
  have howner : ∀ c ∈ children s.tree.heap n, s.tree.ownerOf c = some n := fun c hc =>
    h.owned.owner_iff.2 (.inl (hmir.parent n c hc))
  obtain ⟨gone, hgone, hnodup, hmem, hown⟩ := h.freeAll (n := n)
    (fun c hc => hmir.child_lt hc) (hmir.nodup n)
    (fun c hc c' hc' x hx hx' =>
      h.owned.acyclic.eq_of_below_child (howner c hc) (howner c' hc') hx hx')
    href.2 (fun c hc => h.owned.not_dead_of_owner (howner c hc))
    (fun c hc q hq => ⟨by rw [howner c hc] at hq; exact (Option.some.inj hq).symm, hc⟩)
    (fun c hc => ⟨c, hc, .refl⟩) fun _ => href.1
  have heq : s.destroyChildren n =
      ⟨(s.tree.forget gone).clearChildren n, ⟨s.released.log ++ gone, false⟩⟩ := by
    rw [OwnState.destroyChildren, hgone]
    simp
  rw [heq]
  exact ⟨hown, rfl, gone, rfl, hnodup, hmem⟩

theorem destroy (h : Owning s) (hn : Live s n) (hparent : s.tree.heap.parentOf n = none)
    (hplace : ∀ p, s.tree.placeholder p ≠ some n) (hbare : BareSubtree s n) :
    Owning (s.destroy n) ∧ Freed s (s.destroy n) fun x => s.tree.InSubtree n x := by
  have hnone : ∀ q, s.tree.ownerOf n ≠ some q := by
    intro q hq
    rcases h.owned.owner_iff.1 hq with hq | hq
    · rw [hparent] at hq
      cases hq
    · exact hplace q hq
  obtain ⟨gone, hgone, hnodup, hmem, hown⟩ := h.freeAll (n := n) (l := [n])
    (by simpa using hn.1) (List.nodup_singleton n)
    (fun c hc c' hc' _ _ _ => by rw [List.mem_singleton.1 hc, List.mem_singleton.1 hc'])
    (by simpa using hbare) (by simpa using hn.2)
    (fun c hc q hq => absurd hq (List.mem_singleton.1 hc ▸ hnone q))
    (fun c hc => ⟨n, List.mem_cons_self, .single (List.mem_append_left _ hc)⟩)
    fun hnot => absurd .refl (hnot n List.mem_cons_self)
  have hself : n ∈ gone := (hmem n).2 ⟨n, List.mem_cons_self, .refl⟩
  have hclear : (s.tree.forget gone).clearChildren n = s.tree.forget gone := by
    have hnode : ∀ x, ((s.tree.forget gone).clearChildren n).heap.node x =
        (s.tree.forget gone).heap.node x := by
      intro x
      rw [PseudoTree.cleared_node]
      change _ = if x ∈ gone then {} else s.tree.heap.node x
      split_ifs with hx hxn
      · rfl
      · exact absurd (hxn ▸ hself) hx
      · rfl
    unfold PseudoTree.clearChildren
    congr 1
    exact congrArg (NodeHeap.mk _) (funext hnode)
  have heq : s.destroy n =
      ⟨(s.tree.forget gone).clearChildren n, ⟨s.released.log ++ gone, false⟩⟩ := by
    rw [OwnState.destroy, hgone, hclear]
    simp
  rw [heq]
  exact ⟨hown, gone, rfl, hnodup, fun x => by rw [hmem]; simp⟩

/-- Writing content of a node. -/
theorem rewrite (h : Owning s) {d : NodeHeap} (hd : SamePointers s.tree.heap d) :
    Owning { s with tree := { s.tree with heap := d } } :=
  h.retree (h.owned.shrink (h.owned.built.content hd) hd.size rfl fun c p hc => by
    rwa [show ({ s.tree with heap := d } : PseudoTree).heap.parentOf = s.tree.heap.parentOf from
      hd.parentOf] at hc)

theorem refillable_rewrite (h : Owning s) {d : NodeHeap} (hd : SamePointers s.tree.heap d)
    (href : Refillable s n) : Refillable { s with tree := { s.tree with heap := d } } n := by
  have hkids : children d = children s.tree.heap := (hd.wellFormed h.owned.built.wellFormed).2
  have hlinks : ({ s.tree with heap := d } : PseudoTree).ownLinks = s.tree.ownLinks := by
    funext x
    simp only [PseudoTree.ownLinks, hkids, hd.shadow]
  refine ⟨href.1, fun c hc x hx => ?_⟩
  dsimp only at hc
  rw [hkids] at hc
  refine href.2 c hc x ?_
  unfold PseudoTree.InSubtree at hx ⊢
  rwa [hlinks] at hx

theorem setContent (h : Owning s) (hps : Live s ps) {text : Bytes}
    (href : text ≠ ascii "none" → Refillable s ps) : Owning (s.setContent ps text) := by
  have hset : SamePointers s.tree.heap (setText (miniNodeSetAttribute s.tree.heap ps
      (ascii "content") text) ps (some text)) :=
    (samePointers_setAttribute _ ps _ _).trans (samePointers_setText _ ps _)
  unfold OwnState.setContent
  split_ifs with hnone hempty
  · exact h.rewrite ((samePointers_removeAttribute _ ps _).trans (samePointers_setText _ ps _))
  · exact ((h.rewrite hset).destroyChildren (h.refillable_rewrite hset (href hnone))).1
  · obtain ⟨hown, hsize, -⟩ :=
      (h.rewrite hset).destroyChildren (h.refillable_rewrite hset (href hnone))
    have hlt := Nat.lt_of_lt_of_eq hps.1 (hset.size.symm.trans hsize.symm)
    have hd := hown.owned.built.wellFormed.append_fresh (m := { type := .textNode, text := some text })
      rfl (by simp) hlt
    obtain ⟨hb, -⟩ := hown.owned.built.hang rfl hd fun c => by
      rw [List.mem_append, List.mem_singleton, or_comm]
    exact hown.retree (hown.owned.grow hb hlt hd.size rfl hd.parent)

theorem ensurePseudo (h : Owning s) (kind : PseudoKind) {host : NodeId} (hhost : Live s host) :
    Owning (s.ensurePseudo kind host) ∧ (s.ensurePseudo kind host).released = s.released := by
  unfold OwnState.ensurePseudo
  split
  · exact ⟨h, rfl⟩
  · exact ⟨h.retree (h.owned.createPseudo hhost.1 kind), rfl⟩

theorem applyPseudo (h : Owning s) {w : PseudoWork} (hsafe : workSafe s w) :
    Owning (s.applyPseudo w) := by
  obtain ⟨hhost, hfill⟩ := hsafe
  unfold OwnState.applyPseudo
  rw [visit_live hhost.2]
  dsimp only
  split_ifs with htag
  · exact h
  · obtain ⟨hown, hreleased⟩ := h.ensurePseudo w.kind hhost
    split
    · exact hown
    · next ps hps =>
      have howner := hown.owned.owner_pseudo hps
      have hlive : Live (s.ensurePseudo w.kind w.host) ps :=
        ⟨(hown.owned.owner_lt howner).1, hown.owned.not_dead_of_owner howner⟩
      rw [visit_live hlive.2]
      split
      · exact hown
      · next val hval =>
        exact hown.setContent hlive fun hnone => hfill ps val htag hps hval hnone

theorem miniCssApply (h : Owning s) {work : List PseudoWork} (hsafe : worksSafe s work) :
    Owning (s.miniCssApply work) := by
  induction work generalizing s with
  | nil => exact h
  | cons w work ih => exact ih (h.applyPseudo hsafe.1) hsafe.2

theorem miniNodeSetInnerHtml (h : Owning s) {html : Bytes} (hn : Live s n)
    (href : Refillable s n) : Owning (s.miniNodeSetInnerHtml n html) ∧
      Freed s (s.miniNodeSetInnerHtml n html) fun x =>
        ∃ c ∈ children s.tree.heap n, s.tree.InSubtree c x := by
  obtain ⟨hown, hsize, hfreed⟩ := h.destroyChildren href
  unfold OwnState.miniNodeSetInnerHtml
  rw [visit_live hn.2]
  exact ⟨hown.retree (hown.owned.fillInnerHtml (hsize ▸ hn.1) html), hfreed⟩

theorem removeChild (h : Owning s) (hp : Live s p) (hc : Live s c)
    (hbefore : s.tree.before p ≠ some c) (hafter : s.tree.after p ≠ some c)
    (hshadow : (s.tree.heap.node p).shadowRoot ≠ some c) : Owning (s.removeChild p c) := by
  have hmir := h.owned.built.wellFormed.mirrors
  unfold OwnState.removeChild
  rw [visit_live hp.2, visit_live hc.2]
  dsimp only [miniNodeRemoveChild]
  split_ifs with hparent
  · exact h
  · have hparent := not_not.1 hparent
    have hkid := (hmir.listed c p hparent).resolve_right fun hs => hshadow hs.1
    refine h.retree (h.owned.shrink (h.owned.built.remove hkid hbefore hafter)
      (unlink_size _ p c) rfl fun x q hx => ?_)
    rw [NodeHeap.parentOf, (unlink_node s.tree.heap p c x).1] at hx
    split_ifs at hx
    exact hx

/-- The step: it keeps the ownership, and frees what it has to free. -/
theorem step (h : Owning s) {step : OwnStep} (hsafe : ownSafe s step) :
    Owning (step.exec s) ∧ ReleasesOnce s (step.exec s) step := by
  cases step with
  | cssApply work => exact ⟨h.miniCssApply hsafe, trivial⟩
  | restyle work => exact ⟨h.miniCssApply hsafe, trivial⟩
  | setInnerHtml n html => exact h.miniNodeSetInnerHtml hsafe.1 hsafe.2
  | removeChild p c =>
    obtain ⟨hp, hc, hbefore, hafter, hshadow⟩ := hsafe
    exact ⟨h.removeChild hp hc hbefore hafter hshadow, trivial⟩
  | destroy n =>
    obtain ⟨hn, hparent, hplace, hbare⟩ := hsafe
    exact h.destroy hn hparent hplace hbare

theorem run (h : Owning s) {steps : List OwnStep} (hsafe : OwnSafeRun s steps) :
    Owning (ownRun s steps) := by
  induction steps generalizing s with
  | nil => exact h
  | cons step steps ih => exact ih (h.step hsafe.1).1 hsafe.2

end Owning

theorem OwnStart.owning {s : OwnState} (h : OwnStart s) : Owning s := by
  have howner : ∀ x, s.tree.ownerOf x = s.tree.heap.parentOf x := by
    intro x
    refine dif_neg ?_
    rintro ⟨p, hp⟩
    rw [h.placeholder] at hp
    cases hp
  refine ⟨⟨h.built, ?_, fun p q hq => ?_, fun x hx => ?_⟩, ?_, ?_⟩
  · rw [funext howner]
    exact h.built.wellFormed.acyclic
  · rw [h.placeholder] at hq
    cases hq
  · rw [h.released] at hx
    cases hx
  · rw [h.released]
    exact List.nodup_nil
  · rw [h.released]

theorem ownRun_append (s : OwnState) (pre post : List OwnStep) :
    ownRun s (pre ++ post) = ownRun (ownRun s pre) post :=
  List.foldl_append

theorem OwnSafeRun.append {s : OwnState} {pre post : List OwnStep}
    (h : OwnSafeRun s (pre ++ post)) : OwnSafeRun s pre ∧ OwnSafeRun (ownRun s pre) post := by
  induction pre generalizing s with
  | nil => exact ⟨trivial, h⟩
  | cons step pre ih =>
    obtain ⟨hpre, hpost⟩ := ih h.2
    exact ⟨⟨h.1, hpre⟩, hpost⟩

/-- Along a run whose steps all meet the condition, every generated node is a live child
of its host, and every step frees what it has to free, once. -/
theorem pseudoOwned_of_safeRun {s : OwnState} (h : OwnStart s) {steps : List OwnStep}
    (hsafe : OwnSafeRun s steps) :
    (∀ pre, pre <+: steps → PseudoOwned (ownRun s pre)) ∧
    ∀ pre step, pre ++ [step] <+: steps →
      ReleasesOnce (ownRun s pre) (ownRun s (pre ++ [step])) step := by
  refine ⟨fun pre hpre => ?_, fun pre step hpre => ?_⟩
  · obtain ⟨rest, rfl⟩ := hpre
    exact (h.owning.run hsafe.append.1).pseudoOwned
  · obtain ⟨rest, rfl⟩ := hpre
    obtain ⟨hbefore, hstep⟩ := hsafe.append.1.append
    rw [ownRun_append]
    exact ((h.owning.run hbefore).step hstep.1).2

theorem inSubtree_of_closed {t : PseudoTree} {l : List NodeId} {n x : NodeId} (hn : n ∈ l)
    (hclosed : ∀ y ∈ l, ∀ z ∈ t.ownLinks y, z ∈ l) (hx : t.InSubtree n x) : x ∈ l := by
  induction hx with
  | refl => exact hn
  | tail _ hlink ih => exact hclosed _ ih _ hlink

def bodyState : OwnState :=
  ⟨bodyTree, {}⟩

theorem ownStart_bodyState : OwnStart bodyState :=
  ⟨built_bodyTree, fun _ => rfl, fun _ => rfl, fun _ => rfl, rfl⟩

/-- The body is filled, gets a `::before` node, and loses its first child. -/
def refillSteps : List OwnStep :=
  [.setInnerHtml 1 (ascii "<p>a<b>c</b></p>d"), .cssApply [⟨.before, 1, some (ascii "'x'")⟩],
    .removeChild 1 2, .destroy 2]

instance (s : OwnState) (n : NodeId) : Decidable (Live s n) :=
  inferInstanceAs (Decidable (_ ∧ _))

instance (t : PseudoTree) (n : NodeId) : Decidable (t.Bare n) :=
  inferInstanceAs (Decidable (_ ∧ _))

theorem ownSafeRun_refillSteps : OwnSafeRun bodyState refillSteps := by
  have hfill : ownSafe bodyState (.setInnerHtml 1 (ascii "<p>a<b>c</b></p>d")) :=
    ⟨by decide, ⟨rfl, rfl⟩, fun _ _ _ _ => ⟨rfl, rfl⟩⟩
  have hwork : workSafe (ownRun bodyState (refillSteps.take 1)) ⟨.before, 1, some (ascii "'x'")⟩ := by
    refine ⟨by decide, fun ps val _ hps _ _ => ?_⟩
    have hps' : ((ownRun bodyState (refillSteps.take 1)).ensurePseudo .before 1).tree.pseudoOf
        .before 1 = some 7 := by decide
    obtain rfl := Option.some.inj (hps.symm.trans hps')
    refine ⟨by decide, fun c hc => ?_⟩
    rw [show children ((ownRun bodyState (refillSteps.take 1)).ensurePseudo .before 1).tree.heap 7 =
      [] by decide] at hc
    cases hc
  have hremove : ownSafe (ownRun bodyState (refillSteps.take 2)) (.removeChild 1 2) := by
    unfold ownSafe
    decide
  have hdestroy : ownSafe (ownRun bodyState (refillSteps.take 3)) (.destroy 2) := by
    refine ⟨by decide, by decide, fun p hp => ?_, fun x hx => ?_⟩
    · have hsafe : OwnSafeRun bodyState (refillSteps.take 3) :=
        ⟨hfill, ⟨hwork, trivial⟩, hremove, trivial⟩
      have hlt := ((ownStart_bodyState.owning.run hsafe).owned.placeholder p 2 hp).1
      have hnone : ∀ p < (ownRun bodyState (refillSteps.take 3)).tree.heap.size,
          (ownRun bodyState (refillSteps.take 3)).tree.placeholder p ≠ some 2 := by decide
      exact hnone p hlt hp
    · have hmem : x ∈ [2, 3, 4, 5] := inSubtree_of_closed (by decide) (by decide) hx
      have hbare : ∀ x ∈ [2, 3, 4, 5], (ownRun bodyState (refillSteps.take 3)).tree.Bare x := by
        decide
      exact hbare x hmem
  exact ⟨hfill, ⟨hwork, trivial⟩, hremove, hdestroy, trivial⟩

theorem pseudoOwned_of_safeRun_refill :
    (∀ pre, pre <+: refillSteps → PseudoOwned (ownRun bodyState pre)) ∧
    ∀ pre step, pre ++ [step] <+: refillSteps →
      ReleasesOnce (ownRun bodyState pre) (ownRun bodyState (pre ++ [step])) step :=
  pseudoOwned_of_safeRun ownStart_bodyState ownSafeRun_refillSteps

/-- A document whose body gets a `::before` node. -/
def beforeSteps : List OwnStep :=
  [.cssApply [⟨.before, 1, none⟩]]

/-- Destroying the body of such a document frees the generated node twice. -/
theorem generated_freed_twice :
    ¬ PseudoOwned (ownRun bodyState (beforeSteps ++ [.removeChild 0 1, .destroy 1])) := by
  intro h
  have hlog : (ownRun bodyState (beforeSteps ++ [.removeChild 0 1, .destroy 1])).released.log =
      [2, 2, 1] := by decide
  have honce := h.once
  rw [hlog] at honce
  revert honce
  decide

end TinyFramework.Dom
