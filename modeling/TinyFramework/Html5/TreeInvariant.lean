/-
  Html5/TreeInvariant.lean --- what every step of the tree builder keeps.

  The nodes of the document before the parser started are an arbitrary set
  `live`; the nodes the parser made are those from address `first` on.  In
  `HeapInv` all of them reach the document root, and the parser's own nodes are
  never fragments and have no other children.  Each way of putting a fresh node
  into the tree keeps it.

  `TreeInv` adds to the heap invariant that the open stack is a list of the
  parser's own nodes on top of (a tail of) the nodes it started with, and that
  the other node pointers of the parser are good.  A step is stated as
  `Step b s s'`: the invariant holds again and the heap has only grown.
-/
import TinyFramework.Dom.Content
import TinyFramework.Html5.TreeBuilder

set_option autoImplicit false

namespace TinyFramework.Html5

open TinyFramework.Foundation TinyFramework.Dom

/-! ## The invariant -/

/-- The document as the parser found it: its root, the nodes that were in it, the
part of the open stack that holds them, and the first address the parser
allocates.  New nodes go under the parser's own ones and under those in `site`.
In the strict reading the old part of the stack must stay and `site` may be
small; in the lenient one that part may be popped and every old node is a
site. -/
structure DocBase where
  root : NodeId
  live : NodeId → Prop
  site : NodeId → Prop
  base : List NodeId
  first : Nat
  strict : Bool
  live_lt : ∀ x, live x → x < first
  site_live : ∀ x, site x → live x
  root_live : live root
  base_live : ∀ x ∈ base, live x
  strict_site : strict = true → ∃ c ∈ base.head?, site c
  lenient_site : strict = false → ∀ x, live x → site x

namespace DocBase

variable (b : DocBase)

/-- A node of the document: one that was there, or one the parser made. -/
def Member (x : NodeId) : Prop :=
  b.first ≤ x ∨ b.live x

/-- A node that new nodes may be put under. -/
def Site (x : NodeId) : Prop :=
  b.first ≤ x ∨ b.site x

variable {b}

theorem Site.member {x : NodeId} (h : b.Site x) : b.Member x :=
  h.imp_right (b.site_live x)

theorem root_lt : b.root < b.first := b.live_lt _ b.root_live

end DocBase

/-- What holds of the heap between two tokens. -/
structure HeapInv (b : DocBase) (d : NodeHeap) : Prop where
  wf : WellFormed d
  first : b.first ≤ d.size
  rootParent : (d.node b.root).parent = none
  reach : ∀ x < d.size, b.Member x → Below d.parentOf x b.root
  ownType : ∀ x, b.first ≤ x → x < d.size → (d.node x).type ≠ .documentFragmentNode
  ownKids : ∀ x p, (d.node x).parent = some p → b.first ≤ p → b.first ≤ x
  placed : ∀ x, b.first ≤ x → x < d.size → ∃ p, (d.node x).parent = some p ∧ b.Site p

namespace HeapInv

variable {b : DocBase} {d d' : NodeHeap} {p c x : NodeId}

theorem mirrors (h : HeapInv b d) : Mirrors d (children d) := h.wf.mirrors

theorem own_listed (h : HeapInv b d) (hx : x < d.size) (hown : b.first ≤ x)
    (hp : (d.node x).parent = some p) : x ∈ children d p :=
  (h.mirrors.listed x p hp).resolve_right fun hs => h.ownType x hown hx hs.2

/-- The content of a heap may change when its pointers do not. -/
theorem of_same_pointers (h : HeapInv b d) (hs : SamePointers d d') : HeapInv b d' := by
  constructor
  case wf => exact (hs.wellFormed h.wf).1
  case first => exact hs.size ▸ h.first
  case rootParent => exact (hs.parent _).trans h.rootParent
  case reach => exact fun x hx hmem => hs.parentOf ▸ h.reach x (hs.size ▸ hx) hmem
  case ownType => exact fun x hown hx => hs.type x ▸ h.ownType x hown (hs.size ▸ hx)
  case ownKids => exact fun x p hp => h.ownKids x p ((hs.parent x).symm.trans hp)
  case placed => exact fun x hown hx => hs.parent x ▸ h.placed x hown (hs.size ▸ hx)

theorem appendText (h : HeapInv b d) (n : NodeId) (u : Bytes) :
    HeapInv b (Dom.appendText d n u) := by
  refine h.of_same_pointers ⟨rfl, ?_, ?_, ?_, ?_, ?_, ?_, ?_⟩ <;>
    simp [Dom.appendText, field_modify]

/-- A fresh node under a member keeps the invariant, wherever it is linked. -/
theorem of_fresh (h : HeapInv b d) {kids : NodeId → List NodeId} (hm : Mirrors d' kids)
    (hsize : d'.size = d.size + 1) (hp : p < d.size) (hsite : b.Site p)
    (hparent : ∀ x, (d'.node x).parent = if x = d.size then some p else (d.node x).parent)
    (htype : ∀ x < d.size, (d'.node x).type = (d.node x).type)
    (hnew : (d'.node d.size).type ≠ .documentFragmentNode) : HeapInv b d' := by
  have hkeep : ∀ x, x ≠ d.size → d'.parentOf x = d.parentOf x := fun x hx => by
    rw [NodeHeap.parentOf, hparent, if_neg hx]
    rfl
  have hroot : b.root ≠ d.size := Nat.ne_of_lt (Nat.lt_of_lt_of_le b.root_lt h.first)
  have hold : ∀ x < d.size, b.Member x → Below d'.parentOf x b.root := by
    intro x hx hmem
    refine (h.reach x hx hmem).transfer fun s hs _ => hkeep s ?_
    rcases Relation.ReflTransGen.cases_tail hs with heq | ⟨q, -, hq⟩
    · exact heq ▸ Nat.ne_of_lt hx
    · exact Nat.ne_of_lt (h.mirrors.allocated q s hq).2
  have hnewReach : Below d'.parentOf d.size b.root :=
    Below.head ((hparent d.size).trans (if_pos rfl)) (hold p hp hsite.member)
  have hreach : ∀ x < d'.size, b.Member x → Below d'.parentOf x b.root := by
    intro x hx hmem
    by_cases hxs : x = d.size
    · exact hxs ▸ hnewReach
    · rw [hsize] at hx
      exact hold x (Nat.lt_of_le_of_ne (Nat.le_of_lt_succ hx) hxs) hmem
  constructor
  case wf =>
    have hrootParent : d'.parentOf b.root = none := (hkeep _ hroot).trans h.rootParent
    refine hm.wellFormed (h.wf.acyclic.of_reach hrootParent fun x => ?_)
    · by_cases hxs : x = d.size
      · exact .inr (hxs ▸ hnewReach)
      · exact .inl (hkeep x hxs)
  case first => exact hsize ▸ Nat.le_succ_of_le h.first
  case rootParent => exact (hkeep _ hroot).trans h.rootParent
  case reach => exact hreach
  case ownType =>
    intro x hown hx
    by_cases hxs : x = d.size
    · exact hxs ▸ hnew
    · rw [hsize] at hx
      have hlt := Nat.lt_of_le_of_ne (Nat.le_of_lt_succ hx) hxs
      rw [htype x hlt]
      exact h.ownType x hown hlt
  case ownKids =>
    intro x q hq hown
    by_cases hxs : x = d.size
    · exact hxs ▸ h.first
    · exact h.ownKids x q ((hkeep x hxs).symm.trans hq) hown
  case placed =>
    intro x hown hx
    by_cases hxs : x = d.size
    · exact ⟨p, (hparent x).trans (if_pos hxs), hsite⟩
    · rw [hsize] at hx
      obtain ⟨q, hq, hqs⟩ := h.placed x hown (Nat.lt_of_le_of_ne (Nat.le_of_lt_succ hx) hxs)
      exact ⟨q, (hkeep x hxs).trans hq, hqs⟩

/-- Allocate a node and append it. -/
theorem append_fresh (h : HeapInv b d) {m : MiniNode} (hm : m.bare = m)
    (htype : m.type ≠ .documentFragmentNode) (hp : p < d.size) (hsite : b.Site p) :
    HeapInv b (miniNodeAppendChild (d.alloc m) (some p) (some d.size)).2 ∧
    Grows d (miniNodeAppendChild (d.alloc m) (some p) (some d.size)).2 := by
  have hmir := h.mirrors.alloc hm
  have hty : ((d.alloc m).node d.size).type ≠ .documentFragmentNode := by
    rw [NodeHeap.alloc_node, if_pos rfl]
    exact htype
  have hsame : SameContent (d.alloc m)
      (linkLast (removeFromParent (d.alloc m) d.size) p d.size) :=
    (SameContent.removeFromParent _ _).trans (SameContent.linkLast _ _ _)
  rw [appendChild_eq hty]
  refine ⟨?_, (Grows.alloc d m).trans hsame.grows⟩
  refine h.of_fresh (p := p)
    (hmir.appendPlain (hmir.removable_of_type hty) (Nat.lt_succ_self _) (Nat.lt_succ_of_lt hp))
    hsame.1 hp hsite (fun x => ?_) (fun x hx => ?_) ?_
  · rw [(linkLast_node _ p d.size x).1, (removeFromParent_node _ d.size x).1]
    by_cases hx : x = d.size
    · simp [hx]
    · simp [hx, NodeHeap.alloc_node]
  · rw [hsame.type, NodeHeap.alloc_node, if_neg (Nat.ne_of_lt hx)]
  · rw [hsame.type]
    exact hty

/-- Allocate a node and insert it before a listed child. -/
theorem insert_fresh (h : HeapInv b d) {m : MiniNode} (hm : m.bare = m)
    (htype : m.type ≠ .documentFragmentNode) {ref : NodeId} (href : ref ∈ children d p)
    (hsite : b.Site p) :
    HeapInv b (miniNodeInsertBefore (d.alloc m) (some p) (some d.size) (some ref)).2 ∧
    Grows d (miniNodeInsertBefore (d.alloc m) (some p) (some d.size) (some ref)).2 := by
  have hmir := h.mirrors.alloc hm
  have hp : p < d.size := h.mirrors.parent_lt href
  have hty : ((d.alloc m).node d.size).type ≠ .documentFragmentNode := by
    rw [NodeHeap.alloc_node, if_pos rfl]
    exact htype
  have hsame : SameContent (d.alloc m)
      (linkBefore (removeFromParent (d.alloc m) d.size) p d.size ref) :=
    (SameContent.removeFromParent _ _).trans (SameContent.linkBefore _ _ _ _)
  have hne : ref ≠ d.size := Nat.ne_of_lt (h.mirrors.child_lt href)
  obtain ⟨l, r, hk⟩ := List.append_of_mem
    (WellFormed.mem_dropKid (d := d) ref p d.size hne href)
  change HeapInv b (linkBefore (removeFromParent (d.alloc m) d.size) p d.size ref) ∧ _
  refine ⟨?_, (Grows.alloc d m).trans hsame.grows⟩
  refine h.of_fresh (p := p)
    (hmir.insertPlain (hmir.removable_of_type hty) (Nat.lt_succ_self _) hk)
    hsame.1 hp hsite (fun x => ?_) (fun x hx => ?_) ?_
  · rw [(linkBefore_node _ p d.size ref x).1, (removeFromParent_node _ d.size x).1]
    by_cases hx : x = d.size
    · simp [hx]
    · simp [hx, NodeHeap.alloc_node]
  · rw [hsame.type, NodeHeap.alloc_node, if_neg (Nat.ne_of_lt hx)]
  · rw [hsame.type]
    exact hty

end HeapInv

/-! ## The invariant of the tree builder, and the steps that do not move existing nodes -/

/-- The modes that `process_token` can be in after `mini_html5_init`. -/
def H5Mode.running : H5Mode → Bool
  | .inBody | .inTable | .inTableBody | .inRow | .inCell | .afterBody | .afterAfterBody => true
  | _ => false

/-- What holds between two tokens. -/
structure TreeInv (b : DocBase) (s : TreeBuilder) : Prop where
  heap : HeapInv b s.heap
  root : s.root = b.root
  stack : ∃ own old, s.stack = own ++ old ∧ own.Nodup ∧
    (∀ x ∈ own, b.first ≤ x ∧ x < s.heap.size) ∧ old <:+ b.base ∧
    (b.strict = true → old = b.base)
  baseTags : b.strict = true → ∀ x ∈ b.base,
    tagIs (s.tag x) (ascii "html") = true ∨ tagIs (s.tag x) (ascii "body") = true
  afe : ∀ x, AFEEntry.node x ∈ s.afe → b.first ≤ x ∧ x < s.heap.size
  head : ∀ x ∈ s.headElement, b.site x
  table : ∀ x ∈ s.tableFoster, b.first ≤ x ∧ x < s.heap.size
  mode : s.mode.running = true

/-- A step of the tree builder that keeps the invariant and only adds to the
heap. -/
structure Step (b : DocBase) (s s' : TreeBuilder) : Prop where
  inv : TreeInv b s'
  grows : Grows s.heap s'.heap

namespace Step

variable {b : DocBase} {s s' s'' : TreeBuilder}

theorem refl (h : TreeInv b s) : Step b s s := ⟨h, Grows.refl _⟩

theorem trans (h : Step b s s') (h' : Step b s' s'') : Step b s s'' :=
  ⟨h'.inv, h.grows.trans h'.grows⟩

/-- Chain a step with one that the invariant in between allows. -/
theorem andThen (h : Step b s s') (h' : TreeInv b s' → Step b s' s'') : Step b s s'' :=
  h.trans (h' h.inv)

theorem ite {c : Prop} [Decidable c] (ht : c → Step b s s') (hf : ¬ c → Step b s s'') :
    Step b s (if c then s' else s'') := by
  split_ifs with hc
  · exact ht hc
  · exact hf hc

end Step

/-! ## Tags of the old part of the stack -/

theorem h5Ci_iff {a t : Bytes} : h5Ci a t = true ↔ a.map tolower = t.map tolower := by
  simp [h5Ci]

theorem tagIs_iff {a : Option Bytes} {t : Bytes} :
    tagIs a t = true ↔ ∃ u, a = some u ∧ u.map tolower = t.map tolower := by
  cases a <;> simp [tagIs, h5Ci_iff]

/-- A tag that no node of the base has. -/
def OffBase (t : Bytes) : Prop :=
  h5Ci t (ascii "html") = false ∧ h5Ci t (ascii "body") = false

theorem offBase_of_tagIn {t : Bytes} {names : List String} (h : TreeBuilder.tagIn t names = true)
    (hnames : ∀ n ∈ names, OffBase (ascii n)) : OffBase t := by
  obtain ⟨n, hn, hci⟩ := List.any_eq_true.1 h
  have hmap := h5Ci_iff.1 hci
  obtain ⟨h₁, h₂⟩ := hnames n hn
  rw [OffBase, h5Ci, h5Ci, hmap]
  exact ⟨h₁, h₂⟩

namespace TreeInv

variable {b : DocBase} {s : TreeBuilder}

theorem base_not_tag (h : TreeInv b s) (hs : b.strict = true) {x : NodeId} (hx : x ∈ b.base)
    {t : Bytes} (ht : OffBase t) : tagIs (s.tag x) t = false := by
  rw [Bool.eq_false_iff]
  intro htag
  obtain ⟨u, hu, hut⟩ := tagIs_iff.1 htag
  rcases h.baseTags hs x hx with hb | hb
  · obtain ⟨v, hv, hvt⟩ := tagIs_iff.1 hb
    obtain rfl : u = v := Option.some.inj (hu.symm.trans hv)
    exact absurd (h5Ci_iff.2 (hut.symm.trans hvt)) (by rw [ht.1]; simp)
  · obtain ⟨v, hv, hvt⟩ := tagIs_iff.1 hb
    obtain rfl : u = v := Option.some.inj (hu.symm.trans hv)
    exact absurd (h5Ci_iff.2 (hut.symm.trans hvt)) (by rw [ht.2]; simp)

theorem base_not_implied (h : TreeInv b s) (hs : b.strict = true) {x : NodeId}
    (hx : x ∈ b.base) (except : Option Bytes) : s.impliedEnd except x = false := by
  have himp : (s.tag x).any isImpliedEnd = false := by
    have hoff : ∀ e ∈ impliedEndTags, OffBase e := by
      simp only [OffBase]
      decide
    cases ht : s.tag x with
    | none => rfl
    | some u =>
      simp only [Option.any_some, isImpliedEnd, List.any_eq_false, Bool.not_eq_true]
      intro e he
      have := h.base_not_tag hs hx (hoff e he)
      simpa [ht, tagIs] using this
  simp [TreeBuilder.impliedEnd, himp]

/-! ## Popping -/

/-- The stack may lose its top as long as, in the strict reading, the base stays. -/
theorem pop (h : TreeInv b s) {stack : List NodeId} (hsuf : stack <:+ s.stack)
    (hbase : b.strict = true → b.base <:+ stack) : Step b s { s with stack := stack } := by
  refine ⟨{ h with stack := ?_ }, Grows.refl _⟩
  obtain ⟨own, old, heq, hnodup, hown, hold, hstrict⟩ := h.stack
  by_cases hs : b.strict = true
  · obtain rfl := hstrict hs
    obtain ⟨own', rfl⟩ := hbase hs
    rw [heq] at hsuf
    have hsuf' : own' <:+ own := List.suffix_append_self_iff.1 hsuf
    exact ⟨own', b.base, rfl, hnodup.sublist hsuf'.sublist,
      fun x hx => hown x (hsuf'.subset hx), List.suffix_rfl, fun _ => rfl⟩
  · rw [heq] at hsuf
    obtain ⟨t, ht⟩ := hsuf
    rcases List.append_eq_append_iff.1 ht with ⟨own', rfl, rfl⟩ | ⟨t', rfl, rfl⟩
    · have hsuf' : own' <:+ t ++ own' := List.suffix_append t own'
      exact ⟨own', old, rfl, hnodup.sublist hsuf'.sublist, fun x hx => hown x (hsuf'.subset hx),
        hold, fun hs' => absurd hs' hs⟩
    · exact ⟨[], stack, rfl, List.nodup_nil, fun x hx => absurd hx List.not_mem_nil,
        (List.suffix_append t' stack).trans hold, fun hs' => absurd hs' hs⟩

/-- In the strict reading the stack is the parser's own nodes over the base. -/
theorem exists_own (h : TreeInv b s) (hs : b.strict = true) :
    ∃ own, s.stack = own ++ b.base := by
  obtain ⟨own, old, heq, -, -, -, hstrict⟩ := h.stack
  exact ⟨own, hstrict hs ▸ heq⟩

theorem suffix_dropWhile {own base : List NodeId} {f : NodeId → Bool}
    (hf : ∀ x ∈ base, f x = false) : base <:+ (own ++ base).dropWhile f := by
  induction own with
  | nil =>
    cases base with
    | nil => exact List.nil_suffix
    | cons c rest => simp [hf c]
  | cons x own ih =>
    rw [List.cons_append, List.dropWhile_cons]
    split_ifs
    · exact ih
    · exact List.suffix_append (x :: own) base

theorem suffix_popLoop {own base : List NodeId} {stop : NodeId → Bool}
    (hstop : ∃ x ∈ own ++ base, stop x = true) (hbase : ∀ x ∈ base, stop x = false) :
    base <:+ ((own ++ base).dropWhile fun n => !stop n).tail := by
  induction own with
  | nil =>
    obtain ⟨x, hx, hst⟩ := hstop
    rw [hbase x (by simpa using hx)] at hst
    cases hst
  | cons y own ih =>
    rw [List.cons_append, List.dropWhile_cons]
    by_cases hy : stop y = true
    · simp [hy]
    · obtain ⟨x, hx, hst⟩ := hstop
      rcases List.mem_cons.1 hx with rfl | hx
      · exact absurd hst hy
      · simpa [hy] using ih ⟨x, hx, hst⟩

/-- A pop loop that finds its stop above the base keeps the base. -/
theorem popLoop (h : TreeInv b s) {stop : NodeId → Bool}
    (hstop : b.strict = true → (∃ x ∈ s.stack, stop x = true) ∧
      ∀ x ∈ b.base, stop x = false) : Step b s (s.popLoop stop) := by
  refine h.pop ?_ fun hs => ?_
  · exact (List.tail_suffix _).trans (List.dropWhile_suffix _)
  · obtain ⟨own, heq⟩ := h.exists_own hs
    obtain ⟨hex, hbase⟩ := hstop hs
    rw [heq] at hex ⊢
    exact suffix_popLoop hex hbase

theorem popUntil (h : TreeInv b s) {t : Bytes} (ht : OffBase t) : Step b s (s.popUntil t) := by
  refine Step.ite (fun hany => h.popLoop fun hs => ⟨?_, fun x hx => ?_⟩) fun _ => Step.refl h
  · exact List.any_eq_true.1 hany
  · exact h.base_not_tag hs hx ht

theorem popUntilOne (h : TreeInv b s) {t₁ t₂ t₃ : Bytes} (h₁ : OffBase t₁) (h₂ : OffBase t₂)
    (h₃ : OffBase t₃) : Step b s (s.popUntilOne t₁ t₂ t₃) := by
  unfold TreeBuilder.popUntilOne
  split
  · rename_i n hn
    refine h.popLoop fun hs => ⟨⟨n, List.mem_of_find?_eq_some hn, by simp⟩, fun x hx => ?_⟩
    have htag := List.find?_some hn
    rw [beq_eq_false_iff_ne]
    rintro rfl
    simp [h.base_not_tag hs hx h₁, h.base_not_tag hs hx h₂, h.base_not_tag hs hx h₃] at htag
  · exact Step.refl h

theorem genImpliedEnd (h : TreeInv b s) (except : Option Bytes) :
    Step b s (s.genImpliedEnd except) := by
  refine h.pop (List.dropWhile_suffix _) fun hs => ?_
  obtain ⟨own, heq⟩ := h.exists_own hs
  rw [heq]
  exact suffix_dropWhile fun x hx => h.base_not_implied hs hx except

theorem closePIfOpen (h : TreeInv b s) : Step b s s.closePIfOpen := by
  have hp : OffBase (ascii "p") := by simp only [OffBase]; decide
  exact (h.genImpliedEnd none).andThen fun h' =>
    Step.ite (fun _ => h'.popUntil hp) fun _ => Step.refl h'

/-! ## Adding nodes -/

theorem stack_lt (h : TreeInv b s) {x : NodeId} (hx : x ∈ s.stack) :
    b.Member x ∧ x < s.heap.size := by
  obtain ⟨own, old, heq, -, hown, hold, -⟩ := h.stack
  rw [heq] at hx
  rcases List.mem_append.1 hx with hx | hx
  · exact ⟨.inl (hown x hx).1, (hown x hx).2⟩
  · have hlive := b.base_live x (hold.subset hx)
    exact ⟨.inr hlive, Nat.lt_of_lt_of_le (b.live_lt x hlive) h.heap.first⟩

/-- The node in front of a tail of the stack is a site, and so is the root below
an empty one. -/
theorem site_of_stack_tail (h : TreeInv b s) {tail : List NodeId} (htail : tail <:+ s.stack)
    (hbase : b.strict = true → b.base <:+ tail) : b.Site (tail.head?.getD s.root) := by
  obtain ⟨hinv, -⟩ := h.pop htail hbase
  obtain ⟨own, old, heq, -, hown, hold, hstrict⟩ := hinv.stack
  dsimp only at heq
  subst heq
  cases own with
  | cons x own => exact .inl (hown x List.mem_cons_self).1
  | nil =>
    cases hs : b.strict with
    | true =>
      obtain ⟨c, hc, hsite⟩ := b.strict_site hs
      rw [List.nil_append, hstrict hs, Option.mem_def.1 hc]
      exact .inr hsite
    | false =>
      refine .inr (b.lenient_site hs _ ?_)
      cases old with
      | nil => exact h.root.symm ▸ b.root_live
      | cons y old => exact b.base_live y (hold.subset List.mem_cons_self)

theorem currentNode_site (h : TreeInv b s) : b.Site s.currentNode :=
  h.site_of_stack_tail List.suffix_rfl fun hs => by
    obtain ⟨own, heq⟩ := h.exists_own hs
    exact heq ▸ List.suffix_append _ _

theorem site_lt (h : TreeInv b s) {p : NodeId} (hp : b.site p) : p < s.heap.size :=
  Nat.lt_of_lt_of_le (b.live_lt p (b.site_live p hp)) h.heap.first

theorem currentNode_lt (h : TreeInv b s) : s.currentNode < s.heap.size := by
  unfold TreeBuilder.currentNode
  cases hs : s.stack with
  | nil => exact h.root.symm ▸ Nat.lt_of_lt_of_le b.root_lt h.heap.first
  | cons x rest => exact (h.stack_lt (x := x) (by simp [hs])).2

/-- The parser's pointers stay good in a heap that has grown. -/
theorem grow (h : TreeInv b s) {d : NodeHeap} (hheap : HeapInv b d) (hg : Grows s.heap d) :
    Step b s { s with heap := d } := by
  have hlt : ∀ {x}, x < s.heap.size → x < d.size := fun hx => Nat.lt_of_lt_of_le hx hg.size
  refine ⟨?_, hg⟩
  constructor
  case heap => exact hheap
  case root => exact h.root
  case stack =>
    obtain ⟨own, old, heq, hnodup, hown, hold⟩ := h.stack
    exact ⟨own, old, heq, hnodup, fun x hx => ⟨(hown x hx).1, hlt (hown x hx).2⟩, hold⟩
  case baseTags =>
    intro hs x hx
    have hxlt := Nat.lt_of_lt_of_le (b.live_lt x (b.base_live x hx)) h.heap.first
    have htag : ({ s with heap := d } : TreeBuilder).tag x = s.tag x := hg.tag x hxlt
    rw [htag]
    exact h.baseTags hs x hx
  case afe => exact fun x hx => ⟨(h.afe x hx).1, hlt (h.afe x hx).2⟩
  case head => exact h.head
  case table => exact fun x hx => ⟨(h.table x hx).1, hlt (h.table x hx).2⟩
  case mode => exact h.mode

/-- Push one of the parser's nodes that is not open yet. -/
theorem push (h : TreeInv b s) {n : NodeId} (hown : b.first ≤ n) (hlt : n < s.heap.size)
    (hnew : n ∉ s.stack) : Step b s (s.openPush n) := by
  refine ⟨{ h with stack := ?_ }, Grows.refl _⟩
  obtain ⟨own, old, heq, hnodup, hown', hold⟩ := h.stack
  rw [heq, List.mem_append, not_or] at hnew
  refine ⟨n :: own, old, by simp [TreeBuilder.openPush, heq],
    List.nodup_cons.2 ⟨hnew.1, hnodup⟩, fun x hx => ?_, hold⟩
  rcases List.mem_cons.1 hx with rfl | hx
  · exact ⟨hown, hlt⟩
  · exact hown' x hx

theorem afePush (h : TreeInv b s) {e : AFEEntry}
    (he : ∀ x, e = .node x → b.first ≤ x ∧ x < s.heap.size) : Step b s (s.afePush e) := by
  refine ⟨{ h with afe := fun x hx => ?_ }, Grows.refl _⟩
  rcases List.mem_append.1 hx with hx | hx
  · exact h.afe x hx
  · exact he x (List.mem_singleton.1 hx).symm

theorem afeRemove (h : TreeInv b s) (n : NodeId) : Step b s (s.afeRemove n) := by
  unfold TreeBuilder.afeRemove
  split
  · exact ⟨{ h with afe := fun x hx => h.afe x (List.mem_of_mem_eraseIdx hx) }, Grows.refl _⟩
  · exact Step.refl h

theorem setAfe (h : TreeInv b s) (i : Nat) {n : NodeId} (hown : b.first ≤ n)
    (hlt : n < s.heap.size) : Step b s { s with afe := s.afe.set i (.node n) } := by
  refine ⟨{ h with afe := fun x hx => ?_ }, Grows.refl _⟩
  rcases List.mem_or_eq_of_mem_set hx with hx | hx
  · exact h.afe x hx
  · cases hx
    exact ⟨hown, hlt⟩

theorem setMode (h : TreeInv b s) {m : H5Mode} (hm : m.running = true) :
    Step b s { s with mode := m } :=
  ⟨{ h with mode := hm }, Grows.refl _⟩

theorem setPending (h : TreeInv b s) (t : Option NodeId) :
    Step b s { s with pendingTextTail := t } :=
  ⟨{ h with }, Grows.refl _⟩

/-! ## Fresh nodes -/

/-- A fresh node that the parser may put into the tree. -/
structure Plain (m : MiniNode) : Prop where
  bare : m.bare = m
  type : m.type ≠ .documentFragmentNode

/-- Append a fresh node to a site, without or with pushing it. -/
theorem appendFresh (h : TreeInv b s) {m : MiniNode} (hm : Plain m) {p : NodeId}
    (hsite : b.Site p) (hp : p < s.heap.size) :
    Step b s (({ s with heap := s.heap.alloc m } : TreeBuilder).appendChild p s.heap.size) :=
  let ⟨hheap, hg⟩ := h.heap.append_fresh hm.bare hm.type hp hsite
  h.grow hheap hg

theorem size_appendChild_alloc {d : NodeHeap} {m : MiniNode} (hm : Plain m) (p : NodeId) :
    (miniNodeAppendChild (d.alloc m) (some p) (some d.size)).2.size = d.size + 1 := by
  rw [appendChild_eq (by rw [NodeHeap.alloc_node, if_pos rfl]; exact hm.type)]
  simp

theorem appendPushFresh (h : TreeInv b s) {m : MiniNode} (hm : Plain m) {p : NodeId}
    (hsite : b.Site p) (hp : p < s.heap.size) :
    Step b s ((({ s with heap := s.heap.alloc m } : TreeBuilder).appendChild p
      s.heap.size).openPush s.heap.size) := by
  refine (h.appendFresh hm hsite hp).andThen fun h' => h'.push h.heap.first ?_ fun hmem => ?_
  · exact (size_appendChild_alloc hm p).symm ▸ Nat.lt_succ_self _
  · exact Nat.lt_irrefl _ (h.stack_lt hmem).2

/-- The record of an element made for a token. -/
def elementFor (t : H5Token) : MiniNode where
  type := .elementNode
  tag := some ((t.name.take 47).map tolower)
  attrs := t.attrs.foldl (fun as a => setAttr as a.1 a.2) []

theorem plain_elementFor (t : H5Token) : Plain (elementFor t) :=
  ⟨rfl, by simp [elementFor]⟩

theorem createElementForToken_eq (s : TreeBuilder) (t : H5Token) :
    s.createElementForToken t =
      (s.heap.size, { s with heap := s.heap.alloc (elementFor t) }) := by
  unfold TreeBuilder.createElementForToken miniNodeCreateElement
  dsimp only
  rw [setAttributes_alloc]
  rfl

theorem appendAndPush (h : TreeInv b s) (t : H5Token) : Step b s (s.appendAndPush t) := by
  unfold TreeBuilder.appendAndPush
  rw [createElementForToken_eq]
  exact h.appendPushFresh (plain_elementFor t) h.currentNode_site h.currentNode_lt

/-- Create an element, then `insert_element` it at the current node. -/
theorem insertElementFor (h : TreeInv b s) (t : H5Token) :
    Step b s (({ s with heap := s.heap.alloc (elementFor t) } : TreeBuilder).insertElement
      s.currentNode s.heap.size) :=
  (h.appendPushFresh (plain_elementFor t) h.currentNode_site h.currentNode_lt).andThen
    fun h' => h'.setPending none

/-! ## Foster parenting and text -/

/-- The table for foster parenting is listed by its parent, a site. -/
theorem table_parent (h : TreeInv b s) {table : NodeId} (ht : s.tableFoster = some table) :
    ∃ q, (s.heap.node table).parent = some q ∧ table ∈ children s.heap q ∧ b.Site q := by
  obtain ⟨hown, hlt⟩ := h.table table ht
  obtain ⟨q, hq, hsite⟩ := h.heap.placed table hown hlt
  exact ⟨q, hq, h.heap.own_listed hlt hown hq, hsite⟩

theorem insertFresh (h : TreeInv b s) {m : MiniNode} (hm : Plain m) {p ref : NodeId}
    (href : ref ∈ children s.heap p) (hsite : b.Site p) :
    Step b s { s with heap :=
      (miniNodeInsertBefore (s.heap.alloc m) (some p) (some s.heap.size) (some ref)).2 } :=
  let ⟨hheap, hg⟩ := h.heap.insert_fresh hm.bare hm.type href hsite
  h.grow hheap hg

theorem size_insertBefore_alloc (d : NodeHeap) (m : MiniNode) (p ref : NodeId) :
    (miniNodeInsertBefore (d.alloc m) (some p) (some d.size) (some ref)).2.size = d.size + 1 := by
  simp [miniNodeInsertBefore]

/-- `foster_insert` of a fresh element. -/
theorem fosterInsert (h : TreeInv b s) (t : H5Token) :
    Step b s (({ s with heap := s.heap.alloc (elementFor t) } : TreeBuilder).fosterInsert
      s.heap.size) := by
  unfold TreeBuilder.fosterInsert
  split
  · rename_i table ht
    obtain ⟨q, hq, hlisted, hsite⟩ := h.table_parent ht
    have hq' : ((s.heap.alloc (elementFor t)).node table).parent = some q := by
      rw [NodeHeap.alloc_node, if_neg (Nat.ne_of_lt (h.table table ht).2), hq]
    have hrc : (miniNodeInsertBefore (s.heap.alloc (elementFor t)) (some q)
        (some s.heap.size) (some table)).1 = 0 := rfl
    simp only [hq', hrc, if_true]
    refine (h.insertFresh (plain_elementFor t) hlisted hsite).andThen fun h' => ?_
    refine (h'.push h.heap.first ?_ fun hmem => ?_).andThen fun h'' => h''.setPending none
    · exact (size_insertBefore_alloc s.heap (elementFor t) q table).symm ▸ Nat.lt_succ_self _
    · exact Nat.lt_irrefl _ (h.stack_lt hmem).2
  · exact h.insertElementFor t

theorem growText (h : TreeInv b s) (n : NodeId) (u : Bytes) :
    Step b s { s with heap := appendText s.heap n u } :=
  h.grow (h.heap.appendText n u) (Grows.appendText s.heap n u)

theorem plain_text (u : Bytes) : Plain { type := .textNode, text := some u } :=
  ⟨rfl, by simp⟩

theorem fosterChar (h : TreeInv b s) {table : NodeId} (ht : s.tableFoster = some table)
    (u : Bytes) : Step b s (s.fosterChar table s.currentNode u) := by
  unfold TreeBuilder.fosterChar
  obtain ⟨q, hq, hlisted, hsite⟩ := h.table_parent ht
  dsimp only
  split
  · exact h.growText _ u
  · rw [hq]
    exact (h.insertFresh (plain_text u) hlisted hsite).andThen fun h' => h'.setPending _

theorem tailChar (h : TreeInv b s) {p : NodeId} (hsite : b.Site p) (hp : p < s.heap.size)
    (u : Bytes) : Step b s (s.tailChar p u) := by
  unfold TreeBuilder.tailChar
  split
  · exact h.growText _ u
  · exact (h.appendFresh (plain_text u) hsite hp).andThen fun h' => h'.setPending _

/-- `insert_char` keeps the invariant. -/
theorem insertChar (h : TreeInv b s) (u : Bytes) : Step b s (s.insertChar u) := by
  have htail := h.tailChar h.currentNode_site h.currentNode_lt u
  refine Step.ite (fun _ => Step.refl h) fun _ => Step.ite (fun _ => h.growText _ u) fun _ => ?_
  split
  · rename_i table ht
    exact Step.ite (fun _ => Step.ite (fun _ => Step.refl h) fun _ => h.fosterChar ht u)
      fun _ => htail
  · exact htail

theorem insertComment (h : TreeInv b s) (data : Bytes) :
    Step b s (s.insertComment s.currentNode data) :=
  (h.appendFresh (m := { type := .commentNode, text := some data }) ⟨rfl, by simp⟩
    h.currentNode_site h.currentNode_lt).andThen fun h' => h'.setPending none

/-! ## Reconstruction -/

/-- The record of a shallow clone. -/
def cloneOf (n : MiniNode) : MiniNode where
  type := n.type
  tag := n.tag
  text := n.text
  attrs := n.attrs

theorem plain_cloneOf (h : TreeInv b s) {n : NodeId} (hown : b.first ≤ n)
    (hlt : n < s.heap.size) : Plain (cloneOf (s.heap.node n)) :=
  ⟨rfl, h.heap.ownType n hown hlt⟩

theorem reconstructLoop (h : TreeInv b s) (fuel i : Nat) :
    Step b s (TreeBuilder.reconstructLoop fuel s i) := by
  induction fuel generalizing s i with
  | zero => exact Step.refl h
  | succ fuel ih =>
    unfold TreeBuilder.reconstructLoop
    split
    · exact Step.refl h
    · exact ih h (i + 1)
    · rename_i orig horig
      obtain ⟨hown, hlt⟩ := h.afe orig (List.mem_of_getElem? horig)
      have hclone := h.plain_cloneOf hown hlt
      refine (h.appendPushFresh hclone h.currentNode_site h.currentNode_lt).andThen fun h' => ?_
      refine (h'.setAfe i h.heap.first ?_).andThen fun h'' => ih h'' (i + 1)
      exact (size_appendChild_alloc hclone _).symm ▸ Nat.lt_succ_self _

theorem reconstructActiveFormatting (h : TreeInv b s) :
    Step b s s.reconstructActiveFormatting := by
  unfold TreeBuilder.reconstructActiveFormatting
  split
  · exact Step.refl h
  · exact Step.ite (fun _ => Step.refl h) fun _ => h.reconstructLoop _ _

end TreeInv

end TinyFramework.Html5
