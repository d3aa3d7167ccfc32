/-
  Dom/FragmentRun.lean --- the small parser on the markup of a whole tree.

  The parser hangs every node under the innermost element of its stack, so what it
  builds is known from the names on the stack alone: `Content.parsed` gives the nodes in
  document order, each with the depth it is hung at.  A child list shows a tree when its
  outline has the depths and the content of the tree.
-/
import TinyFramework.Foundation.Outline
import TinyFramework.Dom.FragmentSteps

set_option autoImplicit false

namespace TinyFramework.Dom

open TinyFramework.Foundation

/-! ## Trees that are serialized -/

namespace Content

def isText : Content → Bool
  | text _ _ => true
  | _ => false

/-- The trees of the round trip: names and attributes that come through, each attribute
once, and text that is not empty and not next to text. -/
def Valid : Content → Prop
  | nil => True
  | text s rest => s ≠ [] ∧ rest.isText = false ∧ rest.Valid
  | void tag attrs rest => TagName tag ∧ Html5.isVoid tag = true ∧ (∀ a ∈ attrs, AttrOk a) ∧
      (attrs.map (·.1)).Nodup ∧ rest.Valid
  | elem tag attrs kids rest => TagName tag ∧ Html5.isVoid tag = false ∧
      (∀ a ∈ attrs, AttrOk a) ∧ (attrs.map (·.1)).Nodup ∧ kids.Valid ∧ rest.Valid

theorem Valid.tagged {t : Content} (h : t.Valid) : t.Tagged := by
  induction t with
  | nil => trivial
  | text s rest ih => exact ih h.2.2
  | void tag attrs rest ih => exact ⟨h.2.1, ih h.2.2.2.2⟩
  | elem tag attrs kids rest ihkids ihrest => exact ⟨h.2.1, ihkids h.2.2.2.2.1, ihrest h.2.2.2.2.2⟩

/-- What follows a text starts with `<`, or there is nothing. -/
theorem render_head {t : Content} (ht : t.isText = false) {tail : Bytes}
    (htail : tail = [] ∨ tail.head? = some 60) :
    t.render ++ tail = [] ∨ (t.render ++ tail).head? = some 60 := by
  cases t with
  | nil => exact htail
  | text s rest => cases ht
  | void tag attrs rest => exact .inr rfl
  | elem tag attrs kids rest => exact .inr rfl

end Content

/-! ## Outlines with content -/

/-- What a node is, without its place; an element may have a text of its own. -/
inductive Label where
  | text (s : Bytes)
  | elem (tag : Bytes) (attrs : List (Bytes × Bytes)) (own : Option Bytes)
  | other
  deriving DecidableEq

def MiniNode.label (n : MiniNode) : Label :=
  match n.type with
  | .textNode => .text (n.text.getD [])
  | .elementNode => .elem (n.tag.getD []) n.attrs n.text
  | _ => .other

theorem MiniNode.label_bare (n : MiniNode) : n.bare.label = n.label := rfl

/-- The nodes of a tree in document order, each with its depth and the attributes that
the parser stores. -/
def Content.flat : Content → Nat → List (Nat × Label)
  | .nil, _ => []
  | .text s rest, k => (k, .text s) :: rest.flat k
  | .void tag attrs rest, k => (k, .elem tag (setAll attrs) none) :: rest.flat k
  | .elem tag attrs kids rest, k =>
      (k, .elem tag (setAll attrs) none) :: (kids.flat (k + 1) ++ rest.flat k)

/-! ## The stack of tags -/

/-- A start tag. -/
def pushTag (tag : Bytes) (s : List Bytes) : List Bytes :=
  if s.length + 1 < 64 then tag :: s else s

/-- An end tag. -/
def popTag (tag : Bytes) (s : List Bytes) : List Bytes :=
  if Html5.elementIsRawtext tag then s
  else
    match s with
    | top :: s' => if top = tag then s' else s
    | [] => []

/-- What the parser makes of the markup of a tree, from a stack on: the nodes in
document order with their depths, and the stack after. -/
def Content.parsed : Content → List Bytes → List (Nat × Label) × List Bytes
  | .nil, s => ([], s)
  | .text b rest, s => ((s.length, .text b) :: (rest.parsed s).1, (rest.parsed s).2)
  | .void tag attrs rest, s =>
      ((s.length, .elem tag (setAll attrs) none) :: (rest.parsed s).1, (rest.parsed s).2)
  | .elem tag attrs kids rest, s =>
      let inner := kids.parsed (pushTag tag s)
      let after := rest.parsed (popTag tag inner.2)
      ((s.length, .elem tag (setAll attrs) none) :: (inner.1 ++ after.1), after.2)

/-! ## The parser against the stack of tags -/

/-- The parser has built `out` below `root` and has the elements `s` open. -/
structure Building (root : NodeId) (f : Fragment) (s : List Bytes) (out : List (Nat × Label)) :
    Prop where
  wellFormed : WellFormed f.heap
  root_lt : root < f.heap.size
  stack : ∃ ids, f.stack = ids ++ [root] ∧
    ids.map (fun x => (f.heap.node x).tag) = s.map some
  spine : Spine (children f.heap) f.stack
  nodup : f.stack.Nodup
  outline : ∃ o, Outline (children f.heap) 0 (children f.heap root) o ∧
    (root :: o.map (·.2)).Nodup ∧ (∀ x ∈ o.map (·.2), x < f.heap.size) ∧
    o.map (fun e => (e.1, (f.heap.node e.2).label)) = out

namespace Building

variable {root : NodeId} {f : Fragment} {s : List Bytes} {out : List (Nat × Label)}
  {m : MiniNode}

theorem stack_lt (h : Building root f s out) : ∀ x ∈ f.stack, x < f.heap.size := by
  obtain ⟨ids, hstack, -⟩ := h.stack
  obtain ⟨o, ho, -, hlt, -⟩ := h.outline
  have hspine := h.spine
  rw [hstack] at hspine ⊢
  intro x hx
  rcases List.mem_append.1 hx with hx | hx
  · exact hlt x (hspine.mem ho x hx)
  · exact List.mem_singleton.1 hx ▸ h.root_lt

/-- A new leaf under the innermost open element. -/
theorem hang (h : Building root f s out) (hm : m.bare = m)
    (htype : m.type ≠ .documentFragmentNode) (rest : Bytes) :
    Building root { f with heap := f.hang m, rest := rest } s (out ++ [(s.length, m.label)]) ∧
      ∀ tag, m.tag = some tag → Building root
        { heap := f.hang m, stack := f.heap.size :: f.stack, rest := rest } (tag :: s)
        (out ++ [(s.length, m.label)]) := by
  obtain ⟨ids, hstack, htags⟩ := h.stack
  obtain ⟨o, ho, hnodup, hlt, hlabels⟩ := h.outline
  have hstacklt := h.stack_lt
  obtain ⟨p, hp⟩ : ∃ p, f.stack.head? = some p := by
    rw [hstack]
    cases ids <;> exact ⟨_, rfl⟩
  have hhang : HangsFresh f.heap (f.hang m) m p (children f.heap p ++ [f.heap.size]) := by
    rw [Fragment.hang, hp]
    exact h.wellFormed.append_fresh hm htype (hstacklt p (List.mem_of_head? hp))
  have hkids : children (f.hang m) = hangLast (children f.heap) p f.heap.size := hhang.children
  have hleaf : children f.heap f.heap.size = [] :=
    h.wellFormed.mirrors.kids_of_unallocated (Nat.le_refl _)
  have hold : ∀ x < f.heap.size, ((f.hang m).node x).bare = (f.heap.node x).bare := fun x hx => by
    rw [hhang.bare, if_neg (Nat.ne_of_lt hx)]
  have hnew : ((f.hang m).node f.heap.size).bare = m.bare := by
    rw [hhang.bare, if_pos rfl]
  have hsize : (f.hang m).size = f.heap.size + 1 := hhang.size
  have hfresh : f.heap.size ∉ root :: o.map (·.2) := by
    intro hmem
    rcases List.mem_cons.1 hmem with heq | hmem
    · exact Nat.lt_irrefl _ (heq ▸ h.root_lt)
    · exact Nat.lt_irrefl _ (hlt _ hmem)
  have hlen : ids.length = s.length := by
    simpa using congrArg List.length htags
  have htags' : ids.map (fun x => ((f.hang m).node x).tag) = s.map some := by
    rw [← htags]
    refine List.map_congr_left fun x hx => ?_
    refine field_of_bare MiniNode.tag (hold x (hstacklt x ?_)) fun _ => rfl
    rw [hstack]
    exact List.mem_append_left _ hx
  have hspine : Spine (children f.heap) (ids ++ [root]) := hstack ▸ h.spine
  have hout : ∃ o', Outline (children (f.hang m)) 0 (children (f.hang m) root) o' ∧
      (root :: o'.map (·.2)).Nodup ∧ (∀ x ∈ o'.map (·.2), x < (f.hang m).size) ∧
      o'.map (fun e => (e.1, ((f.hang m).node e.2).label)) = out ++ [(s.length, m.label)] := by
    refine ⟨o ++ [(s.length, f.heap.size)], ?_, ?_, ?_, ?_⟩
    · rw [hkids, ← hlen, ← Nat.zero_add ids.length]
      exact Outline.hang hspine (hstack ▸ hp) ho hnodup hfresh hleaf
    · rw [List.map_append, ← List.cons_append]
      exact List.nodup_append.2 ⟨hnodup, List.nodup_singleton _, fun x hx y hy heq =>
        hfresh (show f.heap.size ∈ _ from (heq.trans (List.mem_singleton.1 hy) : x = f.heap.size) ▸ hx)⟩
    · intro x hx
      rw [List.map_append, List.mem_append] at hx
      rw [hsize]
      rcases hx with hx | hx
      · exact Nat.lt_succ_of_lt (hlt x hx)
      · exact List.mem_singleton.1 hx ▸ Nat.lt_succ_self _
    · rw [List.map_append, ← hlabels]
      refine congrArg₂ _ (List.map_congr_left fun e he => ?_) ?_
      · rw [← MiniNode.label_bare, hold e.2 (hlt e.2 (List.mem_map.2 ⟨e, he, rfl⟩)),
          MiniNode.label_bare]
      · rw [List.map_singleton, ← MiniNode.label_bare, hnew, MiniNode.label_bare]
  have hspines := Spine.hang (m := f.heap.size) h.spine hp h.nodup
  refine ⟨⟨hhang.wellFormed, ?_, ⟨ids, hstack, htags'⟩, hkids ▸ hspines.1, h.nodup, hout⟩,
    fun tag htag => ⟨hhang.wellFormed, ?_, ?_, hkids ▸ hspines.2, ?_, hout⟩⟩
  · rw [hsize]
    exact Nat.lt_succ_of_lt h.root_lt
  · rw [hsize]
    exact Nat.lt_succ_of_lt h.root_lt
  · refine ⟨f.heap.size :: ids, by rw [hstack]; rfl, ?_⟩
    rw [List.map_cons, List.map_cons, htags',
      field_of_bare MiniNode.tag hnew fun _ => rfl, htag]
  · exact List.nodup_cons.2 ⟨fun hmem => Nat.lt_irrefl _ (hstacklt _ hmem), h.nodup⟩

theorem rest (h : Building root f s out) (rest : Bytes) :
    Building root { f with rest := rest } s out :=
  ⟨h.wellFormed, h.root_lt, h.stack, h.spine, h.nodup, h.outline⟩

/-- The innermost open element is closed. -/
theorem pop {tag : Bytes} (h : Building root f (tag :: s) out) :
    Building root { f with stack := f.stack.tail } s out := by
  obtain ⟨ids, hstack, htags⟩ := h.stack
  obtain ⟨x, ids, rfl⟩ : ∃ x ids', ids = x :: ids' := by
    cases ids with
    | nil => cases htags
    | cons x ids => exact ⟨x, ids, rfl⟩
  have hspine := h.spine
  have hnodup := h.nodup
  rw [hstack] at hspine hnodup
  refine ⟨h.wellFormed, h.root_lt, ⟨ids, by simp [hstack], (List.cons.inj htags).2⟩, ?_, ?_,
    h.outline⟩
  · rw [hstack]
    exact List.IsChain.tail hspine
  · rw [hstack]
    exact (List.nodup_cons.1 hnodup).2

/-- The stack after an end tag: its innermost element goes when it has the name. -/
theorem closed_eq (h : Building root f s out) (tag : Bytes) :
    f.closed tag = if Html5.elementIsRawtext tag = false ∧ s.head? = some tag then f.stack.tail
      else f.stack := by
  obtain ⟨ids, hstack, htags⟩ := h.stack
  unfold Fragment.closed
  cases hraw : Html5.elementIsRawtext tag with
  | true => simp
  | false =>
    cases ids with
    | nil =>
      have hs : s = [] := by simpa using htags
      simp [hstack, hs]
    | cons x ids =>
      obtain ⟨t, s, rfl⟩ : ∃ t s', s = t :: s' := by
        cases s with
        | nil => cases htags
        | cons t s => exact ⟨t, s, rfl⟩
      obtain ⟨y, l, hyl⟩ : ∃ y l, ids ++ [root] = y :: l := by
        cases ids <;> exact ⟨_, _, rfl⟩
      have htop : (f.heap.node x).tag = some t := (List.cons.inj htags).1
      rw [List.cons_append, hyl] at hstack
      simp [hstack, htop]

/-- An end tag. -/
theorem close (h : Building root f s out) (tag rest : Bytes) :
    Building root { f with stack := f.closed tag, rest := rest } (popTag tag s) out := by
  rw [h.closed_eq]
  unfold popTag
  cases hraw : Html5.elementIsRawtext tag with
  | true => simpa using h.rest rest
  | false =>
    cases s with
    | nil => simpa using h.rest rest
    | cons t s =>
      by_cases htop : t = tag
      · simpa [htop] using h.pop.rest rest
      · simpa [htop] using h.rest rest

end Building

/-! ## Running the parser -/

namespace Fragment

/-- The loop comes from `f` to `f'`, with as much of its bound left as it needs. -/
def Runs (f f' : Fragment) : Prop :=
  ∀ fuel, f.rest.length ≤ fuel →
    ∃ fuel', f'.rest.length ≤ fuel' ∧ loop fuel f = loop fuel' f'

namespace Runs

variable {f f' f'' : Fragment}

theorem refl (f : Fragment) : f.Runs f := fun fuel hfuel => ⟨fuel, hfuel, rfl⟩

theorem trans (h : f.Runs f') (h' : f'.Runs f'') : f.Runs f'' := by
  intro fuel hfuel
  obtain ⟨k, hk, heq⟩ := h fuel hfuel
  obtain ⟨k', hk', heq'⟩ := h' k hk
  exact ⟨k', hk', heq.trans heq'⟩

theorem step (hstep : f.step = f') (hlt : f'.rest.length < f.rest.length) : f.Runs f' := by
  intro fuel hfuel
  obtain ⟨k, rfl⟩ := Nat.exists_eq_succ_of_ne_zero (show fuel ≠ 0 by omega)
  refine ⟨k, by omega, ?_⟩
  have hne : f.rest ≠ [] := by
    intro hnil
    simp [hnil] at hlt
  rw [loop, if_neg hne, hstep]

end Runs

end Fragment

/-- The start tag of an element that is not void. -/
theorem Building.open_ {root : NodeId} {f : Fragment} {s : List Bytes} {out : List (Nat × Label)}
    (h : Building root f s out) {tag : Bytes} (htag : TagName tag)
    {attrs : List (Bytes × Bytes)} (hattrs : ∀ a ∈ attrs, AttrOk a)
    (hvoid : Html5.isVoid tag = false) {rest : Bytes}
    (hf : f.rest = 60 :: (tag ++ (renderAttrs attrs ++ (closing false ++ rest)))) :
    ∃ f', f.Runs f' ∧ f'.rest = rest ∧
      Building root f' (pushTag tag s) (out ++ [(s.length, .elem tag (setAll attrs) none)]) := by
  have hstep := Fragment.step_startTag htag hattrs false hf
  have hlt : rest.length < f.rest.length := by
    rw [hf]
    simp only [List.length_cons, List.length_append]
    omega
  have hlen : f.stack.length = s.length + 1 := by
    obtain ⟨ids, hstack, htags⟩ := h.stack
    have hids : ids.length = s.length := by simpa using congrArg List.length htags
    rw [hstack, List.length_append, hids]
    rfl
  have hhang := h.hang (m := elementNode tag attrs) rfl (by simp [elementNode]) rest
  refine ⟨_, Fragment.Runs.step hstep hlt, rfl, ?_⟩
  unfold pushTag
  simp only [hvoid, hlen, Bool.not_false, Bool.true_and, decide_eq_true_eq]
  split_ifs
  · exact hhang.2 tag rfl
  · exact hhang.1

/-- The parser on the markup of a tree, whatever is open: induction on the tree. -/
theorem Content.Valid.parsed {t : Content} (ht : t.Valid) {root : NodeId} {f : Fragment}
    {s : List Bytes} {out : List (Nat × Label)} (h : Building root f s out) {tail : Bytes}
    (hf : f.rest = t.render ++ tail) (htail : tail = [] ∨ tail.head? = some 60) :
    ∃ f', f.Runs f' ∧ f'.rest = tail ∧
      Building root f' (t.parsed s).2 (out ++ (t.parsed s).1) := by
  induction t generalizing f s out tail with
  | nil => exact ⟨f, .refl f, hf, by simpa [Content.parsed] using h⟩
  | text b rest ih =>
    obtain ⟨hb, hnext, hrest⟩ := ht
    rw [Content.render, List.append_assoc] at hf
    have hstep := Fragment.step_text hb (Content.render_head hnext htail) hf
    have hlt : (rest.render ++ tail).length < f.rest.length := by
      have hpos := List.length_pos_of_ne_nil (escape_ne_nil hb)
      rw [hf, show (escape b ++ (rest.render ++ tail)).length = _ from List.length_append]
      omega
    obtain ⟨f', hruns, hrest', hbuild⟩ := ih hrest
      (h.hang (m := textNode b) rfl (by simp [textNode]) (rest.render ++ tail)).1 rfl htail
    rw [List.append_assoc] at hbuild
    exact ⟨f', (Fragment.Runs.step hstep hlt).trans hruns, hrest', hbuild⟩
  | void tag attrs rest ih =>
    obtain ⟨htag, hvoid, hattrs, -, hrest⟩ := ht
    have hf' : f.rest = 60 :: (tag ++ (renderAttrs attrs ++ (closing true ++
        (rest.render ++ tail)))) := by
      rw [hf]
      simp [Content.render, closing]
    have hstep := Fragment.step_startTag htag hattrs true hf'
    have hlt : (rest.render ++ tail).length < f.rest.length := by
      rw [hf']
      simp only [List.length_cons, List.length_append]
      omega
    obtain ⟨f', hruns, hrest', hbuild⟩ := ih hrest
      (h.hang (m := elementNode tag attrs) rfl (by simp [elementNode]) (rest.render ++ tail)).1
      rfl htail
    rw [List.append_assoc] at hbuild
    exact ⟨f', (Fragment.Runs.step hstep hlt).trans hruns, hrest', hbuild⟩
  | elem tag attrs kids rest ihkids ihrest =>
    obtain ⟨htag, hvoid, hattrs, -, hkids, hrest⟩ := ht
    have hf' : f.rest = 60 :: (tag ++ (renderAttrs attrs ++ (closing false ++ (kids.render ++
        (60 :: 47 :: (tag ++ 62 :: (rest.render ++ tail))))))) := by
      rw [hf]
      simp [Content.render, closing]
    have hopen := h.open_ htag hattrs hvoid hf'
    obtain ⟨f₁, hruns₁, hrest₁, hbuild₁⟩ := hopen
    obtain ⟨f₂, hruns₂, hrest₂, hbuild₂⟩ := ihkids hkids hbuild₁ hrest₁ (.inr rfl)
    have hstep := Fragment.step_endTag htag hrest₂
    have hlt : (rest.render ++ tail).length < f₂.rest.length := by
      rw [hrest₂]
      simp only [List.length_cons, List.length_append]
      omega
    obtain ⟨f', hruns, hrest', hbuild⟩ := ihrest hrest
      (hbuild₂.close tag (rest.render ++ tail)) rfl htail
    refine ⟨f', ((hruns₁.trans hruns₂).trans (Fragment.Runs.step hstep hlt)).trans hruns, hrest', ?_⟩
    simpa [Content.parsed] using hbuild

/-! ## Outlines and trees -/

/-- The same attributes, in whatever order. -/
def SameAttrs (as bs : List (Bytes × Bytes)) : Prop :=
  ∀ k : Bytes, (as.find? (·.1 == k)).map (·.2) = (bs.find? (·.1 == k)).map (·.2)

theorem setAttr_of_new {attrs : List (Bytes × Bytes)} {k : Bytes} (v : Bytes)
    (hk : k ∉ attrs.map (·.1)) : setAttr attrs k v = (k, v) :: attrs := by
  have hnone : attrs.findIdx? (·.1 == k) = none := by
    rw [List.findIdx?_eq_none_iff]
    intro a ha
    exact beq_false_of_ne fun heq => hk (List.mem_map.2 ⟨a, ha, heq⟩)
  rw [setAttr, hnone]

/-- Each attribute set once goes in front of those before it. -/
theorem setAll_eq_reverse {attrs : List (Bytes × Bytes)} (h : (attrs.map (·.1)).Nodup) :
    setAll attrs = attrs.reverse := by
  induction attrs using List.reverseRecOn with
  | nil => rfl
  | append_singleton attrs a ih =>
    rw [List.map_append, List.map_singleton] at h
    obtain ⟨hnodup, -, hdisj⟩ := List.nodup_append.1 h
    have hnew : a.1 ∉ (setAll attrs).map (·.1) := by
      rw [ih hnodup, List.map_reverse, List.mem_reverse]
      exact fun hmem => hdisj _ hmem _ List.mem_cons_self rfl
    rw [setAll, List.foldl_append, List.foldl_cons, List.foldl_nil]
    change setAttr (setAll attrs) a.1 a.2 = _
    rw [setAttr_of_new a.2 hnew, ih hnodup, List.reverse_append]
    rfl

theorem find?_of_nodup {attrs : List (Bytes × Bytes)} (h : (attrs.map (·.1)).Nodup)
    {a : Bytes × Bytes} (ha : a ∈ attrs) : attrs.find? (·.1 == a.1) = some a := by
  induction attrs with
  | nil => cases ha
  | cons b attrs ih =>
    obtain ⟨hb, hnodup⟩ := List.nodup_cons.1 h
    rcases List.mem_cons.1 ha with rfl | ha
    · simp
    · have hne : (b.1 == a.1) = false :=
        beq_false_of_ne fun heq => hb (List.mem_map.2 ⟨a, ha, heq.symm⟩)
      rw [List.find?_cons, hne]
      exact ih hnodup ha

theorem sameAttrs_setAll {attrs : List (Bytes × Bytes)} (h : (attrs.map (·.1)).Nodup) :
    SameAttrs (setAll attrs) attrs := by
  intro k
  rw [setAll_eq_reverse h]
  have hrev : (attrs.reverse.map (·.1)).Nodup := by rwa [List.map_reverse, List.nodup_reverse]
  cases hk : attrs.find? (·.1 == k) with
  | none =>
    rw [List.find?_eq_none] at hk
    rw [List.find?_eq_none.2 fun a ha => hk a (List.mem_reverse.1 ha)]
  | some a =>
    obtain rfl : a.1 = k := by simpa using List.find?_some hk
    rw [find?_of_nodup hrev (List.mem_reverse.2 (List.mem_of_find?_eq_some hk))]

namespace Content

theorem flat_le (t : Content) (k : Nat) : ∀ e ∈ t.flat k, k ≤ e.1 := by
  induction t generalizing k with
  | nil => exact fun e he => absurd he List.not_mem_nil
  | text s rest ih =>
    intro e he
    rcases List.mem_cons.1 he with rfl | he
    · exact Nat.le_refl _
    · exact ih k e he
  | void tag attrs rest ih =>
    intro e he
    rcases List.mem_cons.1 he with rfl | he
    · exact Nat.le_refl _
    · exact ih k e he
  | elem tag attrs kids rest ihkids ihrest =>
    intro e he
    rcases List.mem_cons.1 he with rfl | he
    · exact Nat.le_refl _
    · rcases List.mem_append.1 he with he | he
      · exact Nat.le_of_succ_le (ihkids (k + 1) e he)
      · exact ihrest k e he

theorem flat_head (t : Content) (k : Nat) : ∀ e, (t.flat k).head? = some e → e.1 = k := by
  cases t <;> simp [flat]

/-- The nodes come in the same order, wherever they are hung. -/
theorem parsed_labels (t : Content) (s : List Bytes) (k : Nat) :
    (t.parsed s).1.map (·.2) = (t.flat k).map (·.2) := by
  induction t generalizing s k with
  | nil => rfl
  | text b rest ih => simp [parsed, flat, ih s k]
  | void tag attrs rest ih => simp [parsed, flat, ih s k]
  | elem tag attrs kids rest ihkids ihrest =>
    simp only [parsed, flat, List.map_cons, List.map_append]
    rw [ihkids (pushTag tag s) (k + 1), ihrest _ k]

end Content

/-- A list that goes down below `k` and comes up to `k` again splits in one way. -/
theorem split_at_depth {β : Type} {k : Nat} {A B A' B' : List (Nat × β)}
    (hA : ∀ e ∈ A, k < e.1) (hA' : ∀ e ∈ A', k < e.1)
    (hB : ∀ e, B.head? = some e → e.1 = k) (hB' : ∀ e, B'.head? = some e → e.1 = k)
    (h : A ++ B = A' ++ B') : A = A' ∧ B = B' := by
  have hspan : ∀ {A B : List (Nat × β)}, (∀ e ∈ A, k < e.1) →
      (∀ e, B.head? = some e → e.1 = k) →
      (A ++ B).takeWhile (fun e => decide (k < e.1)) = A := by
    intro A B hA hB
    rw [List.takeWhile_append_of_pos fun e he => decide_eq_true (hA e he)]
    cases B with
    | nil => simp
    | cons e B => simp [hB e rfl]
  have hleft : A = A' := by rw [← hspan hA hB, h, hspan hA' hB']
  subst hleft
  exact ⟨rfl, List.append_cancel_left h⟩

section Outline

variable {d : NodeHeap} {k : Nat} {l : List NodeId} {o : List (Nat × NodeId)} {t : Content}

/-- A child list that shows a tree has its depths. -/
theorem Shows.depths {same : List (Bytes × Bytes) → List (Bytes × Bytes) → Prop}
    (h : Shows same d l t) (ho : Outline (children d) k l o) :
    o.map (·.1) = (t.flat k).map (·.1) := by
  induction t generalizing l o k with
  | nil =>
    obtain rfl := h
    cases ho
    rfl
  | text s rest ih =>
    obtain ⟨c, l, rfl, hc, hrest⟩ := h
    cases ho with
    | cons hbelow hafter =>
      rw [hc.leaf] at hbelow
      cases hbelow
      simp [Content.flat, ih hrest hafter]
  | void tag attrs rest ih =>
    obtain ⟨c, l, rfl, -, hleaf, hrest⟩ := h
    cases ho with
    | cons hbelow hafter =>
      rw [hleaf] at hbelow
      cases hbelow
      simp [Content.flat, ih hrest hafter]
  | elem tag attrs kids rest ihkids ihrest =>
    obtain ⟨c, l, rfl, -, hkids, hrest⟩ := h
    cases ho with
    | cons hbelow hafter =>
      simp [Content.flat, ihkids hkids hbelow, ihrest hrest hafter]

theorem isElement_of_label {c : NodeId} {tag : Bytes} {attrs : List (Bytes × Bytes)}
    (htag : TagName tag) (hnodup : (attrs.map (·.1)).Nodup)
    (h : (d.node c).label = .elem tag (setAll attrs) none) :
    IsElement SameAttrs d c tag attrs := by
  unfold MiniNode.label at h
  split at h
  · cases h
  · rename_i htype
    simp only [Label.elem.injEq] at h
    obtain ⟨hname, hattrs, hown⟩ := h
    refine ⟨htype, fun _ => hown, ?_, hattrs ▸ sameAttrs_setAll hnodup⟩
    cases hn : (d.node c).tag with
    | none =>
      rw [hn] at hname
      exact absurd hname.symm htag.ne_nil
    | some u =>
      rw [hn] at hname
      exact congrArg some hname
  · cases h

theorem isText_of_label {c : NodeId} {s : Bytes} (hs : s ≠ [])
    (h : (d.node c).label = .text s) (hleaf : Outline (children d) k (children d c) []) :
    IsText d c s := by
  have hkids : children d c = [] := hleaf.eq_nil
  unfold MiniNode.label at h
  split at h
  · rename_i htype
    refine ⟨htype, ?_, hkids⟩
    have htext := Label.text.inj h
    cases hn : (d.node c).text with
    | none =>
      rw [hn] at htext
      exact absurd htext.symm hs
    | some u =>
      rw [hn] at htext
      exact congrArg some htext
  · cases h
  · cases h

/-- The outline behind a node splits as the tree does. -/
theorem split_outline {c : NodeId} {below after : List (Nat × NodeId)}
    {A B : List (Nat × Label)} (hbelow : Outline (children d) (k + 1) (children d c) below)
    (hafter : Outline (children d) k l after) (hA : ∀ e ∈ A, k < e.1)
    (hB : ∀ e, B.head? = some e → e.1 = k)
    (h : (below ++ after).map (fun e => (e.1, (d.node e.2).label)) = A ++ B) :
    below.map (fun e => (e.1, (d.node e.2).label)) = A ∧
      after.map (fun e => (e.1, (d.node e.2).label)) = B := by
  rw [List.map_append] at h
  refine split_at_depth (fun e he => ?_) hA (fun e he => ?_) hB h
  · obtain ⟨x, hx, rfl⟩ := List.mem_map.1 he
    exact hbelow.le_depth x hx
  · rw [List.head?_map, Option.map_eq_some_iff] at he
    obtain ⟨e, he, rfl⟩ := he
    exact hafter.head_depth e he

/-- A child list with the outline of a tree shows it. -/
theorem shows_of_outline (ht : t.Valid) (ho : Outline (children d) k l o)
    (hflat : o.map (fun e => (e.1, (d.node e.2).label)) = t.flat k) : Shows SameAttrs d l t := by
  induction t generalizing l o k with
  | nil =>
    cases ho with
    | nil => rfl
    | cons => cases hflat
  | text s rest ih =>
    obtain ⟨hs, -, hrest⟩ := ht
    cases ho with
    | nil => cases hflat
    | @cons _ c l below after hbelow hafter =>
      obtain ⟨hhead, htail⟩ := List.cons.inj hflat
      obtain ⟨hnone, hafter'⟩ := split_outline (A := []) hbelow hafter
        (fun e he => absurd he List.not_mem_nil) (rest.flat_head k) htail
      obtain rfl := List.map_eq_nil_iff.1 hnone
      exact ⟨c, l, rfl, isText_of_label hs (Prod.mk.inj hhead).2 hbelow, ih hrest hafter hafter'⟩
  | void tag attrs rest ih =>
    obtain ⟨htag, -, -, hnodup, hrest⟩ := ht
    cases ho with
    | nil => cases hflat
    | @cons _ c l below after hbelow hafter =>
      obtain ⟨hhead, htail⟩ := List.cons.inj hflat
      obtain ⟨hnone, hafter'⟩ := split_outline (A := []) hbelow hafter
        (fun e he => absurd he List.not_mem_nil) (rest.flat_head k) htail
      obtain rfl := List.map_eq_nil_iff.1 hnone
      exact ⟨c, l, rfl, isElement_of_label htag hnodup (Prod.mk.inj hhead).2, hbelow.eq_nil,
        ih hrest hafter hafter'⟩
  | elem tag attrs kids rest ihkids ihrest =>
    obtain ⟨htag, -, -, hnodup, hkids, hrest⟩ := ht
    cases ho with
    | nil => cases hflat
    | @cons _ c l below after hbelow hafter =>
      obtain ⟨hhead, htail⟩ := List.cons.inj hflat
      obtain ⟨hbelow', hafter'⟩ := split_outline hbelow hafter
        (fun e he => kids.flat_le (k + 1) e he) (rest.flat_head k) htail
      exact ⟨c, l, rfl, isElement_of_label htag hnodup (Prod.mk.inj hhead).2,
        ihkids hkids hbelow hbelow', ihrest hrest hafter hafter'⟩

end Outline

end TinyFramework.Dom
