/-
  Dom/HtmlRoundTrip.lean --- serializing the children of a node and parsing them back.

  The tree comes back when every node of the markup finds its own parent on top of the
  parser's stack.  Three things go wrong there: the end tag of a raw-text element is
  skipped, the 64th open element is not pushed, and then its end tag may close an
  element of the same name.  `Tidy` says that no node comes after that has happened.
  The fourth is markup without `<`, which is taken as text with its references.
-/
import TinyFramework.Dom.FragmentRun

set_option autoImplicit false

namespace TinyFramework.Dom

open TinyFramework.Foundation

/-! ## The condition -/

/-- An end tag closes the element of the stack that has its name by mistake, and so do
those of the elements of the same name around it: none of these is followed by a node.
The path gives the names of the open elements, and whether a node follows each in its
child list. -/
def slips (tag : Bytes) : List (Bytes × Bool) → Bool → Bool
  | [], _ => true
  | (t, followed) :: path, more => if t = tag then !more && slips tag path followed else true

/-- No node comes after the stack has gone wrong: a raw-text element is followed by no
node at all, an element that is not pushed has no children, and its end tag does no
harm.  `more` says whether a node follows the child list anywhere. -/
def Content.Tidy : Content → List (Bytes × Bool) → Bool → Prop
  | .nil, _, _ => True
  | .text _ rest, path, more => rest.Tidy path more
  | .void _ _ rest, path, more => rest.Tidy path more
  | .elem tag _ kids rest, path, more =>
      let followed := rest != .nil
      rest.Tidy path more ∧
        if path.length + 1 < 64 then
          kids.Tidy ((tag, followed) :: path) (more || followed) ∧
            (Html5.elementIsRawtext tag = true → (more || followed) = false)
        else kids = .nil ∧ (Html5.elementIsRawtext tag = true ∨ slips tag path followed = true)

instance Content.decidableTidy (t : Content) (path : List (Bytes × Bool)) (more : Bool) :
    Decidable (t.Tidy path more) :=
  match t with
  | .nil => .isTrue trivial
  | .text _ rest => decidableTidy rest path more
  | .void _ _ rest => decidableTidy rest path more
  | .elem tag _ kids rest =>
      let _ := decidableTidy rest path more
      let _ := decidableTidy kids ((tag, rest != .nil) :: path) (more || rest != .nil)
      inferInstanceAs (Decidable (rest.Tidy path more ∧
        if path.length + 1 < 64 then
          kids.Tidy ((tag, rest != .nil) :: path) (more || rest != .nil) ∧
            (Html5.elementIsRawtext tag = true → (more || rest != .nil) = false)
        else kids = .nil ∧
          (Html5.elementIsRawtext tag = true ∨ slips tag path (rest != .nil) = true)))

/-- The tree is not a text alone that needs a reference. -/
def Content.PlainAlone : Content → Prop
  | .text s .nil => ∀ c ∈ s, plainByte c = true
  | _ => True

/-! ## How the stack stands -/

/-- The stack after a child list: as before it, with a raw-text element left on it, or
with the parent gone from it. -/
inductive After where
  | level
  | stuck
  | early
  deriving DecidableEq

/-- The end tag of an element, after its children. -/
def closeAfter (tag : Bytes) (path : List Bytes) : After → After
  | .level => if Html5.elementIsRawtext tag then .stuck else .level
  | .stuck => .stuck
  | .early => if path.head? = some tag then .early else .level

/-- The end tag of an element that was not pushed. -/
def unpushedAfter (tag : Bytes) (path : List Bytes) : After :=
  if Html5.elementIsRawtext tag then .level
  else if path.head? = some tag then .early
  else .level

/-- Go on with the nodes that follow, which need the stack as it was. -/
def After.followed (a : After) (rest : Content) (next : Option After) : Option After :=
  if rest = .nil then some a else if a = .level then next else none

/-- How the stack stands after a child list all of whose nodes found their parent. -/
def Content.settle : Content → List Bytes → Option After
  | .nil, _ => some .level
  | .text _ rest, path => rest.settle path
  | .void _ _ rest, path => rest.settle path
  | .elem tag _ kids rest, path =>
      if path.length + 1 < 64 then
        (kids.settle (tag :: path)).bind fun a =>
          (closeAfter tag path a).followed rest (rest.settle path)
      else if kids = .nil then (unpushedAfter tag path).followed rest (rest.settle path)
      else none

/-- What `After` means for the stack, over the path of open elements. -/
def After.Stands (path s : List Bytes) : After → Prop
  | .level => s = path
  | .stuck => ∃ u r w, s = u ++ r :: w ∧ Html5.elementIsRawtext r = true ∧ path.length ≤ w.length
  | .early => ∃ top, path = top :: s ∧ Html5.elementIsRawtext top = false

namespace After.Stands

variable {path s : List Bytes} {tag : Bytes} {a : After}

theorem close (h : a.Stands (tag :: path) s) :
    (closeAfter tag path a).Stands path (popTag tag s) := by
  cases a with
  | level =>
    obtain rfl := h
    unfold closeAfter popTag
    cases hraw : Html5.elementIsRawtext tag with
    | true => exact ⟨[], tag, path, rfl, hraw, Nat.le_refl _⟩
    | false => simp [Stands]
  | stuck =>
    obtain ⟨u, r, w, rfl, hr, hle⟩ := h
    have hle' : path.length ≤ w.length := Nat.le_of_succ_le hle
    unfold popTag
    split_ifs with hraw
    · exact ⟨u, r, w, rfl, hr, hle'⟩
    · cases u with
      | nil =>
        have hne : r ≠ tag := by
          rintro rfl
          exact hraw hr
        simp only [List.nil_append, if_neg hne]
        exact ⟨[], r, w, rfl, hr, hle'⟩
      | cons t u =>
        simp only [List.cons_append]
        split_ifs
        · exact ⟨u, r, w, rfl, hr, hle'⟩
        · exact ⟨t :: u, r, w, rfl, hr, hle'⟩
  | early =>
    obtain ⟨top, heq, hraw⟩ := h
    obtain ⟨rfl, rfl⟩ := List.cons.inj heq
    unfold closeAfter popTag
    rw [if_neg (by simp [hraw])]
    cases path with
    | nil => simp [Stands]
    | cons t path =>
      by_cases ht : t = tag
      · subst ht
        simp [Stands, hraw]
      · simp [Stands, ht]

theorem unpushed (tag : Bytes) (path : List Bytes) :
    (unpushedAfter tag path).Stands path (popTag tag path) := by
  unfold unpushedAfter popTag
  cases hraw : Html5.elementIsRawtext tag with
  | true => simp [Stands]
  | false =>
    cases path with
    | nil => simp [Stands]
    | cons t path =>
      by_cases ht : t = tag
      · subst ht
        simp [Stands, hraw]
      · simp [Stands, ht]

/-- Only a level stack has the height of the path. -/
theorem level_of_length (h : a.Stands path s) (hlen : s.length = path.length) : a = .level := by
  cases a with
  | level => rfl
  | stuck =>
    obtain ⟨u, r, w, rfl, -, hle⟩ := h
    simp only [List.length_append, List.length_cons] at hlen
    omega
  | early =>
    obtain ⟨top, rfl, -⟩ := h
    simp at hlen

end After.Stands

namespace Content

variable {t : Content} {path : List Bytes}

theorem parsed_length (t : Content) (s : List Bytes) (k : Nat) :
    (t.parsed s).1.length = (t.flat k).length := by
  simpa using congrArg List.length (t.parsed_labels s k)

/-- `settle` tells whether every node found its parent, and how the stack stands then. -/
def Settles (t : Content) (path : List Bytes) : Prop :=
  ((t.settle path).isSome = true ↔ (t.parsed path).1 = t.flat path.length) ∧
    ∀ a, t.settle path = some a → a.Stands path (t.parsed path).2

/-- The first node shows the height of the stack. -/
theorem height_of_parsed_eq {s : List Bytes} {k : Nat} (ht : t ≠ .nil)
    (h : (t.parsed s).1 = t.flat k) : s.length = k := by
  cases t with
  | nil => exact absurd rfl ht
  | text b rest => exact (Prod.mk.inj (List.cons.inj h).1).1
  | void tag attrs rest => exact (Prod.mk.inj (List.cons.inj h).1).1
  | elem tag attrs kids rest => exact (Prod.mk.inj (List.cons.inj h).1).1

theorem elem_parsed_iff {tag : Bytes} {attrs : List (Bytes × Bytes)} {kids rest : Content} :
    ((elem tag attrs kids rest).parsed path).1 = (elem tag attrs kids rest).flat path.length ↔
      (kids.parsed (pushTag tag path)).1 = kids.flat (path.length + 1) ∧
        (rest.parsed (popTag tag (kids.parsed (pushTag tag path)).2)).1 =
          rest.flat path.length := by
  rw [parsed, flat, List.cons_inj_right]
  constructor
  · exact fun h => List.append_inj h (kids.parsed_length _ _)
  · exact fun h => congrArg₂ (· ++ ·) h.1 h.2

/-- The nodes that follow an element, from how the stack stands after it. -/
theorem Settles.followed {rest : Content} (ih : Settles rest path) {a : After} {s : List Bytes}
    (ha : a.Stands path s) :
    ((a.followed rest (rest.settle path)).isSome = true ↔
        (rest.parsed s).1 = rest.flat path.length) ∧
      ∀ b, a.followed rest (rest.settle path) = some b → b.Stands path (rest.parsed s).2 := by
  unfold After.followed
  split_ifs with hnil hlevel
  · subst hnil
    exact ⟨by simp [parsed, flat], fun b hb => Option.some.inj hb ▸ ha⟩
  · subst hlevel
    obtain rfl := ha
    exact ih
  · refine ⟨⟨fun h => absurd h Bool.false_ne_true, fun h => ?_⟩, fun b hb => absurd hb (by simp)⟩
    exact absurd (ha.level_of_length (height_of_parsed_eq hnil h)) hlevel

/-- Every node finds its parent on top of the stack exactly when the tree settles. -/
theorem settles (t : Content) (path : List Bytes) : Settles t path := by
  induction t generalizing path with
  | nil => exact ⟨by simp [settle, parsed, flat], fun a ha => Option.some.inj ha ▸ rfl⟩
  | text b rest ih =>
    refine ⟨?_, (ih path).2⟩
    rw [parsed, flat, List.cons_inj_right]
    exact (ih path).1
  | void tag attrs rest ih =>
    refine ⟨?_, (ih path).2⟩
    rw [parsed, flat, List.cons_inj_right]
    exact (ih path).1
  | elem tag attrs kids rest ihkids ihrest =>
    unfold Settles
    rw [elem_parsed_iff, settle, parsed]
    dsimp only
    unfold pushTag
    split_ifs with hpush hkids
    · obtain ⟨hiff, hstands⟩ := ihkids (tag :: path)
      cases hk : kids.settle (tag :: path) with
      | none =>
        rw [hk] at hiff
        exact ⟨⟨fun h => absurd h Bool.false_ne_true, fun h => absurd (hiff.2 h.1) Bool.false_ne_true⟩,
          fun a ha => absurd ha (by simp)⟩
      | some a =>
        rw [hk] at hiff
        have hrest := (ihrest path).followed (hstands a hk).close
        exact ⟨hrest.1.trans ⟨fun h => ⟨hiff.1 rfl, h⟩, fun h => h.2⟩, hrest.2⟩
    · subst hkids
      have hrest := (ihrest path).followed (.unpushed tag path)
      exact ⟨hrest.1.trans ⟨fun h => ⟨rfl, h⟩, fun h => h.2⟩, hrest.2⟩
    · refine ⟨⟨fun h => absurd h Bool.false_ne_true, fun h => ?_⟩, fun a ha => absurd ha (by simp)⟩
      exact absurd (height_of_parsed_eq hkids h.1) (Nat.ne_of_lt (Nat.lt_succ_self _))

/-- What a node that follows asks of the stack. -/
def Fits (path : List (Bytes × Bool)) (more : Bool) : After → Prop
  | .level => True
  | .stuck => more = false
  | .early => match path with
    | [] => True
    | (t, followed) :: path => slips t path followed = true

/-- What an element asks of how the stack stands after it. -/
def Allows (path : List (Bytes × Bool)) (more followed : Bool) (a : After) : Prop :=
  if followed then a = .level else Fits path more a

theorem allows_slip {tag : Bytes} {path : List (Bytes × Bool)} {more followed : Bool} :
    Allows path more followed (if (path.map (·.1)).head? = some tag then .early else .level) ↔
      slips tag path followed = true := by
  unfold Allows
  cases path with
  | nil => simp [slips, Fits]
  | cons e path =>
    obtain ⟨t, f⟩ := e
    by_cases ht : t = tag
    · subst ht
      cases followed <;> simp [slips, Fits]
    · cases followed <;> simp [slips, Fits, ht]

theorem allows_unpushed {tag : Bytes} {path : List (Bytes × Bool)} {more followed : Bool} :
    Allows path more followed (unpushedAfter tag (path.map (·.1))) ↔
      (Html5.elementIsRawtext tag = true ∨ slips tag path followed = true) := by
  rw [← @allows_slip tag path more followed]
  unfold unpushedAfter
  cases hraw : Html5.elementIsRawtext tag with
  | true => cases followed <;> simp [Allows, Fits]
  | false => simp

theorem allows_close {tag : Bytes} {path : List (Bytes × Bool)} {more followed : Bool} {a : After}
    (ha : a = .early → Html5.elementIsRawtext tag = false) :
    Allows path more followed (closeAfter tag (path.map (·.1)) a) ↔
      Fits ((tag, followed) :: path) (more || followed) a ∧
        (Html5.elementIsRawtext tag = true → (more || followed) = false) := by
  cases a with
  | level =>
    unfold closeAfter
    cases hraw : Html5.elementIsRawtext tag <;> cases followed <;> simp [Allows, Fits]
  | stuck =>
    unfold closeAfter
    cases followed
    · simpa [Allows, Fits] using fun h _ => h
    · simp [Allows, Fits]
  | early =>
    unfold closeAfter
    rw [allows_slip]
    simp [Fits, ha rfl]

theorem followed_iff {rest : Content} {path : List (Bytes × Bool)} {more : Bool} {a : After} :
    (∃ b, a.followed rest (rest.settle (path.map (·.1))) = some b ∧ Fits path more b) ↔
      (∃ b, rest.settle (path.map (·.1)) = some b ∧ Fits path more b) ∧
        Allows path more (rest != .nil) a := by
  unfold After.followed Allows
  by_cases hnil : rest = .nil
  · subst hnil
    simp [settle, Fits]
  · rw [if_neg hnil, if_pos (bne_iff_ne.2 hnil)]
    by_cases ha : a = .level
    · simp [ha]
    · simp [ha]

/-- The condition is that the tree settles, and that what follows it allows for how. -/
theorem tidy_iff (t : Content) (path : List (Bytes × Bool)) (more : Bool) :
    t.Tidy path more ↔ ∃ a, t.settle (path.map (·.1)) = some a ∧ Fits path more a := by
  induction t generalizing path more with
  | nil => exact ⟨fun _ => ⟨.level, rfl, trivial⟩, fun _ => trivial⟩
  | text b rest ih => exact ih path more
  | void tag attrs rest ih => exact ih path more
  | elem tag attrs kids rest ihkids ihrest =>
    rw [Tidy, settle, List.length_map, ihrest]
    split_ifs with hpush hkids
    · rw [ihkids, List.map_cons]
      cases hk : kids.settle (tag :: path.map (·.1)) with
      | none => simp
      | some a =>
        have ha : a = .early → Html5.elementIsRawtext tag = false := by
          rintro rfl
          obtain ⟨top, heq, hraw⟩ := (settles kids _).2 .early hk
          exact (List.cons.inj heq).1 ▸ hraw
        rw [Option.bind_some, followed_iff, allows_close ha]
        simp
    · subst hkids
      rw [followed_iff, allows_unpushed]
      simp
    · simp [hkids]

theorem tidy_iff_parsed (t : Content) : t.Tidy [] false ↔ (t.parsed []).1 = t.flat 0 := by
  have hiff := (settles t []).1
  rw [List.length_nil] at hiff
  rw [tidy_iff, ← hiff]
  constructor
  · rintro ⟨a, ha, -⟩
    rw [show t.settle [] = some a from ha]
    rfl
  · intro h
    obtain ⟨a, ha⟩ := Option.isSome_iff_exists.1 h
    exact ⟨a, ha, by cases a <;> trivial⟩

end Content

/-! ## The round trip -/

theorem length_le_escape (s : Bytes) : s.length ≤ (escape s).length := by
  induction s with
  | nil => simp
  | cons c s ih =>
    have hpos := List.length_pos_of_ne_nil (escapeByte_ne_nil c)
    rw [escape, List.flatMap_cons, List.length_append, List.length_cons]
    rw [escape] at ih
    omega

/-- Escaping changes nothing when there is nothing to escape. -/
theorem escape_eq_self_iff (s : Bytes) : escape s = s ↔ ∀ c ∈ s, plainByte c = true := by
  induction s with
  | nil => simp [escape]
  | cons c s ih =>
    have hcons : escape (c :: s) = escapeByte c ++ escape s := List.flatMap_cons ..
    rw [hcons, List.forall_mem_cons]
    rcases escapeByte_cases c with ⟨hplain, -, heq⟩ | ⟨hplain, name, hname, heq, -⟩
    · rw [heq, ← ih]
      simp [hplain]
    · have hlen := length_le_escape s
      have hne : escapeByte c ++ escape s ≠ c :: s := by
        intro h
        have hlens := congrArg List.length h
        rw [heq] at hlens
        simp only [List.length_append, List.length_cons, List.length_nil] at hlens
        omega
      simp [hne, hplain]

theorem mem_render {t : Content} (ht : t.Valid) (hnil : t ≠ .nil) (hlone : ∀ s, t ≠ .text s .nil) :
    60 ∈ t.render := by
  cases t with
  | nil => exact absurd rfl hnil
  | void tag attrs rest => exact List.mem_cons_self
  | elem tag attrs kids rest => exact List.mem_cons_self
  | text s rest =>
    refine List.mem_append_right _ ?_
    cases rest with
    | nil => exact absurd rfl (hlone s)
    | text u rest => exact absurd ht.2.1 (by simp [Content.isText])
    | void tag attrs rest => exact List.mem_cons_self
    | elem tag attrs kids rest => exact List.mem_cons_self

section RoundTrip

variable {d : NodeHeap} {root : NodeId} {t : Content}

theorem Fragment.loop_nil {f : Fragment} (hf : f.rest = []) (fuel : Nat) : loop fuel f = f := by
  cases fuel with
  | zero => rfl
  | succ fuel => rw [loop, if_pos hf]

/-- The parser before its first round, at a node without children. -/
theorem building_start (h : WellFormed d) (hroot : root < d.size) (hkids : children d root = [])
    (html : Bytes) : Building root ⟨d, [root], html⟩ [] [] := by
  refine ⟨h, hroot, ⟨[], rfl, rfl⟩, List.isChain_singleton _, List.nodup_singleton _, [], ?_,
    List.nodup_singleton _, fun x hx => absurd hx List.not_mem_nil, rfl⟩
  rw [hkids]
  exact .nil 0

/-- What was built shows the tree when it has its outline. -/
theorem Building.shows_iff {f : Fragment} {s : List Bytes} {out : List (Nat × Label)}
    (h : Building root f s out) (ht : t.Valid)
    (hlabels : out.map (·.2) = (t.flat 0).map (·.2)) :
    Shows SameAttrs f.heap (children f.heap root) t ↔ out = t.flat 0 := by
  obtain ⟨o, ho, -, -, hout⟩ := h.outline
  constructor
  · intro hshows
    have hdepths : out.map (·.1) = (t.flat 0).map (·.1) := by
      rw [← hshows.depths ho, ← hout, List.map_map]
      rfl
    rw [List.zip_of_prod hdepths hlabels, ← List.zip_of_prod rfl rfl]
  · exact fun heq => shows_of_outline ht ho (hout.trans heq)

/-- A node without children, filled with the markup of a tree. -/
theorem shows_fill_iff (h : WellFormed d) (hroot : root < d.size)
    (hkids : children d root = []) (ht : t.Valid) :
    Shows SameAttrs (fillInnerHtml d root t.render)
        (children (fillInnerHtml d root t.render) root) t ↔ t.Tidy [] false ∧ t.PlainAlone := by
  have hstart := building_start h hroot hkids t.render
  by_cases hnil : t = .nil
  · subst hnil
    have hfill : fillInnerHtml d root Content.nil.render = d := rfl
    rw [hfill, hkids]
    exact ⟨fun _ => ⟨trivial, trivial⟩, fun _ => rfl⟩
  by_cases hlone : ∃ s, t = .text s .nil
  · obtain ⟨s, rfl⟩ := hlone
    have hrender : (Content.text s .nil).render = escape s := List.append_nil _
    have hfill : fillInnerHtml d root (escape s) =
        Fragment.hang ⟨d, [root], (Content.text s .nil).render⟩ (textNode (escape s)) := by
      rw [fillInnerHtml, if_neg (escape_ne_nil ht.1), if_pos (not_mem_escape (.inl rfl))]
      rfl
    have hbuild := (hstart.hang (m := textNode (escape s)) rfl (by simp [textNode]) []).1
    rw [hrender, hfill]
    have hplain : (Content.text s .nil).Tidy [] false ∧ (Content.text s .nil).PlainAlone ↔
        escape s = s := by
      rw [escape_eq_self_iff]
      exact ⟨fun h => h.2, fun h => ⟨trivial, h⟩⟩
    rw [hplain]
    constructor
    · rintro ⟨c, l, hl, hc, rfl⟩
      obtain ⟨o, ho, -, -, hout⟩ := hbuild.outline
      have ho' : Outline _ 0 [c] o := hl ▸ ho
      cases ho' with
      | cons hbelow hafter =>
        have hlabel := (Prod.mk.inj (List.cons.inj hout).1).2
        simp only [MiniNode.label, hc.type, hc.text, Option.getD_some] at hlabel
        exact (Label.text.inj hlabel).symm
    · intro heq
      have hout : ([] ++ [(([] : List Bytes).length, (textNode (escape s)).label)] :
          List (Nat × Label)) = (Content.text s .nil).flat 0 := by
        rw [heq]
        rfl
      exact (hbuild.shows_iff ht (congrArg _ hout)).2 hout
  · have hlt := mem_render ht hnil fun s hs => hlone ⟨s, hs⟩
    have hne : t.render ≠ [] := List.ne_nil_of_mem hlt
    obtain ⟨f', hruns, hrest, hbuild⟩ := ht.parsed hstart (List.append_nil _).symm (.inl rfl)
    have hfill : fillInnerHtml d root t.render = f'.heap := by
      obtain ⟨k, -, hloop⟩ := hruns t.render.length (Nat.le_refl _)
      rw [fillInnerHtml, if_neg hne, if_neg (not_not.2 hlt), miniDomParseFragmentIntoNode, hloop,
        Fragment.loop_nil hrest]
    rw [hfill, hbuild.shows_iff ht (t.parsed_labels [] 0), List.nil_append,
      ← t.tidy_iff_parsed]
    refine ⟨fun htidy => ⟨htidy, ?_⟩, fun h => h.1⟩
    unfold Content.PlainAlone
    split
    · exact absurd ⟨_, rfl⟩ hlone
    · trivial

end RoundTrip

/-- `<b title="...">` with a text, and a `<br>`, in an element. -/
def fewNodes : NodeHeap :=
  { size := 4
    node := fun x => match x with
      | 1 => { tag := some (ascii "b"), attrs := [(ascii "title", ascii "say \"&\"")] }
      | 2 => { type := .textNode, text := some (ascii "x<y") }
      | 3 => { tag := some (ascii "br") }
      | _ => { tag := some (ascii "div") } }

def fewTree : NodeHeap :=
  domRun fewNodes [.appendChild (some 1) (some 2), .appendChild (some 0) (some 1),
    .appendChild (some 0) (some 3)]

def fewContent : Content :=
  .elem (ascii "b") [(ascii "title", ascii "say \"&\"")] (.text (ascii "x<y") .nil)
    (.void (ascii "br") [] .nil)

theorem wellFormed_fewTree : WellFormed fewTree := by
  refine (domRun_contract (wellFormed_of_bare fun x => ?_) ?_).1
  · unfold fewNodes
    dsimp only
    split <;> rfl
  · simp only [SafeRun, DomCall.Existing]
    decide

theorem shows_fewTree : Shows Eq fewTree (children fewTree 0) fewContent :=
  ⟨1, [3], by decide, ⟨rfl, fun _ => rfl, rfl, rfl⟩,
    ⟨2, [], by decide, ⟨rfl, rfl, by decide⟩, rfl⟩,
    3, [], rfl, ⟨rfl, fun _ => rfl, rfl, rfl⟩, by decide, rfl⟩

theorem valid_fewContent : fewContent.Valid := by
  have hname : ∀ {stop : UInt8 → Bool} {k : Nat} {name : Bytes}, name ≠ [] → name.length ≤ k →
      (name.all fun c => !stop c) = true → name.map tolower = name → ReadsWhole stop k name :=
    fun hne hlen hall hlower => ⟨hne, hlen, by simpa using hall, hlower⟩
  refine ⟨⟨hname (by decide) (by decide) (by decide) (by decide), by decide⟩, by decide, ?_,
    by decide, ⟨by decide, rfl, trivial⟩,
    ⟨hname (by decide) (by decide) (by decide) (by decide), by decide⟩, by decide, by simp,
    by decide, trivial⟩
  intro a ha
  obtain rfl := List.mem_singleton.1 ha
  exact ⟨hname (by decide) (by decide) (by decide) (by decide), by decide⟩

/-- An element with the text `a&b`. -/
def loneText : NodeHeap :=
  domRun
    { size := 2
      node := fun x => match x with
        | 1 => { type := .textNode, text := some (ascii "a&b") }
        | _ => { tag := some (ascii "div") } }
    [.appendChild (some 0) (some 1)]

end TinyFramework.Dom
