/-
  Dom/FragmentSteps.lean --- the parser of fragments.

  Decoding undoes escaping.  A start tag, an end tag and a run of text, written as the
  serializer writes them, are one round of the parser each, whatever is on its stack.

  The parser does two things to the tree and to its stack: it hangs a fresh node under the
  innermost open element, and it drops elements from the stack.
-/
import TinyFramework.Dom.Content
import TinyFramework.Dom.OuterHtml
import Mathlib.Data.List.TakeWhile

set_option autoImplicit false

namespace TinyFramework.Dom

open TinyFramework.Foundation

/-! ## Escaping -/

/-- Escaped text has no `<` and no `"`. -/
theorem not_mem_escape {v : Bytes} {b : UInt8} (hb : b = 60 ∨ b = 34) : b ∉ escape v := by
  intro hmem
  obtain ⟨c, -, hc⟩ := List.mem_flatMap.1 hmem
  unfold escapeByte at hc
  split_ifs at hc
  · rcases hb with rfl | rfl <;> exact absurd hc (by decide)
  · rcases hb with rfl | rfl <;> exact absurd hc (by decide)
  · rcases hb with rfl | rfl <;> exact absurd hc (by decide)
  · rcases hb with rfl | rfl <;> exact absurd hc (by decide)
  · obtain rfl := List.mem_singleton.1 hc
    rcases hb with rfl | rfl <;> simp_all

theorem escapeByte_ne_nil (c : UInt8) : escapeByte c ≠ [] := by
  unfold escapeByte
  split_ifs <;> simp [ascii]

theorem escape_ne_nil {v : Bytes} (hv : v ≠ []) : escape v ≠ [] := by
  obtain ⟨c, v, rfl⟩ := List.exists_cons_of_ne_nil hv
  rw [escape, List.flatMap_cons]
  exact List.append_ne_nil_of_left_ne_nil (escapeByte_ne_nil c) _

/-- A byte that needs no reference stays as it is. -/
def plainByte (c : UInt8) : Bool := !(c == 60 || c == 62 || c == 38 || c == 34)

theorem escapeByte_cases (c : UInt8) :
    (plainByte c = true ∧ c ≠ 38 ∧ escapeByte c = [c]) ∨
    (plainByte c = false ∧ ∃ name ∈ [ascii "lt", ascii "gt", ascii "amp", ascii "quot"],
      escapeByte c = 38 :: (name ++ [59]) ∧
        ∀ cap out, decodeEntity name cap out = some (putIf (decide (out.length < cap)) out [c])) := by
  unfold escapeByte plainByte
  split_ifs with hlt hgt hamp hquot
  · subst hlt
    exact .inr ⟨rfl, ascii "lt", by decide, rfl, fun _ _ => rfl⟩
  · subst hgt
    exact .inr ⟨rfl, ascii "gt", by decide, rfl, fun _ _ => rfl⟩
  · subst hamp
    exact .inr ⟨rfl, ascii "amp", by decide, rfl, fun _ _ => rfl⟩
  · subst hquot
    exact .inr ⟨rfl, ascii "quot", by decide, rfl, fun _ _ => rfl⟩
  · exact .inl ⟨by simp [hlt, hgt, hamp, hquot], hamp, rfl⟩

theorem idxOf_semicolon {name : Bytes}
    (hname : name ∈ [ascii "lt", ascii "gt", ascii "amp", ascii "quot"]) (tail : Bytes) :
    ((name ++ 59 :: tail).take 15).idxOf? 59 = some name.length := by
  simp only [List.mem_cons, List.not_mem_nil, or_false] at hname
  rcases hname with rfl | rfl | rfl | rfl <;> rfl

/-- Decoding undoes escaping. -/
theorem decodeLoop_escape {cap fuel : Nat} {v out : Bytes}
    (hcap : out.length + (escape v).length ≤ cap) (hfuel : (escape v).length ≤ fuel) :
    decodeLoop cap fuel (escape v) out = out ++ v := by
  induction v generalizing fuel out with
  | nil => cases fuel <;> simp [escape, decodeLoop]
  | cons c v ih =>
    have hcons : escape (c :: v) = escapeByte c ++ escape v := List.flatMap_cons ..
    rw [hcons, List.length_append] at hcap hfuel
    rw [hcons]
    have hpos := List.length_pos_of_ne_nil (escapeByte_ne_nil c)
    obtain ⟨fuel, rfl⟩ := Nat.exists_eq_succ_of_ne_zero (show fuel ≠ 0 by omega)
    have hput : putIf (decide (out.length < cap)) out [c] = out ++ [c] := by
      rw [decide_eq_true (by omega)]
      rfl
    have hrest : decodeLoop cap fuel (escape v) (out ++ [c]) = out ++ c :: v := by
      rw [ih (by simp; omega) (by omega), List.append_assoc]
      rfl
    rcases escapeByte_cases c with ⟨-, hamp, heq⟩ | ⟨-, name, hname, heq, hdecode⟩
    · rw [heq, List.cons_append, List.nil_append, decodeLoop, if_pos hamp, hput]
      exact hrest
    · rw [heq, List.cons_append, List.append_assoc, decodeLoop, if_neg (by simp)]
      rw [show [59] ++ escape v = 59 :: escape v from rfl, idxOf_semicolon hname]
      have htake : (name ++ 59 :: escape v).take name.length = name := List.take_left
      have hdrop : (name ++ 59 :: escape v).drop (name.length + 1) = escape v := by
        rw [← List.drop_drop, List.drop_left]
        rfl
      simp only [Option.bind_some, htake, hdecode, Option.map_some, hput, hdrop]
      exact hrest

theorem decodeEntities_escape (v : Bytes) : decodeEntities (escape v) (escape v).length = v := by
  rw [decodeEntities, decodeLoop_escape (by simp) (Nat.le_refl _)]
  rfl

/-! ## Names and attributes -/

/-- A name that a loop with these stops and this bound reads whole. -/
structure ReadsWhole (stop : UInt8 → Bool) (n : Nat) (name : Bytes) : Prop where
  ne_nil : name ≠ []
  length : name.length ≤ n
  plain : ∀ c ∈ name, stop c = false
  lower : name.map tolower = name

theorem readSpan_name {stop : UInt8 → Bool} {n : Nat} {name : Bytes}
    (h : ReadsWhole stop n name) {c : UInt8} (hc : stop c = true) (rest : Bytes) :
    readSpan stop n (name ++ c :: rest) = (name, c :: rest) := by
  have hgot : ((name ++ c :: rest).take n).takeWhile (fun c => !stop c) = name := by
    rw [List.take_append, List.take_of_length_le h.length]
    refine List.takeWhile_append_of_pos (fun b hb => by simp [h.plain b hb]) |>.trans ?_
    cases hn : n - name.length with
    | zero => simp
    | succ k => simp [hc]
  rw [readSpan, hgot, List.drop_left]

/-- What ends the name of a start tag. -/
def stopsTag (c : UInt8) : Bool := c == 62 || c == 47 || isspace c

/-- What ends the name of an attribute. -/
def stopsAttr (c : UInt8) : Bool := c == 61 || c == 62 || c == 47 || isspace c

/-- A tag name that comes through: lower case, at most 31 bytes, none of which ends a
tag, and not the start of a comment. -/
structure TagName (tag : Bytes) : Prop extends ReadsWhole stopsTag 31 tag where
  noBang : tag.head? ≠ some 33

/-- An attribute that comes through: a lower-case name of at most 63 bytes, none of
which ends a name, and a value that is a C string. -/
structure AttrOk (a : Bytes × Bytes) : Prop where
  name : ReadsWhole stopsAttr 63 a.1
  value : 0 ∉ a.2

theorem skipSpaces_cons {c : UInt8} (hc : isspace c = false) (p : Bytes) :
    skipSpaces (c :: p) = c :: p := by
  rw [skipSpaces, List.dropWhile_cons, hc]
  rfl

theorem readValue_escape {v : Bytes} (hv : 0 ∉ v) (p : Bytes) :
    readValue (34 :: (escape v ++ 34 :: p)) = (v, p) := by
  have hq : ∀ b ∈ escape v, decide (b ≠ 34) = true := fun b hb =>
    decide_eq_true fun heq => not_mem_escape (.inr rfl) (heq ▸ hb)
  have htake : (escape v ++ 34 :: p).takeWhile (fun b => decide (b ≠ 34)) = escape v := by
    rw [List.takeWhile_append_of_pos hq]
    simp
  have hdrop : (escape v ++ 34 :: p).dropWhile (fun b => decide (b ≠ 34)) = 34 :: p := by
    rw [List.dropWhile_append_of_pos hq]
    simp
  have hcstr : Html5.cstr v = v :=
    List.takeWhile_eq_self_iff.2 fun b hb => decide_eq_true fun heq => hv (heq ▸ hb)
  rw [readValue, skipSpaces_cons rfl]
  simp only [true_or, if_true, skipPast, htake, hdrop, decodeEntities_escape, hcstr, List.drop_one,
    List.tail_cons]

/-- The end of a start tag: `>` or ` />`. -/
def closing (selfClosing : Bool) : Bytes := if selfClosing then ascii " />" else [62]

theorem readAttrs_render {attrs : List (Bytes × Bytes)} (hattrs : ∀ a ∈ attrs, AttrOk a)
    (selfClosing : Bool) (rest : Bytes) {fuel : Nat}
    (hfuel : (renderAttrs attrs ++ (closing selfClosing ++ rest)).length ≤ fuel) :
    readAttrs fuel (renderAttrs attrs ++ (closing selfClosing ++ rest)) =
      (attrs, if selfClosing then 47 :: 62 :: rest else 62 :: rest) := by
  induction attrs generalizing fuel with
  | nil =>
    obtain ⟨fuel, rfl⟩ : ∃ k, fuel = k + 1 := by
      refine Nat.exists_eq_succ_of_ne_zero ?_
      rintro rfl
      cases selfClosing <;> simp [closing, ascii, renderAttrs] at hfuel
    cases selfClosing <;> rfl
  | cons a attrs ih =>
    obtain ⟨hname, hvalue⟩ := hattrs a List.mem_cons_self
    have hcons : renderAttrs (a :: attrs) = renderAttr a ++ renderAttrs attrs :=
      List.flatMap_cons ..
    rw [hcons] at hfuel ⊢
    obtain ⟨fuel, rfl⟩ := Nat.exists_eq_succ_of_ne_zero (show fuel ≠ 0 by
      rintro rfl
      simp [renderAttr] at hfuel)
    generalize htail : renderAttrs attrs ++ (closing selfClosing ++ rest) = tail at ih
    have hrec := @ih (fun b hb => hattrs b (List.mem_cons_of_mem a hb)) fuel (by
      rw [List.append_assoc, htail] at hfuel
      simp only [renderAttr, List.length_append, List.length_cons] at hfuel
      omega)
    obtain ⟨c, name, hc⟩ := List.exists_cons_of_ne_nil hname.ne_nil
    have hstop := hname.plain c (hc ▸ List.mem_cons_self)
    simp only [stopsAttr, Bool.or_eq_false_iff, beq_eq_false_iff_ne] at hstop
    obtain ⟨⟨⟨-, hgt⟩, hslash⟩, hspace⟩ := hstop
    have htext : (renderAttr a ++ renderAttrs attrs ++ (closing selfClosing ++ rest)) =
        32 :: (a.1 ++ 61 :: (34 :: (escape a.2 ++ 34 :: tail))) := by
      rw [← htail]
      simp [renderAttr]
    rw [htext, readAttrs]
    have hskip : skipSpaces (32 :: (a.1 ++ 61 :: (34 :: (escape a.2 ++ 34 :: tail)))) =
        a.1 ++ 61 :: (34 :: (escape a.2 ++ 34 :: tail)) := by
      rw [hc, List.cons_append, skipSpaces, List.dropWhile_cons, show isspace 32 = true from rfl,
        if_pos rfl]
      exact skipSpaces_cons hspace _
    have hspan : readSpan (fun c => c == 61 || c == 62 || c == 47 || isspace c) 63
        (a.1 ++ 61 :: (34 :: (escape a.2 ++ 34 :: tail))) =
          (a.1, 61 :: (34 :: (escape a.2 ++ 34 :: tail))) := readSpan_name hname rfl _
    rw [hc, List.cons_append] at hskip hspan
    have hne : ¬ (c = 62 ∨ c = 47) := by simp [hgt, hslash]
    simp only [hc, List.cons_append, hskip, if_neg (show ¬ ((32 : UInt8) = 62 ∨ (32 : UInt8) = 47) by
      decide), if_neg hne, hspan, skipSpaces_cons (show isspace 61 = false from rfl),
      readValue_escape hvalue, hrec, reduceCtorEq, if_false]
    rw [← hc, hname.lower]

/-! ## One round each -/

/-- A text node as the parser makes it. -/
def textNode (s : Bytes) : MiniNode := { type := .textNode, text := some s }

/-- The attributes of a new element after all of `attrs` are set. -/
def setAll (attrs : List (Bytes × Bytes)) : List (Bytes × Bytes) :=
  attrs.foldl (fun as a => setAttr as a.1 a.2) []

/-- An element as the parser makes it. -/
def elementNode (tag : Bytes) (attrs : List (Bytes × Bytes)) : MiniNode :=
  { type := .elementNode, tag := some tag, attrs := setAll attrs }

namespace Fragment

variable {f : Fragment} {rest : Bytes}

/-- The heap with a new node under the innermost open element. -/
def hang (f : Fragment) (m : MiniNode) : NodeHeap :=
  (miniNodeAppendChild (f.heap.alloc m) f.stack.head? (some f.heap.size)).2

/-- The stack after an end tag. -/
def closed (f : Fragment) (tag : Bytes) : List NodeId :=
  if Html5.elementIsRawtext tag then f.stack
  else
    match f.stack with
    | top :: below :: stack => if (f.heap.node top).tag = some tag then below :: stack else f.stack
    | stack => stack

theorem step_text {s : Bytes} (hs : s ≠ []) (hrest : rest = [] ∨ rest.head? = some 60)
    (hf : f.rest = escape s ++ rest) :
    f.step = { f with heap := f.hang (textNode s), rest := rest } := by
  have hplain : ∀ b ∈ escape s, decide (b ≠ 60) = true := fun b hb =>
    decide_eq_true fun heq => not_mem_escape (.inl rfl) (heq ▸ hb)
  have htake : f.rest.takeWhile (fun b => decide (b ≠ 60)) = escape s := by
    rw [hf, List.takeWhile_append_of_pos hplain]
    rcases hrest with rfl | hrest
    · simp
    · obtain ⟨rest, rfl⟩ := List.head?_eq_some_iff.1 hrest
      simp
  have hdrop : f.rest.dropWhile (fun b => decide (b ≠ 60)) = rest := by
    rw [hf, List.dropWhile_append_of_pos hplain]
    rcases hrest with rfl | hrest
    · simp
    · obtain ⟨rest, rfl⟩ := List.head?_eq_some_iff.1 hrest
      simp
  obtain ⟨b, bs, hb⟩ := List.exists_cons_of_ne_nil (escape_ne_nil hs)
  have hne : b ≠ 60 := of_decide_eq_true (hplain b (hb ▸ List.mem_cons_self))
  have hstep : f.step = f.text := by
    unfold step
    rw [hf, hb, List.cons_append]
    split
    · rename_i heq
      exact absurd (List.cons.inj heq).1 hne
    · rename_i heq
      exact absurd (List.cons.inj heq).1 hne
    · rename_i heq
      exact absurd (List.cons.inj heq).1 hne
    · rfl
  rw [hstep, text]
  simp only [htake, hdrop, decodeEntities_escape]
  rfl

theorem step_startTag {tag : Bytes} (htag : TagName tag) {attrs : List (Bytes × Bytes)}
    (hattrs : ∀ a ∈ attrs, AttrOk a) (selfClosing : Bool)
    (hf : f.rest = 60 :: (tag ++ (renderAttrs attrs ++ (closing selfClosing ++ rest)))) :
    f.step =
      { heap := f.hang (elementNode tag attrs)
        stack := if !selfClosing && !Html5.isVoid tag && f.stack.length < 64 then
          f.heap.size :: f.stack else f.stack
        rest := rest } := by
  obtain ⟨c, name, hc⟩ := List.exists_cons_of_ne_nil htag.ne_nil
  have hslash : c ≠ 47 := by
    rintro rfl
    exact absurd (htag.plain 47 (hc ▸ List.mem_cons_self)) (by decide)
  have hbang : c ≠ 33 := by
    rintro rfl
    exact htag.noBang (by rw [hc]; rfl)
  have hstep : f.step =
      f.startTag (tag ++ (renderAttrs attrs ++ (closing selfClosing ++ rest))) := by
    unfold step
    rw [hf, hc, List.cons_append]
    split
    · rename_i heq
      exact absurd (List.cons.inj (List.cons.inj heq).2).1 hbang
    · rename_i heq
      exact absurd (List.cons.inj (List.cons.inj heq).2).1 hslash
    · rename_i heq
      rw [← (List.cons.inj heq).2]
    · rename_i hnot
      exact absurd rfl (hnot _)
  obtain ⟨e, tail, htail, hend⟩ : ∃ e tail,
      renderAttrs attrs ++ (closing selfClosing ++ rest) = e :: tail ∧ stopsTag e = true := by
    cases attrs with
    | nil => cases selfClosing <;> exact ⟨_, _, rfl, rfl⟩
    | cons a attrs => exact ⟨_, _, rfl, rfl⟩
  have hspan : readSpan (fun c => c == 62 || c == 47 || isspace c) 31
      (tag ++ (renderAttrs attrs ++ (closing selfClosing ++ rest))) =
        (tag, renderAttrs attrs ++ (closing selfClosing ++ rest)) := by
    rw [htail]
    exact readSpan_name htag.toReadsWhole hend tail
  have hcut : (tag.take 47).map tolower = tag := by
    rw [List.take_of_length_le (Nat.le_trans htag.length (by decide)), htag.lower]
  have hread := readAttrs_render hattrs selfClosing rest (Nat.le_refl _)
  rw [hstep, startTag]
  simp only [hspan, htag.lower, htag.ne_nil, if_false, hread, miniNodeCreateElement,
    Option.getD_some, hcut, setAttributes_alloc]
  cases selfClosing <;> rfl

theorem step_endTag {tag : Bytes} (htag : TagName tag)
    (hf : f.rest = 60 :: 47 :: (tag ++ 62 :: rest)) :
    f.step = { f with stack := f.closed tag, rest := rest } := by
  have hstops : ReadsWhole (fun c => c == 62 || isspace c) 31 tag := by
    refine ⟨htag.ne_nil, htag.length, fun c hc => ?_, htag.lower⟩
    have hstop := htag.plain c hc
    simp only [stopsTag, Bool.or_eq_false_iff] at hstop
    simp [hstop.1.1, hstop.2]
  have hstep : f.step = f.endTag (tag ++ 62 :: rest) := by
    unfold step
    rw [hf]
    rfl
  have hskip : skipPast 62 (62 :: rest) = rest := rfl
  rw [hstep, endTag, readSpan_name hstops rfl]
  simp only [htag.lower, closed, hskip]
  split_ifs <;> rfl

end Fragment

/-! ## What holds all through a parse of markup -/

namespace Fragment

/-- What the two things that the parser does keep. -/
structure Kept (P : Fragment → Prop) : Prop where
  open_ : ∀ f, P f → f.stack ≠ []
  hang : ∀ f m stack rest, P f → m.bare = m → m.type ≠ .documentFragmentNode →
    m.shadowRoot = none → (∀ x ∈ stack, x = f.heap.size ∨ x ∈ f.stack) → stack ≠ [] →
    P ⟨f.append f.heap.size (f.heap.alloc m), stack, rest⟩
  rest : ∀ f stack rest, P f → stack ⊆ f.stack → stack ≠ [] → P ⟨f.heap, stack, rest⟩

namespace Kept

variable {P : Fragment → Prop} {f : Fragment}

theorem step (h : Kept P) (hf : P f) : P f.step := by
  have hopen := h.open_ f hf
  have hself : ∀ rest, P ⟨f.heap, f.stack, rest⟩ := fun rest =>
    h.rest f _ rest hf (List.Subset.refl _) hopen
  have hhang : ∀ m rest, m.bare = m → m.type ≠ .documentFragmentNode → m.shadowRoot = none →
      P ⟨f.append f.heap.size (f.heap.alloc m), f.stack, rest⟩ := fun m rest hm ht hs =>
    h.hang f m f.stack rest hf hm ht hs (fun _ hx => .inr hx) hopen
  unfold Fragment.step
  split
  · -- a comment, or another declaration
    unfold Fragment.markup
    split_ifs
    · split
      · exact hhang _ _ rfl (by simp) rfl
      · split_ifs
        · exact hself _
        · exact hhang _ _ rfl (by simp) rfl
    · exact hself _
  · unfold Fragment.endTag
    dsimp only
    split_ifs
    · exact hself _
    · split
      · next top below stack hstack =>
        split_ifs
        · refine h.rest f _ _ hf (fun x hx => ?_) (List.cons_ne_nil _ _)
          rw [hstack]
          exact List.mem_cons_of_mem top hx
        · exact hself _
      · exact hself _
  · unfold Fragment.startTag
    dsimp only
    split_ifs with htag
    · exact hself _
    -- pushed or not
    · simp only [miniNodeCreateElement, setAttributes_alloc]
      exact h.hang f _ _ _ hf rfl (by simp) rfl (fun x hx => List.mem_cons.1 hx)
        (List.cons_ne_nil _ _)
    · simp only [miniNodeCreateElement, setAttributes_alloc]
      exact hhang _ _ rfl (by simp) rfl
  · exact hhang _ _ rfl (by simp) rfl

theorem loop (h : Kept P) (hf : P f) (fuel : Nat) : P (Fragment.loop fuel f) := by
  induction fuel generalizing f with
  | zero => exact hf
  | succ fuel ih =>
    rw [Fragment.loop]
    split_ifs
    · exact hf
    · exact ih (h.step hf)

end Kept

end Fragment

/-- What holds before new contents are put into a node holds of the heap with them. -/
theorem fillInnerHtml_kept {P : Fragment → Prop} (h : Fragment.Kept P) {d : NodeHeap} {n : NodeId}
    (hstart : ∀ rest, P ⟨d, [n], rest⟩) (html : Bytes) :
    ∃ stack rest, P ⟨fillInnerHtml d n html, stack, rest⟩ := by
  unfold fillInnerHtml
  split_ifs
  · exact ⟨_, _, hstart html⟩
  · exact ⟨_, _, h.loop (hstart html) html.length⟩
  · exact ⟨[n], [], h.hang ⟨d, [n], []⟩ { type := .textNode, text := some html } [n] []
      (hstart []) rfl (by simp) rfl (fun _ hx => .inr hx) (List.cons_ne_nil _ _)⟩

end TinyFramework.Dom
