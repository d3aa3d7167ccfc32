/-
  Events/StaleReferences.lean --- which runs never read a reference to a destroyed node.

  While every destruction is careful, no field of `MiniEventState` and no listener refers to
  a node that is gone, and neither does a local that a handler stores later.  Each handler
  keeps this if what happens during its dispatches does, so by induction on how deep the
  calls of the listeners nest every run does.
-/
import Mathlib
import TinyFramework.Events.References

set_option autoImplicit false
set_option mvcgen.warning false

namespace TinyFramework.Events.References

open TinyFramework.Foundation TinyFramework.Dom Std.Do

/-- No field and no listener refers to a node that is gone, the document and the nodes
`held` are there, and no field ever was stale when it was read. -/
structure Sound (held : List NodeId) (s : EventState) : Prop where
  field : ∀ f n, s.field f = some n → s.Exists n
  listener : ∀ l ∈ s.registry.ls, ∀ n, l.target = some n → s.Exists n
  body : ∀ n, s.body = some n → s.Exists n
  root : s.Exists s.root
  held : ∀ n ∈ held, s.Exists n
  fresh : s.staleRead = false

/-- Sound as long as every destruction was careful. -/
def Fine (held : List NodeId) (s : EventState) : Prop := s.careful = true → Sound held s

/-! ## What may be forgotten and what may be held -/

namespace Fine

variable {held held' : List NodeId} {s : EventState} {n : Option NodeId}

theorem mono (h : Fine held s) (hsub : held' ⊆ held) : Fine held' s :=
  fun hs => { h hs with held := fun n hn => (h hs).held n (hsub hn) }

@[grind →]
theorem right (h : Fine (held' ++ held) s) : Fine held s :=
  h.mono (List.subset_append_right held' held)

@[grind →]
theorem tail {m : NodeId} (h : Fine (m :: held) s) : Fine held s :=
  h.mono (List.subset_cons_self m held)

@[grind →]
theorem middle {m : NodeId} (h : Fine (held' ++ m :: held) s) : Fine (held' ++ held) s :=
  h.mono (by simp)

/-- A node that exists may be held. -/
theorem hold (h : Fine held s) (hn : s.careful = true → ∀ m ∈ n, s.Exists m) :
    Fine (n.toList ++ held) s := by
  intro hs
  refine { h hs with held := ?_ }
  intro m hm
  rcases List.mem_append.1 hm with hm | hm
  · exact hn hs m (Option.mem_toList.1 hm)
  · exact (h hs).held m hm

theorem hold_field (h : Fine held s) (f : RefField) : Fine ((s.field f).toList ++ held) s :=
  h.hold fun hs m hm => (h hs).field f m hm

theorem hold_body (h : Fine held s) : Fine (s.body.toList ++ held) s :=
  h.hold fun hs => (h hs).body

theorem hold_root (h : Fine held s) : Fine (s.root :: held) s :=
  h.hold (n := some s.root) fun hs m hm => by
    obtain rfl := Option.some.inj hm
    exact (h hs).root

end Fine

namespace Sound

variable {held : List NodeId} {s : EventState}

theorem stale_eq_false (h : Sound held s) (f : RefField) : s.stale f = false := by
  unfold EventState.stale
  cases hf : s.field f with
  | none => rfl
  | some n => simpa using h.field f n hf

theorem staleListener_eq_false (h : Sound held s) : s.staleListener = false := by
  unfold EventState.staleListener
  rw [List.any_eq_false]
  intro l hl
  cases hn : l.target with
  | none => simp
  | some n => simpa using h.listener l hl n hn

end Sound

namespace Fine

variable {held : List NodeId} {s : EventState}

theorem afterRead (h : Fine held s) (f : RefField) : Fine held (s.afterRead f) := by
  intro hs
  have hsound := h hs
  refine { hsound with fresh := ?_ }
  show (s.staleRead || s.stale f) = false
  rw [hsound.fresh, hsound.stale_eq_false f, Bool.or_false]

theorem afterScan (h : Fine held s) : Fine held s.afterScan := by
  intro hs
  have hsound := h hs
  refine { hsound with fresh := ?_ }
  show (s.staleRead || s.staleListener) = false
  rw [hsound.fresh, hsound.staleListener_eq_false, Bool.or_false]

theorem withField {n : Option NodeId} (h : Fine held s)
    (hn : s.careful = true → ∀ m ∈ n, s.Exists m) (f : RefField) :
    Fine held (s.withField f n) := by
  intro hs
  refine { h hs with field := ?_ }
  intro g m hm
  by_cases hg : g = f
  · subst hg
    rw [show (s.withField g n).field g = n from Function.update_self ..] at hm
    exact hn hs m hm
  · rw [show (s.withField f n).field g = s.field g from Function.update_of_ne hg ..] at hm
    exact (h hs).field g m hm

end Fine

/-! ## Reading, writing and asking -/

theorem read_spec (held : List NodeId) (f : RefField) :
    ⦃fun s => ⌜Fine held s⌝⦄ read f ⦃⇓ r s => ⌜Fine (r.toList ++ held) s⌝⦄ := by
  mvcgen [read]
  next h => exact (h.hold_field f).afterRead f

theorem store_spec (held : List NodeId) (f : RefField) (n : Option NodeId) :
    ⦃fun s => ⌜Fine (n.toList ++ held) s⌝⦄ store f n
    ⦃⇓ _ s => ⌜Fine (n.toList ++ held) s⌝⦄ := by
  mvcgen [store]
  next h _ =>
    refine h.withField ?_ f
    exact fun hs m hm => (h hs).held m (List.mem_append_left held (Option.mem_toList.2 hm))

theorem setFlags_spec (held : List NodeId) (f : EventFlags → EventFlags) :
    ⦃fun s => ⌜Fine held s⌝⦄ setFlags f ⦃⇓ _ s => ⌜Fine held s⌝⦄ := by
  mvcgen [setFlags]
  next h _ => exact fun hs => { h hs with }

theorem scanListeners_spec (held : List NodeId) :
    ⦃fun s => ⌜Fine held s⌝⦄ scanListeners ⦃⇓ _ s => ⌜Fine held s⌝⦄ := by
  mvcgen [scanListeners]
  next h _ => exact h.afterScan

theorem ask_spec (held : List NodeId) :
    ⦃fun s => ⌜Fine held s⌝⦄ ask ⦃⇓ _ s => ⌜Fine held s⌝⦄ := by
  mvcgen [ask]
  next h => exact fun hs => { h hs with }

theorem askNode_spec (held : List NodeId) :
    ⦃fun s => ⌜Fine held s⌝⦄ askNode ⦃⇓ r s => ⌜Fine (r.toList ++ held) s⌝⦄ := by
  mvcgen [askNode]
  next s h =>
    have hn : ∀ m ∈ (s.answers.nodes.headD none).filter fun n => s.Exists n, s.Exists m := by
      intro m hm
      exact of_decide_eq_true (Option.mem_filter_iff.1 hm).2
    exact fun hs => { h.hold (fun _ => hn) hs with }

theorem orBody_spec (held : List NodeId) (hit : Option NodeId) :
    ⦃fun s => ⌜Fine (hit.toList ++ held) s⌝⦄ orBody hit
    ⦃⇓ r s => ⌜Fine (r.toList ++ held) s⌝⦄ := by
  mvcgen [orBody]
  next s h =>
    cases hit with
    | none => exact h.hold_body
    | some n => exact h

theorem orRoot_spec (held : List NodeId) (hit : Option NodeId) :
    ⦃fun s => ⌜Fine (hit.toList ++ held) s⌝⦄ orRoot hit ⦃⇓ t s => ⌜Fine (t :: held) s⌝⦄ := by
  mvcgen [orRoot]
  next s h =>
    cases hit with
    | some n => exact h
    | none =>
      cases hb : s.body with
      | some b =>
        have hbody := h.hold_body
        rw [hb] at hbody
        exact hbody
      | none => exact h.hold_root

theorem askCalls_spec (held : List NodeId) :
    ⦃fun s => ⌜Fine held s⌝⦄ askCalls ⦃⇓ _ s => ⌜Fine held s⌝⦄ := by
  mvcgen [askCalls]
  next h => exact fun hs => { h hs with }

/-! ## Destruction -/

/-- From `s₀` on the fields `fs` have been cleared of `n`, and nothing has been written. -/
structure Clearing (held : List NodeId) (n : NodeId) (s₀ : EventState) (fs : List RefField)
    (s : EventState) : Prop where
  fine : Fine held s
  field : ∀ f m, s.field f = some m → s₀.field f = some m ∧ (f ∈ fs → m ≠ n)
  body : s.body = s₀.body
  root : s.root = s₀.root

namespace Clearing

variable {held : List NodeId} {n : NodeId} {s s₀ : EventState} {fs : List RefField}

theorem start (h : Fine held s) (n : NodeId) : Clearing held n s [] s :=
  { fine := h
    field := fun _ _ hm => ⟨hm, fun hf => absurd hf List.not_mem_nil⟩
    body := rfl
    root := rfl }

theorem afterRead (h : Clearing held n s₀ fs s) (f : RefField) :
    Clearing held n s₀ fs (s.afterRead f) :=
  { h with fine := h.fine.afterRead f }

/-- A field that does not refer to the node counts as cleared. -/
theorem keep (h : Clearing held n s₀ fs s) {f : RefField} (hf : s.field f ≠ some n) :
    Clearing held n s₀ (f :: fs) s := by
  refine { h with field := ?_ }
  intro g m hm
  refine ⟨(h.field g m hm).1, fun hg => ?_⟩
  rcases List.mem_cons.1 hg with rfl | hg
  · rintro rfl
    exact hf hm
  · exact (h.field g m hm).2 hg

theorem clear (h : Clearing held n s₀ fs s) (f : RefField) :
    Clearing held n s₀ (f :: fs) (s.withField f none) := by
  have hfine : Fine held (s.withField f none) :=
    h.fine.withField (fun _ m hm => absurd hm (Option.not_mem_none m)) f
  refine keep ⟨hfine, ?_, h.body, h.root⟩ ?_
  · intro g m hm
    by_cases hg : g = f
    · rw [hg, show (s.withField f none).field f = none from Function.update_self ..] at hm
      exact absurd hm (Option.some_ne_none m).symm
    · rw [show (s.withField f none).field g = s.field g from
        Function.update_of_ne hg ..] at hm
      exact h.field g m hm
  · rw [show (s.withField f none).field f = none from Function.update_self ..]
    exact (Option.some_ne_none n).symm

end Clearing

theorem clearIf_spec (held : List NodeId) (n : NodeId) (s₀ : EventState) (fs : List RefField)
    (f : RefField) :
    ⦃fun s => ⌜Clearing held n s₀ fs s⌝⦄ clearIf n f
    ⦃⇓ _ s => ⌜Clearing held n s₀ (f :: fs) s⌝⦄ := by
  mvcgen [clearIf, read, store]
  case vc1 h _ _ => exact (h.afterRead f).clear f
  case vc2 h hn => exact (h.afterRead f).keep hn

/-- The fields that `mini_events_on_node_destroyed` clears, the last first. -/
def clearedFields : List RefField :=
  [.selFocus, .selAnchor, .dragRange, .lastClickTarget, .pressTarget, .focus, .hover]

theorem removeListeners_spec (held : List NodeId) (n : NodeId) (s₀ : EventState)
    (fs : List RefField) :
    ⦃fun s => ⌜Clearing held n s₀ fs s⌝⦄ removeListeners n
    ⦃⇓ _ s => ⌜Clearing held n s₀ fs s ∧ ∀ l ∈ s.registry.ls, l.target ≠ some n⌝⦄ := by
  mvcgen [removeListeners, scanListeners]
  next s h _ _ =>
    have hsub := List.filter_sublist (p := fun l : Listener => l.target != some n)
      (l := s.registry.ls)
    refine ⟨{ h with fine := fun hs => ?_ }, ?_⟩
    · have hsound := h.fine.afterScan hs
      exact { hsound with
        listener := fun l hl => hsound.listener l (hsub.subset hl) }
    · intro l hl
      simpa using (List.mem_filter.1 hl).2

theorem miniEventsOnNodeDestroyed_spec (held : List NodeId) (n : NodeId) (s₀ : EventState) :
    ⦃fun s => ⌜Clearing held n s₀ [] s⌝⦄ miniEventsOnNodeDestroyed n
    ⦃⇓ _ s => ⌜Clearing held n s₀ clearedFields s ∧
        ∀ l ∈ s.registry.ls, l.target ≠ some n⌝⦄ := by
  have hclear := clearIf_spec held n s₀
  have hremove := removeListeners_spec held n s₀
  mvcgen [miniEventsOnNodeDestroyed, hclear, hremove]

/-- Every field is cleared, or a careful destruction finds another node in it. -/
theorem Clearing.field_ne {held : List NodeId} {n : NodeId} {s₀ s : EventState}
    (h : Clearing held n s₀ clearedFields s) (hcareful : s₀.CarefulToDestroy held n)
    {f : RefField} {m : NodeId} (hm : s.field f = some m) : m ≠ n := by
  obtain ⟨hm₀, hcleared⟩ := h.field f m hm
  have huncleared : f ∈ [RefField.dndSource, .dropTarget, .moveNode] → m ≠ n := by
    rintro hf rfl
    exact hcareful.1 f hf hm₀
  cases f <;> first | exact hcleared (by decide) | exact huncleared (by decide)

/-- A careful destruction leaves the state sound. -/
theorem Clearing.destroyed {held : List NodeId} {n : NodeId} {s₀ s : EventState}
    (h : Clearing held n s₀ clearedFields s) (hl : ∀ l ∈ s.registry.ls, l.target ≠ some n) :
    Fine held { s with
      destroyed := n :: s.destroyed
      careful := s.careful && decide (s₀.CarefulToDestroy held n) } := by
  intro hs
  obtain ⟨hbefore, hdecide⟩ := (Bool.and_eq_true _ _).mp hs
  have hcareful := of_decide_eq_true hdecide
  have hsound := h.fine hbefore
  have ⟨_, hbody, hroot, hheld⟩ := hcareful
  -- what existed and is not `n` still exists
  have hexists : ∀ {m : NodeId}, m ≠ n → s.Exists m → m ∉ n :: s.destroyed := fun hne hm =>
    List.not_mem_cons_of_ne_of_not_mem hne hm
  exact
    { field := fun f m hm => hexists (h.field_ne hcareful hm) (hsound.field f m hm)
      listener := fun l hmem m hm =>
        hexists (fun hmn => hl l hmem (hmn ▸ hm)) (hsound.listener l hmem m hm)
      body := fun m hm =>
        hexists (fun hmn => hbody (h.body.symm.trans (hmn ▸ hm))) (hsound.body m hm)
      root := hexists (fun hrn => hroot (h.root.symm.trans hrn)) hsound.root
      held := fun m hm => hexists (fun hmn => hheld (hmn ▸ hm)) (hsound.held m hm)
      fresh := hsound.fresh }

theorem destroy_spec (held : List NodeId) (n : NodeId) :
    ⦃fun s => ⌜Fine held s⌝⦄ destroy held n ⦃⇓ _ s => ⌜Fine held s⌝⦄ := by
  have hclear := miniEventsOnNodeDestroyed_spec held n
  mvcgen [destroy, hclear]
  case vc2 h _ => exact Clearing.start h n
  case vc3 h _ => exact h.1.destroyed h.2

/-! ## What a careless destruction leaves -/

/-! ## The listeners -/

/-- A listener of the table after an addition was there before or is the one asked for. -/
theorem target_of_add {st : Registry} {r : Request} {l : Listener}
    (hl : l ∈ (miniEventsAddListener st r).2.ls) : l ∈ st.ls ∨ l.target = r.target := by
  unfold miniEventsAddListener at hl
  split_ifs at hl with hnull
  · exact Or.inl hl
  · cases hslot : st.freeSlot with
    | none =>
      rw [hslot] at hl
      exact Or.inl hl
    | some i =>
      rw [hslot] at hl
      obtain ⟨j, hj⟩ := List.mem_iff_getElem?.1 hl
      rw [Registry.put_getElem? (Registry.freeSlot_spec hslot).1] at hj
      split_ifs at hj with hji
      · obtain rfl := Option.some.inj hj
        exact Or.inr rfl
      · exact Or.inl (List.mem_of_getElem? hj)

/-- A listener of the table after a removal has no target or was there before. -/
theorem target_of_remove {st : Registry} {h : Option Nat} {l : Listener}
    (hl : l ∈ (miniEventsRemoveListener st h).ls) : l ∈ st.ls ∨ l.target = none := by
  cases h with
  | none => exact Or.inl hl
  | some i =>
    obtain ⟨j, hj⟩ := List.mem_iff_getElem?.1 hl
    unfold miniEventsRemoveListener at hj
    rw [List.getElem?_modify] at hj
    split_ifs at hj with hij
    · obtain ⟨m, -, rfl⟩ := Option.map_eq_some_iff.1 hj
      exact Or.inr rfl
    · exact Or.inl (List.mem_of_getElem? (by simpa using hj))

/-- A table whose listeners target what exists may replace the other. -/
theorem Fine.withRegistry {held : List NodeId} {s : EventState} (h : Fine held s)
    {st : Registry} (hst : s.careful = true → ∀ l ∈ st.ls, ∀ n, l.target = some n → s.Exists n) :
    Fine held { s with registry := st } :=
  fun hs => { h hs with listener := hst hs }

/-! ## The handlers -/

section Handlers

variable {react : List NodeId → Handler Unit}
  (hreact : ∀ held, ⦃fun s => ⌜Fine held s⌝⦄ react held ⦃⇓ _ s => ⌜Fine held s⌝⦄)

include hreact

theorem dispatch_spec (held : List NodeId) (n : Option NodeId) :
    ⦃fun s => ⌜Fine held s⌝⦄ dispatch react held n ⦃⇓ _ s => ⌜Fine held s⌝⦄ := by
  cases n with
  | none => mvcgen [dispatch]
  | some n => mvcgen [dispatch, hreact, ask_spec]

theorem blurFocused_spec (held : List NodeId) :
    ⦃fun s => ⌜Fine held s⌝⦄ blurFocused react held ⦃⇓ _ s => ⌜Fine held s⌝⦄ := by
  have hread := read_spec held
  have hask := ask_spec held
  have hdispatch := dispatch_spec hreact held
  mvcgen [blurFocused, hread, hask, hdispatch]
  all_goals grind

theorem miniEventsFocus_spec (held : List NodeId) (n : Option NodeId) :
    ⦃fun s => ⌜Fine (n.toList ++ held) s⌝⦄ miniEventsFocus react held n
    ⦃⇓ _ s => ⌜Fine held s⌝⦄ := by
  have hread := read_spec (n.toList ++ held)
  have hblur := blurFocused_spec hreact (n.toList ++ held)
  have hstore := store_spec held
  have hdispatch := dispatch_spec hreact held
  mvcgen [miniEventsFocus, hread, hblur, hstore, hdispatch]
  all_goals grind

omit hreact in
theorem dndReset_spec (held : List NodeId) :
    ⦃fun s => ⌜Fine held s⌝⦄ dndReset ⦃⇓ _ s => ⌜Fine held s⌝⦄ := by
  have hstore := store_spec held
  have hset := setFlags_spec held
  mvcgen [dndReset, hstore, hset]

theorem dndBegin_spec (held : List NodeId) (src : Option NodeId) :
    ⦃fun s => ⌜Fine (src.toList ++ held) s⌝⦄ dndBegin react held src
    ⦃⇓ _ s => ⌜Fine held s⌝⦄ := by
  have hstore := store_spec held
  have hset := setFlags_spec held
  have hdispatch := dispatch_spec hreact held
  have hreset := dndReset_spec held
  mvcgen [dndBegin, hstore, hset, hdispatch, hreset]
  all_goals grind

theorem dragOnto_spec (held : List NodeId) (hit : NodeId) :
    ⦃fun s => ⌜Fine (hit :: held) s⌝⦄ dragOnto react held hit
    ⦃⇓ _ s => ⌜Fine (hit :: held) s⌝⦄ := by
  have hread := read_spec (hit :: held)
  have hdispatch := dispatch_spec hreact (hit :: held)
  have hstore := store_spec held
  have hset := setFlags_spec (hit :: held)
  mvcgen [dragOnto, hread, hdispatch, hstore, hset]
  all_goals grind

theorem dragOver_spec (held : List NodeId) :
    ⦃fun s => ⌜Fine held s⌝⦄ dragOver react held ⦃⇓ _ s => ⌜Fine held s⌝⦄ := by
  have hask := askNode_spec held
  have hread := fun n => read_spec (n :: held)
  have honto := dragOnto_spec hreact held
  have hdispatch := dispatch_spec hreact held
  have hset := setFlags_spec held
  mvcgen [dragOver, hask, hread, honto, hdispatch, hset]
  all_goals grind

theorem dndMove_spec (held : List NodeId) :
    ⦃fun s => ⌜Fine held s⌝⦄ dndMove react held ⦃⇓ _ s => ⌜Fine held s⌝⦄ := by
  have hread := read_spec held
  have hdispatch := dispatch_spec hreact held
  have hover := dragOver_spec hreact held
  mvcgen [dndMove, hread, hdispatch, hover]
  all_goals grind

theorem dndEnd_spec (held : List NodeId) :
    ⦃fun s => ⌜Fine held s⌝⦄ dndEnd react held ⦃⇓ _ s => ⌜Fine held s⌝⦄ := by
  have hread := read_spec held
  have hdispatch := dispatch_spec hreact held
  have hreset := dndReset_spec held
  mvcgen [dndEnd, hread, hdispatch, hreset]
  all_goals grind

omit hreact in
theorem selectionClear_spec (held : List NodeId) :
    ⦃fun s => ⌜Fine held s⌝⦄ selectionClear ⦃⇓ _ s => ⌜Fine held s⌝⦄ := by
  have hread := read_spec held
  have hstore := store_spec held
  have hset := setFlags_spec held
  mvcgen [selectionClear, hread, hstore, hset]
  all_goals grind

omit hreact in
theorem selectionBegin_spec (held : List NodeId) :
    ⦃fun s => ⌜Fine held s⌝⦄ selectionBegin ⦃⇓ _ s => ⌜Fine held s⌝⦄ := by
  have hclear := selectionClear_spec held
  have hask := askNode_spec held
  have hstore := store_spec held
  have hset := setFlags_spec held
  mvcgen [selectionBegin, hclear, hask, hstore, hset]
  all_goals grind

omit hreact in
theorem selectionExtend_spec (held : List NodeId) :
    ⦃fun s => ⌜Fine held s⌝⦄ selectionExtend ⦃⇓ _ s => ⌜Fine held s⌝⦄ := by
  have hask := askNode_spec held
  have hread := fun n : Option NodeId => read_spec (n.toList ++ held)
  have hstore := store_spec held
  mvcgen [selectionExtend, hask, hread, hstore]
  all_goals grind

omit hreact in
theorem miniEventsSelectAll_spec (held : List NodeId) :
    ⦃fun s => ⌜Fine held s⌝⦄ miniEventsSelectAll ⦃⇓ _ s => ⌜Fine held s⌝⦄ := by
  have hclear := selectionClear_spec held
  have hask := askNode_spec held
  have hstore := store_spec held
  mvcgen [miniEventsSelectAll, hclear, hask, hstore]
  all_goals grind

/-! ## The mouse -/

theorem dragRangeStep_spec (held : List NodeId) :
    ⦃fun s => ⌜Fine held s⌝⦄ dragRangeStep react held ⦃⇓ _ s => ⌜Fine held s⌝⦄ := by
  have hread := read_spec held
  have hask := ask_spec held
  have hdispatch := dispatch_spec hreact held
  mvcgen [dragRangeStep, hread, hask, hdispatch]
  all_goals grind

theorem dragStep_spec (held : List NodeId) :
    ⦃fun s => ⌜Fine held s⌝⦄ dragStep react held ⦃⇓ _ s => ⌜Fine held s⌝⦄ := by
  have hread := read_spec held
  have hbegin := dndBegin_spec hreact held
  have hmove := dndMove_spec hreact held
  mvcgen [dragStep, hread, hbegin, hmove]
  all_goals grind

theorem hoverStep_spec (held : List NodeId) (t : Option NodeId) :
    ⦃fun s => ⌜Fine (t.toList ++ held) s⌝⦄ hoverStep react held t
    ⦃⇓ _ s => ⌜Fine (t.toList ++ held) s⌝⦄ := by
  have hread := read_spec (t.toList ++ held)
  have hdispatch := dispatch_spec hreact (t.toList ++ held)
  have hstore := store_spec held
  mvcgen [hoverStep, hread, hdispatch, hstore]
  all_goals grind

omit hreact in
theorem selectStep_spec (held : List NodeId) (t : Option NodeId) :
    ⦃fun s => ⌜Fine held s⌝⦄ selectStep t ⦃⇓ _ s => ⌜Fine held s⌝⦄ := by
  have hextend := selectionExtend_spec held
  have hread := read_spec held
  mvcgen [selectStep, hextend, hread]
  all_goals grind

theorem miniEventsHandleMouseMove_spec (held : List NodeId) :
    ⦃fun s => ⌜Fine held s⌝⦄ miniEventsHandleMouseMove react held
    ⦃⇓ _ s => ⌜Fine held s⌝⦄ := by
  have hrange := dragRangeStep_spec hreact held
  have hdrag := dragStep_spec hreact held
  have hask := askNode_spec held
  have hhover := hoverStep_spec hreact held
  have hselect := fun t : Option NodeId => selectStep_spec (t.toList ++ held) t
  have hbody := orBody_spec held
  have hdispatch := dispatch_spec hreact held
  mvcgen [miniEventsHandleMouseMove, hrange, hdrag, hask, hhover, hselect, hbody, hdispatch]
  all_goals grind

omit hreact in
theorem pressPlain_spec (held : List NodeId) :
    ⦃fun s => ⌜Fine held s⌝⦄ pressPlain ⦃⇓ _ s => ⌜Fine held s⌝⦄ := by
  have hask := askNode_spec held
  have hclear := fun n : NodeId => selectionClear_spec (n :: held)
  have hstore := store_spec held
  have hset := setFlags_spec held
  have hbegin := selectionBegin_spec held
  mvcgen [pressPlain, hask, hclear, hstore, hset, hbegin]
  all_goals grind

theorem pressCaptures_spec (held : List NodeId) (t : NodeId) :
    ⦃fun s => ⌜Fine (t :: held) s⌝⦄ pressCaptures react held t ⦃⇓ _ s => ⌜Fine held s⌝⦄ := by
  have hask := ask_spec (t :: held)
  have hstore := store_spec held
  have hdispatch := dispatch_spec hreact (t :: held)
  have hclear := selectionClear_spec (t :: held)
  have hplain := pressPlain_spec (t :: held)
  mvcgen [pressCaptures, hask, hstore, hdispatch, hclear, hplain]
  all_goals grind

omit hreact in
theorem focusedBy_spec (held : List NodeId) (t : NodeId) :
    ⦃fun s => ⌜Fine (t :: held) s⌝⦄ focusedBy t
    ⦃⇓ r s => ⌜Fine (r.toList ++ t :: held) s⌝⦄ := by
  have hask := ask_spec (t :: held)
  mvcgen [focusedBy, hask]
  next r s h =>
    cases r with
    | true => exact h.mono (by simp)
    | false => exact h

theorem pressOn_spec (held : List NodeId) (button : Nat) (t : NodeId) :
    ⦃fun s => ⌜Fine (t :: held) s⌝⦄ pressOn react held button t ⦃⇓ _ s => ⌜Fine held s⌝⦄ := by
  have hstore := store_spec held
  have hset := setFlags_spec (t :: held)
  have hdispatch := dispatch_spec hreact (t :: held)
  have hfocused := focusedBy_spec held t
  have hfocus := miniEventsFocus_spec hreact
  have hcaptures := pressCaptures_spec hreact held t
  mvcgen [pressOn, hstore, hset, hdispatch, hfocused, hfocus, hcaptures]
  all_goals grind

theorem releaseDrags_spec (held : List NodeId) :
    ⦃fun s => ⌜Fine held s⌝⦄ releaseDrags react held ⦃⇓ _ s => ⌜Fine held s⌝⦄ := by
  have hset := setFlags_spec held
  have hread := read_spec held
  have hend := dndEnd_spec hreact held
  have hstore := store_spec held
  have hask := ask_spec held
  have hdispatch := dispatch_spec hreact held
  mvcgen [releaseDrags, hset, hread, hend, hstore, hask, hdispatch]
  all_goals grind

omit hreact in
theorem clickedBy_spec (held : List NodeId) (t : NodeId) :
    ⦃fun s => ⌜Fine held s⌝⦄ clickedBy t ⦃⇓ _ s => ⌜Fine held s⌝⦄ := by
  have hread := read_spec held
  have hask := ask_spec held
  mvcgen [clickedBy, hread, hask]
  all_goals grind

theorem leftClick_spec (held : List NodeId) (t c : NodeId) :
    ⦃fun s => ⌜Fine (t :: held) s⌝⦄ leftClick react held t c ⦃⇓ _ s => ⌜Fine held s⌝⦄ := by
  have hdispatch := dispatch_spec hreact
  have hnode := askNode_spec (t :: held)
  have hread := read_spec (t :: held)
  have hask := ask_spec (t :: held)
  have hstore := store_spec held
  mvcgen [leftClick, hdispatch, hnode, hread, hask, hstore]
  all_goals grind

theorem releaseOn_spec (held : List NodeId) (button : Nat) (t : NodeId) :
    ⦃fun s => ⌜Fine (t :: held) s⌝⦄ releaseOn react held button t
    ⦃⇓ _ s => ⌜Fine held s⌝⦄ := by
  have hdrags := releaseDrags_spec hreact
  have hread := read_spec
  have hset := setFlags_spec
  have hdispatch := dispatch_spec hreact
  have hclicked := clickedBy_spec
  have hclick := leftClick_spec hreact held
  have hstore := store_spec held
  mvcgen [releaseOn, hdrags, hread, hset, hdispatch, hclicked, hclick, hstore]
  all_goals grind

theorem miniEventsHandleMouseButton_spec (held : List NodeId) (button : Nat)
    (isPress : Bool) :
    ⦃fun s => ⌜Fine held s⌝⦄ miniEventsHandleMouseButton react held button isPress
    ⦃⇓ _ s => ⌜Fine held s⌝⦄ := by
  have hnode := askNode_spec held
  have hroot := orRoot_spec held
  have hask := fun t : NodeId => ask_spec (t :: held)
  have hpress := pressOn_spec hreact held button
  have hrelease := releaseOn_spec hreact held button
  mvcgen [miniEventsHandleMouseButton, hnode, hroot, hask, hreact, hpress, hrelease]
  all_goals grind

/-! ## The keyboard, the wheel and the host -/

omit hreact in
theorem miniEventsSelectionText_spec (held : List NodeId) :
    ⦃fun s => ⌜Fine held s⌝⦄ miniEventsSelectionText ⦃⇓ _ s => ⌜Fine held s⌝⦄ := by
  have hread := read_spec held
  mvcgen [miniEventsSelectionText, hread]
  all_goals grind

theorem editFocused_spec (held : List NodeId) :
    ⦃fun s => ⌜Fine held s⌝⦄ editFocused react held ⦃⇓ _ s => ⌜Fine held s⌝⦄ := by
  have hread := read_spec held
  have hask := ask_spec held
  have hdispatch := dispatch_spec hreact held
  mvcgen [editFocused, hread, hask, hdispatch]
  all_goals grind

omit hreact in
theorem keyShortcuts_spec (held : List NodeId) :
    ⦃fun s => ⌜Fine held s⌝⦄ keyShortcuts ⦃⇓ _ s => ⌜Fine held s⌝⦄ := by
  have hask := ask_spec held
  have hread := read_spec held
  have hall := miniEventsSelectAll_spec held
  have htext := miniEventsSelectionText_spec held
  mvcgen [keyShortcuts, hask, hread, hall, htext]
  all_goals grind

theorem tabFocus_spec (held : List NodeId) :
    ⦃fun s => ⌜Fine held s⌝⦄ tabFocus react held ⦃⇓ _ s => ⌜Fine held s⌝⦄ := by
  have hask := ask_spec held
  have hread := read_spec held
  have hnode := askNode_spec held
  have hfocus := miniEventsFocus_spec hreact held
  mvcgen [tabFocus, hask, hread, hnode, hfocus]
  all_goals grind

theorem miniEventsHandleKey_spec (held : List NodeId) (keydown : Bool) :
    ⦃fun s => ⌜Fine held s⌝⦄ miniEventsHandleKey react held keydown
    ⦃⇓ _ s => ⌜Fine held s⌝⦄ := by
  have hread := read_spec held
  have hbody := orBody_spec held
  have hdispatch := dispatch_spec hreact held
  have htab := tabFocus_spec hreact held
  have hshortcuts := keyShortcuts_spec held
  have hedit := editFocused_spec hreact held
  have hask := ask_spec held
  have hset := setFlags_spec held
  mvcgen [miniEventsHandleKey, hread, hbody, hdispatch, htab, hshortcuts, hedit, hask, hset]
  all_goals grind

theorem miniEventsHandleChar_spec (held : List NodeId) :
    ⦃fun s => ⌜Fine held s⌝⦄ miniEventsHandleChar react held ⦃⇓ _ s => ⌜Fine held s⌝⦄ := by
  have hset := setFlags_spec held
  have hedit := editFocused_spec hreact held
  mvcgen [miniEventsHandleChar, hset, hedit]

theorem miniEventsHandleWheel_spec (held : List NodeId) :
    ⦃fun s => ⌜Fine held s⌝⦄ miniEventsHandleWheel react held ⦃⇓ _ s => ⌜Fine held s⌝⦄ := by
  have hnode := askNode_spec held
  have hbody := orBody_spec held
  have hdispatch := dispatch_spec hreact held
  have hask := ask_spec held
  mvcgen [miniEventsHandleWheel, hnode, hbody, hdispatch, hask]
  all_goals grind

theorem miniEventsHandleDropFiles_spec (held : List NodeId) :
    ⦃fun s => ⌜Fine held s⌝⦄ miniEventsHandleDropFiles react held
    ⦃⇓ _ s => ⌜Fine held s⌝⦄ := by
  have hnode := askNode_spec held
  have hbody := orBody_spec held
  have hclear := fun n : Option NodeId => store_spec (n.toList ++ held) .dndSource none
  have hstore := store_spec held .dropTarget
  have hset := setFlags_spec held
  have hdispatch := dispatch_spec hreact held
  mvcgen [miniEventsHandleDropFiles, hnode, hbody, hclear, hstore, hset, hdispatch]
  all_goals grind

omit hreact in
theorem miniEventsReleaseCapture_spec (held : List NodeId) :
    ⦃fun s => ⌜Fine held s⌝⦄ miniEventsReleaseCapture ⦃⇓ _ s => ⌜Fine held s⌝⦄ := by
  have hread := read_spec held
  have hstore := store_spec held
  have hset := setFlags_spec held
  mvcgen [miniEventsReleaseCapture, hread, hstore, hset]
  all_goals grind

theorem perform_spec (held : List NodeId) (c : Call) :
    ⦃fun s => ⌜Fine held s⌝⦄ perform react held c ⦃⇓ _ s => ⌜Fine held s⌝⦄ := by
  cases c with
  | mouseMove => exact miniEventsHandleMouseMove_spec hreact held
  | mouseButton button isPress =>
    exact miniEventsHandleMouseButton_spec hreact held button isPress
  | key keydown => exact miniEventsHandleKey_spec hreact held keydown
  | char => exact miniEventsHandleChar_spec hreact held
  | wheel => exact miniEventsHandleWheel_spec hreact held
  | resize =>
    have hbody := orBody_spec held
    have hdispatch := dispatch_spec hreact held
    mvcgen [perform, hbody, hdispatch]
    all_goals grind
  | dropFiles => exact miniEventsHandleDropFiles_spec hreact held
  | focus n =>
    have hfocus := miniEventsFocus_spec hreact held n
    mvcgen [perform, hfocus]
    next h hn => exact h.hold fun _ => hn
  | releaseCapture => exact miniEventsReleaseCapture_spec held
  | selectAll => exact miniEventsSelectAll_spec held
  | selectionText => exact miniEventsSelectionText_spec held
  | activeElement =>
    have hread := read_spec held
    mvcgen [perform, hread]
    all_goals grind
  | addListener r =>
    mvcgen [perform]
    next s h hn _ =>
      refine h.withRegistry fun hs l hl n hln => ?_
      rcases target_of_add hl with hmem | htarget
      · exact (h hs).listener l hmem n hln
      · exact hn n (htarget.symm.trans hln)
  | removeListener handle =>
    mvcgen [perform]
    next s h _ =>
      refine h.withRegistry fun hs l hl n hln => ?_
      rcases target_of_remove hl with hmem | htarget
      · exact (h hs).listener l hmem n hln
      · exact absurd (htarget.symm.trans hln) (Option.some_ne_none n).symm
  | destroy n => exact destroy_spec held n

theorem performAll_spec (held : List NodeId) {next : Handler Unit}
    (hnext : ⦃fun s => ⌜Fine held s⌝⦄ next ⦃⇓ _ s => ⌜Fine held s⌝⦄) (calls : List Call) :
    ⦃fun s => ⌜Fine held s⌝⦄ performAll react held next calls ⦃⇓ _ s => ⌜Fine held s⌝⦄ := by
  have hperform := perform_spec hreact held
  induction calls with
  | nil => mvcgen [performAll]
  | cons c calls ih => mvcgen [performAll, hperform, hnext, ih]

end Handlers

/-! ## Runs -/

/-- However deep the calls of listeners nest, they keep the state sound. -/
theorem react_spec (depth : Nat) (held : List NodeId) :
    ⦃fun s => ⌜Fine held s⌝⦄ react depth held ⦃⇓ _ s => ⌜Fine held s⌝⦄ := by
  induction depth generalizing held with
  | zero => exact scanListeners_spec held
  | succ depth ih =>
    have hscan := scanListeners_spec held
    have hcalls := askCalls_spec held
    have hall := performAll_spec ih held hscan
    mvcgen [react, hscan, hcalls, hall]

theorem run_fine (depth : Nat) (calls : List Call) {s : EventState} (h : Fine [] s) :
    Fine [] (run depth calls s) := by
  have hpure : ⦃fun s => ⌜Fine [] s⌝⦄ (pure () : Handler Unit) ⦃⇓ _ s => ⌜Fine [] s⌝⦄ := by
    mvcgen
  exact performAll_spec (react_spec depth) [] hpure calls s h

theorem created_fine (body : Option NodeId) (root : NodeId) (answers : Answers) :
    Fine [] (EventState.created body root answers) := fun _ =>
  { field := fun _ _ hm => absurd hm (Option.some_ne_none _).symm
    listener := fun _ hl => absurd hl List.not_mem_nil
    body := fun _ _ => List.not_mem_nil
    root := List.not_mem_nil
    held := fun _ hm => absurd hm List.not_mem_nil
    fresh := rfl }

/-- In a run whose destructions are all careful no field and no listener was read while it
referred to a node that was gone, and none refers to one. -/
theorem no_stale_reference (body : Option NodeId) (root : NodeId) (answers : Answers)
    (depth : Nat) (calls : List Call)
    (hcareful : (run depth calls (EventState.created body root answers)).careful = true) :
    (run depth calls (EventState.created body root answers)).staleRead = false ∧
      (∀ f n, (run depth calls (EventState.created body root answers)).field f = some n →
        (run depth calls (EventState.created body root answers)).Exists n) ∧
      ∀ l ∈ (run depth calls (EventState.created body root answers)).registry.ls, ∀ n,
        l.target = some n → (run depth calls (EventState.created body root answers)).Exists n := by
  have hsound := run_fine depth calls (created_fine body root answers) hcareful
  exact ⟨hsound.fresh, hsound.field, hsound.listener⟩

/-- A slider is pressed, and a listener of its `input` destroys it. -/
theorem no_stale_reference_slider :
    (run 1 [.mouseButton 0 true, .mouseMove]
      (EventState.created (some 1) 0
        { bools := [false, false, true, false, true, false, false, false, true]
          nodes := [some 2, some 3]
          calls := [[], [], [.destroy 2]] })).staleRead = false :=
  (no_stale_reference (some 1) 0 _ 1 _ (by decide +kernel)).1

/-- No run reads a stale reference. -/
def NeverStale : Prop :=
  ∀ (body : Option NodeId) (root : NodeId) (answers : Answers) (depth : Nat)
    (calls : List Call),
    (run depth calls (EventState.created body root answers)).staleRead = false

/-- A draggable node is pressed and destroyed; the next move begins to drag it. -/
theorem destroyed_drag_source_stale : ¬ NeverStale := by
  intro h
  have hrun := h (some 1) 0
    { bools := [false, false, false, false, false, true], nodes := [some 2, some 2] } 0
    [.mouseButton 0 true, .destroy 2, .mouseMove]
  revert hrun
  decide +kernel

end TinyFramework.Events.References
