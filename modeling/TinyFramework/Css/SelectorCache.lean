/-
  Css/SelectorCache.lean --- the cache of compiled selectors.

  `match_complex` keeps parsed selectors in a table of 2048 slots and matches through a
  pointer into it.  The key is cut to 159 bytes and the parse is that of the cut key; a
  full table is cleared, also while an outer match reads its segments from a slot.
  What a run keeps as long as neither happens is that every filled slot stays as it is
  and holds the parse of its key, and then every match answers as without a cache.

  The number of matches that hold a slot and the flag that says whether the condition
  was met so far are not in the source; nothing the code computes depends on them.
-/
import TinyFramework.Css.SelectorRun

set_option autoImplicit false

namespace TinyFramework.Css

open TinyFramework.Foundation TinyFramework.Dom

/-! ## The source -/

/-- `CompiledSel`; an unused one is an empty slot of the table. -/
structure CompiledSel where
  sel : Bytes
  /-- `seg`, `comb` and `nseg`. -/
  code : List Segment
  parsed : code = parseComplex sel

/-- `snprintf` into the key of 160 bytes, and the parse of the key. -/
def compileSel (sel : Bytes) : CompiledSel := ⟨sel.take 159, parseComplex (sel.take 159), rfl⟩

/-- `g_cs` and `g_cs_n`. -/
structure CsTable where
  slots : ProbeTable CompiledSel
  n : Nat

/-- `MINI_CS_CAP` -/
def miniCsCap : Nat := 2048

/-- `cs_hash` -/
def csHash (s : Bytes) : Nat := (fnv1a fnvOffset s).toNat % miniCsCap

namespace CsTable

/-- The eight slots of the chain. -/
def chainOf (sel : Bytes) : List Nat := ProbeTable.chain miniCsCap (csHash sel) 8

/-- The first loop of `cs_get`. -/
def find (st : CsTable) (sel : Bytes) : Option Nat :=
  st.slots.locate (fun c => c.sel == sel) (chainOf sel)

/-- The second loop of `cs_get`, up to the slot it takes. -/
def free (st : CsTable) (sel : Bytes) : Option Nat :=
  st.slots.claim (fun _ => false) (chainOf sel)

/-- `g_cs_n > (MINI_CS_CAP * 3) / 4` -/
def full (st : CsTable) : Bool := miniCsCap * 3 / 4 < st.n

/-- What `code` and `comb` of a slot read as; a cleared slot is all zero. -/
def codeAt (st : CsTable) (i : Nat) : List Segment :=
  match st.slots i with
  | some c => c.code
  | none => []

end CsTable

/-- `cs_get`: the slot of the compiled selector, NULL when there is no room.  A cleared
table has room, so the second try is the last. -/
def csGetTry : Nat → CsTable → Bytes → Option Nat × CsTable
  | 0, st, _ => (none, st)
  | tries + 1, st, sel =>
      match st.find sel with
      | some i => (some i, st)
      | none =>
        match st.free sel with
        | some i => (some i, { slots := st.slots.store i (compileSel sel), n := st.n + 1 })
        | none => if st.full then csGetTry tries ⟨ProbeTable.empty, 0⟩ sel else (none, st)

def csGet (st : CsTable) (sel : Bytes) : Option Nat × CsTable := csGetTry 2 st sel

/-- The condition on a call of `cs_get`: a selector that it compiles fits into the key,
and it does not clear the table while matches hold slots. -/
def CsStepOk (st : CsTable) (held : Nat) (sel : Bytes) : Bool :=
  match st.find sel, st.free sel with
  | some _, _ => true
  | none, some _ => sel.length < 160
  | none, none => !st.full || (held == 0 && sel.length < 160)

/-- The state of a run: the table, the matches in progress that hold a slot, and
whether all calls of `cs_get` so far met the condition. -/
structure CsRun where
  table : CsTable
  held : Nat
  safe : Bool

/-- The table of a new document. -/
def CsRun.initial : CsRun := ⟨⟨ProbeTable.empty, 0⟩, 0, true⟩

/-- A call of `cs_get`. -/
def getSlot (sel : Bytes) : StateM CsRun (Option Nat) := fun st =>
  let r := csGet st.table sel
  (r.1, { st with table := r.2, safe := st.safe && CsStepOk st.table st.held sel })

/-- The segments behind `c->seg` and `c->comb`, read when they are needed. -/
def slotFrame (i : Nat) : Frame (StateM CsRun) := fun k st =>
  ((st.table.codeAt i).getD k (0, []), st)

/-- A match that holds a slot. -/
def holding {α : Type} (x : StateM CsRun α) : StateM CsRun α := fun st =>
  let r := x { st with held := st.held + 1 }
  (r.1, { r.2 with held := st.held })

/-- What `match_complex` does with the result of `cs_get`. -/
def matchCompiled (page : Page) (call : NodeId → Bytes → StateM CsRun Bool) (n : NodeId)
    (sel : Bytes) : Option Nat → StateM CsRun Bool
  | some i => fun st =>
      let nseg := (st.table.codeAt i).length
      if nseg = 0 then (false, st)
      else holding (matchAt page call (slotFrame i) (nseg - 1) n) st
  | none =>
      let code := parseComplex sel
      if code.isEmpty then pure false
      else matchAt page call (fixedFrame code) (code.length - 1) n

/-- `match_complex`; the bound is on the depth of the nested calls. -/
def matchComplexRec (page : Page) : Nat → NodeId → Bytes → StateM CsRun Bool
  | 0, _, _ => pure false
  | fuel + 1, n, sel =>
      if sel.isEmpty then pure false
      else do
        let c ← getSlot sel
        matchCompiled page (matchComplexRec page fuel) n sel c

def matchComplex (page : Page) (n : NodeId) (sel : Bytes) : StateM CsRun Bool :=
  matchComplexRec page (sel.length + 1) n sel

/-- A history of calls, each on the page as it is then. -/
def matchHistory (calls : List (Page × NodeId × Bytes)) : StateM CsRun (List Bool) :=
  calls.mapM fun c => matchComplex c.1 c.2.1 c.2.2

/-! ## One call of `cs_get` -/

section GetSlot

variable {st : CsTable} {held i : Nat} {sel : Bytes} {e : CompiledSel}

theorem compileSel_sel (h : sel.length < 160) : (compileSel sel).sel = sel :=
  List.take_of_length_le (Nat.le_of_lt_succ h)

/-- A slot that is returned is that of the selector, or was just compiled. -/
theorem csGetTry_slot {tries : Nat} (hi : (csGetTry tries st sel).1 = some i) :
    ∃ e, (csGetTry tries st sel).2.slots i = some e ∧
      (e.sel = sel ∨ st.find sel = none ∧ e = compileSel sel) := by
  induction tries generalizing st with
  | zero => cases hi
  | succ tries ih =>
    rw [csGetTry] at hi ⊢
    cases hfind : st.find sel with
    | some j =>
      simp only [hfind, Option.some.injEq] at hi ⊢
      subst hi
      obtain ⟨e, he, hhit⟩ := ProbeTable.locate_eq_some hfind
      exact ⟨e, he, .inl (beq_iff_eq.1 hhit)⟩
    | none =>
      cases hfree : st.free sel with
      | some j =>
        simp only [hfind, hfree, Option.some.injEq] at hi ⊢
        subst hi
        exact ⟨compileSel sel, Function.update_self _ _ _, .inr ⟨trivial, rfl⟩⟩
      | none =>
        simp only [hfind, hfree] at hi ⊢
        split_ifs at hi ⊢
        obtain ⟨e, he, hkey⟩ := ih hi
        exact ⟨e, he, hkey.imp_right fun h => ⟨trivial, h.2⟩⟩

/-- Under the condition the slot holds the selector itself. -/
theorem csGet_slot (hok : CsStepOk st held sel = true) (hi : (csGet st sel).1 = some i) :
    ∃ e, (csGet st sel).2.slots i = some e ∧ e.sel = sel := by
  obtain ⟨e, he, hkey | ⟨hfind, rfl⟩⟩ := csGetTry_slot hi
  · exact ⟨e, he, hkey⟩
  · refine ⟨_, he, compileSel_sel ?_⟩
    rw [CsStepOk, hfind] at hok
    cases hfree : st.free sel with
    | some j => simpa [hfree] using hok
    | none =>
      cases hfull : st.full with
      | true =>
        simp only [hfree, hfull, Bool.not_true, Bool.false_or, Bool.and_eq_true] at hok
        exact of_decide_eq_true hok.2
      | false => simp [csGet, csGetTry, hfind, hfree, hfull] at hi

/-- Under the condition no slot changes that was filled, while a match holds one. -/
theorem csGet_keeps (hok : CsStepOk st held sel = true) (hheld : 0 < held)
    (hi : st.slots i = some e) : (csGet st sel).2.slots i = some e := by
  rw [csGet, csGetTry]
  cases hfind : st.find sel with
  | some j => exact hi
  | none =>
    cases hfree : st.free sel with
    | some j =>
      have hj := ProbeTable.claim_eq_some hfree
      have hne : i ≠ j := by
        rintro rfl
        rw [hi] at hj
        cases hj
      exact (Function.update_of_ne hne _ _).trans hi
    | none =>
      have hfull : st.full = false := by
        rw [CsStepOk, hfind, hfree] at hok
        have hzero : (held == 0) = false := beq_false_of_ne (Nat.ne_of_gt hheld)
        simpa [hzero] using hok
      simpa [hfull] using hi

end GetSlot

/-! ## A match against the match without the cache -/

/-- What a safe stretch of a run keeps: the matches that hold slots, and, when there are
any, every filled slot. -/
structure CsRun.Keeps (st st' : CsRun) : Prop where
  held : st'.held = st.held
  slots : 0 < st.held → ∀ i e, st.table.slots i = some e → st'.table.slots i = some e

namespace CsRun.Keeps

variable {st st' st'' : CsRun}

theorem refl (st : CsRun) : st.Keeps st := ⟨rfl, fun _ _ _ hi => hi⟩

theorem trans (h : st.Keeps st') (h' : st'.Keeps st'') : st.Keeps st'' :=
  ⟨h'.held.trans h.held, fun hpos i e hi =>
    h'.slots (h.held.symm ▸ hpos) i e (h.slots hpos i e hi)⟩

end CsRun.Keeps

/-- A match holds slot `i`, and the slot holds `sel`. -/
def HoldsSlot (i : Nat) (sel : Bytes) (st : CsRun) : Prop :=
  0 < st.held ∧ ∃ e, st.table.slots i = some e ∧ e.sel = sel

theorem HoldsSlot.keeps {i : Nat} {sel : Bytes} {st st' : CsRun} (h : HoldsSlot i sel st)
    (hkeep : st.Keeps st') : HoldsSlot i sel st' := by
  obtain ⟨hpos, e, he, hsel⟩ := h
  exact ⟨hkeep.held.symm ▸ hpos, e, hkeep.slots hpos i e he, hsel⟩

theorem HoldsSlot.codeAt {i : Nat} {sel : Bytes} {st : CsTable}
    (h : ∃ e, st.slots i = some e ∧ e.sel = sel) : st.codeAt i = parseComplex sel := by
  obtain ⟨e, he, rfl⟩ := h
  rw [CsTable.codeAt, he]
  exact e.parsed

/-- A run with the cache against one without: as long as the condition is met, it gives
the same value wherever `I` holds, and keeps what a safe stretch keeps. -/
def withCache (I : CsRun → Prop) (hI : ∀ st st', I st → st.Keeps st' → I st') :
    Lockstep (StateM CsRun) Id where
  agree x v := ∀ st, (x st).2.safe = true →
    st.safe = true ∧ (I st → (x st).1 = v ∧ st.Keeps (x st).2)
  pure a st hsafe := ⟨hsafe, fun _ => ⟨rfl, CsRun.Keeps.refl st⟩⟩
  bind {α β x v f f'} hx hf st hsafe := by
    obtain ⟨hmid, hrest⟩ := hf (x st).1 (x st).2 hsafe
    obtain ⟨hst, hval⟩ := hx st hmid
    refine ⟨hst, fun hIst => ?_⟩
    obtain ⟨hv, hkeep⟩ := hval hIst
    obtain ⟨hv', hkeep'⟩ := hrest (hI _ _ hIst hkeep)
    subst hv
    exact ⟨hv', hkeep.trans hkeep'⟩

/-- The comparison that holds in every state. -/
def anyCache : Lockstep (StateM CsRun) Id := withCache (fun _ => True) fun _ _ _ _ => trivial

/-- The comparison in the states of a match that holds a slot. -/
def slotCache (i : Nat) (sel : Bytes) : Lockstep (StateM CsRun) Id :=
  withCache (HoldsSlot i sel) fun _ _ => HoldsSlot.keeps

theorem slotFrame_reads (i : Nat) (sel : Bytes) (k : Nat) :
    (slotCache i sel).Reads (fun seg => seg.2.length ≤ 127) (slotFrame i k)
      (fixedFrame (parseComplex sel) k) := by
  intro γ f f' hf st hsafe
  have hshort : ((st.table.codeAt i).getD k (0, [])).2.length ≤ 127 := by
    refine length_getD (fun seg hseg => ?_) k
    rw [CsTable.codeAt] at hseg
    cases hi : st.table.slots i with
    | none => simp [hi] at hseg
    | some e =>
      simp only [hi, e.parsed] at hseg
      exact (length_parseComplex hseg).2
  obtain ⟨hst, hval⟩ := hf _ hshort st hsafe
  refine ⟨hst, fun hI => ?_⟩
  obtain ⟨hv, hkeep⟩ := hval hI
  have hcode := HoldsSlot.codeAt hI.2
  refine ⟨hv.trans ?_, hkeep⟩
  rw [hcode]
  rfl

/-- A nested call is compared in every state, so in those of a match that holds a slot. -/
theorem agree_slot {α : Type} {x : StateM CsRun α} {v : α} {i : Nat} {sel : Bytes}
    (h : anyCache.agree x v) : (slotCache i sel).agree x v :=
  fun st hsafe => ⟨(h st hsafe).1, fun _ => (h st hsafe).2 trivial⟩

section Compiled

variable {page : Page} {call : NodeId → Bytes → StateM CsRun Bool}
  {call' : NodeId → Bytes → Id Bool}

/-- The fallback that parses on the stack. -/
theorem matchCompiled_none (hcall : ∀ n t, anyCache.agree (call n t) (call' n t)) (n : NodeId) (sel : Bytes) :
    anyCache.agree (matchCompiled page call n sel none)
      (if (parseComplex sel).isEmpty then false
        else Id.run (matchAt page call' (fixedFrame (parseComplex sel))
          ((parseComplex sel).length - 1) n)) := by
  refine Lockstep.agree_ite (fun _ => anyCache.pure false) fun _ => ?_
  refine matchAt_agree (B := 127) (fun n t _ => hcall n t) ?_ _ n
  intro k γ f f' hf
  exact hf _ (length_getD (fun seg hseg => (length_parseComplex hseg).2) k)

/-- A match through slot `i`, from the state in which it gets the slot on. -/
theorem matchCompiled_some (hcall : ∀ n t, anyCache.agree (call n t) (call' n t)) (i : Nat) (n : NodeId) (sel : Bytes) {st : CsRun}
    (hsafe : (matchCompiled page call n sel (some i) st).2.safe = true) :
    st.safe = true ∧ ((∃ e, st.table.slots i = some e ∧ e.sel = sel) →
      (matchCompiled page call n sel (some i) st).1 =
        (if (parseComplex sel).isEmpty then false
          else Id.run (matchAt page call' (fixedFrame (parseComplex sel))
            ((parseComplex sel).length - 1) n)) ∧
      st.Keeps (matchCompiled page call n sel (some i) st).2) := by
  have hmatch := @matchAt_agree _ _ _ _ (slotCache i sel) page _ _ 127 _ _ _ _
    (fun n t _ => agree_slot (hcall n t)) (slotFrame_reads i sel)
    ((st.table.codeAt i).length - 1) n
  rw [matchCompiled] at hsafe ⊢
  dsimp only at hsafe ⊢
  split_ifs at hsafe with hzero
  · rw [if_pos hzero]
    refine ⟨hsafe, fun hslot => ?_⟩
    have hempty := List.length_eq_zero_iff.1 hzero
    rw [HoldsSlot.codeAt hslot] at hempty
    rw [hempty]
    exact ⟨rfl, CsRun.Keeps.refl st⟩
  · rw [if_neg hzero]
    obtain ⟨hst, hval⟩ := hmatch { st with held := st.held + 1 } hsafe
    refine ⟨hst, fun hslot => ?_⟩
    obtain ⟨hv, hkeep⟩ := hval ⟨Nat.succ_pos _, hslot⟩
    have hcode := HoldsSlot.codeAt hslot
    rw [hcode] at hv hzero ⊢
    have hne : ¬ (parseComplex sel).isEmpty = true := fun hempty =>
      hzero (List.length_eq_zero_iff.2 (List.isEmpty_iff.1 hempty))
    rw [if_neg hne]
    exact ⟨hv, rfl, fun _ i e hi => by
      rw [← hcode]
      exact hkeep.slots (Nat.succ_pos _) i e hi⟩

end Compiled

/-- Induction on the depth: the slot of a match stays filled with its selector through
all nested calls. -/
theorem matchComplexRec_agree (page : Page) (fuel : Nat) (n : NodeId) (sel : Bytes) :
    anyCache.agree (matchComplexRec page fuel n sel) (matchFreshRec page fuel n sel) := by
  induction fuel generalizing n sel with
  | zero => exact anyCache.pure false
  | succ fuel ih =>
    rw [matchComplexRec, matchFreshRec]
    cases hempty : sel.isEmpty with
    | true => exact anyCache.pure false
    | false =>
      intro st hsafe
      have hgot : (getSlot sel st).2.safe = true →
          st.safe = true ∧ st.Keeps (getSlot sel st).2 ∧
            ∀ i, (csGet st.table sel).1 = some i →
              ∃ e, (getSlot sel st).2.table.slots i = some e ∧ e.sel = sel := by
        intro hsafe
        obtain ⟨hst, hok⟩ := Bool.and_eq_true_iff.1 hsafe
        exact ⟨hst, ⟨rfl, fun hpos i e hi => csGet_keeps hok hpos hi⟩, fun i => csGet_slot hok⟩
      have hrun : (do let c ← getSlot sel; matchCompiled page (matchComplexRec page fuel) n sel c) st =
          matchCompiled page (matchComplexRec page fuel) n sel (csGet st.table sel).1
            (getSlot sel st).2 := rfl
      simp only [Bool.false_eq_true, if_false, Bool.false_or, hrun] at hsafe ⊢
      cases hget : (csGet st.table sel).1 with
      | none =>
        rw [hget] at hsafe
        obtain ⟨hmid, hval⟩ := matchCompiled_none ih n sel _ hsafe
        obtain ⟨hst, hkeep, -⟩ := hgot hmid
        refine ⟨hst, fun _ => ?_⟩
        obtain ⟨hv, hkeep'⟩ := hval trivial
        exact ⟨hv, hkeep.trans hkeep'⟩
      | some i =>
        rw [hget] at hsafe
        obtain ⟨hmid, hval⟩ := matchCompiled_some ih i n sel hsafe
        obtain ⟨hst, hkeep, hslot⟩ := hgot hmid
        refine ⟨hst, fun _ => ?_⟩
        obtain ⟨hv, hkeep'⟩ := hval (hslot i hget)
        exact ⟨hv, hkeep.trans hkeep'⟩

/-- One call, from any state of the table. -/
theorem matchComplex_agree (page : Page) (n : NodeId) (sel : Bytes) :
    anyCache.agree (matchComplex page n sel) (matchFresh page n sel) :=
  matchComplexRec_agree page (sel.length + 1) n sel

theorem matchHistory_agree (calls : List (Page × NodeId × Bytes)) :
    anyCache.agree (matchHistory calls) (calls.map fun c => matchFresh c.1 c.2.1 c.2.2) := by
  induction calls with
  | nil => exact anyCache.pure []
  | cons c calls ih =>
    rw [matchHistory, List.mapM_cons]
    exact anyCache.bind (matchComplex_agree c.1 c.2.1 c.2.2) fun b =>
      anyCache.bind ih fun bs => anyCache.pure (b :: bs)

/-- In a history whose calls of `cs_get` all meet the condition, every match answers as
on a freshly parsed selector. -/
theorem matchHistory_of_safe (calls : List (Page × NodeId × Bytes))
    (hsafe : (matchHistory calls .initial).2.safe = true) :
    (matchHistory calls .initial).1 = calls.map fun c => matchFresh c.1 c.2.1 c.2.2 :=
  ((matchHistory_agree calls .initial hsafe).2 trivial).1

/-- A page of one element. -/
def onePage (tag : String) : Page :=
  { heap := (miniNodeCreateElement NodeHeap.empty (some (ascii tag))).2
    ui := fun _ => ⟨false, false, false⟩ }

/-- The second call finds the compiled selector, and both make nested calls. -/
theorem matchHistory_of_safe_nested :
    (matchHistory [(onePage "a", 0, ascii ":is(b, a)"), (onePage "b", 0, ascii ":is(b, a)")]
      .initial).1 =
    [matchFresh (onePage "a") 0 (ascii ":is(b, a)"), matchFresh (onePage "b") 0 (ascii ":is(b, a)")] :=
  matchHistory_of_safe [(onePage "a", 0, ascii ":is(b, a)"), (onePage "b", 0, ascii ":is(b, a)")]
    (by decide +kernel)

/-- The key of a selector of 160 bytes is cut in front of its only name. -/
theorem long_selector_cut :
    let sel := List.replicate 159 32 ++ ascii "a"
    sel.length ≤ 511 ∧ (matchHistory [(onePage "a", 0, sel)] .initial).1 = [false] ∧
      matchFresh (onePage "a") 0 sel = true := by
  decide +kernel

end TinyFramework.Css
