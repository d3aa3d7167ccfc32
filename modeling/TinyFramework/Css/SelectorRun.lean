/-
  Css/SelectorRun.lean --- the matcher in two monads.

  A match asks nothing of its surroundings but its nested calls and the segments it
  reads.  When both runs of a match answer these alike, they answer the match alike
  (`matchAt_agree`); one argument covers the whole matcher.  Nested calls are about
  shorter texts, so the bound on their depth does no harm (`matchFresh_eq`).
-/
import TinyFramework.Foundation.Loops
import TinyFramework.Css.Selector

set_option autoImplicit false

namespace TinyFramework.Css

open TinyFramework.Foundation TinyFramework.Dom

/-! ## Nested texts are shorter -/

theorem length_readSome (cap : Nat) (more : UInt8 → Bool) (p : Bytes) :
    (readSome cap more p).2.length ≤ p.length := by
  simp only [readSome, List.length_drop]
  exact Nat.sub_le _ _

theorem length_readArg (depth : Nat) (arg p : Bytes) :
    (readArg depth arg p).1.length ≤ arg.length + p.length := by
  induction p generalizing depth arg with
  | nil => simp [readArg]
  | cons c p ih =>
    have hkeep : (if arg.length < 127 then arg ++ [c] else arg).length ≤ arg.length + 1 := by
      split_ifs <;> simp
    unfold readArg
    dsimp only
    generalize (if arg.length < 127 then arg ++ [c] else arg) = keep at hkeep ⊢
    have hstep : ∀ depth, (readArg depth keep p).1.length ≤ arg.length + (c :: p).length := by
      intro depth
      have hrest := ih depth keep
      rw [List.length_cons]
      omega
    split_ifs
    · exact hstep _
    · split
      · exact Nat.le_add_right _ _
      · exact Nat.le_add_right _ _
      · exact hstep _
    · exact hstep _

/-- The argument of a pseudo-class is shorter than the text it stands in. -/
theorem length_readSimple {p rest name arg : Bytes}
    (h : readSimple p = some (.pseudo name arg, rest)) : arg.length < p.length := by
  unfold readSimple at h
  split at h
  · cases h
  · cases h
  · simp [readAttr] at h
  · rename_i p
    have hcolon : (if p.head? = some 58 then p.drop 1 else p).length ≤ p.length := by
      split_ifs <;> simp
    have hname := length_readSome 31 (fun c => isalnum c || c == 45)
      (if p.head? = some 58 then p.drop 1 else p)
    simp only [readPseudo, Option.some.injEq, Prod.mk.injEq, Simple.pseudo.injEq] at h
    obtain ⟨⟨-, rfl⟩, -⟩ := h
    rw [List.length_cons]
    split
    · rename_i q hq
      have hlen := length_readArg 1 [] q
      rw [hq] at hname
      simp only [List.length_cons, List.length_nil] at hname hlen
      omega
    · simp
  · cases h

theorem length_commaPieces {s t : Bytes} (h : t ∈ commaPieces s) : t.length ≤ s.length := by
  induction s generalizing t with
  | nil => simpa [commaPieces] using h
  | cons c s ih =>
    rw [commaPieces] at h
    rw [List.length_cons]
    split_ifs at h
    · rcases List.mem_cons.1 h with rfl | h
      · simp
      · exact Nat.le_succ_of_le (ih h)
    · cases hs : commaPieces s with
      | nil =>
        rw [hs] at h
        obtain rfl := List.mem_singleton.1 h
        simp
      | cons u us =>
        rw [hs] at h ih
        rcases List.mem_cons.1 h with rfl | h
        · exact Nat.succ_le_succ (ih List.mem_cons_self)
        · exact Nat.le_succ_of_le (ih (List.mem_cons_of_mem u h))

theorem length_commaTokens {s t : Bytes} (h : t ∈ commaTokens s) : t.length ≤ s.length := by
  obtain ⟨u, hu, rfl⟩ := List.mem_map.1 h
  have hsub := length_commaPieces (List.mem_filter.1 hu).1
  exact Nat.le_trans (List.dropWhile_suffix _).length_le hsub

/-! ## Both runs of a match -/

section Agree

variable {m m' : Type → Type} [Monad m] [Monad m'] {L : Lockstep m m'} {page : Page}
  {call : NodeId → Bytes → m Bool} {call' : NodeId → Bytes → m' Bool} {n : NodeId} {B : Nat}

theorem hasDescendant_agree {sel : Bytes} (hcall : ∀ n, L.agree (call n sel) (call' n sel))
    (fuel : Nat) (stack : List NodeId) :
    L.agree (hasDescendant page call sel fuel stack) (hasDescendant page call' sel fuel stack) := by
  induction fuel generalizing stack with
  | zero => exact L.pure false
  | succ fuel ih =>
    cases stack with
    | nil => exact L.pure false
    | cons cur stack =>
      refine Lockstep.agree_ite (fun _ => ?_) fun _ => ih stack
      exact Lockstep.agree_test (hcall cur) (L.pure true) (ih _)

theorem hasPseudo_agree {arg : Bytes}
    (hcall : ∀ n t, t.length ≤ arg.length → L.agree (call n t) (call' n t)) :
    L.agree (hasPseudo page n call arg) (hasPseudo page n call' arg) := by
  have hskip : (arg.dropWhile isspace).length ≤ arg.length := (List.dropWhile_suffix _).length_le
  unfold hasPseudo
  split
  · rename_i r hr
    rw [hr, List.length_cons] at hskip
    have hchild : (r.dropWhile isspace).length ≤ r.length := (List.dropWhile_suffix _).length_le
    refine Lockstep.agree_anyM fun c _ => Lockstep.agree_ite (fun _ => ?_) fun _ => L.pure false
    exact hcall c _ (by omega)
  · rename_i r hr
    rw [hr, List.length_cons] at hskip
    split
    · exact hcall _ r (by omega)
    · exact L.pure false
  · rename_i r hr
    rw [hr, List.length_cons] at hskip
    exact Lockstep.agree_anyM fun s _ => hcall s r (by omega)
  · exact hasDescendant_agree (fun n => hcall n _ hskip) _ _

theorem matchPseudo_agree {name arg : Bytes}
    (hcall : ∀ n t, t.length ≤ arg.length → L.agree (call n t) (call' n t)) :
    L.agree (matchPseudo page n call name arg) (matchPseudo page n call' name arg) := by
  have hlist : ∀ k, L.agree ((commaTokens (arg.take k)).anyM (call n))
      ((commaTokens (arg.take k)).anyM (call' n)) := by
    intro k
    refine Lockstep.agree_anyM fun t ht => hcall n t ?_
    exact Nat.le_trans (length_commaTokens ht) (List.length_take_le' k arg)
  unfold matchPseudo
  split
  · exact L.pure _
  · refine Lockstep.agree_ite (fun _ => hlist 255) fun _ => ?_
    refine Lockstep.agree_ite (fun _ => ?_) fun _ => ?_
    · exact Lockstep.agree_ite (fun _ => L.pure false) fun _ => hasPseudo_agree hcall
    · refine Lockstep.agree_ite (fun _ => ?_) fun _ => L.pure _
      exact Lockstep.agree_ite (fun _ => L.pure false) fun _ =>
        L.bind (hlist 127) fun any => L.pure (!any)

theorem compoundLoop_agree {text : m Bytes} {text' : m' Bytes}
    (hcall : ∀ n t, t.length < B → L.agree (call n t) (call' n t))
    (htext : L.Reads (fun t => t.length ≤ B) text text') (fuel p : Nat) :
    L.agree (compoundLoop page call text n fuel p) (compoundLoop page call' text' n fuel p) := by
  induction fuel generalizing p with
  | zero => exact L.pure true
  | succ fuel ih =>
    refine htext _ _ fun sel hsel => ?_
    split
    · exact L.pure true
    · rename_i s rest hread
      refine Lockstep.agree_test ?_ (ih _) (L.pure false)
      cases s with
      | cls tok => exact L.pure _
      | id tok => exact L.pure _
      | attr an op av => exact L.pure _
      | pseudo name arg =>
        have harg := length_readSimple hread
        rw [List.length_drop] at harg
        exact matchPseudo_agree fun n t ht => hcall n t (by omega)

theorem matchCompound_agree {text : m Bytes} {text' : m' Bytes}
    (hcall : ∀ n t, t.length < B → L.agree (call n t) (call' n t))
    (htext : L.Reads (fun t => t.length ≤ B) text text') :
    L.agree (matchCompound page call text n) (matchCompound page call' text' n) := by
  refine Lockstep.agree_ite (fun _ => L.pure false) fun _ => ?_
  refine htext _ _ fun sel _ => ?_
  exact Lockstep.agree_ite (fun _ => compoundLoop_agree hcall htext _ _) fun _ => L.pure false

/-- The whole match: nested calls about shorter texts and the segments decide it. -/
theorem matchAt_agree [LawfulMonad m] [LawfulMonad m'] {frame : Frame m} {frame' : Frame m'}
    (hcall : ∀ n t, t.length < B → L.agree (call n t) (call' n t))
    (hframe : ∀ k, L.Reads (fun seg => seg.2.length ≤ B) (frame k) (frame' k)) (idx : Nat)
    (n : NodeId) :
    L.agree (matchAt page call frame idx n) (matchAt page call' frame' idx n) := by
  have hcompound : ∀ k n, L.agree
      (matchCompound page call (do return (← frame k).2) n)
      (matchCompound page call' (do return (← frame' k).2) n) := by
    intro k n
    refine matchCompound_agree hcall ?_
    simp only [bind_pure_comp]
    exact Lockstep.Reads.map (hframe k) fun seg hseg => hseg
  induction idx generalizing n with
  | zero => exact hcompound 0 n
  | succ idx ih =>
    refine Lockstep.agree_test (hcompound (idx + 1) n) ?_ (L.pure false)
    refine hframe (idx + 1) _ _ fun seg _ => ?_
    refine Lockstep.agree_ite (fun _ => ?_) fun _ => ?_
    · split
      · exact ih _
      · exact L.pure false
    refine Lockstep.agree_ite (fun _ => Lockstep.agree_anyM fun a _ => ih a) fun _ => ?_
    refine Lockstep.agree_ite (fun _ => ?_) fun _ => ?_
    · split
      · exact ih _
      · exact L.pure false
    exact Lockstep.agree_ite (fun _ => Lockstep.agree_anyM fun a _ => ih a) fun _ => L.pure false

end Agree

/-! ## The length of the segments -/

/-- The segments written so far, and the one being written with what is left to read,
are no longer than `B` and the buffer. -/
structure Split.Fits (B : Nat) (st : Split) (rest : Bytes) : Prop where
  done : ∀ seg ∈ st.done, seg.2.length ≤ B ∧ seg.2.length ≤ 127
  seg : st.seg.length + rest.length ≤ B
  buffer : st.seg.length ≤ 127

namespace Split.Fits

variable {B : Nat} {st : Split} {s s' : Bytes}

theorem push (h : st.Fits B s) {bs : Bytes} (hs : bs.length + s'.length ≤ s.length) :
    (st.push bs).Fits B s' := by
  refine ⟨h.done, ?_, ?_⟩
  · have hseg := h.seg
    simp only [Split.push, List.length_take, List.length_append]
    omega
  · simp only [Split.push, List.length_take]
    exact Nat.min_le_left _ _

theorem shorter (h : st.Fits B s) (hs : s'.length ≤ s.length) : st.Fits B s' :=
  ⟨h.done, Nat.le_trans (Nat.add_le_add_left hs _) h.seg, h.buffer⟩

theorem sawWs (h : st.Fits B s) (b : Bool) : Split.Fits B { st with sawWs := b } s :=
  ⟨h.done, h.seg, h.buffer⟩

theorem next (h : st.Fits B s) (maxseg : Nat) (c : UInt8) : (st.next maxseg c).Fits B s := by
  unfold Split.next
  split_ifs
  · refine ⟨?_, ?_, Nat.zero_le _⟩
    · intro seg hseg
      rcases List.mem_append.1 hseg with hseg | hseg
      · exact h.done seg hseg
      · obtain rfl := List.mem_singleton.1 hseg
        exact ⟨Nat.le_trans (Nat.le_add_right _ _) h.seg, h.buffer⟩
    · have hseg := h.seg
      simp only [List.length_nil]
      omega
  · exact h

end Split.Fits

theorem length_readGroup (depth : Nat) (s : Bytes) :
    (readGroup depth s).1.length + (readGroup depth s).2.length = s.length := by
  induction s generalizing depth with
  | nil => rfl
  | cons c s ih =>
    unfold readGroup
    dsimp only
    generalize (if c == 40 then depth + 1 else if c == 41 then depth - 1 else depth) = d
    split_ifs
    · simp [Nat.add_comm]
    · have hrest := ih d
      simp only [List.length_cons]
      omega

theorem length_span (p : UInt8 → Bool) (s : Bytes) :
    (s.takeWhile p).length + (s.dropWhile p).length = s.length := by
  rw [← List.length_append, List.takeWhile_append_dropWhile]

section SplitLoop

variable {B : Nat} {st : Split} {s : Bytes}

theorem Split.Fits.splitAttr (h : st.Fits B (91 :: s)) :
    (splitAttr st s).1.Fits B (splitAttr st s).2 := by
  have hspan := length_span (· != 93) s
  have hpush : ((st.push [91]).push (s.takeWhile (· != 93))).Fits B (s.dropWhile (· != 93)) := by
    have hbracket : (st.push [91]).Fits B s := h.push (by simp [Nat.add_comm])
    exact hbracket.push (by omega)
  unfold Css.splitAttr
  dsimp only
  split_ifs with hhead
  · have hclosed : (((st.push [91]).push (s.takeWhile (· != 93))).push [93]).Fits B
        ((s.dropWhile (· != 93)).drop 1) := by
      refine hpush.push ?_
      cases hd : s.dropWhile (· != 93) with
      | nil => simp [hd] at hhead
      | cons c r => simp [Nat.add_comm]
    exact hclosed.sawWs false
  · exact hpush.sawWs false

theorem Split.Fits.splitPseudo (h : st.Fits B (58 :: s)) :
    (splitPseudo st s).1.Fits B (splitPseudo st s).2 := by
  have hfirst : (st.push [58]).Fits B s := h.push (by simp [Nat.add_comm])
  unfold Css.splitPseudo
  dsimp only
  generalize hsecond : (if s.head? = some 58 ∧ (st.push [58]).seg.length < 127 then
    ((st.push [58]).push [58], s.drop 1) else (st.push [58], s)) = second
  have hsec : second.1.Fits B second.2 := by
    rw [← hsecond]
    split_ifs with hcolon
    · refine hfirst.push ?_
      cases s with
      | nil => simp at hcolon
      | cons c r => simp [Nat.add_comm]
    · exact hfirst
  have hspan := length_span (fun c => isalnum c || c == 45) second.2
  generalize second.2.takeWhile (fun c => isalnum c || c == 45) = name at hspan ⊢
  have hname : (second.1.push name).Fits B (second.2.drop name.length) := by
    refine hsec.push ?_
    simp only [List.length_drop]
    omega
  split_ifs
  · refine (hname.push ?_).sawWs false
    exact Nat.le_of_eq (length_readGroup 0 _)
  · exact hname.sawWs false

theorem Split.Fits.splitChar {c : UInt8} (h : st.Fits B (c :: s)) (maxseg : Nat) :
    (splitChar maxseg st c).Fits B s := by
  unfold Css.splitChar
  split_ifs
  · exact ((h.next maxseg 32).push (by simp [Nat.add_comm])).sawWs false
  · exact h.push (by simp [Nat.add_comm])

theorem Split.Fits.splitLoop (h : st.Fits B s) (maxseg fuel : Nat) :
    (splitLoop maxseg fuel st s).Fits B [] := by
  induction fuel generalizing st s with
  | zero => exact h.shorter (Nat.zero_le _)
  | succ fuel ih =>
    cases s with
    | nil => exact h
    | cons c s =>
      have hrest : st.Fits B s := h.shorter (Nat.le_succ _)
      unfold Css.splitLoop
      split_ifs with hattr hpseudo hspace hcomb
      · obtain rfl := beq_iff_eq.1 hattr
        exact ih h.splitAttr
      · obtain rfl := beq_iff_eq.1 hpseudo
        exact ih h.splitPseudo
      · exact ih (hrest.sawWs true)
      · refine ih (((hrest.next maxseg c).sawWs false).shorter ?_)
        exact (List.dropWhile_suffix _).length_le
      · exact ih (h.splitChar maxseg)

end SplitLoop

/-- A segment fits into its buffer and is no longer than the selector. -/
theorem length_parseComplex {s0 : Bytes} {seg : Segment} (h : seg ∈ parseComplex s0) :
    seg.2.length ≤ s0.length ∧ seg.2.length ≤ 127 := by
  have hskip : (s0.dropWhile isspace).length ≤ s0.length := (List.dropWhile_suffix _).length_le
  unfold parseComplex at h
  cases hs : s0.dropWhile isspace with
  | nil => simp [hs] at h
  | cons c s =>
    rw [hs] at h hskip
    have hstart : Split.Fits s0.length ⟨[], 0, [], false⟩ (c :: s) :=
      ⟨fun _ hseg => absurd hseg List.not_mem_nil, by simpa using hskip, Nat.zero_le _⟩
    have hend := hstart.splitLoop 16 (s.length + 1)
    rcases List.mem_append.1 h with h | h
    · exact hend.done seg h
    · obtain rfl := List.mem_singleton.1 h
      exact ⟨hend.seg, hend.buffer⟩

theorem length_getD {B : Nat} {code : List Segment} (h : ∀ seg ∈ code, seg.2.length ≤ B)
    (k : Nat) : (code.getD k (0, [])).2.length ≤ B := by
  rw [List.getD_eq_getElem?_getD]
  cases hk : code[k]? with
  | none => exact Nat.zero_le B
  | some seg => exact h seg (List.mem_of_getElem? hk)

/-! ## The depth of the nested calls -/

/-- Two pure runs that give the same value. -/
def sameValue : Lockstep Id Id where
  agree x y := x = y
  pure _ := rfl
  bind hx hf := by
    subst hx
    exact hf _

/-- With room for its text, the bound on the depth is not met. -/
theorem matchFreshRec_eq {page : Page} {n : NodeId} {sel : Bytes} {fuel : Nat}
    (hfuel : sel.length < fuel) : matchFreshRec page fuel n sel = matchFresh page n sel := by
  suffices h : ∀ k k' sel n, sel.length < k → sel.length < k' →
      matchFreshRec page k n sel = matchFreshRec page k' n sel from
    h fuel (sel.length + 1) sel n hfuel (Nat.lt_succ_self _)
  intro k
  induction k with
  | zero => exact fun k' sel n h => absurd h (Nat.not_lt_zero _)
  | succ k ih =>
    intro k' sel n hk hk'
    obtain ⟨k', rfl⟩ := Nat.exists_eq_succ_of_ne_zero (Nat.ne_of_gt (Nat.zero_lt_of_lt hk'))
    unfold matchFreshRec
    dsimp only
    split_ifs
    · rfl
    · refine matchAt_agree (L := sameValue) (B := sel.length) ?_ ?_ _ n
      · exact fun n t ht => ih k' t n (by omega) (by omega)
      · intro i γ f f' hf
        exact hf _ (length_getD (fun seg hseg => (length_parseComplex hseg).1) i)

/-- The match without a cache, unfolded once. -/
theorem matchFresh_eq (page : Page) (n : NodeId) (sel : Bytes) :
    matchFresh page n sel =
      if sel.isEmpty || (parseComplex sel).isEmpty then false
      else Id.run (matchAt page (fun n t => pure (matchFresh page n t))
        (fixedFrame (parseComplex sel)) ((parseComplex sel).length - 1) n) := by
  unfold matchFresh
  rw [matchFreshRec]
  split_ifs
  · rfl
  · refine matchAt_agree (L := sameValue) (B := sel.length) ?_ ?_ _ n
    · exact fun n t ht => matchFreshRec_eq ht
    · intro i γ f f' hf
      exact hf _ (length_getD (fun seg hseg => (length_parseComplex hseg).1) i)

end TinyFramework.Css
