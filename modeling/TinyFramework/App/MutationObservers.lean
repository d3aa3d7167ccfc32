/-
  App/MutationObservers.lean --- the records of the mutation observers.

  A step is one call from outside; a callback lasts from the call of `take_records` that makes it to
  the step with which it returns, and any calls may stand between, of `take_records` as well.  The
  records of a mutation carry its number.  Each mutation comes with the tree that it finds.
-/
import TinyFramework.Foundation.Forest
import TinyFramework.Foundation.Histories

set_option autoImplicit false

namespace TinyFramework.App

open TinyFramework.Foundation

universe u v

/-- Nodes under their parents; every walk up comes to an end. -/
structure MutationTree (α : Type u) where
  parent : α → Option α
  height : Nat
  bounded : ∀ x a, Below parent x a → a ∈ ancestors parent height x

inductive MiniMutationType where
  | childList
  | attributes
  | characterData
  | subtree
  deriving DecidableEq, Repr

abbrev MutationOpts := BitVec 32

def MiniMutationType.bit : MiniMutationType → MutationOpts
  | childList => 1
  | attributes => 2
  | characterData => 4
  | subtree => 8

/-- `opts & type` -/
def MutationOpts.Includes (opts : MutationOpts) (type : MiniMutationType) : Prop :=
  opts &&& type.bit ≠ 0

instance (opts : MutationOpts) (type : MiniMutationType) : Decidable (opts.Includes type) :=
  inferInstanceAs (Decidable (_ ≠ _))

variable {α : Type u} {T : Type v} [DecidableEq α]

structure MiniMutRecord (α : Type u) (T : Type v) where
  mutation : Nat
  target : α
  type : MiniMutationType
  node : Option α
  name : Option T
  value : Option T
  deriving DecidableEq

structure MiniMutationObserver (α : Type u) (T : Type v) where
  cb : Bool
  targets : List (α × MutationOpts) := []
  records : List (MiniMutRecord α T) := []
  deriving DecidableEq

namespace MiniMutationObserver

variable (o : MiniMutationObserver α T)

/-- `mini_mutation_observer_observe` -/
def observe (target : α) (opts : MutationOpts) : MiniMutationObserver α T :=
  if 64 ≤ o.targets.length then o else { o with targets := o.targets ++ [(target, opts)] }

/-- `mini_mutation_observer_disconnect` -/
def disconnect : MiniMutationObserver α T := { o with targets := [] }

/-- The loop over the targets of an observer. -/
def mutateAt (tree : MutationTree α) (r : MiniMutRecord α T) :
    List (α × MutationOpts) → MiniMutationObserver α T
  | [] => o
  | (root, opts) :: targets =>
      let found := root = r.target ∨
        opts.Includes .subtree ∧ root ∈ ancestors tree.parent tree.height r.target
      if ¬ found then mutateAt tree r targets
      else if ¬ opts.Includes r.type ∧ r.type ≠ .characterData then mutateAt tree r targets
      else if o.records.length < 256 then { o with records := o.records ++ [r] }
      else o

end MiniMutationObserver

/-- The observers, which of them are added to the loop, and the callbacks under way, the innermost
first; and for the account, what was asked of each observer since it was last disconnected, how many
mutations there were, and of each record by which it is known: whether its observer was idle when
it was made, was called back while it was there, or has discarded it. -/
structure MutationRun (α : Type u) (T : Type v) where
  observers : List (MiniMutationObserver α T) := []
  mutObs : List Nat := []
  active : List Nat := []
  requested : Nat → List (α × MutationOpts) := fun _ => []
  mutations : Nat := 0
  idle : List (Nat × Nat) := []
  shown : List (Nat × Nat) := []
  discarded : List (Nat × Nat) := []

inductive MutationStep (α : Type u) (T : Type v) where
  | create (cb : Bool)
  | observe (o : Nat) (target : α) (opts : MutationOpts)
  | disconnect (o : Nat)
  | mutate (tree : MutationTree α) (target : α) (type : MiniMutationType) (node : Option α)
      (name value : Option T)
  | takeRecords (o : Nat)
  | callbackReturns

namespace MutationRun

variable (s : MutationRun α T)

/-- The records of an observer, by number. -/
def known (i : Nat) : List (Nat × Nat) :=
  ((s.observers[i]?.map (·.records)).getD []).map fun r => (i, r.mutation)

/-- `mini_mutation_observer_create` and `mini_eventloop_add_mutation` -/
def create (cb : Bool) : MutationRun α T :=
  { s with
    observers := s.observers ++ [{ cb := cb }]
    mutObs := if s.mutObs.length < 64 then s.mutObs ++ [s.observers.length] else s.mutObs }

/-- `mini_eventloop_mutate` -/
def miniEventloopMutate (tree : MutationTree α) (target : α) (type : MiniMutationType)
    (node : Option α) (name value : Option T) : MutationRun α T :=
  let r : MiniMutRecord α T := ⟨s.mutations, target, type, node, name, value⟩
  { s with
    observers := s.mutObs.foldl
      (fun observers i => observers.modify i fun o => o.mutateAt tree r o.targets) s.observers
    mutations := s.mutations + 1
    idle := s.idle ++
      ((List.range s.observers.length).filter (· ∉ s.active)).map fun i => (i, s.mutations) }

/-- The end of `mini_mutation_observer_take_records`: the records are freed. -/
def discard (i : Nat) : MutationRun α T :=
  { s with
    observers := s.observers.modify i fun o => { o with records := [] }
    discarded := s.discarded ++ s.known i }

/-- `mini_mutation_observer_take_records`, as far as the callback. -/
def takeRecords (i : Nat) : MutationRun α T :=
  match s.observers[i]? with
  | none => s
  | some o =>
      if o.records ≠ [] ∧ o.cb then { s with active := i :: s.active, shown := s.shown ++ s.known i }
      else s.discard i

def callbackReturns : MutationRun α T :=
  match s.active with
  | [] => s
  | i :: active => discard { s with active := active } i

def exec : MutationStep α T → MutationRun α T
  | .create cb => s.create cb
  | .observe i target opts =>
      { s with
        observers := s.observers.modify i (·.observe target opts)
        requested :=
          if i < s.observers.length then
            Function.update s.requested i (s.requested i ++ [(target, opts)])
          else s.requested }
  | .disconnect i =>
      { s with
        observers := s.observers.modify i (·.disconnect)
        requested := Function.update s.requested i [] }
  | .mutate tree target type node name value =>
      s.miniEventloopMutate tree target type node name value
  | .takeRecords i => s.takeRecords i
  | .callbackReturns => s.callbackReturns

end MutationRun

/-! ## The law -/

/-- A registration on the target, or one of a subtree on an ancestor. -/
def Covers (tree : MutationTree α) (target : α) (registration : α × MutationOpts) : Prop :=
  registration.1 = target ∨
    registration.2.Includes .subtree ∧ Below tree.parent target registration.1

/-- One of the registrations is for such mutations. -/
def Registered (tree : MutationTree α) (target : α) (type : MiniMutationType)
    (registrations : List (α × MutationOpts)) : Prop :=
  ∃ t ∈ registrations, Covers tree target t ∧ t.2.Includes type

/-- A change of character data is recorded whatever the options are. -/
def Recorded (tree : MutationTree α) (target : α) (type : MiniMutationType)
    (registrations : List (α × MutationOpts)) : Prop :=
  ∃ t ∈ registrations, Covers tree target t ∧ (t.2.Includes type ∨ type = .characterData)

namespace MutationRun

/-- A mutation makes one record in the observers for which `claim` holds, and none in the others; no
other step makes a record. -/
def Produces (claim : MutationRun α T → Nat → MutationTree α → α → MiniMutationType → Prop)
    (s : MutationRun α T) : MutationStep α T → Prop
  | .mutate tree target type node name value =>
      ∀ i o, s.observers[i]? = some o →
        ∃ o', (s.exec (.mutate tree target type node name value)).observers[i]? = some o' ∧
          (claim s i tree target type →
            o'.records = o.records ++ [⟨s.mutations, target, type, node, name, value⟩]) ∧
          (¬ claim s i tree target type → o'.records = o.records)
  | a =>
      ∀ (i : Nat) (o' : MiniMutationObserver α T), (s.exec a).observers[i]? = some o' →
        o'.records = [] ∨
          ∃ o : MiniMutationObserver α T, s.observers[i]? = some o ∧ o'.records = o.records

/-- Observers that are registered for the mutation. -/
def Claimed (s : MutationRun α T) (i : Nat) (tree : MutationTree α) (target : α)
    (type : MiniMutationType) : Prop :=
  Registered tree target type (s.requested i)

/-- There is room for 64 observers, 64 registrations of each and 256 records. -/
def Admitted (s : MutationRun α T) (i : Nat) (tree : MutationTree α) (target : α)
    (type : MiniMutationType) : Prop :=
  i < 64 ∧ Recorded tree target type ((s.requested i).take 64) ∧ (s.known i).length < 256

/-- What was made while its observer was idle, and is discarded, was there when the observer was
called back. -/
def Delivered (s : MutationRun α T) : Prop :=
  ∀ r ∈ s.discarded, r ∈ s.idle → (∃ o, s.observers[r.1]? = some o ∧ o.cb = true) → r ∈ s.shown

/-! ## One observer -/

omit [DecidableEq α] in
theorem mem_ancestors_iff (tree : MutationTree α) {x a : α} :
    a ∈ ancestors tree.parent tree.height x ↔ Below tree.parent x a :=
  ⟨below_of_mem_ancestors, tree.bounded x a⟩

/-- The loop over the targets records once, if there is room. -/
theorem mutateAt_eq (o : MiniMutationObserver α T) (tree : MutationTree α) (r : MiniMutRecord α T)
    (targets : List (α × MutationOpts)) :
    (Recorded tree r.target r.type targets ∧ o.records.length < 256 →
      o.mutateAt tree r targets = { o with records := o.records ++ [r] }) ∧
    (¬ (Recorded tree r.target r.type targets ∧ o.records.length < 256) →
      o.mutateAt tree r targets = o) := by
  induction targets with
  | nil =>
    refine ⟨fun ⟨⟨_, hmem, _⟩, _⟩ => absurd hmem List.not_mem_nil, fun _ => rfl⟩
  | cons t targets ih =>
    obtain ⟨root, opts⟩ := t
    have hcovers : (root = r.target ∨
        opts.Includes .subtree ∧ root ∈ ancestors tree.parent tree.height r.target) ↔
          Covers tree r.target (root, opts) := by
      rw [mem_ancestors_iff]
      exact Iff.rfl
    have hrecorded : Recorded tree r.target r.type ((root, opts) :: targets) ↔
        Covers tree r.target (root, opts) ∧ (opts.Includes r.type ∨ r.type = .characterData) ∨
          Recorded tree r.target r.type targets := by
      simp only [Recorded, List.exists_mem_cons_iff]
    simp only [MiniMutationObserver.mutateAt, hrecorded]
    by_cases hfound : root = r.target ∨
        opts.Includes .subtree ∧ root ∈ ancestors tree.parent tree.height r.target
    · have hcovered := hcovers.1 hfound
      by_cases hfor : opts.Includes r.type ∨ r.type = .characterData
      · have hpass : ¬ (¬ opts.Includes r.type ∧ r.type ≠ .characterData) := by
          rintro ⟨hopts, htype⟩
          exact hfor.elim hopts htype
        rw [if_neg (not_not.2 hfound), if_neg hpass]
        refine ⟨fun ⟨_, hroom⟩ => if_pos hroom, fun hnot => if_neg fun hroom => hnot ⟨?_, hroom⟩⟩
        exact Or.inl ⟨hcovered, hfor⟩
      · have hskip : ¬ opts.Includes r.type ∧ r.type ≠ .characterData := not_or.1 hfor
        rw [if_neg (not_not.2 hfound), if_pos hskip]
        simpa only [hfor, and_false, false_or] using ih
    · have huncovered : ¬ Covers tree r.target (root, opts) := fun h => hfound (hcovers.2 h)
      rw [if_pos hfound]
      simpa only [huncovered, false_and, false_or] using ih

omit [DecidableEq α] in
theorem observe_targets (o : MiniMutationObserver α T) {requested : List (α × MutationOpts)}
    (h : o.targets = requested.take 64) (target : α) (opts : MutationOpts) :
    (o.observe target opts).targets = (requested ++ [(target, opts)]).take 64 := by
  have hlength : o.targets.length = min 64 requested.length := by rw [h, List.length_take]
  unfold MiniMutationObserver.observe
  split_ifs with hfull
  · rw [List.take_append_of_le_length (by omega), h]
  · rw [h, List.take_of_length_le (by omega), List.take_of_length_le (by simp; omega)]

/-! ## All observers -/

theorem length_foldl_modify {β : Type u} (f : β → β) (is : List Nat) (l : List β) :
    (is.foldl (fun l i => l.modify i f) l).length = l.length := by
  induction is generalizing l with
  | nil => rfl
  | cons i is ih => rw [List.foldl_cons, ih, List.length_modify]

/-- A loop over observers that are all different changes each of them once. -/
theorem getElem?_foldl_modify {β : Type u} (f : β → β) {is : List Nat} (his : is.Nodup)
    (l : List β) (j : Nat) :
    (is.foldl (fun l i => l.modify i f) l)[j]? = if j ∈ is then l[j]?.map f else l[j]? := by
  induction is generalizing l with
  | nil => rfl
  | cons i is ih =>
    obtain ⟨hi, his⟩ := List.nodup_cons.1 his
    rw [List.foldl_cons, ih his, List.getElem?_modify]
    by_cases hj : i = j
    · subst hj
      rw [if_neg hi, if_pos (List.mem_cons_self ..)]
      cases l[i]? <;> simp
    · simp only [hj, if_false, List.mem_cons, Ne.symm hj, false_or]
      cases l[j]? <;> rfl

section Invariant

variable {s : MutationRun α T}

/-- The observers that are added to the loop are the first 64; they keep the first 64 of what is
asked of them; and a callback has been shown the records that were made before it. -/
structure Inv (s : MutationRun α T) : Prop where
  added : s.mutObs = List.range (min 64 s.observers.length)
  targets : ∀ (i : Nat) o, s.observers[i]? = some o → o.targets = (s.requested i).take 64
  unasked : ∀ i, s.observers.length ≤ i → s.requested i = []
  numbered : ∀ r ∈ s.idle, r.2 < s.mutations
  made : ∀ (i : Nat) o, s.observers[i]? = some o → ∀ r ∈ o.records, r.mutation < s.mutations
  past : ∀ r ∈ s.discarded, r.1 < s.observers.length ∧ r.2 < s.mutations
  seen : ∀ (i : Nat) o, s.observers[i]? = some o → ∀ r ∈ o.records, i ∈ s.active →
    (i, r.mutation) ∈ s.idle → (i, r.mutation) ∈ s.shown
  delivered : s.Delivered

omit [DecidableEq α] in
theorem Inv.start : Inv ({} : MutationRun α T) where
  added := rfl
  targets _ _ h := by cases h
  unasked _ _ := rfl
  numbered _ h := absurd h List.not_mem_nil
  made _ _ h := by cases h
  past _ h := absurd h List.not_mem_nil
  seen _ _ h := by cases h
  delivered _ h := absurd h List.not_mem_nil

omit [DecidableEq α] in
theorem mem_known {i : Nat} {x : Nat × Nat} :
    x ∈ s.known i ↔ ∃ o, s.observers[i]? = some o ∧ ∃ r ∈ o.records, (i, r.mutation) = x := by
  unfold known
  cases s.observers[i]? with
  | none => simp
  | some o => simp

omit [DecidableEq α] in
/-- What the observers are after a change of one of them. -/
theorem modify_cases {i j : Nat} {f : MiniMutationObserver α T → MiniMutationObserver α T}
    {o' : MiniMutationObserver α T} (h : (s.observers.modify i f)[j]? = some o') :
    ∃ o, s.observers[j]? = some o ∧ (j = i ∧ o' = f o ∨ j ≠ i ∧ o' = o) := by
  rw [List.getElem?_modify] at h
  obtain ⟨o, ho, hf⟩ := Option.map_eq_some_iff.1 h
  refine ⟨o, ho, ?_⟩
  by_cases hij : i = j
  · rw [if_pos hij] at hf
    exact Or.inl ⟨hij.symm, hf.symm⟩
  · rw [if_neg hij] at hf
    exact Or.inr ⟨Ne.symm hij, hf.symm⟩

omit [DecidableEq α] in
theorem create_cases {cb : Bool} {i : Nat} {o : MiniMutationObserver α T}
    (h : (s.create cb).observers[i]? = some o) :
    s.observers[i]? = some o ∨ i = s.observers.length ∧ o = { cb := cb } := by
  have h : (s.observers ++ [{ cb := cb }])[i]? = some o := h
  rcases Nat.lt_trichotomy i s.observers.length with hlt | heq | hgt
  · rw [List.getElem?_append_left hlt] at h
    exact Or.inl h
  · subst heq
    rw [List.getElem?_concat_length] at h
    exact Or.inr ⟨rfl, (Option.some.inj h).symm⟩
  · rw [List.getElem?_eq_none (by rw [List.length_append]; exact hgt)] at h
    cases h

omit [DecidableEq α] in
theorem Inv.create (h : s.Inv) (cb : Bool) : (s.create cb).Inv := by
  have hlonger : (s.create cb).observers.length = s.observers.length + 1 := List.length_append
  refine ⟨?_, fun i o hi => ?_, fun i hi => ?_, h.numbered, fun i o hi r hr => ?_,
    fun r hr => ?_, fun i o hi r hr => ?_, fun r hr hidle ⟨o, ho, hcb⟩ => ?_⟩
  · rw [hlonger]
    show (if s.mutObs.length < 64 then s.mutObs ++ [s.observers.length] else s.mutObs) = _
    rw [h.added, List.length_range]
    split_ifs with hroom
    · rw [Nat.min_eq_right (by omega), Nat.min_eq_right (by omega), List.range_succ]
    · rw [Nat.min_eq_left (by omega), Nat.min_eq_left (by omega)]
  · rcases create_cases hi with hold | ⟨rfl, rfl⟩
    · exact h.targets i o hold
    · show [] = (s.requested s.observers.length).take 64
      rw [h.unasked _ (Nat.le_refl _)]
      rfl
  · rw [hlonger] at hi
    exact h.unasked i (Nat.le_of_succ_le hi)
  · rcases create_cases hi with hold | ⟨-, rfl⟩
    · exact h.made i o hold r hr
    · exact absurd hr List.not_mem_nil
  · rw [hlonger]
    exact ⟨Nat.lt_succ_of_lt (h.past r hr).1, (h.past r hr).2⟩
  · rcases create_cases hi with hold | ⟨-, rfl⟩
    · exact h.seen i o hold r hr
    · exact absurd hr List.not_mem_nil
  · refine h.delivered r hr hidle ?_
    rcases create_cases ho with hold | ⟨hlast, -⟩
    · exact ⟨o, hold, hcb⟩
    · exact absurd hlast (Nat.ne_of_lt (h.past r hr).1)

omit [DecidableEq α] in
/-- What is asked of an observer changes, and its targets with it. -/
theorem Inv.modify (h : s.Inv) {i : Nat} {f : MiniMutationObserver α T → MiniMutationObserver α T}
    {requested : Nat → List (α × MutationOpts)} (hcb : ∀ o, (f o).cb = o.cb)
    (hrecords : ∀ o, (f o).records = o.records) (hothers : ∀ j, j ≠ i → requested j = s.requested j)
    (htargets : ∀ o, s.observers[i]? = some o → (f o).targets = (requested i).take 64)
    (hnone : s.observers.length ≤ i → requested i = []) :
    Inv { s with observers := s.observers.modify i f, requested := requested } := by
  have hkept : ∀ {j : Nat} {o'}, (s.observers.modify i f)[j]? = some o' →
      ∃ o, s.observers[j]? = some o ∧ o'.cb = o.cb ∧ o'.records = o.records := by
    intro j o' hj
    obtain ⟨o, ho, ⟨-, rfl⟩ | ⟨-, rfl⟩⟩ := modify_cases hj
    · exact ⟨o, ho, hcb o, hrecords o⟩
    · exact ⟨o', ho, rfl, rfl⟩
  refine ⟨?_, fun j o' hj => ?_, fun j hj => ?_, h.numbered, fun j o' hj r hr => ?_, ?_,
    fun j o' hj r hr => ?_, fun r hr hidle ⟨o', ho', hcb'⟩ => ?_⟩
  · rw [List.length_modify]
    exact h.added
  · obtain ⟨o, ho, ⟨rfl, rfl⟩ | ⟨hne, rfl⟩⟩ := modify_cases hj
    · exact htargets o ho
    · show o'.targets = (requested j).take 64
      rw [hothers j hne]
      exact h.targets j o' ho
  · have hout : s.observers.length ≤ j := by
      rw [List.length_modify] at hj
      exact hj
    by_cases hji : j = i
    · exact hji ▸ hnone (hji ▸ hout)
    · exact (hothers j hji).trans (h.unasked j hout)
  · obtain ⟨o, ho, -, hsame⟩ := hkept hj
    exact h.made j o ho r (hsame ▸ hr)
  · rw [List.length_modify]
    exact h.past
  · obtain ⟨o, ho, -, hsame⟩ := hkept hj
    exact h.seen j o ho r (hsame ▸ hr)
  · obtain ⟨o, ho, hsame, -⟩ := hkept ho'
    exact h.delivered r hr hidle ⟨o, ho, hsame ▸ hcb'⟩

theorem Inv.observe (h : s.Inv) (i : Nat) (target : α) (opts : MutationOpts) :
    (s.exec (.observe i target opts)).Inv := by
  refine h.modify (fun o => ?_) (fun o => ?_) (fun j hj => ?_) (fun o ho => ?_) (fun hnone => ?_)
  · unfold MiniMutationObserver.observe
    split_ifs <;> rfl
  · unfold MiniMutationObserver.observe
    split_ifs <;> rfl
  · split_ifs
    · exact Function.update_of_ne hj _ _
    · rfl
  · rw [if_pos (List.getElem?_eq_some_iff.1 ho).1, Function.update_self]
    exact observe_targets o (h.targets i o ho) target opts
  · rw [if_neg (Nat.not_lt.2 hnone)]
    exact h.unasked i hnone

theorem Inv.disconnect (h : s.Inv) (i : Nat) : (s.exec (.disconnect i)).Inv :=
  h.modify (fun _ => rfl) (fun _ => rfl) (fun _ hj => Function.update_of_ne hj _ _)
    (fun _ _ => by rw [Function.update_self]; rfl) (fun _ => Function.update_self ..)

omit [DecidableEq α] in
/-- An observer discards its records, which its callback has been shown if there is one. -/
theorem Inv.discard (h : s.Inv) {i : Nat}
    (hshown : ∀ o, s.observers[i]? = some o → o.cb = true → ∀ r ∈ o.records,
      (i, r.mutation) ∈ s.idle → (i, r.mutation) ∈ s.shown) : (s.discard i).Inv := by
  have hkept : ∀ {j : Nat} {o'}, (s.discard i).observers[j]? = some o' →
      ∃ o, s.observers[j]? = some o ∧ o'.cb = o.cb ∧ o'.targets = o.targets ∧
        ∀ r ∈ o'.records, r ∈ o.records := by
    intro j o' hj
    obtain ⟨o, ho, ⟨-, rfl⟩ | ⟨-, rfl⟩⟩ := modify_cases hj
    · exact ⟨o, ho, rfl, rfl, fun r hr => absurd hr List.not_mem_nil⟩
    · exact ⟨o', ho, rfl, rfl, fun _ hr => hr⟩
  have hlength : (s.discard i).observers.length = s.observers.length := List.length_modify ..
  refine ⟨?_, fun j o' hj => ?_, fun j hj => h.unasked j (hlength ▸ hj), h.numbered,
    fun j o' hj r hr => ?_, fun r hr => ?_, fun j o' hj r hr => ?_,
    fun r hr hidle ⟨o', ho', hcb⟩ => ?_⟩
  · rw [hlength]
    exact h.added
  · obtain ⟨o, ho, -, hsame, -⟩ := hkept hj
    exact hsame.trans (h.targets j o ho)
  · obtain ⟨o, ho, -, -, hsub⟩ := hkept hj
    exact h.made j o ho r (hsub r hr)
  · rw [hlength]
    rcases List.mem_append.1 hr with hold | hnew
    · exact h.past r hold
    · obtain ⟨o, ho, r', hr', rfl⟩ := mem_known.1 hnew
      exact ⟨(List.getElem?_eq_some_iff.1 ho).1, h.made i o ho r' hr'⟩
  · obtain ⟨o, ho, -, -, hsub⟩ := hkept hj
    exact h.seen j o ho r (hsub r hr)
  · obtain ⟨o, ho, hsame, -⟩ := hkept ho'
    rcases List.mem_append.1 hr with hold | hnew
    · exact h.delivered r hold hidle ⟨o, ho, hsame ▸ hcb⟩
    · obtain ⟨o₁, ho₁, r', hr', rfl⟩ := mem_known.1 hnew
      obtain rfl : o₁ = o := Option.some.inj (ho₁.symm.trans ho)
      exact hshown o₁ ho (hsame ▸ hcb) r' hr' hidle

omit [DecidableEq α] in
theorem Inv.takeRecords (h : s.Inv) (i : Nat) : (s.takeRecords i).Inv := by
  unfold MutationRun.takeRecords
  cases ho : s.observers[i]? with
  | none => exact h
  | some o =>
    dsimp only
    split_ifs with hcall
    · refine { h with seen := fun j o' hj r hr hactive hidle => ?_, delivered := ?_ }
      · by_cases hji : j = i
        · subst hji
          exact List.mem_append_right _ (mem_known.2 ⟨o', hj, r, hr, rfl⟩)
        · refine List.mem_append_left _ (h.seen j o' hj r hr ?_ hidle)
          exact (List.mem_cons.1 hactive).resolve_left hji
      · exact fun r hr hidle hcb => List.mem_append_left _ (h.delivered r hr hidle hcb)
    · refine h.discard fun o₁ ho₁ hcb r hr => ?_
      obtain rfl : o₁ = o := Option.some.inj (ho₁.symm.trans ho)
      exact absurd ⟨List.ne_nil_of_mem hr, hcb⟩ hcall

omit [DecidableEq α] in
theorem Inv.callbackReturns (h : s.Inv) : s.callbackReturns.Inv := by
  unfold MutationRun.callbackReturns
  split
  · exact h
  · rename_i i active hactive
    have hfewer : Inv { s with active := active } :=
      { h with
        seen := fun j o hj r hr hmem => h.seen j o hj r hr (hactive ▸ List.mem_cons_of_mem _ hmem)
        delivered := h.delivered }
    exact hfewer.discard fun o ho _ r hr hidle =>
      h.seen i o ho r hr (hactive ▸ List.mem_cons_self ..) hidle

/-! ## A mutation -/

/-- What an observer is after a mutation. -/
theorem Inv.mutate_cases (h : s.Inv) (tree : MutationTree α) (target : α) (type : MiniMutationType)
    (node : Option α) (name value : Option T) {i : Nat} {o : MiniMutationObserver α T}
    (ho : s.observers[i]? = some o) :
    ∃ o', (s.miniEventloopMutate tree target type node name value).observers[i]? = some o' ∧
      (s.Admitted i tree target type →
        o' = { o with records := o.records ++ [⟨s.mutations, target, type, node, name, value⟩] }) ∧
      (¬ s.Admitted i tree target type → o' = o) := by
  have hnodup : s.mutObs.Nodup := h.added ▸ List.nodup_range
  have hlt := (List.getElem?_eq_some_iff.1 ho).1
  have hadded : i ∈ s.mutObs ↔ i < 64 := by
    rw [h.added, List.mem_range]
    omega
  have hknown : (s.known i).length = o.records.length := by
    rw [known, ho]
    exact List.length_map _
  have hat : (s.miniEventloopMutate tree target type node name value).observers[i]? =
      if i ∈ s.mutObs then
        s.observers[i]?.map fun o =>
          o.mutateAt tree ⟨s.mutations, target, type, node, name, value⟩ o.targets
      else s.observers[i]? :=
    getElem?_foldl_modify _ hnodup s.observers i
  have hloop := mutateAt_eq o tree ⟨s.mutations, target, type, node, name, value⟩ o.targets
  have htargets := h.targets i o ho
  rw [hat, ho]
  by_cases hi : i ∈ s.mutObs
  · refine ⟨_, if_pos hi, fun hadmitted => ?_, fun hnot => ?_⟩
    · exact hloop.1 ⟨htargets.symm ▸ hadmitted.2.1, hknown ▸ hadmitted.2.2⟩
    · refine hloop.2 fun hboth => hnot ⟨hadded.1 hi, ?_, hknown.symm ▸ hboth.2⟩
      exact htargets ▸ hboth.1
  · exact ⟨o, if_neg hi, fun hadmitted => absurd (hadded.2 hadmitted.1) hi, fun _ => rfl⟩

theorem Inv.mutate (h : s.Inv) (tree : MutationTree α) (target : α) (type : MiniMutationType)
    (node : Option α) (name value : Option T) :
    (s.miniEventloopMutate tree target type node name value).Inv := by
  have hlength : (s.miniEventloopMutate tree target type node name value).observers.length =
      s.observers.length :=
    length_foldl_modify _ s.mutObs s.observers
  have hkept : ∀ {j : Nat} {o'},
      (s.miniEventloopMutate tree target type node name value).observers[j]? = some o' →
        ∃ o, s.observers[j]? = some o ∧ o'.cb = o.cb ∧ o'.targets = o.targets ∧
          ∀ r ∈ o'.records, r ∈ o.records ∨ r.mutation = s.mutations := by
    intro j o' hj
    have hlt := (List.getElem?_eq_some_iff.1 hj).1
    rw [hlength] at hlt
    obtain ⟨o₁, ho₁, hyes, hno⟩ :=
      h.mutate_cases tree target type node name value (List.getElem?_eq_getElem hlt)
    obtain rfl : o₁ = o' := Option.some.inj (ho₁.symm.trans hj)
    refine ⟨_, List.getElem?_eq_getElem hlt, ?_⟩
    by_cases hadmitted : s.Admitted j tree target type
    · rw [hyes hadmitted]
      refine ⟨rfl, rfl, fun r hr => ?_⟩
      rcases List.mem_append.1 hr with hold | hnew
      · exact Or.inl hold
      · exact Or.inr (congrArg MiniMutRecord.mutation (List.mem_singleton.1 hnew))
    · rw [hno hadmitted]
      exact ⟨rfl, rfl, fun _ hr => Or.inl hr⟩
  have hidle : ∀ {r : Nat × Nat},
      r ∈ (s.miniEventloopMutate tree target type node name value).idle →
        r ∈ s.idle ∨ r.1 ∉ s.active ∧ r.2 = s.mutations := by
    intro r hr
    rcases List.mem_append.1 hr with hold | hnew
    · exact Or.inl hold
    · obtain ⟨i, hi, rfl⟩ := List.mem_map.1 hnew
      exact Or.inr ⟨of_decide_eq_true (List.mem_filter.1 hi).2, rfl⟩
  refine ⟨?_, fun j o' hj => ?_, fun j hj => h.unasked j (hlength ▸ hj), fun r hr => ?_,
    fun j o' hj r hr => ?_, fun r hr => ?_, fun j o' hj r hr hactive hmem => ?_,
    fun r hr hmem ⟨o', ho', hcb⟩ => ?_⟩
  · rw [hlength]
    exact h.added
  · obtain ⟨o, ho, -, hsame, -⟩ := hkept hj
    exact hsame.trans (h.targets j o ho)
  · rcases hidle hr with hold | ⟨-, hnow⟩
    · exact Nat.lt_succ_of_lt (h.numbered r hold)
    · exact hnow ▸ Nat.lt_succ_self _
  · obtain ⟨o, ho, -, -, hsub⟩ := hkept hj
    rcases hsub r hr with hold | hnow
    · exact Nat.lt_succ_of_lt (h.made j o ho r hold)
    · exact hnow ▸ Nat.lt_succ_self _
  · rw [hlength]
    exact ⟨(h.past r hr).1, Nat.lt_succ_of_lt (h.past r hr).2⟩
  · obtain ⟨o, ho, -, -, hsub⟩ := hkept hj
    rcases hidle hmem with hold | ⟨hnot, -⟩
    · rcases hsub r hr with hthere | hnow
      · exact h.seen j o ho r hthere hactive hold
      · exact absurd hnow (Nat.ne_of_lt (h.numbered _ hold))
    · exact absurd hactive hnot
  · obtain ⟨o, ho, hsame, -⟩ := hkept ho'
    rcases hidle hmem with hold | ⟨-, hnow⟩
    · exact h.delivered r hr hold ⟨o, ho, hsame ▸ hcb⟩
    · exact absurd hnow (Nat.ne_of_lt (h.past r hr).2)

theorem Inv.step (h : s.Inv) (a : MutationStep α T) : (s.exec a).Inv := by
  cases a with
  | create cb => exact h.create cb
  | observe i target opts => exact h.observe i target opts
  | disconnect i => exact h.disconnect i
  | mutate tree target type node name value => exact h.mutate tree target type node name value
  | takeRecords i => exact h.takeRecords i
  | callbackReturns => exact h.callbackReturns

/-! ## All steps -/

omit [DecidableEq α] in
theorem records_modify {i j : Nat} {f : MiniMutationObserver α T → MiniMutationObserver α T}
    (hf : ∀ o, (f o).records = o.records ∨ (f o).records = []) {o' : MiniMutationObserver α T}
    (h : (s.observers.modify i f)[j]? = some o') :
    o'.records = [] ∨ ∃ o, s.observers[j]? = some o ∧ o'.records = o.records := by
  obtain ⟨o, ho, ⟨-, rfl⟩ | ⟨-, rfl⟩⟩ := modify_cases h
  · rcases hf o with hsame | hnone
    · exact Or.inr ⟨o, ho, hsame⟩
    · exact Or.inl hnone
  · exact Or.inr ⟨o', ho, rfl⟩

theorem Inv.produces (h : s.Inv) (a : MutationStep α T) : s.Produces Admitted a := by
  cases a with
  | mutate tree target type node name value =>
    intro i o ho
    obtain ⟨o', ho', hyes, hno⟩ := h.mutate_cases tree target type node name value ho
    exact ⟨o', ho', fun hadmitted => congrArg _ (hyes hadmitted), fun hnot => congrArg _ (hno hnot)⟩
  | create cb =>
    intro i o' hi
    rcases create_cases hi with hold | ⟨-, rfl⟩
    · exact Or.inr ⟨o', hold, rfl⟩
    · exact Or.inl rfl
  | observe i target opts =>
    refine fun j o' hj => records_modify (fun o => Or.inl ?_) hj
    unfold MiniMutationObserver.observe
    split_ifs <;> rfl
  | disconnect i =>
    exact fun j o' hj => records_modify (f := MiniMutationObserver.disconnect)
      (fun _ => Or.inl rfl) hj
  | takeRecords i =>
    intro j o' hj
    have hdiscard : ∀ {o'}, (s.discard i).observers[j]? = some o' → _ := fun {o'} hj =>
      records_modify (s := s) (fun _ => Or.inr rfl) hj
    simp only [exec, MutationRun.takeRecords] at hj
    split at hj
    · exact Or.inr ⟨o', hj, rfl⟩
    · split_ifs at hj
      · exact Or.inr ⟨o', hj, rfl⟩
      · exact hdiscard hj
  | callbackReturns =>
    intro j o' hj
    simp only [exec, MutationRun.callbackReturns] at hj
    split at hj
    · exact Or.inr ⟨o', hj, rfl⟩
    · exact records_modify (s := s) (fun _ => Or.inr rfl) hj

end Invariant

end MutationRun

/-- Behind every sequence of steps: a mutation makes one record in each of the first 64 observers
that has room for it, and among whose first 64 registrations is one for it, and no other records are
made; and the records that are discarded were shown to the callback, if there is one and it was not
under way when they were made. -/
theorem mutation_records (steps : List (MutationStep α T)) (a : MutationStep α T) :
    (steps.foldl MutationRun.exec ({} : MutationRun α T)).Produces MutationRun.Admitted a ∧
      ((steps.foldl MutationRun.exec ({} : MutationRun α T)).exec a).Delivered := by
  have hinv : (steps.foldl MutationRun.exec ({} : MutationRun α T)).Inv :=
    Histories.invariant MutationRun.Inv MutationRun.Inv.start (fun _ a _ _ h => h.step a) steps []
      (List.append_nil _).symm
  exact ⟨hinv.produces a, (hinv.step a).delivered⟩

/-- A tree of roots. -/
def flatTree : MutationTree Nat where
  parent _ := none
  height := 0
  bounded _ _ h := List.mem_singleton.2 (h.eq_of_root rfl).symm

/-- An observer of child lists has a record of a change of character data. -/
theorem unasked_character_data :
    ¬ ∀ (steps : List (MutationStep Nat Unit)) (a : MutationStep Nat Unit),
      (steps.foldl MutationRun.exec {}).Produces MutationRun.Claimed a := by
  intro hclaim
  obtain ⟨o', ho', -, hnone⟩ := hclaim [.create true, .observe 0 5 1]
    (.mutate flatTree 5 .characterData none none none) 0 ⟨true, [(5, 1)], []⟩ rfl
  have hrecord : o' = ⟨true, [(5, 1)], [⟨0, 5, .characterData, none, none, none⟩]⟩ :=
    (Option.some.inj (ho'.symm.trans rfl))
  have hempty := hnone fun ⟨t, ht, _, hincludes⟩ => by
    obtain rfl : t = (5, 1) := List.mem_singleton.1 ht
    exact absurd hincludes (by decide)
  rw [hrecord] at hempty
  cases hempty

end TinyFramework.App
