/-
  Render/SvgPath.lean --- the loop over the `d` attribute of a path.

  A letter puts a command in force, and the command reads as many whole groups of arguments
  as there are.  What is drawn is left out: nothing the loops test depends on it, but for
  counters that only go up.  Numbers are read by `strtod`, of which nothing is used but that
  it ends inside the text.
-/
import Mathlib.Data.List.DropRight
import TinyFramework.Foundation.CText
import TinyFramework.Foundation.Loops

set_option autoImplicit false

namespace TinyFramework.Render

open TinyFramework.Foundation

/-- `toupper` in the C locale. -/
def toupper (c : UInt8) : UInt8 := if 97 ≤ c ∧ c ≤ 122 then c - 32 else c

/-- `islower` in the C locale. -/
def islower (c : UInt8) : Bool := 97 ≤ c && c ≤ 122

/-- `strtod`: the number a text starts with, and how many bytes it takes with the white space in
front; no bytes when there is none. -/
structure Strtod (F : Type) where
  read : Bytes → F × Nat
  read_le : ∀ s, (read s).2 ≤ s.length

/-! ## Arguments -/

inductive ArgKind where
  | num
  | flag
  deriving DecidableEq, Repr

inductive PathArg (F : Type) where
  | num (v : F)
  | flag (b : Bool)

section Read

variable {F : Type} (strtod : Strtod F)

/-- What `svg_num` and `svg_flag` skip. -/
def svgSkip (p : Bytes) : Bytes :=
  p.dropWhile fun c => c == 32 || c == 44 || c == 9 || c == 10 || c == 13

/-- `svg_num` -/
def svgNum (p : Bytes) : Option (F × Bytes) :=
  let p := svgSkip p
  if p = [] then none
  else
    let (v, used) := strtod.read p
    if used = 0 then none else some (v, p.drop used)

/-- `svg_flag` -/
def svgFlag (p : Bytes) : Option (Bool × Bytes) :=
  match svgSkip p with
  | 48 :: s => some (false, s)
  | 49 :: s => some (true, s)
  | _ => none

def readArg (p : Bytes) : ArgKind → Option (PathArg F × Bytes)
  | .num => (svgNum strtod p).map fun (v, p) => (.num v, p)
  | .flag => (svgFlag p).map fun (b, p) => (.flag b, p)

/-- The condition of an inner loop: the arguments of one group, one behind the other. -/
def readGroup : List ArgKind → Bytes → Option (List (PathArg F) × Bytes)
  | [], p => some ([], p)
  | k :: ks, p => do
      let (a, p) ← readArg strtod p k
      let (as, p) ← readGroup ks p
      return (a :: as, p)

end Read

/-! ## Commands -/

/-- The groups that the branch of a letter reads; `Z` and what is no command have none. -/
def groupOf (C : UInt8) : Option (List ArgKind) :=
  if C = 77 ∨ C = 76 then some [.num, .num]
  else if C = 72 then some [.num]
  else if C = 86 then some [.num]
  else if C = 67 then some [.num, .num, .num, .num, .num, .num]
  else if C = 83 then some [.num, .num, .num, .num]
  else if C = 81 then some [.num, .num, .num, .num]
  else if C = 84 then some [.num, .num]
  else if C = 65 then some [.num, .num, .num, .flag, .flag, .num, .num]
  else none

/-- What is drawn for one group, or for a `Z`: the command, whether it is relative, the command
before it and the arguments. -/
structure PathCall (F : Type) where
  command : UInt8
  rel : Bool
  prevCmd : UInt8
  args : List (PathArg F)

structure PathState (F : Type) where
  cmd : UInt8
  prevCmd : UInt8
  p : Bytes
  calls : List (PathCall F)

/-- Behind its first pair an `M` goes on as an `L`. -/
def afterMove (cmd : UInt8) : UInt8 := if cmd = 77 then 76 else if cmd = 109 then 108 else cmd

namespace PathState

variable {F : Type} (strtod : Strtod F)

/-- The body of an inner loop. -/
def visit (st : PathState F) (args : List (PathArg F)) (p : Bytes) : PathState F where
  cmd := afterMove st.cmd
  prevCmd := afterMove st.cmd
  p := p
  calls := st.calls ++ [⟨toupper st.cmd, islower st.cmd, st.prevCmd, args⟩]

/-- An inner loop; each round reads a byte. -/
def readGroups (kinds : List ArgKind) : Nat → PathState F → PathState F
  | 0, st => st
  | fuel + 1, st =>
      match readGroup strtod kinds st.p with
      | none => st
      | some (args, p) => readGroups kinds fuel (st.visit args p)

/-- The branch of the command. -/
def branch (st : PathState F) : PathState F :=
  if toupper st.cmd = 90 then
    { st with
      prevCmd := st.cmd
      calls := st.calls ++ [⟨toupper st.cmd, islower st.cmd, st.prevCmd, []⟩] }
  else
    match groupOf (toupper st.cmd) with
    | some kinds => readGroups strtod kinds (st.p.length + 1) st
    | none => { st with p := st.p.dropWhile fun c => !isalpha c, cmd := 0 }

/-- An iteration of the outer loop of `svg_draw_path`; `none` leaves it. -/
def iteration (st : PathState F) : Option (PathState F) :=
  match st.p.dropWhile fun c => isspace c || c == 44 with
  | [] => none
  | c :: s =>
      let st : PathState F :=
        if isalpha c then { st with prevCmd := st.cmd, cmd := c, p := s }
        else { st with p := c :: s }
      if st.cmd = 0 then none else some (st.branch strtod)

end PathState

/-- Where `svg_draw_path` begins. -/
def pathStart (F : Type) (d : Bytes) : PathState F := ⟨0, 0, d, []⟩

/-! ## Texts that are read to their end -/

/-- What a letter puts in force. -/
inductive Force where
  | idle
  | closed
  | reading (kinds : List ArgKind)

def forceOf (c : UInt8) : Force :=
  if toupper c = 90 then .closed
  else
    match groupOf (toupper c) with
    | some kinds => .reading kinds
    | none => .idle

/-- White space and commas. -/
def skipBlanks (s : Bytes) : Bytes := s.dropWhile fun c => isspace c || c == 44

/-- The text `s` starts with whole groups, and no other is in `t`. -/
inductive Groups {F : Type} (strtod : Strtod F) (kinds : List ArgKind) : Bytes → Bytes → Prop
  | stop {t : Bytes} (h : readGroup strtod kinds t = none) : Groups strtod kinds t t
  | group {s u t : Bytes} {args : List (PathArg F)} (h : readGroup strtod kinds s = some (args, u))
      (hrest : Groups strtod kinds u t) : Groups strtod kinds s t

/-- With this in force, nothing but whole groups stands in front of each letter: no argument
behind a `Z` or of a group that is not whole. -/
inductive Complete {F : Type} (strtod : Strtod F) : Force → Bytes → Prop
  | blank {f : Force} {s : Bytes} (h : skipBlanks s = []) : Complete strtod f s
  | unread {s t : Bytes} {c : UInt8} (h : skipBlanks s = c :: t) (hc : isalpha c = false) :
      Complete strtod .idle s
  | other {f : Force} {s t : Bytes} {c : UInt8} (h : skipBlanks s = c :: t)
      (hc : isalpha c = true) (hf : forceOf c = .idle)
      (hrest : Complete strtod .idle (t.dropWhile fun c => !isalpha c)) : Complete strtod f s
  | close {f : Force} {s t : Bytes} {c : UInt8} (h : skipBlanks s = c :: t)
      (hc : isalpha c = true) (hf : forceOf c = .closed) (hrest : Complete strtod .closed t) :
      Complete strtod f s
  | command {f : Force} {s t u : Bytes} {c : UInt8} {kinds : List ArgKind}
      (h : skipBlanks s = c :: t) (hc : isalpha c = true) (hf : forceOf c = .reading kinds)
      (hgroups : Groups strtod kinds t u) (hrest : Complete strtod (.reading kinds) u) :
      Complete strtod f s
  | more {s t u : Bytes} {c : UInt8} {kinds : List ArgKind} (h : skipBlanks s = c :: t)
      (hc : isalpha c = false) (hone : readGroup strtod kinds (c :: t) ≠ none)
      (hgroups : Groups strtod kinds (c :: t) u) (hrest : Complete strtod (.reading kinds) u) :
      Complete strtod (.reading kinds) s

/-! ## What is read -/

section Read

variable {F : Type} {strtod : Strtod F} {kinds : List ArgKind} {args : List (PathArg F)}
  {s t u : Bytes}

theorem svgNum_lt {v : F} (h : svgNum strtod s = some (v, t)) : t.length < s.length := by
  unfold svgNum at h
  dsimp only at h
  split_ifs at h with hnil hused
  obtain ⟨-, rfl⟩ := Prod.mk.inj (Option.some.inj h)
  have hskip : (svgSkip s).length ≤ s.length := List.length_dropWhile_le _ _
  have hpos : 0 < (svgSkip s).length := List.length_pos_iff.2 hnil
  rw [List.length_drop]
  omega

theorem svgFlag_lt {b : Bool} (h : svgFlag s = some (b, t)) : t.length < s.length := by
  have hskip : (svgSkip s).length ≤ s.length := List.length_dropWhile_le _ _
  unfold svgFlag at h
  split at h
  · rename_i heq
    obtain ⟨-, rfl⟩ := Prod.mk.inj (Option.some.inj h)
    rw [heq] at hskip
    exact hskip
  · rename_i heq
    obtain ⟨-, rfl⟩ := Prod.mk.inj (Option.some.inj h)
    rw [heq] at hskip
    exact hskip
  · cases h

theorem readArg_lt {k : ArgKind} {a : PathArg F} (h : readArg strtod s k = some (a, t)) :
    t.length < s.length := by
  cases k with
  | num =>
    obtain ⟨⟨v, t'⟩, hread, heq⟩ := Option.map_eq_some_iff.1 h
    obtain ⟨-, rfl⟩ := Prod.mk.inj heq
    exact svgNum_lt hread
  | flag =>
    obtain ⟨⟨b, t'⟩, hread, heq⟩ := Option.map_eq_some_iff.1 h
    obtain ⟨-, rfl⟩ := Prod.mk.inj heq
    exact svgFlag_lt hread

theorem readGroup_le (h : readGroup strtod kinds s = some (args, t)) :
    t.length + kinds.length ≤ s.length := by
  induction kinds generalizing s t args with
  | nil =>
    obtain ⟨-, rfl⟩ := Prod.mk.inj (Option.some.inj h)
    exact Nat.le_refl _
  | cons k kinds ih =>
    simp only [readGroup, Option.bind_eq_bind, Option.bind_eq_some_iff] at h
    obtain ⟨⟨a, u⟩, hread, ⟨as, v⟩, hrest, heq⟩ := h
    have hend : v = t := (Prod.mk.inj (Option.some.inj heq)).2
    have hlt : u.length < s.length := readArg_lt hread
    have hle : v.length + kinds.length ≤ u.length := ih hrest
    rw [← hend, List.length_cons]
    omega

theorem length_pos_of_reading {c : UInt8} (h : forceOf c = .reading kinds) : 0 < kinds.length := by
  unfold forceOf at h
  split_ifs at h
  split at h
  · rename_i kinds' hgroup
    obtain rfl := Force.reading.inj h
    unfold groupOf at hgroup
    split_ifs at hgroup
    all_goals
      obtain rfl := Option.some.inj hgroup
      exact Nat.succ_pos _
  · cases h

theorem Groups.le (h : Groups strtod kinds s t) : t.length ≤ s.length := by
  induction h with
  | stop => exact Nat.le_refl _
  | group h _ ih =>
    have hle := readGroup_le h
    omega

theorem Groups.lt (h : Groups strtod kinds s t) (hkinds : 0 < kinds.length)
    (hone : readGroup strtod kinds s ≠ none) : t.length < s.length := by
  cases h with
  | stop h => exact absurd h hone
  | group h hrest =>
    have hle := readGroup_le h
    have hle' := hrest.le
    omega

/-- Where the groups end is where no more is read. -/
theorem Groups.unique (h : Groups strtod kinds s t) (h' : Groups strtod kinds s u) : t = u := by
  induction h with
  | stop h =>
    cases h' with
    | stop => rfl
    | group hread =>
      rw [h] at hread
      cases hread
  | group h _ ih =>
    cases h' with
    | stop hread =>
      rw [h] at hread
      cases hread
    | group hread hrest =>
      rw [h] at hread
      obtain ⟨-, rfl⟩ := Prod.mk.inj (Option.some.inj hread)
      exact ih hrest

end Read

/-! ## The branches -/

theorem forceOf_afterMove (c : UInt8) : forceOf (afterMove c) = forceOf c := by
  unfold afterMove
  split_ifs with hupper hlower
  · rw [hupper]
    rfl
  · rw [hlower]
    rfl
  · rfl

namespace PathState

variable {F : Type} {strtod : Strtod F} {kinds : List ArgKind} {st st' : PathState F}
  {c : UInt8} {s t : Bytes}

/-- An inner loop reads all groups, and the command in force stays the same. -/
theorem readGroups_spec (hkinds : 0 < kinds.length) (fuel : Nat) (st : PathState F)
    (hfuel : st.p.length < fuel) :
    Groups strtod kinds st.p (readGroups strtod kinds fuel st).p ∧
      forceOf (readGroups strtod kinds fuel st).cmd = forceOf st.cmd := by
  induction fuel generalizing st with
  | zero => exact absurd hfuel (Nat.not_lt_zero _)
  | succ fuel ih =>
    rw [readGroups]
    cases hread : readGroup strtod kinds st.p with
    | none => exact ⟨.stop hread, rfl⟩
    | some next =>
      obtain ⟨args, p⟩ := next
      have hle := readGroup_le hread
      obtain ⟨hgroups, hforce⟩ := ih (st.visit args p) (show p.length < fuel by omega)
      exact ⟨.group hread hgroups, hforce.trans (forceOf_afterMove st.cmd)⟩

theorem branch_closed (strtod : Strtod F) (st : PathState F) (h : forceOf st.cmd = .closed) :
    (st.branch strtod).p = st.p ∧ (st.branch strtod).cmd = st.cmd := by
  have hz : toupper st.cmd = 90 := by
    unfold forceOf at h
    split_ifs at h with hz
    · exact hz
    · split at h <;> cases h
  rw [branch, if_pos hz]
  exact ⟨rfl, rfl⟩

theorem branch_reading (strtod : Strtod F) (st : PathState F)
    (h : forceOf st.cmd = .reading kinds) :
    Groups strtod kinds st.p (st.branch strtod).p ∧
      forceOf (st.branch strtod).cmd = .reading kinds := by
  have hkinds := length_pos_of_reading h
  have hbranch : st.branch strtod = readGroups strtod kinds (st.p.length + 1) st := by
    unfold forceOf at h
    split_ifs at h with hz
    rw [branch, if_neg hz]
    split at h
    · rename_i kinds' hgroup
      obtain rfl := Force.reading.inj h
      rfl
    · cases h
  obtain ⟨hgroups, hforce⟩ := readGroups_spec hkinds _ st (Nat.lt_succ_self _)
  rw [hbranch, hforce]
  exact ⟨hgroups, h⟩

theorem branch_idle (strtod : Strtod F) (st : PathState F) (h : forceOf st.cmd = .idle) :
    (st.branch strtod).p = (st.p.dropWhile fun c => !isalpha c) ∧ (st.branch strtod).cmd = 0 := by
  unfold forceOf at h
  split_ifs at h with hz
  rw [branch, if_neg hz]
  split at h
  · cases h
  · exact ⟨rfl, rfl⟩

/-! ## One iteration -/

theorem iteration_blank (h : skipBlanks st.p = []) : st.iteration strtod = none := by
  unfold iteration
  unfold skipBlanks at h
  rw [h]

theorem iteration_letter (h : skipBlanks st.p = c :: s) (hc : isalpha c = true) :
    st.iteration strtod = some (branch strtod { st with prevCmd := st.cmd, cmd := c, p := s }) := by
  have hzero : c ≠ 0 := by
    rintro rfl
    cases hc
  unfold iteration
  unfold skipBlanks at h
  rw [h]
  dsimp only
  rw [if_pos hc, if_neg hzero]

theorem iteration_other (h : skipBlanks st.p = c :: s) (hc : isalpha c = false) :
    st.iteration strtod =
      if st.cmd = 0 then none else some (branch strtod { st with p := c :: s }) := by
  unfold iteration
  unfold skipBlanks at h
  rw [h]
  simp only [hc, Bool.false_eq_true, if_false]

theorem length_skipBlanks (s : Bytes) : (skipBlanks s).length ≤ s.length :=
  List.length_dropWhile_le _ _

theorem skipBlanks_of_skipped (h : skipBlanks s = c :: t) : skipBlanks (c :: t) = c :: t := by
  rw [← h]
  exact List.dropWhile_idempotent _ _

/-! ## Where the loop goes on for ever -/

/-- The command in force reads nothing of what stands here, and no letter does. -/
def Stuck (strtod : Strtod F) (st : PathState F) : Prop :=
  ∃ c s, skipBlanks st.p = c :: s ∧ isalpha c = false ∧ st.cmd ≠ 0 ∧
    (forceOf st.cmd = .closed ∨
      ∃ kinds, forceOf st.cmd = .reading kinds ∧ readGroup strtod kinds (c :: s) = none)

/-- What is no command is not in force behind its letter. -/
def Known (st : PathState F) : Prop := forceOf st.cmd = .idle → st.cmd = 0

theorem Stuck.iteration (h : st.Stuck strtod) :
    ∃ st', st.iteration strtod = some st' ∧ st'.Stuck strtod := by
  obtain ⟨c, s, hskip, hc, hcmd, hforce⟩ := h
  have hsame := skipBlanks_of_skipped hskip
  have hp : ({ st with p := c :: s } : PathState F).p = c :: s := rfl
  have hturn : st.iteration strtod = some (branch strtod { st with p := c :: s }) := by
    rw [iteration_other hskip hc, if_neg hcmd]
  have hsameCmd : ({ st with p := c :: s } : PathState F).cmd = st.cmd := rfl
  generalize ({ st with p := c :: s } : PathState F) = st₁ at hp hturn hsameCmd
  refine ⟨st₁.branch strtod, hturn, ?_⟩
  rw [← hsameCmd] at hcmd hforce
  rcases hforce with hclosed | ⟨kinds, hreading, hread⟩
  · obtain ⟨hp', hcmd'⟩ := st₁.branch_closed strtod hclosed
    rw [Stuck, hp', hcmd', hp]
    exact ⟨c, s, hsame, hc, hcmd, .inl hclosed⟩
  · obtain ⟨hgroups, hforce⟩ := st₁.branch_reading strtod hreading
    rw [hp] at hgroups
    rw [Stuck, ← (Groups.stop hread).unique hgroups]
    refine ⟨c, s, hsame, hc, fun hzero => ?_, .inr ⟨kinds, hforce, hread⟩⟩
    rw [hzero] at hforce
    cases hforce

theorem branch_known (strtod : Strtod F) (st : PathState F) : (st.branch strtod).Known := by
  intro hidle
  cases hf : forceOf st.cmd with
  | idle => exact (st.branch_idle strtod hf).2
  | closed =>
    rw [(st.branch_closed strtod hf).2, hf] at hidle
    cases hidle
  | reading kinds =>
    rw [(st.branch_reading strtod hf).2] at hidle
    cases hidle

theorem branch_le (strtod : Strtod F) (st : PathState F) :
    (st.branch strtod).p.length ≤ st.p.length := by
  cases hf : forceOf st.cmd with
  | idle =>
    rw [(st.branch_idle strtod hf).1]
    exact List.length_dropWhile_le _ _
  | closed => rw [(st.branch_closed strtod hf).1]
  | reading kinds => exact (st.branch_reading strtod hf).1.le

/-- Behind a letter a branch begins. -/
theorem branch_of_letter (strtod : Strtod F) (h : skipBlanks st.p = c :: s)
    (hc : isalpha c = true) :
    ∃ st₁ : PathState F, st₁.p = s ∧ st₁.cmd = c ∧
      st.iteration strtod = some (st₁.branch strtod) :=
  ⟨_, rfl, rfl, iteration_letter h hc⟩

/-- Elsewhere the branch of the command in force goes on. -/
theorem branch_of_other (strtod : Strtod F) (h : skipBlanks st.p = c :: s)
    (hc : isalpha c = false) (hcmd : st.cmd ≠ 0) :
    ∃ st₁ : PathState F, st₁.p = c :: s ∧ st₁.cmd = st.cmd ∧
      st.iteration strtod = some (st₁.branch strtod) :=
  ⟨{ st with p := c :: s }, rfl, rfl, by rw [iteration_other h hc, if_neg hcmd]⟩

/-- Elsewhere an iteration reads a byte or leaves the loop. -/
theorem iteration_lt (hfree : ¬ st.Stuck strtod) (h : st.iteration strtod = some st') :
    st'.p.length < st.p.length := by
  have hskip := length_skipBlanks st.p
  cases hp : skipBlanks st.p with
  | nil =>
    rw [iteration_blank hp] at h
    cases h
  | cons c s =>
    rw [hp, List.length_cons] at hskip
    cases hc : isalpha c with
    | true =>
      obtain ⟨st₁, hp₁, -, hturn⟩ := branch_of_letter strtod hp hc
      obtain rfl := Option.some.inj (hturn.symm.trans h)
      have hle := st₁.branch_le strtod
      rw [hp₁] at hle
      omega
    | false =>
      by_cases hcmd : st.cmd = 0
      · rw [iteration_other hp hc, if_pos hcmd] at h
        cases h
      · obtain ⟨st₁, hp₁, hcmd₁, hturn⟩ := branch_of_other strtod hp hc hcmd
        obtain rfl := Option.some.inj (hturn.symm.trans h)
        refine Nat.lt_of_lt_of_le ?_ hskip
        rw [← List.length_cons, ← hp₁]
        cases hf : forceOf st₁.cmd with
        | idle =>
          have hdrop := List.length_dropWhile_le (fun c => !isalpha c) s
          rw [(st₁.branch_idle strtod hf).1, hp₁, List.dropWhile_cons_of_pos (by simp [hc])]
          exact Nat.lt_succ_of_le hdrop
        | closed => exact absurd ⟨c, s, hp, hc, hcmd, .inl (hcmd₁ ▸ hf)⟩ hfree
        | reading kinds =>
          have hgroups := (st₁.branch_reading strtod hf).1
          refine hgroups.lt (length_pos_of_reading hf) fun hread => hfree ?_
          rw [hp₁] at hread
          exact ⟨c, s, hp, hc, hcmd, .inr ⟨kinds, hcmd₁ ▸ hf, hread⟩⟩

/-! ## Which texts are read to their end -/

/-- Where no state is stuck the text is complete. -/
theorem complete_of_free (hknown : st.Known)
    (hfree : ∀ t, LeadsTo (iteration strtod) st t → ¬ t.Stuck strtod) :
    Complete strtod (forceOf st.cmd) st.p := by
  generalize hn : st.p.length = n
  induction n using Nat.strongRecOn generalizing st with
  | ind n ih =>
    have hrest : ∀ st', st.iteration strtod = some st' → st'.Known →
        Complete strtod (forceOf st'.cmd) st'.p := fun st' hturn hknown' =>
      ih st'.p.length (hn ▸ iteration_lt (hfree st (.refl st)) hturn) hknown'
        (fun t ht => hfree t (.head hturn ht)) rfl
    cases hp : skipBlanks st.p with
    | nil => exact .blank hp
    | cons c s =>
      cases hc : isalpha c with
      | true =>
        obtain ⟨st₁, hp₁, hcmd₁, hturn⟩ := branch_of_letter strtod hp hc
        have hnext := hrest _ hturn (st₁.branch_known strtod)
        cases hf : forceOf st₁.cmd with
        | idle =>
          obtain ⟨hpb, hcmdb⟩ := st₁.branch_idle strtod hf
          rw [hpb, hcmdb, hp₁] at hnext
          exact .other hp hc (hcmd₁ ▸ hf) hnext
        | closed =>
          obtain ⟨hpb, hcmdb⟩ := st₁.branch_closed strtod hf
          rw [hpb, hcmdb, hf, hp₁] at hnext
          exact .close hp hc (hcmd₁ ▸ hf) hnext
        | reading kinds =>
          obtain ⟨hgroups, hforce⟩ := st₁.branch_reading strtod hf
          rw [hforce] at hnext
          rw [hp₁] at hgroups
          exact .command hp hc (hcmd₁ ▸ hf) hgroups hnext
      | false =>
        by_cases hcmd : st.cmd = 0
        · rw [hcmd]
          exact .unread hp hc
        · obtain ⟨st₁, hp₁, hcmd₁, hturn⟩ := branch_of_other strtod hp hc hcmd
          have hnext := hrest _ hturn (st₁.branch_known strtod)
          have hstart := hfree st (.refl st)
          rw [← hcmd₁]
          cases hf : forceOf st₁.cmd with
          | idle => exact absurd (hknown (hcmd₁ ▸ hf)) hcmd
          | closed => exact absurd ⟨c, s, hp, hc, hcmd, .inl (hcmd₁ ▸ hf)⟩ hstart
          | reading kinds =>
            obtain ⟨hgroups, hforce⟩ := st₁.branch_reading strtod hf
            rw [hforce] at hnext
            rw [hp₁] at hgroups
            refine .more hp hc (fun hread => hstart ?_) hgroups hnext
            exact ⟨c, s, hp, hc, hcmd, .inr ⟨kinds, hcmd₁ ▸ hf, hread⟩⟩

/-- A complete text is read to its end. -/
theorem ends_of_complete {f : Force} {p : Bytes} (h : Complete strtod f p) (hknown : st.Known)
    (hforce : forceOf st.cmd = f) (hp : st.p = p) : Ends (iteration strtod) st := by
  induction h generalizing st with
  | blank h => exact .of_none (iteration_blank (hp ▸ h))
  | unread h hc =>
    refine .of_none ?_
    rw [iteration_other (hp ▸ h) hc, if_pos (hknown hforce)]
  | other h hc hf _ ih =>
    obtain ⟨st₁, hp₁, hcmd₁, hturn⟩ := branch_of_letter strtod (hp ▸ h) hc
    obtain ⟨hpb, hcmdb⟩ := st₁.branch_idle strtod (hcmd₁ ▸ hf)
    refine (ends_iff_of_some hturn).2 (ih (st₁.branch_known strtod) ?_ (hp₁ ▸ hpb))
    rw [hcmdb]
    rfl
  | close h hc hf _ ih =>
    obtain ⟨st₁, hp₁, hcmd₁, hturn⟩ := branch_of_letter strtod (hp ▸ h) hc
    obtain ⟨hpb, hcmdb⟩ := st₁.branch_closed strtod (hcmd₁ ▸ hf)
    refine (ends_iff_of_some hturn).2 (ih (st₁.branch_known strtod) ?_ (hpb.trans hp₁))
    rw [hcmdb, hcmd₁, hf]
  | command h hc hf hgroups _ ih =>
    obtain ⟨st₁, hp₁, hcmd₁, hturn⟩ := branch_of_letter strtod (hp ▸ h) hc
    obtain ⟨hgroups', hforceb⟩ := st₁.branch_reading strtod (hcmd₁ ▸ hf)
    refine (ends_iff_of_some hturn).2 (ih (st₁.branch_known strtod) hforceb ?_)
    exact hgroups'.unique (hp₁ ▸ hgroups)
  | more h hc _ hgroups _ ih =>
    have hcmd : st.cmd ≠ 0 := by
      intro hzero
      rw [hzero] at hforce
      cases hforce
    obtain ⟨st₁, hp₁, hcmd₁, hturn⟩ := branch_of_other strtod (hp ▸ h) hc hcmd
    obtain ⟨hgroups', hforceb⟩ := st₁.branch_reading strtod (hcmd₁ ▸ hforce)
    refine (ends_iff_of_some hturn).2 (ih (st₁.branch_known strtod) hforceb ?_)
    exact hgroups'.unique (hp₁ ▸ hgroups)

end PathState

/-- The loop over the attribute ends, and each of its iterations reads a byte or leaves it, exactly
when the text is complete. -/
theorem svgDrawPath_ends_iff {F : Type} (strtod : Strtod F) (d : Bytes) :
    (Ends (PathState.iteration strtod) (pathStart F d) ↔ Complete strtod .idle d) ∧
      ((∀ st, LeadsTo (PathState.iteration strtod) (pathStart F d) st →
        ∀ st', st.iteration strtod = some st' → st'.p.length < st.p.length) ↔
          Complete strtod .idle d) := by
  have hknown : (pathStart F d).Known := fun _ => rfl
  have hstuck : ∀ st : PathState F, st.Stuck strtod →
      ∃ st', st.iteration strtod = some st' ∧ st'.Stuck strtod :=
    fun _ => PathState.Stuck.iteration
  have hdown : ∀ st st' : PathState F, ¬ st.Stuck strtod → st.iteration strtod = some st' →
      st'.p.length < st.p.length := fun _ _ => PathState.iteration_lt
  have hends : Ends (PathState.iteration strtod) (pathStart F d) ↔ Complete strtod .idle d :=
    ⟨fun h => PathState.complete_of_free hknown ((ends_iff_not_stuck hstuck hdown).1 h),
      fun h => PathState.ends_of_complete h hknown rfl rfl⟩
  refine ⟨hends, ?_⟩
  rw [← hends, ends_iff_not_stuck hstuck hdown]
  exact descends_iff_not_stuck hstuck hdown

/-- `strtod` of decimal digits. -/
def readDigits : Strtod Nat where
  read s :=
    let digits := s.takeWhile fun c => 48 ≤ c && c ≤ 57
    (digits.foldl (fun n c => 10 * n + (c.toNat - 48)) 0, digits.length)
  read_le _ := (List.takeWhile_sublist _).length_le

/-- A number behind a `Z` is never read. -/
theorem number_after_close :
    ¬ Ends (PathState.iteration readDigits) (pathStart Nat (ascii "Z5")) ∧
      ∃ st st', LeadsTo (PathState.iteration readDigits) (pathStart Nat (ascii "Z5")) st ∧
        st.iteration readDigits = some st' ∧ st.p = ascii "5" ∧ st'.p = ascii "5" := by
  have hfirst : (pathStart Nat (ascii "Z5")).iteration readDigits =
      some ⟨90, 90, ascii "5", [⟨90, false, 0, []⟩]⟩ := rfl
  have hstuck : PathState.Stuck readDigits ⟨90, 90, ascii "5", [⟨90, false, 0, []⟩]⟩ :=
    ⟨53, [], rfl, rfl, by decide, .inl rfl⟩
  refine ⟨fun hends => ?_, _, _, .head hfirst (.refl _), rfl, rfl, rfl⟩
  exact not_ends_of_stuck (fun _ => PathState.Stuck.iteration) hstuck
    ((ends_iff_of_some hfirst).1 hends)

end TinyFramework.Render
