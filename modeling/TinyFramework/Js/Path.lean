/-
  Js/Path.lean --- path_norm, path_join_str and js_path_relative of the path module.

  A path is split at separators, its components go through a stack, and what is left of them is
  written out again.  The way from one path to another is made from their texts.  Buffers have
  the sizes that are allocated, arrays their 256 entries; a write outside gives `none`.

  On rooted paths the stack of `path_norm` is a place and its components are moves, as many of
  them as the array holds.  The character loops of `js_path_relative` stop where the names that
  both paths have end.
-/
import TinyFramework.Foundation.Ascii
import TinyFramework.Foundation.Directories
import TinyFramework.Foundation.Tokens

set_option autoImplicit false

namespace TinyFramework.Js.Path

open TinyFramework.Foundation

/-! ## path_norm -/

/-- `PATH_IS_SEP` -/
def pathIsSep (c : UInt8) : Bool := c == 47 || c == 92

/-- A buffer is filled up from where it is written to. -/
def put (cap : Nat) (out s : Bytes) : Option Bytes :=
  if out.length + s.length ≤ cap then some (out ++ s) else none

/-- The NUL at the end. -/
def terminate (cap : Nat) (out : Bytes) : Option Bytes :=
  if out.length < cap then some out else none

/-- A component goes into `comps` unless it is empty or the array is full. -/
def addComponent (tok : Bytes) (comps : List Bytes) : List Bytes :=
  if tok ≠ [] ∧ comps.length < 256 then comps ++ [tok] else comps

/-- The first loop of `path_norm`; `tok` is the text since the last separator. -/
def splitPath : Bytes → Bytes → List Bytes → List Bytes
  | tok, [], comps => addComponent tok comps
  | tok, c :: s, comps =>
      if pathIsSep c then splitPath [] s (addComponent tok comps)
      else splitPath (tok ++ [c]) s comps

/-- `stack[sp++] = name` -/
def pushName (name : Bytes) (stack : List Bytes) : Option (List Bytes) :=
  if stack.length < 256 then some (name :: stack) else none

/-- The body of the second loop; the top of the stack is its first entry. -/
def pathStep (rooted : Bool) (stack : List Bytes) (comp : Bytes) : Option (List Bytes) :=
  if comp = ascii "." then some stack
  else if comp = ascii ".." then
    match stack with
    | [] => if rooted then some [] else pushName (ascii "..") []
    | top :: below =>
        if top ≠ ascii ".." then some below
        else if rooted then some (top :: below) else pushName (ascii "..") (top :: below)
  else pushName comp stack

/-- The third loop, from the bottom of the stack on. -/
def writeNames (cap : Nat) : Bytes → Bool → List Bytes → Option Bytes
  | out, _, [] => some out
  | out, first, name :: names => do
      let out ← if first = false ∧ out ≠ [] ∧ out.getLast?.any pathIsSep = false
        then put cap out [47] else some out
      let out ← put cap out name
      writeNames cap out false names

/-- `path_norm` -/
def pathNorm (p : Bytes) : Option Bytes := do
  let cap := p.length + 2
  let rooted := p.head?.any pathIsSep
  let stack ← (splitPath [] p []).foldlM (pathStep rooted) []
  let out ← if rooted then put cap [] [47] else some []
  let out ← writeNames cap out true stack.reverse
  let out ← if out = [] then put cap out [46] else some out
  terminate cap out

/-! ## path_join_str -/

/-- The body of the loop; the new buffer has `bl + sl + 2` bytes. -/
def joinTurn (buf s : Bytes) : Option Bytes := do
  let cap := buf.length + s.length + 2
  let out ← put cap [] buf
  let out ← if buf ≠ [] ∧ buf.getLast?.any pathIsSep = false ∧ s.head?.any pathIsSep = false
    then put cap out [47] else some out
  let out ← put cap out s
  terminate cap out

/-- `path_join_str` -/
def pathJoinStr (args : List Bytes) : Option Bytes := do
  let buf ← args.foldlM joinTurn []
  pathNorm buf

/-! ## js_path_relative -/

/-- `i` behind the first loop. -/
def sharedPrefix : Bytes → Bytes → Nat
  | a :: fn, b :: tn => if a = b then sharedPrefix fn tn + 1 else 0
  | _, _ => 0

/-- `cp` behind the second loop. -/
def backToSep (fn : Bytes) : Nat → Nat
  | 0 => 0
  | cp + 1 => if (fn[cp]?).any pathIsSep then cp + 1 else backToSep fn cp

/-- The separators that something stands behind. -/
def countSeps : Bytes → Nat
  | a :: b :: s => (if pathIsSep a then 1 else 0) + countSeps (b :: s)
  | _ => 0

/-- `ups`, from what is left of `fn`. -/
def countUps (s : Bytes) : Nat := countSeps s + if s = [] then 0 else 1

def writeUps (cap : Nat) : Bytes → Nat → Option Bytes
  | out, 0 => some out
  | out, u + 1 => do
      let out ← put cap out [46]
      let out ← put cap out [46]
      let out ← put cap out [47]
      writeUps cap out u

/-- `js_path_relative` of two strings. -/
def jsPathRelative (source target : Bytes) : Option Bytes := do
  let fn ← pathNorm source
  let tn ← pathNorm target
  let cp := backToSep fn (sharedPrefix fn tn)
  let ups := countUps (fn.drop cp)
  let cap := tn.length + ups * 3 + 2
  let out ← writeUps cap [] ups
  let out ← put cap out (tn.drop cp)
  let out ← terminate cap out
  if out = [] then do
    let out ← put cap out [46]
    terminate cap out
  else some out

/-! ## What paths mean -/

/-- The move that a component stands for. -/
def nameMove (comp : Bytes) : Move Bytes :=
  if comp = ascii "." then .here else if comp = ascii ".." then .up else .down comp

/-- The moves of a path. -/
def pathMoves (p : Bytes) : List (Move Bytes) := (tokens pathIsSep p).map nameMove

/-- The names from the root down to where a rooted path leads. -/
def pathPlace (p : Bytes) : List Bytes := (follow [] (pathMoves p)).reverse

/-- Names with a separator between any two. -/
def joinNames : List Bytes → Bytes
  | [] => []
  | [name] => name
  | name :: next :: names => name ++ 47 :: joinNames (next :: names)

/-- The path that leads to a place straight from the root. -/
def placeText (names : List Bytes) : Bytes := 47 :: joinNames names

/-- A path that begins with a separator. -/
structure RootedPath where
  bytes : Bytes
  rooted : bytes.head?.any pathIsSep = true := by decide

/-- What the three functions are for: both paths are resolved component by component, what is
resolved stays as it is, and the way from one to the other leads there. -/
structure PathsAgree (source target : Bytes) : Prop where
  resolves_source : pathNorm source = some (placeText (pathPlace source))
  resolves_target : pathNorm target = some (placeText (pathPlace target))
  stays_source : pathNorm (placeText (pathPlace source)) = some (placeText (pathPlace source))
  stays_target : pathNorm (placeText (pathPlace target)) = some (placeText (pathPlace target))
  leads : ∃ rel, jsPathRelative source target = some rel ∧
    pathJoinStr [source, rel] = pathNorm target

/-! ## Conditions -/

/-- The components behind the 256th lead back to where the first 256 lead. -/
def LeadsBack (p : Bytes) : Prop :=
  follow (follow [] ((pathMoves p).take 256)) ((pathMoves p).drop 256) =
    follow [] ((pathMoves p).take 256)

/-- What the source leaves of 256 components is enough for the way to the target, or the target
is as many levels above the source. -/
structure PathsFit (source target : Bytes) : Prop where
  source_back : LeadsBack source
  target_back : LeadsBack target
  room :
    (wayBetween (sharedLevels (pathPlace source) (pathPlace target)) (pathPlace source)
        (pathPlace target)).length ≤ 256 - (pathMoves source).length ∨
      pathPlace target <+: pathPlace source ∧
        (pathPlace target).length + (256 - (pathMoves source).length) =
          (pathPlace source).length

/-! ## Components -/

/-- What is cut off behind a place is cut off behind it with anything. -/
theorem take_append_take {α : Type} (n : Nat) (a b : List α) :
    (a.take n ++ b).take n = (a ++ b).take n := by
  rcases Nat.le_total n a.length with h | h
  · have hlen : n ≤ (a.take n).length := by rw [List.length_take]; omega
    rw [List.take_append_of_le_length hlen, List.take_append_of_le_length h, List.take_take,
      Nat.min_self]
  · rw [List.take_of_length_le h]

theorem tokens_piece {tok : Bytes} (h : ∀ c ∈ tok, pathIsSep c = false) :
    tokens pathIsSep tok = if tok = [] then [] else [tok] := by
  split_ifs with hnil
  · rw [hnil, tokens_nil]
  · exact tokens_alone hnil h

theorem addComponent_eq {tok : Bytes} (h : ∀ c ∈ tok, pathIsSep c = false) {comps : List Bytes}
    (hlen : comps.length ≤ 256) :
    addComponent tok comps = (comps ++ tokens pathIsSep tok).take 256 := by
  rw [addComponent, tokens_piece h]
  rcases Nat.lt_or_eq_of_le hlen with hlt | heq
  · by_cases hnil : tok = []
    · rw [if_neg (fun h => h.1 hnil), if_pos hnil, List.append_nil, List.take_of_length_le hlen]
    · rw [if_pos ⟨hnil, hlt⟩, if_neg hnil, List.take_of_length_le]
      rw [List.length_append, List.length_singleton]
      omega
  · rw [if_neg (by omega), List.take_append_of_le_length (by omega), List.take_of_length_le hlen]

/-- The first loop finds the pieces between separators, 256 of them. -/
theorem splitPath_eq {tok : Bytes} (h : ∀ c ∈ tok, pathIsSep c = false) (s : Bytes)
    {comps : List Bytes} (hlen : comps.length ≤ 256) :
    splitPath tok s comps = (comps ++ tokens pathIsSep (tok ++ s)).take 256 := by
  induction s generalizing tok comps with
  | nil => rw [splitPath, addComponent_eq h hlen, List.append_nil]
  | cons c s ih =>
    rw [splitPath]
    split_ifs with hc
    · have hadd : (addComponent tok comps).length ≤ 256 := by
        rw [addComponent_eq h hlen]
        exact List.length_take_le _ _
      rw [ih (fun _ hx => absurd hx List.not_mem_nil) hadd, addComponent_eq h hlen,
        take_append_take, List.append_assoc, List.nil_append, tokens_append_cons _ _ hc]
    · have htok : ∀ x ∈ tok ++ [c], pathIsSep x = false :=
        List.forall_mem_append.2 ⟨h, List.forall_mem_singleton.2 (Bool.eq_false_iff.2 hc)⟩
      rw [ih htok hlen, List.append_assoc, List.singleton_append]

theorem splitPath_path (p : Bytes) : splitPath [] p [] = (tokens pathIsSep p).take 256 := by
  rw [splitPath_eq (fun _ hx => absurd hx List.not_mem_nil) p (Nat.zero_le _), List.nil_append,
    List.nil_append]

/-! ## The stack -/

/-- A name, as a normalised path has it. -/
def Proper (name : Bytes) : Prop :=
  name ≠ [] ∧ (∀ c ∈ name, pathIsSep c = false) ∧ name ≠ ascii "." ∧ name ≠ ascii ".."

/-- The stack is a place. -/
theorem pathStep_follow {comps : List Bytes} {stack : List Bytes}
    (hstack : ∀ x ∈ stack, x ≠ ascii "..") (hlen : stack.length + comps.length ≤ 256) :
    comps.foldlM (pathStep true) stack = some (follow stack (comps.map nameMove)) := by
  induction comps generalizing stack with
  | nil => rfl
  | cons comp comps ih =>
    rw [List.length_cons] at hlen
    have hstep : pathStep true stack comp = some ((nameMove comp).act stack) := by
      unfold pathStep nameMove
      by_cases hdot : comp = ascii "."
      · rw [if_pos hdot, if_pos hdot]
        rfl
      · rw [if_neg hdot, if_neg hdot]
        by_cases hdots : comp = ascii ".."
        · rw [if_pos hdots, if_pos hdots]
          cases stack with
          | nil => rfl
          | cons top below => exact if_pos (hstack top List.mem_cons_self)
        · rw [if_neg hdots, if_neg hdots]
          exact if_pos (by omega)
    have hact : ∀ x ∈ (nameMove comp).act stack, x ≠ ascii ".." := by
      rw [nameMove]
      split_ifs with hdot hdots
      · exact hstack
      · exact fun x hx => hstack x (List.mem_of_mem_tail hx)
      · exact List.forall_mem_cons.2 ⟨hdots, hstack⟩
    have hshort : ((nameMove comp).act stack).length + comps.length ≤ 256 := by
      have h := length_follow_le stack [nameMove comp]
      have hone : follow stack [nameMove comp] = (nameMove comp).act stack := rfl
      rw [hone, List.length_singleton] at h
      omega
    rw [List.foldlM_cons, hstep]
    exact ih hact hshort

/-- The names of a place that components lead to. -/
theorem proper_follow {comps : List Bytes}
    (h : ∀ t ∈ comps, t ≠ [] ∧ ∀ c ∈ t, pathIsSep c = false) :
    ∀ x ∈ follow [] (comps.map nameMove), Proper x := by
  intro x hx
  rcases mem_follow hx with hnil | hdown
  · cases hnil
  · obtain ⟨t, ht, hmove⟩ := List.mem_map.1 hdown
    rw [nameMove] at hmove
    split_ifs at hmove with hdot hdots
    obtain rfl := Move.down.inj hmove
    exact ⟨(h t ht).1, (h t ht).2, hdot, hdots⟩

/-- The names of where a path leads. -/
theorem proper_place (p : Bytes) (n : Nat) :
    ∀ x ∈ (follow [] ((pathMoves p).take n)).reverse, Proper x := by
  intro x hx
  rw [pathMoves, ← List.map_take] at hx
  refine proper_follow (fun t ht => ?_) x (List.mem_reverse.1 hx)
  have hmem := List.mem_of_mem_take ht
  exact ⟨tokens_nonempty hmem, fun c hc => (mem_tokens hmem hc).2⟩

/-! ## What is written -/

/-- The bytes of names, with a separator for each. -/
def weight (names : List Bytes) : Nat := (names.map fun t => t.length + 1).sum

theorem weight_cons (name : Bytes) (names : List Bytes) :
    weight (name :: names) = name.length + 1 + weight names := by
  rw [weight, List.map_cons, List.sum_cons, weight]

theorem weight_follow (comps stack : List Bytes) :
    weight (follow stack (comps.map nameMove)) ≤ weight stack + weight comps := by
  induction comps generalizing stack with
  | nil => exact Nat.le_add_right _ _
  | cons comp comps ih =>
    have hact : weight ((nameMove comp).act stack) ≤ weight stack + (comp.length + 1) := by
      rw [nameMove]
      split_ifs
      · exact Nat.le_add_right _ _
      · cases stack with
        | nil => exact Nat.zero_le _
        | cons top below =>
          rw [Move.act, List.tail_cons, weight_cons]
          omega
      · rw [Move.act, weight_cons]
        omega
    have hrest := ih ((nameMove comp).act stack)
    have hstep : follow stack ((comp :: comps).map nameMove) =
        follow ((nameMove comp).act stack) (comps.map nameMove) := rfl
    rw [hstep, weight_cons]
    omega

theorem weight_reverse (names : List Bytes) : weight names.reverse = weight names := by
  rw [weight, List.map_reverse, List.sum_reverse, weight]

theorem weight_take_le (n : Nat) (comps : List Bytes) : weight (comps.take n) ≤ weight comps := by
  conv_rhs => rw [← List.take_append_drop n comps, weight, List.map_append, List.sum_append]
  exact Nat.le_add_right _ _

theorem joinNames_cons (name : Bytes) (names : List Bytes) :
    joinNames (name :: names) = name ++ names.flatMap (47 :: ·) := by
  induction names generalizing name with
  | nil => rw [joinNames, List.flatMap_nil, List.append_nil]
  | cons next names ih => rw [joinNames, ih, List.flatMap_cons, List.cons_append]

theorem length_flatMap (names : List Bytes) :
    (names.flatMap (47 :: ·)).length = weight names := by
  rw [List.length_flatMap, weight]
  rfl

theorem length_placeText (names : List Bytes) :
    (placeText names).length = max 1 (weight names) := by
  cases names with
  | nil => rfl
  | cons name names =>
    rw [placeText, joinNames_cons, List.length_cons, List.length_append, length_flatMap,
      weight_cons]
    omega

theorem put_eq {cap : Nat} {out s : Bytes} (h : out.length + s.length ≤ cap) :
    put cap out s = some (out ++ s) :=
  if_pos h

theorem lastSep_append {name : Bytes} (h : Proper name) (out : Bytes) :
    (out ++ name).getLast?.any pathIsSep = false := by
  rcases List.eq_nil_or_concat name with hnil | ⟨init, last, rfl⟩
  · exact absurd hnil h.1
  · have hlast : pathIsSep last = false := h.2.1 last (by simp)
    rw [List.concat_eq_append, ← List.append_assoc, List.getLast?_concat]
    exact hlast

/-- The other names are written with a separator in front of each. -/
theorem writeNames_rest {cap : Nat} {names : List Bytes} (hproper : ∀ x ∈ names, Proper x)
    {out : Bytes} (hout : out ≠ []) (hlast : out.getLast?.any pathIsSep = false)
    (hcap : out.length + weight names ≤ cap) :
    writeNames cap out false names = some (out ++ names.flatMap (47 :: ·)) := by
  induction names generalizing out with
  | nil => rw [writeNames, List.flatMap_nil, List.append_nil]
  | cons name names ih =>
    rw [List.forall_mem_cons] at hproper
    rw [weight_cons] at hcap
    have hsep : put cap out [47] = some (out ++ [47]) :=
      put_eq (by rw [List.length_singleton]; omega)
    have hname : put cap (out ++ [47]) name = some (out ++ [47] ++ name) :=
      put_eq (by rw [List.length_append, List.length_singleton]; omega)
    rw [writeNames, if_pos ⟨rfl, hout, hlast⟩, hsep]
    simp only [Option.bind_eq_bind, Option.bind_some, hname]
    rw [ih hproper.2 (by simp) (lastSep_append hproper.1 _) (by simp; omega)]
    simp

theorem writeNames_place {cap : Nat} {names : List Bytes} (hproper : ∀ x ∈ names, Proper x)
    (hcap : max 1 (weight names) ≤ cap) :
    writeNames cap [47] true names = some (placeText names) := by
  cases names with
  | nil => rfl
  | cons name names =>
    rw [List.forall_mem_cons] at hproper
    rw [weight_cons] at hcap
    have hname : put cap [47] name = some ([47] ++ name) :=
      put_eq (by rw [List.length_singleton]; omega)
    have hrest : writeNames cap ([47] ++ name) false names =
        some ([47] ++ name ++ names.flatMap (47 :: ·)) :=
      writeNames_rest hproper.2 (List.append_ne_nil_of_left_ne_nil (List.cons_ne_nil 47 []) name)
        (lastSep_append hproper.1 [47]) (by simp; omega)
    rw [writeNames, if_neg (fun h => absurd h.1 (by decide))]
    simp only [Option.bind_eq_bind, Option.bind_some, hname, hrest]
    rw [placeText, joinNames_cons]
    rfl

/-- A rooted path is normalised to the place that its first 256 components lead to, and all is
written inside of the buffers. -/
theorem pathNorm_rooted (p : RootedPath) :
    pathNorm p.bytes = some (placeText (follow [] ((pathMoves p.bytes).take 256)).reverse) := by
  have hstack : (splitPath [] p.bytes []).foldlM (pathStep true) [] =
      some (follow [] ((pathMoves p.bytes).take 256)) := by
    rw [splitPath_path, pathStep_follow (fun _ hx => absurd hx List.not_mem_nil), pathMoves,
      List.map_take]
    rw [List.length_nil, List.length_take]
    omega
  have hplace : (pathMoves p.bytes).take 256 =
      ((tokens pathIsSep p.bytes).take 256).map nameMove := by
    rw [pathMoves, List.map_take]
  have hproper := proper_place p.bytes 256
  have hweight : weight (follow [] ((pathMoves p.bytes).take 256)).reverse ≤ p.bytes.length := by
    have hsum : weight (tokens pathIsSep p.bytes) ≤ p.bytes.length := by
      obtain ⟨bytes, hrooted⟩ := p
      cases bytes with
      | nil => cases hrooted
      | cons c s =>
        have hsep : pathIsSep c = true := hrooted
        have hrest : weight (tokens pathIsSep s) ≤ s.length + 1 := sum_tokens_le s
        change weight (tokens pathIsSep (c :: s)) ≤ (c :: s).length
        rw [tokens_cons hsep]
        exact hrest
    have hfollow := weight_follow ((tokens pathIsSep p.bytes).take 256) []
    have htake := weight_take_le 256 (tokens pathIsSep p.bytes)
    have hnil : weight [] = 0 := rfl
    rw [weight_reverse, hplace]
    omega
  have hpos : 0 < p.bytes.length := by
    obtain ⟨bytes, hrooted⟩ := p
    cases bytes with
    | nil => cases hrooted
    | cons c s => exact Nat.succ_pos _
  have hroot : put (p.bytes.length + 2) [] [47] = some [47] :=
    put_eq (by rw [List.length_nil, List.length_singleton]; omega)
  have hwrite := writeNames_place hproper
    (show max 1 (weight _) ≤ p.bytes.length + 2 by omega)
  have hseal : terminate (p.bytes.length + 2)
      (placeText (follow [] ((pathMoves p.bytes).take 256)).reverse) = some _ :=
    if_pos (by rw [length_placeText]; omega)
  have hne : placeText (follow [] ((pathMoves p.bytes).take 256)).reverse ≠ [] :=
    List.cons_ne_nil _ _
  simp only [pathNorm, p.rooted, hstack, if_true, hroot, hwrite, if_neg hne, hseal,
    Option.bind_eq_bind, Option.bind_some]

/-! ## Normalised paths -/

theorem tokens_joinNames {names : List Bytes} (hproper : ∀ x ∈ names, Proper x) :
    tokens pathIsSep (joinNames names) = names := by
  induction names with
  | nil => exact tokens_nil _
  | cons name names ih =>
    rw [List.forall_mem_cons] at hproper
    have halone := tokens_alone hproper.1.1 hproper.1.2.1
    cases names with
    | nil => exact halone
    | cons next names =>
      rw [joinNames, tokens_append_cons _ _ (by decide), halone, ih hproper.2,
        List.singleton_append]

theorem nameMove_proper {name : Bytes} (h : Proper name) : nameMove name = .down name := by
  rw [nameMove, if_neg h.2.2.1, if_neg h.2.2.2]

theorem moves_joinNames {names : List Bytes} (hproper : ∀ x ∈ names, Proper x) :
    pathMoves (joinNames names) = names.map .down := by
  rw [pathMoves, tokens_joinNames hproper]
  exact List.map_congr_left fun name hname => nameMove_proper (hproper name hname)

theorem moves_placeText {names : List Bytes} (hproper : ∀ x ∈ names, Proper x) :
    pathMoves (placeText names) = names.map .down := by
  rw [← moves_joinNames hproper, pathMoves, placeText, tokens_cons (by decide), pathMoves]

theorem placeText_inj {a b : List Bytes} (ha : ∀ x ∈ a, Proper x) (hb : ∀ x ∈ b, Proper x)
    (h : placeText a = placeText b) : a = b := by
  have htokens := congrArg (tokens pathIsSep) (List.cons_inj_right 47 |>.1 h)
  rwa [tokens_joinNames ha, tokens_joinNames hb] at htokens

/-- What is normalised stays as it is. -/
theorem pathNorm_placeText {names : List Bytes} (hproper : ∀ x ∈ names, Proper x)
    (hlen : names.length ≤ 256) : pathNorm (placeText names) = some (placeText names) := by
  rw [pathNorm_rooted ⟨placeText names, rfl⟩, moves_placeText hproper,
    List.take_of_length_le (by rwa [List.length_map]), follow_downs, List.append_nil,
    List.reverse_reverse]

/-- `path_norm` is idempotent, also where it drops components. -/
theorem pathNorm_idem (p : RootedPath) : (pathNorm p.bytes).bind pathNorm = pathNorm p.bytes := by
  have hlen := length_follow_le [] ((pathMoves p.bytes).take 256)
  have htake := List.length_take_le 256 (pathMoves p.bytes)
  rw [List.length_nil] at hlen
  rw [pathNorm_rooted, Option.bind_some, pathNorm_placeText (proper_place _ 256)]
  rw [List.length_reverse]
  omega

theorem proper_pathPlace (p : Bytes) : ∀ x ∈ pathPlace p, Proper x := by
  have h := proper_place p (pathMoves p).length
  rwa [List.take_length] at h

/-- A path is resolved where the components behind the 256th lead back. -/
theorem resolves_iff (p : RootedPath) :
    pathNorm p.bytes = some (placeText (pathPlace p.bytes)) ↔ LeadsBack p.bytes := by
  have hall : follow (follow [] ((pathMoves p.bytes).take 256)) ((pathMoves p.bytes).drop 256) =
      follow [] (pathMoves p.bytes) := by
    rw [← follow_append, List.take_append_drop]
  rw [pathNorm_rooted, LeadsBack, hall, Option.some_inj]
  constructor
  · intro h
    exact (List.reverse_inj.1 (placeText_inj (proper_place _ 256) (proper_pathPlace _) h)).symm
  · intro h
    rw [pathPlace, h]

/-- The place that a path leads to is no deeper than the array. -/
theorem LeadsBack.short {p : Bytes} (h : LeadsBack p) :
    (follow [] ((pathMoves p).take 256)).reverse = pathPlace p ∧ (pathPlace p).length ≤ 256 := by
  have hplace : (follow [] ((pathMoves p).take 256)).reverse = pathPlace p := by
    rw [pathPlace, ← h, ← follow_append, List.take_append_drop]
  have hlen := length_follow_le [] ((pathMoves p).take 256)
  have htake := List.length_take_le 256 (pathMoves p)
  refine ⟨hplace, ?_⟩
  rw [← hplace, List.length_reverse]
  rw [List.length_nil] at hlen
  omega

end TinyFramework.Js.Path
