/-
  Js/PathRelative.lean --- the way from one path to another.

  The character loops of `js_path_relative` stop where the names end that both paths share, none
  of them the last of its path.  What is written is the way between the two places; joined to
  the source it leads to the target if the array of `path_norm` holds the source and the way.
-/
import TinyFramework.Js.Path

set_option autoImplicit false

namespace TinyFramework.Js.Path

open TinyFramework.Foundation

/-! ## The shared prefix -/

theorem sharedPrefix_append (lead s t : Bytes) :
    sharedPrefix (lead ++ s) (lead ++ t) = lead.length + sharedPrefix s t := by
  induction lead with
  | nil => exact (Nat.zero_add _).symm
  | cons c lead ih =>
    rw [List.cons_append, List.cons_append, sharedPrefix, if_pos rfl, ih, List.length_cons]
    omega

theorem sharedPrefix_nil (s : Bytes) : sharedPrefix s [] = 0 := by
  cases s with
  | nil => rfl
  | cons c s => rfl

/-- A separator in front stops the way back. -/
theorem backToSep_append (lead s : Bytes) (i : Nat) :
    backToSep (lead ++ 47 :: s) (lead.length + 1 + i) = lead.length + 1 + backToSep s i := by
  induction i with
  | zero =>
    have hsep : (lead ++ 47 :: s)[lead.length]? = some 47 := by
      rw [List.getElem?_append_right (Nat.le_refl _), Nat.sub_self]
      rfl
    have hback : backToSep (lead ++ 47 :: s) (lead.length + 1) =
        if ((lead ++ 47 :: s)[lead.length]?).any pathIsSep then lead.length + 1
        else backToSep (lead ++ 47 :: s) lead.length := rfl
    rw [Nat.add_zero, hback, hsep, if_pos (by decide), backToSep, Nat.add_zero]
  | succ i ih =>
    have hat : (lead ++ 47 :: s)[lead.length + 1 + i]? = s[i]? := by
      rw [List.getElem?_append_right (by omega),
        show lead.length + 1 + i - lead.length = i + 1 by omega, List.getElem?_cons_succ]
    rw [← Nat.add_assoc, backToSep, hat, backToSep]
    split_ifs
    · omega
    · exact ih

/-- Inside of the first name nothing stops it. -/
theorem backToSep_name {name : Bytes} (hname : ∀ c ∈ name, pathIsSep c = false) (s : Bytes)
    {i : Nat} (hi : i ≤ name.length) : backToSep (name ++ s) i = 0 := by
  induction i with
  | zero => rfl
  | succ i ih =>
    have hlt : i < name.length := hi
    have hat : (name ++ s)[i]? = some name[i] := by
      rw [List.getElem?_append_left hlt, List.getElem?_eq_getElem hlt]
    rw [backToSep, hat, Option.any_some, hname _ (List.getElem_mem hlt)]
    exact ih (Nat.le_of_lt hi)

/-- Two names that differ, or one of them the last, share no separator. -/
theorem sharedPrefix_le {a b : Bytes} (ha : ∀ c ∈ a, pathIsSep c = false)
    (hb : ∀ c ∈ b, pathIsSep c = false) {source target : List Bytes}
    (h : a = b → source ≠ [] → target = []) :
    sharedPrefix (a ++ source.flatMap (47 :: ·)) (b ++ target.flatMap (47 :: ·)) ≤ a.length := by
  have hsep : ∀ {c : UInt8}, pathIsSep c = false → c ≠ 47 := by
    rintro c hc rfl
    exact absurd hc (by decide)
  induction a generalizing b with
  | nil =>
    refine Nat.le_of_eq ?_
    cases source with
    | nil => rfl
    | cons first source =>
      cases b with
      | nil =>
        rw [h rfl (List.cons_ne_nil _ _)]
        exact sharedPrefix_nil _
      | cons d b => exact if_neg fun heq => hsep (hb d List.mem_cons_self) heq.symm
  | cons c a ih =>
    rw [List.forall_mem_cons] at ha
    cases b with
    | nil =>
      refine Nat.le_trans (Nat.le_of_eq ?_) (Nat.zero_le _)
      cases target with
      | nil => exact sharedPrefix_nil _
      | cons first target => exact if_neg (hsep ha.1)
    | cons d b =>
      rw [List.forall_mem_cons] at hb
      rw [List.cons_append, List.cons_append, sharedPrefix]
      split_ifs with heq
      · have hrest := ih ha.2 hb.2 fun hab => h (by rw [heq, hab])
        exact Nat.succ_le_succ hrest
      · exact Nat.zero_le _

/-- What both paths have behind the shared levels is what is left behind the cut. -/
theorem drop_cut {source target : List Bytes} (hsource : ∀ x ∈ source, Proper x)
    (htarget : ∀ x ∈ target, Proper x) :
    (joinNames source).drop
        (backToSep (joinNames source) (sharedPrefix (joinNames source) (joinNames target))) =
          joinNames (source.drop (sharedLevels source target)) ∧
      (joinNames target).drop
        (backToSep (joinNames source) (sharedPrefix (joinNames source) (joinNames target))) =
          joinNames (target.drop (sharedLevels source target)) := by
  induction source generalizing target with
  | nil => exact ⟨rfl, rfl⟩
  | cons a source ih =>
    cases target with
    | nil =>
      have hzero : sharedPrefix (joinNames (a :: source)) (joinNames []) = 0 := sharedPrefix_nil _
      rw [hzero]
      exact ⟨rfl, rfl⟩
    | cons b target =>
      rw [List.forall_mem_cons] at hsource htarget
      rw [sharedLevels]
      split_ifs with h
      · obtain ⟨rfl, hs, ht⟩ := h
        have hjoin : ∀ {names : List Bytes}, names ≠ [] →
            joinNames (a :: names) = a ++ 47 :: joinNames names := by
          intro names hne
          cases names with
          | nil => exact absurd rfl hne
          | cons next names => rfl
        have hlead : ∀ s : Bytes, a ++ 47 :: s = (a ++ [47]) ++ s := by
          intro s
          rw [List.append_assoc, List.singleton_append]
        have hshared : sharedPrefix (a ++ 47 :: joinNames source) (a ++ 47 :: joinNames target) =
            a.length + 1 + sharedPrefix (joinNames source) (joinNames target) := by
          rw [hlead (joinNames source), hlead (joinNames target), sharedPrefix_append,
            List.length_append, List.length_singleton]
        have hdrop : ∀ (s : Bytes) (k : Nat),
            (a ++ 47 :: s).drop (a.length + 1 + k) = s.drop k := by
          intro s k
          rw [← List.drop_drop, hlead, List.drop_left' (by simp)]
        rw [hjoin hs, hjoin ht, hshared, backToSep_append, hdrop, hdrop, List.drop_succ_cons,
          List.drop_succ_cons]
        exact ih hsource.2 htarget.2
      · have hends : a = b → source ≠ [] → target = [] := by
          intro hab hs
          by_contra ht
          exact h ⟨hab, hs, ht⟩
        have hle := sharedPrefix_le hsource.1.2.1 htarget.1.2.1 hends
        rw [joinNames_cons a, joinNames_cons b, backToSep_name hsource.1.2.1 _ hle, List.drop_zero,
          List.drop_zero, List.drop_zero, List.drop_zero, joinNames_cons, joinNames_cons]
        exact ⟨rfl, rfl⟩

theorem drop_place {source target : List Bytes} (hsource : ∀ x ∈ source, Proper x)
    (htarget : ∀ x ∈ target, Proper x) :
    (placeText source).drop
        (backToSep (placeText source) (sharedPrefix (placeText source) (placeText target))) =
          joinNames (source.drop (sharedLevels source target)) ∧
      (placeText target).drop
        (backToSep (placeText source) (sharedPrefix (placeText source) (placeText target))) =
          joinNames (target.drop (sharedLevels source target)) := by
  have hshared : sharedPrefix (placeText source) (placeText target) =
      0 + 1 + sharedPrefix (joinNames source) (joinNames target) := by
    rw [placeText, placeText, sharedPrefix, if_pos rfl]
    omega
  have hback := backToSep_append [] (joinNames source)
    (sharedPrefix (joinNames source) (joinNames target))
  rw [List.nil_append, List.length_nil] at hback
  rw [hshared, placeText, hback, placeText, Nat.zero_add, Nat.add_comm 1, List.drop_succ_cons,
    List.drop_succ_cons]
  exact drop_cut hsource htarget

/-! ## What is written -/

theorem countSeps_name {name : Bytes} (hname : ∀ c ∈ name, pathIsSep c = false) (s : Bytes) :
    countSeps (name ++ s) = countSeps s := by
  induction name with
  | nil => rfl
  | cons c name ih =>
    rw [List.forall_mem_cons] at hname
    have hskip : ∀ t : Bytes, countSeps (c :: t) = countSeps t := by
      intro t
      cases t with
      | nil => rfl
      | cons d t => rw [countSeps, hname.1, if_neg Bool.false_ne_true, Nat.zero_add]
    rw [List.cons_append, hskip, ih hname.2]

/-- Each name stands behind a separator. -/
theorem countSeps_names {names : List Bytes} (hproper : ∀ x ∈ names, Proper x) :
    countSeps (names.flatMap (47 :: ·)) = names.length := by
  induction names with
  | nil => rfl
  | cons name names ih =>
    rw [List.forall_mem_cons] at hproper
    have hsep : ∀ t : Bytes, t ≠ [] → countSeps (47 :: t) = 1 + countSeps t := by
      intro t ht
      cases t with
      | nil => exact absurd rfl ht
      | cons d t => rw [countSeps, if_pos (by decide)]
    rw [List.flatMap_cons, List.cons_append,
      hsep _ (List.append_ne_nil_of_left_ne_nil hproper.1.1 _), countSeps_name hproper.1.2.1,
      ih hproper.2, List.length_cons, Nat.add_comm]

/-- As many levels are gone up as names are left. -/
theorem countUps_names {names : List Bytes} (hproper : ∀ x ∈ names, Proper x) :
    countUps (joinNames names) = names.length := by
  cases names with
  | nil => rfl
  | cons name names =>
    rw [List.forall_mem_cons] at hproper
    have hne : name ++ names.flatMap (47 :: ·) ≠ [] :=
      List.append_ne_nil_of_left_ne_nil hproper.1.1 _
    rw [countUps, joinNames_cons, countSeps_name hproper.1.2.1, countSeps_names hproper.2,
      if_neg hne, List.length_cons]

/-- The text that goes up. -/
def upsText (ups : Nat) : Bytes := (List.replicate ups [46, 46, 47]).flatten

theorem upsText_succ (ups : Nat) : upsText (ups + 1) = [46, 46, 47] ++ upsText ups := by
  rw [upsText, List.replicate_succ, List.flatten_cons, upsText]

theorem length_upsText (ups : Nat) : (upsText ups).length = ups * 3 := by
  induction ups with
  | zero => rfl
  | succ ups ih =>
    rw [upsText_succ, List.length_append, ih, List.length_cons, List.length_cons,
      List.length_singleton]
    omega

theorem writeUps_eq {cap : Nat} (ups : Nat) {out : Bytes} (hcap : out.length + ups * 3 ≤ cap) :
    writeUps cap out ups = some (out ++ upsText ups) := by
  induction ups generalizing out with
  | zero => exact congrArg some (List.append_nil out).symm
  | succ ups ih =>
    have hlen : (out ++ [46] ++ [46] ++ [47] : Bytes).length = out.length + 3 := by simp
    have hfirst : put cap out [46] = some (out ++ [46]) :=
      put_eq (by rw [List.length_singleton]; omega)
    have hsecond : put cap (out ++ [46]) [46] = some (out ++ [46] ++ [46]) :=
      put_eq (by simp; omega)
    have hthird : put cap (out ++ [46] ++ [46]) [47] = some (out ++ [46] ++ [46] ++ [47]) :=
      put_eq (by simp; omega)
    rw [writeUps, hfirst]
    simp only [Option.bind_eq_bind, Option.bind_some, hsecond, hthird]
    rw [ih (by omega), upsText_succ]
    simp

/-- The text of the way between two places. -/
def wayText (c : Nat) (source target : List Bytes) : Bytes :=
  upsText (source.length - c) ++ joinNames (target.drop c)

/-- `js_path_relative` writes the way between the places of two paths, inside of its buffer. -/
theorem jsPathRelative_places {p q : Bytes} {source target : List Bytes}
    (hp : pathNorm p = some (placeText source)) (hq : pathNorm q = some (placeText target))
    (hsource : ∀ x ∈ source, Proper x) (htarget : ∀ x ∈ target, Proper x) :
    jsPathRelative p q =
      some (if wayText (sharedLevels source target) source target = [] then [46]
        else wayText (sharedLevels source target) source target) := by
  obtain ⟨hleft, hright⟩ := drop_place hsource htarget
  have hlen := congrArg List.length hright
  rw [List.length_drop] at hlen
  generalize sharedLevels source target = c at hleft hright hlen ⊢
  have hups : countUps (joinNames (source.drop c)) = source.length - c := by
    rw [countUps_names fun x hx => hsource x (List.mem_of_mem_drop hx), List.length_drop]
  have hwrite : writeUps ((placeText target).length + (source.length - c) * 3 + 2) []
      (source.length - c) = some (upsText (source.length - c)) :=
    writeUps_eq _ (by rw [List.length_nil]; omega)
  have hput : put ((placeText target).length + (source.length - c) * 3 + 2)
      (upsText (source.length - c)) (joinNames (target.drop c)) = some (wayText c source target) :=
    put_eq (by rw [length_upsText]; omega)
  have hway : (wayText c source target).length ≤
      (placeText target).length + (source.length - c) * 3 := by
    rw [wayText, List.length_append, length_upsText]
    omega
  have hseal : terminate ((placeText target).length + (source.length - c) * 3 + 2)
      (wayText c source target) = some (wayText c source target) :=
    if_pos (by omega)
  simp only [jsPathRelative, hp, hq, Option.bind_eq_bind, Option.bind_some, hleft, hright, hups,
    hwrite, hput, hseal]
  split_ifs with hnil
  · have hdot : put ((placeText target).length + (source.length - c) * 3 + 2) [] [46] = some [46] :=
      put_eq (by rw [List.length_nil, List.length_singleton]; omega)
    rw [hnil, hdot, Option.bind_some]
    exact if_pos (by rw [List.length_singleton]; omega)
  · rfl

/-! ## Joining -/

/-- Two texts that a separator is between are split on their own. -/
theorem tokens_touch {buf s : Bytes}
    (h : ¬(buf ≠ [] ∧ buf.getLast?.any pathIsSep = false ∧ s.head?.any pathIsSep = false)) :
    tokens pathIsSep (buf ++ s) = tokens pathIsSep buf ++ tokens pathIsSep s := by
  rcases List.eq_nil_or_concat buf with rfl | ⟨init, last, rfl⟩
  · rw [tokens_nil, List.nil_append, List.nil_append]
  · rw [List.concat_eq_append] at h ⊢
    by_cases hlast : pathIsSep last = true
    · rw [List.append_assoc, List.singleton_append, tokens_append_cons _ _ hlast,
        tokens_append_cons _ _ hlast, tokens_nil, List.append_nil]
    · cases s with
      | nil => rw [tokens_nil, List.append_nil, List.append_nil]
      | cons c s =>
        have hc : pathIsSep c = true := by
          by_contra hc
          refine h ⟨by simp, ?_, Bool.eq_false_iff.2 hc⟩
          rw [List.getLast?_concat]
          exact Bool.eq_false_iff.2 hlast
        rw [tokens_append_cons _ _ hc, tokens_cons hc]

/-- A path is joined to another one inside of the buffer, and their components stay apart. -/
theorem joinTurn_tokens (buf s : Bytes) :
    ∃ rest, joinTurn buf s = some (buf ++ rest) ∧
      tokens pathIsSep (buf ++ rest) = tokens pathIsSep buf ++ tokens pathIsSep s := by
  have hbuf : put (buf.length + s.length + 2) [] buf = some buf :=
    put_eq (by rw [List.length_nil]; omega)
  unfold joinTurn
  simp only [hbuf, Option.bind_eq_bind, Option.bind_some]
  split_ifs with hgap
  · have hsep : put (buf.length + s.length + 2) buf [47] = some (buf ++ [47]) :=
      put_eq (by rw [List.length_singleton]; omega)
    have hput : put (buf.length + s.length + 2) (buf ++ [47]) s = some (buf ++ [47] ++ s) :=
      put_eq (by rw [List.length_append, List.length_singleton]; omega)
    refine ⟨[47] ++ s, ?_, tokens_append_cons _ _ (by decide)⟩
    rw [hsep, Option.bind_some, hput, Option.bind_some, List.append_assoc]
    exact if_pos (by simp; omega)
  · have hput : put (buf.length + s.length + 2) buf s = some (buf ++ s) := put_eq (by omega)
    refine ⟨s, ?_, tokens_touch hgap⟩
    rw [hput, Option.bind_some]
    exact if_pos (by rw [List.length_append]; omega)

theorem joinTurn_nil (s : Bytes) : joinTurn [] s = some s := by
  have hput : put (s.length + 2) [] s = some s := put_eq (by rw [List.length_nil]; omega)
  have hseal : terminate (s.length + 2) s = some s := if_pos (by omega)
  have hturn : joinTurn [] s = (put (0 + s.length + 2) [] s).bind (terminate (0 + s.length + 2)) :=
    rfl
  rw [hturn, Nat.zero_add, hput, Option.bind_some, hseal]

theorem proper_joined (p s : Bytes) (m n : Nat) :
    ∀ x ∈ (follow (follow [] ((pathMoves p).take m)) ((pathMoves s).take n)).reverse,
      Proper x := by
  intro x hx
  rw [← follow_append, pathMoves, pathMoves, ← List.map_take, ← List.map_take, ← List.map_append]
    at hx
  refine proper_follow (fun t ht => ?_) x (List.mem_reverse.1 hx)
  rcases List.mem_append.1 ht with ht | ht
  all_goals
    have hmem := List.mem_of_mem_take ht
    exact ⟨tokens_nonempty hmem, fun c hc => (mem_tokens hmem hc).2⟩

/-- What is joined to a rooted path goes on from where that path leads, as far as the array
reaches. -/
theorem pathJoinStr_pair (p : RootedPath) (s : Bytes) :
    pathJoinStr [p.bytes, s] = some (placeText
      (follow (follow [] ((pathMoves p.bytes).take 256))
        ((pathMoves s).take (256 - (pathMoves p.bytes).length))).reverse) := by
  obtain ⟨rest, hjoin, htokens⟩ := joinTurn_tokens p.bytes s
  have hrooted : (p.bytes ++ rest).head?.any pathIsSep = true := by
    obtain ⟨bytes, hhead⟩ := p
    cases bytes with
    | nil => cases hhead
    | cons c bytes => exact hhead
  have hmoves : pathMoves (p.bytes ++ rest) = pathMoves p.bytes ++ pathMoves s := by
    rw [pathMoves, htokens, List.map_append, pathMoves, pathMoves]
  have hbuf : [p.bytes, s].foldlM joinTurn [] = some (p.bytes ++ rest) := by
    rw [List.foldlM_cons, joinTurn_nil, Option.bind_eq_bind, Option.bind_some, List.foldlM_cons,
      hjoin]
    rfl
  have hnorm := pathNorm_rooted ⟨p.bytes ++ rest, hrooted⟩
  rw [hmoves, List.take_append, follow_append] at hnorm
  rw [pathJoinStr, hbuf]
  exact hnorm

/-! ## The way there -/

theorem tokens_upsText (ups : Nat) (s : Bytes) :
    tokens pathIsSep (upsText ups ++ s) =
      List.replicate ups (ascii "..") ++ tokens pathIsSep s := by
  induction ups with
  | zero => rfl
  | succ ups ih =>
    have hsplit : [46, 46, 47] ++ upsText ups ++ s = ascii ".." ++ 47 :: (upsText ups ++ s) := rfl
    have hdots : ∀ c ∈ ascii "..", pathIsSep c = false :=
      List.forall_mem_cons.2 ⟨rfl, List.forall_mem_singleton.2 rfl⟩
    rw [upsText_succ, hsplit, tokens_append_cons _ _ (by decide), ih,
      tokens_alone (by decide) hdots, List.replicate_succ, List.singleton_append, List.cons_append]

/-- The text of a way stands for its moves. -/
theorem moves_wayText {c : Nat} {source target : List Bytes} (htarget : ∀ x ∈ target, Proper x) :
    pathMoves (wayText c source target) = wayBetween c source target := by
  have hdown : pathMoves (joinNames (target.drop c)) = (target.drop c).map .down :=
    moves_joinNames fun x hx => htarget x (List.mem_of_mem_drop hx)
  have hup : nameMove (ascii "..") = .up := by
    rw [nameMove, if_neg (by decide), if_pos rfl]
  rw [pathMoves, wayText, tokens_upsText, List.map_append, List.map_replicate, hup, wayBetween,
    ← hdown, pathMoves]

/-- Also where it is empty and a dot stands for it. -/
theorem follow_wayText {c : Nat} {source target : List Bytes} (htarget : ∀ x ∈ target, Proper x)
    (place : List Bytes) (k : Nat) :
    follow place ((pathMoves (if wayText c source target = [] then [46]
      else wayText c source target)).take k) =
        follow place ((wayBetween c source target).take k) := by
  rw [← moves_wayText htarget]
  split_ifs with hnil
  · have hdot : pathMoves [46] = [.here] := by
      have htokens : tokens pathIsSep [46] = [[46]] :=
        tokens_alone (List.cons_ne_nil _ _) (List.forall_mem_singleton.2 rfl)
      rw [pathMoves, htokens]
      rfl
    have hempty : pathMoves [] = [] := by
      rw [pathMoves, tokens_nil, List.map_nil]
    rw [hnil, hdot, hempty]
    cases k with
    | zero => rfl
    | succ k => rw [List.take_succ_cons, List.take_nil, List.take_nil]; rfl
  · rfl

/-- Where the components of two paths are in order, the way between them leads from one to the
other if there is room for it. -/
theorem leads_iff {source target : RootedPath} (hsource : LeadsBack source.bytes)
    (htarget : LeadsBack target.bytes) :
    (∃ rel, jsPathRelative source.bytes target.bytes = some rel ∧
      pathJoinStr [source.bytes, rel] = pathNorm target.bytes) ↔
      (wayBetween (sharedLevels (pathPlace source.bytes) (pathPlace target.bytes))
        (pathPlace source.bytes) (pathPlace target.bytes)).length ≤
          256 - (pathMoves source.bytes).length ∨
        pathPlace target.bytes <+: pathPlace source.bytes ∧
          (pathPlace target.bytes).length + (256 - (pathMoves source.bytes).length) =
            (pathPlace source.bytes).length := by
  have hrel := jsPathRelative_places ((resolves_iff source).2 hsource)
    ((resolves_iff target).2 htarget) (proper_pathPlace _) (proper_pathPlace _)
  obtain ⟨hle, hle', hshared⟩ :=
    sharedLevels_spec (pathPlace source.bytes) (pathPlace target.bytes)
  have hfrom : follow [] ((pathMoves source.bytes).take 256) =
      (pathPlace source.bytes).reverse := by
    rw [← hsource.short.1, List.reverse_reverse]
  have hlength : (wayBetween (sharedLevels (pathPlace source.bytes) (pathPlace target.bytes))
      (pathPlace source.bytes) (pathPlace target.bytes)).length =
        (pathPlace source.bytes).length -
            sharedLevels (pathPlace source.bytes) (pathPlace target.bytes) +
          ((pathPlace target.bytes).length -
            sharedLevels (pathPlace source.bytes) (pathPlace target.bytes)) := by
    rw [wayBetween, List.length_append, List.length_replicate, List.length_map, List.length_drop]
  rw [hlength, ← follow_wayBetween_take hle hle' hshared, ← follow_wayText (proper_pathPlace _),
    ← hfrom, ← List.reverse_eq_iff]
  simp only [hrel, Option.some_inj, exists_eq_left', pathJoinStr_pair,
    (resolves_iff target).2 htarget]
  constructor
  · intro h
    exact placeText_inj (proper_joined _ _ _ _) (proper_pathPlace _) h
  · intro h
    rw [h]

theorem LeadsBack.stays {p : Bytes} (h : LeadsBack p) :
    pathNorm (placeText (pathPlace p)) = some (placeText (pathPlace p)) :=
  pathNorm_placeText (proper_pathPlace p) h.short.2

/-- The three functions agree on two rooted paths exactly where the array of `path_norm` holds
what matters of both and the way between them. -/
theorem rootedPaths_agree_iff (source target : RootedPath) :
    PathsAgree source.bytes target.bytes ↔ PathsFit source.bytes target.bytes := by
  constructor
  · intro h
    have hsource := (resolves_iff source).1 h.resolves_source
    have htarget := (resolves_iff target).1 h.resolves_target
    exact ⟨hsource, htarget, (leads_iff hsource htarget).1 h.leads⟩
  · intro h
    exact ⟨(resolves_iff source).2 h.source_back, (resolves_iff target).2 h.target_back,
      h.source_back.stays, h.target_back.stays, (leads_iff h.source_back h.target_back).2 h.room⟩

/-- Of 257 components the last one is dropped. -/
theorem component_dropped :
    ¬ PathsAgree (List.replicate 257 (ascii "/a")).flatten
      (List.replicate 257 (ascii "/a")).flatten := by
  intro h
  have hdropped : pathNorm (List.replicate 257 (ascii "/a")).flatten ≠
      some (placeText (pathPlace (List.replicate 257 (ascii "/a")).flatten)) := by
    decide +kernel
  exact hdropped h.resolves_source

end TinyFramework.Js.Path
