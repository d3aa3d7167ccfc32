/-
  Js/CommonJsRun.lean --- the CommonJS loader loads what it has to.

  A safe `require` resolves as it should.  From there a step of the loader is a step of its
  purpose: the frames of the loader are the files that are being evaluated, with the main
  program at the bottom, and the cache has those files and the loaded ones.  Each load takes a
  file that had no entry, so there are no more loads than files, and the main program ends.
-/
import TinyFramework.Js.CommonJs
import Mathlib.Logic.Function.Iterate

set_option autoImplicit false

namespace TinyFramework.Js

open TinyFramework.Foundation

variable {V : Type} {h : LoaderHost V}

/-! ## Paths -/

theorem normalizeStep_eq_cleanStep {absolute : Bool} {out : List PathText} {s : PathText}
    (hsafe : s = dotdot → (∀ x ∈ out.head?, x ≠ dotdot) ∧ (out = [] → absolute = false)) :
    normalizeStep out s = cleanStep absolute out s := by
  unfold normalizeStep cleanStep
  by_cases hskip : s = [] ∨ s = dot
  · rw [if_pos hskip, if_pos hskip]
  rw [if_neg hskip, if_neg hskip]
  by_cases hup : s = dotdot
  · rw [if_pos hup, if_pos hup]
    obtain ⟨hkept, habs⟩ := hsafe hup
    cases out with
    | nil =>
        rw [habs rfl]
        exact if_neg (not_not_intro rfl)
    | cons x xs =>
        rw [if_pos (List.cons_ne_nil _ _)]
        exact (if_neg (hkept x rfl)).symm
  · rw [if_neg hup, if_neg hup]

theorem foldl_normalizeStep {absolute : Bool} (segs : List PathText) {out : List PathText}
    (hsafe : SafeDots absolute out segs) :
    segs.foldl normalizeStep out = segs.foldl (cleanStep absolute) out := by
  induction segs generalizing out with
  | nil => rfl
  | cons s segs ih =>
      rw [List.foldl_cons, List.foldl_cons, ← normalizeStep_eq_cleanStep hsafe.1]
      exact ih hsafe.2

theorem normalize_eq_cleanPath {p : PathText} (hsafe : SafePath p) :
    normalize p = cleanPath p := by
  unfold normalize cleanPath
  rw [foldl_normalizeStep _ hsafe]

/-! ## Resolution -/

theorem firstText_eq_firstModule {then_ : Prop} {cands : List PathText}
    (hsafe : SafeCands h then_ cands) :
    firstText h cands = firstModule h cands ∧ (firstText h cands = none → then_) := by
  induction cands with
  | nil => exact ⟨rfl, fun _ => hsafe⟩
  | cons f cands ih =>
      unfold SafeCands at hsafe
      unfold firstText firstModule
      rw [List.findSome?_cons, List.findSome?_cons]
      cases hread : h.readFile f with
      | none =>
          rw [hread] at hsafe
          have hempty : readFile h f = [] := by rw [readFile, hread, Option.getD_none]
          rw [if_neg (not_not_intro hempty), Option.map_none, ite_self]
          exact ih hsafe
      | some src =>
          rw [hread] at hsafe
          obtain ⟨htext, hmodule⟩ := hsafe
          have hsrc : readFile h f = src := by rw [readFile, hread, Option.getD_some]
          rw [hsrc, if_pos htext, hmodule]
          exact ⟨rfl, nofun⟩

theorem resolveAs_eq_resolveModule {by_ : Option PathText} {id : PathText}
    (hsafe : SafeRequire h by_ id) (hown : h.mods (withoutNode id) = none) :
    resolveAs h (dirname (by_.getD h.cwd)) id = resolveModule h by_ id := by
  obtain ⟨hbase, hpath, hcands⟩ := hsafe.2 hown
  have hp : (if isAbs id then normalize id else normalize (join (dirname (by_.getD h.cwd)) id)) =
      cleanPath (pathOf h by_ id) := by
    rw [← normalize_eq_cleanPath hpath, ← apply_ite normalize]
    unfold pathOf
    cases habs : isAbs id with
    | true => rfl
    | false =>
        cases by_ with
        | none =>
            rw [Option.getD_none, hbase rfl habs]
            rfl
        | some file => rfl
  unfold resolveAs resolveModule
  dsimp only
  rw [hp]
  generalize cleanPath (pathOf h by_ id) = p at hcands
  obtain ⟨hfirst, hthen⟩ := firstText_eq_firstModule hcands
  rw [← hfirst]
  unfold firstText at hthen ⊢
  rw [List.findSome?_append]
  cases hsome : (moduleCands p).findSome? fun f =>
      if readFile h f ≠ [] then some (f, readFile h f) else none with
  | some r => rfl
  | none =>
      have hempty : readFile h (p ++ packageJson) = [] := hthen hsome
      have hlast : [p ++ packageJson].findSome? (fun f =>
          if readFile h f ≠ [] then some (f, readFile h f) else none) = none := by
        rw [List.findSome?_cons, if_neg (not_not_intro hempty)]
        rfl
      rw [hlast]
      dsimp only [Option.or]
      rw [if_neg (not_not_intro hempty)]
      unfold readFile at hempty
      cases hread : h.readFile (p ++ packageJson) with
      | none => rfl
      | some ps =>
          rw [hread, Option.getD_some] at hempty
          exact (if_pos hempty).symm

theorem modsLookup_eq_mods {by_ : Option PathText} {id : PathText}
    (hsafe : SafeRequire h by_ id) : modsLookup h id = h.mods (withoutNode id) := by
  unfold modsLookup
  cases hown : h.mods (withoutNode id) with
  | some v => rfl
  | none =>
      rw [hsafe.1 hown]
      rfl

/-! ## The frames -/

/-- The files of what runs and of what waits. -/
def LoaderState.frames (s : LoaderState V) : List (Option PathText) :=
  (s.current.map Prod.fst).toList ++ s.waiting.map Prod.fst

@[simp] theorem frames_answer (s : LoaderState V) (a : Option V) :
    (s.answer a).frames = s.waiting.map Prod.fst := by
  unfold LoaderState.answer
  cases hwaiting : s.waiting with
  | nil => rfl
  | cons f waiting => rfl

@[simp] theorem exports_answer (s : LoaderState V) (a : Option V) (file : PathText) :
    (s.answer a).exports file = s.exports file := by
  unfold LoaderState.answer
  split <;> rfl

@[simp] theorem log_answer (s : LoaderState V) (a : Option V) : (s.answer a).log = s.log := by
  unfold LoaderState.answer
  split <;> rfl

theorem lookup_setExports (cache : List (PathText × V)) (file g : PathText) (v : V) :
    (setExports cache file v).lookup g =
      if g = file then (cache.lookup g).map fun _ => v else cache.lookup g := by
  induction cache with
  | nil => split <;> rfl
  | cons e cache ih =>
      obtain ⟨k, w⟩ := e
      rw [setExports, List.map_cons, ← setExports]
      dsimp only
      by_cases hk : k = file
      · rw [if_pos hk, List.lookup_cons, List.lookup_cons, ih, hk]
        by_cases hg : g = file
        · rw [hg, beq_self_eq_true, if_pos rfl, if_pos rfl]
          rfl
        · rw [beq_eq_false_iff_ne.2 hg, if_neg hg]
      · rw [if_neg hk, List.lookup_cons, List.lookup_cons, ih]
        cases hgk : g == k with
        | false => rfl
        | true =>
            have hg : g ≠ file := by
              rw [beq_iff_eq.1 hgk]
              exact hk
            exact (if_neg hg).symm

/-! ## The simulation -/

section Simulation

variable [DecidableEq V]

/-- The frames are those of the files that are being evaluated, above the main program until it
ends; the cache has their entries and the loaded ones, and the latter stay as they are. -/
structure Loads (h : LoaderHost V) (s : LoaderState V) (spec : LoadSpec V) : Prop where
  log : loadSpec h s.log = some spec
  frames : s.frames = spec.evaluating.map some ++ [none] ∨ s.frames = [] ∧ spec.evaluating = []
  keys : ∀ file, (s.exports file).isSome ↔
    file ∈ spec.evaluating ∨ (spec.loaded.lookup file).isSome
  values : ∀ file v, spec.loaded.lookup file = some v → s.exports file = some v
  apart : ∀ file ∈ spec.evaluating, spec.loaded.lookup file = none
  nodup : spec.evaluating.Nodup

theorem Loads.right {s : LoaderState V} {spec : LoadSpec V} (hl : Loads h s spec) :
    LoadsRight h s := ⟨spec, hl.log, hl.keys⟩

theorem loadSpec_cons {older : List (LoadEntry V)} {spec : LoadSpec V}
    (hlog : loadSpec h older = some spec) (e : LoadEntry V) :
    loadSpec h (e :: older) = spec.step h e := by
  rw [loadSpec, hlog, Option.bind_some]

/-- What runs is the main program when no file is being evaluated, and else the innermost. -/
theorem Loads.current {s : LoaderState V} {spec : LoadSpec V} (hl : Loads h s spec)
    {by_ : Option PathText} {script : ModuleScript V} (hcurrent : s.current = some (by_, script)) :
    (by_ = none ∧ spec.evaluating = [] ∧ s.waiting.map Prod.fst = []) ∨
      ∃ file evaluating, by_ = some file ∧ spec.evaluating = file :: evaluating ∧
        s.waiting.map Prod.fst = evaluating.map some ++ [none] := by
  have hframes := hl.frames
  unfold LoaderState.frames at hframes
  rw [hcurrent, Option.map_some, Option.toList_some, List.singleton_append] at hframes
  rcases hframes with hframes | ⟨hnil, _⟩
  · cases heval : spec.evaluating with
    | nil =>
        rw [heval] at hframes
        obtain ⟨hby, hwaiting⟩ := List.cons.inj hframes
        exact .inl ⟨hby, rfl, hwaiting⟩
    | cons file evaluating =>
        rw [heval] at hframes
        obtain ⟨hby, hwaiting⟩ := List.cons.inj hframes
        exact .inr ⟨file, evaluating, hby, rfl, hwaiting⟩
  · cases hnil

theorem Loads.by_eq_head {s : LoaderState V} {spec : LoadSpec V} (hl : Loads h s spec)
    {by_ : Option PathText} {script : ModuleScript V} (hcurrent : s.current = some (by_, script)) :
    by_ = spec.evaluating.head? := by
  rcases hl.current hcurrent with ⟨hby, heval, _⟩ | ⟨file, evaluating, hby, heval, _⟩
  · rw [hby, heval]
    rfl
  · rw [hby, heval]
    rfl

/-- What runs goes on, with one more entry in the log or none. -/
theorem Loads.goOn {s s' : LoaderState V} {spec : LoadSpec V} (hl : Loads h s spec)
    (hlog : loadSpec h s'.log = some spec) (hframes : s'.frames = s.frames)
    (hcache : s'.cache = s.cache) : Loads h s' spec := by
  have hexports : ∀ file, s'.exports file = s.exports file := by
    intro file
    rw [LoaderState.exports, hcache]
    rfl
  refine ⟨hlog, ?_, ?_, ?_, hl.apart, hl.nodup⟩
  · rw [hframes]
    exact hl.frames
  · intro file
    rw [hexports]
    exact hl.keys file
  · intro file v hloaded
    rw [hexports]
    exact hl.values file v hloaded

/-- The main program ends. -/
theorem Loads.mainEnds {s : LoaderState V} {spec : LoadSpec V} (hl : Loads h s spec)
    {script : ModuleScript V} (hcurrent : s.current = some (none, script)) (a : Option V) :
    Loads h (s.answer a) spec := by
  rcases hl.current hcurrent with ⟨_, heval, hwaiting⟩ | ⟨_, _, hby, _⟩
  · refine ⟨?_, .inr ⟨?_, heval⟩, ?_, ?_, hl.apart, hl.nodup⟩
    · rw [log_answer]
      exact hl.log
    · rw [frames_answer, hwaiting]
    · intro file
      rw [exports_answer]
      exact hl.keys file
    · intro file v hloaded
      rw [exports_answer]
      exact hl.values file v hloaded
  · cases hby

/-- A module ends, and its exports are final. -/
theorem Loads.moduleEnds {s : LoaderState V} {spec : LoadSpec V} (hl : Loads h s spec)
    {file : PathText} {script : ModuleScript V} (hcurrent : s.current = some (some file, script)) :
    ∃ v spec', s.exports file = some v ∧
      Loads h (LoaderState.answer { s with log := .finish file v :: s.log } (some v)) spec' := by
  rcases hl.current hcurrent with ⟨hby, _⟩ | ⟨_, evaluating, hby, heval, hwaiting⟩
  · cases hby
  cases hby
  obtain ⟨v, hv⟩ : ∃ v, s.exports file = some v := by
    rw [← Option.isSome_iff_exists, hl.keys, heval]
    exact .inl List.mem_cons_self
  have hnodup := hl.nodup
  rw [heval, List.nodup_cons] at hnodup
  refine ⟨v, { evaluating := evaluating, loaded := (file, v) :: spec.loaded }, hv,
    ?_, .inl ?_, ?_, ?_, ?_, hnodup.2⟩
  · rw [log_answer, loadSpec_cons hl.log, LoadSpec.step, heval]
    exact if_pos rfl
  · rw [frames_answer]
    exact hwaiting
  · intro g
    rw [exports_answer, List.lookup_cons]
    refine (hl.keys g).trans ?_
    rw [heval, List.mem_cons]
    cases hg : g == file with
    | true => exact iff_of_true (.inl (.inl (beq_iff_eq.1 hg))) (.inr rfl)
    | false =>
        rw [or_iff_right (beq_eq_false_iff_ne.1 hg)]
  · intro g w hloaded
    rw [exports_answer]
    rw [List.lookup_cons] at hloaded
    cases hg : g == file with
    | true =>
        rw [hg] at hloaded
        cases hloaded
        rw [beq_iff_eq.1 hg]
        exact hv
    | false =>
        rw [hg] at hloaded
        exact hl.values g w hloaded
  · intro g hg
    have hne : (g == file) = false := beq_eq_false_iff_ne.2 (ne_of_mem_of_not_mem hg hnodup.1)
    rw [List.lookup_cons, hne]
    apply hl.apart g
    rw [heval]
    exact List.mem_cons_of_mem _ hg

/-- A module that is being evaluated sets its exports. -/
theorem Loads.assign {s : LoaderState V} {spec : LoadSpec V} (hl : Loads h s spec)
    {file : PathText} {script next : ModuleScript V} {v : V}
    (hcurrent : s.current = some (some file, script)) :
    Loads h { s with cache := setExports s.cache file v, current := some (some file, next) }
      spec := by
  have hmem : file ∈ spec.evaluating := by
    apply List.mem_of_mem_head?
    rw [← hl.by_eq_head hcurrent]
    exact rfl
  refine ⟨hl.log, ?_, ?_, ?_, hl.apart, hl.nodup⟩
  · have hframes := hl.frames
    rw [LoaderState.frames, hcurrent] at hframes
    exact hframes
  · intro g
    rw [← hl.keys, LoaderState.exports, lookup_setExports]
    split
    · rw [Option.isSome_map]
      rfl
    · rfl
  · intro g w hloaded
    have hne : g ≠ file := by
      rintro rfl
      rw [hl.apart g hmem] at hloaded
      cases hloaded
    rw [LoaderState.exports, lookup_setExports, if_neg hne]
    exact hl.values g w hloaded

/-- A safe `require`. -/
theorem Loads.require {s : LoaderState V} {spec : LoadSpec V} (hl : Loads h s spec)
    {by_ : Option PathText} {id : PathText} {next : Option V → ModuleScript V}
    (hcurrent : s.current = some (by_, .require id next)) (hsafe : SafeRequire h by_ id) :
    ∃ spec', Loads h (requireImpl h s by_ id next) spec' := by
  have hby := hl.by_eq_head hcurrent
  have hframes : ∀ script : ModuleScript V,
      ((some (by_, script)).map Prod.fst).toList ++ s.waiting.map Prod.fst = s.frames := by
    intro script
    rw [LoaderState.frames, hcurrent]
    rfl
  unfold requireImpl
  rw [modsLookup_eq_mods hsafe]
  cases hown : h.mods (withoutNode id) with
  | some v =>
      refine ⟨spec, hl.goOn ?_ (hframes _) rfl⟩
      rw [loadSpec_cons hl.log, LoadSpec.step, isBuiltin, hown]
      exact if_pos rfl
  | none =>
      have hforeign : ¬ isBuiltin h id = true := by
        rw [isBuiltin, hown]
        exact Bool.false_ne_true
      rw [resolveAs_eq_resolveModule hsafe hown]
      cases hresolve : resolveModule h by_ id with
      | none =>
          refine ⟨spec, hl.goOn ?_ (hframes _) rfl⟩
          rw [loadSpec_cons hl.log, LoadSpec.step]
          exact if_pos ⟨hforeign, hby, hresolve⟩
      | some r =>
          obtain ⟨file, src⟩ := r
          dsimp only
          cases hentry : s.exports file with
          | some v =>
              refine ⟨spec, hl.goOn ?_ (hframes _) rfl⟩
              rw [loadSpec_cons hl.log, LoadSpec.step, hresolve]
              refine if_pos ⟨⟨hforeign, hby⟩, rfl, ?_⟩
              rcases (hl.keys file).1 (by rw [hentry]; rfl) with heval | hloaded
              · exact .inr heval
              · obtain ⟨w, hw⟩ := Option.isSome_iff_exists.1 hloaded
                have hwv : some w = some v := (hl.values file w hw).symm.trans hentry
                exact .inl (hw.trans hwv)
          | none =>
              have hnew : ¬ (file ∈ spec.evaluating ∨ (spec.loaded.lookup file).isSome) := by
                rw [← hl.keys, hentry]
                exact Bool.false_ne_true
              obtain ⟨hidle, hunloaded⟩ := not_or.1 hnew
              rw [Option.not_isSome_iff_eq_none] at hunloaded
              refine ⟨{ spec with evaluating := file :: spec.evaluating },
                ?_, .inl ?_, ?_, ?_, ?_, List.nodup_cons.2 ⟨hidle, hl.nodup⟩⟩
              · rw [loadSpec_cons hl.log, LoadSpec.step]
                exact if_pos ⟨⟨hforeign, hby⟩, hresolve, hunloaded, hidle⟩
              · rcases hl.frames with hfr | ⟨hfr, _⟩
                · change some file :: by_ :: s.waiting.map Prod.fst = _
                  rw [show by_ :: s.waiting.map Prod.fst = s.frames from hframes .done, hfr]
                  rfl
                · rw [LoaderState.frames, hcurrent] at hfr
                  cases hfr
              · intro g
                rw [LoaderState.exports, List.lookup_cons, List.mem_cons]
                cases hg : g == file with
                | true => exact iff_of_true rfl (.inl (.inl (beq_iff_eq.1 hg)))
                | false =>
                    rw [or_iff_right (beq_eq_false_iff_ne.1 hg)]
                    exact hl.keys g
              · intro g w hloaded
                have hne : (g == file) = false := by
                  rw [beq_eq_false_iff_ne]
                  rintro rfl
                  rw [hunloaded] at hloaded
                  cases hloaded
                rw [LoaderState.exports, List.lookup_cons, hne]
                exact hl.values g w hloaded
              · intro g hg
                rcases List.mem_cons.1 hg with rfl | hg
                · exact hunloaded
                · exact hl.apart g hg

theorem Loads.step {s : LoaderState V} {spec : LoadSpec V} (hl : Loads h s spec)
    (hsafe : SafeLoad h s) : ∃ spec', Loads h (s.step h) spec' := by
  unfold LoaderState.step
  cases hcurrent : s.current with
  | none => exact ⟨spec, hl⟩
  | some r =>
      obtain ⟨by_, script⟩ := r
      unfold SafeLoad at hsafe
      rw [hcurrent] at hsafe
      cases script with
      | done =>
          cases by_ with
          | none => exact ⟨spec, hl.mainEnds hcurrent none⟩
          | some file =>
              obtain ⟨v, spec', hv, hends⟩ := hl.moduleEnds hcurrent
              dsimp only
              rw [hv]
              exact ⟨spec', hends⟩
      | throws =>
          cases by_ with
          | none => exact ⟨spec, hl.mainEnds hcurrent none⟩
          | some file => exact hsafe.elim
      | assign v next =>
          cases by_ with
          | none =>
              refine ⟨spec, hl.goOn hl.log ?_ rfl⟩
              unfold LoaderState.frames
              rw [hcurrent]
              rfl
          | some file => exact ⟨spec, hl.assign hcurrent⟩
      | require id next =>
          cases by_ with
          | none => exact hl.require hcurrent hsafe
          | some file => exact hl.require hcurrent hsafe

theorem loads_run (main : ModuleScript V) (n : Nat)
    (hsafe : ∀ k < n, SafeLoad h (loaderRun h main k)) :
    ∃ spec, Loads h (loaderRun h main n) spec := by
  induction n with
  | zero =>
      refine ⟨{}, rfl, .inl rfl, ?_, nofun, nofun, List.nodup_nil⟩
      intro file
      exact iff_of_false nofun (not_or.2 ⟨List.not_mem_nil, nofun⟩)
  | succ n ih =>
      obtain ⟨spec, hl⟩ := ih fun k hk => hsafe k (Nat.lt_succ_of_lt hk)
      exact hl.step (hsafe n (Nat.lt_succ_self n))

end Simulation

/-! ## The end of the main program -/

/-- The files without an entry. -/
def uncached (h : LoaderHost V) (cache : List (PathText × V)) : List PathText :=
  (h.files.map Prod.fst).filter fun f => (cache.lookup f).isNone

theorem uncached_setExports (cache : List (PathText × V)) (file : PathText) (v : V) :
    uncached h (setExports cache file v) = uncached h cache := by
  unfold uncached
  congr 1
  funext g
  rw [lookup_setExports]
  split
  · rw [Option.isNone_map]
  · rfl

theorem length_uncached_cons_lt {cache : List (PathText × V)} {file : PathText} (v : V)
    (hfile : file ∈ h.files.map Prod.fst) (hnew : cache.lookup file = none) :
    (uncached h ((file, v) :: cache)).length < (uncached h cache).length := by
  have hsub : uncached h ((file, v) :: cache) = (uncached h cache).filter (· ≠ file) := by
    unfold uncached
    rw [List.filter_filter]
    congr 1
    funext g
    rw [List.lookup_cons]
    cases hg : g == file with
    | true =>
        rw [beq_iff_eq.1 hg]
        simp
    | false =>
        have hne : g ≠ file := beq_eq_false_iff_ne.1 hg
        simp [hne]
  rw [hsub]
  refine List.length_filter_lt_length_iff_exists.2 ⟨file, ?_, ?_⟩
  · rw [uncached, List.mem_filter, hnew]
    exact ⟨hfile, rfl⟩
  · simp

theorem mem_files_of_firstText {cands : List PathText} {file src : PathText}
    (hfirst : firstText h cands = some (file, src)) : file ∈ h.files.map Prod.fst := by
  obtain ⟨f, _, hf⟩ := List.exists_of_findSome?_eq_some hfirst
  rw [Option.ite_none_right_eq_some] at hf
  obtain ⟨htext, hpair⟩ := hf
  cases hpair
  by_contra hmem
  apply htext
  have hnone : h.files.lookup file = none := by
    rw [List.lookup_eq_none_iff]
    intro p hp
    rw [bne_iff_ne]
    rintro rfl
    exact hmem (List.mem_map_of_mem hp)
  rw [readFile, LoaderHost.readFile, hnone]
  rfl

theorem mem_files_of_resolveAs {base id file src : PathText}
    (hresolve : resolveAs h base id = some (file, src)) : file ∈ h.files.map Prod.fst := by
  unfold resolveAs at hresolve
  dsimp only at hresolve
  generalize (if isAbs id then normalize id else normalize (join base id)) = p at hresolve
  split at hresolve
  · next r hfirst =>
    cases hresolve
    exact mem_files_of_firstText hfirst
  · obtain ⟨_, hmain⟩ := Option.ite_none_right_eq_some.1 hresolve
    obtain ⟨m, _, hfirst⟩ := Option.bind_eq_some_iff.1 hmain
    exact mem_files_of_firstText hfirst

/-- After some steps what waits has its answer, and no file has lost its entry. -/
def Answers (h : LoaderHost V) (s : LoaderState V) : Prop :=
  ∃ (n : Nat) (t : LoaderState V) (a : Option V),
    (LoaderState.step h)^[n] s = t.answer a ∧ t.waiting = s.waiting ∧
    (uncached h t.cache).length ≤ (uncached h s.cache).length

/-- A step that keeps what waits and the files without an entry. -/
theorem Answers.of_step {s t : LoaderState V} (hstep : s.step h = t)
    (hwaiting : t.waiting = s.waiting) (hcache : uncached h t.cache = uncached h s.cache)
    (ha : Answers h t) : Answers h s := by
  obtain ⟨n, u, a, hrun, hback, hle⟩ := ha
  refine ⟨n + 1, u, a, ?_, hback.trans hwaiting, hcache ▸ hle⟩
  rw [Function.iterate_succ_apply, hstep]
  exact hrun

/-- A step that begins a module: the module ends first, and then what requires it. -/
theorem Answers.of_call {s : LoaderState V} {by_ : Option PathText}
    {next : Option V → ModuleScript V} (hpush : (s.step h).waiting = (by_, next) :: s.waiting)
    (hcache : (uncached h (s.step h).cache).length ≤ (uncached h s.cache).length)
    (hcallee : Answers h (s.step h))
    (hrest : ∀ t a, t.current = some (by_, next a) →
      (uncached h t.cache).length ≤ (uncached h (s.step h).cache).length → Answers h t) :
    Answers h s := by
  obtain ⟨n, t, a, hrun, hback, hle⟩ := hcallee
  have hanswer : t.answer a =
      { t with current := some (by_, next a), waiting := s.waiting } := by
    rw [LoaderState.answer, hback, hpush]
  obtain ⟨m, t', a', hrun', hback', hle'⟩ :=
    hrest (t.answer a) a (by rw [hanswer]) (by rw [hanswer]; exact hle)
  rw [hanswer] at hback' hle'
  refine ⟨m + (n + 1), t', a', ?_, hback', Nat.le_trans (Nat.le_trans hle' hle) hcache⟩
  rw [Function.iterate_add_apply, Function.iterate_succ_apply, hrun]
  exact hrun'

theorem answers_of_step_eq {s t : LoaderState V} {a : Option V} (hstep : s.step h = t.answer a)
    (hwaiting : t.waiting = s.waiting) (hcache : t.cache = s.cache) : Answers h s := by
  exact ⟨1, t, a, hstep, hwaiting, Nat.le_of_eq (congrArg (fun c => (uncached h c).length) hcache)⟩

theorem answers_of_done {s : LoaderState V} {by_ : Option PathText}
    (hcurrent : s.current = some (by_, .done)) : Answers h s := by
  cases by_ with
  | none =>
      refine answers_of_step_eq (s := s) (t := s) (a := none) ?_ rfl rfl
      rw [LoaderState.step, hcurrent]
  | some file =>
      cases hv : s.exports file with
      | none =>
          refine answers_of_step_eq (s := s) (t := s) (a := none) ?_ rfl rfl
          rw [LoaderState.step, hcurrent]
          dsimp only
          rw [hv]
      | some v =>
          refine answers_of_step_eq (s := s) (t := { s with log := .finish file v :: s.log })
            (a := some v) ?_ rfl rfl
          rw [LoaderState.step, hcurrent]
          dsimp only
          rw [hv]

theorem answers_of_throws {s : LoaderState V} {by_ : Option PathText}
    (hcurrent : s.current = some (by_, .throws)) : Answers h s := by
  cases by_ with
  | none =>
      refine answers_of_step_eq (s := s) (t := s) (a := none) ?_ rfl rfl
      rw [LoaderState.step, hcurrent]
  | some file =>
      refine answers_of_step_eq (s := s) (t := { s with log := .fail file :: s.log }) (a := none) ?_
        rfl rfl
      rw [LoaderState.step, hcurrent]

/-- What runs ends: a load leaves fewer files without an entry, and everything else goes on
with a part of the script. -/
theorem answers_of_current (k : Nat) (script : ModuleScript V) :
    ∀ (s : LoaderState V) (by_ : Option PathText), s.current = some (by_, script) →
      (uncached h s.cache).length = k → Answers h s := by
  induction k using Nat.strongRecOn generalizing script with
  | _ k ihk =>
  induction script with
  | done => exact fun s by_ hcurrent _ => answers_of_done hcurrent
  | throws => exact fun s by_ hcurrent _ => answers_of_throws hcurrent
  | assign v next ih =>
      intro s by_ hcurrent hk
      cases by_ with
      | none =>
          have hstep : s.step h = { s with current := some (none, next) } := by
            rw [LoaderState.step, hcurrent]
          exact .of_step hstep rfl rfl (ih _ none rfl hk)
      | some file =>
          have hstep : s.step h = { s with
              cache := setExports s.cache file v, current := some (some file, next) } := by
            rw [LoaderState.step, hcurrent]
          have hsame := uncached_setExports (h := h) s.cache file v
          exact .of_step hstep rfl hsame (ih _ (some file) rfl (by rw [hsame, hk]))
  | require id next ih =>
      intro s by_ hcurrent hk
      have hstep : s.step h = requireImpl h s by_ id next := by
        rw [LoaderState.step, hcurrent]
        cases by_ <;> rfl
      have hgoOn : ∀ a log, s.step h = { s with current := some (by_, next a), log := log } →
          Answers h s :=
        fun a log heq => .of_step heq rfl rfl (ih a _ by_ rfl hk)
      unfold requireImpl at hstep
      split at hstep
      · exact hgoOn _ _ hstep
      split at hstep
      · exact hgoOn _ _ hstep
      · next file src hresolve =>
        split at hstep
        · exact hgoOn _ _ hstep
        · next hnew =>
          have hfewer := length_uncached_cons_lt (h.fresh s.evals)
            (mem_files_of_resolveAs hresolve) hnew
          have hcallee : Answers h (s.step h) :=
            ihk _ (hk ▸ hfewer) (h.program s.evals file src) (s.step h) (some file)
              (by rw [hstep]) (by rw [hstep])
          refine .of_call (by rw [hstep]) (by rw [hstep]; exact Nat.le_of_lt hfewer) hcallee
            fun t a hcurrent hle => ihk _ ?_ (next a) t by_ hcurrent rfl
          rw [hstep] at hle
          exact hk ▸ Nat.lt_of_le_of_lt hle hfewer

theorem loaderRun_eq_iterate (main : ModuleScript V) (n : Nat) :
    loaderRun h main n = (LoaderState.step h)^[n] (loaderRun h main 0) := by
  induction n with
  | zero => rfl
  | succ n ih =>
      rw [Function.iterate_succ_apply', ← ih]
      rfl

theorem loaderRun_ends (main : ModuleScript V) : ∃ n, (loaderRun h main n).current = none := by
  obtain ⟨n, t, a, hrun, hwaiting, _⟩ :=
    answers_of_current _ main (loaderRun h main 0) none rfl rfl
  refine ⟨n, ?_⟩
  rw [loaderRun_eq_iterate, hrun, LoaderState.answer, hwaiting]
  rfl

/-! ## Runs of the loader -/

/-- The main program ends, and while every step is safe what is loaded is what has to be. -/
theorem loaderRun_right [DecidableEq V] (host : LoaderHost V) (main : ModuleScript V) :
    (∃ n, (loaderRun host main n).current = none) ∧
      ∀ n, (∀ k < n, SafeLoad host (loaderRun host main k)) →
        LoadsRight host (loaderRun host main n) := by
  refine ⟨loaderRun_ends main, ?_⟩
  intro n hsafe
  obtain ⟨spec, hl⟩ := loads_run main n hsafe
  exact hl.right

/-- Two files that require each other. -/
def cyclicHost : LoaderHost Nat where
  files := [("/a.js".toList, "a".toList), ("/b.js".toList, "b".toList)]
  cwd := "/".toList
  mods := fun _ => none
  inherited := fun _ => none
  mainOf := fun _ => none
  fresh := fun _ => 0
  program := fun _ _ src =>
    if src = "a".toList then .require "./b".toList fun _ => .assign 1 .done
    else .require "./a".toList fun _ => .assign 2 .done

def cyclicMain : ModuleScript Nat := .require "/a".toList fun _ => .done

theorem loaderRun_right_cyclic :
    LoadsRight cyclicHost (loaderRun cyclicHost cyclicMain 8) ∧
      ((loaderRun cyclicHost cyclicMain 8).exports "/a.js".toList = some 1 ∧
        (loaderRun cyclicHost cyclicMain 8).exports "/b.js".toList = some 2) := by
  refine ⟨(loaderRun_right cyclicHost cyclicMain).2 8 ?_, rfl, rfl⟩
  intro k hk
  match k, hk with
  | 0, _ => exact ⟨fun _ => rfl, fun _ => ⟨fun _ _ => rfl, ⟨nofun, nofun, trivial⟩, nofun, rfl⟩⟩
  | 1, _ =>
      exact ⟨fun _ => rfl, fun _ => ⟨nofun, ⟨nofun, nofun, nofun, trivial⟩, nofun, rfl⟩⟩
  | 2, _ =>
      exact ⟨fun _ => rfl, fun _ => ⟨nofun, ⟨nofun, nofun, nofun, trivial⟩, nofun, rfl⟩⟩
  | 3, _ => trivial
  | 4, _ => trivial
  | 5, _ => trivial
  | 6, _ => trivial
  | 7, _ => trivial

/-- A file beside the main program. -/
def siblingHost : LoaderHost Nat where
  files := [("/app/a.js".toList, "a".toList)]
  cwd := "/app".toList
  mods := fun _ => none
  inherited := fun _ => none
  mainOf := fun _ => none
  fresh := fun _ => 0
  program := fun _ _ _ => .done

/-- The main program looks for `./a` in the parent of its current directory. -/
theorem loaderRun_wrong_sibling :
    ¬ LoadsRight siblingHost
      (loaderRun siblingHost (.require "./a".toList fun _ => .done) 1) := by
  rintro ⟨spec, hlog, _⟩
  have hnone : loadSpec siblingHost
      (loaderRun siblingHost (.require "./a".toList fun _ => .done) 1).log = none := rfl
  rw [hnone] at hlog
  cases hlog

end TinyFramework.Js
