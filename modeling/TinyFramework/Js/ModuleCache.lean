/-
  Js/ModuleCache.lean --- the bytecode cache in front of the module loader.

  A cache file is found by a hash of the module's name, before any source is looked at, and
  it outlives the engine.  What it holds is the module of the text that was current when it
  was written.
-/
import Mathlib.Data.List.Infix
import TinyFramework.Foundation.Ascii

set_option autoImplicit false

namespace TinyFramework.Js

open TinyFramework.Foundation

/-! ## The engine and the disk -/

/-- What the loader uses of QuickJS: compiling a text under a name, and bytecode. -/
structure ModuleEngine (Module : Type) where
  compile : Bytes → Bytes → Option Module
  writeObject : Module → Bytes
  readObject : Bytes → Option Module

/-- `JS_ReadObject` undoes `JS_WriteObject`. -/
def ModuleEngine.ReadsBack {Module : Type} (e : ModuleEngine Module) : Prop :=
  ∀ m, e.readObject (e.writeObject m) = some m

/-- A module and the name in its `import.meta`. -/
structure LoadedModule (Module : Type) where
  code : Module
  importMeta : Bytes

/-- The two hashes that make up the name of a cache file. -/
abbrev QjcName := UInt64 × UInt64

/-- `get_qjc_path`, without the directory and the hexadecimal digits. -/
def getQjcPath (moduleName : Bytes) : QjcName :=
  moduleName.foldl
    (fun h p => ((h.1 ^^^ p.toUInt64) * 0x100000001b3, (h.2 + p.toUInt64) * 0xcbf29ce484222325))
    (0xcbf29ce484222325, 0x100000001b3)

/-- The files, what `mini_net_fetch` gets for a name, and the cache files. -/
structure Sources where
  files : Bytes → Option Bytes
  responses : Bytes → Option Bytes
  cache : QjcName → Option Bytes := fun _ => none
  /-- The name and the text that a cache file was compiled from. -/
  written : QjcName → Option (Bytes × Bytes) := fun _ => none

/-! ## The loader -/

/-- The path of a module in the file system. -/
def modulePath (moduleName : Bytes) : Bytes :=
  if ascii "file:///" <+: moduleName then moduleName.drop 8
  else if ascii "file://" <+: moduleName then moduleName.drop 7
  else moduleName

/-- A name that is looked for in the file system. -/
def isLocalName (moduleName : Bytes) : Bool :=
  !decide (ascii "://" <:+: moduleName) || decide (ascii "file://" <+: moduleName)

namespace Sources

variable (w : Sources) (moduleName : Bytes)

/-- The file of a module, if it is looked for and there. -/
def localFile : Option Bytes :=
  if isLocalName moduleName then w.files (modulePath moduleName) else none

/-- The text that the loader compiles: a file that is not empty, else the response. -/
def sourceText : Option Bytes :=
  match w.localFile moduleName with
  | some (c :: text) => some (c :: text)
  | _ => w.responses moduleName

/-- The content of the file or the response at present. -/
def content : Option Bytes := w.localFile moduleName <|> w.responses moduleName

end Sources

section Loader

variable {Module : Type} (e : ModuleEngine Module)

/-- The module that a cache file gives. -/
def readCached (w : Sources) (moduleName : Bytes) : Option Module :=
  ((w.cache (getQjcPath moduleName)).filter (· ≠ [])).bind e.readObject

/-- The bytecode is saved if there is any and the cache file can be opened. -/
def saveCompiled (w : Sources) (moduleName text : Bytes) (m : Module) (canOpen : Bool) : Sources :=
  let bc := e.writeObject m
  if bc ≠ [] ∧ canOpen then
    { w with
      cache := Function.update w.cache (getQjcPath moduleName) (some bc)
      written := Function.update w.written (getQjcPath moduleName) (some (moduleName, text)) }
  else w

/-- `mini_module_loader`; NULL is `none`. -/
def miniModuleLoader (w : Sources) (moduleName : Bytes) (canOpen : Bool) :
    Option (LoadedModule Module) × Sources :=
  match readCached e w moduleName with
  | some m => (some ⟨m, moduleName⟩, w)
  | none =>
    match w.sourceText moduleName with
    | none => (none, w)
    | some text =>
      match e.compile moduleName text with
      | none => (none, w)
      | some m => (some ⟨m, moduleName⟩, saveCompiled e w moduleName text m canOpen)

/-- The module of the present content. -/
def presentModule (w : Sources) (moduleName : Bytes) : Option (LoadedModule Module) :=
  ((w.content moduleName).bind (e.compile moduleName)).map fun m => ⟨m, moduleName⟩

end Loader

/-! ## Histories -/

/-- What happens between two loads, and a load; a new session starts with what is on disk. -/
inductive ModuleStep where
  | edit (path : Bytes) (content : Option Bytes)
  | serve (url : Bytes) (response : Option Bytes)
  | newSession
  | load (moduleName : Bytes) (canOpen : Bool)

def ModuleStep.loaded : ModuleStep → Option Bytes
  | .load moduleName _ => some moduleName
  | _ => none

section History

variable {Module : Type} (e : ModuleEngine Module)

def Sources.step (w : Sources) : ModuleStep → Sources
  | .edit path content => { w with files := Function.update w.files path content }
  | .serve url response => { w with responses := Function.update w.responses url response }
  | .newSession => w
  | .load moduleName canOpen => (miniModuleLoader e w moduleName canOpen).2

def Sources.run (w : Sources) (steps : List ModuleStep) : Sources := steps.foldl (Sources.step e) w

/-- The cache file, if there is one, was compiled from a text that gives the same module as
the present content; and without one, the content is not an empty file that the response would
stand in for with another module. -/
def Current (w : Sources) (moduleName : Bytes) : Prop :=
  (∀ origin ∈ w.written (getQjcPath moduleName),
    e.compile moduleName origin.2 = (w.content moduleName).bind (e.compile moduleName)) ∧
  (w.written (getQjcPath moduleName) = none → w.localFile moduleName = some [] →
    (w.responses moduleName).bind (e.compile moduleName) = e.compile moduleName [])

instance [DecidableEq Module] (w : Sources) (moduleName : Bytes) :
    Decidable (Current e w moduleName) :=
  inferInstanceAs (Decidable (_ ∧ _))

/-- A cache file holds the module of the text it was compiled from. -/
structure Coherent (names : List Bytes) (w : Sources) : Prop where
  unwritten : ∀ k, w.written k = none → w.cache k = none
  written : ∀ k name text, w.written k = some (name, text) →
    name ∈ names ∧ k = getQjcPath name ∧
      ∃ m, e.compile name text = some m ∧ w.cache k = some (e.writeObject m) ∧
        e.writeObject m ≠ []

variable {e}

theorem Coherent.save {names : List Bytes} {w : Sources} (h : Coherent e names w)
    {moduleName text : Bytes} {m : Module} (hname : moduleName ∈ names)
    (hm : e.compile moduleName text = some m) (canOpen : Bool) :
    Coherent e names (saveCompiled e w moduleName text m canOpen) := by
  unfold saveCompiled
  dsimp only
  split_ifs with hsave
  · constructor
    · intro k hk
      by_cases hkey : k = getQjcPath moduleName
      · rw [hkey] at hk
        simp at hk
      · simp only [Function.update_of_ne hkey] at hk ⊢
        exact h.unwritten k hk
    · intro k name text' hk
      by_cases hkey : k = getQjcPath moduleName
      · rw [hkey] at hk ⊢
        simp only [Function.update_self, Option.some.injEq, Prod.mk.injEq] at hk ⊢
        obtain ⟨rfl, rfl⟩ := hk
        exact ⟨hname, rfl, m, hm, rfl, hsave.1⟩
      · simp only [Function.update_of_ne hkey] at hk ⊢
        exact h.written k name text' hk
  · exact h

theorem Coherent.load {names : List Bytes} {w : Sources} (h : Coherent e names w)
    {moduleName : Bytes} (hname : moduleName ∈ names) (canOpen : Bool) :
    Coherent e names (miniModuleLoader e w moduleName canOpen).2 := by
  unfold miniModuleLoader
  split
  · exact h
  · split
    · exact h
    · split
      · exact h
      · rename_i m hm
        exact h.save hname hm canOpen

theorem Coherent.step {names : List Bytes} {w : Sources} (h : Coherent e names w)
    {step : ModuleStep} (hname : ∀ n ∈ step.loaded, n ∈ names) :
    Coherent e names (w.step e step) := by
  cases step with
  | edit path content => exact ⟨h.unwritten, h.written⟩
  | serve url response => exact ⟨h.unwritten, h.written⟩
  | newSession => exact h
  | load moduleName canOpen => exact h.load (hname moduleName rfl) canOpen

theorem Coherent.run {names : List Bytes} {w : Sources} (h : Coherent e names w)
    {steps : List ModuleStep} (hnames : ∀ step ∈ steps, ∀ n ∈ step.loaded, n ∈ names) :
    Coherent e names (w.run e steps) := by
  induction steps generalizing w with
  | nil => exact h
  | cons step steps ih =>
    exact ih (h.step (hnames step List.mem_cons_self)) fun s hs =>
      hnames s (List.mem_cons_of_mem step hs)

end History

section Load

variable {Module : Type} {e : ModuleEngine Module} {w : Sources} {moduleName : Bytes}

/-- The loader gives the module of the cache file, or that of the text. -/
theorem miniModuleLoader_fst (canOpen : Bool) :
    (miniModuleLoader e w moduleName canOpen).1 =
      ((readCached e w moduleName).or
        ((w.sourceText moduleName).bind (e.compile moduleName))).map fun m => ⟨m, moduleName⟩ := by
  unfold miniModuleLoader
  cases readCached e w moduleName with
  | some m => rfl
  | none =>
    cases w.sourceText moduleName with
    | none => rfl
    | some text =>
      cases hm : e.compile moduleName text <;> simp [hm]

theorem loadedModule_map_inj {a b : Option Module} :
    a.map (fun m => (⟨m, moduleName⟩ : LoadedModule Module)) =
      b.map (fun m => ⟨m, moduleName⟩) ↔ a = b := by
  refine (Option.map_injective ?_).eq_iff
  intro m m' hm
  exact congrArg LoadedModule.code hm

/-- Without a cache file the loader differs from the content on an empty file only. -/
theorem sourceText_iff :
    (w.sourceText moduleName).bind (e.compile moduleName) =
        (w.content moduleName).bind (e.compile moduleName) ↔
      (w.localFile moduleName = some [] →
        (w.responses moduleName).bind (e.compile moduleName) = e.compile moduleName []) := by
  unfold Sources.sourceText Sources.content
  cases w.localFile moduleName with
  | none => simp
  | some text =>
    cases text with
    | nil => simp
    | cons c text => simp

end Load

/-- After every history of edits and loads the loader gives the module of the present content
exactly if the cache file is current. -/
theorem loads_present_iff_current {Module : Type} {e : ModuleEngine Module} (hread : e.ReadsBack)
    (files responses : Bytes → Option Bytes) (steps : List ModuleStep) (moduleName : Bytes)
    (canOpen : Bool)
    (hhash : ∀ n ∈ steps.filterMap ModuleStep.loaded,
      getQjcPath moduleName = getQjcPath n → n = moduleName) :
    (miniModuleLoader e (({ files, responses } : Sources).run e steps) moduleName canOpen).1 =
        presentModule e (({ files, responses } : Sources).run e steps) moduleName ↔
      Current e (({ files, responses } : Sources).run e steps) moduleName := by
  have hcoherent : Coherent e (steps.filterMap ModuleStep.loaded)
      (({ files, responses } : Sources).run e steps) := by
    refine Coherent.run ⟨fun _ _ => rfl, fun _ _ _ hk => absurd hk (Option.some_ne_none _).symm⟩ ?_
    exact fun step hs n hn => List.mem_filterMap.2 ⟨step, hs, hn⟩
  generalize ({ files, responses } : Sources).run e steps = w at hcoherent ⊢
  rw [miniModuleLoader_fst, presentModule, loadedModule_map_inj, Current]
  cases hwritten : w.written (getQjcPath moduleName) with
  | none =>
    have hcached : readCached e w moduleName = none := by
      rw [readCached, hcoherent.unwritten _ hwritten]
      rfl
    rw [hcached, Option.none_or, sourceText_iff]
    refine ⟨fun h => ⟨fun o ho => ?_, fun _ => h⟩, fun h => h.2 rfl⟩
    cases ho
  | some origin =>
    obtain ⟨name, text⟩ := origin
    obtain ⟨hname, hkey, m, hm, hcache, hne⟩ := hcoherent.written _ name text hwritten
    obtain rfl := hhash name hname hkey
    have hcached : readCached e w name = some m := by
      rw [readCached, hcache, Option.filter_some, if_pos (decide_eq_true hne)]
      exact hread m
    rw [hcached, Option.some_or, ← hm]
    refine ⟨fun h => ⟨fun o ho => ?_, fun hnone => ?_⟩, fun h => h.1 _ rfl⟩
    · obtain rfl := Option.some.inj ho
      exact h
    · cases hnone

/-- An engine whose modules are their texts. -/
def textEngine : ModuleEngine Bytes where
  compile := fun _ text => some text
  writeObject := fun m => 0 :: m
  readObject := fun bc => some bc.tail

/-- A module is written and loaded, and a file is edited before the next session. -/
def editAfterLoad (path : Bytes) : Sources :=
  ({ files := fun _ => none, responses := fun _ => none } : Sources).run textEngine
    [.edit (ascii "a.js") (some (ascii "1")), .load (ascii "a.js") true,
      .edit path (some (ascii "2")), .newSession]

/-- The edit of another file changes nothing. -/
theorem loads_present_iff_current_other :
    (miniModuleLoader textEngine (editAfterLoad (ascii "b.js")) (ascii "a.js") true).1 =
      presentModule textEngine (editAfterLoad (ascii "b.js")) (ascii "a.js") :=
  (loads_present_iff_current (fun _ => rfl) _ _ _ _ true (by decide)).2
    (by decide)

/-- A module that is edited after a load is not loaded anew. -/
theorem edited_module_stale :
    (miniModuleLoader textEngine (editAfterLoad (ascii "a.js")) (ascii "a.js") true).1 ≠
      presentModule textEngine (editAfterLoad (ascii "a.js")) (ascii "a.js") := by
  intro h
  have hcode := congrArg (Option.map LoadedModule.code) h
  revert hcode
  decide

end TinyFramework.Js
