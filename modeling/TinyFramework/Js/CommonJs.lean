/-
  Js/CommonJs.lean --- the CommonJS loader of the shim.

  `require` looks an id up among the built-in modules, resolves it to a file, and evaluates
  the file unless it has a cache entry.  The entry is made before the evaluation.  What a
  module does when it is evaluated is arbitrary; it may require others and catch what they
  throw.
-/
import TinyFramework.Foundation.Tokens

set_option autoImplicit false

namespace TinyFramework.Js

open TinyFramework.Foundation

abbrev PathText := List Char

/-! ## Paths -/

def isAbs (p : PathText) : Bool := p.head? == some '/' || p[1]? == some ':'

/-- Before the last slash. -/
def dirname (p : PathText) : PathText :=
  if '/' ∈ p then
    let dir := ((p.reverse.dropWhile (· ≠ '/')).drop 1).reverse
    if dir = [] then ['/'] else dir
  else ['.']

def join (a b : PathText) : PathText :=
  if a = [] then b
  else if b.head? = some '/' then b
  else if a.getLast? = some '/' then a ++ b
  else a ++ '/' :: b

def dot : PathText := ['.']

def dotdot : PathText := ['.', '.']

/-- The loop of `normalize` for a segment; `out` has its last entry first. -/
def normalizeStep (out : List PathText) (s : PathText) : List PathText :=
  if s = [] ∨ s = dot then out
  else if s = dotdot then (if out ≠ [] then out.tail else [dotdot])
  else s :: out

/-- The end of `normalize`. -/
def joinSegs (p : PathText) (out : List PathText) : PathText :=
  let r := ['/'].intercalate out.reverse
  if p.head? = some '/' then '/' :: r else r

/-- `normalize` -/
def normalize (p : PathText) : PathText :=
  joinSegs p ((p.splitOn '/').foldl normalizeStep [])

/-! ## The source -/

section Source

variable {V : Type}

/-- What a module or the main program does: it ends, throws, sets `module.exports`, or requires
an id and goes on with the answer, `none` when `require` threw. -/
inductive ModuleScript (V : Type) where
  | done
  | throws
  | assign (v : V) (next : ModuleScript V)
  | require (id : PathText) (next : Option V → ModuleScript V)

/-- What the loader finds around it: the files, the current directory, the built-in modules and
what their table inherits, the main entry that the text of a `package.json` names, the first
`exports` of each evaluation, and what the text of a file does when it is evaluated. -/
structure LoaderHost (V : Type) where
  files : List (PathText × PathText)
  cwd : PathText
  mods : PathText → Option V
  inherited : PathText → Option V
  mainOf : PathText → Option PathText
  fresh : Nat → V
  program : Nat → PathText → PathText → ModuleScript V

/-- What happens, as far as an observer of the loader sees it. -/
inductive LoadEntry (V : Type) where
  | builtin (id : PathText)
  | missing (by_ : Option PathText) (id : PathText)
  | cached (by_ : Option PathText) (id file : PathText) (v : V)
  | load (by_ : Option PathText) (id file src : PathText)
  | finish (file : PathText) (v : V)
  | fail (file : PathText)

/-- What runs, and what waits for an answer; each with its file, `none` for the main program.
The cache has the `exports` of each module, and `log` the last entry first. -/
structure LoaderState (V : Type) where
  cache : List (PathText × V) := []
  current : Option (Option PathText × ModuleScript V)
  waiting : List (Option PathText × (Option V → ModuleScript V)) := []
  evals : Nat := 0
  log : List (LoadEntry V) := []

variable (h : LoaderHost V)

/-- The text of a file. -/
def LoaderHost.readFile (f : PathText) : Option PathText := h.files.lookup f

/-- `readFile`: a file that cannot be read gives the empty text. -/
def readFile (f : PathText) : PathText := (h.readFile f).getD []

/-- The first candidate with a text, and the text. -/
def firstText (cands : List PathText) : Option (PathText × PathText) :=
  cands.findSome? fun f => if readFile h f ≠ [] then some (f, readFile h f) else none

def dotJs : PathText := ".js".toList

def indexJs : PathText := "/index.js".toList

def packageJson : PathText := "/package.json".toList

/-- `[p+'.js', p, p+'/index.js']` -/
def moduleCands (p : PathText) : List PathText := [p ++ dotJs, p, p ++ indexJs]

/-- `resolveAs` -/
def resolveAs (base id : PathText) : Option (PathText × PathText) :=
  let p := if isAbs id then normalize id else normalize (join base id)
  match firstText h (moduleCands p ++ [p ++ packageJson]) with
  | some r => some r
  | none =>
      let ps := readFile h (p ++ packageJson)
      if ps ≠ [] then
        (h.mainOf ps).bind fun m => firstText h (moduleCands (normalize (join p m)))
      else none

/-- The id without `node:`. -/
def withoutNode (id : PathText) : PathText :=
  if "node:".toList.isPrefixOf id then id.drop 5 else id

/-- `__mods[ni]` -/
def modsLookup (id : PathText) : Option V :=
  (h.mods (withoutNode id)).or (h.inherited (withoutNode id))

/-- The answer goes to what waits for it. -/
def LoaderState.answer (s : LoaderState V) (a : Option V) : LoaderState V :=
  match s.waiting with
  | [] => { s with current := none }
  | (by_, next) :: waiting => { s with current := some (by_, next a), waiting := waiting }

/-- `cache[file].exports` -/
def LoaderState.exports (s : LoaderState V) (file : PathText) : Option V := s.cache.lookup file

/-- `requireImpl` up to the evaluation of the module. -/
def requireImpl (s : LoaderState V) (by_ : Option PathText) (id : PathText)
    (next : Option V → ModuleScript V) : LoaderState V :=
  match modsLookup h id with
  | some v => { s with current := some (by_, next (some v)), log := .builtin id :: s.log }
  | none =>
      match resolveAs h (dirname (by_.getD h.cwd)) id with
      | none => { s with current := some (by_, next none), log := .missing by_ id :: s.log }
      | some (file, src) =>
          match s.exports file with
          | some v =>
              { s with
                current := some (by_, next (some v))
                log := .cached by_ id file v :: s.log }
          | none =>
              { cache := (file, h.fresh s.evals) :: s.cache
                current := some (some file, h.program s.evals file src)
                waiting := (by_, next) :: s.waiting
                evals := s.evals + 1
                log := .load by_ id file src :: s.log }

/-- The exports of a file are replaced. -/
def setExports (cache : List (PathText × V)) (file : PathText) (v : V) : List (PathText × V) :=
  cache.map fun e => if e.1 = file then (file, v) else e

/-- One step of what runs. -/
def LoaderState.step (s : LoaderState V) : LoaderState V :=
  match s.current with
  | none => s
  | some (none, .done) => s.answer none
  | some (none, .throws) => s.answer none
  | some (some file, .done) =>
      match s.exports file with
      | some v => { s with log := .finish file v :: s.log }.answer (some v)
      | none => s.answer none
  | some (some file, .throws) => { s with log := .fail file :: s.log }.answer none
  | some (none, .assign _ next) => { s with current := some (none, next) }
  | some (some file, .assign v next) =>
      { s with cache := setExports s.cache file v, current := some (some file, next) }
  | some (by_, .require id next) => requireImpl h s by_ id next

/-- The loader after a number of steps of the main program. -/
def loaderRun (main : ModuleScript V) : Nat → LoaderState V
  | 0 => { current := some (none, main) }
  | n + 1 => (loaderRun main n).step h

end Source

/-! ## What the loader is for -/

section Spec

variable {V : Type}

/-- Removal of dot segments: `..` takes the last segment away; at the root it does nothing, and
a relative path keeps it where there is none to take. -/
def cleanStep (absolute : Bool) (out : List PathText) (s : PathText) : List PathText :=
  if s = [] ∨ s = dot then out
  else if s = dotdot then
    match out with
    | [] => if absolute then [] else [dotdot]
    | x :: xs => if x = dotdot then dotdot :: x :: xs else xs
  else s :: out

def cleanPath (p : PathText) : PathText :=
  joinSegs p ((p.splitOn '/').foldl (cleanStep (p.head? = some '/')) [])

/-- The last segment of a path. -/
def basename (p : PathText) : PathText := (p.reverse.takeWhile (· ≠ '/')).reverse

def isPackageJson (f : PathText) : Bool := basename f = "package.json".toList

variable (h : LoaderHost V)

/-- The first candidate that exists and may be evaluated, with its text. -/
def firstModule (cands : List PathText) : Option (PathText × PathText) :=
  cands.findSome? fun f => if isPackageJson f then none else (h.readFile f).map fun src => (f, src)

/-- The path that an id stands for in a file, for the main program in the current directory. -/
def pathOf (by_ : Option PathText) (id : PathText) : PathText :=
  if isAbs id then id else join (by_.elim h.cwd dirname) id

/-- The file that an id stands for: `p.js`, `p`, `p/index.js`, or what the main entry of
`p/package.json` names; a `package.json` itself is not evaluated. -/
def resolveModule (by_ : Option PathText) (id : PathText) : Option (PathText × PathText) :=
  let p := cleanPath (pathOf h by_ id)
  match firstModule h (moduleCands p) with
  | some r => some r
  | none =>
      match h.readFile (p ++ packageJson) with
      | some ps =>
          if ps = [] then none
          else (h.mainOf ps).bind fun m => firstModule h (moduleCands (cleanPath (join p m)))
      | none => none

/-- An id is built in when the table has an entry of its own for it. -/
def isBuiltin (id : PathText) : Bool := (h.mods (withoutNode id)).isSome

/-- The files that are being evaluated, the innermost first, and those that were evaluated
without throwing, with their final exports. -/
structure LoadSpec (V : Type) where
  evaluating : List PathText := []
  loaded : List (PathText × V) := []

variable [DecidableEq V]

/-- What may happen next: a built-in has its own entry; any other id is resolved from the file
that is being evaluated; a file is evaluated unless it was or is being evaluated, and answered
with its final exports, or, while it is being evaluated, with those it has.  `none` when it
must not happen. -/
def LoadSpec.step (s : LoadSpec V) : LoadEntry V → Option (LoadSpec V)
  | .builtin id => if isBuiltin h id then some s else none
  | .missing by_ id =>
      if ¬ isBuiltin h id ∧ by_ = s.evaluating.head? ∧ resolveModule h by_ id = none then some s
      else none
  | .cached by_ id file v =>
      if (¬ isBuiltin h id ∧ by_ = s.evaluating.head?) ∧
          (resolveModule h by_ id).map Prod.fst = some file ∧
          (s.loaded.lookup file = some v ∨ file ∈ s.evaluating) then some s
      else none
  | .load by_ id file src =>
      if (¬ isBuiltin h id ∧ by_ = s.evaluating.head?) ∧
          resolveModule h by_ id = some (file, src) ∧
          s.loaded.lookup file = none ∧ file ∉ s.evaluating then
        some { s with evaluating := file :: s.evaluating }
      else none
  | .finish file v =>
      match s.evaluating with
      | f :: evaluating =>
          if f = file then some { evaluating := evaluating, loaded := (file, v) :: s.loaded }
          else none
      | [] => none
  | .fail file =>
      match s.evaluating with
      | f :: evaluating => if f = file then some { s with evaluating := evaluating } else none
      | [] => none

/-- The state that a log leads to, `none` when something in it must not have happened. -/
def loadSpec : List (LoadEntry V) → Option (LoadSpec V)
  | [] => some {}
  | e :: older => (loadSpec older).bind fun s => s.step h e

/-- What was logged may happen, and the cache has entries for the files that are being evaluated
and for those that were evaluated without throwing, and for no others. -/
def LoadsRight (s : LoaderState V) : Prop :=
  ∃ spec, loadSpec h s.log = some spec ∧
    ∀ file, (s.exports file).isSome ↔
      file ∈ spec.evaluating ∨ (spec.loaded.lookup file).isSome

end Spec

/-! ## Where the shim keeps to it -/

section Safe

variable {V : Type} (h : LoaderHost V)

/-- No `..` meets another one that was kept, and none climbs above the root. -/
def SafeDots (absolute : Bool) : List PathText → List PathText → Prop
  | _, [] => True
  | out, s :: rest =>
      (s = dotdot → (∀ x ∈ out.head?, x ≠ dotdot) ∧ (out = [] → absolute = false)) ∧
        SafeDots absolute (normalizeStep out s) rest

def SafePath (p : PathText) : Prop := SafeDots (p.head? = some '/') [] (p.splitOn '/')

/-- The first candidate that exists has a text and is no `package.json`; when none exists, so
does `then_`. -/
def SafeCands (then_ : Prop) : List PathText → Prop
  | [] => then_
  | f :: rest =>
      match h.readFile f with
      | none => SafeCands then_ rest
      | some src => src ≠ [] ∧ isPackageJson f = false

/-- The id is no name that the table of built-in modules inherits; the main program uses an
absolute id, or its current directory is its own parent; the path needs no `..` kept or dropped
at the top; and the candidates are met as they have to be, with no text in `p/package.json`. -/
def SafeRequire (by_ : Option PathText) (id : PathText) : Prop :=
  (h.mods (withoutNode id) = none → h.inherited (withoutNode id) = none) ∧
    (h.mods (withoutNode id) = none →
      (by_ = none → isAbs id = false → dirname h.cwd = h.cwd) ∧ SafePath (pathOf h by_ id) ∧
        SafeCands h ((h.readFile (cleanPath (pathOf h by_ id) ++ packageJson)).getD [] = [])
          (moduleCands (cleanPath (pathOf h by_ id))))

/-- No module throws, and every `require` is safe. -/
def SafeLoad (s : LoaderState V) : Prop :=
  match s.current with
  | some (some _, .throws) => False
  | some (by_, .require id _) => SafeRequire h by_ id
  | _ => True

end Safe

end TinyFramework.Js
