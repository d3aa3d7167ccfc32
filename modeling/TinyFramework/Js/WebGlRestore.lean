/-
  Js/WebGlRestore.lean --- the state of WebGL across the pass that draws the document.

  The bridge records what a page binds.  Before the document is drawn the bindings are put
  to 0, and afterwards the recorded ones are bound again.  The renderer in between may leave
  any bindings.  In GL an element buffer is bound to a vertex array and a texture to a unit.
-/
import Mathlib.Logic.Function.Basic
import Mathlib.Tactic.SplitIfs

set_option autoImplicit false

namespace TinyFramework.Js

/-! ## The state of GL -/

/-- `GL_ARRAY_BUFFER` -/
abbrev glArrayBuffer : Nat := 0x8892

/-- `GL_ELEMENT_ARRAY_BUFFER` -/
abbrev glElementArrayBuffer : Nat := 0x8893

/-- `GL_TEXTURE_2D` -/
abbrev glTexture2d : Nat := 0x0DE1

/-- `GL_TEXTURE0` -/
abbrev glTexture0 : Nat := 0x84C0

/-- `GL_DEPTH_TEST` -/
abbrev glDepthTest : Nat := 0x0B71

/-- `GL_CULL_FACE` -/
abbrev glCullFace : Nat := 0x0B44

/-- `GL_BLEND` -/
abbrev glBlend : Nat := 0x0BE2

/-- `GL_SCISSOR_TEST` -/
abbrev glScissorTest : Nat := 0x0C11

/-- Four floats as their bits. -/
structure ClearColor where
  r : UInt32 := 0
  g : UInt32 := 0
  b : UInt32 := 0
  a : UInt32 := 0
  deriving DecidableEq, Repr

/-- The bindings and switches of a context. -/
@[ext] structure GlBindings where
  program : Nat := 0
  vao : Nat := 0
  arrayBuffer : Nat := 0
  elementBuffer : Nat → Nat := fun _ => 0
  activeUnit : Nat := 0
  texture2d : Nat → Nat := fun _ => 0
  depthTest : Bool := false
  cullFace : Bool := false
  blend : Bool := false
  scissorTest : Bool := false
  clearColor : ClearColor := {}

/-- A context: its bindings, the programs and vertex arrays that exist, whether the program in
use is to be deleted once it is not, and how many texture units there are. -/
@[ext] structure GlContext where
  bindings : GlBindings := {}
  programs : List Nat := []
  dying : Bool := false
  vaos : List Nat := []
  units : Nat := 16

namespace GlContext

def useProgram (g : GlContext) (p : Nat) : GlContext :=
  if p = 0 ∨ p ∈ g.programs then
    if p = g.bindings.program then g
    else
      { g with
        bindings := { g.bindings with program := p }
        programs := if g.dying then g.programs.erase g.bindings.program else g.programs
        dying := false }
  else g

def deleteProgram (g : GlContext) (p : Nat) : GlContext :=
  if p = g.bindings.program then { g with dying := true }
  else { g with programs := g.programs.erase p }

def bindVertexArray (g : GlContext) (v : Nat) : GlContext :=
  if v = 0 ∨ v ∈ g.vaos then { g with bindings := { g.bindings with vao := v } } else g

def deleteVertexArray (g : GlContext) (v : Nat) : GlContext :=
  { g with
    bindings := { g.bindings with vao := if g.bindings.vao = v then 0 else g.bindings.vao }
    vaos := g.vaos.erase v }

def bindBuffer (g : GlContext) (target id : Nat) : GlContext :=
  if target = glArrayBuffer then
    { g with bindings := { g.bindings with arrayBuffer := id } }
  else if target = glElementArrayBuffer then
    { g with bindings := { g.bindings with
        elementBuffer := Function.update g.bindings.elementBuffer g.bindings.vao id } }
  else g

/-- A deleted buffer leaves the bindings of the context; a vertex array that is not bound
keeps it. -/
def deleteBuffer (g : GlContext) (id : Nat) : GlContext :=
  let b := g.bindings
  { g with bindings := { b with
      arrayBuffer := if b.arrayBuffer = id then 0 else b.arrayBuffer
      elementBuffer :=
        if b.elementBuffer b.vao = id then Function.update b.elementBuffer b.vao 0
        else b.elementBuffer } }

def activeTexture (g : GlContext) (u : Nat) : GlContext :=
  if glTexture0 ≤ u ∧ u < glTexture0 + g.units then
    { g with bindings := { g.bindings with activeUnit := u - glTexture0 } }
  else g

def bindTexture (g : GlContext) (target id : Nat) : GlContext :=
  if target = glTexture2d then
    { g with bindings := { g.bindings with
        texture2d := Function.update g.bindings.texture2d g.bindings.activeUnit id } }
  else g

def deleteTexture (g : GlContext) (id : Nat) : GlContext :=
  { g with bindings := { g.bindings with
      texture2d := fun u => if g.bindings.texture2d u = id then 0 else g.bindings.texture2d u } }

/-- `glEnable` and `glDisable` -/
def setCap (g : GlContext) (cap : Nat) (on : Bool) : GlContext :=
  if cap = glDepthTest then { g with bindings := { g.bindings with depthTest := on } }
  else if cap = glCullFace then { g with bindings := { g.bindings with cullFace := on } }
  else if cap = glBlend then { g with bindings := { g.bindings with blend := on } }
  else if cap = glScissorTest then { g with bindings := { g.bindings with scissorTest := on } }
  else g

def setClearColor (g : GlContext) (c : ClearColor) : GlContext :=
  { g with bindings := { g.bindings with clearColor := c } }

end GlContext

/-! ## The bridge -/

/-- What `MiniGLBridge` records. -/
structure MiniGLBridge where
  currentProgram : Nat := 0
  lastVao : Nat := 0
  lastArrayBuffer : Nat := 0
  lastElementArrayBuffer : Nat := 0
  lastTexture2d : Nat := 0
  depthTestEnabled : Bool := false
  cullFaceEnabled : Bool := false
  blendEnabled : Bool := false
  scissorTestEnabled : Bool := false
  clear : ClearColor := {}
  hasClear : Bool := false
  deriving DecidableEq, Repr

/-- The context and the bridge, with the bindings in force at each draw so far, the last one
first; the selector of the unit is not one of them. -/
structure WebGl where
  gl : GlContext := {}
  bridge : MiniGLBridge := {}
  drawn : List GlBindings := []

/-- `js_gl_useProgram` -/
def jsGlUseProgram (s : WebGl) (p : Nat) : WebGl :=
  { s with gl := s.gl.useProgram p, bridge := { s.bridge with currentProgram := p } }

/-- `js_gl_bindVertexArray` -/
def jsGlBindVertexArray (s : WebGl) (v : Nat) : WebGl :=
  { s with gl := s.gl.bindVertexArray v, bridge := { s.bridge with lastVao := v } }

/-- `js_gl_bindBuffer` -/
def jsGlBindBuffer (s : WebGl) (target id : Nat) : WebGl :=
  { s with
    gl := s.gl.bindBuffer target id
    bridge :=
      if target = glArrayBuffer then { s.bridge with lastArrayBuffer := id }
      else if target = glElementArrayBuffer then { s.bridge with lastElementArrayBuffer := id }
      else s.bridge }

/-- `js_gl_activeTexture` -/
def jsGlActiveTexture (s : WebGl) (u : Nat) : WebGl := { s with gl := s.gl.activeTexture u }

/-- `js_gl_bindTexture` -/
def jsGlBindTexture (s : WebGl) (target id : Nat) : WebGl :=
  { s with
    gl := s.gl.bindTexture target id
    bridge := if target = glTexture2d then { s.bridge with lastTexture2d := id } else s.bridge }

/-- The common part of `js_gl_enable` and `js_gl_disable`. -/
def jsGlSetCap (s : WebGl) (cap : Nat) (on : Bool) : WebGl :=
  { s with
    gl := s.gl.setCap cap on
    bridge :=
      if cap = glDepthTest then { s.bridge with depthTestEnabled := on }
      else if cap = glCullFace then { s.bridge with cullFaceEnabled := on }
      else if cap = glBlend then { s.bridge with blendEnabled := on }
      else if cap = glScissorTest then { s.bridge with scissorTestEnabled := on }
      else s.bridge }

/-- `js_gl_enable` -/
def jsGlEnable (s : WebGl) (cap : Nat) : WebGl := jsGlSetCap s cap true

/-- `js_gl_disable` -/
def jsGlDisable (s : WebGl) (cap : Nat) : WebGl := jsGlSetCap s cap false

/-- `js_gl_clearColor` -/
def jsGlClearColor (s : WebGl) (c : ClearColor) : WebGl :=
  { s with gl := s.gl.setClearColor c, bridge := { s.bridge with clear := c, hasClear := true } }

/-- `js_gl_deleteProgram` -/
def jsGlDeleteProgram (s : WebGl) (p : Nat) : WebGl :=
  if p ≠ 0 then { s with gl := s.gl.deleteProgram p } else s

/-- `js_gl_deleteVertexArray` -/
def jsGlDeleteVertexArray (s : WebGl) (v : Nat) : WebGl :=
  if v ≠ 0 then { s with gl := s.gl.deleteVertexArray v } else s

/-- `js_gl_deleteBuffer` -/
def jsGlDeleteBuffer (s : WebGl) (id : Nat) : WebGl :=
  if id ≠ 0 then { s with gl := s.gl.deleteBuffer id } else s

/-- `js_gl_deleteTexture` -/
def jsGlDeleteTexture (s : WebGl) (id : Nat) : WebGl :=
  if id ≠ 0 then { s with gl := s.gl.deleteTexture id } else s

/-- `mini_gl_bridge_reset_2d` -/
def miniGlBridgeReset2d (g : GlContext) : GlContext :=
  let g := (g.useProgram 0).bindVertexArray 0
  let g := (g.bindBuffer glArrayBuffer 0).bindBuffer glElementArrayBuffer 0
  let g := g.bindTexture glTexture2d 0
  (g.setCap glCullFace false).setCap glDepthTest false

/-- `mini_gl_bridge_restore_webgl` -/
def miniGlBridgeRestoreWebgl (b : MiniGLBridge) (g : GlContext) : GlContext :=
  let g := if b.currentProgram ≠ 0 then g.useProgram b.currentProgram else g
  let g := if b.lastVao ≠ 0 then g.bindVertexArray b.lastVao else g
  let g := if b.lastArrayBuffer ≠ 0 then g.bindBuffer glArrayBuffer b.lastArrayBuffer else g
  let g :=
    if b.lastElementArrayBuffer ≠ 0 then
      g.bindBuffer glElementArrayBuffer b.lastElementArrayBuffer
    else g
  let g := if b.lastTexture2d ≠ 0 then g.bindTexture glTexture2d b.lastTexture2d else g
  let g := if b.depthTestEnabled then g.setCap glDepthTest true else g
  let g := if b.cullFaceEnabled then g.setCap glCullFace true else g
  let g := if b.blendEnabled then g.setCap glBlend true else g
  let g := if b.scissorTestEnabled then g.setCap glScissorTest true else g
  if b.hasClear then g.setClearColor b.clear else g

/-- A frame's drawing of the document, after which the renderer has left the bindings `left`. -/
def domPass (s : WebGl) (left : GlBindings) : WebGl :=
  { s with gl :=
      miniGlBridgeRestoreWebgl s.bridge { miniGlBridgeReset2d s.gl with bindings := left } }

/-- The calls of a page, with the names that GL gives to new objects, and the passes between
its frames. -/
inductive GlEvent where
  | createProgram (p : Nat)
  | createVertexArray (v : Nat)
  | useProgram (p : Nat)
  | bindVertexArray (v : Nat)
  | bindBuffer (target id : Nat)
  | activeTexture (u : Nat)
  | bindTexture (target id : Nat)
  | enable (cap : Nat)
  | disable (cap : Nat)
  | clearColor (c : ClearColor)
  | deleteProgram (p : Nat)
  | deleteVertexArray (v : Nat)
  | deleteBuffer (id : Nat)
  | deleteTexture (id : Nat)
  | draw
  | domPass (left : GlBindings)

def WebGl.step (s : WebGl) : GlEvent → WebGl
  | .createProgram p => { s with gl := { s.gl with programs := p :: s.gl.programs } }
  | .createVertexArray v => { s with gl := { s.gl with
        bindings := { s.gl.bindings with
          elementBuffer := Function.update s.gl.bindings.elementBuffer v 0 }
        vaos := v :: s.gl.vaos } }
  | .useProgram p => jsGlUseProgram s p
  | .bindVertexArray v => jsGlBindVertexArray s v
  | .bindBuffer target id => jsGlBindBuffer s target id
  | .activeTexture u => jsGlActiveTexture s u
  | .bindTexture target id => jsGlBindTexture s target id
  | .enable cap => jsGlEnable s cap
  | .disable cap => jsGlDisable s cap
  | .clearColor c => jsGlClearColor s c
  | .deleteProgram p => jsGlDeleteProgram s p
  | .deleteVertexArray v => jsGlDeleteVertexArray s v
  | .deleteBuffer id => jsGlDeleteBuffer s id
  | .deleteTexture id => jsGlDeleteTexture s id
  | .draw => { s with drawn := { s.gl.bindings with activeUnit := 0 } :: s.drawn }
  | .domPass left => Js.domPass s left

def glRun (s : WebGl) (events : List GlEvent) : WebGl := events.foldl WebGl.step s

def GlEvent.isPageCall : GlEvent → Bool
  | .domPass _ => false
  | _ => true

/-! ## When a pass leaves the state as it was -/

/-- What is bound again is what was bound, and what is not bound again the renderer has left
as it was. -/
def Restored {α : Type} (again : Prop) (last left before : α) : Prop :=
  (again → last = before) ∧ (¬ again → left = before)

/-- The program in use is not to be deleted, the unit selected is still the same, and every
binding and switch that was recorded is what was in force. -/
structure PassKeeps (s : WebGl) (left : GlBindings) : Prop where
  alive : s.gl.dying = false
  activeUnit : left.activeUnit = s.gl.bindings.activeUnit
  program : Restored (s.bridge.currentProgram ≠ 0 ∧ s.bridge.currentProgram ∈ s.gl.programs)
    s.bridge.currentProgram left.program s.gl.bindings.program
  vao : Restored (s.bridge.lastVao ≠ 0 ∧ s.bridge.lastVao ∈ s.gl.vaos)
    s.bridge.lastVao left.vao s.gl.bindings.vao
  arrayBuffer : Restored (s.bridge.lastArrayBuffer ≠ 0)
    s.bridge.lastArrayBuffer left.arrayBuffer s.gl.bindings.arrayBuffer
  elementBuffer : ∀ v, Restored (s.bridge.lastElementArrayBuffer ≠ 0 ∧ v = s.gl.bindings.vao)
    s.bridge.lastElementArrayBuffer (left.elementBuffer v) (s.gl.bindings.elementBuffer v)
  texture2d : ∀ u, Restored (s.bridge.lastTexture2d ≠ 0 ∧ u = s.gl.bindings.activeUnit)
    s.bridge.lastTexture2d (left.texture2d u) (s.gl.bindings.texture2d u)
  depthTest : Restored (s.bridge.depthTestEnabled = true) true left.depthTest
    s.gl.bindings.depthTest
  cullFace : Restored (s.bridge.cullFaceEnabled = true) true left.cullFace
    s.gl.bindings.cullFace
  blend : Restored (s.bridge.blendEnabled = true) true left.blend s.gl.bindings.blend
  scissorTest : Restored (s.bridge.scissorTestEnabled = true) true left.scissorTest
    s.gl.bindings.scissorTest
  clearColor : Restored (s.bridge.hasClear = true) s.bridge.clear left.clearColor
    s.gl.bindings.clearColor

/-- Every pass of the events leaves the state as it was. -/
def KeepingRun : WebGl → List GlEvent → Prop
  | _, [] => True
  | s, e :: es => (∀ left, e = .domPass left → PassKeeps s left) ∧ KeepingRun (s.step e) es

/-! ## What a pass does -/

theorem useProgram_alive {g : GlContext} (h : g.dying = false) (p : Nat) :
    g.useProgram p = { g with bindings := { g.bindings with
      program := if p = 0 ∨ p ∈ g.programs then p else g.bindings.program } } := by
  obtain ⟨b, programs, dying, vaos, units⟩ := g
  subst h
  unfold GlContext.useProgram
  split_ifs with haccepted hsame hdying
  · dsimp only at hsame
    rw [hsame]
  · exact hdying.elim
  · rfl
  · rfl

theorem bindVertexArray_eq (g : GlContext) (v : Nat) :
    g.bindVertexArray v = { g with bindings := { g.bindings with
      vao := if v = 0 ∨ v ∈ g.vaos then v else g.bindings.vao } } := by
  unfold GlContext.bindVertexArray
  split_ifs <;> rfl

/-- Before the document is drawn only bindings change. -/
theorem reset_bindings {g : GlContext} (h : g.dying = false) (left : GlBindings) :
    { miniGlBridgeReset2d g with bindings := left } = { g with bindings := left } := by
  unfold miniGlBridgeReset2d
  rw [useProgram_alive h, bindVertexArray_eq]
  rfl

theorem ite_accepted {last left : Nat} {names : List Nat} :
    (if last ≠ 0 then (if last = 0 ∨ last ∈ names then last else left) else left) =
      if last ≠ 0 ∧ last ∈ names then last else left := by
  split_ifs with hbound haccepted hboth hboth hboth
  · rfl
  · exact absurd ⟨hbound, haccepted.resolve_left hbound⟩ hboth
  · exact absurd (.inr hboth.2) haccepted
  · rfl
  · exact absurd hboth.1 hbound
  · rfl

theorem update_if (again : Prop) [Decidable again] (f : Nat → Nat) (i last : Nat) :
    (if again then Function.update f i last else f) =
      fun j => if again ∧ j = i then last else f j := by
  funext j
  split_ifs with ha hj hj
  · rw [hj.2, Function.update_self]
  · exact Function.update_of_ne (fun hji => hj ⟨ha, hji⟩) _ _
  · exact absurd hj.1 ha
  · rfl

/-- What is in force after `mini_gl_bridge_restore_webgl`. -/
def restoredBindings (b : MiniGLBridge) (g : GlContext) : GlBindings :=
  let left := g.bindings
  let vao := if b.lastVao ≠ 0 ∧ b.lastVao ∈ g.vaos then b.lastVao else left.vao
  { program :=
      if b.currentProgram ≠ 0 ∧ b.currentProgram ∈ g.programs then b.currentProgram
      else left.program
    vao := vao
    arrayBuffer := if b.lastArrayBuffer ≠ 0 then b.lastArrayBuffer else left.arrayBuffer
    elementBuffer := fun v =>
      if b.lastElementArrayBuffer ≠ 0 ∧ v = vao then b.lastElementArrayBuffer
      else left.elementBuffer v
    activeUnit := left.activeUnit
    texture2d := fun u =>
      if b.lastTexture2d ≠ 0 ∧ u = left.activeUnit then b.lastTexture2d else left.texture2d u
    depthTest := if b.depthTestEnabled then true else left.depthTest
    cullFace := if b.cullFaceEnabled then true else left.cullFace
    blend := if b.blendEnabled then true else left.blend
    scissorTest := if b.scissorTestEnabled then true else left.scissorTest
    clearColor := if b.hasClear then b.clear else left.clearColor }

/-! Each step of `mini_gl_bridge_restore_webgl`. -/

theorem restore_program {g : GlContext} (h : g.dying = false) (last : Nat) :
    (if last ≠ 0 then g.useProgram last else g) = { g with bindings := { g.bindings with
      program := if last ≠ 0 ∧ last ∈ g.programs then last else g.bindings.program } } := by
  rw [useProgram_alive h, ← ite_accepted]
  split_ifs <;> rfl

theorem restore_vao (g : GlContext) (last : Nat) :
    (if last ≠ 0 then g.bindVertexArray last else g) = { g with bindings := { g.bindings with
      vao := if last ≠ 0 ∧ last ∈ g.vaos then last else g.bindings.vao } } := by
  rw [bindVertexArray_eq, ← ite_accepted]
  split_ifs <;> rfl

theorem restore_arrayBuffer (g : GlContext) (last : Nat) :
    (if last ≠ 0 then g.bindBuffer glArrayBuffer last else g) =
      { g with bindings := { g.bindings with
        arrayBuffer := if last ≠ 0 then last else g.bindings.arrayBuffer } } := by
  split_ifs <;> rfl

theorem restore_elementBuffer (g : GlContext) (last : Nat) :
    (if last ≠ 0 then g.bindBuffer glElementArrayBuffer last else g) =
      { g with bindings := { g.bindings with
        elementBuffer := fun v =>
          if last ≠ 0 ∧ v = g.bindings.vao then last else g.bindings.elementBuffer v } } := by
  rw [← update_if]
  split_ifs <;> rfl

theorem restore_texture2d (g : GlContext) (last : Nat) :
    (if last ≠ 0 then g.bindTexture glTexture2d last else g) =
      { g with bindings := { g.bindings with
        texture2d := fun u =>
          if last ≠ 0 ∧ u = g.bindings.activeUnit then last else g.bindings.texture2d u } } := by
  rw [← update_if]
  split_ifs <;> rfl

theorem restore_depthTest (g : GlContext) (on : Bool) :
    (if on then g.setCap glDepthTest true else g) = { g with bindings := { g.bindings with
      depthTest := if on then true else g.bindings.depthTest } } := by
  split_ifs <;> rfl

theorem restore_cullFace (g : GlContext) (on : Bool) :
    (if on then g.setCap glCullFace true else g) = { g with bindings := { g.bindings with
      cullFace := if on then true else g.bindings.cullFace } } := by
  split_ifs <;> rfl

theorem restore_blend (g : GlContext) (on : Bool) :
    (if on then g.setCap glBlend true else g) = { g with bindings := { g.bindings with
      blend := if on then true else g.bindings.blend } } := by
  split_ifs <;> rfl

theorem restore_scissorTest (g : GlContext) (on : Bool) :
    (if on then g.setCap glScissorTest true else g) = { g with bindings := { g.bindings with
      scissorTest := if on then true else g.bindings.scissorTest } } := by
  split_ifs <;> rfl

theorem restore_clearColor (g : GlContext) (has : Bool) (c : ClearColor) :
    (if has then g.setClearColor c else g) = { g with bindings := { g.bindings with
      clearColor := if has then c else g.bindings.clearColor } } := by
  split_ifs <;> rfl

theorem restore_eq {g : GlContext} (h : g.dying = false) (b : MiniGLBridge) :
    miniGlBridgeRestoreWebgl b g = { g with bindings := restoredBindings b g } := by
  simp only [miniGlBridgeRestoreWebgl, restore_program h, restore_vao, restore_arrayBuffer,
    restore_elementBuffer, restore_texture2d, restore_depthTest, restore_cullFace,
    restore_blend, restore_scissorTest, restore_clearColor]
  rfl

theorem restored_iff {α : Type} {again : Prop} [Decidable again] {last left before : α} :
    (if again then last else left) = before ↔ Restored again last left before := by
  unfold Restored
  split_ifs with h
  · exact ⟨fun heq => ⟨fun _ => heq, fun hn => absurd h hn⟩, fun hboth => hboth.1 h⟩
  · exact ⟨fun heq => ⟨fun ha => absurd ha h, fun _ => heq⟩, fun hboth => hboth.2 h⟩

/-- A pass with a program that stays leaves the context as it was exactly when every binding
is the recorded one or was left alone. -/
theorem domPass_eq_self_iff {s : WebGl} (halive : s.gl.dying = false) (left : GlBindings) :
    domPass s left = s ↔ PassKeeps s left := by
  have hpass : (domPass s left).gl = { s.gl with
      bindings := restoredBindings s.bridge { s.gl with bindings := left } } := by
    unfold domPass
    dsimp only
    rw [reset_bindings halive]
    exact restore_eq (g := { s.gl with bindings := left }) halive s.bridge
  have hself : domPass s left = s ↔
      restoredBindings s.bridge { s.gl with bindings := left } = s.gl.bindings := by
    constructor
    · intro h
      have hgl := congrArg (fun w => w.gl.bindings) h
      rw [hpass] at hgl
      exact hgl
    · intro h
      have hgl : (domPass s left).gl = s.gl := by
        rw [hpass, h]
      calc domPass s left = { s with gl := (domPass s left).gl } := rfl
        _ = s := by rw [hgl]
  rw [hself, GlBindings.ext_iff]
  constructor
  · rintro ⟨hprogram, hvao, harray, helement, hunit, htexture, hdepth, hcull, hblend, hscissor,
      hclear⟩
    refine ⟨halive, hunit, restored_iff.1 hprogram, restored_iff.1 hvao, restored_iff.1 harray,
      ?_, ?_, restored_iff.1 hdepth, restored_iff.1 hcull, restored_iff.1 hblend,
      restored_iff.1 hscissor, restored_iff.1 hclear⟩
    · intro v
      have hv := congrFun helement v
      rw [← hvao]
      exact restored_iff.1 hv
    · intro u
      have hu := congrFun htexture u
      rw [← hunit]
      exact restored_iff.1 hu
  · intro h
    refine ⟨restored_iff.2 h.program, restored_iff.2 h.vao, restored_iff.2 h.arrayBuffer, ?_,
      h.activeUnit, ?_, restored_iff.2 h.depthTest, restored_iff.2 h.cullFace,
      restored_iff.2 h.blend, restored_iff.2 h.scissorTest, restored_iff.2 h.clearColor⟩
    · funext v
      have hvao : (restoredBindings s.bridge { s.gl with bindings := left }).vao =
          s.gl.bindings.vao := restored_iff.2 h.vao
      have hv := restored_iff.2 (h.elementBuffer v)
      rw [← hvao] at hv
      exact hv
    · funext u
      have hu := restored_iff.2 (h.texture2d u)
      rw [← h.activeUnit] at hu
      exact hu

/-! ## Runs -/

theorem glRun_pageCalls (events : List GlEvent) :
    ∀ s, KeepingRun s events → glRun s events = glRun s (events.filter GlEvent.isPageCall) := by
  induction events with
  | nil =>
      intro s _
      rfl
  | cons e es ih =>
      rintro s ⟨hpass, hkeeping⟩
      have hrest := ih (s.step e) hkeeping
      by_cases hcall : e.isPageCall = true
      · rw [List.filter_cons_of_pos hcall]
        exact hrest
      · rw [List.filter_cons_of_neg hcall]
        cases e with
        | domPass left =>
            have hkeeps := hpass left rfl
            have hsame : s.step (.domPass left) = s :=
              (domPass_eq_self_iff hkeeps.alive left).2 hkeeps
            rw [hsame] at hrest
            calc glRun s (.domPass left :: es) = glRun (s.step (.domPass left)) es := rfl
              _ = glRun s es := by rw [hsame]
              _ = _ := hrest
        | _ => exact absurd rfl hcall

/-- In every run whose passes find each binding recorded as it is or leave it alone, every draw
sees what it sees without the passes. -/
theorem drawn_without_passes (s : WebGl) (events : List GlEvent) (h : KeepingRun s events) :
    (glRun s events).drawn = (glRun s (events.filter GlEvent.isPageCall)).drawn :=
  congrArg WebGl.drawn (glRun_pageCalls events s h)

/-- A page with a program, a depth test and a clear colour, and a renderer that changes these. -/
theorem drawn_without_passes_one :
    (glRun {} [.createProgram 3, .useProgram 3, .enable glDepthTest, .clearColor ⟨1, 2, 3, 4⟩,
        .domPass {}, .draw]).drawn =
      (glRun {} [.createProgram 3, .useProgram 3, .enable glDepthTest, .clearColor ⟨1, 2, 3, 4⟩,
        .draw]).drawn := by
  apply drawn_without_passes {} [.createProgram 3, .useProgram 3, .enable glDepthTest,
    .clearColor ⟨1, 2, 3, 4⟩, .domPass {}, .draw]
  refine ⟨nofun, nofun, nofun, nofun, ?_, nofun, trivial⟩
  rintro left hleft
  cases hleft
  constructor <;> simp [Restored, WebGl.step, jsGlUseProgram, jsGlEnable, jsGlSetCap,
    jsGlClearColor, GlContext.useProgram, GlContext.setCap, GlContext.setClearColor]

/-- The element buffer of one vertex array is bound to another one after the pass. -/
theorem element_buffer_strays :
    ¬ (glRun {} [.createVertexArray 5, .bindVertexArray 5, .bindBuffer glElementArrayBuffer 7,
        .bindVertexArray 0, .domPass { elementBuffer := fun v => if v = 5 then 7 else 0 },
        .draw]).drawn =
      (glRun {} [.createVertexArray 5, .bindVertexArray 5, .bindBuffer glElementArrayBuffer 7,
        .bindVertexArray 0, .draw]).drawn := by
  intro h
  have hfirst := congrArg (fun drawn => (drawn.head?.map fun b => b.elementBuffer 0)) h
  exact absurd hfirst (by decide)

end TinyFramework.Js
