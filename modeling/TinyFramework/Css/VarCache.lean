/-
  Css/VarCache.lean --- custom properties and the cache of what they resolve to.

  A `var()` is looked up in the lists of a node and of the nodes above it, then in the global
  registry.  What a text resolves to at a node is kept in a table until the generation is
  bumped; not everything that changes a scope bumps it.  Freed addresses are handed out
  again.

  An entry of this generation holds what its text resolves to at its node.  That depends on the
  properties of the node and of the nodes above it, so an entry stays right while none of
  these is changed, moved or replaced; an entry of an older generation is never read.
-/
import TinyFramework.Dom.Placement
import TinyFramework.Foundation.ProbeTable
import TinyFramework.Foundation.Walk
import Mathlib.Data.List.DropRight

set_option autoImplicit false

namespace TinyFramework.Css

open TinyFramework.Foundation TinyFramework.Dom

/-! ## Resolution -/

/-- A list of `MiniCssVar` or `MiniNodeVar`, names and values. -/
abbrev VarList := List (Bytes × Bytes)

/-- `mini_css_var_get` -/
def miniCssVarGet (vars : VarList) (name : Bytes) : Bytes := (vars.lookup name).getD []

/-- The lists of a node and of those above it, one behind the other; the bound is the number of
addresses. -/
def scopeVars (d : NodeHeap) : Nat → Option NodeId → VarList
  | 0, _ => []
  | _ + 1, none => []
  | fuel + 1, some n => (d.node n).vars ++ scopeVars d fuel (d.node n).parent

/-- `get_var_scoped` -/
def getVarScoped (d : NodeHeap) (vars : VarList) (node : Option NodeId) (name : Bytes) : Bytes :=
  match (scopeVars d d.size node).lookup name with
  | some value => value
  | none => miniCssVarGet vars name

/-- What stands before the parenthesis that closes the open one, or before a comma outside of
inner ones if that ends it too, and what follows. -/
def spanParen (comma : Bool) : Nat → Bytes → Bytes × Bytes
  | _, [] => ([], [])
  | depth, c :: p =>
      if c = 40 then (spanParen comma (depth + 1) p).map (c :: ·) id
      else if c = 41 then
        if depth = 1 then ([], c :: p) else (spanParen comma (depth - 1) p).map (c :: ·) id
      else if comma ∧ c = 44 ∧ depth = 1 then ([], c :: p)
      else (spanParen comma depth p).map (c :: ·) id

/-- The white space on both sides is cut off. -/
def trimmed (t : Bytes) : Bytes := (t.rdropWhile isspace).dropWhile isspace

/-- A name without `--`. -/
def withoutDashes (name : Bytes) : Bytes := if [45, 45] <+: name then name.drop 2 else name

/-- `resolve_one_var_scoped`, behind the letters: what it writes, and where it goes on. -/
def resolveOneVarScoped (scope : Bytes → Bytes) (pp : Bytes) : Bytes × Bytes :=
  match pp.dropWhile isspace with
  | 40 :: p =>
      let (name, p) := spanParen true 1 p
      let (fallback, p) : Option Bytes × Bytes :=
        match p with
        | 44 :: p => (spanParen false 1 p).map (fun t => some (trimmed t)) id
        | p => (none, p)
      let p := match p with
        | 41 :: p => p
        | p => p
      let val := scope (withoutDashes (trimmed name))
      (if val ≠ [] then val else fallback.getD [48], p)
  | p => (ascii "var", p)

/-- `var` with a parenthesis or white space behind it. -/
def opensVar : Bytes → Bool
  | 118 :: 97 :: 114 :: c :: _ => c == 40 || isspace c
  | _ => false

/-- One pass over a text; the bound is its length. -/
def resolvePass (scope : Bytes → Bytes) : Nat → Bytes → Bytes
  | 0, _ => []
  | _ + 1, [] => []
  | fuel + 1, c :: p =>
      if opensVar (c :: p) then
        let (out, rest) := resolveOneVarScoped scope ((c :: p).drop 3)
        out ++ resolvePass scope fuel rest
      else c :: resolvePass scope fuel p

/-- `strstr(cur, "var(") || strstr(cur, "var ")` -/
def hasVar (cur : Bytes) : Bool := ascii "var(" <:+: cur ∨ ascii "var " <:+: cur

def resolvePasses (scope : Bytes → Bytes) : Nat → Bytes → Bytes
  | 0, cur => cur
  | passes + 1, cur =>
      if hasVar cur then resolvePasses scope passes (resolvePass scope cur.length cur) else cur

/-- `resolve_vars_uncached` -/
def resolveVarsUncached (d : NodeHeap) (vars : VarList) (node : Option NodeId) (value : Bytes) :
    Bytes :=
  resolvePasses (getVarScoped d vars node) 8 value

/-! ## The cache -/

/-- `VarCacheEntry`, in a slot that is not empty. -/
structure VarCacheEntry where
  node : Option NodeId
  value : Bytes
  resolved : Bytes
  gen : Nat
  deriving DecidableEq, Repr

/-- The nodes, which addresses are in use, the registry, the cache and its generation. -/
structure VarState where
  heap : NodeHeap
  live : NodeId → Bool
  vars : VarList := []
  cache : ProbeTable VarCacheEntry := ProbeTable.empty
  gen : Nat := 1

/-- Before any allocation, with a number of addresses to hand out. -/
def VarState.start (space : Nat) : VarState :=
  { heap := { size := space, node := fun _ => {} }, live := fun _ => false }

/-- `MINI_VAR_CACHE_CAP` -/
def miniVarCacheCap : Nat := 8192

/-- `var_cache_hash` -/
def varCacheHash (node : Option NodeId) (value : Bytes) : Nat :=
  let np : UInt64 := node.elim 0 UInt64.ofNat
  let np := np ^^^ (np >>> 33)
  let bytes := (List.range 8).map fun i => (np >>> UInt64.ofNat (i * 8)).toUInt8
  (fnv1a (fnv1a fnvOffset bytes) value).toNat % miniVarCacheCap

/-- The slots of the probe chain. -/
def varSlots (node : Option NodeId) (value : Bytes) : List Nat :=
  ProbeTable.chain miniVarCacheCap (varCacheHash node value) 8

namespace VarState

variable (st : VarState)

/-- The entry is for the text at the node, and of this generation. -/
def isHit (node : Option NodeId) (value : Bytes) (e : VarCacheEntry) : Bool :=
  e.gen == st.gen && e.node == node && e.value == value

/-- `mini_css_var_cache_invalidate` -/
def invalidate : VarState := { st with gen := st.gen + 1 }

/-- `var_cache_store` -/
def varCacheStore (node : Option NodeId) (value resolved : Bytes) : VarState :=
  match st.cache.claim (fun e => e.gen != st.gen) (varSlots node value) with
  | none => st
  | some i => { st with cache := st.cache.store i ⟨node, value, resolved, st.gen⟩ }

/-- `mini_css_resolve_vars_node` -/
def miniCssResolveVarsNode (value : Bytes) (node : Option NodeId) : Bytes × VarState :=
  match st.cache.lookup (st.isHit node value) (varSlots node value) with
  | some e => (e.resolved, st)
  | none =>
      let res := resolveVarsUncached st.heap st.vars node value
      (res, st.varCacheStore node value res)

/-- The first value of a name is replaced. -/
def replaceVar (name value : Bytes) : VarList → VarList
  | [] => []
  | v :: vars => if v.1 = name then (name, value) :: vars else v :: replaceVar name value vars

/-- `mini_css_var_set` -/
def miniCssVarSet (name value : Bytes) : VarState :=
  match st.vars.lookup name with
  | some old =>
      if old = value then st
      else { st with vars := replaceVar name value st.vars }.invalidate
  | none => { st with vars := st.vars ++ [(name, value)] }.invalidate

/-- The properties of the node are those of the registry. -/
def isGlobal (n : NodeId) : Bool :=
  (st.heap.node n).tag == some (ascii "html") || (st.heap.node n).type == .documentNode

/-- `mini_node_set_var` -/
def miniNodeSetVar (n : Option NodeId) (name value : Bytes) : VarState :=
  let name := withoutDashes name
  match n with
  | none => st.miniCssVarSet name value
  | some n =>
      if st.isGlobal n then st.miniCssVarSet name value
      else
        { st with
          heap := st.heap.modify n fun r =>
            { r with
              vars := if (r.vars.lookup name).isSome then replaceVar name value r.vars
                else (name, value) :: r.vars } }

/-- `mini_node_create` at an address that `malloc` hands out; NULL when it is in use. -/
def miniNodeCreate (id : NodeId) (type : MiniNodeType) (tag : Option Bytes) : VarState :=
  if id < st.heap.size ∧ st.live id = false then
    { st with
      heap := st.heap.modify id fun _ => { type := type, tag := tag }
      live := fun x => if x = id then true else st.live x }
  else st

/-- The nodes that `mini_node_destroy` frees. -/
def freed (n : NodeId) : List NodeId := walk (children st.heap) st.heap.size n

/-- `mini_node_destroy`: each freed node with properties bumps the generation. -/
def miniNodeDestroy (n : NodeId) : VarState :=
  let gone := st.freed n
  { st with
    heap := { st.heap with node := fun x => if x ∈ gone then {} else st.heap.node x }
    live := fun x => if x ∈ gone then false else st.live x
    gen := st.gen + gone.countP fun x => (st.heap.node x).vars ≠ [] }

end VarState

/-- A mutation of the tree. -/
inductive TreeOp where
  | appendChild (parent child : Option NodeId)
  | insertBefore (parent newChild ref : Option NodeId)
  | removeChild (parent child : Option NodeId)
  deriving DecidableEq, Repr

def TreeOp.call : TreeOp → DomCall
  | appendChild p c => .appendChild p c
  | insertBefore p c r => .insertBefore p c r
  | removeChild p c => .removeChild p c

inductive VarOp where
  | varSet (name value : Bytes)
  | nodeSetVar (n : Option NodeId) (name value : Bytes)
  | create (id : NodeId) (type : MiniNodeType) (tag : Option Bytes)
  | destroy (n : NodeId)
  | mutate (op : TreeOp)
  | resolve (value : Bytes) (node : Option NodeId)
  deriving DecidableEq, Repr

def VarState.step (st : VarState) : VarOp → VarState
  | .varSet name value => st.miniCssVarSet name value
  | .nodeSetVar n name value => st.miniNodeSetVar n name value
  | .create id type tag => st.miniNodeCreate id type tag
  | .destroy n => st.miniNodeDestroy n
  | .mutate op => { st with heap := (op.call.exec st.heap).2 }
  | .resolve value node => (st.miniCssResolveVarsNode value node).2

/-- The state after some calls. -/
def varRun (space : Nat) (ops : List VarOp) : VarState :=
  ops.foldl VarState.step (VarState.start space)

/-! ## What the cache is for -/

/-- A text resolves as without the cache. -/
def VarRight (st : VarState) (value : Bytes) (node : Option NodeId) : Prop :=
  (st.miniCssResolveVarsNode value node).1 = resolveVarsUncached st.heap st.vars node value

/-! ## Where the cache keeps to it -/

/-- A text with a `var()` is cached for the node in this generation. -/
def VarState.CachedAt (st : VarState) (m : NodeId) : Prop :=
  ∃ i e, st.cache i = some e ∧ e.gen = st.gen ∧ e.node = some m ∧ hasVar e.value = true

/-- Calls are on nodes in use; a node that is destroyed has no parent and a mutation makes no
cycle.  A property is set, and a node moved, where nothing is cached at or below it; and an
address is not handed out again while something is cached for it. -/
def SafeVarOp (st : VarState) : VarOp → Prop
  | .varSet _ _ => True
  | .nodeSetVar n _ _ => ∀ x ∈ n, st.live x = true ∧
      (st.isGlobal x = false → ∀ m, st.CachedAt m → ¬ Below st.heap.parentOf m x)
  | .create id _ _ => ¬ st.CachedAt id
  | .destroy n => st.live n = true ∧ st.heap.parentOf n = none
  | .mutate op =>
      (∀ a ∈ op.call.args, ∀ i ∈ a, st.live i = true) ∧ callSafe st.heap op.call = true ∧
        ∀ m, st.CachedAt m → ∀ c ∈ (op.call.placement st.heap).dropped ++
          (op.call.placement st.heap).placed, ¬ Below st.heap.parentOf m c
  | .resolve _ node => ∀ x ∈ node, st.live x = true

/-- Every call is safe in the state it meets. -/
def SafeVarOps : VarState → List VarOp → Prop
  | _, [] => True
  | st, op :: ops => SafeVarOp st op ∧ SafeVarOps (st.step op) ops

/-! ## The cache of resolved texts stays coherent -/

variable {st st' : VarState}

/-! ## Scopes -/

theorem resolvePasses_of_noVar (scope : Bytes → Bytes) {value : Bytes}
    (hvar : hasVar value = false) (passes : Nat) : resolvePasses scope passes value = value := by
  cases passes with
  | zero => rfl
  | succ passes =>
      rw [resolvePasses, hvar]
      exact if_neg Bool.false_ne_true

/-- The properties and the parents on the way up are the same. -/
def SameAbove (d d' : NodeHeap) (m : NodeId) : Prop :=
  ∀ a, Below d.parentOf m a → (d'.node a).vars = (d.node a).vars ∧ d'.parentOf a = d.parentOf a

theorem scopeVars_congr {d d' : NodeHeap} (fuel : Nat) {m : NodeId} (h : SameAbove d d' m) :
    scopeVars d' fuel (some m) = scopeVars d fuel (some m) := by
  induction fuel generalizing m with
  | zero => rfl
  | succ fuel ih =>
      obtain ⟨hvars, hparent⟩ := h m (Below.refl m)
      unfold NodeHeap.parentOf at hparent
      rw [scopeVars, scopeVars, hvars, hparent]
      cases hp : (d.node m).parent with
      | none => cases fuel <;> rfl
      | some p =>
          rw [ih]
          intro a ha
          exact h a (Below.head hp ha)

theorem resolveVarsUncached_congr {d d' : NodeHeap} {vars : VarList} {node : Option NodeId}
    (hsize : d'.size = d.size) (h : ∀ m ∈ node, SameAbove d d' m) (value : Bytes) :
    resolveVarsUncached d' vars node value = resolveVarsUncached d vars node value := by
  have hscope : getVarScoped d' vars node = getVarScoped d vars node := by
    funext name
    unfold getVarScoped
    rw [hsize]
    cases node with
    | none =>
        cases d.size <;> rfl
    | some m => rw [scopeVars_congr d.size (h m rfl)]
  unfold resolveVarsUncached
  rw [hscope]

/-! ## Entries -/

/-- What an entry holds while it is of this generation and its node in use. -/
structure EntryRight (st : VarState) (e : VarCacheEntry) : Prop where
  gen : e.gen ≤ st.gen
  plain : hasVar e.value = false → e.resolved = e.value
  resolved : e.gen = st.gen → (∀ x ∈ e.node, st.live x = true) →
    e.resolved = resolveVarsUncached st.heap st.vars e.node e.value

/-- Nothing of an older generation is read. -/
theorem EntryRight.outdated {e : VarCacheEntry} (h : EntryRight st e) (hgen : st.gen < st'.gen) :
    EntryRight st' e := by
  refine ⟨Nat.le_of_lt (Nat.lt_of_le_of_lt h.gen hgen), h.plain, ?_⟩
  intro heq
  exact absurd h.gen (Nat.not_le.2 (heq ▸ hgen))

/-- The entries stay right while the scopes of the cached nodes do. -/
theorem entries_keep (st : VarState) {st' : VarState}
    (h : ProbeTable.Holds (EntryRight st) st.cache) (hgen : st'.gen = st.gen)
    (hvars : st'.vars = st.vars) (hsize : st'.heap.size = st.heap.size)
    (hscope : ∀ m, st.CachedAt m → st'.live m = true →
      st.live m = true ∧ SameAbove st.heap st'.heap m) :
    ProbeTable.Holds (EntryRight st') st.cache := by
  intro i e he
  have hright := h i e he
  refine ⟨hgen ▸ hright.gen, hright.plain, ?_⟩
  intro hcurrent hlive
  cases hvar : hasVar e.value with
  | false =>
      rw [resolveVarsUncached, resolvePasses_of_noVar _ hvar]
      exact hright.plain hvar
  | true =>
      rw [hgen] at hcurrent
      have hkept : ∀ m ∈ e.node, st.live m = true ∧ SameAbove st.heap st'.heap m :=
        fun m hm => hscope m ⟨i, e, he, hcurrent, hm, hvar⟩ (hlive m hm)
      rw [hvars, resolveVarsUncached_congr hsize fun m hm => (hkept m hm).2]
      exact hright.resolved hcurrent fun m hm => (hkept m hm).1

/-! ## The invariant -/

/-- The tree is one of nodes in use, and the entries are right. -/
structure VarInv (st : VarState) : Prop where
  wf : WellFormed st.heap
  shadow : ∀ x, (st.heap.node x).shadowRoot = none
  live_lt : ∀ x, st.live x = true → x < st.heap.size
  parents : ∀ x p, st.heap.parentOf x = some p → st.live x = true ∧ st.live p = true
  entries : ProbeTable.Holds (EntryRight st) st.cache

theorem varInv_start (space : Nat) : VarInv (VarState.start space) :=
  ⟨wellFormed_of_bare fun _ => rfl, fun _ => rfl, nofun, nofun, ProbeTable.holds_empty⟩

/-- What is cached is what is found without the cache. -/
theorem VarInv.right (h : VarInv st) (value : Bytes) {node : Option NodeId}
    (hlive : ∀ x ∈ node, st.live x = true) : VarRight st value node := by
  unfold VarRight VarState.miniCssResolveVarsNode
  cases hcached : st.cache.lookup (st.isHit node value) (varSlots node value) with
  | none => rfl
  | some e =>
      obtain ⟨hhit, hright⟩ := h.entries.lookup hcached
      unfold VarState.isHit at hhit
      rw [Bool.and_eq_true, Bool.and_eq_true, beq_iff_eq, beq_iff_eq, beq_iff_eq] at hhit
      obtain ⟨⟨hgen, rfl⟩, rfl⟩ := hhit
      exact hright.resolved hgen hlive

theorem VarInv.resolve (h : VarInv st) (value : Bytes) (node : Option NodeId) :
    VarInv (st.miniCssResolveVarsNode value node).2 := by
  unfold VarState.miniCssResolveVarsNode
  split
  · exact h
  · unfold VarState.varCacheStore
    dsimp only
    split
    · exact h
    · refine ⟨h.wf, h.shadow, h.live_lt, h.parents, ?_⟩
      refine ProbeTable.Holds.store (h.entries.imp fun e he => ⟨he.gen, he.plain, he.resolved⟩) _ ?_
      exact ⟨Nat.le_refl _, fun hvar => resolvePasses_of_noVar _ hvar 8, fun _ _ => rfl⟩

/-! ## Properties -/

theorem VarInv.invalidated (h : VarInv st) (vars : VarList) :
    VarInv { st with vars := vars, gen := st.gen + 1 } :=
  ⟨h.wf, h.shadow, h.live_lt, h.parents,
    h.entries.imp fun _ he => he.outdated (Nat.lt_succ_self _)⟩

theorem VarInv.varSet (h : VarInv st) (name value : Bytes) :
    VarInv (st.miniCssVarSet name value) := by
  unfold VarState.miniCssVarSet
  split
  · split
    · exact h
    · exact h.invalidated _
  · exact h.invalidated _

/-- The record of a node is changed in its properties. -/
theorem VarInv.setVars (h : VarInv st) {n : NodeId} (vars : VarList)
    (hsafe : ∀ m, st.CachedAt m → ¬ Below st.heap.parentOf m n) :
    VarInv { st with heap := st.heap.modify n fun r => { r with vars := vars } } := by
  have hfield : ∀ {β : Type} (g : MiniNode → β),
      (∀ r : MiniNode, g { r with vars := vars } = g r) →
        ∀ x, g ((st.heap.modify n fun r => { r with vars := vars }).node x) = g (st.heap.node x) := by
    intro β g hg x
    rw [NodeHeap.modify_node]
    split
    · exact hg _
    · rfl
  have hsame : SamePointers st.heap (st.heap.modify n fun r => { r with vars := vars }) :=
    ⟨rfl, hfield MiniNode.parent fun _ => rfl, hfield MiniNode.nextSibling fun _ => rfl,
      hfield MiniNode.prevSibling fun _ => rfl, hfield MiniNode.firstChild fun _ => rfl,
      hfield MiniNode.lastChild fun _ => rfl, hfield MiniNode.shadowRoot fun _ => rfl,
      hfield MiniNode.type fun _ => rfl⟩
  refine ⟨(hsame.wellFormed h.wf).1, ?_, h.live_lt, ?_, ?_⟩
  · intro x
    exact (hsame.shadow x).trans (h.shadow x)
  · intro x p hp
    rw [hsame.parentOf] at hp
    exact h.parents x p hp
  · refine entries_keep st h.entries rfl rfl rfl fun m hm hlive => ⟨hlive, fun a ha => ⟨?_, ?_⟩⟩
    · have hne : a ≠ n := by
        rintro rfl
        exact hsafe m hm ha
      rw [NodeHeap.modify_node, if_neg hne]
    · exact congrFun hsame.parentOf a

theorem VarInv.nodeSetVar (h : VarInv st) {n : Option NodeId} {name value : Bytes}
    (hsafe : SafeVarOp st (.nodeSetVar n name value)) :
    VarInv (st.miniNodeSetVar n name value) := by
  unfold VarState.miniNodeSetVar
  cases n with
  | none => exact h.varSet _ _
  | some n =>
      dsimp only
      cases hglobal : st.isGlobal n with
      | true => exact h.varSet _ _
      | false =>
          have hset := h.setVars (if ((st.heap.node n).vars.lookup (withoutDashes name)).isSome
            then VarState.replaceVar (withoutDashes name) value (st.heap.node n).vars
            else (withoutDashes name, value) :: (st.heap.node n).vars)
            ((hsafe n rfl).2 hglobal)
          rw [if_neg Bool.false_ne_true]
          convert hset using 2
          unfold NodeHeap.modify
          congr 1
          funext x
          by_cases hx : x = n
          · rw [if_pos hx, if_pos hx, hx]
          · rw [if_neg hx, if_neg hx]

/-! ## Nodes -/

/-- Nothing is on the way up to an address that is not in use. -/
theorem VarInv.eq_of_below_unused (h : VarInv st) {m a : NodeId} (ha : st.live a = false)
    (hbelow : Below st.heap.parentOf m a) : m = a := by
  rcases Relation.ReflTransGen.cases_tail hbelow with heq | ⟨q, _, hq⟩
  · exact heq.symm
  · have hlive := (h.parents q a hq).2
    rw [ha] at hlive
    cases hlive

theorem VarInv.create (h : VarInv st) (id : NodeId) (type : MiniNodeType) (tag : Option Bytes)
    (hsafe : ¬ st.CachedAt id) : VarInv (st.miniNodeCreate id type tag) := by
  unfold VarState.miniNodeCreate
  by_cases hfree : id < st.heap.size ∧ st.live id = false
  swap
  · rw [if_neg hfree]
    exact h
  rw [if_pos hfree]
  have hold : ∀ x, x ≠ id →
      (st.heap.modify id fun _ => { type := type, tag := tag }).node x = st.heap.node x :=
    fun x hx => if_neg hx
  have hnew : (st.heap.modify id fun _ => { type := type, tag := tag }).node id =
      { type := type, tag := tag } := if_pos rfl
  -- the address is in no child list and has none
  have hunused : ∀ x p, st.heap.parentOf x = some p → x ≠ id ∧ p ≠ id := by
    intro x p hp
    obtain ⟨hx, hp⟩ := h.parents x p hp
    constructor
    · rintro rfl
      exact Bool.false_ne_true (hfree.2.symm.trans hx)
    · rintro rfl
      exact Bool.false_ne_true (hfree.2.symm.trans hp)
  have hblank : Blanked (· = id) st.heap
      (st.heap.modify id fun _ => { type := type, tag := tag }) := by
    refine ⟨rfl, hold, ?_, ?_, ?_, ?_, ?_, ?_⟩
    iterate 5
      rintro x rfl
      rw [hnew]
    intro c p hp
    exact iff_of_false (hunused c p hp).1 (hunused c p hp).2
  refine ⟨hblank.wellFormed h.wf, ?_, ?_, ?_, ?_⟩
  · intro x
    dsimp only
    by_cases hx : x = id
    · rw [hx, hnew]
    · rw [hold x hx]
      exact h.shadow x
  · intro x hx
    dsimp only at hx
    split at hx
    · next heq => exact heq ▸ hfree.1
    · exact h.live_lt x hx
  · intro x p hp
    obtain ⟨hxid, hpid, hp⟩ := hblank.parentOf hp
    dsimp only
    rw [if_neg hxid, if_neg hpid]
    exact h.parents x p hp
  · refine entries_keep st h.entries rfl rfl rfl fun m hcached hlive => ?_
    have hm : m ≠ id := by
      rintro rfl
      exact hsafe hcached
    dsimp only at hlive
    rw [if_neg hm] at hlive
    refine ⟨hlive, fun a ha => ?_⟩
    have hne : a ≠ id := by
      rintro rfl
      exact hm (h.eq_of_below_unused hfree.2 ha)
    dsimp only
    rw [NodeHeap.parentOf, hold a hne]
    exact ⟨rfl, rfl⟩

/-- A node is freed with the nodes below it. -/
theorem VarInv.mem_freed (h : VarInv st) {n x : NodeId} (hn : n < st.heap.size) :
    x ∈ st.freed n ↔ Below st.heap.parentOf x n := by
  have hm := h.wf.mirrors
  have hdown : GoesDown st.heap.parentOf (children st.heap) := fun p c hc => hm.parent p c hc
  refine ⟨fun hx => hdown.below_of_mem hx, fun hx => ?_⟩
  have hroom : ∀ y, Below st.heap.parentOf y n → y ∈ Finset.range st.heap.size := by
    intro y hy
    rw [Finset.mem_range]
    rcases hy.eq_or_parent with rfl | ⟨p, hp, _⟩
    · exact hn
    · exact (hm.allocated y p hp).1
  have hcount := h.wf.acyclic.count_walk_eq_one hdown hroom
    (Nat.le_of_eq (Finset.card_range _)) hx (by
      intro p c hp _ _
      rcases hm.listed c p hp with hc | ⟨hs, _⟩
      · exact List.count_eq_one_of_mem (hm.nodup p) hc
      · rw [h.shadow p] at hs
        cases hs)
  unfold VarState.freed
  exact List.count_pos_iff.1 (by rw [hcount]; exact Nat.one_pos)

/-- A tree is freed whole, so no kept node points to a freed one. -/
theorem VarInv.blanked_destroy (h : VarInv st) {n : NodeId} (hlive : st.live n = true)
    (hroot : st.heap.parentOf n = none) :
    Blanked (· ∈ st.freed n) st.heap (st.miniNodeDestroy n).heap := by
  have hgone : ∀ x, x ∈ st.freed n → (st.miniNodeDestroy n).heap.node x = {} :=
    fun x hx => if_pos hx
  refine ⟨rfl, fun x hx => if_neg hx, ?_, ?_, ?_, ?_, ?_, ?_⟩
  iterate 5
    intro x hx
    rw [hgone x hx]
  intro c p hp
  rw [h.mem_freed (h.live_lt n hlive), h.mem_freed (h.live_lt n hlive)]
  constructor
  · intro hc
    rcases hc.eq_or_parent with rfl | ⟨q, hq, hqn⟩
    · rw [hroot] at hp
      cases hp
    · rw [hp] at hq
      cases hq
      exact hqn
  · exact Below.head hp

theorem VarInv.destroy (h : VarInv st) {n : NodeId} (hlive : st.live n = true)
    (hroot : st.heap.parentOf n = none) : VarInv (st.miniNodeDestroy n) := by
  have hblank := h.blanked_destroy hlive hroot
  refine ⟨hblank.wellFormed h.wf, ?_, ?_, ?_, ?_⟩
  · intro x
    by_cases hx : x ∈ st.freed n
    · exact congrArg MiniNode.shadowRoot (if_pos hx)
    · rw [hblank.kept x hx]
      exact h.shadow x
  · intro x hx
    apply h.live_lt x
    unfold VarState.miniNodeDestroy at hx
    dsimp only at hx
    split at hx
    · cases hx
    · exact hx
  · intro x p hp
    obtain ⟨hxf, hpf, hp⟩ := hblank.parentOf hp
    obtain ⟨hx, hp⟩ := h.parents x p hp
    unfold VarState.miniNodeDestroy
    dsimp only
    rw [if_neg hxf, if_neg hpf]
    exact ⟨hx, hp⟩
  · -- above a kept node are kept nodes only, so without a bump its entries stay right
    rcases Nat.eq_or_lt_of_le (Nat.le_add_right st.gen
      ((st.freed n).countP fun x => (st.heap.node x).vars ≠ [])) with hsame | hbumped
    · refine entries_keep st h.entries hsame.symm rfl rfl fun m _ hlivem => ?_
      unfold VarState.miniNodeDestroy at hlivem
      dsimp only at hlivem
      split at hlivem
      · cases hlivem
      · next hmf =>
        refine ⟨hlivem, fun a ha => ?_⟩
        have hmem := fun x => h.mem_freed (x := x) (h.live_lt n hlive)
        have haf : a ∉ st.freed n := by
          intro haf
          exact hmf ((hmem m).2 (ha.trans ((hmem a).1 haf)))
        rw [NodeHeap.parentOf, hblank.kept a haf]
        exact ⟨rfl, rfl⟩
    · exact h.entries.imp fun e he => he.outdated hbumped

/-! ## The tree -/

theorem sameContent_treeOp (d : NodeHeap) (op : TreeOp) : SameContent d (op.call.exec d).2 := by
  cases op with
  | appendChild p c => exact .appendChild d p c
  | insertBefore p c r => exact .insertBefore d p c r
  | removeChild p c => exact .removeChild d p c

/-- What a mutation places and where is in use. -/
theorem VarInv.placed_live (h : VarInv st) {op : TreeOp}
    (hargs : ∀ a ∈ op.call.args, ∀ i ∈ a, st.live i = true) {x p : NodeId}
    (hx : x ∈ (op.call.placement st.heap).placed)
    (hp : (op.call.placement st.heap).target = some p) :
    st.live x = true ∧ st.live p = true := by
  have happend : ∀ q c, st.live q = true → st.live c = true →
      x ∈ (appendPlacement st.heap q c).placed →
      (appendPlacement st.heap q c).target = some p → st.live x = true ∧ st.live p = true := by
    intro q c hq hc hx hp
    obtain rfl : q = p := Option.some.inj hp
    refine ⟨?_, hq⟩
    unfold appendPlacement at hx
    dsimp only at hx
    split at hx
    · exact (h.parents x c (h.wf.mirrors.parent c x hx)).1
    · rw [List.mem_singleton.1 hx]
      exact hc
  cases op with
  | appendChild q c =>
      cases q with
      | none => cases hx
      | some q =>
          cases c with
          | none => cases hx
          | some c =>
              exact happend q c (hargs _ List.mem_cons_self q rfl)
                (hargs _ (List.mem_cons_of_mem _ List.mem_cons_self) c rfl) hx hp
  | insertBefore q c r =>
      cases q with
      | none => cases hx
      | some q =>
          cases c with
          | none => cases hx
          | some c =>
              have hq := hargs _ List.mem_cons_self q rfl
              have hc := hargs _ (List.mem_cons_of_mem _ List.mem_cons_self) c rfl
              cases r with
              | none => exact happend q c hq hc hx hp
              | some r =>
                  obtain rfl : q = p := Option.some.inj hp
                  rw [List.mem_singleton.1 hx]
                  exact ⟨hc, hq⟩
  | removeChild q c =>
      cases q with
      | none => cases hx
      | some q =>
          cases c with
          | none => cases hx
          | some c =>
              rw [TreeOp.call, DomCall.placement] at hx
              split at hx <;> cases hx

theorem VarInv.mutate (h : VarInv st) {op : TreeOp} (hsafe : SafeVarOp st (.mutate op)) :
    VarInv { st with heap := (op.call.exec st.heap).2 } := by
  obtain ⟨hargs, hcall, happart⟩ := hsafe
  have hsame := sameContent_treeOp st.heap op
  have hex : op.call.Existing st.heap := fun a ha i hi => h.live_lt i (hargs a ha i hi)
  have hparent := h.wf.exec_parent hex hcall
  refine ⟨h.wf.exec hex hcall, ?_, ?_, ?_, ?_⟩
  · intro x
    exact (shadowRoot_of_sameContent hsame x).trans (h.shadow x)
  · intro x hx
    exact Nat.lt_of_lt_of_eq (h.live_lt x hx) hsame.1.symm
  · intro x p hp
    have hp' := (hparent x).symm.trans hp
    split at hp'
    · cases hp'
    split at hp'
    · next hplaced => exact h.placed_live hargs hplaced hp'
    · exact h.parents x p hp'
  · refine entries_keep st h.entries rfl rfl hsame.1 fun m hm hlive => ⟨hlive, fun a ha => ⟨?_, ?_⟩⟩
    · exact field_of_bare MiniNode.vars (hsame.2 a) fun _ => rfl
    · have hstay : a ∉ (op.call.placement st.heap).dropped ∧
          a ∉ (op.call.placement st.heap).placed := by
        rw [← not_or, ← List.mem_append]
        exact fun hmem => happart m hm a hmem ha
      have hpa := hparent a
      rw [if_neg hstay.1, if_neg hstay.2] at hpa
      exact hpa

/-! ## Runs -/

theorem VarInv.step (h : VarInv st) {op : VarOp} (hsafe : SafeVarOp st op) :
    VarInv (st.step op) := by
  cases op with
  | varSet name value => exact h.varSet name value
  | nodeSetVar n name value => exact h.nodeSetVar hsafe
  | create id type tag => exact h.create id type tag hsafe
  | destroy n => exact h.destroy hsafe.1 hsafe.2
  | mutate op => exact h.mutate hsafe
  | resolve value node => exact h.resolve value node

theorem VarInv.run (h : VarInv st) (ops : List VarOp) (hsafe : SafeVarOps st ops) :
    VarInv (ops.foldl VarState.step st) := by
  induction ops generalizing st with
  | nil => exact h
  | cons op ops ih =>
      rw [List.foldl_cons]
      exact ih (h.step hsafe.1) hsafe.2

/-- After every run of safe calls a text resolves at a node in use as without the cache. -/
theorem varRun_right (space : Nat) (ops : List VarOp)
    (hsafe : SafeVarOps (VarState.start space) ops) (value : Bytes) (node : Option NodeId)
    (hlive : ∀ x ∈ node, (varRun space ops).live x = true) :
    VarRight (varRun space ops) value node :=
  ((varInv_start space).run ops hsafe).right value hlive

/-- A property of the node is set before its text is first resolved. -/
theorem varRun_right_setFirst :
    VarRight (varRun 2 [.create 0 .elementNode (some (ascii "div")),
      .nodeSetVar (some 0) (ascii "--x") (ascii "red"), .resolve (ascii "var(--x)") (some 0),
      .varSet (ascii "y") (ascii "blue")]) (ascii "var(--x)") (some 0) := by
  have hsafe : SafeVarOps (VarState.start 2) [.create 0 .elementNode (some (ascii "div")),
      .nodeSetVar (some 0) (ascii "--x") (ascii "red"), .resolve (ascii "var(--x)") (some 0),
      .varSet (ascii "y") (ascii "blue")] := by
    refine ⟨?_, ?_, ?_, trivial, trivial⟩
    · rintro ⟨i, e, he, _⟩
      cases he
    · rintro x ⟨⟩
      refine ⟨rfl, fun _ m hm => ?_⟩
      obtain ⟨i, e, he, _⟩ := hm
      cases he
    · rintro x ⟨⟩
      rfl
  apply varRun_right 2 _ hsafe
  rintro x ⟨⟩
  rfl

/-- A property that is set after its text was resolved is not seen. -/
theorem varRun_stale_setLater :
    ¬ VarRight (varRun 2 [.create 0 .elementNode (some (ascii "div")),
      .nodeSetVar (some 0) (ascii "--x") (ascii "red"), .resolve (ascii "var(--x)") (some 0),
      .nodeSetVar (some 0) (ascii "--x") (ascii "blue")]) (ascii "var(--x)") (some 0) := by
  unfold VarRight
  decide

end TinyFramework.Css
