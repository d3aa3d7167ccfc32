/-
  Net/KeepAlive.lean --- the keep-alive pool of `mini_net.c`.

  Any number of requests run at once; each section under the lock is one step, and so is what a
  request does to the slot that it holds.  The kernel hands out descriptors that are not open.  The
  TLS contexts of a slot are left out: they are set up and freed with its descriptor.
-/
import Mathlib.Data.List.FinRange
import TinyFramework.Foundation.Ascii
import TinyFramework.Foundation.Histories

set_option autoImplicit false

namespace TinyFramework.Net

open TinyFramework.Foundation

/-! ## The pool -/

/-- `NET_INVALID` -/
def netInvalid : Int := -1

/-- `KA_CAP` -/
def kaCap : Nat := 16

/-- What a connection is opened for. -/
structure KaKey where
  host : Bytes
  port : Int
  isHttps : Bool
  deriving DecidableEq

/-- `KaConn` -/
structure KaConn where
  key : KaKey
  fd : Int
  valid : Bool
  inUse : Bool
  lastUsed : Int

/-- A slot of the static array. -/
def zeroed : KaConn :=
  { key := { host := [], port := 0, isHttps := false }, fd := 0, valid := false, inUse := false
    lastUsed := 0 }

/-- `ka_close_slot` -/
def kaCloseSlot (c : KaConn) : KaConn := { c with fd := netInvalid, valid := false }

/-- The descriptor that it closes. -/
def closedFd (c : KaConn) : Option Int := if c.fd ≠ netInvalid then some c.fd else none

/-- How far a request has come with its slot. -/
inductive KaStage where
  | acquired | connected | ready
  deriving DecidableEq

/-- A request that holds a slot. -/
structure KaHold where
  slot : Fin kaCap
  key : KaKey
  reused : Bool
  stage : KaStage

/-- A descriptor that a request has opened into a slot. -/
structure KaOpen where
  fd : Int
  slot : Fin kaCap
  key : KaKey
  deriving DecidableEq

/-- The pool, the requests that hold a slot, the descriptors that are open, and the slots that a
descriptor has been put into. -/
structure KaPool where
  slots : Fin kaCap → KaConn
  holds : Nat → Option KaHold
  opened : List KaOpen
  connects : List (Fin kaCap)
  down : Bool

def KaPool.start : KaPool :=
  { slots := fun _ => zeroed, holds := fun _ => none, opened := [], connects := [], down := false }

/-- The slots in the order of the loops. -/
def KaPool.first (s : KaPool) (p : KaConn → Bool) : Option (Fin kaCap) :=
  (List.finRange kaCap).find? fun i => p (s.slots i)

/-- The oldest idle entry. -/
def KaPool.oldest (s : KaPool) : Option (Fin kaCap) :=
  (List.finRange kaCap).foldl (fun oldest i =>
    let c := s.slots i
    if c.valid = true ∧ c.inUse = false ∧
        ∀ j ∈ oldest, c.lastUsed < (s.slots j).lastUsed then some i
    else oldest) none

/-- What `ka_acquire` finds: the slot, whether it is reused, and whether it is closed first. -/
inductive KaFound where
  | idle (i : Fin kaCap)
  | free (i : Fin kaCap)
  | evicted (i : Fin kaCap)
  | busy

/-- The three loops of `ka_acquire`. -/
def KaPool.find (s : KaPool) (key : KaKey) : KaFound :=
  match s.first fun c => c.valid && !c.inUse && decide (c.key = key) with
  | some i => .idle i
  | none =>
      match s.first fun c => !c.valid && !c.inUse with
      | some i => .free i
      | none =>
          match s.oldest with
          | some i => .evicted i
          | none => .busy

/-- A change of one slot. -/
def KaPool.setSlot (s : KaPool) (i : Fin kaCap) (c : KaConn) : KaPool :=
  { s with slots := Function.update s.slots i c }

def KaPool.setHold (s : KaPool) (r : Nat) (h : Option KaHold) : KaPool :=
  { s with holds := Function.update s.holds r h }

/-- `ka_close_slot` on a slot of the pool: its descriptor is open no more. -/
def KaPool.closeSlot (s : KaPool) (i : Fin kaCap) : KaPool :=
  { s.setSlot i (kaCloseSlot (s.slots i)) with
    opened := s.opened.filter fun o => !(decide (o.slot = i) && decide (o.fd = (s.slots i).fd)) }

/-- `in_use = 1`, for a request. -/
def KaPool.take (s : KaPool) (r : Nat) (key : KaKey) (i : Fin kaCap) (reused : Bool) : KaPool :=
  (s.setSlot i { s.slots i with inUse := true }).setHold r
    (some { slot := i, key := key, reused := reused, stage := .acquired })

/-- `ka_acquire`; `enabled` is `g_keepalive_enabled`. -/
def kaAcquire (enabled : Bool) (s : KaPool) (r : Nat) (key : KaKey) : KaPool :=
  if enabled = false then s
  else
    match s.find key with
    | .idle i => s.take r key i true
    | .free i => s.take r key i false
    | .evicted i => (s.closeSlot i).take r key i false
    | .busy => s

/-- `ka_release` -/
def kaRelease (s : KaPool) (i : Fin kaCap) (reusable : Bool) (now : Int) : KaPool :=
  if reusable = true ∧ (s.slots i).valid = true then
    s.setSlot i { s.slots i with inUse := false, lastUsed := now }
  else (s.closeSlot i).setSlot i { kaCloseSlot (s.slots i) with inUse := false }

/-- `ka_shutdown_all` -/
def kaShutdownAll (s : KaPool) : KaPool := (List.finRange kaCap).foldl KaPool.closeSlot s

/-! ## Runs -/

/-- The steps of the requests, and the end. -/
inductive KaStep where
  | acquire (r : Nat) (key : KaKey)
  /-- a descriptor is put into the slot -/
  | connect (r : Nat) (fd : Int)
  /-- the handshake has succeeded, or there is none -/
  | verify (r : Nat)
  /-- a reused connection is used as it is -/
  | resume (r : Nat)
  | release (r : Nat) (reusable : Bool) (now : Int)
  | shutdown

/-- One step; a request does only what comes next for it, and nothing comes behind the end. -/
def KaStep.exec (enabled : Bool) (s : KaPool) (step : KaStep) : KaPool :=
  if s.down = true then s
  else
    match step with
    | .acquire r key => if s.holds r = none then kaAcquire enabled s r key else s
    | .connect r fd =>
        match s.holds r with
        | none => s
        | some h =>
            if h.stage = .acquired ∧ 0 ≤ fd ∧ ∀ o ∈ s.opened, o.fd ≠ fd then
              { (s.setSlot h.slot { s.slots h.slot with fd := fd, key := h.key }).setHold r
                  (some { h with stage := .connected }) with
                opened := { fd := fd, slot := h.slot, key := h.key } :: s.opened
                connects := h.slot :: s.connects }
            else s
    | .verify r =>
        match s.holds r with
        | none => s
        | some h =>
            if h.stage = .connected then
              (s.setSlot h.slot { s.slots h.slot with valid := true }).setHold r
                (some { h with stage := .ready })
            else s
    | .resume r =>
        match s.holds r with
        | none => s
        | some h =>
            if h.stage = .acquired ∧ h.reused = true then
              s.setHold r (some { h with stage := .ready })
            else s
    | .release r reusable now =>
        match s.holds r with
        | none => s
        | some h =>
            if reusable = true ∧ h.stage ≠ .ready then s
            else (kaRelease s h.slot reusable now).setHold r none
    | .shutdown => { kaShutdownAll s with down := true }

/-- The slots that a step closes. -/
def KaStep.closes (enabled : Bool) (s : KaPool) (step : KaStep) : List (Fin kaCap) :=
  if s.down = true then []
  else
    match step with
    | .acquire r key =>
        if s.holds r = none ∧ enabled = true then
          match s.find key with
          | .evicted i => [i]
          | _ => []
        else []
    | .release r reusable _ =>
        match s.holds r with
        | none => []
        | some h =>
            if reusable = true ∧ (h.stage ≠ .ready ∨ (s.slots h.slot).valid = true) then []
            else [h.slot]
    | .shutdown => List.finRange kaCap
    | _ => []

/-- The state behind some steps. -/
def kaRun (enabled : Bool) (steps : List KaStep) : KaPool :=
  steps.foldl (KaStep.exec enabled) KaPool.start

/-- The descriptor of a slot was opened into it for a key, and is open. -/
def KaPool.Live (s : KaPool) (i : Fin kaCap) (key : KaKey) : Prop :=
  ∃ o ∈ s.opened, o.slot = i ∧ o.fd = (s.slots i).fd ∧ o.key = key

/-- No slot is held twice, and before the end a connection that is reused or in use was opened for
what the request wants. -/
structure StateRight (s : KaPool) : Prop where
  apart : ∀ r r' h h', s.holds r = some h → s.holds r' = some h' → h.slot = h'.slot → r = r'
  live : s.down = false → ∀ r h, s.holds r = some h →
    h.reused = true ∨ h.stage ≠ .acquired → s.Live h.slot h.key

/-- Every descriptor that a step closes is one that was opened into that slot, and was not closed
since. -/
def StepRight (enabled : Bool) (s : KaPool) (step : KaStep) : Prop :=
  ∀ i ∈ step.closes enabled s, ∀ fd ∈ closedFd (s.slots i),
    ∃ o ∈ s.opened, o.slot = i ∧ o.fd = fd

/-- The accounting of the pool. -/
def KaLaw (enabled : Bool) (steps : List KaStep) : Prop :=
  (∀ pre post, steps = pre ++ post → StateRight (kaRun enabled pre)) ∧
    ∀ pre a post, steps = pre ++ a :: post → StepRight enabled (kaRun enabled pre) a

/-- A step closes only slots that a descriptor has been put into. -/
def SlotsUsed (enabled : Bool) (s : KaPool) (step : KaStep) : Prop :=
  ∀ i ∈ step.closes enabled s, i ∈ s.connects

/-! ## The invariant -/

/-- What the flags and the descriptor of a slot say, before the end. -/
structure KaInv (s : KaPool) : Prop where
  inUse : ∀ r h, s.holds r = some h → (s.slots h.slot).inUse = true
  apart : ∀ r r' h h', s.holds r = some h → s.holds r' = some h' → h.slot = h'.slot → r = r'
  owned : ∀ o ∈ s.opened, o.slot ∈ s.connects ∧ 0 ≤ o.fd
  fresh : ∀ i, i ∉ s.connects → (s.slots i).fd = 0 ∧ (s.slots i).valid = false
  live : ∀ i ∈ s.connects, (s.slots i).fd = netInvalid ∨ s.Live i (s.slots i).key
  valid : ∀ i, (s.slots i).valid = true → i ∈ s.connects ∧ (s.slots i).fd ≠ netInvalid
  going : ∀ r h, s.holds r = some h → h.reused = true ∨ h.stage ≠ .acquired →
    (s.slots h.slot).key = h.key ∧ h.slot ∈ s.connects ∧ (s.slots h.slot).fd ≠ netInvalid

variable {s : KaPool} {r : Nat} {i : Fin kaCap}

theorem KaInv.stateRight (h : KaInv s) : StateRight s := by
  refine ⟨h.apart, fun _ r hold hhold hstage => ?_⟩
  obtain ⟨hkey, hconnect, hfd⟩ := h.going r hold hhold hstage
  rw [← hkey]
  exact (h.live hold.slot hconnect).resolve_left hfd

/-- A slot is closed right exactly if a descriptor has been put into it. -/
theorem KaInv.close_iff (h : KaInv s) (i : Fin kaCap) :
    (∀ fd ∈ closedFd (s.slots i), ∃ o ∈ s.opened, o.slot = i ∧ o.fd = fd) ↔ i ∈ s.connects := by
  constructor
  · intro hright
    by_contra hno
    have hzero : closedFd (s.slots i) = some 0 := by
      unfold closedFd
      rw [(h.fresh i hno).1]
      rfl
    obtain ⟨o, ho, hslot, -⟩ := hright 0 hzero
    exact hno (hslot ▸ (h.owned o ho).1)
  · intro hconnect fd hfd
    unfold closedFd at hfd
    split_ifs at hfd with hvalid
    · obtain rfl := Option.some.inj hfd
      obtain ⟨o, ho, hslot, hfd, -⟩ := (h.live i hconnect).resolve_left hvalid
      exact ⟨o, ho, hslot, hfd⟩
    · cases hfd

theorem KaInv.stepRight_iff {enabled : Bool} (h : KaInv s) (step : KaStep) :
    StepRight enabled s step ↔ SlotsUsed enabled s step :=
  forall₂_congr fun i _ => h.close_iff i

/-! ## What the changes keep -/

theorem KaInv.dropHold (h : KaInv s) (r : Nat) : KaInv (s.setHold r none) := by
  have hold : ∀ r' h', (s.setHold r none).holds r' = some h' → s.holds r' = some h' := by
    intro r' h' hr'
    by_cases heq : r' = r
    · rw [heq] at hr'
      simp [KaPool.setHold] at hr'
    · simpa [KaPool.setHold, heq] using hr'
  exact {
    inUse := fun r' h' hr' => h.inUse r' h' (hold r' h' hr')
    apart := fun r₁ r₂ h₁ h₂ hr₁ hr₂ => h.apart r₁ r₂ h₁ h₂ (hold r₁ h₁ hr₁) (hold r₂ h₂ hr₂)
    owned := h.owned
    fresh := h.fresh
    live := h.live
    valid := h.valid
    going := fun r' h' hr' => h.going r' h' (hold r' h' hr') }

/-- A slot that nobody holds is closed. -/
theorem KaInv.closeSlot (h : KaInv s) (hconnect : i ∈ s.connects)
    (hfree : ∀ r h, s.holds r = some h → h.slot ≠ i) : KaInv (s.closeSlot i) := by
  have hother : ∀ j, j ≠ i → (s.closeSlot i).slots j = s.slots j := fun j hj => by
    simp [KaPool.closeSlot, KaPool.setSlot, hj]
  have hsame : (s.closeSlot i).slots i = kaCloseSlot (s.slots i) := by
    simp [KaPool.closeSlot, KaPool.setSlot]
  refine ⟨fun r hold hr => ?_, h.apart, fun o ho => ?_, fun j hj => ?_, fun j hj => ?_,
    fun j hj => ?_, fun r hold hr hstage => ?_⟩
  · rw [hother _ (hfree r hold hr)]
    exact h.inUse r hold hr
  · exact h.owned o (List.mem_of_mem_filter ho)
  · rw [hother j fun hji => hj (hji ▸ hconnect)]
    exact h.fresh j hj
  · by_cases hji : j = i
    · rw [hji, hsame]
      exact Or.inl rfl
    · rw [hother j hji]
      refine (h.live j hj).imp id ?_
      rintro ⟨o, ho, hslot, hrest⟩
      refine ⟨o, List.mem_filter.2 ⟨ho, ?_⟩, hslot, ?_⟩
      · simp [hslot, hji]
      · rw [hother j hji]
        exact hrest
  · by_cases hji : j = i
    · rw [hji, hsame] at hj
      cases hj
    · rw [hother j hji] at hj ⊢
      exact h.valid j hj
  · rw [hother _ (hfree r hold hr)]
    exact h.going r hold hr hstage

/-- A change that leaves descriptors, keys and `valid` alone. -/
theorem KaInv.of_same (h : KaInv s) {s' : KaPool}
    (hslots : ∀ j, (s'.slots j).fd = (s.slots j).fd ∧ (s'.slots j).key = (s.slots j).key ∧
      (s'.slots j).valid = (s.slots j).valid)
    (hopened : s'.opened = s.opened) (hconnects : s'.connects = s.connects)
    (hinUse : ∀ r h, s'.holds r = some h → (s'.slots h.slot).inUse = true)
    (hapart : ∀ r r' h h', s'.holds r = some h → s'.holds r' = some h' → h.slot = h'.slot → r = r')
    (hgoing : ∀ r h, s'.holds r = some h → h.reused = true ∨ h.stage ≠ .acquired →
      (s.slots h.slot).key = h.key ∧ h.slot ∈ s.connects ∧ (s.slots h.slot).fd ≠ netInvalid) :
    KaInv s' := by
  refine ⟨hinUse, hapart, ?_, fun j hj => ?_, fun j hj => ?_, fun j hj => ?_,
    fun r hold hr hstage => ?_⟩
  · rw [hopened, hconnects]
    exact h.owned
  · rw [hconnects] at hj
    rw [(hslots j).1, (hslots j).2.2]
    exact h.fresh j hj
  · rw [hconnects] at hj
    rw [(hslots j).1, (hslots j).2.1, KaPool.Live, hopened, (hslots j).1]
    exact h.live j hj
  · rw [(hslots j).2.2] at hj
    rw [(hslots j).1, hconnects]
    exact h.valid j hj
  · rw [(hslots _).1, (hslots _).2.1, hconnects]
    exact hgoing r hold hr hstage

/-- The flags of a slot that nobody holds. -/
theorem KaInv.setFlags (h : KaInv s) (hfree : ∀ r h, s.holds r = some h → h.slot ≠ i)
    (inUse : Bool) (lastUsed : Int) :
    KaInv (s.setSlot i { s.slots i with inUse := inUse, lastUsed := lastUsed }) := by
  refine h.of_same (fun j => ?_) rfl rfl (fun r hold hr => ?_) h.apart h.going
  · by_cases hji : j = i
    · rw [hji]
      simp [KaPool.setSlot]
    · simp [KaPool.setSlot, hji]
  · simp only [KaPool.setSlot, Function.update_of_ne (hfree r hold hr)]
    exact h.inUse r hold hr

theorem setHold_cases {h₀ : KaHold} {r' : Nat} {h' : KaHold}
    (hr' : (s.setHold r (some h₀)).holds r' = some h') :
    r' = r ∧ h' = h₀ ∨ r' ≠ r ∧ s.holds r' = some h' := by
  by_cases heq : r' = r
  · rw [heq] at hr'
    simp only [KaPool.setHold, Function.update_self] at hr'
    exact Or.inl ⟨heq, (Option.some.inj hr').symm⟩
  · simp only [KaPool.setHold, Function.update_of_ne heq] at hr'
    exact Or.inr ⟨heq, hr'⟩

/-- A request takes a slot that is not in use. -/
theorem KaInv.take (h : KaInv s) {key : KaKey} {reused : Bool} (hfree : (s.slots i).inUse = false)
    (hreused : reused = true → (s.slots i).valid = true ∧ (s.slots i).key = key) :
    KaInv (s.take r key i reused) := by
  have hnobody : ∀ r h, s.holds r = some h → h.slot ≠ i := by
    rintro r hold hr rfl
    rw [h.inUse r hold hr] at hfree
    cases hfree
  have hcases : ∀ r' h', (s.take r key i reused).holds r' = some h' →
      r' = r ∧ h' = { slot := i, key := key, reused := reused, stage := .acquired } ∨
        r' ≠ r ∧ s.holds r' = some h' := fun r' h' hr' => setHold_cases hr'
  refine h.of_same (fun j => ?_) rfl rfl (fun r' h' hr' => ?_) (fun r₁ r₂ h₁ h₂ hr₁ hr₂ hslot => ?_)
    fun r' h' hr' hstage => ?_
  · by_cases hji : j = i
    · rw [hji]
      simp [KaPool.take, KaPool.setHold, KaPool.setSlot]
    · simp [KaPool.take, KaPool.setHold, KaPool.setSlot, hji]
  · rcases hcases r' h' hr' with ⟨-, rfl⟩ | ⟨-, hold⟩
    · simp [KaPool.take, KaPool.setHold, KaPool.setSlot]
    · simp only [KaPool.take, KaPool.setHold, KaPool.setSlot,
        Function.update_of_ne (hnobody r' h' hold)]
      exact h.inUse r' h' hold
  · rcases hcases r₁ h₁ hr₁ with ⟨rfl, rfl⟩ | ⟨-, hold₁⟩
    · rcases hcases r₂ h₂ hr₂ with ⟨rfl, -⟩ | ⟨-, hold₂⟩
      · rfl
      · exact absurd hslot.symm (hnobody r₂ h₂ hold₂)
    · rcases hcases r₂ h₂ hr₂ with ⟨rfl, rfl⟩ | ⟨-, hold₂⟩
      · exact absurd hslot (hnobody r₁ h₁ hold₁)
      · exact h.apart r₁ r₂ h₁ h₂ hold₁ hold₂ hslot
  · rcases hcases r' h' hr' with ⟨-, rfl⟩ | ⟨-, hold⟩
    · have htrue : reused = true := hstage.resolve_right fun hne => hne rfl
      obtain ⟨hvalid, hkey⟩ := hreused htrue
      exact ⟨hkey, h.valid i hvalid⟩
    · exact h.going r' h' hold hstage

/-- A request goes on with the slot that it holds. -/
theorem KaInv.goOn (h : KaInv s) {h₀ : KaHold} (h₁ : KaHold) (hr : s.holds r = some h₀)
    (hslot : h₁.slot = h₀.slot)
    (hgoing : (s.slots h₁.slot).key = h₁.key ∧ h₁.slot ∈ s.connects ∧
      (s.slots h₁.slot).fd ≠ netInvalid) : KaInv (s.setHold r (some h₁)) := by
  refine h.of_same (fun j => ⟨rfl, rfl, rfl⟩) rfl rfl (fun r' h' hr' => ?_)
    (fun r₁ r₂ h₂ h₃ hr₂ hr₃ hsame => ?_) fun r' h' hr' hstage => ?_
  · rcases setHold_cases hr' with ⟨-, rfl⟩ | ⟨-, hold⟩
    · have hin := h.inUse r h₀ hr
      rwa [← hslot] at hin
    · exact h.inUse r' h' hold
  · rcases setHold_cases hr₂ with ⟨rfl, rfl⟩ | ⟨hne, hold₂⟩
    · rcases setHold_cases hr₃ with ⟨rfl, -⟩ | ⟨-, hold₃⟩
      · rfl
      · exact h.apart r₁ r₂ h₀ h₃ hr hold₃ (hslot ▸ hsame)
    · rcases setHold_cases hr₃ with ⟨rfl, rfl⟩ | ⟨-, hold₃⟩
      · exact h.apart r₁ r₂ h₂ h₀ hold₂ hr (hsame.trans hslot)
      · exact h.apart r₁ r₂ h₂ h₃ hold₂ hold₃ hsame
  · rcases setHold_cases hr' with ⟨-, rfl⟩ | ⟨-, hold⟩
    · exact hgoing
    · exact h.going r' h' hold hstage

/-- A descriptor that is not open goes into the slot that a request holds. -/
theorem KaInv.putFd (h : KaInv s) {h₀ : KaHold} (hr : s.holds r = some h₀) {fd : Int}
    (hfd : 0 ≤ fd) :
    KaInv { s.setSlot h₀.slot { s.slots h₀.slot with fd := fd, key := h₀.key } with
      opened := { fd := fd, slot := h₀.slot, key := h₀.key } :: s.opened
      connects := h₀.slot :: s.connects } := by
  have hinvalid : fd ≠ netInvalid := by
    rintro rfl
    exact absurd hfd (by decide)
  have hother : ∀ j, j ≠ h₀.slot →
      Function.update s.slots h₀.slot { s.slots h₀.slot with fd := fd, key := h₀.key } j =
        s.slots j := fun j hj => Function.update_of_ne hj _ _
  refine ⟨fun r' h' hr' => ?_, h.apart, fun o ho => ?_, fun j hj => ?_, fun j hj => ?_,
    fun j hj => ?_, fun r' h' hr' hstage => ?_⟩
  · have hin := h.inUse r' h' hr'
    by_cases heq : h'.slot = h₀.slot
    · simp only [KaPool.setSlot]
      rw [heq] at hin ⊢
      rw [Function.update_self]
      exact hin
    · simp only [KaPool.setSlot]
      rw [hother _ heq]
      exact hin
  · rcases List.mem_cons.1 ho with rfl | ho
    · exact ⟨List.mem_cons_self, hfd⟩
    · exact ⟨List.mem_cons_of_mem _ (h.owned o ho).1, (h.owned o ho).2⟩
  · have hne : j ≠ h₀.slot := fun heq => hj (heq ▸ List.mem_cons_self)
    simp only [KaPool.setSlot]
    rw [hother j hne]
    exact h.fresh j fun hmem => hj (List.mem_cons_of_mem _ hmem)
  · by_cases heq : j = h₀.slot
    · refine Or.inr ⟨_, List.mem_cons_self, heq.symm, ?_, ?_⟩
      · simp [KaPool.setSlot, heq]
      · simp [KaPool.setSlot, heq]
    · simp only [KaPool.setSlot, KaPool.Live]
      rw [hother j heq]
      refine (h.live j ((List.mem_cons.1 hj).resolve_left heq)).imp id ?_
      rintro ⟨o, ho, hrest⟩
      exact ⟨o, List.mem_cons_of_mem _ ho, hrest⟩
  · by_cases heq : j = h₀.slot
    · rw [heq]
      refine ⟨List.mem_cons_self, ?_⟩
      simpa [KaPool.setSlot] using hinvalid
    · simp only [KaPool.setSlot] at hj ⊢
      rw [hother j heq] at hj ⊢
      exact ⟨List.mem_cons_of_mem _ (h.valid j hj).1, (h.valid j hj).2⟩
  · by_cases heq : h'.slot = h₀.slot
    · obtain rfl := h.apart r' r h' h₀ hr' hr heq
      obtain rfl := Option.some.inj (hr'.symm.trans hr)
      simp only [KaPool.setSlot, Function.update_self]
      exact ⟨trivial, List.mem_cons_self, hinvalid⟩
    · simp only [KaPool.setSlot]
      rw [hother _ heq]
      obtain ⟨hkey, hconnect, hopen⟩ := h.going r' h' hr' hstage
      exact ⟨hkey, List.mem_cons_of_mem _ hconnect, hopen⟩

/-- A slot with a descriptor becomes valid. -/
theorem KaInv.makeValid (h : KaInv s) (hconnect : i ∈ s.connects)
    (hfd : (s.slots i).fd ≠ netInvalid) :
    KaInv (s.setSlot i { s.slots i with valid := true }) := by
  have hslots : ∀ j, ((s.setSlot i { s.slots i with valid := true }).slots j).fd = (s.slots j).fd ∧
      ((s.setSlot i { s.slots i with valid := true }).slots j).key = (s.slots j).key ∧
      ((s.setSlot i { s.slots i with valid := true }).slots j).inUse = (s.slots j).inUse := by
    intro j
    by_cases hji : j = i
    · rw [hji]
      simp [KaPool.setSlot]
    · simp [KaPool.setSlot, hji]
  refine ⟨fun r' h' hr' => ?_, h.apart, h.owned, fun j hj => ?_, fun j hj => ?_, fun j hj => ?_,
    fun r' h' hr' hstage => ?_⟩
  · rw [(hslots _).2.2]
    exact h.inUse r' h' hr'
  · have hne : j ≠ i := fun hji => hj (hji ▸ hconnect)
    simp only [KaPool.setSlot, Function.update_of_ne hne]
    exact h.fresh j hj
  · rw [(hslots j).1, (hslots j).2.1, KaPool.Live, (hslots j).1]
    exact h.live j hj
  · rw [(hslots j).1]
    by_cases hji : j = i
    · rw [hji]
      exact ⟨hconnect, hfd⟩
    · simp only [KaPool.setSlot, Function.update_of_ne hji] at hj
      exact h.valid j hj
  · rw [(hslots _).1, (hslots _).2.1]
    exact h.going r' h' hr' hstage

/-! ## The loops of `ka_acquire` -/

theorem first_some {p : KaConn → Bool} (h : s.first p = some i) : p (s.slots i) = true :=
  List.find?_some (p := fun i => p (s.slots i)) h

theorem oldest_some (h : s.oldest = some i) :
    (s.slots i).valid = true ∧ (s.slots i).inUse = false := by
  have hfold : ∀ (l : List (Fin kaCap)) (start : Option (Fin kaCap)),
      (∀ j ∈ start, (s.slots j).valid = true ∧ (s.slots j).inUse = false) →
      ∀ j ∈ l.foldl (fun oldest i =>
        let c := s.slots i
        if c.valid = true ∧ c.inUse = false ∧
            ∀ j ∈ oldest, c.lastUsed < (s.slots j).lastUsed then some i
        else oldest) start, (s.slots j).valid = true ∧ (s.slots j).inUse = false := by
    intro l
    induction l with
    | nil => exact fun start hstart => hstart
    | cons k l ih =>
      intro start hstart
      refine ih _ fun j hj => ?_
      dsimp only at hj
      split_ifs at hj with hk
      · rw [← Option.some.inj hj]
        exact ⟨hk.1, hk.2.1⟩
      · exact hstart j hj
  exact hfold _ none (fun j hj => nomatch hj) i h

/-- What is found is not in use, and fits. -/
theorem find_spec (s : KaPool) (key : KaKey) :
    match s.find key with
    | .idle i => (s.slots i).inUse = false ∧ (s.slots i).valid = true ∧ (s.slots i).key = key
    | .free i => (s.slots i).inUse = false
    | .evicted i => (s.slots i).inUse = false ∧ (s.slots i).valid = true
    | .busy => True := by
  unfold KaPool.find
  cases hidle : s.first fun c => c.valid && !c.inUse && decide (c.key = key) with
  | some i =>
    have hp := first_some hidle
    simp only [Bool.and_eq_true, Bool.not_eq_true', decide_eq_true_eq] at hp
    exact ⟨hp.1.2, hp.1.1, hp.2⟩
  | none =>
    dsimp only
    cases hfree : s.first fun c => !c.valid && !c.inUse with
    | some i =>
      have hp := first_some hfree
      simp only [Bool.and_eq_true, Bool.not_eq_true'] at hp
      exact hp.2
    | none =>
      dsimp only
      cases hold : s.oldest with
      | some i => exact (oldest_some hold).symm
      | none => trivial

/-! ## Steps -/

/-- The invariant before the end, and behind it what is left of it. -/
structure KaReached (s : KaPool) : Prop where
  apart : ∀ r r' h h', s.holds r = some h → s.holds r' = some h' → h.slot = h'.slot → r = r'
  inv : s.down = false → KaInv s

theorem KaReached.stateRight (h : KaReached s) : StateRight s :=
  ⟨h.apart, fun hup => (h.inv hup).stateRight.live hup⟩

theorem KaInv.reached (h : KaInv s) : KaReached s := ⟨h.apart, fun _ => h⟩

theorem KaReached.stepRight_iff {enabled : Bool} (h : KaReached s) (step : KaStep) :
    StepRight enabled s step ↔ SlotsUsed enabled s step := by
  cases hdown : s.down with
  | true =>
    have hnone : step.closes enabled s = [] := by
      unfold KaStep.closes
      rw [if_pos hdown]
    unfold StepRight SlotsUsed
    rw [hnone]
    exact iff_of_true (fun i hi => nomatch hi) fun i hi => nomatch hi
  | false => exact (h.inv hdown).stepRight_iff step

theorem KaInv.acquire (h : KaInv s) (enabled : Bool) (r : Nat) (key : KaKey) :
    KaInv (kaAcquire enabled s r key) := by
  unfold kaAcquire
  split_ifs
  · exact h
  · have hspec := find_spec s key
    cases hfind : s.find key with
    | idle i =>
      rw [hfind] at hspec
      exact h.take hspec.1 fun _ => hspec.2
    | free i =>
      rw [hfind] at hspec
      exact h.take hspec fun hfalse => nomatch hfalse
    | evicted i =>
      rw [hfind] at hspec
      obtain ⟨hfree, hvalid⟩ := hspec
      have hnobody : ∀ r h, s.holds r = some h → h.slot ≠ i := by
        rintro r hold hr rfl
        rw [h.inUse r hold hr] at hfree
        cases hfree
      refine (h.closeSlot (h.valid i hvalid).1 hnobody).take ?_ fun hfalse => nomatch hfalse
      simpa [KaPool.closeSlot, KaPool.setSlot, kaCloseSlot] using hfree
    | busy => exact h

theorem KaInv.release (h : KaInv s) {h₀ : KaHold} (hr : s.holds r = some h₀) (reusable : Bool)
    (now : Int)
    (hclosed : ¬ (reusable = true ∧ (s.slots h₀.slot).valid = true) → h₀.slot ∈ s.connects) :
    KaInv ((kaRelease s h₀.slot reusable now).setHold r none) := by
  have hnobody : ∀ r' h', (s.setHold r none).holds r' = some h' → h'.slot ≠ h₀.slot := by
    intro r' h' hr' hsame
    by_cases heq : r' = r
    · rw [heq] at hr'
      simp [KaPool.setHold] at hr'
    · have hold : s.holds r' = some h' := by simpa [KaPool.setHold, heq] using hr'
      exact heq (h.apart r' r h' h₀ hold hr hsame)
  have hdropped := h.dropHold r
  unfold kaRelease
  by_cases hkeep : reusable = true ∧ (s.slots h₀.slot).valid = true
  · rw [if_pos hkeep]
    exact hdropped.setFlags hnobody false now
  · rw [if_neg hkeep]
    have hcloses := hdropped.closeSlot (hclosed hkeep) hnobody
    have hflags := hcloses.setFlags (i := h₀.slot) hnobody false (s.slots h₀.slot).lastUsed
    have hslot : ((s.setHold r none).closeSlot h₀.slot).slots h₀.slot =
        kaCloseSlot (s.slots h₀.slot) := by
      simp [KaPool.closeSlot, KaPool.setSlot, KaPool.setHold]
    rw [hslot] at hflags
    exact hflags

theorem shutdown_holds (l : List (Fin kaCap)) (s : KaPool) :
    (l.foldl KaPool.closeSlot s).holds = s.holds := by
  induction l generalizing s with
  | nil => rfl
  | cons i l ih => exact ih (s.closeSlot i)

/-- A step that closes only what is used keeps the invariant. -/
theorem KaReached.exec {enabled : Bool} (h : KaReached s) {step : KaStep}
    (hused : SlotsUsed enabled s step) : KaReached (step.exec enabled s) := by
  unfold KaStep.exec
  by_cases hdown : s.down = true
  · rw [if_pos hdown]
    exact h
  · have hinv := h.inv (Bool.eq_false_iff.2 hdown)
    rw [if_neg hdown]
    cases step with
    | acquire r key =>
      dsimp only
      split_ifs
      · exact (hinv.acquire enabled r key).reached
      · exact h
    | connect r fd =>
      dsimp only
      cases hr : s.holds r with
      | none => exact h
      | some h₀ =>
        dsimp only
        split_ifs with hcan
        · have hput := hinv.putFd hr hcan.2.1
          refine (hput.goOn { h₀ with stage := .connected } hr rfl ?_).reached
          refine ⟨?_, List.mem_cons_self, ?_⟩
          · simp [KaPool.setSlot]
          · simp only [KaPool.setSlot, Function.update_self]
            rintro rfl
            exact absurd hcan.2.1 (by decide)
        · exact h
    | verify r =>
      dsimp only
      cases hr : s.holds r with
      | none => exact h
      | some h₀ =>
        dsimp only
        split_ifs with hcan
        · obtain ⟨hkey, hconnect, hfd⟩ := hinv.going r h₀ hr (Or.inr (by rw [hcan]; decide))
          refine ((hinv.makeValid hconnect hfd).goOn { h₀ with stage := .ready } hr rfl ?_).reached
          simp only [KaPool.setSlot, Function.update_self]
          exact ⟨hkey, hconnect, hfd⟩
        · exact h
    | resume r =>
      dsimp only
      cases hr : s.holds r with
      | none => exact h
      | some h₀ =>
        dsimp only
        split_ifs with hcan
        · exact (hinv.goOn { h₀ with stage := .ready } hr rfl
            (hinv.going r h₀ hr (Or.inl hcan.2))).reached
        · exact h
    | release r reusable now =>
      dsimp only
      cases hr : s.holds r with
      | none => exact h
      | some h₀ =>
        dsimp only
        split_ifs with hcan
        · exact h
        · refine (hinv.release hr reusable now fun hclosed => ?_).reached
          apply hused
          unfold KaStep.closes
          rw [if_neg hdown]
          dsimp only
          rw [hr]
          dsimp only
          rw [if_neg]
          · exact List.mem_singleton_self _
          · rintro ⟨hreusable, hstage | hvalid⟩
            · exact hcan ⟨hreusable, hstage⟩
            · exact hclosed ⟨hreusable, hvalid⟩
    | shutdown =>
      refine ⟨?_, fun hup => nomatch hup⟩
      show ∀ r r' h h', (kaShutdownAll s).holds r = some h → (kaShutdownAll s).holds r' = some h' →
        h.slot = h'.slot → r = r'
      rw [kaShutdownAll, shutdown_holds]
      exact h.apart

theorem kaReached_start : KaReached KaPool.start :=
  KaInv.reached {
    inUse := fun _ _ hr => nomatch hr
    apart := fun _ _ _ _ hr => nomatch hr
    owned := fun _ ho => nomatch ho
    fresh := fun _ _ => ⟨rfl, rfl⟩
    live := fun _ hj => nomatch hj
    valid := fun _ hj => nomatch hj
    going := fun _ _ hr => nomatch hr }

/-- The accounting is right exactly if every step closes only slots that a descriptor has been put
into. -/
theorem kaLaw_iff (enabled : Bool) (steps : List KaStep) :
    KaLaw enabled steps ↔
      ∀ pre a post, steps = pre ++ a :: post → SlotsUsed enabled (kaRun enabled pre) a := by
  have hkeep : (∀ pre a post, steps = pre ++ a :: post →
      KaReached (kaRun enabled pre) → SlotsUsed enabled (kaRun enabled pre) a) →
      ∀ pre post, steps = pre ++ post → KaReached (kaRun enabled pre) := fun hused =>
    Histories.invariant KaReached kaReached_start fun pre a post hsteps hinv =>
      hinv.exec (hused pre a post hsteps hinv)
  constructor
  · rintro ⟨-, hright⟩ pre a post hsteps
    have hinv := hkeep (fun pre a post hsteps hinv =>
      (hinv.stepRight_iff a).1 (hright pre a post hsteps)) pre (a :: post) hsteps
    exact (hinv.stepRight_iff a).1 (hright pre a post hsteps)
  · intro hused
    have hinv := hkeep fun pre a post hsteps _ => hused pre a post hsteps
    exact ⟨fun pre post hsteps => (hinv pre post hsteps).stateRight, fun pre a post hsteps =>
      ((hinv pre (a :: post) hsteps).stepRight_iff a).2 (hused pre a post hsteps)⟩

/-- A request that fails before it connects closes the descriptor 0, which nobody has opened. -/
theorem failed_lookup_closes_zero :
    ¬ KaLaw true [.acquire 0 { host := ascii "a", port := 80, isHttps := false },
      .release 0 false 0] := by
  intro h
  have hright := h.2 [.acquire 0 { host := ascii "a", port := 80, isHttps := false }]
    (.release 0 false 0) [] rfl
  obtain ⟨o, ho, -⟩ := hright ⟨0, by decide⟩ (by decide) 0 rfl
  exact nomatch ho

end TinyFramework.Net
