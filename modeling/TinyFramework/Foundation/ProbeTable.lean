/-
  Foundation/ProbeTable.lean --- fixed hash tables with a short probe chain.

  A table gives every slot an entry or nothing.  A lookup walks the few slots of a
  chain, stops at the first empty one and takes the first entry that is a hit; a store
  claims the first slot of the chain that is free.  What a memo table has to keep is a
  property of its single entries (`Holds`), so nothing about the order of the chain is
  needed for it.
-/
import TinyFramework.Foundation.Ascii

set_option autoImplicit false

namespace TinyFramework.Foundation

universe u

/-- The 32-bit FNV-1a hash of a string, from a start value on. -/
def fnv1a (start : UInt32) (s : Bytes) : UInt32 :=
  s.foldl (fun h b => (h ^^^ b.toUInt32) * 16777619) start

/-- The start value of the hash. -/
def fnvOffset : UInt32 := 2166136261

/-- A table of slots. -/
abbrev ProbeTable (α : Type u) := Nat → Option α

namespace ProbeTable

variable {α : Type u}

/-- The slots `h, h + 1, ...` of a chain in a table of `cap` slots. -/
def chain (cap h len : Nat) : List Nat :=
  (List.range len).map fun i => (h + i) % cap

/-- The empty table. -/
def empty : ProbeTable α := fun _ => none

/-- The first hit before the first empty slot. -/
def lookup (t : ProbeTable α) (hit : α → Bool) : List Nat → Option α
  | [] => none
  | i :: rest =>
      match t i with
      | none => none
      | some e => if hit e then some e else lookup t hit rest

/-- The slot of the first hit before the first empty slot. -/
def locate (t : ProbeTable α) (hit : α → Bool) : List Nat → Option Nat
  | [] => none
  | i :: rest =>
      match t i with
      | none => none
      | some e => if hit e then some i else locate t hit rest

/-- The first slot of the chain that is empty or whose entry may go. -/
def claim (t : ProbeTable α) (stale : α → Bool) (slots : List Nat) : Option Nat :=
  slots.find? fun i => (t i).all stale

/-- Write an entry. -/
def store (t : ProbeTable α) (i : Nat) (e : α) : ProbeTable α :=
  Function.update t i (some e)

/-- Every entry of the table has the property. -/
def Holds (P : α → Prop) (t : ProbeTable α) : Prop :=
  ∀ i e, t i = some e → P e

variable {P Q : α → Prop} {t : ProbeTable α} {hit : α → Bool} {e : α}

theorem holds_empty : Holds P empty := by
  intro i e he
  cases he

theorem Holds.imp (h : Holds P t) (himp : ∀ e, P e → Q e) : Holds Q t :=
  fun i e he => himp e (h i e he)

theorem Holds.store (h : Holds P t) (i : Nat) (he : P e) : Holds P (t.store i e) := by
  intro j e' hj
  rw [ProbeTable.store, Function.update_apply] at hj
  split_ifs at hj
  · exact Option.some.inj hj ▸ he
  · exact h j e' hj

/-- Any two entries of the table are related. -/
def Pairwise (R : α → α → Prop) (t : ProbeTable α) : Prop :=
  ∀ i j a b, i ≠ j → t i = some a → t j = some b → R a b

theorem pairwise_empty {R : α → α → Prop} : Pairwise R empty := by
  intro i j a b _ ha
  cases ha

theorem Pairwise.store {R : α → α → Prop} (hR : ∀ a b, R a b → R b a) (h : Pairwise R t)
    (i : Nat) (he : Holds (R e) t) : Pairwise R (t.store i e) := by
  intro j k a b hjk ha hb
  rw [ProbeTable.store, Function.update_apply] at ha hb
  split_ifs at ha hb with hj hk hk
  · exact absurd (hj.trans hk.symm) hjk
  · obtain rfl := Option.some.inj ha
    exact he k b hb
  · obtain rfl := Option.some.inj hb
    exact hR _ _ (he j a ha)
  · exact h j k a b hjk ha hb

/-- What a lookup finds is a hit and an entry of the table. -/
theorem Holds.lookup (h : Holds P t) {slots : List Nat} (he : t.lookup hit slots = some e) :
    hit e = true ∧ P e := by
  induction slots with
  | nil => cases he
  | cons i rest ih =>
    rw [ProbeTable.lookup] at he
    cases hi : t i with
    | none =>
      rw [hi] at he
      cases he
    | some e' =>
      simp only [hi] at he
      split_ifs at he with hhit
      · obtain rfl := Option.some.inj he
        exact ⟨hhit, h i e' hi⟩
      · exact ih he

/-- A located slot holds a hit. -/
theorem locate_eq_some {slots : List Nat} {i : Nat} (hi : t.locate hit slots = some i) :
    ∃ e, t i = some e ∧ hit e = true := by
  induction slots with
  | nil => cases hi
  | cons j rest ih =>
    rw [locate] at hi
    cases hj : t j with
    | none =>
      rw [hj] at hi
      cases hi
    | some e =>
      simp only [hj] at hi
      split_ifs at hi with hhit
      · obtain rfl := Option.some.inj hi
        exact ⟨e, hj, hhit⟩
      · exact ih hi

/-- A slot claimed where nothing is stale is empty. -/
theorem claim_eq_some {slots : List Nat} {i : Nat}
    (hi : t.claim (fun _ => false) slots = some i) : t i = none := by
  have hfound := List.find?_some hi
  cases ht : t i with
  | none => rfl
  | some e => simp [ht] at hfound

end ProbeTable

end TinyFramework.Foundation
