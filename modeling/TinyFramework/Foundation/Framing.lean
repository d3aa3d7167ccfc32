/-
  Foundation/Framing.lean --- frames in a stream, and messages from their fragments.

  A `Framing` takes a whole item off the front of a buffer.  What it takes it also takes when more
  follows, so a buffer can be emptied of its whole items and what is left kept for later: however
  a stream is cut up, the items are the same, and so is what is left at the end.

  A message is a first fragment with its kind and any number of further ones, of which the last
  says that it is; other pieces may come in between.  A first fragment begins a new message
  whatever was under way, and a further fragment without a message under way is dropped.
-/
import Mathlib.Data.List.Basic
import Mathlib.Data.List.Induction

set_option autoImplicit false

namespace TinyFramework.Foundation

universe u v

/-- How to take an item off the front of a buffer. -/
structure Framing (α : Type u) (β : Type v) where
  take : List α → Option (β × List α)
  shorter : ∀ {b x r}, take b = some (x, r) → r.length < b.length
  append : ∀ {b x r}, take b = some (x, r) → ∀ s, take (b ++ s) = some (x, r ++ s)

namespace Framing

variable {α : Type u} {β : Type v} (F : Framing α β)

/-- The whole items at the front of a buffer. -/
def items (b : List α) : List β :=
  match _h : F.take b with
  | none => []
  | some (x, r) => x :: items r
termination_by b.length
decreasing_by exact F.shorter _h

/-- What is left behind them. -/
def left (b : List α) : List α :=
  match _h : F.take b with
  | none => b
  | some (_, r) => left r
termination_by b.length
decreasing_by exact F.shorter _h

variable {F} {b r : List α} {x : β}

theorem items_of_none (h : F.take b = none) : F.items b = [] := by
  rw [items]
  split
  · rfl
  · next heq => rw [h] at heq; cases heq

theorem items_of_some (h : F.take b = some (x, r)) : F.items b = x :: F.items r := by
  rw [items]
  split
  · next heq => rw [h] at heq; cases heq
  · next heq => rw [h] at heq; cases heq; rfl

theorem left_of_none (h : F.take b = none) : F.left b = b := by
  rw [left]
  split
  · rfl
  · next heq => rw [h] at heq; cases heq

theorem left_of_some (h : F.take b = some (x, r)) : F.left b = F.left r := by
  rw [left]
  split
  · next heq => rw [h] at heq; cases heq
  · next heq => rw [h] at heq; cases heq; rfl

variable (F)

/-- An induction on the items of a buffer. -/
theorem itemsInduction {P : List α → Prop} (hnone : ∀ b, F.take b = none → P b)
    (hsome : ∀ b x r, F.take b = some (x, r) → P r → P b) (b : List α) : P b := by
  induction hn : b.length using Nat.strongRecOn generalizing b with
  | _ n ih =>
    cases h : F.take b with
    | none => exact hnone b h
    | some xr =>
      obtain ⟨x, r⟩ := xr
      have hshorter := F.shorter h
      exact hsome b x r h (ih r.length (hn ▸ hshorter) r rfl)

theorem take_left (b : List α) : F.take (F.left b) = none := by
  induction b using F.itemsInduction with
  | hnone b h => rw [left_of_none h, h]
  | hsome b x r h ih => rw [left_of_some h, ih]

/-- What is left behind goes on with what comes later. -/
theorem items_append (b s : List α) : F.items (b ++ s) = F.items b ++ F.items (F.left b ++ s) := by
  induction b using F.itemsInduction with
  | hnone b h => rw [items_of_none h, left_of_none h, List.nil_append]
  | hsome b x r h ih =>
    rw [items_of_some (F.append h s), items_of_some h, left_of_some h, ih, List.cons_append]

theorem left_append (b s : List α) : F.left (b ++ s) = F.left (F.left b ++ s) := by
  induction b using F.itemsInduction with
  | hnone b h => rw [left_of_none h]
  | hsome b x r h ih => rw [left_of_some (F.append h s), left_of_some h, ih]

/-- Some of the whole items at the front of a buffer, and what stands behind them. -/
inductive Passed : List α → List β → List α → Prop
  | refl (b : List α) : Passed b [] b
  | step {b r s : List α} {x : β} {xs : List β} :
      F.take b = some (x, r) → Passed r xs s → Passed b (x :: xs) s

variable {F} {s : List α} {xs ys : List β}

/-- Of a buffer that begins with a whole item, none was passed, or this one and some behind it. -/
theorem Passed.of_some {x : β} (htake : F.take b = some (x, r)) (h : F.Passed b xs s) :
    xs = [] ∧ s = b ∨ ∃ rest, xs = x :: rest ∧ F.Passed r rest s := by
  cases h with
  | refl => exact Or.inl ⟨rfl, rfl⟩
  | step hfirst hrest =>
    obtain ⟨rfl, rfl⟩ := Prod.mk.inj (Option.some.inj (hfirst.symm.trans htake))
    exact Or.inr ⟨_, rfl, hrest⟩

theorem Passed.of_none (htake : F.take b = none) (h : F.Passed b xs s) : xs = [] ∧ s = b := by
  cases h with
  | refl => exact ⟨rfl, rfl⟩
  | step hfirst _ => cases hfirst.symm.trans htake

theorem Passed.trans (hb : F.Passed b xs r) (hr : F.Passed r ys s) : F.Passed b (xs ++ ys) s := by
  induction hb with
  | refl _ => exact hr
  | step h _ ih => exact .step h (ih hr)

theorem Passed.snoc (hb : F.Passed b xs r) (h : F.take r = some (x, s)) :
    F.Passed b (xs ++ [x]) s :=
  hb.trans (.step h (.refl s))

theorem Passed.append (hb : F.Passed b xs r) (s : List α) : F.Passed (b ++ s) xs (r ++ s) := by
  induction hb with
  | refl _ => exact .refl _
  | step h _ ih => exact .step (F.append h s) ih

theorem passed_left (b : List α) : F.Passed b (F.items b) (F.left b) := by
  induction b using F.itemsInduction with
  | hnone b h =>
    rw [items_of_none h, left_of_none h]
    exact .refl b
  | hsome b x r h ih =>
    rw [items_of_some h, left_of_some h]
    exact .step h ih

end Framing

/-! ## Messages that come in fragments -/

/-- What comes in. -/
inductive Piece (κ : Type u) (α : Type v) where
  | first (kind : κ) (last : Bool) (data : List α)
  | further (last : Bool) (data : List α)
  /-- a piece that belongs to no message -/
  | aside

variable {κ : Type u} {α : Type v}

/-- The message under way: its kind and what has come of it. -/
abbrev UnderWay (κ : Type u) (α : Type v) := Option (κ × List α)

namespace UnderWay

/-- The message under way behind a piece. -/
def next (s : UnderWay κ α) : Piece κ α → UnderWay κ α
  | .first kind last data => if last then none else some (kind, data)
  | .further last data => if last then none else s.map fun m => (m.1, m.2 ++ data)
  | .aside => s

/-- The message that a piece completes. -/
def done (s : UnderWay κ α) : Piece κ α → Option (κ × List α)
  | .first kind last data => if last then some (kind, data) else none
  | .further last data => if last then s.map fun m => (m.1, m.2 ++ data) else none
  | .aside => none

/-- The messages that a run of pieces completes. -/
def messages : UnderWay κ α → List (Piece κ α) → List (κ × List α)
  | _, [] => []
  | s, p :: ps => (s.done p).toList ++ messages (s.next p) ps

/-- The message under way behind a run of pieces. -/
def behind (s : UnderWay κ α) (ps : List (Piece κ α)) : UnderWay κ α := ps.foldl next s

@[simp] theorem behind_nil (s : UnderWay κ α) : s.behind [] = s := rfl

@[simp] theorem behind_cons (s : UnderWay κ α) (p : Piece κ α) (ps : List (Piece κ α)) :
    s.behind (p :: ps) = (s.next p).behind ps := rfl

theorem behind_append (s : UnderWay κ α) (ps qs : List (Piece κ α)) :
    s.behind (ps ++ qs) = (s.behind ps).behind qs := List.foldl_append

theorem messages_append (s : UnderWay κ α) (ps qs : List (Piece κ α)) :
    s.messages (ps ++ qs) = s.messages ps ++ (s.behind ps).messages qs := by
  induction ps generalizing s with
  | nil => rfl
  | cons p ps ih => rw [List.cons_append, messages, messages, ih, behind_cons, List.append_assoc]

theorem asides (s : UnderWay κ α) (n : Nat) :
    s.messages (List.replicate n .aside) = [] ∧ s.behind (List.replicate n .aside) = s := by
  induction n with
  | zero => exact ⟨rfl, rfl⟩
  | succ n ih => exact ⟨ih.1, ih.2⟩

end UnderWay

/-! ## Messages that are cut up -/

/-- A message in fragments; each number says how many other pieces stand in front of one. -/
structure CutMessage (κ : Type u) (α : Type v) where
  kind : κ
  head : Nat × List α
  tail : List (Nat × List α)

namespace CutMessage

/-- The message as a whole. -/
def whole (m : CutMessage κ α) : κ × List α := (m.kind, m.head.2 ++ m.tail.flatMap Prod.snd)

/-- The further fragments. -/
def furthers : List (Nat × List α) → List (Piece κ α)
  | [] => []
  | (n, data) :: tail => List.replicate n .aside ++ .further tail.isEmpty data :: furthers tail

/-- The pieces of a message. -/
def pieces (m : CutMessage κ α) : List (Piece κ α) :=
  List.replicate m.head.1 .aside ++ .first m.kind m.tail.isEmpty m.head.2 :: furthers m.tail

theorem furthers_spec (kind : κ) (got : List α) (tail : List (Nat × List α)) (htail : tail ≠ []) :
    UnderWay.messages (some (kind, got)) (furthers tail) =
        [(kind, got ++ tail.flatMap Prod.snd)] ∧
      UnderWay.behind (some (kind, got)) (furthers tail) = none := by
  induction tail generalizing got with
  | nil => exact absurd rfl htail
  | cons fragment tail ih =>
    obtain ⟨n, data⟩ := fragment
    obtain ⟨hmessages, hbehind⟩ := UnderWay.asides (κ := κ) (α := α) (some (kind, got)) n
    rw [furthers, UnderWay.messages_append, UnderWay.behind_append, hmessages, hbehind,
      List.nil_append, UnderWay.messages, UnderWay.behind_cons]
    cases tail with
    | nil => simp [UnderWay.done, UnderWay.next, furthers, UnderWay.messages]
    | cons fragment tail =>
      have hrest := ih (got ++ data) (List.cons_ne_nil _ _)
      simpa [UnderWay.done, UnderWay.next] using hrest

/-- A message is completed once, as a whole, whatever was under way. -/
theorem pieces_spec (s : UnderWay κ α) (m : CutMessage κ α) :
    s.messages m.pieces = [m.whole] ∧ s.behind m.pieces = none := by
  obtain ⟨hmessages, hbehind⟩ := UnderWay.asides s m.head.1
  rw [pieces, UnderWay.messages_append, UnderWay.behind_append, hmessages, hbehind,
    List.nil_append, UnderWay.messages, UnderWay.behind_cons]
  cases htail : m.tail with
  | nil => simp [UnderWay.done, UnderWay.next, furthers, UnderWay.messages, whole, htail]
  | cons fragment tail =>
    have hrest := furthers_spec m.kind m.head.2 (fragment :: tail) (List.cons_ne_nil _ _)
    simpa [UnderWay.done, UnderWay.next, whole, htail] using hrest

/-- A run of messages is completed message by message. -/
theorem messages_spec (s : UnderWay κ α) (ms : List (CutMessage κ α)) :
    s.messages (ms.flatMap pieces) = ms.map whole := by
  induction ms generalizing s with
  | nil => rfl
  | cons m ms ih =>
    obtain ⟨hmessages, hbehind⟩ := pieces_spec s m
    rw [List.flatMap_cons, UnderWay.messages_append, hmessages, hbehind, ih, List.map_cons]
    rfl

/-- Further fragments of which none is the last. -/
def openFurthers (tail : List (Nat × List α)) : List (Piece κ α) :=
  tail.flatMap fun fragment => List.replicate fragment.1 .aside ++ [.further false fragment.2]

theorem furthers_concat (tail : List (Nat × List α)) (n : Nat) (data : List α) :
    furthers (κ := κ) (tail ++ [(n, data)]) =
      openFurthers tail ++ (List.replicate n .aside ++ [.further true data]) := by
  induction tail with
  | nil => rfl
  | cons fragment tail ih =>
    have hmore : (tail ++ [(n, data)]).isEmpty = false := by simp
    rw [List.cons_append, furthers, ih, hmore, openFurthers, openFurthers, List.flatMap_cons]
    simp

/-- Whatever is under way has a first fragment and then further ones. -/
theorem behind_spec (ps : List (Piece κ α)) {kind : κ} {data : List α}
    (h : UnderWay.behind none ps = some (kind, data)) :
    ∃ before first tail n, ps = before ++ (.first kind false first :: (openFurthers tail ++
        List.replicate n .aside)) ∧ data = first ++ tail.flatMap Prod.snd := by
  induction ps using List.reverseRecOn generalizing data with
  | nil => cases h
  | append_singleton ps p ih =>
    rw [UnderWay.behind_append, UnderWay.behind_cons, UnderWay.behind_nil] at h
    cases p with
    | first kind' last first =>
      cases last with
      | true => cases h
      | false =>
        obtain ⟨rfl, rfl⟩ := Prod.mk.inj (Option.some.inj h)
        exact ⟨ps, first, [], 0, rfl, (List.append_nil first).symm⟩
    | further last more =>
      cases last with
      | true => cases h
      | false =>
        obtain ⟨⟨kind', got⟩, hbehind, hm⟩ := Option.map_eq_some_iff.1 h
        obtain ⟨rfl, rfl⟩ := Prod.mk.inj hm
        obtain ⟨before, first, tail, n, hps, rfl⟩ := ih hbehind
        refine ⟨before, first, tail ++ [(n, more)], 0, ?_, ?_⟩
        · simp [hps, openFurthers]
        · simp
    | aside =>
      obtain ⟨before, first, tail, n, hps, rfl⟩ := ih h
      refine ⟨before, first, tail, n + 1, ?_, rfl⟩
      simp [hps, List.replicate_succ']

/-- Every message that is completed stands among the pieces as a whole. -/
theorem mem_messages {ps : List (Piece κ α)} {m : κ × List α}
    (h : m ∈ UnderWay.messages none ps) :
    ∃ before cut after, ps = before ++ (pieces cut ++ after) ∧ cut.whole = m := by
  induction ps using List.reverseRecOn with
  | nil => exact absurd h List.not_mem_nil
  | append_singleton ps p ih =>
    rw [UnderWay.messages_append, List.mem_append] at h
    rcases h with h | h
    · obtain ⟨before, cut, after, hps, hwhole⟩ := ih h
      exact ⟨before, cut, after ++ [p], by simp [hps], hwhole⟩
    · rw [UnderWay.messages, UnderWay.messages, List.append_nil, Option.mem_toList] at h
      cases p with
      | first kind last first =>
        cases last with
        | false => cases h
        | true =>
          obtain rfl := Option.some.inj h
          exact ⟨ps, ⟨kind, (0, first), []⟩, [], rfl, by simp [whole]⟩
      | further last more =>
        cases last with
        | false => cases h
        | true =>
          obtain ⟨⟨kind, got⟩, hbehind, rfl⟩ := Option.map_eq_some_iff.1 h
          obtain ⟨before, first, tail, n, hps, rfl⟩ := behind_spec ps hbehind
          refine ⟨before, ⟨kind, (0, first), tail ++ [(n, more)]⟩, [], ?_, by simp [whole]⟩
          have hmore : (tail ++ [(n, more)]).isEmpty = false := by simp
          rw [pieces, furthers_concat, hmore, hps]
          simp
      | aside => cases h

end CutMessage

end TinyFramework.Foundation
