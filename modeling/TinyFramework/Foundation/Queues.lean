/-
  Foundation/Queues.lean --- queues in a chain of cells and in a ring.

  The cells of several queues lie in one store, and addresses that were given back are handed out
  again.  What a queue holds is a list: entries come in at the tail and go out at the head, and a
  queue does not notice what happens to cells that are not its own.

  An entry is written at the head, over the oldest one when the circle is full.  What the circle
  holds is the end of what was written, in that order.
-/
import Mathlib.Data.List.Nodup

set_option autoImplicit false

namespace TinyFramework.Foundation

universe u

section Linked

variable {α : Type u}

structure Cell (α : Type u) where
  item : α
  next : Option Nat

/-- The addresses in use, and what lies at every address. -/
structure CellStore (α : Type u) where
  live : List Nat
  cell : Nat → Cell α

/-- An address for the next cell, which is not in use. -/
structure CellAllocator where
  pick : List Nat → Nat
  fresh : ∀ live, pick live ∉ live

/-- The address behind all that are in use. -/
def CellAllocator.behind : CellAllocator where
  pick live := live.foldr (fun a n => max (a + 1) n) 0
  fresh live := by
    have hlt : ∀ a ∈ live, a < live.foldr (fun a n => max (a + 1) n) 0 := by
      induction live with
      | nil => exact fun _ h => absurd h List.not_mem_nil
      | cons b live ih =>
        intro a ha
        rw [List.foldr_cons]
        rcases List.mem_cons.1 ha with rfl | ha
        · exact Nat.le_max_left _ _
        · exact Nat.lt_of_lt_of_le (ih a ha) (Nat.le_max_right _ _)
    exact fun hmem => absurd (hlt _ hmem) (Nat.lt_irrefl _)

structure LinkedQueue where
  head : Option Nat := none
  tail : Option Nat := none

namespace CellStore

variable (s : CellStore α)

/-- The store with a new cell that is not linked yet. -/
def withCell (alloc : CellAllocator) (x : α) : CellStore α :=
  ⟨alloc.pick s.live :: s.live, Function.update s.cell (alloc.pick s.live) ⟨x, none⟩⟩

/-- A new cell behind the tail. -/
def enqueue (alloc : CellAllocator) (q : LinkedQueue) (x : α) : CellStore α × LinkedQueue :=
  let t := alloc.pick s.live
  let s := s.withCell alloc x
  match q.tail with
  | some l => (⟨s.live, Function.update s.cell l { s.cell l with next := some t }⟩,
      { q with tail := some t })
  | none => (s, { head := some t, tail := some t })

theorem enqueue_of_tail {alloc : CellAllocator} {q : LinkedQueue} {l : Nat} (hl : q.tail = some l)
    (x : α) :
    s.enqueue alloc q x =
      (⟨(s.withCell alloc x).live, Function.update (s.withCell alloc x).cell l
          { (s.withCell alloc x).cell l with next := some (alloc.pick s.live) }⟩,
        { q with tail := some (alloc.pick s.live) }) := by
  unfold enqueue
  rw [hl]

theorem enqueue_of_empty {alloc : CellAllocator} {q : LinkedQueue} (hq : q.tail = none) (x : α) :
    s.enqueue alloc q x =
      (s.withCell alloc x,
        { head := some (alloc.pick s.live), tail := some (alloc.pick s.live) }) := by
  unfold enqueue
  rw [hq]

/-- The cell at the head, which is still in use, and the queue without it. -/
def dequeue (q : LinkedQueue) : Option (Nat × LinkedQueue) :=
  q.head.map fun t =>
    let next := (s.cell t).next
    (t, { head := next, tail := if next.isNone then none else q.tail })

def free (t : Nat) : CellStore α := { s with live := s.live.erase t }

end CellStore

/-! ## What a queue holds -/

/-- Cells in a row, and their entries. -/
def Chained (cell : Nat → Cell α) : List Nat → List α → Prop
  | [], [] => True
  | a :: as, x :: xs => cell a = ⟨x, as.head?⟩ ∧ Chained cell as xs
  | _, _ => False

theorem Chained.congr {cell cell' : Nat → Cell α} {as : List Nat} {xs : List α}
    (h : Chained cell as xs) (hsame : ∀ a ∈ as, cell' a = cell a) : Chained cell' as xs := by
  induction as generalizing xs with
  | nil =>
    cases xs with
    | nil => exact h
    | cons x xs => exact h
  | cons a as ih =>
    cases xs with
    | nil => exact h
    | cons x xs =>
      obtain ⟨hcell, hrest⟩ := h
      exact ⟨(hsame a List.mem_cons_self).trans hcell,
        ih hrest fun b hb => hsame b (List.mem_cons_of_mem _ hb)⟩

/-- The last cell is linked to one more. -/
theorem Chained.concat {cell : Nat → Cell α} {as : List Nat} {l : Nat} {xs : List α} {t : Nat}
    {x : α} (h : Chained cell (as ++ [l]) xs) (hnodup : (as ++ [l]).Nodup) (ht : t ∉ as ++ [l])
    (hnew : cell t = ⟨x, none⟩) :
    Chained (Function.update cell l { cell l with next := some t }) (as ++ [l] ++ [t])
      (xs ++ [x]) := by
  induction as generalizing xs with
  | nil =>
    obtain _ | ⟨y, xs⟩ := xs
    · exact h.elim
    · obtain ⟨hcell, hrest⟩ := h
      obtain _ | ⟨z, xs⟩ := xs
      · have htl : t ≠ l := fun hsame => ht (hsame ▸ List.mem_singleton_self _)
        refine ⟨?_, ?_, trivial⟩
        · rw [Function.update_self, hcell]
          rfl
        · rw [Function.update_of_ne htl, hnew]
          rfl
      · exact hrest.elim
  | cons a as ih =>
    obtain _ | ⟨y, xs⟩ := xs
    · exact h.elim
    · obtain ⟨hcell, hrest⟩ := h
      rw [List.cons_append, List.nodup_cons] at hnodup
      have hal : a ≠ l := fun hsame =>
        hnodup.1 (hsame ▸ List.mem_append_right _ (List.mem_singleton_self _))
      refine ⟨?_, ih hrest hnodup.2 fun hmem => ht (List.mem_cons_of_mem _ hmem)⟩
      rw [Function.update_of_ne hal, hcell]
      cases as <;> rfl

/-- A queue whose cells are `as`, with the entries `xs`. -/
structure LinkedQueue.Holds (q : LinkedQueue) (s : CellStore α) (as : List Nat) (xs : List α) :
    Prop where
  head : q.head = as.head?
  tail : q.tail = as.getLast?
  nodup : as.Nodup
  live : ∀ a ∈ as, a ∈ s.live
  chained : Chained s.cell as xs

namespace LinkedQueue.Holds

variable {q : LinkedQueue} {s s' : CellStore α} {as : List Nat} {xs : List α}

theorem empty (s : CellStore α) : LinkedQueue.Holds {} s [] [] :=
  ⟨rfl, rfl, List.nodup_nil, fun _ h => absurd h List.not_mem_nil, trivial⟩

/-- Nothing has changed for a queue if its cells are in use and as they were. -/
theorem frame (h : q.Holds s as xs) (hlive : ∀ a ∈ as, a ∈ s'.live)
    (hsame : ∀ a ∈ as, s'.cell a = s.cell a) : q.Holds s' as xs :=
  ⟨h.head, h.tail, h.nodup, hlive, h.chained.congr hsame⟩

theorem entries_of_head_none (h : q.Holds s as xs) (hq : q.head = none) : xs = [] := by
  rw [h.head, List.head?_eq_none_iff] at hq
  subst hq
  have hchained := h.chained
  cases xs with
  | nil => rfl
  | cons x xs => exact hchained.elim

variable {alloc : CellAllocator} {x : α}

theorem cell_withCell_of_live {a : Nat} (ha : a ∈ s.live) :
    (s.withCell alloc x).cell a = s.cell a :=
  Function.update_of_ne (by rintro rfl; exact alloc.fresh s.live ha) ..

theorem cell_withCell_self : (s.withCell alloc x).cell (alloc.pick s.live) = ⟨x, none⟩ :=
  Function.update_self ..

/-- The new entry is the last. -/
theorem enqueue (h : q.Holds s as xs) :
    (s.enqueue alloc q x).2.Holds (s.enqueue alloc q x).1 (as ++ [alloc.pick s.live])
      (xs ++ [x]) := by
  have hfresh : alloc.pick s.live ∉ as := fun hmem => alloc.fresh _ (h.live _ hmem)
  have hchained : Chained (s.withCell alloc x).cell as xs :=
    h.chained.congr fun a ha => cell_withCell_of_live (h.live a ha)
  have hnodup : (as ++ [alloc.pick s.live]).Nodup := by
    refine List.nodup_append.2 ⟨h.nodup, List.nodup_singleton _, ?_⟩
    rintro a ha b hb rfl
    exact hfresh (List.mem_singleton.1 hb ▸ ha)
  have hlive : ∀ a ∈ as ++ [alloc.pick s.live], a ∈ alloc.pick s.live :: s.live := by
    intro a ha
    rcases List.mem_append.1 ha with ha | ha
    · exact List.mem_cons_of_mem _ (h.live a ha)
    · exact List.mem_singleton.1 ha ▸ List.mem_cons_self
  have htail := h.tail
  rcases List.eq_nil_or_concat as with rfl | ⟨as, l, rfl⟩
  · have hxs : xs = [] := h.entries_of_head_none h.head
    subst hxs
    rw [CellStore.enqueue_of_empty s htail]
    exact ⟨rfl, rfl, hnodup, hlive, cell_withCell_self, trivial⟩
  · rw [List.concat_eq_append] at *
    rw [List.getLast?_concat] at htail
    rw [CellStore.enqueue_of_tail s htail]
    refine ⟨?_, ?_, hnodup, hlive, hchained.concat h.nodup hfresh cell_withCell_self⟩
    · show q.head = _
      rw [h.head]
      cases as <;> rfl
    · rw [List.getLast?_concat]

/-- No other cell is touched. -/
theorem cell_enqueue (h : q.Holds s as xs) {a : Nat} (hlive : a ∈ s.live) (ha : a ∉ as) :
    (s.enqueue alloc q x).1.cell a = s.cell a := by
  cases htail : q.tail with
  | none =>
    rw [CellStore.enqueue_of_empty s htail]
    exact cell_withCell_of_live hlive
  | some l =>
    have hal : a ≠ l := by
      rintro rfl
      exact ha (List.mem_of_getLast? (h.tail.symm.trans htail))
    rw [CellStore.enqueue_of_tail s htail]
    exact (Function.update_of_ne hal ..).trans (cell_withCell_of_live hlive)

theorem live_enqueue : (s.enqueue alloc q x).1.live = alloc.pick s.live :: s.live := by
  cases htail : q.tail with
  | none => rw [CellStore.enqueue_of_empty s htail]; rfl
  | some l => rw [CellStore.enqueue_of_tail s htail]; rfl

/-- The first entry goes out first. -/
theorem dequeue {a : Nat} (h : q.Holds s (a :: as) (x :: xs)) :
    ∃ q', s.dequeue q = some (a, q') ∧ (s.cell a).item = x ∧ q'.Holds s as xs := by
  obtain ⟨hcell, hrest⟩ := h.chained
  have hhead : q.head = some a := h.head
  refine ⟨_, by rw [CellStore.dequeue, hhead]; rfl, by rw [hcell], ?_⟩
  refine ⟨by rw [hcell], ?_, (List.nodup_cons.1 h.nodup).2,
    fun b hb => h.live b (List.mem_cons_of_mem _ hb), hrest⟩
  rw [hcell]
  show (if as.head?.isNone then none else q.tail) = as.getLast?
  rw [h.tail]
  cases as <;> rfl

end LinkedQueue.Holds

end Linked

/-! ## A circle of slots -/

section Ring

variable {α : Type u} {cap : Nat}

/-- A circle of `cap` slots, of which the `count` slots in front of `head` are in use. -/
structure RingBuffer (α : Type u) (cap : Nat) where
  slot : Nat → α
  head : Nat
  count : Nat
  head_lt : head < cap
  count_le : count ≤ cap

namespace RingBuffer

variable (r : RingBuffer α cap)

/-- The slot of the oldest entry. -/
def start : Nat := (r.head + cap - r.count) % cap

/-- The entry `i` places behind the oldest. -/
def nth (i : Nat) : α := r.slot ((r.start + i) % cap)

/-- `n` entries from the one `i` places behind the oldest on. -/
def read (i n : Nat) : List α := (List.range n).map fun k => r.nth (i + k)

/-- All entries, the oldest first. -/
def contents : List α := r.read 0 r.count

def push (x : α) : RingBuffer α cap :=
  { slot := Function.update r.slot r.head x
    head := (r.head + 1) % cap
    count := if r.count < cap then r.count + 1 else r.count
    head_lt := Nat.mod_lt _ (Nat.zero_lt_of_lt r.head_lt)
    count_le := by
      have := r.count_le
      split_ifs <;> omega }

def clear : RingBuffer α cap :=
  { r with
    head := 0
    count := 0
    head_lt := Nat.zero_lt_of_lt r.head_lt
    count_le := Nat.zero_le _ }

@[simp] theorem length_read (i n : Nat) : (r.read i n).length = n := by
  rw [read, List.length_map, List.length_range]

@[simp] theorem length_contents : r.contents.length = r.count := r.length_read 0 _

/-- What is read within the entries in use. -/
theorem read_eq {i n : Nat} (h : i + n ≤ r.count) : r.read i n = (r.contents.drop i).take n := by
  refine List.ext_getElem ?_ fun k hk _ => ?_
  · rw [length_read, List.length_take, List.length_drop, length_contents]
    omega
  · simp [read, contents]

/-- A remainder that goes round at most once. -/
theorem mod_of_lt_double {a : Nat} (h : a < 2 * cap) :
    a % cap = if a < cap then a else a - cap := by
  split_ifs with ha
  · exact Nat.mod_eq_of_lt ha
  · rw [Nat.mod_eq_sub_mod (Nat.le_of_not_lt ha), Nat.mod_eq_of_lt (by omega)]

theorem start_eq : r.start = if r.count ≤ r.head then r.head - r.count
    else r.head + cap - r.count := by
  have hhead := r.head_lt
  have hcount := r.count_le
  rw [start, mod_of_lt_double (by omega)]
  split_ifs <;> omega

theorem start_lt : r.start < cap := Nat.mod_lt _ (Nat.zero_lt_of_lt r.head_lt)

/-- The slot that is `i` places behind the oldest entry. -/
theorem place_eq {i : Nat} (hi : i ≤ cap) :
    (r.start + i) % cap = if r.start + i < cap then r.start + i else r.start + i - cap :=
  mod_of_lt_double (by have := r.start_lt; omega)

theorem push_start (x : α) :
    (r.push x).start = if r.count < cap then r.start else (r.head + 1) % cap := by
  have hhead := r.head_lt
  have hcount := r.count_le
  have hnext : (r.push x).head = if r.head + 1 < cap then r.head + 1 else 0 := by
    show (r.head + 1) % cap = _
    rw [mod_of_lt_double (by omega)]
    split_ifs <;> omega
  have hmore : (r.push x).count = if r.count < cap then r.count + 1 else r.count := rfl
  rw [start_eq, start_eq, hnext, hmore, mod_of_lt_double (by omega)]
  split_ifs <;> omega

/-- The circle holds the entry behind what it held, without the oldest if it was full. -/
theorem contents_push (x : α) :
    (r.push x).contents = (r.contents ++ [x]).drop (r.count + 1 - cap) := by
  have hhead := r.head_lt
  have hcount := r.count_le
  have hstart := r.start_lt
  have hwhere := r.start_eq
  have hmore : (r.push x).count = if r.count < cap then r.count + 1 else r.count := rfl
  refine List.ext_getElem ?_ fun i hi _ => ?_
  · rw [length_contents, List.length_drop, List.length_append, length_contents, hmore,
      List.length_singleton]
    split_ifs <;> omega
  · have hnth : (r.push x).contents[i] =
        Function.update r.slot r.head x (((r.push x).start + i) % cap) := by
      simp [contents, read, nth, push]
    rw [length_contents, hmore] at hi
    have hplace : ((r.push x).start + i) % cap = (r.start + (r.count + 1 - cap + i)) % cap := by
      rw [push_start]
      split_ifs at hi ⊢ with hfull
      · rw [show r.count + 1 - cap = 0 by omega, Nat.zero_add]
      · rw [Nat.mod_add_mod, show r.count + 1 - cap = 1 by omega, ← Nat.add_assoc]
        have : r.start = r.head := by
          rw [hwhere]
          split_ifs <;> omega
        rw [this]
    rw [hnth, hplace, List.getElem_drop, List.getElem_append]
    have hbound : r.count + 1 - cap + i ≤ cap := by
      split_ifs at hi <;> omega
    split_ifs with hold
    · rw [length_contents] at hold
      have hne : (r.start + (r.count + 1 - cap + i)) % cap ≠ r.head := by
        rw [r.place_eq hbound, hwhere]
        split_ifs <;> omega
      rw [Function.update_of_ne hne]
      simp [contents, read, nth]
    · rw [length_contents] at hold
      have hlast : r.count + 1 - cap + i = r.count := by
        split_ifs at hi <;> omega
      have hat : (r.start + (r.count + 1 - cap + i)) % cap = r.head := by
        rw [hlast, r.place_eq hcount, hwhere]
        split_ifs <;> omega
      rw [hat, Function.update_self, List.getElem_singleton]

end RingBuffer

end Ring

end TinyFramework.Foundation
