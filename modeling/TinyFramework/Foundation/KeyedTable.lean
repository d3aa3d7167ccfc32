/-
  Foundation/KeyedTable.lean --- bounded arrays whose entries are found by a key.

  An entry is placed over the first one of its key, or behind the last; in a full array the
  first entry is shifted out for it.  Keys stay apart, the bound is kept, and the only other
  entry that can go is the first of a full array.
-/
import Mathlib.Data.List.Nodup

set_option autoImplicit false

namespace TinyFramework.Foundation

universe u v

namespace KeyedTable

variable {α : Type u} {κ : Type v} [DecidableEq κ] (key : α → κ) (cap : Nat)

/-- The first entry of a key. -/
def slot (k : κ) (t : List α) : Option Nat := t.findIdx? fun y => key y = k

/-- Room for one more. -/
def makeRoom (t : List α) : List α := if cap ≤ t.length then t.tail.take (cap - 1) else t

/-- Put an entry over that of its key, or behind the last. -/
def place (x : α) (t : List α) : List α :=
  match slot key (key x) t with
  | some i => t.set i x
  | none => makeRoom cap t ++ [x]

/-- The entry that a place behind the last takes out. -/
def Evicts (k : κ) (t : List α) (y : α) : Prop :=
  slot key k t = none ∧ cap ≤ t.length ∧ t.head? = some y

variable {key cap} {k : κ} {t : List α} {x y : α} {i : Nat}

theorem slot_eq_none : slot key k t = none ↔ ∀ y ∈ t, key y ≠ k := by
  unfold slot
  rw [List.findIdx?_eq_none_iff]
  simp

theorem slot_eq_some (h : slot key k t = some i) : ∃ y, t[i]? = some y ∧ key y = k := by
  unfold slot at h
  obtain ⟨hi, hkey, -⟩ := List.findIdx?_eq_some_iff_getElem.1 h
  exact ⟨t[i], List.getElem?_eq_getElem hi, by simpa using hkey⟩

/-- A table with distinct keys is cut at an entry into parts without its key. -/
theorem split_of_slot (hdistinct : (t.map key).Nodup) (h : slot key k t = some i) :
    ∃ a y b, t = a ++ y :: b ∧ a.length = i ∧ key y = k ∧
      (∀ z ∈ a, key z ≠ k) ∧ ∀ z ∈ b, key z ≠ k := by
  obtain ⟨y, hy, hkey⟩ := slot_eq_some h
  obtain ⟨hi, rfl⟩ := List.getElem?_eq_some_iff.1 hy
  have hsplit : t = t.take i ++ t[i] :: t.drop (i + 1) := by
    rw [← List.drop_eq_getElem_cons hi, List.take_append_drop]
  rw [hsplit, List.map_append, List.map_cons, List.nodup_append] at hdistinct
  obtain ⟨-, hback, hcross⟩ := hdistinct
  refine ⟨t.take i, t[i], t.drop (i + 1), hsplit, List.length_take_of_le (Nat.le_of_lt hi), hkey,
    ?_, ?_⟩
  · intro z hz hzk
    exact hcross (key z) (List.mem_map_of_mem hz) (key t[i]) List.mem_cons_self
      (hzk.trans hkey.symm)
  · intro z hz hzk
    have hnot := (List.nodup_cons.1 hback).1
    exact hnot (List.mem_map.2 ⟨z, hz, hzk.trans hkey.symm⟩)

theorem makeRoom_sublist : (makeRoom cap t).Sublist t := by
  unfold makeRoom
  split_ifs
  · exact (List.take_sublist _ _).trans (List.tail_sublist _)
  · exact List.Sublist.refl _

theorem length_makeRoom (hcap : 0 < cap) : (makeRoom cap t).length < cap := by
  unfold makeRoom
  split_ifs with hfull
  · rw [List.length_take]
    omega
  · exact Nat.lt_of_not_le hfull

/-- In a table that keeps the bound, only the first entry makes room. -/
theorem mem_makeRoom (hbound : t.length ≤ cap) (hy : y ∈ t) (hstays : ¬ (cap ≤ t.length ∧
    t.head? = some y)) : y ∈ makeRoom cap t := by
  unfold makeRoom
  split_ifs with hfull
  · cases t with
    | nil => cases hy
    | cons z t =>
      have hlen : t.length ≤ cap - 1 := by
        rw [List.length_cons] at hbound
        omega
      rw [List.tail_cons, List.take_of_length_le hlen]
      rcases List.mem_cons.1 hy with rfl | hy
      · exact absurd ⟨hfull, rfl⟩ hstays
      · exact hy
  · exact hy

theorem place_of_slot (h : slot key (key x) t = some i) : place key cap x t = t.set i x := by
  rw [place, h]

theorem place_of_none (h : slot key (key x) t = none) :
    place key cap x t = makeRoom cap t ++ [x] := by
  rw [place, h]

theorem self_mem_place : x ∈ place key cap x t := by
  cases h : slot key (key x) t with
  | some i =>
    obtain ⟨y, hy, -⟩ := slot_eq_some h
    obtain ⟨hi, -⟩ := List.getElem?_eq_some_iff.1 hy
    rw [place_of_slot h]
    exact List.mem_set hi x
  | none =>
    rw [place_of_none h]
    exact List.mem_append_right _ (List.mem_singleton_self x)

theorem length_place (hbound : t.length ≤ cap) (hcap : 0 < cap) :
    (place key cap x t).length ≤ cap := by
  cases h : slot key (key x) t with
  | some i => rwa [place_of_slot h, List.length_set]
  | none =>
    rw [place_of_none h, List.length_append, List.length_singleton]
    exact length_makeRoom hcap

/-- What is in the table afterwards: the entry, and others of before with other keys. -/
theorem mem_place (hdistinct : (t.map key).Nodup) (hy : y ∈ place key cap x t) :
    y = x ∨ y ∈ t ∧ key y ≠ key x := by
  cases h : slot key (key x) t with
  | some i =>
    obtain ⟨a, z, b, rfl, rfl, -, ha, hb⟩ := split_of_slot hdistinct h
    rw [place_of_slot h, List.set_append_right _ _ (Nat.le_refl _), Nat.sub_self,
      List.set_cons_zero, List.mem_append, List.mem_cons] at hy
    rcases hy with hy | rfl | hy
    · exact Or.inr ⟨List.mem_append_left _ hy, ha y hy⟩
    · exact Or.inl rfl
    · exact Or.inr ⟨List.mem_append_right _ (List.mem_cons_of_mem _ hy), hb y hy⟩
  | none =>
    rw [place_of_none h, List.mem_append, List.mem_singleton] at hy
    rcases hy with hy | rfl
    · have hmem := makeRoom_sublist.subset hy
      exact Or.inr ⟨hmem, slot_eq_none.1 h y hmem⟩
    · exact Or.inl rfl

/-- An entry of another key stays unless it is shifted out. -/
theorem mem_place_of_ne (hdistinct : (t.map key).Nodup) (hbound : t.length ≤ cap) (hy : y ∈ t)
    (hne : key y ≠ key x) (hstays : ¬ Evicts key cap (key x) t y) : y ∈ place key cap x t := by
  cases h : slot key (key x) t with
  | some i =>
    obtain ⟨a, z, b, rfl, rfl, hz, -, -⟩ := split_of_slot hdistinct h
    rw [place_of_slot h, List.set_append_right _ _ (Nat.le_refl _), Nat.sub_self,
      List.set_cons_zero]
    rcases List.mem_append.1 hy with hy | hy
    · exact List.mem_append_left _ hy
    · rcases List.mem_cons.1 hy with rfl | hy
      · exact absurd hz hne
      · exact List.mem_append_right _ (List.mem_cons_of_mem _ hy)
  | none =>
    rw [place_of_none h]
    exact List.mem_append_left _ (mem_makeRoom hbound hy fun hfull => hstays ⟨h, hfull⟩)

/-- The entry that is shifted out is gone. -/
theorem not_mem_place_of_evicts (hdistinct : (t.map key).Nodup) (hne : key y ≠ key x)
    (h : Evicts key cap (key x) t y) : y ∉ place key cap x t := by
  obtain ⟨hslot, hfull, hhead⟩ := h
  cases t with
  | nil => cases hhead
  | cons z t =>
    obtain rfl := Option.some.inj hhead
    rw [place_of_none hslot, makeRoom, if_pos hfull, List.mem_append, List.mem_singleton]
    rintro (hmem | rfl)
    · rw [List.map_cons, List.nodup_cons] at hdistinct
      exact hdistinct.1 (List.mem_map_of_mem (List.mem_of_mem_take hmem))
    · exact hne rfl

theorem nodup_place (hdistinct : (t.map key).Nodup) : ((place key cap x t).map key).Nodup := by
  cases h : slot key (key x) t with
  | some i =>
    obtain ⟨y, hy, hkey⟩ := slot_eq_some h
    obtain ⟨hi, rfl⟩ := List.getElem?_eq_some_iff.1 hy
    have hlength : i < (t.map key).length := by simpa using hi
    have hself : (t.map key)[i] = key x := by simpa using hkey
    rw [place_of_slot h, List.map_set, ← hself, List.set_getElem_self]
    exact hdistinct
  | none =>
    rw [place_of_none h, List.map_append, List.nodup_append]
    refine ⟨hdistinct.sublist (makeRoom_sublist.map key), List.nodup_singleton _, ?_⟩
    intro k hk k' hk' heq
    obtain ⟨y, hy, rfl⟩ := List.mem_map.1 hk
    rw [List.map_singleton, List.mem_singleton] at hk'
    exact slot_eq_none.1 h y (makeRoom_sublist.subset hy) (heq.trans hk')

/-- What was placed is found by its key. -/
theorem find_place : (place key cap x t).find? (fun y => key y = key x) = some x := by
  cases h : slot key (key x) t with
  | some i =>
    rw [place_of_slot h]
    induction t generalizing i with
    | nil => cases h
    | cons y t ih =>
      unfold slot at h
      rcases eq_or_ne (key y) (key x) with hy | hy
      · obtain rfl : i = 0 := by simpa [List.findIdx?_cons, hy, eq_comm] using h
        exact List.find?_cons_of_pos (by simp)
      · have hrest : Option.map (· + 1) (slot key (key x) t) = some i := by
          simpa [slot, List.findIdx?_cons, hy] using h
        obtain ⟨j, hj, rfl⟩ := Option.map_eq_some_iff.1 hrest
        rw [List.set_cons_succ, List.find?_cons_of_neg (by simpa using hy), ih j hj]
  | none =>
    have hroom : (makeRoom cap t).find? (fun y => key y = key x) = none :=
      List.find?_eq_none.2 fun y hy => by
        simpa using slot_eq_none.1 h y (makeRoom_sublist.subset hy)
    rw [place_of_none h, List.find?_append, hroom, Option.none_or]
    exact List.find?_cons_of_pos (by simp)

/-- An entry that is taken out by its key leaves none of it. -/
theorem key_ne_of_mem_eraseP (hdistinct : (t.map key).Nodup)
    (hy : y ∈ t.eraseP fun z => key z = k) : key y ≠ k := by
  induction t with
  | nil => cases hy
  | cons z t ih =>
    rw [List.map_cons, List.nodup_cons] at hdistinct
    rcases eq_or_ne (key z) k with hz | hz
    · rw [List.eraseP_cons_of_pos (by simpa using hz)] at hy
      exact fun hkey => hdistinct.1 (List.mem_map.2 ⟨y, hy, hkey.trans hz.symm⟩)
    · rw [List.eraseP_cons_of_neg (by simpa using hz)] at hy
      rcases List.mem_cons.1 hy with rfl | hy
      · exact hz
      · exact ih hdistinct.2 hy

end KeyedTable

end TinyFramework.Foundation
