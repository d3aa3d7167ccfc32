/-
  App/LogRing.lean --- the ring of log entries, and a poller that asks for what is new.

  `g_total` counts all entries, from 0 on, so the entries behind a count `c` are those of the
  numbers `c` and more; `mini_log_since` begins with the number `c + 1`.  `mini_log_recent` copies
  from the oldest entry on.  An entry is whatever `ring_push` is given.
-/
import Mathlib.Algebra.Group.Nat.Defs
import TinyFramework.Foundation.Histories
import TinyFramework.Foundation.Queues

set_option autoImplicit false

namespace TinyFramework.App

open TinyFramework.Foundation

universe u

variable {α : Type u}

/-- `MINI_LOG_RING_CAP` -/
def miniLogRingCap : Nat := 1024

/-- `g_ring`, `g_ring_head` and `g_ring_count`; `g_total`, an `unsigned long`. -/
structure LogState (α : Type u) where
  ring : RingBuffer α miniLogRingCap
  total : Nat

namespace LogState

/-- `ring_push` -/
def ringPush (l : LogState α) (e : α) : LogState α :=
  { ring := l.ring.push e, total := (l.total + 1) % 2 ^ 64 }

/-- `mini_log_count` -/
def miniLogCount (l : LogState α) : Nat := l.total

/-- `mini_log_clear` -/
def miniLogClear (l : LogState α) : LogState α := { l with ring := l.ring.clear }

/-- `mini_log_recent`: what it copies, and what it returns. -/
def miniLogRecent (l : LogState α) (max : Int) : List α × Int :=
  let n : Int := if max < l.ring.count then max else l.ring.count
  (l.ring.read 0 n.toNat, if l.ring.count < max then l.ring.count else max)

/-- `mini_log_since`: what it copies, and what it returns. -/
def miniLogSince (l : LogState α) (max : Int) (since : Nat) : List α × Int :=
  if l.ring.count = 0 ∨ l.total ≤ since then ([], 0)
  else
    let oldestGlobal := (l.total + 2 ^ 64 - l.ring.count) % 2 ^ 64
    let wantGlobal := (since + 1) % 2 ^ 64
    let wantGlobal := if wantGlobal < oldestGlobal then oldestGlobal else wantGlobal
    let startI : Nat := wantGlobal - oldestGlobal
    let avail : Int := l.ring.count - startI
    let n := if avail < max then avail else max
    (l.ring.read startI n.toNat, n)

end LogState

/-! ## Runs -/

inductive LogStep (α : Type u) where
  | emit (e : α)
  | clear
  | poll (max : Int)
  | recent (max : Int)

/-- The log and a poller with its count, and what happened: all entries, those since the last
`mini_log_clear`, those since the last poll, and whether the log was cleared since then. -/
structure LogRun (α : Type u) where
  log : LogState α
  cursor : Nat := 0
  emitted : List α := []
  kept : List α := []
  news : List α := []
  cleared : Bool := false

/-- Before any entry; `blank` is what a slot holds at first. -/
def LogRun.start (blank : α) : LogRun α :=
  { log :=
      { ring :=
          { slot := fun _ => blank, head := 0, count := 0, head_lt := Nat.zero_lt_succ _
            count_le := Nat.zero_le _ }
        total := 0 } }

namespace LogRun

def exec (s : LogRun α) : LogStep α → LogRun α
  | .emit e =>
      { s with
        log := s.log.ringPush e
        emitted := s.emitted ++ [e]
        kept := s.kept ++ [e]
        news := s.news ++ [e] }
  | .clear => { s with log := s.log.miniLogClear, kept := [], cleared := true }
  | .poll _ => { s with cursor := s.log.miniLogCount, news := [], cleared := false }
  | .recent _ => s

/-- A poll gives the new entries, if the ring and the buffer have room for them and the log was not
cleared; `mini_log_recent` gives as many of the last entries as there are and fit. -/
def Right (s : LogRun α) : LogStep α → Prop
  | .poll max =>
      s.news.length < miniLogRingCap → (s.news.length : Int) ≤ max → s.cleared = false →
        s.log.miniLogSince max s.cursor = (s.news, (s.news.length : Int))
  | .recent max =>
      let n := min (s.log.ring.count : Int) max
      s.log.miniLogRecent max = (s.kept.drop (s.kept.length - n.toNat), n)
  | _ => True

/-- A poll finds nothing new, or not all that a poll can give; `mini_log_recent` is asked for all
that the ring holds, or for nothing. -/
def Safe (s : LogRun α) : LogStep α → Prop
  | .poll max =>
      s.news.length < miniLogRingCap → (s.news.length : Int) ≤ max → s.cleared = false →
        s.news = []
  | .recent max => max ≤ 0 ∨ (s.log.ring.count : Int) ≤ max
  | _ => True

/-- What the counts and the ring say of what happened. -/
structure Inv (s : LogRun α) : Prop where
  total : s.log.total = s.emitted.length % 2 ^ 64
  cursor : s.cursor = (s.emitted.length - s.news.length) % 2 ^ 64
  news : s.news <:+ s.emitted
  kept : s.kept <:+ s.emitted
  fresh : s.cleared = false → s.news <:+ s.kept
  ring : s.log.ring.contents = s.kept.drop (s.kept.length - miniLogRingCap)

theorem Inv.start (blank : α) : (LogRun.start blank).Inv where
  total := (Nat.zero_mod _).symm
  cursor := (Nat.zero_mod _).symm
  news := List.suffix_rfl
  kept := List.suffix_rfl
  fresh _ := List.suffix_rfl
  ring := List.drop_nil.symm

variable {s : LogRun α}

theorem Inv.count (h : s.Inv) : s.log.ring.count = min s.kept.length miniLogRingCap := by
  have hlength := congrArg List.length h.ring
  rw [RingBuffer.length_contents, List.length_drop] at hlength
  omega

theorem Inv.step (h : s.Inv) (a : LogStep α) : (s.exec a).Inv := by
  cases a with
  | emit e =>
    have hnews := h.news.length_le
    have hcount := h.count
    have hsnoc : ∀ {l l' : List α}, l <:+ l' → l ++ [e] <:+ l' ++ [e] := by
      rintro l _ ⟨t, rfl⟩
      exact ⟨t, (List.append_assoc ..).symm⟩
    refine ⟨?_, ?_, hsnoc h.news, hsnoc h.kept, fun hclear => hsnoc (h.fresh hclear), ?_⟩
    · show (s.log.total + 1) % 2 ^ 64 = (s.emitted ++ [e]).length % 2 ^ 64
      rw [h.total, List.length_append, List.length_singleton]
      omega
    · show s.cursor = ((s.emitted ++ [e]).length - (s.news ++ [e]).length) % 2 ^ 64
      rw [h.cursor, List.length_append, List.length_append, List.length_singleton,
        Nat.add_sub_add_right]
    · show (s.log.ring.push e).contents = (s.kept ++ [e]).drop _
      rw [RingBuffer.contents_push, h.ring, hcount,
        ← List.drop_append_of_le_length (Nat.sub_le _ _), List.drop_drop]
      show List.drop _ _ = List.drop ((s.kept ++ [e]).length - miniLogRingCap) _
      rw [List.length_append, List.length_singleton]
      refine congrArg (fun n => List.drop n (s.kept ++ [e])) ?_
      omega
  | clear =>
    refine ⟨h.total, h.cursor, h.news, List.nil_suffix, fun hclear => ?_, List.drop_nil.symm⟩
    exact absurd hclear (by simp [exec])
  | poll max =>
    exact ⟨h.total, h.total, List.nil_suffix, h.kept, fun _ => List.nil_suffix, h.ring⟩
  | recent max => exact h

/-! ## One call -/

/-- As many of the first entries as of the last are the same ones only if these are all. -/
theorem take_eq_drop_iff {l : List α} (hl : l.Nodup) {n : Nat} (hpos : 0 < n)
    (hn : n ≤ l.length) : l.take n = l.drop (l.length - n) ↔ n = l.length := by
  constructor
  · intro h
    have hfirst : 0 < (l.take n).length := by
      rw [List.length_take]
      omega
    have hat : l[0] = l[l.length - n] := by
      have htake : (l.take n)[0] = l[0] := List.getElem_take
      rw [← htake]
      simp only [h, List.getElem_drop, Nat.add_zero]
    have := (hl.getElem_inj_iff).1 hat
    omega
  · rintro rfl
    simp

theorem Inv.nodup_contents (h : s.Inv) (hdistinct : s.emitted.Nodup) :
    s.log.ring.contents.Nodup := by
  rw [h.ring]
  exact (h.kept.sublist.nodup hdistinct).sublist (List.drop_sublist _ _)

/-- The last entries of the ring are the last ones that were kept. -/
theorem Inv.last_contents (h : s.Inv) {n : Nat} (hn : n ≤ s.log.ring.count) :
    s.log.ring.contents.drop (s.log.ring.count - n) = s.kept.drop (s.kept.length - n) := by
  have hcount := h.count
  rw [h.ring, List.drop_drop]
  refine congrArg (fun n => List.drop n s.kept) ?_
  omega

theorem miniLogRecent_eq (l : LogState α) (max : Int) :
    l.miniLogRecent max = (l.ring.contents.take (min (l.ring.count : Int) max).toNat,
      min (l.ring.count : Int) max) := by
  have hlist : (if max < l.ring.count then max else (l.ring.count : Int)) =
      min (l.ring.count : Int) max := by
    split_ifs <;> omega
  have hreturn : (if (l.ring.count : Int) < max then (l.ring.count : Int) else max) =
      min (l.ring.count : Int) max := by
    split_ifs <;> omega
  unfold LogState.miniLogRecent
  dsimp only
  rw [hlist, hreturn, RingBuffer.read_eq _ (by omega), List.drop_zero]

theorem Inv.recent_right (h : s.Inv) {max : Int} (hsafe : s.Safe (.recent max)) :
    s.Right (.recent max) := by
  show s.log.miniLogRecent max = _
  rw [miniLogRecent_eq, ← h.last_contents (by omega)]
  rcases hsafe with hnone | hall
  · have hzero : (min (s.log.ring.count : Int) max).toNat = 0 := by omega
    rw [hzero, List.take_zero, Nat.sub_zero, ← RingBuffer.length_contents, List.drop_length]
  · have hcount : (min (s.log.ring.count : Int) max).toNat = s.log.ring.count := by omega
    rw [hcount, Nat.sub_self, List.drop_zero, ← RingBuffer.length_contents, List.take_length]

theorem Inv.recent_safe (h : s.Inv) (hdistinct : s.emitted.Nodup) {max : Int}
    (hright : s.Right (.recent max)) : s.Safe (.recent max) := by
  by_contra hno
  obtain ⟨hpos, hfew⟩ : 0 < max ∧ max < (s.log.ring.count : Int) := by
    rw [Safe, not_or] at hno
    omega
  have hsame := congrArg Prod.fst (show s.log.miniLogRecent max = _ from hright)
  rw [miniLogRecent_eq, ← h.last_contents (by omega), ← RingBuffer.length_contents] at hsame
  dsimp only at hsame
  rw [take_eq_drop_iff (h.nodup_contents hdistinct) (by rw [RingBuffer.length_contents]; omega)
    (by rw [RingBuffer.length_contents]; omega), RingBuffer.length_contents] at hsame
  omega

/-- Nothing is given to a poller who has the count that there is. -/
theorem Inv.poll_right (h : s.Inv) {max : Int} (hsafe : s.Safe (.poll max)) :
    s.Right (.poll max) := by
  intro hroom hfits hclear
  have hnone := hsafe hroom hfits hclear
  have hcursor : s.log.total ≤ s.cursor := by
    rw [h.total, h.cursor, hnone]
    exact Nat.le_refl _
  rw [hnone]
  exact if_pos (Or.inr hcursor)

/-- A poll that finds new entries does not give just these: it leaves the first of them out, or
gives the oldest of the ring when the count has begun anew. -/
theorem Inv.poll_safe (h : s.Inv) (hdistinct : s.emitted.Nodup) {max : Int}
    (hright : s.Right (.poll max)) : s.Safe (.poll max) := by
  intro hroom hfits hclear
  by_contra hnew
  have hpos := List.length_pos_iff.2 hnew
  have hgiven := hright hroom hfits hclear
  have hlength := congrArg (fun given => given.1.length) hgiven
  have hcount := h.count
  have hkept := (h.fresh hclear).length_le
  have hemitted := h.news.length_le
  have htotal := h.total
  have hcursor := h.cursor
  have hcap : miniLogRingCap = 1024 := rfl
  unfold LogState.miniLogSince at hgiven hlength
  split_ifs at hgiven hlength with hstop
  · dsimp only at hlength
    rw [List.length_nil] at hlength
    omega
  · obtain ⟨-, hbehind⟩ := not_or.1 hstop
    have hsum : s.log.total = s.cursor + s.news.length := by omega
    dsimp only at hgiven hlength
    rw [RingBuffer.length_read] at hlength
    rcases Nat.lt_or_ge s.log.total s.log.ring.count with hwrapped | hnormal
    · have hfrom : s.cursor + 1 < s.log.total + 2 ^ 64 - s.log.ring.count := by omega
      rw [Nat.mod_eq_of_lt (show s.log.total + 2 ^ 64 - s.log.ring.count < 2 ^ 64 by omega),
        Nat.mod_eq_of_lt (show s.cursor + 1 < 2 ^ 64 by omega), if_pos hfrom, Nat.sub_self]
        at hgiven hlength
      have hlist := congrArg Prod.fst hgiven
      dsimp only at hlist
      rw [hlength, RingBuffer.read_eq _ (by omega), List.drop_zero] at hlist
      have hlast : s.news = s.log.ring.contents.drop (s.log.ring.count - s.news.length) := by
        rw [h.last_contents (by omega)]
        exact List.suffix_iff_eq_drop.1 (h.fresh hclear)
      have hsame := hlist.trans hlast
      rw [← RingBuffer.length_contents,
        take_eq_drop_iff (h.nodup_contents hdistinct) hpos (by rw [RingBuffer.length_contents]; omega),
        RingBuffer.length_contents] at hsame
      omega
    · have hfrom : ¬ s.cursor + 1 < s.log.total - s.log.ring.count := by omega
      rw [show (s.log.total + 2 ^ 64 - s.log.ring.count) % 2 ^ 64 =
          s.log.total - s.log.ring.count by omega,
        Nat.mod_eq_of_lt (show s.cursor + 1 < 2 ^ 64 by omega), if_neg hfrom] at hlength
      split_ifs at hlength <;> omega

/-! ## All calls -/

theorem Inv.run (blank : α) (steps : List (LogStep α)) :
    (steps.foldl exec (LogRun.start blank)).Inv :=
  Histories.invariant Inv (Inv.start blank) (fun _ a _ _ h => h.step a) steps []
    (List.append_nil _).symm

theorem emitted_run (s : LogRun α) (steps : List (LogStep α)) :
    s.emitted <+: (steps.foldl exec s).emitted := by
  induction steps generalizing s with
  | nil => exact List.prefix_rfl
  | cons a steps ih =>
    refine List.IsPrefix.trans ?_ (ih (s.exec a))
    cases a with
    | emit e => exact List.prefix_append _ _
    | _ => exact List.prefix_rfl

end LogRun

/-- Every poll and every call of `mini_log_recent` of a run gives what it is to give. -/
def LogLaw (blank : α) (steps : List (LogStep α)) : Prop :=
  ∀ pre a post, steps = pre ++ a :: post → (pre.foldl LogRun.exec (LogRun.start blank)).Right a

def LogSafe (blank : α) (steps : List (LogStep α)) : Prop :=
  ∀ pre a post, steps = pre ++ a :: post → (pre.foldl LogRun.exec (LogRun.start blank)).Safe a

/-- The law holds in every run of safe calls; in a run whose entries are all different, exactly if
its calls are safe. -/
theorem logLaw_iff (blank : α) (steps : List (LogStep α)) :
    (LogSafe blank steps → LogLaw blank steps) ∧
      ((steps.foldl LogRun.exec (LogRun.start blank)).emitted.Nodup →
        (LogLaw blank steps ↔ LogSafe blank steps)) := by
  have hright : LogSafe blank steps → LogLaw blank steps := by
    intro hsafe pre a post hsteps
    have hinv := LogRun.Inv.run blank pre
    have ha := hsafe pre a post hsteps
    cases a with
    | poll max => exact hinv.poll_right ha
    | recent max => exact hinv.recent_right ha
    | emit _ => trivial
    | clear => trivial
  refine ⟨hright, fun hdistinct => ⟨fun hlaw pre a post hsteps => ?_, hright⟩⟩
  have hinv := LogRun.Inv.run blank pre
  have ha := hlaw pre a post hsteps
  have hpre : (pre.foldl LogRun.exec (LogRun.start blank)).emitted.Nodup := by
    rw [hsteps, List.foldl_append] at hdistinct
    exact (LogRun.emitted_run _ _).sublist.nodup hdistinct
  cases a with
  | poll max => exact hinv.poll_safe hpre ha
  | recent max => exact hinv.recent_safe hpre ha
  | emit _ => trivial
  | clear => trivial

/-- The first poll behind the first entry gives nothing. -/
theorem first_entry_missed : ¬ LogLaw 0 [LogStep.emit 7, LogStep.poll 64] := by
  intro hlaw
  have hright := hlaw [.emit 7] (.poll 64) [] rfl (by decide) (by decide) rfl
  exact absurd hright (by decide)

end TinyFramework.App
