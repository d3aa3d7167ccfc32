/-
  Net/DechunkBuffer.lean --- `dechunk` in place, with its pointers.

  A chunk is moved down over what was read before it.  The test for a truncated chunk adds its
  size to an address, modulo 2^64.
-/
import TinyFramework.Foundation.CheckedBuffer
import TinyFramework.Net.Dechunk

set_option autoImplicit false

namespace TinyFramework.Net

open TinyFramework.Foundation

/-! ## The loops -/

/-- The byte at a place; there is none behind the body. -/
def loadByte (mem : Bytes) (len i : Nat) : Option UInt8 := if i < len then mem[i]? else none

/-- The loop over the digits of a size; `none` is an access outside of the body, and `some none` a
size of too many digits. -/
def readSize (mem : Bytes) (len src csz h : Nat) : Option (Option (Nat × Nat)) :=
  if _hsrc : src < len then
    (loadByte mem len src).bind fun c =>
      if c = 13 ∨ c = 10 ∨ c = 59 then some (some (src, csz))
      else
        match hexDigit c with
        | none => some (some (src, csz))
        | some v =>
          if 16 < h + 1 then some none
          else readSize mem len (src + 1) ((csz * 16 + v) % 2 ^ 64) (h + 1)
  else some (some (src, csz))
termination_by len - src

/-- `while (src < end && …) src++;` -/
def skipBytes (p : UInt8 → Bool) (mem : Bytes) (len src : Nat) : Option Nat :=
  if _hsrc : src < len then
    (loadByte mem len src).bind fun c =>
      if p c then skipBytes p mem len (src + 1) else some src
  else some src
termination_by len - src

/-- What one turn of the loop does. -/
inductive DechunkTurn where
  /-- a byte outside of the buffer is read or written -/
  | outside
  /-- `return 0;` -/
  | failed
  /-- `break;` -/
  | last
  | moved (mem : Bytes) (src dst : Nat)

/-- One turn; `base` is the address of the body, and `len` its length. -/
def dechunkTurn (base len : Nat) (mem : Bytes) (src dst : Nat) : DechunkTurn :=
  match readSize mem len src 0 0 with
  | none => .outside
  | some none => .failed
  | some (some (src, csz)) =>
    match skipBytes (· ≠ 10) mem len src with
    | none => .outside
    | some src =>
      let src := if src < len then src + 1 else src
      if csz = 0 then .last
      else if base + len < (base + src + csz) % 2 ^ 64 then .failed
      else
        match (readRange (mem.take len) src csz).bind (writeRange mem dst) with
        | none => .outside
        | some mem =>
          match skipBytes isBreak mem len (src + csz) with
          | none => .outside
          | some src => .moved mem src (dst + csz)

/-! ## One turn -/

variable {base len src dst : Nat} {mem : Bytes}

/-- What is not read yet. -/
def unread (mem : Bytes) (len src : Nat) : Bytes := (mem.take len).drop src

theorem length_unread (hmem : len ≤ mem.length) : (unread mem len src).length = len - src := by
  rw [unread, List.length_drop, List.length_take_of_le hmem]

theorem unread_eq_cons (hmem : len ≤ mem.length) (hsrc : src < len) :
    ∃ c, loadByte mem len src = some c ∧ unread mem len src = c :: unread mem len (src + 1) := by
  have hlt : src < (mem.take len).length := by rwa [List.length_take_of_le hmem]
  refine ⟨(mem.take len)[src], ?_, List.drop_eq_getElem_cons hlt⟩
  rw [loadByte, if_pos hsrc, List.getElem_take, List.getElem?_eq_getElem]

theorem unread_eq_nil (hsrc : len ≤ src) : unread mem len src = [] :=
  List.drop_eq_nil_of_le (Nat.le_trans (List.length_take_le _ _) hsrc)

/-- A loop reads what there is, and no more. -/
theorem skipBytes_eq (p : UInt8 → Bool) (hmem : len ≤ mem.length) :
    skipBytes p mem len src = some (src + ((unread mem len src).takeWhile p).length) := by
  induction hn : len - src generalizing src with
  | zero =>
    have hend : len ≤ src := by omega
    rw [skipBytes, dif_neg (by omega), unread_eq_nil hend]
    rfl
  | succ n ih =>
    have hsrc : src < len := by omega
    obtain ⟨c, hload, hunread⟩ := unread_eq_cons hmem hsrc
    rw [skipBytes, dif_pos hsrc, hload, hunread, Option.bind_some]
    split_ifs with hc
    · rw [ih (by omega), List.takeWhile_cons_of_pos hc, List.length_cons]
      congr 1
      omega
    · rw [List.takeWhile_cons_of_neg hc]
      rfl

/-- A byte of a size. -/
def isHex (b : UInt8) : Bool := (hexDigit b).isSome

theorem hexDigit_lt (d : UInt8) : (hexDigit d).getD 0 < 16 := by
  unfold hexDigit
  simp only [UInt8.le_iff_toNat_le]
  split_ifs with hdecimal hsmall hlarge
  · have htop : d.toNat ≤ 57 := hdecimal.2
    exact Nat.lt_of_le_of_lt (Nat.sub_le_sub_right htop 48) (by decide)
  · have htop : d.toNat ≤ 102 := hsmall.2
    rw [Option.getD_some]
    omega
  · have htop : d.toNat ≤ 70 := hlarge.2
    rw [Option.getD_some]
    omega
  · exact Nat.zero_lt_succ _

theorem hexNumber_append_lt (ds : Bytes) {csz h : Nat} (hcsz : csz < 16 ^ h) :
    ds.foldl (fun csz b => csz * 16 + (hexDigit b).getD 0) csz < 16 ^ (h + ds.length) := by
  induction ds generalizing csz h with
  | nil => exact hcsz
  | cons d ds ih =>
    have hdigit := hexDigit_lt d
    have hnext : csz * 16 + (hexDigit d).getD 0 < 16 ^ (h + 1) := by
      rw [pow_succ]
      omega
    have hrest := ih hnext
    rwa [Nat.add_assoc, Nat.add_comm 1] at hrest

/-- The loop over the digits reads all of them, or one too many. -/
theorem readSize_eq (hmem : len ≤ mem.length) {csz h : Nat} (hh : h ≤ 16) (hcsz : csz < 16 ^ h) :
    readSize mem len src csz h =
      if 16 < h + ((unread mem len src).takeWhile isHex).length then some none
      else
        some (some (src + ((unread mem len src).takeWhile isHex).length,
          ((unread mem len src).takeWhile isHex).foldl
            (fun csz b => csz * 16 + (hexDigit b).getD 0) csz)) := by
  induction hn : len - src generalizing src csz h with
  | zero =>
    have hend : len ≤ src := by omega
    rw [readSize, dif_neg (by omega), unread_eq_nil hend, List.takeWhile_nil, List.length_nil,
      if_neg (by omega)]
    rfl
  | succ n ih =>
    have hsrc : src < len := by omega
    obtain ⟨c, hload, hunread⟩ := unread_eq_cons hmem hsrc
    rw [readSize, dif_pos hsrc, hload, hunread, Option.bind_some]
    cases hc : hexDigit c with
    | none =>
      have hstop : ¬ isHex c = true := by
        rw [isHex, hc]
        exact Bool.false_ne_true
      have hshort : ¬ 16 < h + 0 := Nat.not_lt.2 hh
      rw [List.takeWhile_cons_of_neg hstop, List.length_nil, if_neg hshort]
      exact ite_self _
    | some v =>
      have hhex : isHex c = true := by
        rw [isHex, hc]
        rfl
      have hnone : ¬ (c = 13 ∨ c = 10 ∨ c = 59) := by
        rintro (rfl | rfl | rfl) <;> cases hc
      rw [if_neg hnone, List.takeWhile_cons_of_pos hhex, List.length_cons]
      dsimp only
      rcases Nat.lt_or_ge 16 (h + 1) with hlong | hshort
      · rw [if_pos hlong, if_pos (by omega)]
      · have hnext : csz * 16 + v < 16 ^ (h + 1) := by
          have hlt := hexNumber_append_lt [c] hcsz
          simpa [hc] using hlt
        have hfits : csz * 16 + v < 2 ^ 64 :=
          Nat.lt_of_lt_of_le hnext (Nat.le_trans (Nat.pow_le_pow_right (by decide) hshort)
            (by decide))
        rw [if_neg (Nat.not_lt.2 hshort), Nat.mod_eq_of_lt hfits, ih hshort hnext (by omega),
          List.foldl_cons, hc, Option.getD_some, Nat.add_right_comm h, Nat.add_assoc h,
          Nat.add_right_comm src, Nat.add_assoc src]

/-- The digits of a size. -/
def sizeDigits (t : Bytes) : Bytes := t.takeWhile isHex

/-- What stands behind the line of a size. -/
def pastSizeLine (t : Bytes) : Bytes := ((t.drop (sizeDigits t).length).dropWhile (· ≠ 10)).tail

theorem dropWhile_eq_drop (p : UInt8 → Bool) (t : Bytes) :
    t.dropWhile p = t.drop (t.takeWhile p).length := by
  calc t.dropWhile p = (t.takeWhile p ++ t.dropWhile p).drop (t.takeWhile p).length :=
        List.drop_left.symm
    _ = t.drop (t.takeWhile p).length := by rw [List.takeWhile_append_dropWhile]

theorem unread_drop (k : Nat) : (unread mem len src).drop k = unread mem len (src + k) := by
  rw [unread, List.drop_drop, unread]

theorem unread_overwrite {s : Bytes} {k : Nat} (hdst : dst ≤ mem.length)
    (hk : dst + s.length ≤ k) : unread (overwrite mem dst s) len k = unread mem len k := by
  rw [unread, unread, List.drop_take, List.drop_take, drop_overwrite hdst hk]

/-- The pointer behind the line of a size. -/
theorem sizeLine_end (hmem : len ≤ mem.length) (hsrc : src ≤ len) :
    ∃ s, skipBytes (· ≠ 10) mem len (src + (sizeDigits (unread mem len src)).length) = some s ∧
      (if s < len then s + 1 else s) = len - (pastSizeLine (unread mem len src)).length ∧
      src + (sizeDigits (unread mem len src)).length ≤ (if s < len then s + 1 else s) ∧
      unread mem len (if s < len then s + 1 else s) = pastSizeLine (unread mem len src) := by
  have hdigits : (sizeDigits (unread mem len src)).length ≤ len - src := by
    rw [← length_unread hmem]
    exact (List.takeWhile_sublist _).length_le
  have hline : ((unread mem len (src + (sizeDigits (unread mem len src)).length)).takeWhile
      (· ≠ 10)).length ≤ len - (src + (sizeDigits (unread mem len src)).length) := by
    rw [← length_unread hmem]
    exact (List.takeWhile_sublist _).length_le
  have hpast : pastSizeLine (unread mem len src) = unread mem len
      (src + (sizeDigits (unread mem len src)).length +
        ((unread mem len (src + (sizeDigits (unread mem len src)).length)).takeWhile
          (· ≠ 10)).length + 1) := by
    rw [pastSizeLine, unread_drop, dropWhile_eq_drop, unread_drop, ← List.drop_one, unread_drop]
  refine ⟨_, skipBytes_eq _ hmem, ?_⟩
  generalize hs : src + (sizeDigits (unread mem len src)).length = s₁ at hline hpast ⊢
  generalize ((unread mem len s₁).takeWhile (· ≠ 10)).length = n at hline hpast ⊢
  have hend : unread mem len (if s₁ + n < len then s₁ + n + 1 else s₁ + n) =
      pastSizeLine (unread mem len src) := by
    rw [hpast]
    split_ifs with hlt
    · rfl
    · rw [unread_eq_nil (by omega), unread_eq_nil (by omega)]
  have hlength := congrArg List.length hend
  rw [length_unread hmem] at hlength
  refine ⟨?_, ?_, hend⟩
  · split_ifs at hlength ⊢ <;> omega
  · split_ifs <;> omega

/-- The sum of the address behind a size line and the size does not fit into 64 bits.  A line is how
much of the body is behind it, and its size. -/
def Wraps (base len : Nat) (line : Nat × Nat) : Prop := 2 ^ 64 ≤ base + (len - line.1) + line.2

instance (base len : Nat) (line : Nat × Nat) : Decidable (Wraps base len line) :=
  inferInstanceAs (Decidable (_ ≤ _))

/-- One turn, by what is not read yet. -/
theorem dechunkTurn_eq (hmem : mem.length = len + 1) (hdst : dst ≤ src) (hsrc : src < len)
    (hbase : base + len < 2 ^ 64) {t rest : Bytes} (ht : unread mem len src = t)
    (hrest : pastSizeLine t = rest) :
    dechunkTurn base len mem src dst =
      if 16 < (sizeDigits t).length then .failed
      else if hexNumber (sizeDigits t) = 0 then .last
      else if Wraps base len (rest.length, hexNumber (sizeDigits t)) then .outside
      else if rest.length < hexNumber (sizeDigits t) then .failed
      else
        .moved (overwrite mem dst (rest.take (hexNumber (sizeDigits t))))
          (len - ((rest.drop (hexNumber (sizeDigits t))).dropWhile isBreak).length)
          (dst + hexNumber (sizeDigits t)) := by
  have hroom : len ≤ mem.length := by omega
  obtain ⟨s, hskip, hs, hle, hunread⟩ := sizeLine_end hroom (Nat.le_of_lt hsrc)
  rw [ht] at hskip hs hle hunread
  rw [hrest] at hs hunread
  have hsize : readSize mem len src 0 0 = if 16 < 0 + (sizeDigits t).length then some none
      else some (some (src + (sizeDigits t).length, hexNumber (sizeDigits t))) := by
    have hread : readSize mem len src 0 0 = _ := readSize_eq hroom (Nat.zero_le 16) (by decide)
    rw [hread, ht]
    rfl
  have hnumber : 16 < (sizeDigits t).length ∨ hexNumber (sizeDigits t) < 2 ^ 64 := by
    refine (Nat.lt_or_ge 16 _).imp_right fun hshort => ?_
    have hlt : hexNumber (sizeDigits t) < 16 ^ (0 + (sizeDigits t).length) :=
      hexNumber_append_lt _ (by decide)
    rw [Nat.zero_add] at hlt
    exact Nat.lt_of_lt_of_le hlt
      (Nat.le_trans (Nat.pow_le_pow_right (by decide) hshort) (by decide))
  unfold dechunkTurn
  rw [hsize, Nat.zero_add]
  by_cases hlong : 16 < (sizeDigits t).length
  · rw [if_pos hlong, if_pos hlong]
  rw [if_neg hlong, if_neg hlong]
  have hcsz := hnumber.resolve_left hlong
  generalize hexNumber (sizeDigits t) = csz at hcsz ⊢
  rw [hs] at hle hunread
  simp only [hskip, hs]
  generalize hpos : len - rest.length = pos at hle hunread ⊢
  have hlength : rest.length = len - pos := by rw [← hunread, length_unread hroom]
  by_cases hzero : csz = 0
  · rw [if_pos hzero, if_pos hzero]
  rw [if_neg hzero, if_neg hzero]
  have hread : readRange (mem.take len) pos csz =
      if rest.length < csz then none else some (rest.take csz) := by
    split_ifs with hshort
    · rw [readRange_eq_none_iff, List.length_take_of_le hroom]
      omega
    · rw [readRange_of_le (by rw [List.length_take_of_le hroom]; omega), ← hunread, unread]
  have hsum : Wraps base len (rest.length, csz) ↔ 2 ^ 64 ≤ base + pos + csz := by
    rw [Wraps, ← hpos]
  simp only [hsum]
  by_cases hwrap : 2 ^ 64 ≤ base + pos + csz
  · -- the sum wraps around, and passes; but the range is not inside the body
    have hmod : (base + pos + csz) % 2 ^ 64 = base + pos + csz - 2 ^ 64 := by
      rw [Nat.mod_eq_sub_mod hwrap, Nat.mod_eq_of_lt (by omega)]
    rw [if_pos hwrap, hmod, if_neg (by omega), hread, if_pos (by omega), Option.bind_none]
  rw [if_neg hwrap, Nat.mod_eq_of_lt (Nat.lt_of_not_le hwrap), hread]
  by_cases hshort : rest.length < csz
  · rw [if_pos hshort, if_pos hshort, if_pos (by omega)]
  have htake : (rest.take csz).length = csz := List.length_take_of_le (Nat.le_of_not_lt hshort)
  have hdrop : unread (overwrite mem dst (rest.take csz)) len (pos + csz) = rest.drop csz := by
    rw [unread_overwrite (by omega) (by omega), ← unread_drop, hunread]
  have hroom' : len ≤ (overwrite mem dst (rest.take csz)).length := by
    rw [length_overwrite (by omega)]
    exact hroom
  rw [if_neg hshort, if_neg hshort, if_neg (by omega), Option.bind_some,
    writeRange_of_le (by omega)]
  have hsplit := congrArg List.length
    (List.takeWhile_append_dropWhile (p := isBreak) (l := rest.drop csz))
  rw [List.length_append, List.length_drop] at hsplit
  have hend : pos + csz + ((rest.drop csz).takeWhile isBreak).length =
      len - ((rest.drop csz).dropWhile isBreak).length := by omega
  dsimp only
  rw [skipBytes_eq _ hroom', hdrop, hend]

/-! ## The loop -/

theorem le_skipBytes {p : UInt8 → Bool} {s : Nat} (h : skipBytes p mem len src = some s) :
    src ≤ s := by
  induction hn : len - src generalizing src with
  | zero =>
    rw [skipBytes, dif_neg (by omega)] at h
    exact Nat.le_of_eq (Option.some.inj h)
  | succ n ih =>
    rw [skipBytes, dif_pos (by omega)] at h
    obtain ⟨c, -, hc⟩ := Option.bind_eq_some_iff.1 h
    split_ifs at hc
    · exact Nat.le_of_succ_le (ih hc (by omega))
    · exact Nat.le_of_eq (Option.some.inj hc)

theorem le_readSize {csz h : Nat} {r : Nat × Nat}
    (hread : readSize mem len src csz h = some (some r)) : src ≤ r.1 := by
  induction hn : len - src generalizing src csz h with
  | zero =>
    rw [readSize, dif_neg (by omega)] at hread
    rw [← Option.some.inj (Option.some.inj hread)]
  | succ n ih =>
    rw [readSize, dif_pos (by omega)] at hread
    obtain ⟨c, -, hc⟩ := Option.bind_eq_some_iff.1 hread
    by_cases hend : c = 13 ∨ c = 10 ∨ c = 59
    · rw [if_pos hend] at hc
      rw [← Option.some.inj (Option.some.inj hc)]
    rw [if_neg hend] at hc
    cases hv : hexDigit c with
    | none =>
      rw [hv] at hc
      rw [← Option.some.inj (Option.some.inj hc)]
    | some v =>
      rw [hv] at hc
      dsimp only at hc
      split_ifs at hc
      · cases Option.some.inj hc
      · exact Nat.le_of_succ_le (ih hc (by omega))

/-- A turn that moves a chunk goes on behind it. -/
theorem dechunkTurn_moved {mem' : Bytes} {src' dst' : Nat}
    (h : dechunkTurn base len mem src dst = .moved mem' src' dst') : src < src' := by
  unfold dechunkTurn at h
  cases hsize : readSize mem len src 0 0 with
  | none => simp only [hsize, reduceCtorEq] at h
  | some r =>
    cases r with
    | none => simp only [hsize, reduceCtorEq] at h
    | some r =>
      have hread := le_readSize hsize
      cases hline : skipBytes (· ≠ 10) mem len r.1 with
      | none => simp only [hsize, hline, reduceCtorEq] at h
      | some s =>
        have hskip := le_skipBytes hline
        simp only [hsize, hline] at h
        have hpast : s ≤ if s < len then s + 1 else s := by split_ifs <;> omega
        generalize (if s < len then s + 1 else s) = pos at h hpast
        split_ifs at h with hzero
        cases hmove : (readRange (mem.take len) pos r.2).bind (writeRange mem dst) with
        | none => simp only [hmove, reduceCtorEq] at h
        | some moved =>
          cases hbreak : skipBytes isBreak moved len (pos + r.2) with
          | none => simp only [hmove, hbreak, reduceCtorEq] at h
          | some s' =>
            have hend := le_skipBytes hbreak
            simp only [hmove, hbreak, DechunkTurn.moved.injEq] at h
            omega

/-- `*dst = 0; return (size_t)(dst - body);` -/
def dechunkEnd (mem : Bytes) (dst : Nat) : Option (Bytes × Nat) :=
  (writeRange mem dst [0]).map fun mem => (mem, dst)

/-- The loop: the buffer and the length that is returned. -/
def dechunkLoop (base len : Nat) (mem : Bytes) (src dst : Nat) : Option (Bytes × Nat) :=
  if _hsrc : src < len then
    match _hturn : dechunkTurn base len mem src dst with
    | .outside => none
    | .failed => some (mem, 0)
    | .last => dechunkEnd mem dst
    | .moved mem src dst => dechunkLoop base len mem src dst
  else dechunkEnd mem dst
termination_by len - src
decreasing_by
  have hmore := dechunkTurn_moved _hturn
  omega

/-- A body of some length at some address, and the byte behind it. -/
structure BodyBuffer where
  base : Nat
  body : Bytes
  behind : UInt8
  addressed : base + body.length < 2 ^ 64

/-- `dechunk`, in the buffer; `none` is an access outside of it. -/
def dechunkBuffer (B : BodyBuffer) : Option (Bytes × Nat) :=
  dechunkLoop B.base B.body.length (B.body ++ [B.behind]) 0 0

/-! ## What a body says of its sizes -/

theorem length_pastSizeLine_le (t : Bytes) : (pastSizeLine t).length ≤ t.length := by
  have hline :=
    (List.dropWhile_sublist (· ≠ (10 : UInt8)) (l := t.drop (sizeDigits t).length)).length_le
  rw [List.length_drop] at hline
  rw [pastSizeLine, List.length_tail]
  omega

/-- The sizes in a body, each with how much of the body is behind its line, up to one that more than
sixteen digits write, is zero or is too large. -/
def sizeLines (t : Bytes) : List (Nat × Nat) :=
  if t = [] then []
  else if 16 < (sizeDigits t).length then []
  else if _hcsz : hexNumber (sizeDigits t) = 0 then []
  else
    ((pastSizeLine t).length, hexNumber (sizeDigits t)) ::
      if _hrest : (pastSizeLine t).length < hexNumber (sizeDigits t) then []
      else sizeLines (((pastSizeLine t).drop (hexNumber (sizeDigits t))).dropWhile isBreak)
termination_by t.length
decreasing_by
  have hline := length_pastSizeLine_le t
  have hskip := (List.dropWhile_sublist isBreak
    (l := (pastSizeLine t).drop (hexNumber (sizeDigits t)))).length_le
  rw [List.length_drop] at hskip
  omega

theorem dechunk_eq (dst : Bytes) {t : Bytes} (ht : t ≠ []) :
    dechunk dst t =
      if 16 < (sizeDigits t).length then []
      else if hexNumber (sizeDigits t) = 0 then dst
      else if (pastSizeLine t).length < hexNumber (sizeDigits t) then []
      else
        dechunk (dst ++ (pastSizeLine t).take (hexNumber (sizeDigits t)))
          (((pastSizeLine t).drop (hexNumber (sizeDigits t))).dropWhile isBreak) := by
  rw [dechunk, if_neg ht]
  rfl

/-! ## The whole run -/

/-- One turn of the loop. -/
theorem dechunkLoop_turn (hmem : mem.length = len + 1) (hdst : dst ≤ src) (hsrc : src < len)
    (hbase : base + len < 2 ^ 64) {t : Bytes} (ht : unread mem len src = t) :
    dechunkLoop base len mem src dst =
      if 16 < (sizeDigits t).length then some (mem, 0)
      else if hexNumber (sizeDigits t) = 0 then dechunkEnd mem dst
      else if Wraps base len ((pastSizeLine t).length, hexNumber (sizeDigits t)) then none
      else if (pastSizeLine t).length < hexNumber (sizeDigits t) then some (mem, 0)
      else
        dechunkLoop base len
          (overwrite mem dst ((pastSizeLine t).take (hexNumber (sizeDigits t))))
          (len - (((pastSizeLine t).drop (hexNumber (sizeDigits t))).dropWhile isBreak).length)
          (dst + hexNumber (sizeDigits t)) := by
  have hturn := dechunkTurn_eq hmem hdst hsrc hbase ht rfl
  rw [dechunkLoop, dif_pos hsrc]
  split
  all_goals
    rename_i h
    rw [hturn] at h
    split_ifs at h ⊢
  · rfl
  · rfl
  · rfl
  · rfl
  · obtain ⟨rfl, rfl, rfl⟩ := DechunkTurn.moved.inj h
    rfl

/-- Behind a chunk. -/
theorem chunk_moved (hmem : mem.length = len + 1) (hdst : dst ≤ src) (hsrc : src < len)
    {t : Bytes} (ht : unread mem len src = t) {csz : Nat} (hpos : 0 < csz)
    (hcsz : csz ≤ (pastSizeLine t).length) {mem' more : Bytes}
    (hmem' : overwrite mem dst ((pastSizeLine t).take csz) = mem')
    (hmore : ((pastSizeLine t).drop csz).dropWhile isBreak = more) :
    mem'.length = len + 1 ∧ dst + csz ≤ len - more.length ∧ src < len - more.length ∧
      unread mem' len (len - more.length) = more ∧
      mem'.take (dst + csz) = mem.take dst ++ (pastSizeLine t).take csz := by
  have hroom : len ≤ mem.length := by omega
  obtain ⟨s, -, hs, hle, hunread⟩ := sizeLine_end hroom (Nat.le_of_lt hsrc)
  rw [ht] at hs hle hunread
  rw [hs] at hle hunread
  generalize hrest : pastSizeLine t = rest at *
  have hlength := congrArg List.length hunread
  rw [length_unread hroom] at hlength
  have htake : (rest.take csz).length = csz := List.length_take_of_le hcsz
  have hsplit := congrArg List.length
    (List.takeWhile_append_dropWhile (p := isBreak) (l := rest.drop csz))
  rw [hmore, List.length_append, List.length_drop] at hsplit
  have hend : len - more.length =
      len - rest.length + csz + ((rest.drop csz).takeWhile isBreak).length := by omega
  refine ⟨?_, by omega, by omega, ?_, ?_⟩
  · rw [← hmem', length_overwrite (by omega), hmem]
  · rw [hend, ← hmem', unread_overwrite (by omega) (by omega), ← unread_drop, ← unread_drop,
      hunread, ← dropWhile_eq_drop, hmore]
  · have hcopied : (overwrite mem dst (rest.take csz)).take (dst + (rest.take csz).length) =
        mem.take dst ++ rest.take csz := take_overwrite (by omega)
    rwa [htake, hmem'] at hcopied

/-- The end of a run. -/
theorem dechunkEnd_eq (hmem : mem.length = len + 1) (hdst : dst ≤ len) :
    ∃ mem', dechunkEnd mem dst = some (mem', (mem.take dst).length) ∧
      mem'.take (mem.take dst).length = mem.take dst := by
  have hroom : dst + [(0 : UInt8)].length ≤ mem.length := by
    rw [List.length_singleton]
    omega
  refine ⟨overwrite mem dst [0], ?_, ?_⟩
  · rw [dechunkEnd, writeRange_of_le hroom, Option.map_some, List.length_take_of_le (by omega)]
  · rw [List.length_take_of_le (by omega), take_overwrite_of_le (by omega) (Nat.le_refl dst)]

/-- A run is a decoding, unless a sum wraps around. -/
theorem dechunkLoop_run (hmem : mem.length = len + 1) (hdst : dst ≤ src) (hsrc : src ≤ len)
    (hbase : base + len < 2 ^ 64) :
    ((∃ line ∈ sizeLines (unread mem len src), Wraps base len line) →
      dechunkLoop base len mem src dst = none) ∧
    ((∀ line ∈ sizeLines (unread mem len src), ¬ Wraps base len line) →
      ∃ mem', dechunkLoop base len mem src dst =
          some (mem', (dechunk (mem.take dst) (unread mem len src)).length) ∧
        mem'.take (dechunk (mem.take dst) (unread mem len src)).length =
          dechunk (mem.take dst) (unread mem len src)) := by
  induction hn : len - src using Nat.strongRecOn generalizing mem src dst with
  | _ n ih =>
    subst hn
    rcases Nat.lt_or_ge src len with hlt | hge
    · have hne : unread mem len src ≠ [] := by
        rw [← List.length_pos_iff, length_unread (by omega)]
        omega
      rw [dechunkLoop_turn hmem hdst hlt hbase rfl, dechunk_eq _ hne, sizeLines, if_neg hne]
      generalize ht : unread mem len src = t
      by_cases hlong : 16 < (sizeDigits t).length
      · simp only [hlong, if_true]
        exact ⟨nofun, fun _ => ⟨mem, rfl, rfl⟩⟩
      by_cases hzero : hexNumber (sizeDigits t) = 0
      · simp only [hlong, hzero, if_true, if_false, dite_true]
        exact ⟨nofun, fun _ => dechunkEnd_eq hmem (by omega)⟩
      simp only [hlong, hzero, if_false, dite_false, List.mem_cons, exists_eq_or_imp,
        forall_eq_or_imp]
      by_cases hwrap : Wraps base len ((pastSizeLine t).length, hexNumber (sizeDigits t))
      · simp only [hwrap, if_true]
        exact ⟨fun _ => trivial, fun h => absurd trivial h.1⟩
      by_cases hshort : (pastSizeLine t).length < hexNumber (sizeDigits t)
      · simp only [hwrap, hshort, if_true, if_false, dite_true]
        exact ⟨nofun, fun _ => ⟨mem, rfl, rfl⟩⟩
      simp only [hwrap, hshort, if_false, dite_false, false_or, not_false_eq_true, true_and]
      obtain ⟨hmem', hdst', hmore, hunread, htaken⟩ := chunk_moved hmem hdst hlt ht
        (Nat.pos_of_ne_zero hzero) (Nat.le_of_not_lt hshort) rfl rfl
      have hrest := ih _ (by omega) hmem' hdst' (Nat.sub_le _ _) rfl
      rwa [hunread, htaken] at hrest
    · rw [dechunkLoop, dif_neg (by omega), unread_eq_nil hge, sizeLines, if_pos rfl, dechunk_nil]
      exact ⟨nofun, fun _ => dechunkEnd_eq hmem (by omega)⟩

/-! ## The theorem -/

namespace BodyBuffer

/-- Every access is inside the buffer, and so is the length that is returned. -/
def Safe (B : BodyBuffer) : Prop :=
  ∃ mem n, dechunkBuffer B = some (mem, n) ∧ n ≤ B.body.length

/-- The buffer begins with some data, the length of which is returned. -/
def Leaves (B : BodyBuffer) (data : Bytes) : Prop :=
  ∃ mem, dechunkBuffer B = some (mem, data.length) ∧ mem.take data.length = data

variable (B : BodyBuffer)

theorem run :
    ((∃ line ∈ sizeLines B.body, Wraps B.base B.body.length line) → dechunkBuffer B = none) ∧
    ((∀ line ∈ sizeLines B.body, ¬ Wraps B.base B.body.length line) →
      ∃ mem, dechunkBuffer B = some (mem, (dechunk [] B.body).length) ∧
        mem.take (dechunk [] B.body).length = dechunk [] B.body) := by
  have hmem : (B.body ++ [B.behind]).length = B.body.length + 1 := by
    rw [List.length_append, List.length_singleton]
  have hunread : unread (B.body ++ [B.behind]) B.body.length 0 = B.body := by
    rw [unread, List.take_left, List.drop_zero]
  have hrun := dechunkLoop_run hmem (Nat.le_refl 0) (Nat.zero_le _) B.addressed
  rwa [hunread, List.take_zero] at hrun

theorem safe_iff : B.Safe ↔ ∀ line ∈ sizeLines B.body, ¬ Wraps B.base B.body.length line := by
  constructor
  · rintro ⟨mem, n, hdone, -⟩ line hline hwraps
    rw [B.run.1 ⟨line, hline, hwraps⟩] at hdone
    cases hdone
  · intro hfits
    obtain ⟨mem, hdone, -⟩ := B.run.2 hfits
    refine ⟨mem, _, hdone, ?_⟩
    rcases eq_or_ne B.body [] with hempty | hne
    · simp [hempty]
    · exact Nat.le_of_lt (Nat.lt_of_lt_of_le (length_dechunk_lt [] hne)
        (Nat.le_of_eq (Nat.zero_add _)))

end BodyBuffer

/-- Chunks, and the last one behind them. -/
def chunkedText (cs : List Chunk) : Bytes := cs.flatMap Chunk.text ++ [48, 13, 10, 13, 10]

/-- As a body without trailers. -/
def chunkedBody (cs : List Chunk) : ChunkedBody where
  chunks := cs
  zeros := 1
  extension := []
  trailers := []
  zeros_pos := Nat.one_pos
  extended := ⟨nofun, nofun⟩

theorem chunkedText_eq (cs : List Chunk) : chunkedText cs =
    cs.flatMap Chunk.text ++ (chunkedBody cs).lastText :=
  rfl

theorem sizeDigits_append {digits z : Bytes} (hdigits : ∀ b ∈ digits, isHex b = true)
    (hz : ∀ b ∈ z.head?, isHex b = false) : sizeDigits (digits ++ z) = digits := by
  rw [sizeDigits, List.takeWhile_append_of_pos hdigits]
  cases z with
  | nil => exact List.append_nil _
  | cons b z =>
    rw [List.takeWhile_cons_of_neg (by rw [hz b rfl]; exact Bool.false_ne_true), List.append_nil]

/-- A size line of a whole chunk. -/
theorem sizeLines_front (c : Chunk) (z : Bytes) :
    sizeLines (c.front ++ z) =
      if 16 < c.size.length then []
      else ((c.data ++ z).length, c.data.length) :: sizeLines (z.dropWhile isBreak) := by
  have hsplit : c.front ++ z = c.size ++ (c.extension ++ 13 :: 10 :: (c.data ++ z)) := by
    simp [Chunk.front]
  have hdigits : sizeDigits (c.front ++ z) = c.size := by
    rw [hsplit]
    exact sizeDigits_append c.size_digits (c.extended.head_not_digit _)
  have hpast : pastSizeLine (c.front ++ z) = c.data ++ z := by
    rw [pastSizeLine, hdigits, hsplit, List.drop_left, behind_size c.extended]
  have hne : c.front ++ z ≠ [] := by
    rw [hsplit]
    exact List.append_ne_nil_of_left_ne_nil c.size_ne_nil _
  have hdata := c.data_pos
  have henough : ¬ (c.data ++ z).length < c.data.length := by
    rw [List.length_append]
    omega
  rw [sizeLines, if_neg hne, hdigits, hpast, c.size_eq, dif_neg (Nat.ne_of_gt hdata),
    dif_neg henough, List.drop_left]

/-- In chunks no size is too large. -/
theorem sizeLines_chunkedText (cs : List Chunk) :
    ∀ line ∈ sizeLines (chunkedText cs), line.2 ≤ line.1 ∧ line.1 ≤ (chunkedText cs).length := by
  induction cs with
  | nil =>
    have hnone : sizeLines (chunkedText []) = [] := by
      rw [sizeLines, if_neg (by decide), if_neg (by decide), dif_pos (by decide)]
    rw [hnone]
    exact nofun
  | cons c cs ih =>
    have htext : chunkedText (c :: cs) = c.front ++ 13 :: 10 :: chunkedText cs := by
      simp [chunkedText, Chunk.text]
    have hskip : (13 :: 10 :: chunkedText cs).dropWhile isBreak = chunkedText cs := by
      have hbreaks := (chunkedBody cs).skip_breaks cs ((chunkedText cs).length + 2)
      rw [← chunkedText_eq] at hbreaks
      have hlength : (13 :: 10 :: chunkedText cs).length ≤ (chunkedText cs).length + 2 :=
        Nat.le_refl _
      rwa [List.take_of_length_le hlength, Nat.add_sub_cancel, List.take_length] at hbreaks
    have hfront : c.data.length ≤ c.front.length := by
      rw [Chunk.front, List.length_append, List.length_cons, List.length_cons]
      omega
    rw [htext, sizeLines_front, hskip]
    split_ifs
    · exact nofun
    · rw [List.forall_mem_cons]
      simp only [List.length_append, List.length_cons]
      refine ⟨⟨Nat.le_add_right _ _, by omega⟩, fun line hline => ?_⟩
      obtain ⟨hsize, hlength⟩ := ih line hline
      exact ⟨hsize, by omega⟩

/-- Chunks are decoded exactly if no size is written with more than sixteen digits. -/
theorem dechunk_chunkedText_iff (cs : List Chunk) :
    dechunk [] (chunkedText cs) = cs.flatMap Chunk.data ↔ ∀ c ∈ cs, c.size.length ≤ 16 := by
  rcases eq_or_ne (cs.flatMap Chunk.data) [] with hnil | hne
  · obtain rfl : cs = [] := ChunkedBody.chunks_eq_nil (b := chunkedBody cs) hnil
    exact iff_of_true ((chunkedBody []).dechunk_take_nil 5 rfl) nofun
  · have hwhole := (chunkedBody cs).dechunk_take_iff (chunkedBody cs).text.length hne
    rw [List.take_length] at hwhole
    refine hwhole.trans ⟨And.left, fun hsizes => ⟨hsizes, ?_, ?_⟩⟩
    · rw [ChunkedBody.dataEnd, ChunkedBody.text, List.length_append]
      omega
    · exact fun h => absurd h.1 (show ¬ 16 < 1 by decide)

/-- A body is decoded without harm exactly if no sum of an address and a size wraps around; and of
chunks the data is left exactly if no size is written with more than sixteen digits. -/
theorem dechunkBuffer_iff (B : BodyBuffer) :
    (B.Safe ↔ ∀ line ∈ sizeLines B.body, ¬ Wraps B.base B.body.length line) ∧
      ∀ cs, B.body = chunkedText cs →
        (B.Leaves (cs.flatMap Chunk.data) ↔ ∀ c ∈ cs, c.size.length ≤ 16) := by
  refine ⟨B.safe_iff, fun cs hcs => ?_⟩
  have hfits : ∀ line ∈ sizeLines B.body, ¬ Wraps B.base B.body.length line := by
    intro line hline hwraps
    rw [hcs] at hline
    obtain ⟨hsize, hlength⟩ := sizeLines_chunkedText cs line hline
    rw [← hcs] at hlength
    have haddressed := B.addressed
    unfold Wraps at hwraps
    omega
  obtain ⟨mem, hdone, hleft⟩ := B.run.2 hfits
  rw [← dechunk_chunkedText_iff cs, ← hcs]
  constructor
  · rintro ⟨mem', hdone', hleft'⟩
    obtain ⟨rfl, hlength⟩ := Prod.mk.inj (Option.some.inj (hdone.symm.trans hdone'))
    rw [← hleft, hlength, hleft']
  · intro hdata
    rw [hdata] at hdone hleft
    exact ⟨mem, hdone, hleft⟩

/-- `03;x`, and three bytes that look like the beginning of another chunk. -/
def oneChunk : Chunk where
  size := [48, 51]
  extension := [59, 120]
  data := [10, 59, 51]
  size_digits := by decide +kernel
  size_eq := by decide
  extended := by
    constructor <;> decide +kernel
  filled := by decide

def oneChunkBuffer : BodyBuffer where
  base := 4096
  body := chunkedText [oneChunk]
  behind := 0
  addressed := by decide

theorem dechunkBuffer_iff_oneChunk : oneChunkBuffer.Leaves [10, 59, 51] :=
  ((dechunkBuffer_iff oneChunkBuffer).2 [oneChunk] rfl).2 (by decide)

/-- Sixteen `F`, and a line break. -/
def wrappingBuffer : BodyBuffer where
  base := 4096
  body := List.replicate 16 70 ++ [13, 10]
  behind := 0
  addressed := by decide

/-- The whole address space is to be moved. -/
theorem wrappingBuffer_not_safe : ¬ wrappingBuffer.Safe := by
  rintro ⟨mem, n, hdone, -⟩
  have hnone : dechunkBuffer wrappingBuffer = none := by decide +kernel
  rw [hnone] at hdone
  cases hdone

end TinyFramework.Net
