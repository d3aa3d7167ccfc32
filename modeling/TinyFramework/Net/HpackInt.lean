/-
  Net/HpackInt.lean --- `mini_hpack_enc_int` and `mini_hpack_dec_int` against the integers of
  RFC 7541, section 5.1.

  The decoder takes up to ten bytes behind the prefix, whose seventy bits it adds modulo 2^64.
-/
import TinyFramework.Net.Hpack

set_option autoImplicit false

namespace TinyFramework.Net

open TinyFramework.Foundation

/-! ## The encoder -/

/-- The loop of `mini_hpack_enc_int` and the byte behind it; `out` is the whole buffer, `o` what is
written so far, and `none` the result -1. -/
def encIntRest (out : Bytes) (o value : Nat) : Bytes × Option Nat :=
  if 128 ≤ value then
    if out.length ≤ o then (out, none)
    else encIntRest (out.set o (UInt8.ofNat (value % 128) ||| 128)) (o + 1) (value / 128)
  else if out.length ≤ o then (out, none)
  else (out.set o (UInt8.ofNat value), some (o + 1))
termination_by value
decreasing_by omega

/-- `mini_hpack_enc_int`: the buffer, and how many bytes of it are written. -/
def miniHpackEncInt (out : Bytes) (value prefixBits : Nat) : Bytes × Option Nat :=
  match out with
  | [] => ([], none)
  | b :: bs =>
      let max := UInt8.ofNat (2 ^ prefixBits - 1)
      if value < max.toNat then ((b &&& ~~~max ||| UInt8.ofNat value) :: bs, some 1)
      else encIntRest ((b &&& ~~~max ||| max) :: bs) 1 (value - max.toNat)

/-- The bits above a prefix. -/
def topBits (b : UInt8) (prefixBits : Nat) : Nat := 2 ^ prefixBits * (b.toNat / 2 ^ prefixBits)

theorem continued_eq {v : Nat} (hv : v < 128) : UInt8.ofNat v ||| 128 = UInt8.ofNat (v + 128) := by
  have hsum : 2 ^ 7 * 1 + v = 2 ^ 7 * 1 ||| v := Nat.two_pow_add_eq_or_of_lt hv 1
  refine UInt8.toNat_inj.1 ?_
  rw [UInt8.toNat_or, UInt8.toNat_ofNat', UInt8.toNat_ofNat', Nat.mod_eq_of_lt (by omega),
    Nat.mod_eq_of_lt (by omega), Nat.or_comm, Nat.add_comm]
  exact hsum.symm

/-- Clearing a prefix. -/
theorem clear_prefix (b : UInt8) {prefixBits : Nat} (hbits : prefixBits ≤ 8) :
    (b &&& ~~~UInt8.ofNat (2 ^ prefixBits - 1)).toNat = topBits b prefixBits := by
  have hall : ∀ k ≤ 8, ∀ n < 256,
      (UInt8.ofNat n &&& ~~~UInt8.ofNat (2 ^ k - 1)).toNat = 2 ^ k * (n / 2 ^ k) := by
    decide +kernel
  have hb := hall prefixBits hbits b.toNat b.toNat_lt
  rwa [UInt8.ofNat_toNat] at hb

theorem with_prefix (b : UInt8) {prefixBits v : Nat} (hbits : prefixBits ≤ 8)
    (hv : v < 2 ^ prefixBits) :
    b &&& ~~~UInt8.ofNat (2 ^ prefixBits - 1) ||| UInt8.ofNat v =
      UInt8.ofNat (topBits b prefixBits + v) := by
  have hpow : (2 : Nat) ^ prefixBits ≤ 2 ^ 8 := Nat.pow_le_pow_right (by decide) hbits
  have hsum := Nat.two_pow_add_eq_or_of_lt hv (b.toNat / 2 ^ prefixBits)
  have hclear := clear_prefix b hbits
  have hlow : (UInt8.ofNat v).toNat = v := by
    rw [UInt8.toNat_ofNat', Nat.mod_eq_of_lt (by omega)]
  refine UInt8.toNat_inj.1 ?_
  rw [UInt8.toNat_or, hclear, hlow, UInt8.toNat_ofNat', topBits, hsum, Nat.mod_eq_of_lt]
  rw [← hlow, ← topBits, ← hclear, ← UInt8.toNat_or]
  exact UInt8.toNat_lt _

theorem set_length (done room : Bytes) (r b : UInt8) :
    (done ++ r :: room).set done.length b = done ++ [b] ++ room := by
  simp

/-- The bytes that are written, if there is room. -/
theorem encIntRest_fits (done room : Bytes) (v : Nat) (hroom : (septets v).length ≤ room.length) :
    encIntRest (done ++ room) done.length v =
      (done ++ septets v ++ room.drop (septets v).length,
        some (done.length + (septets v).length)) := by
  induction v using Nat.strongRecOn generalizing done room with
  | _ v ih =>
    cases room with
    | nil =>
      rw [septets] at hroom
      split_ifs at hroom <;> cases hroom
    | cons r room =>
      have hfull : ¬ (done ++ r :: room).length ≤ done.length := by
        rw [List.length_append, List.length_cons]
        omega
      rw [encIntRest, if_neg hfull, if_neg hfull, set_length, set_length]
      by_cases hlast : v < 128
      · have hsept : septets v = [UInt8.ofNat v] := by rw [septets, if_pos hlast]
        rw [if_neg (Nat.not_le.2 hlast), hsept]
        rfl
      · have hsept : septets v = UInt8.ofNat (v % 128 + 128) :: septets (v / 128) := by
          rw [septets, if_neg hlast]
        rw [hsept, List.length_cons, List.length_cons] at hroom
        have hrest := ih (v / 128) (by omega) (done ++ [UInt8.ofNat (v % 128 + 128)]) room
          (by omega)
        rw [List.length_append, List.length_singleton] at hrest
        rw [if_pos (Nat.le_of_not_lt hlast), continued_eq (Nat.mod_lt _ (by decide)), hrest, hsept]
        simp [Nat.add_assoc, Nat.add_comm 1]

/-- Without room nothing is returned. -/
theorem encIntRest_full (done room : Bytes) (v : Nat) (hroom : room.length < (septets v).length) :
    (encIntRest (done ++ room) done.length v).2 = none := by
  induction v using Nat.strongRecOn generalizing done room with
  | _ v ih =>
    cases room with
    | nil =>
      have hfull : (done ++ ([] : Bytes)).length ≤ done.length := by simp
      rw [encIntRest, if_pos hfull, if_pos hfull, ite_self]
    | cons r room =>
      have hfull : ¬ (done ++ r :: room).length ≤ done.length := by
        rw [List.length_append, List.length_cons]
        omega
      have hlast : ¬ v < 128 := by
        intro hlast
        rw [septets, if_pos hlast, List.length_cons] at hroom
        exact absurd hroom (by simp)
      rw [septets, if_neg hlast, List.length_cons, List.length_cons] at hroom
      have hrest := ih (v / 128) (by omega) (done ++ [UInt8.ofNat (v % 128) ||| 128]) room (by omega)
      rw [List.length_append, List.length_singleton] at hrest
      rw [encIntRest, if_pos (Nat.le_of_not_lt hlast), if_neg hfull, set_length]
      exact hrest

theorem length_septets_le {v k : Nat} (hv : v < 128 ^ (k + 1)) : (septets v).length ≤ k + 1 := by
  induction k generalizing v with
  | zero =>
    rw [septets, if_pos (by simpa using hv)]
    exact Nat.le_refl 1
  | succ k ih =>
    rw [septets]
    split_ifs
    · rw [List.length_singleton]
      omega
    · have hrest := ih (v := v / 128) ((Nat.div_lt_iff_lt_mul (by decide)).2 (by rwa [← pow_succ]))
      rw [List.length_cons]
      omega

/-- The encoder writes the integer below the bits that are there. -/
theorem miniHpackEncInt_eq (b : UInt8) (bs : Bytes) (value : Nat) {prefixBits : Nat}
    (hbits : prefixBits ≤ 8) :
    (hpackInt (topBits b prefixBits) prefixBits value).length ≤ bs.length + 1 ∧
      miniHpackEncInt (b :: bs) value prefixBits =
        (hpackInt (topBits b prefixBits) prefixBits value ++
          (b :: bs).drop (hpackInt (topBits b prefixBits) prefixBits value).length,
          some (hpackInt (topBits b prefixBits) prefixBits value).length) ∨
    bs.length + 1 < (hpackInt (topBits b prefixBits) prefixBits value).length ∧
      (miniHpackEncInt (b :: bs) value prefixBits).2 = none := by
  have hpow : 0 < 2 ^ prefixBits := Nat.two_pow_pos _
  have hbyte : (2 : Nat) ^ prefixBits ≤ 2 ^ 8 := Nat.pow_le_pow_right (by decide) hbits
  have hmax : (UInt8.ofNat (2 ^ prefixBits - 1)).toNat = 2 ^ prefixBits - 1 := by
    rw [UInt8.toNat_ofNat', Nat.mod_eq_of_lt (by omega)]
  unfold miniHpackEncInt hpackInt
  dsimp only
  rw [hmax, with_prefix b hbits (show 2 ^ prefixBits - 1 < 2 ^ prefixBits by omega)]
  by_cases hsmall : value < 2 ^ prefixBits - 1
  · rw [if_pos hsmall, if_pos hsmall, with_prefix b hbits (by omega)]
    exact Or.inl ⟨Nat.succ_le_succ (Nat.zero_le _), rfl⟩
  · rw [if_neg hsmall, if_neg hsmall, List.length_cons]
    generalize UInt8.ofNat (topBits b prefixBits + (2 ^ prefixBits - 1)) = first
    generalize value - (2 ^ prefixBits - 1) = v
    rcases Nat.lt_or_ge bs.length (septets v).length with hfull | hroom
    · exact Or.inr ⟨by omega, encIntRest_full [first] bs v hfull⟩
    · refine Or.inl ⟨by omega, ?_⟩
      have hwritten := encIntRest_fits [first] bs v hroom
      rw [List.singleton_append, List.length_singleton] at hwritten
      rw [hwritten]
      simp [Nat.add_comm 1]

/-! ## The integers of the standard -/

/-- The number that bytes of seven bits write, up to the first one without the top bit, and how
many these are. -/
def septetsNumber : Bytes → Option (Nat × Nat)
  | [] => none
  | b :: bs =>
      if b.toNat < 128 then some (b.toNat, 1)
      else (septetsNumber bs).map fun r => (b.toNat % 128 + 128 * r.1, r.2 + 1)

/-- The integer that a text begins with, whatever its size, and how many bytes denote it. -/
def hpackInteger (buf : Bytes) (prefixBits : Nat) : Option (Nat × Nat) :=
  match buf with
  | [] => none
  | b :: bs =>
      if b.toNat % 2 ^ prefixBits < 2 ^ prefixBits - 1 then some (b.toNat % 2 ^ prefixBits, 1)
      else (septetsNumber bs).map fun r => (2 ^ prefixBits - 1 + r.1, r.2 + 1)

theorem septetsNumber_bounds {bs : Bytes} {r : Nat × Nat} (h : septetsNumber bs = some r) :
    0 < r.2 ∧ r.1 < 128 ^ r.2 := by
  induction bs generalizing r with
  | nil => cases h
  | cons b bs ih =>
    rw [septetsNumber] at h
    split_ifs at h with hlast
    · obtain rfl := Option.some.inj h
      exact ⟨Nat.one_pos, by simpa using hlast⟩
    · obtain ⟨r', hr', rfl⟩ := Option.map_eq_some_iff.1 h
      have hrest := (ih hr').2
      refine ⟨Nat.succ_pos _, ?_⟩
      rw [pow_succ]
      omega

/-- The loop of the decoder takes ten bytes at most, and adds modulo 2^64. -/
theorem decIntRest_eq (bs : Bytes) {k v : Nat} (i : Nat) (hk : k ≤ 9) :
    decIntRest bs (7 * k) v i = (septetsNumber bs).bind fun r =>
      if k + r.2 ≤ 10 then some ((v + r.1 * 2 ^ (7 * k)) % 2 ^ 64, i + r.2) else none := by
  induction bs generalizing k v i with
  | nil => rfl
  | cons b bs ih =>
    rw [decIntRest, septetsNumber]
    by_cases hlast : b.toNat < 128
    · rw [if_pos hlast, if_pos hlast, Nat.mod_eq_of_lt hlast, Option.bind_some,
        if_pos (show k + 1 ≤ 10 by omega)]
    · rw [if_neg hlast, if_neg hlast, Option.bind_map]
      rcases Nat.lt_or_ge k 9 with hmore | hten
      · have hstep : 7 * k + 7 = 7 * (k + 1) := by ring
        rw [if_neg (by omega), hstep, ih _ (by omega)]
        refine Option.bind_congr fun r _ => ?_
        have hsum : ((v + b.toNat % 128 * 2 ^ (7 * k)) % 2 ^ 64 + r.1 * 2 ^ (7 * (k + 1))) % 2 ^ 64 =
            (v + (b.toNat % 128 + 128 * r.1) * 2 ^ (7 * k)) % 2 ^ 64 := by
          rw [Nat.mod_add_mod, ← hstep, pow_add]
          congr 1
          ring
        dsimp only [Function.comp]
        rw [hsum, Nat.add_right_comm k, Nat.add_assoc k, Nat.add_assoc i, Nat.add_comm 1]
      · rw [if_pos (by omega)]
        cases hr : septetsNumber bs with
        | none => rfl
        | some r =>
          have hpos := (septetsNumber_bounds hr).1
          rw [Option.bind_some, Function.comp, if_neg (by dsimp only; omega)]

/-- The decoder reads the integer modulo 2^64, if it has no more than eleven bytes. -/
theorem miniHpackDecInt_eq (buf : Bytes) {prefixBits : Nat} (hbits : prefixBits ≤ 8) :
    miniHpackDecInt buf prefixBits = (hpackInteger buf prefixBits).bind fun r =>
      if r.2 ≤ 11 then some (r.1 % 2 ^ 64, r.2) else none := by
  have hbyte : (2 : Nat) ^ prefixBits ≤ 2 ^ 8 := Nat.pow_le_pow_right (by decide) hbits
  cases buf with
  | nil => rfl
  | cons b bs =>
    have hlow : b.toNat % 2 ^ prefixBits < 2 ^ prefixBits := Nat.mod_lt _ (Nat.two_pow_pos _)
    unfold miniHpackDecInt hpackInteger
    dsimp only
    by_cases hsmall : b.toNat % 2 ^ prefixBits < 2 ^ prefixBits - 1
    · have hfit : b.toNat % 2 ^ prefixBits % 2 ^ 64 = b.toNat % 2 ^ prefixBits :=
        Nat.mod_eq_of_lt (by omega)
      rw [if_pos hsmall, if_pos hsmall, Option.bind_some]
      dsimp only
      rw [if_pos (by decide), hfit]
    · have hfull : b.toNat % 2 ^ prefixBits = 2 ^ prefixBits - 1 := by omega
      have hrest := decIntRest_eq bs (v := 2 ^ prefixBits - 1) 1 (Nat.zero_le 9)
      rw [if_neg hsmall, if_neg hsmall, hfull, hrest, Option.bind_map]
      refine Option.bind_congr fun r _ => ?_
      have hcount : 0 + r.2 ≤ 10 ↔ r.2 + 1 ≤ 11 := by omega
      simp only [Function.comp, hcount, Nat.mul_zero, pow_zero, Nat.mul_one, Nat.add_comm 1]

/-- Ten bytes denote no more than 64 bits do. -/
theorem hpackInteger_lt {buf : Bytes} {prefixBits : Nat} (hbits : prefixBits ≤ 8) {r : Nat × Nat}
    (h : hpackInteger buf prefixBits = some r) (hshort : r.2 ≤ 10) : r.1 < 2 ^ 64 := by
  have hbyte : (2 : Nat) ^ prefixBits ≤ 2 ^ 8 := Nat.pow_le_pow_right (by decide) hbits
  cases buf with
  | nil => cases h
  | cons b bs =>
    unfold hpackInteger at h
    dsimp only at h
    split_ifs at h with hsmall
    · obtain rfl := Option.some.inj h
      exact Nat.lt_of_lt_of_le hsmall (by omega)
    · obtain ⟨r', hr', rfl⟩ := Option.map_eq_some_iff.1 h
      have hlt := (septetsNumber_bounds hr').2
      have hnine : (128 : Nat) ^ r'.2 ≤ 128 ^ 9 :=
        Nat.pow_le_pow_right (by decide) (Nat.le_of_succ_le_succ hshort)
      dsimp only
      omega

/-! ## The theorem -/

/-- What is returned for a text is the integer that it begins with. -/
def ExactInt (buf : Bytes) (prefixBits : Nat) : Prop :=
  ∀ v n, miniHpackDecInt buf prefixBits = some (v, n) → hpackInteger buf prefixBits = some (v, n)

theorem exactInt_iff (buf : Bytes) {prefixBits : Nat} (hbits : prefixBits ≤ 8) :
    ExactInt buf prefixBits ↔ ∀ w, hpackInteger buf prefixBits = some (w, 11) → w < 2 ^ 64 := by
  unfold ExactInt
  rw [miniHpackDecInt_eq buf hbits]
  constructor
  · intro hexact w hw
    rw [hw] at hexact
    have hequal := hexact (w % 2 ^ 64) 11 rfl
    rw [(Prod.mk.inj (Option.some.inj hequal)).1]
    exact Nat.mod_lt _ (by decide)
  · intro hfits v n h
    obtain ⟨r, hr, hread⟩ := Option.bind_eq_some_iff.1 h
    split_ifs at hread with hshort
    obtain ⟨rfl, rfl⟩ := Prod.mk.inj (Option.some.inj hread)
    have hlt : r.1 < 2 ^ 64 := by
      rcases Nat.lt_or_ge r.2 11 with hten | heleven
      · exact hpackInteger_lt hbits hr (Nat.le_of_lt_succ hten)
      · refine hfits r.1 ?_
        rw [hr, ← Nat.le_antisymm hshort heleven]
    rw [hr, Nat.mod_eq_of_lt hlt]

/-- What is written of an integer is read back, with any bytes behind it, and the bits above the
prefix stay as they are. -/
def IntRoundTrips (out : Bytes) (value prefixBits : Nat) : Prop :=
  (11 ≤ out.length → (miniHpackEncInt out value prefixBits).2.isSome = true) ∧
  ∀ n, (miniHpackEncInt out value prefixBits).2 = some n →
    n ≤ out.length ∧
    (∀ rest, miniHpackDecInt ((miniHpackEncInt out value prefixBits).1.take n ++ rest) prefixBits =
      some (value, n)) ∧
    (miniHpackEncInt out value prefixBits).1.head?.map (topBits · prefixBits) =
      out.head?.map (topBits · prefixBits)

theorem intRoundTrips (out : Bytes) {value prefixBits : Nat} (hbits : prefixBits ≤ 8)
    (hvalue : value < 2 ^ 64) : IntRoundTrips out value prefixBits := by
  cases out with
  | nil => exact ⟨nofun, nofun⟩
  | cons b bs =>
    have htop : topBits b prefixBits % 2 ^ prefixBits = 0 := Nat.mul_mod_right _ _
    have hbyte : topBits b prefixBits + 2 ^ prefixBits ≤ 256 := by
      have hall : ∀ k ≤ 8, ∀ n < 256, 2 ^ k * (n / 2 ^ k) + 2 ^ k ≤ 256 := by decide +kernel
      exact hall prefixBits hbits b.toNat b.toNat_lt
    have hlength : (hpackInt (topBits b prefixBits) prefixBits value).length ≤ 11 := by
      unfold hpackInt
      split_ifs
      · exact Nat.succ_le_succ (Nat.zero_le _)
      · have hsept := length_septets_le (v := value - (2 ^ prefixBits - 1)) (k := 9)
          (Nat.lt_of_le_of_lt (Nat.sub_le _ _) (Nat.lt_of_lt_of_le hvalue (by decide)))
        rw [List.length_cons]
        omega
    unfold IntRoundTrips
    rcases miniHpackEncInt_eq b bs value hbits with ⟨hroom, henc⟩ | ⟨hfull, henc⟩
    · rw [henc]
      refine ⟨fun _ => rfl, fun n hn => ?_⟩
      obtain rfl := Option.some.inj hn
      refine ⟨hroom, fun rest => ?_, ?_⟩
      · rw [List.take_left]
        exact decInt_hpackInt _ _ _ htop hbyte hvalue rest
      · obtain ⟨c, cs, hcons, hlow, hhigh⟩ := hpackInt_head (topBits b prefixBits) prefixBits value
          hbyte ((b :: bs).drop (hpackInt (topBits b prefixBits) prefixBits value).length)
        have hquotient : c.toNat / 2 ^ prefixBits = b.toNat / 2 ^ prefixBits := by
          unfold topBits at hlow hhigh
          refine Nat.div_eq_of_lt_le ?_ ?_
          · rwa [Nat.mul_comm]
          · rwa [Nat.mul_comm, Nat.mul_succ]
        rw [hcons, List.head?_cons, List.head?_cons, Option.map_some, Option.map_some, topBits,
          topBits, hquotient]
    · rw [henc]
      refine ⟨fun hlong => ?_, nofun⟩
      rw [List.length_cons] at hlong
      omega

/-- For every prefix: integers of 64 bits are written and read back, and what is read of a text is
exact if and only if the text does not begin with eleven bytes that denote more than 64 bits. -/
theorem hpackInt_iff {prefixBits : Nat} (hwidth : 1 ≤ prefixBits ∧ prefixBits ≤ 8) :
    (∀ out value, value < 2 ^ 64 → IntRoundTrips out value prefixBits) ∧
    ∀ buf, ExactInt buf prefixBits ↔
      ∀ w, hpackInteger buf prefixBits = some (w, 11) → w < 2 ^ 64 :=
  ⟨fun out _ => intRoundTrips out hwidth.2, fun buf => exactInt_iff buf hwidth.2⟩

theorem hpackInt_iff_eight :
    (∀ out value, value < 2 ^ 64 → IntRoundTrips out value 8) ∧
    ∀ buf, ExactInt buf 8 ↔ ∀ w, hpackInteger buf 8 = some (w, 11) → w < 2 ^ 64 :=
  hpackInt_iff (by decide)

/-- 2^64 + 255 is read as 255. -/
theorem tenth_byte_wraps : ¬ ExactInt (255 :: List.replicate 9 128 ++ [2]) 8 := by
  intro hexact
  have hread : miniHpackDecInt (255 :: List.replicate 9 128 ++ [2]) 8 = some (255, 11) := by
    decide
  exact absurd (hexact 255 11 hread) (by decide)

end TinyFramework.Net
