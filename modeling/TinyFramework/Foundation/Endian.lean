/-
  Foundation/Endian.lean --- numbers as bytes, the low or the high one first.
-/
import TinyFramework.Foundation.Ascii
import TinyFramework.Foundation.Words
import Mathlib.Algebra.BigOperators.Ring.Finset

set_option autoImplicit false

namespace TinyFramework.Foundation

/-- The number a byte string denotes, least significant byte first. -/
def leValue : List UInt8 → Nat
  | [] => 0
  | b :: bs => b.toNat + 256 * leValue bs

/-- The `n` low bytes of a number, least significant byte first. -/
def leBytes : Nat → Nat → List UInt8
  | 0, _ => []
  | n + 1, v => UInt8.ofNat v :: leBytes n (v / 256)

@[simp] theorem leValue_nil : leValue [] = 0 := rfl

@[simp] theorem leValue_cons (b : UInt8) (bs : List UInt8) :
    leValue (b :: bs) = b.toNat + 256 * leValue bs := rfl

@[simp] theorem length_leBytes (n v : Nat) : (leBytes n v).length = n := by
  induction n generalizing v with
  | zero => rfl
  | succ n ih => rw [leBytes, List.length_cons, ih]

theorem leValue_leBytes {n v : Nat} (h : v < 256 ^ n) : leValue (leBytes n v) = v := by
  induction n generalizing v with
  | zero =>
      have hv : v = 0 := by simpa using h
      rw [hv]
      rfl
  | succ n ih =>
      have hbyte : (UInt8.ofNat v).toNat = v % 256 := UInt8.toNat_ofNat'
      rw [leBytes, leValue_cons, hbyte,
        ih (Nat.div_lt_of_lt_mul (by rwa [Nat.pow_succ, Nat.mul_comm] at h))]
      exact Nat.mod_add_div v 256

theorem leValue_lt (bs : List UInt8) : leValue bs < 256 ^ bs.length := by
  induction bs with
  | nil => simp
  | cons b bs ih =>
      have hb : b.toNat < 256 := b.toNat_lt
      rw [leValue_cons, List.length_cons, Nat.pow_succ]
      omega

theorem leValue_append (xs ys : List UInt8) :
    leValue (xs ++ ys) = leValue xs + 256 ^ xs.length * leValue ys := by
  induction xs with
  | nil => simp
  | cons x xs ih =>
      rw [List.cons_append, leValue_cons, leValue_cons, ih, List.length_cons]
      ring

/-- Trailing zero bytes do not change the value. -/
theorem leValue_append_zeros (xs : List UInt8) (n : Nat) :
    leValue (xs ++ List.replicate n 0) = leValue xs := by
  have hzero : leValue (List.replicate n 0) = 0 := by
    induction n with
    | zero => rfl
    | succ n ih => simp [List.replicate_succ, ih]
  rw [leValue_append, hzero, Nat.mul_zero, Nat.add_zero]

/-- The value of the first `n` bytes, each passed through `f`, as a sum; bytes
past the end count as 0, which `f` keeps. -/
theorem leValue_take_mapIdx (n : Nat) (f : Nat → UInt8 → UInt8) (hf : ∀ i, f i 0 = 0)
    (bs : List UInt8) :
    leValue ((bs.take n).mapIdx f) =
      ∑ i ∈ Finset.range n, (f i (bs.getD i 0)).toNat * 256 ^ i := by
  induction n generalizing f bs with
  | zero => simp
  | succ n ih =>
      cases bs with
      | nil => simp [hf]
      | cons b bs =>
          have htail := ih (fun i => f (i + 1)) (fun i => hf (i + 1)) bs
          rw [List.take_succ_cons, List.mapIdx_cons, leValue_cons, htail,
            Finset.sum_range_succ', Finset.mul_sum, Nat.add_comm]
          congr 1
          · refine Finset.sum_congr rfl fun i _ => ?_
            rw [List.getD_cons_succ, Nat.pow_succ]
            ring
          · simp

/-- Two low halves written one after the other write the joined number. -/
theorem leBytes_append (m n a b : Nat) (ha : a < 256 ^ m) :
    leBytes m a ++ leBytes n b = leBytes (m + n) (a + 256 ^ m * b) := by
  induction m generalizing a with
  | zero =>
      have : a = 0 := by simpa using ha
      simp [leBytes, this]
  | succ m ih =>
      have hquot : (a + 256 ^ (m + 1) * b) / 256 = a / 256 + 256 ^ m * b := by
        rw [Nat.pow_succ, Nat.mul_right_comm, Nat.add_mul_div_right _ _ (by decide)]
      have hhead : UInt8.ofNat (a + 256 ^ (m + 1) * b) = UInt8.ofNat a := by
        apply UInt8.toNat_inj.mp
        rw [UInt8.toNat_ofNat', UInt8.toNat_ofNat', Nat.pow_succ, Nat.mul_right_comm]
        exact Nat.add_mul_mod_self_right _ _ _
      rw [Nat.succ_add, leBytes, leBytes, hquot, hhead, List.cons_append,
        ih _ (Nat.div_lt_of_lt_mul (by rwa [Nat.pow_succ, Nat.mul_comm] at ha))]

/-! ## Numbers as bytes in network order -/

/-- The number a byte string denotes, most significant byte first. -/
def beValue (bs : Bytes) : Nat := bs.foldl (fun v b => v * 256 + b.toNat) 0

/-- The `k` low bytes of a number, most significant byte first. -/
def beBytes : Nat → Nat → Bytes
  | 0, _ => []
  | k + 1, n => UInt8.ofNat (n / 256 ^ k) :: beBytes k n

theorem foldl_be_lt (bs : Bytes) (v : Nat) :
    bs.foldl (fun v b => v * 256 + b.toNat) v < (v + 1) * 256 ^ bs.length := by
  induction bs generalizing v with
  | nil => simp
  | cons b bs ih =>
    have hb : b.toNat < 256 := b.toNat_lt
    calc (b :: bs).foldl (fun v b => v * 256 + b.toNat) v
        = bs.foldl (fun v b => v * 256 + b.toNat) (v * 256 + b.toNat) := rfl
      _ < (v * 256 + b.toNat + 1) * 256 ^ bs.length := ih _
      _ ≤ ((v + 1) * 256) * 256 ^ bs.length := Nat.mul_le_mul_right _ (by omega)
      _ = (v + 1) * 256 ^ (b :: bs).length := by rw [List.length_cons, pow_succ]; ring

theorem beValue_lt (bs : Bytes) : beValue bs < 256 ^ bs.length := by
  simpa [beValue] using foldl_be_lt bs 0

@[simp] theorem length_beBytes (k n : Nat) : (beBytes k n).length = k := by
  induction k with
  | zero => rfl
  | succ k ih => rw [beBytes, List.length_cons, ih]

theorem foldl_beBytes (k n v : Nat) :
    (beBytes k n).foldl (fun v b => v * 256 + b.toNat) v = v * 256 ^ k + n % 256 ^ k := by
  induction k generalizing v with
  | zero => simp [beBytes, Nat.mod_one]
  | succ k ih =>
    have hbyte : (UInt8.ofNat (n / 256 ^ k)).toNat = n / 256 ^ k % 256 := UInt8.toNat_ofNat'
    have hsplit : n % 256 ^ (k + 1) = n / 256 ^ k % 256 * 256 ^ k + n % 256 ^ k := by
      rw [pow_succ, Nat.mod_mul]
      ring
    rw [beBytes, List.foldl_cons, ih, hbyte, hsplit]
    ring

theorem beValue_beBytes {k n : Nat} (h : n < 256 ^ k) : beValue (beBytes k n) = n := by
  rw [beValue, foldl_beBytes, Nat.mod_eq_of_lt h, Nat.zero_mul, Nat.zero_add]

end TinyFramework.Foundation
