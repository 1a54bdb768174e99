/-
FalconDraw.Lib.Amount — sums of 64-bit signed amounts.

Go adds `int64` values modulo 2^64 without complaint, and the code under study
mixes sums that were range-checked on the way with sums that were not.
-/
import Mathlib.Algebra.Ring.Nat
import Mathlib.Algebra.Ring.Int.Defs
import Mathlib.Algebra.BigOperators.Group.List.Basic
import Mathlib.Algebra.Order.BigOperators.Group.List

namespace FalconDraw.Lib

variable {xs : List Int64}

/-! ## One operation -/

theorem toInt_add_of_fits {a b : Int64} (hlo : -2 ^ 63 ≤ a.toInt + b.toInt)
    (hhi : a.toInt + b.toInt < 2 ^ 63) : (a + b).toInt = a.toInt + b.toInt := by
  rw [Int64.toInt_add]
  exact Int.bmod_eq_of_le (by omega) (by omega)

theorem toInt_sub_of_fits {a b : Int64} (hlo : -2 ^ 63 ≤ a.toInt - b.toInt)
    (hhi : a.toInt - b.toInt < 2 ^ 63) : (a - b).toInt = a.toInt - b.toInt := by
  rw [Int64.toInt_sub]
  exact Int.bmod_eq_of_le (by omega) (by omega)

/-- Wrapping into the signed range only ever lowers a non-negative number. -/
theorem bmod_le_of_nonneg {x : Int} (hx : 0 ≤ x) : x.bmod (2 ^ 64) ≤ x := by
  by_cases h : x < 2 ^ 63
  · rw [Int.bmod_eq_of_le (by omega) (by omega)]
  · have := @Int.bmod_lt x (2 ^ 64) (by decide)
    omega

/-- A number that passes the signed range by less than its width comes out
negative. -/
theorem bmod_neg_of_wraps {x : Int} (hlo : 2 ^ 63 ≤ x) (hhi : x < 2 ^ 64) :
    x.bmod (2 ^ 64) < 0 := by
  rw [Int.bmod_def]
  split <;> omega

theorem toNat_toUInt64_of_nonneg {a : Int64} (h : 0 ≤ a.toInt) :
    (a.toUInt64.toNat : Int) = a.toInt := by
  have hlt : a.toUInt64.toNat < 2 ^ 64 := a.toUInt64.toBitVec.isLt
  have hcond : a.toInt = if 2 * a.toUInt64.toNat < 2 ^ 64 then (a.toUInt64.toNat : Int)
      else a.toUInt64.toNat - (2 ^ 64 : Nat) := BitVec.toInt_eq_toNat_cond _
  split at hcond <;> omega

theorem ofNat_toUInt64 (a : Int64) : Int64.ofNat a.toUInt64.toNat = a := by
  have hbits : BitVec.ofNat 64 a.toUInt64.toBitVec.toNat = a.toUInt64.toBitVec := by simp
  show Int64.ofUInt64 (UInt64.ofBitVec (BitVec.ofNat 64 a.toUInt64.toBitVec.toNat)) = a
  rw [hbits]

/-! ## Sums -/

/-- The loop `total += x` over machine integers. -/
def sum64 (xs : List Int64) : Int64 := xs.foldl (· + ·) 0

theorem foldl_add_eq (xs : List Int64) (a : Int64) : xs.foldl (· + ·) a = a + sum64 xs := by
  have h : xs.foldl (· + ·) (a + 0) = a + xs.foldl (· + ·) 0 := List.foldl_assoc
  rwa [Int64.add_zero] at h

theorem sum64_cons (x : Int64) (xs : List Int64) : sum64 (x :: xs) = x + sum64 xs := by
  rw [sum64, List.foldl_cons, foldl_add_eq, Int64.zero_add]

theorem sum64_append (xs ys : List Int64) : sum64 (xs ++ ys) = sum64 xs + sum64 ys := by
  rw [sum64, List.foldl_append, foldl_add_eq]
  rfl

def sumInt (xs : List Int64) : Int := (xs.map Int64.toInt).sum

@[simp] theorem sumInt_nil : sumInt [] = 0 := rfl

@[simp] theorem sumInt_cons (x : Int64) (xs : List Int64) :
    sumInt (x :: xs) = x.toInt + sumInt xs := by
  simp [sumInt]

@[simp] theorem sumInt_append (xs ys : List Int64) : sumInt (xs ++ ys) = sumInt xs + sumInt ys := by
  simp [sumInt]

theorem sumInt_nonneg (h : ∀ x ∈ xs, 0 ≤ x.toInt) : 0 ≤ sumInt xs := by
  apply List.sum_nonneg
  intro y hy
  obtain ⟨x, hx, rfl⟩ := List.mem_map.mp hy
  exact h x hx

theorem sumInt_pos (hne : xs ≠ []) (h : ∀ x ∈ xs, 0 < x.toInt) : 0 < sumInt xs := by
  obtain ⟨x, rest, rfl⟩ := List.exists_cons_of_ne_nil hne
  have hx := h x List.mem_cons_self
  have hrest := sumInt_nonneg fun y hy => (h y (List.mem_cons_of_mem x hy)).le
  rw [sumInt_cons]
  omega

theorem sumInt_le_of_sublist {ys : List Int64} (hsub : xs.Sublist ys)
    (h : ∀ y ∈ ys, 0 ≤ y.toInt) : sumInt xs ≤ sumInt ys := by
  refine List.Sublist.sum_le_sum (hsub.map Int64.toInt) ?_
  intro y hy
  obtain ⟨x, hx, rfl⟩ := List.mem_map.mp hy
  exact h x hx

theorem toInt_foldl_add (xs : List Int64) :
    ∀ a : Int64, (xs.foldl (· + ·) a).toInt = (a.toInt + sumInt xs).bmod (2 ^ 64) := by
  induction xs with
  | nil =>
    intro a
    simp
  | cons x xs ih =>
    intro a
    rw [List.foldl_cons, ih, Int64.toInt_add, sumInt_cons, Int.bmod_add_bmod, add_assoc]

/-- The machine sum is the integer sum wrapped once. -/
theorem toInt_sum64 (xs : List Int64) : (sum64 xs).toInt = (sumInt xs).bmod (2 ^ 64) := by
  rw [sum64, toInt_foldl_add]
  simp

theorem toInt_sum64_of_fits (hlo : -2 ^ 63 ≤ sumInt xs)
    (hhi : sumInt xs < 2 ^ 63) : (sum64 xs).toInt = sumInt xs := by
  rw [toInt_sum64]
  exact Int.bmod_eq_of_le (by omega) (by omega)

end FalconDraw.Lib
