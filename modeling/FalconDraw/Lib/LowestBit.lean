/-
FalconDraw.Lib.LowestBit — numbers by the positions of their bits.

`bitSum es` is the number with the bits `es`, lowest first. Clearing the lowest
bit (`n &&& (n - 1)`) drops the first position, subtracting one replaces it by all
positions below it.
-/
import Mathlib.Data.List.Nodup
import Mathlib.Data.List.Range
import Mathlib.Data.Nat.Bitwise

namespace FalconDraw.Lib

variable {es : List Nat}

def bitSum : List Nat → Nat
  | [] => 0
  | e :: es => 2 ^ e + bitSum es

def clearLowest (n : Nat) : Nat := n &&& (n - 1)

theorem bitSum_append (xs ys : List Nat) : bitSum (xs ++ ys) = bitSum xs + bitSum ys := by
  induction xs with
  | nil => rw [List.nil_append, bitSum, Nat.zero_add]
  | cons x xs ih => rw [List.cons_append, bitSum, bitSum, ih, Nat.add_assoc]

theorem bitSum_range (e : Nat) : bitSum (List.range e) + 1 = 2 ^ e := by
  induction e with
  | zero => rfl
  | succ e ih =>
    rw [List.range_succ, bitSum_append, bitSum, bitSum, Nat.pow_succ]
    omega

/-- One less is all bits below the lowest one. -/
theorem bitSum_cons_sub_one (e : Nat) (es : List Nat) :
    bitSum (e :: es) - 1 = bitSum (List.range e ++ es) := by
  have := bitSum_range e
  rw [bitSum, bitSum_append]
  omega

theorem le_bitSum_append (xs ys : List Nat) : bitSum ys ≤ bitSum (xs ++ ys) := by
  rw [bitSum_append]
  exact Nat.le_add_left _ _

/-- Bits above `e` make a multiple of the next power. -/
theorem dvd_bitSum {e : Nat} (h : ∀ x ∈ es, e < x) : 2 ^ (e + 1) ∣ bitSum es := by
  induction es with
  | nil => exact Nat.dvd_zero _
  | cons x es ih =>
    rw [bitSum]
    exact Nat.dvd_add (Nat.pow_dvd_pow 2 (h x List.mem_cons_self))
      (ih fun y hy => h y (List.mem_cons_of_mem x hy))

/-! ## Clearing the lowest bit -/

theorem and_mod_two_of_even (a : Nat) {b : Nat} (h : b % 2 = 0) : (a &&& b) % 2 = 0 := by
  have hlow := @Nat.and_mod_two_pow a b 1
  rwa [Nat.pow_one, h, Nat.and_zero] at hlow

theorem clearLowest_odd (m : Nat) : clearLowest (2 * m + 1) = 2 * m := by
  have hdiv : (2 * m + 1 &&& 2 * m) / 2 = m := by
    rw [Nat.and_div_two, show (2 * m + 1) / 2 = m by omega, show 2 * m / 2 = m by omega,
      Nat.and_self]
  have hmod : (2 * m + 1 &&& 2 * m) % 2 = 0 := and_mod_two_of_even _ (by omega)
  rw [clearLowest, Nat.add_sub_cancel]
  omega

theorem clearLowest_even {n : Nat} (h : 0 < n) : clearLowest (2 * n) = 2 * clearLowest n := by
  have hdiv : (2 * n &&& (2 * n - 1)) / 2 = n &&& (n - 1) := by
    rw [Nat.and_div_two, show 2 * n / 2 = n by omega, show (2 * n - 1) / 2 = n - 1 by omega]
  have hmod : (2 * n &&& (2 * n - 1)) % 2 = 0 := by
    rw [Nat.and_comm]
    exact and_mod_two_of_even _ (by omega)
  rw [clearLowest, clearLowest]
  omega

theorem clearLowest_pow_mul (e m : Nat) : clearLowest (2 ^ e * (2 * m + 1)) = 2 ^ e * (2 * m) := by
  induction e with
  | zero => rw [Nat.pow_zero, Nat.one_mul, Nat.one_mul, clearLowest_odd]
  | succ e ih =>
    have hpos : 0 < 2 ^ e * (2 * m + 1) := Nat.mul_pos (Nat.two_pow_pos e) (Nat.succ_pos _)
    rw [Nat.pow_succ, Nat.mul_comm (2 ^ e) 2, Nat.mul_assoc, clearLowest_even hpos, ih,
      Nat.mul_assoc]

theorem clearLowest_bitSum {e : Nat} (h : (e :: es).Pairwise (· < ·)) :
    clearLowest (bitSum (e :: es)) = bitSum es := by
  obtain ⟨m, hm⟩ := dvd_bitSum (List.pairwise_cons.mp h).1
  have hsum : bitSum (e :: es) = 2 ^ e * (2 * m + 1) := by
    rw [bitSum, hm, Nat.pow_succ, Nat.mul_add, Nat.mul_one, Nat.mul_assoc, Nat.add_comm]
  rw [hsum, clearLowest_pow_mul, hm, Nat.pow_succ, Nat.mul_assoc]

theorem clearLowest_lt {n : Nat} (h : 0 < n) : clearLowest n < n := by
  have := @Nat.and_le_right n (n - 1)
  rw [clearLowest]
  omega

theorem clearLowest_le (n : Nat) : clearLowest n ≤ n := Nat.and_le_left

/-! ## The bits of a number -/

theorem exists_bits : ∀ {k n : Nat}, n < 2 ^ k →
    ∃ es : List Nat, es.Pairwise (· < ·) ∧ (∀ e ∈ es, e < k) ∧ bitSum es = n := by
  intro k
  induction k with
  | zero => grind [bitSum]
  | succ k ih =>
    intro n hn
    by_cases hlow : n < 2 ^ k
    · obtain ⟨es, hsorted, hbelow, hsum⟩ := ih hlow
      exact ⟨es, hsorted, fun e he => Nat.lt_succ_of_lt (hbelow e he), hsum⟩
    · rw [Nat.pow_succ] at hn
      obtain ⟨es, hsorted, hbelow, hsum⟩ := ih (show n - 2 ^ k < 2 ^ k by omega)
      refine ⟨es ++ [k], ?_, ?_, ?_⟩
      · grind
      · grind
      · rw [bitSum_append, hsum, bitSum, bitSum]
        omega

/-- Increasing positions below `k` are at most `k`. -/
theorem length_le_of_pairwise_lt {k : Nat} (h : es.Pairwise (· < ·))
    (hbelow : ∀ e ∈ es, e < k) : es.length ≤ k := by
  have hnodup : es.Nodup := h.imp Nat.ne_of_lt
  have hsub : es ⊆ List.range k := fun e he => List.mem_range.mpr (hbelow e he)
  have hle := List.Nodup.length_le_of_subset hnodup hsub
  rwa [List.length_range] at hle

end FalconDraw.Lib
