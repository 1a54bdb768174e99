/-
FalconDraw.Lib.Truncation — numbers cut to their leading digits.

A number is written in digits of `w` bits with a free bit in front, as a signed
format needs it, and all but the first `p` digits are dropped: `digits` counts
them, `unit` is the weight of the last one kept and `truncate` what is left of the
number.
-/
import Mathlib.Data.Nat.Log
import Mathlib.Tactic.Ring

namespace FalconDraw.Lib.Truncation

variable {w p m n k : Nat}

/-- The digits of `w` bits that hold the number and one bit more. -/
def digits (w n : Nat) : Nat := (n.log2 + 1) / w + 1

/-- The weight of the last of `p` digits. -/
def unit (w p n : Nat) : Nat := 2 ^ (w * (digits w n - p))

/-- The number without the digits behind the first `p`. -/
def truncate (w p n : Nat) : Nat := n / unit w p n * unit w p n

theorem unit_pos (w p n : Nat) : 0 < unit w p n := Nat.two_pow_pos _

theorem digits_congr (h : m.log2 = n.log2) : digits w m = digits w n := by
  rw [digits, digits, h]

theorem log2_mono (hm : m ≠ 0) (h : m ≤ n) : m.log2 ≤ n.log2 := by
  have hn : n ≠ 0 := by omega
  exact (Nat.le_log2 hn).mpr ((Nat.log2_self_le hm).trans h)

theorem log2_eq_of_le (hm : 2 ^ k ≤ m) (h : m < 2 ^ (k + 1)) : m.log2 = k := by
  have hne : m ≠ 0 := (Nat.lt_of_lt_of_le (Nat.two_pow_pos k) hm).ne'
  have hge := (Nat.le_log2 hne).mpr hm
  have hlt := (Nat.log2_lt hne).mpr h
  omega

/-- The leading bit weighs at least `2 ^ (w * (p - 1) - 1)` units, when digits are
dropped at all. -/
theorem unit_mul_le (hw : 0 < w) (hp : 1 < p) (hmany : p < digits w n) :
    unit w p n * 2 ^ (w * (p - 1) - 1) ≤ 2 ^ n.log2 := by
  have hle : p ≤ (n.log2 + 1) / w := Nat.le_of_lt_succ hmany
  have hdiv : w * ((n.log2 + 1) / w) ≤ n.log2 + 1 := Nat.mul_div_le _ _
  have hpos : 0 < w * (p - 1) := Nat.mul_pos hw (by omega)
  have hsplit : w * ((n.log2 + 1) / w + 1 - p) + w * (p - 1) = w * ((n.log2 + 1) / w) := by
    rw [← Nat.mul_add]
    congr 1
    omega
  rw [unit, digits, ← Nat.pow_add]
  exact Nat.pow_le_pow_right (by decide) (by omega)

theorem unit_eq_one (hfew : digits w n ≤ p) : unit w p n = 1 := by
  rw [unit, Nat.sub_eq_zero_of_le hfew, Nat.mul_zero, Nat.pow_zero]

theorem truncate_of_few (hfew : digits w n ≤ p) : truncate w p n = n := by
  rw [truncate, unit_eq_one hfew, Nat.div_one, Nat.mul_one]

theorem truncate_le (w p n : Nat) : truncate w p n ≤ n := Nat.div_mul_le_self _ _

/-- Less than one part in `2 ^ (w * (p - 1) - 1)` is lost. -/
theorem lost_lt (hw : 0 < w) (hp : 1 < p) (hn : n ≠ 0) :
    (n - truncate w p n) * 2 ^ (w * (p - 1) - 1) < n := by
  by_cases hfew : digits w n ≤ p
  · rw [truncate_of_few hfew, Nat.sub_self, Nat.zero_mul]
    exact Nat.pos_of_ne_zero hn
  · have hlost : n - truncate w p n = n % unit w p n := by
      have := Nat.div_add_mod' n (unit w p n)
      rw [truncate]
      omega
    calc (n - truncate w p n) * 2 ^ (w * (p - 1) - 1)
        < unit w p n * 2 ^ (w * (p - 1) - 1) := by
          rw [hlost]
          exact Nat.mul_lt_mul_of_pos_right (Nat.mod_lt _ (unit_pos w p n)) (Nat.two_pow_pos _)
      _ ≤ 2 ^ n.log2 := unit_mul_le hw hp (Nat.lt_of_not_le hfew)
      _ ≤ n := Nat.log2_self_le hn

theorem two_pow_log2_le (hw : 0 < w) (hp : 1 < p) (hn : n ≠ 0) : 2 ^ n.log2 ≤ truncate w p n := by
  by_cases hfew : digits w n ≤ p
  · rw [truncate_of_few hfew]
    exact Nat.log2_self_le hn
  · -- the unit divides the power of two below the number
    have hle := unit_mul_le hw hp (Nat.lt_of_not_le hfew)
    have hunit : unit w p n ≤ 2 ^ n.log2 :=
      (Nat.le_mul_of_pos_right _ (Nat.two_pow_pos _)).trans hle
    have hdvd : unit w p n ∣ 2 ^ n.log2 :=
      Nat.pow_dvd_pow 2 ((Nat.pow_le_pow_iff_right (by decide)).mp hunit)
    calc 2 ^ n.log2 = 2 ^ n.log2 / unit w p n * unit w p n := (Nat.div_mul_cancel hdvd).symm
      _ ≤ truncate w p n :=
        Nat.mul_le_mul_right _ (Nat.div_le_div_right (Nat.log2_self_le hn))

theorem truncate_ne_zero (hw : 0 < w) (hp : 1 < p) (hn : n ≠ 0) : truncate w p n ≠ 0 :=
  (Nat.lt_of_lt_of_le (Nat.two_pow_pos _) (two_pow_log2_le hw hp hn)).ne'

theorem log2_truncate (hw : 0 < w) (hp : 1 < p) (hn : n ≠ 0) : (truncate w p n).log2 = n.log2 :=
  log2_eq_of_le (two_pow_log2_le hw hp hn) ((truncate_le w p n).trans_lt Nat.lt_log2_self)

theorem unit_truncate (hw : 0 < w) (hp : 1 < p) (hn : n ≠ 0) :
    unit w p (truncate w p n) = unit w p n := by
  rw [unit, unit, digits_congr (log2_truncate hw hp hn)]

theorem truncate_of_dvd (h : unit w p n ∣ n) : truncate w p n = n := Nat.div_mul_cancel h

theorem truncate_truncate (hw : 0 < w) (hp : 1 < p) (hn : n ≠ 0) :
    truncate w p (truncate w p n) = truncate w p n := by
  apply truncate_of_dvd
  rw [unit_truncate hw hp hn]
  exact Nat.dvd_mul_left _ _

theorem truncate_mono (hw : 0 < w) (hp : 1 < p) (hm : m ≠ 0) (h : m ≤ n) :
    truncate w p m ≤ truncate w p n := by
  have hlog := log2_mono hm h
  rcases Nat.lt_or_eq_of_le hlog with hlt | heq
  · calc truncate w p m ≤ m := truncate_le w p m
      _ ≤ 2 ^ (m.log2 + 1) := Nat.lt_log2_self.le
      _ ≤ 2 ^ n.log2 := Nat.pow_le_pow_right (by decide) hlt
      _ ≤ truncate w p n := two_pow_log2_le hw hp (by omega)
  · rw [truncate, truncate, unit, unit, digits_congr heq]
    exact Nat.mul_le_mul_right _ (Nat.div_le_div_right h)

/-- A number of at most `p` digits followed by zeros loses nothing. -/
theorem truncate_mul_pow (hw : 0 < w) (hfew : digits w m ≤ p) (hm : m ≠ 0) (k : Nat) :
    truncate w p (m * 2 ^ (w * k)) = m * 2 ^ (w * k) := by
  have hlog : (m * 2 ^ (w * k)).log2 = m.log2 + w * k := by
    apply log2_eq_of_le
    · rw [Nat.pow_add]
      exact Nat.mul_le_mul_right _ (Nat.log2_self_le hm)
    · rw [Nat.add_right_comm, Nat.pow_add]
      exact Nat.mul_lt_mul_of_pos_right Nat.lt_log2_self (Nat.two_pow_pos _)
  have hdigits : digits w (m * 2 ^ (w * k)) = digits w m + k := by
    rw [digits, digits, hlog, Nat.add_right_comm, Nat.add_mul_div_left _ _ hw]
    omega
  apply truncate_of_dvd
  rw [unit, hdigits]
  exact Dvd.dvd.mul_left (Nat.pow_dvd_pow 2 (Nat.mul_le_mul_left w (by omega))) m

end FalconDraw.Lib.Truncation
