/-
FalconDraw.Lib.SquareRoot — square roots modulo a prime that is 3 modulo 4.

For such a prime `-1` is no square, so of `a` and `-a` exactly one is.
-/
import Mathlib.NumberTheory.LegendreSymbol.Basic

namespace FalconDraw.Lib.SquareRoot

variable {p : ℕ} [Fact p.Prime] (h3 : p % 4 = 3) {a b : ZMod p}

include h3

theorem not_isSquare_neg (ha : a ≠ 0) (hsq : IsSquare a) : ¬ IsSquare (-a) := by
  intro hneg
  have hone : IsSquare (-1 : ZMod p) := by
    have hdiv := hneg.div hsq
    rwa [neg_div, div_self ha] at hdiv
  exact ZMod.exists_sq_eq_neg_one_iff.mp hone h3

theorem isSquare_neg (ha : a ≠ 0) (hsq : ¬ IsSquare a) : IsSquare (-a) := by
  have hodd : Odd (p / 2) := ⟨p / 4, by omega⟩
  have hpow : a ^ (p / 2) = -1 := by
    rcases ZMod.pow_div_two_eq_neg_one_or_one p ha with h | h
    · exact absurd ((ZMod.euler_criterion p ha).mpr h) hsq
    · exact h
  rw [ZMod.euler_criterion p (neg_ne_zero.mpr ha), hodd.neg_pow, hpow, neg_neg]

theorem eq_of_sq_eq_sq (ha : IsSquare a) (hb : IsSquare b) (h : a ^ 2 = b ^ 2) : a = b := by
  rcases sq_eq_sq_iff_eq_or_eq_neg.mp h with heq | hneg
  · exact heq
  · by_cases hzero : b = 0
    · rw [hneg, hzero, neg_zero]
    · exact absurd (hneg ▸ ha) (not_isSquare_neg h3 hzero hb)

theorem root_sq (ha : IsSquare a) : (a ^ ((p + 1) / 4)) ^ 2 = a := by
  rw [← pow_mul]
  have hexp : (p + 1) / 4 * 2 = p / 2 + 1 := by omega
  by_cases hzero : a = 0
  · rw [hzero, hexp, zero_pow (Nat.succ_ne_zero _)]
  · rw [hexp, pow_succ, (ZMod.euler_criterion p hzero).mp ha, one_mul]

/-- A `2 ^ (n + 1)`-th root of a power of a square is that square up to sign. -/
theorem eq_or_eq_neg_of_pow_eq (ha : IsSquare a) :
    ∀ n : ℕ, b ^ 2 ^ (n + 1) = a ^ 2 ^ (n + 1) → b = a ∨ b = -a
  | 0, h => by
      rw [zero_add, pow_one] at h
      exact sq_eq_sq_iff_eq_or_eq_neg.mp h
  | n + 1, h => by
      -- both sides are squares of squares
      rw [pow_succ 2 (n + 1), pow_mul, pow_mul] at h
      have hsquare : ∀ x : ZMod p, IsSquare (x ^ 2 ^ (n + 1)) := fun x => by
        rw [pow_succ 2 n, pow_mul]
        exact IsSquare.sq _
      exact eq_or_eq_neg_of_pow_eq ha n (eq_of_sq_eq_sq h3 (hsquare b) (hsquare a) h)

end FalconDraw.Lib.SquareRoot
