/-
FalconDraw.Chain.Compact — targets in compact form
(blockchain/internal/workmath/difficulty.go).

`bigToCompact` packs the number of bytes and the three leading ones, the first of
which must leave the sign bit free.
-/
import FalconDraw.Chain.BlockNode
import FalconDraw.Lib.Truncation
import Mathlib.Data.Nat.Bitwise

namespace FalconDraw.Chain

open Lib.Truncation

variable {n : Nat}

/-- `len(n.Bytes())`. -/
def byteLen (n : Nat) : Nat := if n = 0 then 0 else n.log2 / 8 + 1

def bigToCompact (n : Int) : Nat :=
  if n = 0 then 0
  else
    let exponent := byteLen n.natAbs
    let mantissa :=
      if exponent ≤ 3 then n.natAbs <<< (8 * (3 - exponent))
      else (n >>> (8 * (exponent - 3))).natAbs
    -- a mantissa with the sign bit set is too large for its 23 bits
    let packed := if mantissa &&& 0x00800000 = 0 then (exponent, mantissa)
      else (exponent + 1, mantissa >>> 8)
    let compact := (packed.1 <<< 24) % 2 ^ 32 ||| packed.2
    if n < 0 then compact ||| 0x00800000 else compact

/-! ## Packing -/

theorem and_signBit_eq_zero (m : Nat) : m &&& 0x00800000 = 0 ↔ m / 2 ^ 23 % 2 = 0 := by
  have hbit : (0x00800000 : Nat) = 2 ^ 23 := rfl
  rw [hbit, Nat.and_comm, Nat.two_pow_and, Nat.testBit_eq_decide_div_mod_eq]
  rcases Nat.mod_two_eq_zero_or_one (m / 2 ^ 23) with h | h <;> rw [h] <;> decide

theorem compactToBig_pack {e m : Nat} (hm : m < 2 ^ 23) : compactToBig (e * 2 ^ 24 + m) =
      ((if e ≤ 3 then m / 2 ^ (8 * (3 - e)) else m * 2 ^ (8 * (e - 3)) : Nat) : Int) := by
  have hmask : (0x007fffff : Nat) = 2 ^ 23 - 1 := rfl
  have hmantissa : (e * 2 ^ 24 + m) &&& 0x007fffff = m := by
    rw [hmask, Nat.and_two_pow_sub_one_eq_mod]
    omega
  have hexponent : (e * 2 ^ 24 + m) >>> 24 = e := by
    rw [Nat.shiftRight_eq_div_pow]
    omega
  have hsign : (e * 2 ^ 24 + m) &&& 0x00800000 = 0 := by
    rw [and_signBit_eq_zero]
    omega
  simp only [compactToBig, hmantissa, hexponent, hsign, if_true]
  split
  · rw [Nat.shiftRight_eq_div_pow]
  · rw [Nat.shiftLeft_eq]

/-- The bytes of weight `256 ^ (e - 3)` and up, for a number of `e` bytes. -/
def leading (e n : Nat) : Nat :=
  if e ≤ 3 then n * 2 ^ (8 * (3 - e)) else n / 2 ^ (8 * (e - 3))

theorem leading_lt {e b c : Nat} (h : n < 2 ^ b) (hle : b + 24 ≤ 8 * e + c) :
    leading e n < 2 ^ c := by
  rw [leading]
  split
  · calc n * 2 ^ (8 * (3 - e)) < 2 ^ b * 2 ^ (8 * (3 - e)) :=
          Nat.mul_lt_mul_of_pos_right h (Nat.two_pow_pos _)
      _ = 2 ^ (b + 8 * (3 - e)) := (Nat.pow_add ..).symm
      _ ≤ 2 ^ c := Nat.pow_le_pow_right (by decide) (by omega)
  · rw [Nat.div_lt_iff_lt_mul (Nat.two_pow_pos _), ← Nat.pow_add]
    exact h.trans_le (Nat.pow_le_pow_right (by decide) (by omega))

theorem le_leading {e b c : Nat} (h : 2 ^ b ≤ n) (hle : 8 * e + c ≤ b + 24) :
    2 ^ c ≤ leading e n := by
  rw [leading]
  split
  · calc 2 ^ c ≤ 2 ^ (b + 8 * (3 - e)) := Nat.pow_le_pow_right (by decide) (by omega)
      _ = 2 ^ b * 2 ^ (8 * (3 - e)) := Nat.pow_add ..
      _ ≤ n * 2 ^ (8 * (3 - e)) := Nat.mul_le_mul_right _ h
  · rw [Nat.le_div_iff_mul_le (Nat.two_pow_pos _), ← Nat.pow_add]
    exact (Nat.pow_le_pow_right (by decide) (by omega)).trans h

theorem leading_succ (e n : Nat) : leading (e + 1) n = leading e n / 2 ^ 8 := by
  rw [leading, leading]
  rcases Nat.lt_trichotomy e 3 with hlt | rfl | hgt
  · rw [if_pos (by omega), if_pos (by omega), show 8 * (3 - e) = 8 * (3 - (e + 1)) + 8 by omega,
      Nat.pow_add, ← Nat.mul_assoc, Nat.mul_div_cancel _ (Nat.two_pow_pos 8)]
  · rw [if_neg (by decide), if_pos (by decide), Nat.sub_self, Nat.mul_zero, Nat.pow_zero,
      Nat.mul_one n]
  · rw [if_neg (by omega), if_neg (by omega), Nat.div_div_eq_div_mul, ← Nat.pow_add]
    congr 2
    omega

theorem leading_digits_lt (n : Nat) : leading (digits 8 n) n < 2 ^ 23 := by
  have hbits := Nat.div_add_mod (n.log2 + 1) 8
  have hbyte := Nat.mod_lt (n.log2 + 1) (show 8 > 0 by decide)
  exact leading_lt (Nat.lt_log2_self (n := n)) (by rw [digits]; omega)

/-- `BigToCompact` of a positive number: the digits it has with the sign bit free,
and the three leading ones. -/
theorem bigToCompact_eq (hn : n ≠ 0) (hfits : digits 8 n < 256) :
    bigToCompact n = digits 8 n * 2 ^ 24 + leading (digits 8 n) n := by
  have hbits := Nat.div_add_mod (n.log2 + 1) 8
  have hbyte := Nat.mod_lt (n.log2 + 1) (show 8 > 0 by decide)
  have hlen : byteLen n = n.log2 / 8 + 1 := if_neg hn
  have hlog := Nat.div_add_mod n.log2 8
  have hmantissa : (if byteLen n ≤ 3 then n <<< (8 * (3 - byteLen n))
      else ((n : Int) >>> (8 * (byteLen n - 3))).natAbs) = leading (byteLen n) n := by
    rw [leading]
    split
    · rw [Nat.shiftLeft_eq]
    · have hshift : (n : Int) >>> (8 * (byteLen n - 3)) =
          ((n >>> (8 * (byteLen n - 3)) : Nat) : Int) := rfl
      rw [hshift, Int.natAbs_natCast, Nat.shiftRight_eq_div_pow]
  have hraw : leading (byteLen n) n < 2 ^ 24 :=
    leading_lt (Nat.lt_log2_self (n := n)) (by omega)
  -- the sign bit is set when the number fills its bytes
  have hpacked : (if leading (byteLen n) n &&& 0x00800000 = 0 then
      (byteLen n, leading (byteLen n) n) else
        (byteLen n + 1, leading (byteLen n) n >>> 8)) =
      (digits 8 n, leading (digits 8 n) n) := by
    by_cases hfull : (n.log2 + 1) % 8 = 0
    · have hdigits : digits 8 n = byteLen n + 1 := by
        rw [digits]
        omega
      have hset : ¬ leading (byteLen n) n &&& 0x00800000 = 0 := by
        have hge : 2 ^ 23 ≤ leading (byteLen n) n :=
          le_leading (Nat.log2_self_le hn) (by omega)
        rw [and_signBit_eq_zero]
        omega
      rw [if_neg hset, hdigits, leading_succ, Nat.shiftRight_eq_div_pow]
    · have hdigits : digits 8 n = byteLen n := by
        rw [digits]
        omega
      have hclear : leading (byteLen n) n &&& 0x00800000 = 0 := by
        have hlt : leading (byteLen n) n < 2 ^ 23 :=
          leading_lt (Nat.lt_log2_self (n := n)) (by omega)
        rw [and_signBit_eq_zero]
        omega
      rw [if_pos hclear, hdigits]
  have hor : (digits 8 n <<< 24) % 2 ^ 32 ||| leading (digits 8 n) n =
      digits 8 n * 2 ^ 24 + leading (digits 8 n) n := by
    have hlow : leading (digits 8 n) n < 2 ^ 24 := (leading_digits_lt n).trans (by decide)
    rw [Nat.mod_eq_of_lt (by rw [Nat.shiftLeft_eq]; omega), ← Nat.shiftLeft_add_eq_or_of_lt hlow,
      Nat.shiftLeft_eq]
  simp only [bigToCompact, Int.natCast_eq_zero, hn, if_false, Int.natAbs_natCast, hmantissa,
    hpacked, hor]
  rw [if_neg (by omega)]

/-! ## Decoding what was encoded -/

theorem digits_lt (h : n < 2 ^ 256) : digits 8 n < 256 := by
  have hlog : n.log2 ≤ 255 := by
    rcases Nat.eq_zero_or_pos n with rfl | hpos
    · decide
    · exact Nat.le_of_lt_succ ((Nat.log2_lt hpos.ne').mpr h)
  rw [digits]
  omega

theorem compactToBig_bigToCompact (hn : n ≠ 0) (h : n < 2 ^ 256) :
    compactToBig (bigToCompact n) = truncate 8 3 n := by
  rw [bigToCompact_eq hn (digits_lt h), compactToBig_pack (leading_digits_lt n), leading]
  congr 1
  split
  · rename_i hfew
    rw [Nat.mul_div_cancel _ (Nat.two_pow_pos _), truncate_of_few hfew]
  · rfl

theorem truncate_compactToBig {bits : Nat} (hpos : 0 < compactToBig bits) :
    truncate 8 3 (compactToBig bits).toNat = (compactToBig bits).toNat := by
  have hdigits : ∀ {m : Nat}, m < 2 ^ 23 → digits 8 m ≤ 3 := by
    intro m hm
    rcases Nat.eq_zero_or_pos m with rfl | hmpos
    · decide
    · have := (Nat.log2_lt hmpos.ne').mpr hm
      rw [digits]
      omega
  have hmask : (0x007fffff : Nat) = 2 ^ 23 - 1 := rfl
  have hmantissa : bits &&& 0x007fffff < 2 ^ 23 := by
    rw [hmask, Nat.and_two_pow_sub_one_eq_mod]
    exact Nat.mod_lt _ (Nat.two_pow_pos 23)
  simp only [compactToBig] at hpos ⊢
  split at hpos
  · rename_i hsign
    rw [if_pos hsign, Int.toNat_natCast]
    split
    · apply truncate_of_few
      apply hdigits
      rw [Nat.shiftRight_eq_div_pow]
      exact (Nat.div_le_self _ _).trans_lt hmantissa
    · rename_i hexp
      rw [Nat.shiftLeft_eq]
      rw [if_neg hexp, Nat.shiftLeft_eq] at hpos
      refine truncate_mul_pow (by decide) (hdigits hmantissa) (fun hzero => ?_) _
      rw [hzero, Nat.zero_mul] at hpos
      exact absurd hpos (by decide)
  · omega

theorem compact_mono {m : Nat} (hm : m ≠ 0) (hle : m ≤ n) (hn : n < 2 ^ 256) :
    compactToBig (bigToCompact m) ≤ compactToBig (bigToCompact n) := by
  rw [compactToBig_bigToCompact hm (hle.trans_lt hn), compactToBig_bigToCompact (by omega) hn]
  exact Int.ofNat_le.mpr (truncate_mono (by decide) (by decide) hm hle)

theorem bigToCompact_truncate (hn : n ≠ 0) (h : n < 2 ^ 256) :
    bigToCompact (truncate 8 3 n) = bigToCompact n := by
  have hdigits : digits 8 (truncate 8 3 n) = digits 8 n :=
    digits_congr (log2_truncate (by decide) (by decide) hn)
  have hne : truncate 8 3 n ≠ 0 := truncate_ne_zero (by decide) (by decide) hn
  rw [bigToCompact_eq hne (digits_lt ((truncate_le 8 3 n).trans_lt h)),
    bigToCompact_eq hn (digits_lt h), hdigits]
  congr 1
  by_cases hfew : digits 8 n ≤ 3
  · rw [truncate_of_few hfew]
  · rw [leading, leading, if_neg hfew, if_neg hfew, truncate, unit,
      Nat.mul_div_cancel _ (Nat.two_pow_pos _)]

theorem calcWork_anti {bits bits' : Nat} (hpos : 0 < compactToBig bits)
    (hle : compactToBig bits ≤ compactToBig bits') : calcWork bits' ≤ calcWork bits := by
  rw [calcWork, calcWork, if_neg (by omega), if_neg (by omega)]
  exact Nat.div_le_div_left (by omega) (Nat.succ_pos _)

/-- The compact form of a 256-bit target is a lower bound that loses less than one
part in `2 ^ 15`, is its own compact form and keeps the order of targets. -/
theorem compact_form_faithful (n : Int) (hpos : 0 < n) (hn : n < 2 ^ 256) :
    (0 < compactToBig (bigToCompact n) ∧ compactToBig (bigToCompact n) ≤ n ∧
      (n - compactToBig (bigToCompact n)) * 2 ^ 15 < n ∧
      (n < 2 ^ 23 → compactToBig (bigToCompact n) = n)) ∧
    bigToCompact (compactToBig (bigToCompact n)) = bigToCompact n ∧
    ∀ m : Int, 0 < m → m ≤ n → compactToBig (bigToCompact m) ≤ compactToBig (bigToCompact n) ∧
      calcWork (bigToCompact n) ≤ calcWork (bigToCompact m) := by
  lift n to Nat using hpos.le
  have hne : n ≠ 0 := by omega
  have hlt : n < 2 ^ 256 := by exact_mod_cast hn
  have hdecode := compactToBig_bigToCompact hne hlt
  have hle := truncate_le 8 3 n
  refine ⟨⟨?_, ?_, ?_, fun hsmall => ?_⟩, ?_, fun m hm hmn => ?_⟩
  · rw [hdecode]
    exact Int.natCast_pos.mpr (Nat.pos_of_ne_zero (truncate_ne_zero (by decide) (by decide) hne))
  · rw [hdecode]
    exact_mod_cast hle
  · rw [hdecode]
    have hlost : (n - truncate 8 3 n) * 2 ^ 15 < n := lost_lt (by decide) (by decide) hne
    omega
  · have hsmall' : n < 2 ^ 23 := by exact_mod_cast hsmall
    have hlog := (Nat.log2_lt hne).mpr hsmall'
    rw [hdecode, truncate_of_few (by rw [digits]; omega)]
  · rw [hdecode]
    exact bigToCompact_truncate hne hlt
  · lift m to Nat using hm.le
    have hmne : m ≠ 0 := by omega
    have hmono := compact_mono hmne (by exact_mod_cast hmn) hlt
    refine ⟨hmono, calcWork_anti ?_ hmono⟩
    rw [compactToBig_bigToCompact hmne (lt_of_le_of_lt (by exact_mod_cast hmn) hlt)]
    exact Int.natCast_pos.mpr (Nat.pos_of_ne_zero (truncate_ne_zero (by decide) (by decide) hmne))

/-- A target whose leading byte has the top bit set. -/
theorem compact_form_of_0x8000ff : compactToBig (bigToCompact 0x8000ff) = 0x800000 ∧
      bigToCompact (compactToBig (bigToCompact 0x8000ff)) = bigToCompact 0x8000ff :=
  ⟨by decide, (compact_form_faithful 0x8000ff (by decide) (by decide)).2.1⟩

end FalconDraw.Chain
