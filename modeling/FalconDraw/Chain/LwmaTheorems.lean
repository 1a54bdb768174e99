/-
FalconDraw.Chain.LwmaTheorems — what LWMA-3 makes of a window.

The loop adds up the clamped solve times, the newest with the largest weight, and
the targets (`lwma3Sums_eq`).
-/
import FalconDraw.Chain.Retarget
import Mathlib.Algebra.BigOperators.Intervals
import Mathlib.Algebra.BigOperators.Ring.Finset
import Mathlib.Algebra.Order.BigOperators.Group.Finset
import Mathlib.Tactic.Linarith

namespace FalconDraw.Chain

open Lib Lib.Truncation Finset

variable {p : RetargetParams} {n : Nat} {chain : List HeaderInfo}

/-! ## The sums -/

def timeAt (chain : List HeaderInfo) (d : Nat) : Int := (chain[d]?.map HeaderInfo.timestamp).getD 0

def targetAt (chain : List HeaderInfo) (d : Nat) : Int :=
  (chain[d]?.map fun node => compactToBig node.bits).getD 0

def solvetimeAt (p : RetargetParams) (chain : List HeaderInfo) (d : Nat) : Int :=
  clampSolvetime p (timeAt chain d - timeAt chain (d + 1))

def weightedSum (p : RetargetParams) (n : Nat) (chain : List HeaderInfo) : Int :=
  ∑ d ∈ range n, ((n : Int) - d) * solvetimeAt p chain d

def targetSum (n : Nat) (chain : List HeaderInfo) : Int := ∑ d ∈ range n, targetAt chain d

def windowSums (p : RetargetParams) (n : Nat) (chain : List HeaderInfo) : Lwma3Sums :=
  ⟨timeAt chain 0, weightedSum p n chain, targetSum n chain⟩

theorem clampSolvetime_range (p : RetargetParams) (s : Int) :
    -(maxSolvetime p : Int) ≤ clampSolvetime p s ∧ clampSolvetime p s ≤ maxSolvetime p := by
  grind [clampSolvetime]

theorem clampSolvetime_mono (p : RetargetParams) {s s' : Int} (h : s ≤ s') :
    clampSolvetime p s ≤ clampSolvetime p s' := by
  unfold clampSolvetime
  split <;> split <;> (try split) <;> omega

theorem maxSolvetime_eq (p : RetargetParams) :
    (maxSolvetime p : Int) = 6 * p.targetTimePerBlock := by
  simp [maxSolvetime, lwma3SolveTimeClampMultiplier]

theorem maxSolvetime_lt (p : RetargetParams) : maxSolvetime p < 2 ^ 31 := by
  have := p.targetTimePerBlock_lt
  unfold maxSolvetime lwma3SolveTimeClampMultiplier
  omega

theorem weighted_bmod (p : RetargetParams) (s : Int) {j : Int} (hj : 0 ≤ j) (hj' : j < 2 ^ 31) :
    (clampSolvetime p s * j).bmod (2 ^ 64) = clampSolvetime p s * j := by
  obtain ⟨hlow, hhigh⟩ := clampSolvetime_range p s
  have hmax := maxSolvetime_lt p
  have hup : clampSolvetime p s * j ≤ 2 ^ 31 * j :=
    Int.mul_le_mul_of_nonneg_right (by omega) hj
  have hdown : -2 ^ 31 * j ≤ clampSolvetime p s * j :=
    Int.mul_le_mul_of_nonneg_right (by omega) hj
  exact Int.bmod_eq_of_le (by omega) (by omega)

theorem lwma3Loop_eq (hn : n < 2 ^ 31) : ∀ {d : Nat} {s : Lwma3Sums}, d ≤ n → d < chain.length →
    s.prevTimestamp = timeAt chain d → lwma3Loop p n chain d s = .ok
      ⟨timeAt chain 0,
        s.weightedSolvetimeSum + ∑ i ∈ range d, ((n : Int) - i) * solvetimeAt p chain i,
        s.sumTarget + ∑ i ∈ range d, targetAt chain i⟩ := by
  intro d
  induction d with
  | zero =>
    intro s _ _ hprev
    rw [lwma3Loop, sum_range_zero, sum_range_zero, ← hprev]
    simp
  | succ d ih =>
    intro s hdn hlen hprev
    have hget : chain[d]? = some chain[d] := List.getElem?_eq_getElem (by omega)
    have htime : timeAt chain d = chain[d].timestamp := by simp [timeAt, hget]
    have htarget : targetAt chain d = compactToBig chain[d].bits := by simp [targetAt, hget]
    rw [lwma3Loop, hget]
    dsimp only
    rw [ih (by omega) (by omega) htime.symm, weighted_bmod p _ (by omega) (by omega),
      sum_range_succ, sum_range_succ, htarget, solvetimeAt, htime, ← hprev]
    congr 2
    · ring
    · ring

theorem lwma3Sums_eq (hn : n < 2 ^ 31) (hlen : n < chain.length) :
    lwma3Sums p n chain = .ok (windowSums p n chain) := by
  grind [timeAt, lwma3Sums, lwma3Loop_eq, windowSums, weightedSum, targetSum]

/-! ## The formula -/

theorem lwma3Normalizer_eq (hn : (n : Int) * (n + 1) / 2 * (6 * p.targetTimePerBlock) < 2 ^ 63) :
    n < 2 ^ 31 - 1 ∧ lwma3Normalizer p n = (n : Int) * (n + 1) / 2 * p.targetTimePerBlock := by
  have hT := p.targetTimePerBlock_pos
  have hnonneg : (0 : Int) ≤ n * (n + 1) := Int.mul_nonneg (by omega) (by omega)
  obtain ⟨G, hG⟩ : ∃ G, (n : Int) * (n + 1) / 2 = G := ⟨_, rfl⟩
  rw [hG] at hn ⊢
  have hpos : 0 ≤ G := by
    rw [← hG]
    exact Int.ediv_nonneg hnonneg (by decide)
  have hGT : G ≤ G * p.targetTimePerBlock := le_mul_of_one_le_right hpos (by omega)
  have hsix : G * (6 * (p.targetTimePerBlock : Int)) = 6 * (G * p.targetTimePerBlock) := by ring
  have hsmall : n < 2 ^ 31 - 1 := by
    by_contra hge
    have hsquare : (2 ^ 31 - 1 : Int) * 2 ^ 31 ≤ n * (n + 1) :=
      Int.mul_le_mul (by omega) (by omega) (by decide) (by omega)
    omega
  have hsucc : ((n : Int) + 1).bmod (2 ^ 32) = n + 1 := Int.bmod_eq_of_le (by omega) (by omega)
  have hfits : (G * p.targetTimePerBlock).bmod (2 ^ 64) = G * p.targetTimePerBlock :=
    Int.bmod_eq_of_le (by omega) (by omega)
  refine ⟨hsmall, ?_⟩
  unfold lwma3Normalizer
  rw [hsucc, Int.tdiv_eq_ediv_of_nonneg hnonneg, hG, hfits]

theorem lwma3_full (hretarget : p.poWNoRetargeting = false) (hpos : 0 < n) (hn : n < 2 ^ 31)
    (hlen : n < chain.length) (hk : lwma3Normalizer p n ≠ 0) :
    calcNextRequiredDifficultyLWMA3 p n chain = .ok (bigToCompact (limitTarget p
      (lwma3Quotient p n (windowSums p n chain)))) := by
  cases chain with
  | nil => simp at hlen
  | cons lastNode ancestors =>
    have hfull : ¬ ancestors.length < n := by
      rw [List.length_cons] at hlen
      omega
    have hno : ¬ (n = 0 ∨ lwma3Normalizer p n = 0) := by
      omega
    rw [calcNextRequiredDifficultyLWMA3]
    simp only [hretarget, Bool.false_eq_true, if_false, if_neg hfull, lwma3Sums_eq hn hlen,
      rejectIf, if_neg hno]
    rfl

theorem lwma3_full_ok (hretarget : p.poWNoRetargeting = false) (hn : n < 2 ^ 31)
    (hlen : n < chain.length) {bits : Nat}
    (h : calcNextRequiredDifficultyLWMA3 p n chain = .ok bits) :
    lwma3Normalizer p n ≠ 0 ∧ bits = bigToCompact (limitTarget p
      (lwma3Quotient p n (windowSums p n chain))) := by
  by_cases hno : n = 0 ∨ lwma3Normalizer p n = 0
  · cases chain with
    | nil => simp at hlen
    | cons lastNode ancestors =>
      have hfull : ¬ ancestors.length < n := by
        rw [List.length_cons] at hlen
        omega
      simp only [calcNextRequiredDifficultyLWMA3, hretarget, Bool.false_eq_true, if_false,
        if_neg hfull, lwma3Sums_eq hn hlen, rejectIf, if_pos hno] at h
      cases h
  · grind [lwma3_full]

theorem lwma3_short (hretarget : p.poWNoRetargeting = false) {lastNode : HeaderInfo}
    {ancestors : List HeaderInfo} (h : ancestors.length < n) :
    calcNextRequiredDifficultyLWMA3 p n (lastNode :: ancestors) = .ok lastNode.bits := by
  simp only [calcNextRequiredDifficultyLWMA3, hretarget, Bool.false_eq_true, if_false, if_pos h]

/-! ## Usable targets -/

/-- The bits decode to a positive target within the limit. -/
def Usable (p : RetargetParams) (bits : Nat) : Prop :=
  0 < compactToBig bits ∧ compactToBig bits ≤ p.powLimit

instance (p : RetargetParams) (bits : Nat) : Decidable (Usable p bits) :=
  inferInstanceAs (Decidable (_ ∧ _))

theorem powLimit_pos (p : RetargetParams) : 0 < p.powLimit := by
  have := p.powLimitBits_pos
  have := p.powLimitBits_le
  omega

theorem compact_of_le {t : Int} (hpos : 0 < t) (hle : t ≤ p.powLimit) :
    compactToBig (bigToCompact t) = truncate 8 3 t.toNat := by
  lift t to Nat using hpos.le
  have := p.powLimit_lt
  rw [compactToBig_bigToCompact (by omega) (by omega), Int.toNat_natCast]

theorem usable_bigToCompact {t : Int} (hpos : 0 < t) (hle : t ≤ p.powLimit) :
    Usable p (bigToCompact t) := by
  have hround := truncate_le 8 3 t.toNat
  have hne := truncate_ne_zero (w := 8) (p := 3) (n := t.toNat) (by decide) (by decide) (by omega)
  rw [Usable, compact_of_le hpos hle]
  omega

theorem limitTarget_range (p : RetargetParams) (t : Int) :
    0 < limitTarget p t ∧ limitTarget p t ≤ p.powLimit := by
  have := powLimit_pos p
  unfold limitTarget
  split <;> omega

theorem limitTarget_of_pos {t : Int} (h : 0 < t) : limitTarget p t = min (p.powLimit : Int) t := by
  unfold limitTarget
  split <;> omega

theorem usable_lwma3 (hretarget : p.poWNoRetargeting = false) (hpos : 0 < n) (hn : n < 2 ^ 31)
    (hlen : n < chain.length) (hk : lwma3Normalizer p n ≠ 0) :
    ∃ bits, calcNextRequiredDifficultyLWMA3 p n chain = .ok bits ∧ Usable p bits := by
  obtain ⟨hlow, hhigh⟩ := limitTarget_range p
    (lwma3Quotient p n (windowSums p n chain))
  exact ⟨_, lwma3_full hretarget hpos hn hlen hk, usable_bigToCompact hlow hhigh⟩

/-! ## A steady hash rate -/

/-- The last `n + 1` blocks all have these bits and are `s` seconds apart. -/
structure Steady (n bits : Nat) (s : Int) (chain : List HeaderInfo) : Prop where
  bits_eq : ∀ d ≤ n, chain[d]?.map HeaderInfo.bits = some bits
  apart : ∀ d < n, timeAt chain d - timeAt chain (d + 1) = s

theorem sum_weights (n : Nat) : ∑ d ∈ range n, ((n : Int) - d) = (n : Int) * (n + 1) / 2 := by
  have hdouble : (∑ d ∈ range n, ((n : Int) - d)) * 2 = n * (n + 1) := by
    induction n with
    | zero => rfl
    | succ n ih =>
      have hshift : ∑ d ∈ range n, (((n + 1 : Nat) : Int) - ((d + 1 : Nat) : Int)) =
          ∑ d ∈ range n, ((n : Int) - d) :=
        sum_congr rfl fun d _ => by push_cast; ring
      rw [sum_range_succ', hshift]
      push_cast
      linarith
  omega

namespace Steady

variable {bits : Nat} {s : Int}

theorem length_lt (h : Steady n bits s chain) : n < chain.length := by
  by_contra hge
  have hbits := h.bits_eq n (Nat.le_refl n)
  rw [List.getElem?_eq_none (by omega)] at hbits
  cases hbits

theorem targetSum_eq (h : Steady n bits s chain) : targetSum n chain = n * compactToBig bits := by
  have hall : ∀ d ∈ range n, targetAt chain d = compactToBig bits := by
    intro d hd
    obtain ⟨node, hget, hnode⟩ :=
      Option.map_eq_some_iff.mp (h.bits_eq d (Nat.le_of_lt (mem_range.mp hd)))
    rw [targetAt, hget, ← hnode]
    rfl
  rw [targetSum, sum_congr rfl hall, sum_const, card_range, nsmul_eq_mul]

theorem weightedSum_eq (h : Steady n bits s chain) (hs : 0 < s) (hmax : s ≤ maxSolvetime p) :
    weightedSum p n chain = (n : Int) * (n + 1) / 2 * s := by
  have hall : ∀ d ∈ range n, ((n : Int) - d) * solvetimeAt p chain d = ((n : Int) - d) * s := by
    intro d hd
    rw [solvetimeAt, h.apart d (mem_range.mp hd), clampSolvetime, if_neg (by omega),
      if_neg (by omega)]
  rw [weightedSum, sum_congr rfl hall, ← sum_mul, sum_weights]

end Steady

/-- Blocks that are `s` seconds apart change the target by the factor `s` over the
target time, with nothing lost to rounding but the last division. -/
theorem lwma3_steady (hretarget : p.poWNoRetargeting = false) (hpos : 0 < n)
    (hn : (n : Int) * (n + 1) / 2 * (6 * p.targetTimePerBlock) < 2 ^ 63) {bits : Nat}
    {s : Int} (hs : 0 < s) (hmax : s ≤ 6 * p.targetTimePerBlock)
    (hlow : p.targetTimePerBlock ≤ compactToBig bits * s) (h : Steady n bits s chain) :
    calcNextRequiredDifficultyLWMA3 p n chain = .ok (bigToCompact
      (min (p.powLimit : Int) (compactToBig bits * s / p.targetTimePerBlock))) := by
  obtain ⟨hsmall, hk⟩ := lwma3Normalizer_eq hn
  have hT := p.targetTimePerBlock_pos
  have hG : 0 < (n : Int) * (n + 1) / 2 := by
    have : (1 : Int) * 2 ≤ n * (n + 1) := Int.mul_le_mul (by omega) (by omega) (by omega) (by omega)
    omega
  have hk₀ : lwma3Normalizer p n ≠ 0 := by
    rw [hk]
    exact (Int.mul_pos hG (by omega)).ne'
  have hsum := h.weightedSum_eq (p := p) hs (by rw [maxSolvetime_eq]; exact hmax)
  have hsumPos : 0 < (n : Int) * (n + 1) / 2 * s := Int.mul_pos hG hs
  have hquotient : lwma3Quotient p n (windowSums p n chain) =
      compactToBig bits * s / p.targetTimePerBlock := by
    unfold lwma3Quotient windowSums
    dsimp only
    rw [hsum, h.targetSum_eq, hk, if_neg (by omega), Int.mul_ediv_cancel_left _ (by omega),
      show compactToBig bits * ((n : Int) * (n + 1) / 2 * s) =
        (n : Int) * (n + 1) / 2 * (compactToBig bits * s) by ring,
      Int.mul_ediv_mul_of_pos _ _ hG]
  have hone : 1 ≤ compactToBig bits * s / p.targetTimePerBlock :=
    Int.le_ediv_of_mul_le (by omega) (by omega)
  rw [lwma3_full hretarget hpos (by omega) h.length_lt hk₀, hquotient, limitTarget_of_pos hone]

def slowChain : List HeaderInfo :=
  [⟨3, 1, 2400, 0x1d00ffff⟩, ⟨2, 1, 1200, 0x1d00ffff⟩, ⟨1, 1, 0, 0x1d00ffff⟩]

/-- Blocks twice as slow as they should be double the target. -/
theorem slow_blocks_double :
    calcNextRequiredDifficultyLWMA3 .mainNet 2 slowChain = .ok (bigToCompact
      (min (RetargetParams.mainNet.powLimit : Int)
        (compactToBig 0x1d00ffff * 1200 / RetargetParams.mainNet.targetTimePerBlock))) :=
  lwma3_steady rfl (by decide) (by decide) (by decide) (by decide) (by decide)
    ⟨by decide, by decide⟩

/-! ## Slower blocks -/

/-- Two chains with the same bits, the second with solve times that are not shorter. -/
structure Slower (n : Nat) (chain chain' : List HeaderInfo) : Prop where
  same_bits : chain.map HeaderInfo.bits = chain'.map HeaderInfo.bits
  slower : ∀ d < n, timeAt chain d - timeAt chain (d + 1) ≤ timeAt chain' d - timeAt chain' (d + 1)

/-- The quotient is not cut to zero in the first window alone; when it is, the second
must be at the limit too. -/
def NoReset (p : RetargetParams) (n : Nat) (chain chain' : List HeaderInfo) : Prop :=
  p.poWNoRetargeting = false → ∀ s s', lwma3Sums p n chain = .ok s → lwma3Sums p n chain' = .ok s' →
    lwma3Quotient p n s ≤ 0 →
      lwma3Quotient p n s' ≤ 0 ∨ compactToBig (bigToCompact p.powLimit) ≤ lwma3Quotient p n s'

theorem targetAt_congr {chain' : List HeaderInfo}
    (h : chain.map HeaderInfo.bits = chain'.map HeaderInfo.bits) (d : Nat) :
    targetAt chain d = targetAt chain' d := by
  have hget := congrArg (fun l : List Nat => (l[d]?.map compactToBig).getD 0) h
  simp only [List.getElem?_map, Option.map_map] at hget
  exact hget

theorem targetSum_congr {chain' : List HeaderInfo}
    (h : chain.map HeaderInfo.bits = chain'.map HeaderInfo.bits) (n : Nat) :
    targetSum n chain = targetSum n chain' :=
  sum_congr rfl fun d _ => targetAt_congr h d

theorem targetSum_nonneg (hpos : ∀ node ∈ chain, Usable p node.bits) (n : Nat) :
    0 ≤ targetSum n chain := by
  refine sum_nonneg fun d _ => ?_
  rw [targetAt]
  cases hget : chain[d]? with
  | none => exact Int.le_refl 0
  | some node => exact (hpos node (List.mem_of_getElem? hget)).1.le

theorem Slower.weightedSum_le {chain' : List HeaderInfo} (h : Slower n chain chain') :
    weightedSum p n chain ≤ weightedSum p n chain' := by
  refine sum_le_sum fun d hd => ?_
  have hd := mem_range.mp hd
  exact Int.mul_le_mul_of_nonneg_left (clampSolvetime_mono p (h.slower d hd)) (by omega)

def finalTarget (p : RetargetParams) (q : Int) : Nat := truncate 8 3 (limitTarget p q).toNat

theorem compact_limitTarget (p : RetargetParams) (q : Int) :
    compactToBig (bigToCompact (limitTarget p q)) = finalTarget p q :=
  compact_of_le (limitTarget_range p q).1 (limitTarget_range p q).2

theorem finalTarget_mono {q q' : Int} (hpos : 0 < q) (hle : q ≤ q') :
    finalTarget p q ≤ finalTarget p q' := by
  have := powLimit_pos p
  rw [finalTarget, finalTarget, limitTarget_of_pos hpos, limitTarget_of_pos (by omega)]
  exact truncate_mono (by decide) (by decide) (by omega) (by omega)

theorem finalTarget_le_iff {q q' : Int} (hq : q ≤ 0) : finalTarget p q ≤ finalTarget p q' ↔
      q' ≤ 0 ∨ compactToBig (bigToCompact p.powLimit) ≤ q' := by
  have hlimit := powLimit_pos p
  have hfirst : limitTarget p q = p.powLimit := if_pos (.inl hq)
  have hcompact : compactToBig (bigToCompact p.powLimit) = truncate 8 3 p.powLimit :=
    compact_of_le (p := p) (by omega) (Int.le_refl _)
  have hle := truncate_le 8 3 p.powLimit
  rw [finalTarget, finalTarget, hfirst, hcompact, Int.toNat_natCast]
  by_cases hq' : q' ≤ 0
  · rw [show limitTarget p q' = p.powLimit from if_pos (.inl hq'), Int.toNat_natCast]
    simp [hq']
  · rw [limitTarget_of_pos (by omega)]
    have hround := truncate_le 8 3 (min (p.powLimit : Int) q').toNat
    constructor
    · omega
    · rintro (h | h)
      · exact absurd h hq'
      · -- the compact form of the limit is its own compact form
        rw [← truncate_truncate (n := p.powLimit) (by decide) (by decide) (by omega)]
        have hne := truncate_ne_zero (w := 8) (p := 3) (n := p.powLimit) (by decide) (by decide)
          (by omega)
        exact truncate_mono (by decide) (by decide) hne (by omega)

theorem lwma3Quotient_nonpos {s : Lwma3Sums} (hsum : 0 ≤ s.sumTarget)
    (hk : lwma3Normalizer p n < 0) : lwma3Quotient p n s ≤ 0 := by
  unfold lwma3Quotient
  refine Int.ediv_nonpos_of_nonneg_of_nonpos ?_ hk.le
  refine Int.mul_nonneg (Int.ediv_nonneg hsum (by omega)) ?_
  split <;> omega

theorem lwma3Quotient_mono {s s' : Lwma3Sums} (htarget : s.sumTarget = s'.sumTarget)
    (hsum : 0 ≤ s.sumTarget) (hle : s.weightedSolvetimeSum ≤ s'.weightedSolvetimeSum)
    (hk : 0 < lwma3Normalizer p n) : lwma3Quotient p n s ≤ lwma3Quotient p n s' := by
  unfold lwma3Quotient
  dsimp only
  rw [← htarget]
  refine Int.ediv_le_ediv hk (Int.mul_le_mul_of_nonneg_left ?_ (Int.ediv_nonneg hsum (by omega)))
  split <;> split <;> omega

/-- Slower blocks never make the next one harder, except where the quotient of the
first window is cut to zero and so counts as the limit. -/
theorem slower_never_harder_iff (hn : n < 2 ^ 31) {chain' : List HeaderInfo}
    (hchain : ∀ node ∈ chain, Usable p node.bits) (h : Slower n chain chain') {bits bits' : Nat}
    (hbits : calcNextRequiredDifficultyLWMA3 p n chain = .ok bits)
    (hbits' : calcNextRequiredDifficultyLWMA3 p n chain' = .ok bits') :
    compactToBig bits ≤ compactToBig bits' ↔ NoReset p n chain chain' := by
  have hlength : chain.length = chain'.length := by
    have := congrArg List.length h.same_bits
    rwa [List.length_map, List.length_map] at this
  by_cases hretarget : p.poWNoRetargeting = true
  · -- both are the fixed bits of the network
    simp only [calcNextRequiredDifficultyLWMA3, if_pos hretarget] at hbits hbits'
    cases hbits
    cases hbits'
    simp [NoReset, hretarget]
  have hretarget : p.poWNoRetargeting = false := by simpa using hretarget
  by_cases hfull : n < chain.length
  · obtain ⟨hk, rfl⟩ := lwma3_full_ok hretarget hn hfull hbits
    obtain ⟨-, rfl⟩ := lwma3_full_ok hretarget hn (hlength ▸ hfull) hbits'
    have hsum := targetSum_nonneg hchain n
    have hsum' : 0 ≤ targetSum n chain' := targetSum_congr h.same_bits n ▸ hsum
    have hreset : NoReset p n chain chain' ↔ (lwma3Quotient p n (windowSums p n chain) ≤ 0 →
          lwma3Quotient p n (windowSums p n chain') ≤ 0 ∨
            compactToBig (bigToCompact p.powLimit) ≤ lwma3Quotient p n
              (windowSums p n chain')) := by
      grind [NoReset, lwma3Sums_eq]
    rw [hreset, compact_limitTarget, compact_limitTarget, Int.ofNat_le]
    rcases Int.lt_or_le 0
      (lwma3Quotient p n (windowSums p n chain)) with hq | hq
    · -- a positive quotient grows with the sum
      have hkpos : 0 < lwma3Normalizer p n := by
        by_contra hneg
        have hlow : lwma3Normalizer p n < 0 := by omega
        exact absurd (lwma3Quotient_nonpos (s := windowSums p n chain) hsum hlow) (by omega)
      have hmono : lwma3Quotient p n (windowSums p n chain) ≤
          lwma3Quotient p n (windowSums p n chain') :=
        lwma3Quotient_mono (targetSum_congr h.same_bits n) hsum h.weightedSum_le hkpos
      exact iff_of_true (finalTarget_mono hq hmono) fun hno => absurd hno (by omega)
    · rw [finalTarget_le_iff hq]
      exact ⟨fun hor _ => hor, fun himp => himp hq⟩
  · -- without a full window both repeat the same bits
    have hsame : bits = bits' := by
      cases chain with
      | nil => grind
      | cons node ancestors =>
        cases chain' with
        | nil => simp at hlength
        | cons node' ancestors' =>
          simp only [List.length_cons] at hfull hlength
          rw [lwma3_short hretarget (by omega)] at hbits hbits'
          have hhead := (List.cons.inj h.same_bits).1
          rw [← Except.ok.inj hbits, ← Except.ok.inj hbits']
          exact hhead
    refine iff_of_true (hsame ▸ Int.le_refl _) fun _ s s' hs => ?_
    rw [lwma3Sums, List.getElem?_eq_none (by omega)] at hs
    cases hs

/-- A window of one block with the smallest target, found a second after its parent
or in time. -/
def tinyChain (solvetime : Int) : List HeaderInfo :=
  [⟨2, 1, solvetime, 0x01010000⟩, ⟨1, 1, 0, 0x01010000⟩]

/-- The quick window gets the limit, the one on time keeps the target 1. -/
theorem slow_block_harder :
    (∀ node ∈ tinyChain 1, Usable .mainNet node.bits) ∧ Slower 1 (tinyChain 1) (tinyChain 600) ∧
      ∃ bits bits', calcNextRequiredDifficultyLWMA3 .mainNet 1 (tinyChain 1) = .ok bits ∧
        calcNextRequiredDifficultyLWMA3 .mainNet 1 (tinyChain 600) = .ok bits' ∧
        compactToBig bits' < compactToBig bits :=
  ⟨by decide, ⟨rfl, by decide⟩, 0x1f0fffff, 0x01010000, by decide +kernel, by decide +kernel,
    by decide⟩

def timelyChain : List HeaderInfo :=
  [⟨3, 1, 1200, 0x1d00ffff⟩, ⟨2, 1, 600, 0x1d00ffff⟩, ⟨1, 1, 0, 0x1d00ffff⟩]

/-- The first quotient is positive, so the slower window is not harder. -/
theorem slow_block_not_harder : compactToBig 0x1d00ffff ≤ compactToBig 0x1d01fffe := by
  have hsums : lwma3Sums .mainNet 2 timelyChain =
      .ok ⟨1200, 1800, 2 * compactToBig 0x1d00ffff⟩ := by decide +kernel
  have hiff : compactToBig 0x1d00ffff ≤ compactToBig 0x1d01fffe ↔
      NoReset .mainNet 2 timelyChain slowChain :=
    slower_never_harder_iff (by decide) (by decide) ⟨by decide, by decide⟩ (by decide +kernel)
      (by decide +kernel)
  refine hiff.mpr fun _ s s' hs _ hq => absurd hq ?_
  rw [hsums] at hs
  cases hs
  decide +kernel

/-! ## One wrong time -/

/-- Two chains with the same bits that differ in the time of the block at this distance. -/
structure OneLie (i : Nat) (chain chain' : List HeaderInfo) : Prop where
  same_bits  : chain.map HeaderInfo.bits = chain'.map HeaderInfo.bits
  same_times : ∀ d, d ≠ i → timeAt chain d = timeAt chain' d

/-- The time at this distance is at least the longest solve time above both its
neighbours, where the last block has only one. -/
def FarAfter (p : RetargetParams) (i : Nat) (chain : List HeaderInfo) : Prop :=
  timeAt chain (i + 1) + 6 * p.targetTimePerBlock ≤ timeAt chain i ∧
    ∀ d, d + 1 = i → timeAt chain d + 6 * p.targetTimePerBlock ≤ timeAt chain i

/-- It is at least that much below them. -/
def FarBefore (p : RetargetParams) (i : Nat) (chain : List HeaderInfo) : Prop :=
  timeAt chain i + 6 * p.targetTimePerBlock ≤ timeAt chain (i + 1) ∧
    ∀ d, d + 1 = i → timeAt chain i + 6 * p.targetTimePerBlock ≤ timeAt chain d

theorem clampSolvetime_high {s : Int} (h : 6 * (p.targetTimePerBlock : Int) ≤ s) :
    clampSolvetime p s = 6 * p.targetTimePerBlock := by
  have hmax := maxSolvetime_eq p
  unfold clampSolvetime
  split
  · exact hmax
  · split <;> omega

theorem clampSolvetime_low {s : Int} (h : s ≤ -(6 * (p.targetTimePerBlock : Int))) :
    clampSolvetime p s = -(6 * p.targetTimePerBlock) := by
  have hmax := maxSolvetime_eq p
  unfold clampSolvetime
  split
  · omega
  · split <;> omega

theorem solvetimeAt_far {i : Nat} (h : FarAfter p i chain) :
    solvetimeAt p chain i = 6 * p.targetTimePerBlock ∧
      ∀ d, d + 1 = i → solvetimeAt p chain d = -(6 * p.targetTimePerBlock) := by
  obtain ⟨hparent, hchild⟩ := h
  constructor
  · exact clampSolvetime_high (by omega)
  · rintro d rfl
    have := hchild d rfl
    exact clampSolvetime_low (by omega)

theorem solvetimeAt_far_before {i : Nat} (h : FarBefore p i chain) :
    solvetimeAt p chain i = -(6 * p.targetTimePerBlock) ∧
      ∀ d, d + 1 = i → solvetimeAt p chain d = 6 * p.targetTimePerBlock := by
  obtain ⟨hparent, hchild⟩ := h
  constructor
  · exact clampSolvetime_low (by omega)
  · rintro d rfl
    have := hchild d rfl
    exact clampSolvetime_high (by omega)

namespace OneLie

variable {i : Nat} {chain' : List HeaderInfo}

theorem length_eq (h : OneLie i chain chain') : chain.length = chain'.length := by
  have := congrArg List.length h.same_bits
  rwa [List.length_map, List.length_map] at this

protected theorem symm (h : OneLie i chain chain') : OneLie i chain' chain :=
  ⟨h.same_bits.symm, fun d hd => (h.same_times d hd).symm⟩

theorem solvetimeAt_eq (h : OneLie i chain chain') {d : Nat} (hd : d ≠ i) (hd' : d + 1 ≠ i) :
    solvetimeAt p chain d = solvetimeAt p chain' d := by
  rw [solvetimeAt, solvetimeAt, h.same_times d hd, h.same_times (d + 1) hd']

theorem weightedSum_last (h : OneLie 0 chain chain') (hn : 0 < n) :
    weightedSum p n chain - weightedSum p n chain' =
      n * (solvetimeAt p chain 0 - solvetimeAt p chain' 0) := by
  rw [weightedSum, weightedSum, ← sum_sub_distrib, sum_eq_single 0]
  · push_cast
    ring
  · intro d _ hd
    rw [h.solvetimeAt_eq hd (by omega), sub_self]
  · intro hmem
    exact absurd (mem_range.mpr hn) hmem

theorem weightedSum_earlier {k : Nat} (h : OneLie (k + 1) chain chain') (hk : k + 1 < n) :
    weightedSum p n chain - weightedSum p n chain' =
      ((n : Int) - (k + 1)) * (solvetimeAt p chain (k + 1) - solvetimeAt p chain' (k + 1)) +
        ((n : Int) - k) * (solvetimeAt p chain k - solvetimeAt p chain' k) := by
  rw [weightedSum, weightedSum, ← sum_sub_distrib, sum_eq_add (k + 1) k (by omega)]
  · push_cast
    ring
  · intro d _ ⟨hd, hd'⟩
    rw [h.solvetimeAt_eq hd (by omega), sub_self]
  · intro hmem
    exact absurd (mem_range.mpr hk) hmem
  · intro hmem
    exact absurd (mem_range.mpr (by omega)) hmem

/-- A later time makes the sum at most this much smaller, and the next solve time
gives back at most this much. -/
theorem weightedSum_bounds (h : OneLie i chain chain') (hi : i < n)
    (hle : timeAt chain i ≤ timeAt chain' i) :
    weightedSum p n chain - weightedSum p n chain' ≤ 12 * p.targetTimePerBlock * (n - i + 1) ∧
      -(12 * p.targetTimePerBlock * (n - i + 1) : Int) ≤
        weightedSum p n chain - weightedSum p n chain' := by
  have hmax := maxSolvetime_eq p
  have hrange : ∀ c d, -(6 * p.targetTimePerBlock : Int) ≤ solvetimeAt p c d ∧
      solvetimeAt p c d ≤ 6 * p.targetTimePerBlock := by
    intro c d
    rw [← hmax]
    exact clampSolvetime_range p _
  have hfall : solvetimeAt p chain i ≤ solvetimeAt p chain' i := by
    refine clampSolvetime_mono p ?_
    have := h.same_times (i + 1) (by omega)
    omega
  have hlow := hrange chain i
  have hhigh := hrange chain' i
  cases i with
  | zero =>
    rw [h.weightedSum_last hi, Nat.cast_zero, sub_zero]
    have hcap : (n : Int) * (solvetimeAt p chain' 0 - solvetimeAt p chain 0) ≤
        n * (12 * p.targetTimePerBlock) :=
      Int.mul_le_mul_of_nonneg_left (by omega) (by omega)
    have hfloor : 0 ≤ (n : Int) * (solvetimeAt p chain' 0 - solvetimeAt p chain 0) :=
      Int.mul_nonneg (by omega) (by omega)
    constructor <;> linarith
  | succ k =>
    have hrise : solvetimeAt p chain' k ≤ solvetimeAt p chain k := by
      refine clampSolvetime_mono p ?_
      have := h.same_times k (by omega)
      omega
    have hlow' := hrange chain' k
    have hhigh' := hrange chain k
    rw [h.weightedSum_earlier hi]
    push_cast
    constructor <;> nlinarith

theorem weightedSum_abs (h : OneLie i chain chain') (hi : i < n) :
    |weightedSum p n chain - weightedSum p n chain'| ≤ 12 * p.targetTimePerBlock * (n - i + 1) := by
  rw [abs_le]
  rcases Int.le_total (timeAt chain i) (timeAt chain' i) with hle | hle
  · obtain ⟨hup, hdown⟩ := h.weightedSum_bounds (p := p) hi hle
    exact ⟨hdown, hup⟩
  · obtain ⟨hup, hdown⟩ := h.symm.weightedSum_bounds (p := p) hi hle
    omega

theorem weightedSum_far (h : OneLie i chain chain')
    (hfar : FarAfter p i chain ∧ FarAfter p i chain' ∨ FarBefore p i chain ∧ FarBefore p i chain') :
    weightedSum p n chain = weightedSum p n chain' := by
  have hsame : solvetimeAt p chain i = solvetimeAt p chain' i ∧
      ∀ d, d + 1 = i → solvetimeAt p chain d = solvetimeAt p chain' d := by
    rcases hfar with ⟨hafter, hafter'⟩ | ⟨hbefore, hbefore'⟩
    · obtain ⟨hown, hnext⟩ := solvetimeAt_far hafter
      obtain ⟨hown', hnext'⟩ := solvetimeAt_far hafter'
      exact ⟨hown.trans hown'.symm, fun d hd => (hnext d hd).trans (hnext' d hd).symm⟩
    · obtain ⟨hown, hnext⟩ := solvetimeAt_far_before hbefore
      obtain ⟨hown', hnext'⟩ := solvetimeAt_far_before hbefore'
      exact ⟨hown.trans hown'.symm, fun d hd => (hnext d hd).trans (hnext' d hd).symm⟩
  refine sum_congr rfl fun d _ => ?_
  by_cases hd : d = i
  · rw [hd, hsame.1]
  by_cases hd' : d + 1 = i
  · rw [hsame.2 d hd']
  · rw [h.solvetimeAt_eq hd hd']

end OneLie

theorem lwma3_congr (hn : n < 2 ^ 31) {chain' : List HeaderInfo}
    (hbits : chain.map HeaderInfo.bits = chain'.map HeaderInfo.bits) (hlen : n < chain.length)
    (hsum : weightedSum p n chain = weightedSum p n chain') :
    calcNextRequiredDifficultyLWMA3 p n chain = calcNextRequiredDifficultyLWMA3 p n chain' := by
  have hlength : chain.length = chain'.length := by
    have := congrArg List.length hbits
    rwa [List.length_map, List.length_map] at this
  have hquotient : lwma3Quotient p n (windowSums p n chain) =
      lwma3Quotient p n (windowSums p n chain') := by
    grind [lwma3Quotient, windowSums, targetSum_congr]
  cases chain with
  | nil => simp at hlen
  | cons node ancestors =>
    cases chain' with
    | nil => simp at hlength
    | cons node' ancestors' =>
      have hlen' : n < (node' :: ancestors').length := hlength ▸ hlen
      rw [List.length_cons] at hlength
      rw [calcNextRequiredDifficultyLWMA3, calcNextRequiredDifficultyLWMA3,
        lwma3Sums_eq hn hlen, lwma3Sums_eq hn hlen',
        show node.bits = node'.bits from (List.cons.inj hbits).1,
        show ancestors.length = ancestors'.length by simpa using hlength]
      dsimp only [bind, Except.bind]
      rw [hquotient]

/-- A wrong time at position `j` of the window moves the weighted sum by at most
`12 * TargetTime * (j + 1)`, and two times far to the same side of both neighbours
give the same bits. -/
theorem one_lie_bounded (hn : n < 2 ^ 31) {chain' : List HeaderInfo} (hlen : n < chain.length)
    {j : Nat} (hj : 1 ≤ j) (hjn : j ≤ n) (h : OneLie (n - j) chain chain') :
    (∃ s s', lwma3Sums p n chain = .ok s ∧ lwma3Sums p n chain' = .ok s' ∧
      |s.weightedSolvetimeSum - s'.weightedSolvetimeSum| ≤ 12 * p.targetTimePerBlock * (j + 1)) ∧
    (FarAfter p (n - j) chain ∧ FarAfter p (n - j) chain' ∨
        FarBefore p (n - j) chain ∧ FarBefore p (n - j) chain' →
      calcNextRequiredDifficultyLWMA3 p n chain = calcNextRequiredDifficultyLWMA3 p n chain') := by
  constructor
  · refine ⟨_, _, lwma3Sums_eq hn hlen, lwma3Sums_eq hn (h.length_eq ▸ hlen), ?_⟩
    have hbound := h.weightedSum_abs (p := p) (n := n) (by omega)
    rwa [show ((n : Int) - (n - j : Nat) + 1) = j + 1 by omega] at hbound
  · intro hfar
    exact lwma3_congr hn h.same_bits hlen (h.weightedSum_far hfar)

/-- Three blocks, the last one claiming to be found after this time. -/
def lyingChain (time : Int) : List HeaderInfo :=
  [⟨3, 1, 600 + time, 0x1d00ffff⟩, ⟨2, 1, 600, 0x1d00ffff⟩, ⟨1, 1, 0, 0x1d00ffff⟩]

/-- An hour and two hours count the same. -/
theorem lie_of_two_hours : calcNextRequiredDifficultyLWMA3 .mainNet 2 (lyingChain 3600) =
    calcNextRequiredDifficultyLWMA3 .mainNet 2 (lyingChain 7200) := by
  have hlie : OneLie (2 - 2) (lyingChain 3600) (lyingChain 7200) :=
    ⟨by decide, fun d hd => by
      cases d with
      | zero => exact absurd rfl hd
      | succ d => rfl⟩
  refine (one_lie_bounded (by decide) (by decide) (by decide) (by decide) hlie).2 (.inl ?_)
  exact ⟨⟨by decide, fun d hd => by omega⟩, ⟨by decide, fun d hd => by omega⟩⟩

end FalconDraw.Chain
