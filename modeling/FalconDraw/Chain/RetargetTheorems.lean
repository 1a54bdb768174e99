/-
FalconDraw.Chain.RetargetTheorems — easing, waiting and the checkpoint floor.

Both easings and the checkpoint floor multiply a target by the adjustment factor a
number of times, up to the limit, and then round it to its compact form.
-/
import FalconDraw.Chain.LwmaTheorems

namespace FalconDraw.Chain

open Lib Lib.Truncation List

variable {p : RetargetParams} {chain : List HeaderInfo} {bits : Nat}
variable {lastNode : HeaderInfo} {ancestors : List HeaderInfo}

/-! ## Targets within the limit -/

/-- The bits decode to a target from zero to the limit. -/
def Within (p : RetargetParams) (bits : Nat) : Prop :=
  0 ≤ compactToBig bits ∧ compactToBig bits ≤ p.powLimit

theorem Usable.within (h : Usable p bits) : Within p bits := ⟨h.1.le, h.2⟩

theorem usable_powLimitBits (p : RetargetParams) : Usable p p.powLimitBits :=
  ⟨p.powLimitBits_pos, p.powLimitBits_le⟩

theorem truncate_zero : truncate 8 3 0 = 0 := by
  rw [truncate, Nat.zero_div, Nat.zero_mul]

theorem truncate_le_truncate {m n : Nat} (h : m ≤ n) : truncate 8 3 m ≤ truncate 8 3 n := by
  rcases Nat.eq_zero_or_pos m with rfl | hpos
  · rw [truncate_zero]
    exact Nat.zero_le _
  · exact truncate_mono (by decide) (by decide) hpos.ne' h

theorem compact_of_nonneg {t : Int} (hnonneg : 0 ≤ t) (hle : t ≤ p.powLimit) :
    compactToBig (bigToCompact t) = truncate 8 3 t.toNat := by
  rcases hnonneg.eq_or_lt with rfl | hpos
  · rw [Int.toNat_zero, truncate_zero]
    rfl
  · exact compact_of_le hpos hle

theorem truncate_decoded (h : 0 ≤ compactToBig bits) :
    truncate 8 3 (compactToBig bits).toNat = (compactToBig bits).toNat := by
  rcases h.eq_or_lt with heq | hpos
  · rw [← heq, Int.toNat_zero, truncate_zero]
  · exact truncate_compactToBig hpos

theorem le_truncate_iff (h : 0 ≤ compactToBig bits) {t : Int} (ht : 0 ≤ t) :
    compactToBig bits ≤ (truncate 8 3 t.toNat : Nat) ↔ compactToBig bits ≤ t := by
  have hround := truncate_le 8 3 t.toNat
  constructor
  · intro hle
    omega
  · intro hle
    have hmono : truncate 8 3 (compactToBig bits).toNat ≤ truncate 8 3 t.toNat :=
      truncate_le_truncate (by omega)
    rw [truncate_decoded h] at hmono
    omega

theorem within_bigToCompact {t : Int} (hnonneg : 0 ≤ t) (hle : t ≤ p.powLimit) :
    Within p (bigToCompact t) := by
  have hround := truncate_le 8 3 t.toNat
  rw [Within, compact_of_nonneg hnonneg hle]
  omega

/-! ## Easing -/

theorem factor_pow_pos (p : RetargetParams) (w : Nat) :
    (0 : Int) < (p.retargetAdjustmentFactor : Int) ^ w :=
  Int.pow_pos (by exact_mod_cast p.factor_pos)

theorem factor_pow_mono (p : RetargetParams) {w w' : Nat} (h : w ≤ w') :
    (p.retargetAdjustmentFactor : Int) ^ w ≤ (p.retargetAdjustmentFactor : Int) ^ w' :=
  pow_le_pow_right₀ (by exact_mod_cast p.factor_pos) h

theorem mul_factor_pow_mono (p : RetargetParams) {t : Int} (ht : 0 ≤ t) {w w' : Nat} (h : w ≤ w') :
    t * (p.retargetAdjustmentFactor : Int) ^ w ≤ t * (p.retargetAdjustmentFactor : Int) ^ w' :=
  Int.mul_le_mul_of_nonneg_left (factor_pow_mono p h) ht

theorem le_mul_factor_pow (p : RetargetParams) {t : Int} (ht : 0 ≤ t) (w : Nat) :
    t ≤ t * (p.retargetAdjustmentFactor : Int) ^ w := by
  have := mul_factor_pow_mono p ht (Nat.zero_le w)
  rwa [pow_zero, mul_one] at this

theorem easeTarget_eq : ∀ (w : Nat) {t : Int}, 0 ≤ t → t ≤ p.powLimit →
    easeTarget p w t = min (p.powLimit : Int) (t * (p.retargetAdjustmentFactor : Int) ^ w)
  | 0, t, _, hle => by
    rw [easeTarget, pow_zero, mul_one, min_eq_right hle]
  | w + 1, t, hnonneg, hle => by
    have hstep : t * (p.retargetAdjustmentFactor : Int) ^ (w + 1) =
        t * p.retargetAdjustmentFactor * (p.retargetAdjustmentFactor : Int) ^ w := by ring
    have hfirst : 0 ≤ t * (p.retargetAdjustmentFactor : Int) :=
      Int.mul_nonneg hnonneg (by omega)
    rw [easeTarget, hstep]
    by_cases hlimit : (p.powLimit : Int) ≤ t * p.retargetAdjustmentFactor
    · rw [if_pos hlimit, min_eq_left (hlimit.trans (le_mul_factor_pow p hfirst w))]
    · rw [if_neg hlimit, easeTarget_eq w hfirst (by omega)]

/-- The target these bits are eased to in `w` windows. -/
def easedTarget (p : RetargetParams) (w bits : Nat) : Int :=
  compactToBig (bigToCompact (easeTarget p w (compactToBig bits)))

theorem ease_range (h : Within p bits) (w : Nat) :
    0 ≤ easeTarget p w (compactToBig bits) ∧ easeTarget p w (compactToBig bits) ≤ p.powLimit := by
  have hprod : 0 ≤ compactToBig bits * (p.retargetAdjustmentFactor : Int) ^ w :=
    Int.mul_nonneg h.1 (factor_pow_pos p w).le
  rw [easeTarget_eq w h.1 h.2]
  omega

theorem easedTarget_eq (h : Within p bits) (w : Nat) :
    easedTarget p w bits = (truncate 8 3 (easeTarget p w (compactToBig bits)).toNat : Nat) :=
  compact_of_nonneg (ease_range h w).1 (ease_range h w).2

theorem easedTarget_zero (h : Within p bits) : easedTarget p 0 bits = compactToBig bits := by
  rw [easedTarget_eq h, easeTarget, truncate_decoded h.1, Int.toNat_of_nonneg h.1]

theorem easedTarget_mono (h : Within p bits) {w w' : Nat} (hle : w ≤ w') :
    easedTarget p w bits ≤ easedTarget p w' bits := by
  have hease : easeTarget p w (compactToBig bits) ≤ easeTarget p w' (compactToBig bits) := by
    have := mul_factor_pow_mono p h.1 hle
    rw [easeTarget_eq w h.1 h.2, easeTarget_eq w' h.1 h.2]
    omega
  rw [easedTarget_eq h, easedTarget_eq h, Int.ofNat_le]
  exact truncate_le_truncate (by omega)

theorem le_easedTarget (h : Within p bits) (w : Nat) :
    compactToBig bits ≤ easedTarget p w bits := by
  have := easedTarget_mono h (Nat.zero_le w)
  rwa [easedTarget_zero h] at this

theorem easedTarget_le (h : Within p bits) (w : Nat) :
    easedTarget p w bits ≤ compactToBig bits * (p.retargetAdjustmentFactor : Int) ^ w := by
  have hround := truncate_le 8 3 (easeTarget p w (compactToBig bits)).toNat
  have hnonneg := (ease_range h w).1
  have heq := easeTarget_eq w h.1 h.2
  rw [easedTarget_eq h]
  omega

theorem usable_ease (h : Usable p bits) (w : Nat) :
    Usable p (bigToCompact (easeTarget p w (compactToBig bits))) := by
  have hease : compactToBig bits ≤ easeTarget p w (compactToBig bits) := by
    have := le_mul_factor_pow p h.1.le w
    have := h.2
    rw [easeTarget_eq w h.1.le h.2]
    omega
  exact usable_bigToCompact (h.1.trans_le hease) (ease_range h.within w).2

def windowsElapsed (window elapsed : Int) : Nat :=
  if elapsed ≤ window then 0 else (elapsed / window).toNat

theorem windowsElapsed_mono {window elapsed elapsed' : Int} (hpos : 0 < window)
    (h : elapsed ≤ elapsed') : windowsElapsed window elapsed ≤ windowsElapsed window elapsed' := by
  have hdiv : elapsed / window ≤ elapsed' / window := Int.ediv_le_ediv hpos h
  unfold windowsElapsed
  split <;> split <;> omega

theorem stallEase_target (h : Within p bits) (parentTime time : Int) :
    compactToBig (applyLWMA3StallEase p bits parentTime time) =
      easedTarget p (windowsElapsed (maxSolvetime p) (time - parentTime)) bits := by
  unfold applyLWMA3StallEase windowsElapsed
  dsimp only
  split
  · exact (easedTarget_zero h).symm
  · rfl

theorem emergency_target (h : Within p lastNode.bits) {nextHeight : Nat}
    (hwindow : 0 < p.emergencyAdjustWindow)
    (hactive : p.emergencyAdjustActivationHeight ≤ nextHeight) (time : Int) :
    compactToBig (emergencyDifficulty p lastNode nextHeight time) =
      easedTarget p (min (windowsElapsed p.emergencyAdjustWindow (time - lastNode.timestamp)) 6)
        lastNode.bits := by
  unfold emergencyDifficulty windowsElapsed
  dsimp only
  by_cases helapsed : time - lastNode.timestamp ≤ p.emergencyAdjustWindow
  · rw [if_neg (by omega), if_pos helapsed]
    exact (easedTarget_zero h).symm
  · have hcount : (min ((time - lastNode.timestamp) / p.emergencyAdjustWindow)
        maxEmergencyWindowsPerBlock).toNat =
        min ((time - lastNode.timestamp) / p.emergencyAdjustWindow).toNat 6 := by
      unfold maxEmergencyWindowsPerBlock
      omega
    rw [if_pos ⟨hwindow, hactive, by omega⟩, if_neg helapsed, hcount]
    rfl

/-! ## The rule in force -/

theorem required_lwma3
    (hretarget : p.poWNoRetargeting = false) (hactive : lwma3Active p (ancestors.length + 1))
    (time : Int) :
    calcNextRequiredDifficulty p (lastNode :: ancestors) time =
      (calcNextRequiredDifficultyLWMA3 p lwma3WindowSize (lastNode :: ancestors)).map
        fun lwma3Bits => applyLWMA3StallEase p lwma3Bits lastNode.timestamp time := by
  rw [calcNextRequiredDifficulty, if_neg (by simp [hretarget])]
  dsimp only
  rw [if_pos hactive]
  rfl

theorem lwma3Normalizer_sixty (p : RetargetParams) : lwma3Normalizer p lwma3WindowSize ≠ 0 := by
  have hpos := p.targetTimePerBlock_pos
  have hlt := p.targetTimePerBlock_lt
  have hk := (lwma3Normalizer_eq (p := p) (n := lwma3WindowSize) (by
    rw [show ((lwma3WindowSize : Int) * (lwma3WindowSize + 1) / 2) = 1830 from rfl]
    omega)).2
  rw [hk, show ((lwma3WindowSize : Int) * (lwma3WindowSize + 1) / 2) = 1830 from rfl]
  omega

theorem lwma3_usable (hchain : chain.length ≤ lwma3WindowSize → ∀ node ∈ chain, Usable p node.bits) :
    ∃ bits, calcNextRequiredDifficultyLWMA3 p lwma3WindowSize chain = .ok bits ∧ Usable p bits := by
  by_cases hretarget : p.poWNoRetargeting = true
  · exact ⟨_, if_pos hretarget, usable_powLimitBits p⟩
  have hretarget : p.poWNoRetargeting = false := by simpa using hretarget
  by_cases hfull : lwma3WindowSize < chain.length
  · exact usable_lwma3 hretarget (by decide) (by decide) hfull (lwma3Normalizer_sixty p)
  · cases chain with
    | nil =>
      refine ⟨_, ?_, usable_powLimitBits p⟩
      rw [calcNextRequiredDifficultyLWMA3, if_neg (by simp [hretarget])]
    | cons lastNode ancestors =>
      have hshort : ancestors.length < lwma3WindowSize := by
        rw [length_cons] at hfull
        omega
      exact ⟨_, lwma3_short hretarget hshort, hchain (by omega) lastNode mem_cons_self⟩

/-- After activation every required difficulty is usable, whatever the times and
the bits of the window. -/
theorem required_usable (hactive : lwma3Active p chain.length)
    (hlen : lwma3WindowSize + 1 ≤ chain.length) (newBlockTime : Int) :
    ∃ bits, calcNextRequiredDifficulty p chain newBlockTime = .ok bits ∧ Usable p bits := by
  by_cases hretarget : p.poWNoRetargeting = true
  · exact ⟨_, if_pos hretarget, usable_powLimitBits p⟩
  have hretarget : p.poWNoRetargeting = false := by simpa using hretarget
  obtain ⟨base, hbase, husable⟩ : ∃ base, calcNextRequiredDifficultyLWMA3 p lwma3WindowSize chain =
      .ok base ∧ Usable p base := lwma3_usable (by omega)
  cases chain with
  | nil => simp at hlen
  | cons lastNode ancestors =>
    refine ⟨_, by rw [required_lwma3 hretarget hactive, hbase]; rfl, ?_⟩
    unfold applyLWMA3StallEase
    dsimp only
    split
    · exact husable
    · exact usable_ease husable _

def earlyLwma : RetargetParams := { RetargetParams.mainNet with lwma3ActivationHeight := 2 }

/-- The hour after a window with all its blocks at once, one of them in the past. -/
theorem required_after_burst : ∃ bits, calcNextRequiredDifficulty earlyLwma
    (⟨2, 1, -50, 0x1d00ffff⟩ :: List.replicate 60 ⟨1, 1, 0, 0x1d00ffff⟩) 3600 = .ok bits ∧
      Usable earlyLwma bits :=
  required_usable (by decide) (by decide) 3600

/-! ## Waiting -/

/-- Emergency easing decides about the block at this height. -/
structure EmergencyActive (p : RetargetParams) (height : Nat) : Prop where
  retargets   : p.poWNoRetargeting = false
  before_lwma : lwma3Active p height = false
  between     : height % p.blocksPerRetarget ≠ 0
  no_reduce   : p.reduceMinDifficulty = false
  window_pos  : 0 < p.emergencyAdjustWindow
  activated   : p.emergencyAdjustActivationHeight ≤ height

theorem required_emergency (h : EmergencyActive p (ancestors.length + 1)) (time : Int) :
    calcNextRequiredDifficulty p (lastNode :: ancestors) time =
      .ok (emergencyDifficulty p lastNode (ancestors.length + 1) time) := by
  rw [calcNextRequiredDifficulty, if_neg (by simp [h.retargets])]
  dsimp only
  rw [if_neg (by simp [h.before_lwma]), if_pos h.between, if_neg (by simp [h.no_reduce])]

/-- With LWMA-3 in force a later time is never harder, and never harder than LWMA-3. -/
theorem lwma3_waiting (hchain : ∀ node ∈ chain, Usable p node.bits)
    (hactive : lwma3Active p chain.length) {t₁ t₂ : Int} (hle : t₁ ≤ t₂) :
    ∃ base bits₁ bits₂, calcNextRequiredDifficultyLWMA3 p lwma3WindowSize chain = .ok base ∧
      calcNextRequiredDifficulty p chain t₁ = .ok bits₁ ∧
      calcNextRequiredDifficulty p chain t₂ = .ok bits₂ ∧
      compactToBig base ≤ compactToBig bits₁ ∧ compactToBig bits₁ ≤ compactToBig bits₂ := by
  by_cases hretarget : p.poWNoRetargeting = true
  · exact ⟨_, _, _, if_pos hretarget, if_pos hretarget, if_pos hretarget, le_rfl, le_rfl⟩
  have hretarget : p.poWNoRetargeting = false := by simpa using hretarget
  obtain ⟨base, hbase, husable⟩ := lwma3_usable fun _ => hchain
  cases chain with
  | nil => simp [lwma3Active] at hactive
  | cons lastNode ancestors =>
    have hresult : ∀ t, calcNextRequiredDifficulty p (lastNode :: ancestors) t =
        .ok (applyLWMA3StallEase p base lastNode.timestamp t) := by
      intro t
      rw [required_lwma3 hretarget hactive, hbase]
      rfl
    have hwindow : (0 : Int) < maxSolvetime p := by
      have := p.targetTimePerBlock_pos
      rw [maxSolvetime_eq]
      omega
    refine ⟨base, _, _, hbase, hresult t₁, hresult t₂, ?_, ?_⟩
    · rw [stallEase_target husable.within]
      exact le_easedTarget husable.within _
    · rw [stallEase_target husable.within, stallEase_target husable.within]
      exact easedTarget_mono husable.within (windowsElapsed_mono hwindow (by omega))

/-- With emergency easing in force a later time is never harder, never harder than
the parent and never easier than six windows make it. -/
theorem emergency_waiting {parent : HeaderInfo}
    (hparent : Usable p parent.bits) (hactive : EmergencyActive p (ancestors.length + 1))
    {t₁ t₂ : Int} (hle : t₁ ≤ t₂) :
    ∃ bits₁ bits₂, calcNextRequiredDifficulty p (parent :: ancestors) t₁ = .ok bits₁ ∧
      calcNextRequiredDifficulty p (parent :: ancestors) t₂ = .ok bits₂ ∧
      compactToBig parent.bits ≤ compactToBig bits₁ ∧
      compactToBig bits₁ ≤ compactToBig bits₂ ∧
      compactToBig bits₂ ≤ compactToBig parent.bits * (p.retargetAdjustmentFactor : Int) ^ 6 := by
  have hwithin := hparent.within
  have htarget := emergency_target hwithin hactive.window_pos hactive.activated
  have hwindow : (0 : Int) < p.emergencyAdjustWindow := by exact_mod_cast hactive.window_pos
  refine ⟨_, _, required_emergency hactive t₁, required_emergency hactive t₂, ?_, ?_, ?_⟩
  · rw [htarget]
    exact le_easedTarget hwithin _
  · rw [htarget, htarget]
    have hcount := windowsElapsed_mono hwindow
      (show t₁ - parent.timestamp ≤ t₂ - parent.timestamp by omega)
    exact easedTarget_mono hwithin (by omega)
  · rw [htarget]
    exact (easedTarget_le hwithin _).trans (mul_factor_pow_mono p hwithin.1 (Nat.min_le_right _ _))

/-- Waiting never makes the next block harder. -/
theorem waiting_never_harder (hchain : ∀ node ∈ chain, Usable p node.bits) {t₁ t₂ : Int}
    (hle : t₁ ≤ t₂) :
    (lwma3Active p chain.length →
      ∃ base bits₁ bits₂, calcNextRequiredDifficultyLWMA3 p lwma3WindowSize chain = .ok base ∧
        calcNextRequiredDifficulty p chain t₁ = .ok bits₁ ∧
        calcNextRequiredDifficulty p chain t₂ = .ok bits₂ ∧
        compactToBig base ≤ compactToBig bits₁ ∧ compactToBig base ≤ compactToBig bits₂ ∧
        compactToBig bits₁ ≤ compactToBig bits₂) ∧
    (EmergencyActive p chain.length → ∀ parent, chain.head? = some parent →
      ∃ bits₁ bits₂, calcNextRequiredDifficulty p chain t₁ = .ok bits₁ ∧
        calcNextRequiredDifficulty p chain t₂ = .ok bits₂ ∧
        compactToBig bits₁ ≤ compactToBig bits₂ ∧
        (∀ bits ∈ [bits₁, bits₂], compactToBig parent.bits ≤ compactToBig bits ∧ compactToBig bits ≤
            compactToBig parent.bits * (p.retargetAdjustmentFactor : Int) ^ 6)) := by
  constructor
  · intro hactive
    obtain ⟨base, bits₁, bits₂, hbase, h₁, h₂, hlow, hmono⟩ := lwma3_waiting hchain hactive hle
    exact ⟨base, bits₁, bits₂, hbase, h₁, h₂, hlow, hlow.trans hmono, hmono⟩
  · intro hactive parent hhead
    cases chain with
    | nil => cases hhead
    | cons node ancestors =>
      cases hhead
      obtain ⟨bits₁, bits₂, h₁, h₂, hlow, hmono, hhigh⟩ :=
        emergency_waiting (hchain _ mem_cons_self) hactive hle
      refine ⟨bits₁, bits₂, h₁, h₂, hmono, fun bits hbits => ?_⟩
      rcases mem_pair.mp hbits with rfl | rfl
      · exact ⟨hlow, hmono.trans hhigh⟩
      · exact ⟨hlow.trans hmono, hhigh⟩

def earlyEasing : RetargetParams :=
  { RetargetParams.mainNet with emergencyAdjustActivationHeight := 0 }

/-- A block that waits two hours instead of ten minutes is not harder under either rule. -/
theorem two_hours_never_harder : (∃ base bits₁ bits₂,
      calcNextRequiredDifficultyLWMA3 earlyLwma lwma3WindowSize slowChain = .ok base ∧
      calcNextRequiredDifficulty earlyLwma slowChain 3000 = .ok bits₁ ∧
      calcNextRequiredDifficulty earlyLwma slowChain 9600 = .ok bits₂ ∧
      compactToBig base ≤ compactToBig bits₁ ∧ compactToBig base ≤ compactToBig bits₂ ∧
      compactToBig bits₁ ≤ compactToBig bits₂) ∧
    ∃ bits₁ bits₂, calcNextRequiredDifficulty earlyEasing slowChain 3000 = .ok bits₁ ∧
      calcNextRequiredDifficulty earlyEasing slowChain 9600 = .ok bits₂ ∧
      compactToBig bits₁ ≤ compactToBig bits₂ := by
  constructor
  · exact (waiting_never_harder (p := earlyLwma) (by decide) (by decide)).1 (by decide)
  · have hactive : EmergencyActive earlyEasing slowChain.length :=
      ⟨rfl, rfl, by decide, rfl, by decide, by decide⟩
    have hchain : ∀ node ∈ slowChain, Usable earlyEasing node.bits := by decide
    obtain ⟨bits₁, bits₂, h₁, h₂, hmono, -⟩ :=
      (waiting_never_harder hchain (show (3000 : Int) ≤ 9600 by decide)).2 hactive _ rfl
    exact ⟨bits₁, bits₂, h₁, h₂, hmono⟩

/-! ## The checkpoint floor -/

/-- Headers, last one first, that carry the bits demanded of them on this base. -/
def Demanded (p : RetargetParams) : List HeaderInfo → List HeaderInfo → Prop
  | [], _ => True
  | header :: rest, base =>
    calcNextRequiredDifficulty p (rest ++ base) header.timestamp = .ok header.bits ∧
      Demanded p rest base

theorem findPrev_within (hchain : ∀ node ∈ chain, Within p node.bits) :
    Within p (findPrevTestNetDifficulty p chain) := by
  induction chain with
  | nil => exact (usable_powLimitBits p).within
  | cons node ancestors ih => grind [findPrevTestNetDifficulty]

theorem stallEase_within (h : Within p bits) (parentTime time : Int) :
    Within p (applyLWMA3StallEase p bits parentTime time) := by
  unfold applyLWMA3StallEase
  dsimp only
  split
  · exact h
  · exact within_bigToCompact (ease_range h _).1 (ease_range h _).2

theorem emergency_within (h : Within p lastNode.bits) (nextHeight : Nat)
    (time : Int) : Within p (emergencyDifficulty p lastNode nextHeight time) := by
  unfold emergencyDifficulty
  dsimp only
  split
  · exact within_bigToCompact (ease_range h _).1 (ease_range h _).2
  · exact h

theorem retarget_within {firstNode : HeaderInfo} (hlast : Within p lastNode.bits)
    (hfirst : Within p firstNode.bits) : Within p (retargetDifficulty p lastNode firstNode) := by
  have hspan := p.targetTimePerBlock_pos.trans_le p.targetTimePerBlock_le
  unfold retargetDifficulty
  dsimp only
  generalize hadjusted : (if lastNode.timestamp - firstNode.timestamp < p.minRetargetTimespan then
    (p.minRetargetTimespan : Int) else _) = adjusted
  have hnonneg : 0 ≤ adjusted := by
    omega
  have hold : 0 ≤ compactToBig (if p.enforceBIP94 then firstNode.bits else lastNode.bits) := by
    split
    · exact hfirst.1
    · exact hlast.1
  have hnew := Int.ediv_nonneg (Int.mul_nonneg hold hnonneg) (show (0 : Int) ≤ p.targetTimespan by
    omega)
  have := powLimit_pos p
  generalize compactToBig (if p.enforceBIP94 then firstNode.bits else lastNode.bits) * adjusted /
    (p.targetTimespan : Int) = newTarget at hnew ⊢
  split
  · exact within_bigToCompact (by omega) le_rfl
  · exact within_bigToCompact hnew (by omega)

theorem lwma3_within (hchain : ∀ node ∈ chain, Within p node.bits)
    (h : calcNextRequiredDifficultyLWMA3 p lwma3WindowSize chain = .ok bits) : Within p bits := by
  by_cases hretarget : p.poWNoRetargeting = true
  · simp only [calcNextRequiredDifficultyLWMA3, if_pos hretarget] at h
    cases h
    exact (usable_powLimitBits p).within
  have hretarget : p.poWNoRetargeting = false := by simpa using hretarget
  by_cases hfull : lwma3WindowSize < chain.length
  · obtain ⟨-, rfl⟩ := lwma3_full_ok hretarget (by decide) hfull h
    have hrange := limitTarget_range p (lwma3Quotient p lwma3WindowSize
      (windowSums p lwma3WindowSize chain))
    exact (usable_bigToCompact hrange.1 hrange.2).within
  · cases chain with
    | nil =>
      rw [calcNextRequiredDifficultyLWMA3, if_neg (by simp [hretarget])] at h
      cases h
      exact (usable_powLimitBits p).within
    | cons lastNode ancestors => grind [lwma3_short]

theorem required_within (hchain : ∀ node ∈ chain, Within p node.bits) {time : Int}
    (h : calcNextRequiredDifficulty p chain time = .ok bits) : Within p bits := by
  have hlimit := (usable_powLimitBits p).within
  unfold calcNextRequiredDifficulty at h
  split at h
  · cases h
    exact hlimit
  cases chain with
  | nil =>
    cases h
    exact hlimit
  | cons lastNode ancestors =>
    have hlast := hchain lastNode mem_cons_self
    dsimp only at h
    split at h
    · cases hlwma : calcNextRequiredDifficultyLWMA3 p lwma3WindowSize (lastNode :: ancestors) with
      | error e =>
        rw [hlwma] at h
        cases h
      | ok base =>
        rw [hlwma] at h
        cases h
        exact stallEase_within (lwma3_within hchain hlwma) _ _
    · split at h
      · split at h
        · split at h
          · cases h
            exact hlimit
          · cases h
            exact findPrev_within hchain
        · cases h
          exact emergency_within hlast _ _
      · cases hget : (lastNode :: ancestors)[p.blocksPerRetarget - 1]? with
        | none =>
          rw [hget] at h
          cases h
        | some firstNode =>
          rw [hget] at h
          cases h
          exact retarget_within hlast (hchain firstNode (mem_of_getElem? hget))

theorem Demanded.within {newer base : List HeaderInfo} (h : Demanded p newer base)
    (hbase : ∀ node ∈ base, Within p node.bits) : ∀ node ∈ newer ++ base, Within p node.bits := by
  induction newer with
  | nil => exact hbase
  | cons header rest ih =>
    obtain ⟨hbits, hrest⟩ := h
    intro node hnode
    rcases mem_cons.mp hnode with rfl | hold
    · exact required_within (ih hrest) hbits
    · exact ih hrest node hold

def timespansBegun (p : RetargetParams) (duration : Int) : Nat :=
  ((duration + p.maxRetargetTimespan - 1) / p.maxRetargetTimespan).toNat

theorem maxRetargetTimespan_pos (p : RetargetParams) : 0 < p.maxRetargetTimespan :=
  Nat.mul_pos (p.targetTimePerBlock_pos.trans_le p.targetTimePerBlock_le) p.factor_pos

theorem timespansBegun_of_nonpos {duration : Int} (h : duration ≤ 0) :
    timespansBegun p duration = 0 := by
  have hpos := maxRetargetTimespan_pos p
  have hlt : (duration + p.maxRetargetTimespan - 1) / p.maxRetargetTimespan < 1 :=
    Int.ediv_lt_of_lt_mul (by omega) (by omega)
  unfold timespansBegun
  omega

theorem timespansBegun_step {duration : Int} (h : 0 < duration) :
    timespansBegun p duration = timespansBegun p (duration - p.maxRetargetTimespan) + 1 := by
  have hpos : (0 : Int) < p.maxRetargetTimespan := by exact_mod_cast maxRetargetTimespan_pos p
  have hrest : (duration + p.maxRetargetTimespan - 1) / (p.maxRetargetTimespan : Int) =
      (duration - 1) / p.maxRetargetTimespan + 1 := by
    rw [show duration + (p.maxRetargetTimespan : Int) - 1 =
      duration - 1 + 1 * p.maxRetargetTimespan by ring, Int.add_mul_ediv_right _ _ hpos.ne']
  have hnonneg : 0 ≤ (duration - 1) / (p.maxRetargetTimespan : Int) :=
    Int.ediv_nonneg (by omega) hpos.le
  unfold timespansBegun
  rw [hrest, show duration - (p.maxRetargetTimespan : Int) + p.maxRetargetTimespan - 1 =
    duration - 1 by ring]
  omega

theorem easiestTarget_eq : ∀ (fuel : Nat) {duration t : Int}, duration.toNat ≤ fuel → 0 ≤ t →
    min (p.powLimit : Int) (easiestTarget p fuel duration t) =
      min (p.powLimit : Int) (t * (p.retargetAdjustmentFactor : Int) ^ timespansBegun p duration)
  | 0, duration, t, hfuel, _ => by
    rw [easiestTarget, timespansBegun_of_nonpos (by omega), pow_zero, mul_one]
  | fuel + 1, duration, t, hfuel, ht => by
    have hpos := maxRetargetTimespan_pos p
    rw [easiestTarget]
    by_cases hround : 0 < duration ∧ t < p.powLimit
    · have hnext : 0 ≤ t * (p.retargetAdjustmentFactor : Int) := Int.mul_nonneg ht (by omega)
      rw [if_pos hround, easiestTarget_eq fuel (by omega) hnext, timespansBegun_step hround.1,
        pow_succ']
      congr 1
      ring
    · rw [if_neg hround]
      by_cases hduration : 0 < duration
      · have hlimit : (p.powLimit : Int) ≤ t := by omega
        rw [min_eq_left hlimit, min_eq_left (hlimit.trans (le_mul_factor_pow p ht _))]
      · rw [timespansBegun_of_nonpos (by omega), pow_zero, mul_one]

/-- The target is within what the floor grants: one factor for every timespan begun
since the checkpoint, or on test networks the minimum difficulty after its time. -/
def EasedWithin (p : RetargetParams) (checkpoint header : HeaderInfo) : Prop :=
  if p.reduceMinDifficulty ∧
      (p.minDiffReductionTime : Int) < header.timestamp - checkpoint.timestamp then
    compactToBig header.bits ≤ compactToBig p.powLimitBits
  else compactToBig header.bits ≤ compactToBig checkpoint.bits *
    (p.retargetAdjustmentFactor : Int) ^
      timespansBegun p (header.timestamp - checkpoint.timestamp)

theorem floor_iff {checkpoint header : HeaderInfo} (hcheckpoint : Within p checkpoint.bits)
    (hheader : Within p header.bits) :
    compactToBig header.bits ≤ compactToBig
        (calcEasiestDifficulty p checkpoint.bits (header.timestamp - checkpoint.timestamp)) ↔
      EasedWithin p checkpoint header := by
  unfold calcEasiestDifficulty EasedWithin
  dsimp only
  split
  · exact Iff.rfl
  · generalize header.timestamp - checkpoint.timestamp = duration
    have hlimited : ∀ t : Int, (if (p.powLimit : Int) < t then (p.powLimit : Int) else t) =
        min (p.powLimit : Int) t := by
      intro t
      split <;> omega
    have hgrant : 0 ≤ compactToBig checkpoint.bits *
        (p.retargetAdjustmentFactor : Int) ^ timespansBegun p duration :=
      Int.mul_nonneg hcheckpoint.1 (factor_pow_pos p _).le
    have hle := hheader.2
    rw [hlimited, easiestTarget_eq _ le_rfl hcheckpoint.1,
      compact_of_nonneg (by omega) (min_le_left _ _), le_truncate_iff hheader.1 (by omega)]
    omega

theorem checkCheckpoint_ok_iff {checkpoint header : HeaderInfo}
    (htime : checkpoint.timestamp ≤ header.timestamp) :
    (∀ fastAdd, checkCheckpoint p fastAdd checkpoint header = .ok ()) ↔
      compactToBig header.bits ≤ compactToBig
        (calcEasiestDifficulty p checkpoint.bits (header.timestamp - checkpoint.timestamp)) := by
  have hold : ¬ header.timestamp < checkpoint.timestamp := by omega
  constructor
  · intro hall
    have hslow := hall false
    simp only [checkCheckpoint, rejectIf, if_neg hold] at hslow
    by_contra hlt
    simp only [Bool.false_eq_true, if_false, if_pos (not_le.mp hlt)] at hslow
    cases hslow
  · intro hle fastAdd
    cases fastAdd with
    | true =>
      simp only [checkCheckpoint, rejectIf, if_neg hold]
      rfl
    | false =>
      simp only [checkCheckpoint, rejectIf, if_neg hold, Bool.false_eq_true, if_false,
        if_neg (not_lt.mpr hle)]
      rfl

def firstCheckpoint : HeaderInfo := ⟨1, 1, 0, 0x1d00ffff⟩

def hourLater : HeaderInfo := ⟨2, 1, 3600, 0x1d00ffff⟩

def steadyHeader (height : Nat) : HeaderInfo :=
  ⟨BitVec.ofNat 256 height, 1, 1209600 * (((height + 2015) / 2016 : Nat) : Int), 0x1d00ffff⟩

def steadyAbove : Nat → List HeaderInfo
  | 0 => []
  | height + 1 => steadyHeader (height + 1) :: steadyAbove height

def steadyChain (height : Nat) : List HeaderInfo := steadyAbove height ++ [steadyHeader 0]

theorem steadyChain_succ (height : Nat) :
    steadyChain (height + 1) = steadyHeader (height + 1) :: steadyChain height := rfl

theorem steadyChain_length : ∀ height, (steadyChain height).length = height + 1
  | 0 => rfl
  | height + 1 => by rw [steadyChain_succ, length_cons, steadyChain_length height]

theorem steadyChain_head (height : Nat) :
    ∃ ancestors, steadyChain height = steadyHeader height :: ancestors ∧
      ancestors.length = height := by
  cases height with
  | zero => exact ⟨[], rfl, rfl⟩
  | succ height => exact ⟨_, steadyChain_succ height, steadyChain_length height⟩

theorem steadyChain_get : ∀ {height d : Nat}, d ≤ height →
    (steadyChain height)[d]? = some (steadyHeader (height - d))
  | height, 0, _ => by
    obtain ⟨ancestors, hchain, -⟩ := steadyChain_head height
    rw [hchain]
    rfl
  | height + 1, d + 1, hd => by
    rw [steadyChain_succ, getElem?_cons_succ, steadyChain_get (by omega),
      show height + 1 - (d + 1) = height - d by omega]

theorem steadyChain_required {height : Nat} (hlow : height + 1 < 40095) (time : Int) :
    calcNextRequiredDifficulty .mainNet (steadyChain height) time = .ok 0x1d00ffff := by
  have hperiod : RetargetParams.mainNet.blocksPerRetarget = 2016 := rfl
  have hlwma : lwma3Active .mainNet (height + 1) = false := by
    have : ¬ 54500 ≤ height + 1 := by omega
    simp [lwma3Active, RetargetParams.mainNet, this]
  by_cases hbetween : (height + 1) % 2016 ≠ 0
  · obtain ⟨ancestors, hchain, hlen⟩ := steadyChain_head height
    have hinactive : ¬ RetargetParams.mainNet.emergencyAdjustActivationHeight ≤ height + 1 :=
      not_le.mpr hlow
    rw [hchain, calcNextRequiredDifficulty, if_neg (by decide)]
    dsimp only
    rw [hlen, if_neg (by simp [hlwma]), hperiod, if_pos hbetween, if_neg (by decide),
      emergencyDifficulty]
    dsimp only
    rw [if_neg fun h => hinactive h.2.1]
    rfl
  · -- a retarget, over a period of the expected length
    have hget : (steadyChain height)[2015]? = some (steadyHeader (height - 2015)) :=
      steadyChain_get (by omega)
    obtain ⟨ancestors, hchain, hlen⟩ := steadyChain_head height
    have hspan : (steadyHeader height).timestamp - (steadyHeader (height - 2015)).timestamp =
        1209600 := by
      grind [steadyHeader]
    have hsame : retargetDifficulty .mainNet (steadyHeader height) (steadyHeader (height - 2015)) =
        0x1d00ffff := by
      unfold retargetDifficulty
      dsimp only
      rw [hspan, show (steadyHeader (height - 2015)).bits = 0x1d00ffff from rfl,
        show (steadyHeader height).bits = 0x1d00ffff from rfl]
      decide +kernel
    rw [hchain] at hget ⊢
    rw [calcNextRequiredDifficulty, if_neg (by decide)]
    dsimp only
    rw [hlen, if_neg (by simp [hlwma]), hperiod, if_neg hbetween, hget]
    dsimp only
    rw [hsame]

theorem steadyAbove_demanded : ∀ {height : Nat}, height < 40095 →
    Demanded .mainNet (steadyAbove height) [steadyHeader 0]
  | 0, _ => trivial
  | height + 1, h =>
    ⟨steadyChain_required h _, steadyAbove_demanded (Nat.lt_of_succ_lt h)⟩

/-- A block an hour after a checkpoint just below the activation height, eased by
six windows. -/
def easedBlock : HeaderInfo :=
  ⟨40095, 1, (steadyHeader 40094).timestamp + 3601, 0x1e0ffff0⟩

theorem easedBlock_required :
    calcNextRequiredDifficulty .mainNet (steadyChain 40094) easedBlock.timestamp =
      .ok easedBlock.bits := by
  obtain ⟨ancestors, hchain, hlen⟩ := steadyChain_head 40094
  have hactive : EmergencyActive .mainNet (ancestors.length + 1) := by
    rw [hlen]
    exact ⟨rfl, by decide, by decide, rfl, by decide, by decide⟩
  rw [hchain, required_emergency hactive, hlen]
  decide +kernel

end FalconDraw.Chain
