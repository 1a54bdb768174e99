/-
FalconDraw.Draw.LedgerTheorems — the staking index as a row of rolling pots.

Draw number `k` is the draw at height 36 * (k + 1), and each update of the index
is one operation on the row.
-/
import FalconDraw.Lib.RollingPots
import FalconDraw.Draw.StakeIndexTheorems

namespace FalconDraw.Draw

open Finset Lib Wire

/-- The height of draw number `k`. -/
def drawOf (k : ℕ) : ℕ := drawInterval * (k + 1)

def drawBound : ℕ := 2 ^ 32 / drawInterval

@[simp, grind =]
theorem drawOf_inj {j k : ℕ} : drawOf j = drawOf k ↔ j = k := by
  unfold drawOf drawInterval
  omega

theorem drawOf_lt {k : ℕ} (h : k < drawBound) : drawOf k < 2 ^ 32 := by
  grind [drawBound, drawInterval, drawOf]

theorem nextDraw_drawOf {k : ℕ} (h : k + 1 < drawBound) :
    StakeIndex.nextDraw (drawOf k) = drawOf (k + 1) := by
  grind [drawOf, drawInterval, StakeIndex.nextDraw, drawOf_lt]

/-- The draws below number `k`, nearest first. -/
def drawsBelow : ℕ → List ℕ
  | 0 => []
  | k + 1 => drawOf k :: drawsBelow k

theorem drawsFrom_eq : ∀ {fuel k : ℕ}, k ≤ fuel →
    StakeIndex.drawsFrom fuel (drawInterval * k) = drawsBelow k
  | 0, k, h => by
      obtain rfl : k = 0 := by omega
      rfl
  | fuel + 1, 0, _ => rfl
  | fuel + 1, k + 1, h => by
      have hge : ¬ drawInterval * (k + 1) < drawInterval := by
        unfold drawInterval
        omega
      have hsub : drawInterval * (k + 1) - drawInterval = drawInterval * k := by
        unfold drawInterval
        omega
      rw [StakeIndex.drawsFrom, if_neg hge, hsub, drawsFrom_eq (by omega), drawsBelow, drawOf]

theorem priorDraws_drawOf (k : ℕ) : StakeIndex.priorDraws (drawOf k) = drawsBelow k := by
  unfold StakeIndex.priorDraws
  split
  case isTrue h =>
    obtain rfl : k = 0 := by
      unfold drawOf drawInterval at h
      omega
    rfl
  case isFalse h =>
    have hsub : drawOf k - drawInterval = drawInterval * k := by
      unfold drawOf drawInterval
      omega
    have hfuel : k ≤ drawOf k := by
      unfold drawOf drawInterval
      omega
    rw [hsub, drawsFrom_eq hfuel]

namespace StakeIndex

variable {idx : StakeIndex} {front j k : ℕ}
variable {txHash : Hash} {e : PoolStake}

def stakedIn (idx : StakeIndex) (drawHeight : ℕ) : ℤ :=
  sumInt ((idx.poolStakes drawHeight).map fun r => r.2.amount)

def ledger (idx : StakeIndex) : RollingPots where
  deposits k := idx.stakedIn (drawOf k)
  held k := (idx.getPoolBalance (drawOf k)).toInt
  outcome k := (idx.drawResults.get (drawOf k)).map DrawResultMeta.jackpotWon

@[grind =]
theorem ledger_deposits (idx : StakeIndex) (k : ℕ) :
    idx.ledger.deposits k = idx.stakedIn (drawOf k) := rfl

@[grind =]
theorem ledger_held (idx : StakeIndex) (k : ℕ) :
    idx.ledger.held k = (idx.getPoolBalance (drawOf k)).toInt := rfl

@[grind =]
theorem ledger_outcome (idx : StakeIndex) (k : ℕ) :
    idx.ledger.outcome k = (idx.drawResults.get (drawOf k)).map DrawResultMeta.jackpotWon := rfl

/-- Rows as validated stakes leave them. -/
structure RowsValid (idx : StakeIndex) : Prop where
  amount_pos : ∀ D, ∀ r ∈ idx.poolStakes D, 0 < r.2.amount.toInt
  wallet_ne : ∀ D, ∀ r ∈ idx.poolStakes D, r.2.walletHash ≠ jackpotPoolWalletHash

/-- The index is a sound row of pots, and what was staked fits into an `int64`. -/
structure Books (idx : StakeIndex) (front : ℕ) : Prop where
  rows : idx.RowsValid
  sound : idx.ledger.Sound front
  fits : ∑ k ∈ range drawBound, idx.ledger.deposits k < 2 ^ 63

theorem Books.advance {front' : ℕ} (h : idx.Books front) (hf : front ≤ front') :
    idx.Books front' := ⟨h.rows, h.sound.advance hf, h.fits⟩

theorem stakedIn_pos_iff (h : idx.RowsValid) (k : ℕ) :
    0 < idx.ledger.deposits k ↔ idx.poolStakes (drawOf k) ≠ [] := by
  rw [ledger_deposits, stakedIn]
  have hpos := h.amount_pos (drawOf k)
  cases hrows : idx.poolStakes (drawOf k) with
  | nil => simp
  | cons r rows =>
    rw [hrows] at hpos
    have hfirst := hpos r List.mem_cons_self
    have hrest : 0 ≤ sumInt (rows.map fun r => r.2.amount) := by
      refine sumInt_nonneg fun v hv => ?_
      obtain ⟨t, ht, rfl⟩ := List.mem_map.mp hv
      exact (hpos t (List.mem_cons_of_mem _ ht)).le
    simp only [List.map_cons, sumInt_cons, ne_eq, reduceCtorEq, not_false_eq_true, iff_true]
    omega

/-! ## A stake is a deposit -/

theorem stakedIn_putPoolStakeEntry {D : ℕ}
    (hfresh : ∀ r ∈ idx.poolStakes D, r.1 ≠ txHash) (D' : ℕ) :
    (idx.putPoolStakeEntry D txHash e).stakedIn D' =
      idx.stakedIn D' + if D' = D then e.amount.toInt else 0 := by
  unfold stakedIn putPoolStakeEntry
  by_cases h : D' = D
  · subst h
    have hperm := (Rows.put_perm txHash e hfresh).map fun r => r.2.amount
    simp only [if_true]
    rw [sumInt, (hperm.map Int64.toInt).sum_eq]
    simp only [List.map_cons, List.sum_cons, sumInt]
    omega
  · simp [h]

theorem Books.sum_le (h : idx.Books front) (hk : k < drawBound) :
    ∑ i ∈ range (k + 1), idx.ledger.deposits i < 2 ^ 63 :=
  (sum_le_sum_of_subset_of_nonneg (range_subset_range.mpr hk)
    fun i _ _ => h.sound.deposits_nonneg i).trans_lt h.fits

theorem toInt_add_held {p : RollingPots} {a b : Int64} (h : p.Sound front)
    (hfits : ∑ i ∈ range (k + 1), p.deposits i < 2 ^ 63)
    (hsum : p.held k = a.toInt + b.toInt) : (a + b).toInt = a.toInt + b.toInt := by
  have hlo := h.held_nonneg k
  have hhi := h.held_le k
  exact toInt_add_of_fits (by omega) (by omega)

theorem ledger_indexStake (h : idx.Books front) (hk : front ≤ k) (hbound : k < drawBound)
    (hfresh : ∀ r ∈ idx.poolStakes (drawOf k), r.1 ≠ txHash) (hpos : 0 < e.amount.toInt)
    (hfits : ∑ i ∈ range drawBound, idx.ledger.deposits i + e.amount.toInt < 2 ^ 63) :
    (idx.indexStake txHash (drawOf k, e)).ledger = idx.ledger.deposit k e.amount.toInt := by
  have hsound := h.sound.deposit hk hpos
  have hheld : (idx.getPoolBalance (drawOf k) + e.amount).toInt =
      (idx.getPoolBalance (drawOf k)).toInt + e.amount.toInt := by
    refine toInt_add_held hsound (k := k) ?_ (by grind)
    rw [← RollingPots.sum_deposit hbound] at hfits
    exact (sum_le_sum_of_subset_of_nonneg (range_subset_range.mpr hbound)
      fun i _ _ => hsound.deposits_nonneg i).trans_lt hfits
  have hstaked : ∀ D, (idx.indexStake txHash (drawOf k, e)).stakedIn D = _ :=
    stakedIn_putPoolStakeEntry hfresh
  have hbal : ∀ D, (idx.indexStake txHash (drawOf k, e)).getPoolBalance D = _ :=
    getPoolBalance_addToPoolBalance _ _ _
  ext j
  · grind
  · rw [ledger_held, hbal, RollingPots.deposit_held, ledger_held]
    by_cases hj : j = k
    · rw [hj, if_pos rfl, if_pos rfl]
      exact hheld
    · simp only [drawOf_inj, if_neg hj, add_zero]
      rfl
  · rfl

/-! ## The sweep -/

theorem Books.balance_ne_zero (h : idx.Books front) (hk : idx.poolStakes (drawOf k) ≠ []) :
    idx.getPoolBalance (drawOf k) ≠ 0 := by
  intro hzero
  have hpos := h.sound.held_pos (k := k) ((stakedIn_pos_iff h.rows _).mpr hk)
  rw [ledger_held, hzero] at hpos
  exact absurd hpos (by decide)

@[grind =]
theorem ledger_setPoolBalance_held (v : Int64) : (idx.setPoolBalance (drawOf k) v).ledger.held j =
      if j = k then v.toInt else idx.ledger.held j := by
  grind [ledger_held, getPoolBalance_setPoolBalance, drawOf_inj]

/-- The loop of `dbAbsorbIntermediateBalances` collects what lies below, and
clears the draws it took it from. -/
theorem absorbFrom_drawsBelow (k : ℕ) : ∀ {idx : StakeIndex} {total : Int64}, idx.RowsValid →
    (∀ i < k, idx.poolStakes (drawOf i) ≠ [] → idx.getPoolBalance (drawOf i) ≠ 0) →
    (∀ i < k, 0 ≤ idx.ledger.held i) → 0 ≤ total.toInt → total.toInt + idx.ledger.below k < 2 ^ 63 →
    (idx.absorbFrom total (drawsBelow k)).1.toInt = total.toInt + idx.ledger.below k ∧
      ∀ j, (idx.absorbFrom total (drawsBelow k)).2.ledger.held j =
        if j < k ∧ idx.ledger.Clear j k then 0 else idx.ledger.held j := by
  induction k with
  | zero =>
    intro idx total _ _ _ _ _
    exact ⟨(add_zero _).symm, fun j => (if_neg (by omega)).symm⟩
  | succ k ih =>
    intro idx total hrows hne hnonneg htotal hfits
    have hstaked := stakedIn_pos_iff hrows k
    rw [drawsBelow, absorbFrom]
    by_cases hzero : idx.getPoolBalance (drawOf k) = 0
    · -- nothing here: the draw has no stakers either
      have hempty : idx.poolStakes (drawOf k) = [] := by
        by_contra hrow
        exact hne k (by omega) hrow hzero
      have hheld : idx.ledger.held k = 0 := by simp [ledger_held, hzero]
      have hbelow : idx.ledger.below (k + 1) = idx.ledger.below k := by
        grind [RollingPots.below]
      rw [hbelow] at hfits ⊢
      rw [if_pos hzero]
      obtain ⟨hsum, hswept⟩ := ih hrows (fun i hi => hne i (by omega))
        (fun i hi => hnonneg i (by omega)) htotal hfits
      refine ⟨hsum, fun j => ?_⟩
      rw [hswept]
      grind
    · rw [if_neg hzero]
      by_cases hrow : idx.poolStakes (drawOf k) = []
      · -- a rolled-over balance: taken, and the walk goes on
        have hheld := hnonneg k (by omega)
        have hbelow : idx.ledger.below (k + 1) = idx.ledger.held k + idx.ledger.below k := by
          grind [RollingPots.below]
        have hrest := RollingPots.below_nonneg_of fun i hi => hnonneg i (Nat.lt_succ_of_lt hi)
        have hadd : (total + idx.getPoolBalance (drawOf k)).toInt =
            total.toInt + idx.ledger.held k := by
          rw [hbelow] at hfits
          rw [ledger_held] at hfits hheld ⊢
          exact toInt_add_of_fits (by omega) (by omega)
        have hsame : (idx.setPoolBalance (drawOf k) 0).ledger.below k = idx.ledger.below k :=
          RollingPots.below_congr (fun _ _ => rfl) (by grind)
        rw [if_neg (not_not.mpr hrow)]
        obtain ⟨hsum, hswept⟩ := @ih (idx.setPoolBalance (drawOf k) 0)
          (total + idx.getPoolBalance (drawOf k)) ⟨hrows.amount_pos, hrows.wallet_ne⟩
          (fun i hi hstake => by
            rw [getPoolBalance_setPoolBalance, if_neg (drawOf_inj.not.mpr (by omega))]
            exact hne i (by omega) hstake)
          (by grind) (by omega) (by omega)
        refine ⟨by omega, fun j => ?_⟩
        have hcl : (idx.setPoolBalance (drawOf k) 0).ledger.Clear j k ↔ idx.ledger.Clear j k :=
          RollingPots.clear_congr rfl
        rw [hswept]
        grind
      · grind [RollingPots.below]

theorem absorb_ledger (h : idx.Books front) (hk : k < drawBound)
    (hopen : idx.ledger.held k + idx.ledger.below k = idx.ledger.worth k) :
    (idx.absorbIntermediateBalances (drawOf k)).1.toInt = idx.ledger.worth k ∧
      ∀ j, (idx.absorbIntermediateBalances (drawOf k)).2.ledger.held j =
        if j < k ∧ idx.ledger.Clear j k then 0 else idx.ledger.held j := by
  have hworth := (h.sound.worth_le k).trans_lt (h.sum_le hk)
  rw [absorbIntermediateBalances, priorDraws_drawOf, ← hopen] at *
  exact absorbFrom_drawsBelow k h.rows (fun i _ => h.balance_ne_zero)
    (fun i _ => h.sound.held_nonneg i) (h.sound.held_nonneg k) hworth

/-! ## A result without stakers passes the balance on -/

theorem ledger_passOn (h : idx.Books front) (hk : k < front) (hbound : k + 1 < drawBound)
    (hrows : idx.poolStakes (drawOf k) = []) (hpos : 0 < idx.getPoolBalance (drawOf k))
    (seed : Hash) : (idx.runAndStoreDrawResult (drawOf k) seed).ledger = idx.ledger.passOn k := by
  have hd : idx.ledger.deposits k = 0 := by rw [ledger_deposits, stakedIn, hrows]; rfl
  have hheld : 0 < idx.ledger.held k := Int64.lt_iff_toInt_lt.mp hpos
  have hsound := h.sound.passOn hk hd hheld
  have hadd : (idx.getPoolBalance (drawOf (k + 1)) + idx.getPoolBalance (drawOf k)).toInt =
      idx.ledger.held (k + 1) + idx.ledger.held k :=
    toInt_add_held hsound (h.sum_le hbound) (by grind)
  rw [runAndStoreDrawResult, if_pos hrows]
  simp only [if_pos hpos, nextDraw_drawOf hbound]
  ext j
  · rfl
  · rw [ledger_setPoolBalance_held, ledger_held, getPoolBalance_addToPoolBalance,
      RollingPots.passOn_held]
    by_cases hj : j = k + 1
    · rw [hj, if_pos rfl, if_pos rfl]
      exact congrArg _ hadd
    · simp only [drawOf_inj, if_neg hj, add_zero]
      rfl
  · rw [ledger_outcome, RollingPots.passOn_outcome]
    by_cases hj : j = k
    · simp [hj]
    · simp [hj, ledger_outcome, Bucket.get_put_of_ne _ _ (drawOf_inj.not.mpr hj)]

/-! ## A result with stakers settles the draw -/

theorem runAndStoreDrawResult_balance {D : ℕ} (seed : Hash) (hrows : idx.poolStakes D ≠ [])
    (hpos : 0 < (idx.absorbIntermediateBalances D).1) (D' : ℕ) :
    (idx.runAndStoreDrawResult D seed).getPoolBalance D' =
      if D' = D then (idx.absorbIntermediateBalances D).1
      else if D' = nextDraw D ∧ (idx.outcome D seed).jackpotWon = false then
        (idx.absorbIntermediateBalances D).2.getPoolBalance (nextDraw D) +
          (idx.absorbIntermediateBalances D).1
      else (idx.absorbIntermediateBalances D).2.getPoolBalance D' := by
  have hne := nextDraw_ne D
  have hres : runDraw (idx.fetchPoolStakeEntries D) seed = idx.outcome D seed := rfl
  rw [runAndStoreDrawResult, if_neg hrows]
  simp only [hres]
  cases (idx.outcome D seed).jackpotWon with
  | false =>
    rw [if_pos ⟨rfl, hpos⟩, getPoolBalance_addToPoolBalance, getPoolBalance_putDrawResultMeta,
      getPoolBalance_putDrawResultMeta, getPoolBalance_setPoolBalance,
      getPoolBalance_setPoolBalance, if_neg hne]
    by_cases hD : D' = D
    · rw [if_neg (hD ▸ hne.symm), if_pos hD, if_pos hD]
    · simp [hD]
  | true =>
    rw [if_neg (by simp), getPoolBalance_putDrawResultMeta, getPoolBalance_setPoolBalance,
      if_neg (c := D' = nextDraw D ∧ true = false) (by simp)]

theorem ledger_settle (h : idx.Books front) (hk : k < front) (hbound : k + 1 < drawBound)
    (hrows : idx.poolStakes (drawOf k) ≠ []) (hopen : idx.ledger.outcome k = none) (seed : Hash)
    (hnext : (idx.outcome (drawOf k) seed).jackpotWon = false → idx.ledger.NextOpen k) :
    (idx.runAndStoreDrawResult (drawOf k) seed).ledger =
      idx.ledger.settle k (idx.outcome (drawOf k) seed).jackpotWon := by
  have hd : 0 < idx.ledger.deposits k := (stakedIn_pos_iff h.rows _).mpr hrows
  have hworth : idx.ledger.held k + idx.ledger.below k = idx.ledger.worth k :=
    h.sound.open_eq k hopen (.inl hd)
  obtain ⟨hfull, hswept⟩ := absorb_ledger h (by omega) hworth
  have hpos : 0 < (idx.absorbIntermediateBalances (drawOf k)).1 := by
    have := h.sound.carry_nonneg k
    rw [Int64.lt_iff_toInt_lt, hfull, RollingPots.worth, Int64.toInt_zero]
    omega
  have hsound := h.sound.settle hk hd hopen hnext
  have hbal := runAndStoreDrawResult_balance seed hrows hpos
  rw [nextDraw_drawOf hbound] at hbal
  simp only [ledger_held] at hswept
  generalize idx.absorbIntermediateBalances (drawOf k) = swept at hfull hswept hbal
  ext j
  · rw [ledger_deposits, stakedIn, runAndStoreDrawResult_poolStakes]
    rfl
  · have hheld : (idx.ledger.settle k (idx.outcome (drawOf k) seed).jackpotWon).held j = _ :=
      RollingPots.settle_held
    by_cases hnew : j = k + 1 ∧ (idx.outcome (drawOf k) seed).jackpotWon = false
    · -- the next draw, which a rollover adds to
      obtain ⟨rfl, hlost⟩ := hnew
      have hsum : (swept.2.getPoolBalance (drawOf (k + 1)) + swept.1).toInt = _ + _ :=
        toInt_add_held hsound (h.sum_le hbound) (by grind [RollingPots.rolled])
      grind [RollingPots.rolled]
    · grind [RollingPots.rolled]
  · rw [ledger_outcome, runAndStoreDrawResult_staked _ _ _ hrows, RollingPots.settle_outcome]
    by_cases hj : j = k
    · simp [hj]
    · simp [hj, ledger_outcome, Bucket.get_put_of_ne _ _ (drawOf_inj.not.mpr hj)]

/-! ## The recursion over earlier draws -/

theorem hasRealStakers_iff (h : idx.RowsValid) (D : ℕ) :
    idx.hasRealStakers D = true ↔ idx.poolStakes D ≠ [] := by
  unfold hasRealStakers
  rw [List.any_eq_true]
  constructor
  · rintro ⟨r, hr, _⟩
    exact List.ne_nil_of_mem hr
  · intro hne
    obtain ⟨r, hr⟩ := List.exists_mem_of_ne_nil _ hne
    exact ⟨r, hr, decide_eq_true (h.wallet_ne D r hr)⟩

theorem rolloverSource_ledger (h : idx.Books front) (k : ℕ) :
    (idx.rolloverSource (drawsBelow k) = none ∧ idx.ledger.carry k = 0) ∨
      ∃ i < k, idx.rolloverSource (drawsBelow k) = some (drawOf i) ∧
        0 < idx.ledger.deposits i ∧ idx.ledger.outcome i = some false ∧
        idx.ledger.carry k = idx.ledger.held i := by
  induction k with
  | zero => exact .inl ⟨rfl, rfl⟩
  | succ k ih =>
    rw [drawsBelow, rolloverSource, RollingPots.carry]
    have hreal := hasRealStakers_iff h.rows (drawOf k)
    have hstaked := stakedIn_pos_iff h.rows k
    by_cases hrows : idx.poolStakes (drawOf k) = []
    · grind
    · grind

theorem carry_eq_zero_iff (h : idx.Books front) (k : ℕ) :
    idx.ledger.carry k = 0 ↔ idx.rolloverSource (priorDraws (drawOf k)) = none := by
  rw [priorDraws_drawOf]
  rcases rolloverSource_ledger h k with ⟨hnone, hcarry⟩ | ⟨i, _, hsome, hpos, _, hcarry⟩
  · simp [hnone, hcarry]
  · have := h.sound.held_pos hpos
    rw [hsome, hcarry]
    simp only [reduceCtorEq, iff_false]
    omega

theorem newStakes_toInt (h : idx.Books front) (hk : k < drawBound) :
    (idx.newStakes (drawOf k)).toInt = idx.ledger.deposits k := by
  have hall : (idx.fetchPoolStakeEntries (drawOf k)).filter
      (fun e => e.walletHash ≠ jackpotPoolWalletHash) = idx.fetchPoolStakeEntries (drawOf k) := by
    refine List.filter_eq_self.mpr fun e he => ?_
    obtain ⟨r, hr, rfl⟩ := List.mem_map.mp he
    exact decide_eq_true (h.rows.wallet_ne _ r hr)
  have hsum : sumInt ((idx.fetchPoolStakeEntries (drawOf k)).map StakeEntry.totalValue) =
      idx.ledger.deposits k := by
    rw [ledger_deposits, stakedIn, fetchPoolStakeEntries, List.map_map]
    rfl
  have hlo := h.sound.deposits_nonneg k
  have hhi := h.sum_le hk
  have hle : idx.ledger.deposits k ≤ ∑ i ∈ range (k + 1), idx.ledger.deposits i :=
    single_le_sum (fun i _ => h.sound.deposits_nonneg i) (mem_range.mpr k.lt_succ_self)
  rw [newStakes, hall, toInt_sum64_of_fits (by omega) (by omega), hsum]

/-- `ReconstructPoolBalance` of a draw that is not settled: what was staked in
it and what it is owed. -/
theorem reconstruct_toInt (h : idx.Books front) (hk : k < drawBound)
    (hopen : idx.drawResults.get (drawOf k) = none) :
    (idx.reconstructPoolBalance (drawOf k)).toInt = idx.ledger.worth k := by
  have hstakes := newStakes_toInt h hk
  have hlo := h.sound.worth_nonneg k
  have hhi := (h.sound.worth_le k).trans_lt (h.sum_le hk)
  unfold reconstructPoolBalance
  rw [reconstructFuel, hopen, priorDraws_drawOf]
  unfold RollingPots.worth at *
  rcases rolloverSource_ledger h k with ⟨hnone, hcarry⟩ | ⟨i, hi, hsome, _, hroll, hcarry⟩
  · rw [hnone, hcarry, add_zero]
    exact hstakes
  · -- the recursive call is for a settled draw, so it reads the stored balance
    have hsettled : (idx.drawResults.get (drawOf i)).isSome = true := by
      rw [ledger_outcome] at hroll
      cases hres : idx.drawResults.get (drawOf i) with
      | none => simp [hres] at hroll
      | some m => rfl
    obtain ⟨fuel, hfuel⟩ : ∃ fuel, drawOf k = fuel + 1 :=
      Nat.exists_eq_succ_of_ne_zero (by unfold drawOf drawInterval; omega)
    rw [hsome]
    simp only [Option.isSome_none, Bool.false_eq_true, if_false]
    rw [hfuel, reconstructFuel, if_pos hsettled, ← hfuel]
    rw [hcarry, ← hstakes, ledger_held] at hlo hhi ⊢
    exact toInt_add_of_fits (by omega) hhi

/-! ## The books are kept -/

def totalStaked (idx : StakeIndex) : ℤ := ∑ k ∈ range drawBound, idx.ledger.deposits k

def totalWon (idx : StakeIndex) : ℤ := idx.ledger.prizes drawBound

theorem mem_indexStake {D D' : ℕ} {r : Hash × PoolStake}
    (hr : r ∈ (idx.indexStake txHash (D, e)).poolStakes D') :
    (r = (txHash, e) ∧ D' = D) ∨ r ∈ idx.poolStakes D' := by
  have hrows : (idx.indexStake txHash (D, e)).poolStakes D' =
      if D' = D then Rows.put txHash e (idx.poolStakes D') else idx.poolStakes D' := rfl
  rw [hrows] at hr
  split at hr
  case isTrue hD => exact (Rows.mem_put hr).imp_left fun h => ⟨h, hD⟩
  case isFalse => exact .inr hr

theorem books_indexStake (h : idx.Books front) (hk : front ≤ k) (hbound : k < drawBound)
    (hfresh : ∀ r ∈ idx.poolStakes (drawOf k), r.1 ≠ txHash) (hpos : 0 < e.amount.toInt)
    (hwallet : e.walletHash ≠ jackpotPoolWalletHash)
    (hfits : idx.totalStaked + e.amount.toInt < 2 ^ 63) :
    (idx.indexStake txHash (drawOf k, e)).Books front ∧
      (idx.indexStake txHash (drawOf k, e)).totalStaked = idx.totalStaked + e.amount.toInt ∧
      (idx.indexStake txHash (drawOf k, e)).totalWon = idx.totalWon := by
  have hledger := ledger_indexStake h hk hbound hfresh hpos hfits
  have htotal : (idx.indexStake txHash (drawOf k, e)).totalStaked =
      idx.totalStaked + e.amount.toInt := by
    unfold totalStaked
    rw [hledger, RollingPots.sum_deposit hbound]
  refine ⟨⟨⟨?_, ?_⟩, ?_, ?_⟩, htotal, ?_⟩
  · intro D r hr
    rcases mem_indexStake hr with ⟨rfl, _⟩ | hr
    · exact hpos
    · exact h.rows.amount_pos D r hr
  · intro D r hr
    rcases mem_indexStake hr with ⟨rfl, _⟩ | hr
    · exact hwallet
    · exact h.rows.wallet_ne D r hr
  · rw [hledger]
    exact h.sound.deposit hk hpos
  · exact htotal.trans_lt hfits
  · unfold totalWon
    rw [hledger, RollingPots.prizes_deposit h.sound hk]

/-- The nearest later draw with stakers has no result yet. -/
def RollsForward (idx : StakeIndex) (k : ℕ) : Prop :=
  ∀ j, k < j → idx.poolStakes (drawOf j) ≠ [] →
    (∀ i < j, k < i → idx.poolStakes (drawOf i) = []) → idx.drawResults.get (drawOf j) = none

theorem RollsForward.nextOpen (h : idx.RollsForward k) (hrows : idx.RowsValid) :
    idx.ledger.NextOpen k := by
  intro j hj hpos hclear
  have hres : idx.drawResults.get (drawOf j) = none := by
    refine h j hj ((stakedIn_pos_iff hrows _).mp hpos) fun i hi hki => ?_
    by_contra hrow
    exact hclear i hi hki ((stakedIn_pos_iff hrows _).mpr hrow)
  rw [ledger_outcome, hres]
  rfl

theorem ledger_runAndStore (h : idx.Books front) (hk : k < front) (hbound : k + 1 < drawBound)
    (hopen : idx.drawResults.get (drawOf k) = none) (seed : Hash)
    (hnext : idx.poolStakes (drawOf k) ≠ [] →
      (idx.outcome (drawOf k) seed).jackpotWon = false → idx.RollsForward k) :
    (idx.runAndStoreDrawResult (drawOf k) seed).ledger.Sound front ∧
      (idx.runAndStoreDrawResult (drawOf k) seed).totalWon = idx.totalWon +
        if (idx.outcome (drawOf k) seed).jackpotWon then idx.ledger.worth k else 0 := by
  unfold totalWon
  by_cases hrows : idx.poolStakes (drawOf k) = []
  · have hlost : (idx.outcome (drawOf k) seed).jackpotWon = false := by
      rw [outcome, fetchPoolStakeEntries, hrows]
      rfl
    rw [hlost, if_neg Bool.false_ne_true, add_zero]
    by_cases hpos : 0 < idx.getPoolBalance (drawOf k)
    · have hd : idx.ledger.deposits k = 0 := by
        rw [ledger_deposits, stakedIn, hrows]
        rfl
      have hheld : 0 < idx.ledger.held k := Int64.lt_iff_toInt_lt.mp hpos
      rw [ledger_passOn h hk hbound hrows hpos]
      exact ⟨h.sound.passOn hk hd hheld, RollingPots.prizes_passOn h.sound hd hheld⟩
    · -- nothing to pass on: the index stays as it is
      rw [runAndStoreDrawResult_empty _ _ _ hrows, if_neg hpos]
      exact ⟨h.sound, rfl⟩
  · have hd : 0 < idx.ledger.deposits k := (stakedIn_pos_iff h.rows _).mpr hrows
    have hnone : idx.ledger.outcome k = none := by
      rw [ledger_outcome, hopen]
      rfl
    have hroll := fun hlost => (hnext hrows hlost).nextOpen h.rows
    rw [ledger_settle h hk hbound hrows hnone seed hroll]
    exact ⟨h.sound.settle hk hd hnone hroll,
      RollingPots.prizes_settle h.sound hd hnone hroll (by omega)⟩

def seedOf (d : VDFResultData) : Hash := drawSeed d.drawBlockHash d.vdfOutput

theorem books_applyResult {d : VDFResultData} (h : idx.Books front) (hk : k < front)
    (hbound : k + 1 < drawBound) (hD : d.drawHeight = drawOf k)
    (hopen : idx.drawResults.get (drawOf k) = none) (hnext : idx.poolStakes (drawOf k) ≠ [] →
      (idx.outcome (drawOf k) (seedOf d)).jackpotWon = false → idx.RollsForward k)
    (height : ℕ) (hash : Hash) :
    (applyResult height hash idx d).Books front ∧
      (applyResult height hash idx d).totalStaked = idx.totalStaked ∧
      (applyResult height hash idx d).totalWon = idx.totalWon +
        if (idx.outcome (drawOf k) (seedOf d)).jackpotWon then idx.ledger.worth k else 0 := by
  have hstakes : (applyResult height hash idx d).ledger.deposits = idx.ledger.deposits := by
    grind [ledger_deposits, stakedIn, applyResult_poolStakes]
  have hvalid : (applyResult height hash idx d).RowsValid := by
    refine ⟨?_, ?_⟩ <;> rw [applyResult_poolStakes]
    · exact h.rows.amount_pos
    · exact h.rows.wallet_ne
  have htotal : (applyResult height hash idx d).totalStaked = idx.totalStaked := by
    unfold totalStaked
    rw [hstakes]
  -- the VDF record is no part of the books
  have hbooks : (idx.putVDFResult d.drawHeight height hash d.T d.vdfOutput).Books front :=
    ⟨⟨h.rows.amount_pos, h.rows.wallet_ne⟩, h.sound, h.fits⟩
  obtain ⟨hsound, hwon⟩ := ledger_runAndStore hbooks hk hbound hopen (seedOf d) hnext
  rw [← hD] at hsound hwon
  exact ⟨⟨hvalid, hsound, htotal.trans_lt h.fits⟩, htotal, hD ▸ hwon⟩

end StakeIndex

end FalconDraw.Draw
