/-
FalconDraw.Draw.UndoTheorems — does disconnecting a block undo connecting it in the
staking index?

Wallet counts never come down, so a block that indexes a stake is never undone.
-/
import FalconDraw.Draw.StakeIndexTheorems

namespace FalconDraw.Draw

open Lib Wire List

namespace StakeIndex

variable {block : Block} {idx : StakeIndex}

/-! ## The two walks over the results of a block -/

def undoResult (idx : StakeIndex) (d : VDFResultData) : StakeIndex :=
  let idx₁ := idx.deleteVDFResult d.drawHeight
  match idx₁.drawResults.get d.drawHeight with
  | none => idx₁
  | some m =>
      let idx₂ := idx₁.deleteDrawResultMeta d.drawHeight
      let rolledBal := idx₂.getPoolBalance (nextDraw d.drawHeight)
      if m.jackpotWon = false ∧ 0 < rolledBal then
        (idx₂.setPoolBalance d.drawHeight rolledBal).setPoolBalance (nextDraw d.drawHeight) 0
      else idx₂

/-- No transaction of the block is a stake. -/
def StakeFree (block : Block) : Prop := ∀ tx ∈ block.transactions, isPoolStakingTx tx = false

theorem staking_of_version {tx : Tx} (h : isPoolStakingTx tx = false)
    (hv : tx.msgTx.version = txVersionPoolStake) : findPoolStakingOpReturn tx.msgTx = none := by
  simpa [isPoolStakingTx, hv] using h

theorem connectTx_of_stakeFree (idx : StakeIndex) (height : Nat) (hash : Hash) {tx : Tx}
    (h : isPoolStakingTx tx = false) :
    connectTx height hash idx tx = match resultData tx with
      | none => idx
      | some d => applyResult height hash idx d := by
  grind [stakeOf, connectTx_eq]

theorem disconnectTx_of_stakeFree (idx : StakeIndex) {tx : Tx} (h : isPoolStakingTx tx = false) :
    idx.disconnectTx tx = match resultData tx with
      | none => idx
      | some d => idx.undoResult d := by
  unfold disconnectTx
  split
  case isTrue hv =>
    have hnone : resultData tx = none := by
      simp [resultData, isVDFResultTx, hv, txVersionPoolStake, txVersionVDFResult]
    rw [hnone, disconnectStake, staking_of_version h hv]
  case isFalse =>
    split
    case isTrue hv =>
      have hres : isVDFResultTx tx = true := by simpa [isVDFResultTx] using hv
      unfold disconnectVDFResult resultData
      rw [hres]
      cases extractVDFResultData tx with
      | error e => rfl
      | ok d => rfl
    case isFalse hv => grind [resultData, isVDFResultTx]

theorem walks_of_stakeFree (h : StakeFree block) (idx : StakeIndex) : idx.connectBlock block =
        (blockResults block).foldl (applyResult block.height block.hash) idx ∧
      idx.disconnectBlock block = (blockResults block).foldl undoResult idx := by
  unfold connectBlock disconnectBlock blockResults
  unfold StakeFree at h
  revert h idx
  induction block.transactions with
  | nil => exact fun _ _ => ⟨rfl, rfl⟩
  | cons tx txs ih => grind [connectTx_of_stakeFree, disconnectTx_of_stakeFree]

/-! ## Counts only go up -/

theorem indexStake_count (idx : StakeIndex) (txHash : Hash) (s : Nat × PoolStake) (D : Nat)
    (w : WalletHash) :
    (idx.indexStake txHash s).getWalletStakeCount D w = if D = s.1 ∧ w = s.2.walletHash then
        min (idx.getWalletStakeCount s.1 s.2.walletHash + 1) 255
          ⊔ idx.getWalletStakeCount s.1 s.2.walletHash
      else idx.getWalletStakeCount D w := by
  rw [indexStake, getWalletStakeCount_incrWalletStakeCount, getWalletStakeCount_addToPoolBalance,
    getWalletStakeCount_putPoolStakeEntry, getWalletStakeCount_addToPoolBalance,
    getWalletStakeCount_putPoolStakeEntry]

theorem connectTx_count_le (height : Nat) (hash : Hash) (idx : StakeIndex) (tx : Tx) (D : Nat)
    (w : WalletHash) :
    idx.getWalletStakeCount D w ≤ (connectTx height hash idx tx).getWalletStakeCount D w := by
  rw [connectTx_eq]
  cases resultData tx with
  | some d =>
    unfold getWalletStakeCount
    rw [applyResult_stakeCounts]
  | none => grind [indexStake_count]

theorem connectTxs_count_le (height : Nat) (hash : Hash) (txs : List Tx) (D : Nat)
    (w : WalletHash) : ∀ idx : StakeIndex, idx.getWalletStakeCount D w ≤
      (txs.foldl (connectTx height hash) idx).getWalletStakeCount D w := by
  induction txs with
  | nil => exact fun idx => le_refl _
  | cons tx txs ih =>
    intro idx
    exact (connectTx_count_le height hash idx tx D w).trans (ih _)

theorem connectTx_count_lt (height : Nat) (hash : Hash) {tx : Tx}
    {s : Nat × PoolStake} (hs : stakeOf height tx = some s) (hlimit : ¬ idx.OverLimit s) :
    idx.getWalletStakeCount s.1 s.2.walletHash <
      (connectTx height hash idx tx).getWalletStakeCount s.1 s.2.walletHash := by
  have hnone : resultData tx = none := by
    have hstake : isPoolStakingTx tx = true := by rw [← stakeOf_isSome height, hs]; rfl
    simp only [isPoolStakingTx, Bool.and_eq_true, beq_iff_eq] at hstake
    simp [resultData, isVDFResultTx, hstake.1, txVersionPoolStake, txVersionVDFResult]
  rw [connectTx_eq, hnone, hs]
  simp only [if_neg hlimit]
  rw [indexStake_count, if_pos ⟨rfl, rfl⟩]
  simp only [OverLimit, maxStakesPerWalletPerDraw] at hlimit
  omega

/-! ## One VDF result -/

/-- The balances after undoing a draw recorded as `m`. -/
def undoBalances (m : Option DrawResultMeta) (D : Nat) (pb : Bucket Nat Int64) :
    Bucket Nat Int64 :=
  match m with
  | none => pb
  | some m =>
      if m.jackpotWon = false ∧ 0 < (pb.get (nextDraw D)).getD 0 then
        (pb.put D ((pb.get (nextDraw D)).getD 0)).put (nextDraw D) 0
      else pb

theorem undoResult_eq (idx : StakeIndex) (d : VDFResultData) : idx.undoResult d = { idx with
      vdfResults := idx.vdfResults.delete d.drawHeight
      drawResults := idx.drawResults.delete d.drawHeight
      poolBalance := undoBalances (idx.drawResults.get d.drawHeight) d.drawHeight
        idx.poolBalance } := by
  unfold undoResult undoBalances
  have hmeta : (idx.deleteVDFResult d.drawHeight).drawResults = idx.drawResults := rfl
  simp only [hmeta]
  cases hm : idx.drawResults.get d.drawHeight with
  | none =>
    simp only [Bucket.delete_of_none _ hm]
    rfl
  | some m =>
    have hbal : ((idx.deleteVDFResult d.drawHeight).deleteDrawResultMeta
        d.drawHeight).getPoolBalance (nextDraw d.drawHeight) =
          (idx.poolBalance.get (nextDraw d.drawHeight)).getD 0 := rfl
    simp only [hbal]
    by_cases h : m.jackpotWon = false ∧ 0 < (idx.poolBalance.get (nextDraw d.drawHeight)).getD 0
    · rw [if_pos h, if_pos h]
      rfl
    · rw [if_neg h, if_neg h]
      rfl

theorem undoBalances_other (m : Option DrawResultMeta) {D k : Nat} (pb : Bucket Nat Int64)
    (hD : k ≠ D) (hN : k ≠ nextDraw D) : (undoBalances m D pb).get k = pb.get k := by
  unfold undoBalances
  split
  · rfl
  · grind [Bucket.get_put_of_ne]

/-- The nearest earlier draw that holds a balance, if there is one, has stakers:
a sweep from here takes nothing. -/
def NothingStranded (idx : StakeIndex) (D : Nat) : Prop :=
  ∀ h, (priorDraws D).find? (fun h => idx.getPoolBalance h ≠ 0) = some h → idx.poolStakes h ≠ []

theorem absorbFrom_nothing (hs : List Nat) {total : Int64}
    (h : ∀ x, hs.find? (fun h => idx.getPoolBalance h ≠ 0) = some x → idx.poolStakes x ≠ []) :
    idx.absorbFrom total hs = (total, idx) := by
  induction hs with
  | nil => rfl
  | cons x hs ih => grind [absorbFrom]

theorem absorbFrom_stranded {x : Nat} (hs : List Nat) {total : Int64}
    (h : hs.find? (fun h => idx.getPoolBalance h ≠ 0) = some x) (hx : idx.poolStakes x = []) :
    (idx.absorbFrom total hs).2.poolBalance.get x = some 0 := by
  induction hs with
  | nil => simp at h
  | cons y hs ih =>
    unfold absorbFrom
    split
    case isTrue h0 =>
      rw [find?_cons_of_neg (by simpa using h0)] at h
      exact ih h
    case isFalse h0 =>
      rw [find?_cons_of_pos (by simpa using h0), Option.some.injEq] at h
      subst h
      rw [if_neg (by simpa using hx)]
      apply absorbFrom_keeps_zero
      rw [setPoolBalance_poolBalance, Bucket.get_put_self]

theorem get_of_getPoolBalance_ne {D : Nat} (h : idx.getPoolBalance D ≠ 0) :
    idx.poolBalance.get D = some (idx.getPoolBalance D) := by
  unfold getPoolBalance at h ⊢
  cases hg : idx.poolBalance.get D with
  | none => simp [hg] at h
  | some v => rfl

/-- The conditions on the balances before a VDF result under which undoing it
restores them. -/
def BalancesUndoable (idx : StakeIndex) (D : Nat) (seed : Hash) : Prop :=
  if idx.poolStakes D = [] then
    0 < idx.getPoolBalance D → idx.poolBalance.get (nextDraw D) = some 0
  else
    NothingStranded idx D ∧ idx.poolBalance.get D ≠ none ∧
      ((idx.outcome D seed).jackpotWon = false →
        if 0 < idx.getPoolBalance D then idx.poolBalance.get (nextDraw D) = some 0
        else ¬ 0 < idx.getPoolBalance (nextDraw D))

/-- A positive balance rolled into the next draw comes back exactly when the next
draw held an explicit zero. -/
theorem rolled_back_iff {pb rolled : Bucket Nat Int64} {D : Nat} {bal : Int64} (hbal : 0 < bal)
    (hD : pb.get D = some bal)
    (hN : rolled.get (nextDraw D) = some ((pb.get (nextDraw D)).getD 0 + bal))
    (hother : ∀ k, k ≠ D → k ≠ nextDraw D → rolled.get k = pb.get k) (w : WalletHash) :
    undoBalances (some ⟨false, w⟩) D rolled = pb ↔ pb.get (nextDraw D) = some 0 := by
  have hne := nextDraw_ne D
  simp only [undoBalances, true_and, hN, Option.getD_some]
  constructor
  · intro h
    split at h
    · rw [← h, Bucket.get_put_self]
    · -- untouched, the next draw would hold its own balance and more
      subst h
      have hzero : bal = 0 := by
        rw [hN, Option.getD_some, Option.some.injEq] at hN
        exact Int64.left_eq_add.mp hN
      rw [hzero] at hbal
      exact absurd hbal (by decide)
  · intro h0
    rw [h0, Option.getD_some, Int64.zero_add, if_pos hbal]
    ext1 k
    rw [Bucket.get_put]
    split
    case isTrue hk => rw [hk, h0]
    case isFalse hk =>
      rw [Bucket.get_put]
      split
      case isTrue hkD => rw [hkD, hD]
      case isFalse hkD => exact hother k hkD hk

theorem undoBalances_staked_iff (idx : StakeIndex) (D : Nat) (won : Bool) (w : WalletHash) :
    undoBalances (some ⟨won, w⟩) D
        (let swept := idx.poolBalance.put D (idx.getPoolBalance D)
         if won = false ∧ 0 < idx.getPoolBalance D then
           swept.put (nextDraw D) ((swept.get (nextDraw D)).getD 0 + idx.getPoolBalance D)
         else swept) = idx.poolBalance ↔
      idx.poolBalance.get D ≠ none ∧ (won = false →
          if 0 < idx.getPoolBalance D then idx.poolBalance.get (nextDraw D) = some 0
          else ¬ 0 < idx.getPoolBalance (nextDraw D)) := by
  have hne := nextDraw_ne D
  have hkept : idx.poolBalance.put D (idx.getPoolBalance D) = idx.poolBalance ↔
      idx.poolBalance.get D ≠ none := by
    rw [Bucket.put_eq_self_iff, getPoolBalance]
    cases idx.poolBalance.get D <;> simp
  have hswept : (idx.poolBalance.put D (idx.getPoolBalance D)).get (nextDraw D) =
      idx.poolBalance.get (nextDraw D) := Bucket.get_put_of_ne _ _ hne
  cases won with
  | true =>
    simp only [Bool.true_eq_false, false_and, if_false, false_imp_iff, and_true]
    simp only [undoBalances, Bool.true_eq_false, false_and, if_false]
    exact hkept
  | false =>
    by_cases hbal : 0 < idx.getPoolBalance D
    · have hget := get_of_getPoolBalance_ne (Int64.ne_of_lt hbal).symm
      simp only [hbal, and_self, if_true, true_imp_iff, hswept]
      rw [rolled_back_iff hbal hget (Bucket.get_put_self _ _ _) ?_ w]
      · simp [hget]
      · intro k hkD hkN
        rw [Bucket.get_put_of_ne _ _ hkN, Bucket.get_put_of_ne _ _ hkD]
    · simp only [hbal, and_false, if_false, true_imp_iff]
      have hread : (idx.poolBalance.get (nextDraw D)).getD 0 =
          idx.getPoolBalance (nextDraw D) := rfl
      simp only [undoBalances, true_and, hswept, hread]
      by_cases hnext : 0 < idx.getPoolBalance (nextDraw D)
      · -- the undo would take the next draw's own balance
        have hget := get_of_getPoolBalance_ne (Int64.ne_of_lt hnext).symm
        rw [if_pos hnext]
        constructor
        · intro h
          have hat : _ = idx.poolBalance.get (nextDraw D) := congrArg (·.get (nextDraw D)) h
          rw [Bucket.get_put_self, hget, Option.some.injEq] at hat
          exact absurd hat (Int64.ne_of_lt hnext)
        · exact fun h => absurd hnext h.2
      · rw [if_neg hnext, hkept]
        exact (and_iff_left hnext).symm

theorem undoBalances_iff (idx : StakeIndex) {D : Nat} (hD : D < 2 ^ 32) (seed : Hash)
    (hmeta : idx.drawResults.get D = none) :
    undoBalances ((idx.runAndStoreDrawResult D seed).drawResults.get D) D
        (idx.runAndStoreDrawResult D seed).poolBalance = idx.poolBalance ↔
      BalancesUndoable idx D seed := by
  have hne := nextDraw_ne D
  unfold BalancesUndoable
  by_cases hempty : idx.poolStakes D = []
  · rw [runAndStoreDrawResult_empty idx D seed hempty, if_pos hempty]
    by_cases hbal : 0 < idx.getPoolBalance D
    · have hget := get_of_getPoolBalance_ne (Int64.ne_of_lt hbal).symm
      rw [if_pos hbal]
      simp only [Bucket.get_put_self, hbal, true_imp_iff]
      refine rolled_back_iff hbal hget ?_ ?_ 0
      · rw [Bucket.get_put_of_ne _ _ hne, Bucket.get_put_self]
        rfl
      · intro k hkD hkN
        rw [Bucket.get_put_of_ne _ _ hkD, Bucket.get_put_of_ne _ _ hkN]
    · rw [if_neg hbal]
      simp [undoBalances, hmeta, hbal]
  · rw [runAndStoreDrawResult_staked idx D seed hempty, if_neg hempty]
    simp only [Bucket.get_put_self]
    by_cases hstranded : NothingStranded idx D
    · rw [absorbIntermediateBalances, absorbFrom_nothing _ hstranded]
      simp only [hstranded, true_and]
      exact undoBalances_staked_iff idx D _ _
    · -- a swept draw stays at zero
      simp only [hstranded, false_and, iff_false]
      simp only [NothingStranded, not_forall, not_not] at hstranded
      obtain ⟨h, hfind, hnone⟩ := hstranded
      have hmem := mem_of_find?_eq_some hfind
      have hhD : h ≠ D := (mem_priorDraws D hmem).2.ne
      have hhN : h ≠ nextDraw D := fun heq => nextDraw_not_mem_priorDraws D hD (heq ▸ hmem)
      have hbal : idx.getPoolBalance h ≠ 0 := by simpa using find?_some hfind
      have hzero : (idx.absorbFrom (idx.getPoolBalance D) (priorDraws D)).2.poolBalance.get h =
          some 0 := absorbFrom_stranded _ hfind hnone
      intro heq
      have hat : (undoBalances _ D _).get h = idx.poolBalance.get h := congrArg (·.get h) heq
      rw [undoBalances_other _ _ hhD hhN, get_of_getPoolBalance_ne hbal] at hat
      apply hbal
      split at hat
      · grind [Bucket.get_put_of_ne, absorbIntermediateBalances]
      · rw [Bucket.get_put_of_ne _ _ hhD, absorbIntermediateBalances, hzero] at hat
        exact (Option.some.inj hat).symm

/-- Undoing one VDF result right after it was connected restores the index
exactly when the draw had no records and its balances are undoable. -/
theorem undoResult_applyResult_iff (height : Nat) (hash : Hash) (idx : StakeIndex)
    (d : VDFResultData) (hD : d.drawHeight < 2 ^ 32) :
    (applyResult height hash idx d).undoResult d = idx ↔
      idx.vdfResults.get d.drawHeight = none ∧ idx.drawResults.get d.drawHeight = none ∧
        BalancesUndoable idx d.drawHeight (drawSeed d.drawBlockHash d.vdfOutput) := by
  -- the two record buckets
  have hrecord : (applyResult height hash idx d).vdfResults.delete d.drawHeight = idx.vdfResults ↔
      idx.vdfResults.get d.drawHeight = none := by
    rw [applyResult_vdfResults]
    constructor
    · intro h
      rw [← h, Bucket.get_delete_self]
    · exact Bucket.delete_put _ _
  have hmeta : (applyResult height hash idx d).drawResults.delete d.drawHeight = idx.drawResults ↔
      idx.drawResults.get d.drawHeight = none := by
    constructor
    · intro h
      rw [← h, Bucket.get_delete_self]
    · intro h
      ext1 D'
      by_cases hD' : D' = d.drawHeight
      · rw [hD', Bucket.get_delete_self, h]
      · rw [Bucket.get_delete_of_ne _ hD', applyResult_drawResults idx D' height hash hD']
  rw [undoResult_eq, StakeIndex.ext_iff, applyResult_poolStakes, applyResult_stakeCounts, hrecord,
    hmeta]
  -- the balances, read on the index with the new VDF record, which they ignore
  have hbal : ∀ h : idx.drawResults.get d.drawHeight = none, _ :=
    fun h => undoBalances_iff (idx.putVDFResult d.drawHeight height hash d.T d.vdfOutput) hD
      (drawSeed d.drawBlockHash d.vdfOutput) h
  constructor
  · rintro ⟨_, hb, _, hm, hr⟩
    exact ⟨hr, hm, (hbal hm).mp hb⟩
  · rintro ⟨hr, hm, hb⟩
    exact ⟨rfl, (hbal hm).mpr hb, rfl, hm, hr⟩

/-! ## A block -/

theorem disconnectTx_stakeCounts (idx : StakeIndex) (tx : Tx) :
    (idx.disconnectTx tx).stakeCounts = idx.stakeCounts := by
  unfold disconnectTx
  split
  · unfold disconnectStake
    split <;> rfl
  · split
    · unfold disconnectVDFResult
      split
      · rfl
      · simp only
        split
        · rfl
        · split <;> rfl
    · rfl

theorem disconnectBlock_stakeCounts (idx : StakeIndex) (block : Block) :
    (idx.disconnectBlock block).stakeCounts = idx.stakeCounts := by
  unfold disconnectBlock
  induction block.transactions generalizing idx with
  | nil => rfl
  | cons tx txs ih => rw [foldl_cons, ih, disconnectTx_stakeCounts]

/-- Connecting the block and disconnecting it leaves every bucket as it was. -/
def Undone (idx : StakeIndex) (block : Block) : Prop :=
  (idx.connectBlock block).disconnectBlock block = idx

/-- No stake of the list is over its wallet's limit when its turn comes. -/
def StakesWithinLimit (height : Nat) (hash : Hash) : StakeIndex → List Tx → Prop
  | _, [] => True
  | idx, tx :: txs =>
      (∀ s, stakeOf height tx = some s → ¬ idx.OverLimit s) ∧
      StakesWithinLimit height hash (connectTx height hash idx tx) txs

theorem stake_raises_count (height : Nat) (hash : Hash) :
    ∀ {txs : List Tx} {idx : StakeIndex}, StakesWithinLimit height hash idx txs →
      ¬ (∀ tx ∈ txs, isPoolStakingTx tx = false) →
      ∃ D w, idx.getWalletStakeCount D w <
        (txs.foldl (connectTx height hash) idx).getWalletStakeCount D w
  | [], _, _, h => absurd (by simp) h
  | tx :: txs, idx, ⟨hlimit, hrest⟩, h => by
      rw [foldl_cons]
      cases hs : stakeOf height tx with
      | some s =>
        exact ⟨s.1, s.2.walletHash, (connectTx_count_lt height hash hs (hlimit s hs)).trans_le
          (connectTxs_count_le height hash txs _ _ _)⟩
      | none =>
        have hfree : isPoolStakingTx tx = false := by rw [← stakeOf_isSome height, hs]; rfl
        have hlater : ¬ (∀ t ∈ txs, isPoolStakingTx t = false) := fun hall =>
          h (forall_mem_cons.mpr ⟨hfree, hall⟩)
        obtain ⟨D, w, hlt⟩ := stake_raises_count height hash hrest hlater
        exact ⟨D, w, (connectTx_count_le height hash idx tx D w).trans_lt hlt⟩

/-- The VDF result leaves nothing the undo cannot put back. -/
def ResultUndoable (idx : StakeIndex) (d : VDFResultData) : Prop :=
  idx.vdfResults.get d.drawHeight = none ∧ idx.drawResults.get d.drawHeight = none ∧
    BalancesUndoable idx d.drawHeight (drawSeed d.drawBlockHash d.vdfOutput)

/-- The block has no stake and at most one VDF result, and that one is undoable. -/
def UndoSafe (idx : StakeIndex) (block : Block) : Prop :=
  StakeFree block ∧ match blockResults block with
    | [] => True
    | [d] => ResultUndoable idx d
    | _ => False

theorem drawHeight_lt_of_mem {d : VDFResultData} (h : d ∈ blockResults block) :
    d.drawHeight < 2 ^ 32 := by
  obtain ⟨tx, _, htx⟩ := mem_filterMap.mp h
  exact extractVDFResultData_drawHeight (resultData_eq_some.mp htx).2

theorem undone_iff_of_stakeFree (idx : StakeIndex) (hfree : StakeFree block)
    (hone : (blockResults block).length ≤ 1) : Undone idx block ↔ UndoSafe idx block := by
  unfold Undone UndoSafe
  rw [(walks_of_stakeFree hfree idx).1, (walks_of_stakeFree hfree _).2]
  cases hres : blockResults block with
  | nil => simp [hfree]
  | cons d ds =>
    obtain rfl : ds = [] := by simpa [hres] using hone
    have hd : d.drawHeight < 2 ^ 32 := drawHeight_lt_of_mem (by rw [hres]; simp)
    simp only [foldl_cons, foldl_nil, hfree, true_and]
    exact undoResult_applyResult_iff block.height block.hash idx d hd

theorem stakeFree_of_undone
    (hlimit : StakesWithinLimit block.height block.hash idx block.transactions)
    (h : Undone idx block) : StakeFree block := by
  by_contra hstakes
  obtain ⟨D, w, hlt⟩ := stake_raises_count block.height block.hash hlimit hstakes
  have hcounts : (idx.connectBlock block).stakeCounts = idx.stakeCounts := by
    rw [← disconnectBlock_stakeCounts _ block]
    exact congrArg StakeIndex.stakeCounts h
  have heq : (idx.connectBlock block).getWalletStakeCount D w = idx.getWalletStakeCount D w := by
    unfold getWalletStakeCount
    rw [hcounts]
  exact absurd heq hlt.ne'

end StakeIndex

end FalconDraw.Draw
