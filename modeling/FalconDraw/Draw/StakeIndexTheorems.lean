/-
FalconDraw.Draw.StakeIndexTheorems — which bucket each operation of the
staking index writes, and what.

The projections of the small writes are `simp` lemmas.
-/
import Mathlib.Data.List.Induction
import FalconDraw.Draw.StakeIndex

namespace FalconDraw.Draw

open Lib Wire List

def resultData (tx : Tx) : Option VDFResultData :=
  if isVDFResultTx tx then (extractVDFResultData tx).toOption else none

def blockResults (block : Block) : List VDFResultData := block.transactions.filterMap resultData

theorem resultData_eq_some {tx : Tx} {d : VDFResultData} :
    resultData tx = some d ↔ isVDFResultTx tx = true ∧ extractVDFResultData tx = .ok d := by
  unfold resultData
  cases isVDFResultTx tx with
  | false => simp
  | true => cases extractVDFResultData tx <;> simp [Except.toOption]

namespace StakeIndex

variable (idx : StakeIndex) (D : Nat)

/-! ## The small writes -/

section
variable (v : Int64)

@[simp] theorem setPoolBalance_poolStakes :
    (idx.setPoolBalance D v).poolStakes = idx.poolStakes := rfl
@[simp] theorem setPoolBalance_stakeCounts :
    (idx.setPoolBalance D v).stakeCounts = idx.stakeCounts := rfl
@[simp] theorem setPoolBalance_drawResults :
    (idx.setPoolBalance D v).drawResults = idx.drawResults := rfl
@[simp] theorem setPoolBalance_vdfResults :
    (idx.setPoolBalance D v).vdfResults = idx.vdfResults := rfl
@[simp] theorem setPoolBalance_poolBalance :
    (idx.setPoolBalance D v).poolBalance = idx.poolBalance.put D v := rfl

@[simp] theorem addToPoolBalance_poolStakes :
    (idx.addToPoolBalance D v).poolStakes = idx.poolStakes := rfl
@[simp] theorem addToPoolBalance_stakeCounts :
    (idx.addToPoolBalance D v).stakeCounts = idx.stakeCounts := rfl
@[simp] theorem addToPoolBalance_drawResults :
    (idx.addToPoolBalance D v).drawResults = idx.drawResults := rfl
@[simp] theorem addToPoolBalance_vdfResults :
    (idx.addToPoolBalance D v).vdfResults = idx.vdfResults := rfl

theorem getPoolBalance_setPoolBalance (D' : Nat) :
    (idx.setPoolBalance D v).getPoolBalance D' = if D' = D then v else idx.getPoolBalance D' := by
  grind [getPoolBalance, setPoolBalance_poolBalance, Bucket.get_put]

theorem getPoolBalance_addToPoolBalance (D' : Nat) : (idx.addToPoolBalance D v).getPoolBalance D' =
      if D' = D then idx.getPoolBalance D + v else idx.getPoolBalance D' :=
  getPoolBalance_setPoolBalance idx D _ D'

end

section
variable (m : DrawResultMeta)

@[simp] theorem putDrawResultMeta_poolStakes :
    (idx.putDrawResultMeta D m).poolStakes = idx.poolStakes := rfl
@[simp] theorem putDrawResultMeta_poolBalance :
    (idx.putDrawResultMeta D m).poolBalance = idx.poolBalance := rfl
@[simp] theorem putDrawResultMeta_stakeCounts :
    (idx.putDrawResultMeta D m).stakeCounts = idx.stakeCounts := rfl
@[simp] theorem putDrawResultMeta_vdfResults :
    (idx.putDrawResultMeta D m).vdfResults = idx.vdfResults := rfl
@[simp] theorem putDrawResultMeta_drawResults :
    (idx.putDrawResultMeta D m).drawResults = idx.drawResults.put D m := rfl
@[simp] theorem getPoolBalance_putDrawResultMeta (D' : Nat) :
    (idx.putDrawResultMeta D m).getPoolBalance D' = idx.getPoolBalance D' := rfl

end

section
variable (height : Nat) (hash : Hash) (T output : Nat)

@[simp] theorem putVDFResult_poolStakes :
    (idx.putVDFResult D height hash T output).poolStakes = idx.poolStakes := rfl
@[simp] theorem putVDFResult_poolBalance :
    (idx.putVDFResult D height hash T output).poolBalance = idx.poolBalance := rfl
@[simp] theorem putVDFResult_stakeCounts :
    (idx.putVDFResult D height hash T output).stakeCounts = idx.stakeCounts := rfl
@[simp] theorem putVDFResult_drawResults :
    (idx.putVDFResult D height hash T output).drawResults = idx.drawResults := rfl
@[simp] theorem putVDFResult_vdfResults : (idx.putVDFResult D height hash T output).vdfResults =
      idx.vdfResults.put D ⟨height, some hash, T, output⟩ := rfl

end

theorem getWalletStakeCount_incrWalletStakeCount (w : WalletHash) (D' : Nat) (w' : WalletHash) :
    (idx.incrWalletStakeCount D w).getWalletStakeCount D' w' =
      if D' = D ∧ w' = w then min (idx.getWalletStakeCount D w + 1) 255
        ⊔ idx.getWalletStakeCount D w
      else idx.getWalletStakeCount D' w' := by
  by_cases h : D' = D ∧ w' = w
  · grind [getWalletStakeCount, incrWalletStakeCount, Bucket.get_put_self]
  · grind [getWalletStakeCount, incrWalletStakeCount, Bucket.get_put_of_ne]

@[simp] theorem getWalletStakeCount_addToPoolBalance (v : Int64) (D' : Nat) (w : WalletHash) :
    (idx.addToPoolBalance D v).getWalletStakeCount D' w = idx.getWalletStakeCount D' w := rfl

@[simp] theorem getWalletStakeCount_putPoolStakeEntry (tx : Hash) (e : PoolStake) (D' : Nat)
    (w : WalletHash) :
    (idx.putPoolStakeEntry D tx e).getWalletStakeCount D' w = idx.getWalletStakeCount D' w := rfl

/-! ## Sweeping balances -/

theorem absorbFrom_frame (hs : List Nat) : ∀ (idx : StakeIndex) (total : Int64),
    ∃ bal, (idx.absorbFrom total hs).2 = { idx with poolBalance := bal } := by
  induction hs with
  | nil =>
    intro idx total
    exact ⟨idx.poolBalance, rfl⟩
  | cons h hs ih =>
    intro idx total
    unfold absorbFrom
    split
    · exact ih idx total
    · split
      · exact ⟨idx.poolBalance, rfl⟩
      · obtain ⟨bal, hbal⟩ := ih (idx.setPoolBalance h 0) (total + idx.getPoolBalance h)
        exact ⟨bal, hbal⟩

theorem absorbFrom_keeps_zero {k : Nat} (hs : List Nat) : ∀ {idx : StakeIndex} {total : Int64},
    idx.poolBalance.get k = some 0 → (idx.absorbFrom total hs).2.poolBalance.get k = some 0 := by
  induction hs with
  | nil => exact fun h => h
  | cons h hs ih => grind [absorbFrom, setPoolBalance_poolBalance, Bucket.get_put]

theorem mem_drawsFrom {x : Nat} : ∀ {fuel h : Nat}, x ∈ drawsFrom fuel h → drawInterval ≤ x ∧ x ≤ h
  | 0, h, hx => by simp [drawsFrom] at hx
  | fuel + 1, h, hx => by
      unfold drawsFrom at hx
      split at hx
      · simp at hx
      · rcases mem_cons.mp hx with rfl | hx
        · omega
        · have := mem_drawsFrom hx
          omega

theorem mem_priorDraws {x : Nat} (h : x ∈ priorDraws D) : drawInterval ≤ x ∧ x < D := by
  unfold priorDraws at h
  split at h
  · simp at h
  · have := mem_drawsFrom h
    have hpos : 0 < drawInterval := by decide
    omega

theorem nextDraw_ne : nextDraw D ≠ D := by
  unfold nextDraw drawInterval
  omega

theorem nextDraw_not_mem_priorDraws (h : D < 2 ^ 32) : nextDraw D ∉ priorDraws D := by
  intro hmem
  have := mem_priorDraws D hmem
  unfold nextDraw drawInterval at this
  omega

/-! ## Storing a draw's result -/

theorem runAndStoreDrawResult_empty (seed : Hash) (h : idx.poolStakes D = []) :
    idx.runAndStoreDrawResult D seed = if 0 < idx.getPoolBalance D then
        { idx with
          drawResults := idx.drawResults.put D ⟨false, 0⟩
          poolBalance := (idx.poolBalance.put (nextDraw D)
            (idx.getPoolBalance (nextDraw D) + idx.getPoolBalance D)).put D 0 }
      else idx := by
  rw [runAndStoreDrawResult, if_pos h]
  rfl

/-- The outcome `RunDraw` gives for the stakes of a draw. -/
def outcome (seed : Hash) : DrawResult := runDraw (idx.fetchPoolStakeEntries D) seed

/-- A draw with stakers takes what the sweep found, and passes it on unless it
was won. -/
theorem runAndStoreDrawResult_staked (seed : Hash) (h : idx.poolStakes D ≠ []) :
    idx.runAndStoreDrawResult D seed = { idx with
        drawResults := idx.drawResults.put D
          ⟨(idx.outcome D seed).jackpotWon, (idx.outcome D seed).winnerWalletHash⟩
        poolBalance :=
          let full := (idx.absorbIntermediateBalances D).1
          let swept := (idx.absorbIntermediateBalances D).2.poolBalance.put D full
          if (idx.outcome D seed).jackpotWon = false ∧ 0 < full then
            swept.put (nextDraw D) ((swept.get (nextDraw D)).getD 0 + full)
          else swept } := by
  obtain ⟨bal, hbal⟩ := absorbFrom_frame (priorDraws D) idx (idx.getPoolBalance D)
  rw [runAndStoreDrawResult, if_neg h]
  simp only [absorbIntermediateBalances, hbal, outcome]
  split
  · rfl
  · rfl

theorem runAndStoreDrawResult_frame (seed : Hash) : ∃ bal metas, idx.runAndStoreDrawResult D seed =
        { idx with poolBalance := bal, drawResults := metas } ∧
      ∀ D', D' ≠ D → metas.get D' = idx.drawResults.get D' := by
  unfold runAndStoreDrawResult
  split
  · simp only
    split
    · exact ⟨_, _, rfl, fun D' hne => Bucket.get_put_of_ne _ _ hne⟩
    · exact ⟨idx.poolBalance, idx.drawResults, rfl, fun _ _ => rfl⟩
  · obtain ⟨bal, hbal⟩ := absorbFrom_frame (priorDraws D) idx (idx.getPoolBalance D)
    simp only [absorbIntermediateBalances, hbal]
    split
    · exact ⟨_, _, rfl, fun D' hne => Bucket.get_put_of_ne _ _ hne⟩
    · exact ⟨_, _, rfl, fun D' hne => Bucket.get_put_of_ne _ _ hne⟩

@[simp] theorem runAndStoreDrawResult_poolStakes (seed : Hash) :
    (idx.runAndStoreDrawResult D seed).poolStakes = idx.poolStakes := by
  obtain ⟨bal, metas, h, _⟩ := runAndStoreDrawResult_frame idx D seed
  rw [h]

@[simp] theorem runAndStoreDrawResult_stakeCounts (seed : Hash) :
    (idx.runAndStoreDrawResult D seed).stakeCounts = idx.stakeCounts := by
  obtain ⟨bal, metas, h, _⟩ := runAndStoreDrawResult_frame idx D seed
  rw [h]

@[simp] theorem runAndStoreDrawResult_vdfResults (seed : Hash) :
    (idx.runAndStoreDrawResult D seed).vdfResults = idx.vdfResults := by
  obtain ⟨bal, metas, h, _⟩ := runAndStoreDrawResult_frame idx D seed
  rw [h]

theorem runAndStoreDrawResult_drawResults (seed : Hash) {D' : Nat} (hne : D' ≠ D) :
    (idx.runAndStoreDrawResult D seed).drawResults.get D' = idx.drawResults.get D' := by
  obtain ⟨bal, metas, h, hmetas⟩ := runAndStoreDrawResult_frame idx D seed
  rw [h]
  exact hmetas D' hne

/-! ## One transaction -/

def recordOf (height : Nat) (hash : Hash) (d : VDFResultData) : VDFRecord :=
  ⟨height, some hash, d.T, d.vdfOutput⟩

def applyResult (height : Nat) (hash : Hash) (idx : StakeIndex) (d : VDFResultData) :
    StakeIndex :=
  (idx.putVDFResult d.drawHeight height hash d.T d.vdfOutput).runAndStoreDrawResult
    d.drawHeight (drawSeed d.drawBlockHash d.vdfOutput)

/-- The draw and row of the stake in a transaction connected at this height. -/
def stakeOf (height : Nat) (tx : Tx) : Option (Nat × PoolStake) :=
  if isPoolStakingTx tx then
    (findPoolStakingOpReturn tx.msgTx).map fun script =>
      let d := poolStakingFields script
      (effectiveDrawHeight height d.drawHeight, ⟨d.walletHash, d.amount⟩)
  else none

theorem stakeOf_isSome (height : Nat) (tx : Tx) :
    (stakeOf height tx).isSome = isPoolStakingTx tx := by
  grind [stakeOf, isPoolStakingTx]

/-- The wallet has used up its stakes in the draw. -/
def OverLimit (s : Nat × PoolStake) : Prop :=
  maxStakesPerWalletPerDraw ≤ idx.getWalletStakeCount s.1 s.2.walletHash

instance (s : Nat × PoolStake) : Decidable (idx.OverLimit s) := inferInstanceAs (Decidable (_ ≤ _))

def indexStake (txHash : Hash) (s : Nat × PoolStake) : StakeIndex :=
  ((idx.putPoolStakeEntry s.1 txHash s.2).addToPoolBalance s.1 s.2.amount).incrWalletStakeCount
    s.1 s.2.walletHash

theorem connectTx_eq (height : Nat) (hash : Hash) (tx : Tx) : connectTx height hash idx tx =
      match resultData tx with
      | some d => applyResult height hash idx d
      | none =>
          match stakeOf height tx with
          | some s => if idx.OverLimit s then idx else idx.indexStake tx.hash s
          | none => idx := by
  unfold connectTx
  by_cases h6 : tx.msgTx.version = txVersionPoolStake
  · have hnone : resultData tx = none := by
      simp [resultData, isVDFResultTx, h6, txVersionPoolStake, txVersionVDFResult]
    rw [if_pos h6, hnone]
    unfold connectStake stakeOf isPoolStakingTx
    cases findPoolStakingOpReturn tx.msgTx with
    | none => simp
    | some script =>
      simp only [h6, BEq.rfl, Option.isSome_some, Bool.and_self, if_true, Option.map_some]
      generalize effectiveDrawHeight height (poolStakingFields script).drawHeight = dh
      rfl
  · have hstake : stakeOf height tx = none := by simp [stakeOf, isPoolStakingTx, h6]
    rw [if_neg h6, hstake]
    by_cases h7 : tx.msgTx.version = txVersionVDFResult
    · rw [if_pos h7]
      unfold connectVDFResult resultData
      cases extractVDFResultData tx <;> simp [isVDFResultTx, h7, Except.toOption, applyResult]
    · rw [if_neg h7]
      simp [resultData, isVDFResultTx, h7]

@[simp] theorem applyResult_poolStakes (height : Nat) (hash : Hash) (d : VDFResultData) :
    (applyResult height hash idx d).poolStakes = idx.poolStakes := by
  rw [applyResult, runAndStoreDrawResult_poolStakes, putVDFResult_poolStakes]

@[simp] theorem applyResult_stakeCounts (height : Nat) (hash : Hash) (d : VDFResultData) :
    (applyResult height hash idx d).stakeCounts = idx.stakeCounts := by
  rw [applyResult, runAndStoreDrawResult_stakeCounts, putVDFResult_stakeCounts]

theorem applyResult_vdfResults (height : Nat) (hash : Hash) (d : VDFResultData) :
    (applyResult height hash idx d).vdfResults =
      idx.vdfResults.put d.drawHeight (recordOf height hash d) := by
  rw [applyResult, runAndStoreDrawResult_vdfResults]
  rfl

theorem applyResult_drawResults (height : Nat) (hash : Hash) {d : VDFResultData}
    (hne : D ≠ d.drawHeight) :
    (applyResult height hash idx d).drawResults.get D = idx.drawResults.get D := by
  rw [applyResult, runAndStoreDrawResult_drawResults _ _ _ hne]
  rfl

theorem connectTx_vdfResults (height : Nat) (hash : Hash) (tx : Tx) :
    (connectTx height hash idx tx).vdfResults = match resultData tx with
      | none => idx.vdfResults
      | some d => idx.vdfResults.put d.drawHeight (recordOf height hash d) := by
  rw [connectTx_eq]
  cases resultData tx with
  | some d => exact applyResult_vdfResults idx height hash d
  | none =>
    cases stakeOf height tx with
    | none => rfl
    | some s =>
      simp only
      split <;> rfl

/-- A transaction touches the result record of no draw but the one its VDF
result names. -/
theorem connectTx_drawResults (height : Nat) (hash : Hash) (tx : Tx)
    (hne : ∀ d, resultData tx = some d → d.drawHeight ≠ D) :
    (connectTx height hash idx tx).drawResults.get D = idx.drawResults.get D := by
  rw [connectTx_eq]
  cases h : resultData tx with
  | some d => exact applyResult_drawResults idx D height hash (hne d h).symm
  | none =>
    cases stakeOf height tx with
    | none => rfl
    | some s =>
      simp only
      split <;> rfl

/-! ## One block -/

theorem connectBlock_vdfResults (block : Block) :
    (idx.connectBlock block).vdfResults = (blockResults block).foldl
      (fun b d => b.put d.drawHeight (recordOf block.height block.hash d)) idx.vdfResults := by
  unfold connectBlock blockResults
  induction block.transactions generalizing idx with
  | nil => rfl
  | cons tx txs ih => grind [connectTx_vdfResults]

theorem connectTxs_drawResults (height : Nat) (hash : Hash) {txs : List Tx}
    (hne : ∀ tx ∈ txs, ∀ d, resultData tx = some d → d.drawHeight ≠ D) :
    (txs.foldl (connectTx height hash) idx).drawResults.get D = idx.drawResults.get D := by
  induction txs generalizing idx with
  | nil => rfl
  | cons tx txs ih =>
    rw [foldl_cons, ih _ fun t ht => hne t (mem_cons_of_mem _ ht),
      connectTx_drawResults _ _ _ _ _ (hne tx mem_cons_self)]

theorem connectBlock_drawResults (block : Block)
    (hne : ∀ d ∈ blockResults block, d.drawHeight ≠ D) :
    (idx.connectBlock block).drawResults.get D = idx.drawResults.get D :=
  connectTxs_drawResults idx D block.height block.hash fun tx htx d hd =>
    hne d (mem_filterMap.mpr ⟨tx, htx, hd⟩)

theorem connectBlock_vdfResults_get (block : Block) : (idx.connectBlock block).vdfResults.get D =
      match (blockResults block).reverse.find? fun d => d.drawHeight = D with
      | none => idx.vdfResults.get D
      | some d => some (recordOf block.height block.hash d) := by
  rw [connectBlock_vdfResults]
  -- the last write to a key is the one that is read back
  induction blockResults block using reverseRecOn with
  | nil => rfl
  | append_singleton ds d ih =>
    rw [foldl_append, foldl_cons, foldl_nil, Bucket.get_put, ih,
      reverse_append, reverse_cons, reverse_nil, nil_append,
      singleton_append, find?_cons]
    by_cases h : d.drawHeight = D
    · simp [h]
    · simp [h, Ne.symm h]

/-! ## Disconnecting a block -/

theorem disconnectTx_vdfResults (tx : Tx) : (idx.disconnectTx tx).vdfResults =
      match resultData tx with
      | none => idx.vdfResults
      | some d => idx.vdfResults.delete d.drawHeight := by
  unfold disconnectTx
  by_cases h6 : tx.msgTx.version = txVersionPoolStake
  · have hnone : resultData tx = none := by
      simp [resultData, isVDFResultTx, h6, txVersionPoolStake, txVersionVDFResult]
    rw [if_pos h6, hnone, disconnectStake]
    cases findPoolStakingOpReturn tx.msgTx <;> rfl
  · rw [if_neg h6]
    by_cases h7 : tx.msgTx.version = txVersionVDFResult
    · rw [if_pos h7, disconnectVDFResult, resultData, isVDFResultTx, h7]
      cases extractVDFResultData tx with
      | error e => rfl
      | ok d =>
        simp only [BEq.rfl, if_true, Except.toOption]
        split
        · rfl
        · split <;> rfl
    · have hnone : resultData tx = none := by simp [resultData, isVDFResultTx, h7]
      rw [if_neg h7, hnone]

theorem disconnectBlock_vdfResults (block : Block) : (idx.disconnectBlock block).vdfResults =
      (blockResults block).foldl (fun b d => b.delete d.drawHeight) idx.vdfResults := by
  unfold disconnectBlock blockResults
  induction block.transactions generalizing idx with
  | nil => rfl
  | cons tx txs ih =>
    rw [foldl_cons, ih, disconnectTx_vdfResults, filterMap_cons]
    cases resultData tx <;> rfl

end StakeIndex

end FalconDraw.Draw
