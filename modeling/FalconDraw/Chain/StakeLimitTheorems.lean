/-
FalconDraw.Chain.StakeLimitTheorems — is the per-wallet stake limit exact
after any arrivals?

What an arrival does to the index is known (`BlockChain.step_index`): blocks of
the best chain are taken off, blocks of a branch are added.
-/
import FalconDraw.Chain.SettleOnceTheorems
import FalconDraw.Draw.StakeCountTheorems

namespace FalconDraw.Chain

open Lib Wire Draw

/-- No stake that leaves the best chain has a row under the draw it declares, and
every stake that enters it has a new id among the rows of its draw. -/
structure KeepsCounts (b : BlockChain) (a : Arrival) : Prop where
  removed : ∀ block ∈ b.disconnectedBy a.block,
    b.best.idx.NoRows (block.transactions.filterMap StakeIndex.declaredKey)
  distinct : ((b.connectedBy a.block).flatMap fun block =>
    StakeIndex.stakeKeys block.height block.transactions).Nodup
  new : b.best.idx.NoRows ((b.connectedBy a.block).flatMap fun block =>
    StakeIndex.stakeKeys block.height block.transactions)

theorem keepsCounts_iff (b : BlockChain) (a : Arrival) : ((∀ block ∈ b.disconnectedBy a.block,
        b.best.idx.NoRows (block.transactions.filterMap StakeIndex.declaredKey)) ∧
      ((b.connectedBy a.block).flatMap fun block =>
        StakeIndex.stakeKeys block.height block.transactions).Nodup ∧
      b.best.idx.NoRows ((b.connectedBy a.block).flatMap fun block =>
        StakeIndex.stakeKeys block.height block.transactions)) ↔ KeepsCounts b a := by
  constructor
  · rintro ⟨hremoved, hdistinct, hnew⟩
    exact ⟨hremoved, hdistinct, hnew⟩
  · rintro ⟨hremoved, hdistinct, hnew⟩
    exact ⟨hremoved, hdistinct, hnew⟩

instance decidableKeepsCounts (b : BlockChain) (a : Arrival) : Decidable (KeepsCounts b a) :=
  decidable_of_iff _ (keepsCounts_iff b a)

theorem countsExact_step {env : Env} {b : BlockChain} {a : Arrival}
    (h : b.best.idx.CountsExact) (hc : KeepsCounts b a) : (b.step env a).best.idx.CountsExact := by
  obtain ⟨offs, ons, ⟨_, hoffs⟩, ⟨rest, hons⟩, hidx⟩ := b.step_index env a
  have hdistinct := hc.distinct
  have hnew := hc.new
  rw [← hons, List.flatMap_append] at hdistinct hnew
  rw [hidx]
  obtain ⟨hexact, hrows⟩ := h.disconnectBlocks fun block hblock =>
    hc.removed block (hoffs ▸ List.mem_append_left _ hblock)
  refine hexact.connectBlocks (List.nodup_append.mp hdistinct).1 fun k hk hrow => ?_
  rw [StakeIndex.HasRow, hrows] at hrow
  exact hnew k (List.mem_append_left _ hk) hrow

/-- In every run of arrivals that keep the counts, the stored count of every
wallet in every draw is the number of its rows there, which is at most the limit;
a wallet below the limit is not refused. -/
theorem stake_limit_exact (env : Env) (genesis : HeaderInfo) (as : List Arrival)
    (hc : ArrivalsMeet env KeepsCounts (genesisChain genesis) as) (D : Nat) (w : WalletHash) :
    let idx := (runArrivals env (genesisChain genesis) as).best.idx
    idx.getWalletStakeCount D w = idx.walletRows D w ∧
      idx.walletRows D w ≤ maxStakesPerWalletPerDraw ∧
      (idx.walletRows D w < maxStakesPerWalletPerDraw →
        ∀ amount, ¬ idx.OverLimit (D, ⟨w, amount⟩)) := by
  have hstep : ∀ (b : BlockChain) (a : Arrival), b.best.idx.CountsExact → KeepsCounts b a →
      (b.step env a).best.idx.CountsExact := fun _ _ h hc => countsExact_step h hc
  have hrun : (runArrivals env (genesisChain genesis) as).best.idx.CountsExact :=
    runArrivals_induct (P := fun b => b.best.idx.CountsExact) hstep
      StakeIndex.countsExact_empty hc
  refine ⟨hrun.counts D w, hrun.limit D w, fun hroom amount hover => ?_⟩
  rw [StakeIndex.OverLimit, hrun.counts] at hover
  exact absurd hroom (Nat.not_lt.mpr hover)

/-- Wallet 1 stakes at height 102; then the idle block 103 is replaced by a
branch that has another stake of the wallet. -/
def restakedArrivals : List Arrival :=
  ((fundedBlocks ++ lateBlock 102 [idleCoinbase, stakeFrom 0 200000000 108] ::
      idleBlocks 103 1).map fun block => ⟨block, false⟩) ++
    [⟨sideBlock 103 (lateInfo 102).hash [idleCoinbase, stakeFrom 1 700000000 108], false⟩,
      ⟨sideBlock 104 5103 [idleCoinbase], false⟩]

set_option maxRecDepth 4000 in
theorem restaked_counted :
    ArrivalsMeet youngMainNet KeepsCounts (genesisChain (lateInfo 0)) restakedArrivals ∧
      (let idx := (runArrivals youngMainNet (genesisChain (lateInfo 0)) restakedArrivals).best.idx
      idx.walletRows 108 1 = 2 ∧ idx.getWalletStakeCount 108 1 = idx.walletRows 108 1) := by
  have hmeets : ArrivalsMeet youngMainNet KeepsCounts (genesisChain (lateInfo 0))
      restakedArrivals := by decide +kernel
  exact ⟨hmeets, by decide +kernel, (stake_limit_exact _ _ _ hmeets 108 1).1⟩

/-- The block with the stake is replaced by a longer branch without it. -/
def unstakedArrivals : List Arrival :=
  ((fundedBlocks ++ [lateBlock 102 [idleCoinbase, stakeFrom 0 200000000 108]]).map
      fun block => ⟨block, false⟩) ++
    [⟨sideBlock 102 (lateInfo 101).hash [idleCoinbase], false⟩,
      ⟨sideBlock 103 5102 [idleCoinbase], false⟩]

set_option maxRecDepth 4000 in
/-- Its row is gone with it, the count stays. -/
theorem stale_stake_counted :
    let b := runArrivals youngMainNet (genesisChain (lateInfo 0)) unstakedArrivals
    b.best.tip.hash = 5103 ∧ b.best.idx.walletRows 108 1 = 0 ∧
      b.best.idx.getWalletStakeCount 108 1 = 1 := by
  decide +kernel

end FalconDraw.Chain
