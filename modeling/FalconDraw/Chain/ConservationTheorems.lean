/-
FalconDraw.Chain.ConservationTheorems — is pool value conserved?

Everything staked should be in a prize that was paid, in a draw that waits, or
rolled over to a draw that waits.
-/
import FalconDraw.Chain.PoolRun

namespace FalconDraw.Chain

open Finset Lib Wire Draw

/-- The stakes of the draws below number `m` that have no result yet. -/
def unsettledStakes (idx : StakeIndex) (m : ℕ) : ℤ :=
  ∑ k ∈ range m with idx.drawResults.get (drawOf k) = none, idx.stakedIn (drawOf k)

/-- What was rolled over and is in the pool of a draw to come: the pools of the
waiting draws with stakers beyond their own stakes, and the pool of draw number
`m`, which nobody staked in yet. -/
def rolledOver (idx : StakeIndex) (m : ℕ) : ℤ :=
  (∑ k ∈ range m with idx.poolStakes (drawOf k) ≠ [] ∧ idx.drawResults.get (drawOf k) = none,
    ((idx.reconstructPoolBalance (drawOf k)).toInt - idx.stakedIn (drawOf k)))
    + (idx.reconstructPoolBalance (drawOf m)).toInt

section
variable {idx : StakeIndex} {front m : ℕ}

theorem totals_eq (hm : m ≤ drawBound) (hlast : ∀ k, m ≤ k → idx.poolStakes (drawOf k) = []) :
    idx.totalStaked = ∑ k ∈ range m, idx.ledger.deposits k ∧
      idx.totalWon = idx.ledger.prizes m := by
  have hzero : ∀ k, m ≤ k → idx.ledger.deposits k = 0 := by
    intro k hk
    rw [StakeIndex.ledger_deposits, StakeIndex.stakedIn, hlast k hk]
    rfl
  have hsub : range m ⊆ range drawBound := range_subset_range.mpr hm
  constructor
  · refine (sum_subset hsub fun k _ hk => hzero k ?_).symm
    simpa using hk
  · unfold StakeIndex.totalWon RollingPots.prizes
    refine (sum_subset (filter_subset_filter _ hsub) fun k hk hk' => ?_).symm
    obtain ⟨hkb, hwon⟩ := mem_filter.mp hk
    have hkm : m ≤ k := by
      by_contra hlt
      exact hk' (mem_filter.mpr ⟨mem_range.mpr (by omega), hwon⟩)
    exact absurd hwon.1 (by rw [hzero k hkm]; exact lt_irrefl _)

theorem waiting_eq (h : idx.Books front) (hm : m ≤ drawBound) :
    ∑ k ∈ range m with idx.ledger.isWaiting k, idx.ledger.worth k = unsettledStakes idx m +
        ∑ k ∈ range m with idx.poolStakes (drawOf k) ≠ [] ∧ idx.drawResults.get (drawOf k) = none,
          ((idx.reconstructPoolBalance (drawOf k)).toInt - idx.stakedIn (drawOf k)) := by
  unfold unsettledStakes
  rw [sum_filter, sum_filter, sum_filter, ← sum_add_distrib]
  refine sum_congr rfl fun k hk => ?_
  have hbound : k < drawBound := by
    have := mem_range.mp hk
    omega
  have hwaiting : idx.ledger.isWaiting k ↔ idx.poolStakes (drawOf k) ≠ [] ∧
      idx.drawResults.get (drawOf k) = none := by
    unfold RollingPots.isWaiting
    rw [StakeIndex.stakedIn_pos_iff h.rows, StakeIndex.ledger_outcome, Option.map_eq_none_iff]
  by_cases hopen : idx.drawResults.get (drawOf k) = none
  · have hpool := StakeIndex.reconstruct_toInt h hbound hopen
    by_cases hrows : idx.poolStakes (drawOf k) = []
    · have hzero : idx.stakedIn (drawOf k) = 0 := by
        rw [StakeIndex.stakedIn, hrows]
        rfl
      simp [hwaiting, hrows, hzero]
    · simp [hwaiting, hrows, hopen, hpool]
  · simp [hwaiting, hopen]

theorem books_conserve (h : idx.Books front) (hm : m < drawBound) (hfront : front ≤ m)
    (hlast : ∀ k, m ≤ k → idx.poolStakes (drawOf k) = []) :
    idx.totalStaked = idx.totalWon + unsettledStakes idx m + rolledOver idx m := by
  obtain ⟨hstaked, hwon⟩ := totals_eq hm.le hlast
  have hopen : idx.drawResults.get (drawOf m) = none := by
    have := h.sound.ahead_open m hfront
    rwa [StakeIndex.ledger_outcome, Option.map_eq_none_iff] at this
  have hpool := StakeIndex.reconstruct_toInt h hm hopen
  have hzero : idx.ledger.deposits m = 0 := by
    rw [StakeIndex.ledger_deposits, StakeIndex.stakedIn, hlast m le_rfl]
    rfl
  rw [RollingPots.worth, hzero, zero_add] at hpool
  rw [hstaked, hwon, RollingPots.conservation h.sound m, waiting_eq h hm.le, rolledOver, hpool]
  omega

end

/-- Along every run of accepted blocks with at most one VDF result each, in
which every rollover goes to a draw not settled yet, everything ever indexed is
accounted for, once. -/
theorem pool_value_conserved (env : Env) (genesis : HeaderInfo) (blocks : List Block)
    (s : ChainState) (hrun : runBlocks env (genesisState genesis) blocks = .ok s)
    (hone : ∀ block ∈ blocks, SingleResult block)
    (hmeets : RunMeets env Orderly (genesisState genesis) blocks)
    (hfits : runTotal env indexedIn (genesisState genesis) blocks < 2 ^ 63)
    (m : ℕ) (hm : m < drawBound) (hfront : s.tip.height / drawInterval ≤ m)
    (hlast : ∀ k, m ≤ k → s.idx.poolStakes (drawOf k) = []) :
    runTotal env indexedIn (genesisState genesis) blocks =
      runTotal env prizesPaid (genesisState genesis) blocks + unsettledStakes s.idx m +
        rolledOver s.idx m := by
  obtain ⟨hinv, hstaked, hwon⟩ := run_from_genesis hrun hone hmeets hfits
  rw [← hstaked, ← hwon]
  exact books_conserve hinv.books hm hfront hlast

/-! ## A chain with draws 108 and 180 -/

/-- The header at height `h`; the blocks of draws 108 and 180 have the hashes 1
and 0, for which the delay function is trivial. -/
def lateInfo (h : Nat) : HeaderInfo :=
  { regularInfo h with
    hash := if h = 36 then 1036 else if h = 108 then 1 else if h = 180 then 0
      else (regularInfo h).hash }

def lateBlock (h : Nat) (txs : List Tx) : Block :=
  { hash := (lateInfo h).hash
    header := ⟨4, (lateInfo (h - 1)).hash, (lateInfo h).timestamp, 0x1d00ffff⟩
    transactions := txs
    height := h }

/-- `n` blocks from height `h` on that only have a coinbase. -/
def idleBlocks (h n : Nat) : List Block :=
  (List.range n).map fun i => lateBlock (h + i) [idleCoinbase]

/-- The first block pays wallet 1 two coins of 500 FDRW; a hundred blocks let
them mature. -/
def fundedBlocks : List Block :=
  lateBlock 1 [coinbaseTx 1 (List.replicate 2 ⟨50000000000, makeWinnerP2WPKHScript 1⟩)] ::
    idleBlocks 2 100

def stakeFrom (coin : Nat) (amount : Int64) (drawHeight : Nat) : Tx :=
  { hash := BitVec.ofNat 256 (2 + coin)
    msgTx :=
      { version := txVersionPoolStake
        txIn := [{ previousOutPoint := ⟨1, coin⟩
                   witness := [List.replicate 64 0, List.replicate 33 0] }]
        txOut := [⟨0, makePoolStakingScript ⟨1, amount, drawHeight⟩⟩,
          ⟨50000000000 - amount, [0x51]⟩] } }

def settlingBlock (h drawHeight : Nat) (drawHash : Hash) (pd : PoolDrawData) : Block :=
  lateBlock h [idleCoinbase, { hash := 10, msgTx := buildPoolDrawSettlementTx drawHeight pd },
    { hash := 11, msgTx := buildVDFResultTx ⟨drawHeight, drawHash, 10, 1, 0⟩ }]

def stakedRun : List Block :=
  fundedBlocks ++ lateBlock 102 [idleCoinbase, stakeFrom 0 200000000 108] :: idleBlocks 103 6

def rolloverBlock : Block := settlingBlock 109 108 1 ⟨200000000, false, 0⟩

/-- Two FDRW are staked for draw 108 and seven for draw 180. Draw 180 is
settled first and won. Then draw 108 is settled and rolls over. -/
def outOfOrderRun : List Block :=
  fundedBlocks ++
    [lateBlock 102 [idleCoinbase, stakeFrom 0 200000000 108, stakeFrom 1 700000000 180]] ++
    idleBlocks 103 78 ++
    [settlingBlock 181 180 0 ⟨700000000, true, 1⟩, settlingBlock 182 108 1 ⟨200000000, false, 0⟩]

/-- No draw of this index from number `m` on has stakes, if no stake of the run
was for one. -/
theorem no_rows_from {env : Env} {genesis : HeaderInfo} {blocks : List Block} {s : ChainState}
    {m : ℕ} (hrun : runBlocks env (genesisState genesis) blocks = .ok s)
    (hdraws : ∀ D ∈ stakedDraws 0 blocks, D < drawOf m) (k : ℕ) (hk : m ≤ k) :
    s.idx.poolStakes (drawOf k) = [] := by
  by_contra hrow
  rcases rows_of_run hrun hrow with hold | hmem
  · exact hold rfl
  · have := hdraws _ hmem
    unfold drawOf drawInterval at this
    omega

theorem stakedRun_meets :
    RunMeets youngMainNet Orderly (genesisState (lateInfo 0)) (stakedRun ++ [rolloverBlock]) := by
  refine runMeets_append.mpr ⟨runMeets_append.mpr ⟨?_, fun s hs => ⟨?_, fun s' hs' => ?_⟩⟩,
    fun s hs => ⟨?_, fun _ _ => trivial⟩⟩
  · exact runMeets_quiet (by decide +kernel) (by decide +kernel)
  · exact orderly_of_first hs (by decide +kernel) (by decide +kernel) (by decide +kernel)
  · obtain ⟨_, _, htip, _⟩ := extend_ok hs'
    refine runMeets_quiet (by decide +kernel) ?_
    rw [htip, child_height, run_height hs]
    decide +kernel
  · exact orderly_of_first hs (by decide +kernel) (by decide +kernel) (by decide +kernel)

set_option maxRecDepth 4000 in
theorem stakedRun_accepted :
    ∃ s s', runBlocks youngMainNet (genesisState (lateInfo 0)) stakedRun = .ok s ∧
      s.extend youngMainNet rolloverBlock = .ok s' ∧ s.idx.poolStakes 108 ≠ [] ∧
      runTotal youngMainNet indexedIn (genesisState (lateInfo 0)) (stakedRun ++ [rolloverBlock])
        = 200000000 := by
  obtain ⟨s, ⟨staked, _⟩, htally, hrows, hstaked, hnothing, s', hstep, -⟩ : ∃ s tally,
      runTally youngMainNet indexedIn prizesPaid (genesisState (lateInfo 0)) stakedRun =
        .ok (s, tally) ∧
      s.idx.poolStakes 108 ≠ [] ∧ tally.1 = 200000000 ∧ indexedIn s rolloverBlock = 0 ∧
      ∃ s', s.extend youngMainNet rolloverBlock = .ok s' ∧ True := by decide +kernel
  obtain ⟨hrun, htotal, _⟩ := runTally_ok htally
  refine ⟨s, s', hrun, hstep, hrows, ?_⟩
  rw [runTotal_append hrun, htotal.trans hstaked, runTotal, hstep, hnothing]
  rfl

/-- The two FDRW of draw 108 rolled over and are in the pool of draw 144. -/
theorem rollover_conserved :
    ∃ s, runBlocks youngMainNet (genesisState (lateInfo 0)) (stakedRun ++ [rolloverBlock])
        = .ok s ∧
      runTotal youngMainNet indexedIn (genesisState (lateInfo 0)) (stakedRun ++ [rolloverBlock])
        = 200000000 ∧
      runTotal youngMainNet indexedIn (genesisState (lateInfo 0)) (stakedRun ++ [rolloverBlock])
        = runTotal youngMainNet prizesPaid (genesisState (lateInfo 0))
            (stakedRun ++ [rolloverBlock]) + unsettledStakes s.idx 3 + rolledOver s.idx 3 := by
  obtain ⟨s, s', hrun, hstep, _, htotal⟩ := stakedRun_accepted
  have hwhole : runBlocks youngMainNet (genesisState (lateInfo 0)) (stakedRun ++ [rolloverBlock])
      = .ok s' := by
    refine runBlocks_append _ _ |>.mpr ⟨s, hrun, ?_⟩
    rw [runBlocks, List.foldlM_cons, hstep]
    rfl
  have hheight : s'.tip.height = 109 := (run_height hwhole).trans (by decide +kernel)
  refine ⟨s', hwhole, htotal, pool_value_conserved _ _ _ s' hwhole (by decide +kernel)
    stakedRun_meets ?_ 3 (by decide) (by rw [hheight]; decide)
    (no_rows_from hwhole (by decide +kernel))⟩
  rw [htotal]
  decide

set_option maxRecDepth 4000 in
/-- Nine FDRW were staked and seven were paid. The other two are in no draw
that waits and in no pool to come. -/
theorem late_rollover_lost :
    ∃ s, runBlocks youngMainNet (genesisState (lateInfo 0)) outOfOrderRun = .ok s ∧
      (∀ block ∈ outOfOrderRun, SingleResult block) ∧
      s.tip.height / drawInterval ≤ 5 ∧ (∀ k, 5 ≤ k → s.idx.poolStakes (drawOf k) = []) ∧
      runTotal youngMainNet indexedIn (genesisState (lateInfo 0)) outOfOrderRun = 900000000 ∧
      runTotal youngMainNet prizesPaid (genesisState (lateInfo 0)) outOfOrderRun = 700000000 ∧
      unsettledStakes s.idx 5 = 0 ∧ rolledOver s.idx 5 = 0 := by
  obtain ⟨s, ⟨staked, paid⟩, htally, hheight, hunsettled, hrolled, hstaked, hpaid⟩ : ∃ s tally,
      runTally youngMainNet indexedIn prizesPaid (genesisState (lateInfo 0)) outOfOrderRun =
        .ok (s, tally) ∧
      s.tip.height / drawInterval ≤ 5 ∧ unsettledStakes s.idx 5 = 0 ∧ rolledOver s.idx 5 = 0 ∧
      tally.1 = 900000000 ∧ tally.2 = 700000000 := by decide +kernel
  obtain ⟨hrun, htotal, hprizes⟩ := runTally_ok htally
  exact ⟨s, hrun, by decide +kernel, hheight, no_rows_from hrun (by decide +kernel),
    htotal.trans hstaked, hprizes.trans hpaid, hunsettled, hrolled⟩

end FalconDraw.Chain
