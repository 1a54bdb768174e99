/-
FalconDraw.Chain.BookingTheorems — is the amount paid the amount booked?

A settlement is checked against `ReconstructPoolBalance` on the index before the
block; booked is the sweep of a draw with stakers, or the stored balance of a draw
without.
-/
import FalconDraw.Chain.ConservationTheorems

namespace FalconDraw.Chain

open Lib Wire Draw

/-- The balance `runAndStoreDrawResult` uses for a draw. -/
def bookedBalance (idx : StakeIndex) (drawHeight : ℕ) : Int64 :=
  if idx.poolStakes drawHeight = [] then idx.getPoolBalance drawHeight
  else (idx.absorbIntermediateBalances drawHeight).1

/-- The balance of a draw without stakers has come as far as this draw, or
nothing was rolled over to it. -/
def RolloverArrived (idx : StakeIndex) (drawHeight : ℕ) : Prop :=
  idx.poolStakes drawHeight = [] → idx.getPoolBalance drawHeight ≠ 0 ∨
    idx.rolloverSource (StakeIndex.priorDraws drawHeight) = none

section Index
variable {idx mid : StakeIndex} {front k : ℕ}

theorem reconstruct_eq_absorb (h : idx.Books front) (hmid : mid.Books front)
    (hsame : SameBehind front idx mid) (hk : k < front) (hbound : k < drawBound)
    (hopen : idx.drawResults.get (drawOf k) = none) (hrows : idx.poolStakes (drawOf k) ≠ []) :
    idx.reconstructPoolBalance (drawOf k) = bookedBalance mid (drawOf k) := by
  have hrows' : mid.poolStakes (drawOf k) ≠ [] := by rwa [hsame.rows k hk]
  have hnone : mid.ledger.outcome k = none := by
    rw [StakeIndex.ledger_outcome, hsame.results, hopen]
    rfl
  have hpos : 0 < mid.ledger.deposits k := (StakeIndex.stakedIn_pos_iff hmid.rows _).mpr hrows'
  have hswept := (StakeIndex.absorb_ledger hmid hbound
    (hmid.sound.open_eq k hnone (.inl hpos))).1
  have hrebuilt := StakeIndex.reconstruct_toInt h hbound hopen
  rw [bookedBalance, if_neg hrows', ← Int64.toInt_inj, hswept, hrebuilt, hsame.worth hk]

/-- Without stakers the stored balance is what the recursion reconstructs once
the rollover has arrived. -/
theorem reconstruct_eq_stored_iff (h : idx.Books front) (hsame : SameBehind front idx mid)
    (hk : k < front) (hbound : k < drawBound)
    (hopen : idx.drawResults.get (drawOf k) = none) (hrows : idx.poolStakes (drawOf k) = []) :
    idx.reconstructPoolBalance (drawOf k) = bookedBalance mid (drawOf k) ↔
      idx.getPoolBalance (drawOf k) ≠ 0 ∨
        idx.rolloverSource (StakeIndex.priorDraws (drawOf k)) = none := by
  have hrows' : mid.poolStakes (drawOf k) = [] := by rwa [hsame.rows k hk]
  have hzero : idx.ledger.deposits k = 0 := by
    rw [StakeIndex.ledger_deposits, StakeIndex.stakedIn, hrows]
    rfl
  have hrebuilt := StakeIndex.reconstruct_toInt h hbound hopen
  have hbalance : idx.getPoolBalance (drawOf k) ≠ 0 ↔ idx.ledger.held k ≠ 0 := by
    rw [StakeIndex.ledger_held, ← Int64.toInt_zero, ne_eq, ne_eq, Int64.toInt_inj]
  rw [bookedBalance, if_pos hrows', hsame.balances k hk, ← Int64.toInt_inj, hrebuilt,
    RollingPots.worth, hzero, zero_add, hbalance, ← StakeIndex.carry_eq_zero_iff h,
    ← StakeIndex.ledger_held]
  rcases h.sound.empty_held k hzero with hheld | hheld
  · rw [hheld]
    simp
  · grind

theorem runAndStoreDrawResult_booked {D : ℕ} (seed : Hash) {m : DrawResultMeta}
    (hnone : idx.drawResults.get D = none)
    (hm : (idx.runAndStoreDrawResult D seed).drawResults.get D = some m) :
    m = ⟨(idx.outcome D seed).jackpotWon, (idx.outcome D seed).winnerWalletHash⟩ := by
  by_cases hrows : idx.poolStakes D = []
  · have hempty : idx.outcome D seed = {} := by
      rw [StakeIndex.outcome, StakeIndex.fetchPoolStakeEntries, hrows]
      rfl
    rw [StakeIndex.runAndStoreDrawResult_empty _ _ _ hrows] at hm
    split at hm
    · rw [Bucket.get_put_self, Option.some.injEq] at hm
      rw [← hm, hempty]
      rfl
    · rw [hnone] at hm
      cases hm
  · grind [StakeIndex.runAndStoreDrawResult_staked, Bucket.get_put_self]

end Index

theorem singleResult_around {block : Block} {pre post : List Tx} {vtx : Tx}
    (h : SingleResult block) (htxs : block.transactions = pre ++ vtx :: post)
    (hv : isVDFResultTx vtx = true) :
    (∀ tx ∈ pre, isVDFResultTx tx = false) ∧ ∀ tx ∈ post, isVDFResultTx tx = false := by
  unfold SingleResult at h
  rw [htxs, List.filter_append, List.filter_cons_of_pos hv, List.length_append,
    List.length_cons] at h
  have hnil : ∀ {l : List Tx}, (l.filter isVDFResultTx).length = 0 →
      ∀ tx ∈ l, isVDFResultTx tx = false := by
    simp
  exact ⟨hnil (by omega), hnil (by omega)⟩

/-- Along an orderly run, the pool a block's settlement is checked against is
the balance the index books for its draw if and only if the draw has stakers or
what was rolled over to it has arrived. The result that is stored is always the
one the settlement was checked against. -/
theorem paid_eq_booked_iff (env : Env) (genesis : HeaderInfo) (blocks : List Block)
    (block : Block) (s s' : ChainState) (hrun : runBlocks env (genesisState genesis) blocks = .ok s)
    (hstep : s.extend env block = .ok s') (hone : ∀ b ∈ blocks ++ [block], SingleResult b)
    (hmeets : RunMeets env Orderly (genesisState genesis) (blocks ++ [block]))
    (hfits : runTotal env indexedIn (genesisState genesis) (blocks ++ [block]) < 2 ^ 63)
    (pre post : List Tx) (vtx : Tx) (d : VDFResultData)
    (htxs : block.transactions = pre ++ vtx :: post) (hd : resultData vtx = some d) :
    (s.idx.reconstructPoolBalance d.drawHeight =
        bookedBalance (pre.foldl (StakeIndex.connectTx (s.tip.height + 1) block.hash) s.idx)
          d.drawHeight ↔
      RolloverArrived s.idx d.drawHeight) ∧
    ∀ m, s'.idx.drawResults.get d.drawHeight = some m →
      m.jackpotWon = (poolDrawData s.idx d).jackpotWon ∧
        m.winnerWalletHash = (poolDrawData s.idx d).winnerWalletHash := by
  obtain ⟨hmeets₁, hlast⟩ := runMeets_append.mp hmeets
  have hord : Orderly s block := (hlast s hrun).1
  have hsingle : SingleResult block := hone block (by simp)
  have hvtx := (resultData_eq_some.mp hd).1
  obtain ⟨hpre, hpost⟩ := singleResult_around hsingle htxs hvtx
  obtain ⟨hacc, _, _, hidx, _⟩ := extend_ok hstep
  -- the index before the block, and what its stakes may still add
  have hadd := indexedIn_nonneg hstep hord
  rw [runTotal_append hrun] at hfits
  have hblock : runTotal env indexedIn s [block] = indexedIn s block := by
    simp only [runTotal, hstep, add_zero]
  rw [hblock] at hfits
  obtain ⟨hinv, hstaked, _⟩ := run_from_genesis hrun
    (fun b hb => hone b (List.mem_append_left _ hb)) hmeets₁ (by omega)
  have hbooks : s.idx.Books ((s.tip.height + 1) / drawInterval) :=
    hinv.books.advance (Nat.div_le_div_right (Nat.le_succ _))
  -- the index when the result is connected
  have hready := stakesReady_of_accepted hord hacc
  have hin : indexedIn s block =
    indexedBy (s.tip.height + 1) block.hash s.idx block.transactions := rfl
  rw [htxs] at hready hin
  rw [hin] at hfits
  have hmid : StakesBooked ((s.tip.height + 1) / drawInterval) s.idx
      (pre.foldl (StakeIndex.connectTx (s.tip.height + 1) block.hash) s.idx)
      (indexedBy (s.tip.height + 1) block.hash s.idx pre) := by
    refine connectTxs_booked hbooks hready.left
      (fun tx htx => resultData_of_not_result (hpre tx htx)) ?_
    have hrest : 0 ≤ indexedBy (s.tip.height + 1) block.hash
        (pre.foldl (StakeIndex.connectTx (s.tip.height + 1) block.hash) s.idx) (vtx :: post) :=
      indexedBy_nonneg hready.append
    rw [indexedBy_append] at hfits
    omega
  have hv : block.transactions.find? isVDFResultTx = some vtx := by
    grind
  obtain ⟨d', k, hd', hD, hk, hbound, _, hopen⟩ := accepted_result hinv hord.height_lt hacc hv
  obtain rfl : d = d' := Option.some.inj (hd.symm.trans hd')
  refine ⟨?_, fun m hm => ?_⟩
  · rw [hD]
    by_cases hrows : s.idx.poolStakes (drawOf k) = []
    · rw [reconstruct_eq_stored_iff hbooks hmid.behind hk (by omega) hopen hrows]
      exact ⟨fun h _ => h, fun h => h hrows⟩
    · refine iff_of_true ?_ fun hempty => absurd hempty hrows
      exact reconstruct_eq_absorb hbooks hmid.books hmid.behind hk (by omega) hopen hrows
  · -- the stakes after the result leave its record alone
    have hconnect : s'.idx = block.transactions.foldl
        (StakeIndex.connectTx (s.tip.height + 1) block.hash) s.idx := hidx
    rw [hconnect, htxs, List.foldl_append, List.foldl_cons] at hm
    generalize pre.foldl (StakeIndex.connectTx (s.tip.height + 1) block.hash) s.idx = mid
      at hmid hm
    have happly : mid.connectTx (s.tip.height + 1) block.hash vtx =
        StakeIndex.applyResult (s.tip.height + 1) block.hash mid d := by
      rw [StakeIndex.connectTx_eq, hd]
    have hafter : ∀ tx ∈ post, ∀ d', resultData tx = some d' → d'.drawHeight ≠ d.drawHeight := by
      grind [resultData_of_not_result]
    rw [StakeIndex.connectTxs_drawResults _ _ _ _ hafter, happly] at hm
    have hnone : (mid.putVDFResult d.drawHeight (s.tip.height + 1) block.hash d.T
        d.vdfOutput).drawResults.get d.drawHeight = none := by
      rw [StakeIndex.putVDFResult_drawResults, hmid.behind.results, hD]
      exact hopen
    have hrows : mid.poolStakes d.drawHeight = s.idx.poolStakes d.drawHeight := by
      rw [hD]
      exact hmid.behind.rows k hk
    have houtcome : (mid.putVDFResult d.drawHeight (s.tip.height + 1) block.hash d.T
        d.vdfOutput).outcome d.drawHeight (StakeIndex.seedOf d) =
        s.idx.outcome d.drawHeight (StakeIndex.seedOf d) := by
      unfold StakeIndex.outcome StakeIndex.fetchPoolStakeEntries
      rw [StakeIndex.putVDFResult_poolStakes, hrows]
    have hbooked := runAndStoreDrawResult_booked (StakeIndex.seedOf d) hnone hm
    rw [houtcome] at hbooked
    exact ⟨congrArg DrawResultMeta.jackpotWon hbooked,
      congrArg DrawResultMeta.winnerWalletHash hbooked⟩

/-- Draw 108, which has stakers, is booked with the two FDRW its settlement was
checked against. -/
theorem rollover_booked :
    ∃ s s', runBlocks youngMainNet (genesisState (lateInfo 0)) stakedRun = .ok s ∧
      s.extend youngMainNet rolloverBlock = .ok s' ∧
      s.idx.reconstructPoolBalance 108 = bookedBalance ((rolloverBlock.transactions.take 2).foldl
          (StakeIndex.connectTx (s.tip.height + 1) rolloverBlock.hash) s.idx) 108 := by
  obtain ⟨s, s', hrun, hstep, hrows, htotal⟩ := stakedRun_accepted
  refine ⟨s, s', hrun, hstep, ((paid_eq_booked_iff _ _ _ _ s s' hrun hstep (by decide +kernel)
    stakedRun_meets ?_ _ [] { hash := 11, msgTx := buildVDFResultTx ⟨108, 1, 10, 1, 0⟩ }
    ⟨108, 1, 10, 1, 0⟩ rfl (by decide +kernel)).1).mpr fun hempty => absurd hempty hrows⟩
  rw [htotal]
  decide

/-- The rollover of draw 108 lies at draw 144. Draw 180, which has no stakers
either, is settled before 144. -/
def skippingRun : List Block := stakedRun ++ rolloverBlock :: idleBlocks 110 71

def skippingBlock : Block := settlingBlock 181 180 0 ⟨200000000, false, 0⟩

set_option maxRecDepth 4000 in
/-- Its settlement is checked against two FDRW; what is booked for it is nothing. -/
theorem empty_draw_skipped :
    ∃ s s', runBlocks youngMainNet (genesisState (lateInfo 0)) skippingRun = .ok s ∧
      s.extend youngMainNet skippingBlock = .ok s' ∧
      s.idx.reconstructPoolBalance 180 = 200000000 ∧
      bookedBalance ((skippingBlock.transactions.take 2).foldl
        (StakeIndex.connectTx (s.tip.height + 1) skippingBlock.hash) s.idx) 180 = 0 := by
  simp only [exists_and_left]
  decide +kernel

end FalconDraw.Chain
