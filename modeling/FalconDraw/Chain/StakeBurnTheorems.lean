/-
FalconDraw.Chain.StakeBurnTheorems — are staked atoms burned?

A stake is declared in an OP_RETURN and is no output, so the coinbase may collect
it as a fee.
-/
import Mathlib.Algebra.Order.Group.Int
import FalconDraw.Chain.CoinbaseTheorems

namespace FalconDraw.Chain

open Lib Wire Script Draw

variable {env : Env} {utxos : UtxoSet} {idx : StakeIndex} {node : BlockNode} {block : Block}
  {view : UtxoViewpoint}

/-- The coinbase pays at most subsidy, bounty and the fees net of stakes. -/
def StakesBurned (env : Env) (utxos : UtxoSet) (idx : StakeIndex) (node : BlockNode)
    (block : Block) (view : UtxoViewpoint) : Prop :=
  coinbaseValue block ≤ netCeiling env utxos idx node block view

instance : Decidable (StakesBurned env utxos idx node block view) :=
  inferInstanceAs (Decidable (_ ≤ _))

def StakesNothing (block : Block) : Prop :=
  ∀ tx ∈ block.transactions, isPoolStakingTx tx = false

instance : Decidable (StakesNothing block) := inferInstanceAs (Decidable (∀ _ ∈ _, _))

/-! ## The stakes of an accepted block -/

theorem settlement_not_staking {tx : Tx} {drawHeight : Nat} {pd : PoolDrawData}
    (h : validateDrawSettlementTx tx drawHeight pd = .ok ()) : isPoolStakingTx tx = false := by
  obtain ⟨marker, houts, hmark, _⟩ := validateDrawSettlementTx_ok h
  have hmarker : isPoolStakingOpReturn marker.pkScript = false := by
    grind [extractDrawSettlementMarker, isPoolStakingOpReturn]
  have hwinner : ∀ out ∈ winnerOutputs pd, isPoolStakingOpReturn out.pkScript = false := by
    simp [winnerOutputs, isPoolStakingOpReturn, makeWinnerP2WPKHScript]
  have hnone : (tx.msgTx.txOut.find? fun out => isPoolStakingOpReturn out.pkScript) = none := by
    simpa [houts, hmarker] using hwinner
  simp [isPoolStakingTx, findPoolStakingOpReturn, hnone]

theorem accepted_stake (h : BlockAccepted env utxos idx node block view) {tx : Tx}
    (htx : tx ∈ block.transactions) (hstake : isPoolStakingTx tx = true) :
    movesCoins tx = true ∧ 100000000 ≤ stakeValue tx := by
  obtain ⟨loaded, s, _, hloop, hsuf⟩ := accepts_checkConnectBlock.mp h.2
  obtain ⟨bounty, hbounty, _⟩ := checkConnectSuffix_ok.mp hsuf
  obtain ⟨s₁, s₂, hstep⟩ := connectLoop_mem hloop htx
  obtain ⟨_, _, _, hvalid, _⟩ := connectStep_ok hstep
  obtain ⟨hins, d, hdecl, hdata⟩ := validatePoolStakeTx_declares (hvalid hstake)
  have hnotcb : tx.isCoinBase = false := by
    by_contra hcb
    obtain ⟨e, he⟩ := checkStakeInput_coinbase (Bool.not_eq_false _ ▸ hcb)
    rw [forM_eq_ok (u := ()) |>.mpr hins] at he
    cases he
  have hnotset : isDrawSettlementTx tx = false := by
    by_contra hset
    obtain ⟨_, d', _, _, hsettle⟩ :=
      settlement_validated hbounty htx (Bool.not_eq_false _ ▸ hset)
    simp [settlement_not_staking hsettle] at hstake
  have hnotvdf : isVDFResultTx tx = false := by
    simp only [isPoolStakingTx, Bool.and_eq_true, beq_iff_eq] at hstake
    simp [isVDFResultTx, hstake.1, txVersionPoolStake, txVersionVDFResult]
  refine ⟨by simp [movesCoins, hnotcb, hnotset, hnotvdf], ?_⟩
  simp only [checkStakeData, bind_eq_ok, exists_unit, rejectIf_eq_ok, Int64.not_lt,
    Int64.le_iff_toInt_le] at hdata
  have hmin : (100000000 : Int) ≤ d.amount.toInt := hdata.2.2.1
  simpa [stakeValue, hstake, hdecl] using hmin

theorem stakedValue_nothing (h : StakesNothing block) : stakedValue block.transactions = 0 := by
  apply List.sum_eq_zero
  intro x hx
  obtain ⟨tx, htx, rfl⟩ := List.mem_map.mp hx
  simp [stakeValue, h tx htx]

theorem stakedValue_pos (h : BlockAccepted env utxos idx node block view)
    (hstakes : ¬ StakesNothing block) : 0 < stakedValue block.transactions := by
  simp only [StakesNothing, not_forall, Bool.not_eq_false] at hstakes
  obtain ⟨tx, htx, hstake⟩ := hstakes
  obtain ⟨hmoves, hmin⟩ := accepted_stake h htx hstake
  have hone : (if movesCoins tx then stakeValue tx else 0) ≤ stakedValue block.transactions := by
    refine List.single_le_sum ?_ _ (List.mem_map_of_mem htx)
    intro x hx
    obtain ⟨t, ht, rfl⟩ := List.mem_map.mp hx
    cases hs : isPoolStakingTx t with
    | false => simp [stakeValue, hs]
    | true =>
      obtain ⟨hm, hmin'⟩ := accepted_stake h ht hs
      rw [if_pos hm]
      omega
  rw [if_pos hmoves] at hone
  omega

theorem burned_of_stakesNothing (h : BlockAccepted env utxos idx node block view)
    (hnone : StakesNothing block) : StakesBurned env utxos idx node block view := by
  have hle := (coinbase_le_gross h).2
  rw [grossCeiling_eq, stakedValue_nothing hnone] at hle
  unfold StakesBurned
  omega

/-! ## The exact condition -/

theorem stakesNothing_withBurn (v : Int64) :
    StakesNothing (withBurn block v) ↔ StakesNothing block := by
  cases htxs : block.transactions with
  | nil => simp [StakesNothing, withBurn, htxs]
  | cons cb rest =>
    simp [StakesNothing, withBurn_transactions v htxs, htxs, isPoolStakingTx_burnTx]

theorem ne_nil_of_accepted {v : Int64}
    (h : BlockAccepted env utxos idx node (withBurn block v) view) :
    ∃ cb rest, block.transactions = cb :: rest ∧ cb.isCoinBase = true := by
  obtain ⟨c, r, htxs, hc, _⟩ := (saneBlock_of_check h.1).coinbase_first
  cases hb : block.transactions with
  | nil => simp [withBurn, hb] at htxs
  | cons cb rest =>
    rw [withBurn_transactions v hb, List.cons.injEq] at htxs
    rw [← htxs.1, burnTx_isCoinBase] at hc
    exact ⟨cb, rest, rfl, hc⟩

/-- If a block stakes something and `MaxSatoshi` leaves room, some coinbase
collects more than the net ceiling. -/
theorem exists_collecting_coinbase (h : BlockAccepted env utxos idx node (withBurn block 0) view)
    (hstakes : ¬ StakesNothing block)
    (hroom : netCeiling env utxos idx node (withBurn block 0) view < maxSatoshi.toInt) :
    ∃ v, BlockAccepted env utxos idx node (withBurn block v) view ∧
      ¬ StakesBurned env utxos idx node (withBurn block v) view := by
  obtain ⟨cb, rest, hb, hcb⟩ := ne_nil_of_accepted h
  have hbound := maxSatoshi_toInt
  have hpos := stakedValue_pos h ((stakesNothing_withBurn 0).not.mpr hstakes)
  have hle := (coinbase_le_gross h).2
  obtain ⟨hcb0, hcbmax⟩ := coinbaseValue_range (saneBlock_of_check h.1)
  have hgross : grossCeiling env utxos idx node (withBurn block 0) view = _ := grossCeiling_eq
  rw [coinbaseValue_withBurn 0 hb, Int64.toInt_zero, add_zero] at hle hcb0 hcbmax
  -- claim everything up to the smaller of the two bounds
  obtain ⟨target, htarget⟩ : ∃ t, t =
      min (grossCeiling env utxos idx node (withBurn block 0) view) maxSatoshi.toInt := ⟨_, rfl⟩
  have hv : (Int64.ofInt (target - outputValue cb)).toInt = target - outputValue cb :=
    Int64.toInt_ofInt_of_le (by omega) (by omega)
  refine ⟨Int64.ofInt (target - outputValue cb),
    blockAccepted_withBurn _ 0 hb h (by omega) (by omega) (by omega), ?_⟩
  have hnet : netCeiling env utxos idx node (withBurn block _) view = _ :=
    (ceilings_withBurn (Int64.ofInt (target - outputValue cb)) 0 hb hcb).2
  rw [StakesBurned, coinbaseValue_withBurn _ hb, hnet, hv]
  omega

/-- In an accepted block that stakes nothing the coinbase collects nothing
staked. And the code enforces the net ceiling on every coinbase a block may be
given, varied by one OP_RETURN output, exactly when the block stakes nothing or
the net ceiling is not below `MaxSatoshi`. -/
theorem stakes_burned_iff (env : Env) (utxos : UtxoSet) (idx : StakeIndex) (node : BlockNode)
    (block : Block) (view : UtxoViewpoint) :
    (BlockAccepted env utxos idx node block view → StakesNothing block →
      StakesBurned env utxos idx node block view) ∧
    ((∀ v, BlockAccepted env utxos idx node (withBurn block v) view →
        StakesBurned env utxos idx node (withBurn block v) view) ↔
      (BlockAccepted env utxos idx node (withBurn block 0) view → StakesNothing block ∨
        maxSatoshi.toInt ≤ netCeiling env utxos idx node (withBurn block 0) view)) := by
  refine ⟨burned_of_stakesNothing, ?_, ?_⟩
  · intro hall h0
    by_contra hcond
    rw [not_or, not_le] at hcond
    obtain ⟨v, hv, hnot⟩ := exists_collecting_coinbase h0 hcond.1 hcond.2
    exact hnot (hall v hv)
  · intro hcond v hv
    obtain ⟨cb, rest, hb, hcb⟩ := ne_nil_of_accepted hv
    have hle := (coinbase_le_gross hv).2
    obtain ⟨_, hmax⟩ := coinbaseValue_range (saneBlock_of_check hv.1)
    have hnet : netCeiling env utxos idx node (withBurn block v) view = _ :=
      (ceilings_withBurn v 0 hb hcb).2
    have hv0 : 0 ≤ v.toInt := (saneBlock_of_check hv.1).sane (burnTx cb v)
      (by simp [withBurn_transactions v hb]) |>.value_nonneg (burnOutput v) (by simp [burnTx_txOut])
    have h0 : BlockAccepted env utxos idx node (withBurn block 0) view := by
      rw [coinbaseValue_withBurn v hb] at hle hmax
      refine blockAccepted_withBurn 0 v hb hv (by simp) ?_ ?_
      · rw [Int64.toInt_zero]
        omega
      · rw [Int64.toInt_zero]
        omega
    rcases hcond h0 with hnone | hroom
    · exact burned_of_stakesNothing hv ((stakesNothing_withBurn v).mpr hnone)
    · unfold StakesBurned
      omega

/-! ## A block that collects a stake -/

/-- The coin `1:0`, one FDRW of wallet 1. -/
def oneCoin : UtxoSet :=
  Bucket.empty.put ⟨1, 0⟩ ⟨satoshiPerBitcoin, makeWinnerP2WPKHScript 1, 0, false⟩

/-- Wallet 1 stakes its coin; the coinbase pays the subsidy of 1000 FDRW and
one FDRW more. -/
def collectingBlock : Block :=
  regularBlock 1 [coinbaseTx 9 [⟨100100000000, [0x51]⟩], stakeWithChange 100000000 0]

/-- The staked FDRW is paid to the miner. -/
theorem stake_collected_by_miner :
    BlockAccepted youngMainNet oneCoin StakeIndex.empty (regularNode 1) collectingBlock
        (UtxoViewpoint.new mainNetParams.genesisHash) ∧
      ¬ StakesBurned youngMainNet oneCoin StakeIndex.empty (regularNode 1) collectingBlock
        (UtxoViewpoint.new mainNetParams.genesisHash) := by
  decide +kernel

end FalconDraw.Chain
