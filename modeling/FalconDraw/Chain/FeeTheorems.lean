/-
FalconDraw.Chain.FeeTheorems — what a miner may collect.

`grossFees` is the sum of fees as the code takes it, inputs minus outputs against
the view before each transaction; `netFees` also takes off the stake a version 6
transaction declares.
-/
import FalconDraw.Chain.ConnectTheorems

namespace FalconDraw.Chain

open Lib Wire Draw

variable {env : Env} {utxos : UtxoSet} {idx : StakeIndex} {node : BlockNode} {block : Block}
  {view : UtxoViewpoint}

/-! ## The values a transaction moves -/

/-- Ordinary and pool-stake transactions: those whose inputs are looked up. -/
def movesCoins (tx : Tx) : Bool :=
  !tx.isCoinBase && !(isDrawSettlementTx tx || isVDFResultTx tx)

def inputValue (view : UtxoViewpoint) (tx : Tx) : Int :=
  ((spentAmounts view tx.msgTx.txIn).map sumInt).getD 0

def outputValue (tx : Tx) : Int := sumInt (tx.msgTx.txOut.map TxOut.value)

/-- The stake declared by a pool-stake transaction, zero for any other. -/
def stakeValue (tx : Tx) : Int :=
  if isPoolStakingTx tx then ((declaredStake tx.msgTx).map fun d => d.amount.toInt).getD 0 else 0

/-- Sum a per-transaction value over the block, each against the view before
the transaction. -/
def sumOverLoop (height : Nat) (f : UtxoViewpoint → Tx → Int) : UtxoViewpoint → List Tx → Int
  | _, [] => 0
  | view, tx :: txs => f view tx + sumOverLoop height f (stepView height view tx) txs

def grossFees (height : Nat) : UtxoViewpoint → List Tx → Int :=
  sumOverLoop height fun view tx =>
    if movesCoins tx then inputValue view tx - outputValue tx else 0

def netFees (height : Nat) : UtxoViewpoint → List Tx → Int :=
  sumOverLoop height fun view tx =>
    if movesCoins tx then inputValue view tx - outputValue tx - stakeValue tx else 0

def stakedValue (txs : List Tx) : Int :=
  (txs.map fun tx => if movesCoins tx then stakeValue tx else 0).sum

theorem grossFees_eq (height : Nat) (txs : List Tx) : ∀ view : UtxoViewpoint,
    grossFees height view txs = netFees height view txs + stakedValue txs := by
  induction txs with
  | nil => intro view; rfl
  | cons tx txs ih =>
    intro view
    have hrest := ih (stepView height view tx)
    simp only [grossFees, netFees, sumOverLoop, stakedValue, List.map_cons, List.sum_cons]
      at hrest ⊢
    split <;> omega

/-! ## One transaction -/

theorem sumInputs_ok {p : Params} {height : Nat} {b : Int64} :
    ∀ {txIn : List TxIn} {total : Int64}, 0 ≤ total.toInt → total.toInt ≤ maxSatoshi.toInt →
      sumInputs p height view total txIn = .ok b →
      ∃ amounts, spentAmounts view txIn = some amounts ∧ b.toInt = total.toInt + sumInt amounts ∧
        b.toInt ≤ maxSatoshi.toInt
  | [], total, _, hhi, h => by
      simp only [sumInputs, Except.ok.injEq] at h
      exact ⟨[], by simp [spentAmounts], by simp [h], h ▸ hhi⟩
  | t :: ts, total, hlo, hhi, h => by
      cases he : view.lookupEntry t.previousOutPoint with
      | none => simp [sumInputs, he] at h
      | some e =>
        simp only [sumInputs, he, bind_eq_ok, exists_unit, rejectIf_eq_ok, not_or,
          Int64.not_lt, Int64.le_iff_toInt_le, Int64.toInt_zero] at h
        obtain ⟨_, _, hneg, hmax, ⟨_, htmax⟩, hrest⟩ := h
        have hbound := maxSatoshi_toInt
        have hadd : (total + e.amount).toInt = total.toInt + e.amount.toInt :=
          toInt_add_of_fits (by omega) (by omega)
        obtain ⟨amounts, hamounts, hb, hble⟩ := sumInputs_ok (by omega) htmax hrest
        refine ⟨e.amount :: amounts, ?_, ?_, hble⟩
        · simp only [spentAmounts, List.mapM_cons] at hamounts ⊢
          simp [he, hamounts]
        · rw [hb, hadd, sumInt_cons]
          omega

/-- The fee `CheckTransactionInputs` returns is inputs minus outputs, with no
account of a declared stake. -/
theorem checkTransactionInputs_ok {p : Params} {height : Nat} {tx : Tx} {fee : Int64}
    (hsane : SaneTx tx) (h : checkTransactionInputs tx height view p = .ok fee) :
    0 ≤ fee.toInt ∧ fee.toInt ≤ maxSatoshi.toInt ∧
      fee.toInt = if movesCoins tx then inputValue view tx - outputValue tx else 0 := by
  have hbound := maxSatoshi_toInt
  unfold checkTransactionInputs at h
  split at h
  case isTrue hcb =>
    obtain rfl : 0 = fee := by simpa using h
    simp [movesCoins, hcb, hbound]
  case isFalse hcb =>
    split at h
    case isTrue hsent =>
      obtain rfl : 0 = fee := by simpa using h
      simp [movesCoins, hsent, hbound]
    case isFalse hsent =>
      simp only [bind_eq_ok, exists_unit, rejectIf_eq_ok, pure_eq_ok, Int64.not_lt,
        Int64.le_iff_toInt_le] at h
      obtain ⟨b, hin, hle, rfl⟩ := h
      obtain ⟨amounts, hamounts, hb, hbmax⟩ := sumInputs_ok (by simp) (by simp [hbound]) hin
      have hout0 : 0 ≤ outputValue tx := sumInt_nonneg fun v hv => by
        obtain ⟨o, ho, rfl⟩ := List.mem_map.mp hv
        exact hsane.value_nonneg o ho
      have houtmax : outputValue tx ≤ maxSatoshi.toInt := hsane.total_le
      have hout : (sum64 (tx.msgTx.txOut.map TxOut.value)).toInt = outputValue tx :=
        toInt_sum64_of_fits (by unfold outputValue at hout0; omega)
          (by unfold outputValue at houtmax; omega)
      rw [hout] at hle
      have hin' : inputValue view tx = b.toInt := by
        simp [inputValue, hamounts, hb]
      have hmoves : movesCoins tx = true := by
        simp [movesCoins, hcb, hsent]
      have hfee : (b - sum64 (tx.msgTx.txOut.map TxOut.value)).toInt
          = b.toInt - outputValue tx := by
        rw [toInt_sub_of_fits (by omega) (by omega), hout]
      rw [if_pos hmoves, hfee, hin']
      omega

/-! ## The loop -/

theorem connectStep_fees {s s' : ConnectState} {tx : Tx} (hsane : SaneTx tx)
    (hlo : 0 ≤ s.totalFees.toInt) (h : connectStep env node s tx = .ok s') :
    0 ≤ s'.totalFees.toInt ∧ s'.totalFees.toInt = s.totalFees.toInt +
      if movesCoins tx then inputValue s.view tx - outputValue tx else 0 := by
  obtain ⟨fee, spent, hfee, _, hover, _, htotal, _⟩ := connectStep_ok h
  obtain ⟨hfee0, hfeemax, hfeeval⟩ := checkTransactionInputs_ok hsane hfee
  rw [Int64.not_lt, Int64.le_iff_toInt_le] at hover
  have hbound := maxSatoshi_toInt
  have hlt := s.totalFees.toInt_lt
  -- a wrapped total would be negative, which the accumulator check refuses
  have hsum : (s.totalFees + fee).toInt = s.totalFees.toInt + fee.toInt := by
    by_cases hfits : s.totalFees.toInt + fee.toInt < 2 ^ 63
    · exact toInt_add_of_fits (by omega) hfits
    · have hneg : (s.totalFees + fee).toInt < 0 := by
        rw [Int64.toInt_add]
        exact bmod_neg_of_wraps (by omega) (by omega)
      omega
  rw [htotal, hsum, ← hfeeval]
  exact ⟨by omega, rfl⟩

theorem connectLoop_fees : ∀ {txs : List Tx} {s s' : ConnectState},
    (∀ tx ∈ txs, SaneTx tx) → 0 ≤ s.totalFees.toInt → txs.foldlM (connectStep env node) s = .ok s' →
    0 ≤ s'.totalFees.toInt ∧
      s'.totalFees.toInt = s.totalFees.toInt + grossFees node.height s.view txs
  | [], s, s', _, hlo, h => by
      obtain rfl : s = s' := by simpa using h
      simp [grossFees, sumOverLoop, hlo]
  | tx :: txs, s, s', hsane, hlo, h => by
      simp only [List.foldlM_cons, bind_eq_ok] at h
      obtain ⟨s₁, h₁, h₂⟩ := h
      obtain ⟨hlo₁, hfees₁⟩ := connectStep_fees (hsane tx List.mem_cons_self) hlo h₁
      obtain ⟨hlo', hfees'⟩ :=
        connectLoop_fees (fun t ht => hsane t (List.mem_cons_of_mem _ ht)) hlo₁ h₂
      refine ⟨hlo', ?_⟩
      rw [hfees', hfees₁, connectStep_view h₁]
      simp only [grossFees, sumOverLoop]
      omega

/-! ## The coinbase ceiling -/

def coinbaseValue (block : Block) : Int := (block.transactions.head?.map outputValue).getD 0

def loadedView (env : Env) (utxos : UtxoSet) (node : BlockNode) (block : Block)
    (view : UtxoViewpoint) : UtxoViewpoint :=
  match checkConnectPrefix env utxos node block view with
  | .ok loaded => loaded
  | .error _ => view

/-- The bounty `validateVDFSettlement` returns. -/
def vdfBounty (env : Env) (idx : StakeIndex) (node : BlockNode) (block : Block) : Int :=
  match validateVDFSettlement env idx node block with
  | .ok bounty => bounty.toInt
  | .error _ => 0

/-- Subsidy, gross fees and bounty: what the code lets the coinbase pay. -/
def grossCeiling (env : Env) (utxos : UtxoSet) (idx : StakeIndex) (node : BlockNode)
    (block : Block) (view : UtxoViewpoint) : Int :=
  (calcBlockSubsidy node.height env.params).toInt + vdfBounty env idx node block +
    grossFees node.height (loadedView env utxos node block view) block.transactions

/-- The same with the declared stakes taken off: what it may pay if stakes are
burned. -/
def netCeiling (env : Env) (utxos : UtxoSet) (idx : StakeIndex) (node : BlockNode)
    (block : Block) (view : UtxoViewpoint) : Int :=
  (calcBlockSubsidy node.height env.params).toInt + vdfBounty env idx node block +
    netFees node.height (loadedView env utxos node block view) block.transactions

theorem grossCeiling_eq : grossCeiling env utxos idx node block view =
    netCeiling env utxos idx node block view + stakedValue block.transactions := by
  simp only [grossCeiling, netCeiling, grossFees_eq]
  omega

theorem calcBlockSubsidy_range (height : Nat) (p : Params) : 0 ≤ (calcBlockSubsidy height p).toInt ∧
      (calcBlockSubsidy height p).toInt ≤ 100000000000 := by
  unfold calcBlockSubsidy
  split
  · decide
  · -- whole coins between one and a thousand, times the atoms of a coin
    have hcoins : ∀ n : Nat, n ≤ 1000 →
        (Int64.ofNat n * satoshiPerBitcoin).toInt = n * 100000000 := by
      intro n hn
      rw [Int64.toInt_mul, Int64.toInt_ofNat_of_lt (by omega)]
      exact Int.bmod_eq_of_le (by simp [satoshiPerBitcoin]; omega)
        (by simp [satoshiPerBitcoin]; omega)
    have hshift : 1000 >>> (height / p.subsidyReductionInterval) ≤ 1000 := by
      rw [Nat.shiftRight_eq_div_pow]
      exact Nat.div_le_self _ _
    rw [hcoins _ (by split <;> omega)]
    split <;> omega

theorem vdfBountyOwed_range (height : Nat) (pd : PoolDrawData) (submitter : WalletHash) :
    0 ≤ (vdfBountyOwed height pd submitter).toInt ∧
      (vdfBountyOwed height pd submitter).toInt ≤ 10000000000 := by
  unfold vdfBountyOwed calcVDFBounty
  split
  · split <;> decide
  · decide

theorem validateVDFSettlement_range {bounty : Int64}
    (h : validateVDFSettlement env idx node block = .ok bounty) :
    0 ≤ bounty.toInt ∧ bounty.toInt ≤ 10000000000 := by
  cases hv : block.transactions.find? isVDFResultTx with
  | none =>
    obtain ⟨_, rfl⟩ := validateVDFSettlement_none hv h
    decide
  | some vdfTx =>
    obtain ⟨d, _, _, rfl⟩ := validateVDFSettlement_some hv h
    exact vdfBountyOwed_range _ _ _

theorem outputValue_range {tx : Tx} (h : SaneTx tx) :
    0 ≤ outputValue tx ∧ outputValue tx ≤ maxSatoshi.toInt := by
  refine ⟨sumInt_nonneg fun v hv => ?_, h.total_le⟩
  obtain ⟨out, hout, rfl⟩ := List.mem_map.mp hv
  exact h.value_nonneg out hout

theorem coinbaseValue_range (h : SaneBlock block) :
    0 ≤ coinbaseValue block ∧ coinbaseValue block ≤ maxSatoshi.toInt := by
  obtain ⟨cb, rest, htxs, _⟩ := h.coinbase_first
  have := outputValue_range (h.sane cb (by simp [htxs]))
  simpa [coinbaseValue, htxs] using this

/-- The machine test of the ceiling is the inequality over the integers: a
ceiling that wrapped would be negative, below any coinbase. -/
theorem checkCoinbaseValue_eq_ok {totalFees bounty : Int64} (hs : SaneBlock block)
    (hfees : 0 ≤ totalFees.toInt) (hb0 : 0 ≤ bounty.toInt) (hb : bounty.toInt ≤ 10000000000) :
    checkCoinbaseValue env node block totalFees bounty = .ok () ↔
      (calcBlockSubsidy node.height env.params).toInt + totalFees.toInt + bounty.toInt < 2 ^ 63 ∧
      coinbaseValue block ≤
        (calcBlockSubsidy node.height env.params).toInt + totalFees.toInt + bounty.toInt := by
  obtain ⟨hlo, hhi⟩ := coinbaseValue_range hs
  obtain ⟨hs0, hsub⟩ := calcBlockSubsidy_range node.height env.params
  have hbound := maxSatoshi_toInt
  have hlt := totalFees.toInt_lt
  have htotal : (sum64 ((block.transactions.head?.map
      fun cb => cb.msgTx.txOut.map TxOut.value).getD [])).toInt = coinbaseValue block := by
    have hsum : sumInt ((block.transactions.head?.map
        fun cb => cb.msgTx.txOut.map TxOut.value).getD []) = coinbaseValue block := by
      cases h : block.transactions.head? <;> simp [coinbaseValue, outputValue, h]
    rw [toInt_sum64_of_fits (by omega) (by omega), hsum]
  have hexp : (calcBlockSubsidy node.height env.params + totalFees + bounty).toInt =
      ((calcBlockSubsidy node.height env.params).toInt + totalFees.toInt
        + bounty.toInt).bmod (2 ^ 64) := by
    rw [Int64.toInt_add, Int64.toInt_add, Int.bmod_add_bmod]
  simp only [checkCoinbaseValue, rejectIf_eq_ok, Int64.not_lt, Int64.le_iff_toInt_le, htotal, hexp]
  by_cases hfits : (calcBlockSubsidy node.height env.params).toInt + totalFees.toInt
      + bounty.toInt < 2 ^ 63
  · rw [Int.bmod_eq_of_le (by omega) (by omega)]
    exact (and_iff_right hfits).symm
  · grind

/-- An accepted block: the loop ran on the loaded view, and the coinbase stays
under the gross ceiling, which did not wrap. -/
theorem coinbase_le_gross (h : BlockAccepted env utxos idx node block view) :
    grossCeiling env utxos idx node block view < 2 ^ 63 ∧
      coinbaseValue block ≤ grossCeiling env utxos idx node block view := by
  obtain ⟨hsanity, hconnect⟩ := h
  have hs := saneBlock_of_check hsanity
  obtain ⟨loaded, s, hpre, hloop, hsuf⟩ := accepts_checkConnectBlock.mp hconnect
  obtain ⟨bounty, hbounty, hvalue, _⟩ := checkConnectSuffix_ok.mp hsuf
  obtain ⟨hfees0, hfees⟩ := connectLoop_fees hs.sane (by simp) hloop
  obtain ⟨hb0, hb⟩ := validateVDFSettlement_range hbounty
  have hceil : grossCeiling env utxos idx node block view =
      (calcBlockSubsidy node.height env.params).toInt + s.totalFees.toInt + bounty.toInt := by
    simp only [grossCeiling, vdfBounty, hbounty, loadedView, hpre, hfees, Int64.toInt_zero]
    omega
  rw [hceil]
  exact (checkCoinbaseValue_eq_ok hs hfees0 hb0 hb).mp hvalue

end FalconDraw.Chain
