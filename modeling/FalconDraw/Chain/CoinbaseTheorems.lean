/-
FalconDraw.Chain.CoinbaseTheorems — what an OP_RETURN output of the coinbase
changes.

`burnOutput v` is appended to the coinbase of a block.
-/
import FalconDraw.Chain.FeeTheorems

namespace FalconDraw.Chain

open Lib Wire Script Draw List

/-! ## Appending the output -/

def burnOutput (v : Int64) : TxOut := ⟨v, [0x6a]⟩

def burnTx (cb : Tx) (v : Int64) : Tx :=
  { cb with msgTx := { cb.msgTx with txOut := cb.msgTx.txOut ++ [burnOutput v] } }

/-- The block with one more coinbase output, an OP_RETURN of value `v`. -/
def withBurn (block : Block) (v : Int64) : Block :=
  { block with transactions := match block.transactions with
      | [] => []
      | cb :: rest => burnTx cb v :: rest }

section
variable (cb : Tx) (v w : Int64) (rest : List Tx)

@[simp] theorem burnTx_hash : (burnTx cb v).hash = cb.hash := rfl
@[simp] theorem burnTx_version : (burnTx cb v).msgTx.version = cb.msgTx.version := rfl
@[simp] theorem burnTx_txIn : (burnTx cb v).msgTx.txIn = cb.msgTx.txIn := rfl
@[simp] theorem burnTx_isCoinBase : (burnTx cb v).isCoinBase = cb.isCoinBase := rfl
@[simp] theorem isVDFResultTx_burnTx : isVDFResultTx (burnTx cb v) = isVDFResultTx cb := rfl

theorem burnTx_txOut : (burnTx cb v).msgTx.txOut = cb.msgTx.txOut ++ [burnOutput v] := rfl

theorem burnOutput_unspendable : isUnspendable (burnOutput v).pkScript = true := rfl

/-! ## What the rest of the check reads of it -/

theorem addTxOutsFrom_append_burn (h : Hash) (isCb : Bool) (height : Nat) :
    ∀ (i : Nat) (outs : List TxOut) (view : UtxoViewpoint),
      view.addTxOutsFrom h isCb height i (outs ++ [burnOutput v]) =
        view.addTxOutsFrom h isCb height i outs
  | i, [], view => by
      simp [UtxoViewpoint.addTxOutsFrom, UtxoViewpoint.addTxOut, burnOutput_unspendable]
  | i, out :: outs, view => by
      simp only [cons_append, UtxoViewpoint.addTxOutsFrom]
      exact addTxOutsFrom_append_burn h isCb height (i + 1) outs _

@[simp] theorem addTxOuts_burnTx (view : UtxoViewpoint) (height : Nat) :
    view.addTxOuts (burnTx cb v) height = view.addTxOuts cb height :=
  addTxOutsFrom_append_burn v _ _ _ 0 _ _

theorem connectTransaction_burnTx (view : UtxoViewpoint) (height : Nat) :
    view.connectTransaction (burnTx cb v) height = view.connectTransaction cb height := by
  simp [UtxoViewpoint.connectTransaction]

theorem extractVDFResultData_burnTx :
    extractVDFResultData (burnTx cb v) = extractVDFResultData (burnTx cb w) := by
  unfold extractVDFResultData
  rw [burnTx_txOut, burnTx_txOut]
  cases cb.msgTx.txOut with
  | nil => rfl
  | cons out outs => rfl

theorem isDrawSettlementTx_burnTx :
    isDrawSettlementTx (burnTx cb v) = isDrawSettlementTx (burnTx cb w) := by
  unfold isDrawSettlementTx
  rw [burnTx_txOut, burnTx_txOut]
  cases cb.msgTx.txOut with
  | nil => rfl
  | cons out outs => rfl

theorem isPoolStakingTx_burnTx : isPoolStakingTx (burnTx cb v) = isPoolStakingTx cb := by
  have hburn : isPoolStakingOpReturn (burnOutput v).pkScript = false := rfl
  simp [isPoolStakingTx, findPoolStakingOpReturn, burnTx_txOut, find?_append, hburn]

theorem countSigOps_burnTx : countSigOps (burnTx cb v) = countSigOps (burnTx cb w) := by
  simp [countSigOps, burnTx_txOut, burnOutput]

theorem baseSize_burnTx : (burnTx cb v).msgTx.baseSize = (burnTx cb w).msgTx.baseSize := by
  simp [MsgTx.baseSize, burnTx_txOut, burnOutput, TxOut.serializeSize]

theorem paysBounty_burnTx (bounty : Int64) (submitter : WalletHash) :
    paysBounty (some (burnTx cb v)) bounty submitter
      = paysBounty (some cb) bounty submitter := by
  simp [burnOutput, makeWinnerP2WPKHScript, paysBounty, burnTx_txOut]

theorem createdOutPoints_burnTx :
    createdOutPoints (burnTx cb v :: rest) = createdOutPoints (burnTx cb w :: rest) := by
  simp [createdOutPoints, burnTx_txOut]

theorem inFlight_burnTx (h : Hash) : UtxoViewpoint.inFlight h 0 (burnTx cb v :: rest) =
      match UtxoViewpoint.inFlight h 1 rest with
      | some r => some r
      | none => if cb.hash = h then some (burnTx cb v, 0) else none := rfl

theorem findInput_burnTx (height i : Nat) : UtxoViewpoint.findInput (burnTx cb v :: rest) height i =
      UtxoViewpoint.findInput (burnTx cb w :: rest) height i := by
  funext acc t
  simp only [UtxoViewpoint.findInput, inFlight_burnTx]
  cases UtxoViewpoint.inFlight t.previousOutPoint.hash 1 rest with
  | some r => rfl
  | none =>
    by_cases hh : cb.hash = t.previousOutPoint.hash <;> simp [hh]

theorem findInputsFrom_burnTx (height : Nat) : ∀ (txs : List Tx) (i : Nat) acc,
    UtxoViewpoint.findInputsFrom (burnTx cb v :: rest) height i acc txs =
      UtxoViewpoint.findInputsFrom (burnTx cb w :: rest) height i acc txs
  | [], i, acc => rfl
  | tx :: txs, i, acc => by
      simp only [UtxoViewpoint.findInputsFrom]
      rw [findInput_burnTx cb v w rest height i]
      exact findInputsFrom_burnTx height txs (i + 1) _

end

/-! ## The stages of the check -/

section
variable {env : Env} {utxos : UtxoSet} {idx : StakeIndex} {node : BlockNode} {block : Block}
  {view : UtxoViewpoint} {cb : Tx} {rest : List Tx} (v w : Int64)

theorem withBurn_transactions (hb : block.transactions = cb :: rest) :
    (withBurn block v).transactions = burnTx cb v :: rest := by
  simp [withBurn, hb]

theorem checkConnectPrefix_withBurn (hb : block.transactions = cb :: rest) :
    checkConnectPrefix env utxos node (withBurn block v) view =
      checkConnectPrefix env utxos node (withBurn block w) view := by
  have hcreated : createdOutPoints (withBurn block v).transactions =
      createdOutPoints (withBurn block w).transactions := by
    rw [withBurn_transactions v hb, withBurn_transactions w hb, createdOutPoints_burnTx cb v w]
  have hfetch : ∀ view : UtxoViewpoint, view.fetchInputUtxos utxos (withBurn block v) =
      view.fetchInputUtxos utxos (withBurn block w) := by
    intro view
    simp only [UtxoViewpoint.fetchInputUtxos, UtxoViewpoint.findInputsToFetch,
      withBurn_transactions _ hb, tail_cons]
    rw [findInputsFrom_burnTx cb v w]
    rfl
  have hload : loadView env utxos node (withBurn block v) view =
      loadView env utxos node (withBurn block w) view := by
    simp only [loadView, checkBIP0030, hcreated, hfetch]
  have hsig : ∀ (view : UtxoViewpoint) bip16 segWit,
      checkSigOpCost view bip16 segWit true 0 (withBurn block v).transactions =
        checkSigOpCost view bip16 segWit true 0 (withBurn block w).transactions := by
    intro view bip16 segWit
    simp only [withBurn_transactions _ hb, checkSigOpCost, getSigOpCost,
      countSigOps_burnTx cb v w, burnTx_txIn]
  simp only [checkConnectPrefix, hload, hsig]
  rfl

theorem isCoinBase_txIn (hcb : cb.isCoinBase = true) :
    ∃ t, cb.msgTx.txIn = [t] ∧ t.previousOutPoint.index = maxPrevOutIndex := by
  grind [Tx.isCoinBase, MsgTx.isCoinBase]

theorem checkStakeInput_coinbase (hcb : cb.isCoinBase = true) :
    ∃ e, forM cb.msgTx.txIn checkStakeInput = .error e := by
  obtain ⟨t, ht, hidx⟩ := isCoinBase_txIn hcb
  have hreject : checkStakeInput t = .error (.rule .badTxInput
      "pool staking tx must not have coinbase inputs") := by
    simp only [checkStakeInput, rejectIf, hidx, if_pos]
    rfl
  rw [ht, forM_cons, hreject]
  exact ⟨_, rfl⟩

theorem connectStep_burnTx (hcb : cb.isCoinBase = true) (s : ConnectState) :
    connectStep env node s (burnTx cb v) = connectStep env node s (burnTx cb w) := by
  obtain ⟨e, he⟩ := checkStakeInput_coinbase hcb
  have hfee : ∀ x, checkTransactionInputs (burnTx cb x) node.height s.view env.params = .ok 0 := by
    intro x
    simp [checkTransactionInputs, hcb]
  have hstake : ∀ x, validatePoolStakeTx (burnTx cb x) node.height (some s.view) =
      (do rejectIf (cb.msgTx.version ≠ txVersionPoolStake) (.rule .badTxInput
            ("pool staking tx must use version 6, got " ++ toString cb.msgTx.version))
          .error e) := by
    intro x
    simp only [validatePoolStakeTx, burnTx_version, burnTx_txIn, he]
    rfl
  simp only [connectStep, hfee, isPoolStakingTx_burnTx, hstake, connectTransaction_burnTx]

theorem validateVDFSettlement_withBurn (hb : block.transactions = cb :: rest) :
    validateVDFSettlement env idx node (withBurn block v) =
      validateVDFSettlement env idx node (withBurn block w) := by
  have hdraw : ∀ D pd, validateVDFDrawTxs (burnTx cb v :: rest) D pd =
      validateVDFDrawTxs (burnTx cb w :: rest) D pd := by
    intro D pd
    simp only [validateVDFDrawTxs, checkSettlementTxs, isDrawSettlementTx_burnTx cb v w]
    split
    · -- a settlement in the coinbase is refused for its position
      rfl
    · rfl
  have hcheck : checkVDFResult env idx node (burnTx cb v) =
      checkVDFResult env idx node (burnTx cb w) := by
    simp only [checkVDFResult, extractVDFResultData_burnTx cb v w, burnTx_hash]
  have hany : (burnTx cb v :: rest).any isDrawSettlementTx =
      (burnTx cb w :: rest).any isDrawSettlementTx := by
    simp only [any_cons, isDrawSettlementTx_burnTx cb v w]
  simp only [validateVDFSettlement, withBurn_transactions _ hb, find?_cons,
    isVDFResultTx_burnTx, head?_cons, paysBounty_burnTx, hdraw, hany]
  cases isVDFResultTx cb <;> simp only [hcheck]

theorem coinbaseValue_withBurn (hb : block.transactions = cb :: rest) :
    coinbaseValue (withBurn block v) = outputValue cb + v.toInt := by
  simp [coinbaseValue, withBurn_transactions v hb, outputValue, burnTx_txOut, burnOutput]

theorem loadedView_withBurn (hb : block.transactions = cb :: rest) :
    loadedView env utxos node (withBurn block v) view =
      loadedView env utxos node (withBurn block w) view := by
  simp only [loadedView, checkConnectPrefix_withBurn v w hb]

theorem ceilings_withBurn (hb : block.transactions = cb :: rest) (hcb : cb.isCoinBase = true) :
    grossCeiling env utxos idx node (withBurn block v) view =
        grossCeiling env utxos idx node (withBurn block w) view ∧
      netCeiling env utxos idx node (withBurn block v) view =
        netCeiling env utxos idx node (withBurn block w) view := by
  have hmoves : ∀ x, movesCoins (burnTx cb x) = false := by
    intro x
    simp [movesCoins, hcb]
  have hstep : ∀ view, stepView node.height view (burnTx cb v) =
      stepView node.height view (burnTx cb w) := by
    intro view
    simp only [stepView, connectTransaction_burnTx]
  simp only [grossCeiling, netCeiling, vdfBounty, validateVDFSettlement_withBurn v w hb,
    loadedView_withBurn v w hb, withBurn_transactions _ hb, grossFees, netFees, sumOverLoop,
    hmoves, hstep, Bool.false_eq_true, if_false, and_self]

/-- The scripts of the coinbase are not run and its lock times not looked at, so
the suffix depends on the output through the ceiling only. -/
theorem checkConnectSuffix_withBurn (hb : block.transactions = cb :: rest)
    (hcb : cb.isCoinBase = true) (s : ConnectState) :
    checkConnectSuffix env idx node (withBurn block v) s = .ok () ↔
      ∃ bounty, validateVDFSettlement env idx node (withBurn block w) = .ok bounty ∧
        checkCoinbaseValue env node (withBurn block v) s.totalFees bounty = .ok () ∧
        ((scriptFlags env node block).checkSequence = true →
          ∀ tx ∈ (withBurn block w).transactions, checkSequenceLock node s.view tx = .ok ()) ∧
        (runScripts env node = true → checkBlockScripts env (scriptFlags env node block) s.view
            (withBurn block w).transactions = .ok ()) := by
  have hflags : scriptFlags env node (withBurn block v) = scriptFlags env node block := rfl
  have hlock : checkSequenceLock node s.view (burnTx cb v) =
      checkSequenceLock node s.view (burnTx cb w) := by
    simp [checkSequenceLock, calcSequenceLock, hcb]
  have hscripts : ∀ x, (forM (burnTx cb x).msgTx.txIn.zipIdx fun p =>
      checkInputScript env (scriptFlags env node block) s.view (burnTx cb x) p.2 p.1)
        = .ok () := by
    intro x
    obtain ⟨t, ht, hidx⟩ := isCoinBase_txIn hcb
    refine forM_eq_ok.mpr fun p hp => ?_
    obtain rfl : p = (t, 0) := by simpa [ht] using hp
    simp [checkInputScript, hidx]
  simp only [checkConnectSuffix_ok, hflags, withBurn_transactions _ hb,
    validateVDFSettlement_withBurn v w hb, forall_mem_cons, hlock, checkBlockScripts,
    forM_cons, hscripts]

/-! ## Acceptance -/

theorem checkTransactionSanity_burnTx (h : checkTransactionSanity (burnTx cb w) = .ok ())
    (hv : 0 ≤ v.toInt) (hsum : outputValue cb + v.toInt ≤ maxSatoshi.toInt) :
    checkTransactionSanity (burnTx cb v) = .ok () := by
  have hs := saneTx_of_check h
  have hvals : checkOutputValues 0 (burnTx cb v).msgTx.txOut = .ok () := by
    apply checkOutputValues_of_sum (by simp)
    · intro out hout
      rw [burnTx_txOut, mem_append, mem_singleton] at hout
      rcases hout with hout | rfl
      · exact hs.value_nonneg out (by simp [burnTx_txOut, hout])
      · exact hv
    · simpa [burnTx_txOut, outputValue, burnOutput] using hsum
  have hsize : (burnTx cb v).msgTx.serializeSizeStripped =
      (burnTx cb w).msgTx.serializeSizeStripped := baseSize_burnTx cb v w
  simp only [checkTransactionSanity, bind_eq_ok, exists_unit, rejectIf_eq_ok] at h ⊢
  obtain ⟨hin, _, hsz, _, hrest⟩ := h
  refine ⟨hin, by simp [burnTx_txOut], ?_, hvals, hrest⟩
  rw [hsize]
  exact hsz

theorem checkBlockSanity_withBurn (hb : block.transactions = cb :: rest)
    (h : checkBlockSanity (withBurn block w) = .ok ())
    (hv : 0 ≤ v.toInt) (hsum : outputValue cb + v.toInt ≤ maxSatoshi.toInt) :
    checkBlockSanity (withBurn block v) = .ok () := by
  have hsize : (withBurn block v).serializeSizeStripped =
      (withBurn block w).serializeSizeStripped := by
    simp [Block.serializeSizeStripped, withBurn_transactions _ hb, MsgTx.serializeSizeStripped,
      baseSize_burnTx cb v w]
  simp only [checkBlockSanity, hsize, withBurn_transactions _ hb, bind_eq_ok, exists_unit,
    rejectIf_eq_ok, head?_cons, Option.all_some, burnTx_isCoinBase, tail_cons,
    length_cons, forM_eq_ok, forall_mem_cons, map_cons, burnTx_hash,
    checkLegacySigOps, countSigOps_burnTx cb v w] at h ⊢
  obtain ⟨_, hlen, hsz, hfirst, hothers, ⟨hcbsane, hsane⟩, hrest⟩ := h
  exact ⟨by simp, hlen, hsz, hfirst, hothers,
    ⟨checkTransactionSanity_burnTx v w hcbsane hv hsum, hsane⟩, hrest⟩

/-- A block accepted with one value of the output is accepted with any other
that keeps the coinbase total within `MaxSatoshi` and the ceiling. -/
theorem blockAccepted_withBurn (hb : block.transactions = cb :: rest)
    (h : BlockAccepted env utxos idx node (withBurn block w) view)
    (hv : 0 ≤ v.toInt) (hsum : outputValue cb + v.toInt ≤ maxSatoshi.toInt)
    (hceil : outputValue cb + v.toInt ≤ grossCeiling env utxos idx node (withBurn block w) view) :
    BlockAccepted env utxos idx node (withBurn block v) view := by
  obtain ⟨hsanity, hconnect⟩ := h
  have hs := saneBlock_of_check hsanity
  have hcb : cb.isCoinBase = true := by
    obtain ⟨c, r, htxs, hc, _⟩ := hs.coinbase_first
    rw [withBurn_transactions w hb, List.cons.injEq] at htxs
    rw [← htxs.1] at hc
    exact hc
  have hsanity' := checkBlockSanity_withBurn v w hb hsanity hv hsum
  refine ⟨hsanity', ?_⟩
  obtain ⟨hnowrap, _⟩ := coinbase_le_gross ⟨hsanity, hconnect⟩
  obtain ⟨loaded, s, hpre, hloop, hsuf⟩ := accepts_checkConnectBlock.mp hconnect
  obtain ⟨bounty, hbounty, _, hlocks, hscripts⟩ := checkConnectSuffix_ok.mp hsuf
  obtain ⟨hfees0, hfees⟩ := connectLoop_fees hs.sane (by simp) hloop
  obtain ⟨hb0, hbmax⟩ := validateVDFSettlement_range hbounty
  have hgross : grossCeiling env utxos idx node (withBurn block w) view =
      (calcBlockSubsidy node.height env.params).toInt + s.totalFees.toInt + bounty.toInt := by
    simp only [grossCeiling, vdfBounty, hbounty, loadedView, hpre, hfees, Int64.toInt_zero]
    omega
  refine accepts_checkConnectBlock.mpr ⟨loaded, s, ?_, ?_, ?_⟩
  · rw [checkConnectPrefix_withBurn v w hb]
    exact hpre
  · rw [withBurn_transactions _ hb, foldlM_cons] at hloop ⊢
    rw [connectStep_burnTx v w hcb]
    exact hloop
  · refine (checkConnectSuffix_withBurn v w hb hcb s).mpr ⟨bounty, hbounty, ?_, hlocks, hscripts⟩
    refine (checkCoinbaseValue_eq_ok (saneBlock_of_check hsanity') hfees0 hb0 hbmax).mpr ⟨?_, ?_⟩
    · omega
    · rw [coinbaseValue_withBurn v hb]
      omega

end

end FalconDraw.Chain
