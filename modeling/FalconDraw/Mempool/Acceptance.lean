/-
FalconDraw.Mempool.Acceptance — how transactions get into the pool
(mempool/mempool.go, netsync/manager.go).

`checkMempoolAcceptance` in the source's order, then what follows a decision:
replaced transactions leave, the new one is added, orphans that waited for it are
tried.
-/
import FalconDraw.Mempool.TxPool

namespace FalconDraw.Mempool

open Lib Wire Draw Chain Mining

/-! ## The inputs of a transaction -/

/-- One input of `fetchInputUtxos`: what the chain lacks may be an output of the
pool. -/
def fetchFromPool (mp : TxPool) (view : UtxoViewpoint) (prevOut : OutPoint) : UtxoViewpoint :=
  if (view.lookupEntry prevOut).any fun entry => !entry.isSpent then view
  else match mp.pool.find? prevOut.hash with
    | none => view
    | some poolTxDesc =>
        match poolTxDesc.tx.msgTx.txOut[prevOut.index]? with
        | none => view
        | some out => view.addTxOut prevOut out poolTxDesc.tx.isCoinBase unminedHeight

def fetchInputUtxos (utxos : UtxoSet) (mp : TxPool) (tx : Tx) : UtxoViewpoint :=
  (spends tx).foldl (fetchFromPool mp) (fetchUtxoView utxos tx)

def removeEntry (view : UtxoViewpoint) (op : OutPoint) : UtxoViewpoint :=
  { view with entries := view.entries.delete op }

/-- The outputs of the transaction itself may not exist yet; they leave the view. -/
def checkNotInChain : UtxoViewpoint → List OutPoint → Admission UtxoViewpoint
  | view, [] => .ok view
  | view, op :: ops => do
      refuseIf ((view.lookupEntry op).any fun entry => !entry.isSpent) .duplicate
        "transaction already exists in blockchain"
      checkNotInChain (removeEntry view op) ops

def missingParents (view : UtxoViewpoint) (tx : Tx) : List Hash :=
  ((spends tx).filter fun op =>
    match view.entries.get op with
    | none => false
    | some entry => entry.all UtxoEntry.isSpent).map OutPoint.hash

/-! ## The single checks -/

/-- `validateSegWitDeployment`; the hint for the simulation network is left out. -/
def validateSegWitDeployment (cfg : Config) (chain : ChainState) (tx : Tx) : Admission Unit :=
  refuseIf (tx.msgTx.hasWitness = true ∧ cfg.env.deployments .segwit chain.tip.chain = false)
    .nonstandard ("transaction " ++ Hash.str tx.hash ++
      " has witness data, but segwit isn't active yet")

/-- The per-wallet limit on stakes, confirmed and pending, under the draw height the
stake declares. -/
def checkStakeLimit (chain : ChainState) (mp : TxPool) (tx : Tx) : Admission Unit :=
  match stakeData tx.msgTx with
  | none => .ok ()
  | some d =>
      let n : Int := chain.idx.getWalletStakeCount d.drawHeight d.walletHash +
        mp.pendingStakes d.drawHeight d.walletHash
      refuseIf (maxStakesPerWalletPerDraw ≤ n) .duplicate ("wallet already has " ++ toString n ++
        " stakes in draw " ++ toString d.drawHeight ++ " (limit " ++
        toString maxStakesPerWalletPerDraw ++ ")")

def validateStandardness (cfg : Config) (tx : Tx) (nextBlockHeight : Nat) (medianTimePast : Int)
    (view : UtxoViewpoint) : Admission Unit :=
  if cfg.policy.acceptNonStd then .ok ()
  else do
    relabel ("transaction " ++ Hash.str tx.hash ++ " is not standard: ")
      (checkTransactionStandard cfg tx nextBlockHeight medianTimePast)
    relabel ("transaction " ++ Hash.str tx.hash ++ " has a non-standard input: ")
      (checkInputsStandard cfg view 0 tx.msgTx.txIn)

/-- `CalcSequenceLock` for the pool and `SequenceLockActive`. -/
def validateSequenceLock (chain : ChainState) (tx : Tx) (view : UtxoViewpoint) :
    Admission Unit := do
  let lock ← ofChain (calcSequenceLock chain.tip tx view)
  refuseIf (calcPastMedianTime chain.tip.chain ≤ lock.seconds ∨
      (chain.tip.height + 1 : Int) ≤ lock.blockHeight) .nonstandard
    "transaction's sequence locks on inputs not met"

def validateSigCost (cfg : Config) (tx : Tx) (view : UtxoViewpoint) : Admission Unit := do
  let sigOpCost ← ofChain (getSigOpCost tx false view true true)
  refuseIf (cfg.policy.maxSigOpCostPerTx < sigOpCost) .nonstandard ("transaction " ++
    Hash.str tx.hash ++ " sigop cost is too high: " ++ toString sigOpCost ++ " > " ++
    toString cfg.policy.maxSigOpCostPerTx)

def validateRelayFeeMet (cfg : Config) (tx : Tx) (txFee txSize : Int64) (view : UtxoViewpoint)
    (nextBlockHeight : Nat) (isNew rateLimit free : Bool) : Admission Unit := do
  let minFee := calcMinRequiredTxRelayFee txSize cfg.policy.minRelayTxFee
  refuseIf (defaultBlockPrioritySize - 1000 ≤ txSize ∧ txFee < minFee) .insufficientFee
    ("transaction " ++ Hash.str tx.hash ++ " has " ++ toString txFee ++
      " fees which is under the required amount of " ++ toString minFee)
  if minFee ≤ txFee then .ok ()
  else if !isNew && !rateLimit then .ok ()
  else do
    refuseIf (isNew = true ∧ cfg.policy.disableRelayPriority = false ∧
        cfg.highPriority tx.msgTx view nextBlockHeight = false) .insufficientFee
      ("transaction " ++ Hash.str tx.hash ++ " has insufficient priority")
    refuseIf (free = false) .insufficientFee ("transaction " ++ Hash.str tx.hash ++
      " has been rejected by the rate limiter due to low fees")

/-- `StandardVerifyFlags`, as far as block validation knows these flags. -/
def standardVerifyFlags : ScriptFlags := ⟨true, true, true, true, true, true, true⟩

/-- `ValidateTransactionScripts` with the standard flags. -/
def validateTransactionScripts (cfg : Config) (view : UtxoViewpoint) (tx : Tx) : Check Unit :=
  forM tx.msgTx.txIn.zipIdx fun p =>
    checkInputScript { cfg.env with runScript := fun _ => cfg.runStandard } standardVerifyFlags
      view tx p.2 p.1

/-! ## Replacement -/

/-- The loop of `validateReplacement` over the conflicts: the sum of their fees. -/
def sumConflictFees (mp : TxPool) (tx : Tx) (txFeeRate : Int64) : Int64 → List Tx → Admission Int64
  | conflictsFee, [] => .ok conflictsFee
  | conflictsFee, conflict :: conflicts =>
      match mp.pool.find? conflict.hash with
      | none => .error .panic
      | some desc => do
          refuseIf (txFeeRate ≤ desc.feePerKB) .insufficientFee (Hash.str tx.hash ++
            ": replacement transaction has an insufficient fee rate: needs more than " ++
            toString desc.feePerKB ++ ", has " ++ toString txFeeRate)
          sumConflictFees mp tx txFeeRate (conflictsFee + desc.fee) conflicts

def validateReplacement (cfg : Config) (mp : TxPool) (tx : Tx) (txFee : Int64) :
    Admission (Keyed Tx.hash) := do
  let conflicts ← TxPool.ofWalk (mp.txConflicts tx)
  refuseIf (maxReplacementEvictions < conflicts.size) .nonstandard (Hash.str tx.hash ++
    ": replacement transaction evicts more transactions than permitted: max is " ++
    toString maxReplacementEvictions ++ ", evicts " ++ toString conflicts.size)
  let ancestors ← TxPool.ofWalk (mp.txAncestors tx)
  refuseIf (ancestors.any fun a => (conflicts.find? a.hash).isSome) .invalid (Hash.str tx.hash ++
    ": replacement transaction spends parent transaction")
  let txSize := getTxVirtualSize tx.msgTx
  let conflictsFee ← sumConflictFees mp tx (txFee * 1000 / txSize) 0 conflicts.entries
  let conflictsParents := conflicts.entries.flatMap fun c => (spends c).map OutPoint.hash
  let minFee := calcMinRequiredTxRelayFee txSize cfg.policy.minRelayTxFee
  refuseIf (txFee < conflictsFee + minFee) .insufficientFee (Hash.str tx.hash ++
    ": replacement transaction has an insufficient absolute fee: needs " ++
    toString (conflictsFee + minFee) ++ ", has " ++ toString txFee)
  refuseIf ((spends tx).any fun op =>
      decide (op.hash ∉ conflictsParents) && mp.isTransactionInPool op.hash) .invalid
    "replacement transaction spends new unconfirmed input not found in conflicting transactions"
  return conflicts

def replacedBy (cfg : Config) (mp : TxPool) (tx : Tx) (txFee : Int64) (isReplacement : Bool) :
    Admission (Keyed Tx.hash) :=
  if isReplacement then validateReplacement cfg mp tx txFee else .ok Keyed.empty

/-! ## The whole check -/

/-- `MempoolAcceptResult`: the parents that are missing, or the rest. -/
inductive AcceptResult
  | missing (parents : List Hash)
  | valid (txFee : Int64) (conflicts : Keyed Tx.hash) (utxoView : UtxoViewpoint)

def checkMempoolAcceptance (cfg : Config) (chain : ChainState) (mp : TxPool) (tx : Tx)
    (isNew rateLimit rejectDupOrphans free : Bool) : Admission AcceptResult := do
  validateSegWitDeployment cfg chain tx
  refuseIf (mp.isTransactionInPool tx.hash = true ∨
      rejectDupOrphans = true ∧ mp.isOrphanInPool tx.hash = true) .duplicate
    ("already have transaction in mempool " ++ Hash.str tx.hash)
  refuseIf (tx.msgTx.serializeSizeStripped < minStandardTxNonWitnessSize) .nonstandard
    ("tx " ++ Hash.str tx.hash ++ " is too small")
  ofChain (checkTransactionSanity tx)
  refuseIf (tx.isCoinBase = true) .invalid
    ("transaction is an individual coinbase " ++ Hash.str tx.hash)
  checkStakeLimit chain mp tx
  let nextBlockHeight := chain.tip.height + 1
  let isReplacement ← mp.checkPoolDoubleSpend cfg.policy tx.msgTx.txIn
  let utxoView ← checkNotInChain (fetchInputUtxos chain.utxos mp tx) (outPoints tx)
  match missingParents utxoView tx with
  | parent :: parents => return .missing (parent :: parents)
  | [] => do
      let txFee ← ofChain (checkTransactionInputs tx nextBlockHeight utxoView cfg.env.params)
      validateStandardness cfg tx nextBlockHeight (calcPastMedianTime chain.tip.chain) utxoView
      validateSequenceLock chain tx utxoView
      validateSigCost cfg tx utxoView
      validateRelayFeeMet cfg tx txFee (getTxVirtualSize tx.msgTx) utxoView nextBlockHeight isNew
        rateLimit free
      let conflicts ← replacedBy cfg mp tx txFee isReplacement
      ofChain (validateTransactionScripts cfg utxoView tx)
      return .valid txFee conflicts utxoView

/-- What a transaction that was found acceptable satisfies. -/
structure Admissible (cfg : Config) (chain : ChainState) (mp : TxPool) (tx : Tx)
    (isNew rateLimit free : Bool) (txFee : Int64) (conflicts : Keyed Tx.hash)
    (view : UtxoViewpoint) : Prop where
  segwit : tx.msgTx.hasWitness = true → cfg.env.deployments .segwit chain.tip.chain = true
  fresh : mp.pool.find? tx.hash = none
  sane : checkTransactionSanity tx = .ok ()
  no_coinbase : tx.isCoinBase = false
  limit : checkStakeLimit chain mp tx = .ok ()
  replaced : ∃ isReplacement, mp.checkPoolDoubleSpend cfg.policy tx.msgTx.txIn = .ok isReplacement ∧
    replacedBy cfg mp tx txFee isReplacement = .ok conflicts
  loaded : checkNotInChain (fetchInputUtxos chain.utxos mp tx) (outPoints tx) = .ok view
  parents : missingParents view tx = []
  fee : checkTransactionInputs tx (chain.tip.height + 1) view cfg.env.params = .ok txFee
  standard : validateStandardness cfg tx (chain.tip.height + 1)
    (calcPastMedianTime chain.tip.chain) view = .ok ()
  locks : validateSequenceLock chain tx view = .ok ()
  sigCost : validateSigCost cfg tx view = .ok ()
  relayFee : validateRelayFeeMet cfg tx txFee (getTxVirtualSize tx.msgTx) view
    (chain.tip.height + 1) isNew rateLimit free = .ok ()
  scripts : validateTransactionScripts cfg view tx = .ok ()

theorem checkMempoolAcceptance_valid {cfg : Config} {chain : ChainState} {mp : TxPool} {tx : Tx}
    {isNew rateLimit rejectDupOrphans free : Bool} {txFee : Int64} {conflicts : Keyed Tx.hash}
    {view : UtxoViewpoint}
    (h : checkMempoolAcceptance cfg chain mp tx isNew rateLimit rejectDupOrphans free =
      .ok (.valid txFee conflicts view)) :
    Admissible cfg chain mp tx isNew rateLimit free txFee conflicts view := by
  simp only [checkMempoolAcceptance, bind_eq_ok, exists_unit, refuseIf_eq_ok, ofChain_eq_ok,
    validateSegWitDeployment] at h
  obtain ⟨hsegwit, hdup, _, hsane, hcoinbase, hlimit, isReplacement, hdouble, view', hview, h⟩ := h
  split at h
  · cases h
  · rename_i hparents
    simp only [bind_eq_ok, exists_unit, ofChain_eq_ok, pure_eq_ok, AcceptResult.valid.injEq] at h
    obtain ⟨_, hfee, hstandard, hlocks, hsig, hrelay, _, hconf, hscripts, rfl, rfl, rfl⟩ := h
    refine ⟨?_, ?_, hsane, Bool.eq_false_iff.mpr hcoinbase, hlimit, ⟨isReplacement, hdouble, hconf⟩,
      hview, hparents, hfee, hstandard, hlocks, hsig, hrelay, hscripts⟩
    · intro hwit
      exact Bool.eq_true_of_not_eq_false fun hoff => hsegwit ⟨hwit, hoff⟩
    · rw [TxPool.isTransactionInPool] at hdup
      exact Option.not_isSome_iff_eq_none.mp fun hin => hdup (Or.inl hin)

/-! ## Acting on it -/

/-- What `maybeAcceptTransaction` returns, with the pool after it. -/
inductive Accepted
  | missing (parents : List Hash)
  | added (mp : TxPool) (txD : TxDesc)

/-- The replaced transactions leave, one by one. The log line reads the pool's entry
of each. -/
def removeConflicts (mp : TxPool) (conflicts : List Tx) : Option TxPool :=
  conflicts.foldlM (fun mp conflict => do
    let _ ← mp.pool.find? conflict.hash
    mp.removeTransaction conflict false) mp

def maybeAcceptTransaction (cfg : Config) (chain : ChainState) (mp : TxPool) (tx : Tx)
    (isNew rateLimit rejectDupOrphans free : Bool) : Admission Accepted := do
  match ← checkMempoolAcceptance cfg chain mp tx isNew rateLimit rejectDupOrphans free with
  | .missing parents => return .missing parents
  | .valid txFee conflicts _ =>
      match removeConflicts mp conflicts.entries with
      | none => .error .panic
      | some mp =>
          let (mp, txD) := mp.addTransaction tx txFee
          return .added mp txD

/-- The orphans that redeem one output, tried in turn until one is accepted or found
invalid. `none` when the program stops. -/
def acceptOrphan (accept : TxPool → Tx → Admission Accepted) (order : MapOrder) :
    TxPool → List Tx → Option (TxPool × Option TxDesc)
  | mp, [] => some (mp, none)
  | mp, tx :: txs =>
      match accept mp tx with
      | .error e => if e.fatal then none else some (TxPool.removeOrphan order mp tx true, none)
      | .ok (.missing _) => acceptOrphan accept order mp txs
      | .ok (.added mp txD) => some (TxPool.removeOrphan order mp tx false, some txD)

/-- The output loop of `processOrphans` for one transaction. -/
def processOutputs (accept : TxPool → Tx → Admission Accepted) (order : MapOrder) :
    TxPool → List OutPoint → Option (TxPool × List TxDesc)
  | mp, [] => some (mp, [])
  | mp, prevOut :: ops => do
      let (mp, txD) ← acceptOrphan accept order mp (mp.orphansOf order prevOut)
      let (mp, txDs) ← processOutputs accept order mp ops
      return (mp, txD.toList ++ txDs)

/-- The loop of `processOrphans` over its list: every accepted orphan is put at the
end. -/
def processList (accept : TxPool → Tx → Admission Accepted) (order : MapOrder) :
    Nat → TxPool → List Tx → Option (TxPool × List TxDesc)
  | _, mp, [] => some (mp, [])
  | 0, _, _ :: _ => none
  | rounds + 1, mp, item :: items => do
      let (mp, found) ← processOutputs accept order mp (outPoints item)
      let (mp, txDs) ← processList accept order rounds mp (items ++ found.map TxDesc.tx)
      return (mp, found ++ txDs)

/-- How `processOrphans` tries an orphan. -/
def tryOrphan (cfg : Config) (chain : ChainState) (free : Hash → Bool) (mp : TxPool) (tx : Tx) :
    Admission Accepted :=
  maybeAcceptTransaction cfg chain mp tx true true false (free tx.hash)

/-- `processOrphans`: no more rounds than there are orphans, and one. -/
def processOrphans (cfg : Config) (chain : ChainState) (order : MapOrder) (mp : TxPool)
    (acceptedTx : Tx) (free : Hash → Bool) : Option (TxPool × List TxDesc) := do
  let (mp, accepted) ← processList (tryOrphan cfg chain free) order (mp.orphans.size + 1) mp
    [acceptedTx]
  return ((acceptedTx :: accepted.map TxDesc.tx).foldl (TxPool.removeOrphanDoubleSpends order) mp,
    accepted)

/-- `ProcessTransaction`, the pool after it; a refusal leaves it as it was. -/
def processTransaction (cfg : Config) (chain : ChainState) (order : MapOrder) (mp : TxPool)
    (tx : Tx) (allowOrphan rateLimit : Bool) (tag : Nat) (now : Int) (first : Nat)
    (free : Hash → Bool) : Option TxPool :=
  match maybeAcceptTransaction cfg chain mp tx true rateLimit true (free tx.hash) with
  | .error e => if e.fatal then none else some mp
  | .ok (.added mp _) => (processOrphans cfg chain order mp tx free).map Prod.fst
  | .ok (.missing _) =>
      if allowOrphan then
        match TxPool.maybeAddOrphan order cfg.policy mp tx tag now first with
        | .ok mp => some mp
        | .error _ => some mp
      else some mp

/-- `MaybeAcceptTransaction`, the pool after it and whether there was an error. -/
def maybeAccept (cfg : Config) (chain : ChainState) (mp : TxPool) (tx : Tx)
    (isNew rateLimit free : Bool) : Option (TxPool × Bool) :=
  match maybeAcceptTransaction cfg chain mp tx isNew rateLimit true free with
  | .error e => if e.fatal then none else some (mp, true)
  | .ok (.added mp _) => some (mp, false)
  | .ok (.missing _) => some (mp, false)

/-! ## The chain moves -/

def confirmTransaction (cfg : Config) (chain : ChainState) (order : MapOrder) (free : Hash → Bool)
    (mp : TxPool) (tx : Tx) : Option TxPool := do
  let mp ← mp.removeTransaction tx false
  let mp ← mp.removeDoubleSpends tx
  let (mp, _) ← processOrphans cfg chain order (TxPool.removeOrphan order mp tx false) tx free
  return mp

/-- `handleBlockchainNotification` for a connected block; `chain` already ends in
it. A node that is not current does nothing. -/
def blockConnected (cfg : Config) (chain : ChainState) (order : MapOrder) (current : Bool)
    (free : Hash → Bool) (mp : TxPool) (block : Block) : Option TxPool :=
  if current then do
    let mp ← block.transactions.tail.foldlM (confirmTransaction cfg chain order free) mp
    mp.evictExpiredPoolStakes block.height
  else some mp

/-- `handleBlockchainNotification` for a disconnected block. -/
def blockDisconnected (cfg : Config) (chain : ChainState) (free : Hash → Bool) (mp : TxPool)
    (block : Block) : Option TxPool :=
  block.transactions.tail.foldlM (fun mp tx => do
    let (mp, failed) ← maybeAccept cfg chain mp tx false false (free tx.hash)
    if failed then mp.removeTransaction tx true else some mp) mp

end FalconDraw.Mempool
