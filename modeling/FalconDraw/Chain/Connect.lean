/-
FalconDraw.Chain.Connect — `checkConnectBlock` (blockchain/validate.go): may
this block be connected on top of the chain the view stands for?

The function is kept in the source's order: the overwrite check, loading the
inputs, signature operations, then per transaction the input values, the stake
check and the view update, then the VDF result and settlement rules, the coinbase
ceiling, sequence locks and scripts.
-/
import FalconDraw.Chain.Scripts
import FalconDraw.Draw.PoolStake
import FalconDraw.Draw.Settlement
import FalconDraw.Draw.StakeIndex

namespace FalconDraw.Chain

open Lib Wire Draw

/-! ## The overwrite check -/

def bip34ReenableBIP30Height : Nat := 1983702

def block91842Hash : Hash :=
  0xeccae000e3c8e4e093936360431f3b7603c563c1ff6181390a4d0a0000000000

def block91880Hash : Hash :=
  0x21d77ccb4c08386a04ac0196ae10f6a1d2c2a377558ca190f143070000000000

def isBIP0030Node (node : BlockNode) : Bool :=
  (node.height == 91842 && node.hash == block91842Hash) ||
    (node.height == 91880 && node.hash == block91880Hash)

def bip0030CheckNeeded (node : BlockNode) (p : Params) : Bool :=
  if isBIP0030Node node then false
  else if p.bip0034Height < node.height ∧ node.height < bip34ReenableBIP30Height then
    match p.bip0034Hash, node.parent with
    | some want, some parent => (parent.ancestor p.bip0034Height).all fun a => a.hash ≠ want
    | _, _ => true
  else true

def createdOutPoints (txs : List Tx) : List OutPoint :=
  txs.flatMap fun tx => (List.range tx.msgTx.txOut.length).map fun i => ⟨tx.hash, i⟩

/-- `checkBIP0030`, returning the view with the outputs loaded. -/
def checkBIP0030 (utxos : UtxoSet) (block : Block) (view : UtxoViewpoint) :
    Check UtxoViewpoint := do
  let fetch := createdOutPoints block.transactions
  let view' := view.fetchUtxos utxos fetch
  forM fetch fun op =>
    match view'.lookupEntry op with
    | none => .ok ()
    | some utxo => rejectIf (utxo.isSpent = false) (.rule .overwriteTx
        ("tried to overwrite transaction " ++ Hash.str op.hash ++ " at block height " ++
          toString utxo.blockHeight ++ " that is not fully spent"))
  return view'

/-! ## Input values -/

/-- The input loop of `CheckTransactionInputs`. -/
def sumInputs (p : Params) (txHeight : Nat) (view : UtxoViewpoint) :
    Int64 → List TxIn → Check Int64
  | total, [] => .ok total
  | total, t :: ts =>
      match view.lookupEntry t.previousOutPoint with
      | none => .error (.rule .missingTxOut ("output " ++ t.previousOutPoint.str ++
          " either does not exist or has already been spent"))
      | some utxo => do
          rejectIf (utxo.isSpent = true) (.rule .missingTxOut ("output " ++
            t.previousOutPoint.str ++ " either does not exist or has already been spent"))
          rejectIf (utxo.isCoinBase = true ∧
              (txHeight : Int) - utxo.blockHeight < p.coinbaseMaturity) (.rule .immatureSpend
            ("tried to spend coinbase transaction output " ++ t.previousOutPoint.str ++
              " before required maturity"))
          rejectIf (utxo.amount < 0) (.rule .badTxOutValue
            "transaction output has negative value")
          rejectIf (maxSatoshi < utxo.amount) (.rule .badTxOutValue
            "transaction output value is higher than max allowed value")
          rejectIf (total + utxo.amount < total ∨ maxSatoshi < total + utxo.amount)
            (.rule .badTxOutValue "total value of all transaction inputs is too high")
          sumInputs p txHeight view (total + utxo.amount) ts

/-- `CheckTransactionInputs`: the fee of the transaction. Coinbase, settlement
and VDF result transactions are not looked into. -/
def checkTransactionInputs (tx : Tx) (txHeight : Nat) (view : UtxoViewpoint) (p : Params) :
    Check Int64 :=
  if tx.isCoinBase then .ok 0
  else if isDrawSettlementTx tx || isVDFResultTx tx then .ok 0
  else do
    let totalSatoshiIn ← sumInputs p txHeight view 0 tx.msgTx.txIn
    let totalSatoshiOut := sum64 (tx.msgTx.txOut.map TxOut.value)
    rejectIf (totalSatoshiIn < totalSatoshiOut) (.rule .spendTooHigh
      ("total value of all transaction inputs for transaction " ++ Hash.str tx.hash ++ " is " ++
        toString totalSatoshiIn ++ " which is less than the amount spent of " ++
        toString totalSatoshiOut))
    return totalSatoshiIn - totalSatoshiOut

/-- What the transaction loop of `checkConnectBlock` carries. -/
structure ConnectState where
  view      : UtxoViewpoint
  totalFees : Int64
  stxos     : List SpentTxOut

def connectStep (env : Env) (node : BlockNode) (s : ConnectState) (tx : Tx) :
    Check ConnectState := do
  let txFee ← checkTransactionInputs tx node.height s.view env.params
  checkWhen (isPoolStakingTx tx) (validatePoolStakeTx tx node.height (some s.view))
  rejectIf (s.totalFees + txFee < s.totalFees) (.rule .badFees
    "total fees for block overflows accumulator")
  let (view', spent) ← s.view.connectTransaction tx node.height
  return { view := view', totalFees := s.totalFees + txFee, stxos := s.stxos ++ spent }

/-! ## VDF result and settlement -/

/-- Why a recorded settlement of the draw forbids another one, if it does: a
record with a block hash counts when that block is an ancestor, a record without
one always counts. -/
def alreadySettled (env : Env) (idx : StakeIndex) (node : BlockNode) (drawHeight : Nat) :
    Option String :=
  match idx.vdfResults.get drawHeight with
  | none => none
  | some r =>
      match r.settlementBlockHash with
      | some h =>
          if (node.ancestor r.settlementHeight).any fun a => a.hash = h then
            some " already settled"
          else none
      | none =>
          if r.settlementHeight < env.vdfFormatCutoff then some " already settled (legacy record)"
          else some " already settled (malformed record)"

/-- The draw's number of steps is fixed by its own ancestors. -/
def exactTActive (p : Params) (drawHeight : Nat) : Bool :=
  p.vdfExactTActivationHeight ≠ 0 && (p.vdfExactTActivationHeight : Int) ≤ toInt32 drawHeight

/-- The checks on parsed VDF result data, given the ancestor at the draw height. -/
def checkVDFProof (env : Env) (idx : StakeIndex) (node drawNode : BlockNode)
    (d : VDFResultData) : Check Unit := do
  rejectIf (drawNode.hash ≠ d.drawBlockHash) (.rule .badVDFResultTx
    ("VDFResult drawBlockHash mismatch at height " ++ toString d.drawHeight))
  rejectIf (exactTActive env.params d.drawHeight = true ∧ d.T ≠ expectedVDFT env.params drawNode)
    (.rule .badVDFResultTx ("VDFResult T=" ++ toString d.T ++ " for draw " ++
      toString d.drawHeight ++ " does not match consensus-expected T=" ++
      toString (expectedVDFT env.params drawNode)))
  match alreadySettled env idx node d.drawHeight with
  | some why =>
      .error (.rule .badVDFResultTx ("VDFResult for draw " ++ toString d.drawHeight ++ why))
  | none =>
      rejectIf (slothVerify d.drawBlockHash d.vdfOutput d.T (newVDFParams vdfPrime) = false)
        (.rule .badVDFResultTx
          ("VDFResult Sloth proof invalid for draw " ++ toString d.drawHeight))

/-- The loop body of `validateVDFSettlement` for a VDF result transaction. -/
def checkVDFResult (env : Env) (idx : StakeIndex) (node : BlockNode) (tx : Tx) :
    Check VDFResultData :=
  match extractVDFResultData tx with
  | .error e => .error (.rule .badVDFResultTx
      ("invalid VDFResult tx " ++ Hash.str tx.hash ++ ": " ++ e))
  | .ok d => do
      rejectIf (d.T < vdfMinT) (.rule .badVDFResultTx
        ("VDFResult T=" ++ toString d.T ++ " below minimum " ++ toString vdfMinT))
      rejectIf (isDrawBlock (toInt32 d.drawHeight) = false) (.rule .badVDFResultTx
        ("VDFResult drawHeight " ++ toString d.drawHeight ++ " is not a draw block"))
      rejectIf ((node.height : Int) ≤ toInt32 d.drawHeight) (.rule .badVDFResultTx
        ("VDFResult drawHeight " ++ toString d.drawHeight ++ " >= block height " ++
          toString node.height))
      match node.ancestor (toInt32 d.drawHeight) with
      | none => .error (.rule .badVDFResultTx
          ("VDFResult drawHeight " ++ toString d.drawHeight ++ " not in ancestor chain"))
      | some drawNode => do
          checkVDFProof env idx node drawNode d
          return d

def poolDrawData (idx : StakeIndex) (d : VDFResultData) : PoolDrawData :=
  let result := runDraw (idx.fetchPoolStakeEntries d.drawHeight)
    (drawSeed d.drawBlockHash d.vdfOutput)
  { balance := idx.reconstructPoolBalance d.drawHeight
    jackpotWon := result.jackpotWon
    winnerWalletHash := result.winnerWalletHash }

def vdfBountyOwed (height : Nat) (pd : PoolDrawData) (submitter : WalletHash) : Int64 :=
  if 0 < pd.balance ∧ submitter ≠ 0 then calcVDFBounty height else 0

def paysBounty (coinbase : Option Tx) (bounty : Int64) (submitter : WalletHash) : Bool :=
  coinbase.any fun cb => cb.msgTx.txOut.any fun out =>
    out.value == bounty && out.pkScript == makeWinnerP2WPKHScript submitter

/-- `validateVDFSettlement`: the bounty. Only the first version 7 transaction is
looked at. -/
def validateVDFSettlement (env : Env) (idx : StakeIndex) (node : BlockNode) (block : Block) :
    Check Int64 :=
  match block.transactions.find? isVDFResultTx with
  | some tx => do
      let d ← checkVDFResult env idx node tx
      let pd := poolDrawData idx d
      let bounty := vdfBountyOwed node.height pd d.submitterWalletHash
      rejectIf (0 < pd.balance ∧ d.submitterWalletHash ≠ 0 ∧
          paysBounty block.transactions.head? bounty d.submitterWalletHash = false)
        (.rule .badCoinbaseValue ("VDF result block at height " ++ toString node.height ++
          " missing VDF bounty output of " ++ toString bounty ++ " atoms to submitter"))
      validateVDFDrawTxs block.transactions d.drawHeight pd
      return bounty
  | none => do
      rejectIf (block.transactions.any isDrawSettlementTx)
        (.rule .settlementTxWithoutVDFResult
          ("draw settlement tx requires VDFResult tx in same block (height " ++
            toString node.height ++ ")"))
      return 0

/-! ## The whole check -/

def bip16Activation : Int := 1333238400

def scriptFlags (env : Env) (node : BlockNode) (block : Block) : ScriptFlags :=
  let active := fun d => env.deployments d node.ancestors
  { bip16 := bip16Activation ≤ node.info.timestamp
    derSignatures := 3 ≤ block.header.version && env.params.bip0066Height ≤ node.height
    checkLockTime := 4 ≤ block.header.version && env.params.bip0065Height ≤ node.height
    checkSequence := active .csv
    witness := active .segwit
    strictMultiSig := active .segwit
    taproot := active .taproot }

def runScripts (env : Env) (node : BlockNode) : Bool :=
  env.latestCheckpoint.all fun h => h < node.height

def checkCoinbaseValue (env : Env) (node : BlockNode) (block : Block) (totalFees bounty : Int64) :
    Check Unit :=
  let totalSatoshiOut := sum64 ((block.transactions.head?.map
    fun cb => cb.msgTx.txOut.map TxOut.value).getD [])
  let expectedSatoshiOut := calcBlockSubsidy node.height env.params + totalFees + bounty
  rejectIf (expectedSatoshiOut < totalSatoshiOut) (.rule .badCoinbaseValue
    ("coinbase transaction for block pays " ++ toString totalSatoshiOut ++
      " which is more than expected value of " ++ toString expectedSatoshiOut))

/-- The view with everything the block refers to loaded: the overwrite check
where it is needed, then the inputs. -/
def loadView (env : Env) (utxos : UtxoSet) (node : BlockNode) (block : Block)
    (view : UtxoViewpoint) : Check UtxoViewpoint := do
  let view₁ ← if bip0030CheckNeeded node env.params then checkBIP0030 utxos block view
    else .ok view
  return view₁.fetchInputUtxos utxos block

/-- The checks before the transaction loop, returning the loaded view. -/
def checkConnectPrefix (env : Env) (utxos : UtxoSet) (node : BlockNode) (block : Block)
    (view : UtxoViewpoint) : Check UtxoViewpoint := do
  rejectIf (node.hash = env.params.genesisHash) (.rule .missingTxOut
    "the coinbase for the genesis block is not spendable")
  rejectIf (view.bestHash ≠ block.header.prevBlock) (.assert
    "inconsistent view when checking block connection")
  let view' ← loadView env utxos node block view
  let flags := scriptFlags env node block
  checkSigOpCost view' flags.bip16 flags.witness true 0 block.transactions
  return view'

def checkConnectSuffix (env : Env) (idx : StakeIndex) (node : BlockNode) (block : Block)
    (s : ConnectState) : Check Unit := do
  let bounty ← validateVDFSettlement env idx node block
  checkCoinbaseValue env node block s.totalFees bounty
  let flags := scriptFlags env node block
  checkWhen flags.checkSequence (forM block.transactions (checkSequenceLock node s.view))
  checkWhen (runScripts env node) (checkBlockScripts env flags s.view block.transactions)

/-- `checkConnectBlock`: the updated view and the spent outputs. -/
def checkConnectBlock (env : Env) (utxos : UtxoSet) (idx : StakeIndex) (node : BlockNode)
    (block : Block) (view : UtxoViewpoint) : Check (UtxoViewpoint × List SpentTxOut) := do
  let view' ← checkConnectPrefix env utxos node block view
  let s ← block.transactions.foldlM (connectStep env node) ⟨view', 0, []⟩
  checkConnectSuffix env idx node block s
  return ({ s.view with bestHash := node.hash }, s.stxos)

end FalconDraw.Chain
