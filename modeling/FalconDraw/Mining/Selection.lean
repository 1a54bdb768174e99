/-
FalconDraw.Mining.Selection — `NewBlockTemplate` as a whole: choosing transactions
from the pool (mining/mining.go).

The pool's transactions are sorted into those that are ready, in a priority queue,
and those that wait for others, in a dependency map.
-/
import FalconDraw.Mining.Template
import FalconDraw.Lib.Transition
import Mathlib.Data.List.Dedup

namespace FalconDraw.Mining

open Lib Wire Draw Chain

/-! ## Sources and policy -/

/-- `TxDesc`, without the times of its arrival. -/
structure TxDesc where
  tx       : Tx
  fee      : Int64
  feePerKB : Int64

/-- The fields of `Policy` that are read. -/
structure Policy where
  blockMinWeight    : UInt32
  blockMaxWeight    : UInt32
  blockPrioritySize : UInt32
  txMinFreeFee      : Int64

/-- `txPrioItem`; its set of dependencies is kept in `Selection.dependsOn`. -/
structure PrioItem (π : Type) where
  tx       : Tx
  fee      : Int64
  priority : π
  feePerKB : Int64

/-- `BlkTmplGenerator` and what it is given: priorities, the script check under the
standard flags and the commitment to the witnesses come from outside. -/
structure Generator (π : Type) where
  env               : Env
  policy            : Policy
  adjustedTime      : Int
  calcPriority      : MsgTx → UtxoViewpoint → Nat → π
  minHighPriority   : π
  zeroPriority      : π
  /-- `ValidateTransactionScripts` with `StandardVerifyFlags`. -/
  standardScripts   : UtxoViewpoint → Tx → Bool
  witnessCommitment : List Tx → Hash
  /-- `HaveTransaction` also answers for the orphan pool. -/
  isOrphan          : Hash → Bool

/-! ## Helpers -/

def lockTimeThreshold : Nat := 500000000

def isFinalizedTransaction (tx : Tx) (blockHeight : Nat) (blockTime : Int) : Bool :=
  let lockTime := tx.msgTx.lockTime
  if lockTime = 0 then true
  else
    let blockTimeOrHeight := if lockTime < lockTimeThreshold then (blockHeight : Int) else blockTime
    if (lockTime : Int) < blockTimeOrHeight then true
    else tx.msgTx.txIn.all fun t => t.sequence = maxTxInSequenceNum

def getTransactionWeight (m : MsgTx) : Nat :=
  m.serializeSizeStripped * (witnessScaleFactor - 1) + m.serializeSize

/-- `FetchUtxoView`: the outputs of the transaction and what its inputs refer to. -/
def fetchUtxoView (utxos : UtxoSet) (tx : Tx) : UtxoViewpoint :=
  (UtxoViewpoint.new 0).fetchUtxosFromCache utxos (createdOutPoints [tx] ++
    if tx.isCoinBase then [] else tx.msgTx.txIn.map TxIn.previousOutPoint)

def mergeUtxoView (viewA viewB : UtxoViewpoint) : UtxoViewpoint :=
  { viewA with
    entries := fun op =>
      match viewB.entries.get op, viewA.entries.get op with
      | none, a => a
      | some b, some (some a) => if a.isSpent then some b else some (some a)
      | some b, _ => some b }

/-- One input of `spendTransaction`. -/
def spendInput (view : UtxoViewpoint) (t : TxIn) : UtxoViewpoint :=
  match view.lookupEntry t.previousOutPoint with
  | some entry => view.setEntry t.previousOutPoint (some entry.spend)
  | none => view

def spendTransaction (view : UtxoViewpoint) (tx : Tx) (height : Nat) : UtxoViewpoint :=
  (tx.msgTx.txIn.foldl spendInput view).addTxOuts tx height

/-! ## The pool loop -/

/-- The input loop for one transaction of the pool: the transactions of the pool it
waits for, and whether every input was found. -/
def scanInputs (utxos : UtxoViewpoint) (haveTransaction : Hash → Bool) :
    List TxIn → List Hash × Bool
  | [] => ([], true)
  | t :: ts =>
    if (utxos.lookupEntry t.previousOutPoint).any fun entry => !entry.isSpent then
      scanInputs utxos haveTransaction ts
    else if haveTransaction t.previousOutPoint.hash then
      let (dependsOn, found) := scanInputs utxos haveTransaction ts
      (t.previousOutPoint.hash :: dependsOn, found)
    else ([], false)

/-- What the selection works on. -/
structure Selection (π : Type) where
  queue           : List (PrioItem π)
  dependsOn       : Bucket Hash (List Hash)
  blockUtxos      : UtxoViewpoint
  selected        : List Tx
  fees            : List Int64
  sigOpCosts      : List Nat
  blockWeight     : UInt32
  blockSigOpCost  : Nat
  totalFees       : Int64
  sortedByFee     : Bool
  witnessIncluded : Bool

/-- What the pool loop collects. -/
structure Sources (π : Type) where
  queue      : List (PrioItem π)
  dependers  : Bucket Hash (List (PrioItem π))
  dependsOn  : Bucket Hash (List Hash)
  blockUtxos : UtxoViewpoint

variable {π : Type}

/-- One round of `mempoolLoop`. A transaction with an input that is nowhere stays
in the dependency map with what was noted before that input. -/
def mempoolRound (g : Generator π) (utxos : UtxoSet) (nextBlockHeight : Nat)
    (haveTransaction : Hash → Bool) (src : Sources π) (desc : TxDesc) : Sources π :=
  if desc.tx.isCoinBase then src
  else if !isFinalizedTransaction desc.tx nextBlockHeight g.adjustedTime then src
  else
    let view := fetchUtxoView utxos desc.tx
    let (origins, found) := scanInputs view haveTransaction desc.tx.msgTx.txIn
    let deps := origins.dedup
    let item : PrioItem π :=
      if found then
        ⟨desc.tx, desc.fee, g.calcPriority desc.tx.msgTx view nextBlockHeight, desc.feePerKB⟩
      else ⟨desc.tx, 0, g.zeroPriority, 0⟩
    let src := { src with
      dependers := deps.foldl (fun dependers origin =>
        dependers.put origin ((dependers.get origin).getD [] ++ [item])) src.dependers
      dependsOn := src.dependsOn.put desc.tx.hash deps }
    if found then { src with
      queue := if deps.isEmpty then src.queue ++ [item] else src.queue
      blockUtxos := mergeUtxoView src.blockUtxos view }
    else src

def haveTransaction (g : Generator π) (pool : List TxDesc) (h : Hash) : Bool :=
  pool.any (fun d => d.tx.hash = h) || g.isOrphan h

def mempoolLoop (g : Generator π) (utxos : UtxoSet) (nextBlockHeight : Nat) (pool : List TxDesc) :
    Sources π :=
  pool.foldl (mempoolRound g utxos nextBlockHeight (haveTransaction g pool))
    ⟨[], .empty, .empty, .new 0⟩

/-! ## The selection loop -/

/-- What the selection loop reads but does not change: the dependency map, the
coinbase as far as it is built, and the state of the soft fork. -/
structure Round (π : Type) where
  gen             : Generator π
  dependers       : Bucket Hash (List (PrioItem π))
  coinbase        : MsgTx
  nextBlockHeight : Nat
  segwitActive    : Bool

def witnessMagicBytes : Bytes := [0x6a, 0x24, 0xaa, 0x21, 0xa9, 0xed]

/-- A coinbase with a witness item and an output for the commitment to it. -/
def withCommitment (coinbase : MsgTx) (item script : Bytes) : MsgTx :=
  { coinbase with
    txIn := coinbase.txIn.map fun t => { t with witness := [item] }
    txOut := coinbase.txOut ++ [⟨0, script⟩] }

def commitmentWeight (coinbase : MsgTx) : Nat :=
  getTransactionWeight (withCommitment coinbase (List.replicate 32 0x61) (List.replicate 38 0x61)) -
    getTransactionWeight coinbase

namespace Round

variable (r : Round π)

/-- Account for the commitment once a transaction with witness data is considered. -/
def noteWitness (st : Selection π) (tx : Tx) : Selection π :=
  if r.segwitActive && !st.witnessIncluded && tx.msgTx.hasWitness then
    { st with
      blockWeight := st.blockWeight + UInt32.ofNat (commitmentWeight r.coinbase)
      witnessIncluded := true }
  else st

/-- The transactions that waited for `parent` only become ready. -/
def release (parent : Hash) (st : Selection π) (item : PrioItem π) : Selection π :=
  let rest := ((st.dependsOn.get item.tx.hash).getD []).filter fun h => h ≠ parent
  { st with
    dependsOn := st.dependsOn.put item.tx.hash rest
    queue := if rest.isEmpty then st.queue ++ [item] else st.queue }

def addToBlock (st : Selection π) (item : PrioItem π) (txWeight : UInt32) (sigOpCost : Nat) :
    Selection π :=
  ((r.dependers.get item.tx.hash).getD []).foldl (release item.tx.hash)
    { st with
      blockUtxos := spendTransaction st.blockUtxos item.tx r.nextBlockHeight
      selected := st.selected ++ [item.tx]
      blockWeight := st.blockWeight + txWeight
      blockSigOpCost := st.blockSigOpCost + sigOpCost
      totalFees := st.totalFees + item.fee
      fees := st.fees ++ [item.fee]
      sigOpCosts := st.sigOpCosts ++ [sigOpCost] }

def tryInclude (st : Selection π) (item : PrioItem π) (txWeight : UInt32) (sigOpCost : Nat) :
    Selection π :=
  match checkTransactionInputs item.tx r.nextBlockHeight st.blockUtxos r.gen.env.params with
  | .error _ => st
  | .ok _ =>
    if r.gen.standardScripts st.blockUtxos item.tx then r.addToBlock st item txWeight sigOpCost
    else st

variable [LinearOrder π]

def weigh (st : Selection π) (item : PrioItem π) (txWeight blockPlusTxWeight : UInt32)
    (sigOpCost : Nat) : Selection π :=
  let policy := r.gen.policy
  if st.sortedByFee ∧ item.feePerKB < policy.txMinFreeFee ∧
      policy.blockMinWeight ≤ blockPlusTxWeight then st
  else if ¬ st.sortedByFee ∧ (policy.blockPrioritySize ≤ blockPlusTxWeight ∨
      item.priority ≤ r.gen.minHighPriority) then
    let st := { st with sortedByFee := true }
    if policy.blockPrioritySize < blockPlusTxWeight ∨ item.priority < r.gen.minHighPriority then
      { st with queue := st.queue ++ [item] }
    else r.tryInclude st item txWeight sigOpCost
  else r.tryInclude st item txWeight sigOpCost

/-- One round of the selection loop for the item taken off the queue. -/
def consider (st : Selection π) (item : PrioItem π) : Selection π :=
  if !r.segwitActive && item.tx.msgTx.hasWitness then st
  else
    let st := r.noteWitness st item.tx
    let txWeight := UInt32.ofNat (getTransactionWeight item.tx.msgTx)
    let blockPlusTxWeight := st.blockWeight + txWeight
    if blockPlusTxWeight < st.blockWeight ∨ r.gen.policy.blockMaxWeight ≤ blockPlusTxWeight then st
    else match getSigOpCost item.tx false st.blockUtxos true r.segwitActive with
    | .error _ => st
    | .ok sigOpCost =>
      if maxBlockSigOpsCost < st.blockSigOpCost + sigOpCost then st
      else r.weigh st item txWeight blockPlusTxWeight sigOpCost

def step (st : Selection π) (position : Nat) : Option (Selection π) :=
  (st.queue[position]?).map fun item =>
    r.consider { st with queue := st.queue.eraseIdx position } item

end Round

/-! ## The template -/

structure BlockTemplate where
  block      : Block
  fees       : List Int64
  sigOpCosts : List Nat

/-- The part of `CheckConnectBlockTemplate` that looks at the transactions. -/
def checkConnectBlockTemplate (env : Env) (s : ChainState) (block : Block) : Check Unit := do
  rejectIf (s.tip.hash ≠ block.header.prevBlock) (.rule .prevBlockNotBest
    ("previous block must be the current chain tip " ++ Hash.str s.tip.hash ++ ", instead got " ++
      Hash.str block.header.prevBlock))
  checkBlockSanity block
  checkWhen (env.deployments .segwit s.tip.chain) (checkBlockWeight block)
  let _ ← checkConnectBlock env s.utxos s.idx (s.tip.child block) block
    (UtxoViewpoint.new s.tip.hash)
  return ()

def blockHeaderOverhead : Nat := blockHeaderLen + 9

section Template

variable (g : Generator π) (s : ChainState) (pool : List TxDesc) (pending : Option VDFResultData)
  (addr : PayToAddress) (header : HeaderInfo) (ids : TemplateIds)

/-- The coinbase while transactions are selected: with the bounty, without fees. -/
def baseCoinbase : MsgTx :=
  let nextBlockHeight := s.tip.height + 1
  let base := createCoinbaseTx g.env.params (standardCoinbaseScript nextBlockHeight 0)
    nextBlockHeight addr
  { base with txOut := base.txOut ++ (pendingParts s.idx pending ids nextBlockHeight).1 }

def drawTxs : List Tx := (pendingParts s.idx pending ids (s.tip.height + 1)).2

/-- What the counters start with: the coinbase is weighed before the bounty is
added to it. -/
def startWeight : Nat :=
  let nextBlockHeight := s.tip.height + 1
  blockHeaderOverhead * witnessScaleFactor +
    getTransactionWeight (createCoinbaseTx g.env.params (standardCoinbaseScript nextBlockHeight 0)
      nextBlockHeight addr) +
    ((drawTxs s pending ids).map fun tx => getTransactionWeight tx.msgTx).sum

def startSigOpCost : Nat :=
  let nextBlockHeight := s.tip.height + 1
  countSigOps ⟨ids.coinbase, createCoinbaseTx g.env.params
      (standardCoinbaseScript nextBlockHeight 0) nextBlockHeight addr⟩ * witnessScaleFactor +
    ((drawTxs s pending ids).map fun tx => countSigOps tx * witnessScaleFactor).sum

def startSelection : Selection π :=
  let src := mempoolLoop g s.utxos (s.tip.height + 1) pool
  { queue := src.queue
    dependsOn := src.dependsOn
    blockUtxos := src.blockUtxos
    selected := []
    fees := []
    sigOpCosts := []
    blockWeight := UInt32.ofNat (startWeight g s pending addr ids)
    blockSigOpCost := startSigOpCost g s pending addr ids
    totalFees := 0
    sortedByFee := g.policy.blockPrioritySize = 0
    witnessIncluded := false }

def templateRound : Round π where
  gen := g
  dependers := (mempoolLoop g s.utxos (s.tip.height + 1) pool).dependers
  coinbase := baseCoinbase g s pending addr ids
  nextBlockHeight := s.tip.height + 1
  segwitActive := g.env.deployments .segwit s.tip.chain

/-- The coinbase with the fees, and with the commitment if there is one. -/
def finalCoinbase (st : Selection π) : MsgTx :=
  let base := baseCoinbase g s pending addr ids
  let paid := { base with
    txOut := base.txOut.modifyHead fun o => { o with value := o.value + st.totalFees } }
  if st.witnessIncluded then
    withCommitment paid (List.replicate 32 0) (witnessMagicBytes ++ Hash.toBytes
      (g.witnessCommitment (⟨ids.coinbase, paid⟩ :: (drawTxs s pending ids ++ st.selected))))
  else paid

def finishTemplate (st : Selection π) : BlockTemplate where
  block :=
    { hash := header.hash
      header := ⟨header.version, s.tip.hash, header.timestamp, header.bits⟩
      transactions := ⟨ids.coinbase, finalCoinbase g s pending addr ids st⟩ ::
        (drawTxs s pending ids ++ st.selected)
      height := s.tip.height + 1 }
  fees := -st.totalFees :: ((drawTxs s pending ids).map fun _ => 0) ++ st.fees
  sigOpCosts := countSigOps ⟨ids.coinbase, createCoinbaseTx g.env.params
      (standardCoinbaseScript (s.tip.height + 1) 0) (s.tip.height + 1) addr⟩ * witnessScaleFactor ::
    ((drawTxs s pending ids).map fun _ => 0) ++ st.sigOpCosts

variable [LinearOrder π]

/-- `NewBlockTemplate`, for the order in which the heap hands out the queue. No
template is returned when the output of the pending VDF does not fit its field
(`FillBytes` panics) or when the block does not pass the check. -/
def newBlockTemplate (positions : List Nat) : Option BlockTemplate := do
  guard (pending.all fun vdf => (buildVDFResultTx? vdf).isSome)
  let st ← runSteps (templateRound g s pool pending addr ids).step
    (startSelection g s pool pending addr ids) positions
  guard st.queue.isEmpty
  let template := finishTemplate g s pending addr header ids st
  guard (Accepts (checkConnectBlockTemplate g.env s template.block))
  return template

end Template

end FalconDraw.Mining
