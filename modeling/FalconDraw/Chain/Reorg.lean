/-
FalconDraw.Chain.Reorg — the block tree, chain selection and reorganization
(blockchain/chain.go, accept.go, process.go).

`BlockChain` is the whole state: the stored blocks with their nodes, the
validation status of each, the best chain and its spend journal.
-/
import FalconDraw.Chain.Disconnect

namespace FalconDraw.Chain

open Lib Wire Draw

/-! ## State -/

/-- The validation flags of a `blockStatus`. -/
structure BlockStatus where
  valid           : Bool := false
  validateFailed  : Bool := false
  invalidAncestor : Bool := false
deriving DecidableEq, Repr

namespace BlockStatus

def knownValid (s : BlockStatus) : Bool := s.valid

def knownInvalid (s : BlockStatus) : Bool := s.validateFailed || s.invalidAncestor

def setValid (s : BlockStatus) : BlockStatus := { s with valid := true }

def setValidateFailed (s : BlockStatus) : BlockStatus := { s with validateFailed := true }

def setInvalidAncestor (s : BlockStatus) : BlockStatus := { s with invalidAncestor := true }

end BlockStatus

/-- A node of the block index whose block is in the database. -/
structure StoredBlock where
  node  : BlockNode
  block : Block

structure BlockChain where
  nodes   : Bucket Hash StoredBlock
  status  : Bucket Hash BlockStatus
  best    : ChainState
  journal : Bucket Hash (List SpentTxOut)

namespace BlockChain

def nodeStatus (b : BlockChain) (n : BlockNode) : BlockStatus := (b.status.get n.hash).getD {}

def setStatusFlags (b : BlockChain) (n : BlockNode) (f : BlockStatus → BlockStatus) : BlockChain :=
  { b with status := b.status.put n.hash (f (b.nodeStatus n)) }

def setAllStatusFlags (b : BlockChain) (ns : List BlockNode) (f : BlockStatus → BlockStatus) :
    BlockChain :=
  ns.foldl (fun b n => b.setStatusFlags n f) b

def fetchBlockByNode (b : BlockChain) (n : BlockNode) : Check Block :=
  match b.nodes.get n.hash with
  | none => .error (.assert ("block " ++ Hash.str n.hash ++ " is not in the database"))
  | some s => .ok s.block

/-- `dbFetchSpendJournalEntry`: a record is expected for every input of a
transaction that has one input which is no sentinel. -/
def fetchSpendJournalEntry (b : BlockChain) (block : Block) : Check (List SpentTxOut) :=
  let blockTxns := block.transactions.tail.filter fun tx =>
    !isVDFResultTx tx && tx.msgTx.txIn.any fun t => !isPoolDrawSentinelInput t
  let numStxos := (blockTxns.map fun tx => tx.msgTx.txIn.length).sum
  let stored := (b.journal.get block.hash).getD []
  if stored = [] then
    if numStxos = 0 then .ok []
    else .error (.assert ("mismatched spend journal serialization - no serialization for expected "
      ++ toString numStxos ++ " stxos"))
  else if stored.length < numStxos then
    .error (.assert ("corrupt spend information for " ++ Hash.str block.hash))
  else .ok (stored.drop (stored.length - numStxos))

/-! ## Connecting and disconnecting -/

/-- `connectTransactions` on the UTXO cache followed by `connectBlock`. -/
def connectBlock (b : BlockChain) (n : BlockNode) (block : Block) : BlockChain × Check Unit :=
  match UtxoSet.connectTransactions block.height b.best.utxos block.transactions with
  | .error e =>
      ({ b with best := { b.best with
          utxos := UtxoSet.connectAvailable block.height b.best.utxos block.transactions } },
        .error e)
  | .ok (utxos, stxos) =>
      if block.header.prevBlock ≠ b.best.tip.hash then
        ({ b with best := { b.best with utxos := utxos } }, .error (.assert
          "connectBlock must be called with a block that extends the main chain"))
      else if stxos.length ≠ countSpentOutputs block then
        ({ b with best := { b.best with utxos := utxos } }, .error (.assert
          "connectBlock called with inconsistent spent transaction out information"))
      else
        ({ b with
            best := { tip := n, utxos := utxos, idx := b.best.idx.connectBlock block }
            journal := b.journal.put block.hash stxos }, .ok ())

/-- `disconnectBlock`, given the view with the block's transactions taken out. -/
def disconnectBlock (b : BlockChain) (n : BlockNode) (block : Block) (view : UtxoViewpoint) :
    Check BlockChain := do
  rejectIf (n.hash ≠ b.best.tip.hash) (.assert
    "disconnectBlock must be called with the block at the end of the main chain")
  match n.parent with
  | none => .error (.assert "the genesis block has no parent")
  | some prevNode => do
      let _ ← b.fetchBlockByNode prevNode
      let _ ← b.fetchSpendJournalEntry block
      return { b with
        best := { tip := prevNode, utxos := b.best.utxos.putView view
                  idx := b.best.idx.disconnectBlock block }
        journal := b.journal.delete block.hash }

/-! ## Reorganization -/

/-- `FindFork`: the nearest node of the chain, given by its headers, that is on
the best chain. -/
def findFork (tip : BlockNode) : List HeaderInfo → Option BlockNode
  | [] => none
  | i :: is => if tip.ancestor is.length = some ⟨i, is⟩ then some ⟨i, is⟩ else findFork tip is

/-- The nodes of a chain above the fork, nearest to the fork last; all of them
when there is no fork. -/
def nodesAbove (fork : Option BlockNode) : List HeaderInfo → List BlockNode
  | [] => []
  | i :: is => if some ⟨i, is⟩ = fork then [] else ⟨i, is⟩ :: nodesAbove fork is

/-- `getReorganizeNodes`: the nodes to detach, tip first, and the nodes to
attach, fork first. -/
def getReorganizeNodes (b : BlockChain) (node : BlockNode) :
    BlockChain × List BlockNode × List BlockNode :=
  if node.parent.any fun p => (b.nodeStatus p).knownInvalid then
    (b.setStatusFlags node .setInvalidAncestor, [], [])
  else
    let fork := findFork b.best.tip node.chain
    let branch := nodesAbove fork node.chain
    if branch.any fun n => (b.nodeStatus n).knownInvalid then
      let unwound := branch.takeWhile fun n => !(b.nodeStatus n).knownInvalid
      (b.setAllStatusFlags unwound.reverse .setInvalidAncestor, [], [])
    else (b, nodesAbove fork b.best.tip.chain, branch.reverse)

/-- The detach loop of `verifyReorganizationValidity`: the view behind the
blocks, and the blocks with their journal entries. -/
def checkDetach (b : BlockChain) : UtxoViewpoint → List BlockNode →
    Check (UtxoViewpoint × List (BlockNode × Block × List SpentTxOut))
  | view, [] => .ok (view, [])
  | view, n :: ns => do
      let block ← b.fetchBlockByNode n
      rejectIf (n.hash ≠ block.hash) (.assert ("detach block node hash " ++ Hash.str n.hash ++
        " does not match previous parent block hash " ++ Hash.str block.hash))
      let stxos ← b.fetchSpendJournalEntry block
      let view' ← (view.fetchInputUtxos b.best.utxos block).disconnectTransactions b.best.utxos
        block stxos
      let (view'', rest) ← checkDetach b view' ns
      return (view'', (n, block, stxos) :: rest)

/-- The verdict of `verifyReorganizationValidity` on one block of the branch:
the view behind it. A block already known to be valid is only connected to the
view. -/
def checkAttach (env : Env) (b : BlockChain) (view : UtxoViewpoint) (n : BlockNode)
    (block : Block) : Check UtxoViewpoint :=
  if (b.nodeStatus n).knownValid then
    (view.fetchInputUtxos b.best.utxos block).connectTransactions block
  else do
    let (view', _) ← checkConnectBlock env b.best.utxos b.best.idx n block view
    return view'

/-- The attach loop of `verifyReorganizationValidity`, with the statuses it
sets. -/
def checkAttachAll (env : Env) : BlockChain → UtxoViewpoint → List BlockNode →
    BlockChain × Check (List (BlockNode × Block))
  | b, _, [] => (b, .ok [])
  | b, view, n :: ns =>
      match b.fetchBlockByNode n with
      | .error e => (b, .error e)
      | .ok block =>
          match b.checkAttach env view n block with
          | .error (.rule code msg) =>
              ((b.setStatusFlags n .setValidateFailed).setAllStatusFlags ns .setInvalidAncestor,
                .error (.rule code msg))
          | .error (.assert msg) => (b, .error (.assert msg))
          | .ok view' =>
              match checkAttachAll env (b.setStatusFlags n .setValid) view' ns with
              | (b', .ok rest) => (b', .ok ((n, block) :: rest))
              | (b', .error e) => (b', .error e)

def verifyReorganizationValidity (env : Env) (b : BlockChain) (detach attach : List BlockNode) :
    BlockChain × Check (List (BlockNode × Block × List SpentTxOut) × List (BlockNode × Block)) :=
  if detach.head?.any fun n => n.hash ≠ b.best.tip.hash then
    (b, .error (.assert "reorganize nodes to detach are not for the current best chain"))
  else if attach ≠ [] ∧ detach ≠ [] ∧ (attach.head?.bind BlockNode.parent).map BlockNode.hash ≠
        (detach.getLast?.bind BlockNode.parent).map BlockNode.hash then
    (b, .error (.assert "reorganize nodes do not have the same fork point"))
  else
    match b.checkDetach (UtxoViewpoint.new b.best.tip.hash) detach with
    | .error e => (b, .error e)
    | .ok (view, detachBlocks) =>
        match checkAttachAll env b view attach with
        | (b', .ok attachBlocks) => (b', .ok (detachBlocks, attachBlocks))
        | (b', .error e) => (b', .error e)

/-- The detach loop of `reorganizeChain`. -/
def detachAll : BlockChain → UtxoViewpoint → List (BlockNode × Block × List SpentTxOut) →
    BlockChain × Check Unit
  | b, _, [] => (b, .ok ())
  | b, view, (n, block, stxos) :: rest =>
      match (view.fetchInputUtxos b.best.utxos block).disconnectTransactions b.best.utxos
          block stxos with
      | .error e => (b, .error e)
      | .ok view' =>
          match b.disconnectBlock n block view' with
          | .error e => (b, .error e)
          | .ok b' => detachAll b' view'.commit rest

/-- The attach loop of `reorganizeChain`. -/
def attachAll : BlockChain → List (BlockNode × Block) → BlockChain × Check Unit
  | b, [] => (b, .ok ())
  | b, (n, block) :: rest =>
      match b.connectBlock n block with
      | (b', .error e) => (b', .error e)
      | (b', .ok ()) => attachAll b' rest

def reorganizeChain (env : Env) (b : BlockChain) (detach attach : List BlockNode) :
    BlockChain × Check Unit :=
  match b.verifyReorganizationValidity env detach attach with
  | (b₁, .error e) => (b₁, .error e)
  | (b₁, .ok (detachBlocks, attachBlocks)) =>
      match b₁.detachAll (UtxoViewpoint.new b₁.best.tip.hash) detachBlocks with
      | (b₂, .error e) => (b₂, .error e)
      | (b₂, .ok ()) => b₂.attachAll attachBlocks

/-! ## A new block -/

/-- The direct extension in `connectBestChain`. -/
def extendBest (env : Env) (b : BlockChain) (node : BlockNode) (block : Block) (fastAdd : Bool) :
    BlockChain × Check Bool :=
  let connect := fun b : BlockChain =>
    match b.connectBlock node block with
    | (b', .ok ()) => (b'.setStatusFlags node .setValid, .ok true)
    | (b', .error (.rule code msg)) =>
        (b'.setStatusFlags node .setValidateFailed, .error (.rule code msg))
    | (b', .error (.assert msg)) => (b', .error (.assert msg))
  if fastAdd || (b.nodeStatus node).knownValid then connect b
  else
    match checkConnectBlock env b.best.utxos b.best.idx node block
        (UtxoViewpoint.new block.header.prevBlock) with
    | .ok _ => connect (b.setStatusFlags node .setValid)
    | .error (.rule code msg) =>
        (b.setStatusFlags node .setValidateFailed, .error (.rule code msg))
    | .error (.assert msg) => (b, .error (.assert msg))

/-- `connectBestChain`: is the block on the best chain now. -/
def connectBestChain (env : Env) (b : BlockChain) (node : BlockNode) (block : Block)
    (fastAdd : Bool) : BlockChain × Check Bool :=
  if block.header.prevBlock = b.best.tip.hash then b.extendBest env node block fastAdd
  else if node.workSum ≤ b.best.tip.workSum then (b, .ok false)
  else
    let (b₁, detach, attach) := b.getReorganizeNodes node
    match b₁.reorganizeChain env detach attach with
    | (b₂, .ok ()) => (b₂, .ok true)
    | (b₂, .error e) => (b₂, .error e)

/-- `dbStoreBlock` and `AddNode`. -/
def store (b : BlockChain) (node : BlockNode) (block : Block) : BlockChain :=
  { b with nodes := b.nodes.put block.hash ⟨node, block⟩ }

/-- `maybeAcceptBlock` on top of a stored parent. -/
def acceptOn (env : Env) (b : BlockChain) (parent : BlockNode) (newBlock : Block)
    (fastAdd : Bool) : BlockChain × Check Bool :=
  if (b.nodeStatus parent).knownInvalid then
    (b, .error (.rule .invalidAncestorBlock
      ("previous block " ++ Hash.str parent.hash ++ " is known to be invalid")))
  else
    let block := withHeight parent newBlock
    let node := parent.child block
    (b.store node block).connectBestChain env node block fastAdd

/-- `ProcessBlock`. A block whose parent is not stored waits as an orphan and
arrives again after it. -/
def processBlock (env : Env) (b : BlockChain) (block : Block) (fastAdd : Bool) :
    BlockChain × Check Bool :=
  if (b.nodes.get block.hash).isSome then
    (b, .error (.rule .duplicateBlock ("already have block " ++ Hash.str block.hash)))
  else match checkBlockSanity block with
    | .error e => (b, .error e)
    | .ok () =>
        match b.nodes.get block.header.prevBlock with
        | none => (b, .ok false)
        | some parent => b.acceptOn env parent.node block fastAdd

end BlockChain

/-! ## Runs -/

/-- A block arriving, with its `BFFastAdd` flag. -/
structure Arrival where
  block   : Block
  fastAdd : Bool := false

/-- The genesis block as it is stored; its transactions are never looked at. -/
def genesisBlock (genesis : HeaderInfo) : Block :=
  { hash := genesis.hash
    header := ⟨genesis.version, 0, genesis.timestamp, genesis.bits⟩
    transactions := []
    height := 0 }

/-- The state after `createChainState`. -/
def genesisChain (genesis : HeaderInfo) : BlockChain :=
  { nodes := Bucket.empty.put genesis.hash ⟨⟨genesis, []⟩, genesisBlock genesis⟩
    status := Bucket.empty.put genesis.hash { valid := true }
    best := genesisState genesis
    journal := Bucket.empty }

def BlockChain.step (env : Env) (b : BlockChain) (a : Arrival) : BlockChain :=
  (b.processBlock env a.block a.fastAdd).1

def runArrivals (env : Env) (b : BlockChain) (as : List Arrival) : BlockChain :=
  as.foldl (BlockChain.step env) b

def BlockChain.blocksOf (b : BlockChain) (is : List HeaderInfo) : List Block :=
  is.filterMap fun i => (b.nodes.get i.hash).map StoredBlock.block

def BlockChain.bestBlocks (b : BlockChain) : List Block := b.blocksOf b.best.tip.chain

end FalconDraw.Chain
