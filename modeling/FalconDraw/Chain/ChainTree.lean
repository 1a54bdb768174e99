/-
FalconDraw.Chain.ChainTree — which chain is the best one (blockchain/chain.go,
process.go, accept.go, blockindex.go).

The block index with the validation status of every block, the best tip and the
orphan pool.
-/
import FalconDraw.Chain.Reorg

namespace FalconDraw.Chain

open Lib Wire Draw

/-! ## State -/

/-- The rule a block breaks, if it breaks one. -/
abbrev Verdict := Option (ErrorCode × String)

/-- What the checks say about each block. -/
structure Verdicts where
  /-- `checkBlockSanity` and the checkpoint rules of `ProcessBlock`. -/
  sanity   : Hash → Verdict
  /-- `checkBlockContext`. -/
  context  : Hash → Verdict
  /-- `checkConnectBlock`. -/
  connect  : Hash → Verdict
  /-- The transactions of a block that was not checked can be connected. -/
  connects : Hash → Bool

/-- A block as it arrives. -/
structure NewBlock where
  info      : HeaderInfo
  prevBlock : Hash
deriving DecidableEq, Repr

def NewBlock.hash (b : NewBlock) : Hash := b.info.hash

structure ChainTree where
  nodes   : List BlockNode
  status  : Bucket Hash BlockStatus
  tip     : BlockNode
  orphans : List NewBlock

namespace BlockStatus

def unsetValid (s : BlockStatus) : BlockStatus := { s with valid := false }

def unsetValidateFailed (s : BlockStatus) : BlockStatus := { s with validateFailed := false }

def unsetInvalidAncestor (s : BlockStatus) : BlockStatus := { s with invalidAncestor := false }

end BlockStatus

/-- `IsAncestor`: the other node is a proper ancestor of this one. -/
def BlockNode.isAncestor (n other : BlockNode) : Bool :=
  match n.ancestor other.height with
  | none => false
  | some a => decide (n.height ≠ a.height) && decide (a = other)

namespace ChainTree

def lookupNode (t : ChainTree) (h : Hash) : Option BlockNode := t.nodes.find? fun n => n.hash = h

def nodeStatus (t : ChainTree) (n : BlockNode) : BlockStatus := (t.status.get n.hash).getD {}

def knownInvalid (t : ChainTree) (n : BlockNode) : Bool := (t.nodeStatus n).knownInvalid

/-- `SetStatusFlags` and `UnsetStatusFlags`. -/
def setStatusFlags (t : ChainTree) (n : BlockNode) (f : BlockStatus → BlockStatus) : ChainTree :=
  { t with status := t.status.put n.hash (f (t.nodeStatus n)) }

def setAllStatusFlags (t : ChainTree) (ns : List BlockNode) (f : BlockStatus → BlockStatus) :
    ChainTree :=
  ns.foldl (fun t n => t.setStatusFlags n f) t

/-- `bestChain.Contains`. -/
def onBestChain (t : ChainTree) (n : BlockNode) : Bool := t.tip.ancestor n.height = some n

/-! ## Reorganization -/

/-- `getReorganizeNodes`: the nodes to detach, tip first, and the nodes to
attach, fork first. -/
def getReorganizeNodes (t : ChainTree) (node : BlockNode) :
    ChainTree × List BlockNode × List BlockNode :=
  if node.parent.any t.knownInvalid then (t.setStatusFlags node .setInvalidAncestor, [], [])
  else
    let fork := BlockChain.findFork t.tip node.chain
    let branch := BlockChain.nodesAbove fork node.chain
    if branch.any t.knownInvalid then
      let unwound := branch.takeWhile fun n => !t.knownInvalid n
      (t.setAllStatusFlags unwound.reverse .setInvalidAncestor, [], [])
    else (t, BlockChain.nodesAbove fork t.tip.chain, branch.reverse)

/-- The attach loop of `verifyReorganizationValidity`. -/
def checkAttachAll (v : Verdicts) : ChainTree → List BlockNode → ChainTree × Check Unit
  | t, [] => (t, .ok ())
  | t, n :: ns =>
      if (t.nodeStatus n).knownValid then checkAttachAll v t ns
      else match v.connect n.hash with
        | none => checkAttachAll v (t.setStatusFlags n .setValid) ns
        | some (code, msg) =>
            ((t.setStatusFlags n .setValidateFailed).setAllStatusFlags ns .setInvalidAncestor,
              .error (.rule code msg))

def verifyReorganizationValidity (v : Verdicts) (t : ChainTree) (detach attach : List BlockNode) :
    ChainTree × Check Unit :=
  if detach.head?.any fun n => n.hash ≠ t.tip.hash then
    (t, .error (.assert "reorganize nodes to detach are not for the current best chain"))
  else if attach ≠ [] ∧ detach ≠ [] ∧ (attach.head?.bind BlockNode.parent).map BlockNode.hash ≠
        (detach.getLast?.bind BlockNode.parent).map BlockNode.hash then
    (t, .error (.assert "reorganize nodes do not have the same fork point"))
  else checkAttachAll v t attach

/-- The detach loop of `reorganizeChain`. -/
def detachAll : ChainTree → List BlockNode → ChainTree × Check Unit
  | t, [] => (t, .ok ())
  | t, n :: ns =>
      if n.hash ≠ t.tip.hash then (t, .error (.assert
        "disconnectBlock must be called with the block at the end of the main chain"))
      else match n.parent with
        | none => (t, .error (.assert "the genesis block has no parent"))
        | some prevNode => detachAll { t with tip := prevNode } ns

/-- The attach loop of `reorganizeChain`. -/
def attachAll : ChainTree → List BlockNode → ChainTree × Check Unit
  | t, [] => (t, .ok ())
  | t, n :: ns =>
      if n.parent.map BlockNode.hash ≠ some t.tip.hash then (t, .error (.assert
        "connectBlock must be called with a block that extends the main chain"))
      else attachAll { t with tip := n } ns

def reorganizeChain (v : Verdicts) (t : ChainTree) (detach attach : List BlockNode) :
    ChainTree × Check Unit :=
  match t.verifyReorganizationValidity v detach attach with
  | (t₁, .error e) => (t₁, .error e)
  | (t₁, .ok ()) =>
      match t₁.detachAll detach with
      | (t₂, .error e) => (t₂, .error e)
      | (t₂, .ok ()) => t₂.attachAll attach

/-! ## A new block -/

def extendTo (t : ChainTree) (node : BlockNode) : ChainTree × Check Bool :=
  (({ t with tip := node } : ChainTree).setStatusFlags node .setValid, .ok true)

/-- `connectBestChain`: is the block on the best chain now. -/
def connectBestChain (v : Verdicts) (t : ChainTree) (node : BlockNode) (fastAdd : Bool) :
    ChainTree × Check Bool :=
  if node.parent.map BlockNode.hash = some t.tip.hash then
    if (t.nodeStatus node).knownValid then t.extendTo node
    else if fastAdd then
      if v.connects node.hash then t.extendTo node
      else (t, .error (.assert "unable to find unspent output"))
    else match v.connect node.hash with
      | none => (t.setStatusFlags node .setValid).extendTo node
      | some (code, msg) => (t.setStatusFlags node .setValidateFailed, .error (.rule code msg))
  else if node.workSum ≤ t.tip.workSum then (t, .ok false)
  else
    let (t₁, detach, attach) := t.getReorganizeNodes node
    match t₁.reorganizeChain v detach attach with
    | (t₂, .ok ()) => (t₂, .ok true)
    | (t₂, .error e) => (t₂, .error e)

/-- `AddNode` of a block whose data was just stored. -/
def addNode (t : ChainTree) (node : BlockNode) : ChainTree :=
  { t with nodes := t.nodes ++ [node], status := t.status.put node.hash {} }

def maybeAcceptBlock (v : Verdicts) (t : ChainTree) (block : NewBlock) (fastAdd : Bool) :
    ChainTree × Check Bool :=
  match t.lookupNode block.prevBlock with
  | none => (t, .error (.rule .previousBlockUnknown
      ("previous block " ++ Hash.str block.prevBlock ++ " is unknown")))
  | some prevNode =>
      if t.knownInvalid prevNode then (t, .error (.rule .invalidAncestorBlock
        ("previous block " ++ Hash.str block.prevBlock ++ " is known to be invalid")))
      else match v.context block.hash with
        | some (code, msg) => (t, .error (.rule code msg))
        | none =>
            match t.lookupNode block.hash with
            | some newNode => t.connectBestChain v newNode fastAdd
            | none =>
                let newNode : BlockNode := ⟨block.info, prevNode.chain⟩
                (t.addNode newNode).connectBestChain v newNode fastAdd

/-- The inner loop of `processOrphans`: the orphans of one parent, one after
another. Returns the hashes of those that were accepted. -/
def replayOrphans (v : Verdicts) (fastAdd : Bool) : ChainTree → List NewBlock →
    ChainTree × List Hash × Check Unit
  | t, [] => (t, [], .ok ())
  | t, orphan :: rest =>
      match maybeAcceptBlock v { t with orphans := t.orphans.erase orphan } orphan fastAdd with
      | (t₁, .error e) => (t₁, [], .error e)
      | (t₁, .ok _) =>
          let (t₂, accepted, r) := replayOrphans v fastAdd t₁ rest
          (t₂, orphan.hash :: accepted, r)

/-- `processOrphans`, on the queue of hashes to process. Each round takes one
hash off the queue, and a hash enters it when its block leaves the orphan pool. -/
def processOrphans (v : Verdicts) (fastAdd : Bool) : Nat → ChainTree → List Hash →
    ChainTree × Check Unit
  | 0, t, _ => (t, .ok ())
  | _ + 1, t, [] => (t, .ok ())
  | fuel + 1, t, processHash :: processHashes =>
      match replayOrphans v fastAdd t (t.orphans.filter fun o => o.prevBlock = processHash) with
      | (t₁, _, .error e) => (t₁, .error e)
      | (t₁, accepted, .ok ()) => processOrphans v fastAdd fuel t₁ (processHashes ++ accepted)

/-- `ProcessBlock`: is the block on the main chain, and is it an orphan. -/
def processBlock (v : Verdicts) (t : ChainTree) (block : NewBlock) (fastAdd : Bool) :
    ChainTree × Check (Bool × Bool) :=
  if (t.lookupNode block.hash).isSome then
    (t, .error (.rule .duplicateBlock ("already have block " ++ Hash.str block.hash)))
  else if t.orphans.any fun o => o.hash = block.hash then
    (t, .error (.rule .duplicateBlock ("already have block (orphan) " ++ Hash.str block.hash)))
  else match v.sanity block.hash with
    | some (code, msg) => (t, .error (.rule code msg))
    | none =>
        if (t.lookupNode block.prevBlock).isNone then
          ({ t with orphans := t.orphans ++ [block] }, .ok (false, true))
        else match t.maybeAcceptBlock v block fastAdd with
          | (t₁, .error e) => (t₁, .error e)
          | (t₁, .ok isMainChain) =>
              match processOrphans v fastAdd (t₁.orphans.length + 1) t₁ [block.hash] with
              | (t₂, .error e) => (t₂, .error e)
              | (t₂, .ok ()) => (t₂, .ok (isMainChain, false))

/-! ## Invalidating and reconsidering -/

/-- An order in which a map of nodes may be iterated. -/
structure MapOrder where
  run  : List BlockNode → List BlockNode
  perm : ∀ ns, (run ns).Perm ns

def sideNodes (t : ChainTree) : List BlockNode := t.nodes.filter fun n => !t.onBestChain n

/-- `InactiveTips`: those that are no parent of another one. -/
def inactiveTips (ord : MapOrder) (t : ChainTree) : List BlockNode :=
  ord.run (t.sideNodes.filter fun n =>
    t.sideNodes.all fun m => m.parent.map BlockNode.hash ≠ some n.hash)

def markFailed (t : ChainTree) (n : BlockNode) : ChainTree :=
  (t.setStatusFlags n .setValidateFailed).setStatusFlags n .unsetValid

/-- Mark a node as having an invalid ancestor, unless it is known to be invalid. -/
def markInvalid (t : ChainTree) (n : BlockNode) : ChainTree :=
  if t.knownInvalid n then t
  else (t.setStatusFlags n .setInvalidAncestor).setStatusFlags n .unsetValid

/-- The nodes from `n` down to `node`, which is left out. -/
def nodesDownTo (n node : BlockNode) : List BlockNode :=
  BlockChain.nodesAbove (some node) n.chain

def betterTip (t : ChainTree) (bestTip : Option BlockNode) (tip : BlockNode) : Option BlockNode :=
  if t.knownInvalid tip then bestTip
  else match bestTip with
    | none => some tip
    | some best => if best.workSum < tip.workSum then some tip else some best

/-- `InvalidateBlock` of a block outside the best chain: mark what descends
from it. -/
def invalidateSide (ord : MapOrder) (t : ChainTree) (node : BlockNode) : ChainTree :=
  (t.inactiveTips ord).foldl (fun t' tip =>
    if tip.isAncestor node then (nodesDownTo tip node).foldl markInvalid t' else t') t

def bestTip (ord : MapOrder) (t : ChainTree) : Option BlockNode :=
  (t.inactiveTips ord ++ [t.tip]).foldl t.betterTip none

/-- The end of `InvalidateBlock`: move to the tip with the most work. -/
def switchToBestTip (v : Verdicts) (ord : MapOrder) (t : ChainTree) : ChainTree × Check Unit :=
  match t.bestTip ord with
  | none => (t, .error (.assert "no tip is left"))
  | some bestTip =>
      if bestTip = t.tip then (t, .ok ())
      else
        let (t₁, detach, attach) := t.getReorganizeNodes bestTip
        t₁.reorganizeChain v detach attach

/-- `InvalidateBlock` of a block of the best chain. -/
def invalidateBest (v : Verdicts) (ord : MapOrder) (t : ChainTree) (node : BlockNode) :
    ChainTree × Check Unit :=
  let above := nodesDownTo t.tip node
  let detach := (above.filter fun n => !t.knownInvalid n) ++ [node]
  match (above.foldl markInvalid t).reorganizeChain v detach [] with
  | (t₁, .error e) => (t₁, .error e)
  | (t₁, .ok ()) => t₁.switchToBestTip v ord

def invalidateBlock (v : Verdicts) (ord : MapOrder) (t : ChainTree) (h : Hash) :
    ChainTree × Check Unit :=
  match t.lookupNode h with
  | none => (t, .error (.assert ("Requested block hash of " ++ Hash.str h ++
      " is not found and thus cannot be invalidated.")))
  | some node =>
      if node.height = 0 then (t, .error (.assert ("Requested block hash of " ++ Hash.str h ++
        " is a at height 0 and is thus a genesis block and cannot be invalidated.")))
      else if t.knownInvalid node then (t, .ok ())
      else
        let t₁ := t.markFailed node
        if !t₁.onBestChain node then (t₁.invalidateSide ord node, .ok ())
        else t₁.invalidateBest v ord node

def clearFailed (t : ChainTree) (n : BlockNode) : ChainTree :=
  (t.setStatusFlags n .unsetInvalidAncestor).setStatusFlags n .unsetValidateFailed

/-- The loop of `ReconsiderBlock` over the tips: clear the marks on the way from
each tip back to the block, and remember the last tip that was seen. -/
def reconsiderTips (node : BlockNode) : ChainTree → Option BlockNode → List BlockNode →
    ChainTree × Option BlockNode
  | t, last, [] => (t, last)
  | t, last, tip :: tips =>
      if tip.isAncestor node then
        reconsiderTips node (t.setAllStatusFlags (nodesDownTo tip node) .unsetInvalidAncestor)
          (some tip) tips
      else reconsiderTips node t (if tip = node then some node else last) tips

/-- The end of `ReconsiderBlock`: move to the tip if it has more work. -/
def reconsiderTo (v : Verdicts) (t : ChainTree) (reconsiderTip : BlockNode) :
    ChainTree × Check Unit :=
  if reconsiderTip.workSum ≤ t.tip.workSum then (t, .ok ())
  else
    let (t₁, detach, attach) := t.getReorganizeNodes reconsiderTip
    -- a branch that fails here was reconsidered and found to be invalid
    match t₁.verifyReorganizationValidity v detach attach with
    | (t₂, .error _) => (t₂, .ok ())
    | (t₂, .ok ()) => t₂.reorganizeChain v detach attach

def reconsiderBlock (v : Verdicts) (ord : MapOrder) (t : ChainTree) (h : Hash) :
    ChainTree × Check Unit :=
  match t.lookupNode h with
  | none => (t, .error (.assert ("requested block hash of " ++ Hash.str h ++
      " is not found and thus cannot be reconsidered")))
  | some node =>
      if (t.nodeStatus node).knownValid then (t, .ok ())
      else
        let t₁ := t.clearFailed node
        match reconsiderTips node t₁ none (t₁.inactiveTips ord ++ [t₁.tip]) with
        | (t₂, none) => (t₂, .error (.assert "no tip descends from the block"))
        | (t₂, some reconsiderTip) => t₂.reconsiderTo v reconsiderTip

/-! ## Runs -/

/-- The state after `createChainState`. -/
def genesisTree (genesis : HeaderInfo) : ChainTree :=
  { nodes := [⟨genesis, []⟩]
    status := Bucket.empty.put genesis.hash { valid := true }
    tip := ⟨genesis, []⟩
    orphans := [] }

/-- A call of `ProcessBlock`. -/
structure Offer where
  block   : NewBlock
  fastAdd : Bool := false
deriving DecidableEq, Repr

def arrive (v : Verdicts) (t : ChainTree) (a : Offer) : Option ChainTree :=
  some (t.processBlock v a.block a.fastAdd).1

end ChainTree

end FalconDraw.Chain
