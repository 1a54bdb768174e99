/-
FalconDraw.Chain.PendingVdf — which draw the node computes and when its result is
offered to miners (blockchain/chain.go).

Two scans look for a draw that still needs its VDF: `startNextPendingVDF` forward
from the settling block, the goroutine started by `New` backward from the tip.
-/
import FalconDraw.Lib.Transition
import FalconDraw.Chain.Run

namespace FalconDraw.Chain

open Lib Wire Draw

/-- What `FetchVDFResult` reports as found. -/
def settled (idx : StakeIndex) (drawHeight : Nat) : Bool :=
  (idx.vdfResults.get drawHeight).isSome

/-! ## The two scans -/

/-- The heights `startNextPendingVDF` visits, in order. -/
def drawsAfter (afterHeight bestHeight : Nat) : List Nat :=
  List.range' (afterHeight + drawInterval) ((bestHeight - afterHeight) / drawInterval)
    drawInterval

/-- The loop of `startNextPendingVDF`. -/
def nextPendingDraw (idx : StakeIndex) : List Nat → Option Nat
  | [] => none
  | dh :: dhs =>
      if settled idx dh then nextPendingDraw idx dhs
      else if idx.poolStakes dh = [] then nextPendingDraw idx dhs
      else some dh

/-- The computation `startNextPendingVDF` starts, if it starts one. -/
def startNextPendingVDF (idx : StakeIndex) (tip : BlockNode) (afterHeight : Nat) :
    Option (Nat × Hash) :=
  (nextPendingDraw idx (drawsAfter afterHeight tip.height)).bind fun dh =>
    (blockHashByHeight tip dh).map fun h => (dh, h)

/-- The heights the resume scan of `New` visits, in order. -/
def drawsBack (tipHeight : Nat) : List Nat :=
  StakeIndex.drawsFrom tipHeight (tipHeight / drawInterval * drawInterval)

def lastPendingDraw (idx : StakeIndex) : List Nat → Option Nat
  | [] => none
  | dh :: dhs =>
      if settled idx dh then none
      else if idx.poolStakes dh = [] then lastPendingDraw idx dhs
      else some dh

def resumeVDF (idx : StakeIndex) (tip : BlockNode) : Option (Nat × Hash) :=
  (lastPendingDraw idx (drawsBack tip.height)).bind fun dh =>
    (blockHashByHeight tip dh).map fun h => (dh, h)

/-! ## Shared state -/

/-- What the threads share. A computation is named by the number of
computations started before it. -/
structure VdfShared where
  /-- The blocks of the stored best chain, nearest first. -/
  chain               : List Block
  idx                 : StakeIndex
  /-- `bestChain.Tip()` and `BestSnapshot().Height`. -/
  bestTip             : BlockNode
  bestHeight          : Nat
  pendingVDF          : Option VDFResultData
  /-- The computation that calling `vdfCancel` stops. -/
  vdfCancel           : Option Nat
  vdfCurrentHeight    : Nat
  cancelled           : List Nat
  started             : Nat
  submitterWalletHash : WalletHash

namespace VdfShared

/-- The locked section of `startVDFComputation`. -/
def startVDFComputation (s : VdfShared) (drawHeight : Nat) : VdfShared :=
  { s with
    cancelled := s.vdfCancel.toList ++ s.cancelled
    vdfCancel := some s.started
    started := s.started + 1
    vdfCurrentHeight := drawHeight
    pendingVDF := none }

/-- The locked section with which `startNextPendingVDF` and `disconnectBlock`
drop the current computation. -/
def cancelVDF (s : VdfShared) : VdfShared :=
  { s with
    cancelled := s.vdfCancel.toList ++ s.cancelled
    vdfCancel := none
    vdfCurrentHeight := 0
    pendingVDF := none }

end VdfShared

/-! ## Threads -/

/-- A running thread, by the step it takes next. -/
inductive VdfThread where
  /-- `connectBlock` has committed and sets the tip, the snapshot, reads the
  stakes of a draw block and clears the pending result. -/
  | setTip (node : BlockNode) (block : Block)
  | setSnapshot (node : BlockNode) (block : Block)
  | fetchDrawStakes (node : BlockNode) (block : Block)
  | clearPending (node : BlockNode) (block : Block)
  /-- `disconnectBlock` has committed. -/
  | unsetTip (node : BlockNode)
  | unsetSnapshot (node : BlockNode)
  | unsetPending (node : BlockNode)
  /-- `startNextPendingVDF`. -/
  | startNext (afterHeight : Nat)
  | scan (draws : List Nat)
  | scanStakes (drawHeight : Nat) (draws : List Nat)
  | scanHash (drawHeight : Nat)
  | readCurrent
  | recheckCurrent (drawHeight : Nat)
  | cancelCurrent
  /-- The resume scan of `New`. -/
  | resume (draws : List Nat)
  | resumeStakes (drawHeight : Nat) (draws : List Nat)
  /-- `startVDFComputation`, called by a scan or by a `connectBlock` that goes
  on to clear the pending result. -/
  | launch (drawHeight : Nat) (hash : Hash) (caller : Option (BlockNode × Block))
  /-- The worker: it computes, looks whether the draw is settled, compares the
  hash of the draw block and publishes. -/
  | compute (id : Nat) (drawHeight : Nat) (hash : Hash)
  | checkSettled (result : VDFResultData)
  | checkHash (result : VDFResultData)
  | publish (result : VDFResultData)

namespace VdfThread

/-- One step: the shared state after it, and the threads that take this one's
place. A worker that computes ends by an action of its own. -/
def step (s : VdfShared) : VdfThread → VdfShared × List VdfThread
  | setTip node block => ({ s with bestTip := node }, [setSnapshot node block])
  | setSnapshot node block =>
      ({ s with bestHeight := node.height }, [fetchDrawStakes node block])
  | fetchDrawStakes node block =>
      if isDrawBlock node.height = true ∧ s.idx.poolStakes node.height ≠ [] then
        (s, [launch node.height node.hash (some (node, block))])
      else (s, [clearPending node block])
  | clearPending node block =>
      if blockContainsVDFResult block then ({ s with pendingVDF := none }, [startNext node.height])
      else (s, [])
  | unsetTip node =>
      match node.parent with
      | none => (s, [])
      | some parent => ({ s with bestTip := parent }, [unsetSnapshot node])
  | unsetSnapshot node => ({ s with bestHeight := node.height - 1 }, [unsetPending node])
  | unsetPending node => if isDrawBlock node.height then (s.cancelVDF, []) else (s, [])
  | startNext afterHeight => (s, [scan (drawsAfter afterHeight s.bestHeight)])
  | scan [] => (s, [readCurrent])
  | scan (dh :: dhs) => if settled s.idx dh then (s, [scan dhs]) else (s, [scanStakes dh dhs])
  | scanStakes dh dhs => if s.idx.poolStakes dh = [] then (s, [scan dhs]) else (s, [scanHash dh])
  | scanHash dh =>
      match blockHashByHeight s.bestTip dh with
      | none => (s, [])
      | some h => (s, [launch dh h none])
  | readCurrent =>
      if s.vdfCurrentHeight = 0 then (s, []) else (s, [recheckCurrent s.vdfCurrentHeight])
  | recheckCurrent dh => if settled s.idx dh then (s, [cancelCurrent]) else (s, [])
  | cancelCurrent => (s.cancelVDF, [])
  | resume [] => (s, [])
  | resume (dh :: dhs) => if settled s.idx dh then (s, []) else (s, [resumeStakes dh dhs])
  | resumeStakes dh dhs =>
      if s.idx.poolStakes dh = [] then (s, [resume dhs]) else (s, [scanHash dh])
  | launch dh hash caller =>
      (s.startVDFComputation dh,
        compute s.started dh hash :: caller.toList.map fun c => clearPending c.1 c.2)
  | compute id dh hash => (s, [compute id dh hash])
  | checkSettled r => if settled s.idx r.drawHeight then (s, []) else (s, [checkHash r])
  | checkHash r =>
      if blockHashByHeight s.bestTip r.drawHeight = some r.drawBlockHash then (s, [publish r])
      else (s, [])
  | publish r => ({ s with pendingVDF := some r }, [])

end VdfThread

/-! ## Interleavings -/

structure VdfNode where
  shared  : VdfShared
  threads : List VdfThread

/-- What happens next: a database transaction of `connectBlock` or
`disconnectBlock` commits, a thread takes a step, or the evaluation of a worker
ends with an output or because it was cancelled. -/
inductive VdfAction where
  | connect (block : Block)
  | disconnect
  | run (i : Nat)
  | finish (i : Nat) (T output : Nat)
  | abort (i : Nat)

namespace VdfNode

def replace (s : VdfNode) (i : Nat) (shared : VdfShared) (threads : List VdfThread) : VdfNode :=
  ⟨shared, s.threads.eraseIdx i ++ threads⟩

/-- One action. A block is connected only when `validateVDFSettlement` passed
it: none of its results is for a draw that the chain has settled. -/
def step (s : VdfNode) : VdfAction → Option VdfNode
  | .connect block =>
      if ∀ d ∈ blockResults block, ¬ SettledBelow s.shared.chain d.drawHeight then
        some
          { shared := { s.shared with
              chain := block :: s.shared.chain
              idx := s.shared.idx.connectBlock block }
            threads := s.threads ++ [.setTip (s.shared.bestTip.child block) block] }
      else none
  | .disconnect =>
      match s.shared.chain with
      | [] => none
      | block :: chain => some
          { shared := { s.shared with
              chain := chain
              idx := s.shared.idx.disconnectBlock block }
            threads := s.threads ++ [.unsetTip s.shared.bestTip] }
  | .run i =>
      match s.threads[i]? with
      | none => none
      | some t =>
          let (shared, threads) := t.step s.shared
          some (s.replace i shared threads)
  | .finish i T output =>
      match s.threads[i]? with
      | some (.compute _ dh hash) => some (s.replace i s.shared
          [.checkSettled ⟨dh, hash, T, output, s.shared.submitterWalletHash⟩])
      | _ => none
  | .abort i =>
      match s.threads[i]? with
      | some (.compute id _ _) =>
          if id ∈ s.shared.cancelled then some (s.replace i s.shared []) else none
      | _ => none

end VdfNode

end FalconDraw.Chain
