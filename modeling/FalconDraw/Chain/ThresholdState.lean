/-
FalconDraw.Chain.ThresholdState — the states of soft-fork deployments
(blockchain/thresholdstate.go, versionbits.go, chaincfg/deployment_time_frame.go).

The state after a block is the state at the last end of a confirmation window
before it.
-/
import FalconDraw.Chain.BlockNode
import FalconDraw.Chain.RuleError

namespace FalconDraw.Chain

open Lib Wire

inductive ThresholdState where
  | defined | started | lockedIn | active | failed
deriving DecidableEq, Repr

/-- `thresholdConditionChecker`, with a confirmation window that is not empty. -/
structure ThresholdChecker where
  hasStarted                    : List HeaderInfo → Bool
  hasEnded                      : List HeaderInfo → Bool
  ruleChangeActivationThreshold : Nat
  minerConfirmationWindow       : Nat
  eligibleToActivate            : List HeaderInfo → Bool
  isSpeedy                      : Bool
  condition                     : HeaderInfo → List HeaderInfo → Check Bool
  forceActive                   : List HeaderInfo → Bool
  window_pos                    : 0 < minerConfirmationWindow

/-- `thresholdStateCache`. -/
def ThresholdCache := Hash → Option ThresholdState

namespace ThresholdCache

def empty : ThresholdCache := fun _ => none

def lookup (cache : ThresholdCache) (hash : Hash) : Option ThresholdState := cache hash

def update (cache : ThresholdCache) (hash : Hash) (state : ThresholdState) : ThresholdCache :=
  fun h => if h = hash then some state else cache h

theorem lookup_update (cache : ThresholdCache) (hash h : Hash) (state : ThresholdState) :
    (cache.update hash state).lookup h = if h = hash then some state else cache.lookup h := rfl

end ThresholdCache

section
variable (checker : ThresholdChecker)

def countVotes : Nat → List HeaderInfo → Check Nat
  | 0, _ => return 0
  | _ + 1, [] => throw (.assert "nil pointer dereference")
  | n + 1, countNode :: ancestors => do
    let condition ← checker.condition countNode ancestors
    let count ← countVotes n ancestors
    return count + if condition then 1 else 0

def thresholdStateTransition (state : ThresholdState) (prevNode : List HeaderInfo) :
    Check ThresholdState :=
  match state with
  | .defined =>
    if !checker.isSpeedy && checker.hasEnded prevNode then return .failed
    else if checker.hasStarted prevNode then return .started
    else return .defined
  | .started =>
    if !checker.isSpeedy && checker.hasEnded prevNode then return .failed
    else do
      let count ← countVotes checker checker.minerConfirmationWindow prevNode
      if checker.ruleChangeActivationThreshold ≤ count then return .lockedIn
      else if checker.isSpeedy && checker.hasEnded prevNode then return .failed
      else return .started
  | .lockedIn =>
    if !checker.eligibleToActivate prevNode then return .lockedIn else return .active
  | .active => return .active
  | .failed => return .failed

/-- The backward loop of `thresholdState`: the cache, the nodes that need a state,
newest first, and the node it stops at. -/
def walkBack : Nat → List HeaderInfo → ThresholdCache →
    ThresholdCache × List (HeaderInfo × List HeaderInfo) × List HeaderInfo
  | 0, prevNode, cache => (cache, [], prevNode)
  | _ + 1, [], cache => (cache, [], [])
  | fuel + 1, node :: ancestors, cache =>
    let prevNode := node :: ancestors
    match cache.lookup node.hash with
    | some _ => (cache, [], prevNode)
    | none =>
      if !checker.hasStarted prevNode then (cache.update node.hash .defined, [], prevNode)
      else
        let (cache, neededStates, stop) :=
          walkBack fuel (prevNode.drop checker.minerConfirmationWindow) cache
        (cache, (node, ancestors) :: neededStates, stop)

def replay (state : ThresholdState) (cache : ThresholdCache) :
    List (HeaderInfo × List HeaderInfo) → Check ThresholdState × ThresholdCache
  | [] => (.ok state, cache)
  | (node, ancestors) :: older =>
    match replay state cache older with
    | (.error e, cache) => (.error e, cache)
    | (.ok state, cache) =>
      match thresholdStateTransition checker state (node :: ancestors) with
      | .error e => (.error e, cache)
      | .ok state => (.ok state, cache.update node.hash state)

def cachedState (cache : ThresholdCache) : List HeaderInfo → Check ThresholdState
  | [] => .ok .defined
  | node :: _ =>
    match cache.lookup node.hash with
    | some state => .ok state
    | none => .error (.assert ("thresholdState: cache lookup failed for " ++ Hash.str node.hash))

def thresholdState (prevNode : List HeaderInfo) (cache : ThresholdCache) :
    Check ThresholdState × ThresholdCache :=
  if checker.forceActive prevNode then (.ok .active, cache)
  else if prevNode.length < checker.minerConfirmationWindow then (.ok .defined, cache)
  else
    -- the last block of the previous window
    let prevNode := prevNode.drop (prevNode.length % checker.minerConfirmationWindow)
    let (cache, neededStates, stop) := walkBack checker prevNode.length prevNode cache
    match cachedState cache stop with
    | .error e => (.error e, cache)
    | .ok state => replay checker state cache neededStates

def runQueries : List (List HeaderInfo) → ThresholdCache → List (Check ThresholdState)
  | [], _ => []
  | prevNode :: queries, cache =>
    (thresholdState checker prevNode cache).1 ::
      runQueries queries (thresholdState checker prevNode cache).2

end

/-! ## Deployments -/

def vbTopBits : Nat := 0x20000000

def vbTopMask : Nat := 0xe0000000

/-- `ConsensusDeployment` with a start and an end by median time, where the zero
time (`none`) means started from the beginning and never ended. -/
structure ConsensusDeployment where
  bitNumber                 : Nat
  minActivationHeight       : Nat
  customActivationThreshold : Nat
  alwaysActiveHeight        : Nat
  startTime                 : Option Int
  endTime                   : Option Int
deriving DecidableEq, Repr

/-- The parameters of a network. -/
structure VotingParams where
  ruleChangeActivationThreshold : Nat
  minerConfirmationWindow       : Nat
  window_pos                    : 0 < minerConfirmationWindow

namespace ConsensusDeployment

variable (d : ConsensusDeployment)

def effectiveAlwaysActiveHeight : Nat :=
  if d.alwaysActiveHeight = 0 then 2 ^ 32 - 1 else d.alwaysActiveHeight

/-- The median time of the node has reached this one. The genesis block has no
previous node, so its median time is an error. -/
def medianReached (time : Int) : List HeaderInfo → Bool
  | node :: parent :: ancestors => time ≤ calcPastMedianTime (node :: parent :: ancestors)
  | _ => false

def hasStarted (blkNode : List HeaderInfo) : Bool :=
  match d.startTime with
  | none => true
  | some startTime => medianReached startTime blkNode

def hasEnded (blkNode : List HeaderInfo) : Bool :=
  match d.endTime with
  | none => false
  | some endTime => medianReached endTime blkNode

def condition (node : HeaderInfo) : Bool :=
  let conditionMask := (1 <<< d.bitNumber) % 2 ^ 32
  let version := (node.version % 2 ^ 32).toNat
  version &&& vbTopMask == vbTopBits && version &&& conditionMask != 0

/-- `deploymentChecker`. -/
def checker (p : VotingParams) : ThresholdChecker :=
  { hasStarted := d.hasStarted
    hasEnded := d.hasEnded
    ruleChangeActivationThreshold :=
      if d.customActivationThreshold ≠ 0 then d.customActivationThreshold
      else p.ruleChangeActivationThreshold
    minerConfirmationWindow := p.minerConfirmationWindow
    eligibleToActivate := fun blkNode =>
      d.minActivationHeight = 0 ∨ d.minActivationHeight ≤ blkNode.length
    isSpeedy := d.minActivationHeight ≠ 0 || d.customActivationThreshold ≠ 0
    condition := fun node _ => return d.condition node
    forceActive := fun node =>
      node ≠ [] && d.effectiveAlwaysActiveHeight ≤ node.length
    window_pos := p.window_pos }

end ConsensusDeployment

end FalconDraw.Chain
