/-
FalconDraw.Chain.Retarget — the difficulty a block must have
(blockchain/difficulty.go, process.go).

Three rules follow each other: the retarget every `blocksPerRetarget` blocks, the
emergency easing between retargets, and from its activation height on LWMA-3,
computed anew for every block and eased when the chain stalls.
-/
import FalconDraw.Chain.Compact
import FalconDraw.Chain.RuleError

namespace FalconDraw.Chain

open Lib

/-- The `chaincfg.Params` the rules read, times in seconds, with what all networks
have in common. -/
structure RetargetParams where
  powLimit                        : Nat
  powLimitBits                    : Nat
  poWNoRetargeting                : Bool
  enforceBIP94                    : Bool
  targetTimespan                  : Nat
  targetTimePerBlock              : Nat
  retargetAdjustmentFactor        : Nat
  reduceMinDifficulty             : Bool
  minDiffReductionTime            : Nat
  emergencyAdjustWindow           : Nat
  emergencyAdjustActivationHeight : Nat
  lwma3ActivationHeight           : Nat
  powLimit_lt                     : powLimit < 2 ^ 256
  powLimitBits_pos                : 0 < compactToBig powLimitBits
  powLimitBits_le                 : compactToBig powLimitBits ≤ powLimit
  targetTimePerBlock_pos          : 0 < targetTimePerBlock
  targetTimePerBlock_lt           : targetTimePerBlock < 2 ^ 28
  targetTimePerBlock_le           : targetTimePerBlock ≤ targetTimespan
  factor_pos                      : 0 < retargetAdjustmentFactor

namespace RetargetParams

/-- `MainNetParams`. -/
def mainNet : RetargetParams :=
  { powLimit := 0x0fffff <<< 224
    powLimitBits := 0x1d00ffff
    poWNoRetargeting := false
    enforceBIP94 := false
    targetTimespan := 14 * 24 * 3600
    targetTimePerBlock := 600
    retargetAdjustmentFactor := 4
    reduceMinDifficulty := false
    minDiffReductionTime := 0
    emergencyAdjustWindow := 600
    emergencyAdjustActivationHeight := 40095
    lwma3ActivationHeight := 54500
    powLimit_lt := by decide
    powLimitBits_pos := by decide
    powLimitBits_le := by decide
    targetTimePerBlock_pos := by decide
    targetTimePerBlock_lt := by decide
    targetTimePerBlock_le := by decide
    factor_pos := by decide }

variable (p : RetargetParams)

def minRetargetTimespan : Nat := p.targetTimespan / p.retargetAdjustmentFactor

def maxRetargetTimespan : Nat := p.targetTimespan * p.retargetAdjustmentFactor

def blocksPerRetarget : Nat := p.targetTimespan / p.targetTimePerBlock

end RetargetParams

inductive RetargetError where
  /-- `AssertError`. -/
  | assert (description : String)
  /-- A missing node or a division by zero. -/
  | panic
deriving DecidableEq, Repr

variable (p : RetargetParams)

/-! ## Easing -/

/-- The loop of both easings: multiply once for every window, up to the limit. -/
def easeTarget : Nat → Int → Int
  | 0, newTarget => newTarget
  | windows + 1, newTarget =>
    let newTarget := newTarget * p.retargetAdjustmentFactor
    if (p.powLimit : Int) ≤ newTarget then p.powLimit else easeTarget windows newTarget

def maxEmergencyWindowsPerBlock : Int := 6

def lwma3SolveTimeClampMultiplier : Nat := 6

/-- The longest solve time LWMA-3 counts, which is also the window of the stall
easing. -/
def maxSolvetime : Nat := lwma3SolveTimeClampMultiplier * p.targetTimePerBlock

def applyLWMA3StallEase (baseBits : Nat) (parentTimestamp newBlockTimestamp : Int) : Nat :=
  let windowSecs : Int := maxSolvetime p
  let elapsed := newBlockTimestamp - parentTimestamp
  if elapsed ≤ windowSecs then baseBits
  else bigToCompact (easeTarget p (elapsed / windowSecs).toNat (compactToBig baseBits))

/-! ## LWMA-3 -/

def lwma3WindowSize : Nat := 60

def clampSolvetime (solvetime : Int) : Int :=
  if (maxSolvetime p : Int) < solvetime then maxSolvetime p
  else if solvetime < -(maxSolvetime p : Int) then -(maxSolvetime p : Int)
  else solvetime

/-- The variables of the loop over the window. -/
structure Lwma3Sums where
  prevTimestamp        : Int
  weightedSolvetimeSum : Int
  sumTarget            : Int
deriving DecidableEq, Repr

/-- The loop, with the nodes at distances below this one still to come. -/
def lwma3Loop (windowSize : Nat) (chain : List HeaderInfo) :
    Nat → Lwma3Sums → Except RetargetError Lwma3Sums
  | 0, s => .ok s
  | d + 1, s =>
    match chain[d]? with
    | none => .error (.assert "unable to obtain ancestor for LWMA-3 window")
    | some node =>
      let j : Int := windowSize - d
      let solvetime := clampSolvetime p (node.timestamp - s.prevTimestamp)
      lwma3Loop windowSize chain d
        { prevTimestamp := node.timestamp
          weightedSolvetimeSum := s.weightedSolvetimeSum + (solvetime * j).bmod (2 ^ 64)
          sumTarget := s.sumTarget + compactToBig node.bits }

def lwma3Sums (windowSize : Nat) (chain : List HeaderInfo) : Except RetargetError Lwma3Sums :=
  match chain[windowSize]? with
  | none => .error .panic
  | some anchor => lwma3Loop p windowSize chain windowSize ⟨anchor.timestamp, 0, 0⟩

/-- `k`, with `windowSize + 1` an `int32` and the product an `int64`. -/
def lwma3Normalizer (windowSize : Nat) : Int :=
  ((windowSize * ((windowSize : Int) + 1).bmod (2 ^ 32)).tdiv 2 * p.targetTimePerBlock).bmod (2 ^ 64)

def lwma3Quotient (windowSize : Nat) (s : Lwma3Sums) : Int :=
  let avgTarget := s.sumTarget / windowSize
  let weightedSolvetimeSum := if s.weightedSolvetimeSum < 1 then 1 else s.weightedSolvetimeSum
  avgTarget * weightedSolvetimeSum / lwma3Normalizer p windowSize

/-- Limit a target: what is not positive or above the limit becomes the limit. -/
def limitTarget (nextTarget : Int) : Int :=
  if nextTarget ≤ 0 ∨ (p.powLimit : Int) < nextTarget then p.powLimit else nextTarget

def calcNextRequiredDifficultyLWMA3 (windowSize : Nat) (chain : List HeaderInfo) :
    Except RetargetError Nat :=
  if p.poWNoRetargeting then .ok p.powLimitBits
  else match chain with
  | [] => .ok p.powLimitBits
  | lastNode :: ancestors =>
    if ancestors.length < windowSize then .ok lastNode.bits
    else do
      let s ← lwma3Sums p windowSize chain
      rejectIf (windowSize = 0 ∨ lwma3Normalizer p windowSize = 0) .panic
      return bigToCompact (limitTarget p (lwma3Quotient p windowSize s))

/-! ## The rules in force -/

def findPrevTestNetDifficulty : List HeaderInfo → Nat
  | [] => p.powLimitBits
  | node :: ancestors =>
    if ancestors.length % p.blocksPerRetarget ≠ 0 ∧ node.bits = p.powLimitBits then
      findPrevTestNetDifficulty ancestors
    else node.bits

def emergencyDifficulty (lastNode : HeaderInfo) (nextHeight : Nat) (newBlockTime : Int) : Nat :=
  let elapsed := newBlockTime - lastNode.timestamp
  if 0 < p.emergencyAdjustWindow ∧ p.emergencyAdjustActivationHeight ≤ nextHeight ∧
      (p.emergencyAdjustWindow : Int) < elapsed then
    let windowsElapsed := min (elapsed / p.emergencyAdjustWindow) maxEmergencyWindowsPerBlock
    bigToCompact (easeTarget p windowsElapsed.toNat (compactToBig lastNode.bits))
  else lastNode.bits

def retargetDifficulty (lastNode firstNode : HeaderInfo) : Nat :=
  let actualTimespan := lastNode.timestamp - firstNode.timestamp
  let adjustedTimespan : Int :=
    if actualTimespan < p.minRetargetTimespan then p.minRetargetTimespan
    else if (p.maxRetargetTimespan : Int) < actualTimespan then p.maxRetargetTimespan
    else actualTimespan
  let oldTarget := compactToBig (if p.enforceBIP94 then firstNode.bits else lastNode.bits)
  let newTarget := oldTarget * adjustedTimespan / p.targetTimespan
  bigToCompact (if (p.powLimit : Int) < newTarget then p.powLimit else newTarget)

def lwma3Active (nextHeight : Nat) : Bool :=
  p.lwma3ActivationHeight ≠ 0 && p.lwma3ActivationHeight ≤ nextHeight

/-- `calcNextRequiredDifficulty` for the block after the last node of the chain. -/
def calcNextRequiredDifficulty (chain : List HeaderInfo) (newBlockTime : Int) :
    Except RetargetError Nat :=
  if p.poWNoRetargeting then .ok p.powLimitBits
  else match chain with
  | [] => .ok p.powLimitBits
  | lastNode :: ancestors =>
    let nextHeight := ancestors.length + 1
    if lwma3Active p nextHeight then do
      let lwma3Bits ← calcNextRequiredDifficultyLWMA3 p lwma3WindowSize chain
      return applyLWMA3StallEase p lwma3Bits lastNode.timestamp newBlockTime
    else if nextHeight % p.blocksPerRetarget ≠ 0 then
      if p.reduceMinDifficulty then
        if lastNode.timestamp + p.minDiffReductionTime < newBlockTime then .ok p.powLimitBits
        else .ok (findPrevTestNetDifficulty p chain)
      else .ok (emergencyDifficulty p lastNode nextHeight newBlockTime)
    else match chain[p.blocksPerRetarget - 1]? with
    | none => .error (.assert "unable to obtain previous retarget block")
    | some firstNode => .ok (retargetDifficulty p lastNode firstNode)

/-! ## The bound after a checkpoint -/

/-- The loop of `calcEasiestDifficulty`, for at most `fuel` rounds. -/
def easiestTarget : Nat → Int → Int → Int
  | 0, _, newTarget => newTarget
  | fuel + 1, durationVal, newTarget =>
    if 0 < durationVal ∧ newTarget < p.powLimit then
      easiestTarget fuel (durationVal - p.maxRetargetTimespan) (newTarget * p.retargetAdjustmentFactor)
    else newTarget

/-- `calcEasiestDifficulty`; every round takes at least a second off. -/
def calcEasiestDifficulty (bits : Nat) (duration : Int) : Nat :=
  if p.reduceMinDifficulty ∧ (p.minDiffReductionTime : Int) < duration then p.powLimitBits
  else
    let newTarget := easiestTarget p duration.toNat duration (compactToBig bits)
    bigToCompact (if (p.powLimit : Int) < newTarget then p.powLimit else newTarget)

/-- The tests of `ProcessBlock` against the last checkpoint. -/
def checkCheckpoint (fastAdd : Bool) (checkpoint header : HeaderInfo) : Check Unit := do
  rejectIf (header.timestamp < checkpoint.timestamp) (.rule .checkpointTimeTooOld
    ("block " ++ Wire.Hash.str header.hash ++ " has timestamp " ++ toString header.timestamp ++
      " before last checkpoint timestamp " ++ toString checkpoint.timestamp))
  if fastAdd then return ()
  else
    let duration := header.timestamp - checkpoint.timestamp
    let requiredTarget := compactToBig (calcEasiestDifficulty p checkpoint.bits duration)
    let currentTarget := compactToBig header.bits
    rejectIf (requiredTarget < currentTarget) (.rule .difficultyTooLow
      ("block target difficulty of " ++
        String.ofList ((beBytes 32 currentTarget.toNat).flatMap Wire.hexDigits) ++
        " is too low when compared to the previous checkpoint"))

end FalconDraw.Chain
