/-
FalconDraw.Chain.HeaderChecks — the checks of a header (blockchain/validate.go).

`CheckBlockHeaderSanity` looks at the header alone, `CheckBlockHeaderContext` at
its place in the chain, a list of headers from the parent back to genesis.
-/
import FalconDraw.Chain.Retarget

namespace FalconDraw.Chain

open Lib Wire

/-- `%064x` of a target. -/
def hex64 (n : Int) : String :=
  (if n < 0 then "-" else "") ++ String.ofList ((beBytes 32 n.natAbs).flatMap hexDigits)

/-- `HashToBig`: the bytes of a hash are little-endian. -/
def hashToBig (h : Hash) : Int := leNat (Hash.toBytes h)

def maxTimeOffsetSeconds : Int := 2 * 60 * 60

def maxTimeWarp : Int := 600

def checkProofOfWork (header : HeaderInfo) (powLimit : Nat) (noPoWCheck : Bool) : Check Unit := do
  let target := compactToBig header.bits
  rejectIf (target ≤ 0) (.rule .unexpectedDifficulty
    ("block target difficulty of " ++ hex64 target ++ " is too low"))
  rejectIf ((powLimit : Int) < target) (.rule .unexpectedDifficulty
    ("block target difficulty of " ++ hex64 target ++ " is higher than max of " ++ hex64 powLimit))
  checkWhen (!noPoWCheck) (rejectIf (target < hashToBig header.hash) (.rule .highHash
    ("block pow hash of " ++ hex64 (hashToBig header.hash) ++ " is higher than expected max of " ++
      hex64 target)))

def checkBlockHeaderSanity (header : HeaderInfo) (powLimit : Nat) (adjustedTime : Int)
    (noPoWCheck : Bool) : Check Unit := do
  checkProofOfWork header powLimit noPoWCheck
  rejectIf (adjustedTime + maxTimeOffsetSeconds < header.timestamp) (.rule .timeTooNew
    ("block timestamp of " ++ toString header.timestamp ++ " is too far in the future"))

def assertNoTimeWarp (blockHeight blocksPerRetarget : Nat) (headerTime prevBlockTime : Int) :
    Check Unit :=
  if blockHeight % blocksPerRetarget ≠ 0 then return ()
  else rejectIf (headerTime < prevBlockTime - maxTimeWarp) (.rule .timewarpAttack
    ("block's timestamp " ++ toString headerTime ++ " is too early on diff adjustment block " ++
      toString prevBlockTime))

/-- What the checks ask of the chain (`ChainCtx`). -/
structure ChainCtx where
  retarget           : RetargetParams
  params             : Params
  verifyCheckpoint   : Nat → Hash → Bool
  /-- The height `FindPreviousCheckpoint` finds. -/
  previousCheckpoint : Option Nat

def RetargetError.toErr : RetargetError → Err
  | .assert description => .assert description
  | .panic => .assert "runtime error"

def checkHeaderWork (c : ChainCtx) (header : HeaderInfo) (prevChain : List HeaderInfo) :
    Check Unit := do
  let expectedDifficulty ←
    (calcNextRequiredDifficulty c.retarget prevChain header.timestamp).mapError RetargetError.toErr
  rejectIf (header.bits ≠ expectedDifficulty) (.rule .unexpectedDifficulty
    ("block difficulty of " ++ toString header.bits ++ " is not the expected value of " ++
      toString expectedDifficulty))
  let medianTime := calcPastMedianTime prevChain
  rejectIf (header.timestamp ≤ medianTime) (.rule .timeTooOld
    ("block timestamp of " ++ toString header.timestamp ++ " is not after expected " ++
      toString medianTime))
  checkWhen c.retarget.enforceBIP94
    (assertNoTimeWarp prevChain.length c.retarget.blocksPerRetarget header.timestamp
      ((prevChain.head?.map HeaderInfo.timestamp).getD 0))

/-- `CheckBlockHeaderContext` for a header on top of this chain. -/
def checkBlockHeaderContext (c : ChainCtx) (fastAdd skipCheckpoint : Bool) (header : HeaderInfo)
    (prevChain : List HeaderInfo) : Check Unit := do
  let blockHeight := prevChain.length
  checkWhen (!fastAdd) (checkHeaderWork c header prevChain)
  rejectIf (header.version < 2 ∧ c.params.bip0034Height ≤ blockHeight ∨
      header.version < 3 ∧ c.params.bip0066Height ≤ blockHeight ∨
      header.version < 4 ∧ c.params.bip0065Height ≤ blockHeight) (.rule .blockVersionTooOld
    ("new blocks with version " ++ toString header.version ++ " are no longer valid"))
  if skipCheckpoint then return ()
  else
    rejectIf (!c.verifyCheckpoint blockHeight header.hash) (.rule .badCheckpoint
      ("block at height " ++ toString blockHeight ++ " does not match checkpoint hash"))
    match c.previousCheckpoint with
    | none => return ()
    | some checkpointHeight => rejectIf (blockHeight < checkpointHeight) (.rule .forkTooOld
      ("block at height " ++ toString blockHeight ++
        " forks the main chain before the previous checkpoint at height " ++
        toString checkpointHeight))

end FalconDraw.Chain
