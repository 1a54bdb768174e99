/-
FalconDraw.Draw.Payload — the three OP_RETURN payloads of the draw and the
transaction kinds they define (blockchain/poolstake.go, draw.go,
stakescript.go, winnerclaim.go).

  FDRP  a stake           0x6a 0x20, wallet(20), amount(8), draw height(4)
  FDRS  a settlement      0x6a 0x08, "FDRS", draw height(4)
  FDRV  a VDF result      0x6a 0x4d 0x44 0x01, "FDRV", draw height(4),
                          draw block hash(32), T(8), output(256), submitter(20)

A stake is recognised by version 6 and any FDRP output, a settlement by its
first output alone, a VDF result by version 7 alone. The recognisers test
exactly the bytes the source tests, no more.
-/
import FalconDraw.Wire.Types

namespace FalconDraw.Draw

open Lib Wire

/-! ## Constants and draw heights -/

def satoshiPerBitcoin : Int64 := 100000000

def maxSatoshi : Int64 := 2100000000000000

def drawInterval : Nat := 36

def maxStakesPerWalletPerDraw : Nat := 5

/-- `JackpotPoolWalletHash`, the reserved all-zero wallet. -/
def jackpotPoolWalletHash : WalletHash := 0

/-- `IsDrawBlock`, on a signed height. -/
def isDrawBlock (blockHeight : Int) : Bool :=
  decide (0 < blockHeight) && blockHeight % drawInterval == 0

/-! ## Stakes -/

def isPoolStakingOpReturn (script : Bytes) : Bool :=
  script.length == 34 && byteAt script 0 == 0x6a && byteAt script 1 == 0x20

structure PoolStakingData where
  walletHash : WalletHash
  amount     : Int64
  drawHeight : Nat
deriving DecidableEq, Repr

def makePoolStakingScript (d : PoolStakingData) : Bytes :=
  0x6a :: 0x20 :: (WalletHash.toBytes d.walletHash ++ beBytes 8 d.amount.toUInt64.toNat
    ++ beBytes 4 d.drawHeight)

def poolStakingFields (script : Bytes) : PoolStakingData :=
  { walletHash := WalletHash.ofBytes (slice script 2 22)
    amount     := Int64.ofNat (beNat (slice script 22 30))
    drawHeight := beNat (slice script 30 34) }

def extractPoolStakingData (script : Bytes) : Except String PoolStakingData :=
  if isPoolStakingOpReturn script then .ok (poolStakingFields script)
  else .error "not a pool staking OP_RETURN"

/-- `FindPoolStakingOpReturn`, the script only: the first FDRP output. -/
def findPoolStakingOpReturn (msgTx : MsgTx) : Option Bytes :=
  (msgTx.txOut.find? fun out => isPoolStakingOpReturn out.pkScript).map TxOut.pkScript

def isPoolStakingTx (tx : Tx) : Bool :=
  tx.msgTx.version == txVersionPoolStake && (findPoolStakingOpReturn tx.msgTx).isSome

/-! ## Sentinel inputs -/

/-- `PoolDrawSentinelOutpoint`: "FDRP", the draw height, then zeros. -/
def poolDrawSentinelOutpoint (drawHeight : Nat) : OutPoint :=
  { hash := Hash.ofBytes ([0x46, 0x44, 0x52, 0x50] ++ beBytes 4 drawHeight ++ List.replicate 24 0)
    index := 0 }

/-- `IsPoolDrawSentinelInput`: only the first four bytes of the id and the index
are looked at. -/
def isPoolDrawSentinelInput (t : TxIn) : Bool :=
  (Hash.toBytes t.previousOutPoint.hash).take 4 == [0x46, 0x44, 0x52, 0x50] &&
    t.previousOutPoint.index == 0

def makePoolDrawSentinelInput (drawHeight : Nat) : TxIn :=
  { previousOutPoint := poolDrawSentinelOutpoint drawHeight
    signatureScript := 0x04 :: beBytes 4 drawHeight }

/-! ## Settlements -/

def makeDrawSettlementMarker (drawHeight : Nat) : Bytes :=
  [0x6a, 0x08, 0x46, 0x44, 0x52, 0x53] ++ beBytes 4 drawHeight

def extractDrawSettlementMarker (pkScript : Bytes) : Option Nat :=
  if pkScript.length == 10 && byteAt pkScript 0 == 0x6a && byteAt pkScript 1 == 0x08 &&
      slice pkScript 2 6 == [0x46, 0x44, 0x52, 0x53] then
    some (beNat (slice pkScript 6 10))
  else none

def isDrawSettlementTx (tx : Tx) : Bool :=
  match tx.msgTx.txOut with
  | [] => false
  | out :: _ => (extractDrawSettlementMarker out.pkScript).isSome

def makeWinnerP2WPKHScript (walletHash : WalletHash) : Bytes :=
  0x00 :: 0x14 :: WalletHash.toBytes walletHash

/-! ## VDF results -/

structure VDFResultData where
  drawHeight          : Nat
  drawBlockHash       : Hash
  T                   : Nat
  vdfOutput           : Nat
  submitterWalletHash : WalletHash
deriving DecidableEq, Repr

def isVDFResultTx (tx : Tx) : Bool := tx.msgTx.version == txVersionVDFResult

def buildVDFResultOpReturn (d : VDFResultData) : Bytes :=
  [0x6a, 0x4d, 0x44, 0x01, 0x46, 0x44, 0x52, 0x56] ++ beBytes 4 d.drawHeight
    ++ Hash.toBytes d.drawBlockHash ++ beBytes 8 d.T ++ beBytes 256 d.vdfOutput
    ++ WalletHash.toBytes d.submitterWalletHash

def vdfResultFields (script : Bytes) : VDFResultData :=
  { drawHeight          := beNat (slice script 8 12)
    drawBlockHash       := Hash.ofBytes (slice script 12 44)
    T                   := beNat (slice script 44 52)
    vdfOutput           := beNat (slice script 52 308)
    submitterWalletHash := WalletHash.ofBytes (slice script 308 328) }

/-- `ExtractVDFResultData`: only the first output is read, and bytes 2 and 3 of
it are not tested. -/
def extractVDFResultData (tx : Tx) : Except String VDFResultData :=
  match tx.msgTx.txOut with
  | [] => .error "VDFResult tx has no outputs"
  | out :: _ =>
      if out.pkScript.length ≠ 328 then .error "VDFResult script wrong size"
      else if byteAt out.pkScript 0 ≠ 0x6a ∨ byteAt out.pkScript 1 ≠ 0x4d then
        .error "VDFResult script missing OP_RETURN/OP_PUSHDATA2"
      else if slice out.pkScript 4 8 ≠ [0x46, 0x44, 0x52, 0x56] then
        .error "VDFResult missing FDRV magic"
      else .ok (vdfResultFields out.pkScript)

theorem extractVDFResultData_drawHeight {tx : Tx} {d : VDFResultData}
    (h : extractVDFResultData tx = .ok d) : d.drawHeight < 2 ^ 32 := by
  unfold extractVDFResultData at h
  split at h
  · simp at h
  · rename_i out outs _
    split at h
    · simp at h
    · split at h
      · simp at h
      · split at h
        · simp at h
        · obtain rfl := Except.ok.inj h
          calc _ < 256 ^ (slice out.pkScript 8 12).length := beNat_lt _
            _ ≤ 256 ^ 4 := Nat.pow_le_pow_right (by decide) (slice_length_le _ _ _)

/-- `BuildVDFResultTx`, without an id. -/
def buildVDFResultTx (d : VDFResultData) : MsgTx :=
  { version := txVersionVDFResult
    txIn := [{ previousOutPoint :=
      ⟨Hash.ofBytes ([0x46, 0x44, 0x52, 0x56] ++ beBytes 4 d.drawHeight ++
        List.replicate 24 0), 0⟩ }]
    txOut := [⟨0, buildVDFResultOpReturn d⟩] }

/-- `BuildVDFResultTx` where the output may be too long: `FillBytes` panics when
it does not fit its 256 bytes. -/
def buildVDFResultTx? (d : VDFResultData) : Option MsgTx :=
  if d.vdfOutput < 2 ^ 2048 then some (buildVDFResultTx d) else none

def vdfBountyHalvingHeight : Nat := 840000

def calcVDFBounty (height : Nat) : Int64 :=
  if height < vdfBountyHalvingHeight then 100 * satoshiPerBitcoin else 50 * satoshiPerBitcoin

end FalconDraw.Draw
