/-
FalconDraw.Draw.Settlement — the settlement transaction (blockchain/draw.go).

A settlement is recognised by the FDRS marker in its first output.
-/
import FalconDraw.Draw.Payload
import FalconDraw.Chain.RuleError

namespace FalconDraw.Draw

open Lib Wire Chain

structure PoolDrawData where
  balance          : Int64
  jackpotWon       : Bool
  winnerWalletHash : WalletHash
deriving DecidableEq, Repr

def checkWinnerOutput (out : TxOut) (pd : PoolDrawData) : Check Unit := do
  rejectIf (out.value ≠ pd.balance) (.rule .badDrawSettlementTx
    ("pool draw settlement winner output value " ++ toString out.value ++
      " != pool balance " ++ toString pd.balance))
  rejectIf (out.pkScript ≠ makeWinnerP2WPKHScript pd.winnerWalletHash)
    (.rule .badDrawSettlementTx
      "pool draw settlement winner output script does not match winner P2WPKH script")

def validatePoolDrawSettlementTx (msgTx : MsgTx) (pd : PoolDrawData) : Check Unit := do
  rejectIf (pd.balance = 0 ∧ pd.jackpotWon = false) (.rule .badDrawSettlementTx
    "pool draw settlement: no pool balance")
  let wantOuts := if pd.jackpotWon then 2 else 1
  rejectIf (msgTx.txOut.length ≠ wantOuts) (.rule .badDrawSettlementTx
    ("pool draw settlement has " ++ toString msgTx.txOut.length ++ " outputs; expected " ++
      toString wantOuts ++
      (if pd.jackpotWon then " (marker + winner)" else " (marker only (rollover))")))
  if pd.jackpotWon then checkWinnerOutput (msgTx.txOut.getD 1 ⟨0, []⟩) pd
  else .ok ()

/-- The tests `ValidateDrawSettlementTx` makes of the marker output. -/
def checkSettlementMarker (msgTx : MsgTx) (drawHeight : Nat) : Check Unit :=
  match msgTx.txOut with
  | [] => .error (.rule .badDrawSettlementTx "draw settlement has no outputs")
  | out :: _ =>
      match extractDrawSettlementMarker out.pkScript with
      | none => .error (.rule .badDrawSettlementTx
          "draw settlement first output is not a valid FDRS marker")
      | some markerHeight => do
          rejectIf (markerHeight ≠ drawHeight) (.rule .badDrawSettlementTx
            ("draw settlement marker height " ++ toString markerHeight ++
              " != draw block height " ++ toString drawHeight))
          rejectIf (out.value ≠ 0) (.rule .badDrawSettlementTx
            "draw settlement marker output must have zero value")

def validateDrawSettlementTx (tx : Tx) (drawHeight : Nat) (pd : PoolDrawData) : Check Unit := do
  checkSettlementMarker tx.msgTx drawHeight
  rejectIf (tx.msgTx.txIn.head?.all fun t => !isPoolDrawSentinelInput t)
    (.rule .badDrawSettlementTx "draw settlement first input must be a pool draw sentinel")
  validatePoolDrawSettlementTx tx.msgTx pd

/-- The loop of `ValidateVDFDrawTxs` from position `i` on, `count` settlements
seen; returns the final count. -/
def checkSettlementTxs (drawHeight : Nat) (pd : PoolDrawData) :
    Nat → Nat → List Tx → Check Nat
  | _, count, [] => .ok count
  | i, count, tx :: txs =>
      if isDrawSettlementTx tx then do
        rejectIf (1 < count + 1) (.rule .badDrawSettlementTx
          "VDF result block contains more than one draw settlement transaction")
        rejectIf (i ≠ 1) (.rule .badDrawSettlementTx
          ("draw settlement tx is at index " ++ toString i ++
            "; must be at index 1 (immediately after coinbase)"))
        validateDrawSettlementTx tx drawHeight pd
        checkSettlementTxs drawHeight pd (i + 1) (count + 1) txs
      else checkSettlementTxs drawHeight pd (i + 1) count txs

def validateVDFDrawTxs (txs : List Tx) (drawHeight : Nat) (pd : PoolDrawData) : Check Unit := do
  let count ← checkSettlementTxs drawHeight pd 0 0 txs
  rejectIf (0 < pd.balance ∧ count = 0) (.rule .missingDrawSettlementTx
    ("VDF result block for draw " ++ toString drawHeight ++
      " has no settlement tx but pool balance is " ++ toString pd.balance ++ " atoms"))

def buildPoolDrawSettlementTx (drawHeight : Nat) (pd : PoolDrawData) : MsgTx :=
  { version := txVersion
    txIn := [makePoolDrawSentinelInput drawHeight]
    txOut := ⟨0, makeDrawSettlementMarker drawHeight⟩ ::
      if pd.jackpotWon then [⟨pd.balance, makeWinnerP2WPKHScript pd.winnerWalletHash⟩] else [] }

end FalconDraw.Draw
