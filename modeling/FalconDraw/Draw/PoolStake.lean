/-
FalconDraw.Draw.PoolStake — `ValidatePoolStakeTx` (blockchain/poolstake.go),
the check every block and the mempool make of a version 6 stake.

The format half looks at the transaction alone; the balance half, made when a view
is given, compares the value of the inputs with the declared stake plus the other
outputs.
-/
import FalconDraw.Chain.Utxo
import FalconDraw.Chain.Sanity

namespace FalconDraw.Draw

open Lib Wire Chain

/-- The input loop: no coinbase inputs, and the Schnorr witness shape. -/
def checkStakeInput (t : TxIn) : Check Unit := do
  rejectIf (t.previousOutPoint.index = maxPrevOutIndex) (.rule .badTxInput
    "pool staking tx must not have coinbase inputs")
  if isPoolDrawSentinelInput t then .ok ()
  else do
    rejectIf (t.signatureScript ≠ []) (.rule .badTxInput
      "pool staking inputs must have empty scriptSig (use witness)")
    rejectIf (t.witness.map List.length ≠ [64, 33]) (.rule .badTxInput
      "pool staking input witness must be [sig(64), pubkey(33)]")

/-- The output loop, from output `i` on: `found` is `opReturnIdx` with the data
read there. -/
def scanStakeOutputs : Nat → Option (Nat × PoolStakingData) → List TxOut →
    Check (Option (Nat × PoolStakingData))
  | _, found, [] => .ok found
  | i, found, out :: outs =>
      if isPoolStakingOpReturn out.pkScript then do
        rejectIf (found.isSome = true) (.rule .badTxInput
          "pool staking tx has more than one FDRP OP_RETURN")
        rejectIf (out.value ≠ 0) (.rule .badTxInput
          "pool staking OP_RETURN output must have zero value")
        scanStakeOutputs (i + 1) (some (i, poolStakingFields out.pkScript)) outs
      else scanStakeOutputs (i + 1) found outs

def checkStakeData (d : PoolStakingData) : Check Unit := do
  rejectIf (d.walletHash = 0) (.rule .badTxInput
    "pool staking: wallet hash must not be zero (reserved)")
  rejectIf (isDrawBlock (toInt32 d.drawHeight) = false) (.rule .badTxInput
    ("pool staking: drawHeight " ++ toString d.drawHeight ++ " is not a draw block"))
  rejectIf (d.amount < satoshiPerBitcoin) (.rule .badTxInput
    ("pool staking: minimum stake is 1 FDRW (1e+08 atoms); got " ++ toString d.amount))
  rejectIf (d.amount % satoshiPerBitcoin ≠ 0) (.rule .badTxInput
    ("pool staking: stake must be a whole number of FDRW; " ++ toString d.amount ++
      " atoms is not divisible by 1e+08"))

/-- `inputValue += utxo.Amount()` over the inputs; a spent entry is not told
from an unspent one here. -/
def stakeInputValue (view : UtxoViewpoint) : Int64 → List TxIn → Check Int64
  | total, [] => .ok total
  | total, t :: ts =>
      match view.lookupEntry t.previousOutPoint with
      | none => .error (.rule .missingTxOut
          ("pool staking input references missing utxo " ++ t.previousOutPoint.str))
      | some utxo => stakeInputValue view (total + utxo.amount) ts

/-- `changeValue`: the outputs other than the one at `opReturnIdx`. -/
def stakeChangeValue (opReturnIdx : Nat) (outs : List TxOut) : Int64 :=
  sum64 ((outs.eraseIdx opReturnIdx).map TxOut.value)

def checkStakeBalance (msgTx : MsgTx) (opReturnIdx : Nat) (amount : Int64)
    (view : UtxoViewpoint) : Check Unit := do
  let inputValue ← stakeInputValue view 0 msgTx.txIn
  let changeValue := stakeChangeValue opReturnIdx msgTx.txOut
  rejectIf (inputValue < amount + changeValue) (.rule .badTxInput
    ("pool staking: inputs (" ++ toString inputValue ++ " atoms) < declared stake (" ++
      toString amount ++ ") + change (" ++ toString changeValue ++ "); fee would be negative"))

/-- `ValidatePoolStakeTx`; the block height is a parameter the source does not
read. -/
def validatePoolStakeTx (tx : Tx) (_blockHeight : Nat) (utxoView : Option UtxoViewpoint) :
    Check Unit := do
  rejectIf (tx.msgTx.version ≠ txVersionPoolStake) (.rule .badTxInput
    ("pool staking tx must use version 6, got " ++ toString tx.msgTx.version))
  forM tx.msgTx.txIn checkStakeInput
  match ← scanStakeOutputs 0 none tx.msgTx.txOut with
  | none => .error (.rule .badTxInput "pool staking tx has no FDRP OP_RETURN output")
  | some (opReturnIdx, d) => do
      checkStakeData d
      match utxoView with
      | none => .ok ()
      | some view => checkStakeBalance tx.msgTx opReturnIdx d.amount view

end FalconDraw.Draw
