/-
FalconDraw.Chain.Disconnect — taking the transactions of a block back out of
the UTXO set (blockchain/utxoviewpoint.go, chainio.go).

A disconnect works on a view: the outputs of the block are marked spent, the coins
it spent are put back from the spend journal, in reverse order.
-/
import FalconDraw.Chain.Run

namespace FalconDraw.Chain

open Lib Wire Script Draw

namespace UtxoViewpoint

/-! ## Connecting without checks -/

/-- The loop of `connectTransactions`, the spent outputs not asked for. -/
def connectTxs (height : Nat) (v : UtxoViewpoint) : List Tx → Check UtxoViewpoint
  | [] => .ok v
  | tx :: txs => do
      let (v', _) ← v.connectTransaction tx height
      connectTxs height v' txs

def connectTransactions (v : UtxoViewpoint) (block : Block) : Check UtxoViewpoint := do
  let v' ← v.connectTxs block.height block.transactions
  return { v' with bestHash := block.hash }

/-! ## Disconnecting -/

/-- The output loop of `disconnectTransactions`, from output index `idx` on: an
entry that is missing is made up, then marked spent. -/
def removeTxOutsFrom (v : UtxoViewpoint) (hash : Hash) (isCoinBase : Bool) (height : Nat) :
    Nat → List TxOut → UtxoViewpoint
  | _, [] => v
  | idx, out :: outs =>
      if isUnspendable out.pkScript then removeTxOutsFrom v hash isCoinBase height (idx + 1) outs
      else
        let entry := (v.lookupEntry ⟨hash, idx⟩).getD
          { amount := out.value, pkScript := out.pkScript, blockHeight := height,
            isCoinBase := isCoinBase }
        removeTxOutsFrom (v.setEntry ⟨hash, idx⟩ (some entry.spend)) hash isCoinBase height
          (idx + 1) outs

def maxOutputsPerBlock : Nat := maxBlockWeight / (witnessScaleFactor * minTxOutPayload)

/-- `fetchEntryByHash`: any output with this id, in the view or in the set. -/
def fetchEntryByHash (v : UtxoViewpoint) (utxos : UtxoSet) (hash : Hash) : Option UtxoEntry :=
  ((List.range maxOutputsPerBlock).findSome? fun i => v.lookupEntry ⟨hash, i⟩).or
    (((List.range (2 ^ 32)).findSome? fun i => utxos.get ⟨hash, i⟩).map Coin.entry)

/-- The coin a journal record stands for. A record without a height is in the
legacy format, and the height is looked up under the id of the spending
transaction. -/
def restoredCoin (v : UtxoViewpoint) (utxos : UtxoSet) (txHash : Hash) (op : OutPoint)
    (stxo : SpentTxOut) : Check Coin :=
  if stxo.blockHeight = 0 then
    match v.fetchEntryByHash utxos txHash with
    | none => .error (.assert ("unable to resurrect legacy stxo " ++ op.str))
    | some utxo => .ok
        { stxo with blockHeight := utxo.blockHeight, isCoinBase := utxo.isCoinBase }
  else .ok stxo

/-- The input loop of `disconnectTransactions`. Inputs and journal are given
last first; what is left of the journal is returned. -/
def restoreInputs (utxos : UtxoSet) (txHash : Hash) :
    UtxoViewpoint → List TxIn → List SpentTxOut → Check (UtxoViewpoint × List SpentTxOut)
  | v, [], stxos => .ok (v, stxos)
  | v, t :: ts, stxos =>
      if isPoolDrawSentinelInput t then restoreInputs utxos txHash v ts stxos
      else match stxos with
        | [] => .error (.assert "index out of range")
        | stxo :: stxos => do
            let c ← v.restoredCoin utxos txHash t.previousOutPoint stxo
            restoreInputs utxos txHash
              (v.setEntry t.previousOutPoint (some { c.entry with isModified := true })) ts stxos

/-- One transaction of `disconnectTransactions`. -/
def disconnectTransaction (utxos : UtxoSet) (height : Nat) (isCoinBase : Bool)
    (v : UtxoViewpoint) (tx : Tx) (stxos : List SpentTxOut) :
    Check (UtxoViewpoint × List SpentTxOut) :=
  let v' := v.removeTxOutsFrom tx.hash isCoinBase height 0 tx.msgTx.txOut
  if isCoinBase || isVDFResultTx tx then .ok (v', stxos)
  else restoreInputs utxos tx.hash v' tx.msgTx.txIn.reverse stxos

/-- The loop of `disconnectTransactions`, over the transactions and the journal
from the last to the first. The transaction at position 0 counts as the
coinbase. -/
def disconnectTxs (utxos : UtxoSet) (height : Nat) :
    UtxoViewpoint → List Tx → List SpentTxOut → Check UtxoViewpoint
  | v, [], _ => .ok v
  | v, tx :: txs, stxos => do
      let (v', stxos') ← disconnectTransaction utxos height txs.isEmpty v tx stxos
      disconnectTxs utxos height v' txs stxos'

def disconnectTransactions (v : UtxoViewpoint) (utxos : UtxoSet) (block : Block)
    (stxos : List SpentTxOut) : Check UtxoViewpoint := do
  rejectIf (stxos.length ≠ countSpentOutputs block) (.assert
    "disconnectTransactions called with bad spent transaction out information")
  let v' ← disconnectTxs utxos block.height v block.transactions.reverse stxos.reverse
  return { v' with bestHash := block.header.prevBlock }

/-- `commit`: entries that are modified and spent are dropped like nil ones, of
all others the modified flag is flipped. -/
def commit (v : UtxoViewpoint) : UtxoViewpoint :=
  { v with
    entries := fun op =>
      match v.entries.get op with
      | none => none
      | some none => none
      | some (some e) =>
          if e.isModified && e.isSpent then none
          else some (some { e with isModified := !e.isModified }) }

end UtxoViewpoint

namespace UtxoSet

/-- `dbPutUtxoView`: modified entries are written, spent ones as deletions. -/
def putView (utxos : UtxoSet) (v : UtxoViewpoint) : UtxoSet := fun op =>
  match v.entries.get op with
  | some (some e) =>
      if e.isModified then (if e.isSpent then none else some e.coin) else utxos.get op
  | _ => utxos.get op

/-- The detach loop of `reorganizeChain` as far as it concerns the UTXO set: the
blocks from the tip down with their spent outputs, one view for all of them,
which is written and committed after each block. -/
def disconnectAll : UtxoSet → UtxoViewpoint → List (Block × List SpentTxOut) →
    Check (UtxoSet × UtxoViewpoint)
  | utxos, view, [] => .ok (utxos, view)
  | utxos, view, (block, stxos) :: rest => do
      let view' ← (view.fetchInputUtxos utxos block).disconnectTransactions utxos block stxos
      disconnectAll (utxos.putView view') view'.commit rest

/-- What the input loop of `addTxIns` has done to the set when it stops at a
missing input. -/
def spendAvailable : UtxoSet → List TxIn → UtxoSet
  | utxos, [] => utxos
  | utxos, t :: ts =>
      if isPoolDrawSentinelInput t then spendAvailable utxos ts
      else match utxos.get t.previousOutPoint with
        | none => utxos
        | some _ => spendAvailable (utxos.delete t.previousOutPoint) ts

/-- The set a failed `connectTransactions` leaves behind. -/
def connectAvailable (height : Nat) : UtxoSet → List Tx → UtxoSet
  | utxos, [] => utxos
  | utxos, tx :: txs =>
      match connectTransaction utxos tx height with
      | .ok (utxos', _) => connectAvailable height utxos' txs
      | .error _ => spendAvailable utxos tx.msgTx.txIn

end UtxoSet

end FalconDraw.Chain
