/-
FalconDraw.Chain.Utxo — the UTXO set and the views taken of it
(blockchain/utxoviewpoint.go, utxocache.go).

A block is validated against a `UtxoViewpoint`: a map of the entries loaded so
far, in which a key may also be bound to nil ("looked up, not there").
-/
import FalconDraw.Lib.Bucket
import FalconDraw.Script.Tokenizer
import FalconDraw.Draw.Payload
import FalconDraw.Chain.RuleError

namespace FalconDraw.Chain

open Lib Wire Script Draw

/-- `UtxoEntry`, the packed flags unpacked. -/
structure UtxoEntry where
  amount      : Int64
  pkScript    : Bytes
  blockHeight : Nat
  isCoinBase  : Bool := false
  isSpent     : Bool := false
  isModified  : Bool := false
  isFresh     : Bool := false
deriving DecidableEq, Repr

/-- `Spend`: spending twice has no effect. -/
def UtxoEntry.spend (e : UtxoEntry) : UtxoEntry :=
  if e.isSpent then e else { e with isSpent := true, isModified := true }

/-- An output without the view's flags: what the UTXO set holds, and one record
of the spend journal (`SpentTxOut`). -/
structure Coin where
  amount      : Int64
  pkScript    : Bytes
  blockHeight : Nat
  isCoinBase  : Bool
deriving DecidableEq, Repr

abbrev SpentTxOut := Coin

def UtxoEntry.coin (e : UtxoEntry) : Coin :=
  ⟨e.amount, e.pkScript, e.blockHeight, e.isCoinBase⟩

def Coin.entry (c : Coin) : UtxoEntry :=
  { amount := c.amount, pkScript := c.pkScript, blockHeight := c.blockHeight,
    isCoinBase := c.isCoinBase }

abbrev UtxoSet := Bucket OutPoint Coin

/-! ## The view -/

/-- `UtxoViewpoint`. `some none` is a key bound to nil. -/
structure UtxoViewpoint where
  entries  : Bucket OutPoint (Option UtxoEntry)
  bestHash : Hash

namespace UtxoViewpoint

/-- `NewUtxoViewpoint` followed by `SetBestHash`. -/
def new (bestHash : Hash) : UtxoViewpoint := ⟨Bucket.empty, bestHash⟩

/-- `LookupEntry`: nil for a key that is absent or bound to nil. -/
def lookupEntry (v : UtxoViewpoint) (op : OutPoint) : Option UtxoEntry :=
  (v.entries.get op).join

def setEntry (v : UtxoViewpoint) (op : OutPoint) (e : Option UtxoEntry) : UtxoViewpoint :=
  { v with entries := v.entries.put op e }

@[simp] theorem setEntry_bestHash (v : UtxoViewpoint) (op : OutPoint) (e : Option UtxoEntry) :
    (v.setEntry op e).bestHash = v.bestHash := rfl

theorem lookupEntry_setEntry (v : UtxoViewpoint) (op op' : OutPoint) (e : Option UtxoEntry) :
    (v.setEntry op e).lookupEntry op' = if op' = op then e else v.lookupEntry op' := by
  simp only [lookupEntry, setEntry, Bucket.get_put]
  split <;> simp

/-- The entry `addTxOut` leaves: fresh, modified, unspent. -/
def newEntry (out : TxOut) (isCoinBase : Bool) (height : Nat) : UtxoEntry :=
  { amount := out.value, pkScript := out.pkScript, blockHeight := height,
    isCoinBase := isCoinBase, isModified := true, isFresh := true }

def addTxOut (v : UtxoViewpoint) (op : OutPoint) (out : TxOut) (isCoinBase : Bool)
    (height : Nat) : UtxoViewpoint :=
  if isUnspendable out.pkScript then v
  else v.setEntry op (some (newEntry out isCoinBase height))

/-- The output loop of `AddTxOuts`, from output index `idx` on. -/
def addTxOutsFrom (v : UtxoViewpoint) (hash : Hash) (isCoinBase : Bool) (height : Nat) :
    Nat → List TxOut → UtxoViewpoint
  | _, [] => v
  | idx, out :: outs =>
      addTxOutsFrom (v.addTxOut ⟨hash, idx⟩ out isCoinBase height) hash isCoinBase height
        (idx + 1) outs

def addTxOuts (v : UtxoViewpoint) (tx : Tx) (height : Nat) : UtxoViewpoint :=
  v.addTxOutsFrom tx.hash tx.isCoinBase height 0 tx.msgTx.txOut

/-- The input loop of `connectTransaction`, collecting the spent outputs. -/
def spendInputs : UtxoViewpoint → List TxIn → Check (UtxoViewpoint × List SpentTxOut)
  | v, [] => .ok (v, [])
  | v, t :: ts =>
      if isPoolDrawSentinelInput t then spendInputs v ts
      else match v.lookupEntry t.previousOutPoint with
        | none => .error (.assert ("view missing input " ++ t.previousOutPoint.str))
        | some e => do
            let (v', stxos) ← spendInputs (v.setEntry t.previousOutPoint (some e.spend)) ts
            return (v', e.coin :: stxos)

def connectTransaction (v : UtxoViewpoint) (tx : Tx) (height : Nat) :
    Check (UtxoViewpoint × List SpentTxOut) :=
  if tx.isCoinBase then .ok (v.addTxOuts tx height, [])
  else if isVDFResultTx tx then .ok (v.addTxOuts tx height, [])
  else do
    let (v', stxos) ← v.spendInputs tx.msgTx.txIn
    return (v'.addTxOuts tx height, stxos)

/-! ### Loading entries -/

/-- `fetchUtxosFromCache`: the entry for each outpoint is replaced by what the
set holds, nil included. -/
def fetchUtxosFromCache (v : UtxoViewpoint) (utxos : UtxoSet) (ops : List OutPoint) :
    UtxoViewpoint :=
  ops.foldl (fun v op => v.setEntry op ((utxos.get op).map Coin.entry)) v

/-- `fetchUtxos`: only outpoints the view has no key for. -/
def fetchUtxos (v : UtxoViewpoint) (utxos : UtxoSet) (ops : List OutPoint) : UtxoViewpoint :=
  v.fetchUtxosFromCache utxos (ops.filter fun op => (v.entries.get op).isNone)

/-- `txInFlight`: the last transaction with this id and its position, the list
starting at position `i`. -/
def inFlight (h : Hash) : Nat → List Tx → Option (Tx × Nat)
  | _, [] => none
  | i, tx :: txs =>
      match inFlight h (i + 1) txs with
      | some r => some r
      | none => if tx.hash = h then some (tx, i) else none

/-- One input of `findInputsToFetch`, for the transaction at position `i + 1`:
outputs of an earlier transaction of the block are added to the view, anything
the view has no key for is put on the list. -/
def findInput (txs : List Tx) (height i : Nat) (acc : UtxoViewpoint × List OutPoint)
    (t : TxIn) : UtxoViewpoint × List OutPoint :=
  let op := t.previousOutPoint
  let missing := if (acc.1.entries.get op).isNone then (acc.1, acc.2 ++ [op]) else acc
  match inFlight op.hash 0 txs with
  | some (originTx, j) =>
      if j ≤ i then (acc.1.addTxOuts originTx height, acc.2) else missing
  | none => missing

/-- The transaction loop of `findInputsToFetch`; sentinel transactions have
nothing to fetch. -/
def findInputsFrom (txs : List Tx) (height : Nat) :
    Nat → UtxoViewpoint × List OutPoint → List Tx → UtxoViewpoint × List OutPoint
  | _, acc, [] => acc
  | i, acc, tx :: rest =>
      let acc' :=
        if isDrawSettlementTx tx || isVDFResultTx tx then acc
        else tx.msgTx.txIn.foldl (findInput txs height i) acc
      findInputsFrom txs height (i + 1) acc' rest

def findInputsToFetch (v : UtxoViewpoint) (block : Block) : UtxoViewpoint × List OutPoint :=
  findInputsFrom block.transactions block.height 0 (v, []) block.transactions.tail

def fetchInputUtxos (v : UtxoViewpoint) (utxos : UtxoSet) (block : Block) : UtxoViewpoint :=
  let (v', needed) := v.findInputsToFetch block
  v'.fetchUtxosFromCache utxos needed

end UtxoViewpoint

/-! ## The set itself -/

namespace UtxoSet

def addTxOut (utxos : UtxoSet) (op : OutPoint) (out : TxOut) (isCoinBase : Bool)
    (height : Nat) : UtxoSet :=
  if isUnspendable out.pkScript then utxos
  else utxos.put op ⟨out.value, out.pkScript, height, isCoinBase⟩

def addTxOutsFrom (utxos : UtxoSet) (hash : Hash) (isCoinBase : Bool) (height : Nat) :
    Nat → List TxOut → UtxoSet
  | _, [] => utxos
  | idx, out :: outs =>
      addTxOutsFrom (addTxOut utxos ⟨hash, idx⟩ out isCoinBase height) hash isCoinBase height
        (idx + 1) outs

def addTxOuts (utxos : UtxoSet) (tx : Tx) (height : Nat) : UtxoSet :=
  addTxOutsFrom utxos tx.hash tx.isCoinBase height 0 tx.msgTx.txOut

/-- The coins the outputs from index `idx` on become: one for each spendable
output. -/
def newCoinsFrom (hash : Hash) (isCoinBase : Bool) (height : Nat) :
    Nat → List TxOut → List (OutPoint × Coin)
  | _, [] => []
  | idx, out :: outs =>
      if isUnspendable out.pkScript then newCoinsFrom hash isCoinBase height (idx + 1) outs
      else (⟨hash, idx⟩, ⟨out.value, out.pkScript, height, isCoinBase⟩) ::
        newCoinsFrom hash isCoinBase height (idx + 1) outs

def newCoins (tx : Tx) (height : Nat) : List (OutPoint × Coin) :=
  newCoinsFrom tx.hash tx.isCoinBase height 0 tx.msgTx.txOut

/-- The input loop of `addTxIns`. -/
def spendInputs : UtxoSet → List TxIn → Check (UtxoSet × List SpentTxOut)
  | utxos, [] => .ok (utxos, [])
  | utxos, t :: ts =>
      if isPoolDrawSentinelInput t then spendInputs utxos ts
      else match utxos.get t.previousOutPoint with
        | none => .error (.assert ("missing input " ++ t.previousOutPoint.str))
        | some c => do
            let (utxos', stxos) ← spendInputs (utxos.delete t.previousOutPoint) ts
            return (utxos', c :: stxos)

def addTxIns (utxos : UtxoSet) (tx : Tx) : Check (UtxoSet × List SpentTxOut) :=
  if tx.isCoinBase then .ok (utxos, [])
  else if isVDFResultTx tx then .ok (utxos, [])
  else spendInputs utxos tx.msgTx.txIn

def connectTransaction (utxos : UtxoSet) (tx : Tx) (height : Nat) :
    Check (UtxoSet × List SpentTxOut) := do
  let (utxos', stxos) ← addTxIns utxos tx
  return (addTxOuts utxos' tx height, stxos)

def connectTransactions (height : Nat) : UtxoSet → List Tx → Check (UtxoSet × List SpentTxOut)
  | utxos, [] => .ok (utxos, [])
  | utxos, tx :: txs => do
      let (utxos', stxos) ← connectTransaction utxos tx height
      let (utxos'', stxos') ← connectTransactions height utxos' txs
      return (utxos'', stxos ++ stxos')

end UtxoSet

end FalconDraw.Chain
