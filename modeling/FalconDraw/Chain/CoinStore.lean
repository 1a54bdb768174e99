/-
FalconDraw.Chain.CoinStore — the coins on disk, the cache in memory and the database
transactions that move them (blockchain/chain.go, utxocache.go, chainio.go).

The best tip and the spend journal are written with every block, the coins only
when the cache is flushed; the consistency marker names the block the coins on
disk belong to.
-/
import FalconDraw.Chain.UtxoCache
import FalconDraw.Chain.Reorg

namespace FalconDraw.Chain

open Lib Wire Script Draw

/-! ## Connecting transactions to the cache -/

namespace UtxoCache

/-- The cache after a fetch of one outpoint; a record that cannot be read is not
kept. -/
def loadEntry (keys : PubKeyLib) (s : UtxoCache) (op : OutPoint) : UtxoCache :=
  match s.fetchEntries keys [op] with
  | .ok (_, s') => s'
  | .error _ => s

def load (keys : PubKeyLib) (s : UtxoCache) (ops : List OutPoint) : UtxoCache :=
  ops.foldl (loadEntry keys) s

/-- The loop of `addTxIns`. What it has done to the cache stays when it stops. -/
def spendInputs (keys : PubKeyLib) :
    UtxoCache → List TxIn → UtxoCache × Except StoreError (List SpentTxOut)
  | s, [] => (s, .ok [])
  | s, t :: ts =>
      if isPoolDrawSentinelInput t then spendInputs keys s ts
      else match s.addTxIn keys t with
        | .error e => (s.loadEntry keys t.previousOutPoint, .error e)
        | .ok (s', stxo) =>
            let (s'', stxos) := spendInputs keys s' ts
            (s'', stxos.map (stxo :: ·))

def addTxIns (keys : PubKeyLib) (s : UtxoCache) (tx : Tx) :
    UtxoCache × Except StoreError (List SpentTxOut) :=
  if tx.isCoinBase then (s, .ok [])
  else if isVDFResultTx tx then (s, .ok [])
  else s.spendInputs keys tx.msgTx.txIn

/-- The output loop of `addTxOuts`, from output index `idx` on. -/
def addTxOutsFrom (s : UtxoCache) (hash : Hash) (isCoinBase : Bool) (height : Nat) :
    Nat → List TxOut → UtxoCache
  | _, [] => s
  | idx, out :: outs =>
      addTxOutsFrom (s.addTxOut ⟨hash, idx⟩ out isCoinBase height) hash isCoinBase height
        (idx + 1) outs

def addTxOuts (s : UtxoCache) (tx : Tx) (height : Nat) : UtxoCache :=
  s.addTxOutsFrom tx.hash tx.isCoinBase height 0 tx.msgTx.txOut

def connectTransaction (keys : PubKeyLib) (s : UtxoCache) (tx : Tx) (height : Nat) :
    UtxoCache × Except StoreError (List SpentTxOut) :=
  match s.addTxIns keys tx with
  | (s', .error e) => (s', .error e)
  | (s', .ok stxos) => (s'.addTxOuts tx height, .ok stxos)

def connectTransactions (keys : PubKeyLib) (height : Nat) :
    UtxoCache → List Tx → UtxoCache × Except StoreError (List SpentTxOut)
  | s, [] => (s, .ok [])
  | s, tx :: txs =>
      match s.connectTransaction keys tx height with
      | (s', .error e) => (s', .error e)
      | (s', .ok stxos) =>
          let (s'', stxos') := connectTransactions keys height s' txs
          (s'', stxos'.map (stxos ++ ·))

/-- The entries a flush that breaks off has dealt with are gone from the cache. -/
def dropEntries (s : UtxoCache) (gone : OutPoint → Bool) : UtxoCache :=
  { s with cachedEntries := fun op => if gone op then none else s.cachedEntries op }

end UtxoCache

/-! ## The store -/

/-- What is on disk, with the cache (which holds the coins on disk) and the view
of a running detach loop. Blocks that have been pruned stay in `blocks`, but
are no longer read from it. -/
structure CoinStore where
  cache   : UtxoCache
  view    : UtxoViewpoint
  tip     : BlockNode
  marker  : Option Hash
  index   : Bucket Hash BlockNode
  blocks  : Bucket Hash Block
  pruned  : Hash → Bool
  journal : Bucket Hash Bytes

/-- The places other than the cache at which connecting or disconnecting a block
can fail. -/
inductive DbStep where
  | warnings | indexFlush
  | pruneBlocks | pruneJournal
  | bestState | blockIndex | putView | spendJournal | stakingIndex | indexManager
  | commit
  | flush | flushCommit
deriving DecidableEq, Repr

inductive CoinError where
  | rejected (e : Err)
  | store (e : StoreError)
  | failed (step : DbStep)
deriving DecidableEq, Repr

/-- What happens to one flush that is due: it goes through, or it breaks off
with these entries gone from the cache. -/
abbrev FlushFate := Option (OutPoint → Bool)

/-- The surroundings of one call of `connectBestChain`. A block that is added
fast has no verdict and reads nothing. -/
structure ConnectEnv where
  /-- The error of `checkConnectBlock`, if it has one. -/
  verdict     : Option Err := none
  /-- The outpoints the check looks up. -/
  reads       : List OutPoint := []
  /-- The blocks `PruneBlocks` deletes. -/
  deleted     : List Hash := []
  failsAt     : DbStep → Bool := fun _ => false
  pruneFlush  : FlushFate := none
  flush       : FlushFate := none
  usage       : Nat := 0

namespace CoinStore

def rollback (s s' : CoinStore) : CoinStore :=
  { s with cache := { s'.cache with db := s.cache.db }, view := s'.view }

/-- `db.Update` with a body that has run; `commitFails` says that the commit
does not succeed. -/
def update (s : CoinStore) (commitStep : DbStep) (commitFails : Bool) :
    CoinStore × Except CoinError Unit → CoinStore × Except CoinError Unit
  | (s', .error e) => (s.rollback s', .error e)
  | (s', .ok ()) =>
      if commitFails then (s.rollback s', .error (.failed commitStep)) else (s', .ok ())

/-- `flush` inside a transaction. -/
def flushTx (keys : PubKeyLib) (s : CoinStore) (fate : FlushFate) (mode : FlushMode)
    (bestHash : Hash) (usage : Nat) (overdue : Bool) : CoinStore × Except CoinError Unit :=
  if s.cache.flushDue mode bestHash usage overdue then
    match fate with
    | some gone => ({ s with cache := s.cache.dropEntries gone }, .error (.failed .flush))
    | none =>
        ({ s with cache := s.cache.writeCache keys bestHash, marker := some bestHash }, .ok ())
  else (s, .ok ())

/-- `FlushUtxoCache`, and the flush at the end of `connectBlock`. -/
def flushUtxoCache (keys : PubKeyLib) (s : CoinStore) (fate : FlushFate) (commitFails : Bool)
    (mode : FlushMode) (usage : Nat) (overdue : Bool) : CoinStore × Except CoinError Unit :=
  s.update .flushCommit commitFails (s.flushTx keys fate mode s.tip.hash usage overdue)

def flushNeededAfterPrune (s : CoinStore) (deleted : List Hash) : Bool :=
  match s.index.get s.cache.lastFlushHash with
  | none => true
  | some node => deleted.any fun h => (s.index.get h).any fun n => node.height ≤ n.height

def firstFault (failsAt : DbStep → Bool) (steps : List DbStep) : Except CoinError Unit :=
  match steps.find? failsAt with
  | some step => .error (.failed step)
  | none => .ok ()

/-- The pruning of `connectBlock`: `PruneBlocks` and the journal entries of the
deleted blocks. -/
def prune (s : CoinStore) (deleted : List Hash) : CoinStore :=
  { s with
    pruned := fun h => s.pruned h || deleted.contains h
    journal := fun h => if deleted.contains h then none else s.journal.get h }

/-- The database transaction of `connectBlock`, without its commit. -/
def connectTx (keys : PubKeyLib) (env : ConnectEnv) (s : CoinStore) (node : BlockNode)
    (block : Block) (stxos : List SpentTxOut) : CoinStore × Except CoinError Unit :=
  match firstFault env.failsAt [.pruneBlocks, .pruneJournal] with
  | .error e => (s, .error e)
  | .ok () =>
      let s := s.prune env.deleted
      let flushed :=
        if !env.deleted.isEmpty && s.flushNeededAfterPrune env.deleted then
          s.flushTx keys env.pruneFlush .required node.hash 0 false
        else (s, .ok ())
      match flushed with
      | (s, .error e) => (s, .error e)
      | (s, .ok ()) =>
          match firstFault env.failsAt
              [.bestState, .blockIndex, .spendJournal, .stakingIndex, .indexManager] with
          | .error e => (s, .error e)
          | .ok () =>
              ({ s with
                  tip := node
                  journal := s.journal.put block.hash (serializeSpendJournalEntry keys stxos) },
                .ok ())

/-- `connectBlock` up to the new tip. -/
def connectBlock (keys : PubKeyLib) (env : ConnectEnv) (s : CoinStore) (node : BlockNode)
    (block : Block) (stxos : List SpentTxOut) : CoinStore × Except CoinError Unit :=
  if block.header.prevBlock ≠ s.tip.hash then
    (s, .error (.store (.assert
      "connectBlock must be called with a block that extends the main chain")))
  else if stxos.length ≠ countSpentOutputs block then
    (s, .error (.store (.assert
      "connectBlock called with inconsistent spent transaction out information")))
  else match firstFault env.failsAt [.warnings, .indexFlush] with
    | .error e => (s, .error e)
    | .ok () =>
        s.update .commit (env.failsAt .commit) (s.connectTx keys env node block stxos)

/-- `connectBestChain` for a block that extends the tip, up to the new tip: the
check only reads, then the cache takes the block's transactions. -/
def extendTip (keys : PubKeyLib) (env : ConnectEnv) (s : CoinStore) (node : BlockNode)
    (block : Block) : CoinStore × Except CoinError Unit :=
  let s := { s with cache := s.cache.load keys env.reads }
  match env.verdict with
  | some e => (s, .error (.rejected e))
  | none =>
      match s.cache.connectTransactions keys block.height block.transactions with
      | (cache, .error e) => ({ s with cache := cache }, .error (.store e))
      | (cache, .ok stxos) => { s with cache := cache }.connectBlock keys env node block stxos

/-- `connectBestChain` for a block that extends the tip. -/
def connectBestChain (keys : PubKeyLib) (env : ConnectEnv) (s : CoinStore) (node : BlockNode)
    (block : Block) : CoinStore × Except CoinError Unit :=
  match s.extendTip keys env node block with
  | (s', .error e) => (s', .error e)
  | (s', .ok ()) =>
      s'.flushUtxoCache keys env.flush (env.failsAt .flushCommit) .ifNeeded env.usage false

end CoinStore

end FalconDraw.Chain
