/-
FalconDraw.Index.TxIndex — the transaction index and its block ids
(blockchain/indexers/txindex.go, and the tip check of manager.go).

The index is three buckets: transaction id to location, block hash to block id,
block id to block hash.
-/
import FalconDraw.Wire.Codec
import FalconDraw.Chain.SpendJournal

namespace FalconDraw.Index

open Lib Wire Chain

inductive IndexError where
  | wire (e : WireError)
  /-- `errNoBlockIDEntry`. -/
  | noBlockIDEntry
  /-- `database.Error` with code `ErrCorruption`. -/
  | corruption (description : String)
  /-- `AssertError`. -/
  | assertion (message : String)
  | message (text : String)
  /-- An index out of range. -/
  | panic
  /-- A loop that has not ended after the rounds it is given here. -/
  | unfinished
  /-- An error of the spend journal. -/
  | journal (e : StoreError)
deriving DecidableEq, Repr

def noBlockIDEntryText : String := "no entry in the block ID index"

/-- A `btcutil.Block` with its serialization. The bytes come from the wire or
from the message itself, so that they hold the block's transactions where they
can be decoded at all; the weight limit keeps every offset in 32 bits. -/
structure StoredBlock where
  block : Block
  bytes : Bytes
  faithful : ∀ m rest, MsgBlock.btcDecode .witness bytes = .ok (m, rest) →
    m.transactions = block.transactions.map Tx.msgTx
  small : bytes.length < 2 ^ 32

namespace StoredBlock

def hash (b : StoredBlock) : Hash := b.block.hash

def prevBlock (b : StoredBlock) : Hash := b.block.header.prevBlock

def txids (b : StoredBlock) : List Hash := b.block.transactions.map Tx.hash

def txLoc (b : StoredBlock) : Except IndexError (List TxLoc) :=
  match MsgBlock.deserializeTxLoc b.bytes with
  | .error e => .error (.wire e)
  | .ok (txLocs, _) => .ok txLocs

end StoredBlock

structure BlockRegion where
  hash   : Hash
  offset : Nat
  len    : Nat
deriving DecidableEq, Repr

def BlockRegion.bytesOf (region : BlockRegion) (bytes : Bytes) : Bytes :=
  slice bytes region.offset (region.offset + region.len)

/-- The buckets of the index. -/
structure TxIndexRows where
  idByHash : Bucket Hash Bytes
  hashByID : Bucket Bytes Hash
  txIndex  : Bucket Hash Bytes

def TxIndexRows.empty : TxIndexRows := ⟨.empty, .empty, .empty⟩

/-! ## Block ids -/

def serializedID (id : UInt32) : Bytes := leBytes 4 id.toNat

def dbPutBlockIDIndexEntry (rows : TxIndexRows) (hash : Hash) (id : UInt32) : TxIndexRows :=
  { rows with
    idByHash := rows.idByHash.put hash (serializedID id)
    hashByID := rows.hashByID.put (serializedID id) hash }

def dbRemoveBlockIDIndexEntry (rows : TxIndexRows) (hash : Hash) : TxIndexRows :=
  match rows.idByHash.get hash with
  | none => rows
  | some id =>
    { rows with idByHash := rows.idByHash.delete hash, hashByID := rows.hashByID.delete id }

def dbFetchBlockHashBySerializedID (rows : TxIndexRows) (id : Bytes) : Except IndexError Hash :=
  match rows.hashByID.get id with
  | none => .error .noBlockIDEntry
  | some hash => .ok hash

def dbFetchBlockHashByID (rows : TxIndexRows) (id : UInt32) : Except IndexError Hash :=
  dbFetchBlockHashBySerializedID rows (serializedID id)

/-! ## Transaction entries -/

def txEntrySize : Nat := 4 + 4 + 4

def putTxIndexEntry (blockID : UInt32) (txLoc : TxLoc) : Bytes :=
  serializedID blockID ++ (leBytes 4 txLoc.txStart ++ leBytes 4 txLoc.txLen)

def dbPutTxIndexEntry (rows : TxIndexRows) (txHash : Hash) (serializedData : Bytes) : TxIndexRows :=
  { rows with txIndex := rows.txIndex.put txHash serializedData }

/-- `dbFetchTxIndexEntry`, which is what `TxBlockRegion` returns. -/
def dbFetchTxIndexEntry (rows : TxIndexRows) (txHash : Hash) :
    Except IndexError (Option BlockRegion) :=
  let serializedData := (rows.txIndex.get txHash).getD []
  if serializedData.length = 0 then .ok none
  else if serializedData.length < txEntrySize then
    .error (.corruption ("corrupt transaction index entry for " ++ Hash.str txHash))
  else match dbFetchBlockHashBySerializedID rows (slice serializedData 0 4) with
  | .error _ => .error (.corruption ("corrupt transaction index entry for " ++ Hash.str txHash ++
      ": " ++ noBlockIDEntryText))
  | .ok hash => .ok (some
      ⟨hash, leNat (slice serializedData 4 8), leNat (slice serializedData 8 12)⟩)

/-- `dbAddTxIndexEntries`: `TxLoc` has one location for every transaction. -/
def dbAddTxIndexEntries (rows : TxIndexRows) (block : StoredBlock) (blockID : UInt32) :
    Except IndexError TxIndexRows := do
  let txLocs ← block.txLoc
  return (block.block.transactions.zip txLocs).foldl (fun rows (tx, txLoc) =>
    dbPutTxIndexEntry rows tx.hash (putTxIndexEntry blockID txLoc)) rows

def dbRemoveTxIndexEntry (rows : TxIndexRows) (txHash : Hash) : Except IndexError TxIndexRows := do
  rejectIf (((rows.txIndex.get txHash).getD []).length = 0) (.message
    ("can't remove non-existent transaction " ++ Hash.str txHash ++ " from the transaction index"))
  return { rows with txIndex := rows.txIndex.delete txHash }

def dbRemoveTxIndexEntries (rows : TxIndexRows) (block : StoredBlock) :
    Except IndexError TxIndexRows :=
  block.txids.foldlM dbRemoveTxIndexEntry rows

/-! ## The index and its counter -/

namespace TxIndex

def name : String := "transaction index"

/-- The rows `ConnectBlock` writes for a block under a given id. -/
def addBlock (rows : TxIndexRows) (block : StoredBlock) (newBlockID : UInt32) :
    Except IndexError TxIndexRows := do
  let rows ← dbAddTxIndexEntries rows block newBlockID
  return dbPutBlockIDIndexEntry rows block.hash newBlockID

/-- `ConnectBlock`: the rows and the counter. -/
def connectBlock (curBlockID : UInt32) (rows : TxIndexRows) (block : StoredBlock) :
    Except IndexError (TxIndexRows × UInt32) := do
  let newBlockID := curBlockID + 1
  let rows ← addBlock rows block newBlockID
  return (rows, newBlockID)

/-- The rows `DisconnectBlock` leaves. -/
def removeBlock (rows : TxIndexRows) (block : StoredBlock) : Except IndexError TxIndexRows := do
  let rows ← dbRemoveTxIndexEntries rows block
  return dbRemoveBlockIDIndexEntry rows block.hash

def disconnectBlock (curBlockID : UInt32) (rows : TxIndexRows) (block : StoredBlock) :
    Except IndexError (TxIndexRows × UInt32) := do
  let rows ← removeBlock rows block
  return (rows, curBlockID - 1)

/-- The scan of `Init` in large gaps, for at most `fuel` rounds: the highest known
and the next unknown id. -/
def forwardScan (known : UInt32 → Bool) : Nat → UInt32 → UInt32 → Option (UInt32 × UInt32)
  | 0, _, _ => none
  | fuel + 1, highestKnown, testBlockID =>
    if known testBlockID then forwardScan known fuel testBlockID (testBlockID + 100000)
    else some (highestKnown, testBlockID)

/-- The binary search of `Init`, for at most `fuel` rounds. -/
def binaryScan (known : UInt32 → Bool) : Nat → UInt32 → UInt32 → Option UInt32
  | 0, _, _ => none
  | fuel + 1, highestKnown, nextUnknown =>
    let testBlockID := (highestKnown + nextUnknown) / 2
    let (highestKnown, nextUnknown) :=
      if known testBlockID then (testBlockID, nextUnknown) else (highestKnown, testBlockID)
    if highestKnown + 1 = nextUnknown then some highestKnown
    else binaryScan known fuel highestKnown nextUnknown

/-- `Init` of a new index object, whose counter is zero: the counter, if both
loops end within `fuel` rounds. -/
def init (fuel : Nat) (rows : TxIndexRows) : Option UInt32 := do
  let known := fun id => (dbFetchBlockHashByID rows id).isOk
  let (highestKnown, nextUnknown) ← forwardScan known fuel 0 1
  if nextUnknown = 1 then return 0
  else binaryScan known fuel highestKnown nextUnknown

end TxIndex

/-! ## The tip of an index (manager.go) -/

/-- The tip row of an index: hash and height, `-1` before the first block. -/
structure IndexTip where
  hash   : Hash
  height : Int
deriving DecidableEq, Repr

/-- The tip `maybeCreateIndexes` gives a new index. -/
def IndexTip.uninitialized : IndexTip := ⟨0, -1⟩

/-- `dbIndexConnectBlock` around the `ConnectBlock` of the index called `name`. -/
def dbIndexConnectBlock {α : Type} (name : String) (curTip : IndexTip) (block : StoredBlock)
    (connect : Except IndexError α) : Except IndexError (α × IndexTip) := do
  rejectIf (curTip.hash ≠ block.prevBlock) (.assertion
    ("dbIndexConnectBlock must be called with a block that extends the current index tip (" ++
      name ++ ", tip " ++ Hash.str curTip.hash ++ ", block " ++ Hash.str block.hash ++ ")"))
  let rows ← connect
  return (rows, ⟨block.hash, block.block.height⟩)

def dbIndexDisconnectBlock {α : Type} (name : String) (curTip : IndexTip) (block : StoredBlock)
    (disconnect : Except IndexError α) : Except IndexError (α × IndexTip) := do
  rejectIf (curTip.hash ≠ block.hash) (.assertion
    ("dbIndexDisconnectBlock must be called with the block at the current index tip (" ++
      name ++ ", tip " ++ Hash.str curTip.hash ++ ", block " ++ Hash.str block.hash ++ ")"))
  let rows ← disconnect
  return (rows, ⟨block.prevBlock, block.block.height - 1⟩)

/-! ## The index next to the chain -/

/-- The best chain as far as it is indexed, tip first, with the rows of the index
in the database and its counter in memory. -/
structure IndexedChain where
  chain      : List StoredBlock
  rows       : TxIndexRows
  tip        : IndexTip
  curBlockID : UInt32

def IndexedChain.new : IndexedChain := ⟨[], .empty, .uninitialized, 0⟩

def tipHash : List StoredBlock → Hash
  | [] => 0
  | b :: _ => b.hash

/-- Neither the block nor a transaction of it is on the chain, and its
transactions have different ids. -/
structure Fresh (chain : List StoredBlock) (b : StoredBlock) : Prop where
  hash : b.hash ∉ chain.map StoredBlock.hash
  nodup : b.txids.Nodup
  txids : ∀ t ∈ b.txids, t ∉ chain.flatMap StoredBlock.txids

-- a search over the ids of the block, not over all hashes
instance (chain : List StoredBlock) (b : StoredBlock) : Decidable (Fresh chain b) :=
  decidable_of_iff ((chain.map StoredBlock.hash).contains b.hash = false ∧ b.txids.Nodup ∧
      (b.txids.all fun t => !(chain.flatMap StoredBlock.txids).contains t) = true)
    ⟨fun h => ⟨by simpa using h.1, h.2.1, by simpa using h.2.2⟩,
      fun h => ⟨by simpa using h.hash, h.nodup, by simpa using h.txids⟩⟩

/-- What can happen: the database transaction that connects or disconnects a
block commits or, whatever else failed in it, is rolled back; the node restarts. -/
inductive IndexAction where
  | connect (block : StoredBlock) (commits : Bool)
  | disconnect (commits : Bool)
  | restart (fuel : Nat)

namespace IndexedChain

/-- `ConnectBlock` of the manager for the transaction index. -/
def tryConnect (s : IndexedChain) (b : StoredBlock) :
    Except IndexError ((TxIndexRows × UInt32) × IndexTip) :=
  dbIndexConnectBlock TxIndex.name s.tip b (TxIndex.connectBlock s.curBlockID s.rows b)

/-- `DisconnectBlock` of the manager for the transaction index. -/
def tryDisconnect (s : IndexedChain) (b : StoredBlock) :
    Except IndexError ((TxIndexRows × UInt32) × IndexTip) :=
  dbIndexDisconnectBlock TxIndex.name s.tip b (TxIndex.disconnectBlock s.curBlockID s.rows b)

def step (s : IndexedChain) : IndexAction → Option IndexedChain
  | .connect b commits =>
    if b.prevBlock = tipHash s.chain ∧ Fresh s.chain b then
      match s.tryConnect b with
      | .error _ => some s
      | .ok ((rows, curBlockID), tip) =>
        if commits then some ⟨b :: s.chain, rows, tip, curBlockID⟩
        else some { s with curBlockID }
    else none
  | .disconnect commits =>
    match s.chain with
    | [] => none
    | b :: chain =>
      match s.tryDisconnect b with
      | .error _ => some s
      | .ok ((rows, curBlockID), tip) =>
        if commits then some ⟨chain, rows, tip, curBlockID⟩
        else some { s with curBlockID }
  | .restart fuel => (TxIndex.init fuel s.rows).map fun curBlockID => { s with curBlockID }

end IndexedChain

end FalconDraw.Index
