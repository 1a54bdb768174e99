/-
FalconDraw.Index.AddrIndex — the address index (blockchain/indexers/addrindex.go).

For every address the index keeps the transactions that involve it, oldest first,
as fixed-size entries cut into levels. New entries go to level 0 and move up when
it is full.
-/
import FalconDraw.Index.TxIndex
import FalconDraw.Lib.Levels

namespace FalconDraw.Index

open Lib Wire Draw Chain

/-- The type byte and the hash of an address. -/
abbrev AddrKey := BitVec 168

def level0MaxEntries : Nat := 8

def numLevels : Nat := 256

def AddrKey.str (key : AddrKey) : String :=
  String.ofList ((beBytes 21 key.toNat).flatMap hexDigits)

/-! ## Entries -/

def serializeAddrIndexEntry (blockID : UInt32) (txLoc : TxLoc) : Bytes :=
  serializedID blockID ++ (leBytes 4 txLoc.txStart ++ leBytes 4 txLoc.txLen)

/-- `deserializeAddrIndexEntry`, with the error its caller makes of a failure to
decode. -/
def deserializeAddrIndexEntry (addrKey : AddrKey) (serialized : Bytes)
    (fetchBlockHash : Bytes → Except IndexError Hash) : Except IndexError BlockRegion := do
  rejectIf (serialized.length < txEntrySize) (.corruption
    ("failed to deserialized address index for key " ++ addrKey.str ++ ": unexpected end of data"))
  let hash ← fetchBlockHash (slice serialized 0 4)
  return ⟨hash, leNat (slice serialized 4 8), leNat (slice serialized 8 12)⟩

/-! ## Levels -/

section Levels

variable {α : Type}

/-- Move the levels below `k` up by one, starting at the top. -/
def moveUp (bucket : Levels α) : Nat → Levels α
  | 0 => bucket
  | k + 1 => moveUp (bucket.put (k + 1) (bucket.data k)) k

/-- The loop of `dbPutAddrIndexEntry` that makes room in level 0. -/
def mergeLevels (bucket : Levels α) : Nat → Nat → Nat → List α → Except IndexError (Levels α)
  | 0, _, _, _ => .error .unfinished
  | fuel + 1, curLevel, maxLevelEntries, prevLevelData =>
    let curLevelData := bucket.data curLevel
    if curLevelData.length = maxLevelEntries then
      mergeLevels bucket fuel (curLevel + 1) (2 * maxLevelEntries) curLevelData
    else .ok (moveUp (bucket.put curLevel (curLevelData ++ prevLevelData)) (curLevel - 1))

/-- `dbPutAddrIndexEntry` on the levels of one address. -/
def dbPutAddrIndexEntry (bucket : Levels α) (newData : α) : Except IndexError (Levels α) :=
  let level0Data := bucket.data 0
  if level0Data.length + 1 ≤ level0MaxEntries then .ok (bucket.put 0 (level0Data ++ [newData]))
  else do
    let bucket ← mergeLevels bucket (numLevels - 1) 1 (2 * level0MaxEntries) level0Data
    return bucket.put 0 [newData]

def maxEntriesForLevel : Nat → Nat
  | 0 => level0MaxEntries
  | level + 1 => 2 * maxEntriesForLevel level

def minEntriesToReachLevel : Nat → Nat
  | 0 => 1
  | level + 1 => minEntriesToReachLevel level + maxEntriesForLevel level

/-- The loop of `dbRemoveAddrIndexEntries` that takes entries away, from a level on:
the pending updates, in which an empty list clears a level, and the highest level
that was loaded. -/
def removeNewest (addrKey : AddrKey) (bucket : Levels α) (count : Nat) :
    Nat → Nat → Nat → Levels α → Except IndexError (Levels α × Nat)
  | 0, _, _, _ => .error .unfinished
  | fuel + 1, level, numRemaining, pending =>
    let curLevelData := bucket.data level
    if curLevelData.length = 0 then .error (.assertion
      ("dbRemoveAddrIndexEntries not enough entries for address key " ++ addrKey.str ++
        " to delete " ++ toString count ++ " entries"))
    else if curLevelData.length ≤ numRemaining then
      let pending := pending.put level []
      let numRemaining := numRemaining - curLevelData.length
      if numRemaining = 0 then .ok (pending, level)
      else removeNewest addrKey bucket count fuel (level + 1) numRemaining pending
    else .ok (pending.put level (curLevelData.take (curLevelData.length - numRemaining)), level)

/-- What the loop that squashes a level into the levels below it carries. -/
structure Squash (α : Type) where
  curLevelData     : List α
  pending          : Levels α
  lowestEmptyLevel : Nat

def squash : Nat → Squash α → Squash α
  | 0, s => s
  | level + 1, s =>
    let numEntries := s.curLevelData.length
    let curLevelMaxEntries := maxEntriesForLevel (level + 1)
    let prevLevelMaxEntries := curLevelMaxEntries / 2
    let minPrevRequired := minEntriesToReachLevel level
    if numEntries < prevLevelMaxEntries + minPrevRequired then
      squash level { s with
        pending := s.pending.put (level + 1) []
        lowestEmptyLevel := level + 1 }
    else
      let offset := if curLevelMaxEntries + minPrevRequired ≤ numEntries then curLevelMaxEntries
        else prevLevelMaxEntries
      squash level { s with
        pending := s.pending.put (level + 1) (s.curLevelData.take offset)
        curLevelData := s.curLevelData.drop offset }

/-- Halve the data of a level into the levels below it, down to the lowest empty one. -/
def halve (lowestEmptyLevel : Nat) : Nat → Nat → List α → Levels α → Levels α
  | 0, _, _, pending => pending
  | level + 1, curLevelMaxEntries, levelData, pending =>
    if lowestEmptyLevel < level + 1 then
      let offset := curLevelMaxEntries / 2
      halve lowestEmptyLevel level (curLevelMaxEntries / 2) (levelData.drop offset)
        ((pending.put (level + 1) (levelData.take offset)).put level (levelData.drop offset))
    else pending

/-- The last loop of `dbRemoveAddrIndexEntries`: as long as the highest loaded level is
empty, fill the gap from the level behind it. -/
def backfill (bucket : Levels α) : Nat → Nat → Nat → Levels α → Except IndexError (Levels α)
  | 0, _, _, _ => .error .unfinished
  | fuel + 1, highestLoadedLevel, lowestEmptyLevel, pending =>
    if (pending.data highestLoadedLevel).length ≠ 0 then .ok pending
    else
      let level := highestLoadedLevel + 1
      let levelData := bucket.data level
      if levelData.length = 0 then .ok pending
      else
        let curLevelMaxEntries := maxEntriesForLevel level
        let pending := pending.put level levelData
        let pending :=
          if levelData.length ≠ curLevelMaxEntries then
            halve lowestEmptyLevel highestLoadedLevel (curLevelMaxEntries / 2) levelData
              ((pending.put level []).put highestLoadedLevel levelData)
          else halve lowestEmptyLevel level curLevelMaxEntries levelData pending
        backfill bucket fuel level level pending

/-- `applyPending`: an empty update deletes the level. -/
def applyPending (bucket pending : Levels α) : Levels α := fun level =>
  match pending.get level with
  | none => bucket.get level
  | some [] => none
  | some (e :: es) => some (e :: es)

/-- `dbRemoveAddrIndexEntries` on the levels of one address. -/
def dbRemoveAddrIndexEntries (addrKey : AddrKey) (bucket : Levels α) (count : Nat) :
    Except IndexError (Levels α) := do
  if count = 0 then return bucket
  else
    let (pending, highestLoadedLevel) ← removeNewest addrKey bucket count numLevels 0 count .empty
    if (pending.data 0).length ≠ 0 then return applyPending bucket pending
    else
      let s := squash highestLoadedLevel ⟨pending.data highestLoadedLevel, pending, 255⟩
      let pending := s.pending.put 0 s.curLevelData
      let lowestEmptyLevel := if s.curLevelData.length = 0 then 0 else s.lowestEmptyLevel
      let pending ← backfill bucket numLevels highestLoadedLevel lowestEmptyLevel pending
      return applyPending bucket pending

/-- The loop of `dbFetchAddrIndexEntries` that loads levels until there are enough
entries, `wanted` being how many are enough. -/
def loadLevels (bucket : Levels α) (wanted : Option Nat) : Nat → Nat → List α →
    Except IndexError (List α)
  | 0, _, _ => .error .unfinished
  | fuel + 1, level, serialized =>
    if wanted.any fun n => n ≤ serialized.length then .ok serialized
    else match bucket.get level with
    | none => .ok serialized
    | some levelData => loadLevels bucket wanted fuel (level + 1) (levelData ++ serialized)

end Levels

/-- `dbFetchAddrIndexEntries`: the regions and how many entries were skipped. -/
def dbFetchAddrIndexEntries (addrKey : AddrKey) (bucket : Levels Bytes)
    (numToSkip numRequested : UInt32) (reverse : Bool)
    (fetchBlockHash : Bytes → Except IndexError Hash) :
    Except IndexError (List BlockRegion × UInt32) := do
  let wanted := if reverse then some (numToSkip + numRequested).toNat else none
  let serialized ← loadLevels bucket wanted (numLevels + 1) 0 []
  let numEntries := UInt32.ofNat serialized.length
  if numEntries ≤ numToSkip then return ([], numEntries)
  else if numRequested = 0 then return ([], numToSkip)
  else
    let numToLoad := min (numEntries - numToSkip) numRequested
    let results ← (List.range numToLoad.toNat).mapM fun i =>
      -- the byte offset is a `uint32` as well
      let entry := if reverse then numEntries - numToSkip - UInt32.ofNat i - 1
        else numToSkip + UInt32.ofNat i
      let offset := entry * UInt32.ofNat txEntrySize
      deserializeAddrIndexEntry addrKey (serialized.flatten.drop offset.toNat) fetchBlockHash
    return (results, numToSkip)

end FalconDraw.Index
