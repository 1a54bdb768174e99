/-
FalconDraw.Chain.Merkle — the merkle root of a block (blockchain/rolling_merkle.go,
merkle.go) and the whole of `checkBlockSanity` (validate.go).

The store keeps the roots of the full subtrees of the leaves added so far.
-/
import FalconDraw.Chain.HeaderChecks
import FalconDraw.Chain.Sanity

namespace FalconDraw.Chain

open Lib Wire Draw

variable (hashMerkleBranches : Hash → Hash → Hash)

/-! ## The rolling store -/

structure RollingMerkleTreeStore where
  roots     : List Hash
  numLeaves : Nat
deriving DecidableEq, Repr

namespace RollingMerkleTreeStore

def new : RollingMerkleTreeStore := ⟨[], 0⟩

/-- The loop of `add`: as long as the leaves counted in this row are odd, the newest
root is hashed with the new one. A `uint64` has 64 rows. -/
def mergeRoots : Nat → Nat → List Hash → Hash → Option (List Hash)
  | 0, _, roots, newRoot => some (newRoot :: roots)
  | rows + 1, leaves, roots, newRoot =>
    if leaves % 2 = 1 then
      match roots with
      | [] => none
      | root :: roots => mergeRoots rows (leaves / 2) roots (hashMerkleBranches root newRoot)
    else some (newRoot :: roots)

def add (s : RollingMerkleTreeStore) (hash : Hash) : Option RollingMerkleTreeStore :=
  (mergeRoots hashMerkleBranches 64 s.numLeaves s.roots hash).map fun roots =>
    ⟨roots, (s.numLeaves + 1) % 2 ^ 64⟩

def shiftLeaves : Nat → Nat → Nat
  | 0, leaves => leaves
  | rows + 1, leaves => if leaves % 2 = 0 then shiftLeaves rows (leaves / 2) else leaves

/-- The last loop of `calcMerkleRoot`: repeat the newest root until one is left. -/
def raiseRoots : Nat → RollingMerkleTreeStore → Option RollingMerkleTreeStore
  | 0, _ => none
  | fuel + 1, s =>
    if s.roots.length ≤ 1 then some s
    else do
      let h ← s.roots.head?
      let s ← add hashMerkleBranches { s with numLeaves := shiftLeaves 64 s.numLeaves } h
      raiseRoots fuel s

/-- `calcMerkleRoot` on the hashes of the transactions; `last` is the one of the last
transaction. -/
def calcMerkleRoot (adds : List Hash) (last : Hash) : Option Hash := do
  let s ← adds.foldlM (add hashMerkleBranches) new
  if s.numLeaves = 1 then s.roots.getLast?
  else
    let s ← if 0 < adds.length ∧ adds.length % 2 ≠ 0 then add hashMerkleBranches s last else some s
    let s ← raiseRoots hashMerkleBranches 64 s
    s.roots.getLast?

end RollingMerkleTreeStore

/-- `CalcMerkleRoot`, for the ids or for the witness hashes with a coinbase of zeros. -/
def calcMerkleRoot (witnessHash : Tx → Hash) (transactions : List Tx) (witness : Bool) :
    Option Hash :=
  let leaf (tx : Tx) : Hash := if witness then witnessHash tx else tx.hash
  let adds := match transactions with
    | [] => []
    | coinbase :: txs => (if witness then 0 else coinbase.hash) :: txs.map leaf
  RollingMerkleTreeStore.calcMerkleRoot hashMerkleBranches adds
    ((transactions.getLast?.map leaf).getD 0)

/-! ## The linear store -/

/-- `nextPowerOfTwo`. The source takes the logarithm of a float, which is exact
enough below 2^48; a slice of so many transactions does not fit the heap. -/
def nextPowerOfTwo (n : Nat) : Nat :=
  if n &&& (n - 1) = 0 then n else 2 ^ (Nat.log2 n + 1)

def merkleParent : Option Hash → Option Hash → Option Hash
  | none, _ => none
  | some left, none => some (hashMerkleBranches left left)
  | some left, some right => some (hashMerkleBranches left right)

/-- The loop of `BuildMerkleTreeStore` with this many pairs to go, the next one at `i`.
Parents are written from the first free place on, so the array is the list of what
has been written. -/
def fillStore : Nat → Nat → List (Option Hash) → List (Option Hash)
  | 0, _, merkles => merkles
  | rounds + 1, i, merkles =>
    fillStore rounds (i + 2) (merkles ++
      [merkleParent hashMerkleBranches (merkles.getD i none) (merkles.getD (i + 1) none)])

/-- The base hashes: ids, or witness hashes with a coinbase of zeros. -/
def baseHashes (witnessHash : Tx → Hash) (witness : Bool) : List Tx → List Hash
  | [] => []
  | coinbase :: txs =>
    (if witness then 0 else coinbase.hash) ::
      txs.map fun tx => if witness then witnessHash tx else tx.hash

/-- `BuildMerkleTreeStore`; without transactions the array would have a negative size. -/
def buildMerkleTreeStore (witnessHash : Tx → Hash) (transactions : List Tx) (witness : Bool) :
    Option (List (Option Hash)) :=
  let nextPoT := nextPowerOfTwo transactions.length
  if nextPoT = 0 then none
  else
    let arraySize := nextPoT * 2 - 1
    let leaves := (baseHashes witnessHash witness transactions).map some
    some (fillStore hashMerkleBranches ((arraySize - 1) / 2) 0
      (leaves ++ List.replicate (nextPoT - transactions.length) none))

/-! ## Sanity -/

/-- What `checkBlockSanity` is given beside the block. -/
structure SanityEnv where
  powLimit     : Nat
  adjustedTime : Int
  noPoWCheck   : Bool
  witnessHash  : Tx → Hash

def Block.headerInfo (block : Block) : HeaderInfo :=
  ⟨block.hash, block.header.version, block.header.timestamp, block.header.bits⟩

/-- All of `checkBlockSanity`, for a block whose header has this merkle root. -/
def checkWholeBlockSanity (env : SanityEnv) (block : Block) (merkleRoot : Hash) : Check Unit := do
  checkBlockHeaderSanity (Block.headerInfo block) env.powLimit env.adjustedTime env.noPoWCheck
  let txs := block.transactions
  rejectIf (txs = []) (.rule .noTransactions "block does not contain any transactions")
  rejectIf (maxBlockBaseSize < txs.length) (.rule .blockTooBig
    ("block contains too many transactions - got " ++ toString txs.length))
  rejectIf (maxBlockBaseSize < block.serializeSizeStripped) (.rule .blockTooBig
    ("serialized block is too big - got " ++ toString block.serializeSizeStripped))
  rejectIf (txs.head?.all fun tx => !tx.isCoinBase) (.rule .firstTxNotCoinbase
    "first transaction in block is not a coinbase")
  rejectIf (txs.tail.any Tx.isCoinBase) (.rule .multipleCoinbases
    "block contains second coinbase")
  forM txs checkTransactionSanity
  match calcMerkleRoot hashMerkleBranches env.witnessHash txs false with
  | none => throw (.assert "index out of range")
  | some calculated =>
    rejectIf (merkleRoot ≠ calculated) (.rule .badMerkleRoot
      ("block merkle root is invalid - block header indicates " ++ Hash.str merkleRoot ++
        ", but calculated value is " ++ Hash.str calculated))
  rejectIf (¬ (txs.map Tx.hash).Nodup) (.rule .duplicateTx
    "block contains duplicate transaction")
  checkLegacySigOps 0 txs

end FalconDraw.Chain
