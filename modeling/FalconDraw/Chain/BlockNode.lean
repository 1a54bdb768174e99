/-
FalconDraw.Chain.BlockNode — nodes of the block tree and the chain
parameters (blockchain/blockindex.go, chaincfg/params.go, chain.go).

A node carries the list of its ancestors, parent first, so its height is the
length of that list and `Ancestor` is a list lookup; the skip pointers of the
source only make that lookup fast.
-/
import Mathlib.Data.List.Sort
import FalconDraw.Draw.Payload

namespace FalconDraw.Chain

open Wire Draw

/-! ## Nodes -/

/-- The fields of a `blockNode` that come from the header. -/
structure HeaderInfo where
  hash      : Hash
  version   : Int
  timestamp : Int
  bits      : Nat
deriving DecidableEq, Repr

/-- A `blockNode` with its chain of ancestors, parent first. -/
structure BlockNode where
  info      : HeaderInfo
  ancestors : List HeaderInfo
deriving DecidableEq, Repr

namespace BlockNode

def hash (n : BlockNode) : Hash := n.info.hash

def height (n : BlockNode) : Nat := n.ancestors.length

def chain (n : BlockNode) : List HeaderInfo := n.info :: n.ancestors

def ofChain : List HeaderInfo → Option BlockNode
  | [] => none
  | i :: is => some ⟨i, is⟩

def parent (n : BlockNode) : Option BlockNode := ofChain n.ancestors

/-- `Ancestor`: the node at `h` on the way back to genesis, itself included. -/
def ancestor (n : BlockNode) (h : Int) : Option BlockNode :=
  if h < 0 ∨ (n.height : Int) < h then none else ofChain (n.chain.drop (n.height - h.toNat))

end BlockNode

/-- `BlockHashByHeight` on the best chain with this tip. -/
def blockHashByHeight (tip : BlockNode) (blockHeight : Int) : Option Hash :=
  (tip.ancestor blockHeight).map BlockNode.hash

/-! ## Work -/

def compactToBig (compact : Nat) : Int :=
  let mantissa := compact &&& 0x007fffff
  let exponent := compact >>> 24
  let bn := if exponent ≤ 3 then mantissa >>> (8 * (3 - exponent))
    else mantissa <<< (8 * (exponent - 3))
  if compact &&& 0x00800000 = 0 then bn else -bn

def calcWork (bits : Nat) : Nat :=
  let difficultyNum := compactToBig bits
  if difficultyNum ≤ 0 then 0 else 2 ^ 256 / (difficultyNum.toNat + 1)

/-- `workSum`, cumulative from genesis. -/
def BlockNode.workSum (n : BlockNode) : Nat := (n.chain.map fun i => calcWork i.bits).sum

/-! ## Parameters -/

/-- The `chaincfg.Params` the modelled rules read. -/
structure Params where
  genesisHash               : Hash
  coinbaseMaturity          : Nat
  subsidyReductionInterval  : Nat
  bip0034Height             : Nat
  bip0034Hash               : Option Hash
  bip0065Height             : Nat
  bip0066Height             : Nat
  targetSecsPerBlock        : Nat
  vdfExactTActivationHeight : Nat

def mainNetParams : Params :=
  { genesisHash := 0x958fc45a671a076df1cdc567f0cef1bc024386c6c47e7f85a7ea82d59ef60000
    coinbaseMaturity := 100
    subsidyReductionInterval := 210000
    bip0034Height := 227931
    bip0034Hash := some 0xb808089c756add1591b1d17bab44bbfea3d9e02f942ab4894b02000000000000
    bip0065Height := 388381
    bip0066Height := 363725
    targetSecsPerBlock := 600
    vdfExactTActivationHeight := 55440 }

inductive Deployment where
  | csv | segwit | taproot
deriving DecidableEq, Repr

/-- `deploymentState(prevNode, d) == ThresholdActive`. -/
abbrev Deployments := Deployment → List HeaderInfo → Bool

def baseSubsidy : Int64 := 1000 * satoshiPerBitcoin

/-- `CalcBlockSubsidy`: whole coins are halved, never below one. -/
def calcBlockSubsidy (height : Nat) (p : Params) : Int64 :=
  if p.subsidyReductionInterval = 0 then baseSubsidy
  else
    let fdrw := 1000 >>> (height / p.subsidyReductionInterval)
    Int64.ofNat (if fdrw < 1 then 1 else fdrw) * satoshiPerBitcoin

/-! ## Median time and the demanded number of VDF steps -/

def medianTimeBlocks : Nat := 11

/-- `CalcPastMedianTime` of the node at the head of the chain. -/
def calcPastMedianTime (chain : List HeaderInfo) : Int :=
  let timestamps := ((chain.take medianTimeBlocks).map HeaderInfo.timestamp).insertionSort (· ≤ ·)
  timestamps.getD (timestamps.length / 2) 0

def vdfInitialT : Nat := 100

def vdfMinT : Nat := 10

def vdfTargetBlocks : Int := 3

def vdfTWindowBlocks : Nat := 36

def vdfReferenceMsPerStep : Int := 11

/-- `expectedVDFT` of a draw block. -/
def expectedVDFT (p : Params) (drawNode : BlockNode) : Nat :=
  let oldHeight := drawNode.height - vdfTWindowBlocks
  let spanBlocks : Int := drawNode.height - oldHeight
  match drawNode.ancestor oldHeight with
  | none => vdfInitialT
  | some oldNode =>
      if spanBlocks ≤ 0 then vdfInitialT
      else
        let spanSecs := drawNode.info.timestamp - oldNode.info.timestamp
        let targetSecs : Int := p.targetSecsPerBlock
        let spanSecs := max spanSecs (spanBlocks * targetSecs / 10)
        let spanSecs := min spanSecs (spanBlocks * targetSecs * 4)
        let T := (vdfTargetBlocks * spanSecs * 1000 / (vdfReferenceMsPerStep * spanBlocks)).toNat
        if T < vdfMinT then vdfMinT else T

end FalconDraw.Chain
