/-
FalconDraw.Draw.StakeIndex — the staking index: five buckets, updated as
blocks are connected and disconnected (blockchain/stakeindex.go,
drawqueries.go).

  poolbyhgt       draw height, tx id   → wallet, amount
  poolbal         draw height          → balance
  stakecnt        draw height, wallet  → count
  drawresultmeta  draw height          → jackpot flag, winner
  vdfresult       draw height          → settling block, T, output

The first bucket is kept as one list of rows per draw height, in key order,
because that is how it is read. The others are maps. Draw heights are
unsigned 32-bit keys.
-/
import FalconDraw.Lib.Bucket
import FalconDraw.Draw.Vdf
import FalconDraw.Draw.Tape

namespace FalconDraw.Draw

open Lib Wire

/-- The value of a `poolbyhgt` row. -/
structure PoolStake where
  walletHash : WalletHash
  amount     : Int64
deriving DecidableEq, Repr

/-- The value of a `drawresultmeta` row. -/
structure DrawResultMeta where
  jackpotWon       : Bool
  winnerWalletHash : WalletHash
deriving DecidableEq, Repr

/-- The value of a `vdfresult` row; a record in the legacy format has no block
hash. -/
structure VDFRecord where
  settlementHeight    : Int
  settlementBlockHash : Option Hash
  T                   : Nat
  output              : Nat
deriving DecidableEq, Repr

@[ext] structure StakeIndex where
  poolStakes  : Nat → Rows Hash PoolStake
  poolBalance : Bucket Nat Int64
  stakeCounts : Bucket (Nat × WalletHash) Nat
  drawResults : Bucket Nat DrawResultMeta
  vdfResults  : Bucket Nat VDFRecord

namespace StakeIndex

def empty : StakeIndex :=
  ⟨fun _ => [], Bucket.empty, Bucket.empty, Bucket.empty, Bucket.empty⟩

/-! ## Reading and writing the buckets -/

def getPoolBalance (idx : StakeIndex) (drawHeight : Nat) : Int64 :=
  (idx.poolBalance.get drawHeight).getD 0

def setPoolBalance (idx : StakeIndex) (drawHeight : Nat) (atoms : Int64) : StakeIndex :=
  { idx with poolBalance := idx.poolBalance.put drawHeight atoms }

def addToPoolBalance (idx : StakeIndex) (drawHeight : Nat) (delta : Int64) : StakeIndex :=
  idx.setPoolBalance drawHeight (idx.getPoolBalance drawHeight + delta)

def getWalletStakeCount (idx : StakeIndex) (drawHeight : Nat) (wallet : WalletHash) : Nat :=
  (idx.stakeCounts.get (drawHeight, wallet)).getD 0

/-- `dbIncrWalletStakeCount`, capped at 255. -/
def incrWalletStakeCount (idx : StakeIndex) (drawHeight : Nat) (wallet : WalletHash) :
    StakeIndex :=
  let cur := idx.getWalletStakeCount drawHeight wallet
  { idx with
    stakeCounts := idx.stakeCounts.put (drawHeight, wallet) (if cur < 255 then cur + 1 else cur) }

def putPoolStakeEntry (idx : StakeIndex) (drawHeight : Nat) (txHash : Hash) (s : PoolStake) :
    StakeIndex :=
  { idx with
    poolStakes := fun h =>
      if h = drawHeight then Rows.put txHash s (idx.poolStakes h) else idx.poolStakes h }

def removePoolStakeEntry (idx : StakeIndex) (drawHeight : Nat) (txHash : Hash) : StakeIndex :=
  { idx with
    poolStakes := fun h =>
      if h = drawHeight then Rows.delete txHash (idx.poolStakes h) else idx.poolStakes h }

/-- `dbFetchPoolStakeEntries`, in the form `RunDraw` takes. -/
def fetchPoolStakeEntries (idx : StakeIndex) (drawHeight : Nat) : List StakeEntry :=
  (idx.poolStakes drawHeight).map fun r =>
    ⟨r.2.walletHash, r.2.amount / satoshiPerBitcoin, r.2.amount⟩

def putDrawResultMeta (idx : StakeIndex) (drawHeight : Nat) (m : DrawResultMeta) : StakeIndex :=
  { idx with drawResults := idx.drawResults.put drawHeight m }

def deleteDrawResultMeta (idx : StakeIndex) (drawHeight : Nat) : StakeIndex :=
  { idx with drawResults := idx.drawResults.delete drawHeight }

/-- `dbPutVDFResult`, always in the current format. -/
def putVDFResult (idx : StakeIndex) (drawHeight : Nat) (settlementHeight : Nat)
    (settlementBlockHash : Hash) (T output : Nat) : StakeIndex :=
  { idx with
    vdfResults := idx.vdfResults.put drawHeight
      ⟨settlementHeight, some settlementBlockHash, T, output⟩ }

def deleteVDFResult (idx : StakeIndex) (drawHeight : Nat) : StakeIndex :=
  { idx with vdfResults := idx.vdfResults.delete drawHeight }

/-! ## Walking back over earlier draws -/

/-- `drawHeight + uint32(DrawInterval)`. -/
def nextDraw (drawHeight : Nat) : Nat := (drawHeight + drawInterval) % 2 ^ 32

/-- `h, h - 36, …` down to the last value that is at least 36. -/
def drawsFrom : Nat → Nat → List Nat
  | 0, _ => []
  | fuel + 1, h => if h < drawInterval then [] else h :: drawsFrom fuel (h - drawInterval)

/-- The heights the backward loops visit from `drawHeight`, nearest first. -/
def priorDraws (drawHeight : Nat) : List Nat :=
  if drawHeight < drawInterval * 2 then [] else drawsFrom drawHeight (drawHeight - drawInterval)

/-- The loop of `dbAbsorbIntermediateBalances`: empty balances are passed over,
a draw with stakers stops the walk, anything else is taken and cleared. -/
def absorbFrom : StakeIndex → Int64 → List Nat → Int64 × StakeIndex
  | idx, total, [] => (total, idx)
  | idx, total, h :: hs =>
      if idx.getPoolBalance h = 0 then absorbFrom idx total hs
      else if idx.poolStakes h ≠ [] then (total, idx)
      else absorbFrom (idx.setPoolBalance h 0) (total + idx.getPoolBalance h) hs

def absorbIntermediateBalances (idx : StakeIndex) (drawHeight : Nat) : Int64 × StakeIndex :=
  idx.absorbFrom (idx.getPoolBalance drawHeight) (priorDraws drawHeight)

def hasRealStakers (idx : StakeIndex) (drawHeight : Nat) : Bool :=
  (idx.poolStakes drawHeight).any fun r => r.2.walletHash ≠ jackpotPoolWalletHash

/-- The nearest earlier draw with stakers, when it is recorded as a rollover. -/
def rolloverSource (idx : StakeIndex) : List Nat → Option Nat
  | [] => none
  | h :: hs =>
      if idx.hasRealStakers h = false then rolloverSource idx hs
      else match idx.drawResults.get h with
        | none => none
        | some m => if m.jackpotWon then none else some h

def newStakes (idx : StakeIndex) (drawHeight : Nat) : Int64 :=
  sum64 (((idx.fetchPoolStakeEntries drawHeight).filter fun e =>
    e.walletHash ≠ jackpotPoolWalletHash).map StakeEntry.totalValue)

/-- `ReconstructPoolBalance`; each recursive call is for a smaller height. -/
def reconstructFuel (idx : StakeIndex) : Nat → Nat → Int64
  | 0, _ => 0
  | fuel + 1, drawHeight =>
      if (idx.drawResults.get drawHeight).isSome then idx.getPoolBalance drawHeight
      else match idx.rolloverSource (priorDraws drawHeight) with
        | none => idx.newStakes drawHeight
        | some h => idx.newStakes drawHeight + reconstructFuel idx fuel h

def reconstructPoolBalance (idx : StakeIndex) (drawHeight : Nat) : Int64 :=
  idx.reconstructFuel (drawHeight + 1) drawHeight

/-! ## Connecting a block -/

def runAndStoreDrawResult (idx : StakeIndex) (drawHeight : Nat) (seed : Hash) : StakeIndex :=
  if idx.poolStakes drawHeight = [] then
    let bal := idx.getPoolBalance drawHeight
    if 0 < bal then
      ((idx.putDrawResultMeta drawHeight ⟨false, 0⟩).addToPoolBalance (nextDraw drawHeight)
        bal).setPoolBalance drawHeight 0
    else idx
  else
    let (fullBal, idx₁) := idx.absorbIntermediateBalances drawHeight
    let idx₂ := idx₁.setPoolBalance drawHeight fullBal
    let result := runDraw (idx.fetchPoolStakeEntries drawHeight) seed
    let idx₃ := idx₂.putDrawResultMeta drawHeight ⟨result.jackpotWon, result.winnerWalletHash⟩
    if result.jackpotWon = false ∧ 0 < fullBal then
      idx₃.addToPoolBalance (nextDraw drawHeight) fullBal
    else idx₃

/-- The draw a stake enters: the declared one, or the next one when that has
already fired at the connecting block's height. -/
def effectiveDrawHeight (blockHeight declared : Nat) : Nat :=
  if toInt32 declared ≤ blockHeight then
    ((blockHeight / drawInterval + 1) * drawInterval) % 2 ^ 32
  else declared

/-- The version 6 case of `connectBlockStakingIndex`. -/
def connectStake (idx : StakeIndex) (blockHeight : Nat) (tx : Tx) : StakeIndex :=
  match findPoolStakingOpReturn tx.msgTx with
  | none => idx
  | some script =>
      let d := poolStakingFields script
      let dh := effectiveDrawHeight blockHeight d.drawHeight
      if maxStakesPerWalletPerDraw ≤ idx.getWalletStakeCount dh d.walletHash then idx
      else
        ((idx.putPoolStakeEntry dh tx.hash ⟨d.walletHash, d.amount⟩).addToPoolBalance dh
          d.amount).incrWalletStakeCount dh d.walletHash

/-- The version 7 case of `connectBlockStakingIndex`. -/
def connectVDFResult (idx : StakeIndex) (blockHeight : Nat) (blockHash : Hash) (tx : Tx) :
    StakeIndex :=
  match extractVDFResultData tx with
  | .error _ => idx
  | .ok d =>
      (idx.putVDFResult d.drawHeight blockHeight blockHash d.T d.vdfOutput).runAndStoreDrawResult
        d.drawHeight (drawSeed d.drawBlockHash d.vdfOutput)

/-- One transaction of `connectBlockStakingIndex`. -/
def connectTx (blockHeight : Nat) (blockHash : Hash) (idx : StakeIndex) (tx : Tx) : StakeIndex :=
  if tx.msgTx.version = txVersionPoolStake then idx.connectStake blockHeight tx
  else if tx.msgTx.version = txVersionVDFResult then idx.connectVDFResult blockHeight blockHash tx
  else idx

/-- `connectBlockStakingIndex`. -/
def connectBlock (idx : StakeIndex) (block : Block) : StakeIndex :=
  block.transactions.foldl (connectTx block.height block.hash) idx

/-! ## Disconnecting a block -/

/-- The version 6 case of `disconnectBlockStakingIndex`: the declared draw
height is used as it stands. -/
def disconnectStake (idx : StakeIndex) (tx : Tx) : StakeIndex :=
  match findPoolStakingOpReturn tx.msgTx with
  | none => idx
  | some script =>
      let d := poolStakingFields script
      (idx.removePoolStakeEntry d.drawHeight tx.hash).addToPoolBalance d.drawHeight (-d.amount)

/-- The version 7 case of `disconnectBlockStakingIndex`. -/
def disconnectVDFResult (idx : StakeIndex) (tx : Tx) : StakeIndex :=
  match extractVDFResultData tx with
  | .error _ => idx
  | .ok d =>
      let idx₁ := idx.deleteVDFResult d.drawHeight
      match idx₁.drawResults.get d.drawHeight with
      | none => idx₁
      | some m =>
          let idx₂ := idx₁.deleteDrawResultMeta d.drawHeight
          let rolledBal := idx₂.getPoolBalance (nextDraw d.drawHeight)
          if m.jackpotWon = false ∧ 0 < rolledBal then
            (idx₂.setPoolBalance d.drawHeight rolledBal).setPoolBalance (nextDraw d.drawHeight) 0
          else idx₂

def disconnectTx (idx : StakeIndex) (tx : Tx) : StakeIndex :=
  if tx.msgTx.version = txVersionPoolStake then idx.disconnectStake tx
  else if tx.msgTx.version = txVersionVDFResult then idx.disconnectVDFResult tx
  else idx

/-- `disconnectBlockStakingIndex`: in block order, like connecting. -/
def disconnectBlock (idx : StakeIndex) (block : Block) : StakeIndex :=
  block.transactions.foldl disconnectTx idx

end StakeIndex

end FalconDraw.Draw
