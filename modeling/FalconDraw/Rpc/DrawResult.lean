/-
FalconDraw.Rpc.DrawResult — the `getdrawresult` query and the numbering of draws
(rpcserverdraw.go, blockchain/drawqueries.go), with the two memos they keep.

`drawSeqCache` and `drawResultCache` are filled by calls and never emptied.
-/
import FalconDraw.Rpc.DrawTickets
import FalconDraw.Lib.Transition

namespace FalconDraw.Rpc

open Lib Wire Draw Chain

structure DrawWinnerInfo where
  walletHash : String
  prize      : Int64
deriving DecidableEq, Repr

structure GetDrawResultResult where
  drawHeight       : Nat
  drawSequence     : Nat := 0
  drawBlockHash    : String
  totalPool        : Int64
  settled          : Bool
  jackpotWon       : Bool := false
  rollover         : Int64 := 0
  winningPos       : Int64 := 0
  totalTokens      : Int64
  numWinners       : Nat := 0
  winners          : List DrawWinnerInfo := []
  settlementTxID   : String := ""
  settlementHeight : Int := 0
  vdfT             : Nat := 0
  vdfOutput        : String := ""
deriving DecidableEq, Repr

/-- The parts of the node that the queries about draws use. In `drawResultCache`
`none` is `drawResultNoParticipants`. -/
structure DrawNode where
  idx             : StakeIndex
  blocks          : List Block
  drawSeqCache    : Bucket Nat Nat
  drawResultCache : Bucket Nat (Option GetDrawResultResult)

namespace DrawNode

/-! ## What the chain says of a draw -/

def blockByHeight (s : DrawNode) (height : Int) : Option Block :=
  if height < 0 then none else s.blocks[height.toNat]?

/-- `FetchDrawSettlement`: the settlement transaction and the hash of the draw block. -/
def fetchDrawSettlement (s : DrawNode) (drawHeight : Nat) : Except String (Option Tx × Hash) :=
  match s.idx.vdfResults.get drawHeight with
  | none => .ok (none, 0)
  | some record =>
      if (s.blocks.length : Int) - 1 < record.settlementHeight then .ok (none, 0)
      else match s.blockByHeight record.settlementHeight with
        | none => .error ("no block at height " ++ toString record.settlementHeight ++ " exists")
        | some block =>
            .ok (block.transactions.find? isDrawSettlementTx,
              ((s.blockByHeight (toInt32 drawHeight)).map Block.hash).getD 0)

/-- `FetchDrawLiveResult`: whether the jackpot was won and whether there were stakers. -/
def fetchDrawLiveResult (s : DrawNode) (drawHeight : Nat) : Except String (Bool × Bool) :=
  match s.idx.vdfResults.get drawHeight with
  | none => .ok (false, false)
  | some _ =>
      if s.idx.fetchPoolStakeEntries drawHeight = [] then .ok (false, false)
      else match s.idx.drawResults.get drawHeight with
        | some m => .ok (m.jackpotWon, true)
        | none =>
            match s.fetchDrawSettlement drawHeight with
            | .error e => .error e
            | .ok (none, _) => .ok (false, true)
            | .ok (some tx, _) => .ok (decide (2 ≤ tx.msgTx.txOut.length), true)

/-! ## The number of a draw -/

/-- What a round of the counting loop finds: an error, or whether the draw counts and
whether the count is stored. -/
def countRound (s : DrawNode) (h : Nat) : Except String (Bool × Bool) :=
  match s.fetchDrawSettlement h with
  | .error e => .error e
  | .ok (none, _) =>
      match s.idx.vdfResults.get h with
      | none => .ok (decide (s.idx.fetchPoolStakeEntries h ≠ []), false)
      | some _ =>
          match s.fetchDrawLiveResult h with
          | .error _ => .ok (false, true)
          | .ok (_, hasReal) => .ok (hasReal, true)
  | .ok (some _, _) =>
      match s.fetchDrawLiveResult h with
      | .error e => .error e
      | .ok (_, hasReal) => .ok (hasReal, true)

/-- The counting loop of `CountSettledDraws`, on the count and the memo. -/
def countDraws (s : DrawNode) :
    List Nat → Nat → Bucket Nat Nat → Except String Nat × Bucket Nat Nat
  | [], count, memo => (.ok count, memo)
  | h :: hs, count, memo =>
      match s.countRound h with
      | .error e => (.error e, memo)
      | .ok (counts, stored) =>
          let count := if counts then count + 1 else count
          countDraws s hs count (if stored then memo.put h count else memo)

/-- The draw heights from `start` to `upTo`. -/
def drawsUpTo (start upTo : Nat) : List Nat :=
  List.range' start ((upTo + drawInterval - start) / drawInterval) drawInterval

/-- Where the counting starts, and with what: after the nearest stored count. -/
def countStart (s : DrawNode) (upToHeight : Nat) : Nat × Nat :=
  match (StakeIndex.priorDraws upToHeight).findSome? fun h =>
      (s.drawSeqCache.get h).map fun count => (h, count) with
  | some (h, count) => (h + drawInterval, count)
  | none => (drawInterval, 0)

def countSettledDraws (s : DrawNode) (upToHeight : Nat) : Except String Nat × DrawNode :=
  if upToHeight < drawInterval then (.ok 0, s)
  else match s.drawSeqCache.get upToHeight with
    | some count => (.ok count, s)
    | none =>
        let (startH, count) := s.countStart upToHeight
        let (answer, memo) := s.countDraws (drawsUpTo startH upToHeight) count s.drawSeqCache
        (answer, { s with drawSeqCache := memo })

/-! ## The result of a draw -/

/-- What `handleGetDrawResult` finds, apart from the number of the draw. -/
inductive DrawOutcome where
  | refused (e : RPCError)
  | noParticipants
  | computing (result : GetDrawResultResult)
  | settled (result : GetDrawResultResult)
deriving DecidableEq, Repr

def totalTokens (s : DrawNode) (drawHeight : Nat) : Int64 :=
  sum64 ((fetchDrawAllStakers s.idx drawHeight).map DrawStakeInfo.tokens)

def winningPos (drawBlockHash : Hash) (vdfOutput : Nat) (totalTokens : Int64) : Int64 :=
  if 0 < totalTokens then
    selectWinnerPos (drawSeed drawBlockHash vdfOutput) (totalTokens * winMultiplier)
  else 0

def vdfOutputHex (vdfOutput : Nat) : String := encodeHex (beBytes 256 vdfOutput)

def computingOutcome (s : DrawNode) (drawHeight : Nat) : DrawOutcome :=
  let totalTokens := s.totalTokens drawHeight
  if totalTokens = 0 then
    .refused ⟨.blockNotFound, "draw " ++ toString drawHeight ++ " had no participants"⟩
  else
    .computing
      { drawHeight := drawHeight
        drawBlockHash :=
          ((s.blockByHeight (toInt32 drawHeight)).map fun b => Hash.str b.hash).getD ""
        totalPool := s.idx.reconstructPoolBalance drawHeight
        settled := false
        totalTokens := totalTokens }

def rolloverOutcome (s : DrawNode) (drawHeight : Nat) (record : VDFRecord) (foundHash : Hash) :
    DrawOutcome :=
  let totalTokens := s.totalTokens drawHeight
  let drawBlockHash := ((s.blockByHeight (toInt32 drawHeight)).map Block.hash).getD foundHash
  let totalPool := s.idx.reconstructPoolBalance drawHeight
  match s.idx.drawResults.get drawHeight with
  | none => .refused ⟨.blockNotFound, "draw " ++ toString drawHeight ++
      " VDF settled but draw result missing"⟩
  | some m =>
      if m.jackpotWon then .refused ⟨.blockNotFound, "draw " ++ toString drawHeight ++
        ": jackpot won but no settlement tx (anomalous)"⟩
      else if totalTokens = 0 then .noParticipants
      else
        .settled
          { drawHeight := drawHeight
            drawBlockHash := Hash.str drawBlockHash
            totalPool := totalPool
            settled := true
            rollover := totalPool
            winningPos := winningPos drawBlockHash record.output totalTokens
            totalTokens := totalTokens
            settlementHeight := record.settlementHeight
            vdfT := record.T
            vdfOutput := vdfOutputHex record.output }

def paidWallet (pkScript : Bytes) : String :=
  if pkScript.length = 22 then encodeHex (slice pkScript 2 22) else encodeHex (List.replicate 20 0)

def settlementOutcome (s : DrawNode) (drawHeight : Nat) (record : VDFRecord) (settleTx : Tx)
    (drawBlockHash : Hash) : DrawOutcome :=
  let totalTokens := s.totalTokens drawHeight
  let prize := settleTx.msgTx.txOut[1]?
  let pool := s.idx.reconstructPoolBalance drawHeight
  match s.fetchDrawLiveResult drawHeight with
  | .ok (_, false) => .noParticipants
  | _ =>
      .settled
        { drawHeight := drawHeight
          drawBlockHash := Hash.str drawBlockHash
          totalPool := (prize.map TxOut.value).getD pool
          settled := true
          jackpotWon := prize.isSome
          rollover := if prize.isSome then 0 else pool
          winningPos := winningPos drawBlockHash record.output totalTokens
          totalTokens := totalTokens
          numWinners := prize.toList.length
          winners := (prize.map fun out => ⟨paidWallet out.pkScript, out.value⟩).toList
          settlementTxID := Hash.str settleTx.hash
          settlementHeight := record.settlementHeight
          vdfT := record.T
          vdfOutput := vdfOutputHex record.output }

def drawOutcome (s : DrawNode) (drawHeight : Nat) : DrawOutcome :=
  match s.idx.vdfResults.get drawHeight with
  | none => s.computingOutcome drawHeight
  | some record =>
      match s.fetchDrawSettlement drawHeight with
      | .error e => .refused ⟨.internal, e⟩
      | .ok (none, foundHash) => s.rolloverOutcome drawHeight record foundHash
      | .ok (some settleTx, drawBlockHash) =>
          s.settlementOutcome drawHeight record settleTx drawBlockHash

def memoReply (drawHeight : Nat) : Option GetDrawResultResult → Except RPCError GetDrawResultResult
  | none => .error ⟨.blockNotFound, "draw " ++ toString drawHeight ++
      " had no participants (jackpot rollover only)"⟩
  | some result => .ok result

def storeResult (s : DrawNode) (drawHeight : Nat) (entry : Option GetDrawResultResult) : DrawNode :=
  { s with drawResultCache := s.drawResultCache.put drawHeight entry }

def sequenceOf : Except String Nat → Nat
  | .ok count => count
  | .error _ => 0

/-- `handleGetDrawResult` for a draw that is not in the memo. -/
def computeDrawResult (s : DrawNode) (drawHeight : Nat) :
    Except RPCError GetDrawResultResult × DrawNode :=
  match s.drawOutcome drawHeight with
  | .refused e => (.error e, s)
  | .noParticipants => (memoReply drawHeight none, s.storeResult drawHeight none)
  | .computing result =>
      let (answer, s) := s.countSettledDraws (drawHeight - drawInterval)
      (.ok { result with drawSequence := sequenceOf answer + 1 }, s)
  | .settled result =>
      let (answer, s) := s.countSettledDraws drawHeight
      let result := { result with drawSequence := sequenceOf answer }
      (.ok result, s.storeResult drawHeight (some result))

def handleGetDrawResult (s : DrawNode) (drawHeight : Nat) :
    Except RPCError GetDrawResultResult × DrawNode :=
  if drawHeight = 0 ∨ toInt32 drawHeight % drawInterval ≠ 0 then
    (.error ⟨.invalidParameter, "drawheight " ++ toString drawHeight ++
      " is not a valid draw block height (must be a nonzero multiple of " ++
      toString drawInterval ++ ")"⟩, s)
  else match s.drawResultCache.get drawHeight with
    | some entry => (memoReply drawHeight entry, s)
    | none => s.computeDrawResult drawHeight

/-! ## Runs -/

inductive DrawOp where
  | connect (block : Block)
  | disconnect
  | count (drawHeight : Nat)
  | result (drawHeight : Nat)
deriving DecidableEq, Repr

/-- `connectBlock`, as far as the queries see it. -/
def connect (s : DrawNode) (newBlock : Block) : DrawNode :=
  let block := { newBlock with height := s.blocks.length }
  { s with idx := s.idx.connectBlock block, blocks := s.blocks ++ [block] }

/-- `disconnectBlock` of the tip, as far as the queries see it. -/
def disconnect (s : DrawNode) (tip : Block) : DrawNode :=
  { s with idx := s.idx.disconnectBlock tip, blocks := s.blocks.dropLast }

def step (s : DrawNode) : DrawOp → Option DrawNode
  | .connect block => some (s.connect block)
  | .disconnect => if s.blocks.length ≤ 1 then none else s.blocks.getLast?.map s.disconnect
  | .count drawHeight => some (s.countSettledDraws drawHeight).2
  | .result drawHeight => some (s.handleGetDrawResult drawHeight).2

/-- A node that has only the genesis block and has answered nothing. -/
def IsNew (s : DrawNode) : Prop :=
  s.idx = StakeIndex.empty ∧ s.blocks.length = 1 ∧ s.drawSeqCache = Bucket.empty ∧
    s.drawResultCache = Bucket.empty

end DrawNode

end FalconDraw.Rpc
