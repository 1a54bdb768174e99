/-
FalconDraw.Rpc.DrawTickets — the `getdrawtickets` query (rpcserverdraw.go,
blockchain/drawqueries.go).

For a settled draw the query lays the wallets' tokens end to end and reports the
range of one wallet, the winning position and whether the one contains the other.
-/
import FalconDraw.Draw.StakeIndex
import FalconDraw.Chain.BlockNode

namespace FalconDraw.Rpc

open Lib Wire Draw Chain

/-! ## Stakers of a draw -/

structure DrawStakeInfo where
  walletHash : WalletHash
  tokens     : Int64
  totalAtoms : Int64
deriving DecidableEq, Repr

/-- One round of the loop of `FetchDrawAllStakers`: the map of wallets and the
list of their first appearances, as one list. -/
def addStake (e : StakeEntry) : List DrawStakeInfo → List DrawStakeInfo
  | [] => [⟨e.walletHash, e.tokenCount, e.totalValue⟩]
  | d :: ds =>
      if d.walletHash = e.walletHash then
        ⟨d.walletHash, d.tokens + e.tokenCount, d.totalAtoms + e.totalValue⟩ :: ds
      else d :: addStake e ds

/-- `FetchDrawAllStakers`, without the settled flag. -/
def fetchDrawAllStakers (idx : StakeIndex) (drawHeight : Nat) : List DrawStakeInfo :=
  ((idx.fetchPoolStakeEntries drawHeight).filter fun e =>
    e.walletHash ≠ jackpotPoolWalletHash).foldl (fun ds e => addStake e ds) []

def fetchWalletTokensForDraw (idx : StakeIndex) (walletHash : WalletHash) (drawHeight : Nat) :
    Int64 :=
  sum64 (((idx.fetchPoolStakeEntries drawHeight).filter fun e =>
    e.walletHash = walletHash).map StakeEntry.tokenCount)

/-! ## The request -/

inductive RPCErrorCode where
  | internal | invalidParameter | blockNotFound
deriving DecidableEq, Repr

structure RPCError where
  code    : RPCErrorCode
  message : String
deriving DecidableEq, Repr

structure GetDrawTicketsCmd where
  walletHash : String
  drawHeight : Nat
deriving DecidableEq, Repr

structure GetDrawTicketsResult where
  walletHash    : String
  drawHeight    : Nat
  drawBlockHash : String
  entropyHash   : String
  totalTokens   : Int64
  rangeStart    : Int64
  rangeEnd      : Int64
  winningPos    : Int64
  won           : Bool
deriving DecidableEq, Repr

def hexValue (c : Char) : Option Nat :=
  if '0' ≤ c ∧ c ≤ '9' then some (c.toNat - '0'.toNat)
  else if 'a' ≤ c ∧ c ≤ 'f' then some (c.toNat - 'a'.toNat + 10)
  else if 'A' ≤ c ∧ c ≤ 'F' then some (c.toNat - 'A'.toNat + 10)
  else none

/-- `hex.DecodeString`. -/
def decodeHex : List Char → Option Bytes
  | [] => some []
  | [_] => none
  | c :: d :: rest => do
      let hi ← hexValue c
      let lo ← hexValue d
      let bytes ← decodeHex rest
      return UInt8.ofNat (16 * hi + lo) :: bytes

/-- `hex.EncodeToString`. -/
def encodeHex (bytes : Bytes) : String := String.ofList (bytes.flatMap hexDigits)

def decodeWalletHash (text : String) : Option WalletHash :=
  match decodeHex text.toList with
  | some bytes => if bytes.length = 20 then some (WalletHash.ofBytes bytes) else none
  | none => none

/-- One round of the loop over the stakers, on `rangeStart` and `totalTokens`. -/
def ticketStep (walletHash : WalletHash) (acc : Int64 × Int64) (st : DrawStakeInfo) :
    Int64 × Int64 :=
  (if st.walletHash = walletHash then acc.2 else acc.1, acc.2 + st.tokens)

def ticketRange (walletHash : WalletHash) (stakers : List DrawStakeInfo) : Int64 × Int64 :=
  stakers.foldl (ticketStep walletHash) (0, 0)

def drawTickets (stakers : List DrawStakeInfo) (cmd : GetDrawTicketsCmd) (walletHash : WalletHash)
    (drawBlockHash : Hash) (vdfOutput : Nat) (tokenCount : Int64) : GetDrawTicketsResult :=
  let seed := drawSeed drawBlockHash vdfOutput
  let (rangeStart, totalTokens) := ticketRange walletHash stakers
  let extendedPos :=
    if 0 < totalTokens then selectWinnerPos seed (totalTokens * winMultiplier) else 0
  { walletHash := cmd.walletHash
    drawHeight := cmd.drawHeight
    drawBlockHash := Hash.str drawBlockHash
    entropyHash := encodeHex (Hash.toBytes seed)
    totalTokens := totalTokens
    rangeStart := rangeStart
    rangeEnd := rangeStart + tokenCount
    winningPos := extendedPos
    won := decide (extendedPos < totalTokens) && decide (rangeStart ≤ extendedPos) &&
      decide (extendedPos < rangeStart + tokenCount) }

/-- `handleGetDrawTickets` from the fetch of the token count on. -/
def fetchDrawTickets (idx : StakeIndex) (cmd : GetDrawTicketsCmd) (walletHash : WalletHash)
    (drawBlockHash : Hash) (vdfOutput : Nat) : Except RPCError GetDrawTicketsResult :=
  let tokenCount := fetchWalletTokensForDraw idx walletHash cmd.drawHeight
  if tokenCount = 0 then
    .error ⟨.invalidParameter, "wallet " ++ cmd.walletHash ++ " did not stake in draw " ++
      toString cmd.drawHeight⟩
  else .ok (drawTickets (fetchDrawAllStakers idx cmd.drawHeight) cmd walletHash drawBlockHash
    vdfOutput tokenCount)

def handleGetDrawTickets (idx : StakeIndex) (tip : BlockNode) (cmd : GetDrawTicketsCmd) :
    Except RPCError GetDrawTicketsResult :=
  if cmd.drawHeight = 0 ∨ toInt32 cmd.drawHeight % drawInterval ≠ 0 then
    .error ⟨.invalidParameter, "drawheight " ++ toString cmd.drawHeight ++
      " is not a valid draw block height (must be a nonzero multiple of " ++
      toString drawInterval ++ ")"⟩
  else match decodeWalletHash cmd.walletHash with
  | none =>
      .error ⟨.invalidParameter, "wallethash must be exactly 20 bytes (40 hex characters)"⟩
  | some walletHash =>
      match idx.vdfResults.get cmd.drawHeight, blockHashByHeight tip (toInt32 cmd.drawHeight) with
      | none, _ => .error ⟨.blockNotFound, "draw " ++ toString cmd.drawHeight ++
          " has not been settled yet (awaiting VDF result)"⟩
      | some _, none => .error ⟨.internal, "no block at height " ++
          toString (toInt32 cmd.drawHeight) ++ " exists"⟩
      | some record, some drawBlockHash =>
          fetchDrawTickets idx cmd walletHash drawBlockHash record.output

end FalconDraw.Rpc
