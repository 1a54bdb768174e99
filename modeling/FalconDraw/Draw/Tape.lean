/-
FalconDraw.Draw.Tape — the draw itself (blockchain/tape.go).

The stakes of a draw are laid end to end in wallet order on a tape of
`totalRealTokens` positions, extended `WinMultiplier` times; the seed picks a
position.
-/
import Mathlib.Data.List.Sort
import FalconDraw.Lib.Amount
import FalconDraw.Draw.Payload

namespace FalconDraw.Draw

open Lib Wire

structure StakeEntry where
  walletHash : WalletHash
  tokenCount : Int64
  totalValue : Int64
deriving DecidableEq, Repr

structure WinnerEntry where
  walletHash : WalletHash
  prize      : Int64
deriving DecidableEq, Repr

structure DrawResult where
  jackpotWon  : Bool := false
  winners     : List WinnerEntry := []
  rollover    : Int64 := 0
  winningPos  : Int64 := 0
  totalTokens : Int64 := 0
deriving DecidableEq, Repr

def winMultiplier : Int64 := 10

/-- `SelectWinnerPos`. `big.Int.Mod` is the Euclidean remainder; it panics on a
zero total, where this returns the entropy's low 64 bits. -/
def selectWinnerPos (entropy : Hash) (totalTokens : Int64) : Int64 :=
  Int64.ofInt ((entropy.toNat : Int) % totalTokens.toInt)

structure CumulativeEntry where
  walletHash : WalletHash
  totalValue : Int64
  start      : Int64
  stop       : Int64
deriving DecidableEq, Repr

def cumulativeFrom : Int64 → List StakeEntry → List CumulativeEntry
  | _, [] => []
  | cumulative, s :: rest =>
      ⟨s.walletHash, s.totalValue, cumulative, cumulative + s.tokenCount⟩ ::
        cumulativeFrom (cumulative + s.tokenCount) rest

/-- `buildSortedDepositList`. `sort.Slice` may leave equal wallets in any order;
here they keep the order of the input. -/
def buildSortedDepositList (real : List StakeEntry) : List CumulativeEntry :=
  cumulativeFrom 0 (real.insertionSort fun a b => a.walletHash ≤ b.walletHash)

/-- The loop of `findWinner` on positions `lo` to `hi - 1`. -/
def findWinnerLoop (entries : List CumulativeEntry) (pos : Int64) :
    Nat → Nat → Nat → Option CumulativeEntry
  | 0, _, _ => none
  | fuel + 1, lo, hi =>
      if lo < hi then
        -- the source's bounds are inclusive: `mid := (lo + (hi - 1)) / 2`
        let mid := (lo + (hi - 1)) / 2
        match entries[mid]? with
        | none => none
        | some e =>
            if pos < e.start then findWinnerLoop entries pos fuel lo mid
            else if e.stop ≤ pos then findWinnerLoop entries pos fuel (mid + 1) hi
            else some e
      else none

/-- `findWinner`; the range shrinks every round, so its length is fuel enough. -/
def findWinner (entries : List CumulativeEntry) (pos : Int64) : Option CumulativeEntry :=
  findWinnerLoop entries pos (entries.length + 1) 0 entries.length

def runDraw (stakes : List StakeEntry) (seed : Hash) : DrawResult :=
  if stakes = [] then {}
  else
    let realStakes := stakes.filter fun s => s.walletHash ≠ jackpotPoolWalletHash
    let totalPool := sum64 (stakes.map StakeEntry.totalValue)
    let totalRealTokens := sum64 (realStakes.map StakeEntry.tokenCount)
    if totalPool ≤ 0 then {}
    else if realStakes = [] then { rollover := totalPool }
    else
      let extendedPos := selectWinnerPos seed (totalRealTokens * winMultiplier)
      if totalRealTokens ≤ extendedPos then
        { rollover := totalPool, totalTokens := totalRealTokens }
      else
        match findWinner (buildSortedDepositList realStakes) extendedPos with
        | none => { rollover := totalPool, totalTokens := totalRealTokens }
        | some winner =>
            { jackpotWon := true, winners := [⟨winner.walletHash, totalPool⟩]
              winningPos := extendedPos, totalTokens := totalRealTokens }

/-- What `sort.Slice` may do: it puts the stakes in wallet order, and leaves
those of one wallet in any order. -/
structure WalletSort where
  sort   : List StakeEntry → List StakeEntry
  perm   : ∀ real, (sort real).Perm real
  sorted : ∀ real, (sort real).Pairwise fun a b => a.walletHash ≤ b.walletHash

def realStakes (stakes : List StakeEntry) : List StakeEntry :=
  stakes.filter fun s => s.walletHash ≠ jackpotPoolWalletHash

/-- `RunDraw`, whatever order its sort leaves the stakes of one wallet in. -/
def runDrawBy (order : WalletSort) (stakes : List StakeEntry) (seed : Hash) : DrawResult :=
  if stakes = [] then {}
  else
    let totalPool := sum64 (stakes.map StakeEntry.totalValue)
    let totalRealTokens := sum64 ((realStakes stakes).map StakeEntry.tokenCount)
    if totalPool ≤ 0 then {}
    else if realStakes stakes = [] then { rollover := totalPool }
    else
      let extendedPos := selectWinnerPos seed (totalRealTokens * winMultiplier)
      if totalRealTokens ≤ extendedPos then
        { rollover := totalPool, totalTokens := totalRealTokens }
      else
        match findWinner (cumulativeFrom 0 (order.sort (realStakes stakes))) extendedPos with
        | none => { rollover := totalPool, totalTokens := totalRealTokens }
        | some winner =>
            { jackpotWon := true, winners := [⟨winner.walletHash, totalPool⟩]
              winningPos := extendedPos, totalTokens := totalRealTokens }

/-- The wallet hash the callers of `RunDraw` read: the first winner's. -/
def DrawResult.winnerWalletHash (r : DrawResult) : WalletHash :=
  if r.jackpotWon then (r.winners.head?.map WinnerEntry.walletHash).getD 0 else 0

end FalconDraw.Draw
