/-
FalconDraw.Chain.UndoTheorems — disconnecting the block just connected.

The exact condition is on the index before and the block (`StakeIndex.UndoSafe`):
no stake, at most one VDF result, and balances around its draw that the undo can
put back.
-/
import FalconDraw.Chain.Run
import FalconDraw.Draw.UndoTheorems

namespace FalconDraw.Chain

open Lib Wire Draw

/-- The first block pays its subsidy to wallet 1 as the coin `1:0`; the blocks
up to height `h` let it mature. -/
def maturingBlocks (h : Nat) : List Block :=
  regularBlock 1 [coinbaseTx 1 [⟨100000000000, makeWinnerP2WPKHScript 1⟩]] ::
    (List.range (h - 1)).map fun i => regularBlock (i + 2) [idleCoinbase]

def firstStakeBlock : Block :=
  regularBlock 102 [idleCoinbase, stakeWithChange 100000000 99900000000]

end FalconDraw.Chain
