/-
FalconDraw.Chain.ResultTheorems — which VDF results reach the index.

`checkVDFResult_eq_ok` says what the loop body of `validateVDFSettlement`
establishes of one VDF result.
-/
import FalconDraw.Chain.ChainIndex
import FalconDraw.Chain.MintTheorems

namespace FalconDraw.Chain

open Lib Wire Draw

variable {env : Env} {utxos : UtxoSet} {idx : StakeIndex} {node : BlockNode} {block : Block}
  {view : UtxoViewpoint}

/-- The result is for a draw below the block, names the block's own ancestor at
that height, has the number of steps the chain demands there (at least
`VDFMinT`, and `expectedVDFT` once that is fixed), and its output is accepted
for the ancestor's seed. -/
structure ProvenResult (env : Env) (node : BlockNode) (d : VDFResultData) : Prop where
  isDraw : isDrawBlock (toInt32 d.drawHeight) = true
  below : toInt32 d.drawHeight < node.height
  proof : ∃ drawNode, node.ancestor (toInt32 d.drawHeight) = some drawNode ∧
    drawNode.hash = d.drawBlockHash ∧ vdfMinT ≤ d.T ∧
    (exactTActive env.params d.drawHeight = true → d.T = expectedVDFT env.params drawNode) ∧
    slothVerify drawNode.hash d.vdfOutput d.T (newVDFParams vdfPrime) = true

theorem checkVDFResult_eq_ok {tx : Tx} {d : VDFResultData} :
    checkVDFResult env idx node tx = .ok d ↔
      extractVDFResultData tx = .ok d ∧ ProvenResult env node d ∧
        alreadySettled env idx node d.drawHeight = none := by
  constructor
  · intro h
    have hd := checkVDFResult_extracts h
    refine ⟨hd, ?_⟩
    simp only [checkVDFResult, hd, bind_eq_ok, exists_unit, rejectIf_eq_ok] at h
    obtain ⟨hT, hdraw, hbelow, h⟩ := h
    cases ha : node.ancestor (toInt32 d.drawHeight) with
    | none => simp [ha] at h
    | some drawNode =>
      simp only [ha, checkVDFProof, bind_eq_ok, exists_unit, rejectIf_eq_ok, not_not, not_and] at h
      obtain ⟨⟨hhash, hexact, hproof⟩, _⟩ := h
      cases hs : alreadySettled env idx node d.drawHeight with
      | some why => simp [hs] at hproof
      | none =>
        simp only [hs, rejectIf_eq_ok, Bool.not_eq_false] at hproof
        refine ⟨⟨by simpa using hdraw, by omega, drawNode, ha, hhash, by omega, hexact, ?_⟩, rfl⟩
        rw [hhash]
        exact hproof
  · rintro ⟨hd, ⟨hdraw, hbelow, drawNode, ha, hhash, hT, hexact, hsloth⟩, hs⟩
    rw [hhash] at hsloth
    simp only [checkVDFResult, hd, bind_eq_ok, exists_unit, rejectIf_eq_ok, ha, checkVDFProof,
      hs, not_not, not_and, pure_eq_ok]
    exact ⟨by omega, by simpa using hdraw, by omega, ⟨hhash, hexact, by simpa using hsloth⟩, trivial⟩

/-- Every VDF result of the block that the index acts on is proven, and its draw
was not settled by an ancestor. -/
def OnlyProvenWrites (env : Env) (node : BlockNode) (ancestors : List Block) (block : Block) :
    Prop :=
  ∀ tx ∈ block.transactions, ∀ d, resultData tx = some d →
    ProvenResult env node d ∧ ¬ SettledBelow ancestors d.drawHeight

def laterResults (block : Block) : List Tx := (block.transactions.filter isVDFResultTx).tail

theorem result_first_or_later {tx : Tx} (htx : tx ∈ block.transactions)
    (hv : isVDFResultTx tx = true) :
    block.transactions.find? isVDFResultTx = some tx ∨ tx ∈ laterResults block := by
  have hmem : tx ∈ block.transactions.filter isVDFResultTx := List.mem_filter.mpr ⟨htx, hv⟩
  unfold laterResults
  rw [← List.head?_filter]
  cases hf : block.transactions.filter isVDFResultTx with
  | nil => simp [hf] at hmem
  | cons first later => grind

theorem laterResults_subset {tx : Tx} (h : tx ∈ laterResults block) :
    tx ∈ block.transactions := List.mem_of_mem_filter (List.mem_of_mem_tail h)

/-- The first VDF result of an accepted block is proven, and the index it was
validated against did not show its draw as settled. -/
theorem first_result_proven (h : Accepts (checkConnectBlock env utxos idx node block view)) {tx : Tx}
    (hv : block.transactions.find? isVDFResultTx = some tx) :
    ∃ d, resultData tx = some d ∧ ProvenResult env node d ∧
      alreadySettled env idx node d.drawHeight = none := by
  obtain ⟨_, _, _, _, hsuf⟩ := accepts_checkConnectBlock.mp h
  obtain ⟨bounty, hbounty, _⟩ := checkConnectSuffix_ok.mp hsuf
  obtain ⟨d, hd, _⟩ := validateVDFSettlement_some hv hbounty
  obtain ⟨hextract, hproven, hs⟩ := checkVDFResult_eq_ok.mp hd
  exact ⟨d, resultData_eq_some.mpr ⟨List.find?_some hv, hextract⟩, hproven, hs⟩

/-- Connecting an accepted block writes result records for the draws of its
parseable VDF results only. All of these are proven and new if and only if
every one after the first passes the same check on the index of the block's
ancestors, and the first one's draw is shown as settled by the index it was
validated against whenever an ancestor settled it. -/
theorem writes_proven_iff (env : Env) (utxos : UtxoSet) (idx : StakeIndex) (node : BlockNode)
    (block : Block) (view : UtxoViewpoint) (ancestors : List Block)
    (hchain : ChainOf node.ancestors ancestors) (h : BlockAccepted env utxos idx node block view) :
    (∀ (state : StakeIndex) (D : Nat), (∀ d ∈ blockResults block, d.drawHeight ≠ D) →
      (state.connectBlock block).vdfResults.get D = state.vdfResults.get D ∧
      (state.connectBlock block).drawResults.get D = state.drawResults.get D) ∧
    (OnlyProvenWrites env node ancestors block ↔
      (∀ tx ∈ laterResults block, (resultData tx).isSome →
        Accepts (checkVDFResult env (chainIndex ancestors) node tx)) ∧
      (∀ tx d, block.transactions.find? isVDFResultTx = some tx → resultData tx = some d →
        SettledBelow ancestors d.drawHeight →
        alreadySettled env idx node d.drawHeight ≠ none)) := by
  refine ⟨?_, ?_, ?_⟩
  · intro state D hne
    refine ⟨?_, StakeIndex.connectBlock_drawResults state D block hne⟩
    rw [StakeIndex.connectBlock_vdfResults_get]
    have hnone : ((blockResults block).reverse.find? fun d => d.drawHeight = D) = none := by
      grind [List.find?_eq_none]
    rw [hnone]
  · intro hproven
    constructor
    · intro tx htx hsome
      obtain ⟨d, hd⟩ := Option.isSome_iff_exists.mp hsome
      obtain ⟨hp, hnot⟩ := hproven tx (laterResults_subset htx) d hd
      obtain ⟨_, hextract⟩ := resultData_eq_some.mp hd
      exact ⟨d, checkVDFResult_eq_ok.mpr
        ⟨hextract, hp, (alreadySettled_chainIndex env hchain _).mpr hnot⟩⟩
    · intro tx d hfirst hd hsettled
      exact absurd hsettled (hproven tx (List.mem_of_find?_eq_some hfirst) d hd).2
  · rintro ⟨hlater, hfirst⟩ tx htx d hd
    obtain ⟨hv, hextract⟩ := resultData_eq_some.mp hd
    rcases result_first_or_later htx hv with hf | hl
    · obtain ⟨d', hd', hp, hs⟩ := first_result_proven h.2 hf
      obtain rfl : d = d' := by simpa [hd] using hd'
      exact ⟨hp, fun hsettled => hfirst tx d hf hd hsettled hs⟩
    · obtain ⟨d', hd'⟩ := hlater tx hl (by simp [hd])
      obtain ⟨hextract', hp, hs⟩ := checkVDFResult_eq_ok.mp hd'
      obtain rfl : d = d' := by simpa [hextract] using hextract'
      exact ⟨hp, (alreadySettled_chainIndex env hchain _).mp hs⟩

/-- The blocks of the small chain below height `h`, with nothing in them. -/
def regularBlocks : Nat → List Block
  | 0 => []
  | h + 1 => regularBlock h [idleCoinbase] :: regularBlocks h

theorem jackpot_block_writes_proven : ChainOf (regularNode 37).ancestors (regularBlocks 37) ∧
      OnlyProvenWrites youngMainNet (regularNode 37) (regularBlocks 37) jackpotBlock := by
  have hchain : ChainOf (regularNode 37).ancestors (regularBlocks 37) := by decide +kernel
  refine ⟨hchain, ((writes_proven_iff youngMainNet Bucket.empty (stakedIndex 100000000) _ _
    (UtxoViewpoint.new 1) _ hchain (by decide +kernel)).2).mpr ⟨?_, ?_⟩⟩
  · decide +kernel
  · -- no block of the chain below has a VDF result
    rintro tx d - - ⟨b, hb, d', hd', -⟩
    have hempty : ∀ b ∈ regularBlocks 37, blockResults b = [] := by decide +kernel
    simp [hempty b hb] at hd'

/-- A VDF result for draw 72, which lies ahead, with an output that proves
nothing. -/
def forgedResultTx : Tx := { hash := 12, msgTx := buildVDFResultTx ⟨72, 5, 0, 7, 0⟩ }

def forgedBlock : Block := regularBlock 37 [idleCoinbase, resultTx 11 [], forgedResultTx]

/-- The block is accepted for its first VDF result, and the forged one is
recorded as the settlement of draw 72. -/
theorem forged_result_recorded :
    BlockAccepted youngMainNet Bucket.empty StakeIndex.empty (regularNode 37) forgedBlock
        (UtxoViewpoint.new 1) ∧
      (StakeIndex.empty.connectBlock forgedBlock).vdfResults.get 72 =
        some ⟨37, some (regularInfo 37).hash, 0, 7⟩ ∧
      ¬ OnlyProvenWrites youngMainNet (regularNode 37) (regularBlocks 37) forgedBlock := by
  refine ⟨by decide +kernel, by decide +kernel, fun h => ?_⟩
  have hbelow := (h forgedResultTx (by decide +kernel) ⟨72, 5, 0, 7, 0⟩ (by decide +kernel)).1.below
  revert hbelow
  decide +kernel

end FalconDraw.Chain
