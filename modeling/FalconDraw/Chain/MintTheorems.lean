/-
FalconDraw.Chain.MintTheorems — what transactions without real inputs mint.

VDF results and settlements are not looked into by the value checks, so every
spendable output they have is new money. A settlement's outputs are fixed by the
pool it settles (`settlement_mints`).
-/
import Mathlib.Algebra.Order.Group.Int
import FalconDraw.Chain.FeeTheorems

namespace FalconDraw.Chain

open Lib Wire Script Draw List

variable {env : Env} {utxos : UtxoSet} {idx : StakeIndex} {node : BlockNode} {block : Block}
  {view : UtxoViewpoint}

/-! ## The value a transaction adds to the UTXO set -/

def createdValue (tx : Tx) (height : Nat) : Int :=
  sumInt ((UtxoSet.newCoins tx height).map fun c => c.2.amount)

def spendableValue (outs : List TxOut) : Int :=
  sumInt ((outs.filter fun out => !isUnspendable out.pkScript).map TxOut.value)

theorem createdValue_eq (tx : Tx) (height : Nat) :
    createdValue tx height = spendableValue tx.msgTx.txOut := by
  have hfrom : ∀ (outs : List TxOut) (i : Nat),
      sumInt ((UtxoSet.newCoinsFrom tx.hash tx.isCoinBase height i outs).map
        fun c => c.2.amount) = spendableValue outs := by
    intro outs
    induction outs with
    | nil => intro i; rfl
    | cons out outs ih =>
      intro i
      have hrest := ih (i + 1)
      unfold spendableValue at hrest ⊢
      cases hout : isUnspendable out.pkScript with
      | true => simpa [UtxoSet.newCoinsFrom, hout] using hrest
      | false => simp [UtxoSet.newCoinsFrom, hout, hrest]
  exact hfrom _ 0

theorem createdValue_nonneg {tx : Tx} (h : SaneTx tx) (height : Nat) :
    0 ≤ createdValue tx height := by
  rw [createdValue_eq]
  refine sumInt_nonneg fun v hv => ?_
  obtain ⟨out, hout, rfl⟩ := mem_map.mp hv
  exact h.value_nonneg out (mem_of_mem_filter hout)

/-! ## Settlements -/

theorem marker_unspendable {pkScript : Bytes} {h : Nat}
    (hmark : extractDrawSettlementMarker pkScript = some h) : isUnspendable pkScript = true := by
  grind [extractDrawSettlementMarker, isUnspendable]

theorem winnerScript_spendable (w : WalletHash) :
    isUnspendable (makeWinnerP2WPKHScript w) = false := by
  have hlen := WalletHash.toBytes_length w
  have hdrop : w.toBytes.drop 20 = [] := drop_of_length_le (by omega)
  have hok : (tokenize (makeWinnerP2WPKHScript w)).ok = true := by
    simp [tokenize, makeWinnerP2WPKHScript, hlen, tokenizeFuel, Script.next, hdrop]
  have hop : byteAt (makeWinnerP2WPKHScript w) 0 = 0 := rfl
  have hsize : (makeWinnerP2WPKHScript w).length = 22 := by simp [makeWinnerP2WPKHScript]
  simp [isUnspendable, hok, hop, hsize, maxScriptSize]

/-- The prize of a pool: its balance on a jackpot, nothing on a rollover. -/
def prize (pd : PoolDrawData) : Int := if pd.jackpotWon then pd.balance.toInt else 0

theorem settlement_mints {tx : Tx} {drawHeight height : Nat} {pd : PoolDrawData}
    (h : validateDrawSettlementTx tx drawHeight pd = .ok ()) :
    createdValue tx height = prize pd := by
  obtain ⟨marker, houts, hmark, _⟩ := validateDrawSettlementTx_ok h
  rw [createdValue_eq, houts]
  unfold spendableValue winnerOutputs prize
  cases pd.jackpotWon with
  | false => simp [marker_unspendable hmark]
  | true => simp [marker_unspendable hmark, winnerScript_spendable]

/-! ## A block -/

def isSentinelTx (tx : Tx) : Bool := isVDFResultTx tx || isDrawSettlementTx tx

/-- The value the block's sentinel transactions add to the UTXO set. -/
def mintedValue (block : Block) (height : Nat) : Int :=
  ((block.transactions.filter isSentinelTx).map fun tx => createdValue tx height).sum

/-- The pool of the draw the block settles: the draw its first VDF result names. -/
def settledPool (idx : StakeIndex) (block : Block) : Option PoolDrawData :=
  match block.transactions.find? isVDFResultTx with
  | none => none
  | some tx =>
      match extractVDFResultData tx with
      | .ok d => some (poolDrawData idx d)
      | .error _ => none

def duePrize (idx : StakeIndex) (block : Block) : Int :=
  ((settledPool idx block).map prize).getD 0

def isPlainResult (tx : Tx) : Bool := isVDFResultTx tx && !isDrawSettlementTx tx

theorem checkVDFResult_extracts {tx : Tx} {d : VDFResultData}
    (h : checkVDFResult env idx node tx = .ok d) : extractVDFResultData tx = .ok d := by
  unfold checkVDFResult at h
  cases hd : extractVDFResultData tx with
  | error e => simp [hd] at h
  | ok d' =>
    simp only [hd, bind_eq_ok, exists_unit] at h
    obtain ⟨_, _, _, h⟩ := h
    split at h
    · simp at h
    · simp only [bind_eq_ok, exists_unit, pure_eq_ok] at h
      rw [h.2]

/-- The minted value is what the settlement creates and what the plain VDF
results create. -/
theorem mintedValue_split (height : Nat) (txs : List Tx) :
    ((txs.filter isSentinelTx).map fun tx => createdValue tx height).sum =
      ((txs.filter isDrawSettlementTx).map fun tx => createdValue tx height).sum +
      ((txs.filter isPlainResult).map fun tx => createdValue tx height).sum := by
  induction txs with
  | nil => rfl
  | cons tx txs ih =>
    cases hs : isDrawSettlementTx tx with
    | true => grind [isSentinelTx, isPlainResult]
    | false => grind [isSentinelTx, isPlainResult]

theorem settlements_mint (h : BlockAccepted env utxos idx node block view) (height : Nat) :
    ((block.transactions.filter isDrawSettlementTx).map fun tx => createdValue tx height).sum =
      max (duePrize idx block) 0 := by
  obtain ⟨_, _, _, _, hsuf⟩ := accepts_checkConnectBlock.mp h.2
  obtain ⟨bounty, hbounty, _⟩ := checkConnectSuffix_ok.mp hsuf
  cases hv : block.transactions.find? isVDFResultTx with
  | none =>
    obtain ⟨hnone, _⟩ := validateVDFSettlement_none hv hbounty
    have hnil : block.transactions.filter isDrawSettlementTx = [] :=
      filter_eq_nil_iff.mpr fun tx htx => by simp [hnone tx htx]
    simp [hnil, duePrize, settledPool, hv]
  | some vdfTx =>
    obtain ⟨d, hd, hdraw, _⟩ := validateVDFSettlement_some hv hbounty
    obtain ⟨hvalid, hone, hpool⟩ := validateVDFDrawTxs_ok hdraw
    have hdue : duePrize idx block = prize (poolDrawData idx d) := by
      simp [duePrize, settledPool, hv, checkVDFResult_extracts hd]
    rw [countP_eq_length_filter] at hone hpool
    rw [hdue]
    cases hf : block.transactions.filter isDrawSettlementTx with
    | nil =>
      have hbal : ¬ 0 < (poolDrawData idx d).balance := by
        grind
      rw [Int64.not_lt, Int64.le_iff_toInt_le, Int64.toInt_zero] at hbal
      simp only [map_nil, sum_nil, prize]
      split <;> omega
    | cons tx txs =>
      obtain rfl : txs = [] := by simpa [hf] using hone
      have hmem : tx ∈ block.transactions.filter isDrawSettlementTx := by simp [hf]
      obtain ⟨htx, hset⟩ := mem_filter.mp hmem
      have hmint : createdValue tx height = prize (poolDrawData idx d) :=
        settlement_mints (hvalid tx htx hset)
      have hnonneg := createdValue_nonneg ((saneBlock_of_check h.1).sane tx htx) height
      simp only [map_cons, map_nil, sum_cons, sum_nil]
      omega

/-- An accepted block mints exactly the prize of the draw it settles if and only
if its VDF results have no spendable value and the prize is not negative. -/
theorem minted_iff_results_empty (env : Env) (utxos : UtxoSet) (idx : StakeIndex)
    (node : BlockNode) (block : Block) (view : UtxoViewpoint)
    (h : BlockAccepted env utxos idx node block view) :
    mintedValue block node.height = duePrize idx block ↔
      (∀ tx ∈ block.transactions, isPlainResult tx = true → spendableValue tx.msgTx.txOut = 0) ∧
      0 ≤ duePrize idx block := by
  have hsane := (saneBlock_of_check h.1).sane
  have hsplit : mintedValue block node.height = _ := mintedValue_split node.height _
  rw [settlements_mint h] at hsplit
  have hnonneg : ∀ x ∈ (block.transactions.filter isPlainResult).map
      fun tx => createdValue tx node.height, 0 ≤ x := by
    intro x hx
    obtain ⟨tx, htx, rfl⟩ := mem_map.mp hx
    exact createdValue_nonneg (hsane tx (mem_of_mem_filter htx)) _
  have hsum := sum_nonneg hnonneg
  have hzero : ((block.transactions.filter isPlainResult).map
      fun tx => createdValue tx node.height).sum = 0 ↔
      ∀ tx ∈ block.transactions, isPlainResult tx = true → spendableValue tx.msgTx.txOut = 0 := by
    constructor
    · intro hsum0 tx htx hres
      rw [← createdValue_eq tx node.height]
      exact all_zero_of_le_zero_le_of_sum_eq_zero hnonneg hsum0
        (mem_map_of_mem (mem_filter.mpr ⟨htx, hres⟩))
    · intro hall
      refine sum_eq_zero fun x hx => ?_
      obtain ⟨tx, htx, rfl⟩ := mem_map.mp hx
      obtain ⟨hmem, hres⟩ := mem_filter.mp htx
      rw [createdValue_eq]
      exact hall tx hmem hres
  rw [← hzero]
  omega

/-! ## Blocks that settle draw 36 -/

/-- The index after wallet 1 staked `amount` atoms for draw 36. -/
def stakedIndex (amount : Int64) : StakeIndex :=
  StakeIndex.empty.connectStake 1 (stakeWithChange amount 0)

/-- A VDF result for draw 36 of the small chain, with further outputs. -/
def resultTx (hash : Hash) (outs : List TxOut) : Tx :=
  let msgTx := buildVDFResultTx ⟨36, 1, 10, 1, 0⟩
  { hash := hash, msgTx := { msgTx with txOut := msgTx.txOut ++ outs } }

def settlementTx (pd : PoolDrawData) : Tx :=
  { hash := 10, msgTx := buildPoolDrawSettlementTx 36 pd }

def jackpotBlock : Block :=
  regularBlock 37 [idleCoinbase, settlementTx ⟨100000000, true, 1⟩, resultTx 11 []]

theorem jackpot_mints_pool :
    BlockAccepted youngMainNet Bucket.empty (stakedIndex 100000000) (regularNode 37) jackpotBlock
        (UtxoViewpoint.new 1) ∧
      mintedValue jackpotBlock 37 = 100000000 := by
  have h : BlockAccepted youngMainNet Bucket.empty (stakedIndex 100000000) (regularNode 37)
      jackpotBlock (UtxoViewpoint.new 1) := by decide +kernel
  have hdue : duePrize (stakedIndex 100000000) jackpotBlock = 100000000 := by decide +kernel
  refine ⟨h, ((minted_iff_results_empty _ _ _ _ _ _ h).mpr ⟨?_, ?_⟩).trans hdue⟩
  · decide +kernel
  · rw [hdue]
    decide

/-- A second output on the VDF result of a draw nobody staked in: a thousand
FDRW out of nothing. -/
def mintingBlock : Block :=
  regularBlock 37 [idleCoinbase, resultTx 11 [⟨100000000000, [0x51]⟩]]

theorem result_mints_out_of_nothing :
    BlockAccepted youngMainNet Bucket.empty StakeIndex.empty (regularNode 37) mintingBlock
        (UtxoViewpoint.new 1) ∧
      duePrize StakeIndex.empty mintingBlock = 0 ∧
      mintedValue mintingBlock 37 = 100000000000 := by
  decide +kernel

end FalconDraw.Chain
