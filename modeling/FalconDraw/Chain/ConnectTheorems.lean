/-
FalconDraw.Chain.ConnectTheorems — what `checkConnectBlock` accepting means.

One inversion lemma per stage.
-/
import FalconDraw.Chain.Connect
import FalconDraw.Draw.PoolStakeTheorems
import FalconDraw.Draw.SettlementTheorems

namespace FalconDraw.Chain

open Lib Wire Draw

variable {env : Env} {utxos : UtxoSet} {idx : StakeIndex} {node : BlockNode} {block : Block}
  {view : UtxoViewpoint}

variable {s : ConnectState} {bounty : Int64}

/-- The block passed the context-free checks and `checkConnectBlock`. -/
def BlockAccepted (env : Env) (utxos : UtxoSet) (idx : StakeIndex) (node : BlockNode)
    (block : Block) (view : UtxoViewpoint) : Prop :=
  checkBlockSanity block = .ok () ∧ Accepts (checkConnectBlock env utxos idx node block view)

instance : Decidable (BlockAccepted env utxos idx node block view) :=
  inferInstanceAs (Decidable (_ ∧ _))

def stepView (height : Nat) (view : UtxoViewpoint) (tx : Tx) : UtxoViewpoint :=
  match view.connectTransaction tx height with
  | .ok (view', _) => view'
  | .error _ => view

theorem checkConnectBlock_ok {r : UtxoViewpoint × List SpentTxOut}
    (h : checkConnectBlock env utxos idx node block view = .ok r) :
    ∃ loaded s, checkConnectPrefix env utxos node block view = .ok loaded ∧
      block.transactions.foldlM (connectStep env node) ⟨loaded, 0, []⟩ = .ok s ∧
      checkConnectSuffix env idx node block s = .ok () ∧
      r = ({ s.view with bestHash := node.hash }, s.stxos) := by
  simp only [checkConnectBlock, bind_eq_ok, exists_unit, pure_eq_ok] at h
  obtain ⟨loaded, hpre, s, hloop, hsuf, hr⟩ := h
  exact ⟨loaded, s, hpre, hloop, hsuf, hr.symm⟩

theorem accepts_checkConnectBlock : Accepts (checkConnectBlock env utxos idx node block view) ↔
      ∃ loaded s, checkConnectPrefix env utxos node block view = .ok loaded ∧
        block.transactions.foldlM (connectStep env node) ⟨loaded, 0, []⟩ = .ok s ∧
        checkConnectSuffix env idx node block s = .ok () := by
  constructor
  · rintro ⟨r, h⟩
    obtain ⟨loaded, s, hpre, hloop, hsuf, _⟩ := checkConnectBlock_ok h
    exact ⟨loaded, s, hpre, hloop, hsuf⟩
  · rintro ⟨loaded, s, hpre, hloop, hsuf⟩
    refine ⟨({ s.view with bestHash := node.hash }, s.stxos), ?_⟩
    simp only [checkConnectBlock, bind_eq_ok, exists_unit, pure_eq_ok]
    exact ⟨loaded, hpre, s, hloop, hsuf, rfl⟩

theorem checkConnectSuffix_ok : checkConnectSuffix env idx node block s = .ok () ↔
      ∃ bounty, validateVDFSettlement env idx node block = .ok bounty ∧
        checkCoinbaseValue env node block s.totalFees bounty = .ok () ∧
        ((scriptFlags env node block).checkSequence = true →
          ∀ tx ∈ block.transactions, checkSequenceLock node s.view tx = .ok ()) ∧
        (runScripts env node = true →
          checkBlockScripts env (scriptFlags env node block) s.view block.transactions
            = .ok ()) := by
  simp only [checkConnectSuffix, bind_eq_ok, exists_unit, checkWhen_eq_ok, forM_eq_ok]

theorem connectStep_ok {s' : ConnectState} {tx : Tx} (h : connectStep env node s tx = .ok s') :
    ∃ fee spent, checkTransactionInputs tx node.height s.view env.params = .ok fee ∧
      (isPoolStakingTx tx = true → validatePoolStakeTx tx node.height (some s.view) = .ok ()) ∧
      ¬ s.totalFees + fee < s.totalFees ∧
      s.view.connectTransaction tx node.height = .ok (s'.view, spent) ∧
      s'.totalFees = s.totalFees + fee ∧ s'.stxos = s.stxos ++ spent := by
  simp only [connectStep, bind_eq_ok, exists_unit, checkWhen_eq_ok, rejectIf_eq_ok, pure_eq_ok] at h
  obtain ⟨fee, hfee, hstake, hover, ⟨view', spent⟩, hconn, rfl⟩ := h
  exact ⟨fee, spent, hfee, hstake, hover, hconn, rfl, rfl⟩

theorem connectStep_view {s' : ConnectState} {tx : Tx}
    (h : connectStep env node s tx = .ok s') : s'.view = stepView node.height s.view tx := by
  obtain ⟨_, _, _, _, _, hconn, _, _⟩ := connectStep_ok h
  simp [stepView, hconn]

/-- What every accepted round gives, the accepted loop gives of each transaction,
for some view it was checked against. -/
theorem connectLoop_mem : ∀ {txs : List Tx} {s s' : ConnectState} {tx : Tx},
    txs.foldlM (connectStep env node) s = .ok s' → tx ∈ txs →
    ∃ s₁ s₂, connectStep env node s₁ tx = .ok s₂
  | [], s, s', tx, _, htx => by simp at htx
  | t :: txs, s, s', tx, h, htx => by
      simp only [List.foldlM_cons, bind_eq_ok] at h
      obtain ⟨s₁, h₁, h₂⟩ := h
      rcases List.mem_cons.mp htx with rfl | htx
      · exact ⟨s, s₁, h₁⟩
      · exact connectLoop_mem h₂ htx

/-! ## VDF result and settlement -/

theorem validateVDFSettlement_none (hv : block.transactions.find? isVDFResultTx = none)
    (h : validateVDFSettlement env idx node block = .ok bounty) :
    (∀ tx ∈ block.transactions, isDrawSettlementTx tx = false) ∧ bounty = 0 := by
  simp only [validateVDFSettlement, hv, bind_eq_ok, exists_unit, rejectIf_eq_ok, pure_eq_ok] at h
  obtain ⟨hnone, rfl⟩ := h
  exact ⟨by simpa using hnone, rfl⟩

/-- A block with VDF results: the first one is checked, and the settlement is
checked against the pool of its draw. -/
theorem validateVDFSettlement_some {vdfTx : Tx}
    (hv : block.transactions.find? isVDFResultTx = some vdfTx)
    (h : validateVDFSettlement env idx node block = .ok bounty) :
    ∃ d, checkVDFResult env idx node vdfTx = .ok d ∧
      validateVDFDrawTxs block.transactions d.drawHeight (poolDrawData idx d) = .ok () ∧
      bounty = vdfBountyOwed node.height (poolDrawData idx d) d.submitterWalletHash := by
  simp only [validateVDFSettlement, hv, bind_eq_ok, exists_unit, rejectIf_eq_ok, pure_eq_ok] at h
  obtain ⟨d, hd, _, hdraw, hb⟩ := h
  exact ⟨d, hd, hdraw, hb.symm⟩

/-- Every settlement of an accepted block passed `ValidateDrawSettlementTx`
against the pool of the draw the block settles. -/
theorem settlement_validated {tx : Tx}
    (h : validateVDFSettlement env idx node block = .ok bounty) (htx : tx ∈ block.transactions)
    (hset : isDrawSettlementTx tx = true) :
    ∃ vdfTx d, block.transactions.find? isVDFResultTx = some vdfTx ∧
      checkVDFResult env idx node vdfTx = .ok d ∧
      validateDrawSettlementTx tx d.drawHeight (poolDrawData idx d) = .ok () := by
  cases hv : block.transactions.find? isVDFResultTx with
  | none =>
    obtain ⟨hnone, _⟩ := validateVDFSettlement_none hv h
    simp [hnone tx htx] at hset
  | some vdfTx =>
    obtain ⟨d, hd, hdraw, _⟩ := validateVDFSettlement_some hv h
    exact ⟨vdfTx, d, rfl, hd, (validateVDFDrawTxs_ok hdraw).1 tx htx hset⟩

/-! ## A small chain -/

/-- The main network, with signature checks that accept every signature and a
key hash that is always 1. -/
def youngMainNet : Env :=
  { params := mainNetParams
    deployments := fun d _ => d = .segwit
    latestCheckpoint := none
    vdfFormatCutoff := 1
    runScript := fun _ _ _ _ _ => true
    schnorrKey := fun _ key _ => some key
    hash160 := fun _ => 1 }

/-- The header at height `h`, ten minutes a block; the block at height 36 has
hash 1. -/
def regularInfo (h : Nat) : HeaderInfo :=
  { hash := if h = 0 then mainNetParams.genesisHash else if h = 36 then 1
      else BitVec.ofNat 256 (1000 + h)
    version := 4
    timestamp := 1750000000 + 600 * h
    bits := 0x1d00ffff }

/-- The headers below height `h`, nearest first. -/
def regularChain : Nat → List HeaderInfo
  | 0 => []
  | h + 1 => regularInfo h :: regularChain h

def regularNode (h : Nat) : BlockNode := ⟨regularInfo h, regularChain h⟩

/-- The block of `regularNode h`, with these transactions. -/
def regularBlock (h : Nat) (txs : List Tx) : Block :=
  { hash := (regularInfo h).hash
    header := ⟨4, (regularInfo (h - 1)).hash, (regularInfo h).timestamp, 0x1d00ffff⟩
    transactions := txs
    height := h }

def coinbaseTx (hash : Hash) (outs : List TxOut) : Tx :=
  { hash := hash
    msgTx :=
      { version := txVersion
        txIn := [{ previousOutPoint := ⟨0, maxPrevOutIndex⟩, signatureScript := [0x51, 0x51] }]
        txOut := outs } }

def idleCoinbase : Tx := coinbaseTx 9 [⟨0, [0x6a]⟩]

end FalconDraw.Chain
