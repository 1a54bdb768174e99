/-
FalconDraw.Mining.TemplateTheorems — the block that settles a draw, checked.

A template with a pending VDF result and nothing from the pool holds three
transactions: the coinbase with the bounty, the settlement and the result.
-/
import FalconDraw.Mining.Template
import FalconDraw.Draw.VdfTheorems
import FalconDraw.Chain.UtxoTheorems
import FalconDraw.Chain.ConservationTheorems

namespace FalconDraw.Mining

open Lib Wire Script Draw Chain List

/-! ## Scripts -/

theorem addData_length {data : Bytes} (hlo : 2 ≤ data.length) (hhi : data.length < 0x4c) :
    (addData data).length = data.length + 1 := by
  grind [addData]

theorem addData_length_le (data : Bytes) :
    1 ≤ (addData data).length ∧ (addData data).length ≤ data.length + 5 := by
  grind [addData, leBytes_length]

theorem digits_length_le : ∀ k n : Nat, (digits k n).length ≤ k
  | 0, _ => Nat.le_refl 0
  | k + 1, n => by
      rw [digits]
      split
      · exact Nat.zero_le _
      · exact Nat.succ_le_succ (digits_length_le k _)

theorem addInt64_length_le (n : Nat) : 1 ≤ (addInt64 n).length ∧ (addInt64 n).length ≤ 14 := by
  have hnum : (scriptNumBytes n).length ≤ 9 := by
    have := digits_length_le 8 n
    unfold scriptNumBytes
    dsimp only
    split
    · rw [length_append, length_singleton]
      omega
    · omega
  have hdata := addData_length_le (scriptNumBytes n)
  unfold addInt64
  split
  · decide
  · grind

theorem standardCoinbaseScript_length (h e : Nat) :
    minCoinbaseScriptLen ≤ (standardCoinbaseScript h e).length ∧
      (standardCoinbaseScript h e).length ≤ 44 := by
  have hh := addInt64_length_le h
  have he := addInt64_length_le e
  have hf := addData_length_le coinbaseFlags
  have hflags : coinbaseFlags.length = 11 := rfl
  simp only [standardCoinbaseScript, length_append, minCoinbaseScriptLen]
  omega

theorem payToAddrScript_length (addr : PayToAddress) :
    (payToAddrScript addr).length ≠ 10 ∧ (payToAddrScript addr).length ≤ 68 := by
  cases addr with
  | pubKeyHash h | scriptHash h | witnessPubKeyHash h | witnessScriptHash h | taproot h =>
    simp [payToAddrScript, addData_length]
  | payToAnchor p => simp [payToAddrScript, addData_length]
  | pubKey k => grind [payToAddrScript, addData_length]
  | anyone => decide

/-! ## The three transactions -/

section Transactions

variable (p : Params) (s : ChainState) (vdf : VDFResultData) (addr : PayToAddress)
  (ids : TemplateIds)

def drawCoinbase : Tx :=
  let h := s.tip.height + 1
  ⟨ids.coinbase, { createCoinbaseTx p (standardCoinbaseScript h 0) h addr with
    txOut := ⟨calcBlockSubsidy h p, payToAddrScript addr⟩ :: bountyOutputs s.idx vdf h }⟩

def drawSettlement : Tx :=
  ⟨ids.settlement, buildPoolDrawSettlementTx vdf.drawHeight (poolDrawData s.idx vdf)⟩

def drawVDFResult : Tx := ⟨ids.vdfResult, buildVDFResultTx vdf⟩

theorem templateDrawData_eq (idx : StakeIndex) :
    templateDrawData idx vdf = poolDrawData idx vdf := by
  unfold templateDrawData poolDrawData DrawResult.winnerWalletHash
  dsimp only
  rcases runDraw _ _ with ⟨jackpot, winners, _, _, _⟩
  cases jackpot <;> cases winners <;> rfl

theorem templateBlock_transactions (header : HeaderInfo)
    (hfunded : 0 < s.idx.reconstructPoolBalance vdf.drawHeight) :
    (templateBlock p s (some vdf) addr header ids [] 0).transactions =
      [drawCoinbase p s vdf addr ids, drawSettlement s vdf ids, drawVDFResult vdf ids] := by
  simp only [templateBlock, pendingParts, settlementTxs, if_pos hfunded, drawCoinbase,
    drawSettlement, drawVDFResult, createCoinbaseTx, map_cons, map_nil,
    templateDrawData_eq, Int64.add_zero]
  rfl

theorem drawCoinbase_isCoinBase : (drawCoinbase p s vdf addr ids).isCoinBase = true := by
  simp [Tx.isCoinBase, MsgTx.isCoinBase, drawCoinbase, createCoinbaseTx]

theorem drawSettlement_isCoinBase : (drawSettlement s vdf ids).isCoinBase = false := by
  simp [Tx.isCoinBase, MsgTx.isCoinBase, drawSettlement, buildPoolDrawSettlementTx,
    makePoolDrawSentinelInput, poolDrawSentinelOutpoint, maxPrevOutIndex]

theorem drawVDFResult_isCoinBase : (drawVDFResult vdf ids).isCoinBase = false := by
  simp [Tx.isCoinBase, MsgTx.isCoinBase, drawVDFResult, buildVDFResultTx, maxPrevOutIndex]

theorem drawCoinbase_isDrawSettlementTx :
    isDrawSettlementTx (drawCoinbase p s vdf addr ids) = false := by
  have hlen : ((payToAddrScript addr).length == 10) = false :=
    beq_eq_false_iff_ne.mpr (payToAddrScript_length addr).1
  simp [isDrawSettlementTx, drawCoinbase, extractDrawSettlementMarker, hlen]

theorem drawSettlement_isDrawSettlementTx (hD : vdf.drawHeight < 2 ^ 32) :
    isDrawSettlementTx (drawSettlement s vdf ids) = true := by
  simp [isDrawSettlementTx, drawSettlement, buildPoolDrawSettlementTx,
    extractDrawSettlementMarker_iff.mpr ⟨rfl, hD⟩]

theorem drawVDFResult_isDrawSettlementTx : isDrawSettlementTx (drawVDFResult vdf ids) = false := by
  have hlen : ((buildVDFResultOpReturn vdf).length == 10) = false := by
    rw [buildVDFResultOpReturn_length]
    rfl
  simp [isDrawSettlementTx, drawVDFResult, buildVDFResultTx, extractDrawSettlementMarker, hlen]

/-! ### Sanity -/

theorem varIntSerializeSize_le (n : Nat) : varIntSerializeSize n ≤ 9 := by
  grind [varIntSerializeSize]

theorem sanity_of_one_input {tx : Tx} {t : TxIn} (hin : tx.msgTx.txIn = [t])
    (hout : tx.msgTx.txOut ≠ []) (hsize : tx.msgTx.serializeSizeStripped ≤ maxBlockBaseSize)
    (hscript : tx.isCoinBase = true → minCoinbaseScriptLen ≤ t.signatureScript.length ∧
      t.signatureScript.length ≤ maxCoinbaseScriptLen)
    (hnull : tx.isCoinBase = false → isNullOutpoint t.previousOutPoint = false) :
    checkTransactionSanity tx = .ok () ↔ checkOutputValues 0 tx.msgTx.txOut = .ok () := by
  cases hcb : tx.isCoinBase with
  | true =>
    obtain ⟨hlo, hhi⟩ := hscript hcb
    simp [checkTransactionSanity, hin, hout, hcb, Nat.not_lt.mpr hsize, hlo, hhi]
  | false =>
    simp [checkTransactionSanity, hin, hout, hcb, Nat.not_lt.mpr hsize, hnull hcb]

theorem bountyOutputs_cases (idx : StakeIndex) (h : Nat) :
    bountyOutputs idx vdf h = [] ∨ bountyOutputs idx vdf h =
      [⟨calcVDFBounty h, makeWinnerP2WPKHScript vdf.submitterWalletHash⟩] := by
  grind [bountyOutputs]

theorem calcVDFBounty_range (h : Nat) :
    0 ≤ (calcVDFBounty h).toInt ∧ (calcVDFBounty h).toInt ≤ 10000000000 := by
  unfold calcVDFBounty
  split <;> decide

theorem makeWinnerP2WPKHScript_length (w : WalletHash) :
    (makeWinnerP2WPKHScript w).length = 22 := by
  simp [makeWinnerP2WPKHScript]

theorem drawCoinbase_sane : checkTransactionSanity (drawCoinbase p s vdf addr ids) = .ok () := by
  have hsig := standardCoinbaseScript_length (s.tip.height + 1) 0
  have haddr := (payToAddrScript_length addr).2
  have hsub := calcBlockSubsidy_range (s.tip.height + 1) p
  have hbounty := calcVDFBounty_range (s.tip.height + 1)
  have hmax := maxSatoshi_toInt
  refine (sanity_of_one_input rfl (cons_ne_nil _ _) ?_ (fun _ => ⟨hsig.1, ?_⟩)
    (fun h => nomatch (drawCoinbase_isCoinBase p s vdf addr ids).symm.trans h)).mpr ?_
  · have h1 := varIntSerializeSize_le (standardCoinbaseScript (s.tip.height + 1) 0).length
    have h2 := varIntSerializeSize_le (payToAddrScript addr).length
    have h3 := varIntSerializeSize_le
      (makeWinnerP2WPKHScript vdf.submitterWalletHash).length
    have h4 := makeWinnerP2WPKHScript_length vdf.submitterWalletHash
    rcases bountyOutputs_cases vdf s.idx (s.tip.height + 1) with hb | hb
    all_goals
      simp only [drawCoinbase, createCoinbaseTx, MsgTx.serializeSizeStripped, MsgTx.baseSize, hb,
        map_cons, map_nil, sum_cons, sum_nil, TxIn.serializeSize,
        TxOut.serializeSize, length_cons, length_nil, maxBlockBaseSize]
      have h5 := varIntSerializeSize_le (0 + 1)
      have h6 := varIntSerializeSize_le (0 + 1 + 1)
      omega
  · grind [maxCoinbaseScriptLen]
  · rcases bountyOutputs_cases vdf s.idx (s.tip.height + 1) with hb | hb
    all_goals
      refine checkOutputValues_of_sum (by decide) ?_ ?_
      · simp only [drawCoinbase, hb, forall_mem_cons]
        simp [hsub.1, hbounty.1]
      · simp only [drawCoinbase, hb, map_cons, map_nil, sumInt_cons, sumInt_nil,
          Int64.toInt_zero]
        omega

/-- The settlement passes the sanity check unless the prize is above the limit
for one output. -/
theorem drawSettlement_sane (hfunded : 0 < s.idx.reconstructPoolBalance vdf.drawHeight) :
    checkTransactionSanity (drawSettlement s vdf ids) = .ok () ↔
      ((poolDrawData s.idx vdf).jackpotWon = true →
        (poolDrawData s.idx vdf).balance ≤ maxSatoshi) := by
  have hpos : 0 < (poolDrawData s.idx vdf).balance.toInt := by
    rw [← Int64.toInt_zero]
    exact Int64.lt_iff_toInt_lt.mp hfunded
  have hsize : (drawSettlement s vdf ids).msgTx.serializeSizeStripped ≤ maxBlockBaseSize := by
    have hwin := makeWinnerP2WPKHScript_length (poolDrawData s.idx vdf).winnerWalletHash
    have hmark : (makeDrawSettlementMarker vdf.drawHeight).length = 10 := by
      simp [makeDrawSettlementMarker]
    have hsig : (0x04 :: beBytes 4 vdf.drawHeight).length = 5 := by simp
    simp only [drawSettlement, buildPoolDrawSettlementTx, MsgTx.serializeSizeStripped,
      MsgTx.baseSize, makePoolDrawSentinelInput]
    cases (poolDrawData s.idx vdf).jackpotWon
    all_goals
      simp [TxIn.serializeSize, TxOut.serializeSize, hwin, hmark, maxBlockBaseSize,
        varIntSerializeSize]
  rw [sanity_of_one_input rfl (cons_ne_nil _ _) hsize
    (fun h => absurd ((drawSettlement_isCoinBase s vdf ids).symm.trans h) (by decide)) (fun _ => rfl)]
  have hmax := maxSatoshi_toInt
  simp only [drawSettlement, buildPoolDrawSettlementTx, Int64.le_iff_toInt_le]
  cases (poolDrawData s.idx vdf).jackpotWon with
  | false =>
    refine ⟨fun _ h => absurd h Bool.false_ne_true, fun _ => ?_⟩
    rfl
  | true =>
    constructor
    · intro h _
      obtain ⟨hrange, _⟩ := checkOutputValues_ok (by decide) (by decide) h
      exact (hrange _ (mem_cons_of_mem _ mem_cons_self)).2
    · intro h
      have hle := h rfl
      refine checkOutputValues_of_sum (by decide) ?_ ?_
      · simp [hpos.le]
      · simpa using hle

theorem drawVDFResult_sane : checkTransactionSanity (drawVDFResult vdf ids) = .ok () := by
  have hlen := buildVDFResultOpReturn_length vdf
  refine (sanity_of_one_input rfl (cons_ne_nil _ _) ?_
    (fun h => nomatch (drawVDFResult_isCoinBase vdf ids).symm.trans h) (fun _ => rfl)).mpr rfl
  simp [drawVDFResult, buildVDFResultTx, MsgTx.serializeSizeStripped, MsgTx.baseSize,
    TxIn.serializeSize, TxOut.serializeSize, hlen, maxBlockBaseSize, varIntSerializeSize]

end Transactions

/-! ## The stages of the check -/

/-- A VDF result that was computed for a draw of this node's chain which has
money in its pool and is not settled. -/
structure PendingDraw (env : Env) (idx : StakeIndex) (node : BlockNode) (vdf : VDFResultData) :
    Prop where
  funded : 0 < idx.reconstructPoolBalance vdf.drawHeight
  isDraw : isDrawBlock vdf.drawHeight = true
  below : vdf.drawHeight < node.height
  height_lt : node.height < 2 ^ 31
  drawNode : ∃ drawNode, node.ancestor vdf.drawHeight = some drawNode ∧
    drawNode.hash = vdf.drawBlockHash ∧
    (exactTActive env.params vdf.drawHeight = true → vdf.T = expectedVDFT env.params drawNode)
  minT_le : vdfMinT ≤ vdf.T
  T_lt : vdf.T < 2 ^ 64
  unsettled : alreadySettled env idx node vdf.drawHeight = none
  evaluated : vdf.vdfOutput = slothEval vdf.drawBlockHash vdf.T (newVDFParams vdfPrime)
  residue : ResidueSeed vdfPrime vdf.drawBlockHash

/-- The ids of the template are new: no coin has one of them, and none is the
made-up outpoint the VDF result refers to. -/
structure FreshIds (utxos : UtxoSet) (vdf : VDFResultData) (ids : TemplateIds) : Prop where
  no_coin : ∀ id ∈ [ids.coinbase, ids.settlement, ids.vdfResult], ∀ i, utxos.get ⟨id, i⟩ = none
  no_sentinel : ∀ id ∈ [ids.coinbase, ids.settlement, ids.vdfResult],
    ∀ t ∈ (buildVDFResultTx vdf).txIn, t.previousOutPoint.hash ≠ id

section Stages

variable {env : Env} {s : ChainState} {vdf : VDFResultData} {addr : PayToAddress}
  {ids : TemplateIds} {node : BlockNode} {block : Block} {view : UtxoViewpoint}

theorem PendingDraw.drawHeight_lt (h : PendingDraw env s.idx node vdf) :
    vdf.drawHeight < 2 ^ 32 := by
  have := h.below
  have := h.height_lt
  omega

theorem PendingDraw.toInt32_drawHeight (h : PendingDraw env s.idx node vdf) :
    toInt32 vdf.drawHeight = vdf.drawHeight := by
  have := h.below
  have := h.height_lt
  exact Int.bmod_eq_of_le (by omega) (by omega)

theorem loadView_empty (node : BlockNode) (hfresh : FreshIds s.utxos vdf ids) (hD : vdf.drawHeight < 2 ^ 32)
    (htxs : block.transactions =
      [drawCoinbase env.params s vdf addr ids, drawSettlement s vdf ids, drawVDFResult vdf ids])
    (hash : Hash) :
    ∃ loaded, loadView env s.utxos node block (UtxoViewpoint.new hash) = .ok loaded ∧
      ∀ op, loaded.lookupEntry op = none := by
  -- settlement and result are the only transactions with inputs to load, and are passed over
  have hinputs : ∀ v : UtxoViewpoint, v.fetchInputUtxos s.utxos block = v := by
    intro v
    have hst := drawSettlement_isDrawSettlementTx s vdf ids hD
    have hvt : isVDFResultTx (drawVDFResult vdf ids) = true := rfl
    simp [UtxoViewpoint.fetchInputUtxos, UtxoViewpoint.findInputsToFetch, htxs,
      UtxoViewpoint.findInputsFrom, hst, hvt, UtxoViewpoint.fetchUtxosFromCache]
  have hnone : ∀ op ∈ createdOutPoints block.transactions, s.utxos.get op = none := by
    intro op hop
    simp only [createdOutPoints, htxs, mem_flatMap, mem_map] at hop
    obtain ⟨tx, htx, i, _, rfl⟩ := hop
    refine hfresh.no_coin tx.hash ?_ i
    simp only [mem_cons, not_mem_nil, or_false] at htx
    rcases htx with rfl | rfl | rfl <;> simp [drawCoinbase, drawSettlement, drawVDFResult]
  have hempty : ∀ op, ((UtxoViewpoint.new hash).fetchUtxos s.utxos
      (createdOutPoints block.transactions)).lookupEntry op = none := by
    intro op
    rw [UtxoViewpoint.lookupEntry, UtxoViewpoint.fetchUtxos,
      UtxoViewpoint.entry_fetchUtxosFromCache]
    split
    case isTrue hmem => simp [hnone op (mem_of_mem_filter hmem)]
    case isFalse => rfl
  unfold loadView
  cases bip0030CheckNeeded node env.params with
  | false =>
    refine ⟨UtxoViewpoint.new hash, ?_, fun _ => rfl⟩
    simp [hinputs, Bind.bind, Except.bind, Pure.pure, Except.pure]
  | true =>
    refine ⟨(UtxoViewpoint.new hash).fetchUtxos s.utxos (createdOutPoints block.transactions),
      ?_, hempty⟩
    simp only [if_true, checkBIP0030, bind_eq_ok, pure_eq_ok, exists_unit, forM_eq_ok]
    refine ⟨_, ⟨fun op _ => ?_, rfl⟩, hinputs _⟩
    rw [hempty op]

theorem countSigOps_drawCoinbase_le :
    countSigOps (drawCoinbase env.params s vdf addr ids) ≤ 20 * 200 := by
  have hsig := (standardCoinbaseScript_length (s.tip.height + 1) 0).2
  have haddr := (payToAddrScript_length addr).2
  have hwin := makeWinnerP2WPKHScript_length vdf.submitterWalletHash
  have h1 := getSigOpCount_le (standardCoinbaseScript (s.tip.height + 1) 0)
  have h2 := getSigOpCount_le (payToAddrScript addr)
  have h3 := getSigOpCount_le (makeWinnerP2WPKHScript vdf.submitterWalletHash)
  rw [maxPubKeysPerMultiSig] at h1 h2 h3
  rcases bountyOutputs_cases vdf s.idx (s.tip.height + 1) with hb | hb
  all_goals
    simp only [countSigOps, drawCoinbase, createCoinbaseTx, hb, map_cons, map_nil,
      sum_cons, sum_nil]
    omega

/-- Signature operations: those of the coinbase scripts, and none for a
transaction whose inputs are not in the view. -/
theorem checkSigOpCost_empty (hview : ∀ op, view.lookupEntry op = none) (witness : Bool) :
    checkSigOpCost view true witness true 0
      [drawCoinbase env.params s vdf addr ids, drawSettlement s vdf ids, drawVDFResult vdf ids]
        = .ok () := by
  have hcb : countSigOps (drawCoinbase env.params s vdf addr ids) ≤ 20 * 200 :=
    countSigOps_drawCoinbase_le
  have hcost : getSigOpCost (drawCoinbase env.params s vdf addr ids) true view true witness =
      .ok (countSigOps (drawCoinbase env.params s vdf addr ids) * 4) := by
    simp [getSigOpCost, witnessScaleFactor, Bind.bind, Except.bind, Pure.pure, Except.pure]
  have hfree : ∀ (tx : Tx) (t : TxIn) (ts : List TxIn), tx.msgTx.txIn = t :: ts →
      getSigOpCost tx false view true witness = .ok 0 := by
    intro tx t ts htx
    simp [getSigOpCost, htx, countP2SHSigOps, hview, Pure.pure, Except.pure]
  have hst := hfree (drawSettlement s vdf ids) _ _ rfl
  have hvt := hfree (drawVDFResult vdf ids) _ _ rfl
  have hpass : ∀ n, n ≤ 20 * 200 * 4 → (rejectIf (maxBlockSigOpsCost < n) (.rule .tooManySigOps
        ("block contains too many signature operations - got " ++ toString n)) : Check Unit)
        = .ok () := by
    grind [rejectIf_eq_ok, maxBlockSigOpsCost]
  simp only [checkSigOpCost, hcost, hst, hvt, bind_eq_ok, Except.ok.injEq, exists_eq_left']
  exact ⟨(), hpass _ (by omega), (), hpass _ (by omega), (), hpass _ (by omega), trivial⟩

theorem connectStep_free {tx : Tx} (hpaid : tx.isCoinBase = true ∨ isDrawSettlementTx tx = true ∨
      isVDFResultTx tx = true) (hstake : isPoolStakingTx tx = false)
    (hins : tx.isCoinBase = false → isVDFResultTx tx = false →
      tx.msgTx.txIn.all isPoolDrawSentinelInput = true) :
    connectStep env node ⟨view, 0, []⟩ tx = .ok ⟨view.addTxOuts tx node.height, 0, []⟩ := by
  have hfee : checkTransactionInputs tx node.height view env.params = .ok 0 := by
    grind [checkTransactionInputs]
  have hskip : ∀ ts : List TxIn, ts.all isPoolDrawSentinelInput = true →
      view.spendInputs ts = .ok (view, []) := by
    intro ts
    induction ts with
    | nil => intro _; rfl
    | cons t ts ih => grind [UtxoViewpoint.spendInputs]
  have hconn : view.connectTransaction tx node.height =
      .ok (view.addTxOuts tx node.height, []) := by
    unfold UtxoViewpoint.connectTransaction
    cases hcb : tx.isCoinBase with
    | true => rfl
    | false =>
      cases hv : isVDFResultTx tx with
      | true => rfl
      | false =>
        simp [hskip _ (hins hcb hv), Bind.bind, Except.bind, Pure.pure, Except.pure]
  simp only [connectStep, bind_eq_ok, exists_unit, checkWhen_eq_ok, hstake, Bool.false_eq_true,
    false_imp_iff, rejectIf_eq_ok, pure_eq_ok, hfee, Except.ok.injEq, exists_eq_left', hconn,
    true_and]
  exact ⟨by decide, rfl⟩

theorem connectLoop_eq (hD : vdf.drawHeight < 2 ^ 32) :
    [drawCoinbase env.params s vdf addr ids, drawSettlement s vdf ids,
        drawVDFResult vdf ids].foldlM (connectStep env node) ⟨view, 0, []⟩ =
      .ok ⟨((view.addTxOuts (drawCoinbase env.params s vdf addr ids) node.height).addTxOuts
        (drawSettlement s vdf ids) node.height).addTxOuts (drawVDFResult vdf ids) node.height,
        0, []⟩ := by
  have hsentinel : (drawSettlement s vdf ids).msgTx.txIn.all isPoolDrawSentinelInput = true := by
    simp [drawSettlement, buildPoolDrawSettlementTx, makePoolDrawSentinelInput_sentinel]
  simp only [foldlM_cons, foldlM_nil, bind_eq_ok, pure_eq_ok]
  refine ⟨_, connectStep_free (.inl ?_) rfl ?_, _,
    connectStep_free (.inr (.inl ?_)) rfl fun _ _ => hsentinel, _,
    connectStep_free (.inr (.inr rfl)) rfl ?_, rfl⟩
  · exact drawCoinbase_isCoinBase _ _ _ _ _
  · simp [drawCoinbase_isCoinBase]
  · exact drawSettlement_isDrawSettlementTx _ _ _ hD
  · intro _ h
    cases h

theorem checkVDFResult_pending (h : PendingDraw env s.idx node vdf) :
    checkVDFResult env s.idx node (drawVDFResult vdf ids) = .ok vdf := by
  have hT : 1 ≤ vdf.T := le_trans (by decide) h.minT_le
  have hout : vdf.vdfOutput < 2 ^ 2048 := by
    rw [h.evaluated]
    exact slothEval_lt _ hT
  have hdata : extractVDFResultData (drawVDFResult vdf ids) = .ok vdf :=
    extractVDFResultData_build h.drawHeight_lt h.T_lt hout ids.vdfResult
  have hsloth : slothVerify vdf.drawBlockHash vdf.vdfOutput vdf.T (newVDFParams vdfPrime) = true := by
    rw [h.evaluated]
    exact slothVerify_slothEval (by decide +kernel) h.residue hT
  obtain ⟨drawNode, hanc, hhash, hexact⟩ := h.drawNode
  have hproof : checkVDFProof env s.idx node drawNode vdf = .ok () := by
    simp only [checkVDFProof, bind_eq_ok, exists_unit, rejectIf_eq_ok, h.unsettled, hsloth]
    exact ⟨not_not.mpr hhash, fun h => h.2 (hexact h.1), by decide⟩
  have hbelow : ¬ (node.height : Int) ≤ vdf.drawHeight := by
    have := h.below
    omega
  simp only [checkVDFResult, hdata, bind_eq_ok, exists_unit, rejectIf_eq_ok,
    h.toInt32_drawHeight, hanc, h.isDraw, hproof, pure_eq_ok]
  exact ⟨not_lt.mpr h.minT_le, by decide, hbelow, trivial, trivial⟩

theorem validateVDFSettlement_pending (h : PendingDraw env s.idx node vdf)
    (hheight : node.height = s.tip.height + 1) (htxs : block.transactions =
      [drawCoinbase env.params s vdf addr ids, drawSettlement s vdf ids, drawVDFResult vdf ids]) :
    validateVDFSettlement env s.idx node block =
      .ok (vdfBountyOwed node.height (poolDrawData s.idx vdf) vdf.submitterWalletHash) := by
  have hfunded : 0 < (poolDrawData s.idx vdf).balance := h.funded
  have hbal : (poolDrawData s.idx vdf).balance ≠ 0 := by
    grind
  have hvalid : validateDrawSettlementTx (drawSettlement s vdf ids) vdf.drawHeight
      (poolDrawData s.idx vdf) = .ok () :=
    validateDrawSettlementTx_build h.drawHeight_lt hbal ids.settlement
  have hfind : block.transactions.find? isVDFResultTx = some (drawVDFResult vdf ids) := by
    rw [htxs]
    rfl
  have hpays : vdf.submitterWalletHash ≠ 0 → paysBounty block.transactions.head?
      (vdfBountyOwed node.height (poolDrawData s.idx vdf) vdf.submitterWalletHash)
      vdf.submitterWalletHash = true := by
    intro hsub
    have hout : bountyOutputs s.idx vdf node.height =
        [⟨calcVDFBounty node.height, makeWinnerP2WPKHScript vdf.submitterWalletHash⟩] :=
      if_pos ⟨h.funded, hsub⟩
    have howed : vdfBountyOwed node.height (poolDrawData s.idx vdf) vdf.submitterWalletHash =
        calcVDFBounty node.height := if_pos ⟨hfunded, hsub⟩
    simp [paysBounty, htxs, drawCoinbase, howed, ← hheight, hout]
  have hdraw : validateVDFDrawTxs block.transactions vdf.drawHeight (poolDrawData s.idx vdf)
      = .ok () := by
    simp only [validateVDFDrawTxs, htxs, checkSettlementTxs, drawCoinbase_isDrawSettlementTx,
      drawSettlement_isDrawSettlementTx _ _ _ h.drawHeight_lt, drawVDFResult_isDrawSettlementTx,
      hvalid, Bool.false_eq_true, if_false, if_true, bind_eq_ok,
      exists_unit, rejectIf_eq_ok]
    exact ⟨1, by simp, by simp⟩
  simp only [validateVDFSettlement, hfind, checkVDFResult_pending h, hdraw, bind_eq_ok,
    exists_unit, rejectIf_eq_ok, pure_eq_ok, Except.ok.injEq, exists_eq_left']
  refine ⟨?_, trivial, trivial⟩
  rintro ⟨_, hsub, hmissing⟩
  rw [hpays hsub] at hmissing
  cases hmissing

theorem foldl_bountyOutputs (idx : StakeIndex) (vdf : VDFResultData) (h : Nat) (a : Int64) :
    ((bountyOutputs idx vdf h).map TxOut.value).foldl (· + ·) a =
      a + vdfBountyOwed h (poolDrawData idx vdf) vdf.submitterWalletHash := by
  have hbal : (poolDrawData idx vdf).balance = idx.reconstructPoolBalance vdf.drawHeight := rfl
  rw [bountyOutputs, vdfBountyOwed, hbal]
  split <;> simp

theorem checkCoinbaseValue_pending (hheight : node.height = s.tip.height + 1)
    (htxs : block.transactions =
      [drawCoinbase env.params s vdf addr ids, drawSettlement s vdf ids, drawVDFResult vdf ids]) :
    checkCoinbaseValue env node block 0
      (vdfBountyOwed node.height (poolDrawData s.idx vdf) vdf.submitterWalletHash) = .ok () := by
  have hpaid : sum64 ((drawCoinbase env.params s vdf addr ids).msgTx.txOut.map TxOut.value) =
      calcBlockSubsidy node.height env.params + 0 +
        vdfBountyOwed node.height (poolDrawData s.idx vdf) vdf.submitterWalletHash := by
    rw [← foldl_bountyOutputs, hheight, sum64, drawCoinbase, map_cons, foldl_cons,
      Int64.zero_add, Int64.add_zero]
  rw [checkCoinbaseValue, rejectIf_eq_ok, htxs, head?_cons, Option.map_some,
    Option.getD_some, hpaid]
  exact Int64.lt_irrefl

theorem checkBlockScripts_pending (flags : ScriptFlags) (v : UtxoViewpoint) :
    checkBlockScripts env flags v
      [drawCoinbase env.params s vdf addr ids, drawSettlement s vdf ids, drawVDFResult vdf ids]
        = .ok () := by
  have hsent := makePoolDrawSentinelInput_sentinel vdf.drawHeight
  have hvt : isVDFResultTx (drawVDFResult vdf ids) = true := rfl
  simp only [checkBlockScripts, forM_eq_ok, forall_mem_cons]
  refine ⟨?_, ?_, ?_, by simp⟩
  · simp [drawCoinbase, createCoinbaseTx, checkInputScript]
  · simp [drawSettlement, buildPoolDrawSettlementTx, checkInputScript, hsent]
  · simp [checkInputScript, hvt]

/-- With the sequence lock rule on, the VDF result is a version 2 transaction
whose input does not exist. -/
theorem checkSequenceLock_drawVDFResult (hfresh : FreshIds s.utxos vdf ids)
    (hview : ∀ op, view.lookupEntry op = none) (height : Nat) :
    checkSequenceLock node (((view.addTxOuts (drawCoinbase env.params s vdf addr ids)
      height).addTxOuts (drawSettlement s vdf ids) height).addTxOuts (drawVDFResult vdf ids)
      height) (drawVDFResult vdf ids) ≠ .ok () := by
  obtain ⟨t, ht⟩ : ∃ t, (buildVDFResultTx vdf).txIn = [t] := ⟨_, rfl⟩
  have hno : ∀ id ∈ [ids.coinbase, ids.settlement, ids.vdfResult],
      t.previousOutPoint.hash ≠ id := fun id hid => hfresh.no_sentinel id hid t (by simp [ht])
  have hskip : ∀ (v : UtxoViewpoint) (tx : Tx), t.previousOutPoint.hash ≠ tx.hash →
      (v.addTxOuts tx height).lookupEntry t.previousOutPoint =
        v.lookupEntry t.previousOutPoint := by
    grind [UtxoViewpoint.lookupEntry, UtxoViewpoint.entry_addTxOuts, outputCoin]
  have hlook : (((view.addTxOuts (drawCoinbase env.params s vdf addr ids) height).addTxOuts
      (drawSettlement s vdf ids) height).addTxOuts (drawVDFResult vdf ids) height).lookupEntry
        t.previousOutPoint = none := by
    rw [hskip _ _ (hno _ (by simp [drawVDFResult])), hskip _ _ (hno _ (by simp [drawSettlement])),
      hskip _ _ (hno _ (by simp [drawCoinbase])), hview]
  have hins : (drawVDFResult vdf ids).msgTx.txIn = [t] := ht
  have hlocked : ¬ (decide (((drawVDFResult vdf ids).msgTx.version % 2 ^ 32).toNat < 2) ||
      (drawVDFResult vdf ids).isCoinBase) = true := by
    rw [drawVDFResult_isCoinBase, Bool.or_false]
    show ¬ decide ((txVersionVDFResult % 2 ^ 32).toNat < 2) = true
    decide
  intro hok
  simp only [checkSequenceLock, calcSequenceLock, if_neg hlocked, hins, sequenceLockInputs, hlook,
    bind_eq_ok, reduceCtorEq, false_and, exists_false] at hok

end Stages

/-! ## The whole check -/

/-- The block passes `checkConnectBlock` exactly when the sequence lock rule is
not active. -/
theorem accepts_settling_iff {env : Env} {s : ChainState} {vdf : VDFResultData}
    {addr : PayToAddress} {ids : TemplateIds} {block : Block}
    (hprev : block.header.prevBlock = s.tip.hash) (htxs : block.transactions =
      [drawCoinbase env.params s vdf addr ids, drawSettlement s vdf ids, drawVDFResult vdf ids])
    (hdraw : PendingDraw env s.idx (s.tip.child block) vdf) (hfresh : FreshIds s.utxos vdf ids)
    (hhash : block.hash ≠ env.params.genesisHash)
    (htime : bip16Activation ≤ block.header.timestamp) :
    Accepts (checkConnectBlock env s.utxos s.idx (s.tip.child block) block
        (UtxoViewpoint.new s.tip.hash)) ↔
      env.deployments .csv s.tip.chain = false := by
  have hheight : (s.tip.child block).height = s.tip.height + 1 := child_height s.tip
  have hflags : (scriptFlags env (s.tip.child block) block).bip16 = true := decide_eq_true htime
  obtain ⟨loaded, hload, hempty⟩ :=
    loadView_empty (s.tip.child block) hfresh hdraw.drawHeight_lt htxs s.tip.hash
  have hpre : checkConnectPrefix env s.utxos (s.tip.child block) block
      (UtxoViewpoint.new s.tip.hash) = .ok loaded := by
    simp only [checkConnectPrefix, bind_eq_ok, exists_unit, rejectIf_eq_ok, pure_eq_ok, hload,
      Except.ok.injEq, exists_eq_left', hflags, htxs, checkSigOpCost_empty hempty, and_true]
    exact ⟨hhash, not_not.mpr hprev.symm⟩
  have hloop : block.transactions.foldlM (connectStep env (s.tip.child block)) ⟨loaded, 0, []⟩ =
      .ok ⟨((loaded.addTxOuts (drawCoinbase env.params s vdf addr ids)
        (s.tip.child block).height).addTxOuts (drawSettlement s vdf ids)
        (s.tip.child block).height).addTxOuts (drawVDFResult vdf ids) (s.tip.child block).height,
        0, []⟩ := by
    rw [htxs]
    exact connectLoop_eq hdraw.drawHeight_lt
  rw [accepts_checkConnectBlock]
  constructor
  · rintro ⟨loaded', s', hpre', hloop', hsuf⟩
    obtain rfl : loaded = loaded' := Except.ok.inj (hpre.symm.trans hpre')
    obtain rfl := Except.ok.inj (hloop.symm.trans hloop')
    obtain ⟨_, _, _, hlocks, _⟩ := checkConnectSuffix_ok.mp hsuf
    rw [Bool.eq_false_iff]
    intro hcsv
    refine checkSequenceLock_drawVDFResult hfresh hempty _ (hlocks hcsv _ ?_)
    rw [htxs]
    simp
  · intro hcsv
    refine ⟨loaded, _, hpre, hloop, checkConnectSuffix_ok.mpr ⟨_,
      validateVDFSettlement_pending hdraw hheight htxs,
      checkCoinbaseValue_pending hheight htxs, fun hseq => ?_, fun _ => ?_⟩⟩
    · have hact : env.deployments .csv s.tip.chain = true := hseq
      rw [hcsv] at hact
      cases hact
    · rw [htxs]
      exact checkBlockScripts_pending _ _

/-- The block a template makes of a pending VDF result for a funded draw, with
nothing from the pool, passes every check if and only if the sequence lock rule
is not active and a prize that is paid out is within the limit of one output.
And whatever settlement is accepted with such a VDF result has the outputs of the
one the template builds. -/
theorem funded_draw_settles_iff (env : Env) (s : ChainState) (vdf : VDFResultData)
    (addr : PayToAddress) (header : HeaderInfo) (ids : TemplateIds) (hdraw : PendingDraw env s.idx
      (s.tip.child (templateBlock env.params s (some vdf) addr header ids [] 0)) vdf)
    (hfresh : FreshIds s.utxos vdf ids) (hhash : header.hash ≠ env.params.genesisHash)
    (htime : bip16Activation ≤ header.timestamp) :
    (((∀ tx ∈ (templateBlock env.params s (some vdf) addr header ids [] 0).transactions,
        checkTransactionSanity tx = .ok ()) ∧
      Accepts (checkConnectBlock env s.utxos s.idx
        (s.tip.child (templateBlock env.params s (some vdf) addr header ids [] 0))
        (templateBlock env.params s (some vdf) addr header ids [] 0)
        (UtxoViewpoint.new s.tip.hash))) ↔
      (env.deployments .csv s.tip.chain = false ∧ ((templateDrawData s.idx vdf).jackpotWon = true →
          (templateDrawData s.idx vdf).balance ≤ maxSatoshi))) ∧
    (∀ (utxos : UtxoSet) (node : BlockNode) (block : Block) (view : UtxoViewpoint) (vdfTx tx : Tx),
      Accepts (checkConnectBlock env utxos s.idx node block view) →
      block.transactions.find? isVDFResultTx = some vdfTx →
      extractVDFResultData vdfTx = .ok vdf → tx ∈ block.transactions →
      isDrawSettlementTx tx = true →
      tx.msgTx.txOut =
        (buildPoolDrawSettlementTx vdf.drawHeight (templateDrawData s.idx vdf)).txOut) := by
  have htxs := templateBlock_transactions env.params s vdf addr ids header hdraw.funded
  rw [templateDrawData_eq]
  constructor
  · rw [accepts_settling_iff rfl htxs hdraw hfresh hhash htime, htxs]
    simp only [forall_mem_cons, drawCoinbase_sane, drawVDFResult_sane,
      drawSettlement_sane _ _ _ hdraw.funded, true_and]
    simp [and_comm]
  · intro utxos node block view vdfTx tx hacc hfind hdata htx hset
    obtain ⟨_, _, _, _, hsuf⟩ := accepts_checkConnectBlock.mp hacc
    obtain ⟨bounty, hsettle, _⟩ := checkConnectSuffix_ok.mp hsuf
    obtain ⟨vdfTx', d, hfind', hd, hvalid⟩ := settlement_validated hsettle htx hset
    obtain rfl : vdfTx = vdfTx' := Option.some.inj (hfind.symm.trans hfind')
    obtain rfl : vdf = d := Except.ok.inj (hdata.symm.trans (checkVDFResult_extracts hd))
    exact outputs_of_validated hvalid

/-- The VDF result for draw 36 of the small chain, submitted by wallet 5. -/
def draw36Result : VDFResultData := ⟨36, 1, 10, 1, 5⟩

def draw36State : ChainState := ⟨regularNode 36, Bucket.empty, stakedIndex 100000000⟩

def draw36Block : Block :=
  templateBlock youngMainNet.params draw36State (some draw36Result) .anyone (regularInfo 37)
    ⟨20, 21, 22⟩ [] 0

theorem draw36_pending :
    PendingDraw youngMainNet draw36State.idx (draw36State.tip.child draw36Block) draw36Result :=
  { funded := by decide +kernel
    isDraw := by decide
    below := by decide +kernel
    height_lt := by decide +kernel
    drawNode := ⟨regularNode 36, by decide +kernel, by decide +kernel, by decide⟩
    minT_le := by decide
    T_lt := by decide
    unsettled := by decide +kernel
    evaluated := (slothEval_one (by decide +kernel) 10).symm
    residue := by decide +kernel }

theorem draw36_fresh : FreshIds draw36State.utxos draw36Result ⟨20, 21, 22⟩ := by
  refine ⟨fun _ _ _ => rfl, ?_⟩
  intro id hid t ht
  obtain rfl := mem_singleton.mp ht
  simp only [mem_cons, not_mem_nil, or_false] at hid
  rcases hid with rfl | rfl | rfl <;> decide +kernel

/-- Wallet 1 wins its FDRW back, and the submitter is paid. -/
theorem draw36_settles : Accepts (checkConnectBlock youngMainNet draw36State.utxos draw36State.idx
      (draw36State.tip.child draw36Block) draw36Block
      (UtxoViewpoint.new draw36State.tip.hash)) :=
  ((funded_draw_settles_iff youngMainNet draw36State draw36Result .anyone (regularInfo 37)
    ⟨20, 21, 22⟩ draw36_pending draw36_fresh (by decide +kernel) (by decide)).1.mpr
    ⟨by decide, by decide +kernel⟩).2

def lockedMainNet : Env :=
  { youngMainNet with deployments := fun d _ => d = .segwit ∨ d = .csv }

set_option maxRecDepth 4000 in
/-- With that rule active the run is accepted up to the block of draw 108. The
template with the settlement of the two staked FDRW is not. -/
theorem locked_draw_not_settled :
    ∃ s, runBlocks lockedMainNet (genesisState (lateInfo 0)) stakedRun = .ok s ∧
      0 < s.idx.reconstructPoolBalance 108 ∧ s.idx.vdfResults.get 108 = none ∧
      (s.tip.ancestor 108).map BlockNode.hash = some 1 ∧
      1 = slothEval 1 10 (newVDFParams vdfPrime) ∧
      ¬ Accepts (checkConnectBlock lockedMainNet s.utxos s.idx
        (s.tip.child (templateBlock mainNetParams s (some ⟨108, 1, 10, 1, 5⟩) .anyone
          (lateInfo 109) ⟨20, 21, 22⟩ [] 0))
        (templateBlock mainNetParams s (some ⟨108, 1, 10, 1, 5⟩) .anyone (lateInfo 109)
          ⟨20, 21, 22⟩ [] 0)
        (UtxoViewpoint.new s.tip.hash)) := by
  have hone : 1 = slothEval 1 10 (newVDFParams vdfPrime) :=
    (slothEval_one (by decide +kernel) 10).symm
  simp only [hone.symm, true_and]
  decide +kernel

end FalconDraw.Mining
