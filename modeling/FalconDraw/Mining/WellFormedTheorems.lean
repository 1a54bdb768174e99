/-
FalconDraw.Mining.WellFormedTheorems — the form of a returned template.

The block a template holds is the coinbase, the transactions of the draw and what
was selected.
-/
import FalconDraw.Mining.SelectionTheorems
import FalconDraw.Mining.TemplateTheorems

namespace FalconDraw.Mining

open Lib Wire Draw Chain List

variable {π : Type}

/-! ## Weights -/

theorem getTransactionWeight_of_no_witness {m : MsgTx} (h : m.hasWitness = false) :
    getTransactionWeight m = 4 * m.serializeSizeStripped := by
  rw [getTransactionWeight, MsgTx.serializeSize, if_neg (by simp [h]), witnessScaleFactor,
    MsgTx.serializeSizeStripped]
  omega

theorem getBlockWeight_eq (block : Block) : getBlockWeight block =
    4 * (blockHeaderLen + varIntSerializeSize block.transactions.length) +
      (block.transactions.map fun tx => getTransactionWeight tx.msgTx).sum := by
  have hsum : (block.transactions.map fun tx => getTransactionWeight tx.msgTx).sum =
      (block.transactions.map fun tx => tx.msgTx.serializeSizeStripped).sum * 3 +
        (block.transactions.map fun tx => tx.msgTx.serializeSize).sum := by
    induction block.transactions with
    | nil => rfl
    | cons tx txs ih => grind [getTransactionWeight, witnessScaleFactor]
  rw [hsum, getBlockWeight, Block.serializeSizeStripped, Block.serializeSize, witnessScaleFactor]
  omega

theorem getBlockWeight_of_no_witness {block : Block}
    (h : ∀ tx ∈ block.transactions, tx.msgTx.hasWitness = false) :
    getBlockWeight block = 4 * block.serializeSizeStripped := by
  have hsize : block.serializeSize = block.serializeSizeStripped := by
    rw [Block.serializeSize, Block.serializeSizeStripped]
    congr 2
    refine map_congr_left fun tx htx => ?_
    rw [MsgTx.serializeSize, if_neg (by simp [h tx htx])]
    rfl
  rw [getBlockWeight, hsize, witnessScaleFactor]
  omega

theorem weight_withCommitment {m : MsgTx} {t : TxIn} {item script : Bytes} (hin : m.txIn = [t])
    (hw : t.witness = []) (hout : m.txOut.length < 0xfc) (hitem : item.length = 32)
    (hscript : script.length = 38) :
    getTransactionWeight (withCommitment m item script) = getTransactionWeight m + 224 := by
  have hbase : (withCommitment m item script).baseSize = m.baseSize + 47 := by
    have hcount : varIntSerializeSize (m.txOut.length + 1) = varIntSerializeSize m.txOut.length := by
      rw [varIntSerializeSize, varIntSerializeSize, if_pos (by omega), if_pos (by omega)]
    simp only [withCommitment, MsgTx.baseSize, hin, map_cons, map_nil, length_append,
      length_cons, length_nil, map_append, sum_append, sum_cons,
      sum_nil, TxIn.serializeSize, TxOut.serializeSize, hscript, Nat.zero_add, hcount]
    rw [show varIntSerializeSize 38 = 1 from rfl]
    omega
  have hplain : m.hasWitness = false := by simp [MsgTx.hasWitness, hin, hw]
  have hnow : (withCommitment m item script).hasWitness = true := by
    simp [MsgTx.hasWitness, withCommitment, hin]
  have hwitness : witnessSerializeSize [item] = 34 := by
    simp [witnessSerializeSize, hitem, varIntSerializeSize]
  rw [getTransactionWeight, getTransactionWeight, MsgTx.serializeSizeStripped,
    MsgTx.serializeSizeStripped, MsgTx.serializeSize, MsgTx.serializeSize, if_pos hnow,
    if_neg (by simp [hplain]), hbase, witnessScaleFactor]
  simp only [withCommitment, hin, map_cons, map_nil, sum_cons, sum_nil, hwitness]
  omega

section Coinbase

variable (g : Generator π) (s : ChainState) (pending : Option VDFResultData) (addr : PayToAddress)
  (ids : TemplateIds)

def bareCoinbase : MsgTx :=
  createCoinbaseTx g.env.params (standardCoinbaseScript (s.tip.height + 1) 0) (s.tip.height + 1) addr

def templateBounty : List TxOut := (pendingParts s.idx pending ids (s.tip.height + 1)).1

def bountyOwed : Int64 :=
  match pending with
  | none => 0
  | some vdf => vdfBountyOwed (s.tip.height + 1) (poolDrawData s.idx vdf) vdf.submitterWalletHash

theorem baseCoinbase_eq : baseCoinbase g s pending addr ids = { bareCoinbase g s addr with
      txOut := (bareCoinbase g s addr).txOut ++ templateBounty s pending ids } := rfl

theorem templateBounty_cases :
    (templateBounty s pending ids = [] ∧ bountyOwed s pending = 0) ∨
    ∃ w, templateBounty s pending ids = [⟨bountyOwed s pending, makeWinnerP2WPKHScript w⟩] := by
  cases pending with
  | none => exact .inl ⟨rfl, rfl⟩
  | some vdf =>
    by_cases howed : 0 < s.idx.reconstructPoolBalance vdf.drawHeight ∧ vdf.submitterWalletHash ≠ 0
    · have hvalue : bountyOwed s (some vdf) = calcVDFBounty (s.tip.height + 1) := if_pos howed
      refine .inr ⟨vdf.submitterWalletHash, ?_⟩
      rw [hvalue]
      exact if_pos howed
    · exact .inl ⟨if_neg howed, if_neg howed⟩

theorem weight_baseCoinbase : getTransactionWeight (baseCoinbase g s pending addr ids) =
    getTransactionWeight (bareCoinbase g s addr) + 124 * (templateBounty s pending ids).length := by
  have hplain : (bareCoinbase g s addr).hasWitness = false := rfl
  have hbase : (baseCoinbase g s pending addr ids).hasWitness = false := rfl
  rw [getTransactionWeight_of_no_witness hplain, getTransactionWeight_of_no_witness hbase,
    baseCoinbase_eq]
  rcases templateBounty_cases s pending ids with ⟨h, -⟩ | ⟨w, h⟩
  · rw [h]
    simp
  · rw [h]
    simp only [bareCoinbase, createCoinbaseTx, MsgTx.serializeSizeStripped, MsgTx.baseSize,
      cons_append, nil_append, length_cons, length_nil, map_cons,
      map_nil, sum_cons, sum_nil, TxOut.serializeSize,
      makeWinnerP2WPKHScript_length]
    simp only [varIntSerializeSize, Nat.reduceAdd, Nat.reduceLT, if_true]
    omega

theorem baseCoinbase_outputs : (baseCoinbase g s pending addr ids).txOut.length < 0xfc := by
  rw [baseCoinbase_eq]
  rcases templateBounty_cases s pending ids with ⟨h, -⟩ | ⟨w, h⟩
  · simp [h, bareCoinbase, createCoinbaseTx]
  · simp [h, bareCoinbase, createCoinbaseTx]

theorem commitmentWeight_baseCoinbase :
    commitmentWeight (baseCoinbase g s pending addr ids) = 224 := by
  rw [commitmentWeight, weight_withCommitment rfl rfl (baseCoinbase_outputs g s pending addr ids)
    (length_replicate ..) (length_replicate ..)]
  omega

/-- Fees change no size, so the coinbase weighs what has been counted and the bounty. -/
theorem weight_finalCoinbase (st : Selection π) :
    getTransactionWeight (finalCoinbase g s pending addr ids st) =
      getTransactionWeight (bareCoinbase g s addr) + 124 * (templateBounty s pending ids).length +
        if st.witnessIncluded then 224 else 0 := by
  rw [← weight_baseCoinbase, finalCoinbase]
  split
  case isTrue =>
    refine (weight_withCommitment rfl rfl ?_ (length_replicate ..) ?_).trans rfl
    · simpa using baseCoinbase_outputs g s pending addr ids
    · simp [witnessMagicBytes]
  case isFalse => rfl

theorem finalCoinbase_hasWitness (st : Selection π) :
    (finalCoinbase g s pending addr ids st).hasWitness = st.witnessIncluded := by
  unfold finalCoinbase
  cases st.witnessIncluded <;> rfl

theorem countSigOps_bareCoinbase_le (st : Selection π) :
    countSigOps ⟨ids.coinbase, bareCoinbase g s addr⟩ ≤
      countSigOps ⟨ids.coinbase, finalCoinbase g s pending addr ids st⟩ := by
  have hbase : countSigOps ⟨ids.coinbase, bareCoinbase g s addr⟩ ≤
      countSigOps ⟨ids.coinbase, baseCoinbase g s pending addr ids⟩ := by
    simp [baseCoinbase_eq, countSigOps]
  refine hbase.trans ?_
  unfold finalCoinbase
  split
  case isTrue =>
    dsimp only [withCommitment, countSigOps]
    rw [map_append, sum_append]
    exact Nat.add_le_add (le_of_eq rfl) (Nat.le_trans (le_of_eq rfl) (Nat.le_add_right _ _))
  case isFalse => exact le_of_eq rfl

theorem finalCoinbase_txIn (st : Selection π) : ∃ script witness,
    (finalCoinbase g s pending addr ids st).txIn =
      [⟨⟨0, maxPrevOutIndex⟩, script, witness, maxTxInSequenceNum⟩] := by
  unfold finalCoinbase
  split
  · exact ⟨_, _, rfl⟩
  · exact ⟨_, _, rfl⟩

theorem finalCoinbase_value (st : Selection π) :
    sum64 ((finalCoinbase g s pending addr ids st).txOut.map TxOut.value) =
      calcBlockSubsidy (s.tip.height + 1) g.env.params + bountyOwed s pending + st.totalFees := by
  have hout : (baseCoinbase g s pending addr ids).txOut =
      ⟨calcBlockSubsidy (s.tip.height + 1) g.env.params, payToAddrScript addr⟩ ::
        templateBounty s pending ids := rfl
  have hbounty : sum64 ((templateBounty s pending ids).map TxOut.value) = bountyOwed s pending := by
    rcases templateBounty_cases s pending ids with ⟨h, howed⟩ | ⟨w, h⟩
    · rw [h, howed]
      rfl
    · rw [h]
      simp [sum64]
  have hpaid : sum64 (((baseCoinbase g s pending addr ids).txOut.modifyHead
        fun o => { o with value := o.value + st.totalFees }).map TxOut.value) =
      calcBlockSubsidy (s.tip.height + 1) g.env.params + bountyOwed s pending + st.totalFees := by
    rw [hout, modifyHead_cons, map_cons, sum64_cons, hbounty]
    rw [Int64.add_assoc, Int64.add_comm st.totalFees, ← Int64.add_assoc]
  unfold finalCoinbase
  split
  case isTrue =>
    dsimp only [withCommitment]
    rw [map_append, sum64_append, hpaid]
    exact Int64.add_zero _
  case isFalse => exact hpaid

end Coinbase


/-! ## The cost of a block -/

/-- The signature-operation cost of a block's transactions, the first one the coinbase. -/
def sigOpCost (view : UtxoViewpoint) (bip16 segWit : Bool) : Bool → List Tx → Check Nat
  | _, [] => .ok 0
  | first, tx :: txs => do
      let cost ← getSigOpCost tx first view bip16 segWit
      let rest ← sigOpCost view bip16 segWit false txs
      return cost + rest

theorem checkSigOpCost_ok {view : UtxoViewpoint} {bip16 segWit : Bool} :
    ∀ {txs : List Tx} {first : Bool} {total : Nat}, total ≤ maxBlockSigOpsCost →
    checkSigOpCost view bip16 segWit first total txs = .ok () →
    ∃ cost, sigOpCost view bip16 segWit first txs = .ok cost ∧ total + cost ≤ maxBlockSigOpsCost
  | [], _, _, htotal, _ => ⟨0, rfl, htotal⟩
  | tx :: txs, first, total, _, h => by
      simp only [checkSigOpCost, bind_eq_ok, exists_unit, rejectIf_eq_ok] at h
      obtain ⟨cost, hcost, hle, hrest⟩ := h
      obtain ⟨rest, hsum, htotal⟩ := checkSigOpCost_ok (Nat.not_lt.mp hle) hrest
      refine ⟨cost + rest, ?_, by omega⟩
      simp only [sigOpCost, bind_eq_ok, pure_eq_ok]
      exact ⟨cost, hcost, rest, hsum, rfl⟩

theorem checkLegacySigOps_ok : ∀ {txs : List Tx} {total : Nat}, total ≤ maxBlockSigOpsCost →
    checkLegacySigOps total txs = .ok () →
    total + (txs.map fun tx => countSigOps tx * witnessScaleFactor).sum ≤ maxBlockSigOpsCost
  | [], _, htotal, _ => by simpa using htotal
  | tx :: txs, total, _, h => by
      simp only [checkLegacySigOps, bind_eq_ok, exists_unit, rejectIf_eq_ok] at h
      have := checkLegacySigOps_ok (Nat.not_lt.mp h.1) h.2
      rw [map_cons, sum_cons]
      omega

/-! ## The template -/

section Template

variable (g : Generator π) (s : ChainState) (pool : List TxDesc) (pending : Option VDFResultData)
  (addr : PayToAddress) (header : HeaderInfo) (ids : TemplateIds)

def madeUpIds : List Hash :=
  0 :: match pending with
    | none => []
    | some vdf => (poolDrawSentinelOutpoint vdf.drawHeight).hash ::
        (buildVDFResultTx vdf).txIn.map fun t => t.previousOutPoint.hash

/-- A made-up id is not the id of a transaction or of a coin. -/
structure NoRealId (h : Hash) : Prop where
  pool : ∀ d ∈ pool, d.tx.hash ≠ h
  coins : ∀ i, s.utxos.get ⟨h, i⟩ = none
  own : h ∉ [ids.coinbase, ids.settlement, ids.vdfResult]

variable {g s pool pending addr header ids}

theorem drawTxs_ids {tx : Tx} (htx : tx ∈ drawTxs s pending ids) :
    tx.hash ∈ [ids.coinbase, ids.settlement, ids.vdfResult] ∧
      ∀ t ∈ tx.msgTx.txIn, t.previousOutPoint.hash ∈ madeUpIds pending := by
  cases pending with
  | none => simp [drawTxs, pendingParts] at htx
  | some vdf =>
    simp only [drawTxs, pendingParts, settlementTxs, mem_append, mem_singleton] at htx
    rcases htx with htx | rfl
    · grind [buildPoolDrawSettlementTx, makePoolDrawSentinelInput, madeUpIds]
    · simp only [madeUpIds, mem_cons, mem_map]
      exact ⟨by simp, fun t ht => .inr (.inr ⟨t, ht, rfl⟩)⟩

theorem drawTxs_hasWitness {tx : Tx} (htx : tx ∈ drawTxs s pending ids) :
    tx.msgTx.hasWitness = false := by
  cases pending with
  | none => simp [drawTxs, pendingParts] at htx
  | some vdf =>
    simp only [drawTxs, pendingParts, settlementTxs, mem_append, mem_singleton] at htx
    rcases htx with htx | rfl
    · split at htx
      · obtain rfl := mem_singleton.mp htx
        rfl
      · simp at htx
    · rfl

theorem drawTxs_spent : (spentOutPoints (drawTxs s pending ids)).Nodup ∧
    ∀ op ∈ spentOutPoints (drawTxs s pending ids), op.index = 0 := by
  cases pending with
  | none => simp [drawTxs, pendingParts, spentOutPoints]
  | some vdf =>
    have hdiffer : ∀ t ∈ (buildVDFResultTx vdf).txIn,
        poolDrawSentinelOutpoint vdf.drawHeight ≠ t.previousOutPoint := by
      intro t ht heq
      obtain rfl := mem_singleton.mp ht
      -- the fourth byte of the ids tells them apart
      have hbytes := congrArg (fun op : OutPoint => Hash.toBytes op.hash) heq
      dsimp only [poolDrawSentinelOutpoint] at hbytes
      rw [Hash.toBytes_ofBytes (by simp), Hash.toBytes_ofBytes (by simp)] at hbytes
      simp at hbytes
    obtain ⟨t, ht, hindex⟩ : ∃ t, (buildVDFResultTx vdf).txIn = [t] ∧ t.previousOutPoint.index = 0 :=
      ⟨_, rfl, rfl⟩
    have hdiffer := hdiffer t (by simp [ht])
    simp only [drawTxs, pendingParts, settlementTxs]
    split
    · simp [spentOutPoints, buildPoolDrawSettlementTx, makePoolDrawSentinelInput, ht, hindex,
        hdiffer]
      rfl
    · simp [spentOutPoints, ht, hindex]

section Finished

variable [LinearOrder π] {positions : List Nat} {st : Selection π}
variable {block : Block}

theorem sorted_run (hpool : PoolClosed s.utxos pool)
    (hrun : runSteps (templateRound g s pool pending addr ids).step
      (startSelection g s pool pending addr ids) positions = some st) :
    ∃ descs, Sorted g s.utxos pool (templateRound g s pool pending addr ids)
      (startSelection g s pool pending addr ids).blockUtxos st descs := by
  refine runSteps_invariant (P := fun st => ∃ descs, Sorted g s.utxos pool
    (templateRound g s pool pending addr ids) _ st descs) ?_ ⟨[], ?_⟩ hrun
  · rintro st position st' ⟨descs, h⟩ hstep
    obtain ⟨item, hitem, hpassed | htaken⟩ := Round.step_cases _ hstep
    · exact ⟨descs, h.passedOver hpassed⟩
    · obtain ⟨d, h⟩ := h.taken hpool hitem htaken
      exact ⟨_, h⟩
  · have hsrc := collected_mempoolLoop (g := g) hpool (s.tip.height + 1)
    refine ⟨.none, rfl, rfl, rfl, ?_, ?_⟩
    · intro item hitem
      obtain ⟨hfrom, hwaits⟩ := hsrc.ready item hitem
      exact ⟨hfrom, by simp [hwaits]⟩
    · intro parent item hitem
      obtain ⟨hfrom, hdeps⟩ := hsrc.waiting parent item hitem
      refine ⟨hfrom, fun h hh => .inl ?_⟩
      rw [show (startSelection g s pool pending addr ids).dependsOn.get item.tx.hash = _ from hdeps]
      exact mem_dedup.mpr hh

theorem counted_run (hrun : runSteps (templateRound g s pool pending addr ids).step
      (startSelection g s pool pending addr ids) positions = some st) :
    Counted (templateRound g s pool pending addr ids) (startWeight g s pending addr ids)
      (startSigOpCost g s pending addr ids) st := by
  have hcommit := commitmentWeight_baseCoinbase g s pending addr ids
  refine runSteps_invariant (P := Counted (templateRound g s pool pending addr ids) _ _) ?_ ?_ hrun
  · intro st position st' h hstep
    obtain ⟨item, -, hpassed | htaken⟩ := Round.step_cases _ hstep
    · exact h.passedOver hcommit hpassed
    · exact h.taken hcommit htaken
  · refine ⟨rfl, fun _ => ?_, fun _ => rfl, rfl, le_max_left _ _⟩
    exact le_trans (le_max_left _ _) (Nat.le_add_right _ _)

theorem newBlockTemplate_eq_some {template : BlockTemplate}
    (h : newBlockTemplate g s pool pending addr header ids positions = some template) :
    ∃ st, runSteps (templateRound g s pool pending addr ids).step
        (startSelection g s pool pending addr ids) positions = some st ∧
      template = finishTemplate g s pending addr header ids st ∧
      Accepts (checkConnectBlockTemplate g.env s template.block) := by
  obtain ⟨_, -, h⟩ := Option.bind_eq_some_iff.mp h
  obtain ⟨st, hrun, h⟩ := Option.bind_eq_some_iff.mp h
  obtain ⟨_, -, h⟩ := Option.bind_eq_some_iff.mp h
  obtain ⟨_, hchecked, h⟩ := Option.bind_eq_some_iff.mp h
  obtain rfl := Option.some.inj h
  exact ⟨st, hrun, rfl, (Option.guard_eq_some' _).mp hchecked⟩

/-- What is promised of a returned template: the coinbase, the transactions picked from
the pool, their order and their spends, weight, cost and value. -/
structure WellFormed (g : Generator π) (s : ChainState) (pool : List TxDesc)
    (pending : Option VDFResultData) (addr : PayToAddress) (ids : TemplateIds)
    (template : BlockTemplate) (coinbase : MsgTx) (descs : List TxDesc) : Prop where
  pooled : ∀ d ∈ descs, d ∈ pool
  transactions : template.block.transactions =
    ⟨ids.coinbase, coinbase⟩ :: (drawTxs s pending ids ++ descs.map TxDesc.tx)
  parentsFirst : ParentsFirst template.block.transactions
  ids_nodup : (template.block.transactions.map Tx.hash).Nodup
  /-- `CheckTransactionInputs` does not look at the inputs of draw transactions. -/
  spent_once : (∀ d ∈ pool, (isDrawSettlementTx d.tx || isVDFResultTx d.tx) = false) →
    (spentOutPoints template.block.transactions).Nodup
  weight : getBlockWeight template.block ≤
    max (startWeight g s pending addr ids) (g.policy.blockMaxWeight.toNat - 1) +
      (if coinbase.hasWitness then 224 else 0) + 124 * (templateBounty s pending ids).length
  sigOps : ∃ loaded cost, loadView g.env s.utxos (s.tip.child template.block) template.block
      (UtxoViewpoint.new s.tip.hash) = .ok loaded ∧
    sigOpCost loaded (scriptFlags g.env (s.tip.child template.block) template.block).bip16
      (scriptFlags g.env (s.tip.child template.block) template.block).witness true
      template.block.transactions = .ok cost ∧ cost ≤ maxBlockSigOpsCost
  listedSigOps : template.sigOpCosts.sum ≤ maxBlockSigOpsCost
  value : sum64 (coinbase.txOut.map TxOut.value) =
    calcBlockSubsidy (s.tip.height + 1) g.env.params + bountyOwed s pending +
      sum64 (descs.map TxDesc.fee)

variable {descs : List TxDesc} {start view : UtxoViewpoint} {r : Round π}

def templateTxs (g : Generator π) (s : ChainState) (pending : Option VDFResultData)
    (addr : PayToAddress) (ids : TemplateIds) (st : Selection π) (descs : List TxDesc) : List Tx :=
  ⟨ids.coinbase, finalCoinbase g s pending addr ids st⟩ ::
    (drawTxs s pending ids ++ descs.map TxDesc.tx)

omit [LinearOrder π] in
theorem front_ids {tx : Tx}
    (htx : tx ∈ ⟨ids.coinbase, finalCoinbase g s pending addr ids st⟩ :: drawTxs s pending ids) :
    tx.hash ∈ [ids.coinbase, ids.settlement, ids.vdfResult] ∧
      ∀ t ∈ tx.msgTx.txIn, t.previousOutPoint.hash ∈ madeUpIds pending := by
  rcases mem_cons.mp htx with rfl | htx
  · refine ⟨mem_cons_self, fun t ht => ?_⟩
    obtain ⟨script, witness, hin⟩ := finalCoinbase_txIn g s pending addr ids st
    rw [hin] at ht
    obtain rfl := mem_singleton.mp ht
    exact mem_cons_self
  · exact drawTxs_ids htx

omit [LinearOrder π] in
theorem parentsFirst_template (hpool : PoolClosed s.utxos pool)
    (hmade : ∀ h ∈ madeUpIds pending, NoRealId s pool ids h)
    (hpicked : Picked g s.utxos pool r start descs view)
    (hids : ((templateTxs g s pending addr ids st descs).map Tx.hash).Nodup) :
    ParentsFirst (templateTxs g s pending addr ids st descs) := by
  set front := ⟨ids.coinbase, finalCoinbase g s pending addr ids st⟩ :: drawTxs s pending ids
    with hfront
  have hsplit : templateTxs g s pending addr ids st descs = front ++ descs.map TxDesc.tx := rfl
  rw [hsplit] at hids ⊢
  have hpooled : ∀ d ∈ descs, d ∈ pool := fun d hd => (hpicked.pooled d hd).1
  -- the template's own transactions refer to no transaction of the block
  have hfree : ∀ tx ∈ front, ∀ tx' ∈ front ++ descs.map TxDesc.tx,
      ∀ t ∈ tx.msgTx.txIn, t.previousOutPoint.hash ≠ tx'.hash := by
    intro tx htx tx' htx' t ht heq
    have hreal := hmade _ ((front_ids htx).2 t ht)
    rcases mem_append.mp htx' with htx' | htx'
    · exact hreal.own (heq ▸ (front_ids htx').1)
    · obtain ⟨d, hd, rfl⟩ := mem_map.mp htx'
      exact hreal.pool d (hpooled d hd) heq.symm
  have hdescs : (descs.map fun d => d.tx.hash).Nodup := by
    rw [map_append, nodup_append, map_map] at hids
    exact hids.2.1
  obtain ⟨hpairs, hself⟩ := hpicked.parentsFirst hpool hdescs
  refine ⟨?_, ?_⟩
  · rw [pairwise_append]
    refine ⟨pairwise_of_forall_mem_list fun tx htx tx' htx' => ?_, hpairs, ?_⟩
    · exact hfree tx htx tx' (mem_append_left _ htx')
    · exact fun tx htx tx' htx' => hfree tx htx tx' (mem_append_right _ htx')
  · grind

omit [LinearOrder π] in
theorem spent_once_template (hpool : PoolClosed s.utxos pool)
    (hmade : ∀ h ∈ madeUpIds pending, NoRealId s pool ids h)
    (hpicked : Picked g s.utxos pool r start descs view)
    (hids : ((templateTxs g s pending addr ids st descs).map Tx.hash).Nodup)
    (hsane : ∀ tx ∈ templateTxs g s pending addr ids st descs, SaneTx tx)
    (hmoves : ∀ d ∈ pool, (isDrawSettlementTx d.tx || isVDFResultTx d.tx) = false) :
    (spentOutPoints (templateTxs g s pending addr ids st descs)).Nodup := by
  obtain ⟨script, witness, hin⟩ := finalCoinbase_txIn g s pending addr ids st
  have hsplit : spentOutPoints (templateTxs g s pending addr ids st descs) =
      ⟨0, maxPrevOutIndex⟩ :: (spentOutPoints (drawTxs s pending ids) ++
        spentOutPoints (descs.map TxDesc.tx)) := by
    simp [spentOutPoints, templateTxs, hin]
  have hdescs : (descs.map fun d => d.tx.hash).Nodup := by
    grind [templateTxs]
  have hnodup := (hpicked.spent_once hpool hmoves hdescs fun d hd =>
    (hsane d.tx (mem_cons_of_mem _ (mem_append_right _
      (mem_map_of_mem hd)))).inputs_nodup).1
  obtain ⟨hdraw, hindex⟩ : (spentOutPoints (drawTxs s pending ids)).Nodup ∧ _ := drawTxs_spent
  -- an input of a pool transaction has a real id
  have hreal : ∀ op ∈ spentOutPoints (descs.map TxDesc.tx), op.hash ∉ madeUpIds pending := by
    intro op hop hmem
    simp only [spentOutPoints, mem_flatMap, mem_map] at hop
    obtain ⟨_, ⟨d, hd, rfl⟩, t, ht, rfl⟩ := hop
    rcases hpool.closed d (hpicked.pooled d hd).1 t ht with hcoin | ⟨parent, hparent, hhash⟩
    · exact hcoin ((hmade _ hmem).coins t.previousOutPoint.index)
    · exact (hmade _ hmem).pool parent hparent hhash
  rw [hsplit, nodup_cons, mem_append, not_or, nodup_append]
  refine ⟨⟨fun hnull => ?_, fun hnull => ?_⟩, hdraw, hnodup, ?_⟩
  · have := hindex _ hnull
    simp [maxPrevOutIndex] at this
  · exact hreal _ hnull mem_cons_self
  · rintro op hop _ hop' rfl
    simp only [spentOutPoints, mem_flatMap, mem_map] at hop
    obtain ⟨tx, htx, t, ht, rfl⟩ := hop
    exact hreal _ hop' ((drawTxs_ids htx).2 t ht)

omit [LinearOrder π] in
theorem weight_template (hselected : st.selected = descs.map TxDesc.tx)
    (htxs : block.transactions = templateTxs g s pending addr ids st descs) :
    getBlockWeight block + 4 * (9 - varIntSerializeSize block.transactions.length) =
      countedWeight (startWeight g s pending addr ids) st +
        124 * (templateBounty s pending ids).length := by
  have hsize := varIntSerializeSize_le block.transactions.length
  have hsum : (block.transactions.map fun tx => getTransactionWeight tx.msgTx).sum =
      getTransactionWeight (bareCoinbase g s addr) + 124 * (templateBounty s pending ids).length +
        notedWeight st + ((drawTxs s pending ids).map fun tx => getTransactionWeight tx.msgTx).sum +
        (st.selected.map fun tx => getTransactionWeight tx.msgTx).sum := by
    grind [templateTxs, weight_finalCoinbase, notedWeight]
  have hstart : startWeight g s pending addr ids = (blockHeaderLen + 9) * 4 +
      getTransactionWeight (bareCoinbase g s addr) +
      ((drawTxs s pending ids).map fun tx => getTransactionWeight tx.msgTx).sum := rfl
  rw [getBlockWeight_eq, hsum, countedWeight, hstart]
  omega

omit [LinearOrder π] in
theorem no_witness_template (hpicked : Picked g s.utxos pool r start descs view)
    (hinactive : r.segwitActive = false) (hnoted : st.witnessIncluded = false) :
    ∀ tx ∈ templateTxs g s pending addr ids st descs, tx.msgTx.hasWitness = false := by
  intro tx htx
  rcases mem_cons.mp htx with rfl | htx
  · exact (finalCoinbase_hasWitness g s pending addr ids st).trans hnoted
  · rcases mem_append.mp htx with htx | htx
    · exact drawTxs_hasWitness htx
    · obtain ⟨d, hd, rfl⟩ := mem_map.mp htx
      exact (hpicked.pooled d hd).2.2.resolve_left (by simp [hinactive])

omit [LinearOrder π] in
theorem startSigOpCost_le (hsanity : checkBlockSanity block = .ok ())
    (htxs : block.transactions = templateTxs g s pending addr ids st descs) :
    startSigOpCost g s pending addr ids ≤ maxBlockSigOpsCost := by
  simp only [checkBlockSanity, bind_eq_ok, exists_unit, rejectIf_eq_ok] at hsanity
  have hle := checkLegacySigOps_ok (Nat.zero_le _) hsanity.2.2.2.2.2.2.2
  rw [htxs, templateTxs, map_cons, sum_cons, map_append, sum_append] at hle
  have hcoinbase := countSigOps_bareCoinbase_le g s pending addr ids st
  have hstart : startSigOpCost g s pending addr ids =
      countSigOps ⟨ids.coinbase, bareCoinbase g s addr⟩ * witnessScaleFactor +
        ((drawTxs s pending ids).map fun tx => countSigOps tx * witnessScaleFactor).sum := rfl
  have hscaled := Nat.mul_le_mul_right witnessScaleFactor hcoinbase
  omega

theorem checkConnectBlockTemplate_ok {env : Env}
    (h : Accepts (checkConnectBlockTemplate env s block)) :
    checkBlockSanity block = .ok () ∧
      (env.deployments .segwit s.tip.chain = true → checkBlockWeight block = .ok ()) ∧
      ∃ loaded, checkConnectPrefix env s.utxos (s.tip.child block) block
        (UtxoViewpoint.new s.tip.hash) = .ok loaded := by
  obtain ⟨_, h⟩ := h
  simp only [checkConnectBlockTemplate, bind_eq_ok, exists_unit, checkWhen_eq_ok] at h
  obtain ⟨-, hsanity, hweight, r, hconnect, -⟩ := h
  obtain ⟨loaded, _, hprefix, -⟩ := checkConnectBlock_ok hconnect
  exact ⟨hsanity, hweight, loaded, hprefix⟩

/-- A block without witnesses is held under the limit of its base size, one with
witnesses under the weight limit. -/
theorem weight_fits (hsanity : checkBlockSanity block = .ok ())
    (hcontext : (∀ tx ∈ block.transactions, tx.msgTx.hasWitness = false) ∨
      checkBlockWeight block = .ok ()) : getBlockWeight block ≤ maxVDFBlockWeight := by
  rcases hcontext with hplain | hweight
  · simp only [checkBlockSanity, bind_eq_ok, exists_unit, rejectIf_eq_ok] at hsanity
    have hsize := Nat.not_lt.mp hsanity.2.2.1
    rw [getBlockWeight_of_no_witness hplain]
    simp only [maxBlockBaseSize, maxVDFBlockWeight] at hsize ⊢
    omega
  · simp only [checkBlockWeight, rejectIf_eq_ok, Nat.not_lt] at hweight
    refine hweight.trans ?_
    split
    · exact le_refl _
    · decide

end Finished

end Template

/-! ## Two small pools -/

/-- A miner on the main network with this policy maximum and no other rule of its own. -/
def smallMiner (blockMaxWeight : UInt32) : Generator Nat :=
  { env := youngMainNet
    policy := ⟨0, blockMaxWeight, 0, 0⟩
    adjustedTime := 1750001800
    calcPriority := fun _ _ _ => 0
    minHighPriority := 0
    zeroPriority := 0
    standardScripts := fun _ _ => true
    witnessCommitment := fun _ => 7
    isOrphan := fun _ => false }

def twoCoinState : ChainState := ⟨regularNode 2, coinsAt [⟨50, 0⟩, ⟨51, 0⟩], StakeIndex.empty⟩

def pooledTx (hash : Hash) (op : OutPoint) (value fee : Int64) (witness : List Bytes) : TxDesc :=
  { tx := ⟨hash, { version := txVersion
                   txIn := [{ previousOutPoint := op, witness := witness }]
                   txOut := [⟨value - fee, makeWinnerP2WPKHScript 2⟩] }⟩
    fee := fee
    feePerKB := 10 * fee }

/-- A pool with one transaction for each of the coins, the second with a witness, and one that
spends the output of the first. -/
def threeTxPool : List TxDesc :=
  [pooledTx 62 ⟨60, 0⟩ 99999000 300 [], pooledTx 60 ⟨50, 0⟩ 100000000 1000 [],
    pooledTx 61 ⟨51, 0⟩ 100000000 500 [[1]]]

theorem get_twoCoinState {op : OutPoint} (h : op.hash ≠ 50 ∧ op.hash ≠ 51) :
    twoCoinState.utxos.get op = none := by
  grind [twoCoinState, coinsAt, Bucket.get_put_of_ne, Bucket.get_empty]

theorem threeTxPool_closed : PoolClosed twoCoinState.utxos threeTxPool := by
  have hhash : ∀ d ∈ threeTxPool, d.tx.hash ≠ 50 ∧ d.tx.hash ≠ 51 := by decide
  exact ⟨by decide, fun d hd i => get_twoCoinState (hhash d hd), by decide +kernel⟩

theorem threeTxPool_noRealId :
    ∀ h ∈ madeUpIds none, NoRealId twoCoinState threeTxPool ⟨20, 21, 22⟩ h := by
  intro h hh
  obtain rfl : h = 0 := by simpa [madeUpIds] using hh
  exact ⟨by decide, fun i => get_twoCoinState ⟨of_decide_eq_true rfl, of_decide_eq_true rfl⟩,
    by decide⟩

end FalconDraw.Mining
