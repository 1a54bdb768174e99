/-
FalconDraw.Chain.SupplyTheorems — how much money can there be?

What any finitely many outpoints hold is bounded by what the blocks issued: their
subsidies, bounties and minted outputs.
-/
import FalconDraw.Lib.Holdings
import FalconDraw.Chain.MintTheorems
import FalconDraw.Chain.SpendTheorems
import FalconDraw.Chain.PoolRun

namespace FalconDraw.Chain

open Lib Wire Script Draw List

variable {env : Env} {node : BlockNode} {block : Block} {utxos utxos' : UtxoSet} {tx : Tx}
  {txs : List Tx} {height : Nat} {view view' : UtxoViewpoint} {op : OutPoint}
  {stxos : List SpentTxOut} {s s' : ConnectState} {B : ℤ}

def Coin.worth (c : Coin) : ℤ := c.amount.toInt

/-- No finitely many outpoints hold more than `B`. -/
abbrev SupplyLe (utxos : UtxoSet) (B : ℤ) : Prop := Bucket.HoldsAtMost Coin.worth utxos B

/-! ## One transaction -/

theorem SupplyLe.spendInputs : ∀ {ts : List TxIn} {utxos : UtxoSet} {stxos : List SpentTxOut}
    {B : ℤ}, SupplyLe utxos B → UtxoSet.spendInputs utxos ts = .ok (utxos', stxos) →
    SupplyLe utxos' B ∧ SupplyLe utxos' (B - sumInt (stxos.map Coin.amount))
  | [], utxos, stxos, B, h, hs => by
      obtain ⟨rfl, rfl⟩ := Prod.mk.inj (Except.ok.inj hs)
      exact ⟨h, h.mono (by simp)⟩
  | t :: ts, utxos, stxos, B, h, hs => by
      rcases UtxoSet.spendInputs_cons.mp hs with ⟨_, hs⟩ | ⟨_, c, st, hc, hrest, rfl⟩
      · exact SupplyLe.spendInputs h hs
      · refine ⟨(SupplyLe.spendInputs (h.delete _) hrest).1, ?_⟩
        refine (SupplyLe.spendInputs (h.delete_some hc) hrest).2.mono ?_
        rw [map_cons, sumInt_cons, Coin.worth]
        omega

theorem SupplyLe.addTxOutsFrom {hash : Hash} {isCoinBase : Bool} : ∀ {outs : List TxOut} {i : Nat}
    {utxos : UtxoSet} {B : ℤ}, SupplyLe utxos B → (∀ out ∈ outs, 0 ≤ out.value.toInt) →
    SupplyLe (UtxoSet.addTxOutsFrom utxos hash isCoinBase height i outs) (B + spendableValue outs)
  | [], i, utxos, B, h, _ => h.mono (by simp [spendableValue])
  | out :: outs, i, utxos, B, h, hout => by
      have hrest : ∀ o ∈ outs, 0 ≤ o.value.toInt := fun o ho => hout o (mem_cons_of_mem _ ho)
      rw [UtxoSet.addTxOutsFrom, UtxoSet.addTxOut]
      cases hu : isUnspendable out.pkScript with
      | true => exact (h.addTxOutsFrom hrest).mono (by simp [spendableValue, hu])
      | false =>
        have hput := h.put ⟨hash, i⟩ ⟨out.value, out.pkScript, height, isCoinBase⟩
          (hout out mem_cons_self)
        refine (SupplyLe.addTxOutsFrom hput hrest).mono ?_
        simp [spendableValue, hu, Coin.worth, add_assoc]

theorem SupplyLe.connectTransaction (h : SupplyLe utxos B) (hsane : SaneTx tx)
    (hconn : UtxoSet.connectTransaction utxos tx height = .ok (utxos', stxos)) :
    SupplyLe utxos' (B + createdValue tx height) ∧
      SupplyLe utxos' (B - sumInt (stxos.map Coin.amount) + createdValue tx height) := by
  simp only [UtxoSet.connectTransaction, bind_eq_ok, pure_eq_ok, Prod.mk.injEq] at hconn
  obtain ⟨⟨u, st⟩, hins, rfl, rfl⟩ := hconn
  have hu : SupplyLe u B ∧ SupplyLe u (B - sumInt (st.map Coin.amount)) := by
    unfold UtxoSet.addTxIns at hins
    split at hins
    · obtain ⟨rfl, rfl⟩ := Prod.mk.inj (Except.ok.inj hins)
      exact ⟨h, h.mono (by simp)⟩
    · split at hins
      · obtain ⟨rfl, rfl⟩ := Prod.mk.inj (Except.ok.inj hins)
        exact ⟨h, h.mono (by simp)⟩
      · exact h.spendInputs hins
  rw [createdValue_eq]
  exact ⟨hu.1.addTxOutsFrom hsane.value_nonneg, hu.2.addTxOutsFrom hsane.value_nonneg⟩

theorem createdValue_le (h : SaneTx tx) (height : Nat) :
    createdValue tx height ≤ outputValue tx := by
  rw [createdValue_eq]
  refine sumInt_le_of_sublist (filter_sublist.map _) fun v hv => ?_
  obtain ⟨out, hout, rfl⟩ := mem_map.mp hv
  exact h.value_nonneg out hout

/-! ## View and set in step -/

/-- The id does not begin with the bytes "FDRP". -/
def PlainId (tx : Tx) : Prop := (Hash.toBytes tx.hash).take 4 ≠ [0x46, 0x44, 0x52, 0x50]

instance (tx : Tx) : Decidable (PlainId tx) := inferInstanceAs (Decidable (_ ≠ _))

/-- Inputs with this outpoint are not passed over. -/
def PlainAt (op : OutPoint) : Prop := isPoolDrawSentinelInput { previousOutPoint := op } = false

theorem PlainId.at (h : PlainId tx) (hc : outputCoin tx height op ≠ none) : PlainAt op := by
  rw [PlainId, (outputCoin_hash hc).1] at h
  simp [PlainAt, isPoolDrawSentinelInput, h]

/-- All coins are at such outpoints. -/
def PlainCoins (utxos : UtxoSet) : Prop := ∀ op, utxos.get op ≠ none → PlainAt op

/-- View and set before the transactions that are still to come. -/
structure InStep (height : Nat) (view : UtxoViewpoint) (utxos : UtxoSet) (txs : List Tx) :
    Prop where
  agrees : ∀ op, (∀ tx ∈ txs, outputCoin tx height op = none) → AgreeAt op view utxos
  unmade : ∀ tx ∈ txs, ∀ op, outputCoin tx height op ≠ none → utxos.get op = none
  plain : PlainCoins utxos

namespace InStep

theorem step {st : List SpentTxOut} (h : InStep height view utxos (tx :: txs)) (hid : PlainId tx)
    (hids : ((tx :: txs).map Tx.hash).Nodup)
    (hview : view.connectTransaction tx height = .ok (view', st))
    (hset : UtxoSet.connectTransaction utxos tx height = .ok (utxos', stxos)) :
    InStep height view' utxos' txs := by
  have hget : ∀ op, utxos'.get op = (outputCoin tx height op).or
      (if txSpends tx op then none else utxos.get op) :=
    fun op => (UtxoSet.get_connectTransaction op hset).1
  refine ⟨fun op hlater => ?_, fun tx' htx' op hmade => ?_, fun op hop => ?_⟩
  · exact agreeAt_step hview hset fun hnot => h.agrees op (forall_mem_cons.mpr ⟨hnot, hlater⟩)
  · have hnot : outputCoin tx height op = none := by
      by_contra hmade'
      refine (nodup_cons.mp hids).1 (mem_map.mpr ⟨tx', htx', ?_⟩)
      rw [(outputCoin_hash hmade).1, (outputCoin_hash hmade').1]
    rw [hget, hnot, h.unmade tx' (mem_cons_of_mem _ htx') op hmade, ite_self]
    rfl
  · rw [hget] at hop
    by_cases hmade : outputCoin tx height op = none
    · refine h.plain op fun hnone => hop ?_
      rw [hmade, hnone, ite_self]
      rfl
    · exact hid.at hmade

/-- What a transaction counts as its inputs are coins of the set, which it spends. -/
theorem input {t : TxIn} (h : InStep node.height s.view utxos (tx :: txs))
    (hids : ∀ t ∈ tx :: txs, PlainId t) (hstep : connectStep env node s tx = .ok s')
    (hset : UtxoSet.connectTransaction utxos tx node.height = .ok (utxos', stxos))
    (hmoves : movesCoins tx = true) (ht : t ∈ tx.msgTx.txIn) :
    PlainAt t.previousOutPoint ∧ ∃ e, s.view.lookupEntry t.previousOutPoint = some e ∧
      utxos.get t.previousOutPoint = some e.coin := by
  obtain ⟨e, he, hunspent⟩ := connectStep_unspent hstep hmoves ht
  by_cases hplain : PlainAt t.previousOutPoint
  · have hcounts : countsCoin tx t.previousOutPoint = true := by
      simp only [countsCoin, hmoves, Bool.true_and, any_eq_true, beq_iff_eq]
      exact ⟨t, ht, rfl⟩
    have hcoin := (UtxoSet.get_connectTransaction t.previousOutPoint hset).2
      (txSpends_of_countsCoin hplain hcounts)
    refine ⟨hplain, e, he, h.agrees _ (fun tx' htx' => ?_) e he hunspent⟩
    by_contra hmade
    exact hcoin (h.unmade tx' htx' _ hmade)
  · have hcoin := h.agrees _ (fun tx' htx' => by
      by_contra hmade
      exact hplain ((hids tx' htx').at hmade)) e he hunspent
    exact absurd (h.plain _ (by simp [hcoin])) hplain

end InStep

/-- The set hands out the amounts the view has for the inputs. -/
theorem spentAmounts_of_spendInputs : ∀ {ts : List TxIn} {utxos : UtxoSet}
    {stxos : List SpentTxOut}, (ts.map TxIn.previousOutPoint).Nodup →
    (∀ t ∈ ts, PlainAt t.previousOutPoint ∧ ∃ e, view.lookupEntry t.previousOutPoint = some e ∧
      utxos.get t.previousOutPoint = some e.coin) →
    UtxoSet.spendInputs utxos ts = .ok (utxos', stxos) →
    spentAmounts view ts = some (stxos.map Coin.amount)
  | [], utxos, stxos, _, _, hs => by
      obtain ⟨_, rfl⟩ := Prod.mk.inj (Except.ok.inj hs)
      rfl
  | t :: ts, utxos, stxos, hnodup, hin, hs => by
      rw [map_cons, nodup_cons] at hnodup
      obtain ⟨hplain, e, he, hcoin⟩ := hin t mem_cons_self
      rcases UtxoSet.spendInputs_cons.mp hs with ⟨hsent, _⟩ | ⟨_, c, st, hc, hrest, rfl⟩
      · have hnot : isPoolDrawSentinelInput t = false := hplain
        rw [hnot] at hsent
        cases hsent
      · have hlater := spentAmounts_of_spendInputs hnodup.2 (fun t' ht' => by
          obtain ⟨hp, e', he', hc'⟩ := hin t' (mem_cons_of_mem _ ht')
          have hne : t'.previousOutPoint ≠ t.previousOutPoint := by
            intro heq
            exact hnodup.1 (heq ▸ mem_map_of_mem ht')
          exact ⟨hp, e', he', by rwa [Bucket.get_delete_of_ne _ hne]⟩) hrest
        obtain rfl := Option.some.inj (hc.symm.trans hcoin)
        simp only [spentAmounts, mapM_cons] at hlater ⊢
        simp [he, hlater, UtxoEntry.coin]

/-! ## The transaction loop -/

/-- What a transaction adds to the supply without taking it from coins. -/
def issuedBy (height : Nat) (tx : Tx) : ℤ := if movesCoins tx then 0 else createdValue tx height

theorem SupplyLe.connectStep (h : SupplyLe utxos B)
    (hin : InStep node.height s.view utxos (tx :: txs)) (hids : ∀ t ∈ tx :: txs, PlainId t)
    (hsane : SaneTx tx) (hstep : Chain.connectStep env node s tx = .ok s')
    (hset : UtxoSet.connectTransaction utxos tx node.height = .ok (utxos', stxos)) :
    SupplyLe utxos' (B + issuedBy node.height tx -
      if movesCoins tx then inputValue s.view tx - outputValue tx else 0) := by
  obtain ⟨hadded, hmoved⟩ := h.connectTransaction hsane hset
  unfold issuedBy
  cases hmoves : movesCoins tx with
  | false => exact hadded.mono (by simp)
  | true =>
    obtain ⟨u, hsp⟩ : ∃ u, UtxoSet.spendInputs utxos tx.msgTx.txIn = .ok (u, stxos) := by
      simp only [UtxoSet.connectTransaction, bind_eq_ok, pure_eq_ok, Prod.mk.injEq] at hset
      obtain ⟨⟨u, st⟩, hins, _, rfl⟩ := hset
      simp only [movesCoins, Bool.and_eq_true, Bool.not_eq_true', Bool.or_eq_false_iff] at hmoves
      exact ⟨u, by simpa [UtxoSet.addTxIns, hmoves.1, hmoves.2.2] using hins⟩
    have hvalue : inputValue s.view tx = sumInt (stxos.map Coin.amount) := by
      rw [inputValue, spentAmounts_of_spendInputs hsane.inputs_nodup
        (fun t ht => hin.input hids hstep hset hmoves ht) hsp]
      rfl
    have hcreated := createdValue_le hsane node.height
    refine hmoved.mono ?_
    rw [if_pos rfl, if_pos rfl, hvalue]
    omega

theorem SupplyLe.connectLoop : ∀ {txs : List Tx} {s s' : ConnectState} {utxos : UtxoSet}
    {stxos : List SpentTxOut} {B : ℤ}, SupplyLe utxos B → InStep node.height s.view utxos txs →
    (∀ tx ∈ txs, PlainId tx) → (∀ tx ∈ txs, SaneTx tx) → (txs.map Tx.hash).Nodup →
    txs.foldlM (Chain.connectStep env node) s = .ok s' →
    UtxoSet.connectTransactions node.height utxos txs = .ok (utxos', stxos) →
    SupplyLe utxos' (B + (txs.map (issuedBy node.height)).sum - grossFees node.height s.view txs) ∧
      PlainCoins utxos'
  | [], s, s', utxos, stxos, B, h, hin, _, _, _, _, hset => by
      obtain ⟨rfl, _⟩ := Prod.mk.inj (Except.ok.inj hset)
      exact ⟨h.mono (by simp [grossFees, sumOverLoop]), hin.plain⟩
  | tx :: txs, s, s', utxos, stxos, B, h, hin, hids, hsane, hnodup, hloop, hset => by
      simp only [foldlM_cons, bind_eq_ok] at hloop
      obtain ⟨s₁, hstep, hloop⟩ := hloop
      obtain ⟨mid, _, _, htx, htxs, _⟩ := UtxoSet.connectTransactions_cons.mp hset
      obtain ⟨_, _, _, _, _, hview, _, _⟩ := connectStep_ok hstep
      have hmid := h.connectStep hin hids (hsane tx mem_cons_self) hstep htx
      obtain ⟨hlast, hplain⟩ := hmid.connectLoop
        (hin.step (hids tx mem_cons_self) hnodup hview htx)
        (fun t ht => hids t (mem_cons_of_mem _ ht)) (fun t ht => hsane t (mem_cons_of_mem _ ht))
        (nodup_cons.mp hnodup).2 hloop htxs
      refine ⟨hlast.mono ?_, hplain⟩
      rw [connectStep_view hstep]
      simp only [grossFees, sumOverLoop, map_cons, sum_cons]
      omega

/-! ## A block -/

/-- Subsidy, bounty and the outputs of the transactions without real inputs. -/
def issued (env : Env) (s : ChainState) (block : Block) : ℤ :=
  (calcBlockSubsidy (s.tip.height + 1) env.params).toInt +
    vdfBounty env s.idx (s.tip.child block) (withHeight s.tip block) +
    mintedValue block (s.tip.height + 1)

/-- Only the coinbase and the sentinel transactions issue. -/
theorem issuedBy_sum_le (hs : SaneBlock block) (height : Nat) :
    (block.transactions.map (issuedBy height)).sum ≤
      coinbaseValue block + mintedValue block height := by
  obtain ⟨cb, rest, htxs, hcb, hothers⟩ := hs.coinbase_first
  have hsane : ∀ tx ∈ cb :: rest, SaneTx tx := htxs ▸ hs.sane
  have hfirst : issuedBy height cb ≤ outputValue cb := by
    rw [issuedBy, if_neg (by simp [movesCoins, hcb])]
    exact createdValue_le (hsane cb mem_cons_self) height
  have hrest : ∀ txs : List Tx, (∀ tx ∈ txs, tx.isCoinBase = false) →
      (txs.map (issuedBy height)).sum =
      ((txs.filter isSentinelTx).map fun tx => createdValue tx height).sum := by
    intro txs
    induction txs with
    | nil => exact fun _ => rfl
    | cons tx txs ih =>
      intro hno
      have hcb' := hno tx mem_cons_self
      have hlater := ih fun t ht => hno t (mem_cons_of_mem _ ht)
      grind [issuedBy, movesCoins, isSentinelTx]
  have hcreated := createdValue_nonneg (hsane cb mem_cons_self) height
  have hsplit : ((rest.filter isSentinelTx).map fun tx => createdValue tx height).sum ≤
      mintedValue block height := by
    rw [mintedValue, htxs, filter_cons]
    split
    · rw [map_cons, sum_cons]
      omega
    · exact le_rfl
  rw [coinbaseValue, htxs, map_cons, sum_cons, hrest rest hothers]
  simp only [head?_cons, Option.map_some, Option.getD_some]
  omega

/-- The overwrite check is made for the block. -/
def OverwriteChecked (env : Env) (s : ChainState) (block : Block) : Prop :=
  bip0030CheckNeeded (s.tip.child block) env.params = true

theorem SupplyLe.extend {s s' : ChainState} (h : SupplyLe s.utxos B)
    (hplain : PlainCoins s.utxos) (hids : ∀ tx ∈ block.transactions, PlainId tx)
    (hneeded : OverwriteChecked env s block) (hext : s.extend env block = .ok s') :
    SupplyLe s'.utxos (B + issued env s block) ∧ PlainCoins s'.utxos := by
  obtain ⟨hacc, _, _, _, stxos, hset⟩ := extend_ok hext
  have hsane := saneBlock_of_check hacc.1
  obtain ⟨_, hcoinbase⟩ := coinbase_le_gross hacc
  obtain ⟨loaded, c, hpre, hloop, _⟩ := accepts_checkConnectBlock.mp hacc.2
  obtain ⟨_, hload, _⟩ := checkConnectPrefix_ok hpre
  have hheight : (s.tip.child block).height = s.tip.height + 1 := child_height s.tip
  have hin : InStep (s.tip.child block).height loaded s.utxos block.transactions := by
    refine ⟨fun op hno => ?_, fun tx htx op hmade => ?_, hplain⟩
    · exact loadView_agrees hload hno
    · by_contra hcoin
      obtain ⟨c, hc⟩ := Option.ne_none_iff_exists'.mp hcoin
      exact hmade (not_overwritten hload hneeded hc htx)
  obtain ⟨hlast, hplain'⟩ := h.connectLoop hin hids hsane.sane hsane.ids_nodup hloop
    (hheight ▸ hset)
  refine ⟨hlast.mono ?_, hplain'⟩
  have hissued := issuedBy_sum_le hsane (s.tip.child block).height
  have hloaded : loadedView env s.utxos (s.tip.child block) (withHeight s.tip block)
      (UtxoViewpoint.new s.tip.hash) = loaded := by simp [loadedView, hpre]
  simp only [grossCeiling, hloaded] at hcoinbase
  simp only [issued, ← hheight]
  have hsame : mintedValue (withHeight s.tip block) = mintedValue block := rfl
  have htxs : (withHeight s.tip block).transactions = block.transactions := rfl
  rw [hsame] at hissued
  rw [htxs] at hissued hcoinbase
  omega

/-! ## Whole runs -/

theorem supply_run {s s' : ChainState} {blocks : List Block}
    (hrun : runBlocks env s blocks = .ok s') :
    ∀ {B : ℤ}, SupplyLe s.utxos B → PlainCoins s.utxos →
    (∀ block ∈ blocks, ∀ tx ∈ block.transactions, PlainId tx) →
    RunMeets env (OverwriteChecked env) s blocks →
    SupplyLe s'.utxos (B + runTotal env (issued env) s blocks) := by
  induction hrun using runBlocks_induct with
  | nil s => exact fun h _ _ _ => h.mono (by simp [runTotal])
  | cons s block s₁ blocks s' hstep hrest ih =>
    intro B h hplain hids hmeets
    obtain ⟨h₁, hplain₁⟩ := h.extend hplain (hids block mem_cons_self) hmeets.1 hstep
    refine (ih h₁ hplain₁ (fun b hb => hids b (mem_cons_of_mem _ hb)) (hmeets.2 s₁ hstep)).mono ?_
    simp only [runTotal, hstep]
    omega

/-- Subsidy, bounty and what VDF results pay out of nothing. -/
def mined (env : Env) (s : ChainState) (block : Block) : ℤ :=
  (calcBlockSubsidy (s.tip.height + 1) env.params).toInt +
    vdfBounty env s.idx (s.tip.child block) (withHeight s.tip block) +
    ((block.transactions.filter isPlainResult).map fun tx => createdValue tx (s.tip.height + 1)).sum

theorem runTotal_issued : ∀ (blocks : List Block) (s : ChainState),
    runTotal env (issued env) s blocks =
      runTotal env (mined env) s blocks + runTotal env prizesPaid s blocks
  | [], _ => rfl
  | block :: blocks, s => by
      have hsplit := mintedValue_split (s.tip.height + 1) block.transactions
      have hlater := runTotal_issued blocks
      simp only [runTotal, issued, mined, prizesPaid, mintedValue]
      split <;> grind

section
variable {genesis : HeaderInfo} {blocks : List Block} {s : ChainState}
  (hrun : runBlocks env (genesisState genesis) blocks = .ok s)
  (hids : ∀ block ∈ blocks, ∀ tx ∈ block.transactions, PlainId tx)
  (hchecked : RunMeets env (OverwriteChecked env) (genesisState genesis) blocks)
  (S : Finset OutPoint)
include hrun hids hchecked

/-- Along every run of accepted blocks whose transactions have ids of the ordinary
form, the coins at any outpoints are worth no more than what the blocks issued. -/
theorem supply_le_issued : ∑ op ∈ S, Bucket.worthAt Coin.worth s.utxos op ≤
    runTotal env (issued env) (genesisState genesis) blocks := by
  have h := supply_run hrun Bucket.HoldsAtMost.empty (fun _ hop => absurd rfl hop) hids hchecked S
  rwa [zero_add] at h

end

/-- A first block that pays its whole subsidy to wallet 1. -/
def subsidyBlock : Block :=
  regularBlock 1 [coinbaseTx 1 (replicate 2 ⟨50000000000, makeWinnerP2WPKHScript 1⟩)]

theorem subsidy_is_supply :
    ∃ s, runBlocks youngMainNet (genesisState (regularInfo 0)) [subsidyBlock] = .ok s ∧
      ∑ op ∈ {⟨1, 0⟩, ⟨1, 1⟩}, Bucket.worthAt Coin.worth s.utxos op = 100000000000 ∧
      ∀ S, ∑ op ∈ S, Bucket.worthAt Coin.worth s.utxos op ≤ 100000000000 := by
  obtain ⟨s, hrun, hholds⟩ : ∃ s,
      runBlocks youngMainNet (genesisState (regularInfo 0)) [subsidyBlock] = .ok s ∧
      ∑ op ∈ {⟨1, 0⟩, ⟨1, 1⟩}, Bucket.worthAt Coin.worth s.utxos op = 100000000000 := by
    decide +kernel
  have htotal : runTotal youngMainNet (issued youngMainNet) (genesisState (regularInfo 0))
      [subsidyBlock] = 100000000000 := by decide +kernel
  refine ⟨s, hrun, hholds, fun S => ?_⟩
  rw [← htotal]
  exact supply_le_issued hrun (by decide +kernel)
    ⟨by unfold OverwriteChecked; decide +kernel, fun _ _ => trivial⟩ S

end FalconDraw.Chain
