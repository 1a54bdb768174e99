/-
FalconDraw.Chain.SpendTheorems — is a coin that a block refers to really spent?

The fee check reads the value of an input from the view, the view marks it spent,
the UTXO set deletes it, and the script check runs its script.
-/
import FalconDraw.Chain.UtxoTheorems
import FalconDraw.Chain.FeeTheorems
import FalconDraw.Chain.Run

namespace FalconDraw.Chain

open Lib Wire Draw List

variable {env : Env} {utxos utxos' : UtxoSet} {idx : StakeIndex} {node : BlockNode}
  {block : Block} {view view' : UtxoViewpoint} {op : OutPoint}

variable {height : Nat} {loaded : UtxoViewpoint}

/-! ## View and set at one outpoint -/

/-- An unspent entry of the view is the coin the set holds. -/
def AgreeAt (op : OutPoint) (view : UtxoViewpoint) (utxos : UtxoSet) : Prop :=
  ∀ e, view.lookupEntry op = some e → e.isSpent = false → utxos.get op = some e.coin

/-- A transaction keeps the agreement, and one that makes a coin for the
outpoint brings it about. -/
theorem agreeAt_step {tx : Tx} {stxos stxos' : List SpentTxOut}
    (hview : view.connectTransaction tx height = .ok (view', stxos))
    (hset : UtxoSet.connectTransaction utxos tx height = .ok (utxos', stxos'))
    (h : outputCoin tx height op = none → AgreeAt op view utxos) : AgreeAt op view' utxos' := by
  intro e he hunspent
  rw [UtxoViewpoint.lookup_connectTransaction hview] at he
  rw [(UtxoSet.get_connectTransaction op hset).1]
  cases hout : outputCoin tx height op with
  | some c =>
    obtain rfl : c.created = e := by simpa [hout] using he
    rfl
  | none =>
    rw [hout] at he
    cases hsp : txSpends tx op with
    | false => exact h hout e (by simpa [hsp] using he) hunspent
    | true =>
      -- a spent entry is not an unspent one
      obtain ⟨e₀, _, rfl⟩ : ∃ e₀, view.lookupEntry op = some e₀ ∧ e₀.spend = e := by
        simpa [hsp] using he
      simp at hunspent

/-- Along the transaction loop: once no transaction to come makes a coin for the
outpoint, view and set agree there. -/
theorem agreeAt_loop {rest : List Tx} : ∀ {txs : List Tx} {s s' : ConnectState}
    {utxos utxos' : UtxoSet} {stxos : List SpentTxOut},
    txs.foldlM (connectStep env node) s = .ok s' →
    UtxoSet.connectTransactions node.height utxos txs = .ok (utxos', stxos) →
    (∀ tx ∈ rest, outputCoin tx node.height op = none) →
    ((∀ tx ∈ txs ++ rest, outputCoin tx node.height op = none) → AgreeAt op s.view utxos) →
    AgreeAt op s'.view utxos'
  | [], s, s', utxos, utxos', stxos, hloop, hset, hrest, hstart => by
      obtain rfl : s = s' := by simpa using hloop
      simp only [UtxoSet.connectTransactions, Except.ok.injEq, Prod.mk.injEq] at hset
      exact hset.1 ▸ hstart hrest
  | tx :: txs, s, s', utxos, utxos', stxos, hloop, hset, hrest, hstart => by
      simp only [foldlM_cons, bind_eq_ok] at hloop
      obtain ⟨s₁, hstep, hloop⟩ := hloop
      obtain ⟨mid, _, _, htx, htxs, _⟩ := UtxoSet.connectTransactions_cons.mp hset
      obtain ⟨_, _, _, _, _, hview, _, _⟩ := connectStep_ok hstep
      refine agreeAt_loop hloop htxs hrest fun hlater => ?_
      refine agreeAt_step hview htx fun hnot => hstart ?_
      intro t ht
      rcases mem_cons.mp ht with rfl | ht
      · exact hnot
      · exact hlater t ht

theorem coin_kept_loop : ∀ {txs : List Tx} {s s' : ConnectState} {e : UtxoEntry},
    txs.foldlM (connectStep env node) s = .ok s' →
    (∀ tx ∈ txs, outputCoin tx node.height op = none) → s.view.lookupEntry op = some e →
    ∃ e', s'.view.lookupEntry op = some e' ∧ e'.coin = e.coin
  | [], s, s', e, hloop, _, he => by
      obtain rfl : s = s' := by simpa using hloop
      exact ⟨e, he, rfl⟩
  | tx :: txs, s, s', e, hloop, hno, he => by
      simp only [foldlM_cons, bind_eq_ok] at hloop
      obtain ⟨s₁, hstep, hloop⟩ := hloop
      obtain ⟨_, _, _, _, _, hview, _, _⟩ := connectStep_ok hstep
      have hlook : s₁.view.lookupEntry op = _ := UtxoViewpoint.lookup_connectTransaction hview
      rw [hno tx mem_cons_self, he] at hlook
      have hlater : ∀ t ∈ txs, outputCoin t node.height op = none :=
        fun t ht => hno t (mem_cons_of_mem _ ht)
      cases hsp : txSpends tx op with
      | false => exact coin_kept_loop hloop hlater (by simpa [hsp] using hlook)
      | true =>
        obtain ⟨e', he', hcoin⟩ :=
          coin_kept_loop hloop hlater (e := e.spend) (by simpa [hsp] using hlook)
        exact ⟨e', he', by simpa using hcoin⟩

/-! ## The loaded view -/

/-- The overwrite check accepts no block that makes a coin, or an unspendable
output, for an outpoint that has a coin. -/
theorem checkBIP0030_ok (h : checkBIP0030 utxos block view = .ok view') :
    view'.onto utxos = view.onto utxos ∧
      ∀ op ∈ createdOutPoints block.transactions, (view.onto utxos).get op = none := by
  simp only [checkBIP0030, bind_eq_ok, exists_unit, forM_eq_ok, pure_eq_ok] at h
  obtain ⟨hall, rfl⟩ := h
  have hsame : (view.fetchUtxos utxos (createdOutPoints block.transactions)).onto utxos =
      view.onto utxos := UtxoViewpoint.over_fetchUtxos view _
  refine ⟨hsame, ?_⟩
  intro op hop
  rw [← hsame, UtxoViewpoint.get_over]
  have hcheck := hall op hop
  cases hkey : (view.fetchUtxos utxos (createdOutPoints block.transactions)).entries.get op with
  | none => exact absurd hkey (UtxoViewpoint.entry_fetchUtxos hop)
  | some x => grind [UtxoViewpoint.lookupEntry, rejectIf_eq_ok, UtxoViewpoint.coinOf]

theorem mem_createdOutPoints {tx : Tx} {txs : List Tx} (htx : tx ∈ txs)
    (hc : outputCoin tx height op ≠ none) : op ∈ createdOutPoints txs := by
  obtain ⟨hhash, hindex⟩ := outputCoin_hash hc
  simp only [createdOutPoints, mem_flatMap, mem_map, mem_range]
  exact ⟨tx, htx, op.index, hindex, by rw [hhash]⟩

theorem loadView_ok (h : loadView env utxos node block view = .ok loaded) :
    ∃ view₁ : UtxoViewpoint, loaded = view₁.fetchInputUtxos utxos block ∧
      view₁.onto utxos = view.onto utxos ∧
      (bip0030CheckNeeded node env.params = true →
        ∀ op ∈ createdOutPoints block.transactions, (view.onto utxos).get op = none) := by
  unfold loadView at h
  split at h
  case isTrue =>
    simp only [bind_eq_ok, pure_eq_ok] at h
    obtain ⟨view₁, hbip, rfl⟩ := h
    obtain ⟨hsame, hnone⟩ := checkBIP0030_ok hbip
    exact ⟨view₁, rfl, hsame, fun _ => hnone⟩
  case isFalse hnot => grind [bind_eq_ok, pure_eq_ok]

theorem loadView_over (h : loadView env utxos node block view = .ok loaded)
    (hno : ∀ tx ∈ block.transactions, outputCoin tx node.height op = none) :
    (loaded.onto utxos).get op = (view.onto utxos).get op := by
  obtain ⟨view₁, rfl, hsame, _⟩ := loadView_ok h
  rw [UtxoViewpoint.over_fetchInputUtxos fun tx htx => outputCoin_eq_none_iff.mp (hno tx htx),
    hsame]

theorem loadView_agrees (h : loadView env utxos node block view = .ok loaded)
    (hno : ∀ tx ∈ block.transactions, outputCoin tx node.height op = none) :
    AgreeAt op loaded (view.onto utxos) := by
  intro e he hunspent
  rw [← loadView_over h hno]
  exact UtxoViewpoint.over_of_lookup he hunspent

theorem checkConnectPrefix_ok (h : checkConnectPrefix env utxos node block view = .ok loaded) :
    view.bestHash = block.header.prevBlock ∧ loadView env utxos node block view = .ok loaded ∧
      checkSigOpCost loaded (scriptFlags env node block).bip16
        (scriptFlags env node block).witness true 0 block.transactions = .ok () := by
  simp only [checkConnectPrefix, bind_eq_ok, exists_unit, rejectIf_eq_ok, pure_eq_ok,
    ne_eq, not_not] at h
  obtain ⟨_, hbest, v, hload, hsig, rfl⟩ := h
  exact ⟨hbest, hload, hsig⟩

/-- Where the overwrite check is made, an outpoint with a coin before the block
gets no second one from it. -/
theorem not_overwritten {c : Coin} (h : loadView env utxos node block view = .ok loaded)
    (hneeded : bip0030CheckNeeded node env.params = true)
    (hc : (view.onto utxos).get op = some c) {tx : Tx} (htx : tx ∈ block.transactions) :
    outputCoin tx node.height op = none := by
  obtain ⟨_, _, _, hfree⟩ := loadView_ok h
  by_contra hmade
  have hnone := hfree hneeded op (mem_createdOutPoints htx hmade)
  rw [hnone] at hc
  cases hc

/-! ## The fee check and the scripts -/

/-- The fee check of the transaction counts the coin at the outpoint. -/
def countsCoin (tx : Tx) (op : OutPoint) : Bool :=
  movesCoins tx && tx.msgTx.txIn.any fun t => t.previousOutPoint == op

def viewAfter (env : Env) (utxos : UtxoSet) (node : BlockNode) (block : Block)
    (view : UtxoViewpoint) (txs : List Tx) : UtxoViewpoint :=
  txs.foldl (stepView node.height) (loadedView env utxos node block view)

theorem connectLoop_view : ∀ {txs : List Tx} {s s' : ConnectState},
    txs.foldlM (connectStep env node) s = .ok s' → s'.view = txs.foldl (stepView node.height) s.view
  | [], s, s', h => by
      obtain rfl : s = s' := by simpa using h
      rfl
  | tx :: txs, s, s', h => by
      simp only [foldlM_cons, bind_eq_ok] at h
      obtain ⟨s₁, hstep, hloop⟩ := h
      rw [connectLoop_view hloop, connectStep_view hstep, foldl_cons]

theorem sumInputs_unspent {p : Params} {b : Int64} {t : TxIn} :
    ∀ {txIn : List TxIn} {total : Int64}, sumInputs p height view total txIn = .ok b →
    t ∈ txIn → ∃ e, view.lookupEntry t.previousOutPoint = some e ∧ e.isSpent = false
  | [], _, _, ht => by simp at ht
  | t' :: ts, total, h, ht => by
      cases he : view.lookupEntry t'.previousOutPoint with
      | none => simp [sumInputs, he] at h
      | some e =>
        simp only [sumInputs, he, bind_eq_ok, exists_unit, rejectIf_eq_ok] at h
        obtain ⟨hspent, _, _, _, _, hrest⟩ := h
        rcases mem_cons.mp ht with rfl | ht
        · exact ⟨e, he, by simpa using hspent⟩
        · exact sumInputs_unspent hrest ht

theorem connectStep_unspent {s s' : ConnectState} {tx : Tx} {t : TxIn}
    (h : connectStep env node s tx = .ok s') (hmoves : movesCoins tx = true)
    (ht : t ∈ tx.msgTx.txIn) :
    ∃ e, s.view.lookupEntry t.previousOutPoint = some e ∧ e.isSpent = false := by
  obtain ⟨fee, _, hfee, _⟩ := connectStep_ok h
  simp only [movesCoins, Bool.and_eq_true, Bool.not_eq_true'] at hmoves
  simp only [checkTransactionInputs, hmoves.1, hmoves.2, Bool.false_eq_true, if_false,
    bind_eq_ok] at hfee
  obtain ⟨b, hsum, _⟩ := hfee
  exact sumInputs_unspent hsum ht

theorem sentinel_congr {t t' : TxIn} (h : t.previousOutPoint = t'.previousOutPoint) :
    isPoolDrawSentinelInput t = isPoolDrawSentinelInput t' := by
  rw [isPoolDrawSentinelInput, isPoolDrawSentinelInput, h]

theorem txSpends_of_countsCoin {tx : Tx} {t : TxIn} (hsent : isPoolDrawSentinelInput t = false)
    (h : countsCoin tx t.previousOutPoint = true) : txSpends tx t.previousOutPoint = true := by
  grind [countsCoin, movesCoins, inputsSpend, sentinel_congr, txSpends]

/-! ## Indices of coins -/

/-- No coin has the index that marks an input without a coin. -/
def IndexBounded (utxos : UtxoSet) : Prop :=
  ∀ op c, utxos.get op = some c → op.index < maxPrevOutIndex

theorem outputCoin_index {tx : Tx} (hsane : SaneTx tx)
    (hc : outputCoin tx height op ≠ none) : op.index < maxPrevOutIndex := by
  have hindex := (outputCoin_hash hc).2
  have hlen := outputs_le_size tx.msgTx
  have hsize := hsane.size_le
  simp only [maxBlockBaseSize, maxPrevOutIndex] at hsize ⊢
  omega

theorem IndexBounded.connectTransactions {txs : List Tx}
    {stxos : List SpentTxOut} (h : IndexBounded utxos) (hsane : ∀ tx ∈ txs, SaneTx tx)
    (hconn : UtxoSet.connectTransactions height utxos txs = .ok (utxos', stxos)) :
    IndexBounded utxos' := by
  intro op c hc
  rcases UtxoSet.source_of_connectTransactions hconn hc with ⟨tx, htx, hmade⟩ | ⟨hold, _⟩
  · have hne : outputCoin tx height op ≠ none := by simp [hmade]
    exact outputCoin_index (hsane tx htx) hne
  · exact h op c hold

/-! ## What happens to one coin -/

section OneCoin

variable {pre post : List Tx} {tx : Tx} {t : TxIn} {i : Nat} {c : Coin} {mid : UtxoSet}
  {stxos stxos' : List SpentTxOut}

theorem no_later_coin (hsane : SaneBlock block) {loaded : UtxoViewpoint}
    (hload : loadView env utxos node block view = .ok loaded)
    (htxs : block.transactions = pre ++ tx :: post)
    (hmid : UtxoSet.connectTransactions node.height (view.onto utxos) pre = .ok (mid, stxos))
    (hcoin : mid.get op = some c) (hneeded : bip0030CheckNeeded node env.params = true) :
    ∀ t ∈ tx :: post, outputCoin t node.height op = none := by
  intro t ht
  rcases UtxoSet.source_of_connectTransactions hmid hcoin with ⟨t₀, ht₀, hmade⟩ | ⟨hold, _⟩
  · -- made by an earlier transaction of the block: ids are distinct
    by_contra hagain
    have hmade' : outputCoin t₀ node.height op ≠ none := by simp [hmade]
    have hnodup := hsane.ids_nodup
    rw [htxs, map_append] at hnodup
    have hdisj := (nodup_append.mp hnodup).2.2
    refine hdisj _ (mem_map_of_mem ht₀) _ (mem_map_of_mem ht) ?_
    rw [(outputCoin_hash hmade').1, (outputCoin_hash hagain).1]
  · exact not_overwritten hload hneeded hold (by rw [htxs]; exact mem_append_right _ ht)

/-- A transaction that counted the outpoint before counted another coin: this
one was made after it. -/
theorem counted_before (hsent : isPoolDrawSentinelInput t = false)
    (hmid : UtxoSet.connectTransactions node.height utxos pre = .ok (mid, stxos))
    (hcoin : mid.get t.previousOutPoint = some c) {a b : List Tx} {tx' : Tx}
    (hpre : pre = a ++ tx' :: b) (hcounts : countsCoin tx' t.previousOutPoint = true) :
    ∃ t₀ ∈ tx' :: b, outputCoin t₀ node.height t.previousOutPoint = some c := by
  rw [hpre] at hmid
  obtain ⟨_, _, _, _, hrest, _⟩ := UtxoSet.connectTransactions_append.mp hmid
  rcases UtxoSet.source_of_connectTransactions hrest hcoin with hmade | ⟨_, hkept⟩
  · exact hmade
  · have hspends := txSpends_of_countsCoin hsent hcounts
    rw [hkept tx' mem_cons_self] at hspends
    cases hspends

/-- The set after the block has no coin at the outpoint, and no later
transaction counts one. -/
theorem gone_after (hsent : isPoolDrawSentinelInput t = false)
    (htx : countsCoin tx t.previousOutPoint = true)
    (hno : ∀ t' ∈ tx :: post, outputCoin t' node.height t.previousOutPoint = none)
    (hconn : UtxoSet.connectTransactions node.height mid (tx :: post) = .ok (utxos', stxos)) :
    utxos'.get t.previousOutPoint = none ∧
      ∀ tx' ∈ post, countsCoin tx' t.previousOutPoint = false := by
  obtain ⟨next, _, _, hstep, hrest, _⟩ := UtxoSet.connectTransactions_cons.mp hconn
  have hgone : next.get t.previousOutPoint = none := by
    rw [(UtxoSet.get_connectTransaction _ hstep).1, hno tx mem_cons_self,
      txSpends_of_countsCoin hsent htx]
    rfl
  obtain ⟨hend, hnospend⟩ := UtxoSet.absent_of_connectTransactions hrest hgone
    fun t' ht' => hno t' (mem_cons_of_mem _ ht')
  refine ⟨hend, fun tx' htx' => ?_⟩
  by_contra hcounts
  have hspends := txSpends_of_countsCoin hsent (Bool.not_eq_false _ ▸ hcounts)
  rw [hnospend tx' htx'] at hspends
  cases hspends

theorem scripts_checked {flags : ScriptFlags} {txs : List Tx}
    (h : checkBlockScripts env flags view txs = .ok ()) (htx : tx ∈ txs)
    (hin : tx.msgTx.txIn[i]? = some t) (hv : isVDFResultTx tx = false)
    (hindex : t.previousOutPoint.index < maxPrevOutIndex)
    (hsent : isPoolDrawSentinelInput t = false) :
    ∃ e, view.lookupEntry t.previousOutPoint = some e ∧
      checkAuthority env flags view tx i t e = .ok () := by
  simp only [checkBlockScripts, forM_eq_ok] at h
  have hone := h tx htx (t, i) (mem_zipIdx_iff_getElem?.mpr hin)
  have hne : (t.previousOutPoint.index == maxPrevOutIndex) = false :=
    beq_false_of_ne (Nat.ne_of_lt hindex)
  simp only [checkInputScript, hv, hne, hsent, Bool.or_self, Bool.false_eq_true, if_false] at hone
  cases he : view.lookupEntry t.previousOutPoint with
  | none => simp [he] at hone
  | some e => exact ⟨e, rfl, by simpa [he] using hone⟩

/-- The value of the coin enters the fees of the block exactly once. -/
structure ConsumedOnce (env : Env) (utxos : UtxoSet) (node : BlockNode) (block : Block)
    (view : UtxoViewpoint) (pre post : List Tx) (tx : Tx) (op : OutPoint) (c : Coin) : Prop where
  -- the fee check of the transaction reads this coin, unspent
  counted : ∃ e, (viewAfter env utxos node block view pre).lookupEntry op = some e ∧
    e.isSpent = false ∧ e.coin = c
  once : (tx.msgTx.txIn.map TxIn.previousOutPoint).count op = 1
  not_later : ∀ tx' ∈ post, countsCoin tx' op = false
  -- an earlier count of the outpoint was of a coin that this one has replaced
  not_earlier : ∀ a tx' b, pre = a ++ tx' :: b → countsCoin tx' op = true →
    ∃ t₀ ∈ tx' :: b, outputCoin t₀ node.height op = some c

/-- A coin that an ordinary or pool-stake transaction of an accepted block refers
to, at an outpoint that does not have the sentinel shape: after the block it is
gone, its value is counted once, and above the latest checkpoint its script or
owner was checked. -/
theorem coin_spent_and_authorized (h : BlockAccepted env utxos idx node block view)
    (hbounded : IndexBounded (view.onto utxos))
    (hconn : UtxoSet.connectTransactions node.height (view.onto utxos) block.transactions =
      .ok (utxos', stxos'))
    (htxs : block.transactions = pre ++ tx :: post) (hmoves : movesCoins tx = true)
    (hmid : UtxoSet.connectTransactions node.height (view.onto utxos) pre = .ok (mid, stxos))
    (hin : tx.msgTx.txIn[i]? = some t) (hsent : isPoolDrawSentinelInput t = false)
    (hcoin : mid.get t.previousOutPoint = some c)
    (hkept : bip0030CheckNeeded node env.params = true ∨
      ∀ t' ∈ tx :: post, outputCoin t' node.height t.previousOutPoint = none) :
    utxos'.get t.previousOutPoint = none ∧
      ConsumedOnce env utxos node block view pre post tx t.previousOutPoint c ∧
      (runScripts env node = true → ∃ e, e.coin = c ∧
        checkAuthority env (scriptFlags env node block)
          (viewAfter env utxos node block view block.transactions) tx i t e = .ok ()) := by
  obtain ⟨hsanity, hconnect⟩ := h
  have hsane := saneBlock_of_check hsanity
  obtain ⟨loaded, s, hpre, hloop, hsuf⟩ := accepts_checkConnectBlock.mp hconnect
  obtain ⟨_, hload, _⟩ := checkConnectPrefix_ok hpre
  have hmem : t ∈ tx.msgTx.txIn := mem_of_getElem? hin
  have hcounts : countsCoin tx t.previousOutPoint = true := by
    simp only [countsCoin, hmoves, Bool.true_and, any_eq_true, beq_iff_eq]
    exact ⟨t, hmem, rfl⟩
  have hno : ∀ t' ∈ tx :: post, outputCoin t' node.height t.previousOutPoint = none :=
    hkept.elim (no_later_coin hsane hload htxs hmid hcoin) id
  -- the set: split the connection at the transaction
  obtain ⟨m, _, _, hm, hrest, _⟩ := UtxoSet.connectTransactions_append.mp (htxs ▸ hconn)
  obtain ⟨rfl, _⟩ := Prod.mk.inj (Except.ok.inj (hm.symm.trans hmid))
  obtain ⟨hgone, hlater⟩ := gone_after hsent hcounts hno hrest
  -- the view: split the loop there too
  rw [htxs, foldlM_append, bind_eq_ok] at hloop
  obtain ⟨s₁, hloop₁, hloop₂⟩ := hloop
  have hagree : AgreeAt t.previousOutPoint s₁.view m := by
    refine agreeAt_loop hloop₁ hmid hno fun hall => loadView_agrees hload ?_
    rwa [htxs]
  have hstep := hloop₂
  simp only [foldlM_cons, bind_eq_ok] at hstep
  obtain ⟨s₂, hstep, _⟩ := hstep
  obtain ⟨e, he, hunspent⟩ := connectStep_unspent hstep hmoves hmem
  have hec : e.coin = c := Option.some.inj ((hagree e he hunspent).symm.trans hcoin)
  have hloaded : loadedView env utxos node block view = loaded := by simp [loadedView, hpre]
  refine ⟨hgone, ⟨⟨e, ?_, hunspent, hec⟩, ?_, hlater, ?_⟩, ?_⟩
  · rw [viewAfter, hloaded, ← connectLoop_view hloop₁, he]
  · have hsaneTx := hsane.sane tx (by simp [htxs])
    exact count_eq_one_of_mem hsaneTx.inputs_nodup (mem_map_of_mem hmem)
  · intro a tx' b hsplit hcounted
    exact counted_before hsent hmid hcoin hsplit hcounted
  · intro hrun
    obtain ⟨_, _, _, _, hscripts⟩ := checkConnectSuffix_ok.mp hsuf
    obtain ⟨e', he', hcoin'⟩ := coin_kept_loop hloop₂ hno he
    have hindex : t.previousOutPoint.index < maxPrevOutIndex :=
      hbounded.connectTransactions (fun t' ht' => hsane.sane t' (by simp [htxs, ht'])) hmid _ _ hcoin
    have hv : isVDFResultTx tx = false := by
      simp only [movesCoins, Bool.and_eq_true, Bool.not_eq_true', Bool.or_eq_false_iff] at hmoves
      exact hmoves.2.2
    obtain ⟨e'', he'', hauth⟩ :=
      scripts_checked (hscripts hrun) (by simp [htxs]) hin hv hindex hsent
    have hfinal : viewAfter env utxos node block view block.transactions = s.view := by
      rw [viewAfter, hloaded, htxs, foldl_append, connectLoop_view hloop₂,
        connectLoop_view hloop₁]
    refine ⟨e'', ?_, by rwa [hfinal]⟩
    rw [← hec, ← hcoin', Option.some.inj (he''.symm.trans he')]

end OneCoin

/-! ## Three blocks -/

def walletCoin : Coin := ⟨100000000, makeWinnerP2WPKHScript 1, 1, false⟩

def coinsAt (ops : List OutPoint) : UtxoSet :=
  ops.foldl (fun utxos op => utxos.put op walletCoin) Bucket.empty

/-- An ordinary transaction without any signature that moves one coin. -/
def unsignedTx (hash : Hash) (op : OutPoint) : Tx :=
  { hash := hash
    msgTx := { version := txVersion, txIn := [{ previousOutPoint := op }]
               txOut := [⟨100000000, makeWinnerP2WPKHScript 2⟩] } }

/-- The block at height 3 with these transactions after an idle coinbase. -/
def thirdBlock (txs : List Tx) : Block := regularBlock 3 (idleCoinbase :: txs)

theorem indexBounded_coinsAt (op : OutPoint) (h : op.index < maxPrevOutIndex) :
    IndexBounded (coinsAt [op]) := by
  intro op' c hc
  by_cases hop : op' = op
  · exact hop ▸ h
  · simp [coinsAt, Bucket.get_put_of_ne _ _ hop] at hc

/-- An accepted block that spends an ordinary coin: the coin is gone. -/
theorem ordinary_coin_spent : ∃ utxos' stxos, UtxoSet.connectTransactions 3 (coinsAt [⟨77, 0⟩])
        (idleCoinbase :: [unsignedTx 50 ⟨77, 0⟩]) = .ok (utxos', stxos) ∧
      utxos'.get ⟨77, 0⟩ = none ∧
      ConsumedOnce youngMainNet (coinsAt [⟨77, 0⟩]) (regularNode 3)
        (thirdBlock [unsignedTx 50 ⟨77, 0⟩]) (UtxoViewpoint.new (regularInfo 2).hash)
        [idleCoinbase] [] (unsignedTx 50 ⟨77, 0⟩) ⟨77, 0⟩ walletCoin := by
  have hacc : BlockAccepted youngMainNet (coinsAt [⟨77, 0⟩]) StakeIndex.empty (regularNode 3)
      (thirdBlock [unsignedTx 50 ⟨77, 0⟩]) (UtxoViewpoint.new (regularInfo 2).hash) := by
    decide +kernel
  obtain ⟨utxos', stxos', hconn, -⟩ : ∃ utxos' stxos', UtxoSet.connectTransactions 3
      (coinsAt [⟨77, 0⟩]) (idleCoinbase :: [unsignedTx 50 ⟨77, 0⟩]) = .ok (utxos', stxos') ∧
      True := by decide +kernel
  obtain ⟨mid, stxos, hmid, hcoin⟩ : ∃ mid stxos, UtxoSet.connectTransactions 3
      (coinsAt [⟨77, 0⟩]) [idleCoinbase] = .ok (mid, stxos) ∧
      mid.get ⟨77, 0⟩ = some walletCoin := by decide +kernel
  obtain ⟨hgone, honce, _⟩ := coin_spent_and_authorized hacc
    (indexBounded_coinsAt ⟨77, 0⟩ (by decide)) hconn rfl (by decide) hmid
    (i := 0) (t := { previousOutPoint := ⟨77, 0⟩ }) rfl (by decide) hcoin
    (Or.inl (by decide))
  exact ⟨utxos', stxos', hconn, hgone, honce⟩

/-- An id that begins with "FDRP". -/
def fdrpId : Hash := Hash.ofBytes ([0x46, 0x44, 0x52, 0x50] ++ List.replicate 28 7)

def strictNet : Env := { youngMainNet with runScript := fun _ _ _ _ _ => false }

def checkpointNet : Env := { strictNet with latestCheckpoint := some 10 }

/-- A network whose chain has the BIP34 block, so that ids may come again. -/
def bip34Net : Env :=
  { youngMainNet with params :=
      { mainNetParams with bip0034Height := 1, bip0034Hash := some (regularInfo 1).hash } }

/-- The coin at `op` is there before the block, which is accepted and whose
second transaction counts it, and the outpoint has this coin afterwards. -/
def CoinAfter (env : Env) (utxos : UtxoSet) (block : Block) (op : OutPoint)
    (after : Option Coin) : Prop :=
  BlockAccepted env utxos StakeIndex.empty (regularNode 3) block
      (UtxoViewpoint.new (regularInfo 2).hash) ∧
    utxos.get op = some walletCoin ∧
    (block.transactions[1]?.any fun tx => countsCoin tx op) = true ∧
    ∃ utxos' stxos, UtxoSet.connectTransactions 3 utxos block.transactions =
      .ok (utxos', stxos) ∧ utxos'.get op = after

instance (env : Env) (utxos : UtxoSet) (block : Block) (op : OutPoint) (after : Option Coin) :
    Decidable (CoinAfter env utxos block op after) :=
  inferInstanceAs (Decidable (_ ∧ _))

/-- Three coins that are counted in the fee check of an accepted block. The one
at an FDRP outpoint is still there afterwards, under scripts that never succeed.
Below a checkpoint no script was run for the second. And where the overwrite
check is off, a later transaction of the block gives the third outpoint a coin
again. -/
theorem coin_not_consumed :
    CoinAfter strictNet (coinsAt [⟨fdrpId, 0⟩]) (thirdBlock [unsignedTx 50 ⟨fdrpId, 0⟩])
        ⟨fdrpId, 0⟩ (some walletCoin) ∧
      CoinAfter checkpointNet (coinsAt [⟨77, 0⟩]) (thirdBlock [unsignedTx 50 ⟨77, 0⟩])
        ⟨77, 0⟩ none ∧
      CoinAfter bip34Net (coinsAt [⟨77, 0⟩, ⟨78, 0⟩])
        (thirdBlock [unsignedTx 50 ⟨77, 0⟩, unsignedTx 77 ⟨78, 0⟩])
        ⟨77, 0⟩ (some ⟨100000000, makeWinnerP2WPKHScript 2, 3, false⟩) := by
  decide +kernel

end FalconDraw.Chain
