/-
FalconDraw.Chain.SpendJournalTheorems — when the journal of a block can be
read back.

The writer decides input by input and the reader transaction by transaction.
-/
import FalconDraw.Chain.SpendJournal
import FalconDraw.Chain.SpendTheorems
import FalconDraw.Chain.MintTheorems

namespace FalconDraw.Chain

open Lib Wire Script Draw List

/-! ## Records written and records expected -/

/-- The inputs are all sentinels, or none of them is. -/
def Unmixed (m : MsgTx) : Prop :=
  (∀ t ∈ m.txIn, isPoolDrawSentinelInput t = true) ∨ ∀ t ∈ m.txIn, isPoolDrawSentinelInput t = false

instance (m : MsgTx) : Decidable (Unmixed m) := inferInstanceAs (Decidable (_ ∨ _))

/-- No transaction of the block that spends coins has a sentinel among its
inputs. -/
def UnmixedBlock (block : Block) : Prop :=
  ∀ tx ∈ block.transactions.tail, isVDFResultTx tx = false → Unmixed tx.msgTx

instance (block : Block) : Decidable (UnmixedBlock block) :=
  inferInstanceAs (Decidable (∀ _ ∈ _, _ → _))

def recordsWritten (tx : Tx) : Nat :=
  if isVDFResultTx tx then 0 else tx.msgTx.txIn.countP fun t => !isPoolDrawSentinelInput t

def recordsExpected (tx : Tx) : Nat :=
  if isVDFResultTx tx then 0
  else if tx.msgTx.txIn.any fun t => !isPoolDrawSentinelInput t then tx.msgTx.txIn.length else 0

theorem countSpentOutputs_eq (block : Block) :
    countSpentOutputs block = (block.transactions.tail.map recordsWritten).sum := by
  unfold countSpentOutputs
  induction block.transactions.tail with
  | nil => rfl
  | cons tx txs ih =>
    cases hv : isVDFResultTx tx <;> simp [recordsWritten, hv, ih]

theorem journalTxns_inputs (block : Block) : ((journalTxns block).flatMap MsgTx.txIn).length =
      (block.transactions.tail.map recordsExpected).sum := by
  unfold journalTxns
  induction block.transactions.tail with
  | nil => rfl
  | cons tx txs ih =>
    have hv : isVDFResultTx tx = decide (tx.msgTx.version = txVersionVDFResult) := rfl
    rw [map_cons, filter_cons, map_cons, sum_cons, ← ih]
    by_cases h7 : tx.msgTx.version = txVersionVDFResult
    · simp [recordsExpected, hv, h7]
    · cases hany : tx.msgTx.txIn.any fun t => !isPoolDrawSentinelInput t <;>
        simp [recordsExpected, hv, h7, hany]

/-- The reader expects what was written, or more; as much exactly for a
transaction that is not mixed. -/
theorem recordsWritten_le (tx : Tx) : recordsWritten tx ≤ recordsExpected tx ∧
      (recordsWritten tx = recordsExpected tx ↔ (isVDFResultTx tx = false → Unmixed tx.msgTx)) := by
  unfold recordsWritten recordsExpected Unmixed
  cases isVDFResultTx tx with
  | true => simp
  | false =>
    have hle := countP_le_length (p := fun t => !isPoolDrawSentinelInput t)
      (l := tx.msgTx.txIn)
    cases hany : tx.msgTx.txIn.any fun t => !isPoolDrawSentinelInput t with
    | false =>
      have hall : ∀ t ∈ tx.msgTx.txIn, isPoolDrawSentinelInput t = true := by simpa using hany
      have hzero : tx.msgTx.txIn.countP (fun t => !isPoolDrawSentinelInput t) = 0 := by
        rw [countP_eq_zero]
        simpa using hall
      simp only [Bool.false_eq_true, if_false, hzero, Nat.le_refl, true_and, forall_const, true_iff]
      exact .inl hall
    | true =>
      simp only [Bool.false_eq_true, if_false, if_true, hle, true_and, forall_const]
      rw [countP_eq_length]
      obtain ⟨t, ht, hcoin⟩ := any_eq_true.mp hany
      constructor
      · exact fun hall => .inr fun t ht => by simpa using hall t ht
      · grind

theorem sum_recordsWritten_le (txs : List Tx) :
    (txs.map recordsWritten).sum ≤ (txs.map recordsExpected).sum ∧
      ((txs.map recordsWritten).sum = (txs.map recordsExpected).sum ↔
        ∀ tx ∈ txs, isVDFResultTx tx = false → Unmixed tx.msgTx) := by
  induction txs with
  | nil => simp
  | cons tx txs ih =>
    obtain ⟨hle, heq⟩ := recordsWritten_le tx
    obtain ⟨hrest, hiff⟩ := ih
    simp only [map_cons, sum_cons, forall_mem_cons]
    refine ⟨by omega, ?_⟩
    rw [← heq, ← hiff]
    omega

/-! ## The journal as a whole -/

variable {keys : PubKeyLib} {stxos : List SpentTxOut} {block : Block}

theorem serializeSpendJournalEntry_eq_nil :
    serializeSpendJournalEntry keys stxos = [] ↔ stxos = [] := by
  constructor
  · intro h
    by_contra hne
    obtain ⟨c, rest, hc⟩ := exists_cons_of_ne_nil (reverse_ne_nil_iff.mpr hne)
    have hlen := congrArg List.length h
    have hpos := serializeSizeVLQ_pos (spentTxOutHeaderCode c)
    rw [serializeSpendJournalEntry, hc, flatMap_cons, length_append,
      putSpentTxOut_length, spentTxOutSerializeSize, length_nil] at hlen
    omega
  · rintro rfl
    rfl

theorem dbFetchSpendJournalEntry_eq_ok {serialized : Bytes} :
    dbFetchSpendJournalEntry keys serialized block = .ok stxos ↔
      deserializeSpendJournalEntry keys serialized (journalTxns block) = .ok stxos := by
  grind [dbFetchSpendJournalEntry]

theorem fetch_journal_iff (hall : ∀ c ∈ stxos, Storable c)
    (hcount : stxos.length = countSpentOutputs block) :
    dbFetchSpendJournalEntry keys (serializeSpendJournalEntry keys stxos) block = .ok stxos ↔
      UnmixedBlock block := by
  have hexpected := journalTxns_inputs block
  obtain ⟨hle, hiff⟩ := sum_recordsWritten_le block.transactions.tail
  rw [← countSpentOutputs_eq, ← hcount, ← hexpected] at hle hiff
  rw [UnmixedBlock, ← hiff, dbFetchSpendJournalEntry_eq_ok, deserializeSpendJournalEntry]
  by_cases hnil : stxos = []
  · subst hnil
    have hser : serializeSpendJournalEntry keys [] = [] := rfl
    simp only [hser, if_true, length_map, length_nil]
    split
    case isTrue hne => exact ⟨(fun h => nomatch h), fun h => absurd h.symm hne⟩
    case isFalse heq => exact ⟨fun _ => (not_not.mp heq).symm, fun _ => rfl⟩
  · have hser : serializeSpendJournalEntry keys stxos ≠ [] := fun h =>
      hnil (serializeSpendJournalEntry_eq_nil.mp h)
    have hrev : ∀ c ∈ stxos.reverse, Storable c := fun c hc => hall c (mem_reverse.mp hc)
    simp only [if_neg hser]
    rw [serializeSpendJournalEntry]
    by_cases heq : stxos.length = ((journalTxns block).flatMap MsgTx.txIn).length
    · grind [readSpentTxOuts_put]
    · have hshort : stxos.reverse.length < (((journalTxns block).flatMap MsgTx.txIn).map
          TxIn.previousOutPoint).reverse.length := by
        rw [length_reverse, length_reverse, length_map]
        omega
      refine ⟨fun h => ?_, fun h => absurd h heq⟩
      split at h
      case h_1 => cases h
      case h_2 r hr => exact absurd hr (readSpentTxOuts_short hshort hrev r)

/-! ## What a block collects -/

section Collected

variable {env : Env} {utxos utxos' : UtxoSet} {idx : StakeIndex} {node : BlockNode}
  {view view' : UtxoViewpoint} {tx : Tx}

variable {P : Coin → Prop} {height : Nat}

theorem spendInputs_length : ∀ {ts : List TxIn} {view view' : UtxoViewpoint}
    {stxos : List SpentTxOut}, view.spendInputs ts = .ok (view', stxos) →
    stxos.length = ts.countP fun t => !isPoolDrawSentinelInput t
  | [], view, view', stxos, h => by
      obtain ⟨_, rfl⟩ : view = view' ∧ [] = stxos := by simpa [UtxoViewpoint.spendInputs] using h
      rfl
  | t :: ts, view, view', stxos, h => by
      rw [UtxoViewpoint.spendInputs] at h
      cases hs : isPoolDrawSentinelInput t with
      | true =>
        rw [if_pos hs] at h
        rw [spendInputs_length h, countP_cons_of_neg (by simp [hs])]
      | false =>
        rw [if_neg (by simp [hs])] at h
        cases he : view.lookupEntry t.previousOutPoint with
        | none => simp [he] at h
        | some e =>
          simp only [he, bind_eq_ok, pure_eq_ok, Prod.mk.injEq] at h
          obtain ⟨⟨u, st⟩, hrest, _, rfl⟩ := h
          rw [length_cons, spendInputs_length hrest, countP_cons_of_pos (by simp [hs])]

theorem connectTransaction_length (hcb : tx.isCoinBase = false)
    (h : view.connectTransaction tx height = .ok (view', stxos)) :
    stxos.length = recordsWritten tx := by
  rw [UtxoViewpoint.connectTransaction, if_neg (by simp [hcb])] at h
  unfold recordsWritten
  split at h
  case isTrue hv => grind
  case isFalse hv => grind [bind_eq_ok, pure_eq_ok, spendInputs_length]

theorem connectLoop_length : ∀ {txs : List Tx} {s s' : ConnectState},
    (∀ tx ∈ txs, tx.isCoinBase = false) → txs.foldlM (connectStep env node) s = .ok s' →
    s'.stxos.length = s.stxos.length + (txs.map recordsWritten).sum
  | [], s, s', _, h => by
      obtain rfl : s = s' := by simpa using h
      rfl
  | tx :: txs, s, s', hcb, h => by
      simp only [foldlM_cons, bind_eq_ok] at h
      obtain ⟨s₁, hstep, hloop⟩ := h
      obtain ⟨_, spent, _, _, _, hconn, _, hst⟩ := connectStep_ok hstep
      have hrest := connectLoop_length (fun t ht => hcb t (mem_cons_of_mem _ ht)) hloop
      have hone := connectTransaction_length (hcb tx mem_cons_self) hconn
      rw [hrest, hst, length_append, hone, map_cons, sum_cons]
      omega

theorem connectLoop_all : ∀ {txs : List Tx} {s s' : ConnectState},
    (∀ tx ∈ txs, ∀ op c, outputCoin tx node.height op = some c → P c) →
    txs.foldlM (connectStep env node) s = .ok s' → s.view.All P → (∀ c ∈ s.stxos, P c) →
    ∀ c ∈ s'.stxos, P c
  | [], s, s', _, h, _, hst => by
      obtain rfl : s = s' := by simpa using h
      exact hst
  | tx :: txs, s, s', hout, h, hview, hst => by
      simp only [foldlM_cons, bind_eq_ok] at h
      obtain ⟨s₁, hstep, hloop⟩ := h
      obtain ⟨_, spent, _, _, _, hconn, _, hs₁⟩ := connectStep_ok hstep
      obtain ⟨hview₁, hspent⟩ := hview.connectTransaction (hout tx mem_cons_self) hconn
      refine connectLoop_all (fun t ht => hout t (mem_cons_of_mem _ ht)) hloop hview₁ ?_
      intro c hc
      rw [hs₁] at hc
      rcases mem_append.mp hc with hc | hc
      · exact hst c hc
      · exact hspent c hc

theorem storable_outputCoin (hsane : SaneTx tx) (hheight : height < 2 ^ 31)
    {op : OutPoint} {c : Coin} (h : outputCoin tx height op = some c) : Storable c := by
  unfold outputCoin at h
  split at h
  case isFalse => cases h
  case isTrue =>
    obtain ⟨out, hout, hc⟩ := Option.bind_eq_some_iff.mp h
    split at hc
    case isTrue => cases hc
    case isFalse hspendable =>
      obtain rfl := Option.some.inj hc
      have hmem := mem_of_getElem? hout
      have hmax := maxSatoshi_toInt
      have hlen : out.pkScript.length ≤ maxScriptSize := by
        simp only [isUnspendable, Bool.or_eq_true, decide_eq_true_eq, not_or, not_lt] at hspendable
        exact hspendable.1.2
      refine ⟨hheight, ?_, hsane.value_nonneg out hmem, ?_⟩
      · grind [maxScriptSize]
      · have := hsane.value_le out hmem
        show out.value.toInt < 2 ^ 60
        omega

theorem loadView_all {loaded : UtxoViewpoint} (h : loadView env utxos node block view = .ok loaded)
    (hset : ∀ op c, utxos.get op = some c → P c)
    (hout : ∀ tx ∈ block.transactions, ∀ op c, outputCoin tx block.height op = some c → P c)
    (hview : view.All P) : loaded.All P := by
  unfold loadView at h
  split at h
  case isTrue =>
    simp only [checkBIP0030, bind_eq_ok, pure_eq_ok, exists_unit] at h
    obtain ⟨view₁, ⟨_, rfl⟩, rfl⟩ := h
    exact (hview.fetchUtxosFromCache hset).fetchInputUtxos hset hout
  case isFalse =>
    simp only [bind_eq_ok, pure_eq_ok, Except.ok.injEq, exists_eq_left'] at h
    rw [← h]
    exact hview.fetchInputUtxos hset hout

theorem cache_spendInputs : ∀ {ts : List TxIn} {utxos utxos' : UtxoSet}
    {stxos : List SpentTxOut}, UtxoSet.spendInputs utxos ts = .ok (utxos', stxos) →
    (∀ op c, utxos.get op = some c → P c) →
    stxos.length = (ts.countP fun t => !isPoolDrawSentinelInput t) ∧ ∀ c ∈ stxos, P c
  | [], utxos, utxos', stxos, h, _ => by
      obtain ⟨_, rfl⟩ : utxos = utxos' ∧ [] = stxos := by simpa [UtxoSet.spendInputs] using h
      exact ⟨rfl, by simp⟩
  | t :: ts, utxos, utxos', stxos, h, hset => by
      rw [UtxoSet.spendInputs] at h
      cases hs : isPoolDrawSentinelInput t with
      | true =>
        rw [if_pos hs] at h
        rw [countP_cons_of_neg (by simp [hs])]
        exact cache_spendInputs h hset
      | false =>
        rw [if_neg (by simp [hs])] at h
        cases hc : utxos.get t.previousOutPoint with
        | none => simp [hc] at h
        | some c =>
          simp only [hc, bind_eq_ok, pure_eq_ok, Prod.mk.injEq] at h
          obtain ⟨⟨u, st⟩, hrest, _, rfl⟩ := h
          obtain ⟨hlen, hall⟩ := cache_spendInputs hrest fun op c' hc' => by
            rw [Bucket.get_delete] at hc'
            split at hc'
            · cases hc'
            · exact hset op c' hc'
          rw [length_cons, hlen, countP_cons_of_pos (by simp [hs])]
          exact ⟨rfl, forall_mem_cons.mpr ⟨hset _ c hc, hall⟩⟩

theorem cache_connectTransactions : ∀ {txs : List Tx}
    {utxos utxos' : UtxoSet} {stxos : List SpentTxOut},
    UtxoSet.connectTransactions height utxos txs = .ok (utxos', stxos) →
    (∀ tx ∈ txs, ∀ op c, outputCoin tx height op = some c → P c) →
    (∀ op c, utxos.get op = some c → P c) →
    stxos.length = (txs.map fun tx => if tx.isCoinBase then 0 else recordsWritten tx).sum ∧
      ∀ c ∈ stxos, P c
  | [], utxos, utxos', stxos, h, _, _ => by
      obtain ⟨_, rfl⟩ : utxos = utxos' ∧ [] = stxos := by
        simpa [UtxoSet.connectTransactions] using h
      exact ⟨rfl, by simp⟩
  | tx :: txs, utxos, utxos', stxos, h, hout, hset => by
      obtain ⟨mid, st, st', hstep, hrest, rfl⟩ := UtxoSet.connectTransactions_cons.mp h
      have hmid : ∀ op c, mid.get op = some c → P c := by
        intro op c hc
        have hone : UtxoSet.connectTransactions height utxos [tx] = .ok (mid, st ++ []) :=
          UtxoSet.connectTransactions_cons.mpr ⟨mid, st, [], hstep, rfl, rfl⟩
        rcases UtxoSet.source_of_connectTransactions hone hc with ⟨t, ht, hmade⟩ | ⟨hold, _⟩
        · rw [mem_singleton.mp ht] at hmade
          exact hout tx mem_cons_self op c hmade
        · exact hset op c hold
      have htx : st.length = (if tx.isCoinBase then 0 else recordsWritten tx) ∧ ∀ c ∈ st, P c := by
        simp only [UtxoSet.connectTransaction, bind_eq_ok, pure_eq_ok, Prod.mk.injEq] at hstep
        obtain ⟨⟨u, st₀⟩, hins, _, rfl⟩ := hstep
        unfold UtxoSet.addTxIns at hins
        split at hins
        case isTrue hcb =>
          obtain ⟨_, rfl⟩ : utxos = u ∧ [] = st₀ := by simpa using hins
          exact ⟨by simp [hcb], by simp⟩
        case isFalse hcb =>
          split at hins
          case isTrue hv =>
            obtain ⟨_, rfl⟩ : utxos = u ∧ [] = st₀ := by simpa using hins
            exact ⟨by simp [hcb, recordsWritten, hv], by simp⟩
          case isFalse hv =>
            obtain ⟨hlen, hall⟩ := cache_spendInputs hins hset
            exact ⟨by simp [hcb, recordsWritten, hv, hlen], hall⟩
      obtain ⟨hlen, hall⟩ := cache_connectTransactions hrest
        (fun t ht => hout t (mem_cons_of_mem _ ht)) hmid
      refine ⟨?_, ?_⟩
      · rw [length_append, htx.1, hlen, map_cons, sum_cons]
      · grind

theorem cache_connectBlock {utxos utxos' : UtxoSet}
    {stxos : List SpentTxOut} (hsane : SaneBlock block)
    (h : UtxoSet.connectTransactions height utxos block.transactions = .ok (utxos', stxos))
    (hout : ∀ tx ∈ block.transactions, ∀ op c, outputCoin tx height op = some c → P c)
    (hset : ∀ op c, utxos.get op = some c → P c) :
    stxos.length = countSpentOutputs block ∧ ∀ c ∈ stxos, P c := by
  obtain ⟨hlen, hall⟩ := cache_connectTransactions h hout hset
  obtain ⟨cb, rest, htxs, hcb, hothers⟩ := hsane.coinbase_first
  refine ⟨?_, hall⟩
  rw [hlen, countSpentOutputs_eq, htxs, map_cons, sum_cons, hcb, if_pos rfl,
    Nat.zero_add, tail_cons]
  congr 1
  exact map_congr_left fun tx htx => by simp [hothers tx htx]

end Collected

/-! ## Accepted blocks -/

/-- For every accepted block the number of spent outputs is the one
`countSpentOutputs` gives, and the journal is read back as it was written if and
only if no transaction that spends coins has a sentinel among its inputs. The
first list is the one validation collects in its view, the second the one the
cache collects when the block is connected. -/
theorem journal_reads_back_iff (keys : PubKeyLib) (env : Env) (utxos : UtxoSet) (idx : StakeIndex)
    (node : BlockNode) (block : Block) (view view' : UtxoViewpoint) (stxos : List SpentTxOut)
    (hset : ∀ op c, utxos.get op = some c → Storable c) (hview : view.All Storable)
    (hheight : node.height < 2 ^ 31) (hblock : block.height < 2 ^ 31)
    (hsane : checkBlockSanity block = .ok ())
    (h : checkConnectBlock env utxos idx node block view = .ok (view', stxos)) :
    (stxos.length = countSpentOutputs block ∧
      (dbFetchSpendJournalEntry keys (serializeSpendJournalEntry keys stxos) block = .ok stxos ↔
        UnmixedBlock block)) ∧
    ∀ utxos' stxos', UtxoSet.connectTransactions block.height utxos block.transactions =
        .ok (utxos', stxos') →
      stxos'.length = countSpentOutputs block ∧
      (dbFetchSpendJournalEntry keys (serializeSpendJournalEntry keys stxos') block = .ok stxos' ↔
        UnmixedBlock block) := by
  obtain ⟨⟨cb, rest, htxs, hcb, hothers⟩, hsaneTx, _⟩ := saneBlock_of_check hsane
  have hcount : countSpentOutputs block = (rest.map recordsWritten).sum := by
    rw [countSpentOutputs_eq, htxs, tail_cons]
  constructor
  · obtain ⟨loaded, s, hpre, hloop, _, hr⟩ := checkConnectBlock_ok h
    obtain ⟨_, rfl⟩ : view' = { s.view with bestHash := node.hash } ∧ stxos = s.stxos := by
      simpa using hr
    obtain ⟨_, hload, _⟩ := checkConnectPrefix_ok hpre
    have hloaded : loaded.All Storable := loadView_all hload hset
      (fun tx htx op c hc => storable_outputCoin (hsaneTx tx htx) hblock hc) hview
    have hall : ∀ c ∈ s.stxos, Storable c := connectLoop_all
      (fun tx htx op c hc => storable_outputCoin (hsaneTx tx htx) hheight hc) hloop hloaded
      (by simp)
    have hlen : s.stxos.length = countSpentOutputs block := by
      rw [htxs, foldlM_cons, bind_eq_ok] at hloop
      obtain ⟨s₁, hstep, hrest⟩ := hloop
      obtain ⟨_, spent, _, _, _, hconn, _, hst⟩ := connectStep_ok hstep
      -- the coinbase has nothing to spend
      have hspent : spent = [] := by
        rw [UtxoViewpoint.connectTransaction, if_pos hcb] at hconn
        exact (by simpa using hconn : _ ∧ [] = spent).2.symm
      rw [connectLoop_length hothers hrest, hst, hspent, hcount]
      simp
    exact ⟨hlen, fetch_journal_iff hall hlen⟩
  · intro utxos' stxos' hconn
    obtain ⟨hlen, hall⟩ := cache_connectBlock (saneBlock_of_check hsane) hconn
      (fun tx htx op c hc => storable_outputCoin (hsaneTx tx htx) hblock hc) hset
    exact ⟨hlen, fetch_journal_iff hall hlen⟩

def noKeys : PubKeyLib := ⟨fun _ => none, fun _ _ _ _ h => nomatch h⟩

theorem storable_coinsAt (ops : List OutPoint) :
    ∀ op c, (coinsAt ops).get op = some c → Storable c := by
  have hcoin : Storable walletCoin := ⟨by decide, by decide, by decide, by decide⟩
  have hput : ∀ (ops : List OutPoint) (utxos : UtxoSet),
      (∀ op c, utxos.get op = some c → Storable c) →
      ∀ op c, (ops.foldl (fun utxos op => utxos.put op walletCoin) utxos).get op = some c →
        Storable c := by
    intro ops
    induction ops with
    | nil => exact fun utxos h => h
    | cons op ops ih => grind [Bucket.get_put]
  exact hput ops Bucket.empty fun _ _ h => nomatch h

/-- The journal of a block that spends one ordinary coin is read back. -/
theorem ordinary_journal_read :
    ∃ view' stxos, checkConnectBlock youngMainNet (coinsAt [⟨77, 0⟩]) StakeIndex.empty
        (regularNode 3) (thirdBlock [unsignedTx 50 ⟨77, 0⟩])
        (UtxoViewpoint.new (regularInfo 2).hash) = .ok (view', stxos) ∧
      stxos = [walletCoin] ∧
      dbFetchSpendJournalEntry noKeys (serializeSpendJournalEntry noKeys stxos)
        (thirdBlock [unsignedTx 50 ⟨77, 0⟩]) = .ok stxos := by
  obtain ⟨view', stxos, hok, hst⟩ : ∃ view' stxos, checkConnectBlock youngMainNet
      (coinsAt [⟨77, 0⟩]) StakeIndex.empty (regularNode 3) (thirdBlock [unsignedTx 50 ⟨77, 0⟩])
      (UtxoViewpoint.new (regularInfo 2).hash) = .ok (view', stxos) ∧ stxos = [walletCoin] := by
    decide +kernel
  have hiff := journal_reads_back_iff noKeys youngMainNet (coinsAt [⟨77, 0⟩]) StakeIndex.empty
    (regularNode 3) (thirdBlock [unsignedTx 50 ⟨77, 0⟩]) (UtxoViewpoint.new (regularInfo 2).hash)
    view' stxos (storable_coinsAt _) (UtxoViewpoint.All.new _) (by decide) (by decide)
    (by decide +kernel) hok
  exact ⟨view', stxos, hok, hst, hiff.1.2.mpr (by decide +kernel)⟩

/-- A settlement that besides its sentinel spends the output of the block's own
coinbase. -/
def mixedBlock : Block :=
  let settlement := settlementTx ⟨100000000, true, 1⟩
  regularBlock 37 [coinbaseTx 9 [⟨0, [0x51]⟩], { settlement with msgTx := { settlement.msgTx with
        txIn := settlement.msgTx.txIn ++ [{ previousOutPoint := ⟨9, 0⟩ }] } },
    resultTx 11 []]

/-- The block is accepted, one record is written for it, and two are asked for. -/
theorem mixed_journal_lost : ∃ view' stxos, checkBlockSanity mixedBlock = .ok () ∧
      checkConnectBlock youngMainNet Bucket.empty (stakedIndex 100000000) (regularNode 37)
        mixedBlock (UtxoViewpoint.new 1) = .ok (view', stxos) ∧
      stxos.length = countSpentOutputs mixedBlock ∧
      ∀ keys, dbFetchSpendJournalEntry keys (serializeSpendJournalEntry keys stxos) mixedBlock ≠
        .ok stxos := by
  obtain ⟨view', stxos, hok, rfl⟩ : ∃ view' stxos, checkConnectBlock youngMainNet Bucket.empty
      (stakedIndex 100000000) (regularNode 37) mixedBlock (UtxoViewpoint.new 1) =
        .ok (view', stxos) ∧ stxos = [⟨0, [0x51], 37, true⟩] := by decide +kernel
  refine ⟨view', _, by decide +kernel, hok, by decide +kernel, fun keys => ?_⟩
  rw [Ne, fetch_journal_iff ?_ (by decide +kernel)]
  · decide +kernel
  · intro c hc
    rw [mem_singleton.mp hc]
    exact ⟨by decide, by decide, by decide, by decide⟩

end FalconDraw.Chain
