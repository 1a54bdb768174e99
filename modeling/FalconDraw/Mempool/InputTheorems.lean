/-
FalconDraw.Mempool.InputTheorems — what an admission finds at the inputs of a
transaction.

Each input is looked up in the chain and, where the chain has no coin, in the
pool.
-/
import FalconDraw.Mempool.Acceptance
import FalconDraw.Chain.UtxoTheorems

namespace FalconDraw.Mempool

open Lib Wire Script Draw Chain
  FalconDraw.Mining FalconDraw.Chain.UtxoViewpoint

variable {op : OutPoint}

def poolCoin (mp : TxPool) (op : OutPoint) : Option Coin :=
  (mp.pool.find? op.hash).bind fun d => outputCoin d.tx unminedHeight op

def poolEntry (mp : TxPool) (op : OutPoint) : Option UtxoEntry :=
  (mp.pool.find? op.hash).bind fun d => d.tx.msgTx.txOut[op.index]?.bind fun out =>
    if isUnspendable out.pkScript then none
    else some (newEntry out d.tx.isCoinBase unminedHeight)

/-- What `fetchFromPool` makes of the view's key for the outpoint. -/
def offer (mp : TxPool) (op : OutPoint) (key : Option (Option UtxoEntry)) :
    Option (Option UtxoEntry) :=
  if key.join.any fun entry => !entry.isSpent then key else ((poolEntry mp op).map some).or key

theorem poolEntry_coin (mp : TxPool) (op : OutPoint) :
    (poolEntry mp op).map UtxoEntry.coin = poolCoin mp op := by
  unfold poolEntry poolCoin
  cases hd : mp.pool.find? op.hash with
  | none => rfl
  | some d => grind [outputCoin, newEntry, UtxoEntry.coin]

theorem poolEntry_unspent {mp : TxPool} {e : UtxoEntry}
    (h : poolEntry mp op = some e) : e.isSpent = false := by
  obtain ⟨d, _, h⟩ := Option.bind_eq_some_iff.mp h
  obtain ⟨out, _, h⟩ := Option.bind_eq_some_iff.mp h
  split at h
  · cases h
  · rw [← Option.some.inj h]
    rfl

theorem entry_fetchFromPool (mp : TxPool) (view : UtxoViewpoint) (op op' : OutPoint) :
    (fetchFromPool mp view op').entries.get op =
      if op = op' then offer mp op (view.entries.get op) else view.entries.get op := by
  unfold fetchFromPool offer poolEntry
  rw [lookupEntry]
  by_cases hop : op = op'
  · grind [entry_addTxOut]
  · grind [entry_addTxOut]

theorem offer_offer (mp : TxPool) (op : OutPoint) (key : Option (Option UtxoEntry)) :
    offer mp op (offer mp op key) = offer mp op key := by
  grind [offer]

theorem entry_foldl_fetchFromPool (mp : TxPool) (op : OutPoint) (ops : List OutPoint)
    (view : UtxoViewpoint) : (ops.foldl (fetchFromPool mp) view).entries.get op =
      if op ∈ ops then offer mp op (view.entries.get op) else view.entries.get op := by
  induction ops generalizing view with
  | nil => simp
  | cons op' ops ih => grind [entry_fetchFromPool, offer_offer]

theorem coinOf_offer (mp : TxPool) (op : OutPoint) (c : Option Coin) :
    ∃ entry, offer mp op (some (c.map Coin.entry)) = some entry ∧
      coinOf entry = c.or (poolCoin mp op) ∧ ∀ e, entry = some e → e.isSpent = false := by
  rw [← poolEntry_coin]
  cases c with
  | some c => simp [offer, Coin.entry, coinOf, UtxoEntry.coin]
  | none =>
    cases hpool : poolEntry mp op with
    | none => exact ⟨none, by simp [offer, hpool], rfl, fun e h => by cases h⟩
    | some e =>
      have hunspent := poolEntry_unspent hpool
      refine ⟨some e, by simp [offer, hpool], by simp [coinOf, hunspent], fun e' h => ?_⟩
      rwa [← Option.some.inj h]

theorem fetchInputUtxos_entry (utxos : UtxoSet) (mp : TxPool) {tx : Tx}
    (hcb : tx.isCoinBase = false) (hop : op ∈ spends tx) :
    ∃ entry, (fetchInputUtxos utxos mp tx).entries.get op = some entry ∧
      coinOf entry = (utxos.get op).or (poolCoin mp op) ∧ ∀ e, entry = some e → e.isSpent = false := by
  have hloaded : (fetchUtxoView utxos tx).entries.get op =
      some ((utxos.get op).map Coin.entry) := by
    rw [fetchUtxoView, entry_fetchUtxosFromCache, if_pos]
    rw [hcb, if_neg Bool.false_ne_true]
    exact List.mem_append_right _ hop
  rw [fetchInputUtxos, entry_foldl_fetchFromPool, if_pos hop, hloaded]
  exact coinOf_offer mp op (utxos.get op)

theorem checkNotInChain_entry {view view' : UtxoViewpoint} {ops : List OutPoint}
    (h : checkNotInChain view ops = .ok view') :
    view'.entries.get op = if op ∈ ops then none else view.entries.get op := by
  induction ops generalizing view with
  | nil =>
    obtain rfl := Except.ok.inj h
    simp
  | cons o ops ih =>
    simp only [checkNotInChain, bind_eq_ok, exists_unit] at h
    rw [ih h.2, removeEntry, Bucket.get_delete]
    by_cases ho : op = o <;> by_cases hops : op ∈ ops <;> simp [ho, hops]

section

variable {cfg : Config} {chain : ChainState} {mp : TxPool} {tx : Tx} {isNew rateLimit free : Bool}
  {txFee : Int64} {conflicts : Keyed Tx.hash} {view : UtxoViewpoint}

/-- An input of a transaction with nothing missing: an unspent entry, for the coin of
the chain or else of the pool. -/
theorem input_coin (hcb : tx.isCoinBase = false)
    (hloaded : checkNotInChain (fetchInputUtxos chain.utxos mp tx) (outPoints tx) = .ok view)
    (hparents : missingParents view tx = []) {op : OutPoint} (hop : op ∈ spends tx)
    (hout : op ∉ outPoints tx) : ∃ e, view.lookupEntry op = some e ∧ e.isSpent = false ∧
      (chain.utxos.get op).or (poolCoin mp op) = some e.coin := by
  obtain ⟨entry, hkey, hcoin, hunspent⟩ := fetchInputUtxos_entry chain.utxos mp hcb hop
  have hview : view.entries.get op = some entry := by
    rw [checkNotInChain_entry hloaded, if_neg hout, hkey]
  have hthere := List.filter_eq_nil_iff.mp (List.map_eq_nil_iff.mp hparents) op hop
  rw [hview] at hthere
  cases entry with
  | none => exact absurd rfl hthere
  | some e =>
    refine ⟨e, by rw [lookupEntry, hview, Option.join_some], hunspent e rfl, ?_⟩
    rw [← hcoin, coinOf, hunspent e rfl, if_neg Bool.false_ne_true]

theorem Admissible.input_coin
    (h : Admissible cfg chain mp tx isNew rateLimit free txFee conflicts view) {op : OutPoint}
    (hop : op ∈ spends tx) (hout : op ∉ outPoints tx) :
    ∃ e, view.lookupEntry op = some e ∧ e.isSpent = false ∧
      (chain.utxos.get op).or (poolCoin mp op) = some e.coin :=
  Mempool.input_coin h.no_coinbase h.loaded h.parents hop hout

/-- Some input, not of the transaction's own, has no coin in the chain or the pool. -/
def Lacks (chain : ChainState) (mp : TxPool) (tx : Tx) : Prop :=
  ∃ op ∈ spends tx, op ∉ outPoints tx ∧ (chain.utxos.get op).or (poolCoin mp op) = none

theorem checkMempoolAcceptance_missing {rejectDupOrphans : Bool} {parents : List Hash}
    (h : checkMempoolAcceptance cfg chain mp tx isNew rateLimit rejectDupOrphans free =
      .ok (.missing parents)) : Lacks chain mp tx := by
  simp only [checkMempoolAcceptance, bind_eq_ok, exists_unit, refuseIf_eq_ok] at h
  obtain ⟨_, _, _, _, hcb, _, _, _, view, hview, h⟩ := h
  rw [Bool.not_eq_true] at hcb
  split at h
  · rename_i hparents
    have hmem : _ ∈ missingParents view tx := hparents ▸ List.mem_cons_self
    obtain ⟨op, hmissing, _⟩ := List.mem_map.mp hmem
    obtain ⟨hop, hthere⟩ := List.mem_filter.mp hmissing
    obtain ⟨entry, hkey, hcoin, hunspent⟩ := fetchInputUtxos_entry chain.utxos mp hcb hop
    rw [checkNotInChain_entry hview, hkey] at hthere
    split at hthere
    · cases hthere
    · rename_i hget
      split at hget
      · cases hget
      · rename_i hout
        obtain rfl := Option.some.inj hget
        refine ⟨op, hop, hout, ?_⟩
        cases entry with
        | none => rw [← hcoin, coinOf]
        | some e =>
          rw [Option.all_some, hunspent e rfl] at hthere
          cases hthere
  · grind [bind_eq_ok, exists_unit, pure_eq_ok]

theorem Admissible.not_lacks
    (h : Admissible cfg chain mp tx isNew rateLimit free txFee conflicts view) :
    ¬ Lacks chain mp tx := by
  rintro ⟨op, hop, hout, hnone⟩
  obtain ⟨e, _, _, hcoin⟩ := h.input_coin hop hout
  rw [hnone] at hcoin
  cases hcoin

end

theorem poolCoin_eq_some {mp : TxPool} {c : Coin} (h : poolCoin mp op = some c) :
    ∃ d ∈ mp.pool, d.tx.hash = op.hash ∧ outputCoin d.tx unminedHeight op = some c := by
  obtain ⟨d, hd, hc⟩ := Option.bind_eq_some_iff.mp h
  obtain ⟨hmem, hhash⟩ := Keyed.find?_eq_some.mp hd
  exact ⟨d, hmem, hhash, hc⟩

theorem mem_outPoints_of_outputCoin {tx : Tx} {height : Nat} {c : Coin}
    (h : outputCoin tx height op = some c) : op ∈ outPoints tx := by
  unfold outputCoin at h
  split at h
  · rename_i hhash
    obtain ⟨out, hout, _⟩ := Option.bind_eq_some_iff.mp h
    obtain ⟨hlt, _⟩ := List.getElem?_eq_some_iff.mp hout
    exact List.mem_map.mpr ⟨op.index, List.mem_range.mpr hlt, by rw [← hhash]⟩
  · cases h

end FalconDraw.Mempool
