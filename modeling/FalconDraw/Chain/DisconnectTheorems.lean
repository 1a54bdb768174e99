/-
FalconDraw.Chain.DisconnectTheorems — taking blocks off the chain gives the UTXO set
back.

The transactions of a block are undone from the last to the first, and the view
stands for the set before the next one (`UtxoViewpoint.onto`), except at the
outputs of the transactions still to be undone: loading the inputs of the block
has put those into the view.
-/
import FalconDraw.Chain.SpendJournalTheorems
import FalconDraw.Chain.ReorgTheorems

namespace FalconDraw.Chain

open Lib Wire Script Draw List

/-! ## The keys of the view -/

/-- What a key of the view may say while blocks are taken off `utxos`: an entry
that has not been modified is a coin of the set, nil stands for none. -/
def Tracks (utxos : UtxoSet) (op : OutPoint) : Option UtxoEntry → Prop
  | none => utxos.get op = none
  | some e => e.isModified = false → e.isSpent = false ∧ utxos.get op = some e.coin

/-- What the view keeps from one block to the next: coins of the set. -/
def InSet (utxos : UtxoSet) (op : OutPoint) (x : Option UtxoEntry) : Prop :=
  ∃ e, x = some e ∧ e.isSpent = false ∧ utxos.get op = some e.coin

section Keys

variable {utxos : UtxoSet} {view : UtxoViewpoint} {op : OutPoint}

theorem tracks_of_inSet {x : Option UtxoEntry} (h : InSet utxos op x) : Tracks utxos op x := by
  obtain ⟨e, rfl, hunspent, hget⟩ := h
  exact fun _ => ⟨hunspent, hget⟩

theorem tracks_spend {e : UtxoEntry} (h : e.isSpent = true → Tracks utxos op (some e)) :
    Tracks utxos op (some e.spend) := by
  unfold UtxoEntry.spend
  split
  case isTrue hspent => exact h hspent
  case isFalse => exact fun hmod => nomatch hmod

theorem putView_eq_over (h : view.Holds (Tracks utxos)) : utxos.putView view = view.onto utxos := by
  ext1 op
  show UtxoSet.putView utxos view op = _
  rw [UtxoViewpoint.get_over]
  unfold UtxoSet.putView
  cases hx : view.entries.get op with
  | none => rfl
  | some x =>
    have htracks := h op x hx
    cases x with
    | none => exact htracks
    | some e =>
      cases hmod : e.isModified with
      | true => simp [UtxoViewpoint.coinOf, hmod]
      | false =>
        obtain ⟨hunspent, hget⟩ := htracks hmod
        simp [UtxoViewpoint.coinOf, hunspent, hget]

theorem commit_inSet (h : view.Holds (Tracks utxos)) :
    view.commit.Holds (InSet (view.onto utxos)) := by
  intro op x hx
  rw [UtxoViewpoint.commit] at hx
  dsimp only [Bucket.get] at hx
  cases hold : view.entries op with
  | none => simp [hold] at hx
  | some y =>
    cases y with
    | none => simp [hold] at hx
    | some e =>
      have hentry : view.entries.get op = some (some e) := hold
      have hunspent : e.isSpent = false := by
        by_contra hspent
        cases hmod : e.isModified with
        | true => simp [hold, hmod, Bool.not_eq_false _ ▸ hspent] at hx
        | false => exact hspent (h op _ hentry hmod).1
      have hlook : view.lookupEntry op = some e := by simp [UtxoViewpoint.lookupEntry, hentry]
      obtain rfl : some { e with isModified := !e.isModified } = x := by
        simpa [hold, hunspent] using hx
      refine ⟨_, rfl, hunspent, ?_⟩
      rw [UtxoViewpoint.over_of_lookup hlook hunspent]
      rfl

theorem holds_loaded {block : Block} (h : view.Holds (InSet utxos)) :
    (view.fetchInputUtxos utxos block).Holds (Tracks utxos) := by
  have hview : view.Holds (Tracks utxos) := fun op x hx => tracks_of_inSet (h op x hx)
  refine hview.fetchInputUtxos ?_ ?_
  · intro op
    cases hc : utxos.get op with
    | none => exact hc
    | some c => exact fun _ => ⟨rfl, hc⟩
  · intro tx _ op c _
    exact fun hmod => nomatch hmod

theorem over_eq_of_inSet (h : view.Holds (InSet utxos)) : view.onto utxos = utxos := by
  ext1 op
  rw [UtxoViewpoint.get_over]
  cases hx : view.entries.get op with
  | none => rfl
  | some x =>
    obtain ⟨e, rfl, hunspent, hget⟩ := h op x hx
    simp [UtxoViewpoint.coinOf, hunspent, hget]

end Keys

/-! ## The outputs of a transaction -/

section Outputs

variable {utxos : UtxoSet} {view : UtxoViewpoint} {op : OutPoint}

/-- One output of `disconnectTransactions`. -/
def markSpent (v : UtxoViewpoint) (c : OutPoint × Coin) : UtxoViewpoint :=
  v.setEntry c.1 (some ((v.lookupEntry c.1).getD c.2.entry).spend)

theorem removeTxOutsFrom_eq (hash : Hash) (isCoinBase : Bool) (height : Nat) (outs : List TxOut) :
    ∀ (idx : Nat) (view : UtxoViewpoint), view.removeTxOutsFrom hash isCoinBase height idx outs =
      (UtxoSet.newCoinsFrom hash isCoinBase height idx outs).foldl markSpent view := by
  induction outs with
  | nil => intro idx view; rfl
  | cons out outs ih =>
    intro idx view
    rw [UtxoViewpoint.removeTxOutsFrom, UtxoSet.newCoinsFrom]
    split
    · exact ih (idx + 1) view
    · exact ih (idx + 1) _

theorem mem_newCoinsFrom (hash : Hash) (isCoinBase : Bool) (height : Nat) (op : OutPoint) :
    ∀ (outs : List TxOut) (idx : Nat),
    op ∈ (UtxoSet.newCoinsFrom hash isCoinBase height idx outs).map Prod.fst ↔
      op.hash = hash ∧ idx ≤ op.index ∧
        ∃ out, outs[op.index - idx]? = some out ∧ isUnspendable out.pkScript = false
  | [], idx => by simp [UtxoSet.newCoinsFrom]
  | out :: outs, idx => by
      have ih := mem_newCoinsFrom hash isCoinBase height op outs (idx + 1)
      -- at `idx` the outpoint is this output, behind it one of the others
      rcases Nat.lt_trichotomy op.index idx with hlt | heq | hgt
      · grind [UtxoSet.newCoinsFrom]
      · have hop : op = ⟨hash, idx⟩ ↔ op.hash = hash := by
          cases op
          simp_all
        rw [UtxoSet.newCoinsFrom]
        cases hu : isUnspendable out.pkScript with
        | true => simp [ih, heq, hu]
        | false => simp [ih, hop, heq, hu]
      · grind [UtxoSet.newCoinsFrom]

theorem mem_newCoins_iff (tx : Tx) (isCoinBase : Bool) (height : Nat) (op : OutPoint) :
    op ∈ (UtxoSet.newCoinsFrom tx.hash isCoinBase height 0 tx.msgTx.txOut).map Prod.fst ↔
      outputCoin tx height op ≠ none := by
  simp [mem_newCoinsFrom, outputCoin]

theorem tracks_markSpent (h : view.Holds (Tracks utxos)) (c : OutPoint × Coin) :
    (markSpent view c).Holds (Tracks utxos) := by
  refine h.setEntry (tracks_spend fun hspent => ?_)
  cases hx : view.lookupEntry c.1 with
  | none => simp [hx] at hspent
  | some e =>
    refine h c.1 (some e) ?_
    simpa [UtxoViewpoint.lookupEntry, Option.join_eq_some_iff] using hx

theorem foldl_markSpent (utxos : UtxoSet) (op : OutPoint) : ∀ (cs : List (OutPoint × Coin)) {view : UtxoViewpoint},
    view.Holds (Tracks utxos) → (cs.foldl markSpent view).Holds (Tracks utxos) ∧
      (op ∈ cs.map Prod.fst →
        ∃ e, (cs.foldl markSpent view).entries.get op = some (some e) ∧ e.isSpent = true) ∧
      (op ∉ cs.map Prod.fst → (cs.foldl markSpent view).entries.get op = view.entries.get op)
  | [], view, h => ⟨h, by simp, fun _ => rfl⟩
  | c :: cs, view, h => by
      obtain ⟨hall, hin, hout⟩ := foldl_markSpent utxos op cs (tracks_markSpent h c)
      rw [foldl_cons, map_cons, mem_cons]
      refine ⟨hall, ?_, ?_⟩
      · intro hop
        by_cases hlater : op ∈ cs.map Prod.fst
        · exact hin hlater
        · obtain rfl : op = c.1 := hop.resolve_right hlater
          rw [hout hlater, markSpent, UtxoViewpoint.entry_setEntry, if_pos rfl]
          exact ⟨_, rfl, UtxoEntry.spend_isSpent _⟩
      · grind [markSpent, UtxoViewpoint.entry_setEntry]

end Outputs

/-! ## The inputs of a transaction -/

section Inputs

variable {base : UtxoSet} {txHash : Hash}

def Coin.restored (c : Coin) : UtxoEntry := { c.entry with isModified := true }

theorem restoreInputs_append (a b : List TxIn) : ∀ (v : UtxoViewpoint) (stxos : List SpentTxOut),
    UtxoViewpoint.restoreInputs base txHash v (a ++ b) stxos =
      (UtxoViewpoint.restoreInputs base txHash v a stxos >>= fun r =>
        UtxoViewpoint.restoreInputs base txHash r.1 b r.2) := by
  induction a with
  | nil => intro v stxos; rfl
  | cons t a ih =>
    intro v stxos
    rw [cons_append]
    simp only [UtxoViewpoint.restoreInputs.eq_def base txHash v (t :: _)]
    split
    · exact ih v stxos
    · cases stxos with
      | nil => rfl
      | cons stxo stxos =>
        dsimp only
        cases v.restoredCoin base txHash t.previousOutPoint stxo with
        | error e => rfl
        | ok c => exact ih _ stxos

/-- Going back over the inputs puts every coin they spent back, and uses up
their part of the journal. -/
theorem restoreInputs_ok (base : UtxoSet) (txHash : Hash) : ∀ {ts : List TxIn} {utxos utxos' : UtxoSet} {st : List SpentTxOut},
    UtxoSet.spendInputs utxos ts = .ok (utxos', st) → (∀ c ∈ st, c.blockHeight ≠ 0) →
    ∀ (v : UtxoViewpoint) (rest : List SpentTxOut), ∃ v',
      UtxoViewpoint.restoreInputs base txHash v ts.reverse (st.reverse ++ rest) = .ok (v', rest) ∧
      ∀ op, v'.entries.get op = if inputsSpend ts op then
        some ((utxos.get op).map Coin.restored) else v.entries.get op
  | [], utxos, utxos', st, h, _, v, rest => by
      obtain ⟨_, rfl⟩ : utxos = utxos' ∧ [] = st := by simpa [UtxoSet.spendInputs] using h
      exact ⟨v, rfl, fun op => rfl⟩
  | t :: ts, utxos, utxos', st, h, hheights, v, rest => by
      rw [UtxoSet.spendInputs] at h
      rw [reverse_cons]
      cases hs : isPoolDrawSentinelInput t with
      | true =>
        rw [if_pos hs] at h
        obtain ⟨v', hv', hget⟩ := restoreInputs_ok base txHash h hheights v rest
        refine ⟨v', ?_, ?_⟩
        · rw [restoreInputs_append, hv']
          simp [UtxoViewpoint.restoreInputs, hs]
        · grind [inputsSpend_cons]
      | false =>
        rw [if_neg (by simp [hs])] at h
        cases hc : utxos.get t.previousOutPoint with
        | none => simp [hc] at h
        | some c =>
          simp only [hc, bind_eq_ok, pure_eq_ok, Prod.mk.injEq] at h
          obtain ⟨⟨u, st'⟩, hrest, _, rfl⟩ := h
          have hheight : c.blockHeight ≠ 0 := hheights c mem_cons_self
          obtain ⟨v', hv', hget⟩ := restoreInputs_ok base txHash hrest
            (fun c' hc' => hheights c' (mem_cons_of_mem _ hc')) v (c :: rest)
          refine ⟨v'.setEntry t.previousOutPoint (some c.restored), ?_, ?_⟩
          · rw [reverse_cons, append_assoc, singleton_append, restoreInputs_append,
              hv']
            simp [UtxoViewpoint.restoreInputs, hs, UtxoViewpoint.restoredCoin, hheight]
            rfl
          · intro op
            rw [UtxoViewpoint.entry_setEntry, hget, inputsSpend_cons, hs, Bucket.get_delete]
            by_cases hop : op = t.previousOutPoint
            · simp [hop, hc]
            · simp [hop, Ne.symm hop]

end Inputs

/-! ## One transaction -/

section Transaction

variable (db base : UtxoSet) {utxos utxos' : UtxoSet} {tx : Tx} {height : Nat} {st : List SpentTxOut}
variable {v : UtxoViewpoint}

theorem disconnectTransaction_entries
    (hconn : UtxoSet.connectTransaction utxos tx height = .ok (utxos', st))
    (hheights : ∀ c ∈ st, c.blockHeight ≠ 0) (v : UtxoViewpoint) (rest : List SpentTxOut) :
    ∃ v', UtxoViewpoint.disconnectTransaction db height tx.isCoinBase v tx (st.reverse ++ rest) =
        .ok (v', rest) ∧
      ∀ op, v'.entries.get op = if txSpends tx op then some ((utxos.get op).map Coin.restored)
        else (v.removeTxOutsFrom tx.hash tx.isCoinBase height 0 tx.msgTx.txOut).entries.get op := by
  simp only [UtxoSet.connectTransaction, bind_eq_ok, pure_eq_ok, Prod.mk.injEq] at hconn
  obtain ⟨⟨u, st₀⟩, hins, _, rfl⟩ := hconn
  unfold UtxoSet.addTxIns at hins
  unfold UtxoViewpoint.disconnectTransaction
  cases hcb : tx.isCoinBase with
  | true =>
    obtain ⟨_, rfl⟩ : utxos = u ∧ [] = st₀ := by simpa [hcb] using hins
    exact ⟨_, rfl, fun op => by simp [txSpends, hcb]⟩
  | false =>
    cases hvdf : isVDFResultTx tx with
    | true =>
      obtain ⟨_, rfl⟩ : utxos = u ∧ [] = st₀ := by simpa [hcb, hvdf] using hins
      exact ⟨_, rfl, fun op => by simp [txSpends, hvdf]⟩
    | false =>
      rw [hcb, hvdf, if_neg (by decide), if_neg (by decide)] at hins
      obtain ⟨v', hv', hget⟩ := restoreInputs_ok db tx.hash hins hheights
        (v.removeTxOutsFrom tx.hash false height 0 tx.msgTx.txOut) rest
      refine ⟨v', by simpa using hv', fun op => ?_⟩
      have hspends : txSpends tx op = inputsSpend tx.msgTx.txIn op := by simp [txSpends, hcb, hvdf]
      rw [hget, hspends]

/-- A view that stands for the set behind the transaction stands for the set
before it once the transaction is undone. What it says at the outputs of the
transaction does not matter, as long as they were new. -/
theorem disconnectTransaction_ok
    (hconn : UtxoSet.connectTransaction utxos tx height = .ok (utxos', st))
    (hheights : ∀ c ∈ st, c.blockHeight ≠ 0)
    (hnew : ∀ op, outputCoin tx height op ≠ none → txSpends tx op = false → utxos.get op = none)
    (hv : v.Holds (Tracks base)) (rest : List SpentTxOut) :
    ∃ v', UtxoViewpoint.disconnectTransaction db height tx.isCoinBase v tx (st.reverse ++ rest) =
        .ok (v', rest) ∧
      v'.Holds (Tracks base) ∧
      ∀ op, (outputCoin tx height op = none → (v.onto base).get op = utxos'.get op) →
        (v'.onto base).get op = utxos.get op := by
  obtain ⟨v', hv', hentries⟩ := disconnectTransaction_entries db hconn hheights v rest
  have hmarked := fun op => foldl_markSpent base op
    (UtxoSet.newCoinsFrom tx.hash tx.isCoinBase height 0 tx.msgTx.txOut) hv
  simp only [← removeTxOutsFrom_eq, mem_newCoins_iff, ne_eq, not_not] at hmarked
  refine ⟨v', hv', ?_, ?_⟩
  · intro op x hx
    rw [hentries] at hx
    split at hx
    case isTrue hspends =>
      obtain ⟨c, hc⟩ := Option.ne_none_iff_exists'.mp
        ((UtxoSet.get_connectTransaction op hconn).2 hspends)
      rw [hc] at hx
      obtain rfl : some c.restored = x := Option.some.inj hx
      exact fun hmod => nomatch hmod
    case isFalse => exact (hmarked op).1 op x hx
  · intro op hover
    obtain ⟨hget, _⟩ := UtxoSet.get_connectTransaction op hconn
    rw [UtxoViewpoint.get_over, hentries]
    cases hspends : txSpends tx op with
    | true =>
      cases hc : utxos.get op with
      | none => rfl
      | some c => rfl
    | false =>
      rw [if_neg (by simp)]
      by_cases hout : outputCoin tx height op = none
      · rw [(hmarked op).2.2 hout, ← UtxoViewpoint.get_over, hover hout, hget, hout, hspends]
        rfl
      · grind [UtxoViewpoint.coinOf]

end Transaction

/-! ## One block -/

section OneBlock

variable (db : UtxoSet) {base : UtxoSet} {height : Nat}

/-- No transaction makes a coin where there is one that it does not spend
itself. -/
def NoOverwrite (height : Nat) (utxos : UtxoSet) (txs : List Tx) : Prop :=
  ∀ pre tx post mid st, txs = pre ++ tx :: post →
    UtxoSet.connectTransactions height utxos pre = .ok (mid, st) →
    ∀ op, outputCoin tx height op ≠ none → txSpends tx op = false → mid.get op = none

theorem NoOverwrite.init {utxos : UtxoSet} {txs : List Tx} {tx : Tx}
    (h : NoOverwrite height utxos (txs ++ [tx])) : NoOverwrite height utxos txs := by
  rintro pre t post mid st rfl
  refine h pre t (post ++ [tx]) mid st ?_
  rw [append_assoc, cons_append]

theorem disconnectTxs_ok {utxos : UtxoSet} (txs : List Tx) :
    ∀ {utxos' : UtxoSet} {st : List SpentTxOut} {v : UtxoViewpoint},
    UtxoSet.connectTransactions height utxos txs = .ok (utxos', st) →
    (∀ pre tx post, txs = pre ++ tx :: post → tx.isCoinBase = pre.isEmpty) →
    (∀ c ∈ st, c.blockHeight ≠ 0) → NoOverwrite height utxos txs → v.Holds (Tracks base) →
    (∀ op, (∀ tx ∈ txs, outputCoin tx height op = none) → (v.onto base).get op = utxos'.get op) →
    ∃ v', UtxoViewpoint.disconnectTxs db height v txs.reverse st.reverse = .ok v' ∧
      v'.Holds (Tracks base) ∧ v'.onto base = utxos := by
  -- from the last transaction on, as the loop goes
  induction txs using reverseRecOn with
  | nil =>
    intro utxos' st v hconn _ _ _ hv hover
    obtain ⟨rfl, rfl⟩ : utxos = utxos' ∧ [] = st := by
      simpa [UtxoSet.connectTransactions] using hconn
    refine ⟨v, rfl, hv, ?_⟩
    ext1 op
    exact hover op (by simp)
  | append_singleton txs tx ih =>
    intro utxos' st v hconn hfirst hheights hnew hv hover
    obtain ⟨mid, st₁, st₂, hinit, hlast, rfl⟩ := UtxoSet.connectTransactions_append.mp hconn
    obtain ⟨_, st₂, _, hone, hnil, rfl⟩ := UtxoSet.connectTransactions_cons.mp hlast
    obtain ⟨rfl, rfl⟩ : _ = utxos' ∧ [] = _ := by
      simpa [UtxoSet.connectTransactions] using hnil
    rw [append_nil] at hheights ⊢
    have hcb : tx.isCoinBase = txs.reverse.isEmpty := by
      rw [hfirst txs tx [] rfl, isEmpty_reverse]
    obtain ⟨v₁, hv₁, hholds, hover₁⟩ := disconnectTransaction_ok db base hone
      (fun c hc => hheights c (mem_append_right _ hc)) (hnew txs tx [] mid st₁ rfl hinit) hv
      st₁.reverse
    obtain ⟨v', hv', hholds', hover'⟩ := ih hinit
      (fun pre t post h => hfirst pre t (post ++ [tx]) (by rw [h, append_assoc]; rfl))
      (fun c hc => hheights c (mem_append_left _ hc)) hnew.init hholds
      (fun op hno => hover₁ op fun hout => hover op fun t ht => by
        rcases mem_append.mp ht with ht | ht
        · exact hno t ht
        · rw [mem_singleton.mp ht]
          exact hout)
    refine ⟨v', ?_, hholds', hover'⟩
    rw [reverse_append, reverse_singleton, singleton_append, reverse_append,
      UtxoViewpoint.disconnectTxs, ← hcb, hv₁]
    exact hv'

variable {utxos utxos' : UtxoSet} {block : Block} {stxos : List SpentTxOut} {view : UtxoViewpoint}
  (hsane : SaneBlock block) (hcoins : ∀ op c, utxos.get op = some c → c.blockHeight ≠ 0)
  (hconn : UtxoSet.connectTransactions block.height utxos block.transactions = .ok (utxos', stxos))
  (hnew : NoOverwrite block.height utxos block.transactions)

include hsane hcoins hconn hnew

/-- A block taken off the set it was connected to, with a view that has loaded
its inputs: the view stands for the set before the block. -/
theorem disconnect_loaded (hheight : block.height ≠ 0) (hview : view.Holds (Tracks utxos'))
    (hover : ∀ op, (∀ tx ∈ block.transactions, outputCoin tx block.height op = none) →
      (view.onto utxos').get op = utxos'.get op) :
    ∃ view', view.disconnectTransactions db block stxos = .ok view' ∧
      view'.Holds (Tracks utxos') ∧ view'.onto utxos' = utxos := by
  obtain ⟨hcount, hheights⟩ := cache_connectBlock (P := fun c => c.blockHeight ≠ 0) hsane hconn
    (fun tx _ op c hc => by rwa [outputCoin_height hc]) hcoins
  have hfirst : ∀ pre tx post, block.transactions = pre ++ tx :: post →
      tx.isCoinBase = pre.isEmpty := by
    obtain ⟨cb, rest, htxs, hcb, hothers⟩ := hsane.coinbase_first
    intro pre tx post h
    rw [htxs] at h
    cases pre with
    | nil =>
      obtain ⟨rfl, _⟩ := List.cons.inj h
      exact hcb
    | cons p pre =>
      obtain ⟨_, hrest⟩ := List.cons.inj h
      exact hothers tx (by rw [hrest]; simp)
  obtain ⟨v, hv, hholds, hset⟩ := disconnectTxs_ok db block.transactions hconn hfirst hheights
    hnew hview hover
  refine ⟨{ v with bestHash := block.header.prevBlock }, ?_, hholds, hset⟩
  simp [UtxoViewpoint.disconnectTransactions, hcount, hv, rejectIf]

/-- A block taken off the set it was connected to: the write gives the set
before the block, and the view goes on with coins of that set. -/
theorem disconnect_block (hheight : block.height ≠ 0) (hview : view.Holds (InSet utxos')) :
    ∃ view', (view.fetchInputUtxos utxos' block).disconnectTransactions utxos' block stxos =
        .ok view' ∧
      utxos'.putView view' = utxos ∧ view'.commit.Holds (InSet utxos) := by
  have hover : ∀ op, (∀ tx ∈ block.transactions, outputCoin tx block.height op = none) →
      ((view.fetchInputUtxos utxos' block).onto utxos').get op = utxos'.get op := by
    intro op hno
    rw [UtxoViewpoint.over_fetchInputUtxos hno, over_eq_of_inSet hview]
  obtain ⟨view', hdisc, hholds, hset⟩ := disconnect_loaded utxos' hsane hcoins hconn hnew
    hheight (holds_loaded hview) hover
  exact ⟨view', hdisc, (putView_eq_over hholds).trans hset, hset ▸ commit_inSet hholds⟩

end OneBlock

/-! ## Many blocks -/

/-- Blocks accepted one after another, with the outputs each of them spent, the
last block first. -/
def runCollect (env : Env) : ChainState → List Block →
    Check (ChainState × List (Block × List SpentTxOut))
  | s, [] => .ok (s, [])
  | s, block :: blocks => do
      let s' ← s.extend env block
      let (_, stxos) ← UtxoSet.connectTransactions (s.tip.height + 1) s.utxos block.transactions
      let (s'', journal) ← runCollect env s' blocks
      return (s'', journal ++ [(withHeight s.tip block, stxos)])

/-- Every block is checked for overwrites (`checkBIP0030`) or makes none. -/
def OverwritesChecked (env : Env) : ChainState → List Block → Prop
  | _, [] => True
  | s, block :: blocks =>
      (bip0030CheckNeeded (s.tip.child block) env.params = true ∨
        NoOverwrite (s.tip.height + 1) s.utxos block.transactions) ∧
      ∀ s', s.extend env block = .ok s' → OverwritesChecked env s' blocks

theorem noOverwrite_of_checked {env : Env} {s : ChainState} {block : Block}
    (hacc : BlockAccepted env s.utxos s.idx (s.tip.child block) (withHeight s.tip block)
      (UtxoViewpoint.new s.tip.hash))
    (hneeded : bip0030CheckNeeded (s.tip.child block) env.params = true) :
    NoOverwrite (s.tip.height + 1) s.utxos block.transactions := by
  obtain ⟨hsane, ⟨view', stxos⟩, hcheck⟩ := hacc
  obtain ⟨loaded, _, hpre, _, _, _⟩ := checkConnectBlock_ok hcheck
  obtain ⟨_, hload, _⟩ := checkConnectPrefix_ok hpre
  intro pre tx post mid st htxs hmid op hmade _
  cases hc : mid.get op with
  | none => rfl
  | some c =>
    have hmid' : UtxoSet.connectTransactions (s.tip.child block).height
        ((UtxoViewpoint.new s.tip.hash).onto s.utxos) pre = .ok (mid, st) := by
      rw [child_height, UtxoViewpoint.new_over]
      exact hmid
    have hnone := no_later_coin (saneBlock_of_check hsane) hload htxs hmid' hc hneeded tx
      mem_cons_self
    rw [child_height] at hnone
    exact absurd hnone hmade

theorem disconnectAll_append (b : List (Block × List SpentTxOut)) :
    ∀ (a : List (Block × List SpentTxOut)) {utxos : UtxoSet} {view : UtxoViewpoint},
    UtxoSet.disconnectAll utxos view (a ++ b) =
      (UtxoSet.disconnectAll utxos view a >>= fun r => UtxoSet.disconnectAll r.1 r.2 b)
  | [], utxos, view => rfl
  | (block, stxos) :: a, utxos, view => by
      rw [cons_append, UtxoSet.disconnectAll, UtxoSet.disconnectAll]
      cases (view.fetchInputUtxos utxos block).disconnectTransactions utxos block stxos with
      | error e => rfl
      | ok view' => exact disconnectAll_append b a

theorem disconnectAll_run {env : Env} (bestHash : Hash) : ∀ {blocks : List Block}
    {s s' : ChainState} {journal : List (Block × List SpentTxOut)},
    runCollect env s blocks = .ok (s', journal) →
    (∀ op c, s.utxos.get op = some c → c.blockHeight ≠ 0) → OverwritesChecked env s blocks →
    ∃ view, UtxoSet.disconnectAll s'.utxos (UtxoViewpoint.new bestHash) journal =
        .ok (s.utxos, view) ∧ view.Holds (InSet s.utxos)
  | [], s, s', journal, h, _, _ => by
      obtain ⟨rfl, rfl⟩ : s = s' ∧ [] = journal := by simpa [runCollect] using h
      refine ⟨UtxoViewpoint.new bestHash, rfl, ?_⟩
      intro op x hx
      cases hx
  | block :: blocks, s, s', journal, h, hcoins, hchecked => by
      simp only [runCollect, bind_eq_ok, pure_eq_ok, Prod.mk.injEq] at h
      obtain ⟨s₁, hext, ⟨utxos₁, stxos⟩, hconn, ⟨s₂, journal₁⟩, hrun, rfl, rfl⟩ := h
      obtain ⟨hacc, _, _, _, stxos', hconn'⟩ := extend_ok hext
      obtain ⟨rfl, rfl⟩ : utxos₁ = s₁.utxos ∧ stxos = stxos' := by
        simpa using hconn.symm.trans hconn'
      have hcoins₁ : ∀ op c, s₁.utxos.get op = some c → c.blockHeight ≠ 0 := by
        intro op c hc
        rcases UtxoSet.source_of_connectTransactions hconn hc with ⟨tx, _, hmade⟩ | ⟨hold, _⟩
        · rw [outputCoin_height hmade]
          exact Nat.succ_ne_zero _
        · exact hcoins op c hold
      obtain ⟨view₁, hview₁, hinset⟩ :=
        disconnectAll_run bestHash hrun hcoins₁ (hchecked.2 s₁ hext)
      have hnew : NoOverwrite (s.tip.height + 1) s.utxos block.transactions :=
        hchecked.1.elim (noOverwrite_of_checked hacc) id
      obtain ⟨view', hdisc, hput, hcommit⟩ := disconnect_block (saneBlock_of_check hacc.1)
        hcoins hconn hnew (Nat.succ_ne_zero _) hinset
      have hlast : UtxoSet.disconnectAll s₁.utxos view₁ [(withHeight s.tip block, stxos)] =
          .ok (s.utxos, view'.commit) := by
        rw [UtxoSet.disconnectAll, hdisc, ← hput]
        rfl
      refine ⟨view'.commit, ?_, hcommit⟩
      rw [disconnectAll_append, hview₁]
      exact hlast

/-- Blocks accepted one after another on a set of coins with heights, and then
disconnected in reverse with one view, give the set back, if each of them was
checked for overwrites or made none. -/
theorem disconnect_gives_set_back (env : Env) (s s' : ChainState) (blocks : List Block)
    (journal : List (Block × List SpentTxOut)) (bestHash : Hash)
    (h : runCollect env s blocks = .ok (s', journal))
    (hcoins : ∀ op c, s.utxos.get op = some c → c.blockHeight ≠ 0)
    (hchecked : OverwritesChecked env s blocks) :
    ∃ view, UtxoSet.disconnectAll s'.utxos (UtxoViewpoint.new bestHash) journal =
      .ok (s.utxos, view) := by
  obtain ⟨view, hview, _⟩ := disconnectAll_run bestHash h hcoins hchecked
  exact ⟨view, hview⟩

def secondState (utxos : UtxoSet) : ChainState := ⟨regularNode 2, utxos, StakeIndex.empty⟩

/-- A coin of wallet 1 moved on in block 3 and once more in block 4. -/
def movingBlocks : List Block :=
  [thirdBlock [unsignedTx 50 ⟨77, 0⟩], regularBlock 4 [coinbaseTx 8 [⟨0, [0x6a]⟩],
    unsignedTx 51 ⟨50, 0⟩]]

theorem moved_coin_is_back : ∃ s' journal view,
      runCollect youngMainNet (secondState (coinsAt [⟨77, 0⟩])) movingBlocks = .ok (s', journal) ∧
      s'.utxos.get ⟨77, 0⟩ = none ∧
      UtxoSet.disconnectAll s'.utxos (UtxoViewpoint.new s'.tip.hash) journal =
        .ok (coinsAt [⟨77, 0⟩], view) := by
  obtain ⟨s', journal, hrun, hspent⟩ : ∃ s' journal,
      runCollect youngMainNet (secondState (coinsAt [⟨77, 0⟩])) movingBlocks = .ok (s', journal) ∧
      s'.utxos.get ⟨77, 0⟩ = none := by decide +kernel
  have hcoins : ∀ op c, (coinsAt [⟨77, 0⟩]).get op = some c → c.blockHeight ≠ 0 := by
    intro op c hc
    have hone : (coinsAt [⟨77, 0⟩]).get op = if op = ⟨77, 0⟩ then some walletCoin else none := rfl
    rw [hone] at hc
    split at hc
    · obtain rfl := Option.some.inj hc
      decide
    · cases hc
  have hchecked : OverwritesChecked youngMainNet (secondState (coinsAt [⟨77, 0⟩])) movingBlocks := by
    refine ⟨.inl (by decide +kernel), fun s₁ hext => ⟨.inl ?_, fun _ _ => trivial⟩⟩
    obtain ⟨_, _, htip, _⟩ := extend_ok hext
    rw [htip]
    decide +kernel
  obtain ⟨view, hview⟩ := disconnect_gives_set_back youngMainNet
    (secondState (coinsAt [⟨77, 0⟩])) s' movingBlocks journal s'.tip.hash hrun hcoins hchecked
  exact ⟨s', journal, view, hrun, hspent, hview⟩

theorem restoredCoin_legacy {v : UtxoViewpoint} {txHash : Hash} {stxo : SpentTxOut} {e : UtxoEntry}
    (hzero : stxo.blockHeight = 0) (h : v.lookupEntry ⟨txHash, 0⟩ = some e) (utxos : UtxoSet)
    (op : OutPoint) : v.restoredCoin utxos txHash op stxo =
      .ok { stxo with blockHeight := e.blockHeight, isCoinBase := e.isCoinBase } := by
  have hfetch : v.fetchEntryByHash utxos txHash = some e := by
    have hmax : UtxoViewpoint.maxOutputsPerBlock = 555554 + 1 := by decide
    rw [UtxoViewpoint.fetchEntryByHash, hmax, range_succ_eq_map, findSome?_cons, h]
    rfl
  rw [UtxoViewpoint.restoredCoin, if_pos hzero, hfetch]

/-- The coin of wallet 1 with height 0, and the block that spends it. -/
def genesisCoin : Coin := { walletCoin with blockHeight := 0 }

def spendingBlock : Block := thirdBlock [unsignedTx 50 ⟨77, 0⟩]

theorem disconnect_genesisCoin (bestHash : Hash) (utxos : UtxoSet) :
    ∃ view, ((UtxoViewpoint.new bestHash).fetchInputUtxos utxos spendingBlock).disconnectTransactions
        utxos spendingBlock [genesisCoin] = .ok view ∧
      (utxos.putView view).get ⟨77, 0⟩ = some { walletCoin with blockHeight := 3 } := by
  let v₀ := (UtxoViewpoint.new bestHash).fetchInputUtxos utxos spendingBlock
  let v₁ := v₀.removeTxOutsFrom 50 false 3 0 (unsignedTx 50 ⟨77, 0⟩).msgTx.txOut
  let made : Coin := ⟨100000000, makeWinnerP2WPKHScript 2, 3, false⟩
  let v₂ := v₁.setEntry ⟨77, 0⟩ (some { walletCoin.entry with blockHeight := 3, isModified := true })
  have hmade : v₁.lookupEntry ⟨50, 0⟩ = some made.entry.spend := rfl
  have hback := restoredCoin_legacy (rfl : genesisCoin.blockHeight = 0) hmade utxos ⟨77, 0⟩
  have htx : UtxoViewpoint.disconnectTransaction utxos 3 false v₀ (unsignedTx 50 ⟨77, 0⟩)
      [genesisCoin] = .ok (v₂, []) := by
    show UtxoViewpoint.restoreInputs utxos 50 v₁ [{ previousOutPoint := ⟨77, 0⟩ }] [genesisCoin] = _
    rw [UtxoViewpoint.restoreInputs, if_neg (by decide)]
    dsimp only
    rw [hback]
    rfl
  have htxs : UtxoViewpoint.disconnectTxs utxos spendingBlock.height v₀
      spendingBlock.transactions.reverse [genesisCoin] = .ok v₂ := by
    show UtxoViewpoint.disconnectTxs utxos 3 v₀ [unsignedTx 50 ⟨77, 0⟩, idleCoinbase]
      [genesisCoin] = _
    rw [UtxoViewpoint.disconnectTxs, isEmpty_cons, htx]
    rfl
  have hcount : ¬ [genesisCoin].length ≠ countSpentOutputs spendingBlock := by decide +kernel
  refine ⟨{ v₂ with bestHash := spendingBlock.header.prevBlock }, ?_, rfl⟩
  rw [UtxoViewpoint.disconnectTransactions, rejectIf, if_neg hcount, reverse_singleton, htxs]
  rfl

/-- A coin that a coinbase with its id overwrites, in a block that is not
checked for it, is gone afterwards; a coin without a height comes back with
another one. -/
theorem coin_not_given_back : (∃ s' journal utxos view,
      runCollect bip34Net (secondState (coinsAt [⟨9, 0⟩]))
        [regularBlock 3 [coinbaseTx 9 [⟨0, [0x51]⟩]]] = .ok (s', journal) ∧
      UtxoSet.disconnectAll s'.utxos (UtxoViewpoint.new s'.tip.hash) journal = .ok (utxos, view) ∧
      utxos.get ⟨9, 0⟩ ≠ (coinsAt [⟨9, 0⟩]).get ⟨9, 0⟩) ∧
    ∃ s' journal utxos view,
      runCollect youngMainNet (secondState (Bucket.empty.put ⟨77, 0⟩ genesisCoin))
        [spendingBlock] = .ok (s', journal) ∧
      UtxoSet.disconnectAll s'.utxos (UtxoViewpoint.new s'.tip.hash) journal = .ok (utxos, view) ∧
      utxos.get ⟨77, 0⟩ ≠ some genesisCoin := by
  constructor
  · simp only [exists_and_left]
    decide +kernel
  · obtain ⟨s', journal, hrun, rfl⟩ : ∃ s' journal,
        runCollect youngMainNet (secondState (Bucket.empty.put ⟨77, 0⟩ genesisCoin))
          [spendingBlock] = .ok (s', journal) ∧ journal = [(spendingBlock, [genesisCoin])] := by
      decide +kernel
    obtain ⟨view, hview, hcoin⟩ := disconnect_genesisCoin s'.tip.hash s'.utxos
    refine ⟨s', _, s'.utxos.putView view, view.commit, hrun, ?_, ?_⟩
    · rw [UtxoSet.disconnectAll, hview]
      rfl
    · rw [hcoin]
      decide

end FalconDraw.Chain
