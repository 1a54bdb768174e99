/-
FalconDraw.Chain.UtxoTheorems — what connecting a transaction does to one
outpoint, in the UTXO set and in a view of it.

A transaction can do two things to an outpoint: spend it (`Tx.spends`) and give it
a coin (`outputCoin`).
-/
import FalconDraw.Chain.Utxo

namespace FalconDraw.Chain

open Lib Wire Script Draw List

/-- The coin the outputs of a transaction put at an outpoint, if any. -/
def outputCoin (tx : Tx) (height : Nat) (op : OutPoint) : Option Coin :=
  if op.hash = tx.hash then
    tx.msgTx.txOut[op.index]?.bind fun out =>
      if isUnspendable out.pkScript then none
      else some ⟨out.value, out.pkScript, height, tx.isCoinBase⟩
  else none

/-- One of the inputs refers to the outpoint and is not passed over as a
sentinel. -/
def inputsSpend (txIn : List TxIn) (op : OutPoint) : Bool :=
  txIn.any fun t => !isPoolDrawSentinelInput t && t.previousOutPoint == op

def txSpends (tx : Tx) (op : OutPoint) : Bool :=
  !tx.isCoinBase && !isVDFResultTx tx && inputsSpend tx.msgTx.txIn op

theorem outputCoin_eq_none_iff {tx : Tx} {op : OutPoint} {h h' : Nat} :
    outputCoin tx h op = none ↔ outputCoin tx h' op = none := by
  simp [outputCoin]

theorem outputCoin_hash {tx : Tx} {op : OutPoint} {h : Nat} (hc : outputCoin tx h op ≠ none) :
    tx.hash = op.hash ∧ op.index < tx.msgTx.txOut.length := by
  grind [outputCoin]

theorem outputCoin_height {tx : Tx} {op : OutPoint} {h : Nat} {c : Coin}
    (hc : outputCoin tx h op = some c) : c.blockHeight = h := by
  grind [outputCoin]

theorem inputsSpend_cons (t : TxIn) (ts : List TxIn) (op : OutPoint) : inputsSpend (t :: ts) op =
      ((!isPoolDrawSentinelInput t && t.previousOutPoint == op) || inputsSpend ts op) :=
  any_cons

/-! ## The set -/

namespace UtxoSet

variable {utxos utxos' : UtxoSet} {tx : Tx} {height : Nat} {op : OutPoint}
variable {stxos : List SpentTxOut}

theorem get_addTxOut (out : TxOut) (isCoinBase : Bool) (op' : OutPoint) :
    (addTxOut utxos op out isCoinBase height).get op' =
      if op' = op ∧ isUnspendable out.pkScript = false then
        some ⟨out.value, out.pkScript, height, isCoinBase⟩
      else utxos.get op' := by
  grind [addTxOut, Bucket.get_put]

theorem get_addTxOutsFrom (hash : Hash) (isCoinBase : Bool) : ∀ (outs : List TxOut) (idx : Nat)
    (utxos : UtxoSet), (addTxOutsFrom utxos hash isCoinBase height idx outs).get op =
      if op.hash = hash ∧ idx ≤ op.index then
        (outs[op.index - idx]?.bind fun out => if isUnspendable out.pkScript then none
          else some ⟨out.value, out.pkScript, height, isCoinBase⟩).or (utxos.get op)
      else utxos.get op
  | [], idx, utxos => by simp [addTxOutsFrom]
  | out :: outs, idx, utxos => by
      rw [addTxOutsFrom, get_addTxOutsFrom hash isCoinBase outs (idx + 1), get_addTxOut]
      by_cases hhash : op.hash = hash
      · rcases Nat.lt_trichotomy op.index idx with hlt | heq | hgt
        · grind
        · have hop : op = ⟨hash, idx⟩ := by
            cases op
            simp_all
          cases hu : isUnspendable out.pkScript <;> simp [hop, hu, Nat.not_succ_le_self]
        · grind
      · have hne : op ≠ ⟨hash, idx⟩ := fun e => hhash (by simp [e])
        simp [hhash, hne]

theorem get_addTxOuts (utxos : UtxoSet) (tx : Tx) (height : Nat) (op : OutPoint) :
    (addTxOuts utxos tx height).get op = (outputCoin tx height op).or (utxos.get op) := by
  grind [addTxOuts, get_addTxOutsFrom, outputCoin]

theorem spendInputs_cons {t : TxIn} {ts : List TxIn} :
    spendInputs utxos (t :: ts) = .ok (utxos', stxos) ↔
      (isPoolDrawSentinelInput t = true ∧ spendInputs utxos ts = .ok (utxos', stxos)) ∨
      (isPoolDrawSentinelInput t = false ∧ ∃ c st, utxos.get t.previousOutPoint = some c ∧
        spendInputs (utxos.delete t.previousOutPoint) ts = .ok (utxos', st) ∧ stxos = c :: st) := by
  rw [spendInputs]
  cases isPoolDrawSentinelInput t with
  | true => simp
  | false => cases utxos.get t.previousOutPoint <;> grind [bind_eq_ok, pure_eq_ok]

theorem get_spendInputs : ∀ {ts : List TxIn} {utxos utxos' : UtxoSet} {stxos : List SpentTxOut},
    spendInputs utxos ts = .ok (utxos', stxos) →
    utxos'.get op = if inputsSpend ts op then none else utxos.get op
  | [], utxos, utxos', stxos, h => by
      simp only [spendInputs, Except.ok.injEq, Prod.mk.injEq] at h
      rw [← h.1]
      rfl
  | t :: ts, utxos, utxos', stxos, h => by
      rcases spendInputs_cons.mp h with ⟨hs, h⟩ | ⟨hs, c, st, hc, hrest, rfl⟩
      · simpa [inputsSpend_cons, hs] using get_spendInputs h
      · rw [inputsSpend_cons, get_spendInputs hrest]
        grind

theorem get_of_spendInputs : ∀ {ts : List TxIn} {utxos utxos' : UtxoSet}
    {stxos : List SpentTxOut}, spendInputs utxos ts = .ok (utxos', stxos) →
    inputsSpend ts op = true → utxos.get op ≠ none
  | [], _, _, _, _, hop => by simp [inputsSpend] at hop
  | t :: ts, utxos, utxos', stxos, h, hop => by
      rw [inputsSpend_cons] at hop
      rcases spendInputs_cons.mp h with ⟨hs, h⟩ | ⟨hs, c, st, hc, hrest, rfl⟩
      · exact get_of_spendInputs h (by simpa [hs] using hop)
      · by_cases heq : t.previousOutPoint = op
        · simp [← heq, hc]
        · have hlater := get_of_spendInputs hrest (by simpa [hs, heq] using hop)
          rwa [Bucket.get_delete_of_ne _ (Ne.symm heq)] at hlater

theorem get_connectTransaction (op : OutPoint)
    (h : connectTransaction utxos tx height = .ok (utxos', stxos)) :
    utxos'.get op = (outputCoin tx height op).or
        (if txSpends tx op then none else utxos.get op) ∧
      (txSpends tx op = true → utxos.get op ≠ none) := by
  simp only [connectTransaction, bind_eq_ok, pure_eq_ok, Prod.mk.injEq] at h
  obtain ⟨⟨u, st⟩, hins, rfl, _⟩ := h
  rw [get_addTxOuts]
  unfold addTxIns at hins
  cases hcb : tx.isCoinBase with
  | true =>
    simp only [hcb, if_true, Except.ok.injEq, Prod.mk.injEq] at hins
    simp [txSpends, hcb, hins.1]
  | false =>
    cases hv : isVDFResultTx tx with
    | true => grind [txSpends]
    | false =>
      simp only [hcb, hv, Bool.false_eq_true, if_false] at hins
      have hsp : txSpends tx op = inputsSpend tx.msgTx.txIn op := by simp [txSpends, hcb, hv]
      rw [hsp, get_spendInputs hins]
      exact ⟨rfl, get_of_spendInputs hins⟩

theorem connectTransactions_cons {txs : List Tx} :
    connectTransactions height utxos (tx :: txs) = .ok (utxos', stxos) ↔
      ∃ mid st st', connectTransaction utxos tx height = .ok (mid, st) ∧
        connectTransactions height mid txs = .ok (utxos', st') ∧ stxos = st ++ st' := by
  grind [connectTransactions, bind_eq_ok, pure_eq_ok]

theorem connectTransactions_append {rest : List Tx} : ∀ {txs : List Tx} {utxos utxos' : UtxoSet}
    {stxos : List SpentTxOut}, connectTransactions height utxos (txs ++ rest) = .ok (utxos', stxos) ↔
      ∃ mid st st', connectTransactions height utxos txs = .ok (mid, st) ∧
        connectTransactions height mid rest = .ok (utxos', st') ∧ stxos = st ++ st'
  | [], utxos, utxos', stxos => by
      simp only [nil_append, connectTransactions, Except.ok.injEq, Prod.mk.injEq]
      constructor
      · intro h
        exact ⟨utxos, [], stxos, ⟨rfl, rfl⟩, h, rfl⟩
      · rintro ⟨mid, st, st', ⟨rfl, rfl⟩, h, rfl⟩
        exact h
  | tx :: txs, utxos, utxos', stxos => by
      rw [cons_append, connectTransactions_cons]
      simp only [connectTransactions_cons, connectTransactions_append]
      constructor
      · rintro ⟨m, a, b, h, ⟨mid, c, d, h₁, h₂, rfl⟩, rfl⟩
        exact ⟨mid, a ++ c, d, ⟨m, a, c, h, h₁, rfl⟩, h₂, (append_assoc ..).symm⟩
      · rintro ⟨mid, _, d, ⟨m, a, c, h, h₁, rfl⟩, h₂, rfl⟩
        exact ⟨m, a, c ++ d, h, ⟨mid, c, d, h₁, h₂, rfl⟩, append_assoc ..⟩

/-- Where a coin comes from: a transaction of the list made it, or it was there
before and none of them spent it. -/
theorem source_of_connectTransactions {c : Coin} : ∀ {txs : List Tx} {utxos utxos' : UtxoSet}
    {stxos : List SpentTxOut}, connectTransactions height utxos txs = .ok (utxos', stxos) →
    utxos'.get op = some c → (∃ tx ∈ txs, outputCoin tx height op = some c) ∨
      (utxos.get op = some c ∧ ∀ tx ∈ txs, txSpends tx op = false)
  | [], utxos, utxos', stxos, h, hc => by
      simp only [connectTransactions, Except.ok.injEq, Prod.mk.injEq] at h
      exact Or.inr ⟨h.1 ▸ hc, by simp⟩
  | tx :: txs, utxos, utxos', stxos, h, hc => by
      obtain ⟨mid, _, _, hstep, hrest, _⟩ := connectTransactions_cons.mp h
      rcases source_of_connectTransactions hrest hc with ⟨t, ht, hmade⟩ | ⟨hmid, hkept⟩
      · exact Or.inl ⟨t, mem_cons_of_mem _ ht, hmade⟩
      · obtain ⟨hget, _⟩ := get_connectTransaction op hstep
        rw [hmid] at hget
        cases hout : outputCoin tx height op with
        | some d =>
          rw [hout, Option.some_or] at hget
          exact Or.inl ⟨tx, mem_cons_self, by rw [hout, hget]⟩
        | none => grind

/-- A coin that is not there and that no transaction makes stays away, and no
transaction spends it. -/
theorem absent_of_connectTransactions : ∀ {txs : List Tx} {utxos utxos' : UtxoSet}
    {stxos : List SpentTxOut}, connectTransactions height utxos txs = .ok (utxos', stxos) →
    utxos.get op = none → (∀ tx ∈ txs, outputCoin tx height op = none) →
    utxos'.get op = none ∧ ∀ tx ∈ txs, txSpends tx op = false
  | [], utxos, utxos', stxos, h, hnone, _ => by
      simp only [connectTransactions, Except.ok.injEq, Prod.mk.injEq] at h
      exact ⟨h.1 ▸ hnone, by simp⟩
  | tx :: txs, utxos, utxos', stxos, h, hnone, hno => by
      obtain ⟨mid, _, _, hstep, hrest, _⟩ := connectTransactions_cons.mp h
      obtain ⟨hget, hspend⟩ := get_connectTransaction op hstep
      have hsp : txSpends tx op = false := by
        by_contra hsp
        exact hspend (Bool.not_eq_false _ ▸ hsp) hnone
      have hmid : mid.get op = none := by
        simpa [hno tx mem_cons_self, hsp, hnone] using hget
      obtain ⟨hend, hothers⟩ := absent_of_connectTransactions hrest hmid
        fun t ht => hno t (mem_cons_of_mem _ ht)
      refine ⟨hend, ?_⟩
      intro t ht
      rcases mem_cons.mp ht with rfl | ht
      · exact hsp
      · exact hothers t ht

end UtxoSet

/-! ## The view -/

def Coin.created (c : Coin) : UtxoEntry := { c.entry with isModified := true, isFresh := true }

@[simp] theorem Coin.entry_coin (c : Coin) : c.entry.coin = c := rfl

@[simp] theorem Coin.entry_isSpent (c : Coin) : c.entry.isSpent = false := rfl

@[simp] theorem Coin.created_coin (c : Coin) : c.created.coin = c := rfl

@[simp] theorem Coin.created_isSpent (c : Coin) : c.created.isSpent = false := rfl

@[simp] theorem UtxoEntry.spend_coin (e : UtxoEntry) : e.spend.coin = e.coin := by
  unfold UtxoEntry.spend
  split <;> rfl

@[simp] theorem UtxoEntry.spend_isSpent (e : UtxoEntry) : e.spend.isSpent = true := by
  unfold UtxoEntry.spend
  split
  · assumption
  · rfl

@[simp] theorem UtxoEntry.spend_spend (e : UtxoEntry) : e.spend.spend = e.spend := by
  rw [UtxoEntry.spend, if_pos e.spend_isSpent]

namespace UtxoViewpoint

variable {view view' : UtxoViewpoint} {utxos : UtxoSet} {tx : Tx} {height : Nat} {op : OutPoint}
variable {block : Block} {ops : List OutPoint} {stxos : List SpentTxOut}

theorem entry_setEntry (view : UtxoViewpoint) (op op' : OutPoint) (e : Option UtxoEntry) :
    (view.setEntry op e).entries.get op' = if op' = op then some e else view.entries.get op' :=
  rfl

theorem entry_addTxOut (out : TxOut) (isCoinBase : Bool) (op' : OutPoint) :
    (view.addTxOut op out isCoinBase height).entries.get op' =
      if op' = op ∧ isUnspendable out.pkScript = false then
        some (some (newEntry out isCoinBase height))
      else view.entries.get op' := by
  grind [addTxOut, entry_setEntry]

theorem entry_addTxOutsFrom (hash : Hash) (isCoinBase : Bool) : ∀ (outs : List TxOut)
    (idx : Nat) (view : UtxoViewpoint),
    (view.addTxOutsFrom hash isCoinBase height idx outs).entries.get op =
      if op.hash = hash ∧ idx ≤ op.index then
        (outs[op.index - idx]?.bind fun out => if isUnspendable out.pkScript then none
          else some (some (newEntry out isCoinBase height))).or (view.entries.get op)
      else view.entries.get op
  | [], idx, view => by simp [addTxOutsFrom]
  | out :: outs, idx, view => by
      rw [addTxOutsFrom, entry_addTxOutsFrom hash isCoinBase outs (idx + 1), entry_addTxOut]
      by_cases hhash : op.hash = hash
      · rcases Nat.lt_trichotomy op.index idx with hlt | heq | hgt
        · grind
        · have hop : op = ⟨hash, idx⟩ := by
            cases op
            simp_all
          cases hu : isUnspendable out.pkScript <;> simp [hop, hu, Nat.not_succ_le_self]
        · grind
      · have hne : op ≠ ⟨hash, idx⟩ := fun e => hhash (by simp [e])
        simp [hhash, hne]

theorem entry_addTxOuts (view : UtxoViewpoint) (tx : Tx) (height : Nat) (op : OutPoint) :
    (view.addTxOuts tx height).entries.get op =
      ((outputCoin tx height op).map fun c => some c.created).or (view.entries.get op) := by
  rw [addTxOuts, entry_addTxOutsFrom, outputCoin]
  by_cases h : op.hash = tx.hash
  · simp only [h, Nat.zero_le, and_self, if_true, Nat.sub_zero]
    cases tx.msgTx.txOut[op.index]? with
    | none => rfl
    | some out =>
      simp only [Option.bind_some]
      split <;> rfl
  · simp [h]

theorem lookupEntry_eq_some {e : UtxoEntry} :
    view.lookupEntry op = some e ↔ view.entries.get op = some (some e) :=
  Option.join_eq_some_iff

theorem spendInputs_cons {t : TxIn} {ts : List TxIn} :
    view.spendInputs (t :: ts) = .ok (view', stxos) ↔
      (isPoolDrawSentinelInput t = true ∧ view.spendInputs ts = .ok (view', stxos)) ∨
      (isPoolDrawSentinelInput t = false ∧ ∃ e st, view.lookupEntry t.previousOutPoint = some e ∧
        (view.setEntry t.previousOutPoint (some e.spend)).spendInputs ts = .ok (view', st) ∧
        stxos = e.coin :: st) := by
  rw [spendInputs]
  cases isPoolDrawSentinelInput t with
  | true => simp
  | false => cases view.lookupEntry t.previousOutPoint <;> grind [bind_eq_ok, pure_eq_ok]

theorem entry_spendInputs : ∀ {ts : List TxIn} {view view' : UtxoViewpoint}
    {stxos : List SpentTxOut}, view.spendInputs ts = .ok (view', stxos) → view'.entries.get op =
      if inputsSpend ts op then (view.entries.get op).map (Option.map UtxoEntry.spend)
      else view.entries.get op
  | [], view, view', stxos, h => by
      simp only [spendInputs, Except.ok.injEq, Prod.mk.injEq] at h
      rw [← h.1]
      rfl
  | t :: ts, view, view', stxos, h => by
      rw [inputsSpend_cons]
      rcases spendInputs_cons.mp h with ⟨hs, h⟩ | ⟨hs, e, st, hc, hrest, rfl⟩
      · simpa [hs] using entry_spendInputs h
      · rw [entry_spendInputs hrest, entry_setEntry]
        by_cases hop : op = t.previousOutPoint
        · subst hop
          cases inputsSpend ts t.previousOutPoint <;> simp [hs, lookupEntry_eq_some.mp hc]
        · simp [hop, Ne.symm hop]

theorem entry_connectTransaction (h : view.connectTransaction tx height = .ok (view', stxos)) :
    view'.entries.get op = ((outputCoin tx height op).map fun c => some c.created).or
      (if txSpends tx op then (view.entries.get op).map (Option.map UtxoEntry.spend)
        else view.entries.get op) := by
  unfold connectTransaction at h
  cases hcb : tx.isCoinBase with
  | true => grind [entry_addTxOuts, txSpends]
  | false => grind [entry_addTxOuts, txSpends, bind_eq_ok, pure_eq_ok, entry_spendInputs]

theorem lookup_connectTransaction (h : view.connectTransaction tx height = .ok (view', stxos)) :
    view'.lookupEntry op = ((outputCoin tx height op).map Coin.created).or
      (if txSpends tx op then (view.lookupEntry op).map UtxoEntry.spend
        else view.lookupEntry op) := by
  rw [lookupEntry, entry_connectTransaction h]
  cases outputCoin tx height op with
  | some c => rfl
  | none => grind [lookupEntry]

/-! ### The set a view stands for -/

/-- What a key of a view says about the set: nothing, no coin, or a coin. -/
def coinOf : Option UtxoEntry → Option Coin
  | none => none
  | some e => if e.isSpent then none else some e.coin

def onto (view : UtxoViewpoint) (utxos : UtxoSet) : UtxoSet := fun op =>
  (view.entries.get op).elim (utxos.get op) coinOf

theorem get_over (view : UtxoViewpoint) (utxos : UtxoSet) (op : OutPoint) :
    (view.onto utxos).get op = (view.entries.get op).elim (utxos.get op) coinOf := rfl

@[simp] theorem coinOf_loaded (c : Option Coin) : coinOf (c.map Coin.entry) = c := by
  cases c <;> simp [coinOf]

theorem new_over (bestHash : Hash) (utxos : UtxoSet) : (new bestHash).onto utxos = utxos := rfl

theorem over_congr {v w : UtxoViewpoint} (h : v.entries.get op = w.entries.get op) :
    (v.onto utxos).get op = (w.onto utxos).get op := by
  rw [get_over, get_over, h]

theorem over_of_lookup {e : UtxoEntry} (h : view.lookupEntry op = some e)
    (hunspent : e.isSpent = false) : (view.onto utxos).get op = some e.coin := by
  simp [get_over, lookupEntry_eq_some.mp h, coinOf, hunspent]

/-- The entries of these outpoints are replaced by what `load` has for them. -/
def loadEntries (load : OutPoint → Option UtxoEntry) (view : UtxoViewpoint) (ops : List OutPoint) :
    UtxoViewpoint :=
  ops.foldl (fun v op => v.setEntry op (load op)) view

section Load

variable {load : OutPoint → Option UtxoEntry}

/-- Loading what the set below holds changes nothing where the view said that
already. -/
theorem over_loadEntries (hload : ∀ op, coinOf (load op) = utxos.get op) :
    ∀ {ops : List OutPoint} {view : UtxoViewpoint},
    (op ∈ ops → (view.onto utxos).get op = utxos.get op) →
    ((view.loadEntries load ops).onto utxos).get op = (view.onto utxos).get op
  | [], view, _ => rfl
  | op' :: ops, view, h => by
      have hstep : ((view.setEntry op' (load op')).onto utxos).get op =
          (view.onto utxos).get op := by
        grind [get_over, entry_setEntry]
      have hrest : op ∈ ops →
          ((view.setEntry op' (load op')).onto utxos).get op = utxos.get op := by
        intro hmem
        rw [hstep, h (mem_cons_of_mem _ hmem)]
      simpa only [loadEntries, foldl_cons] using (over_loadEntries hload hrest).trans hstep

theorem entry_loadEntries : ∀ {ops : List OutPoint} {view : UtxoViewpoint},
    (view.loadEntries load ops).entries.get op =
      if op ∈ ops then some (load op) else view.entries.get op
  | [], view => by simp [loadEntries]
  | op' :: ops, view => by
      have hstep : view.loadEntries load (op' :: ops) =
          (view.setEntry op' (load op')).loadEntries load ops := rfl
      rw [hstep, entry_loadEntries, entry_setEntry]
      by_cases hop : op = op'
      · subst hop
        simp
      · simp [hop]

end Load

theorem over_fetchUtxosFromCache (h : op ∈ ops → (view.onto utxos).get op = utxos.get op) :
    ((view.fetchUtxosFromCache utxos ops).onto utxos).get op = (view.onto utxos).get op :=
  over_loadEntries (fun _ => coinOf_loaded _) h

theorem entry_fetchUtxosFromCache : (view.fetchUtxosFromCache utxos ops).entries.get op =
      if op ∈ ops then some ((utxos.get op).map Coin.entry) else view.entries.get op :=
  entry_loadEntries

theorem entry_fetchUtxos (hop : op ∈ ops) : (view.fetchUtxos utxos ops).entries.get op ≠ none := by
  grind [fetchUtxos, entry_fetchUtxosFromCache]

theorem over_fetchUtxos (view : UtxoViewpoint) (ops : List OutPoint) :
    (view.fetchUtxos utxos ops).onto utxos = view.onto utxos := by
  ext1 op
  apply over_fetchUtxosFromCache
  intro hmem
  have hnone : view.entries.get op = none := by
    simpa using (mem_filter.mp hmem).2
  simp [get_over, hnone]

/-! ### Loading the inputs of a block -/

theorem inFlight_mem {h : Hash} {tx : Tx} : ∀ {txs : List Tx} {i j : Nat},
    inFlight h i txs = some (tx, j) → tx ∈ txs
  | [], _, _, hf => by simp [inFlight] at hf
  | t :: txs, i, j, hf => by
      rw [inFlight] at hf
      cases hrest : inFlight h (i + 1) txs with
      | some r =>
        rw [hrest] at hf
        obtain rfl := Option.some.inj hf
        exact mem_cons_of_mem _ (inFlight_mem hrest)
      | none =>
        simp only [hrest, Option.ite_none_right_eq_some, Option.some.injEq, Prod.mk.injEq] at hf
        exact hf.2.1 ▸ mem_cons_self

/-- At this outpoint loading the inputs has not changed the set the view stands
for, and will not when the list is fetched. -/
def Undisturbed (utxos : UtxoSet) (view : UtxoViewpoint) (op : OutPoint)
    (acc : UtxoViewpoint × List OutPoint) : Prop :=
  (acc.1.onto utxos).get op = (view.onto utxos).get op ∧
    (op ∈ acc.2 → (acc.1.onto utxos).get op = utxos.get op)

/-- The induction rule for `findInputsToFetch`: a round adds the outputs of a transaction of the
block, or puts an outpoint that the view has no key for on the list. -/
theorem findInputsToFetch_induct {Q : UtxoViewpoint × List OutPoint → Prop}
    (hadd : ∀ acc, ∀ tx ∈ block.transactions, Q acc → Q (acc.1.addTxOuts tx block.height, acc.2))
    (hmissing : ∀ acc op, acc.1.entries.get op = none → Q acc → Q (acc.1, acc.2 ++ [op]))
    (hstart : Q (view, [])) : Q (view.findInputsToFetch block) := by
  have hround : ∀ i acc t, Q acc → Q (findInput block.transactions block.height i acc t) := by
    intro i acc t h
    simp only [findInput, Option.isNone_iff_eq_none]
    split <;> split_ifs <;> solve_by_elim [inFlight_mem]
  suffices hloop : ∀ rest i acc, Q acc →
      Q (findInputsFrom block.transactions block.height i acc rest) from hloop _ _ _ hstart
  intro rest
  induction rest with
  | nil => exact fun _ _ h => h
  | cons tx rest ih =>
    intro i acc h
    refine ih _ _ ?_
    split
    case isTrue => exact h
    case isFalse =>
      exact foldlRecOn tx.msgTx.txIn _ h fun acc hacc t _ => hround i acc t hacc

theorem undisturbed_findInputsToFetch (utxos : UtxoSet) (view : UtxoViewpoint)
    (hno : ∀ tx ∈ block.transactions, outputCoin tx block.height op = none) :
    Undisturbed utxos view op (view.findInputsToFetch block) := by
  refine findInputsToFetch_induct ?_ ?_ ⟨rfl, by simp⟩
  · rintro acc tx htx ⟨hsame, hlist⟩
    have hkeep : ((acc.1.addTxOuts tx block.height).onto utxos).get op =
        (acc.1.onto utxos).get op := by
      apply over_congr
      rw [entry_addTxOuts, hno tx htx]
      rfl
    exact ⟨hkeep.trans hsame, fun hmem => hkeep.trans (hlist hmem)⟩
  · rintro acc op' hkey ⟨hsame, hlist⟩
    refine ⟨hsame, fun hmem => ?_⟩
    rcases mem_append.mp hmem with hmem | hmem
    · exact hlist hmem
    · rw [mem_singleton.mp hmem, get_over, hkey, Option.elim_none]

/-- Loading the inputs of a block leaves the set as it was at every outpoint the
block makes no coin for. -/
theorem over_fetchInputUtxos
    (hno : ∀ tx ∈ block.transactions, outputCoin tx block.height op = none) :
    ((view.fetchInputUtxos utxos block).onto utxos).get op = (view.onto utxos).get op := by
  obtain ⟨hsame, hlist⟩ := undisturbed_findInputsToFetch utxos view hno
  exact (over_fetchUtxosFromCache hlist).trans hsame

/-! ### What holds of every key of a view -/

section Holds

variable {P : OutPoint → Option UtxoEntry → Prop}

/-- Every key of the view is bound to something with this property. -/
def Holds (P : OutPoint → Option UtxoEntry → Prop) (view : UtxoViewpoint) : Prop :=
  ∀ op x, view.entries.get op = some x → P op x

theorem Holds.setEntry (h : view.Holds P) {x : Option UtxoEntry} (hx : P op x) :
    (view.setEntry op x).Holds P := by
  intro op' y hy
  grind [entry_setEntry, Holds]

theorem Holds.addTxOuts (h : view.Holds P)
    (hout : ∀ op c, outputCoin tx height op = some c → P op (some c.created)) :
    (view.addTxOuts tx height).Holds P := by
  intro op x hx
  rw [entry_addTxOuts] at hx
  cases hc : outputCoin tx height op <;> grind [Holds]

theorem Holds.loadEntries {load : OutPoint → Option UtxoEntry} (h : view.Holds P)
    (hload : ∀ op, P op (load op)) {ops : List OutPoint} : (view.loadEntries load ops).Holds P := by
  intro op x hx
  grind [entry_loadEntries, Holds]

theorem Holds.fetchUtxosFromCache (h : view.Holds P)
    (hset : ∀ op, P op ((utxos.get op).map Coin.entry)) {ops : List OutPoint} :
    (view.fetchUtxosFromCache utxos ops).Holds P :=
  h.loadEntries hset

theorem Holds.findInputsToFetch {block : Block} (h : view.Holds P)
    (hout : ∀ tx ∈ block.transactions, ∀ op c, outputCoin tx block.height op = some c →
      P op (some c.created)) : (view.findInputsToFetch block).1.Holds P := by
  refine findInputsToFetch_induct (Q := fun acc => acc.1.Holds P) ?_ (fun _ _ _ h => h) h
  exact fun acc tx htx h => h.addTxOuts (hout tx htx)

theorem Holds.fetchInputUtxos {block : Block} (h : view.Holds P)
    (hset : ∀ op, P op ((utxos.get op).map Coin.entry))
    (hout : ∀ tx ∈ block.transactions, ∀ op c, outputCoin tx block.height op = some c →
      P op (some c.created)) : (view.fetchInputUtxos utxos block).Holds P :=
  (h.findInputsToFetch hout).fetchUtxosFromCache hset

end Holds

/-! ### What holds of every coin in a view -/

/-- Every entry of the view is of a coin with this property. -/
def All (P : Coin → Prop) (view : UtxoViewpoint) : Prop :=
  ∀ op e, view.lookupEntry op = some e → P e.coin

variable {P : Coin → Prop}

theorem All.new (bestHash : Hash) : (new bestHash).All P := by
  intro op e he
  cases he

theorem all_iff_holds : view.All P ↔ view.Holds fun _ x => ∀ e, x = some e → P e.coin := by
  constructor
  · rintro h op _ hx e rfl
    exact h op e (by simp [lookupEntry, hx])
  · exact fun h op e he => h op (some e) (lookupEntry_eq_some.mp he) e rfl

theorem All.setEntry (h : view.All P) {x : Option UtxoEntry} (hx : ∀ e, x = some e → P e.coin) :
    (view.setEntry op x).All P :=
  all_iff_holds.mpr ((all_iff_holds.mp h).setEntry hx)

theorem All.addTxOuts (h : view.All P) (hout : ∀ op c, outputCoin tx height op = some c → P c) :
    (view.addTxOuts tx height).All P := by
  refine all_iff_holds.mpr ((all_iff_holds.mp h).addTxOuts ?_)
  rintro op c hc e ⟨⟩
  exact hout op c hc

theorem All.spendInputs : ∀ {ts : List TxIn} {view view' : UtxoViewpoint}
    {stxos : List SpentTxOut}, view.All P → view.spendInputs ts = .ok (view', stxos) →
    view'.All P ∧ ∀ c ∈ stxos, P c
  | [], view, view', stxos, hall, h => by
      simp only [UtxoViewpoint.spendInputs, Except.ok.injEq, Prod.mk.injEq] at h
      obtain ⟨rfl, rfl⟩ := h
      exact ⟨hall, by simp⟩
  | t :: ts, view, view', stxos, hall, h => by
      rcases spendInputs_cons.mp h with ⟨_, h⟩ | ⟨_, e, st, he, hrest, rfl⟩
      · exact All.spendInputs hall h
      · have hcoin : P e.coin := hall _ e he
        obtain ⟨hall', hst⟩ := All.spendInputs (hall.setEntry (by grind [UtxoEntry.spend_coin])) hrest
        exact ⟨hall', forall_mem_cons.mpr ⟨hcoin, hst⟩⟩

theorem All.connectTransaction (hall : view.All P)
    (hout : ∀ op c, outputCoin tx height op = some c → P c)
    (h : view.connectTransaction tx height = .ok (view', stxos)) :
    view'.All P ∧ ∀ c ∈ stxos, P c := by
  have hplain := hall.addTxOuts hout
  unfold UtxoViewpoint.connectTransaction at h
  split at h
  case isTrue => grind
  case isFalse =>
    split at h
    case isTrue => grind
    case isFalse =>
      simp only [bind_eq_ok, pure_eq_ok, Prod.mk.injEq] at h
      obtain ⟨⟨u, st⟩, hins, rfl, rfl⟩ := h
      obtain ⟨hall', hst⟩ := All.spendInputs hall hins
      exact ⟨hall'.addTxOuts hout, hst⟩

theorem coin_of_loaded (hset : ∀ op c, utxos.get op = some c → P c) (op : OutPoint) (e : UtxoEntry)
    (he : (utxos.get op).map Coin.entry = some e) : P e.coin := by
  obtain ⟨c, hc, rfl⟩ := Option.map_eq_some_iff.mp he
  exact hset op c hc

theorem All.fetchUtxosFromCache (hset : ∀ op c, utxos.get op = some c → P c)
    (h : view.All P) : (view.fetchUtxosFromCache utxos ops).All P :=
  all_iff_holds.mpr ((all_iff_holds.mp h).fetchUtxosFromCache (coin_of_loaded hset))

theorem All.fetchInputUtxos (hset : ∀ op c, utxos.get op = some c → P c)
    (hout : ∀ tx ∈ block.transactions, ∀ op c, outputCoin tx block.height op = some c → P c)
    (h : view.All P) : (view.fetchInputUtxos utxos block).All P := by
  refine all_iff_holds.mpr ((all_iff_holds.mp h).fetchInputUtxos (coin_of_loaded hset) ?_)
  rintro tx htx op c hc e ⟨⟩
  exact hout tx htx op c hc

end UtxoViewpoint

end FalconDraw.Chain
