/-
FalconDraw.Mining.SelectionTheorems — what the selection loop keeps.

A round passes a transaction over or puts it into the block (`Round.step_cases`),
and every invariant is read off from these two.
-/
import FalconDraw.Mining.Selection
import FalconDraw.Chain.SpendTheorems

namespace FalconDraw.Mining

open Lib Wire Draw Chain List

variable {π : Type}

/-! ## What the pool loop collects -/

def waitsFor (g : Generator π) (utxos : UtxoSet) (pool : List TxDesc) (tx : Tx) : List Hash :=
  (scanInputs (fetchUtxoView utxos tx) (haveTransaction g pool) tx.msgTx.txIn).1

/-- An item stands for a transaction of the pool. -/
def FromPool (pool : List TxDesc) (item : PrioItem π) : Prop :=
  ∃ d ∈ pool, d.tx = item.tx ∧ d.fee = item.fee ∧ d.tx.isCoinBase = false

theorem scanInputs_found {view : UtxoViewpoint} {known : Hash → Bool} : ∀ {ts : List TxIn},
    (∀ t ∈ ts, (∃ e, view.lookupEntry t.previousOutPoint = some e ∧ e.isSpent = false) ∨
      known t.previousOutPoint.hash = true) → (scanInputs view known ts).2 = true
  | [], _ => rfl
  | t :: ts, h => by
      have ih := scanInputs_found fun t' ht' => h t' (mem_cons_of_mem t ht')
      rw [scanInputs]
      split
      case isTrue => exact ih
      case isFalse hmissing => grind

theorem mem_scanInputs {view : UtxoViewpoint} {known : Hash → Bool} {t : TxIn} :
    ∀ {ts : List TxIn}, (scanInputs view known ts).2 = true → t ∈ ts →
    (∀ e, view.lookupEntry t.previousOutPoint = some e → e.isSpent = true) →
    t.previousOutPoint.hash ∈ (scanInputs view known ts).1
  | [], _, ht, _ => by simp at ht
  | t' :: ts, hfound, ht, hmissing => by
      rw [scanInputs] at hfound ⊢
      split
      case isTrue hthere =>
        rw [if_pos hthere] at hfound
        rcases mem_cons.mp ht with rfl | ht
        · obtain ⟨e, he, hunspent⟩ := (Option.any_eq_true _ _).mp hthere
          simp [hmissing e he] at hunspent
        · exact mem_scanInputs hfound ht hmissing
      case isFalse hthere =>
        rw [if_neg hthere] at hfound
        split at hfound
        case isTrue hknown =>
          rw [if_pos hknown]
          rcases mem_cons.mp ht with rfl | ht
          · exact mem_cons_self
          · exact mem_cons_of_mem _ (mem_scanInputs hfound ht hmissing)
        case isFalse => simp at hfound

theorem lookupEntry_fetchUtxoView {utxos : UtxoSet} {tx : Tx} {t : TxIn} (hcb : tx.isCoinBase = false)
    (ht : t ∈ tx.msgTx.txIn) : (fetchUtxoView utxos tx).lookupEntry t.previousOutPoint =
      (utxos.get t.previousOutPoint).map Coin.entry := by
  rw [UtxoViewpoint.lookupEntry, fetchUtxoView, UtxoViewpoint.entry_fetchUtxosFromCache, if_pos]
  · rfl
  · simp only [hcb, Bool.false_eq_true, if_false, mem_append]
    exact .inr (mem_map_of_mem ht)

/-- The pool as the miner finds it: one transaction to an id, none of them confirmed,
every input an unspent output of the chain or an output of another transaction of
the pool. -/
structure PoolClosed (utxos : UtxoSet) (pool : List TxDesc) : Prop where
  ids_nodup : (pool.map fun d => d.tx.hash).Nodup
  unconfirmed : ∀ d ∈ pool, ∀ i, utxos.get ⟨d.tx.hash, i⟩ = none
  closed : ∀ d ∈ pool, ∀ t ∈ d.tx.msgTx.txIn, utxos.get t.previousOutPoint ≠ none ∨
    ∃ parent ∈ pool, parent.tx.hash = t.previousOutPoint.hash

section PoolLoop

variable {g : Generator π} {utxos : UtxoSet} {pool : List TxDesc} {d : TxDesc}

theorem PoolClosed.unique (h : PoolClosed utxos pool) {d d' : TxDesc} (hd : d ∈ pool)
    (hd' : d' ∈ pool) (hhash : d.tx.hash = d'.tx.hash) : d = d' :=
  inj_on_of_nodup_map h.ids_nodup hd hd' hhash

theorem PoolClosed.found (h : PoolClosed utxos pool) (hd : d ∈ pool)
    (hcb : d.tx.isCoinBase = false) :
    (scanInputs (fetchUtxoView utxos d.tx) (haveTransaction g pool) d.tx.msgTx.txIn).2 = true := by
  apply scanInputs_found
  intro t ht
  rcases h.closed d hd t ht with hcoin | ⟨parent, hparent, hhash⟩
  · obtain ⟨c, hc⟩ := Option.ne_none_iff_exists'.mp hcoin
    refine .inl ⟨c.entry, ?_, rfl⟩
    rw [lookupEntry_fetchUtxoView hcb ht, hc]
    rfl
  · grind [haveTransaction]

theorem PoolClosed.waits (h : PoolClosed utxos pool) (hd : d ∈ pool)
    (hcb : d.tx.isCoinBase = false) {t : TxIn} (ht : t ∈ d.tx.msgTx.txIn) {parent : TxDesc}
    (hparent : parent ∈ pool) (hhash : parent.tx.hash = t.previousOutPoint.hash) :
    parent.tx.hash ∈ waitsFor g utxos pool d.tx := by
  rw [hhash]
  refine mem_scanInputs (h.found hd hcb) ht fun e he => ?_
  have hop : t.previousOutPoint = ⟨parent.tx.hash, t.previousOutPoint.index⟩ := by rw [hhash]
  rw [lookupEntry_fetchUtxoView hcb ht, hop, h.unconfirmed parent hparent] at he
  cases he

/-- What holds of the items and of what they wait for, while the loop runs. -/
structure Collected (g : Generator π) (utxos : UtxoSet) (pool : List TxDesc) (src : Sources π) :
    Prop where
  ready : ∀ item ∈ src.queue, FromPool pool item ∧ waitsFor g utxos pool item.tx = []
  waiting : ∀ h, ∀ item ∈ (src.dependers.get h).getD [], FromPool pool item ∧
    src.dependsOn.get item.tx.hash = some (waitsFor g utxos pool item.tx).dedup

theorem mem_noted {item x : PrioItem π} {h : Hash} {origins : List Hash}
    {dependers : Bucket Hash (List (PrioItem π))} (hx : x ∈ ((origins.foldl (fun dependers origin =>
      dependers.put origin ((dependers.get origin).getD [] ++ [item])) dependers).get h).getD []) :
    x ∈ (dependers.get h).getD [] ∨ x = item := by
  induction origins generalizing dependers with
  | nil => exact .inl hx
  | cons origin origins ih => grind [Bucket.get_put]

theorem Collected.round (hpool : PoolClosed utxos pool) {src : Sources π} {nextBlockHeight : Nat}
    (h : Collected g utxos pool src) (hd : d ∈ pool) :
    Collected g utxos pool
      (mempoolRound g utxos nextBlockHeight (haveTransaction g pool) src d) := by
  unfold mempoolRound
  split
  case isTrue => exact h
  case isFalse hcb =>
    split
    case isTrue => exact h
    case isFalse =>
      have hcb : d.tx.isCoinBase = false := by simpa using hcb
      simp only [hpool.found hd hcb, if_true]
      set item : PrioItem π := ⟨d.tx, d.fee, g.calcPriority d.tx.msgTx (fetchUtxoView utxos d.tx)
        nextBlockHeight, d.feePerKB⟩ with hitem
      have hfrom : FromPool pool item := ⟨d, hd, rfl, rfl, hcb⟩
      refine ⟨?_, ?_⟩
      · intro x hx
        dsimp only at hx
        split at hx
        case isTrue hempty =>
          rcases mem_append.mp hx with hx | hx
          · exact h.ready x hx
          · obtain rfl := mem_singleton.mp hx
            exact ⟨hfrom, (dedup_eq_nil _).mp (List.isEmpty_iff.mp hempty)⟩
        case isFalse => exact h.ready x hx
      · intro origin x hx
        rcases mem_noted hx with hx | rfl
        · obtain ⟨hx, hdeps⟩ := h.waiting origin x hx
          refine ⟨hx, ?_⟩
          obtain ⟨d', hd', htx, -, -⟩ := hx
          rw [Bucket.get_put]
          split
          case isTrue hhash =>
            -- an item under the same id is the same transaction
            rw [← htx, hpool.unique hd' hd (by rw [htx, hhash])]
            rfl
          case isFalse => exact hdeps
        · exact ⟨hfrom, Bucket.get_put_self _ _ _⟩

theorem collected_mempoolLoop (hpool : PoolClosed utxos pool) (nextBlockHeight : Nat) :
    Collected g utxos pool (mempoolLoop g utxos nextBlockHeight pool) := by
  refine foldlRecOn pool _ ⟨?_, ?_⟩ fun src h d hd => h.round hpool hd
  · simp
  · simp

end PoolLoop

/-! ## One round -/

namespace Round

variable (r : Round π)

section Release

variable (parent : Hash) (items : List (PrioItem π)) (st : Selection π)

theorem foldl_release : ∃ queue dependsOn, items.foldl (release parent) st =
    { st with queue := queue, dependsOn := dependsOn } := by
  induction items generalizing st with
  | nil => exact ⟨st.queue, st.dependsOn, rfl⟩
  | cons item items ih =>
    obtain ⟨queue, dependsOn, h⟩ := ih (release parent st item)
    exact ⟨queue, dependsOn, h⟩

end Release

section AddToBlock

variable (st : Selection π) (item : PrioItem π) (txWeight : UInt32) (sigOpCost : Nat)

theorem addToBlock_eq : ∃ queue dependsOn, r.addToBlock st item txWeight sigOpCost = { st with
      queue := queue
      dependsOn := dependsOn
      blockUtxos := spendTransaction st.blockUtxos item.tx r.nextBlockHeight
      selected := st.selected ++ [item.tx]
      blockWeight := st.blockWeight + txWeight
      blockSigOpCost := st.blockSigOpCost + sigOpCost
      totalFees := st.totalFees + item.fee
      fees := st.fees ++ [item.fee]
      sigOpCosts := st.sigOpCosts ++ [sigOpCost] } :=
  foldl_release _ _ _

@[simp] theorem addToBlock_selected :
    (r.addToBlock st item txWeight sigOpCost).selected = st.selected ++ [item.tx] := by
  obtain ⟨queue, dependsOn, h⟩ := r.addToBlock_eq st item txWeight sigOpCost
  rw [h]

@[simp] theorem addToBlock_blockWeight :
    (r.addToBlock st item txWeight sigOpCost).blockWeight = st.blockWeight + txWeight := by
  obtain ⟨queue, dependsOn, h⟩ := r.addToBlock_eq st item txWeight sigOpCost
  rw [h]

@[simp] theorem addToBlock_witnessIncluded :
    (r.addToBlock st item txWeight sigOpCost).witnessIncluded = st.witnessIncluded := by
  obtain ⟨queue, dependsOn, h⟩ := r.addToBlock_eq st item txWeight sigOpCost
  rw [h]

@[simp] theorem addToBlock_blockSigOpCost :
    (r.addToBlock st item txWeight sigOpCost).blockSigOpCost = st.blockSigOpCost + sigOpCost := by
  obtain ⟨queue, dependsOn, h⟩ := r.addToBlock_eq st item txWeight sigOpCost
  rw [h]

@[simp] theorem addToBlock_sigOpCosts :
    (r.addToBlock st item txWeight sigOpCost).sigOpCosts = st.sigOpCosts ++ [sigOpCost] := by
  obtain ⟨queue, dependsOn, h⟩ := r.addToBlock_eq st item txWeight sigOpCost
  rw [h]

end AddToBlock

/-- The transaction of an item fits into the block as far as it is filled. -/
structure Fits (st : Selection π) (tx : Tx) (sigOpCost : Nat) : Prop where
  witness : r.segwitActive = true ∨ tx.msgTx.hasWitness = false
  weight : (st.blockWeight + UInt32.ofNat (getTransactionWeight tx.msgTx)).toNat <
    r.gen.policy.blockMaxWeight.toNat
  cost : getSigOpCost tx false st.blockUtxos true r.segwitActive = .ok sigOpCost
  sigOps : st.blockSigOpCost + sigOpCost ≤ maxBlockSigOpsCost
  inputs : Accepts (checkTransactionInputs tx r.nextBlockHeight st.blockUtxos r.gen.env.params)
  scripts : r.gen.standardScripts st.blockUtxos tx = true

/-- The item was passed over, or put back. -/
def PassedOver (st : Selection π) (tx : Tx) (st' : Selection π) : Prop :=
  ∃ queue sortedByFee, (∀ x ∈ queue, x ∈ st.queue) ∧
    st' = { r.noteWitness st tx with queue := queue, sortedByFee := sortedByFee }

/-- The item was put into the block. -/
def Taken (st : Selection π) (item : PrioItem π) (st' : Selection π) : Prop :=
  ∃ queue sortedByFee sigOpCost, (∀ x ∈ queue, x ∈ st.queue) ∧
    r.Fits (r.noteWitness st item.tx) item.tx sigOpCost ∧
    st' = r.addToBlock { r.noteWitness st item.tx with queue := queue, sortedByFee := sortedByFee }
      item (UInt32.ofNat (getTransactionWeight item.tx.msgTx)) sigOpCost

theorem tryInclude_cases (st : Selection π) (item : PrioItem π) (txWeight : UInt32)
    (sigOpCost : Nat) : r.tryInclude st item txWeight sigOpCost = st ∨
      Accepts (checkTransactionInputs item.tx r.nextBlockHeight st.blockUtxos r.gen.env.params) ∧
      r.gen.standardScripts st.blockUtxos item.tx = true ∧
      r.tryInclude st item txWeight sigOpCost = r.addToBlock st item txWeight sigOpCost := by
  unfold tryInclude
  split
  case h_1 => exact .inl rfl
  case h_2 fee hfee =>
    split
    case isTrue hscripts => exact .inr ⟨⟨fee, hfee⟩, hscripts, rfl⟩
    case isFalse => exact .inl rfl

variable [LinearOrder π]

theorem weigh_cases (st : Selection π) (item : PrioItem π) (txWeight blockPlusTxWeight : UInt32)
    (sigOpCost : Nat) : ∃ queue sortedByFee, (∀ x ∈ queue, x ∈ st.queue ∨ x = item) ∧
      (r.weigh st item txWeight blockPlusTxWeight sigOpCost =
          { st with queue := queue, sortedByFee := sortedByFee } ∨
        r.weigh st item txWeight blockPlusTxWeight sigOpCost =
          r.tryInclude { st with queue := queue, sortedByFee := sortedByFee } item txWeight
            sigOpCost) := by
  unfold weigh
  dsimp only
  split
  case isTrue => exact ⟨st.queue, st.sortedByFee, fun _ hx => .inl hx, .inl rfl⟩
  case isFalse =>
    split
    case isTrue =>
      split
      case isTrue =>
        refine ⟨st.queue ++ [item], true, fun x hx => ?_, .inl rfl⟩
        exact (mem_append.mp hx).imp_right mem_singleton.mp
      case isFalse => exact ⟨st.queue, true, fun _ hx => .inl hx, .inr rfl⟩
    case isFalse => exact ⟨st.queue, st.sortedByFee, fun _ hx => .inl hx, .inr rfl⟩

omit [LinearOrder π] in
theorem noteWitness_queue (st : Selection π) (tx : Tx) (queue : List (PrioItem π)) :
    r.noteWitness { st with queue := queue } tx = { r.noteWitness st tx with queue := queue } := by
  grind [noteWitness]

omit [LinearOrder π] in
theorem noteWitness_eq (st : Selection π) (tx : Tx) : ∃ w i,
    r.noteWitness st tx = { st with blockWeight := w, witnessIncluded := i } := by
  unfold noteWitness
  split
  · exact ⟨_, _, rfl⟩
  · exact ⟨_, _, rfl⟩

omit [LinearOrder π] in
theorem noteWitness_inactive (st : Selection π) (tx : Tx) (h : r.segwitActive = false) :
    r.noteWitness st tx = st := by
  simp [noteWitness, h]

theorem consider_cases {st : Selection π} {item : PrioItem π} {queue : List (PrioItem π)}
    (hitem : item ∈ st.queue) (hqueue : ∀ x ∈ queue, x ∈ st.queue) :
    r.PassedOver st item.tx (r.consider { st with queue := queue } item) ∨
      r.Taken st item (r.consider { st with queue := queue } item) := by
  unfold consider
  rw [noteWitness_queue]
  split
  case isTrue hskip =>
    have hinactive : r.segwitActive = false := by simp_all
    refine .inl ⟨queue, st.sortedByFee, hqueue, ?_⟩
    rw [noteWitness_inactive r st item.tx hinactive]
  case isFalse hwitness =>
    set st₁ := r.noteWitness st item.tx with hst₁
    have hsub : ∀ queue' : List (PrioItem π), (∀ x ∈ queue', x ∈ queue ∨ x = item) →
        ∀ x ∈ queue', x ∈ st.queue := by
      grind
    have hleft : r.PassedOver st item.tx { st₁ with queue := queue } :=
      ⟨queue, st₁.sortedByFee, hqueue, rfl⟩
    dsimp only
    split
    case isTrue => exact .inl hleft
    case isFalse hweight =>
      split
      case h_1 => exact .inl hleft
      case h_2 sigOpCost hcost =>
        split
        case isTrue => exact .inl hleft
        case isFalse hsigOps =>
          obtain ⟨queue', sortedByFee, hqueue', hresult⟩ := r.weigh_cases
            { st₁ with queue := queue } item (UInt32.ofNat (getTransactionWeight item.tx.msgTx))
            (st₁.blockWeight + UInt32.ofNat (getTransactionWeight item.tx.msgTx)) sigOpCost
          rcases hresult with hresult | hresult
          · rw [hresult]
            exact .inl ⟨queue', sortedByFee, hsub queue' hqueue', rfl⟩
          · rw [hresult]
            rcases r.tryInclude_cases _ item _ sigOpCost with htry | ⟨hinputs, hscripts, htry⟩
            · rw [htry]
              exact .inl ⟨queue', sortedByFee, hsub queue' hqueue', rfl⟩
            · rw [htry]
              refine .inr ⟨queue', sortedByFee, sigOpCost, hsub queue' hqueue',
                ⟨?_, ?_, hcost, Nat.not_lt.mp hsigOps, hinputs, hscripts⟩, rfl⟩
              · simpa [Bool.not_eq_true, or_iff_not_imp_left] using hwitness
              · exact UInt32.lt_iff_toNat_lt.mp (UInt32.not_le.mp fun h => hweight (.inr h))

theorem step_cases {st st' : Selection π} {position : Nat} (h : r.step st position = some st') :
    ∃ item ∈ st.queue, r.PassedOver st item.tx st' ∨ r.Taken st item st' := by
  obtain ⟨item, hitem, rfl⟩ := Option.map_eq_some_iff.mp h
  have hmem := mem_of_getElem? hitem
  exact ⟨item, hmem, r.consider_cases hmem fun x hx => mem_of_mem_eraseIdx hx⟩

end Round

/-! ## What has been picked -/

/-- Transactions of the pool picked one after the other, with the view they leave: each
behind those it waits for, with inputs that are unspent in the view before it. -/
inductive Picked (g : Generator π) (utxos : UtxoSet) (pool : List TxDesc) (r : Round π)
    (start : UtxoViewpoint) : List TxDesc → UtxoViewpoint → Prop
  | none : Picked g utxos pool r start [] start
  | next {descs : List TxDesc} {view : UtxoViewpoint} {d : TxDesc}
      (before : Picked g utxos pool r start descs view) (pooled : d ∈ pool)
      (ordinary : d.tx.isCoinBase = false)
      (waited : ∀ h ∈ waitsFor g utxos pool d.tx, h ∈ descs.map fun d => d.tx.hash)
      (inputs : Accepts (checkTransactionInputs d.tx r.nextBlockHeight view r.gen.env.params))
      (witness : r.segwitActive = true ∨ d.tx.msgTx.hasWitness = false) :
      Picked g utxos pool r start (descs ++ [d]) (spendTransaction view d.tx r.nextBlockHeight)

/-- What a selection keeps: the queue holds items that wait for nothing, the map what the
others wait for, and what is in the block was picked in order. -/
structure Sorted (g : Generator π) (utxos : UtxoSet) (pool : List TxDesc) (r : Round π)
    (start : UtxoViewpoint) (st : Selection π) (descs : List TxDesc) : Prop where
  picked : Picked g utxos pool r start descs st.blockUtxos
  selected : st.selected = descs.map TxDesc.tx
  fees : st.fees = descs.map TxDesc.fee
  totalFees : st.totalFees = sum64 st.fees
  ready : ∀ item ∈ st.queue, FromPool pool item ∧
    ∀ h ∈ waitsFor g utxos pool item.tx, h ∈ descs.map fun d => d.tx.hash
  waiting : ∀ parent, ∀ item ∈ (r.dependers.get parent).getD [], FromPool pool item ∧
    ∀ h ∈ waitsFor g utxos pool item.tx,
      h ∈ (st.dependsOn.get item.tx.hash).getD [] ∨ h ∈ descs.map fun d => d.tx.hash

namespace Sorted

variable {g : Generator π} {utxos : UtxoSet} {pool : List TxDesc} {r : Round π}
  {start : UtxoViewpoint} {st st' : Selection π} {descs : List TxDesc} {item : PrioItem π}

theorem same_tx (hpool : PoolClosed utxos pool) {item item' : PrioItem π}
    (h : FromPool pool item) (h' : FromPool pool item') (hhash : item.tx.hash = item'.tx.hash) :
    item.tx = item'.tx := by
  obtain ⟨d, hd, htx, -, -⟩ := h
  obtain ⟨d', hd', htx', -, -⟩ := h'
  rw [← htx, ← htx', hpool.unique hd hd' (by rw [htx, htx', hhash])]

theorem passedOver (h : Sorted g utxos pool r start st descs) {tx : Tx}
    (hstep : r.PassedOver st tx st') : Sorted g utxos pool r start st' descs := by
  obtain ⟨queue, sortedByFee, hqueue, rfl⟩ := hstep
  obtain ⟨w, i, hnote⟩ := r.noteWitness_eq st tx
  rw [hnote]
  exact ⟨h.picked, h.selected, h.fees, h.totalFees, fun x hx => h.ready x (hqueue x hx), h.waiting⟩

/-- A transaction that waited for one that is in the block is released when it waits for
nothing else. -/
theorem release (hpool : PoolClosed utxos pool) (h : Sorted g utxos pool r start st descs)
    {parent : Hash} (hparent : parent ∈ descs.map fun d => d.tx.hash)
    (hitem : item ∈ (r.dependers.get parent).getD []) :
    Sorted g utxos pool r start (Round.release parent st item) descs := by
  have hrest : ∀ x ∈ waitsFor g utxos pool item.tx,
      x ∈ ((st.dependsOn.get item.tx.hash).getD []).filter (fun h => h ≠ parent) ∨
        x ∈ descs.map fun d => d.tx.hash := by
    intro x hx
    rcases (h.waiting parent item hitem).2 x hx with hx | hx
    · grind
    · exact .inr hx
  refine ⟨h.picked, h.selected, h.fees, h.totalFees, ?_, ?_⟩
  · intro x hx
    dsimp only [Round.release] at hx
    split at hx
    case isTrue hempty =>
      rcases mem_append.mp hx with hx | hx
      · exact h.ready x hx
      · obtain rfl := mem_singleton.mp hx
        refine ⟨(h.waiting parent x hitem).1, fun y hy => ?_⟩
        rcases hrest y hy with hy | hy
        · rw [List.isEmpty_iff.mp hempty] at hy
          cases hy
        · exact hy
    case isFalse => exact h.ready x hx
  · intro origin x hx
    obtain ⟨hfrom, hwaits⟩ := h.waiting origin x hx
    refine ⟨hfrom, fun y hy => ?_⟩
    dsimp only [Round.release]
    rw [Bucket.get_put]
    split
    case isTrue hhash =>
      rw [same_tx hpool hfrom (h.waiting parent item hitem).1 hhash] at hy
      exact hrest y hy
    case isFalse => exact hwaits y hy

theorem taken (hpool : PoolClosed utxos pool) (h : Sorted g utxos pool r start st descs)
    (hitem : item ∈ st.queue) (hstep : r.Taken st item st') :
    ∃ d, Sorted g utxos pool r start st' (descs ++ [d]) := by
  obtain ⟨queue, sortedByFee, sigOpCost, hqueue, hfits, rfl⟩ := hstep
  obtain ⟨⟨d, hd, htx, hfee, hcb⟩, hwaits⟩ := h.ready item hitem
  refine ⟨d, ?_⟩
  have hgrow : ∀ x ∈ descs.map (fun d => d.tx.hash), x ∈ (descs ++ [d]).map fun d => d.tx.hash := by
    grind
  have hself : item.tx.hash ∈ (descs ++ [d]).map fun d => d.tx.hash := by
    rw [← htx]
    exact mem_map_of_mem (mem_append_right _ (mem_singleton_self d))
  obtain ⟨w, i, hnote⟩ := r.noteWitness_eq st item.tx
  unfold Round.addToBlock
  rw [hnote] at hfits ⊢
  refine foldlRecOn (motive := fun st => Sorted g utxos pool r start st (descs ++ [d])) _ _ ?_
    fun st h x hx => h.release hpool hself hx
  refine ⟨?_, ?_, ?_, ?_, ?_, ?_⟩
  · have hpick := Picked.next h.picked hd hcb (htx ▸ hwaits) (htx ▸ hfits.inputs) (htx ▸ hfits.witness)
    rwa [htx] at hpick
  · simp [h.selected, htx]
  · simp [h.fees, hfee]
  · simp [h.totalFees, sum64]
  · exact fun x hx => ⟨(h.ready x (hqueue x hx)).1,
      fun y hy => hgrow y ((h.ready x (hqueue x hx)).2 y hy)⟩
  · exact fun parent x hx => ⟨(h.waiting parent x hx).1,
      fun y hy => ((h.waiting parent x hx).2 y hy).imp_right (hgrow y)⟩

end Sorted

/-! ## Order and double spends -/

/-- A list of transactions in which none refers to itself or to one listed behind it. -/
def ParentsFirst (txs : List Tx) : Prop :=
  txs.Pairwise (fun tx later => ∀ t ∈ tx.msgTx.txIn, t.previousOutPoint.hash ≠ later.hash) ∧
    ∀ tx ∈ txs, ∀ t ∈ tx.msgTx.txIn, t.previousOutPoint.hash ≠ tx.hash

/-- The outpoints a list of transactions refers to, one for each input. -/
def spentOutPoints (txs : List Tx) : List OutPoint :=
  txs.flatMap fun tx => tx.msgTx.txIn.map TxIn.previousOutPoint

/-- The view has no unspent output there. -/
def Gone (view : UtxoViewpoint) (op : OutPoint) : Prop :=
  ∀ e, view.lookupEntry op = some e → e.isSpent = true

section Spend

variable {view : UtxoViewpoint} {op : OutPoint}

theorem Gone.spendInput {t : TxIn} (h : Gone view op ∨ op = t.previousOutPoint) :
    Gone (spendInput view t) op := by
  intro e he
  unfold Mining.spendInput at he
  split at he
  case h_1 entry hentry =>
    rw [UtxoViewpoint.lookupEntry_setEntry] at he
    split at he
    case isTrue => simp [← Option.some.inj he]
    case isFalse hop => exact h.resolve_right hop e he
  case h_2 hentry =>
    rcases h with h | rfl
    · exact h e he
    · rw [hentry] at he
      cases he

theorem Gone.spendInputs {ts : List TxIn} (h : Gone view op ∨ op ∈ ts.map TxIn.previousOutPoint) :
    Gone (ts.foldl Mining.spendInput view) op := by
  induction ts generalizing view with
  | nil => exact h.resolve_right (by simp)
  | cons t ts ih =>
    rw [map_cons, mem_cons, ← or_assoc] at h
    exact ih (h.imp_left Gone.spendInput)

/-- A transaction leaves gone what was gone and what it spends, its own outputs apart. -/
theorem Gone.spendTransaction {tx : Tx} {height : Nat} (hhash : op.hash ≠ tx.hash)
    (h : Gone view op ∨ op ∈ tx.msgTx.txIn.map TxIn.previousOutPoint) :
    Gone (spendTransaction view tx height) op := by
  have hspent := Gone.spendInputs h
  intro e he
  refine hspent e ?_
  rw [← he, Mining.spendTransaction, UtxoViewpoint.lookupEntry, UtxoViewpoint.lookupEntry,
    UtxoViewpoint.entry_addTxOuts]
  simp [outputCoin, hhash]

end Spend

namespace Picked

variable {g : Generator π} {utxos : UtxoSet} {pool : List TxDesc} {r : Round π}
  {start view : UtxoViewpoint} {descs : List TxDesc}

theorem pooled (h : Picked g utxos pool r start descs view) : ∀ d ∈ descs, d ∈ pool ∧
    d.tx.isCoinBase = false ∧ (r.segwitActive = true ∨ d.tx.msgTx.hasWitness = false) := by
  induction h with
  | none => simp
  | next _ hd hcb _ _ hwitness ih => grind

theorem waited (h : Picked g utxos pool r start descs view) : ∀ d ∈ descs,
    ∀ x ∈ waitsFor g utxos pool d.tx, x ∈ descs.map fun d => d.tx.hash := by
  induction h with
  | none => simp
  | next _ _ _ hwaited _ _ ih => grind

theorem not_refers (h : Picked g utxos pool r start descs view) (hpool : PoolClosed utxos pool)
    {d d' : TxDesc} (hd : d ∈ descs) (hd' : d' ∈ pool)
    (hnew : d'.tx.hash ∉ descs.map fun d => d.tx.hash) :
    ∀ t ∈ d.tx.msgTx.txIn, t.previousOutPoint.hash ≠ d'.tx.hash := by
  intro t ht hhash
  obtain ⟨hdpool, hcb, -⟩ := h.pooled d hd
  exact hnew (h.waited d hd _ (hpool.waits hdpool hcb ht hd' hhash.symm))

theorem parentsFirst (h : Picked g utxos pool r start descs view) (hpool : PoolClosed utxos pool)
    (hids : (descs.map fun d => d.tx.hash).Nodup) : ParentsFirst (descs.map TxDesc.tx) := by
  induction h with
  | none => exact ⟨List.Pairwise.nil, by simp⟩
  | @next descs view d hbefore hd hcb hwaited _ _ ih =>
    rw [map_append, nodup_append] at hids
    obtain ⟨hids, -, hnew⟩ := hids
    obtain ⟨hpairs, hself⟩ := ih hids
    have hnew : d.tx.hash ∉ descs.map fun d => d.tx.hash :=
      fun hmem => hnew _ hmem _ (mem_singleton_self _) rfl
    refine ⟨?_, ?_⟩
    · rw [map_append, pairwise_append]
      refine ⟨hpairs, pairwise_singleton _ _, ?_⟩
      intro tx htx later hlater
      obtain ⟨d', hd', rfl⟩ := mem_map.mp htx
      obtain rfl := mem_singleton.mp hlater
      exact hbefore.not_refers hpool hd' hd hnew
    · intro tx htx
      rw [map_append, mem_append] at htx
      rcases htx with htx | htx
      · exact hself tx htx
      · obtain rfl := mem_singleton.mp htx
        exact fun t ht hhash => hnew (hwaited _ (hpool.waits hd hcb ht hd hhash.symm))

/-- When every input is looked at, no outpoint is spent by two picked transactions, and
what they spent is gone from the view. -/
theorem spent_once (h : Picked g utxos pool r start descs view) (hpool : PoolClosed utxos pool)
    (hmoves : ∀ d ∈ pool, (isDrawSettlementTx d.tx || isVDFResultTx d.tx) = false)
    (hids : (descs.map fun d => d.tx.hash).Nodup)
    (hinputs : ∀ d ∈ descs, (d.tx.msgTx.txIn.map TxIn.previousOutPoint).Nodup) :
    (spentOutPoints (descs.map TxDesc.tx)).Nodup ∧
      ∀ op ∈ spentOutPoints (descs.map TxDesc.tx), Gone view op := by
  induction h with
  | none => simp [spentOutPoints]
  | @next descs view d hbefore hd hcb hwaited hcheck hwitness ih =>
    rw [map_append, nodup_append] at hids
    obtain ⟨hids, -, hnew⟩ := hids
    obtain ⟨hnodup, hgone⟩ := ih hids fun d' hd' => hinputs d' (mem_append_left _ hd')
    have hunspent : ∀ t ∈ d.tx.msgTx.txIn, ¬ Gone view t.previousOutPoint := by
      intro t ht hspent
      obtain ⟨fee, hfee⟩ := hcheck
      simp only [checkTransactionInputs, hcb, hmoves d hd, Bool.false_eq_true, if_false,
        bind_eq_ok] at hfee
      obtain ⟨total, hsum, -⟩ := hfee
      obtain ⟨e, he, hnot⟩ := sumInputs_unspent hsum ht
      simp [hspent e he] at hnot
    have hsplit : spentOutPoints ((descs ++ [d]).map TxDesc.tx) =
        spentOutPoints (descs.map TxDesc.tx) ++ d.tx.msgTx.txIn.map TxIn.previousOutPoint := by
      simp [spentOutPoints]
    -- nothing picked so far refers to an output of the new transaction
    have hforeign : ∀ op ∈ spentOutPoints ((descs ++ [d]).map TxDesc.tx), op.hash ≠ d.tx.hash := by
      intro op hop hhash
      have hwaits : d.tx.hash ∈ descs.map fun d => d.tx.hash := by
        rw [hsplit, mem_append] at hop
        rcases hop with hop | hop
        · simp only [spentOutPoints, mem_flatMap, mem_map] at hop
          obtain ⟨_, ⟨d', hd', rfl⟩, t, ht, rfl⟩ := hop
          obtain ⟨hpool', hcb', -⟩ := hbefore.pooled d' hd'
          exact hbefore.waited d' hd' _ (hpool.waits hpool' hcb' ht hd hhash.symm)
        · obtain ⟨t, ht, rfl⟩ := mem_map.mp hop
          exact hwaited _ (hpool.waits hd hcb ht hd hhash.symm)
      exact hnew _ hwaits _ (mem_singleton_self _) rfl
    refine ⟨?_, ?_⟩
    · grind
    · intro op hop
      refine Gone.spendTransaction (hforeign op hop) ?_
      rw [hsplit, mem_append] at hop
      exact hop.imp_left (hgone op)

end Picked

/-! ## The counters -/

def notedWeight (st : Selection π) : Nat := if st.witnessIncluded then 224 else 0

def countedWeight (fixed : Nat) (st : Selection π) : Nat :=
  fixed + notedWeight st + (st.selected.map fun tx => getTransactionWeight tx.msgTx).sum

/-- What the counters keep. The weight counter is a `uint32`; the bound it is checked
against is passed at most by the fixed part and by a commitment noted afterwards. -/
structure Counted (r : Round π) (fixed fixedCost : Nat) (st : Selection π) : Prop where
  weight : st.blockWeight = UInt32.ofNat (countedWeight fixed st)
  bound : countedWeight fixed st < 2 ^ 32 →
    countedWeight fixed st ≤ max fixed (r.gen.policy.blockMaxWeight.toNat - 1) + notedWeight st
  inactive : r.segwitActive = false → st.witnessIncluded = false
  sigOps : st.blockSigOpCost = fixedCost + st.sigOpCosts.sum
  sigOps_le : st.blockSigOpCost ≤ max fixedCost maxBlockSigOpsCost

namespace Counted

variable {r : Round π} {fixed fixedCost : Nat} {st st' : Selection π}

theorem noteWitness (h : Counted r fixed fixedCost st) (hcommit : commitmentWeight r.coinbase = 224)
    (tx : Tx) : Counted r fixed fixedCost (r.noteWitness st tx) := by
  unfold Round.noteWitness
  split
  case isFalse => exact h
  case isTrue hnote =>
    simp only [Bool.and_eq_true, Bool.not_eq_true'] at hnote
    obtain ⟨⟨hactive, hnew⟩, -⟩ := hnote
    have hbefore : notedWeight st = 0 := by simp [notedWeight, hnew]
    have hcounted : countedWeight fixed { st with
        blockWeight := st.blockWeight + UInt32.ofNat (commitmentWeight r.coinbase)
        witnessIncluded := true } = countedWeight fixed st + 224 := by
      grind [countedWeight, notedWeight]
    refine ⟨?_, ?_, ?_, h.sigOps, h.sigOps_le⟩
    · rw [hcounted, hcommit, h.weight, UInt32.ofNat_add]
    · intro hlt
      rw [hcounted] at hlt ⊢
      have := h.bound (by omega)
      simp only [notedWeight, if_true]
      omega
    · intro hinactive
      simp [hactive] at hinactive

theorem passedOver (h : Counted r fixed fixedCost st) (hcommit : commitmentWeight r.coinbase = 224)
    {tx : Tx} (hstep : r.PassedOver st tx st') : Counted r fixed fixedCost st' := by
  obtain ⟨queue, sortedByFee, -, rfl⟩ := hstep
  have h := h.noteWitness hcommit tx
  exact ⟨h.weight, h.bound, h.inactive, h.sigOps, h.sigOps_le⟩

theorem taken (h : Counted r fixed fixedCost st) (hcommit : commitmentWeight r.coinbase = 224)
    {item : PrioItem π} (hstep : r.Taken st item st') : Counted r fixed fixedCost st' := by
  obtain ⟨queue, sortedByFee, sigOpCost, -, hfits, rfl⟩ := hstep
  have h := h.noteWitness hcommit item.tx
  generalize r.noteWitness st item.tx = st at h hfits
  have hweight : st.blockWeight + UInt32.ofNat (getTransactionWeight item.tx.msgTx) =
      UInt32.ofNat (countedWeight fixed st + getTransactionWeight item.tx.msgTx) := by
    rw [h.weight, UInt32.ofNat_add]
  set st' := r.addToBlock { st with queue := queue, sortedByFee := sortedByFee } item
    (UInt32.ofNat (getTransactionWeight item.tx.msgTx)) sigOpCost with hst'
  have hnoted : notedWeight st' = notedWeight st := by simp [notedWeight, hst']
  have hcounted : countedWeight fixed st' =
      countedWeight fixed st + getTransactionWeight item.tx.msgTx := by
    rw [countedWeight, countedWeight, hnoted, hst', Round.addToBlock_selected]
    simp [Nat.add_assoc]
  refine ⟨?_, ?_, ?_, ?_, ?_⟩
  · rw [hcounted, ← hweight, hst', Round.addToBlock_blockWeight]
  · intro hlt
    have hmax := hfits.weight
    rw [hcounted] at hlt
    rw [hweight, UInt32.toNat_ofNat_of_lt' hlt] at hmax
    rw [hcounted]
    omega
  · simpa [hst'] using h.inactive
  · simp [hst', h.sigOps, Nat.add_assoc]
  · simpa [hst'] using Or.inr hfits.sigOps

end Counted

end FalconDraw.Mining
