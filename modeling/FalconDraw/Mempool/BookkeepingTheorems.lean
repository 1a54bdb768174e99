/-
FalconDraw.Mempool.BookkeepingTheorems — the maps of the pool agree with the
transactions in it.

`Booked` says that the outpoint map holds exactly the spends of the pool and that
the stake counts count the pool's stakes.
-/
import FalconDraw.Mempool.InputTheorems

namespace FalconDraw.Mempool

open Lib Wire Draw Chain Mining List

variable {chain : ChainState} {cfg : Config}

def stakesIn (drawHeight : Nat) (wallet : WalletHash) (d : TxDesc) : Bool :=
  (stakeData d.tx.msgTx).any fun s => s.drawHeight = drawHeight ∧ s.walletHash = wallet

/-- The maps agree with the pool. -/
structure Booked (mp : TxPool) : Prop where
  outpoints : ∀ op tx, mp.outpoints.get op = some tx ↔ ∃ d ∈ mp.pool, d.tx = tx ∧ op ∈ spends tx
  pending : ∀ drawHeight wallet,
    mp.pendingStakes drawHeight wallet = mp.pool.count (stakesIn drawHeight wallet)

namespace Booked

variable {mp : TxPool}

theorem get_of_mem (h : Booked mp) {d : TxDesc} (hd : d ∈ mp.pool) {op : OutPoint}
    (hop : op ∈ spends d.tx) : mp.outpoints.get op = some d.tx :=
  (h.outpoints op d.tx).mpr ⟨d, hd, rfl, hop⟩

end Booked

theorem Booked.new (now : Int) : Booked (TxPool.new now) where
  outpoints op tx := by
    constructor
    · intro h
      cases h
    · rintro ⟨d, hd, _⟩
      exact absurd hd (Keyed.not_mem_empty d)
  pending _ _ := rfl

/-! ## Stake counts -/

theorem pendingStakes_put (mp : TxPool) (dh : Nat) (counts : Bucket WalletHash Int) (dh' : Nat)
    (wallet : WalletHash) : ({ mp with pendingStakeCounts := mp.pendingStakeCounts.put dh counts } :
      TxPool).pendingStakes dh' wallet =
        if dh' = dh then (counts.get wallet).getD 0 else mp.pendingStakes dh' wallet := by
  simp only [TxPool.pendingStakes, Bucket.get_put]
  split <;> rfl

theorem pendingStakes_countStake (mp : TxPool) (d : TxDesc) (dh : Nat) (wallet : WalletHash) :
    (mp.countStake d.tx.msgTx).pendingStakes dh wallet =
      mp.pendingStakes dh wallet + if stakesIn dh wallet d then 1 else 0 := by
  unfold TxPool.countStake stakesIn
  cases stakeData d.tx.msgTx with
  | none => simp
  | some s =>
    rw [pendingStakes_put]
    by_cases hdh : dh = s.drawHeight
    · subst hdh
      rw [if_pos rfl, TxPool.pendingStakes]
      by_cases hw : wallet = s.walletHash
      · subst hw
        cases mp.pendingStakeCounts.get s.drawHeight <;> simp
      · cases mp.pendingStakeCounts.get s.drawHeight <;>
          simp [Bucket.get_put, hw, Ne.symm hw]
    · simp [hdh, Ne.symm hdh]

/-! ## Dropping and adding -/

theorem get_foldl_put (ops : List OutPoint) (m : Bucket OutPoint Tx) (tx : Tx) (op : OutPoint) :
    (ops.foldl (fun m o => m.put o tx) m).get op = if op ∈ ops then some tx else m.get op := by
  induction ops generalizing m with
  | nil => simp
  | cons o ops ih =>
    rw [foldl_cons, ih, Bucket.get_put]
    by_cases ho : op = o <;> by_cases hops : op ∈ ops <;> simp [ho, hops]

theorem uncountStake_eq (mp : TxPool) (m : MsgTx) : mp.uncountStake m =
    { mp with pendingStakeCounts := (mp.uncountStake m).pendingStakeCounts } := by
  unfold TxPool.uncountStake
  split
  · rfl
  · split <;> rfl

theorem countStake_eq (mp : TxPool) (m : MsgTx) : mp.countStake m =
    { mp with pendingStakeCounts := (mp.countStake m).pendingStakeCounts } := by
  unfold TxPool.countStake
  split <;> rfl

@[simp] theorem uncountStake_pool (mp : TxPool) (m : MsgTx) : (mp.uncountStake m).pool = mp.pool := by
  rw [uncountStake_eq]

@[simp] theorem countStake_pool (mp : TxPool) (m : MsgTx) : (mp.countStake m).pool = mp.pool := by
  rw [countStake_eq]

@[simp] theorem countStake_outpoints (mp : TxPool) (m : MsgTx) :
    (mp.countStake m).outpoints = mp.outpoints := by
  rw [countStake_eq]

theorem dropTransaction_of_none {mp : TxPool} {hash : Hash} (h : mp.pool.find? hash = none) :
    mp.dropTransaction hash = mp := by
  rw [TxPool.dropTransaction, h]

theorem dropTransaction_of_mem {mp : TxPool} {d : TxDesc} (hd : d ∈ mp.pool) :
    mp.dropTransaction d.tx.hash = TxPool.uncountStake { mp with
      outpoints := (spends d.tx).foldl Bucket.delete mp.outpoints
      pool := mp.pool.erase d.tx.hash } d.tx.msgTx := by
  rw [TxPool.dropTransaction, Keyed.find?_eq_some.mpr ⟨hd, rfl⟩]

theorem mem_dropTransaction {mp : TxPool} {hash : Hash} {d : TxDesc} :
    d ∈ (mp.dropTransaction hash).pool ↔ d ∈ mp.pool ∧ d.tx.hash ≠ hash := by
  grind [dropTransaction_of_none, dropTransaction_of_mem, uncountStake_pool]

/-- Both maps of the orphan pool are the same. -/
structure SameOrphans (mp mp' : TxPool) : Prop where
  orphans : mp'.orphans = mp.orphans
  orphansByPrev : mp'.orphansByPrev = mp.orphansByPrev

theorem SameOrphans.trans {mp₁ mp₂ mp₃ : TxPool} (h₁ : SameOrphans mp₁ mp₂)
    (h₂ : SameOrphans mp₂ mp₃) : SameOrphans mp₁ mp₃ :=
  ⟨h₂.orphans.trans h₁.orphans, h₂.orphansByPrev.trans h₁.orphansByPrev⟩

theorem dropTransaction_sameOrphans (mp : TxPool) (hash : Hash) :
    SameOrphans mp (mp.dropTransaction hash) := by
  cases hfind : mp.pool.find? hash with
  | none =>
    rw [dropTransaction_of_none hfind]
    exact ⟨rfl, rfl⟩
  | some gone =>
    obtain ⟨hmem, rfl⟩ := Keyed.find?_eq_some.mp hfind
    rw [dropTransaction_of_mem hmem, uncountStake_eq]
    exact ⟨rfl, rfl⟩

theorem addTransaction_sameOrphans (mp : TxPool) (tx : Tx) (fee : Int64) :
    SameOrphans mp (mp.addTransaction tx fee).1 := by
  rw [TxPool.addTransaction, countStake_eq]
  exact ⟨rfl, rfl⟩

theorem Booked.add {mp : TxPool} (h : Booked mp) {tx : Tx} (fee : Int64)
    (hnew : mp.pool.find? tx.hash = none) (hfree : ∀ op ∈ spends tx, mp.outpoints.get op = none) :
    Booked (mp.addTransaction tx fee).1 := by
  constructor
  · intro op tx'
    simp only [TxPool.addTransaction, countStake_outpoints, countStake_pool, get_foldl_put]
    constructor
    · intro hget
      split at hget
      case isTrue hop =>
        obtain rfl := Option.some.inj hget
        exact ⟨_, Keyed.mem_insert.mpr (Or.inl rfl), rfl, hop⟩
      case isFalse =>
        obtain ⟨d, hd, rfl, hspends⟩ := (h.outpoints op tx').mp hget
        exact ⟨d, Keyed.mem_insert.mpr (Or.inr ⟨hd, Keyed.find?_eq_none.mp hnew d hd⟩), rfl, hspends⟩
    · rintro ⟨d, hd, rfl, hspends⟩
      rcases Keyed.mem_insert.mp hd with rfl | ⟨hd, _⟩
      · exact if_pos hspends
      · have hget := h.get_of_mem hd hspends
        rw [if_neg, hget]
        intro hop
        rw [hfree op hop] at hget
        cases hget
  · intro dh wallet
    have hcount := Keyed.count_insert (v := ⟨tx, fee, fee * 1000 / getTxVirtualSize tx.msgTx⟩) hnew
      (stakesIn dh wallet)
    have hpend := pendingStakes_countStake { mp with
      pool := mp.pool.insert ⟨tx, fee, fee * 1000 / getTxVirtualSize tx.msgTx⟩
      outpoints := (spends tx).foldl (fun m op => m.put op tx) mp.outpoints }
      ⟨tx, fee, fee * 1000 / getTxVirtualSize tx.msgTx⟩ dh wallet
    rw [TxPool.addTransaction, countStake_pool, hcount, hpend]
    push_cast
    exact congrArg (· + _) (h.pending dh wallet)

/-! ## What leaves the pool -/

/-- Some ids were dropped. -/
def Dropped (mp mp' : TxPool) : Prop := ∃ hashes : List Hash, mp' = hashes.foldl TxPool.dropTransaction mp

theorem mem_foldl_drop {hashes : List Hash} {mp : TxPool} {d : TxDesc} :
    d ∈ (hashes.foldl TxPool.dropTransaction mp).pool ↔ d ∈ mp.pool ∧ d.tx.hash ∉ hashes := by
  induction hashes generalizing mp with
  | nil => simp
  | cons hash hashes ih =>
    rw [foldl_cons, ih, mem_dropTransaction, mem_cons, not_or, and_assoc]

namespace Dropped

variable {mp mp' : TxPool}

theorem induct {P : TxPool → Prop} (h : Dropped mp mp') (hmp : P mp)
    (hdrop : ∀ mp hash, P mp → P (mp.dropTransaction hash)) : P mp' := by
  obtain ⟨hashes, rfl⟩ := h
  exact foldlRecOn hashes _ hmp fun mp hmp hash _ => hdrop mp hash hmp

theorem sameOrphans (h : Dropped mp mp') : SameOrphans mp mp' :=
  h.induct (P := SameOrphans mp) ⟨rfl, rfl⟩ fun m hash hm =>
    hm.trans (dropTransaction_sameOrphans m hash)

end Dropped

theorem removeConflicts_eq {mp mp' : TxPool} {conflicts : List Tx}
    (h : removeConflicts mp conflicts = some mp') :
    mp' = (conflicts.map Tx.hash).foldl TxPool.dropTransaction mp := by
  induction conflicts generalizing mp with
  | nil => exact (Option.some.inj h).symm
  | cons c cs ih =>
    rw [removeConflicts, foldlM_cons] at h
    obtain ⟨mp₁, h₁, h⟩ := Option.bind_eq_some_iff.mp h
    obtain ⟨_, _, h₁⟩ := Option.bind_eq_some_iff.mp h₁
    obtain rfl := Option.some.inj h₁
    exact ih h

/-! ## What the orphans do -/

/-- Only orphans left. -/
structure OrphansLeft (mp mp' : TxPool) : Prop where
  pool : mp'.pool = mp.pool
  outpoints : mp'.outpoints = mp.outpoints
  counts : mp'.pendingStakeCounts = mp.pendingStakeCounts
  orphans : ∀ o ∈ mp'.orphans, o ∈ mp.orphans
  size : mp'.orphans.size ≤ mp.orphans.size

namespace OrphansLeft

variable {mp mp' mp₁ mp₂ mp₃ : TxPool}

theorem refl (mp : TxPool) : OrphansLeft mp mp := ⟨rfl, rfl, rfl, fun _ h => h, le_rfl⟩

theorem trans (h₁ : OrphansLeft mp₁ mp₂) (h₂ : OrphansLeft mp₂ mp₃) : OrphansLeft mp₁ mp₃ :=
  ⟨h₂.pool.trans h₁.pool, h₂.outpoints.trans h₁.outpoints, h₂.counts.trans h₁.counts,
    fun o ho => h₁.orphans o (h₂.orphans o ho), le_trans h₂.size h₁.size⟩

theorem erase (mp : TxPool) (hash : Hash) :
    OrphansLeft mp { mp with orphans := mp.orphans.erase hash } :=
  ⟨rfl, rfl, rfl, fun _ ho => (Keyed.mem_erase.mp ho).1, length_filter_le _ _⟩

theorem unlist (mp : TxPool) (byPrev : Bucket OutPoint (Keyed Tx.hash)) :
    OrphansLeft mp { mp with orphansByPrev := byPrev } :=
  ⟨rfl, rfl, rfl, fun _ ho => ho, le_rfl⟩

theorem foldl {α : Type} {f : TxPool → α → TxPool} (hf : ∀ mp a, OrphansLeft mp (f mp a))
    (as : List α) (mp : TxPool) : OrphansLeft mp (as.foldl f mp) :=
  foldlRecOn as _ (refl mp) fun m hm a _ => hm.trans (hf m a)

end OrphansLeft

section

variable (order : MapOrder)

theorem removeOrphanFrom_left (depth : Nat) : ∀ (mp : TxPool) (tx : Tx) (removeRedeemers : Bool),
    OrphansLeft mp (TxPool.removeOrphanFrom order depth mp tx removeRedeemers) := by
  induction depth with
  | zero => intro mp tx removeRedeemers; exact .refl mp
  | succ depth ih =>
    intro mp tx removeRedeemers
    rw [TxPool.removeOrphanFrom]
    split
    · exact .refl mp
    · rename_i otx _
      refine ((OrphansLeft.unlist mp ((spends otx.tx).foldl (TxPool.unlistOrphan tx.hash)
        mp.orphansByPrev)).trans ?_).trans (OrphansLeft.erase _ tx.hash)
      split
      · exact .foldl (fun mp op => .foldl (fun mp o => ih mp o true) _ mp) _ _
      · exact .refl _

theorem removeOrphan_left (mp : TxPool) (tx : Tx) (removeRedeemers : Bool) :
    OrphansLeft mp (TxPool.removeOrphan order mp tx removeRedeemers) :=
  removeOrphanFrom_left order _ mp tx removeRedeemers

theorem removeOrphanDoubleSpends_left (mp : TxPool) (tx : Tx) :
    OrphansLeft mp (TxPool.removeOrphanDoubleSpends order mp tx) :=
  .foldl (fun mp _ => .foldl (fun mp o => removeOrphan_left order mp o true) _ mp) _ mp

theorem limitNumOrphans_left (policy : Policy) (mp : TxPool) (now : Int) (first : Nat) :
    OrphansLeft mp (TxPool.limitNumOrphans order policy mp now first) := by
  have hexpire : OrphansLeft mp (TxPool.expireOrphans order mp now) := by
    unfold TxPool.expireOrphans
    split
    · have hloop : OrphansLeft mp (mp.orphans.entries.foldl (fun mp otx =>
          if otx.expiration < now then TxPool.removeOrphan order mp otx.tx true else mp) mp) := by
        refine .foldl (fun mp otx => ?_) _ mp
        split
        · exact removeOrphan_left order mp otx.tx true
        · exact .refl mp
      exact ⟨hloop.pool, hloop.outpoints, hloop.counts, hloop.orphans, hloop.size⟩
    · exact .refl mp
  unfold TxPool.limitNumOrphans
  dsimp only
  split
  · exact hexpire
  · split
    · exact hexpire.trans (removeOrphan_left order _ _ false)
    · exact hexpire

end

/-! ## What comes in -/

/-- Where a transaction of the pool spends an input, the check finds a replacement, and that
transaction signals. -/
theorem checkPoolDoubleSpend_found {policy : Policy} {mp : TxPool} {ins : List TxIn} {b : Bool}
    (h : mp.checkPoolDoubleSpend policy ins = .ok b) {t : TxIn} (ht : t ∈ ins) {conflict : Tx}
    (hget : mp.outpoints.get t.previousOutPoint = some conflict) :
    b = true ∧ mp.signalsReplacement conflict = some true := by
  induction ins generalizing b with
  | nil => exact absurd ht not_mem_nil
  | cons t' ins ih =>
    rw [TxPool.checkPoolDoubleSpend] at h
    cases hget' : mp.outpoints.get t'.previousOutPoint with
    | none => grind
    | some other =>
      rw [hget'] at h
      simp only [bind_eq_ok, exists_unit, pure_eq_ok, refuseIf_eq_ok] at h
      obtain ⟨signals, hrepl, hsignals, b', hrest, rfl⟩ := h
      rcases mem_cons.mp ht with rfl | ht
      · obtain rfl := Option.some.inj (hget'.symm.trans hget)
        rw [Bool.not_eq_false] at hsignals
        subst hsignals
        unfold TxPool.replaceable at hrepl
        split at hrepl
        · cases hrepl
        · exact ⟨rfl, TxPool.ofWalk_eq_ok.mp hrepl⟩
      · exact ⟨rfl, (ih hrest ht).2⟩

/-- What the conflicts of a replacement satisfy. -/
structure Replacing (cfg : Config) (mp : TxPool) (tx : Tx) (txFee : Int64)
    (conflicts : Keyed Tx.hash) : Prop where
  found : mp.txConflicts tx = some conflicts
  few : conflicts.size ≤ maxReplacementEvictions
  apart : ∃ ancestors, mp.txAncestors tx = some ancestors ∧
    ∀ a ∈ ancestors, conflicts.find? a.hash = none
  fees : ∃ conflictsFee,
    sumConflictFees mp tx (txFee * 1000 / getTxVirtualSize tx.msgTx) 0 conflicts.entries =
      .ok conflictsFee ∧
    conflictsFee + calcMinRequiredTxRelayFee (getTxVirtualSize tx.msgTx) cfg.policy.minRelayTxFee ≤
      txFee

theorem validateReplacement_ok {mp : TxPool} {tx : Tx} {txFee : Int64}
    {conflicts : Keyed Tx.hash} (h : validateReplacement cfg mp tx txFee = .ok conflicts) :
    Replacing cfg mp tx txFee conflicts := by
  simp only [validateReplacement, bind_eq_ok, exists_unit, TxPool.ofWalk_eq_ok, pure_eq_ok,
    refuseIf_eq_ok, not_lt, Int64.not_lt] at h
  obtain ⟨_, hfound, hfew, ancestors, hanc, hapart, conflictsFee, hsum, hfee, _, rfl⟩ := h
  refine ⟨hfound, hfew, ⟨ancestors, hanc, fun a ha => ?_⟩, conflictsFee, hsum, hfee⟩
  rw [any_eq_true] at hapart
  exact Option.not_isSome_iff_eq_none.mp fun hsome => hapart ⟨a, ha, hsome⟩

theorem maybeAcceptTransaction_added {mp mp' : TxPool} {tx : Tx}
    {isNew rateLimit rejectDupOrphans free : Bool} {txD : TxDesc}
    (h : maybeAcceptTransaction cfg chain mp tx isNew rateLimit rejectDupOrphans free =
      .ok (.added mp' txD)) :
    ∃ txFee conflicts view, Admissible cfg chain mp tx isNew rateLimit free txFee conflicts view ∧
      (mp', txD) = ((conflicts.entries.map Tx.hash).foldl TxPool.dropTransaction mp).addTransaction tx
        txFee := by
  simp only [maybeAcceptTransaction, bind_eq_ok] at h
  obtain ⟨r, hcheck, h⟩ := h
  cases r with
  | missing parents => cases h
  | valid txFee conflicts view =>
    refine ⟨txFee, conflicts, view, checkMempoolAcceptance_valid hcheck, ?_⟩
    simp only at h
    split at h
    · cases h
    · rename_i mp₁ hremoved
      obtain rfl := removeConflicts_eq hremoved
      simp only [pure_eq_ok, Accepted.added.injEq] at h
      exact Prod.ext h.1.symm h.2.symm

theorem maybeAcceptTransaction_sameOrphans {mp mp' : TxPool}
    {tx : Tx} {isNew rateLimit rejectDupOrphans free : Bool} {txD : TxDesc}
    (h : maybeAcceptTransaction cfg chain mp tx isNew rateLimit rejectDupOrphans free =
      .ok (.added mp' txD)) : SameOrphans mp mp' := by
  obtain ⟨txFee, conflicts, view, _, heq⟩ := maybeAcceptTransaction_added h
  have hdropped : Dropped mp ((conflicts.entries.map Tx.hash).foldl TxPool.dropTransaction mp) :=
    ⟨_, rfl⟩
  rw [show mp' = _ from congrArg Prod.fst heq]
  exact hdropped.sameOrphans.trans (addTransaction_sameOrphans _ tx txFee)

/-! ## Orphans that are accepted -/

/-- What stays as it is when orphans leave and when a transaction is accepted. -/
structure Kept (accept : TxPool → Tx → Admission Accepted) (order : MapOrder) (P : TxPool → Prop) :
    Prop where
  removed : ∀ mp tx removeRedeemers, P mp → P (TxPool.removeOrphan order mp tx removeRedeemers)
  added : ∀ mp tx mp' txD, P mp → accept mp tx = .ok (.added mp' txD) → P mp'

namespace Kept

variable {accept : TxPool → Tx → Admission Accepted} {order : MapOrder} {P : TxPool → Prop}
  (hk : Kept accept order P)
include hk

theorem acceptOrphan {txs : List Tx} {mp mp' : TxPool} {txD : Option TxDesc} (hmp : P mp)
    (h : acceptOrphan accept order mp txs = some (mp', txD)) : P mp' := by
  induction txs generalizing mp with
  | nil =>
    obtain ⟨rfl, rfl⟩ := Prod.mk.inj (Option.some.inj h)
    exact hmp
  | cons tx txs ih =>
    rw [Mempool.acceptOrphan] at h
    split at h
    · split at h
      · cases h
      · obtain ⟨rfl, rfl⟩ := Prod.mk.inj (Option.some.inj h)
        exact hk.removed mp tx true hmp
    · exact ih hmp h
    · rename_i mp₁ _ hadded
      obtain ⟨rfl, rfl⟩ := Prod.mk.inj (Option.some.inj h)
      exact hk.removed mp₁ tx false (hk.added mp tx mp₁ _ hmp hadded)

theorem processOutputs {ops : List OutPoint} {mp mp' : TxPool} {txDs : List TxDesc} (hmp : P mp)
    (h : processOutputs accept order mp ops = some (mp', txDs)) : P mp' := by
  induction ops generalizing mp txDs with
  | nil =>
    obtain ⟨rfl, rfl⟩ := Prod.mk.inj (Option.some.inj h)
    exact hmp
  | cons op ops ih =>
    rw [Mempool.processOutputs] at h
    obtain ⟨⟨mp₁, txD⟩, h₁, h⟩ := Option.bind_eq_some_iff.mp h
    obtain ⟨⟨mp₂, txDs₂⟩, h₂, h⟩ := Option.bind_eq_some_iff.mp h
    obtain ⟨rfl, rfl⟩ := Prod.mk.inj (Option.some.inj h)
    exact ih (hk.acceptOrphan hmp h₁) h₂

theorem processList {rounds : Nat} {items : List Tx} {mp mp' : TxPool} {txDs : List TxDesc}
    (hmp : P mp) (h : processList accept order rounds mp items = some (mp', txDs)) : P mp' := by
  induction rounds generalizing items mp txDs with
  | zero =>
    cases items with
    | nil =>
      obtain ⟨rfl, rfl⟩ := Prod.mk.inj (Option.some.inj h)
      exact hmp
    | cons item items => cases h
  | succ rounds ih =>
    cases items with
    | nil =>
      obtain ⟨rfl, rfl⟩ := Prod.mk.inj (Option.some.inj h)
      exact hmp
    | cons item items =>
      rw [Mempool.processList] at h
      obtain ⟨⟨mp₁, found⟩, h₁, h⟩ := Option.bind_eq_some_iff.mp h
      obtain ⟨⟨mp₂, txDs₂⟩, h₂, h⟩ := Option.bind_eq_some_iff.mp h
      obtain ⟨rfl, rfl⟩ := Prod.mk.inj (Option.some.inj h)
      exact ih (hk.processOutputs hmp h₁) h₂

theorem removeOrphanDoubleSpends {mp : TxPool} (hmp : P mp) (tx : Tx) :
    P (TxPool.removeOrphanDoubleSpends order mp tx) :=
  foldlRecOn (spends tx) _ hmp fun mp hmp op _ =>
    foldlRecOn (mp.orphansOf order op) _ hmp fun mp hmp orphan _ => hk.removed mp orphan true hmp

end Kept

theorem Kept.processOrphans {order : MapOrder}
    {free : Hash → Bool} {P : TxPool → Prop} (hk : Kept (tryOrphan cfg chain free) order P)
    {mp mp' : TxPool} {tx : Tx} {accepted : List TxDesc} (hmp : P mp)
    (h : processOrphans cfg chain order mp tx free = some (mp', accepted)) : P mp' := by
  rw [Mempool.processOrphans] at h
  obtain ⟨⟨mp₁, found⟩, h₁, h⟩ := Option.bind_eq_some_iff.mp h
  obtain ⟨rfl, rfl⟩ := Prod.mk.inj (Option.some.inj h)
  exact foldlRecOn (tx :: found.map TxDesc.tx) _ (hk.processList hmp h₁) fun mp hmp a _ =>
    hk.removeOrphanDoubleSpends hmp a

end FalconDraw.Mempool
