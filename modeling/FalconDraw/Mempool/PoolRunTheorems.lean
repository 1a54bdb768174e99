/-
FalconDraw.Mempool.PoolRunTheorems — the maps of the pool agree after any calls.

Every call is made of four things: a transaction is dropped, one is accepted, an
orphan is removed, an orphan is added.
-/
import FalconDraw.Lib.Transition
import FalconDraw.Mempool.OrphanTheorems

namespace FalconDraw.Mempool

open Lib Wire Draw Chain Mining List

variable {cfg : Config} {chain : ChainState} {order : MapOrder} {mp mp' : TxPool} {tx : Tx}
  {P : TxPool → Prop}

/-! ## A transaction leaves -/

theorem get_foldl_delete (ops : List OutPoint) (m : Bucket OutPoint Tx) (op : OutPoint) :
    (ops.foldl Bucket.delete m).get op = if op ∈ ops then none else m.get op := by
  induction ops generalizing m with
  | nil => simp
  | cons o ops ih => grind

/-- The count of a stake that was counted goes down by one. -/
theorem pendingStakes_uncountStake (d : TxDesc) (hcounted : ∀ s, stakeData d.tx.msgTx = some s →
      0 < mp.pendingStakes s.drawHeight s.walletHash) (dh : Nat) (wallet : WalletHash) :
    (mp.uncountStake d.tx.msgTx).pendingStakes dh wallet +
      (if stakesIn dh wallet d then 1 else 0) = mp.pendingStakes dh wallet := by
  unfold TxPool.uncountStake stakesIn
  cases hstake : stakeData d.tx.msgTx with
  | none => simp
  | some s =>
    have hpos := hcounted s hstake
    cases hcounts : mp.pendingStakeCounts.get s.drawHeight with
    | none => simp [TxPool.pendingStakes, hcounts] at hpos
    | some counts =>
      have hcur : ∀ w, mp.pendingStakes s.drawHeight w = (counts.get w).getD 0 := by
        simp [TxPool.pendingStakes, hcounts]
      rw [hcur] at hpos
      simp only [hcounts, pendingStakes_put]
      by_cases hdh : dh = s.drawHeight
      · subst hdh
        rw [if_pos rfl, hcur]
        by_cases hw : wallet = s.walletHash
        · -- a count of one is deleted, a larger one is lowered
          subst hw
          split <;> simp
          omega
        · split <;> simp [Bucket.get_delete, Bucket.get_put, hw, Ne.symm hw]
      · simp [hdh, Ne.symm hdh]

theorem Booked.drop (h : Booked mp) (hash : Hash) : Booked (mp.dropTransaction hash) := by
  cases hfind : mp.pool.find? hash with
  | none => rwa [dropTransaction_of_none hfind]
  | some gone =>
    obtain ⟨hmem, rfl⟩ := Keyed.find?_eq_some.mp hfind
    rw [dropTransaction_of_mem hmem]
    constructor
    · intro op tx
      rw [uncountStake_eq, get_foldl_delete]
      constructor
      · intro hget
        split at hget
        case isTrue => cases hget
        case isFalse hop =>
          obtain ⟨d, hd, rfl, hspends⟩ := (h.outpoints op tx).mp hget
          refine ⟨d, Keyed.mem_erase.mpr ⟨hd, fun hkey => hop ?_⟩, rfl, hspends⟩
          exact mp.pool.eq_of_key_eq hd hmem hkey ▸ hspends
      · rintro ⟨d, hd, rfl, hspends⟩
        obtain ⟨hd, hne⟩ := Keyed.mem_erase.mp hd
        rw [if_neg, h.get_of_mem hd hspends]
        -- the outpoint would be spent by both
        intro hop
        have hsame := (h.get_of_mem hd hspends).symm.trans (h.get_of_mem hmem hop)
        exact hne (congrArg Tx.hash (Option.some.inj hsame))
    · intro dh wallet
      have hcount := Keyed.count_erase hmem
      have hpend := @pendingStakes_uncountStake { mp with
        outpoints := (spends gone.tx).foldl Bucket.delete mp.outpoints
        pool := mp.pool.erase gone.tx.hash } gone (fun s hs => ?_) dh wallet
      · have hbefore : mp.pendingStakes dh wallet = _ := h.pending dh wallet
        have hall := hpend.trans hbefore
        rw [← hcount] at hall
        push_cast at hall
        rw [uncountStake_pool]
        exact add_right_cancel hall
      · have hself := hcount (stakesIn s.drawHeight s.walletHash)
        rw [if_pos (by simp [stakesIn, hs])] at hself
        have hbefore : mp.pendingStakes s.drawHeight s.walletHash = _ := h.pending _ _
        change 0 < mp.pendingStakes s.drawHeight s.walletHash
        omega

theorem Booked.dropped (h : Booked mp) (hashes : List Hash) :
    Booked (hashes.foldl TxPool.dropTransaction mp) :=
  foldlRecOn hashes _ h fun _ hmp hash _ => hmp.drop hash

/-! ## One comes in -/

/-- Nothing that stays spends an input of the new transaction. -/
theorem Admissible.inputs_free {isNew rateLimit free : Bool} {txFee : Int64}
    {conflicts : Keyed Tx.hash} {view : UtxoViewpoint}
    (h : Admissible cfg chain mp tx isNew rateLimit free txFee conflicts view) (hb : Booked mp)
    {op : OutPoint} (hop : op ∈ spends tx) :
    ((conflicts.entries.map Tx.hash).foldl TxPool.dropTransaction mp).outpoints.get op = none := by
  by_contra hsome
  obtain ⟨other, hother⟩ := Option.ne_none_iff_exists'.mp hsome
  obtain ⟨d, hd, rfl, hspends⟩ := ((hb.dropped _).outpoints op other).mp hother
  obtain ⟨hd, hstays⟩ := mem_foldl_drop.mp hd
  obtain ⟨isReplacement, hdouble, hconf⟩ := h.replaced
  obtain ⟨t, ht, rfl⟩ := mem_map.mp hop
  obtain ⟨rfl, _⟩ := checkPoolDoubleSpend_found hdouble ht (hb.get_of_mem hd hspends)
  refine hstays ((mem_hash_txConflicts hb (validateReplacement_ok hconf).found hd).mpr ?_)
  exact ⟨d, hd, ⟨_, hop, hspends⟩, .refl⟩

theorem Booked.accepted {isNew rateLimit rejectDupOrphans free : Bool} {txD : TxDesc}
    (hb : Booked mp) (h : maybeAcceptTransaction cfg chain mp tx isNew rateLimit rejectDupOrphans
      free = .ok (.added mp' txD)) : Booked mp' := by
  obtain ⟨txFee, conflicts, view, hadm, heq⟩ := maybeAcceptTransaction_added h
  rw [show mp' = _ from congrArg Prod.fst heq]
  refine (hb.dropped _).add txFee ?_ fun op hop => hadm.inputs_free hb hop
  rw [Keyed.find?_eq_none]
  exact fun d hd => Keyed.find?_eq_none.mp hadm.fresh d (mem_foldl_drop.mp hd).1

theorem Booked.of_left (hb : Booked mp) (h : OrphansLeft mp mp') : Booked mp' where
  outpoints op tx := by rw [h.outpoints, h.pool, hb.outpoints]
  pending dh wallet := by
    rw [h.pool, ← hb.pending, TxPool.pendingStakes, TxPool.pendingStakes, h.counts]

/-! ## Orphans -/

theorem removeOrphan_size {otx : OrphanTx} (h : otx ∈ mp.orphans) :
    (TxPool.removeOrphan order mp otx.tx false).orphans.size < mp.orphans.size := by
  have hsize := Keyed.count_erase h fun _ => true
  simp only [Keyed.count, countP_true, if_true] at hsize
  obtain ⟨depth, hdepth⟩ : ∃ depth, mp.orphans.size = depth + 1 := ⟨_, hsize.symm⟩
  rw [TxPool.removeOrphan, hdepth, TxPool.removeOrphanFrom, Keyed.find?_eq_some.mpr ⟨h, rfl⟩]
  simp only [Bool.false_eq_true, if_false, Keyed.size] at hdepth ⊢
  omega

/-- A transaction that misses parents is not among the orphans yet, where that is asked. -/
theorem not_orphan_of_missing {isNew rateLimit free : Bool} {parents : List Hash}
    (h : maybeAcceptTransaction cfg chain mp tx isNew rateLimit true free =
      .ok (.missing parents)) :
    mp.orphans.find? tx.hash = none := by
  simp only [maybeAcceptTransaction, checkMempoolAcceptance, bind_eq_ok, exists_unit,
    refuseIf_eq_ok] at h
  obtain ⟨_, ⟨_, hdup, _⟩, _⟩ := h
  exact Option.not_isSome_iff_eq_none.mp fun hin => hdup (Or.inr ⟨trivial, hin⟩)

theorem limitNumOrphans_size {policy : Policy} (hmax : policy.maxOrphanTxs ≠ 0)
    (h : mp.orphans.size ≤ policy.maxOrphanTxs) (now : Int) (first : Nat) :
    (TxPool.limitNumOrphans order policy mp now first).orphans.size < policy.maxOrphanTxs := by
  have hexpired : (TxPool.expireOrphans order mp now).orphans.size ≤ policy.maxOrphanTxs := by
    refine le_trans ?_ h
    unfold TxPool.expireOrphans
    split
    · refine (OrphansLeft.foldl (fun mp otx => ?_) mp.orphans.entries mp).size
      split
      · exact removeOrphan_left order mp otx.tx true
      · exact .refl mp
    · exact le_rfl
  unfold TxPool.limitNumOrphans
  dsimp only
  split
  · omega
  · split
    · rename_i otx hget
      exact lt_of_lt_of_le (removeOrphan_size (mem_of_getElem? hget)) hexpired
    · rename_i hget
      have hlen : (TxPool.expireOrphans order mp now).orphans.size ≤ _ :=
        getElem?_eq_none_iff.mp hget
      have := Nat.mod_lt first (show 0 < (TxPool.expireOrphans order mp now).orphans.size by omega)
      omega

/-! ## The four things a call is made of -/

/-- What dropping, accepting and removing or adding an orphan keep. -/
structure Stable (cfg : Config) (order : MapOrder) (P : TxPool → Prop) : Prop where
  dropped : ∀ mp hash, P mp → P (mp.dropTransaction hash)
  accepted : ∀ {chain mp tx isNew rateLimit rejectDupOrphans free mp' txD}, P mp →
    maybeAcceptTransaction cfg chain mp tx isNew rateLimit rejectDupOrphans free =
      .ok (.added mp' txD) → P mp'
  removed : ∀ mp tx removeRedeemers, P mp → P (TxPool.removeOrphan order mp tx removeRedeemers)
  orphaned : ∀ mp tx tag now first, P mp → mp.orphans.find? tx.hash = none →
    P (TxPool.addOrphan order cfg.policy mp tx tag now first)

/-- The maps agree with the pool and with the orphans, which are not too many. -/
structure Consistent (policy : Policy) (mp : TxPool) : Prop where
  booked  : Booked mp
  indexed : Indexed mp
  few     : mp.orphans.size ≤ policy.maxOrphanTxs

theorem consistent_stable : Stable cfg order (Consistent cfg.policy) where
  dropped mp hash h := by
    have hsame := dropTransaction_sameOrphans mp hash
    exact ⟨h.booked.drop hash, h.indexed.of_same hsame, hsame.orphans ▸ h.few⟩
  accepted h hadded := by
    have hsame := maybeAcceptTransaction_sameOrphans hadded
    exact ⟨h.booked.accepted hadded, h.indexed.of_same hsame, hsame.orphans ▸ h.few⟩
  removed mp tx r h := by
    have hleft := removeOrphan_left order mp tx r
    exact ⟨h.booked.of_left hleft, h.indexed.removeOrphan tx r, hleft.size.trans h.few⟩
  orphaned mp tx tag now first h hnew := by
    refine ⟨?_, h.indexed.addOrphan hnew cfg.policy tag now first, ?_⟩ <;> unfold TxPool.addOrphan
    · have hleft := limitNumOrphans_left order cfg.policy mp now first
      have hb := h.booked.of_left hleft
      split
      · exact h.booked
      · exact ⟨hb.outpoints, hb.pending⟩
    · split
      · exact h.few
      · rename_i hmax
        exact (Nat.succ_le_succ (length_filter_le _ _)).trans
          (limitNumOrphans_size hmax h.few now first)

namespace Stable

variable (hs : Stable cfg order P)
include hs

theorem removeFrom {depth : Nat} {removeRedeemers : Bool} (h : P mp)
    (hrun : TxPool.removeFrom depth mp tx removeRedeemers = some mp') : P mp' := by
  induction depth generalizing mp mp' tx removeRedeemers with
  | zero => cases hrun
  | succ depth ih =>
    obtain ⟨mp₁, h₁, rfl⟩ := Option.map_eq_some_iff.mp hrun
    refine hs.dropped _ _ ?_
    split at h₁
    · refine foldlM_invariant (fun mp op mp' hmp hstep => ?_) h h₁
      unfold TxPool.forRedeemer at hstep
      split at hstep
      · exact ih hmp hstep
      · exact Option.some.inj hstep ▸ hmp
    · exact Option.some.inj h₁ ▸ h

theorem removeDoubleSpends (h : P mp) (hrun : mp.removeDoubleSpends tx = some mp') : P mp' := by
  refine foldlM_invariant (fun mp op mp' hmp hstep => ?_) h hrun
  unfold TxPool.forRedeemer at hstep
  split at hstep
  · dsimp only at hstep
    split at hstep
    · exact Option.some.inj hstep ▸ hmp
    · exact hs.removeFrom hmp hstep
  · exact Option.some.inj hstep ▸ hmp

theorem evict {height : Int} (h : P mp) (hrun : mp.evictExpiredPoolStakes height = some mp') :
    P mp' := by
  refine foldlM_invariant (fun mp d mp' hmp hstep => ?_) h hrun
  split at hstep
  · exact hs.removeFrom hmp hstep
  · exact Option.some.inj hstep ▸ hmp

theorem processOrphans {free : Hash → Bool} {accepted : List TxDesc} (h : P mp)
    (hrun : Mempool.processOrphans cfg chain order mp tx free = some (mp', accepted)) : P mp' :=
  Kept.processOrphans ⟨hs.removed,
    fun _ _ _ _ hmp hadded => hs.accepted hmp hadded⟩ h hrun

theorem processTransaction {allowOrphan rateLimit : Bool} {tag : Nat} {now : Int} {first : Nat}
    {free : Hash → Bool} (h : P mp) (hrun : Mempool.processTransaction cfg chain order mp tx
      allowOrphan rateLimit tag now first free = some mp') : P mp' := by
  unfold Mempool.processTransaction at hrun
  split at hrun
  · split at hrun
    · cases hrun
    · exact Option.some.inj hrun ▸ h
  · rename_i hadded
    obtain ⟨⟨_, _⟩, horphans, rfl⟩ := Option.map_eq_some_iff.mp hrun
    exact hs.processOrphans (hs.accepted h hadded) horphans
  · rename_i hmissing
    split at hrun
    · unfold TxPool.maybeAddOrphan at hrun
      split at hrun
      · rename_i hadd
        simp only [bind_eq_ok, exists_unit, pure_eq_ok] at hadd
        obtain ⟨_, rfl⟩ := hadd
        exact Option.some.inj hrun ▸
          hs.orphaned _ _ tag now first h (not_orphan_of_missing hmissing)
      · exact Option.some.inj hrun ▸ h
    · exact Option.some.inj hrun ▸ h

theorem maybeAccept {isNew rateLimit free failed : Bool} (h : P mp)
    (hrun : Mempool.maybeAccept cfg chain mp tx isNew rateLimit free = some (mp', failed)) :
    P mp' := by
  unfold Mempool.maybeAccept at hrun
  split at hrun
  · split at hrun
    · cases hrun
    · exact (Prod.mk.inj (Option.some.inj hrun)).1 ▸ h
  · rename_i hadded
    exact (Prod.mk.inj (Option.some.inj hrun)).1 ▸ hs.accepted h hadded
  · exact (Prod.mk.inj (Option.some.inj hrun)).1 ▸ h

theorem blockConnected {current : Bool} {free : Hash → Bool} {block : Block} (h : P mp)
    (hrun : Mempool.blockConnected cfg chain order current free mp block = some mp') : P mp' := by
  unfold Mempool.blockConnected at hrun
  split at hrun
  · obtain ⟨mp₁, hloop, hevict⟩ := Option.bind_eq_some_iff.mp hrun
    refine hs.evict (foldlM_invariant (fun mp tx mp' hmp hstep => ?_) h hloop) hevict
    simp only [confirmTransaction, Option.bind_eq_bind, Option.bind_eq_some_iff] at hstep
    obtain ⟨mp₁, h₁, mp₂, h₂, ⟨mp₃, _⟩, h₃, hlast⟩ := hstep
    have hmp₂ := hs.removeDoubleSpends (hs.removeFrom hmp h₁) h₂
    exact Option.some.inj hlast ▸ hs.processOrphans (hs.removed _ tx false hmp₂) h₃
  · exact Option.some.inj hrun ▸ h

theorem blockDisconnected {free : Hash → Bool} {block : Block} (h : P mp)
    (hrun : Mempool.blockDisconnected cfg chain free mp block = some mp') : P mp' := by
  refine foldlM_invariant (fun mp tx mp' hmp hstep => ?_) h hrun
  obtain ⟨⟨mp₁, failed⟩, h₁, hstep⟩ := Option.bind_eq_some_iff.mp hstep
  have hmp₁ := hs.maybeAccept hmp h₁
  dsimp only at hstep
  split at hstep
  · exact hs.removeFrom hmp₁ hstep
  · exact Option.some.inj hstep ▸ hmp₁

end Stable

/-! ## Whole runs -/

/-- A call of the pool, with the chain it is made on. -/
inductive PoolCall
  | processTransaction (chain : ChainState) (tx : Tx) (allowOrphan rateLimit : Bool) (tag : Nat)
      (now : Int) (first : Nat) (free : Hash → Bool)
  | maybeAccept (chain : ChainState) (tx : Tx) (isNew rateLimit free : Bool)
  | removeTransaction (tx : Tx) (removeRedeemers : Bool)
  | removeDoubleSpends (tx : Tx)
  | removeOrphan (tx : Tx)
  | removeOrphansByTag (tag : Nat)
  | evictExpiredPoolStakes (height : Int)
  | blockConnected (chain : ChainState) (current : Bool) (free : Hash → Bool) (block : Block)
  | blockDisconnected (chain : ChainState) (free : Hash → Bool) (block : Block)

def PoolCall.run (cfg : Config) (order : MapOrder) (mp : TxPool) : PoolCall → Option TxPool
  | .processTransaction chain tx allowOrphan rateLimit tag now first free =>
      Mempool.processTransaction cfg chain order mp tx allowOrphan rateLimit tag now first free
  | .maybeAccept chain tx isNew rateLimit free =>
      (Mempool.maybeAccept cfg chain mp tx isNew rateLimit free).map Prod.fst
  | .removeTransaction tx removeRedeemers => mp.removeTransaction tx removeRedeemers
  | .removeDoubleSpends tx => mp.removeDoubleSpends tx
  | .removeOrphan tx => some (TxPool.removeOrphan order mp tx false)
  | .removeOrphansByTag tag => some (TxPool.removeOrphansByTag order mp tag)
  | .evictExpiredPoolStakes height => mp.evictExpiredPoolStakes height
  | .blockConnected chain current free block =>
      Mempool.blockConnected cfg chain order current free mp block
  | .blockDisconnected chain free block => Mempool.blockDisconnected cfg chain free mp block

theorem Stable.run (hs : Stable cfg order P) {call : PoolCall} (h : P mp)
    (hrun : call.run cfg order mp = some mp') : P mp' := by
  cases call with
  | processTransaction => exact hs.processTransaction h hrun
  | maybeAccept =>
    obtain ⟨⟨_, _⟩, haccept, rfl⟩ := Option.map_eq_some_iff.mp hrun
    exact hs.maybeAccept h haccept
  | removeTransaction => exact hs.removeFrom h hrun
  | removeDoubleSpends => exact hs.removeDoubleSpends h hrun
  | removeOrphan tx => exact Option.some.inj hrun ▸ hs.removed mp tx false h
  | removeOrphansByTag tag =>
    refine Option.some.inj hrun ▸ foldlRecOn _ _ h fun mp hmp otx _ => ?_
    split
    · exact hs.removed mp otx.tx true hmp
    · exact hmp
  | evictExpiredPoolStakes => exact hs.evict h hrun
  | blockConnected => exact hs.blockConnected h hrun
  | blockDisconnected => exact hs.blockDisconnected h hrun

/-- After any calls on a new pool, whatever the chain does in between, its maps agree
with the transactions and orphans it holds, and the orphans are within their limit. -/
theorem pool_consistent (cfg : Config) (order : MapOrder) (now : Int) {calls : List PoolCall}
    {mp : TxPool} (h : calls.foldlM (PoolCall.run cfg order) (TxPool.new now) = some mp) :
    Consistent cfg.policy mp :=
  foldlM_invariant (fun _ _ _ hmp hrun => consistent_stable.run hmp hrun)
    ⟨Booked.new now, Indexed.new now, Nat.zero_le _⟩ h

/-- The upper transaction of the chained pair comes first and waits for the lower one. -/
def orphanFirst : List PoolCall :=
  [upperTx, lowerTx].map fun tx =>
    .processTransaction twoCoinState tx true false 0 0 0 fun _ => true

theorem orphanFirst_consistent : ∃ mp,
    orphanFirst.foldlM (PoolCall.run openRelay .listed) (TxPool.new 0) = some mp ∧
      mp.pool.size = 2 ∧ mp.orphans.size = 0 ∧ Consistent openRelay.policy mp := by
  obtain ⟨mp, hrun, hpool, horphans⟩ : ∃ mp,
      orphanFirst.foldlM (PoolCall.run openRelay .listed) (TxPool.new 0) = some mp ∧
      mp.pool.size = 2 ∧ mp.orphans.size = 0 := by decide +kernel
  exact ⟨mp, hrun, hpool, horphans, pool_consistent openRelay .listed 0 hrun⟩

end FalconDraw.Mempool
