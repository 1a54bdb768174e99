/-
FalconDraw.Draw.StakeCountTheorems — the wallet counts against the rows they
count.

Rows and counts live in different buckets. Indexing a stake writes one of each, so
they stay equal as long as the row is a new one.
-/
import FalconDraw.Draw.UndoTheorems

namespace FalconDraw.Draw

open Lib Wire List

namespace StakeIndex

variable {idx : StakeIndex}
variable {txHash : Hash}

def walletRows (idx : StakeIndex) (D : Nat) (w : WalletHash) : Nat :=
  (idx.poolStakes D).countP fun r => r.2.walletHash = w

/-- Every count is the number of rows it stands for, and within the limit. -/
structure CountsExact (idx : StakeIndex) : Prop where
  counts : ∀ D w, idx.getWalletStakeCount D w = idx.walletRows D w
  limit : ∀ D w, idx.walletRows D w ≤ maxStakesPerWalletPerDraw

/-- A row with this id is stored under this draw. -/
def HasRow (idx : StakeIndex) (k : Nat × Hash) : Prop := ∃ r ∈ idx.poolStakes k.1, r.1 = k.2

instance (k : Nat × Hash) : Decidable (idx.HasRow k) :=
  inferInstanceAs (Decidable (∃ r ∈ idx.poolStakes k.1, r.1 = k.2))

/-- None of these rows is stored. -/
def NoRows (idx : StakeIndex) (ks : List (Nat × Hash)) : Prop := ∀ k ∈ ks, ¬ idx.HasRow k

instance (ks : List (Nat × Hash)) : Decidable (idx.NoRows ks) :=
  decidableBAll (fun k => ¬ idx.HasRow k) ks

/-- The rows connecting these transactions at this height can write. -/
def stakeKeys (height : Nat) (txs : List Tx) : List (Nat × Hash) :=
  txs.filterMap fun tx => (stakeOf height tx).map fun s => (s.1, tx.hash)

/-- The row disconnecting a transaction removes: the one under the draw height
the stake declares. -/
def declaredKey (tx : Tx) : Option (Nat × Hash) :=
  if isPoolStakingTx tx then
    (findPoolStakingOpReturn tx.msgTx).map fun script => ((poolStakingFields script).drawHeight, tx.hash)
  else none

theorem countsExact_empty : CountsExact empty := ⟨fun _ _ => rfl, fun _ _ => Nat.zero_le _⟩

theorem CountsExact.congr {idx' : StakeIndex} (h : CountsExact idx)
    (hrows : idx'.poolStakes = idx.poolStakes) (hcounts : idx'.stakeCounts = idx.stakeCounts) :
    CountsExact idx' := by
  have hw : ∀ D w, idx'.walletRows D w = idx.walletRows D w := fun D w => by
    rw [walletRows, hrows, walletRows]
  refine ⟨fun D w => ?_, fun D w => (hw D w).trans_le (h.limit D w)⟩
  rw [hw, ← h.counts, getWalletStakeCount, hcounts, getWalletStakeCount]

/-! ## Connecting -/

theorem walletRows_indexStake {s : Nat × PoolStake}
    (hnew : ¬ idx.HasRow (s.1, txHash)) (D : Nat) (w : WalletHash) :
    (idx.indexStake txHash s).walletRows D w =
      idx.walletRows D w + if D = s.1 ∧ w = s.2.walletHash then 1 else 0 := by
  have hrows : (idx.indexStake txHash s).poolStakes D =
      if D = s.1 then Rows.put txHash s.2 (idx.poolStakes D) else idx.poolStakes D := rfl
  rw [walletRows, hrows]
  by_cases hD : D = s.1
  · subst hD
    have hfresh : ∀ r ∈ idx.poolStakes s.1, r.1 ≠ txHash := fun r hr heq => hnew ⟨r, hr, heq⟩
    rw [if_pos rfl, (Rows.put_perm txHash s.2 hfresh).countP_eq, countP_cons, walletRows]
    simp [eq_comm]
  · simp [hD, walletRows]

theorem hasRow_indexStake {s k : Nat × _}
    (h : (idx.indexStake txHash s).HasRow k) : idx.HasRow k ∨ k = (s.1, txHash) := by
  obtain ⟨r, hr, hid⟩ := h
  have hrows : (idx.indexStake txHash s).poolStakes k.1 =
      if k.1 = s.1 then Rows.put txHash s.2 (idx.poolStakes k.1) else idx.poolStakes k.1 := rfl
  rw [hrows] at hr
  split at hr
  case isTrue hD =>
    rcases Rows.mem_put hr with rfl | hr
    · exact Or.inr (Prod.ext hD hid.symm)
    · exact Or.inl ⟨r, hr, hid⟩
  case isFalse => exact Or.inl ⟨r, hr, hid⟩

theorem CountsExact.indexStake (h : CountsExact idx) {s : Nat × PoolStake}
    (hlimit : ¬ idx.OverLimit s) (hnew : ¬ idx.HasRow (s.1, txHash)) :
    CountsExact (idx.indexStake txHash s) := by
  have hroom : idx.walletRows s.1 s.2.walletHash < maxStakesPerWalletPerDraw := by
    rw [← h.counts]
    exact Nat.lt_of_not_le hlimit
  constructor
  · intro D w
    rw [walletRows_indexStake hnew, indexStake_count, h.counts, h.counts]
    split
    case isTrue heq => grind [maxStakesPerWalletPerDraw]
    case isFalse => rfl
  · intro D w
    rw [walletRows_indexStake hnew]
    split
    case isTrue heq =>
      rw [heq.1, heq.2]
      exact hroom
    case isFalse => exact h.limit D w

theorem CountsExact.connectTxs (height : Nat) (hash : Hash) :
    ∀ {txs : List Tx} {idx : StakeIndex}, CountsExact idx → (stakeKeys height txs).Nodup →
      idx.NoRows (stakeKeys height txs) →
      CountsExact (txs.foldl (connectTx height hash) idx) ∧
        ∀ k, (txs.foldl (connectTx height hash) idx).HasRow k →
          idx.HasRow k ∨ k ∈ stakeKeys height txs
  | [], _, h, _, _ => ⟨h, fun _ hk => Or.inl hk⟩
  | tx :: txs, idx, h, hnodup, hnew => by
      rw [foldl_cons]
      -- the index behind the first transaction
      have hfirst : CountsExact (connectTx height hash idx tx) ∧
          ∀ k, (connectTx height hash idx tx).HasRow k →
            idx.HasRow k ∨ k ∈ stakeKeys height [tx] := by
        rw [connectTx_eq]
        cases resultData tx with
        | some d =>
          refine ⟨h.congr (by simp) (by simp), fun k hk => Or.inl ?_⟩
          rwa [HasRow, applyResult_poolStakes] at hk
        | none =>
          cases hs : stakeOf height tx with
          | none => exact ⟨h, fun k hk => Or.inl hk⟩
          | some s =>
            have hmem : (s.1, tx.hash) ∈ stakeKeys height (tx :: txs) := by
              simp [stakeKeys, hs]
            simp only
            split
            · exact ⟨h, fun k hk => Or.inl hk⟩
            case isFalse hlimit =>
              refine ⟨h.indexStake hlimit (hnew _ hmem), fun k hk => ?_⟩
              refine (hasRow_indexStake hk).imp_right fun heq => ?_
              simp [stakeKeys, hs, heq]
      have hsplit : stakeKeys height (tx :: txs) = stakeKeys height [tx] ++ stakeKeys height txs :=
        filterMap_append (l := [tx])
      rw [hsplit] at hnodup hnew ⊢
      obtain ⟨_, hnodup', hdisj⟩ := nodup_append.mp hnodup
      obtain ⟨hexact, hrows⟩ := CountsExact.connectTxs height hash hfirst.1 hnodup'
        fun k hk hrow => by
          rcases hfirst.2 k hrow with hold | hkey
          · exact hnew k (mem_append_right _ hk) hold
          · exact hdisj k hkey k hk rfl
      refine ⟨hexact, fun k hk => ?_⟩
      rcases hrows k hk with hk | hk
      · exact (hfirst.2 k hk).imp_right (mem_append_left _)
      · exact Or.inr (mem_append_right _ hk)

theorem CountsExact.connectBlocks : ∀ {blocks : List Block} {idx : StakeIndex}, CountsExact idx →
    (blocks.flatMap fun block => stakeKeys block.height block.transactions).Nodup →
    idx.NoRows (blocks.flatMap fun block => stakeKeys block.height block.transactions) →
    CountsExact (blocks.foldl connectBlock idx)
  | [], _, h, _, _ => h
  | block :: blocks, idx, h, hnodup, hnew => by
      rw [flatMap_cons] at hnodup hnew
      obtain ⟨hfirst, hrest, hdisj⟩ := nodup_append.mp hnodup
      obtain ⟨hexact, hrows⟩ := h.connectTxs block.height block.hash hfirst
        fun k hk => hnew k (mem_append_left _ hk)
      have hexact' : CountsExact (idx.connectBlock block) := hexact
      refine hexact'.connectBlocks hrest fun k hk hrow => ?_
      rcases hrows k hrow with hold | hkey
      · exact hnew k (mem_append_right _ hk) hold
      · exact hdisj k hkey k hk rfl

/-! ## Disconnecting -/

theorem removePoolStakeEntry_of_not_hasRow {D : Nat}
    (h : ¬ idx.HasRow (D, txHash)) : idx.removePoolStakeEntry D txHash = idx := by
  have hrows : (idx.removePoolStakeEntry D txHash).poolStakes = idx.poolStakes := by
    funext D'
    show (if D' = D then Rows.delete txHash (idx.poolStakes D') else idx.poolStakes D') = _
    split
    case isTrue hD =>
      rw [Rows.delete, filter_eq_self]
      intro r hr
      have hne : r.1 ≠ txHash := fun heq => h ⟨r, hD ▸ hr, heq⟩
      simpa using hne
    case isFalse => rfl
  rw [StakeIndex.ext_iff]
  exact ⟨hrows, rfl, rfl, rfl, rfl⟩

theorem disconnectTx_poolStakes {tx : Tx} (h : ∀ k, declaredKey tx = some k → ¬ idx.HasRow k) :
    (idx.disconnectTx tx).poolStakes = idx.poolStakes := by
  cases hstake : isPoolStakingTx tx with
  | false => grind [disconnectTx_of_stakeFree, undoResult_eq]
  | true =>
    have hboth := hstake
    simp only [isPoolStakingTx, Bool.and_eq_true, beq_iff_eq] at hboth
    obtain ⟨hversion, hfound⟩ := hboth
    obtain ⟨script, hscript⟩ := Option.isSome_iff_exists.mp hfound
    have hrow := h ((poolStakingFields script).drawHeight, tx.hash)
      (by rw [declaredKey, if_pos hstake, hscript]; rfl)
    rw [disconnectTx, if_pos hversion, disconnectStake, hscript]
    simp only
    rw [removePoolStakeEntry_of_not_hasRow hrow]
    rfl

theorem CountsExact.disconnectTxs : ∀ {txs : List Tx} {idx : StakeIndex}, CountsExact idx →
    idx.NoRows (txs.filterMap declaredKey) → CountsExact (txs.foldl disconnectTx idx) ∧
      (txs.foldl disconnectTx idx).poolStakes = idx.poolStakes
  | [], _, h, _ => ⟨h, rfl⟩
  | tx :: txs, idx, h, hkeys => by
      have hrows : (idx.disconnectTx tx).poolStakes = idx.poolStakes :=
        disconnectTx_poolStakes fun k hk => hkeys k (mem_filterMap.mpr ⟨tx, by simp, hk⟩)
      have hstep : CountsExact (idx.disconnectTx tx) :=
        h.congr hrows (disconnectTx_stakeCounts idx tx)
      have hrest : (idx.disconnectTx tx).NoRows (txs.filterMap declaredKey) := by
        intro k hk hrow
        rw [HasRow, hrows] at hrow
        obtain ⟨t, ht, hkey⟩ := mem_filterMap.mp hk
        exact hkeys k (mem_filterMap.mpr ⟨t, mem_cons_of_mem _ ht, hkey⟩) hrow
      obtain ⟨hexact, hsame⟩ := hstep.disconnectTxs hrest
      exact ⟨hexact, hsame.trans hrows⟩

theorem CountsExact.disconnectBlocks : ∀ {blocks : List Block} {idx : StakeIndex}, CountsExact idx →
    (∀ block ∈ blocks, idx.NoRows (block.transactions.filterMap declaredKey)) →
    CountsExact (blocks.foldl disconnectBlock idx) ∧
      (blocks.foldl disconnectBlock idx).poolStakes = idx.poolStakes
  | [], _, h, _ => ⟨h, rfl⟩
  | block :: blocks, idx, h, hkeys => by
      obtain ⟨hexact, hrows⟩ := h.disconnectTxs (hkeys block mem_cons_self)
      have hrows' : (idx.disconnectBlock block).poolStakes = idx.poolStakes := hrows
      have hexact' : CountsExact (idx.disconnectBlock block) := hexact
      have hrest : ∀ b ∈ blocks,
          (idx.disconnectBlock block).NoRows (b.transactions.filterMap declaredKey) := by
        intro b hb k hk hrow
        rw [HasRow, hrows'] at hrow
        exact hkeys b (mem_cons_of_mem _ hb) k hk hrow
      obtain ⟨hall, hsame⟩ := hexact'.disconnectBlocks hrest
      exact ⟨hall, hsame.trans hrows'⟩

end StakeIndex

end FalconDraw.Draw
