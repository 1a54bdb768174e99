/-
FalconDraw.Chain.FreezeTheorems — the entrants of a draw are frozen before its
randomness exists.

A stake names its draw as an unsigned 32-bit number that validation reads as a
signed one, and connecting moves it to the next draw when the named one is not
ahead any more.
-/
import FalconDraw.Chain.ConservationTheorems

namespace FalconDraw.Chain

open Lib Wire Draw

variable {env : Env} {utxos : UtxoSet} {idx idx' : StakeIndex} {node : BlockNode} {block : Block}
  {view : UtxoViewpoint} {s s' : ChainState} {D : ℕ}

/-- The two indexes have the same entrants of a draw: its rows and the counts of
all wallets. -/
def SameEntrants (D : ℕ) (idx idx' : StakeIndex) : Prop :=
  idx'.poolStakes D = idx.poolStakes D ∧
    ∀ w, idx'.getWalletStakeCount D w = idx.getWalletStakeCount D w

theorem SameEntrants.refl (D : ℕ) (idx : StakeIndex) : SameEntrants D idx idx := ⟨rfl, fun _ => rfl⟩

theorem SameEntrants.trans {idx₁ idx₂ idx₃ : StakeIndex} (h : SameEntrants D idx₁ idx₂)
    (h' : SameEntrants D idx₂ idx₃) : SameEntrants D idx₁ idx₃ :=
  ⟨h'.1.trans h.1, fun w => (h'.2 w).trans (h.2 w)⟩

/-- A draw a block at this height may still add to. -/
def OpenDraw (height D : ℕ) : Prop := drawInterval ∣ D ∧ height < D

theorem connectTx_sameEntrants (height : ℕ) (hash : Hash) (idx : StakeIndex) {tx : Tx}
    (hne : ∀ s, StakeIndex.stakeOf height tx = some s → s.1 ≠ D) :
    SameEntrants D idx (StakeIndex.connectTx height hash idx tx) := by
  rw [StakeIndex.connectTx_eq]
  cases resultData tx with
  | some d =>
    refine ⟨by simp, fun w => ?_⟩
    rw [StakeIndex.getWalletStakeCount, StakeIndex.applyResult_stakeCounts,
      StakeIndex.getWalletStakeCount]
  | none =>
    cases hs : StakeIndex.stakeOf height tx with
    | none => exact SameEntrants.refl D idx
    | some s =>
      simp only
      split
      · exact SameEntrants.refl D idx
      · have hD : D ≠ s.1 := (hne s hs).symm
        refine ⟨if_neg hD, fun w => ?_⟩
        have hkey : (D, w) ≠ (s.1, s.2.walletHash) := fun h => hD (congrArg Prod.fst h)
        rw [StakeIndex.getWalletStakeCount, StakeIndex.indexStake,
          StakeIndex.incrWalletStakeCount, Bucket.get_put_of_ne _ _ hkey]
        rfl

theorem accepted_stake_open (h : BlockAccepted env utxos idx node block view)
    (hh : node.height < 2 ^ 31) {tx : Tx} (htx : tx ∈ block.transactions) {e : ℕ × PoolStake}
    (hs : StakeIndex.stakeOf node.height tx = some e) : OpenDraw node.height e.1 := by
  obtain ⟨⟨k, hk, hle, _⟩, _⟩ := accepted_stakeOf h hh htx hs
  rw [hk]
  refine ⟨⟨k + 1, rfl⟩, ?_⟩
  unfold drawOf drawInterval
  unfold drawInterval at hle
  omega

theorem connectTxs_sameEntrants (h : BlockAccepted env utxos idx node block view)
    (hh : node.height < 2 ^ 31) (hclosed : ¬ OpenDraw node.height D) (hash : Hash) :
    ∀ (txs : List Tx) (idx' : StakeIndex), (∀ tx ∈ txs, tx ∈ block.transactions) →
      SameEntrants D idx' (txs.foldl (StakeIndex.connectTx node.height hash) idx')
  | [], idx', _ => SameEntrants.refl D idx'
  | tx :: txs, idx', hall => by
      have htx : tx ∈ block.transactions := hall tx List.mem_cons_self
      have hfirst : SameEntrants D idx' (StakeIndex.connectTx node.height hash idx' tx) := by
        refine connectTx_sameEntrants _ _ _ fun e he heq => hclosed ?_
        exact heq ▸ accepted_stake_open h hh htx he
      exact hfirst.trans (connectTxs_sameEntrants h hh hclosed hash txs _
        fun t ht => hall t (List.mem_cons_of_mem _ ht))

theorem extend_sameEntrants (h : s.extend env block = .ok s') (hh : s'.tip.height < 2 ^ 31)
    (hclosed : ¬ OpenDraw s'.tip.height D) : SameEntrants D s.idx s'.idx := by
  obtain ⟨hacc, _, htip, hidx, _⟩ := extend_ok h
  rw [htip] at hh hclosed
  have hall := connectTxs_sameEntrants hacc hh hclosed block.hash block.transactions s.idx
    fun _ htx => htx
  rw [child_height] at hall
  rw [hidx]
  exact hall

theorem run_sameEntrants {blocks : List Block} (hrun : runBlocks env s blocks = .ok s')
    (hh : s'.tip.height < 2 ^ 31) (hD : D ≤ s.tip.height) : SameEntrants D s.idx s'.idx := by
  induction hrun using runBlocks_induct with
  | nil s => exact SameEntrants.refl D s.idx
  | cons s block s₁ blocks s' hstep hrest ih =>
    have hheight := run_height hrest
    have htip : s₁.tip.height = s.tip.height + 1 := by
      rw [(extend_ok hstep).2.2.1, child_height]
    have hclosed : ¬ OpenDraw s₁.tip.height D := by
      rintro ⟨_, habove⟩
      omega
    exact (extend_sameEntrants hstep (by omega) hclosed).trans (ih hh (by omega))

/-- From every state, reached from genesis or not: an accepted block changes the
entrants of no draw but multiples of the interval above it, the entrants of a
draw whose block is connected never change again, and the settling block runs
the draw over the entrants it was validated with. -/
theorem entrants_frozen (env : Env) (s : ChainState) :
    (∀ block s', s.extend env block = .ok s' → s'.tip.height < 2 ^ 31 →
      ∀ D, ¬ SameEntrants D s.idx s'.idx → drawInterval ∣ D ∧ s'.tip.height < D) ∧
    (∀ blocks s', runBlocks env s blocks = .ok s' → s'.tip.height < 2 ^ 31 →
      ∀ D ≤ s.tip.height, SameEntrants D s.idx s'.idx) ∧
    (∀ block s', s.extend env block = .ok s' → s'.tip.height < 2 ^ 31 →
      ∀ before tx after, block.transactions = before ++ tx :: after →
        block.transactions.find? isVDFResultTx = some tx →
        ∃ d, extractVDFResultData tx = .ok d ∧
          (before.foldl (StakeIndex.connectTx s'.tip.height block.hash) s.idx).fetchPoolStakeEntries
            d.drawHeight = s.idx.fetchPoolStakeEntries d.drawHeight) := by
  refine ⟨?_, ?_, ?_⟩
  · intro block s' hstep hh D hchanged
    by_contra hclosed
    exact hchanged (extend_sameEntrants hstep hh hclosed)
  · intro blocks s' hrun hh D hD
    exact run_sameEntrants hrun hh hD
  · intro block s' hstep hh before tx after hsplit hfirst
    obtain ⟨hacc, _, htip, _⟩ := extend_ok hstep
    obtain ⟨d, hd, hproven, _⟩ := first_result_proven hacc.2 hfirst
    have hdata := (resultData_eq_some.mp hd).2
    refine ⟨d, hdata, ?_⟩
    -- the settled draw is behind the block
    have hsame := (drawOf_of_isDrawBlock (extractVDFResultData_drawHeight hdata) hproven.isDraw).1
    have hbelow := hproven.below
    rw [hsame] at hbelow
    have hclosed : ¬ OpenDraw (s.tip.child block).height d.drawHeight := by
      rintro ⟨_, habove⟩
      omega
    rw [htip] at hh ⊢
    have hentrants := connectTxs_sameEntrants hacc hh hclosed block.hash before s.idx
      fun t ht => by
        show t ∈ block.transactions
        rw [hsplit]
        exact List.mem_append_left _ ht
    rw [StakeIndex.fetchPoolStakeEntries, hentrants.1, StakeIndex.fetchPoolStakeEntries]

/-- The block that settles draw 108 adds nobody to it. -/
theorem draw108_entrants_frozen :
    ∃ s s', runBlocks youngMainNet (genesisState (lateInfo 0)) stakedRun = .ok s ∧
      s.extend youngMainNet rolloverBlock = .ok s' ∧ s.idx.poolStakes 108 ≠ [] ∧
      SameEntrants 108 s.idx s'.idx := by
  obtain ⟨s, s', hs, hs', hstaked, _⟩ := stakedRun_accepted
  have hrun : runBlocks youngMainNet s [rolloverBlock] = .ok s' :=
    runBlocks_cons.mpr ⟨s', hs', rfl⟩
  have hlen : stakedRun.length = 108 := by decide +kernel
  have hheight : s.tip.height = 108 := by
    rw [run_height hs, hlen]
    rfl
  have hheight' : s'.tip.height = 109 := by
    rw [run_height hrun, hheight]
    rfl
  refine ⟨s, s', hs, hs', hstaked, ?_⟩
  exact (entrants_frozen youngMainNet s).2.1 _ s' hrun (by rw [hheight']; decide) 108 hheight.ge

end FalconDraw.Chain
