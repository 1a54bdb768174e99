/-
FalconDraw.Chain.PoolRun — the books of the staking index along a run.

A node that only connects accepted blocks keeps the index a sound row of pots
(`PoolInv`), as long as every rollover goes to a draw that is not settled yet.
-/
import FalconDraw.Chain.Run
import FalconDraw.Chain.ResultTheorems
import FalconDraw.Draw.LedgerTheorems

namespace FalconDraw.Chain

open Lib Wire Draw List

/-! ## Draws behind and ahead of a block -/

theorem drawOf_of_isDrawBlock {D : ℕ} (hD : D < 2 ^ 32)
    (hdraw : isDrawBlock (toInt32 D) = true) : toInt32 D = D ∧ ∃ k, D = drawOf k := by
  simp only [isDrawBlock, Bool.and_eq_true, decide_eq_true_eq, beq_iff_eq] at hdraw
  obtain ⟨hpos, hmod⟩ := hdraw
  have hsame : toInt32 D = D := by
    unfold toInt32 at hpos ⊢
    rw [Int.bmod_def] at hpos ⊢
    split at hpos <;> split <;> omega
  rw [hsame] at hpos hmod
  refine ⟨hsame, D / drawInterval - 1, ?_⟩
  unfold drawOf drawInterval at *
  omega

theorem toInt32_lt (D : ℕ) : toInt32 D < 2 ^ 31 := by
  unfold toInt32
  have := @Int.bmod_lt (D : ℤ) (2 ^ 32) (by decide)
  omega

theorem toInt32_of_lt {D : ℕ} (h : D < 2 ^ 31) : toInt32 D = D := by
  unfold toInt32
  rw [Int.bmod_def]
  split <;> omega

theorem effectiveDrawHeight_ahead {height declared : ℕ} (hh : height < 2 ^ 31)
    (hd : declared < 2 ^ 32) (hdraw : isDrawBlock (toInt32 declared) = true) :
    ∃ k, StakeIndex.effectiveDrawHeight height declared = drawOf k ∧
      height / drawInterval ≤ k ∧ k < drawBound := by
  obtain ⟨hsame, k, hk⟩ := drawOf_of_isDrawBlock hd hdraw
  have hlt := toInt32_lt declared
  unfold StakeIndex.effectiveDrawHeight
  split
  case isTrue =>
    refine ⟨height / drawInterval, ?_, le_rfl, ?_⟩
    · unfold drawOf drawInterval
      omega
    · unfold drawBound drawInterval
      omega
  case isFalse hahead => grind [drawOf, drawInterval, drawBound]

section Accepted
variable {env : Env} {utxos : UtxoSet} {idx : StakeIndex} {node : BlockNode} {block : Block}
  {view : UtxoViewpoint} {tx : Tx} {D : ℕ} {e : PoolStake}

theorem accepted_declared (h : BlockAccepted env utxos idx node block view)
    (htx : tx ∈ block.transactions) (hs : StakeIndex.stakeOf node.height tx = some (D, e)) :
    ∃ d, D = StakeIndex.effectiveDrawHeight node.height d.drawHeight ∧
      e = ⟨d.walletHash, d.amount⟩ ∧ d.drawHeight < 2 ^ 32 ∧ checkStakeData d = .ok () := by
  have hstake : isPoolStakingTx tx = true := by
    rw [← StakeIndex.stakeOf_isSome node.height tx, hs]
    rfl
  obtain ⟨loaded, s, _, hloop, _⟩ := accepts_checkConnectBlock.mp h.2
  obtain ⟨s₁, s₂, hstep⟩ := connectLoop_mem hloop htx
  obtain ⟨_, _, _, hvalid, _⟩ := connectStep_ok hstep
  obtain ⟨_, d, hdecl, hdata⟩ := validatePoolStakeTx_declares (hvalid hstake)
  obtain ⟨script, hscript, rfl⟩ := Option.map_eq_some_iff.mp hdecl
  rw [StakeIndex.stakeOf, if_pos hstake, hscript, Option.map_some, Option.some.injEq,
    Prod.mk.injEq] at hs
  have hheight : (poolStakingFields script).drawHeight < 2 ^ 32 :=
    (beNat_lt _).trans_le (Nat.pow_le_pow_right (by decide) (slice_length_le script 30 34))
  exact ⟨_, hs.1.symm, hs.2.symm, hheight, hdata⟩

theorem checkStakeData_ok {d : PoolStakingData} (h : checkStakeData d = .ok ()) :
    d.walletHash ≠ jackpotPoolWalletHash ∧ isDrawBlock (toInt32 d.drawHeight) = true ∧
      (100000000 : ℤ) ≤ d.amount.toInt := by
  simp only [checkStakeData, bind_eq_ok, exists_unit, rejectIf_eq_ok, Bool.not_eq_false,
    Int64.not_lt, Int64.le_iff_toInt_le] at h
  obtain ⟨hwallet, hdraw, hmin, _⟩ := h
  have hmin' : (100000000 : ℤ) ≤ d.amount.toInt := hmin
  exact ⟨hwallet, hdraw, hmin'⟩

theorem accepted_stakeOf (h : BlockAccepted env utxos idx node block view)
    (hh : node.height < 2 ^ 31) (htx : tx ∈ block.transactions)
    (hs : StakeIndex.stakeOf node.height tx = some (D, e)) :
    (∃ k, D = drawOf k ∧ node.height / drawInterval ≤ k ∧ k < drawBound) ∧
      0 < e.amount.toInt ∧ e.walletHash ≠ jackpotPoolWalletHash := by
  obtain ⟨d, hD, he, hheight, hdata⟩ := accepted_declared h htx hs
  obtain ⟨hwallet, hdraw, hmin⟩ := checkStakeData_ok hdata
  rw [hD, he]
  exact ⟨effectiveDrawHeight_ahead hh hheight hdraw, lt_of_lt_of_le (by decide) hmin, hwallet⟩

end Accepted

/-! ## Stakes -/

def indexedValue (height : ℕ) (idx : StakeIndex) (tx : Tx) : ℤ :=
  match StakeIndex.stakeOf height tx with
  | some s => if idx.OverLimit s then 0 else s.2.amount.toInt
  | none => 0

/-- The amounts a list of transactions adds to the index, one after another. -/
def indexedBy (height : ℕ) (hash : Hash) : StakeIndex → List Tx → ℤ
  | _, [] => 0
  | idx, tx :: txs =>
      indexedValue height idx tx + indexedBy height hash (idx.connectTx height hash tx) txs

/-- The stakes among the transactions are for draws ahead, and their ids are new. -/
structure StakesReady (height : ℕ) (idx : StakeIndex) (txs : List Tx) : Prop where
  ids : (txs.map Tx.hash).Nodup
  valid : ∀ tx ∈ txs, ∀ D e, StakeIndex.stakeOf height tx = some (D, e) →
    (∃ k, D = drawOf k ∧ height / drawInterval ≤ k ∧ k < drawBound) ∧
      0 < e.amount.toInt ∧ e.walletHash ≠ jackpotPoolWalletHash
  fresh : ∀ tx ∈ txs, ∀ D e, StakeIndex.stakeOf height tx = some (D, e) →
    ∀ r ∈ idx.poolStakes D, r.1 ≠ tx.hash

section Stakes
variable {height front : ℕ} {hash : Hash} {idx idx' idx'' : StakeIndex} {tx : Tx} {txs : List Tx}

theorem mem_connectTx_rows {D : ℕ} {r : Hash × PoolStake}
    (hr : r ∈ (idx.connectTx height hash tx).poolStakes D) :
    (r.1 = tx.hash ∧ StakeIndex.stakeOf height tx = some (D, r.2)) ∨ r ∈ idx.poolStakes D := by
  rw [StakeIndex.connectTx_eq] at hr
  cases hres : resultData tx with
  | some d => simp_all
  | none => cases hs : StakeIndex.stakeOf height tx <;> grind [→ StakeIndex.mem_indexStake]

theorem mem_connectTxs_rows {D : ℕ} {r : Hash × PoolStake}
    (hr : r ∈ (txs.foldl (StakeIndex.connectTx height hash) idx).poolStakes D) :
    (∃ tx ∈ txs, StakeIndex.stakeOf height tx = some (D, r.2)) ∨ r ∈ idx.poolStakes D := by
  induction txs generalizing idx with
  | nil => exact .inr hr
  | cons tx txs ih => grind [→ mem_connectTx_rows]

/-- Every row is of a real wallet and at least one FDRW. -/
def StakesWhole (idx : StakeIndex) : Prop :=
  ∀ D, ∀ r ∈ idx.poolStakes D,
    r.2.walletHash ≠ jackpotPoolWalletHash ∧ (100000000 : ℤ) ≤ r.2.amount.toInt

theorem Reachable.stakesWhole {env : Env} {genesis : HeaderInfo} {s : ChainState}
    (h : Reachable env genesis s) : StakesWhole s.idx := by
  refine Reachable.induct (P := fun s => StakesWhole s.idx) ?_ ?_ h
  · intro D r hr
    cases hr
  · intro s block s' _ ih hstep D r hr
    obtain ⟨haccepted, _, _, hidx, _⟩ := extend_ok hstep
    rw [hidx] at hr
    rcases mem_connectTxs_rows hr with ⟨tx, htx, hs⟩ | hold
    · have hs' : StakeIndex.stakeOf (s.tip.child block).height tx = some (D, r.2) := by
        rw [child_height]
        exact hs
      obtain ⟨d, _, he, _, hdata⟩ := accepted_declared haccepted htx hs'
      rw [he]
      exact ⟨(checkStakeData_ok hdata).1, (checkStakeData_ok hdata).2.2⟩
    · exact ih D r hold

theorem StakesReady.tail (h : StakesReady height idx (tx :: txs)) :
    StakesReady height (idx.connectTx height hash tx) txs := by
  obtain ⟨hids, hvalid, hfresh⟩ := h
  refine ⟨(nodup_cons.mp hids).2, ?_, ?_⟩ <;> grind [→ mem_connectTx_rows]

theorem indexedValue_nonneg (h : StakesReady height idx (tx :: txs)) :
    0 ≤ indexedValue height idx tx := by
  have hvalid := h.valid tx mem_cons_self
  grind [indexedValue]

theorem indexedBy_nonneg : ∀ {txs : List Tx} {idx : StakeIndex}, StakesReady height idx txs →
    0 ≤ indexedBy height hash idx txs
  | [], _, _ => le_rfl
  | _ :: _, _, h => add_nonneg (indexedValue_nonneg h) (indexedBy_nonneg h.tail)

/-- Nothing that lies behind `front` changed. -/
structure SameBehind (front : ℕ) (idx idx' : StakeIndex) : Prop where
  rows : ∀ k < front, idx'.poolStakes (drawOf k) = idx.poolStakes (drawOf k)
  balances : ∀ k < front, idx'.getPoolBalance (drawOf k) = idx.getPoolBalance (drawOf k)
  results : idx'.drawResults = idx.drawResults
  records : idx'.vdfResults = idx.vdfResults

theorem SameBehind.refl (front : ℕ) (idx : StakeIndex) : SameBehind front idx idx :=
  ⟨fun _ _ => rfl, fun _ _ => rfl, rfl, rfl⟩

theorem SameBehind.trans (h : SameBehind front idx idx') (h' : SameBehind front idx' idx'') :
    SameBehind front idx idx'' where
  rows k hk := (h'.rows k hk).trans (h.rows k hk)
  balances k hk := (h'.balances k hk).trans (h.balances k hk)
  results := h'.results.trans h.results
  records := h'.records.trans h.records

theorem SameBehind.worth (h : SameBehind front idx idx') {k : ℕ} (hk : k < front) :
    idx'.ledger.worth k = idx.ledger.worth k := by
  have hd : ∀ i ≤ k, idx'.ledger.deposits i = idx.ledger.deposits i := by
    intro i hi
    rw [StakeIndex.ledger_deposits, StakeIndex.stakedIn, h.rows i (by omega)]
    rfl
  have hcarry : idx'.ledger.carry k = idx.ledger.carry k := by
    refine RollingPots.carry_congr (fun i hi => hd i hi.le) (fun i hi _ => ?_) fun i hi _ _ => ?_
    · rw [StakeIndex.ledger_outcome, StakeIndex.ledger_outcome, h.results]
    · rw [StakeIndex.ledger_held, StakeIndex.ledger_held, h.balances i (by omega)]
  rw [RollingPots.worth, RollingPots.worth, hd k le_rfl, hcarry]

theorem SameBehind.rollsForward (h : SameBehind front idx idx') (hbooks : idx'.Books front)
    {k : ℕ} (hroll : idx.RollsForward k) : idx'.RollsForward k := by
  intro j hj hrow hclear
  by_cases hfront : j < front
  · rw [h.results]
    refine hroll j hj (h.rows j hfront ▸ hrow) fun i hi hki => ?_
    rw [← h.rows i (by omega)]
    exact hclear i hi hki
  · have hopen := hbooks.sound.ahead_open j (by omega)
    rw [StakeIndex.ledger_outcome, Option.map_eq_none_iff] at hopen
    exact hopen

/-- Stakes worth `added` were booked, and nothing else happened. -/
structure StakesBooked (front : ℕ) (idx idx' : StakeIndex) (added : ℤ) : Prop where
  books : idx'.Books front
  staked : idx'.totalStaked = idx.totalStaked + added
  won : idx'.totalWon = idx.totalWon
  behind : SameBehind front idx idx'

theorem StakesBooked.refl (h : idx.Books front) : StakesBooked front idx idx 0 :=
  ⟨h, (add_zero _).symm, rfl, .refl _ _⟩

theorem StakesBooked.trans {a b : ℤ} (h : StakesBooked front idx idx' a)
    (h' : StakesBooked front idx' idx'' b) : StakesBooked front idx idx'' (a + b) where
  books := h'.books
  staked := by rw [h'.staked, h.staked, add_assoc]
  won := h'.won.trans h.won
  behind := h.behind.trans h'.behind

theorem connectTx_booked (hbooks : idx.Books (height / drawInterval))
    (hready : StakesReady height idx (tx :: txs)) (hres : resultData tx = none)
    (hfits : idx.totalStaked + indexedValue height idx tx < 2 ^ 63) :
    StakesBooked (height / drawInterval) idx (idx.connectTx height hash tx)
      (indexedValue height idx tx) := by
  rw [StakeIndex.connectTx_eq, hres]
  unfold indexedValue at *
  cases hs : StakeIndex.stakeOf height tx with
  | none => exact .refl hbooks
  | some s =>
    obtain ⟨D, e⟩ := s
    simp only [hs] at hfits ⊢
    by_cases hover : idx.OverLimit (D, e)
    · rw [if_pos hover, if_pos hover]
      exact .refl hbooks
    · rw [if_neg hover] at hfits
      rw [if_neg hover, if_neg hover]
      obtain ⟨⟨k, rfl, hk, hbound⟩, hpos, hwallet⟩ := hready.valid tx mem_cons_self D e hs
      have hfresh := hready.fresh tx mem_cons_self _ e hs
      obtain ⟨hbooks', htotal, hwon⟩ :=
        StakeIndex.books_indexStake hbooks hk hbound hfresh hpos hwallet hfits
      refine ⟨hbooks', htotal, hwon, ?_, ?_, rfl, rfl⟩
      · intro i hi
        exact if_neg (drawOf_inj.not.mpr (by omega))
      · intro i hi
        exact (StakeIndex.getPoolBalance_addToPoolBalance ..).trans
          (if_neg (drawOf_inj.not.mpr (by omega)))

theorem connectTxs_booked (hbooks : idx.Books (height / drawInterval))
    (hready : StakesReady height idx txs) (hres : ∀ tx ∈ txs, resultData tx = none)
    (hfits : idx.totalStaked + indexedBy height hash idx txs < 2 ^ 63) :
    StakesBooked (height / drawInterval) idx (txs.foldl (StakeIndex.connectTx height hash) idx)
      (indexedBy height hash idx txs) := by
  induction txs generalizing idx with
  | nil => exact .refl hbooks
  | cons tx txs ih =>
    have hrest : 0 ≤ indexedBy height hash (idx.connectTx height hash tx) txs :=
      indexedBy_nonneg hready.tail
    rw [indexedBy] at hfits
    have hone : StakesBooked _ idx (idx.connectTx height hash tx) _ :=
      connectTx_booked hbooks hready (hres tx mem_cons_self) (by omega)
    rw [← add_assoc, ← hone.staked] at hfits
    exact hone.trans (ih hone.books hready.tail
      (fun t ht => hres t (mem_cons_of_mem _ ht)) hfits)

theorem StakesReady.append {rest : List Tx} (h : StakesReady height idx (txs ++ rest)) :
    StakesReady height (txs.foldl (StakeIndex.connectTx height hash) idx) rest := by
  induction txs generalizing idx with
  | nil => exact h
  | cons tx txs ih => exact ih h.tail

theorem StakesReady.left {rest : List Tx} (h : StakesReady height idx (txs ++ rest)) :
    StakesReady height idx txs := by
  obtain ⟨hids, hvalid, hfresh⟩ := h
  constructor <;> grind

theorem indexedBy_append (txs rest : List Tx) : indexedBy height hash idx (txs ++ rest) =
    indexedBy height hash idx txs +
      indexedBy height hash (txs.foldl (StakeIndex.connectTx height hash) idx) rest := by
  induction txs generalizing idx with
  | nil => exact (zero_add _).symm
  | cons tx txs ih =>
    rw [cons_append, indexedBy, indexedBy, foldl_cons, ih, add_assoc]

end Stakes

/-! ## The state of a run -/

/-- What a run keeps: the books, that every stored draw result has a VDF record,
and that every VDF record names a block of the chain. -/
structure PoolInv (s : ChainState) : Prop where
  books : s.idx.Books (s.tip.height / drawInterval)
  recorded : ∀ D, (s.idx.drawResults.get D).isSome = true → (s.idx.vdfResults.get D).isSome = true
  chained : ∀ D r, s.idx.vdfResults.get D = some r → ∃ pre i rest,
    s.tip.chain = pre ++ i :: rest ∧ r.settlementBlockHash = some i.hash ∧
      r.settlementHeight = rest.length

section State
variable {env : Env} {s s' : ChainState} {block : Block}
variable {d : VDFResultData}

theorem connectTx_recorded {height : ℕ} {hash : Hash} {idx : StakeIndex} {tx : Tx}
    (h : ∀ D, (idx.drawResults.get D).isSome = true → (idx.vdfResults.get D).isSome = true)
    (D : ℕ) (hD : ((idx.connectTx height hash tx).drawResults.get D).isSome = true) :
    ((idx.connectTx height hash tx).vdfResults.get D).isSome = true := by
  have hsame := StakeIndex.connectTx_drawResults idx D height hash tx
  rw [StakeIndex.connectTx_vdfResults]
  cases hres : resultData tx <;> grind

theorem connectBlock_recorded {idx : StakeIndex}
    (h : ∀ D, (idx.drawResults.get D).isSome = true → (idx.vdfResults.get D).isSome = true)
    (D : ℕ) (hD : ((idx.connectBlock block).drawResults.get D).isSome = true) :
    ((idx.connectBlock block).vdfResults.get D).isSome = true := by
  unfold StakeIndex.connectBlock at *
  revert hD
  induction block.transactions generalizing idx with
  | nil => exact h D
  | cons tx txs ih => exact ih (connectTx_recorded h)

theorem PoolInv.not_recorded (hinv : PoolInv s) {D : ℕ}
    (h : alreadySettled env s.idx (s.tip.child block) D = none) :
    s.idx.vdfResults.get D = none ∧ s.idx.drawResults.get D = none := by
  have hnone : s.idx.vdfResults.get D = none := by
    by_contra hsome
    obtain ⟨r, hrec⟩ := Option.ne_none_iff_exists'.mp hsome
    obtain ⟨pre, i, rest, hchain, hhash, hheight⟩ := hinv.chained D r hrec
    have hanc : (s.tip.child block).ancestor rest.length = some ⟨i, rest⟩ :=
      ancestor_of_split hchain
    simp [alreadySettled, hrec, hhash, hheight, hanc, BlockNode.hash] at h
  exact ⟨hnone, by simpa [hnone] using hinv.recorded D⟩

theorem PoolInv.initial (genesis : HeaderInfo) : PoolInv (genesisState genesis) where
  books := by
    refine ⟨⟨fun _ _ hr => absurd hr not_mem_nil, fun _ _ hr => absurd hr not_mem_nil⟩,
      RollingPots.Sound.initial _, ?_⟩
    exact (Finset.sum_const_zero).trans_lt (by decide)
  recorded _ h := absurd h Bool.false_ne_true
  chained _ _ h := by cases h

theorem PoolInv.chained_child (hinv : PoolInv s) (D : ℕ) (r : VDFRecord)
    (hr : (s.idx.connectBlock (withHeight s.tip block)).vdfResults.get D = some r) :
    ∃ pre i rest, (s.tip.child block).chain = pre ++ i :: rest ∧
      r.settlementBlockHash = some i.hash ∧ r.settlementHeight = rest.length := by
  rw [StakeIndex.connectBlock_vdfResults_get] at hr
  cases hf : (blockResults (withHeight s.tip block)).reverse.find?
      fun d => d.drawHeight = D with
  | some d =>
    rw [hf, Option.some.injEq] at hr
    subst hr
    exact ⟨[], headerInfo block, s.tip.chain, rfl, rfl, rfl⟩
  | none =>
    rw [hf] at hr
    obtain ⟨pre, i, rest, hchain, hhash, hheight⟩ := hinv.chained D r hr
    exact ⟨headerInfo block :: pre, i, rest, congrArg _ hchain, hhash, hheight⟩

/-! ## One block -/

/-- At most one version 7 transaction. -/
def SingleResult (block : Block) : Prop :=
  (block.transactions.filter isVDFResultTx).length ≤ 1

instance : Decidable (SingleResult block) := inferInstanceAs (Decidable (_ ≤ _))

theorem singleResult_split {vtx : Tx} (h : SingleResult block)
    (hv : block.transactions.find? isVDFResultTx = some vtx) :
    ∃ pre post, block.transactions = pre ++ vtx :: post ∧
      (∀ tx ∈ pre, isVDFResultTx tx = false) ∧ ∀ tx ∈ post, isVDFResultTx tx = false := by
  obtain ⟨hvtx, pre, post, htxs, hpre⟩ := find?_eq_some_iff_append.mp hv
  have hpre' : ∀ tx ∈ pre, isVDFResultTx tx = false := fun tx htx => by simpa using hpre tx htx
  refine ⟨pre, post, htxs, hpre', fun tx htx => ?_⟩
  by_contra hres
  have hlen : 0 < (post.filter isVDFResultTx).length :=
    length_pos_of_mem (mem_filter.mpr ⟨htx, by simpa using hres⟩)
  unfold SingleResult at h
  rw [htxs, filter_append, filter_cons_of_pos hvtx, length_append,
    length_cons] at h
  omega

/-- The step conditions: heights are `int32`, a new stake's id is new to its
draw, and a draw with stakers rolls over only while the next draw with stakers
is not settled. -/
structure Orderly (s : ChainState) (block : Block) : Prop where
  height_lt : s.tip.height + 1 < 2 ^ 31
  ids_new : ∀ tx ∈ block.transactions, ∀ D e,
    StakeIndex.stakeOf (s.tip.height + 1) tx = some (D, e) → ∀ r ∈ s.idx.poolStakes D, r.1 ≠ tx.hash
  rolls_forward : ∀ d ∈ blockResults block, ∀ k, d.drawHeight = drawOf k →
    s.idx.poolStakes (drawOf k) ≠ [] →
    (s.idx.outcome (drawOf k) (StakeIndex.seedOf d)).jackpotWon = false → s.idx.RollsForward k

def indexedIn (s : ChainState) (block : Block) : ℤ :=
  indexedBy (s.tip.height + 1) block.hash s.idx block.transactions

def prizesPaid (s : ChainState) (block : Block) : ℤ :=
  ((block.transactions.filter isDrawSettlementTx).map fun tx =>
    createdValue tx (s.tip.height + 1)).sum

theorem stakesReady_of_accepted (hord : Orderly s block)
    (hacc : BlockAccepted env s.utxos s.idx (s.tip.child block) (withHeight s.tip block)
      (UtxoViewpoint.new s.tip.hash)) :
    StakesReady (s.tip.height + 1) s.idx block.transactions where
  ids := (saneBlock_of_check hacc.1).ids_nodup
  valid tx htx D e hs := by
    have hstake : StakeIndex.stakeOf (s.tip.child block).height tx = some (D, e) := by
      rwa [child_height]
    have hlt : (s.tip.child block).height < 2 ^ 31 := by
      rw [child_height]
      exact hord.height_lt
    have hvalid := accepted_stakeOf hacc hlt htx hstake
    rwa [child_height] at hvalid
  fresh := hord.ids_new

theorem accepted_result (hinv : PoolInv s) (hlt : s.tip.height + 1 < 2 ^ 31)
    (hacc : BlockAccepted env s.utxos s.idx (s.tip.child block) (withHeight s.tip block)
      (UtxoViewpoint.new s.tip.hash)) {vtx : Tx}
    (hv : block.transactions.find? isVDFResultTx = some vtx) :
    ∃ d k, resultData vtx = some d ∧ d.drawHeight = drawOf k ∧
      k < (s.tip.height + 1) / drawInterval ∧ k + 1 < drawBound ∧
      s.idx.vdfResults.get (drawOf k) = none ∧ s.idx.drawResults.get (drawOf k) = none := by
  obtain ⟨d, hd, hproven, hsettled⟩ := first_result_proven hacc.2 hv
  have hdraw32 := extractVDFResultData_drawHeight (resultData_eq_some.mp hd).2
  obtain ⟨hsame, k, hk⟩ := drawOf_of_isDrawBlock hdraw32 hproven.isDraw
  have hbelow := hproven.below
  rw [hsame, child_height] at hbelow
  have hnone := hinv.not_recorded hsettled
  rw [hk] at hnone
  refine ⟨d, k, hd, hk, ?_, ?_, hnone⟩
  · grind [drawOf, drawInterval]
  · grind [drawOf, drawInterval, drawBound]

theorem resultData_of_not_result {tx : Tx} (h : isVDFResultTx tx = false) :
    resultData tx = none := by
  simp [resultData, h]

theorem indexedValue_result {height : ℕ} {idx : StakeIndex} {tx : Tx}
    (h : resultData tx = some d) : indexedValue height idx tx = 0 := by
  have hv := (resultData_eq_some.mp h).1
  have hstake : StakeIndex.stakeOf height tx = none := by
    simp only [isVDFResultTx, beq_iff_eq] at hv
    simp [StakeIndex.stakeOf, isPoolStakingTx, hv, txVersionVDFResult, txVersionPoolStake]
  rw [indexedValue, hstake]

/-- Connecting the one VDF result of a block, between the stakes before it and
the stakes after it. -/
theorem result_books {height k : ℕ} {hash : Hash} {idx : StakeIndex} {pre post : List Tx}
    {vtx : Tx} (hbooks : idx.Books (height / drawInterval))
    (hready : StakesReady height idx (pre ++ vtx :: post)) (hd : resultData vtx = some d)
    (hpre : ∀ tx ∈ pre, isVDFResultTx tx = false) (hpost : ∀ tx ∈ post, isVDFResultTx tx = false)
    (hk : k < height / drawInterval) (hbound : k + 1 < drawBound) (hD : d.drawHeight = drawOf k)
    (hopen : idx.drawResults.get (drawOf k) = none) (hnext : idx.poolStakes (drawOf k) ≠ [] →
      (idx.outcome (drawOf k) (StakeIndex.seedOf d)).jackpotWon = false → idx.RollsForward k)
    (hfits : idx.totalStaked + indexedBy height hash idx (pre ++ vtx :: post) < 2 ^ 63) :
    ((pre ++ vtx :: post).foldl (StakeIndex.connectTx height hash) idx).Books
        (height / drawInterval) ∧
      ((pre ++ vtx :: post).foldl (StakeIndex.connectTx height hash) idx).totalStaked =
        idx.totalStaked + indexedBy height hash idx (pre ++ vtx :: post) ∧
      ((pre ++ vtx :: post).foldl (StakeIndex.connectTx height hash) idx).totalWon =
        idx.totalWon + if (idx.outcome (drawOf k) (StakeIndex.seedOf d)).jackpotWon then
          idx.ledger.worth k else 0 := by
  have hready' : StakesReady height (pre.foldl (StakeIndex.connectTx height hash) idx)
      (vtx :: post) := hready.append
  rw [indexedBy_append, indexedBy, indexedValue_result hd, zero_add] at hfits ⊢
  have hlate : 0 ≤ indexedBy height hash ((pre.foldl (StakeIndex.connectTx height hash)
      idx).connectTx height hash vtx) post := indexedBy_nonneg hready'.tail
  -- the stakes before the result
  have hmid : StakesBooked (height / drawInterval) idx
      (pre.foldl (StakeIndex.connectTx height hash) idx) (indexedBy height hash idx pre) :=
    connectTxs_booked hbooks hready.left
      (fun tx htx => resultData_of_not_result (hpre tx htx)) (by omega)
  rw [foldl_append, foldl_cons]
  generalize pre.foldl (StakeIndex.connectTx height hash) idx = mid at *
  have hrows : mid.poolStakes (drawOf k) = idx.poolStakes (drawOf k) := hmid.behind.rows k hk
  have houtcome : mid.outcome (drawOf k) (StakeIndex.seedOf d) =
      idx.outcome (drawOf k) (StakeIndex.seedOf d) := by
    unfold StakeIndex.outcome StakeIndex.fetchPoolStakeEntries
    rw [hrows]
  -- the result itself
  have happly : mid.connectTx height hash vtx = StakeIndex.applyResult height hash mid d := by
    rw [StakeIndex.connectTx_eq, hd]
  obtain ⟨hbooks', hstaked', hwon'⟩ := StakeIndex.books_applyResult hmid.books hk hbound hD
    (by rw [hmid.behind.results]; exact hopen)
    (fun hstakes hlost => hmid.behind.rollsForward hmid.books
      (hnext (hrows ▸ hstakes) (houtcome ▸ hlost))) height hash
  rw [← happly] at hbooks' hstaked' hwon'
  -- the stakes after it
  have hend : StakesBooked (height / drawInterval) (mid.connectTx height hash vtx)
      (post.foldl (StakeIndex.connectTx height hash) (mid.connectTx height hash vtx))
      (indexedBy height hash (mid.connectTx height hash vtx) post) := by
    refine connectTxs_booked hbooks' hready'.tail
      (fun tx htx => resultData_of_not_result (hpost tx htx)) ?_
    rw [hstaked', hmid.staked]
    omega
  refine ⟨hend.books, ?_, ?_⟩
  · rw [hend.staked, hstaked', hmid.staked, add_assoc]
  · rw [hend.won, hwon', hmid.won, houtcome, hmid.behind.worth hk]

theorem prizesPaid_eq (hinv : PoolInv s)
    (hacc : BlockAccepted env s.utxos s.idx (s.tip.child block) (withHeight s.tip block)
      (UtxoViewpoint.new s.tip.hash)) {vtx : Tx} {k : ℕ}
    (hv : block.transactions.find? isVDFResultTx = some vtx) (hd : resultData vtx = some d)
    (hD : d.drawHeight = drawOf k) (hbound : k < drawBound)
    (hopen : s.idx.drawResults.get (drawOf k) = none) :
    prizesPaid s block = if (s.idx.outcome (drawOf k) (StakeIndex.seedOf d)).jackpotWon then
      s.idx.ledger.worth k else 0 := by
  have hmint := settlements_mint hacc (s.tip.height + 1)
  have hworth := StakeIndex.reconstruct_toInt hinv.books hbound hopen
  have hnonneg := hinv.books.sound.worth_nonneg k
  have hdue : duePrize s.idx (withHeight s.tip block) =
      if (s.idx.outcome (drawOf k) (StakeIndex.seedOf d)).jackpotWon then
        s.idx.ledger.worth k else 0 := by
    have hfind : (withHeight s.tip block).transactions.find? isVDFResultTx = some vtx := hv
    rw [duePrize, settledPool, hfind]
    simp only [(resultData_eq_some.mp hd).2, Option.map_some, Option.getD_some, prize,
      poolDrawData, hD, hworth]
    rfl
  rw [prizesPaid]
  refine hmint.trans ?_
  rw [hdue]
  split
  · exact max_eq_left hnonneg
  · rfl

/-- The step: an accepted block keeps the invariant, its stakes are booked, and
the prize it pays is the prize that is booked. -/
theorem extend_pool (hinv : PoolInv s) (h : s.extend env block = .ok s')
    (hone : SingleResult block) (hord : Orderly s block)
    (hfits : s.idx.totalStaked + indexedIn s block < 2 ^ 63) :
    PoolInv s' ∧ s'.idx.totalStaked = s.idx.totalStaked + indexedIn s block ∧
      s'.idx.totalWon = s.idx.totalWon + prizesPaid s block := by
  obtain ⟨hacc, _, htip, hidx, _⟩ := extend_ok h
  have hready := stakesReady_of_accepted hord hacc
  have hbooks : s.idx.Books ((s.tip.height + 1) / drawInterval) :=
    hinv.books.advance (Nat.div_le_div_right (Nat.le_succ _))
  have hconnect : s'.idx = block.transactions.foldl
      (StakeIndex.connectTx (s.tip.height + 1) block.hash) s.idx := hidx
  suffices hmain : s'.idx.Books ((s.tip.height + 1) / drawInterval) ∧
      s'.idx.totalStaked = s.idx.totalStaked + indexedIn s block ∧
      s'.idx.totalWon = s.idx.totalWon + prizesPaid s block by
    refine ⟨⟨?_, ?_, ?_⟩, hmain.2⟩
    · rw [htip, child_height]
      exact hmain.1
    · rw [hidx]
      exact connectBlock_recorded hinv.recorded
    · rw [hidx, htip]
      exact hinv.chained_child
  cases hv : block.transactions.find? isVDFResultTx with
  | none =>
    have hnone : ∀ tx ∈ block.transactions, isVDFResultTx tx = false := by simpa using hv
    have hbooked := connectTxs_booked hbooks hready
      (fun tx htx => resultData_of_not_result (hnone tx htx)) hfits
    rw [← hconnect] at hbooked
    have hpaid : prizesPaid s block = 0 := by
      refine (settlements_mint hacc (s.tip.height + 1)).trans ?_
      have hfind : (withHeight s.tip block).transactions.find? isVDFResultTx = none := hv
      rw [duePrize, settledPool, hfind]
      rfl
    exact ⟨hbooked.books, hbooked.staked, by rw [hbooked.won, hpaid, add_zero]⟩
  | some vtx =>
    obtain ⟨d, k, hd, hD, hk, hbound, _, hopen⟩ := accepted_result hinv hord.height_lt hacc hv
    obtain ⟨pre, post, htxs, hpre, hpost⟩ := singleResult_split hone hv
    have hmem : d ∈ blockResults block := by
      refine mem_filterMap.mpr ⟨vtx, mem_of_find?_eq_some hv, hd⟩
    rw [prizesPaid_eq hinv hacc hv hd hD (by omega) hopen, hconnect]
    unfold indexedIn at hfits ⊢
    rw [htxs] at hready hfits ⊢
    exact result_books hbooks hready hd hpre hpost hk hbound hD hopen
      (hord.rolls_forward d hmem k hD) hfits

end State

/-! ## Whole runs -/

section Runs
variable {env : Env}
variable {blocks : List Block}

/-- A quantity summed over the blocks of a run. -/
def runTotal (env : Env) (f : ChainState → Block → ℤ) : ChainState → List Block → ℤ
  | _, [] => 0
  | s, block :: blocks => f s block + match s.extend env block with
      | .ok s' => runTotal env f s' blocks
      | .error _ => 0

/-- A run together with two totals, in one pass. -/
def runTally (env : Env) (f g : ChainState → Block → ℤ) :
    ChainState → List Block → Check (ChainState × ℤ × ℤ)
  | s, [] => .ok (s, 0, 0)
  | s, block :: blocks => do
      let s' ← s.extend env block
      let (last, x, y) ← runTally env f g s' blocks
      return (last, f s block + x, g s block + y)

theorem runTally_ok {f g : ChainState → Block → ℤ} :
    ∀ {s last : ChainState} {x y : ℤ}, runTally env f g s blocks = .ok (last, x, y) →
    runBlocks env s blocks = .ok last ∧ runTotal env f s blocks = x ∧
      runTotal env g s blocks = y := by
  induction blocks with
  | nil => grind [runTally, runBlocks, runTotal, foldlM_nil, pure_eq_ok]
  | cons block blocks ih => grind [runTally, bind_eq_ok, pure_eq_ok, runTotal, runBlocks]

/-- A condition met by every step of a run. -/
def RunMeets (env : Env) (P : ChainState → Block → Prop) : ChainState → List Block → Prop
  | _, [] => True
  | s, block :: blocks =>
      P s block ∧ ∀ s', s.extend env block = .ok s' → RunMeets env P s' blocks

theorem runTotal_append {f : ChainState → Block → ℤ} {a b : List Block} {s m : ChainState}
    (hrun : runBlocks env s a = .ok m) :
    runTotal env f s (a ++ b) = runTotal env f s a + runTotal env f m b := by
  induction hrun using runBlocks_induct with
  | nil s => exact (zero_add _).symm
  | cons s block s₁ a m hstep hrest ih => grind [runTotal]

theorem runMeets_append {P : ChainState → Block → Prop} {a b : List Block} :
    ∀ {s : ChainState}, RunMeets env P s (a ++ b) ↔
      RunMeets env P s a ∧ ∀ m, runBlocks env s a = .ok m → RunMeets env P m b := by
  induction a with
  | nil => simp [RunMeets, runBlocks, pure_eq_ok]
  | cons block a ih => grind [RunMeets, runBlocks, bind_eq_ok]

theorem indexedIn_nonneg {s s' : ChainState} {block : Block} (h : s.extend env block = .ok s')
    (hord : Orderly s block) : 0 ≤ indexedIn s block :=
  indexedBy_nonneg (stakesReady_of_accepted hord (extend_ok h).1)

theorem runTotal_indexed_nonneg {s s' : ChainState}
    (hrun : runBlocks env s blocks = .ok s') (hmeets : RunMeets env Orderly s blocks) :
    0 ≤ runTotal env indexedIn s blocks := by
  induction hrun using runBlocks_induct with
  | nil s => exact le_rfl
  | cons s block s₁ blocks s' hstep hrest ih =>
    rw [runTotal, hstep]
    exact add_nonneg (indexedIn_nonneg hstep hmeets.1) (ih (hmeets.2 s₁ hstep))

theorem run_pool {s s' : ChainState} (hinv : PoolInv s)
    (hrun : runBlocks env s blocks = .ok s') (hone : ∀ block ∈ blocks, SingleResult block)
    (hmeets : RunMeets env Orderly s blocks)
    (hfits : s.idx.totalStaked + runTotal env indexedIn s blocks < 2 ^ 63) :
    PoolInv s' ∧ s'.idx.totalStaked = s.idx.totalStaked + runTotal env indexedIn s blocks ∧
      s'.idx.totalWon = s.idx.totalWon + runTotal env prizesPaid s blocks := by
  induction hrun using runBlocks_induct with
  | nil s => exact ⟨hinv, (add_zero _).symm, (add_zero _).symm⟩
  | cons s block s₁ blocks s' hstep hrest ih =>
    have hlater := runTotal_indexed_nonneg hrest (hmeets.2 s₁ hstep)
    rw [runTotal, hstep] at hfits ⊢
    rw [runTotal, hstep]
    obtain ⟨hinv₁, hstaked, hwon⟩ := extend_pool hinv hstep (hone block mem_cons_self)
      hmeets.1 (by simp only at hfits; omega)
    obtain ⟨hinv', hstaked', hwon'⟩ := ih hinv₁
      (fun b hb => hone b (mem_cons_of_mem _ hb)) (hmeets.2 s₁ hstep)
      (by simp only at hfits; omega)
    refine ⟨hinv', ?_, ?_⟩
    · rw [hstaked', hstaked, add_assoc]
    · rw [hwon', hwon, add_assoc]

theorem run_from_genesis {genesis : HeaderInfo} {s : ChainState}
    (hrun : runBlocks env (genesisState genesis) blocks = .ok s)
    (hone : ∀ block ∈ blocks, SingleResult block)
    (hmeets : RunMeets env Orderly (genesisState genesis) blocks)
    (hfits : runTotal env indexedIn (genesisState genesis) blocks < 2 ^ 63) :
    PoolInv s ∧ s.idx.totalStaked = runTotal env indexedIn (genesisState genesis) blocks ∧
      s.idx.totalWon = runTotal env prizesPaid (genesisState genesis) blocks := by
  have hzero : (genesisState genesis).idx.totalStaked = 0 := by
    unfold StakeIndex.totalStaked
    exact Finset.sum_eq_zero fun _ _ => rfl
  have hnone : (genesisState genesis).idx.totalWon = 0 := by
    unfold StakeIndex.totalWon RollingPots.prizes
    exact Finset.sum_eq_zero fun _ _ => rfl
  have hmain := run_pool (PoolInv.initial genesis) hrun hone hmeets (by rwa [hzero, zero_add])
  rwa [hzero, zero_add, hnone, zero_add] at hmain

/-- The draws that the stakes of blocks above height `h` are for. -/
def stakedDraws : ℕ → List Block → List ℕ
  | _, [] => []
  | h, block :: blocks =>
      (block.transactions.filterMap (StakeIndex.stakeOf (h + 1))).map Prod.fst ++
        stakedDraws (h + 1) blocks

theorem rows_of_run {D : ℕ} {s s' : ChainState}
    (hrun : runBlocks env s blocks = .ok s') (hrow : s'.idx.poolStakes D ≠ []) :
    s.idx.poolStakes D ≠ [] ∨ D ∈ stakedDraws s.tip.height blocks := by
  induction hrun using runBlocks_induct with
  | nil s => exact .inl hrow
  | cons s block s₁ blocks s' hstep hrest ih =>
    obtain ⟨_, _, htip, hidx, _⟩ := extend_ok hstep
    rw [stakedDraws, mem_append]
    rcases ih hrow with hrow₁ | hlater
    · obtain ⟨r, hr⟩ := exists_mem_of_ne_nil _ hrow₁
      rw [hidx] at hr
      rcases mem_connectTxs_rows hr with ⟨tx, htx, hs⟩ | hold
      · refine .inr (.inl (mem_map.mpr ⟨(D, r.2), ?_, rfl⟩))
        exact mem_filterMap.mpr ⟨tx, htx, hs⟩
      · exact .inl (ne_nil_of_mem hold)
    · rw [htip, child_height] at hlater
      exact .inr (.inr hlater)

/-! ### Runs that are easily orderly -/

theorem run_height {s s' : ChainState}
    (hrun : runBlocks env s blocks = .ok s') : s'.tip.height = s.tip.height + blocks.length := by
  induction hrun using runBlocks_induct with
  | nil s => rfl
  | cons s block s₁ blocks s' hstep hrest ih =>
    obtain ⟨_, _, htip, _⟩ := extend_ok hstep
    rw [ih, htip, child_height, length_cons]
    omega

/-- Neither a stake nor a VDF result. -/
def Quiet (block : Block) : Prop :=
  ∀ tx ∈ block.transactions, isPoolStakingTx tx = false ∧ isVDFResultTx tx = false

instance (block : Block) : Decidable (Quiet block) := inferInstanceAs (Decidable (∀ _ ∈ _, _))

theorem runMeets_quiet (hquiet : ∀ block ∈ blocks, Quiet block) :
    ∀ {s : ChainState}, s.tip.height + blocks.length < 2 ^ 31 → RunMeets env Orderly s blocks := by
  induction blocks with
  | nil =>
    intro s _
    trivial
  | cons block blocks ih =>
    intro s hlt
    rw [length_cons] at hlt
    have hq := hquiet block mem_cons_self
    refine ⟨⟨by omega, ?_, ?_⟩, ?_⟩
    · intro tx htx D e hs
      have := StakeIndex.stakeOf_isSome (s.tip.height + 1) tx
      simp [hs, (hq tx htx).1] at this
    · intro d hd
      obtain ⟨tx, htx, hres⟩ := mem_filterMap.mp hd
      simp [resultData_of_not_result (hq tx htx).2] at hres
    · intro s' hstep
      obtain ⟨_, _, htip, _⟩ := extend_ok hstep
      refine ih (fun b hb => hquiet b (mem_cons_of_mem _ hb)) ?_
      rw [htip, child_height]
      omega

/-- After a run from genesis a block is orderly if its stakes are the first of
their draws and nobody staked in a draw after the ones it settles. -/
theorem orderly_of_first {genesis : HeaderInfo} {s : ChainState}
    {block : Block} (hrun : runBlocks env (genesisState genesis) blocks = .ok s)
    (hlt : blocks.length + 1 < 2 ^ 31)
    (hstakes : ∀ D ∈ stakedDraws blocks.length [block], D ∉ stakedDraws 0 blocks)
    (hresults : ∀ d ∈ blockResults block, ∀ D ∈ stakedDraws 0 blocks, D ≤ d.drawHeight) :
    Orderly s block := by
  have hheight : s.tip.height = blocks.length :=
    (run_height hrun).trans (Nat.zero_add _)
  have hrows : ∀ D, s.idx.poolStakes D ≠ [] → D ∈ stakedDraws 0 blocks :=
    fun D hrow => (rows_of_run hrun hrow).resolve_left fun hold => hold rfl
  refine ⟨by omega, ?_, ?_⟩
  · grind [stakedDraws]
  · intro d hd k hD _ _ j hj hrow _
    have hle := hresults d hd _ (hrows _ hrow)
    rw [hD] at hle
    unfold drawOf drawInterval at hle
    omega

end Runs

end FalconDraw.Chain
