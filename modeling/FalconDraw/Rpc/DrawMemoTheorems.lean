/-
FalconDraw.Rpc.DrawMemoTheorems — when memoised answers about draws stay true.

A stored count is right as long as no draw up to it gains or loses its entries, a
stored result as long as what it was read from stays (`Frozen`, and the blocks of
the draw and of its settlement).
-/
import FalconDraw.Chain.ConservationTheorems
import FalconDraw.Draw.UndoTheorems
import FalconDraw.Rpc.DrawResult

namespace FalconDraw.Rpc

open Lib Wire Draw Chain List

/-! ## What stays below a draw -/

/-- Up to `D` the entries and records are the same, and the balances of draws with
entries. -/
structure Frozen (D : Nat) (idx idx' : StakeIndex) : Prop where
  stakes : ∀ h ≤ D, idx'.poolStakes h = idx.poolStakes h
  metas : ∀ h ≤ D, idx'.drawResults.get h = idx.drawResults.get h
  records : ∀ h ≤ D, idx'.vdfResults.get h = idx.vdfResults.get h
  balance : ∀ h ≤ D, idx.poolStakes h ≠ [] → idx'.getPoolBalance h = idx.getPoolBalance h

/-- The draws that a transaction of a connected or disconnected block is about: the one
it stakes for and the one it settles, with the next. -/
structure TxAbove (D : Nat) (staked : Option Nat) (tx : Tx) : Prop where
  stake : ∀ E, staked = some E → D < E
  result : ∀ d, resultData tx = some d → D < d.drawHeight ∧ D < StakeIndex.nextDraw d.drawHeight

def declaredDraw (tx : Tx) : Option Nat :=
  if tx.msgTx.version = txVersionPoolStake then
    (findPoolStakingOpReturn tx.msgTx).map fun script => (poolStakingFields script).drawHeight
  else none

def enteredDraw (height : Nat) (tx : Tx) : Option Nat :=
  (StakeIndex.stakeOf height tx).map Prod.fst

namespace Frozen

variable {D : Nat} {idx idx₁ idx₂ : StakeIndex} {tx : Tx}

theorem refl (idx : StakeIndex) : Frozen D idx idx :=
  ⟨fun _ _ => rfl, fun _ _ => rfl, fun _ _ => rfl, fun _ _ _ => rfl⟩

theorem trans (h₁ : Frozen D idx idx₁) (h₂ : Frozen D idx₁ idx₂) : Frozen D idx idx₂ where
  stakes h hh := (h₂.stakes h hh).trans (h₁.stakes h hh)
  metas h hh := (h₂.metas h hh).trans (h₁.metas h hh)
  records h hh := (h₂.records h hh).trans (h₁.records h hh)
  balance h hh hne :=
    (h₂.balance h hh (by rwa [h₁.stakes h hh])).trans (h₁.balance h hh hne)

theorem setPoolBalance {E : Nat} (hE : D < E) (v : Int64) :
    Frozen D idx (idx.setPoolBalance E v) where
  stakes _ _ := rfl
  metas _ _ := rfl
  records _ _ := rfl
  balance h hh _ := by
    rw [StakeIndex.getPoolBalance_setPoolBalance, if_neg (by omega)]

theorem addToPoolBalance {E : Nat} (hE : D < E) (v : Int64) :
    Frozen D idx (idx.addToPoolBalance E v) :=
  setPoolBalance hE _

theorem putDrawResultMeta {E : Nat} (hE : D < E) (m : DrawResultMeta) :
    Frozen D idx (idx.putDrawResultMeta E m) where
  stakes _ _ := rfl
  metas h hh := Bucket.get_put_of_ne _ _ (by omega)
  records _ _ := rfl
  balance _ _ _ := rfl

theorem putVDFResult {E : Nat} (hE : D < E) (height : Nat) (hash : Hash) (T output : Nat) :
    Frozen D idx (idx.putVDFResult E height hash T output) where
  stakes _ _ := rfl
  metas _ _ := rfl
  records h hh := Bucket.get_put_of_ne _ _ (by omega)
  balance _ _ _ := rfl

theorem deleteDrawResultMeta {E : Nat} (hE : D < E) :
    Frozen D idx (idx.deleteDrawResultMeta E) where
  stakes _ _ := rfl
  metas h hh := Bucket.get_delete_of_ne _ (by omega)
  records _ _ := rfl
  balance _ _ _ := rfl

theorem absorbFrom (hs : List Nat) : ∀ {idx : StakeIndex} {total : Int64},
    Frozen D idx (idx.absorbFrom total hs).2 := by
  induction hs with
  | nil => exact fun {idx _} => refl idx
  | cons h hs ih =>
    intro idx total
    unfold StakeIndex.absorbFrom
    split
    case isTrue => exact ih
    case isFalse =>
      split
      case isTrue => exact refl idx
      case isFalse hempty =>
        have hset : Frozen D idx (idx.setPoolBalance h 0) := by
          refine ⟨fun _ _ => rfl, fun _ _ => rfl, fun _ _ => rfl, ?_⟩
          intro k _ hne
          rw [StakeIndex.getPoolBalance_setPoolBalance, if_neg]
          rintro rfl
          exact hempty hne
        exact hset.trans ih

theorem runAndStoreDrawResult {E : Nat} (hE : D < E) (hnext : D < StakeIndex.nextDraw E)
    (seed : Hash) : Frozen D idx (idx.runAndStoreDrawResult E seed) := by
  unfold StakeIndex.runAndStoreDrawResult
  split
  case isTrue =>
    dsimp only
    split
    case isTrue =>
      exact ((putDrawResultMeta hE _).trans (addToPoolBalance hnext _)).trans (setPoolBalance hE _)
    case isFalse => exact refl idx
  case isFalse =>
    have hswept : Frozen D idx (idx.absorbIntermediateBalances E).2 := absorbFrom _
    have hstored : ∀ v m, Frozen D idx
        (((idx.absorbIntermediateBalances E).2.setPoolBalance E v).putDrawResultMeta E m) :=
      fun v m => (hswept.trans (setPoolBalance hE v)).trans (putDrawResultMeta hE m)
    dsimp only
    split
    case isTrue => exact (hstored _ _).trans (addToPoolBalance hnext _)
    case isFalse => exact hstored _ _

theorem connectTx {height : Nat} (hash : Hash) (htx : TxAbove D (enteredDraw height tx) tx) :
    Frozen D idx (idx.connectTx height hash tx) := by
  rw [StakeIndex.connectTx_eq]
  cases hd : resultData tx with
  | some d =>
    obtain ⟨hD, hnext⟩ := htx.result d hd
    exact (putVDFResult hD _ _ _ _).trans (runAndStoreDrawResult hD hnext _)
  | none =>
    cases hs : StakeIndex.stakeOf height tx with
    | none => exact refl idx
    | some s =>
      have hE : D < s.1 := htx.stake s.1 (by rw [enteredDraw, hs]; rfl)
      dsimp only
      split
      case isTrue => exact refl idx
      case isFalse =>
        have hput : Frozen D idx (idx.putPoolStakeEntry s.1 tx.hash s.2) :=
          ⟨fun h hh => if_neg (by omega), fun _ _ => rfl, fun _ _ => rfl, fun _ _ _ => rfl⟩
        have hadd := hput.trans (addToPoolBalance hE s.2.amount)
        exact ⟨hadd.stakes, hadd.metas, hadd.records, hadd.balance⟩

theorem disconnectTx (htx : TxAbove D (declaredDraw tx) tx) :
    Frozen D idx (idx.disconnectTx tx) := by
  cases hstake : isPoolStakingTx tx with
  | true =>
    simp only [isPoolStakingTx, Bool.and_eq_true, beq_iff_eq] at hstake
    obtain ⟨hversion, hfound⟩ := hstake
    obtain ⟨script, hscript⟩ := Option.isSome_iff_exists.mp hfound
    have hE : D < (poolStakingFields script).drawHeight :=
      htx.stake _ (by rw [declaredDraw, if_pos hversion, hscript]; rfl)
    rw [StakeIndex.disconnectTx, if_pos hversion, StakeIndex.disconnectStake, hscript]
    dsimp only
    have hremove : Frozen D idx
        (idx.removePoolStakeEntry (poolStakingFields script).drawHeight tx.hash) :=
      ⟨fun h hh => if_neg (by omega), fun _ _ => rfl, fun _ _ => rfl, fun _ _ _ => rfl⟩
    exact hremove.trans (addToPoolBalance hE _)
  | false =>
    rw [StakeIndex.disconnectTx_of_stakeFree idx hstake]
    cases hd : resultData tx with
    | none => exact refl idx
    | some d =>
      obtain ⟨hD, hnext⟩ := htx.result d hd
      have hrecord : Frozen D idx (idx.deleteVDFResult d.drawHeight) :=
        ⟨fun _ _ => rfl, fun _ _ => rfl, fun h hh => Bucket.get_delete_of_ne _ (by omega),
          fun _ _ _ => rfl⟩
      dsimp only
      rw [StakeIndex.undoResult]
      dsimp only
      split
      case h_1 => exact hrecord
      case h_2 =>
        have hmeta := hrecord.trans (deleteDrawResultMeta hD)
        split
        case isTrue =>
          exact (hmeta.trans (setPoolBalance hD _)).trans (setPoolBalance hnext _)
        case isFalse => exact hmeta

theorem foldl {step : StakeIndex → Tx → StakeIndex} {txs : List Tx}
    (hstep : ∀ idx, ∀ tx ∈ txs, Frozen D idx (step idx tx)) :
    ∀ {idx : StakeIndex}, Frozen D idx (txs.foldl step idx) := by
  induction txs with
  | nil => exact fun {idx} => refl idx
  | cons tx txs ih =>
    intro idx
    rw [foldl_cons]
    exact (hstep idx tx mem_cons_self).trans
      (ih fun idx t ht => hstep idx t (mem_cons_of_mem tx ht))

theorem rolloverSource_eq_some {hs : List Nat} {k : Nat} (hk : idx.rolloverSource hs = some k) :
    k ∈ hs ∧ idx.poolStakes k ≠ [] := by
  induction hs with
  | nil => cases hk
  | cons h hs ih =>
    rw [StakeIndex.rolloverSource] at hk
    split at hk
    case isTrue =>
      obtain ⟨hmem, hne⟩ := ih hk
      exact ⟨mem_cons_of_mem h hmem, hne⟩
    case isFalse hreal => grind [StakeIndex.hasRealStakers]

theorem rolloverSource (hf : Frozen D idx idx₁) {hs : List Nat} (hhs : ∀ k ∈ hs, k ≤ D) :
    idx₁.rolloverSource hs = idx.rolloverSource hs := by
  induction hs with
  | nil => rfl
  | cons h hs ih =>
    have hh := hhs h mem_cons_self
    have hreal : idx₁.hasRealStakers h = idx.hasRealStakers h := by
      rw [StakeIndex.hasRealStakers, hf.stakes h hh]
      rfl
    rw [StakeIndex.rolloverSource, StakeIndex.rolloverSource, hreal, hf.metas h hh,
      ih fun k hk => hhs k (mem_cons_of_mem h hk)]

theorem fetchPoolStakeEntries (hf : Frozen D idx idx₁) {h : Nat} (hh : h ≤ D) :
    idx₁.fetchPoolStakeEntries h = idx.fetchPoolStakeEntries h := by
  rw [StakeIndex.fetchPoolStakeEntries, hf.stakes h hh]
  rfl

theorem reconstructFuel (hf : Frozen D idx idx₁) : ∀ {fuel h : Nat}, h ≤ D →
    idx.poolStakes h ≠ [] → idx₁.reconstructFuel fuel h = idx.reconstructFuel fuel h := by
  intro fuel
  induction fuel with
  | zero => exact fun _ _ => rfl
  | succ fuel ih =>
    intro h hh hne
    have hnew : idx₁.newStakes h = idx.newStakes h := by
      rw [StakeIndex.newStakes, hf.fetchPoolStakeEntries hh]
      rfl
    have hprior : ∀ k ∈ StakeIndex.priorDraws h, k ≤ D := by
      intro k hk
      have := (StakeIndex.mem_priorDraws h hk).2
      omega
    rw [StakeIndex.reconstructFuel, StakeIndex.reconstructFuel, hf.metas h hh,
      hf.balance h hh hne, hf.rolloverSource hprior, hnew]
    split
    case isTrue => rfl
    case isFalse =>
      cases hfound : idx.rolloverSource (StakeIndex.priorDraws h) with
      | none => rfl
      | some k =>
        obtain ⟨hmem, hreal⟩ := rolloverSource_eq_some hfound
        dsimp only
        rw [ih (hprior k hmem) hreal]

end Frozen

/-! ## Counting -/

/-- How many of the first `n` draws have stake entries. -/
def stakedBelow (idx : StakeIndex) : Nat → Nat
  | 0 => 0
  | n + 1 => stakedBelow idx n + if idx.poolStakes (drawOf n) = [] then 0 else 1

theorem Frozen.stakedBelow {D : Nat} {idx idx₁ : StakeIndex} (hf : Frozen D idx idx₁) :
    ∀ {n : Nat}, drawInterval * n ≤ D → Rpc.stakedBelow idx₁ n = Rpc.stakedBelow idx n := by
  intro n
  induction n with
  | zero => exact fun _ => rfl
  | succ n ih =>
    intro hle
    rw [Rpc.stakedBelow, Rpc.stakedBelow, hf.stakes (drawOf n) hle, ih]
    unfold drawInterval at hle ⊢
    omega

namespace DrawNode

variable {s s' : DrawNode} {D h : Nat}

/-- Every VDF record is of a block of the best chain that settles its draw. -/
def Recorded (s : DrawNode) : Prop :=
  ∀ {D r}, s.idx.vdfResults.get D = some r → ∃ height block, r.settlementHeight = (height : Nat) ∧
    s.blocks[height]? = some block ∧ ∃ d ∈ blockResults block, d.drawHeight = D

theorem fetchDrawSettlement_of_block {r : VDFRecord} {height : Nat} {block : Block}
    (hD : s.idx.vdfResults.get D = some r) (hheight : r.settlementHeight = height)
    (hblock : s.blocks[height]? = some block) :
    s.fetchDrawSettlement D = .ok (block.transactions.find? isDrawSettlementTx,
      ((s.blockByHeight (toInt32 D)).map Block.hash).getD 0) := by
  grind [fetchDrawSettlement, blockByHeight]

theorem fetchDrawSettlement_eq (hr : Recorded s) {r : VDFRecord}
    (hD : s.idx.vdfResults.get D = some r) :
    ∃ block : Block, s.fetchDrawSettlement D = .ok (block.transactions.find? isDrawSettlementTx,
        ((s.blockByHeight (toInt32 D)).map Block.hash).getD 0) := by
  obtain ⟨height, block, hheight, hblock, -⟩ := hr hD
  exact ⟨block, fetchDrawSettlement_of_block hD hheight hblock⟩

theorem fetchPoolStakeEntries_eq_nil (idx : StakeIndex) (D : Nat) :
    idx.fetchPoolStakeEntries D = [] ↔ idx.poolStakes D = [] := by
  rw [StakeIndex.fetchPoolStakeEntries, map_eq_nil_iff]

theorem fetchDrawLiveResult_eq (hr : Recorded s) {r : VDFRecord}
    (hD : s.idx.vdfResults.get D = some r) :
    ∃ won, s.fetchDrawLiveResult D = .ok (won, decide (s.idx.poolStakes D ≠ [])) := by
  obtain ⟨block, hsettle⟩ := fetchDrawSettlement_eq hr hD
  rw [fetchDrawLiveResult, hD]
  dsimp only
  by_cases hempty : s.idx.poolStakes D = []
  · rw [if_pos ((fetchPoolStakeEntries_eq_nil _ _).mpr hempty)]
    exact ⟨false, by simp [hempty]⟩
  · rw [if_neg fun h => hempty ((fetchPoolStakeEntries_eq_nil _ _).mp h), decide_eq_true hempty]
    cases s.idx.drawResults.get D with
    | some m => exact ⟨_, rfl⟩
    | none =>
      dsimp only
      rw [hsettle]
      cases block.transactions.find? isDrawSettlementTx with
      | none => exact ⟨_, rfl⟩
      | some tx => exact ⟨_, rfl⟩

theorem countRound_eq (hr : Recorded s) (h : Nat) :
    ∃ stored, s.countRound h = .ok (decide (s.idx.poolStakes h ≠ []), stored) := by
  rw [countRound]
  cases hrec : s.idx.vdfResults.get h with
  | none =>
    have hnone : s.fetchDrawSettlement h = .ok (none, 0) := by
      rw [fetchDrawSettlement, hrec]
    rw [hnone]
    exact ⟨false, by simp only [ne_eq, fetchPoolStakeEntries_eq_nil]⟩
  | some r =>
    obtain ⟨block, hsettle⟩ := fetchDrawSettlement_eq hr hrec
    obtain ⟨won, hlive⟩ := fetchDrawLiveResult_eq hr hrec
    rw [hsettle, hlive]
    dsimp only
    cases block.transactions.find? isDrawSettlementTx with
    | none => exact ⟨true, rfl⟩
    | some tx => exact ⟨true, rfl⟩

/-- Every stored count is the number of draws with entries. -/
def SeqSound (idx : StakeIndex) (memo : Bucket Nat Nat) : Prop :=
  ∀ {D count}, memo.get D = some count → ∃ k, D = drawOf k ∧ count = stakedBelow idx (k + 1)

theorem SeqSound.put {idx : StakeIndex} {memo : Bucket Nat Nat} (hm : SeqSound idx memo) (k : Nat) :
    SeqSound idx (memo.put (drawOf k) (stakedBelow idx (k + 1))) := by
  intro D count hget
  rw [Bucket.get_put] at hget
  split at hget
  case isTrue hD => exact ⟨k, hD, (Option.some.inj hget).symm⟩
  case isFalse => exact hm hget

theorem countDraws_eq (hr : Recorded s) : ∀ {n k : Nat} {memo : Bucket Nat Nat},
    SeqSound s.idx memo → ∃ memo', SeqSound s.idx memo' ∧
      s.countDraws (List.range' (drawOf k) n drawInterval) (stakedBelow s.idx k) memo =
        (.ok (stakedBelow s.idx (k + n)), memo') := by
  intro n
  induction n with
  | zero => exact fun hm => ⟨_, hm, rfl⟩
  | succ n ih =>
    intro k memo hm
    obtain ⟨stored, hround⟩ := countRound_eq hr (drawOf k)
    have hcount : (if decide (s.idx.poolStakes (drawOf k) ≠ []) = true
        then stakedBelow s.idx k + 1 else stakedBelow s.idx k) = stakedBelow s.idx (k + 1) := by
      grind [stakedBelow]
    have hnext : drawOf k + drawInterval = drawOf (k + 1) := by
      unfold drawOf drawInterval
      omega
    rw [List.range'_succ, countDraws, hround, hnext]
    dsimp only
    rw [hcount, show k + (n + 1) = (k + 1) + n by omega]
    refine ih ?_
    split
    case isTrue => exact hm.put k
    case isFalse => exact hm

theorem countStart_eq (hm : SeqSound s.idx s.drawSeqCache) (D : Nat) :
    ∃ k, k ≤ D / drawInterval ∧ s.countStart D = (drawOf k, stakedBelow s.idx k) := by
  rw [countStart]
  cases hfound : (StakeIndex.priorDraws D).findSome? fun h =>
      (s.drawSeqCache.get h).map fun count => (h, count) with
  | none => exact ⟨0, Nat.zero_le _, rfl⟩
  | some p =>
    obtain ⟨h, hmem, hp⟩ := exists_of_findSome?_eq_some hfound
    obtain ⟨count, hcount, rfl⟩ := Option.map_eq_some_iff.mp hp
    obtain ⟨k, rfl, rfl⟩ := hm hcount
    have hlt := (StakeIndex.mem_priorDraws D hmem).2
    refine ⟨k + 1, ?_, rfl⟩
    unfold drawOf drawInterval at hlt
    unfold drawInterval
    omega

theorem countSettledDraws_eq (hr : Recorded s) (hm : SeqSound s.idx s.drawSeqCache) (D : Nat) :
    ∃ memo, SeqSound s.idx memo ∧ s.countSettledDraws D =
      (.ok (stakedBelow s.idx (D / drawInterval)), { s with drawSeqCache := memo }) := by
  rw [countSettledDraws]
  by_cases hlow : D < drawInterval
  · rw [if_pos hlow, Nat.div_eq_of_lt hlow]
    exact ⟨s.drawSeqCache, hm, rfl⟩
  rw [if_neg hlow]
  cases hget : s.drawSeqCache.get D with
  | some count =>
    obtain ⟨k, rfl, rfl⟩ := hm hget
    refine ⟨s.drawSeqCache, hm, ?_⟩
    rw [drawOf, Nat.mul_div_cancel_left _ (by decide)]
  | none =>
    obtain ⟨k, hk, hstart⟩ := countStart_eq hm D
    have hdraws : drawsUpTo (drawOf k) D =
        List.range' (drawOf k) (D / drawInterval - k) drawInterval := by
      grind [drawsUpTo, drawOf, drawInterval]
    obtain ⟨memo, hmemo, hcount⟩ := @countDraws_eq s hr (D / drawInterval - k) k _ hm
    refine ⟨memo, hmemo, ?_⟩
    dsimp only
    rw [hstart]
    dsimp only
    rw [hdraws, hcount, show k + (D / drawInterval - k) = D / drawInterval by omega]

/-! ## Results -/

/-- The answer of `handleGetDrawResult` for a valid height, from the chain alone. -/
def drawReply (s : DrawNode) (D : Nat) : Except RPCError GetDrawResultResult :=
  match s.drawOutcome D with
  | .refused e => .error e
  | .noParticipants => memoReply D none
  | .computing result =>
      .ok { result with
        drawSequence := stakedBelow s.idx ((D - drawInterval) / drawInterval) + 1 }
  | .settled result => .ok { result with drawSequence := stakedBelow s.idx (D / drawInterval) }

/-- An entry of the memo is what the chain says. -/
def EntryFor (s : DrawNode) (D : Nat) : Option GetDrawResultResult → Prop
  | none => s.drawOutcome D = .noParticipants
  | some result => ∃ base, s.drawOutcome D = .settled base ∧
      result = { base with drawSequence := stakedBelow s.idx (D / drawInterval) }

theorem EntryFor.reply {entry : Option GetDrawResultResult} (h : EntryFor s D entry) :
    memoReply D entry = s.drawReply D := by
  cases entry with
  | none =>
    have hout : s.drawOutcome D = .noParticipants := h
    rw [drawReply, hout]
  | some result =>
    obtain ⟨base, hout, rfl⟩ := h
    rw [drawReply, hout]
    rfl

/-- Both memos are right. -/
structure Sound (s : DrawNode) : Prop where
  recorded : Recorded s
  seq : SeqSound s.idx s.drawSeqCache
  results : ∀ {D entry}, s.drawResultCache.get D = some entry → EntryFor s D entry

theorem Sound.withSeq (hs : Sound s) {memo : Bucket Nat Nat} (hm : SeqSound s.idx memo) :
    Sound { s with drawSeqCache := memo } :=
  ⟨hs.recorded, hm, hs.results⟩

theorem Sound.storeResult (hs : Sound s) {entry : Option GetDrawResultResult}
    (he : EntryFor s D entry) : Sound (s.storeResult D entry) where
  recorded := hs.recorded
  seq := hs.seq
  results := by
    intro D' entry' hget
    rw [DrawNode.storeResult, Bucket.get_put] at hget
    split at hget
    case isTrue hD =>
      obtain rfl := Option.some.inj hget
      exact hD ▸ he
    case isFalse => exact hs.results hget

theorem computeDrawResult_eq (hs : Sound s) (D : Nat) :
    (s.computeDrawResult D).1 = s.drawReply D ∧ Sound (s.computeDrawResult D).2 := by
  rw [computeDrawResult, drawReply]
  cases hout : s.drawOutcome D with
  | refused e => exact ⟨rfl, hs⟩
  | noParticipants =>
    have hentry : EntryFor s D none := hout
    exact ⟨rfl, hs.storeResult hentry⟩
  | computing result =>
    obtain ⟨memo, hmemo, hcount⟩ := countSettledDraws_eq hs.recorded hs.seq (D - drawInterval)
    dsimp only
    rw [hcount]
    exact ⟨rfl, hs.withSeq hmemo⟩
  | settled result =>
    obtain ⟨memo, hmemo, hcount⟩ := countSettledDraws_eq hs.recorded hs.seq D
    dsimp only
    rw [hcount]
    exact ⟨rfl, (hs.withSeq hmemo).storeResult ⟨result, hout, rfl⟩⟩

theorem handleGetDrawResult_eq (hs : Sound s) (D : Nat) : (s.handleGetDrawResult D).1 =
        ({ s with drawResultCache := Bucket.empty }.handleGetDrawResult D).1 ∧
      Sound (s.handleGetDrawResult D).2 := by
  have hempty : Sound { s with drawResultCache := Bucket.empty } :=
    ⟨hs.recorded, hs.seq, fun h => by cases h⟩
  rw [handleGetDrawResult, handleGetDrawResult]
  split
  case isTrue => exact ⟨rfl, hs⟩
  case isFalse =>
    rw [Bucket.get_empty]
    dsimp only
    rw [(computeDrawResult_eq hempty D).1]
    cases hget : s.drawResultCache.get D with
    | some entry => exact ⟨(hs.results hget).reply, hs⟩
    | none => exact computeDrawResult_eq hs D

/-! ## Blocks -/

/-- What the answers about draw `D` are read from is the same. -/
structure SameFor (D : Nat) (s s' : DrawNode) : Prop where
  frozen : Frozen D s.idx s'.idx
  settlement : s'.fetchDrawSettlement D = s.fetchDrawSettlement D
  drawBlock : s'.blockByHeight (toInt32 D) = s.blockByHeight (toInt32 D)

theorem SameFor.totalTokens (h : SameFor D s s') : s'.totalTokens D = s.totalTokens D := by
  rw [DrawNode.totalTokens, fetchDrawAllStakers, h.frozen.fetchPoolStakeEntries (Nat.le_refl D)]
  rfl

theorem SameFor.live (h : SameFor D s s') : s'.fetchDrawLiveResult D = s.fetchDrawLiveResult D := by
  rw [fetchDrawLiveResult, h.frozen.records D (Nat.le_refl D),
    h.frozen.fetchPoolStakeEntries (Nat.le_refl D), h.frozen.metas D (Nat.le_refl D),
    h.settlement]
  rfl

theorem SameFor.pool (h : SameFor D s s') : s.totalTokens D = 0 ∨
    s'.idx.reconstructPoolBalance D = s.idx.reconstructPoolBalance D := by
  refine or_iff_not_imp_left.mpr fun hne => h.frozen.reconstructFuel (Nat.le_refl D) fun hempty =>
    hne ?_
  rw [DrawNode.totalTokens, fetchDrawAllStakers, StakeIndex.fetchPoolStakeEntries, hempty]
  rfl

theorem SameFor.computingOutcome (h : SameFor D s s') :
    s'.computingOutcome D = s.computingOutcome D := by
  rw [DrawNode.computingOutcome, DrawNode.computingOutcome, h.totalTokens, h.drawBlock]
  rcases h.pool with hempty | hpool
  · rw [hempty]
    rfl
  · rw [hpool]

theorem SameFor.rolloverOutcome (h : SameFor D s s') (record : VDFRecord) (hash : Hash) :
    s'.rolloverOutcome D record hash = s.rolloverOutcome D record hash := by
  rw [DrawNode.rolloverOutcome, DrawNode.rolloverOutcome, h.totalTokens, h.drawBlock,
    h.frozen.metas D (Nat.le_refl D)]
  rcases h.pool with hempty | hpool
  · rw [hempty]
    rfl
  · rw [hpool]

theorem SameFor.settlementOutcome (h : SameFor D s s') {record : VDFRecord}
    (hrec : s.idx.vdfResults.get D = some record) (settleTx : Tx) (hash : Hash) :
    s'.settlementOutcome D record settleTx hash = s.settlementOutcome D record settleTx hash := by
  rw [DrawNode.settlementOutcome, DrawNode.settlementOutcome, h.totalTokens, h.live]
  by_cases hempty : s.idx.poolStakes D = []
  · have hlive : s.fetchDrawLiveResult D = .ok (false, false) := by
      rw [fetchDrawLiveResult, hrec]
      exact if_pos ((fetchPoolStakeEntries_eq_nil _ _).mpr hempty)
    rw [hlive]
  · rw [StakeIndex.reconstructPoolBalance, h.frozen.reconstructFuel (Nat.le_refl D) hempty]
    rfl

theorem SameFor.drawOutcome (h : SameFor D s s') : s'.drawOutcome D = s.drawOutcome D := by
  rw [DrawNode.drawOutcome, DrawNode.drawOutcome, h.frozen.records D (Nat.le_refl D), h.settlement]
  cases hrec : s.idx.vdfResults.get D with
  | none => exact h.computingOutcome
  | some record =>
    dsimp only
    cases s.fetchDrawSettlement D with
    | error e => rfl
    | ok found =>
      obtain ⟨tx, hash⟩ := found
      cases tx with
      | none => exact h.rolloverOutcome record hash
      | some tx => exact h.settlementOutcome hrec tx hash

theorem SameFor.entry (h : SameFor D s s') {entry : Option GetDrawResultResult}
    (he : EntryFor s D entry) : EntryFor s' D entry := by
  have hcount : stakedBelow s'.idx (D / drawInterval) = stakedBelow s.idx (D / drawInterval) :=
    h.frozen.stakedBelow (Nat.mul_div_le D drawInterval)
  cases entry with
  | none => exact h.drawOutcome.trans he
  | some result =>
    obtain ⟨base, hout, rfl⟩ := he
    exact ⟨base, h.drawOutcome.trans hout, by rw [hcount]⟩

/-- Some answer about the draw is stored. -/
def Memoised (s : DrawNode) (D : Nat) : Prop :=
  (s.drawSeqCache.get D).isSome = true ∨ (s.drawResultCache.get D).isSome = true

theorem Sound.of_same (hs : Sound s) (hr : Recorded s')
    (hsame : ∀ D, Memoised s D → SameFor D s s') (hseq : s'.drawSeqCache = s.drawSeqCache)
    (hresults : s'.drawResultCache = s.drawResultCache) : Sound s' where
  recorded := hr
  seq := by
    intro D count hget
    rw [hseq] at hget
    obtain ⟨k, rfl, rfl⟩ := hs.seq hget
    have h := hsame (drawOf k) (.inl (Option.isSome_iff_exists.mpr ⟨_, hget⟩))
    exact ⟨k, rfl, (h.frozen.stakedBelow (Nat.le_refl _)).symm⟩
  results := by
    intro D entry hget
    rw [hresults] at hget
    exact (hsame D (.inr (Option.isSome_iff_exists.mpr ⟨_, hget⟩))).entry (hs.results hget)

/-! ### Connecting -/

theorem toInt32_le (D : Nat) : toInt32 D ≤ D := by
  unfold toInt32
  rw [Int.bmod_def]
  split <;> omega

/-- The answers about a draw stay if the index is frozen and the blocks up to the draw and the
block that settles it stay. -/
theorem SameFor.of_blocks (hr : Recorded s) (hfrozen : Frozen D s.idx s'.idx)
    (hlow : ∀ i ≤ D, s'.blocks[i]? = s.blocks[i]?)
    (hsettling : ∀ {height : Nat} {block : Block}, s.blocks[height]? = some block →
      (∃ d ∈ blockResults block, d.drawHeight = D) → s'.blocks[height]? = some block) :
    SameFor D s s' := by
  have hblock : s'.blockByHeight (toInt32 D) = s.blockByHeight (toInt32 D) := by
    have hle := toInt32_le D
    rw [blockByHeight, blockByHeight]
    split
    case isTrue => rfl
    case isFalse => exact hlow _ (by omega)
  refine ⟨hfrozen, ?_, hblock⟩
  have hrec := hfrozen.records D (Nat.le_refl D)
  cases hget : s.idx.vdfResults.get D with
  | none => rw [fetchDrawSettlement, fetchDrawSettlement, hrec, hget]
  | some r =>
    obtain ⟨height, block, hheight, hold, hd⟩ := hr hget
    rw [fetchDrawSettlement_of_block (hrec.trans hget) hheight (hsettling hold hd),
      fetchDrawSettlement_of_block hget hheight hold, hblock]

theorem getElem?_connect (newBlock : Block) {height : Nat} {block : Block}
    (h : s.blocks[height]? = some block) : (s.connect newBlock).blocks[height]? = some block :=
  (getElem?_append_left (List.getElem?_eq_some_iff.mp h).1).trans h

theorem Recorded.connect (hr : Recorded s) (newBlock : Block) : Recorded (s.connect newBlock) := by
  intro D r hget
  rw [DrawNode.connect] at hget
  dsimp only at hget
  rw [StakeIndex.connectBlock_vdfResults_get] at hget
  split at hget
  case h_1 =>
    obtain ⟨height, block, hheight, hblock, hd⟩ := hr hget
    exact ⟨height, block, hheight, getElem?_connect newBlock hblock, hd⟩
  case h_2 d hfound =>
    obtain rfl := Option.some.inj hget
    refine ⟨s.blocks.length, { newBlock with height := s.blocks.length }, rfl,
      getElem?_concat_length, d, ?_, ?_⟩
    · exact mem_reverse.mp (mem_of_find?_eq_some hfound)
    · have hdraw := find?_some hfound
      exact of_decide_eq_true hdraw

theorem SameFor.connect (hr : Recorded s) {newBlock : Block} (hD : D < s.blocks.length)
    (htxs : ∀ tx ∈ newBlock.transactions, TxAbove D (enteredDraw s.blocks.length tx) tx) :
    SameFor D s (s.connect newBlock) :=
  .of_blocks hr (Frozen.foldl fun _ tx htx => Frozen.connectTx _ (htxs tx htx))
    (fun _ hi => getElem?_append_left (by omega)) fun hblock _ => getElem?_connect _ hblock

/-! ### Disconnecting -/

theorem get_foldl_delete {r : VDFRecord} : ∀ {ds : List VDFResultData} {b : Bucket Nat VDFRecord},
    (ds.foldl (fun b d => b.delete d.drawHeight) b).get D = some r →
      b.get D = some r ∧ ∀ d ∈ ds, d.drawHeight ≠ D := by
  intro ds
  induction ds with
  | nil => exact fun h => ⟨h, fun d hd => absurd hd not_mem_nil⟩
  | cons d ds ih => grind [Bucket.get_delete]

theorem getElem?_of_not_last {blocks : List Block} {tip block : Block} {height : Nat}
    (htip : blocks.getLast? = some tip) (hblock : blocks[height]? = some block) :
    (height = blocks.length - 1 ∧ block = tip) ∨ blocks.dropLast[height]? = some block := by
  grind

theorem Recorded.disconnect (hr : Recorded s) {tip : Block} (htip : s.blocks.getLast? = some tip) :
    Recorded (s.disconnect tip) := by
  intro D r hget
  rw [DrawNode.disconnect] at hget
  dsimp only at hget
  rw [StakeIndex.disconnectBlock_vdfResults] at hget
  obtain ⟨hold, hother⟩ := get_foldl_delete hget
  obtain ⟨height, block, hheight, hblock, d, hd, hdraw⟩ := hr hold
  rcases getElem?_of_not_last htip hblock with ⟨-, rfl⟩ | hstays
  · exact absurd hdraw (hother d hd)
  · exact ⟨height, block, hheight, hstays, d, hd, hdraw⟩

theorem SameFor.disconnect (hr : Recorded s) {tip : Block} (htip : s.blocks.getLast? = some tip)
    (hD : D + 1 < s.blocks.length)
    (htxs : ∀ tx ∈ tip.transactions, TxAbove D (declaredDraw tx) tx) :
    SameFor D s (s.disconnect tip) := by
  refine .of_blocks hr (Frozen.foldl fun _ tx htx => Frozen.disconnectTx (htxs tx htx))
    (fun i hi => ?_) fun hblock hd => ?_
  · show s.blocks.dropLast[i]? = _
    rw [getElem?_dropLast, if_pos (by omega)]
  · obtain ⟨d, hd, hdraw⟩ := hd
    refine (getElem?_of_not_last htip hblock).resolve_left fun hlast => ?_
    -- the block that settled the draw is not taken off
    obtain ⟨tx, htx, hres⟩ := mem_filterMap.mp hd
    have := ((htxs tx (hlast.2 ▸ htx)).result d hres).1
    omega

/-! ## Runs -/

/-- A connected block is above all memoised draws, and so are the draws it stakes for
and settles, with the next ones; the same for a disconnected block, with the draws that
its stakes declare. -/
def Quiet (s : DrawNode) : DrawOp → Prop
  | .connect block => ∀ D, Memoised s D → D < s.blocks.length ∧
      ∀ tx ∈ block.transactions, TxAbove D (enteredDraw s.blocks.length tx) tx
  | .disconnect => ∀ D, Memoised s D → D + 1 < s.blocks.length ∧
      ∀ tip, s.blocks.getLast? = some tip → ∀ tx ∈ tip.transactions, TxAbove D (declaredDraw tx) tx
  | .count _ => True
  | .result _ => True

theorem Sound.step {op : DrawOp} (hs : Sound s) (hq : Quiet s op) (hstep : s.step op = some s') :
    Sound s' := by
  cases op with
  | connect block =>
    obtain rfl := Option.some.inj hstep
    refine hs.of_same (Recorded.connect hs.recorded block) ?_ rfl rfl
    intro D hD
    obtain ⟨hlow, htxs⟩ := hq D hD
    exact SameFor.connect hs.recorded hlow htxs
  | disconnect =>
    rw [DrawNode.step] at hstep
    split at hstep
    case isTrue => cases hstep
    case isFalse =>
      obtain ⟨tip, htip, rfl⟩ := Option.map_eq_some_iff.mp hstep
      refine hs.of_same (Recorded.disconnect hs.recorded htip) ?_ rfl rfl
      intro D hD
      obtain ⟨hlow, htxs⟩ := hq D hD
      exact SameFor.disconnect hs.recorded htip hlow (htxs tip htip)
  | count D =>
    obtain rfl := Option.some.inj hstep
    obtain ⟨memo, hmemo, hcount⟩ := countSettledDraws_eq hs.recorded hs.seq D
    rw [hcount]
    exact hs.withSeq hmemo
  | result D =>
    obtain rfl := Option.some.inj hstep
    exact (handleGetDrawResult_eq hs D).2

theorem Sound.ofNew (hs : IsNew s) : Sound s := by
  obtain ⟨hidx, -, hseq, hresults⟩ := hs
  refine ⟨?_, ?_, ?_⟩
  · intro D r hget
    rw [hidx] at hget
    cases hget
  · intro D count hget
    rw [hseq] at hget
    cases hget
  · grind

/-- In every run of connects, disconnects and calls from a new node in which no block
touches a memoised draw or one below, every answer is the one that an empty memo would
give. -/
theorem memo_answers_as_empty (hs : Reaches DrawNode.step IsNew Quiet s) (D : Nat) :
    (s.countSettledDraws D).1 = ({ s with drawSeqCache := Bucket.empty }.countSettledDraws D).1 ∧
      (s.handleGetDrawResult D).1 =
        ({ s with drawResultCache := Bucket.empty }.handleGetDrawResult D).1 := by
  have hsound : Sound s := hs.invariant (fun _ h => Sound.ofNew h) fun _ _ _ h hq hstep =>
    h.step hq hstep
  refine ⟨?_, (handleGetDrawResult_eq hsound D).1⟩
  obtain ⟨memo, -, hcount⟩ := countSettledDraws_eq hsound.recorded hsound.seq D
  have hempty : SeqSound s.idx Bucket.empty := fun h => by cases h
  obtain ⟨memo', -, hcount'⟩ := countSettledDraws_eq
    (s := { s with drawSeqCache := Bucket.empty }) hsound.recorded hempty D
  rw [hcount, hcount']

/-! ## A draw that is settled and taken back -/

def newNode : DrawNode :=
  ⟨StakeIndex.empty, [lateBlock 0 []], Bucket.empty, Bucket.empty⟩

theorem newNode_isNew : IsNew newNode := ⟨rfl, rfl, rfl, rfl⟩

/-- Two FDRW are staked for draw 108, and the draw rolls over in block 109. -/
def settledOps : List DrawOp := (stakedRun ++ [rolloverBlock]).map .connect

theorem reaches_connects : ∀ {blocks : List Block} {s s' : DrawNode},
    Reaches DrawNode.step IsNew Quiet s → s.drawSeqCache = Bucket.empty →
    s.drawResultCache = Bucket.empty → runSteps DrawNode.step s (blocks.map .connect) = some s' →
    Reaches DrawNode.step IsNew Quiet s' := by
  intro blocks
  induction blocks with
  | nil =>
    intro s s' hs _ _ hrun
    obtain rfl := Option.some.inj hrun
    exact hs
  | cons block blocks ih =>
    intro s s' hs hseq hresults hrun
    have hquiet : Quiet s (.connect block) := by
      intro D hD
      rw [Memoised, hseq, hresults] at hD
      rcases hD with hD | hD
      · cases hD
      · cases hD
    have hnext : Reaches DrawNode.step IsNew Quiet (s.connect block) := .step hs hquiet rfl
    exact ih hnext hseq hresults hrun

/-- After both calls about draw 108 the memos are filled, and the answers are those of
empty ones. -/
theorem settled_draw_answers : ∃ s₀, runSteps DrawNode.step newNode settledOps = some s₀ ∧
      let s := ((s₀.countSettledDraws 108).2.handleGetDrawResult 108).2
      ((s.drawSeqCache.get 108).isSome = true ∧ (s.drawResultCache.get 108).isSome = true) ∧
      (s.countSettledDraws 108).1 =
        ({ s with drawSeqCache := Bucket.empty }.countSettledDraws 108).1 ∧
      (s.handleGetDrawResult 108).1 =
        ({ s with drawResultCache := Bucket.empty }.handleGetDrawResult 108).1 := by
  obtain ⟨s₀, hrun, hmemo⟩ : ∃ s₀, runSteps DrawNode.step newNode settledOps = some s₀ ∧
      let s := ((s₀.countSettledDraws 108).2.handleGetDrawResult 108).2
      (s.drawSeqCache.get 108).isSome = true ∧ (s.drawResultCache.get 108).isSome = true := by
    decide +kernel
  have hsettled := reaches_connects (.start newNode_isNew) rfl rfl hrun
  have hcounted : Reaches DrawNode.step IsNew Quiet (s₀.countSettledDraws 108).2 :=
    .step (a := .count 108) hsettled trivial rfl
  have hasked : Reaches DrawNode.step IsNew Quiet
      ((s₀.countSettledDraws 108).2.handleGetDrawResult 108).2 :=
    .step (a := .result 108) hcounted trivial rfl
  exact ⟨s₀, hrun, hmemo, memo_answers_as_empty hasked 108⟩

def repliesSettled (reply : Except RPCError GetDrawResultResult) : Option Bool :=
  reply.toOption.map GetDrawResultResult.settled

/-- The blocks are accepted one after another, and both calls about draw 108 are made.
Then block 109 is disconnected: the draw is not settled any more, but the memo still
answers that it is. With the block of the stake gone too, the draw has no number, but the
memo still counts it. -/
theorem reorganization_keeps_memo :
    (∃ c c', runBlocks youngMainNet (genesisState (lateInfo 0)) stakedRun = .ok c ∧
      c.extend youngMainNet rolloverBlock = .ok c') ∧
    (∃ s, runSteps DrawNode.step newNode
        (settledOps ++ [.count 108, .result 108, .disconnect]) = some s ∧
      repliesSettled (s.handleGetDrawResult 108).1 = some true ∧
      repliesSettled ({ s with drawResultCache := Bucket.empty }.handleGetDrawResult 108).1 =
        some false) ∧
    ∃ s, runSteps DrawNode.step newNode
        (settledOps ++ .count 108 :: List.replicate 8 .disconnect) = some s ∧
      (s.countSettledDraws 108).1.toOption = some 1 ∧
      ({ s with drawSeqCache := Bucket.empty }.countSettledDraws 108).1.toOption = some 0 := by
  obtain ⟨c, c', hrun, hstep, -⟩ := stakedRun_accepted
  exact ⟨⟨c, c', hrun, hstep⟩, by decide +kernel, by decide +kernel⟩

end DrawNode

end FalconDraw.Rpc
