/-
FalconDraw.Chain.PendingVdfTheorems — which draws are computed, and whether a
published result can be stale.

The forward scan finds the oldest unsettled draw exactly when it is called with a
draw height below all unsettled draws; it is called with the height of the
settling block.
-/
import Mathlib.Order.Bounds.Basic
import FalconDraw.Chain.PendingVdf
import FalconDraw.Chain.ConservationTheorems

namespace FalconDraw.Chain

open Lib Wire Draw List

variable {D : Nat} {s : VdfNode} {t : VdfThread}

/-! ## The heights the scans visit -/

theorem isDrawBlock_iff : isDrawBlock D = true ↔ 0 < D ∧ drawInterval ∣ D := by
  simp only [isDrawBlock, Bool.and_eq_true, decide_eq_true_eq, beq_iff_eq]
  omega

theorem mem_drawsAfter {a b : Nat} : D ∈ drawsAfter a b ↔ a < D ∧ D ≤ b ∧ drawInterval ∣ D - a := by
  rw [drawsAfter, mem_range']
  unfold drawInterval
  constructor
  · rintro ⟨i, hi, rfl⟩
    omega
  · rintro ⟨hlt, hle, k, hk⟩
    exact ⟨k - 1, by omega, by omega⟩

theorem drawsAfter_sorted (a b : Nat) : (drawsAfter a b).Pairwise (· < ·) :=
  pairwise_lt_range' _ (by decide)

theorem mem_drawsFrom_iff {x : Nat} : ∀ {fuel k : Nat}, k ≤ fuel →
    (x ∈ StakeIndex.drawsFrom fuel (k * drawInterval) ↔ isDrawBlock x = true ∧ x ≤ k * drawInterval)
  | 0, k, h => by
      obtain rfl : k = 0 := by omega
      simp only [StakeIndex.drawsFrom, not_mem_nil, isDrawBlock_iff, false_iff]
      omega
  | fuel + 1, 0, _ => by
      simp only [StakeIndex.drawsFrom, Nat.zero_mul, isDrawBlock_iff]
      rw [if_pos (by decide)]
      simp only [not_mem_nil, false_iff]
      omega
  | fuel + 1, k + 1, h => by
      have hge : ¬ (k + 1) * drawInterval < drawInterval := by
        unfold drawInterval
        omega
      have hsub : (k + 1) * drawInterval - drawInterval = k * drawInterval := by
        unfold drawInterval
        omega
      rw [StakeIndex.drawsFrom, if_neg hge, hsub, mem_cons,
        mem_drawsFrom_iff (Nat.le_of_succ_le_succ h), isDrawBlock_iff]
      unfold drawInterval
      omega

theorem mem_drawsBack {tip : Nat} : D ∈ drawsBack tip ↔ isDrawBlock D = true ∧ D ≤ tip := by
  rw [drawsBack, mem_drawsFrom_iff (Nat.div_le_self _ _), isDrawBlock_iff]
  unfold drawInterval
  omega

theorem drawsFrom_sorted : ∀ fuel h : Nat, (StakeIndex.drawsFrom fuel h).Pairwise (· > ·)
  | 0, _ => List.Pairwise.nil
  | fuel + 1, h => by
      rw [StakeIndex.drawsFrom]
      split
      · exact List.Pairwise.nil
      · refine List.Pairwise.cons ?_ (drawsFrom_sorted fuel _)
        intro x hx
        have := StakeIndex.mem_drawsFrom hx
        have hpos : 0 < drawInterval := by decide
        omega

/-! ## What the scans find -/

variable {idx : StakeIndex} {tip : BlockNode}

/-- The draw has stake entries and no VDF result. -/
def NeedsVDF (idx : StakeIndex) (D : Nat) : Prop :=
  settled idx D = false ∧ idx.poolStakes D ≠ []

instance (idx : StakeIndex) (D : Nat) : Decidable (NeedsVDF idx D) :=
  inferInstanceAs (Decidable (_ ∧ _))

theorem nextPendingDraw_eq_some {draws : List Nat} (hsort : draws.Pairwise (· < ·)) :
    nextPendingDraw idx draws = some D ↔
      D ∈ draws ∧ NeedsVDF idx D ∧ ∀ x ∈ draws, NeedsVDF idx x → D ≤ x := by
  induction draws with
  | nil => simp [nextPendingDraw]
  | cons d draws ih =>
    obtain ⟨hd, hsort⟩ := pairwise_cons.mp hsort
    by_cases hneeds : NeedsVDF idx d
    · have hfound : nextPendingDraw idx (d :: draws) = some d := by
        simp [nextPendingDraw, hneeds.1, hneeds.2]
      rw [hfound, Option.some_inj]
      constructor
      · rintro rfl
        refine ⟨mem_cons_self, hneeds, ?_⟩
        intro x hx _
        rcases mem_cons.mp hx with rfl | hx
        · exact Nat.le_refl _
        · exact Nat.le_of_lt (hd x hx)
      · rintro ⟨hmem, _, hleast⟩
        rcases mem_cons.mp hmem with rfl | hmem
        · rfl
        · exact absurd (hd D hmem) (Nat.not_lt.mpr (hleast d mem_cons_self hneeds))
    · have hskip : nextPendingDraw idx (d :: draws) = nextPendingDraw idx draws := by
        rw [nextPendingDraw]
        split
        · rfl
        case isFalse hs =>
          rw [if_pos]
          by_contra hstakes
          exact hneeds ⟨by simpa using hs, hstakes⟩
      rw [hskip, ih hsort]
      constructor
      · rintro ⟨hmem, hD, hleast⟩
        refine ⟨mem_cons_of_mem _ hmem, hD, ?_⟩
        intro x hx hxn
        rcases mem_cons.mp hx with rfl | hx
        · exact absurd hxn hneeds
        · exact hleast x hx hxn
      · rintro ⟨hmem, hD, hleast⟩
        rcases mem_cons.mp hmem with rfl | hmem
        · exact absurd hD hneeds
        · exact ⟨hmem, hD, fun x hx => hleast x (mem_cons_of_mem _ hx)⟩

/-- The backward loop finds a height of a decreasing list that needs a VDF and
has no settled height and no height with stakes before it. -/
theorem lastPendingDraw_eq_some {draws : List Nat} (hsort : draws.Pairwise (· > ·)) :
    lastPendingDraw idx draws = some D ↔ D ∈ draws ∧ NeedsVDF idx D ∧
        ∀ x ∈ draws, D < x → settled idx x = false ∧ idx.poolStakes x = [] := by
  induction draws with
  | nil => simp [lastPendingDraw]
  | cons d draws ih =>
    obtain ⟨hd, hsort⟩ := pairwise_cons.mp hsort
    rw [lastPendingDraw]
    by_cases hs : settled idx d = true
    · rw [if_pos hs]
      constructor
      · intro h
        cases h
      · rintro ⟨hmem, hD, habove⟩
        rcases mem_cons.mp hmem with rfl | hmem
        · exact absurd hs (Bool.eq_false_iff.mp hD.1)
        · exact absurd hs (Bool.eq_false_iff.mp (habove d mem_cons_self (hd D hmem)).1)
    · rw [if_neg hs]
      have hs' : settled idx d = false := by simpa using hs
      by_cases hstakes : idx.poolStakes d = []
      · rw [if_pos hstakes, ih hsort]
        constructor
        · rintro ⟨hmem, hD, habove⟩
          refine ⟨mem_cons_of_mem _ hmem, hD, ?_⟩
          intro x hx hlt
          rcases mem_cons.mp hx with rfl | hx
          · exact ⟨hs', hstakes⟩
          · exact habove x hx hlt
        · rintro ⟨hmem, hD, habove⟩
          rcases mem_cons.mp hmem with rfl | hmem
          · exact absurd hstakes hD.2
          · exact ⟨hmem, hD, fun x hx => habove x (mem_cons_of_mem _ hx)⟩
      · rw [if_neg hstakes, Option.some_inj]
        constructor
        · rintro rfl
          refine ⟨mem_cons_self, ⟨hs', hstakes⟩, ?_⟩
          intro x hx hlt
          rcases mem_cons.mp hx with rfl | hx
          · exact absurd hlt (Nat.lt_irrefl _)
          · exact absurd hlt (Nat.lt_asymm (hd x hx))
        · rintro ⟨hmem, hD, habove⟩
          rcases mem_cons.mp hmem with rfl | hmem
          · rfl
          · exact absurd (habove d mem_cons_self (hd D hmem)).2 hstakes

theorem exists_blockHashByHeight {h : Nat} (hle : h ≤ tip.height) :
    ∃ hash, blockHashByHeight tip h = some hash := by
  have hrange : ¬ ((h : Int) < 0 ∨ (tip.height : Int) < h) := by omega
  rw [blockHashByHeight, BlockNode.ancestor, if_neg hrange, Int.toNat_natCast]
  cases hdrop : tip.chain.drop (tip.height - h) with
  | nil =>
    have hlen : tip.chain.length = tip.height + 1 := rfl
    have := drop_eq_nil_iff.mp hdrop
    omega
  | cons i is => exact ⟨i.hash, rfl⟩

/-- A draw at or below the best height has stake entries and no VDF result. -/
structure UnsettledDraw (idx : StakeIndex) (bestHeight D : Nat) : Prop where
  draw  : isDrawBlock D = true
  mined : D ≤ bestHeight
  needs : NeedsVDF idx D

instance (idx : StakeIndex) (bestHeight D : Nat) : Decidable (UnsettledDraw idx bestHeight D) :=
  decidable_of_iff (isDrawBlock D = true ∧ D ≤ bestHeight ∧ NeedsVDF idx D)
    ⟨fun h => ⟨h.1, h.2.1, h.2.2⟩, fun h => ⟨h.draw, h.mined, h.needs⟩⟩

theorem startNextPendingVDF_least_iff {after : Nat} (hex : ∃ D, UnsettledDraw idx tip.height D) :
    (∃ D hash, startNextPendingVDF idx tip after = some (D, hash) ∧
        IsLeast {D | UnsettledDraw idx tip.height D} D) ↔
      drawInterval ∣ after ∧ ∀ D, UnsettledDraw idx tip.height D → after < D := by
  constructor
  · rintro ⟨D, hash, hstart, hD, hleast⟩
    obtain ⟨dh, hnext, hmap⟩ := Option.bind_eq_some_iff.mp hstart
    obtain ⟨_, _, heq⟩ := Option.map_eq_some_iff.mp hmap
    obtain rfl : dh = D := congrArg Prod.fst heq
    obtain ⟨hlt, _, hdvd⟩ :=
      mem_drawsAfter.mp ((nextPendingDraw_eq_some (drawsAfter_sorted _ _)).mp hnext).1
    have hdraw := (isDrawBlock_iff.mp hD.draw).2
    refine ⟨?_, fun x hx => Nat.lt_of_lt_of_le hlt (hleast hx)⟩
    unfold drawInterval at *
    omega
  · rintro ⟨hdvd, hafter⟩
    obtain ⟨D, hD, hleast⟩ : ∃ D, UnsettledDraw idx tip.height D ∧
        ∀ x, UnsettledDraw idx tip.height x → D ≤ x := by
      classical
      exact ⟨Nat.find hex, Nat.find_spec hex, fun x hx => Nat.find_min' hex hx⟩
    have hvisit : ∀ x, x ∈ drawsAfter after tip.height ∧ NeedsVDF idx x ↔
        UnsettledDraw idx tip.height x := by
      intro x
      rw [mem_drawsAfter]
      constructor
      · rintro ⟨⟨hlt, hle, hx⟩, hn⟩
        refine ⟨isDrawBlock_iff.mpr ⟨by omega, ?_⟩, hle, hn⟩
        unfold drawInterval at *
        omega
      · intro hx
        have hlt := hafter x hx
        have := (isDrawBlock_iff.mp hx.draw).2
        refine ⟨⟨hlt, hx.mined, ?_⟩, hx.needs⟩
        unfold drawInterval at *
        omega
    obtain ⟨hash, hhash⟩ := exists_blockHashByHeight hD.mined
    refine ⟨D, hash, ?_, hD, fun x hx => hleast x hx⟩
    have hnext : nextPendingDraw idx (drawsAfter after tip.height) = some D := by
      refine (nextPendingDraw_eq_some (drawsAfter_sorted _ _)).mpr
        ⟨((hvisit D).mpr hD).1, hD.needs, ?_⟩
      intro x hx hn
      exact hleast x ((hvisit x).mp ⟨hx, hn⟩)
    rw [startNextPendingVDF, hnext, Option.bind_some, hhash, Option.map_some]

theorem resumeVDF_iff (hex : ∃ D, UnsettledDraw idx tip.height D) :
    (∃ D hash, resumeVDF idx tip = some (D, hash) ∧ UnsettledDraw idx tip.height D) ↔
      ∀ S : Nat, isDrawBlock S = true → S ≤ tip.height → settled idx S = true →
        ∃ D, UnsettledDraw idx tip.height D ∧ S < D := by
  constructor
  · rintro ⟨D, hash, hstart, hD⟩ S hS hle hset
    obtain ⟨dh, hlast, hmap⟩ := Option.bind_eq_some_iff.mp hstart
    obtain ⟨_, _, heq⟩ := Option.map_eq_some_iff.mp hmap
    obtain rfl : dh = D := congrArg Prod.fst heq
    obtain ⟨_, _, habove⟩ := (lastPendingDraw_eq_some (drawsFrom_sorted _ _)).mp hlast
    refine ⟨dh, hD, ?_⟩
    -- a settled draw above would have ended the scan, and `dh` itself is not settled
    by_contra hnot
    rcases Nat.eq_or_lt_of_le (Nat.not_lt.mp hnot) with rfl | hlt
    · exact absurd hset (Bool.eq_false_iff.mp hD.needs.1)
    · exact absurd hset
        (Bool.eq_false_iff.mp (habove S (mem_drawsBack.mpr ⟨hS, hle⟩) hlt).1)
  · intro hcover
    obtain ⟨D, hD, hgreatest⟩ : ∃ D, UnsettledDraw idx tip.height D ∧
        ∀ x, UnsettledDraw idx tip.height x → x ≤ D := by
      classical
      obtain ⟨D₀, hD₀⟩ := hex
      refine ⟨Nat.findGreatest (UnsettledDraw idx tip.height) tip.height,
        Nat.findGreatest_spec hD₀.mined hD₀, fun x hx => Nat.le_findGreatest hx.mined hx⟩
    obtain ⟨hash, hhash⟩ := exists_blockHashByHeight hD.mined
    refine ⟨D, hash, ?_, hD⟩
    have hlast : lastPendingDraw idx (drawsBack tip.height) = some D := by
      refine (lastPendingDraw_eq_some (drawsFrom_sorted _ _)).mpr
        ⟨mem_drawsBack.mpr ⟨hD.draw, hD.mined⟩, hD.needs, ?_⟩
      intro x hx hlt
      obtain ⟨hdraw, hle⟩ := mem_drawsBack.mp hx
      have hs : settled idx x = false := by
        by_contra hset
        obtain ⟨D', hD', hlt'⟩ := hcover x hdraw hle (by simpa using hset)
        exact absurd (hgreatest D' hD') (by omega)
      refine ⟨hs, ?_⟩
      by_contra hstakes
      exact absurd (hgreatest x ⟨hdraw, hle, hs, hstakes⟩) (Nat.not_le.mpr hlt)
    rw [resumeVDF, hlast, Option.bind_some, hhash, Option.map_some]

/-- When some draw at or below the best height has stakes and no result, the
scan after a settling block starts the oldest one and the resume scan starts
one, exactly when the settling block's height is itself a multiple of 36 below
all such draws and every settled draw has one of them above it. -/
theorem unsettled_draw_computed_iff (idx : StakeIndex) (tip : BlockNode) (settlingHeight : Nat)
    (hex : ∃ D, UnsettledDraw idx tip.height D) :
    ((∃ D hash, startNextPendingVDF idx tip settlingHeight = some (D, hash) ∧
        IsLeast {D | UnsettledDraw idx tip.height D} D) ∧
      ∃ D hash, resumeVDF idx tip = some (D, hash) ∧ UnsettledDraw idx tip.height D) ↔
    (drawInterval ∣ settlingHeight ∧ ∀ D, UnsettledDraw idx tip.height D → settlingHeight < D) ∧
      ∀ S : Nat, isDrawBlock S = true → S ≤ tip.height → settled idx S = true →
        ∃ D, UnsettledDraw idx tip.height D ∧ S < D :=
  and_congr (startNextPendingVDF_least_iff hex) (resumeVDF_iff hex)

def draw108Index : StakeIndex := StakeIndex.empty.connectStake 1 (stakeFrom 0 200000000 108)

/-- Draw 108 is computed when the scan is called with draw height 72. -/
theorem draw_108_computed_after_72 :
    (∃ D, UnsettledDraw draw108Index (regularNode 108).height D) ∧
    (∃ D hash, startNextPendingVDF draw108Index (regularNode 108) 72 = some (D, hash) ∧
        IsLeast {D | UnsettledDraw draw108Index (regularNode 108).height D} D) ∧
      ∃ D hash, resumeVDF draw108Index (regularNode 108) = some (D, hash) ∧
        UnsettledDraw draw108Index (regularNode 108).height D := by
  have hheight : (regularNode 108).height = 108 := by decide +kernel
  have hex : ∃ D, UnsettledDraw draw108Index (regularNode 108).height D :=
    ⟨108, by decide +kernel⟩
  refine ⟨hex, (unsettled_draw_computed_iff _ _ 72 hex).mpr ⟨⟨by decide, ?_⟩, ?_⟩⟩
  · intro D hD
    have hall : ∀ D < 109, UnsettledDraw draw108Index 108 D → 72 < D := by decide +kernel
    rw [hheight] at hD
    exact hall D (Nat.lt_succ_of_le hD.mined) hD
  · intro S _ hle hset
    have hall : ∀ S < 109, settled draw108Index S = false := by decide +kernel
    rw [hheight] at hle
    exact absurd hset (Bool.eq_false_iff.mp (hall S (Nat.lt_succ_of_le hle)))

set_option maxRecDepth 4000 in
/-- Draws 108 and 180 have stakes and draw 180 is settled first, by block 181.
Neither the scan after that block nor the resume scan starts draw 108. -/
theorem draw_108_forgotten :
    ∃ s, runBlocks youngMainNet (genesisState (lateInfo 0)) outOfOrderRun.dropLast = .ok s ∧
      s.tip.height = 181 ∧ UnsettledDraw s.idx s.tip.height 108 ∧
      startNextPendingVDF s.idx s.tip s.tip.height = none ∧ resumeVDF s.idx s.tip = none := by
  decide +kernel

/-! ## The records of the chain -/

/-- No draw is settled twice on the chain. -/
def SettledOnce : List Block → Prop
  | [] => True
  | b :: bs => (∀ d ∈ blockResults b, ¬ SettledBelow bs d.drawHeight) ∧ SettledOnce bs

instance : ∀ bs, Decidable (SettledOnce bs)
  | [] => inferInstanceAs (Decidable True)
  | _ :: bs =>
      have := instDecidableSettledOnce bs
      inferInstanceAs (Decidable (_ ∧ _))

theorem settledBelow_cons {b : Block} {bs : List Block} :
    SettledBelow (b :: bs) D ↔ (∃ d ∈ blockResults b, d.drawHeight = D) ∨ SettledBelow bs D := by
  simp [SettledBelow]

theorem blockContainsVDFResult_of_result {b : Block} {d : VDFResultData}
    (h : d ∈ blockResults b) : blockContainsVDFResult b = true := by
  obtain ⟨tx, htx, hd⟩ := mem_filterMap.mp h
  refine any_eq_true.mpr ⟨tx, htx, ?_⟩
  by_contra hversion
  simp [resultData, isVDFResultTx, hversion] at hd

/-- The records are those of the draws the chain settles. -/
def RecordsMatch (idx : StakeIndex) (chain : List Block) : Prop :=
  ∀ D, settled idx D = true ↔ SettledBelow chain D

theorem RecordsMatch.connect {chain : List Block} (h : RecordsMatch idx chain) (b : Block) :
    RecordsMatch (idx.connectBlock b) (b :: chain) := by
  intro D
  rw [settled, StakeIndex.connectBlock_vdfResults_get, settledBelow_cons, ← h D, settled]
  cases hfind : (blockResults b).reverse.find? fun d => d.drawHeight = D with
  | none =>
    have hnone : ¬ ∃ d ∈ blockResults b, d.drawHeight = D := by
      rintro ⟨d, hd, hD⟩
      have := List.find?_eq_none.mp hfind d (mem_reverse.mpr hd)
      simp [hD] at this
    simp [hnone]
  | some d =>
    have hd : ∃ d ∈ blockResults b, d.drawHeight = D :=
      ⟨d, mem_reverse.mp (mem_of_find?_eq_some hfind),
        by simpa using find?_some hfind⟩
    simp [hd]

theorem get_deleteAll {b : Bucket Nat VDFRecord} {ds : List VDFResultData} :
    (ds.foldl (fun b d => b.delete d.drawHeight) b).get D =
      if ∃ d ∈ ds, d.drawHeight = D then none else b.get D := by
  induction ds generalizing b with
  | nil => simp
  | cons d ds ih =>
    rw [foldl_cons, ih, Bucket.get_delete]
    by_cases hds : ∃ d ∈ ds, d.drawHeight = D
    · have hcons : ∃ d' ∈ d :: ds, d'.drawHeight = D :=
        hds.imp fun _ h => ⟨mem_cons_of_mem _ h.1, h.2⟩
      rw [if_pos hds, if_pos hcons]
    · rw [if_neg hds]
      by_cases hd : d.drawHeight = D
      · rw [if_pos hd.symm, if_pos ⟨d, mem_cons_self, hd⟩]
      · rw [if_neg (Ne.symm hd), if_neg]
        rintro ⟨d', hd', hD⟩
        rcases mem_cons.mp hd' with rfl | hd'
        · exact hd hD
        · exact hds ⟨d', hd', hD⟩

theorem RecordsMatch.disconnect {chain : List Block} {b : Block}
    (h : RecordsMatch idx (b :: chain)) (honce : SettledOnce (b :: chain)) :
    RecordsMatch (idx.disconnectBlock b) chain := by
  intro D
  rw [settled, StakeIndex.disconnectBlock_vdfResults, get_deleteAll]
  have hD := h D
  rw [settledBelow_cons, settled] at hD
  by_cases hb : ∃ d ∈ blockResults b, d.drawHeight = D
  · rw [if_pos hb]
    obtain ⟨d, hd, rfl⟩ := hb
    simpa using honce.1 d hd
  · rw [if_neg hb, hD]
    exact or_iff_right hb

/-! ## Steps of the threads -/

namespace VdfThread

/-- The block of a `connectBlock` that has committed and has yet to reach the
place where the pending result is cleared. -/
def uncleared : VdfThread → Option Block
  | setTip _ block => some block
  | setSnapshot _ block => some block
  | fetchDrawStakes _ block => some block
  | clearPending _ block => some block
  | launch _ _ caller => caller.map Prod.snd
  | _ => none

/-- The thread will still clear the pending result. -/
def WillClear (t : VdfThread) : Prop := ∃ b ∈ t.uncleared, blockContainsVDFResult b = true

theorem step_cases (s : VdfShared) (t : VdfThread) :
    (t.step s).1.chain = s.chain ∧ (t.step s).1.idx = s.idx ∧
      ((t.step s).1.pendingVDF = s.pendingVDF ∧ (t.WillClear → ∃ t' ∈ (t.step s).2, t'.WillClear) ∨
        (t.step s).1.pendingVDF = none ∨
        ∃ r, t = publish r ∧ (t.step s).1.pendingVDF = some r) := by
  have hidle : ∀ {t : VdfThread} {ts : List VdfThread}, t.uncleared = none →
      (t.WillClear → ∃ t' ∈ ts, t'.WillClear) := by
    rintro t ts hnone ⟨b, hb, _⟩
    rw [hnone] at hb
    cases hb
  cases t
  case setTip | setSnapshot =>
    exact ⟨rfl, rfl, .inl ⟨rfl, fun h => ⟨_, mem_singleton_self _, h⟩⟩⟩
  case fetchDrawStakes =>
    simp only [step]
    split <;> exact ⟨rfl, rfl, .inl ⟨rfl, fun h => ⟨_, mem_singleton_self _, h⟩⟩⟩
  case clearPending =>
    simp only [step]
    split
    case isTrue h => exact ⟨rfl, rfl, .inr (.inl rfl)⟩
    case isFalse h =>
      refine ⟨rfl, rfl, .inl ⟨rfl, ?_⟩⟩
      rintro ⟨b, hb, hv⟩
      cases hb
      exact absurd hv h
  case unsetPending =>
    simp only [step]
    split
    · exact ⟨rfl, rfl, .inr (.inl rfl)⟩
    · exact ⟨rfl, rfl, .inl ⟨rfl, hidle rfl⟩⟩
  case cancelCurrent | launch => exact ⟨rfl, rfl, .inr (.inl rfl)⟩
  case publish r => exact ⟨rfl, rfl, .inr (.inr ⟨r, rfl, rfl⟩)⟩
  case unsetSnapshot | startNext | compute => exact ⟨rfl, rfl, .inl ⟨rfl, hidle rfl⟩⟩
  case scan draws | resume draws =>
    cases draws with
    | nil => exact ⟨rfl, rfl, .inl ⟨rfl, hidle rfl⟩⟩
    | cons dh dhs =>
      simp only [step]
      split <;> exact ⟨rfl, rfl, .inl ⟨rfl, hidle rfl⟩⟩
  case unsetTip | scanStakes | scanHash | readCurrent | recheckCurrent | resumeStakes | checkSettled |
      checkHash =>
    simp only [step]
    split <;> exact ⟨rfl, rfl, .inl ⟨rfl, hidle rfl⟩⟩

end VdfThread

/-! ## Whole runs -/

/-- What holds between any two steps: a pending result of a settled draw has a
thread that is about to clear it. -/
structure PendingInv (s : VdfNode) : Prop where
  once    : SettledOnce s.shared.chain
  records : RecordsMatch s.shared.idx s.shared.chain
  clears  : ∀ r, s.shared.pendingVDF = some r → SettledBelow s.shared.chain r.drawHeight →
    ∃ t ∈ s.threads, t.WillClear

/-- The state `New` leaves: the database of some chain, nothing pending, and the
resume scan about to run. -/
structure VdfBoot (s : VdfNode) : Prop where
  once    : SettledOnce s.shared.chain
  records : RecordsMatch s.shared.idx s.shared.chain
  idle    : s.shared.pendingVDF = none
  resumes : s.threads = [.resume (drawsBack s.shared.bestTip.height)]

def VdfThread.publishes : VdfThread → Option VDFResultData
  | publish r => some r
  | _ => none

/-- A result is published only while its draw is unsettled. -/
def PublishesUnsettled (s : VdfNode) : VdfAction → Prop
  | .run i => ∀ r ∈ s.threads[i]?.bind VdfThread.publishes,
      ¬ SettledBelow s.shared.chain r.drawHeight
  | _ => True

instance (s : VdfNode) : ∀ a, Decidable (PublishesUnsettled s a)
  | .run i => inferInstanceAs (Decidable (∀ r ∈ s.threads[i]?.bind VdfThread.publishes,
      ¬ SettledBelow s.shared.chain r.drawHeight))
  | .connect _ | .disconnect | .finish _ _ _ | .abort _ => inferInstanceAs (Decidable True)

theorem VdfBoot.inv (h : VdfBoot s) : PendingInv s := by
  refine ⟨h.once, h.records, ?_⟩
  intro r hr
  rw [h.idle] at hr
  cases hr

theorem mem_replace {i : Nat} {t' : VdfThread} {shared : VdfShared}
    {ts : List VdfThread} (hi : s.threads[i]? = some t) (ht' : t' ∈ s.threads) (hne : t' ≠ t) :
    t' ∈ (s.replace i shared ts).threads := by
  refine mem_append_left _ (mem_eraseIdx_iff_getElem?.mpr ?_)
  obtain ⟨j, hj⟩ := mem_iff_getElem?.mp ht'
  refine ⟨j, ?_, hj⟩
  rintro rfl
  rw [hi] at hj
  cases hj
  exact hne rfl

theorem PendingInv.replace_idle (h : PendingInv s) {i : Nat}
    (hi : s.threads[i]? = some t) (hidle : t.uncleared = none) (ts : List VdfThread) :
    PendingInv (s.replace i s.shared ts) := by
  refine ⟨h.once, h.records, ?_⟩
  intro r hr hset
  obtain ⟨t', ht', hclear⟩ := h.clears r hr hset
  refine ⟨t', mem_replace hi ht' ?_, hclear⟩
  rintro rfl
  obtain ⟨b, hb, _⟩ := hclear
  rw [hidle] at hb
  cases hb

theorem PendingInv.run (h : PendingInv s) {i : Nat} (hi : s.threads[i]? = some t)
    (hpub : ∀ r, t = .publish r → ¬ SettledBelow s.shared.chain r.drawHeight) :
    PendingInv (s.replace i (t.step s.shared).1 (t.step s.shared).2) := by
  obtain ⟨hchain, hidx, hpending⟩ := VdfThread.step_cases s.shared t
  have honce : SettledOnce (t.step s.shared).1.chain := hchain ▸ h.once
  have hrecords : RecordsMatch (t.step s.shared).1.idx (t.step s.shared).1.chain := by
    rw [hchain, hidx]
    exact h.records
  refine ⟨honce, hrecords, ?_⟩
  intro r hr hset
  simp only [VdfNode.replace, hchain] at hr hset
  rcases hpending with ⟨hsame, hkeeps⟩ | hnone | ⟨p, rfl, hp⟩
  · rw [hsame] at hr
    obtain ⟨t', ht', hclear⟩ := h.clears r hr hset
    by_cases hne : t' = t
    · subst hne
      obtain ⟨t'', ht'', hclear'⟩ := hkeeps hclear
      exact ⟨t'', mem_append_right _ ht'', hclear'⟩
    · exact ⟨t', mem_replace hi ht' hne, hclear⟩
  · rw [hnone] at hr
    cases hr
  · rw [hp] at hr
    cases hr
    exact absurd hset (hpub _ rfl)

theorem PendingInv.connect {s' : VdfNode} (h : PendingInv s) {block : Block}
    (hstep : s.step (.connect block) = some s') : PendingInv s' := by
  simp only [VdfNode.step] at hstep
  split at hstep
  case isFalse => cases hstep
  case isTrue hfresh =>
    cases hstep
    refine ⟨⟨hfresh, h.once⟩, h.records.connect block, ?_⟩
    intro r hr hset
    rcases settledBelow_cons.mp hset with ⟨d, hd, _⟩ | hset
    · -- the block that settles the draw is the one whose thread clears
      exact ⟨_, mem_append_right _ (mem_singleton_self _), block, rfl,
        blockContainsVDFResult_of_result hd⟩
    · obtain ⟨t, ht, hclear⟩ := h.clears r hr hset
      exact ⟨t, mem_append_left _ ht, hclear⟩

theorem PendingInv.disconnect {s' : VdfNode} (h : PendingInv s)
    (hstep : s.step .disconnect = some s') : PendingInv s' := by
  obtain ⟨honce, hrecords, hclears⟩ := h
  simp only [VdfNode.step] at hstep
  cases hchain : s.shared.chain with
  | nil =>
    rw [hchain] at hstep
    cases hstep
  | cons b bs =>
    rw [hchain] at hstep honce hrecords hclears
    cases hstep
    refine ⟨honce.2, hrecords.disconnect honce, ?_⟩
    intro r hr hset
    obtain ⟨t, ht, hclear⟩ := hclears r hr (settledBelow_cons.mpr (.inr hset))
    exact ⟨t, mem_append_left _ ht, hclear⟩

theorem PendingInv.step {s' : VdfNode} {a : VdfAction} (h : PendingInv s)
    (ha : PublishesUnsettled s a) (hstep : s.step a = some s') : PendingInv s' := by
  cases a with
  | connect block => exact h.connect hstep
  | disconnect => exact h.disconnect hstep
  | run i =>
    simp only [VdfNode.step] at hstep
    split at hstep
    · cases hstep
    case h_2 t hi =>
      cases hstep
      refine h.run hi ?_
      rintro r rfl
      exact ha r (by rw [hi]; rfl)
  | finish i T output =>
    simp only [VdfNode.step] at hstep
    split at hstep
    case h_1 hi =>
      cases hstep
      exact h.replace_idle hi rfl _
    · cases hstep
  | abort i =>
    simp only [VdfNode.step] at hstep
    split at hstep
    case h_1 hi =>
      split at hstep
      · cases hstep
        exact h.replace_idle hi rfl _
      · cases hstep
    · cases hstep

theorem recordsMatch_chainIndex : ∀ chain : List Block, RecordsMatch (chainIndex chain) chain
  | [] => by
      intro D
      simp [SettledBelow, settled, chainIndex, StakeIndex.empty]
  | b :: bs => (recordsMatch_chainIndex bs).connect b

/-- The node of block `h` of the chain with late settlements. -/
def lateNode (h : Nat) : BlockNode := ⟨lateInfo h, ((List.range h).map lateInfo).reverse⟩

/-- The node starts on the chain whose draw 108 has stakes and waits for its
result. -/
def draw108Node : VdfNode :=
  { shared :=
      { chain := stakedRun.reverse
        idx := chainIndex stakedRun.reverse
        bestTip := lateNode 108
        bestHeight := 108
        pendingVDF := none
        vdfCancel := none
        vdfCurrentHeight := 0
        cancelled := []
        started := 0
        submitterWalletHash := 5 }
    threads := [.resume (drawsBack (lateNode 108).height)] }

set_option maxRecDepth 4000 in
theorem draw108_boot : VdfBoot draw108Node :=
  ⟨by decide +kernel, recordsMatch_chainIndex _, rfl, rfl⟩

/-- The resume scan starts draw 108 and its worker gets as far as publishing. -/
def draw108Computed : List VdfAction :=
  [.run 0, .run 0, .run 0, .run 0, .finish 0 10 1, .run 0, .run 0]

end FalconDraw.Chain
