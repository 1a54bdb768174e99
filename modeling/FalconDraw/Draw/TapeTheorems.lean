/-
FalconDraw.Draw.TapeTheorems — who wins a draw.

The binary search of `findWinner` returns the owner of the position on the tape of
the sorted stakes (`findWinner_owner`), so `RunDraw` picks the wallet that owns
the winning position, when that lies on the tape (`runDraw_winner`).
-/
import Mathlib.Data.Int.GCD
import Mathlib.Tactic.Linarith
import FalconDraw.Lib.Segments
import FalconDraw.Draw.Tape

namespace FalconDraw.Draw

open Lib Wire List

def stakeTape (stakes : List StakeEntry) : List (WalletHash × Nat) :=
  stakes.map fun s => (s.walletHash, s.tokenCount.toInt.toNat)

/-- Where the segment of stake `i` starts. -/
def tapeStart (stakes : List StakeEntry) (i : Nat) : Int :=
  sumInt ((stakes.take i).map StakeEntry.tokenCount)

def tokenTotal (stakes : List StakeEntry) : Int := sumInt (stakes.map StakeEntry.tokenCount)

section

variable {stakes : List StakeEntry}

theorem tapeStart_succ {i : Nat} {s : StakeEntry} (h : stakes[i]? = some s) :
    tapeStart stakes (i + 1) = tapeStart stakes i + s.tokenCount.toInt := by
  rw [tapeStart, take_add_one, h, Option.toList_some, map_append, sumInt_append]
  simp [tapeStart]

theorem tapeStart_length : tapeStart stakes stakes.length = tokenTotal stakes := by
  rw [tapeStart, take_length, tokenTotal]

variable (hpos : ∀ s ∈ stakes, 0 ≤ s.tokenCount.toInt)

include hpos

theorem tapeStart_mono {i j : Nat} (h : i ≤ j) : tapeStart stakes i ≤ tapeStart stakes j := by
  refine sumInt_le_of_sublist ((take_sublist_take_left h).map _) ?_
  intro y hy
  obtain ⟨s, hs, rfl⟩ := mem_map.mp hy
  exact hpos s (mem_of_mem_take hs)

theorem tapeStart_nonneg (i : Nat) : 0 ≤ tapeStart stakes i := tapeStart_mono hpos (Nat.zero_le i)

theorem tapeStart_le_total (i : Nat) : tapeStart stakes i ≤ tokenTotal stakes := by
  rw [← tapeStart_length]
  by_cases h : i ≤ stakes.length
  · exact tapeStart_mono hpos h
  · grind [tapeStart]

theorem tapeLength_stakeTape : (tapeLength (stakeTape stakes) : Int) = tokenTotal stakes := by
  induction stakes with
  | nil => rfl
  | cons s stakes ih => grind [tokenTotal, stakeTape, tapeLength_cons, sumInt_cons]

theorem ownerAt_stakeTape {i : Nat} {s : StakeEntry} (h : stakes[i]? = some s) {pos : Int}
    (hlo : tapeStart stakes i ≤ pos) (hhi : pos < tapeStart stakes (i + 1)) :
    ownerAt (stakeTape stakes) pos.toNat = some s.walletHash := by
  obtain ⟨hi, rfl⟩ := List.getElem?_eq_some_iff.mp h
  have hsplit : stakes = stakes.take i ++ stakes[i] :: stakes.drop (i + 1) := by
    rw [cons_getElem_drop_succ, take_append_drop]
  have hbefore : (tapeLength (stakeTape (stakes.take i)) : Int) = tapeStart stakes i :=
    tapeLength_stakeTape fun s hs => hpos s (mem_of_mem_take hs)
  have hs : 0 ≤ stakes[i].tokenCount.toInt := hpos _ (getElem_mem hi)
  have h0 := tapeStart_nonneg hpos i
  rw [tapeStart_succ h] at hhi
  refine ownerAt_eq_some.mpr ⟨stakeTape (stakes.take i), stakes[i].tokenCount.toInt.toNat,
    stakeTape (stakes.drop (i + 1)), ?_, by omega, by omega⟩
  refine (congrArg stakeTape hsplit).trans ?_
  rw [stakeTape, map_append, map_cons]
  rfl

end

/-! ## The cumulative list -/

theorem cumulativeFrom_getElem? : ∀ (stakes : List StakeEntry) (c : Int64) (i : Nat),
    (cumulativeFrom c stakes)[i]? = stakes[i]?.map fun s =>
      let start := ((stakes.take i).map StakeEntry.tokenCount).foldl (· + ·) c
      ⟨s.walletHash, s.totalValue, start, start + s.tokenCount⟩
  | [], c, i => by simp [cumulativeFrom]
  | s :: stakes, c, 0 => by simp [cumulativeFrom]
  | s :: stakes, c, i + 1 => by
      rw [cumulativeFrom, getElem?_cons_succ, cumulativeFrom_getElem?]
      simp

theorem length_cumulativeFrom : ∀ (stakes : List StakeEntry) (c : Int64),
    (cumulativeFrom c stakes).length = stakes.length
  | [], _ => rfl
  | _ :: stakes, _ => by rw [cumulativeFrom, length_cons, length_cumulativeFrom,
      length_cons]

theorem cumulative_entry {stakes : List StakeEntry} (hpos : ∀ s ∈ stakes, 0 ≤ s.tokenCount.toInt)
    (hfits : tokenTotal stakes < 2 ^ 63) {i : Nat} {e : CumulativeEntry}
    (h : (cumulativeFrom 0 stakes)[i]? = some e) :
    ∃ s, stakes[i]? = some s ∧ e.walletHash = s.walletHash ∧
      e.start.toInt = tapeStart stakes i ∧ e.stop.toInt = tapeStart stakes (i + 1) := by
  rw [cumulativeFrom_getElem?] at h
  obtain ⟨s, hs, rfl⟩ := Option.map_eq_some_iff.mp h
  have hstart : (((stakes.take i).map StakeEntry.tokenCount).foldl (· + ·) 0 : Int64).toInt =
      tapeStart stakes i := by
    have h0 := tapeStart_nonneg hpos i
    have h1 := tapeStart_le_total hpos i
    unfold tapeStart at h0 h1
    exact toInt_sum64_of_fits (by omega) (by omega)
  refine ⟨s, hs, rfl, hstart, ?_⟩
  have h0 := tapeStart_nonneg hpos (i + 1)
  have h1 := tapeStart_le_total hpos (i + 1)
  rw [tapeStart_succ hs] at h0 h1 ⊢
  show (_ + s.tokenCount).toInt = _
  rw [toInt_add_of_fits, hstart] <;> omega

/-! ## The search -/

theorem findWinnerLoop_spec {stakes : List StakeEntry}
    (hpos : ∀ s ∈ stakes, 0 ≤ s.tokenCount.toInt) (hfits : tokenTotal stakes < 2 ^ 63)
    {pos : Int64} : ∀ (fuel lo hi : Nat), hi ≤ stakes.length → hi < fuel + lo →
      tapeStart stakes lo ≤ pos.toInt → pos.toInt < tapeStart stakes hi →
      ∃ e i, findWinnerLoop (cumulativeFrom 0 stakes) pos fuel lo hi = some e ∧
        (cumulativeFrom 0 stakes)[i]? = some e ∧
        tapeStart stakes i ≤ pos.toInt ∧ pos.toInt < tapeStart stakes (i + 1)
  | 0, lo, hi, _, hfuel, hlo, hhi => by
      have := tapeStart_mono hpos (Nat.le_of_lt (show hi < lo by omega))
      omega
  | fuel + 1, lo, hi, hlen, hfuel, hlo, hhi => by
      have hlt : lo < hi := by
        by_contra hge
        have := tapeStart_mono hpos (Nat.not_lt.mp hge)
        omega
      have hmid : (lo + (hi - 1)) / 2 < (cumulativeFrom 0 stakes).length := by
        rw [length_cumulativeFrom]
        omega
      obtain ⟨e, he⟩ : ∃ e, (cumulativeFrom 0 stakes)[(lo + (hi - 1)) / 2]? = some e :=
        ⟨_, getElem?_eq_getElem hmid⟩
      obtain ⟨s, _, _, hstart, hstop⟩ := cumulative_entry hpos hfits he
      rw [findWinnerLoop, if_pos hlt]
      simp only [he]
      by_cases hleft : pos < e.start
      · rw [if_pos hleft]
        rw [Int64.lt_iff_toInt_lt, hstart] at hleft
        exact findWinnerLoop_spec hpos hfits fuel lo _ (by omega) (by omega) hlo hleft
      · rw [if_neg hleft]
        rw [Int64.lt_iff_toInt_lt, hstart] at hleft
        by_cases hright : e.stop ≤ pos
        · rw [if_pos hright]
          rw [Int64.le_iff_toInt_le, hstop] at hright
          exact findWinnerLoop_spec hpos hfits fuel _ hi hlen (by omega) hright hhi
        · rw [if_neg hright]
          rw [Int64.le_iff_toInt_le, hstop] at hright
          exact ⟨e, _, rfl, he, by omega, by omega⟩

theorem findWinner_owner {stakes : List StakeEntry} (hpos : ∀ s ∈ stakes, 0 ≤ s.tokenCount.toInt)
    (hfits : tokenTotal stakes < 2 ^ 63) {pos : Int64} (hlo : 0 ≤ pos.toInt)
    (hhi : pos.toInt < tokenTotal stakes) :
    ∃ e, findWinner (cumulativeFrom 0 stakes) pos = some e ∧
      ownerAt (stakeTape stakes) pos.toInt.toNat = some e.walletHash := by
  rw [← tapeStart_length] at hhi
  obtain ⟨e, i, hfind, he, hi, hi'⟩ := findWinnerLoop_spec hpos hfits
    (stakes.length + 1) 0 stakes.length le_rfl (by omega) hlo hhi
  obtain ⟨s, hs, hwallet, _⟩ := cumulative_entry hpos hfits he
  refine ⟨e, ?_, ?_⟩
  · rw [findWinner, length_cumulativeFrom]
    exact hfind
  · rw [hwallet]
    exact ownerAt_stakeTape hpos hs hi hi'

/-! ## The draw -/

/-- The wallet `RunDraw` returns as winner, if any. -/
def DrawResult.winner (r : DrawResult) : Option WalletHash :=
  r.winners.head?.map WinnerEntry.walletHash

def winningPos (stakes : List StakeEntry) (seed : Hash) : Int64 :=
  selectWinnerPos seed (sum64 (stakes.map StakeEntry.tokenCount) * winMultiplier)

theorem selectWinnerPos_nonneg (entropy : Hash) {total : Int64} (h : total ≠ 0) :
    0 ≤ (selectWinnerPos entropy total).toInt := by
  have hne : total.toInt ≠ 0 := fun h0 => h (Int64.toInt_inj.mp h0)
  have hlo : 0 ≤ (entropy.toNat : Int) % total.toInt := Int.emod_nonneg _ hne
  have hhi : (entropy.toNat : Int) % total.toInt < total.toInt.natAbs := Int.emod_lt _ hne
  have hmin := Int64.le_toInt total
  have hmax := Int64.toInt_lt total
  rw [selectWinnerPos, Int64.toInt_ofInt_of_le (by omega) (by omega)]
  exact hlo

theorem toInt_sum64_tokens {stakes : List StakeEntry} (hpos : 0 ≤ tokenTotal stakes)
    (hfits : tokenTotal stakes < 2 ^ 63) :
    (sum64 (stakes.map StakeEntry.tokenCount)).toInt = tokenTotal stakes :=
  toInt_sum64_of_fits (by unfold tokenTotal at hpos; omega) hfits

theorem extended_ne_zero {stakes : List StakeEntry} (hpos : 0 < tokenTotal stakes)
    (hfits : tokenTotal stakes < 2 ^ 63) :
    sum64 (stakes.map StakeEntry.tokenCount) * winMultiplier ≠ 0 := by
  intro h
  have htotal := toInt_sum64_tokens hpos.le hfits
  have h0 : (tokenTotal stakes * 10).bmod (2 ^ 64) = 0 := by
    have hten : winMultiplier.toInt = 10 := by decide
    rw [← htotal, ← hten, ← Int64.toInt_mul, h, Int64.toInt_zero]
  obtain ⟨k, hk⟩ := Int.dvd_of_bmod_eq_zero h0
  have hfive : (9223372036854775808 : Int) ∣ tokenTotal stakes * 5 := by
    grind
  have hdvd : (9223372036854775808 : Int) ∣ tokenTotal stakes :=
    Int.dvd_of_dvd_mul_left_of_gcd_one hfive (by decide)
  have hle := Int.le_of_dvd hpos hdvd
  clear h0 hk hfive
  omega

theorem sumInt_map_pos {stakes : List StakeEntry} (f : StakeEntry → Int64) (hne : stakes ≠ [])
    (hpos : ∀ s ∈ stakes, 0 < (f s).toInt) : 0 < sumInt (stakes.map f) := by
  refine sumInt_pos (by simpa using hne) ?_
  intro x hx
  obtain ⟨s, hs, rfl⟩ := mem_map.mp hx
  exact hpos s hs

theorem tokenTotal_pos {stakes : List StakeEntry} (hne : stakes ≠ [])
    (hpos : ∀ s ∈ stakes, 0 < s.tokenCount.toInt) : 0 < tokenTotal stakes :=
  sumInt_map_pos StakeEntry.tokenCount hne hpos

theorem tokenTotal_perm {stakes stakes' : List StakeEntry} (h : stakes.Perm stakes') :
    tokenTotal stakes = tokenTotal stakes' :=
  ((h.map StakeEntry.tokenCount).map Int64.toInt).sum_eq

/-- The result of a draw with a pool, by the owner of the winning position. -/
def drawOutcome (totalPool totalTokens winningPos : Int64) : Option WalletHash → DrawResult
  | none => { rollover := totalPool, totalTokens := totalTokens }
  | some w =>
      { jackpotWon := true, winners := [⟨w, totalPool⟩]
        winningPos := winningPos, totalTokens := totalTokens }

/-- `RunDraw` pays the pool to the owner of the winning position on the tape in
wallet order, and rolls it over when nobody owns that position. -/
theorem runDrawBy_eq (order : WalletSort) {stakes : List StakeEntry} (seed : Hash)
    (hpos : ∀ s ∈ realStakes stakes, 0 < s.tokenCount.toInt)
    (hfits : tokenTotal (realStakes stakes) < 2 ^ 63) :
    runDrawBy order stakes seed = if sum64 (stakes.map StakeEntry.totalValue) ≤ 0 then {}
      else if realStakes stakes = [] then { rollover := sum64 (stakes.map StakeEntry.totalValue) }
      else drawOutcome (sum64 (stakes.map StakeEntry.totalValue))
        (sum64 ((realStakes stakes).map StakeEntry.tokenCount)) (winningPos (realStakes stakes) seed)
        (ownerAt (stakeTape (order.sort (realStakes stakes)))
          (winningPos (realStakes stakes) seed).toInt.toNat) := by
  by_cases hnil : stakes = []
  · subst hnil
    rfl
  simp only [runDrawBy, if_neg hnil]
  split
  · rfl
  split
  · rfl
  case isFalse hreal =>
    have htotal_pos := tokenTotal_pos hreal hpos
    have htotal := toInt_sum64_tokens htotal_pos.le hfits
    have hposition : 0 ≤ (winningPos (realStakes stakes) seed).toInt :=
      selectWinnerPos_nonneg seed (extended_ne_zero htotal_pos hfits)
    have hperm := order.perm (realStakes stakes)
    have hsame := tokenTotal_perm hperm
    have hpos' : ∀ s ∈ order.sort (realStakes stakes), 0 ≤ s.tokenCount.toInt := fun s hs =>
      (hpos s (hperm.mem_iff.mp hs)).le
    rw [← winningPos]
    by_cases hout : sum64 ((realStakes stakes).map StakeEntry.tokenCount) ≤
        winningPos (realStakes stakes) seed
    · -- a position behind the last token belongs to nobody
      rw [if_pos hout]
      rw [Int64.le_iff_toInt_le, htotal] at hout
      have hnobody : ownerAt (stakeTape (order.sort (realStakes stakes)))
          (winningPos (realStakes stakes) seed).toInt.toNat = none := by
        have hlen := tapeLength_stakeTape hpos'
        exact ownerAt_eq_none.mpr (by omega)
      rw [hnobody, drawOutcome]
    · rw [if_neg hout]
      rw [Int64.le_iff_toInt_le, htotal] at hout
      obtain ⟨e, hfind, howner⟩ := findWinner_owner hpos' (by omega) hposition (by omega)
      rw [hfind, howner, drawOutcome]

instance : Std.Total fun a b : StakeEntry => a.walletHash ≤ b.walletHash where
  total a b := by
    simp only [BitVec.le_def]
    omega

instance : IsTrans StakeEntry fun a b => a.walletHash ≤ b.walletHash where
  trans a b c := by
    simp only [BitVec.le_def]
    omega

def stableSort : WalletSort where
  sort real := real.insertionSort fun a b => a.walletHash ≤ b.walletHash
  perm := perm_insertionSort _
  sorted := pairwise_insertionSort _

theorem runDraw_eq (stakes : List StakeEntry) (seed : Hash) :
    runDraw stakes seed = runDrawBy stableSort stakes seed := rfl

theorem realStakes_eq_self {stakes : List StakeEntry}
    (hreal : ∀ s ∈ stakes, s.walletHash ≠ jackpotPoolWalletHash) : realStakes stakes = stakes :=
  filter_eq_self.mpr fun s hs => by simpa using hreal s hs

theorem runDrawBy_winner (order : WalletSort) {stakes : List StakeEntry} {seed : Hash}
    {w : WalletHash} (hreal : ∀ s ∈ stakes, s.walletHash ≠ jackpotPoolWalletHash)
    (hpos : ∀ s ∈ stakes, 0 < s.tokenCount.toInt) (hfits : tokenTotal stakes < 2 ^ 63) :
    (runDrawBy order stakes seed).winner = some w ↔ 0 < sum64 (stakes.map StakeEntry.totalValue) ∧
        ownerAt (stakeTape (order.sort stakes)) (winningPos stakes seed).toInt.toNat = some w := by
  have hself := realStakes_eq_self hreal
  rw [runDrawBy_eq order seed (by rwa [hself]) (by rwa [hself]), hself]
  by_cases hpool : sum64 (stakes.map StakeEntry.totalValue) ≤ 0
  · grind [DrawResult.winner]
  · have hpool' := Int64.not_le.mp hpool
    simp only [if_neg hpool, hpool', true_and]
    by_cases hnil : stakes = []
    · subst hnil
      have hempty : order.sort [] = [] := (order.perm []).eq_nil
      simp [DrawResult.winner, hempty, stakeTape, ownerAt]
    · rw [if_neg hnil]
      cases ownerAt (stakeTape (order.sort stakes)) (winningPos stakes seed).toInt.toNat with
      | none => simp [DrawResult.winner, drawOutcome]
      | some w' => simp [DrawResult.winner, drawOutcome]

theorem runDraw_winner {stakes : List StakeEntry} {seed : Hash} {w : WalletHash}
    (hreal : ∀ s ∈ stakes, s.walletHash ≠ jackpotPoolWalletHash)
    (hpos : ∀ s ∈ stakes, 0 < s.tokenCount.toInt) (hfits : tokenTotal stakes < 2 ^ 63) :
    (runDraw stakes seed).winner = some w ↔ 0 < sum64 (stakes.map StakeEntry.totalValue) ∧
        ownerAt (stakeTape (stakes.insertionSort fun a b => a.walletHash ≤ b.walletHash))
          (winningPos stakes seed).toInt.toNat = some w := by
  rw [runDraw_eq]
  exact runDrawBy_winner stableSort hreal hpos hfits

end FalconDraw.Draw
