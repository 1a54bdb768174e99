/-
FalconDraw.Draw.SettlementTheorems — what an accepted settlement looks like.

`validateDrawSettlementTx_ok` fixes every output of an accepted settlement: the
marker, worth nothing, and on a jackpot the one output paying the pool to the
winner.
-/
import FalconDraw.Draw.PayloadTheorems
import FalconDraw.Draw.Settlement

namespace FalconDraw.Draw

open Lib Wire Chain

variable {tx : Tx} {txs : List Tx} {drawHeight : Nat} {pd : PoolDrawData}

/-- The outputs a settlement of this pool must have after its marker. -/
def winnerOutputs (pd : PoolDrawData) : List TxOut :=
  if pd.jackpotWon then [⟨pd.balance, makeWinnerP2WPKHScript pd.winnerWalletHash⟩] else []

theorem checkSettlementMarker_ok {msgTx : MsgTx}
    (h : checkSettlementMarker msgTx drawHeight = .ok ()) :
    ∃ marker outs, msgTx.txOut = marker :: outs ∧
      extractDrawSettlementMarker marker.pkScript = some drawHeight ∧ marker.value = 0 := by
  grind [checkSettlementMarker, bind_eq_ok, exists_unit, rejectIf_eq_ok]

theorem validatePoolDrawSettlementTx_ok {msgTx : MsgTx} {marker : TxOut} {outs : List TxOut}
    (houts : msgTx.txOut = marker :: outs) (h : validatePoolDrawSettlementTx msgTx pd = .ok ()) :
    outs = winnerOutputs pd ∧ (pd.jackpotWon = false → pd.balance ≠ 0) := by
  simp only [validatePoolDrawSettlementTx, bind_eq_ok, exists_unit, rejectIf_eq_ok] at h
  obtain ⟨hpool, hlen, hwin⟩ := h
  refine ⟨?_, fun hj hb => hpool ⟨hb, hj⟩⟩
  cases hj : pd.jackpotWon with
  | false =>
    have hnil : outs = [] := by simpa [hj, houts] using hlen
    simp [winnerOutputs, hj, hnil]
  | true =>
    have hone : outs.length = 1 := by simpa [hj, houts] using hlen
    obtain ⟨out, rfl⟩ := List.length_eq_one_iff.mp hone
    simp only [hj, if_pos, houts, List.getD_cons_succ, List.getD_cons_zero, checkWinnerOutput,
      bind_eq_ok, exists_unit, rejectIf_eq_ok, not_not] at hwin
    obtain ⟨hval, hscript⟩ := hwin
    simp [winnerOutputs, hj, ← hval, ← hscript]

theorem validateDrawSettlementTx_ok (h : validateDrawSettlementTx tx drawHeight pd = .ok ()) :
    ∃ marker, tx.msgTx.txOut = marker :: winnerOutputs pd ∧
      extractDrawSettlementMarker marker.pkScript = some drawHeight ∧ marker.value = 0 ∧
      (pd.jackpotWon = false → pd.balance ≠ 0) := by
  simp only [validateDrawSettlementTx, bind_eq_ok, exists_unit] at h
  obtain ⟨hmark, _, hpool⟩ := h
  obtain ⟨marker, outs, houts, hheight, hval⟩ := checkSettlementMarker_ok hmark
  obtain ⟨rfl, hbal⟩ := validatePoolDrawSettlementTx_ok houts hpool
  exact ⟨marker, houts, hheight, hval, hbal⟩

theorem validateDrawSettlementTx_build (hD : drawHeight < 2 ^ 32) (hbal : pd.balance ≠ 0)
    (id : Hash) :
    validateDrawSettlementTx ⟨id, buildPoolDrawSettlementTx drawHeight pd⟩ drawHeight pd
      = .ok () := by
  have hmark := extractDrawSettlementMarker_iff.mpr ⟨rfl, hD⟩
  have hsent := makePoolDrawSentinelInput_sentinel drawHeight
  obtain ⟨balance, jackpotWon, winner⟩ := pd
  simp only [validateDrawSettlementTx, checkSettlementMarker, buildPoolDrawSettlementTx, hmark,
    validatePoolDrawSettlementTx, bind_eq_ok, exists_unit, rejectIf_eq_ok]
  cases jackpotWon <;> simp [hsent, hbal, checkWinnerOutput]

theorem outputs_of_validated (h : validateDrawSettlementTx tx drawHeight pd = .ok ()) :
    tx.msgTx.txOut = (buildPoolDrawSettlementTx drawHeight pd).txOut := by
  obtain ⟨⟨value, pkScript⟩, houts, hmark, rfl, _⟩ := validateDrawSettlementTx_ok h
  obtain rfl : pkScript = makeDrawSettlementMarker drawHeight :=
    (extractDrawSettlementMarker_iff.mp hmark).1
  exact houts

theorem checkSettlementTxs_ok : ∀ {txs : List Tx} {i count n : Nat},
    checkSettlementTxs drawHeight pd i count txs = .ok n →
      (∀ tx ∈ txs, isDrawSettlementTx tx = true →
        validateDrawSettlementTx tx drawHeight pd = .ok ()) ∧
      n = count + txs.countP isDrawSettlementTx ∧ n ≤ max count 1
  | [], i, count, n, h => by
      obtain rfl : count = n := by simpa [checkSettlementTxs] using h
      exact ⟨by simp, by simp, by omega⟩
  | tx :: txs, i, count, n, h => by
      unfold checkSettlementTxs at h
      split at h
      case isTrue hs =>
        simp only [bind_eq_ok, exists_unit, rejectIf_eq_ok] at h
        obtain ⟨hcount, _, hvalid, hrest⟩ := h
        obtain ⟨hall, hn, hle⟩ := checkSettlementTxs_ok hrest
        refine ⟨?_, ?_, by omega⟩
        · grind
        · rw [hn, List.countP_cons_of_pos hs]
          omega
      case isFalse hs =>
        obtain ⟨hall, hn, hle⟩ := checkSettlementTxs_ok h
        refine ⟨?_, ?_, hle⟩
        · grind
        · rw [hn, List.countP_cons_of_neg hs]

theorem validateVDFDrawTxs_ok (h : validateVDFDrawTxs txs drawHeight pd = .ok ()) :
    (∀ tx ∈ txs, isDrawSettlementTx tx = true →
      validateDrawSettlementTx tx drawHeight pd = .ok ()) ∧
    txs.countP isDrawSettlementTx ≤ 1 ∧
    (0 < pd.balance → txs.countP isDrawSettlementTx = 1) := by
  simp only [validateVDFDrawTxs, bind_eq_ok, rejectIf_eq_ok, not_and] at h
  obtain ⟨n, hloop, hpool⟩ := h
  obtain ⟨hall, hn, hle⟩ := checkSettlementTxs_ok hloop
  refine ⟨hall, by omega, fun hb => ?_⟩
  have := hpool hb
  omega

end FalconDraw.Draw
