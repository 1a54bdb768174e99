/-
FalconDraw.Draw.PayloadTheorems — the payloads read back what was written.

The builders and the recognisers agree for every value of the source's own types.
-/
import FalconDraw.Draw.Payload
import FalconDraw.Lib.Amount

namespace FalconDraw.Draw

open Lib Wire

theorem head_eq_slice {bs : Bytes} (h : 2 ≤ bs.length) :
    [byteAt bs 0, byteAt bs 1] = slice bs 0 2 := by
  rw [slice, drop_eq_byteAt_cons (by omega), drop_eq_byteAt_cons (by omega)]
  rfl

/-! ## Stakes -/

theorem makePoolStakingScript_fields {script : Bytes} (h : isPoolStakingOpReturn script = true) :
    makePoolStakingScript (poolStakingFields script) = script := by
  simp only [isPoolStakingOpReturn, Bool.and_eq_true, beq_iff_eq] at h
  obtain ⟨⟨hlen, h0⟩, h1⟩ := h
  have hwallet := WalletHash.toBytes_ofBytes (@slice_length script 2 22 (by omega))
  have hamount := beBytes_beNat_mod (@slice_length script 22 30 (by omega))
  have hheight := @beBytes_beNat_slice script 30 34 4 hlen.ge rfl
  have hbody : makePoolStakingScript (poolStakingFields script) =
      [0x6a, 0x20] ++ slice script 2 34 := by
    simp_all [makePoolStakingScript, poolStakingFields, slice_append_slice]
  rw [hbody, ← h0, ← h1, head_eq_slice (by omega), slice_append_slice (by decide) (by decide),
    slice_zero hlen.le]

theorem extractPoolStakingData_iff {script : Bytes} {d : PoolStakingData} :
    extractPoolStakingData script = .ok d ↔
      script = makePoolStakingScript d ∧ d.drawHeight < 2 ^ 32 := by
  constructor
  · intro h
    unfold extractPoolStakingData at h
    split at h
    case isFalse => cases h
    case isTrue hstake =>
      obtain rfl := Except.ok.inj h
      refine ⟨(makePoolStakingScript_fields hstake).symm, (beNat_lt _).trans_le ?_⟩
      exact Nat.pow_le_pow_right (by decide) (slice_length_le _ _ _)
  · rintro ⟨rfl, hlt⟩
    have hheight : beNat (beBytes 4 d.drawHeight) = d.drawHeight := beNat_beBytes_of_lt hlt
    have hamount : Int64.ofNat (beNat (beBytes 8 d.amount.toUInt64.toNat)) = d.amount := by
      rw [beNat_beBytes_of_lt d.amount.toUInt64.toNat_lt, ofNat_toUInt64]
    have hsplit : makePoolStakingScript d = [0x6a, 0x20] ++ (WalletHash.toBytes d.walletHash ++
        (beBytes 8 d.amount.toUInt64.toNat ++ beBytes 4 d.drawHeight)) := by
      simp [makePoolStakingScript]
    have hok : isPoolStakingOpReturn (makePoolStakingScript d) = true := by
      simp [isPoolStakingOpReturn, makePoolStakingScript, byteAt]
    rw [extractPoolStakingData, if_pos hok, poolStakingFields, hsplit]
    simp only [slice_append_right, slice_append_left, slice_zero, List.length_cons, List.length_nil,
      WalletHash.toBytes_length, beBytes_length, hheight, hamount, WalletHash.ofBytes_toBytes,
      Nat.reduceAdd, Nat.reduceSub, Nat.reduceLeDiff, Nat.le_refl]

/-! ## Settlements -/

theorem extractDrawSettlementMarker_iff {pkScript : Bytes} {D : Nat} :
    extractDrawSettlementMarker pkScript = some D ↔
      pkScript = makeDrawSettlementMarker D ∧ D < 2 ^ 32 := by
  constructor
  · intro h
    unfold extractDrawSettlementMarker at h
    split at h
    case isFalse => cases h
    case isTrue htests =>
      simp only [Bool.and_eq_true, beq_iff_eq] at htests
      obtain ⟨⟨⟨hlen, h0⟩, h1⟩, hmagic⟩ := htests
      obtain rfl := Option.some.inj h
      refine ⟨?_, (beNat_lt _).trans_le (Nat.pow_le_pow_right (by decide) (slice_length_le _ _ _))⟩
      calc pkScript = slice pkScript 0 10 := (slice_zero hlen.le).symm
        _ = slice pkScript 0 2 ++ slice pkScript 2 6 ++ slice pkScript 6 10 := by
          simp only [slice_append_slice, Nat.reduceLeDiff]
        _ = makeDrawSettlementMarker (beNat (slice pkScript 6 10)) := by
          rw [← head_eq_slice (by omega), h0, h1, hmagic, makeDrawSettlementMarker,
            beBytes_beNat_slice (k := 4) hlen.ge rfl]
          rfl
  · rintro ⟨rfl, hlt⟩
    have hheight : slice (makeDrawSettlementMarker D) 6 10 = beBytes 4 D := by
      rw [makeDrawSettlementMarker, slice_append_right (by decide)]
      exact slice_zero (beBytes_length 4 D).le
    have htests : (makeDrawSettlementMarker D).length = 10 := by simp [makeDrawSettlementMarker]
    rw [extractDrawSettlementMarker, hheight, htests, beNat_beBytes_of_lt hlt]
    rfl

theorem makePoolDrawSentinelInput_sentinel (D : Nat) :
    isPoolDrawSentinelInput (makePoolDrawSentinelInput D) = true := by
  have hbytes : Hash.toBytes (makePoolDrawSentinelInput D).previousOutPoint.hash =
      [0x46, 0x44, 0x52, 0x50] ++ beBytes 4 D ++ List.replicate 24 0 :=
    Hash.toBytes_ofBytes (by simp)
  rw [isPoolDrawSentinelInput, hbytes]
  rfl

/-! ## VDF results -/

theorem buildVDFResultOpReturn_length (d : VDFResultData) :
    (buildVDFResultOpReturn d).length = 328 := by
  simp [buildVDFResultOpReturn]

theorem vdfResultFields_build {d : VDFResultData} (hdraw : d.drawHeight < 2 ^ 32)
    (hT : d.T < 2 ^ 64) (hout : d.vdfOutput < 2 ^ 2048) :
    vdfResultFields (buildVDFResultOpReturn d) = d := by
  have h1 : beNat (beBytes 4 d.drawHeight) = d.drawHeight := beNat_beBytes_of_lt hdraw
  have h2 : beNat (beBytes 8 d.T) = d.T := beNat_beBytes_of_lt hT
  have h3 : beNat (beBytes 256 d.vdfOutput) = d.vdfOutput :=
    beNat_beBytes_of_lt (Nat.lt_of_lt_of_eq hout (Nat.pow_mul 2 8 256))
  simp only [vdfResultFields, buildVDFResultOpReturn, List.append_assoc, slice_append_right,
    slice_append_left, slice_zero, List.length_cons, List.length_nil, beBytes_length,
    Hash.toBytes_length, WalletHash.toBytes_length, h1, h2, h3, Hash.ofBytes_toBytes,
    WalletHash.ofBytes_toBytes, Nat.reduceAdd, Nat.reduceSub, Nat.reduceLeDiff, Nat.le_refl]

theorem buildVDFResultOpReturn_fields {script : Bytes} (hlen : script.length = 328) :
    buildVDFResultOpReturn (vdfResultFields script) =
      [0x6a, 0x4d, 0x44, 0x01, 0x46, 0x44, 0x52, 0x56] ++ slice script 8 328 := by
  have hcut : ∀ {i j k : Nat}, j ≤ 328 → j - i = k →
      beBytes k (beNat (slice script i j)) = slice script i j := fun hj hk =>
    beBytes_beNat_slice (hlen.symm ▸ hj) hk
  have hhash := Hash.toBytes_ofBytes (@slice_length script 12 44 (by omega))
  have hwallet := WalletHash.toBytes_ofBytes (@slice_length script 308 328 (by omega))
  simp only [buildVDFResultOpReturn, vdfResultFields, hcut, hhash, hwallet, List.append_assoc,
    slice_append_slice, Nat.reduceLeDiff, Nat.reduceSub]

/-- The tests that `ExtractVDFResultData` makes of a script. -/
structure IsVDFResultScript (script : Bytes) : Prop where
  length : script.length = 328
  op : byteAt script 0 = 0x6a
  push : byteAt script 1 = 0x4d
  magic : slice script 4 8 = [0x46, 0x44, 0x52, 0x56]

theorem isVDFResultScript_build (d : VDFResultData) : IsVDFResultScript (buildVDFResultOpReturn d) := by
  refine ⟨buildVDFResultOpReturn_length d, rfl, rfl, ?_⟩
  simp only [buildVDFResultOpReturn, List.append_assoc]
  rfl

theorem extractVDFResultData_iff {tx : Tx} {out : TxOut} {outs : List TxOut} {d : VDFResultData}
    (h : tx.msgTx.txOut = out :: outs) : extractVDFResultData tx = .ok d ↔
      IsVDFResultScript out.pkScript ∧ d = vdfResultFields out.pkScript := by
  rw [extractVDFResultData, h]
  constructor
  · intro hok
    simp only at hok
    split at hok
    · cases hok
    split at hok
    · cases hok
    split at hok
    · cases hok
    · exact ⟨⟨by omega, by grind, by grind, by grind⟩, (Except.ok.inj hok).symm⟩
  · rintro ⟨⟨hlen, h0, h1, hmagic⟩, rfl⟩
    simp [hlen, h0, h1, hmagic]

theorem extractVDFResultData_build {d : VDFResultData} (hdraw : d.drawHeight < 2 ^ 32)
    (hT : d.T < 2 ^ 64) (hout : d.vdfOutput < 2 ^ 2048) (id : Hash) :
    extractVDFResultData ⟨id, buildVDFResultTx d⟩ = .ok d := by
  exact (extractVDFResultData_iff rfl).mpr ⟨isVDFResultScript_build d,
    (vdfResultFields_build hdraw hT hout).symm⟩

end FalconDraw.Draw
