/-
FalconDraw.Draw.CodecTheorems — are the encodings of the draw exact?

Everything a recogniser accepts should be what its builder writes.
-/
import FalconDraw.Draw.PayloadTheorems
import FalconDraw.Draw.StakeIndex
import FalconDraw.Wire.CodecTheorems

namespace FalconDraw.Draw

open Lib Wire

/-- `FillBytes` panics when the output does not fit its 256 bytes. -/
def dbPutVDFResult (bucket : Bucket Bytes Bytes) (drawHeight : Nat) (settlementHeight : Int)
    (settlementBlockHash : Hash) (T output : Nat) : Option (Bucket Bytes Bytes) :=
  if output < 2 ^ 2048 then
    some (bucket.put (beBytes 4 drawHeight) (beBytes 4 (settlementHeight % 2 ^ 32).toNat ++
      (Hash.toBytes settlementBlockHash ++ (beBytes 8 T ++ beBytes 256 output))))
  else none

def dbGetVDFResult (bucket : Bucket Bytes Bytes) (drawHeight : Nat) : Option VDFRecord :=
  let val := (bucket.get (beBytes 4 drawHeight)).getD []
  if 300 ≤ val.length then
    some ⟨toInt32 (beNat (slice val 0 4)), some (Hash.ofBytes (slice val 4 36)),
      beNat (slice val 36 44), beNat (slice val 44 val.length)⟩
  else if 268 ≤ val.length then
    some ⟨toInt32 (beNat (slice val 0 4)), none, beNat (slice val 4 12),
      beNat (slice val 12 val.length)⟩
  else none

structure VDFResultData.Fits (d : VDFResultData) : Prop where
  drawHeight : d.drawHeight < 2 ^ 32
  T : d.T < 2 ^ 64
  vdfOutput : d.vdfOutput < 2 ^ 2048

/-- Every decoder takes exactly what its encoder writes, and gives it back. -/
structure PayloadsExact (script : Bytes) : Prop where
  stake : ∀ d, extractPoolStakingData script = .ok d ↔
    script = makePoolStakingScript d ∧ d.drawHeight < 2 ^ 32
  marker : ∀ D, extractDrawSettlementMarker script = some D ↔
    script = makeDrawSettlementMarker D ∧ D < 2 ^ 32
  result : ∀ tx out outs d, tx.msgTx.txOut = out :: outs → out.pkScript = script →
    (extractVDFResultData tx = .ok d ↔ script = buildVDFResultOpReturn d ∧ d.Fits)
  apart : ∀ D, extractDrawSettlementMarker script = some D →
    isPoolStakingOpReturn script = false ∧ ¬ IsVDFResultScript script
  record : ∀ bucket bucket' drawHeight settlementHeight hash T output,
    -2 ^ 31 ≤ settlementHeight → settlementHeight < 2 ^ 31 → T < 2 ^ 64 →
    dbPutVDFResult bucket drawHeight settlementHeight hash T output = some bucket' →
    dbGetVDFResult bucket' drawHeight = some ⟨settlementHeight, some hash, T, output⟩

theorem vdfResultFields_fits (script : Bytes) : (vdfResultFields script).Fits := by
  have hlt : ∀ i j k, j - i ≤ k → beNat (slice script i j) < 256 ^ k := fun i j k hk =>
    (beNat_lt _).trans_le (Nat.pow_le_pow_right (by decide) ((slice_length_le _ _ _).trans hk))
  have hout := hlt 52 308 256 (by decide)
  exact ⟨hlt 8 12 4 (by decide), hlt 44 52 8 (by decide),
    Nat.lt_of_lt_of_eq hout (Nat.pow_mul 2 8 256).symm⟩

theorem IsVDFResultScript.eq_build_iff {script : Bytes} (h : IsVDFResultScript script) :
    script = buildVDFResultOpReturn (vdfResultFields script) ↔ slice script 2 4 = [0x44, 0x01] := by
  have hfields := buildVDFResultOpReturn_fields h.length
  constructor
  · intro heq
    rw [heq, hfields]
    rfl
  · intro hlen
    rw [hfields]
    calc script = slice script 0 328 := (slice_zero h.length.le).symm
      _ = slice script 0 2 ++ slice script 2 4 ++ slice script 4 8 ++ slice script 8 328 := by
        simp only [slice_append_slice, Nat.reduceLeDiff]
      _ = _ := by
        rw [← head_eq_slice (by have := h.length; omega), h.op, h.push, hlen, h.magic]
        rfl

theorem dbGetVDFResult_put {bucket bucket' : Bucket Bytes Bytes} {drawHeight T output : Nat}
    {settlementHeight : Int} {hash : Hash} (hlo : -2 ^ 31 ≤ settlementHeight)
    (hhi : settlementHeight < 2 ^ 31) (hT : T < 2 ^ 64)
    (h : dbPutVDFResult bucket drawHeight settlementHeight hash T output = some bucket') :
    dbGetVDFResult bucket' drawHeight = some ⟨settlementHeight, some hash, T, output⟩ := by
  unfold dbPutVDFResult at h
  split at h
  case isFalse => cases h
  case isTrue hout =>
    obtain rfl := Option.some.inj h
    have hheight := toInt32_residue hlo hhi
    have h1 : beNat (beBytes 4 (settlementHeight % 2 ^ 32).toNat) = (settlementHeight % 2 ^ 32).toNat :=
      beNat_beBytes_of_lt (by omega)
    have h2 : beNat (beBytes 8 T) = T := beNat_beBytes_of_lt hT
    have h3 : beNat (beBytes 256 output) = output :=
      beNat_beBytes_of_lt (Nat.lt_of_lt_of_eq hout (Nat.pow_mul 2 8 256))
    simp only [dbGetVDFResult, Bucket.get_put_self, Option.getD_some, List.length_append,
      beBytes_length, Hash.toBytes_length, slice_append_right, slice_append_left, slice_zero, h1, h2,
      h3, hheight, Hash.ofBytes_toBytes, Nat.reduceAdd, Nat.reduceSub, Nat.reduceLeDiff,
      Nat.le_refl, if_true]

/-- The payload codecs are exact for a script unless it is a VDF result with another
push length. -/
theorem payloads_exact_iff (script : Bytes) :
    PayloadsExact script ↔ (IsVDFResultScript script → slice script 2 4 = [0x44, 0x01]) := by
  constructor
  · intro h hscript
    let tx : Tx := ⟨0, 7, [], [⟨0, script⟩], 0⟩
    have hok := (@extractVDFResultData_iff tx _ _ _ rfl).mpr ⟨hscript, rfl⟩
    exact hscript.eq_build_iff.mp ((h.result _ _ _ _ rfl rfl).mp hok).1
  · intro h
    refine ⟨fun d => extractPoolStakingData_iff, fun D => extractDrawSettlementMarker_iff, ?_, ?_,
      fun _ _ _ _ _ _ _ hlo hhi hT => dbGetVDFResult_put hlo hhi hT⟩
    · rintro tx out outs d htx rfl
      rw [extractVDFResultData_iff htx]
      constructor
      · rintro ⟨hscript, rfl⟩
        exact ⟨hscript.eq_build_iff.mpr (h hscript), vdfResultFields_fits _⟩
      · rintro ⟨heq, hdraw, hT, hout⟩
        rw [heq, vdfResultFields_build hdraw hT hout]
        exact ⟨isVDFResultScript_build d, rfl⟩
    · intro D hD
      obtain ⟨rfl, -⟩ := extractDrawSettlementMarker_iff.mp hD
      exact ⟨rfl, fun hscript => by simpa [makeDrawSettlementMarker] using hscript.length⟩

/-- The script of an empty VDF result with its push length set to zero. -/
def mislabelledScript : Bytes :=
  [0x6a, 0x4d, 0, 0, 0x46, 0x44, 0x52, 0x56] ++ List.replicate 320 0

theorem mislabelled_result_accepted :
    extractVDFResultData ⟨0, 7, [], [⟨0, mislabelledScript⟩], 0⟩ = .ok ⟨0, 0, 0, 0, 0⟩ ∧
      ∀ d, mislabelledScript ≠ buildVDFResultOpReturn d := by
  refine ⟨by decide +kernel, fun d h => ?_⟩
  have hbyte : (0 : UInt8) = 0x44 := congrArg (byteAt · 2) h
  exact absurd hbyte (by decide)

end FalconDraw.Draw
