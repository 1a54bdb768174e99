/-
FalconDraw.Wire.PkScriptTheorems — do script locations point at the scripts?
(`PkScriptLocs` of wire/msgtx.go)

The locations are counted by a loop of their own, which adds the two bytes of
marker and flag when the witness of the first input is not nil.
-/
import FalconDraw.Wire.CodecTheorems

namespace FalconDraw.Wire

open Lib

/-- The output loop of `PkScriptLocs`. -/
def outputLocs : Nat → List TxOut → List Nat
  | _, [] => []
  | n, out :: outs =>
      let loc := n + 8 + varIntSerializeSize out.pkScript.length
      loc :: outputLocs (loc + out.pkScript.length) outs

/-- `PkScriptLocs`; `nilWitness` says that `TxIn[0].Witness` is nil. -/
def MsgTx.pkScriptLocs (msg : MsgTx) (nilWitness : Bool) : List Nat :=
  if msg.txOut.length = 0 then []
  else
    outputLocs (4 + varIntSerializeSize msg.txIn.length + varIntSerializeSize msg.txOut.length +
      (if 0 < msg.txIn.length ∧ nilWitness = false then 2 else 0) +
      (msg.txIn.map TxIn.serializeSize).sum) msg.txOut

/-- The bytes at the location of each output are its script. -/
def LocatesScripts (msg : MsgTx) (nilWitness : Bool) : Prop :=
  ∀ (i : Nat) (out : TxOut), msg.txOut[i]? = some out →
    ∃ loc, (msg.pkScriptLocs nilWitness)[i]? = some loc ∧
      slice (msg.btcEncode .witness) loc (loc + out.pkScript.length) = out.pkScript

theorem outputLocs_slices : ∀ (outs : List TxOut) (front rest : Bytes) (i : Nat) (out : TxOut),
    outs[i]? = some out → ∃ loc, (outputLocs front.length outs)[i]? = some loc ∧
      slice (front ++ (outs.flatMap writeTxOutBuf ++ rest)) loc (loc + out.pkScript.length) =
        out.pkScript
  | [], _, _, _, _, h => by simp at h
  | first :: outs, front, rest, 0, out, h => by
      obtain rfl : first = out := by simpa using h
      refine ⟨_, rfl, ?_⟩
      have hhead : (front ++ leBytes 8 first.value.toUInt64.toNat ++
          varInt first.pkScript.length).length =
          front.length + 8 + varIntSerializeSize first.pkScript.length := by
        simp [Nat.add_assoc]
      rw [← hhead]
      simp only [List.flatMap_cons, writeTxOutBuf, writeVarBytesBuf, ← List.append_assoc]
      rw [List.append_assoc _ first.pkScript, List.append_assoc _ (_ ++ _),
        slice_append_right (Nat.le_refl _), Nat.sub_self, Nat.add_sub_cancel_left]
      simp [slice_append_left]
  | first :: outs, front, rest, i + 1, out, h => by
      obtain ⟨loc, hloc, hslice⟩ := outputLocs_slices outs (front ++ writeTxOutBuf first) rest i out
        (by simpa using h)
      refine ⟨loc, ?_, by simpa using hslice⟩
      have hsize : (front ++ writeTxOutBuf first).length =
          front.length + 8 + varIntSerializeSize first.pkScript.length + first.pkScript.length := by
        simp [TxOut.serializeSize]
        omega
      rwa [hsize] at hloc

/-- What `PkScriptLocs` counts in front of the outputs, and what the encoder writes there. -/
theorem exists_front (msg : MsgTx) (txOut : List TxOut) (nilWitness : Bool) : ∃ front rest n,
    { msg with txOut }.btcEncode .witness = front ++ (txOut.flatMap writeTxOutBuf ++ rest) ∧
      (txOut ≠ [] → { msg with txOut }.pkScriptLocs nilWitness = outputLocs n txOut) ∧
      n + (if msg.hasWitness then 2 else 0) =
        front.length + if 0 < msg.txIn.length ∧ nilWitness = false then 2 else 0 := by
  have hin := length_flatMap_of_eq writeTxInBuf_length msg.txIn
  refine ⟨uint32Bytes msg.version ++ ((if msg.hasWitness then [UInt8.ofNat txFlagMarker, witnessFlag]
    else []) ++ (varInt msg.txIn.length ++ (msg.txIn.flatMap writeTxInBuf ++ varInt txOut.length))),
    (if msg.hasWitness then msg.txIn.flatMap fun ti => writeTxWitnessBuf ti.witness else []) ++
      uint32Bytes msg.lockTime, _, ?_, fun hne => if_neg (by simpa using hne), ?_⟩
  · simp only [MsgTx.btcEncode, List.append_assoc, true_and]
    rfl
  · simp only [List.length_append, uint32Bytes_length, varInt_length, hin]
    cases msg.hasWitness <;> simp <;> omega

/-- For given inputs the locations are right for all outputs exactly when the first
witness is not nil in a transaction with witness data, and nil in one without. -/
theorem script_locations_iff (msg : MsgTx) (nilWitness : Bool) :
    (∀ txOut, LocatesScripts { msg with txOut } nilWitness) ↔
      ((0 < msg.txIn.length ∧ nilWitness = false) ↔ msg.hasWitness = true) := by
  constructor
  · intro h
    -- a script that is told apart from what is two bytes before and behind it
    obtain ⟨front, rest, n, hbytes, hlocs, hn⟩ :=
      exists_front msg [⟨0, [1, 2, 3]⟩] nilWitness
    obtain ⟨loc, hloc, hslice⟩ := h [⟨0, [1, 2, 3]⟩] 0 ⟨0, [1, 2, 3]⟩ rfl
    rw [hlocs (by simp)] at hloc
    obtain rfl : n + 9 = loc := Option.some.inj hloc
    have hscript : [(⟨0, [1, 2, 3]⟩ : TxOut)].flatMap writeTxOutBuf =
        [0, 0, 0, 0, 0, 0, 0, 0, 3, 1, 2, 3] := by
      decide
    rw [hbytes, hscript] at hslice
    constructor
    · intro hcounted
      by_contra hplain
      rw [if_pos hcounted, if_neg hplain, Nat.add_zero] at hn
      rw [hn, slice_append_right (by omega)] at hslice
      simp [Nat.add_assoc, slice] at hslice
    · intro hwitness
      by_contra hmissed
      rw [if_neg hmissed, if_pos hwitness, Nat.add_zero front.length] at hn
      have hstart : n + 9 - front.length = 7 := by omega
      rw [slice_append_right (by omega), slice, hstart] at hslice
      simp [show n + 12 - front.length = 10 by omega] at hslice
  · intro hcond txOut i out hout
    obtain ⟨front, rest, n, hbytes, hlocs, hn⟩ := exists_front msg txOut nilWitness
    have hne : txOut ≠ [] := by
      rintro rfl
      simp at hout
    have hbase : n = front.length := by
      simp only [hcond] at hn
      exact Nat.add_right_cancel hn
    rw [hbytes, hlocs hne, hbase]
    exact outputLocs_slices txOut front rest i out hout

def mixedTx : MsgTx :=
  { version := 1
    txIn := [⟨⟨0, 0⟩, [], [], 0⟩, ⟨⟨0, 1⟩, [], [[1]], 0⟩]
    txOut := [⟨5, [1, 2, 3]⟩] }

/-- The location is two bytes in front of the script. -/
theorem mixed_script_missed : ∃ loc, mixedTx.pkScriptLocs true = [loc] ∧
    slice (mixedTx.btcEncode .witness) loc (loc + 3) = [0, 3, 1] := by
  exact ⟨_, rfl, by decide +kernel⟩

end FalconDraw.Wire
