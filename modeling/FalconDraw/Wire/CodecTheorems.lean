/-
FalconDraw.Wire.CodecTheorems — what is written has the size that was computed
for it, and is read back.

Each decoder is proved against its encoder with the rules of `Reads`.
-/
import FalconDraw.Wire.Codec
import FalconDraw.Lib.Amount
import Mathlib.Data.Nat.Cast.Basic
import Mathlib.Algebra.Order.Group.Nat

namespace FalconDraw.Wire

open Lib List

/-! ## Sizes -/

@[simp] theorem varInt_length (n : Nat) : (varInt n).length = varIntSerializeSize n := by
  unfold varInt varIntSerializeSize
  split
  · rw [leBytes_length]
  · grind [leBytes_length]

theorem varIntSerializeSize_pos (n : Nat) : 0 < varIntSerializeSize n := by
  grind [varIntSerializeSize]

@[simp] theorem uint32Bytes_length (n : Int) : (uint32Bytes n).length = 4 := leBytes_length _ _

@[simp] theorem writeVarBytesBuf_length (bs : Bytes) :
    (writeVarBytesBuf bs).length = varIntSerializeSize bs.length + bs.length := by
  rw [writeVarBytesBuf, length_append, varInt_length]

@[simp] theorem writeTxInBuf_length (ti : TxIn) : (writeTxInBuf ti).length = ti.serializeSize := by
  simp only [writeTxInBuf, writeOutPointBuf, TxIn.serializeSize, length_append,
    Hash.toBytes_length, uint32Bytes_length, writeVarBytesBuf_length]
  omega

@[simp] theorem writeTxOutBuf_length (out : TxOut) :
    (writeTxOutBuf out).length = out.serializeSize := by
  simp only [writeTxOutBuf, TxOut.serializeSize, length_append, leBytes_length,
    writeVarBytesBuf_length]
  omega

@[simp] theorem writeTxWitnessBuf_length (wit : List Bytes) :
    (writeTxWitnessBuf wit).length = witnessSerializeSize wit := by
  simp only [writeTxWitnessBuf, witnessSerializeSize, length_append, varInt_length,
    length_flatMap, writeVarBytesBuf_length]

theorem length_flatMap_of_eq {α : Type} {enc : α → Bytes} {size : α → Nat}
    (h : ∀ a, (enc a).length = size a) (as : List α) :
    (as.flatMap enc).length = (as.map size).sum := by
  rw [length_flatMap]
  exact congrArg List.sum (map_congr_left fun a _ => h a)

@[simp] theorem MsgTx.btcEncode_length (m : MsgTx) :
    (m.btcEncode .witness).length = m.serializeSize := by
  have hin := length_flatMap_of_eq writeTxInBuf_length m.txIn
  have hout := length_flatMap_of_eq writeTxOutBuf_length m.txOut
  have hwit := length_flatMap_of_eq (fun ti : TxIn => writeTxWitnessBuf_length ti.witness) m.txIn
  simp only [MsgTx.btcEncode, MsgTx.serializeSize, MsgTx.baseSize, length_append,
    uint32Bytes_length, varInt_length, hin, hout, true_and]
  cases m.hasWitness with
  | false =>
    simp only [Bool.false_eq_true, if_false, length_nil]
    omega
  | true =>
    simp only [if_true, length_cons, length_nil, hwit]
    omega

theorem writeBlockHeaderBuf_length (bh : FullBlockHeader) :
    (writeBlockHeaderBuf bh).length = blockHeaderLen := by
  simp only [writeBlockHeaderBuf, length_append, uint32Bytes_length, Hash.toBytes_length,
    blockHeaderLen]

theorem Block.btcEncode_length (b : Block) (merkleRoot : Hash) (nonce : Nat) :
    ((b.msgBlock merkleRoot nonce).btcEncode .witness).length = b.serializeSize := by
  simp only [MsgBlock.btcEncode, Block.msgBlock, Block.serializeSize, length_append,
    writeBlockHeaderBuf_length, varInt_length, length_map, length_flatMap, map_map,
    Function.comp_def, MsgTx.btcEncode_length]
  omega

/-! ## Integers and byte strings -/

theorem reads_bytes (bs : Bytes) : Reads (readBytes bs.length) bs bs := Reads.full rfl

theorem reads_uint {k n : Nat} (h : n < 256 ^ k) : Reads (readUint k) (leBytes k n) n :=
  (Reads.full (leBytes_length k n)).bind_pure (by rw [leNat_leBytes_of_lt h])

theorem reads_uint32 (n : Int) : Reads (readUint 4) (uint32Bytes n) (n % 2 ^ 32).toNat :=
  reads_uint (by omega)

theorem reads_nat32 {n : Nat} (h : n < 2 ^ 32) : Reads (readUint 4) (uint32Bytes n) n := by
  have hres : ((n : Int) % 2 ^ 32).toNat = n := by omega
  have hread := reads_uint32 n
  rwa [hres] at hread

theorem toInt32_residue {v : Int} (hlo : -2 ^ 31 ≤ v) (hhi : v < 2 ^ 31) :
    toInt32 (v % 2 ^ 32).toNat = v := by
  have hcast : ((v % 2 ^ 32).toNat : Int) = v % 2 ^ 32 := by omega
  have hwidth : ((2 ^ 32 : Nat) : Int) = 2 ^ 32 := by decide
  have hbmod := Int.emod_bmod (x := v) (n := 2 ^ 32)
  rw [hwidth] at hbmod
  unfold toInt32
  rw [hcast, hbmod]
  exact Int.bmod_eq_of_le (by omega) (by omega)

theorem reads_hash (h : Hash) : Reads readHash (Hash.toBytes h) h :=
  (Reads.full (Hash.toBytes_length h)).bind_pure (by rw [Hash.ofBytes_toBytes])

theorem reads_varIntTail {d k min n : Nat} (hmin : min ≤ n) (hlt : n < 256 ^ k) :
    Reads (readVarIntTail d k min) (leBytes k n) n :=
  (reads_uint hlt).bind_nil (Reads.check (Nat.not_lt.mpr hmin) (Reads.pure n))

theorem reads_varInt {n : Nat} (h : n < 2 ^ 64) : Reads readVarIntBuf (varInt n) n := by
  have hdisc : ∀ {d : Nat}, d < 256 → Reads (readUint 1) [UInt8.ofNat d] d := fun hd =>
    reads_uint (k := 1) hd
  unfold varInt readVarIntBuf
  split
  · rename_i hn
    refine (hdisc (show n < 256 by omega)).bind_pure ?_
    rw [if_neg (by omega), if_neg (by omega), if_neg (by omega)]
  · split
    · exact (hdisc (d := 0xfd) (by decide)).bind (reads_varIntTail (by omega) (by omega))
    · split
      · exact (hdisc (d := 0xfe) (by decide)).bind (reads_varIntTail (by omega) (by omega))
      · exact (hdisc (d := 0xff) (by decide)).bind (reads_varIntTail (by omega) (by omega))

theorem reads_script {bs : Bytes} {slab : Nat} (hmax : bs.length ≤ maxWitnessItemSize)
    (hslab : bs.length ≤ slab) (fieldName : String) :
    Reads (readScriptBuf slab fieldName) (writeVarBytesBuf bs) bs := by
  have hcount : bs.length < 2 ^ 64 := by
    unfold maxWitnessItemSize at hmax
    omega
  exact (reads_varInt hcount).bind
    (Reads.check (Nat.not_lt.mpr hmax) (Reads.check (Nat.not_lt.mpr hslab) (reads_bytes bs)))

/-! ## Transactions -/

/-- The fields of a message are values of their Go types. -/
structure MsgTx.Typed (m : MsgTx) : Prop where
  version_ge : -2 ^ 31 ≤ m.version
  version_lt : m.version < 2 ^ 31
  index_lt : ∀ ti ∈ m.txIn, ti.previousOutPoint.index < 2 ^ 32
  sequence_lt : ∀ ti ∈ m.txIn, ti.sequence < 2 ^ 32
  lockTime_lt : m.lockTime < 2 ^ 32

def TxIn.stripped (ti : TxIn) : TxIn := { ti with witness := [] }

variable {slab : Nat}

theorem reads_txIn {ti : TxIn} (hindex : ti.previousOutPoint.index < 2 ^ 32)
    (hseq : ti.sequence < 2 ^ 32) (hmax : ti.signatureScript.length ≤ maxWitnessItemSize)
    (hslab : ti.signatureScript.length ≤ slab) :
    Reads (readTxInBuf slab) (writeTxInBuf ti) ti.stripped := by
  have hop : Reads readOutPointBuf (writeOutPointBuf ti.previousOutPoint) ti.previousOutPoint :=
    (reads_hash _).bind ((reads_nat32 hindex).bind_pure rfl)
  exact hop.bind ((reads_script hmax hslab _).bind ((reads_nat32 hseq).bind_pure rfl))

theorem reads_txOut {out : TxOut} (hmax : out.pkScript.length ≤ maxWitnessItemSize)
    (hslab : out.pkScript.length ≤ slab) : Reads (readTxOutBuf slab) (writeTxOutBuf out) out := by
  have hvalue : out.value.toUInt64.toNat < 256 ^ 8 := out.value.toUInt64.toNat_lt
  refine (reads_uint hvalue).bind ((reads_script hmax hslab _).bind_pure ?_)
  rw [ofNat_toUInt64]

def witnessBytes (wit : List Bytes) : Nat := (wit.map List.length).sum

theorem reads_witness {wit : List Bytes} (hcount : wit.length ≤ maxWitnessItemsPerInput)
    (hmax : ∀ item ∈ wit, item.length ≤ maxWitnessItemSize) (hslab : witnessBytes wit ≤ slab) :
    Reads (readTxWitnessBuf slab) (writeTxWitnessBuf wit) (wit, slab - witnessBytes wit) := by
  have hsmall : wit.length < 2 ^ 64 := by
    unfold maxWitnessItemsPerInput at hcount
    omega
  refine (reads_varInt hsmall).bind (Reads.check (Nat.not_lt.mpr hcount) ?_)
  exact Reads.budget (fun item hitem _ hle => reads_script (hmax item hitem) hle _) hslab

theorem reads_witnesses : ∀ {tis : List TxIn} {slab : Nat},
    (∀ ti ∈ tis, ti.witness.length ≤ maxWitnessItemsPerInput) →
    (∀ ti ∈ tis, ∀ item ∈ ti.witness, item.length ≤ maxWitnessItemSize) →
    (tis.map fun ti => witnessBytes ti.witness).sum ≤ slab →
    Reads (readWitnesses slab (tis.map TxIn.stripped))
      (tis.flatMap fun ti => writeTxWitnessBuf ti.witness) tis
  | [], _, _, _, _ => Reads.pure []
  | ti :: tis, slab, hcount, hmax, hslab => by
      rw [map_cons, sum_cons] at hslab
      have hhere := reads_witness (hcount ti mem_cons_self) (hmax ti mem_cons_self)
        (show witnessBytes ti.witness ≤ slab by omega)
      have hrest := reads_witnesses (fun t ht => hcount t (mem_cons_of_mem _ ht))
        (fun t ht => hmax t (mem_cons_of_mem _ ht))
        (show (tis.map fun t => witnessBytes t.witness).sum ≤ slab - witnessBytes ti.witness by
          omega)
      rw [map_cons, flatMap_cons]
      exact hhere.bind (hrest.bind_pure rfl)

/-- The counts and scripts of a transaction are bounded by its size. -/
structure FitsIn (m : MsgTx) (size : Nat) : Prop where
  inputs : minTxInPayload * m.txIn.length ≤ size
  outputs : minTxOutPayload * m.txOut.length ≤ size
  scripts : (m.txIn.map fun ti => ti.signatureScript.length).sum +
    (m.txOut.map fun out => out.pkScript.length).sum +
    (m.txIn.map fun ti => witnessBytes ti.witness).sum ≤ size
  items : ∀ ti ∈ m.txIn, ti.witness.length ≤ size

theorem length_mul_le_sum {α : Type} {size : α → Nat} {least : Nat} {as : List α}
    (h : ∀ a, least ≤ size a) : least * as.length ≤ (as.map size).sum := by
  have hsum := sum_le_sum (l := as) (f := fun _ => least) fun a _ => h a
  simpa [Nat.mul_comm] using hsum

theorem minTxInPayload_le (ti : TxIn) : minTxInPayload ≤ ti.serializeSize := by
  have := varIntSerializeSize_pos ti.signatureScript.length
  unfold minTxInPayload TxIn.serializeSize
  omega

theorem minTxOutPayload_le (out : TxOut) : minTxOutPayload ≤ out.serializeSize := by
  have := varIntSerializeSize_pos out.pkScript.length
  unfold minTxOutPayload TxOut.serializeSize
  omega

theorem minTxPayload_le (m : MsgTx) : minTxPayload ≤ m.serializeSize := by
  have hin := varIntSerializeSize_pos m.txIn.length
  have hout := varIntSerializeSize_pos m.txOut.length
  unfold minTxPayload MsgTx.serializeSize MsgTx.baseSize
  omega

theorem witness_le_size (wit : List Bytes) :
    witnessBytes wit + wit.length ≤ witnessSerializeSize wit := by
  have hitems := sum_le_sum (l := wit) (f := fun item => item.length + 1)
    (g := fun item => varIntSerializeSize item.length + item.length) fun item _ => by
      have := varIntSerializeSize_pos item.length
      omega
  have hsplit : (wit.map fun item => item.length + 1).sum = witnessBytes wit + wit.length := by
    rw [sum_map_add, witnessBytes]
    simp
  unfold witnessSerializeSize
  omega

theorem MsgTx.fitsIn_serializeSize (m : MsgTx) : FitsIn m m.serializeSize := by
  have hbase : m.serializeSize = m.baseSize + if m.hasWitness then
      2 + (m.txIn.map fun t => witnessSerializeSize t.witness).sum else 0 := rfl
  have hinputs : minTxInPayload * m.txIn.length ≤ (m.txIn.map TxIn.serializeSize).sum :=
    length_mul_le_sum minTxInPayload_le
  have houtputs : minTxOutPayload * m.txOut.length ≤ (m.txOut.map TxOut.serializeSize).sum :=
    length_mul_le_sum minTxOutPayload_le
  have hsigs : (m.txIn.map fun ti => ti.signatureScript.length).sum ≤
      (m.txIn.map TxIn.serializeSize).sum :=
    sum_le_sum fun ti _ => by unfold TxIn.serializeSize; omega
  have hpks : (m.txOut.map fun out => out.pkScript.length).sum ≤
      (m.txOut.map TxOut.serializeSize).sum :=
    sum_le_sum fun out _ => by unfold TxOut.serializeSize; omega
  -- without witnesses there is nothing to bound, with them they are part of the size
  have hwits : (m.txIn.map fun ti => witnessBytes ti.witness).sum ≤ m.serializeSize - m.baseSize ∧
      ∀ ti ∈ m.txIn, ti.witness.length ≤ m.serializeSize - m.baseSize := by
    cases hw : m.hasWitness with
    | false =>
      have hnone : ∀ ti ∈ m.txIn, ti.witness = [] := by
        simpa [MsgTx.hasWitness] using hw
      refine ⟨?_, fun ti hti => by simp [hnone ti hti]⟩
      rw [map_congr_left fun ti hti => by rw [hnone ti hti]]
      simp [witnessBytes]
    | true =>
      rw [hw, if_pos rfl] at hbase
      have hsum := sum_le_sum (l := m.txIn) (f := fun ti => witnessBytes ti.witness)
        (g := fun ti => witnessSerializeSize ti.witness) fun ti _ => by
          have := witness_le_size ti.witness
          omega
      refine ⟨by omega, fun ti hti => ?_⟩
      have hle := witness_le_size ti.witness
      have hmem := le_sum_of_mem
        (mem_map_of_mem (f := fun t : TxIn => witnessSerializeSize t.witness) hti)
      omega
  have hpart : m.baseSize ≤ m.serializeSize := by omega
  have hbody : (m.txIn.map TxIn.serializeSize).sum + (m.txOut.map TxOut.serializeSize).sum ≤
      m.baseSize := by
    unfold MsgTx.baseSize
    omega
  exact ⟨by omega, by omega, by omega, fun ti hti => by have := hwits.2 ti hti; omega⟩

theorem reads_inputCount {n : Nat} (hpos : n ≠ 0) (hlt : n < 2 ^ 64) (w : Bool) :
    Reads (readInputCount .witness)
      ((if w then [UInt8.ofNat txFlagMarker, witnessFlag] else []) ++ varInt n)
      (n, if w then witnessFlag else 0) := by
  cases w with
  | false => exact (reads_varInt hlt).bind_pure (if_neg fun h => hpos h.1)
  | true =>
    have hmarker : Reads readVarIntBuf [UInt8.ofNat txFlagMarker] txFlagMarker :=
      reads_varInt (n := txFlagMarker) (by decide)
    have hflag : Reads (readBytes 1) [witnessFlag] [witnessFlag] := reads_bytes [witnessFlag]
    show Reads _ ([UInt8.ofNat txFlagMarker] ++ ([witnessFlag] ++ varInt n)) _
    refine hmarker.bind ?_
    rw [if_pos ⟨rfl, rfl⟩]
    exact hflag.bind (Reads.check (fun h => h rfl) ((reads_varInt hlt).bind_pure rfl))

theorem stripped_of_no_witness {m : MsgTx} (h : m.hasWitness = false) :
    m.txIn.map TxIn.stripped = m.txIn := by
  have hnone : ∀ ti ∈ m.txIn, ti.witness = [] := by
    simpa [MsgTx.hasWitness] using h
  have hsame : ∀ ti ∈ m.txIn, ti.stripped = ti := by
    intro ti hti
    rw [TxIn.stripped, ← hnone ti hti]
  rw [map_congr_left hsame, map_id']

/-- The limits `btcDecode` enforces. -/
structure WithinLimits (m : MsgTx) : Prop where
  inputs : m.txIn.length ≤ maxTxInPerMessage
  outputs : m.txOut.length ≤ maxTxOutPerMessage
  sigScripts : ∀ ti ∈ m.txIn, ti.signatureScript.length ≤ maxWitnessItemSize
  pkScripts : ∀ out ∈ m.txOut, out.pkScript.length ≤ maxWitnessItemSize
  itemCounts : ∀ ti ∈ m.txIn, ti.witness.length ≤ maxWitnessItemsPerInput
  items : ∀ ti ∈ m.txIn, ∀ item ∈ ti.witness, item.length ≤ maxWitnessItemSize
  slab : (m.txIn.map fun ti => ti.signatureScript.length).sum +
    (m.txOut.map fun out => out.pkScript.length).sum +
    (m.txIn.map fun ti => witnessBytes ti.witness).sum ≤ scriptSlabSize

theorem withinLimits_of_size {m : MsgTx} (hsize : m.serializeSize ≤ maxProtocolMessageLength) :
    WithinLimits m := by
  obtain ⟨hins, houts, hscripts, hcounts⟩ := m.fitsIn_serializeSize
  have hmem : ∀ {α : Type} (size : α → Nat) {as : List α} {a : α}, a ∈ as →
      size a ≤ (as.map size).sum := fun size _ _ ha =>
    le_sum_of_mem (mem_map_of_mem (f := size) ha)
  have hmaxIn : maxTxInPerMessage = 818401 := by decide
  have hmaxOut : maxTxOutPerMessage = 3728271 := by decide
  unfold maxProtocolMessageLength at hsize
  unfold minTxInPayload at hins
  unfold minTxOutPayload at houts
  refine ⟨by omega, by omega, fun ti hti => ?_, fun out hout => ?_, fun ti hti => ?_,
    fun ti hti item hitem => ?_, ?_⟩
  · grind [maxWitnessItemSize]
  · grind [maxWitnessItemSize]
  · grind [maxWitnessItemsPerInput]
  · have hin := hmem (fun ti => witnessBytes ti.witness) hti
    have hout : item.length ≤ witnessBytes ti.witness := hmem List.length hitem
    unfold maxWitnessItemSize
    omega
  · unfold scriptSlabSize
    omega

theorem reads_txIns {tis : List TxIn} (hindex : ∀ ti ∈ tis, ti.previousOutPoint.index < 2 ^ 32)
    (hseq : ∀ ti ∈ tis, ti.sequence < 2 ^ 32)
    (hmax : ∀ ti ∈ tis, ti.signatureScript.length ≤ maxWitnessItemSize)
    (hslab : (tis.map fun ti => ti.signatureScript.length).sum ≤ slab) :
    Reads (readBudget readTxInBuf (fun ti => ti.signatureScript.length) tis.length slab)
      (tis.flatMap writeTxInBuf) (tis.map TxIn.stripped,
        slab - (tis.map fun ti => ti.signatureScript.length).sum) := by
  have hread : ∀ ti ∈ tis.map TxIn.stripped, ∀ budget, ti.signatureScript.length ≤ budget →
      Reads (readTxInBuf budget) (writeTxInBuf ti) ti := by
    intro t ht budget hle
    obtain ⟨ti, hti, rfl⟩ := mem_map.mp ht
    exact reads_txIn (hindex ti hti) (hseq ti hti) (hmax ti hti) hle
  have hcost : ((tis.map TxIn.stripped).map fun ti => ti.signatureScript.length).sum ≤ slab := by
    rwa [map_map]
  have h := Reads.budget hread hcost
  rwa [length_map, flatMap_map, map_map] at h

theorem reads_txWitnesses {m : MsgTx} (hlim : WithinLimits m)
    (hslab : (m.txIn.map fun ti => witnessBytes ti.witness).sum ≤ slab) :
    Reads (readTxWitnesses .witness (if m.hasWitness then witnessFlag else 0) slab
        (m.txIn.map TxIn.stripped))
      (if m.hasWitness then m.txIn.flatMap fun ti => writeTxWitnessBuf ti.witness else [])
      m.txIn := by
  cases hw : m.hasWitness with
  | false =>
    rw [stripped_of_no_witness hw]
    exact Reads.pure m.txIn
  | true =>
    have hsome : ¬ (m.txIn.all fun ti => ti.witness.isEmpty) = true := by
      simpa [MsgTx.hasWitness] using hw
    have hread := reads_witnesses hlim.itemCounts hlim.items hslab
    rw [readTxWitnesses, if_pos ⟨by decide, rfl⟩, if_pos rfl]
    exact hread.bind_nil (Reads.check hsome (Reads.pure m.txIn))

theorem reads_tx {m : MsgTx} (ht : m.Typed) (hne : m.txIn ≠ []) (hlim : WithinLimits m) :
    Reads (MsgTx.btcDecode .witness scriptSlabSize) (m.btcEncode .witness) m := by
  have hslab := hlim.slab
  have hin64 : m.txIn.length < 2 ^ 64 := Nat.lt_of_le_of_lt hlim.inputs (by decide)
  have hout64 : m.txOut.length < 2 ^ 64 := Nat.lt_of_le_of_lt hlim.outputs (by decide)
  have hcount := reads_inputCount (mt length_eq_zero_iff.mp hne) hin64 m.hasWitness
  have hins := reads_txIns ht.index_lt ht.sequence_lt hlim.sigScripts
    (show (m.txIn.map fun ti => ti.signatureScript.length).sum ≤ scriptSlabSize by omega)
  have houts := Reads.budget
    (fun out hout _ hle => reads_txOut (hlim.pkScripts out hout) hle)
    (show (m.txOut.map fun out => out.pkScript.length).sum ≤ scriptSlabSize -
      (m.txIn.map fun ti => ti.signatureScript.length).sum by omega)
  have hwits := reads_txWitnesses hlim
    (show (m.txIn.map fun ti => witnessBytes ti.witness).sum ≤ scriptSlabSize -
      (m.txIn.map fun ti => ti.signatureScript.length).sum -
      (m.txOut.map fun out => out.pkScript.length).sum by omega)
  have hversion : toInt32 (m.version % 2 ^ 32).toNat = m.version :=
    toInt32_residue ht.version_ge ht.version_lt
  rw [MsgTx.btcEncode]
  simp only [true_and]
  rw [← append_assoc _ (varInt m.txIn.length) _]
  refine (reads_uint32 m.version).bind (hcount.bind ?_)
  refine Reads.check (Nat.not_lt.mpr hlim.inputs) (hins.bind ((reads_varInt hout64).bind ?_))
  refine Reads.check (Nat.not_lt.mpr hlim.outputs) (houts.bind (hwits.bind ?_))
  refine (reads_nat32 ht.lockTime_lt).bind_pure ?_
  rw [hversion]

/-! ## Blocks -/

/-- The fields of a block message are values of their Go types; the timestamp is
a `time.Time` and has no width. -/
structure MsgBlock.Typed (m : MsgBlock) : Prop where
  version_ge : -2 ^ 31 ≤ m.header.version
  version_lt : m.header.version < 2 ^ 31
  bits_lt : m.header.bits < 2 ^ 32
  nonce_lt : m.header.nonce < 2 ^ 32
  transactions : ∀ tx ∈ m.transactions, tx.Typed

/-- A block as it comes off the wire: the timestamp has 32 bits there. -/
def MsgBlock.onWire (m : MsgBlock) : MsgBlock :=
  { m with header := { m.header with timestamp := m.header.timestamp % 2 ^ 32 } }

theorem MsgBlock.onWire_eq_self_iff (m : MsgBlock) :
    m.onWire = m ↔ 0 ≤ m.header.timestamp ∧ m.header.timestamp < 2 ^ 32 := by
  constructor
  · intro h
    have hts : m.header.timestamp % 2 ^ 32 = m.header.timestamp :=
      congrArg (fun b : MsgBlock => b.header.timestamp) h
    omega
  · rintro ⟨hlo, hhi⟩
    rw [MsgBlock.onWire, Int.emod_eq_of_lt hlo hhi]

theorem reads_header {m : MsgBlock} (ht : m.Typed) :
    Reads readBlockHeaderBuf (writeBlockHeaderBuf m.header) m.onWire.header := by
  have hversion : toInt32 (m.header.version % 2 ^ 32).toNat = m.header.version :=
    toInt32_residue ht.version_ge ht.version_lt
  have htime : ((m.header.timestamp % 2 ^ 32).toNat : Int) = m.header.timestamp % 2 ^ 32 := by
    omega
  refine (reads_uint32 _).bind ((reads_hash _).bind ((reads_hash _).bind ((reads_uint32 _).bind
    ((reads_nat32 ht.bits_lt).bind ((reads_nat32 ht.nonce_lt).bind_pure ?_)))))
  rw [hversion, htime]
  rfl

theorem reads_block {m : MsgBlock} (ht : m.Typed) (hne : ∀ tx ∈ m.transactions, tx.txIn ≠ [])
    (hsize : (m.btcEncode .witness).length ≤ maxProtocolMessageLength) :
    Reads (MsgBlock.btcDecode .witness) (m.btcEncode .witness) m.onWire := by
  have htxs : (m.transactions.map MsgTx.serializeSize).sum ≤ maxProtocolMessageLength := by
    grind [MsgBlock.btcEncode, length_flatMap_of_eq, MsgTx.btcEncode_length]
  have hcount : m.transactions.length ≤ maxTxPerBlock := by
    have hle : minTxPayload * m.transactions.length ≤
        (m.transactions.map MsgTx.serializeSize).sum := length_mul_le_sum minTxPayload_le
    have hmax : maxTxPerBlock = 500001 := by decide
    unfold maxProtocolMessageLength at htxs
    unfold minTxPayload at hle
    omega
  have hcount64 : m.transactions.length < 2 ^ 64 := Nat.lt_of_le_of_lt hcount (by decide)
  have hread : ∀ tx ∈ m.transactions,
      Reads (MsgTx.btcDecode .witness scriptSlabSize) (tx.btcEncode .witness) tx := by
    intro tx htx
    have hle := le_sum_of_mem (mem_map_of_mem (f := MsgTx.serializeSize) htx)
    exact reads_tx (ht.transactions tx htx) (hne tx htx)
      (withinLimits_of_size (Nat.le_trans hle htxs))
  exact (reads_header ht).bind ((reads_varInt hcount64).bind
    (Reads.check (Nat.not_lt.mpr hcount) ((Reads.many hread).bind_pure rfl)))

/-! ## The block message -/

theorem checksum_length (payload : Bytes) : (checksum payload).length = 4 := by
  simp [checksum, Sha256.sum256, Sha256.Regs.toBytes]

theorem messageHeaderBytes_length (btcnet : UInt32) (payload : Bytes) :
    (messageHeaderBytes btcnet payload).length = messageHeaderSize := by
  simp [messageHeaderBytes, checksum_length, messageHeaderSize, commandSize, cmdBlock]

theorem reads_messageHeader {payload : Bytes} (hlt : payload.length < 2 ^ 32) (btcnet : UInt32) :
    Reads readMessageHeader (messageHeaderBytes btcnet payload)
      ⟨btcnet.toNat, cmdBlock, payload.length, checksum payload⟩ := by
  have hcmd : (cmdBlock ++ List.replicate (commandSize - cmdBlock.length) 0).length = 12 := by
    decide
  have htrim : ((cmdBlock ++ List.replicate (commandSize - cmdBlock.length) 0).reverse.dropWhile
      (· == 0)).reverse = cmdBlock := by
    decide
  have hmagic : slice (messageHeaderBytes btcnet payload) 0 4 = leBytes 4 btcnet.toNat :=
    slice_append_left (leBytes_length _ _)
  have hcommand : slice (messageHeaderBytes btcnet payload) 4 16 =
      cmdBlock ++ List.replicate (commandSize - cmdBlock.length) 0 := by
    simp only [messageHeaderBytes, slice_append_right, leBytes_length, Nat.le_refl, Nat.reduceSub]
    exact slice_append_left hcmd
  have hlength : slice (messageHeaderBytes btcnet payload) 16 20 = leBytes 4 payload.length := by
    simp only [messageHeaderBytes, slice_append_right, slice_append_left, leBytes_length, hcmd,
      Nat.reduceLeDiff, Nat.reduceSub, Nat.le_refl]
  have hchecksum : slice (messageHeaderBytes btcnet payload) 20 24 = checksum payload := by
    simp only [messageHeaderBytes, slice_append_right, slice_zero, leBytes_length, hcmd,
      checksum_length, Nat.reduceLeDiff, Nat.reduceSub, Nat.le_refl]
  refine (Reads.full (messageHeaderBytes_length btcnet payload)).bind_pure ?_
  rw [hmagic, hcommand, hlength, hchecksum, htrim, leNat_leBytes_of_lt btcnet.toNat_lt,
    leNat_leBytes_of_lt hlt]

variable {m : MsgBlock}

theorem writeMessage_eq_ok_iff (btcnet : UInt32) (bytes : Bytes) :
    writeMessageWithEncodingN m btcnet .witness = .ok bytes ↔
      (m.btcEncode .witness).length ≤ maxProtocolMessageLength ∧
      messageHeaderBytes btcnet (m.btcEncode .witness) ++ m.btcEncode .witness = bytes := by
  have hcmd : ¬ commandSize < cmdBlock.length := by decide
  simp only [writeMessageWithEncodingN, bind_eq_ok, exists_unit, rejectIf_eq_ok, pure_eq_ok,
    Nat.not_lt, hcmd, true_and]
  constructor
  · rintro ⟨-, hlen, -, hbytes⟩
    exact ⟨hlen, hbytes⟩
  · grind [maxProtocolMessageLength, maxBlockPayload]

theorem reads_message (ht : m.Typed) (hne : ∀ tx ∈ m.transactions, tx.txIn ≠ [])
    (hsize : (m.btcEncode .witness).length ≤ maxProtocolMessageLength) (btcnet : UInt32) :
    Reads (readMessageWithEncodingN btcnet .witness)
      (messageHeaderBytes btcnet (m.btcEncode .witness) ++ m.btcEncode .witness)
      (m.onWire, m.btcEncode .witness) := by
  have hdecode : (MsgBlock.btcDecode .witness).run (m.btcEncode .witness) = .ok (m.onWire, []) := by
    have h := reads_block ht hne hsize []
    rwa [append_nil] at h
  have hlt : (m.btcEncode .witness).length < 2 ^ 32 := Nat.lt_of_le_of_lt hsize (by decide)
  have hmax : (m.btcEncode .witness).length ≤ maxBlockPayload := Nat.le_trans hsize (by decide)
  generalize m.btcEncode .witness = payload at *
  refine (reads_messageHeader hlt btcnet).bind ?_
  refine Reads.check (Nat.not_lt.mpr hsize) (Reads.check (not_not_intro rfl)
    (Reads.check (not_not_intro rfl) (Reads.check (Nat.not_lt.mpr hmax) ?_)))
  refine (reads_bytes payload).bind_nil (Reads.check (not_not_intro rfl) ?_)
  exact (Reads.lift hdecode).bind_nil (Reads.check (not_not_intro rfl) (Reads.pure _))

/-- The block message is written, and reading it gives the block back. -/
def Travels (btcnet : UInt32) (m : MsgBlock) : Prop :=
  ∃ bytes payload, writeMessageWithEncodingN m btcnet .witness = .ok bytes ∧
    readMessageWithEncodingN btcnet .witness bytes = .ok ((m, payload), [])

theorem travels_iff (ht : m.Typed) (hne : ∀ tx ∈ m.transactions, tx.txIn ≠ []) (btcnet : UInt32) :
    Travels btcnet m ↔ (m.btcEncode .witness).length ≤ maxProtocolMessageLength ∧
      0 ≤ m.header.timestamp ∧ m.header.timestamp < 2 ^ 32 := by
  have hread : ∀ {bytes : Bytes}, writeMessageWithEncodingN m btcnet .witness = .ok bytes →
      readMessageWithEncodingN btcnet .witness bytes =
        .ok ((m.onWire, m.btcEncode .witness), []) := by
    intro bytes hwrite
    obtain ⟨hsize, rfl⟩ := (writeMessage_eq_ok_iff btcnet bytes).mp hwrite
    have h := reads_message ht hne hsize btcnet []
    rwa [append_nil] at h
  rw [← m.onWire_eq_self_iff]
  constructor
  · rintro ⟨bytes, payload, hwrite, hback⟩
    rw [hread hwrite] at hback
    simp only [Except.ok.injEq, Prod.mk.injEq] at hback
    exact ⟨((writeMessage_eq_ok_iff btcnet bytes).mp hwrite).1, hback.1.1⟩
  · rintro ⟨hsize, hsame⟩
    have hwrite := (writeMessage_eq_ok_iff (m := m) btcnet _).mpr ⟨hsize, rfl⟩
    refine ⟨_, m.btcEncode .witness, hwrite, ?_⟩
    rw [hread hwrite, hsame]

/-- Block messages written one after another are read one after another, whatever
follows them on the connection. -/
theorem message_stream_reads_back {btcnet : UInt32} {blocks : List MsgBlock} {stream : List Bytes}
    (hts : ∀ m ∈ blocks, m.Typed ∧ ∀ tx ∈ m.transactions, tx.txIn ≠ [])
    (h : blocks.mapM (fun m => writeMessageWithEncodingN m btcnet .witness) = .ok stream) :
    Reads (readMany (readMessageWithEncodingN btcnet .witness) blocks.length) stream.flatten
      (blocks.map fun m => (m.onWire, m.btcEncode .witness)) := by
  induction blocks generalizing stream with
  | nil =>
    obtain rfl := Except.ok.inj h
    exact Reads.pure []
  | cons m blocks ih =>
    simp only [mapM_cons, bind_eq_ok, pure_eq_ok] at h
    obtain ⟨bytes, hwrite, later, hlater, rfl⟩ := h
    obtain ⟨hsize, rfl⟩ := (writeMessage_eq_ok_iff btcnet bytes).mp hwrite
    obtain ⟨ht, hne⟩ := hts m mem_cons_self
    have hrest := ih (fun m' hm' => hts m' (mem_cons_of_mem m hm')) hlater
    exact (reads_message ht hne hsize btcnet).bind (hrest.bind_pure rfl)

/-- A block without transactions. -/
def bareBlock : MsgBlock := ⟨⟨⟨4, 0, 0, 0⟩, 0, 0⟩, []⟩

theorem bareBlock_read_twice : ∃ bytes, writeMessageWithEncodingN bareBlock 1 .witness = .ok bytes ∧
    Reads (readMany (readMessageWithEncodingN 1 .witness) 2) (bytes ++ bytes)
      (replicate 2 (bareBlock, bareBlock.btcEncode .witness)) := by
  have hwrite := (writeMessage_eq_ok_iff (m := bareBlock) 1 _).mpr ⟨by decide +kernel, rfl⟩
  have ht : bareBlock.Typed := ⟨by decide, by decide, by decide, by decide, fun _ h => nomatch h⟩
  have hsame : bareBlock.onWire = bareBlock := rfl
  have hstream := @message_stream_reads_back 1 [bareBlock, bareBlock] _
    (fun m hm => by
      obtain rfl : m = bareBlock := by simpa using hm
      exact ⟨ht, fun _ h => nomatch h⟩) (by simp only [mapM_cons, hwrite]; rfl)
  exact ⟨_, hwrite, by simpa [hsame] using hstream⟩

end FalconDraw.Wire
