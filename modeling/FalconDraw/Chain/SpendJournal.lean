/-
FalconDraw.Chain.SpendJournal — the outputs a block spent, as bytes
(blockchain/chainio.go).

The journal of a block is its spent outputs one after another, the last one first,
without a count.
-/
import FalconDraw.Chain.Compress
import FalconDraw.Chain.Run

namespace FalconDraw.Chain

open Lib Wire Draw List

/-- What reading a stored record can fail with: `errDeserialize`, `AssertError`
and a `database.Error`. -/
inductive StoreError where
  | deserialize (msg : String)
  | assert (msg : String)
  | corruption (msg : String)
deriving DecidableEq, Repr

/-! ## One record -/

def spentTxOutHeaderCode (stxo : SpentTxOut) : Nat :=
  2 * stxo.blockHeight + if stxo.isCoinBase then 1 else 0

def spentTxOutSerializeSize (keys : PubKeyLib) (stxo : SpentTxOut) : Nat :=
  serializeSizeVLQ (spentTxOutHeaderCode stxo) +
    (if 0 < stxo.blockHeight then serializeSizeVLQ 0 else 0) +
    compressedTxOutSize keys stxo.amount.toUInt64.toNat stxo.pkScript

def putSpentTxOut (keys : PubKeyLib) (stxo : SpentTxOut) : Bytes :=
  putVLQ (spentTxOutHeaderCode stxo) ++ (if 0 < stxo.blockHeight then putVLQ 0 else []) ++
    putCompressedTxOut keys stxo.amount.toUInt64.toNat stxo.pkScript

/-- The last part of `decodeSpentTxOut`, from this offset on. -/
def decodeSpentTxOutFrom (keys : PubKeyLib) (serialized : Bytes) (code offset : Nat) :
    Except String (SpentTxOut × Nat) :=
  match decodeCompressedTxOut keys (serialized.drop offset) with
  | .error e => .error ("unable to decode txout: " ++ e)
  | .ok (amount, pkScript, bytesRead) =>
      .ok (⟨Int64.ofNat amount, pkScript, code / 2 % 2 ^ 32, code % 2 = 1⟩, offset + bytesRead)

/-- `decodeSpentTxOut`: the record and the bytes read. -/
def decodeSpentTxOut (keys : PubKeyLib) (serialized : Bytes) :
    Except String (SpentTxOut × Nat) :=
  if serialized = [] then .error "no serialized bytes"
  else
    let (code, offset) := deserializeVLQ serialized
    if serialized.length ≤ offset then .error "unexpected end of data after header code"
    else if 0 < code / 2 % 2 ^ 32 then
      let offset := offset + (deserializeVLQ (serialized.drop offset)).2
      if serialized.length ≤ offset then .error "unexpected end of data after reserved"
      else decodeSpentTxOutFrom keys serialized code offset
    else decodeSpentTxOutFrom keys serialized code offset

/-! ## The journal of a block -/

def serializeSpendJournalEntry (keys : PubKeyLib) (stxos : List SpentTxOut) : Bytes :=
  stxos.reverse.flatMap (putSpentTxOut keys)

/-- The reading loop: one record for each of these outpoints, in this order. -/
def readSpentTxOuts (keys : PubKeyLib) : List OutPoint → Bytes → Except String (List SpentTxOut)
  | [], _ => .ok []
  | op :: ops, serialized =>
      match decodeSpentTxOut keys serialized with
      | .error e => .error ("unable to decode stxo for " ++ op.str ++ ": " ++ e)
      | .ok (stxo, n) => do
          let rest ← readSpentTxOuts keys ops (serialized.drop n)
          return stxo :: rest

/-- `deserializeSpendJournalEntry`: the inputs are gone through backwards. -/
def deserializeSpendJournalEntry (keys : PubKeyLib) (serialized : Bytes) (txns : List MsgTx) :
    Except StoreError (List SpentTxOut) :=
  let ops := (txns.flatMap MsgTx.txIn).map TxIn.previousOutPoint
  if serialized = [] then
    if ops.length ≠ 0 then
      .error (.assert ("mismatched spend journal serialization - no serialization for expected " ++
        toString ops.length ++ " stxos"))
    else .ok []
  else match readSpentTxOuts keys ops.reverse serialized with
    | .error e => .error (.deserialize e)
    | .ok stxos => .ok stxos.reverse

/-- The transactions `dbFetchSpendJournalEntry` expects records for: no
coinbase, not version 7, and some input that is not a sentinel. -/
def journalTxns (block : Block) : List MsgTx :=
  (block.transactions.tail.map Tx.msgTx).filter fun m =>
    m.version ≠ txVersionVDFResult && m.txIn.any fun t => !isPoolDrawSentinelInput t

/-- `dbFetchSpendJournalEntry`, given the bytes stored for the block. -/
def dbFetchSpendJournalEntry (keys : PubKeyLib) (serialized : Bytes) (block : Block) :
    Except StoreError (List SpentTxOut) :=
  match deserializeSpendJournalEntry keys serialized (journalTxns block) with
  | .error (.deserialize e) => .error (.corruption
      ("corrupt spend information for " ++ Hash.str block.hash ++ ": " ++ e))
  | r => r

/-! ## Reading what was written -/

/-- The ranges of a stored record: a height that is an `int32`, a script that
fits memory, an amount the compression has room for. -/
structure Storable (c : Coin) : Prop where
  height_lt : c.blockHeight < 2 ^ 31
  script_lt : c.pkScript.length < 2 ^ 62
  amount_nonneg : 0 ≤ c.amount.toInt
  amount_lt : c.amount.toInt < 2 ^ 60

variable {keys : PubKeyLib} {c : Coin}

theorem putSpentTxOut_length (keys : PubKeyLib) (c : Coin) :
    (putSpentTxOut keys c).length = spentTxOutSerializeSize keys c := by
  rw [putSpentTxOut, spentTxOutSerializeSize, length_append, length_append,
    putVLQ_length, putCompressedTxOut_length]
  split
  · rw [putVLQ_length]
  · rfl

theorem Storable.toUInt64_lt (h : Storable c) : c.amount.toUInt64.toNat < 2 ^ 60 := by
  have hcast := toNat_toUInt64_of_nonneg h.amount_nonneg
  have := h.amount_lt
  omega

theorem decodeSpentTxOutFrom_put (h : Storable c) {head : Bytes} {offset : Nat}
    (hoff : head.length = offset) (rest : Bytes) :
    decodeSpentTxOutFrom keys
        (head ++ (putCompressedTxOut keys c.amount.toUInt64.toNat c.pkScript ++ rest))
        (spentTxOutHeaderCode c) offset =
      .ok (c, offset + compressedTxOutSize keys c.amount.toUInt64.toNat c.pkScript) := by
  have hscript : c.pkScript.length + numSpecialScripts < 2 ^ 64 := by
    have := h.script_lt
    unfold numSpecialScripts
    omega
  obtain ⟨-, hheight, hflag⟩ := headerCode_spec h.height_lt c.isCoinBase
  rw [← spentTxOutHeaderCode] at hheight hflag
  rw [decodeSpentTxOutFrom, ← hoff, drop_left,
    decodeCompressedTxOut_put keys h.toUInt64_lt hscript]
  simp only [hheight, hflag, ofNat_toUInt64]

theorem decodeSpentTxOut_put (h : Storable c) (rest : Bytes) :
    decodeSpentTxOut keys (putSpentTxOut keys c ++ rest) =
      .ok (c, spentTxOutSerializeSize keys c) := by
  obtain ⟨hcode, hheight, -⟩ := headerCode_spec h.height_lt c.isCoinBase
  rw [← spentTxOutHeaderCode] at hcode hheight
  have hbody := compressedTxOutSize_pos keys c.amount.toUInt64.toNat c.pkScript
  have hne : putSpentTxOut keys c ++ rest ≠ [] := by
    rw [← length_pos_iff, length_append, putSpentTxOut_length, spentTxOutSerializeSize]
    omega
  rw [decodeSpentTxOut, if_neg hne, putSpentTxOut, append_assoc, append_assoc,
    deserializeVLQ_putVLQ hcode, spentTxOutSerializeSize]
  by_cases hzero : 0 < c.blockHeight
  · simp only [if_pos hzero, drop_putVLQ, deserializeVLQ_putVLQ (by decide : 0 < 2 ^ 64), hheight,
      length_append, putVLQ_length, putCompressedTxOut_length]
    rw [if_neg (by omega), if_neg (by omega), ← append_assoc,
      decodeSpentTxOutFrom_put h (by simp)]
  · simp only [if_neg hzero, hheight, nil_append, length_append, putVLQ_length,
      putCompressedTxOut_length]
    rw [if_neg (by omega), decodeSpentTxOutFrom_put h (by simp), Nat.add_zero]

theorem readSpentTxOuts_cons (h : Storable c) (op : OutPoint) (ops : List OutPoint) (rest : Bytes) :
    readSpentTxOuts keys (op :: ops) (putSpentTxOut keys c ++ rest) =
      (readSpentTxOuts keys ops rest).map (c :: ·) := by
  have hdrop : (putSpentTxOut keys c ++ rest).drop (spentTxOutSerializeSize keys c) = rest := by
    rw [← putSpentTxOut_length, drop_left]
  simp only [readSpentTxOuts, decodeSpentTxOut_put h, hdrop]
  cases readSpentTxOuts keys ops rest <;> rfl

theorem readSpentTxOuts_put : ∀ {ops : List OutPoint} {stxos : List SpentTxOut},
    ops.length = stxos.length → (∀ c ∈ stxos, Storable c) →
    readSpentTxOuts keys ops (stxos.flatMap (putSpentTxOut keys)) = .ok stxos
  | [], [], _, _ => rfl
  | op :: ops, c :: stxos, hlen, hall => by
      obtain ⟨hc, hall⟩ := forall_mem_cons.mp hall
      rw [flatMap_cons, readSpentTxOuts_cons hc, readSpentTxOuts_put (Nat.succ.inj hlen) hall]
      rfl

theorem readSpentTxOuts_short : ∀ {ops : List OutPoint} {stxos : List SpentTxOut},
    stxos.length < ops.length → (∀ c ∈ stxos, Storable c) →
    ∀ r, readSpentTxOuts keys ops (stxos.flatMap (putSpentTxOut keys)) ≠ .ok r
  | [], _, hlen, _, _ => by simp at hlen
  | op :: ops, [], _, _, r => by
      intro h
      simp [readSpentTxOuts, decodeSpentTxOut] at h
  | op :: ops, c :: stxos, hlen, hall, r => by
      obtain ⟨hc, hall⟩ := forall_mem_cons.mp hall
      have hrest := readSpentTxOuts_short (Nat.lt_of_succ_lt_succ hlen) hall
      rw [flatMap_cons, readSpentTxOuts_cons hc]
      cases hr : readSpentTxOuts keys ops (stxos.flatMap (putSpentTxOut keys)) with
      | error e => exact nofun
      | ok r' => exact absurd hr (hrest r')

end FalconDraw.Chain
