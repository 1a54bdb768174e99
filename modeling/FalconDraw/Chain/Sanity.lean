/-
FalconDraw.Chain.Sanity — the context-free checks (blockchain/validate.go,
weight.go): `CheckTransactionSanity` and the transaction part of
`checkBlockSanity`.

Every block that reaches `checkConnectBlock` has passed these, so their
consequences (`SaneTx`, `SaneBlock`) are what validation may rely on: amounts in
range, totals in range, no input twice, one coinbase and it comes first, no two
transactions with one id.
-/
import FalconDraw.Lib.Amount
import FalconDraw.Script.Tokenizer
import FalconDraw.Draw.Payload
import FalconDraw.Chain.RuleError

namespace FalconDraw.Chain

open Lib Wire Script Draw List

def maxBlockBaseSize : Nat := 5000000

def maxBlockWeight : Nat := 20000000

def maxVDFBlockWeight : Nat := 256000000

def maxBlockSigOpsCost : Nat := 400000

def witnessScaleFactor : Nat := 4

def minCoinbaseScriptLen : Nat := 2

def maxCoinbaseScriptLen : Nat := 100

/-! ## Transactions -/

/-- The output loop of `CheckTransactionSanity`, with its running total. -/
def checkOutputValues : Int64 → List TxOut → Check Unit
  | _, [] => .ok ()
  | total, out :: outs => do
      rejectIf (out.value < 0) (.rule .badTxOutValue
        ("transaction output has negative value of " ++ toString out.value))
      rejectIf (maxSatoshi < out.value) (.rule .badTxOutValue
        ("transaction output value is higher than max allowed value: " ++ toString out.value))
      rejectIf (total + out.value < 0) (.rule .badTxOutValue
        "total value of all transaction outputs exceeds max allowed value")
      rejectIf (maxSatoshi < total + out.value) (.rule .badTxOutValue
        ("total value of all transaction outputs is " ++ toString (total + out.value) ++
          " which is higher than max allowed value"))
      checkOutputValues (total + out.value) outs

def isNullOutpoint (op : OutPoint) : Bool := op.index == maxPrevOutIndex && op.hash == 0

def checkTransactionSanity (tx : Tx) : Check Unit := do
  rejectIf (tx.msgTx.txIn = []) (.rule .noTxInputs "transaction has no inputs")
  rejectIf (tx.msgTx.txOut = []) (.rule .noTxOutputs "transaction has no outputs")
  rejectIf (maxBlockBaseSize < tx.msgTx.serializeSizeStripped) (.rule .txTooBig
    ("serialized transaction is too big - got " ++ toString tx.msgTx.serializeSizeStripped))
  checkOutputValues 0 tx.msgTx.txOut
  rejectIf (¬ (tx.msgTx.txIn.map TxIn.previousOutPoint).Nodup) (.rule .duplicateTxInputs
    "transaction contains duplicate inputs")
  if tx.isCoinBase then
    let slen := ((tx.msgTx.txIn.headD ⟨⟨0, 0⟩, [], [], 0⟩).signatureScript).length
    rejectIf (slen < minCoinbaseScriptLen ∨ maxCoinbaseScriptLen < slen)
      (.rule .badCoinbaseScriptLen
        ("coinbase transaction script length of " ++ toString slen ++ " is out of range"))
  else
    rejectIf (tx.msgTx.txIn.any fun t => isNullOutpoint t.previousOutPoint) (.rule .badTxInput
      "transaction input refers to previous output that is null")

/-- What a transaction that passed `CheckTransactionSanity` satisfies. -/
structure SaneTx (tx : Tx) : Prop where
  inputs_ne : tx.msgTx.txIn ≠ []
  outputs_ne : tx.msgTx.txOut ≠ []
  size_le : tx.msgTx.serializeSizeStripped ≤ maxBlockBaseSize
  value_nonneg : ∀ out ∈ tx.msgTx.txOut, 0 ≤ out.value.toInt
  value_le : ∀ out ∈ tx.msgTx.txOut, out.value.toInt ≤ maxSatoshi.toInt
  total_le : sumInt (tx.msgTx.txOut.map TxOut.value) ≤ maxSatoshi.toInt
  inputs_nodup : (tx.msgTx.txIn.map TxIn.previousOutPoint).Nodup
  no_null : tx.isCoinBase = false → ∀ t ∈ tx.msgTx.txIn, isNullOutpoint t.previousOutPoint = false

theorem maxSatoshi_toInt : maxSatoshi.toInt = 2100000000000000 := by decide

theorem checkOutputValues_ok :
    ∀ {outs : List TxOut} {total : Int64}, 0 ≤ total.toInt → total.toInt ≤ maxSatoshi.toInt →
      checkOutputValues total outs = .ok () →
      (∀ out ∈ outs, 0 ≤ out.value.toInt ∧ out.value.toInt ≤ maxSatoshi.toInt) ∧
        total.toInt + sumInt (outs.map TxOut.value) ≤ maxSatoshi.toInt
  | [], total, _, hhi, _ => by simpa using hhi
  | out :: outs, total, hlo, hhi, h => by
      simp only [checkOutputValues, bind_eq_ok, exists_unit, rejectIf_eq_ok] at h
      obtain ⟨hneg, hmax, htneg, htmax, hrest⟩ := h
      simp only [Int64.not_lt, Int64.le_iff_toInt_le, Int64.toInt_zero] at hneg hmax htneg htmax
      have hbound := maxSatoshi_toInt
      have hadd : (total + out.value).toInt = total.toInt + out.value.toInt :=
        toInt_add_of_fits (by omega) (by omega)
      obtain ⟨hall, htot⟩ := checkOutputValues_ok htneg htmax hrest
      refine ⟨?_, ?_⟩
      · intro o ho
        rcases mem_cons.mp ho with rfl | ho
        · exact ⟨hneg, hmax⟩
        · exact hall o ho
      · simp only [map_cons, sumInt_cons]
        omega

theorem checkOutputValues_of_sum : ∀ {outs : List TxOut} {total : Int64}, 0 ≤ total.toInt →
      (∀ out ∈ outs, 0 ≤ out.value.toInt) →
      total.toInt + sumInt (outs.map TxOut.value) ≤ maxSatoshi.toInt →
      checkOutputValues total outs = .ok ()
  | [], total, _, _, _ => rfl
  | out :: outs, total, hlo, hall, htot => by
      have hbound := maxSatoshi_toInt
      have hout := hall out mem_cons_self
      have hrest : 0 ≤ sumInt (outs.map TxOut.value) := sumInt_nonneg fun v hv => by
        obtain ⟨o, ho, rfl⟩ := mem_map.mp hv
        exact hall o (mem_cons_of_mem _ ho)
      simp only [map_cons, sumInt_cons] at htot
      have hadd : (total + out.value).toInt = total.toInt + out.value.toInt :=
        toInt_add_of_fits (by omega) (by omega)
      simp only [checkOutputValues, bind_eq_ok, exists_unit, rejectIf_eq_ok, Int64.not_lt,
        Int64.le_iff_toInt_le, Int64.toInt_zero, hadd]
      refine ⟨hout, by omega, by omega, by omega, ?_⟩
      exact checkOutputValues_of_sum (by omega)
        (fun o ho => hall o (mem_cons_of_mem _ ho)) (by omega)

theorem saneTx_of_check {tx : Tx} (h : checkTransactionSanity tx = .ok ()) : SaneTx tx := by
  simp only [checkTransactionSanity, bind_eq_ok, exists_unit, rejectIf_eq_ok] at h
  obtain ⟨hin, hout, hsize, hvals, hdup, hnull⟩ := h
  obtain ⟨hrange, htotal⟩ := checkOutputValues_ok (by decide) (by decide) hvals
  refine ⟨hin, hout, not_lt.mp hsize, fun o ho => (hrange o ho).1, fun o ho => (hrange o ho).2,
    ?_, ?_, ?_⟩
  · simpa using htotal
  · simpa using hdup
  · intro hcb
    simpa [hcb] using hnull

theorem outputs_le_size (m : MsgTx) : m.txOut.length ≤ m.serializeSizeStripped := by
  have hsum : ∀ outs : List TxOut, outs.length ≤ (outs.map TxOut.serializeSize).sum := by
    intro outs
    induction outs with
    | nil => simp
    | cons out outs ih =>
      simp only [length_cons, map_cons, sum_cons, TxOut.serializeSize]
      omega
  have := hsum m.txOut
  unfold MsgTx.serializeSizeStripped MsgTx.baseSize
  omega

/-! ## Blocks -/

/-- `CountSigOps`: the legacy count over both sides of a transaction. -/
def countSigOps (tx : Tx) : Nat :=
  (tx.msgTx.txIn.map fun t => getSigOpCount t.signatureScript).sum +
    (tx.msgTx.txOut.map fun o => getSigOpCount o.pkScript).sum

/-- The signature-operation loop of `checkBlockSanity`. -/
def checkLegacySigOps : Nat → List Tx → Check Unit
  | _, [] => .ok ()
  | total, tx :: txs => do
      rejectIf (maxBlockSigOpsCost < total + countSigOps tx * witnessScaleFactor)
        (.rule .tooManySigOps ("block contains too many signature operations - got " ++
          toString (total + countSigOps tx * witnessScaleFactor)))
      checkLegacySigOps (total + countSigOps tx * witnessScaleFactor) txs

/-- `checkBlockSanity`, without the header and merkle root checks. -/
def checkBlockSanity (block : Block) : Check Unit := do
  let txs := block.transactions
  rejectIf (txs = []) (.rule .noTransactions "block does not contain any transactions")
  rejectIf (maxBlockBaseSize < txs.length) (.rule .blockTooBig
    ("block contains too many transactions - got " ++ toString txs.length))
  rejectIf (maxBlockBaseSize < block.serializeSizeStripped) (.rule .blockTooBig
    ("serialized block is too big - got " ++ toString block.serializeSizeStripped))
  rejectIf (txs.head?.all fun tx => !tx.isCoinBase) (.rule .firstTxNotCoinbase
    "first transaction in block is not a coinbase")
  rejectIf (txs.tail.any Tx.isCoinBase) (.rule .multipleCoinbases
    "block contains second coinbase")
  forM txs checkTransactionSanity
  rejectIf (¬ (txs.map Tx.hash).Nodup) (.rule .duplicateTx
    "block contains duplicate transaction")
  checkLegacySigOps 0 txs

def getBlockWeight (block : Block) : Nat :=
  block.serializeSizeStripped * (witnessScaleFactor - 1) + block.serializeSize

def blockContainsVDFResult (block : Block) : Bool :=
  block.transactions.any fun tx => tx.msgTx.version == txVersionVDFResult

/-- The weight rule of `checkBlockContext`, made once segwit is active. -/
def checkBlockWeight (block : Block) : Check Unit :=
  let maxWeight := if blockContainsVDFResult block then maxVDFBlockWeight else maxBlockWeight
  rejectIf (maxWeight < getBlockWeight block) (.rule .blockWeightTooHigh
    ("block's weight metric is too high - got " ++ toString (getBlockWeight block) ++ ", max " ++
      toString maxWeight))

/-- What a block that passed `checkBlockSanity` satisfies. -/
structure SaneBlock (block : Block) : Prop where
  coinbase_first : ∃ cb rest, block.transactions = cb :: rest ∧ cb.isCoinBase = true ∧
    ∀ tx ∈ rest, tx.isCoinBase = false
  sane : ∀ tx ∈ block.transactions, SaneTx tx
  ids_nodup : (block.transactions.map Tx.hash).Nodup

theorem saneBlock_of_check {block : Block} (h : checkBlockSanity block = .ok ()) :
    SaneBlock block := by
  simp only [checkBlockSanity, bind_eq_ok, exists_unit, rejectIf_eq_ok, forM_eq_ok] at h
  obtain ⟨hne, _, _, hfirst, hothers, hsane, hdup, _⟩ := h
  refine ⟨?_, fun tx htx => saneTx_of_check (hsane tx htx), by simpa using hdup⟩
  cases htxs : block.transactions with
  | nil => exact absurd htxs hne
  | cons cb rest =>
    refine ⟨cb, rest, rfl, ?_, ?_⟩
    · simpa [htxs] using hfirst
    · simpa [htxs] using hothers

end FalconDraw.Chain
