/-
FalconDraw.Chain.RelayTheorems — which acceptable blocks can be handed to a
peer.

The rules bound a block by its base size (5,000,000 bytes) and its weight
(20,000,000, or 256,000,000 with a VDF result in it).
-/
import FalconDraw.Wire.CodecTheorems
import FalconDraw.Chain.ConnectTheorems

namespace FalconDraw.Chain

open Lib Wire Script Draw List

/-- The rules on the size and shape of a block, with segwit active. -/
structure Acceptable (block : Block) : Prop where
  sane : checkBlockSanity block = .ok ()
  weight : checkBlockWeight block = .ok ()

theorem Acceptable.inputs_ne {block : Block} (h : Acceptable block) (merkleRoot : Hash)
    (nonce : Nat) : ∀ tx ∈ (block.msgBlock merkleRoot nonce).transactions, tx.txIn ≠ [] := by
  intro m hm
  obtain ⟨tx, htx, rfl⟩ := mem_map.mp hm
  exact ((saneBlock_of_check h.sane).sane tx htx).inputs_ne

/-- An acceptable block is written and read back exactly when it fits into a
message and its time into 32 bits. -/
theorem acceptable_block_travels_iff (btcnet : UInt32) {block : Block} (merkleRoot : Hash)
    {nonce : Nat} (ht : (block.msgBlock merkleRoot nonce).Typed) (hok : Acceptable block) :
    Travels btcnet (block.msgBlock merkleRoot nonce) ↔
      block.serializeSize ≤ maxProtocolMessageLength ∧
      0 ≤ block.header.timestamp ∧ block.header.timestamp < 2 ^ 32 := by
  rw [travels_iff ht (hok.inputs_ne merkleRoot nonce), Block.btcEncode_length]
  rfl

/-! ## A block of any size the rules allow -/

def paddedScript (n : Nat) : Bytes := [0x4e, 0xff, 0xff, 0xff, 0xff] ++ List.replicate n 0

def paddedTx (n : Nat) : Tx := coinbaseTx 9 [⟨0, paddedScript n⟩]

def paddedBlock (n : Nat) : Block := regularBlock 3 [paddedTx n]

theorem paddedScript_length (n : Nat) : (paddedScript n).length = n + 5 := by
  rw [paddedScript, length_append, length_replicate]
  exact Nat.add_comm _ _

theorem getSigOpCount_paddedScript (n : Nat) : getSigOpCount (paddedScript n) = 0 := by
  have hpush : next 0x4e ([0xff, 0xff, 0xff, 0xff] ++ List.replicate n 0) = none := by
    have hlen : ¬ ([0xff, 0xff, 0xff, 0xff] ++ List.replicate n (0 : UInt8)).length < 4 := by
      rw [length_append]
      exact Nat.not_lt.mpr (Nat.le_add_right 4 _)
    have hneg : 2 ^ 31 ≤
        leNat (([0xff, 0xff, 0xff, 0xff] ++ List.replicate n (0 : UInt8)).take 4) := by
      show 2 ^ 31 ≤ leNat [0xff, 0xff, 0xff, 0xff]
      decide
    rw [Script.next, if_neg (by decide), if_neg (by decide), if_pos (by decide), pushData]
    rw [if_neg hlen, if_pos (Or.inr hneg)]
  have htokens : tokenize (paddedScript n) = ⟨[], false⟩ := by
    rw [tokenize, paddedScript_length]
    show tokenizeFuel (n + 4 + 1) (0x4e :: ([0xff, 0xff, 0xff, 0xff] ++ List.replicate n 0)) = _
    rw [tokenizeFuel, hpush]
  rw [getSigOpCount, countSigOpsV0, htokens]
  rfl

theorem paddedTx_size {n : Nat} (hlo : 0xffff < n + 5) (hhi : n + 5 ≤ 0xffffffff) :
    (paddedTx n).msgTx.serializeSizeStripped = n + 71 := by
  have hvar : varIntSerializeSize (n + 5) = 5 := by
    unfold varIntSerializeSize
    rw [if_neg (by omega), if_neg (by omega), if_pos hhi]
  have hone : varIntSerializeSize 1 = 1 := by decide
  have htwo : varIntSerializeSize 2 = 1 := by decide
  simp only [paddedTx, coinbaseTx, MsgTx.serializeSizeStripped, MsgTx.baseSize,
    TxIn.serializeSize, TxOut.serializeSize, paddedScript_length, hvar, map_cons,
    map_nil, sum_cons, sum_nil, length_cons, length_nil, hone, htwo]
  omega

theorem paddedBlock_size {n : Nat} (hlo : 0xffff < n + 5) (hhi : n + 5 ≤ 0xffffffff) :
    (paddedBlock n).serializeSizeStripped = n + 152 ∧ (paddedBlock n).serializeSize = n + 152 := by
  have hbase : (paddedBlock n).serializeSizeStripped = 80 + 1 + (n + 71 + 0) := by
    rw [← paddedTx_size hlo hhi]
    rfl
  have hsame : (paddedBlock n).serializeSize = (paddedBlock n).serializeSizeStripped := rfl
  omega

theorem paddedTx_sane {n : Nat} (hlo : 0xffff < n + 5) (hhi : n + 152 ≤ 5000000) :
    checkTransactionSanity (paddedTx n) = .ok () := by
  have hsize := paddedTx_size hlo (by omega)
  have hvalues : checkOutputValues 0 (paddedTx n).msgTx.txOut = .ok () := by
    refine checkOutputValues_of_sum (by decide) (fun out hout => ?_) (of_decide_eq_true rfl)
    rw [mem_singleton.mp hout]
    exact Int.le_refl 0
  have hcb : (paddedTx n).isCoinBase = true := rfl
  simp only [checkTransactionSanity, bind_eq_ok, exists_unit, rejectIf_eq_ok, hsize, hcb, if_true,
    Nat.not_lt]
  refine ⟨cons_ne_nil _ _, cons_ne_nil _ _, ?_, hvalues, ?_, ?_⟩
  · unfold maxBlockBaseSize
    omega
  · exact not_not_intro (nodup_singleton _)
  · show ¬ ((2 : Nat) < minCoinbaseScriptLen ∨ maxCoinbaseScriptLen < 2)
    decide

theorem paddedBlock_acceptable {n : Nat} (hlo : 0xffff < n + 5) (hhi : n + 152 ≤ 5000000) :
    Acceptable (paddedBlock n) := by
  obtain ⟨hbase, hsize⟩ := paddedBlock_size hlo (by omega)
  constructor
  · have htxs : (paddedBlock n).transactions = [paddedTx n] := rfl
    have hsigops : countSigOps (paddedTx n) = 0 := by
      show getSigOpCount [0x51, 0x51] + 0 + (getSigOpCount (paddedScript n) + 0) = 0
      rw [getSigOpCount_paddedScript]
      decide
    simp only [checkBlockSanity, bind_eq_ok, exists_unit, rejectIf_eq_ok, forM_eq_ok, htxs, hbase,
      checkLegacySigOps, hsigops, mem_singleton, forall_eq]
    refine ⟨cons_ne_nil _ _, of_decide_eq_true rfl, ?_, of_decide_eq_true rfl,
      of_decide_eq_true rfl, paddedTx_sane hlo hhi, ?_, by decide, trivial⟩
    · unfold maxBlockBaseSize
      omega
    · exact not_not_intro (nodup_singleton _)
  · have hplain : blockContainsVDFResult (paddedBlock n) = false := rfl
    rw [checkBlockWeight, hplain, getBlockWeight, hbase, hsize, rejectIf_eq_ok]
    simp only [maxBlockWeight, witnessScaleFactor, Bool.false_eq_true, if_false]
    omega

theorem paddedBlock_typed (n : Nat) : ((paddedBlock n).msgBlock 0 0).Typed := by
  refine ⟨of_decide_eq_true rfl, of_decide_eq_true rfl, of_decide_eq_true rfl,
    of_decide_eq_true rfl, fun m hm => ?_⟩
  rw [mem_singleton.mp hm]
  refine ⟨of_decide_eq_true rfl, of_decide_eq_true rfl, fun ti hti => ?_, fun ti hti => ?_,
    of_decide_eq_true rfl⟩
  · rw [mem_singleton.mp hti]
    decide
  · rw [mem_singleton.mp hti]
    decide

/-- With 65531 bytes of padding the block is written and read back. -/
theorem small_block_travels :
    (((paddedBlock 65531).msgBlock 0 0).Typed ∧ Acceptable (paddedBlock 65531)) ∧
      Travels 0x414570dd ((paddedBlock 65531).msgBlock 0 0) := by
  have ht := paddedBlock_typed 65531
  have hok : Acceptable (paddedBlock 65531) := paddedBlock_acceptable (by decide) (by decide)
  have hsize := (paddedBlock_size (n := 65531) (by decide) (by decide)).2
  refine ⟨⟨ht, hok⟩, (acceptable_block_travels_iff 0x414570dd 0 ht hok).mpr ⟨?_, by decide⟩⟩
  rw [hsize]
  decide

/-- A block of four million bytes and more obeys the rules, and no message can
be written for it. -/
theorem large_block_unsendable :
    (((paddedBlock 4000000).msgBlock 0 0).Typed ∧ Acceptable (paddedBlock 4000000)) ∧
      ∀ btcnet bytes,
        writeMessageWithEncodingN ((paddedBlock 4000000).msgBlock 0 0) btcnet .witness ≠
          .ok bytes := by
  have hsize := (paddedBlock_size (n := 4000000) (by decide) (by decide)).2
  refine ⟨⟨paddedBlock_typed _, paddedBlock_acceptable (by decide) (by decide)⟩, ?_⟩
  intro btcnet bytes hwrite
  have hle := ((writeMessage_eq_ok_iff btcnet bytes).mp hwrite).1
  rw [Block.btcEncode_length, hsize] at hle
  exact absurd hle (by decide)

end FalconDraw.Chain
