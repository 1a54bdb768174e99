/-
FalconDraw.Wire.TxLocTheorems — the location of a transaction inside a block.

Every decoder here is `Local`: what it read it reads again from the bytes it took.
-/
import FalconDraw.Wire.Codec

namespace FalconDraw.Wire

open Lib

/-! ## Decoders look at nothing behind what they take -/

theorem local_uint (n : Nat) : Local (readUint n) := (Local.full n).bind fun _ => Local.pure _

theorem local_hash : Local readHash := (Local.full 32).bind fun _ => Local.pure _

theorem local_varIntTail (discriminant size min : Nat) :
    Local (readVarIntTail discriminant size min) :=
  (local_uint size).bind fun _ => Local.check.bind fun _ => Local.pure _

theorem local_varInt : Local readVarIntBuf :=
  (local_uint 1).bind fun _ => (local_varIntTail _ _ _).ite
    ((local_varIntTail _ _ _).ite ((local_varIntTail _ _ _).ite (Local.pure _)))

theorem local_script (slab : Nat) (fieldName : String) : Local (readScriptBuf slab fieldName) :=
  local_varInt.bind fun count => Local.check.bind fun _ => Local.check.bind fun _ =>
    Local.full count

theorem local_txIn (slab : Nat) : Local (readTxInBuf slab) := by
  have hop : Local readOutPointBuf :=
    local_hash.bind fun _ => (local_uint 4).bind fun _ => Local.pure _
  exact hop.bind fun _ => (local_script _ _).bind fun _ => (local_uint 4).bind fun _ =>
    Local.pure _

theorem local_txOut (slab : Nat) : Local (readTxOutBuf slab) :=
  (local_uint 8).bind fun _ => (local_script _ _).bind fun _ => Local.pure _

theorem local_witness (slab : Nat) : Local (readTxWitnessBuf slab) :=
  local_varInt.bind fun _ => Local.check.bind fun _ =>
    Local.budget (fun budget => local_script budget _) _ _

theorem local_witnesses : ∀ (txIn : List TxIn) (slab : Nat), Local (readWitnesses slab txIn)
  | [], _ => Local.pure []
  | _ :: tis, slab => (local_witness slab).bind fun p => (local_witnesses tis p.2).bind fun _ =>
      Local.pure _

theorem local_txWitnesses (enc : MessageEncoding) (flag : UInt8) (slab : Nat)
    (txIn : List TxIn) : Local (readTxWitnesses enc flag slab txIn) :=
  ((local_witnesses txIn slab).bind fun _ => Local.check.bind fun _ => Local.pure _).ite
    (Local.pure txIn)

theorem local_inputCount (enc : MessageEncoding) : Local (readInputCount enc) :=
  local_varInt.bind fun _ => ((Local.full 1).bind fun _ => Local.check.bind fun _ =>
    local_varInt.bind fun _ => Local.pure _).ite (Local.pure _)

theorem local_tx (enc : MessageEncoding) (slab : Nat) : Local (MsgTx.btcDecode enc slab) :=
  (local_uint 4).bind fun _ => (local_inputCount enc).bind fun _ => Local.check.bind fun _ =>
    (Local.budget local_txIn _ _).bind fun _ => local_varInt.bind fun _ =>
    Local.check.bind fun _ => (Local.budget local_txOut _ _).bind fun _ =>
    (local_txWitnesses enc _ _ _).bind fun _ => (local_uint 4).bind fun _ => Local.pure _

theorem local_header : Local readBlockHeaderBuf :=
  (local_uint 4).bind fun _ => local_hash.bind fun _ => local_hash.bind fun _ =>
    (local_uint 4).bind fun _ => (local_uint 4).bind fun _ => (local_uint 4).bind fun _ =>
    Local.pure _

/-! ## Locations -/

/-- The bytes at `loc` are those of `tx`. -/
structure LocatedAt (bytes : Bytes) (loc : TxLoc) (tx : MsgTx) : Prop where
  inside : loc.txStart + loc.txLen ≤ bytes.length
  decodes : MsgTx.btcDecode .witness scriptSlabSize
    (slice bytes loc.txStart (loc.txStart + loc.txLen)) = .ok (tx, [])

theorem locatedAt_of_reads {front bs rest : Bytes} {tx : MsgTx}
    (h : Reads (MsgTx.btcDecode .witness scriptSlabSize) bs tx) :
    LocatedAt (front ++ (bs ++ rest)) ⟨front.length, bs.length⟩ tx := by
  have hslice : slice (front ++ (bs ++ rest)) front.length (front.length + bs.length) = bs := by
    rw [slice_append_right (Nat.le_refl _), Nat.sub_self, Nat.add_sub_cancel_left]
    exact slice_append_left rfl
  refine ⟨?_, ?_⟩
  · simp only [List.length_append]
    omega
  · rw [hslice]
    simpa only [List.append_nil] using h []

theorem readTxLocs_ok {full : Bytes} (n : Nat) : ∀ {front input rest : Bytes} {locs : List TxLoc},
    full = front ++ input → readMany (readTxLoc full.length) n input = .ok (locs, rest) →
      ∃ txs, readMany (MsgTx.btcDecode .witness scriptSlabSize) n input = .ok (txs, rest) ∧
        List.Forall₂ (LocatedAt full) locs txs := by
  induction n with
  | zero =>
    intro front input rest locs _ h
    cases h
    exact ⟨[], rfl, .nil⟩
  | succ n ih =>
    intro front input rest locs hfull h
    obtain ⟨loc, behind, hloc, h⟩ := reader_bind_ok h
    obtain ⟨locs', rest', hlocs, h⟩ := reader_bind_ok h
    cases h
    obtain ⟨_, _, hbefore, hloc⟩ := reader_bind_ok hloc
    cases hbefore
    obtain ⟨tx, behind', htx, hloc⟩ := reader_bind_ok hloc
    cases hloc
    obtain ⟨bs, rfl, hreads⟩ := local_tx _ _ _ _ _ htx
    obtain ⟨txs, htxs, hlocated⟩ := ih
      (show full = (front ++ bs) ++ behind by rw [hfull, List.append_assoc]) hlocs
    refine ⟨tx :: txs, ?_, .cons ?_ hlocated⟩
    · rw [readMany, reader_bind_eq htx, reader_bind_eq htxs]
      rfl
    · have hplace : (full.length - (bs ++ behind).length : Nat) = front.length ∧
          full.length - behind.length - front.length = bs.length := by
        simp only [hfull, List.length_append]
        omega
      rw [hplace.1, hplace.2, hfull]
      exact locatedAt_of_reads hreads

theorem deserializeTxLoc_ok {bytes rest : Bytes} {locs : List TxLoc}
    (h : MsgBlock.deserializeTxLoc bytes = .ok (locs, rest)) :
    ∃ m, MsgBlock.btcDecode .witness bytes = .ok (m, rest) ∧
      List.Forall₂ (LocatedAt bytes) locs m.transactions := by
  obtain ⟨_, _, hlen, h⟩ := reader_bind_ok h
  cases hlen
  obtain ⟨header, afterHeader, hheader, h⟩ := reader_bind_ok h
  obtain ⟨count, afterCount, hcount, h⟩ := reader_bind_ok h
  obtain ⟨_, afterCheck, hcheck, h⟩ := reader_bind_ok h
  obtain ⟨hmax, rfl⟩ := failIf_ok hcheck
  obtain ⟨front, hfront, -⟩ := local_header _ _ _ hheader
  obtain ⟨countBytes, hcountBytes, -⟩ := local_varInt _ _ _ hcount
  have hfull : bytes = (front ++ countBytes) ++ afterCount := by
    rw [hfront, hcountBytes, List.append_assoc]
  obtain ⟨txs, htxs, hlocated⟩ := readTxLocs_ok count hfull h
  refine ⟨⟨header, txs⟩, ?_, hlocated⟩
  rw [MsgBlock.btcDecode, reader_bind_eq hheader, reader_bind_eq hcount,
    reader_bind_eq (failIf_pass hmax _), reader_bind_eq htxs]
  rfl

end FalconDraw.Wire
