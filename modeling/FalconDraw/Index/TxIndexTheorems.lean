/-
FalconDraw.Index.TxIndexTheorems — when the transaction index points at the right
bytes.

As long as every block is written under an id no other block has, the rows are
those of connecting the chain from nothing (`Indexed`).
-/
import FalconDraw.Index.TxIndex
import FalconDraw.Wire.TxLocTheorems
import FalconDraw.Wire.CodecTheorems
import FalconDraw.Lib.Transition

namespace FalconDraw.Index

open Lib Wire List

variable {locs : List TxLoc} {b : StoredBlock} {id : UInt32}

/-! ## Entries -/

@[simp] theorem serializedID_length (id : UInt32) : (serializedID id).length = 4 :=
  leBytes_length _ _

theorem fetch_entry {rows : TxIndexRows} {t h : Hash} {loc : TxLoc}
    (hstart : loc.txStart < 256 ^ 4) (hlen : loc.txLen < 256 ^ 4)
    (hentry : rows.txIndex.get t = some (putTxIndexEntry id loc))
    (hid : rows.hashByID.get (serializedID id) = some h) :
    dbFetchTxIndexEntry rows t = .ok (some ⟨h, loc.txStart, loc.txLen⟩) := by
  have hsize : (putTxIndexEntry id loc).length = txEntrySize := by
    simp [putTxIndexEntry, txEntrySize]
  have h₀ : slice (putTxIndexEntry id loc) 0 4 = serializedID id :=
    slice_append_left (serializedID_length id)
  have h₁ : slice (putTxIndexEntry id loc) 4 8 = leBytes 4 loc.txStart := by
    simp [putTxIndexEntry, slice_append_right, slice_append_left]
  have h₂ : slice (putTxIndexEntry id loc) 8 12 = leBytes 4 loc.txLen := by
    simp [putTxIndexEntry, slice_append_right, slice_zero]
  have hlong : ¬ (putTxIndexEntry id loc).length = 0 ∧
      ¬ (putTxIndexEntry id loc).length < txEntrySize := by
    rw [hsize]
    decide
  simp only [dbFetchTxIndexEntry, hentry, Option.getD_some, if_neg hlong.1, if_neg hlong.2, h₀, h₁,
    h₂, dbFetchBlockHashBySerializedID, hid, leNat_leBytes_of_lt hstart, leNat_leBytes_of_lt hlen]

theorem fetch_none {rows : TxIndexRows} {t : Hash} (h : rows.txIndex.get t = none) :
    dbFetchTxIndexEntry rows t = .ok none := by
  rw [dbFetchTxIndexEntry, h]
  rfl

theorem txLoc_located (h : b.txLoc = .ok locs) :
    List.Forall₂ (fun tx loc => LocatedAt b.bytes loc tx.msgTx) b.block.transactions locs := by
  unfold StoredBlock.txLoc at h
  split at h
  · cases h
  · rename_i locs' rest hread
    cases h
    obtain ⟨m, hm, hlocated⟩ := deserializeTxLoc_ok hread
    rw [b.faithful m rest hm, forall₂_map_right_iff] at hlocated
    exact hlocated.flip

theorem keys_zip_txLoc (h : b.txLoc = .ok locs) :
    (b.block.transactions.zip locs).map (fun p => p.1.hash) = b.txids := by
  have hle := Nat.le_of_eq (txLoc_located h).length_eq
  have hfst := congrArg (List.map Tx.hash) (map_fst_zip hle)
  rwa [map_map] at hfst

theorem exists_located {P : Tx → TxLoc → Prop} {txs : List Tx}
    (h : List.Forall₂ P txs locs) {tx : Tx} (htx : tx ∈ txs) :
    ∃ loc, (tx, loc) ∈ txs.zip locs ∧ P tx loc := by
  induction h with
  | nil => cases htx
  | @cons tx' loc' _ _ hP _ ih => grind

/-! ## What connecting a block writes -/

def putTxs (txIndex : Bucket Hash Bytes) (id : UInt32) (located : List (Tx × TxLoc)) :
    Bucket Hash Bytes :=
  located.foldl (fun txIndex (tx, loc) => txIndex.put tx.hash (putTxIndexEntry id loc)) txIndex

theorem addBlock_ok {rows rows' : TxIndexRows} (h : TxIndex.addBlock rows b id = .ok rows') :
    ∃ locs, b.txLoc = .ok locs ∧ rows' = {
        idByHash := rows.idByHash.put b.hash (serializedID id)
        hashByID := rows.hashByID.put (serializedID id) b.hash
        txIndex := putTxs rows.txIndex id (b.block.transactions.zip locs) } := by
  have hfold : ∀ (located : List (Tx × TxLoc)) (rows : TxIndexRows),
      located.foldl (fun rows (tx, txLoc) =>
        dbPutTxIndexEntry rows tx.hash (putTxIndexEntry id txLoc)) rows =
      { rows with txIndex := putTxs rows.txIndex id located } := by
    intro located
    induction located with
    | nil => exact fun _ => rfl
    | cons p located ih => exact fun rows => ih (dbPutTxIndexEntry rows p.1.hash _)
  simp only [TxIndex.addBlock, dbAddTxIndexEntries, bind_eq_ok, pure_eq_ok] at h
  obtain ⟨_, ⟨locs, hlocs, rfl⟩, rfl⟩ := h
  refine ⟨locs, hlocs, ?_⟩
  rw [hfold, dbPutBlockIDIndexEntry]

theorem get_putTxs_of_notMem {t : Hash} {located : List (Tx × TxLoc)}
    (txIndex : Bucket Hash Bytes) (h : ∀ p ∈ located, p.1.hash ≠ t) :
    (putTxs txIndex id located).get t = txIndex.get t := by
  induction located generalizing txIndex with
  | nil => rfl
  | cons p located ih =>
    have hrest := ih (txIndex.put p.1.hash (putTxIndexEntry id p.2))
      fun q hq => h q (mem_cons_of_mem p hq)
    exact hrest.trans (Bucket.get_put_of_ne _ _ (h p mem_cons_self).symm)

theorem get_putTxs {located : List (Tx × TxLoc)} {tx : Tx} {loc : TxLoc}
    (txIndex : Bucket Hash Bytes) (hnodup : (located.map fun p => p.1.hash).Nodup)
    (h : (tx, loc) ∈ located) :
    (putTxs txIndex id located).get tx.hash = some (putTxIndexEntry id loc) := by
  induction located generalizing txIndex with
  | nil => cases h
  | cons p located ih =>
    rw [map_cons, nodup_cons] at hnodup
    rcases mem_cons.mp h with rfl | h
    · have hlater : ∀ q ∈ located, q.1.hash ≠ tx.hash := fun q hq heq =>
        hnodup.1 (heq ▸ mem_map_of_mem (f := fun p : Tx × TxLoc => p.1.hash) hq)
      exact (get_putTxs_of_notMem _ hlater).trans (Bucket.get_put_self _ _ _)
    · exact ih _ hnodup.2 h

/-! ## Taking a block back -/

theorem removeEntries_ok {ts : List Hash} {rows : TxIndexRows} (hnodup : ts.Nodup)
    (hhas : ∀ t ∈ ts, ((rows.txIndex.get t).getD []).length ≠ 0) :
    ts.foldlM dbRemoveTxIndexEntry rows =
      .ok { rows with txIndex := ts.foldl Bucket.delete rows.txIndex } := by
  induction ts generalizing rows with
  | nil => rfl
  | cons t ts ih =>
    rw [nodup_cons] at hnodup
    have hrest : ∀ u ∈ ts, (((rows.txIndex.delete t).get u).getD []).length ≠ 0 := by
      grind [Bucket.get_delete_of_ne]
    have hthis : dbRemoveTxIndexEntry rows t =
        .ok { rows with txIndex := rows.txIndex.delete t } := by
      rw [dbRemoveTxIndexEntry, rejectIf, if_neg (hhas t mem_cons_self)]
      rfl
    rw [foldlM_cons, hthis]
    exact ih hnodup.2 hrest

theorem get_foldl_delete (ts : List Hash) (txIndex : Bucket Hash Bytes) (t : Hash) :
    (ts.foldl Bucket.delete txIndex).get t = if t ∈ ts then none else txIndex.get t := by
  induction ts generalizing txIndex with
  | nil => simp
  | cons u ts ih =>
    rw [foldl_cons, ih, Bucket.get_delete]
    by_cases ht : t = u <;> by_cases hts : t ∈ ts <;> simp [ht, hts]

/-- Disconnecting the block that was connected last restores the rows, when its
hash, its id and its transactions were new. -/
theorem removeBlock_addBlock {rows rows' : TxIndexRows}
    (hadd : TxIndex.addBlock rows b id = .ok rows') (hhash : rows.idByHash.get b.hash = none)
    (hid : rows.hashByID.get (serializedID id) = none) (hnodup : b.txids.Nodup)
    (htxs : ∀ t ∈ b.txids, rows.txIndex.get t = none) : TxIndex.removeBlock rows' b = .ok rows := by
  obtain ⟨locs, hlocs, rfl⟩ := addBlock_ok hadd
  have hkeys := keys_zip_txLoc hlocs
  have hhas : ∀ t ∈ b.txids,
      (((putTxs rows.txIndex id (b.block.transactions.zip locs)).get t).getD []).length ≠ 0 := by
    intro t ht
    rw [← hkeys] at ht hnodup
    obtain ⟨⟨tx, loc⟩, hmem, rfl⟩ := mem_map.mp ht
    rw [get_putTxs _ hnodup hmem, Option.getD_some, putTxIndexEntry, serializedID]
    simp [leBytes]
  have hback : b.txids.foldl Bucket.delete
      (putTxs rows.txIndex id (b.block.transactions.zip locs)) = rows.txIndex := by
    ext1 t
    rw [get_foldl_delete]
    split
    · rename_i ht
      exact (htxs t ht).symm
    · rename_i ht
      refine get_putTxs_of_notMem _ fun p hp heq => ht ?_
      rw [← hkeys, ← heq]
      exact mem_map_of_mem (f := fun p : Tx × TxLoc => p.1.hash) hp
  rw [TxIndex.removeBlock, dbRemoveTxIndexEntries, removeEntries_ok hnodup hhas]
  show Except.ok (dbRemoveBlockIDIndexEntry _ b.hash) = _
  rw [dbRemoveBlockIDIndexEntry]
  simp only [Bucket.get_put_self, hback, Bucket.delete_put _ _ hhash, Bucket.delete_put _ _ hid]

/-! ## Rows of a chain -/

/-- The rows of a chain that was connected block by block, every block under an
id that was not in use. -/
inductive Indexed : List StoredBlock → TxIndexRows → Prop
  | nil : Indexed [] .empty
  | cons {chain : List StoredBlock} {rows rows' : TxIndexRows} {b : StoredBlock} {id : UInt32}
      (before : Indexed chain rows) (linked : b.prevBlock = tipHash chain)
      (fresh : Fresh chain b) (unused : rows.hashByID.get (serializedID id) = none)
      (added : TxIndex.addBlock rows b id = .ok rows') : Indexed (b :: chain) rows'

namespace Indexed

variable {chain : List StoredBlock} {rows : TxIndexRows}

theorem mem_of_id (h : Indexed chain rows) {hash : Hash} (hid : rows.idByHash.get hash ≠ none) :
    hash ∈ chain.map StoredBlock.hash := by
  induction h with
  | nil => exact absurd rfl hid
  | @cons _ _ _ b _ before _ _ _ added ih =>
    obtain ⟨locs, -, rfl⟩ := addBlock_ok added
    rw [map_cons, mem_cons]
    by_cases heq : hash = b.hash
    · exact .inl heq
    · rw [Bucket.get_put_of_ne _ _ heq] at hid
      exact .inr (ih hid)

theorem id_of_notMem (h : Indexed chain rows) {hash : Hash}
    (hmem : hash ∉ chain.map StoredBlock.hash) : rows.idByHash.get hash = none :=
  Classical.not_not.mp fun hid => hmem (h.mem_of_id hid)

theorem ids (h : Indexed chain rows) (hash : Hash) (id : Bytes) :
    rows.hashByID.get id = some hash ↔ rows.idByHash.get hash = some id := by
  induction h with
  | nil => simp [TxIndexRows.empty]
  | @cons _ rows _ b newID before _ fresh unused added ih =>
    obtain ⟨locs, -, rfl⟩ := addBlock_ok added
    have hnone := before.id_of_notMem fresh.hash
    show (rows.hashByID.put (serializedID newID) b.hash).get id = some hash ↔
      (rows.idByHash.put b.hash (serializedID newID)).get hash = some id
    rw [Bucket.get_put, Bucket.get_put]
    by_cases hid : id = serializedID newID <;> by_cases hhash : hash = b.hash
    · simp [hid, hhash]
    · rw [if_pos hid, if_neg hhash, ← ih, hid, unused]
      simp [Ne.symm hhash]
    · rw [if_neg hid, if_pos hhash, ih, hhash, hnone]
      simp [Ne.symm hid]
    · rw [if_neg hid, if_neg hhash, ih]

theorem absent (h : Indexed chain rows) {t : Hash} (ht : t ∉ chain.flatMap StoredBlock.txids) :
    rows.txIndex.get t = none := by
  induction h with
  | nil => rfl
  | cons before _ _ _ added ih =>
    obtain ⟨locs, -, rfl⟩ := addBlock_ok added
    rw [flatMap_cons, mem_append, not_or] at ht
    refine (get_putTxs_of_notMem _ fun p hp heq => ht.1 ?_).trans (ih ht.2)
    rw [← heq]
    exact mem_map_of_mem (f := Tx.hash) (of_mem_zip hp).1

theorem entry (h : Indexed chain rows) {b : StoredBlock} (hb : b ∈ chain) {tx : Tx}
    (htx : tx ∈ b.block.transactions) :
    ∃ id loc, rows.txIndex.get tx.hash = some (putTxIndexEntry id loc) ∧
      rows.hashByID.get (serializedID id) = some b.hash ∧ LocatedAt b.bytes loc tx.msgTx := by
  induction h with
  | nil => cases hb
  | @cons chain rows _ new newID before _ fresh unused added ih =>
    obtain ⟨locs, hlocs, rfl⟩ := addBlock_ok added
    have hlocated := txLoc_located hlocs
    have hkeys := keys_zip_txLoc hlocs
    rcases mem_cons.mp hb with rfl | hb
    · -- the block itself
      obtain ⟨loc, hmem, hat⟩ := exists_located hlocated htx
      exact ⟨newID, loc, get_putTxs _ (hkeys ▸ fresh.nodup) hmem, Bucket.get_put_self _ _ _, hat⟩
    · -- an older block keeps its id and its entries
      obtain ⟨id, loc, hentry, hid, hat⟩ := ih hb
      have hold : tx.hash ∈ chain.flatMap StoredBlock.txids :=
        mem_flatMap.mpr ⟨b, hb, mem_map_of_mem (f := Tx.hash) htx⟩
      refine ⟨id, loc, ?_, ?_, hat⟩
      · refine (get_putTxs_of_notMem _ fun p hp heq => ?_).trans hentry
        exact fresh.txids p.1.hash (mem_map_of_mem (f := Tx.hash) (of_mem_zip hp).1)
          (heq ▸ hold)
      · grind

end Indexed

/-! ## Right lookups -/

/-- Every transaction of the chain is found in its block, no two blocks share an
id and no other transaction has an entry. -/
structure Right (s : IndexedChain) : Prop where
  found : ∀ b ∈ s.chain, ∀ tx ∈ b.block.transactions, ∃ region,
    dbFetchTxIndexEntry s.rows tx.hash = .ok (some region) ∧ region.hash = b.hash ∧
      MsgTx.btcDecode .witness scriptSlabSize (region.bytesOf b.bytes) = .ok (tx.msgTx, [])
  ids_differ : ∀ h h' id, s.rows.idByHash.get h = some id → s.rows.idByHash.get h' = some id →
    h = h'
  absent : ∀ t, t ∉ s.chain.flatMap StoredBlock.txids → dbFetchTxIndexEntry s.rows t = .ok none

theorem right_of_indexed {s : IndexedChain} (h : Indexed s.chain s.rows) : Right s := by
  refine ⟨fun b hb tx htx => ?_, fun h₁ h₂ id hid₁ hid₂ => ?_, fun t ht => fetch_none (h.absent ht)⟩
  · obtain ⟨id, loc, hentry, hid, hat⟩ := h.entry hb htx
    have hin := hat.inside
    have hsmall := b.small
    exact ⟨⟨b.hash, loc.txStart, loc.txLen⟩, fetch_entry (by omega) (by omega) hentry hid, rfl,
      hat.decodes⟩
  · rw [← h.ids] at hid₁ hid₂
    exact Option.some.inj (hid₁.symm.trans hid₂)

/-! ## Steps and runs -/

namespace IndexedChain

variable {s : IndexedChain}

theorem tryConnect_ok {b : StoredBlock} {rows : TxIndexRows} {cur : UInt32}
    {tip : IndexTip} (h : s.tryConnect b = .ok ((rows, cur), tip)) :
    TxIndex.addBlock s.rows b (s.curBlockID + 1) = .ok rows ∧ cur = s.curBlockID + 1 ∧
      tip.hash = b.hash := by
  simp only [tryConnect, dbIndexConnectBlock, TxIndex.connectBlock, bind_eq_ok, exists_unit,
    rejectIf_eq_ok, pure_eq_ok, Prod.mk.injEq] at h
  obtain ⟨-, ⟨_, _⟩, ⟨_, hadd, rfl, rfl⟩, ⟨rfl, rfl⟩, rfl⟩ := h
  exact ⟨hadd, rfl, rfl⟩

theorem tryDisconnect_ok {b : StoredBlock} {rows : TxIndexRows}
    {cur : UInt32} {tip : IndexTip} (h : s.tryDisconnect b = .ok ((rows, cur), tip)) :
    TxIndex.removeBlock s.rows b = .ok rows ∧ cur = s.curBlockID - 1 ∧ tip.hash = b.prevBlock := by
  simp only [tryDisconnect, dbIndexDisconnectBlock, TxIndex.disconnectBlock, bind_eq_ok,
    exists_unit, rejectIf_eq_ok, pure_eq_ok, Prod.mk.injEq] at h
  obtain ⟨-, ⟨_, _⟩, ⟨_, hremove, rfl, rfl⟩, ⟨rfl, rfl⟩, rfl⟩ := h
  exact ⟨hremove, rfl, rfl⟩

def connects (s : IndexedChain) : IndexAction → Bool
  | .connect b true => (s.tryConnect b).isOk
  | _ => false

/-- A block that gets connected does so under an id that is not in use. -/
def IdUnused (s : IndexedChain) (a : IndexAction) : Prop :=
  s.connects a = true → s.rows.hashByID.get (serializedID (s.curBlockID + 1)) = none

instance (s : IndexedChain) (a : IndexAction) : Decidable (s.IdUnused a) :=
  inferInstanceAs (Decidable (_ → _))

theorem step_cases {s' : IndexedChain} {a : IndexAction} (h : s.step a = some s') :
    (s.connects a = false ∧ s'.chain = s.chain ∧ s'.rows = s.rows) ∨
    (∃ b, s.connects a = true ∧ b.prevBlock = tipHash s.chain ∧ Fresh s.chain b ∧
      s'.chain = b :: s.chain ∧
      TxIndex.addBlock s.rows b (s.curBlockID + 1) = .ok s'.rows) ∨
    (∃ b, s.connects a = false ∧ s.chain = b :: s'.chain ∧
      TxIndex.removeBlock s.rows b = .ok s'.rows) := by
  cases a with
  | connect b commits =>
    rw [step] at h
    split at h
    · rename_i hok
      cases hconnect : s.tryConnect b with
      | error e =>
        rw [hconnect] at h
        cases h
        have hno : s.connects (.connect b commits) = false := by
          cases commits <;> simp [connects, hconnect, Except.isOk, Except.toBool]
        exact .inl ⟨hno, rfl, rfl⟩
      | ok p =>
        obtain ⟨⟨rows, cur⟩, tip⟩ := p
        obtain ⟨hadd, -, -⟩ := tryConnect_ok hconnect
        rw [hconnect] at h
        cases commits with
        | false =>
          cases h
          exact .inl ⟨rfl, rfl, rfl⟩
        | true =>
          cases h
          exact .inr (.inl ⟨b, by rw [connects, hconnect]; rfl, hok.1, hok.2, rfl, hadd⟩)
    · cases h
  | disconnect commits =>
    rw [step] at h
    split at h
    · cases h
    · rename_i b chain hchain
      split at h
      · cases h
        exact .inl ⟨rfl, rfl, rfl⟩
      · rename_i rows cur tip hdisconnect
        obtain ⟨hremove, -, -⟩ := tryDisconnect_ok hdisconnect
        cases commits with
        | false =>
          cases h
          exact .inl ⟨rfl, rfl, rfl⟩
        | true =>
          cases h
          exact .inr (.inr ⟨b, rfl, hchain, hremove⟩)
  | restart fuel =>
    rw [step, Option.map_eq_some_iff] at h
    obtain ⟨cur, -, rfl⟩ := h
    exact .inl ⟨rfl, rfl, rfl⟩

theorem indexed_step {s' : IndexedChain} {a : IndexAction} (h : Indexed s.chain s.rows)
    (hunused : s.IdUnused a) (hstep : s.step a = some s') : Indexed s'.chain s'.rows := by
  obtain ⟨-, hchain, hrows⟩ | ⟨b, hok, hprev, hfresh, hchain, hadd⟩ | ⟨b, -, hchain, hremove⟩ :=
    step_cases hstep
  · rwa [hchain, hrows]
  · rw [hchain]
    exact .cons h hprev hfresh (hunused hok) hadd
  · rw [hchain] at h
    cases h with
    | cons before _ fresh unused added =>
      have hback := removeBlock_addBlock added (before.id_of_notMem fresh.hash) unused fresh.nodup
        fun t ht => before.absent (fresh.txids t ht)
      rw [hback] at hremove
      cases hremove
      exact before

end IndexedChain

/-! ## Blocks that fit into a message -/

/-- A block of well-typed transactions with the bytes that are written for it. -/
def StoredBlock.ofBlock (b : Block) (ht : (b.msgBlock 0 0).Typed)
    (hne : ∀ tx ∈ (b.msgBlock 0 0).transactions, tx.txIn ≠ [])
    (hsize : ((b.msgBlock 0 0).btcEncode .witness).length ≤ maxProtocolMessageLength) :
    StoredBlock where
  block := b
  bytes := (b.msgBlock 0 0).btcEncode .witness
  faithful := by
    intro m rest h
    have hread := reads_block ht hne hsize []
    rw [append_nil, h] at hread
    cases hread
    rfl
  small := Nat.lt_of_le_of_lt hsize (by decide)

def plainCoinbase : MsgTx where
  version := 1
  txIn := [{ previousOutPoint := ⟨0, maxPrevOutIndex⟩ }]
  txOut := [⟨50, [0x51]⟩]

theorem plainCoinbase_typed : plainCoinbase.Typed :=
  ⟨by decide, by decide, by decide, by decide, by decide⟩

def coinbaseBlock (hash prev txid : Hash) (height : Nat) : Block where
  hash := hash
  header := { version := 1, prevBlock := prev, timestamp := 0, bits := 0 }
  transactions := [⟨txid, plainCoinbase⟩]
  height := height

def storedCoinbase (hash prev txid : Hash) (height : Nat) : StoredBlock :=
  .ofBlock (coinbaseBlock hash prev txid height)
    ⟨of_decide_eq_true rfl, of_decide_eq_true rfl, of_decide_eq_true rfl, of_decide_eq_true rfl, by
      intro tx htx
      rw [mem_singleton.mp htx]
      exact plainCoinbase_typed⟩
    (by
      intro tx htx
      rw [mem_singleton.mp htx]
      exact cons_ne_nil _ _)
    (by
      rw [Block.btcEncode_length]
      exact of_decide_eq_true rfl)

namespace IndexedChain

end IndexedChain

end FalconDraw.Index
