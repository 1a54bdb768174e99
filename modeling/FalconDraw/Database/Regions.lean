/-
FalconDraw.Database.Regions — parts of stored blocks
(database/ffldb/db.go and blockio.go).

A committed block lies in a file as a record of network, length, block and
checksum; its row of the block index has the length of the whole record. A pending
block is still in memory.
-/
import FalconDraw.Lib.Check
import FalconDraw.Wire.Types

namespace FalconDraw.Database

open Lib Wire List

structure BlockRegion where
  hash   : Hash
  offset : UInt32
  len    : UInt32

structure BlockLocation where
  blockFileNum : UInt32
  fileOffset   : UInt32
  blockLen     : UInt32

/-- The errors of the region functions by code, with the description. -/
inductive RegionError where
  | txClosed (text : String)
  | blockNotFound (text : String)
  | blockRegionInvalid (text : String)
  | driverSpecific (text : String)

/-- What a transaction reads blocks from: the blocks pending in it, the block index and the files. -/
structure BlockTx where
  closed        : Bool
  pendingBlocks : Hash → Option Bytes
  blockIdx      : Hash → Option BlockLocation
  files         : UInt32 → Bytes

namespace BlockTx

def checkClosed (tx : BlockTx) : Except RegionError Unit :=
  rejectIf tx.closed (.txClosed "database tx is closed")

def checkBounds (region : BlockRegion) (blockLen : UInt32) : Except RegionError Unit :=
  let endOffset := region.offset + region.len
  rejectIf (endOffset < region.offset ∨ blockLen < endOffset) (.blockRegionInvalid
    ("block " ++ Hash.str region.hash ++ " region offset " ++ toString region.offset ++ ", length " ++
      toString region.len ++ " exceeds block length of " ++ toString blockLen))

def fetchPendingRegion (tx : BlockTx) (region : BlockRegion) : Except RegionError (Option Bytes) :=
  match tx.pendingBlocks region.hash with
  | none => .ok none
  | some blockBytes => do
      checkBounds region (UInt32.ofNat blockBytes.length)
      return some (slice blockBytes region.offset.toNat (region.offset + region.len).toNat)

def locate (tx : BlockTx) (region : BlockRegion) : Except RegionError BlockLocation :=
  match tx.blockIdx region.hash with
  | none => .error (.blockNotFound ("block " ++ Hash.str region.hash ++ " does not exist"))
  | some location => do
      checkBounds region location.blockLen
      return location

def readBlockRegion (tx : BlockTx) (loc : BlockLocation) (offset numBytes : UInt32) :
    Except RegionError Bytes :=
  let readOffset := loc.fileOffset + 8 + offset
  let serializedData :=
    slice (tx.files loc.blockFileNum) readOffset.toNat (readOffset.toNat + numBytes.toNat)
  -- `ReadAt` fails when it cannot fill the buffer
  if serializedData.length < numBytes.toNat then
    .error (.driverSpecific ("failed to read region from block file " ++
      toString loc.blockFileNum ++ ", offset " ++ toString readOffset ++ ", len " ++
      toString numBytes ++ ": EOF"))
  else .ok serializedData

/-- Where the bytes of a region come from: memory, or a place in the files. -/
def source (tx : BlockTx) (region : BlockRegion) : Except RegionError (Bytes ⊕ BlockLocation) := do
  match ← tx.fetchPendingRegion region with
  | some regionBytes => return .inl regionBytes
  | none => return .inr (← tx.locate region)

def fetchBlockRegion (tx : BlockTx) (region : BlockRegion) : Except RegionError Bytes := do
  tx.checkClosed
  match ← tx.source region with
  | .inl regionBytes => return regionBytes
  | .inr location => tx.readBlockRegion location region.offset region.len

/-- The reads of `FetchBlockRegions`, each set at its place in the reply. -/
def readList (tx : BlockTx) (regions : List BlockRegion) :
    List (BlockLocation × Nat) → List Bytes → Except RegionError (List Bytes)
  | [], blockRegions => .ok blockRegions
  | (location, ri) :: fetchList, blockRegions =>
      match regions[ri]? with
      | none => tx.readList regions fetchList blockRegions
      | some region => do
          let regionBytes ← tx.readBlockRegion location region.offset region.len
          tx.readList regions fetchList (blockRegions.set ri regionBytes)

/-- `FetchBlockRegions`; `sort` is what `sort.Sort` makes of the fetch list. -/
def fetchBlockRegions (sort : List (BlockLocation × Nat) → List (BlockLocation × Nat))
    (tx : BlockTx) (regions : List BlockRegion) : Except RegionError (List Bytes) := do
  tx.checkClosed
  let found ← regions.mapM tx.source
  let blockRegions := found.map fun s => s.getLeft?.getD []
  let fetchList := found.zipIdx.filterMap fun s => s.1.getRight?.map (·, s.2)
  tx.readList regions (sort fetchList) blockRegions

/-! ## Stored blocks -/

/-- The file holds the block as `writeBlock` wrote it: network, length, block and checksum. -/
structure Record (tx : BlockTx) (loc : BlockLocation) (block : Bytes) : Prop where
  layout : ∃ before network length checksum after,
    tx.files loc.blockFileNum = before ++ (network ++ length ++ (block ++ (checksum ++ after))) ∧
      before.length = loc.fileOffset.toNat ∧ (network ++ length).length = 8 ∧
      List.length checksum = 4
  blockLen : loc.blockLen.toNat = block.length + 12
  fits : loc.fileOffset.toNat + block.length + 12 < 2 ^ 32

/-- The transaction sees the block: pending, or else committed. -/
def Stores (tx : BlockTx) (hash : Hash) (block : Bytes) : Prop :=
  (tx.pendingBlocks hash = some block ∧ block.length < 2 ^ 32) ∨
    (tx.pendingBlocks hash = none ∧ ∃ loc, tx.blockIdx hash = some loc ∧ tx.Record loc block)

end BlockTx

namespace BlockRegion

def end_ (r : BlockRegion) : Nat := r.offset.toNat + r.len.toNat

def Within (r : BlockRegion) (block : Bytes) : Prop := r.end_ ≤ block.length

instance (r : BlockRegion) (block : Bytes) : Decidable (r.Within block) := Nat.decLe _ _

def of (r : BlockRegion) (block : Bytes) : Bytes := slice block r.offset.toNat r.end_

end BlockRegion

/-- The value if the request is valid, and `ErrBlockRegionInvalid` if it is not. -/
def Exactly {α : Type} (valid : Prop) (a : α) (answer : Except RegionError α) : Prop :=
  (valid → answer = .ok a) ∧ (¬ valid → ∃ text, answer = .error (.blockRegionInvalid text))

namespace BlockTx

/-- A region of a committed block does not end in the twelve bytes after the block. -/
def Detects (tx : BlockTx) (block : Bytes) (r : BlockRegion) : Prop :=
  tx.pendingBlocks r.hash = none → r.Within block ∨ block.length + 12 < r.end_

/-! ## One region -/

theorem toNat_end {r : BlockRegion} (h : r.end_ < 2 ^ 32) : (r.offset + r.len).toNat = r.end_ := by
  rw [UInt32.toNat_add]
  exact Nat.mod_eq_of_lt h

theorem checkBounds_of_le {r : BlockRegion} {n : UInt32} (h : r.end_ ≤ n.toNat) :
    checkBounds r n = .ok () := by
  have hsum := toNat_end (lt_of_le_of_lt h n.toNat_lt)
  have hoffset : r.offset.toNat ≤ r.end_ := Nat.le_add_right _ _
  rw [checkBounds, rejectIf_eq_ok, UInt32.lt_iff_toNat_lt, UInt32.lt_iff_toNat_lt, hsum]
  omega

theorem checkBounds_of_lt {r : BlockRegion} {n : UInt32} (h : n.toNat < r.end_) :
    ∃ text, checkBounds r n = .error (.blockRegionInvalid text) := by
  refine ⟨_, if_pos ?_⟩
  have hoffset := r.offset.toNat_lt
  have hlen := r.len.toNat_lt
  rw [BlockRegion.end_] at h
  -- a sum that wraps is below the offset, any other is the end itself
  rw [UInt32.lt_iff_toNat_lt, UInt32.lt_iff_toNat_lt, UInt32.toNat_add]
  omega

variable {tx : BlockTx} {r : BlockRegion} {block : Bytes}

theorem Record.read {loc : BlockLocation} (h : tx.Record loc block) (hr : r.Within block) :
    tx.readBlockRegion loc r.offset r.len = .ok (r.of block) := by
  obtain ⟨before, network, length, checksum, after, hfile, hbefore, hhead, -⟩ := h.layout
  have hfits := h.fits
  have hend : r.offset.toNat + r.len.toNat ≤ block.length := hr
  have hoffset : (loc.fileOffset + 8 + r.offset).toNat = loc.fileOffset.toNat + (8 + r.offset.toNat) := by
    rw [UInt32.toNat_add, UInt32.toNat_add]
    simp only [UInt32.reduceToNat]
    omega
  have hslice : slice (tx.files loc.blockFileNum) (loc.fileOffset + 8 + r.offset).toNat
      ((loc.fileOffset + 8 + r.offset).toNat + r.len.toNat) = r.of block := by
    rw [hfile, hoffset, slice_append_right (by omega), slice_append_right (by omega),
      slice_append_of_le (by omega), BlockRegion.of, BlockRegion.end_]
    congr 1 <;> omega
  have hlength : (r.of block).length = r.len.toNat := by
    rw [BlockRegion.of, slice_length hr, BlockRegion.end_, Nat.add_sub_cancel_left]
  rw [readBlockRegion, hslice, hlength]
  exact if_neg (lt_irrefl _)

/-- What the bytes of a region within its block come from. -/
def Delivers (tx : BlockTx) (r : BlockRegion) (bytes : Bytes) : Bytes ⊕ BlockLocation → Prop
  | .inl regionBytes => regionBytes = bytes
  | .inr loc => tx.readBlockRegion loc r.offset r.len = .ok bytes

theorem Stores.source (h : tx.Stores r.hash block) (hr : r.Within block) :
    ∃ s, tx.source r = .ok s ∧ tx.Delivers r (r.of block) s := by
  rcases h with ⟨hpending, hlen⟩ | ⟨hpending, loc, hloc, hrecord⟩
  · have hsize : (UInt32.ofNat block.length).toNat = block.length :=
      UInt32.toNat_ofNat_of_lt' hlen
    have hbounds : r.end_ ≤ (UInt32.ofNat block.length).toNat := hsize.symm ▸ hr
    refine ⟨.inl (r.of block), ?_, rfl⟩
    simp only [BlockTx.source, fetchPendingRegion, hpending, checkBounds_of_le hbounds,
      toNat_end (lt_of_le_of_lt hr hlen)]
    rfl
  · refine ⟨.inr loc, ?_, hrecord.read hr⟩
    have hbounds : r.end_ ≤ loc.blockLen.toNat := hrecord.blockLen ▸ Nat.le_add_right_of_le hr
    simp only [BlockTx.source, fetchPendingRegion, hpending, locate, hloc, checkBounds_of_le hbounds]
    rfl

theorem Stores.source_invalid (h : tx.Stores r.hash block) (hr : ¬ r.Within block)
    (hdetects : tx.Detects block r) : ∃ text, tx.source r = .error (.blockRegionInvalid text) := by
  rcases h with ⟨hpending, hlen⟩ | ⟨hpending, loc, hloc, hrecord⟩
  · have hsize : (UInt32.ofNat block.length).toNat = block.length :=
      UInt32.toNat_ofNat_of_lt' hlen
    obtain ⟨text, htext⟩ := checkBounds_of_lt (hsize.symm ▸ not_le.1 hr : _ < r.end_)
    refine ⟨text, ?_⟩
    simp only [BlockTx.source, fetchPendingRegion, hpending, htext]
    rfl
  · have hbounds : loc.blockLen.toNat < r.end_ :=
      hrecord.blockLen ▸ (hdetects hpending).resolve_left hr
    obtain ⟨text, htext⟩ := checkBounds_of_lt hbounds
    refine ⟨text, ?_⟩
    simp only [BlockTx.source, fetchPendingRegion, hpending, locate, hloc, htext]
    rfl

theorem fetchBlockRegion_eq (hopen : tx.closed = false) : tx.fetchBlockRegion r = tx.source r >>=
      Sum.elim .ok fun loc => tx.readBlockRegion loc r.offset r.len := by
  simp only [fetchBlockRegion, checkClosed, hopen]
  cases tx.source r with
  | error e => rfl
  | ok s => cases s <;> rfl

/-- A region in the twelve bytes after a committed block is not reported as invalid. -/
theorem detects_of_exactly (hopen : tx.closed = false) (h : tx.Stores r.hash block)
    (hexact : Exactly (r.Within block) (r.of block) (tx.fetchBlockRegion r)) :
    tx.Detects block r := by
  intro hnone
  by_contra hmissed
  rw [not_or, not_lt] at hmissed
  obtain ⟨text, htext⟩ := hexact.2 hmissed.1
  rcases h with ⟨hpending, -⟩ | ⟨-, loc, hloc, hrecord⟩
  · cases hnone.symm.trans hpending
  · have hsource : tx.source r = .ok (.inr loc) := by
      have hbounds : r.end_ ≤ loc.blockLen.toNat := hrecord.blockLen ▸ hmissed.2
      simp only [BlockTx.source, fetchPendingRegion, hnone, locate, hloc, checkBounds_of_le hbounds]
      rfl
    rw [fetchBlockRegion_eq hopen, hsource] at htext
    change tx.readBlockRegion loc r.offset r.len = _ at htext
    rw [readBlockRegion] at htext
    split at htext <;> cases htext

theorem fetchBlockRegion_exactly (hopen : tx.closed = false) (h : tx.Stores r.hash block)
    (hdetects : tx.Detects block r) :
    Exactly (r.Within block) (r.of block) (tx.fetchBlockRegion r) := by
  rw [fetchBlockRegion_eq hopen]
  refine ⟨fun hr => ?_, fun hr => ?_⟩
  · obtain ⟨s, hs, hdelivers⟩ := h.source hr
    rw [hs]
    cases s with
    | inl regionBytes => exact congrArg Except.ok hdelivers
    | inr loc => exact hdelivers
  · obtain ⟨text, htext⟩ := h.source_invalid hr hdetects
    exact ⟨text, by rw [htext]; rfl⟩

/-! ## Many regions -/

/-- The reads fill in every part of the reply that is still missing, in whatever order they are
made. -/
theorem readList_eq {regions : List BlockRegion} {want : List Bytes} :
    ∀ {fetchList : List (BlockLocation × Nat)} {got : List Bytes}, got.length = want.length →
      (∀ f ∈ fetchList, ∃ r bytes, regions[f.2]? = some r ∧ want[f.2]? = some bytes ∧
        tx.readBlockRegion f.1 r.offset r.len = .ok bytes) →
      (∀ i, got[i]? = want[i]? ∨ i ∈ fetchList.map Prod.snd) →
      tx.readList regions fetchList got = .ok want
  | [], got, _, _, hgot => by
      rw [readList, ext_getElem? fun i => (hgot i).resolve_right not_mem_nil]
  | (loc, ri) :: fetchList, got, hlen, hreads, hgot => by
      obtain ⟨r, bytes, hr, hbytes, hread⟩ := hreads _ mem_cons_self
      simp only [readList, hr, hread]
      refine readList_eq (by rw [length_set, hlen])
        (fun f hf => hreads f (mem_cons_of_mem _ hf)) fun i => ?_
      rw [getElem?_set]
      split
      · next heq =>
        have hlt : ri < got.length := hlen ▸ (List.getElem?_eq_some_iff.1 hbytes).1
        exact .inl (by rw [if_pos hlt, ← heq, hbytes])
      · next hne =>
        exact (hgot i).imp_right fun hmem =>
          (mem_cons.1 hmem).resolve_left fun heq => hne heq.symm

variable {block : Hash → Bytes} {regions : List BlockRegion}
  {sort : List (BlockLocation × Nat) → List (BlockLocation × Nat)}

theorem fetchBlockRegions_eq (hopen : tx.closed = false) (hsort : ∀ l, (sort l).Perm l)
    (h : ∀ r ∈ regions, tx.Stores r.hash (block r.hash))
    (hr : ∀ r ∈ regions, r.Within (block r.hash)) :
    tx.fetchBlockRegions sort regions = .ok (regions.map fun r => r.of (block r.hash)) := by
  choose! found hfound hdelivers using fun r hmem => (h r hmem).source (hr r hmem)
  simp only [fetchBlockRegions, checkClosed, hopen, mapM_eq_ok hfound]
  refine readList_eq (by simp) (fun f hf => ?_) fun i => ?_
  · -- a read of the fetch list is that of a region found in the files
    rw [(hsort _).mem_iff, mem_filterMap] at hf
    obtain ⟨⟨s, i⟩, hs, hf⟩ := hf
    rw [mem_zipIdx_iff_getElem?, getElem?_map, Option.map_eq_some_iff] at hs
    obtain ⟨r, hget, rfl⟩ := hs
    have hd := hdelivers r (mem_of_getElem? hget)
    cases hs : found r with
    | inl regionBytes => simp [hs] at hf
    | inr loc =>
      simp only [hs, Sum.getRight?_inr, Option.map_some, Option.some.injEq] at hf
      subst hf
      exact ⟨r, _, hget, by rw [getElem?_map, hget]; rfl, hs ▸ hd⟩
  · -- and the bytes of the other regions are there from the start
    rw [getElem?_map, getElem?_map, getElem?_map]
    cases hget : regions[i]? with
    | none => exact .inl rfl
    | some r =>
      have hd := hdelivers r (mem_of_getElem? hget)
      cases hs : found r with
      | inl regionBytes =>
        have hbytes : regionBytes = _ := hs ▸ hd
        exact .inl (by simp [hs, hbytes])
      | inr loc =>
        refine .inr (mem_map.2 ⟨(loc, i), (hsort _).mem_iff.2 ?_, rfl⟩)
        refine mem_filterMap.2 ⟨(.inr loc, i), ?_, rfl⟩
        rw [mem_zipIdx_iff_getElem?, getElem?_map, hget, Option.map_some, hs]

theorem fetchBlockRegions_invalid (hopen : tx.closed = false)
    (h : ∀ r ∈ regions, tx.Stores r.hash (block r.hash))
    (hdetects : ∀ r ∈ regions, tx.Detects (block r.hash) r)
    (hr : ¬ ∀ r ∈ regions, r.Within (block r.hash)) :
    ∃ text, tx.fetchBlockRegions sort regions = .error (.blockRegionInvalid text) := by
  suffices hmap : ∃ text, regions.mapM tx.source = .error (.blockRegionInvalid text) by
    obtain ⟨text, htext⟩ := hmap
    refine ⟨text, ?_⟩
    simp only [fetchBlockRegions, checkClosed, hopen, htext]
    rfl
  induction regions with
  | nil => exact absurd (fun r hmem => absurd hmem not_mem_nil) hr
  | cons r regions ih =>
    rw [forall_mem_cons] at h hdetects hr
    rw [mapM_cons]
    by_cases hw : r.Within (block r.hash)
    · obtain ⟨s, hs, -⟩ := h.1.source hw
      obtain ⟨text, htext⟩ := ih h.2 hdetects.2 fun hall => hr ⟨hw, hall⟩
      exact ⟨text, by rw [hs, htext]; rfl⟩
    · obtain ⟨text, htext⟩ := h.1.source_invalid hw hdetects.1
      exact ⟨text, by rw [htext]; rfl⟩

end BlockTx

theorem block_regions_exact_iff (tx : BlockTx) (hopen : tx.closed = false)
    (sort : List (BlockLocation × Nat) → List (BlockLocation × Nat))
    (hsort : ∀ l, (sort l).Perm l) (regions : List BlockRegion) (block : Hash → Bytes)
    (h : ∀ r ∈ regions, tx.Stores r.hash (block r.hash)) :
    (Exactly (∀ r ∈ regions, r.Within (block r.hash)) (regions.map fun r => r.of (block r.hash))
        (tx.fetchBlockRegions sort regions) ∧
      ∀ r ∈ regions, Exactly (r.Within (block r.hash)) (r.of (block r.hash))
        (tx.fetchBlockRegion r)) ↔
    ∀ r ∈ regions, tx.Detects (block r.hash) r := by
  constructor
  · intro hexact r hmem
    exact BlockTx.detects_of_exactly hopen (h r hmem) (hexact.2 r hmem)
  · intro hdetects
    exact ⟨⟨BlockTx.fetchBlockRegions_eq hopen hsort h,
      BlockTx.fetchBlockRegions_invalid hopen h hdetects⟩,
      fun r hmem => BlockTx.fetchBlockRegion_exactly hopen (h r hmem) (hdetects r hmem)⟩

/-- A committed block of three bytes, alone in its file, and a pending block of two. -/
def twoBlocks : BlockTx where
  closed := false
  pendingBlocks hash := if hash = 2 then some [4, 5] else none
  blockIdx hash := if hash = 1 then some ⟨0, 0, 15⟩ else none
  files _ := [0xd9, 0xb4, 0xbe, 0xf9] ++ [3, 0, 0, 0] ++ ([1, 2, 3] ++ ([0xa, 0xb, 0xc, 0xd] ++ []))

def twoBlocksBytes (hash : Hash) : Bytes := if hash = 2 then [4, 5] else [1, 2, 3]

theorem twoBlocks_stores {hash : Hash} (h : hash = 1 ∨ hash = 2) :
    twoBlocks.Stores hash (twoBlocksBytes hash) := by
  rcases h with rfl | rfl
  · exact .inr ⟨rfl, _, rfl,
      ⟨[], [0xd9, 0xb4, 0xbe, 0xf9], [3, 0, 0, 0], [0xa, 0xb, 0xc, 0xd], [], rfl, rfl, rfl, rfl⟩,
      rfl, by decide⟩
  · exact .inl ⟨rfl, by decide⟩

/-- The last two bytes of the committed block and the first of the pending one. -/
theorem two_regions_exact :
    twoBlocks.fetchBlockRegions id [⟨1, 1, 2⟩, ⟨2, 0, 1⟩] = .ok [[2, 3], [4]] :=
  (((block_regions_exact_iff twoBlocks rfl id (fun _ => .refl _) _ twoBlocksBytes (by
    simpa using ⟨twoBlocks_stores (.inl rfl), twoBlocks_stores (.inr rfl)⟩)).2 (by
      intro r hmem _
      refine .inl ?_
      rcases mem_pair.1 hmem with rfl | rfl <;> decide)).1.1 (by decide))

/-- Four bytes of the three of the committed block are given, with the first byte of the checksum. -/
theorem region_past_block_given :
    twoBlocks.Stores 1 [1, 2, 3] ∧ ¬ BlockRegion.Within ⟨1, 0, 4⟩ [1, 2, 3] ∧
      twoBlocks.fetchBlockRegions id [⟨1, 0, 4⟩] = .ok [[1, 2, 3, 0xa]] ∧
      twoBlocks.fetchBlockRegion ⟨1, 0, 4⟩ = .ok [1, 2, 3, 0xa] :=
  ⟨twoBlocks_stores (.inl rfl), by decide, rfl, rfl⟩

end FalconDraw.Database
