/-
FalconDraw.Chain.UtxoCache — the write-back cache of the UTXO set and the
bucket behind it (blockchain/utxocache.go, chainio.go).

An outpoint the cache has no key for is read from the bucket and kept, nil
included.
-/
import FalconDraw.Chain.SpendJournal

namespace FalconDraw.Chain

open Lib Wire Script Draw

/-! ## Records of the bucket -/

/-- `utxoEntryHeaderCode` of an unspent entry. -/
def utxoEntryHeaderCode (e : UtxoEntry) : Nat :=
  2 * e.blockHeight + if e.isCoinBase then 1 else 0

/-- `serializeUtxoEntry`: nothing for a spent output. -/
def serializeUtxoEntry (keys : PubKeyLib) (e : UtxoEntry) : Bytes :=
  if e.isSpent then []
  else putVLQ (utxoEntryHeaderCode e) ++ putCompressedTxOut keys e.amount.toUInt64.toNat e.pkScript

/-- `deserializeUtxoEntry`: the entry has neither been modified nor is it fresh. -/
def deserializeUtxoEntry (keys : PubKeyLib) (serialized : Bytes) : Except String UtxoEntry :=
  let (code, offset) := deserializeVLQ serialized
  if serialized.length ≤ offset then .error "unexpected end of data after header"
  else match decodeCompressedTxOut keys (serialized.drop offset) with
    | .error e => .error ("unable to decode utxo: " ++ e)
    | .ok (amount, pkScript, _) =>
        .ok { amount := Int64.ofNat amount, pkScript := pkScript,
              blockHeight := code / 2 % 2 ^ 32, isCoinBase := code % 2 = 1 }

def dbFetchUtxoEntry (keys : PubKeyLib) (utxoBucket : Bucket OutPoint Bytes) (op : OutPoint) :
    Except StoreError (Option UtxoEntry) :=
  match utxoBucket.get op with
  | none => .ok none
  | some serializedUtxo =>
      if serializedUtxo = [] then
        .error (.assert ("database contains entry for spent tx output " ++ op.str))
      else match deserializeUtxoEntry keys serializedUtxo with
        | .error e => .error (.corruption ("corrupt utxo entry for " ++ op.str ++ ": " ++ e))
        | .ok e => .ok (some e)

/-! ## The cache -/

structure UtxoCache where
  db                  : Bucket OutPoint Bytes
  maxTotalMemoryUsage : Nat
  cachedEntries       : Bucket OutPoint (Option UtxoEntry)
  lastFlushHash       : Hash

def newUtxoCache (db : Bucket OutPoint Bytes) (maxTotalMemoryUsage : Nat) : UtxoCache :=
  { db := db, maxTotalMemoryUsage := maxTotalMemoryUsage, cachedEntries := Bucket.empty,
    lastFlushHash := 0 }

inductive FlushMode where
  | required
  | periodic
  | ifNeeded
deriving DecidableEq, Repr

namespace UtxoCache

/-- The entries `fetchEntries` returns: those in the cache, the others filled in
from the list of what the database had for them. -/
def fillEntries (cached : Bucket OutPoint (Option UtxoEntry)) :
    List OutPoint → List (Option UtxoEntry) → List (Option UtxoEntry)
  | [], _ => []
  | op :: ops, dbEntries =>
      match cached.get op with
      | some entry => entry :: fillEntries cached ops dbEntries
      | none => dbEntries.head?.join :: fillEntries cached ops dbEntries.tail

def fetchEntries (keys : PubKeyLib) (s : UtxoCache) (outpoints : List OutPoint) :
    Except StoreError (List (Option UtxoEntry) × UtxoCache) := do
  let missingOps := outpoints.filter fun op => (s.cachedEntries.get op).isNone
  let dbEntries ← missingOps.mapM (dbFetchUtxoEntry keys s.db)
  let cachedEntries :=
    (missingOps.zip dbEntries).foldl (fun m p => m.put p.1 p.2) s.cachedEntries
  return (fillEntries s.cachedEntries outpoints dbEntries,
    { s with cachedEntries := cachedEntries })

/-- `addTxOut`: what the cache or the database had for the outpoint does not
matter. -/
def addTxOut (s : UtxoCache) (op : OutPoint) (out : TxOut) (isCoinBase : Bool) (height : Nat) :
    UtxoCache :=
  if isUnspendable out.pkScript then s
  else { s with
    cachedEntries := s.cachedEntries.put op (some (UtxoViewpoint.newEntry out isCoinBase height)) }

/-- `addTxIn`, with the record for the spend journal. -/
def addTxIn (keys : PubKeyLib) (s : UtxoCache) (txIn : TxIn) :
    Except StoreError (UtxoCache × SpentTxOut) := do
  let op := txIn.previousOutPoint
  match ← s.fetchEntries keys [op] with
  | ([some entry], s) =>
      if entry.isFresh then
        return ({ s with cachedEntries := s.cachedEntries.delete op }, entry.coin)
      else
        return ({ s with cachedEntries := s.cachedEntries.put op (some entry.spend) }, entry.coin)
  | _ => .error (.assert ("missing input " ++ op.str))

/-- What `writeCache` makes of one record of the database: the record of a key
that is nil or spent is deleted, an entry that was not modified needs no write. -/
def writeEntry (keys : PubKeyLib) (cached : Option (Option UtxoEntry)) (record : Option Bytes) :
    Option Bytes :=
  match cached with
  | none => record
  | some none => none
  | some (some entry) =>
      if entry.isSpent then none
      else if !entry.isModified then record
      else some (serializeUtxoEntry keys entry)

/-- `writeCache`: every cached entry goes to the database, the cache is empty
afterwards. -/
def writeCache (keys : PubKeyLib) (s : UtxoCache) (bestHash : Hash) : UtxoCache :=
  { s with
    db := fun op => writeEntry keys (s.cachedEntries.get op) (s.db.get op)
    cachedEntries := Bucket.empty
    lastFlushHash := bestHash }

/-- Whether `flush` writes the cache; `usage` is `totalMemoryUsage`, `overdue`
says that the last flush is longer ago than `utxoFlushPeriodicInterval`. -/
def flushDue (s : UtxoCache) (mode : FlushMode) (bestHash : Hash) (usage : Nat)
    (overdue : Bool) : Bool :=
  match mode with
  | .required => true
  | .ifNeeded => bestHash ≠ s.lastFlushHash && s.maxTotalMemoryUsage ≤ usage
  | .periodic => overdue || s.maxTotalMemoryUsage ≤ usage

def flush (keys : PubKeyLib) (s : UtxoCache) (mode : FlushMode) (bestHash : Hash) (usage : Nat)
    (overdue : Bool) : UtxoCache :=
  if s.flushDue mode bestHash usage overdue then s.writeCache keys bestHash else s

end UtxoCache

/-! ## Reading what was written -/

variable {keys : PubKeyLib} {c : Coin}

theorem deserializeUtxoEntry_serialize_of {e : UtxoEntry} (hheight : e.blockHeight < 2 ^ 31)
    (hscript : e.pkScript.length + numSpecialScripts < 2 ^ 64)
    (hamount : e.amount.toUInt64.toNat < 2 ^ 60) (hspent : e.isSpent = false) :
    deserializeUtxoEntry keys (serializeUtxoEntry keys e) = .ok e.coin.entry := by
  obtain ⟨hcode, hshift, hflag⟩ := headerCode_spec hheight e.isCoinBase
  rw [← utxoEntryHeaderCode] at hcode hshift hflag
  have hbody := compressedTxOutSize_pos keys e.amount.toUInt64.toNat e.pkScript
  have hdecode := decodeCompressedTxOut_put keys hamount hscript []
  rw [List.append_nil] at hdecode
  rw [serializeUtxoEntry, hspent, if_neg (by decide), deserializeUtxoEntry,
    deserializeVLQ_putVLQ hcode]
  simp only [List.length_append, putVLQ_length, putCompressedTxOut_length, drop_putVLQ]
  rw [if_neg (by omega), hdecode]
  simp only [hshift, hflag, ofNat_toUInt64]
  rfl

theorem deserializeUtxoEntry_serialize (h : Storable c) {e : UtxoEntry} (hcoin : e.coin = c)
    (hspent : e.isSpent = false) :
    deserializeUtxoEntry keys (serializeUtxoEntry keys e) = .ok c.entry := by
  subst hcoin
  have hscript : e.pkScript.length < 2 ^ 62 := h.script_lt
  exact deserializeUtxoEntry_serialize_of h.height_lt (by unfold numSpecialScripts; omega)
    h.toUInt64_lt hspent

end FalconDraw.Chain
