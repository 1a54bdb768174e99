/-
FalconDraw.Database.Cache — the key-value side of the database
(database/ffldb/db.go and dbcache.go).

Committed updates are kept in two treaps over leveldb, one of keys to put and one
of keys to remove, until a flush writes them down.
-/
import FalconDraw.Lib.Bucket
import FalconDraw.Lib.Treap

namespace FalconDraw.Database

open Lib

variable {κ ν : Type} [LinearOrder κ]

/-- `dbCacheSnapshot`. The values of the keys to remove are never read. -/
structure DbCacheSnapshot (κ ν : Type) [LinearOrder κ] where
  dbSnapshot    : Bucket κ ν
  pendingKeys   : TreapMap κ ν
  pendingRemove : TreapMap κ Unit

namespace DbCacheSnapshot

def has (snap : DbCacheSnapshot κ ν) (key : κ) : Bool :=
  if snap.pendingRemove.has key then false
  else if snap.pendingKeys.has key then true
  else (snap.dbSnapshot.get key).isSome

def get (snap : DbCacheSnapshot κ ν) (key : κ) : Option ν :=
  if snap.pendingRemove.has key then none
  else
    match snap.pendingKeys.get key with
    | some value => some value
    | none => snap.dbSnapshot.get key

end DbCacheSnapshot

/-! ## Transactions -/

structure Transaction (κ ν : Type) [LinearOrder κ] where
  writable      : Bool
  snapshot      : DbCacheSnapshot κ ν
  pendingKeys   : TreapMap κ ν := .empty
  pendingRemove : TreapMap κ Unit := .empty

namespace Transaction

def hasKey (tx : Transaction κ ν) (key : κ) : Bool :=
  if tx.writable && tx.pendingRemove.has key then false
  else if tx.writable && tx.pendingKeys.has key then true
  else tx.snapshot.has key

/-- The priority is what `rand.Int` returns for a new node. -/
def putKey (priority : Nat) (key : κ) (value : ν) (tx : Transaction κ ν) : Transaction κ ν :=
  { tx with
    pendingRemove := tx.pendingRemove.delete key
    pendingKeys := tx.pendingKeys.put priority key value }

def fetchKey (tx : Transaction κ ν) (key : κ) : Option ν :=
  if tx.writable && tx.pendingRemove.has key then none
  else
    match (if tx.writable then tx.pendingKeys.get key else none) with
    | some value => some value
    | none => tx.snapshot.get key

def deleteKey (priority : Nat) (key : κ) (tx : Transaction κ ν) : Transaction κ ν :=
  { tx with
    pendingKeys := tx.pendingKeys.delete key
    pendingRemove := tx.pendingRemove.put priority key () }

end Transaction

/-! ## The cache -/

structure DbCache (κ ν : Type) [LinearOrder κ] where
  ldb          : Bucket κ ν
  cachedKeys   : TreapMap κ ν := .empty
  cachedRemove : TreapMap κ Unit := .empty

/-- What can fail on the way to leveldb. -/
inductive DbError where
  /-- deleting block files or writing blocks -/
  | writeBlocks
  /-- syncing the current block file -/
  | syncBlocks
  /-- the leveldb transaction of a flush -/
  | flush
  /-- the leveldb transaction of the commit itself -/
  | commit
deriving DecidableEq, Repr

/-- What the surroundings decide in a commit. -/
structure CommitEnv (κ : Type) where
  writeFails  : Bool := false
  needsFlush  : Bool := false
  syncFails   : Bool := false
  flushFails  : Bool := false
  commitFails : Bool := false
  /-- the priorities of new nodes -/
  rand        : κ → Nat := fun _ => 0

/-- `commitTreaps`: one atomic leveldb transaction, first the puts. -/
def commitTreaps (ldb : Bucket κ ν) (pendingKeys : TreapMap κ ν) (pendingRemove : TreapMap κ Unit) :
    Bucket κ ν :=
  pendingRemove.entries.foldl (fun ldb e => ldb.delete e.1)
    (pendingKeys.entries.foldl (fun ldb e => ldb.put e.1 e.2) ldb)

namespace DbCache

/-- `Snapshot`, when nothing happens between its two reads. -/
def snapshot (c : DbCache κ ν) : DbCacheSnapshot κ ν := ⟨c.ldb, c.cachedKeys, c.cachedRemove⟩

def flush (syncFails flushFails : Bool) (c : DbCache κ ν) : DbCache κ ν × Except DbError Unit :=
  if syncFails then (c, .error .syncBlocks)
  else if c.cachedKeys.len = 0 ∧ c.cachedRemove.len = 0 then (c, .ok ())
  else if flushFails then (c, .error .flush)
  else ({ ldb := commitTreaps c.ldb c.cachedKeys c.cachedRemove }, .ok ())

/-- The part of `commitTx` that adds a transaction to the cached treaps. -/
def addPending (rand : κ → Nat) (tx : Transaction κ ν) (c : DbCache κ ν) : DbCache κ ν :=
  let newCachedRemove := tx.pendingKeys.entries.foldl (fun t e => t.delete e.1) c.cachedRemove
  let newCachedKeys :=
    tx.pendingKeys.entries.foldl (fun t e => t.put (rand e.1) e.1 e.2) c.cachedKeys
  let newCachedKeys := tx.pendingRemove.entries.foldl (fun t e => t.delete e.1) newCachedKeys
  let newCachedRemove :=
    tx.pendingRemove.entries.foldl (fun t e => t.put (rand e.1) e.1 e.2) newCachedRemove
  { c with cachedKeys := newCachedKeys, cachedRemove := newCachedRemove }

def commitTx (env : CommitEnv κ) (tx : Transaction κ ν) (c : DbCache κ ν) :
    DbCache κ ν × Except DbError Unit :=
  if env.needsFlush then
    match c.flush env.syncFails env.flushFails with
    | (c, .error err) => (c, .error err)
    | (c, .ok ()) =>
        if env.commitFails then (c, .error .commit)
        else ({ c with ldb := commitTreaps c.ldb tx.pendingKeys tx.pendingRemove }, .ok ())
  else (c.addPending env.rand tx, .ok ())

/-- `writePendingAndCommit`; `rows` are the block locations and the write cursor
that it puts before it commits. -/
def writePendingAndCommit (env : CommitEnv κ) (rows : List (κ × ν)) (tx : Transaction κ ν)
    (c : DbCache κ ν) : DbCache κ ν × Except DbError Unit :=
  if env.writeFails then (c, .error .writeBlocks)
  else c.commitTx env (rows.foldl (fun tx row => tx.putKey (env.rand row.1) row.1 row.2) tx)

end DbCache

/-! ## The database -/

/-- The database with its open transactions: the one that holds the write lock,
and the read-only ones. -/
structure Db (κ ν : Type) [LinearOrder κ] where
  cache   : DbCache κ ν
  writer  : Option (Transaction κ ν) := none
  readers : Bucket Nat (Transaction κ ν) := .empty

/-- The calls of a user. `flush` stands for every flush outside a commit. -/
inductive Call (κ ν : Type) where
  | beginWrite
  | beginRead (id : Nat)
  | put (priority : Nat) (key : κ) (value : ν)
  | delete (priority : Nat) (key : κ)
  | commit (env : CommitEnv κ) (rows : List (κ × ν))
  | rollback
  | endRead (id : Nat)
  | flush (syncFails flushFails : Bool)

namespace Db

/-- One call and what it returns; `none` where it would block on the write lock or
has no transaction to work on. -/
def call (db : Db κ ν) : Call κ ν → Option (Db κ ν × Except DbError Unit)
  | .beginWrite =>
      match db.writer with
      | some _ => none
      | none => some ({ db with writer := some ⟨true, db.cache.snapshot, .empty, .empty⟩ }, .ok ())
  | .beginRead id =>
      some ({ db with readers := db.readers.put id ⟨false, db.cache.snapshot, .empty, .empty⟩ },
        .ok ())
  | .put priority key value =>
      db.writer.map fun tx => ({ db with writer := some (tx.putKey priority key value) }, .ok ())
  | .delete priority key =>
      db.writer.map fun tx => ({ db with writer := some (tx.deleteKey priority key) }, .ok ())
  | .commit env rows =>
      db.writer.map fun tx =>
        let done := db.cache.writePendingAndCommit env rows tx
        ({ db with cache := done.1, writer := none }, done.2)
  | .rollback => db.writer.map fun _ => ({ db with writer := none }, .ok ())
  | .endRead id => some ({ db with readers := db.readers.delete id }, .ok ())
  | .flush syncFails flushFails =>
      match db.writer with
      | some _ => none
      | none =>
          let done := db.cache.flush syncFails flushFails
          some ({ db with cache := done.1 }, done.2)

/-- One event of a history: a call, and whether it returned without error. -/
def event (db : Db κ ν) (e : Call κ ν × Bool) : Option (Db κ ν) :=
  match db.call e.1 with
  | none => none
  | some (db', result) => if result.isOk = e.2 then some db' else none

end Db

end FalconDraw.Database
