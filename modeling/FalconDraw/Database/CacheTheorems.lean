/-
FalconDraw.Database.CacheTheorems — the layered database is a plain map.

Every layer is an overlay: a key that is to be removed is absent, a key that is to
be put has its value, any other key is as in the layer below (`overlay`).
-/
import Mathlib.Order.Nat
import FalconDraw.Lib.Transition
import FalconDraw.Database.Cache

namespace FalconDraw.Database

open Lib

variable {κ ν : Type} [LinearOrder κ]

/-! ## Overlays -/

def overlay (keys : TreapMap κ ν) (remove : TreapMap κ Unit) (base : Bucket κ ν) : Bucket κ ν :=
  fun k => if remove.has k then none else (keys.get k).or (base.get k)

/-- No key is both to be put and to be removed. -/
def Exclusive (keys : TreapMap κ ν) (remove : TreapMap κ Unit) : Prop :=
  ∀ k, ¬ (keys.has k = true ∧ remove.has k = true)

theorem get_overlay (keys : TreapMap κ ν) (remove : TreapMap κ Unit) (base : Bucket κ ν) (k : κ) :
    (overlay keys remove base).get k =
      if remove.has k then none else (keys.get k).or (base.get k) := rfl

@[simp] theorem overlay_empty (base : Bucket κ ν) : overlay .empty .empty base = base := by
  ext1 k
  simp [get_overlay, TreapMap.has]

theorem has_put {ν' : Type} (t : TreapMap κ ν') (priority : Nat) (k k' : κ) (v : ν') :
    (t.put priority k v).has k' = if k' = k then true else t.has k' := by
  rw [TreapMap.has, TreapMap.get_put]
  split <;> rfl

theorem has_delete {ν' : Type} (t : TreapMap κ ν') (k k' : κ) :
    (t.delete k).has k' = if k' = k then false else t.has k' := by
  rw [TreapMap.has, TreapMap.get_delete]
  split <;> rfl

theorem overlay_put (keys : TreapMap κ ν) (remove : TreapMap κ Unit) (base : Bucket κ ν)
    (priority : Nat) (k : κ) (v : ν) :
    overlay (keys.put priority k v) (remove.delete k) base =
      (overlay keys remove base).put k v := by
  ext1 k'
  rw [get_overlay, has_delete, TreapMap.get_put, Bucket.get_put, get_overlay]
  by_cases hk : k' = k <;> simp [hk]

theorem overlay_delete (keys : TreapMap κ ν) (remove : TreapMap κ Unit) (base : Bucket κ ν)
    (priority : Nat) (k : κ) :
    overlay (keys.delete k) (remove.put priority k ()) base =
      (overlay keys remove base).delete k := by
  ext1 k'
  rw [get_overlay, has_put, TreapMap.get_delete, Bucket.get_delete, get_overlay]
  by_cases hk : k' = k <;> simp [hk]

theorem exclusive_empty : Exclusive (.empty : TreapMap κ ν) .empty := by
  rintro k ⟨h, _⟩
  cases h

theorem Exclusive.put {keys : TreapMap κ ν} {remove : TreapMap κ Unit} (h : Exclusive keys remove)
    (priority : Nat) (k : κ) (v : ν) : Exclusive (keys.put priority k v) (remove.delete k) := by
  intro k'
  rw [has_put, has_delete]
  by_cases hk : k' = k
  · simp [hk]
  · simpa [hk] using h k'

theorem Exclusive.delete {keys : TreapMap κ ν} {remove : TreapMap κ Unit}
    (h : Exclusive keys remove) (priority : Nat) (k : κ) :
    Exclusive (keys.delete k) (remove.put priority k ()) := by
  intro k'
  rw [has_put, has_delete]
  by_cases hk : k' = k
  · simp [hk]
  · simpa [hk] using h k'

/-! ## The layers -/

theorem DbCacheSnapshot.get_eq (snap : DbCacheSnapshot κ ν) (k : κ) :
    snap.get k = (overlay snap.pendingKeys snap.pendingRemove snap.dbSnapshot).get k := by
  rw [get, get_overlay]
  cases snap.pendingKeys.get k <;> rfl

theorem DbCacheSnapshot.has_eq (snap : DbCacheSnapshot κ ν) (k : κ) :
    snap.has k = (snap.get k).isSome := by
  grind [has, get, TreapMap.has]

def Transaction.view (tx : Transaction κ ν) : Bucket κ ν :=
  overlay tx.pendingKeys tx.pendingRemove
    (overlay tx.snapshot.pendingKeys tx.snapshot.pendingRemove tx.snapshot.dbSnapshot)

def DbCache.content (c : DbCache κ ν) : Bucket κ ν := overlay c.cachedKeys c.cachedRemove c.ldb

theorem Transaction.fetchKey_eq {tx : Transaction κ ν} (h : tx.writable = true) (k : κ) :
    tx.fetchKey k = tx.view.get k := by
  rw [fetchKey, view, get_overlay, h, Bool.true_and, if_pos rfl, DbCacheSnapshot.get_eq]
  cases tx.pendingKeys.get k <;> rfl

theorem Transaction.hasKey_eq (tx : Transaction κ ν) (k : κ) :
    tx.hasKey k = (tx.fetchKey k).isSome := by
  grind [hasKey, fetchKey, DbCacheSnapshot.has_eq, TreapMap.has]

theorem commitTreaps_eq (ldb : Bucket κ ν) (keys : TreapMap κ ν) (remove : TreapMap κ Unit) :
    commitTreaps ldb keys remove = overlay keys remove ldb := by
  ext1 k
  rw [commitTreaps, remove.foldl_entries Bucket.get (fun _ => none)
      (fun m e k => Bucket.get_delete m e.1 k),
    keys.foldl_entries Bucket.get (fun e => some e.2) (fun m e k => Bucket.get_put m e.1 k e.2),
    get_overlay, TreapMap.has]
  cases remove.get k <;> cases keys.get k <;> rfl

section

variable (rand : κ → Nat) (tx : Transaction κ ν) (c : DbCache κ ν)

theorem get_cachedKeys_addPending (k : κ) : (c.addPending rand tx).cachedKeys.get k =
      if tx.pendingRemove.has k then none else (tx.pendingKeys.get k).or (c.cachedKeys.get k) := by
  rw [DbCache.addPending, tx.pendingRemove.foldl_entries TreapMap.get (fun _ => none)
      (fun t e k => TreapMap.get_delete t e.1 k),
    tx.pendingKeys.foldl_entries TreapMap.get (fun e => some e.2)
      (fun t e k => TreapMap.get_put t (rand e.1) e.1 k e.2), TreapMap.has]
  cases tx.pendingRemove.get k <;> cases tx.pendingKeys.get k <;> rfl

theorem has_cachedRemove_addPending (k : κ) : (c.addPending rand tx).cachedRemove.has k =
      (tx.pendingRemove.has k || (!tx.pendingKeys.has k && c.cachedRemove.has k)) := by
  rw [DbCache.addPending, TreapMap.has, tx.pendingRemove.foldl_entries TreapMap.get
      (fun e => some e.2) (fun t e k => TreapMap.get_put t (rand e.1) e.1 k e.2),
    tx.pendingKeys.foldl_entries TreapMap.get (fun _ => none)
      (fun t e k => TreapMap.get_delete t e.1 k)]
  cases hremove : tx.pendingRemove.get k <;> cases hkeys : tx.pendingKeys.get k <;>
    simp [TreapMap.has, hremove, hkeys]

theorem content_addPending :
    (c.addPending rand tx).content = overlay tx.pendingKeys tx.pendingRemove c.content := by
  ext1 k
  rw [DbCache.content, get_overlay, has_cachedRemove_addPending, get_cachedKeys_addPending,
    get_overlay, DbCache.content, get_overlay]
  show (if _ then _ else Option.or _ (c.ldb.get k)) = _
  cases hremove : tx.pendingRemove.has k with
  | true => rfl
  | false =>
    cases hkeys : tx.pendingKeys.get k with
    | some v => simp [TreapMap.has, hkeys]
    | none =>
      rw [TreapMap.has, hkeys]
      rfl

theorem exclusive_addPending (h : Exclusive c.cachedKeys c.cachedRemove) :
    Exclusive (c.addPending rand tx).cachedKeys (c.addPending rand tx).cachedRemove := by
  intro k
  rw [has_cachedRemove_addPending, TreapMap.has, get_cachedKeys_addPending]
  have hk := h k
  cases hremove : tx.pendingRemove.has k with
  | true => simp
  | false => grind [TreapMap.has]

end

theorem flush_spec {c c' : DbCache κ ν} {syncFails flushFails : Bool} {r : Except DbError Unit}
    (h : c.flush syncFails flushFails = (c', r)) (hex : Exclusive c.cachedKeys c.cachedRemove) :
    c'.content = c.content ∧ Exclusive c'.cachedKeys c'.cachedRemove := by
  rw [DbCache.flush] at h
  split at h
  · cases h
    exact ⟨rfl, hex⟩
  split at h
  · cases h
    exact ⟨rfl, hex⟩
  split at h
  · cases h
    exact ⟨rfl, hex⟩
  · cases h
    refine ⟨?_, exclusive_empty⟩
    rw [DbCache.content, overlay_empty, commitTreaps_eq]
    rfl

theorem overlay_of_empty {keys : TreapMap κ ν} {remove : TreapMap κ Unit} (hkeys : keys.len = 0)
    (hremove : remove.len = 0) (base : Bucket κ ν) : overlay keys remove base = base := by
  ext1 k
  rw [get_overlay, TreapMap.has, TreapMap.get_eq_none_of_len hkeys,
    TreapMap.get_eq_none_of_len hremove]
  rfl

theorem flush_ok {c c' : DbCache κ ν} {syncFails flushFails : Bool}
    (h : c.flush syncFails flushFails = (c', .ok ())) :
    c'.ldb = c.content ∧ c'.cachedKeys.len = 0 ∧ c'.cachedRemove.len = 0 := by
  rw [DbCache.flush] at h
  split at h
  · cases h
  split at h
  case isTrue hempty =>
    cases h
    exact ⟨(overlay_of_empty hempty.1 hempty.2 _).symm, hempty⟩
  split at h
  · cases h
  · cases h
    exact ⟨commitTreaps_eq _ _ _, rfl, rfl⟩

/-- A commit lays the transaction over what was committed, at once or through
leveldb; one that fails changes nothing to see. -/
theorem commitTx_spec {env : CommitEnv κ} {tx : Transaction κ ν} {c c' : DbCache κ ν}
    {r : Except DbError Unit} (h : c.commitTx env tx = (c', r))
    (hex : Exclusive c.cachedKeys c.cachedRemove) :
    Exclusive c'.cachedKeys c'.cachedRemove ∧ c'.content =
      if r.isOk then overlay tx.pendingKeys tx.pendingRemove c.content else c.content := by
  rw [DbCache.commitTx] at h
  split at h
  · split at h
    case h_1 c₁ err hflush =>
      cases h
      obtain ⟨hcontent, hex'⟩ := flush_spec hflush hex
      exact ⟨hex', hcontent⟩
    case h_2 c₁ hflush =>
      obtain ⟨hcontent, hex'⟩ := flush_spec hflush hex
      obtain ⟨hldb, hkeys, hremove⟩ := flush_ok hflush
      split at h
      · cases h
        exact ⟨hex', hcontent⟩
      · cases h
        refine ⟨hex', (overlay_of_empty hkeys hremove _).trans ?_⟩
        rw [← hldb]
        exact commitTreaps_eq _ _ _
  · cases h
    exact ⟨exclusive_addPending _ _ _ hex, content_addPending _ _ _⟩

/-! ## The plain map -/

/-- What the database is for: the committed map, and one map for each open
transaction, which starts as the committed one. -/
structure PlainDb (κ ν : Type) where
  committed : Bucket κ ν
  writer    : Option (Bucket κ ν) := none
  readers   : Bucket Nat (Bucket κ ν) := .empty

/-- A call on plain maps, told whether the call returned without error. -/
def PlainDb.event (db : PlainDb κ ν) : Call κ ν × Bool → PlainDb κ ν
  | (.beginWrite, _) => { db with writer := some db.committed }
  | (.beginRead id, _) => { db with readers := db.readers.put id db.committed }
  | (.put _ key value, _) => { db with writer := db.writer.map fun m => m.put key value }
  | (.delete _ key, _) => { db with writer := db.writer.map fun m => m.delete key }
  | (.commit _ rows, true) =>
      let final := db.writer.map fun m => rows.foldl (fun m row => m.put row.1 row.2) m
      { db with committed := final.getD db.committed, writer := none }
  | (.commit _ _, false) => { db with writer := none }
  | (.rollback, _) => { db with writer := none }
  | (.endRead id, _) => { db with readers := db.readers.delete id }
  | (.flush _ _, _) => db

/-- A writing transaction and the map it stands for. -/
structure Transaction.Writes (tx : Transaction κ ν) (c : DbCache κ ν) (m : Bucket κ ν) : Prop where
  writable  : tx.writable = true
  snapshot  : tx.snapshot = c.snapshot
  exclusive : Exclusive tx.pendingKeys tx.pendingRemove
  view      : tx.view = m

/-- A read-only transaction and the map it stands for. -/
structure Transaction.Sees (tx : Transaction κ ν) (m : Bucket κ ν) : Prop where
  readOnly : tx.writable = false
  view     : ∀ k, tx.snapshot.get k = m.get k

/-- The database and the plain maps it stands for. -/
structure Db.Models (db : Db κ ν) (plain : PlainDb κ ν) : Prop where
  committed : db.cache.content = plain.committed
  exclusive : Exclusive db.cache.cachedKeys db.cache.cachedRemove
  writer    : Option.Rel (fun tx m => Transaction.Writes tx db.cache m) db.writer plain.writer
  readers   : ∀ id, Option.Rel Transaction.Sees (db.readers.get id) (plain.readers.get id)

section

variable {tx : Transaction κ ν} {c : DbCache κ ν} {m : Bucket κ ν}

theorem Transaction.Writes.putKey (h : tx.Writes c m) (priority : Nat) (k : κ) (v : ν) :
    (tx.putKey priority k v).Writes c (m.put k v) where
  writable := h.writable
  snapshot := h.snapshot
  exclusive := h.exclusive.put priority k v
  view := by
    rw [← h.view]
    exact overlay_put _ _ _ _ _ _

theorem Transaction.Writes.deleteKey (h : tx.Writes c m) (priority : Nat) (k : κ) :
    (tx.deleteKey priority k).Writes c (m.delete k) where
  writable := h.writable
  snapshot := h.snapshot
  exclusive := h.exclusive.delete priority k
  view := by
    rw [← h.view]
    exact overlay_delete _ _ _ _ _

theorem Transaction.Writes.putRows (rand : κ → Nat) (rows : List (κ × ν)) (h : tx.Writes c m) :
    (rows.foldl (fun tx row => tx.putKey (rand row.1) row.1 row.2) tx).Writes c
      (rows.foldl (fun m row => m.put row.1 row.2) m) := by
  induction rows generalizing tx m with
  | nil => exact h
  | cons row rows ih => exact ih (h.putKey (rand row.1) row.1 row.2)

theorem Transaction.Writes.overlay_content (h : tx.Writes c m) :
    overlay tx.pendingKeys tx.pendingRemove c.content = m := by
  rw [← h.view, Transaction.view, h.snapshot]
  rfl

theorem Transaction.Writes.fetchKey (h : tx.Writes c m) (k : κ) :
    tx.fetchKey k = m.get k ∧ tx.hasKey k = (m.get k).isSome := by
  have hget : tx.fetchKey k = m.get k := by rw [Transaction.fetchKey_eq h.writable, h.view]
  exact ⟨hget, by rw [Transaction.hasKey_eq, hget]⟩

theorem Transaction.Sees.fetchKey (h : tx.Sees m) (k : κ) :
    tx.fetchKey k = m.get k ∧ tx.hasKey k = (m.get k).isSome := by
  have hget : tx.fetchKey k = m.get k := by
    rw [Transaction.fetchKey, h.readOnly, Bool.false_and, ← h.view k]
    rfl
  exact ⟨hget, by rw [Transaction.hasKey_eq, hget]⟩

end

theorem snapshot_get (c : DbCache κ ν) (k : κ) : c.snapshot.get k = c.content.get k :=
  c.snapshot.get_eq k

theorem writePendingAndCommit_spec {env : CommitEnv κ} {rows : List (κ × ν)}
    {tx : Transaction κ ν} {c c' : DbCache κ ν} {m : Bucket κ ν} {r : Except DbError Unit}
    (h : c.writePendingAndCommit env rows tx = (c', r))
    (hex : Exclusive c.cachedKeys c.cachedRemove) (htx : tx.Writes c m) :
    Exclusive c'.cachedKeys c'.cachedRemove ∧ c'.content =
      if r.isOk then rows.foldl (fun m row => m.put row.1 row.2) m else c.content := by
  rw [DbCache.writePendingAndCommit] at h
  split at h
  · cases h
    exact ⟨hex, rfl⟩
  · obtain ⟨hex', hcontent⟩ := commitTx_spec h hex
    rw [(htx.putRows env.rand rows).overlay_content] at hcontent
    exact ⟨hex', hcontent⟩

theorem Db.Models.writer_some {db : Db κ ν} {plain : PlainDb κ ν} {tx : Transaction κ ν}
    (h : db.Models plain) (htx : db.writer = some tx) :
    ∃ m, plain.writer = some m ∧ tx.Writes db.cache m := by
  have hrel := h.writer
  rw [htx] at hrel
  generalize plain.writer = w at hrel
  cases hrel with
  | some hwrites => exact ⟨_, rfl, hwrites⟩

theorem Db.Models.writer_none {db : Db κ ν} {plain : PlainDb κ ν} (h : db.Models plain)
    (htx : db.writer = none) : plain.writer = none := by
  have hrel := h.writer
  rw [htx] at hrel
  generalize plain.writer = w at hrel ⊢
  cases hrel
  rfl

theorem Db.Models.call {db db' : Db κ ν} {plain : PlainDb κ ν} {c : Call κ ν}
    {r : Except DbError Unit} (h : db.Models plain) (hcall : db.call c = some (db', r)) :
    db'.Models (plain.event (c, r.isOk)) := by
  cases c with
  | beginWrite =>
    rw [Db.call] at hcall
    split at hcall
    · cases hcall
    · cases hcall
      refine { h with writer := Option.Rel.some ?_ }
      exact ⟨rfl, rfl, exclusive_empty, (overlay_empty _).trans h.committed⟩
  | beginRead id =>
    cases hcall
    refine { h with readers := ?_ }
    intro id'
    simp only [PlainDb.event, Bucket.get_put]
    split
    · refine .some ⟨rfl, ?_⟩
      intro k
      rw [← h.committed]
      exact snapshot_get _ _
    · exact h.readers id'
  | put priority key value =>
    obtain ⟨tx, htx, hpair⟩ := Option.map_eq_some_iff.mp hcall
    cases hpair
    obtain ⟨m, hm, hwrites⟩ := h.writer_some htx
    refine { h with writer := ?_ }
    rw [PlainDb.event, hm]
    exact .some (hwrites.putKey priority key value)
  | delete priority key =>
    obtain ⟨tx, htx, hpair⟩ := Option.map_eq_some_iff.mp hcall
    cases hpair
    obtain ⟨m, hm, hwrites⟩ := h.writer_some htx
    refine { h with writer := ?_ }
    rw [PlainDb.event, hm]
    exact .some (hwrites.deleteKey priority key)
  | commit env rows =>
    obtain ⟨tx, htx, hpair⟩ := Option.map_eq_some_iff.mp hcall
    cases hpair
    obtain ⟨m, hm, hwrites⟩ := h.writer_some htx
    obtain ⟨hex, hcontent⟩ := writePendingAndCommit_spec (Prod.eta _).symm h.exclusive hwrites
    cases hr : (db.cache.writePendingAndCommit env rows tx).2.isOk with
    | true =>
      rw [hr, if_pos rfl] at hcontent
      refine ⟨?_, hex, .none, h.readers⟩
      rw [PlainDb.event, hm]
      exact hcontent
    | false =>
      rw [hr] at hcontent
      exact ⟨hcontent.trans h.committed, hex, .none, h.readers⟩
  | rollback =>
    obtain ⟨tx, htx, hpair⟩ := Option.map_eq_some_iff.mp hcall
    cases hpair
    exact { h with writer := .none }
  | endRead id =>
    cases hcall
    refine { h with readers := ?_ }
    intro id'
    simp only [PlainDb.event, Bucket.get_delete]
    split
    · exact .none
    · exact h.readers id'
  | flush syncFails flushFails =>
    rw [Db.call] at hcall
    split at hcall
    · cases hcall
    case h_2 hnone =>
      cases hcall
      obtain ⟨hcontent, hex⟩ := flush_spec (Prod.eta _).symm h.exclusive
      refine ⟨hcontent.trans h.committed, hex, ?_, h.readers⟩
      rw [hnone, PlainDb.event, h.writer_none hnone]
      exact .none

theorem Db.Models.event {db db' : Db κ ν} {plain : PlainDb κ ν} {e : Call κ ν × Bool}
    (h : db.Models plain) (he : db.event e = some db') : db'.Models (plain.event e) := by
  obtain ⟨c, ok⟩ := e
  rw [Db.event] at he
  split at he
  · cases he
  case h_2 db₁ r hcall =>
    split at he
    case isTrue hok =>
      cases he
      cases hok
      exact h.call hcall
    case isFalse => cases he

/-- **The layered database is a plain map.** After every history of calls, with
commits that flush or fail as they please, every open transaction reads what the
plain maps say, and no key is both to be put and to be removed, in a transaction
or in the cache. -/
theorem layered_db_is_plain_map (ldb : Bucket κ ν) {events : List (Call κ ν × Bool)}
    {db : Db κ ν} (hrun : runSteps Db.event { cache := { ldb := ldb } } events = some db) :
    (∀ tx, db.writer = some tx →
      (∃ m, (events.foldl PlainDb.event { committed := ldb }).writer = some m ∧
        ∀ k, tx.fetchKey k = m.get k ∧ tx.hasKey k = (m.get k).isSome) ∧
      Exclusive tx.pendingKeys tx.pendingRemove) ∧
    (∀ id tx, db.readers.get id = some tx →
      ∃ m, (events.foldl PlainDb.event { committed := ldb }).readers.get id = some m ∧
        ∀ k, tx.fetchKey k = m.get k ∧ tx.hasKey k = (m.get k).isSome) ∧
    Exclusive db.cache.cachedKeys db.cache.cachedRemove := by
  have hstart : ({ cache := { ldb := ldb } } : Db κ ν).Models { committed := ldb } :=
    ⟨overlay_empty ldb, exclusive_empty, .none, fun _ => .none⟩
  have hstep : ∀ (db : Db κ ν) plain e db', db.Models plain → db.event e = some db' →
      db'.Models (plain.event e) := fun _ _ _ _ => Db.Models.event
  have h := runSteps_simulates hstep hstart hrun
  refine ⟨?_, ?_, h.exclusive⟩
  · intro tx htx
    obtain ⟨m, hm, hwrites⟩ := h.writer_some htx
    exact ⟨⟨m, hm, hwrites.fetchKey⟩, hwrites.exclusive⟩
  · intro id tx htx
    have hrel := h.readers id
    rw [htx] at hrel
    generalize (events.foldl PlainDb.event { committed := ldb }).readers.get id = w at hrel ⊢
    cases hrel with
    | some hsees => exact ⟨_, rfl, hsees.fetchKey⟩

/-- Keys 1 and 2 go to the cache, key 1 is deleted in a commit that flushes, key 3
is lost in one that fails, and a last transaction has put key 4. -/
def flushedHistory : List (Call Nat Nat × Bool) :=
  [(.beginWrite, true), (.put 5 1 10, true), (.put 3 2 20, true), (.commit {} [(7, 70)], true),
    (.beginRead 0, true),
    (.beginWrite, true), (.delete 1 1, true), (.commit { needsFlush := true } [], true),
    (.beginWrite, true), (.put 2 3 30, true),
    (.commit { needsFlush := true, commitFails := true } [], false),
    (.beginWrite, true), (.put 9 4 40, true)]

theorem flushed_history_reads :
    ∃ db tx, runSteps Db.event { cache := { ldb := .empty } } flushedHistory = some db ∧
      db.writer = some tx ∧ tx.fetchKey 1 = none ∧ tx.fetchKey 2 = some 20 ∧
      tx.fetchKey 3 = none ∧ tx.fetchKey 4 = some 40 := by
  obtain ⟨db, hrun, hwriter⟩ : ∃ db, runSteps Db.event { cache := { ldb := .empty } }
      flushedHistory = some db ∧ db.writer.isSome = true := by decide +kernel
  obtain ⟨tx, htx⟩ := Option.isSome_iff_exists.mp hwriter
  obtain ⟨⟨m, hm, hread⟩, _⟩ := (layered_db_is_plain_map _ hrun).1 tx htx
  have hplain : ∀ k v, (flushedHistory.foldl PlainDb.event { committed := .empty }).writer.map
      (fun m => m.get k) = some v → tx.fetchKey k = v := by
    grind
  exact ⟨db, tx, hrun, htx, hplain 1 none rfl, hplain 2 (some 20) rfl, hplain 3 none rfl,
    hplain 4 (some 40) rfl⟩

end FalconDraw.Database
