/-
FalconDraw.Database.SnapshotTheorems — snapshots taken while a writer commits
(database/ffldb/dbcache.go, `begin` of db.go).

`Snapshot` reads leveldb first and the cached treaps second, and no lock keeps a
writer out in between.
-/
import FalconDraw.Database.CacheTheorems

namespace FalconDraw.Database

open Lib

variable {κ ν : Type} [LinearOrder κ]

/-! ## The steps -/

/-- A `Snapshot` call of a read-only `begin`. `moments` are the contents of the
database from its start on; the source has no such field. -/
inductive SnapshotCall (κ ν : Type) [LinearOrder κ] where
  | started (moments : List (Bucket κ ν))
  | halfway (dbSnapshot : Bucket κ ν) (moments : List (Bucket κ ν))
  | returned (snapshot : DbCacheSnapshot κ ν) (moments : List (Bucket κ ν))

def SnapshotCall.record (content : Bucket κ ν) : SnapshotCall κ ν → SnapshotCall κ ν
  | .started moments => .started (content :: moments)
  | .halfway dbSnapshot moments => .halfway dbSnapshot (content :: moments)
  | .returned snapshot moments => .returned snapshot moments

/-- Where the writer stands, which holds the write lock unless it is idle. -/
inductive Writer (κ ν : Type) [LinearOrder κ] where
  | idle
  /-- `Snapshot` of its own `begin` has read leveldb -/
  | opening (dbSnapshot : Bucket κ ν)
  | working (tx : Transaction κ ν)
  /-- `flush` has read the cached treaps -/
  | flushing (tx : Transaction κ ν) (cachedKeys : TreapMap κ ν) (cachedRemove : TreapMap κ Unit)
  /-- leveldb has the cached updates -/
  | flushed (tx : Transaction κ ν)
  /-- the flush is over, `commitTx` goes on to leveldb -/
  | cleared (tx : Transaction κ ν)
  /-- `commitTx` has read the cached treaps to add to them -/
  | merging (tx : Transaction κ ν) (cachedKeys : TreapMap κ ν) (cachedRemove : TreapMap κ Unit)

structure SharedDb (κ ν : Type) [LinearOrder κ] where
  cache  : DbCache κ ν
  writer : Writer κ ν := .idle
  calls  : Bucket Nat (SnapshotCall κ ν) := .empty

inductive Step (κ ν : Type) where
  | startSnapshot (id : Nat)
  | readLdb (id : Nat)
  | readTreaps (id : Nat)
  | beginWrite
  | openTreaps
  | put (priority : Nat) (key : κ) (value : ν)
  | delete (priority : Nat) (key : κ)
  | commit (needsFlush : Bool)
  | flushLdb
  | clearTreaps
  | commitLdb
  | storeTreaps (rand : κ → Nat)
  /-- a rollback, or an error on the way to leveldb -/
  | abandon

namespace SharedDb

/-- Every call that has not returned sees the present content pass by. -/
def record (s : SharedDb κ ν) : SharedDb κ ν :=
  { s with calls := fun id => (s.calls.get id).map (SnapshotCall.record s.cache.content) }

/-- What a step does to leveldb, the treaps and the one who takes it. -/
def act (s : SharedDb κ ν) : Step κ ν → Option (SharedDb κ ν)
  | .startSnapshot id =>
      match s.calls.get id with
      | none => some { s with calls := s.calls.put id (.started []) }
      | some _ => none
  | .readLdb id =>
      match s.calls.get id with
      | some (.started moments) =>
          some { s with calls := s.calls.put id (.halfway s.cache.ldb moments) }
      | _ => none
  | .readTreaps id =>
      match s.calls.get id with
      | some (.halfway dbSnapshot moments) =>
          some { s with
            calls := s.calls.put id
              (.returned ⟨dbSnapshot, s.cache.cachedKeys, s.cache.cachedRemove⟩ moments) }
      | _ => none
  | .beginWrite =>
      match s.writer with
      | .idle => some { s with writer := .opening s.cache.ldb }
      | _ => none
  | .openTreaps =>
      match s.writer with
      | .opening dbSnapshot =>
          some { s with
            writer := .working
              ⟨true, ⟨dbSnapshot, s.cache.cachedKeys, s.cache.cachedRemove⟩, .empty, .empty⟩ }
      | _ => none
  | .put priority key value =>
      match s.writer with
      | .working tx => some { s with writer := .working (tx.putKey priority key value) }
      | _ => none
  | .delete priority key =>
      match s.writer with
      | .working tx => some { s with writer := .working (tx.deleteKey priority key) }
      | _ => none
  | .commit needsFlush =>
      match s.writer with
      | .working tx =>
          some { s with
            writer :=
              if needsFlush then .flushing tx s.cache.cachedKeys s.cache.cachedRemove
              else .merging tx s.cache.cachedKeys s.cache.cachedRemove }
      | _ => none
  | .flushLdb =>
      match s.writer with
      | .flushing tx cachedKeys cachedRemove =>
          if cachedKeys.len = 0 ∧ cachedRemove.len = 0 then some { s with writer := .cleared tx }
          else
            some { s with
              cache := { s.cache with ldb := commitTreaps s.cache.ldb cachedKeys cachedRemove }
              writer := .flushed tx }
      | _ => none
  | .clearTreaps =>
      match s.writer with
      | .flushed tx => some { s with cache := { ldb := s.cache.ldb }, writer := .cleared tx }
      | _ => none
  | .commitLdb =>
      match s.writer with
      | .cleared tx =>
          some { s with
            cache := { s.cache with ldb := commitTreaps s.cache.ldb tx.pendingKeys tx.pendingRemove }
            writer := .idle }
      | _ => none
  | .storeTreaps rand =>
      match s.writer with
      | .merging tx cachedKeys cachedRemove =>
          some { s with
            cache := DbCache.addPending rand tx ⟨s.cache.ldb, cachedKeys, cachedRemove⟩
            writer := .idle }
      | _ => none
  | .abandon =>
      match s.writer with
      | .working _ | .flushing _ _ _ | .cleared _ => some { s with writer := .idle }
      | _ => none

def step (s : SharedDb κ ν) (a : Step κ ν) : Option (SharedDb κ ν) := (s.act a).map record

end SharedDb

/-! ## What a step changes -/

section

variable {s s' : SharedDb κ ν} {a : Step κ ν}

/-- The steps that put new treaps in the place of the cached ones. -/
def Step.ReplacesTreaps : Step κ ν → Prop
  | .clearTreaps | .storeTreaps _ => True
  | _ => False

/-- What the writer has read is still what is there, and between the two parts of a
flush leveldb alone has the content. -/
def Writer.Fine (c : DbCache κ ν) : Writer κ ν → Prop
  | .opening dbSnapshot => dbSnapshot = c.ldb
  | .working tx => tx.snapshot = c.snapshot
  | .flushing _ keys remove | .merging _ keys remove =>
      keys = c.cachedKeys ∧ remove = c.cachedRemove
  | .flushed _ => c.content = c.ldb
  | .cleared _ => c.cachedKeys.len = 0 ∧ c.cachedRemove.len = 0
  | .idle => True

theorem overlay_overlay_self (keys : TreapMap κ ν) (remove : TreapMap κ Unit)
    (base : Bucket κ ν) : overlay keys remove (overlay keys remove base) = overlay keys remove base := by
  ext1 k
  simp only [get_overlay]
  split
  · rfl
  · cases keys.get k <;> rfl

/-- The content a step leaves: the transaction that the writer commits with this
step, over the content before. -/
def SharedDb.contentAfter (s : SharedDb κ ν) (a : Step κ ν) : Bucket κ ν :=
  match a, s.writer with
  | .commitLdb, .cleared tx | .storeTreaps _, .merging tx _ _ =>
      overlay tx.pendingKeys tx.pendingRemove s.cache.content
  | _, _ => s.cache.content

theorem SharedDb.content_act (hfine : s.writer.Fine s.cache) (h : s.act a = some s') :
    s'.cache.content = s.contentAfter a ∧ s'.writer.Fine s'.cache := by
  cases a <;> simp only [act] at h
  case startSnapshot | readLdb | readTreaps =>
    split at h <;> cases h
    exact ⟨rfl, hfine⟩
  case beginWrite =>
    split at h <;> cases h
    exact ⟨rfl, rfl⟩
  case openTreaps =>
    split at h
    case h_1 dbSnapshot hwriter =>
      cases h
      rw [hwriter] at hfine
      cases hfine
      exact ⟨rfl, rfl⟩
    · cases h
  case put | delete =>
    split at h
    case h_1 tx hwriter =>
      cases h
      rw [hwriter] at hfine
      exact ⟨rfl, hfine⟩
    · cases h
  case commit needsFlush =>
    split at h <;> cases h
    refine ⟨rfl, ?_⟩
    cases needsFlush <;> exact ⟨rfl, rfl⟩
  case flushLdb =>
    split at h
    case h_1 tx keys remove hwriter =>
      rw [hwriter] at hfine
      obtain ⟨rfl, rfl⟩ := hfine
      split at h
      case isTrue hempty =>
        cases h
        exact ⟨rfl, hempty⟩
      case isFalse =>
        cases h
        have hldb : commitTreaps s.cache.ldb s.cache.cachedKeys s.cache.cachedRemove =
            s.cache.content := commitTreaps_eq _ _ _
        have hcontent : DbCache.content { s.cache with ldb := s.cache.content } = s.cache.content :=
          overlay_overlay_self _ _ _
        rw [hldb]
        exact ⟨hcontent, hcontent⟩
    · cases h
  case clearTreaps =>
    split at h
    case h_1 tx hwriter =>
      cases h
      rw [hwriter] at hfine
      exact ⟨(overlay_empty _).trans hfine.symm, rfl, rfl⟩
    · cases h
  case commitLdb =>
    split at h
    case h_1 tx hwriter =>
      cases h
      rw [hwriter] at hfine
      have hcontent : s.cache.content = s.cache.ldb := overlay_of_empty hfine.1 hfine.2 _
      refine ⟨(overlay_of_empty hfine.1 hfine.2 _).trans ?_, trivial⟩
      simp only [contentAfter, hwriter, hcontent]
      exact commitTreaps_eq _ _ _
    · cases h
  case storeTreaps rand =>
    split at h
    case h_1 tx keys remove hwriter =>
      cases h
      rw [hwriter] at hfine
      obtain ⟨rfl, rfl⟩ := hfine
      refine ⟨?_, trivial⟩
      simp only [contentAfter, hwriter]
      exact content_addPending _ _ _
    · cases h
  case abandon =>
    split at h <;> cases h <;> exact ⟨rfl, trivial⟩

theorem SharedDb.treaps_act (h : s.act a = some s') :
    (s'.cache.cachedKeys = s.cache.cachedKeys ∧ s'.cache.cachedRemove = s.cache.cachedRemove) ∨
      a.ReplacesTreaps ∧ s'.cache.ldb = s.cache.ldb := by
  cases a <;> simp only [act] at h
  case clearTreaps | storeTreaps =>
    split at h <;> cases h
    exact .inr ⟨trivial, rfl⟩
  case flushLdb =>
    split at h
    · split at h <;> cases h <;> exact .inl ⟨rfl, rfl⟩
    · cases h
  all_goals
    split at h <;> cases h <;> exact .inl ⟨rfl, rfl⟩

end

/-- The database before anybody uses it. -/
def SharedDb.Opened (s : SharedDb κ ν) : Prop := s.writer = .idle ∧ s.calls = .empty

theorem writer_fine {allowed : SharedDb κ ν → Step κ ν → Prop} {s : SharedDb κ ν}
    (hrun : Reaches SharedDb.step SharedDb.Opened allowed s) : s.writer.Fine s.cache := by
  have hstart : ∀ s : SharedDb κ ν, s.Opened → s.writer.Fine s.cache := by
    rintro s ⟨hidle, _⟩
    rw [hidle]
    trivial
  have hstep : ∀ (s : SharedDb κ ν) a s', s.writer.Fine s.cache → allowed s a →
      s.step a = some s' → s'.writer.Fine s'.cache := by
    intro s a s' hfine _ hs
    obtain ⟨s₁, h₁, rfl⟩ := Option.map_eq_some_iff.mp hs
    exact (SharedDb.content_act hfine h₁).2
  exact hrun.invariant hstart hstep

/-! ## Snapshots of one moment -/

/-- A call that has returned saw one of its moments; one that is halfway would,
if it read the treaps now. -/
def SnapshotCall.Fine (c : DbCache κ ν) : SnapshotCall κ ν → Prop
  | .started moments => c.content ∈ moments
  | .halfway dbSnapshot moments =>
      c.content ∈ moments ∧ overlay c.cachedKeys c.cachedRemove dbSnapshot ∈ moments
  | .returned snapshot moments => ∃ m ∈ moments, ∀ k, snapshot.get k = m.get k

/-- The same before the present content is recorded. -/
def SnapshotCall.Ready (c : DbCache κ ν) : SnapshotCall κ ν → Prop
  | .started _ => True
  | .halfway dbSnapshot moments =>
      overlay c.cachedKeys c.cachedRemove dbSnapshot ∈ c.content :: moments
  | .returned snapshot moments => ∃ m ∈ moments, ∀ k, snapshot.get k = m.get k

theorem SnapshotCall.Ready.record {c : DbCache κ ν} {call : SnapshotCall κ ν} (h : call.Ready c) :
    (call.record c.content).Fine c := by
  cases call with
  | started moments => exact List.mem_cons_self
  | halfway dbSnapshot moments => exact ⟨List.mem_cons_self, h⟩
  | returned snapshot moments => exact h

theorem SnapshotCall.Fine.ready {c c' : DbCache κ ν} {call : SnapshotCall κ ν} (h : call.Fine c)
    (hkeys : c'.cachedKeys = c.cachedKeys) (hremove : c'.cachedRemove = c.cachedRemove) :
    call.Ready c' := by
  cases call with
  | started moments => trivial
  | halfway dbSnapshot moments =>
    rw [Ready, hkeys, hremove]
    exact List.mem_cons_of_mem _ h.2
  | returned snapshot moments => exact h

/-- Every `Snapshot` call that has read leveldb and not yet the treaps has read
what leveldb still is. -/
def SharedDb.UpToDate (s : SharedDb κ ν) : Prop :=
  ∀ id dbSnapshot moments, s.calls.get id = some (.halfway dbSnapshot moments) →
    dbSnapshot = s.cache.ldb

def SharedDb.Fine (s : SharedDb κ ν) : Prop :=
  ∀ id call, s.calls.get id = some call → call.Fine s.cache

theorem SharedDb.Fine.calls_act {s s' : SharedDb κ ν} {a : Step κ ν} (h : s.Fine)
    (ha : s.act a = some s') :
    s'.calls = s.calls ∨
      ∃ id call, s'.calls = s.calls.put id call ∧ s'.cache = s.cache ∧ call.Ready s.cache := by
  cases a <;> simp only [act] at ha
  case startSnapshot id =>
    split at ha <;> cases ha
    exact .inr ⟨id, .started [], rfl, rfl, trivial⟩
  case readLdb id =>
    split at ha <;> cases ha
    exact .inr ⟨id, _, rfl, rfl, List.mem_cons_self⟩
  case readTreaps id =>
    split at ha
    case h_1 dbSnapshot moments hcall =>
      cases ha
      have hseen := (h id _ hcall).2
      exact .inr ⟨id, _, rfl, rfl, _, hseen, fun k => DbCacheSnapshot.get_eq _ k⟩
    · cases ha
  case flushLdb =>
    split at ha
    · split at ha <;> cases ha <;> exact .inl rfl
    · cases ha
  all_goals
    split at ha <;> cases ha <;> exact .inl rfl

theorem SharedDb.Fine.act {s s' : SharedDb κ ν} {a : Step κ ν} (h : s.Fine)
    (hallowed : a.ReplacesTreaps → s.UpToDate) (ha : s.act a = some s') {id : Nat}
    {call : SnapshotCall κ ν} (hcall : s'.calls.get id = some call) : call.Ready s'.cache := by
  rcases h.calls_act ha with hcalls | ⟨id₁, call₁, hcalls, hcache, hready⟩
  · rw [hcalls] at hcall
    rcases treaps_act ha with ⟨hkeys, hremove⟩ | ⟨hreplaces, hldb⟩
    · exact (h id call hcall).ready hkeys hremove
    · cases call with
      | started moments => trivial
      | halfway dbSnapshot moments =>
        -- up to date, it finds the new treaps over the leveldb they belong to
        rw [SnapshotCall.Ready, hallowed hreplaces id _ _ hcall, ← hldb]
        exact List.mem_cons_self
      | returned snapshot moments => exact h id _ hcall
  · rw [hcalls, Bucket.get_put] at hcall
    rw [hcache]
    split at hcall
    · cases hcall
      exact hready
    · exact (h id call hcall).ready rfl rfl

theorem SharedDb.Fine.step {s s' : SharedDb κ ν} {a : Step κ ν} (h : s.Fine)
    (hallowed : a.ReplacesTreaps → s.UpToDate) (ha : s.step a = some s') : s'.Fine := by
  obtain ⟨s₁, h₁, rfl⟩ := Option.map_eq_some_iff.mp ha
  intro id call hcall
  obtain ⟨call₁, hcall₁, rfl⟩ := Option.map_eq_some_iff.mp hcall
  exact (h.act hallowed h₁ hcall₁).record

/-- **A snapshot is of one moment, if nothing overtakes it.** In every run in which
the cached treaps are only replaced while no `Snapshot` call stands between its two
reads with an outdated leveldb snapshot, what is seen through each snapshot is the
content of the database at some moment of the call that took it; and the writer
sees the content as it is. -/
theorem snapshot_of_a_moment {s : SharedDb κ ν}
    (hrun : Reaches SharedDb.step SharedDb.Opened (fun s a => a.ReplacesTreaps → s.UpToDate) s) :
    (∀ id snapshot moments, s.calls.get id = some (.returned snapshot moments) →
      ∃ m ∈ moments, ∀ k, snapshot.get k = m.get k) ∧
    ∀ tx, s.writer = .working tx → ∀ k, tx.snapshot.get k = s.cache.content.get k := by
  have hstart : ∀ s : SharedDb κ ν, s.Opened → s.Fine := by
    rintro s ⟨_, hcalls⟩ id call hcall
    rw [hcalls] at hcall
    cases hcall
  have hstep : ∀ (s : SharedDb κ ν) a s', s.Fine → (a.ReplacesTreaps → s.UpToDate) →
      s.step a = some s' → s'.Fine := fun _ _ _ => SharedDb.Fine.step
  refine ⟨fun id snapshot moments h => hrun.invariant hstart hstep id _ h, ?_⟩
  intro tx htx k
  have hfine := writer_fine hrun
  rw [htx] at hfine
  rw [show tx.snapshot = s.cache.snapshot from hfine, snapshot_get]

def oneCachedKey : SharedDb Nat Nat := { cache := { ldb := .empty, cachedKeys := .put 0 1 10 .empty } }

/-- The reader's second read falls between the two parts of a flush. -/
def meetingFlush : List (Step Nat Nat) :=
  [.startSnapshot 0, .readLdb 0, .beginWrite, .openTreaps, .commit true, .flushLdb, .readTreaps 0]

theorem snapshot_within_flush :
    ∃ s snapshot moments, runSteps SharedDb.step oneCachedKey meetingFlush = some s ∧
      s.calls.get 0 = some (.returned snapshot moments) ∧
      ∃ m ∈ moments, ∀ k, snapshot.get k = m.get k := by
  obtain ⟨s, hrun, hreturned⟩ := (Option.any_eq_true _ _).mp
    (show (runSteps SharedDb.step oneCachedKey meetingFlush).any (fun s =>
      match s.calls.get 0 with
      | some (.returned _ _) => true
      | _ => false) = true by decide +kernel)
  split at hreturned
  case h_1 snapshot moments hcall =>
    have hnone : ∀ a ∈ meetingFlush, ∀ s : SharedDb Nat Nat, a.ReplacesTreaps → s.UpToDate := by
      intro a ha s hreplaces
      simp only [meetingFlush, List.mem_cons, List.not_mem_nil, or_false] at ha
      rcases ha with rfl | rfl | rfl | rfl | rfl | rfl | rfl <;> cases hreplaces
    exact ⟨s, snapshot, moments, hrun, hcall,
      (snapshot_of_a_moment (.run_allowed (.start ⟨rfl, rfl⟩) hnone hrun)).1 0 _ _ hcall⟩
  · cases hreturned

/-- The reader reads leveldb before a flush and the treaps after it. -/
def overtakingFlush : List (Step Nat Nat) :=
  [.startSnapshot 0, .readLdb 0, .beginWrite, .openTreaps, .commit true, .flushLdb, .clearTreaps,
    .commitLdb, .readTreaps 0]

/-- Key 1 is in the database the whole time and not in the snapshot. -/
theorem overtaken_snapshot_loses_key :
    ∃ s snapshot moments, runSteps SharedDb.step oneCachedKey overtakingFlush = some s ∧
      s.calls.get 0 = some (.returned snapshot moments) ∧
      (∀ m ∈ moments, m.get 1 = some 10) ∧ snapshot.get 1 = none := by
  obtain ⟨s, hrun, hreturned⟩ := (Option.any_eq_true _ _).mp
    (show (runSteps SharedDb.step oneCachedKey overtakingFlush).any (fun s =>
      match s.calls.get 0 with
      | some (.returned snapshot moments) =>
          moments.all (fun m => m.get 1 == some 10) && snapshot.get 1 == none
      | _ => false) = true by decide +kernel)
  split at hreturned
  case h_1 snapshot moments hcall =>
    rw [Bool.and_eq_true, List.all_eq_true, beq_iff_eq] at hreturned
    exact ⟨s, snapshot, moments, hrun, hcall, fun m hm => beq_iff_eq.mp (hreturned.1 m hm),
      hreturned.2⟩
  · cases hreturned

end FalconDraw.Database
