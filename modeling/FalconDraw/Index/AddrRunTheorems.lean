/-
FalconDraw.Index.AddrRunTheorems — the levels of an address over a whole history.

Blocks append entries, reorganizations take some away again.
-/
import FalconDraw.Index.AddrPageTheorems

namespace FalconDraw.Index

open Lib Lib.Levels Wire Draw

/-! ## Histories -/

/-- What happens to the entries of one address. -/
inductive LevelOp where
  | append (blockID : UInt32) (txLoc : TxLoc)
  | remove (count : Nat)
deriving DecidableEq, Repr

namespace LevelOp

def apply (key : AddrKey) (bucket : Levels Bytes) : LevelOp → Except IndexError (Levels Bytes)
  | .append blockID txLoc => dbPutAddrIndexEntry bucket (serializeAddrIndexEntry blockID txLoc)
  | .remove count => dbRemoveAddrIndexEntries key bucket count

def step (key : AddrKey) (bucket : Levels Bytes) (op : LevelOp) : Levels Bytes :=
  (op.apply key bucket).toOption.getD bucket

def run (key : AddrKey) (ops : List LevelOp) : Levels Bytes := ops.foldl (step key) Bucket.empty

/-- The same operation on a list that only grows and shrinks at its end. -/
def list (es : List Bytes) : LevelOp → List Bytes
  | .append blockID txLoc => es ++ [serializeAddrIndexEntry blockID txLoc]
  | .remove count => if count ≤ es.length then es.take (es.length - count) else es

def entries (ops : List LevelOp) : List Bytes := ops.foldl list []

/-- No operation leaves more entries than have an offset. -/
def FewEntries (ops : List LevelOp) : Prop := ∀ k, (entries (ops.take k)).length ≤ offsetEntries

end LevelOp

def fetchAll (key : AddrKey) (bucket : Levels Bytes) (f : Bytes → Except IndexError Hash) :
    Except IndexError (List BlockRegion × UInt32) :=
  dbFetchAddrIndexEntries key bucket 0 (UInt32.ofNat (2 ^ 32 - 1)) false f

def regions (key : AddrKey) (es : List Bytes) (f : Bytes → Except IndexError Hash) :
    Except IndexError (List BlockRegion × UInt32) := do
  let results ← es.mapM fun entry => deserializeAddrIndexEntry key entry f
  return (results, 0)

/-- The levels behave as this list. -/
structure ActsAs (key : AddrKey) (bucket : Levels Bytes) (es : List Bytes) : Prop where
  fetched : ∀ f, fetchAll key bucket f = regions key es f
  level0 : (bucket.data 0).length ≤ maxEntriesForLevel 0
  higher : ∀ k, 0 < k → (bucket.data k).length = 0 ∨
    2 * (bucket.data k).length = maxEntriesForLevel k ∨
    (bucket.data k).length = maxEntriesForLevel k
  no_gap : ∀ j k, j < k → bucket.data k ≠ [] → bucket.data j ≠ []
  appends : ∀ blockID txLoc, ∃ bucket', (LevelOp.append blockID txLoc).apply key bucket = .ok bucket'
  removes : ∀ count, count ≤ es.length →
    ∃ bucket', (LevelOp.remove count).apply key bucket = .ok bucket'
  refuses : ∀ count, es.length < count →
    (∃ text, (LevelOp.remove count).apply key bucket = .error (.assertion text)) ∧
      (LevelOp.remove count).step key bucket = bucket

/-! ## The shape of the levels -/

section Shape

variable {key : AddrKey} {bucket : Levels Bytes} {es : List Bytes}

theorem Holds.level0_le (h : Holds bucket es) : (bucket.data 0).length ≤ maxEntriesForLevel 0 := by
  obtain ⟨n, hf, -⟩ := h
  rcases Nat.eq_zero_or_pos n with rfl | hn
  · rw [data_of_none (hf.unused 0 (Nat.le_refl 0))]
    exact Nat.zero_le _
  · exact (hf.used 0 hn).2

theorem Holds.level_length (h : Holds bucket es) {k : Nat} (hk : 0 < k) :
    (bucket.data k).length = 0 ∨ 2 * (bucket.data k).length = maxEntriesForLevel k ∨
      (bucket.data k).length = maxEntriesForLevel k := by
  obtain ⟨n, hf, -⟩ := h
  by_cases hn : n ≤ k
  · rw [data_of_none (hf.unused k hn)]
    exact .inl rfl
  · obtain ⟨j, rfl⟩ : ∃ j, k = j + 1 := ⟨k - 1, by omega⟩
    rw [maxEntriesForLevel_eq]
    rcases hf.used (j + 1) (by omega) with hhalf | hfull
    · rw [hhalf, cap_succ]
      exact .inr (.inl rfl)
    · exact .inr (.inr hfull)

theorem Holds.no_gap (h : Holds bucket es) {j k : Nat} (hjk : j < k) (hk : bucket.data k ≠ []) :
    bucket.data j ≠ [] := by
  obtain ⟨n, hf, -⟩ := h
  have hc : 0 < level0MaxEntries := by decide
  rw [Ne, hf.data_eq_nil_iff hc] at hk ⊢
  omega

theorem offsetEntries_lt : offsetEntries < 2 ^ 32 := by decide

theorem Holds.actsAs (h : Holds bucket es) (hsize : ∀ e ∈ es, e.length = txEntrySize)
    (hlen : es.length ≤ offsetEntries) : ActsAs key bucket es := by
  have hshort := offsetEntries_lt
  refine ⟨fun f => ?_, h.level0_le, fun k hk => h.level_length hk, fun j k hjk => h.no_gap hjk,
    fun blockID txLoc => ?_, fun count hcount => ?_, fun count hcount => ?_⟩
  · have hmax : (UInt32.ofNat (2 ^ 32 - 1)).toNat = 2 ^ 32 - 1 := rfl
    have hzero : (0 : UInt32).toNat = 0 := rfl
    have hpage : page es 0 (2 ^ 32 - 1) false = es := by
      simp only [page, Bool.false_eq_true, if_false, List.drop_zero]
      exact List.take_of_length_le (by omega)
    rw [fetchAll, dbFetchAddrIndexEntries_eq key h hsize hlen (fun hr => by cases hr), hmax,
      hzero, hpage, Nat.zero_min]
    rfl
  · obtain ⟨bucket', hput, -⟩ := dbPutAddrIndexEntry_ok h (by omega)
      (serializeAddrIndexEntry blockID txLoc)
    exact ⟨bucket', hput⟩
  · obtain ⟨bucket', hremove, -⟩ := dbRemoveAddrIndexEntries_ok key h (by omega) hcount
    exact ⟨bucket', hremove⟩
  · obtain ⟨text, herror⟩ := dbRemoveAddrIndexEntries_error key h (by omega) hcount
    refine ⟨⟨text, herror⟩, ?_⟩
    rw [LevelOp.step, LevelOp.apply, herror]
    rfl

end Shape

/-! ## Runs -/

theorem serializeAddrIndexEntry_length (blockID : UInt32) (txLoc : TxLoc) :
    (serializeAddrIndexEntry blockID txLoc).length = txEntrySize := by
  rw [serializeAddrIndexEntry, serializedID, List.length_append, List.length_append,
    leBytes_length, leBytes_length, leBytes_length]
  rfl

theorem LevelOp.step_holds (key : AddrKey) {bucket : Levels Bytes} {es : List Bytes}
    (h : Holds bucket es) (hlen : es.length < 2 ^ 64) (op : LevelOp) :
    Holds (op.step key bucket) (op.list es) := by
  cases op with
  | append blockID txLoc =>
    obtain ⟨bucket', hput, h'⟩ := dbPutAddrIndexEntry_ok h hlen
      (serializeAddrIndexEntry blockID txLoc)
    rw [step, apply, hput]
    exact h'
  | remove count =>
    rw [step, apply, list]
    split
    case isTrue hle =>
      obtain ⟨bucket', hremove, h'⟩ := dbRemoveAddrIndexEntries_ok key h hlen hle
      rw [hremove]
      exact h'
    case isFalse hgt =>
      obtain ⟨text, herror⟩ := dbRemoveAddrIndexEntries_error key h hlen (Nat.lt_of_not_le hgt)
      rw [herror]
      exact h

theorem LevelOp.list_size {es : List Bytes} (h : ∀ e ∈ es, e.length = txEntrySize) (op : LevelOp) :
    ∀ e ∈ op.list es, e.length = txEntrySize := by
  intro e he
  cases op with
  | append blockID txLoc =>
    rcases List.mem_append.mp he with he | he
    · exact h e he
    · rw [List.mem_singleton.mp he]
      exact serializeAddrIndexEntry_length blockID txLoc
  | remove count =>
    rw [list] at he
    split at he
    · exact h e (List.mem_of_mem_take he)
    · exact h e he

theorem LevelOp.run_holds (key : AddrKey) (ops : List LevelOp)
    (hlen : ∀ k, (entries (ops.take k)).length < 2 ^ 64) :
    Holds (run key ops) (entries ops) ∧ ∀ e ∈ entries ops, e.length = txEntrySize := by
  induction ops using List.reverseRecOn with
  | nil => exact ⟨holds_empty, fun e he => absurd he List.not_mem_nil⟩
  | append_singleton ops op ih =>
    have hbefore : ∀ k, (entries (ops.take k)).length < 2 ^ 64 := by
      intro k
      have hk := hlen (min k ops.length)
      rw [List.take_append_of_le_length (Nat.min_le_right _ _)] at hk
      rwa [List.take_eq_take_min]
    obtain ⟨hholds, hsize⟩ := ih hbefore
    have hshort : (entries ops).length < 2 ^ 64 := by
      have := hbefore ops.length
      rwa [List.take_length] at this
    have hentries : entries (ops ++ [op]) = op.list (entries ops) := by
      rw [entries, List.foldl_append]
      rfl
    have hrun : run key (ops ++ [op]) = op.step key (run key ops) := by
      rw [run, List.foldl_append]
      rfl
    rw [hentries, hrun]
    exact ⟨step_holds key hholds hshort op, list_size hsize op⟩

/-- In every history with an offset for every entry, the levels behave as one list
that grows and shrinks at its end. -/
theorem levels_act_as_list (key : AddrKey) {ops : List LevelOp} (h : LevelOp.FewEntries ops) :
    ActsAs key (LevelOp.run key ops) (LevelOp.entries ops) := by
  have hshort := offsetEntries_lt
  obtain ⟨hholds, hsize⟩ := LevelOp.run_holds key ops fun k => by
    have := h k
    omega
  have hall := h ops.length
  rw [List.take_length] at hall
  exact hholds.actsAs hsize hall

/-- Nine entries fill level 0 and start over; two of them are removed again. -/
def nineEntries : List LevelOp :=
  (List.range 9).map (fun i => .append (UInt32.ofNat i) ⟨100 * i, 50⟩) ++ [.remove 2]

theorem nineEntries_few : LevelOp.FewEntries nineEntries := by
  intro k
  have hall : ∀ k ≤ 10, (LevelOp.entries (nineEntries.take k)).length ≤ offsetEntries := by
    decide +kernel
  rcases Nat.le_total k 10 with hk | hk
  · exact hall k hk
  · rw [List.take_of_length_le (show nineEntries.length ≤ k from hk)]
    exact hall 10 (Nat.le_refl 10)

theorem nine_entries_act_as_list :
    ActsAs 7 (LevelOp.run 7 nineEntries) (LevelOp.entries nineEntries) ∧
      (LevelOp.entries nineEntries).length = 7 :=
  ⟨levels_act_as_list 7 nineEntries_few, by decide⟩

/-! ## Pages -/

def numberedHash (serializedID : Bytes) : Except IndexError Hash :=
  .ok (BitVec.ofNat 256 (leNat serializedID))

/-- The entry of a transaction with length 3 at position 2 of block 1. -/
def wrapEntry : Bytes := serializeAddrIndexEntry 1 ⟨2, 3⟩

theorem entries_replicate (n : Nat) :
    LevelOp.entries (List.replicate n (.append 1 ⟨2, 3⟩)) = List.replicate n wrapEntry := by
  induction n with
  | zero => rfl
  | succ n ih =>
    rw [List.replicate_succ', LevelOp.entries, List.foldl_append, ← LevelOp.entries, ih,
      List.replicate_succ']
    rfl

theorem exists_mem_of_mapM {ε β γ : Type} {g : γ → Except ε β} : ∀ {l : List γ} {rs : List β},
    l.mapM g = .ok rs → ∀ x ∈ l, ∃ r ∈ rs, g x = .ok r
  | [], _, _, x, hx => absurd hx List.not_mem_nil
  | y :: l, rs, h, x, hx => by
    rw [List.mapM_cons, bind_eq_ok] at h
    obtain ⟨r, hr, h⟩ := h
    rw [bind_eq_ok] at h
    obtain ⟨rs', hrs, h⟩ := h
    obtain rfl := Except.ok.inj h
    rcases List.mem_cons.mp hx with rfl | hx
    · exact ⟨r, List.mem_cons_self, hr⟩
    · obtain ⟨r', hr', hg⟩ := exists_mem_of_mapM hrs x hx
      exact ⟨r', List.mem_cons_of_mem r hr', hg⟩

theorem mapM_replicate {ε β γ : Type} {g : γ → Except ε β} {x : γ} {r : β} (h : g x = .ok r) :
    ∀ n, (List.replicate n x).mapM g = .ok (List.replicate n r)
  | 0 => rfl
  | n + 1 => by
    rw [List.replicate_succ, List.mapM_cons, h, mapM_replicate h n]
    rfl

theorem deserialize_shifted (key : AddrKey) (rest : Bytes) :
    deserializeAddrIndexEntry key ((wrapEntry ++ (wrapEntry ++ rest)).drop 8) numberedHash =
      .ok ⟨3, 1, 2⟩ := by
  have hdrop : (wrapEntry ++ (wrapEntry ++ rest)).drop 8 =
      ([3, 0, 0, 0, 1, 0, 0, 0, 2, 0, 0, 0] : Bytes) ++ ([3, 0, 0, 0] ++ rest) := rfl
  rw [hdrop, deserializeAddrIndexEntry_append key _ _ rfl]
  rfl

theorem fetchAll_reads {key : AddrKey} {bucket : Levels Bytes} {loaded : List Bytes}
    {f : Bytes → Except IndexError Hash} {rs : List BlockRegion} {skipped : UInt32}
    (hload : loadLevels bucket none (numLevels + 1) 0 [] = .ok loaded)
    (hlt : loaded.length < 2 ^ 32) (h : fetchAll key bucket f = .ok (rs, skipped)) {i : Nat}
    (hi : i < loaded.length) :
    ∃ r ∈ rs, deserializeAddrIndexEntry key
      (loaded.flatten.drop (UInt32.ofNat i * UInt32.ofNat txEntrySize).toNat) f = .ok r := by
  have hcount : (UInt32.ofNat loaded.length).toNat = loaded.length :=
    UInt32.toNat_ofNat_of_lt' hlt
  have hsome : ¬ UInt32.ofNat loaded.length ≤ 0 := by
    intro hle
    have hzero : (0 : UInt32).toNat = 0 := rfl
    have := UInt32.le_iff_toNat_le.mp hle
    omega
  have hmin : (min (UInt32.ofNat loaded.length - 0) (UInt32.ofNat (2 ^ 32 - 1))).toNat =
      loaded.length := by
    have hle : UInt32.ofNat loaded.length ≤ UInt32.ofNat (2 ^ 32 - 1) := by
      have hmax : (UInt32.ofNat (2 ^ 32 - 1)).toNat = 2 ^ 32 - 1 := rfl
      rw [UInt32.le_iff_toNat_le]
      omega
    rw [UInt32.sub_zero]
    show (if _ then _ else _ : UInt32).toNat = _
    rw [if_pos hle, hcount]
  rw [fetchAll, dbFetchAddrIndexEntries] at h
  simp only [Bool.false_eq_true, if_false, UInt32.zero_add] at h
  rw [hload] at h
  replace h : (if UInt32.ofNat loaded.length ≤ 0 then _ else _) = _ := h
  rw [if_neg hsome, if_neg (show ¬ UInt32.ofNat (2 ^ 32 - 1) = 0 by decide), hmin, bind_eq_ok] at h
  obtain ⟨results, hmap, hrs⟩ := h
  obtain ⟨r, hr, hread⟩ := exists_mem_of_mapM hmap i (List.mem_range.mpr hi)
  obtain ⟨rfl, -⟩ := Prod.mk.inj (Except.ok.inj hrs)
  exact ⟨r, hr, hread⟩

theorem Holds.loadLevels {bucket : Levels Bytes} {es : List Bytes} (h : Holds bucket es)
    (hlen : es.length < 2 ^ 64) : Index.loadLevels bucket none (numLevels + 1) 0 [] = .ok es := by
  obtain ⟨n, hf, rfl⟩ := h
  have hn := levels_le hf hlen
  obtain ⟨m, -, hload, henough⟩ := loadLevels_ok hf none (numLevels + 1) 0 (Nat.zero_le n)
    (by rw [numLevels]; omega)
  rcases henough with rfl | ⟨w, hw, -⟩
  · exact hload
  · cases hw

/-- With one entry more than there are offsets, fetching everything reads the last one
eight bytes into the first. -/
theorem offset_wraps :
    fetchAll 7 (LevelOp.run 7 (List.replicate 357913943 (.append 1 ⟨2, 3⟩))) numberedHash ≠
      regions 7 (LevelOp.entries (List.replicate 357913943 (.append 1 ⟨2, 3⟩))) numberedHash := by
  have hentries : ∀ k, (LevelOp.entries
      ((List.replicate 357913943 (LevelOp.append 1 ⟨2, 3⟩)).take k)).length < 2 ^ 64 := by
    intro k
    rw [List.take_replicate, entries_replicate, List.length_replicate]
    omega
  obtain ⟨hholds, -⟩ := LevelOp.run_holds 7 _ hentries
  rw [entries_replicate] at hholds ⊢
  have hload := hholds.loadLevels (by rw [List.length_replicate]; decide)
  have hregion : deserializeAddrIndexEntry 7 wrapEntry numberedHash = .ok ⟨1, 2, 3⟩ := rfl
  have hright : regions 7 (List.replicate 357913943 wrapEntry) numberedHash =
      .ok (List.replicate 357913943 ⟨1, 2, 3⟩, 0) := by
    have hmap := mapM_replicate (g := fun entry =>
      deserializeAddrIndexEntry 7 entry numberedHash) hregion 357913943
    rw [regions, hmap]
    rfl
  intro hsame
  rw [hright] at hsame
  obtain ⟨r, hr, hread⟩ := fetchAll_reads hload (by rw [List.length_replicate]; decide) hsame
    (show 357913942 < (List.replicate 357913943 wrapEntry).length by
      rw [List.length_replicate]; decide)
  have hoffset : (UInt32.ofNat 357913942 * UInt32.ofNat txEntrySize).toNat = 8 := by decide
  have hflat : (List.replicate 357913943 wrapEntry).flatten =
      wrapEntry ++ (wrapEntry ++ (List.replicate 357913941 wrapEntry).flatten) := by
    rw [show 357913943 = 357913941 + 1 + 1 from rfl, List.replicate_succ, List.replicate_succ,
      List.flatten_cons, List.flatten_cons]
  rw [hoffset, hflat, deserialize_shifted] at hread
  rw [List.eq_of_mem_replicate hr] at hread
  exact absurd hread (by decide)

end FalconDraw.Index
