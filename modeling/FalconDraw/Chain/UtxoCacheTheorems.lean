/-
FalconDraw.Chain.UtxoCacheTheorems — when the cache is a view of a plain map.

The flag that goes wrong is `tfFresh`: `addTxOut` sets it without looking at the
database, so that an output spent in the cache and added again before a flush
counts as fresh although its old record is still there.
-/
import FalconDraw.Chain.UtxoCache
import FalconDraw.Chain.SpendJournalTheorems

namespace FalconDraw.Chain

open Lib Wire Script Draw UtxoViewpoint

variable {keys : PubKeyLib} {s : UtxoCache} {utxos : UtxoSet} {op : OutPoint}
variable {db : Bucket OutPoint Bytes} {txIn : TxIn} {e : UtxoEntry}

/-! ## What is read -/

/-- The outcome of a read of one outpoint: the coin if it is there and unspent. -/
def UtxoCache.seen (keys : PubKeyLib) (s : UtxoCache) (op : OutPoint) :
    Except StoreError (Option Coin) :=
  match s.cachedEntries.get op with
  | some entry => .ok (coinOf entry)
  | none => (dbFetchUtxoEntry keys s.db op).map coinOf

/-- `fetchEntries` gives for every list of outpoints what the plain map has. -/
def UtxoCache.Faithful (keys : PubKeyLib) (s : UtxoCache) (utxos : UtxoSet) : Prop :=
  ∀ ops, ∃ entries s', s.fetchEntries keys ops = .ok (entries, s') ∧
    entries.map coinOf = ops.map utxos.get

theorem dbFetchUtxoEntry_plain
    (h : dbFetchUtxoEntry keys db op = .ok (some e)) : e = e.coin.entry := by
  unfold dbFetchUtxoEntry at h
  split at h
  · cases h
  · split at h
    · cases h
    · split at h
      · cases h
      case h_2 e' he =>
        obtain rfl : e' = e := by simpa using h
        unfold deserializeUtxoEntry at he
        dsimp only at he
        split at he
        · cases he
        · split at he
          · cases he
          · cases he
            rfl

theorem coinOf_entry (c : Coin) : coinOf (some c.entry) = some c := rfl

theorem coinOf_eq_some {c : Coin} : coinOf (some e) = some c ↔ e.isSpent = false ∧ e.coin = c := by
  simp [coinOf]

theorem seen_congr {s' : UtxoCache} (hc : s'.cachedEntries.get op = s.cachedEntries.get op)
    (hdb : s'.db = s.db) : s'.seen keys op = s.seen keys op := by
  simp only [UtxoCache.seen, hc, hdb]

theorem dbFetchUtxoEntry_ne_none {record : Bytes}
    (h : db.get op = some record) : dbFetchUtxoEntry keys db op ≠ .ok none := by
  grind [dbFetchUtxoEntry]

theorem fillEntries_map (cached : Bucket OutPoint (Option UtxoEntry))
    (f : OutPoint → Option UtxoEntry) (ops : List OutPoint) :
    UtxoCache.fillEntries cached ops
        ((ops.filter fun op => (cached.get op).isNone).map f) =
      ops.map fun op => (cached.get op).getD (f op) := by
  induction ops with
  | nil => rfl
  | cons op ops ih => grind [UtxoCache.fillEntries]

theorem fetchEntries_ok {f : OutPoint → Option UtxoEntry} {ops : List OutPoint}
    (hread : ∀ op ∈ ops.filter fun op => (s.cachedEntries.get op).isNone,
      dbFetchUtxoEntry keys s.db op = .ok (f op)) :
    ∃ s', s.fetchEntries keys ops =
      .ok (ops.map fun op => (s.cachedEntries.get op).getD (f op), s') := by
  rw [UtxoCache.fetchEntries]
  simp only [mapM_eq_ok hread, ← fillEntries_map]
  exact ⟨_, rfl⟩

theorem seen_eq_ok_iff {r : Option Coin} : s.seen keys op = .ok r ↔
    (∃ entry, s.cachedEntries.get op = some entry ∧ coinOf entry = r) ∨
    (s.cachedEntries.get op = none ∧
      ∃ entry, dbFetchUtxoEntry keys s.db op = .ok entry ∧ coinOf entry = r) := by
  unfold UtxoCache.seen
  cases hc : s.cachedEntries.get op with
  | some entry => simp
  | none =>
    cases hd : dbFetchUtxoEntry keys s.db op with
    | error e => simp [Except.map]
    | ok entry => simp [Except.map]

theorem faithful_iff_seen : s.Faithful keys utxos ↔ ∀ op, s.seen keys op = .ok (utxos.get op) := by
  constructor
  · intro h op
    obtain ⟨entries, s', hfetch, hmap⟩ := h [op]
    cases hc : s.cachedEntries.get op with
    | some entry =>
      simp [UtxoCache.fetchEntries, UtxoCache.fillEntries, hc] at hfetch
      obtain ⟨rfl, _⟩ := hfetch
      exact seen_eq_ok_iff.mpr (.inl ⟨entry, hc, by simpa using hmap⟩)
    | none =>
      cases hd : dbFetchUtxoEntry keys s.db op with
      | error e =>
        simp [UtxoCache.fetchEntries, hc, hd] at hfetch
      | ok entry =>
        simp [UtxoCache.fetchEntries, UtxoCache.fillEntries, hc, hd] at hfetch
        obtain ⟨rfl, _⟩ := hfetch
        exact seen_eq_ok_iff.mpr (.inr ⟨hc, entry, hd, by simpa using hmap⟩)
  · intro h ops
    -- what the database has for an outpoint the cache has no key for
    let f : OutPoint → Option UtxoEntry := fun op => (dbFetchUtxoEntry keys s.db op).toOption.join
    have hread : ∀ op ∈ ops.filter fun op => (s.cachedEntries.get op).isNone,
        dbFetchUtxoEntry keys s.db op = .ok (f op) := by
      intro op hop
      have hc : s.cachedEntries.get op = none := by simpa using (List.mem_filter.mp hop).2
      rcases seen_eq_ok_iff.mp (h op) with ⟨_, hsome, _⟩ | ⟨_, entry, hd, _⟩
      · rw [hc] at hsome
        cases hsome
      · simp [f, hd, Except.toOption]
    obtain ⟨s', hfetch⟩ := fetchEntries_ok hread
    refine ⟨_, s', hfetch, ?_⟩
    rw [List.map_map]
    refine List.map_congr_left fun op _ => ?_
    rcases seen_eq_ok_iff.mp (h op) with ⟨entry, hc, ho⟩ | ⟨hc, entry, hd, ho⟩
    · simp only [Function.comp, hc, Option.getD_some, ho]
    · simp [hc, f, hd, ho, Except.toOption]

/-! ## One operation -/

/-- The record of the entry gives the coin back. -/
def Survives (keys : PubKeyLib) (e : UtxoEntry) : Prop :=
  deserializeUtxoEntry keys (serializeUtxoEntry keys e) = .ok e.coin.entry

theorem survives_of_storable (h : Storable e.coin) (hspent : e.isSpent = false) : Survives keys e :=
  deserializeUtxoEntry_serialize h rfl hspent

/-- The cache reads as the plain map, and an unspent entry that a flush will not
write is in the database as it is. -/
structure CacheInv (keys : PubKeyLib) (s : UtxoCache) (utxos : UtxoSet) : Prop where
  seen : ∀ op, s.seen keys op = .ok (utxos.get op)
  stored : ∀ op e, s.cachedEntries.get op = some (some e) → e.isSpent = false →
    e.isModified = false → dbFetchUtxoEntry keys s.db op = .ok (some e.coin.entry)

theorem CacheInv.faithful (h : CacheInv keys s utxos) : s.Faithful keys utxos :=
  faithful_iff_seen.mpr h.seen

theorem CacheInv.addTxOut (h : CacheInv keys s utxos) (op : OutPoint) (out : TxOut)
    (isCoinBase : Bool) (height : Nat) :
    CacheInv keys (s.addTxOut op out isCoinBase height)
      (UtxoSet.addTxOut utxos op out isCoinBase height) := by
  unfold UtxoCache.addTxOut UtxoSet.addTxOut
  split
  · exact h
  · constructor
    · intro op'
      by_cases heq : op' = op
      · subst heq
        rw [Bucket.get_put_self]
        exact seen_eq_ok_iff.mpr (.inl ⟨_, Bucket.get_put_self _ _ _, rfl⟩)
      · rw [Bucket.get_put_of_ne _ _ heq, ← h.seen op']
        exact seen_congr (Bucket.get_put_of_ne _ _ heq) rfl
    · intro op' e he hspent hmod
      dsimp only at he
      rw [Bucket.get_put] at he
      split at he
      · obtain rfl : UtxoViewpoint.newEntry out isCoinBase height = e := by simpa using he
        cases hmod
      · exact h.stored op' e he hspent hmod

theorem addTxIn_cached (hc : s.cachedEntries.get txIn.previousOutPoint = some (some e)) :
    s.addTxIn keys txIn = .ok (if e.isFresh then
        { s with cachedEntries := s.cachedEntries.delete txIn.previousOutPoint }
      else { s with
        cachedEntries := s.cachedEntries.put txIn.previousOutPoint (some e.spend) }, e.coin) := by
  have hfetch : s.fetchEntries keys [txIn.previousOutPoint] = .ok ([some e], s) := by
    simp [UtxoCache.fetchEntries, UtxoCache.fillEntries, hc]
  simp only [UtxoCache.addTxIn, hfetch]
  cases hf : e.isFresh with
  | true => simp [hf]
  | false => simp [hf]

theorem addTxIn_loaded {c : Coin} (hc : s.cachedEntries.get txIn.previousOutPoint = none)
    (hd : dbFetchUtxoEntry keys s.db txIn.previousOutPoint = .ok (some c.entry)) :
    s.addTxIn keys txIn = .ok ({ s with
      cachedEntries := (s.cachedEntries.put txIn.previousOutPoint (some c.entry)).put
        txIn.previousOutPoint (some c.entry.spend) }, c) := by
  have hfetch : s.fetchEntries keys [txIn.previousOutPoint] = .ok ([some c.entry], { s with
      cachedEntries := s.cachedEntries.put txIn.previousOutPoint (some c.entry) }) := by
    simp [UtxoCache.fetchEntries, UtxoCache.fillEntries, hc, hd]
  simp only [UtxoCache.addTxIn, hfetch]
  rfl

theorem CacheInv.put_spent (h : CacheInv keys s utxos) (op : OutPoint)
    (hspent : e.isSpent = true) {cached : Bucket OutPoint (Option UtxoEntry)}
    (hcached : ∀ op', cached.get op' = if op' = op then some (some e) else s.cachedEntries.get op') :
    CacheInv keys { s with cachedEntries := cached } (utxos.delete op) := by
  constructor
  · intro op'
    by_cases heq : op' = op
    · subst heq
      have hget : cached.get op' = some (some e) := by rw [hcached, if_pos rfl]
      rw [Bucket.get_delete_self]
      exact seen_eq_ok_iff.mpr (.inl ⟨some e, hget, by simp [coinOf, hspent]⟩)
    · rw [Bucket.get_delete_of_ne _ heq, ← h.seen op']
      exact seen_congr (by rw [hcached, if_neg heq]) rfl
  · intro op' e' he hunspent hmod
    dsimp only at he
    rw [hcached] at he
    split at he
    · grind
    · exact h.stored op' e' he hunspent hmod

/-- Spending a coin the map has: the record is the coin, and the map without it
is what the cache reads, unless a fresh entry was dropped from over a record. -/
theorem CacheInv.addTxIn (h : CacheInv keys s utxos) {c : Coin}
    (hcoin : utxos.get txIn.previousOutPoint = some c)
    (hsafe : ∀ e, s.cachedEntries.get txIn.previousOutPoint = some (some e) → e.isFresh = true →
      s.db.get txIn.previousOutPoint = none) :
    ∃ s', s.addTxIn keys txIn = .ok (s', c) ∧
      CacheInv keys s' (utxos.delete txIn.previousOutPoint) := by
  have hseen := h.seen txIn.previousOutPoint
  rw [hcoin] at hseen
  rcases seen_eq_ok_iff.mp hseen with ⟨entry, hc, ho⟩ | ⟨hc, entry, hd, ho⟩
  · obtain _ | e := entry
    · cases ho
    obtain ⟨_, rfl⟩ := coinOf_eq_some.mp ho
    refine ⟨_, addTxIn_cached hc, ?_⟩
    split
    case isTrue hfresh =>
      have hnone := hsafe e hc hfresh
      constructor
      · intro op'
        by_cases heq : op' = txIn.previousOutPoint
        · subst heq
          rw [Bucket.get_delete_self]
          refine seen_eq_ok_iff.mpr (.inr ⟨Bucket.get_delete_self _ _, none, ?_, rfl⟩)
          simp only [dbFetchUtxoEntry, hnone]
        · rw [Bucket.get_delete_of_ne _ heq, ← h.seen op']
          exact seen_congr (Bucket.get_delete_of_ne _ heq) rfl
      · intro op' e' he hunspent hmod
        dsimp only at he
        rw [Bucket.get_delete] at he
        split at he
        · cases he
        · exact h.stored op' e' he hunspent hmod
    case isFalse _ =>
      exact h.put_spent _ e.spend_isSpent fun op' => Bucket.get_put _ _ _ _
  · obtain _ | e := entry
    · cases ho
    obtain hplain := dbFetchUtxoEntry_plain hd
    rw [hplain, coinOf_entry] at ho
    rw [hplain, Option.some.inj ho] at hd
    refine ⟨_, addTxIn_loaded hc hd, h.put_spent _ c.entry.spend_isSpent fun op' => ?_⟩
    rw [Bucket.get_put, Bucket.get_put]
    split
    · rfl
    · rfl

theorem not_faithful_of_addTxIn {record : Bytes}
    (hc : s.cachedEntries.get txIn.previousOutPoint = some (some e)) (hfresh : e.isFresh = true)
    (hdb : s.db.get txIn.previousOutPoint = some record) :
    ∀ s' c, s.addTxIn keys txIn = .ok (s', c) →
      ¬ s'.Faithful keys (utxos.delete txIn.previousOutPoint) := by
  intro s' c hrun hfaith
  rw [addTxIn_cached hc, if_pos hfresh] at hrun
  obtain ⟨rfl, _⟩ : _ = s' ∧ e.coin = c := by simpa using hrun
  have hseen := faithful_iff_seen.mp hfaith txIn.previousOutPoint
  rw [Bucket.get_delete_self] at hseen
  rcases seen_eq_ok_iff.mp hseen with ⟨entry, hget, _⟩ | ⟨_, entry, hd, ho⟩
  · simp at hget
  · obtain _ | e' := entry
    · exact dbFetchUtxoEntry_ne_none hdb hd
    · rw [dbFetchUtxoEntry_plain hd, coinOf_entry] at ho
      cases ho

theorem dbFetchUtxoEntry_written
    (hspent : e.isSpent = false) (hdb : db.get op = some (serializeUtxoEntry keys e)) (c : Coin) :
    dbFetchUtxoEntry keys db op = .ok (some c.entry) ↔
      deserializeUtxoEntry keys (serializeUtxoEntry keys e) = .ok c.entry := by
  have hne : serializeUtxoEntry keys e ≠ [] := by
    intro hnil
    have hlen := congrArg List.length hnil
    have hpos := serializeSizeVLQ_pos (utxoEntryHeaderCode e)
    rw [serializeUtxoEntry, hspent, if_neg (by decide), List.length_append, putVLQ_length,
      List.length_nil] at hlen
    omega
  simp only [dbFetchUtxoEntry, hdb, if_neg hne]
  cases deserializeUtxoEntry keys (serializeUtxoEntry keys e) with
  | error _ => simp
  | ok e' => simp

/-- Every entry a flush writes can be read back. -/
def WriteSafe (keys : PubKeyLib) (s : UtxoCache) : Prop :=
  ∀ op e, s.cachedEntries.get op = some (some e) → e.isSpent = false → e.isModified = true →
    Survives keys e

theorem CacheInv.writeCache (h : CacheInv keys s utxos) (hsafe : WriteSafe keys s)
    (bestHash : Hash) : CacheInv keys (s.writeCache keys bestHash) utxos := by
  constructor
  · intro op
    refine seen_eq_ok_iff.mpr (.inr ⟨rfl, ?_⟩)
    have hread := seen_eq_ok_iff.mp (h.seen op)
    have hdb : (s.writeCache keys bestHash).db.get op =
        UtxoCache.writeEntry keys (s.cachedEntries.get op) (s.db.get op) := rfl
    rcases hread with ⟨entry, hc, ho⟩ | ⟨hc, entry, hd, ho⟩
    · obtain _ | e := entry
      · exact ⟨none, by simp [dbFetchUtxoEntry, hdb, hc, UtxoCache.writeEntry], ho⟩
      cases hspent : e.isSpent with
      | true => grind [dbFetchUtxoEntry, UtxoCache.writeEntry, coinOf]
      | false =>
        have hcoin : coinOf (some e.coin.entry) = utxos.get op := by
          simpa [coinOf, hspent] using ho
        refine ⟨some e.coin.entry, ?_, hcoin⟩
        cases hmod : e.isModified with
        | false =>
          have hsame : (s.writeCache keys bestHash).db.get op = s.db.get op := by
            simp [hdb, hc, UtxoCache.writeEntry, hspent, hmod]
          rw [dbFetchUtxoEntry, hsame, ← dbFetchUtxoEntry]
          exact h.stored op e hc hspent hmod
        | true =>
          refine (dbFetchUtxoEntry_written hspent ?_ e.coin).mpr (hsafe op e hc hspent hmod)
          simp [hdb, hc, UtxoCache.writeEntry, hspent, hmod]
    · grind [UtxoCache.writeEntry, dbFetchUtxoEntry]
  · intro op e he
    cases he

theorem not_faithful_of_writeCache (hfaith : s.Faithful keys utxos) (hbroken : ¬ WriteSafe keys s)
    (bestHash : Hash) : ¬ (s.writeCache keys bestHash).Faithful keys utxos := by
  intro hafter
  refine hbroken fun op e hc hspent hmod => ?_
  have hbefore : coinOf (some e) = utxos.get op := by
    have := faithful_iff_seen.mp hfaith op
    simpa [UtxoCache.seen, hc] using this
  rcases seen_eq_ok_iff.mp (faithful_iff_seen.mp hafter op) with ⟨_, hget, _⟩ | ⟨_, entry, hd, ho⟩
  · cases hget
  · rw [← hbefore, coinOf, if_neg (by simp [hspent])] at ho
    obtain _ | e' := entry
    · cases ho
    have hplain := dbFetchUtxoEntry_plain hd
    rw [hplain, coinOf_entry] at ho
    rw [hplain, Option.some.inj ho] at hd
    refine (dbFetchUtxoEntry_written hspent ?_ e.coin).mp hd
    show UtxoCache.writeEntry keys (s.cachedEntries.get op) (s.db.get op) = _
    simp [hc, UtxoCache.writeEntry, hspent, hmod]

/-! ## Sequences of operations -/

/-- The operations, a flush with the circumstances that decide whether it is due. -/
inductive CacheOp where
  | addTxOut (op : OutPoint) (out : TxOut) (isCoinBase : Bool) (height : Nat)
  | addTxIn (txIn : TxIn)
  | flush (mode : FlushMode) (bestHash : Hash) (usage : Nat) (overdue : Bool)

namespace CacheOp

def run (keys : PubKeyLib) (s : UtxoCache) : CacheOp → Except StoreError UtxoCache
  | addTxOut op out isCoinBase height => .ok (s.addTxOut op out isCoinBase height)
  | addTxIn txIn => (s.addTxIn keys txIn).map Prod.fst
  | flush mode bestHash usage overdue => .ok (s.flush keys mode bestHash usage overdue)

def apply (utxos : UtxoSet) : CacheOp → UtxoSet
  | addTxOut op out isCoinBase height => UtxoSet.addTxOut utxos op out isCoinBase height
  | addTxIn txIn => utxos.delete txIn.previousOutPoint
  | flush .. => utxos

/-- An output is added where there is no coin, an input spends a coin. -/
def Allowed (utxos : UtxoSet) : CacheOp → Prop
  | addTxOut op .. => utxos.get op = none
  | addTxIn txIn => utxos.get txIn.previousOutPoint ≠ none
  | flush .. => True

instance (utxos : UtxoSet) : (o : CacheOp) → Decidable (o.Allowed utxos)
  | addTxOut op _ _ _ => inferInstanceAs (Decidable (utxos.get op = none))
  | addTxIn txIn => inferInstanceAs (Decidable (utxos.get txIn.previousOutPoint ≠ none))
  | flush _ _ _ _ => inferInstanceAs (Decidable True)

/-- An input does not spend a fresh entry for which the database has a record,
and a flush that is due writes only records that can be read back. -/
def Safe (keys : PubKeyLib) (s : UtxoCache) : CacheOp → Prop
  | addTxOut .. => True
  | addTxIn txIn => ∀ e, s.cachedEntries.get txIn.previousOutPoint = some (some e) →
      e.isFresh = true → s.db.get txIn.previousOutPoint = none
  | flush mode bestHash usage overdue =>
      s.flushDue mode bestHash usage overdue = true → WriteSafe keys s

end CacheOp

def AllowedRun : UtxoSet → List CacheOp → Prop
  | _, [] => True
  | utxos, o :: os => o.Allowed utxos ∧ AllowedRun (o.apply utxos) os

instance decidableAllowedRun : (utxos : UtxoSet) → (os : List CacheOp) →
    Decidable (AllowedRun utxos os)
  | _, [] => inferInstanceAs (Decidable True)
  | utxos, o :: os =>
      have := decidableAllowedRun (o.apply utxos) os
      inferInstanceAs (Decidable (o.Allowed utxos ∧ AllowedRun (o.apply utxos) os))

/-- Every operation is safe in the state it meets. -/
def SafeRun (keys : PubKeyLib) : UtxoCache → List CacheOp → Prop
  | _, [] => True
  | s, o :: os => o.Safe keys s ∧ ∀ s', o.run keys s = .ok s' → SafeRun keys s' os

/-- No operation fails, and before and after each of them the cache reads as the
plain map. -/
def FaithfulRun (keys : PubKeyLib) : UtxoCache → UtxoSet → List CacheOp → Prop
  | s, utxos, [] => s.Faithful keys utxos
  | s, utxos, o :: os => s.Faithful keys utxos ∧
      ∃ s', o.run keys s = .ok s' ∧ FaithfulRun keys s' (o.apply utxos) os

theorem FaithfulRun.first {os : List CacheOp} (h : FaithfulRun keys s utxos os) :
    s.Faithful keys utxos := by
  cases os with
  | nil => exact h
  | cons o os => exact h.1

theorem CacheInv.step (h : CacheInv keys s utxos) {o : CacheOp} (hallowed : o.Allowed utxos)
    (hsafe : o.Safe keys s) : ∃ s', o.run keys s = .ok s' ∧ CacheInv keys s' (o.apply utxos) := by
  cases o with
  | addTxOut op out isCoinBase height => exact ⟨_, rfl, h.addTxOut op out isCoinBase height⟩
  | addTxIn txIn =>
    obtain ⟨c, hcoin⟩ := Option.ne_none_iff_exists'.mp hallowed
    obtain ⟨s', hrun, hinv⟩ := h.addTxIn hcoin hsafe
    exact ⟨s', by simp [CacheOp.run, hrun, Except.map], hinv⟩
  | flush mode bestHash usage overdue =>
    refine ⟨_, rfl, ?_⟩
    unfold UtxoCache.flush
    split
    case isTrue hdue => exact h.writeCache (hsafe hdue) bestHash
    case isFalse _ => exact h

theorem not_faithful_of_unsafe (hfaith : s.Faithful keys utxos) {o : CacheOp}
    (hbroken : ¬ o.Safe keys s) {s' : UtxoCache} (hrun : o.run keys s = .ok s') :
    ¬ s'.Faithful keys (o.apply utxos) := by
  cases o with
  | addTxOut => exact absurd trivial hbroken
  | addTxIn txIn =>
    simp only [CacheOp.Safe, not_forall] at hbroken
    obtain ⟨e, hc, hfresh, hdb⟩ := hbroken
    obtain ⟨record, hrecord⟩ := Option.ne_none_iff_exists'.mp hdb
    simp only [CacheOp.run, addTxIn_cached hc, Except.map] at hrun
    obtain rfl := Except.ok.inj hrun
    exact not_faithful_of_addTxIn hc hfresh hrecord _ _ (addTxIn_cached hc)
  | flush mode bestHash usage overdue =>
    simp only [CacheOp.Safe, Classical.not_imp] at hbroken
    obtain ⟨hdue, hwrite⟩ := hbroken
    obtain rfl : s.flush keys mode bestHash usage overdue = s' := Except.ok.inj hrun
    rw [UtxoCache.flush, if_pos hdue]
    exact not_faithful_of_writeCache hfaith hwrite bestHash

theorem faithfulRun_iff : ∀ {os : List CacheOp} {s : UtxoCache} {utxos : UtxoSet},
    CacheInv keys s utxos → AllowedRun utxos os → (FaithfulRun keys s utxos os ↔ SafeRun keys s os)
  | [], s, utxos, hinv, _ => by
      constructor
      · exact fun _ => trivial
      · exact fun _ => hinv.faithful
  | o :: os, s, utxos, hinv, hallowed => by
      constructor
      · rintro ⟨hfaith, s', hrun, hrest⟩
        have hsafe : o.Safe keys s := by
          by_contra hbroken
          exact not_faithful_of_unsafe hfaith hbroken hrun hrest.first
        refine ⟨hsafe, fun s'' hrun'' => ?_⟩
        obtain ⟨t, ht, hinv'⟩ := hinv.step hallowed.1 hsafe
        obtain rfl : t = s'' := Except.ok.inj (ht.symm.trans hrun'')
        obtain rfl : t = s' := Except.ok.inj (ht.symm.trans hrun)
        exact (faithfulRun_iff hinv' hallowed.2).mp hrest
      · rintro ⟨hsafe, hrest⟩
        obtain ⟨s', hrun, hinv'⟩ := hinv.step hallowed.1 hsafe
        exact ⟨hinv.faithful, s', hrun, (faithfulRun_iff hinv' hallowed.2).mpr (hrest s' hrun)⟩

def dbCoins (keys : PubKeyLib) (db : Bucket OutPoint Bytes) : UtxoSet := fun op =>
  match dbFetchUtxoEntry keys db op with
  | .ok entry => coinOf entry
  | .error _ => none

theorem CacheInv.new
    (hdb : ∀ op, ∃ entry, dbFetchUtxoEntry keys db op = .ok entry) (maxTotalMemoryUsage : Nat) :
    CacheInv keys (newUtxoCache db maxTotalMemoryUsage) (dbCoins keys db) := by
  constructor
  · intro op
    obtain ⟨entry, hentry⟩ := hdb op
    refine seen_eq_ok_iff.mpr (.inr ⟨rfl, entry, hentry, ?_⟩)
    show coinOf entry = dbCoins keys db op
    simp only [dbCoins, hentry]
  · intro op e he
    cases he

/-- Over a database whose records can all be read, the cache is a view of the
plain map through a sequence of operations if and only if every operation is
safe in the state it meets. -/
theorem cache_faithful_iff (keys : PubKeyLib) (db : Bucket OutPoint Bytes)
    (hdb : ∀ op, ∃ entry, dbFetchUtxoEntry keys db op = .ok entry) (maxTotalMemoryUsage : Nat)
    (os : List CacheOp) (hallowed : AllowedRun (dbCoins keys db) os) :
    FaithfulRun keys (newUtxoCache db maxTotalMemoryUsage) (dbCoins keys db) os ↔
      SafeRun keys (newUtxoCache db maxTotalMemoryUsage) os :=
  faithfulRun_iff (CacheInv.new hdb maxTotalMemoryUsage) hallowed

def oneCoinDb : Bucket OutPoint Bytes :=
  Bucket.empty.put ⟨77, 0⟩ (serializeUtxoEntry noKeys walletCoin.entry)

theorem oneCoinDb_coin :
    dbFetchUtxoEntry noKeys oneCoinDb ⟨77, 0⟩ = .ok (some walletCoin.entry) := by
  have hcoin : Storable walletCoin := ⟨by decide, by decide, by decide, by decide⟩
  exact (dbFetchUtxoEntry_written rfl (Bucket.get_put_self _ _ _) walletCoin).mpr
    (deserializeUtxoEntry_serialize hcoin rfl rfl)

theorem oneCoinDb_readable : ∀ op, ∃ entry, dbFetchUtxoEntry noKeys oneCoinDb op = .ok entry := by
  intro op
  by_cases heq : op = ⟨77, 0⟩
  · subst heq
    exact ⟨_, oneCoinDb_coin⟩
  · refine ⟨none, ?_⟩
    have hget : oneCoinDb.get op = none := Bucket.get_put_of_ne _ _ heq
    simp only [dbFetchUtxoEntry, hget]

/-- The coin is spent, another one is added and written to the database, and
spent from there. -/
def flushedOps : List CacheOp :=
  [.addTxIn { previousOutPoint := ⟨77, 0⟩ }, .addTxOut ⟨78, 0⟩ ⟨5, [0x51]⟩ false 3,
    .flush .required 1 0 false, .addTxIn { previousOutPoint := ⟨78, 0⟩ }]

theorem flushed_ops_faithful : AllowedRun (dbCoins noKeys oneCoinDb) flushedOps ∧
      FaithfulRun noKeys (newUtxoCache oneCoinDb 0) (dbCoins noKeys oneCoinDb) flushedOps := by
  have hallowed : AllowedRun (dbCoins noKeys oneCoinDb) flushedOps := by decide +kernel
  refine ⟨hallowed, (cache_faithful_iff noKeys oneCoinDb oneCoinDb_readable 0 flushedOps
    hallowed).mpr ⟨fun e he => (by cases he), fun s₁ h₁ => ⟨trivial, fun s₂ h₂ => ⟨?_, ?_⟩⟩⟩⟩
  · -- the flush writes the new coin and deletes the record of the spent one
    intro _ op e hc hspent _
    have hspend : (newUtxoCache oneCoinDb 0).addTxIn noKeys { previousOutPoint := ⟨77, 0⟩ } = _ :=
      addTxIn_loaded rfl oneCoinDb_coin
    rw [CacheOp.run, hspend] at h₁
    obtain rfl := Except.ok.inj h₁
    obtain rfl := Except.ok.inj h₂
    rw [UtxoCache.addTxOut, if_neg (by decide), Bucket.get_put] at hc
    split at hc
    · obtain rfl : UtxoViewpoint.newEntry ⟨5, [0x51]⟩ false 3 = e := by simpa using hc
      exact survives_of_storable ⟨by decide, by decide, by decide, by decide⟩ rfl
    · rw [Bucket.get_put] at hc
      split at hc
      · obtain rfl : walletCoin.entry.spend = e := by simpa using hc
        cases hspent
      · rw [Bucket.get_put_of_ne _ _ (by assumption)] at hc
        cases hc
  · intro s₃ h₃
    obtain rfl := Except.ok.inj h₃
    exact ⟨fun e he => (by cases he), fun _ _ => trivial⟩

/-- The coin is spent, its outpoint gets a new one (a transaction with the same
id) and that one is spent as well, with no flush in between. -/
def respentOps : List CacheOp :=
  [.addTxIn { previousOutPoint := ⟨77, 0⟩ }, .addTxOut ⟨77, 0⟩ ⟨5, [0x51]⟩ false 3,
    .addTxIn { previousOutPoint := ⟨77, 0⟩ }]

/-- The map has no coin any more, the cache reads the old one. -/
theorem respent_coin_is_back : AllowedRun (dbCoins noKeys oneCoinDb) respentOps ∧
      (respentOps.foldl CacheOp.apply (dbCoins noKeys oneCoinDb)).get ⟨77, 0⟩ = none ∧
      ∃ s entries s', respentOps.foldlM (CacheOp.run noKeys) (newUtxoCache oneCoinDb 0) = .ok s ∧
        s.fetchEntries noKeys [⟨77, 0⟩] = .ok (entries, s') ∧
        entries.map coinOf = [some walletCoin] := by
  simp only [exists_and_left]
  decide +kernel

end FalconDraw.Chain
