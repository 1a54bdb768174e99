/-
FalconDraw.Chain.FailedConnectTheorems — what a block that could not be
connected leaves behind.

The cache takes the block's transactions before the database transaction is
opened, and nothing takes them out again when that fails.
-/
import FalconDraw.Chain.CoinStore
import FalconDraw.Chain.UtxoCacheTheorems
import FalconDraw.Chain.ChainTreeTheorems

namespace FalconDraw.Chain

open Lib Wire Script Draw UtxoViewpoint

variable {keys : PubKeyLib}

/-! ## Reading does not change what is read -/

section Loading

variable {s : UtxoCache} {op : OutPoint}

theorem loadEntry_eq (s : UtxoCache) (op : OutPoint) :
    s.loadEntry keys op = match s.cachedEntries.get op, dbFetchUtxoEntry keys s.db op with
      | none, .ok entry => { s with cachedEntries := s.cachedEntries.put op entry }
      | _, _ => s := by
  unfold UtxoCache.loadEntry UtxoCache.fetchEntries
  cases hc : s.cachedEntries.get op with
  | some entry =>
    simp [hc]
    rfl
  | none =>
    cases hd : dbFetchUtxoEntry keys s.db op with
    | error e => simp [hc, hd, Bind.bind, Except.bind]
    | ok entry => simp [hc, hd]

@[simp] theorem loadEntry_db (s : UtxoCache) (op : OutPoint) : (s.loadEntry keys op).db = s.db := by
  rw [loadEntry_eq]
  split <;> rfl

theorem seen_loadEntry (s : UtxoCache) (op op' : OutPoint) :
    (s.loadEntry keys op).seen keys op' = s.seen keys op' := by
  rw [loadEntry_eq]
  split
  case h_1 entry hc hd =>
    by_cases heq : op' = op
    · subst heq
      simp [UtxoCache.seen, hc, hd, Except.map]
    · exact seen_congr (Bucket.get_put_of_ne _ _ heq) rfl
  case h_2 => rfl

@[simp] theorem load_db (ops : List OutPoint) : ∀ s : UtxoCache, (s.load keys ops).db = s.db := by
  induction ops with
  | nil => exact fun _ => rfl
  | cons op ops ih => exact fun s => (ih _).trans (loadEntry_db s op)

theorem seen_load (op' : OutPoint) (ops : List OutPoint) :
    ∀ s : UtxoCache, (s.load keys ops).seen keys op' = s.seen keys op' := by
  induction ops with
  | nil => exact fun _ => rfl
  | cons op ops ih => exact fun s => (ih _).trans (seen_loadEntry s op op')

end Loading

/-! ## The bucket while the cache takes a block -/

section Database

variable {s s' : UtxoCache}

theorem addTxIn_db {txIn : TxIn} {c : Coin} (h : s.addTxIn keys txIn = .ok (s', c)) :
    s'.db = s.db := by
  grind [UtxoCache.addTxIn, UtxoCache.fetchEntries, bind_eq_ok, pure_eq_ok]

theorem spendInputs_db (keys : PubKeyLib) (ts : List TxIn) : ∀ s : UtxoCache, (s.spendInputs keys ts).1.db = s.db := by
  induction ts with
  | nil => exact fun _ => rfl
  | cons t ts ih =>
    intro s
    rw [UtxoCache.spendInputs]
    split
    · exact ih s
    · split
      · exact loadEntry_db s _
      case h_2 s' stxo hin => exact (ih s').trans (addTxIn_db hin)

theorem addTxOutsFrom_db (hash : Hash) (isCoinBase : Bool) (height : Nat) (outs : List TxOut) :
    ∀ (s : UtxoCache) (idx : Nat), (s.addTxOutsFrom hash isCoinBase height idx outs).db = s.db := by
  induction outs with
  | nil => exact fun _ _ => rfl
  | cons out outs ih => grind [UtxoCache.addTxOutsFrom, UtxoCache.addTxOut]

theorem connectTransaction_db (keys : PubKeyLib) (s : UtxoCache) (tx : Tx) (height : Nat) :
    (s.connectTransaction keys tx height).1.db = s.db := by
  have hins : (s.addTxIns keys tx).1.db = s.db := by
    unfold UtxoCache.addTxIns
    split
    · rfl
    · split
      · rfl
      · exact spendInputs_db keys _ s
  unfold UtxoCache.connectTransaction
  split
  case h_1 hadd => rwa [hadd] at hins
  case h_2 hadd =>
    rw [hadd] at hins
    exact (addTxOutsFrom_db ..).trans hins

theorem connectTransactions_db (keys : PubKeyLib) (height : Nat) (txs : List Tx) :
    ∀ s : UtxoCache, (s.connectTransactions keys height txs).1.db = s.db := by
  induction txs with
  | nil => exact fun _ => rfl
  | cons tx txs ih =>
    intro s
    have htx := connectTransaction_db keys s tx height
    rw [UtxoCache.connectTransactions]
    split
    case h_1 hconn => rwa [hconn] at htx
    case h_2 hconn =>
      rw [hconn] at htx
      exact (ih _).trans htx

end Database

/-! ## The points of failure -/

namespace CoinStore

variable {env : ConnectEnv} {s s' : CoinStore} {node : BlockNode} {block : Block}
variable {stxos : List SpentTxOut} {e : CoinError}

theorem update_error {step : DbStep} {fails : Bool} {r : CoinStore × Except CoinError Unit}
    (h : s.update step fails r = (s', .error e)) : s' = s.rollback r.1 := by
  obtain ⟨t, _ | _⟩ := r
  · exact (Prod.mk.inj h).1.symm
  · unfold update at h
    dsimp only at h
    split at h
    · exact (Prod.mk.inj h).1.symm
    · cases h

theorem update_ok {step : DbStep} {fails : Bool} {r : CoinStore × Except CoinError Unit}
    (h : s.update step fails r = (s', .ok ())) : fails = false ∧ r = (s', .ok ()) := by
  obtain ⟨t, _ | _⟩ := r
  · cases h
  · grind [update]

theorem firstFault_ok {failsAt : DbStep → Bool} {steps : List DbStep} :
    firstFault failsAt steps = .ok () ↔ steps.any failsAt = false := by
  grind [firstFault]

def prunesAndFlushes (env : ConnectEnv) (s : CoinStore) (block : Block)
    (stxos : List SpentTxOut) : Bool :=
  block.header.prevBlock = s.tip.hash && stxos.length = countSpentOutputs block &&
    !([DbStep.warnings, .indexFlush].any env.failsAt) &&
    !([DbStep.pruneBlocks, .pruneJournal].any env.failsAt) &&
    !env.deleted.isEmpty && s.flushNeededAfterPrune env.deleted

def flushDrops (env : ConnectEnv) : OutPoint → Bool :=
  env.pruneFlush.getD fun _ => true

theorem connectTx_cache (keys : PubKeyLib) (env : ConnectEnv) (s : CoinStore) (node : BlockNode)
    (block : Block) (stxos : List SpentTxOut) (op : OutPoint) :
    (s.connectTx keys env node block stxos).1.cache.cachedEntries.get op =
      if (!([DbStep.pruneBlocks, .pruneJournal].any env.failsAt) &&
          !env.deleted.isEmpty && s.flushNeededAfterPrune env.deleted) && flushDrops env op
        then none else s.cache.cachedEntries.get op := by
  unfold connectTx
  cases hprune : firstFault env.failsAt [.pruneBlocks, .pruneJournal] with
  | error e =>
    have hany : [DbStep.pruneBlocks, .pruneJournal].any env.failsAt = true := by
      by_contra hno
      rw [firstFault_ok.mpr (Bool.not_eq_true _ ▸ hno)] at hprune
      cases hprune
    rw [hany]
    rfl
  | ok u =>
    rw [firstFault_ok.mp hprune]
    have hneeded : (s.prune env.deleted).flushNeededAfterPrune env.deleted =
        s.flushNeededAfterPrune env.deleted := rfl
    simp only [hneeded, Bool.not_false, Bool.true_and]
    cases hdue : !env.deleted.isEmpty && s.flushNeededAfterPrune env.deleted with
    | false =>
      simp only [Bool.false_eq_true, if_false, Bool.false_and]
      split <;> rfl
    | true =>
      simp only [if_true, Bool.true_and, flushTx, UtxoCache.flushDue, flushDrops]
      cases env.pruneFlush with
      | some gone => rfl
      | none =>
        dsimp only
        split <;> rfl

theorem connectBlock_error (h : s.connectBlock keys env node block stxos = (s', .error e)) :
    s'.tip = s.tip ∧ s'.cache.db = s.cache.db ∧ ∀ op, s'.cache.cachedEntries.get op =
        if prunesAndFlushes env s block stxos && flushDrops env op then none
        else s.cache.cachedEntries.get op := by
  unfold connectBlock at h
  unfold prunesAndFlushes
  split at h
  case isTrue hprev =>
    obtain ⟨rfl, _⟩ := Prod.mk.inj h
    exact ⟨rfl, rfl, fun op => by simp [hprev]⟩
  case isFalse hprev =>
    split at h
    case isTrue hcount =>
      obtain ⟨rfl, _⟩ := Prod.mk.inj h
      exact ⟨rfl, rfl, fun op => by simp [hcount]⟩
    case isFalse hcount =>
      cases hfirst : firstFault env.failsAt [.warnings, .indexFlush] with
      | error e' =>
        have hany : [DbStep.warnings, .indexFlush].any env.failsAt = true := by
          by_contra hno
          rw [firstFault_ok.mpr (Bool.not_eq_true _ ▸ hno)] at hfirst
          cases hfirst
        rw [hfirst] at h
        obtain ⟨rfl, _⟩ := Prod.mk.inj h
        exact ⟨rfl, rfl, fun op => by simp [hany]⟩
      | ok u =>
        rw [hfirst] at h
        obtain rfl := update_error h
        refine ⟨rfl, rfl, fun op => ?_⟩
        rw [firstFault_ok.mp hfirst, decide_eq_true (not_not.mp hprev),
          decide_eq_true (not_not.mp hcount)]
        exact connectTx_cache keys env s node block stxos op

theorem connectTx_ok (h : s.connectTx keys env node block stxos = (s', .ok ())) :
    s'.tip = node := by
  grind [connectTx]

theorem connectBlock_ok (h : s.connectBlock keys env node block stxos = (s', .ok ())) :
    s'.tip = node := by
  unfold connectBlock at h
  split at h
  · cases h
  · split at h
    · cases h
    · split at h
      · cases h
      · exact connectTx_ok (update_ok h).2

/-! ## What the call leaves alone -/

/-- The tip is the same and every outpoint is read as before. -/
structure Untouched (keys : PubKeyLib) (s s' : CoinStore) : Prop where
  tip : s'.tip = s.tip
  coins : ∀ op, s'.cache.seen keys op = s.cache.seen keys op

/-- What the cache has made of the block's transactions, and their spent outputs
if none is missing. -/
def taken (keys : PubKeyLib) (env : ConnectEnv) (s : CoinStore) (block : Block) :
    UtxoCache × Except StoreError (List SpentTxOut) :=
  (s.cache.load keys env.reads).connectTransactions keys block.height block.transactions

def dropped (keys : PubKeyLib) (env : ConnectEnv) (s : CoinStore) (block : Block) (op : OutPoint) :
    Bool :=
  match s.taken keys env block with
  | (_, .error _) => false
  | (cache, .ok stxos) =>
      prunesAndFlushes env { s with cache := cache } block stxos && flushDrops env op

/-- The block becomes the tip: the first transaction commits. -/
def Commits (keys : PubKeyLib) (env : ConnectEnv) (s : CoinStore) (node : BlockNode)
    (block : Block) : Prop :=
  (s.extendTip keys env node block).2 = .ok ()

/-- At this outpoint the failed call is not noticed: the bucket has what was read
before if the entry was dropped, and otherwise the transactions have not changed
what is read. -/
def Unnoticed (keys : PubKeyLib) (env : ConnectEnv) (s : CoinStore) (block : Block)
    (op : OutPoint) : Prop :=
  if s.dropped keys env block op then
    (dbFetchUtxoEntry keys s.cache.db op).map coinOf = s.cache.seen keys op
  else (s.taken keys env block).1.seen keys op = s.cache.seen keys op

theorem extendTip_error (hverdict : env.verdict = none)
    (h : s.extendTip keys env node block = (s', .error e)) :
    s'.tip = s.tip ∧ ∀ op, s'.cache.seen keys op =
      if s.dropped keys env block op then (dbFetchUtxoEntry keys s.cache.db op).map coinOf
      else (s.taken keys env block).1.seen keys op := by
  have hdb : (s.taken keys env block).1.db = s.cache.db :=
    (connectTransactions_db ..).trans (load_db ..)
  simp only [extendTip, hverdict] at h
  rw [← taken] at h
  unfold dropped
  rcases htaken : s.taken keys env block with ⟨cache, e' | stxos⟩
  · grind
  · rw [htaken] at h hdb
    obtain ⟨htip, hsame, hcached⟩ := connectBlock_error h
    refine ⟨htip, fun op => ?_⟩
    dsimp only
    split
    case isTrue hgone => grind [UtxoCache.seen]
    case isFalse hgone => exact seen_congr ((hcached op).trans (if_neg hgone)) hsame

theorem extendTip_tip (h : s.extendTip keys env node block = (s', .ok ())) : s'.tip = node := by
  unfold extendTip at h
  dsimp only at h
  split at h
  · cases h
  · split at h
    · cases h
    · exact connectBlock_ok h

theorem flushUtxoCache_tip {fate : FlushFate} {fails : Bool} {mode : FlushMode} {usage : Nat}
    {overdue : Bool} {r : Except CoinError Unit}
    (h : s.flushUtxoCache keys fate fails mode usage overdue = (s', r)) : s'.tip = s.tip := by
  cases r with
  | error e =>
    obtain rfl := update_error h
    rfl
  | ok u =>
    obtain ⟨_, hflush⟩ := update_ok h
    unfold flushTx at hflush
    split at hflush
    · grind
    · obtain ⟨rfl, _⟩ := Prod.mk.inj hflush
      rfl

def oneCoinStore : CoinStore :=
  { cache := newUtxoCache oneCoinDb 0
    view := .new (regularNode 2).hash
    tip := regularNode 2
    marker := some (regularNode 2).hash
    index := Bucket.empty.put (regularNode 2).hash (regularNode 2)
    blocks := Bucket.empty
    pruned := fun _ => false
    journal := Bucket.empty }

def rejecting : ConnectEnv :=
  { verdict := some (.rule .scriptValidation "failed to validate input"), reads := [⟨77, 0⟩] }

end CoinStore

end FalconDraw.Chain
