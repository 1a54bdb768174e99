/-
FalconDraw.Mempool.ReplacementTheorems — a replacement pays for what it evicts.

The conflicts of a transaction are the transactions of the pool that spend one of
its inputs, and everything that descends from them (`mem_txConflicts`).
-/
import FalconDraw.Mempool.BookkeepingTheorems
import FalconDraw.Mining.WellFormedTheorems

namespace FalconDraw.Mempool

open Lib Wire Draw Chain Mining List

variable {cfg : Config} {chain : ChainState} {mp mp' : TxPool} {tx : Tx}
variable {txFee : Int64} {conflicts : Keyed Tx.hash} {d : TxDesc}

/-! ## Fees of the pool -/

/-- Each entry of the pool has a fee in range, and the rate that goes with it. -/
def Priced (mp : TxPool) : Prop :=
  ∀ d ∈ mp.pool, 0 ≤ d.fee.toInt ∧ d.fee.toInt ≤ maxSatoshi.toInt ∧
    d.feePerKB = d.fee * 1000 / getTxVirtualSize d.tx.msgTx

theorem Priced.new (now : Int) : Priced (TxPool.new now) :=
  fun d hd => absurd hd (Keyed.not_mem_empty d)

theorem Priced.add (hp : Priced mp) {fee : Int64} (h0 : 0 ≤ fee.toInt)
    (hmax : fee.toInt ≤ maxSatoshi.toInt) : Priced (mp.addTransaction tx fee).1 := by
  intro d hd
  rw [TxPool.addTransaction, countStake_pool] at hd
  rcases Keyed.mem_insert.mp hd with rfl | ⟨hd, _⟩
  · exact ⟨h0, hmax, rfl⟩
  · exact hp d hd

theorem Admissible.fee_range {isNew rateLimit free : Bool} {view : UtxoViewpoint}
    (h : Admissible cfg chain mp tx isNew rateLimit free txFee conflicts view) :
    0 ≤ txFee.toInt ∧ txFee.toInt ≤ maxSatoshi.toInt := by
  obtain ⟨h0, hmax, _⟩ := checkTransactionInputs_ok (saneTx_of_check h.sane) h.fee
  exact ⟨h0, hmax⟩

/-- The rate of an entry over the integers: the fee for a thousand virtual bytes. -/
def feeRate (d : TxDesc) : Int := (d.fee.toInt * 1000).tdiv (getTxVirtualSize d.tx.msgTx).toInt

theorem calcMinRequiredTxRelayFee_range (size minRelayTxFee : Int64) :
    0 ≤ (calcMinRequiredTxRelayFee size minRelayTxFee).toInt ∧
      (calcMinRequiredTxRelayFee size minRelayTxFee).toInt ≤ maxSatoshi.toInt := by
  unfold calcMinRequiredTxRelayFee
  dsimp only
  generalize (if size * minRelayTxFee / 1000 = 0 ∧ 0 < minRelayTxFee then minRelayTxFee
    else size * minRelayTxFee / 1000) = minFee
  split
  case isTrue =>
    rw [maxSatoshi_toInt]
    omega
  case isFalse hrange =>
    simp only [not_or, Int64.not_lt, Int64.le_iff_toInt_le, Int64.toInt_zero] at hrange
    exact hrange

theorem feePerKB_toInt {fee size : Int64} (h0 : 0 ≤ fee.toInt) (hmax : fee.toInt ≤ maxSatoshi.toInt) :
    (fee * 1000 / size).toInt = (fee.toInt * 1000).tdiv size.toInt := by
  have hbound := maxSatoshi_toInt
  have hthousand : (1000 : Int64).toInt = 1000 := rfl
  have hmul : (fee * 1000).toInt = fee.toInt * 1000 := by
    rw [Int64.toInt_mul, hthousand]
    exact Int.bmod_eq_of_le (by omega) (by omega)
  rw [Int64.toInt_div_of_ne_left, hmul]
  intro hmin
  rw [hmin] at hmul
  have : Int64.minValue.toInt = -2 ^ 63 := rfl
  omega

theorem Priced.feeRate (hp : Priced mp) (hd : d ∈ mp.pool) :
    d.feePerKB.toInt = Mempool.feeRate d := by
  obtain ⟨h0, hmax, hrate⟩ := hp d hd
  rw [hrate, feePerKB_toInt h0 hmax, Mempool.feeRate]

/-! ## Signalling -/

/-- One of its inputs asks for replacement. -/
def OptsIn (tx : Tx) : Prop := ∃ t ∈ tx.msgTx.txIn, t.sequence ≤ maxRBFSequence

/-- The transaction, or an ancestor of it in the pool, asks for replacement. -/
def Signals (mp : TxPool) (tx : Tx) : Prop :=
  ∃ a, Relation.ReflTransGen (fun x y => y ∈ mp.parents x) tx a ∧ OptsIn a

theorem signals_iff : Signals mp tx ↔ ∃ t ∈ tx.msgTx.txIn, t.sequence ≤ maxRBFSequence ∨
    ∃ d, mp.pool.find? t.previousOutPoint.hash = some d ∧ Signals mp d.tx := by
  constructor
  · rintro ⟨a, hreach, hopts⟩
    rcases Relation.ReflTransGen.cases_head hreach with rfl | ⟨p, hp, hrest⟩
    · obtain ⟨t, ht, hseq⟩ := hopts
      exact ⟨t, ht, Or.inl hseq⟩
    · obtain ⟨op, hop, hfind⟩ := mem_filterMap.mp hp
      obtain ⟨d, hd, rfl⟩ := Option.map_eq_some_iff.mp hfind
      obtain ⟨t, ht, rfl⟩ := mem_map.mp hop
      exact ⟨t, ht, Or.inr ⟨d, hd, a, hrest, hopts⟩⟩
  · rintro ⟨t, ht, hseq | ⟨d, hd, a, hreach, hopts⟩⟩
    · exact ⟨tx, .refl, t, ht, hseq⟩
    · refine ⟨a, .head (mem_filterMap.mpr ⟨_, mem_map_of_mem ht, ?_⟩) hreach, hopts⟩
      rw [hd, Option.map_some]

theorem signalsLoop_iff {signals : Tx → Option Bool}
    (hs : ∀ a b, signals a = some b → (b = true ↔ Signals mp a)) {ins : List TxIn} {b : Bool}
    (h : mp.signalsLoop signals ins = some b) :
    b = true ↔ ∃ t ∈ ins, t.sequence ≤ maxRBFSequence ∨
      ∃ d, mp.pool.find? t.previousOutPoint.hash = some d ∧ Signals mp d.tx := by
  induction ins with
  | nil =>
    obtain rfl := Option.some.inj h
    simp
  | cons t ins ih =>
    rw [TxPool.signalsLoop] at h
    split at h
    case isTrue hseq =>
      obtain rfl := Option.some.inj h
      simp [hseq]
    case isFalse hseq =>
      rw [exists_mem_cons_iff]
      cases hfind : mp.pool.find? t.previousOutPoint.hash with
      | none =>
        rw [hfind] at h
        simp [hseq, ih h]
      | some d =>
        rw [hfind] at h
        obtain ⟨c, hc, h⟩ := Option.bind_eq_some_iff.mp h
        have hd := hs d.tx c hc
        cases c with
        | true =>
          obtain rfl := Option.some.inj h
          simp [hd.mp rfl]
        | false =>
          have hnot : ¬ Signals mp d.tx := fun hsig => Bool.false_ne_true (hd.mpr hsig)
          simp [hseq, hnot, ih h]

theorem signalsFrom_iff {depth : Nat} {b : Bool} (h : mp.signalsFrom depth tx = some b) :
    b = true ↔ Signals mp tx := by
  induction depth generalizing tx b with
  | zero => cases h
  | succ depth ih =>
    rw [signals_iff]
    exact signalsLoop_iff (fun a b hb => ih hb) h

theorem signalsReplacement_iff {b : Bool} (h : mp.signalsReplacement tx = some b) :
    b = true ↔ Signals mp tx :=
  signalsFrom_iff h

/-! ## Conflicts -/

/-- Two transactions spend one output. -/
def Conflicts (tx other : Tx) : Prop := ∃ op ∈ spends tx, op ∈ spends other

/-- The second is in the pool and spends an output of the first. -/
def Redeems (mp : TxPool) (tx redeemer : Tx) : Prop :=
  (∃ d ∈ mp.pool, d.tx = redeemer) ∧ ∃ op ∈ outPoints tx, op ∈ spends redeemer

/-- What a replacement by this transaction evicts: direct conflicts and their descendants. -/
def Evicted (mp : TxPool) (tx other : Tx) : Prop :=
  ∃ c ∈ mp.pool, Conflicts tx c.tx ∧ Relation.ReflTransGen (Redeems mp) c.tx other

theorem Booked.mem_redeemers (hb : Booked mp) {r : Tx} : r ∈ mp.redeemers tx ↔ Redeems mp tx r := by
  rw [TxPool.redeemers, mem_filterMap, Redeems]
  constructor
  · rintro ⟨op, hop, hget⟩
    obtain ⟨d, hd, rfl, hspends⟩ := (hb.outpoints op r).mp hget
    exact ⟨⟨d, hd, rfl⟩, op, hop, hspends⟩
  · rintro ⟨⟨d, hd, rfl⟩, op, hop, hspends⟩
    exact ⟨op, hop, hb.get_of_mem hd hspends⟩

theorem Evicted.in_pool {other : Tx} (h : Evicted mp tx other) : ∃ d ∈ mp.pool, d.tx = other := by
  obtain ⟨c, hc, _, hreach⟩ := h
  rcases Relation.ReflTransGen.cases_tail hreach with heq | ⟨_, _, hlast⟩
  · exact ⟨c, hc, heq.symm⟩
  · exact hlast.1

theorem pool_tx_eq {a b : Tx} (ha : ∃ d ∈ mp.pool, d.tx = a) (hb : ∃ d ∈ mp.pool, d.tx = b)
    (hhash : a.hash = b.hash) : a = b := by
  grind [mp.pool.eq_of_key_eq]

theorem mem_conflicts_found (hb : Booked mp) {found : List Tx}
    (h : walkList mp.txDescendants ((spends tx).filterMap mp.outpoints.get) = some found) {c : Tx} :
    c ∈ found ↔ Evicted mp tx c := by
  have hstep : (fun x y => y ∈ mp.redeemers x) = Redeems mp := by
    funext x y
    exact propext hb.mem_redeemers
  rw [mem_walkList h]
  constructor
  · rintro ⟨a, ha, below, hbelow, hc⟩
    obtain ⟨op, hop, hget⟩ := mem_filterMap.mp ha
    obtain ⟨d, hd, rfl, hspends⟩ := (hb.outpoints op a).mp hget
    refine ⟨d, hd, ⟨op, hop, hspends⟩, ?_⟩
    rcases hc with rfl | hc
    · exact .refl
    · rw [← hstep]
      exact ((mem_walk hbelow).mp hc).to_reflTransGen
  · rintro ⟨d, hd, ⟨op, hop, hspends⟩, hreach⟩
    have hstart : d.tx ∈ (spends tx).filterMap mp.outpoints.get :=
      mem_filterMap.mpr ⟨op, hop, hb.get_of_mem hd hspends⟩
    obtain ⟨below, hbelow⟩ := walkList_walked h hstart
    refine ⟨d.tx, hstart, below, hbelow, ?_⟩
    rcases Relation.reflTransGen_iff_eq_or_transGen.mp hreach with rfl | hreach
    · exact Or.inl rfl
    · rw [← hstep] at hreach
      exact Or.inr ((mem_walk hbelow).mpr hreach)

theorem mem_txConflicts (hb : Booked mp)
    (h : mp.txConflicts tx = some conflicts) {c : Tx} : c ∈ conflicts ↔ Evicted mp tx c := by
  obtain ⟨found, hfound, rfl⟩ := Option.map_eq_some_iff.mp h
  rw [← mem_conflicts_found hb hfound]
  refine ⟨Keyed.mem_of_mem_ofList, fun hc => ?_⟩
  obtain ⟨w, hw, hhash⟩ : ∃ w ∈ (Keyed.ofList found : Keyed Tx.hash), w.hash = c.hash :=
    Keyed.exists_mem_ofList hc
  have hevicted : ∀ a ∈ found, Evicted mp tx a := fun a => (mem_conflicts_found hb hfound).mp
  rwa [← pool_tx_eq (hevicted w (Keyed.mem_of_mem_ofList hw)).in_pool (hevicted c hc).in_pool hhash]

theorem mem_hash_txConflicts (hb : Booked mp)
    (h : mp.txConflicts tx = some conflicts) (hd : d ∈ mp.pool) :
    d.tx.hash ∈ conflicts.entries.map Tx.hash ↔ Evicted mp tx d.tx := by
  rw [← mem_txConflicts hb h]
  constructor
  · intro hhash
    obtain ⟨c, hc, heq⟩ := mem_map.mp hhash
    rwa [← pool_tx_eq ((mem_txConflicts hb h).mp hc).in_pool ⟨d, hd, rfl⟩ heq]
  · exact mem_map_of_mem

/-! ## The fees of the conflicts -/

theorem sumConflictFees_ok {rate : Int64} {cs : List Tx} {acc total : Int64}
    (h : sumConflictFees mp tx rate acc cs = .ok total) :
    ∃ ds : List TxDesc, ds.map (fun d => d.tx.hash) = cs.map Tx.hash ∧
      (∀ d ∈ ds, d ∈ mp.pool ∧ d.feePerKB < rate) ∧
      total = (ds.map TxDesc.fee).foldl (· + ·) acc := by
  induction cs generalizing acc with
  | nil => exact ⟨[], rfl, by simp, (Except.ok.inj h).symm⟩
  | cons c cs ih =>
    rw [sumConflictFees] at h
    cases hfind : mp.pool.find? c.hash with
    | none =>
      rw [hfind] at h
      cases h
    | some d =>
      rw [hfind] at h
      simp only [bind_eq_ok, exists_unit, refuseIf_eq_ok, Int64.not_le] at h
      obtain ⟨hrate, hrest⟩ := h
      obtain ⟨ds, hds, hall, htotal⟩ := ih hrest
      obtain ⟨hd, hhash⟩ := Keyed.find?_eq_some.mp hfind
      refine ⟨d :: ds, by rw [map_cons, map_cons, hds, hhash], ?_, htotal⟩
      rintro e (_ | ⟨_, he⟩)
      · exact ⟨hd, hrate⟩
      · exact hall e he

theorem Priced.sum_fees (hp : Priced mp) {ds : List TxDesc} (hds : ∀ d ∈ ds, d ∈ mp.pool)
    (hfew : ds.length ≤ maxReplacementEvictions) :
    (sum64 (ds.map TxDesc.fee)).toInt = sumInt (ds.map TxDesc.fee) ∧
      0 ≤ sumInt (ds.map TxDesc.fee) ∧ sumInt (ds.map TxDesc.fee) ≤ 100 * maxSatoshi.toInt := by
  have hbound := maxSatoshi_toInt
  have hfee : ∀ x ∈ ds.map TxDesc.fee, 0 ≤ x.toInt ∧ x.toInt ≤ maxSatoshi.toInt := by
    intro x hx
    obtain ⟨d, hd, rfl⟩ := mem_map.mp hx
    exact ⟨(hp d (hds d hd)).1, (hp d (hds d hd)).2.1⟩
  have h0 : 0 ≤ sumInt (ds.map TxDesc.fee) := sumInt_nonneg fun x hx => (hfee x hx).1
  have hle : sumInt (ds.map TxDesc.fee) ≤ 100 * maxSatoshi.toInt := by
    have hcard := sum_le_card_nsmul ((ds.map TxDesc.fee).map Int64.toInt) maxSatoshi.toInt
      (fun y hy => by
        obtain ⟨x, hx, rfl⟩ := mem_map.mp hy
        exact (hfee x hx).2)
    rw [length_map, length_map, nsmul_eq_mul] at hcard
    refine le_trans hcard ?_
    rw [hbound]
    unfold maxReplacementEvictions at hfew
    omega
  exact ⟨toInt_sum64_of_fits (by omega) (by omega), h0, hle⟩

/-! ## A replacement -/

/-- What a replacement evicts, and what it pays. -/
structure PaysFor (cfg : Config) (mp mp' : TxPool) (txD : TxDesc) (removed : List TxDesc) :
    Prop where
  nodup : removed.Nodup
  gone : ∀ d, d ∈ removed ↔ d ∈ mp.pool ∧ d ∉ mp'.pool
  evicted : ∀ d, d ∈ removed ↔ d ∈ mp.pool ∧ Evicted mp txD.tx d.tx
  few : removed.length ≤ maxReplacementEvictions
  signals : ∀ c ∈ mp.pool, Conflicts txD.tx c.tx → Signals mp c.tx
  fee : sumInt (removed.map TxDesc.fee) + (calcMinRequiredTxRelayFee
    (getTxVirtualSize txD.tx.msgTx) cfg.policy.minRelayTxFee).toInt ≤ txD.fee.toInt
  rate : ∀ d ∈ removed, feeRate d < feeRate txD
  apart : ∀ d ∈ removed, ∀ op ∈ spends txD.tx, op.hash ≠ d.tx.hash

theorem Replacing.spends_apart (h : Replacing cfg mp tx txFee conflicts) (hd : d ∈ mp.pool)
    (hgone : d.tx.hash ∈ conflicts.entries.map Tx.hash) {op : OutPoint} (hop : op ∈ spends tx) :
    op.hash ≠ d.tx.hash := by
  intro hhash
  obtain ⟨ancestors, hanc, hapart⟩ := h.apart
  have hparent : d.tx ∈ mp.parents tx := by
    refine mem_filterMap.mpr ⟨op, hop, ?_⟩
    rw [hhash, Keyed.find?_eq_some.mpr ⟨hd, rfl⟩, Option.map_some]
  have hnone := hapart d.tx ((mem_walk hanc).mpr (.single hparent))
  obtain ⟨c, hc, heq⟩ := mem_map.mp hgone
  exact Keyed.find?_eq_none.mp hnone c hc heq

theorem mem_replaced (hd : d ∈ mp.pool) (hfresh : mp.pool.find? tx.hash = none) :
    d ∈ (((conflicts.entries.map Tx.hash).foldl TxPool.dropTransaction mp).addTransaction tx
      txFee).1.pool ↔ d.tx.hash ∉ conflicts.entries.map Tx.hash := by
  have hne : d.tx.hash ≠ tx.hash := Keyed.find?_eq_none.mp hfresh d hd
  rw [TxPool.addTransaction, countStake_pool, Keyed.mem_insert, mem_foldl_drop]
  constructor
  · grind
  · exact fun hstays => Or.inr ⟨⟨hd, hstays⟩, hne⟩

/-- The entries of the conflicts: each has a lower rate, and together they paid less. -/
theorem Replacing.removed
    (h : Replacing cfg mp tx txFee conflicts) (hp : Priced mp) (hfee0 : 0 ≤ txFee.toInt)
    (hfeemax : txFee.toInt ≤ maxSatoshi.toInt) :
    ∃ removed : List TxDesc, removed.Nodup ∧
      (∀ d, d ∈ removed ↔ d ∈ mp.pool ∧ d.tx.hash ∈ conflicts.entries.map Tx.hash) ∧
      removed.length ≤ maxReplacementEvictions ∧
      sumInt (removed.map TxDesc.fee) + (calcMinRequiredTxRelayFee (getTxVirtualSize tx.msgTx)
        cfg.policy.minRelayTxFee).toInt ≤ txFee.toInt ∧
      ∀ d ∈ removed, feeRate d < (txFee.toInt * 1000).tdiv (getTxVirtualSize tx.msgTx).toInt := by
  obtain ⟨total, hsum, hpays⟩ := h.fees
  obtain ⟨removed, hhashes, hall, rfl⟩ := sumConflictFees_ok hsum
  have hlength : removed.length ≤ maxReplacementEvictions := by
    have hlen := congrArg List.length hhashes
    rw [length_map, length_map] at hlen
    exact hlen ▸ h.few
  refine ⟨removed, .of_map _ (hhashes ▸ conflicts.nodup), fun d => ?_, hlength, ?_, fun d hd => ?_⟩
  · constructor
    · grind
    · rintro ⟨hd, hhash⟩
      rw [← hhashes] at hhash
      obtain ⟨e, he, heq⟩ := mem_map.mp hhash
      rwa [← mp.pool.eq_of_key_eq (hall e he).1 hd heq]
  · obtain ⟨htotal, htotal0, htotalmax⟩ := hp.sum_fees (fun d hd => (hall d hd).1) hlength
    have hmin := calcMinRequiredTxRelayFee_range (getTxVirtualSize tx.msgTx) cfg.policy.minRelayTxFee
    have hbound := maxSatoshi_toInt
    rw [← sum64, Int64.le_iff_toInt_le, toInt_add_of_fits (by omega) (by omega), htotal] at hpays
    exact hpays
  · have hrate := (hall d hd).2
    rw [Int64.lt_iff_toInt_lt, hp.feeRate (hall d hd).1, feePerKB_toInt hfee0 hfeemax] at hrate
    exact hrate

/-- A transaction that is accepted against others of the pool evicts these and their descendants,
all of which it outbids. -/
theorem replacement_pays_for_evicted {isNew rateLimit rejectDupOrphans free : Bool} {txD : TxDesc}
    (hb : Booked mp) (hp : Priced mp)
    (h : maybeAcceptTransaction cfg chain mp tx isNew rateLimit rejectDupOrphans free =
      .ok (.added mp' txD))
    (hconflict : ∃ d ∈ mp.pool, Conflicts tx d.tx) :
    txD.tx = tx ∧ txD ∈ mp'.pool ∧ ∃ removed, PaysFor cfg mp mp' txD removed := by
  obtain ⟨txFee, conflicts, view, hadm, heq⟩ := maybeAcceptTransaction_added h
  obtain rfl : txD = ⟨tx, txFee, txFee * 1000 / getTxVirtualSize tx.msgTx⟩ := congrArg Prod.snd heq
  have hmp' : mp' = (((conflicts.entries.map Tx.hash).foldl TxPool.dropTransaction mp).addTransaction
    tx txFee).1 := congrArg Prod.fst heq
  obtain ⟨isReplacement, hdouble, hreplaced⟩ := hadm.replaced
  -- every direct conflict is found by the check, and signals
  have hfound : ∀ c ∈ mp.pool, Conflicts tx c.tx → isReplacement = true ∧ Signals mp c.tx := by
    rintro c hc ⟨op, hop, hspends⟩
    obtain ⟨t, ht, rfl⟩ := mem_map.mp hop
    obtain ⟨htrue, hsignals⟩ := checkPoolDoubleSpend_found hdouble ht (hb.get_of_mem hc hspends)
    exact ⟨htrue, (signalsReplacement_iff hsignals).mp rfl⟩
  obtain ⟨c, hc, hconf⟩ := hconflict
  obtain ⟨rfl, _⟩ := hfound c hc hconf
  have hrep : Replacing cfg mp tx txFee conflicts := validateReplacement_ok hreplaced
  obtain ⟨removed, hnodup, hmem, hfew, hfee, hrate⟩ :=
    hrep.removed hp hadm.fee_range.1 hadm.fee_range.2
  refine ⟨rfl, ?_, removed, ?_⟩
  · rw [hmp', TxPool.addTransaction, countStake_pool]
    exact Keyed.mem_insert.mpr (Or.inl rfl)
  · refine ⟨hnodup, fun d => ?_, fun d => ?_, hfew, fun c hc hconf => (hfound c hc hconf).2, hfee,
      hrate, fun d hd op hop => ?_⟩
    · rw [hmem, hmp']
      refine and_congr_right fun hd => ?_
      rw [mem_replaced hd hadm.fresh, not_not]
    · rw [hmem]
      exact and_congr_right fun hd => mem_hash_txConflicts hb hrep.found hd
    · obtain ⟨hd, hgone⟩ := (hmem d).mp hd
      exact hrep.spends_apart hd hgone hop

/-! ## A pool to look at -/

def openRelay : Config :=
  { env := youngMainNet
    policy := ⟨7, true, true, 100, 100000, 80000, 1000, false⟩
    getScriptClass := fun _ => .witnessV0PubKeyHash
    calcMultiSigStats := fun _ => none
    highPriority := fun _ _ _ => true
    runStandard := fun _ _ _ _ => true }

/-- A transaction that spends these outputs, opts in to replacement and pays this. -/
def relayTx (hash : Hash) (ops : List OutPoint) (values : List Int64) : Tx :=
  ⟨hash, { version := txVersion
           txIn := ops.map fun op => { previousOutPoint := op, sequence := 0 }
           txOut := values.map fun value => ⟨value, makeWinnerP2WPKHScript 2⟩ }⟩

def lowerTx : Tx := relayTx 60 [⟨50, 0⟩] [99999000]

def upperTx : Tx := relayTx 61 [⟨60, 0⟩] [99998000]

def chainedPool : TxPool :=
  (((TxPool.new 0).addTransaction lowerTx 1000).1.addTransaction upperTx 1000).1

theorem mem_chainedPool : d ∈ chainedPool.pool ↔
    d = ⟨upperTx, 1000, 1000 * 1000 / getTxVirtualSize upperTx.msgTx⟩ ∨
    d = ⟨lowerTx, 1000, 1000 * 1000 / getTxVirtualSize lowerTx.msgTx⟩ := by
  have hentries : chainedPool.pool.entries =
      [⟨upperTx, 1000, 1000 * 1000 / getTxVirtualSize upperTx.msgTx⟩,
        ⟨lowerTx, 1000, 1000 * 1000 / getTxVirtualSize lowerTx.msgTx⟩] := rfl
  rw [← Keyed.mem_entries, hentries, mem_pair]

theorem chainedPool_booked : Booked chainedPool :=
  ((Booked.new 0).add 1000 rfl fun _ _ => rfl).add 1000 (by decide +kernel) (by decide +kernel)

theorem chainedPool_priced : Priced chainedPool :=
  ((Priced.new 0).add (by decide) (by decide)).add (by decide) (by decide)

def wasAdded : Admission Accepted → Bool
  | .ok (.added _ _) => true
  | _ => false

theorem exists_of_wasAdded {r : Admission Accepted} (h : wasAdded r = true) :
    ∃ mp txD, r = .ok (.added mp txD) := by
  unfold wasAdded at h
  split at h
  · exact ⟨_, _, rfl⟩
  · cases h

/-- A transaction that takes the lower one's coin evicts and pays for both. -/
theorem chained_pair_replaced : ∃ mp' txD,
    maybeAcceptTransaction openRelay twoCoinState chainedPool (relayTx 62 [⟨50, 0⟩] [99990000]) true
      true true true = .ok (.added mp' txD) ∧
    ∃ removed, PaysFor openRelay chainedPool mp' txD removed ∧
      ∀ d ∈ chainedPool.pool, d ∈ removed := by
  obtain ⟨mp', txD, h⟩ : ∃ mp' txD, maybeAcceptTransaction openRelay twoCoinState chainedPool
      (relayTx 62 [⟨50, 0⟩] [99990000]) true true true true = .ok (.added mp' txD) :=
    exists_of_wasAdded (by decide +kernel)
  have hlower := mem_chainedPool.mpr (Or.inr rfl)
  have hupper := mem_chainedPool.mpr (Or.inl rfl)
  have hconf : Conflicts (relayTx 62 [⟨50, 0⟩] [99990000]) lowerTx :=
    ⟨⟨50, 0⟩, by decide, by decide⟩
  have hredeems : Redeems chainedPool lowerTx upperTx :=
    ⟨⟨_, hupper, rfl⟩, ⟨60, 0⟩, by decide, by decide⟩
  obtain ⟨htx, _, removed, hpays⟩ := replacement_pays_for_evicted chainedPool_booked
    chainedPool_priced h ⟨_, hlower, hconf⟩
  rw [← htx] at hconf
  refine ⟨mp', txD, h, removed, hpays, fun d hd => (hpays.evicted d).mpr ⟨hd, ?_⟩⟩
  rcases mem_chainedPool.mp hd with rfl | rfl
  · exact ⟨_, hlower, hconf, .single hredeems⟩
  · exact ⟨_, hlower, hconf, .refl⟩

end FalconDraw.Mempool
