/-
FalconDraw.Chain.MerkleStoreTheorems — the two merkle algorithms agree.

`BuildMerkleTreeStore` reads its array as a queue: two nodes are taken from the
front, their parent is put at the back.
-/
import FalconDraw.Chain.MerkleTheorems

namespace FalconDraw.Chain

open Lib Lib.MerkleTree Wire Draw List

variable {hash : Hash → Hash → Hash}

/-! ## Powers of two -/

theorem eq_two_pow_of_and_pred {n : Nat} (hpos : 0 < n) (h : n &&& (n - 1) = 0) :
    n = 2 ^ Nat.log2 n := by
  have hle := Nat.log2_self_le (Nat.ne_of_gt hpos)
  have hlt := @Nat.lt_log2_self n
  by_contra hne
  -- the highest bit of `n` is set in `n - 1` too
  have hlog : Nat.log2 (n - 1) = Nat.log2 n := by
    have hne' : n - 1 ≠ 0 := by
      have := Nat.two_pow_pos (Nat.log2 n)
      omega
    have hupper := (Nat.log2_lt hne').mpr (show n - 1 < 2 ^ (Nat.log2 n + 1) by omega)
    have hlower : ¬ Nat.log2 (n - 1) < Nat.log2 n := by
      rw [Nat.log2_lt hne']
      omega
    omega
  have hbit : (n &&& (n - 1)).testBit (Nat.log2 n) = true := by
    rw [Nat.testBit_and, Nat.testBit_log2 (Nat.ne_of_gt hpos), ← hlog, Nat.testBit_log2]
    · rfl
    · omega
  rw [h, Nat.zero_testBit] at hbit
  cases hbit

theorem nextPowerOfTwo_spec {n : Nat} (hpos : 0 < n) :
    ∃ k, nextPowerOfTwo n = 2 ^ k ∧ n ≤ 2 ^ k ∧ 2 ^ k < 2 * n := by
  unfold nextPowerOfTwo
  split
  case isTrue h =>
    have hpow := eq_two_pow_of_and_pred hpos h
    exact ⟨Nat.log2 n, hpow, by omega, by omega⟩
  case isFalse h =>
    have hlt := @Nat.lt_log2_self n
    have hle := Nat.log2_self_le (Nat.ne_of_gt hpos)
    refine ⟨Nat.log2 n + 1, rfl, by omega, ?_⟩
    have hne : n ≠ 2 ^ Nat.log2 n := by
      intro heq
      apply h
      rw [heq, Nat.and_two_pow_sub_one_eq_mod, Nat.mod_self]
    rw [Nat.pow_succ]
    omega

/-! ## The linear store -/

/-- A row padded with nil to `width` places. -/
def padded (width : Nat) (row : List Hash) : List (Option Hash) :=
  row.map some ++ List.replicate (width - row.length) none

def parents (hash : Hash → Hash → Hash) : List (Option Hash) → List (Option Hash)
  | left :: right :: rest => merkleParent hash left right :: parents hash rest
  | _ => []

theorem length_padded {width : Nat} {row : List Hash} (h : row.length ≤ width) :
    (padded width row).length = width := by
  rw [padded, length_append, length_map, length_replicate]
  omega

theorem parents_replicate : ∀ n, parents hash (List.replicate (2 * n) none) = List.replicate n none
  | 0 => rfl
  | n + 1 => by
    rw [Nat.mul_succ, replicate_succ, replicate_succ, parents, parents_replicate n,
      replicate_succ]
    rfl

theorem parents_padded : ∀ {row : List Hash} {width : Nat}, row.length ≤ 2 * width →
    parents hash (padded (2 * width) row) = padded width (up hash row)
  | [], width, _ => by
    show parents hash (List.replicate (2 * width) none) = _
    rw [parents_replicate]
    rfl
  | [x], 0, h => by
    rw [length_singleton] at h
    omega
  | [x], width + 1, _ => by
    show parents hash (some x :: List.replicate (2 * width + 1) none) = _
    rw [replicate_succ, parents, parents_replicate]
    rfl
  | x :: y :: rest, 0, h => by
    rw [length_cons] at h
    omega
  | x :: y :: rest, width + 1, h => by
    have hrest : rest.length ≤ 2 * width := by
      rw [length_cons, length_cons] at h
      omega
    have hwidth : 2 * (width + 1) - (x :: y :: rest).length = 2 * width - rest.length := by
      rw [length_cons, length_cons]
      omega
    have hup : up hash (x :: y :: rest) = hash x y :: up hash rest := rfl
    have hhalf : width + 1 - (hash x y :: up hash rest).length = width - (up hash rest).length := by
      rw [length_cons]
      omega
    have ih := @parents_padded rest width hrest
    unfold padded at ih ⊢
    rw [hwidth, hup, hhalf, map_cons, map_cons, cons_append, cons_append,
      parents, ih]
    rfl

theorem fillStore_row : ∀ {row acc : List (Option Hash)} {rounds i : Nat}
    {merkles : List (Option Hash)}, row.length % 2 = 0 → merkles.drop i = row ++ acc →
    ∃ i' merkles', fillStore hash (row.length / 2 + rounds) i merkles =
        fillStore hash rounds i' merkles' ∧
      merkles'.drop i' = acc ++ parents hash row
  | [], acc, rounds, i, merkles, _, hdrop => by
    refine ⟨i, merkles, ?_, ?_⟩
    · rw [length_nil, Nat.zero_div, Nat.zero_add]
    · grind [parents]
  | [_], _, _, _, _, heven, _ => by
    rw [length_singleton] at heven
    omega
  | left :: right :: row, acc, rounds, i, merkles, heven, hdrop => by
    have heven' : row.length % 2 = 0 := by
      rw [length_cons, length_cons] at heven
      omega
    have hlen : (left :: right :: row).length / 2 = row.length / 2 + 1 := by
      rw [length_cons, length_cons]
      omega
    have hleft : merkles.getD i none = left := by
      rw [getD_eq_getElem?_getD, ← Nat.add_zero i, ← getElem?_drop, hdrop]
      rfl
    have hright : merkles.getD (i + 1) none = right := by
      rw [getD_eq_getElem?_getD, ← getElem?_drop, hdrop]
      rfl
    have hshort : i + 2 ≤ merkles.length := by
      have := congrArg List.length hdrop
      rw [length_drop, length_append, length_cons, length_cons] at this
      omega
    -- the parent goes behind what is left of the row
    have hnext : (merkles ++ [merkleParent hash left right]).drop (i + 2) =
        row ++ (acc ++ [merkleParent hash left right]) := by
      rw [drop_append_of_le_length hshort, ← drop_drop, hdrop, ← append_assoc]
      rfl
    obtain ⟨i', merkles', hfill, hrest⟩ := fillStore_row heven' hnext
    refine ⟨i', merkles', ?_, ?_⟩
    · rw [hlen, Nat.add_right_comm, fillStore, hleft, hright]
      exact hfill
    · rw [hrest, parents, append_assoc]
      rfl

theorem fillStore_root : ∀ {k : Nat} {row : List Hash} {i : Nat} {merkles : List (Option Hash)},
    row.length ≤ 2 ^ k → 2 ^ k < 2 * row.length → merkles.drop i = padded (2 ^ k) row →
    ∃ r, (fillStore hash (2 ^ k - 1) i merkles).getLast? = some (some r) ∧ Root hash row r := by
  intro k
  induction k with
  | zero =>
    intro row i merkles hle hlt hdrop
    obtain ⟨r, rfl⟩ := length_eq_one_iff.mp (show row.length = 1 by omega)
    refine ⟨r, ?_, root_leaf r⟩
    have hlast : (merkles.drop i).getLast? = some (some r) := by
      rw [hdrop]
      rfl
    rw [getLast?_drop] at hlast
    split at hlast
    · cases hlast
    · exact hlast
  | succ k ih =>
    intro row i merkles hle hlt hdrop
    have hpow : 2 ^ (k + 1) = 2 * 2 ^ k := by rw [Nat.pow_succ, Nat.mul_comm]
    have hpos := Nat.two_pow_pos k
    rw [hpow] at hle hlt hdrop
    have hlen := length_padded hle
    have hdrop' : merkles.drop i = padded (2 * 2 ^ k) row ++ [] := by rw [hdrop, append_nil]
    obtain ⟨i', merkles', hfill, hrest⟩ : ∃ i' merkles',
        fillStore hash ((padded (2 * 2 ^ k) row).length / 2 + (2 ^ k - 1)) i merkles =
          fillStore hash (2 ^ k - 1) i' merkles' ∧
        merkles'.drop i' = [] ++ parents hash (padded (2 * 2 ^ k) row) :=
      fillStore_row (by rw [hlen]; omega) hdrop'
    rw [nil_append, parents_padded hle] at hrest
    obtain ⟨r, hlast, hroot⟩ := ih (by rw [length_up]; omega) (by rw [length_up]; omega) hrest
    refine ⟨r, ?_, .of_up (by omega) hroot⟩
    have hrounds : 2 ^ (k + 1) - 1 = (padded (2 * 2 ^ k) row).length / 2 + (2 ^ k - 1) := by
      rw [hlen]
      omega
    rw [hrounds, hfill]
    exact hlast

theorem length_baseHashes (witnessHash : Tx → Hash) (witness : Bool) (txs : List Tx) :
    (baseHashes witnessHash witness txs).length = txs.length := by
  cases txs with
  | nil => rfl
  | cons coinbase txs => rw [baseHashes, length_cons, length_map, length_cons]

theorem buildMerkleTreeStore_root (witnessHash : Tx → Hash) {txs : List Tx} (hne : txs ≠ [])
    (witness : Bool) :
    ∃ store r, buildMerkleTreeStore hash witnessHash txs witness = some store ∧
      store.getLast? = some (some r) ∧ Root hash (baseHashes witnessHash witness txs) r := by
  have hlen := length_baseHashes witnessHash witness txs
  obtain ⟨k, hpow, hle, hlt⟩ := nextPowerOfTwo_spec (length_pos_of_ne_nil hne)
  have hpos := Nat.two_pow_pos k
  have hrounds : (2 ^ k * 2 - 1 - 1) / 2 = 2 ^ k - 1 := by omega
  rw [← hlen] at hle hlt
  obtain ⟨r, hlast, hroot⟩ := fillStore_root hle hlt
    (show (padded (2 ^ k) (baseHashes witnessHash witness txs)).drop 0 = _ from rfl)
  refine ⟨_, r, ?_, hlast, hroot⟩
  unfold buildMerkleTreeStore
  dsimp only
  rw [hpow, if_neg (by omega), hrounds, padded, hlen]

/-! ## The rolling store -/

namespace RollingMerkleTreeStore

variable {s : RollingMerkleTreeStore}

/-- The stores the last loop goes through. -/
inductive Raised (hash : Hash → Hash → Hash) (s : RollingMerkleTreeStore) :
    RollingMerkleTreeStore → Prop
  | start : Raised hash s s
  | again {t t' : RollingMerkleTreeStore} {h : Hash} (hreach : Raised hash s t)
      (hroots : 1 < t.roots.length) (hlast : t.roots.head? = some h)
      (hadd : add hash { t with numLeaves := shiftLeaves 64 t.numLeaves } h = some t') :
      Raised hash s t'

/-- The stores `calcMerkleRoot` goes through. -/
inductive Passes (hash : Hash → Hash → Hash) (adds : List Hash) (last : Hash) :
    RollingMerkleTreeStore → Prop
  | leaves (i : Nat) {s : RollingMerkleTreeStore}
      (hadd : (adds.take i).foldlM (add hash) new = some s) : Passes hash adds last s
  | even {s t : RollingMerkleTreeStore} (hadd : adds.foldlM (add hash) new = some s)
      (heven : adds.length % 2 = 0) (hraise : Raised hash s t) : Passes hash adds last t
  | odd {s s' t : RollingMerkleTreeStore} (hadd : adds.foldlM (add hash) new = some s)
      (hmany : s.numLeaves ≠ 1) (hodd : adds.length % 2 = 1) (hlast : add hash s last = some s')
      (hraise : Raised hash s' t) : Passes hash adds last t

theorem Raised.forest {t : RollingMerkleTreeStore} {n : Nat} (h : Raised hash s t)
    (hstart : ∃ l, Forest hash s.roots l ∧ s.numLeaves = l.length ∧ l.length % 2 = 0 ∧
      l.length / 2 ≤ n) (hn : n < 2 ^ 63) :
    ∃ l, Forest hash t.roots l ∧ t.numLeaves = l.length ∧ l.length % 2 = 0 ∧ l.length / 2 ≤ n := by
  induction h with
  | start => exact hstart
  | @again t t' h _ hroots hhead hadd ih =>
    obtain ⟨l, hforest, hleaves, heven, hhalf⟩ := ih
    have hne : l ≠ [] := by
      rintro rfl
      rw [hforest.roots_eq_nil] at hroots
      exact absurd hroots (by decide)
    obtain ⟨m, hm, hshift, hodd, -, hle, -⟩ :=
      shiftLeaves_forest hforest hne (show l.length < 2 ^ 64 by omega)
    have hle := hle heven
    obtain ⟨roots', hadd', hforest'⟩ := add_forest hm (by omega) h
    have hsame : t' = ⟨roots', (m ++ [h]).length⟩ := by
      rw [hleaves, hshift] at hadd
      exact Option.some.inj (hadd.symm.trans hadd')
    subst hsame
    have hlen : (m ++ [h]).length = m.length + 1 := length_append
    exact ⟨m ++ [h], hforest', rfl, by rw [hlen]; omega, by rw [hlen]; omega⟩

theorem Raised.roots_le {t : RollingMerkleTreeStore} {n : Nat} (h : Raised hash s t)
    (hstart : ∃ l, Forest hash s.roots l ∧ s.numLeaves = l.length ∧ l.length % 2 = 0 ∧
      l.length / 2 ≤ n) (hn : n < 2 ^ 63) :
    t.roots.length ≤ Nat.size t.numLeaves ∧ t.roots.length ≤ Nat.size n := by
  obtain ⟨l, hforest, hleaves, heven, hhalf⟩ := h.forest hstart hn
  refine ⟨hleaves ▸ hforest.length_le_size, ?_⟩
  -- an even row has the roots of the row above it
  refine (hforest.of_even heven).length_le_size.trans (Nat.size_le_size ?_)
  rw [length_up]
  omega

variable (hash) in
theorem foldlM_add_new {adds : List Hash} (hlen : adds.length < 2 ^ 64) :
    ∃ roots, adds.foldlM (add hash) new = some ⟨roots, adds.length⟩ ∧ Forest hash roots adds :=
  foldlM_add Forest.nil (show ([] ++ adds).length < 2 ^ 64 by rwa [nil_append])

/-- No store has more roots than its own count of leaves, or that of all leaves, has
bits. -/
theorem Passes.roots_le {adds : List Hash} {last : Hash}
    (h : Passes hash adds last s) (hlen : adds.length < 2 ^ 63) :
    s.roots.length ≤ Nat.size s.numLeaves ∧ s.roots.length ≤ Nat.size adds.length := by
  obtain ⟨roots, hfold, hforest⟩ := foldlM_add_new hash (show adds.length < 2 ^ 64 by omega)
  cases h with
  | leaves i hadd =>
    have htake : (adds.take i).length ≤ adds.length := by
      rw [length_take]
      omega
    obtain ⟨roots', hfold', hforest'⟩ :=
      foldlM_add_new hash (show (adds.take i).length < 2 ^ 64 by omega)
    obtain rfl := Option.some.inj (hadd.symm.trans hfold')
    exact ⟨hforest'.length_le_size, hforest'.length_le_size.trans (Nat.size_le_size htake)⟩
  | even hadd heven hraise =>
    obtain rfl := Option.some.inj (hadd.symm.trans hfold)
    exact hraise.roots_le ⟨adds, hforest, rfl, heven, by omega⟩ hlen
  | odd hadd hmany hodd hlast hraise =>
    obtain rfl := Option.some.inj (hadd.symm.trans hfold)
    obtain ⟨roots', hadd', hforest'⟩ := add_forest hforest (by omega) last
    obtain rfl := Option.some.inj (hlast.symm.trans hadd')
    have hlen' : (adds ++ [last]).length = adds.length + 1 := length_append
    exact hraise.roots_le ⟨adds ++ [last], hforest', rfl, by rw [hlen']; omega,
      by rw [hlen']; omega⟩ hlen

end RollingMerkleTreeStore

/-- The hash `calcMerkleRoot` repeats for an odd number of transactions. -/
def lastHash (witnessHash : Tx → Hash) (witness : Bool) (txs : List Tx) : Hash :=
  (txs.getLast?.map fun tx => if witness then witnessHash tx else tx.hash).getD 0

theorem calcMerkleRoot_eq (witnessHash : Tx → Hash) (txs : List Tx) (witness : Bool) :
    calcMerkleRoot hash witnessHash txs witness =
      RollingMerkleTreeStore.calcMerkleRoot hash (baseHashes witnessHash witness txs)
        (lastHash witnessHash witness txs) := by
  cases txs <;> rfl

theorem getLast?_baseHashes (witnessHash : Tx → Hash) (witness : Bool) (coinbase tx : Tx)
    (txs : List Tx) :
    (baseHashes witnessHash witness (coinbase :: tx :: txs)).getLast? =
      some (lastHash witnessHash witness (coinbase :: tx :: txs)) := by
  grind [baseHashes, lastHash]

theorem calcMerkleRoot_base (witnessHash : Tx → Hash) {txs : List Tx} (hne : txs ≠ [])
    (hlen : txs.length + 1 < 2 ^ 63) (witness : Bool) :
    ∃ r, calcMerkleRoot hash witnessHash txs witness = some r ∧
      Root hash (baseHashes witnessHash witness txs) r := by
  rw [calcMerkleRoot_eq]
  rcases txs with _ | ⟨coinbase, _ | ⟨tx, txs⟩⟩
  · exact absurd rfl hne
  · -- the witness hash of a lone coinbase is not repeated, so it does not matter
    exact ⟨_, rfl, root_leaf _⟩
  · exact RollingMerkleTreeStore.calcMerkleRoot_root
      (getLast?_baseHashes witnessHash witness coinbase tx txs)
      (by rwa [length_baseHashes])

/-- `CalcMerkleRoot` and `BuildMerkleTreeStore` give the same root, and the rolling
store is never larger than the bit length of the number of leaves. -/
theorem rolling_root_agrees (hash : Hash → Hash → Hash) (witnessHash : Tx → Hash)
    {txs : List Tx} (hne : txs ≠ []) (hlen : txs.length < 2 ^ 48) (witness : Bool) :
    (∃ root store, calcMerkleRoot hash witnessHash txs witness = some root ∧
      buildMerkleTreeStore hash witnessHash txs witness = some store ∧
      store.getLast? = some (some root)) ∧
    ∀ s, RollingMerkleTreeStore.Passes hash (baseHashes witnessHash witness txs)
        (lastHash witnessHash witness txs) s →
      s.roots.length ≤ Nat.size s.numLeaves ∧ s.roots.length ≤ Nat.size txs.length := by
  refine ⟨?_, fun s hs => ?_⟩
  · obtain ⟨root, hcalc, hroot⟩ := calcMerkleRoot_base witnessHash hne (by omega) witness
    obtain ⟨store, r, hbuild, hlast, hroot'⟩ :=
      buildMerkleTreeStore_root witnessHash hne witness
    exact ⟨root, store, hcalc, hbuild, by rw [hlast, hroot.unique hroot']⟩
  · rw [← length_baseHashes witnessHash witness txs]
    exact hs.roots_le (by rw [length_baseHashes]; omega)

/-- Five transactions, by their witness hashes. -/
theorem five_tx_roots_agree : ∃ root store,
      calcMerkleRoot toyHash Tx.hash (threeTxBlock.transactions ++
        [unsignedTx 52 ⟨79, 0⟩, unsignedTx 53 ⟨80, 0⟩]) true = some root ∧
      buildMerkleTreeStore toyHash Tx.hash (threeTxBlock.transactions ++
        [unsignedTx 52 ⟨79, 0⟩, unsignedTx 53 ⟨80, 0⟩]) true = some store ∧
      store.getLast? = some (some root) :=
  (rolling_root_agrees toyHash Tx.hash (by decide) (by decide) true).1

end FalconDraw.Chain
