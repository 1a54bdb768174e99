/-
FalconDraw.Chain.MerkleTheorems — the header binds the transactions.

The rolling store holds the forest of the rows of a merkle tree, sane blocks have
no id twice, and trees without a repeated leaf are bound by their root
(`Tree.binding`).
-/
import FalconDraw.Lib.MerkleTree
import FalconDraw.Chain.Merkle
import FalconDraw.Chain.SpendTheorems

namespace FalconDraw.Chain

open Lib Lib.MerkleTree Wire Draw List

variable {hash : Hash → Hash → Hash}

namespace RollingMerkleTreeStore

theorem mergeRoots_forest : ∀ {rows : Nat} {roots l : List Hash}, Forest hash roots l →
    l.length < 2 ^ rows → ∀ x, ∃ roots', mergeRoots hash rows l.length roots x = some roots' ∧
      Forest hash roots' (l ++ [x]) := by
  intro rows
  induction rows with
  | zero =>
    intro roots l hforest hlen x
    have hnil : l = [] := length_eq_zero_iff.mp (by omega)
    subst hnil
    exact ⟨x :: roots, rfl, .odd rfl hforest⟩
  | succ rows ih =>
    intro roots l hforest hlen x
    rw [Nat.pow_succ] at hlen
    rcases Nat.mod_two_eq_zero_or_one l.length with heven | hodd
    · refine ⟨x :: roots, ?_, .odd heven (hforest.of_even heven)⟩
      unfold mergeRoots
      rw [if_neg (by omega)]
    · -- the newest root and the new one make a node of the row above
      obtain ⟨y, rest, m, rfl, rfl, heven, habove⟩ := hforest.of_odd hodd
      have hhalf : (m ++ [y]).length / 2 = (up hash m).length := by
        rw [length_up, length_append, length_singleton]
      obtain ⟨roots', hmerge, hforest'⟩ := ih habove (by
        rw [length_up]
        rw [length_append, length_singleton] at hlen
        omega) (hash y x)
      refine ⟨roots', ?_, ?_⟩
      · rw [mergeRoots, if_pos hodd, hhalf]
        exact hmerge
      · refine .even (by rw [length_append, length_singleton]; omega) (by simp) ?_
        rw [append_assoc, up_append heven]
        exact hforest'

theorem add_forest {roots l : List Hash} (hforest : Forest hash roots l)
    (hlen : l.length + 1 < 2 ^ 64) (x : Hash) :
    ∃ roots', add hash ⟨roots, l.length⟩ x = some ⟨roots', (l ++ [x]).length⟩ ∧
      Forest hash roots' (l ++ [x]) := by
  obtain ⟨roots', hmerge, hforest'⟩ :=
    mergeRoots_forest hforest (show l.length < 2 ^ 64 by omega) x
  refine ⟨roots', ?_, hforest'⟩
  rw [add]
  dsimp only
  rw [hmerge, Option.map_some, Nat.mod_eq_of_lt hlen, length_append, length_singleton]

theorem foldlM_add : ∀ {rest done roots : List Hash}, Forest hash roots done →
    (done ++ rest).length < 2 ^ 64 → ∃ roots', rest.foldlM (add hash) ⟨roots, done.length⟩ =
        some ⟨roots', (done ++ rest).length⟩ ∧ Forest hash roots' (done ++ rest)
  | [], done, roots, hforest, _ => ⟨roots, by rw [append_nil]; rfl, by rwa [append_nil]⟩
  | x :: rest, done, roots, hforest, hlen => by
    have hsplit : done ++ x :: rest = done ++ [x] ++ rest := by simp
    obtain ⟨roots₁, hadd, hforest₁⟩ := add_forest hforest (by
      rw [length_append, length_cons] at hlen
      omega) x
    rw [hsplit] at hlen ⊢
    obtain ⟨roots', hrest, hforest'⟩ := foldlM_add hforest₁ hlen
    refine ⟨roots', ?_, hforest'⟩
    rw [foldlM_cons, hadd]
    exact hrest

theorem shiftLeaves_forest : ∀ {rows : Nat} {roots l : List Hash}, Forest hash roots l → l ≠ [] →
    l.length < 2 ^ rows → ∃ m, Forest hash roots m ∧ shiftLeaves rows l.length = m.length ∧
      m.length % 2 = 1 ∧ m.length ≤ l.length ∧ (l.length % 2 = 0 → m.length ≤ l.length / 2) ∧
      ∀ r, Root hash m r → Root hash l r := by
  intro rows
  induction rows with
  | zero =>
    intro roots l _ hne hlen
    have := length_pos_of_ne_nil hne
    omega
  | succ rows ih =>
    intro roots l hforest hne hlen
    have hpos := length_pos_of_ne_nil hne
    rw [Nat.pow_succ] at hlen
    rcases Nat.mod_two_eq_zero_or_one l.length with heven | hodd
    · have hhalf : l.length / 2 = (up hash l).length := by
        rw [length_up]
        omega
      obtain ⟨m, hm, hshift, hmodd, hle, -, hroot⟩ :=
        ih (hforest.of_even heven) (up_ne_nil hne) (by rw [← hhalf]; omega)
      refine ⟨m, hm, ?_, hmodd, by omega, fun _ => by omega, ?_⟩
      · rw [shiftLeaves, if_pos heven, hhalf]
        exact hshift
      · intro r hr
        exact .of_up (by omega) (hroot r hr)
    · refine ⟨l, hforest, ?_, hodd, le_rfl, fun heven => by omega, fun r hr => hr⟩
      rw [shiftLeaves, if_neg (by omega)]

theorem ne_nil_of_roots {roots m : List Hash} {x : Hash} {rest : List Hash}
    (hroots : 1 < roots.length) (heq : roots = x :: rest) (habove : Forest hash rest (up hash m)) :
    m ≠ [] := by
  rintro rfl
  rw [heq, length_cons, Forest.roots_eq_nil habove] at hroots
  exact absurd hroots (by decide)

theorem raiseRoots_root : ∀ {fuel : Nat} {roots l : List Hash}, Forest hash roots l → l ≠ [] →
    l.length % 2 = 0 → l.length ≤ 2 ^ fuel → l.length < 2 ^ 63 →
    ∃ s r, raiseRoots hash fuel ⟨roots, l.length⟩ = some s ∧ s.roots = [r] ∧ Root hash l r := by
  intro fuel
  induction fuel with
  | zero =>
    intro roots l _ hne heven hlen _
    have := length_pos_of_ne_nil hne
    omega
  | succ fuel ih =>
    intro roots l hforest hne heven hlen hbound
    by_cases hone : roots.length ≤ 1
    · cases roots with
      | nil => exact absurd hforest.eq_nil hne
      | cons r rest =>
        have hrest : rest = [] := by
          rw [length_cons] at hone
          exact length_eq_zero_iff.mp (by omega)
        subst hrest
        exact ⟨_, r, by rw [raiseRoots, if_pos hone], rfl, hforest.root⟩
    · -- the next odd row, padded by its last node
      obtain ⟨m, hm, hshift, hodd, -, hhalf, hroot⟩ :=
        shiftLeaves_forest hforest hne (show l.length < 2 ^ 64 by omega)
      obtain ⟨x, rest, m', heq, rfl, heven', habove⟩ := hm.of_odd hodd
      have hne' := ne_nil_of_roots (not_le.mp hone) heq habove
      have hpos := length_pos_of_ne_nil hne'
      have hhalf := hhalf heven
      rw [Nat.pow_succ] at hlen
      rw [length_append, length_singleton] at hhalf hodd
      obtain ⟨roots', hadd, hforest'⟩ := add_forest hm (by
        rw [length_append, length_singleton]
        omega) x
      have hlen' : (m' ++ [x] ++ [x]).length = m'.length + 2 := by simp
      have heven₂ : 2 ^ fuel % 2 = 0 := by
        cases fuel with
        | zero => omega
        | succ fuel => rw [Nat.pow_succ]; omega
      obtain ⟨s, r, hraise, hs, hr⟩ := ih hforest' (by simp) (by rw [hlen']; omega)
        (by rw [hlen']; omega) (by rw [hlen']; omega)
      refine ⟨s, r, ?_, hs, hroot r (.of_pad heven' hne' hr)⟩
      rw [raiseRoots, if_neg hone]
      dsimp only
      rw [heq, hshift]
      rw [heq] at hadd
      simp only [head?_cons, Option.bind_eq_bind, Option.bind_some, hadd]
      exact hraise

theorem calcMerkleRoot_root {adds : List Hash} {last : Hash} (hlast : adds.getLast? = some last)
    (hlen : adds.length + 1 < 2 ^ 63) :
    ∃ r, calcMerkleRoot hash adds last = some r ∧ Root hash adds r := by
  have hne : adds ≠ [] := by
    rintro rfl
    cases hlast
  have hpos := length_pos_of_ne_nil hne
  obtain ⟨roots, hfold, hforest⟩ :
      ∃ roots, adds.foldlM (add hash) new = some ⟨roots, adds.length⟩ ∧ Forest hash roots adds :=
    foldlM_add Forest.nil (show ([] ++ adds).length < 2 ^ 64 by rw [nil_append]; omega)
  unfold calcMerkleRoot
  rw [hfold]
  simp only [Option.bind_eq_bind, Option.bind_some]
  by_cases hsingle : adds.length = 1
  · rw [if_pos hsingle]
    obtain ⟨x, rfl⟩ := length_eq_one_iff.mp hsingle
    obtain ⟨y, rest, m, rfl, hrow, -, habove⟩ := hforest.of_odd rfl
    have hm : m = [] := by
      have := congrArg List.length hrow
      rw [length_append, length_singleton, length_singleton] at this
      exact length_eq_zero_iff.mp (by omega)
    subst hm
    have hrest : rest = [] := Forest.roots_eq_nil habove
    subst hrest
    exact ⟨y, rfl, hforest.root⟩
  rw [if_neg hsingle]
  rcases Nat.mod_two_eq_zero_or_one adds.length with heven | hodd
  · obtain ⟨s, r, hraise, hs, hr⟩ :=
      raiseRoots_root hforest hne heven (show adds.length ≤ 2 ^ 64 by omega) (by omega)
    refine ⟨r, ?_, hr⟩
    rw [if_neg (by omega)]
    simp only [Option.bind_some, hraise, hs]
    rfl
  · obtain ⟨x, rest, m, -, rfl, heven, -⟩ := hforest.of_odd hodd
    have hx : x = last := by
      rw [getLast?_append_cons] at hlast
      simpa using hlast
    subst hx
    have hm : m ≠ [] := by
      rintro rfl
      exact hsingle rfl
    have hmlen := length_pos_of_ne_nil hm
    rw [length_append, length_singleton] at hlen
    obtain ⟨roots', hadd, hforest'⟩ := add_forest hforest (by
      rw [length_append, length_singleton]
      omega) x
    have hlen' : (m ++ [x] ++ [x]).length = m.length + 2 := by simp
    obtain ⟨s, r, hraise, hs, hr⟩ := raiseRoots_root hforest' (by simp)
      (by rw [hlen']; omega) (show (m ++ [x] ++ [x]).length ≤ 2 ^ 64 by rw [hlen']; omega)
      (by rw [hlen']; omega)
    refine ⟨r, ?_, .of_pad heven hm hr⟩
    rw [if_pos ⟨hpos, by omega⟩, hadd]
    simp only [Option.bind_some, hraise, hs]
    rfl

end RollingMerkleTreeStore

def txIds (block : Block) : List Hash := block.transactions.map Tx.hash

theorem calcMerkleRoot_ids (witnessHash : Tx → Hash) {txs : List Tx} (hne : txs ≠ [])
    (hlen : txs.length + 1 < 2 ^ 63) :
    ∃ r, calcMerkleRoot hash witnessHash txs false = some r ∧ Root hash (txs.map Tx.hash) r := by
  have hlast : (txs.map Tx.hash).getLast? = some ((txs.getLast?.map Tx.hash).getD 0) := by
    rw [getLast?_map, getLast?_eq_some_getLast hne]
    rfl
  obtain ⟨r, hroot, htree⟩ : ∃ r, RollingMerkleTreeStore.calcMerkleRoot hash (txs.map Tx.hash)
      ((txs.getLast?.map Tx.hash).getD 0) = some r ∧ Root hash (txs.map Tx.hash) r :=
    RollingMerkleTreeStore.calcMerkleRoot_root hlast (by rwa [length_map])
  refine ⟨r, ?_, htree⟩
  cases txs with
  | nil => exact absurd rfl hne
  | cons coinbase txs => exact hroot

theorem root_of_check {env : SanityEnv} {block : Block} {merkleRoot : Hash}
    (h : checkWholeBlockSanity hash env block merkleRoot = .ok ()) :
    (txIds block).Nodup ∧ Root hash (txIds block) merkleRoot := by
  simp only [checkWholeBlockSanity, bind_eq_ok, exists_unit, rejectIf_eq_ok] at h
  obtain ⟨-, hne, hmany, -, -, -, -, hrest⟩ := h
  obtain ⟨r, hcalc, htree⟩ : ∃ r, calcMerkleRoot hash env.witnessHash block.transactions false =
      some r ∧ Root hash (txIds block) r := by
    refine calcMerkleRoot_ids env.witnessHash hne ?_
    unfold maxBlockBaseSize at hmany
    omega
  rw [hcalc] at hrest
  simp only [bind_eq_ok, exists_unit, rejectIf_eq_ok, not_not] at hrest
  obtain ⟨rfl, hnodup, -⟩ := hrest
  exact ⟨hnodup, htree⟩

/-- Two blocks that pass `checkBlockSanity` with one merkle root have the same ids. -/
theorem merkle_root_binds {env env' : SanityEnv} {block block' : Block} {merkleRoot : Hash}
    (h : checkWholeBlockSanity hash env block merkleRoot = .ok ())
    (h' : checkWholeBlockSanity hash env' block' merkleRoot = .ok ())
    (hno : NoCollision hash (branches hash (txIds block) ++ branches hash (txIds block')))
    (hids : NoLeaf hash (branches hash (txIds block) ++ branches hash (txIds block'))
      (txIds block ++ txIds block')) :
    block.transactions.map Tx.hash = block'.transactions.map Tx.hash := by
  obtain ⟨hnodup, k, htree⟩ := root_of_check h
  obtain ⟨hnodup', k', htree'⟩ := root_of_check h'
  exact htree.binding htree' hno hnodup hnodup' hids

def toyHash (a b : Hash) : Hash := BitVec.ofNat 256 (1000 + 1000 * a.toNat + b.toNat)

def toyEnv : SanityEnv := ⟨RetargetParams.mainNet.powLimit, 1750001800, true, Tx.hash⟩

def threeTxBlock : Block := thirdBlock [unsignedTx 50 ⟨77, 0⟩, unsignedTx 51 ⟨78, 0⟩]

/-- The block with its last transaction repeated has the same merkle root, and is
rejected for the repetition. -/
example : (checkWholeBlockSanity toyHash toyEnv
    (thirdBlock [unsignedTx 50 ⟨77, 0⟩, unsignedTx 51 ⟨78, 0⟩, unsignedTx 51 ⟨78, 0⟩])
      10103051) = .error (.rule .duplicateTx "block contains duplicate transaction") := by
  decide +kernel

/-- The hypotheses hold of a block of three transactions. -/
theorem three_tx_block_bound : checkWholeBlockSanity toyHash toyEnv threeTxBlock 10103051 = .ok () ∧
      threeTxBlock.transactions.map Tx.hash = [9, 50, 51] := by
  have hcheck : checkWholeBlockSanity toyHash toyEnv threeTxBlock 10103051 = .ok () := by
    decide +kernel
  have hsame : threeTxBlock.transactions.map Tx.hash = threeTxBlock.transactions.map Tx.hash :=
    merkle_root_binds hcheck hcheck (by decide +kernel) (by decide +kernel)
  exact ⟨hcheck, hsame.trans (by decide +kernel)⟩

end FalconDraw.Chain
