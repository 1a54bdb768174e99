/-
FalconDraw.Lib.MerkleTree — binary hash trees that repeat the last node of an odd
row.

`Tree k l r ps` says that `k` rows lead from `l` to `r` and that `ps` are the
pairs hashed on the way.
-/
import Mathlib.Data.List.Nodup
import Mathlib.Data.List.Lemmas
import Mathlib.Data.Nat.Size

namespace FalconDraw.Lib.MerkleTree

variable {α : Type*} {hash : α → α → α}

/-! ## Rows -/

def levelPairs : List α → List (α × α)
  | [] => []
  | [a] => [(a, a)]
  | a :: b :: rest => (a, b) :: levelPairs rest

def up (hash : α → α → α) (l : List α) : List α := (levelPairs l).map fun p => hash p.1 p.2

theorem length_levelPairs : ∀ l : List α, (levelPairs l).length = (l.length + 1) / 2
  | [] => by simp [levelPairs]
  | [_] => by simp [levelPairs]
  | _ :: _ :: rest => by
    rw [levelPairs, List.length_cons, length_levelPairs rest, List.length_cons, List.length_cons]
    omega

theorem length_up (l : List α) : (up hash l).length = (l.length + 1) / 2 := by
  rw [up, List.length_map, length_levelPairs]

/-- An even row is padded nowhere, so the pairs of what follows it are its own. -/
theorem levelPairs_append : ∀ {l : List α}, l.length % 2 = 0 → ∀ m,
    levelPairs (l ++ m) = levelPairs l ++ levelPairs m
  | [], _, _ => rfl
  | [_], h, _ => by simp at h
  | a :: b :: rest, h, m => by
    have hrest : rest.length % 2 = 0 := by
      rw [List.length_cons, List.length_cons] at h
      omega
    rw [List.cons_append, List.cons_append, levelPairs, levelPairs, levelPairs_append hrest,
      List.cons_append]

theorem up_append {l : List α} (h : l.length % 2 = 0) (m : List α) :
    up hash (l ++ m) = up hash l ++ up hash m := by
  rw [up, levelPairs_append h, List.map_append, ← up, ← up]

/-- Padding an odd row by hand changes nothing above it. -/
theorem up_pad {l : List α} (h : l.length % 2 = 0) (x : α) :
    up hash (l ++ [x] ++ [x]) = up hash (l ++ [x]) := by
  rw [List.append_assoc, up_append h, up_append h]
  rfl

theorem up_ne_nil {l : List α} (h : l ≠ []) : up hash l ≠ [] := by
  have := List.length_pos_of_ne_nil h
  rw [← List.length_pos_iff, length_up]
  omega

theorem fst_levelPairs_sublist : ∀ l : List α, ((levelPairs l).map Prod.fst).Sublist l
  | [] => List.Sublist.refl _
  | [a] => List.Sublist.refl [a]
  | a :: b :: rest =>
    ((fst_levelPairs_sublist rest).cons b).cons_cons a

theorem nodup_levelPairs {l : List α} (h : l.Nodup) : (levelPairs l).Nodup :=
  List.Nodup.of_map Prod.fst (h.sublist (fst_levelPairs_sublist l))

/-- A row without repetitions can be read off its pairs. -/
theorem levelPairs_inj : ∀ {l m : List α}, l.Nodup → m.Nodup → levelPairs l = levelPairs m → l = m
  | [], [], _, _, _ => rfl
  | [], [_], _, _, h => by cases h
  | [], _ :: _ :: _, _, _, h => by cases h
  | [_], [], _, _, h => by cases h
  | _ :: _ :: _, [], _, _, h => by cases h
  | [a], [c], _, _, h => by
    cases h
    rfl
  | [a], c :: d :: rest, _, hm, h => by
    -- the padded pair has equal sides, the other one has not
    rw [levelPairs, levelPairs, List.cons.injEq, Prod.mk.injEq] at h
    obtain ⟨⟨rfl, rfl⟩, -⟩ := h
    simp at hm
  | a :: b :: rest, [c], hl, _, h => by
    rw [levelPairs, levelPairs, List.cons.injEq, Prod.mk.injEq] at h
    obtain ⟨⟨rfl, rfl⟩, -⟩ := h
    simp at hl
  | a :: b :: rest, c :: d :: rest', hl, hm, h => by
    rw [levelPairs, levelPairs, List.cons.injEq, Prod.mk.injEq] at h
    obtain ⟨⟨rfl, rfl⟩, hrest⟩ := h
    rw [levelPairs_inj (List.nodup_cons.mp (List.nodup_cons.mp hl).2).2
      (List.nodup_cons.mp (List.nodup_cons.mp hm).2).2 hrest]

/-! ## Collisions -/

/-- Different pairs of the list have different hashes. -/
def NoCollision (hash : α → α → α) (ps : List (α × α)) : Prop :=
  ∀ p ∈ ps, ∀ q ∈ ps, hash p.1 p.2 = hash q.1 q.2 → p = q

/-- None of the pairs hashes to one of these leaves. -/
def NoLeaf (hash : α → α → α) (ps : List (α × α)) (leaves : List α) : Prop :=
  ∀ p ∈ ps, ∀ x ∈ leaves, hash p.1 p.2 ≠ x

instance [DecidableEq α] (ps : List (α × α)) : Decidable (NoCollision hash ps) :=
  decidable_of_iff
    (ps.all fun p => ps.all fun q => decide (hash p.1 p.2 = hash q.1 q.2 → p = q))
    (by simp only [NoCollision, List.all_eq_true, decide_eq_true_eq])

instance [DecidableEq α] (ps : List (α × α)) (leaves : List α) :
    Decidable (NoLeaf hash ps leaves) :=
  decidable_of_iff (ps.all fun p => leaves.all fun x => decide (hash p.1 p.2 ≠ x))
    (by simp only [NoLeaf, List.all_eq_true, decide_eq_true_eq])

theorem NoCollision.mono {ps qs : List (α × α)} (h : NoCollision hash qs) (hsub : ps ⊆ qs) :
    NoCollision hash ps :=
  fun p hp q hq heq => h p (hsub hp) q (hsub hq) heq

theorem nodup_up {l : List α} (h : NoCollision hash (levelPairs l)) (hl : l.Nodup) :
    (up hash l).Nodup :=
  (nodup_levelPairs hl).map_on fun p hp q hq heq => h p hp q hq heq

theorem map_hash_inj : ∀ {ps qs : List (α × α)}, NoCollision hash (ps ++ qs) →
    (ps.map fun p => hash p.1 p.2) = (qs.map fun p => hash p.1 p.2) → ps = qs
  | [], [], _, _ => rfl
  | [], _ :: _, _, h => by cases h
  | _ :: _, [], _, h => by cases h
  | p :: ps, q :: qs, hno, h => by
    rw [List.map_cons, List.map_cons, List.cons.injEq] at h
    have hhead : p = q := hno p (by simp) q (by simp) h.1
    have hsub : ps ++ qs ⊆ p :: ps ++ q :: qs := by
      intro x hx
      rcases List.mem_append.mp hx with hx | hx <;> simp [hx]
    rw [hhead, map_hash_inj (hno.mono hsub) h.2]

theorem up_inj {l m : List α} (h : NoCollision hash (levelPairs l ++ levelPairs m)) (hl : l.Nodup)
    (hm : m.Nodup) (heq : up hash l = up hash m) : l = m :=
  levelPairs_inj hl hm (map_hash_inj h heq)

/-! ## Trees -/

/-- The rows above `l` end in `r` after `k` steps, with these pairs hashed. -/
inductive Tree (hash : α → α → α) : Nat → List α → α → List (α × α) → Prop
  | leaf (x : α) : Tree hash 0 [x] x []
  | level {k : Nat} {l : List α} {r : α} {ps : List (α × α)} (hlen : 2 ≤ l.length)
      (htree : Tree hash k (up hash l) r ps) : Tree hash (k + 1) l r (levelPairs l ++ ps)

namespace Tree

variable {k k' : Nat} {l m : List α} {r : α} {ps qs : List (α × α)}

theorem ne_nil (h : Tree hash k l r ps) : l ≠ [] := by
  cases h with
  | leaf => exact List.cons_ne_nil _ _
  | level hlen _ =>
    rintro rfl
    simp at hlen

theorem root_eq {r' : α} (h : Tree hash k l r ps) (h' : Tree hash k' l r' qs) : r = r' := by
  induction h generalizing k' qs with
  | leaf x =>
    cases h' with
    | leaf => rfl
    | level hlen _ => simp at hlen
  | level hlen _ ih =>
    cases h' with
    | leaf => simp at hlen
    | level _ htree' => exact ih htree'

theorem eq_of_height (hl : Tree hash k l r ps) (hm : Tree hash k m r qs)
    (hno : NoCollision hash (ps ++ qs)) (hln : l.Nodup) (hmn : m.Nodup) : l = m := by
  induction hl generalizing m qs with
  | leaf x =>
    cases hm
    rfl
  | @level k l r ps _ htree ih =>
    cases hm with
    | @level _ _ _ qs _ htree' =>
      have hrow : NoCollision hash (levelPairs l ++ levelPairs m) :=
        hno.mono fun p hp => by
          rcases List.mem_append.mp hp with hp | hp <;> simp [hp]
      have habove : NoCollision hash (ps ++ qs) :=
        hno.mono fun p hp => by
          rcases List.mem_append.mp hp with hp | hp <;> simp [hp]
      refine up_inj hrow hln hmn (ih htree' habove ?_ ?_)
      · exact nodup_up (hrow.mono (List.subset_append_left _ _)) hln
      · exact nodup_up (hrow.mono (List.subset_append_right _ _)) hmn

theorem exists_row {d : Nat} (h : Tree hash (k + (d + 1)) m r qs) (hno : NoCollision hash qs)
    (hm : m.Nodup) :
    ∃ m' qs', Tree hash k m' r qs' ∧ qs' ⊆ qs ∧ m'.Nodup ∧
      ∀ x ∈ m', ∃ q ∈ qs, x = hash q.1 q.2 := by
  induction d generalizing m qs with
  | zero =>
    cases h with
    | @level _ _ _ qs _ htree =>
      refine ⟨_, qs, htree, List.subset_append_right _ _,
        nodup_up (hno.mono (List.subset_append_left _ _)) hm, ?_⟩
      intro x hx
      obtain ⟨q, hq, rfl⟩ := List.mem_map.mp hx
      exact ⟨q, List.mem_append_left _ hq, rfl⟩
  | succ d ih =>
    cases h with
    | @level _ _ _ qs _ htree =>
      obtain ⟨m', qs', htree', hsub, hnodup, hhashed⟩ :=
        ih htree (hno.mono (List.subset_append_right _ _))
          (nodup_up (hno.mono (List.subset_append_left _ _)) hm)
      refine ⟨m', qs', htree', fun q hq => List.mem_append_right _ (hsub hq), hnodup, ?_⟩
      intro x hx
      obtain ⟨q, hq, rfl⟩ := hhashed x hx
      exact ⟨q, List.mem_append_right _ hq, rfl⟩

/-- Leaves of a lower tree would be hashes of the higher one. -/
theorem not_lower {d : Nat} (hl : Tree hash k l r ps) (hm : Tree hash (k + (d + 1)) m r qs)
    (hno : NoCollision hash (ps ++ qs)) (hln : l.Nodup) (hmn : m.Nodup)
    (hleaf : NoLeaf hash qs l) : False := by
  obtain ⟨m', qs', htree, hsub, hnodup, hhashed⟩ :=
    hm.exists_row (hno.mono (List.subset_append_right _ _)) hmn
  have hsame : l = m' := by
    refine hl.eq_of_height htree (hno.mono ?_) hln hnodup
    intro p hp
    rcases List.mem_append.mp hp with hp | hp
    · exact List.mem_append_left _ hp
    · exact List.mem_append_right _ (hsub hp)
  obtain ⟨x, hx⟩ := List.exists_mem_of_ne_nil l hl.ne_nil
  obtain ⟨q, hq, hxq⟩ := hhashed x (hsame ▸ hx)
  exact hleaf q hq x hx hxq.symm

/-- Equal roots have equal leaves. -/
theorem binding (hl : Tree hash k l r ps) (hm : Tree hash k' m r qs)
    (hno : NoCollision hash (ps ++ qs)) (hln : l.Nodup) (hmn : m.Nodup)
    (hleaf : NoLeaf hash (ps ++ qs) (l ++ m)) : l = m := by
  rcases Nat.lt_trichotomy k k' with hlt | rfl | hgt
  · obtain ⟨d, rfl⟩ : ∃ d, k' = k + (d + 1) := ⟨k' - k - 1, by omega⟩
    exact (hl.not_lower hm hno hln hmn fun q hq x hx =>
      hleaf q (List.mem_append_right _ hq) x (List.mem_append_left _ hx)).elim
  · exact hl.eq_of_height hm hno hln hmn
  · obtain ⟨d, rfl⟩ : ∃ d, k = k' + (d + 1) := ⟨k - k' - 1, by omega⟩
    have hno' : NoCollision hash (qs ++ ps) := hno.mono fun p hp => by
      rcases List.mem_append.mp hp with hp | hp <;> simp [hp]
    exact (hm.not_lower hl hno' hmn hln fun q hq x hx =>
      hleaf q (List.mem_append_left _ hq) x (List.mem_append_right _ hx)).elim

end Tree

/-- The pairs hashed above a row, at most `fuel` rows of them. -/
def branchesFrom (hash : α → α → α) : Nat → List α → List (α × α)
  | 0, _ => []
  | fuel + 1, l => if l.length < 2 then [] else levelPairs l ++ branchesFrom hash fuel (up hash l)

def branches (hash : α → α → α) (l : List α) : List (α × α) := branchesFrom hash l.length l

theorem Tree.branchesFrom_eq {k : Nat} {l : List α} {r : α} {ps : List (α × α)}
    (h : Tree hash k l r ps) : ∀ {fuel : Nat}, l.length ≤ fuel → branchesFrom hash fuel l = ps := by
  induction h with
  | leaf x =>
    intro fuel hfuel
    cases fuel <;> rfl
  | @level k l r ps hlen _ ih =>
    intro fuel hfuel
    obtain ⟨fuel, rfl⟩ : ∃ f, fuel = f + 1 := ⟨fuel - 1, by omega⟩
    rw [branchesFrom, if_neg (by omega), ih (by rw [length_up]; omega)]

theorem Tree.branches_eq {k : Nat} {l : List α} {r : α} {ps : List (α × α)}
    (h : Tree hash k l r ps) : branches hash l = ps :=
  h.branchesFrom_eq le_rfl

/-- The tree over `l` has root `r`. -/
def Root (hash : α → α → α) (l : List α) (r : α) : Prop := ∃ k, Tree hash k l r (branches hash l)

theorem Root.of_tree {k : Nat} {l : List α} {r : α} {ps : List (α × α)}
    (h : Tree hash k l r ps) : Root hash l r :=
  ⟨k, h.branches_eq.symm ▸ h⟩

theorem Root.unique {l : List α} {r r' : α} (h : Root hash l r) (h' : Root hash l r') : r = r' := by
  obtain ⟨k, htree⟩ := h
  obtain ⟨k', htree'⟩ := h'
  exact htree.root_eq htree'

theorem root_leaf (x : α) : Root hash [x] x := .of_tree (.leaf x)

theorem Root.of_up {l : List α} {r : α} (hlen : 2 ≤ l.length) (h : Root hash (up hash l) r) :
    Root hash l r := by
  obtain ⟨k, htree⟩ := h
  exact .of_tree (.level hlen htree)

theorem Root.up {l : List α} {r : α} (hlen : 2 ≤ l.length) (h : Root hash l r) :
    Root hash (up hash l) r := by
  obtain ⟨k, htree⟩ := h
  generalize branches hash l = ps at htree
  cases htree with
  | leaf => simp at hlen
  | level _ htree => exact .of_tree htree

theorem Root.of_pad {l : List α} {x r : α} (heven : l.length % 2 = 0) (hne : l ≠ [])
    (h : Root hash (l ++ [x] ++ [x]) r) : Root hash (l ++ [x]) r := by
  have hpos := List.length_pos_of_ne_nil hne
  refine .of_up (by simp; omega) ?_
  rw [← up_pad heven]
  exact h.up (by simp)

/-! ## The accumulator -/

/-- The roots kept for a row, newest first: one for its last node if the row is odd,
and those of the row above its even part. -/
inductive Forest (hash : α → α → α) : List α → List α → Prop
  | nil : Forest hash [] []
  | odd {roots l : List α} {x : α} (heven : l.length % 2 = 0)
      (habove : Forest hash roots (up hash l)) : Forest hash (x :: roots) (l ++ [x])
  | even {roots l : List α} (heven : l.length % 2 = 0) (hne : l ≠ [])
      (habove : Forest hash roots (up hash l)) : Forest hash roots l

namespace Forest

variable {roots l : List α} {x r : α}

theorem eq_nil (h : Forest hash [] l) : l = [] := by
  generalize hroots : ([] : List α) = roots at h
  induction h with
  | nil => rfl
  | odd => cases hroots
  | @even roots l _ hne _ ih =>
    subst hroots
    exact absurd (ih rfl) (up_ne_nil hne)

theorem roots_eq_nil (h : Forest hash roots []) : roots = [] := by
  generalize hrow : ([] : List α) = l at h
  cases h with
  | nil => rfl
  | odd => simp at hrow
  | even _ hne _ => exact absurd hrow.symm hne

theorem root (h : Forest hash [r] l) : Root hash l r := by
  generalize hroots : [r] = roots at h
  induction h with
  | nil => cases hroots
  | @odd roots l x _ habove =>
    cases hroots
    have hnil : l = [] := by
      by_contra hne
      exact up_ne_nil hne habove.eq_nil
    rw [hnil]
    exact root_leaf r
  | @even roots l heven hne _ ih =>
    have := List.length_pos_of_ne_nil hne
    exact .of_up (by omega) (ih hroots)

/-- There are no more roots than the length of the row has bits. -/
theorem length_le_size (h : Forest hash roots l) : roots.length ≤ Nat.size l.length := by
  induction h with
  | nil => exact Nat.zero_le _
  | @odd roots l x heven _ ih =>
    have hbit : (l ++ [x]).length = Nat.bit true (up hash l).length := by
      rw [length_up, List.length_append, List.length_singleton, Nat.bit_val, Bool.toNat_true]
      omega
    rw [hbit, Nat.size_bit (by rw [Nat.bit_val, Bool.toNat_true]; omega), List.length_cons]
    omega
  | @even roots l heven hne _ ih =>
    have hpos := List.length_pos_of_ne_nil hne
    exact ih.trans (Nat.size_le_size (by rw [length_up]; omega))

theorem of_even (h : Forest hash roots l) (heven : l.length % 2 = 0) :
    Forest hash roots (up hash l) := by
  cases h with
  | nil => exact .nil
  | @odd roots l x heven' _ =>
    rw [List.length_append, List.length_singleton] at heven
    omega
  | even _ _ habove => exact habove

/-- The newest root of an odd row is its last node. -/
theorem of_odd (h : Forest hash roots l) (hodd : l.length % 2 = 1) :
    ∃ x rest m, roots = x :: rest ∧ l = m ++ [x] ∧ m.length % 2 = 0 ∧
      Forest hash rest (up hash m) := by
  cases h with
  | nil => simp at hodd
  | @odd rest m x heven habove => exact ⟨x, rest, m, rfl, rfl, heven, habove⟩
  | even heven _ _ => omega

end Forest

end FalconDraw.Lib.MerkleTree
