/-
FalconDraw.Lib.Treap — treaps as ordered maps.

A treap is a binary search tree whose nodes also have random priorities. What
counts for a user is the list of entries in key order; `TreapMap` carries the
order of the keys with the tree.
-/
import Mathlib.Order.Lattice
import Mathlib.Order.Basic
import Mathlib.Data.List.Basic

namespace FalconDraw.Lib

variable {κ ν : Type}

inductive Treap (κ ν : Type) where
  | nil
  | node (priority : Nat) (key : κ) (value : ν) (left right : Treap κ ν)
deriving DecidableEq, Repr

namespace Treap

def toList : Treap κ ν → List (κ × ν)
  | nil => []
  | node _ k v l r => l.toList ++ (k, v) :: r.toList

/-- A new node on its way up, with the subtrees it has collected, or the tree in
which it has found its place. -/
inductive Insertion (κ ν : Type) where
  | rising (left right : Treap κ ν)
  | placed (tree : Treap κ ν)

/-- Join what is left and right of a deleted node. With two children the node
sinks below the one with the higher priority; with one, the rotations only carry
it down along that child's inner edge. -/
def joinNode (p : Nat) (k : κ) (v : ν) (l : Treap κ ν) (joinRight : Treap κ ν → Treap κ ν)
    (whole : Treap κ ν) : Treap κ ν → Treap κ ν
  | nil => whole
  | node q k' v' l' r' =>
      if q ≤ p then node p k v l (joinRight (node q k' v' l' r'))
      else node q k' v' (joinNode p k v l joinRight whole l') r'

def join : Treap κ ν → Treap κ ν → Treap κ ν
  | nil, t => t
  | node p k v l r, t => joinNode p k v l (join r) (node p k v l r) t

theorem toList_joinNode {p : Nat} {k : κ} {v : ν} {l r : Treap κ ν}
    {joinRight : Treap κ ν → Treap κ ν}
    (hjoin : ∀ t, (joinRight t).toList = r.toList ++ t.toList) : ∀ t : Treap κ ν,
    (joinNode p k v l joinRight (node p k v l r) t).toList =
      l.toList ++ (k, v) :: r.toList ++ t.toList
  | nil => by simp [joinNode, toList]
  | node q k' v' l' r' => by
      rw [joinNode]
      split
      · simp [toList, hjoin]
      · simp [toList, toList_joinNode hjoin l']

theorem toList_join : ∀ s t : Treap κ ν, (join s t).toList = s.toList ++ t.toList
  | nil, _ => rfl
  | node _ _ _ _ r, t => toList_joinNode (toList_join r) t

/-! ## Heap order -/

/-- The priority of the root is at least `p`. -/
def RootAbove (p : Nat) : Treap κ ν → Prop
  | nil => True
  | node q _ _ _ _ => p ≤ q

/-- No node's priority is above a child's. -/
def HeapOrdered : Treap κ ν → Prop
  | nil => True
  | node p _ _ l r => l.RootAbove p ∧ r.RootAbove p ∧ l.HeapOrdered ∧ r.HeapOrdered

/-- Wherever a deleted node with these subtrees has two children on its way down, they have the
same priority. -/
def Level : Treap κ ν → Treap κ ν → Prop
  | node p _ _ _ r, node q k v l' r' => p = q ∧ Level r (node q k v l' r')
  | _, _ => True

section

variable {p q : Nat} {k : κ} {v : ν} {l r s t : Treap κ ν}

theorem RootAbove.mono (hpq : p ≤ q) (h : t.RootAbove q) : t.RootAbove p := by
  cases t with
  | nil => trivial
  | node => exact hpq.trans h

theorem RootAbove.join (hs : s.RootAbove p) (ht : t.RootAbove p) : (join s t).RootAbove p := by
  cases s <;> cases t <;> simp_all only [Treap.join, joinNode]
  split <;> assumption

theorem le_of_join_right : ∀ {p : Nat} {s : Treap κ ν}, (join s (node q k v l r)).HeapOrdered →
    (join s (node q k v l r)).RootAbove p → p ≤ q
  | _, nil, _, habove => habove
  | _, node p' k' v' l' r', hheap, habove => by
      rw [join, joinNode] at hheap habove
      split at hheap <;> simp_all only [if_true, if_false, RootAbove]
      exact le_trans habove (le_of_join_right hheap.2.2.2 hheap.2.1)

theorem le_of_join_left : ∀ {p : Nat} {t : Treap κ ν}, (join (node q k v l r) t).HeapOrdered →
    (join (node q k v l r) t).RootAbove p → p ≤ q
  | _, nil, _, habove => habove
  | _, node p' k' v' l' r', hheap, habove => by
      rw [join, joinNode] at hheap habove
      split at hheap <;> simp_all only [if_true, if_false, RootAbove]
      exact le_trans habove (le_of_join_left hheap.2.2.1 hheap.1)

/-- The join of two heaps is a heap only if the choice between two children never mattered. -/
theorem heapOrdered_join : ∀ {s t : Treap κ ν}, s.HeapOrdered → t.HeapOrdered →
    ((join s t).HeapOrdered ↔ Level s t)
  | nil, t, _, ht => by simpa [join, Level] using ht
  | node p k v l r, nil, hs, _ => by simpa [join, joinNode, Level] using hs
  | node p k v l r, node q k' v' l' r', hs, ht => by
      have ih := heapOrdered_join hs.2.2.2 ht
      rw [Level]
      constructor
      · intro hheap
        rw [join, joinNode] at hheap
        split at hheap
        case isTrue hqp =>
          have hpq : p ≤ q := le_of_join_right hheap.2.2.2 hheap.2.1
          exact ⟨le_antisymm hpq hqp, ih.mp hheap.2.2.2⟩
        case isFalse hqp =>
          exact absurd (le_of_join_left hheap.2.2.1 hheap.1) hqp
      · rintro ⟨rfl, hlevel⟩
        rw [join, joinNode, if_pos le_rfl]
        exact ⟨hs.1, hs.2.1.join le_rfl, hs.2.2.1, ih.mpr hlevel⟩

end

variable [LinearOrder κ]

def get (k : κ) : Treap κ ν → Option ν
  | nil => none
  | node _ k' v l r => if k < k' then l.get k else if k' < k then r.get k else some v

def insert (priority : Nat) (k : κ) (v : ν) : Treap κ ν → Insertion κ ν
  | nil => .rising nil nil
  | node p k' v' l r =>
      if k < k' then
        match l.insert priority k v with
        | .rising ll lr =>
            if priority < p then .rising ll (node p k' v' lr r)
            else .placed (node p k' v' (node priority k v ll lr) r)
        | .placed l' => .placed (node p k' v' l' r)
      else if k' < k then
        match r.insert priority k v with
        | .rising rl rr =>
            if priority < p then .rising (node p k' v' l rl) rr
            else .placed (node p k' v' l (node priority k v rl rr))
        | .placed r' => .placed (node p k' v' l r')
      else .placed (node p k' v l r)

def put (priority : Nat) (k : κ) (v : ν) (t : Treap κ ν) : Treap κ ν :=
  match t.insert priority k v with
  | .rising l r => node priority k v l r
  | .placed t' => t'

def delete (k : κ) : Treap κ ν → Treap κ ν
  | nil => nil
  | node p k' v l r =>
      if k < k' then node p k' v (l.delete k) r
      else if k' < k then node p k' v l (r.delete k)
      else join l r

/-! ## The entries of a search tree -/

/-- The keys increase from left to right. -/
def Sorted (t : Treap κ ν) : Prop := t.toList.Pairwise fun a b => a.1 < b.1

theorem sorted_node {p : Nat} {k : κ} {v : ν} {l r : Treap κ ν} : (node p k v l r).Sorted ↔
      l.Sorted ∧ r.Sorted ∧ (∀ e ∈ l.toList, e.1 < k) ∧ ∀ e ∈ r.toList, k < e.1 := by
  simp only [Sorted, toList, List.pairwise_append, List.pairwise_cons, List.mem_cons]
  constructor
  · rintro ⟨hl, ⟨hkr, hr⟩, hlr⟩
    exact ⟨hl, hr, fun e he => hlr e he (k, v) (.inl rfl), hkr⟩
  · grind

section

variable {k : κ} {entries : List (κ × ν)}

theorem filter_below_eq_self (h : ∀ e ∈ entries, e.1 < k) :
    entries.filter (fun e => e.1 < k) = entries :=
  List.filter_eq_self.mpr fun e he => by simpa using h e he

theorem filter_below_eq_nil (h : ∀ e ∈ entries, k ≤ e.1) : entries.filter (fun e => e.1 < k) = [] :=
  List.filter_eq_nil_iff.mpr fun e he => by simpa using h e he

theorem filter_above_eq_self (h : ∀ e ∈ entries, k < e.1) :
    entries.filter (fun e => k < e.1) = entries :=
  List.filter_eq_self.mpr fun e he => by simpa using h e he

theorem filter_above_eq_nil (h : ∀ e ∈ entries, e.1 ≤ k) : entries.filter (fun e => k < e.1) = [] :=
  List.filter_eq_nil_iff.mpr fun e he => by simpa using h e he

end

/-- What an insertion has done to the entries, before the node is linked. -/
def Insertion.Splits (k : κ) (v : ν) (entries : List (κ × ν)) : Insertion κ ν → Prop
  | .rising l r =>
      l.toList = entries.filter (fun e => e.1 < k) ∧ r.toList = entries.filter fun e => k < e.1
  | .placed t =>
      t.toList = entries.filter (fun e => e.1 < k) ++ (k, v) :: entries.filter fun e => k < e.1

theorem insert_splits (priority : Nat) (k : κ) (v : ν) : ∀ {t : Treap κ ν}, t.Sorted →
    (t.insert priority k v).Splits k v t.toList
  | nil, _ => ⟨rfl, rfl⟩
  | node p k' v' l r, hsorted => by
      obtain ⟨hl, hr, hlk, hkr⟩ := sorted_node.mp hsorted
      rw [insert, toList]
      by_cases hlt : k < k'
      · -- the node and its right subtree are above the key
        have hbelow : r.toList.filter (fun e => e.1 < k) = [] :=
          filter_below_eq_nil fun e he => (hlt.trans (hkr e he)).le
        have habove : r.toList.filter (fun e => k < e.1) = r.toList :=
          filter_above_eq_self fun e he => hlt.trans (hkr e he)
        have ih := insert_splits priority k v hl
        rw [if_pos hlt]
        cases hins : l.insert priority k v with
        | rising ll lr => grind [Insertion.Splits, toList]
        | placed l' => grind [Insertion.Splits, toList]
      · by_cases hgt : k' < k
        · have hbelow : l.toList.filter (fun e => e.1 < k) = l.toList :=
            filter_below_eq_self fun e he => (hlk e he).trans hgt
          have habove : l.toList.filter (fun e => k < e.1) = [] :=
            filter_above_eq_nil fun e he => ((hlk e he).trans hgt).le
          have ih := insert_splits priority k v hr
          rw [if_neg hlt, if_pos hgt]
          cases hins : r.insert priority k v with
          | rising rl rr => grind [Insertion.Splits, toList]
          | placed r' => grind [Insertion.Splits, toList]
        · obtain rfl : k = k' := le_antisymm (not_lt.mp hgt) (not_lt.mp hlt)
          rw [if_neg hlt, if_neg hgt]
          simp only [Insertion.Splits, toList, List.filter_append]
          rw [filter_below_eq_self hlk, filter_above_eq_nil fun e he => (hlk e he).le,
            List.filter_cons_of_neg (by simp), List.filter_cons_of_neg (by simp),
            filter_below_eq_nil fun e he => (hkr e he).le, filter_above_eq_self hkr,
            List.append_nil, List.nil_append]

theorem toList_put (priority : Nat) (k : κ) (v : ν) {t : Treap κ ν} (h : t.Sorted) :
    (t.put priority k v).toList =
      t.toList.filter (fun e => e.1 < k) ++ (k, v) :: t.toList.filter fun e => k < e.1 := by
  have hsplits := insert_splits priority k v h
  rw [put]
  cases hins : t.insert priority k v with
  | rising l r =>
    rw [hins] at hsplits
    obtain ⟨hl, hr⟩ := hsplits
    simp only [toList, hl, hr]
  | placed t' =>
    rw [hins] at hsplits
    exact hsplits

theorem toList_delete (k : κ) : ∀ {t : Treap κ ν}, t.Sorted →
    (t.delete k).toList = t.toList.filter fun e => e.1 ≠ k
  | nil, _ => rfl
  | node p k' v l r, h => by
      obtain ⟨hl, hr, hlk, hkr⟩ := sorted_node.mp h
      rw [delete, toList, List.filter_append]
      by_cases hlt : k < k'
      · rw [if_pos hlt, toList, toList_delete k hl, List.filter_cons_of_pos (by simpa using hlt.ne')]
        congr 2
        exact (List.filter_eq_self.mpr fun e he => by simpa using (hlt.trans (hkr e he)).ne').symm
      · by_cases hgt : k' < k
        · rw [if_neg hlt, if_pos hgt, toList, toList_delete k hr,
            List.filter_cons_of_pos (by simpa using hgt.ne)]
          congr 1
          exact (List.filter_eq_self.mpr fun e he => by simpa using ((hlk e he).trans hgt).ne).symm
        · obtain rfl : k = k' := le_antisymm (not_lt.mp hgt) (not_lt.mp hlt)
          rw [if_neg hlt, if_neg hgt, toList_join, List.filter_cons_of_neg (by simp),
            List.filter_eq_self.mpr fun e he => by simpa using (hlk e he).ne,
            List.filter_eq_self.mpr fun e he => by simpa using (hkr e he).ne']

theorem get_eq_some {k : κ} {v : ν} : ∀ {t : Treap κ ν}, t.Sorted →
    (t.get k = some v ↔ (k, v) ∈ t.toList)
  | nil, _ => by simp [get, toList]
  | node p k' v' l r, h => by
      obtain ⟨hl, hr, hlk, hkr⟩ := sorted_node.mp h
      rw [get, toList, List.mem_append, List.mem_cons]
      by_cases hlt : k < k'
      · rw [if_pos hlt, get_eq_some hl]
        constructor
        · exact .inl
        · grind
      · by_cases hgt : k' < k
        · rw [if_neg hlt, if_pos hgt, get_eq_some hr]
          constructor
          · exact fun hmem => .inr (.inr hmem)
          · grind
        · grind

theorem Sorted.put {t : Treap κ ν} (h : t.Sorted) (priority : Nat) (k : κ) (v : ν) :
    (t.put priority k v).Sorted := by
  rw [Sorted, toList_put priority k v h, List.pairwise_append, List.pairwise_cons]
  have hfilter : ∀ {e : κ × ν} {P : κ × ν → Bool}, e ∈ t.toList.filter P → P e = true :=
    fun he => (List.mem_filter.mp he).2
  refine ⟨h.filter _, ⟨fun e he => by simpa using hfilter he, h.filter _⟩, ?_⟩
  intro a ha b hb
  have hak : a.1 < k := by simpa using hfilter ha
  rcases List.mem_cons.mp hb with rfl | hb
  · exact hak
  · exact hak.trans (by simpa using hfilter hb)

theorem Sorted.delete {t : Treap κ ν} (h : t.Sorted) (k : κ) : (t.delete k).Sorted := by
  rw [Sorted, toList_delete k h]
  exact h.filter _

/-! ## Insertions and deletions in a heap -/

section

variable {p : Nat} {k : κ} {t : Treap κ ν}

/-- Deleting the key never chooses between children of different priorities. -/
def DeletesLevel (k : κ) : Treap κ ν → Prop
  | nil => True
  | node _ k' _ l r =>
      if k < k' then l.DeletesLevel k else if k' < k then r.DeletesLevel k else Level l r

theorem RootAbove.delete (hheap : t.HeapOrdered) (h : t.RootAbove p) :
    (t.delete k).RootAbove p := by
  cases t with
  | nil => trivial
  | node q k' v l r =>
    rw [Treap.delete]
    split_ifs
    · exact h
    · exact h
    · exact (hheap.1.mono h).join (hheap.2.1.mono h)

/-- Deleting from a heap leaves a heap exactly if it never chose. -/
theorem heapOrdered_delete : ∀ {t : Treap κ ν}, t.HeapOrdered →
    ((t.delete k).HeapOrdered ↔ t.DeletesLevel k)
  | nil, h => by simpa [delete, DeletesLevel] using h
  | node p k' v l r, h => by
      have hl := h.1.delete (k := k) h.2.2.1
      have hr := h.2.1.delete (k := k) h.2.2.2
      rw [delete, DeletesLevel]
      split_ifs
      · simp [HeapOrdered, hl, h.2.1, h.2.2.2, heapOrdered_delete h.2.2.1]
      · simp [HeapOrdered, hr, h.1, h.2.2.1, heapOrdered_delete h.2.2.2]
      · exact heapOrdered_join h.2.2.1 h.2.2.2

/-- What an insertion into a heap has to keep. -/
def Insertion.Heap (priority : Nat) (t : Treap κ ν) : Insertion κ ν → Prop
  | .rising l r => l.HeapOrdered ∧ r.HeapOrdered ∧ l.RootAbove priority ∧ r.RootAbove priority ∧
      ∀ p, t.RootAbove p → l.RootAbove p ∧ r.RootAbove p
  | .placed t' => t'.HeapOrdered ∧ ∀ p, t.RootAbove p → t'.RootAbove p

theorem insert_heap (priority : Nat) (k : κ) (v : ν) : ∀ {t : Treap κ ν}, t.HeapOrdered →
    (t.insert priority k v).Heap priority t
  | nil, _ => by simp [insert, Insertion.Heap, HeapOrdered, RootAbove]
  | node p k' v' l r, h => by
      have hl := insert_heap priority k v h.2.2.1
      have hr := insert_heap priority k v h.2.2.2
      have hmono : ∀ q ≤ p, l.RootAbove q ∧ r.RootAbove q := fun q hq =>
        ⟨h.1.mono hq, h.2.1.mono hq⟩
      rw [insert]
      split
      case isTrue =>
        cases hins : l.insert priority k v <;> grind [Insertion.Heap, HeapOrdered, RootAbove]
      case isFalse =>
        split
        case isTrue =>
          cases hins : r.insert priority k v <;> grind [Insertion.Heap, HeapOrdered, RootAbove]
        case isFalse => exact ⟨h, fun _ hp => hp⟩

theorem HeapOrdered.put (h : t.HeapOrdered) (priority : Nat) (k : κ) (v : ν) :
    (t.put priority k v).HeapOrdered := by
  have hins := insert_heap priority k v h
  rw [Treap.put]
  cases hi : t.insert priority k v with
  | rising l r =>
    rw [hi] at hins
    exact ⟨hins.2.2.1, hins.2.2.2.1, hins.1, hins.2.1⟩
  | placed t' =>
    rw [hi] at hins
    exact hins.1

end

end Treap

/-! ## Maps -/

variable [LinearOrder κ]

/-- A treap with its keys in order. -/
structure TreapMap (κ ν : Type) [LinearOrder κ] where
  tree   : Treap κ ν
  sorted : tree.Sorted

namespace TreapMap

def empty : TreapMap κ ν := ⟨.nil, List.Pairwise.nil⟩

def get (t : TreapMap κ ν) (k : κ) : Option ν := t.tree.get k

def has (t : TreapMap κ ν) (k : κ) : Bool := (t.get k).isSome

def put (priority : Nat) (k : κ) (v : ν) (t : TreapMap κ ν) : TreapMap κ ν :=
  ⟨t.tree.put priority k v, t.sorted.put priority k v⟩

def delete (k : κ) (t : TreapMap κ ν) : TreapMap κ ν := ⟨t.tree.delete k, t.sorted.delete k⟩

/-- The entries as an iteration in ascending order visits them. -/
def entries (t : TreapMap κ ν) : List (κ × ν) := t.tree.toList

def len (t : TreapMap κ ν) : Nat := t.entries.length

theorem get_eq_some {t : TreapMap κ ν} {k : κ} {v : ν} : t.get k = some v ↔ (k, v) ∈ t.entries :=
  Treap.get_eq_some t.sorted

@[simp] theorem get_empty (k : κ) : (empty : TreapMap κ ν).get k = none := rfl

theorem get_put (t : TreapMap κ ν) (priority : Nat) (k k' : κ) (v : ν) :
    (t.put priority k v).get k' = if k' = k then some v else t.get k' := by
  ext w
  rw [get_eq_some, put, entries, Treap.toList_put priority k v t.sorted]
  split
  case isTrue heq =>
    subst heq
    simp [eq_comm]
  case isFalse hne => grind [get_eq_some, entries]

theorem get_delete (t : TreapMap κ ν) (k k' : κ) :
    (t.delete k).get k' = if k' = k then none else t.get k' := by
  ext w
  rw [get_eq_some, delete, entries, Treap.toList_delete k t.sorted]
  split
  case isTrue heq =>
    subst heq
    simp
  case isFalse hne =>
    rw [get_eq_some]
    simp [hne, entries]

theorem nodup_keys (t : TreapMap κ ν) : (t.entries.map Prod.fst).Nodup := by
  rw [List.Nodup, List.pairwise_map]
  exact t.sorted.imp fun h => h.ne

/-- A loop over the entries that sets each key of them sets the keys of the map
and no others. -/
theorem foldl_entries {μ ω : Type} (look : μ → κ → Option ω) {update : μ → κ × ν → μ}
    (value : κ × ν → Option ω)
    (hupdate : ∀ m e k, look (update m e) k = if k = e.1 then value e else look m k)
    (t : TreapMap κ ν) (m : μ) (k : κ) :
    look (t.entries.foldl update m) k = match t.get k with
      | some v => value (k, v)
      | none => look m k := by
  have hout : ∀ (l : List (κ × ν)) (m : μ), k ∉ l.map Prod.fst →
      look (l.foldl update m) k = look m k := by
    intro l
    induction l with
    | nil => intro m _; rfl
    | cons e l ih => grind
  have hin : ∀ (l : List (κ × ν)) (m : μ) (v : ν), (l.map Prod.fst).Nodup → (k, v) ∈ l →
      look (l.foldl update m) k = value (k, v) := by
    intro l
    induction l with
    | nil => intro m v _ hmem; exact absurd hmem List.not_mem_nil
    | cons e l ih => grind
  cases hget : t.get k with
  | some v => exact hin _ m v t.nodup_keys (get_eq_some.mp hget)
  | none =>
    refine hout _ m ?_
    rw [List.mem_map]
    rintro ⟨⟨k', v⟩, hmem, rfl⟩
    rw [get_eq_some.mpr hmem] at hget
    cases hget

theorem get_eq_none_of_len {t : TreapMap κ ν} (h : t.len = 0) (k : κ) : t.get k = none := by
  have hnil : t.entries = [] := List.length_eq_zero_iff.mp h
  rw [Option.eq_none_iff_forall_not_mem]
  intro v hv
  have := get_eq_some.mp hv
  rw [hnil] at this
  exact absurd this List.not_mem_nil

end TreapMap

end FalconDraw.Lib
