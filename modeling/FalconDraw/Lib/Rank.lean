/-
FalconDraw.Lib.Rank — order statistics of a list.

The element at index `k` of the sorted list is at least `v` exactly when at most
`k` elements are below `v`.
-/
import Mathlib.Order.Lattice
import Mathlib.Data.List.Sort
import Mathlib.Data.List.Count

namespace FalconDraw.Lib

variable {α : Type*} [LinearOrder α]

/-- The upper one of the two middle values, or the middle one. -/
def upperMedian (l : List α) : Option α := (l.insertionSort (· ≤ ·))[l.length / 2]?

theorem countP_lt_drop {s : List α} (hs : s.Pairwise (· ≤ ·)) {k : Nat} (hk : k < s.length) {v : α}
    (h : v ≤ s[k]) : (s.drop k).countP (· < v) = 0 := by
  rw [List.countP_eq_zero]
  intro x hx
  obtain ⟨i, hi, rfl⟩ := List.getElem_of_mem hx
  have hki : k + i < s.length := by
    rw [List.length_drop] at hi
    omega
  have hle : s[k] ≤ s[k + i] := by
    rcases Nat.eq_zero_or_pos i with rfl | hpos
    · exact le_rfl
    · exact List.pairwise_iff_getElem.mp hs k (k + i) hk hki (by omega)
  rw [List.getElem_drop]
  simpa using h.trans hle

theorem le_getElem_iff {s : List α} (hs : s.Pairwise (· ≤ ·)) {k : Nat} (hk : k < s.length)
    (v : α) : v ≤ s[k] ↔ s.countP (· < v) ≤ k := by
  constructor
  · intro h
    have hsplit : s.countP (· < v) = (s.take k).countP (· < v) + (s.drop k).countP (· < v) := by
      rw [← List.countP_append, List.take_append_drop]
    have htake : (s.take k).countP (· < v) ≤ (s.take k).length := List.countP_le_length
    rw [countP_lt_drop hs hk h] at hsplit
    rw [List.length_take] at htake
    omega
  · intro hcount
    by_contra hlt
    -- the first `k + 1` elements are all below `v`
    have hall : ∀ x ∈ s.take (k + 1), decide (x < v) = true := by
      intro x hx
      obtain ⟨i, hi, rfl⟩ := List.getElem_of_mem hx
      rw [List.length_take] at hi
      have hle : s[i] ≤ s[k] := by
        rcases Nat.lt_or_ge i k with hik | hik
        · exact List.pairwise_iff_getElem.mp hs i k (by omega) hk hik
        · have : i = k := by omega
          subst this
          exact le_rfl
      rw [List.getElem_take]
      exact decide_eq_true (hle.trans_lt (not_le.mp hlt))
    have htake : (s.take (k + 1)).countP (· < v) = k + 1 := by
      rw [List.countP_eq_length.mpr hall, List.length_take]
      omega
    have hsub : (s.take (k + 1)).countP (· < v) ≤ s.countP (· < v) :=
      (List.take_sublist (k + 1) s).countP_le
    omega

theorem le_upperMedian_iff {l : List α} {m : α} (h : upperMedian l = some m) (v : α) :
    v ≤ m ↔ l.countP (· < v) ≤ l.length / 2 := by
  obtain ⟨hk, rfl⟩ := List.getElem?_eq_some_iff.mp h
  rw [le_getElem_iff (List.pairwise_insertionSort (· ≤ ·) l) hk,
    (List.perm_insertionSort (· ≤ ·) l).countP_eq]

theorem exists_upperMedian {l : List α} (h : l ≠ []) : ∃ m, upperMedian l = some m := by
  have hpos := List.length_pos_of_ne_nil h
  exact ⟨_, List.getElem?_eq_getElem (by rw [List.length_insertionSort]; omega)⟩

/-- A longer list with no more elements below the median has no smaller median. -/
theorem upperMedian_mono {l l' : List α} {m m' : α} (h : upperMedian l = some m)
    (h' : upperMedian l' = some m') (hlen : l.length ≤ l'.length)
    (hcount : l'.countP (· < m) ≤ l.countP (· < m)) : m ≤ m' := by
  have hrank := (le_upperMedian_iff h m).mp le_rfl
  exact (le_upperMedian_iff h' m).mpr (by omega)

end FalconDraw.Lib
