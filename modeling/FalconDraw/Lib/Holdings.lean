/-
FalconDraw.Lib.Holdings — how much a map can hold.

Values have a worth. A map over infinitely many keys has no total, but a bound on
what any finitely many of its keys hold together is as good: writing a value raises
it by the value's worth, deleting one lowers it by as much.
-/
import Mathlib.Algebra.BigOperators.Group.Finset.Basic
import Mathlib.Algebra.Order.BigOperators.Group.Finset
import FalconDraw.Lib.Bucket

namespace FalconDraw.Lib.Bucket

open Finset

variable {κ ν : Type} {worth : ν → ℤ} {b : Bucket κ ν} {B : ℤ} {k : κ} {v : ν}

/-- The worth of what is under a key, zero where nothing is. -/
def worthAt (worth : ν → ℤ) (b : Bucket κ ν) (k : κ) : ℤ := ((b.get k).map worth).getD 0

/-- No finitely many keys hold more than `B`. -/
def HoldsAtMost (worth : ν → ℤ) (b : Bucket κ ν) (B : ℤ) : Prop :=
  ∀ S : Finset κ, ∑ k ∈ S, b.worthAt worth k ≤ B

namespace HoldsAtMost

theorem empty : (Bucket.empty : Bucket κ ν).HoldsAtMost worth 0 :=
  fun _ => (sum_eq_zero fun _ _ => rfl).le

theorem mono (h : b.HoldsAtMost worth B) {B' : ℤ} (hB : B ≤ B') : b.HoldsAtMost worth B' :=
  fun S => (h S).trans hB

variable [DecidableEq κ]

theorem put (h : b.HoldsAtMost worth B) (k : κ) (v : ν) (hv : 0 ≤ worth v) :
    (b.put k v).HoldsAtMost worth (B + worth v) := by
  intro S
  have hrest : ∑ k' ∈ S.erase k, (b.put k v).worthAt worth k' ≤ B := by
    refine (sum_congr rfl fun k' hk' => ?_).trans_le (h (S.erase k))
    rw [worthAt, get_put_of_ne _ _ (ne_of_mem_erase hk'), worthAt]
  by_cases hk : k ∈ S
  · have hself : (b.put k v).worthAt worth k = worth v := by simp [worthAt]
    rw [← sum_erase_add _ _ hk, hself]
    omega
  · rw [erase_eq_of_notMem hk] at hrest
    omega

theorem sum_delete (S : Finset κ) :
    ∑ k' ∈ S, (b.delete k).worthAt worth k' = ∑ k' ∈ S.erase k, b.worthAt worth k' := by
  rw [← sum_erase S (a := k) (by simp [worthAt])]
  refine sum_congr rfl fun k' hk' => ?_
  rw [worthAt, get_delete_of_ne _ (ne_of_mem_erase hk'), worthAt]

theorem delete (h : b.HoldsAtMost worth B) (k : κ) : (b.delete k).HoldsAtMost worth B :=
  fun S => (sum_delete S).trans_le (h _)

theorem delete_some (h : b.HoldsAtMost worth B) (hk : b.get k = some v) :
    (b.delete k).HoldsAtMost worth (B - worth v) := by
  intro S
  have hall := h (insert k (S.erase k))
  have hself : b.worthAt worth k = worth v := by simp [worthAt, hk]
  rw [sum_insert (notMem_erase k S), hself] at hall
  rw [sum_delete]
  omega

end HoldsAtMost

end FalconDraw.Lib.Bucket
