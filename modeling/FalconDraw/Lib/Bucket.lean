/-
FalconDraw.Lib.Bucket — key-value maps as the store and the node's in-memory
maps present them.

`Bucket κ ν` is a database bucket or a Go map: a key is either absent or bound to
one value.
-/
import Mathlib.Logic.Function.Basic
import Mathlib.Data.List.Basic

namespace FalconDraw.Lib

def Bucket (κ ν : Type) := κ → Option ν

namespace Bucket

variable {κ ν : Type}

def empty : Bucket κ ν := fun _ => none

def get (b : Bucket κ ν) (k : κ) : Option ν := b k

@[ext] theorem ext {b c : Bucket κ ν} (h : ∀ k, b.get k = c.get k) : b = c := funext h

@[simp, grind =] theorem get_empty (k : κ) : (empty : Bucket κ ν).get k = none := rfl

variable [DecidableEq κ]

def put (b : Bucket κ ν) (k : κ) (v : ν) : Bucket κ ν :=
  fun k' => if k' = k then some v else b k'

def delete (b : Bucket κ ν) (k : κ) : Bucket κ ν :=
  fun k' => if k' = k then none else b k'

@[grind =]
theorem get_put (b : Bucket κ ν) (k k' : κ) (v : ν) :
    (b.put k v).get k' = if k' = k then some v else b.get k' := rfl

@[grind =]
theorem get_delete (b : Bucket κ ν) (k k' : κ) :
    (b.delete k).get k' = if k' = k then none else b.get k' := rfl

@[simp] theorem get_put_self (b : Bucket κ ν) (k : κ) (v : ν) : (b.put k v).get k = some v := by
  simp [get_put]

theorem get_put_of_ne (b : Bucket κ ν) {k k' : κ} (v : ν) (h : k' ≠ k) :
    (b.put k v).get k' = b.get k' := by
  simp [get_put, h]

@[simp] theorem get_delete_self (b : Bucket κ ν) (k : κ) : (b.delete k).get k = none := by
  simp [get_delete]

theorem get_delete_of_ne (b : Bucket κ ν) {k k' : κ} (h : k' ≠ k) :
    (b.delete k).get k' = b.get k' := by
  simp [get_delete, h]

theorem delete_of_none (b : Bucket κ ν) {k : κ} (h : b.get k = none) : b.delete k = b := by
  ext1 k'
  grind

theorem put_eq_self_iff (b : Bucket κ ν) (k : κ) (v : ν) : b.put k v = b ↔ b.get k = some v := by
  constructor
  · intro h
    rw [← h, get_put_self]
  · intro h
    ext1 k'
    grind

/-- Deleting a key that was absent before it was written restores the bucket. -/
theorem delete_put (b : Bucket κ ν) {k : κ} (v : ν) (h : b.get k = none) :
    (b.put k v).delete k = b := by
  ext1 k'
  grind

end Bucket

/-! ## Rows under one prefix, in key order -/

abbrev Rows (κ ν : Type) := List (κ × ν)

namespace Rows

variable {κ ν : Type} [DecidableEq κ] [LT κ] [DecidableLT κ]

def put (k : κ) (v : ν) : Rows κ ν → Rows κ ν
  | [] => [(k, v)]
  | (k', v') :: rows =>
      if k = k' then (k, v) :: rows
      else if k < k' then (k, v) :: (k', v') :: rows
      else (k', v') :: put k v rows

def delete (k : κ) (rows : Rows κ ν) : Rows κ ν := rows.filter fun r => r.1 ≠ k

theorem mem_put {k : κ} {v : ν} {r : κ × ν} :
    ∀ {rows : Rows κ ν}, r ∈ put k v rows → r = (k, v) ∨ r ∈ rows
  | [], h => by simpa [put] using h
  | (k', v') :: rows, h => by
      have ih := @mem_put k v r rows
      grind [put]

/-- A row with a new key is added to the others, whatever place it takes. -/
theorem put_perm (k : κ) (v : ν) :
    ∀ {rows : Rows κ ν}, (∀ r ∈ rows, r.1 ≠ k) → (put k v rows).Perm ((k, v) :: rows)
  | [], _ => List.Perm.refl _
  | (k', v') :: rows, h => by
      have hne : k ≠ k' := fun e => h (k', v') List.mem_cons_self e.symm
      have ih := put_perm k v fun r hr => h r (List.mem_cons_of_mem (k', v') hr)
      simp only [put, if_neg hne]
      split
      · exact List.Perm.refl _
      · exact (List.Perm.cons _ ih).trans (List.Perm.swap _ _ _)

end Rows

end FalconDraw.Lib
