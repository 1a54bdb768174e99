/-
FalconDraw.Lib.Keyed — finite maps whose values know their own key.

A program that files its objects under their ids keeps a map from ids to objects
in which every object stands under its own id.
-/
import Mathlib.Data.List.Induction
import Mathlib.Data.List.Nodup
import Mathlib.Data.List.Count
import Mathlib.Algebra.Ring.Nat

namespace FalconDraw.Lib

structure Keyed {κ ν : Type} (key : ν → κ) where
  entries : List ν
  nodup   : (entries.map key).Nodup

namespace Keyed

variable {κ ν : Type} {key : ν → κ}
variable {m : Keyed key} {v : ν}

instance : Membership ν (Keyed key) := ⟨fun m v => v ∈ m.entries⟩

theorem mem_entries : v ∈ m.entries ↔ v ∈ m := Iff.rfl

def empty : Keyed key := ⟨[], List.nodup_nil⟩

@[simp, grind .] theorem not_mem_empty (v : ν) : v ∉ (empty : Keyed key) := List.not_mem_nil

def size (m : Keyed key) : Nat := m.entries.length

theorem not_mem_of_size_eq_zero (h : m.size = 0) (v : ν) : v ∉ m := by
  rw [← mem_entries, List.length_eq_zero_iff.mp h]
  exact List.not_mem_nil

def count (m : Keyed key) (p : ν → Bool) : Nat := m.entries.countP p

theorem eq_of_key_eq (m : Keyed key) {w : ν} (hv : v ∈ m) (hw : w ∈ m) (h : key v = key w) :
    v = w :=
  List.inj_on_of_nodup_map m.nodup hv hw h

variable [DecidableEq κ]

def find? (m : Keyed key) (k : κ) : Option ν := m.entries.find? fun v => key v = k

def erase (m : Keyed key) (k : κ) : Keyed key :=
  ⟨m.entries.filter fun v => key v ≠ k, m.nodup.sublist (List.filter_sublist.map key)⟩

@[grind =]
theorem mem_erase {k : κ} : v ∈ m.erase k ↔ v ∈ m ∧ key v ≠ k := by
  rw [← mem_entries, erase, List.mem_filter, mem_entries, decide_eq_true_eq]

def insert (m : Keyed key) (v : ν) : Keyed key :=
  ⟨v :: (m.erase (key v)).entries, by
    rw [List.map_cons, List.nodup_cons]
    refine ⟨fun h => ?_, (m.erase (key v)).nodup⟩
    obtain ⟨w, hw, hkey⟩ := List.mem_map.mp h
    exact (mem_erase.mp hw).2 hkey⟩

@[grind =]
theorem mem_insert {w : ν} : w ∈ m.insert v ↔ w = v ∨ w ∈ m ∧ key w ≠ key v := by
  rw [← mem_entries, insert, List.mem_cons, mem_entries, mem_erase]

/-- The map with these values, later ones taking precedence. -/
def ofList (vs : List ν) : Keyed key := vs.foldl insert empty

theorem mem_of_mem_ofList {vs : List ν} {w : ν} (h : w ∈ (ofList vs : Keyed key)) : w ∈ vs := by
  induction vs using List.reverseRecOn with
  | nil => exact absurd h (not_mem_empty w)
  | append_singleton vs v ih => grind [ofList]

theorem exists_mem_ofList {vs : List ν} (h : v ∈ vs) :
    ∃ w ∈ (ofList vs : Keyed key), key w = key v := by
  induction vs using List.reverseRecOn with
  | nil => exact absurd h List.not_mem_nil
  | append_singleton vs u ih => grind [ofList]

@[grind =]
theorem find?_eq_some {k : κ} : m.find? k = some v ↔ v ∈ m ∧ key v = k := by
  constructor
  · intro h
    exact ⟨List.mem_of_find?_eq_some h, by simpa using List.find?_some h⟩
  · rintro ⟨hv, rfl⟩
    cases hfound : m.find? (key v) with
    | none =>
      have hnot := List.find?_eq_none.mp hfound v hv
      simp at hnot
    | some w =>
      have hkey : key w = key v := by simpa using List.find?_some hfound
      rw [m.eq_of_key_eq (List.mem_of_find?_eq_some hfound) hv hkey]

@[grind =]
theorem find?_eq_none {k : κ} : m.find? k = none ↔ ∀ v ∈ m, key v ≠ k := by
  simp only [find?, List.find?_eq_none, decide_eq_true_eq]
  exact Iff.rfl

/-! ## Counting -/

theorem count_erase_of_none {k : κ} (h : m.find? k = none) (p : ν → Bool) :
    (m.erase k).count p = m.count p := by
  have hall : m.entries.filter (fun v => decide (key v ≠ k)) = m.entries :=
    List.filter_eq_self.mpr fun v hv => decide_eq_true (find?_eq_none.mp h v hv)
  exact congrArg (List.countP p) hall

theorem count_insert (h : m.find? (key v) = none) (p : ν → Bool) :
    (m.insert v).count p = m.count p + if p v then 1 else 0 := by
  rw [count, insert, List.countP_cons, ← count, count_erase_of_none h]

/-- Erasing a value takes it from the count. -/
theorem count_erase (hv : v ∈ m) (p : ν → Bool) :
    (m.erase (key v)).count p + (if p v then 1 else 0) = m.count p := by
  have hnone : (m.erase (key v)).find? (key v) = none :=
    find?_eq_none.mpr fun w hw => (mem_erase.mp hw).2
  rw [← count_insert hnone]
  -- putting it back gives the same values
  refine ((List.perm_ext_iff_of_nodup (.of_map key (insert _ v).nodup)
    (.of_map key m.nodup)).mpr fun w => ?_).countP_eq p
  rw [mem_entries, mem_entries, mem_insert, mem_erase]
  have huniq := fun hw => m.eq_of_key_eq (v := w) hw hv
  grind

end Keyed

end FalconDraw.Lib
