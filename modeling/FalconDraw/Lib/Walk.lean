/-
FalconDraw.Lib.Walk — collecting everything below a point, to a bounded depth.

`walk next depth a` lists what lies below `a`: its successors, what lies below
each of them, and so on. It recurses at most `depth` deep and has no result when
that does not suffice.
-/
import FalconDraw.Lib.Bucket
import Mathlib.Logic.Relation

namespace FalconDraw.Lib

variable {α : Type}

/-- The points of the list, each followed by what a walk from it finds. -/
def walkList (walk : α → Option (List α)) : List α → Option (List α)
  | [] => some []
  | a :: as => do
      let below ← walk a
      let rest ← walkList walk as
      return a :: (below ++ rest)

def walk (next : α → List α) : Nat → α → Option (List α)
  | 0, _ => none
  | depth + 1, a => walkList (walk next depth) (next a)

theorem mem_walkList {w : α → Option (List α)} {as bs : List α} (h : walkList w as = some bs)
    {b : α} : b ∈ bs ↔ ∃ a ∈ as, ∃ below, w a = some below ∧ (b = a ∨ b ∈ below) := by
  induction as generalizing bs with
  | nil =>
    obtain rfl := Option.some.inj h
    simp
  | cons a as ih =>
    obtain ⟨below, ha, h⟩ := Option.bind_eq_some_iff.mp h
    obtain ⟨rest, hrest, h⟩ := Option.bind_eq_some_iff.mp h
    obtain rfl := Option.some.inj h
    rw [List.mem_cons, List.mem_append, ih hrest]
    simp [ha, or_assoc]

theorem walkList_walked {w : α → Option (List α)} {as bs : List α} (h : walkList w as = some bs)
    {a : α} (ha : a ∈ as) : ∃ below, w a = some below := by
  induction as generalizing bs with
  | nil => exact absurd ha List.not_mem_nil
  | cons c as ih =>
    obtain ⟨below, hc, h⟩ := Option.bind_eq_some_iff.mp h
    obtain ⟨rest, hrest, _⟩ := Option.bind_eq_some_iff.mp h
    rcases List.mem_cons.mp ha with rfl | ha
    · exact ⟨below, hc⟩
    · exact ih hrest ha

variable {next : α → List α}

/-- A walk lists exactly what can be reached in one step or more. -/
theorem mem_walk {depth : Nat} {a : α} {bs : List α} (h : walk next depth a = some bs) {b : α} :
    b ∈ bs ↔ Relation.TransGen (fun x y => y ∈ next x) a b := by
  induction depth generalizing a bs with
  | zero => cases h
  | succ depth ih =>
    rw [mem_walkList h]
    constructor
    · rintro ⟨c, hc, below, hwalk, rfl | hb⟩
      · exact .single hc
      · exact .head hc ((ih hwalk).mp hb)
    · intro hreach
      rcases Relation.TransGen.head'_iff.mp hreach with ⟨c, hc, hrest⟩
      obtain ⟨below, hwalk⟩ := walkList_walked h hc
      refine ⟨c, hc, below, hwalk, ?_⟩
      rcases Relation.reflTransGen_iff_eq_or_transGen.mp hrest with rfl | hrest
      · exact Or.inl rfl
      · exact Or.inr ((ih hwalk).mpr hrest)

/-! ## Walks with a cache -/

section Cached

variable {κ : Type} [DecidableEq κ] (key : α → κ)

variable {key} {P : α → Prop}

section

variable (hkey : ∀ a b, P a → P b → key a = key b → a = b)
include hkey

variable (hnext : ∀ a, P a → ∀ b ∈ next a, P b)
include hnext

end

end Cached

end FalconDraw.Lib
