/-
FalconDraw.Lib.Levels — a list kept in levels.

A long list is stored as a few pieces, its levels: the oldest entries in the
highest level, the newest in level 0. `span` reads levels as the list they stand
for.
-/
import FalconDraw.Lib.Bucket
import Mathlib.Tactic.Ring

namespace FalconDraw.Lib

/-- The pieces of a list by level. -/
abbrev Levels (α : Type) := Bucket Nat (List α)

namespace Levels

variable {α : Type} {ls ls' : Levels α} {lo m n k : Nat} {c : Nat}
variable {d : List α}

/-- The entries of a level, none for a level that is not there. -/
def data (ls : Levels α) (k : Nat) : List α := (ls.get k).getD []

/-- The entries of the `n` levels from `lo` on, oldest first. -/
def span (ls : Levels α) (lo : Nat) : Nat → List α
  | 0 => []
  | n + 1 => ls.data (lo + n) ++ ls.span lo n

@[grind =]
theorem data_put (ls : Levels α) (k k' : Nat) (d : List α) :
    data (ls.put k d) k' = if k' = k then d else ls.data k' := by
  rw [data, Bucket.get_put]
  split
  · rfl
  · rfl

@[simp] theorem data_put_self (ls : Levels α) (k : Nat) (d : List α) : data (ls.put k d) k = d := by
  rw [data_put, if_pos rfl]

theorem data_put_of_ne (ls : Levels α) {k k' : Nat} (d : List α) (h : k' ≠ k) :
    data (ls.put k d) k' = ls.data k' := by
  rw [data_put, if_neg h]

@[grind →]
theorem data_of_none (h : ls.get k = none) : ls.data k = [] := by
  rw [data, h]
  rfl

theorem span_congr (h : ∀ k, lo ≤ k → k < lo + n → ls.data k = ls'.data k) :
    ls.span lo n = ls'.span lo n := by
  induction n with
  | zero => rfl
  | succ n ih => grind [span]

theorem span_add (ls : Levels α) (lo m n : Nat) :
    ls.span lo (m + n) = ls.span (lo + m) n ++ ls.span lo m := by
  induction n with
  | zero => rfl
  | succ n ih =>
    rw [← Nat.add_assoc, span, span, ih, ← Nat.add_assoc, List.append_assoc]

theorem span_one (ls : Levels α) (lo : Nat) : ls.span lo 1 = ls.data lo := by
  rw [span, span, List.append_nil, Nat.add_zero]

theorem span_of_empty (h : ∀ k, lo ≤ k → k < lo + n → ls.data k = []) : ls.span lo n = [] := by
  induction n with
  | zero => rfl
  | succ n ih => grind [span]

theorem span_split (ls : Levels α) (h : k < n) :
    ls.span 0 n = ls.span (k + 1) (n - (k + 1)) ++ (ls.data k ++ ls.span 0 k) := by
  have hsum : n = (k + 1) + (n - (k + 1)) := by omega
  calc ls.span 0 n = ls.span 0 ((k + 1) + (n - (k + 1))) := by rw [← hsum]
    _ = ls.span (k + 1) (n - (k + 1)) ++ ls.span 0 (k + 1) := by rw [span_add, Nat.zero_add]
    _ = _ := by rw [span, Nat.zero_add]

/-! ## The shape of the levels -/

def cap (c k : Nat) : Nat := c * 2 ^ k

@[grind =]
theorem cap_zero (c : Nat) : cap c 0 = c := Nat.mul_one c

@[grind =]
theorem cap_succ (c k : Nat) : cap c (k + 1) = 2 * cap c k := by
  unfold cap
  ring

theorem le_cap (c k : Nat) : c ≤ cap c k := by
  induction k with
  | zero => exact (cap_zero c).ge
  | succ k ih =>
    rw [cap_succ]
    omega

/-- A used level: level 0 with some entries, a higher one half full or full. -/
def Ok (c : Nat) : Nat → List α → Prop
  | 0, d => 1 ≤ d.length ∧ d.length ≤ c
  | k + 1, d => d.length = cap c k ∨ d.length = cap c (k + 1)

theorem Ok.ne_nil (hc : 0 < c) (h : Ok c k d) : d ≠ [] := by
  cases k with
  | zero => grind [Ok]
  | succ k =>
    have := le_cap c k
    grind [Ok]

theorem Ok.length_le (h : Ok c k d) : d.length ≤ cap c k := by
  cases k with
  | zero => grind [Ok]
  | succ k => grind [Ok]

theorem ok_succ_of_full (h : d.length = cap c k) : Ok c (k + 1) d := .inl h

theorem ok_of_full (hc : 0 < c) (h : d.length = cap c k) : Ok c k d := by
  cases k with
  | zero => grind [Ok]
  | succ k => exact .inr h

/-- The first `n` levels are in use and the others are not. -/
structure Filled (c : Nat) (ls : Levels α) (n : Nat) : Prop where
  used : ∀ k < n, Ok c k (ls.data k)
  unused : ∀ k, n ≤ k → ls.get k = none

theorem Filled.data_eq_nil_iff (hc : 0 < c) (h : Filled c ls n) : ls.data k = [] ↔ n ≤ k := by
  constructor
  · intro hnil
    by_contra hlt
    exact (h.used k (Nat.lt_of_not_le hlt)).ne_nil hc hnil
  · exact fun hle => data_of_none (h.unused k hle)

theorem filled_empty (c : Nat) : Filled c (Bucket.empty : Levels α) 0 :=
  ⟨fun k hk => absurd hk (Nat.not_lt_zero k), fun _ _ => rfl⟩

theorem Filled.length_ge (h : Filled c ls (n + 1)) : cap c n < (ls.span 0 (n + 1)).length + c := by
  have hmin : ∀ m, m ≤ n → cap c m < (ls.span 0 (m + 1)).length + c := by
    intro m
    induction m with
    | zero =>
      intro _
      have := (h.used 0 (Nat.succ_pos n)).1
      rw [span_one, cap_zero]
      omega
    | succ m ih =>
      intro hm
      have hbefore := ih (by omega)
      have hsucc := cap_succ c m
      have hlevel := h.used (m + 1) (by omega)
      rw [span, List.length_append, Nat.zero_add]
      rcases hlevel with hlen | hlen <;> omega
  exact hmin n (Nat.le_refl n)

end Levels

end FalconDraw.Lib
