/-
FalconDraw.Lib.Segments — segments laid end to end.

A list of owners with lengths is a tape: the first owner has the positions from 0
on, each next one those behind it.
-/
import Mathlib.Algebra.Ring.Nat
import Mathlib.Algebra.Order.BigOperators.Group.List
import Mathlib.Algebra.Order.Group.Nat
import Mathlib.Algebra.BigOperators.Group.Finset.Piecewise
import Mathlib.Data.List.Induction

namespace FalconDraw.Lib

variable {α : Type}

def tapeLength (tape : List (α × Nat)) : Nat := (tape.map Prod.snd).sum

@[simp] theorem tapeLength_nil : tapeLength ([] : List (α × Nat)) = 0 := rfl

@[simp] theorem tapeLength_cons (s : α × Nat) (tape : List (α × Nat)) :
    tapeLength (s :: tape) = s.2 + tapeLength tape := by
  simp [tapeLength]

@[simp] theorem tapeLength_append (tape tape' : List (α × Nat)) :
    tapeLength (tape ++ tape') = tapeLength tape + tapeLength tape' := by
  simp [tapeLength]

def ownerAt : List (α × Nat) → Nat → Option α
  | [], _ => none
  | (a, n) :: rest, p => if p < n then some a else ownerAt rest (p - n)

theorem ownerAt_eq_some {a : α} : ∀ {tape : List (α × Nat)} {p : Nat}, ownerAt tape p = some a ↔
      ∃ before n behind, tape = before ++ (a, n) :: behind ∧ tapeLength before ≤ p ∧
        p < tapeLength before + n
  | [], p => by simp [ownerAt]
  | (b, m) :: rest, p => by
      rw [ownerAt]
      split
      case isTrue hlt =>
        constructor
        · rintro ⟨⟩
          exact ⟨[], m, rest, rfl, Nat.zero_le _, by simpa using hlt⟩
        · rintro ⟨before, n, behind, htape, hle, _⟩
          cases before with
          | nil =>
            cases htape
            rfl
          | cons s before =>
            -- a segment further on starts behind the first one
            cases htape
            rw [tapeLength_cons] at hle
            exact absurd hlt (by omega)
      case isFalse hge =>
        rw [ownerAt_eq_some]
        constructor
        · rintro ⟨before, n, behind, rfl, hle, hlt⟩
          refine ⟨(b, m) :: before, n, behind, rfl, ?_, ?_⟩ <;> rw [tapeLength_cons] <;> omega
        · rintro ⟨before, n, behind, htape, hle, hlt⟩
          cases before with
          | nil =>
            cases htape
            exact absurd hlt (by simpa using hge)
          | cons s before => grind [tapeLength_cons]

/-- The positions of the tape are those below its length. -/
theorem ownerAt_ne_none : ∀ {tape : List (α × Nat)} {p : Nat},
    ownerAt tape p ≠ none ↔ p < tapeLength tape
  | [], p => by simp [ownerAt]
  | (a, n) :: rest, p => by
      rw [ownerAt, tapeLength_cons]
      split
      case isTrue hlt =>
        simp only [ne_eq, reduceCtorEq, not_false_eq_true, true_iff]
        omega
      case isFalse hge =>
        rw [ownerAt_ne_none]
        omega

theorem ownerAt_eq_none {tape : List (α × Nat)} {p : Nat} :
    ownerAt tape p = none ↔ tapeLength tape ≤ p := by
  rw [← not_lt, ← ownerAt_ne_none, not_not]

/-! ## Gathering the segments of an owner -/

variable [DecidableEq α]

/-- Lengthen the owner's segment, or give it one at the end. -/
def addSegment (a : α) (n : Nat) : List (α × Nat) → List (α × Nat)
  | [] => [(a, n)]
  | (b, m) :: rest => if b = a then (b, m + n) :: rest else (b, m) :: addSegment a n rest

/-- One segment for each owner, in the order of first appearance. -/
def gather (tape : List (α × Nat)) : List (α × Nat) :=
  tape.foldl (fun gathered s => addSegment s.1 s.2 gathered) []

def ownedLength (a : α) (tape : List (α × Nat)) : Nat :=
  tapeLength (tape.filter fun s => s.1 = a)

section

variable {a b : α} {n : Nat} {tape : List (α × Nat)}

theorem gather_append_singleton (tape : List (α × Nat)) (s : α × Nat) :
    gather (tape ++ [s]) = addSegment s.1 s.2 (gather tape) := by
  rw [gather, List.foldl_append]
  rfl

theorem mem_owners_addSegment :
    b ∈ (addSegment a n tape).map Prod.fst ↔ b ∈ tape.map Prod.fst ∨ b = a := by
  induction tape with
  | nil => simp [addSegment]
  | cons s tape ih => grind [addSegment]

theorem nodup_owners_addSegment (h : (tape.map Prod.fst).Nodup) :
    ((addSegment a n tape).map Prod.fst).Nodup := by
  induction tape with
  | nil => simp [addSegment]
  | cons s tape ih =>
    obtain ⟨c, m⟩ := s
    obtain ⟨hc, h⟩ := List.nodup_cons.mp h
    rw [addSegment]
    split
    · exact List.nodup_cons.mpr ⟨hc, h⟩
    case isFalse hne =>
      refine List.nodup_cons.mpr ⟨?_, ih h⟩
      intro hmem
      rcases mem_owners_addSegment.mp hmem with hmem | heq
      · exact hc hmem
      · exact hne heq

@[simp] theorem tapeLength_addSegment : tapeLength (addSegment a n tape) = tapeLength tape + n := by
  induction tape with
  | nil => simp [addSegment]
  | cons s tape ih => grind [addSegment, tapeLength_cons]

theorem ownedLength_addSegment :
    ownedLength b (addSegment a n tape) = ownedLength b tape + if a = b then n else 0 := by
  induction tape with
  | nil => by_cases h : a = b <;> simp [addSegment, ownedLength, h]
  | cons s tape ih =>
    obtain ⟨c, m⟩ := s
    rw [addSegment]
    split
    case isTrue h =>
      subst h
      by_cases hb : c = b <;> simp [ownedLength, hb]
      omega
    case isFalse h => grind [ownedLength, tapeLength_cons]

theorem nodup_owners_gather (tape : List (α × Nat)) : ((gather tape).map Prod.fst).Nodup := by
  induction tape using List.reverseRecOn with
  | nil => exact List.nodup_nil
  | append_singleton tape s ih =>
    rw [gather_append_singleton]
    exact nodup_owners_addSegment ih

theorem mem_owners_gather : b ∈ (gather tape).map Prod.fst ↔ b ∈ tape.map Prod.fst := by
  induction tape using List.reverseRecOn with
  | nil => simp [gather]
  | append_singleton tape s ih =>
    rw [gather_append_singleton, mem_owners_addSegment, ih]
    simp

@[simp] theorem tapeLength_gather (tape : List (α × Nat)) :
    tapeLength (gather tape) = tapeLength tape := by
  induction tape using List.reverseRecOn with
  | nil => rfl
  | append_singleton tape s ih =>
    rw [gather_append_singleton, tapeLength_addSegment, ih]
    simp

theorem ownedLength_gather (b : α) (tape : List (α × Nat)) :
    ownedLength b (gather tape) = ownedLength b tape := by
  induction tape using List.reverseRecOn with
  | nil => rfl
  | append_singleton tape s ih =>
    rw [gather_append_singleton, ownedLength_addSegment, ih]
    by_cases h : s.1 = b <;> simp [ownedLength, List.filter_append, h]

theorem le_ownedLength (h : (a, n) ∈ tape) : n ≤ ownedLength a tape := by
  have hmem : n ∈ (tape.filter fun s => s.1 = a).map Prod.snd :=
    List.mem_map.mpr ⟨(a, n), List.mem_filter.mpr ⟨h, by simp⟩, rfl⟩
  exact List.le_sum_of_mem hmem

theorem ownedLength_of_split {before behind : List (α × Nat)}
    (h : ((before ++ (a, n) :: behind).map Prod.fst).Nodup) :
    ownedLength a (before ++ (a, n) :: behind) = n := by
  simp only [List.map_append, List.map_cons, List.nodup_append, List.nodup_cons, List.mem_cons,
    List.mem_map, forall_exists_index, and_imp] at h
  obtain ⟨_, ⟨hbehind, _⟩, hbefore⟩ := h
  have hnil : before.filter (fun s => s.1 = a) = [] := by
    refine List.filter_eq_nil_iff.mpr ?_
    intro s hs hsa
    exact hbefore _ s hs rfl a (.inl rfl) (by simpa using hsa)
  have hnil' : behind.filter (fun s => s.1 = a) = [] := by
    refine List.filter_eq_nil_iff.mpr ?_
    intro s hs hsa
    exact hbehind ⟨s, hs, by simpa using hsa⟩
  simp [ownedLength, List.filter_append, hnil, hnil']

theorem split_unique : ∀ {before before' behind behind' : List (α × Nat)} {n n' : Nat},
    ((before ++ (a, n) :: behind).map Prod.fst).Nodup →
    before ++ (a, n) :: behind = before' ++ (a, n') :: behind' → before = before' ∧ n = n'
  | [], [], _, _, _, _, _, h => by
      cases h
      exact ⟨rfl, rfl⟩
  | [], s :: before', behind, behind', n, n', hnodup, h => by
      cases h
      simp at hnodup
  | s :: before, [], behind, behind', n, n', hnodup, h => by
      cases h
      simp at hnodup
  | s :: before, s' :: before', behind, behind', n, n', hnodup, h => by
      rw [List.cons_append, List.cons_append] at h
      obtain ⟨rfl, htail⟩ := List.cons.inj h
      obtain ⟨rfl, rfl⟩ := split_unique (List.nodup_cons.mp hnodup).2 htail
      exact ⟨rfl, rfl⟩

theorem ownerAt_iff_of_split {before behind : List (α × Nat)} {p : Nat}
    (hnodup : (tape.map Prod.fst).Nodup) (htape : tape = before ++ (a, n) :: behind) :
    ownerAt tape p = some a ↔ tapeLength before ≤ p ∧ p < tapeLength before + n := by
  rw [ownerAt_eq_some]
  constructor
  · rintro ⟨before', n', behind', htape', hle, hlt⟩
    obtain ⟨rfl, rfl⟩ := split_unique (htape ▸ hnodup) (htape ▸ htape')
    exact ⟨hle, hlt⟩
  · rintro ⟨hle, hlt⟩
    exact ⟨before, n, behind, htape, hle, hlt⟩

/-- Summed over the keys, what the entries of each key add up to is the whole. -/
theorem sum_map_fibres {ι M : Type} [AddCommMonoid M] (key : ι → α) (f : ι → M)
    (keys : Finset α) {l : List ι} (h : ∀ x ∈ l, key x ∈ keys) :
    (l.map f).sum = ∑ a ∈ keys, ((l.filter fun x => key x = a).map f).sum := by
  induction l with
  | nil => simp
  | cons x l ih =>
    have hx : key x ∈ keys := h x List.mem_cons_self
    have hsplit : ∀ a, (((x :: l).filter fun x => key x = a).map f).sum =
        (if key x = a then f x else 0) + ((l.filter fun x => key x = a).map f).sum := by
      intro a
      by_cases ha : key x = a <;> simp [ha]
    simp only [hsplit, Finset.sum_add_distrib, Finset.sum_ite_eq, if_pos hx]
    rw [← ih fun y hy => h y (List.mem_cons_of_mem _ hy), List.map_cons, List.sum_cons]

theorem sum_map_congr_fibres {ι M : Type} [AddCommMonoid M] (key : ι → α) (f : ι → M)
    {l l' : List ι} (h : ∀ a, ((l.filter fun x => key x = a).map f).sum =
      ((l'.filter fun x => key x = a).map f).sum) : (l.map f).sum = (l'.map f).sum := by
  let keys : Finset α := ((l ++ l').map key).toFinset
  have hmem : ∀ x ∈ l, key x ∈ keys := fun x hx =>
    List.mem_toFinset.mpr (List.mem_map_of_mem (List.mem_append_left _ hx))
  have hmem' : ∀ x ∈ l', key x ∈ keys := fun x hx =>
    List.mem_toFinset.mpr (List.mem_map_of_mem (List.mem_append_right _ hx))
  rw [sum_map_fibres key f keys hmem, sum_map_fibres key f keys hmem']
  simp only [h]

theorem tapeLength_filter_congr {tape' : List (α × Nat)} (P : α → Bool)
    (h : ∀ a, ownedLength a tape = ownedLength a tape') :
    tapeLength (tape.filter fun s => P s.1) = tapeLength (tape'.filter fun s => P s.1) := by
  have howned : ∀ (tape : List (α × Nat)) (a : α),
      ((tape.filter fun s => P s.1).filter fun s => s.1 = a) =
        if P a then tape.filter fun s => s.1 = a else [] := by
    intro tape a
    rw [List.filter_filter]
    cases hP : P a with
    | true => grind
    | false =>
      refine List.filter_eq_nil_iff.mpr ?_
      intro s _
      by_cases hs : s.1 = a <;> simp [hs, hP]
  refine sum_map_congr_fibres Prod.fst Prod.snd ?_
  intro a
  rw [howned, howned]
  split
  · exact h a
  · rfl

theorem ownedLength_perm {tape' : List (α × Nat)} (h : tape.Perm tape') (a : α) :
    ownedLength a tape = ownedLength a tape' :=
  ((h.filter _).map Prod.snd).sum_eq

end

/-! ## A tape in the order of its owners -/

section Sorted

variable {β : Type} [LinearOrder β] {key : α → β} {a : α}

/-- How much of the tape belongs to owners before this one. -/
def lengthBelow (key : α → β) (a : α) (tape : List (α × Nat)) : Nat :=
  tapeLength (tape.filter fun s => key s.1 < key a)

/-- Each owner has one interval, behind what belongs to the owners before it. -/
theorem ownerAt_sorted (hkey : Function.Injective key) : ∀ {tape : List (α × Nat)},
    tape.Pairwise (fun s t => key s.1 ≤ key t.1) → ∀ {p : Nat}, (ownerAt tape p = some a ↔
      lengthBelow key a tape ≤ p ∧ p < lengthBelow key a tape + ownedLength a tape)
  | [], _, p => by simp [ownerAt, lengthBelow, ownedLength]
  | (b, m) :: tape, hsorted, p => by
      obtain ⟨hhead, htail⟩ := List.pairwise_cons.mp hsorted
      have ih : ∀ q, ownerAt tape q = some a ↔
          lengthBelow key a tape ≤ q ∧ q < lengthBelow key a tape + ownedLength a tape :=
        fun q => ownerAt_sorted hkey htail
      have hbelow : lengthBelow key a ((b, m) :: tape) =
          (if key b < key a then m else 0) + lengthBelow key a tape := by
        by_cases h : key b < key a <;> simp [lengthBelow, h]
      have howned : ownedLength a ((b, m) :: tape) =
          (if b = a then m else 0) + ownedLength a tape := by
        by_cases h : b = a <;> simp [ownedLength, h]
      rw [ownerAt, hbelow, howned]
      rcases lt_trichotomy (key b) (key a) with hlt | heq | hgt
      · have hne : b ≠ a := fun h => absurd (congrArg key h) hlt.ne
        rw [if_pos hlt, if_neg hne]
        split
        · simp only [Option.some.injEq, hne, false_iff]
          omega
        · rw [ih]
          omega
      · obtain rfl : b = a := hkey heq
        have hnone : lengthBelow key b tape = 0 := by
          rw [lengthBelow, List.filter_eq_nil_iff.mpr fun s hs => by simpa using hhead s hs]
          rfl
        rw [if_neg (lt_irrefl _), if_pos rfl, hnone]
        split
        · simp only [true_iff]
          omega
        · rw [ih, hnone]
          omega
      · have hne : b ≠ a := fun h => absurd (congrArg key h) hgt.ne'
        have hnothing : ownedLength a tape = 0 := by
          rw [ownedLength, List.filter_eq_nil_iff.mpr]
          · rfl
          · grind
        rw [if_neg hne, hnothing]
        split
        · simp only [Option.some.injEq, hne, false_iff]
          omega
        · rw [ih, hnothing]
          omega

/-- Two tapes in order on which everybody has as much have the same owners. -/
theorem ownerAt_congr (hkey : Function.Injective key) {tape tape' : List (α × Nat)}
    (hsorted : tape.Pairwise fun s t => key s.1 ≤ key t.1)
    (hsorted' : tape'.Pairwise fun s t => key s.1 ≤ key t.1)
    (h : ∀ a, ownedLength a tape = ownedLength a tape') (p : Nat) :
    ownerAt tape p = ownerAt tape' p := by
  have hbelow : ∀ a, lengthBelow key a tape = lengthBelow key a tape' := fun a =>
    tapeLength_filter_congr (fun b => key b < key a) h
  ext a
  simp only [ownerAt_sorted hkey hsorted, ownerAt_sorted hkey hsorted', h, hbelow]

end Sorted

end FalconDraw.Lib
