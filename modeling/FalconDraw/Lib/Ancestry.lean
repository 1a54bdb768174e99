/-
FalconDraw.Lib.Ancestry — trees given by parent links.

Every node has a parent, one lower than itself, or none and is at height 0
(`Graded`). `ancestorAt` follows the links down to a height.
-/
import FalconDraw.Lib.Bucket

namespace FalconDraw.Lib

variable {P : Type} {parent : P → Option P} {height : P → Nat}

/-- Parents are one lower, and nothing is below height 0. -/
structure Graded (parent : P → Option P) (height : P → Nat) : Prop where
  step : ∀ {p q}, parent p = some q → height p = height q + 1
  root : ∀ {p}, parent p = none → height p = 0

def climb (parent : P → Option P) : Nat → P → Option P
  | 0, p => some p
  | k + 1, p => (parent p).bind (climb parent k)

/-- The node at this height on the way down, itself included. -/
def ancestorAt (parent : P → Option P) (height : P → Nat) (p : P) (h : Nat) : Option P :=
  if h ≤ height p then climb parent (height p - h) p else none

/-- The first node is on the chain of the second, itself included. -/
def OnChain (parent : P → Option P) (height : P → Nat) (q p : P) : Prop :=
  ancestorAt parent height p (height q) = some q

theorem ancestorAt_self (p : P) : ancestorAt parent height p (height p) = some p := by
  rw [ancestorAt, if_pos (Nat.le_refl _), Nat.sub_self, climb]

theorem ancestorAt_eq_none {p : P} {h : Nat} (hlt : height p < h) :
    ancestorAt parent height p h = none :=
  if_neg (Nat.not_le.mpr hlt)

theorem onChain_refl (p : P) : OnChain parent height p p := ancestorAt_self p

namespace Graded

variable {p q : P} {h k : Nat} (g : Graded parent height)

include g

theorem ancestorAt_parent (hp : parent p = some q) (hle : h ≤ height q) :
    ancestorAt parent height p h = ancestorAt parent height q h := by
  have hstep := g.step hp
  rw [ancestorAt, ancestorAt, if_pos (by omega), if_pos hle,
    show height p - h = (height q - h) + 1 by omega, climb, hp]
  rfl

theorem exists_parent (hpos : 0 < height p) : ∃ q, parent p = some q ∧ height p = height q + 1 := by
  cases hp : parent p with
  | none =>
    have := g.root hp
    omega
  | some q => exact ⟨q, rfl, g.step hp⟩

theorem exists_climb : ∀ {k : Nat} {p : P}, k ≤ height p →
    ∃ q, climb parent k p = some q ∧ height q + k = height p := by
  intro k
  induction k with
  | zero => exact fun {p} _ => ⟨p, rfl, rfl⟩
  | succ k ih =>
    intro p hle
    obtain ⟨r, hr, hheight⟩ := g.exists_parent (show 0 < height p by omega)
    obtain ⟨q, hq, hsum⟩ := ih (show k ≤ height r by omega)
    refine ⟨q, ?_, by omega⟩
    rw [climb, hr]
    exact hq

theorem exists_ancestorAt (hle : h ≤ height p) :
    ∃ q, ancestorAt parent height p h = some q ∧ height q = h := by
  obtain ⟨q, hq, hsum⟩ := g.exists_climb (Nat.sub_le (height p) h)
  refine ⟨q, ?_, by omega⟩
  rw [ancestorAt, if_pos hle]
  exact hq

theorem height_ancestorAt (hq : ancestorAt parent height p h = some q) : height q = h := by
  by_cases hle : h ≤ height p
  · obtain ⟨q', hq', hheight⟩ := g.exists_ancestorAt hle
    rw [← Option.some.inj (hq'.symm.trans hq)]
    exact hheight
  · rw [ancestorAt_eq_none (Nat.lt_of_not_le hle)] at hq
    cases hq

theorem le_of_ancestorAt (hq : ancestorAt parent height p h = some q) : h ≤ height p := by
  by_contra hlt
  rw [ancestorAt_eq_none (Nat.lt_of_not_le hlt)] at hq
  cases hq

theorem climb_add : ∀ {j : Nat} {p q : P}, climb parent j p = some q →
    climb parent (j + k) p = climb parent k q := by
  intro j
  induction j with
  | zero =>
    intro p q hq
    rw [← Option.some.inj hq, Nat.zero_add]
  | succ j ih =>
    intro p q hq
    rw [climb] at hq
    obtain ⟨r, hr, hrest⟩ := Option.bind_eq_some_iff.mp hq
    rw [Nat.add_right_comm, climb, hr]
    exact ih hrest

/-- Below a node of its chain, a chain is the chain of that node. -/
theorem ancestorAt_trans (hq : ancestorAt parent height p k = some q) (hle : h ≤ k) :
    ancestorAt parent height p h = ancestorAt parent height q h := by
  have hk := g.le_of_ancestorAt hq
  have hheight := g.height_ancestorAt hq
  have hclimb : climb parent (height p - k) p = some q := by
    rwa [ancestorAt, if_pos hk] at hq
  rw [ancestorAt, ancestorAt, if_pos (by omega), if_pos (by omega),
    show height p - h = (height p - k) + (height q - h) by omega, g.climb_add hclimb]

theorem onChain_of_ancestorAt (hq : ancestorAt parent height p h = some q) :
    OnChain parent height q p := by
  rw [OnChain, g.height_ancestorAt hq]
  exact hq

theorem onChain_trans {r : P} (hqr : OnChain parent height q r) (hpq : OnChain parent height p q) :
    OnChain parent height p r := by
  have hle : height p ≤ height q := g.le_of_ancestorAt hpq
  rw [OnChain, g.ancestorAt_trans hqr hle]
  exact hpq

theorem onChain_parent (hp : parent p = some q) : OnChain parent height q p := by
  rw [OnChain, g.ancestorAt_parent hp (Nat.le_refl _), ancestorAt_self]

theorem onChain_unique {r : P} (hp : OnChain parent height p r) (hq : OnChain parent height q r)
    (hheight : height p = height q) : p = q := by
  rw [OnChain, hheight] at hp
  exact Option.some.inj (hp.symm.trans hq)

end Graded

/-! ## Where two chains part -/

/-- The highest node on both chains. -/
structure Fork (parent : P → Option P) (height : P → Nat) (f p q : P) : Prop where
  left : OnChain parent height f p
  right : OnChain parent height f q
  highest : ∀ {g}, OnChain parent height g p → OnChain parent height g q → height g ≤ height f

namespace Graded

variable {f g p q r : P} (gr : Graded parent height)

include gr

theorem height_le_of_onChain (hg : OnChain parent height g p) : height g ≤ height p :=
  gr.le_of_ancestorAt hg

theorem fork_self (hp : OnChain parent height p q) : Fork parent height p p q where
  left := onChain_refl p
  right := hp
  highest := fun hg _ => gr.height_le_of_onChain hg

/-- Below a node of a chain, being on the chain is being on that of the node. -/
theorem onChain_of_le (hr : OnChain parent height r p) (hg : OnChain parent height g p)
    (hle : height g ≤ height r) : OnChain parent height g r := by
  rw [OnChain, ← gr.ancestorAt_trans hr hle]
  exact hg

/-- What is on the chain of a node and not the node is on the chain of its parent. -/
theorem exists_parent_of_ne (hg : OnChain parent height g p) (hne : g ≠ p) :
    ∃ r, parent p = some r ∧ OnChain parent height g r := by
  have hle := gr.height_le_of_onChain hg
  have hlt : height g < height p := by
    refine Nat.lt_of_le_of_ne hle ?_
    intro heq
    exact hne (gr.onChain_unique hg (onChain_refl p) heq)
  obtain ⟨r, hr, hheight⟩ := gr.exists_parent (Nat.zero_lt_of_lt hlt)
  exact ⟨r, hr, gr.onChain_of_le (gr.onChain_parent hr) hg (by omega)⟩

/-- The fork point of a chain is that of a node on it that all common nodes are below. -/
theorem fork_of_below (hr : OnChain parent height r p) (hfork : Fork parent height f r q)
    (hbelow : ∀ {g}, OnChain parent height g p → OnChain parent height g q →
      height g ≤ height r) : Fork parent height f p q where
  left := gr.onChain_trans hr hfork.left
  right := hfork.right
  highest := by
    intro g hgp hgq
    exact hfork.highest (gr.onChain_of_le hr hgp (hbelow hgp hgq)) hgq

end Graded

end FalconDraw.Lib
