/-
FalconDraw.Lib.RollingPots — a row of numbered pots that roll over.

Deposits go into pots that are still ahead. A pot with deposits is settled once:
it takes what lies in the empty pots behind it, back to the nearest pot with
deposits, and is won or rolled on into the next pot.
-/
import Mathlib.Algebra.Ring.Nat
import Mathlib.Algebra.Ring.Int.Defs
import Mathlib.Algebra.BigOperators.Intervals
import Mathlib.Algebra.Order.BigOperators.Group.Finset
import Mathlib.Algebra.Order.Group.Int

namespace FalconDraw.Lib

open Finset

@[ext] structure RollingPots where
  deposits : ℕ → ℤ
  held     : ℕ → ℤ
  /-- `none` while the pot is open, otherwise whether it was won. -/
  outcome  : ℕ → Option Bool

namespace RollingPots

variable {p q : RollingPots} {front k j : ℕ}

/-- What lies in the empty pots behind `k`, back to the nearest pot with
deposits. -/
def below (p : RollingPots) : ℕ → ℤ
  | 0 => 0
  | k + 1 => if 0 < p.deposits k then 0 else p.held k + p.below k

/-- What pot `k` is owed from behind. -/
def carry (p : RollingPots) : ℕ → ℤ
  | 0 => 0
  | k + 1 =>
      if 0 < p.deposits k then (if p.outcome k = some false then p.held k else 0)
      else p.carry k

/-- The money of an open pot: its own deposits and what it is owed. -/
def worth (p : RollingPots) (k : ℕ) : ℤ := p.deposits k + p.carry k

theorem below_congr (hd : ∀ i < k, p.deposits i = q.deposits i)
    (hh : ∀ i < k, p.held i = q.held i) : p.below k = q.below k := by
  induction k with
  | zero => rfl
  | succ k ih => grind [below]

theorem below_nonneg_of (hh : ∀ i < k, 0 ≤ p.held i) : 0 ≤ p.below k := by
  induction k with
  | zero => exact le_refl _
  | succ k ih => grind [below]

theorem carry_congr (hd : ∀ i < k, p.deposits i = q.deposits i)
    (ho : ∀ i < k, 0 < p.deposits i → p.outcome i = q.outcome i)
    (hh : ∀ i < k, 0 < p.deposits i → p.outcome i = some false → p.held i = q.held i) :
    p.carry k = q.carry k := by
  induction k with
  | zero => rfl
  | succ k ih => grind [carry]

/-! ## The operations -/

def deposit (p : RollingPots) (k : ℕ) (s : ℤ) : RollingPots :=
  { p with
    deposits := Function.update p.deposits k (p.deposits k + s)
    held := Function.update p.held k (p.held k + s) }

def passOn (p : RollingPots) (k : ℕ) : RollingPots :=
  { p with
    held := Function.update (Function.update p.held (k + 1) (p.held (k + 1) + p.held k)) k 0
    outcome := Function.update p.outcome k (some false) }

/-- Nothing was deposited in the pots from `j` up to `k`. -/
def Clear (p : RollingPots) (j k : ℕ) : Prop := ∀ i < k, j ≤ i → ¬ 0 < p.deposits i

instance (p : RollingPots) (j k : ℕ) : Decidable (p.Clear j k) :=
  inferInstanceAs (Decidable (∀ i < k, j ≤ i → ¬ 0 < p.deposits i))

/-- The holdings after pot `k` has taken what lies behind it. -/
def sweep (p : RollingPots) (k : ℕ) : ℕ → ℤ := fun j =>
  if j = k then p.held k + p.below k else if j < k ∧ p.Clear j k then 0 else p.held j

/-- What settling pot `k` sends on. -/
def rolled (p : RollingPots) (k : ℕ) (won : Bool) : ℤ :=
  if won then 0 else p.held k + p.below k

/-- Settle a pot that has deposits. It keeps a record of what it collected. -/
def settle (p : RollingPots) (k : ℕ) (won : Bool) : RollingPots :=
  { p with
    held := Function.update (p.sweep k) (k + 1) (p.held (k + 1) + p.rolled k won)
    outcome := Function.update p.outcome k (some won) }

/-- The next pot with deposits, if there is one, is not settled. -/
def NextOpen (p : RollingPots) (k : ℕ) : Prop :=
  ∀ j, k < j → 0 < p.deposits j → p.Clear (k + 1) j → p.outcome j = none

/-! ## Soundness -/

/-- The two accounts agree; pots from `front` on are still ahead. -/
structure Sound (p : RollingPots) (front : ℕ) : Prop where
  deposits_nonneg : ∀ k, 0 ≤ p.deposits k
  held_nonneg : ∀ k, 0 ≤ p.held k
  /-- An open pot with deposits still holds them. -/
  deposits_le : ∀ k, 0 < p.deposits k → p.outcome k = none → p.deposits k ≤ p.held k
  /-- What an open pot would collect is what it is worth. -/
  open_eq : ∀ k, p.outcome k = none → (0 < p.deposits k ∨ front ≤ k) →
    p.held k + p.below k = p.worth k
  /-- A settled pot holds what it was worth, and left nothing behind it. -/
  settled_eq : ∀ k, 0 < p.deposits k → p.outcome k ≠ none → p.held k = p.worth k
  settled_below : ∀ k, 0 < p.deposits k → p.outcome k ≠ none → p.below k = 0
  below_le : ∀ k, p.below k ≤ p.carry k
  /-- An empty pot holds nothing or everything that is owed. -/
  empty_held : ∀ k, p.deposits k = 0 → p.held k = 0 ∨ p.held k = p.carry k
  ahead_open : ∀ k, front ≤ k → p.outcome k = none
  ahead_held : ∀ k, front < k → p.held k = p.deposits k

namespace Sound

theorem below_nonneg (h : p.Sound front) (k : ℕ) : 0 ≤ p.below k :=
  below_nonneg_of fun i _ => h.held_nonneg i

theorem carry_nonneg (h : p.Sound front) (k : ℕ) : 0 ≤ p.carry k :=
  (h.below_nonneg k).trans (h.below_le k)

/-- A pot with deposits holds something, settled or not. -/
theorem held_pos (h : p.Sound front) (hk : 0 < p.deposits k) : 0 < p.held k := by
  cases ho : p.outcome k with
  | none =>
    have := h.deposits_le k hk ho
    omega
  | some won =>
    have heq := h.settled_eq k hk (by simp [ho])
    have hc := h.carry_nonneg k
    unfold worth at heq
    omega

theorem initial (front : ℕ) : Sound ⟨fun _ => 0, fun _ => 0, fun _ => none⟩ front := by
  have hbelow : ∀ k, below ⟨fun _ => 0, fun _ => 0, fun _ => none⟩ k = 0 := by
    intro k
    induction k with
    | zero => rfl
    | succ k ih => simp [below, ih]
  have hcarry : ∀ k, carry ⟨fun _ => 0, fun _ => 0, fun _ => none⟩ k = 0 := by
    intro k
    induction k with
    | zero => rfl
    | succ k ih => simp [carry, ih]
  constructor <;> simp [hbelow, hcarry, worth]

theorem advance {front' : ℕ} (h : p.Sound front) (hf : front ≤ front') : p.Sound front' where
  deposits_nonneg := h.deposits_nonneg
  held_nonneg := h.held_nonneg
  deposits_le := h.deposits_le
  open_eq := fun k ho hk => h.open_eq k ho (hk.imp_right fun hle => hf.trans hle)
  settled_eq := h.settled_eq
  settled_below := h.settled_below
  below_le := h.below_le
  empty_held := h.empty_held
  ahead_open := fun k hk => h.ahead_open k (hf.trans hk)
  ahead_held := fun k hk => h.ahead_held k (hf.trans_lt hk)

end Sound

/-! ## Depositing -/

section Deposit
variable {s : ℤ}

@[grind =]
theorem deposit_deposits : (p.deposit k s).deposits j = p.deposits j + if j = k then s else 0 := by
  by_cases hj : j = k <;> simp [deposit, hj]

@[grind =]
theorem deposit_held : (p.deposit k s).held j = p.held j + if j = k then s else 0 := by
  by_cases hj : j = k <;> simp [deposit, hj]

@[grind =]
theorem deposit_outcome : (p.deposit k s).outcome j = p.outcome j := rfl

@[grind =]
theorem deposit_below (h : j ≤ k) : (p.deposit k s).below j = p.below j :=
  below_congr (by grind) (by grind)

@[grind =]
theorem deposit_carry (h : j ≤ k) : (p.deposit k s).carry j = p.carry j :=
  carry_congr (by grind) (by grind) (by grind)

/-- Behind a pot ahead nothing has been rolled past it. -/
theorem deposit_beyond (h : p.Sound front) (hk : front ≤ k) (hs : 0 < s) (hj : k < j) :
    (p.deposit k s).below j = 0 ∧ (p.deposit k s).carry j = 0 := by
  induction j, hj using Nat.le_induction with
  | base =>
    have := h.deposits_nonneg k
    have := h.ahead_open k hk
    grind [below, carry]
  | succ j hj ih =>
    have := h.deposits_nonneg j
    have := h.ahead_open j (by omega)
    have := h.ahead_held j (by omega)
    grind [below, carry]

theorem Sound.deposit (h : p.Sound front) (hk : front ≤ k) (hs : 0 < s) :
    (p.deposit k s).Sound front := by
  -- a settled pot lies before the front, where nothing changed
  have hbehind : ∀ j, p.outcome j ≠ none → j < k := by
    intro j ho
    by_contra hge
    exact ho (h.ahead_open j (by omega))
  have hbeyond : ∀ j, k < j → (p.deposit k s).below j = 0 ∧ (p.deposit k s).carry j = 0 :=
    fun j => deposit_beyond h hk hs
  obtain ⟨hdeposits, hheld, hle, hopen, hsettled, hclear, hbelow, hempty, hnone, hahead⟩ := h
  constructor
  case open_eq =>
    intro j ho hj
    rcases lt_trichotomy j k with hlt | rfl | hgt
    · grind [worth]
    · grind [worth]
    · grind [worth]
  case settled_eq => grind [worth]
  all_goals grind

end Deposit
/-! ## Passing on -/

section PassOn

@[grind =]
theorem passOn_held : (p.passOn k).held j =
    if j = k then 0 else p.held j + if j = k + 1 then p.held k else 0 := by
  simp only [passOn, Function.update_apply]
  grind

@[grind =]
theorem passOn_outcome : (p.passOn k).outcome j = if j = k then some false else p.outcome j := by
  simp only [passOn, Function.update_apply]

@[grind =]
theorem passOn_deposits : (p.passOn k).deposits j = p.deposits j := rfl

@[grind =]
theorem passOn_below (hd : p.deposits k = 0) :
    (p.passOn k).below j = p.below j - if j = k + 1 then p.held k else 0 := by
  induction j with
  | zero => simp [below]
  | succ j ih => grind [below]

/-- The next pot is not settled: it would have taken what lies here. -/
theorem next_open_of_held (h : p.Sound front) (hd : p.deposits k = 0) (hpos : 0 < p.held k)
    (hnext : 0 < p.deposits (k + 1)) : p.outcome (k + 1) = none := by
  by_contra hsettled
  have hbelow := h.settled_below (k + 1) hnext hsettled
  have := h.below_nonneg k
  grind [below]

theorem passOn_carry (h : p.Sound front) (hd : p.deposits k = 0) (hpos : 0 < p.held k) (j : ℕ) :
    (p.passOn k).carry j = p.carry j := by
  have hnext := next_open_of_held h hd hpos
  exact carry_congr (by grind) (by grind) (by grind)

theorem Sound.passOn (h : p.Sound front) (hk : k < front) (hd : p.deposits k = 0)
    (hpos : 0 < p.held k) : (p.passOn k).Sound front := by
  have hcarry := passOn_carry h hd hpos
  have hnext := next_open_of_held h hd hpos
  have hbehind := h.below_nonneg k
  have howed : p.held k = p.carry k := (h.empty_held k hd).resolve_left hpos.ne'
  -- only one pot of a stretch holds what is owed
  have hone := h.below_le (k + 2)
  obtain ⟨hdeposits, hheld, hle, hopen, hsettled, hclear, hbelow, hempty, hnone, hahead⟩ := h
  constructor
  case open_eq => grind [worth, below]
  case settled_eq => grind [worth]
  case below_le => grind
  case empty_held => grind [below, carry]
  all_goals grind

end PassOn

/-! ## Settling -/

section Settle
variable {won : Bool}

theorem clear_congr (hd : p.deposits = q.deposits) : p.Clear j k ↔ q.Clear j k := by
  unfold Clear
  rw [hd]

@[grind =]
theorem clear_succ : p.Clear j (k + 1) ↔ p.Clear j k ∧ (j ≤ k → ¬ 0 < p.deposits k) := by
  unfold Clear
  grind

@[simp, grind .]
theorem clear_self : p.Clear k k := fun i hi hki => absurd hki (by omega)

@[grind →]
theorem clear_of_succ (h : p.Clear (j + 1) k) (hj : ¬ 0 < p.deposits j) : p.Clear j k := by
  unfold Clear at *
  grind

theorem Clear.mono {i : ℕ} (h : p.Clear i k) (hij : i ≤ j) : p.Clear j k :=
  fun m hm hjm => h m hm (hij.trans hjm)

@[grind →]
theorem Clear.first (h : p.Clear j k) (hj : j < k) : ¬ 0 < p.deposits j := h j hj le_rfl

@[grind =]
theorem settle_deposits : (p.settle k won).deposits j = p.deposits j := rfl

@[grind =]
theorem settle_outcome : (p.settle k won).outcome j = if j = k then some won else p.outcome j := by
  simp only [settle, Function.update_apply]

@[grind =]
theorem settle_held : (p.settle k won).held j = if j = k then p.held k + p.below k
    else if j < k ∧ p.Clear j k then 0 else p.held j + if j = k + 1 then p.rolled k won else 0 := by
  simp only [settle, Function.update_apply, sweep]
  grind

/-- Behind the settled pot nothing lies any more, back to the nearest pot with
deposits. -/
theorem settle_below_behind (h : j ≤ k) :
    (p.settle k won).below j = if p.Clear j k then 0 else p.below j := by
  induction j with
  | zero => simp [below]
  | succ j ih => 
    have := @Clear.mono p k (j+1) j 
    grind [below]

theorem settle_carry_behind (h : j ≤ k) : (p.settle k won).carry j = p.carry j :=
  carry_congr (by grind) (by grind) (by grind)

/-- Nothing lies, and nothing is owed, between an open pot and the next one with
deposits. -/
theorem clear_ahead (h : p.Sound front) (hd : 0 < p.deposits k) (ho : p.outcome k = none)
    (hj : k < j) (hc : p.Clear (k + 1) j) : p.carry j = 0 ∧ p.below j = 0 := by
  have hcarry : p.carry j = 0 := by
    induction j, hj using Nat.le_induction with
    | base => simp [carry, hd, ho]
    | succ j hj ih => grind [carry]
  have := h.below_le j
  have := h.below_nonneg j
  exact ⟨hcarry, by omega⟩

/-- Ahead of the settled pot, what it sends on is owed to every pot up to the
next one with deposits. -/
theorem settle_carry_ahead (hd : 0 < p.deposits k) (ho : p.outcome k = none)
    (hnext : won = false → p.NextOpen k) (hj : k < j) :
    (p.settle k won).carry j = p.carry j + if p.Clear (k + 1) j then p.rolled k won else 0 := by
  induction j, hj using Nat.le_induction with
  | base => cases won <;> grind [carry, rolled]
  | succ j hj ih =>
    -- a very next pot with deposits is open, or nothing was sent on to it
    have hopen : 0 < p.deposits (k + 1) → won = false → p.outcome (k + 1) = none :=
      fun hpos hlost => hnext hlost (k + 1) (by omega) hpos clear_self
    cases won <;> grind [carry, rolled]

theorem settle_below_ahead (hd : 0 < p.deposits k) (hj : k < j) : (p.settle k won).below j
      = p.below j + if k + 1 < j ∧ p.Clear (k + 1) j then p.rolled k won else 0 := by
  induction j, hj using Nat.le_induction with
  | base => grind [below]
  | succ j hj ih => grind [below]

/-- Where a settled pot lies ahead, nothing was sent on to it. -/
theorem rolled_eq_zero (hnext : won = false → p.NextOpen k) (hj : k < j)
    (hpos : 0 < p.deposits j) (hs : p.outcome j ≠ none) (hc : p.Clear (k + 1) j) :
    p.rolled k won = 0 := by
  cases won with
  | true => exact if_pos rfl
  | false => exact absurd (hnext rfl j hj hpos hc) hs

theorem Sound.settle (h : p.Sound front) (hk : k < front) (hd : 0 < p.deposits k)
    (ho : p.outcome k = none) (hnext : won = false → p.NextOpen k) :
    (p.settle k won).Sound front := by
  have hfull : p.held k + p.below k = p.worth k := h.open_eq k ho (.inl hd)
  have hrolled : 0 ≤ p.rolled k won := by
    have := h.held_nonneg k
    have := h.below_nonneg k
    grind [rolled]
  constructor
  case deposits_nonneg => exact h.deposits_nonneg
  case held_nonneg =>
    have := h.below_nonneg k
    have := h.held_nonneg
    grind
  case deposits_le =>
    have := h.deposits_le
    grind
  case open_eq =>
    intro j hj hj'
    have hold := h.open_eq j
    rcases lt_trichotomy j k with hlt | rfl | hgt
    · grind [settle_below_behind hlt.le, settle_carry_behind hlt.le, worth]
    · grind
    · grind [settle_below_ahead hd hgt, settle_carry_ahead hd ho hnext hgt, worth]
  case settled_eq =>
    intro j hj hs
    have hold := h.settled_eq j
    rcases lt_trichotomy j k with hlt | rfl | hgt
    · grind [settle_carry_behind hlt.le, worth]
    · grind [settle_carry_behind le_rfl, worth]
    · have hzero := rolled_eq_zero hnext hgt hj
      grind [settle_carry_ahead hd ho hnext hgt, worth]
  case settled_below =>
    intro j hj hs
    have hold := h.settled_below j
    rcases lt_trichotomy j k with hlt | rfl | hgt
    · grind [settle_below_behind hlt.le]
    · grind [settle_below_behind le_rfl]
    · have hzero := rolled_eq_zero hnext hgt hj
      grind [settle_below_ahead hd hgt]
  case below_le =>
    intro j
    have hold := h.below_le j
    rcases lt_or_ge k j with hgt | hle
    · grind [settle_below_ahead hd hgt, settle_carry_ahead hd ho hnext hgt]
    · have := h.carry_nonneg j
      grind [settle_below_behind hle, settle_carry_behind hle]
  case empty_held =>
    intro j hj
    have hold := h.empty_held j
    rcases lt_or_ge k j with hgt | hle
    · have hahead := clear_ahead h hd ho hgt
      grind [settle_carry_ahead hd ho hnext hgt]
    · grind [settle_carry_behind hle]
  case ahead_open =>
    have := h.ahead_open
    grind
  case ahead_held =>
    have := h.ahead_held
    grind

end Settle
/-! ## Conservation -/

section Conservation

def isWon (p : RollingPots) (k : ℕ) : Prop := 0 < p.deposits k ∧ p.outcome k = some true

def isWaiting (p : RollingPots) (k : ℕ) : Prop := 0 < p.deposits k ∧ p.outcome k = none

instance (p : RollingPots) : DecidablePred p.isWon := fun _ => inferInstanceAs (Decidable (_ ∧ _))

instance (p : RollingPots) : DecidablePred p.isWaiting :=
  fun _ => inferInstanceAs (Decidable (_ ∧ _))

/-- The prizes of the pots below `n` that were won. -/
def prizes (p : RollingPots) (n : ℕ) : ℤ := ∑ k ∈ range n with p.isWon k, p.held k

/-- Everything deposited below `n` was won, or is in the worth of a pot that
waits, or is owed to `n`. -/
theorem conservation (h : p.Sound front) (n : ℕ) : ∑ k ∈ range n, p.deposits k
      = p.prizes n + (∑ k ∈ range n with p.isWaiting k, p.worth k) + p.carry n := by
  unfold prizes
  induction n with
  | zero => simp [carry]
  | succ n ih =>
    rw [sum_range_succ, ih, sum_filter, sum_filter, sum_filter, sum_filter, sum_range_succ,
      sum_range_succ, carry]
    have hnonneg := h.deposits_nonneg n
    have hsettled := h.settled_eq n
    cases ho : p.outcome n with
    | none => grind [isWon, isWaiting, worth]
    | some won => cases won <;> grind [isWon, isWaiting, worth]

namespace Sound

theorem prizes_nonneg (h : p.Sound front) (n : ℕ) : 0 ≤ p.prizes n :=
  sum_nonneg fun k _ => h.held_nonneg k

theorem worth_nonneg (h : p.Sound front) (k : ℕ) : 0 ≤ p.worth k :=
  add_nonneg (h.deposits_nonneg k) (h.carry_nonneg k)

/-- Prizes are paid out of deposits. -/
theorem prizes_le (h : p.Sound front) (n : ℕ) : p.prizes n ≤ ∑ k ∈ range n, p.deposits k := by
  have hwaiting : 0 ≤ ∑ k ∈ range n with p.isWaiting k, p.worth k :=
    sum_nonneg fun k _ => h.worth_nonneg k
  have := h.carry_nonneg n
  rw [conservation h n]
  omega

/-- A pot is owed no more than was deposited behind it. -/
theorem carry_le (h : p.Sound front) (n : ℕ) : p.carry n ≤ ∑ k ∈ range n, p.deposits k := by
  have hwaiting : 0 ≤ ∑ k ∈ range n with p.isWaiting k, p.worth k :=
    sum_nonneg fun k _ => h.worth_nonneg k
  have := h.prizes_nonneg n
  rw [conservation h n]
  omega

theorem worth_le (h : p.Sound front) (k : ℕ) : p.worth k ≤ ∑ i ∈ range (k + 1), p.deposits i := by
  have := h.carry_le k
  rw [sum_range_succ, worth]
  omega

/-- No pot holds more than was deposited up to it. -/
theorem held_le (h : p.Sound front) (k : ℕ) : p.held k ≤ ∑ i ∈ range (k + 1), p.deposits i := by
  have hworth := h.worth_le k
  have hbelow := h.below_nonneg k
  have hcarry := h.carry_nonneg k
  have hnonneg := h.deposits_nonneg k
  have hopen := h.open_eq k
  have hsettled := h.settled_eq k
  have hempty := h.empty_held k
  by_cases ho : p.outcome k = none <;> grind [worth]

end Sound

/-! ### What the operations add to either side -/

variable {n : ℕ} {s : ℤ} {won : Bool}

theorem prizes_congr (hw : ∀ i < n, q.isWon i ↔ p.isWon i)
    (hh : ∀ i < n, p.isWon i → q.held i = p.held i) : q.prizes n = p.prizes n := by
  have hfilter : (range n).filter q.isWon = (range n).filter p.isWon :=
    filter_congr fun i hi => hw i (mem_range.mp hi)
  unfold prizes
  rw [hfilter]
  refine sum_congr rfl fun i hi => ?_
  obtain ⟨hi, hwon⟩ := mem_filter.mp hi
  exact hh i (mem_range.mp hi) hwon

theorem sum_deposit (hk : k < n) :
    ∑ i ∈ range n, (p.deposit k s).deposits i = ∑ i ∈ range n, p.deposits i + s := by
  simp only [deposit_deposits, sum_add_distrib, sum_ite_eq', mem_range, hk, if_true]

theorem prizes_deposit (h : p.Sound front) (hk : front ≤ k) :
    (p.deposit k s).prizes n = p.prizes n := by
  have hopen := h.ahead_open k hk
  exact prizes_congr (by grind [isWon]) (by grind [isWon])

theorem prizes_passOn (h : p.Sound front) (hd : p.deposits k = 0) (hpos : 0 < p.held k) :
    (p.passOn k).prizes n = p.prizes n := by
  have hnext := next_open_of_held h hd hpos
  exact prizes_congr (by grind [isWon]) (by grind [isWon])

theorem prizes_settle (h : p.Sound front) (hd : 0 < p.deposits k) (ho : p.outcome k = none)
    (hnext : won = false → p.NextOpen k) (hk : k < n) :
    (p.settle k won).prizes n = p.prizes n + if won then p.worth k else 0 := by
  have hfull : p.held k + p.below k = p.worth k := h.open_eq k ho (.inl hd)
  unfold prizes
  rw [sum_filter, sum_filter]
  have hterm : ∀ i ∈ range n, (if (p.settle k won).isWon i then (p.settle k won).held i else 0)
      = (if p.isWon i then p.held i else 0) + if i = k then (if won then p.worth k else 0)
        else 0 := by
    intro i _
    rcases lt_trichotomy i k with hlt | rfl | hgt
    · grind [isWon]
    · grind [isWon]
    · have hzero := rolled_eq_zero hnext hgt
      grind [isWon]
  rw [sum_congr rfl hterm, sum_add_distrib, sum_ite_eq', if_pos (mem_range.mpr hk)]

end Conservation

end RollingPots

end FalconDraw.Lib
