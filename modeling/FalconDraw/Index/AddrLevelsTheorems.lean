/-
FalconDraw.Index.AddrLevelsTheorems — the levels of an address are one list.

Read from the highest level down, the levels are the entries in the order they
were added (`Holds`).
-/
import FalconDraw.Index.AddrIndex

namespace FalconDraw.Index

open Lib Lib.Levels

variable {α : Type} {ls ls' p : Levels α} {n k : Nat}

theorem maxEntriesForLevel_eq (k : Nat) : maxEntriesForLevel k = cap level0MaxEntries k := by
  induction k with
  | zero => exact (cap_zero level0MaxEntries).symm
  | succ k ih => rw [maxEntriesForLevel, ih, cap_succ]

theorem minEntriesToReachLevel_eq (k : Nat) :
    minEntriesToReachLevel k + 8 = cap level0MaxEntries k + 1 := by
  induction k with
  | zero => rfl
  | succ k ih =>
    rw [minEntriesToReachLevel, maxEntriesForLevel_eq, cap_succ]
    omega

theorem eight_le_cap (k : Nat) : 8 ≤ cap level0MaxEntries k := le_cap level0MaxEntries k

/-- The levels are in shape and hold these entries. -/
def Holds (ls : Levels α) (es : List α) : Prop :=
  ∃ n, Filled level0MaxEntries ls n ∧ ls.span 0 n = es

theorem holds_empty : Holds (Bucket.empty : Levels α) [] := ⟨0, filled_empty _, rfl⟩

theorem levels_le (h : Filled level0MaxEntries ls n) (hlen : (ls.span 0 n).length < 2 ^ 64) :
    n ≤ 64 := by
  by_contra hn
  obtain ⟨m, rfl⟩ : ∃ m, n = m + 1 := ⟨n - 1, by omega⟩
  have hcap := h.length_ge
  have hpow : 2 ^ 64 ≤ 2 ^ m := Nat.pow_le_pow_right (by decide) (by omega)
  have hm : cap level0MaxEntries m = 8 * 2 ^ m := rfl
  have hc : level0MaxEntries = 8 := rfl
  omega

/-! ## Adding an entry -/

theorem get_moveUp_of_lt {i : Nat} (h : k < i) : (moveUp ls k).get i = ls.get i := by
  induction k generalizing ls with
  | zero => rfl
  | succ k ih => grind [moveUp]

theorem data_moveUp {i : Nat} (h : i < k) : (moveUp ls k).data (i + 1) = ls.data i := by
  induction k generalizing ls with
  | zero => omega
  | succ k ih =>
    -- the level just moved stays as the lower ones move
    have hstay := @get_moveUp_of_lt _ (ls.put (k + 1) (ls.data k)) k (k + 1)
    grind [moveUp, data]

theorem mergeLevels_ok (hf : Filled level0MaxEntries ls n) {fuel : Nat} :
    ∀ {k : Nat}, (∀ i ≤ k, (ls.data i).length = cap level0MaxEntries i) → n < k + 1 + fuel →
      ∃ j, k ≤ j ∧ (∀ i ≤ j, (ls.data i).length = cap level0MaxEntries i) ∧
        (ls.data (j + 1)).length ≠ cap level0MaxEntries (j + 1) ∧
        mergeLevels ls fuel (k + 1) (cap level0MaxEntries (k + 1)) (ls.data k) =
          .ok (moveUp (ls.put (j + 1) (ls.data (j + 1) ++ ls.data j)) j) := by
  induction fuel with
  | zero =>
    intro k hfull hn
    -- level `k` is full, so it is in use
    have hused := (hf.data_eq_nil_iff (by decide)).mpr (show n ≤ k by omega)
    have := eight_le_cap k
    grind
  | succ fuel ih =>
    intro k hfull hn
    rw [mergeLevels]
    by_cases hlen : (ls.data (k + 1)).length = cap level0MaxEntries (k + 1)
    · obtain ⟨j, hkj, hall, hnot, heq⟩ := ih (k := k + 1) (by grind) (by omega)
      rw [if_pos hlen, ← cap_succ]
      exact ⟨j, by omega, hall, hnot, heq⟩
    · rw [if_neg hlen]
      exact ⟨k, Nat.le_refl k, hfull, hlen, rfl⟩

theorem span_shift (h : ∀ i < n, ls'.data (i + 1) = ls.data i) : ls'.span 1 n = ls.span 0 n := by
  induction n with
  | zero => rfl
  | succ n ih => grind [span]

/-- Levels after room was made for `e`: level `j` went into the level above it and
the lower ones up by one. -/
structure MovedUp (ls res : Levels α) (j : Nat) (e : α) : Prop where
  above : ∀ i, j + 1 < i → res.get i = ls.get i
  top : res.data (j + 1) = ls.data (j + 1) ++ ls.data j
  low : ∀ i < j, res.data (i + 1) = ls.data i
  new : res.data 0 = [e]

theorem movedUp (ls : Levels α) (j : Nat) (e : α) :
    MovedUp ls ((moveUp (ls.put (j + 1) (ls.data (j + 1) ++ ls.data j)) j).put 0 [e]) j e := by
  have hget := @get_moveUp_of_lt _ (ls.put (j + 1) (ls.data (j + 1) ++ ls.data j)) j
  have hdata := @data_moveUp _ (ls.put (j + 1) (ls.data (j + 1) ++ ls.data j)) j
  constructor
  case top => grind [data]
  all_goals grind

namespace MovedUp

variable {res : Levels α} {j : Nat} {e : α}

theorem data_above (h : MovedUp ls res j e) {i : Nat} (hi : j + 1 < i) :
    res.data i = ls.data i := by
  rw [data, data, h.above i hi]

theorem filled (h : MovedUp ls res j e) (hf : Filled level0MaxEntries ls n)
    (hfull : ∀ i ≤ j, (ls.data i).length = cap level0MaxEntries i)
    (hnot : (ls.data (j + 1)).length ≠ cap level0MaxEntries (j + 1)) :
    Filled level0MaxEntries res (max n (j + 2)) := by
  obtain ⟨hused, hunused⟩ := hf
  obtain ⟨habove, htop, hlow, hnew⟩ := h
  refine ⟨fun i hi => ?_, by grind⟩
  rcases Nat.lt_trichotomy i (j + 1) with hlt | rfl | hgt
  · cases i with
    | zero => grind [Ok, level0MaxEntries]
    | succ i => grind [Ok]
  · -- the level merged into was empty or half full
    by_cases hin : j + 1 < n
    · grind [Ok]
    · grind [Ok]
  · grind [data]

theorem span_eq (h : MovedUp ls res j e) (hf : Filled level0MaxEntries ls n) :
    res.span 0 (max n (j + 2)) = ls.span 0 n ++ [e] := by
  have hlow : res.span 0 (j + 2) = ls.span 0 (j + 2) ++ [e] := by
    have htop : res.data (1 + j) = ls.data (j + 1) ++ ls.data j := by rw [Nat.add_comm, h.top]
    calc res.span 0 (j + 2) = res.span 0 (1 + (j + 1)) := by rw [show j + 2 = 1 + (j + 1) by omega]
      _ = res.data (1 + j) ++ res.span 1 j ++ res.data 0 := by
        rw [span_add, span_one, Nat.zero_add, span]
      _ = ls.data (j + 1) ++ ls.data j ++ ls.span 0 j ++ [e] := by
        rw [htop, span_shift h.low, h.new]
      _ = ls.span 0 (j + 2) ++ [e] := by
        rw [span, span, Nat.zero_add, Nat.zero_add, List.append_assoc (ls.data (j + 1))]
  have hunused : ls.span 0 (max n (j + 2)) = ls.span 0 n := by
    rw [show max n (j + 2) = n + (max n (j + 2) - n) by omega, span_add, Nat.zero_add,
      span_of_empty fun k hk _ => data_of_none (hf.unused k hk), List.nil_append]
  obtain ⟨m, hm⟩ : ∃ m, max n (j + 2) = j + 2 + m := ⟨max n (j + 2) - (j + 2), by omega⟩
  rw [← hunused, hm, span_add res 0 (j + 2) m, span_add ls 0 (j + 2) m, hlow,
    span_congr fun k hk _ => h.data_above (by omega), List.append_assoc]

end MovedUp

theorem holds_put_level0 (hf : Filled level0MaxEntries ls n)
    (hroom : (ls.data 0).length + 1 ≤ level0MaxEntries) (e : α) :
    Holds (ls.put 0 (ls.data 0 ++ [e])) (ls.span 0 n ++ [e]) := by
  obtain ⟨hused, hunused⟩ := hf
  refine ⟨max n 1, ⟨fun k hk => ?_, by grind⟩, ?_⟩
  · grind [Ok]
  · rw [span_split _ (show 0 < max n 1 by omega), data_put_self]
    cases n with
    | zero =>
      rw [data_of_none (hunused 0 (Nat.le_refl 0))]
      rfl
    | succ n =>
      rw [span_split ls (Nat.succ_pos n), show max (n + 1) 1 = n + 1 by omega,
        span_congr fun k hk _ => data_put_of_ne ls _ (by omega)]
      simp [span]

theorem dbPutAddrIndexEntry_ok {es : List α} (h : Holds ls es) (hlen : es.length < 2 ^ 64) (e : α) :
    ∃ ls', dbPutAddrIndexEntry ls e = .ok ls' ∧ Holds ls' (es ++ [e]) := by
  obtain ⟨n, hf, rfl⟩ := h
  have hn := levels_le hf hlen
  rw [dbPutAddrIndexEntry]
  by_cases hroom : (ls.data 0).length + 1 ≤ level0MaxEntries
  · rw [if_pos hroom]
    exact ⟨_, rfl, holds_put_level0 hf hroom e⟩
  · rw [if_neg hroom]
    have hzero : ∀ i ≤ 0, (ls.data i).length = cap level0MaxEntries i := by
      intro i hi
      obtain rfl : i = 0 := by omega
      have hpos : 0 < n := by
        by_contra hno
        rw [data_of_none (hf.unused 0 (by omega))] at hroom
        exact hroom (show 0 + 1 ≤ level0MaxEntries by decide)
      have := (hf.used 0 hpos).2
      rw [cap_zero]
      omega
    obtain ⟨j, -, hfull, hnot, hmerge⟩ :=
      mergeLevels_ok hf hzero (show n < 0 + 1 + (numLevels - 1) by rw [numLevels]; omega)
    have hmax : cap level0MaxEntries (0 + 1) = 2 * level0MaxEntries := by rw [cap_succ, cap_zero]
    have hmoved := movedUp ls j e
    rw [hmax, Nat.zero_add] at hmerge
    rw [hmerge]
    exact ⟨_, rfl, _, hmoved.filled hf hfull hnot, hmoved.span_eq hf⟩

/-! ## Taking entries away -/

variable {low high : Nat}

/-- The pending updates are those of the levels up to `high`. -/
def Loaded (p : Levels α) (high : Nat) : Prop := ∀ k, (p.get k).isSome = true ↔ k ≤ high

theorem span_from (ls : Levels α) (h : k < n) :
    ls.span k (n - k) = ls.span (k + 1) (n - (k + 1)) ++ ls.data k := by
  rw [show n - k = 1 + (n - (k + 1)) by omega, span_add, span_one]

@[grind =]
theorem isSome_put {d : List α} {i : Nat} :
    ((p.put k d).get i).isSome = true ↔ i = k ∨ (p.get i).isSome = true := by
  grind

section RemoveNewest

variable (key : AddrKey) (count : Nat)

theorem removeNewest_ok (hf : Filled level0MaxEntries ls n) :
    ∀ (fuel l r : Nat) (p : Levels α), 1 ≤ r → r ≤ (ls.span l (n - l)).length → n < l + fuel →
      (∀ k, (p.get k).isSome = true ↔ k < l) → (∀ k < l, p.data k = []) →
      ∃ p' h r', removeNewest key ls count fuel l r p = .ok (p', h) ∧ l ≤ h ∧ h < n ∧ 1 ≤ r' ∧
        r = (ls.span l (h - l)).length + r' ∧ Loaded p' h ∧ (∀ k < h, p'.data k = []) ∧
        p'.data h = (ls.data h).take ((ls.data h).length - r') ∧ r' ≤ (ls.data h).length := by
  intro fuel
  induction fuel with
  | zero =>
    intro l r p hr hle hn
    rw [show n - l = 0 by omega] at hle
    exact absurd (hr.trans hle) (by simp [span])
  | succ fuel ih =>
    intro l r p hr hle hn hsome hempty
    have hln : l < n := by
      by_contra hge
      rw [show n - l = 0 by omega] at hle
      exact absurd (hr.trans hle) (by simp [span])
    have hne := (hf.used l hln).ne_nil (by decide)
    have hloaded : ∀ d : List α, Loaded (p.put l d) l := by
      unfold Loaded
      grind
    rw [span_from ls hln, List.length_append] at hle
    rw [removeNewest, if_neg (by simpa using hne)]
    by_cases hall : (ls.data l).length ≤ r
    · rw [if_pos hall]
      dsimp only
      by_cases hdone : r - (ls.data l).length = 0
      · rw [if_pos hdone]
        refine ⟨_, l, r, rfl, Nat.le_refl l, hln, hr, by simp [span], hloaded [], by grind, ?_,
          by omega⟩
        rw [data_put_self, show (ls.data l).length - r = 0 by omega, List.take_zero]
      · rw [if_neg hdone]
        obtain ⟨p', h, r', heq, hlh, hhn, hr₁, hsum, hrest⟩ :=
          ih (l + 1) (r - (ls.data l).length) (p.put l []) (by omega) (by omega) (by omega)
            (by grind) (by grind)
        refine ⟨p', h, r', heq, by omega, hhn, hr₁, ?_, hrest⟩
        rw [span_from ls (show l < h by omega), List.length_append]
        omega
    · rw [if_neg hall]
      exact ⟨_, l, r, rfl, Nat.le_refl l, hln, hr, by simp [span], hloaded _, by grind,
        data_put_self p l _, by omega⟩

theorem removeNewest_error (hf : Filled level0MaxEntries ls n) :
    ∀ (fuel l r : Nat) (p : Levels α), (ls.span l (n - l)).length < r → l ≤ n → n < l + fuel →
      ∃ text, removeNewest key ls count fuel l r p = .error (.assertion text) := by
  intro fuel
  induction fuel with
  | zero =>
    intro l r p _ hle hn
    omega
  | succ fuel ih =>
    intro l r p hlt hle hn
    rw [removeNewest]
    by_cases hzero : (ls.data l).length = 0
    · rw [if_pos hzero]
      exact ⟨_, rfl⟩
    · have hln : l < n := by
        by_contra hge
        rw [data_of_none (hf.unused l (by omega))] at hzero
        exact hzero rfl
      rw [span_from ls hln, List.length_append] at hlt
      rw [if_neg hzero, if_pos (by omega)]
      dsimp only
      rw [if_neg (by omega)]
      exact ih (l + 1) _ _ (by omega) hln (by omega)

end RemoveNewest

/-! ### Squashing -/

/-- What squashing levels `k` to 1 leaves: the levels up to `top` in shape, those
above it empty, and the rest for level 0. -/
structure Squashed (k : Nat) (s s' : Squash α) (top : Nat) : Prop where
  le : top ≤ k
  outside : ∀ i, i = 0 ∨ k < i → s'.pending.get i = s.pending.get i
  loaded : ∀ i, 1 ≤ i → i ≤ k → (s'.pending.get i).isSome = true
  used : ∀ i, 1 ≤ i → i ≤ top → Ok level0MaxEntries i (s'.pending.data i)
  empty : ∀ i, top < i → i ≤ k → s'.pending.data i = []
  entries : s'.pending.span 1 top ++ s'.curLevelData = s.curLevelData
  rest_le : s'.curLevelData.length ≤ level0MaxEntries
  rest_ne : top ≠ 0 → s'.curLevelData ≠ []
  lowest : s'.lowestEmptyLevel = if top < k then top + 1 else s.lowestEmptyLevel
  reached : cap level0MaxEntries k ≤ s.curLevelData.length + 7 → top = k ∧ s'.curLevelData ≠ []

theorem squash_spec : ∀ (k : Nat) (s : Squash α),
    s.curLevelData.length + 8 ≤ cap level0MaxEntries (k + 1) →
    ∃ top, Squashed k s (squash k s) top := by
  intro k
  induction k with
  | zero =>
    intro s hlen
    have h₁ : cap level0MaxEntries (0 + 1) = 16 := rfl
    have h₀ : cap level0MaxEntries 0 = 8 := rfl
    have hc : level0MaxEntries = 8 := rfl
    refine ⟨0, ?_⟩
    rw [squash]
    constructor <;> grind [span]
  | succ k ih =>
    intro s hlen
    have hmin := minEntriesToReachLevel_eq k
    have hsucc := cap_succ level0MaxEntries k
    have hsucc' := cap_succ level0MaxEntries (k + 1)
    have hhalf : maxEntriesForLevel (k + 1) / 2 = cap level0MaxEntries k := by
      rw [maxEntriesForLevel_eq, hsucc]
      omega
    rw [squash]
    dsimp only
    rw [hhalf, maxEntriesForLevel_eq]
    split
    case isTrue hfew =>
      -- too few entries to reach the level: it stays empty
      obtain ⟨top, hs⟩ := ih { s with
        pending := s.pending.put (k + 1) []
        lowestEmptyLevel := k + 1 } (by dsimp only; omega)
      obtain ⟨hle, houtside, hloaded, hused, hempty, hentries, hrest, hne, hlowest, -⟩ := hs
      refine ⟨top, ?_⟩
      constructor
      case empty => grind [data]
      all_goals grind
    case isFalse hmany =>
      -- the level gets half or all of its room, and enough is left for the ones below
      generalize hoff : (if cap level0MaxEntries (k + 1) + minEntriesToReachLevel k ≤
        s.curLevelData.length then cap level0MaxEntries (k + 1)
        else cap level0MaxEntries k) = offset
      have hoffset : (offset = cap level0MaxEntries k ∨ offset = cap level0MaxEntries (k + 1)) ∧
          offset ≤ s.curLevelData.length ∧
          s.curLevelData.length - offset + 8 ≤ cap level0MaxEntries (k + 1) ∧
          cap level0MaxEntries k ≤ s.curLevelData.length - offset + 7 := by
        subst hoff
        split <;> omega
      obtain ⟨hshape, hfits, hleft, henough⟩ := hoffset
      obtain ⟨top, hs⟩ := ih { s with
        pending := s.pending.put (k + 1) (s.curLevelData.take offset)
        curLevelData := s.curLevelData.drop offset } (by simpa using hleft)
      obtain ⟨hle, houtside, hloaded, hused, -, hentries, hrest, -, hlowest, hreached⟩ := hs
      obtain ⟨rfl, hne⟩ := hreached (by simpa using henough)
      refine ⟨top + 1, ?_⟩
      constructor
      case used =>  grind [data, Ok]
      case entries =>
        rw [span, Nat.add_comm 1 top]
        grind [data, List.take_append_drop]
      all_goals grind

/-! ### Backfilling -/

/-- The data of a full level spread over the levels from `low` on. -/
structure Halved (low level : Nat) (d : List α) (p p' : Levels α) : Prop where
  outside : ∀ i, i < low ∨ level < i → p'.get i = p.get i
  loaded : ∀ i, low ≤ i → i ≤ level → (p'.get i).isSome = true
  used : ∀ i, low ≤ i → i ≤ level → Ok level0MaxEntries i (p'.data i)
  entries : p'.span low (level + 1 - low) = d

theorem halve_spec : ∀ {level : Nat} {d : List α} {p : Levels α}, low ≤ level →
    d.length = cap level0MaxEntries level → p.get level = some d →
    Halved low level d p (halve low level (cap level0MaxEntries level) d p) := by
  intro level
  have hsame : ∀ {level : Nat} {d : List α} {p : Levels α}, low = level →
      d.length = cap level0MaxEntries level → p.get level = some d → Halved low level d p p := by
    rintro level d p rfl hlen hget
    have hdata : p.data low = d := by rw [data, hget, Option.getD_some]
    have hfull := ok_of_full (by decide) hlen
    constructor
    case entries => rw [show low + 1 - low = 1 by omega, span_one, hdata]
    all_goals grind
  induction level with
  | zero =>
    intro d p hle hlen hget
    exact hsame (by omega) hlen hget
  | succ level ih =>
    intro d p hle hlen hget
    rw [halve]
    by_cases hlt : low < level + 1
    · have hhalf : cap level0MaxEntries (level + 1) / 2 = cap level0MaxEntries level := by grind
      rw [if_pos hlt]
      dsimp only
      rw [hhalf]
      obtain ⟨houtside, hloaded, hused, hentries⟩ := ih
        (p := (p.put (level + 1) (d.take (cap level0MaxEntries level))).put level
          (d.drop (cap level0MaxEntries level))) (by omega) (by grind) (Bucket.get_put_self _ _ _)
      constructor
      case used => grind [data, Ok]
      case entries =>
        rw [show level + 1 + 1 - low = (level + 1 - low) + 1 by omega, span, hentries,
          show low + (level + 1 - low) = level + 1 by omega]
        grind [data, List.take_append_drop]
      all_goals grind
    · rw [if_neg hlt]
      exact hsame (by omega) hlen hget

/-- The pending updates when the loop looks at the level behind `high`: the levels
below `low` are in shape and those from there to `high` empty. -/
structure Gap (p : Levels α) (low high : Nat) : Prop where
  loaded : Loaded p high
  used : ∀ k < low, Ok level0MaxEntries k (p.data k)
  empty : ∀ k, low ≤ k → k ≤ high → p.data k = []
  le : low ≤ high + 1

theorem get_applyPending (ls p : Levels α) (k : Nat) :
    (applyPending ls p).get k = match p.get k with
      | none => ls.get k
      | some [] => none
      | some (e :: es) => some (e :: es) := rfl

namespace Gap

theorem get_none (h : Gap p low high) (hk : high < k) : p.get k = none := by
  have := h.loaded k
  cases hget : p.get k <;> grind

theorem get_some (h : Gap p low high) (hk : k ≤ high) : p.get k = some (p.data k) := by
  have := h.loaded k
  cases hget : p.get k <;> grind [data]

theorem data_above (h : Gap p low high) (ls : Levels α) (hk : high < k) :
    (applyPending ls p).data k = ls.data k := by
  rw [data, data, get_applyPending, h.get_none hk]

theorem data_below (h : Gap p low high) (ls : Levels α) (hk : k ≤ high) :
    (applyPending ls p).data k = p.data k := by
  rw [data, get_applyPending, h.get_some hk]
  cases p.data k <;> rfl

theorem closed (h : Gap p (high + 1) high) (hf : Filled level0MaxEntries ls n) (hn : high < n) :
    Holds (applyPending ls p) (ls.span (high + 1) (n - (high + 1)) ++ p.span 0 (high + 1)) := by
  obtain ⟨hused, hunused⟩ := hf
  refine ⟨n, ⟨fun k hk => ?_, fun k hk => ?_⟩, ?_⟩
  · have := h.used k
    by_cases hkh : k ≤ high
    · grind [h.data_below ls hkh]
    · grind [h.data_above ls (k := k)]
  · rw [get_applyPending, h.get_none (by omega)]
    exact hunused k hk
  · obtain ⟨m, rfl⟩ : ∃ m, n = high + 1 + m := ⟨n - (high + 1), by omega⟩
    rw [span_add _ 0 (high + 1) m, Nat.zero_add, Nat.add_sub_cancel_left,
      span_congr fun k hk _ => h.data_above ls (by omega),
      span_congr fun k _ hk => h.data_below ls (by omega)]

theorem on_top (h : Gap p low high) (hf : Filled level0MaxEntries ls n) (hn : n ≤ high + 1) :
    Holds (applyPending ls p) (p.span 0 low) := by
  have hle := h.le
  refine ⟨low, ⟨fun k hk => ?_, fun k hk => ?_⟩, ?_⟩
  · rw [h.data_below ls (by omega)]
    exact h.used k hk
  · rw [get_applyPending]
    by_cases hkh : k ≤ high
    · rw [h.get_some hkh, h.empty k hk hkh]
    · rw [h.get_none (by omega)]
      exact hf.unused k (by omega)
  · exact span_congr fun k _ hk => h.data_below ls (by omega)

theorem fill {p₁ p' : Levels α} {level : Nat} {d : List α} (h : Gap p low high) (hlow : low ≤ high)
    (hlevel : level = high ∨ level = high + 1) (hs : Halved low level d p₁ p')
    (hbelow : ∀ i, i < low → p₁.get i = p.get i) (habove : ∀ i, high + 1 < i → p₁.get i = none)
    (hnext : level = high → p₁.get (high + 1) = some []) :
    Gap p' (level + 1) (high + 1) ∧ p'.span 0 (level + 1) = d ++ p.span 0 low := by
  have hlast : level = high → p'.get (high + 1) = some [] := by
    intro heq
    rw [hs.outside (high + 1) (.inr (by omega)), hnext heq]
  obtain ⟨houtside, hloaded, hused, hentries⟩ := hs
  have hdata : ∀ i, i < low → p'.data i = p.data i := by grind [data]
  have hold := h.used
  refine ⟨⟨fun k => ?_, by grind, by grind [data], by omega⟩, ?_⟩
  · have := h.loaded k
    grind
  · have hsum : level + 1 = low + (level + 1 - low) := by omega
    rw [hsum, span_add, Nat.zero_add, hentries, span_congr fun k _ hk => hdata k (by omega)]

end Gap

theorem backfill_ok (hf : Filled level0MaxEntries ls n) :
    ∀ {fuel low low' high : Nat} {p : Levels α}, Gap p low high → high < n →
      (low ≤ high → low' = low) → n ≤ high + fuel →
      ∃ p', backfill ls fuel high low' p = .ok p' ∧
        Holds (applyPending ls p') (ls.span (high + 1) (n - (high + 1)) ++ p.span 0 low) := by
  intro fuel
  induction fuel with
  | zero =>
    intro low low' high p _ hhigh _ hn
    omega
  | succ fuel ih =>
    intro low low' high p hgap hhigh hlow' hn
    have hle := hgap.le
    rw [backfill]
    by_cases hdone : (p.data high).length = 0
    · have hnil : p.data high = [] := List.length_eq_zero_iff.mp hdone
      have hlow : low ≤ high := by
        by_contra hgt
        exact (hgap.used high (by omega)).ne_nil (by decide) hnil
      obtain rfl := hlow' hlow
      rw [if_neg (not_not.mpr hdone)]
      dsimp only
      by_cases hempty : (ls.data (high + 1)).length = 0
      · have hn' := (hf.data_eq_nil_iff (by decide)).mp (List.length_eq_zero_iff.mp hempty)
        rw [if_pos hempty]
        refine ⟨p, rfl, ?_⟩
        rw [show n - (high + 1) = 0 by omega]
        exact hgap.on_top hf hn'
      · have hnext : high + 1 < n := by
          by_contra hge
          exact hempty (by rw [data_of_none (hf.unused _ (by omega))]; rfl)
        rw [if_neg hempty, maxEntriesForLevel_eq, span_from ls hnext, List.append_assoc]
        have hhalf : cap level0MaxEntries (high + 1) / 2 = cap level0MaxEntries high := by grind
        by_cases hfull : (ls.data (high + 1)).length = cap level0MaxEntries (high + 1)
        · -- the level is full: it is halved from its own place down
          rw [if_neg (not_not.mpr hfull)]
          have hs := halve_spec (p := p.put (high + 1) (ls.data (high + 1)))
            (hlow.trans (Nat.le_succ high)) hfull (Bucket.get_put_self _ _ _)
          obtain ⟨hgap', hspan⟩ :=
            hgap.fill hlow (.inr rfl) hs (by grind) (by grind [hgap.get_none]) (fun h => by omega)
          rw [← hspan]
          exact ih hgap' hnext (fun h => by omega) (by omega)
        · -- it is half full: it moves down a level first
          have hlen : (ls.data (high + 1)).length = cap level0MaxEntries high :=
            (hf.used (high + 1) hnext).resolve_right hfull
          rw [if_pos hfull, hhalf]
          have hs := halve_spec
            (p := ((p.put (high + 1) (ls.data (high + 1))).put (high + 1) []).put high
              (ls.data (high + 1))) hlow hlen (Bucket.get_put_self _ _ _)
          obtain ⟨hgap', hspan⟩ :=
            hgap.fill hlow (.inl rfl) hs (by grind) (by grind [hgap.get_none]) (by grind)
          rw [← hspan]
          exact ih hgap' hnext (fun _ => rfl) (by omega)
    · rw [if_pos hdone]
      have hclosed : low = high + 1 := by
        by_contra hne
        exact hdone (by rw [hgap.empty high (by omega) (Nat.le_refl high)]; rfl)
      subst hclosed
      exact ⟨p, rfl, hgap.closed hf hhigh⟩

theorem Squashed.gap {p : Levels α} {d : List α} {low' top : Nat} {s' : Squash α}
    (h : Squashed high ⟨d, p, low'⟩ s' top) (hloaded : Loaded p high) :
    ∃ low, Gap (s'.pending.put 0 s'.curLevelData) low high ∧
      (low ≤ high → (if s'.curLevelData.length = 0 then 0 else s'.lowestEmptyLevel) = low) ∧
      span (s'.pending.put 0 s'.curLevelData) 0 low = d := by
  have hload : Loaded (s'.pending.put 0 s'.curLevelData) high := by
    intro k
    have := hloaded k
    have := h.outside k
    have := h.loaded k
    grind
  have hdata : ∀ k, 1 ≤ k → data (s'.pending.put 0 s'.curLevelData) k = s'.pending.data k :=
    fun k hk => data_put_of_ne _ _ (by omega)
  obtain ⟨hle, -, -, hused, hempty, hentries, hrest, hne, hlowest, -⟩ := h
  by_cases hnil : s'.curLevelData = []
  · obtain rfl : top = 0 := by
      by_contra htop
      exact hne htop hnil
    refine ⟨0, ⟨hload, by grind, by grind, by omega⟩, by grind, ?_⟩
    simpa [span, hnil] using hentries
  · refine ⟨top + 1, ⟨hload, fun k hk => ?_, by grind, by omega⟩, by grind, ?_⟩
    · grind [Ok]
    · rw [Nat.add_comm, span_add, span_one, Nat.zero_add, data_put_self,
        span_congr fun k hk _ => hdata k hk, hentries]

theorem dbRemoveAddrIndexEntries_ok (key : AddrKey) {es : List α} {r : Nat} (h : Holds ls es)
    (hlen : es.length < 2 ^ 64) (hr : r ≤ es.length) :
    ∃ ls', dbRemoveAddrIndexEntries key ls r = .ok ls' ∧ Holds ls' (es.take (es.length - r)) := by
  rw [dbRemoveAddrIndexEntries]
  by_cases hzero : r = 0
  · subst hzero
    rw [if_pos rfl]
    exact ⟨ls, rfl, by rwa [Nat.sub_zero, List.take_length]⟩
  obtain ⟨n, hf, rfl⟩ := h
  have hn := levels_le hf hlen
  have hnum : numLevels = 256 := rfl
  obtain ⟨p, high, r', hremove, -, hhigh, hr₁, hsum, hloaded, hempty, hdata, hr'⟩ :=
    removeNewest_ok key r hf numLevels 0 r .empty
      (by omega) hr (by omega) (fun k => by simp) (fun k hk => by omega)
  -- what is left above level `high`, and of it
  have hleft : (ls.span 0 n).take ((ls.span 0 n).length - r) =
      ls.span (high + 1) (n - (high + 1)) ++ p.data high := by
    have htotal : (ls.span 0 n).length - r =
        (ls.span (high + 1) (n - (high + 1))).length + ((ls.data high).length - r') := by
      grind [span_split]
    rw [htotal, span_split ls hhigh, List.take_length_add_append,
      List.take_append_of_le_length (Nat.sub_le _ _), hdata]
  rw [if_neg hzero, hremove, hleft]
  show ∃ ls', (if (p.data 0).length ≠ 0 then Except.ok (applyPending ls p) else
    (backfill ls numLevels high _ _).bind fun pending => Except.ok (applyPending ls pending)) =
      .ok ls' ∧ _
  have hroom := (hf.used high hhigh).length_le
  have hcut : (p.data high).length + r' = (ls.data high).length := by
    rw [hdata, List.length_take]
    omega
  by_cases hsome : (p.data 0).length = 0
  · rw [if_neg (not_not.mpr hsome)]
    obtain ⟨top, hs⟩ := squash_spec high ⟨p.data high, p, 255⟩ (by
      have := eight_le_cap high
      rw [cap_succ]
      dsimp only
      omega)
    obtain ⟨low, hgap, hlow, hspan⟩ := hs.gap hloaded
    obtain ⟨p', hback, hholds⟩ := backfill_ok hf hgap hhigh hlow (show n ≤ high + numLevels by omega)
    rw [hback]
    rw [hspan] at hholds
    exact ⟨_, rfl, hholds⟩
  · -- something is left in level 0
    have hhigh₀ : high = 0 := by
      by_contra hne
      exact hsome (by rw [hempty 0 (by omega)]; rfl)
    subst hhigh₀
    rw [if_pos hsome]
    have hgap : Gap p (0 + 1) 0 := by
      refine ⟨hloaded, fun k hk => ?_, fun k h₁ h₂ => by omega, Nat.le_refl _⟩
      obtain rfl : k = 0 := by omega
      rw [cap_zero] at hroom
      exact ⟨by omega, by omega⟩
    refine ⟨_, rfl, ?_⟩
    rw [← span_one p 0]
    exact hgap.closed hf hhigh

theorem dbRemoveAddrIndexEntries_error (key : AddrKey) {es : List α} {r : Nat} (h : Holds ls es)
    (hlen : es.length < 2 ^ 64) (hr : es.length < r) :
    ∃ text, dbRemoveAddrIndexEntries key ls r = .error (.assertion text) := by
  obtain ⟨n, hf, rfl⟩ := h
  have hn := levels_le hf hlen
  have hnum : numLevels = 256 := rfl
  obtain ⟨text, herror⟩ :=
    removeNewest_error key r hf numLevels 0 r .empty hr (Nat.zero_le n) (by omega)
  rw [dbRemoveAddrIndexEntries, if_neg (by omega), herror]
  exact ⟨text, rfl⟩

end FalconDraw.Index
