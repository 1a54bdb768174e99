/-
FalconDraw.Chain.SkipTheorems — skip pointers lead to true ancestors.

A round of `Ancestor` goes to the height without its two lowest bits, or one down
where that would be too far.
-/
import FalconDraw.Chain.BlockIndex

namespace FalconDraw.Chain

open Lib Wire List

/-! ## Heights -/

def nextHeight (h n : Nat) : Nat :=
  if h ≤ getAncestorHeight n then getAncestorHeight n else n - 1

/-- The walk to `h` goes from `n` to `m` in this many rounds. -/
inductive HeightWalk (h : Nat) : Nat → Nat → Nat → Prop
  | done (n : Nat) : HeightWalk h n n 0
  | round {n m s : Nat} (hlt : h < n) (hrest : HeightWalk h (nextHeight h n) m s) :
      HeightWalk h n m (s + 1)

theorem getAncestorHeight_lt {n : Nat} (h : 0 < n) : getAncestorHeight n < n :=
  Nat.lt_of_le_of_lt (clearLowest_le _) (clearLowest_lt h)

theorem nextHeight_lt {h n : Nat} (hlt : h < n) : nextHeight h n < n := by
  have := @getAncestorHeight_lt n (by omega)
  unfold nextHeight
  split <;> omega

theorem le_nextHeight {h n : Nat} (hlt : h < n) : h ≤ nextHeight h n := by
  unfold nextHeight
  split <;> omega

theorem getAncestorHeight_bitSum {a b : Nat} {es : List Nat} (h : (a :: b :: es).Pairwise (· < ·)) :
    getAncestorHeight (bitSum (a :: b :: es)) = bitSum es := by
  show clearLowest (clearLowest _) = _
  rw [clearLowest_bitSum h, clearLowest_bitSum (pairwise_cons.mp h).2]

namespace HeightWalk

variable {h n m k s s' : Nat}

theorem trans (h₁ : HeightWalk h n m s) (h₂ : HeightWalk h m k s') : HeightWalk h n k (s + s') := by
  induction h₁ with
  | done => rwa [Nat.zero_add]
  | round hlt _ ih =>
    rw [Nat.add_right_comm]
    exact .round hlt (ih h₂)

theorem one (hlt : h < n) : HeightWalk h n (nextHeight h n) 1 := .round hlt (.done _)

theorem rounds_le_heights (hwalk : HeightWalk h n m s) : m + s ≤ n := by
  induction hwalk with
  | done => exact Nat.le_refl _
  | round hlt _ ih =>
    have := nextHeight_lt hlt
    omega

theorem exists_arrival : ∀ {n : Nat}, h ≤ n → ∃ s, HeightWalk h n h s := by
  intro n
  induction n using Nat.strongRecOn with
  | ind n ih =>
    intro hle
    rcases Nat.eq_or_lt_of_le hle with rfl | hlt
    · exact ⟨0, .done _⟩
    · obtain ⟨s, hwalk⟩ := ih _ (nextHeight_lt hlt) (le_nextHeight hlt)
      exact ⟨s + 1, .round hlt hwalk⟩

end HeightWalk

/-! ## Counting rounds -/

/-- The walk to `h` gets from `n` to `m`, or arrives before, in at most `c` rounds. -/
def WalkWithin (h n m c : Nat) : Prop := ∃ s ≤ c, HeightWalk h n m s ∨ HeightWalk h n h s

namespace WalkWithin

variable {h n m k c d : Nat}

theorem here (n : Nat) : WalkWithin h n n 0 := ⟨0, Nat.le_refl 0, .inl (.done n)⟩

theorem mono (hw : WalkWithin h n m c) (hle : c ≤ d) : WalkWithin h n m d := by
  obtain ⟨s, hs, hwalk⟩ := hw
  exact ⟨s, hs.trans hle, hwalk⟩

theorem trans (h₁ : WalkWithin h n m c) (h₂ : WalkWithin h m k d) : WalkWithin h n k (c + d) := by
  obtain ⟨s, hs, hwalk | hwalk⟩ := h₁
  · obtain ⟨s', hs', hwalk' | hwalk'⟩ := h₂
    · exact ⟨s + s', by omega, .inl (hwalk.trans hwalk')⟩
    · exact ⟨s + s', by omega, .inr (hwalk.trans hwalk')⟩
  · exact ⟨s, by omega, .inr hwalk⟩

theorem arrival (hw : WalkWithin h n h c) : ∃ s ≤ c, HeightWalk h n h s := by
  obtain ⟨s, hs, hwalk | hwalk⟩ := hw
  · exact ⟨s, hs, hwalk⟩
  · exact ⟨s, hs, hwalk⟩

end WalkWithin

section Bits

variable {h j k x : Nat} {P Q X : List Nat}

theorem walk_pairs : ∀ {j : Nat} {X : List Nat}, (X ++ Q).Pairwise (· < ·) → 2 * j ≤ X.length →
    h ≤ bitSum Q → WalkWithin h (bitSum (X ++ Q)) (bitSum (X.drop (2 * j) ++ Q)) j := by
  intro j
  induction j with
  | zero =>
    intro X _ _ _
    rw [Nat.mul_zero, drop_zero]
    exact .here _
  | succ j ih =>
    intro X hsorted hlen hQ
    rcases X with _ | ⟨a, _ | ⟨b, X⟩⟩
    · rw [length_nil] at hlen
      omega
    · rw [length_singleton] at hlen
      omega
    · rw [length_cons, length_cons] at hlen
      rw [cons_append, cons_append] at hsorted
      have hga := getAncestorHeight_bitSum hsorted
      have hle := le_bitSum_append X Q
      have hrest := ih (pairwise_cons.mp (pairwise_cons.mp hsorted).2).2
        (show 2 * j ≤ X.length by omega) hQ
      have hlt : h < bitSum (a :: b :: X ++ Q) := by
        grind [bitSum]
      have hnext : nextHeight h (bitSum (a :: b :: X ++ Q)) = bitSum (X ++ Q) := by
        rw [nextHeight, cons_append, cons_append, hga, if_pos (by omega)]
      have hone : WalkWithin h (bitSum (a :: b :: X ++ Q)) (bitSum (X ++ Q)) 1 :=
        ⟨1, Nat.le_refl 1, .inl (hnext ▸ HeightWalk.one hlt)⟩
      have hdrop : (a :: b :: X).drop (2 * (j + 1)) = X.drop (2 * j) := rfl
      rw [hdrop, Nat.add_comm j 1]
      exact hone.trans hrest

theorem walk_below (hsorted : (x :: Q).Pairwise (· < ·)) (hnear : clearLowest (bitSum Q) ≤ h)
    (hlt : h < bitSum (x :: Q)) :
    WalkWithin h (bitSum (x :: Q)) (bitSum (List.range x ++ Q)) 1 := by
  have hga : getAncestorHeight (bitSum (x :: Q)) = clearLowest (bitSum Q) :=
    congrArg clearLowest (clearLowest_bitSum hsorted)
  have hone := HeightWalk.one hlt
  rw [nextHeight, hga] at hone
  split at hone
  case isTrue hle =>
    rw [Nat.le_antisymm hnear hle] at hone
    exact ⟨1, Nat.le_refl 1, .inr hone⟩
  case isFalse hgt =>
    rw [bitSum_cons_sub_one] at hone
    exact ⟨1, Nat.le_refl 1, .inl hone⟩

/-- The rounds it takes to get rid of all bits below `j`. -/
def clearRounds (j : Nat) : Nat := if j % 2 = 0 then j / 2 else j

theorem clearRounds_le (j : Nat) : clearRounds j ≤ j := by
  unfold clearRounds
  split <;> omega

theorem cons_pairwise (hQ : Q.Pairwise (· < ·)) (hhigh : ∀ e ∈ Q, j ≤ e) (hx : x < j) :
    (x :: Q).Pairwise (· < ·) :=
  pairwise_cons.mpr ⟨fun e he => Nat.lt_of_lt_of_le hx (hhigh e he), hQ⟩

theorem walk_range_pairs (hQ : Q.Pairwise (· < ·)) (hhigh : ∀ e ∈ Q, j ≤ e) (hle : h ≤ bitSum Q) :
    WalkWithin h (bitSum (List.range j ++ Q))
      (bitSum ((List.range j).drop (2 * (j / 2)) ++ Q)) (j / 2) := by
  refine walk_pairs (pairwise_append.mpr ⟨pairwise_lt_range, hQ, ?_⟩) ?_ hle
  · intro a ha e he
    exact Nat.lt_of_lt_of_le (mem_range.mp ha) (hhigh e he)
  · rw [length_range]
    omega

theorem walk_range_even (hQ : Q.Pairwise (· < ·)) (hhigh : ∀ e ∈ Q, j ≤ e) (hle : h ≤ bitSum Q)
    (heven : j % 2 = 0) : WalkWithin h (bitSum (List.range j ++ Q)) (bitSum Q) (j / 2) := by
  have hpairs := walk_range_pairs hQ hhigh hle
  rwa [drop_eq_nil_of_le (by rw [length_range]; omega), nil_append] at hpairs

theorem walk_range (hQ : Q.Pairwise (· < ·)) (hhigh : ∀ e ∈ Q, j ≤ e) (hle : h ≤ bitSum Q)
    (hnear : clearLowest (bitSum Q) ≤ h) :
    WalkWithin h (bitSum (List.range j ++ Q)) (bitSum Q) (clearRounds j) := by
  unfold clearRounds
  split
  case isTrue heven => exact walk_range_even hQ hhigh hle heven
  case isFalse hodd =>
    -- the top bit of an odd number of bits is left over
    obtain ⟨i, rfl⟩ : ∃ i, j = 2 * i + 1 := ⟨j / 2, by omega⟩
    have hpairs := walk_range_pairs hQ hhigh hle
    have hlast : (List.range (2 * i + 1)).drop (2 * ((2 * i + 1) / 2)) = [2 * i] := by
      rw [show 2 * ((2 * i + 1) / 2) = 2 * i by omega, range_succ,
        drop_append_of_le_length (by rw [length_range]),
        drop_eq_nil_of_le (by rw [length_range]), nil_append]
    rw [hlast] at hpairs
    have htop : (2 * i :: Q).Pairwise (· < ·) := cons_pairwise hQ hhigh (by omega)
    have hlt : h < bitSum (2 * i :: Q) := by
      grind [bitSum]
    have hrest := walk_range_even hQ (fun e he => Nat.le_of_succ_le (hhigh e he)) hle
      (show 2 * i % 2 = 0 by omega)
    exact ((hpairs.trans (walk_below htop hnear hlt)).trans hrest).mono (by omega)

/-- The rounds from all bits below `k` down to anywhere but none of them. -/
def onesRounds : Nat → Nat
  | 0 => 0
  | 1 => 0
  | k + 2 => onesRounds (k + 1) + clearRounds (k + 1) + 1

theorem onesRounds_succ (k : Nat) : onesRounds k + clearRounds k ≤ onesRounds (k + 1) := by
  rcases k with _ | k
  · exact Nat.le_refl 0
  · exact Nat.le_succ _

theorem onesRounds_mono : Monotone onesRounds :=
  monotone_nat_of_le_succ fun k => by
    have := onesRounds_succ k
    omega

theorem walk_ones : ∀ {k : Nat} {P : List Nat}, P.Pairwise (· < ·) → (∀ e ∈ P, k ≤ e) →
    bitSum P < h → h < bitSum P + 2 ^ k →
    WalkWithin h (bitSum (List.range k ++ P)) h (onesRounds k) := by
  intro k
  induction k with
  | zero => omega
  | succ k ih =>
    intro P hP hhigh hgt hlt
    have hcons : (k :: P).Pairwise (· < ·) := cons_pairwise hP hhigh (Nat.lt_succ_self k)
    have hkcons : ∀ e ∈ k :: P, k ≤ e := by
      grind
    have hclear : clearLowest (bitSum (k :: P)) ≤ h := by
      rw [clearLowest_bitSum hcons]
      exact Nat.le_of_lt hgt
    have hsucc := onesRounds_succ k
    rw [range_succ, append_assoc, singleton_append]
    rcases Nat.lt_trichotomy h (bitSum (k :: P)) with hbit | hbit | hbit
    · -- the bit has to go
      have hsmall : h < bitSum P + 2 ^ k := by
        rw [bitSum] at hbit
        omega
      obtain ⟨k, rfl⟩ : ∃ i, k = i + 1 := by
        refine ⟨k - 1, ?_⟩
        rcases k with _ | k
        · rw [Nat.pow_zero] at hsmall
          omega
        · rfl
      have hrange := walk_range hcons hkcons (Nat.le_of_lt hbit) hclear
      have hbelow := walk_below hcons ((clearLowest_le _).trans (Nat.le_of_lt hgt)) hbit
      have hrest := ih hP (fun e he => Nat.le_of_succ_le (hhigh e he)) hgt hsmall
      exact ((hrange.trans hbelow).trans hrest).mono (by rw [onesRounds]; omega)
    · -- the bit is the last one that stays
      subst hbit
      exact (walk_range hcons hkcons (Nat.le_refl _) hclear).mono (by omega)
    · have hrest := ih hcons hkcons hbit (by
        rw [bitSum]
        rw [Nat.pow_succ] at hlt
        omega)
      exact hrest.mono (by omega)

theorem walk_bit (hcons : (k :: P).Pairwise (· < ·)) (hP : bitSum P ≤ h)
    (hlt : h < bitSum (k :: P)) : WalkWithin h (bitSum (k :: P)) h (1 + max k (onesRounds k)) := by
  obtain ⟨hhigh, hsorted⟩ := pairwise_cons.mp hcons
  have hkP : ∀ e ∈ P, k ≤ e := fun e he => Nat.le_of_lt (hhigh e he)
  have hbelow := walk_below hcons ((clearLowest_le _).trans hP) hlt
  rcases Nat.eq_or_lt_of_le hP with rfl | hgt
  · have hrange := walk_range hsorted hkP (Nat.le_refl _) (clearLowest_le _)
    have := clearRounds_le k
    exact (hbelow.trans hrange).mono (by omega)
  · have hsmall : h < bitSum P + 2 ^ k := by
      rw [bitSum] at hlt
      omega
    exact (hbelow.trans (walk_ones hsorted hkP hgt hsmall)).mono (by omega)

theorem walk_bits (hsorted : (X ++ k :: P).Pairwise (· < ·)) (hP : bitSum P ≤ h)
    (hlt : h < bitSum (k :: P)) :
    WalkWithin h (bitSum (X ++ k :: P)) h ((k - 1) / 2 + k + 1 + max k (onesRounds k)) := by
  obtain ⟨hX, hcons, hbelow⟩ := pairwise_append.mp hsorted
  have hXk : ∀ e ∈ X, e < k := fun e he => hbelow e he k mem_cons_self
  have hlen := length_le_of_pairwise_lt hX hXk
  have hbit := walk_bit hcons hP hlt
  have hpairs := walk_pairs hsorted (show 2 * (X.length / 2) ≤ X.length by omega)
    (Nat.le_of_lt hlt)
  rcases Nat.mod_two_eq_zero_or_one X.length with heven | hodd
  · rw [drop_eq_nil_of_le (by omega), nil_append] at hpairs
    exact (hpairs.trans hbit).mono (by omega)
  · obtain ⟨x, hx⟩ : ∃ x, X.drop (2 * (X.length / 2)) = [x] :=
      length_eq_one_iff.mp (by rw [length_drop]; omega)
    have hmem : x ∈ X := mem_of_mem_drop (hx ▸ mem_singleton_self x)
    have hxk := hXk x hmem
    have hxcons : ∀ e ∈ k :: P, x < e := fun e he => hbelow x hmem e he
    have hclear : clearLowest (bitSum (k :: P)) ≤ h := by
      rw [clearLowest_bitSum hcons]
      exact hP
    have hxlt : h < bitSum (x :: k :: P) := by
      grind [bitSum]
    have hlow := walk_below (pairwise_cons.mpr ⟨hxcons, hcons⟩) hclear hxlt
    have hrange := walk_range hcons (fun e he => Nat.le_of_lt (hxcons e he)) (Nat.le_of_lt hlt) hclear
    have := clearRounds_le x
    rw [hx, singleton_append] at hpairs
    exact (((hpairs.trans hlow).trans hrange).trans hbit).mono (by omega)

theorem exists_split : ∀ {es : List Nat}, h < bitSum es →
    ∃ X k P, es = X ++ k :: P ∧ bitSum P ≤ h ∧ h < bitSum (k :: P) := by
  intro es
  induction es with
  | nil => exact fun hlt => absurd hlt (Nat.not_lt_zero h)
  | cons e es ih =>
    intro hlt
    by_cases hrest : h < bitSum es
    · obtain ⟨X, k, P, rfl, hsplit⟩ := ih hrest
      exact ⟨e :: X, k, P, rfl, hsplit⟩
    · exact ⟨[], e, es, rfl, Nat.le_of_not_lt hrest, hlt⟩

end Bits

theorem rounds_le {h n : Nat} (hle : h ≤ n) (hn : n < 2 ^ 29) : ∃ s ≤ 356, HeightWalk h n h s := by
  obtain ⟨es, hsorted, hbits, rfl⟩ := exists_bits hn
  rcases Nat.eq_or_lt_of_le hle with rfl | hlt
  · exact ⟨0, Nat.zero_le _, .done _⟩
  · obtain ⟨X, k, P, rfl, hP, hk⟩ := exists_split hlt
    have hk28 : k ≤ 28 := Nat.le_of_lt_succ (hbits k (mem_append_right X mem_cons_self))
    have hones : onesRounds k ≤ 314 := (onesRounds_mono hk28).trans (by decide)
    exact ((walk_bits hsorted hP hk).mono (by omega)).arrival

/-! ## Tables -/

namespace NodeTable

variable {t : NodeTable} {p q h fuel s : Nat}

/-- What a node of a table points to. -/
structure Points (t : NodeTable) (p : Nat) (n : IndexNode) : Prop where
  root : n.parent = none → n.height = 0
  parent : ∀ {q}, n.parent = some q → q < p ∧ n.height = t.height q + 1
  ancestor : ∀ {q}, n.parent = some q →
    n.ancestor = ancestorAt t.parent t.height q (getAncestorHeight n.height)

/-- All nodes point where `newBlockNode` makes them point. -/
structure Linked (t : NodeTable) : Prop where
  points : ∀ {p n}, t[p]? = some n → Points t p n

theorem height_of_node {n : IndexNode} (hn : t[p]? = some n) : t.height p = n.height := by
  rw [height, hn]
  rfl

theorem parent_of_node {n : IndexNode} (hn : t[p]? = some n) : t.parent p = n.parent := by
  rw [parent, hn]
  rfl

theorem exists_node_of_parent (hp : t.parent p = some q) : ∃ n, t[p]? = some n ∧ n.parent = some q :=
  Option.bind_eq_some_iff.mp hp

namespace Linked

theorem graded (ht : Linked t) : Graded t.parent t.height where
  step := by
    intro p q hp
    obtain ⟨n, hn, hparent⟩ := exists_node_of_parent hp
    rw [height_of_node hn]
    exact ((ht.points hn).parent hparent).2
  root := by
    intro p hp
    rw [height]
    cases hn : t[p]? with
    | none => rfl
    | some n =>
      rw [parent_of_node hn] at hp
      exact (ht.points hn).root hp

theorem exists_back (ht : Linked t) (hlt : h < t.height p) :
    ∃ q, t[p]?.bind (back h) = some q ∧ t.height q = nextHeight h (t.height p) ∧
      ancestorAt t.parent t.height p h = ancestorAt t.parent t.height q h := by
  obtain ⟨q, hq, hheight⟩ := ht.graded.exists_parent (Nat.zero_lt_of_lt hlt)
  obtain ⟨n, hn, hparent⟩ := exists_node_of_parent hq
  have hn' := height_of_node hn
  have hga : getAncestorHeight n.height < n.height := getAncestorHeight_lt (by omega)
  obtain ⟨a, ha, haheight⟩ :=
    ht.graded.exists_ancestorAt (show getAncestorHeight n.height ≤ t.height q by omega)
  have hskip : n.ancestor = some a := ((ht.points hn).ancestor hparent).trans ha
  have hrest : ancestorAt t.parent t.height p h = ancestorAt t.parent t.height q h :=
    ht.graded.ancestorAt_parent hq (by omega)
  rw [hn, Option.bind_some, back, hskip, nextHeight, hn']
  by_cases hle : h ≤ getAncestorHeight n.height
  · grind [ht.graded.ancestorAt_trans]
  · grind

theorem walk_eq (ht : Linked t) {n m : Nat} (hwalk : HeightWalk h n m s) (hm : m = h) :
    ∀ {p fuel : Nat}, t.height p = n → s ≤ fuel →
      t.walk h fuel (some p) = some (ancestorAt t.parent t.height p h, s) := by
  induction hwalk with
  | done n =>
    subst hm
    intro p fuel hp _
    have hself : ancestorAt t.parent t.height p n = some p := hp ▸ ancestorAt_self p
    cases fuel <;> rw [walk, if_pos hp, hself]
  | @round n m s hlt _ ih =>
    intro p fuel hp hfuel
    obtain ⟨fuel, rfl⟩ : ∃ k, fuel = k + 1 := ⟨fuel - 1, by omega⟩
    obtain ⟨q, hback, hq, hrest⟩ := ht.exists_back (show h < t.height p by omega)
    rw [walk, if_neg (by omega), hback, ih hm (hp ▸ hq) (Nat.le_of_succ_le_succ hfuel), hrest]
    rfl

theorem ancestor_eq (ht : Linked t) (hle : h ≤ t.height p) :
    t.ancestor p h = ancestorAt t.parent t.height p h := by
  obtain ⟨s, hwalk⟩ := HeightWalk.exists_arrival hle
  have hs := hwalk.rounds_le_heights
  rw [ancestor, if_neg (by omega), Int.toNat_natCast,
    ht.walk_eq hwalk rfl rfl (show s ≤ t.height p by omega)]
  rfl

end Linked

/-! ## Growing -/

section Append

variable {n : IndexNode}

theorem node_append (hp : p < t.length) : (t ++ [n])[p]? = t[p]? := getElem?_append_left hp

theorem height_append (hp : p < t.length) : (t ++ [n]).height p = t.height p := by
  rw [height, height, node_append hp]

theorem parent_append (hp : p < t.length) : (t ++ [n]).parent p = t.parent p := by
  rw [parent, parent, node_append hp]

theorem lt_length {m : IndexNode} (hm : t[p]? = some m) : p < t.length :=
  (List.getElem?_eq_some_iff.mp hm).1

theorem Linked.climb_append (ht : Linked t) : ∀ {k p : Nat}, p < t.length →
    climb (t ++ [n]).parent k p = climb t.parent k p := by
  intro k
  induction k with
  | zero => exact fun _ => rfl
  | succ k ih =>
    intro p hp
    rw [climb, climb, parent_append hp]
    cases hq : t.parent p with
    | none => rfl
    | some q =>
      obtain ⟨m, hm, hparent⟩ := exists_node_of_parent hq
      exact ih (Nat.lt_trans ((ht.points hm).parent hparent).1 hp)

theorem Linked.ancestorAt_append (ht : Linked t) (hp : p < t.length) :
    ancestorAt (t ++ [n]).parent (t ++ [n]).height p h = ancestorAt t.parent t.height p h := by
  rw [ancestorAt, ancestorAt, height_append hp, ht.climb_append hp]

theorem Linked.append (ht : Linked t) (hn : Points t t.length n) : Linked (t ++ [n]) := by
  have hkeep : ∀ {p m}, p ≤ t.length → Points t p m → Points (t ++ [n]) p m := by
    intro p m hp hm
    refine ⟨hm.root, ?_, ?_⟩
    · intro q hq
      obtain ⟨hlt, hheight⟩ := hm.parent hq
      exact ⟨hlt, by rw [hheight, height_append (by omega)]⟩
    · intro q hq
      have hlt := (hm.parent hq).1
      rw [hm.ancestor hq, ht.ancestorAt_append (by omega)]
  refine ⟨?_⟩
  intro p m hm
  rcases Nat.lt_or_ge p t.length with hp | hp
  · rw [node_append hp] at hm
    exact hkeep (Nat.le_of_lt hp) (ht.points hm)
  · grind

end Append

theorem Linked.newBlockNode (ht : Linked t) (info : HeaderInfo) (hp : p < t.length) :
    Points t t.length (t.newBlockNode info (some p)) where
  root := by
    intro hnone
    cases hnone
  parent := by
    intro q hq
    obtain rfl := Option.some.inj hq
    exact ⟨hp, rfl⟩
  ancestor := by
    intro q hq
    obtain rfl := Option.some.inj hq
    have := @getAncestorHeight_lt (t.height p + 1) (by omega)
    exact ht.ancestor_eq (show getAncestorHeight (t.height p + 1) ≤ t.height p by omega)

theorem Grown.linked (ht : Grown t) : Linked t := by
  induction ht with
  | genesis info =>
    refine ⟨?_⟩
    intro p n hn
    have hlt : p < 1 := lt_length hn
    obtain rfl : p = 0 := by omega
    obtain rfl := Option.some.inj hn
    refine ⟨fun _ => rfl, ?_, ?_⟩
    · intro q hq
      cases hq
    · intro q hq
      cases hq
  | add _ info hp ih => exact ih.append (ih.newBlockNode info hp)

end NodeTable

open NodeTable

theorem exists_rounds {h n : Nat} (hle : h ≤ n) :
    ∃ s, HeightWalk h n h s ∧ (n < 2 ^ 29 → s ≤ 356) := by
  by_cases hlow : n < 2 ^ 29
  · obtain ⟨s, hs, hwalk⟩ := rounds_le hle hlow
    exact ⟨s, hwalk, fun _ => hs⟩
  · obtain ⟨s, hwalk⟩ := HeightWalk.exists_arrival hle
    exact ⟨s, hwalk, fun hlt => absurd hlt hlow⟩

/-- In every table grown from a genesis block, `Ancestor` of a node for a height up to
its own ends at the node that following the parents leads to, which is at that height.
Below height 2^29 its loop takes at most 356 rounds. -/
theorem ancestor_follows_parents {t : NodeTable} (ht : Grown t) {p h : Nat} (hh : h ≤ t.height p) :
    ∃ q rounds, t.walk h (t.height p) (some p) = some (some q, rounds) ∧
      t.ancestor p h = some q ∧ climb t.parent (t.height p - h) p = some q ∧ t.height q = h ∧
      (t.height p < 2 ^ 29 → rounds ≤ 356) := by
  have hlinked := ht.linked
  obtain ⟨q, hq, hheight⟩ := hlinked.graded.exists_ancestorAt hh
  have hclimb : climb t.parent (t.height p - h) p = some q := by
    rwa [ancestorAt, if_pos hh] at hq
  obtain ⟨s, hwalk, hbound⟩ := exists_rounds hh
  have hs := hwalk.rounds_le_heights
  refine ⟨q, s, ?_, ?_, hclimb, hheight, hbound⟩
  · rw [hlinked.walk_eq hwalk rfl rfl (by omega), hq]
  · rw [hlinked.ancestor_eq hh, hq]

def blankInfo : HeaderInfo := ⟨0, 0, 0, 0⟩

/-- Genesis with two children, the second of them with a child: heights 0, 1, 1, 2. -/
def forkedTable : NodeTable :=
  (((addNode [] blankInfo none).addNode blankInfo (some 0)).addNode blankInfo (some 0)).addNode
    blankInfo (some 2)

theorem forkedTable_grown : Grown forkedTable :=
  .add (.add (.add (.genesis blankInfo) blankInfo (by decide)) blankInfo (by decide))
    blankInfo (by decide)

theorem forkedTable_ancestor : 1 ≤ forkedTable.height 3 ∧
      ∃ q rounds, forkedTable.walk 1 (forkedTable.height 3) (some 3) = some (some q, rounds) ∧
        forkedTable.ancestor 3 (1 : Nat) = some q ∧
        climb forkedTable.parent (forkedTable.height 3 - 1) 3 = some q ∧ forkedTable.height q = 1 ∧
        (forkedTable.height 3 < 2 ^ 29 → rounds ≤ 356) :=
  ⟨by decide, ancestor_follows_parents forkedTable_grown (by decide)⟩

theorem exists_grown (n : Nat) : ∃ t : NodeTable, Grown t ∧ ∃ p < t.length, t.height p = n := by
  induction n with
  | zero => exact ⟨_, .genesis blankInfo, 0, Nat.zero_lt_one, rfl⟩
  | succ n ih =>
    obtain ⟨t, ht, p, hp, rfl⟩ := ih
    refine ⟨_, ht.add blankInfo hp, t.length, ?_, ?_⟩
    · rw [addNode, length_append, length_singleton]
      exact Nat.lt_succ_self _
    · exact height_of_node getElem?_concat_length

def countRounds (h : Nat) : Nat → Nat → Option Nat
  | 0, _ => none
  | fuel + 1, n =>
      if n ≤ h then (if n = h then some 0 else none)
      else (countRounds h fuel (nextHeight h n)).map (· + 1)

theorem HeightWalk.of_countRounds {h : Nat} : ∀ {fuel n s : Nat},
    countRounds h fuel n = some s → HeightWalk h n h s := by
  intro fuel
  induction fuel with
  | zero =>
    intro n s hcount
    cases hcount
  | succ fuel ih =>
    intro n s hcount
    rw [countRounds] at hcount
    by_cases hle : n ≤ h
    · rw [if_pos hle] at hcount
      obtain ⟨rfl, hs⟩ := Option.ite_none_right_eq_some.mp hcount
      obtain rfl := Option.some.inj hs
      exact .done _
    · rw [if_neg hle] at hcount
      obtain ⟨s', hs', rfl⟩ := Option.map_eq_some_iff.mp hcount
      exact .round (Nat.lt_of_not_le hle) (ih hs')

/-- From height 469762047, in binary 110 followed by 26 ones, to height 1 the loop
takes 356 rounds. -/
theorem long_ancestor_walk :
    ∃ (t : NodeTable) (p : Nat) (q : Option Nat), Grown t ∧ t.height p < 2 ^ 29 ∧
      1 ≤ t.height p ∧ t.walk 1 (t.height p) (some p) = some (q, 356) ∧ 330 < 356 := by
  obtain ⟨t, ht, p, _, hp⟩ := exists_grown 469762047
  have hwalk : HeightWalk 1 469762047 1 356 :=
    .of_countRounds (show countRounds 1 357 469762047 = some 356 by decide +kernel)
  exact ⟨t, p, _, ht, by omega, by omega, ht.linked.walk_eq hwalk rfl hp (by omega), by decide⟩

end FalconDraw.Chain
