/-
FalconDraw.Chain.LocatorTheorems — a locator finds a block near the fork point.

A step of a locator is never longer than the way already gone and one more, so the
first entry at or below the fork point is at most as far below it as the fork
point is below the start (`Located.near`).
-/
import Mathlib.Data.Nat.Log
import FalconDraw.Chain.ChainViewTheorems

namespace FalconDraw.Chain

open Lib Wire NodeTable ChainView List

/-! ## The entries of a locator -/

/-- The nodes of the locator from `m` on, with `count` entries made before. -/
inductive Located (t : NodeTable) : Nat → Nat → Nat → List Nat → Prop
  | genesis {step count m : Nat} (hm : t.height m = 0) : Located t step count m [m]
  | back {step count m m' : Nat} {ns : List Nat} (hm : 0 < t.height m)
      (hm' : ancestorAt t.parent t.height m (t.height m - step) = some m')
      (hns : Located t (if count + 1 > 10 then step * 2 else step) (count + 1) m' ns) :
      Located t step count m (m :: ns)

section Locator

variable {t : NodeTable} {c : ChainView} {step count m n H F : Nat} {ns : List Nat}

theorem ancestorFor_eq (ht : Linked t) (hc : ∃ tip, c.nodes = branch t tip) {h : Nat}
    (hle : h ≤ t.height m) : ancestorFor t c m h = some (ancestorAt t.parent t.height m h) := by
  rw [ancestorFor]
  by_cases hin : contains t c m = true
  · rw [if_pos hin]
    obtain ⟨tip | p, hc⟩ := hc
    · rw [ChainView.contains, nodeByHeight_nil hc] at hin
      cases hin
    · have hon := (contains_iff hc).mp hin
      have htop := ht.graded.height_le_of_onChain hon
      rw [hc, getElem?_branch (hle.trans htop), ht.graded.ancestorAt_trans hon hle]
  · rw [if_neg hin, ht.ancestor_eq hle]

theorem locatorFrom_eq (ht : Linked t) (hc : ∃ tip, c.nodes = branch t tip) :
    ∀ {fuel step count m : Nat}, 0 < step → t.height m < fuel →
      ∃ ns, locatorFrom t c fuel step count (some m) = some (ns.map t.hash) ∧
        Located t step count m ns := by
  intro fuel
  induction fuel with
  | zero => exact fun _ hfuel => absurd hfuel (Nat.not_lt_zero _)
  | succ fuel ih =>
    intro step count m hstep hfuel
    rw [locatorFrom]
    by_cases hm : t.height m = 0
    · exact ⟨[m], if_pos hm, .genesis hm⟩
    · obtain ⟨m', hm', hheight⟩ := ht.graded.exists_ancestorAt (Nat.sub_le (t.height m) step)
      obtain ⟨ns, hns, hlocated⟩ := @ih (if count + 1 > 10 then step * 2 else step) (count + 1) m'
        (by split <;> omega) (by omega)
      refine ⟨m :: ns, ?_, .back (by omega) hm' hlocated⟩
      rw [if_neg hm, ancestorFor_eq ht hc (Nat.sub_le _ _), hm']
      dsimp only [bind, Option.bind]
      rw [hns]
      rfl

namespace Located

theorem head (h : Located t step count m ns) : ∃ rest, ns = m :: rest := by
  cases h with
  | genesis => exact ⟨[], rfl⟩
  | back => exact ⟨_, rfl⟩

theorem onChain (ht : Linked t) (h : Located t step count m ns) :
    ∀ {a}, a ∈ ns → OnChain t.parent t.height a m := by
  induction h with
  | genesis =>
    intro a ha
    rw [mem_singleton.mp ha]
    exact onChain_refl _
  | back _ hm' _ ih =>
    intro a ha
    rcases mem_cons.mp ha with rfl | ha
    · exact onChain_refl _
    · exact ht.graded.onChain_trans (ht.graded.onChain_of_ancestorAt hm') (ih ha)

theorem heights_decrease (ht : Linked t) (h : Located t step count m ns) (hstep : 0 < step) :
    (ns.map t.height).Pairwise (· > ·) := by
  induction h with
  | genesis => exact pairwise_singleton _ _
  | @back step count m m' ns hm hm' hns ih =>
    rw [map_cons, pairwise_cons]
    refine ⟨?_, ih (by split <;> omega)⟩
    intro h hh
    obtain ⟨a, ha, rfl⟩ := mem_map.mp hh
    have hle := ht.graded.height_le_of_onChain (hns.onChain ht ha)
    have hheight := ht.graded.height_ancestorAt hm'
    omega

theorem last (h : Located t step count m ns) : ∃ a, ns.getLast? = some a ∧ t.height a = 0 := by
  induction h with
  | genesis hm => exact ⟨_, rfl, hm⟩
  | back _ _ hns ih =>
    obtain ⟨a, ha, hheight⟩ := ih
    obtain ⟨rest, rfl⟩ := hns.head
    exact ⟨a, ha, hheight⟩

theorem length_of_zero (h : Located t step count m ns) (hm : t.height m = 0) : ns.length = 1 := by
  cases h with
  | genesis => rfl
  | back hpos => omega

theorem length_doubling (ht : Linked t) (h : Located t step count m ns) :
    ∀ {j}, 10 ≤ count → step = 2 ^ j → 0 < t.height m →
      ns.length + j ≤ Nat.log2 (t.height m + step - 1) + 2 := by
  induction h with
  | genesis hm =>
    intro j _ _ hpos
    omega
  | @back step count m m' ns hm hm' hns ih =>
    intro j hcount hstep _
    have hpow : 0 < step := hstep ▸ Nat.two_pow_pos j
    have hheight := ht.graded.height_ancestorAt hm'
    rw [if_pos (by omega)] at hns ih
    rw [length_cons]
    by_cases hzero : t.height m' = 0
    · have hlog : j ≤ Nat.log2 (t.height m + step - 1) := by
        refine (Nat.le_log2 (by omega)).mpr ?_
        omega
      have := hns.length_of_zero hzero
      omega
    · have hrest := ih (j := j + 1) (by omega) (by rw [hstep, Nat.pow_succ]) (by omega)
      rw [show t.height m' + step * 2 - 1 = t.height m + step - 1 by omega] at hrest
      omega

theorem length_le (ht : Linked t) (h : Located t step count m ns) :
    step = 1 → count ≤ 10 → 10 - count < t.height m →
      ns.length ≤ (10 - count) + Nat.log2 (t.height m - (10 - count)) + 2 := by
  induction h with
  | genesis hm =>
    intro _ _ hlt
    omega
  | @back step count m m' ns hm hm' hns ih =>
    intro hstep hcount hlt
    subst hstep
    rcases Nat.eq_or_lt_of_le hcount with rfl | hless
    · have hbound := (Located.back hm hm' hns).length_doubling ht (j := 0) (Nat.le_refl _) rfl hm
      simpa using hbound
    · have hheight := ht.graded.height_ancestorAt hm'
      rw [if_neg (by omega)] at ih
      have hrest := ih rfl (by omega) (by omega)
      rw [show t.height m' - (10 - (count + 1)) = t.height m - (10 - count) by omega] at hrest
      rw [length_cons]
      omega

theorem near (ht : Linked t) (h : Located t step count m ns) (hm : t.height m ≤ H) :
    0 < step → (F < t.height m → step ≤ H - t.height m + 1) → F ≤ t.height m →
      ∃ pre s post, ns = pre ++ s :: post ∧ (∀ a ∈ pre, F < t.height a) ∧ t.height s ≤ F ∧
        F - t.height s ≤ H - F := by
  induction h with
  | @genesis step count m hzero =>
    intro _ _ hF
    exact ⟨[], m, [], rfl, fun a ha => absurd ha not_mem_nil, by omega, by omega⟩
  | @back step count m m' ns hpos hm' hns ih =>
    intro hstep hshort hF
    have hheight := ht.graded.height_ancestorAt hm'
    rcases Nat.eq_or_lt_of_le hF with rfl | hlt
    · exact ⟨[], m, ns, rfl, fun a ha => absurd ha not_mem_nil, Nat.le_refl _, by omega⟩
    · have hbound := hshort hlt
      have hpre : ∀ a ∈ [m], F < t.height a := by
        intro a ha
        rwa [mem_singleton.mp ha]
      by_cases hbelow : F ≤ t.height m'
      · obtain ⟨pre, s, post, rfl, hpre', hs⟩ := ih (by omega) (by split <;> omega)
          (by intro hlt'; split <;> omega) hbelow
        refine ⟨m :: pre, s, post, rfl, ?_, hs⟩
        intro a ha
        rcases mem_cons.mp ha with rfl | ha
        · exact hlt
        · exact hpre' a ha
      · obtain ⟨rest, rfl⟩ := hns.head
        exact ⟨[m], m', rest, rfl, hpre, by omega, by omega⟩

end Located

end Locator

/-! ## Two tables -/

/-- The hash of a block determines that of its parent. -/
def Commits (prev : Hash → Option Hash) (t : NodeTable) : Prop :=
  ∀ p < t.length, prev (t.hash p) = (t.parent p).map t.hash

/-- No two nodes are of the same block. -/
def DistinctHashes (t : NodeTable) : Prop :=
  ∀ p < t.length, ∀ q < t.length, t.hash p = t.hash q → p = q

theorem NodeTable.Linked.parent_lt {t : NodeTable} (ht : Linked t) {p q : Nat}
    (hp : p < t.length) (hq : t.parent p = some q) : q < t.length := by
  obtain ⟨n, hn, hparent⟩ := exists_node_of_parent hq
  exact Nat.lt_trans ((ht.points hn).parent hparent).1 hp

theorem NodeTable.Linked.climb_lt {t : NodeTable} (ht : Linked t) : ∀ {k p q : Nat},
    p < t.length → climb t.parent k p = some q → q < t.length := by
  intro k
  induction k with
  | zero =>
    intro p q hp hq
    rwa [← Option.some.inj hq]
  | succ k ih =>
    intro p q hp hq
    rw [climb] at hq
    obtain ⟨r, hr, hrest⟩ := Option.bind_eq_some_iff.mp hq
    exact ih (ht.parent_lt hp hr) hrest

theorem NodeTable.Linked.ancestorAt_lt {t : NodeTable} (ht : Linked t) {p q h : Nat}
    (hp : p < t.length) (hq : ancestorAt t.parent t.height p h = some q) : q < t.length := by
  rw [ancestorAt, if_pos (ht.graded.le_of_ancestorAt hq)] at hq
  exact ht.climb_lt hp hq

theorem hash_of_node {t : NodeTable} {p : Nat} {n : IndexNode} (hn : t[p]? = some n) :
    t.hash p = n.info.hash := by
  rw [NodeTable.hash, hn]
  rfl

theorem lookupNode_eq_some {t : NodeTable} {hash : Hash} {p : Nat}
    (hp : t.lookupNode hash = some p) : p < t.length ∧ t.hash p = hash := by
  obtain ⟨hlt, hhash, -⟩ := findIdx?_eq_some_iff_getElem.mp hp
  refine ⟨hlt, ?_⟩
  rw [hash_of_node (getElem?_eq_getElem hlt)]
  exact of_decide_eq_true hhash

theorem DistinctHashes.lookupNode {t : NodeTable} (ht : DistinctHashes t) {p : Nat}
    (hp : p < t.length) : t.lookupNode (t.hash p) = some p := by
  cases hfound : t.lookupNode (t.hash p) with
  | none =>
    have hnone := findIdx?_eq_none_iff.mp hfound t[p] (getElem_mem hp)
    rw [hash_of_node (getElem?_eq_getElem hp)] at hnone
    exact absurd hnone (by simp)
  | some q =>
    obtain ⟨hq, hhash⟩ := lookupNode_eq_some hfound
    rw [ht q hq p hp hhash]

section Peers

variable {prev : Hash → Option Hash} {t u : NodeTable}

theorem parents_agree (ht : Commits prev t) (hu : Commits prev u) {a b : Nat}
    (ha : a < t.length) (hb : b < u.length) (hhash : t.hash a = u.hash b) :
    (t.parent a).map t.hash = (u.parent b).map u.hash := by
  rw [← ht a ha, ← hu b hb, hhash]

theorem heights_agree (ht : Linked t) (hu : Linked u) (hct : Commits prev t)
    (hcu : Commits prev u) : ∀ {k a b : Nat}, t.height a = k → a < t.length → b < u.length →
      t.hash a = u.hash b → t.height a = u.height b := by
  intro k
  induction k with
  | zero =>
    intro a b hk ha hb hhash
    have hparents := parents_agree hct hcu ha hb hhash
    cases hb' : u.parent b with
    | none => rw [hk, hu.graded.root hb']
    | some q =>
      rw [hb'] at hparents
      obtain ⟨r, hr, -⟩ := Option.map_eq_some_iff.mp hparents
      have := ht.graded.step hr
      omega
  | succ k ih =>
    intro a b hk ha hb hhash
    have hparents := parents_agree hct hcu ha hb hhash
    obtain ⟨r, hr, hheight⟩ := ht.graded.exists_parent (show 0 < t.height a by omega)
    rw [hr] at hparents
    obtain ⟨q, hq, hsame⟩ := Option.map_eq_some_iff.mp hparents.symm
    have hrq := ih (show t.height r = k by omega) (ht.parent_lt ha hr) (hu.parent_lt hb hq)
      hsame.symm
    rw [hheight, hrq, hu.graded.step hq]

theorem climbs_agree (ht : Linked t) (hu : Linked u) (hct : Commits prev t)
    (hcu : Commits prev u) : ∀ {k a b : Nat}, a < t.length → b < u.length → t.hash a = u.hash b →
      (climb t.parent k a).map t.hash = (climb u.parent k b).map u.hash := by
  intro k
  induction k with
  | zero =>
    intro a b _ _ hhash
    exact congrArg some hhash
  | succ k ih =>
    intro a b ha hb hhash
    have hparents := parents_agree hct hcu ha hb hhash
    rw [climb, climb]
    cases hr : t.parent a with
    | none =>
      rw [hr] at hparents
      rw [Option.map_eq_none_iff.mp hparents.symm]
      rfl
    | some r =>
      rw [hr] at hparents
      obtain ⟨q, hq, hsame⟩ := Option.map_eq_some_iff.mp hparents.symm
      rw [hq]
      exact ih (ht.parent_lt ha hr) (hu.parent_lt hb hq) hsame.symm

/-- The chains of a node and of a peer's tip part after `f`, a node of the peer's table. -/
structure PartAfter (t u : NodeTable) (n p f : Nat) : Prop where
  onPeer : OnChain u.parent u.height f p
  same : ∃ a, ancestorAt t.parent t.height n (u.height f) = some a ∧ t.hash a = u.hash f
  last : ∀ {h a b}, ancestorAt t.parent t.height n h = some a →
    ancestorAt u.parent u.height p h = some b → t.hash a = u.hash b → h ≤ u.height f

variable {d : ChainView} {n p f : Nat}

theorem same_below (ht : Linked t) (hu : Linked u) (hct : Commits prev t) (hcu : Commits prev u)
    (hn : n < t.length) (hp : p < u.length) (hpart : PartAfter t u n p f) {a : Nat}
    (ha : OnChain t.parent t.height a n) (hle : t.height a ≤ u.height f) :
    ∃ b, ancestorAt u.parent u.height p (t.height a) = some b ∧ t.hash a = u.hash b := by
  obtain ⟨a', ha', hsame⟩ := hpart.same
  have hheight := ht.graded.height_ancestorAt ha'
  have hclimb : climb t.parent (u.height f - t.height a) a' = some a := by
    have hbelow := ht.graded.ancestorAt_trans ha' hle
    rw [ha, ancestorAt, hheight, if_pos hle] at hbelow
    exact hbelow.symm
  have hagree := @climbs_agree prev t u ht hu hct hcu (u.height f - t.height a) a' f
    (ht.ancestorAt_lt hn ha') (hu.ancestorAt_lt hp hpart.onPeer) hsame
  rw [hclimb] at hagree
  obtain ⟨b, hb, hhash⟩ := Option.map_eq_some_iff.mp hagree.symm
  refine ⟨b, ?_, hhash.symm⟩
  rw [hu.graded.ancestorAt_trans hpart.onPeer hle, ancestorAt, if_pos hle, hb]

theorem known_eq (ht : Linked t) (hu : Linked u) (hct : Commits prev t) (hcu : Commits prev u)
    (hdistinct : DistinctHashes u) (hn : n < t.length) (hp : p < u.length)
    (hd : d.nodes = branch u (some p)) (hpart : PartAfter t u n p f) {a : Nat}
    (ha : OnChain t.parent t.height a n) :
    (u.lookupNode (t.hash a)).filter (contains u d) =
      if t.height a ≤ u.height f then ancestorAt u.parent u.height p (t.height a) else none := by
  have halt := ht.ancestorAt_lt hn ha
  by_cases hle : t.height a ≤ u.height f
  · rw [if_pos hle]
    obtain ⟨b, hb, hhash⟩ := same_below ht hu hct hcu hn hp hpart ha hle
    have hblt := hu.ancestorAt_lt hp hb
    have hin : contains u d b = true :=
      (contains_iff hd).mpr (hu.graded.onChain_of_ancestorAt hb)
    rw [hb, hhash, hdistinct.lookupNode hblt, Option.filter_some, if_pos hin]
  · rw [if_neg hle, Option.filter_eq_none_iff]
    intro b hb hin
    obtain ⟨hblt, hhash⟩ := lookupNode_eq_some hb
    have hheight := heights_agree ht hu hct hcu rfl halt hblt hhash.symm
    have hon := (contains_iff hd).mp hin
    rw [OnChain, ← hheight] at hon
    exact hle (hpart.last ha hon hhash.symm)

theorem locateInventory_eq {locator : List Hash} {s : Nat}
    (hfound : locator.findSome? (fun hash => (u.lookupNode hash).filter (contains u d)) = some s)
    (stop : Hash) (maxEntries : Nat) :
    (locateInventory u d locator stop maxEntries).1 = d.next u (some s) := by
  have hne : locator ≠ [] := by
    rintro rfl
    cases hfound
  rw [locateInventory, if_neg hne, hfound]
  dsimp only
  cases hnext : d.next u (some s <|> d.genesis) with
  | none => exact hnext.symm
  | some start => exact hnext.symm

theorem exists_partAfter (ht : t.Grown) (hu : u.Grown) (hn : n < t.length) (hp : p < u.length)
    (hgenesis : t.hash 0 = u.hash 0) : ∃ f, PartAfter t u n p f := by
  classical
  let Same : Nat → Prop := fun h => ∃ a b, ancestorAt t.parent t.height n h = some a ∧
    ancestorAt u.parent u.height p h = some b ∧ t.hash a = u.hash b
  have hzero : Same 0 := ⟨0, 0, ht.ancestorAt_genesis hn, hu.ancestorAt_genesis hp, hgenesis⟩
  have htop : Same (Nat.findGreatest Same (t.height n)) :=
    Nat.findGreatest_spec (Nat.zero_le _) hzero
  obtain ⟨a, f, ha, hf, hhash⟩ := htop
  have hheight := hu.linked.graded.height_ancestorAt hf
  refine ⟨f, hu.linked.graded.onChain_of_ancestorAt hf, ⟨a, hheight ▸ ha, hhash⟩, ?_⟩
  intro h a' b' ha' hb' hhash'
  rw [hheight]
  exact Nat.le_findGreatest (ht.linked.graded.le_of_ancestorAt ha') ⟨a', b', ha', hb', hhash'⟩

theorem exists_known (ht : Linked t) (hu : Linked u) (hct : Commits prev t)
    (hcu : Commits prev u) (hdistinct : DistinctHashes u) (hn : n < t.length) (hp : p < u.length)
    (hd : d.nodes = branch u (some p)) (hpart : PartAfter t u n p f) {ns : List Nat}
    (hlocated : Located t 1 0 n ns) :
    ∃ s, (ns.map t.hash).findSome? (fun hash => (u.lookupNode hash).filter (contains u d)) =
        some s ∧ OnChain u.parent u.height s f ∧
      u.height f - u.height s ≤ t.height n - u.height f := by
  have hFn : u.height f ≤ t.height n := by
    obtain ⟨a, ha, -⟩ := hpart.same
    exact ht.graded.le_of_ancestorAt ha
  have hknown : ∀ {a}, a ∈ ns → (u.lookupNode (t.hash a)).filter (contains u d) =
      if t.height a ≤ u.height f then ancestorAt u.parent u.height p (t.height a) else none :=
    fun ha => known_eq ht hu hct hcu hdistinct hn hp hd hpart (hlocated.onChain ht ha)
  obtain ⟨pre, e, post, rfl, hpre, he, hnear⟩ := hlocated.near ht (Nat.le_refl _)
    Nat.zero_lt_one (fun _ => Nat.le_add_left _ _) hFn
  obtain ⟨s, hs, hheight⟩ := hu.graded.exists_ancestorAt he
  have hsp : ancestorAt u.parent u.height p (t.height e) = some s :=
    (hu.graded.ancestorAt_trans hpart.onPeer he).trans hs
  refine ⟨s, ?_, hu.graded.onChain_of_ancestorAt hs, by omega⟩
  have hskip : pre.findSome? ((fun hash => (u.lookupNode hash).filter (contains u d)) ∘ t.hash) =
      none := by
    refine findSome?_eq_none_iff.mpr ?_
    intro a ha
    rw [Function.comp_apply, hknown (mem_append_left _ ha),
      if_neg (Nat.not_le.mpr (hpre a ha))]
  rw [findSome?_map, findSome?_append, hskip, findSome?_cons, Function.comp_apply,
    hknown (mem_append_right _ mem_cons_self), if_pos he, hsp]
  rfl

end Peers

/-- For every node `n` of a table and every peer whose best chain has the same genesis
block: the locator of `n` goes down its chain to genesis, with at most
12 + log2 (H - 10) entries from a height H above 12, and the peer sends what comes after
a block `s` at or below the fork point `f`, at most as far below it as `n` is above. -/
theorem locator_finds_fork {prev : Hash → Option Hash} {t u : NodeTable} (ht : t.Grown)
    (hu : u.Grown) (hct : Commits prev t) (hcu : Commits prev u) (hdistinct : DistinctHashes u)
    (hgenesis : t.hash 0 = u.hash 0) {calls peerCalls : List (Option Nat)} {c d : ChainView}
    {n p : Nat} (hn : n < t.length) (hp : p < u.length)
    (hc : calls.foldlM (setTip t) empty = some c)
    (hd : peerCalls.foldlM (setTip u) empty = some d) (htip : peerCalls.getLast? = some (some p)) :
    ∃ (ns : List Nat) (f s : Nat), blockLocator t c (some n) = some (ns.map t.hash) ∧
      (∀ a ∈ ns, OnChain t.parent t.height a n) ∧ ns.getLast? = some 0 ∧
      (ns.map t.height).Pairwise (· > ·) ∧
      (12 < t.height n → ns.length ≤ 12 + Nat.log2 (t.height n - 10)) ∧
      PartAfter t u n p f ∧ OnChain u.parent u.height s f ∧
      u.height f - u.height s ≤ t.height n - u.height f ∧
      ∀ stop maxEntries,
        (locateInventory u d (ns.map t.hash) stop maxEntries).1 = d.next u (some s) := by
  have hview : ∃ tip, c.nodes = branch t tip := ⟨_, nodes_of_calls ht.linked hc⟩
  have hpeer : d.nodes = branch u (some p) := by
    have hnodes := nodes_of_calls hu.linked hd
    rwa [htip] at hnodes
  obtain ⟨ns, hlocator, hlocated⟩ :=
    @locatorFrom_eq t c ht.linked hview (t.height n + 1) 1 0 n Nat.zero_lt_one (Nat.lt_succ_self _)
  obtain ⟨f, hpart⟩ := exists_partAfter ht hu hn hp hgenesis
  obtain ⟨s, hfound, hon, hnear⟩ :=
    exists_known ht.linked hu.linked hct hcu hdistinct hn hp hpeer hpart hlocated
  have hlast : ns.getLast? = some 0 := by
    obtain ⟨a, ha, hheight⟩ := hlocated.last
    have hona := hlocated.onChain ht.linked (mem_of_getLast? ha)
    have hzero := ht.ancestorAt_genesis hn
    rw [OnChain, hheight] at hona
    rw [ha, Option.some.inj (hona.symm.trans hzero)]
  refine ⟨ns, f, s, hlocator, fun a ha => hlocated.onChain ht.linked ha, hlast,
    hlocated.heights_decrease ht.linked Nat.zero_lt_one, ?_, hpart, hon, hnear,
    locateInventory_eq hfound⟩
  intro hH
  have hlen := hlocated.length_le ht.linked rfl (Nat.zero_le _) (by omega)
  rw [Nat.sub_zero] at hlen
  omega

def numberedInfo (number : Nat) : HeaderInfo := ⟨BitVec.ofNat 256 number, 0, 0, 0⟩

/-- Genesis with two children, the second of them with a child, all with other hashes. -/
def numberedTable : NodeTable :=
  (((addNode [] (numberedInfo 0) none).addNode (numberedInfo 1) (some 0)).addNode
    (numberedInfo 2) (some 0)).addNode (numberedInfo 3) (some 2)

theorem numberedTable_grown : numberedTable.Grown :=
  .add (.add (.add (.genesis _) _ (by decide)) _ (by decide)) _ (by decide)

/-- The hashes of the parents in `numberedTable`. -/
def numberedPrev (hash : Hash) : Option Hash :=
  if hash = 1 ∨ hash = 2 then some 0 else if hash = 3 then some 2 else none

/-- The peer's best chain is the other branch. -/
theorem numberedTable_locator : ∃ (ns : List Nat) (f s : Nat) (c d : ChainView),
      [some 3].foldlM (setTip numberedTable) empty = some c ∧
      [some 3, some 1].foldlM (setTip numberedTable) empty = some d ∧
      blockLocator numberedTable c (some 3) = some (ns.map numberedTable.hash) ∧
      PartAfter numberedTable numberedTable 3 1 f ∧
      ∀ stop maxEntries, (locateInventory numberedTable d (ns.map numberedTable.hash) stop
        maxEntries).1 = d.next numberedTable (some s) := by
  have hrun : ∀ calls : List (Option Nat),
      ∃ c, calls.foldlM (setTip numberedTable) empty = some c := by
    intro calls
    obtain ⟨c, hc, -⟩ := setTips_nodes numberedTable_grown.linked (show empty.nodes = branch numberedTable none from rfl)
    exact ⟨c, hc⟩
  obtain ⟨c, hc⟩ := hrun [some 3]
  obtain ⟨d, hd⟩ := hrun [some 3, some 1]
  have hcommits : Commits numberedPrev numberedTable := by
    unfold Commits
    decide +kernel
  have hdistinct : DistinctHashes numberedTable := by
    unfold DistinctHashes
    decide +kernel
  obtain ⟨ns, f, s, hlocator, -, -, -, -, hpart, -, -, hstart⟩ :=
    locator_finds_fork (n := 3) (p := 1) numberedTable_grown numberedTable_grown hcommits hcommits
      hdistinct rfl (by decide) (by decide) hc hd rfl
  exact ⟨ns, f, s, c, d, hc, hd, hlocator, hpart, hstart⟩

end FalconDraw.Chain
