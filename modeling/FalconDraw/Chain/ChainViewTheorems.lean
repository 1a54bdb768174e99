/-
FalconDraw.Chain.ChainViewTheorems — the chain view is the chain of its tip.

`branch` is what a view of a tip should hold. `setTip` keeps what the slice held
and stops at the first node that is in place already.
-/
import FalconDraw.Chain.ChainView
import FalconDraw.Chain.SkipTheorems

namespace FalconDraw.Chain

open Lib List

namespace ChainView

open NodeTable

variable {t : NodeTable} {c : ChainView} {p q n fuel : Nat} {tip : Option Nat}

def branch (t : NodeTable) : Option Nat → List (Option Nat)
  | none => []
  | some p => (List.range (t.height p + 1)).map (ancestorAt t.parent t.height p)

theorem length_branch (t : NodeTable) (p : Nat) : (branch t (some p)).length = t.height p + 1 := by
  rw [branch, length_map, length_range]

theorem getElem?_branch {i : Nat} (h : i ≤ t.height p) :
    (branch t (some p))[i]? = some (ancestorAt t.parent t.height p i) := by
  rw [branch, getElem?_map, getElem?_range (Nat.lt_succ_of_le h)]
  rfl

/-- Below a slot that is not nil, the slots hold the ancestors of its node. -/
def Coherent (t : NodeTable) (nodes : List (Option Nat)) : Prop :=
  ∀ {h q}, nodes[h]? = some (some q) → ∀ i ≤ h, nodes[i]? = some (ancestorAt t.parent t.height q i)

theorem coherent_branch (ht : Linked t) (tip : Option Nat) (needed k : Nat) :
    Coherent t ((branch t tip).take needed ++ List.replicate k none) := by
  intro h q hq i hi
  -- a slot behind the branch is nil
  have hlt : h < ((branch t tip).take needed).length := by
    grind
  rw [getElem?_append_left hlt] at hq
  rw [getElem?_append_left (Nat.lt_of_le_of_lt hi hlt)]
  rw [length_take] at hlt
  rw [getElem?_take_of_lt (by omega)] at hq ⊢
  cases tip with
  | none => cases hq
  | some p => grind [length_branch, getElem?_branch, hi.trans, ht.graded.ancestorAt_trans]

theorem fill_nil (t : NodeTable) (fuel : Nat) (nodes : List (Option Nat)) :
    fill t fuel none nodes = some nodes := by
  cases fuel <;> rfl

theorem fill_eq (ht : Linked t) : ∀ {fuel p : Nat} {nodes : List (Option Nat)},
    t.height p < fuel → t.height p < nodes.length →
    (∀ {h q}, h ≤ t.height p → nodes[h]? = some (some q) →
      ∀ i ≤ h, nodes[i]? = some (ancestorAt t.parent t.height q i)) →
    ∃ filled, fill t fuel (some p) nodes = some filled ∧ filled.length = nodes.length ∧
      (∀ i ≤ t.height p, filled[i]? = some (ancestorAt t.parent t.height p i)) ∧
      ∀ i, t.height p < i → filled[i]? = nodes[i]? := by
  intro fuel
  induction fuel with
  | zero => exact fun hfuel => absurd hfuel (Nat.not_lt_zero _)
  | succ fuel ih =>
    intro p nodes hfuel hlen hcoherent
    obtain ⟨slot, hslot⟩ : ∃ slot, nodes[t.height p]? = some slot :=
      ⟨_, getElem?_eq_getElem hlen⟩
    rw [fill, hslot]
    dsimp only
    by_cases hplace : slot = some p
    · grind
    · rw [if_neg hplace]
      have hself : (nodes.set (t.height p) (some p))[t.height p]? = some (some p) :=
        getElem?_set_self hlen
      have hother : ∀ {i}, i ≠ t.height p → (nodes.set (t.height p) (some p))[i]? = nodes[i]? :=
        fun hne => getElem?_set_ne (Ne.symm hne)
      cases hp : t.parent p with
      | none =>
        have hroot := ht.graded.root hp
        refine ⟨_, fill_nil _ _ _, length_set, ?_, fun i hi => hother (Nat.ne_of_gt hi)⟩
        intro i hi
        obtain rfl : i = t.height p := by omega
        rw [hself, ancestorAt_self]
      | some q =>
        have hheight := ht.graded.step hp
        obtain ⟨filled, hfill, hlength, hbelow, habove⟩ := @ih q (nodes.set (t.height p) (some p))
          (by omega) (by rw [length_set]; omega) (by
            intro h q' hh hq' i hi
            rw [hother (by omega)] at hq' ⊢
            exact hcoherent (by omega) hq' i hi)
        refine ⟨filled, hfill, hlength.trans length_set, ?_, ?_⟩
        · grind [ancestorAt_self, ht.graded.ancestorAt_parent]
        · intro i hi
          rw [habove i (by omega), hother (by omega)]

theorem nodes_resize (c : ChainView) (needed : Nat) : (c.resize needed).nodes =
      c.nodes.take needed ++ List.replicate (needed - c.nodes.length) none := by
  rw [resize]
  split
  case isTrue h => rw [take_of_length_le (by omega)]
  case isFalse => rfl

theorem setTip_nodes (ht : Linked t) (hc : ∃ old, c.nodes = branch t old) (tip : Option Nat) :
    ∃ c', setTip t c tip = some c' ∧ c'.nodes = branch t tip := by
  cases tip with
  | none => exact ⟨_, rfl, rfl⟩
  | some p =>
    obtain ⟨old, hold⟩ := hc
    have hlen : (c.resize (t.height p + 1)).nodes.length = t.height p + 1 := by
      rw [nodes_resize, length_append, length_take, length_replicate]
      omega
    have hcoherent : Coherent t (c.resize (t.height p + 1)).nodes := by
      rw [nodes_resize, hold]
      exact coherent_branch ht _ _ _
    obtain ⟨filled, hfill, hlength, hbelow, -⟩ := fill_eq ht (Nat.lt_succ_self _)
      (show t.height p < (c.resize (t.height p + 1)).nodes.length by omega)
      (fun _ hq => hcoherent hq)
    refine ⟨⟨filled, (c.resize (t.height p + 1)).spare⟩, ?_, ?_⟩
    · rw [setTip, hfill]
      rfl
    · refine ext_getElem? ?_
      intro i
      show filled[i]? = _
      by_cases hi : i ≤ t.height p
      · rw [hbelow i hi, getElem?_branch hi]
      · grind [length_branch]

theorem setTips_nodes (ht : Linked t) : ∀ {calls : List (Option Nat)} {c : ChainView}
    {old : Option Nat}, c.nodes = branch t old → ∃ c', calls.foldlM (setTip t) c = some c' ∧
      c'.nodes = branch t (calls.getLast?.getD old) := by
  intro calls
  induction calls with
  | nil =>
    intro c old hc
    exact ⟨c, rfl, hc⟩
  | cons call calls ih =>
    intro c old hc
    obtain ⟨c₁, hset, hnodes⟩ := setTip_nodes ht ⟨old, hc⟩ call
    obtain ⟨c₂, hrest, hlast⟩ := ih hnodes
    refine ⟨c₂, ?_, ?_⟩
    · rw [foldlM_cons, hset]
      exact hrest
    · rw [hlast, getLast?_cons]
      rfl

theorem nodes_of_calls (ht : Linked t) {calls : List (Option Nat)}
    (hc : calls.foldlM (setTip t) empty = some c) :
    c.nodes = branch t (calls.getLast?.getD none) := by
  obtain ⟨c', hrun, hnodes⟩ := setTips_nodes ht (show empty.nodes = branch t none from rfl)
  rw [Option.some.inj (hc.symm.trans hrun)]
  exact hnodes

/-! ## What a view answers -/

theorem nodeByHeight_branch (hc : c.nodes = branch t (some p)) (h : Int) : c.nodeByHeight h =
      if 0 ≤ h ∧ h ≤ t.height p then ancestorAt t.parent t.height p h.toNat else none := by
  grind [nodeByHeight, length_branch, getElem?_branch]

theorem nodeByHeight_nil (hc : c.nodes = branch t none) (h : Int) : c.nodeByHeight h = none := by
  grind [nodeByHeight, branch]

theorem contains_iff (hc : c.nodes = branch t (some p)) :
    contains t c q = true ↔ OnChain t.parent t.height q p := by
  rw [contains, decide_eq_true_iff, nodeByHeight_branch hc, OnChain, Int.toNat_natCast]
  by_cases hle : t.height q ≤ t.height p
  · rw [if_pos (by omega)]
  · rw [if_neg (by omega), ancestorAt_eq_none (by omega)]

theorem height_branch (hc : c.nodes = branch t (some p)) : c.height = t.height p := by
  rw [height, hc, length_branch]
  omega

theorem forkFrom_eq (ht : Linked t) (hc : c.nodes = branch t (some p)) :
    ∀ {fuel n g : Nat}, t.height n < fuel → OnChain t.parent t.height g n →
      OnChain t.parent t.height g p →
      ∃ f, forkFrom t c fuel (some n) = some (some f) ∧ Fork t.parent t.height f n p := by
  intro fuel
  induction fuel with
  | zero => exact fun hfuel => absurd hfuel (Nat.not_lt_zero _)
  | succ fuel ih =>
    intro n g hfuel hgn hgp
    rw [forkFrom]
    by_cases hon : OnChain t.parent t.height n p
    · rw [if_pos ((contains_iff hc).mpr hon)]
      exact ⟨n, rfl, ht.graded.fork_self hon⟩
    · rw [if_neg fun h => hon ((contains_iff hc).mp h)]
      have hne : ∀ {g}, OnChain t.parent t.height g p → g ≠ n := fun hg heq => hon (heq ▸ hg)
      obtain ⟨q, hq, hgq⟩ := ht.graded.exists_parent_of_ne hgn (hne hgp)
      have hheight := ht.graded.step hq
      obtain ⟨f, hf, hfork⟩ := ih (show t.height q < fuel by omega) hgq hgp
      refine ⟨f, hq ▸ hf, ht.graded.fork_of_below (ht.graded.onChain_parent hq) hfork ?_⟩
      intro g' hgn' hgp'
      obtain ⟨q', hq', hgq'⟩ := ht.graded.exists_parent_of_ne hgn' (hne hgp')
      obtain rfl := Option.some.inj (hq.symm.trans hq')
      exact ht.graded.height_le_of_onChain hgq'

theorem findFork_eq (ht : Linked t) (hc : c.nodes = branch t (some p)) {g : Nat}
    (hgn : OnChain t.parent t.height g n) (hgp : OnChain t.parent t.height g p) :
    ∃ f, findFork t c (some n) = some (some f) ∧ Fork t.parent t.height f n p := by
  rw [findFork, height_branch hc]
  by_cases hhigh : t.height p < t.height n
  · rw [if_pos (by omega), ht.ancestor_eq (Nat.le_of_lt hhigh)]
    obtain ⟨a, ha, haheight⟩ := ht.graded.exists_ancestorAt (Nat.le_of_lt hhigh)
    rw [ha]
    have hon := ht.graded.onChain_of_ancestorAt ha
    have hbelow : ∀ {g}, OnChain t.parent t.height g p → t.height g ≤ t.height a := by
      intro g hg
      rw [haheight]
      exact ht.graded.height_le_of_onChain hg
    obtain ⟨f, hf, hfork⟩ := forkFrom_eq ht hc (show t.height a < t.height n + 1 by omega)
      (ht.graded.onChain_of_le hon hgn (hbelow hgp)) hgp
    exact ⟨f, hf, ht.graded.fork_of_below hon hfork fun _ hg => hbelow hg⟩
  · rw [if_neg (by omega)]
    exact forkFrom_eq ht hc (Nat.lt_succ_self _) hgn hgp

end ChainView

theorem NodeTable.Grown.ancestorAt_genesis {t : NodeTable} (ht : t.Grown) :
    ∀ {p : Nat}, p < t.length → ancestorAt t.parent t.height p 0 = some 0 := by
  induction ht with
  | genesis info =>
    intro p hp
    have hlt : p < 1 := hp
    obtain rfl : p = 0 := by omega
    rfl
  | @add t ht info parent hparent ih =>
    intro p hp
    rw [addNode, length_append, length_singleton] at hp
    rcases Nat.lt_or_ge p t.length with hlt | hge
    · exact (ht.linked.ancestorAt_append hlt).trans (ih hlt)
    · obtain rfl : p = t.length := by omega
      have hlast : (t.addNode info (some parent)).parent t.length = some parent :=
        parent_of_node getElem?_concat_length
      rw [(ht.add info hparent).linked.graded.ancestorAt_parent hlast (Nat.zero_le _)]
      exact (ht.linked.ancestorAt_append hparent).trans (ih hparent)

theorem NodeTable.Grown.genesis_onChain {t : NodeTable} (ht : t.Grown) {p : Nat}
    (hp : p < t.length) : OnChain t.parent t.height 0 p :=
  ht.linked.graded.onChain_of_ancestorAt (ht.ancestorAt_genesis hp)

open ChainView

/-- A view answers as the chain of its tip does. -/
def AnswersAs (t : NodeTable) (c : ChainView) : Option Nat → Prop
  | none =>
      (∀ h, c.nodeByHeight h = none) ∧ ∀ n < t.length, findFork t c (some n) = some none
  | some tip =>
      (∀ h : Int, c.nodeByHeight h =
        if 0 ≤ h ∧ h ≤ t.height tip then climb t.parent (t.height tip - h.toNat) tip else none) ∧
      ∀ n < t.length, ∃ f, findFork t c (some n) = some (some f) ∧ Fork t.parent t.height f n tip

theorem answersAs_nil {t : NodeTable} {c : ChainView} (hc : c.nodes = branch t none) :
    AnswersAs t c none := by
  refine ⟨nodeByHeight_nil hc, ?_⟩
  intro n _
  have hheight : c.height = -1 := by
    rw [ChainView.height, hc]
    rfl
  rw [findFork, hheight, if_pos (by omega), NodeTable.ancestor, if_pos (by omega)]
  rfl

theorem answersAs_tip {t : NodeTable} (ht : t.Grown) {c : ChainView} {tip : Nat}
    (htip : tip < t.length) (hc : c.nodes = branch t (some tip)) : AnswersAs t c (some tip) := by
  refine ⟨?_, ?_⟩
  · grind [nodeByHeight_branch, ancestorAt]
  · intro n hn
    exact findFork_eq ht.linked hc (ht.genesis_onChain hn) (ht.genesis_onChain htip)

/-- After any calls of `SetTip` with nodes of one tree or nil, the view answers as the
chain of the last tip: the node at a height is the one that following the parents leads
to, and the fork point of a node is the highest node on its chain and the tip's. -/
theorem view_is_chain {t : NodeTable} (ht : t.Grown) {calls : List (Option Nat)}
    (hcalls : ∀ p, some p ∈ calls → p < t.length) :
    ∃ c, calls.foldlM (setTip t) empty = some c ∧ AnswersAs t c (calls.getLast?.getD none) := by
  obtain ⟨c, hrun, hnodes⟩ := setTips_nodes ht.linked (show empty.nodes = branch t none from rfl)
  refine ⟨c, hrun, ?_⟩
  cases htip : calls.getLast?.getD none with
  | none => exact answersAs_nil (htip ▸ hnodes)
  | some tip =>
    refine answersAs_tip ht (hcalls tip ?_) (htip ▸ hnodes)
    cases hlast : calls.getLast? with
    | none =>
      rw [hlast] at htip
      cases htip
    | some last =>
      rw [hlast] at htip
      exact mem_of_getLast? (htip ▸ hlast)

/-- Forward, to the other branch, nil, and back to a lower node. -/
theorem forkedTable_view :
    ∃ c, [some 1, some 3, none, some 2].foldlM (setTip forkedTable) empty = some c ∧
      AnswersAs forkedTable c (some 2) := by
  refine view_is_chain forkedTable_grown ?_
  intro p hp
  simp only [mem_cons, Option.some.injEq, reduceCtorEq, not_mem_nil, or_false,
    false_or] at hp
  have hlen : forkedTable.length = 4 := rfl
  omega

end FalconDraw.Chain
