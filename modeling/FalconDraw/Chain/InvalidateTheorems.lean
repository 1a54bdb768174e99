/-
FalconDraw.Chain.InvalidateTheorems — what `InvalidateBlock` marks and which block
it leaves at the tip.

A block outside the best chain is marked with all its descendants.
-/
import Mathlib.Algebra.Order.Group.Nat
import FalconDraw.Chain.MostWorkTheorems

namespace FalconDraw.Chain

open Lib Wire Draw

namespace ChainTree

variable {v : Verdicts} {ord : MapOrder} {t t' : ChainTree} {g : HeaderInfo}
  {k m n p B : BlockNode}

/-! ## Leaves -/

/-- A block without children. -/
def IsLeaf (t : ChainTree) (n : BlockNode) : Prop :=
  n ∈ t.nodes ∧ ∀ m ∈ t.nodes, m.parent ≠ some n

instance (t : ChainTree) (n : BlockNode) : Decidable (t.IsLeaf n) :=
  inferInstanceAs (Decidable (_ ∧ _))

theorem TreeOk.exists_leaf (ht : TreeOk g t) (hn : n ∈ t.nodes) : ∃ l, t.IsLeaf l ∧ n.OnPath l := by
  have hbound : ∃ h, ∀ m ∈ t.nodes, m.height ≤ h := by
    refine ⟨(t.nodes.map BlockNode.height).sum, fun m hm => ?_⟩
    exact List.single_le_sum (fun _ _ => Nat.zero_le _) _ (List.mem_map_of_mem hm)
  obtain ⟨h, hh⟩ := hbound
  -- by induction on the height that is left above the block
  obtain ⟨d, hd⟩ : ∃ d, h - n.height = d := ⟨_, rfl⟩
  induction d generalizing n with
  | zero =>
    refine ⟨n, ⟨hn, fun m hm hp => ?_⟩, .refl n⟩
    have := hh m hm
    rw [BlockNode.height_of_parent hp] at this
    omega
  | succ d ih =>
    by_cases hleaf : t.IsLeaf n
    · exact ⟨n, hleaf, .refl n⟩
    · obtain ⟨c, hc, hp⟩ : ∃ c ∈ t.nodes, c.parent = some n := by
        by_contra hno
        exact hleaf ⟨hn, fun m hm hp => hno ⟨m, hm, hp⟩⟩
      obtain ⟨l, hl, hcl⟩ := ih hc (by rw [BlockNode.height_of_parent hp]; omega)
      exact ⟨l, hl, (BlockNode.parent_onPath hp).trans hcl⟩

theorem mem_sideNodes : n ∈ t.sideNodes ↔ n ∈ t.nodes ∧ ¬ n.OnPath t.tip := by
  rw [sideNodes, List.mem_filter, Bool.not_eq_true', ← onBestChain_iff, Bool.not_eq_true]

theorem TreeOk.mem_inactiveTips (ht : TreeOk g t) :
    n ∈ t.inactiveTips ord ↔ t.IsLeaf n ∧ ¬ n.OnPath t.tip := by
  rw [inactiveTips, (ord.perm _).mem_iff, List.mem_filter, List.all_eq_true]
  simp only [decide_eq_true_eq, mem_sideNodes]
  constructor
  · rintro ⟨⟨hn, hoff⟩, hall⟩
    refine ⟨⟨hn, fun m hm hp => ?_⟩, hoff⟩
    -- a child of a block outside the best chain is outside the best chain
    have hmoff : ¬ m.OnPath t.tip := fun h => hoff ((BlockNode.parent_onPath hp).trans h)
    exact hall m ⟨hm, hmoff⟩ (by rw [hp]; rfl)
  · rintro ⟨⟨hn, hleaf⟩, hoff⟩
    exact ⟨⟨hn, hoff⟩, fun m hm hh => hleaf m hm.1 (ht.parent_eq hm.1 hn hh)⟩

/-! ## Marking -/

theorem marked_markFailed (t : ChainTree) (n : BlockNode) :
    Marked t (t.markFailed n) fun x => x = n.hash :=
  ((marked_setValidateFailed t n).trans (marked_unsetValid _ n)).congr fun _ => by simp

theorem marked_markInvalid (t : ChainTree) (n : BlockNode) :
    Marked t (t.markInvalid n) fun x => x = n.hash := by
  unfold markInvalid
  split
  case isTrue hinv =>
    refine { Marked.none t with invalid := fun m => ⟨.inl, ?_⟩ }
    rintro (h | h)
    · exact h
    · rwa [knownInvalid, nodeStatus_congr h]
  case isFalse =>
    have hset : Marked t (t.setStatusFlags n .setInvalidAncestor) _ :=
      marked_setInvalidAncestor t [n]
    exact (hset.trans (marked_unsetValid _ n)).congr fun _ => by simp

theorem mem_nodesDownTo (h : B.OnPath n) : m ∈ nodesDownTo n B ↔ m.OnPath n ∧ ¬ m.OnPath B :=
  BlockNode.mem_nodesAbove h

theorem mem_nodesDownTo' (h : B.OnPath n) :
    m ∈ nodesDownTo n B ↔ m.OnPath n ∧ B.OnPath m ∧ m ≠ B := by
  rw [mem_nodesDownTo h]
  constructor
  · rintro ⟨hm, hoff⟩
    exact ⟨hm, (hm.total h).resolve_left hoff, fun heq => hoff (heq ▸ .refl _)⟩
  · rintro ⟨hm, hB, hne⟩
    exact ⟨hm, fun hoff => hne (hoff.antisymm hB)⟩

theorem TreeOk.marked_invalidateSide (ht : TreeOk g t) (ord : MapOrder) (hB : B ∈ t.nodes)
    (hoff : ¬ B.OnPath t.tip) :
    Marked t (t.invalidateSide ord B) fun x => ∃ n ∈ t.nodes, B.OnPath n ∧ n ≠ B ∧ x = n.hash := by
  have hround : ∀ (t' : ChainTree) (tip : BlockNode),
      Marked t' (if tip.isAncestor B then (nodesDownTo tip B).foldl markInvalid t' else t')
        fun x => B.OnPath tip ∧ ∃ n ∈ nodesDownTo tip B, x = n.hash := by
    intro t' tip
    split
    case isTrue h =>
      refine (marked_foldl markInvalid _ marked_markInvalid _ t').congr fun x => ?_
      exact ⟨fun hx => ⟨(BlockNode.isAncestor_iff.mp h).1, hx⟩, fun hx => hx.2⟩
    case isFalse h =>
      refine (Marked.none t').congr fun x => ⟨False.elim, ?_⟩
      rintro ⟨hBt, n, hn, -⟩
      obtain ⟨hnt, hBn, hne⟩ := (mem_nodesDownTo' hBt).mp hn
      refine h (BlockNode.isAncestor_iff.mpr ⟨hBt, ?_⟩)
      rintro rfl
      exact hne (hnt.antisymm hBn)
  refine (marked_foldl _ _ hround (t.inactiveTips ord) t).congr fun x => ?_
  constructor
  · rintro ⟨tip, htip, hBt, n, hn, hx⟩
    obtain ⟨hnt, hBn, hne⟩ := (mem_nodesDownTo' hBt).mp hn
    exact ⟨n, ht.closed tip (ht.mem_inactiveTips.mp htip).1.1 n hnt, hBn, hne, hx⟩
  · rintro ⟨n, hn, hBn, hne, hx⟩
    obtain ⟨l, hl, hnl⟩ := ht.exists_leaf hn
    have hBl := hBn.trans hnl
    refine ⟨l, ht.mem_inactiveTips.mpr ⟨hl, fun h => hoff (hBl.trans h)⟩, hBl, n, ?_, hx⟩
    exact (mem_nodesDownTo' hBl).mpr ⟨hnl, hBn, hne⟩

/-! ## A block of the best chain -/

/-- The tree once the best chain is marked and detached down to the block. -/
def detached (t : ChainTree) (B : BlockNode) : ChainTree :=
  { (nodesDownTo t.tip B).foldl markInvalid (t.markFailed B) with tip := B.parent.getD B }

theorem marked_detached (hB : B.OnPath t.tip) : Marked t { t.detached B with tip := t.tip } fun x =>
      ∃ n : BlockNode, B.OnPath n ∧ n.OnPath t.tip ∧ x = n.hash := by
  have hmark := (marked_markFailed t B).trans
    (marked_foldl markInvalid _ marked_markInvalid (nodesDownTo t.tip B) _)
  have hall : Marked t ((nodesDownTo t.tip B).foldl markInvalid (t.markFailed B)) fun x =>
      ∃ n : BlockNode, B.OnPath n ∧ n.OnPath t.tip ∧ x = n.hash := by
    refine hmark.congr fun x => ?_
    constructor
    · rintro (hx | ⟨n, hn, hx⟩)
      · exact ⟨B, .refl B, hB, hx⟩
      · obtain ⟨hnt, hBn, -⟩ := (mem_nodesDownTo' hB).mp hn
        exact ⟨n, hBn, hnt, hx⟩
    · rintro ⟨n, hBn, hnt, hx⟩
      by_cases hne : n = B
      · exact .inl (hne ▸ hx)
      · exact .inr ⟨n, (mem_nodesDownTo' hB).mpr ⟨hnt, hBn, hne⟩, hx⟩
  exact ⟨hall.nodes, rfl, hall.orphans, hall.invalid⟩

theorem nodes_detached (hB : B.OnPath t.tip) : (t.detached B).nodes = t.nodes :=
  (marked_detached hB).nodes

/-- In the detached tree a block is known to be invalid if it was, or if it is
on the part that was detached. -/
theorem TreeOk.invalid_detached (ht : TreeOk g t) (hB : B.OnPath t.tip) (hn : n ∈ t.nodes) :
    (t.detached B).knownInvalid n = true ↔
      t.knownInvalid n = true ∨ (B.OnPath n ∧ n.OnPath t.tip) := by
  refine ((marked_detached hB).invalid n).trans (or_congr_right ⟨?_, ?_⟩)
  · rintro ⟨m, hBm, hmt, hh⟩
    obtain rfl := ht.unique n hn m (ht.closed _ ht.tip_mem m hmt) hh
    exact ⟨hBm, hmt⟩
  · rintro ⟨hBn, hnt⟩
    exact ⟨n, hBn, hnt, rfl⟩

theorem TreeOk.detached (ht : TreeOk g t) (hB : B.OnPath t.tip) (hp : B.parent = some p) :
    TreeOk g (t.detached B) := by
  have hpB := BlockNode.parent_onPath hp
  have hnodes := nodes_detached hB
  have htip : (t.detached B).tip = p := by simp [ChainTree.detached, hp]
  refine ⟨hnodes ▸ ht.rooted, hnodes ▸ ht.closed, hnodes ▸ ht.unique, ?_, ?_⟩
  · rw [htip, hnodes]
    exact ht.closed _ ht.tip_mem p (hpB.trans hB)
  · rw [htip]
    refine clean_iff.mpr fun k hk => ?_
    have hkt := hk.trans (hpB.trans hB)
    rw [Bool.eq_false_iff, ne_eq, ht.invalid_detached hB (ht.closed _ ht.tip_mem k hkt)]
    rintro (hinv | ⟨hBk, -⟩)
    · rw [clean_iff.mp ht.tip_clean k hkt] at hinv
      cases hinv
    · have := (hBk.trans hk).height_le
      rw [BlockNode.height_of_parent hp] at this
      omega

theorem TreeOk.reorganize_detached (ht : TreeOk g t) (hB : B.OnPath t.tip)
    (hp : B.parent = some p) :
    ((nodesDownTo t.tip B).foldl markInvalid (t.markFailed B)).reorganizeChain v
      ((nodesDownTo t.tip B).filter (fun n => !(t.markFailed B).knownInvalid n) ++ [B]) [] =
      (t.detached B, .ok ()) := by
  have htipB : B ∈ t.nodes := ht.closed _ ht.tip_mem B hB
  -- nothing above the block carries a mark yet
  have hfilter : (nodesDownTo t.tip B).filter (fun n => !(t.markFailed B).knownInvalid n) =
      nodesDownTo t.tip B := by
    refine List.filter_eq_self.mpr fun n hn => ?_
    obtain ⟨hnt, -, hne⟩ := (mem_nodesDownTo' hB).mp hn
    rw [Bool.not_eq_true', Bool.eq_false_iff, ne_eq, (marked_markFailed t B).invalid]
    rintro (hinv | hh)
    · rw [clean_iff.mp ht.tip_clean n hnt] at hinv
      cases hinv
    · exact hne (ht.unique n (ht.closed _ ht.tip_mem n hnt) B htipB hh)
  have htip : ((nodesDownTo t.tip B).foldl markInvalid (t.markFailed B)).tip = t.tip :=
    ((marked_markFailed t B).trans
      (marked_foldl markInvalid _ marked_markInvalid (nodesDownTo t.tip B) _)).tip
  have hdetach : nodesDownTo t.tip B ++ [B] = BlockChain.nodesAbove (some p) t.tip.chain :=
    (BlockNode.nodesAbove_parent hB hp).symm
  have hpt : p.OnPath ((nodesDownTo t.tip B).foldl markInvalid (t.markFailed B)).tip := by
    rw [htip]
    exact (BlockNode.parent_onPath hp).trans hB
  have hrun := reorganizeChain_detach (v := v) hpt
  rw [htip] at hrun
  rw [hfilter, hdetach, hrun]
  simp [ChainTree.detached, hp]

/-! ## The next tip -/

theorem foldl_betterTip (tips : List BlockNode) (best : Option BlockNode)
    (hbest : ∀ b, best = some b → t.knownInvalid b = false) :
    (∀ m, tips.foldl t.betterTip best = some m →
      (best = some m ∨ m ∈ tips) ∧ t.knownInvalid m = false) ∧
    ((best ≠ none ∨ ∃ b ∈ tips, t.knownInvalid b = false) → tips.foldl t.betterTip best ≠ none) := by
  induction tips generalizing best with
  | nil => exact ⟨fun m hm => ⟨.inl hm, hbest m hm⟩, by simp⟩
  | cons tip tips ih =>
    have hcase : (t.knownInvalid tip = true ∧ t.betterTip best tip = best) ∨
        (t.knownInvalid tip = false ∧ (t.betterTip best tip = some tip ∨
          (t.betterTip best tip = best ∧ best ≠ none))) := by
      unfold betterTip
      cases hinv : t.knownInvalid tip with
      | true => exact .inl ⟨rfl, rfl⟩
      | false => grind
    rw [List.foldl_cons]
    rcases hcase with ⟨hinv, heq⟩ | ⟨hinv, heq | ⟨heq, hne⟩⟩
    · grind
    · grind
    · grind

/-- The tip that `InvalidateBlock` tries to switch to. -/
def nextTip (ord : MapOrder) (t : ChainTree) : BlockNode := (t.bestTip ord).getD t.tip

theorem TreeOk.bestTip_eq (ht : TreeOk g t) (ord : MapOrder) : t.bestTip ord = some (t.nextTip ord) := by
  have hne : t.bestTip ord ≠ none :=
    (foldl_betterTip _ none (fun _ h => nomatch h)).2
      (.inr ⟨t.tip, by simp, ht.tip_clean.self⟩)
  obtain ⟨m, hm⟩ := Option.ne_none_iff_exists'.mp hne
  rw [nextTip, hm, Option.getD_some]

theorem TreeOk.nextTip_spec (ht : TreeOk g t) (ord : MapOrder) :
    t.nextTip ord ∈ t.nodes ∧ t.knownInvalid (t.nextTip ord) = false ∧
      (t.IsLeaf (t.nextTip ord) ∨ t.nextTip ord = t.tip) := by
  obtain ⟨hmem, hinv⟩ := (foldl_betterTip _ none (fun _ h => nomatch h)).1 _ (ht.bestTip_eq ord)
  rcases List.mem_append.mp (hmem.resolve_left (by simp)) with h | h
  · obtain ⟨hleaf, -⟩ := ht.mem_inactiveTips.mp h
    exact ⟨hleaf.1, hinv, .inl hleaf⟩
  · have heq := List.mem_singleton.mp h
    exact ⟨heq ▸ ht.tip_mem, hinv, .inr heq⟩

/-- What `InvalidateBlock` does at its end: the chosen tip becomes the tip if its
path is clean; if not, its branch is marked. -/
theorem TreeOk.switchToBestTip_cases (ht : TreeOk g t) {r : Check Unit}
    (hsw : t.switchToBestTip v ord = (t', r)) :
    (t.Clean (t.nextTip ord) ∧ ((∃ k ∈ t.nodes, v.connect k.hash ≠ none ∧ ∃ e, r = .error e) ∨
        (r = .ok () ∧ ∃ t₁, t' = { t₁ with tip := t.nextTip ord } ∧ Marked t t₁ fun _ => False))) ∨
    (¬ t.Clean (t.nextTip ord) ∧ r = .ok () ∧
      Marked t t' fun x => ∃ k ∈ t.unwound (t.nextTip ord), x = k.hash) := by
  rw [switchToBestTip, ht.bestTip_eq] at hsw
  simp only at hsw
  split at hsw
  case isTrue heq =>
    cases hsw
    rw [heq]
    exact .inl ⟨ht.tip_clean, .inr ⟨rfl, t, rfl, .none t⟩⟩
  case isFalse =>
    rcases getReorganizeNodes_cases ht (ht.nextTip_spec ord).1 with
      ⟨hc, f, hft, hfn, -, heq⟩ | ⟨hc, t₁, heq, hm⟩
    · refine .inl ⟨hc, ?_⟩
      simp only [heq] at hsw
      rcases reorganizeChain_cases v hft hfn with
        ⟨t₂, hr, hm⟩ | ⟨t₂, e, bad, hr, -, hbad, ⟨k, hk, hfail⟩, -⟩
      · grind
      · rw [hsw] at hr
        cases hr
        exact .inl ⟨k, ht.closed _ (ht.nextTip_spec ord).1 k (hbad k hk).1, hfail, e, rfl⟩
    · refine .inr ⟨hc, ?_⟩
      simp only [heq] at hsw
      cases (reorganizeChain_nil v t₁).symm.trans hsw
      exact ⟨rfl, hm⟩

/-! ## The whole call -/

/-- The blocks marked because the chosen tip turned out to have an invalid
ancestor. -/
def spoiled (ord : MapOrder) (t : ChainTree) (B : BlockNode) : List BlockNode :=
  if (t.detached B).Clean ((t.detached B).nextTip ord) then []
  else (t.detached B).unwound ((t.detached B).nextTip ord)

/-- The tip after `InvalidateBlock`. -/
def tipAfter (ord : MapOrder) (t : ChainTree) (B : BlockNode) : BlockNode :=
  if B.OnPath t.tip then
    if (t.detached B).Clean ((t.detached B).nextTip ord) then (t.detached B).nextTip ord
    else (t.detached B).tip
  else t.tip

/-- The blocks that carry a mark after `InvalidateBlock` and did not before. -/
def newlyInvalid (ord : MapOrder) (t : ChainTree) (B n : BlockNode) : Prop :=
  if B.OnPath t.tip then (B.OnPath n ∧ n.OnPath t.tip) ∨ n ∈ t.spoiled ord B else B.OnPath n

/-- The state after `InvalidateBlock`. -/
structure InvalidateOutcome (g : HeaderInfo) (ord : MapOrder) (t t' : ChainTree) (B : BlockNode) :
    Prop where
  tree    : TreeOk g t'
  nodes   : t'.nodes = t.nodes
  tip     : t'.tip = t.tipAfter ord B
  invalid : ∀ n ∈ t.nodes,
    t'.knownInvalid n = true ↔ t.knownInvalid n = true ∨ t.newlyInvalid ord B n

theorem TreeOk.outcome_side (ht : TreeOk g t) (hB : B ∈ t.nodes) (hoff : ¬ B.OnPath t.tip) :
    InvalidateOutcome g ord t ((t.markFailed B).invalidateSide ord B) B := by
  have hfail := marked_markFailed t B
  have hne : ∀ m : BlockNode, m.OnPath t.tip → ¬ m.hash = B.hash := by
    intro m hm hh
    rw [ht.unique m (ht.closed _ ht.tip_mem m hm) B hB hh] at hm
    exact hoff hm
  have ht₁ := ht.marked hfail hne
  have hside := ht₁.marked_invalidateSide ord (hfail.nodes ▸ hB) (hfail.tip ▸ hoff)
  have hmark : Marked t ((t.markFailed B).invalidateSide ord B) fun x =>
      ∃ n ∈ t.nodes, B.OnPath n ∧ x = n.hash := by
    refine (hfail.trans hside).congr fun x => ?_
    rw [hfail.nodes]
    constructor
    · rintro (hx | ⟨n, hn, hBn, -, hx⟩)
      · exact ⟨B, hB, .refl B, hx⟩
      · exact ⟨n, hn, hBn, hx⟩
    · grind
  refine ⟨ht.marked hmark ?_, hmark.nodes, ?_, fun n hn => ?_⟩
  · rintro m hm ⟨n, hn, hBn, hh⟩
    rw [ht.unique m (ht.closed _ ht.tip_mem m hm) n hn hh] at hm
    exact hoff (hBn.trans hm)
  · rw [hmark.tip, tipAfter, if_neg hoff]
  · rw [hmark.invalid, newlyInvalid, if_neg hoff]
    refine or_congr_right ⟨?_, fun hBn => ⟨n, hn, hBn, rfl⟩⟩
    rintro ⟨m, hm, hBm, hh⟩
    exact ht.unique n hn m hm hh ▸ hBm

theorem TreeOk.outcome_best (ht : TreeOk g t) (hB : B.OnPath t.tip) (hp : B.parent = some p)
    (hsw : (t.detached B).switchToBestTip v ord = (t', .ok ())) :
    InvalidateOutcome g ord t t' B := by
  have hd := ht.detached hB hp
  have hnodes := nodes_detached hB
  have hinv : ∀ n ∈ t.nodes, (t.detached B).knownInvalid n = true ↔
      t.knownInvalid n = true ∨ (B.OnPath n ∧ n.OnPath t.tip) :=
    fun n hn => ht.invalid_detached hB hn
  rcases hd.switchToBestTip_cases hsw with
    ⟨hc, ⟨-, -, -, e, he⟩ | ⟨-, t₁, rfl, hm⟩⟩ | ⟨hc, -, hm⟩
  · cases he
  · have hmem := (hd.nextTip_spec ord).1
    refine ⟨(hd.marked hm fun _ _ h => h).withTip (hm.nodes ▸ hmem) (hm.clean_iff.mpr
      ⟨hc, fun _ _ h => h⟩), hm.nodes.trans hnodes, ?_, fun n hn => ?_⟩
    · rw [tipAfter, if_pos hB, if_pos hc]
    · have hsame : (({ t₁ with tip := (t.detached B).nextTip ord } : ChainTree).knownInvalid n =
          true) ↔ (t.detached B).knownInvalid n = true := by
        exact (hm.invalid n).trans (iff_of_eq (or_false _))
      rw [hsame, hinv n hn, newlyInvalid, if_pos hB, spoiled, if_pos hc]
      simp
  · have hoff : ∀ m : BlockNode, m.OnPath (t.detached B).tip →
        ¬ ∃ k ∈ (t.detached B).unwound ((t.detached B).nextTip ord), m.hash = k.hash := by
      rintro m hmt ⟨k, hk, hh⟩
      obtain rfl := hd.unique m (hd.closed _ hd.tip_mem m hmt) k
        (hd.closed _ (hd.nextTip_spec ord).1 k (mem_unwound.mp hk).1) hh
      exact hd.unwound_off hc hk hmt
    refine ⟨hd.marked hm hoff, hm.nodes.trans hnodes, ?_, fun n hn => ?_⟩
    · rw [hm.tip, tipAfter, if_pos hB, if_neg hc]
    · rw [hm.invalid, hinv n hn, newlyInvalid, if_pos hB, spoiled, if_neg hc, or_assoc]
      refine or_congr_right (or_congr_right ⟨?_, fun hk => ⟨n, hk, rfl⟩⟩)
      rintro ⟨k, hk, hh⟩
      have hkn := hd.closed _ (hd.nextTip_spec ord).1 k (mem_unwound.mp hk).1
      rw [hd.unique n (hnodes ▸ hn) k hkn hh]
      exact hk

theorem TreeOk.invalidateBlock_best (ht : TreeOk g t) (hB : B.OnPath t.tip) (hheight : B.height ≠ 0) :
    t.invalidateBlock v ord B.hash = (t.detached B).switchToBestTip v ord := by
  obtain ⟨p, hp⟩ := BlockNode.exists_parent hheight
  have hmem := ht.closed _ ht.tip_mem B hB
  have hchain : (t.markFailed B).onBestChain B = true := onBestChain_iff.mpr hB
  have htip : (t.markFailed B).tip = t.tip := rfl
  have hni := clean_iff.mp ht.tip_clean B hB
  simp only [invalidateBlock, ht.lookupNode_hash hmem, if_neg hheight, hni, Bool.false_eq_true,
    if_false, hchain, Bool.not_true, invalidateBest, htip, ht.reorganize_detached hB hp]

theorem TreeOk.invalidateBlock_side (ht : TreeOk g t) (hmem : B ∈ t.nodes) (hB : ¬ B.OnPath t.tip)
    (hheight : B.height ≠ 0) (hni : t.knownInvalid B = false) :
    t.invalidateBlock v ord B.hash = ((t.markFailed B).invalidateSide ord B, .ok ()) := by
  have hchain : (t.markFailed B).onBestChain B = false :=
    Bool.eq_false_iff.mpr fun h => hB (onBestChain_iff.mp h)
  simp only [invalidateBlock, ht.lookupNode_hash hmem, if_neg hheight, hni, Bool.false_eq_true,
    if_false, hchain, Bool.not_false, if_true]

theorem TreeOk.invalidateBlock_outcome (ht : TreeOk g t) (hB : B ∈ t.nodes) (hheight : B.height ≠ 0)
    (hni : t.knownInvalid B = false) (hok : (t.invalidateBlock v ord B.hash).2 = .ok ()) :
    InvalidateOutcome g ord t (t.invalidateBlock v ord B.hash).1 B := by
  obtain ⟨p, hp⟩ := BlockNode.exists_parent hheight
  by_cases hon : B.OnPath t.tip
  · rw [ht.invalidateBlock_best hon hheight] at hok ⊢
    exact ht.outcome_best hon hp (Prod.ext rfl hok)
  · rw [ht.invalidateBlock_side hB hon hheight hni]
    exact ht.outcome_side hB hon

/-- What `InvalidateBlock` is for: exactly the subtree of the block is invalid
in addition, and the tip has the most work among the blocks that are left, if
those pass validation. -/
structure Invalidated (v : Verdicts) (t t' : ChainTree) (B : BlockNode) : Prop where
  subtree : ∀ n ∈ t'.nodes, B.OnPath n → t'.knownInvalid n = true
  outside : ∀ n ∈ t'.nodes, ¬ B.OnPath n → t'.knownInvalid n = true → t.knownInvalid n = true
  best    : (∀ n ∈ t'.nodes, t'.Clean n → v.connect n.hash = none) →
    t'.tip ∈ t'.nodes ∧ t'.Clean t'.tip ∧ ∀ n ∈ t'.nodes, t'.Clean n → n.workSum ≤ t'.tip.workSum

/-- The blocks that should be left: a clean path that avoids the block. -/
def Left (t : ChainTree) (B n : BlockNode) : Prop := t.Clean n ∧ ¬ B.OnPath n

instance (t : ChainTree) (B n : BlockNode) : Decidable (t.Left B n) :=
  inferInstanceAs (Decidable (_ ∧ _))

/-- When it is: every descendant off the best chain was invalid before or is
marked by accident, nothing else is marked by accident, and the chosen tip has
the most work among the blocks that are left. -/
def InvalidateWorks (v : Verdicts) (ord : MapOrder) (t : ChainTree) (B : BlockNode) : Prop :=
  (B.OnPath t.tip → (∀ n ∈ t.nodes, B.OnPath n →
      n.OnPath t.tip ∨ t.knownInvalid n = true ∨ n ∈ t.spoiled ord B) ∧
    ∀ n ∈ t.spoiled ord B, B.OnPath n) ∧
  ((∀ n ∈ t.nodes, t.Left B n → v.connect n.hash = none) →
    ∀ n ∈ t.nodes, t.Left B n → n.workSum ≤ (t.tipAfter ord B).workSum)

instance (v : Verdicts) (ord : MapOrder) (t : ChainTree) (B : BlockNode) :
    Decidable (InvalidateWorks v ord t B) :=
  inferInstanceAs (Decidable (_ ∧ _))

theorem TreeOk.mem_spoiled (ht : TreeOk g t) (hB : B.OnPath t.tip) (hp : B.parent = some p)
    (hn : n ∈ t.spoiled ord B) : n ∈ t.nodes ∧ t.knownInvalid n = false := by
  rw [spoiled] at hn
  split at hn
  · cases hn
  · have hd := ht.detached hB hp
    obtain ⟨hnt, hall⟩ := mem_unwound.mp hn
    have hmem : n ∈ t.nodes := nodes_detached hB ▸ hd.closed _ (hd.nextTip_spec ord).1 n hnt
    refine ⟨hmem, Bool.eq_false_iff.mpr fun hinv => ?_⟩
    have := hall n (.refl n) hnt
    rw [(ht.invalid_detached hB hmem).mpr (.inl hinv)] at this
    cases this

/-- Where exactly the subtree is invalid in addition, what is left is what
should be left. -/
theorem TreeOk.clean_iff_left (ht : TreeOk g t) (hnodes : t'.nodes = t.nodes)
    (hold : ∀ n ∈ t.nodes, t.knownInvalid n = true → t'.knownInvalid n = true)
    (hsub : ∀ n ∈ t'.nodes, B.OnPath n → t'.knownInvalid n = true)
    (hout : ∀ n ∈ t'.nodes, ¬ B.OnPath n → t'.knownInvalid n = true → t.knownInvalid n = true)
    (hB : B ∈ t.nodes) (hn : n ∈ t.nodes) : t'.Clean n ↔ t.Left B n := by
  rw [Left, clean_iff, clean_iff]
  constructor
  · intro hc
    refine ⟨fun m hm => Bool.eq_false_iff.mpr fun hinv => ?_, fun hBn => ?_⟩
    · have := hold m (ht.closed n hn m hm) hinv
      rw [hc m hm] at this
      cases this
    · have := hsub B (hnodes ▸ hB) (.refl B)
      rw [hc B hBn] at this
      cases this
  · rintro ⟨hc, hBn⟩ m hm
    refine Bool.eq_false_iff.mpr fun hinv => ?_
    have := hout m (hnodes ▸ ht.closed n hn m hm) (fun hBm => hBn (hBm.trans hm)) hinv
    rw [hc m hm] at this
    cases this

section Trees

def arrivalOrder : MapOrder := ⟨id, fun _ => .refl _⟩

def twoBranches : List Offer :=
  [⟨easyBlock 1 0, false⟩, ⟨easyBlock 2 1, false⟩, ⟨easyBlock 3 0, false⟩]

theorem exists_tree (offers : List Offer) {q : ChainTree → Prop}
    (h : ∃ t, runSteps (guarded (arrive (allBut none)) (ReplaysOrphans (allBut none)))
      (genesisTree (easyHeader 0)) offers = some t ∧ q t) :
    ∃ t, Reaches (arrive (allBut none)) (· = genesisTree (easyHeader 0))
      (ReplaysOrphans (allBut none)) t ∧ q t := by
  obtain ⟨t, hrun, hq⟩ := h
  exact ⟨t, Reaches.run (.start rfl) hrun, hq⟩

def threeChildren : List Offer :=
  [⟨easyBlock 1 0, false⟩, ⟨easyBlock 2 1, false⟩, ⟨easyBlock 3 1, false⟩, ⟨easyBlock 4 1, false⟩]

end Trees

end ChainTree

end FalconDraw.Chain
