/-
FalconDraw.Chain.ReconsiderTheorems — when `ReconsiderBlock` undoes
`InvalidateBlock`.

`ReconsiderBlock` clears the marks on the way from each tip back to the block and
then moves to the last tip it has seen above the block, whichever that is in the
order of the map.
-/
import FalconDraw.Chain.InvalidateTheorems

namespace FalconDraw.Chain

open Lib Wire Draw List

namespace ChainTree

variable {v : Verdicts} {ord : MapOrder} {t t' : ChainTree} {g : HeaderInfo}
  {k m n p B : BlockNode}

variable {l : BlockNode} {good : Hash → Prop}

/-! ## Steps that fail no block -/

/-- Between the two states no block failed, and only blocks given by their
hashes were found valid. -/
structure Mild (t t' : ChainTree) (good : Hash → Prop) : Prop where
  failed : ∀ m, (t'.nodeStatus m).validateFailed = (t.nodeStatus m).validateFailed
  valid  : ∀ m, ¬ good m.hash → (t'.nodeStatus m).valid = true → (t.nodeStatus m).valid = true

theorem Mild.refl (t : ChainTree) (good : Hash → Prop) : Mild t t good := ⟨fun _ => rfl, fun _ _ h => h⟩

theorem Mild.trans {t₁ t₂ t₃ : ChainTree} (h : Mild t₁ t₂ good)
    (h' : Mild t₂ t₃ good) : Mild t₁ t₃ good :=
  ⟨fun m => (h'.failed m).trans (h.failed m), fun m hg hv => h.valid m hg (h'.valid m hg hv)⟩

theorem mild_setStatusFlags (t : ChainTree) (n : BlockNode)
    (u : BlockStatus → BlockStatus) (hfail : ∀ s, (u s).validateFailed = s.validateFailed)
    (hvalid : good n.hash ∨ ∀ s, (u s).valid = true → s.valid = true) :
    Mild t (t.setStatusFlags n u) good := by
  constructor
  · grind [nodeStatus_setStatusFlags]
  · grind [nodeStatus_setStatusFlags]

theorem mild_markInvalid (t : ChainTree) (n : BlockNode) (good : Hash → Prop) :
    Mild t (t.markInvalid n) good := by
  unfold markInvalid
  split
  · exact .refl t good
  · exact (mild_setStatusFlags t n .setInvalidAncestor (fun _ => rfl) (.inr fun _ h => h)).trans
      (mild_setStatusFlags _ n .unsetValid (fun _ => rfl) (.inr fun _ h => Bool.noConfusion h))

theorem mild_foldl {α : Type} (step : ChainTree → α → ChainTree)
    (hstep : ∀ t a, Mild t (step t a) good) (as : List α) (t : ChainTree) :
    Mild t (as.foldl step t) good := by
  induction as generalizing t with
  | nil => exact .refl t good
  | cons a as ih => exact (hstep t a).trans (ih _)

theorem mild_detached (t : ChainTree) (B : BlockNode) (good : Hash → Prop) :
    Mild (t.markFailed B) (t.detached B) good :=
  have hfold : Mild (t.markFailed B) ((nodesDownTo t.tip B).foldl markInvalid (t.markFailed B))
    good := mild_foldl markInvalid (fun t n => mild_markInvalid t n good) _ _
  ⟨hfold.failed, hfold.valid⟩

theorem checkAttachAll_pass (t : ChainTree) (ns : List BlockNode)
    (hv : ∀ n ∈ ns, v.connect n.hash = none) :
    ∃ t', checkAttachAll v t ns = (t', .ok ()) ∧ Marked t t' (fun _ => False) ∧
      Mild t t' fun x => ∃ n ∈ ns, x = n.hash := by
  suffices h : ∀ (ns : List BlockNode) (t : ChainTree) (good : Hash → Prop),
      (∀ n ∈ ns, v.connect n.hash = none) → (∀ n ∈ ns, good n.hash) →
      ∃ t', checkAttachAll v t ns = (t', .ok ()) ∧ Marked t t' (fun _ => False) ∧ Mild t t' good from
    h ns t _ hv fun n hn => ⟨n, hn, rfl⟩
  intro ns
  induction ns with
  | nil => exact fun t good _ _ => ⟨t, rfl, .none t, .refl t good⟩
  | cons n ns ih =>
    intro t good hv hg
    have hv' := forall_mem_cons.mp hv
    have hg' := forall_mem_cons.mp hg
    rw [checkAttachAll]
    split
    · exact ih t good hv'.2 hg'.2
    · simp only [hv'.1]
      obtain ⟨t', hr, hm, hmild⟩ := ih (t.setStatusFlags n .setValid) good hv'.2 hg'.2
      exact ⟨t', hr, ((marked_setValid t n).trans hm).congr fun _ => by simp,
        (mild_setStatusFlags t n .setValid (fun _ => rfl) (.inl hg'.1)).trans hmild⟩

theorem reorganizeChain_pass {f : BlockNode} (hf : f.OnPath t.tip) (hn : f.OnPath n)
    (hv : ∀ k : BlockNode, k.OnPath n → v.connect k.hash = none) :
    ∃ t₁, t.reorganizeChain v (BlockChain.nodesAbove (some f) t.tip.chain)
        (BlockChain.nodesAbove (some f) n.chain).reverse = ({ t₁ with tip := n }, .ok ()) ∧
      Marked t t₁ (fun _ => False) ∧ Mild t t₁ fun x => ∃ k : BlockNode, k.OnPath n ∧ x = k.hash := by
  have hbranch : ∀ k ∈ (BlockChain.nodesAbove (some f) n.chain).reverse, k.OnPath n := by
    intro k hk
    exact ((BlockNode.mem_nodesAbove hn).mp (mem_reverse.mp hk)).1
  obtain ⟨t₁, hr, hm, hmild⟩ := checkAttachAll_pass t _ fun k hk => hv k (hbranch k hk)
  refine ⟨t₁, ?_, hm, hmild.failed, fun m hg => hmild.valid m fun ⟨k, hk, hh⟩ => ?_⟩
  · rw [reorganizeChain_eq hf (parent_head_attach hn)]
    simp only [hr]
    exact attachAll_eq hn rfl
  · exact hg ⟨k, hbranch k hk, hh⟩

/-! ## The state after `InvalidateBlock` -/

/-- A tree of valid blocks in which the best tip alone has the most work. -/
structure AllValid (v : Verdicts) (g : HeaderInfo) (t : ChainTree) : Prop where
  tree    : TreeOk g t
  valid   : ∀ n ∈ t.nodes, t.knownInvalid n = false
  connect : ∀ n ∈ t.nodes, v.connect n.hash = none
  /-- The proof-of-work target of a valid block is in range. -/
  work    : ∀ n ∈ t.nodes, 0 < calcWork n.info.bits
  leaf    : t.IsLeaf t.tip
  best    : ∀ n, t.IsLeaf n → n ≠ t.tip → n.workSum < t.tip.workSum

theorem AllValid.workSum_lt (h : AllValid v g t) (hn : n ∈ t.nodes) (hm : m.OnPath n) (hne : m ≠ n) :
    m.workSum < n.workSum := by
  obtain ⟨c, hc, hcn⟩ := hm.child hne
  have hpos := h.work c (h.tree.closed n hn c hcn)
  have hwork : c.workSum = calcWork c.info.bits + m.workSum := by
    rw [BlockNode.eq_of_parent hc]
    rfl
  have := hcn.workSum_le
  omega

theorem AllValid.invalidateBlock_ok (h : AllValid v g t) (hB : B ∈ t.nodes) (hheight : B.height ≠ 0)
    (ord : MapOrder) : (t.invalidateBlock v ord B.hash).2 = .ok () := by
  obtain ⟨p, hp⟩ := BlockNode.exists_parent hheight
  by_cases hon : B.OnPath t.tip
  · rw [h.tree.invalidateBlock_best hon hheight]
    obtain ⟨t', r, hsw⟩ : ∃ t' r, (t.detached B).switchToBestTip v ord = (t', r) := ⟨_, _, rfl⟩
    rw [hsw]
    rcases (h.tree.detached hon hp).switchToBestTip_cases hsw with
      ⟨-, ⟨k, hk, hfail, -⟩ | ⟨hr, -⟩⟩ | ⟨-, hr, -⟩
    · exact absurd (h.connect k (nodes_detached hon ▸ hk)) hfail
    · exact hr
    · exact hr
  · rw [h.tree.invalidateBlock_side hB hon hheight (h.valid B hB)]

theorem AllValid.outcome (h : AllValid v g t) (hB : B ∈ t.nodes) (hheight : B.height ≠ 0)
    (ord : MapOrder) : InvalidateOutcome g ord t (t.invalidateBlock v ord B.hash).1 B :=
  h.tree.invalidateBlock_outcome hB hheight (h.valid B hB) (h.invalidateBlock_ok hB hheight ord)

/-- The block is known to be invalid afterwards, and the tip does not descend
from it. -/
theorem InvalidateOutcome.tip_off (h : InvalidateOutcome g ord t t' B) (hB : B ∈ t.nodes) :
    t'.knownInvalid B = true ∧ ¬ B.OnPath t'.tip := by
  have hinv : t'.knownInvalid B = true := by
    refine (h.invalid B hB).mpr (.inr ?_)
    unfold newlyInvalid
    split
    case isTrue hon => exact .inl ⟨.refl B, hon⟩
    case isFalse => exact .refl B
  refine ⟨hinv, fun hon => ?_⟩
  rw [clean_iff.mp h.tree.tip_clean B hon] at hinv
  cases hinv

/-- The old tip is the only leaf above the block: nothing is marked by accident. -/
def OnlyLeaf (t : ChainTree) (B : BlockNode) : Prop := ∀ l, t.IsLeaf l → B.OnPath l → l = t.tip

theorem AllValid.invalid_detached (h : AllValid v g t) (hon : B.OnPath t.tip) (hn : n ∈ t.nodes) :
    (t.detached B).knownInvalid n = true ↔ B.OnPath n ∧ n.OnPath t.tip := by
  rw [h.tree.invalid_detached hon hn, h.valid n hn]
  simp

theorem isLeaf_congr (hnodes : t'.nodes = t.nodes) : t'.IsLeaf n ↔ t.IsLeaf n := by
  rw [IsLeaf, IsLeaf, hnodes]

theorem AllValid.nextTip_clean (h : AllValid v g t) (hon : B.OnPath t.tip) (hp : B.parent = some p)
    (honly : t.OnlyLeaf B) (ord : MapOrder) :
    (t.detached B).Clean ((t.detached B).nextTip ord) ∧
      ¬ B.OnPath ((t.detached B).nextTip ord) := by
  have hd := h.tree.detached hon hp
  have hnodes := nodes_detached hon
  obtain ⟨hmem, hni, hcase⟩ := hd.nextTip_spec ord
  -- a next tip above the block would be the old tip, which is marked
  have hoff : ¬ B.OnPath ((t.detached B).nextTip ord) := by
    intro hBn
    rcases hcase with hleaf | htip
    · have heq := honly _ ((isLeaf_congr hnodes).mp hleaf) hBn
      have hinv := (h.invalid_detached hon (hnodes ▸ hmem)).mpr ⟨hBn, heq ▸ .refl _⟩
      rw [hni] at hinv
      cases hinv
    · have hBd := hd.tip_clean
      rw [← htip] at hBd
      have hinv := (h.invalid_detached hon (h.tree.closed _ h.tree.tip_mem B hon)).mpr ⟨.refl B, hon⟩
      rw [clean_iff.mp hBd B hBn] at hinv
      cases hinv
  refine ⟨clean_iff.mpr fun k hk => Bool.eq_false_iff.mpr fun hinv => ?_, hoff⟩
  have hkn : k ∈ t.nodes := hnodes ▸ hd.closed _ hmem k hk
  exact hoff (((h.invalid_detached hon hkn).mp hinv).1.trans hk)

/-- Nothing but the block itself fails, and the block is no longer known to be
valid. -/
theorem AllValid.flags (h : AllValid v g t) (hB : B ∈ t.nodes) (hheight : B.height ≠ 0)
    (hcond : B.OnPath t.tip → t.OnlyLeaf B) (ord : MapOrder) :
    ((t.invalidateBlock v ord B.hash).1.nodeStatus B).valid = false ∧ ∀ n ∈ t.nodes, n ≠ B →
      ((t.invalidateBlock v ord B.hash).1.nodeStatus n).validateFailed = false := by
  obtain ⟨p, hp⟩ := BlockNode.exists_parent hheight
  suffices hmild : ∃ good : Hash → Prop, ¬ good B.hash ∧
      Mild (t.markFailed B) (t.invalidateBlock v ord B.hash).1 good by
    obtain ⟨good, hg, hmild⟩ := hmild
    constructor
    · refine Bool.eq_false_iff.mpr fun hv => ?_
      have := hmild.valid B hg hv
      simp [markFailed, nodeStatus_setStatusFlags, BlockStatus.unsetValid] at this
    · intro n hn hne
      have hh : n.hash ≠ B.hash := fun hh => hne (h.tree.unique n hn B hB hh)
      have hval := h.valid n hn
      rw [hmild.failed n, markFailed, nodeStatus_setStatusFlags, if_neg hh,
        nodeStatus_setStatusFlags, if_neg hh]
      rw [knownInvalid, BlockStatus.knownInvalid, Bool.or_eq_false_iff] at hval
      exact hval.1
  by_cases hon : B.OnPath t.tip
  · rw [h.tree.invalidateBlock_best hon hheight]
    obtain ⟨hclean, hoff⟩ := h.nextTip_clean hon hp (hcond hon) ord
    have hd := h.tree.detached hon hp
    have hnodes := nodes_detached hon
    have hmem := (hd.nextTip_spec ord).1
    refine ⟨fun x => ∃ k : BlockNode, k.OnPath ((t.detached B).nextTip ord) ∧ x = k.hash, ?_, ?_⟩
    · rintro ⟨k, hk, hh⟩
      rw [← h.tree.unique B hB k (hnodes ▸ hd.closed _ hmem k hk) hh] at hk
      exact hoff hk
    · refine (mild_detached t B _).trans ?_
      rw [switchToBestTip, hd.bestTip_eq]
      simp only
      split
      · exact .refl _ _
      · rcases getReorganizeNodes_cases hd hmem with ⟨-, f, hft, hfn, -, heq⟩ | ⟨hc, -⟩
        · obtain ⟨t₁, hr, -, hmild⟩ := reorganizeChain_pass (v := v) hft hfn fun k hk =>
            h.connect k (hnodes ▸ hd.closed _ hmem k hk)
          simp only [heq, hr]
          exact ⟨hmild.failed, hmild.valid⟩
        · exact absurd hclean hc
  · rw [h.tree.invalidateBlock_side hB hon hheight (h.valid B hB)]
    refine ⟨fun _ => False, id, mild_foldl _ (fun t' tip => ?_) _ _⟩
    split
    · exact mild_foldl markInvalid (fun t n => mild_markInvalid t n _) _ t'
    · exact .refl t' _

/-! ## Clearing the marks -/

/-- The loop over the tips: it clears the marks on the way from each tip to the
block and returns the last tip above the block. -/
theorem reconsiderTips_spec (B : BlockNode) (tips : List BlockNode) (t : ChainTree)
    (last : Option BlockNode) :
    ∃ t', reconsiderTips B t last tips = (t', (tips.filter (B.OnPath ·)).getLast?.or last) ∧
      t'.nodes = t.nodes ∧ t'.tip = t.tip ∧ ∀ m, t'.nodeStatus m =
        if ∃ tip ∈ tips, B.OnPath tip ∧ ∃ k ∈ nodesDownTo tip B, m.hash = k.hash then
          (t.nodeStatus m).unsetInvalidAncestor else t.nodeStatus m := by
  induction tips generalizing t last with
  | nil => exact ⟨t, rfl, rfl, rfl, fun m => by simp⟩
  | cons tip tips ih =>
    rw [reconsiderTips]
    split
    case isTrue hanc =>
      obtain ⟨hBt, -⟩ := BlockNode.isAncestor_iff.mp hanc
      obtain ⟨t', hr, hnodes, htip, hst⟩ := ih
        (t.setAllStatusFlags (nodesDownTo tip B) .unsetInvalidAncestor) (some tip)
      obtain ⟨hn₁, ht₁, -⟩ := setAllStatusFlags_frame t (nodesDownTo tip B) .unsetInvalidAncestor
      refine ⟨t', ?_, hnodes.trans hn₁, htip.trans ht₁, fun m => ?_⟩
      · rw [hr, filter_cons_of_pos (by simpa using hBt), getLast?_cons]
        cases (tips.filter (B.OnPath ·)).getLast? <;> rfl
      · rw [hst, nodeStatus_setAllStatusFlags (u := .unsetInvalidAncestor) fun _ => rfl]
        simp only [mem_cons, exists_eq_or_imp, hBt, true_and]
        by_cases h₁ : ∃ k ∈ nodesDownTo tip B, m.hash = k.hash <;>
          by_cases h₂ : ∃ tip ∈ tips, B.OnPath tip ∧ ∃ k ∈ nodesDownTo tip B, m.hash = k.hash <;>
          simp [h₁, h₂, BlockStatus.unsetInvalidAncestor]
    case isFalse hanc =>
      obtain ⟨t', hr, hnodes, htip, hst⟩ := ih t (if tip = B then some B else last)
      refine ⟨t', ?_, hnodes, htip, fun m => ?_⟩
      · by_cases heq : tip = B
        · grind [BlockNode.OnPath.refl]
        · have hoff : ¬ B.OnPath tip := fun h =>
            hanc (BlockNode.isAncestor_iff.mpr ⟨h, fun h => heq h.symm⟩)
          rw [hr, if_neg heq, filter_cons_of_neg (by simpa using hoff)]
      · rw [hst]
        have hnone : ¬ (B.OnPath tip ∧ ∃ k ∈ nodesDownTo tip B, m.hash = k.hash) := by
          rintro ⟨hBt, k, hk, -⟩
          obtain ⟨hkt, hBk, hne⟩ := (mem_nodesDownTo' hBt).mp hk
          refine hanc (BlockNode.isAncestor_iff.mpr ⟨hBt, ?_⟩)
          rintro rfl
          exact hne (hkt.antisymm hBk)
        simp only [mem_cons, exists_eq_or_imp, hnone, false_or]

theorem TreeOk.cleared (ht : TreeOk g t) (hnodes : t'.nodes = t.nodes) (htip : t'.tip = t.tip)
    (hinv : ∀ m, t'.knownInvalid m = true → t.knownInvalid m = true) : TreeOk g t' where
  rooted := hnodes ▸ ht.rooted
  closed := hnodes ▸ ht.closed
  unique := hnodes ▸ ht.unique
  tip_mem := by
    rw [htip, hnodes]
    exact ht.tip_mem
  tip_clean := by
    rw [htip]
    refine clean_iff.mpr fun k hk => Bool.eq_false_iff.mpr fun h => ?_
    have := hinv k h
    rw [clean_iff.mp ht.tip_clean k hk] at this
    cases this

theorem TreeOk.reconsiderBlock_eq (ht : TreeOk g t) (hB : B ∈ t.nodes)
    (hvalid : (t.nodeStatus B).valid = false) (v : Verdicts) (ord : MapOrder) :
    ∃ t', TreeOk g t' ∧ t'.nodes = t.nodes ∧ t'.tip = t.tip ∧
      (∀ m ∈ t.nodes, t'.knownInvalid m = true → t.knownInvalid m = true ∧ m ≠ B ∧
        ((t.nodeStatus m).validateFailed = true ∨
          ∀ tip ∈ t.inactiveTips ord ++ [t.tip], B.OnPath m → ¬ m.OnPath tip)) ∧
      t.reconsiderBlock v ord B.hash =
        match ((t.inactiveTips ord ++ [t.tip]).filter (B.OnPath ·)).getLast? with
        | none => (t', .error (.assert "no tip descends from the block"))
        | some tip => t'.reconsiderTo v tip := by
  have hclear : ∀ m, (t.clearFailed B).nodeStatus m =
      if m.hash = B.hash then (t.nodeStatus m).unsetInvalidAncestor.unsetValidateFailed
      else t.nodeStatus m := by
    intro m
    rw [clearFailed, nodeStatus_setStatusFlags, nodeStatus_setStatusFlags]
    split <;> rfl
  have htips : (t.clearFailed B).inactiveTips ord ++ [(t.clearFailed B).tip] =
      t.inactiveTips ord ++ [t.tip] := rfl
  obtain ⟨t', hr, hnodes, htip, hst⟩ := reconsiderTips_spec B (t.inactiveTips ord ++ [t.tip])
    (t.clearFailed B) none
  -- what carries a mark afterwards carried it before, and was not reached
  have hinv : ∀ m, t'.knownInvalid m = true → t.knownInvalid m = true ∧ m.hash ≠ B.hash ∧
      ((t.nodeStatus m).validateFailed = true ∨
        ∀ tip ∈ t.inactiveTips ord ++ [t.tip], B.OnPath m → ¬ m.OnPath tip) := by
    intro m hm
    have hne : m.hash ≠ B.hash := by
      intro hh
      rw [knownInvalid, hst, hclear, if_pos hh] at hm
      split at hm <;> exact Bool.noConfusion hm
    rw [knownInvalid, hst, hclear, if_neg hne] at hm
    split at hm
    case isTrue =>
      have hf : (t.nodeStatus m).validateFailed = true := by
        simpa [BlockStatus.knownInvalid, BlockStatus.unsetInvalidAncestor] using hm
      exact ⟨by simp [knownInvalid, BlockStatus.knownInvalid, hf], hne, .inl hf⟩
    case isFalse hcov =>
      refine ⟨hm, hne, .inr fun tip htip hBm hmt => hcov ⟨tip, htip, hBm.trans hmt, m, ?_, rfl⟩⟩
      exact (mem_nodesDownTo' (hBm.trans hmt)).mpr ⟨hmt, hBm, fun h => hne (h ▸ rfl)⟩
  refine ⟨t', ht.cleared hnodes htip fun m hm => (hinv m hm).1, hnodes, htip, ?_, ?_⟩
  · intro m _ hm
    obtain ⟨h₁, h₂, h₃⟩ := hinv m hm
    exact ⟨h₁, fun h => h₂ (h ▸ rfl), h₃⟩
  · simp only [reconsiderBlock, ht.lookupNode_hash hB, BlockStatus.knownValid, hvalid,
      Bool.false_eq_true, if_false, htips, hr, Option.or_none]
    cases ((t.inactiveTips ord ++ [t.tip]).filter (B.OnPath ·)).getLast? <;> rfl

/-! ## The move to the reconsidered tip -/

theorem TreeOk.reconsiderTo_tip (ht : TreeOk g t) (hn : n ∈ t.nodes) :
    (t.reconsiderTo v n).1.tip = t.tip ∨ (t.reconsiderTo v n).1.tip = n := by
  unfold reconsiderTo
  split
  · exact .inl rfl
  rcases getReorganizeNodes_cases ht hn with ⟨-, f, hft, hfn, -, heq⟩ | ⟨-, t₁, heq, hm⟩
  · simp only [heq]
    rw [verifyReorganizationValidity_eq hft (parent_head_attach hfn)]
    rcases checkAttachAll_cases v t (BlockChain.nodesAbove (some f) n.chain).reverse with
      ⟨t₂, hr, hm⟩ | ⟨t₂, e, pre, k, post, hr, -, -, hm⟩
    · simp only [hr]
      rw [← hm.tip] at hft ⊢
      rcases reorganizeChain_cases v hft hfn with ⟨t₃, hre, -⟩ | ⟨t₃, e, bad, hre, -, -, -, hm'⟩
      · rw [hre]
        exact .inr rfl
      · rw [hre]
        exact .inl hm'.tip
    · simp only [hr]
      exact .inl hm.tip
  · have hver : t₁.verifyReorganizationValidity v [] [] = (t₁, .ok ()) := by
      simp [verifyReorganizationValidity, checkAttachAll]
    simp only [heq, hver, reorganizeChain_nil]
    exact .inl hm.tip

theorem TreeOk.reconsiderTo_pass (ht : TreeOk g t) (hn : n ∈ t.nodes) (hc : t.Clean n)
    (hv : ∀ k : BlockNode, k.OnPath n → v.connect k.hash = none)
    (hwork : t.tip.workSum < n.workSum) :
    ∃ t₁, t.reconsiderTo v n = ({ t₁ with tip := n }, .ok ()) ∧ Marked t t₁ fun _ => False := by
  rcases getReorganizeNodes_cases ht hn with ⟨-, f, hft, hfn, -, heq⟩ | ⟨hdirty, -⟩
  · obtain ⟨t₂, hr, hm, -⟩ := checkAttachAll_pass (v := v) t
      (BlockChain.nodesAbove (some f) n.chain).reverse fun k hk =>
        hv k ((BlockNode.mem_nodesAbove hfn).mp (mem_reverse.mp hk)).1
    have hft₂ : f.OnPath t₂.tip := hm.tip ▸ hft
    obtain ⟨t₃, hre, hm', -⟩ := reorganizeChain_pass hft₂ hfn hv
    refine ⟨t₃, ?_, (hm.trans hm').congr fun _ => by simp⟩
    rw [hm.tip] at hre
    rw [reconsiderTo, if_neg (not_le.mpr hwork)]
    simp only [heq]
    rw [verifyReorganizationValidity_eq hft (parent_head_attach hfn), hr]
    exact hre
  · exact absurd hc hdirty

/-! ## Undoing -/

/-- The old tip is back, and no block is known to be invalid. -/
def Restored (t t' : ChainTree) : Prop :=
  t'.tip = t.tip ∧ ∀ n ∈ t'.nodes, t'.knownInvalid n = false

def lastOrder (l : BlockNode) : MapOrder where
  run ns := if l ∈ ns then ns.erase l ++ [l] else ns
  perm ns := by
    split
    case isTrue h => exact (perm_append_singleton l (ns.erase l)).trans (perm_cons_erase h).symm
    case isFalse => exact .refl ns

theorem inactiveTips_lastOrder (h : l ∈ t.inactiveTips (lastOrder l)) :
    ∃ ns, t.inactiveTips (lastOrder l) = ns ++ [l] := by
  have hmem := ((lastOrder l).perm _).mem_iff.mp h
  exact ⟨_, if_pos hmem⟩

theorem InvalidateOutcome.mem_tips (ho : InvalidateOutcome g ord t t' B) (hB : B ∈ t.nodes)
    (ord' : MapOrder) :
    l ∈ t'.inactiveTips ord' ++ [t'.tip] ∧ B.OnPath l ↔ t.IsLeaf l ∧ B.OnPath l := by
  obtain ⟨-, hoff⟩ := ho.tip_off hB
  rw [mem_append, ho.tree.mem_inactiveTips, mem_singleton, isLeaf_congr ho.nodes]
  constructor
  · grind
  · rintro ⟨hl, hBl⟩
    exact ⟨.inl ⟨hl, fun h => hoff (hBl.trans h)⟩, hBl⟩

/-- Another leaf above the block: there is an order in which it is the last tip
that `ReconsiderBlock` sees, and the old tip does not come back. -/
theorem AllValid.not_restored (h : AllValid v g t) (hB : B ∈ t.nodes) (hheight : B.height ≠ 0)
    (hon : B.OnPath t.tip) (hl : t.IsLeaf l) (hBl : B.OnPath l) (hne : l ≠ t.tip) (ord : MapOrder) :
    ((t.invalidateBlock v ord B.hash).1.reconsiderBlock v (lastOrder l) B.hash).1.tip ≠ t.tip := by
  have ho := h.outcome hB hheight ord
  generalize (t.invalidateBlock v ord B.hash).1 = t₁ at ho ⊢
  have hB₁ : B ∈ t₁.nodes := ho.nodes ▸ hB
  have htip₁ : t₁.tip ≠ t.tip := fun heq => (ho.tip_off hB).2 (heq ▸ hon)
  cases hvalid : (t₁.nodeStatus B).valid with
  | true =>
    have hearly : t₁.reconsiderBlock v (lastOrder l) B.hash = (t₁, .ok ()) := by
      simp only [reconsiderBlock, ho.tree.lookupNode_hash hB₁, BlockStatus.knownValid, hvalid, if_true]
    rw [hearly]
    exact htip₁
  | false =>
    obtain ⟨t', ht', hnodes, htip, -, heq⟩ := ho.tree.reconsiderBlock_eq hB₁ hvalid v (lastOrder l)
    have hlin : l ∈ t₁.inactiveTips (lastOrder l) :=
      ho.tree.mem_inactiveTips.mpr ⟨(isLeaf_congr ho.nodes).mpr hl, fun hlt =>
        (ho.tip_off hB).2 (hBl.trans hlt)⟩
    have hlast : ((t₁.inactiveTips (lastOrder l) ++ [t₁.tip]).filter (B.OnPath ·)).getLast? =
        some l := by
      obtain ⟨ns, hns⟩ := inactiveTips_lastOrder hlin
      rw [filter_append, filter_cons_of_neg (by simpa using (ho.tip_off hB).2),
        filter_nil, append_nil, hns, filter_append,
        filter_cons_of_pos (by simpa using hBl), filter_nil, getLast?_concat]
    rw [heq, hlast]
    rcases ht'.reconsiderTo_tip (v := v) (n := l) (by rw [hnodes, ho.nodes]; exact hl.1) with h | h
    · rw [h, htip]
      exact htip₁
    · rw [h]
      exact hne

theorem AllValid.restored (h : AllValid v g t) (hB : B ∈ t.nodes) (hheight : B.height ≠ 0)
    (hcond : B.OnPath t.tip → t.OnlyLeaf B) (ord ord' : MapOrder) :
    Restored t ((t.invalidateBlock v ord B.hash).1.reconsiderBlock v ord' B.hash).1 := by
  obtain ⟨p, hp⟩ := BlockNode.exists_parent hheight
  have ho := h.outcome hB hheight ord
  obtain ⟨hvalid, hflags⟩ := h.flags hB hheight hcond ord
  generalize (t.invalidateBlock v ord B.hash).1 = t₁ at ho hvalid hflags ⊢
  have hB₁ : B ∈ t₁.nodes := ho.nodes ▸ hB
  obtain ⟨t', ht', hnodes, htip, hinv, heq⟩ := ho.tree.reconsiderBlock_eq hB₁ hvalid v ord'
  have hnodes' : t'.nodes = t.nodes := hnodes.trans ho.nodes
  -- what was marked is above the block
  have habove : ∀ n ∈ t.nodes, t₁.knownInvalid n = true → B.OnPath n := by
    intro n hn hi
    have hnew := ((ho.invalid n hn).mp hi).resolve_left (by simp [h.valid n hn])
    unfold newlyInvalid at hnew
    split at hnew
    case isTrue hon =>
      have hclean := (h.nextTip_clean hon hp (hcond hon) ord).1
      rw [spoiled, if_pos hclean] at hnew
      exact (hnew.resolve_right not_mem_nil).1
    case isFalse => exact hnew
  have hclean : ∀ n ∈ t.nodes, t'.knownInvalid n = false := by
    intro n hn
    refine Bool.eq_false_iff.mpr fun hi => ?_
    obtain ⟨hi₁, hne, hcase⟩ := hinv n (ho.nodes ▸ hn) hi
    have hBn := habove n hn hi₁
    rcases hcase with hf | hfar
    · rw [hflags n hn hne] at hf
      cases hf
    · obtain ⟨l, hl, hnl⟩ := h.tree.exists_leaf hn
      have hmem := ((ho.mem_tips hB ord').mpr ⟨hl, hBn.trans hnl⟩).1
      exact hfar l hmem hBn hnl
  rw [heq]
  cases hlast : ((t₁.inactiveTips ord' ++ [t₁.tip]).filter (B.OnPath ·)).getLast? with
  | none =>
    -- the leaf above the block is one of the tips
    obtain ⟨l, hl, hBl⟩ := h.tree.exists_leaf hB
    have hmem := ((ho.mem_tips hB ord').mpr ⟨hl, hBl⟩).1
    rw [getLast?_eq_none_iff, filter_eq_nil_iff] at hlast
    exact absurd (by simpa using hBl) (hlast l hmem)
  | some l =>
    have hmem := mem_filter.mp (mem_of_getLast? hlast)
    obtain ⟨hl, hBl⟩ := (ho.mem_tips hB ord').mp ⟨hmem.1, by simpa using hmem.2⟩
    simp only
    by_cases hon : B.OnPath t.tip
    · -- the tip to reconsider is the old one, and it has more work than the new one
      obtain rfl := hcond hon l hl hBl
      have hwork : t'.tip.workSum < t.tip.workSum := by
        have hnext := h.nextTip_clean hon hp (hcond hon) ord
        have hd := h.tree.detached hon hp
        rw [htip, ho.tip, tipAfter, if_pos hon, if_pos hnext.1]
        rcases (hd.nextTip_spec ord).2.2 with hleaf | htip
        · refine h.best _ ((isLeaf_congr (nodes_detached hon)).mp hleaf) fun heq => hnext.2 ?_
          rw [heq]
          exact hon
        · have hpt : p.OnPath t.tip := (BlockNode.parent_onPath hp).trans hon
          rw [htip, show (t.detached B).tip = p by simp [ChainTree.detached, hp]]
          refine h.workSum_lt h.tree.tip_mem hpt fun heq => ?_
          have := hon.height_le
          rw [← heq, BlockNode.height_of_parent hp] at this
          omega
      have hpass : ∀ k : BlockNode, k.OnPath t.tip → v.connect k.hash = none := fun k hk =>
        h.connect k (h.tree.closed _ h.tree.tip_mem k hk)
      have hc : t'.Clean t.tip := clean_iff.mpr fun k hk =>
        hclean k (h.tree.closed _ h.tree.tip_mem k hk)
      obtain ⟨t₂, hr, hm⟩ := ht'.reconsiderTo_pass (hnodes' ▸ h.tree.tip_mem) hc hpass hwork
      rw [hr]
      refine ⟨rfl, fun n hn => Bool.eq_false_iff.mpr fun hi => ?_⟩
      have hmem' : n ∈ t.nodes := hnodes' ▸ hm.nodes ▸ hn
      have := ((hm.invalid n).mp hi).resolve_right id
      rw [hclean n hmem'] at this
      cases this
    · -- the branch has less work than the best chain, which has not changed
      have htip₁ : t'.tip = t.tip := by rw [htip, ho.tip, tipAfter, if_neg hon]
      have hless : l.workSum ≤ t'.tip.workSum := by
        rw [htip₁]
        exact (h.best l hl fun heq => hon (heq ▸ hBl)).le
      rw [reconsiderTo, if_pos hless]
      exact ⟨htip₁, fun n hn => hclean n (hnodes' ▸ hn)⟩

/-- Whatever the orders of the two calls, reconsidering an invalidated block
brings back the old tip and leaves no mark, exactly if the block is outside the
best chain or the old tip is the only leaf above it. -/
theorem reconsider_undoes_iff (v : Verdicts) (g : HeaderInfo) (t : ChainTree) (B : BlockNode)
    (h : AllValid v g t) (hB : B ∈ t.nodes) (hheight : B.height ≠ 0) :
    (∀ ord ord' : MapOrder,
      Restored t ((t.invalidateBlock v ord B.hash).1.reconsiderBlock v ord' B.hash).1) ↔
    (B.OnPath t.tip → t.OnlyLeaf B) := by
  constructor
  · intro hall hon l hl hBl
    by_contra hne
    exact h.not_restored hB hheight hon hl hBl hne arrivalOrder (hall arrivalOrder (lastOrder l)).1
  · intro hcond ord ord'
    exact h.restored hB hheight hcond ord ord'

section Trees

/-- The part of `AllValid` that can be looked up in the tree. -/
def LooksValid (v : Verdicts) (t : ChainTree) : Prop :=
  (∀ n ∈ t.nodes, t.knownInvalid n = false ∧ v.connect n.hash = none ∧ 0 < calcWork n.info.bits) ∧
  t.IsLeaf t.tip ∧ ∀ n ∈ t.nodes, t.IsLeaf n → n ≠ t.tip → n.workSum < t.tip.workSum

instance (v : Verdicts) (t : ChainTree) : Decidable (LooksValid v t) :=
  inferInstanceAs (Decidable (_ ∧ _))

theorem LooksValid.allValid (h : LooksValid v t) (ht : TreeOk g t) : AllValid v g t :=
  ⟨ht, fun n hn => (h.1 n hn).1, fun n hn => (h.1 n hn).2.1, fun n hn => (h.1 n hn).2.2, h.2.1,
    fun n hn => h.2.2 n hn.1 hn⟩

/-- Block 1 below the tip, with no other leaf above it. -/
theorem two_branches_restored : ∃ t,
    Reaches (arrive (allBut none)) (· = genesisTree (easyHeader 0)) (ReplaysOrphans (allBut none)) t ∧
      t.tip.hash = 2 ∧ ∀ ord ord' : MapOrder,
        Restored t ((t.invalidateBlock (allBut none) ord 1).1.reconsiderBlock (allBut none) ord' 1).1 := by
  obtain ⟨t, hreach, htip, hlooks, hmem, honly⟩ := exists_tree twoBranches
    (q := fun t => t.tip.hash = 2 ∧ LooksValid (allBut none) t ∧ ⟨easyHeader 1, [easyHeader 0]⟩ ∈ t.nodes ∧
      ∀ l ∈ t.nodes, (⟨easyHeader 1, [easyHeader 0]⟩ : BlockNode).OnPath l → t.IsLeaf l → l = t.tip)
    (by decide +kernel)
  exact ⟨t, hreach, htip, (reconsider_undoes_iff _ _ t _ (hlooks.allValid (reaches_poolInv hreach).tree)
    hmem (by decide)).mpr fun _ l hl hBl => honly l hl.1 hBl hl⟩

/-- Block 1 on genesis, blocks 2 and 3 on block 1, and block 4, the tip, on block 2. -/
def forkAbove : List Offer :=
  [⟨easyBlock 1 0, false⟩, ⟨easyBlock 2 1, false⟩, ⟨easyBlock 4 2, false⟩, ⟨easyBlock 3 1, false⟩]

/-- All blocks are valid and block 4 alone has the most work. After block 1 was
invalidated and reconsidered the tip is block 3, the last leaf above block 1 in
the order of the map. -/
theorem fork_above_not_restored : ∃ t,
    Reaches (arrive (allBut none)) (· = genesisTree (easyHeader 0)) (ReplaysOrphans (allBut none)) t ∧
      AllValid (allBut none) (easyHeader 0) t ∧ t.tip.hash = 4 ∧
      ((t.invalidateBlock (allBut none) arrivalOrder 1).1.reconsiderBlock (allBut none)
        arrivalOrder 1).1.tip.hash = 3 := by
  obtain ⟨t, hreach, hlooks, htip, hafter⟩ := exists_tree forkAbove
    (q := fun t => LooksValid (allBut none) t ∧ t.tip.hash = 4 ∧
      ((t.invalidateBlock (allBut none) arrivalOrder 1).1.reconsiderBlock (allBut none)
        arrivalOrder 1).1.tip.hash = 3)
    (by decide +kernel)
  exact ⟨t, hreach, hlooks.allValid (reaches_poolInv hreach).tree, htip, hafter⟩

end Trees

end ChainTree

end FalconDraw.Chain
