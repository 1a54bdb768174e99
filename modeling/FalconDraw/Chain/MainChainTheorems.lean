/-
FalconDraw.Chain.MainChainTheorems — what `connectBestChain` says about the
block it was given.

The answer "on the main chain" of a reorganization is only that no error occurred.
-/
import FalconDraw.Chain.MostWorkTheorems

namespace FalconDraw.Chain

open Lib Wire Draw

namespace ChainTree

variable {v : Verdicts} {t t' : ChainTree} {g : HeaderInfo} {n : BlockNode}

/-- A block index with its best tip, whatever is known about the blocks. -/
structure IndexOk (g : HeaderInfo) (t : ChainTree) : Prop where
  rooted  : ∀ n ∈ t.nodes, n.chain.getLast? = some g
  closed  : ∀ n ∈ t.nodes, ∀ m : BlockNode, m.OnPath n → m ∈ t.nodes
  unique  : ∀ m ∈ t.nodes, ∀ n ∈ t.nodes, m.hash = n.hash → m = n
  tip_mem : t.tip ∈ t.nodes

theorem TreeOk.indexOk (ht : TreeOk g t) : IndexOk g t :=
  ⟨ht.rooted, ht.closed, ht.unique, ht.tip_mem⟩

/-- The parent, or a block of the branch that is not on the best chain, is known
to be invalid. -/
def Halted (t : ChainTree) (n : BlockNode) : Prop :=
  n.parent.any t.knownInvalid = true ∨ ∃ m ∈ n.path, ¬ m.OnPath t.tip ∧ t.knownInvalid m = true

instance (t : ChainTree) (n : BlockNode) : Decidable (t.Halted n) :=
  inferInstanceAs (Decidable (_ ∨ _))

theorem IndexOk.fork (ht : IndexOk g t) (hn : n ∈ t.nodes) :
    ∃ f : BlockNode, BlockChain.findFork t.tip n.chain = some f ∧ f.OnPath t.tip ∧ f.OnPath n ∧
      ((BlockChain.nodesAbove (some f) n.chain).any t.knownInvalid = true ↔
        ∃ m ∈ n.path, ¬ m.OnPath t.tip ∧ t.knownInvalid m = true) := by
  obtain ⟨f, hfork, hfn, hft, hmax⟩ := BlockNode.findFork_spec (ht.rooted _ ht.tip_mem)
    (ht.rooted n hn)
  refine ⟨f, hfork, hft, hfn, ?_⟩
  rw [List.any_eq_true]
  constructor
  · rintro ⟨m, hm, hinv⟩
    obtain ⟨hmn, hmf⟩ := (BlockNode.mem_nodesAbove hfn).mp hm
    exact ⟨m, BlockNode.mem_path.mpr hmn, fun hmt => hmf (hmax m hmn hmt), hinv⟩
  · rintro ⟨m, hm, hmt, hinv⟩
    have hmf : ¬ m.OnPath f := fun h => hmt (h.trans hft)
    exact ⟨m, (BlockNode.mem_nodesAbove hfn).mpr ⟨BlockNode.mem_path.mp hm, hmf⟩, hinv⟩

theorem getReorganizeNodes_halted (ht : IndexOk g t) (hn : n ∈ t.nodes) (hh : t.Halted n) :
    ∃ t₁, t.getReorganizeNodes n = (t₁, [], []) ∧ t₁.tip = t.tip := by
  unfold getReorganizeNodes
  by_cases hparent : n.parent.any t.knownInvalid = true
  · rw [if_pos hparent]
    exact ⟨_, rfl, rfl⟩
  · obtain ⟨f, hfork, _, _, hany⟩ := ht.fork hn
    rw [if_neg hparent, hfork]
    simp only [if_pos (hany.mpr (hh.resolve_left hparent))]
    exact ⟨_, rfl, (marked_setInvalidAncestor t _).tip⟩

theorem getReorganizeNodes_open (ht : IndexOk g t) (hn : n ∈ t.nodes) (hh : ¬ t.Halted n) :
    ∃ f : BlockNode, f.OnPath t.tip ∧ f.OnPath n ∧
      t.getReorganizeNodes n = (t, BlockChain.nodesAbove (some f) t.tip.chain,
        (BlockChain.nodesAbove (some f) n.chain).reverse) := by
  obtain ⟨hparent, hbranch⟩ := not_or.mp hh
  obtain ⟨f, hfork, hft, hfn, hany⟩ := ht.fork hn
  refine ⟨f, hft, hfn, ?_⟩
  rw [getReorganizeNodes, if_neg hparent, hfork]
  exact if_neg (mt hany.mp hbranch)

theorem connectBestChain_extends {fastAdd r : Bool}
    (hparent : n.parent.map BlockNode.hash = some t.tip.hash)
    (h : t.connectBestChain v n fastAdd = (t', .ok r)) : r = true ∧ t'.tip = n := by
  rw [connectBestChain, if_pos hparent] at h
  -- every way to succeed ends with the block as the tip
  have hextend : ∀ t₁ : ChainTree, t₁.extendTo n = (t', .ok r) → r = true ∧ t'.tip = n := by
    intro t₁ h₁
    obtain ⟨rfl, hr⟩ := Prod.mk.inj h₁
    exact ⟨(Except.ok.inj hr).symm, rfl⟩
  split at h
  · exact hextend t h
  · grind

/-- A call that succeeds says the truth about the block if and only if the block
extends the tip, or has no more work than the tip and is not on the best chain,
or has more work and nothing of its branch is known to be invalid. -/
theorem main_chain_answer_iff (g : HeaderInfo) (v : Verdicts) (t t' : ChainTree) (n : BlockNode)
    (fastAdd r : Bool) (ht : IndexOk g t) (hn : n ∈ t.nodes)
    (h : t.connectBestChain v n fastAdd = (t', .ok r)) :
    r = t'.onBestChain n ↔ n.parent = some t.tip ∨ (n.workSum ≤ t.tip.workSum ∧ ¬ n.OnPath t.tip) ∨
      (t.tip.workSum < n.workSum ∧ ¬ t.Halted n) := by
  have hself : ∀ u : ChainTree, u.tip = n → u.onBestChain n = true := fun u hu =>
    onBestChain_iff.mpr (hu ▸ .refl _)
  by_cases hparent : n.parent.map BlockNode.hash = some t.tip.hash
  · obtain ⟨rfl, htip⟩ := connectBestChain_extends hparent h
    obtain ⟨p, hp, hhash⟩ := Option.map_eq_some_iff.mp hparent
    have hmem : p ∈ t.nodes := ht.closed n hn p (BlockNode.parent_onPath hp)
    have hpt : n.parent = some t.tip := by rw [hp, ht.unique p hmem t.tip ht.tip_mem hhash]
    exact ⟨fun _ => .inl hpt, fun _ => (hself t' htip).symm⟩
  · have hnotChild : n.parent ≠ some t.tip := fun hp => hparent (by rw [hp]; rfl)
    rw [connectBestChain, if_neg hparent] at h
    by_cases hwork : n.workSum ≤ t.tip.workSum
    · grind [onBestChain_iff]
    · rw [if_neg hwork] at h
      have hmore : t.tip.workSum < n.workSum := not_le.mp hwork
      by_cases hh : t.Halted n
      · obtain ⟨t₁, hnodes, htip⟩ := getReorganizeNodes_halted ht hn hh
        simp only [hnodes, reorganizeChain_nil] at h
        obtain ⟨rfl, hr⟩ := Prod.mk.inj h
        obtain rfl := Except.ok.inj hr
        have hoff : ¬ n.OnPath t₁.tip := fun hon =>
          absurd (htip ▸ hon.workSum_le) (not_le.mpr hmore)
        constructor
        · intro htrue
          exact absurd (onBestChain_iff.mp htrue.symm) hoff
        · grind
      · obtain ⟨f, hft, hfn, hnodes⟩ := getReorganizeNodes_open ht hn hh
        simp only [hnodes] at h
        rcases reorganizeChain_cases v hft hfn with ⟨t₁, hr, _⟩ | ⟨t₁, e, bad, hr, _⟩
        · grind
        · simp only [hr] at h
          cases h

/-- Blocks 1 and 3 on genesis, block 1 is the tip: block 4 on block 3 overtakes
it. -/
theorem overtaking_block_on_main_chain : ∃ t n t',
    IndexOk (easyHeader 0) t ∧ n ∈ t.nodes ∧ n.parent ≠ some t.tip ∧
      t.connectBestChain (allBut none) n false = (t', .ok true) ∧ true = t'.onBestChain n := by
  let n : BlockNode := ⟨easyHeader 4, [easyHeader 3, easyHeader 0]⟩
  let p : BlockNode := ⟨easyHeader 3, [easyHeader 0]⟩
  obtain ⟨t, hrun, hp, hfresh, hparent, hok, hwork, hopen⟩ : ∃ t,
      runSteps (guarded (arrive (allBut none)) (ReplaysOrphans (allBut none)))
        (genesisTree (easyHeader 0)) [⟨easyBlock 1 0, false⟩, ⟨easyBlock 3 0, false⟩] = some t ∧
      p ∈ t.nodes ∧ (∀ m ∈ t.nodes, m.hash ≠ (easyHeader 4).hash) ∧ n.parent ≠ some t.tip ∧
      ((t.addNode n).connectBestChain (allBut none) n false).2 = .ok true ∧
      (t.addNode n).tip.workSum < n.workSum ∧ ¬ (t.addNode n).Halted n := by decide +kernel
  have htree := (reaches_poolInv (Reaches.run (.start rfl) hrun)).tree
  have hindex := (htree.addNode hp hfresh).indexOk
  have hn : n ∈ (t.addNode n).nodes := List.mem_append_right _ List.mem_cons_self
  exact ⟨t.addNode n, n, _, hindex, hn, hparent, Prod.ext rfl hok,
    (main_chain_answer_iff _ (allBut none) _ _ n false true hindex hn (Prod.ext rfl hok)).mpr
      (.inr (.inr ⟨hwork, hopen⟩))⟩

/-- Block 2 on block 1 is the tip. Blocks 4 and 5 are on block 3, which turns
out to be invalid when block 6 on block 4 arrives. -/
def badBranch : List Offer :=
  [⟨easyBlock 1 0, false⟩, ⟨easyBlock 2 1, false⟩, ⟨easyBlock 3 0, false⟩, ⟨easyBlock 4 3, false⟩,
    ⟨easyBlock 5 3, false⟩, ⟨easyBlock 6 4, false⟩]

/-- Block 7 on block 5 has more work than the tip. It is reported to be on the
main chain, and the tip is still block 2. -/
theorem unconnected_block_reported : ∃ t n t',
    runSteps (arrive (allBut (some 3))) (genesisTree (easyHeader 0)) badBranch = some t ∧
      n.parent.any (· ∈ t.nodes) = true ∧
      (t.addNode n).connectBestChain (allBut (some 3)) n false = (t', .ok true) ∧
      t'.tip.hash = 2 ∧ t'.onBestChain n = false := by
  let n : BlockNode := ⟨easyHeader 7, [easyHeader 5, easyHeader 3, easyHeader 0]⟩
  obtain ⟨t, hrun, hparent, hok, htip, hoff⟩ : ∃ t,
      runSteps (arrive (allBut (some 3))) (genesisTree (easyHeader 0)) badBranch = some t ∧
      n.parent.any (· ∈ t.nodes) = true ∧
      ((t.addNode n).connectBestChain (allBut (some 3)) n false).2 = .ok true ∧
      ((t.addNode n).connectBestChain (allBut (some 3)) n false).1.tip.hash = 2 ∧
      ((t.addNode n).connectBestChain (allBut (some 3)) n false).1.onBestChain n = false := by
    decide +kernel
  exact ⟨t, n, _, hrun, hparent, Prod.ext rfl hok, htip, hoff⟩

end ChainTree

end FalconDraw.Chain
