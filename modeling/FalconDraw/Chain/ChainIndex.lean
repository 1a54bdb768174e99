/-
FalconDraw.Chain.ChainIndex — the staking index of a chain.

`chainIndex` connects the blocks of a chain one by one onto an empty index: it is
what a node that never saw another branch holds.
-/
import FalconDraw.Chain.ConnectTheorems
import FalconDraw.Draw.StakeIndexTheorems

namespace FalconDraw.Chain

open Lib Wire Draw List

variable {node : BlockNode}

/-- The blocks, nearest first, are the blocks of these headers. -/
def ChainOf : List HeaderInfo → List Block → Prop
  | [], [] => True
  | i :: is, b :: bs => b.hash = i.hash ∧ b.height = is.length ∧ ChainOf is bs
  | _, _ => False

instance : ∀ is bs, Decidable (ChainOf is bs)
  | [], [] => inferInstanceAs (Decidable True)
  | i :: is, b :: bs =>
      have := instDecidableChainOf is bs
      inferInstanceAs (Decidable (_ ∧ _ ∧ _))
  | [], _ :: _ => inferInstanceAs (Decidable False)
  | _ :: _, [] => inferInstanceAs (Decidable False)

def chainIndex : List Block → StakeIndex
  | [] => StakeIndex.empty
  | b :: bs => (chainIndex bs).connectBlock b

/-- Some block of the chain has a VDF result for the draw. -/
def SettledBelow (blocks : List Block) (drawHeight : Nat) : Prop :=
  ∃ b ∈ blocks, ∃ d ∈ blockResults b, d.drawHeight = drawHeight

instance (blocks : List Block) (drawHeight : Nat) : Decidable (SettledBelow blocks drawHeight) :=
  inferInstanceAs (Decidable (∃ b ∈ blocks, ∃ d ∈ blockResults b, d.drawHeight = drawHeight))

theorem chainOf_mem {b : Block} : ∀ {is : List HeaderInfo} {bs : List Block},
    ChainOf is bs → b ∈ bs →
    ∃ pre i rest, is = pre ++ i :: rest ∧ i.hash = b.hash ∧ b.height = rest.length
  | [], [], _, hb => by simp at hb
  | i :: is, c :: bs, h, hb => by
      obtain ⟨hhash, hheight, hrest⟩ := h
      rcases mem_cons.mp hb with rfl | hb
      · exact ⟨[], i, is, rfl, hhash.symm, hheight⟩
      · obtain ⟨pre, j, rest, rfl, hj, hlen⟩ := chainOf_mem hrest hb
        exact ⟨i :: pre, j, rest, rfl, hj, hlen⟩
  | [], _ :: _, h, _ => h.elim
  | _ :: _, [], h, _ => h.elim

theorem ancestor_of_split {pre rest : List HeaderInfo} {i : HeaderInfo}
    (h : node.ancestors = pre ++ i :: rest) : node.ancestor rest.length = some ⟨i, rest⟩ := by
  have hheight : node.height = pre.length + 1 + rest.length := by
    simp only [BlockNode.height, h, length_append, length_cons]
    omega
  have hdrop : node.chain.drop (node.height - rest.length) = i :: rest := by
    have hn : node.height - rest.length = pre.length + 1 := by omega
    rw [hn, BlockNode.chain, drop_succ_cons, h, drop_left]
  have hrange : ¬ ((rest.length : Int) < 0 ∨ (node.height : Int) < rest.length) := by omega
  rw [BlockNode.ancestor, if_neg hrange, Int.toNat_natCast, hdrop]
  rfl

theorem ancestor_of_chain {blocks : List Block} {b : Block}
    (h : ChainOf node.ancestors blocks) (hb : b ∈ blocks) :
    ∃ a, node.ancestor b.height = some a ∧ a.hash = b.hash := by
  obtain ⟨pre, i, rest, his, hi, hheight⟩ := chainOf_mem h hb
  refine ⟨⟨i, rest⟩, ?_, hi⟩
  rw [hheight]
  exact ancestor_of_split his

theorem chainIndex_vdfResults (D : Nat) : ∀ blocks : List Block,
    ((chainIndex blocks).vdfResults.get D = none ∧ ¬ SettledBelow blocks D) ∨
      ∃ b ∈ blocks, ∃ d ∈ blockResults b, d.drawHeight = D ∧
        (chainIndex blocks).vdfResults.get D = some (StakeIndex.recordOf b.height b.hash d)
  | [] => Or.inl ⟨rfl, by simp [SettledBelow]⟩
  | b :: bs => by
      rw [chainIndex, StakeIndex.connectBlock_vdfResults_get]
      cases hf : (blockResults b).reverse.find? fun d => d.drawHeight = D with
      | some d =>
        have hd := find?_some hf
        have hmem := mem_reverse.mp (mem_of_find?_eq_some hf)
        exact Or.inr ⟨b, mem_cons_self, d, hmem, by simpa using hd, rfl⟩
      | none =>
        rcases chainIndex_vdfResults D bs with ⟨hnone, hnot⟩ | ⟨c, hc, d, hd, hD, hrec⟩
        · refine Or.inl ⟨hnone, ?_⟩
          rintro ⟨c, hc, d, hd, hD⟩
          rcases mem_cons.mp hc with rfl | hc
          · have := List.find?_eq_none.mp hf d (mem_reverse.mpr hd)
            simp [hD] at this
          · exact hnot ⟨c, hc, d, hd, hD⟩
        · exact Or.inr ⟨c, mem_cons_of_mem _ hc, d, hd, hD, hrec⟩

/-- On the index of the node's own ancestors the already-settled test fires
exactly for the draws an ancestor has a VDF result for. -/
theorem alreadySettled_chainIndex (env : Env) {blocks : List Block}
    (h : ChainOf node.ancestors blocks) (D : Nat) :
    alreadySettled env (chainIndex blocks) node D = none ↔ ¬ SettledBelow blocks D := by
  unfold alreadySettled
  rcases chainIndex_vdfResults D blocks with ⟨hnone, hnot⟩ | ⟨b, hb, d, hd, hD, hrec⟩
  · rw [hnone]
    simp [hnot]
  · obtain ⟨a, ha, hhash⟩ := ancestor_of_chain h hb
    have hsettled : SettledBelow blocks D := ⟨b, hb, d, hd, hD⟩
    rw [hrec]
    simp [StakeIndex.recordOf, ha, hhash, hsettled]

end FalconDraw.Chain
