/-
FalconDraw.Chain.SettleOnceTheorems — is a draw settled at most once on the best
chain?

The already-settled test reads the one record the database keeps for the draw,
which counts when the recorded block is an ancestor.
-/
import FalconDraw.Chain.ReorgTheorems
import FalconDraw.Chain.ConservationTheorems

namespace FalconDraw.Chain

open Lib Wire Draw List

variable {env : Env} {b b' : BlockChain} {genesis : HeaderInfo}
variable {block : Block} {f n node : BlockNode} {pre pre' : List HeaderInfo}

/-- The draw of the VDF result that validation looks at, the first one. -/
def settledDraw (block : Block) : Option Nat :=
  (block.transactions.find? isVDFResultTx).bind fun tx =>
    (extractVDFResultData tx).toOption.map VDFResultData.drawHeight

theorem settledDraw_mem {D : Nat} (h : settledDraw block = some D) :
    ∃ d ∈ blockResults block, d.drawHeight = D := by
  simp only [settledDraw, Option.bind_eq_some_iff, Option.map_eq_some_iff] at h
  obtain ⟨tx, hf, d, hd, hD⟩ := h
  refine ⟨d, mem_filterMap.mpr ⟨tx, mem_of_find?_eq_some hf, ?_⟩, hD⟩
  rw [resultData, if_pos (find?_some hf), hd]

def drawsOf (blocks : List Block) : List Nat :=
  blocks.flatMap fun block => (blockResults block).map VDFResultData.drawHeight

theorem settledBelow_iff {blocks : List Block} {D : Nat} :
    SettledBelow blocks D ↔ D ∈ drawsOf blocks := by
  simp [SettledBelow, drawsOf]

/-- The block settles no draw that one of these blocks settled. -/
def NewDraws (blocks : List Block) (block : Block) : Prop :=
  ∀ d ∈ blockResults block, ¬ SettledBelow blocks d.drawHeight

/-! ## The invariant -/

structure SettleInv (genesis : HeaderInfo) (b : BlockChain) : Prop where
  tree : BlockTree genesis b.nodes
  single : ∀ h s, b.nodes.get h = some s → (blockResults s.block).length ≤ 1
  fresh : ∀ h s, b.nodes.get h = some s → b.isValid h = true →
    NewDraws (b.blocksOf s.node.ancestors) s.block
  marked : ∀ h, b.isValid h = true → ∃ s, b.nodes.get h = some s
  tip : ∃ s, b.nodes.get b.best.tip.hash = some s ∧ s.node = b.best.tip
  valid : ∀ i ∈ b.best.tip.chain, b.isValid i.hash = true
  records : b.best.idx.vdfResults = (chainIndex b.bestBlocks).vdfResults

theorem SettleInv.tip_stored (h : SettleInv genesis b) : StoredChain b.nodes b.best.tip.chain := by
  obtain ⟨s, hs, hn⟩ := h.tip
  exact hn ▸ h.tree.stored _ _ hs

theorem SettleInv.congr (h : SettleInv genesis b) (hnodes : b'.nodes = b.nodes)
    (hvalid : ∀ x, b'.isValid x = b.isValid x) (htip : b'.best.tip = b.best.tip)
    (hrec : b'.best.idx.vdfResults = b.best.idx.vdfResults) : SettleInv genesis b' := by
  have hblocks : ∀ is, b'.blocksOf is = b.blocksOf is := fun is => by
    rw [BlockChain.blocksOf, BlockChain.blocksOf, hnodes]
  refine ⟨hnodes ▸ h.tree, ?_, ?_, ?_, ?_, ?_, ?_⟩
  · rw [hnodes]
    exact h.single
  · intro x s hs hx
    rw [hnodes] at hs
    rw [hvalid] at hx
    rw [hblocks]
    exact h.fresh x s hs hx
  · intro x hx
    rw [hvalid] at hx
    rw [hnodes]
    exact h.marked x hx
  · rw [hnodes, htip]
    exact h.tip
  · intro i hi
    rw [htip] at hi
    rw [hvalid]
    exact h.valid i hi
  · rw [hrec, BlockChain.bestBlocks, hblocks, htip]
    exact h.records

theorem SettleInv.setFlags (h : SettleInv genesis b) (n : BlockNode)
    {f : BlockStatus → BlockStatus} (hf : ∀ s, (f s).valid = s.valid) :
    SettleInv genesis (b.setStatusFlags n f) :=
  h.congr rfl (BlockChain.isValid_setStatusFlags hf b n) rfl rfl

theorem SettleInv.setAllFlags (h : SettleInv genesis b) (ns : List BlockNode)
    {f : BlockStatus → BlockStatus} (hf : ∀ s, (f s).valid = s.valid) :
    SettleInv genesis (b.setAllStatusFlags ns f) := by
  obtain ⟨hnodes, hbest, _⟩ := BlockChain.sameBut_setAllStatusFlags f ns b
  exact h.congr hnodes (fun x => BlockChain.isValid_setAllStatusFlags hf x ns b)
    (by rw [hbest]) (by rw [hbest])

theorem SettleInv.setValid (h : SettleInv genesis b) {s : StoredBlock}
    (hs : b.nodes.get n.hash = some s) (hnew : NewDraws (b.blocksOf s.node.ancestors) s.block) :
    SettleInv genesis (b.setStatusFlags n .setValid) := by
  refine ⟨h.tree, h.single, ?_, ?_, h.tip, ?_, h.records⟩
  · intro x s' hs' hx
    rw [BlockChain.isValid_setValid, Bool.or_eq_true, decide_eq_true_eq] at hx
    rcases hx with rfl | hx
    · obtain rfl := Option.some.inj (hs.symm.trans hs')
      exact hnew
    · exact h.fresh x s' hs' hx
  · intro x hx
    rw [BlockChain.isValid_setValid, Bool.or_eq_true, decide_eq_true_eq] at hx
    rcases hx with rfl | hx
    · exact ⟨s, hs⟩
    · exact h.marked x hx
  · intro i hi
    rw [BlockChain.isValid_setValid, h.valid i hi, Bool.or_true]

theorem settleInv_genesis (genesis : HeaderInfo) : SettleInv genesis (genesisChain genesis) := by
  have htree := blockTree_genesis genesis
  have hget : (genesisChain genesis).nodes.get genesis.hash =
      some ⟨⟨genesis, []⟩, genesisBlock genesis⟩ := Bucket.get_put_self _ _ _
  have hnone : ∀ x s, (genesisChain genesis).nodes.get x = some s → blockResults s.block = [] := by
    intro x s hs
    simp only [genesisChain, Bucket.get_put] at hs
    split at hs
    · obtain rfl := Option.some.inj hs
      rfl
    · simp at hs
  refine ⟨htree, ?_, ?_, ?_, ⟨_, hget, rfl⟩, ?_, ?_⟩
  · intro x s hs
    simp [hnone x s hs]
  · intro x s hs _ d hd
    simp [hnone x s hs] at hd
  · grind [BlockChain.isValid, genesisChain, Bucket.get_put]
  · simp [genesisChain, genesisState, BlockNode.chain, BlockChain.isValid]
  · have hbest : (genesisChain genesis).bestBlocks = [genesisBlock genesis] := by
      rw [BlockChain.bestBlocks]
      exact blocksOf_cons hget
    rw [hbest]
    rfl

/-! ## What the already-settled test rules out -/

theorem mem_blocksOf {rest : List HeaderInfo} : ∀ {pre : List HeaderInfo},
    StoredChain b.nodes (pre ++ rest) → block ∈ b.blocksOf pre →
    ∃ p i q s, pre = p ++ i :: q ∧ b.nodes.get i.hash = some s ∧ s.block = block ∧
      s.node = ⟨i, q ++ rest⟩
  | [], _, hb => by simp [BlockChain.blocksOf] at hb
  | i :: pre, ⟨⟨s, hs, hn⟩, hrest⟩, hb => by
      rw [blocksOf_cons hs] at hb
      rcases mem_cons.mp hb with rfl | hb
      · exact ⟨[], i, pre, s, rfl, hs, rfl, hn⟩
      · obtain ⟨p, j, q, s', rfl, hs', hblock, hn'⟩ := mem_blocksOf hrest hb
        exact ⟨i :: p, j, q, s', rfl, hs', hblock, hn'⟩

theorem settledBelow_append {xs ys : List Block} {D : Nat} :
    SettledBelow (xs ++ ys) D ↔ SettledBelow xs D ∨ SettledBelow ys D := by
  simp [settledBelow_iff, drawsOf]

/-- A block of the chain below the fork has its record, and a block above the
fork sees it: when the test does not fire, nothing below the fork settled the
draw. -/
theorem fork_not_settled (h : SettleInv genesis b)
    (hn : n.ancestors = pre ++ f.chain) (htip : b.best.tip.chain = pre' ++ f.chain) {D : Nat}
    (hnot : alreadySettled env b.best.idx n D = none) : ¬ SettledBelow (b.blocksOf f.chain) D := by
  intro hbelow
  have hstored := h.tip_stored
  rw [htip] at hstored
  have hbest : b.bestBlocks = b.blocksOf pre' ++ b.blocksOf f.chain := by
    rw [BlockChain.bestBlocks, htip, blocksOf_append]
  rcases chainIndex_vdfResults D b.bestBlocks with ⟨_, hno⟩ | ⟨c, hc, d, hd, hD, hrec⟩
  · exact hno (hbest ▸ settledBelow_append.mpr (Or.inr hbelow))
  · rw [hbest, mem_append] at hc
    rcases hc with hc | hc
    · -- the recorded block is above the fork: it was valid, so nothing below settled its draw
      obtain ⟨p, i, q, s, hpre, hs, rfl, hnode⟩ := mem_blocksOf hstored hc
      have hvalid : b.isValid i.hash = true := h.valid i (by simp [htip, hpre])
      have hnew := h.fresh _ _ hs hvalid d hd
      rw [hnode, blocksOf_append, hD] at hnew
      exact hnew (settledBelow_append.mpr (Or.inr hbelow))
    · -- the recorded block is below the fork: it is an ancestor, and the test fires
      obtain ⟨p, i, rest, hf, hhash, hheight⟩ :=
        chainOf_mem (chainOf_blocksOf h.tree hstored.append) hc
      have hanc : n.ancestor c.height = some ⟨i, rest⟩ := by
        have hsplit : n.ancestors = (pre ++ p) ++ i :: rest := by
          rw [hn, hf, append_assoc]
        rw [hheight]
        exact ancestor_of_split hsplit
      have hsame : (⟨i, rest⟩ : BlockNode).hash = c.hash := hhash
      rw [alreadySettled, h.records, hrec] at hnot
      simp [StakeIndex.recordOf, hanc, hsame] at hnot

/-- The one result of a validated block is for a draw that nothing below the
fork settled. -/
theorem fork_newDraws (h : SettleInv genesis b)
    (hn : n.ancestors = pre ++ f.chain) (htip : b.best.tip.chain = pre' ++ f.chain)
    (hone : (blockResults block).length ≤ 1) {utxos : UtxoSet} {view : UtxoViewpoint}
    (hacc : Accepts (checkConnectBlock env utxos b.best.idx n block view)) :
    NewDraws (b.blocksOf f.chain) block := by
  intro d hd
  obtain ⟨tx, htx, hdata⟩ := mem_filterMap.mp hd
  have hv : isVDFResultTx tx = true := (resultData_eq_some.mp hdata).1
  cases hf : block.transactions.find? isVDFResultTx with
  | none => simp [List.find?_eq_none.mp hf tx htx] at hv
  | some first =>
    obtain ⟨d', hd', _, hnot⟩ := first_result_proven hacc hf
    have hmem : d' ∈ blockResults block :=
      mem_filterMap.mpr ⟨first, mem_of_find?_eq_some hf, hd'⟩
    have hsame : d' = d := by
      match hb : blockResults block with
      | [] => simp [hb] at hd
      | [e] =>
        rw [hb, mem_singleton] at hd hmem
        rw [hd, hmem]
      | _ :: _ :: _ => simp [hb] at hone
    exact hsame ▸ fork_not_settled h hn htip hnot

/-! ## Connecting and detaching -/

/-- A block and its node as they are stored. -/
def IsStored (b : BlockChain) (n : BlockNode) (block : Block) : Prop :=
  b.nodes.get n.hash = some ⟨n, block⟩

theorem bestBlocks_tip (hs : IsStored b b.best.tip block) :
    b.bestBlocks = block :: b.blocksOf b.best.tip.ancestors :=
  blocksOf_cons hs

theorem SettleInv.connectBlock (h : SettleInv genesis b)
    (hs : IsStored b n block) (hvalid : b.isValid n.hash = true) (hanc : n.ancestors ≠ []) :
    SettleInv genesis (b.connectBlock n block).1 := by
  rcases b.connectBlock_cases n block with ⟨utxos, e, hc⟩ | ⟨utxos, stxos, _, hprev, _, hc⟩
  · rw [hc]
    exact h.congr rfl (fun _ => rfl) rfl rfl
  · rw [hc]
    obtain ⟨p, hp, hchain⟩ := h.tree.linked _ _ hs hanc
    obtain ⟨t, ht, htn⟩ := h.tip
    -- the parent of the block is the tip
    obtain rfl : p = t := by
      have hprev' : b.nodes.get block.header.prevBlock = some t := hprev ▸ ht
      exact Option.some.inj (hp.symm.trans hprev')
    rw [htn] at hchain
    have hanc' : n.ancestors = b.best.tip.chain := hchain
    refine ⟨h.tree, h.single, h.fresh, h.marked, ⟨_, hs, rfl⟩, ?_, ?_⟩
    · intro i hi
      rcases mem_cons.mp hi with rfl | hi
      · exact hvalid
      · exact h.valid i (hanc' ▸ hi)
    · have hblocks : b.blocksOf n.chain = block :: b.bestBlocks := by
        rw [BlockNode.chain, blocksOf_cons hs, hanc', BlockChain.bestBlocks]
      have hnew : (chainIndex (block :: b.bestBlocks)).vdfResults = _ :=
        StakeIndex.connectBlock_vdfResults (chainIndex b.bestBlocks) block
      show (b.best.idx.connectBlock block).vdfResults = (chainIndex (b.blocksOf n.chain)).vdfResults
      rw [hblocks, hnew, StakeIndex.connectBlock_vdfResults, h.records]

/-- The record a block with at most one result wrote for a new draw is gone when
it is deleted. -/
theorem records_undone {blocks : List Block}
    (hone : (blockResults block).length ≤ 1) (hnew : NewDraws blocks block) :
    (blockResults block).foldl (fun r d => r.delete d.drawHeight)
      (chainIndex (block :: blocks)).vdfResults = (chainIndex blocks).vdfResults := by
  have hcons : (chainIndex (block :: blocks)).vdfResults = _ :=
    StakeIndex.connectBlock_vdfResults (chainIndex blocks) block
  rw [hcons]
  match hb : blockResults block with
  | [] => rfl
  | [d] =>
    have hfree : ¬ SettledBelow blocks d.drawHeight := hnew d (by simp [hb])
    rcases chainIndex_vdfResults d.drawHeight blocks with ⟨hnone, _⟩ | ⟨c, hc, d', hd', hD, _⟩
    · exact Bucket.delete_put _ _ hnone
    · exact absurd ⟨c, hc, d', hd', hD⟩ hfree
  | _ :: _ :: _ => simp [hb] at hone

theorem SettleInv.disconnectBlock (h : SettleInv genesis b)
    {view : UtxoViewpoint} (hs : IsStored b n block)
    (hd : b.disconnectBlock n block view = .ok b') : SettleInv genesis b' := by
  obtain ⟨hhash, prevNode, hparent, rfl⟩ := BlockChain.disconnectBlock_ok hd
  obtain ⟨t, ht, htn⟩ := h.tip
  obtain rfl : n = b.best.tip := by
    have hs' : b.nodes.get b.best.tip.hash = some ⟨n, block⟩ := hhash ▸ hs
    rw [← htn, Option.some.inj (ht.symm.trans hs')]
  have hanc : b.best.tip.ancestors = prevNode.chain := by
    unfold BlockNode.parent BlockNode.ofChain at hparent
    cases ha : b.best.tip.ancestors with
    | nil => simp [ha] at hparent
    | cons i is =>
      rw [ha] at hparent
      obtain rfl := Option.some.inj hparent
      rfl
  have hstored : StoredChain b.nodes prevNode.chain := hanc ▸ h.tip_stored.2
  have hfresh : NewDraws (b.blocksOf b.best.tip.ancestors) block :=
    h.fresh _ _ hs (h.valid _ mem_cons_self)
  refine ⟨h.tree, h.single, h.fresh, h.marked, hstored.1, ?_, ?_⟩
  · intro i hi
    exact h.valid i (mem_cons_of_mem _ (hanc ▸ hi))
  · show (b.best.idx.disconnectBlock block).vdfResults =
      (chainIndex (b.blocksOf prevNode.chain)).vdfResults
    rw [StakeIndex.disconnectBlock_vdfResults, h.records, bestBlocks_tip hs,
      records_undone (h.single _ _ hs) hfresh, hanc]

theorem SettleInv.detachAll : ∀ {ds : List (BlockNode × Block × List SpentTxOut)}
    {b : BlockChain} {view : UtxoViewpoint}, SettleInv genesis b →
    (∀ d ∈ ds, IsStored b d.1 d.2.1) →
    SettleInv genesis (b.detachAll view ds).1 ∧ (b.detachAll view ds).1.nodes = b.nodes ∧
      (b.detachAll view ds).1.status = b.status
  | [], _, _, h, _ => ⟨h, rfl, rfl⟩
  | (n, block, stxos) :: ds, b, view, h, hall => by
      rw [BlockChain.detachAll]
      cases UtxoViewpoint.disconnectTransactions _ _ block stxos with
      | error e => exact ⟨h, rfl, rfl⟩
      | ok view' =>
        simp only
        cases hd : b.disconnectBlock n block view' with
        | error e => exact ⟨h, rfl, rfl⟩
        | ok b' =>
          have hinv := h.disconnectBlock (hall _ mem_cons_self) hd
          obtain ⟨_, _, _, rfl⟩ := BlockChain.disconnectBlock_ok hd
          exact SettleInv.detachAll hinv fun d hmem => hall d (mem_cons_of_mem _ hmem)

theorem SettleInv.attachAll : ∀ {as : List (BlockNode × Block)} {b : BlockChain},
    SettleInv genesis b →
    (∀ a ∈ as, IsStored b a.1 a.2 ∧ b.isValid a.1.hash = true ∧ a.1.ancestors ≠ []) →
    SettleInv genesis (b.attachAll as).1
  | [], _, h, _ => h
  | (n, block) :: as, b, h, hall => by
      obtain ⟨hs, hvalid, hanc⟩ := hall _ mem_cons_self
      have hinv := h.connectBlock hs hvalid hanc
      obtain ⟨hnodes, hstatus⟩ := b.connectBlock_frame n block
      rw [BlockChain.attachAll]
      rcases hc : b.connectBlock n block with ⟨b', r⟩
      rw [hc] at hinv hnodes hstatus
      cases r with
      | error e => exact hinv
      | ok u =>
        refine SettleInv.attachAll hinv fun a ha => ?_
        obtain ⟨hs', hvalid', hanc'⟩ := hall a (mem_cons_of_mem _ ha)
        simp only at hnodes hstatus
        refine ⟨?_, ?_, hanc'⟩
        · rw [IsStored, hnodes]
          exact hs'
        · rw [BlockChain.isValid, hstatus]
          exact hvalid'

/-! ## Validating a branch -/

/-- A stored node above the fork that settles nothing settled on its own branch. -/
def BranchNode (b : BlockChain) (f n : BlockNode) : Prop :=
  ∃ block q, IsStored b n block ∧ n.ancestors = q ++ f.chain ∧ NewDraws (b.blocksOf q) block

/-- What validation of the branch leaves: the invariant, and the blocks to attach
stored and valid. -/
theorem SettleInv.checkAttachAll :
    ∀ {ns : List BlockNode} {b : BlockChain} {view : UtxoViewpoint}, SettleInv genesis b →
    b.best.tip.chain = pre' ++ f.chain → (∀ n ∈ ns, BranchNode b f n) →
    SettleInv genesis (BlockChain.checkAttachAll env b view ns).1 ∧
      ∀ as, (BlockChain.checkAttachAll env b view ns).2 = .ok as → ∀ a ∈ as, IsStored b a.1 a.2 ∧
          (BlockChain.checkAttachAll env b view ns).1.isValid a.1.hash = true ∧
          a.1.ancestors ≠ []
  | [], b, view, h, _, _ => by
      refine ⟨h, fun as has a ha => ?_⟩
      obtain rfl : [] = as := by simpa [BlockChain.checkAttachAll] using has
      simp at ha
  | n :: ns, b, view, h, htip, hall => by
      obtain ⟨block₀, q, hs, hanc, hbranch⟩ := hall n mem_cons_self
      rcases BlockChain.checkAttachAll_cons env b view n ns with
        ⟨e, hr⟩ | ⟨e, hr⟩ | ⟨block, view', hblock, hcheck, hr, hok⟩
      · rw [hr]
        exact ⟨h, fun as has => by simp at has⟩
      · rw [hr]
        refine ⟨?_, fun as has => by simp at has⟩
        exact (h.setFlags n BlockChain.valid_setValidateFailed).setAllFlags ns
          BlockChain.valid_setInvalidAncestor
      · obtain ⟨s, hs', rfl⟩ := BlockChain.fetchBlockByNode_ok hblock
        obtain rfl := Option.some.inj (hs.symm.trans hs')
        have hnew : NewDraws (b.blocksOf n.ancestors) block₀ := by
          unfold BlockChain.checkAttach at hcheck
          split at hcheck
          case isTrue hknown => exact h.fresh _ _ hs hknown
          case isFalse =>
            simp only [bind_eq_ok, pure_eq_ok] at hcheck
            obtain ⟨r, hr', _⟩ := hcheck
            have hfork := fork_newDraws h hanc htip (h.single _ _ hs) ⟨r, hr'⟩
            intro d hd
            rw [hanc, blocksOf_append, settledBelow_append, not_or]
            exact ⟨hbranch d hd, hfork d hd⟩
        have hrest : SettleInv genesis (BlockChain.checkAttachAll env
            (b.setStatusFlags n .setValid) view' ns).1 ∧ _ :=
          SettleInv.checkAttachAll (h.setValid hs hnew) htip
            fun m hm => hall m (mem_cons_of_mem _ hm)
        rw [hr]
        refine ⟨hrest.1, fun as has a ha => ?_⟩
        obtain ⟨rest, rfl, hrestok⟩ := hok as has
        rcases mem_cons.mp ha with rfl | ha
        · have hvalid : (b.setStatusFlags n .setValid).isValid n.hash = true := by
            simp [BlockChain.isValid_setValid]
          refine ⟨hs, BlockChain.checkAttachAll_frame.2 _ hvalid, ?_⟩
          simp [hanc, BlockNode.chain]
        · exact hrest.2 rest hrestok a ha

theorem SettleInv.reorganizeChain (h : SettleInv genesis b)
    (htip : b.best.tip.chain = pre' ++ f.chain)
    {detach attach : List BlockNode} (hdetach : ∀ n ∈ detach, ∃ block, IsStored b n block)
    (hattach : ∀ n ∈ attach, BranchNode b f n) :
    SettleInv genesis (b.reorganizeChain env detach attach).1 := by
  unfold BlockChain.reorganizeChain
  rcases BlockChain.verify_cases env b detach attach with ⟨e, hv⟩ | ⟨view, ds, hd, hv₁, hv₂⟩
  · rw [hv]
    exact h
  · have hcheck : SettleInv genesis (BlockChain.checkAttachAll env b view attach).1 ∧ _ :=
      h.checkAttachAll htip hattach
    obtain ⟨hsame, _⟩ : BlockChain.SameBut b (BlockChain.checkAttachAll env b view attach).1 ∧ _ :=
      BlockChain.checkAttachAll_frame
    rw [← hv₁] at hcheck hsame
    revert hcheck hsame hv₂
    rcases b.verifyReorganizationValidity env detach attach with ⟨b₁, r⟩
    intro hv₂ hcheck hsame
    cases r with
    | error e => exact hcheck.1
    | ok r =>
      obtain ⟨ds', as⟩ := r
      obtain ⟨rfl, has⟩ := hv₂ _ rfl
      obtain ⟨hmap, hblocks⟩ := BlockChain.checkDetach_blocks hd
      have hstored : ∀ d ∈ ds', IsStored b₁ d.1 d.2.1 := by
        intro d hmem
        obtain ⟨s, hs, hblock⟩ := hblocks d hmem
        obtain ⟨block, hblock'⟩ := hdetach d.1 (hmap ▸ mem_map_of_mem hmem)
        obtain rfl := Option.some.inj (hblock'.symm.trans hs)
        simp only at hblock
        rw [IsStored, hsame.1, ← hblock]
        exact hblock'
      have hdet : SettleInv genesis
          (b₁.detachAll (UtxoViewpoint.new b₁.best.tip.hash) ds').1 ∧ _ :=
        SettleInv.detachAll hcheck.1 hstored
      simp only
      revert hdet
      rcases BlockChain.detachAll b₁ (UtxoViewpoint.new b₁.best.tip.hash) ds' with ⟨b₂, r₂⟩
      rintro ⟨hinv, hnodes, hstatus⟩
      cases r₂ with
      | error e => exact hinv
      | ok u =>
        refine SettleInv.attachAll hinv fun a ha => ?_
        obtain ⟨hs, hvalid, hanc⟩ := hcheck.2 as has a ha
        simp only at hnodes hstatus
        refine ⟨?_, ?_, hanc⟩
        · rw [IsStored, hnodes, hsame.1]
          exact hs
        · rw [BlockChain.isValid, hstatus]
          exact hvalid

theorem blocksAt_nodesOn (rest : List HeaderInfo) : ∀ pre : List HeaderInfo,
    b.blocksAt (nodesOn rest pre) = b.blocksOf pre
  | [] => rfl
  | i :: pre => by
      have ih := blocksAt_nodesOn rest pre
      rw [BlockChain.blocksAt] at ih ⊢
      rw [nodesOn, filterMap_cons, ih]
      rfl

theorem branchNode_of_nodup
    (hstored : StoredChain b.nodes (pre ++ f.chain)) (hnodup : (drawsOf (b.blocksOf pre)).Nodup)
    (hn : n ∈ nodesOn f.chain pre) : BranchNode b f n := by
  obtain ⟨p, i, q, block, rfl, rfl, hs⟩ := mem_nodesOn hstored hn
  refine ⟨block, q, hs, rfl, ?_⟩
  intro d hd hbelow
  have hs' : b.nodes.get i.hash = some ⟨⟨i, q ++ f.chain⟩, block⟩ := hs
  rw [blocksOf_append, blocksOf_cons hs', drawsOf, flatMap_append, flatMap_cons] at hnodup
  have hright := (nodup_append.mp hnodup).2.1
  have hdisj := (nodup_append.mp hright).2.2
  exact hdisj _ (mem_map_of_mem hd) _ (settledBelow_iff.mp hbelow) rfl

theorem SettleInv.reorganize (h : SettleInv genesis b)
    (hs : IsStored b node block) (hnodup : (drawsOf (b.branchBlocks node)).Nodup) :
    SettleInv genesis ((b.getReorganizeNodes node).1.reorganizeChain env
      (b.getReorganizeNodes node).2.1 (b.getReorganizeNodes node).2.2).1 := by
  have hempty : ∀ b' : BlockChain, (b'.reorganizeChain env [] []).1 = b' := fun b' => rfl
  unfold BlockChain.getReorganizeNodes
  split
  · rw [hempty]
    exact h.setFlags node BlockChain.valid_setInvalidAncestor
  · simp only
    split
    · rw [hempty]
      exact h.setAllFlags _ BlockChain.valid_setInvalidAncestor
    · -- both chains are lists in front of the fork
      obtain ⟨t, ht, htn⟩ := h.tip
      obtain ⟨f, hf⟩ := findFork_rooted (htn ▸ h.tree.rooted _ _ ht) (h.tree.rooted _ _ hs)
      simp only at hf
      obtain ⟨⟨pre, hpre⟩, ⟨pre', hpre'⟩⟩ := findFork_some hf
      have hbranch : BlockChain.nodesAbove (some f) node.chain = nodesOn f.chain pre := by
        rw [hpre, nodesAbove_append]
      have hdetach : BlockChain.nodesAbove (some f) b.best.tip.chain = nodesOn f.chain pre' := by
        rw [hpre', nodesAbove_append]
      have hstored : StoredChain b.nodes (pre ++ f.chain) := hpre ▸ h.tree.stored _ _ hs
      have hnodup' : (drawsOf (b.blocksOf pre)).Nodup := by
        rw [BlockChain.branchBlocks, hf, hbranch, blocksAt_nodesOn] at hnodup
        exact hnodup
      rw [hf, hbranch, hdetach]
      refine h.reorganizeChain hpre' ?_ ?_
      · intro n hn
        obtain ⟨_, _, _, block', _, _, hget⟩ := mem_nodesOn (hpre' ▸ h.tip_stored) hn
        exact ⟨block', hget⟩
      · intro n hn
        exact branchNode_of_nodup hstored hnodup' (mem_reverse.mp hn)

/-! ## One arrival -/

theorem SettleInv.store (h : SettleInv genesis b) {p : StoredBlock}
    (hnew : b.nodes.get block.hash = none) (hp : b.nodes.get block.header.prevBlock = some p)
    (hone : (blockResults (withHeight p.node block)).length ≤ 1) :
    SettleInv genesis (b.store (p.node.child (withHeight p.node block))
      (withHeight p.node block)) := by
  have hg : Grows b.nodes (b.store (p.node.child (withHeight p.node block))
      (withHeight p.node block)).nodes := grows_put hnew
  refine ⟨h.tree.put hnew hp, ?_, ?_, ?_, ?_, h.valid, ?_⟩
  · intro x s hs
    simp only [BlockChain.store, Bucket.get_put] at hs
    split at hs
    · obtain rfl := Option.some.inj hs
      exact hone
    · exact h.single x s hs
  · intro x s hs hx
    obtain ⟨s', hs'⟩ := h.marked x hx
    obtain rfl := Option.some.inj (hs.symm.trans (hg x s' hs'))
    rw [blocksOf_grows hg (h.tree.stored x s hs').2]
    exact h.fresh x s hs' hx
  · intro x hx
    obtain ⟨s, hs⟩ := h.marked x hx
    exact ⟨s, hg x s hs⟩
  · obtain ⟨s, hs, hn⟩ := h.tip
    exact ⟨s, hg _ s hs, hn⟩
  · have hbest := blocksOf_grows hg h.tip_stored
    show b.best.idx.vdfResults = (chainIndex ((b.store _ _).blocksOf b.best.tip.chain)).vdfResults
    rw [hbest]
    exact h.records

theorem SettleInv.extendBest (h : SettleInv genesis b)
    (hs : IsStored b node block) (hanc : node.ancestors = b.best.tip.chain) :
    SettleInv genesis (b.extendBest env node block false).1 := by
  have hne : node.ancestors ≠ [] := by simp [hanc, BlockNode.chain]
  rcases BlockChain.extendBest_cases env b node block false with (hr | hr) | ⟨b₁, hb₁, hr⟩
  · rw [hr]
    exact h
  · rw [hr]
    exact h.setFlags node BlockChain.valid_setValidateFailed
  · -- the block is valid before it is connected
    obtain ⟨hinv, hs₁, hvalid⟩ : SettleInv genesis b₁ ∧ IsStored b₁ node block ∧
        b₁.isValid node.hash = true := by
      rcases hb₁ with ⟨rfl, hskip⟩ | ⟨rfl, hacc⟩
      · exact ⟨h, hs, by simpa using hskip⟩
      · have hsplit : node.ancestors = [] ++ b.best.tip.chain := hanc
        have hnew : NewDraws (b.blocksOf node.ancestors) block := by
          rw [hanc]
          exact fork_newDraws h hsplit (nil_append _).symm (h.single _ _ hs) hacc
        exact ⟨h.setValid hs hnew, hs, by simp [BlockChain.isValid_setValid]⟩
    have hafter := hinv.connectBlock hs₁ hvalid hne
    obtain ⟨hnodes, hstatus⟩ := b₁.connectBlock_frame node block
    rcases hr with hr | hr | hr <;> rw [hr]
    · exact hafter
    · exact hafter.setFlags node BlockChain.valid_setValidateFailed
    · have hstored : (b₁.connectBlock node block).1.nodes.get node.hash = some ⟨node, block⟩ :=
        hnodes ▸ hs₁
      refine hafter.setValid hstored (hafter.fresh _ _ hstored ?_)
      rw [BlockChain.isValid, hstatus]
      exact hvalid

/-- The block of a stored node takes its place in the best chain, or on a side
branch that settles no draw twice. -/
theorem SettleInv.connectBestChain (h : SettleInv genesis b)
    (hs : IsStored b node block) (hne : node.ancestors ≠ [])
    (hnodup : ¬ node.workSum ≤ b.best.tip.workSum → (drawsOf (b.branchBlocks node)).Nodup) :
    SettleInv genesis (b.connectBestChain env node block false).1 := by
  by_cases hprev : block.header.prevBlock = b.best.tip.hash
  · rw [BlockChain.connectBestChain, if_pos hprev]
    -- the parent is the tip
    obtain ⟨p, hp, hanc⟩ := h.tree.linked _ _ hs hne
    obtain ⟨t, ht, htn⟩ := h.tip
    have hp' : b.nodes.get block.header.prevBlock = some p := hp
    obtain rfl := Option.some.inj (hp'.symm.trans (hprev ▸ ht))
    exact h.extendBest hs (htn ▸ hanc)
  · by_cases hwork : node.workSum ≤ b.best.tip.workSum
    · rw [BlockChain.connectBestChain, if_neg hprev, if_pos hwork]
      exact h
    · rw [BlockChain.connectBestChain_reorg env node false hprev hwork]
      exact h.reorganize hs (hnodup hwork)

def BlockChain.attachedBy (b : BlockChain) (block : Block) : List Block :=
  match b.nodes.get block.header.prevBlock with
  | none => []
  | some p =>
      let node := p.node.child (withHeight p.node block)
      if node.workSum ≤ b.best.tip.workSum then []
      else (b.store node (withHeight p.node block)).branchBlocks node

/-- The block is validated, holds at most one result, and no two blocks that
would be attached together settle one draw. -/
structure SettlesApart (b : BlockChain) (a : Arrival) : Prop where
  checked : a.fastAdd = false
  single : (blockResults a.block).length ≤ 1
  distinct : (drawsOf (b.attachedBy a.block)).Nodup

instance decidableSettlesApart (b : BlockChain) (a : Arrival) : Decidable (SettlesApart b a) :=
  decidable_of_iff (a.fastAdd = false ∧ (blockResults a.block).length ≤ 1 ∧
      (drawsOf (b.attachedBy a.block)).Nodup)
    ⟨fun h => ⟨h.1, h.2.1, h.2.2⟩, fun h => ⟨h.checked, h.single, h.distinct⟩⟩

theorem SettleInv.step (h : SettleInv genesis b) {a : Arrival} (hc : SettlesApart b a) :
    SettleInv genesis (b.step env a) := by
  rcases BlockChain.step_cases env b a with hr | ⟨p, hnew, hp, _, hr⟩
  · rw [hr]
    exact h
  · rw [hr, hc.checked]
    have hinv := h.store hnew hp hc.single
    have hs : IsStored (b.store (p.node.child (withHeight p.node a.block))
        (withHeight p.node a.block)) (p.node.child (withHeight p.node a.block))
        (withHeight p.node a.block) := Bucket.get_put_self _ _ _
    refine hinv.connectBestChain hs ?_ fun hwork => ?_
    · simp [BlockNode.child, BlockNode.chain]
    · have hdistinct := hc.distinct
      have hwork' : ¬ (p.node.child (withHeight p.node a.block)).workSum ≤
        b.best.tip.workSum := hwork
      simp only [BlockChain.attachedBy, hp, if_neg hwork'] at hdistinct
      exact hdistinct

theorem settledDraws_nodup : ∀ {is : List HeaderInfo}, SettleInv genesis b →
    StoredChain b.nodes is → (∀ i ∈ is, b.isValid i.hash = true) →
    ((b.blocksOf is).filterMap settledDraw).Nodup
  | [], _, _, _ => nodup_nil
  | i :: is, h, ⟨⟨s, hs, hn⟩, hrest⟩, hvalid => by
      have ih := settledDraws_nodup h hrest fun j hj => hvalid j (mem_cons_of_mem _ hj)
      have hfresh := h.fresh _ _ hs (hvalid i mem_cons_self)
      rw [hn] at hfresh
      rw [blocksOf_cons hs, filterMap_cons]
      cases hD : settledDraw s.block with
      | none => exact ih
      | some D =>
        refine nodup_cons.mpr ⟨fun hmem => ?_, ih⟩
        obtain ⟨block, hblock, hsettled⟩ := mem_filterMap.mp hmem
        obtain ⟨d, hd, rfl⟩ := settledDraw_mem hD
        obtain ⟨d', hd', hsame⟩ := settledDraw_mem hsettled
        exact hfresh d hd ⟨block, hblock, d', hd', hsame⟩

/-- In every run of arrivals that settle apart, every draw is settled by at most
one block of the best chain. -/
theorem draws_settled_once (env : Env) (genesis : HeaderInfo) (as : List Arrival)
    (hc : ArrivalsMeet env SettlesApart (genesisChain genesis) as) :
    ((runArrivals env (genesisChain genesis) as).bestBlocks.filterMap settledDraw).Nodup := by
  have hrun : SettleInv genesis (runArrivals env (genesisChain genesis) as) :=
    runArrivals_induct (fun b a h hc => h.step hc) (settleInv_genesis genesis) hc
  exact settledDraws_nodup hrun hrun.tip_stored hrun.valid

def sideBlock (h : Nat) (prevBlock : Hash) (txs : List Tx) : Block :=
  { hash := BitVec.ofNat 256 (5000 + h)
    header := ⟨4, prevBlock, 1750000000 + 600 * h, 0x1d00ffff⟩
    transactions := txs
    height := h }

/-- Draw 36 is settled at height 37; then a longer branch comes in from height
36 on that settles it at height 38. -/
def resettledArrivals : List Arrival :=
  ((List.range 36).map fun i => ⟨regularBlock (i + 1) [idleCoinbase], false⟩) ++
    [⟨regularBlock 37 [idleCoinbase, resultTx 11 []], false⟩,
      ⟨sideBlock 37 1 [idleCoinbase], false⟩,
      ⟨sideBlock 38 5037 [idleCoinbase, resultTx 11 []], false⟩]

theorem resettled_once :
    ArrivalsMeet youngMainNet SettlesApart (genesisChain (regularInfo 0)) resettledArrivals ∧
      (runArrivals youngMainNet (genesisChain (regularInfo 0)) resettledArrivals).best.tip.hash =
        5038 ∧
      ((runArrivals youngMainNet (genesisChain (regularInfo 0)) resettledArrivals).bestBlocks.filterMap
        settledDraw).Nodup := by
  have hmeets : ArrivalsMeet youngMainNet SettlesApart (genesisChain (regularInfo 0))
      resettledArrivals := by decide +kernel
  exact ⟨hmeets, by decide +kernel, draws_settled_once _ _ _ hmeets⟩

/-- The settlement of draw 108, won by the one FDRW of wallet 1, and its result,
in two copies that differ in the lock time. -/
def jackpotTxs (copy : Nat) : List Tx :=
  [{ hash := BitVec.ofNat 256 (10 + 10 * copy)
     msgTx := { buildPoolDrawSettlementTx 108 ⟨100000000, true, 1⟩ with lockTime := copy } },
    { hash := BitVec.ofNat 256 (11 + 10 * copy)
      msgTx := { buildVDFResultTx ⟨108, 1, 10, 1, 0⟩ with lockTime := copy } }]

/-- One FDRW is staked for draw 108, and the best chain has an idle block on top
of the block of the draw. A side branch settles the draw at height 109 and
again at height 110, where it has more work. -/
def paidTwiceArrivals : List Arrival :=
  ((fundedBlocks ++ lateBlock 102 [idleCoinbase, stakeFrom 0 100000000 108] ::
      idleBlocks 103 7).map fun block => ⟨block, false⟩) ++
    [⟨sideBlock 109 1 (idleCoinbase :: jackpotTxs 0), false⟩,
      ⟨sideBlock 110 5109 (idleCoinbase :: jackpotTxs 1), false⟩]

set_option maxRecDepth 4000 in
/-- Both blocks of the branch are validated against the index of the chain they
replace, where the draw has no record; both are connected, and wallet 1 owns
both prizes. -/
theorem draw_paid_twice :
    let b := runArrivals youngMainNet (genesisChain (lateInfo 0)) paidTwiceArrivals
    ¬ (b.bestBlocks.filterMap settledDraw).Nodup ∧
      b.best.utxos.get ⟨10, 1⟩ = some ⟨100000000, makeWinnerP2WPKHScript 1, 109, false⟩ ∧
      b.best.utxos.get ⟨20, 1⟩ = some ⟨100000000, makeWinnerP2WPKHScript 1, 110, false⟩ := by
  decide +kernel

end FalconDraw.Chain
