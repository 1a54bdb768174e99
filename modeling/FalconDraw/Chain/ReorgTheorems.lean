/-
FalconDraw.Chain.ReorgTheorems — the block tree, and what each operation of
the node can do.

`BlockTree` says that the stored blocks form a tree over genesis: every node is
kept under its own hash, and its ancestors are the chain of a stored parent.
-/
import FalconDraw.Chain.Reorg

namespace FalconDraw.Chain

open Lib Wire Draw List

/-! ## The tree -/

section Tree

variable {nodes nodes' : Bucket Hash StoredBlock} {genesis : HeaderInfo}

/-- Every node of the chain of headers is stored. -/
def StoredChain (nodes : Bucket Hash StoredBlock) : List HeaderInfo → Prop
  | [] => True
  | i :: is => (∃ s, nodes.get i.hash = some s ∧ s.node = ⟨i, is⟩) ∧ StoredChain nodes is

/-- The stored blocks form a tree over genesis. -/
structure BlockTree (genesis : HeaderInfo) (nodes : Bucket Hash StoredBlock) : Prop where
  keyed : ∀ h s, nodes.get h = some s →
    s.node.hash = h ∧ s.block.hash = h ∧ s.block.height = s.node.height
  stored : ∀ h s, nodes.get h = some s → StoredChain nodes s.node.chain
  rooted : ∀ h s, nodes.get h = some s → s.node.chain.getLast? = some genesis
  linked : ∀ h s, nodes.get h = some s → s.node.ancestors ≠ [] →
    ∃ p, nodes.get s.block.header.prevBlock = some p ∧ s.node.ancestors = p.node.chain

/-- Nothing that was stored is lost or changed. -/
def Grows (nodes nodes' : Bucket Hash StoredBlock) : Prop :=
  ∀ h s, nodes.get h = some s → nodes'.get h = some s

theorem StoredChain.mono (hg : Grows nodes nodes') :
    ∀ {is : List HeaderInfo}, StoredChain nodes is → StoredChain nodes' is
  | [], _ => trivial
  | _ :: _, ⟨⟨s, hs, hn⟩, hrest⟩ => ⟨⟨s, hg _ _ hs, hn⟩, hrest.mono hg⟩

theorem StoredChain.append {pre is : List HeaderInfo} (h : StoredChain nodes (pre ++ is)) :
    StoredChain nodes is := by
  induction pre with
  | nil => exact h
  | cons i pre ih => exact ih h.2

theorem grows_put {h : Hash} {s : StoredBlock} (hnew : nodes.get h = none) :
    Grows nodes (nodes.put h s) := by
  intro h' s' hs'
  have hne : h' ≠ h := by
    grind
  rw [Bucket.get_put_of_ne _ _ hne, hs']

theorem BlockTree.put (ht : BlockTree genesis nodes) {block : Block} {p : StoredBlock}
    (hnew : nodes.get block.hash = none) (hp : nodes.get block.header.prevBlock = some p) :
    BlockTree genesis (nodes.put block.hash
      ⟨p.node.child (withHeight p.node block), withHeight p.node block⟩) := by
  have hg := grows_put (s := ⟨p.node.child (withHeight p.node block), withHeight p.node block⟩) hnew
  have hchain := (ht.stored _ _ hp).mono hg
  refine ⟨?_, ?_, ?_, ?_⟩
  · intro h s hs
    rw [Bucket.get_put] at hs
    split at hs
    case isTrue heq =>
      obtain rfl := Option.some.inj hs
      exact ⟨heq.symm, heq.symm, (child_height _).symm⟩
    case isFalse => exact ht.keyed h s hs
  · intro h s hs
    rw [Bucket.get_put] at hs
    split at hs
    case isTrue heq =>
      obtain rfl := Option.some.inj hs
      refine ⟨⟨_, Bucket.get_put_self _ _ _, rfl⟩, hchain⟩
    case isFalse => exact (ht.stored h s hs).mono hg
  · intro h s hs
    rw [Bucket.get_put] at hs
    split at hs
    case isTrue heq =>
      obtain rfl := Option.some.inj hs
      have hroot := ht.rooted _ _ hp
      rw [BlockNode.chain] at hroot
      simp only [BlockNode.child, BlockNode.chain, getLast?_cons_cons]
      exact hroot
    case isFalse => exact ht.rooted h s hs
  · intro h s hs hanc
    rw [Bucket.get_put] at hs
    split at hs
    case isTrue heq =>
      obtain rfl := Option.some.inj hs
      exact ⟨p, hg _ _ hp, rfl⟩
    case isFalse =>
      obtain ⟨q, hq, hqa⟩ := ht.linked h s hs hanc
      exact ⟨q, hg _ _ hq, hqa⟩

theorem blockTree_genesis (genesis : HeaderInfo) :
    BlockTree genesis (genesisChain genesis).nodes := by
  have honly : ∀ h s, (genesisChain genesis).nodes.get h = some s →
      h = genesis.hash ∧ s = ⟨⟨genesis, []⟩, genesisBlock genesis⟩ := by
    simp [genesisChain, Bucket.get_put]
  refine ⟨?_, ?_, ?_, ?_⟩
  · intro h s hs
    obtain ⟨rfl, rfl⟩ := honly h s hs
    exact ⟨rfl, rfl, rfl⟩
  · intro h s hs
    obtain ⟨rfl, rfl⟩ := honly h s hs
    exact ⟨⟨_, hs, rfl⟩, trivial⟩
  · intro h s hs
    obtain ⟨rfl, rfl⟩ := honly h s hs
    rfl
  · grind

end Tree

/-! ## The blocks of a chain -/

section Blocks

variable {b b' : BlockChain} {genesis : HeaderInfo}

theorem blocksOf_grows (hg : Grows b.nodes b'.nodes) :
    ∀ {is : List HeaderInfo}, StoredChain b.nodes is → b'.blocksOf is = b.blocksOf is
  | [], _ => rfl
  | i :: is, ⟨⟨s, hs, _⟩, hrest⟩ => by
      have ih := blocksOf_grows hg hrest
      simp only [BlockChain.blocksOf] at ih
      simp [BlockChain.blocksOf, hs, hg _ _ hs, ih]

theorem blocksOf_cons {i : HeaderInfo} {is : List HeaderInfo} {s : StoredBlock}
    (hs : b.nodes.get i.hash = some s) : b.blocksOf (i :: is) = s.block :: b.blocksOf is := by
  simp [BlockChain.blocksOf, hs]

theorem blocksOf_append (pre is : List HeaderInfo) :
    b.blocksOf (pre ++ is) = b.blocksOf pre ++ b.blocksOf is := filterMap_append

theorem chainOf_blocksOf (ht : BlockTree genesis b.nodes) :
    ∀ {is : List HeaderInfo}, StoredChain b.nodes is → ChainOf is (b.blocksOf is)
  | [], _ => trivial
  | i :: is, ⟨⟨s, hs, hn⟩, hrest⟩ => by
      rw [blocksOf_cons hs]
      obtain ⟨_, hhash, hheight⟩ := ht.keyed _ _ hs
      refine ⟨hhash, ?_, chainOf_blocksOf ht hrest⟩
      rw [hheight, hn]
      rfl

end Blocks

/-! ## The two sides of a fork -/

section Fork

variable {tip : BlockNode}

def nodesOn (rest : List HeaderInfo) : List HeaderInfo → List BlockNode
  | [] => []
  | i :: pre => ⟨i, pre ++ rest⟩ :: nodesOn rest pre

theorem nodesAbove_append (f : BlockNode) : ∀ pre : List HeaderInfo,
    BlockChain.nodesAbove (some f) (pre ++ f.chain) = nodesOn f.chain pre
  | [] => by simp [BlockNode.chain, BlockChain.nodesAbove, nodesOn]
  | i :: pre => by
      have hne : some (⟨i, pre ++ f.chain⟩ : BlockNode) ≠ some f := by
        intro heq
        have hlen := congrArg (fun n => n.ancestors.length) (Option.some.inj heq)
        simp only [BlockNode.chain, length_append, length_cons] at hlen
        omega
      rw [cons_append, BlockChain.nodesAbove, if_neg hne, nodesAbove_append f pre, nodesOn]

theorem mem_nodesOn {b : BlockChain} {n : BlockNode} {rest : List HeaderInfo} :
    ∀ {pre : List HeaderInfo}, StoredChain b.nodes (pre ++ rest) → n ∈ nodesOn rest pre →
    ∃ p i q block, pre = p ++ i :: q ∧ n = ⟨i, q ++ rest⟩ ∧ b.nodes.get n.hash = some ⟨n, block⟩
  | [], _, hn => by simp [nodesOn] at hn
  | i :: pre, ⟨⟨s, hs, hsn⟩, hrest⟩, hn => by
      rcases mem_cons.mp hn with rfl | hn
      · have hstored : s = ⟨⟨i, pre ++ rest⟩, s.block⟩ := by
          cases s
          simpa using hsn
        exact ⟨[], i, pre, s.block, rfl, rfl, hs.trans (congrArg some hstored)⟩
      · obtain ⟨p, j, q, block, rfl, hq, hget⟩ := mem_nodesOn hrest hn
        exact ⟨i :: p, j, q, block, rfl, hq, hget⟩

theorem ancestor_chain {n : BlockNode} {h : Int} (ha : tip.ancestor h = some n) :
    ∃ pre, tip.chain = pre ++ n.chain := by
  unfold BlockNode.ancestor at ha
  split at ha
  · cases ha
  · refine ⟨tip.chain.take (tip.height - h.toNat), ?_⟩
    cases hd : tip.chain.drop (tip.height - h.toNat) with
    | nil => simp [hd, BlockNode.ofChain] at ha
    | cons i is =>
      simp only [hd, BlockNode.ofChain, Option.some.injEq] at ha
      have hsplit := take_append_drop (tip.height - h.toNat) tip.chain
      rw [hd] at hsplit
      rw [← ha]
      exact hsplit.symm

theorem findFork_some {f : BlockNode} : ∀ {chain : List HeaderInfo},
    BlockChain.findFork tip chain = some f →
    (∃ pre, chain = pre ++ f.chain) ∧ ∃ pre, tip.chain = pre ++ f.chain
  | [], h => by simp [BlockChain.findFork] at h
  | i :: is, h => by
      rw [BlockChain.findFork] at h
      split at h
      case isTrue ha =>
        obtain rfl := Option.some.inj h
        exact ⟨⟨[], rfl⟩, ancestor_chain ha⟩
      case isFalse =>
        obtain ⟨⟨pre, hpre⟩, htip⟩ := findFork_some h
        exact ⟨⟨i :: pre, by rw [hpre, cons_append]⟩, htip⟩

theorem findFork_rooted {genesis : HeaderInfo}
    (htip : tip.chain.getLast? = some genesis) : ∀ {chain : List HeaderInfo},
    chain.getLast? = some genesis → ∃ f, BlockChain.findFork tip chain = some f
  | [], h => by simp at h
  | [i], h => by
      obtain rfl : i = genesis := by simpa using h
      have hroot : tip.ancestor 0 = some ⟨i, []⟩ := by
        obtain ⟨pre, hpre⟩ := getLast?_eq_some_iff.mp htip
        have hheight : tip.height = pre.length := by
          grind [BlockNode.chain, BlockNode.height]
        have hrange : ¬ ((0 : Int) < 0 ∨ (tip.height : Int) < 0) := by omega
        rw [BlockNode.ancestor, if_neg hrange, Int.toNat_zero, Nat.sub_zero, hheight, hpre,
          drop_left]
        rfl
      refine ⟨⟨i, []⟩, ?_⟩
      rw [BlockChain.findFork]
      exact if_pos hroot
  | i :: j :: is, h => by
      rw [BlockChain.findFork]
      split
      · exact ⟨_, rfl⟩
      · exact findFork_rooted htip (by simpa using h)

end Fork

/-! ## What an operation leaves alone -/

namespace BlockChain

variable {env : Env} {b b' : BlockChain} {n : BlockNode} {f : BlockStatus → BlockStatus}
variable {block : Block}

@[simp] theorem setStatusFlags_nodes : (b.setStatusFlags n f).nodes = b.nodes := rfl

@[simp] theorem setStatusFlags_best : (b.setStatusFlags n f).best = b.best := rfl

@[simp] theorem setStatusFlags_journal : (b.setStatusFlags n f).journal = b.journal := rfl

/-- Only statuses differ. -/
def SameBut (b b' : BlockChain) : Prop :=
  b'.nodes = b.nodes ∧ b'.best = b.best ∧ b'.journal = b.journal

theorem SameBut.refl (b : BlockChain) : SameBut b b := ⟨rfl, rfl, rfl⟩

theorem SameBut.trans {b₁ b₂ b₃ : BlockChain} (h : SameBut b₁ b₂) (h' : SameBut b₂ b₃) :
    SameBut b₁ b₃ :=
  ⟨h'.1.trans h.1, h'.2.1.trans h.2.1, h'.2.2.trans h.2.2⟩

theorem sameBut_setStatusFlags (b : BlockChain) (n : BlockNode) (f : BlockStatus → BlockStatus) :
    SameBut b (b.setStatusFlags n f) := ⟨rfl, rfl, rfl⟩

theorem sameBut_setAllStatusFlags (f : BlockStatus → BlockStatus) :
    ∀ (ns : List BlockNode) (b : BlockChain), SameBut b (b.setAllStatusFlags ns f)
  | [], b => SameBut.refl b
  | n :: ns, b => (sameBut_setStatusFlags b n f).trans (sameBut_setAllStatusFlags f ns _)

@[simp] theorem valid_setValidateFailed (s : BlockStatus) :
    s.setValidateFailed.valid = s.valid := rfl

@[simp] theorem valid_setInvalidAncestor (s : BlockStatus) :
    s.setInvalidAncestor.valid = s.valid := rfl

/-- The `valid` flag stored under a hash. -/
def isValid (b : BlockChain) (h : Hash) : Bool := ((b.status.get h).getD {}).valid

theorem nodeStatus_valid (b : BlockChain) (n : BlockNode) :
    (b.nodeStatus n).knownValid = b.isValid n.hash := rfl

theorem isValid_setStatusFlags (hf : ∀ s, (f s).valid = s.valid) (b : BlockChain) (n : BlockNode)
    (h : Hash) : (b.setStatusFlags n f).isValid h = b.isValid h := by
  unfold isValid setStatusFlags
  rw [Bucket.get_put]
  split
  case isTrue heq =>
    rw [heq, Option.getD_some, hf]
    rfl
  case isFalse => rfl

theorem isValid_setAllStatusFlags (hf : ∀ s, (f s).valid = s.valid) (h : Hash) :
    ∀ (ns : List BlockNode) (b : BlockChain), (b.setAllStatusFlags ns f).isValid h = b.isValid h
  | [], _ => rfl
  | n :: ns, b => by
      have hrest := isValid_setAllStatusFlags hf h ns (b.setStatusFlags n f)
      rw [isValid_setStatusFlags hf] at hrest
      exact hrest

theorem isValid_setValid (b : BlockChain) (n : BlockNode) (h : Hash) :
    (b.setStatusFlags n .setValid).isValid h = (decide (h = n.hash) || b.isValid h) := by
  grind [isValid, setStatusFlags, Bucket.get_put, BlockStatus.setValid]

theorem connectBlock_cases (b : BlockChain) (n : BlockNode) (block : Block) :
    (∃ utxos e, b.connectBlock n block =
      ({ b with best := { b.best with utxos := utxos } }, .error e)) ∨
    ∃ utxos stxos, UtxoSet.connectTransactions block.height b.best.utxos block.transactions =
        .ok (utxos, stxos) ∧
      block.header.prevBlock = b.best.tip.hash ∧ stxos.length = countSpentOutputs block ∧
      b.connectBlock n block = ({ b with
            best := { tip := n, utxos := utxos, idx := b.best.idx.connectBlock block }
            journal := b.journal.put block.hash stxos }, .ok ()) := by
  unfold connectBlock
  cases hc : UtxoSet.connectTransactions block.height b.best.utxos block.transactions with
  | error e => exact Or.inl ⟨_, _, rfl⟩
  | ok r => grind

theorem connectBlock_frame (b : BlockChain) (n : BlockNode) (block : Block) :
    (b.connectBlock n block).1.nodes = b.nodes ∧ (b.connectBlock n block).1.status = b.status := by
  rcases b.connectBlock_cases n block with ⟨_, _, hc⟩ | ⟨_, _, _, _, _, hc⟩ <;> rw [hc] <;>
    exact ⟨rfl, rfl⟩

theorem disconnectBlock_ok {view : UtxoViewpoint} (h : b.disconnectBlock n block view = .ok b') :
    n.hash = b.best.tip.hash ∧ ∃ prevNode, n.parent = some prevNode ∧ b' = { b with
        best := { tip := prevNode, utxos := b.best.utxos.putView view
                  idx := b.best.idx.disconnectBlock block }
        journal := b.journal.delete block.hash } := by
  grind [disconnectBlock, bind_eq_ok, exists_unit, rejectIf_eq_ok, pure_eq_ok]

theorem fetchBlockByNode_ok (h : b.fetchBlockByNode n = .ok block) :
    ∃ s, b.nodes.get n.hash = some s ∧ s.block = block := by
  grind [fetchBlockByNode]

theorem checkDetach_blocks : ∀ {ns : List BlockNode} {view view' : UtxoViewpoint}
    {ds : List (BlockNode × Block × List SpentTxOut)}, b.checkDetach view ns = .ok (view', ds) →
    ds.map Prod.fst = ns ∧ ∀ d ∈ ds, ∃ s, b.nodes.get d.1.hash = some s ∧ s.block = d.2.1
  | [], _, _, ds, h => by
      simp only [checkDetach, Except.ok.injEq, Prod.mk.injEq] at h
      rw [← h.2]
      simp
  | n :: ns, view, view', ds, h => by
      simp only [checkDetach, bind_eq_ok, exists_unit, pure_eq_ok, Prod.mk.injEq] at h
      obtain ⟨block, hblock, _, stxos, _, view₁, _, ⟨v, rest⟩, hrest, _, rfl⟩ := h
      obtain ⟨hmap, hall⟩ := checkDetach_blocks hrest
      refine ⟨by rw [map_cons, hmap], ?_⟩
      intro d hd
      rcases mem_cons.mp hd with rfl | hd
      · exact fetchBlockByNode_ok hblock
      · exact hall d hd

theorem checkAttachAll_cons (env : Env) (b : BlockChain) (view : UtxoViewpoint) (n : BlockNode)
    (ns : List BlockNode) :
    (∃ e, checkAttachAll env b view (n :: ns) = (b, .error e)) ∨
    (∃ e, checkAttachAll env b view (n :: ns) =
      ((b.setStatusFlags n .setValidateFailed).setAllStatusFlags ns .setInvalidAncestor,
        .error e)) ∨
    ∃ block view', b.fetchBlockByNode n = .ok block ∧ b.checkAttach env view n block = .ok view' ∧
      (checkAttachAll env b view (n :: ns)).1 =
        (checkAttachAll env (b.setStatusFlags n .setValid) view' ns).1 ∧
      ∀ as, (checkAttachAll env b view (n :: ns)).2 = .ok as → ∃ rest, as = (n, block) :: rest ∧
          (checkAttachAll env (b.setStatusFlags n .setValid) view' ns).2 = .ok rest := by
  rw [checkAttachAll]
  cases hblock : b.fetchBlockByNode n with
  | error e => exact Or.inl ⟨e, rfl⟩
  | ok block =>
    simp only
    cases hcheck : b.checkAttach env view n block with
    | error e =>
      cases e with
      | assert msg => exact Or.inl ⟨_, rfl⟩
      | rule code msg => exact Or.inr (Or.inl ⟨_, rfl⟩)
    | ok view' => grind

/-- The attach loop of the verification changes statuses only, and never takes
a `valid` flag back. -/
theorem checkAttachAll_frame : ∀ {ns : List BlockNode} {b : BlockChain} {view : UtxoViewpoint},
    SameBut b (checkAttachAll env b view ns).1 ∧
      ∀ h, b.isValid h = true → (checkAttachAll env b view ns).1.isValid h = true
  | [], b, view => ⟨SameBut.refl b, fun _ hv => hv⟩
  | n :: ns, b, view => by
      rcases checkAttachAll_cons env b view n ns with ⟨e, hr⟩ | ⟨e, hr⟩ | ⟨_, view', _, _, hr, _⟩
      · rw [hr]
        exact ⟨SameBut.refl b, fun _ hv => hv⟩
      · rw [hr]
        refine ⟨(sameBut_setStatusFlags b n _).trans (sameBut_setAllStatusFlags _ ns _), ?_⟩
        intro h hv
        show ((b.setStatusFlags n _).setAllStatusFlags ns _).isValid h = true
        rw [isValid_setAllStatusFlags valid_setInvalidAncestor,
          isValid_setStatusFlags valid_setValidateFailed, hv]
      · rw [hr]
        have hrest : SameBut (b.setStatusFlags n .setValid)
            (checkAttachAll env (b.setStatusFlags n .setValid) view' ns).1 ∧ _ :=
          checkAttachAll_frame
        refine ⟨(sameBut_setStatusFlags b n _).trans hrest.1, fun h hv => hrest.2 h ?_⟩
        rw [isValid_setValid, hv, Bool.or_true]

theorem verify_cases (env : Env) (b : BlockChain) (detach attach : List BlockNode) :
    (∃ e, b.verifyReorganizationValidity env detach attach = (b, .error e)) ∨
    ∃ view ds, b.checkDetach (UtxoViewpoint.new b.best.tip.hash) detach = .ok (view, ds) ∧
      (b.verifyReorganizationValidity env detach attach).1 = (checkAttachAll env b view attach).1 ∧
      ∀ r, (b.verifyReorganizationValidity env detach attach).2 = .ok r →
        r.1 = ds ∧ (checkAttachAll env b view attach).2 = .ok r.2 := by
  unfold verifyReorganizationValidity
  split
  · exact Or.inl ⟨_, rfl⟩
  · split
    · exact Or.inl ⟨_, rfl⟩
    · cases hd : b.checkDetach (UtxoViewpoint.new b.best.tip.hash) detach with
      | error e => exact Or.inl ⟨e, rfl⟩
      | ok r => grind

/-! ### The index -/

def blocksAt (b : BlockChain) (ns : List BlockNode) : List Block :=
  ns.filterMap fun n => (b.nodes.get n.hash).map StoredBlock.block

/-- The blocks on the way to a node that are not on the best chain, the node's
own block first. -/
def branchBlocks (b : BlockChain) (node : BlockNode) : List Block :=
  b.blocksAt (nodesAbove (findFork b.best.tip node.chain) node.chain)

/-- The blocks of the best chain that are not on the way to a node, tip first. -/
def staleBlocks (b : BlockChain) (node : BlockNode) : List Block :=
  b.blocksAt (nodesAbove (findFork b.best.tip node.chain) b.best.tip.chain)

theorem blocksAt_cons {ns : List BlockNode} {s : StoredBlock} (h : b.nodes.get n.hash = some s) :
    b.blocksAt (n :: ns) = s.block :: b.blocksAt ns := by
  simp [blocksAt, h]

theorem checkDetach_blocksAt : ∀ {ns : List BlockNode} {view view' : UtxoViewpoint}
    {ds : List (BlockNode × Block × List SpentTxOut)},
    b.checkDetach view ns = .ok (view', ds) → ds.map (fun d => d.2.1) = b.blocksAt ns
  | [], _, _, ds, h => by
      simp only [checkDetach, Except.ok.injEq, Prod.mk.injEq] at h
      rw [← h.2]
      rfl
  | n :: ns, view, view', ds, h => by
      simp only [checkDetach, bind_eq_ok, exists_unit, pure_eq_ok, Prod.mk.injEq] at h
      obtain ⟨block, hblock, _, stxos, _, view₁, _, ⟨v, rest⟩, hrest, _, rfl⟩ := h
      obtain ⟨s, hs, rfl⟩ := fetchBlockByNode_ok hblock
      rw [map_cons, checkDetach_blocksAt hrest, blocksAt_cons hs]

theorem checkAttachAll_blocksAt : ∀ {ns : List BlockNode} {b : BlockChain} {view : UtxoViewpoint}
    {as : List (BlockNode × Block)}, (checkAttachAll env b view ns).2 = .ok as →
    as.map Prod.snd = b.blocksAt ns
  | [], b, view, as, h => by
      obtain rfl : [] = as := by simpa [checkAttachAll] using h
      rfl
  | n :: ns, b, view, as, h => by
      rcases checkAttachAll_cons env b view n ns with
        ⟨e, hr⟩ | ⟨e, hr⟩ | ⟨block, view', hblock, _, _, hok⟩
      · simp [hr] at h
      · simp [hr] at h
      · obtain ⟨rest, rfl, hrest⟩ := hok as h
        obtain ⟨s, hs, rfl⟩ := fetchBlockByNode_ok hblock
        have ih := checkAttachAll_blocksAt hrest
        rw [map_cons, ih, blocksAt_cons hs]
        rfl

theorem detachAll_index : ∀ (ds : List (BlockNode × Block × List SpentTxOut)) (b : BlockChain)
    (view : UtxoViewpoint), ∃ done, done <+: ds.map (fun d => d.2.1) ∧
      (b.detachAll view ds).1.best.idx = done.foldl StakeIndex.disconnectBlock b.best.idx
  | [], b, _ => ⟨[], nil_prefix, rfl⟩
  | (n, block, stxos) :: ds, b, view => by
      rw [detachAll]
      cases UtxoViewpoint.disconnectTransactions _ _ block stxos with
      | error e => exact ⟨[], nil_prefix, rfl⟩
      | ok view' =>
        simp only
        cases hd : b.disconnectBlock n block view' with
        | error e => exact ⟨[], nil_prefix, rfl⟩
        | ok b' =>
          obtain ⟨done, hpre, hidx⟩ := detachAll_index ds b' view'.commit
          obtain ⟨_, _, _, rfl⟩ := disconnectBlock_ok hd
          exact ⟨block :: done, cons_prefix_cons.mpr ⟨rfl, hpre⟩, hidx⟩

theorem attachAll_index : ∀ (as : List (BlockNode × Block)) (b : BlockChain),
    ∃ done, done <+: as.map Prod.snd ∧
      (b.attachAll as).1.best.idx = done.foldl StakeIndex.connectBlock b.best.idx
  | [], b => ⟨[], nil_prefix, rfl⟩
  | (n, block) :: as, b => by
      rcases b.connectBlock_cases n block with ⟨_, _, hc⟩ | ⟨_, _, _, _, _, hc⟩
      · refine ⟨[], nil_prefix, ?_⟩
        rw [attachAll, hc]
        rfl
      · rw [attachAll, hc]
        obtain ⟨done, hpre, hidx⟩ := attachAll_index as (b.connectBlock n block).1
        rw [hc] at hidx
        exact ⟨block :: done, cons_prefix_cons.mpr ⟨rfl, hpre⟩, hidx⟩

theorem reorganizeChain_index (env : Env) (b : BlockChain) (detach attach : List BlockNode) :
    ∃ offs ons, offs <+: b.blocksAt detach ∧ ons <+: b.blocksAt attach ∧
      (b.reorganizeChain env detach attach).1.best.idx =
        ons.foldl StakeIndex.connectBlock (offs.foldl StakeIndex.disconnectBlock b.best.idx) := by
  unfold reorganizeChain
  rcases verify_cases env b detach attach with ⟨e, hv⟩ | ⟨view, ds, hd, hv₁, hv₂⟩
  · rw [hv]
    exact ⟨[], [], nil_prefix, nil_prefix, rfl⟩
  · obtain ⟨hsame, _⟩ : SameBut b (checkAttachAll env b view attach).1 ∧ _ := checkAttachAll_frame
    rw [← hv₁] at hsame
    revert hsame hv₂
    rcases b.verifyReorganizationValidity env detach attach with ⟨b₁, r⟩
    intro hv₂ hsame
    have hbest : b₁.best = b.best := hsame.2.1
    cases r with
    | error e =>
      refine ⟨[], [], nil_prefix, nil_prefix, ?_⟩
      show b₁.best.idx = b.best.idx
      rw [hbest]
    | ok r =>
      obtain ⟨ds', as⟩ := r
      obtain ⟨rfl, has⟩ := hv₂ _ rfl
      rw [← checkDetach_blocksAt hd, ← checkAttachAll_blocksAt has, ← hbest]
      simp only
      obtain ⟨offs, hoffs, hidx⟩ := detachAll_index ds' b₁ (UtxoViewpoint.new b₁.best.tip.hash)
      revert hidx
      rcases b₁.detachAll (UtxoViewpoint.new b₁.best.tip.hash) ds' with ⟨b₂, r₂⟩
      intro hidx
      cases r₂ with
      | error e => exact ⟨offs, [], hoffs, nil_prefix, hidx⟩
      | ok u =>
        obtain ⟨ons, hons, hidx'⟩ := attachAll_index as b₂
        have hidx₂ : b₂.best.idx = _ := hidx
        exact ⟨offs, ons, hoffs, hons, by rw [← hidx₂]; exact hidx'⟩

/-- The blocks an arrival can connect, in order: the arriving block on top of
the tip, or the branch it completes. -/
def connectedBy (b : BlockChain) (block : Block) : List Block :=
  match b.nodes.get block.header.prevBlock with
  | none => []
  | some p =>
      let node := p.node.child (withHeight p.node block)
      if block.header.prevBlock = b.best.tip.hash then [withHeight p.node block]
      else if node.workSum ≤ b.best.tip.workSum then []
      else ((b.store node (withHeight p.node block)).branchBlocks node).reverse

def disconnectedBy (b : BlockChain) (block : Block) : List Block :=
  match b.nodes.get block.header.prevBlock with
  | none => []
  | some p =>
      let node := p.node.child (withHeight p.node block)
      if block.header.prevBlock = b.best.tip.hash then []
      else if node.workSum ≤ b.best.tip.workSum then []
      else (b.store node (withHeight p.node block)).staleBlocks node

/-- What a block on top of the tip can do: nothing but a failure mark, or, when
it is validated or need not be, connecting and a mark. -/
theorem extendBest_cases (env : Env) (b : BlockChain) (node : BlockNode) (block : Block)
    (fastAdd : Bool) :
    ((b.extendBest env node block fastAdd).1 = b ∨
      (b.extendBest env node block fastAdd).1 = b.setStatusFlags node .setValidateFailed) ∨
    ∃ b₁, (b₁ = b ∧ (fastAdd = true ∨ b.isValid node.hash = true) ∨
        b₁ = b.setStatusFlags node .setValid ∧
          Accepts (checkConnectBlock env b.best.utxos b.best.idx node block
            (UtxoViewpoint.new block.header.prevBlock))) ∧
      ((b.extendBest env node block fastAdd).1 = (b₁.connectBlock node block).1 ∨
        (b.extendBest env node block fastAdd).1 =
          (b₁.connectBlock node block).1.setStatusFlags node .setValidateFailed ∨
        (b.extendBest env node block fastAdd).1 =
          (b₁.connectBlock node block).1.setStatusFlags node .setValid) := by
  unfold extendBest
  simp only
  split
  case isTrue hskip => grind [nodeStatus_valid]
  case isFalse =>
    split
    case h_1 r hcheck =>
      refine Or.inr ⟨_, Or.inr ⟨rfl, _, hcheck⟩, ?_⟩
      split
      case h_1 b' hc => exact Or.inr (Or.inr (by rw [hc]))
      case h_2 b' code msg hc => exact Or.inr (Or.inl (by rw [hc]))
      case h_3 b' msg hc => exact Or.inl (by rw [hc])
    case h_2 => exact Or.inl (Or.inr rfl)
    case h_3 => exact Or.inl (Or.inl rfl)

theorem extendBest_index (env : Env) (b : BlockChain) (node : BlockNode) (block : Block)
    (fastAdd : Bool) : (b.extendBest env node block fastAdd).1.best.idx = b.best.idx ∨
      (b.extendBest env node block fastAdd).1.best.idx = b.best.idx.connectBlock block := by
  rcases extendBest_cases env b node block fastAdd with (h | h) | ⟨b₁, hb₁, h⟩
  · exact Or.inl (congrArg (fun c => c.best.idx) h)
  · exact Or.inl (congrArg (fun c => c.best.idx) h)
  · have hsame : (b.extendBest env node block fastAdd).1.best.idx =
        (b₁.connectBlock node block).1.best.idx := by
      rcases h with h | h | h <;> exact congrArg (fun c => c.best.idx) h
    have hbest : b₁.best = b.best := by
      rcases hb₁ with ⟨rfl, _⟩ | ⟨rfl, _⟩ <;> rfl
    rw [hsame, ← hbest]
    rcases b₁.connectBlock_cases node block with ⟨_, _, hc⟩ | ⟨_, _, _, _, _, hc⟩ <;> rw [hc]
    · exact Or.inl rfl
    · exact Or.inr rfl

/-- The nodes to take off and to add are those of the two sides of the fork, or
there are none. -/
theorem getReorganizeNodes_cases (b : BlockChain) (node : BlockNode) :
    SameBut b (b.getReorganizeNodes node).1 ∧ ((b.getReorganizeNodes node).2 = ([], []) ∨
      (b.getReorganizeNodes node).2 = (nodesAbove (findFork b.best.tip node.chain) b.best.tip.chain,
          (nodesAbove (findFork b.best.tip node.chain) node.chain).reverse)) := by
  unfold getReorganizeNodes
  split
  · exact ⟨sameBut_setStatusFlags b node _, Or.inl rfl⟩
  · simp only
    split
    · exact ⟨sameBut_setAllStatusFlags _ _ b, Or.inl rfl⟩
    · exact ⟨SameBut.refl b, Or.inr rfl⟩

theorem connectBestChain_reorg (env : Env) (node : BlockNode) (fastAdd : Bool)
    (hprev : block.header.prevBlock ≠ b.best.tip.hash)
    (hwork : ¬ node.workSum ≤ b.best.tip.workSum) :
    (b.connectBestChain env node block fastAdd).1 =
      ((b.getReorganizeNodes node).1.reorganizeChain env (b.getReorganizeNodes node).2.1
        (b.getReorganizeNodes node).2.2).1 := by
  grind [connectBestChain]

/-- A reorganization takes off blocks of the best chain and adds blocks of the
branch. -/
theorem connectBestChain_index (env : Env) (b : BlockChain) (node : BlockNode) (block : Block)
    (fastAdd : Bool) (hprev : block.header.prevBlock ≠ b.best.tip.hash)
    (hwork : ¬ node.workSum ≤ b.best.tip.workSum) :
    ∃ offs ons, offs <+: b.staleBlocks node ∧ ons <+: (b.branchBlocks node).reverse ∧
      (b.connectBestChain env node block fastAdd).1.best.idx =
        ons.foldl StakeIndex.connectBlock (offs.foldl StakeIndex.disconnectBlock b.best.idx) := by
  rw [connectBestChain_reorg env node fastAdd hprev hwork]
  obtain ⟨⟨hnodes, hbest, _⟩, hlists⟩ := b.getReorganizeNodes_cases node
  obtain ⟨offs, ons, hoffs, hons, hidx⟩ := reorganizeChain_index env (b.getReorganizeNodes node).1
    (b.getReorganizeNodes node).2.1 (b.getReorganizeNodes node).2.2
  have hblocks : ∀ ns, (b.getReorganizeNodes node).1.blocksAt ns = b.blocksAt ns := fun ns => by
    rw [blocksAt, blocksAt, hnodes]
  rw [hblocks] at hoffs hons
  rw [hbest] at hidx
  refine ⟨offs, ons, ?_, ?_, hidx⟩
  · rcases hlists with h | h <;> rw [h] at hoffs
    · exact hoffs.trans nil_prefix
    · exact hoffs
  · rcases hlists with h | h <;> rw [h] at hons
    · exact hons.trans nil_prefix
    · rwa [branchBlocks, blocksAt, ← filterMap_reverse]

theorem step_cases (env : Env) (b : BlockChain) (a : Arrival) :
    b.step env a = b ∨
    ∃ p, b.nodes.get a.block.hash = none ∧ b.nodes.get a.block.header.prevBlock = some p ∧
      checkBlockSanity a.block = .ok () ∧
      b.step env a = ((b.store (p.node.child (withHeight p.node a.block))
        (withHeight p.node a.block)).connectBestChain env
          (p.node.child (withHeight p.node a.block)) (withHeight p.node a.block) a.fastAdd).1 := by
  unfold step processBlock
  split
  · exact Or.inl rfl
  case isFalse hnew =>
    cases hsane : checkBlockSanity a.block with
    | error e => exact Or.inl rfl
    | ok u =>
      cases hp : b.nodes.get a.block.header.prevBlock with
      | none => exact Or.inl rfl
      | some p =>
        simp only [acceptOn]
        split
        · exact Or.inl rfl
        · exact Or.inr ⟨p, by simpa using hnew, rfl, trivial, rfl⟩

/-- What an arrival does to the index: it takes off some of the blocks it can
disconnect and adds some of those it can connect, in their order. -/
theorem step_index (env : Env) (b : BlockChain) (a : Arrival) :
    ∃ offs ons, offs <+: b.disconnectedBy a.block ∧ ons <+: b.connectedBy a.block ∧
      (b.step env a).best.idx =
        ons.foldl StakeIndex.connectBlock (offs.foldl StakeIndex.disconnectBlock b.best.idx) := by
  have hnothing : ∀ idx, idx = b.best.idx → ∃ offs ons, offs <+: b.disconnectedBy a.block ∧
      ons <+: b.connectedBy a.block ∧ idx =
        ons.foldl StakeIndex.connectBlock (offs.foldl StakeIndex.disconnectBlock b.best.idx) :=
    fun idx h => ⟨[], [], nil_prefix, nil_prefix, h⟩
  rcases step_cases env b a with h | ⟨p, _, hp, _, h⟩
  · exact hnothing _ (congrArg (fun c => c.best.idx) h)
  · rw [h]
    set node := p.node.child (withHeight p.node a.block)
    by_cases hprev : a.block.header.prevBlock = b.best.tip.hash
    · have hext : (b.store node (withHeight p.node a.block)).connectBestChain env node
          (withHeight p.node a.block) a.fastAdd = _ := if_pos hprev
      rw [hext]
      rcases extendBest_index env (b.store node (withHeight p.node a.block)) node
        (withHeight p.node a.block) a.fastAdd with h | h
      · exact hnothing _ h
      · refine ⟨[], [withHeight p.node a.block], nil_prefix, ?_, h⟩
        simp only [connectedBy, hp, if_pos hprev]
        exact prefix_rfl
    · by_cases hwork : node.workSum ≤ b.best.tip.workSum
      · have hside : (b.store node (withHeight p.node a.block)).connectBestChain env node
            (withHeight p.node a.block) a.fastAdd = _ := (if_neg hprev).trans (if_pos hwork)
        rw [hside]
        exact hnothing _ rfl
      · obtain ⟨offs, ons, hoffs, hons, hidx⟩ := connectBestChain_index env
          (b.store node (withHeight p.node a.block)) node (withHeight p.node a.block) a.fastAdd
          hprev hwork
        refine ⟨offs, ons, ?_, ?_, hidx⟩
        · simp only [disconnectedBy, hp, if_neg hprev]
          rw [if_neg hwork]
          exact hoffs
        · simp only [connectedBy, hp, if_neg hprev]
          rw [if_neg hwork]
          exact hons

end BlockChain

/-! ## Runs of arrivals -/

/-- Every arrival meets the condition in the state it meets. -/
def ArrivalsMeet (env : Env) (cond : BlockChain → Arrival → Prop) :
    BlockChain → List Arrival → Prop
  | _, [] => True
  | b, a :: as => cond b a ∧ ArrivalsMeet env cond (b.step env a) as

instance decidableArrivalsMeet {env : Env} {cond : BlockChain → Arrival → Prop}
    [∀ b a, Decidable (cond b a)] :
    ∀ (as : List Arrival) (b : BlockChain), Decidable (ArrivalsMeet env cond b as)
  | [], _ => inferInstanceAs (Decidable True)
  | a :: as, b =>
      have : Decidable (ArrivalsMeet env cond (b.step env a) as) := decidableArrivalsMeet as _
      inferInstanceAs (Decidable (_ ∧ _))

/-- The invariant rule: what every arrival that meets the condition keeps, the
run keeps. -/
theorem runArrivals_induct {env : Env} {cond : BlockChain → Arrival → Prop}
    {P : BlockChain → Prop} (step : ∀ b a, P b → cond b a → P (b.step env a)) :
    ∀ {as : List Arrival} {b : BlockChain}, P b → ArrivalsMeet env cond b as →
      P (runArrivals env b as)
  | [], _, hb, _ => hb
  | a :: as, b, hb, ⟨hcond, hrest⟩ => by
      have hcons : runArrivals env b (a :: as) = runArrivals env (b.step env a) as := rfl
      rw [hcons]
      exact runArrivals_induct step (step b a hb hcond) hrest

end FalconDraw.Chain
