/-
FalconDraw.Chain.Run — connecting blocks one after another
(blockchain/accept.go, chain.go).

`ChainState` is what the node keeps of its best chain: the tip, the unspent
outputs and the staking index.
-/
import FalconDraw.Chain.ChainIndex

namespace FalconDraw.Chain

open Lib Wire Draw

/-- The header fields a block node keeps. -/
def headerInfo (block : Block) : HeaderInfo :=
  ⟨block.hash, block.header.version, block.header.timestamp, block.header.bits⟩

structure ChainState where
  tip   : BlockNode
  utxos : UtxoSet
  idx   : StakeIndex

def BlockNode.child (parent : BlockNode) (block : Block) : BlockNode :=
  ⟨headerInfo block, parent.chain⟩

/-- `SetHeight` to the height above this parent. -/
def withHeight (parent : BlockNode) (block : Block) : Block :=
  { block with height := parent.height + 1 }

def countSpentOutputs (block : Block) : Nat :=
  ((block.transactions.tail.filter fun tx => !isVDFResultTx tx).map fun tx =>
    tx.msgTx.txIn.countP fun t => !isPoolDrawSentinelInput t).sum

/-- `connectTransactions` on the UTXO cache and `connectBlock`. -/
def ChainState.connectBlock (s : ChainState) (block : Block) : Check ChainState := do
  let (utxos, stxos) ← UtxoSet.connectTransactions block.height s.utxos block.transactions
  rejectIf (block.header.prevBlock ≠ s.tip.hash) (.assert
    "connectBlock must be called with a block that extends the main chain")
  rejectIf (stxos.length ≠ countSpentOutputs block) (.assert
    "connectBlock called with inconsistent spent transaction out information")
  return { tip := s.tip.child block, utxos := utxos, idx := s.idx.connectBlock block }

/-- A new block on top of the tip: `checkBlockSanity`, `checkConnectBlock`, then
connecting it. -/
def ChainState.extend (env : Env) (s : ChainState) (newBlock : Block) : Check ChainState := do
  let block := withHeight s.tip newBlock
  checkBlockSanity block
  let _ ← checkConnectBlock env s.utxos s.idx (s.tip.child block) block
    (UtxoViewpoint.new s.tip.hash)
  s.connectBlock block

def runBlocks (env : Env) (s : ChainState) (blocks : List Block) : Check ChainState :=
  blocks.foldlM (ChainState.extend env) s

/-- The state after `createChainState`: the outputs of the genesis block are not
in the UTXO set. -/
def genesisState (genesis : HeaderInfo) : ChainState :=
  { tip := ⟨genesis, []⟩, utxos := Bucket.empty, idx := StakeIndex.empty }

/-- The states a node reaches that only connects accepted blocks. -/
def Reachable (env : Env) (genesis : HeaderInfo) (s : ChainState) : Prop :=
  ∃ blocks, runBlocks env (genesisState genesis) blocks = .ok s

/-! ## One step -/

variable {env : Env} {s s' : ChainState} {block : Block}

@[simp] theorem child_height (n : BlockNode) : (n.child block).height = n.height + 1 := by
  simp [BlockNode.child, BlockNode.height, BlockNode.chain]

theorem extend_ok (h : s.extend env block = .ok s') :
    BlockAccepted env s.utxos s.idx (s.tip.child block) (withHeight s.tip block)
        (UtxoViewpoint.new s.tip.hash) ∧
      block.header.prevBlock = s.tip.hash ∧
      s'.tip = s.tip.child block ∧
      s'.idx = s.idx.connectBlock (withHeight s.tip block) ∧
      ∃ stxos, UtxoSet.connectTransactions (s.tip.height + 1) s.utxos block.transactions =
        .ok (s'.utxos, stxos) := by
  simp only [ChainState.extend, ChainState.connectBlock, bind_eq_ok, exists_unit,
    rejectIf_eq_ok, pure_eq_ok, not_not] at h
  obtain ⟨hsane, r, hcheck, ⟨utxos, stxos⟩, hconn, hprev, _, rfl⟩ := h
  exact ⟨⟨hsane, r, hcheck⟩, hprev, rfl, rfl, stxos, hconn⟩

theorem runBlocks_append (a b : List Block) : runBlocks env s (a ++ b) = .ok s' ↔
    ∃ m, runBlocks env s a = .ok m ∧ runBlocks env m b = .ok s' := by
  unfold runBlocks
  rw [List.foldlM_append, bind_eq_ok]

theorem runBlocks_cons {blocks : List Block} : runBlocks env s (block :: blocks) = .ok s' ↔
    ∃ s₁, s.extend env block = .ok s₁ ∧ runBlocks env s₁ blocks = .ok s' := by
  simp only [runBlocks, List.foldlM_cons, bind_eq_ok]

@[elab_as_elim]
theorem runBlocks_induct
    {motive : ∀ s blocks s', runBlocks env s blocks = .ok s' → Prop} (nil : ∀ s, motive s [] s rfl)
    (cons : ∀ s block s₁ blocks s' (hstep : s.extend env block = .ok s₁)
      (hrest : runBlocks env s₁ blocks = .ok s'), motive s₁ blocks s' hrest →
      motive s (block :: blocks) s' (runBlocks_cons.mpr ⟨s₁, hstep, hrest⟩)) :
    ∀ {s blocks s'} (h : runBlocks env s blocks = .ok s'), motive s blocks s' h
  | s, [], s', h => by
      obtain rfl := Except.ok.inj h
      exact nil s
  | s, block :: blocks, s', h => by
      obtain ⟨s₁, hstep, hrest⟩ := runBlocks_cons.mp h
      exact cons s block s₁ blocks s' hstep hrest (runBlocks_induct nil cons hrest)

/-- The invariant rule for runs: what genesis has and every accepted extension
keeps, every reachable state has. -/
theorem Reachable.induct {genesis : HeaderInfo} {P : ChainState → Prop}
    (base : P (genesisState genesis))
    (step : ∀ s block s', Reachable env genesis s → P s → s.extend env block = .ok s' → P s') :
    ∀ {s}, Reachable env genesis s → P s := by
  rintro s ⟨blocks, hrun⟩
  induction blocks using List.reverseRecOn generalizing s with
  | nil =>
    obtain rfl : genesisState genesis = s := by simpa [runBlocks] using hrun
    exact base
  | append_singleton blocks block ih =>
    obtain ⟨m, hm, hlast⟩ := runBlocks_append _ _ |>.mp hrun
    obtain ⟨_, hstep, ⟨⟩⟩ := runBlocks_cons.mp hlast
    exact step m block s ⟨blocks, hm⟩ (ih hm) hstep

end FalconDraw.Chain
