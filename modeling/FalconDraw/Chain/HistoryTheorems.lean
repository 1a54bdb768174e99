/-
FalconDraw.Chain.HistoryTheorems — do reorganizations leave a trace in the coins?

Blocks are connected and the newest ones detached again, in any order. The set is
always the one a node has that only ever connected the blocks that are left.
-/
import FalconDraw.Chain.DisconnectTheorems

namespace FalconDraw.Chain

open Lib Wire Draw List

variable {env : Env} {journal : List (Block × List SpentTxOut)} {utxos : UtxoSet}

/-- The best chain, and its blocks with the outputs they spent, tip first. -/
structure Branch where
  best    : ChainState
  journal : List (Block × List SpentTxOut)

namespace Branch

def start (genesis : HeaderInfo) : Branch := ⟨genesisState genesis, []⟩

def connect (env : Env) (b : Branch) (block : Block) : Check Branch := do
  let best ← b.best.extend env block
  let (_, stxos) ← UtxoSet.connectTransactions (b.best.tip.height + 1) b.best.utxos
    block.transactions
  return ⟨best, (withHeight b.best.tip block, stxos) :: b.journal⟩

/-- The detach loop of `reorganizeChain`, on this many blocks. -/
def detach (b : Branch) (n : Nat) : Check Branch := do
  let gone := b.journal.take n
  let (utxos, _) ← UtxoSet.disconnectAll b.best.utxos (UtxoViewpoint.new b.best.tip.hash) gone
  let tip := (b.best.tip.ancestor (b.best.tip.height - gone.length)).getD b.best.tip
  let idx := gone.foldl (fun idx e => idx.disconnectBlock e.1) b.best.idx
  return ⟨⟨tip, utxos, idx⟩, b.journal.drop n⟩

/-- The branches reached from genesis by blocks that are accepted, with the check
for overwrites, and by detaching. -/
inductive Reached (env : Env) (genesis : HeaderInfo) : Branch → Prop
  | start : Reached env genesis (start genesis)
  | connect {b b' : Branch} {block : Block} (h : Reached env genesis b)
      (checked : bip0030CheckNeeded (b.best.tip.child block) env.params = true)
      (hstep : b.connect env block = .ok b') : Reached env genesis b'
  | detach {b b' : Branch} {n : Nat} (h : Reached env genesis b) (hstep : b.detach n = .ok b') :
      Reached env genesis b'

end Branch

/-- The coins of a node that connects these blocks to the empty set. -/
def replayCoins (blocks : List Block) : Check UtxoSet :=
  blocks.foldlM (fun utxos block =>
    (UtxoSet.connectTransactions block.height utxos block.transactions).map Prod.fst) Bucket.empty

/-- The set is what the blocks of the journal make of the empty one, and they can
be taken off it. -/
inductive Replays : List (Block × List SpentTxOut) → UtxoSet → Prop
  | nil : Replays [] Bucket.empty
  | cons {block : Block} {stxos : List SpentTxOut} {journal : List (Block × List SpentTxOut)}
      {utxos utxos' : UtxoSet} (h : Replays journal utxos) (sane : SaneBlock block)
      (fresh : NoOverwrite block.height utxos block.transactions) (height : block.height ≠ 0)
      (made : UtxoSet.connectTransactions block.height utxos block.transactions =
        .ok (utxos', stxos)) : Replays ((block, stxos) :: journal) utxos'

namespace Replays

theorem coins (h : Replays journal utxos) : ∀ op c, utxos.get op = some c → c.blockHeight ≠ 0 := by
  induction h with
  | nil => exact fun _ _ hc => nomatch hc
  | cons _ _ _ height made ih =>
    intro op c hc
    rcases UtxoSet.source_of_connectTransactions made hc with ⟨tx, _, hmade⟩ | ⟨hold, _⟩
    · rwa [outputCoin_height hmade]
    · exact ih op c hold

theorem replayCoins_eq (h : Replays journal utxos) :
    replayCoins (journal.map Prod.fst).reverse = .ok utxos := by
  induction h with
  | nil => rfl
  | cons _ _ _ _ made ih =>
    rw [replayCoins] at ih
    rw [replayCoins, map_cons, reverse_cons, foldlM_append, ih]
    simp [made, Except.map, bind, Except.bind, pure, Except.pure]

theorem disconnectAll (h : Replays journal utxos) : ∀ (n : Nat) (view : UtxoViewpoint),
    view.Holds (InSet utxos) → ∃ utxos' view',
      UtxoSet.disconnectAll utxos view (journal.take n) = .ok (utxos', view') ∧
      Replays (journal.drop n) utxos' := by
  induction h with
  | nil =>
    intro n view _
    rw [take_nil, drop_nil]
    exact ⟨Bucket.empty, view, rfl, .nil⟩
  | cons h sane fresh height made ih =>
    intro n view hview
    cases n with
    | zero => exact ⟨_, view, rfl, .cons h sane fresh height made⟩
    | succ n =>
      obtain ⟨view₁, hdisc, rfl, hcommit⟩ := disconnect_block sane h.coins made fresh height hview
      obtain ⟨utxos', view', hrest, hleft⟩ := ih n view₁.commit hcommit
      refine ⟨utxos', view', ?_, hleft⟩
      rw [take_succ_cons, UtxoSet.disconnectAll, hdisc]
      exact hrest

end Replays

namespace Branch

variable {b b' : Branch} {block : Block}

theorem replays_connect (h : Replays b.journal b.best.utxos)
    (checked : bip0030CheckNeeded (b.best.tip.child block) env.params = true)
    (hstep : b.connect env block = .ok b') : Replays b'.journal b'.best.utxos := by
  simp only [connect, bind_eq_ok, pure_eq_ok] at hstep
  obtain ⟨best, hext, ⟨utxos, stxos⟩, hconn, rfl⟩ := hstep
  obtain ⟨hacc, _, _, _, stxos', hconn'⟩ := extend_ok hext
  obtain ⟨rfl, rfl⟩ : utxos = best.utxos ∧ stxos = stxos' := by simpa using hconn.symm.trans hconn'
  exact .cons h (saneBlock_of_check hacc.1) (noOverwrite_of_checked hacc checked)
    (Nat.succ_ne_zero _) hconn

theorem replays_detach (h : Replays b.journal b.best.utxos) (n : Nat) :
    ∃ b', b.detach n = .ok b' ∧ Replays b'.journal b'.best.utxos := by
  obtain ⟨utxos, view, hdisc, hleft⟩ := h.disconnectAll n
    (UtxoViewpoint.new b.best.tip.hash) fun _ _ hx => nomatch hx
  rw [detach, hdisc]
  exact ⟨_, rfl, hleft⟩

theorem Reached.replays {genesis : HeaderInfo} (h : Reached env genesis b) :
    Replays b.journal b.best.utxos := by
  induction h with
  | start => exact .nil
  | connect _ checked hstep ih => exact replays_connect ih checked hstep
  | @detach _ _ n _ hstep ih =>
    obtain ⟨b₁, hdetach, hb₁⟩ := replays_detach ih n
    exact Except.ok.inj (hdetach.symm.trans hstep) ▸ hb₁

end Branch

/-- However a node came to its best chain, its coins are those of a node that only
connected the blocks of that chain; and any number of them can be taken off. -/
theorem reorganizations_leave_no_trace {genesis : HeaderInfo} {b : Branch}
    (h : b.Reached env genesis) :
    replayCoins (b.journal.map Prod.fst).reverse = .ok b.best.utxos ∧
      ∀ n, ∃ b', b.detach n = .ok b' := by
  refine ⟨h.replays.replayCoins_eq, fun n => ?_⟩
  obtain ⟨b', hdetach, _⟩ := Branch.replays_detach h.replays n
  exact ⟨b', hdetach⟩

/-- A first block whose coinbase has this id. -/
def firstBlock (id : Hash) : Block :=
  { regularBlock 1 [coinbaseTx id [⟨5, [0x51]⟩]] with hash := id + 70 }

theorem replaced_block_is_gone : ∃ b₁ b₂ b₃,
    (Branch.start (regularInfo 0)).connect youngMainNet (firstBlock 1) = .ok b₁ ∧
    b₁.detach 1 = .ok b₂ ∧ b₂.connect youngMainNet (firstBlock 2) = .ok b₃ ∧
    replayCoins (b₃.journal.map Prod.fst).reverse = .ok b₃.best.utxos := by
  obtain ⟨b₁, h₁, b₂, h₂, c₂, b₃, h₃, -⟩ : ∃ b₁,
      (Branch.start (regularInfo 0)).connect youngMainNet (firstBlock 1) = .ok b₁ ∧
      ∃ b₂, b₁.detach 1 = .ok b₂ ∧
        bip0030CheckNeeded (b₂.best.tip.child (firstBlock 2)) youngMainNet.params = true ∧
        ∃ b₃, b₂.connect youngMainNet (firstBlock 2) = .ok b₃ ∧ True := by decide +kernel
  have hreached := ((Branch.Reached.start.connect (by decide +kernel) h₁).detach h₂).connect c₂ h₃
  exact ⟨b₁, b₂, b₃, h₁, h₂, h₃, (reorganizations_leave_no_trace hreached).1⟩

end FalconDraw.Chain
