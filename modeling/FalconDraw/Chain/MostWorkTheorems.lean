/-
FalconDraw.Chain.MostWorkTheorems — the node follows the most work.

As long as every orphan that is taken out of the pool is accepted, the tip has at
least as much work as every block held with nothing invalid on its path, and it
only moves to a child or to more work.
-/
import Mathlib.Logic.Relation
import FalconDraw.Lib.Transition
import FalconDraw.Chain.ChainTreeTheorems

namespace FalconDraw.Chain

open Lib Wire Draw List

namespace ChainTree

variable {v : Verdicts} {t t' : ChainTree} {g : HeaderInfo} {m n p : BlockNode} {fastAdd : Bool}
  {block : NewBlock}

variable {t₁ : ChainTree} {r : Check Unit} {waiting : List Hash}

/-! ## Moves of the tip -/

/-- One move of the tip: to more work, or to a child. -/
def TipMove (old new : BlockNode) : Prop := old.workSum < new.workSum ∨ new.parent = some old

/-- What processing may do: blocks are added and marked, and the tip moves. -/
structure Moved (t t' : ChainTree) : Prop where
  nodes   : ∀ n ∈ t.nodes, n ∈ t'.nodes
  invalid : ∀ n ∈ t.nodes, t.knownInvalid n = true → t'.knownInvalid n = true
  tip     : Relation.ReflTransGen TipMove t.tip t'.tip

theorem Moved.refl (t : ChainTree) : Moved t t := ⟨fun _ h => h, fun _ _ h => h, .refl⟩

theorem Moved.trans {t₂ t₃ : ChainTree} (h : Moved t₁ t₂) (h' : Moved t₂ t₃) : Moved t₁ t₃ :=
  ⟨fun n hn => h'.nodes n (h.nodes n hn),
    fun n hn hi => h'.invalid n (h.nodes n hn) (h.invalid n hn hi), h.tip.trans h'.tip⟩

theorem TipMove.workSum_le {old new : BlockNode} (h : TipMove old new) :
    old.workSum ≤ new.workSum := by
  rcases h with h | h
  · exact h.le
  · exact (BlockNode.parent_onPath h).workSum_le

theorem workSum_le_of_moves {old new : BlockNode} (h : Relation.ReflTransGen TipMove old new) :
    old.workSum ≤ new.workSum := by
  induction h with
  | refl => exact le_rfl
  | tail _ hmove ih => exact ih.trans hmove.workSum_le

theorem Moved.workSum_le (h : Moved t t') : t.tip.workSum ≤ t'.tip.workSum :=
  workSum_le_of_moves h.tip

theorem Moved.clean (h : Moved t t') (ht : TreeOk g t) (hn : n ∈ t.nodes) (hc : t'.Clean n) :
    t.Clean n := by
  refine clean_iff.mpr fun m hm => ?_
  by_contra hi
  have := h.invalid m (ht.closed n hn m hm) (by simpa using hi)
  rw [clean_iff.mp hc m hm] at this
  cases this

theorem moved_of_marked {bad : Hash → Prop} (h : Marked t t' bad) : Moved t t' where
  nodes n hn := h.nodes ▸ hn
  invalid _ _ := h.mono
  tip := h.tip ▸ .refl

/-! ## One block -/

/-- The block is taken care of: the tip has its work, or it is known to be
invalid. -/
def Settled (t : ChainTree) (n : BlockNode) : Prop :=
  n.workSum ≤ t.tip.workSum ∨ t.knownInvalid n = true

/-- The outcome of offering a block of the index to the best chain. -/
structure Offered (v : Verdicts) (g : HeaderInfo) (t t' : ChainTree) (n : BlockNode)
    (fastAdd : Bool) (r : Check Bool) : Prop where
  tree    : TreeOk g t'
  nodes   : t'.nodes = t.nodes
  orphans : t'.orphans = t.orphans
  moved   : Moved t t'
  settled : t'.Settled n ∨ (fastAdd = true ∧ v.connects n.hash = false ∧ ∃ e, r = .error e)
  failed  : ∀ e, r = .error e →
    t'.knownInvalid n = true ∨ (fastAdd = true ∧ v.connects n.hash = false)

theorem TreeOk.extendTo (ht : TreeOk g t) (hn : n ∈ t.nodes) (hni : t.knownInvalid n = false)
    (hp : n.parent = some t.tip) (hm : Marked t t₁ fun _ => False) :
    Offered v g t (t₁.extendTo n).1 n fastAdd (t₁.extendTo n).2 := by
  have hclean : t.Clean n := clean_iff.mpr fun k hk => by
    rcases (BlockNode.onPath_of_parent hp).mp hk with rfl | hk
    · exact hni
    · exact clean_iff.mp ht.tip_clean k hk
  have hmark := marked_setValid { t₁ with tip := n } n
  have ht₁ : TreeOk g t₁ := ht.marked hm fun _ _ h => h
  have hclean₁ : t₁.Clean n := hm.clean_iff.mpr ⟨hclean, fun _ _ h => h⟩
  refine ⟨(ht₁.withTip (hm.nodes ▸ hn) hclean₁).marked hmark fun _ _ h => h, ?_, ?_, ?_, ?_, ?_⟩
  · exact hmark.nodes.trans hm.nodes
  · exact hmark.orphans.trans hm.orphans
  · refine ⟨fun k hk => ?_, fun k _ hk => hmark.mono (hm.mono hk), ?_⟩
    · rw [← hm.nodes] at hk
      exact hk
    · exact .single (.inr hp)
  · exact .inl (.inl le_rfl)
  · intro e he
    cases he

theorem TreeOk.reorganize (ht : TreeOk g t) (hn : n ∈ t.nodes) (hni : t.knownInvalid n = false)
    (hwork : t.tip.workSum < n.workSum) {t' : ChainTree} {detach attach : List BlockNode}
    (hget : t.getReorganizeNodes n = (t₁, detach, attach))
    (hr : t₁.reorganizeChain v detach attach = (t', r)) (b : Bool) :
    Offered v g t t' n fastAdd (r.map fun _ => b) := by
  rcases getReorganizeNodes_cases ht hn with ⟨hc, f, hft, hfn, hmax, heq⟩ | ⟨hc, t₂, heq, hm⟩
  · rw [hget] at heq
    cases heq
    rcases reorganizeChain_cases v hft hfn with ⟨t₂, heq, hm⟩ | ⟨t₂, e, bad, heq, hbn, hbad, -, hm⟩
    · rw [hr] at heq
      cases heq
      have hc₂ : t₂.Clean n := hm.clean_iff.mpr ⟨hc, fun _ _ h => h⟩
      refine ⟨(ht.marked hm fun _ _ h => h).withTip (hm.nodes ▸ hn) hc₂, hm.nodes, hm.orphans,
        ⟨fun k hk => ?_, fun k _ hk => ?_, .single (.inl hwork)⟩, .inl (.inl le_rfl), ?_⟩
      · show k ∈ t₂.nodes
        rwa [hm.nodes]
      · exact hm.mono hk
      · intro e he
        cases he
    · rw [hr] at heq
      cases heq
      -- the blocks that were marked are above the fork
      have hoff : ∀ k : BlockNode, k.OnPath t.tip → ¬ ∃ j ∈ bad, k.hash = j.hash := by
        rintro k hk ⟨j, hj, hh⟩
        obtain ⟨hjn, hjf⟩ := hbad j hj
        obtain rfl := ht.unique k (ht.closed _ ht.tip_mem k hk) j (ht.closed n hn j hjn) hh
        exact hjf (hmax k hjn hk)
      have hinv : t'.knownInvalid n = true := (hm.invalid n).mpr (.inr ⟨n, hbn, rfl⟩)
      exact ⟨ht.marked hm hoff, hm.nodes, hm.orphans, moved_of_marked hm, .inl (.inr hinv),
        fun _ _ => .inl hinv⟩
  · rw [hget] at heq
    cases heq
    cases (reorganizeChain_nil v t₁).symm.trans hr
    have hself : n ∈ t.unwound n := mem_unwound.mpr ⟨.refl n, fun k hk hkn => by
      rw [hkn.antisymm hk]
      exact hni⟩
    have hoff : ∀ k : BlockNode, k.OnPath t.tip → ¬ ∃ j ∈ t.unwound n, k.hash = j.hash := by
      rintro k hk ⟨j, hj, hh⟩
      obtain rfl := ht.unique k (ht.closed _ ht.tip_mem k hk) j
        (ht.closed n hn j (mem_unwound.mp hj).1) hh
      exact ht.unwound_off hc hj hk
    refine ⟨ht.marked hm hoff, hm.nodes, hm.orphans, moved_of_marked hm,
      .inl (.inr ((hm.invalid n).mpr (.inr ⟨n, hself, rfl⟩))), ?_⟩
    intro e he
    cases he

theorem connectBestChain_offered (ht : TreeOk g t) (hn : n ∈ t.nodes)
    (hni : t.knownInvalid n = false) {r : Check Bool}
    (hcon : t.connectBestChain v n fastAdd = (t', r)) : Offered v g t t' n fastAdd r := by
  obtain ⟨rfl, rfl⟩ : t' = (t.connectBestChain v n fastAdd).1 ∧
      r = (t.connectBestChain v n fastAdd).2 := by
    rw [hcon]
    exact ⟨rfl, rfl⟩
  clear hcon
  unfold connectBestChain
  split
  case isTrue hparent =>
    have hp := ht.parent_eq hn ht.tip_mem hparent
    -- the block is above the tip, so a mark on it does not touch the best chain
    have hoff : ∀ k : BlockNode, k.OnPath t.tip → ¬ k.hash = n.hash := by
      rintro k hk hh
      obtain rfl := ht.unique k (ht.closed _ ht.tip_mem k hk) n hn hh
      have := hk.height_le
      rw [BlockNode.height_of_parent hp] at this
      omega
    split
    · exact ht.extendTo hn hni hp (.none t)
    split
    case isTrue hfast =>
      split
      · exact ht.extendTo hn hni hp (.none t)
      case isFalse hcon =>
        have hcon : v.connects n.hash = false := by simpa using hcon
        exact ⟨ht, rfl, rfl, .refl t, .inr ⟨hfast, hcon, _, rfl⟩, fun _ _ => .inr ⟨hfast, hcon⟩⟩
    · cases hv : v.connect n.hash with
      | none => exact ht.extendTo hn hni hp (marked_setValid t n)
      | some r =>
        obtain ⟨code, msg⟩ := r
        have hm := marked_setValidateFailed t n
        have hinv := (hm.invalid n).mpr (.inr rfl)
        exact ⟨ht.marked hm hoff, hm.nodes, hm.orphans, moved_of_marked hm, .inl (.inr hinv),
          fun _ _ => .inl hinv⟩
  · split
    case isTrue hwork =>
      exact ⟨ht, rfl, rfl, .refl t, .inl (.inl hwork), fun _ h => nomatch h⟩
    case isFalse hwork =>
      obtain ⟨t₁, detach, attach, hget⟩ : ∃ t₁ detach attach,
          t.getReorganizeNodes n = (t₁, detach, attach) := ⟨_, _, _, rfl⟩
      obtain ⟨t₂, r, hr⟩ : ∃ t₂ r, t₁.reorganizeChain v detach attach = (t₂, r) := ⟨_, _, rfl⟩
      have h : Offered v g t t₂ n fastAdd (r.map fun _ => true) :=
        ht.reorganize hn hni (not_le.mp hwork) hget hr true
      simp only [hget, hr]
      cases r with
      | error e => exact h
      | ok u => exact h

/-! ## A new block -/

theorem knownInvalid_addNode_self : (t.addNode n).knownInvalid n = false := by
  simp [knownInvalid, nodeStatus, addNode, BlockStatus.knownInvalid]

theorem knownInvalid_addNode (h : m.hash ≠ n.hash) :
    (t.addNode n).knownInvalid m = t.knownInvalid m := by
  simp [knownInvalid, nodeStatus, addNode, Bucket.get_put_of_ne _ _ h]

theorem moved_addNode (hfresh : ∀ m ∈ t.nodes, m.hash ≠ n.hash) : Moved t (t.addNode n) where
  nodes _ hm := mem_append_left _ hm
  invalid m hm hi := by rwa [knownInvalid_addNode (hfresh m hm)]
  tip := .refl

theorem TreeOk.addNode (ht : TreeOk g t) (hp : p ∈ t.nodes) {i : HeaderInfo}
    (hfresh : ∀ m ∈ t.nodes, m.hash ≠ i.hash) : TreeOk g (t.addNode ⟨i, p.chain⟩) where
  rooted m hm := by
    rcases mem_append.mp hm with hm | hm
    · exact ht.rooted m hm
    · obtain rfl := mem_singleton.mp hm
      exact (getLast?_cons_cons).trans (ht.rooted p hp)
  closed m hm k hk := by
    rcases mem_append.mp hm with hm | hm
    · exact mem_append_left _ (ht.closed m hm k hk)
    · obtain rfl := mem_singleton.mp hm
      rcases BlockNode.onPath_cons.mp hk with rfl | hk
      · exact mem_append_right _ mem_cons_self
      · exact mem_append_left _ (ht.closed p hp k hk)
  unique m hm k hk hh := by
    rcases mem_append.mp hm with hm | hm <;> rcases mem_append.mp hk with hk | hk
    · exact ht.unique m hm k hk hh
    · obtain rfl := mem_singleton.mp hk
      exact absurd hh (hfresh m hm)
    · obtain rfl := mem_singleton.mp hm
      exact absurd hh.symm (hfresh k hk)
    · rw [mem_singleton.mp hm, mem_singleton.mp hk]
  tip_mem := mem_append_left _ ht.tip_mem
  tip_clean := clean_iff.mpr fun k hk => by
    rw [knownInvalid_addNode (hfresh k (ht.closed _ ht.tip_mem k hk))]
    exact clean_iff.mp ht.tip_clean k hk

/-- The tip has the work of every block of the index with a clean path. -/
def IndexMost (t : ChainTree) : Prop := ∀ n ∈ t.nodes, t.Clean n → n.workSum ≤ t.tip.workSum

/-- The state between two steps, with the hashes whose orphans are still to be
looked at. -/
structure PoolInv (g : HeaderInfo) (waiting : List Hash) (t : ChainTree) : Prop where
  tree   : TreeOk g t
  most   : IndexMost t
  fresh  : ∀ o ∈ t.orphans, ∀ n ∈ t.nodes, n.hash ≠ o.hash
  nodup  : (t.orphans.map NewBlock.hash).Nodup
  parked : ∀ o ∈ t.orphans, ∀ p ∈ t.nodes, p.hash = o.prevBlock →
    t.knownInvalid p = true ∨ o.prevBlock ∈ waiting

theorem PoolInv.weaken {waiting' : List Hash} (h : PoolInv g waiting t)
    (hsub : ∀ x ∈ waiting, x ∈ waiting') : PoolInv g waiting' t :=
  { h with parked := fun o ho p hp hh => (h.parked o ho p hp hh).imp_right (hsub _) }

/-- The state after a block was offered: it was accepted and its orphans come
next, or it was refused. -/
structure Taken (v : Verdicts) (g : HeaderInfo) (waiting : List Hash) (t t' : ChainTree)
    (block : NewBlock) (fastAdd : Bool) (r : Check Bool) : Prop where
  moved   : Moved t t'
  orphans : t'.orphans = t.orphans
  ok      : ∀ b, r = .ok b → PoolInv g (block.hash :: waiting) t'
  error   : (fastAdd = true → v.connects block.hash = true) → ∀ e, r = .error e →
    PoolInv g waiting t'

theorem PoolInv.accept (h : PoolInv g waiting t)
    (hnew : ∀ n ∈ t.nodes, n.hash ≠ block.hash) (horphan : ∀ o ∈ t.orphans, o.hash ≠ block.hash)
    {r : Check Bool} (hacc : t.maybeAcceptBlock v block fastAdd = (t', r)) :
    Taken v g waiting t t' block fastAdd r := by
  -- a block that fails the first checks leaves the state as it was
  have hsame : ∀ e, (t, .error e) = (t', r) → Taken v g waiting t t' block fastAdd r := by
    rintro e he
    cases he
    exact ⟨.refl t, rfl, (fun b hb => nomatch hb), fun _ _ _ => h⟩
  unfold maybeAcceptBlock at hacc
  cases hprev : t.lookupNode block.prevBlock with
  | none =>
    simp only [hprev] at hacc
    exact hsame _ hacc
  | some p =>
    obtain ⟨hp, hph⟩ := lookupNode_some hprev
    simp only [hprev] at hacc
    split at hacc
    · exact hsame _ hacc
    cases hctx : v.context block.hash with
    | some e =>
      simp only [hctx] at hacc
      exact hsame _ hacc
    | none =>
      have hlook : t.lookupNode block.hash = none := by
        cases hl : t.lookupNode block.hash with
        | none => rfl
        | some n => exact absurd (lookupNode_some hl).2 (hnew n (lookupNode_some hl).1)
      simp only [hctx, hlook] at hacc
      have hoff : Offered v g (t.addNode ⟨block.info, p.chain⟩) t' ⟨block.info, p.chain⟩
          fastAdd r :=
        connectBestChain_offered (h.tree.addNode hp hnew)
          (mem_append_right _ mem_cons_self) knownInvalid_addNode_self hacc
      have hmoved := (moved_addNode (n := ⟨block.info, p.chain⟩) hnew).trans hoff.moved
      have hnodes : t'.nodes = t.nodes ++ [⟨block.info, p.chain⟩] := hoff.nodes
      have horph : t'.orphans = t.orphans := hoff.orphans
      -- everything but the place of the block's own orphans
      have hinv : t'.Settled ⟨block.info, p.chain⟩ → PoolInv g (block.hash :: waiting) t' := by
        intro hset
        refine ⟨hoff.tree, fun k hk hkc => ?_, ?_, horph ▸ h.nodup, ?_⟩
        · rw [hnodes] at hk
          rcases mem_append.mp hk with hk | hk
          · exact (h.most k hk (hmoved.clean h.tree hk hkc)).trans hmoved.workSum_le
          · obtain rfl := mem_singleton.mp hk
            exact hset.resolve_right (by simp [hkc.self])
        · rw [horph, hnodes]
          intro o ho k hk
          rcases mem_append.mp hk with hk | hk
          · exact h.fresh o ho k hk
          · obtain rfl := mem_singleton.mp hk
            exact (horphan o ho).symm
        · rw [horph, hnodes]
          intro o ho k hk hh
          rcases mem_append.mp hk with hk | hk
          · rcases h.parked o ho k hk hh with hi | hw
            · exact .inl (hmoved.invalid k hk hi)
            · exact .inr (mem_cons_of_mem _ hw)
          · obtain rfl := mem_singleton.mp hk
            exact .inr (hh ▸ mem_cons_self)
      refine ⟨hmoved, horph, fun b hb => hinv ?_, fun hfast e he => ?_⟩
      · rcases hoff.settled with hs | ⟨-, -, e, he⟩
        · exact hs
        · rw [hb] at he
          cases he
      · -- the block failed: it is known to be invalid, and its orphans may stay
        have hbad : t'.knownInvalid ⟨block.info, p.chain⟩ = true := by
          rcases hoff.failed e he with hi | ⟨hf, hcon⟩
          · exact hi
          · have hcon' := hfast hf
            rw [show block.hash = (⟨block.info, p.chain⟩ : BlockNode).hash from rfl, hcon] at hcon'
            cases hcon'
        have hall := hinv (.inr hbad)
        refine { hall with parked := fun o ho k hk hh => ?_ }
        rw [horph] at ho
        rw [hnodes] at hk
        rcases mem_append.mp hk with hk | hk
        · exact (h.parked o ho k hk hh).imp_left (hmoved.invalid k hk)
        · obtain rfl := mem_singleton.mp hk
          exact .inl hbad

/-! ## The orphans of a block -/

theorem filter_erase_head {α : Type} [DecidableEq α] {p : α → Bool} {a : α} {as : List α} :
    ∀ {l : List α}, l.filter p = a :: as → (l.erase a).filter p = as
  | [], h => nomatch h
  | b :: l, h => by
      have ha : p a = true := of_mem_filter (h ▸ mem_cons_self)
      by_cases hb : p b = true
      · grind
      · grind

theorem TreeOk.withOrphans (ht : TreeOk g t) (os : List NewBlock) :
    TreeOk g { t with orphans := os } :=
  ⟨ht.rooted, ht.closed, ht.unique, ht.tip_mem, ht.tip_clean⟩

theorem PoolInv.erase {h : Hash} {o : NewBlock} {os : List NewBlock}
    (hi : PoolInv g (h :: waiting) t)
    (hos : (t.orphans.filter fun o => o.prevBlock = h) = o :: os) :
    PoolInv g (h :: waiting) { t with orphans := t.orphans.erase o } ∧
      (∀ n ∈ t.nodes, n.hash ≠ o.hash) ∧ (∀ k ∈ t.orphans.erase o, k.hash ≠ o.hash) ∧
      ((t.orphans.erase o).filter fun o => o.prevBlock = h) = os ∧
      (t.orphans.erase o).length + 1 = t.orphans.length := by
  have ho : o ∈ t.orphans := mem_of_mem_filter (hos ▸ mem_cons_self)
  have hperm : t.orphans.Perm (o :: t.orphans.erase o) := perm_cons_erase ho
  have hnodup : ((o :: t.orphans.erase o).map NewBlock.hash).Nodup :=
    (hperm.map NewBlock.hash).nodup_iff.mp hi.nodup
  rw [map_cons, nodup_cons] at hnodup
  have hsub : ∀ k ∈ t.orphans.erase o, k ∈ t.orphans := fun k hk => mem_of_mem_erase hk
  refine ⟨⟨hi.tree.withOrphans _, hi.most, fun k hk => hi.fresh k (hsub k hk), hnodup.2,
    fun k hk => hi.parked k (hsub k hk)⟩, hi.fresh o ho, fun k hk hh => ?_, ?_, ?_⟩
  · exact hnodup.1 (hh ▸ mem_map_of_mem hk)
  · exact filter_erase_head hos
  · exact (hperm.length_eq).symm

theorem PoolInv.replay {h : Hash} {os : List NewBlock}
    (hi : PoolInv g (h :: waiting) t) (hos : (t.orphans.filter fun o => o.prevBlock = h) = os)
    {accepted : List Hash} (hrep : replayOrphans v fastAdd t os = (t', accepted, r)) :
    Moved t t' ∧ (r = .ok () → PoolInv g (waiting ++ accepted) t' ∧
      t'.orphans.length + accepted.length = t.orphans.length) := by
  induction os generalizing t waiting accepted with
  | nil =>
    obtain ⟨rfl, rfl, rfl⟩ : t = t' ∧ [] = accepted ∧ .ok () = r := by simpa [replayOrphans] using hrep
    refine ⟨.refl t, fun _ => ⟨{ hi with parked := fun o ho p hp hh => ?_ }, rfl⟩⟩
    rw [append_nil]
    refine (hi.parked o ho p hp hh).imp_right fun hw => ?_
    rcases mem_cons.mp hw with heq | hw
    · have hmem : o ∈ t.orphans.filter fun o => o.prevBlock = h := by simp [ho, heq]
      rw [hos] at hmem
      cases hmem
    · exact hw
  | cons o os ih =>
    obtain ⟨hi₁, hnew, horphan, hos₁, hlen⟩ := hi.erase hos
    rw [replayOrphans] at hrep
    obtain ⟨t₁, r₁, hacc⟩ : ∃ t₁ r₁, maybeAcceptBlock v { t with orphans := t.orphans.erase o } o
        fastAdd = (t₁, r₁) := ⟨_, _, rfl⟩
    have htake := hi₁.accept hnew horphan hacc
    have hm₁ : Moved t t₁ := ⟨htake.moved.nodes, htake.moved.invalid, htake.moved.tip⟩
    simp only [hacc] at hrep
    cases r₁ with
    | error e =>
      cases hrep
      exact ⟨hm₁, fun hr => nomatch hr⟩
    | ok b =>
      obtain ⟨t₂, acc, r₂, hrest⟩ : ∃ t₂ acc r₂,
          replayOrphans v fastAdd t₁ os = (t₂, acc, r₂) := ⟨_, _, _, rfl⟩
      simp only [hrest] at hrep
      cases hrep
      -- the orphans of the accepted one are to be looked at later
      have hinv : PoolInv g (h :: (waiting ++ [o.hash])) t₁ :=
        (htake.ok b rfl).weaken (by simp; tauto)
      obtain ⟨hm₂, hok⟩ := ih hinv (by rw [htake.orphans]; exact hos₁) hrest
      refine ⟨hm₁.trans hm₂, fun hr => ?_⟩
      obtain ⟨hinv', hlen'⟩ := hok hr
      refine ⟨hinv'.weaken (by simp), ?_⟩
      have horph : t₁.orphans.length = (t.orphans.erase o).length :=
        congrArg List.length htake.orphans
      rw [length_cons]
      omega

theorem PoolInv.cascade {fuel : Nat} (hi : PoolInv g waiting t)
    (hfuel : t.orphans.length + waiting.length ≤ fuel)
    (hproc : processOrphans v fastAdd fuel t waiting = (t', r)) :
    Moved t t' ∧ (r = .ok () → PoolInv g [] t') := by
  induction fuel generalizing t waiting with
  | zero =>
    obtain rfl : waiting = [] := eq_nil_of_length_eq_zero (by omega)
    cases hproc
    exact ⟨.refl _, fun _ => hi⟩
  | succ fuel ih =>
    cases waiting with
    | nil =>
      cases hproc
      exact ⟨.refl _, fun _ => hi⟩
    | cons h waiting =>
      obtain ⟨t₁, acc, r₁, hrep⟩ : ∃ t₁ acc r₁, replayOrphans v fastAdd t
          (t.orphans.filter fun o => o.prevBlock = h) = (t₁, acc, r₁) := ⟨_, _, _, rfl⟩
      obtain ⟨hm₁, hok⟩ := hi.replay rfl hrep
      simp only [processOrphans, hrep] at hproc
      cases r₁ with
      | error e =>
        cases hproc
        exact ⟨hm₁, fun hr => nomatch hr⟩
      | ok u =>
        obtain ⟨hinv, hlen⟩ := hok rfl
        have hfuel' : t₁.orphans.length + (waiting ++ acc).length ≤ fuel := by
          grind
        obtain ⟨hm₂, hend⟩ := ih hinv hfuel' hproc
        exact ⟨hm₁.trans hm₂, hend⟩

/-! ## A whole run -/

/-- What `processOrphans` returns in a call; nothing if it is not reached. -/
def replayOutcome (v : Verdicts) (t : ChainTree) (block : NewBlock) (fastAdd : Bool) : Check Unit :=
  match t.maybeAcceptBlock v block fastAdd with
  | (_, .error _) => .ok ()
  | (t₁, .ok _) => (processOrphans v fastAdd (t₁.orphans.length + 1) t₁ [block.hash]).2

/-- A block that is not to be checked can be connected, and none of the orphans
that the block completes is rejected. -/
def ReplaysOrphans (v : Verdicts) (t : ChainTree) (a : Offer) : Prop :=
  (a.fastAdd = true → v.connects a.block.hash = true) ∧
    Accepts (replayOutcome v t a.block a.fastAdd)

instance (v : Verdicts) (t : ChainTree) (a : Offer) : Decidable (ReplaysOrphans v t a) :=
  inferInstanceAs (Decidable (_ ∧ _))

theorem PoolInv.processBlock (hi : PoolInv g [] t) (block : NewBlock) (fastAdd : Bool) :
    Moved t (t.processBlock v block fastAdd).1 ∧
      (ReplaysOrphans v t ⟨block, fastAdd⟩ → PoolInv g [] (t.processBlock v block fastAdd).1) := by
  unfold ChainTree.processBlock
  cases hold : t.lookupNode block.hash with
  | some n => exact ⟨.refl t, fun _ => hi⟩
  | none =>
    have hnew := lookupNode_none hold
    simp only [Option.isSome_none, Bool.false_eq_true, if_false]
    split
    · exact ⟨.refl t, fun _ => hi⟩
    case isFalse hdup =>
      have horphan : ∀ o ∈ t.orphans, o.hash ≠ block.hash := by simpa using hdup
      cases hsane : v.sanity block.hash with
      | some e => exact ⟨.refl t, fun _ => hi⟩
      | none =>
        simp only
        cases hprev : t.lookupNode block.prevBlock with
        | none =>
          simp only [Option.isNone_none, if_true]
          refine ⟨⟨fun _ h => h, fun _ _ h => h, .refl⟩, fun _ => ⟨hi.tree.withOrphans _, hi.most, ?_, ?_, ?_⟩⟩
          · intro o ho
            rcases mem_append.mp ho with ho | ho
            · exact hi.fresh o ho
            · rw [mem_singleton.mp ho]
              exact hnew
          · rw [map_append, nodup_append]
            refine ⟨hi.nodup, nodup_singleton _, ?_⟩
            intro x hx y hy
            obtain ⟨o, ho, rfl⟩ := mem_map.mp hx
            rw [mem_singleton.mp hy]
            exact horphan o ho
          · intro o ho p hp hh
            rcases mem_append.mp ho with ho | ho
            · exact hi.parked o ho p hp hh
            · rw [mem_singleton.mp ho] at hh
              exact absurd hh (lookupNode_none hprev p hp)
        | some p =>
          simp only [Option.isNone_some, Bool.false_eq_true, if_false]
          obtain ⟨t₁, r₁, hacc⟩ : ∃ t₁ r₁, t.maybeAcceptBlock v block fastAdd = (t₁, r₁) :=
            ⟨_, _, rfl⟩
          have htake := hi.accept hnew horphan hacc
          simp only [ReplaysOrphans, replayOutcome, hacc]
          cases r₁ with
          | error e => exact ⟨htake.moved, fun hrep => htake.error hrep.1 e rfl⟩
          | ok b =>
            obtain ⟨t₂, r₂, hproc⟩ : ∃ t₂ r₂, processOrphans v fastAdd (t₁.orphans.length + 1) t₁
                [block.hash] = (t₂, r₂) := ⟨_, _, rfl⟩
            obtain ⟨hm₂, hend⟩ := (htake.ok b rfl).cascade (by simp) hproc
            simp only [hproc]
            cases r₂ with
            | error e => exact ⟨htake.moved.trans hm₂, fun hrep => by rcases hrep.2 with ⟨_, ⟨⟩⟩⟩
            | ok u => exact ⟨htake.moved.trans hm₂, fun _ => hend rfl⟩

theorem poolInv_genesis (g : HeaderInfo) : PoolInv g [] (genesisTree g) := by
  have hmem : ∀ n ∈ (genesisTree g).nodes, n = ⟨g, []⟩ := fun n hn => mem_singleton.mp hn
  have hpath : ∀ m : BlockNode, m.OnPath ⟨g, []⟩ → m = ⟨g, []⟩ := fun m hm =>
    hm.eq_of_height_le (Nat.zero_le _)
  refine ⟨⟨?_, ?_, ?_, mem_singleton.mpr rfl, ?_⟩, ?_, (fun _ ho => nomatch ho), nodup_nil,
    fun _ ho => nomatch ho⟩
  · intro n hn
    rw [hmem n hn]
    rfl
  · grind
  · intro m hm n hn _
    rw [hmem m hm, hmem n hn]
  · refine clean_iff.mpr fun m hm => ?_
    rw [hpath m hm]
    simp [knownInvalid, nodeStatus, genesisTree, BlockNode.hash, BlockStatus.knownInvalid]
  · intro n hn _
    rw [hmem n hn]
    rfl

/-- The blocks a node holds with all their ancestors: those of the index, and
the orphans on top of a block it holds. -/
inductive Held (t : ChainTree) : BlockNode → Prop
  | index {n : BlockNode} (hn : n ∈ t.nodes) : Held t n
  | orphan {o : NewBlock} {p : BlockNode} (ho : o ∈ t.orphans) (hp : Held t p)
      (hh : p.hash = o.prevBlock) : Held t ⟨o.info, p.chain⟩

/-- The tip has the work of every block held with nothing on its path known to
be invalid. -/
def MostWork (t : ChainTree) : Prop := ∀ n, Held t n → t.Clean n → n.workSum ≤ t.tip.workSum

theorem PoolInv.held (hi : PoolInv g [] t) (hn : Held t n) (hc : t.Clean n) : n ∈ t.nodes := by
  induction hn with
  | index hn => exact hn
  | orphan ho _ hh ih =>
    have hp := hc.of_onPath (BlockNode.parent_onPath (BlockNode.parent_mk _ _))
    rcases hi.parked _ ho _ (ih hp) hh with hinv | hw
    · rw [hp.self] at hinv
      cases hinv
    · cases hw

theorem reaches_poolInv
    (h : Reaches (arrive v) (· = genesisTree g) (ReplaysOrphans v) t) : PoolInv g [] t := by
  refine h.invariant ?_ ?_
  · rintro s rfl
    exact poolInv_genesis g
  · intro s a s' hi hok hstep
    cases hstep
    exact (hi.processBlock a.block a.fastAdd).2 hok

/-- In every run in which no orphan that is taken out of the pool is rejected,
the node follows the most work. -/
theorem tip_follows_most_work (v : Verdicts) (g : HeaderInfo) (t : ChainTree)
    (h : Reaches (arrive v) (· = genesisTree g) (ReplaysOrphans v) t) :
    MostWork t ∧ ∀ block fastAdd,
      Relation.ReflTransGen TipMove t.tip (t.processBlock v block fastAdd).1.tip := by
  have hi := reaches_poolInv h
  refine ⟨fun n hn hc => hi.most n (hi.held hn hc) hc, fun block fastAdd => ?_⟩
  exact (hi.processBlock block fastAdd).1.tip

section Runs

def easyHeader (hash : Hash) : HeaderInfo := ⟨hash, 1, 0, 0x207fffff⟩

def easyBlock (hash prevBlock : Hash) : NewBlock := ⟨easyHeader hash, prevBlock⟩

/-- Every block passes, but for one that fails when it is connected. -/
def allBut (bad : Option Hash) : Verdicts where
  sanity _ := none
  context _ := none
  connect h := if some h = bad then some (.badFees, "bad fees") else none
  connects _ := true

/-- Blocks 2 and 3 wait for block 1, and block 4 for block 3; they all arrive in
the order 4, 2, 3, 1. -/
def outOfOrder : List Offer :=
  [⟨easyBlock 4 3, false⟩, ⟨easyBlock 2 1, false⟩, ⟨easyBlock 3 1, false⟩, ⟨easyBlock 1 0, false⟩]

theorem out_of_order_follows : ∃ t,
    Reaches (arrive (allBut none)) (· = genesisTree (easyHeader 0)) (ReplaysOrphans (allBut none)) t ∧
      t.tip.hash = 4 ∧ t.orphans = [] ∧ t.nodes.length = 5 ∧ MostWork t := by
  obtain ⟨t, hrun, htip, horphans, hlen⟩ : ∃ t,
      runSteps (guarded (arrive (allBut none)) (ReplaysOrphans (allBut none)))
        (genesisTree (easyHeader 0)) outOfOrder = some t ∧
      t.tip.hash = 4 ∧ t.orphans = [] ∧ t.nodes.length = 5 := by decide +kernel
  have hreach : Reaches (arrive (allBut none)) (· = genesisTree (easyHeader 0))
      (ReplaysOrphans (allBut none)) t := Reaches.run (.start rfl) hrun
  exact ⟨t, hreach, htip, horphans, hlen, (tip_follows_most_work _ _ t hreach).1⟩

/-- Block 2 fails when block 1 arrives, and the valid block 3 next to it stays an
orphan although its parent is there: the tip is block 1, and block 3 has more
work. -/
theorem sibling_of_bad_orphan_forgotten : ∃ t,
    runSteps (arrive (allBut (some 2))) (genesisTree (easyHeader 0))
      [⟨easyBlock 2 1, false⟩, ⟨easyBlock 3 1, false⟩, ⟨easyBlock 1 0, false⟩] = some t ∧
    t.tip.hash = 1 ∧ easyBlock 3 1 ∈ t.orphans ∧ ¬ MostWork t := by
  obtain ⟨t, hrun, htip, horphan, hparent, hclean, hwork⟩ : ∃ t,
      runSteps (arrive (allBut (some 2))) (genesisTree (easyHeader 0))
        [⟨easyBlock 2 1, false⟩, ⟨easyBlock 3 1, false⟩, ⟨easyBlock 1 0, false⟩] = some t ∧
      t.tip.hash = 1 ∧ easyBlock 3 1 ∈ t.orphans ∧ ⟨easyHeader 1, [easyHeader 0]⟩ ∈ t.nodes ∧
      t.Clean ⟨easyHeader 3, [easyHeader 1, easyHeader 0]⟩ ∧
      t.tip.workSum < (⟨easyHeader 3, [easyHeader 1, easyHeader 0]⟩ : BlockNode).workSum := by
    decide +kernel
  refine ⟨t, hrun, htip, horphan, fun hmost => ?_⟩
  exact absurd (hmost _ (.orphan horphan (.index hparent) rfl) hclean) (not_le.mpr hwork)

end Runs

end ChainTree

end FalconDraw.Chain
