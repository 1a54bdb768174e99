/-
FalconDraw.Chain.ChainTreeTheorems — the shape of the tree and what each operation
on it can do.

`TreeOk` is the well-formedness of a tree: all paths start at genesis and stay
inside the index, a hash names one block, and nothing on the best chain is known
to be invalid.
-/
import Mathlib.Data.List.TakeWhile
import FalconDraw.Chain.ChainTree
import FalconDraw.Chain.ReorgTheorems

namespace FalconDraw.Chain

open Lib Wire Draw List

/-! ## Paths -/

namespace BlockNode

variable {m n p f : BlockNode}

/-- The block is the other one or one of its ancestors. -/
def OnPath (m n : BlockNode) : Prop := m.chain <:+ n.chain

instance : DecidableRel OnPath := fun m n => inferInstanceAs (Decidable (m.chain <:+ n.chain))

theorem chain_injective (h : m.chain = n.chain) : m = n := by
  cases m
  cases n
  simpa [chain] using h

@[refl] theorem OnPath.refl (n : BlockNode) : n.OnPath n := suffix_refl _

theorem OnPath.trans (h : m.OnPath n) (h' : n.OnPath p) : m.OnPath p := List.IsSuffix.trans h h'

theorem OnPath.height_le (h : m.OnPath n) : m.height ≤ n.height := by
  have hlen := h.length_le
  simp only [chain, length_cons] at hlen
  exact Nat.le_of_succ_le_succ hlen

theorem OnPath.eq_of_height_le (h : m.OnPath n) (hh : n.height ≤ m.height) : m = n := by
  refine chain_injective (h.eq_of_length ?_)
  have := h.height_le
  simp only [height] at this hh
  simp only [chain, length_cons]
  omega

theorem OnPath.antisymm (h : m.OnPath n) (h' : n.OnPath m) : m = n :=
  h.eq_of_height_le h'.height_le

theorem OnPath.total (h : m.OnPath p) (h' : n.OnPath p) : m.OnPath n ∨ n.OnPath m :=
  suffix_or_suffix_of_suffix h h'

theorem onPath_cons {i : HeaderInfo} : m.OnPath ⟨i, p.chain⟩ ↔ m = ⟨i, p.chain⟩ ∨ m.OnPath p := by
  have hchain : (⟨i, p.chain⟩ : BlockNode).chain = i :: p.chain := rfl
  rw [OnPath, hchain, suffix_cons_iff, ← hchain]
  exact or_congr ⟨chain_injective, fun h => h ▸ rfl⟩ Iff.rfl

theorem eq_of_parent (h : n.parent = some p) : n = ⟨n.info, p.chain⟩ := by
  cases n with
  | mk i is =>
    cases is with
    | nil => cases h
    | cons j js =>
      cases h
      rfl

theorem parent_mk (i : HeaderInfo) (p : BlockNode) : (⟨i, p.chain⟩ : BlockNode).parent = some p :=
  rfl

theorem onPath_of_parent (h : n.parent = some p) : m.OnPath n ↔ m = n ∨ m.OnPath p := by
  rw [eq_of_parent h]
  exact onPath_cons

theorem parent_onPath (h : n.parent = some p) : p.OnPath n := (onPath_of_parent h).mpr (.inr (.refl p))

theorem height_of_parent (h : n.parent = some p) : n.height = p.height + 1 := by
  rw [eq_of_parent h]
  rfl

theorem exists_parent (h : n.height ≠ 0) : ∃ p, n.parent = some p := by
  cases n with
  | mk i is =>
    cases is with
    | nil => exact absurd rfl h
    | cons j js => exact ⟨⟨j, js⟩, rfl⟩

theorem OnPath.child (h : m.OnPath n) (hne : m ≠ n) : ∃ c : BlockNode, c.parent = some m ∧ c.OnPath n := by
  obtain ⟨pre, hpre⟩ := h
  rcases eq_nil_or_concat pre with rfl | ⟨pre, i, rfl⟩
  · exact absurd (chain_injective hpre) hne
  · refine ⟨⟨i, m.chain⟩, rfl, pre, ?_⟩
    rw [← hpre]
    simp [chain]

theorem OnPath.induction {motive : (n : BlockNode) → f.OnPath n → Prop} (self : motive f (.refl f))
    (child : ∀ (n p : BlockNode) (hp : n.parent = some p) (hf : f.OnPath p), motive p hf →
      motive n (hf.trans (parent_onPath hp)))
    {n : BlockNode} (h : f.OnPath n) : motive n h := by
  obtain ⟨pre, hpre⟩ := id h
  induction pre generalizing n with
  | nil =>
    obtain rfl := chain_injective hpre
    exact self
  | cons i pre ih =>
    cases hp : n.parent with
    | none =>
      have hlen : n.height = 0 := by
        by_contra hne
        obtain ⟨p, hp'⟩ := exists_parent hne
        rw [hp] at hp'
        cases hp'
      have := congrArg List.length hpre
      simp only [length_append, length_cons, chain] at this
      simp only [height] at hlen
      omega
    | some p =>
      rw [eq_of_parent hp] at hpre
      have htail : pre ++ f.chain = p.chain := (List.cons.inj hpre).2
      exact child n p hp ⟨pre, htail⟩ (ih ⟨pre, htail⟩ htail)

theorem OnPath.workSum_le (h : m.OnPath n) : m.workSum ≤ n.workSum := by
  obtain ⟨pre, hpre⟩ := h
  simp only [workSum]
  rw [← hpre, map_append, sum_append]
  exact Nat.le_add_left _ _

theorem ancestor_eq_iff : n.ancestor m.height = some m ↔ m.OnPath n := by
  constructor
  · intro h
    obtain ⟨pre, hpre⟩ := ancestor_chain h
    exact ⟨pre, hpre.symm⟩
  · intro h
    have hle := h.height_le
    obtain ⟨pre, hpre⟩ := h
    have hdrop : n.height - m.height = pre.length := by
      have hlen := congrArg List.length hpre
      simp only [chain, length_append, length_cons] at hlen
      simp only [height]
      omega
    rw [ancestor, if_neg (by omega), Int.toNat_natCast, hdrop, ← hpre, drop_left]
    rfl

theorem isAncestor_iff : n.isAncestor m = true ↔ m.OnPath n ∧ m ≠ n := by
  rw [isAncestor]
  constructor
  · intro h
    cases ha : n.ancestor m.height with
    | none => simp [ha] at h
    | some a =>
      rw [ha] at h
      simp only [Bool.and_eq_true, decide_eq_true_eq] at h
      obtain ⟨hne, rfl⟩ := h
      exact ⟨ancestor_eq_iff.mp ha, fun heq => hne (heq ▸ rfl)⟩
  · rintro ⟨h, hne⟩
    rw [ancestor_eq_iff.mpr h]
    simp only [Bool.and_eq_true, decide_eq_true_eq, and_true]
    exact fun heq => hne (h.eq_of_height_le heq.le)

def path (n : BlockNode) : List BlockNode := BlockChain.nodesAbove none n.chain

theorem mem_path : m ∈ n.path ↔ m.OnPath n := by
  suffices h : ∀ c, m ∈ BlockChain.nodesAbove none c ↔ m.chain <:+ c from h n.chain
  intro c
  induction c with
  | nil => simp [BlockChain.nodesAbove, chain]
  | cons i is ih =>
    rw [BlockChain.nodesAbove, if_neg (by simp), mem_cons, suffix_cons_iff, ih]
    exact or_congr ⟨fun h => h ▸ rfl, chain_injective (n := ⟨i, is⟩)⟩ Iff.rfl

theorem mem_nodesAbove (hf : f.OnPath n) :
    m ∈ BlockChain.nodesAbove (some f) n.chain ↔ m.OnPath n ∧ ¬ m.OnPath f := by
  obtain ⟨pre, hpre⟩ := hf
  rw [OnPath, OnPath, ← hpre, nodesAbove_append]
  clear hpre
  induction pre with
  | nil => simp [nodesOn]
  | cons i pre ih =>
    rw [nodesOn, mem_cons, cons_append, suffix_cons_iff, ih]
    constructor
    · rintro (rfl | ⟨h, hf⟩)
      · refine ⟨.inl rfl, fun h => ?_⟩
        have := h.length_le
        simp only [chain, length_cons, length_append] at this
        omega
      · exact ⟨.inr h, hf⟩
    · rintro ⟨h | h, hf⟩
      · exact .inl (chain_injective h)
      · exact .inr ⟨h, hf⟩

theorem nodesAbove_of_parent (hp : n.parent = some p) (hf : f.OnPath p) :
    BlockChain.nodesAbove (some f) n.chain = n :: BlockChain.nodesAbove (some f) p.chain := by
  have hne : some n ≠ some f := by
    intro heq
    have := hf.height_le
    rw [← Option.some.inj heq, height_of_parent hp] at this
    omega
  rw [eq_of_parent hp] at hne ⊢
  exact if_neg hne

theorem nodesAbove_self : BlockChain.nodesAbove (some n) n.chain = [] := if_pos rfl

theorem parent_getLast_nodesAbove (h : f.OnPath n) {c : BlockNode}
    (hc : (BlockChain.nodesAbove (some f) n.chain).getLast? = some c) : c.parent = some f := by
  induction h using OnPath.induction with
  | self => simp [nodesAbove_self] at hc
  | child n p hp hf ih =>
    rw [nodesAbove_of_parent hp hf] at hc
    cases hrest : BlockChain.nodesAbove (some f) p.chain with
    | nil =>
      rw [hrest] at hc
      obtain rfl : n = c := by simpa using hc
      -- nothing is above the fork on the parent's chain: the parent is the fork
      have hpf : p.OnPath f := by
        by_contra hoff
        have := (mem_nodesAbove hf).mpr ⟨.refl p, hoff⟩
        simp [hrest] at this
      rw [hp, hpf.antisymm hf]
    | cons k ks =>
      rw [hrest, getLast?_cons_cons] at hc
      exact ih (hrest ▸ hc)

theorem nodesAbove_parent (h : n.OnPath m) (hp : n.parent = some p) :
    BlockChain.nodesAbove (some p) m.chain = BlockChain.nodesAbove (some n) m.chain ++ [n] := by
  induction h using OnPath.induction with
  | self => rw [nodesAbove_of_parent hp (.refl p), nodesAbove_self, nodesAbove_self, nil_append]
  | child k q hq hn ih =>
    rw [nodesAbove_of_parent hq ((parent_onPath hp).trans hn), nodesAbove_of_parent hq hn, ih,
      cons_append]

theorem path_of_parent (hp : n.parent = some p) : n.path = n :: p.path := by
  rw [eq_of_parent hp]
  rfl

theorem path_eq (h : f.OnPath n) : n.path = BlockChain.nodesAbove (some f) n.chain ++ f.path := by
  induction h using OnPath.induction with
  | self => rw [nodesAbove_self, nil_append]
  | child n p hp hf ih =>
    rw [path_of_parent hp, ih, nodesAbove_of_parent hp hf, cons_append]

theorem head_nodesAbove (h : f.OnPath n) : (BlockChain.nodesAbove (some f) n.chain).head? = none ∨
      (BlockChain.nodesAbove (some f) n.chain).head? = some n := by
  induction h using OnPath.induction with
  | self => exact .inl (by rw [nodesAbove_self, head?_nil])
  | child n p hp hf => exact .inr (by rw [nodesAbove_of_parent hp hf, head?_cons])

theorem findFork_spec {tip : BlockNode} {g : HeaderInfo} (ht : tip.chain.getLast? = some g)
    (hn : n.chain.getLast? = some g) :
    ∃ f, BlockChain.findFork tip n.chain = some f ∧ f.OnPath n ∧ f.OnPath tip ∧
      ∀ m : BlockNode, m.OnPath n → m.OnPath tip → m.OnPath f := by
  obtain ⟨f, hf⟩ := findFork_rooted ht hn
  obtain ⟨⟨pre, hpre⟩, pre', hpre'⟩ := findFork_some hf
  refine ⟨f, hf, ⟨pre, hpre.symm⟩, ⟨pre', hpre'.symm⟩, ?_⟩
  suffices h : ∀ c, BlockChain.findFork tip c = some f → ∀ m : BlockNode, m.chain <:+ c →
      m.OnPath tip → m.OnPath f from h n.chain hf
  intro c
  induction c with
  | nil => exact fun h => nomatch h
  | cons i is ih =>
    intro h m hm hmt
    rw [BlockChain.findFork] at h
    split at h
    case isTrue => exact Option.some.inj h ▸ hm
    case isFalse hoff =>
      rcases suffix_cons_iff.mp hm with heq | hm
      · obtain rfl := chain_injective (n := ⟨i, is⟩) heq
        exact absurd (ancestor_eq_iff.mpr hmt) hoff
      · exact ih h m hm hmt

end BlockNode

/-! ## Well-formed trees -/

namespace ChainTree

variable {v : Verdicts} {t t' : ChainTree} {g : HeaderInfo} {m n p f : BlockNode}
variable {bad : Hash → Prop}

/-- Nothing on the path of the block is known to be invalid. -/
def Clean (t : ChainTree) (n : BlockNode) : Prop := ∀ m ∈ n.path, t.knownInvalid m = false

instance (t : ChainTree) (n : BlockNode) : Decidable (t.Clean n) :=
  inferInstanceAs (Decidable (∀ m ∈ n.path, t.knownInvalid m = false))

theorem clean_iff : t.Clean n ↔ ∀ m : BlockNode, m.OnPath n → t.knownInvalid m = false := by
  simp only [Clean, BlockNode.mem_path]

theorem Clean.of_onPath (h : t.Clean n) (hm : m.OnPath n) : t.Clean m :=
  clean_iff.mpr fun k hk => clean_iff.mp h k (hk.trans hm)

theorem Clean.self (h : t.Clean n) : t.knownInvalid n = false := clean_iff.mp h n (.refl n)

structure TreeOk (g : HeaderInfo) (t : ChainTree) : Prop where
  rooted    : ∀ n ∈ t.nodes, n.chain.getLast? = some g
  closed    : ∀ n ∈ t.nodes, ∀ m : BlockNode, m.OnPath n → m ∈ t.nodes
  unique    : ∀ m ∈ t.nodes, ∀ n ∈ t.nodes, m.hash = n.hash → m = n
  tip_mem   : t.tip ∈ t.nodes
  tip_clean : t.Clean t.tip

theorem lookupNode_some {h : Hash} (hl : t.lookupNode h = some n) : n ∈ t.nodes ∧ n.hash = h :=
  ⟨mem_of_find?_eq_some hl, by simpa using find?_some hl⟩

theorem lookupNode_none {h : Hash} (hl : t.lookupNode h = none) : ∀ n ∈ t.nodes, n.hash ≠ h := by
  simpa [lookupNode] using hl

theorem TreeOk.lookupNode_hash (ht : TreeOk g t) (hn : n ∈ t.nodes) :
    t.lookupNode n.hash = some n := by
  cases hl : t.lookupNode n.hash with
  | none => exact absurd rfl (lookupNode_none hl n hn)
  | some m =>
    obtain ⟨hm, hh⟩ := lookupNode_some hl
    rw [ht.unique m hm n hn hh]

theorem TreeOk.parent_eq (ht : TreeOk g t) (hn : n ∈ t.nodes) (hm : m ∈ t.nodes)
    (h : n.parent.map BlockNode.hash = some m.hash) : n.parent = some m := by
  obtain ⟨p, hp, hh⟩ := Option.map_eq_some_iff.mp h
  rw [hp, ht.unique p (ht.closed n hn p (BlockNode.parent_onPath hp)) m hm hh]

theorem onBestChain_iff : t.onBestChain n = true ↔ n.OnPath t.tip := by
  rw [onBestChain, decide_eq_true_eq]
  exact BlockNode.ancestor_eq_iff

/-! ## Marks -/

section Marks

variable {u : BlockStatus → BlockStatus} {ns : List BlockNode}

@[simp] theorem nodes_setStatusFlags : (t.setStatusFlags n u).nodes = t.nodes := rfl

@[simp] theorem tip_setStatusFlags : (t.setStatusFlags n u).tip = t.tip := rfl

@[simp] theorem orphans_setStatusFlags : (t.setStatusFlags n u).orphans = t.orphans := rfl

theorem nodeStatus_congr (h : m.hash = n.hash) : t.nodeStatus m = t.nodeStatus n := by
  rw [nodeStatus, nodeStatus, h]

theorem nodeStatus_setStatusFlags : (t.setStatusFlags n u).nodeStatus m =
    if m.hash = n.hash then u (t.nodeStatus m) else t.nodeStatus m := by
  grind [nodeStatus_congr, nodeStatus, setStatusFlags, Bucket.get_put_of_ne]

theorem setAllStatusFlags_frame (t : ChainTree) (ns : List BlockNode)
    (u : BlockStatus → BlockStatus) : (t.setAllStatusFlags ns u).nodes = t.nodes ∧
    (t.setAllStatusFlags ns u).tip = t.tip ∧ (t.setAllStatusFlags ns u).orphans = t.orphans := by
  induction ns generalizing t with
  | nil => exact ⟨rfl, rfl, rfl⟩
  | cons n ns ih => exact ih (t.setStatusFlags n u)

theorem nodeStatus_setAllStatusFlags (hu : ∀ s, u (u s) = u s) :
    (t.setAllStatusFlags ns u).nodeStatus m =
      if ∃ n ∈ ns, m.hash = n.hash then u (t.nodeStatus m) else t.nodeStatus m := by
  induction ns generalizing t with
  | nil => simp [setAllStatusFlags]
  | cons n ns ih =>
    have hstep : t.setAllStatusFlags (n :: ns) u = (t.setStatusFlags n u).setAllStatusFlags ns u :=
      rfl
    rw [hstep, ih, nodeStatus_setStatusFlags]
    by_cases hn : m.hash = n.hash <;> by_cases hns : ∃ n ∈ ns, m.hash = n.hash <;>
      simp [hn, hns, hu]

end Marks

/-- Between the two states some blocks, given by their hashes, were marked
invalid, and the tree is otherwise the same. -/
structure Marked (t t' : ChainTree) (bad : Hash → Prop) : Prop where
  nodes   : t'.nodes = t.nodes
  tip     : t'.tip = t.tip
  orphans : t'.orphans = t.orphans
  invalid : ∀ m, t'.knownInvalid m = true ↔ t.knownInvalid m = true ∨ bad m.hash

theorem Marked.none (t : ChainTree) : Marked t t fun _ => False :=
  ⟨rfl, rfl, rfl, fun _ => (iff_of_eq (or_false _)).symm⟩

theorem Marked.trans {t₁ t₂ t₃ : ChainTree} {bad' : Hash → Prop} (h : Marked t₁ t₂ bad)
    (h' : Marked t₂ t₃ bad') : Marked t₁ t₃ fun x => bad x ∨ bad' x where
  nodes := h'.nodes.trans h.nodes
  tip := h'.tip.trans h.tip
  orphans := h'.orphans.trans h.orphans
  invalid m := by rw [h'.invalid, h.invalid, or_assoc]

theorem Marked.congr {bad' : Hash → Prop} (h : Marked t t' bad) (hb : ∀ x, bad x ↔ bad' x) :
    Marked t t' bad' :=
  { h with invalid := fun m => by rw [h.invalid, hb] }

theorem marked_setValid (t : ChainTree) (n : BlockNode) :
    Marked t (t.setStatusFlags n .setValid) fun _ => False := by
  refine ⟨rfl, rfl, rfl, fun m => ?_⟩
  rw [or_false, knownInvalid, knownInvalid, nodeStatus_setStatusFlags]
  split <;> rfl

theorem marked_setValidateFailed (t : ChainTree) (n : BlockNode) :
    Marked t (t.setStatusFlags n .setValidateFailed) fun x => x = n.hash := by
  refine ⟨rfl, rfl, rfl, fun m => ?_⟩
  rw [knownInvalid, knownInvalid, nodeStatus_setStatusFlags]
  split
  case isTrue h => simp [h, BlockStatus.knownInvalid, BlockStatus.setValidateFailed]
  case isFalse h => simp [h]

theorem marked_unsetValid (t : ChainTree) (n : BlockNode) :
    Marked t (t.setStatusFlags n .unsetValid) fun _ => False := by
  refine ⟨rfl, rfl, rfl, fun m => ?_⟩
  rw [or_false, knownInvalid, knownInvalid, nodeStatus_setStatusFlags]
  split <;> rfl

theorem marked_setInvalidAncestor (t : ChainTree) (ns : List BlockNode) :
    Marked t (t.setAllStatusFlags ns .setInvalidAncestor) fun x => ∃ n ∈ ns, x = n.hash := by
  obtain ⟨hnodes, htip, horphans⟩ := setAllStatusFlags_frame t ns
    .setInvalidAncestor
  refine ⟨hnodes, htip, horphans, fun m => ?_⟩
  rw [knownInvalid, knownInvalid,
    nodeStatus_setAllStatusFlags (u := .setInvalidAncestor) fun _ => rfl]
  split
  case isTrue h => simp [h, BlockStatus.knownInvalid, BlockStatus.setInvalidAncestor]
  case isFalse h => simp [h]

theorem marked_foldl {α : Type} (step : ChainTree → α → ChainTree) (bad : α → Hash → Prop)
    (hstep : ∀ t a, Marked t (step t a) (bad a)) (as : List α) (t : ChainTree) :
    Marked t (as.foldl step t) fun x => ∃ a ∈ as, bad a x := by
  induction as generalizing t with
  | nil => exact (Marked.none t).congr fun _ => by simp
  | cons a as ih => exact ((hstep t a).trans (ih _)).congr fun _ => by simp

theorem Marked.mono (h : Marked t t' bad) (hm : t.knownInvalid m = true) :
    t'.knownInvalid m = true :=
  (h.invalid m).mpr (.inl hm)

theorem Marked.clean_iff (h : Marked t t' bad) :
    t'.Clean n ↔ t.Clean n ∧ ∀ m : BlockNode, m.OnPath n → ¬ bad m.hash := by
  simp only [ChainTree.clean_iff, Bool.eq_false_iff, ne_eq, h.invalid, not_or]
  exact ⟨fun hc => ⟨fun m hm => (hc m hm).1, fun m hm => (hc m hm).2⟩,
    fun hc m hm => ⟨hc.1 m hm, hc.2 m hm⟩⟩

theorem TreeOk.marked (ht : TreeOk g t) (h : Marked t t' bad)
    (hoff : ∀ m : BlockNode, m.OnPath t.tip → ¬ bad m.hash) : TreeOk g t' where
  rooted := h.nodes ▸ ht.rooted
  closed := h.nodes ▸ ht.closed
  unique := h.nodes ▸ ht.unique
  tip_mem := by
    rw [h.tip, h.nodes]
    exact ht.tip_mem
  tip_clean := by
    rw [h.tip]
    exact h.clean_iff.mpr ⟨ht.tip_clean, hoff⟩

theorem TreeOk.withTip (ht : TreeOk g t) (hn : n ∈ t.nodes) (hc : t.Clean n) :
    TreeOk g { t with tip := n } :=
  { ht with tip_mem := hn, tip_clean := hc }

/-! ## Reorganizing -/

theorem checkAttachAll_cases (v : Verdicts) (t : ChainTree) (ns : List BlockNode) :
    (∃ t', checkAttachAll v t ns = (t', .ok ()) ∧ Marked t t' fun _ => False) ∨
    ∃ t' e pre n post, checkAttachAll v t ns = (t', .error e) ∧ ns = pre ++ n :: post ∧
      v.connect n.hash ≠ none ∧ Marked t t' fun x => ∃ k ∈ n :: post, x = k.hash := by
  induction ns generalizing t with
  | nil => exact .inl ⟨t, rfl, .none t⟩
  | cons n ns ih =>
    -- a block that passes sets no mark, and the rest decides
    have hpass : ∀ t₁, Marked t t₁ (fun _ => False) →
        checkAttachAll v t (n :: ns) = checkAttachAll v t₁ ns →
        (∃ t', checkAttachAll v t (n :: ns) = (t', .ok ()) ∧ Marked t t' fun _ => False) ∨
        ∃ t' e pre k post, checkAttachAll v t (n :: ns) = (t', .error e) ∧
          n :: ns = pre ++ k :: post ∧ v.connect k.hash ≠ none ∧
          Marked t t' fun x => ∃ j ∈ k :: post, x = j.hash := by
      intro t₁ hm heq
      rw [heq]
      rcases ih t₁ with ⟨t', hr, hm'⟩ | ⟨t', e, pre, k, post, hr, hns, hk, hm'⟩
      · exact .inl ⟨t', hr, (hm.trans hm').congr fun _ => by simp⟩
      · refine .inr ⟨t', e, n :: pre, k, post, hr, by rw [hns, cons_append], hk, ?_⟩
        exact (hm.trans hm').congr fun _ => by simp
    by_cases hvalid : (t.nodeStatus n).knownValid = true
    · exact hpass t (.none t) (by rw [checkAttachAll, if_pos hvalid])
    · cases hv : v.connect n.hash with
      | none =>
        exact hpass _ (marked_setValid t n) (by rw [checkAttachAll, if_neg hvalid]; simp [hv])
      | some r =>
        obtain ⟨code, msg⟩ := r
        refine .inr ⟨_, .rule code msg, [], n, ns, ?_, rfl, by simp [hv],
          ((marked_setValidateFailed t n).trans (marked_setInvalidAncestor _ ns)).congr
            fun _ => by simp⟩
        rw [checkAttachAll, if_neg hvalid]
        simp [hv]

theorem detachAll_eq (h : f.OnPath t.tip) :
    t.detachAll (BlockChain.nodesAbove (some f) t.tip.chain) = ({ t with tip := f }, .ok ()) := by
  obtain ⟨tip, htip⟩ : ∃ tip, t.tip = tip := ⟨_, rfl⟩
  rw [htip] at h ⊢
  induction h using BlockNode.OnPath.induction generalizing t with
  | self =>
    rw [BlockNode.nodesAbove_self, detachAll, ← htip]
  | child n p hp hf ih =>
    rw [BlockNode.nodesAbove_of_parent hp hf, detachAll, if_neg (by simp [htip]), hp]
    exact ih (t := { t with tip := p }) rfl

theorem attachAll_append {t₁ : ChainTree} {as : List BlockNode} (h : t.attachAll as = (t₁, .ok ()))
    (bs : List BlockNode) : t.attachAll (as ++ bs) = t₁.attachAll bs := by
  induction as generalizing t with
  | nil =>
    cases h
    rfl
  | cons a as ih => grind [attachAll]

theorem attachAll_eq (h : f.OnPath n) (ht : t.tip = f) :
    t.attachAll (BlockChain.nodesAbove (some f) n.chain).reverse = ({ t with tip := n }, .ok ()) := by
  induction h using BlockNode.OnPath.induction with
  | self =>
    rw [BlockNode.nodesAbove_self, reverse_nil, attachAll, ← ht]
  | child n p hp hf ih =>
    rw [BlockNode.nodesAbove_of_parent hp hf, reverse_cons, attachAll_append ih, attachAll,
      if_neg (by simp [hp]), attachAll]

/-- For a detachment down to the fork, with blocks to attach that start there,
only the blocks to attach are checked. -/
theorem verifyReorganizationValidity_eq (hf : f.OnPath t.tip) {attach : List BlockNode}
    (ha : ∀ c, attach.head? = some c → c.parent = some f) :
    t.verifyReorganizationValidity v (BlockChain.nodesAbove (some f) t.tip.chain) attach =
      checkAttachAll v t attach := by
  have hhead : ¬ ((BlockChain.nodesAbove (some f) t.tip.chain).head?.any
      fun n => n.hash ≠ t.tip.hash) = true := by
    rcases BlockNode.head_nodesAbove hf with h | h <;> simp [h]
  have hfork : ¬ (attach ≠ [] ∧ BlockChain.nodesAbove (some f) t.tip.chain ≠ [] ∧
      (attach.head?.bind BlockNode.parent).map BlockNode.hash ≠
        ((BlockChain.nodesAbove (some f) t.tip.chain).getLast?.bind BlockNode.parent).map
          BlockNode.hash) := by
    rintro ⟨hattach, hdetach, hne⟩
    obtain ⟨c, hc⟩ := Option.ne_none_iff_exists'.mp (mt head?_eq_none_iff.mp hattach)
    obtain ⟨d, hd⟩ := Option.ne_none_iff_exists'.mp (mt getLast?_eq_none_iff.mp hdetach)
    rw [hc, hd] at hne
    exact hne (by simp [ha c hc, BlockNode.parent_getLast_nodesAbove hf hd])
  rw [verifyReorganizationValidity, if_neg hhead, if_neg hfork]

theorem reorganizeChain_eq (hf : f.OnPath t.tip) {attach : List BlockNode}
    (ha : ∀ c, attach.head? = some c → c.parent = some f) :
    t.reorganizeChain v (BlockChain.nodesAbove (some f) t.tip.chain) attach =
      match checkAttachAll v t attach with
      | (t₁, .error e) => (t₁, .error e)
      | (t₁, .ok ()) => ({ t₁ with tip := f } : ChainTree).attachAll attach := by
  rw [reorganizeChain, verifyReorganizationValidity_eq hf ha]
  rcases checkAttachAll_cases v t attach with ⟨t₁, hr, hm⟩ | ⟨t₁, e, -, -, -, hr, -⟩
  · grind [hm.tip, detachAll_eq]
  · simp only [hr]

theorem reorganizeChain_nil (v : Verdicts) (t : ChainTree) :
    t.reorganizeChain v [] [] = (t, .ok ()) := by
  simp [reorganizeChain, verifyReorganizationValidity, checkAttachAll, detachAll, attachAll]

theorem reorganizeChain_detach (hf : f.OnPath t.tip) :
    t.reorganizeChain v (BlockChain.nodesAbove (some f) t.tip.chain) [] =
      ({ t with tip := f }, .ok ()) := by
  rw [reorganizeChain_eq hf (by simp), checkAttachAll]
  rfl

theorem parent_head_attach (hn : f.OnPath n) (c : BlockNode)
    (hc : (BlockChain.nodesAbove (some f) n.chain).reverse.head? = some c) : c.parent = some f := by
  rw [head?_reverse] at hc
  exact BlockNode.parent_getLast_nodesAbove hn hc

/-- A reorganization to a block: it becomes the tip, or it is marked with part
of its branch. -/
theorem reorganizeChain_cases (v : Verdicts) (hf : f.OnPath t.tip) (hn : f.OnPath n) :
    (∃ t₁, t.reorganizeChain v (BlockChain.nodesAbove (some f) t.tip.chain)
        (BlockChain.nodesAbove (some f) n.chain).reverse = ({ t₁ with tip := n }, .ok ()) ∧
      Marked t t₁ fun _ => False) ∨
    ∃ (t₁ : ChainTree) (e : Err) (bad : List BlockNode), t.reorganizeChain v (BlockChain.nodesAbove (some f) t.tip.chain)
        (BlockChain.nodesAbove (some f) n.chain).reverse = (t₁, .error e) ∧ n ∈ bad ∧
      (∀ k ∈ bad, k.OnPath n ∧ ¬ k.OnPath f) ∧ (∃ k ∈ bad, v.connect k.hash ≠ none) ∧
      Marked t t₁ fun x => ∃ k ∈ bad, x = k.hash := by
  rw [reorganizeChain_eq hf (parent_head_attach hn)]
  rcases checkAttachAll_cases v t (BlockChain.nodesAbove (some f) n.chain).reverse with
    ⟨t₁, hr, hm⟩ | ⟨t₁, e, pre, k, post, hr, hsplit, hk, hm⟩
  · exact .inl ⟨t₁, by simp only [hr]; exact attachAll_eq hn rfl, hm⟩
  · have hmem : ∀ j ∈ k :: post, j.OnPath n ∧ ¬ j.OnPath f := by
      intro j hj
      rw [← BlockNode.mem_nodesAbove hn, ← mem_reverse, hsplit]
      exact mem_append_right _ hj
    -- the block itself comes last, so it is among those that are marked
    have hlast : n ∈ k :: post := by
      have hgl := congrArg getLast? hsplit
      rw [getLast?_reverse, getLast?_append_cons] at hgl
      rcases BlockNode.head_nodesAbove hn with h | h
      · rw [h] at hgl
        exact absurd hgl.symm (by simp [getLast?_eq_none_iff])
      · rw [h] at hgl
        exact mem_of_getLast? hgl.symm
    exact .inr ⟨t₁, e, k :: post, by simp only [hr], hlast, hmem, ⟨k, mem_cons_self, hk⟩, hm⟩

/-- The blocks from `n` down to the first one known to be invalid, which is left
out. -/
def unwound (t : ChainTree) (n : BlockNode) : List BlockNode :=
  n.path.takeWhile fun k => !t.knownInvalid k

theorem mem_unwound : m ∈ t.unwound n ↔
    m.OnPath n ∧ ∀ k : BlockNode, m.OnPath k → k.OnPath n → t.knownInvalid k = false := by
  suffices h : ∀ c : List HeaderInfo,
      m ∈ (BlockChain.nodesAbove none c).takeWhile (fun k => !t.knownInvalid k) ↔
        m.chain <:+ c ∧ ∀ k : BlockNode, m.OnPath k → k.chain <:+ c → t.knownInvalid k = false from
    h n.chain
  intro c
  induction c with
  | nil => simp [BlockChain.nodesAbove, BlockNode.chain]
  | cons i is ih =>
    have htop : ∀ k : BlockNode, k.chain <:+ i :: is ↔ k = ⟨i, is⟩ ∨ k.chain <:+ is := by
      intro k
      rw [suffix_cons_iff]
      exact or_congr ⟨BlockNode.chain_injective (n := ⟨i, is⟩), fun h => h ▸ rfl⟩ Iff.rfl
    rw [BlockChain.nodesAbove, if_neg (by simp), takeWhile_cons]
    simp only [htop]
    cases hinv : t.knownInvalid ⟨i, is⟩ with
    | true =>
      simp only [Bool.not_true, Bool.false_eq_true, if_false, not_mem_nil, false_iff, not_and]
      intro hm hall
      have hmi : m.OnPath ⟨i, is⟩ := (htop m).mpr hm
      rw [hall _ hmi (.inl rfl)] at hinv
      cases hinv
    | false =>
      simp only [Bool.not_false, if_true, mem_cons, ih]
      constructor
      · rintro (rfl | ⟨hm, hall⟩)
        · refine ⟨.inl rfl, fun k hk => ?_⟩
          rintro (rfl | hki)
          · exact hinv
          · have := (List.IsSuffix.trans hk hki).length_le
            simp only [BlockNode.chain, length_cons] at this
            omega
        · grind
      · grind

theorem TreeOk.unwound_off (ht : TreeOk g t) (hn : ¬ t.Clean n) (hm : m ∈ t.unwound n) :
    ¬ m.OnPath t.tip := by
  intro htip
  obtain ⟨hmn, hall⟩ := mem_unwound.mp hm
  refine hn (clean_iff.mpr fun k hk => ?_)
  rcases hk.total hmn with h | h
  · exact clean_iff.mp ht.tip_clean k (h.trans htip)
  · exact hall k h hk

/-- `getReorganizeNodes` gives the two sides of the fork if nothing on the path
of the block is known to be invalid; if not, it gives nothing and marks the
blocks above. -/
theorem getReorganizeNodes_cases (ht : TreeOk g t) (hn : n ∈ t.nodes) :
    (t.Clean n ∧ ∃ f : BlockNode, f.OnPath t.tip ∧ f.OnPath n ∧
      (∀ m : BlockNode, m.OnPath n → m.OnPath t.tip → m.OnPath f) ∧
      t.getReorganizeNodes n = (t, BlockChain.nodesAbove (some f) t.tip.chain,
        (BlockChain.nodesAbove (some f) n.chain).reverse)) ∨
    (¬ t.Clean n ∧ ∃ t₁, t.getReorganizeNodes n = (t₁, [], []) ∧
      Marked t t₁ fun x => ∃ k ∈ t.unwound n, x = k.hash) := by
  obtain ⟨f, hfork, hfn, hft, hmax⟩ := BlockNode.findFork_spec (ht.rooted _ ht.tip_mem)
    (ht.rooted n hn)
  have hfclean : t.Clean f := ht.tip_clean.of_onPath hft
  by_cases hparent : n.parent.any t.knownInvalid = true
  · obtain ⟨p, hp, hinv⟩ := (Option.any_eq_true _ _).mp hparent
    have hdirty : ¬ t.Clean n := fun hc => by
      rw [clean_iff.mp hc p (BlockNode.parent_onPath hp)] at hinv
      cases hinv
    refine .inr ⟨hdirty, _, by rw [getReorganizeNodes, if_pos hparent], ?_⟩
    have hmark : Marked t (t.setStatusFlags n .setInvalidAncestor) _ :=
      marked_setInvalidAncestor t [n]
    refine { hmark with invalid := fun m => ?_ }
    rw [hmark.invalid, unwound, BlockNode.path_of_parent hp, takeWhile_cons]
    cases hself : t.knownInvalid n with
    | true =>
      -- the block was known to be invalid itself
      refine ⟨?_, fun h => h.imp_right fun h => by simp at h⟩
      rintro (h | ⟨k, hk, hmk⟩)
      · exact .inl h
      · rw [mem_singleton.mp hk] at hmk
        refine .inl ?_
        rwa [knownInvalid, nodeStatus_congr hmk]
    | false =>
      have hrest : p.path.takeWhile (fun k => !t.knownInvalid k) = [] := by
        obtain ⟨rest, hrest⟩ : ∃ rest, p.path = p :: rest := by
          cases p
          exact ⟨_, rfl⟩
        rw [hrest, takeWhile_cons]
        simp [hinv]
      simp [hrest]
  · have hbranch : (BlockChain.nodesAbove (some f) n.chain).any t.knownInvalid = true ↔
        ¬ t.Clean n := by
      grind [clean_iff, BlockNode.mem_nodesAbove]
    by_cases hc : t.Clean n
    · grind [getReorganizeNodes]
    · have hshort : ((BlockChain.nodesAbove (some f) n.chain).takeWhile
          fun k => !t.knownInvalid k) = t.unwound n := by
        rw [unwound, BlockNode.path_eq hfn, takeWhile_append, if_neg]
        intro hlen
        have hall := ( takeWhile_prefix _).eq_of_length hlen
        rw [takeWhile_eq_self_iff] at hall
        obtain ⟨k, hk, hinv⟩ := any_eq_true.mp (hbranch.mpr hc)
        simpa [hinv] using hall k hk
      refine .inr ⟨hc, t.setAllStatusFlags (t.unwound n).reverse .setInvalidAncestor, ?_, ?_⟩
      · rw [getReorganizeNodes, if_neg hparent, hfork, ← hshort]
        exact if_pos (hbranch.mpr hc)
      · exact (marked_setInvalidAncestor t _).congr fun x => by simp only [mem_reverse]

end ChainTree

end FalconDraw.Chain
