/-
FalconDraw.Mempool.OrphanTheorems — which orphans an accepted transaction leaves.

An orphan that is tried and kept lacks a coin, and goes on lacking it until the
transaction that brings the coin is itself on the list.
-/
import FalconDraw.Mempool.OrphanIndexTheorems
import FalconDraw.Mempool.ReplacementTheorems

namespace FalconDraw.Mempool

open Lib Wire Draw Chain Mining List

variable {txs : List Tx}

/-! ## Orphans that are passed over -/

section

variable (accept : TxPool → Tx → Admission Accepted) (order : MapOrder)

def passedOver (mp : TxPool) : List Tx → List Tx
  | [] => []
  | tx :: txs =>
      match accept mp tx with
      | .error _ => txs
      | .ok (.missing _) => passedOver mp txs
      | .ok (.added _ _) => []

def passedOverOutputs : TxPool → List OutPoint → List Tx
  | _, [] => []
  | mp, prevOut :: ops =>
      passedOver accept mp (mp.orphansOf order prevOut) ++
        match acceptOrphan accept order mp (mp.orphansOf order prevOut) with
        | none => []
        | some r => passedOverOutputs r.1 ops

def passedOverList : Nat → TxPool → List Tx → List Tx
  | _, _, [] => []
  | 0, _, _ :: _ => []
  | rounds + 1, mp, item :: items =>
      passedOverOutputs accept order mp (outPoints item) ++
        match processOutputs accept order mp (outPoints item) with
        | none => []
        | some r => passedOverList rounds r.1 (items ++ r.2.map TxDesc.tx)

end

/-! ## Trying an orphan -/

variable {cfg : Config} {chain : ChainState} {order : MapOrder} {free : Hash → Bool}
  {mp mp' : TxPool} {tx : Tx}

theorem tryOrphan_missing {parents : List Hash}
    (h : tryOrphan cfg chain free mp tx = .ok (.missing parents)) : Lacks chain mp tx := by
  simp only [tryOrphan, maybeAcceptTransaction, bind_eq_ok] at h
  obtain ⟨r, hcheck, h⟩ := h
  cases r with
  | missing ps => exact checkMempoolAcceptance_missing hcheck
  | valid txFee conflicts view =>
    simp only at h
    split at h <;> cases h

theorem tryOrphan_added_not_lacks {txD : TxDesc}
    (h : tryOrphan cfg chain free mp tx = .ok (.added mp' txD)) : ¬ Lacks chain mp tx := by
  obtain ⟨_, _, _, hadm, _⟩ := maybeAcceptTransaction_added h
  exact hadm.not_lacks

theorem Lacks.accepted {txD : TxDesc} {other : Tx} (hlacks : Lacks chain mp other)
    (h : tryOrphan cfg chain free mp tx = .ok (.added mp' txD)) :
    Lacks chain mp' other ∨ ∃ op ∈ outPoints tx, op ∈ spends other := by
  obtain ⟨op, hop, hout, hnone⟩ := hlacks
  obtain ⟨hchain, hpool⟩ := Option.or_eq_none_iff.mp hnone
  cases hcoin : poolCoin mp' op with
  | none => exact Or.inl ⟨op, hop, hout, Option.or_eq_none_iff.mpr ⟨hchain, hcoin⟩⟩
  | some c =>
    right
    obtain ⟨d, hd, hhash, hout⟩ := poolCoin_eq_some hcoin
    obtain ⟨txFee, conflicts, view, _, heq⟩ := maybeAcceptTransaction_added h
    rw [show mp' = _ from congrArg Prod.fst heq, TxPool.addTransaction, countStake_pool] at hd
    rcases Keyed.mem_insert.mp hd with rfl | ⟨hd, _⟩
    · exact ⟨op, mem_outPoints_of_outputCoin hout, hop⟩
    · -- an output of the old pool would have been found before
      have hold : poolCoin mp op = some c := by
        rw [poolCoin, Keyed.find?_eq_some.mpr ⟨(mem_foldl_drop.mp hd).1, hhash⟩]
        exact hout
      rw [hpool] at hold
      cases hold

theorem tryOrphan_tx {txD : TxDesc} (h : tryOrphan cfg chain free mp tx = .ok (.added mp' txD)) :
    txD.tx = tx := by
  obtain ⟨_, _, _, _, heq⟩ := maybeAcceptTransaction_added h
  rw [show txD = _ from congrArg Prod.snd heq, TxPool.addTransaction]

theorem Lacks.of_left {other : Tx} (h : Lacks chain mp other) (hleft : OrphansLeft mp mp') :
    Lacks chain mp' other := by
  obtain ⟨op, hop, hout, hnone⟩ := h
  refine ⟨op, hop, hout, ?_⟩
  rwa [poolCoin, hleft.pool]

theorem acceptOrphan_cases {accept : TxPool → Tx → Admission Accepted}
    {r : Option TxDesc} (h : acceptOrphan accept order mp txs = some (mp', r)) :
    ∃ before rest, txs = before ++ rest ∧
      (∀ t ∈ before, ∃ parents, accept mp t = .ok (.missing parents)) ∧
      (rest = [] ∧ r = none ∧ mp' = mp ∨
        (∃ t after, rest = t :: after ∧ passedOver accept mp txs = after ∧ r = none ∧
          mp' = TxPool.removeOrphan order mp t true) ∨
        ∃ t after mp₁ txD, rest = t :: after ∧ accept mp t = .ok (.added mp₁ txD) ∧ r = some txD ∧
          mp' = TxPool.removeOrphan order mp₁ t false) := by
  induction txs with
  | nil =>
    obtain ⟨rfl, rfl⟩ := Prod.mk.inj (Option.some.inj h)
    exact ⟨[], [], rfl, by simp, Or.inl ⟨rfl, rfl, rfl⟩⟩
  | cons t txs ih =>
    rw [acceptOrphan] at h
    rw [passedOver]
    cases haccept : accept mp t with
    | error e =>
      rw [haccept] at h
      dsimp only at h
      split at h
      · cases h
      · obtain ⟨rfl, rfl⟩ := Prod.mk.inj (Option.some.inj h)
        exact ⟨[], t :: txs, rfl, by simp, Or.inr (Or.inl ⟨t, txs, rfl, rfl, rfl, rfl⟩)⟩
    | ok a =>
      cases a with
      | missing parents => grind
      | added mp₁ txD =>
        rw [haccept] at h
        obtain ⟨rfl, rfl⟩ := Prod.mk.inj (Option.some.inj h)
        exact ⟨[], t :: txs, rfl, by simp, Or.inr (Or.inr ⟨t, txs, mp₁, txD, rfl, haccept, rfl, rfl⟩)⟩

/-! ## The list -/

/-- Why an orphan that waits for one of the accepted transactions may be left alone: it will be
tried at a pending output, it was passed over, it is a double spend, or it lacks a coin. -/
def Excused (chain : ChainState) (skipped : Tx → Prop) (accepted : List Tx) (pending : List OutPoint)
    (mp : TxPool) (tx : Tx) : Prop :=
  (∃ op ∈ pending, op ∈ spends tx) ∨ skipped tx ∨ (∃ a ∈ accepted, Conflicts a tx) ∨ Lacks chain mp tx

/-- The transaction spends an output of one of these. -/
def WaitsFor (accepted : List Tx) (tx : Tx) : Prop :=
  ∃ a ∈ accepted, ∃ op ∈ outPoints a, op ∈ spends tx

/-- Every orphan that waits for an accepted transaction is excused. -/
structure Attended (chain : ChainState) (skipped : Tx → Prop) (accepted : List Tx)
    (pending : List OutPoint) (mp : TxPool) : Prop where
  indexed : Indexed mp
  excused : ∀ o ∈ mp.orphans, WaitsFor accepted o.tx →
    Excused chain skipped accepted pending mp o.tx

variable {skipped : Tx → Prop} {accepted : List Tx} {pending : List OutPoint}

namespace Attended

theorem acceptOrphan {op : OutPoint} {r : Option TxDesc}
    (h : Attended chain skipped accepted (op :: pending) mp)
    (hrun : acceptOrphan (tryOrphan cfg chain free) order mp (mp.orphansOf order op) = some (mp', r))
    (hskip : ∀ t ∈ passedOver (tryOrphan cfg chain free) mp (mp.orphansOf order op), skipped t) :
    Attended chain skipped (accepted ++ r.toList.map TxDesc.tx)
      (pending ++ r.toList.flatMap fun d => outPoints d.tx) mp' := by
  obtain ⟨before, rest, hsplit, hbefore, hcases⟩ := acceptOrphan_cases hrun
  -- an orphan that waits for this output is in the list
  have hwaits : ∀ o ∈ mp.orphans, op ∈ spends o.tx → o.tx ∈ before ∨ o.tx ∈ rest := by
    intro o ho hop
    rw [← mem_append, ← hsplit, mem_orphansOf]
    exact (h.indexed op o.tx).mpr ⟨⟨o, ho, rfl⟩, hop⟩
  have hlacks : ∀ t ∈ before, Lacks chain mp t := by
    intro t ht
    obtain ⟨parents, hmissing⟩ := hbefore t ht
    exact tryOrphan_missing hmissing
  rcases hcases with ⟨rfl, rfl, rfl⟩ | ⟨t, after, rfl, hpassed, rfl, rfl⟩ |
    ⟨t, after, mp₁, txD, rfl, hadded, rfl, rfl⟩
  · -- all of them still lack a coin
    refine ⟨h.indexed, fun o ho hwait => ?_⟩
    simp only [Option.toList_none, map_nil, flatMap_nil, append_nil] at hwait ⊢
    rcases h.excused o ho hwait with ⟨op', hop', hspends⟩ | hexcuse
    · rcases mem_cons.mp hop' with rfl | hop'
      · exact Or.inr (Or.inr (Or.inr (hlacks _ ((hwaits o ho hspends).resolve_right
          not_mem_nil))))
      · exact Or.inl ⟨op', hop', hspends⟩
    · exact Or.inr hexcuse
  · -- one was refused and removed, those after it are passed over
    have hleft := removeOrphan_left order mp t true
    refine ⟨h.indexed.removeOrphan t true, fun o ho hwait => ?_⟩
    simp only [Option.toList_none, map_nil, flatMap_nil, append_nil] at hwait ⊢
    rcases h.excused o (hleft.orphans o ho) hwait with ⟨op', hop', hspends⟩ | hskip' | hconf | hlack
    · rcases mem_cons.mp hop' with rfl | hop'
      · rcases hwaits o (hleft.orphans o ho) hspends with hin | hin
        · exact Or.inr (Or.inr (Or.inr ((hlacks _ hin).of_left hleft)))
        · rcases mem_cons.mp hin with heq | hin
          · exact absurd (congrArg Tx.hash heq) (removeOrphan_gone ho)
          · exact Or.inr (Or.inl (hskip _ (hpassed ▸ hin)))
      · exact Or.inl ⟨op', hop', hspends⟩
    · exact Or.inr (Or.inl hskip')
    · exact Or.inr (Or.inr (Or.inl hconf))
    · exact Or.inr (Or.inr (Or.inr (hlack.of_left hleft)))
  · -- one was accepted: its outputs are pending, the others that wait here are double spends
    obtain ⟨hspends, htx⟩ : op ∈ spends t ∧ txD.tx = t := by
      have hin : t ∈ mp.orphansOf order op := hsplit ▸ mem_append_right _ mem_cons_self
      exact ⟨((h.indexed op t).mp (mem_orphansOf.mp hin)).2, tryOrphan_tx hadded⟩
    have hsame := maybeAcceptTransaction_sameOrphans hadded
    have hleft := removeOrphan_left order mp₁ t false
    refine ⟨(h.indexed.of_same hsame).removeOrphan t false, fun o ho hwait => ?_⟩
    have ho' : o ∈ mp.orphans := hsame.orphans ▸ hleft.orphans o ho
    simp only [Option.toList_some, map_cons, map_nil, flatMap_cons, flatMap_nil,
      append_nil, htx] at hwait ⊢
    obtain ⟨a, ha, hwait⟩ := hwait
    rcases mem_append.mp ha with ha | ha
    · rcases h.excused o ho' ⟨a, ha, hwait⟩ with ⟨op', hop', hspends'⟩ | hskip' | hconf | hlack
      · rcases mem_cons.mp hop' with rfl | hop'
        · exact Or.inr (Or.inr (Or.inl ⟨t, by simp, op', hspends, hspends'⟩))
        · exact Or.inl ⟨op', mem_append_left _ hop', hspends'⟩
      · exact Or.inr (Or.inl hskip')
      · obtain ⟨c, hc, hconf⟩ := hconf
        exact Or.inr (Or.inr (Or.inl ⟨c, mem_append_left _ hc, hconf⟩))
      · rcases hlack.accepted hadded with hlack | ⟨op', hop', hspends'⟩
        · exact Or.inr (Or.inr (Or.inr (hlack.of_left hleft)))
        · exact Or.inl ⟨op', mem_append_right _ hop', hspends'⟩
    · obtain rfl := mem_singleton.mp ha
      obtain ⟨op', hop', hspends'⟩ := hwait
      exact Or.inl ⟨op', mem_append_right _ hop', hspends'⟩

theorem processOutputs {ops : List OutPoint} {found : List TxDesc}
    (h : Attended chain skipped accepted (ops ++ pending) mp)
    (hrun : processOutputs (tryOrphan cfg chain free) order mp ops = some (mp', found))
    (hskip : ∀ t ∈ passedOverOutputs (tryOrphan cfg chain free) order mp ops, skipped t) :
    Attended chain skipped (accepted ++ found.map TxDesc.tx)
      (pending ++ found.flatMap fun d => outPoints d.tx) mp' := by
  induction ops generalizing mp accepted pending found with
  | nil =>
    obtain ⟨rfl, rfl⟩ := Prod.mk.inj (Option.some.inj hrun)
    simpa using h
  | cons op ops ih =>
    rw [Mempool.processOutputs] at hrun
    obtain ⟨⟨mp₁, r⟩, h₁, hrun⟩ := Option.bind_eq_some_iff.mp hrun
    obtain ⟨⟨mp₂, rest⟩, h₂, hrun⟩ := Option.bind_eq_some_iff.mp hrun
    obtain ⟨rfl, rfl⟩ := Prod.mk.inj (Option.some.inj hrun)
    rw [passedOverOutputs, h₁] at hskip
    rw [cons_append] at h
    have hfirst := h.acceptOrphan h₁ fun t ht => hskip t (mem_append_left _ ht)
    rw [append_assoc] at hfirst
    have hrest := ih hfirst h₂ fun t ht => hskip t (mem_append_right _ ht)
    simpa [append_assoc] using hrest

theorem processList {rounds : Nat} {items : List Tx} {found : List TxDesc}
    (h : Attended chain skipped accepted (items.flatMap outPoints) mp)
    (hrun : processList (tryOrphan cfg chain free) order rounds mp items = some (mp', found))
    (hskip : ∀ t ∈ passedOverList (tryOrphan cfg chain free) order rounds mp items, skipped t) :
    Attended chain skipped (accepted ++ found.map TxDesc.tx) [] mp' := by
  induction rounds generalizing items mp accepted found with
  | zero =>
    cases items with
    | nil =>
      obtain ⟨rfl, rfl⟩ := Prod.mk.inj (Option.some.inj hrun)
      simpa using h
    | cons item items => cases hrun
  | succ rounds ih =>
    cases items with
    | nil =>
      obtain ⟨rfl, rfl⟩ := Prod.mk.inj (Option.some.inj hrun)
      simpa using h
    | cons item items =>
      rw [Mempool.processList] at hrun
      obtain ⟨⟨mp₁, found₁⟩, h₁, hrun⟩ := Option.bind_eq_some_iff.mp hrun
      obtain ⟨⟨mp₂, found₂⟩, h₂, hrun⟩ := Option.bind_eq_some_iff.mp hrun
      obtain ⟨rfl, rfl⟩ := Prod.mk.inj (Option.some.inj hrun)
      rw [passedOverList, h₁] at hskip
      rw [flatMap_cons] at h
      have hfirst := h.processOutputs h₁ fun t ht => hskip t (mem_append_left _ ht)
      have hpending : (items ++ found₁.map TxDesc.tx).flatMap outPoints =
          items.flatMap outPoints ++ found₁.flatMap fun d => outPoints d.tx := by
        rw [flatMap_append, flatMap_map]
      rw [← hpending] at hfirst
      have hrest := ih hfirst h₂ fun t ht => hskip t (mem_append_right _ ht)
      simpa [append_assoc] using hrest

end Attended

/-! ## Double spends -/

theorem foldl_removeOrphan_gone {o : OrphanTx}
    (ho : o ∈ (txs.foldl (fun mp t => TxPool.removeOrphan order mp t true) mp).orphans) :
    ∀ t ∈ txs, o.tx.hash ≠ t.hash := by
  induction txs generalizing mp with
  | nil => simp
  | cons t txs ih =>
    rw [foldl_cons] at ho
    rintro t' (_ | ⟨_, ht'⟩)
    · have hleft := OrphansLeft.foldl (fun mp t => removeOrphan_left order mp t true) txs
        (TxPool.removeOrphan order mp t true)
      exact removeOrphan_gone (hleft.orphans o ho)
    · exact ih ho t' ht'

theorem Indexed.foldl_removeOrphan (h : Indexed mp) (txs : List Tx) :
    Indexed (txs.foldl (fun mp t => TxPool.removeOrphan order mp t true) mp) :=
  foldlRecOn txs _ h fun _ hmp t _ => hmp.removeOrphan t true

theorem removeOrphanDoubleSpends_apart (h : Indexed mp) {o : OrphanTx}
    (ho : o ∈ (TxPool.removeOrphanDoubleSpends order mp tx).orphans) : ¬ Conflicts tx o.tx := by
  have hloop : ∀ (ops : List OutPoint) (mp : TxPool), Indexed mp →
      o ∈ (ops.foldl (fun mp op => (mp.orphansOf order op).foldl (fun mp t =>
        TxPool.removeOrphan order mp t true) mp) mp).orphans → ∀ op ∈ ops, op ∉ spends o.tx := by
    intro ops
    induction ops with
    | nil => simp
    | cons op ops ih =>
      intro mp h ho op' hop'
      rw [foldl_cons] at ho
      rcases mem_cons.mp hop' with rfl | hop'
      · intro hspends
        have hhere := (OrphansLeft.foldl (fun mp op => OrphansLeft.foldl (fun mp t =>
          removeOrphan_left order mp t true) (mp.orphansOf order op) mp) ops _).orphans o ho
        have hbefore := (OrphansLeft.foldl (fun mp t => removeOrphan_left order mp t true)
          (mp.orphansOf order op') mp).orphans o hhere
        exact foldl_removeOrphan_gone hhere o.tx
          (mem_orphansOf.mpr ((h op' o.tx).mpr ⟨⟨o, hbefore, rfl⟩, hspends⟩)) rfl
      · exact ih _ (h.foldl_removeOrphan _) ho op' hop'
  rintro ⟨op, hop, hspends⟩
  exact hloop (spends tx) mp h ho op hop hspends

theorem Indexed.removeOrphanDoubleSpends (h : Indexed mp) (tx : Tx) :
    Indexed (TxPool.removeOrphanDoubleSpends order mp tx) :=
  foldlRecOn (spends tx) _ h fun _ hmp _ _ => hmp.foldl_removeOrphan _

theorem foldl_removeOrphanDoubleSpends_apart (h : Indexed mp) {o : OrphanTx}
    (ho : o ∈ (txs.foldl (TxPool.removeOrphanDoubleSpends order) mp).orphans) :
    ∀ t ∈ txs, ¬ Conflicts t o.tx := by
  induction txs generalizing mp with
  | nil => simp
  | cons t txs ih =>
    rw [foldl_cons] at ho
    rintro t' (_ | ⟨_, ht'⟩)
    · have hleft := OrphansLeft.foldl (removeOrphanDoubleSpends_left order) txs
        (TxPool.removeOrphanDoubleSpends order mp t)
      exact removeOrphanDoubleSpends_apart h (hleft.orphans o ho)
    · exact ih (h.removeOrphanDoubleSpends t) ho t' ht'

/-! ## What is left -/

/-- The pool would take the transaction, as `processOrphans` tries it, with no limit on free
transactions. -/
def Ready (cfg : Config) (chain : ChainState) (mp : TxPool) (tx : Tx) : Prop :=
  ∃ mp' txD, tryOrphan cfg chain (fun _ => true) mp tx = .ok (.added mp' txD)

/-- An orphan of the pool that waits for one of the accepted transactions and is ready. -/
def ReadyOrphan (cfg : Config) (chain : ChainState) (accepted : List Tx) (mp : TxPool) (tx : Tx) :
    Prop :=
  Stored mp tx ∧ WaitsFor accepted tx ∧ Ready cfg chain mp tx

/-- No ready orphan is left behind, whatever the order, and the index is in step. -/
def LeavesNoReadyOrphan (cfg : Config) (chain : ChainState) (mp : TxPool) (tx : Tx) : Prop :=
  ∀ order mp' accepted,
    processOrphans cfg chain order mp tx (fun _ => true) = some (mp', accepted) →
      Indexed mp' ∧ ∀ t, ¬ ReadyOrphan cfg chain (tx :: accepted.map TxDesc.tx) mp' t

/-- No orphan that is passed over behind a refused one is left ready. -/
def PassesOverNoReadyOrphan (cfg : Config) (chain : ChainState) (mp : TxPool) (tx : Tx) : Prop :=
  ∀ order mp' accepted,
    processOrphans cfg chain order mp tx (fun _ => true) = some (mp', accepted) →
      ∀ t ∈ passedOverList (tryOrphan cfg chain fun _ => true) order (mp.orphans.size + 1) mp [tx],
        ¬ ReadyOrphan cfg chain (tx :: accepted.map TxDesc.tx) mp' t

theorem ready_orphan_passedOver {txDs : List TxDesc} (h : Indexed mp)
    (hrun : processOrphans cfg chain order mp tx (fun _ => true) = some (mp', txDs)) {t : Tx}
    (hready : ReadyOrphan cfg chain (tx :: txDs.map TxDesc.tx) mp' t) :
    t ∈ passedOverList (tryOrphan cfg chain fun _ => true) order (mp.orphans.size + 1) mp [tx] := by
  obtain ⟨⟨o, ho, rfl⟩, hwaits, mp₂, txD, hadded⟩ := hready
  rw [processOrphans] at hrun
  obtain ⟨⟨mp₁, found⟩, hlist, hrun⟩ := Option.bind_eq_some_iff.mp hrun
  obtain ⟨rfl, rfl⟩ := Prod.mk.inj (Option.some.inj hrun)
  have hstart : Attended chain
      (· ∈ passedOverList (tryOrphan cfg chain fun _ => true) order (mp.orphans.size + 1) mp [tx])
      [tx] ([tx].flatMap outPoints) mp := by
    refine ⟨h, fun o _ hwaits => Or.inl ?_⟩
    obtain ⟨a, ha, op, hop, hspends⟩ := hwaits
    obtain rfl := mem_singleton.mp ha
    exact ⟨op, by simpa using hop, hspends⟩
  have hend := hstart.processList hlist fun t ht => ht
  have hleft := OrphansLeft.foldl (removeOrphanDoubleSpends_left order) (tx :: found.map TxDesc.tx) mp₁
  rcases hend.excused o (hleft.orphans o ho) hwaits with ⟨op, hop, _⟩ | hskipped | ⟨a, ha, hconf⟩ |
    hlacks
  · exact absurd hop not_mem_nil
  · exact hskipped
  · exact absurd hconf (foldl_removeOrphanDoubleSpends_apart hend.indexed ho a ha)
  · exact absurd (hlacks.of_left hleft) (tryOrphan_added_not_lacks hadded)

theorem kept_indexed : Kept (tryOrphan cfg chain free) order Indexed :=
  ⟨fun _ tx r hmp => hmp.removeOrphan tx r,
    fun _ _ _ _ hmp hadded => hmp.of_same (maybeAcceptTransaction_sameOrphans hadded)⟩

/-- No two orphans spend one output. -/
structure Uncontested (mp : TxPool) : Prop where
  indexed : Indexed mp
  once : ∀ o₁ ∈ mp.orphans, ∀ o₂ ∈ mp.orphans, ∀ op ∈ spends o₁.tx, op ∈ spends o₂.tx → o₁ = o₂

theorem Uncontested.kept : Kept (tryOrphan cfg chain free) order Uncontested where
  removed mp tx r h := by
    have hleft := removeOrphan_left order mp tx r
    exact ⟨h.indexed.removeOrphan tx r, fun o₁ h₁ o₂ h₂ =>
      h.once o₁ (hleft.orphans o₁ h₁) o₂ (hleft.orphans o₂ h₂)⟩
  added mp tx mp' txD h hadded := by
    have hsame := maybeAcceptTransaction_sameOrphans hadded
    refine ⟨h.indexed.of_same hsame, ?_⟩
    rw [hsame.orphans]
    exact h.once

theorem Uncontested.orphansOf (h : Uncontested mp) (order : MapOrder) (op : OutPoint) :
    mp.orphansOf order op = [] ∨ ∃ t, mp.orphansOf order op = [t] := by
  have hsame : ∀ t₁ ∈ mp.orphansOf order op, ∀ t₂ ∈ mp.orphansOf order op, t₁ = t₂ := by
    intro t₁ h₁ t₂ h₂
    obtain ⟨⟨o₁, ho₁, rfl⟩, hop₁⟩ := (h.indexed op t₁).mp (mem_orphansOf.mp h₁)
    obtain ⟨⟨o₂, ho₂, rfl⟩, hop₂⟩ := (h.indexed op t₂).mp (mem_orphansOf.mp h₂)
    rw [h.once o₁ ho₁ o₂ ho₂ op hop₁ hop₂]
  have hnodup : (mp.orphansOf order op).Nodup := by
    unfold TxPool.orphansOf
    split
    · exact nodup_nil
    · rename_i orphans _
      exact (order.perm mp op orphans.entries).nodup_iff.mpr (.of_map Tx.hash orphans.nodup)
  rcases hlist : mp.orphansOf order op with _ | ⟨t₁, _ | ⟨t₂, rest⟩⟩
  · exact Or.inl rfl
  · exact Or.inr ⟨t₁, rfl⟩
  · rw [hlist] at hsame hnodup
    have heq := hsame t₁ (by simp) t₂ (by simp)
    simp [heq] at hnodup

theorem Uncontested.passedOver (h : Uncontested mp) (op : OutPoint)
    (accept : TxPool → Tx → Admission Accepted) :
    passedOver accept mp (mp.orphansOf order op) = [] := by
  rcases h.orphansOf order op with hlist | ⟨t, hlist⟩
  · rw [hlist, Mempool.passedOver]
  · rw [hlist, Mempool.passedOver]
    split <;> rfl

theorem Uncontested.passedOverOutputs (h : Uncontested mp) (ops : List OutPoint) :
    passedOverOutputs (tryOrphan cfg chain free) order mp ops = [] := by
  induction ops generalizing mp with
  | nil => rfl
  | cons op ops ih =>
    rw [Mempool.passedOverOutputs, h.passedOver, nil_append]
    split
    · rfl
    · rename_i r hrun
      exact ih (Uncontested.kept.acceptOrphan h hrun)

theorem Uncontested.passedOverList (h : Uncontested mp) (rounds : Nat) (items : List Tx) :
    passedOverList (tryOrphan cfg chain free) order rounds mp items = [] := by
  induction rounds generalizing mp items with
  | zero => cases items <;> rfl
  | succ rounds ih =>
    cases items with
    | nil => rfl
    | cons item items =>
      rw [Mempool.passedOverList, h.passedOverOutputs, nil_append]
      split
      · rfl
      · rename_i r hrun
        exact ih (Uncontested.kept.processOutputs h hrun) _

theorem Uncontested.passesOverNoReadyOrphan (h : Uncontested mp) :
    PassesOverNoReadyOrphan cfg chain mp tx := by
  intro order mp' accepted _ t ht
  rw [h.passedOverList] at ht
  exact absurd ht not_mem_nil

/-! ## A refused orphan ahead of a ready one -/

def lowerPool : TxPool := ((TxPool.new 0).addTransaction lowerTx 1000).1

def overspendingTx : Tx := relayTx 71 [⟨60, 0⟩] [200000000]

def loneOrphan : TxPool := TxPool.addOrphan .listed openRelay.policy lowerPool upperTx 0 0 0

def rivalOrphans : TxPool := TxPool.addOrphan .listed openRelay.policy loneOrphan overspendingTx 0 0 0

theorem lowerPool_indexed : Indexed lowerPool :=
  (Indexed.new 0).of_same (addTransaction_sameOrphans _ _ _)

theorem loneOrphan_indexed : Indexed loneOrphan :=
  lowerPool_indexed.addOrphan rfl openRelay.policy 0 0 0

theorem rivalOrphans_indexed : Indexed rivalOrphans :=
  loneOrphan_indexed.addOrphan (by decide +kernel) openRelay.policy 0 0 0

def readyIn (mp : TxPool) : Bool :=
  (mp.orphans.find? upperTx.hash).any (fun o => o.tx = upperTx) &&
    wasAdded (tryOrphan openRelay twoCoinState (fun _ => true) mp upperTx)

end FalconDraw.Mempool
