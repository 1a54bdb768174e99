/-
FalconDraw.Mempool.OrphanIndexTheorems — the two maps of the orphan pool agree.

`orphans` holds the orphans by id, `orphansByPrev` lists them under every outpoint
they spend (`Indexed`).
-/
import FalconDraw.Mempool.BookkeepingTheorems

namespace FalconDraw.Mempool

open Lib Wire Draw Chain Mining

variable {op : OutPoint}

/-- The transaction is listed under the outpoint. -/
def ListedIn (byPrev : Bucket OutPoint (Keyed Tx.hash)) (op : OutPoint) (tx : Tx) : Prop :=
  ∃ orphans, byPrev.get op = some orphans ∧ tx ∈ orphans

/-- The transaction is stored as an orphan. -/
def Stored (mp : TxPool) (tx : Tx) : Prop := ∃ o ∈ mp.orphans, o.tx = tx

/-- An orphan is listed under an outpoint exactly when it is stored and spends it. -/
def Indexed (mp : TxPool) : Prop :=
  ∀ op tx, ListedIn mp.orphansByPrev op tx ↔ Stored mp tx ∧ op ∈ spends tx

/-- The same, but for the orphans with these ids, which are stored and not listed. -/
def IndexedBut (gone : List Hash) (mp : TxPool) : Prop :=
  ∀ op tx, ListedIn mp.orphansByPrev op tx ↔ Stored mp tx ∧ tx.hash ∉ gone ∧ op ∈ spends tx

theorem indexedBut_nil {mp : TxPool} : IndexedBut [] mp ↔ Indexed mp := by
  simp [IndexedBut, Indexed]

theorem Indexed.new (now : Int) : Indexed (TxPool.new now) := by
  intro op tx
  constructor
  · rintro ⟨orphans, hget, _⟩
    cases hget
  · rintro ⟨⟨o, ho, _⟩, _⟩
    exact absurd ho (Keyed.not_mem_empty o)

theorem Indexed.of_same {mp mp' : TxPool} (h : Indexed mp) (hsame : SameOrphans mp mp') :
    Indexed mp' := by
  intro op tx
  rw [hsame.orphansByPrev, h op tx, Stored, Stored, hsame.orphans]

theorem mem_orphansOf {mp : TxPool} {order : MapOrder} {tx : Tx} :
    tx ∈ mp.orphansOf order op ↔ ListedIn mp.orphansByPrev op tx := by
  unfold TxPool.orphansOf ListedIn
  cases mp.orphansByPrev.get op with
  | none => simp
  | some orphans => simp [(order.perm mp op orphans.entries).mem_iff, Keyed.mem_entries]

/-! ## One entry of the index -/

theorem listedIn_unlistOrphan {byPrev : Bucket OutPoint (Keyed Tx.hash)} {hash : Hash}
    {prevOut : OutPoint} {tx : Tx} :
    ListedIn (TxPool.unlistOrphan hash byPrev prevOut) op tx ↔
      ListedIn byPrev op tx ∧ ¬ (op = prevOut ∧ tx.hash = hash) := by
  unfold TxPool.unlistOrphan ListedIn
  by_cases hop : op = prevOut
  · subst hop
    cases hget : byPrev.get op with
    | none => simp [hget]
    | some orphans =>
      -- an empty list of orphans is deleted, and lists nothing
      have hempty : (orphans.erase hash).size = 0 → ∀ tx ∈ orphans, tx.hash = hash := by
        intro hsize tx htx
        by_contra hne
        exact Keyed.not_mem_of_size_eq_zero hsize tx (Keyed.mem_erase.mpr ⟨htx, hne⟩)
      dsimp only
      split
      case isTrue hsize => simpa using hempty hsize tx
      case isFalse => simp [Keyed.mem_erase]
  · grind [Bucket.get_delete, Bucket.get_put]

theorem listedIn_foldl_unlistOrphan {byPrev : Bucket OutPoint (Keyed Tx.hash)} {hash : Hash}
    {ops : List OutPoint} {tx : Tx} :
    ListedIn (ops.foldl (TxPool.unlistOrphan hash) byPrev) op tx ↔
      ListedIn byPrev op tx ∧ ¬ (op ∈ ops ∧ tx.hash = hash) := by
  induction ops generalizing byPrev with
  | nil => simp
  | cons o ops ih =>
    rw [List.foldl_cons, ih, listedIn_unlistOrphan, List.mem_cons]
    tauto

theorem listedIn_listOrphan {byPrev : Bucket OutPoint (Keyed Tx.hash)} {new tx : Tx}
    {prevOut : OutPoint} : ListedIn (TxPool.listOrphan new byPrev prevOut) op tx ↔
      op = prevOut ∧ tx = new ∨ ListedIn byPrev op tx ∧ ¬ (op = prevOut ∧ tx.hash = new.hash) := by
  unfold TxPool.listOrphan ListedIn
  by_cases hop : op = prevOut
  · subst hop
    cases hget : byPrev.get op <;> simp [Keyed.mem_insert]
  · simp [Bucket.get_put, hop]

theorem listedIn_foldl_listOrphan {byPrev : Bucket OutPoint (Keyed Tx.hash)} {new : Tx}
    (hnew : ∀ op tx, ListedIn byPrev op tx → tx.hash ≠ new.hash) {ops : List OutPoint}
    {tx : Tx} : ListedIn (ops.foldl (TxPool.listOrphan new) byPrev) op tx ↔
      op ∈ ops ∧ tx = new ∨ ListedIn byPrev op tx := by
  induction ops using List.reverseRecOn with
  | nil => simp
  | append_singleton ops o ih => grind [listedIn_listOrphan]

/-! ## Removals -/

section

variable {order : MapOrder} {gone : List Hash} {mp : TxPool} {tx : Tx}

theorem IndexedBut.unlist (h : IndexedBut gone mp) {otx : OrphanTx} (hotx : otx ∈ mp.orphans) :
    IndexedBut (otx.tx.hash :: gone) { mp with
      orphansByPrev := (spends otx.tx).foldl (TxPool.unlistOrphan otx.tx.hash)
        mp.orphansByPrev } := by
  intro op t
  rw [listedIn_foldl_unlistOrphan, h op t, List.mem_cons, not_or]
  constructor
  · rintro ⟨⟨⟨o, ho, rfl⟩, hgone, hop⟩, hnot⟩
    refine ⟨⟨o, ho, rfl⟩, ⟨fun hhash => hnot ⟨?_, hhash⟩, hgone⟩, hop⟩
    rwa [← mp.orphans.eq_of_key_eq ho hotx hhash]
  · rintro ⟨hstored, ⟨hne, hgone⟩, hop⟩
    exact ⟨⟨hstored, hgone, hop⟩, fun hnot => hne hnot.2⟩

theorem IndexedBut.erase {hash : Hash} (h : IndexedBut (hash :: gone) mp) :
    IndexedBut gone { mp with orphans := mp.orphans.erase hash } := by
  intro op t
  rw [h op t, List.mem_cons, not_or]
  constructor
  · rintro ⟨⟨o, ho, rfl⟩, ⟨hne, hgone⟩, hop⟩
    exact ⟨⟨o, Keyed.mem_erase.mpr ⟨ho, hne⟩, rfl⟩, hgone, hop⟩
  · rintro ⟨⟨o, ho, rfl⟩, hgone, hop⟩
    obtain ⟨ho, hne⟩ := Keyed.mem_erase.mp ho
    exact ⟨⟨o, ho, rfl⟩, ⟨hne, hgone⟩, hop⟩

theorem IndexedBut.not_gone (h : IndexedBut gone mp) {op : OutPoint} {t : Tx}
    (ht : t ∈ mp.orphansOf order op) : t.hash ∉ gone :=
  ((h op t).mp (mem_orphansOf.mp ht)).2.1

theorem IndexedBut.removeOrphanFrom {depth : Nat} (h : IndexedBut gone mp) (htx : tx.hash ∉ gone)
    (removeRedeemers : Bool) :
    IndexedBut gone (TxPool.removeOrphanFrom order depth mp tx removeRedeemers) := by
  induction depth generalizing gone mp tx removeRedeemers with
  | zero => exact h
  | succ depth ih =>
    rw [TxPool.removeOrphanFrom]
    cases hfind : mp.orphans.find? tx.hash with
    | none => exact h
    | some otx =>
      obtain ⟨hotx, hhash⟩ := Keyed.find?_eq_some.mp hfind
      rw [← hhash] at htx ⊢
      have hunlisted := h.unlist hotx
      suffices hloop : IndexedBut (otx.tx.hash :: gone) _ from hloop.erase
      split
      · refine List.foldlRecOn (outPoints tx) _ hunlisted fun mp hmp op _ => ?_
        refine List.foldlRecOn (mp.orphansOf order op) _ hmp fun mp' hmp' t ht => ?_
        exact ih hmp' (hmp.not_gone ht) true
      · exact hunlisted

theorem Indexed.removeOrphan (h : Indexed mp) (tx : Tx) (removeRedeemers : Bool) :
    Indexed (TxPool.removeOrphan order mp tx removeRedeemers) :=
  indexedBut_nil.mp ((indexedBut_nil.mpr h).removeOrphanFrom List.not_mem_nil removeRedeemers)

theorem removeOrphan_gone {removeRedeemers : Bool} {o : OrphanTx}
    (ho : o ∈ (TxPool.removeOrphan order mp tx removeRedeemers).orphans) : o.tx.hash ≠ tx.hash := by
  unfold TxPool.removeOrphan at ho
  cases hsize : mp.orphans.size with
  | zero =>
    have hmem := (removeOrphanFrom_left order _ mp tx removeRedeemers).orphans o ho
    exact absurd hmem (Keyed.not_mem_of_size_eq_zero hsize o)
  | succ depth => grind [TxPool.removeOrphanFrom]

/-! ## The other operations -/

theorem Indexed.limitNumOrphans (h : Indexed mp) (order : MapOrder) (policy : Policy) (now : Int)
    (first : Nat) : Indexed (TxPool.limitNumOrphans order policy mp now first) := by
  have hexpire : Indexed (TxPool.expireOrphans order mp now) := by
    unfold TxPool.expireOrphans
    split
    · refine List.foldlRecOn (motive := Indexed) mp.orphans.entries _ h fun mp hmp otx _ => ?_
      split
      · exact hmp.removeOrphan otx.tx true
      · exact hmp
    · exact h
  unfold TxPool.limitNumOrphans
  dsimp only
  split
  · exact hexpire
  · split
    · exact hexpire.removeOrphan _ false
    · exact hexpire

theorem Indexed.addOrphan (h : Indexed mp) (hnew : mp.orphans.find? tx.hash = none)
    (policy : Policy) (tag : Nat) (now : Int) (first : Nat) :
    Indexed (TxPool.addOrphan order policy mp tx tag now first) := by
  unfold TxPool.addOrphan
  split
  · exact h
  · have hlimited := h.limitNumOrphans order policy now first
    have hleft := limitNumOrphans_left order policy mp now first
    have hother : ∀ o ∈ (TxPool.limitNumOrphans order policy mp now first).orphans,
        o.tx.hash ≠ tx.hash := fun o ho => Keyed.find?_eq_none.mp hnew o (hleft.orphans o ho)
    intro op t
    rw [listedIn_foldl_listOrphan, hlimited op t]
    · constructor
      · rintro (⟨hop, rfl⟩ | ⟨⟨o, ho, rfl⟩, hop⟩)
        · exact ⟨⟨_, Keyed.mem_insert.mpr (Or.inl rfl), rfl⟩, hop⟩
        · exact ⟨⟨o, Keyed.mem_insert.mpr (Or.inr ⟨ho, hother o ho⟩), rfl⟩, hop⟩
      · rintro ⟨⟨o, ho, rfl⟩, hop⟩
        rcases Keyed.mem_insert.mp ho with rfl | ⟨ho, _⟩
        · exact Or.inl ⟨hop, rfl⟩
        · exact Or.inr ⟨⟨o, ho, rfl⟩, hop⟩
    · intro op t ht
      obtain ⟨⟨o, ho, rfl⟩, _⟩ := (hlimited op t).mp ht
      exact hother o ho

end

end FalconDraw.Mempool
