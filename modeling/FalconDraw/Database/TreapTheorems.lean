/-
FalconDraw.Database.TreapTheorems — the heap order of the database's treaps
(database/internal/treap/mutable.go and immutable.go).

`Put` and `Delete` of the mutable and of the immutable treap build the same tree;
the immutable `Put` takes several pairs.
-/
import FalconDraw.Lib.Treap

namespace FalconDraw.Database

open Lib

variable {κ ν : Type} [LinearOrder κ]

/-- A call that changes a treap, with the priority `rand.Int` returns for each pair. -/
inductive TreapCall (κ ν : Type) where
  | put (kvPairs : List (Nat × κ × ν))
  | delete (key : κ)
deriving DecidableEq, Repr

namespace TreapCall

def run (t : Treap κ ν) : TreapCall κ ν → Treap κ ν
  | put kvPairs => kvPairs.foldl (fun t e => t.put e.1 e.2.1 e.2.2) t
  | delete key => t.delete key

def runAll (calls : List (TreapCall κ ν)) : Treap κ ν := calls.foldl run .nil

/-- A `Delete` of a node that never has two children of different priorities on its way down. -/
def KeepsHeap (t : Treap κ ν) : TreapCall κ ν → Prop
  | put _ => True
  | delete key => t.DeletesLevel key

theorem run_heapOrdered {t : Treap κ ν} (h : t.HeapOrdered) (call : TreapCall κ ν) :
    (run t call).HeapOrdered ↔ call.KeepsHeap t := by
  cases call with
  | put kvPairs =>
    have hput : (run t (put kvPairs)).HeapOrdered :=
      List.foldlRecOn kvPairs _ h fun t ht e _ => ht.put e.1 e.2.1 e.2.2
    simp [hput, KeepsHeap]
  | delete key => exact Treap.heapOrdered_delete h

theorem runAll_take_succ {calls : List (TreapCall κ ν)} {n : Nat} {call : TreapCall κ ν}
    (h : calls[n]? = some call) : runAll (calls.take (n + 1)) = run (runAll (calls.take n)) call := by
  simp [runAll, List.take_add_one, h]

/-- What a call means for a map; the priorities are not looked at. -/
def effect (m : κ → Option ν) : TreapCall κ ν → κ → Option ν
  | put kvPairs => kvPairs.foldl (fun m e => Function.update m e.2.1 (some e.2.2)) m
  | delete key => Function.update m key none

/-- The treap is in order and has the pairs of the map. -/
def Holds (t : Treap κ ν) (m : κ → Option ν) : Prop := t.Sorted ∧ ∀ key, t.get key = m key

theorem Holds.put {t : Treap κ ν} {m : κ → Option ν} (h : Holds t m) (priority : Nat) (key : κ)
    (value : ν) : Holds (t.put priority key value) (Function.update m key (some value)) := by
  refine ⟨h.1.put priority key value, fun k => ?_⟩
  rw [Function.update_apply, ← h.2 k]
  exact TreapMap.get_put ⟨t, h.1⟩ priority key k value

theorem Holds.run {t : Treap κ ν} {m : κ → Option ν} (h : Holds t m) (call : TreapCall κ ν) :
    Holds (run t call) (effect m call) := by
  cases call with
  | put kvPairs => exact List.foldl_rel h fun e _ _ _ h => h.put e.1 e.2.1 e.2.2
  | delete key =>
    refine ⟨h.1.delete key, fun k => ?_⟩
    rw [effect, Function.update_apply, ← h.2 k]
    exact TreapMap.get_delete ⟨t, h.1⟩ key k

end TreapCall

/-- Whatever the priorities, a treap answers like the map of the calls made, and an
iteration meets each pair of it once, in the order of the keys. -/
theorem treap_is_map (calls : List (TreapCall κ ν)) :
    (TreapCall.runAll calls).toList.Pairwise (fun a b => a.1 < b.1) ∧ ∀ key value,
      ((TreapCall.runAll calls).get key = some value ↔
        (key, value) ∈ (TreapCall.runAll calls).toList) ∧
      (TreapCall.runAll calls).get key = calls.foldl TreapCall.effect (fun _ => none) key := by
  have h : TreapCall.Holds (TreapCall.runAll calls) (calls.foldl TreapCall.effect fun _ => none) :=
    List.foldl_rel ⟨List.Pairwise.nil, fun _ => rfl⟩ fun call _ _ _ h => h.run call
  exact ⟨h.1, fun key value => ⟨Treap.get_eq_some h.1, h.2 key⟩⟩

/-- Heap order after every call, exactly in the histories whose deletions never chose. -/
theorem heap_order_kept_iff (calls : List (TreapCall κ ν)) :
    (∀ n, (TreapCall.runAll (calls.take n)).HeapOrdered) ↔
      ∀ (n : Nat) call, calls[n]? = some call → call.KeepsHeap (TreapCall.runAll (calls.take n)) := by
  constructor
  · intro hheap n call hcall
    have hafter := hheap (n + 1)
    rw [TreapCall.runAll_take_succ hcall] at hafter
    exact (TreapCall.run_heapOrdered (hheap n) call).mp hafter
  · intro hkeeps n
    induction n with
    | zero => exact trivial
    | succ n ih =>
      cases hcall : calls[n]? with
      | none =>
        have hlen := List.getElem?_eq_none_iff.mp hcall
        rwa [List.take_of_length_le (by omega), ← List.take_of_length_le hlen]
      | some call =>
        rw [TreapCall.runAll_take_succ hcall]
        exact (TreapCall.run_heapOrdered ih call).mpr (hkeeps n call hcall)

/-- The root with priority 1 goes, and its child with priority 3 rises above the one with 2. -/
theorem deletion_breaks_heap_order :
    ¬ (TreapCall.runAll [.put [(1, 20, ())], .put [(2, 10, ())], .put [(3, 30, ())],
      .delete 20]).HeapOrdered :=
  fun h => absurd (show 3 ≤ 2 from h.1) (by decide)

end FalconDraw.Database
