/-
FalconDraw.Lib.Check — validation passes that either reject or go on.

The node's checks are long straight-line functions of the form "if this is wrong,
return an error", threaded through loops over a block's transactions.
-/
import Mathlib.Algebra.Ring.Nat
import Mathlib.Algebra.Ring.Int.Defs
import Mathlib.Logic.Basic
import Mathlib.Data.List.Basic
import FalconDraw.Lib.Evaluate

namespace FalconDraw.Lib

variable {ε α β : Type}

/-- One `if cond { return err }` of a validation function. -/
def rejectIf (cond : Prop) [Decidable cond] (e : ε) : Except ε Unit :=
  if cond then .error e else .ok ()

@[simp] theorem rejectIf_eq_ok {cond : Prop} [Decidable cond] {e : ε} {u : Unit} :
    rejectIf cond e = .ok u ↔ ¬ cond := by
  unfold rejectIf
  split <;> simp_all

def checkWhen (cond : Bool) (pass : Except ε Unit) : Except ε Unit :=
  if cond then pass else .ok ()

@[simp] theorem checkWhen_eq_ok {cond : Bool} {pass : Except ε Unit} {u : Unit} :
    checkWhen cond pass = .ok u ↔ (cond = true → pass = .ok ()) := by
  cases cond <;> simp [checkWhen]

/-- A sequence of two passes accepts exactly when both do. -/
@[simp] theorem bind_eq_ok {x : Except ε α} {f : α → Except ε β} {b : β} :
    (x >>= f) = .ok b ↔ ∃ a, x = .ok a ∧ f a = .ok b := by
  cases x with
  | error e => simp [Bind.bind, Except.bind]
  | ok a => simp [Bind.bind, Except.bind]

@[simp] theorem exists_unit {p : Unit → Prop} : (∃ u, p u) ↔ p () :=
  ⟨fun ⟨_, h⟩ => h, fun h => ⟨(), h⟩⟩

@[simp] theorem pure_eq_ok {a b : α} : (pure a : Except ε α) = .ok b ↔ a = b := by
  simp [Pure.pure, Except.pure]

/-- A loop whose body only checks accepts exactly when the body accepts every
element. -/
theorem forM_eq_ok {f : α → Except ε Unit} {xs : List α} {u : Unit} :
    forM xs f = .ok u ↔ ∀ x ∈ xs, f x = .ok () := by
  induction xs with
  | nil => simp
  | cons x xs ih =>
    simp only [List.forM_cons, bind_eq_ok, exists_unit, ih, List.forall_mem_cons]

theorem mapM_eq_ok {f : α → Except ε β} {g : α → β} :
    ∀ {xs : List α}, (∀ x ∈ xs, f x = .ok (g x)) → xs.mapM f = .ok (xs.map g)
  | [], _ => rfl
  | x :: xs, h => by
      rw [List.mapM_cons, h x List.mem_cons_self,
        mapM_eq_ok fun y hy => h y (List.mem_cons_of_mem _ hy)]
      rfl

end FalconDraw.Lib
