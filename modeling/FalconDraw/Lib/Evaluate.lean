/-
FalconDraw.Lib.Evaluate — what a computation gives on fixed inputs.

That a partial computation has a result, and that the result has a decidable
property, is decided by running the computation.
-/
namespace FalconDraw.Lib

variable {ε α β : Type} {p : α → Prop} {q : α → β → Prop}

instance decidableExistsSome [DecidablePred p] (x : Option α) :
    Decidable (∃ a, x = some a ∧ p a) :=
  decidable_of_decidable_of_iff (p := x.any (fun a => p a) = true) (by simp [Option.any_eq_true])

instance decidableExistsOk [DecidablePred p] (x : Except ε α) :
    Decidable (∃ a, x = .ok a ∧ p a) :=
  decidable_of_decidable_of_iff (p := x.toOption.any (fun a => p a) = true) (by
    cases x <;> simp [Except.toOption])

instance decidableExistsOkPair [∀ a b, Decidable (q a b)] (x : Except ε (α × β)) :
    Decidable (∃ a b, x = .ok (a, b) ∧ q a b) :=
  decidable_of_decidable_of_iff (p := ∃ r, x = .ok r ∧ q r.1 r.2) (by simp)

end FalconDraw.Lib
