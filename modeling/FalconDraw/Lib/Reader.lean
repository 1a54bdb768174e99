/-
FalconDraw.Lib.Reader — decoders that take a value off the front of the input.

A reader either fails or returns a value and the input behind it.
-/
import FalconDraw.Lib.Bytes
import FalconDraw.Lib.Check

namespace FalconDraw.Lib

variable {ε α β : Type}
variable {input : Bytes}

abbrev Reader (ε α : Type) := StateT Bytes (Except ε) α

/-- `io.ReadFull` into a buffer of `n` bytes; `short` is the error for an input
that ends before. -/
def readFull (short : Bytes → ε) (n : Nat) : Reader ε Bytes := fun input =>
  if n ≤ input.length then .ok (input.take n, input.drop n) else .error (short input)

/-- `rejectIf` inside a decoder. -/
def failIf (cond : Prop) [Decidable cond] (e : ε) : Reader ε Unit := liftM (rejectIf cond e)

/-- A loop that reads `n` values. -/
def readMany (r : Reader ε α) : Nat → Reader ε (List α)
  | 0 => return []
  | n + 1 => do
      let a ← r
      let as ← readMany r n
      return a :: as

/-- A loop that reads `n` values, each of which takes its `cost` off a budget;
what is left of it is returned as well. -/
def readBudget (r : Nat → Reader ε α) (cost : α → Nat) : Nat → Nat → Reader ε (List α × Nat)
  | 0, budget => return ([], budget)
  | n + 1, budget => do
      let a ← r budget
      let (as, left) ← readBudget r cost n (budget - cost a)
      return (a :: as, left)

def Reads (r : Reader ε α) (bs : Bytes) (a : α) : Prop :=
  ∀ rest, r (bs ++ rest) = .ok (a, rest)

namespace Reads

variable {r : Reader ε α} {bs cs : Bytes} {a : α} {b : β}
variable {f : α → Reader ε β}

theorem pure (a : α) : Reads (Pure.pure a : Reader ε α) [] a := fun _ => rfl

theorem bind (hr : Reads r bs a) (hf : Reads (f a) cs b) : Reads (r >>= f) (bs ++ cs) b := by
  intro rest
  rw [List.append_assoc]
  show (r (bs ++ (cs ++ rest)) >>= fun p => f p.1 p.2) = _
  rw [hr]
  exact hf rest

theorem bind_nil (hr : Reads r bs a) (hf : Reads (f a) [] b) : Reads (r >>= f) bs b := by
  have h := hr.bind hf
  rwa [List.append_nil] at h

theorem bind_pure (hr : Reads r bs a) (hf : f a = Pure.pure b) : Reads (r >>= f) bs b :=
  hr.bind_nil (hf ▸ Reads.pure b)

/-- A computation on values already read takes nothing off the input. -/
theorem lift {x : Except ε α} (h : x = .ok a) : Reads (liftM x : Reader ε α) [] a := by
  intro rest
  rw [h]
  rfl

theorem check {cond : Prop} [Decidable cond] {e : ε} {next : Reader ε β} (hcond : ¬ cond)
    (hnext : Reads next bs b) : Reads (failIf cond e >>= fun _ => next) bs b :=
  (lift (if_neg hcond)).bind hnext

theorem full {short : Bytes → ε} {n : Nat} (h : bs.length = n) :
    Reads (readFull short n) bs bs := by
  intro rest
  have hlen : n ≤ (bs ++ rest).length := by
    rw [List.length_append]
    omega
  rw [readFull, if_pos hlen, ← h, List.take_left, List.drop_left]

theorem many {enc : α → Bytes} {as : List α} (h : ∀ a ∈ as, Reads r (enc a) a) :
    Reads (readMany r as.length) (as.flatMap enc) as := by
  induction as with
  | nil => exact Reads.pure []
  | cons a as ih =>
    have hrest := ih fun x hx => h x (List.mem_cons_of_mem _ hx)
    rw [List.flatMap_cons]
    exact (h a List.mem_cons_self).bind (hrest.bind_pure rfl)

/-- As long as the costs fit into the budget, every value is read with at least
its own cost left. -/
theorem budget {r : Nat → Reader ε α} {cost : α → Nat} {enc : α → Bytes} {as : List α}
    (h : ∀ a ∈ as, ∀ budget, cost a ≤ budget → Reads (r budget) (enc a) a) :
    ∀ {budget : Nat}, (as.map cost).sum ≤ budget →
      Reads (readBudget r cost as.length budget) (as.flatMap enc)
        (as, budget - (as.map cost).sum) := by
  induction as with
  | nil => exact fun _ => Reads.pure _
  | cons a as ih =>
    intro budget hle
    rw [List.map_cons, List.sum_cons] at hle ⊢
    have hhere := h a List.mem_cons_self budget (by omega)
    have hrest := ih (fun x hx => h x (List.mem_cons_of_mem _ hx))
      (show (as.map cost).sum ≤ budget - cost a by omega)
    rw [List.flatMap_cons, ← Nat.sub_sub]
    exact hhere.bind (hrest.bind_pure rfl)

end Reads

/-! ## Readers that do not look ahead -/

def Local (r : Reader ε α) : Prop :=
  ∀ input a rest, r input = .ok (a, rest) → ∃ bs, input = bs ++ rest ∧ Reads r bs a

theorem reader_bind_ok {r : Reader ε α} {f : α → Reader ε β} {rest : Bytes} {b : β}
    (h : (r >>= f) input = .ok (b, rest)) :
    ∃ a mid, r input = .ok (a, mid) ∧ f a mid = .ok (b, rest) := by
  change (r input >>= fun p => f p.1 p.2) = _ at h
  cases hr : r input with
  | error e =>
    rw [hr] at h
    cases h
  | ok p =>
    rw [hr] at h
    exact ⟨p.1, p.2, rfl, h⟩

theorem reader_bind_eq {r : Reader ε α} {f : α → Reader ε β} {mid : Bytes} {a : α}
    (h : r input = .ok (a, mid)) : (r >>= f) input = f a mid := by
  show (r input >>= fun p => f p.1 p.2) = _
  rw [h]
  rfl

theorem failIf_pass {cond : Prop} [Decidable cond] {e : ε} (h : ¬ cond) (input : Bytes) :
    failIf cond e input = .ok ((), input) := by
  rw [failIf, rejectIf, if_neg h]
  rfl

theorem failIf_ok {cond : Prop} [Decidable cond] {e : ε} {rest : Bytes} {u : Unit}
    (h : failIf cond e input = .ok (u, rest)) : ¬ cond ∧ input = rest := by
  by_cases hcond : cond
  · rw [failIf, rejectIf, if_pos hcond] at h
    cases h
  · rw [failIf, rejectIf, if_neg hcond] at h
    cases h
    exact ⟨hcond, rfl⟩

namespace Local

variable {r : Reader ε α}

theorem pure (a : α) : Local (Pure.pure a : Reader ε α) := by
  intro input b rest h
  cases h
  exact ⟨[], rfl, Reads.pure a⟩

theorem bind {f : α → Reader ε β} (hr : Local r) (hf : ∀ a, Local (f a)) : Local (r >>= f) := by
  intro input b rest h
  obtain ⟨a, mid, h₁, h₂⟩ := reader_bind_ok h
  obtain ⟨bs, rfl, hreads⟩ := hr _ _ _ h₁
  obtain ⟨cs, rfl, hreads'⟩ := hf a _ _ _ h₂
  exact ⟨bs ++ cs, (List.append_assoc bs cs rest).symm, hreads.bind hreads'⟩

theorem check {cond : Prop} [Decidable cond] {e : ε} : Local (failIf cond e : Reader ε Unit) := by
  intro input b rest h
  obtain ⟨hcond, rfl⟩ := failIf_ok h
  exact ⟨[], rfl, Reads.lift (if_neg hcond)⟩

theorem full {short : Bytes → ε} (n : Nat) : Local (readFull short n) := by
  intro input bs rest h
  rw [readFull] at h
  split at h
  · rename_i hle
    cases h
    exact ⟨input.take n, (List.take_append_drop n input).symm,
      Reads.full (List.length_take_of_le hle)⟩
  · cases h

theorem ite {cond : Prop} [Decidable cond] {r' : Reader ε α} (hr : Local r) (hr' : Local r') :
    Local (if cond then r else r') := by
  split
  · exact hr
  · exact hr'

theorem budget {r : Nat → Reader ε α} {cost : α → Nat} (hr : ∀ budget, Local (r budget))
    (n : Nat) : ∀ budget, Local (readBudget r cost n budget) := by
  induction n with
  | zero => exact fun budget => Local.pure ([], budget)
  | succ n ih =>
    intro budget
    exact (hr budget).bind fun a => (ih _).bind fun p => Local.pure (a :: p.1, p.2)

end Local

end FalconDraw.Lib
