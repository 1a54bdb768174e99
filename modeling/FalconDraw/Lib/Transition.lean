/-
FalconDraw.Lib.Transition — partial steps, runs and invariants.

A system is a step function `σ → α → Option σ`: an action that is not enabled in a
state gives `none`.
-/
import FalconDraw.Lib.Evaluate

namespace FalconDraw.Lib

variable {σ α : Type}

/-- The states of the runs from a start state whose steps are all allowed. -/
inductive Reaches (step : σ → α → Option σ) (start : σ → Prop) (allowed : σ → α → Prop) : σ → Prop
  | start {s : σ} (h : start s) : Reaches step start allowed s
  | step {s s' : σ} {a : α} (hs : Reaches step start allowed s) (ha : allowed s a)
      (h : step s a = some s') : Reaches step start allowed s'

def runSteps (step : σ → α → Option σ) : σ → List α → Option σ
  | s, [] => some s
  | s, a :: as => (step s a).bind fun s' => runSteps step s' as

def guarded (step : σ → α → Option σ) (allowed : σ → α → Prop)
    [∀ s a, Decidable (allowed s a)] (s : σ) (a : α) : Option σ :=
  if allowed s a then step s a else none

section

variable {step : σ → α → Option σ} {start : σ → Prop} {allowed : σ → α → Prop}
variable {as : List α}

/-- What holds at the start and is kept by every allowed step holds in every
state reached. -/
theorem Reaches.invariant {P : σ → Prop} (hstart : ∀ s, start s → P s)
    (hstep : ∀ s a s', P s → allowed s a → step s a = some s' → P s') {s : σ}
    (h : Reaches step start allowed s) : P s := by
  induction h with
  | start h => exact hstart _ h
  | step _ ha h ih => exact hstep _ _ _ ih ha h

theorem Reaches.run_allowed {s s' : σ} (hs : Reaches step start allowed s)
    (hall : ∀ a ∈ as, ∀ s, allowed s a) (h : runSteps step s as = some s') :
    Reaches step start allowed s' := by
  induction as generalizing s with
  | nil =>
    cases h
    exact hs
  | cons a as ih =>
    obtain ⟨s₁, h₁, h₂⟩ := Option.bind_eq_some_iff.mp h
    exact ih (.step hs (hall a List.mem_cons_self s) h₁)
      (fun b hb => hall b (List.mem_cons_of_mem a hb)) h₂

/-- What every step keeps, a run keeps. -/
theorem runSteps_invariant {P : σ → Prop}
    (hstep : ∀ s a s', P s → step s a = some s' → P s') {s s' : σ} (h : P s)
    (hrun : runSteps step s as = some s') : P s' := by
  induction as generalizing s with
  | nil =>
    cases hrun
    exact h
  | cons a as ih =>
    obtain ⟨s₁, h₁, hrun⟩ := Option.bind_eq_some_iff.mp hrun
    exact ih (hstep s a s₁ h h₁) hrun

/-- The same for a loop. -/
theorem foldlM_invariant {P : σ → Prop}
    (hstep : ∀ s a s', P s → step s a = some s' → P s') {s s' : σ} (h : P s)
    (hrun : as.foldlM step s = some s') : P s' := by
  induction as generalizing s with
  | nil => exact Option.some.inj hrun ▸ h
  | cons a as ih =>
    rw [List.foldlM_cons] at hrun
    obtain ⟨s₁, h₁, hrun⟩ := Option.bind_eq_some_iff.mp hrun
    exact ih (hstep s a s₁ h h₁) hrun

/-- A simulation of single steps is one of runs. -/
theorem runSteps_simulates {τ : Type} {simulate : τ → α → τ} {Sim : σ → τ → Prop}
    (hstep : ∀ s t a s', Sim s t → step s a = some s' → Sim s' (simulate t a))
    {s s' : σ} {t : τ} (h : Sim s t) (hrun : runSteps step s as = some s') :
    Sim s' (as.foldl simulate t) := by
  induction as generalizing s t with
  | nil =>
    cases hrun
    exact h
  | cons a as ih =>
    obtain ⟨s₁, h₁, hrun⟩ := Option.bind_eq_some_iff.mp hrun
    exact ih (hstep s t a s₁ h h₁) hrun

variable [∀ s a, Decidable (allowed s a)]

theorem Reaches.run {s s' : σ} (hs : Reaches step start allowed s)
    (h : runSteps (guarded step allowed) s as = some s') : Reaches step start allowed s' := by
  induction as generalizing s with
  | nil =>
    cases h
    exact hs
  | cons a as ih =>
    obtain ⟨s₁, h₁, h₂⟩ := Option.bind_eq_some_iff.mp h
    rw [guarded] at h₁
    split at h₁
    case isTrue ha => exact ih (.step hs ha h₁) h₂
    case isFalse => cases h₁

theorem runSteps_of_guarded {s s' : σ}
    (h : runSteps (guarded step allowed) s as = some s') : runSteps step s as = some s' := by
  induction as generalizing s with
  | nil => exact h
  | cons a as ih =>
    obtain ⟨s₁, h₁, h₂⟩ := Option.bind_eq_some_iff.mp h
    rw [guarded] at h₁
    split at h₁
    · exact Option.bind_eq_some_iff.mpr ⟨s₁, h₁, ih h₂⟩
    · cases h₁

end

end FalconDraw.Lib
