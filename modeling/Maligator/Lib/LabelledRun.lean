/-
Runs of a labelled transition system, and simulation between two of them.

A step carries a list of labels, empty for a silent step; `Run` collects the labels of any number of steps. A simulation
answers one step by a run with the same labels, so it may stutter or take several steps.
-/
import Mathlib.Logic.Basic

namespace Maligator

variable {S T E : Type}

/-- any number of steps, with their labels in order -/
inductive Run (step : S → List E → S → Prop) : S → List E → S → Prop
  | refl (s : S) : Run step s [] s
  | head {s t u : S} {labels more : List E} (h : step s labels t) (run : Run step t more u) : Run step s (labels ++ more) u

namespace Run

variable {step : S → List E → S → Prop} {step' : T → List E → T → Prop}

variable {s t u s' : S} {labels more : List E}

theorem single (h : step s labels t) : Run step s labels t := by
  have hrun := Run.head h (.refl t)
  rwa [List.append_nil] at hrun

theorem trans (h : Run step s labels t) (h' : Run step t more u) : Run step s (labels ++ more) u := by
  induction h with
  | refl => exact h'
  | head hstep _ ih =>
    rw [List.append_assoc]
    exact .head hstep (ih h')

theorem silent_head (h : Run step s [] t) (h' : Run step t labels u) : Run step s labels u :=
  h.trans h'

/-- **Simulation.** If every step is answered by a run with its labels, so is every run. -/
theorem simulate {R : S → T → Prop}
    (hstep : ∀ s t labels s', R s t → step s labels s' → ∃ t', Run step' t labels t' ∧ R s' t')
    (hrun : Run step s labels s') : ∀ t, R s t → ∃ t', Run step' t labels t' ∧ R s' t' := by
  induction hrun with
  | refl s => exact fun t ht => ⟨t, .refl t, ht⟩
  | head h _ ih =>
    intro t ht
    obtain ⟨t₁, hrun₁, hr₁⟩ := hstep _ t _ _ ht h
    obtain ⟨t₂, hrun₂, hr₂⟩ := ih t₁ hr₁
    exact ⟨t₂, hrun₁.trans hrun₂, hr₂⟩

end Run

end Maligator
