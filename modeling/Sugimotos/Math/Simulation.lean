/-
# Executions and simulations

An execution is a sequence of steps, each with a label that says what can be observed of it.
A simulation between two kinds of steps carries executions over, label by label.
-/

namespace Sugimotos.Math

universe u v w

variable {σ : Type u} {τ : Type v} {Label : Type w}

/-- An execution with the labels of its steps. -/
inductive Execution (step : σ → Label → σ → Prop) : σ → List Label → σ → Prop
  | done (s : σ) : Execution step s [] s
  | step {s₀ s₁ s₂ : σ} {label : Label} {labels : List Label} (hstep : step s₀ label s₁)
      (hrest : Execution step s₁ labels s₂) : Execution step s₀ (label :: labels) s₂

/-- Every step from related states is matched by a step with the same label. -/
def Simulates (step : σ → Label → σ → Prop) (step' : τ → Label → τ → Prop) (rel : σ → τ → Prop) :
    Prop :=
  ∀ s s' label t, rel s t → step s label s' → ∃ t', step' t label t' ∧ rel s' t'

/-- A simulation matches whole executions. -/
theorem Simulates.execution {step : σ → Label → σ → Prop} {step' : τ → Label → τ → Prop}
    {rel : σ → τ → Prop} (hsim : Simulates step step' rel) {s s' : σ} {labels : List Label} {t : τ}
    (hrel : rel s t) (hrun : Execution step s labels s') :
    ∃ t', Execution step' t labels t' ∧ rel s' t' := by
  induction hrun generalizing t with
  | done s => exact ⟨t, .done t, hrel⟩
  | step hstep hrest ih =>
      obtain ⟨t₁, hfirst, hrel₁⟩ := hsim _ _ _ _ hrel hstep
      obtain ⟨t₂, hlast, hrel₂⟩ := ih hrel₁
      exact ⟨t₂, .step hfirst hlast, hrel₂⟩

end Sugimotos.Math
