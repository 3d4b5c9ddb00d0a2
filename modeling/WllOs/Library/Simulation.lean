import Mathlib

-- Programs over a state that are run by requests: what one answers for a sequence of requests, another answers as well.
namespace Simulation

variable {ι ο σ τ : Type*}

-- A step takes a request and gives an observation, unless it fails.
def run (step : σ → ι → Option (ο × σ)) : σ → List ι → Option (List ο × σ)
  | s, []            => some ([], s)
  | s, request :: is => do
    let (o, s) ← step s request
    let (os, s) ← run step s is
    return (o :: os, s)

-- Where the first program makes a step, the second one makes the same step.
def Simulates (R : σ → τ → Prop) (step : σ → ι → Option (ο × σ)) (step' : τ → ι → Option (ο × τ)) : Prop :=
  ∀ {s t i o s'}, R s t → step s i = some (o, s') → ∃ t', step' t i = some (o, t') ∧ R s' t'

variable {R : σ → τ → Prop} {step : σ → ι → Option (ο × σ)} {step' : τ → ι → Option (ο × τ)} {s s' : σ} {t : τ}
variable {i : ι} {is : List ι} {o : ο} {os : List ο}

theorem run_cons : run step s (i :: is) = some (os, s') ↔
    ∃ o s₁ os₁, step s i = some (o, s₁) ∧ run step s₁ is = some (os₁, s') ∧ os = o :: os₁ := by
  simp only [run, bind, Option.bind_eq_some_iff, Prod.exists, pure, Option.some.injEq, Prod.mk.injEq]
  constructor
  case mp => rintro ⟨o, s₁, hs, os₁, s₂, hr, rfl, rfl⟩; exact ⟨o, s₁, os₁, hs, hr, rfl⟩
  case mpr => rintro ⟨o, s₁, os₁, hs, hr, rfl⟩; exact ⟨o, s₁, hs, os₁, s', hr, rfl, rfl⟩

theorem Simulates.run (h : Simulates R step step') (hr : R s t) (hs : run step s is = some (os, s')) :
    ∃ t', Simulation.run step' t is = some (os, t') ∧ R s' t' := by
  induction is generalizing s t os
  case nil => cases hs; exact ⟨t, rfl, hr⟩
  case cons i is hi =>
    have ⟨o, s₁, os₁, hs, hr₁, he⟩ := run_cons.mp hs
    have ⟨t₁, ht, hr⟩ := h hr hs
    have ⟨t', ht', hr⟩ := hi hr hr₁
    exact ⟨t', run_cons.mpr ⟨o, t₁, os₁, ht, ht', he⟩, hr⟩

end Simulation
