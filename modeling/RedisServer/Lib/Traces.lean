import RedisServer.Lib.Runs

/-!
# Traces and refinement mappings

A labelled transition relation `step : σ → α → σ → Prop` says which labels lead from a state to
another one; a trace is the list of the labels along a path.  This file names nothing of any
program.

`traced` is the rule for a refinement mapping: a run of a fallible step function (`Runs.run`) leaves
a trace, and if every step is, in the image, a step of another relation with the same label, so does
its image.
-/

set_option autoImplicit false

namespace Traces

open Runs

universe u v w

variable {σ : Type u} {τ : Type v} {α : Type w}

/-- The labels of a path. -/
inductive Trace (step : σ → α → σ → Prop) : σ → List α → σ → Prop where
  | nil (s : σ) : Trace step s [] s
  | cons {s t u : σ} {a : α} {as : List α} :
      step s a t → Trace step t as u → Trace step s (a :: as) u

/-- **A run leaves a trace**, event by event, and so does its image under a refinement mapping. -/
theorem traced {ρ ε φ : Type u} {run₁ : ρ → ε → Except φ ρ} {C : ρ → ε → Prop} {I : ρ → Prop}
    {lts : ρ → ε × α → ρ → Prop} {lts' : τ → ε × α → τ → Prop} (f : ρ → τ)
    (hstep : ∀ s e s', I s → C s e → run₁ s e = .ok s' →
      I s' ∧ ∃ a, lts s (e, a) s' ∧ lts' (f s) (e, a) (f s')) :
    ∀ {es : List ε} {s s' : ρ}, I s → AllSteps run₁ C s es → run run₁ s es = .ok s' →
      ∃ log : List (ε × α), log.map Prod.fst = es ∧ Trace lts s log s' ∧
        Trace lts' (f s) log (f s')
  | [], s, _, _, _, h => by
    cases h
    exact ⟨[], rfl, .nil s, .nil (f s)⟩
  | e :: es, s, s', hi, hc, h => by
    obtain ⟨t, ht, h⟩ := run_cons_ok.mp h
    obtain ⟨he, hes⟩ := allSteps_cons.mp hc
    obtain ⟨hi₁, a, hs, hs'⟩ := hstep s e t hi he ht
    obtain ⟨log, rfl, hlog, hlog'⟩ := traced f hstep hi₁ (hes t ht) h
    exact ⟨(e, a) :: log, rfl, .cons hs hlog, .cons hs' hlog'⟩

end Traces
