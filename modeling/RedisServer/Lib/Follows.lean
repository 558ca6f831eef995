import RedisServer.Lib.Runs

/-!
# A computation that follows another one

`Follows R x y` says that `y` returns whenever `x` does, with a result related by `R`.  It is closed
under the constructions that fallible programs are written with, so that two runs of one program on
related states are compared by walking through the program once.  This file names nothing of any
program.

* `Follows.bind` — the rule for a sequence;
* `run_interleaved` — a system that follows another one's events and does other things in between.
-/

set_option autoImplicit false

namespace Runs

universe u

variable {φ ψ α β γ δ : Type u}

/-- Where `x` returns, `y` returns a related result. -/
def Follows (R : α → β → Prop) (x : Except φ α) (y : Except ψ β) : Prop :=
  ∀ a, x = .ok a → ∃ b, y = .ok b ∧ R a b

theorem Follows.ok {R : α → β → Prop} {a : α} {b : β} (h : R a b) :
    Follows R (.ok a : Except φ α) (.ok b : Except ψ β) := by
  intro a' ha
  cases ha
  exact ⟨b, rfl, h⟩

theorem Follows.error {R : α → β → Prop} (e : φ) (y : Except ψ β) : Follows R (.error e) y :=
  fun _ h => nomatch h

theorem Follows.same (x : Except φ α) : Follows Eq x x := fun a h => ⟨a, h, rfl⟩

theorem Follows.mono {R S : α → β → Prop} {x : Except φ α} {y : Except ψ β} (h : Follows R x y)
    (hm : ∀ a b, R a b → S a b) : Follows S x y := by
  intro a ha
  obtain ⟨b, hb, hr⟩ := h a ha
  exact ⟨b, hb, hm a b hr⟩

/-- **The rule for a sequence.** -/
theorem Follows.bind {R : α → β → Prop} {S : γ → δ → Prop} {x : Except φ α} {y : Except ψ β}
    {f : α → Except φ γ} {g : β → Except ψ δ} (h : Follows R x y)
    (hf : ∀ a b, R a b → Follows S (f a) (g b)) : Follows S (x >>= f) (y >>= g) := by
  intro c hc
  obtain ⟨a, ha, hc⟩ := bind_ok.mp hc
  obtain ⟨b, hb, hr⟩ := h a ha
  obtain ⟨d, hd, hs⟩ := hf a b hr c hc
  exact ⟨d, bind_ok.mpr ⟨b, hb, hd⟩, hs⟩

/-- A sequence whose first part is the same on both sides. -/
theorem Follows.bind_same {S : γ → δ → Prop} {x : Except φ α} {f : α → Except φ γ}
    {g : α → Except φ δ} (hf : ∀ a, Follows S (f a) (g a)) : Follows S (x >>= f) (x >>= g) :=
  (Follows.same x).bind fun a _ h => h ▸ hf a

theorem Follows.ite {R : α → β → Prop} {c : Prop} [Decidable c] {x x' : Except φ α}
    {y y' : Except ψ β} (h : Follows R x y) (h' : Follows R x' y') :
    Follows R (if c then x else x') (if c then y else y') := by
  split
  · exact h
  · exact h'

variable {σ τ ε ι : Type u} {step : σ → ε → Except φ σ} {step' : τ → ι → Except ψ τ}

/-- **Interleaving rule.**  Some events of the second system are events of the first one (`main`).
If the second does then what the first does, and its other steps neither fail nor disturb the
relation while the first is on its way to `last`, then the second follows the whole run. -/
theorem run_interleaved (main : ι → Option ε) {C : τ → ι → Prop} {R : σ → τ → Prop} {last : σ}
    (hmain : ∀ s t i e, main i = some e → R s t → C t i → Follows R (step s e) (step' t i))
    (hother : ∀ s t i, main i = none → R s t → C t i → (∃ es, run step s es = .ok last) →
      ∃ t', step' t i = .ok t' ∧ R s t') :
    ∀ {is : List ι} {s : σ} {t : τ}, R s t → AllSteps step' C t is →
      run step s (is.filterMap main) = .ok last → ∃ t', run step' t is = .ok t' ∧ R last t'
  | [], s, t, hr, _, h => by
    cases h
    exact ⟨t, rfl, hr⟩
  | i :: is, s, t, hr, hc, h => by
    obtain ⟨hi, his⟩ := allSteps_cons.mp hc
    cases hm : main i with
    | none =>
      rw [List.filterMap_cons_none hm] at h
      obtain ⟨t₁, ht, hr₁⟩ := hother s t i hm hr hi ⟨_, h⟩
      obtain ⟨t', ht', hr'⟩ := run_interleaved main hmain hother hr₁ (his t₁ ht) h
      exact ⟨t', run_cons_ok.mpr ⟨t₁, ht, ht'⟩, hr'⟩
    | some e =>
      rw [List.filterMap_cons_some hm] at h
      obtain ⟨s₁, hs, h⟩ := run_cons_ok.mp h
      obtain ⟨t₁, ht, hr₁⟩ := hmain s t i e hm hr hi s₁ hs
      obtain ⟨t', ht', hr'⟩ := run_interleaved main hmain hother hr₁ (his t₁ ht) h
      exact ⟨t', run_cons_ok.mpr ⟨t₁, ht, ht'⟩, hr'⟩

end Runs
