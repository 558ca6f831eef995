import Mathlib

/-!
# Runs of a fallible step function

A system is a function `step : σ → ε → Except φ σ`: one event either moves the state or fails.
This file names nothing of any program.  It fixes what a run over a list of events is, and the
rules by which a property of one step becomes a property of whole runs:

* `run_invariant` — what every (admitted) step preserves holds in the state a run ends in;
* `run_drains` — and what every step lowers, a run lowers by the sum;
* `run_total` — if in addition no admitted step fails, the run does not fail either;
* `run_unless` — and if steps fail in one way only, so do runs;
* `run_ends` — what every admitted step leaves, also by failing, an admitted run leaves;
* `run_simulates` — if one system follows another step by step, it follows its runs.

`AllSteps` says that every step of a run is admitted: it looks at the state before each event, so
a condition stated with it never speaks about what the step computes.
-/

set_option autoImplicit false

namespace Runs

universe u

/-- `x >>= f` succeeds exactly when both halves do. -/
theorem bind_ok {φ α β : Type u} {x : Except φ α} {f : α → Except φ β} {b : β} :
    x >>= f = .ok b ↔ ∃ a, x = .ok a ∧ f a = .ok b := by
  cases x with
  | error e => simp [bind, Except.bind]
  | ok a => simp [bind, Except.bind]

/-- `x >>= f` fails when either half does. -/
theorem bind_error {φ α β : Type u} {x : Except φ α} {f : α → Except φ β} {e : φ} :
    x >>= f = .error e ↔ x = .error e ∨ ∃ a, x = .ok a ∧ f a = .error e := by
  cases x with
  | error e => simp [bind, Except.bind]
  | ok a => simp [bind, Except.bind]

@[simp] theorem ok_bind {φ α β : Type u} (a : α) (f : α → Except φ β) :
    (Except.ok a : Except φ α) >>= f = f a := rfl

@[simp] theorem error_bind {φ α β : Type u} (e : φ) (f : α → Except φ β) :
    (Except.error e : Except φ α) >>= f = .error e := rfl

@[simp] theorem pure_ok {φ α : Type u} (a : α) : (pure a : Except φ α) = .ok a := rfl

@[simp] theorem throw_error {φ α : Type u} (e : φ) : (throw e : Except φ α) = .error e := rfl

/-- `x` returns a value that meets `Q`, unless it fails with `e`. -/
def Unless {φ α : Type u} (e : φ) (Q : α → Prop) : Except φ α → Prop
  | .ok a => Q a
  | .error e' => e' = e

theorem Unless.mono {φ α : Type u} {e : φ} {P Q : α → Prop} {x : Except φ α} (hx : Unless e P x)
    (h : ∀ a, P a → Q a) : Unless e Q x := by
  cases x with
  | error e' => exact hx
  | ok a => exact h a hx

theorem Unless.bind {φ α β : Type u} {e : φ} {P : α → Prop} {Q : β → Prop} {x : Except φ α}
    {f : α → Except φ β} (hx : Unless e P x) (hf : ∀ a, P a → Unless e Q (f a)) :
    Unless e Q (x >>= f) := by
  cases x with
  | error e' => exact hx
  | ok a => exact hf a hx

theorem Unless.ok_of_ne {φ α : Type u} {e : φ} {Q : α → Prop} {x : Except φ α} (hx : Unless e Q x)
    (h : x ≠ .error e) : ∃ a, x = .ok a ∧ Q a := by
  cases x with
  | error e' => exact absurd (congrArg Except.error hx) h
  | ok a => exact ⟨a, rfl, hx⟩

/-- `x` does not fail. -/
def Returns {φ α : Type u} (x : Except φ α) : Prop := ∃ a, x = .ok a

theorem returns_ok {φ α : Type u} (a : α) : Returns (.ok a : Except φ α) := ⟨a, rfl⟩

theorem returns_bind {φ α β : Type u} {x : Except φ α} {f : α → Except φ β} :
    Returns (x >>= f) ↔ ∃ a, x = .ok a ∧ Returns (f a) := by
  simp only [Returns, bind_ok]
  exact ⟨fun ⟨b, a, hx, hf⟩ => ⟨a, hx, b, hf⟩, fun ⟨a, hx, b, hf⟩ => ⟨b, a, hx, hf⟩⟩

theorem Returns.step {φ α β : Type u} {x : Except φ α} {f : α → Except φ β} {a : α}
    (hx : x = .ok a) (hf : Returns (f a)) : Returns (x >>= f) := returns_bind.mpr ⟨a, hx, hf⟩

theorem ok_of_isSome {φ α : Type u} {x : Except φ α} (h : x.toOption.isSome) :
    ∃ a, x = .ok a := by
  cases x with
  | error e => cases h
  | ok a => exact ⟨a, rfl⟩

theorem map_ok {φ α β : Type u} {x : Except φ α} {f : α → β} {b : β} :
    x.map f = .ok b ↔ ∃ a, x = .ok a ∧ f a = b := by
  cases x <;> simp [Except.map]

theorem map_error {φ α β : Type u} {x : Except φ α} {f : α → β} {e : φ} :
    x.map f = .error e ↔ x = .error e := by
  cases x <;> simp [Except.map]

theorem ok_of_toOption {φ α : Type u} {x : Except φ α} {a : α} (h : x.toOption = some a) :
    x = .ok a := by
  cases x with
  | error e => cases h
  | ok a' => exact congrArg Except.ok (Option.some.inj h)

/-- What is computed from the result of `x`. -/
theorem ok_of_map {φ α β : Type u} {x : Except φ α} {f : α → β} {b : β}
    (h : x.toOption.map f = some b) : ∃ a, x = .ok a ∧ f a = b := by
  obtain ⟨a, ha, hb⟩ := Option.map_eq_some_iff.mp h
  exact ⟨a, ok_of_toOption ha, hb⟩

theorem ok_getD {φ α : Type u} {x : Except φ α} {d : α} (h : x.toOption.isSome) :
    x = .ok (x.toOption.getD d) := by
  cases x with
  | error e => cases h
  | ok a => rfl

variable {σ ε φ : Type u} {step : σ → ε → Except φ σ}

/-- Process the events in order; the first failure ends the run. -/
def run (step : σ → ε → Except φ σ) : σ → List ε → Except φ σ
  | s, [] => .ok s
  | s, e :: es => step s e >>= fun s' => run step s' es

@[simp] theorem run_nil (s : σ) : run step s [] = .ok s := rfl

theorem run_cons_ok {s s' : σ} {e : ε} {es : List ε} :
    run step s (e :: es) = .ok s' ↔ ∃ t, step s e = .ok t ∧ run step t es = .ok s' := by
  rw [run, bind_ok]

theorem run_append : ∀ (es fs : List ε) (s : σ),
    run step s (es ++ fs) = run step s es >>= fun t => run step t fs
  | [], _, _ => rfl
  | e :: es, fs, s => by
    rw [List.cons_append, run, run, bind_assoc]
    congr 1
    funext t
    exact run_append es fs t

theorem run_append_ok {s s' : σ} {es fs : List ε} :
    run step s (es ++ fs) = .ok s' ↔ ∃ t, run step s es = .ok t ∧ run step t fs = .ok s' := by
  rw [run_append]
  exact bind_ok

/-- Every step of the run from `s` over `es` meets `cond` in the state before it. -/
def AllSteps (step : σ → ε → Except φ σ) (cond : σ → ε → Prop) : σ → List ε → Prop
  | _, [] => True
  | s, e :: es => cond s e ∧
    match step s e with
    | .ok s' => AllSteps step cond s' es
    | .error _ => True

instance AllSteps.decidable {cond : σ → ε → Prop} [∀ s e, Decidable (cond s e)] :
    ∀ (s : σ) (es : List ε), Decidable (AllSteps step cond s es)
  | _, [] => .isTrue trivial
  | s, e :: es =>
    have : Decidable (match step s e with
        | .ok s' => AllSteps step cond s' es
        | .error _ => True) :=
      match step s e with
      | .ok s' => AllSteps.decidable s' es
      | .error _ => .isTrue trivial
    inferInstanceAs (Decidable (_ ∧ _))

@[simp] theorem allSteps_nil {cond : σ → ε → Prop} (s : σ) : AllSteps step cond s [] := trivial

theorem allSteps_cons {cond : σ → ε → Prop} {s : σ} {e : ε} {es : List ε} :
    AllSteps step cond s (e :: es) ↔
      cond s e ∧ ∀ s', step s e = .ok s' → AllSteps step cond s' es := by
  rw [AllSteps]
  cases step s e <;> simp

theorem AllSteps.mono {cond cond' : σ → ε → Prop} (hc : ∀ s e, cond s e → cond' s e) :
    ∀ {es : List ε} {s : σ}, AllSteps step cond s es → AllSteps step cond' s es
  | [], _, _ => trivial
  | _ :: _, _, h => by
    rw [allSteps_cons] at h ⊢
    exact ⟨hc _ _ h.1, fun s' hs => (h.2 s' hs).mono hc⟩

theorem AllSteps.and {cond cond' : σ → ε → Prop} :
    ∀ {es : List ε} {s : σ}, AllSteps step cond s es → AllSteps step cond' s es →
      AllSteps step (fun s e => cond s e ∧ cond' s e) s es
  | [], _, _, _ => trivial
  | _ :: _, _, h, h' => by
    rw [allSteps_cons] at h h' ⊢
    exact ⟨⟨h.1, h'.1⟩, fun s' hs => (h.2 s' hs).and (h'.2 s' hs)⟩

theorem AllSteps.of_forall {cond : ε → Prop} :
    ∀ {es : List ε} {s : σ}, (∀ e ∈ es, cond e) → AllSteps step (fun _ e => cond e) s es
  | [], _, _ => trivial
  | _ :: _, _, h => by
    obtain ⟨he, hes⟩ := List.forall_mem_cons.mp h
    exact allSteps_cons.mpr ⟨he, fun _ _ => .of_forall hes⟩

theorem allSteps_append {cond : σ → ε → Prop} :
    ∀ {es fs : List ε} {s : σ}, AllSteps step cond s (es ++ fs) ↔
      AllSteps step cond s es ∧ ∀ t, run step s es = .ok t → AllSteps step cond t fs
  | [], fs, s => by simp
  | e :: es, fs, s => by
    rw [List.cons_append, allSteps_cons, allSteps_cons, and_assoc]
    refine and_congr_right fun _ => ⟨fun h => ⟨fun s' hs => (allSteps_append.mp (h s' hs)).1, ?_⟩,
      fun h s' hs => allSteps_append.mpr ⟨h.1 s' hs, ?_⟩⟩
    · intro t ht
      obtain ⟨u, hu, hr⟩ := run_cons_ok.mp ht
      exact (allSteps_append.mp (h u hu)).2 t hr
    · intro t ht
      exact h.2 t (run_cons_ok.mpr ⟨s', hs, ht⟩)

/-- **Invariant rule.** What each admitted step preserves holds at the end of an admitted run. -/
theorem run_invariant {C : σ → ε → Prop} {I : σ → Prop}
    (hstep : ∀ s e s', I s → C s e → step s e = .ok s' → I s') :
    ∀ {es : List ε} {s s' : σ}, I s → AllSteps step C s es → run step s es = .ok s' → I s'
  | [], _, _, hs, _, h => by cases h; exact hs
  | e :: es, s, s', hs, hc, h => by
    obtain ⟨t, ht, hr⟩ := run_cons_ok.mp h
    obtain ⟨he, hes⟩ := allSteps_cons.mp hc
    exact run_invariant hstep (hstep s e t hs he ht) (hes t ht) hr

/-- The invariant rule when every step is admitted. -/
theorem run_invariant_all {I : σ → Prop}
    (hstep : ∀ s e s', I s → step s e = .ok s' → I s') :
    ∀ {es : List ε} {s s' : σ}, I s → run step s es = .ok s' → I s'
  | [], _, _, hs, h => by cases h; exact hs
  | e :: es, s, s', hs, h => by
    obtain ⟨t, ht, hr⟩ := run_cons_ok.mp h
    exact run_invariant_all hstep (hstep s e t hs ht) hr

/-- The invariant rule with one way to fail. -/
theorem run_unless {I : σ → Prop} {f : φ} (hstep : ∀ s e, I s → Unless f I (step s e)) :
    ∀ {es : List ε} {s : σ}, I s → Unless f I (run step s es)
  | [], _, hs => hs
  | e :: _, s, hs => (hstep s e hs).bind fun _ ht => run_unless hstep ht

/-- **Drain rule.** If each event lowers a measure by its `cost`, as far as there is that much left, a
run lowers it by what its events cost together. -/
theorem run_drains {C : ε → Prop} {I : σ → Prop} {measure : σ → Nat} {cost : ε → Nat}
    (hstep : ∀ s e s', I s → C e → step s e = .ok s' → I s' ∧ measure s' ≤ measure s - cost e) :
    ∀ {es : List ε} {s s' : σ}, I s → (∀ e ∈ es, C e) → run step s es = .ok s' →
      I s' ∧ measure s' ≤ measure s - (es.map cost).sum
  | [], s, s', hs, _, h => by
    cases h
    exact ⟨hs, Nat.le_refl _⟩
  | e :: es, s, s', hs, hc, h => by
    obtain ⟨t, ht, hr⟩ := run_cons_ok.mp h
    obtain ⟨he, hes⟩ := List.forall_mem_cons.mp hc
    obtain ⟨hi, hle⟩ := hstep s e t hs he ht
    obtain ⟨hi', hle'⟩ := run_drains hstep hi hes hr
    refine ⟨hi', ?_⟩
    rw [List.map_cons, List.sum_cons]
    omega

/-- **Totality rule.** If admitted steps never fail and keep `I`, admitted runs never fail. -/
theorem run_total {cond : σ → ε → Prop} {I : σ → Prop}
    (hstep : ∀ s e, I s → cond s e → ∃ s', step s e = .ok s' ∧ I s') :
    ∀ {es : List ε} {s : σ}, I s → AllSteps step cond s es →
      ∃ s', run step s es = .ok s' ∧ I s'
  | [], s, hs, _ => ⟨s, rfl, hs⟩
  | e :: es, s, hs, hc => by
    obtain ⟨he, hes⟩ := allSteps_cons.mp hc
    obtain ⟨t, ht, hi⟩ := hstep s e hs he
    obtain ⟨s', hr, hi'⟩ := run_total hstep hi (hes t ht)
    exact ⟨s', run_cons_ok.mpr ⟨t, ht, hr⟩, hi'⟩

/-- What a step or a run leaves: `I` of a state, `E` of a failure. -/
def Ends (I : σ → Prop) (E : φ → Prop) : Except φ σ → Prop
  | .ok s => I s
  | .error f => E f

/-- **Outcome rule.** -/
theorem run_ends {C : σ → ε → Prop} {I : σ → Prop} {E : φ → Prop}
    (hstep : ∀ s e, I s → C s e → Ends I E (step s e)) :
    ∀ {es : List ε} {s : σ}, I s → AllSteps step C s es → Ends I E (run step s es)
  | [], _, hs, _ => hs
  | e :: es, s, hs, hc => by
    obtain ⟨he, hes⟩ := allSteps_cons.mp hc
    have h := hstep s e hs he
    rw [run]
    cases ht : step s e with
    | ok t =>
      rw [ht] at h
      exact run_ends hstep h (hes t ht)
    | error f =>
      rw [ht] at h
      exact h

/-- Events under other names. -/
theorem run_map {δ : Type u} (f : δ → ε) : ∀ (ds : List δ) (s : σ),
    run step s (ds.map f) = run (fun s d => step s (f d)) s ds
  | [], _ => rfl
  | d :: ds, s => by
    rw [List.map_cons, run, run]
    congr 1
    funext t
    exact run_map f ds t

/-- **Simulation rule.** `R` relates the states of two systems that take the same events; whatever
the first does with an admitted event, the second can do. -/
theorem run_simulates {τ : Type u} {step' : τ → ε → Except φ τ} {C : σ → ε → Prop}
    {R : σ → τ → Prop}
    (hstep : ∀ s t e s', R s t → C s e → step s e = .ok s' → ∃ t', step' t e = .ok t' ∧ R s' t') :
    ∀ {es : List ε} {s s' : σ} {t : τ}, R s t → AllSteps step C s es → run step s es = .ok s' →
      ∃ t', run step' t es = .ok t' ∧ R s' t'
  | [], _, _, t, hr, _, h => by cases h; exact ⟨t, rfl, hr⟩
  | e :: es, s, s', t, hr, hc, h => by
    obtain ⟨s₁, hs, h⟩ := run_cons_ok.mp h
    obtain ⟨he, hes⟩ := allSteps_cons.mp hc
    obtain ⟨t₁, ht, hr₁⟩ := hstep s t e s₁ hr he hs
    obtain ⟨t', ht', hr'⟩ := run_simulates hstep hr₁ (hes s₁ hs) h
    exact ⟨t', run_cons_ok.mpr ⟨t₁, ht, ht'⟩, hr'⟩

end Runs
