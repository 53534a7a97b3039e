import SmartRoutine.Lib.Transition

/-!
# Calls, answers and refinement

An object is a partial function `call : σ → ℓ → Option (σ × ο)`: what a call does to its state and
what it answers, `none` where the call may not be made.  `answers` are those of a sequence of
calls, up to the first one that may not be made.

`Simulates` relates two objects one call at a time; `Simulates.answers_eq` and
`Simulates.exec` carry it over whole sequences of calls, for what the callers see and for the
states reached.

`exec_maps` is for two machines whose steps do not correspond one to one: if every guarded step of
the first is a guarded run of the second under a map of the states, so is every guarded run.
-/

set_option autoImplicit false

namespace Refinement

open Transition

variable {σ τ ℓ ο : Type*}

/-- The state after a call. -/
def next (call : σ → ℓ → Option (σ × ο)) (s : σ) (l : ℓ) : Option σ := (call s l).map Prod.fst

/-- The answers to the calls, in order, up to the first call that may not be made. -/
def answers (call : σ → ℓ → Option (σ × ο)) : σ → List ℓ → List ο
  | _, [] => []
  | s, l :: ls =>
    match call s l with
    | some (s', o) => o :: answers call s' ls
    | none => []

/-- Two objects in related states allow the same calls, answer them alike and stay related. -/
def Simulates (R : σ → τ → Prop) (concrete : σ → ℓ → Option (σ × ο))
    (abstract : τ → ℓ → Option (τ × ο)) : Prop :=
  ∀ s t l, R s t →
    (concrete s l = none ∧ abstract t l = none) ∨
      ∃ s' t' o, concrete s l = some (s', o) ∧ abstract t l = some (t', o) ∧ R s' t'

section

variable {R : σ → τ → Prop} {concrete : σ → ℓ → Option (σ × ο)}
  {abstract : τ → ℓ → Option (τ × ο)}

/-- **Refinement**: no sequence of calls tells related states apart. -/
theorem Simulates.answers_eq (h : Simulates R concrete abstract) (ls : List ℓ) {s : σ} {t : τ}
    (hst : R s t) : answers concrete s ls = answers abstract t ls := by
  induction ls generalizing s t with
  | nil => rfl
  | cons l ls ih =>
    rcases h s t l hst with ⟨hc, ha⟩ | ⟨s', t', o, hc, ha, hst'⟩
    · simp only [answers, hc, ha]
    · simp only [answers, hc, ha, ih hst']

/-- The states reached by the same calls are related. -/
theorem Simulates.exec (h : Simulates R concrete abstract) (ls : List ℓ) {s s' : σ} {t : τ}
    (hst : R s t) (he : exec (next concrete) s ls = some s') :
    ∃ t', exec (next abstract) t ls = some t' ∧ R s' t' := by
  induction ls generalizing s t with
  | nil =>
    simp only [exec_nil, Option.some.injEq] at he
    exact ⟨t, rfl, he ▸ hst⟩
  | cons l ls ih =>
    rcases h s t l hst with ⟨hc, -⟩ | ⟨s₁, t₁, o, hc, ha, hst'⟩
    · simp [Transition.exec, next, hc] at he
    · have hcs : next concrete s l = some s₁ := by simp [next, hc]
      have hat : next abstract t l = some t₁ := by simp [next, ha]
      rw [exec_cons hcs] at he
      rw [exec_cons hat]
      exact ih hst' he

end

/-- **Runs map to runs.** -/
theorem exec_maps {μ : Type*} {step : σ → ℓ → Option σ} {step' : τ → μ → Option τ} {P : σ → Prop}
    {G : σ → ℓ → Prop} {H : τ → μ → Prop} (g : σ → τ)
    (hstep : ∀ s l s', P s → G s l → step s l = some s' →
      P s' ∧ ∃ ms, exec step' (g s) ms = some (g s') ∧ Guarded step' H (g s) ms)
    (ls : List ℓ) {s s' : σ} (hs : P s) (hg : Guarded step G s ls) (hrun : exec step s ls = some s') :
    P s' ∧ ∃ ms, exec step' (g s) ms = some (g s') ∧ Guarded step' H (g s) ms := by
  induction ls generalizing s with
  | nil =>
    obtain rfl := Option.some.inj hrun
    exact ⟨hs, [], rfl, trivial⟩
  | cons l ls ih =>
    cases hl : step s l with
    | none => simp [exec, hl] at hrun
    | some t =>
      rw [exec_cons hl] at hrun
      simp only [Guarded, hl] at hg
      obtain ⟨ht, ms, hexec, hH⟩ := hstep s l t hs hg.1 hl
      obtain ⟨hs', ms', hexec', hH'⟩ := ih ht hg.2 hrun
      refine ⟨hs', ms ++ ms', ?_, (guarded_append hexec).2 ⟨hH, hH'⟩⟩
      rw [exec_append, hexec]
      exact hexec'

end Refinement
