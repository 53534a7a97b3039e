import Mathlib.Data.List.Basic
import Mathlib.Logic.Function.Iterate

/-!
# Partial step functions, runs and guarded runs

A labelled transition system is a function `step : σ → ℓ → Option σ` (`none`: the label is
disabled).  The module fixes what it means

* to execute a list of labels (`exec`),
* for a property to hold in every state visited (`Always`),
* for every executed step to meet a condition on the state before it (`Guarded`),

and packages the inductions once: `exec_invariant`, `exec_invariant_of_guarded`,
`always_of_guarded`, `Guarded.of_invariant`, `Guarded.congr`, `Guarded.of_end`, `exec_total` (a run that is never
stuck) and the exact characterisation `always_iff_guarded` (a property survives a run iff no step
of it breaks the condition; `always_iff_guarded_within` for runs in an environment).

For loops, functions `step : σ → σ` iterated until they are done, `iterate_of_variant` combines an
invariant with a variant.
-/

set_option autoImplicit false

namespace Transition

variable {σ ℓ : Type*}

/-- Execute the labels in order; `none` as soon as one of them is disabled. -/
def exec (step : σ → ℓ → Option σ) : σ → List ℓ → Option σ
  | s, [] => some s
  | s, l :: ls =>
    match step s l with
    | some s' => exec step s' ls
    | none => none

/-- Every executed step meets `G` in the state before it. -/
def Guarded (step : σ → ℓ → Option σ) (G : σ → ℓ → Prop) : σ → List ℓ → Prop
  | _, [] => True
  | s, l :: ls =>
    match step s l with
    | some s' => G s l ∧ Guarded step G s' ls
    | none => True

/-- `P` holds in every state visited, the first one included. -/
def Always (step : σ → ℓ → Option σ) (P : σ → Prop) : σ → List ℓ → Prop
  | s, [] => P s
  | s, l :: ls =>
    match step s l with
    | some s' => P s ∧ Always step P s' ls
    | none => P s

instance Guarded.decidable (step : σ → ℓ → Option σ) (G : σ → ℓ → Prop)
    [∀ s l, Decidable (G s l)] : ∀ s ls, Decidable (Guarded step G s ls)
  | _, [] => isTrue trivial
  | s, l :: ls =>
    match h : step s l with
    | some s' =>
      have := Guarded.decidable step G s' ls
      decidable_of_iff (G s l ∧ Guarded step G s' ls) (by simp [Guarded, h])
    | none => isTrue (by simp [Guarded, h])

instance Always.decidable (step : σ → ℓ → Option σ) (P : σ → Prop) [∀ s, Decidable (P s)] :
    ∀ s ls, Decidable (Always step P s ls)
  | s, [] => inferInstanceAs (Decidable (P s))
  | s, l :: ls =>
    match h : step s l with
    | some s' =>
      have := Always.decidable step P s' ls
      decidable_of_iff (P s ∧ Always step P s' ls) (by simp [Always, h])
    | none => decidable_of_iff (P s) (by simp [Always, h])

section

variable {step : σ → ℓ → Option σ} {G : σ → ℓ → Prop} {P : σ → Prop}

@[simp] theorem exec_nil (s : σ) : exec step s [] = some s := rfl

theorem exec_cons {s s' : σ} {l : ℓ} (h : step s l = some s') (ls : List ℓ) :
    exec step s (l :: ls) = exec step s' ls := by
  simp [exec, h]

theorem exec_single {s s' : σ} {l : ℓ} (h : step s l = some s') : exec step s [l] = some s' := by
  rw [exec_cons h, exec_nil]

theorem guarded_single {s s' : σ} {l : ℓ} (h : step s l = some s') : Guarded step G s [l] ↔ G s l := by
  simp [Guarded, h]

theorem exec_append (s : σ) (ls ms : List ℓ) :
    exec step s (ls ++ ms) = (exec step s ls).bind fun s' => exec step s' ms := by
  induction ls generalizing s with
  | nil => rfl
  | cons l ls ih =>
    cases h : step s l with
    | none => simp [exec, h]
    | some s' => simp [exec, h, ih]

/-- The state after one label more. -/
theorem exec_concat {s s' : σ} {ls : List ℓ} (h : exec step s ls = some s') (l : ℓ) :
    exec step s (ls ++ [l]) = step s' l := by
  rw [exec_append, h]
  cases hl : step s' l <;> simp [exec, hl]

/-- **Guarded invariance**: what every guarded step preserves holds after a guarded run. -/
theorem exec_invariant_of_guarded (hstep : ∀ s l s', P s → G s l → step s l = some s' → P s') :
    ∀ (ls : List ℓ) (s s' : σ), P s → Guarded step G s ls → exec step s ls = some s' → P s'
  | [], s, s', hs, _, h => by
    simp only [exec_nil, Option.some.injEq] at h
    exact h ▸ hs
  | l :: ls, s, s', hs, hg, h => by
    cases hl : step s l with
    | none => simp [exec, hl] at h
    | some t =>
      rw [exec_cons hl] at h
      simp only [Guarded, hl] at hg
      exact exec_invariant_of_guarded hstep ls t s' (hstep s l t hs hg.1 hl) hg.2 h

theorem guarded_append {s s' : σ} {ls ms : List ℓ} (h : exec step s ls = some s') :
    Guarded step G s (ls ++ ms) ↔ Guarded step G s ls ∧ Guarded step G s' ms := by
  induction ls generalizing s with
  | nil =>
    obtain rfl := Option.some.inj h
    simp [Guarded]
  | cons l ls ih =>
    cases hl : step s l with
    | none => simp [exec, hl] at h
    | some t =>
      rw [exec_cons hl] at h
      simp only [List.cons_append, Guarded, hl, ih h, and_assoc]

theorem guarded_of_mem :
    ∀ (ls : List ℓ) (s : σ), (∀ l ∈ ls, ∀ s, G s l) → Guarded step G s ls
  | [], _, _ => trivial
  | l :: ls, s, h => by
    cases hl : step s l with
    | none => simp [Guarded, hl]
    | some t =>
      simp only [Guarded, hl]
      exact ⟨h l (List.mem_cons_self ..) s,
        guarded_of_mem ls t fun l' hl' => h l' (List.mem_cons_of_mem l hl')⟩

/-- **Invariance**: what every step preserves holds after every run. -/
theorem exec_invariant (hstep : ∀ s l s', P s → step s l = some s' → P s') (ls : List ℓ)
    {s s' : σ} (hs : P s) (h : exec step s ls = some s') : P s' :=
  exec_invariant_of_guarded (G := fun _ _ => True) (fun s l s' hP _ => hstep s l s' hP) ls s s' hs
    (guarded_of_mem ls s fun _ _ _ => trivial) h

theorem Always.head {s : σ} {ls : List ℓ} (h : Always step P s ls) : P s := by
  cases ls with
  | nil => exact h
  | cons l ls =>
    cases hl : step s l with
    | none => simpa [Always, hl] using h
    | some t => simp only [Always, hl] at h; exact h.1

theorem Always.mono {Q : σ → Prop} (h : ∀ s, P s → Q s) :
    ∀ (ls : List ℓ) (s : σ), Always step P s ls → Always step Q s ls
  | [], s, hs => h s hs
  | l :: ls, s, hs => by
    cases hl : step s l with
    | none => simp only [Always, hl] at hs ⊢; exact h s hs
    | some t =>
      simp only [Always, hl] at hs ⊢
      exact ⟨h s hs.1, Always.mono h ls t hs.2⟩

/-- What every guarded step preserves holds throughout a guarded run. -/
theorem always_of_guarded (hstep : ∀ s l s', P s → G s l → step s l = some s' → P s') :
    ∀ (ls : List ℓ) (s : σ), P s → Guarded step G s ls → Always step P s ls
  | [], _, hs, _ => hs
  | l :: ls, s, hs, hg => by
    cases hl : step s l with
    | none => simp only [Always, hl]; exact hs
    | some t =>
      simp only [Guarded, hl] at hg
      simp only [Always, hl]
      exact ⟨hs, always_of_guarded hstep ls t (hstep s l t hs hg.1 hl) hg.2⟩

/-- One condition on steps from another, with the help of an invariant of the guarded steps. -/
theorem Guarded.of_invariant {H : σ → ℓ → Prop}
    (hstep : ∀ s l s', P s → G s l → step s l = some s' → P s') (hH : ∀ s l, P s → G s l → H s l) :
    ∀ (ls : List ℓ) (s : σ), P s → Guarded step G s ls → Guarded step H s ls
  | [], _, _, _ => trivial
  | l :: ls, s, hs, hg => by
    cases hl : step s l with
    | none => simp [Guarded, hl]
    | some t =>
      simp only [Guarded, hl] at hg ⊢
      exact ⟨hH s l hs hg.1, Guarded.of_invariant hstep hH ls t (hstep s l t hs hg.1 hl) hg.2⟩

/-- Two conditions that agree on every step from a state with the invariant hold of the same runs,
in an environment that meets `E`. -/
theorem Guarded.congr {E H : σ → ℓ → Prop}
    (hstep : ∀ s l s', P s → E s l → step s l = some s' → P s')
    (hiff : ∀ s l s', P s → E s l → step s l = some s' → (G s l ↔ H s l)) (ls : List ℓ) {s : σ}
    (hs : P s) (henv : Guarded step E s ls) : Guarded step G s ls ↔ Guarded step H s ls := by
  induction ls generalizing s with
  | nil => exact Iff.rfl
  | cons l ls ih =>
    cases hl : step s l with
    | none => simp [Guarded, hl]
    | some t =>
      simp only [Guarded, hl] at henv ⊢
      rw [hiff s l t hs henv.1 hl, ih (hstep s l t hs henv.1 hl) henv.2]

/-- **A condition that the end of a run shows to have held.**  If a step that breaks `G` leads to
`D`, and nothing in an environment that meets `E` leads out of `D`, a run that does not end in `D`
met `G` throughout. -/
theorem Guarded.of_end {E : σ → ℓ → Prop} {D : σ → Prop}
    (hstep : ∀ s l s', P s → G s l → step s l = some s' → P s')
    (hbad : ∀ s l s', P s → ¬ G s l → step s l = some s' → D s')
    (hD : ∀ s l s', D s → E s l → step s l = some s' → D s') :
    ∀ (ls : List ℓ) (s s' : σ), P s → Guarded step E s ls → exec step s ls = some s' → ¬ D s' →
      Guarded step G s ls
  | [], _, _, _, _, _, _ => trivial
  | l :: ls, s, s', hs, henv, hrun, hend => by
    cases hl : step s l with
    | none => simp [exec, hl] at hrun
    | some t =>
      rw [exec_cons hl] at hrun
      simp only [Guarded, hl] at henv ⊢
      have hG : G s l := by
        by_contra hnot
        exact hend (exec_invariant_of_guarded hD ls t s' (hbad s l t hs hnot hl) henv.2 hrun)
      exact ⟨hG, Guarded.of_end hstep hbad hD ls t s' (hstep s l t hs hG hl) henv.2 hrun hend⟩

/-- `Always` is the property of the state after every executable prefix. -/
theorem always_iff_prefix {s : σ} {ls : List ℓ} :
    Always step P s ls ↔ ∀ pre post s', ls = pre ++ post → exec step s pre = some s' → P s' := by
  induction ls generalizing s with
  | nil =>
    constructor
    · intro h pre post s' hp he
      obtain ⟨rfl, rfl⟩ := List.append_eq_nil_iff.1 hp.symm
      simp only [exec_nil, Option.some.injEq] at he
      exact he ▸ h
    · intro h
      exact h [] [] s rfl rfl
  | cons l ls ih =>
    cases hl : step s l with
    | none =>
      simp only [Always, hl]
      constructor
      · intro h pre post s' hp he
        cases pre with
        | nil => simp only [exec_nil, Option.some.injEq] at he; exact he ▸ h
        | cons a pre =>
          simp only [List.cons_append, List.cons.injEq] at hp
          obtain ⟨rfl, _⟩ := hp
          simp [exec, hl] at he
      · intro h
        exact h [] (l :: ls) s rfl rfl
    | some t =>
      simp only [Always, hl]
      constructor
      · rintro ⟨hs, ht⟩ pre post s' hp he
        cases pre with
        | nil => simp only [exec_nil, Option.some.injEq] at he; exact he ▸ hs
        | cons a pre =>
          simp only [List.cons_append, List.cons.injEq] at hp
          obtain ⟨rfl, hp⟩ := hp
          rw [exec_cons hl] at he
          exact ih.1 ht pre post s' hp he
      · intro h
        refine ⟨h [] (l :: ls) s rfl rfl, ih.2 fun pre post s' hp he => ?_⟩
        exact h (l :: pre) post s' (by rw [hp]; rfl) (by rw [exec_cons hl]; exact he)

/-- **Progress**: a run whose steps are all enabled is never stuck.  The invariant may speak of the
labels still to come. -/
theorem exec_total {J : σ → List ℓ → Prop}
    (hstep : ∀ s l ls, J s (l :: ls) → ∃ s', step s l = some s' ∧ J s' ls) :
    ∀ (ls : List ℓ) (s : σ), J s ls → ∃ s', exec step s ls = some s' := by
  intro ls
  induction ls with
  | nil => exact fun s _ => ⟨s, rfl⟩
  | cons l ls ih =>
    intro s hs
    obtain ⟨t, hl, ht⟩ := hstep s l ls hs
    rw [exec_cons hl]
    exact ih t ht

/-- **Exact guards**, with an invariant that may speak of the labels still to come.  If a step from
a state with `J` and `P` re-establishes `P` exactly when it meets `G`, and then keeps `J`, a run
keeps `P` throughout iff all its steps meet `G`. -/
theorem always_iff_guarded_ahead {J : σ → List ℓ → Prop}
    (hJ : ∀ s l ls s', J s (l :: ls) → P s → step s l = some s' → P s' → J s' ls)
    (hG : ∀ s l ls s', J s (l :: ls) → P s → step s l = some s' → (P s' ↔ G s l)) :
    ∀ (ls : List ℓ) (s : σ), J s ls → P s → (Always step P s ls ↔ Guarded step G s ls) := by
  intro ls
  induction ls with
  | nil => exact fun s _ hp => ⟨fun _ => trivial, fun _ => hp⟩
  | cons l ls ih =>
    intro s hj hp
    cases hl : step s l with
    | none => simp [Always, Guarded, hl, hp]
    | some t =>
      simp only [Always, Guarded, hl]
      constructor
      · rintro ⟨_, ht⟩
        have hPt : P t := ht.head
        have hJt := hJ s l ls t hj hp hl hPt
        exact ⟨(hG s l ls t hj hp hl).1 hPt, (ih t hJt hPt).1 ht⟩
      · rintro ⟨hg, ht⟩
        have hPt : P t := (hG s l ls t hj hp hl).2 hg
        have hJt := hJ s l ls t hj hp hl hPt
        exact ⟨hp, (ih t hJt hPt).2 ht⟩

/-- **Exact guards**, with an invariant of the states. -/
theorem always_iff_guarded {J : σ → Prop}
    (hJ : ∀ s l s', J s → P s → step s l = some s' → P s' → J s')
    (hG : ∀ s l s', J s → P s → step s l = some s' → (P s' ↔ G s l)) (ls : List ℓ) (s : σ)
    (hj : J s) (hp : P s) : Always step P s ls ↔ Guarded step G s ls :=
  always_iff_guarded_ahead (J := fun s _ => J s) (fun s l _ s' => hJ s l s')
    (fun s l _ s' => hG s l s') ls s hj hp

/-- **Exact guards** in an environment that meets `E` and keeps `J`. -/
theorem always_iff_guarded_within {E : σ → ℓ → Prop} {J : σ → Prop}
    (hJ : ∀ s l s', J s → E s l → step s l = some s' → J s')
    (hG : ∀ s l s', J s → P s → E s l → step s l = some s' → (P s' ↔ G s l)) :
    ∀ (ls : List ℓ) (s : σ), J s → P s → Guarded step E s ls →
      (Always step P s ls ↔ Guarded step G s ls)
  | [], _, _, hp, _ => ⟨fun _ => trivial, fun _ => hp⟩
  | l :: ls, s, hj, hp, henv => by
    cases hl : step s l with
    | none => simp [Always, Guarded, hl, hp]
    | some t =>
      simp only [Always, Guarded, hl] at henv ⊢
      have hiff := hG s l t hj hp henv.1 hl
      have ih (ht : P t) := always_iff_guarded_within hJ hG ls t (hJ s l t hj henv.1 hl) ht henv.2
      constructor
      · rintro ⟨-, ht⟩
        exact ⟨hiff.1 ht.head, (ih ht.head).1 ht⟩
      · rintro ⟨hg, ht⟩
        exact ⟨hp, (ih (hiff.2 hg)).2 ht⟩

end

/-! ## Loops with a variant -/

section

variable {step : σ → σ} {P J Done : σ → Prop} {variant : σ → Nat}

theorem iterate_keeps (hP : ∀ s, P s → P (step s)) : ∀ (n : Nat) (s : σ), P s → P (step^[n] s)
  | 0, _, hs => hs
  | n + 1, s, hs => iterate_keeps hP n (step s) (hP s hs)

/-- A loop that keeps `J` and decreases `variant` until it is done is done after as many turns as
the variant says. -/
theorem iterate_of_variant (hJ : ∀ s, J s → J (step s)) (hdone : ∀ s, Done s → Done (step s))
    (hdec : ∀ s, J s → ¬ Done s → variant (step s) < variant s) :
    ∀ (n : Nat) (s : σ), J s → variant s ≤ n → J (step^[n] s) ∧ Done (step^[n] s)
  | 0, s, hs, hn => by
    refine ⟨hs, ?_⟩
    by_contra hnot
    have := hdec s hs hnot
    omega
  | n + 1, s, hs, hn => by
    rw [Function.iterate_succ_apply]
    by_cases hd : Done s
    · exact ⟨iterate_keeps hJ n _ (hJ s hs), iterate_keeps hdone n _ (hdone s hd)⟩
    · have := hdec s hs hd
      exact iterate_of_variant hJ hdone hdec n (step s) (hJ s hs) (by omega)

end

end Transition
