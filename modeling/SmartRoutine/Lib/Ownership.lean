import Mathlib.Logic.ExistsUnique
import Mathlib.Logic.Function.Basic

/-!
# Ownership of resources

Owners hold at most one resource each, and a resource is live from when it is acquired until it is
released.

* `Exact` — every live resource has one holder, and nothing else is held.
* `Exact.acquire`, `Exact.release`, `Exact.transfer`, `Exact.replace` — the ways in which ownership
  changes.
-/

set_option autoImplicit false

namespace Ownership

variable {ι ρ : Type*}

structure Exact (holds : ι → Option ρ) (live : ρ → Prop) : Prop where
  live_of_holds : ∀ i r, holds i = some r → live r
  holder_unique : ∀ i j r, holds i = some r → holds j = some r → i = j
  holder_exists : ∀ r, live r → ∃ i, holds i = some r

section

variable {holds : ι → Option ρ} {live : ρ → Prop} {i j : ι} {r old : ρ}

theorem Exact.existsUnique (h : Exact holds live) (hr : live r) : ∃! i, holds i = some r := by
  obtain ⟨i, hi⟩ := h.holder_exists r hr
  exact ⟨i, hi, fun j hj => h.holder_unique j i r hj hi⟩

theorem Exact.congr {live' : ρ → Prop} (h : Exact holds live) (hlive : ∀ r, live' r ↔ live r) :
    Exact holds live' :=
  ⟨fun i r hi => (hlive r).2 (h.live_of_holds i r hi), h.holder_unique,
    fun r hr => h.holder_exists r ((hlive r).1 hr)⟩

variable [DecidableEq ι]

/-- A holder of nothing acquires a resource that is not live. -/
theorem Exact.acquire (h : Exact holds live) (hi : holds i = none) (hr : ¬ live r) :
    Exact (Function.update holds i (some r)) fun x => x = r ∨ live x := by
  refine ⟨?_, ?_, ?_⟩
  · intro k x hk
    by_cases hki : k = i
    · subst hki
      rw [Function.update_self] at hk
      exact Or.inl (Option.some.inj hk).symm
    · rw [Function.update_of_ne hki] at hk
      exact Or.inr (h.live_of_holds k x hk)
  · intro k l x hk hl
    by_cases hki : k = i <;> by_cases hli : l = i
    · rw [hki, hli]
    · subst hki
      rw [Function.update_self] at hk
      rw [Function.update_of_ne hli] at hl
      exact absurd (h.live_of_holds l x hl) (Option.some.inj hk ▸ hr)
    · subst hli
      rw [Function.update_self] at hl
      rw [Function.update_of_ne hki] at hk
      exact absurd (h.live_of_holds k x hk) (Option.some.inj hl ▸ hr)
    · rw [Function.update_of_ne hki] at hk
      rw [Function.update_of_ne hli] at hl
      exact h.holder_unique k l x hk hl
  · rintro x (rfl | hx)
    · exact ⟨i, Function.update_self ..⟩
    · obtain ⟨k, hk⟩ := h.holder_exists x hx
      refine ⟨k, ?_⟩
      rw [Function.update_of_ne _, hk]
      rintro rfl
      rw [hi] at hk
      cases hk

/-- A holder lets its resource go, and it is live no more. -/
theorem Exact.release (h : Exact holds live) (hi : holds i = some r) :
    Exact (Function.update holds i none) fun x => live x ∧ x ≠ r := by
  refine ⟨?_, ?_, ?_⟩
  · intro k x hk
    by_cases hki : k = i
    · subst hki
      rw [Function.update_self] at hk
      cases hk
    · rw [Function.update_of_ne hki] at hk
      refine ⟨h.live_of_holds k x hk, ?_⟩
      rintro rfl
      exact hki (h.holder_unique k i x hk hi)
  · intro k l x hk hl
    by_cases hki : k = i
    · subst hki
      rw [Function.update_self] at hk
      cases hk
    · by_cases hli : l = i
      · subst hli
        rw [Function.update_self] at hl
        cases hl
      · rw [Function.update_of_ne hki] at hk
        rw [Function.update_of_ne hli] at hl
        exact h.holder_unique k l x hk hl
  · rintro x ⟨hx, hne⟩
    obtain ⟨k, hk⟩ := h.holder_exists x hx
    refine ⟨k, ?_⟩
    rw [Function.update_of_ne _, hk]
    rintro rfl
    rw [hi] at hk
    exact hne (Option.some.inj hk).symm

/-- A resource goes from one holder to one that held nothing. -/
theorem Exact.transfer (h : Exact holds live) (hij : i ≠ j) (hj : holds j = none) :
    Exact (Function.update (Function.update holds i none) j (holds i)) live := by
  cases hi : holds i with
  | none =>
    have hi' : Function.update holds i none = holds := by rw [← hi, Function.update_eq_self]
    have hj' : Function.update holds j none = holds := by rw [← hj, Function.update_eq_self]
    rw [hi', hj']
    exact h
  | some r =>
    have hgone := h.release hi
    have hnone : Function.update holds i none j = none := by
      rw [Function.update_of_ne hij.symm, hj]
    apply (hgone.acquire hnone fun hr => hr.2 rfl).congr
    intro x
    by_cases hx : x = r
    · simp only [hx, true_or, iff_true]
      exact h.live_of_holds i r hi
    · simp [hx]

/-- A holder acquires a resource in the place of the one it had. -/
theorem Exact.replace (h : Exact holds live) (hi : holds i = some old) (hr : ¬ live r) :
    Exact (Function.update holds i (some r)) fun x => (x = r ∨ live x) ∧ x ≠ old := by
  have hgone := h.release hi
  have hdead : ¬ (live r ∧ r ≠ old) := fun hlive => hr hlive.1
  have hnew := hgone.acquire (Function.update_self ..) hdead
  rw [Function.update_idem] at hnew
  apply hnew.congr
  intro x
  have hne : r ≠ old := by
    rintro rfl
    exact hr (h.live_of_holds i r hi)
  constructor
  · rintro ⟨rfl | hx, hxold⟩
    · exact Or.inl rfl
    · exact Or.inr ⟨hx, hxold⟩
  · rintro (rfl | ⟨hx, hxold⟩)
    · exact ⟨Or.inl rfl, hne⟩
    · exact ⟨Or.inr hx, hxold⟩

end

end Ownership
