import Mathlib.Data.List.Infix
import SmartRoutine.Lib.Transition

/-!
# Queues served in order

`outputs` is what the steps of a run hand out.  A queue is served in order when a step hands out
nothing before what was in the queue: `prefix_outputs` carries that from steps to runs, and
`waits` says what becomes of an element at a known position, for any number of steps.
-/

set_option autoImplicit false

namespace InOrder

open Transition

variable {σ ℓ α : Type*}

/-- What the executed steps hand out, in order. -/
def outputs (step : σ → ℓ → Option σ) (out : σ → ℓ → List α) : σ → List ℓ → List α
  | _, [] => []
  | s, l :: ls =>
    match step s l with
    | some s' => out s l ++ outputs step out s' ls
    | none => []

variable {step : σ → ℓ → Option σ} {q : σ → List α} {P : σ → Prop} {G : σ → ℓ → Prop}

/-- **A run serves the queue in order** if its steps do. -/
theorem prefix_outputs (out : σ → ℓ → List α)
    (hstep : ∀ s l s', P s → G s l → step s l = some s' → P s' ∧ q s <+: out s l ++ q s') :
    ∀ (ls : List ℓ) (s s' : σ), P s → Guarded step G s ls → exec step s ls = some s' →
      q s <+: outputs step out s ls ++ q s'
  | [], s, s', _, _, h => by
    obtain rfl := Option.some.inj h
    exact List.prefix_rfl
  | l :: ls, s, s', hs, hg, h => by
    cases hl : step s l with
    | none => simp [exec, hl] at h
    | some t =>
      rw [exec_cons hl] at h
      simp only [Guarded, hl] at hg
      obtain ⟨ht, hq⟩ := hstep s l t hs hg.1 hl
      have ih := prefix_outputs out hstep ls t s' ht hg.2 h
      simp only [outputs, hl, List.append_assoc]
      exact hq.trans ((List.prefix_append_right_inj _).2 ih)

/-- **An element waits for what is before it**: at position `k` it is the output number `k`, or it
has moved up by what has been handed out. -/
theorem waits {xs ys zs : List α} (h : xs <+: ys ++ zs) {k : Nat} {c : α} (hc : xs[k]? = some c) :
    if k < ys.length then ys[k]? = some c else zs[k - ys.length]? = some c := by
  have hk : (ys ++ zs)[k]? = some c := by
    obtain ⟨rest, hrest⟩ := h
    rw [← hrest, List.getElem?_append_left (List.getElem?_eq_some_iff.1 hc).1]
    exact hc
  split
  · rename_i hlt
    rwa [List.getElem?_append_left hlt] at hk
  · rename_i hge
    rwa [List.getElem?_append_right (Nat.le_of_not_lt hge)] at hk

end InOrder
