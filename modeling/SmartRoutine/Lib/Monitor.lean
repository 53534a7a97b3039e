import Mathlib.Data.Fintype.Card
import SmartRoutine.Lib.Transition

/-!
# Waiting once on a condition variable

Threads that wait for work before they take part in a system.  Each tests under the lock whether
there is any, and goes to sleep when there is none; a step of the system that calls `notify_one`
wakes one of the sleepers, and a sleeper may wake for no reason.

* `exec_acts` — the system runs as it would without the waiting.
* `exec_untouched` — a thread takes no part before it has come through.
* `exec_awake` — **no wake-up is lost**: if the steps that add work notify, one for each piece of
  it, then while a thread sleeps there is at most as much work as there are threads awake.
-/

set_option autoImplicit false

namespace Monitor

open Transition

inductive Phase where
  /-- About to test, at its arrival or after a wake-up. -/
  | testing
  | asleep
  | through
  deriving DecidableEq, Repr

structure System (W σ ℓ : Type*) where
  step : σ → ℓ → Option σ
  /-- The predicate that the threads wait for is that this is not 0. -/
  work : σ → Nat
  notifies : σ → ℓ → Bool
  /-- The thread that makes a step, if it is one of those that wait. -/
  actor : ℓ → Option W

structure State (W σ : Type*) where
  shared : σ
  phase : W → Phase

inductive Label (W ℓ : Type*) where
  | test (w : W)
  | spurious (w : W)
  /-- A step of the system, and the sleeper that its `notify_one` wakes. -/
  | act (l : ℓ) (woken : Option W)

/-- The steps of the system in a run. -/
def acts {W ℓ : Type*} (ls : List (Label W ℓ)) : List ℓ :=
  ls.filterMap fun
    | .act l _ => some l
    | _ => none

def start {W σ : Type*} (s : σ) : State W σ := ⟨s, fun _ => .testing⟩

section

variable {W σ ℓ : Type*} [DecidableEq W] [Fintype W]

/-- `notify_one`, which wakes a sleeper if there is one. -/
def notifyOne (phase : W → Phase) (woken : Option W) : Option (W → Phase) :=
  match woken with
  | some w => if phase w = .asleep then some (Function.update phase w .testing) else none
  | none => if ∀ w, phase w ≠ .asleep then some phase else none

def step (M : System W σ ℓ) (s : State W σ) : Label W ℓ → Option (State W σ)
  | .test w =>
    if s.phase w = .testing then
      some { s with phase :=
        Function.update s.phase w (if M.work s.shared = 0 then .asleep else .through) }
    else none
  | .spurious w =>
    if s.phase w = .asleep then some { s with phase := Function.update s.phase w .testing } else none
  | .act l woken =>
    if (M.actor l).all (fun w => s.phase w = .through) then
      (M.step s.shared l).bind fun shared =>
        (if M.notifies s.shared l then notifyOne s.phase woken else some s.phase).map fun phase =>
          ⟨shared, phase⟩
    else none

def awake (phase : W → Phase) : Finset W := Finset.univ.filter fun w => phase w ≠ .asleep

/-- While a thread sleeps, there is at most as much work as there are threads awake. -/
def NoneLost (M : System W σ ℓ) (s : State W σ) : Prop :=
  ∀ w, s.phase w = .asleep → M.work s.shared ≤ (awake s.phase).card

variable {M : System W σ ℓ} {s s' : State W σ} {phase : W → Phase} {w w' : W} {p : Phase}

/-- What a step does. -/
inductive Turn (M : System W σ ℓ) (s : State W σ) : Label W ℓ → State W σ → Prop
  | test {w : W} (hw : s.phase w = .testing) : Turn M s (.test w)
    ⟨s.shared, Function.update s.phase w (if M.work s.shared = 0 then .asleep else .through)⟩
  | spurious {w : W} (hw : s.phase w = .asleep) :
    Turn M s (.spurious w) ⟨s.shared, Function.update s.phase w .testing⟩
  | act {l : ℓ} {woken : Option W} {shared : σ} {phase : W → Phase}
    (hactor : (M.actor l).all (fun w => s.phase w = .through) = true)
    (hshared : M.step s.shared l = some shared)
    (hphase : (if M.notifies s.shared l then notifyOne s.phase woken else some s.phase) = some phase) :
    Turn M s (.act l woken) ⟨shared, phase⟩

theorem step_turn {l : Label W ℓ} (hstep : step M s l = some s') : Turn M s l s' := by
  cases l with
  | test w =>
    rw [step] at hstep
    split at hstep
    · rename_i hw
      obtain rfl := Option.some.inj hstep
      exact .test hw
    · cases hstep
  | spurious w =>
    rw [step] at hstep
    split at hstep
    · rename_i hw
      obtain rfl := Option.some.inj hstep
      exact .spurious hw
    · cases hstep
  | act l woken =>
    rw [step] at hstep
    split at hstep
    · rename_i hactor
      obtain ⟨shared, hshared, hmap⟩ := Option.bind_eq_some_iff.1 hstep
      obtain ⟨phase, hphase, rfl⟩ := Option.map_eq_some_iff.1 hmap
      exact .act hactor hshared hphase
    · cases hstep

omit [DecidableEq W] in
@[simp] theorem mem_awake : w ∈ awake phase ↔ phase w ≠ .asleep := by simp [awake]

omit [Fintype W] in
/-- Who sleeps after a thread has got up has slept before. -/
theorem asleep_of_update (hp : p ≠ .asleep) (h : Function.update phase w p w' = .asleep) :
    phase w' = .asleep := by
  by_cases hw : w' = w
  · subst hw
    rw [Function.update_self] at h
    exact absurd h hp
  · rwa [Function.update_of_ne hw] at h

theorem awake_update (hp : p ≠ .asleep) : awake (Function.update phase w p) = insert w (awake phase) := by
  ext w'
  by_cases hw : w' = w
  · subst hw
    simp [hp]
  · simp [hw]

theorem card_awake_le (hp : p ≠ .asleep) :
    (awake phase).card ≤ (awake (Function.update phase w p)).card := by
  rw [awake_update hp]
  exact Finset.card_le_card (Finset.subset_insert ..)

theorem card_awake_wake (hp : p ≠ .asleep) (hw : phase w = .asleep) :
    (awake (Function.update phase w p)).card = (awake phase).card + 1 := by
  rw [awake_update hp, Finset.card_insert_of_notMem (by simp [hw])]

/-- **One step** loses no wake-up. -/
theorem step_noneLost (hwork : ∀ s l s', M.step s l = some s' →
      M.work s' ≤ M.work s + if M.notifies s l then 1 else 0)
    (h : NoneLost M s) {l : Label W ℓ} (hstep : step M s l = some s') : NoneLost M s' := by
  cases step_turn hstep with
  | @test w hw =>
    intro w' hw'
    dsimp only at hw' ⊢
    by_cases hnone : M.work s.shared = 0
    · rw [hnone]
      exact Nat.zero_le _
    · rw [if_neg hnone] at hw' ⊢
      exact (h w' (asleep_of_update (by simp) hw')).trans (card_awake_le (by simp))
  | spurious hw =>
    exact fun w' hw' => (h w' (asleep_of_update (by simp) hw')).trans (card_awake_le (by simp))
  | @act l woken shared phase _ hshared hphase =>
    have hmore := hwork _ _ _ hshared
    split at hphase
    · rename_i hnotifies
      rw [if_pos hnotifies] at hmore
      unfold notifyOne at hphase
      split at hphase
      · -- the step wakes a thread for the work it adds
        rename_i w
        split at hphase
        · rename_i hw
          obtain rfl := Option.some.inj hphase
          intro w' hw'
          have hbound := h w' (asleep_of_update (by simp) hw')
          show M.work shared ≤ (awake (Function.update s.phase w .testing)).card
          rw [card_awake_wake (by simp) hw]
          omega
        · cases hphase
      · split at hphase
        · rename_i hnone
          obtain rfl := Option.some.inj hphase
          exact fun w hw => absurd hw (hnone w)
        · cases hphase
    · rename_i hnotifies
      rw [if_neg hnotifies] at hmore
      obtain rfl := Option.some.inj hphase
      exact fun w hw => hmore.trans (h w hw)

/-- **No wake-up is lost** in a run. -/
theorem exec_awake (hwork : ∀ s l s', M.step s l = some s' →
      M.work s' ≤ M.work s + if M.notifies s l then 1 else 0) {a : σ} {ls : List (Label W ℓ)}
    (hrun : exec (step M) (start a) ls = some s) : NoneLost M s :=
  exec_invariant (fun _ _ _ h hstep => step_noneLost hwork h hstep) ls (fun w hw => by cases hw) hrun

/-- What a step is to the system. -/
theorem step_shared {l : Label W ℓ} (hstep : step M s l = some s') :
    exec M.step s.shared (acts [l]) = some s'.shared := by
  cases step_turn hstep with
  | test | spurious => rfl
  | act _ hshared => exact exec_single hshared

/-- **The system runs as it would without the waiting.** -/
theorem exec_acts (ls : List (Label W ℓ)) (h : exec (step M) s ls = some s') :
    exec M.step s.shared (acts ls) = some s'.shared := by
  induction ls generalizing s with
  | nil =>
    obtain rfl := Option.some.inj h
    rfl
  | cons l ls ih =>
    cases hl : step M s l with
    | none => simp [exec, hl] at h
    | some t =>
      rw [exec_cons hl] at h
      rw [show acts (l :: ls) = acts [l] ++ acts ls from List.filterMap_append (l := [l]),
        exec_append, step_shared hl]
      exact ih h

/-- A thread that has come through stays so. -/
theorem step_through {l : Label W ℓ} (hstep : step M s l = some s') (hw : s.phase w = .through) :
    s'.phase w = .through := by
  have keep {w' : W} {p : Phase} (hw' : s.phase w' ≠ .through) :
      Function.update s.phase w' p w = .through := by
    rwa [Function.update_of_ne]
    rintro rfl
    exact hw' hw
  cases step_turn hstep with
  | test hw' => exact keep (by simp [hw'])
  | spurious hw' => exact keep (by simp [hw'])
  | act _ _ hphase =>
    split at hphase
    · unfold notifyOne at hphase
      split at hphase
      · split at hphase
        · rename_i hw'
          obtain rfl := Option.some.inj hphase
          exact keep (by simp [hw'])
        · cases hphase
      · split at hphase
        · obtain rfl := Option.some.inj hphase
          exact hw
        · cases hphase
    · obtain rfl := Option.some.inj hphase
      exact hw

/-- **A thread takes no part before it has come through**: what only its own steps change is as at
the start. -/
theorem exec_untouched {Q : W → σ → Prop}
    (hQ : ∀ a l a' w, M.step a l = some a' → M.actor l ≠ some w → Q w a → Q w a') {a : σ}
    (hstart : ∀ w, Q w a) {ls : List (Label W ℓ)} (hrun : exec (step M) (start a) ls = some s) :
    ∀ w, s.phase w ≠ .through → Q w s.shared := by
  refine exec_invariant (P := fun s : State W σ => ∀ w, s.phase w ≠ .through → Q w s.shared)
    (fun s l s' h hstep w hw => ?_) ls (fun w _ => hstart w) hrun
  have hold := h w fun hthrough => hw (step_through hstep hthrough)
  cases step_turn hstep with
  | test | spurious => exact hold
  | act hactor hshared =>
    refine hQ _ _ _ w hshared (fun hl => ?_) hold
    rw [hl, Option.all_some] at hactor
    exact hw (step_through hstep (of_decide_eq_true hactor))

theorem exists_notifyOne (phase : W → Phase) : ∃ woken phase', notifyOne phase woken = some phase' := by
  by_cases hnone : ∀ w, phase w ≠ .asleep
  · exact ⟨none, phase, if_pos hnone⟩
  · push Not at hnone
    obtain ⟨w, hw⟩ := hnone
    exact ⟨some w, _, if_pos hw⟩

/-- What the system can do it can do here, if the thread has come through. -/
theorem exists_act {l : ℓ} {shared : σ}
    (hactor : (M.actor l).all (fun w => s.phase w = .through) = true)
    (hshared : M.step s.shared l = some shared) : ∃ woken s', step M s (.act l woken) = some s' := by
  obtain ⟨woken, phase, hphase⟩ := exists_notifyOne s.phase
  refine ⟨woken, ⟨shared, if M.notifies s.shared l then phase else s.phase⟩, ?_⟩
  rw [step, if_pos hactor, hshared, Option.bind_some, hphase]
  split <;> rfl

/-- A thread that tests when there is work comes through. -/
theorem exists_test (hw : s.phase w = .testing) (hwork : M.work s.shared ≠ 0) :
    ∃ s', step M s (.test w) = some s' ∧ s'.phase w = .through := by
  refine ⟨⟨s.shared, Function.update s.phase w .through⟩, ?_, Function.update_self ..⟩
  rw [step, if_pos hw, if_neg hwork]

omit [DecidableEq W] in
/-- With work to do and a thread, one is awake. -/
theorem NoneLost.exists_awake [Nonempty W] (h : NoneLost M s) (hwork : M.work s.shared ≠ 0) :
    ∃ w, s.phase w ≠ .asleep := by
  by_contra hnone
  have hall : ∀ w, s.phase w = .asleep := by simpa using hnone
  have hempty : awake s.phase = ∅ := by
    ext w
    simp [hall w]
  obtain ⟨w⟩ := ‹Nonempty W›
  have hbound := h w (hall w)
  rw [hempty, Finset.card_empty] at hbound
  exact hwork (Nat.le_zero.1 hbound)

end

end Monitor
