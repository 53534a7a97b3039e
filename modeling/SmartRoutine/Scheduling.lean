import SmartRoutine.SchedulerInv

/-!
# What the scheduler guarantees

* `run_noDoubleScheduling` — with one worker no coroutine is ever scheduled twice, run while it
  is queued, or freed while it is in use, in any reachable state.
* `run_touches_own` — with any number of workers, as long as every coroutine finishes on the
  worker that entered it, a thread touches the ring, the running coroutine and the deferred action
  of its own worker object only.  `finish_touches_foreign` — one migration between entry and finish
  is enough to break this: `coro_runner` has kept `tls_st` of the old worker.
-/

set_option autoImplicit false

namespace SmartRoutine

open BoundedQueue

section

variable {W : Type}

/-- The executing thread and the worker object whose members an event reads or writes. -/
def Event.touches : Event W → Option (W × W)
  | .access t self _ => some (t, self)
  | .store t self _ _ => some (t, self)
  | .exec t self _ => some (t, self)
  | .switch t self _ _ _ => some (t, self)
  | .destroy .. => none

theorem EventOk.touches {e : Event W} (h : EventOk e) {t self : W} (ht : e.touches = some (t, self)) :
    self = t := by
  cases e <;> simp only [Event.touches, Option.some.injEq, Prod.mk.injEq, reduceCtorEq] at ht
  all_goals obtain ⟨rfl, rfl⟩ := ht
  case access => exact h
  case store => exact h
  case exec => exact h
  case switch => exact h.1

/-- **A thread touches its own worker object only**, in every run in which every coroutine
finishes on the worker that entered it. -/
theorem run_touches_own [DecidableEq W] (f : Flags) (hf : 0 < f.capacity) (ls : List (Label W))
    (s : SmartRuntime W) (hrun : run f ls = some s)
    (hhome : Transition.Guarded (step f) (fun s l => finishesHome s l) (.init f) ls) :
    ∀ e ∈ s.trace, ∀ t self, e.touches = some (t, self) → self = t := by
  intro e he t self ht
  obtain ⟨ρ, hinv⟩ := run_inv hf hrun hhome
  exact (hinv.trace.events e he).touches ht

/-- A coroutine blocks on worker `false`, is completed by the epoller thread and taken by worker
`true`. -/
def migration : List (Label Bool) :=
  [.externalStart, .worker false .advance, .worker false .advance, .worker false .read,
    .worker false .advance, .worker false .advance, .ioComplete (.user 0), .worker true .advance]

theorem run_touches_own_migration :
    ∃ s, run ⟨25, 10⟩ migration = some s ∧
      ∀ e ∈ s.trace, ∀ t self, e.touches = some (t, self) → self = t := by
  obtain ⟨s, hs⟩ := Option.isSome_iff_exists.1
    (by decide +kernel : (run ⟨25, 10⟩ migration).isSome = true)
  exact ⟨s, hs, run_touches_own ⟨25, 10⟩ (by decide) migration s hs (by decide +kernel)⟩

/-- **Finishing after a migration touches the old worker's object**: worker `true` stores
`destroy_coro` into the deferred action of worker `false`. -/
theorem finish_touches_foreign :
    ∃ s, run ⟨25, 10⟩ (migration ++ [.worker true .finish]) = some s ∧
      ∃ e ∈ s.trace, e.touches = some (true, false) := by
  obtain ⟨s, hs, ht⟩ := Option.map_eq_some_iff.1 (by decide +kernel :
    (run ⟨25, 10⟩ (migration ++ [.worker true .finish])).map
      (fun s => s.trace.any fun e => e.touches == some (true, false)) = some true)
  refine ⟨s, hs, ?_⟩
  simpa using ht

end

/-! ## One worker -/

/-- What holds in every reachable state of a runtime with one worker. -/
structure NoDoubleScheduling (s : SmartRuntime Unit) : Prop where
  /-- No coroutine occurs twice among the ring, the global list and the parked set. -/
  nodup : ((s.threads ()).taskQueue.toList ++ s.taskList ++ s.parked).Nodup
  /-- None of them runs, has finished or is destroyed. -/
  waiting : ∀ c ∈ (s.threads ()).taskQueue.toList ++ s.taskList ++ s.parked,
    c ≠ (s.threads ()).currentCoro ∧ (s.coros c).finished = false ∧ (s.coros c).destroyed = false
  /-- `switch_to` is given fresh contexts and contexts suspended in `switch_to` only. -/
  targets : ∀ t self src dst target, .switch t self src dst target ∈ s.trace →
    (target.fcontext = .fresh ∨ (∃ r, target.fcontext = .inYield r) ∨
      ∃ w, target.fcontext = .inLoop w) ∧ target.destroyed = false
  /-- `destroy_coro` is executed at most once per coroutine. -/
  destroyOnce : ∀ c, s.trace.countP (·.destroys c) ≤ 1
  /-- `destroy_coro` is given finished coroutines that do not run only. -/
  destroyed : ∀ t c target cur, .destroy t c target cur ∈ s.trace → target.finished = true ∧ c ≠ cur

/-- The running coroutine waits nowhere. -/
theorem current_not_atRest {W : Type} {s : SmartRuntime W} {ρ : Nat → Place W} {w : W} {n : Nat}
    (h : WorkerOk s ρ w) (hcur : (s.threads w).currentCoro = .user n) : ¬ (ρ n).AtRest := by
  have runs : ∀ {m}, RunsOn s ρ w m → ¬ (ρ n).AtRest := by
    intro m ⟨hc, hp, _⟩
    cases hcur.symm.trans hc
    rw [hp]
    exact (loose_onThread w).1
  cases hpc : s.pc w with
  | coroRunner => obtain ⟨⟨m, hr, _⟩, _⟩ := h.at hpc; exact runs hr
  | runFn r => obtain ⟨m, hr, _⟩ := h.at hpc; exact runs hr
  | yielding r self => obtain ⟨_, m, hr, _⟩ := h.at hpc; exact runs hr
  | mainLoop self =>
    obtain ⟨_, ⟨hmain, _⟩ | ⟨m, hr, _⟩⟩ := h.at hpc
    · rw [hcur] at hmain; cases hmain
    · exact runs hr
  | afterSwitch self => obtain ⟨_, hmain, _⟩ := h.at hpc; rw [hcur] at hmain; cases hmain
  | wild => exact (h.at hpc : StateOk s ρ w .wild).elim

theorem Inv.noDoubleScheduling {s : SmartRuntime Unit} {ρ : Nat → Place Unit} (h : Inv s ρ) :
    NoDoubleScheduling s where
  nodup := by
    have hdisj : ∀ {p q : Place Unit} {xs ys : List (CoroId Unit)}, Filed ρ p xs → Filed ρ q ys →
        p ≠ q → ∀ a ∈ xs, ∀ b ∈ ys, a ≠ b := by
      intro p q xs ys hx hy hpq a ha b hb e
      obtain ⟨n, rfl, hn⟩ := hx.place a ha
      exact hpq (hn.symm.trans (hy.place_user (e ▸ hb)))
    have hq := h.pool.queue ()
    refine List.nodup_append.2 ⟨List.nodup_append.2 ⟨hq.nodup, h.pool.list.nodup,
      hdisj hq h.pool.list (by simp)⟩, h.pool.parked.nodup, fun a ha => ?_⟩
    rcases List.mem_append.1 ha with ha | ha
    · exact hdisj hq h.pool.parked (by simp) a ha
    · exact hdisj h.pool.list h.pool.parked (by simp) a ha
  waiting := by
    intro c hc
    have hplace : ∃ n, c = .user n ∧ (ρ n).AtRest := by
      simp only [List.mem_append] at hc
      rcases hc with (hc | hc) | hc
      · obtain ⟨n, rfl, hn⟩ := (h.pool.queue ()).place c hc; exact ⟨n, rfl, by rw [hn]; trivial⟩
      · obtain ⟨n, rfl, hn⟩ := h.pool.list.place c hc; exact ⟨n, rfl, by rw [hn]; trivial⟩
      · obtain ⟨n, rfl, hn⟩ := h.pool.parked.place c hc; exact ⟨n, rfl, by rw [hn]; trivial⟩
    obtain ⟨n, rfl, hn⟩ := hplace
    obtain ⟨⟨hf, hd⟩, _⟩ := h.pool.suspended n hn
    exact ⟨fun e => current_not_atRest (h.workers ()) e.symm hn, hf, hd⟩
  targets := by
    intro t self src dst target he
    obtain ⟨_, hne, hd⟩ := h.trace.events _ he
    refine ⟨?_, hd⟩
    cases hc : target.fcontext with
    | fresh => exact Or.inl rfl
    | inYield r => exact Or.inr (Or.inl ⟨r, rfl⟩)
    | inLoop w => exact Or.inr (Or.inr ⟨w, rfl⟩)
    | running => exact absurd hc hne
  destroyOnce := fun c => Nat.le_trans (h.trace.destroys c) (by split <;> omega)
  destroyed := fun t c target cur he => by
    obtain ⟨hf, _, hc⟩ := h.trace.events _ he
    exact ⟨hf, hc⟩

/-- With one worker every coroutine finishes where it was entered. -/
theorem finishesHome_unit (s : SmartRuntime Unit) (l : Label Unit) : finishesHome s l = true := by
  unfold finishesHome
  split
  · split <;> simp
  · rfl

/-- **No coroutine is ever scheduled twice, run while queued, or freed while in use**, in every
reachable state of a runtime with one worker. -/
theorem run_noDoubleScheduling (f : Flags) (hf : 0 < f.capacity) (ls : List (Label Unit))
    (s : SmartRuntime Unit) (hrun : run f ls = some s) : NoDoubleScheduling s := by
  obtain ⟨ρ, hinv⟩ := run_inv hf hrun (Transition.guarded_of_mem ls _ fun l _ s => finishesHome_unit s l)
  exact hinv.noDoubleScheduling

/-- A ring of one cell and batches of two: a coroutine starts another one, yields and finishes. -/
theorem run_noDoubleScheduling_small :
    ∃ s, run ⟨1, 2⟩ [.externalStart, .worker () .advance, .worker () .advance, .worker () .start,
      .worker () .yield, .worker () .advance, .worker () .advance, .worker () .finish] = some s ∧
      NoDoubleScheduling s := by
  obtain ⟨s, hs⟩ := Option.isSome_iff_exists.1 (by decide +kernel :
    (run ⟨1, 2⟩ [.externalStart, .worker () .advance, .worker () .advance, .worker () .start,
      .worker () .yield, .worker () .advance, .worker () .advance, .worker () .finish]).isSome = true)
  exact ⟨s, hs, run_noDoubleScheduling ⟨1, 2⟩ (by decide) _ s hs⟩

end SmartRoutine
