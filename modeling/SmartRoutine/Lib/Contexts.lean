import Mathlib.Logic.Function.Basic
import SmartRoutine.Lib.Transition

/-!
# Cooperative contexts

What stackful contexts are for.  Threads `τ` execute contexts `ι`; a context that no thread executes
is suspended at a continuation `κ`, or vacant.  A thread that jumps leaves its context suspended and
goes on where the other one was suspended.

* `step_runs` — no two threads execute one context.
* `exec_map` — what may be done does not depend on the continuations.
-/

set_option autoImplicit false

namespace Contexts

variable {τ ι κ κ' : Type*}

inductive Status (κ : Type*) where
  /-- No stack. -/
  | vacant
  | suspended (k : κ)
  | running

structure State (τ ι κ : Type*) where
  status : ι → Status κ
  current : τ → ι

inductive Op (τ ι κ : Type*) where
  /-- A new context, to be entered at `k`. -/
  | make (c : ι) (k : κ)
  /-- `t` leaves its context, which is to go on at `k`, and enters `c`. -/
  | jump (t : τ) (c : ι) (k : κ)
  | free (c : ι)

def Status.map (f : κ → κ') : Status κ → Status κ'
  | vacant => .vacant
  | suspended k => .suspended (f k)
  | running => .running

def State.map (f : κ → κ') (s : State τ ι κ) : State τ ι κ' := ⟨fun c => (s.status c).map f, s.current⟩

def Op.map (f : κ → κ') : Op τ ι κ → Op τ ι κ'
  | make c k => .make c (f k)
  | jump t c k => .jump t c (f k)
  | free c => .free c

variable [DecidableEq τ] [DecidableEq ι]

namespace State

def make (s : State τ ι κ) (c : ι) (k : κ) : State τ ι κ :=
  { s with status := Function.update s.status c (.suspended k) }

def jump (s : State τ ι κ) (t : τ) (c : ι) (k : κ) : State τ ι κ where
  status := Function.update (Function.update s.status (s.current t) (.suspended k)) c .running
  current := Function.update s.current t c

def free (s : State τ ι κ) (c : ι) : State τ ι κ :=
  { s with status := Function.update s.status c .vacant }

end State

section

variable (s : State τ ι κ) (t : τ) (c : ι) (k : κ) {d : ι}

omit [DecidableEq τ] in
@[simp] theorem make_status_self : (s.make c k).status c = .suspended k := Function.update_self ..

omit [DecidableEq τ] in
theorem make_status_of_ne (h : d ≠ c) : (s.make c k).status d = s.status d :=
  Function.update_of_ne h ..

@[simp] theorem jump_status_self : (s.jump t c k).status c = .running := Function.update_self ..

theorem jump_status_left (h : s.current t ≠ c) : (s.jump t c k).status (s.current t) = .suspended k := by
  simp [State.jump, Function.update_of_ne h]

theorem jump_status_of_ne (h : d ≠ c) (h' : d ≠ s.current t) :
    (s.jump t c k).status d = s.status d := by
  simp [State.jump, Function.update_of_ne h, Function.update_of_ne h']

omit [DecidableEq τ] in
@[simp] theorem free_status_self : (s.free c).status c = .vacant := Function.update_self ..

omit [DecidableEq τ] in
theorem free_status_of_ne (h : d ≠ c) : (s.free c).status d = s.status d :=
  Function.update_of_ne h ..

@[simp] theorem jump_current_self : (s.jump t c k).current t = c := Function.update_self ..

theorem jump_current_of_ne {u : τ} (h : u ≠ t) : (s.jump t c k).current u = s.current u :=
  Function.update_of_ne h ..

end

/-- Only a vacant context is made, and only a suspended one entered or freed. -/
def step (s : State τ ι κ) : Op τ ι κ → Option (State τ ι κ)
  | .make c k =>
    match s.status c with
    | .vacant => some (s.make c k)
    | _ => none
  | .jump t c k =>
    match s.status c with
    | .suspended _ => some (s.jump t c k)
    | _ => none
  | .free c =>
    match s.status c with
    | .suspended _ => some (s.free c)
    | _ => none

/-! ## Who executes what -/

/-- The running contexts are those of the threads, one each. -/
structure Runs (s : State τ ι κ) : Prop where
  running : ∀ t, s.status (s.current t) = .running
  unique : Function.Injective s.current
  owned : ∀ c, s.status c = .running → ∃ t, s.current t = c

section

variable {s s' : State τ ι κ} {t : τ} {c : ι} {k : κ}

theorem step_make : step s (.make c k) = some s' ↔ s.status c = .vacant ∧ s' = s.make c k := by
  cases h : s.status c <;> simp [step, h, eq_comm]

theorem step_jump : step s (.jump t c k) = some s' ↔
    (∃ k', s.status c = .suspended k') ∧ s' = s.jump t c k := by
  cases h : s.status c <;> simp [step, h, eq_comm]

theorem step_free : step s (.free c) = some s' ↔
    (∃ k', s.status c = .suspended k') ∧ s' = s.free c := by
  cases h : s.status c <;> simp [step, h, eq_comm]

omit [DecidableEq τ] in
/-- A change of one context that is not running. -/
theorem Runs.update (h : Runs s) {p : Status κ} (hc : s.status c ≠ .running) (hp : p ≠ .running) :
    Runs { s with status := Function.update s.status c p } where
  running := fun t => by
    have hne : s.current t ≠ c := fun e => hc (e ▸ h.running t)
    simp [Function.update_of_ne hne, h.running t]
  unique := h.unique
  owned := fun d hd => by
    by_cases e : d = c
    · subst e
      simp only [Function.update_self] at hd
      exact absurd hd hp
    · simp only [Function.update_of_ne e] at hd
      exact h.owned d hd

theorem Runs.jump (h : Runs s) {k' : κ} (hc : s.status c = .suspended k') : Runs (s.jump t c k) := by
  have hne : ∀ u, s.current u ≠ c := fun u e => by
    have := h.running u
    rw [e, hc] at this
    cases this
  refine ⟨fun u => ?_, fun u v huv => ?_, fun d hd => ?_⟩
  · by_cases e : u = t
    · rw [e, jump_current_self, jump_status_self]
    · have hcur : s.current u ≠ s.current t := fun e' => e (h.unique e')
      rw [jump_current_of_ne _ _ _ _ e, jump_status_of_ne _ _ _ _ (hne u) hcur, h.running u]
  · by_cases eu : u = t <;> by_cases ev : v = t
    · rw [eu, ev]
    · rw [eu, jump_current_self, jump_current_of_ne _ _ _ _ ev] at huv
      exact absurd huv.symm (hne v)
    · rw [ev, jump_current_self, jump_current_of_ne _ _ _ _ eu] at huv
      exact absurd huv (hne u)
    · rw [jump_current_of_ne _ _ _ _ eu, jump_current_of_ne _ _ _ _ ev] at huv
      exact h.unique huv
  · by_cases e : d = c
    · exact ⟨t, by rw [e, jump_current_self]⟩
    · by_cases e' : d = s.current t
      · rw [e', jump_status_left _ _ _ _ (e' ▸ e)] at hd
        cases hd
      · rw [jump_status_of_ne _ _ _ _ e e'] at hd
        obtain ⟨u, hu⟩ := h.owned d hd
        have hut : u ≠ t := fun et => e' (by rw [← hu, et])
        exact ⟨u, by rw [jump_current_of_ne _ _ _ _ hut, hu]⟩

/-- **No two threads execute one context**, and a step keeps it so. -/
theorem step_runs (h : Runs s) {o : Op τ ι κ} (hs : step s o = some s') : Runs s' := by
  cases o with
  | make c k =>
    obtain ⟨hc, rfl⟩ := step_make.1 hs
    exact h.update (by simp [hc]) (by simp)
  | jump t c k =>
    obtain ⟨⟨k', hc⟩, rfl⟩ := step_jump.1 hs
    exact h.jump hc
  | free c =>
    obtain ⟨⟨k', hc⟩, rfl⟩ := step_free.1 hs
    exact h.update (by simp [hc]) (by simp)

end

/-! ## Continuations are opaque -/

section

variable (f : κ → κ') (s : State τ ι κ)

theorem map_update (g : ι → Status κ) (c : ι) (p : Status κ) :
    (fun d => (Function.update g c p d).map f) = Function.update (fun d => (g d).map f) c (p.map f) := by
  funext d
  by_cases e : d = c
  · subst e
    simp
  · simp [Function.update_of_ne e]

omit [DecidableEq τ] in
@[simp] theorem map_make (c : ι) (k : κ) : (s.make c k).map f = (s.map f).make c (f k) :=
  congrArg (State.mk · _) (map_update f _ _ _)

omit [DecidableEq τ] in
@[simp] theorem map_free (c : ι) : (s.free c).map f = (s.map f).free c :=
  congrArg (State.mk · _) (map_update f _ _ _)

@[simp] theorem map_jump (t : τ) (c : ι) (k : κ) : (s.jump t c k).map f = (s.map f).jump t c (f k) := by
  have hleft := map_update f s.status (s.current t) (.suspended k)
  have hboth := map_update f (Function.update s.status (s.current t) (.suspended k)) c .running
  exact congrArg (State.mk · _) (hboth.trans (congrArg (Function.update · c .running) hleft))

/-- A step succeeds or not whatever the continuations are. -/
theorem step_map (o : Op τ ι κ) : step (s.map f) (o.map f) = (step s o).map (State.map f) := by
  have hstatus : ∀ c, (s.map f).status c = (s.status c).map f := fun _ => rfl
  cases o with
  | make c k => cases h : s.status c <;> simp [step, Op.map, hstatus, h, Status.map]
  | jump t c k => cases h : s.status c <;> simp [step, Op.map, hstatus, h, Status.map]
  | free c => cases h : s.status c <;> simp [step, Op.map, hstatus, h, Status.map]

theorem exec_map (os : List (Op τ ι κ)) :
    Transition.exec step (s.map f) (os.map (Op.map f)) =
      (Transition.exec step s os).map (State.map f) := by
  induction os generalizing s with
  | nil => rfl
  | cons o os ih =>
    cases h : step s o with
    | none => simp [Transition.exec, step_map, h]
    | some s' => simp [Transition.exec, step_map, h, ih]

end

end Contexts
