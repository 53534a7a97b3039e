import SmartRoutine.Placement

/-!
# The scheduler invariant

`Inv s ρ` — every container agrees with the placement `ρ`, every worker's own state fits its
program point (`WorkerOk`), every `main_coro_` that is not running is suspended in its own
`main_loop` (`MainOk`), and the history contains only permitted events (`TraceOk`).

`step_inv` — every step preserves it, provided a coroutine that finishes does so on the worker
that entered its `coro_runner` (`finishesHome`); with one worker that is every step.

While a worker thread is in the middle of a step its own `WorkerOk` is broken; `Others t` is the
invariant without it.
-/

set_option autoImplicit false

namespace SmartRoutine

open BoundedQueue

variable {W : Type}

/-! ## A worker's own state -/

/-- What the argument of a deferred action must be when the action is run. -/
def CallbackOk (s : SmartRuntime W) (n : Nat) : DelayCallback W → Prop
  | .destroyCoro c => c = .user n ∧ (s.coros (.user n)).finished = true ∧
      (s.coros (.user n)).destroyed = false
  | .addBackToQueue c => c = .user n ∧ Suspended s n
  | .enableEpollReading c => c = .user n ∧ Suspended s n
  | .enableEpollWriting c => c = .user n ∧ Suspended s n

/-- The deferred action of `w`, if there is one, is about a coroutine that has been left. -/
def SlotDue (s : SmartRuntime W) (ρ : Nat → Place W) (w : W) : Prop :=
  ∀ cb, (s.threads w).delayCallback = some cb → ∃ n, ρ n = .inSlot w ∧ CallbackOk s n cb

/-- The coroutine `n` runs on `w`. -/
def RunsOn (s : SmartRuntime W) (ρ : Nat → Place W) (w : W) (n : Nat) : Prop :=
  (s.threads w).currentCoro = .user n ∧ ρ n = .onThread w ∧ (s.coros (.user n)).destroyed = false

/-- The deferred action stored by `yield` is about the coroutine that still runs. -/
def YieldStored (n : Nat) : DelayCallback W → Prop
  | .destroyCoro _ => False
  | .addBackToQueue c => c = .user n
  | .enableEpollReading c => c = .user n
  | .enableEpollWriting c => c = .user n

/-- A worker's state at each program point. -/
def StateOk (s : SmartRuntime W) (ρ : Nat → Place W) (w : W) : Pc W → Prop
  | .coroRunner =>
    (∃ n, RunsOn s ρ w n ∧ (s.coros (.user n)).finished = false) ∧ SlotDue s ρ w
  | .runFn r => ∃ n, RunsOn s ρ w n ∧ (s.coros (.user n)).finished = false ∧ r.currCoro = .user n
  | .yielding r self =>
    self = w ∧ ∃ n, RunsOn s ρ w n ∧ (s.coros (.user n)).finished = false ∧ r.currCoro = .user n ∧
      ∃ cb, (s.threads w).delayCallback = some cb ∧ YieldStored n cb
  | .mainLoop self =>
    self = w ∧ (((s.threads w).currentCoro = .main w ∧ (s.threads w).delayCallback = none) ∨
      ∃ n, RunsOn s ρ w n ∧ (s.coros (.user n)).finished = true ∧
        (s.threads w).delayCallback = some (.destroyCoro (.user n)))
  | .afterSwitch self => self = w ∧ (s.threads w).currentCoro = .main w ∧ SlotDue s ρ w
  | .wild => False

def WorkerOk (s : SmartRuntime W) (ρ : Nat → Place W) (w : W) : Prop := StateOk s ρ w (s.pc w)

/-- `main_coro_` is never destroyed, and suspended in its own `main_loop` unless it runs. -/
def MainOk (s : SmartRuntime W) (w : W) : Prop :=
  (s.coros (.main w)).destroyed = false ∧
    ((s.threads w).currentCoro ≠ .main w → (s.coros (.main w)).fcontext = .inLoop w)

/-- The part of the state a worker's invariant is about has not changed. -/
structure SameWorker (s s' : SmartRuntime W) (ρ ρ' : Nat → Place W) (w : W) : Prop where
  pc : s'.pc w = s.pc w
  current : (s'.threads w).currentCoro = (s.threads w).currentCoro
  slot : (s'.threads w).delayCallback = (s.threads w).delayCallback
  owned : ∀ n, (ρ n).owner = some w → ρ' n = ρ n ∧ s'.coros (.user n) = s.coros (.user n)

section

variable {s s' : SmartRuntime W} {ρ ρ' : Nat → Place W} {w : W}

theorem WorkerOk.at {p : Pc W} (h : WorkerOk s ρ w) (hpc : s.pc w = p) : StateOk s ρ w p := hpc ▸ h

theorem StateOk.worker {p : Pc W} (h : StateOk s ρ w p) (hpc : s.pc w = p) : WorkerOk s ρ w := by
  rw [WorkerOk, hpc]; exact h

theorem RunsOn.frame {n : Nat} (h : RunsOn s ρ w n) (hs : SameWorker s s' ρ ρ' w) :
    RunsOn s' ρ' w n ∧ s'.coros (.user n) = s.coros (.user n) := by
  obtain ⟨hc, hp, hd⟩ := h
  obtain ⟨hρ, hco⟩ := hs.owned n (by rw [hp]; rfl)
  exact ⟨⟨by rw [hs.current, hc], by rw [hρ, hp], by rw [hco, hd]⟩, hco⟩

theorem CallbackOk.frame {n : Nat} {cb : DelayCallback W} (h : CallbackOk s n cb)
    (hc : s'.coros (.user n) = s.coros (.user n)) : CallbackOk s' n cb := by
  cases cb <;> simpa only [CallbackOk, Suspended, Live, hc] using h

theorem SlotDue.frame (h : SlotDue s ρ w) (hs : SameWorker s s' ρ ρ' w) : SlotDue s' ρ' w := by
  intro cb hcb
  rw [hs.slot] at hcb
  obtain ⟨n, hp, hok⟩ := h cb hcb
  obtain ⟨hρ, hco⟩ := hs.owned n (by rw [hp]; rfl)
  exact ⟨n, by rw [hρ, hp], hok.frame hco⟩

theorem WorkerOk.frame (h : WorkerOk s ρ w) (hs : SameWorker s s' ρ ρ' w) : WorkerOk s' ρ' w := by
  unfold WorkerOk at h ⊢
  rw [hs.pc]
  cases hpc : s.pc w with
  | coroRunner =>
    obtain ⟨⟨n, hr, hf⟩, hd⟩ := hpc ▸ h
    obtain ⟨hr', hco⟩ := hr.frame hs
    exact ⟨⟨n, hr', by rw [hco, hf]⟩, hd.frame hs⟩
  | runFn r =>
    obtain ⟨n, hr, hf, hcur⟩ := hpc ▸ h
    obtain ⟨hr', hco⟩ := hr.frame hs
    exact ⟨n, hr', by rw [hco, hf], hcur⟩
  | yielding r self =>
    obtain ⟨hself, n, hr, hf, hcur, cb, hcb, hst⟩ := hpc ▸ h
    obtain ⟨hr', hco⟩ := hr.frame hs
    exact ⟨hself, n, hr', by rw [hco, hf], hcur, cb, by rw [hs.slot, hcb], hst⟩
  | mainLoop self =>
    obtain ⟨hself, ⟨hcur, hslot⟩ | ⟨n, hr, hf, hslot⟩⟩ := hpc ▸ h
    · exact ⟨hself, Or.inl ⟨by rw [hs.current, hcur], by rw [hs.slot, hslot]⟩⟩
    · obtain ⟨hr', hco⟩ := hr.frame hs
      exact ⟨hself, Or.inr ⟨n, hr', by rw [hco, hf], by rw [hs.slot, hslot]⟩⟩
  | afterSwitch self =>
    obtain ⟨hself, hcur, hd⟩ := hpc ▸ h
    exact ⟨hself, by rw [hs.current, hcur], hd.frame hs⟩
  | wild => exact (hpc ▸ h : StateOk s ρ w .wild).elim

end

/-! ## Events -/

def Event.destroys [DecidableEq W] (c : CoroId W) : Event W → Bool
  | .destroy _ c' _ _ => c' = c
  | _ => false

theorem destroys_destroy [DecidableEq W] (c c' : CoroId W) (t : W) (target : Coro W) (cur : CoroId W) :
    Event.destroys c (.destroy t c' target cur) = decide (c' = c) := rfl

/-- Permitted events: a thread touches its own worker object only, `switch_to` is given a fresh
or suspended context, `destroy_coro` a finished coroutine that is not running. -/
def EventOk : Event W → Prop
  | .access t self _ => self = t
  | .store t self _ _ => self = t
  | .exec t self _ => self = t
  | .switch t self _ _ target => self = t ∧ target.fcontext ≠ .running ∧ target.destroyed = false
  | .destroy _ c target cur => target.finished = true ∧ target.destroyed = false ∧ c ≠ cur

variable [DecidableEq W]

structure TraceOk (s : SmartRuntime W) : Prop where
  events : ∀ e ∈ s.trace, EventOk e
  destroys : ∀ c, s.trace.countP (·.destroys c) ≤ if (s.coros c).destroyed then 1 else 0

theorem TraceOk.frame {s s' : SmartRuntime W} (h : TraceOk s) (ht : s'.trace = s.trace)
    (hd : ∀ c, (s'.coros c).destroyed = (s.coros c).destroyed) : TraceOk s' :=
  ⟨ht ▸ h.events, fun c => by rw [ht, hd]; exact h.destroys c⟩

/-- One permitted event more, other than `destroy_coro`. -/
theorem TraceOk.concat {s s' : SmartRuntime W} {e : Event W} (h : TraceOk s)
    (ht : s'.trace = s.trace ++ [e]) (hd : ∀ c, (s'.coros c).destroyed = (s.coros c).destroyed)
    (he : EventOk e) (hne : ∀ c, e.destroys c = false) : TraceOk s' where
  events := by
    intro e' he'
    rw [ht] at he'
    rcases List.mem_append.1 he' with he' | he'
    · exact h.events e' he'
    · exact List.mem_singleton.1 he' ▸ he
  destroys := fun c => by
    rw [ht, hd, List.countP_append, List.countP_singleton, hne c]
    simpa using h.destroys c

/-! ## The invariant -/

structure Inv (s : SmartRuntime W) (ρ : Nat → Place W) : Prop where
  pool : Pool s ρ
  workers : ∀ w, WorkerOk s ρ w
  mains : ∀ w, MainOk s w
  trace : TraceOk s

/-- The invariant while `t` is in the middle of a step. -/
structure Others (t : W) (s : SmartRuntime W) (ρ : Nat → Place W) : Prop where
  pool : Pool s ρ
  workers : ∀ w, w ≠ t → WorkerOk s ρ w
  mains : ∀ w, MainOk s w
  trace : TraceOk s

theorem Inv.others {s : SmartRuntime W} {ρ : Nat → Place W} (h : Inv s ρ) (t : W) : Others t s ρ :=
  ⟨h.pool, fun w _ => h.workers w, h.mains, h.trace⟩

theorem Others.inv {s : SmartRuntime W} {ρ : Nat → Place W} {t : W} (h : Others t s ρ)
    (ht : WorkerOk s ρ t) : Inv s ρ :=
  ⟨h.pool, fun w => if e : w = t then e ▸ ht else h.workers w e, h.mains, h.trace⟩

theorem init_inv (f : Flags) (hf : 0 < f.capacity) :
    Inv (SmartRuntime.init f : SmartRuntime W) fun _ => .absent := by
  have hring : Holds (.new f.capacity : BoundedQueue (CoroId W)) [] :=
    new_holds hf (Nat.mod_lt _ (by decide))
  refine ⟨⟨fun w => ?_, fun w => ?_, Filed.nil .., Filed.nil .., fun n _ => ?_, fun n => ?_⟩,
    fun w => ?_, fun w => ?_, ⟨by simp [SmartRuntime.init], fun c => by simp [SmartRuntime.init]⟩⟩
  · show Holds (.new f.capacity) (BoundedQueue.toList (.new f.capacity))
    rw [hring.toList_eq]; exact hring
  · show Filed _ _ (BoundedQueue.toList (.new f.capacity))
    rw [hring.toList_eq]; exact Filed.nil ..
  · exact ⟨⟨rfl, rfl⟩, Or.inl rfl⟩
  · simp [SmartRuntime.init]
  · exact ⟨rfl, Or.inl ⟨rfl, rfl⟩⟩
  · exact ⟨rfl, fun h => absurd rfl h⟩

/-! ## What the parts of a step preserve -/

variable {f : Flags} {s s' : SmartRuntime W} {ρ ρ' : Nat → Place W} {t : W} {n : Nat}

omit [DecidableEq W] in
theorem MainOk.frame {w : W} (h : MainOk s w) (hc : s'.coros (.main w) = s.coros (.main w))
    (hcur : (s'.threads w).currentCoro = (s.threads w).currentCoro) : MainOk s' w := by
  unfold MainOk at h ⊢
  rwa [hc, hcur]

theorem Others.step (h : Others t s ρ) (hpool : Pool s' ρ')
    (hsame : ∀ w, w ≠ t → SameWorker s s' ρ ρ' w) (hmains : ∀ w, MainOk s' w)
    (htrace : TraceOk s') : Others t s' ρ' :=
  ⟨hpool, fun w hw => (h.workers w hw).frame (hsame w hw), hmains, htrace⟩

/-- Outside the containers, and no worker other than `t` refers to it. -/
def Place.Loose (t : W) (p : Place W) : Prop := ¬ p.AtRest ∧ ∀ w, w ≠ t → p.owner ≠ some w

omit [DecidableEq W] in
theorem loose_onThread (t : W) : (Place.onThread t).Loose t :=
  ⟨by simp [Place.AtRest], fun _ hw e => hw (Option.some.inj e).symm⟩

omit [DecidableEq W] in
theorem loose_inSlot (t : W) : (Place.inSlot t).Loose t :=
  ⟨by simp [Place.AtRest], fun _ hw e => hw (Option.some.inj e).symm⟩

omit [DecidableEq W] in
theorem loose_gone (t : W) : (Place.gone : Place W).Loose t :=
  ⟨by simp [Place.AtRest], fun _ _ e => by cases e⟩

omit [DecidableEq W] in
/-- Re-placing a coroutine that no other worker owns leaves what they own in place. -/
theorem update_owned {w : W} {p : Place W} (hn : (ρ n).owner ≠ some w) {m : Nat}
    (hm : (ρ m).owner = some w) : Function.update ρ n p m = ρ m :=
  Function.update_of_ne (fun e : m = n => hn (e ▸ hm)) _ _

theorem Others.queueStep (h : Others t s ρ) (hq : QueueStep t t s s') (hpool : Pool s' ρ')
    (hρ : ∀ w, w ≠ t → ∀ m, (ρ m).owner = some w → ρ' m = ρ m) : Others t s' ρ' := by
  refine h.step hpool (fun w hw => ⟨by rw [hq.pc], hq.current w, hq.slot w, fun m hm =>
    ⟨hρ w hw m hm, by rw [hq.coros]⟩⟩) (fun w => (h.mains w).frame (by rw [hq.coros]) (hq.current w))
    (h.trace.concat hq.trace (fun c => by rw [hq.coros]) rfl fun _ => rfl)

theorem Others.emit (h : Others t s ρ) {e : Event W} (he : EventOk e)
    (hne : ∀ c, e.destroys c = false) : Others t (s.emit e) ρ :=
  h.step (pool_emit h.pool e) (fun _ _ => ⟨rfl, rfl, rfl, fun _ _ => ⟨rfl, rfl⟩⟩) h.mains
    (h.trace.concat rfl (fun _ => rfl) he hne)

theorem Others.setPc (h : Others t s ρ) (p : Pc W) : Others t (s.setPc t p) ρ :=
  h.step (h.pool.frame (fun _ => rfl) rfl rfl rfl fun _ _ => rfl)
    (fun _ hw => ⟨Function.update_of_ne hw _ _, rfl, rfl, fun _ _ => ⟨rfl, rfl⟩⟩) h.mains
    (h.trace.frame rfl fun _ => rfl)

section

variable (s t)

theorem setSlot_queue (cb : Option (DelayCallback W)) (w : W) :
    ((s.setSlot t cb).threads w).taskQueue = (s.threads w).taskQueue := by
  by_cases e : w = t
  · subst e; simp [SmartRuntime.setSlot]
  · simp [SmartRuntime.setSlot, Function.update_of_ne e]

theorem setSlot_current (cb : Option (DelayCallback W)) (w : W) :
    ((s.setSlot t cb).threads w).currentCoro = (s.threads w).currentCoro := by
  by_cases e : w = t
  · subst e; simp [SmartRuntime.setSlot]
  · simp [SmartRuntime.setSlot, Function.update_of_ne e]

theorem setSlot_self (cb : Option (DelayCallback W)) :
    ((s.setSlot t cb).threads t).delayCallback = cb := by
  simp [SmartRuntime.setSlot]

theorem setSlot_other (cb : Option (DelayCallback W)) {w : W} (h : w ≠ t) :
    ((s.setSlot t cb).threads w).delayCallback = (s.threads w).delayCallback := by
  simp [SmartRuntime.setSlot, Function.update_of_ne h]

end

theorem Others.setSlot (h : Others t s ρ) (cb : Option (DelayCallback W)) :
    Others t (s.setSlot t cb) ρ :=
  h.step (h.pool.frame (setSlot_queue s t cb) rfl rfl rfl fun _ _ => rfl)
    (fun w hw => ⟨rfl, setSlot_current s t cb w, setSlot_other s t cb hw, fun _ _ => ⟨rfl, rfl⟩⟩)
    (fun w => (h.mains w).frame rfl (setSlot_current s t cb w)) (h.trace.frame rfl fun _ => rfl)

/-- `push_task` of a suspended coroutine no other worker owns. -/
theorem Others.pushTask (h : Others t s ρ) (hl : (ρ n).Loose t) (hs : Suspended s n) :
    ∃ p, Others t (s.pushTask t t (.user n)) (Function.update ρ n p) := by
  obtain ⟨p, hp⟩ := pushTask_pool h.pool t t hl.1 hs
  exact ⟨p, h.queueStep (pushTask_step s t t _) hp fun w hw m hm => update_owned (hl.2 w hw) hm⟩

/-- Parking a suspended coroutine no other worker owns. -/
theorem Others.park (h : Others t s ρ) (hl : (ρ n).Loose t) (hs : Suspended s n) :
    Others t { s with parked := s.parked ++ [.user n] } (Function.update ρ n .parked) :=
  h.step (pool_park h.pool hl.1 hs)
    (fun w hw => ⟨rfl, rfl, rfl, fun _ hm => ⟨update_owned (hl.2 w hw) hm, rfl⟩⟩) h.mains
    (h.trace.frame rfl fun _ => rfl)

/-- `destroy_coro` of a finished coroutine that is not running. -/
theorem Others.destroy (h : Others t s ρ) (hl : (ρ n).Loose t) (hf : (s.coros (.user n)).finished = true)
    (hd : (s.coros (.user n)).destroyed = false) (hcur : (s.threads t).currentCoro ≠ .user n) :
    Others t (s.runCallback t (.destroyCoro (.user n))) (Function.update ρ n .gone) := by
  have hother : ∀ m, m ≠ n → (CoroId.user m : CoroId W) ≠ .user n := fun m hm e => hm (by cases e; rfl)
  refine h.step ((h.pool.move (p := .gone) hl.1 (by simp [Place.AtRest])).frame (fun _ => rfl) rfl rfl rfl
    fun m hm => ?_) (fun w hw => ⟨rfl, rfl, rfl, fun m hm => ⟨update_owned (hl.2 w hw) hm, ?_⟩⟩)
    (fun w => (h.mains w).frame ?_ rfl) ⟨fun e he => ?_, fun c => ?_⟩
  · refine Function.update_of_ne (hother m fun e => ?_) _ _
    subst e; simp [Place.AtRest] at hm
  · exact Function.update_of_ne (hother m fun e => hl.2 w hw (e ▸ hm)) _ _
  · simp [SmartRuntime.runCallback, SmartRuntime.setCoro, SmartRuntime.emit]
  · rcases List.mem_append.1 he with he | he
    · exact h.trace.events e he
    · obtain rfl := List.mem_singleton.1 he
      exact ⟨hf, hd, hcur.symm⟩
  · have hc := h.trace.destroys c
    have htr : (s.runCallback t (.destroyCoro (.user n))).trace = s.trace ++
      [.destroy t (.user n) (s.coros (.user n)) (s.threads t).currentCoro] := rfl
    rw [htr, List.countP_append, List.countP_singleton]
    by_cases e : c = .user n
    · subst e
      have hco : ((s.runCallback t (.destroyCoro (.user n))).coros (.user n)).destroyed = true := by
        simp [SmartRuntime.runCallback, SmartRuntime.setCoro]
      rw [hd] at hc
      rw [hco, destroys_destroy]
      simpa using hc
    · have hco : (s.runCallback t (.destroyCoro (.user n))).coros c = s.coros c :=
        Function.update_of_ne e _ _
      simpa [hco, destroys_destroy, Ne.symm e] using hc

/-- The deferred action, run by the thread that was switched to. -/
theorem Others.runCallback (h : Others t s ρ) {cb : DelayCallback W} (hp : ρ n = .inSlot t)
    (hok : CallbackOk s n cb) (hcur : (s.threads t).currentCoro ≠ .user n) :
    ∃ p, Others t (s.runCallback t cb) (Function.update ρ n p) := by
  have hl : (ρ n).Loose t := hp ▸ loose_inSlot t
  cases cb with
  | addBackToQueue c => obtain ⟨rfl, hs⟩ := hok; exact h.pushTask hl hs
  | enableEpollReading c => obtain ⟨rfl, hs⟩ := hok; exact ⟨_, h.park hl hs⟩
  | enableEpollWriting c => obtain ⟨rfl, hs⟩ := hok; exact ⟨_, h.park hl hs⟩
  | destroyCoro c => obtain ⟨rfl, hf, hd⟩ := hok; exact ⟨_, h.destroy hl hf hd hcur⟩

/-- Everything but the containers and one coroutine's record is as before a deferred action. -/
theorem runCallback_frame (s : SmartRuntime W) (t : W) {cb : DelayCallback W}
    (hok : CallbackOk s n cb) :
    (s.runCallback t cb).pc = s.pc ∧
      ((s.runCallback t cb).threads t).currentCoro = (s.threads t).currentCoro ∧
      ∀ c, c ≠ .user n → (s.runCallback t cb).coros c = s.coros c := by
  cases cb with
  | addBackToQueue c =>
    have hq := pushTask_step s t t c
    exact ⟨hq.pc, hq.current t, fun c' _ => by rw [SmartRuntime.runCallback, hq.coros]⟩
  | enableEpollReading c => exact ⟨rfl, rfl, fun _ _ => rfl⟩
  | enableEpollWriting c => exact ⟨rfl, rfl, fun _ _ => rfl⟩
  | destroyCoro c =>
    obtain ⟨rfl, _⟩ := hok
    exact ⟨rfl, rfl, fun c' hc => Function.update_of_ne hc _ _⟩

/-- **Running and clearing the deferred action** keeps the invariant of the others and leaves the
slot empty, the program point and the running coroutine as they are. -/
theorem Others.flushCallback (h : Others t s ρ) (hdue : SlotDue s ρ t)
    (hcur : ∀ n, ρ n = .inSlot t → (s.threads t).currentCoro ≠ .user n) :
    ∃ ρ', Others t (s.flushCallback t t) ρ' ∧ (s.flushCallback t t).pc = s.pc ∧
      ((s.flushCallback t t).threads t).currentCoro = (s.threads t).currentCoro ∧
      ((s.flushCallback t t).threads t).delayCallback = none ∧
      ∀ m, ρ m = .onThread t →
        ρ' m = ρ m ∧ (s.flushCallback t t).coros (.user m) = s.coros (.user m) := by
  unfold SmartRuntime.flushCallback
  cases hslot : (s.threads t).delayCallback with
  | none => exact ⟨ρ, h.emit rfl fun _ => rfl, rfl, rfl, hslot, fun _ _ => ⟨rfl, rfl⟩⟩
  | some cb =>
    obtain ⟨n, hp, hok⟩ := hdue cb hslot
    have hok' : CallbackOk (s.emit (.exec t t cb)) n cb := hok.frame rfl
    obtain ⟨p, h'⟩ := (h.emit (e := .exec t t cb) rfl fun _ => rfl).runCallback hp hok' (hcur n hp)
    obtain ⟨hpc, hcur', hco⟩ := runCallback_frame (s.emit (.exec t t cb)) t hok'
    refine ⟨_, h'.setSlot none, hpc, ?_, setSlot_self _ _ _, fun m hm => ?_⟩
    · rw [setSlot_current]; exact hcur'
    · have hmn : m ≠ n := fun e => by rw [e, hp] at hm; cases hm
      exact ⟨Function.update_of_ne hmn _ _, hco _ fun e => hmn (by cases e; rfl)⟩

/-! ## Switching -/

/-- The stack of `t` has been left through `switch_to`: its deferred action is due, and
`main_coro_` is suspended whoever was running. -/
structure Left (t : W) (s : SmartRuntime W) (ρ : Nat → Place W) : Prop where
  others : Others t s ρ
  due : SlotDue s ρ t
  main : (s.coros (.main t)).fcontext = .inLoop t

/-- Where a thread stands after `switch_to`, given the record of the coroutine switched to. -/
def enter (s : SmartRuntime W) (t : W) (next : CoroId W) (target : Coro W) : SmartRuntime W :=
  ((s.setCoro next { s.coros next with fcontext := .running }).setCurrent t next).setPc t
    (if target.destroyed then .wild else SmartRuntime.entry target.fcontext)

theorem setCurrent_self (s : SmartRuntime W) (t : W) (c : CoroId W) :
    ((s.setCurrent t c).threads t).currentCoro = c := by
  simp [SmartRuntime.setCurrent]

theorem setCurrent_other (s : SmartRuntime W) (t : W) (c : CoroId W) {w : W} (h : w ≠ t) :
    (s.setCurrent t c).threads w = s.threads w := by
  simp [SmartRuntime.setCurrent, Function.update_of_ne h]

theorem setCurrent_queue (s : SmartRuntime W) (t : W) (c : CoroId W) (w : W) :
    ((s.setCurrent t c).threads w).taskQueue = (s.threads w).taskQueue := by
  by_cases e : w = t
  · subst e; simp [SmartRuntime.setCurrent]
  · rw [setCurrent_other _ _ _ e]

theorem setCurrent_slot (s : SmartRuntime W) (t : W) (c : CoroId W) (w : W) :
    ((s.setCurrent t c).threads w).delayCallback = (s.threads w).delayCallback := by
  by_cases e : w = t
  · subst e; simp [SmartRuntime.setCurrent]
  · rw [setCurrent_other _ _ _ e]

theorem Others.setCoro (h : Others t s ρ) (co : Coro W) (hl : (ρ n).Loose t)
    (hd : co.destroyed = (s.coros (.user n)).destroyed) : Others t (s.setCoro (.user n) co) ρ := by
  have hne : ∀ m, m ≠ n → (s.setCoro (.user n) co).coros (.user m) = s.coros (.user m) := by
    intro m hm
    exact Function.update_of_ne (fun e : CoroId.user m = .user n => hm (by cases e; rfl)) _ _
  refine h.step (h.pool.frame (fun _ => rfl) rfl rfl rfl fun m hm => hne m fun e => hl.1 (e ▸ hm))
    (fun w hw => ⟨rfl, rfl, rfl, fun m hm => ⟨rfl, hne m fun e => hl.2 w hw (e ▸ hm)⟩⟩)
    (fun w => (h.mains w).frame (by simp [SmartRuntime.setCoro]) rfl) (h.trace.frame rfl fun c => ?_)
  by_cases e : c = .user n
  · subst e; simp [SmartRuntime.setCoro, hd]
  · simp [SmartRuntime.setCoro, Function.update_of_ne e]

theorem Others.setMain (h : Others t s ρ) (co : Coro W) (hd : co.destroyed = false)
    (hm : (s.threads t).currentCoro ≠ .main t → co.fcontext = .inLoop t) :
    Others t (s.setCoro (.main t) co) ρ := by
  have hne : ∀ m, (s.setCoro (.main t) co).coros (.user m) = s.coros (.user m) := by
    simp [SmartRuntime.setCoro]
  refine h.step (h.pool.frame (fun _ => rfl) rfl rfl rfl fun m _ => hne m)
    (fun w _ => ⟨rfl, rfl, rfl, fun m _ => ⟨rfl, hne m⟩⟩) (fun w => ?_) (h.trace.frame rfl fun c => ?_)
  · by_cases e : w = t
    · subst e
      simpa [MainOk, SmartRuntime.setCoro, hd] using hm
    · exact (h.mains w).frame (by simp [SmartRuntime.setCoro, e]) rfl
  · by_cases e : c = .main t
    · subst e; simp [SmartRuntime.setCoro, hd, (h.mains t).1]
    · simp [SmartRuntime.setCoro, Function.update_of_ne e]

theorem Others.setCurrent (h : Others t s ρ) {c : CoroId W}
    (hm : c ≠ .main t → (s.coros (.main t)).fcontext = .inLoop t) :
    Others t (s.setCurrent t c) ρ := by
  refine h.step (h.pool.frame (setCurrent_queue s t c) rfl rfl rfl fun _ _ => rfl)
    (fun w hw => ⟨rfl, by rw [setCurrent_other _ _ _ hw], setCurrent_slot s t c w,
      fun _ _ => ⟨rfl, rfl⟩⟩) (fun w => ?_) (h.trace.frame rfl fun _ => rfl)
  by_cases e : w = t
  · subst e
    exact ⟨(h.mains w).1, fun hc => hm (by rwa [setCurrent_self] at hc)⟩
  · exact (h.mains w).frame rfl (by rw [setCurrent_other _ _ _ e])

/-- `main_coro_` leaves its `main_loop` for a task. -/
theorem left_of_main (h : Others t s ρ) (hslot : (s.threads t).delayCallback = none) :
    Left t (s.setCoro (.main t) { s.coros (.main t) with fcontext := .inLoop t }) ρ where
  others := h.setMain _ (h.mains t).1 fun _ => rfl
  due := fun cb hcb => by
    have : some cb = none := hcb.symm.trans hslot
    cases this
  main := by simp [SmartRuntime.setCoro]

/-- A coroutine leaves its thread with its own deferred action in the slot. -/
theorem left_of_user (h : Others t s ρ) (hr : RunsOn s ρ t n) {k : Fcontext W}
    (hdue : ∀ cb, (s.threads t).delayCallback = some cb →
      CallbackOk (s.setCoro (.user n) { s.coros (.user n) with fcontext := k }) n cb) :
    Left t (s.setCoro (.user n) { s.coros (.user n) with fcontext := k })
      (Function.update ρ n (.inSlot t)) := by
  obtain ⟨hcur, hp, hd⟩ := hr
  have hl : (ρ n).Loose t := hp ▸ loose_onThread t
  refine ⟨?_, fun cb hcb => ⟨n, Function.update_self .., hdue cb hcb⟩, ?_⟩
  · have h' := h.setCoro { s.coros (.user n) with fcontext := k } hl rfl
    exact h'.step (h'.pool.move hl.1 (by simp [Place.AtRest]))
      (fun w hw => ⟨rfl, rfl, rfl, fun m hm => ⟨update_owned (hl.2 w hw) hm, rfl⟩⟩) h'.mains h'.trace
  · have := (h.mains t).2 (by rw [hcur]; simp)
    simpa [SmartRuntime.setCoro] using this

/-- **Entering a fresh or suspended coroutine** restores the invariant. -/
theorem enter_user {target : Coro W} (h : Left t s ρ) (hp : ρ n = .onThread t)
    (hs : Suspended s n) (htarget : s.coros (.user n) = target) :
    Inv (enter s t (.user n) target) ρ := by
  subst htarget
  obtain ⟨⟨hf, hd⟩, hctx⟩ := hs
  have hl : (ρ n).Loose t := hp ▸ loose_onThread t
  have hothers := ((h.others.setCoro { s.coros (.user n) with fcontext := .running }
    hl rfl).setCurrent (c := .user n) fun _ => by simpa [SmartRuntime.setCoro] using h.main).setPc
      (if (s.coros (.user n)).destroyed then .wild else SmartRuntime.entry (s.coros (.user n)).fcontext)
  refine hothers.inv ?_
  have hruns : RunsOn (enter s t (.user n) (s.coros (.user n))) ρ t n :=
    ⟨setCurrent_self _ _ _, hp, by simp [enter, SmartRuntime.setPc, SmartRuntime.setCurrent,
      SmartRuntime.setCoro, hd]⟩
  have hfin : ((enter s t (.user n) (s.coros (.user n))).coros (.user n)).finished = false := by
    simp [enter, SmartRuntime.setPc, SmartRuntime.setCurrent, SmartRuntime.setCoro, hf]
  have hpc : (enter s t (.user n) (s.coros (.user n))).pc t =
      SmartRuntime.entry (s.coros (.user n)).fcontext := by
    simp [enter, SmartRuntime.setPc, hd]
  have hdue : SlotDue (enter s t (.user n) (s.coros (.user n))) ρ t := by
    intro cb hcb
    obtain ⟨m, hm, hok⟩ := h.due cb ((setCurrent_slot _ _ _ _).symm.trans hcb)
    refine ⟨m, hm, hok.frame ?_⟩
    have hmn : m ≠ n := fun e => by rw [e, hp] at hm; cases hm
    simp [enter, SmartRuntime.setPc, SmartRuntime.setCurrent, SmartRuntime.setCoro, hmn]
  refine StateOk.worker ?_ hpc
  rcases hctx with hfresh | ⟨r, hyield, hr⟩
  · rw [hfresh]; exact ⟨⟨n, hruns, hfin⟩, hdue⟩
  · rw [hyield]; exact ⟨n, hruns, hfin, hr⟩

/-- **Entering the suspended `main_coro_`** restores the invariant. -/
theorem enter_main {target : Coro W} (h : Left t s ρ) (htarget : s.coros (.main t) = target) :
    Inv (enter s t (.main t) target) ρ := by
  subst htarget
  have hd := (h.others.mains t).1
  have hothers := ((h.others.setCurrent (c := .main t) fun hc => absurd rfl hc).setMain
    { s.coros (.main t) with fcontext := .running } hd fun hc =>
      absurd (setCurrent_self _ _ _) hc).setPc
      (if (s.coros (.main t)).destroyed then .wild else SmartRuntime.entry (s.coros (.main t)).fcontext)
  refine Others.inv hothers ?_
  have hpc : (enter s t (.main t) (s.coros (.main t))).pc t = .afterSwitch t := by
    simp [enter, SmartRuntime.setPc, hd, h.main, SmartRuntime.entry]
  refine StateOk.worker (p := .afterSwitch t) ⟨rfl, setCurrent_self _ _ _, fun cb hcb => ?_⟩ hpc
  obtain ⟨m, hm, hok⟩ := h.due cb ((setCurrent_slot _ _ _ _).symm.trans hcb)
  exact ⟨m, hm, hok.frame (by simp [enter, SmartRuntime.setPc, SmartRuntime.setCurrent, SmartRuntime.setCoro])⟩

theorem switchTo_eq (s : SmartRuntime W) (t : W) (next : CoroId W) (k : Fcontext W) :
    s.switchTo t t next k =
      enter ((s.emit (.switch t t (s.threads t).currentCoro next (s.coros next))).setCoro
        (s.threads t).currentCoro { s.coros (s.threads t).currentCoro with fcontext := k })
        t next (s.coros next) := rfl

/-- A running coroutine switches to another one, which waited in a queue. -/
theorem switchTo_user_user (h : Others t s ρ) {m : Nat} {k : Fcontext W} (hr : RunsOn s ρ t n)
    (hdue : ∀ cb, (s.threads t).delayCallback = some cb →
      CallbackOk (s.setCoro (.user n) { s.coros (.user n) with fcontext := k }) n cb)
    (hm : ρ m = .onThread t) (hs : Suspended s m) (hmn : m ≠ n) :
    ∃ ρ', Inv (s.switchTo t t (.user m) k) ρ' := by
  have hev : EventOk (Event.switch t t (s.threads t).currentCoro (.user m) (s.coros (.user m))) := by
    obtain ⟨⟨_, hd⟩, hf | ⟨r, hy, _⟩⟩ := hs
    · exact ⟨rfl, by rw [hf]; simp, hd⟩
    · exact ⟨rfl, by rw [hy]; simp, hd⟩
  have hleft := left_of_user (h.emit hev fun _ => rfl) hr (k := k) hdue
  have hco : (s.setCoro (.user n) { s.coros (.user n) with fcontext := k }).coros (.user m) =
      s.coros (.user m) := by simp [SmartRuntime.setCoro, hmn]
  refine ⟨Function.update ρ n (.inSlot t), ?_⟩
  rw [switchTo_eq, hr.1]
  rw [hr.1] at hleft
  exact enter_user hleft (by rw [Function.update_of_ne hmn]; exact hm)
    (by simpa [Suspended, Live, SmartRuntime.emit, SmartRuntime.setCoro, hmn] using hs) hco

/-- A running coroutine that found no task switches to `main_coro_`. -/
theorem switchTo_user_main (h : Others t s ρ) {k : Fcontext W} (hr : RunsOn s ρ t n)
    (hdue : ∀ cb, (s.threads t).delayCallback = some cb →
      CallbackOk (s.setCoro (.user n) { s.coros (.user n) with fcontext := k }) n cb) :
    ∃ ρ', Inv (s.switchTo t t (.main t) k) ρ' := by
  obtain ⟨hd, hmain⟩ := h.mains t
  have hctx := hmain (by rw [hr.1]; simp)
  have hev : EventOk (Event.switch t t (s.threads t).currentCoro (.main t) (s.coros (.main t))) :=
    ⟨rfl, by rw [hctx]; simp, hd⟩
  have hleft := left_of_user (h.emit hev fun _ => rfl) hr (k := k) hdue
  have hco : (s.setCoro (.user n) { s.coros (.user n) with fcontext := k }).coros (.main t) =
      s.coros (.main t) := by simp [SmartRuntime.setCoro]
  refine ⟨Function.update ρ n (.inSlot t), ?_⟩
  rw [switchTo_eq, hr.1]
  rw [hr.1] at hleft
  exact enter_main hleft hco

/-- `main_coro_` switches to a coroutine that waited in a queue. -/
theorem switchTo_main_user (h : Others t s ρ) {m : Nat}
    (hcur : (s.threads t).currentCoro = .main t) (hslot : (s.threads t).delayCallback = none)
    (hm : ρ m = .onThread t) (hs : Suspended s m) :
    ∃ ρ', Inv (s.switchTo t t (.user m) (.inLoop t)) ρ' := by
  have hev : EventOk (Event.switch t t (s.threads t).currentCoro (.user m) (s.coros (.user m))) := by
    obtain ⟨⟨_, hd⟩, hf | ⟨r, hy, _⟩⟩ := hs
    · exact ⟨rfl, by rw [hf]; simp, hd⟩
    · exact ⟨rfl, by rw [hy]; simp, hd⟩
  have hleft := left_of_main (h.emit hev fun _ => rfl) hslot
  have hco : (s.setCoro (.main t) { s.coros (.main t) with fcontext := .inLoop t }).coros (.user m) =
      s.coros (.user m) := by simp [SmartRuntime.setCoro]
  refine ⟨ρ, ?_⟩
  rw [switchTo_eq, hcur]
  rw [hcur] at hleft
  exact enter_user hleft hm
    (by simpa [Suspended, Live, SmartRuntime.emit, SmartRuntime.setCoro] using hs) hco

/-! ## Steps -/

/-- A coroutine finishes on the worker that entered its `coro_runner`. -/
def finishesHome (s : SmartRuntime W) : Label W → Bool
  | .worker t .finish =>
    match s.pc t with
    | .runFn r => r.tlsSt = t
    | _ => true
  | _ => true

theorem coroRunner_inv (h : Inv s ρ) (hpc : s.pc t = .coroRunner) :
    ∃ ρ', Inv (s.coroRunner t) ρ' := by
  obtain ⟨⟨n, ⟨hcur, hp, hd⟩, hf⟩, hdue⟩ := (h.workers t).at hpc
  have hne : ∀ m, ρ m = .inSlot t → (s.threads t).currentCoro ≠ .user m := by
    intro m hm e
    rw [hcur] at e
    cases e
    rw [hp] at hm
    cases hm
  obtain ⟨ρ', ho, _, hcur', _, hkeep⟩ := (h.others t).flushCallback hdue hne
  obtain ⟨hp', hco⟩ := hkeep n hp
  have hrun : RunsOn (s.coroRunner t) ρ' t n :=
    ⟨hcur'.trans hcur, hp'.trans hp, (congrArg Coro.destroyed hco).trans hd⟩
  exact ⟨ρ', Others.inv ((ho.emit (e := .access t t .currentCoro) rfl fun _ => rfl).setPc _)
    (StateOk.worker (p := .runFn ⟨t, _⟩) ⟨n, hrun, (congrArg Coro.finished hco).trans hf,
      hcur'.trans hcur⟩ (Function.update_self ..))⟩

theorem afterSwitch_inv {self : W} (h : Inv s ρ) (hpc : s.pc t = .afterSwitch self) :
    ∃ ρ', Inv (s.afterSwitch t self) ρ' := by
  obtain ⟨rfl, hcur, hdue⟩ := (h.workers t).at hpc
  obtain ⟨ρ', ho, _, hcur', hslot, _⟩ :=
    (h.others self).flushCallback hdue fun m _ => by rw [hcur]; simp
  exact ⟨ρ', (ho.setPc (.mainLoop self)).inv (StateOk.worker (p := .mainLoop self)
    ⟨rfl, Or.inl ⟨hcur'.trans hcur, hslot⟩⟩ (Function.update_self ..))⟩

theorem smartRoutineStart_inv (h : Inv s ρ) (t : W) : ∃ ρ', Inv (s.smartRoutineStart t) ρ' := by
  obtain ⟨hpool, hs⟩ := pool_create h.pool
  have ha : ρ s.nextCoro = .absent := (h.pool.absent _).2 (Nat.le_refl _)
  have hown : ∀ w, (ρ s.nextCoro).owner ≠ some w := by rw [ha]; simp [Place.owner]
  have hsame : ∀ w, SameWorker s { s with nextCoro := s.nextCoro + 1 } ρ
      (Function.update ρ s.nextCoro .gone) w :=
    fun w => ⟨rfl, rfl, rfl, fun m hm => ⟨update_owned (hown w) hm, rfl⟩⟩
  have ho : Others t { s with nextCoro := s.nextCoro + 1 } (Function.update ρ s.nextCoro .gone) :=
    (h.others t).step hpool (fun w _ => hsame w) h.mains (h.trace.frame rfl fun _ => rfl)
  have hgone : Function.update ρ s.nextCoro .gone s.nextCoro = .gone := Function.update_self ..
  obtain ⟨p, ho'⟩ := ho.pushTask (n := s.nextCoro) (by rw [hgone]; exact loose_gone t) hs
  have hq := pushTask_step { s with nextCoro := s.nextCoro + 1 } t t (.user s.nextCoro)
  refine ⟨_, ho'.inv (((h.workers t).frame (hsame t)).frame ⟨by rw [hq.pc], hq.current t, hq.slot t,
    fun m hm => ⟨update_owned (by rw [hgone]; simp [Place.owner]) hm, by rw [hq.coros]⟩⟩)⟩

theorem yieldWith_inv (h : Inv s ρ) {r : Runner W} (hpc : s.pc t = .runFn r)
    {cb : CoroId W → DelayCallback W} (hcb : ∀ n, YieldStored n (cb (.user n))) :
    ∃ ρ', Inv (s.yieldWith t r cb) ρ' := by
  obtain ⟨n, ⟨hcur, hp, hd⟩, hf, hr⟩ := (h.workers t).at hpc
  have ho := (((h.others t).emit (e := .access t t .currentCoro) rfl fun _ => rfl).setSlot
    (some (cb (s.threads t).currentCoro))).emit
    (e := .store t t (cb (s.threads t).currentCoro) r.currCoro) rfl fun _ => rfl
  refine ⟨ρ, (ho.setPc (.yielding r t)).inv (StateOk.worker (p := .yielding r t)
    ⟨rfl, n, ⟨?_, hp, hd⟩, hf, hr, cb (.user n), ?_, hcb n⟩ (Function.update_self ..))⟩
  · exact (setSlot_current _ _ _ _).trans hcur
  · exact (setSlot_self _ _ _).trans (by rw [hcur])

theorem finishCoro_inv (h : Inv s ρ) {r : Runner W} (hpc : s.pc t = .runFn r) (hr : r.tlsSt = t) :
    ∃ ρ', Inv (s.finishCoro t r) ρ' := by
  obtain ⟨n, ⟨hcur, hp, hd⟩, _, hcoro⟩ := (h.workers t).at hpc
  subst hr
  have hl : (ρ n).Loose r.tlsSt := hp ▸ loose_onThread _
  have ho := ((((h.others r.tlsSt).setCoro { s.coros (.user n) with finished := true } hl
    rfl).setSlot (some (.destroyCoro (.user n)))).emit
    (e := .store r.tlsSt r.tlsSt (.destroyCoro (.user n)) (.user n)) rfl fun _ => rfl).setPc
    (.mainLoop r.tlsSt)
  rw [SmartRuntime.finishCoro, hcoro]
  refine ⟨ρ, ho.inv (StateOk.worker (p := .mainLoop r.tlsSt) ⟨rfl, Or.inr ⟨n, ⟨?_, hp, ?_⟩, ?_, ?_⟩⟩
    (Function.update_self ..))⟩
  · exact (setSlot_current _ _ _ _).trans hcur
  · simp [SmartRuntime.setPc, SmartRuntime.emit, SmartRuntime.setSlot, SmartRuntime.setCoro, hd]
  · simp [SmartRuntime.setPc, SmartRuntime.emit, SmartRuntime.setSlot, SmartRuntime.setCoro]
  · exact setSlot_self _ _ _

/-- Once `yield` has saved the stack, its deferred action may be run. -/
theorem callbackOk_of_yieldStored {r : Runner W} {cb : DelayCallback W} (hcb : YieldStored n cb)
    (hf : (s.coros (.user n)).finished = false) (hd : (s.coros (.user n)).destroyed = false)
    (hr : r.currCoro = .user n) :
    CallbackOk (s.setCoro (.user n) { s.coros (.user n) with fcontext := .inYield r }) n cb := by
  have hs : Suspended (s.setCoro (.user n) { s.coros (.user n) with fcontext := .inYield r }) n := by
    refine ⟨⟨?_, ?_⟩, Or.inr ⟨r, ?_, hr⟩⟩ <;> simp [SmartRuntime.setCoro, hf, hd]
  cases cb with
  | addBackToQueue c => exact ⟨hcb, hs⟩
  | enableEpollReading c => exact ⟨hcb, hs⟩
  | enableEpollWriting c => exact ⟨hcb, hs⟩
  | destroyCoro c => exact hcb.elim

omit [DecidableEq W] in
theorem RunsOn.queueStep (h : RunsOn s ρ t n) (hq : QueueStep t t s s')
    (hρ : ρ' n = ρ n) : RunsOn s' ρ' t n :=
  ⟨(hq.current t).trans h.1, hρ.trans h.2.1, by rw [hq.coros]; exact h.2.2⟩

omit [DecidableEq W] in
theorem not_atRest_of_owner {p : Place W} {w : W} (h : p.owner = some w) : ¬ p.AtRest := by
  cases p <;> simp [Place.owner, Place.AtRest] at h ⊢

/-- After `get_task` has handed out the coroutine `m`. -/
theorem Inv.taken {m : Nat} (h : Inv s ρ) (hq : QueueStep t t s s') (hpool : Pool s' ρ')
    (hm : (ρ m).AtRest) (hkeep : ∀ k, ¬ (ρ k).AtRest → ρ' k = ρ k) :
    Others t s' ρ' ∧ Suspended s' m ∧ ∀ k w, (ρ k).owner = some w → ρ' k = ρ k ∧ m ≠ k :=
  ⟨(h.others t).queueStep hq hpool fun _ _ k hk => hkeep k (not_atRest_of_owner hk),
    by simpa only [Suspended, Live, hq.coros] using h.pool.suspended m hm,
    fun k _ hk => ⟨hkeep k (not_atRest_of_owner hk), fun e => not_atRest_of_owner hk (e ▸ hm)⟩⟩

theorem yieldSwitch_inv (h : Inv s ρ) {r : Runner W} {self : W} (hpc : s.pc t = .yielding r self) :
    ∃ ρ', Inv (s.yieldSwitch f t r self) ρ' := by
  obtain ⟨rfl, n, hrun, hf, hr, cb, hslot, hcb⟩ := (h.workers t).at hpc
  have hg := getTask_pool (f := f) h.pool self self
  have hdue : ∀ s₁, QueueStep self self s s₁ → ∀ cb', (s₁.threads self).delayCallback = some cb' →
      CallbackOk (s₁.setCoro (.user n) { s₁.coros (.user n) with fcontext := .inYield r }) n cb' := by
    intro s₁ hq cb' hcb'
    rw [hq.slot, hslot] at hcb'
    cases hcb'
    exact callbackOk_of_yieldStored hcb (by rw [hq.coros, hf]) (by rw [hq.coros]; exact hrun.2.2) hr
  rw [SmartRuntime.yieldSwitch]
  cases hg' : s.getTask f self self with
  | mk o s₁ =>
    rw [hg'] at hg
    cases hg with
    | none hq hpool _ =>
      exact switchTo_user_main ((h.others self).queueStep hq hpool fun _ _ _ _ => rfl)
        (hrun.queueStep hq rfl) (hdue _ hq)
    | some m ρ' hq hpool _ hm hm' hkeep =>
      obtain ⟨ho, hs, hkn⟩ := h.taken hq hpool hm hkeep
      obtain ⟨hρn, hmn⟩ := hkn n self (by rw [hrun.2.1]; rfl)
      exact switchTo_user_user ho (hrun.queueStep hq hρn) (hdue _ hq) hm' hs hmn

theorem mainLoop_inv (h : Inv s ρ) {self : W} (hpc : s.pc t = .mainLoop self) :
    ∃ ρ', Inv (s.mainLoop f t self) ρ' := by
  obtain ⟨rfl, hcase⟩ := (h.workers t).at hpc
  have hg := getTask_pool (f := f) h.pool self self
  rw [SmartRuntime.mainLoop]
  cases hg' : s.getTask f self self with
  | mk o s₁ =>
    rw [hg'] at hg
    cases hg with
    | none hq hpool _ =>
      refine ⟨ρ, ((h.others self).queueStep hq hpool fun _ _ _ _ => rfl).inv ?_⟩
      exact (h.workers self).frame ⟨by rw [hq.pc], hq.current self, hq.slot self,
        fun m _ => ⟨rfl, by rw [hq.coros]⟩⟩
    | some m ρ' hq hpool _ hm hm' hkeep =>
      obtain ⟨ho, hs, hkn⟩ := h.taken hq hpool hm hkeep
      rcases hcase with ⟨hcur, hslot⟩ | ⟨n, hrun, hf, hslot⟩
      · exact switchTo_main_user ho ((hq.current self).trans hcur) ((hq.slot self).trans hslot) hm' hs
      · obtain ⟨hρn, hmn⟩ := hkn n self (by rw [hrun.2.1]; rfl)
        refine switchTo_user_user ho (hrun.queueStep hq hρn) (fun cb hcb => ?_) hm' hs hmn
        rw [hq.slot, hslot] at hcb
        cases hcb
        refine ⟨rfl, ?_, ?_⟩ <;> simp [SmartRuntime.setCoro, hq.coros, hf, hrun.2.2]

theorem externalStart_inv (h : Inv s ρ) :
    ∃ ρ', Inv ({ s with nextCoro := s.nextCoro + 1 }.pushGlobal (.user s.nextCoro)) ρ' := by
  obtain ⟨hpool, hs⟩ := pool_create h.pool
  have ha : ρ s.nextCoro = .absent := (h.pool.absent _).2 (Nat.le_refl _)
  have hpush := pool_pushGlobal hpool (by rw [Function.update_self]; simp [Place.AtRest]) hs
  rw [Function.update_idem] at hpush
  refine ⟨_, hpush, fun w => (h.workers w).frame ⟨rfl, rfl, rfl, fun m hm => ⟨?_, rfl⟩⟩, h.mains,
    h.trace.frame rfl fun _ => rfl⟩
  exact update_owned (by rw [ha]; simp [Place.owner]) hm

theorem ioComplete_inv (h : Inv s ρ) {c : CoroId W} (hc : c ∈ s.parked) :
    ∃ ρ', Inv ({ s with parked := s.parked.erase c }.pushGlobal c) ρ' := by
  obtain ⟨n, rfl, hp⟩ := h.pool.parked.place c hc
  refine ⟨_, pool_unpark h.pool hc, fun w => (h.workers w).frame ⟨rfl, rfl, rfl, fun m hm => ⟨?_, rfl⟩⟩,
    h.mains, h.trace.frame rfl fun _ => rfl⟩
  exact update_owned (by rw [hp]; simp [Place.owner]) hm

/-- **Every step keeps the scheduler invariant**, if no coroutine finishes on a worker other than
the one that entered it. -/
theorem step_inv (h : Inv s ρ) {l : Label W} (hhome : finishesHome s l = true) (hstep : step f s l = some s') :
    ∃ ρ', Inv s' ρ' := by
  cases l with
  | externalStart => cases hstep; exact externalStart_inv h
  | ioComplete c =>
    simp only [step] at hstep
    split at hstep
    · rename_i hc; cases hstep; exact ioComplete_inv h hc
    · cases hstep
  | worker t a =>
    simp only [step, workerStep] at hstep
    split at hstep
    · rename_i hpc; cases hstep; exact coroRunner_inv h hpc
    · cases hstep; exact smartRoutineStart_inv h t
    · rename_i hpc; cases hstep; exact yieldWith_inv h hpc fun _ => rfl
    · rename_i hpc; cases hstep; exact yieldWith_inv h hpc fun _ => rfl
    · rename_i hpc; cases hstep; exact yieldWith_inv h hpc fun _ => rfl
    · rename_i hpc
      cases hstep
      simp only [finishesHome, hpc, decide_eq_true_eq] at hhome
      exact finishCoro_inv h hpc hhome
    · rename_i hpc; cases hstep; exact yieldSwitch_inv h hpc
    · rename_i hpc; cases hstep; exact mainLoop_inv h hpc
    · rename_i hpc; cases hstep; exact afterSwitch_inv h hpc
    · cases hstep

/-- **Every reachable state of a run in which coroutines finish where they were entered satisfies
the invariant.** -/
theorem run_inv (hf : 0 < f.capacity) {ls : List (Label W)} (hrun : run f ls = some s)
    (hhome : Transition.Guarded (step f) (fun s l => finishesHome s l) (.init f) ls) : ∃ ρ, Inv s ρ :=
  Transition.exec_invariant_of_guarded (P := fun s => ∃ ρ, Inv s ρ)
    (fun _ _ _ ⟨_, h⟩ hg hs => step_inv h hg hs) ls _ _ ⟨_, init_inv f hf⟩ hhome hrun

end SmartRoutine
