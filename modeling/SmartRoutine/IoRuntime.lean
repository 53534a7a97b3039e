import SmartRoutine.CoroContexts
import SmartRoutine.Lib.Refinement
import SmartRoutine.Lifetime

/-!
# The scheduler and the epoller together

The scheduler takes a blocking call for a set of parked coroutines out of which one is resumed at
any time; the epoller and its items know nothing of workers.  Here they run together: a call makes
an item on the coroutine's stack and yields, the deferred action registers it, the event loop
reports it, its handler takes the registration back and pushes the coroutine, and the call returns
when a worker switches to it.  A worker registers in two steps, `epoll_ctl` and `set_watching`, and
the event loop may get there first.

`Linked` is the invariant: the parked coroutines are the callers of the parked calls, a deferred
action is about a call that has not been registered, and no worker runs a coroutine that waits in a
queue.  `step_linked` keeps it, and takes every step apart into steps of the scheduler and of the
event loop.
-/

set_option autoImplicit false

namespace SmartRoutine

variable {W : Type} {σ τ : Nat → Type}

/-! ## What the steps of the scheduler do to items -/

/-- The deferred action that registers a call's item. -/
def Direction.deferred : Direction → CoroId W → DelayCallback W
  | .reading => .enableEpollReading
  | .writing => .enableEpollWriting

def Direction.action : Direction → Action
  | .reading => .read
  | .writing => .write

def DelayCallback.enables : DelayCallback W → Option (Direction × CoroId W)
  | .enableEpollReading c => some (.reading, c)
  | .enableEpollWriting c => some (.writing, c)
  | _ => none

/-- The thread has left a stack, or is about to, and has a deferred action to run. -/
def Pc.defers : Pc W → Bool
  | .coroRunner | .yielding _ _ | .afterSwitch _ => true
  | _ => false

/-- The item that the next step of a worker registers: that of the call this coroutine has made. -/
def enabled (s : SmartRuntime W) (t : W) : Option (Direction × CoroId W) :=
  match s.pc t with
  | .coroRunner => (s.threads t).delayCallback.bind DelayCallback.enables
  | .afterSwitch self => (s.threads self).delayCallback.bind DelayCallback.enables
  | _ => none

/-- The coroutine that a worker has switched to in a step from `s` to `s'`. -/
def entered [DecidableEq W] (f : Flags) (s s' : SmartRuntime W) (t : W) : Option (CoroId W) :=
  match s.pc t with
  | .yielding _ _ => some (s'.threads t).currentCoro
  | .mainLoop self => if (s.getTask f t self).1.isSome then some (s'.threads self).currentCoro else none
  | _ => none

/-- The call that a step of the loop and its items registers. -/
def LifeLabel.registers {ι : Type} {τ : ι → Type} : LifeLabel ι τ → Option ι
  | .enable i => some i
  | _ => none

/-! ## The machine -/

/-- The calls are numbered as they are made. -/
structure IoRuntime (W : Type) (σ : Nat → Type) where
  runtime : SmartRuntime W
  life : Lifetime Nat σ
  calls : Nat
  /-- `coro_` of a call's context. -/
  coro : Nat → Option (CoroId W)
  /-- The last call of a coroutine, whose item is on its stack. -/
  call : CoroId W → Option Nat
  /-- The call in whose registration a worker stands between `epoll_ctl` and `set_watching`. -/
  setting : W → Option Nat

inductive IoRuntimeLabel (W : Type) (τ : Nat → Type) where
  | externalStart
  /-- A worker's step other than a call. -/
  | worker (t : W) (a : Action)
  /-- The `set_watching` that ends a registration. -/
  | setWatching (t : W)
  /-- The coroutine that a worker runs makes its call and yields. -/
  | call (t : W)
  /-- A step of the epoller thread. -/
  | epoller (l : LifeLabel Nat τ)

namespace IoRuntime

/-- `enable_epoll_reading` or `enable_epoll_writing`, as far as `epoll_ctl`.  What `t` does to its own
`delay_callback_` afterwards is taken together with it, since no other thread looks there. -/
def enable [DecidableEq W] (x : IoRuntime W σ) (t : W) (d : Direction) (i : Nat) : IoRuntime W σ :=
  { x with life := x.life.register d i, setting := Function.update x.setting t (some i) }

/-- The coroutine goes on behind its `yield`: a call that has been resumed returns. -/
def back (x : IoRuntime W σ) (i : Nat) : IoRuntime W σ :=
  if x.life.owner i = .runnable then
    { x with life := { x.life with owner := Function.update x.life.owner i .returned } }
  else x

/-- `smart_routine_resume` on the epoller thread, which is no worker. -/
def resume [DecidableEq W] (x : IoRuntime W σ) (i : Nat) : IoRuntime W σ :=
  match x.coro i with
  | some c => { x with runtime := { x.runtime with parked := x.runtime.parked.erase c }.pushGlobal c }
  | none => x

/-- With the call on the stack of a coroutine. -/
def onCall (x : IoRuntime W σ) (c : CoroId W) (k : Nat → IoRuntime W σ) : IoRuntime W σ :=
  match x.call c with
  | some i => k i
  | none => x

variable [DecidableEq W] (f : Flags) (op : ∀ i, IoOp (σ i) (τ i))

def step (x : IoRuntime W σ) : IoRuntimeLabel W τ → Option (IoRuntime W σ)
  | .externalStart => (SmartRoutine.step f x.runtime .externalStart).map fun s => { x with runtime := s }
  | .worker t a =>
    -- before `set_watching` the worker does nothing else
    if a = .read ∨ a = .write ∨ (x.setting t).isSome then none
    else (workerStep f x.runtime t a).map fun s =>
      let y := { x with runtime := s }
      let y := match enabled x.runtime t with
        | some (d, c) => y.onCall c (y.enable t d)
        | none => y
      match entered f x.runtime s t with
        | some c => y.onCall c y.back
        | none => y
  | .setWatching t =>
    (x.setting t).map fun i =>
      { x with life := x.life.watch i, setting := Function.update x.setting t none }
  | .call t =>
    if (x.setting t).isSome then none
    else (workerStep f x.runtime t (op x.calls).direction.action).map fun s =>
      let c := (x.runtime.threads t).currentCoro
      { x with
        runtime := s
        calls := x.calls + 1
        coro := Function.update x.coro x.calls (some c)
        call := Function.update x.call c (some x.calls) }
  | .epoller (.enable _) => none
  | .epoller (.watch _) => none
  | .epoller (.ret _) => none
  | .epoller (.loop r) =>
    (x.life.loopStep op r).map fun life =>
      let y := { x with life := life }
      match x.life.resumes op r with
      | some i => y.resume i
      | none => y
  | .epoller l => (x.life.step op l).map fun life => { x with life := life }

/-- Every call has its item and its context, in a runtime that has just been started. -/
def start (fd : Nat → Int) (ctx : ∀ i, σ i) : IoRuntime W σ :=
  ⟨.init f, .start op fd ctx, 0, fun _ => none, fun _ => none, fun _ => none⟩

/-- As for the event loop alone (`Lifetime.keepsItems`), with the calls that return here. -/
def keepsItems (x : IoRuntime W σ) : IoRuntimeLabel W τ → Bool
  | .worker t a =>
    match workerStep f x.runtime t a with
    | some s => ((entered f x.runtime s t).bind x.call).all fun i =>
        x.life.owner i = .runnable → i ∉ x.life.inHand
    | none => true
  | .epoller l => x.life.keepsItems op l
  | _ => true

/-- The call that a step registers. -/
def registered (x : IoRuntime W σ) : IoRuntimeLabel W τ → Option Nat
  | .worker t _ => (enabled x.runtime t).bind fun p => x.call p.2
  | .epoller l => l.registers
  | _ => none

/-- A coroutine finishes on the worker that entered it. -/
def finishesHome (x : IoRuntime W σ) : IoRuntimeLabel W τ → Bool
  | .worker t a => SmartRoutine.finishesHome x.runtime (.worker t a)
  | _ => true

end IoRuntime

/-- The deferred action that `w` is to run registers the item of the call of `c`. -/
def Defers (s : SmartRuntime W) (w : W) (d : Direction) (c : CoroId W) : Prop :=
  (s.pc w).defers = true ∧ (s.threads w).delayCallback = some (d.deferred c)

/-! ## What a worker's step can be -/

/-- A step of a worker; `call` is a blocking call. -/
inductive WorkerTurn [DecidableEq W] (f : Flags) (s : SmartRuntime W) (t : W) :
    Action → SmartRuntime W → Prop
  | coroRunner (hpc : s.pc t = .coroRunner) : WorkerTurn f s t .advance (s.coroRunner t)
  | start {r : Runner W} (hpc : s.pc t = .runFn r) : WorkerTurn f s t .start (s.smartRoutineStart t)
  | yield {r : Runner W} (hpc : s.pc t = .runFn r) :
    WorkerTurn f s t .yield (s.yieldWith t r .addBackToQueue)
  | call {r : Runner W} (d : Direction) (hpc : s.pc t = .runFn r) :
    WorkerTurn f s t d.action (s.yieldWith t r d.deferred)
  | finish {r : Runner W} (hpc : s.pc t = .runFn r) : WorkerTurn f s t .finish (s.finishCoro t r)
  | switch {r : Runner W} {self : W} (hpc : s.pc t = .yielding r self) :
    WorkerTurn f s t .advance (s.yieldSwitch f t r self)
  | loop {self : W} (hpc : s.pc t = .mainLoop self) :
    WorkerTurn f s t .advance (s.mainLoop f t self)
  | after {self : W} (hpc : s.pc t = .afterSwitch self) :
    WorkerTurn f s t .advance (s.afterSwitch t self)

theorem workerStep_turn [DecidableEq W] {f : Flags} {s s' : SmartRuntime W} {t : W} {a : Action}
    (hstep : workerStep f s t a = some s') : WorkerTurn f s t a s' := by
  unfold workerStep at hstep
  split at hstep
  next hpc => cases hstep; exact .coroRunner hpc
  next hpc => cases hstep; exact .start hpc
  next hpc => cases hstep; exact .yield hpc
  next hpc => cases hstep; exact .call .reading hpc
  next hpc => cases hstep; exact .call .writing hpc
  next hpc => cases hstep; exact .finish hpc
  next hpc => cases hstep; exact .switch hpc
  next hpc => cases hstep; exact .loop hpc
  next hpc => cases hstep; exact .after hpc
  next => cases hstep

/-! ## Pieces of a worker's step -/

section

variable [DecidableEq W] {f : Flags} (s : SmartRuntime W) (t self : W)

@[simp] theorem pushTask_parked (c : CoroId W) : (s.pushTask t self c).parked = s.parked := by
  unfold SmartRuntime.pushTask
  dsimp only
  split <;> rfl

@[simp] theorem getTask_parked : (s.getTask f t self).2.parked = s.parked := by
  unfold SmartRuntime.getTask
  dsimp only
  split
  · split <;> rfl
  · rfl

/-- The deferred action parks the coroutine whose item it registers. -/
theorem flushCallback_parked : (s.flushCallback t self).parked =
    s.parked ++ (((s.threads self).delayCallback.bind DelayCallback.enables).map Prod.snd).toList := by
  unfold SmartRuntime.flushCallback
  cases hcb : (s.threads self).delayCallback with
  | none => simp [SmartRuntime.emit]
  | some cb =>
    cases cb with
    | addBackToQueue c =>
      show (SmartRuntime.pushTask _ t t c).parked = _
      simp [DelayCallback.enables, SmartRuntime.emit]
    | enableEpollReading c => rfl
    | enableEpollWriting c => rfl
    | destroyCoro c => simp [DelayCallback.enables, SmartRuntime.runCallback, SmartRuntime.emit,
        SmartRuntime.setCoro, SmartRuntime.setSlot]

end

/-- A step of `t` that leaves the other workers alone. -/
structure OnlyWorker (t : W) (s s' : SmartRuntime W) : Prop where
  pc : ∀ w, w ≠ t → s'.pc w = s.pc w
  slot : ∀ w, w ≠ t → (s'.threads w).delayCallback = (s.threads w).delayCallback
  current : ∀ w, w ≠ t → (s'.threads w).currentCoro = (s.threads w).currentCoro

section

variable {s s₁ s' : SmartRuntime W} {t : W}

theorem OnlyWorker.refl (t : W) (s : SmartRuntime W) : OnlyWorker t s s :=
  ⟨fun _ _ => rfl, fun _ _ => rfl, fun _ _ => rfl⟩

theorem OnlyWorker.trans (h : OnlyWorker t s s₁) (h' : OnlyWorker t s₁ s') : OnlyWorker t s s' :=
  ⟨fun w hw => (h'.pc w hw).trans (h.pc w hw), fun w hw => (h'.slot w hw).trans (h.slot w hw),
    fun w hw => (h'.current w hw).trans (h.current w hw)⟩

theorem QueueStep.onlyWorker {u self : W} (h : QueueStep u self s s') : OnlyWorker t s s' :=
  ⟨fun _ _ => by rw [h.pc], fun w _ => h.slot w, fun w _ => h.current w⟩

/-- If `t` keeps its coroutine as well, every worker does. -/
theorem OnlyWorker.current_eq (h : OnlyWorker t s s')
    (hcurrent : (s'.threads t).currentCoro = (s.threads t).currentCoro) (w : W) :
    (s'.threads w).currentCoro = (s.threads w).currentCoro := by
  by_cases hw : w = t
  · exact hw ▸ hcurrent
  · exact h.current w hw

variable [DecidableEq W]

theorem setPc_onlyWorker (s : SmartRuntime W) (t : W) (p : Pc W) : OnlyWorker t s (s.setPc t p) :=
  ⟨fun _ hw => Function.update_of_ne hw .., fun _ _ => rfl, fun _ _ => rfl⟩

theorem setSlot_onlyWorker (s : SmartRuntime W) (t : W) (cb : Option (DelayCallback W)) :
    OnlyWorker t s (s.setSlot t cb) :=
  ⟨fun _ _ => rfl, fun _ hw => setSlot_other s t cb hw, fun w _ => setSlot_current s t cb w⟩

theorem runCallback_onlyWorker (s : SmartRuntime W) (t : W) (cb : DelayCallback W) :
    OnlyWorker t s (s.runCallback t cb) ∧ (s.runCallback t cb).pc = s.pc ∧
      ((s.runCallback t cb).threads t).currentCoro = (s.threads t).currentCoro := by
  cases cb with
  | addBackToQueue c =>
    have h := pushTask_step s t t c
    exact ⟨h.onlyWorker, h.pc, h.current t⟩
  | enableEpollReading c => exact ⟨⟨fun _ _ => rfl, fun _ _ => rfl, fun _ _ => rfl⟩, rfl, rfl⟩
  | enableEpollWriting c => exact ⟨⟨fun _ _ => rfl, fun _ _ => rfl, fun _ _ => rfl⟩, rfl, rfl⟩
  | destroyCoro c => exact ⟨⟨fun _ _ => rfl, fun _ _ => rfl, fun _ _ => rfl⟩, rfl, rfl⟩

theorem flushCallback_onlyWorker (s : SmartRuntime W) (t : W) :
    OnlyWorker t s (s.flushCallback t t) ∧
      ((s.flushCallback t t).threads t).currentCoro = (s.threads t).currentCoro := by
  unfold SmartRuntime.flushCallback
  cases (s.threads t).delayCallback with
  | none => exact ⟨⟨fun _ _ => rfl, fun _ _ => rfl, fun _ _ => rfl⟩, rfl⟩
  | some cb =>
    obtain ⟨h, -, hcur⟩ := runCallback_onlyWorker (s.emit (.exec t t cb)) t cb
    have hemit : OnlyWorker t s (s.emit (.exec t t cb)) := ⟨fun _ _ => rfl, fun _ _ => rfl, fun _ _ => rfl⟩
    exact ⟨(hemit.trans h).trans (setSlot_onlyWorker _ t none), (setSlot_current _ t none t).trans hcur⟩

/-- `switch_to` changes what the thread runs. -/
theorem switchTo_onlyWorker (s : SmartRuntime W) (t : W) (c : CoroId W) (k : Fcontext W) :
    OnlyWorker t s (s.switchTo t t c k) ∧ ((s.switchTo t t c k).threads t).currentCoro = c ∧
      ((s.switchTo t t c k).threads t).delayCallback = (s.threads t).delayCallback := by
  rw [switchTo_eq]
  refine ⟨⟨fun w hw => Function.update_of_ne hw .., fun w _ => setCurrent_slot _ t c w, fun w hw => ?_⟩,
    setCurrent_self _ t c, setCurrent_slot _ t c t⟩
  exact congrArg SmartThread.currentCoro (setCurrent_other _ t c hw)

end

/-- A run of the scheduler in which coroutines finish where they were entered. -/
def Schedules [DecidableEq W] (f : Flags) (s s' : SmartRuntime W) : Prop :=
  ∃ ls, Transition.exec (step f) s ls = some s' ∧
    Transition.Guarded (step f) (fun s l => finishesHome s l = true) s ls

theorem Schedules.of_step [DecidableEq W] {f : Flags} {s s' : SmartRuntime W} {l : Label W}
    (hstep : step f s l = some s') (hhome : finishesHome s l = true) : Schedules f s s' :=
  ⟨[l], Transition.exec_single hstep, (Transition.guarded_single hstep).2 hhome⟩

/-- What follows when a worker runs the deferred action. -/
structure Flushed (t : W) (s s' : SmartRuntime W) : Prop where
  others : OnlyWorker t s s'
  current : (s'.threads t).currentCoro = (s.threads t).currentCoro
  done : (s'.pc t).defers = false
  parked : s'.parked =
    s.parked ++ (((s.threads t).delayCallback.bind DelayCallback.enables).map Prod.snd).toList

section

variable [DecidableEq W] (s : SmartRuntime W) (t : W)

omit [DecidableEq W] in
theorem not_defers {s : SmartRuntime W} {t : W} {p : Pc W} (hpc : s.pc t = p)
    (hp : p.defers = false) : (s.pc t).defers = false := by
  rw [hpc, hp]

theorem coroRunner_flushed : Flushed t s (s.coroRunner t) := by
  obtain ⟨h, hcur⟩ := flushCallback_onlyWorker s t
  have hemit : OnlyWorker t (s.flushCallback t t) ((s.flushCallback t t).emit (.access t t .currentCoro)) :=
    ⟨fun _ _ => rfl, fun _ _ => rfl, fun _ _ => rfl⟩
  refine ⟨(h.trans hemit).trans (setPc_onlyWorker _ t _), hcur, ?_, flushCallback_parked s t t⟩
  exact not_defers (Function.update_self ..) rfl

theorem afterSwitch_flushed : Flushed t s (s.afterSwitch t t) := by
  obtain ⟨h, hcur⟩ := flushCallback_onlyWorker s t
  refine ⟨h.trans (setPc_onlyWorker _ t _), hcur, ?_, flushCallback_parked s t t⟩
  exact not_defers (Function.update_self ..) rfl

/-- What follows when a worker has switched to `c`. -/
structure Switched (t : W) (s s' : SmartRuntime W) (c : CoroId W) : Prop where
  others : OnlyWorker t s s'
  current : (s'.threads t).currentCoro = c
  slot : (s'.threads t).delayCallback = (s.threads t).delayCallback
  parked : s'.parked = s.parked

theorem switchTo_switched {s s₁ : SmartRuntime W} (hq : QueueStep t t s s₁)
    (hparked : s₁.parked = s.parked) (c : CoroId W) (k : Fcontext W) :
    Switched t s (s₁.switchTo t t c k) c := by
  obtain ⟨h, hcur, hslot⟩ := switchTo_onlyWorker s₁ t c k
  exact ⟨hq.onlyWorker.trans h, hcur, hslot.trans (hq.slot t), hparked⟩

theorem yieldWith_onlyWorker (r : Runner W) (cb : CoroId W → DelayCallback W) :
    OnlyWorker t s (s.yieldWith t r cb) ∧
      ((s.yieldWith t r cb).threads t).currentCoro = (s.threads t).currentCoro ∧
      ((s.yieldWith t r cb).threads t).delayCallback = some (cb (s.threads t).currentCoro) :=
  ⟨⟨fun _ hw => Function.update_of_ne hw .., fun _ hw => setSlot_other _ t _ hw,
    fun w _ => setSlot_current _ t _ w⟩, setSlot_current _ t _ t, setSlot_self _ t _⟩

theorem finishCoro_onlyWorker {r : Runner W} (hr : r.tlsSt = t) :
    OnlyWorker t s (s.finishCoro t r) ∧
      ((s.finishCoro t r).threads t).currentCoro = (s.threads t).currentCoro ∧
      ((s.finishCoro t r).threads t).delayCallback = some (.destroyCoro r.currCoro) := by
  subst hr
  exact ⟨⟨fun _ hw => Function.update_of_ne hw .., fun _ hw => setSlot_other _ r.tlsSt _ hw,
    fun w _ => setSlot_current _ r.tlsSt _ w⟩, setSlot_current _ r.tlsSt _ r.tlsSt,
    setSlot_self _ r.tlsSt _⟩

/-- A new coroutine is of no concern to the workers. -/
theorem smartRoutineStart_frame :
    (s.smartRoutineStart t).parked = s.parked ∧
      (∀ w, ((s.smartRoutineStart t).threads w).currentCoro = (s.threads w).currentCoro) ∧
      ∀ w d c, Defers (s.smartRoutineStart t) w d c → Defers s w d c := by
  have hq : QueueStep t t { s with nextCoro := s.nextCoro + 1 } (s.smartRoutineStart t) :=
    pushTask_step ..
  refine ⟨pushTask_parked .., hq.current, fun w d c hd => ?_⟩
  rw [Defers, hq.pc, hq.slot] at hd
  exact hd

end

/-! ## Steps of the loop -/

namespace Lifetime

variable {ι : Type} {σ τ : ι → Type} [DecidableEq ι] {op : ∀ i, IoOp (σ i) (τ i)} {s s' : Lifetime ι σ}
  {r : ∀ i, τ i}

/-- A step of the loop changes the owner of the call that it resumes. -/
theorem loopStep_owner (hstep : loopStep op s r = some s') : s'.owner =
    match s.resumes op r with
    | some i => Function.update s.owner i (if s.owner i = .returned then .returned else .runnable)
    | none => s.owner := by
  cases loopStep_turn hstep with
  | taken hpc | take hpc | passed hpc | item hpc | handled hpc => simp [resumes, hpc]
  | skip hpc hno =>
    rw [resumes, hpc]
    dsimp only
    rw [if_neg (by rw [hno]; exact Bool.false_ne_true)]
  | @call i c todo ready s' hpc hevent hc hcall =>
    unfold callback at hcall
    rw [resumes_of_call hpc hevent hc]
    dsimp only at hcall ⊢
    split at hcall
    · cases hcall
    · rename_i hhandler
      obtain rfl := Option.some.inj hcall
      rw [hhandler]
      rfl
    · rename_i hhandler
      obtain rfl := Option.some.inj hcall
      rw [hhandler]

theorem loopStep_registering (hstep : loopStep op s r = some s') : s'.registering = s.registering := by
  cases loopStep_turn hstep with
  | taken | take | passed | item | handled | skip => rfl
  | call _ _ _ hcall =>
    unfold callback at hcall
    split at hcall <;> cases hcall <;> rfl

omit [DecidableEq ι] in
/-- Only a parked call is resumed. -/
theorem LifeInv.resumes_parked (h : LifeInv op s) {i : ι} (hi : s.resumes op r = some i) :
    s.owner i = .parked := by
  unfold resumes at hi
  split at hi
  · rename_i j c todo ready hpc
    split at hi
    · rename_i hcond
      split at hi
      · obtain rfl := Option.some.inj hi
        have hpass := h.pass
        simp only [PassInv, hpc] at hpass
        have hc := (Bool.and_eq_true_iff.1 hcond).2
        rw [h.items.callbacks] at hc
        obtain rfl := of_decide_eq_true hc
        exact hpass.2.2.2.2 List.mem_cons_self
      · cases hi
    · cases hi
  · cases hi

/-- What a step of the machine is to the loop and its items: no step, or one step that registers
`made`. -/
inductive Moves (op : ∀ i, IoOp (σ i) (τ i)) (s : Lifetime ι σ) : Option ι → Lifetime ι σ → Prop
  | stay : Moves op s none s
  | move {l : LifeLabel ι τ} {s' : Lifetime ι σ} (hkeep : s.keepsItems op l = true)
    (hstep : step op s l = some s') : Moves op s l.registers s'

theorem Moves.run {made : Option ι} (h : Moves op s made s') :
    ∃ ms, Transition.exec (step op) s ms = some s' ∧
      Transition.Guarded (step op) (fun s l => s.keepsItems op l = true) s ms := by
  cases h with
  | stay => exact ⟨[], rfl, trivial⟩
  | @move l _ hkeep hstep =>
    exact ⟨[l], Transition.exec_single hstep, (Transition.guarded_single hstep).2 hkeep⟩

end Lifetime

/-! ## The invariant -/

theorem enables_eq_some {cb : DelayCallback W} {d : Direction} {c : CoroId W} :
    cb.enables = some (d, c) ↔ cb = d.deferred c := by
  cases cb <;> cases d <;> simp [DelayCallback.enables, Direction.deferred]

theorem OnlyWorker.defers {s s' : SmartRuntime W} {t w : W} {d : Direction} {c : CoroId W}
    (h : OnlyWorker t s s') (hw : w ≠ t) : Defers s' w d c ↔ Defers s w d c := by
  rw [Defers, Defers, h.pc w hw, h.slot w hw]

/-- The coroutine of such an action belongs to the worker. -/
theorem Defers.owner [DecidableEq W] {s : SmartRuntime W} {place : Nat → Place W} {w : W}
    {d : Direction} {c : CoroId W} (h : Inv s place) (hdef : Defers s w d c) :
    ∃ n, c = .user n ∧ (place n).owner = some w := by
  obtain ⟨hpc, hslot⟩ := hdef
  have due (hdue : SlotDue s place w) : ∃ n, c = .user n ∧ (place n).owner = some w := by
    obtain ⟨n, hp, hok⟩ := hdue _ hslot
    refine ⟨n, ?_, by rw [hp]; rfl⟩
    cases d <;> exact hok.1
  cases hp : s.pc w with
  | coroRunner => exact due ((h.workers w).at hp).2
  | yielding r self =>
    obtain ⟨-, n, hrun, -, -, cb, hcb, hstored⟩ := (h.workers w).at hp
    obtain rfl := Option.some.inj (hslot.symm.trans hcb)
    refine ⟨n, ?_, by rw [hrun.2.1]; rfl⟩
    cases d <;> exact hstored
  | afterSwitch self => exact due ((h.workers w).at hp).2.2
  | runFn | mainLoop | wild => rw [hp] at hpc; cases hpc

/-- The workers that stand before `set_watching`, and the items. -/
structure Setting (setting : W → Option Nat) (registering : Nat → WatchPc) : Prop where
  worker : ∀ i, registering i ≠ .returned ↔ ∃ w, setting w = some i
  inj : ∀ w w' i, setting w = some i → setting w' = some i → w' = w

section

variable [DecidableEq W] {setting : W → Option Nat} {registering : Nat → WatchPc} {t : W} {i : Nat}

theorem update_eq_some {o : Option Nat} {w : W} {j : Nat} :
    Function.update setting t o w = some j ↔ w = t ∧ o = some j ∨ w ≠ t ∧ setting w = some j := by
  by_cases hwt : w = t
  · subst hwt
    simp
  · simp [hwt]

theorem Setting.registers (h : Setting setting registering) (ht : setting t = none)
    (hi : registering i = .returned) {pc : WatchPc} (hpc : pc ≠ .returned) :
    Setting (Function.update setting t (some i)) (Function.update registering i pc) := by
  have hfree : ∀ w, setting w ≠ some i := fun w hw => (h.worker i).2 ⟨w, hw⟩ hi
  refine ⟨fun j => ?_, fun w w' j hw hw' => ?_⟩
  · by_cases hji : j = i
    · subst hji
      rw [Function.update_self]
      exact iff_of_true hpc ⟨t, Function.update_self ..⟩
    · rw [Function.update_of_ne hji, h.worker j]
      refine exists_congr fun w => ?_
      rw [update_eq_some]
      constructor
      · refine fun hw => .inr ⟨?_, hw⟩
        rintro rfl
        rw [ht] at hw
        cases hw
      · rintro (⟨-, hij⟩ | ⟨-, hw⟩)
        · exact absurd (Option.some.inj hij).symm hji
        · exact hw
  · rcases update_eq_some.1 hw with ⟨rfl, hij⟩ | ⟨-, hw⟩
    · obtain rfl := Option.some.inj hij
      exact (update_eq_some.1 hw').elim And.left fun hw' => absurd hw'.2 (hfree w')
    · rcases update_eq_some.1 hw' with ⟨-, hij⟩ | ⟨-, hw'⟩
      · obtain rfl := Option.some.inj hij
        exact absurd hw (hfree w)
      · exact h.inj w w' j hw hw'

theorem Setting.sets (h : Setting setting registering) (ht : setting t = some i) :
    Setting (Function.update setting t none) (Function.update registering i .returned) := by
  have hold : ∀ w j, Function.update setting t none w = some j ↔ w ≠ t ∧ setting w = some j :=
    fun w j => update_eq_some.trans (or_iff_right fun hnone => by cases hnone.2)
  refine ⟨fun j => ?_, fun w w' j hw hw' => ?_⟩
  · by_cases hji : j = i
    · subst hji
      rw [Function.update_self]
      refine iff_of_false (fun hne => hne rfl) ?_
      rintro ⟨w, hw⟩
      obtain ⟨hwt, hw⟩ := (hold w j).1 hw
      exact hwt (h.inj t w j ht hw)
    · rw [Function.update_of_ne hji, h.worker j]
      refine exists_congr fun w => ?_
      rw [hold]
      refine ⟨fun hw => ⟨?_, hw⟩, And.right⟩
      rintro rfl
      exact hji (Option.some.inj (hw.symm.trans ht))
  · exact h.inj w w' j ((hold w j).1 hw).2 ((hold w' j).1 hw').2

end

namespace IoRuntime

variable [DecidableEq W]

structure Linked (op : ∀ i, IoOp (σ i) (τ i)) (x : IoRuntime W σ) (place : Nat → Place W) : Prop where
  sched : Inv x.runtime place
  items : Lifetime.LifeInv op x.life
  unmade : ∀ i, x.calls ≤ i → x.life.owner i = .made
  call : ∀ c i, x.call c = some i → i < x.calls ∧ x.coro i = some c
  /-- A coroutine makes no call before its last one has returned. -/
  waits : ∀ i, x.life.owner i = .parked ∨ x.life.owner i = .runnable → ∃ c, x.call c = some i
  parked : ∀ c, c ∈ x.runtime.parked ↔ ∃ i, x.call c = some i ∧ x.life.owner i = .parked
  deferred : ∀ w d c, Defers x.runtime w d c →
    ∃ i, x.call c = some i ∧ x.life.owner i = .made ∧ (op i).direction = d
  away : ∀ c i w, x.call c = some i → x.life.owner i = .runnable →
    (x.runtime.threads w).currentCoro ≠ c
  setting : Setting x.setting x.life.registering

variable {f : Flags} {op : ∀ i, IoOp (σ i) (τ i)} {x x' : IoRuntime W σ} {place place' : Nat → Place W}
  {s : SmartRuntime W} {t : W}

theorem start_linked (hf : 0 < f.capacity) (fd : Nat → Int) (ctx : ∀ i, σ i) :
    Linked op (start f op fd ctx : IoRuntime W σ) fun _ => .absent := by
  refine ⟨init_inv f hf, Lifetime.start_inv op fd ctx, fun _ _ => rfl, nofun, ?_, fun c => ?_, ?_, nofun,
    ⟨fun i => iff_of_false (fun hne => hne rfl) ?_, nofun⟩⟩
  · rintro i (h | h) <;> cases h
  · refine iff_of_false List.not_mem_nil ?_
    rintro ⟨i, h, -⟩
    cases h
  · rintro w d c ⟨h, -⟩
    cases h
  · rintro ⟨w, hw⟩
    cases hw

/-- A call is of one coroutine. -/
theorem Linked.call_inj (h : Linked op x place) {c c' : CoroId W} {i : Nat} (hc : x.call c = some i)
    (hc' : x.call c' = some i) : c' = c :=
  Option.some.inj ((h.call c' i hc').2.symm.trans (h.call c i hc).2)

/-- The calls to come are other ones. -/
theorem Linked.ne_of_unmade (h : Linked op x place) {c : CoroId W} {i j : Nat} (hc : x.call c = some i)
    (hj : x.calls ≤ j) : j ≠ i :=
  fun e => absurd hj (Nat.not_le.2 (e ▸ (h.call c i hc).1))

/-- A step of the scheduler that concerns no call. -/
theorem Linked.quiet (h : Linked op x place) (hs : Inv s place') (hparked : s.parked = x.runtime.parked)
    (hcurrent : ∀ w, (s.threads w).currentCoro = (x.runtime.threads w).currentCoro)
    (hdefers : ∀ w d c, Defers s w d c → Defers x.runtime w d c) :
    Linked op { x with runtime := s } place' where
  sched := hs
  items := h.items
  unmade := h.unmade
  call := h.call
  waits := h.waits
  parked := fun c => by rw [← h.parked c, ← hparked]
  deferred := fun w d c hd => h.deferred w d c (hdefers w d c hd)
  away := fun c i w hc hi => by rw [hcurrent]; exact h.away c i w hc hi
  setting := h.setting

/-- **A call is made.** -/
theorem Linked.makes (h : Linked op x place) {n : Nat} (hs : Inv s place')
    (hcur : (x.runtime.threads t).currentCoro = .user n) (hparked : s.parked = x.runtime.parked)
    (hothers : OnlyWorker t x.runtime s)
    (hcurrent : (s.threads t).currentCoro = (x.runtime.threads t).currentCoro)
    (hslot : (s.threads t).delayCallback = some ((op x.calls).direction.deferred (.user n))) :
    Linked op { x with
      runtime := s
      calls := x.calls + 1
      coro := Function.update x.coro x.calls (some (.user n))
      call := Function.update x.call (.user n) (some x.calls) } place' := by
  have hplace : place n = .onThread t := onThread_of_current (h.sched.workers t) hcur
  have hnew : x.life.owner x.calls = .made := h.unmade _ (Nat.le_refl _)
  -- the coroutine runs, so it is neither parked nor in a queue
  have hnot : (CoroId.user n : CoroId W) ∉ x.runtime.parked := fun hm => by
    rw [h.sched.pool.parked.place_user hm] at hplace
    cases hplace
  have hfree : ∀ i, x.call (.user n) = some i → x.life.owner i ≠ .parked ∧ x.life.owner i ≠ .runnable :=
    fun i hi => ⟨fun ho => hnot ((h.parked _).2 ⟨i, hi, ho⟩), fun ho => h.away _ i t hi ho hcur⟩
  refine ⟨hs, h.items, fun i hi => h.unmade i (Nat.le_of_succ_le hi), fun c i hc => ?_, fun i hi => ?_,
    fun c => ?_, fun w d c hd => ?_, fun c i w hc hi => ?_, h.setting⟩
  · dsimp only at hc ⊢
    by_cases hcn : c = .user n
    · subst hcn
      rw [Function.update_self] at hc
      obtain rfl := Option.some.inj hc
      exact ⟨Nat.lt_succ_self _, Function.update_self ..⟩
    · rw [Function.update_of_ne hcn] at hc
      obtain ⟨hlt, hcoro⟩ := h.call c i hc
      exact ⟨by omega, (Function.update_of_ne (by omega) ..).trans hcoro⟩
  · obtain ⟨c, hc⟩ := h.waits i hi
    refine ⟨c, (Function.update_of_ne ?_ ..).trans hc⟩
    rintro rfl
    obtain ⟨hp, hr⟩ := hfree i hc
    exact hi.elim hp hr
  · dsimp only
    rw [hparked]
    by_cases hcn : c = .user n
    · subst hcn
      refine iff_of_false hnot ?_
      rintro ⟨i, hi, ho⟩
      rw [Function.update_self] at hi
      obtain rfl := Option.some.inj hi
      rw [hnew] at ho
      cases ho
    · rw [Function.update_of_ne hcn]
      exact h.parked c
  · by_cases hw : w = t
    · subst hw
      obtain heq := Option.some.inj (hd.2.symm.trans hslot)
      rw [← enables_eq_some, enables_eq_some.2 rfl] at heq
      obtain ⟨rfl, rfl⟩ := Prod.mk.inj (Option.some.inj heq)
      exact ⟨x.calls, Function.update_self .., hnew, rfl⟩
    · rw [hothers.defers hw] at hd
      obtain ⟨i, hi, ho, hdir⟩ := h.deferred w d c hd
      refine ⟨i, (Function.update_of_ne ?_ ..).trans hi, ho, hdir⟩
      rintro rfl
      obtain ⟨m, hm, howner⟩ := hd.owner h.sched
      obtain rfl : n = m := by cases hm; rfl
      rw [hplace] at howner
      exact hw (Option.some.inj howner).symm
  · dsimp only at hc hi ⊢
    have hcn : c ≠ .user n := by
      rintro rfl
      rw [Function.update_self] at hc
      obtain rfl := Option.some.inj hc
      rw [hnew] at hi
      cases hi
    rw [Function.update_of_ne hcn] at hc
    rw [hothers.current_eq hcurrent w]
    exact h.away c i w hc hi

/-- **The deferred action registers the item.** -/
theorem Linked.registers (h : Linked op x place) {d : Direction} {c : CoroId W} (hs : Inv s place')
    (hfree : x.setting t = none) (hd : Defers x.runtime t d c) (hparked : s.parked = x.runtime.parked ++ [c])
    (hothers : OnlyWorker t x.runtime s)
    (hcurrent : (s.threads t).currentCoro = (x.runtime.threads t).currentCoro)
    (hdone : (s.pc t).defers = false) :
    ∃ i, x.call c = some i ∧ x.life.owner i = .made ∧ (op i).direction = d ∧
      Linked op (enable { x with runtime := s } t d i) place' := by
  obtain ⟨i, hi, ho, hdir⟩ := h.deferred t d c hd
  refine ⟨i, hi, ho, hdir, hs, ?_, fun j hj => ?_, h.call, fun j hj => ?_, fun c' => ?_,
    fun w d' c' hd' => ?_, fun c' j w hc hj => ?_, ?_⟩
  · rw [← hdir]
    exact Lifetime.register_inv h.items ho
  · have hji := h.ne_of_unmade hi hj
    exact (Function.update_of_ne hji ..).trans (h.unmade j hj)
  · by_cases hji : j = i
    · exact ⟨c, hji ▸ hi⟩
    · refine h.waits j ?_
      rwa [show (enable { x with runtime := s } t d i).life.owner j = x.life.owner j from
        Function.update_of_ne hji ..] at hj
  · show c' ∈ s.parked ↔ ∃ j, x.call c' = some j ∧ Function.update x.life.owner i .parked j = .parked
    rw [hparked, List.mem_append, List.mem_singleton, h.parked c']
    constructor
    · rintro (⟨j, hj, hp⟩ | rfl)
      · have hji : j ≠ i := fun e => by rw [e, ho] at hp; cases hp
        exact ⟨j, hj, (Function.update_of_ne hji ..).trans hp⟩
      · exact ⟨i, hi, Function.update_self ..⟩
    · rintro ⟨j, hj, hp⟩
      by_cases hji : j = i
      · subst hji
        exact .inr (h.call_inj hi hj)
      · rw [Function.update_of_ne hji] at hp
        exact .inl ⟨j, hj, hp⟩
  · by_cases hw : w = t
    · subst hw
      exact absurd (hdone.symm.trans hd'.1) Bool.false_ne_true
    · replace hd' := (hothers.defers hw).1 hd'
      obtain ⟨j, hj, hmade, hdir'⟩ := h.deferred w d' c' hd'
      refine ⟨j, hj, (Function.update_of_ne ?_ ..).trans hmade, hdir'⟩
      -- another worker's deferred action is about another coroutine
      rintro rfl
      obtain rfl := h.call_inj hi hj
      obtain ⟨n, hn, howner⟩ := hd.owner h.sched
      obtain ⟨m, hm, howner'⟩ := hd'.owner h.sched
      obtain rfl : n = m := by cases hn.symm.trans hm; rfl
      exact hw (Option.some.inj (howner'.symm.trans howner))
  · have hji : j ≠ i := by
      rintro rfl
      have : Function.update x.life.owner j .parked j = .runnable := hj
      rw [Function.update_self] at this
      cases this
    show (s.threads w).currentCoro ≠ c'
    rw [hothers.current_eq hcurrent w]
    exact h.away c' j w hc ((Function.update_of_ne hji ..).symm.trans hj)
  · refine h.setting.registers hfree (h.items.items.done i (by rw [ho]; decide)) ?_
    rw [(SmartEPoller.register_unwatched d (h.items.items.made i ho).2).1]
    decide

/-- **A coroutine goes on**, and its call returns if it has been resumed. -/
theorem Linked.enters (h : Linked op x place) {c : CoroId W} (hs : Inv s place')
    (hparked : s.parked = x.runtime.parked) (hothers : OnlyWorker t x.runtime s)
    (hcurrent : (s.threads t).currentCoro = c)
    (hdefers : ∀ d c, Defers s t d c → Defers x.runtime t d c)
    (hkeep : ∀ i, x.call c = some i → x.life.owner i = .runnable → i ∉ x.life.inHand) :
    Linked op (onCall { x with runtime := s } c (back { x with runtime := s })) place' := by
  -- what holds whether or not a call returns
  have hdefer : ∀ w d c', Defers s w d c' → ∃ i, x.call c' = some i ∧ x.life.owner i = .made ∧
      (op i).direction = d := by
    intro w d c' hd
    by_cases hw : w = t
    · subst hw
      exact h.deferred w d c' (hdefers d c' hd)
    · exact h.deferred w d c' ((hothers.defers hw).1 hd)
  have hkept (hnone : ∀ i, x.call c = some i → x.life.owner i ≠ .runnable) :
      Linked op { x with runtime := s } place' := by
    refine ⟨hs, h.items, h.unmade, h.call, h.waits, fun c' => ?_, hdefer, fun c' j w hc hj => ?_, h.setting⟩
    · rw [← h.parked c', ← hparked]
    · by_cases hw : w = t
      · subst hw
        rw [hcurrent]
        rintro rfl
        exact hnone j hc hj
      · rw [hothers.current w hw]
        exact h.away c' j w hc hj
  unfold onCall back
  dsimp only
  cases hi : x.call c with
  | none => exact hkept fun i h' => by rw [hi] at h'; cases h'
  | some i =>
    dsimp only
    split
    · rename_i ho
      refine ⟨hs, Lifetime.ret_inv h.items ho (hkeep i hi ho), fun j hj => ?_, h.call, fun j hj => ?_,
        fun c' => ?_, fun w d c' hd => ?_, fun c' j w hc hj => ?_, h.setting⟩
      · have hji := h.ne_of_unmade hi hj
        exact (Function.update_of_ne hji ..).trans (h.unmade j hj)
      · dsimp only at hj
        have hji : j ≠ i := by
          rintro rfl
          rw [Function.update_self] at hj
          rcases hj with hj | hj <;> cases hj
        rw [Function.update_of_ne hji] at hj
        exact h.waits j hj
      · dsimp only
        rw [hparked, h.parked c']
        refine exists_congr fun j => and_congr_right fun _ => ?_
        by_cases hji : j = i
        · subst hji
          rw [ho, Function.update_self]
          simp
        · rw [Function.update_of_ne hji]
      · obtain ⟨j, hj, hmade, hdir⟩ := hdefer w d c' hd
        refine ⟨j, hj, (Function.update_of_ne ?_ ..).trans hmade, hdir⟩
        rintro rfl
        rw [ho] at hmade
        cases hmade
      · dsimp only at hc hj ⊢
        have hji : j ≠ i := by
          rintro rfl
          rw [Function.update_self] at hj
          cases hj
        rw [Function.update_of_ne hji] at hj
        by_cases hw : w = t
        · subst hw
          rw [hcurrent]
          rintro rfl
          exact hji (Option.some.inj (hc.symm.trans hi))
        · rw [hothers.current w hw]
          exact h.away c' j w hc hj
    · rename_i ho
      exact hkept fun j hj => by
        obtain rfl := Option.some.inj (hi.symm.trans hj)
        exact ho

/-- A step of the epoller thread that resumes nothing. -/
theorem Linked.polls (h : Linked op x place) {life : Lifetime Nat σ} (hlife : Lifetime.LifeInv op life)
    (howner : life.owner = x.life.owner) (hreg : life.registering = x.life.registering) :
    Linked op { x with life := life } place where
  sched := h.sched
  items := hlife
  unmade := by
    dsimp only
    rw [howner]
    exact h.unmade
  call := h.call
  waits := by
    dsimp only
    rw [howner]
    exact h.waits
  parked := by
    dsimp only
    rw [howner]
    exact h.parked
  deferred := by
    dsimp only
    rw [howner]
    exact h.deferred
  away := by
    dsimp only
    rw [howner]
    exact h.away
  setting := by
    dsimp only
    rw [hreg]
    exact h.setting

/-- **A worker sets the flag.** -/
theorem Linked.sets (h : Linked op x place) {i : Nat} (ht : x.setting t = some i) :
    Linked op { x with life := x.life.watch i, setting := Function.update x.setting t none } place ∧
      Lifetime.step op x.life (.watch i) = some (x.life.watch i) := by
  have hne : x.life.registering i ≠ .returned := (h.setting.worker i).2 ⟨t, ht⟩
  have hset := (h.items.items.registering_cases hne).2
  refine ⟨⟨h.sched, Lifetime.watch_inv h.items hne, h.unmade, h.call, h.waits, h.parked, h.deferred,
    h.away, ?_⟩, by rw [Lifetime.step, if_neg hne]⟩
  show Setting _ (Function.update x.life.registering i
    (x.life.epoller.watchStep i (x.life.registering i)).2)
  rw [hset]
  exact h.setting.sets ht

/-- **The handler resumes a parked coroutine**, which is what the scheduler calls the completion of
its call. -/
theorem Linked.resumes (h : Linked op x place) {i : Nat} (ho : x.life.owner i = .parked)
    {life : Lifetime Nat σ} (hlife : Lifetime.LifeInv op life)
    (howner : life.owner = Function.update x.life.owner i .runnable)
    (hreg : life.registering = x.life.registering) :
    ∃ c, SmartRoutine.step f x.runtime (.ioComplete c) =
        some (resume { x with life := life } i).runtime ∧
      ∃ place', Linked op (resume { x with life := life } i) place' := by
  obtain ⟨c, hc⟩ := h.waits i (.inl ho)
  have hcoro := (h.call c i hc).2
  have hmem : c ∈ x.runtime.parked := (h.parked c).2 ⟨i, hc, ho⟩
  obtain ⟨place', hs⟩ := ioComplete_inv h.sched hmem
  have hresume : resume { x with life := life } i = { x with
      life := life, runtime := { x.runtime with parked := x.runtime.parked.erase c }.pushGlobal c } := by
    rw [resume, show ({ x with life := life } : IoRuntime W σ).coro i = some c from hcoro]
  obtain ⟨n, rfl, hplace⟩ := h.sched.pool.parked.place c hmem
  rw [hresume]
  refine ⟨.user n, by rw [SmartRoutine.step, if_pos hmem], place', hs, hlife, fun j hj => ?_, h.call,
    fun j hj => ?_, fun c' => ?_, fun w d c' hd => ?_, fun c' j w hj hr => ?_, by
      dsimp only
      rw [hreg]
      exact h.setting⟩
  · dsimp only at hj ⊢
    have hji := h.ne_of_unmade hc hj
    rw [howner, Function.update_of_ne hji]
    exact h.unmade j hj
  · dsimp only at hj ⊢
    by_cases hji : j = i
    · exact ⟨_, hji ▸ hc⟩
    · rw [howner, Function.update_of_ne hji] at hj
      exact h.waits j hj
  · dsimp only
    rw [howner]
    show c' ∈ x.runtime.parked.erase (.user n) ↔ _
    rw [h.sched.pool.parked.nodup.mem_erase_iff, h.parked c']
    constructor
    · rintro ⟨hne, j, hj, hp⟩
      have hji : j ≠ i := by
        rintro rfl
        exact hne (h.call_inj hc hj)
      exact ⟨j, hj, (Function.update_of_ne hji ..).trans hp⟩
    · rintro ⟨j, hj, hp⟩
      have hji : j ≠ i := by
        rintro rfl
        rw [Function.update_self] at hp
        cases hp
      rw [Function.update_of_ne hji] at hp
      refine ⟨?_, j, hj, hp⟩
      rintro rfl
      exact hji (Option.some.inj (hj.symm.trans hc))
  · obtain ⟨j, hj, hmade, hdir⟩ := h.deferred w d c' hd
    refine ⟨j, hj, ?_, hdir⟩
    dsimp only
    rw [howner, Function.update_of_ne, hmade]
    rintro rfl
    rw [ho] at hmade
    cases hmade
  · dsimp only at hj hr ⊢
    by_cases hji : j = i
    · subst hji
      obtain rfl := h.call_inj hc hj
      intro hcur
      have := onThread_of_current (h.sched.workers w) hcur
      rw [hplace] at this
      cases this
    · rw [howner, Function.update_of_ne hji] at hr
      exact h.away c' j w hj hr

/-- A deferred action is stored that registers nothing. -/
theorem Linked.stores (h : Linked op x place) {cb : DelayCallback W} (hs : Inv s place')
    (hparked : s.parked = x.runtime.parked) (hothers : OnlyWorker t x.runtime s)
    (hcurrent : (s.threads t).currentCoro = (x.runtime.threads t).currentCoro)
    (hslot : (s.threads t).delayCallback = some cb) (hcb : cb.enables = none) :
    Linked op { x with runtime := s } place' := by
  refine h.quiet hs hparked (hothers.current_eq hcurrent) fun w d c hd => ?_
  by_cases hw : w = t
  · subst hw
    obtain rfl := Option.some.inj (hslot.symm.trans hd.2)
    rw [enables_eq_some.2 rfl] at hcb
    cases hcb
  · exact (hothers.defers hw).1 hd

/-- A worker runs its deferred action. -/
theorem Linked.flushes (h : Linked op x place) (hs : Inv s place') (hf : Flushed t x.runtime s)
    (hfree : x.setting t = none) (hpc : (x.runtime.pc t).defers = true)
    (hen : enabled x.runtime t = (x.runtime.threads t).delayCallback.bind DelayCallback.enables) :
    Linked op (match enabled x.runtime t with
        | some (d, c) => onCall { x with runtime := s } c (enable { x with runtime := s } t d)
        | none => { x with runtime := s }) place' ∧
      Lifetime.Moves op x.life ((enabled x.runtime t).bind fun p => x.call p.2)
        (match enabled x.runtime t with
          | some (d, c) => onCall { x with runtime := s } c (enable { x with runtime := s } t d)
          | none => { x with runtime := s }).life := by
  have hparked := hf.parked
  rw [← hen] at hparked
  cases hcase : enabled x.runtime t with
  | none =>
    rw [hcase, Option.map_none, Option.toList_none, List.append_nil] at hparked
    refine ⟨h.quiet hs hparked (hf.others.current_eq hf.current) fun w d c hd => ?_, .stay⟩
    by_cases hw : w = t
    · subst hw
      exact absurd (hf.done.symm.trans hd.1) Bool.false_ne_true
    · exact (hf.others.defers hw).1 hd
  | some p =>
    obtain ⟨d, c⟩ := p
    have hslot : (x.runtime.threads t).delayCallback = some (d.deferred c) := by
      rw [hen] at hcase
      obtain ⟨cb, hcb, henables⟩ := Option.bind_eq_some_iff.1 hcase
      rw [hcb, enables_eq_some.1 henables]
    rw [hcase, Option.map_some, Option.toList_some] at hparked
    obtain ⟨i, hi, ho, hdir, hlinked⟩ :=
      h.registers hs hfree ⟨hpc, hslot⟩ hparked hf.others hf.current hf.done
    have hstep : Lifetime.step op x.life (.enable i) = some (enable { x with runtime := s } t d i).life := by
      rw [Lifetime.step, if_pos ho, hdir]
      rfl
    dsimp only
    rw [onCall, show ({ x with runtime := s } : IoRuntime W σ).call c = some i from hi, Option.bind_some,
      hi]
    exact ⟨hlinked, .move rfl hstep⟩

/-- A worker switches to a coroutine. -/
theorem Linked.switches (h : Linked op x place) {c : CoroId W} (hs : Inv s place')
    (hsw : Switched t x.runtime s c) (hdefers : ∀ d c, Defers s t d c → Defers x.runtime t d c)
    (hkeep : (x.call c).all fun i => x.life.owner i = .runnable → i ∉ x.life.inHand) :
    Linked op (onCall { x with runtime := s } c (back { x with runtime := s })) place' ∧
      Lifetime.Moves op x.life none (onCall { x with runtime := s } c (back { x with runtime := s })).life := by
  have hkeep' : ∀ i, x.call c = some i → x.life.owner i = .runnable → i ∉ x.life.inHand := by
    intro i hi
    rw [hi] at hkeep
    exact of_decide_eq_true hkeep
  refine ⟨h.enters hs hsw.parked hsw.others hsw.current hdefers hkeep', ?_⟩
  unfold onCall back
  dsimp only
  cases hi : x.call c with
  | none => exact .stay
  | some i =>
    dsimp only
    split
    · rename_i ho
      refine .move (l := .ret i) (decide_eq_true (hkeep' i hi ho)) ?_
      rw [Lifetime.step, if_pos ho]
    · exact .stay

/-- The queue operations park nobody. -/
theorem getTask_queueStep (h : Inv x.runtime place) {o : Option (CoroId W)}
    (hg : x.runtime.getTask f t t = (o, s)) :
    QueueStep t t x.runtime s ∧ s.parked = x.runtime.parked := by
  have hparked := getTask_parked (f := f) x.runtime t t
  have hstep := getTask_pool (f := f) h.pool t t
  rw [hg] at hparked hstep
  refine ⟨?_, hparked⟩
  cases hstep with
  | none hq => exact hq
  | some _ _ hq => exact hq

omit [DecidableEq W] in
theorem onCall_runtime (y : IoRuntime W σ) (c : CoroId W) {k : Nat → IoRuntime W σ}
    (hk : ∀ i, (k i).runtime = y.runtime) : (y.onCall c k).runtime = y.runtime := by
  unfold onCall
  split
  · exact hk _
  · rfl

omit [DecidableEq W] in
theorem back_runtime (y : IoRuntime W σ) (i : Nat) : (y.back i).runtime = y.runtime := by
  unfold back
  split <;> rfl

/-- What a step does to the calls leaves the scheduler alone. -/
theorem step_worker_runtime {a : Action} (hread : ¬ (a = .read ∨ a = .write ∨ (x.setting t).isSome = true))
    (hstep : workerStep f x.runtime t a = some s) (hx' : step f op x (.worker t a) = some x') :
    x'.runtime = s := by
  rw [step, if_neg hread, hstep, Option.map_some] at hx'
  obtain rfl := Option.some.inj hx'
  have henable : ∀ e : Option (Direction × CoroId W), (match e with
      | some (d, c) => onCall { x with runtime := s } c (enable { x with runtime := s } t d)
      | none => { x with runtime := s }).runtime = s := by
    rintro (_ | ⟨d, c⟩)
    · rfl
    · exact onCall_runtime _ _ fun _ => rfl
  dsimp only
  cases entered f x.runtime s t with
  | none => exact henable _
  | some c => exact (onCall_runtime _ _ fun i => back_runtime _ i).trans (henable _)

/-- **One step of a worker** that makes no call. -/
theorem Linked.worker_linked (h : Linked op x place) {a : Action}
    (hread : ¬ (a = .read ∨ a = .write ∨ (x.setting t).isSome = true))
    (hhome : finishesHome x (.worker t a : IoRuntimeLabel W τ) = true)
    (hkeep : keepsItems f op x (.worker t a) = true)
    (hstep : workerStep f x.runtime t a = some s) (hx' : step f op x (.worker t a) = some x') :
    ∃ place', Linked op x' place' ∧
      Lifetime.Moves op x.life (registered x (.worker t a : IoRuntimeLabel W τ)) x'.life := by
  obtain ⟨place', hs⟩ := SmartRoutine.step_inv (f := f) (l := .worker t a) h.sched hhome hstep
  rw [step, if_neg hread, hstep, Option.map_some] at hx'
  obtain rfl := Option.some.inj hx'
  rw [keepsItems, hstep] at hkeep
  have hfree : x.setting t = none := by
    rw [← Option.not_isSome_iff_eq_none]
    exact fun hset => hread (.inr (.inr hset))
  dsimp only at hkeep ⊢
  refine ⟨place', ?_⟩
  rw [registered]
  cases workerStep_turn hstep with
  | coroRunner hpc =>
    have hen : enabled x.runtime t =
        (x.runtime.threads t).delayCallback.bind DelayCallback.enables := by rw [enabled, hpc]
    rw [show entered f x.runtime (x.runtime.coroRunner t) t = none by rw [entered, hpc]]
    exact h.flushes hs (coroRunner_flushed x.runtime t) hfree (by rw [hpc]; rfl) hen
  | @after self hpc =>
    obtain ⟨rfl, -, -⟩ := (h.sched.workers t).at hpc
    have hen : enabled x.runtime self =
        (x.runtime.threads self).delayCallback.bind DelayCallback.enables := by rw [enabled, hpc]
    rw [show entered f x.runtime (x.runtime.afterSwitch self self) self = none by rw [entered, hpc]]
    exact h.flushes hs (afterSwitch_flushed x.runtime self) hfree (by rw [hpc]; rfl) hen
  | start hpc =>
    rw [show enabled x.runtime t = none by rw [enabled, hpc],
      show entered f x.runtime (x.runtime.smartRoutineStart t) t = none by rw [entered, hpc]]
    refine ⟨?_, .stay⟩
    obtain ⟨hparked, hcur, hdefers⟩ := smartRoutineStart_frame x.runtime t
    exact h.quiet hs hparked hcur hdefers
  | @yield r hpc =>
    rw [show enabled x.runtime t = none by rw [enabled, hpc],
      show entered f x.runtime (x.runtime.yieldWith t r .addBackToQueue) t = none by
        rw [entered, hpc]]
    obtain ⟨hothers, hcur, hslot⟩ := yieldWith_onlyWorker x.runtime t r .addBackToQueue
    exact ⟨h.stores hs rfl hothers hcur hslot rfl, .stay⟩
  | call d hpc => exact absurd (by cases d <;> simp [Direction.action]) hread
  | @finish r hpc =>
    rw [show enabled x.runtime t = none by rw [enabled, hpc],
      show entered f x.runtime (x.runtime.finishCoro t r) t = none by rw [entered, hpc]]
    have hr : r.tlsSt = t := by simpa [finishesHome, SmartRoutine.finishesHome, hpc] using hhome
    obtain ⟨hothers, hcur, hslot⟩ := finishCoro_onlyWorker x.runtime t hr
    exact ⟨h.stores hs rfl hothers hcur hslot rfl, .stay⟩
  | @switch r self hpc =>
    obtain ⟨rfl, -⟩ := (h.sched.workers t).at hpc
    have hsw : ∃ c, Switched self x.runtime (x.runtime.yieldSwitch f self r self) c := by
      rw [SmartRuntime.yieldSwitch]
      cases hg : x.runtime.getTask f self self with
      | mk o s₁ =>
        obtain ⟨hq, hparked⟩ := getTask_queueStep h.sched hg
        cases o with
        | none => exact ⟨_, switchTo_switched self hq hparked _ _⟩
        | some c => exact ⟨_, switchTo_switched self hq hparked _ _⟩
    obtain ⟨c, hsw⟩ := hsw
    have hent : entered f x.runtime (x.runtime.yieldSwitch f self r self) self = some c := by
      rw [entered, hpc, hsw.current]
    rw [hent] at hkeep ⊢
    rw [show enabled x.runtime self = none by rw [enabled, hpc]]
    refine h.switches hs hsw (fun d c hd => ⟨by rw [hpc]; rfl, hsw.slot ▸ hd.2⟩) hkeep
  | @loop self hpc =>
    obtain ⟨rfl, hcase⟩ := (h.sched.workers t).at hpc
    rw [show enabled x.runtime self = none by rw [enabled, hpc]]
    rw [entered, hpc] at hkeep ⊢
    rw [SmartRuntime.mainLoop] at hs hkeep ⊢
    dsimp only at hkeep ⊢
    cases hg : x.runtime.getTask f self self with
    | mk o s₁ =>
      obtain ⟨hq, hparked⟩ := getTask_queueStep h.sched hg
      rw [hg] at hs hkeep
      cases o with
      | none =>
        refine ⟨h.quiet hs hparked hq.current fun w d c hd => ?_, .stay⟩
        rw [Defers, hq.pc, hq.slot] at hd
        exact hd
      | some c =>
        have hsw := switchTo_switched self hq hparked c (.inLoop self)
        dsimp only at hs hkeep ⊢
        rw [if_pos Option.isSome_some] at hkeep ⊢
        rw [hsw.current] at hkeep ⊢
        refine h.switches hs hsw (fun d c' hd => ?_) hkeep
        -- in `main_loop` the deferred action has been run, or is `destroy_coro`
        have hslot := hsw.slot.symm.trans hd.2
        rcases hcase with ⟨-, hnone⟩ | ⟨n, -, -, hdestroy⟩
        · rw [hnone] at hslot
          cases hslot
        · rw [hdestroy] at hslot
          cases d <;> cases hslot

/-- **One step of the epoller thread.** -/
theorem Linked.epoller_linked (h : Linked op x place) {l : LifeLabel Nat τ}
    (hkeep : x.life.keepsItems op l = true) (hx' : step f op x (.epoller l) = some x') :
    (∃ place', Linked op x' place') ∧
      Schedules f x.runtime x'.runtime ∧
      Lifetime.step op x.life l = some x'.life := by
  have quiet {life : Lifetime Nat σ} (hlife : Lifetime.step op x.life l = some life)
      (howner : life.owner = x.life.owner) (hreg : life.registering = x.life.registering)
      (hx' : x' = { x with life := life }) :
      (∃ place', Linked op x' place') ∧
        Schedules f x.runtime x'.runtime ∧
        Lifetime.step op x.life l = some x'.life := by
    subst hx'
    exact ⟨⟨place, h.polls (Lifetime.step_inv h.items hkeep hlife) howner hreg⟩, ⟨[], rfl, trivial⟩, hlife⟩
  cases l with
  | enable i => cases hx'
  | watch i => cases hx'
  | ret i => cases hx'
  | batch reported =>
    obtain ⟨life, hlife, rfl⟩ := Option.map_eq_some_iff.1 hx'
    cases Lifetime.step_turn hlife with
    | batch => exact quiet hlife rfl rfl rfl
  | idle =>
    obtain ⟨life, hlife, rfl⟩ := Option.map_eq_some_iff.1 hx'
    cases Lifetime.step_turn hlife with
    | idle => exact quiet hlife rfl rfl rfl
  | fail =>
    obtain ⟨life, hlife, rfl⟩ := Option.map_eq_some_iff.1 hx'
    cases Lifetime.step_turn hlife with
    | fail => exact quiet hlife rfl rfl rfl
  | loop r =>
    obtain ⟨life, hlife, hx⟩ := Option.map_eq_some_iff.1 hx'
    have howner := Lifetime.loopStep_owner hlife
    have hreg := Lifetime.loopStep_registering hlife
    cases hr : x.life.resumes op r with
    | none =>
      rw [hr] at hx howner
      exact quiet hlife howner hreg hx.symm
    | some i =>
      rw [hr] at hx howner
      subst hx
      have ho := h.items.resumes_parked hr
      dsimp only at howner
      rw [ho, if_neg (by decide)] at howner
      obtain ⟨c, hstep, hlinked⟩ :=
        h.resumes (f := f) ho (Lifetime.step_inv (l := .loop r) h.items hkeep hlife) howner hreg
      refine ⟨hlinked, .of_step hstep rfl, ?_⟩
      dsimp only
      rw [show (resume { x with life := life } i).life = life by unfold resume; split <;> rfl]
      exact hlife

/-- The coroutine that a worker runs makes its call. -/
theorem Linked.call_linked (h : Linked op x place) (hfree : ¬ (x.setting t).isSome = true)
    (hstep : workerStep f x.runtime t (op x.calls).direction.action = some s)
    (hx' : step f op x (.call t) = some x') :
    ∃ place', Linked op x' place' := by
  obtain ⟨place', hs⟩ := SmartRoutine.step_inv (f := f)
    (l := .worker t (op x.calls).direction.action) h.sched
    (by cases (op x.calls).direction <;> simp [SmartRoutine.finishesHome, Direction.action]) hstep
  rw [step, if_neg hfree, hstep, Option.map_some] at hx'
  obtain rfl := Option.some.inj hx'
  have hcall : ∃ r, x.runtime.pc t = .runFn r ∧
      s = x.runtime.yieldWith t r (op x.calls).direction.deferred := by
    unfold workerStep at hstep
    cases hd : (op x.calls).direction <;> cases hpc : x.runtime.pc t <;>
      simp [hd, hpc, Direction.action] at hstep
    all_goals exact ⟨_, rfl, hstep.symm⟩
  obtain ⟨r, hpc, rfl⟩ := hcall
  obtain ⟨n, ⟨hcur, -, -⟩, -, -⟩ := (h.sched.workers t).at hpc
  obtain ⟨hothers, hcurrent, hslot⟩ :=
    yieldWith_onlyWorker x.runtime t r (op x.calls).direction.deferred
  rw [hcur] at hslot ⊢
  exact ⟨place', h.makes hs hcur rfl hothers hcurrent hslot⟩

/-- **Every step of the machine** keeps the invariant, and is a run of the scheduler and a run of the
event loop. -/
theorem step_linked (h : ∃ place, Linked op x place) {l : IoRuntimeLabel W τ}
    (hhome : finishesHome x l = true) (hkeep : keepsItems f op x l = true) (hx' : step f op x l = some x') :
    (∃ place, Linked op x' place) ∧
      Schedules f x.runtime x'.runtime ∧
      Lifetime.Moves op x.life (registered x l) x'.life := by
  obtain ⟨place, h⟩ := h
  cases l with
  | externalStart =>
    obtain rfl := Option.some.inj hx'
    refine ⟨?_, .of_step (l := .externalStart) rfl rfl, .stay⟩
    obtain ⟨place', hs⟩ := externalStart_inv h.sched
    exact ⟨place', h.quiet hs rfl (fun _ => rfl) fun _ _ _ hd => hd⟩
  | worker t a =>
    by_cases hread : a = .read ∨ a = .write ∨ (x.setting t).isSome = true
    · rw [step, if_pos hread] at hx'
      cases hx'
    · cases hstep : workerStep f x.runtime t a with
      | none =>
        rw [step, if_neg hread, hstep] at hx'
        cases hx'
      | some s =>
        obtain ⟨place', hlinked, hlife⟩ := h.worker_linked hread hhome hkeep hstep hx'
        refine ⟨⟨place', hlinked⟩, ?_, hlife⟩
        rw [step_worker_runtime hread hstep hx']
        exact .of_step (l := .worker t a) hstep hhome
  | setWatching t =>
    rw [step] at hx'
    obtain ⟨i, hset, rfl⟩ := Option.map_eq_some_iff.1 hx'
    obtain ⟨hlinked, hstep⟩ := h.sets hset
    exact ⟨⟨place, hlinked⟩, ⟨[], rfl, trivial⟩, .move (l := .watch i) rfl hstep⟩
  | call t =>
    by_cases hfree : (x.setting t).isSome = true
    · rw [step, if_pos hfree] at hx'
      cases hx'
    cases hstep : workerStep f x.runtime t (op x.calls).direction.action with
    | none =>
      rw [step, if_neg hfree, hstep] at hx'
      cases hx'
    | some s =>
      refine ⟨h.call_linked hfree hstep hx', ?_⟩
      rw [step, if_neg hfree, hstep, Option.map_some] at hx'
      obtain rfl := Option.some.inj hx'
      refine ⟨.of_step (l := .worker t (op x.calls).direction.action) hstep ?_, .stay⟩
      cases (op x.calls).direction <;> simp [SmartRoutine.finishesHome, Direction.action]
  | epoller l =>
    obtain ⟨hlinked, hsched, hlife⟩ := h.epoller_linked hkeep hx'
    exact ⟨hlinked, hsched, .move hkeep hlife⟩

end IoRuntime

end SmartRoutine
