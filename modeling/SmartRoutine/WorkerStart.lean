import SmartRoutine.Lib.Monitor
import SmartRoutine.RunOrder

/-!
# The start of the workers

A worker calls `wait_on_task_list` once, before its first turn of `main_loop`: it waits on
`task_list_cond_` until the global list is not empty, and `SmartRuntime::push_task` calls
`notify_one` under the same lock.

* `step_list` — a step takes a batch from the front of the global list and pushes behind it.
* `run_starts` — the scheduler runs as if its workers had been in `main_loop` from the beginning,
  and no wake-up is lost: while a worker sleeps, the global list holds at most as many coroutines as
  there are workers awake, and while it holds any, one of these can take a step.
-/

set_option autoImplicit false

namespace SmartRoutine

open BoundedQueue

section

variable {W : Type} [DecidableEq W]

/-- What `push_task` of worker `t` hands on to `SmartRuntime::push_task`. -/
def spills (s : SmartRuntime W) (t : W) (c : CoroId W) : List (CoroId W) :=
  if (s.threads t).taskQueue.full then [c] else []

/-- What the deferred action of `self`, run by `t`, hands on. -/
def flushes (s : SmartRuntime W) (t self : W) : List (CoroId W) :=
  match (s.threads self).delayCallback with
  | some (.addBackToQueue c) => spills s t c
  | _ => []

/-- The coroutines that a step calls `SmartRuntime::push_task` with. -/
def pushes (s : SmartRuntime W) : Label W → List (CoroId W)
  | .externalStart => [.user s.nextCoro]
  | .ioComplete c => [c]
  | .worker t .start =>
    match s.pc t with
    | .runFn _ => spills s t (.user s.nextCoro)
    | _ => []
  | .worker t .advance =>
    match s.pc t with
    | .coroRunner => flushes s t t
    | .afterSwitch self => flushes s t self
    | _ => []
  | .worker _ _ => []

/-- The workers behind `wait_on_task_list`. -/
def waitOnTaskList (f : Flags) : Monitor.System W (SmartRuntime W) (Label W) where
  step := step f
  work s := s.taskList.length
  notifies s l := !(pushes s l).isEmpty
  actor
    | .worker t _ => some t
    | _ => none

/-! ## The global list -/

variable {f : Flags} {s s' : SmartRuntime W} {t self : W}

omit [DecidableEq W] in
theorem spills_length (c : CoroId W) : (spills s t c).length ≤ 1 := by
  unfold spills
  split <;> simp

omit [DecidableEq W] in
theorem flushes_length : (flushes s t self).length ≤ 1 := by
  unfold flushes
  split
  · exact spills_length _
  · simp

omit [DecidableEq W] in
theorem pushes_length (l : Label W) : (pushes s l).length ≤ 1 := by
  unfold pushes
  split
  · simp
  · simp
  · split
    · exact spills_length _
    · simp
  · split
    · exact flushes_length
    · exact flushes_length
    · simp
  · simp

theorem pushTask_list (s : SmartRuntime W) (t : W) (c : CoroId W) :
    (s.pushTask t t c).taskList = s.taskList ++ spills s t c := by
  have hsame : ((s.emit (.access t t .taskQueue)).threads t).taskQueue = (s.threads t).taskQueue := rfl
  unfold SmartRuntime.pushTask spills BoundedQueue.push
  dsimp only
  rw [hsame]
  cases (s.threads t).taskQueue.full <;>
    simp [SmartRuntime.emit, SmartRuntime.setQueue, SmartRuntime.pushGlobal]

theorem flushCallback_list (s : SmartRuntime W) (t self : W) :
    (s.flushCallback t self).taskList = s.taskList ++ flushes s t self := by
  unfold SmartRuntime.flushCallback flushes
  cases (s.threads self).delayCallback with
  | none => simp [SmartRuntime.emit]
  | some cb =>
    cases cb with
    | addBackToQueue c => exact pushTask_list (s.emit (.exec t self (.addBackToQueue c))) t c
    | enableEpollReading c | enableEpollWriting c | destroyCoro c =>
      simp [SmartRuntime.runCallback, SmartRuntime.setSlot, SmartRuntime.emit, SmartRuntime.setCoro]

theorem yieldSwitch_list (s : SmartRuntime W) (t : W) (r : Runner W) (self : W) :
    (s.yieldSwitch f t r self).taskList = (s.getTask f t t).2.taskList := by
  unfold SmartRuntime.yieldSwitch
  split <;> simp [*, SmartRuntime.switchTo, SmartRuntime.setPc, SmartRuntime.setCurrent,
    SmartRuntime.setCoro, SmartRuntime.emit]

theorem mainLoop_list (s : SmartRuntime W) (t self : W) :
    (s.mainLoop f t self).taskList = (s.getTask f t self).2.taskList := by
  unfold SmartRuntime.mainLoop
  split <;> simp [*, SmartRuntime.switchTo, SmartRuntime.setPc, SmartRuntime.setCurrent,
    SmartRuntime.setCoro, SmartRuntime.emit]

/-- **One step** takes from the front of the global list and pushes behind it. -/
theorem step_list {l : Label W} (hstep : step f s l = some s') :
    refills f s l ++ s'.taskList = s.taskList ++ pushes s l := by
  cases l with
  | externalStart =>
    obtain rfl := Option.some.inj hstep
    rfl
  | ioComplete c =>
    rw [step] at hstep
    split at hstep
    · obtain rfl := Option.some.inj hstep
      rfl
    · cases hstep
  | worker t a =>
    cases workerStep_turn hstep with
    | coroRunner hpc =>
      simp only [refills, getsTask, pushes, hpc, List.nil_append]
      exact flushCallback_list s t t
    | start hpc =>
      simp only [refills, getsTask, pushes, hpc, List.nil_append]
      exact pushTask_list { s with nextCoro := s.nextCoro + 1 } t (.user s.nextCoro)
    | yield hpc => exact (List.append_nil _).symm
    | call d hpc => cases d <;> exact (List.append_nil _).symm
    | finish hpc => exact (List.append_nil _).symm
    | @switch r self hpc =>
      simp only [refills, getsTask, pushes, hpc, List.append_nil, yieldSwitch_list]
      exact getTask_list s t t
    | @loop self hpc =>
      simp only [refills, getsTask, pushes, hpc, List.append_nil, mainLoop_list]
      exact getTask_list s t self
    | @after self hpc =>
      simp only [refills, getsTask, pushes, hpc, List.nil_append]
      exact flushCallback_list s t self

/-- **`notify_one` is called for each coroutine that the global list gets.** -/
theorem waitOnTaskList_work (s : SmartRuntime W) (l : Label W) (s' : SmartRuntime W)
    (hstep : (waitOnTaskList f).step s l = some s') : (waitOnTaskList f).work s' ≤
      (waitOnTaskList f).work s + if (waitOnTaskList f).notifies s l then 1 else 0 := by
  have hlen := congrArg List.length (step_list hstep)
  rw [List.length_append, List.length_append] at hlen
  have hone := pushes_length (s := s) l
  show s'.taskList.length ≤ s.taskList.length + if (!(pushes s l).isEmpty) = true then 1 else 0
  cases hp : pushes s l with
  | nil =>
    rw [hp, List.length_nil] at hlen
    rw [if_neg (by simp)]
    omega
  | cons c cs =>
    rw [hp] at hlen hone
    rw [if_pos (by simp)]
    omega

/-! ## The workers -/

/-- Every worker can take a step. -/
theorem workerStep_enabled {ρ : Nat → Place W} (h : Inv s ρ) (f : Flags) (w : W) :
    ∃ a s', step f s (.worker w a) = some s' := by
  simp only [step, workerStep]
  cases hpc : s.pc w with
  | coroRunner => exact ⟨.advance, _, rfl⟩
  | runFn r => exact ⟨.yield, _, rfl⟩
  | yielding r self => exact ⟨.advance, _, rfl⟩
  | mainLoop self => exact ⟨.advance, _, rfl⟩
  | afterSwitch self => exact ⟨.advance, _, rfl⟩
  | wild => exact ((h.workers w).at hpc : StateOk s ρ w .wild).elim

theorem flushCallback_pc (s : SmartRuntime W) (t self : W) : (s.flushCallback t self).pc = s.pc := by
  unfold SmartRuntime.flushCallback
  cases (s.threads self).delayCallback with
  | none => rfl
  | some cb => exact (runCallback_onlyWorker (s.emit (.exec t self cb)) t cb).2.1

theorem getTask_pc (s : SmartRuntime W) (t self : W) : (s.getTask f t self).2.pc = s.pc := by
  unfold SmartRuntime.getTask
  dsimp only
  split
  · split <;> rfl
  · rfl

/-- A step of a worker leaves the others where they are. -/
theorem workerStep_pc {a : Action} {w : W} (hstep : workerStep f s t a = some s') (hw : w ≠ t) :
    s'.pc w = s.pc w := by
  cases workerStep_turn hstep with
  | coroRunner => exact (Function.update_of_ne hw ..).trans (congrFun (flushCallback_pc s t t) w)
  | start => exact congrFun (pushTask_step { s with nextCoro := s.nextCoro + 1 } t t _).pc w
  | yield | call | finish => exact Function.update_of_ne hw ..
  | switch =>
    have hget := congrFun (getTask_pc (f := f) s t t) w
    unfold SmartRuntime.yieldSwitch
    split
    · rename_i hg
      rw [hg] at hget
      exact (Function.update_of_ne hw ..).trans hget
    · rename_i hg
      rw [hg] at hget
      exact (Function.update_of_ne hw ..).trans hget
  | @loop self =>
    have hget := congrFun (getTask_pc (f := f) s t self) w
    unfold SmartRuntime.mainLoop
    split
    · rename_i hg
      rw [hg] at hget
      exact (Function.update_of_ne hw ..).trans hget
    · rename_i hg
      rw [hg] at hget
      exact hget
  | after => exact (Function.update_of_ne hw ..).trans (congrFun (flushCallback_pc s t _) w)

theorem step_pc {l : Label W} {w : W} (hstep : step f s l = some s')
    (hw : (waitOnTaskList f).actor l ≠ some w) : s'.pc w = s.pc w := by
  cases l with
  | externalStart =>
    obtain rfl := Option.some.inj hstep
    rfl
  | ioComplete c =>
    rw [step] at hstep
    split at hstep
    · obtain rfl := Option.some.inj hstep
      rfl
    · cases hstep
  | worker t a => exact workerStep_pc hstep fun e => hw (congrArg some e.symm)

/-! ## Runs -/

/-- **No worker is forgotten.**  Whatever the order in which the threads get to the lock and are
woken, the scheduler runs as with all its workers in `main_loop` from the beginning; a worker that
has not come through stands at its first turn; while one sleeps, the global list has at most as
many coroutines as there are workers awake; and while it has any, one of these comes through or
takes a step, in a run in which coroutines finish where they were entered. -/
theorem run_starts [Fintype W] [Nonempty W] (hf : 0 < f.capacity)
    {ls : List (Monitor.Label W (Label W))} {x : Monitor.State W (SmartRuntime W)}
    (hrun : Transition.exec (Monitor.step (waitOnTaskList f)) (Monitor.start (.init f)) ls = some x) :
    run f (Monitor.acts ls) = some x.shared ∧
      (∀ w, x.phase w ≠ .through → x.shared.pc w = .mainLoop w) ∧
      (∀ w, x.phase w = .asleep → x.shared.taskList.length ≤ (Monitor.awake x.phase).card) ∧
      (Transition.Guarded (step f) (fun s l => finishesHome s l = true) (.init f) (Monitor.acts ls) →
        x.shared.taskList ≠ [] → ∃ w, x.phase w ≠ .asleep ∧
        ((∃ x', Monitor.step (waitOnTaskList f) x (.test w) = some x' ∧ x'.phase w = .through) ∨
          ∃ a woken x', Monitor.step (waitOnTaskList f) x (.act (.worker w a) woken) = some x')) := by
  have hsched : run f (Monitor.acts ls) = some x.shared := Monitor.exec_acts ls hrun
  have hawake := Monitor.exec_awake waitOnTaskList_work hrun
  have hfirst := Monitor.exec_untouched (Q := fun w (s : SmartRuntime W) => s.pc w = .mainLoop w)
    (fun _ _ _ _ hstep hw hpc => (step_pc hstep hw).trans hpc) (fun _ => rfl) hrun
  refine ⟨hsched, hfirst, hawake, fun hhome hlist => ?_⟩
  have hwork : (waitOnTaskList f).work x.shared ≠ 0 := fun h => hlist (List.length_eq_zero_iff.1 h)
  obtain ⟨w, hw⟩ := hawake.exists_awake hwork
  refine ⟨w, hw, ?_⟩
  cases hphase : x.phase w with
  | asleep => exact absurd hphase hw
  | testing => exact .inl (Monitor.exists_test hphase hwork)
  | through =>
    obtain ⟨⟨ρ, h⟩, -⟩ := run_capacity hf hsched hhome
    obtain ⟨a, s', hs'⟩ := workerStep_enabled h f w
    refine .inr ⟨a, Monitor.exists_act (M := waitOnTaskList f) ?_ hs'⟩
    exact decide_eq_true hphase

/-- Two workers go to sleep, and a coroutine wakes one of them. -/
theorem run_starts_two : ∃ x, Transition.exec (Monitor.step (waitOnTaskList ⟨25, 10⟩))
      (Monitor.start (.init ⟨25, 10⟩))
      [.test false, .test true, .act .externalStart (some false)] = some x ∧
    x.phase true = .asleep ∧ x.shared.taskList.length ≤ (Monitor.awake x.phase).card ∧
    ∃ w, x.phase w ≠ .asleep ∧
      ((∃ x', Monitor.step (waitOnTaskList ⟨25, 10⟩) x (.test w) = some x' ∧ x'.phase w = .through) ∨
        ∃ a woken x', Monitor.step (waitOnTaskList ⟨25, 10⟩) x (.act (.worker w a) woken) = some x') := by
  obtain ⟨x, hx, hcond⟩ := (Option.any_eq_true ..).1 (show
    (Transition.exec (Monitor.step (waitOnTaskList ⟨25, 10⟩)) (Monitor.start (.init ⟨25, 10⟩))
      [.test false, .test true, .act .externalStart (some false)]).any
        (fun x => x.phase true = .asleep ∧ x.shared.taskList ≠ []) = true by decide +kernel)
  obtain ⟨hasleep, hlist⟩ := of_decide_eq_true hcond
  obtain ⟨-, -, hawake, hgoes⟩ := run_starts (by decide) hx
  refine ⟨x, hx, hasleep, hawake true hasleep, hgoes ?_ hlist⟩
  refine Transition.guarded_of_mem _ _ fun l hl s => ?_
  obtain rfl := List.mem_singleton.1 hl
  rfl

end

end SmartRoutine
