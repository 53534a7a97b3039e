import SmartRoutine.Lib.Deferred
import SmartRoutine.SchedulerInv

/-!
# The deferred action of a worker

`delay_callback_` is a one-place slot: `yield` and the end of `coro_runner` store an action,
`coro_runner` and `main_loop` run it after a switch.  `yield` does not, although `switch_to` also
returns there.

* `slotOps` — the history of one worker's slot as operations of the `Deferred` protocol.
* `run_deferred_once` — as long as no thread switches to a coroutine suspended in `yield` while an
  action is pending (`switchesFresh`), every worker's slot follows the protocol.
* `yield_to_yielded_loses` — two coroutines that yield to each other are enough to break it: the
  second one is in no queue any more.
-/

set_option autoImplicit false

namespace SmartRoutine

open Deferred

section

variable {W : Type} [DecidableEq W]

/-! ## The history of a slot -/

/-- What an event means for the slot of `w`. -/
def Event.slotOp (w : W) : Event W → Option (SlotOp (DelayCallback W) (CoroId W))
  | .store _ self cb storer => if self = w then some (.store cb storer) else none
  | .switch _ self src _ _ => if self = w then some (.leave src) else none
  | .exec _ self cb => if self = w then some (.exec cb) else none
  | .access .. => none
  | .destroy .. => none

def slotOps (w : W) (trace : List (Event W)) : List (SlotOp (DelayCallback W) (CoroId W)) :=
  trace.filterMap (·.slotOp w)

/-- The phase the slot of `w` is in, read off its contents and the program point. -/
def slotPhase (s : SmartRuntime W) (w : W) : Phase (DelayCallback W) (CoroId W) :=
  match (s.threads w).delayCallback, s.pc w with
  | none, _ => .idle
  | some cb, .coroRunner => .due cb
  | some cb, .afterSwitch _ => .due cb
  | some cb, _ => .armed cb (s.threads w).currentCoro

/-- The slot of every worker has followed the protocol, and is empty while user code runs. -/
def SlotInv (s : SmartRuntime W) : Prop :=
  ∀ w, phase (slotOps w s.trace) = some (slotPhase s w) ∧
    ∀ r, s.pc w = .runFn r → (s.threads w).delayCallback = none

theorem slotOps_concat (w : W) (trace : List (Event W)) (e : Event W) :
    slotOps w (trace ++ [e]) = slotOps w trace ++ (e.slotOp w).toList := by
  rw [slotOps, List.filterMap_append]
  cases h : e.slotOp w <;> simp [slotOps, h]

omit [DecidableEq W] in
theorem slotPhase_idle {s : SmartRuntime W} {w : W} (h : (s.threads w).delayCallback = none) :
    slotPhase s w = .idle := by
  simp [slotPhase, h]

/-! ## What the parts of a step do to the slots -/

/-- `s'` differs from `s`, in what the slots' histories are about, by the operations `ops` of `t`
on its own slot only. -/
structure SlotStep (t : W) (s s' : SmartRuntime W)
    (ops : List (SlotOp (DelayCallback W) (CoroId W))) : Prop where
  own : slotOps t s'.trace = slotOps t s.trace ++ ops
  other : ∀ w, w ≠ t → slotOps w s'.trace = slotOps w s.trace ∧ s'.pc w = s.pc w ∧
    (s'.threads w).currentCoro = (s.threads w).currentCoro ∧
    (s'.threads w).delayCallback = (s.threads w).delayCallback

variable {f : Flags} {s s' s'' : SmartRuntime W} {ρ : Nat → Place W} {t : W}
  {ops ops' : List (SlotOp (DelayCallback W) (CoroId W))}

theorem SlotStep.trans (h : SlotStep t s s' ops) (h' : SlotStep t s' s'' ops') :
    SlotStep t s s'' (ops ++ ops') where
  own := by rw [h'.own, h.own, List.append_assoc]
  other := fun w hw => by
    obtain ⟨ho, hp, hc, hd⟩ := h.other w hw
    obtain ⟨ho', hp', hc', hd'⟩ := h'.other w hw
    exact ⟨ho'.trans ho, hp'.trans hp, hc'.trans hc, hd'.trans hd⟩

theorem SlotInv.step (h : SlotInv s) (hs : SlotStep t s s' ops)
    (hphase : Transition.exec next (slotPhase s t) ops = some (slotPhase s' t))
    (hrun : ∀ r, s'.pc t = .runFn r → (s'.threads t).delayCallback = none) : SlotInv s' := by
  intro w
  by_cases e : w = t
  · subst e
    refine ⟨?_, hrun⟩
    rw [phase, hs.own, Transition.exec_append, show Transition.exec next .idle (slotOps w s.trace) =
      some (slotPhase s w) from (h w).1]
    exact hphase
  · obtain ⟨ho, hp, hc, hd⟩ := hs.other w e
    simpa only [ho, hp, hd, slotPhase, hc] using h w

/-- Steps that leave the slots, the program points and the running coroutines alone. -/
theorem SlotInv.frame (h : SlotInv s) (ht : ∀ w, slotOps w s'.trace = slotOps w s.trace)
    (hp : s'.pc = s.pc) (hc : ∀ w, (s'.threads w).currentCoro = (s.threads w).currentCoro)
    (hd : ∀ w, (s'.threads w).delayCallback = (s.threads w).delayCallback) : SlotInv s' := by
  intro w
  simpa only [ht, hp, hc, hd, slotPhase] using h w

theorem QueueStep.slotOps (hq : QueueStep t t s s') (w : W) :
    slotOps w s'.trace = SmartRoutine.slotOps w s.trace := by
  rw [hq.trace, slotOps_concat]
  simp [Event.slotOp]

theorem QueueStep.slotStep (hq : QueueStep t t s s') : SlotStep t s s' [] where
  own := by rw [hq.slotOps, List.append_nil]
  other := fun w _ => ⟨hq.slotOps w, by rw [hq.pc], hq.current w, hq.slot w⟩

/-- The body of a deferred action does not touch any slot. -/
theorem runCallback_slot (s : SmartRuntime W) (t : W) (cb : DelayCallback W) :
    SlotStep t s (s.runCallback t cb) [] ∧ (s.runCallback t cb).pc = s.pc ∧
      ((s.runCallback t cb).threads t).currentCoro = (s.threads t).currentCoro := by
  have same : ∀ w, SmartRoutine.slotOps w s.trace ++ [] = SmartRoutine.slotOps w s.trace :=
    fun w => List.append_nil _
  cases cb with
  | addBackToQueue c =>
    have hq := pushTask_step s t t c
    exact ⟨hq.slotStep, hq.pc, hq.current t⟩
  | enableEpollReading c => exact ⟨⟨(same t).symm, fun _ _ => ⟨rfl, rfl, rfl, rfl⟩⟩, rfl, rfl⟩
  | enableEpollWriting c => exact ⟨⟨(same t).symm, fun _ _ => ⟨rfl, rfl, rfl, rfl⟩⟩, rfl, rfl⟩
  | destroyCoro c =>
    refine ⟨⟨?_, fun w _ => ⟨?_, rfl, rfl, rfl⟩⟩, rfl, rfl⟩
    · exact slotOps_concat t s.trace _
    · exact (slotOps_concat w s.trace _).trans (same w)

/-- **`if (delay_callback_) …` runs the pending action and empties the slot.** -/
theorem flushCallback_slot (s : SmartRuntime W) (t : W) :
    SlotStep t s (s.flushCallback t t) ((s.threads t).delayCallback.map .exec).toList ∧
      (s.flushCallback t t).pc = s.pc ∧
      ((s.flushCallback t t).threads t).delayCallback = none := by
  unfold SmartRuntime.flushCallback
  cases hslot : (s.threads t).delayCallback with
  | none =>
    refine ⟨⟨?_, fun w _ => ⟨?_, rfl, rfl, rfl⟩⟩, rfl, hslot⟩
    · exact slotOps_concat t s.trace _
    · exact (slotOps_concat w s.trace _).trans (List.append_nil _)
  | some cb =>
    have hexec : SlotStep t s (s.emit (.exec t t cb)) [.exec cb] := by
      refine ⟨(slotOps_concat t s.trace _).trans ?_, fun w hw => ⟨?_, rfl, rfl, rfl⟩⟩
      · simp [Event.slotOp]
      · refine (slotOps_concat w s.trace _).trans ?_
        simp [Event.slotOp, Ne.symm hw]
    obtain ⟨hrun, hpc, _⟩ := runCallback_slot (s.emit (.exec t t cb)) t cb
    have hstep := hexec.trans hrun
    refine ⟨⟨hstep.own, fun w hw => ?_⟩, hpc, setSlot_self _ _ _⟩
    obtain ⟨ho, hp, hc, hd⟩ := hstep.other w hw
    exact ⟨ho, hp, (setSlot_current _ _ _ _).trans hc, (setSlot_other _ _ _ hw).trans hd⟩

/-- Switching is the departure of the running coroutine and leaves the slot as it is. -/
theorem switchTo_slot (s : SmartRuntime W) (t : W) (c : CoroId W) (k : Fcontext W) :
    SlotStep t s (s.switchTo t t c k) [.leave (s.threads t).currentCoro] ∧
      ((s.switchTo t t c k).threads t).delayCallback = (s.threads t).delayCallback := by
  have htrace : (s.switchTo t t c k).trace =
      s.trace ++ [.switch t t (s.threads t).currentCoro c (s.coros c)] := rfl
  refine ⟨⟨?_, fun w hw => ⟨?_, ?_, ?_, ?_⟩⟩, setCurrent_slot _ _ _ _⟩
  · rw [htrace, slotOps_concat]; simp [Event.slotOp]
  · rw [htrace, slotOps_concat]; simp [Event.slotOp, Ne.symm hw]
  · exact Function.update_of_ne hw _ _
  · exact congrArg SmartThread.currentCoro (setCurrent_other _ _ _ hw)
  · exact congrArg SmartThread.delayCallback (setCurrent_other _ _ _ hw)

theorem switchTo_pc (s : SmartRuntime W) (t : W) {c : CoroId W} (k : Fcontext W)
    (hd : (s.coros c).destroyed = false) :
    (s.switchTo t t c k).pc t = SmartRuntime.entry (s.coros c).fcontext := by
  simp [SmartRuntime.switchTo, SmartRuntime.setPc, SmartRuntime.emit, hd]

/-- Storing an action on behalf of the running coroutine. -/
theorem storeCallback_slot (s : SmartRuntime W) (t : W) (cb : DelayCallback W) (c : CoroId W) (p : Pc W) :
    SlotStep t s ((s.storeCallback t t cb c).setPc t p) [.store cb c] := by
  have htrace : ((s.storeCallback t t cb c).setPc t p).trace = s.trace ++ [.store t t cb c] := rfl
  refine ⟨?_, fun w hw => ⟨?_, Function.update_of_ne hw _ _, setSlot_current _ _ _ _,
    setSlot_other _ _ _ hw⟩⟩
  · rw [htrace, slotOps_concat]; simp [Event.slotOp]
  · rw [htrace, slotOps_concat]; simp [Event.slotOp, Ne.symm hw]

/-! ## Steps -/

/-- A thread with a pending action does not switch to a coroutine suspended in `yield`: the
coroutine `get_task` hands out next has not run yet, or there is none. -/
def switchesFresh (f : Flags) (s : SmartRuntime W) : Label W → Bool
  | .worker t .advance =>
    match s.pc t with
    | .yielding _ _ | .mainLoop _ =>
      (s.threads t).delayCallback.isNone || (s.nextTask f t).all fun c => (s.coros c).fcontext = .fresh
    | _ => true
  | _ => true

/-- **Leaving with a pending action arms it for the context switched to**, which is a fresh
coroutine or a `main_loop`. -/
theorem switchTo_slotInv (h : SlotInv s) {s₁ : SmartRuntime W} (hs : SlotStep t s s₁ [])
    (hslot : (s₁.threads t).delayCallback = (s.threads t).delayCallback)
    (hcur : (s₁.threads t).currentCoro = (s.threads t).currentCoro)
    (hpc : (∃ r self, s.pc t = .yielding r self) ∨ ∃ self, s.pc t = .mainLoop self)
    {c : CoroId W} {k : Fcontext W} (hd : (s₁.coros c).destroyed = false)
    (hctx : (s.threads t).delayCallback = none ∨ (s₁.coros c).fcontext = .fresh ∨
      ∃ w, (s₁.coros c).fcontext = .inLoop w) : SlotInv (s₁.switchTo t t c k) := by
  obtain ⟨hsw, hslot'⟩ := switchTo_slot s₁ t c k
  have hpc' := switchTo_pc s₁ t k hd
  refine h.step (hs.trans hsw) ?_ fun r hr => ?_
  · cases hcb : (s.threads t).delayCallback with
    | none =>
      rw [slotPhase_idle hcb, slotPhase_idle (by rw [hslot', hslot, hcb])]
      rfl
    | some cb =>
      have harmed : slotPhase s t = .armed cb (s.threads t).currentCoro := by
        rcases hpc with ⟨r, self, hp⟩ | ⟨self, hp⟩ <;> simp [slotPhase, hcb, hp]
      have hdue : slotPhase (s₁.switchTo t t c k) t = .due cb := by
        rcases hctx with hnone | hfresh | ⟨w, hloop⟩
        · rw [hcb] at hnone; cases hnone
        · rw [hfresh] at hpc'
          simp [slotPhase, hslot', hslot, hcb, hpc', SmartRuntime.entry]
        · rw [hloop] at hpc'
          simp [slotPhase, hslot', hslot, hcb, hpc', SmartRuntime.entry]
      rw [harmed, hdue]
      simp [Transition.exec, next, hcur]
  · rcases hctx with hnone | hfresh | ⟨w, hloop⟩
    · rw [hslot', hslot, hnone]
    · rw [hpc', hfresh] at hr; cases hr
    · rw [hpc', hloop] at hr; cases hr

/-- Running the pending action on arrival. -/
theorem flush_slotInv (h : SlotInv s) (hpc : s.pc t = .coroRunner ∨ ∃ self, s.pc t = .afterSwitch self)
    {s' : SmartRuntime W} (hs : SlotStep t (s.flushCallback t t) s' [])
    (hslot : (s'.threads t).delayCallback = none) : SlotInv s' := by
  obtain ⟨hflush, _, _⟩ := flushCallback_slot s t
  refine h.step (hflush.trans hs) ?_ fun _ _ => hslot
  rw [slotPhase_idle hslot, List.append_nil]
  cases hcb : (s.threads t).delayCallback with
  | none => rw [slotPhase_idle hcb]; rfl
  | some cb =>
    have hdue : slotPhase s t = .due cb := by
      rcases hpc with hp | ⟨self, hp⟩ <;> simp [slotPhase, hcb, hp]
    rw [hdue]
    simp [Transition.exec, next]

/-- Storing an action into the empty slot, on behalf of the running coroutine. -/
theorem store_slotInv (h : SlotInv s) {r : Runner W} (hpc : s.pc t = .runFn r) {s₁ : SmartRuntime W}
    (hs : SlotStep t s s₁ []) (hcur : (s₁.threads t).currentCoro = (s.threads t).currentCoro)
    {c : CoroId W} (hc : (s.threads t).currentCoro = c) {cb : DelayCallback W} {p : Pc W}
    (hp : (∃ r self, p = .yielding r self) ∨ ∃ self, p = .mainLoop self) :
    SlotInv ((s₁.storeCallback t t cb c).setPc t p) := by
  have hpc' : ((s₁.storeCallback t t cb c).setPc t p).pc t = p := Function.update_self ..
  have hslot' : (((s₁.storeCallback t t cb c).setPc t p).threads t).delayCallback = some cb :=
    setSlot_self _ _ _
  have hcur' : (((s₁.storeCallback t t cb c).setPc t p).threads t).currentCoro = c :=
    (setSlot_current _ _ _ _).trans (hcur.trans hc)
  refine h.step (hs.trans (storeCallback_slot s₁ t cb c p)) ?_ fun r' hr => ?_
  · rw [slotPhase_idle ((h t).2 r hpc)]
    rcases hp with ⟨r', self, rfl⟩ | ⟨self, rfl⟩ <;>
      simp [Transition.exec, next, slotPhase, hslot', hpc', hcur']
  · rw [hpc'] at hr
    rcases hp with ⟨r₁, self, rfl⟩ | ⟨self, rfl⟩ <;> cases hr

theorem emit_access_slot (s : SmartRuntime W) (t : W) (field : Field) :
    SlotStep t s (s.emit (.access t t field)) [] where
  own := slotOps_concat t s.trace _
  other := fun w _ => ⟨(slotOps_concat w s.trace _).trans (List.append_nil _), rfl, rfl, rfl⟩

theorem yieldWith_slotInv (hinv : Inv s ρ) (h : SlotInv s) {r : Runner W} (hpc : s.pc t = .runFn r)
    (cb : CoroId W → DelayCallback W) : SlotInv (s.yieldWith t r cb) := by
  obtain ⟨n, ⟨hcur, _⟩, _, hr⟩ := (hinv.workers t).at hpc
  exact store_slotInv h hpc (emit_access_slot s t .currentCoro) rfl (hcur.trans hr.symm)
    (Or.inl ⟨r, t, rfl⟩)

theorem finishCoro_slotInv (hinv : Inv s ρ) (h : SlotInv s) {r : Runner W} (hpc : s.pc t = .runFn r)
    (hr : r.tlsSt = t) : SlotInv (s.finishCoro t r) := by
  obtain ⟨n, ⟨hcur, _⟩, _, hcoro⟩ := (hinv.workers t).at hpc
  subst hr
  have hs : SlotStep r.tlsSt s (s.setCoro r.currCoro { s.coros r.currCoro with finished := true }) [] :=
    ⟨(List.append_nil _).symm, fun _ _ => ⟨rfl, rfl, rfl, rfl⟩⟩
  exact store_slotInv h hpc hs rfl (hcur.trans hcoro.symm) (Or.inr ⟨r.tlsSt, rfl⟩)

theorem coroRunner_slotInv (h : SlotInv s) (hpc : s.pc t = .coroRunner) : SlotInv (s.coroRunner t) := by
  obtain ⟨_, _, hslot⟩ := flushCallback_slot s t
  have hs := emit_access_slot (s.flushCallback t t) t .currentCoro
  exact flush_slotInv h (Or.inl hpc) ⟨hs.own, fun w hw =>
    let ⟨ho, _, hc, hd⟩ := hs.other w hw; ⟨ho, Function.update_of_ne hw _ _, hc, hd⟩⟩ hslot

theorem afterSwitch_slotInv (hinv : Inv s ρ) (h : SlotInv s) {self : W} (hpc : s.pc t = .afterSwitch self) :
    SlotInv (s.afterSwitch t self) := by
  obtain ⟨rfl, _⟩ := (hinv.workers t).at hpc
  obtain ⟨_, _, hslot⟩ := flushCallback_slot s self
  exact flush_slotInv h (Or.inr ⟨self, hpc⟩)
    ⟨(List.append_nil _).symm, fun w hw => ⟨rfl, Function.update_of_ne hw _ _, rfl, rfl⟩⟩ hslot

theorem yieldSwitch_slotInv (hinv : Inv s ρ) (h : SlotInv s) {r : Runner W} {self : W}
    (hpc : s.pc t = .yielding r self) (hfresh : switchesFresh f s (.worker t .advance) = true) :
    SlotInv (s.yieldSwitch f t r self) := by
  obtain ⟨rfl, n, ⟨hcur, _⟩, _, _, cb, hslot, _⟩ := (hinv.workers t).at hpc
  simp only [switchesFresh, hpc, hslot, Option.isNone_some, Bool.false_or] at hfresh
  have hg := getTask_pool (f := f) hinv.pool self self
  rw [SmartRuntime.yieldSwitch]
  cases hg' : s.getTask f self self with
  | mk o s₁ =>
    rw [hg'] at hg
    cases hg with
    | none hq _ _ =>
      obtain ⟨hd, hmain⟩ := hinv.mains self
      exact switchTo_slotInv h hq.slotStep (hq.slot self) (hq.current self) (Or.inl ⟨r, self, hpc⟩)
        (by rw [hq.coros, hd]) (Or.inr (Or.inr ⟨self, by rw [hq.coros, hmain (by rw [hcur]; simp)]⟩))
    | some m ρ' hq _ hnext hm _ _ =>
      obtain ⟨⟨_, hd⟩, _⟩ := hinv.pool.suspended m hm
      simp only [hnext, Option.all_some, decide_eq_true_eq] at hfresh
      exact switchTo_slotInv h hq.slotStep (hq.slot self) (hq.current self) (Or.inl ⟨r, self, hpc⟩)
        (by rw [hq.coros, hd]) (Or.inr (Or.inl (by rw [hq.coros, hfresh])))

theorem mainLoop_slotInv (hinv : Inv s ρ) (h : SlotInv s) {self : W} (hpc : s.pc t = .mainLoop self)
    (hfresh : switchesFresh f s (.worker t .advance) = true) : SlotInv (s.mainLoop f t self) := by
  obtain ⟨rfl, _⟩ := (hinv.workers t).at hpc
  have hg := getTask_pool (f := f) hinv.pool self self
  rw [SmartRuntime.mainLoop]
  cases hg' : s.getTask f self self with
  | mk o s₁ =>
    rw [hg'] at hg
    cases hg with
    | none hq _ _ => exact h.frame hq.slotOps hq.pc hq.current hq.slot
    | some m ρ' hq _ hnext hm _ _ =>
      obtain ⟨⟨_, hd⟩, _⟩ := hinv.pool.suspended m hm
      simp only [switchesFresh, hpc, hnext, Option.all_some, Bool.or_eq_true, Option.isNone_iff_eq_none,
        decide_eq_true_eq] at hfresh
      exact switchTo_slotInv h hq.slotStep (hq.slot self) (hq.current self) (Or.inr ⟨self, hpc⟩)
        (by rw [hq.coros, hd]) (hfresh.imp_right fun hf => Or.inl (by rw [hq.coros, hf]))

/-- **Every step follows the protocol of the slots**, if it does not switch to a coroutine
suspended in `yield` with an action pending. -/
theorem step_slotInv (hinv : Inv s ρ) (h : SlotInv s) {l : Label W} (hhome : finishesHome s l = true)
    (hfresh : switchesFresh f s l = true) (hstep : step f s l = some s') : SlotInv s' := by
  cases l with
  | externalStart => cases hstep; exact h.frame (fun _ => rfl) rfl (fun _ => rfl) fun _ => rfl
  | ioComplete c =>
    simp only [step] at hstep
    split at hstep
    · cases hstep; exact h.frame (fun _ => rfl) rfl (fun _ => rfl) fun _ => rfl
    · cases hstep
  | worker t a =>
    simp only [step, workerStep] at hstep
    split at hstep
    · rename_i hpc; cases hstep; exact coroRunner_slotInv h hpc
    · cases hstep
      have hq := pushTask_step { s with nextCoro := s.nextCoro + 1 } t t (.user s.nextCoro)
      exact h.frame hq.slotOps hq.pc hq.current hq.slot
    · rename_i hpc; cases hstep; exact yieldWith_slotInv hinv h hpc _
    · rename_i hpc; cases hstep; exact yieldWith_slotInv hinv h hpc _
    · rename_i hpc; cases hstep; exact yieldWith_slotInv hinv h hpc _
    · rename_i hpc
      cases hstep
      simp only [finishesHome, hpc, decide_eq_true_eq] at hhome
      exact finishCoro_slotInv hinv h hpc hhome
    · rename_i hpc; cases hstep; exact yieldSwitch_slotInv hinv h hpc hfresh
    · rename_i hpc; cases hstep; exact mainLoop_slotInv hinv h hpc hfresh
    · rename_i hpc; cases hstep; exact afterSwitch_slotInv hinv h hpc
    · cases hstep

/-! ## Runs -/

/-- What holds of the slot of `w` in a state reached. -/
structure DeferredOnce (f : Flags) (s : SmartRuntime W) (w : W) : Prop where
  /-- Every action stored was run once, after the storing coroutine had left and before anything
  else was stored. -/
  order : OnceInOrder (slotOps w s.trace)
  /-- The slot is empty whenever user code runs, so `yield` and the end of `coro_runner` write an
  empty slot. -/
  empty : ∀ r, s.pc w = .runFn r → (s.threads w).delayCallback = none
  /-- With an empty slot no action is outstanding. -/
  settled : (s.threads w).delayCallback = none → ∀ pre cb c,
    slotOps w s.trace ≠ pre ++ [.store cb c] ∧ slotOps w s.trace ≠ pre ++ [.store cb c, .leave c]
  /-- Once the storing coroutine has left, the next step of the worker runs the action. -/
  due : ∀ cb, slotPhase s w = .due cb → ∃ s', step f s (.worker w .advance) = some s' ∧
    slotOps w s'.trace = slotOps w s.trace ++ [.exec cb] ∧ (s'.threads w).delayCallback = none

omit [DecidableEq W] in
theorem slotPhase_due {w : W} {cb : DelayCallback W} (h : slotPhase s w = .due cb) :
    (s.threads w).delayCallback = some cb ∧
      (s.pc w = .coroRunner ∨ ∃ self, s.pc w = .afterSwitch self) := by
  unfold slotPhase at h
  split at h
  · cases h
  · rename_i hcb hpc; cases h; exact ⟨hcb, Or.inl hpc⟩
  · rename_i self hcb hpc; cases h; exact ⟨hcb, Or.inr ⟨self, hpc⟩⟩
  · cases h

theorem deferredOnce (f : Flags) (hinv : Inv s ρ) (h : SlotInv s) (w : W) : DeferredOnce f s w where
  order := onceInOrder_of_phase (h w).1
  empty := (h w).2
  settled := fun hslot => by
    have hidle := (h w).1
    rw [slotPhase_idle hslot] at hidle
    exact (endsIn_of_phase _ _ hidle).2
  due := fun cb hdue => by
    obtain ⟨hcb, hpc⟩ := slotPhase_due hdue
    obtain ⟨hs, _, hslot⟩ := flushCallback_slot s w
    have hown := hs.own
    rw [hcb] at hown
    rcases hpc with hpc | ⟨self, hpc⟩
    · refine ⟨s.coroRunner w, by simp [step, workerStep, hpc], ?_, hslot⟩
      exact ((emit_access_slot (s.flushCallback w w) w .currentCoro).own.trans (List.append_nil _)).trans hown
    · obtain ⟨rfl, _⟩ := (hinv.workers w).at hpc
      exact ⟨s.afterSwitch self self, by simp [step, workerStep, hpc], hown, hslot⟩

theorem init_slotInv (f : Flags) : SlotInv (SmartRuntime.init f : SmartRuntime W) :=
  fun _ => ⟨rfl, fun _ _ => rfl⟩

/-- **Deferred actions are run exactly once and in order**, in every run in which no thread
switches to a coroutine suspended in `yield` with an action pending and every coroutine finishes
on the worker that entered it. -/
theorem run_deferred_once (f : Flags) (hf : 0 < f.capacity) (ls : List (Label W)) (s : SmartRuntime W)
    (hrun : run f ls = some s) (hguard : Transition.Guarded (step f)
      (fun s l => finishesHome s l && switchesFresh f s l) (.init f) ls) :
    ∀ w, DeferredOnce f s w := by
  have hboth : (∃ ρ, Inv s ρ) ∧ SlotInv s := by
    refine Transition.exec_invariant_of_guarded (P := fun s => (∃ ρ, Inv s ρ) ∧ SlotInv s) ?_ ls _ _
      ⟨⟨_, init_inv f hf⟩, init_slotInv f⟩ hguard hrun
    intro s l s' ⟨⟨ρ, hinv⟩, h⟩ hg hstep
    rw [Bool.and_eq_true] at hg
    exact ⟨step_inv hinv hg.1 hstep, step_slotInv hinv h hg.1 hg.2 hstep⟩
  obtain ⟨⟨ρ, hinv⟩, h⟩ := hboth
  exact deferredOnce f hinv h

end

/-- One coroutine yields to `main_coro_`, is resumed and finishes; another one is started and its
entry frees the first. -/
def yieldAndFinish : List (Label Unit) :=
  [.externalStart, .worker () .advance, .worker () .advance, .worker () .yield, .worker () .advance,
    .worker () .advance, .worker () .advance, .worker () .finish, .externalStart, .worker () .advance,
    .worker () .advance]

theorem run_deferred_once_yieldAndFinish :
    ∃ s, run ⟨25, 10⟩ yieldAndFinish = some s ∧ ∀ w, DeferredOnce ⟨25, 10⟩ s w := by
  obtain ⟨s, hs⟩ := Option.isSome_iff_exists.1
    (by decide +kernel : (run ⟨25, 10⟩ yieldAndFinish).isSome = true)
  exact ⟨s, hs, run_deferred_once ⟨25, 10⟩ (by decide) yieldAndFinish s hs (by decide +kernel)⟩

/-- Two coroutines: the first yields to the second, which has not run yet; the second yields back
to the first, which is suspended in `yield`; the first yields again. -/
def yieldToYielded : List (Label Unit) :=
  [.externalStart, .externalStart, .worker () .advance, .worker () .advance, .worker () .yield,
    .worker () .advance, .worker () .advance, .worker () .yield, .worker () .advance, .worker () .yield]

/-- **Yielding to a coroutine suspended in `yield` loses the deferred action**: it is overwritten
unexecuted, and the second coroutine, neither finished nor running, is in no queue and not
parked. -/
theorem yield_to_yielded_loses :
    ∃ s, run ⟨25, 10⟩ yieldToYielded = some s ∧ ¬ OnceInOrder (slotOps () s.trace) ∧
      (s.coros (.user 1)).finished = false ∧ (s.threads ()).currentCoro ≠ .user 1 ∧
      .user 1 ∉ (s.threads ()).taskQueue.toList ++ s.taskList ++ s.parked ∧
      (s.threads ()).delayCallback = some (.addBackToQueue (.user 0)) := by
  obtain ⟨s, hs⟩ := Option.isSome_iff_exists.1
    (by decide +kernel : (run ⟨25, 10⟩ yieldToYielded).isSome = true)
  have h : ∀ s ∈ run ⟨25, 10⟩ yieldToYielded, slotOps () s.trace =
      [.leave (.main ()), .store (.addBackToQueue (.user 0)) (.user 0), .leave (.user 0),
        .exec (.addBackToQueue (.user 0)), .store (.addBackToQueue (.user 1)) (.user 1),
        .leave (.user 1), .store (.addBackToQueue (.user 0)) (.user 0)] ∧
      (s.coros (.user 1)).finished = false ∧ (s.threads ()).currentCoro = .user 0 ∧
      (s.threads ()).taskQueue.toList ++ s.taskList ++ s.parked = [] ∧
      (s.threads ()).delayCallback = some (.addBackToQueue (.user 0)) := by
    decide +kernel
  obtain ⟨hops, hfin, hcur, hqueues, hslot⟩ := h s hs
  refine ⟨s, hs, fun hord => ?_, hfin, by rw [hcur]; decide, by rw [hqueues]; simp, hslot⟩
  have := hord.stored [.leave (.main ()), .store (.addBackToQueue (.user 0)) (.user 0), .leave (.user 0),
    .exec (.addBackToQueue (.user 0))] (.addBackToQueue (.user 1)) (.user 1)
    [.leave (.user 1), .store (.addBackToQueue (.user 0)) (.user 0)] hops
  simp at this

end SmartRoutine
