import SmartRoutine.ContextSwitch
import SmartRoutine.Scheduling

/-!
# The scheduler on real contexts

The scheduler's `switch_to`, `destroy_coro` and `smart_routine_start` are the jumps, frees and new
contexts of `Contexts`, with the workers as threads.

* `step_contexts` — every step does only what contexts allow.
* `run_contexts` — the context table of the scheduler is the history of its own jumps, and no two
  workers run one coroutine.
* `run_resumes_coroutines` — on the listings of `libcontext`, a run of the scheduler never gets
  stuck, and every coroutine goes on where it was left.
-/

set_option autoImplicit false

namespace SmartRoutine

open BoundedQueue

variable {W : Type}

/-! ## What the scheduler says about contexts -/

/-- A jump to this context goes on where it says. -/
def Fcontext.status : Fcontext W → Contexts.Status (Fcontext W)
  | .running => .running
  | k => .suspended k

/-- The object has been constructed. -/
def created (s : SmartRuntime W) : CoroId W → Bool
  | .main _ => true
  | .user n => n < s.nextCoro

/-- The object has been constructed and not deleted. -/
def alive (s : SmartRuntime W) (c : CoroId W) : Bool := created s c && !(s.coros c).destroyed

def contexts (s : SmartRuntime W) : Contexts.State W (CoroId W) (Fcontext W) where
  status c := if alive s c then (s.coros c).fcontext.status else .vacant
  current t := (s.threads t).currentCoro

theorem status_of_alive {s : SmartRuntime W} {c : CoroId W} (h : alive s c = true) :
    (contexts s).status c = (s.coros c).fcontext.status := if_pos h

theorem Fcontext.status_eq {k : Fcontext W} (h : k ≠ .running) : k.status = .suspended k := by
  cases k <;> simp_all [Fcontext.status]

/-- What an event does to contexts; `s'` is the state after the step. -/
def Event.op (s' : SmartRuntime W) : Event W → Option (Contexts.Op W (CoroId W) (Fcontext W))
  | .switch t _ src dst _ => some (.jump t dst (s'.coros src).fcontext)
  | .destroy _ c _ _ => some (.free c)
  | _ => none

/-- What a step from `s` to `s'` does to contexts. -/
def stepOps (s s' : SmartRuntime W) : List (Contexts.Op W (CoroId W) (Fcontext W)) :=
  (if s.nextCoro < s'.nextCoro then [.make (.user s.nextCoro) .fresh] else []) ++
    (s'.trace.drop s.trace.length).filterMap (Event.op s')

/-- What a run does to contexts. -/
def runOps [DecidableEq W] (f : Flags) : SmartRuntime W → List (Label W) →
    List (Contexts.Op W (CoroId W) (Fcontext W))
  | _, [] => []
  | s, l :: ls =>
    match step f s l with
    | some s' => stepOps s s' ++ runOps f s' ls
    | none => []

/-! ## Pieces of a step -/

/-- A piece of a step that does `os` to contexts. -/
structure Does [DecidableEq W] (s s' : SmartRuntime W) (os : List (Contexts.Op W (CoroId W) (Fcontext W))) : Prop where
  nextCoro : s'.nextCoro = s.nextCoro
  events : ∃ es, s'.trace = s.trace ++ es ∧ es.filterMap (Event.op s') = os
  exec : Transition.exec Contexts.step (contexts s) os = some (contexts s')
  unborn : ∀ n, s.nextCoro ≤ n → s'.coros (.user n) = s.coros (.user n)

/-- A piece of a step that has nothing to do with contexts. -/
structure Quiet (s s' : SmartRuntime W) : Prop where
  nextCoro : s'.nextCoro = s.nextCoro
  events : ∃ es, s'.trace = s.trace ++ es ∧ ∀ s'' : SmartRuntime W, es.filterMap (Event.op s'') = []
  coros : s'.coros = s.coros
  current : ∀ w, (s'.threads w).currentCoro = (s.threads w).currentCoro

section

variable {s s₁ s' : SmartRuntime W} {os : List (Contexts.Op W (CoroId W) (Fcontext W))}

theorem alive_congr (hn : s'.nextCoro = s.nextCoro) {c : CoroId W}
    (hd : (s'.coros c).destroyed = (s.coros c).destroyed) : alive s' c = alive s c := by
  cases c <;> simp [alive, created, hn, hd]

theorem contexts_congr (hn : s'.nextCoro = s.nextCoro)
    (hf : ∀ c, (s'.coros c).fcontext = (s.coros c).fcontext)
    (hd : ∀ c, (s'.coros c).destroyed = (s.coros c).destroyed)
    (hcur : ∀ w, (s'.threads w).currentCoro = (s.threads w).currentCoro) : contexts s' = contexts s := by
  have halive : alive s' = alive s := funext fun c => alive_congr hn (hd c)
  unfold contexts
  simp only [halive, hf, hcur]

theorem Quiet.contexts_eq (h : Quiet s s') : contexts s' = contexts s :=
  contexts_congr h.nextCoro (fun c => by rw [h.coros]) (fun c => by rw [h.coros]) h.current

theorem Quiet.refl (s : SmartRuntime W) : Quiet s s :=
  ⟨rfl, ⟨[], by simp, fun _ => rfl⟩, rfl, fun _ => rfl⟩

theorem Quiet.trans (h : Quiet s s₁) (h' : Quiet s₁ s') : Quiet s s' := by
  obtain ⟨es, ht, hes⟩ := h.events
  obtain ⟨es', ht', hes'⟩ := h'.events
  refine ⟨h'.nextCoro.trans h.nextCoro, ⟨es ++ es', ?_, fun s'' => ?_⟩, h'.coros.trans h.coros,
    fun w => (h'.current w).trans (h.current w)⟩
  · rw [ht', ht, List.append_assoc]
  · rw [List.filterMap_append, hes, hes', List.append_nil]

/-! ### Quiet pieces -/

theorem quiet_emit (s : SmartRuntime W) {e : Event W} (he : ∀ s'' : SmartRuntime W, e.op s'' = none) :
    Quiet s (s.emit e) :=
  ⟨rfl, ⟨[e], rfl, fun s'' => by simp [he s'']⟩, rfl, fun _ => rfl⟩

theorem quiet_access (s : SmartRuntime W) (t self : W) (field : Field) :
    Quiet s (s.emit (.access t self field)) := quiet_emit s fun _ => rfl

theorem quiet_park (s : SmartRuntime W) (xs : List (CoroId W)) : Quiet s { s with parked := xs } :=
  ⟨rfl, ⟨[], by simp, fun _ => rfl⟩, rfl, fun _ => rfl⟩

theorem QueueStep.quiet {t self : W} (h : QueueStep t self s s') : Quiet s s' :=
  ⟨h.nextCoro, ⟨_, h.trace, fun _ => rfl⟩, h.coros, h.current⟩

section

variable [DecidableEq W]

theorem quiet_setPc (s : SmartRuntime W) (t : W) (p : Pc W) : Quiet s (s.setPc t p) :=
  ⟨rfl, ⟨[], by simp [SmartRuntime.setPc], fun _ => rfl⟩, rfl, fun _ => rfl⟩

theorem quiet_setSlot (s : SmartRuntime W) (t : W) (cb : Option (DelayCallback W)) :
    Quiet s (s.setSlot t cb) :=
  ⟨rfl, ⟨[], by simp [SmartRuntime.setSlot], fun _ => rfl⟩, rfl, setSlot_current s t cb⟩

/-! ### Pieces that do something -/

theorem Quiet.does (h : Quiet s s') : Does s s' [] := by
  obtain ⟨es, ht, hes⟩ := h.events
  exact ⟨h.nextCoro, ⟨es, ht, hes s'⟩, by rw [h.contexts_eq, Transition.exec_nil],
    fun n _ => by rw [h.coros]⟩

theorem Does.after (h : Quiet s s₁) (h' : Does s₁ s' os) : Does s s' os := by
  obtain ⟨es, ht, hes⟩ := h.events
  obtain ⟨es', ht', hes'⟩ := h'.events
  refine ⟨h'.nextCoro.trans h.nextCoro, ⟨es ++ es', ?_, ?_⟩, ?_, fun n hn => ?_⟩
  · rw [ht', ht, List.append_assoc]
  · rw [List.filterMap_append, hes, hes', List.nil_append]
  · rw [← h.contexts_eq, h'.exec]
  · rw [h'.unborn n (by rwa [h.nextCoro]), h.coros]

theorem Does.before (h : Does s s₁ os) (h' : Quiet s₁ s') : Does s s' os := by
  obtain ⟨es, ht, hes⟩ := h.events
  obtain ⟨es', ht', hes'⟩ := h'.events
  have hop : Event.op s' = Event.op s₁ := by
    funext e
    cases e <;> simp [Event.op, h'.coros]
  refine ⟨h'.nextCoro.trans h.nextCoro, ⟨es ++ es', ?_, ?_⟩, ?_, fun n hn => ?_⟩
  · rw [ht', ht, List.append_assoc]
  · rw [List.filterMap_append, hes', hop, hes, List.append_nil]
  · rw [h'.contexts_eq, h.exec]
  · rw [h'.coros, h.unborn n hn]

theorem Does.stepOps_eq (h : Does s s' os) : stepOps s s' = os := by
  obtain ⟨es, ht, hes⟩ := h.events
  rw [stepOps, h.nextCoro, if_neg (Nat.lt_irrefl _), ht, List.drop_left, hes, List.nil_append]

section

variable {t : W} {next : CoroId W} {k : Fcontext W}

theorem switchTo_next (s : SmartRuntime W) : ((s.switchTo t t next k).coros next).fcontext = .running := by
  simp [SmartRuntime.switchTo, SmartRuntime.setPc, SmartRuntime.setCurrent, SmartRuntime.setCoro]

theorem switchTo_src (s : SmartRuntime W) (h : (s.threads t).currentCoro ≠ next) :
    ((s.switchTo t t next k).coros (s.threads t).currentCoro).fcontext = k := by
  simp [SmartRuntime.switchTo, SmartRuntime.setPc, SmartRuntime.setCurrent, SmartRuntime.setCoro, h]

theorem switchTo_coros_of_ne (s : SmartRuntime W) {c : CoroId W} (h : c ≠ next)
    (h' : c ≠ (s.threads t).currentCoro) : (s.switchTo t t next k).coros c = s.coros c := by
  simp [SmartRuntime.switchTo, SmartRuntime.setPc, SmartRuntime.setCurrent, SmartRuntime.setCoro,
    SmartRuntime.emit, h, h']

theorem switchTo_destroyed (s : SmartRuntime W) (c : CoroId W) :
    ((s.switchTo t t next k).coros c).destroyed = (s.coros c).destroyed := by
  by_cases h : c = next <;> by_cases h' : c = (s.threads t).currentCoro <;>
    simp_all [SmartRuntime.switchTo, SmartRuntime.setPc, SmartRuntime.setCurrent, SmartRuntime.setCoro,
      SmartRuntime.emit]

theorem switchTo_current (s : SmartRuntime W) (w : W) :
    ((s.switchTo t t next k).threads w).currentCoro =
      Function.update (fun w => (s.threads w).currentCoro) t next w := by
  by_cases h : w = t
  · subst h
    simp [SmartRuntime.switchTo, SmartRuntime.setPc, SmartRuntime.setCurrent]
  · simp [SmartRuntime.switchTo, SmartRuntime.setPc, SmartRuntime.setCurrent, SmartRuntime.setCoro,
      SmartRuntime.emit, h]

/-- **`switch_to`** is a jump. -/
theorem switchTo_does (hcur : alive s (s.threads t).currentCoro = true) (hnext : alive s next = true)
    (hne : (s.threads t).currentCoro ≠ next) (hrun : (s.coros next).fcontext ≠ .running)
    (hk : k ≠ .running) : Does s (s.switchTo t t next k) [.jump t next k] := by
  have halive : ∀ c, alive (s.switchTo t t next k) c = alive s c :=
    fun c => alive_congr (show (s.switchTo t t next k).nextCoro = s.nextCoro from rfl)
      (switchTo_destroyed s c)
  have hstatus : ∀ c, (contexts (s.switchTo t t next k)).status c =
      ((contexts s).jump t next k).status c := by
    intro c
    by_cases e : c = next
    · rw [e, Contexts.jump_status_self, status_of_alive (by rw [halive, hnext]), switchTo_next]
      rfl
    · by_cases e' : c = (s.threads t).currentCoro
      · rw [e', status_of_alive (by rw [halive, hcur]), switchTo_src s hne, Fcontext.status_eq hk]
        exact (Contexts.jump_status_left (contexts s) t next k hne).symm
      · rw [Contexts.jump_status_of_ne _ _ _ _ e e']
        simp only [contexts, halive, switchTo_coros_of_ne s e e']
  have hcontexts : contexts (s.switchTo t t next k) = (contexts s).jump t next k := by
    refine congrArg₂ Contexts.State.mk (funext hstatus) (funext fun w => ?_)
    exact switchTo_current s w
  have hstep : Contexts.step (contexts s) (.jump t next k) = some (contexts (s.switchTo t t next k)) :=
    Contexts.step_jump.2 ⟨⟨_, (status_of_alive hnext).trans (Fcontext.status_eq hrun)⟩, hcontexts⟩
  refine ⟨rfl, ⟨[.switch t t (s.threads t).currentCoro next (s.coros next)], rfl, ?_⟩, ?_, fun n hn => ?_⟩
  · simp [Event.op, switchTo_src s hne]
  · exact Transition.exec_single hstep
  · have hdead : alive s (.user n) = false := by simp [alive, created, hn]
    refine switchTo_coros_of_ne s (fun e => ?_) fun e => ?_
    · rw [e, hnext] at hdead
      cases hdead
    · rw [e, hcur] at hdead
      cases hdead

/-- **`destroy_coro`** frees a context. -/
theorem destroy_does {c : CoroId W} (hc : alive s c = true) (hrun : (s.coros c).fcontext ≠ .running) :
    Does s (s.runCallback t (.destroyCoro c)) [.free c] := by
  have hco : ∀ d, d ≠ c → (s.runCallback t (.destroyCoro c)).coros d = s.coros d :=
    fun d hd => Function.update_of_ne hd ..
  have hstatus : ∀ d, (contexts (s.runCallback t (.destroyCoro c))).status d =
      ((contexts s).free c).status d := by
    intro d
    by_cases e : d = c
    · rw [e, Contexts.free_status_self]
      refine if_neg ?_
      simp [alive, SmartRuntime.runCallback, SmartRuntime.setCoro]
    · have halive : alive (s.runCallback t (.destroyCoro c)) d = alive s d :=
        alive_congr (show (s.runCallback t (.destroyCoro c)).nextCoro = s.nextCoro from rfl)
          (by rw [hco d e])
      rw [Contexts.free_status_of_ne _ _ e]
      simp only [contexts, halive, hco d e]
  have hcontexts : contexts (s.runCallback t (.destroyCoro c)) = (contexts s).free c :=
    congrArg₂ Contexts.State.mk (funext hstatus) rfl
  have hstep : Contexts.step (contexts s) (.free c) =
      some (contexts (s.runCallback t (.destroyCoro c))) :=
    Contexts.step_free.2 ⟨⟨_, (status_of_alive hc).trans (Fcontext.status_eq hrun)⟩, hcontexts⟩
  refine ⟨rfl, ⟨[_], rfl, rfl⟩, ?_, fun n hn => hco _ fun e => ?_⟩
  · exact Transition.exec_single hstep
  · rw [← e] at hc
    simp [alive, created, Nat.not_lt.2 hn] at hc

/-- `if (delay_callback_) { … }`, run by the thread that was switched to. -/
theorem flushCallback_does (hslot : ∀ c, (s.threads t).delayCallback = some (.destroyCoro c) →
    alive s c = true ∧ (s.coros c).fcontext ≠ .running) :
    ∃ os, Does s (s.flushCallback t t) os := by
  unfold SmartRuntime.flushCallback
  cases hcb : (s.threads t).delayCallback with
  | none => exact ⟨[], (quiet_access s t t .delayCallback).does⟩
  | some cb =>
    have hexec : Quiet s (s.emit (.exec t t cb)) := quiet_emit s fun _ => rfl
    cases cb with
    | addBackToQueue c =>
      exact ⟨[], ((hexec.trans (pushTask_step _ t t c).quiet).trans (quiet_setSlot _ t none)).does⟩
    | enableEpollReading c =>
      exact ⟨[], ((hexec.trans (quiet_park _ (s.parked ++ [c]))).trans (quiet_setSlot _ t none)).does⟩
    | enableEpollWriting c =>
      exact ⟨[], ((hexec.trans (quiet_park _ (s.parked ++ [c]))).trans (quiet_setSlot _ t none)).does⟩
    | destroyCoro c =>
      obtain ⟨hc, hrun⟩ := hslot c hcb
      have hdestroy : Does (s.emit (.exec t t (.destroyCoro c)))
          ((s.emit (.exec t t (.destroyCoro c))).runCallback t (.destroyCoro c)) [.free c] :=
        destroy_does hc hrun
      exact ⟨_, (hdestroy.after hexec).before (quiet_setSlot _ t none)⟩

end

/-- **`smart_routine_start`** makes a context. -/
theorem create_exec (hfresh : s.coros (.user s.nextCoro) = ⟨.fresh, false, false⟩) :
    Transition.exec Contexts.step (contexts s) [.make (.user s.nextCoro) .fresh] =
      some (contexts { s with nextCoro := s.nextCoro + 1 }) := by
  have hstatus : ∀ c, (contexts { s with nextCoro := s.nextCoro + 1 }).status c =
      ((contexts s).make (.user s.nextCoro) .fresh).status c := by
    intro c
    by_cases e : c = .user s.nextCoro
    · rw [e, Contexts.make_status_self]
      simp [contexts, alive, created, hfresh, Fcontext.status]
    · have halive : alive { s with nextCoro := s.nextCoro + 1 } c = alive s c := by
        cases c with
        | main w => rfl
        | user n =>
          have hn : n ≠ s.nextCoro := fun e' => e (by rw [e'])
          simp only [alive, created]
          congr 1
          exact decide_eq_decide.2 (by omega)
      rw [Contexts.make_status_of_ne _ _ _ e]
      simp only [contexts, halive]
  have hcontexts : contexts { s with nextCoro := s.nextCoro + 1 } =
      (contexts s).make (.user s.nextCoro) .fresh := congrArg₂ Contexts.State.mk (funext hstatus) rfl
  have hvacant : (contexts s).status (.user s.nextCoro) = .vacant := if_neg (by simp [alive, created])
  rw [Transition.exec_cons (Contexts.step_make.2 ⟨hvacant, hcontexts⟩), Transition.exec_nil]

/-! ## Steps -/

/-- The invariant of the scheduler, with what it says about contexts. -/
structure ContextsInv (s : SmartRuntime W) (ρ : Nat → Place W) : Prop where
  inv : Inv s ρ
  runs : Contexts.Runs (contexts s)
  unborn : ∀ n, s.nextCoro ≤ n → s.coros (.user n) = ⟨.fresh, false, false⟩

variable {f : Flags} {ρ : Nat → Place W} {t : W} {n : Nat}

omit [DecidableEq W] in
theorem alive_user (h : Pool s ρ) (hp : ρ n ≠ .absent) (hd : (s.coros (.user n)).destroyed = false) :
    alive s (.user n) = true := by
  have hn : n < s.nextCoro := Nat.lt_of_not_le fun hle => hp ((h.absent n).2 hle)
  simp [alive, created, hn, hd]

omit [DecidableEq W] in
/-- The coroutine a worker runs is placed on its thread. -/
theorem onThread_of_current (h : WorkerOk s ρ t) (hcur : (s.threads t).currentCoro = .user n) :
    ρ n = .onThread t := by
  have runs : ∀ {m}, RunsOn s ρ t m → ρ n = .onThread t := by
    intro m ⟨hc, hp, _⟩
    cases hcur.symm.trans hc
    exact hp
  cases hpc : s.pc t with
  | coroRunner => obtain ⟨⟨m, hr, _⟩, _⟩ := h.at hpc; exact runs hr
  | runFn r => obtain ⟨m, hr, _⟩ := h.at hpc; exact runs hr
  | yielding r self => obtain ⟨_, m, hr, _⟩ := h.at hpc; exact runs hr
  | mainLoop self =>
    obtain ⟨_, ⟨hmain, _⟩ | ⟨m, hr, _⟩⟩ := h.at hpc
    · rw [hcur] at hmain; cases hmain
    · exact runs hr
  | afterSwitch self => obtain ⟨_, hmain, _⟩ := h.at hpc; rw [hcur] at hmain; cases hmain
  | wild => exact (h.at hpc : StateOk s ρ t .wild).elim

/-- What `destroy_coro` is given is not running. -/
theorem slot_suspended (h : ContextsInv s ρ) (hdue : SlotDue s ρ t) {c : CoroId W}
    (hcb : (s.threads t).delayCallback = some (.destroyCoro c)) :
    alive s c = true ∧ (s.coros c).fcontext ≠ .running := by
  obtain ⟨m, hp, rfl, -, hd⟩ := hdue _ hcb
  have halive := alive_user h.inv.pool (by rw [hp]; simp) hd
  refine ⟨halive, fun hrun => ?_⟩
  have hstatus : (contexts s).status (.user m) = .running := by
    rw [status_of_alive halive, hrun]
    rfl
  obtain ⟨u, hu⟩ := h.runs.owned _ hstatus
  have := onThread_of_current (h.inv.workers u) hu
  rw [hp] at this
  cases this

theorem coroRunner_does (h : ContextsInv s ρ) (hpc : s.pc t = .coroRunner) :
    ∃ os, Does s (s.coroRunner t) os := by
  obtain ⟨-, hdue⟩ := (h.inv.workers t).at hpc
  obtain ⟨os, hos⟩ := flushCallback_does fun c hcb => slot_suspended h hdue hcb
  exact ⟨os, hos.before ((quiet_access _ t t .currentCoro).trans (quiet_setPc _ t _))⟩

theorem afterSwitch_does (h : ContextsInv s ρ) {self : W} (hpc : s.pc t = .afterSwitch self) :
    ∃ os, Does s (s.afterSwitch t self) os := by
  obtain ⟨rfl, -, hdue⟩ := (h.inv.workers t).at hpc
  obtain ⟨os, hos⟩ := flushCallback_does fun c hcb => slot_suspended h hdue hcb
  exact ⟨os, hos.before (quiet_setPc _ self _)⟩

theorem yieldWith_does (s : SmartRuntime W) (t : W) (r : Runner W) (cb : CoroId W → DelayCallback W) :
    Does s (s.yieldWith t r cb) [] :=
  ((((quiet_access s t t .currentCoro).trans (quiet_setSlot _ t _)).trans
    (quiet_emit _ fun _ => rfl)).trans (quiet_setPc _ t _)).does

theorem finishCoro_does (h : ContextsInv s ρ) {r : Runner W} (hpc : s.pc t = .runFn r) :
    Does s (s.finishCoro t r) [] := by
  obtain ⟨m, ⟨-, hp, hd⟩, -, hr⟩ := (h.inv.workers t).at hpc
  have halive := alive_user h.inv.pool (by rw [hp]; simp) hd
  have hsame : contexts (s.setCoro r.currCoro { s.coros r.currCoro with finished := true }) = contexts s := by
    refine contexts_congr rfl (fun c => ?_) (fun c => ?_) fun w => rfl
    · by_cases e : c = r.currCoro <;> simp [SmartRuntime.setCoro, e]
    · by_cases e : c = r.currCoro <;> simp [SmartRuntime.setCoro, e]
  have hset : Does s (s.setCoro r.currCoro { s.coros r.currCoro with finished := true }) [] := by
    refine ⟨rfl, ⟨[], by simp [SmartRuntime.setCoro], rfl⟩, by rw [hsame, Transition.exec_nil],
      fun n hn => Function.update_of_ne (fun e => ?_) ..⟩
    rw [hr] at e
    cases e
    simp [alive, created, Nat.not_lt.2 hn] at halive
  exact hset.before (((quiet_setSlot _ r.tlsSt _).trans (quiet_emit _ fun _ => rfl)).trans
    (quiet_setPc _ t _))

/-- `get_task` has handed out a coroutine, and the thread jumps to it. -/
theorem taken_does {m : Nat} {ρ' : Nat → Place W} {k : Fcontext W} (h : ContextsInv s ρ)
    (hcur : alive s (s.threads t).currentCoro = true) (hne : (s.threads t).currentCoro ≠ .user m)
    (hk : k ≠ .running) (hq : QueueStep t t s s₁) (hpool : Pool s₁ ρ') (hm : (ρ m).AtRest)
    (hm' : ρ' m = .onThread t) : Does s (s₁.switchTo t t (.user m) k) [.jump t (.user m) k] := by
  obtain ⟨⟨-, hd⟩, hf⟩ := h.inv.pool.suspended m hm
  have hnext : alive s₁ (.user m) = true :=
    alive_user hpool (by rw [hm']; simp) (by rw [hq.coros]; exact hd)
  have hrun : (s₁.coros (.user m)).fcontext ≠ .running := by
    rw [hq.coros]
    rcases hf with hf | ⟨r, hf, -⟩ <;> rw [hf] <;> simp
  have hcur' : alive s₁ (s₁.threads t).currentCoro = true := by
    rw [hq.current, alive_congr hq.nextCoro (by rw [hq.coros]), hcur]
  exact (switchTo_does hcur' hnext (by rwa [hq.current]) hrun hk).after hq.quiet

/-- The coroutine that runs is alive. -/
theorem alive_current (h : ContextsInv s ρ) (hr : RunsOn s ρ t n) :
    alive s (s.threads t).currentCoro = true := by
  rw [hr.1]
  exact alive_user h.inv.pool (by rw [hr.2.1]; simp) hr.2.2

theorem yieldSwitch_does (h : ContextsInv s ρ) {r : Runner W} {self : W}
    (hpc : s.pc t = .yielding r self) : ∃ os, Does s (s.yieldSwitch f t r self) os := by
  obtain ⟨rfl, m, hrun, -⟩ := (h.inv.workers t).at hpc
  have hcur := alive_current h hrun
  have hg := getTask_pool (f := f) h.inv.pool self self
  rw [SmartRuntime.yieldSwitch]
  cases hg' : s.getTask f self self with
  | mk o s₁ =>
    rw [hg'] at hg
    cases hg with
    | none hq hpool _ =>
      obtain ⟨hd, hmain⟩ := h.inv.mains self
      have hctx := hmain (by rw [hrun.1]; simp)
      have hcur' : alive s₁ (s₁.threads self).currentCoro = true := by
        rw [hq.current, alive_congr hq.nextCoro (by rw [hq.coros]), hcur]
      have hnext : alive s₁ (.main self) = true := by simp [alive, created, hq.coros, hd]
      exact ⟨_, (switchTo_does hcur' hnext (by rw [hq.current, hrun.1]; simp)
        (by rw [hq.coros, hctx]; simp) (by simp)).after hq.quiet⟩
    | some k ρ' hq hpool _ hk hk' hkeep =>
      have hmk : m ≠ k := fun e => not_atRest_of_owner (w := self) (by rw [hrun.2.1]; rfl) (e ▸ hk)
      exact ⟨_, taken_does h hcur (by rw [hrun.1]; simpa using hmk) (by simp) hq hpool hk hk'⟩

theorem mainLoop_does (h : ContextsInv s ρ) {self : W} (hpc : s.pc t = .mainLoop self) :
    ∃ os, Does s (s.mainLoop f t self) os := by
  obtain ⟨rfl, hcase⟩ := (h.inv.workers t).at hpc
  have hg := getTask_pool (f := f) h.inv.pool self self
  rw [SmartRuntime.mainLoop]
  cases hg' : s.getTask f self self with
  | mk o s₁ =>
    rw [hg'] at hg
    cases hg with
    | none hq hpool _ => exact ⟨[], hq.quiet.does⟩
    | some k ρ' hq hpool _ hk hk' hkeep =>
      rcases hcase with ⟨hcur, -⟩ | ⟨m, hrun, -⟩
      · have halive : alive s (s.threads self).currentCoro = true := by
          rw [hcur]
          simp [alive, created, (h.inv.mains self).1]
        exact ⟨_, taken_does h halive (by rw [hcur]; simp) (by simp) hq hpool hk hk'⟩
      · have hmk : m ≠ k := fun e => not_atRest_of_owner (w := self) (by rw [hrun.2.1]; rfl) (e ▸ hk)
        exact ⟨_, taken_does h (alive_current h hrun) (by rw [hrun.1]; simpa using hmk) (by simp) hq
          hpool hk hk'⟩

/-- Constructing a coroutine and queueing it. -/
theorem start_contexts (h : ContextsInv s ρ) (hq : Quiet { s with nextCoro := s.nextCoro + 1 } s') :
    Transition.exec Contexts.step (contexts s) (stepOps s s') = some (contexts s') ∧
      ∀ n, s'.nextCoro ≤ n → s'.coros (.user n) = ⟨.fresh, false, false⟩ := by
  obtain ⟨es, ht, hes⟩ := hq.events
  have hn : s'.nextCoro = s.nextCoro + 1 := hq.nextCoro
  have hops : stepOps s s' = [.make (.user s.nextCoro) .fresh] := by
    have ht' : s'.trace = s.trace ++ es := ht
    rw [stepOps, hn, if_pos (Nat.lt_succ_self _), ht', List.drop_left, hes, List.append_nil]
  refine ⟨?_, fun n hle => ?_⟩
  · rw [hops, create_exec (h.unborn _ (Nat.le_refl _)), hq.contexts_eq]
  · rw [hq.coros]
    exact h.unborn n (by omega)

/-- **Every step of the scheduler does only what contexts allow**: it enters and frees suspended
contexts only. -/
theorem step_contexts (h : ContextsInv s ρ) {l : Label W} (hhome : finishesHome s l = true)
    (hstep : step f s l = some s') :
    Transition.exec Contexts.step (contexts s) (stepOps s s') = some (contexts s') ∧
      ∃ ρ', ContextsInv s' ρ' := by
  have hborn : ∀ os, Does s s' os →
      Transition.exec Contexts.step (contexts s) (stepOps s s') = some (contexts s') ∧
        ∀ n, s'.nextCoro ≤ n → s'.coros (.user n) = ⟨.fresh, false, false⟩ :=
    fun os hos => ⟨by rw [hos.stepOps_eq, hos.exec], fun n hn => by
      rw [hos.unborn n (hos.nextCoro ▸ hn), h.unborn n (hos.nextCoro ▸ hn)]⟩
  have hdone : Transition.exec Contexts.step (contexts s) (stepOps s s') = some (contexts s') ∧
      ∀ n, s'.nextCoro ≤ n → s'.coros (.user n) = ⟨.fresh, false, false⟩ := by
    cases l with
    | externalStart =>
      cases hstep
      exact start_contexts h ⟨rfl, ⟨[], by simp [SmartRuntime.pushGlobal], fun _ => rfl⟩, rfl, fun _ => rfl⟩
    | ioComplete c =>
      simp only [step] at hstep
      split at hstep
      · cases hstep
        have hquiet : Quiet s ({ s with parked := s.parked.erase c }.pushGlobal c) :=
          ⟨rfl, ⟨[], by simp [SmartRuntime.pushGlobal], fun _ => rfl⟩, rfl, fun _ => rfl⟩
        exact hborn _ hquiet.does
      · cases hstep
    | worker t a =>
      simp only [step, workerStep] at hstep
      split at hstep
      · rename_i hpc
        cases hstep
        obtain ⟨os, hos⟩ := coroRunner_does h hpc
        exact hborn os hos
      · cases hstep
        exact start_contexts h (pushTask_step _ t t _).quiet
      · cases hstep
        exact hborn _ (yieldWith_does s t _ _)
      · cases hstep
        exact hborn _ (yieldWith_does s t _ _)
      · cases hstep
        exact hborn _ (yieldWith_does s t _ _)
      · rename_i hpc
        cases hstep
        exact hborn _ (finishCoro_does h hpc)
      · rename_i hpc
        cases hstep
        obtain ⟨os, hos⟩ := yieldSwitch_does h hpc
        exact hborn os hos
      · rename_i hpc
        cases hstep
        obtain ⟨os, hos⟩ := mainLoop_does h hpc
        exact hborn os hos
      · rename_i hpc
        cases hstep
        obtain ⟨os, hos⟩ := afterSwitch_does h hpc
        exact hborn os hos
      · cases hstep
  obtain ⟨ρ', hinv⟩ := step_inv h.inv hhome hstep
  exact ⟨hdone.1, ρ', hinv, Transition.exec_invariant (fun _ _ _ hr hs => Contexts.step_runs hr hs) _
    h.runs hdone.1, hdone.2⟩

end

end

/-! ## Runs -/

variable [DecidableEq W]

theorem init_contextsInv (f : Flags) (hf : 0 < f.capacity) :
    ContextsInv (SmartRuntime.init f : SmartRuntime W) fun _ => .absent := by
  refine ⟨init_inv f hf, ⟨fun t => rfl, fun t u htu => ?_, fun c hc => ?_⟩, fun n _ => rfl⟩
  · simpa [contexts, SmartRuntime.init] using htu
  · cases c with
    | main w => exact ⟨w, rfl⟩
    | user n => simp [contexts, alive, created, SmartRuntime.init] at hc

section

variable {f : Flags} {s : SmartRuntime W} {ls : List (Label W)}

/-- From any state of a run. -/
theorem exec_contexts {s₀ : SmartRuntime W} {ρ : Nat → Place W} (h : ContextsInv s₀ ρ)
    (hrun : Transition.exec (step f) s₀ ls = some s)
    (hhome : Transition.Guarded (step f) (fun s l => finishesHome s l) s₀ ls) :
    Transition.exec Contexts.step (contexts s₀) (runOps f s₀ ls) = some (contexts s) ∧
      ∃ ρ', ContextsInv s ρ' := by
  induction ls generalizing s₀ ρ with
  | nil =>
    obtain rfl := Option.some.inj hrun
    exact ⟨rfl, ρ, h⟩
  | cons l ls ih =>
    cases hstep : step f s₀ l with
    | none => simp [Transition.exec, hstep] at hrun
    | some s₁ =>
      rw [Transition.exec_cons hstep] at hrun
      simp only [Transition.Guarded, hstep] at hhome
      obtain ⟨hops, ρ₁, h₁⟩ := step_contexts h hhome.1 hstep
      obtain ⟨hrest, hinv⟩ := ih h₁ hrun hhome.2
      refine ⟨?_, hinv⟩
      rw [runOps, hstep, Transition.exec_append, hops]
      exact hrest

/-- **The context table is the history of the scheduler's own jumps.**  In every run in which
coroutines finish where they were entered, each `switch_to` is given a suspended context, each
`destroy_coro` one that no worker runs, and no two workers run one context. -/
theorem run_contexts (f : Flags) (hf : 0 < f.capacity) (ls : List (Label W)) (s : SmartRuntime W)
    (hrun : run f ls = some s)
    (hhome : Transition.Guarded (step f) (fun s l => finishesHome s l) (.init f) ls) :
    Transition.exec Contexts.step (contexts (.init f)) (runOps f (.init f) ls) = some (contexts s) ∧
      Contexts.Runs (contexts s) := by
  obtain ⟨hexec, ρ, h⟩ := exec_contexts (init_contextsInv f hf) hrun hhome
  exact ⟨hexec, h.runs⟩

/-- A coroutine finishes; the next one frees it. -/
def finishThenFree : List (Label Unit) :=
  [.externalStart, .worker () .advance, .worker () .advance, .worker () .finish, .externalStart,
    .worker () .advance, .worker () .advance]

theorem run_contexts_finishThenFree : ∃ s, run ⟨1, 1⟩ finishThenFree = some s ∧
    runOps ⟨1, 1⟩ (.init ⟨1, 1⟩) finishThenFree =
      [.make (.user 0) .fresh, .jump () (.user 0) (.inLoop ()), .make (.user 1) .fresh,
        .jump () (.user 1) (.inLoop ()), .free (.user 0)] ∧ Contexts.Runs (contexts s) := by
  obtain ⟨s, hs⟩ := Option.isSome_iff_exists.1 (by decide +kernel :
    (run ⟨1, 1⟩ finishThenFree).isSome = true)
  exact ⟨s, hs, rfl, (run_contexts ⟨1, 1⟩ (by decide) finishThenFree s hs
    (Transition.guarded_of_mem _ _ fun l _ s => finishesHome_unit s l)).2⟩

/-- **On the listings of `libcontext`, coroutines go on where they were left.**  Threads that make,
enter and free the contexts a run of the scheduler tells them to, whatever code runs in between,
never get stuck, and each jump goes on where its coroutine was left. -/
theorem run_resumes_coroutines (f : Flags) (hf : 0 < f.capacity) (ls : List (Label W))
    (s : SmartRuntime W) (hrun : run f ls = some s)
    (hhome : Transition.Guarded (step f) (fun s l => finishesHome s l) (.init f) ls)
    (L : Layout (CoroId W)) (finish : UInt64) (m : Machine W (CoroId W)) (hm : Represents L m)
    (hstart : m.skeleton = (contexts (.init f)).map fun _ => ())
    (ms : List (MachineLabel W (CoroId W)))
    (hms : ms.filterMap MachineLabel.op = (runOps f (.init f) ls).map (Contexts.Op.map fun _ => ()))
    (hobeys : Transition.Guarded (machineStep L finish) (Obeys L) m ms) :
    ∃ m', Transition.exec (machineStep L finish) m ms = some m' ∧
      m'.skeleton = (contexts s).map (fun _ => ()) ∧ Represents L m' ∧
      ∀ e ∈ m'.trace, e.left = .suspended e.stands := by
  obtain ⟨hexec, -⟩ := run_contexts f hf ls s hrun hhome
  have hskeleton : Transition.exec Contexts.step m.skeleton (ms.filterMap MachineLabel.op) =
      some ((contexts s).map fun _ => ()) := by
    rw [hstart, hms, Contexts.exec_map, hexec]
    rfl
  obtain ⟨m', hm', hend⟩ := machine_progress L finish hskeleton
  obtain ⟨hrep, hall⟩ := run_resumes hm hobeys hm'
  exact ⟨m', hm', hend, hrep, hall⟩

end

/-! ## An example -/

section

/-- A worker and its first coroutine. -/
def workerLayout : Layout (CoroId Unit) where
  base | .main _ => 0x1000 | .user n => 0x3000 + 0x1000 * n
  size _ := 0x1000
  cell | .main _ => 0x108 | .user n => 0x200 + 8 * n

def callMake : X86.State where
  regs | .rsp => 0x1800 | .rdi => 0x4000 | .rdx => 0x400 | _ => 0
  zf := false
  mxcsr := 0x1f80
  fcw := 0x37f
  mem := fun _ => 0

def callJump (mem : Nat → UInt8) (fcontext : UInt64) : X86.State where
  regs | .rsp => 0x1800 | .rdi => 0x108 | .rsi => fcontext | _ => 0
  zf := false
  mxcsr := 0x1f80
  fcw := 0x37f
  mem := mem

def worker : Machine Unit (CoroId Unit) where
  threads _ := callMake
  mem _ := 0
  contexts :=
    { status | .main _ => .running | .user _ => .vacant
      current t := .main t }
  trace := []

theorem worker_represents : Represents workerLayout worker := by
  have hlive : ∀ c, worker.live c → c = .main () := fun c hc => by
    cases c with
    | main t => rfl
    | user n => exact absurd rfl hc
  refine ⟨⟨fun _ => rfl, fun _ _ _ => rfl, fun c hc => ⟨(), ?_⟩⟩, ⟨?_, ?_, ?_, ?_⟩, fun c k hc => ?_,
    by simp [worker]⟩
  · exact (hlive c (by rw [Machine.live, hc]; simp)).symm
  · exact fun c hc => by
      rw [hlive c hc]
      decide
  · exact fun c d hc hd => by
      rw [hlive c hc, hlive d hd]
      decide
  · exact fun c d hc hd hne => absurd ((hlive c hc).trans (hlive d hd).symm) hne
  · exact fun c d hc hd hne => absurd ((hlive c hc).trans (hlive d hd).symm) hne
  · cases c <;> simp [worker] at hc

theorem worker_obeys : Obeys workerLayout worker (.make () (.user 0)) := by
  have hlive : ∀ c, worker.live c ∨ c = .user 0 → c = .main () ∨ c = .user 0 := by
    rintro c (hc | hc)
    · cases c with
      | main t => exact Or.inl rfl
      | user n => exact absurd rfl hc
    · exact Or.inr hc
  refine ⟨by unfold OnStack; decide, by decide, by decide, ?_, ?_, ?_, ?_⟩
  · intro c hc
    rcases hlive c hc with rfl | rfl <;> decide
  · intro c d hc hd
    rcases hlive c hc with rfl | rfl <;> rcases hlive d hd with rfl | rfl <;> decide
  · intro c d hc hd hne
    rcases hlive c hc with rfl | rfl <;> rcases hlive d hd with rfl | rfl <;>
      first | exact absurd rfl hne | decide
  · intro c d hc hd hne
    rcases hlive c hc with rfl | rfl <;> rcases hlive d hd with rfl | rfl <;>
      first | exact absurd rfl hne | decide

theorem run_resumes_coroutines_worker : ∃ ms m',
    ms.filterMap MachineLabel.op = [.make (.user 0) (), .jump () (.user 0) ()] ∧
      Transition.exec (machineStep workerLayout 0) worker ms = some m' ∧
      ∀ e ∈ m'.trace, e.left = .suspended e.stands := by
  obtain ⟨m₁, hmake, -⟩ := machineStep_op workerLayout 0 (m := worker)
    (l := .make () (.user 0)) rfl (Contexts.step_make.2 ⟨rfl, rfl⟩)
  let s₂ := callJump m₁.mem (X86.wordAt m₁.mem (workerLayout.cell (.user 0)))
  have hcompute : machineStep workerLayout 0 m₁ (.compute () s₂) = some (m₁.put () s₂) := rfl
  obtain ⟨s, hrun⟩ := Option.isSome_iff_exists.1 (by decide +kernel :
    (run ⟨1, 1⟩ [.externalStart, .worker () .advance]).isSome = true)
  obtain ⟨-, -, hctx, -⟩ := machineStep_make hmake
  have hcurrent : m₁.contexts.current () = .main () := by rw [hctx]; rfl
  have hobeys : Transition.Guarded (machineStep workerLayout 0) (Obeys workerLayout) worker
      [.make () (.user 0), .compute () s₂, .jump () (.user 0)] := by
    simp only [Transition.Guarded, hmake, hcompute]
    refine ⟨worker_obeys, fun _ _ _ => ⟨rfl, rfl⟩, ?_⟩
    split
    · refine ⟨⟨?_, ?_, rfl⟩, trivial⟩
      · show workerLayout.base (m₁.contexts.current ()) + 56 ≤ 0x1800 ∧
          0x1800 + 8 ≤ workerLayout.base (m₁.contexts.current ()) + workerLayout.size (m₁.contexts.current ())
        rw [hcurrent]
        decide
      · show 0x108 = workerLayout.cell (m₁.contexts.current ())
        rw [hcurrent]
        rfl
    · trivial
  have hstart : worker.skeleton = (contexts (.init ⟨1, 1⟩)).map fun _ => () := by
    refine congrArg₂ Contexts.State.mk (funext fun c => ?_) rfl
    cases c <;> simp [worker, contexts, alive, created, SmartRuntime.init, Contexts.Status.map, Fcontext.status]
  obtain ⟨m', hm', -, -, hall⟩ := run_resumes_coroutines ⟨1, 1⟩ (by decide)
    [.externalStart, .worker () .advance] s hrun
    (Transition.guarded_of_mem _ _ fun l _ s => finishesHome_unit s l) workerLayout 0 worker
    worker_represents hstart [.make () (.user 0), .compute () s₂, .jump () (.user 0)] rfl hobeys
  exact ⟨_, m', rfl, hm', hall⟩

end

end SmartRoutine
