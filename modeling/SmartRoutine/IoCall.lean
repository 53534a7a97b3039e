import SmartRoutine.EPoll
import SmartRoutine.Handlers

/-!
# A blocking call from registration to resumption

One machine for the five blocking calls.  A call makes an item and a context, is enabled once by
the deferred action of its `yield`, and from then on each report for the item runs the handler,
which may resume the coroutine: disable the item and push the coroutine on a queue.  Everything
that happens to other items and other descriptors is arbitrary (`other`).

* `IoOp` — what distinguishes the calls: the direction and the handler.
* `step_outcome` — what one step does to the context.
* `run_resumedOnce` — for any handler the coroutine is pushed at most once, with nothing left of
  its registration, and the context does not change afterwards.
* `blockingCalls_resumedOnce` — the five calls.
-/

set_option autoImplicit false

namespace SmartRoutine

/-- A kind of call: contexts `σ`, outcomes `ρ` of its system call; a handler that does not return
yields `none`. -/
structure IoOp (σ ρ : Type) where
  direction : Direction
  handler : σ → ρ → Option (σ × Bool)

def smartRead : IoOp ReadContext ReadResult := ⟨.reading, fun ctx r => some (smartReadImpl ctx r)⟩

def smartWrite : IoOp WriteContext CallResult := ⟨.writing, fun ctx r => some (smartWriteImpl ctx r)⟩

def smartAccept : IoOp AcceptContext CallResult := ⟨.reading, fun ctx r => some (smartAcceptImpl ctx r)⟩

/-- `smart_connect` once `connect` has failed with `EINPROGRESS`. -/
def smartConnect : IoOp ConnectContext CallResult := ⟨.writing, fun ctx r => some (smartConnectImpl ctx r)⟩

def smartReadUntil (env : BufferEnv) : IoOp ReadUntilContext ReadResult := ⟨.reading, smartReadUntilImpl env⟩

/-- What a push found: the item, the kernel's entry for its descriptor, the context. -/
structure Push (ι σ : Type) where
  item : EPollItem
  entry : Option (EpollEntry ι)
  ctx : σ

structure IoCall (ι σ : Type) where
  epoller : SmartEPoller ι
  ctx : σ
  /-- The deferred `enable_epoll_*` has been run. -/
  enabled : Bool
  /-- Pushes of the coroutine on a queue. -/
  pushes : List (Push ι σ)

inductive IoLabel (ι ρ : Type) where
  | enable
  /-- A report with its events, and the outcome of the system call if the handler makes it. -/
  | dispatch (revents : Events) (r : ρ)
  /-- Anything that touches neither the item nor its descriptor. -/
  | other (epoller : SmartEPoller ι)

/-- The outcome that the handler sees in this step, if the step runs it. -/
def IoLabel.outcome {ι ρ : Type} (d : Direction) : IoLabel ι ρ → Option ρ
  | .dispatch revents r => if revents &&& d.callback.mask ≠ 0 then some r else none
  | _ => none

section

variable {ι σ ρ : Type} [DecidableEq ι]

namespace IoCall

/-- `resume_read_coro` or `resume_write_coro`. -/
def resume (s : IoCall ι σ) (d : Direction) (me : ι) : IoCall ι σ :=
  let epoller := s.epoller.disable d me
  { s with
    epoller := epoller
    pushes := s.pushes ++ [⟨epoller.items me, epoller.interest (epoller.items me).fd, s.ctx⟩] }

/-- One callback called by `handle_events`. -/
def callback (op : IoOp σ ρ) (me : ι) (r : ρ) (s : IoCall ι σ) (_ : Callback) : Option (IoCall ι σ) :=
  match op.handler s.ctx r with
  | none => none
  | some (ctx, true) => some ({ s with ctx := ctx }.resume op.direction me)
  | some (ctx, false) => some { s with ctx := ctx }

/-- `set_revents` and `handle_events`. -/
def dispatch (op : IoOp σ ρ) (me : ι) (s : IoCall ι σ) (revents : Events) (r : ρ) : Option (IoCall ι σ) :=
  let item := { s.epoller.items me with revents := revents }
  item.handleEvents.foldlM (callback op me r) { s with epoller := s.epoller.setItem me item }

/-- A report reaches the item only while the kernel holds its entry. -/
def step (op : IoOp σ ρ) (me : ι) (s : IoCall ι σ) : IoLabel ι ρ → Option (IoCall ι σ)
  | .enable => if s.enabled then none else some { s with epoller := s.epoller.enable op.direction me, enabled := true }
  | .dispatch revents r =>
    match s.epoller.interest (s.epoller.items me).fd with
    | some e => if e.ptr = me then dispatch op me s revents r else none
    | none => none
  | .other epoller =>
    if epoller.items me = s.epoller.items me ∧
        epoller.interest (s.epoller.items me).fd = s.epoller.interest (s.epoller.items me).fd then
      some { s with epoller := epoller }
    else none

/-- The call has made its item and its context; its descriptor is used by no other item. -/
def start (op : IoOp σ ρ) (me : ι) (fd : Int) (ctx : σ) (epoller : SmartEPoller ι) : IoCall ι σ where
  epoller :=
    { epoller.setItem me (.forCall fd op.direction) with
      interest := Function.update epoller.interest fd none }
  ctx := ctx
  enabled := false
  pushes := []

/-! ## The property -/

/-- At most one push, with the item disabled, no entry in the kernel, and the context final. -/
structure ResumedOnce (s : IoCall ι σ) : Prop where
  once : s.pushes.length ≤ 1
  deregistered : ∀ p ∈ s.pushes, p.item.events = 0 ∧ p.item.watching = false ∧ p.entry = none
  settled : ∀ p ∈ s.pushes, p.ctx = s.ctx

/-- What the item and its entry look like before the call is enabled, while it is parked and
after it has been resumed. -/
inductive Stage (op : IoOp σ ρ) (me : ι) (fd : Int) (s : IoCall ι σ) : Prop where
  | made (hen : s.enabled = false) (hev : (s.epoller.items me).events = 0)
      (hw : (s.epoller.items me).watching = false) (he : s.epoller.interest fd = none)
      (hp : s.pushes = [])
  | parked (hen : s.enabled = true) (hev : (s.epoller.items me).events = op.direction.event)
      (hw : (s.epoller.items me).watching = true)
      (he : s.epoller.interest fd = some ⟨op.direction.event, me⟩) (hp : s.pushes = [])
  | resumed (hen : s.enabled = true) (he : s.epoller.interest fd = none)
      (hp : ∃ p, s.pushes = [p] ∧ p.item.events = 0 ∧ p.item.watching = false ∧ p.entry = none ∧
        p.ctx = s.ctx)

/-- The item keeps its descriptor and its one callback, and is in one of the stages. -/
structure CallInv (op : IoOp σ ρ) (me : ι) (fd : Int) (s : IoCall ι σ) : Prop where
  fd_eq : (s.epoller.items me).fd = fd
  callbacks : ∀ c, (s.epoller.items me).callback c = decide (c = op.direction.callback)
  stage : Stage op me fd s

variable {op : IoOp σ ρ} {me : ι} {fd : Int} {s s' : IoCall ι σ}

omit [DecidableEq ι] in
theorem CallInv.resumedOnce (h : CallInv op me fd s) : ResumedOnce s := by
  cases h.stage with
  | made _ _ _ _ hp => exact ⟨by rw [hp]; exact Nat.zero_le _, by simp [hp], by simp [hp]⟩
  | parked _ _ _ _ hp => exact ⟨by rw [hp]; exact Nat.zero_le _, by simp [hp], by simp [hp]⟩
  | resumed _ _ hp =>
    obtain ⟨p, hp, hev, hw, he, hctx⟩ := hp
    refine ⟨by rw [hp]; exact Nat.le_refl _, fun q hq => ?_, fun q hq => ?_⟩
    · rw [hp, List.mem_singleton] at hq
      subst hq
      exact ⟨hev, hw, he⟩
    · rw [hp, List.mem_singleton] at hq
      subst hq
      exact hctx

theorem start_inv (op : IoOp σ ρ) (me : ι) (fd : Int) (ctx : σ) (epoller : SmartEPoller ι) :
    CallInv op me fd (start op me fd ctx epoller) := by
  have hitem : (start op me fd ctx epoller).epoller.items me = .forCall fd op.direction :=
    Function.update_self ..
  refine ⟨?_, fun c => ?_, .made rfl ?_ ?_ (Function.update_self ..) rfl⟩
  · rw [hitem]; cases op.direction <;> rfl
  · rw [hitem]; cases op.direction <;> cases c <;> rfl
  · rw [hitem]; cases op.direction <;> rfl
  · rw [hitem]; cases op.direction <;> rfl

/-! ## Steps -/

/-- The deferred action registers the item. -/
theorem enable_inv (h : CallInv op me fd s) (hen : s.enabled = false) :
    CallInv op me fd { s with epoller := s.epoller.enable op.direction me, enabled := true } := by
  obtain ⟨hfd, hcb, hstage⟩ := h
  cases hstage with
  | made _ hev hw he hp =>
    have hzero : (s.epoller.items me).events ||| op.direction.event = op.direction.event := by
      rw [hev, Direction.set_event]
    obtain ⟨hi, ht⟩ := SmartEPoller.updateEvents_fresh op.direction.event hw (by rw [hfd]; exact he)
    have hitem : (s.epoller.enable op.direction me).items me =
        { s.epoller.items me with events := op.direction.event, watching := true } := by
      rw [SmartEPoller.enable_eq, hzero, ht, Function.update_self]
    refine ⟨by rw [hitem]; exact hfd, fun c => ?_, .parked rfl ?_ ?_ ?_ hp⟩
    · rw [hitem]; exact hcb c
    · rw [hitem]
    · rw [hitem]
    · rw [SmartEPoller.enable_eq, hzero, hi, hfd, Function.update_self]
  | parked hen' => rw [hen] at hen'; cases hen'
  | resumed hen' => rw [hen] at hen'; cases hen'

/-- The state after a report, with the context the handler leaves. -/
def reported (s : IoCall ι σ) (me : ι) (revents : Events) (ctx : σ) : IoCall ι σ :=
  { s with
    epoller := s.epoller.setItem me { s.epoller.items me with revents := revents }
    ctx := ctx }

/-- **Resuming deregisters first.** -/
theorem resume_inv (h : CallInv op me fd s) (hen : s.enabled = true) (hp : s.pushes = [])
    (he : s.epoller.interest fd = some ⟨op.direction.event, me⟩) :
    CallInv op me fd (s.resume op.direction me) := by
  obtain ⟨hfd, hcb, hstage⟩ := h
  cases hstage with
  | made hen' => rw [hen] at hen'; cases hen'
  | resumed _ he' => rw [he] at he'; cases he'
  | parked _ hev hw =>
    have hzero : (s.epoller.items me).events &&& ~~~op.direction.event = 0 := by
      rw [hev, Direction.clear_event]
    obtain ⟨hi, ht⟩ := SmartEPoller.updateEvents_watching 0 hw (by rw [hfd]; exact he)
    have hitem : (s.epoller.disable op.direction me).items me =
        { s.epoller.items me with events := 0, watching := false } := by
      rw [SmartEPoller.disable_eq, hzero, ht, Function.update_self]
      rfl
    have hentry : (s.epoller.disable op.direction me).interest fd = none := by
      rw [SmartEPoller.disable_eq, hzero, hi, hfd, Function.update_self]
      rfl
    refine ⟨by rw [resume, hitem]; exact hfd, fun c => ?_, .resumed hen hentry
      ⟨_, by rw [resume, hp]; rfl, ?_, ?_, ?_, rfl⟩⟩
    · rw [resume, hitem]; exact hcb c
    · rw [hitem]
    · rw [hitem]
    · rw [hitem]; exact hfd ▸ hentry

/-- An item with one callback has `handle_events` call at most that one. -/
theorem handleEvents_eq (item : EPollItem) {c₀ : Callback} (h : ∀ c, item.callback c = decide (c = c₀)) :
    item.handleEvents = if item.revents &&& c₀.mask ≠ 0 then [c₀] else [] := by
  unfold EPollItem.handleEvents
  simp only [h]
  cases c₀ <;> simp [List.filter_cons]

/-- While the call is parked its context, and the reported events of its item, may change. -/
theorem CallInv.parked (h : CallInv op me fd s) (hen : s.enabled = true) (hp : s.pushes = [])
    (he : s.epoller.interest fd = some ⟨op.direction.event, me⟩) (revents : Events) (ctx : σ) :
    CallInv op me fd (s.reported me revents ctx) := by
  obtain ⟨hfd, hcb, hstage⟩ := h
  have hitem : (s.reported me revents ctx).epoller.items me =
      { s.epoller.items me with revents := revents } := Function.update_self ..
  cases hstage with
  | made hen' => rw [hen] at hen'; cases hen'
  | resumed _ he' => rw [he] at he'; cases he'
  | parked _ hev hw =>
    refine ⟨by rw [hitem]; exact hfd, fun c => ?_, .parked hen ?_ ?_ he hp⟩
    · rw [hitem]; exact hcb c
    · rw [hitem]; exact hev
    · rw [hitem]; exact hw

omit [DecidableEq ι] in
/-- A report reaches the item only while the call is parked. -/
theorem CallInv.parked_of_entry (h : CallInv op me fd s) {e : EpollEntry ι}
    (he : s.epoller.interest fd = some e) :
    s.enabled = true ∧ s.pushes = [] ∧ s.epoller.interest fd = some ⟨op.direction.event, me⟩ := by
  cases h.stage with
  | made _ _ _ he' => rw [he] at he'; cases he'
  | parked hen _ _ he' hp => exact ⟨hen, hp, he'⟩
  | resumed _ he' => rw [he] at he'; cases he'

/-- **A dispatch** runs the handler iff its event is reported, and once. -/
theorem dispatch_cases (h : CallInv op me fd s) {revents : Events} {r : ρ}
    (hd : dispatch op me s revents r = some s') :
    (revents &&& op.direction.callback.mask ≠ 0 ∧
      ∃ ctx b, op.handler s.ctx r = some (ctx, b) ∧
        s' = if b then (s.reported me revents ctx).resume op.direction me
          else s.reported me revents ctx) ∨
      revents &&& op.direction.callback.mask = 0 ∧ s' = s.reported me revents s.ctx := by
  unfold dispatch at hd
  dsimp only at hd
  rw [handleEvents_eq { s.epoller.items me with revents := revents } h.callbacks] at hd
  split at hd
  · rename_i hmask
    -- the one callback is called
    simp only [List.foldlM_cons, List.foldlM_nil, Option.bind_eq_bind, Option.bind_eq_some_iff] at hd
    obtain ⟨s₁, hcall, hret⟩ := hd
    cases hret
    unfold callback at hcall
    left
    refine ⟨hmask, ?_⟩
    split at hcall
    · cases hcall
    · rename_i ctx hhandler
      cases hcall
      exact ⟨ctx, true, hhandler, rfl⟩
    · rename_i ctx hhandler
      cases hcall
      exact ⟨ctx, false, hhandler, rfl⟩
  · rename_i hmask
    cases hd
    exact .inr ⟨not_not.1 hmask, rfl⟩

theorem dispatch_inv (h : CallInv op me fd s) {e : EpollEntry ι} (he : s.epoller.interest fd = some e)
    {revents : Events} {r : ρ} (hd : dispatch op me s revents r = some s') : CallInv op me fd s' := by
  obtain ⟨hen, hp, he'⟩ := h.parked_of_entry he
  have hinv : ∀ ctx, CallInv op me fd (s.reported me revents ctx) := fun ctx =>
    h.parked hen hp he' revents ctx
  rcases dispatch_cases h hd with ⟨-, ctx, b, -, rfl⟩ | ⟨-, rfl⟩
  · cases b with
    | true => exact resume_inv (hinv ctx) hen hp he'
    | false => exact hinv ctx
  · exact hinv s.ctx

/-- **Every step keeps the call in one of its stages.** -/
theorem step_inv (h : CallInv op me fd s) {l : IoLabel ι ρ} (hstep : step op me s l = some s') :
    CallInv op me fd s' := by
  cases l with
  | enable =>
    simp only [step] at hstep
    split at hstep
    · cases hstep
    · rename_i hen
      cases hstep
      exact enable_inv h (by simpa using hen)
  | dispatch revents r =>
    simp only [step, h.fd_eq] at hstep
    split at hstep
    · rename_i e he
      split at hstep
      · exact dispatch_inv h he hstep
      · cases hstep
    · cases hstep
  | other epoller =>
    simp only [step] at hstep
    split at hstep
    · rename_i hsame
      obtain ⟨hitem, hentry⟩ := hsame
      cases hstep
      rw [h.fd_eq] at hentry
      refine ⟨by rw [hitem]; exact h.fd_eq, fun c => by rw [hitem]; exact h.callbacks c, ?_⟩
      cases h.stage with
      | made hen hev hw he hp =>
        exact .made hen (by rw [hitem]; exact hev) (by rw [hitem]; exact hw) (hentry.trans he) hp
      | parked hen hev hw he hp =>
        exact .parked hen (by rw [hitem]; exact hev) (by rw [hitem]; exact hw) (hentry.trans he) hp
      | resumed hen he hp => exact .resumed hen (hentry.trans he) hp
    · cases hstep

/-- **What one step does to the context**: if the handler runs, on the outcome `r`, the call was
parked and the handler decides whether it is pushed; otherwise nothing. -/
theorem step_outcome (h : CallInv op me fd s) {l : IoLabel ι ρ} (hstep : step op me s l = some s') :
    match l.outcome op.direction with
    | none => s'.ctx = s.ctx ∧ s'.pushes.isEmpty = s.pushes.isEmpty
    | some r => s.pushes = [] ∧ op.handler s.ctx r = some (s'.ctx, !s'.pushes.isEmpty) := by
  cases l with
  | enable =>
    simp only [step] at hstep
    split at hstep
    · cases hstep
    · cases hstep
      exact ⟨rfl, rfl⟩
  | other epoller =>
    simp only [step] at hstep
    split at hstep
    · cases hstep
      exact ⟨rfl, rfl⟩
    · cases hstep
  | dispatch revents r =>
    simp only [step, h.fd_eq] at hstep
    split at hstep
    · rename_i e he
      split at hstep
      · obtain ⟨hen, hp, he'⟩ := h.parked_of_entry he
        rcases dispatch_cases h hstep with ⟨hmask, ctx, b, hhandler, rfl⟩ | ⟨hmask, rfl⟩
        · simp only [IoLabel.outcome, if_pos hmask]
          refine ⟨hp, ?_⟩
          rw [hhandler]
          cases b with
          | true => simp [resume, reported, hp]
          | false => simp [reported, hp]
        · simp only [IoLabel.outcome, hmask, ne_eq, not_true_eq_false, if_false]
          exact ⟨rfl, rfl⟩
      · cases hstep
    · cases hstep

/-- **Any blocking call pushes its coroutine at most once and only after deregistering.** -/
theorem run_resumedOnce (op : IoOp σ ρ) (me : ι) (fd : Int) (ctx : σ) (epoller : SmartEPoller ι)
    (ls : List (IoLabel ι ρ)) (hrun : Transition.exec (step op me) (start op me fd ctx epoller) ls = some s) :
    ResumedOnce s :=
  (Transition.exec_invariant (P := CallInv op me fd) (fun _ _ _ h hstep => step_inv h hstep) ls
    (start_inv op me fd ctx epoller) hrun).resumedOnce

/-- What every run of a call must satisfy, whatever its descriptor and the environment do. -/
def ResumesOnce (op : IoOp σ ρ) (me : ι) (ctx : σ) : Prop :=
  ∀ (fd : Int) (epoller : SmartEPoller ι) (ls : List (IoLabel ι ρ)) (s : IoCall ι σ),
    Transition.exec (step op me) (start op me fd ctx epoller) ls = some s → ResumedOnce s

end IoCall

/-- **The five calls**: the coroutine is pushed on a queue at most once; at that push the item has
`events_ = 0`, `watching_ = false` and no kernel entry; the context stays as it is from then on. -/
theorem blockingCalls_resumedOnce (me : ι) (fd : Int) (buf : Nat → UInt8) (count : Nat) (env : BufferEnv)
    (buffer : DynamicBuffer) (delim : List UInt8) :
    IoCall.ResumesOnce smartRead me (.new fd buf count) ∧
      IoCall.ResumesOnce smartWrite me (.new fd buf count) ∧
      IoCall.ResumesOnce smartAccept me (.new fd) ∧
      IoCall.ResumesOnce smartConnect me (.new fd) ∧
      IoCall.ResumesOnce (smartReadUntil env) me (.new fd buffer delim) :=
  ⟨fun fd epoller ls _ h => IoCall.run_resumedOnce _ me fd _ epoller ls h,
    fun fd epoller ls _ h => IoCall.run_resumedOnce _ me fd _ epoller ls h,
    fun fd epoller ls _ h => IoCall.run_resumedOnce _ me fd _ epoller ls h,
    fun fd epoller ls _ h => IoCall.run_resumedOnce _ me fd _ epoller ls h,
    fun fd epoller ls _ h => IoCall.run_resumedOnce _ me fd _ epoller ls h⟩

/-- A read that finds nothing, then its byte. -/
theorem blockingCalls_resumedOnce_read : ∃ s,
    Transition.exec (IoCall.step smartRead ())
      (IoCall.start smartRead () 5 (.new 5 (fun _ => 0) 1) (SmartEPoller.fresh fun _ => 5))
      [.enable, .dispatch EPOLLIN ⟨none, EWOULDBLOCK⟩, .dispatch EPOLLIN ⟨some [7], 0⟩] = some s ∧
      s.pushes.length = 1 ∧ IoCall.ResumedOnce s := by
  have hruns : (Transition.exec (IoCall.step smartRead ())
      (IoCall.start smartRead () 5 (.new 5 (fun _ => 0) 1) (SmartEPoller.fresh fun _ => 5))
      [.enable, .dispatch EPOLLIN ⟨none, EWOULDBLOCK⟩, .dispatch EPOLLIN ⟨some [7], 0⟩]).map
        (fun s => s.pushes.length) = some 1 := by decide +kernel
  obtain ⟨s, hs, hlen⟩ := Option.map_eq_some_iff.1 hruns
  exact ⟨s, hs, hlen, (blockingCalls_resumedOnce () 5 (fun _ => 0) 1 DynamicBuffer.defaultEnv
    (.new DynamicBuffer.defaultEnv 64 64) [10]).1 5 _ _ s hs⟩

end

end SmartRoutine
