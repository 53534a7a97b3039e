import SmartRoutine.IoCall

/-!
# Registration, step by step

A worker registers the item of a call (`enable_reading`, `enable_writing`) while the epoller
thread may already be told of an event and disable the item again.  Both run `watch_event`, which
is taken apart here: the test of `watching_`, the `epoll_ctl` and the change of `watching_` are
steps of their own, and the two threads interleave arbitrarily.

* `watchStep_iterate` — run without interruption the steps are `watchEvent`.
* `register_enable`, `workerStep_register` — the worker's steps up to `epoll_ctl`, taken together.
* `run_deregistered` — a coroutine is pushed with its item out of the interest set whenever the
  epoller tests `watching_` only **after** the worker has set it; a run in which it tests earlier
  pushes, by the time the epoller waits again, with the entry still there.
* `report_overtakes_registration` — one that tests earlier.
-/

set_option autoImplicit false

namespace SmartRoutine

/-- Where a thread is in `watch_event`; what `epoll_ctl` is given has been read already. -/
inductive WatchPc where
  | isWatching
  | isDisabled
  | del
  | clearWatching
  | mod (events : Events)
  | add (events : Events)
  | setWatching
  | returned
  deriving DecidableEq, Repr

section

variable {ι : Type} [DecidableEq ι]

namespace SmartEPoller

/-- `epoll_ctl` for an item; the result is ignored. -/
def ctl (s : SmartEPoller ι) (op : EpollOp) (i : ι) (events : Events) : SmartEPoller ι :=
  { s with interest := (epollCtl s.interest op (s.items i).fd ⟨events, i⟩).2 }

/-- One step of `watch_event`. -/
def watchStep (s : SmartEPoller ι) (i : ι) : WatchPc → SmartEPoller ι × WatchPc
  | .isWatching => (s, if (s.items i).watching then .isDisabled else .add (s.items i).events)
  | .isDisabled => (s, if (s.items i).isDisabled then .del else .mod (s.items i).events)
  | .del => (s.ctl .del i 0, .clearWatching)
  | .clearWatching => (s.setItem i { s.items i with watching := false }, .returned)
  | .mod events => (s.ctl .mod i events, .returned)
  | .add events => (s.ctl .add i events, .setWatching)
  | .setWatching => (s.setItem i { s.items i with watching := true }, .returned)
  | .returned => (s, .returned)

omit [DecidableEq ι] in
/-- The result of `DEL` does not depend on the event it is given. -/
theorem epollCtl_del (interest : Int → Option (EpollEntry ι)) (fd : Int) (a b : EpollEntry ι) :
    epollCtl interest .del fd a = epollCtl interest .del fd b := by
  unfold epollCtl
  cases interest fd <;> rfl

/-- **Uninterrupted, the steps are `watchEvent`.** -/
theorem watchStep_iterate (s : SmartEPoller ι) (i : ι) :
    (fun p : SmartEPoller ι × WatchPc => p.1.watchStep i p.2)^[4] (s, .isWatching) =
      ((s.watchEvent i).1, .returned) := by
  simp only [Function.iterate_succ, Function.iterate_zero, Function.comp_apply, id_eq]
  cases hw : (s.items i).watching with
  | false => simp [watchStep, watchEvent, hw, ctl, setItem]
  | true =>
    cases hd : (s.items i).isDisabled with
    | false => simp [watchStep, watchEvent, hw, hd, ctl]
    | true =>
      simp only [watchStep, watchEvent, hw, hd, ctl, setItem, if_true]
      rw [epollCtl_del s.interest (s.items i).fd ⟨0, i⟩ ⟨(s.items i).events, i⟩]

@[simp] theorem watchStep_readyList (s : SmartEPoller ι) (i : ι) (pc : WatchPc) :
    (s.watchStep i pc).1.readyList = s.readyList := by
  cases pc <;> rfl

/-- `enable_reading` or `enable_writing` up to and with its `epoll_ctl`.  Until then no entry has
the item of a call, and nobody but the worker looks at it. -/
def register (s : SmartEPoller ι) (d : Direction) (i : ι) : SmartEPoller ι × WatchPc :=
  let item := s.items i
  let r := (s.setItem i { item with events := item.events ||| d.event }).watchStep i .isWatching
  r.1.watchStep i r.2

@[simp] theorem register_readyList (s : SmartEPoller ι) (d : Direction) (i : ι) :
    (s.register d i).1.readyList = s.readyList :=
  (watchStep_readyList ..).trans (watchStep_readyList ..)

/-- **With the steps that are left it is `enable`.** -/
theorem register_enable (s : SmartEPoller ι) (d : Direction) (i : ι) :
    (fun p : SmartEPoller ι × WatchPc => p.1.watchStep i p.2)^[2] (s.register d i) =
      (s.enable d i, .returned) := by
  rw [enable_eq]
  exact watchStep_iterate (s.setItem i { s.items i with events := (s.items i).events ||| d.event }) i

omit [DecidableEq ι] in
/-- `EPOLL_CTL_ADD` adds the entry it is given, or none. -/
theorem epollCtl_add {interest : Int → Option (EpollEntry ι)} {fd fd' : Int} {e e' : EpollEntry ι}
    (h : (epollCtl interest .add fd e).2 fd' = some e') : interest fd' = some e' ∨ fd' = fd ∧ e' = e := by
  cases hfd : interest fd with
  | some _ =>
    simp only [epollCtl, hfd] at h
    exact .inl h
  | none =>
    simp only [epollCtl, hfd] at h
    by_cases hf : fd' = fd
    · rw [hf, Function.update_self] at h
      exact .inr ⟨hf, (Option.some.inj h).symm⟩
    · rw [Function.update_of_ne hf] at h
      exact .inl h

/-- What registering does to an item that is not registered. -/
theorem register_unwatched {s : SmartEPoller ι} {i : ι} (d : Direction)
    (hw : (s.items i).watching = false) : (s.register d i).2 = .setWatching ∧
      (s.register d i).1.items =
        Function.update s.items i { s.items i with events := (s.items i).events ||| d.event } ∧
      (s.register d i).1.interest =
        (epollCtl s.interest .add (s.items i).fd ⟨(s.items i).events ||| d.event, i⟩).2 := by
  simp [register, watchStep, setItem, hw, ctl]

/-! ## One item in the epoller -/

/-- The item's descriptor, wanted events and flag, and the kernel's entry for the descriptor. -/
structure ItemIs (s : SmartEPoller ι) (i : ι) (fd : Int) (events : Events) (watching : Bool)
    (entry : Option (EpollEntry ι)) : Prop where
  fd_eq : (s.items i).fd = fd
  events_eq : (s.items i).events = events
  watching_eq : (s.items i).watching = watching
  entry_eq : s.interest fd = entry

variable {s s' : SmartEPoller ι} {i : ι} {fd : Int} {events : Events} {watching : Bool}
  {entry : Option (EpollEntry ι)}

theorem ItemIs.setItem (h : ItemIs s i fd events watching entry) {item : EPollItem} {events' : Events}
    {watching' : Bool} (hfd : item.fd = fd) (hev : item.events = events')
    (hw : item.watching = watching') : ItemIs (s.setItem i item) i fd events' watching' entry := by
  have hitem : (s.setItem i item).items i = item := Function.update_self ..
  exact ⟨by rw [hitem, hfd], by rw [hitem, hev], by rw [hitem, hw], h.entry_eq⟩

omit [DecidableEq ι] in
theorem ItemIs.ctl_add (h : ItemIs s i fd events watching none) (ev : Events) :
    ItemIs (s.ctl .add i ev) i fd events watching (some ⟨ev, i⟩) := by
  refine ⟨h.fd_eq, h.events_eq, h.watching_eq, ?_⟩
  simp only [ctl, epollCtl, h.fd_eq, h.entry_eq, Function.update_self]

omit [DecidableEq ι] in
/-- `EEXIST`. -/
theorem ItemIs.ctl_add_taken {e : EpollEntry ι} (h : ItemIs s i fd events watching (some e)) (ev : Events) :
    ItemIs (s.ctl .add i ev) i fd events watching (some e) := by
  refine ⟨h.fd_eq, h.events_eq, h.watching_eq, ?_⟩
  simp only [ctl, epollCtl, h.fd_eq, h.entry_eq]

omit [DecidableEq ι] in
theorem ItemIs.ctl_del {e : EpollEntry ι} (h : ItemIs s i fd events watching (some e)) :
    ItemIs (s.ctl .del i 0) i fd events watching none := by
  refine ⟨h.fd_eq, h.events_eq, h.watching_eq, ?_⟩
  simp only [ctl, epollCtl, h.fd_eq, h.entry_eq, Function.update_self]

omit [DecidableEq ι] in
/-- What touches neither the item nor its descriptor. -/
theorem ItemIs.congr (h : ItemIs s i fd events watching entry) (hitem : s'.items i = s.items i)
    (hentry : s'.interest fd = s.interest fd) : ItemIs s' i fd events watching entry :=
  ⟨by rw [hitem]; exact h.fd_eq, by rw [hitem]; exact h.events_eq, by rw [hitem]; exact h.watching_eq,
    hentry.trans h.entry_eq⟩

end SmartEPoller

/-! ## The two threads -/

/-- The worker before and in the deferred `enable_epoll_*`. -/
inductive WorkerPc where
  | parked
  | updating (pc : WatchPc)
  deriving DecidableEq, Repr

/-- The epoller thread as far as the item is concerned: a report has been taken (`handling`), the
handler resumes the coroutine (`resuming`), `disable_*` runs `watch_event` (`disabling`). -/
inductive EpollerPc where
  | waiting
  | handling
  | resuming
  | disabling (pc : WatchPc)
  deriving DecidableEq, Repr

structure Registration (ι σ : Type) where
  epoller : SmartEPoller ι
  ctx : σ
  worker : WorkerPc
  thread : EpollerPc
  /-- Pushes of the coroutine on a queue. -/
  pushes : List (Push ι σ)

inductive RegLabel (ι ρ : Type) where
  /-- The worker's next step. -/
  | worker
  /-- `epoll_wait` reports the item. -/
  | report (revents : Events)
  /-- The callback of the item, if `handle_events` calls it; `r` is the outcome of its system call. -/
  | handle (r : ρ)
  /-- The next step of `resume_read_coro` or `resume_write_coro`. -/
  | resume
  /-- Anything that touches neither the item nor its descriptor. -/
  | other (epoller : SmartEPoller ι)

namespace Registration

variable {σ ρ : Type}

def workerStep (op : IoOp σ ρ) (me : ι) (s : Registration ι σ) : Option (Registration ι σ) :=
  let item := s.epoller.items me
  match s.worker with
  | .parked =>
    some { s with
      epoller := s.epoller.setItem me { item with events := item.events ||| op.direction.event }
      worker := .updating .isWatching }
  | .updating .returned => none
  | .updating pc =>
    let r := s.epoller.watchStep me pc
    some { s with epoller := r.1, worker := .updating r.2 }

/-- The worker's first steps, taken together. -/
theorem workerStep_register (op : IoOp σ ρ) (me : ι) (s : Registration ι σ) (hw : s.worker = .parked) :
    ((workerStep op me s).bind (workerStep op me)).bind (workerStep op me) = some { s with
      epoller := (s.epoller.register op.direction me).1
      worker := .updating (s.epoller.register op.direction me).2 } := by
  cases hwatch : (s.epoller.items me).watching <;>
    simp [workerStep, hw, SmartEPoller.register, SmartEPoller.watchStep, SmartEPoller.setItem, hwatch]

/-- A report can come as soon as the kernel holds the item's entry. -/
def report (me : ι) (s : Registration ι σ) (revents : Events) : Option (Registration ι σ) :=
  let item := s.epoller.items me
  match s.thread, s.epoller.interest item.fd with
  | .waiting, some e =>
    if e.ptr = me then
      some { s with epoller := s.epoller.setItem me { item with revents := revents }, thread := .handling }
    else none
  | _, _ => none

def handle (op : IoOp σ ρ) (me : ι) (s : Registration ι σ) (r : ρ) : Option (Registration ι σ) :=
  if s.thread = .handling then
    if op.direction.callback ∈ (s.epoller.items me).handleEvents then
      match op.handler s.ctx r with
      | none => none
      | some (ctx, true) => some { s with ctx := ctx, thread := .resuming }
      | some (ctx, false) => some { s with ctx := ctx, thread := .waiting }
    else some { s with thread := .waiting }
  else none

def resumeStep (op : IoOp σ ρ) (me : ι) (s : Registration ι σ) : Option (Registration ι σ) :=
  let item := s.epoller.items me
  match s.thread with
  | .resuming =>
    some { s with
      epoller := s.epoller.setItem me { item with events := item.events &&& ~~~op.direction.event }
      thread := .disabling .isWatching }
  | .disabling .returned =>
    some { s with
      thread := .waiting
      pushes := s.pushes ++ [⟨item, s.epoller.interest item.fd, s.ctx⟩] }
  | .disabling pc =>
    let r := s.epoller.watchStep me pc
    some { s with epoller := r.1, thread := .disabling r.2 }
  | _ => none

def step (op : IoOp σ ρ) (me : ι) (s : Registration ι σ) : RegLabel ι ρ → Option (Registration ι σ)
  | .worker => workerStep op me s
  | .report revents => report me s revents
  | .handle r => handle op me s r
  | .resume => resumeStep op me s
  | .other epoller =>
    if epoller.items me = s.epoller.items me ∧
        epoller.interest (s.epoller.items me).fd = s.epoller.interest (s.epoller.items me).fd then
      some { s with epoller := epoller }
    else none

/-- The call has made its item and its context; its descriptor is used by no other item. -/
def start (op : IoOp σ ρ) (me : ι) (fd : Int) (ctx : σ) (epoller : SmartEPoller ι) : Registration ι σ where
  epoller :=
    { epoller.setItem me (.forCall fd op.direction) with
      interest := Function.update epoller.interest fd none }
  ctx := ctx
  worker := .parked
  thread := .waiting
  pushes := []

/-- Whenever the coroutine was made runnable, the interest set held no entry for its item. -/
def Deregistered (me : ι) (s : Registration ι σ) : Prop :=
  ∀ p ∈ s.pushes, ∀ e ∈ p.entry, e.ptr ≠ me

instance (me : ι) (s : Registration ι σ) : Decidable (Deregistered me s) :=
  inferInstanceAs (Decidable (∀ p ∈ s.pushes, ∀ e ∈ p.entry, e.ptr ≠ me))

/-- The epoller tests `watching_` only after the worker has set it. -/
def testsAfterSet (s : Registration ι σ) : RegLabel ι ρ → Bool
  | .resume => s.thread ≠ .disabling .isWatching || s.worker = .updating .returned
  | _ => true

open SmartEPoller

/-! ## Phases -/

/-- How far registration and dispatch have come, in a run that keeps the order. -/
inductive Phase (op : IoOp σ ρ) (me : ι) (fd : Int) (s : Registration ι σ) : Prop
  | made (hi : ItemIs s.epoller me fd 0 false none) (hw : s.worker = .parked) (ht : s.thread = .waiting)
      (hp : s.pushes = [])
  | registering (pc : WatchPc) (hpc : pc = .isWatching ∨ pc = .add op.direction.event)
      (hi : ItemIs s.epoller me fd op.direction.event false none)
      (hw : s.worker = .updating pc) (ht : s.thread = .waiting) (hp : s.pushes = [])
  /-- The kernel holds the entry; the flag may not be set yet. -/
  | registered (watching : Bool)
      (hi : ItemIs s.epoller me fd op.direction.event watching (some ⟨op.direction.event, me⟩))
      (hw : s.worker = .updating (if watching then .returned else .setWatching))
      (ht : s.thread = .waiting ∨ s.thread = .handling ∨ s.thread = .resuming) (hp : s.pushes = [])
  | cleared (watching : Bool) (hi : ItemIs s.epoller me fd 0 watching (some ⟨op.direction.event, me⟩))
      (hw : s.worker = .updating (if watching then .returned else .setWatching))
      (ht : s.thread = .disabling .isWatching) (hp : s.pushes = [])
  | deleting (pc : WatchPc) (hpc : pc = .isDisabled ∨ pc = .del)
      (hi : ItemIs s.epoller me fd 0 true (some ⟨op.direction.event, me⟩))
      (hw : s.worker = .updating .returned) (ht : s.thread = .disabling pc) (hp : s.pushes = [])
  | deleted (watching : Bool) (hi : ItemIs s.epoller me fd 0 watching none)
      (hw : s.worker = .updating .returned)
      (ht : s.thread = .disabling (if watching then .clearWatching else .returned)) (hp : s.pushes = [])
  | pushed (hi : ItemIs s.epoller me fd 0 false none) (hw : s.worker = .updating .returned)
      (ht : s.thread = .waiting) (hp : ∀ p ∈ s.pushes, p.entry = none)

variable {op : IoOp σ ρ} {me : ι} {fd : Int} {s s' : Registration ι σ}

omit [DecidableEq ι] in
theorem Phase.deregistered (h : Phase op me fd s) : Deregistered me s := by
  intro p hmem e he
  have hnone : ∀ p ∈ s.pushes, p.entry = none := by
    cases h with
    | pushed _ _ _ hp => exact hp
    | made _ _ _ hp | registering _ _ _ _ _ hp | registered _ _ _ _ hp | cleared _ _ _ _ hp
    | deleting _ _ _ _ _ hp | deleted _ _ _ _ hp => simp [hp]
  rw [hnone p hmem] at he
  cases he

theorem start_phase (op : IoOp σ ρ) (me : ι) (fd : Int) (ctx : σ) (epoller : SmartEPoller ι) :
    Phase op me fd (start op me fd ctx epoller) := by
  have hitem : (start op me fd ctx epoller).epoller.items me = .forCall fd op.direction :=
    Function.update_self ..
  refine .made ⟨?_, ?_, ?_, Function.update_self ..⟩ rfl rfl rfl
  · rw [hitem]; cases op.direction <;> rfl
  · rw [hitem]; cases op.direction <;> rfl
  · rw [hitem]; cases op.direction <;> rfl

theorem workerStep_phase (h : Phase op me fd s) (hstep : workerStep op me s = some s') :
    Phase op me fd s' := by
  unfold workerStep at hstep
  cases h with
  | made hi hw ht hp =>
    simp only [hw, Option.some.injEq] at hstep
    subst hstep
    refine .registering .isWatching (Or.inl rfl) ?_ rfl ht hp
    exact hi.setItem hi.fd_eq (by rw [hi.events_eq, Direction.set_event]) hi.watching_eq
  | registering pc hpc hi hw ht hp =>
    rcases hpc with rfl | rfl
    · simp only [hw, watchStep, hi.watching_eq, hi.events_eq, Option.some.injEq] at hstep
      subst hstep
      exact .registering _ (Or.inr rfl) hi rfl ht hp
    · simp only [hw, watchStep, Option.some.injEq] at hstep
      subst hstep
      exact .registered false (hi.ctl_add _) rfl (Or.inl ht) hp
  | registered watching hi hw ht hp =>
    cases watching with
    | true => simp [hw] at hstep
    | false =>
      simp only [hw, watchStep, Bool.false_eq_true, if_false, Option.some.injEq] at hstep
      subst hstep
      exact .registered true (hi.setItem hi.fd_eq hi.events_eq rfl) rfl ht hp
  | cleared watching hi hw ht hp =>
    cases watching with
    | true => simp [hw] at hstep
    | false =>
      simp only [hw, watchStep, Bool.false_eq_true, if_false, Option.some.injEq] at hstep
      subst hstep
      exact .cleared true (hi.setItem hi.fd_eq hi.events_eq rfl) rfl ht hp
  | deleting pc hpc hi hw ht hp => simp [hw] at hstep
  | deleted watching hi hw ht hp => simp [hw] at hstep
  | pushed hi hw ht hp => simp [hw] at hstep

/-- A report comes only while the entry is there. -/
theorem report_phase (h : Phase op me fd s) {revents : Events} (hstep : report me s revents = some s') :
    Phase op me fd s' := by
  unfold report at hstep
  dsimp only at hstep
  split at hstep
  · rename_i e hthread hentry
    split at hstep
    · cases hstep
      cases h with
      | made hi | registering _ _ hi | pushed hi => rw [hi.fd_eq, hi.entry_eq] at hentry; cases hentry
      | registered watching hi hw ht hp =>
        exact .registered watching (hi.setItem hi.fd_eq hi.events_eq hi.watching_eq) hw
          (Or.inr (Or.inl rfl)) hp
      | cleared _ _ _ ht | deleting _ _ _ _ ht | deleted _ _ _ ht => rw [hthread] at ht; cases ht
    · cases hstep
  · cases hstep

omit [DecidableEq ι] in
theorem handle_phase (h : Phase op me fd s) {r : ρ} (hstep : handle op me s r = some s') :
    Phase op me fd s' := by
  unfold handle at hstep
  split at hstep
  · rename_i hthread
    cases h with
    | registered watching hi hw ht hp =>
      split at hstep
      · split at hstep
        · cases hstep
        · cases hstep
          exact .registered watching hi hw (Or.inr (Or.inr rfl)) hp
        · cases hstep
          exact .registered watching hi hw (Or.inl rfl) hp
      · cases hstep
        exact .registered watching hi hw (Or.inl rfl) hp
    | made _ _ ht | registering _ _ _ _ ht | cleared _ _ _ ht | deleting _ _ _ _ ht | deleted _ _ _ ht
    | pushed _ _ ht => rw [hthread] at ht; cases ht
  · cases hstep

/-- **The dispatch deletes the entry before it pushes**, if it finds the flag set. -/
theorem resumeStep_phase (h : Phase op me fd s) (hafter : testsAfterSet s (.resume : RegLabel ι ρ) = true)
    (hstep : resumeStep op me s = some s') : Phase op me fd s' := by
  unfold resumeStep at hstep
  cases h with
  | made _ _ ht | registering _ _ _ _ ht | pushed _ _ ht => simp [ht] at hstep
  | registered watching hi hw ht hp =>
    rcases ht with ht | ht | ht
    · simp [ht] at hstep
    · simp [ht] at hstep
    · simp only [ht, Option.some.injEq] at hstep
      subst hstep
      have hclear : (s.epoller.items me).events &&& ~~~op.direction.event = 0 := by
        rw [hi.events_eq, Direction.clear_event]
      exact .cleared watching (hi.setItem hi.fd_eq hclear hi.watching_eq) hw rfl hp
  | cleared watching hi hw ht hp =>
    have hset : watching = true := by
      cases watching with
      | true => rfl
      | false => simp [testsAfterSet, ht, hw] at hafter
    subst hset
    simp only [ht, watchStep, hi.watching_eq, if_true, Option.some.injEq] at hstep
    subst hstep
    exact .deleting _ (Or.inl rfl) hi hw rfl hp
  | deleting pc hpc hi hw ht hp =>
    rcases hpc with rfl | rfl
    · simp only [ht, watchStep, EPollItem.isDisabled, hi.events_eq, Option.some.injEq] at hstep
      subst hstep
      exact .deleting _ (Or.inr rfl) hi hw rfl hp
    · simp only [ht, watchStep, Option.some.injEq] at hstep
      subst hstep
      exact .deleted true hi.ctl_del hw rfl hp
  | deleted watching hi hw ht hp =>
    cases watching with
    | true =>
      simp only [ht, watchStep, if_true, Option.some.injEq] at hstep
      subst hstep
      exact .deleted false (hi.setItem hi.fd_eq hi.events_eq rfl) hw rfl hp
    | false =>
      simp only [ht, Bool.false_eq_true, if_false, Option.some.injEq] at hstep
      subst hstep
      refine .pushed hi hw rfl ?_
      simp [hp, hi.fd_eq, hi.entry_eq]

omit [DecidableEq ι] in
theorem other_phase (h : Phase op me fd s) {epoller : SmartEPoller ι}
    (hitem : epoller.items me = s.epoller.items me)
    (hentry : epoller.interest fd = s.epoller.interest fd) :
    Phase op me fd { s with epoller := epoller } := by
  cases h with
  | made hi hw ht hp => exact .made (hi.congr hitem hentry) hw ht hp
  | registering pc hpc hi hw ht hp => exact .registering pc hpc (hi.congr hitem hentry) hw ht hp
  | registered watching hi hw ht hp => exact .registered watching (hi.congr hitem hentry) hw ht hp
  | cleared watching hi hw ht hp => exact .cleared watching (hi.congr hitem hentry) hw ht hp
  | deleting pc hpc hi hw ht hp => exact .deleting pc hpc (hi.congr hitem hentry) hw ht hp
  | deleted watching hi hw ht hp => exact .deleted watching (hi.congr hitem hentry) hw ht hp
  | pushed hi hw ht hp => exact .pushed (hi.congr hitem hentry) hw ht hp

omit [DecidableEq ι] in
theorem Phase.fd_eq (h : Phase op me fd s) : (s.epoller.items me).fd = fd := by
  cases h with
  | made hi | registering _ _ hi | registered _ hi | cleared _ hi | deleting _ _ hi | deleted _ hi
  | pushed hi => exact hi.fd_eq

/-- **Every step in the right order keeps the phases.** -/
theorem step_phase (h : Phase op me fd s) {l : RegLabel ι ρ} (hafter : testsAfterSet s l = true)
    (hstep : step op me s l = some s') : Phase op me fd s' := by
  cases l with
  | worker => exact workerStep_phase h hstep
  | report revents => exact report_phase h hstep
  | handle r => exact handle_phase h hstep
  | resume => exact resumeStep_phase h hafter hstep
  | other epoller =>
    simp only [step] at hstep
    split at hstep
    · rename_i hsame
      cases hstep
      rw [h.fd_eq] at hsame
      exact other_phase h hsame.1 hsame.2
    · cases hstep

/-! ## The order that fails -/

/-- The epoller has found the flag unset although the kernel holds the item's entry. -/
structure Overtaken (me : ι) (fd : Int) (s : Registration ι σ) : Prop where
  entry : ∃ ev w e, ItemIs s.epoller me fd ev w (some e) ∧ e.ptr = me
  worker : s.worker = .updating .setWatching ∨ s.worker = .updating .returned
  thread : (∃ ev, s.thread = .disabling (.add ev)) ∨ s.thread = .disabling .setWatching ∨
    s.thread = .disabling .returned

/-- A test that comes too early. -/
theorem early_overtaken (h : Phase op me fd s) {l : RegLabel ι ρ} (hearly : testsAfterSet s l = false)
    (hstep : step op me s l = some s') : Overtaken me fd s' := by
  cases l with
  | worker | report _ | handle _ | other _ => simp [testsAfterSet] at hearly
  | resume =>
    simp only [testsAfterSet, Bool.or_eq_false_iff, decide_eq_false_iff_not, not_not] at hearly
    obtain ⟨hthread, hworker⟩ := hearly
    simp only [step, resumeStep] at hstep
    cases h with
    | made _ _ ht | registering _ _ _ _ ht | pushed _ _ ht => rw [hthread] at ht; cases ht
    | registered _ _ _ ht => rw [hthread] at ht; rcases ht with ht | ht | ht <;> cases ht
    | deleting _ _ _ hw | deleted _ _ hw => exact absurd hw hworker
    | cleared watching hi hw ht =>
      cases watching with
      | true => exact absurd hw hworker
      | false =>
        simp only [ht, watchStep, hi.watching_eq, Bool.false_eq_true, if_false, Option.some.injEq] at hstep
        subst hstep
        exact ⟨⟨_, _, _, hi, rfl⟩, Or.inl hw, Or.inl ⟨_, rfl⟩⟩

/-- **The `ADD` of the dispatch fails, and the push finds the entry.** -/
theorem overtaken_step (h : Overtaken me fd s) {l : RegLabel ι ρ} (hstep : step op me s l = some s') :
    Overtaken me fd s' ∨ ¬ Deregistered me s' := by
  obtain ⟨⟨ev, w, e, hi, hptr⟩, hworker, hthread⟩ := h
  cases l with
  | worker =>
    simp only [step, workerStep] at hstep
    rcases hworker with hw | hw
    · simp only [hw, watchStep, Option.some.injEq] at hstep
      subst hstep
      exact Or.inl ⟨⟨_, _, e, hi.setItem hi.fd_eq rfl rfl, hptr⟩, Or.inr rfl, hthread⟩
    · simp [hw] at hstep
  | report revents =>
    simp only [step, report] at hstep
    rcases hthread with ⟨x, ht⟩ | ht | ht <;> simp [ht] at hstep
  | handle r =>
    simp only [step, handle] at hstep
    rcases hthread with ⟨x, ht⟩ | ht | ht <;> simp [ht] at hstep
  | resume =>
    simp only [step, resumeStep] at hstep
    rcases hthread with ⟨x, ht⟩ | ht | ht
    · simp only [ht, watchStep, Option.some.injEq] at hstep
      subst hstep
      exact Or.inl ⟨⟨_, _, e, hi.ctl_add_taken x, hptr⟩, hworker, Or.inr (Or.inl rfl)⟩
    · simp only [ht, watchStep, Option.some.injEq] at hstep
      subst hstep
      exact Or.inl ⟨⟨_, _, e, hi.setItem hi.fd_eq rfl rfl, hptr⟩, hworker, Or.inr (Or.inr rfl)⟩
    · simp only [ht, Option.some.injEq] at hstep
      subst hstep
      refine Or.inr fun hdereg => hdereg _ (List.mem_append_right _ List.mem_cons_self) e ?_ hptr
      rw [hi.fd_eq, hi.entry_eq]
      rfl
  | other epoller =>
    simp only [step] at hstep
    split at hstep
    · rename_i hsame
      cases hstep
      rw [hi.fd_eq] at hsame
      exact Or.inl ⟨⟨_, _, e, hi.congr hsame.1 hsame.2, hptr⟩, hworker, hthread⟩
    · cases hstep

/-- Pushes are never taken back. -/
theorem step_pushes {l : RegLabel ι ρ} (hstep : step op me s l = some s') : s.pushes ⊆ s'.pushes := by
  cases l with
  | worker =>
    simp only [step, workerStep] at hstep
    split at hstep <;> cases hstep <;> exact List.Subset.refl _
  | report revents =>
    simp only [step, report] at hstep
    split at hstep
    · split at hstep <;> cases hstep
      exact List.Subset.refl _
    · cases hstep
  | handle r =>
    simp only [step, handle] at hstep
    split at hstep
    · split at hstep
      · split at hstep <;> cases hstep <;> exact List.Subset.refl _
      · cases hstep; exact List.Subset.refl _
    · cases hstep
  | resume =>
    simp only [step, resumeStep] at hstep
    split at hstep <;> cases hstep
    · exact List.Subset.refl _
    · exact List.subset_append_left _ _
    · exact List.Subset.refl _
  | other epoller =>
    simp only [step] at hstep
    split at hstep <;> cases hstep
    exact List.Subset.refl _

/-- In a run that ends with the epoller waiting and nothing pushed too early, every test of the
flag came after its setting. -/
theorem guarded_of_deregistered (ls : List (RegLabel ι ρ)) (h : Phase op me fd s)
    (hrun : Transition.exec (step op me) s ls = some s') (hthread : s'.thread = .waiting)
    (hdereg : Deregistered me s') :
    Transition.Guarded (step op me) (fun s l => testsAfterSet s l = true) s ls := by
  have hend : ¬ (Overtaken me fd s' ∨ ¬ Deregistered me s') := by
    rintro (hover | hbad)
    · rcases hover.thread with ⟨x, ht⟩ | ht | ht <;> rw [hthread] at ht <;> cases ht
    · exact hbad hdereg
  refine Transition.Guarded.of_end (P := Phase op me fd) (E := fun _ _ => True)
    (D := fun t => Overtaken me fd t ∨ ¬ Deregistered me t) (fun _ _ _ h hl hs => step_phase h hl hs)
    (fun _ _ _ h hl hs => Or.inl (early_overtaken h (Bool.eq_false_iff.2 hl) hs))
    (fun t l t' ht _ hs => ?_) ls s s' h (Transition.guarded_of_mem ls s fun _ _ _ => trivial) hrun hend
  rcases ht with hover | hbad
  · exact overtaken_step hover hs
  · exact Or.inr fun hdereg => hbad fun p hp => hdereg p (step_pushes hs hp)

/-! ## Runs -/

/-- **Registration is not overtaken** in a run where the epoller tests `watching_` only after the
worker has set it, and only then: where the run has brought the epoller back to `epoll_wait`, every
test came after the setting if no push found the entry. -/
theorem run_deregistered (op : IoOp σ ρ) (me : ι) (fd : Int) (ctx : σ) (epoller : SmartEPoller ι)
    (ls : List (RegLabel ι ρ)) :
    (Transition.Guarded (step op me) (fun s l => testsAfterSet s l = true) (start op me fd ctx epoller) ls →
      Transition.Always (step op me) (Deregistered me) (start op me fd ctx epoller) ls) ∧
    ∀ s', Transition.exec (step op me) (start op me fd ctx epoller) ls = some s' → s'.thread = .waiting →
      Transition.Always (step op me) (Deregistered me) (start op me fd ctx epoller) ls →
      Transition.Guarded (step op me) (fun s l => testsAfterSet s l = true) (start op me fd ctx epoller) ls := by
  have hstart := start_phase op me fd ctx epoller
  constructor
  · intro hguard
    exact Transition.Always.mono (fun _ h => h.deregistered) ls _
      (Transition.always_of_guarded (fun _ _ _ h hg hs => step_phase h hg hs) ls _ hstart hguard)
  · intro s' hrun hthread halways
    have hend := Transition.always_iff_prefix.1 halways ls [] s' (List.append_nil _).symm hrun
    exact guarded_of_deregistered ls hstart hrun hthread hend

/-- A read of one byte from registration to the push. -/
theorem run_deregistered_read :
    Transition.Always (step smartRead ()) (Deregistered ())
      (start smartRead () 5 (.new 5 (fun _ => 0) 1) (SmartEPoller.fresh fun _ => 5))
      [.worker, .worker, .worker, .worker, .report EPOLLIN, .handle ⟨some [7], 0⟩,
        .resume, .resume, .resume, .resume, .resume, .resume] :=
  (run_deregistered smartRead () 5 _ _ _).1 (by decide +kernel)

/-- **The report arrives between `epoll_ctl` and `set_watching`**: the dispatch adds the item again
instead of deleting it. -/
theorem report_overtakes_registration :
    ¬ Transition.Always (step smartRead ()) (Deregistered ())
      (start smartRead () 5 (.new 5 (fun _ => 0) 1) (SmartEPoller.fresh fun _ => 5))
      [.worker, .worker, .worker, .report EPOLLIN, .handle ⟨some [7], 0⟩,
        .resume, .resume, .resume, .resume, .resume] := by
  decide +kernel

end Registration

end

end SmartRoutine
