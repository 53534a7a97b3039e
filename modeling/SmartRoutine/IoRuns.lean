import SmartRoutine.IoRuntime

/-!
# Runs of the scheduler with the epoller

* `run_composes` — a run is a run of the scheduler and a run of the event loop with its items, so
  what holds of their runs holds of it, and the coroutines the scheduler has parked are those whose
  calls the event loop has parked.
* `run_wakeable_iff` — every parked coroutine can be woken, in every state, exactly when no call is
  registered on a descriptor that has an entry.
* `run_wakes` — one pass of the event loop over such an entry runs the handler of the call once
  and, if it resumes, puts that coroutine and no other on the global list.

All three are about runs in which no handler overtakes a registration.
-/

set_option autoImplicit false

namespace SmartRoutine

/-! ## Registered calls -/

namespace Lifetime

variable {ι : Type} {σ τ : ι → Type} [DecidableEq ι] {op : ∀ i, IoOp (σ i) (τ i)}
  {s s' : Lifetime ι σ} {i : ι}

/-- The item of every parked call has the entry of its descriptor, for the event it waits for. -/
def Registered (op : ∀ i, IoOp (σ i) (τ i)) (s : Lifetime ι σ) : Prop :=
  ∀ i, s.owner i = .parked →
    s.epoller.interest (s.epoller.items i).fd = some ⟨(op i).direction.event, i⟩

/-- The descriptor of a call that is registered has no entry. -/
def descriptorFree (s : Lifetime ι σ) (made : Option ι) : Bool :=
  made.all fun i => (s.epoller.interest (s.epoller.items i).fd).isNone

omit [DecidableEq ι] in
theorem Registered.congr (h : Registered op s) (hinterest : s'.epoller.interest = s.epoller.interest)
    (hfd : ∀ i, (s'.epoller.items i).fd = (s.epoller.items i).fd)
    (howner : ∀ i, s'.owner i = .parked → s.owner i = .parked) : Registered op s' := by
  intro i hi
  rw [hinterest, hfd]
  exact h i (howner i hi)

omit [DecidableEq ι] in
/-- Parked calls have different descriptors. -/
theorem Registered.fd_ne (h : Registered op s) {j : ι} (hi : s.owner i = .parked)
    (hj : s.owner j = .parked) (hji : j ≠ i) : (s.epoller.items j).fd ≠ (s.epoller.items i).fd := by
  intro hfd
  have := (h j hj).symm.trans (hfd ▸ h i hi)
  exact hji (EpollEntry.mk.inj (Option.some.inj this)).2

theorem fd_update (items : ι → EPollItem) {i : ι} (item : EPollItem) (j : ι)
    (hfd : item.fd = (items i).fd) : (Function.update items i item j).fd = (items j).fd := by
  by_cases hji : j = i
  · subst hji
    rw [Function.update_self, hfd]
  · rw [Function.update_of_ne hji]

/-- Resuming a call leaves the others' entries. -/
theorem Registered.resume (h : Registered op s) (hinv : ItemsInv op s.epoller s.owner s.registering)
    (hi : s.owner i = .parked) (hdone : s.registering i = .returned) :
    Registered op (s.resume (op i).direction i) := by
  have hev := (hinv.parked i hi).1
  obtain ⟨hinterest, hitems⟩ := SmartEPoller.updateEvents_zero (hinv.watching_of_done hi hdone)
  intro j hj
  have hji : j ≠ i := by
    rintro rfl
    simp [Lifetime.resume, hi] at hj
  have hparked : s.owner j = .parked := by simpa [Lifetime.resume, hji] using hj
  show (s.epoller.disable (op i).direction i).interest
    ((s.epoller.disable (op i).direction i).items j).fd = _
  rw [SmartEPoller.disable_eq, hev, Direction.clear_event, hinterest, hitems,
    Function.update_of_ne hji, Function.update_of_ne (h.fd_ne hi hparked hji)]
  exact h j hparked

/-- **A call gets an entry of its own exactly when there is none on its descriptor.** -/
theorem Registered.register_iff (h : Registered op s)
    (hinv : ItemsInv op s.epoller s.owner s.registering) (hi : s.owner i = .made) :
    Registered op (s.register (op i).direction i) ↔
      (s.epoller.interest (s.epoller.items i).fd).isNone = true := by
  obtain ⟨hev, hw⟩ := hinv.made i hi
  obtain ⟨-, hitems, hinterest⟩ := SmartEPoller.register_unwatched (op i).direction hw
  rw [hev, Direction.set_event] at hitems hinterest
  have hfds : ∀ j, ((s.epoller.register (op i).direction i).1.items j).fd = (s.epoller.items j).fd :=
    fun j => by
      rw [hitems]
      exact fd_update _ _ j rfl
  unfold Registered Lifetime.register
  dsimp only
  simp only [hfds]
  cases hfd : s.epoller.interest (s.epoller.items i).fd with
  | none =>
    simp only [epollCtl, hfd] at hinterest
    refine iff_of_true (fun j hj => ?_) rfl
    rw [hinterest]
    by_cases hji : j = i
    · rw [hji, Function.update_self]
    · rw [Function.update_of_ne hji] at hj
      have hne : (s.epoller.items j).fd ≠ (s.epoller.items i).fd := fun e => by
        rw [← e, h j hj] at hfd
        cases hfd
      rw [Function.update_of_ne hne]
      exact h j hj
  | some e =>
    simp only [epollCtl, hfd] at hinterest
    -- the entry belongs to another call, which is parked
    refine iff_of_false (fun hall => ?_) Bool.false_ne_true
    have hown := hall i (Function.update_self ..)
    rw [hinterest, hfd] at hown
    have hptr := (hinv.entries _ _ hfd).2
    rw [Option.some.inj hown, hi] at hptr
    cases hptr

theorem Registered.callback (h : Registered op s) (hinv : ItemsInv op s.epoller s.owner s.registering)
    (hi : s.owner i = .parked) {r : τ i}
    (hdone : ∀ ctx, (op i).handler (s.ctx i) r = some (ctx, true) → s.registering i = .returned)
    (hcall : s.callback op i r = some s') : Registered op s' := by
  unfold Lifetime.callback at hcall
  split at hcall
  · cases hcall
  · rename_i ctx hhandler
    obtain rfl := Option.some.inj hcall
    exact Registered.resume (s := { s with ctx := _ }) h hinv hi (hdone ctx hhandler)
  · obtain rfl := Option.some.inj hcall
    exact h

theorem takeEvent_fd (epoller : SmartEPoller ι) (e : EpollEvent ι) :
    (takeEvent epoller e).interest = epoller.interest ∧
      ∀ i, ((takeEvent epoller e).items i).fd = (epoller.items i).fd := by
  unfold takeEvent
  split
  · exact ⟨rfl, fun j => fd_update _ _ j rfl⟩
  · exact ⟨rfl, fun _ => rfl⟩

/-- **One step**: parked calls stay registered exactly when the call that is registered, if one
is, finds its descriptor free. -/
theorem Moves.registered_iff {made : Option ι} (h : Moves op s made s') (hinv : LifeInv op s)
    (hreg : Registered op s) : Registered op s' ↔ s.descriptorFree made = true := by
  cases h with
  | stay => exact iff_of_true hreg rfl
  | move hkeep hstep =>
    cases step_turn hstep with
    | enable hi =>
      rw [LifeLabel.registers, descriptorFree, Option.all_some]
      exact hreg.register_iff hinv.items hi
    | @watch i hi =>
      refine iff_of_true ?_ rfl
      unfold Lifetime.watch
      rw [(hinv.items.registering_cases hi).2]
      exact hreg.congr rfl (fun j => fd_update _ _ j rfl) fun _ => id
    | @ret i hi =>
      refine iff_of_true (hreg.congr rfl (fun _ => rfl) fun j hj => ?_) rfl
      by_cases hji : j = i
      · subst hji
        simp at hj
      · exact (Function.update_of_ne hji ..).symm.trans hj
    | batch => exact iff_of_true (hreg.congr rfl (fun _ => rfl) fun _ => id) rfl
    | idle => exact iff_of_true (hreg.congr rfl (fun _ => rfl) fun _ => id) rfl
    | fail => exact iff_of_true (hreg.congr rfl (fun _ => rfl) fun _ => id) rfl
    | @loop r _ hturn =>
      refine iff_of_true ?_ rfl
      cases hturn with
      | taken | passed | item | handled | skip => exact hreg.congr rfl (fun _ => rfl) fun _ => id
      | take =>
        obtain ⟨hinterest, hfd⟩ := takeEvent_fd s.epoller _
        exact hreg.congr hinterest hfd fun _ => id
      | @call i c todo ready s' hpc hevent hc hcall =>
        have hdone : ∀ ctx, (op i).handler (s.ctx i) (r i) = some (ctx, true) →
            s.registering i = .returned :=
          fun _ hhandler => registering_of_call hkeep hpc hevent hc hhandler
        -- the item of a callback is parked
        have hpass := hinv.pass
        simp only [PassInv, hpc] at hpass
        rw [hinv.items.callbacks] at hc
        obtain rfl := of_decide_eq_true hc
        exact Registered.callback (s := { s with pc := .handling i todo ready }) hreg hinv.items
          (hpass.2.2.2.2 List.mem_cons_self) hdone hcall

end Lifetime

/-! ## Runs -/

namespace IoRuntime

variable {W : Type} {σ τ : Nat → Type} [DecidableEq W] {f : Flags} {op : ∀ i, IoOp (σ i) (τ i)}
  {x x' : IoRuntime W σ} {place : Nat → Place W}

/-- Coroutines finish where they were entered, calls return when the pass is done with them, and
handlers resume only calls whose items have been registered to the end. -/
def orderly (f : Flags) (op : ∀ i, IoOp (σ i) (τ i)) (x : IoRuntime W σ) (l : IoRuntimeLabel W τ) : Bool :=
  finishesHome x l && keepsItems f op x l

/-- Every parked coroutine waits for a call whose item is what `epoll_wait` reports for its
descriptor. -/
def Wakeable (op : ∀ i, IoOp (σ i) (τ i)) (x : IoRuntime W σ) : Prop :=
  ∀ c ∈ x.runtime.parked, ∃ i, x.call c = some i ∧ x.coro i = some c ∧
    x.life.epoller.interest (x.life.epoller.items i).fd = some ⟨(op i).direction.event, i⟩

theorem orderly_step {l : IoRuntimeLabel W τ} (h : ∃ place, Linked op x place)
    (hl : orderly f op x l = true) (hx' : step f op x l = some x') : (∃ place, Linked op x' place) ∧
      Schedules f x.runtime x'.runtime ∧
      Lifetime.Moves op x.life (registered x l) x'.life :=
  step_linked h (Bool.and_eq_true_iff.1 hl).1 (Bool.and_eq_true_iff.1 hl).2 hx'

theorem run_linked (hf : 0 < f.capacity) (fd : Nat → Int) (ctx : ∀ i, σ i)
    {ls : List (IoRuntimeLabel W τ)} (hrun : Transition.exec (step f op) (start f op fd ctx) ls = some x)
    (horderly : Transition.Guarded (step f op) (fun x l => orderly f op x l = true) (start f op fd ctx) ls) :
    ∃ place, Linked op x place :=
  Transition.exec_invariant_of_guarded (P := fun x => ∃ place, Linked op x place)
    (fun _ _ _ h hl hx => (orderly_step h hl hx).1) ls _ _
    ⟨_, start_linked hf fd ctx⟩ horderly hrun

/-- **A run is a run of the scheduler and a run of the event loop.**  The scheduler resumes a parked
coroutine when the handler of its call does, and not otherwise. -/
theorem run_composes (hf : 0 < f.capacity) (fd : Nat → Int) (ctx : ∀ i, σ i)
    {ls : List (IoRuntimeLabel W τ)} (hrun : Transition.exec (step f op) (start f op fd ctx) ls = some x)
    (horderly : Transition.Guarded (step f op) (fun x l => orderly f op x l = true) (start f op fd ctx) ls) :
    (∃ ss, run f ss = some x.runtime ∧ Transition.Guarded (SmartRoutine.step f)
        (fun s l => SmartRoutine.finishesHome s l = true) (.init f) ss) ∧
      (∃ ms, Transition.exec (Lifetime.step op) (.start op fd ctx) ms = some x.life ∧
        Transition.Guarded (Lifetime.step op) (fun s l => s.keepsItems op l = true) (.start op fd ctx) ms) ∧
      ∀ c, c ∈ x.runtime.parked ↔ ∃ i, x.call c = some i ∧ x.life.owner i = .parked := by
  have hstart : ∃ place, Linked op (start f op fd ctx : IoRuntime W σ) place := ⟨_, start_linked hf fd ctx⟩
  obtain ⟨-, hsched⟩ := Refinement.exec_maps (P := fun x => ∃ place, Linked op x place)
    (fun x : IoRuntime W σ => x.runtime)
    (fun _ _ _ h hl hx => ⟨(orderly_step h hl hx).1, (orderly_step h hl hx).2.1⟩)
    ls hstart horderly hrun
  obtain ⟨-, hlife⟩ := Refinement.exec_maps (P := fun x => ∃ place, Linked op x place)
    (fun x : IoRuntime W σ => x.life)
    (fun _ _ _ h hl hx => ⟨(orderly_step h hl hx).1, (orderly_step h hl hx).2.2.run⟩)
    ls hstart horderly hrun
  obtain ⟨place, h⟩ := run_linked hf fd ctx hrun horderly
  exact ⟨hsched, hlife, h.parked⟩

/-- A runtime with one worker whose calls are reads of one byte from descriptor 5. -/
def reader : IoRuntime Unit fun _ => ReadContext :=
  start ⟨8, 4⟩ (fun _ => smartRead) (fun _ => 5) fun _ => .new 5 (fun _ => 0) 1

/-- A coroutine is started, makes its call and is parked. -/
def parkedRead : List (IoRuntimeLabel Unit fun _ => ReadResult) :=
  [.externalStart, .worker () .advance, .worker () .advance, .call (), .worker () .advance,
    .worker () .advance, .setWatching ()]

/-- A byte arrives, and the call returns. -/
def returnedRead : List (IoRuntimeLabel Unit fun _ => ReadResult) :=
  parkedRead ++ .epoller (.batch [(5, EPOLLIN)]) ::
    List.replicate 9 (.epoller (.loop fun _ => ⟨some [7], 0⟩)) ++ [.worker () .advance]

theorem run_composes_read : ∃ x, Transition.exec (step ⟨8, 4⟩ fun _ => smartRead) reader returnedRead = some x ∧
    x.life.owner 0 = .returned ∧ (∃ ss, run ⟨8, 4⟩ ss = some x.runtime) ∧
    ∀ c, c ∈ x.runtime.parked ↔ ∃ i, x.call c = some i ∧ x.life.owner i = .parked := by
  obtain ⟨x, hx, ho⟩ := (Option.any_eq_true ..).1 (show
    (Transition.exec (step ⟨8, 4⟩ fun _ => smartRead) reader returnedRead).any
      (fun x => x.life.owner 0 = .returned) = true by decide +kernel)
  obtain ⟨⟨ss, hss, -⟩, -, hparked⟩ := run_composes (by decide) _ _ hx (by decide +kernel)
  exact ⟨x, hx, of_decide_eq_true ho, ⟨ss, hss⟩, hparked⟩

theorem Linked.wakeable_iff (h : Linked op x place) : Wakeable op x ↔ Lifetime.Registered op x.life := by
  constructor
  · intro hw i hi
    obtain ⟨c, hc⟩ := h.waits i (.inl hi)
    obtain ⟨j, hj, -, hentry⟩ := hw c ((h.parked c).2 ⟨i, hc, hi⟩)
    obtain rfl := Option.some.inj (hc.symm.trans hj)
    exact hentry
  · intro hr c hc
    obtain ⟨i, hi, ho⟩ := (h.parked c).1 hc
    exact ⟨i, hi, (h.call c i hi).2, hr i ho⟩

/-- **Every parked coroutine can be woken throughout a run, exactly when every call that is
registered finds its descriptor without an entry.** -/
theorem run_wakeable_iff (hf : 0 < f.capacity) (fd : Nat → Int) (ctx : ∀ i, σ i)
    {ls : List (IoRuntimeLabel W τ)}
    (horderly : Transition.Guarded (step f op) (fun x l => orderly f op x l = true) (start f op fd ctx) ls) :
    Transition.Always (step f op) (Wakeable op) (start f op fd ctx) ls ↔
      Transition.Guarded (step f op) (fun x l => x.life.descriptorFree (registered x l) = true)
        (start f op fd ctx) ls := by
  refine Transition.always_iff_guarded_within (J := fun x => ∃ place, Linked op x place)
    (fun _ _ _ h hl hx => (orderly_step h hl hx).1) ?_ ls _ ⟨_, start_linked hf fd ctx⟩ nofun horderly
  intro x l x' h hw hl hx
  obtain ⟨⟨place', h'⟩, -, hmoves⟩ := orderly_step h hl hx
  obtain ⟨place, h⟩ := h
  rw [h'.wakeable_iff]
  exact hmoves.registered_iff h.items (h.wakeable_iff.1 hw)

theorem run_wakeable_iff_read :
    Transition.Always (step ⟨8, 4⟩ fun _ => smartRead) (Wakeable fun _ => smartRead) reader returnedRead :=
  (run_wakeable_iff (by decide) _ _ (by decide +kernel)).2 (by decide +kernel)

/-! ## One pass of the event loop -/

/-- The tests of `handle_events` before and after the one that concerns a call. -/
theorem Direction.tests (d : Direction) : ∃ before after,
    [Callback.close, .error, .read, .write] = before ++ d.callback :: after ∧
      (∀ c ∈ before, c ≠ d.callback) ∧ (∀ c ∈ after, c ≠ d.callback) ∧
      before.length + after.length = 3 := by
  cases d with
  | reading => exact ⟨[.close, .error], [.write], rfl, by decide, by decide, rfl⟩
  | writing => exact ⟨[.close, .error, .read], [], rfl, by decide, by decide, rfl⟩

theorem Direction.mask (d : Direction) : d.event &&& d.callback.mask ≠ 0 := by cases d <;> decide

/-- A step of the loop that resumes nothing. -/
theorem loop_step {life : Lifetime Nat σ} {r : ∀ i, τ i} (hstep : x.life.loopStep op r = some life)
    (hr : x.life.resumes op r = none) :
    step f op x (.epoller (.loop r)) = some { x with life := life } := by
  rw [step, hstep, Option.map_some, hr]

/-- The tests that do not concern the call are passed over. -/
theorem loop_skips (s : Lifetime Nat σ) (r : ∀ i, τ i) {i : Nat} (ready : List Nat) (after : List Callback)
    (hcallbacks : ∀ c, (s.epoller.items i).callback c = decide (c = (op i).direction.callback)) :
    ∀ before : List Callback, (∀ c ∈ before, c ≠ (op i).direction.callback) →
      Transition.exec (step f op) { x with life := { s with pc := .handling i (before ++ after) ready } }
        (List.replicate before.length (.epoller (.loop r))) =
          some { x with life := { s with pc := .handling i after ready } }
  | [], _ => rfl
  | c :: before, hne => by
    have hno : (s.epoller.items i).callback c = false := by
      rw [hcallbacks]
      exact decide_eq_false (hne c List.mem_cons_self)
    rw [List.length_cons, List.replicate_succ, Transition.exec_cons (loop_step ?_ ?_)]
    · exact loop_skips s r ready after hcallbacks before fun c hc => hne c (List.mem_cons_of_mem _ hc)
    · simp [Lifetime.loopStep, hno]
    · simp [Lifetime.resumes, hno]

/-- The entry of `i` is reported and taken. -/
def taken (s : Lifetime Nat σ) (op : ∀ i, IoOp (σ i) (τ i)) (i : Nat) : Lifetime Nat σ :=
  { s with epoller := takeEvent { s.epoller with readyList := [] } ⟨(op i).direction.event, some i⟩ }

/-- What the handler makes of that. -/
def handled (s : Lifetime Nat σ) (op : ∀ i, IoOp (σ i) (τ i)) (i : Nat) (ctx : σ i) (resumed : Bool) :
    Lifetime Nat σ :=
  let s := { taken s op i with ctx := Function.update s.ctx i ctx }
  if resumed then s.resume (op i).direction i else s

/-- With the coroutine of the call pushed. -/
def woken (x : IoRuntime W σ) (op : ∀ i, IoOp (σ i) (τ i)) (i : Nat) (ctx : σ i) (resumed : Bool) :
    IoRuntime W σ :=
  let y := { x with life := handled x.life op i ctx resumed }
  if resumed then y.resume i else y

theorem pass_begins (hpc : x.life.pc = .waiting) {i : Nat}
    (hentry : x.life.epoller.interest (x.life.epoller.items i).fd = some ⟨(op i).direction.event, i⟩)
    (r : ∀ i, τ i) :
    Transition.exec (step f op) x
      (.epoller (.batch [((x.life.epoller.items i).fd, (op i).direction.event)]) ::
        List.replicate 3 (.epoller (.loop r))) = some { x with life := { taken x.life op i with
          pc := .handling i [.close, .error, .read, .write] [] } } := by
  have hbatch : step f op x (.epoller (.batch [((x.life.epoller.items i).fd, (op i).direction.event)])) =
      some { x with life := { x.life with
        epoller := { x.life.epoller with readyList := [] }
        pc := .taking [⟨(op i).direction.event, some i⟩] } } := by
    simp [step, Lifetime.step, hpc, hentry, Lifetime.event]
  rw [Transition.exec_cons hbatch]
  rfl

theorem pass_calls {s : Lifetime Nat σ} {i : Nat} (after : List Callback) {r : ∀ i, τ i} {ctx : σ i}
    {resumed : Bool} (hrevents : (s.epoller.items i).revents = (op i).direction.event)
    (hcallback : (s.epoller.items i).callback (op i).direction.callback = true)
    (hhandler : (op i).handler (s.ctx i) (r i) = some (ctx, resumed)) :
    step f op { x with life := { s with pc := .handling i ((op i).direction.callback :: after) [] } }
        (.epoller (.loop r)) =
      let s := { s with ctx := Function.update s.ctx i ctx, pc := .handling i after [] }
      some (if resumed then resume { x with life := s.resume (op i).direction i } i
        else { x with life := s }) := by
  have hcond : ((s.epoller.items i).revents &&& (op i).direction.callback.mask ≠ 0 &&
      (s.epoller.items i).callback (op i).direction.callback) = true := by
    rw [hrevents, hcallback, Bool.and_true]
    exact decide_eq_true (Direction.mask _)
  have hstep : Lifetime.loopStep op
      { s with pc := .handling i ((op i).direction.callback :: after) [] } r =
      Lifetime.callback op { s with pc := .handling i after [] } i (r i) := by
    unfold Lifetime.loopStep
    dsimp only
    rw [if_pos hcond]
  have hresumes : Lifetime.resumes op
      { s with pc := .handling i ((op i).direction.callback :: after) [] } r =
      if resumed then some i else none := by
    unfold Lifetime.resumes
    dsimp only
    rw [if_pos hcond, hhandler]
    cases resumed <;> rfl
  rw [step]
  dsimp only
  rw [hstep, hresumes, Lifetime.callback]
  dsimp only
  rw [hhandler]
  cases resumed <;> rfl

theorem pass_ends (x : IoRuntime W σ) (s : Lifetime Nat σ) (i : Nat) (r : ∀ i, τ i) :
    Transition.exec (step f op) { x with life := { s with pc := .handling i [] [] } }
      (List.replicate 2 (.epoller (.loop r))) = some { x with life := { s with pc := .waiting } } :=
  rfl

/-- **The pass**: the entry is reported and taken, and its handler is run once. -/
theorem pass_exec (h : Lifetime.LifeInv op x.life) (hpc : x.life.pc = .waiting) {i : Nat}
    (hentry : x.life.epoller.interest (x.life.epoller.items i).fd = some ⟨(op i).direction.event, i⟩)
    {r : ∀ i, τ i} {ctx : σ i} {resumed : Bool}
    (hhandler : (op i).handler (x.life.ctx i) (r i) = some (ctx, resumed))
    (hdone : resumed = true → x.life.registering i = .returned) :
    Transition.exec (step f op) x
      (.epoller (.batch [((x.life.epoller.items i).fd, (op i).direction.event)]) ::
        List.replicate 9 (.epoller (.loop r))) = some (woken x op i ctx resumed) := by
  obtain ⟨before, after, htests, hbefore, hafter, hlen⟩ := Direction.tests (op i).direction
  have hsplit : (.epoller (.batch [((x.life.epoller.items i).fd, (op i).direction.event)]) ::
        List.replicate 9 (.epoller (.loop r)) : List (IoRuntimeLabel W τ)) =
      (.epoller (.batch [((x.life.epoller.items i).fd, (op i).direction.event)]) ::
        List.replicate 3 (.epoller (.loop r))) ++ (List.replicate before.length (.epoller (.loop r)) ++
        (.epoller (.loop r) :: (List.replicate after.length (.epoller (.loop r)) ++
          List.replicate 2 (.epoller (.loop r))))) := by
    rw [← List.replicate_add, ← List.replicate_succ, ← List.replicate_add, List.cons_append,
      ← List.replicate_add]
    congr 2
    omega
  have htaken : Lifetime.ItemsInv op (taken x.life op i).epoller x.life.owner x.life.registering := by
    refine h.items.congr rfl fun j => ?_
    by_cases hji : j = i
    · subst hji
      exact ⟨(op j).direction.event, by simp [taken, takeEvent, SmartEPoller.setItem]⟩
    · exact ⟨(x.life.epoller.items j).revents, by simp [taken, takeEvent, SmartEPoller.setItem, hji]⟩
  have hrevents : ((taken x.life op i).epoller.items i).revents = (op i).direction.event := by
    simp [taken, takeEvent, SmartEPoller.setItem]
  have hcall := pass_calls (x := x) (f := f) after hrevents
    (by rw [htaken.callbacks]; exact decide_eq_true rfl)
    (show (op i).handler ((taken x.life op i).ctx i) (r i) = some (ctx, resumed) from hhandler)
  rw [hsplit, Transition.exec_append, pass_begins hpc hentry r, Option.bind_some, htests,
    Transition.exec_append, loop_skips (taken x.life op i) r _ _ (htaken.callbacks i) _ hbefore,
    Option.bind_some, Transition.exec_cons hcall]
  -- the tests that are left, and the end of the pass
  have hend (y : IoRuntime W σ) (s : Lifetime Nat σ) (hs : s.pc = .waiting)
      (hcallbacks : ∀ c, (s.epoller.items i).callback c = decide (c = (op i).direction.callback)) :
      Transition.exec (step f op) { y with life := { s with pc := .handling i after [] } }
        (List.replicate after.length (.epoller (.loop r)) ++ List.replicate 2 (.epoller (.loop r))) =
          some { y with life := s } := by
    have hskip := loop_skips (x := y) (f := f) s r [] [] hcallbacks after hafter
    rw [List.append_nil] at hskip
    rw [Transition.exec_append, hskip, Option.bind_some, pass_ends, ← hs]
  cases resumed with
  | false => exact hend x (handled x.life op i ctx false) hpc (htaken.callbacks i)
  | true =>
    have hparked : x.life.owner i = .parked := (h.items.entries _ _ hentry).2
    have hresume (life : Lifetime Nat σ) :
        resume { x with life := life } i = { resume x i with life := life } := by
      unfold resume
      dsimp only
      split <;> rfl
    have hlast :=
      hend (resume x i) (handled x.life op i ctx true) hpc
        ((htaken.resume hparked (hdone rfl)).callbacks i)
    rw [← hresume (handled x.life op i ctx true)] at hlast
    rw [woken, if_pos rfl, if_pos rfl, ← hlast]
    exact congrArg (fun y => Transition.exec (step f op) y _) (hresume _)

/-- What a pass over the entry of the call `i` of `c` has done, and what it has left alone. -/
structure PassOver (op : ∀ i, IoOp (σ i) (τ i)) (x x' : IoRuntime W σ) (c : CoroId W) (i : Nat) (ctx : σ i)
    (resumed : Bool) : Prop where
  runtime : x'.runtime = if resumed then
    { x.runtime with taskList := x.runtime.taskList ++ [c], parked := x.runtime.parked.erase c }
    else x.runtime
  calls : x'.calls = x.calls ∧ x'.coro = x.coro ∧ x'.call = x.call ∧ x'.setting = x.setting
  waiting : x'.life.pc = .waiting
  ctx : x'.life.ctx = Function.update x.life.ctx i ctx
  owner : x'.life.owner = if resumed then Function.update x.life.owner i .runnable else x.life.owner
  registering : x'.life.registering = x.life.registering
  interest : x'.life.epoller.interest = if resumed then
    Function.update x.life.epoller.interest (x.life.epoller.items i).fd none else x.life.epoller.interest
  items : x'.life.epoller.items = Function.update x.life.epoller.items i
    (let item := { x.life.epoller.items i with revents := (op i).direction.event }
      if resumed then { item with events := 0, watching := false } else item)
  ready : x'.life.epoller.readyList = [i]

theorem taken_items (s : Lifetime Nat σ) (op : ∀ i, IoOp (σ i) (τ i)) (i : Nat) :
    (taken s op i).epoller.items =
        Function.update s.epoller.items i { s.epoller.items i with revents := (op i).direction.event } ∧
      (taken s op i).epoller.readyList = [i] :=
  ⟨rfl, rfl⟩

theorem woken_passOver (h : Lifetime.LifeInv op x.life) (hpc : x.life.pc = .waiting) {i : Nat}
    {c : CoroId W} (hcoro : x.coro i = some c) (hparked : x.life.owner i = .parked) (ctx : σ i)
    (resumed : Bool) (hdone : resumed = true → x.life.registering i = .returned) :
    PassOver op x (woken x op i ctx resumed) c i ctx resumed := by
  obtain ⟨hitems, hready⟩ := taken_items x.life op i
  cases resumed with
  | false => exact ⟨rfl, ⟨rfl, rfl, rfl, rfl⟩, hpc, rfl, rfl, rfl, rfl, hitems, hready⟩
  | true =>
    have hwoken : woken x op i ctx true = { x with
        life := handled x.life op i ctx true
        runtime := { x.runtime with parked := x.runtime.parked.erase c }.pushGlobal c } := by
      rw [woken, if_pos rfl, resume, show ({ x with life := handled x.life op i ctx true } :
        IoRuntime W σ).coro i = some c from hcoro]
    have hitem : (taken x.life op i).epoller.items i =
        { x.life.epoller.items i with revents := (op i).direction.event } := by
      rw [hitems, Function.update_self]
    have hw : ((taken x.life op i).epoller.items i).watching = true := by
      rw [hitem]
      exact h.items.watching_of_done hparked (hdone rfl)
    have hev : ((taken x.life op i).epoller.items i).events = (op i).direction.event := by
      rw [hitem]
      exact (h.items.parked i hparked).1
    obtain ⟨hinterest, hcleared⟩ := SmartEPoller.updateEvents_zero hw
    have hdisable : (taken x.life op i).epoller.disable (op i).direction i =
        (taken x.life op i).epoller.updateEvents i 0 := by
      rw [SmartEPoller.disable_eq, hev, Direction.clear_event]
    rw [hwoken]
    refine ⟨rfl, ⟨rfl, rfl, rfl, rfl⟩, hpc, rfl, ?_, rfl, ?_, ?_, ?_⟩
    · show Function.update x.life.owner i (if x.life.owner i = .returned then .returned else .runnable) = _
      rw [hparked, if_neg (by decide), if_pos rfl]
    · show ((taken x.life op i).epoller.disable (op i).direction i).interest = _
      rw [hdisable, hinterest, hitem]
      rfl
    · show ((taken x.life op i).epoller.disable (op i).direction i).items = _
      rw [hdisable, hcleared, hitem, hitems, Function.update_idem]
      rfl
    · show ((taken x.life op i).epoller.disable (op i).direction i).readyList = _
      rw [SmartEPoller.disable_readyList, hready]

/-- **A parked coroutine is woken.**  If every call found its descriptor without an entry, a pass
over the entry of a parked coroutine's call runs its handler, once; if that resumes, when the worker
is done with the registration, the coroutine goes to the end of the global list and its entry away,
and nothing else changes for the others. -/
theorem run_wakes (hf : 0 < f.capacity) (fd : Nat → Int) (ctx : ∀ i, σ i)
    {ls : List (IoRuntimeLabel W τ)} (hrun : Transition.exec (step f op) (start f op fd ctx) ls = some x)
    (horderly : Transition.Guarded (step f op) (fun x l => orderly f op x l = true) (start f op fd ctx) ls)
    (hfree : Transition.Guarded (step f op) (fun x l => x.life.descriptorFree (registered x l) = true)
      (start f op fd ctx) ls)
    (hpc : x.life.pc = .waiting) {c : CoroId W} (hc : c ∈ x.runtime.parked) :
    ∃ i, x.call c = some i ∧ ∀ (r : ∀ i, τ i) (ctx : σ i) (resumed : Bool),
      (op i).handler (x.life.ctx i) (r i) = some (ctx, resumed) →
      (resumed = true → ∀ w, x.setting w ≠ some i) →
        ∃ x', Transition.exec (step f op) x
            (.epoller (.batch [((x.life.epoller.items i).fd, (op i).direction.event)]) ::
              List.replicate 9 (.epoller (.loop r))) = some x' ∧
          PassOver op x x' c i ctx resumed := by
  obtain ⟨place, h⟩ := run_linked hf fd ctx hrun horderly
  have hw : Wakeable op x :=
    Transition.always_iff_prefix.1 ((run_wakeable_iff hf fd ctx horderly).2 hfree) ls [] x
      (List.append_nil ls).symm hrun
  obtain ⟨i, hi, hcoro, hentry⟩ := hw c hc
  refine ⟨i, hi, fun r ctx resumed hhandler hset => ?_⟩
  have hdone : resumed = true → x.life.registering i = .returned := by
    intro hresumed
    by_contra hne
    obtain ⟨w, hw⟩ := (h.setting.worker i).1 hne
    exact hset hresumed w hw
  exact ⟨_, pass_exec h.items hpc hentry hhandler hdone,
    woken_passOver h.items hpc hcoro (h.items.items.entries _ _ hentry).2 ctx resumed hdone⟩

/-- A byte for the read that is parked. -/
theorem run_wakes_read : ∃ x, Transition.exec (step ⟨8, 4⟩ fun _ => smartRead) reader parkedRead = some x ∧
    ∃ ctx x', Transition.exec (step ⟨8, 4⟩ fun _ => smartRead) x
        (.epoller (.batch [((x.life.epoller.items 0).fd, EPOLLIN)]) ::
          List.replicate 9 (.epoller (.loop fun _ => ⟨some [7], 0⟩))) = some x' ∧
      PassOver (fun _ => smartRead) x x' (.user 0) 0 ctx true := by
  obtain ⟨x, hx, hcond⟩ := (Option.any_eq_true ..).1 (show
    (Transition.exec (step ⟨8, 4⟩ fun _ => smartRead) reader parkedRead).any
      (fun x => x.life.pc = .waiting ∧ (.user 0) ∈ x.runtime.parked ∧ x.call (.user 0) = some 0 ∧
        x.setting () = none ∧ (smartRead.handler (x.life.ctx 0) ⟨some [7], 0⟩).map Prod.snd = some true) =
          true by decide +kernel)
  obtain ⟨hpc, hparked, hcall, hset, hresumed⟩ := of_decide_eq_true hcond
  obtain ⟨⟨ctx, resumed⟩, hhandler, rfl⟩ := Option.map_eq_some_iff.1 hresumed
  obtain ⟨i, hi, hwakes⟩ := run_wakes (by decide) _ _ hx (by decide +kernel) (by decide +kernel) hpc hparked
  obtain rfl := Option.some.inj (hcall.symm.trans hi)
  obtain ⟨x', hx', hpass⟩ := hwakes (fun _ => ⟨some [7], 0⟩) ctx true hhandler fun _ w => by
    rw [hset]
    exact nofun
  exact ⟨x, hx, ctx, x', hx', hpass⟩

end IoRuntime

end SmartRoutine
