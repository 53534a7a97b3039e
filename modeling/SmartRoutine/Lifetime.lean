import Mathlib.Data.List.Nodup
import SmartRoutine.EventLoop
import SmartRoutine.Registration

/-!
# The lifetime of items

Every item lives on the stack of the coroutine that made the call.  Here many calls run beside the
epoller thread, whose loop is taken apart: each `set_revents`, each test and callback of
`handle_events` is a step, and a worker may let a resumed call return between any two of them.  The
worker that registers an item does so in two steps, `epoll_ctl` and `set_watching`, and the epoller
may be told of an event in between.  A callback is one step here: what else happens during it is
either before its test of `watching_` or after, and `Registration` has the steps between.

* `run_noUseAfterReturn` — no step uses an item whose call has returned when (a) calls return only
  while the pass over the ready list is done with their items, (b) no wait comes back
  empty-handed while the ready list holds an item whose coroutine has been resumed and (c) no
  handler resumes a call before the flag of its item is set.
* `keepsLive_of_noUseAfterReturn` — a run whose passes come to their ends uses such an item if a
  call returned too early or an idle wait found the item of a call that has returned.
* `returned_item_is_tested` — the test of `EPOLLOUT` after the read callback, a ready list
  dispatched again, and an entry left behind by a handler that overtook the registration.
-/

set_option autoImplicit false

namespace SmartRoutine

/-- What has become of a call: its item is made but not registered yet, it is parked, its
coroutine is on a queue, it has returned. -/
inductive Owner where
  | made
  | parked
  | runnable
  | returned
  deriving DecidableEq, Repr

/-- Where the epoller thread is in `eventloop`. -/
inductive LoopPc (ι : Type) where
  | waiting
  /-- In the loop over `evlist_`. -/
  | taking (evlist : List (EpollEvent ι))
  /-- In the loop over `ready_list_`, between two items. -/
  | dispatching (ready : List ι)
  /-- In `handle_events` of an item, before these tests. -/
  | handling (i : ι) (todo : List Callback) (ready : List ι)
  | exited
  deriving DecidableEq

structure Lifetime (ι : Type) (σ : ι → Type) where
  epoller : SmartEPoller ι
  ctx : ∀ i, σ i
  owner : ι → Owner
  /-- Where a worker is in the `watch_event` that registers the item. -/
  registering : ι → WatchPc
  pc : LoopPc ι

inductive LifeLabel (ι : Type) (ρ : ι → Type) where
  /-- A worker runs the deferred `enable_epoll_*`, up to and with its `epoll_ctl`. -/
  | enable (i : ι)
  /-- The worker's next step in `watch_event`. -/
  | watch (i : ι)
  /-- A worker takes the coroutine off its queue and the call returns. -/
  | ret (i : ι)
  /-- `epoll_wait` reports descriptors. -/
  | batch (reported : List (Int × Events))
  /-- A timeout or an interrupted wait. -/
  | idle
  /-- Any other error of `epoll_wait`. -/
  | fail
  /-- The loop's next step; `r` has the outcome of the system call of a callback. -/
  | loop (r : ∀ i, ρ i)

section

variable {ι : Type} {σ ρ : ι → Type} [DecidableEq ι]

namespace Lifetime

/-- `enable_epoll_reading` or `enable_epoll_writing`, as far as `epoll_ctl`. -/
def register (s : Lifetime ι σ) (d : Direction) (i : ι) : Lifetime ι σ :=
  { s with
    epoller := (s.epoller.register d i).1
    owner := Function.update s.owner i .parked
    registering := Function.update s.registering i (s.epoller.register d i).2 }

/-- The next step of that `watch_event`. -/
def watch (s : Lifetime ι σ) (i : ι) : Lifetime ι σ :=
  { s with
    epoller := (s.epoller.watchStep i (s.registering i)).1
    registering := Function.update s.registering i (s.epoller.watchStep i (s.registering i)).2 }

/-- `resume_read_coro` or `resume_write_coro`; a call that has returned is not followed further. -/
def resume (s : Lifetime ι σ) (d : Direction) (i : ι) : Lifetime ι σ :=
  { s with
    epoller := s.epoller.disable d i
    owner := Function.update s.owner i (if s.owner i = .returned then .returned else .runnable) }

/-- The callback of an item. -/
def callback (op : ∀ i, IoOp (σ i) (ρ i)) (s : Lifetime ι σ) (i : ι) (r : ρ i) : Option (Lifetime ι σ) :=
  match (op i).handler (s.ctx i) r with
  | none => none
  | some (ctx, true) => some ({ s with ctx := Function.update s.ctx i ctx }.resume (op i).direction i)
  | some (ctx, false) => some { s with ctx := Function.update s.ctx i ctx }

/-- The event of a reported descriptor, with the `data.ptr` of its entry. -/
def event (s : Lifetime ι σ) (x : Int × Events) : EpollEvent ι :=
  ⟨x.2, (s.epoller.interest x.1).map (·.ptr)⟩

/-- The next step of `eventloop` outside `epoll_wait`. -/
def loopStep (op : ∀ i, IoOp (σ i) (ρ i)) (s : Lifetime ι σ) (r : ∀ i, ρ i) : Option (Lifetime ι σ) :=
  match s.pc with
  | .taking [] => some { s with pc := .dispatching s.epoller.readyList }
  | .taking (e :: evlist) => some { s with epoller := takeEvent s.epoller e, pc := .taking evlist }
  | .dispatching [] => some { s with pc := .waiting }
  | .dispatching (i :: ready) => some { s with pc := .handling i [.close, .error, .read, .write] ready }
  | .handling _ [] ready => some { s with pc := .dispatching ready }
  | .handling i (c :: todo) ready =>
    let item := s.epoller.items i
    let s := { s with pc := .handling i todo ready }
    if item.revents &&& c.mask ≠ 0 && item.callback c then s.callback op i (r i) else some s
  | .waiting | .exited => none

def step (op : ∀ i, IoOp (σ i) (ρ i)) (s : Lifetime ι σ) : LifeLabel ι ρ → Option (Lifetime ι σ)
  | .enable i =>
    if s.owner i = .made then some (s.register (op i).direction i) else none
  | .watch i => if s.registering i = .returned then none else some (s.watch i)
  | .ret i =>
    if s.owner i = .runnable then some { s with owner := Function.update s.owner i .returned } else none
  | .batch reported =>
    -- each descriptor at most once, and only what is in the interest set
    if s.pc = .waiting ∧ reported ≠ [] ∧ (reported.map Prod.fst).Nodup ∧
        ∀ x ∈ reported, (s.epoller.interest x.1).isSome then
      some { s with epoller := { s.epoller with readyList := [] }, pc := .taking (reported.map s.event) }
    else none
  | .idle => if s.pc = .waiting then some { s with pc := .dispatching s.epoller.readyList } else none
  | .fail => if s.pc = .waiting then some { s with pc := .exited } else none
  | .loop r => loopStep op s r

/-- Every call has made its item and context. -/
def start (op : ∀ i, IoOp (σ i) (ρ i)) (fd : ι → Int) (ctx : ∀ i, σ i) : Lifetime ι σ where
  epoller := ⟨fun i => .forCall (fd i) (op i).direction, fun _ => none, []⟩
  ctx := ctx
  owner := fun _ => .made
  registering := fun _ => .returned
  pc := .waiting

/-! ## The property -/

/-- The item the loop's next step reads or writes. -/
def uses (s : Lifetime ι σ) : Option ι :=
  match s.pc with
  | .taking (e :: _) => e.ptr
  | .handling i (_ :: _) _ => some i
  | _ => none

/-- A step of the epoller thread uses no item whose call has returned. -/
def usesLive (s : Lifetime ι σ) : LifeLabel ι ρ → Bool
  | .loop _ => s.uses.all fun i => s.owner i ≠ .returned
  | _ => true

/-- The items the pass will still use. -/
def inHand (s : Lifetime ι σ) : List ι :=
  match s.pc with
  | .taking evlist => s.epoller.readyList ++ (reports evlist).map Prod.fst
  | .dispatching ready => ready
  | .handling i (_ :: _) ready => i :: ready
  | .handling _ [] ready => ready
  | .waiting | .exited => []

/-- The call whose coroutine the next step of the loop resumes. -/
def resumes (op : ∀ i, IoOp (σ i) (ρ i)) (s : Lifetime ι σ) (r : ∀ i, ρ i) : Option ι :=
  match s.pc with
  | .handling i (c :: _) _ =>
    if (s.epoller.items i).revents &&& c.mask ≠ 0 && (s.epoller.items i).callback c then
      match (op i).handler (s.ctx i) (r i) with
      | some (_, true) => some i
      | _ => none
    else none
  | _ => none

/-- Calls return when the pass is done with their items; an idle wait finds only parked calls in
the ready list; a handler that resumes a call finds its item registered to the end. -/
def keepsItems (op : ∀ i, IoOp (σ i) (ρ i)) (s : Lifetime ι σ) : LifeLabel ι ρ → Bool
  | .ret i => i ∉ s.inHand
  | .idle => s.epoller.readyList.all fun i => s.owner i = .parked
  | .loop r => (s.resumes op r).all fun i => s.registering i = .returned
  | _ => true

/-! ## Items and owners -/

/-- What ties the items to the calls: only parked calls have entries, and their items know of it
when the worker is done. -/
structure ItemsInv (op : ∀ i, IoOp (σ i) (ρ i)) (epoller : SmartEPoller ι) (owner : ι → Owner)
    (registering : ι → WatchPc) : Prop where
  callbacks : ∀ i c, (epoller.items i).callback c = decide (c = (op i).direction.callback)
  entries : ∀ fd e, epoller.interest fd = some e → (epoller.items e.ptr).fd = fd ∧ owner e.ptr = .parked
  made : ∀ i, owner i = .made → (epoller.items i).events = 0 ∧ (epoller.items i).watching = false
  parked : ∀ i, owner i = .parked → (epoller.items i).events = (op i).direction.event ∧
    registering i = if (epoller.items i).watching then .returned else .setWatching
  done : ∀ i, owner i ≠ .parked → registering i = .returned

variable {op : ∀ i, IoOp (σ i) (ρ i)} {s s' : Lifetime ι σ} {epoller epoller' : SmartEPoller ι}
  {owner owner' : ι → Owner} {registering registering' : ι → WatchPc}

omit [DecidableEq ι] in
/-- Reported events are of no concern. -/
theorem ItemsInv.congr (h : ItemsInv op epoller owner registering)
    (hi : epoller'.interest = epoller.interest)
    (ht : ∀ j, ∃ r, epoller'.items j = { epoller.items j with revents := r }) :
    ItemsInv op epoller' owner registering := by
  refine ⟨fun j c => ?_, fun fd e he => ?_, fun j hj => ?_, fun j hj => ?_, h.done⟩
  · obtain ⟨r, hr⟩ := ht j
    rw [hr]
    exact h.callbacks j c
  · obtain ⟨r, hr⟩ := ht e.ptr
    rw [hr]
    exact h.entries fd e (hi ▸ he)
  · obtain ⟨r, hr⟩ := ht j
    rw [hr]
    exact h.made j hj
  · obtain ⟨r, hr⟩ := ht j
    rw [hr]
    exact h.parked j hj

/-- A call changes hands together with its item's registration. -/
theorem ItemsInv.update (h : ItemsInv op epoller owner registering) (i : ι) {ev : Events} {w : Bool}
    {o : Owner} {pc : WatchPc}
    (ht : epoller'.items =
      Function.update epoller.items i { epoller.items i with events := ev, watching := w })
    (hi : ∀ fd e, epoller'.interest fd = some e →
      epoller.interest fd = some e ∧ e.ptr ≠ i ∨ fd = (epoller.items i).fd ∧ e.ptr = i ∧ o = .parked)
    (howner : owner' = Function.update owner i o)
    (hreg : registering' = Function.update registering i pc)
    (hmade : o = .made → ev = 0 ∧ w = false)
    (hparked : o = .parked → ev = (op i).direction.event ∧ pc = if w then .returned else .setWatching)
    (hdone : o ≠ .parked → pc = .returned) : ItemsInv op epoller' owner' registering' := by
  subst howner hreg
  have hself : epoller'.items i = { epoller.items i with events := ev, watching := w } := by
    rw [ht, Function.update_self]
  have hother : ∀ j, j ≠ i → epoller'.items j = epoller.items j := fun j hj => by
    rw [ht, Function.update_of_ne hj]
  refine ⟨fun j c => ?_, fun fd e he => ?_, fun j hj => ?_, fun j hj => ?_, fun j hj => ?_⟩
  · by_cases hji : j = i
    · subst hji; rw [hself]; exact h.callbacks j c
    · rw [hother j hji]; exact h.callbacks j c
  · rcases hi fd e he with ⟨hold, hne⟩ | ⟨hfd, hptr, ho⟩
    · rw [hother _ hne, Function.update_of_ne hne]
      exact h.entries fd e hold
    · rw [hptr, hself, Function.update_self]
      exact ⟨hfd.symm, ho⟩
  · by_cases hji : j = i
    · subst hji; rw [hself]; rw [Function.update_self] at hj; exact hmade hj
    · rw [hother j hji]; rw [Function.update_of_ne hji] at hj; exact h.made j hj
  · by_cases hji : j = i
    · subst hji; rw [hself, Function.update_self]; rw [Function.update_self] at hj; exact hparked hj
    · rw [hother j hji, Function.update_of_ne hji]; rw [Function.update_of_ne hji] at hj
      exact h.parked j hj
  · by_cases hji : j = i
    · subst hji; rw [Function.update_self]; rw [Function.update_self] at hj; exact hdone hj
    · rw [Function.update_of_ne hji]; rw [Function.update_of_ne hji] at hj; exact h.done j hj

omit [DecidableEq ι] in
/-- No call but a parked one has an entry. -/
theorem ItemsInv.ptr_ne (h : ItemsInv op epoller owner registering) {i : ι} (hi : owner i ≠ .parked)
    {fd : Int} {e : EpollEntry ι} (he : epoller.interest fd = some e) : e.ptr ≠ i := by
  rintro rfl
  exact hi (h.entries fd e he).2

omit [DecidableEq ι] in
/-- Where the worker that registers a parked call is. -/
theorem ItemsInv.watching (h : ItemsInv op epoller owner registering) {i : ι} (hi : owner i = .parked) :
    registering i = .returned ∧ (epoller.items i).watching = true ∨
      registering i = .setWatching ∧ (epoller.items i).watching = false := by
  have hreg := (h.parked i hi).2
  cases hw : (epoller.items i).watching with
  | true =>
    rw [hw, if_pos rfl] at hreg
    exact .inl ⟨hreg, rfl⟩
  | false =>
    rw [hw, if_neg Bool.false_ne_true] at hreg
    exact .inr ⟨hreg, rfl⟩

omit [DecidableEq ι] in
theorem ItemsInv.watching_of_done (h : ItemsInv op epoller owner registering) {i : ι}
    (hi : owner i = .parked) (hdone : registering i = .returned) :
    (epoller.items i).watching = true := by
  rcases h.watching hi with ⟨-, hw⟩ | ⟨hset, -⟩
  · exact hw
  · rw [hdone] at hset
    cases hset

omit [DecidableEq ι] in
/-- A worker that is not done with the item is to set its flag. -/
theorem ItemsInv.registering_cases (h : ItemsInv op epoller owner registering) {i : ι}
    (hi : registering i ≠ .returned) : owner i = .parked ∧ registering i = .setWatching := by
  have ho : owner i = .parked := by
    by_contra ho
    exact hi (h.done i ho)
  exact ⟨ho, ((h.watching ho).resolve_left fun hdone => hi hdone.1).1⟩

theorem ItemsInv.register (h : ItemsInv op epoller owner registering) {i : ι} (hi : owner i = .made) :
    ItemsInv op (epoller.register (op i).direction i).1 (Function.update owner i .parked)
      (Function.update registering i (epoller.register (op i).direction i).2) := by
  obtain ⟨hev, hw⟩ := h.made i hi
  obtain ⟨hpc, hitems, hinterest⟩ := SmartEPoller.register_unwatched (op i).direction hw
  rw [hev, Direction.set_event] at hitems hinterest
  refine h.update i (w := false) (by rw [hitems, ← hw]) (fun fd e he => ?_) rfl rfl nofun
    (fun _ => ⟨rfl, hpc⟩) nofun
  rw [hinterest] at he
  rcases SmartEPoller.epollCtl_add he with hold | ⟨hfd, rfl⟩
  · exact Or.inl ⟨hold, h.ptr_ne (by rw [hi]; decide) hold⟩
  · exact Or.inr ⟨hfd, rfl, rfl⟩

/-- The flag is set. -/
theorem ItemsInv.watch (h : ItemsInv op epoller owner registering) {i : ι}
    (hi : registering i ≠ .returned) : ItemsInv op (epoller.watchStep i (registering i)).1 owner
      (Function.update registering i (epoller.watchStep i (registering i)).2) := by
  obtain ⟨ho, hset⟩ := h.registering_cases hi
  have hitems : (epoller.watchStep i .setWatching).1.items = Function.update epoller.items i
      { epoller.items i with events := (epoller.items i).events, watching := true } := rfl
  rw [hset]
  refine h.update i (o := .parked) hitems (fun fd e he => ?_) (by rw [← ho, Function.update_eq_self]) rfl
    nofun (fun _ => ⟨(h.parked i ho).1, rfl⟩) nofun
  by_cases hptr : e.ptr = i
  · subst hptr
    exact Or.inr ⟨(h.entries fd e he).1.symm, rfl, rfl⟩
  · exact Or.inl ⟨he, hptr⟩

/-- **Resuming takes the item's entry away**, if the flag has been set. -/
theorem ItemsInv.resume (h : ItemsInv op epoller owner registering) {i : ι} (hi : owner i = .parked)
    (hdone : registering i = .returned) :
    ItemsInv op (epoller.disable (op i).direction i) (Function.update owner i .runnable) registering := by
  have hev := (h.parked i hi).1
  obtain ⟨hentries, hitems⟩ := SmartEPoller.updateEvents_zero (h.watching_of_done hi hdone)
  rw [SmartEPoller.disable_eq, hev, Direction.clear_event]
  refine h.update i hitems (fun fd e he => Or.inl ?_) rfl (Function.update_eq_self i _).symm nofun nofun
    fun _ => hdone
  rw [hentries] at he
  by_cases hfd : fd = (epoller.items i).fd
  · rw [hfd, Function.update_self] at he; cases he
  · rw [Function.update_of_ne hfd] at he
    refine ⟨he, ?_⟩
    rintro rfl
    exact hfd (h.entries fd e he).1.symm

theorem ItemsInv.ret (h : ItemsInv op epoller owner registering) {i : ι} (hi : owner i = .runnable) :
    ItemsInv op epoller (Function.update owner i .returned) registering := by
  have hne : owner i ≠ .parked := by rw [hi]; decide
  exact h.update i (Function.update_eq_self i _).symm (fun fd e he => Or.inl ⟨he, h.ptr_ne hne he⟩) rfl
    (Function.update_eq_self i _).symm nofun nofun fun _ => h.done i hne

/-! ## The pass -/

/-- What the pass has in hand belongs to parked calls, each item once; the call whose item is
being handled may have been resumed by a callback before the tests `todo`. -/
def PassInv (op : ∀ i, IoOp (σ i) (ρ i)) (s : Lifetime ι σ) : Prop :=
  match s.pc with
  | .taking evlist =>
    (s.epoller.readyList ++ (reports evlist).map Prod.fst).Nodup ∧
      ∀ i ∈ s.epoller.readyList ++ (reports evlist).map Prod.fst, s.owner i = .parked
  | .dispatching ready => ready.Nodup ∧ ∀ i ∈ ready, s.owner i = .parked
  | .handling i todo ready =>
    (i :: ready).Nodup ∧ (∀ j ∈ ready, s.owner j = .parked) ∧ todo.Nodup ∧
      (todo ≠ [] → s.owner i ≠ .returned) ∧
      ((op i).direction.callback ∈ todo → s.owner i = .parked)
  | .waiting | .exited => True

structure LifeInv (op : ∀ i, IoOp (σ i) (ρ i)) (s : Lifetime ι σ) : Prop where
  items : ItemsInv op s.epoller s.owner s.registering
  ready : s.epoller.readyList.Nodup
  pass : PassInv op s

omit [DecidableEq ι] in
theorem start_inv (op : ∀ i, IoOp (σ i) (ρ i)) (fd : ι → Int) (ctx : ∀ i, σ i) :
    LifeInv op (start op fd ctx) := by
  refine ⟨⟨fun i c => ?_, fun _ _ h => (by cases h), fun i _ => ?_, fun i h => (by cases h), fun _ _ => rfl⟩,
    List.nodup_nil, trivial⟩
  · show (EPollItem.forCall (fd i) (op i).direction).callback c = _
    cases (op i).direction <;> cases c <;> rfl
  · show (EPollItem.forCall (fd i) (op i).direction).events = 0 ∧
      (EPollItem.forCall (fd i) (op i).direction).watching = false
    cases (op i).direction <;> exact ⟨rfl, rfl⟩

omit [DecidableEq ι] in
/-- The pass minds only what becomes of the items in hand. -/
theorem PassInv.mono (h : PassInv op s) (hpc : s'.pc = s.pc)
    (hready : s'.epoller.readyList = s.epoller.readyList)
    (howner : ∀ j ∈ s.inHand, s'.owner j = s.owner j ∨ s'.owner j = .parked) : PassInv op s' := by
  have hparked : ∀ j ∈ s.inHand, s.owner j = .parked → s'.owner j = .parked := fun j hj hp =>
    (howner j hj).elim (fun e => e.trans hp) id
  unfold PassInv Lifetime.inHand at *
  rw [hpc, hready]
  cases hs : s.pc with
  | taking evlist =>
    simp only [hs] at h hparked ⊢
    exact ⟨h.1, fun i hi => hparked i hi (h.2 i hi)⟩
  | dispatching ready =>
    simp only [hs] at h hparked ⊢
    exact ⟨h.1, fun i hi => hparked i hi (h.2 i hi)⟩
  | handling i todo ready =>
    simp only [hs] at h hparked howner ⊢
    obtain ⟨hnodup, hready', htodo, hlive, hcall⟩ := h
    cases todo with
    | nil => exact ⟨hnodup, fun j hj => hparked j hj (hready' j hj), htodo, nofun, nofun⟩
    | cons c todo =>
      refine ⟨hnodup, fun j hj => hparked j (List.mem_cons_of_mem _ hj) (hready' j hj), htodo, fun _ => ?_,
        fun hc => hparked i List.mem_cons_self (hcall hc)⟩
      rcases howner i List.mem_cons_self with he | he
      · rw [he]; exact hlive (List.cons_ne_nil _ _)
      · rw [he]; decide
  | waiting => trivial
  | exited => trivial

omit [DecidableEq ι] in
/-- What the next step uses has not returned. -/
theorem LifeInv.usesLive (h : LifeInv op s) (l : LifeLabel ι ρ) : s.usesLive l = true := by
  have hpass := h.pass
  unfold Lifetime.usesLive Lifetime.uses
  unfold PassInv at hpass
  cases l with
  | enable | watch | ret | batch | idle | fail => rfl
  | loop r =>
    cases hs : s.pc with
    | taking evlist =>
      cases evlist with
      | nil => rfl
      | cons e evlist =>
        cases hp : e.ptr with
        | none => simp [hp]
        | some i =>
          simp only [hs] at hpass
          have hi := hpass.2 i (by simp [reports, EpollEvent.report, hp])
          simp [hp, hi]
    | handling i todo ready =>
      cases todo with
      | nil => rfl
      | cons c todo =>
        simp only [hs] at hpass
        simpa using hpass.2.2.2.1 (List.cons_ne_nil _ _)
    | waiting | dispatching _ | exited => rfl

/-! ## What a step can do -/

/-- A step of the loop. -/
inductive LoopTurn (op : ∀ i, IoOp (σ i) (ρ i)) (s : Lifetime ι σ) (r : ∀ i, ρ i) :
    Lifetime ι σ → Prop
  | taken (hpc : s.pc = .taking []) :
    LoopTurn op s r { s with pc := .dispatching s.epoller.readyList }
  | take {e : EpollEvent ι} {evlist : List (EpollEvent ι)} (hpc : s.pc = .taking (e :: evlist)) :
    LoopTurn op s r { s with epoller := takeEvent s.epoller e, pc := .taking evlist }
  | passed (hpc : s.pc = .dispatching []) : LoopTurn op s r { s with pc := .waiting }
  | item {i : ι} {ready : List ι} (hpc : s.pc = .dispatching (i :: ready)) :
    LoopTurn op s r { s with pc := .handling i [.close, .error, .read, .write] ready }
  | handled {i : ι} {ready : List ι} (hpc : s.pc = .handling i [] ready) :
    LoopTurn op s r { s with pc := .dispatching ready }
  | skip {i : ι} {c : Callback} {todo : List Callback} {ready : List ι}
    (hpc : s.pc = .handling i (c :: todo) ready)
    (hno : ((s.epoller.items i).revents &&& c.mask ≠ 0 && (s.epoller.items i).callback c) = false) :
    LoopTurn op s r { s with pc := .handling i todo ready }
  | call {i : ι} {c : Callback} {todo : List Callback} {ready : List ι} {s' : Lifetime ι σ}
    (hpc : s.pc = .handling i (c :: todo) ready)
    (hevent : (s.epoller.items i).revents &&& c.mask ≠ 0) (hc : (s.epoller.items i).callback c = true)
    (hcall : callback op { s with pc := .handling i todo ready } i (r i) = some s') :
    LoopTurn op s r s'

theorem loopStep_turn {r : ∀ i, ρ i} (hstep : loopStep op s r = some s') : LoopTurn op s r s' := by
  unfold loopStep at hstep
  split at hstep
  next hpc => cases hstep; exact .taken hpc
  next hpc => cases hstep; exact .take hpc
  next hpc => cases hstep; exact .passed hpc
  next hpc => cases hstep; exact .item hpc
  next hpc => cases hstep; exact .handled hpc
  next hpc =>
    dsimp only at hstep
    split at hstep
    next hcond =>
      obtain ⟨hevent, hc⟩ := Bool.and_eq_true_iff.1 hcond
      exact .call hpc (of_decide_eq_true hevent) hc hstep
    next hcond => cases hstep; exact .skip hpc (Bool.eq_false_iff.2 hcond)
  next => cases hstep
  next => cases hstep

/-- A step of the system. -/
inductive LifeTurn (op : ∀ i, IoOp (σ i) (ρ i)) (s : Lifetime ι σ) :
    LifeLabel ι ρ → Lifetime ι σ → Prop
  | enable {i : ι} (hi : s.owner i = .made) :
    LifeTurn op s (.enable i) (s.register (op i).direction i)
  | watch {i : ι} (hi : s.registering i ≠ .returned) : LifeTurn op s (.watch i) (s.watch i)
  | ret {i : ι} (hi : s.owner i = .runnable) :
    LifeTurn op s (.ret i) { s with owner := Function.update s.owner i .returned }
  | batch {reported : List (Int × Events)} (hpc : s.pc = .waiting) (hne : reported ≠ [])
    (hnodup : (reported.map Prod.fst).Nodup)
    (hin : ∀ x ∈ reported, (s.epoller.interest x.1).isSome) :
    LifeTurn op s (.batch reported) { s with
      epoller := { s.epoller with readyList := [] }, pc := .taking (reported.map s.event) }
  | idle (hpc : s.pc = .waiting) :
    LifeTurn op s .idle { s with pc := .dispatching s.epoller.readyList }
  | fail (hpc : s.pc = .waiting) : LifeTurn op s .fail { s with pc := .exited }
  | loop {r : ∀ i, ρ i} {s' : Lifetime ι σ} (hturn : LoopTurn op s r s') :
    LifeTurn op s (.loop r) s'

theorem step_turn {l : LifeLabel ι ρ} (hstep : step op s l = some s') : LifeTurn op s l s' := by
  unfold step at hstep
  split at hstep
  next =>
    split at hstep <;> cases hstep
    next h => exact .enable h
  next =>
    split at hstep <;> cases hstep
    next h => exact .watch h
  next =>
    split at hstep <;> cases hstep
    next h => exact .ret h
  next =>
    split at hstep <;> cases hstep
    next hb => exact .batch hb.1 hb.2.1 hb.2.2.1 hb.2.2.2
  next =>
    split at hstep <;> cases hstep
    next h => exact .idle h
  next =>
    split at hstep <;> cases hstep
    next h => exact .fail h
  next => exact .loop (loopStep_turn hstep)

/-! ## Steps -/

theorem register_inv (h : LifeInv op s) {i : ι} (hi : s.owner i = .made) :
    LifeInv op (s.register (op i).direction i) := by
  have hready := s.epoller.register_readyList (op i).direction i
  refine ⟨h.items.register hi, hready ▸ h.ready, h.pass.mono rfl hready fun j _ => ?_⟩
  by_cases hji : j = i
  · subst hji; exact Or.inr (Function.update_self ..)
  · exact Or.inl (Function.update_of_ne hji ..)

theorem watch_inv (h : LifeInv op s) {i : ι} (hi : s.registering i ≠ .returned) :
    LifeInv op (s.watch i) := by
  have hready := s.epoller.watchStep_readyList i (s.registering i)
  exact ⟨h.items.watch hi, hready ▸ h.ready, h.pass.mono rfl hready fun _ _ => Or.inl rfl⟩

theorem ret_inv (h : LifeInv op s) {i : ι} (hi : s.owner i = .runnable) (hkeep : i ∉ s.inHand) :
    LifeInv op { s with owner := Function.update s.owner i .returned } := by
  refine ⟨h.items.ret hi, h.ready, h.pass.mono rfl rfl fun j hj => Or.inl ?_⟩
  apply Function.update_of_ne
  rintro rfl
  exact hkeep hj

omit [DecidableEq ι] in
/-- The items of a batch have the reported descriptors, in order, and are parked. -/
theorem reports_event (h : ItemsInv op s.epoller s.owner s.registering) (reported : List (Int × Events))
    (hin : ∀ x ∈ reported, (s.epoller.interest x.1).isSome) :
    ((reports (reported.map s.event)).map Prod.fst).map (fun i => (s.epoller.items i).fd) =
        reported.map Prod.fst ∧
      ∀ i ∈ (reports (reported.map s.event)).map Prod.fst, s.owner i = .parked := by
  induction reported with
  | nil => exact ⟨rfl, nofun⟩
  | cons x reported ih =>
    obtain ⟨hfd, hparked⟩ := ih fun y hy => hin y (List.mem_cons_of_mem _ hy)
    obtain ⟨e, he⟩ := Option.isSome_iff_exists.1 (hin x List.mem_cons_self)
    have hcons : (reports ((x :: reported).map s.event)).map Prod.fst =
        e.ptr :: (reports (reported.map s.event)).map Prod.fst := by
      simp [reports, EpollEvent.report, event, he]
    have hentry := h.entries x.1 e he
    rw [hcons]
    refine ⟨by rw [List.map_cons, List.map_cons, hfd, hentry.1], fun i hi => ?_⟩
    rcases List.mem_cons.1 hi with rfl | hi
    · exact hentry.2
    · exact hparked i hi

omit [DecidableEq ι] in
/-- **A batch is of parked calls**, whatever was done to the interest set. -/
theorem batch_inv (h : LifeInv op s) {reported : List (Int × Events)}
    (hnodup : (reported.map Prod.fst).Nodup)
    (hin : ∀ x ∈ reported, (s.epoller.interest x.1).isSome) :
    LifeInv op { s with
      epoller := { s.epoller with readyList := [] }
      pc := .taking (reported.map s.event) } := by
  obtain ⟨hfd, hparked⟩ := reports_event h.items reported hin
  refine ⟨h.items.congr rfl fun j => ⟨(s.epoller.items j).revents, rfl⟩, List.nodup_nil, ?_, hparked⟩
  apply List.Nodup.of_map (fun i => (s.epoller.items i).fd)
  show (((reports (reported.map s.event)).map Prod.fst).map _).Nodup
  rw [hfd]
  exact hnodup

omit [DecidableEq ι] in
theorem idle_inv (h : LifeInv op s) (hkeep : ∀ i ∈ s.epoller.readyList, s.owner i = .parked) :
    LifeInv op { s with pc := .dispatching s.epoller.readyList } :=
  ⟨h.items, h.ready, h.ready, hkeep⟩

/-- What the loop over `evlist_` puts together does not change from turn to turn. -/
theorem takeEvent_inHand (epoller : SmartEPoller ι) (e : EpollEvent ι) (evlist : List (EpollEvent ι)) :
    (takeEvent epoller e).readyList ++ (reports evlist).map Prod.fst =
      epoller.readyList ++ (reports (e :: evlist)).map Prod.fst := by
  cases hp : e.ptr with
  | none => rw [takeEvent_none epoller hp]; simp [reports, EpollEvent.report, hp]
  | some i => rw [(takeEvent_some epoller hp).1]; simp [reports, EpollEvent.report, hp]

theorem take_inv (h : LifeInv op s) {e : EpollEvent ι} {evlist : List (EpollEvent ι)}
    (hpc : s.pc = .taking (e :: evlist)) :
    LifeInv op { s with epoller := takeEvent s.epoller e, pc := .taking evlist } := by
  obtain ⟨hitems, hready, hpass⟩ := h
  simp only [PassInv, hpc, ← takeEvent_inHand] at hpass
  refine ⟨hitems.congr ?_ fun j => ?_, (List.nodup_append.1 hpass.1).1, hpass⟩
  · unfold takeEvent; split <;> rfl
  · unfold takeEvent
    split
    · rename_i i _
      by_cases hj : j = i
      · subst hj; exact ⟨e.events, Function.update_self ..⟩
      · exact ⟨(s.epoller.items j).revents, Function.update_of_ne hj ..⟩
    · exact ⟨(s.epoller.items j).revents, rfl⟩

omit [DecidableEq ι] in
/-- The tests that are left. -/
theorem PassInv.tested (h : PassInv op s) {i : ι} {c : Callback} {todo : List Callback}
    {ready : List ι} (hpc : s.pc = .handling i (c :: todo) ready)
    (hpc' : s'.pc = .handling i todo ready) (howner : s'.owner = s.owner) : PassInv op s' := by
  simp only [PassInv, hpc] at h
  obtain ⟨hnodup, hparked, htodo, hlive, hcall⟩ := h
  simp only [PassInv, hpc', howner]
  exact ⟨hnodup, hparked, htodo.of_cons, fun _ => hlive (List.cons_ne_nil _ _),
    fun hc => hcall (List.mem_cons_of_mem _ hc)⟩

omit [DecidableEq ι] in
/-- What a test comes to that calls a callback. -/
theorem resumes_of_call {i : ι} {c : Callback} {todo : List Callback} {ready : List ι} {r : ∀ i, ρ i}
    (hpc : s.pc = .handling i (c :: todo) ready) (hevent : (s.epoller.items i).revents &&& c.mask ≠ 0)
    (hc : (s.epoller.items i).callback c = true) : s.resumes op r =
      match (op i).handler (s.ctx i) (r i) with
      | some (_, true) => some i
      | _ => none := by
  have hcond : ((s.epoller.items i).revents &&& c.mask ≠ 0 && (s.epoller.items i).callback c) = true := by
    rw [hc, Bool.and_true]
    exact decide_eq_true hevent
  rw [resumes, hpc]
  exact if_pos hcond

/-- A handler that resumes a call finds its item registered. -/
theorem registering_of_call {i : ι} {c : Callback} {todo : List Callback} {ready : List ι}
    {r : ∀ i, ρ i} {ctx : σ i} (hkeep : s.keepsItems op (.loop r) = true)
    (hpc : s.pc = .handling i (c :: todo) ready) (hevent : (s.epoller.items i).revents &&& c.mask ≠ 0)
    (hc : (s.epoller.items i).callback c = true)
    (hhandler : (op i).handler (s.ctx i) (r i) = some (ctx, true)) : s.registering i = .returned := by
  rw [keepsItems, resumes_of_call hpc hevent hc, hhandler] at hkeep
  exact of_decide_eq_true hkeep

/-- **A callback that `handle_events` calls** finds its call parked, and no test after it calls
another. -/
theorem callback_inv (h : LifeInv op s) {i : ι} {c : Callback} {todo : List Callback}
    {ready : List ι} {r : ρ i} (hpc : s.pc = .handling i (c :: todo) ready)
    (hc : (s.epoller.items i).callback c = true)
    (hdone : ∀ ctx, (op i).handler (s.ctx i) r = some (ctx, true) → s.registering i = .returned)
    (hcall : callback op { s with pc := .handling i todo ready } i r = some s') : LifeInv op s' := by
  have hpass := h.pass
  simp only [PassInv, hpc] at hpass
  obtain ⟨hnodup, hparked, htodo, -, hown⟩ := hpass
  rw [h.items.callbacks, decide_eq_true_eq] at hc
  have hpark : s.owner i = .parked := hown (hc ▸ List.mem_cons_self)
  unfold callback at hcall
  split at hcall
  · cases hcall
  · -- the handler resumes the coroutine
    rename_i ctx hhandler
    cases hcall
    have hr := s.epoller.disable_readyList (op i).direction i
    have ho : (if s.owner i = .returned then Owner.returned else .runnable) = .runnable := by
      rw [hpark]; rfl
    refine ⟨?_, hr ▸ h.ready, ?_⟩
    · show ItemsInv op _ (Function.update s.owner i _) _
      rw [ho]
      exact h.items.resume hpark (hdone ctx hhandler)
    · show PassInv op _
      simp only [PassInv, Lifetime.resume, ho]
      refine ⟨hnodup, fun j hj => ?_, htodo.of_cons, fun _ => ?_, fun hmem => ?_⟩
      · have hji : j ≠ i := by
          rintro rfl
          exact (List.nodup_cons.1 hnodup).1 hj
        rw [Function.update_of_ne hji]
        exact hparked j hj
      · rw [Function.update_self]; decide
      · rw [← hc] at hmem
        exact absurd hmem (List.nodup_cons.1 htodo).1
  · cases hcall
    exact ⟨h.items, h.ready, h.pass.tested hpc rfl rfl⟩

theorem loop_inv (h : LifeInv op s) {r : ∀ i, ρ i} (hkeep : s.keepsItems op (.loop r) = true)
    (hturn : LoopTurn op s r s') : LifeInv op s' := by
  have hpass := h.pass
  cases hturn with
  | taken hpc =>
    simp only [PassInv, hpc, reports, List.filterMap_nil, List.map_nil, List.append_nil] at hpass
    exact ⟨h.items, h.ready, hpass⟩
  | take hpc => exact take_inv h hpc
  | passed => exact ⟨h.items, h.ready, trivial⟩
  | item hpc =>
    simp only [PassInv, hpc] at hpass
    have hi := hpass.2 _ List.mem_cons_self
    refine ⟨h.items, h.ready, hpass.1, fun j hj => hpass.2 j (List.mem_cons_of_mem _ hj), by decide,
      fun _ => ?_, fun _ => hi⟩
    rw [hi]
    decide
  | handled hpc =>
    simp only [PassInv, hpc] at hpass
    exact ⟨h.items, h.ready, (List.nodup_cons.1 hpass.1).2, hpass.2.1⟩
  | skip hpc => exact ⟨h.items, h.ready, h.pass.tested hpc rfl rfl⟩
  | call hpc hevent hc hcall =>
    exact callback_inv h hpc hc (fun _ hhandler => registering_of_call hkeep hpc hevent hc hhandler) hcall

theorem step_inv (h : LifeInv op s) {l : LifeLabel ι ρ} (hkeep : s.keepsItems op l = true)
    (hstep : step op s l = some s') : LifeInv op s' := by
  cases step_turn hstep with
  | enable hi => exact register_inv h hi
  | watch hi => exact watch_inv h hi
  | ret hi => exact ret_inv h hi (by simpa [keepsItems] using hkeep)
  | batch _ _ hnodup hin => exact batch_inv h hnodup hin
  | idle => exact idle_inv h (by simpa [keepsItems] using hkeep)
  | fail => exact ⟨h.items, h.ready, trivial⟩
  | loop hturn => exact loop_inv h hkeep hturn

/-! ## Runs -/

/-- **No step of a run uses an item whose call has returned**, if calls return only when the pass
is done with their items, idle waits find only parked calls in the ready list and handlers resume
only calls whose items have been registered to the end. -/
theorem run_noUseAfterReturn (op : ∀ i, IoOp (σ i) (ρ i)) (fd : ι → Int) (ctx : ∀ i, σ i)
    (ls : List (LifeLabel ι ρ))
    (hkeep : Transition.Guarded (step op) (fun s l => s.keepsItems op l = true) (start op fd ctx) ls) :
    Transition.Guarded (step op) (fun s l => s.usesLive l = true) (start op fd ctx) ls :=
  Transition.Guarded.of_invariant (P := LifeInv op) (fun _ _ _ h hk hs => step_inv h hk hs)
    (fun _ l h _ => h.usesLive l) ls _ (start_inv op fd ctx) hkeep

/-- A read of one byte that returns when its pass is over. -/
theorem run_noUseAfterReturn_read :
    Transition.Guarded (step fun _ : Unit => smartRead) (fun s l => s.usesLive l = true)
      (start (fun _ => smartRead) (fun _ => 5) fun _ => .new 5 (fun _ => 0) 1)
      ([.enable (), .batch [(5, EPOLLIN)], .watch ()] ++ List.replicate 7 (.loop fun _ => ⟨some [7], 0⟩) ++
        [.ret ()]) :=
  run_noUseAfterReturn _ _ _ _ (by decide +kernel)

/-- **A read returns between its callback and the test of `EPOLLOUT`; a write returns after its
pass and the next wait is interrupted; a read overtakes its registration, returns after its pass and
its descriptor is reported again**: all three items are used again. -/
theorem returned_item_is_tested :
    ¬ Transition.Guarded (step fun _ : Unit => smartRead) (fun s l => s.usesLive l = true)
      (start (fun _ => smartRead) (fun _ => 5) fun _ => .new 5 (fun _ => 0) 1)
      ([.enable (), .watch (), .batch [(5, EPOLLIN)]] ++ List.replicate 6 (.loop fun _ => ⟨some [7], 0⟩) ++
        [.ret (), .loop fun _ => ⟨some [7], 0⟩]) ∧
    ¬ Transition.Guarded (step fun _ : Unit => smartWrite) (fun s l => s.usesLive l = true)
      (start (fun _ => smartWrite) (fun _ => 5) fun _ => .new 5 (fun _ => 0) 1)
      ([.enable (), .watch (), .batch [(5, EPOLLOUT)]] ++ List.replicate 9 (.loop fun _ => ⟨some 1, 0⟩) ++
        [.ret (), .idle] ++ List.replicate 2 (.loop fun _ => ⟨some 1, 0⟩)) ∧
    ¬ Transition.Guarded (step fun _ : Unit => smartRead) (fun s l => s.usesLive l = true)
      (start (fun _ => smartRead) (fun _ => 5) fun _ => .new 5 (fun _ => 0) 1)
      ([.enable (), .batch [(5, EPOLLIN)]] ++ List.replicate 9 (.loop fun _ => ⟨some [7], 0⟩) ++
        [.watch (), .ret (), .batch [(5, EPOLLIN)], .loop fun _ => ⟨some [7], 0⟩]) := by
  decide +kernel

/-! ## The converse -/

/-- Calls return when the pass is done with their items; an idle wait finds no item in the ready
list whose call has returned. -/
def keepsLive (s : Lifetime ι σ) : LifeLabel ι ρ → Bool
  | .ret i => i ∉ s.inHand
  | .idle => s.epoller.readyList.all fun i => s.owner i ≠ .returned
  | _ => true

/-- The pass has an item in hand whose call has returned. -/
def Doomed (s : Lifetime ι σ) : Prop := ∃ i ∈ s.inHand, s.owner i = .returned

/-- A callback makes no call return and keeps the pass. -/
theorem callback_owner {i : ι} {r : ρ i} (hcall : s.callback op i r = some s') :
    s'.pc = s.pc ∧ ∀ j, j ≠ i → s'.owner j = s.owner j := by
  unfold callback at hcall
  split at hcall
  · cases hcall
  · cases hcall
    exact ⟨rfl, fun j hj => Function.update_of_ne hj ..⟩
  · cases hcall
    exact ⟨rfl, fun _ _ => rfl⟩

/-- The loop gets rid of such an item only by using it. -/
theorem doomed_loop (h : Doomed s) {r : ∀ i, ρ i} (hlive : s.usesLive (.loop r : LifeLabel ι ρ) = true)
    (hturn : LoopTurn op s r s') : Doomed s' := by
  obtain ⟨j, hj, hret⟩ := h
  -- the item of the test is not one
  have hready {i : ι} {c : Callback} {todo : List Callback} {ready : List ι}
      (hpc : s.pc = .handling i (c :: todo) ready) : j ≠ i ∧ j ∈ ready := by
    have hji : j ≠ i := by
      rintro rfl
      simp [Lifetime.usesLive, Lifetime.uses, hpc, hret] at hlive
    simp only [Lifetime.inHand, hpc] at hj
    exact ⟨hji, (List.mem_cons.1 hj).resolve_left hji⟩
  have hnext {t : Lifetime ι σ} {i : ι} {todo : List Callback} {ready : List ι}
      (hpc : t.pc = .handling i todo ready) (hj : j ∈ ready) (ht : t.owner j = s.owner j) :
      Doomed t := by
    refine ⟨j, ?_, ht.trans hret⟩
    unfold Lifetime.inHand
    rw [hpc]
    cases todo with
    | nil => exact hj
    | cons _ _ => exact List.mem_cons_of_mem _ hj
  cases hturn with
  | taken hpc =>
    simp only [Lifetime.inHand, hpc] at hj
    exact ⟨j, by simpa [Lifetime.inHand, reports] using hj, hret⟩
  | take hpc =>
    simp only [Lifetime.inHand, hpc] at hj
    rw [← takeEvent_inHand] at hj
    exact ⟨j, hj, hret⟩
  | passed hpc => simp [Lifetime.inHand, hpc] at hj
  | item hpc | handled hpc =>
    simp only [Lifetime.inHand, hpc] at hj
    exact ⟨j, hj, hret⟩
  | skip hpc => exact hnext rfl (hready hpc).2 rfl
  | call hpc _ _ hcall =>
    obtain ⟨hpc', howner⟩ := callback_owner hcall
    exact hnext hpc' (hready hpc).2 (howner j (hready hpc).1)

theorem doomed_step (h : Doomed s) {l : LifeLabel ι ρ} (hlive : s.usesLive l = true)
    (hstep : step op s l = some s') : Doomed s' := by
  have hbusy : s.pc ≠ .waiting := by
    intro hpc
    obtain ⟨j, hj, _⟩ := h
    simp [Lifetime.inHand, hpc] at hj
  cases step_turn hstep with
  | @enable i hi =>
    obtain ⟨j, hj, hret⟩ := h
    refine ⟨j, ?_, ?_⟩
    · simpa only [Lifetime.inHand, Lifetime.register, SmartEPoller.register_readyList] using hj
    · have hji : j ≠ i := by
        rintro rfl
        rw [hi] at hret
        cases hret
      exact (Function.update_of_ne hji ..).trans hret
  | @watch i hi =>
    obtain ⟨j, hj, hret⟩ := h
    refine ⟨j, ?_, hret⟩
    simpa only [Lifetime.inHand, Lifetime.watch, SmartEPoller.watchStep_readyList] using hj
  | @ret i =>
    obtain ⟨j, hj, hret⟩ := h
    refine ⟨j, hj, ?_⟩
    by_cases hji : j = i
    · subst hji; exact Function.update_self ..
    · exact (Function.update_of_ne hji ..).trans hret
  | batch hpc => exact absurd hpc hbusy
  | idle hpc => exact absurd hpc hbusy
  | fail hpc => exact absurd hpc hbusy
  | loop hturn => exact doomed_loop h hlive hturn

/-- What a call that returns too early, or an idle wait that finds its item, leads to. -/
theorem doomed_of_not_keepsLive {l : LifeLabel ι ρ} (hnot : ¬ s.keepsLive l = true)
    (hstep : step op s l = some s') : Doomed s' := by
  cases step_turn hstep with
  | @ret i =>
    simp only [keepsLive, decide_eq_true_eq, not_not] at hnot
    exact ⟨i, hnot, Function.update_self ..⟩
  | idle =>
    simp only [keepsLive, List.all_eq_true, decide_eq_true_eq, not_forall, not_not] at hnot
    obtain ⟨i, hi, hret⟩ := hnot
    exact ⟨i, hi, hret⟩
  | enable | watch | batch | fail | loop => exact absurd rfl hnot

/-- **In a run that ends with the epoller waiting, no item used after its call returned means that
no call returned with its item in hand and no idle wait found the item of a returned call.** -/
theorem keepsLive_of_noUseAfterReturn (ls : List (LifeLabel ι ρ))
    (hrun : Transition.exec (step op) s ls = some s') (hpc : s'.pc = .waiting)
    (hlive : Transition.Guarded (step op) (fun s l => s.usesLive l = true) s ls) :
    Transition.Guarded (step op) (fun s l => s.keepsLive l = true) s ls := by
  have hend : ¬ Doomed s' := by
    rintro ⟨j, hj, -⟩
    simp [Lifetime.inHand, hpc] at hj
  exact Transition.Guarded.of_end (P := fun _ => True) (fun _ _ _ _ _ _ => trivial)
    (fun _ _ _ _ hnot hs => doomed_of_not_keepsLive hnot hs)
    (fun _ _ _ h hl hs => doomed_step h hl hs) ls s s' trivial hlive hrun hend

end Lifetime

end

end SmartRoutine
