import SmartRoutine.IoRuntime
import SmartRoutine.Lib.InOrder

/-!
# How long a coroutine waits

A worker serves its ring in order, and looks at the global list only when its ring is empty.

* `run_ring_waits` — a coroutine in a ring waits for those before it: it is the next but so many
  that the worker switches to, whatever the others do meanwhile.
* `run_list_waits` — the global list leaves in order and in batches, each at a `get_task` that
  finds its worker's ring empty, and at no other time.
* `run_starves` — with one worker, a coroutine that goes on starting others and yielding keeps the
  worker from the global list for ever, and with it every coroutine the epoller resumes.
-/

set_option autoImplicit false

namespace SmartRoutine

open BoundedQueue InOrder

variable {W : Type} [DecidableEq W]

/-- The coroutines in the ring of a worker, the oldest first. -/
def ring (s : SmartRuntime W) (w : W) : List (CoroId W) := (s.threads w).taskQueue.toList

/-- The thread that calls `get_task` in a step, and the object it calls it on. -/
def getsTask (s : SmartRuntime W) : Label W → Option (W × W)
  | .worker t .advance =>
    match s.pc t with
    | .yielding _ _ => some (t, t)
    | .mainLoop self => some (t, self)
    | _ => none
  | _ => none

/-- What `get_task` of `w` returns in a step; the worker switches to it. -/
def handsOut (f : Flags) (w : W) (s : SmartRuntime W) (l : Label W) : List (CoroId W) :=
  match getsTask s l with
  | some (t, self) => if self = w then (s.getTask f t self).1.toList else []
  | none => []

/-- The batch that leaves the global list in a step. -/
def refills (f : Flags) (s : SmartRuntime W) (l : Label W) : List (CoroId W) :=
  match getsTask s l with
  | some (_, self) => if (s.threads self).taskQueue.empty then s.taskList.take f.batchSize else []
  | none => []

/-! ## Steps -/

/-- The queues at most grow, in rings of the same size. -/
structure Grows (s s' : SmartRuntime W) : Prop where
  ring : ∀ w, ring s w <+: ring s' w
  list : s.taskList <+: s'.taskList
  capacity : ∀ w, (s'.threads w).taskQueue.capacity = (s.threads w).taskQueue.capacity

section

variable {f : Flags} {s s₁ s' : SmartRuntime W} {ρ : Nat → Place W} {t self : W}

omit [DecidableEq W] in
theorem Grows.of_eq (hring : ∀ w, (s'.threads w).taskQueue = (s.threads w).taskQueue)
    (hlist : s'.taskList = s.taskList) : Grows s s' :=
  ⟨fun w => by simp [SmartRoutine.ring, hring], by simp [hlist], fun w => by rw [hring]⟩

omit [DecidableEq W] in
theorem Grows.trans (h : Grows s s₁) (h' : Grows s₁ s') : Grows s s' :=
  ⟨fun w => (h.ring w).trans (h'.ring w), h.list.trans h'.list,
    fun w => (h'.capacity w).trans (h.capacity w)⟩

/-- Replacing a ring by one of the same size. -/
theorem setQueue_capacity (s : SmartRuntime W) {self : W} {q : BoundedQueue (CoroId W)}
    (hq : q.capacity = (s.threads self).taskQueue.capacity) (w : W) :
    ((s.setQueue self q).threads w).taskQueue.capacity = (s.threads w).taskQueue.capacity := by
  by_cases hw : w = self
  · subst hw
    rw [setQueue_self, hq]
  · rw [setQueue_other _ _ _ hw]

/-- `push_task` on a ring with room. -/
theorem pushTask_of_lt {xs : List (CoroId W)} (hq : Holds (s.threads self).taskQueue xs)
    (hl : xs.length < (s.threads self).taskQueue.capacity) (c : CoroId W) :
    s.pushTask t self c =
      (s.emit (.access t self .taskQueue)).setQueue self ((s.threads self).taskQueue.push c).2 :=
  if_pos (hq.push_of_lt hl c).1

/-- `push_task` on a full ring. -/
theorem pushTask_of_full {xs : List (CoroId W)} (hq : Holds (s.threads self).taskQueue xs)
    (hl : xs.length = (s.threads self).taskQueue.capacity) (c : CoroId W) :
    s.pushTask t self c = ((s.emit (.access t self .taskQueue)).setQueue self
      (s.threads self).taskQueue).pushGlobal c := by
  have hfull := hq.push_of_full hl c
  unfold SmartRuntime.pushTask
  dsimp only
  rw [show ((s.emit (.access t self .taskQueue)).threads self).taskQueue =
    (s.threads self).taskQueue from rfl, hfull, if_neg (by simp)]

/-- `get_task` on a ring that is not empty. -/
theorem getTask_of_cons {c : CoroId W} {xs : List (CoroId W)}
    (hq : Holds (s.threads self).taskQueue (c :: xs)) :
    s.getTask f t self = (some c,
      (s.emit (.access t self .taskQueue)).setQueue self (s.threads self).taskQueue.pop) := by
  have hne : (s.threads self).taskQueue.empty = false := by
    rw [← Bool.not_eq_true, hq.empty_iff]; simp
  unfold SmartRuntime.getTask
  dsimp only
  rw [show ((s.emit (.access t self .taskQueue)).threads self).taskQueue =
    (s.threads self).taskQueue from rfl, if_neg (by simp [hne]), hq.front]

theorem pushTask_grows (h : Pool s ρ) (t self : W) (c : CoroId W) : Grows s (s.pushTask t self c) := by
  have hq := h.holds self
  by_cases hl : (s.threads self).taskQueue.toList.length < (s.threads self).taskQueue.capacity
  · obtain ⟨-, hpush⟩ := hq.push_of_lt hl c
    rw [pushTask_of_lt hq hl]
    refine ⟨fun w => ?_, List.prefix_rfl, setQueue_capacity (s.emit _) (push_capacity _ c)⟩
    by_cases hw : w = self
    · subst hw
      rw [ring, ring, setQueue_self, hpush.toList_eq]
      exact List.prefix_append ..
    · rw [ring, ring, setQueue_other _ _ _ hw]
      exact List.prefix_rfl
  · rw [pushTask_of_full hq (by have := hq.length_le; omega)]
    refine ⟨fun w => ?_, List.prefix_append .., setQueue_capacity (s.emit _) rfl⟩
    show ring s w <+: (((s.emit _).setQueue self _).threads w).taskQueue.toList
    by_cases hw : w = self
    · subst hw
      simp [ring]
    · rw [ring, setQueue_other _ _ _ hw]
      exact List.prefix_rfl

theorem flushCallback_grows (h : Pool s ρ) (t self : W) : Grows s (s.flushCallback t self) := by
  unfold SmartRuntime.flushCallback
  cases (s.threads self).delayCallback with
  | none => exact .of_eq (fun _ => rfl) rfl
  | some cb =>
    have hset (s' : SmartRuntime W) : Grows s' (s'.setSlot self none) :=
      .of_eq (setSlot_queue s' self none) rfl
    cases cb with
    | addBackToQueue c =>
      have hemit : Grows s (s.emit (.exec t self (.addBackToQueue c))) := .of_eq (fun _ => rfl) rfl
      exact (hemit.trans (pushTask_grows (pool_emit h _) t t c)).trans (hset _)
    | enableEpollReading c => exact .of_eq (setSlot_queue _ self none) rfl
    | enableEpollWriting c => exact .of_eq (setSlot_queue _ self none) rfl
    | destroyCoro c => exact .of_eq (setSlot_queue _ self none) rfl

/-- What `get_task` takes from the global list. -/
theorem getTask_list (s : SmartRuntime W) (t self : W) :
    (if (s.threads self).taskQueue.empty then s.taskList.take f.batchSize else []) ++
      (s.getTask f t self).2.taskList = s.taskList := by
  have hsame : ((s.emit (.access t self .taskQueue)).threads self).taskQueue =
      (s.threads self).taskQueue := rfl
  have hlist : (s.emit (.access t self .taskQueue)).taskList = s.taskList := rfl
  unfold SmartRuntime.getTask
  dsimp only
  rw [hsame, hlist]
  split
  · cases ht : s.taskList.take f.batchSize with
    | nil => rfl
    | cons c tmp =>
      show (c :: tmp) ++ s.taskList.drop f.batchSize = _
      rw [← ht, List.take_append_drop]
  · rfl

/-- `get_task` takes from the ring in order. -/
theorem getTask_takes (h : Pool s ρ) (t self : W) :
    (∀ w, w ≠ self → ring (s.getTask f t self).2 w = ring s w) ∧
      ring s self <+: (s.getTask f t self).1.toList ++ ring (s.getTask f t self).2 self ∧
      ∀ w, ((s.getTask f t self).2.threads w).taskQueue.capacity = (s.threads w).taskQueue.capacity := by
  have hq := h.holds self
  cases hx : ring s self with
  | cons c xs =>
    rw [ring] at hx
    rw [hx] at hq
    rw [getTask_of_cons hq]
    refine ⟨fun w hw => ?_, ?_, setQueue_capacity (s.emit _) (pop_capacity _)⟩
    · rw [ring, ring, setQueue_other _ _ _ hw]
      rfl
    · rw [ring, setQueue_self, hq.pop.toList_eq]
      exact List.prefix_rfl
  | nil =>
    rw [ring] at hx
    unfold SmartRuntime.getTask
    dsimp only
    rw [show ((s.emit (.access t self .taskQueue)).threads self).taskQueue =
      (s.threads self).taskQueue from rfl, show (s.emit (.access t self .taskQueue)).taskList = s.taskList from rfl,
      if_pos (hq.empty_iff.2 hx)]
    cases ht : s.taskList.take f.batchSize with
    | nil => exact ⟨fun _ _ => rfl, List.nil_prefix, fun _ => rfl⟩
    | cons c tmp =>
      refine ⟨fun w hw => ?_, List.nil_prefix, setQueue_capacity
        { s.emit (.access t self .taskQueue) with taskList := s.taskList.drop f.batchSize } ?_⟩
      · dsimp only
        rw [ring, ring, setQueue_other _ _ _ hw]
        rfl
      · rw [pop_capacity, pushAll_capacity]
        rfl

theorem switchTo_grows (s : SmartRuntime W) (t self : W) (c : CoroId W) (k : Fcontext W) :
    Grows s (s.switchTo t self c k) :=
  .of_eq (fun w => setCurrent_queue _ self c w) rfl

/-- What a step does to the queues. -/
structure InOrder (f : Flags) (s : SmartRuntime W) (l : Label W) (s' : SmartRuntime W) : Prop where
  ring : ∀ w, ring s w <+: handsOut f w s l ++ ring s' w
  list : s.taskList <+: refills f s l ++ s'.taskList
  capacity : ∀ w, (s'.threads w).taskQueue.capacity = (s.threads w).taskQueue.capacity

theorem Grows.inOrder {l : Label W} (h : Grows s s') (hl : getsTask s l = none) : InOrder f s l s' := by
  refine ⟨fun w => ?_, ?_, h.capacity⟩
  · rw [handsOut, hl]
    exact h.ring w
  · rw [refills, hl]
    exact h.list

/-- A step that calls `get_task`. -/
theorem getTask_inOrder {l : Label W} (h : Pool s ρ) (hl : getsTask s l = some (t, self))
    (hafter : Grows (s.getTask f t self).2 s') : InOrder f s l s' := by
  obtain ⟨hothers, hself, hcapacity⟩ := getTask_takes (f := f) h t self
  refine ⟨fun w => ?_, ?_, fun w => (hafter.capacity w).trans (hcapacity w)⟩
  · rw [handsOut, hl]
    dsimp only
    by_cases hw : self = w
    · subst hw
      rw [if_pos rfl]
      exact hself.trans ((List.prefix_append_right_inj _).2 (hafter.ring self))
    · rw [if_neg hw, List.nil_append, ← hothers w (Ne.symm hw)]
      exact hafter.ring w
  · rw [refills, hl]
    dsimp only
    have hbatch := (List.prefix_append_right_inj
      (if (s.threads self).taskQueue.empty then s.taskList.take f.batchSize else [])).2 hafter.list
    rwa [getTask_list] at hbatch

/-- **One step of the runtime** serves the queues in order. -/
theorem step_inOrder (h : Inv s ρ) {l : Label W} (hstep : step f s l = some s') : InOrder f s l s' := by
  cases l with
  | externalStart =>
    obtain rfl := Option.some.inj hstep
    exact Grows.inOrder ⟨fun _ => List.prefix_rfl, List.prefix_append .., fun _ => rfl⟩ rfl
  | ioComplete c =>
    rw [step] at hstep
    split at hstep
    · obtain rfl := Option.some.inj hstep
      exact Grows.inOrder ⟨fun _ => List.prefix_rfl, List.prefix_append .., fun _ => rfl⟩ rfl
    · cases hstep
  | worker t a =>
    cases workerStep_turn hstep with
    | coroRunner hpc =>
      refine Grows.inOrder ?_ (by rw [getsTask, hpc])
      exact (flushCallback_grows h.pool t t).trans (.of_eq (fun _ => rfl) rfl)
    | start hpc =>
      refine Grows.inOrder ?_ rfl
      obtain ⟨hpool, -⟩ := pool_create h.pool
      have hnew : Grows s { s with nextCoro := s.nextCoro + 1 } := .of_eq (fun _ => rfl) rfl
      exact hnew.trans (pushTask_grows hpool t t _)
    | yield hpc => exact Grows.inOrder (.of_eq (setSlot_queue _ t _) rfl) rfl
    | call d hpc =>
      refine Grows.inOrder (.of_eq (setSlot_queue _ t _) rfl) ?_
      cases d <;> rfl
    | @finish r hpc => exact Grows.inOrder (.of_eq (setSlot_queue _ r.tlsSt _) rfl) rfl
    | @switch r self hpc =>
      refine getTask_inOrder h.pool (by rw [getsTask, hpc]) ?_
      unfold SmartRuntime.yieldSwitch
      split
      · rename_i hg
        rw [hg]
        exact switchTo_grows ..
      · rename_i hg
        rw [hg]
        exact switchTo_grows ..
    | @loop self hpc =>
      refine getTask_inOrder h.pool (by rw [getsTask, hpc]) ?_
      unfold SmartRuntime.mainLoop
      split
      · rename_i hg
        rw [hg]
        exact switchTo_grows ..
      · rename_i hg
        rw [hg]
        exact .of_eq (fun _ => rfl) rfl
    | @after self hpc =>
      refine Grows.inOrder ?_ (by rw [getsTask, hpc])
      exact (flushCallback_grows h.pool t self).trans (.of_eq (fun _ => rfl) rfl)

/-! ## Runs -/

/-- Every reachable state, with rings as large as the flag says. -/
theorem run_capacity (hf : 0 < f.capacity) {ls : List (Label W)} (hrun : run f ls = some s)
    (hhome : Transition.Guarded (step f) (fun s l => finishesHome s l = true) (.init f) ls) :
    (∃ ρ, Inv s ρ) ∧ ∀ w, (s.threads w).taskQueue.capacity = f.capacity := by
  refine Transition.exec_invariant_of_guarded
    (P := fun s : SmartRuntime W => (∃ ρ, Inv s ρ) ∧ ∀ w, (s.threads w).taskQueue.capacity = f.capacity)
    (fun s l s' h hhome hstep => ?_) ls _ _ ⟨⟨_, init_inv f hf⟩, fun _ => rfl⟩ hhome hrun
  obtain ⟨⟨ρ, h⟩, hcapacity⟩ := h
  exact ⟨step_inv h hhome hstep, fun w => ((step_inOrder h hstep).capacity w).trans (hcapacity w)⟩

def secondInTurn : List (Label Unit) :=
  [.worker () .yield, .worker () .advance, .worker () .advance, .worker () .finish, .worker () .advance]

/-- **A coroutine in a ring waits for those before it.**  In every run from a reachable state, a
coroutine at position `k` of a worker's ring, which is less than `task_queue_length`, is the one
that the worker's `get_task` returns after `k` others; until then it moves up with each of them. -/
theorem run_ring_waits (hf : 0 < f.capacity) {ls ms : List (Label W)} (hrun : run f ls = some s)
    (hmore : Transition.exec (step f) s ms = some s')
    (hhome : Transition.Guarded (step f) (fun s l => finishesHome s l = true) (.init f) (ls ++ ms))
    {w : W} {k : Nat} {c : CoroId W} (hc : (ring s w)[k]? = some c) :
    k < f.capacity ∧
      if k < (outputs (step f) (handsOut f w) s ms).length then
        (outputs (step f) (handsOut f w) s ms)[k]? = some c
      else (ring s' w)[k - (outputs (step f) (handsOut f w) s ms).length]? = some c := by
  obtain ⟨hhome, hhome'⟩ := (Transition.guarded_append hrun).1 hhome
  obtain ⟨hinv, hcapacity⟩ := run_capacity hf hrun hhome
  have hprefix := prefix_outputs (P := fun s => ∃ ρ, Inv s ρ) (q := fun s => ring s w)
    (handsOut f w) (fun s l s' ⟨ρ, h⟩ hhome hstep =>
      ⟨step_inv h hhome hstep, (step_inOrder h hstep).ring w⟩) ms s s' hinv hhome' hmore
  refine ⟨?_, waits hprefix hc⟩
  obtain ⟨ρ, h⟩ := hinv
  have hlength := (h.pool.holds w).length_le
  rw [hcapacity w] at hlength
  exact Nat.lt_of_lt_of_le (List.getElem?_eq_some_iff.1 hc).1 hlength

/-- A coroutine starts two others, yields and the first of them finishes. -/
theorem run_ring_waits_two : ∃ s s' : SmartRuntime Unit,
    run ⟨25, 10⟩ [.externalStart, .worker () .advance, .worker () .advance, .worker () .start,
      .worker () .start] = some s ∧
    Transition.exec (step ⟨25, 10⟩) s secondInTurn = some s' ∧
    (outputs (step ⟨25, 10⟩) (handsOut ⟨25, 10⟩ ()) s secondInTurn)[1]? = some (.user 2) := by
  obtain ⟨s, hs, hcond⟩ := (Option.any_eq_true ..).1 (show
    (run ⟨25, 10⟩ ([.externalStart, .worker () .advance, .worker () .advance, .worker () .start,
      .worker () .start] : List (Label Unit))).any (fun s => (ring s ())[1]? = some (.user 2) ∧
        1 < (outputs (step ⟨25, 10⟩) (handsOut ⟨25, 10⟩ ()) s secondInTurn).length ∧
        (Transition.exec (step ⟨25, 10⟩) s secondInTurn).isSome) = true by decide +kernel)
  obtain ⟨hring, hlong, hexec⟩ := of_decide_eq_true hcond
  obtain ⟨s', hs'⟩ := Option.isSome_iff_exists.1 hexec
  obtain ⟨-, hwaits⟩ := run_ring_waits (by decide) hs hs'
    (Transition.guarded_of_mem _ _ fun l _ s => finishesHome_unit s l) hring
  rw [if_pos hlong] at hwaits
  exact ⟨s, s', hs, hs', hwaits⟩

/-- **A coroutine in the global list waits for the batches before it**, and a batch leaves it at a
`get_task` that finds its worker's ring empty: without those, it stays where it is. -/
theorem run_list_waits (hf : 0 < f.capacity) {ls ms : List (Label W)} (hrun : run f ls = some s)
    (hmore : Transition.exec (step f) s ms = some s')
    (hhome : Transition.Guarded (step f) (fun s l => finishesHome s l = true) (.init f) (ls ++ ms))
    {k : Nat} {c : CoroId W} (hc : s.taskList[k]? = some c) :
    if k < (outputs (step f) (refills f) s ms).length then
      (outputs (step f) (refills f) s ms)[k]? = some c
    else s'.taskList[k - (outputs (step f) (refills f) s ms).length]? = some c := by
  obtain ⟨hhome, hhome'⟩ := (Transition.guarded_append hrun).1 hhome
  obtain ⟨hinv, -⟩ := run_capacity hf hrun hhome
  have hprefix := prefix_outputs (P := fun s => ∃ ρ, Inv s ρ) (q := fun s => s.taskList)
    (refills f) (fun s l s' ⟨ρ, h⟩ hhome hstep =>
      ⟨step_inv h hhome hstep, (step_inOrder h hstep).list⟩) ms s s' hinv hhome' hmore
  exact waits hprefix hc

/-- Two coroutines in the list and batches of one. -/
theorem run_list_waits_two : ∃ s s' : SmartRuntime Unit,
    run ⟨25, 1⟩ [.externalStart, .externalStart] = some s ∧
    Transition.exec (step ⟨25, 1⟩) s [.worker () .advance] = some s' ∧
    s'.taskList[0]? = some (.user 1) := by
  obtain ⟨s, hs, hcond⟩ := (Option.any_eq_true ..).1 (show
    (run ⟨25, 1⟩ ([.externalStart, .externalStart] : List (Label Unit))).any (fun s =>
      s.taskList[1]? = some (.user 1) ∧
        (outputs (step ⟨25, 1⟩) (refills ⟨25, 1⟩) s [.worker () .advance]).length = 1 ∧
        (Transition.exec (step ⟨25, 1⟩) s [.worker () .advance]).isSome) = true by decide +kernel)
  obtain ⟨hlist, hlong, hexec⟩ := of_decide_eq_true hcond
  obtain ⟨s', hs'⟩ := Option.isSome_iff_exists.1 hexec
  have hwaits := run_list_waits (by decide) hs hs'
    (Transition.guarded_of_mem _ _ fun l _ s => finishesHome_unit s l) hlist
  rw [hlong, if_neg (Nat.lt_irrefl 1)] at hwaits
  exact ⟨s, s', hs, hs', hwaits⟩

end

/-! ## A coroutine that keeps the global list waiting -/

/-- Where worker `t` stands, what it runs, its deferred action and its ring. -/
structure Stands (s : SmartRuntime W) (t : W) (p : Pc W) (c : CoroId W)
    (slot : Option (DelayCallback W)) (xs : List (CoroId W)) : Prop where
  pc : s.pc t = p
  current : (s.threads t).currentCoro = c
  slot : (s.threads t).delayCallback = slot
  queue : Holds (s.threads t).taskQueue xs

/-- The coroutines after a step that leaves the global list as it is. -/
structure Tables (s s' : SmartRuntime W) (coros : CoroId W → Coro W) (nextCoro : Nat) : Prop where
  coros : s'.coros = coros
  nextCoro : s'.nextCoro = nextCoro
  list : s'.taskList = s.taskList

section

variable {f : Flags} {s s' : SmartRuntime W} {t : W} {p : Pc W} {c d : CoroId W} {r : Runner W}
  {slot : Option (DelayCallback W)} {xs : List (CoroId W)}

/-- `push_task` on a ring with room. -/
theorem Stands.pushTask (h : Stands s t p c slot xs)
    (hroom : xs.length < (s.threads t).taskQueue.capacity) (d : CoroId W) :
    Stands (s.pushTask t t d) t p c slot (xs ++ [d]) ∧
      Tables s (s.pushTask t t d) s.coros s.nextCoro := by
  obtain ⟨-, hpush⟩ := h.queue.push_of_lt hroom d
  rw [pushTask_of_lt h.queue hroom]
  refine ⟨⟨h.pc, ?_, ?_, ?_⟩, rfl, rfl, rfl⟩
  · rw [setQueue_current]
    exact h.current
  · rw [setQueue_slot]
    exact h.slot
  · rw [setQueue_self]
    exact hpush

/-- `get_task` on a ring that is not empty. -/
theorem Stands.getTask (h : Stands s t p c slot (d :: xs)) :
    ∃ s', s.getTask f t t = (some d, s') ∧ Stands s' t p c slot xs ∧ Tables s s' s.coros s.nextCoro := by
  refine ⟨_, getTask_of_cons h.queue, ⟨h.pc, ?_, ?_, ?_⟩, rfl, rfl, rfl⟩
  · rw [setQueue_current]
    exact h.current
  · rw [setQueue_slot]
    exact h.slot
  · rw [setQueue_self]
    exact h.queue.pop

theorem Stands.switchTo (h : Stands s t p c slot xs) (hd : (s.coros d).destroyed = false)
    (hne : d ≠ c) (k : Fcontext W) :
    Stands (s.switchTo t t d k) t (SmartRuntime.entry (s.coros d).fcontext) d slot xs ∧
      Tables s (s.switchTo t t d k) (Function.update
        (Function.update s.coros c { s.coros c with fcontext := k }) d
        { s.coros d with fcontext := .running }) s.nextCoro := by
  rw [switchTo_eq]
  refine ⟨⟨?_, setCurrent_self _ t d, ?_, ?_⟩, ?_, rfl, rfl⟩
  · unfold enter
    rw [hd]
    exact Function.update_self ..
  · exact (setCurrent_slot _ t d t).trans h.slot
  · exact (setCurrent_queue _ t d t).symm ▸ h.queue
  · show Function.update (Function.update s.coros (s.threads t).currentCoro _) d
      { Function.update s.coros (s.threads t).currentCoro _ d with fcontext := _ } = _
    rw [h.current, Function.update_of_ne hne]

/-- `smart_routine_start`. -/
theorem Stands.starts (h : Stands s t (.runFn r) c slot xs)
    (hroom : xs.length < (s.threads t).taskQueue.capacity) :
    ∃ s', step f s (.worker t .start) = some s' ∧
      Stands s' t (.runFn r) c slot (xs ++ [.user s.nextCoro]) ∧ Tables s s' s.coros (s.nextCoro + 1) := by
  have hnew : Stands { s with nextCoro := s.nextCoro + 1 } t (.runFn r) c slot xs :=
    ⟨h.pc, h.current, h.slot, h.queue⟩
  obtain ⟨hpush, htables⟩ := hnew.pushTask hroom (.user s.nextCoro)
  refine ⟨_, ?_, hpush, htables.coros, htables.nextCoro, htables.list⟩
  simp only [step, workerStep, h.pc, SmartRuntime.smartRoutineStart]

/-- `smart_routine_yield`. -/
theorem Stands.yields (h : Stands s t (.runFn r) c slot xs) :
    ∃ s', step f s (.worker t .yield) = some s' ∧
      Stands s' t (.yielding r t) c (some (.addBackToQueue c)) xs ∧ Tables s s' s.coros s.nextCoro := by
  obtain ⟨-, hcurrent, hslot⟩ := yieldWith_onlyWorker s t r .addBackToQueue
  refine ⟨s.yieldWith t r .addBackToQueue, by simp only [step, workerStep, h.pc],
    ⟨Function.update_self .., hcurrent.trans h.current, ?_, ?_⟩, rfl, rfl, rfl⟩
  · rw [hslot, h.current]
  · exact (setSlot_queue (s.emit _) t _ t).symm ▸ h.queue

/-- The rest of `yield`, or the turn of `main_loop`, with a coroutine in the ring. -/
theorem Stands.switches (h : Stands s t p c slot (d :: xs)) {k : Fcontext W}
    (hp : p = .yielding r t ∧ k = .inYield r ∨ p = .mainLoop t ∧ k = .inLoop t)
    (hd : (s.coros d).destroyed = false) (hne : d ≠ c) :
    ∃ s', step f s (.worker t .advance) = some s' ∧
      Stands s' t (SmartRuntime.entry (s.coros d).fcontext) d slot xs ∧
      Tables s s' (Function.update (Function.update s.coros c { s.coros c with fcontext := k }) d
        { s.coros d with fcontext := .running }) s.nextCoro := by
  obtain ⟨s₁, hget, h₁, ht₁⟩ := h.getTask (f := f)
  obtain ⟨h₂, ht₂⟩ := h₁.switchTo (by rw [ht₁.coros, hd]) hne k
  rw [ht₁.coros] at h₂ ht₂
  refine ⟨s₁.switchTo t t d k, ?_, h₂, ht₂.coros, ht₂.nextCoro.trans ht₁.nextCoro,
    ht₂.list.trans ht₁.list⟩
  have hpc := h.pc
  rcases hp with ⟨rfl, rfl⟩ | ⟨rfl, rfl⟩
  · simp only [step, workerStep, hpc, SmartRuntime.yieldSwitch, hget]
  · simp only [step, workerStep, hpc, SmartRuntime.mainLoop, hget]

/-- A coroutine is entered, and the one that has yielded goes back to the ring. -/
theorem Stands.enters (h : Stands s t .coroRunner c (some (.addBackToQueue d)) xs)
    (hroom : xs.length < (s.threads t).taskQueue.capacity) :
    ∃ s', step f s (.worker t .advance) = some s' ∧
      Stands s' t (.runFn ⟨t, c⟩) c none (xs ++ [d]) ∧ Tables s s' s.coros s.nextCoro := by
  have hemit : Stands (s.emit (.exec t t (.addBackToQueue d))) t .coroRunner c
      (some (.addBackToQueue d)) xs := ⟨h.pc, h.current, h.slot, h.queue⟩
  obtain ⟨hpush, ht⟩ := hemit.pushTask hroom d
  have hflush : s.flushCallback t t =
      ((s.emit (.exec t t (.addBackToQueue d))).pushTask t t d).setSlot t none := by
    rw [SmartRuntime.flushCallback, h.slot]
    rfl
  have hcurrent : ((s.flushCallback t t).threads t).currentCoro = c := by
    rw [hflush, setSlot_current]
    exact hpush.current
  refine ⟨(((s.flushCallback t t).emit (.access t t .currentCoro)).setPc t (.runFn ⟨t, c⟩)), ?_, ?_⟩
  · simp only [step, workerStep, h.pc, SmartRuntime.coroRunner]
    rw [show ((s.flushCallback t t).emit (.access t t .currentCoro)).threads =
      (s.flushCallback t t).threads from rfl, hcurrent]
  · rw [hflush] at hcurrent ⊢
    refine ⟨⟨Function.update_self .., hcurrent, setSlot_self _ t none, ?_⟩, ht.coros, ht.nextCoro, ht.list⟩
    exact (setSlot_queue _ t none t).symm ▸ hpush.queue

/-- A coroutine finishes on the worker that entered it. -/
theorem Stands.finishes (h : Stands s t (.runFn ⟨t, c⟩) c slot xs) :
    ∃ s', step f s (.worker t .finish) = some s' ∧
      Stands s' t (.mainLoop t) c (some (.destroyCoro c)) xs ∧
      Tables s s' (Function.update s.coros c { s.coros c with finished := true }) s.nextCoro := by
  obtain ⟨-, hcurrent, hslot⟩ := finishCoro_onlyWorker s t (r := ⟨t, c⟩) rfl
  refine ⟨s.finishCoro t ⟨t, c⟩, by simp only [step, workerStep, h.pc],
    ⟨Function.update_self .., hcurrent.trans h.current, hslot, ?_⟩, rfl, rfl, rfl⟩
  exact (setSlot_queue _ t _ t).symm ▸ h.queue

/-- The coroutine `a` runs on `t`, whose ring is empty. -/
structure Spins (s : SmartRuntime W) (t : W) (r : Runner W) (a : Nat) : Prop where
  stands : ∃ slot, Stands s t (.runFn r) (.user a) slot []
  alive : (s.coros (.user a)).destroyed = false
  born : a < s.nextCoro
  unborn : ∀ n, s.nextCoro ≤ n → s.coros (.user n) = ⟨.fresh, false, false⟩

/-- A coroutine starts another one and yields; the other one finishes. -/
def round (t : W) : List (Label W) :=
  [.worker t .start, .worker t .yield, .worker t .advance, .worker t .advance, .worker t .finish,
    .worker t .advance]

/-- **A round** ends where it began. -/
theorem round_spins {a : Nat} (h : Spins s t r a) : ∃ s', Transition.exec (step f) s (round t) = some s' ∧
    Spins s' t r a ∧ s'.taskList = s.taskList ∧ s'.nextCoro = s.nextCoro + 1 := by
  obtain ⟨slot, h₀⟩ := h.stands
  have hne : CoroId.user (W := W) s.nextCoro ≠ .user a := by
    intro e
    obtain rfl := CoroId.user.inj e
    exact Nat.lt_irrefl _ h.born
  have hfresh := h.unborn _ (Nat.le_refl _)
  obtain ⟨s₁, hs₁, h₁, ht₁⟩ := h₀.starts (f := f) h₀.queue.capacity_pos
  obtain ⟨s₂, hs₂, h₂, ht₂⟩ := h₁.yields (f := f)
  have hcoros₂ := ht₂.coros.trans ht₁.coros
  obtain ⟨s₃, hs₃, h₃, ht₃⟩ := h₂.switches (f := f) (.inl ⟨rfl, rfl⟩) (by rw [hcoros₂, hfresh]) hne
  rw [hcoros₂] at h₃ ht₃
  rw [hfresh] at h₃
  -- the new coroutine runs, and the first one is back in the ring
  obtain ⟨s₄, hs₄, h₄, ht₄⟩ := h₃.enters (f := f) h₃.queue.capacity_pos
  obtain ⟨s₅, hs₅, h₅, ht₅⟩ := h₄.finishes (f := f)
  have hcoros₅ : s₅.coros = _ := ht₅.coros.trans (by rw [ht₄.coros, ht₃.coros])
  have ha₅ : s₅.coros (.user a) = { s.coros (.user a) with fcontext := .inYield r } := by
    rw [hcoros₅, Function.update_of_ne (Ne.symm hne), Function.update_of_ne (Ne.symm hne),
      Function.update_self]
  obtain ⟨s₆, hs₆, h₆, ht₆⟩ := h₅.switches (f := f) (r := r) (.inr ⟨rfl, rfl⟩)
    (by rw [ha₅]; exact h.alive) (Ne.symm hne)
  have hnext : s₆.nextCoro = s.nextCoro + 1 := by
    rw [ht₆.nextCoro, ht₅.nextCoro, ht₄.nextCoro, ht₃.nextCoro, ht₂.nextCoro, ht₁.nextCoro]
  refine ⟨s₆, ?_, ⟨⟨some (.destroyCoro (.user s.nextCoro)), ?_⟩, ?_, ?_, fun n hn => ?_⟩, ?_, hnext⟩
  · rw [round, Transition.exec_cons hs₁, Transition.exec_cons hs₂, Transition.exec_cons hs₃,
      Transition.exec_cons hs₄, Transition.exec_cons hs₅, Transition.exec_cons hs₆, Transition.exec_nil]
  · rw [ha₅] at h₆
    exact h₆
  · rw [ht₆.coros, Function.update_self, ha₅]
    exact h.alive
  · rw [hnext]
    exact Nat.lt_succ_of_lt h.born
  · rw [hnext] at hn
    have hna : CoroId.user (W := W) n ≠ .user a := by
      intro e
      obtain rfl := CoroId.user.inj e
      exact absurd h.born (by omega)
    have hnn : CoroId.user (W := W) n ≠ .user s.nextCoro := by
      intro e
      obtain rfl := CoroId.user.inj e
      omega
    rw [ht₆.coros, Function.update_of_ne hna, Function.update_of_ne hnn, hcoros₅,
      Function.update_of_ne hnn, Function.update_of_ne hnn, Function.update_of_ne hna]
    exact h.unborn n (by omega)
  · rw [ht₆.list, ht₅.list, ht₄.list, ht₃.list, ht₂.list, ht₁.list]

/-- Any number of rounds. -/
theorem rounds_spin {a : Nat} (n : Nat) : ∀ {s : SmartRuntime W}, Spins s t r a →
    ∃ s', Transition.exec (step f) s (List.replicate n (round t)).flatten = some s' ∧
      Spins s' t r a ∧ s'.taskList = s.taskList ∧ s'.nextCoro = s.nextCoro + n := by
  induction n with
  | zero => exact fun {s} h => ⟨s, rfl, h, rfl, rfl⟩
  | succ n ih =>
    intro s h
    obtain ⟨s₁, hs₁, h₁, hlist₁, hnext₁⟩ := round_spins (f := f) h
    obtain ⟨s', hs', h', hlist', hnext'⟩ := ih h₁
    refine ⟨s', ?_, h', hlist'.trans hlist₁, by omega⟩
    rw [List.replicate_succ, List.flatten_cons, Transition.exec_append, hs₁]
    exact hs'

/-- **The global list can wait for ever.**  From every reachable state in which a coroutine runs and
its worker's ring is empty, the coroutine may go on starting others and yielding any number of
times, and nothing of the global list is taken; with one worker nobody else would take it. -/
theorem run_starves (hf : 0 < f.capacity) {ls : List (Label W)} (hrun : run f ls = some s)
    (hhome : Transition.Guarded (step f) (fun s l => finishesHome s l = true) (.init f) ls)
    (hpc : s.pc t = .runFn r) (hring : ring s t = []) (n : Nat) :
    ∃ s', Transition.exec (step f) s (List.replicate n (round t)).flatten = some s' ∧
      s'.taskList = s.taskList ∧ s'.pc t = .runFn r ∧ s'.nextCoro = s.nextCoro + n := by
  obtain ⟨-, ρ, h⟩ := exec_contexts (init_contextsInv f hf) hrun hhome
  obtain ⟨a, ⟨hcurrent, hplace, halive⟩, -, -⟩ := (h.inv.workers t).at hpc
  have hqueue := h.inv.pool.holds t
  rw [show (s.threads t).taskQueue.toList = [] from hring] at hqueue
  have hborn : a < s.nextCoro := by
    refine Nat.lt_of_not_le fun hle => ?_
    rw [(h.inv.pool.absent a).2 hle] at hplace
    cases hplace
  obtain ⟨s', hs', h', hlist, hnext⟩ := rounds_spin (f := f) n
    ⟨⟨_, hpc, hcurrent, rfl, hqueue⟩, halive, hborn, h.unborn⟩
  obtain ⟨slot, hstands⟩ := h'.stands
  exact ⟨s', hs', hlist, hstands.pc, hnext⟩

/-- A coroutine runs when another one is started from outside, which then never runs. -/
theorem run_starves_one : ∃ s : SmartRuntime Unit,
    run ⟨25, 10⟩ [.externalStart, .worker () .advance, .worker () .advance, .externalStart] = some s ∧
      s.taskList = [.user 1] ∧
      ∀ n, ∃ s', Transition.exec (step ⟨25, 10⟩) s (List.replicate n (round ())).flatten = some s' ∧
        s'.taskList = s.taskList ∧ s'.pc () = .runFn ⟨(), .user 0⟩ ∧ s'.nextCoro = s.nextCoro + n := by
  obtain ⟨s, hs, hcond⟩ := (Option.any_eq_true ..).1 (show
    (run ⟨25, 10⟩ ([.externalStart, .worker () .advance, .worker () .advance, .externalStart] :
      List (Label Unit))).any (fun s => s.taskList = [.user 1] ∧ s.pc () = .runFn ⟨(), .user 0⟩ ∧
        ring s () = []) = true by decide +kernel)
  obtain ⟨hlist, hpc, hring⟩ := of_decide_eq_true hcond
  exact ⟨s, hs, hlist, run_starves (by decide) hs
    (Transition.guarded_of_mem _ _ fun l _ s => finishesHome_unit s l) hpc hring⟩

end

end SmartRoutine
