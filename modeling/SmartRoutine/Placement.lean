import SmartRoutine.Scheduler

/-!
# Every coroutine is in exactly one place

The invariant behind the scheduler: a function `ρ` gives each coroutine its one place (the global
list, a worker's ring, the parked set, the stack a thread executes, a worker's deferred action)
and each container holds, without repetition, only coroutines placed there.

* `Filed` — a container agrees with `ρ`; `Pool` — all containers do, and whatever they hold is
  suspended, not finished and not destroyed.
* `getTask_pool`, `pushTask_pool` — the queue operations move coroutines between places.
-/

set_option autoImplicit false

namespace SmartRoutine

open BoundedQueue

variable {W : Type}

/-- Where a coroutine made by `smart_routine_start` is. -/
inductive Place (W : Type) where
  /-- Not created yet. -/
  | absent
  /-- In `task_list_`. -/
  | global
  | queued (self : W)
  | parked
  /-- It is `current_coro_` of the worker. -/
  | onThread (self : W)
  /-- It has been left and is the argument of the worker's deferred action. -/
  | inSlot (self : W)
  /-- In no container and never to run again: destroyed, dropped by a full ring, or forgotten
  with an overwritten deferred action. -/
  | gone
  deriving DecidableEq, Repr

/-- The places a coroutine is handed to `switch_to` from, and not created yet: its context is
fresh or suspended. -/
def Place.AtRest : Place W → Prop
  | .absent | .global | .queued _ | .parked => True
  | _ => False

/-- The worker whose own state refers to the coroutine. -/
def Place.owner : Place W → Option W
  | .onThread self | .inSlot self => some self
  | _ => none

/-! ## Containers -/

/-- The container `xs` holds, once each, coroutines whose place is `p`. -/
structure Filed (ρ : Nat → Place W) (p : Place W) (xs : List (CoroId W)) : Prop where
  nodup : xs.Nodup
  place : ∀ c ∈ xs, ∃ n, c = .user n ∧ ρ n = p

namespace Filed

variable {ρ ρ' : Nat → Place W} {p : Place W} {xs ys : List (CoroId W)}

theorem nil (ρ : Nat → Place W) (p : Place W) : Filed ρ p [] := ⟨List.nodup_nil, by simp⟩

theorem place_user (h : Filed ρ p xs) {n : Nat} (hn : .user n ∈ xs) : ρ n = p := by
  obtain ⟨m, hm, hp⟩ := h.place _ hn
  cases hm
  exact hp

theorem congr (h : Filed ρ p xs) (he : ∀ n, .user n ∈ xs → ρ' n = ρ n) : Filed ρ' p xs := by
  refine ⟨h.nodup, fun c hc => ?_⟩
  obtain ⟨n, rfl, hn⟩ := h.place c hc
  exact ⟨n, rfl, by rw [he n hc, hn]⟩

/-- Moving a coroutine between other places leaves the container alone. -/
theorem update (h : Filed ρ p xs) {n : Nat} (hn : ρ n ≠ p) (p' : Place W) :
    Filed (Function.update ρ n p') p xs := by
  refine h.congr fun m hm => ?_
  have hne : m ≠ n := fun e => hn (e ▸ h.place_user hm)
  exact Function.update_of_ne hne _ _

theorem concat (h : Filed ρ p xs) {n : Nat} (hn : ρ n ≠ p) :
    Filed (Function.update ρ n p) p (xs ++ [.user n]) := by
  have hnot : (CoroId.user n : CoroId W) ∉ xs := fun hm => hn (h.place_user hm)
  refine ⟨List.nodup_append.2 ⟨h.nodup, by simp, ?_⟩, fun c hc => ?_⟩
  · intro a ha b hb hab
    simp only [List.mem_singleton] at hb
    exact hnot (hb ▸ hab ▸ ha)
  · rcases List.mem_append.1 hc with hc | hc
    · exact (h.update hn p).place c hc
    · simp only [List.mem_singleton] at hc
      exact ⟨n, hc, Function.update_self ..⟩

theorem sublist (h : Filed ρ p xs) (hs : List.Sublist ys xs) : Filed ρ p ys :=
  ⟨h.nodup.sublist hs, fun c hc => h.place c (hs.subset hc)⟩

end Filed

/-! ## The pool of suspended coroutines -/

def Live (s : SmartRuntime W) (n : Nat) : Prop :=
  (s.coros (.user n)).finished = false ∧ (s.coros (.user n)).destroyed = false

/-- Not running, not finished, not destroyed; its context is fresh or its own suspended stack. -/
def Suspended (s : SmartRuntime W) (n : Nat) : Prop :=
  Live s n ∧ ((s.coros (.user n)).fcontext = .fresh ∨
    ∃ r, (s.coros (.user n)).fcontext = .inYield r ∧ r.currCoro = .user n)

/-- The rings, the global list and the parked set agree with `ρ`. -/
structure Pool (s : SmartRuntime W) (ρ : Nat → Place W) : Prop where
  holds : ∀ w, Holds (s.threads w).taskQueue (s.threads w).taskQueue.toList
  queue : ∀ w, Filed ρ (.queued w) (s.threads w).taskQueue.toList
  list : Filed ρ .global s.taskList
  parked : Filed ρ .parked s.parked
  suspended : ∀ n, (ρ n).AtRest → Suspended s n
  absent : ∀ n, ρ n = .absent ↔ s.nextCoro ≤ n

namespace Pool

variable {s s' : SmartRuntime W} {ρ : Nat → Place W}

theorem absent_update (h : Pool s ρ) {n : Nat} {p : Place W} (ha : ρ n ≠ .absent)
    (hp : p ≠ .absent) (m : Nat) : Function.update ρ n p m = .absent ↔ s.nextCoro ≤ m := by
  by_cases e : m = n
  · subst e
    rw [Function.update_self, ← h.absent m]
    exact ⟨fun h => absurd h hp, fun h => absurd h ha⟩
  · rw [Function.update_of_ne e]; exact h.absent m

theorem suspended_update (h : Pool s ρ) {n : Nat} {p : Place W} (hs : p.AtRest → Suspended s n)
    (m : Nat) (hm : (Function.update ρ n p m).AtRest) : Suspended s m := by
  by_cases e : m = n
  · subst e; rw [Function.update_self] at hm; exact hs hm
  · rw [Function.update_of_ne e] at hm; exact h.suspended m hm

/-- A coroutine outside the containers may change place outside them. -/
theorem move (h : Pool s ρ) {n : Nat} {p : Place W} (hn : ¬ (ρ n).AtRest)
    (hp : ¬ p.AtRest) : Pool s (Function.update ρ n p) where
  holds := h.holds
  queue := fun w => (h.queue w).update (fun e => hn (by rw [e]; trivial)) p
  list := h.list.update (fun e => hn (by rw [e]; trivial)) p
  parked := h.parked.update (fun e => hn (by rw [e]; trivial)) p
  suspended := h.suspended_update fun h => absurd h hp
  absent := h.absent_update (fun e => hn (by rw [e]; trivial)) (fun e => hp (by rw [e]; trivial))

/-- The pool depends only on the containers and on the coroutines waiting in them. -/
theorem frame (h : Pool s ρ) (hq : ∀ w, (s'.threads w).taskQueue = (s.threads w).taskQueue)
    (hl : s'.taskList = s.taskList) (hp : s'.parked = s.parked) (hn : s'.nextCoro = s.nextCoro)
    (hc : ∀ n, (ρ n).AtRest → s'.coros (.user n) = s.coros (.user n)) : Pool s' ρ where
  holds := fun w => by rw [hq]; exact h.holds w
  queue := fun w => by rw [hq]; exact h.queue w
  list := by rw [hl]; exact h.list
  parked := by rw [hp]; exact h.parked
  suspended := fun n hw => by
    have := h.suspended n hw
    unfold Suspended Live at this ⊢
    rwa [hc n hw]
  absent := fun n => by rw [hn]; exact h.absent n

end Pool

/-! ## The queue operations -/

/-- `s'` differs from `s` in the containers only, after one access of `t` to the ring of `obj`. -/
structure QueueStep (t obj : W) (s s' : SmartRuntime W) : Prop where
  pc : s'.pc = s.pc
  coros : s'.coros = s.coros
  nextCoro : s'.nextCoro = s.nextCoro
  current : ∀ w, (s'.threads w).currentCoro = (s.threads w).currentCoro
  slot : ∀ w, (s'.threads w).delayCallback = (s.threads w).delayCallback
  trace : s'.trace = s.trace ++ [.access t obj .taskQueue]

variable {f : Flags} {s : SmartRuntime W} {ρ : Nat → Place W} {t self : W} {n : Nat}

/-- Creating the next coroutine, in no container yet. -/
theorem pool_create (h : Pool s ρ) :
    Pool { s with nextCoro := s.nextCoro + 1 } (Function.update ρ s.nextCoro .gone) ∧
      Suspended s s.nextCoro := by
  have ha : ρ s.nextCoro = .absent := (h.absent _).2 (Nat.le_refl _)
  have hne : ∀ p, p ≠ .absent → ρ s.nextCoro ≠ p := fun p hp e => hp (e ▸ ha)
  refine ⟨⟨h.holds, fun w => (h.queue w).update (hne _ (by simp)) _, h.list.update (hne _ (by simp)) _,
    h.parked.update (hne _ (by simp)) _, ?_, fun m => ?_⟩, h.suspended _ (by rw [ha]; trivial)⟩
  · exact h.suspended_update fun hw => absurd hw (by simp [Place.AtRest])
  · by_cases e : m = s.nextCoro
    · subst e
      rw [Function.update_self]
      simp
    · rw [Function.update_of_ne e, h.absent]
      simp only
      omega

theorem pool_pushGlobal (h : Pool s ρ) (hn : ¬ (ρ n).AtRest)
    (hs : Suspended s n) : Pool (s.pushGlobal (.user n)) (Function.update ρ n .global) where
  holds := h.holds
  queue := fun w => (h.queue w).update (fun e => hn (by rw [e]; trivial)) _
  list := h.list.concat fun e => hn (by rw [e]; trivial)
  parked := h.parked.update (fun e => hn (by rw [e]; trivial)) _
  suspended := h.suspended_update fun _ => hs
  absent := h.absent_update (fun e => hn (by rw [e]; trivial)) (by simp)

theorem pool_park (h : Pool s ρ) (hn : ¬ (ρ n).AtRest)
    (hs : Suspended s n) :
    Pool { s with parked := s.parked ++ [.user n] } (Function.update ρ n .parked) where
  holds := h.holds
  queue := fun w => (h.queue w).update (fun e => hn (by rw [e]; trivial)) _
  list := h.list.update (fun e => hn (by rw [e]; trivial)) _
  parked := h.parked.concat fun e => hn (by rw [e]; trivial)
  suspended := h.suspended_update fun _ => hs
  absent := h.absent_update (fun e => hn (by rw [e]; trivial)) (by simp)

variable [DecidableEq W]

theorem pool_unpark (h : Pool s ρ) (hn : (CoroId.user n : CoroId W) ∈ s.parked) :
    Pool ({ s with parked := s.parked.erase (.user n) }.pushGlobal (.user n))
      (Function.update ρ n .global) := by
  have hp := h.parked.place_user hn
  have hne : ∀ p, p ≠ .parked → ρ n ≠ p := fun p hp' e => hp' (e ▸ hp)
  have hs := h.suspended n (by rw [hp]; trivial)
  refine ⟨h.holds, fun w => (h.queue w).update (hne _ (by simp)) _, h.list.concat (hne _ (by simp)),
    ?_, h.suspended_update fun _ => hs, h.absent_update (hne _ (by simp)) (by simp)⟩
  refine (h.parked.sublist (List.erase_sublist ..)).congr fun m hm => ?_
  refine Function.update_of_ne (fun e => ?_) _ _
  subst e
  exact h.parked.nodup.not_mem_erase hm

/-! ### Updates of one worker -/

section

variable (s self)

@[simp] theorem setQueue_current (q : BoundedQueue (CoroId W)) (w : W) :
    ((s.setQueue self q).threads w).currentCoro = (s.threads w).currentCoro := by
  unfold SmartRuntime.setQueue
  by_cases e : w = self
  · subst e; simp
  · simp [Function.update_of_ne e]

@[simp] theorem setQueue_slot (q : BoundedQueue (CoroId W)) (w : W) :
    ((s.setQueue self q).threads w).delayCallback = (s.threads w).delayCallback := by
  unfold SmartRuntime.setQueue
  by_cases e : w = self
  · subst e; simp
  · simp [Function.update_of_ne e]

@[simp] theorem setQueue_self (q : BoundedQueue (CoroId W)) :
    ((s.setQueue self q).threads self).taskQueue = q := by
  simp [SmartRuntime.setQueue]

theorem setQueue_other (q : BoundedQueue (CoroId W)) {w : W} (h : w ≠ self) :
    ((s.setQueue self q).threads w).taskQueue = (s.threads w).taskQueue := by
  simp [SmartRuntime.setQueue, Function.update_of_ne h]

end

/-- Replacing the ring of `self` by one that holds `xs` keeps the pool if `ρ'` files `xs` there
and agrees with `ρ` on what the other containers hold. -/
theorem pool_setQueue {ρ' : Nat → Place W} {q : BoundedQueue (CoroId W)} {xs : List (CoroId W)}
    (ls : List (CoroId W)) (h : Pool s ρ) (hq : Holds q xs) (hxs : Filed ρ' (.queued self) xs)
    (hls : Filed ρ' .global ls) (hρ : ∀ n p, p ≠ .queued self → p ≠ .global → p.AtRest → ρ n = p → ρ' n = p)
    (hsus : ∀ n, (ρ' n).AtRest → Suspended s n) (habs : ∀ n, ρ' n = .absent ↔ s.nextCoro ≤ n) :
    Pool ({ s with taskList := ls }.setQueue self q) ρ' where
  holds := fun w => by
    by_cases e : w = self
    · subst e
      rw [setQueue_self, hq.toList_eq]
      exact hq
    · rw [setQueue_other _ _ _ e]
      exact h.holds w
  queue := fun w => by
    by_cases e : w = self
    · subst e
      rw [setQueue_self, hq.toList_eq]
      exact hxs
    · rw [setQueue_other _ _ _ e]
      refine (h.queue w).congr fun n hn => ?_
      have hp := (h.queue w).place_user hn
      rw [hp]
      exact hρ n _ (fun e' => e (by cases e'; rfl)) (by simp) trivial hp
  list := hls
  parked := h.parked.congr fun n hn => by
    have hp := h.parked.place_user hn
    rw [hp]
    exact hρ n _ (by simp) (by simp) trivial hp
  suspended := hsus
  absent := habs

omit [DecidableEq W] in
theorem pool_emit (h : Pool s ρ) (e : Event W) : Pool (s.emit e) ρ :=
  h.frame (fun _ => rfl) rfl rfl rfl fun _ _ => rfl

theorem pushTask_step (s : SmartRuntime W) (t self : W) (c : CoroId W) :
    QueueStep t self s (s.pushTask t self c) := by
  unfold SmartRuntime.pushTask
  dsimp only
  split
  · exact ⟨rfl, rfl, rfl, by simp [SmartRuntime.emit], by simp [SmartRuntime.emit], rfl⟩
  · exact ⟨rfl, rfl, rfl, by simp [SmartRuntime.emit, SmartRuntime.pushGlobal],
      by simp [SmartRuntime.emit, SmartRuntime.pushGlobal], rfl⟩

/-- **`push_task` puts the coroutine into exactly one queue**: the ring, or the global list when
the ring is full. -/
theorem pushTask_pool (h : Pool s ρ) (t self : W) (hn : ¬ (ρ n).AtRest)
    (hs : Suspended s n) :
    ∃ p : Place W, Pool (s.pushTask t self (.user n)) (Function.update ρ n p) := by
  have hq := h.holds self
  have hne : ∀ p : Place W, p.AtRest → ρ n ≠ p := fun p hp e => hn (e ▸ hp)
  unfold SmartRuntime.pushTask
  dsimp only
  by_cases hl : (s.threads self).taskQueue.toList.length < (s.threads self).taskQueue.capacity
  · obtain ⟨hok, hpush⟩ := hq.push_of_lt hl (.user n)
    refine ⟨.queued self, ?_⟩
    rw [show ((s.emit (.access t self .taskQueue)).threads self).taskQueue =
      (s.threads self).taskQueue from rfl, if_pos hok]
    refine pool_setQueue s.taskList (pool_emit h _) hpush
      ((h.queue self).concat (hne _ trivial)) (h.list.update (hne _ trivial) _) ?_
      (h.suspended_update fun _ => hs) (h.absent_update (hne _ trivial) (by simp))
    intro m p _ _ hw hm
    by_cases e : m = n
    · subst e; exact absurd (hm ▸ hw) hn
    · rw [Function.update_of_ne e, hm]
  · have hfull := hq.push_of_full (by have := hq.length_le; omega) (.user n)
    refine ⟨.global, ?_⟩
    rw [show ((s.emit (.access t self .taskQueue)).threads self).taskQueue =
      (s.threads self).taskQueue from rfl, hfull, if_neg (by simp)]
    refine pool_pushGlobal ?_ hn hs
    refine h.frame (fun w => ?_) rfl rfl rfl fun _ _ => rfl
    by_cases e : w = self
    · subst e; rw [setQueue_self]
    · rw [setQueue_other _ _ _ e]; rfl

/-- What `get_task` of `self`, executed by `t`, does to the state. -/
inductive GetTask (f : Flags) (t self : W) (s : SmartRuntime W) (ρ : Nat → Place W) :
    Option (CoroId W) × SmartRuntime W → Prop where
  | none {s'} (hstep : QueueStep t self s s') (hpool : Pool s' ρ)
      (hnext : s.nextTask f self = none) : GetTask f t self s ρ (none, s')
  | some {s'} (n : Nat) (ρ' : Nat → Place W) (hstep : QueueStep t self s s') (hpool : Pool s' ρ')
      (hnext : s.nextTask f self = some (.user n)) (hn : (ρ n).AtRest)
      (hn' : ρ' n = .onThread self) (hkeep : ∀ m, ¬ (ρ m).AtRest → ρ' m = ρ m) :
      GetTask f t self s ρ (some (.user n), s')

/-- Taking the oldest coroutine of a ring that is not empty. -/
theorem pool_popQueue (h : Pool s ρ) {xs : List (CoroId W)}
    (hq : (s.threads self).taskQueue.toList = .user n :: xs) :
    Pool (s.setQueue self (s.threads self).taskQueue.pop) (Function.update ρ n (.onThread self)) := by
  have hfiled := h.queue self
  rw [hq] at hfiled
  have hp : ρ n = .queued self := hfiled.place_user (by simp)
  have hne : ∀ p : Place W, p ≠ .queued self → ρ n ≠ p := fun p hp' e => hp' (e ▸ hp)
  have hhead : (CoroId.user n : CoroId W) ∉ xs := (List.nodup_cons.1 hfiled.nodup).1
  refine pool_setQueue s.taskList h ((hq ▸ h.holds self).pop)
    ((hfiled.sublist (List.sublist_cons_self _ _)).congr fun m hm => ?_)
    (h.list.update (hne _ (by simp)) _) ?_ (h.suspended_update fun hw => absurd hw (by simp [Place.AtRest]))
    (h.absent_update (hne _ (by simp)) (by simp))
  · exact Function.update_of_ne (fun e : m = n => hhead (e ▸ hm)) _ _
  · intro m p hp₁ _ _ hm
    rw [Function.update_of_ne (fun e => hp₁ (by rw [← hm, e, hp])), hm]

instance : LawfulBEq (CoroId W) := inferInstance

/-- Places after a batch `tmp` has gone from the global list to the empty ring of `self`: its
head runs next, `kept` stays in the ring, what did not fit is gone. -/
def refillPlace (ρ : Nat → Place W) (self : W) (n : Nat) (kept tmp : List (CoroId W)) (m : Nat) :
    Place W :=
  if m = n then .onThread self
  else if .user m ∈ kept then .queued self
  else if .user m ∈ tmp then .gone
  else ρ m

/-- Refilling an empty ring and taking the first coroutine of the batch. -/
theorem pool_refill (h : Pool s ρ) {b : Nat} {tmp kept : List (CoroId W)}
    (hq : (s.threads self).taskQueue.toList = []) (htmp : s.taskList.take b = tmp)
    (hkept : tmp.take (s.threads self).taskQueue.capacity = .user n :: kept) :
    Pool ({ s with taskList := s.taskList.drop b }.setQueue self
        ((s.threads self).taskQueue.pushAll tmp).pop) (refillPlace ρ self n kept tmp) := by
  subst htmp
  have hsub : List.Sublist (.user n :: kept) (s.taskList.take b) := hkept ▸ List.take_sublist ..
  have hfiled := (h.list.sublist (List.take_sublist b s.taskList)).sublist hsub
  have hhead : (CoroId.user n : CoroId W) ∉ kept := (List.nodup_cons.1 hfiled.nodup).1
  have hmem : ∀ m, (CoroId.user m : CoroId W) ∈ s.taskList.take b → ρ m = .global :=
    fun m hm => h.list.place_user (List.mem_of_mem_take hm)
  have hnmem : (CoroId.user n : CoroId W) ∈ s.taskList.take b := hsub.subset (by simp)
  have hdisj : ∀ c ∈ s.taskList.drop b, c ∉ s.taskList.take b := by
    intro c hd ht
    have hnd : (s.taskList.take b ++ s.taskList.drop b).Nodup := by
      rw [List.take_append_drop]; exact h.list.nodup
    exact (List.nodup_append.1 hnd).2.2 c ht c hd rfl
  have hout : ∀ m, (CoroId.user m : CoroId W) ∉ s.taskList.take b →
      refillPlace ρ self n kept (s.taskList.take b) m = ρ m := by
    intro m hm
    have h₁ : m ≠ n := fun e => hm (e ▸ hnmem)
    have h₂ : (CoroId.user m : CoroId W) ∉ kept := fun hk => hm (hsub.subset (List.mem_cons_of_mem _ hk))
    rw [refillPlace, if_neg h₁, if_neg h₂, if_neg hm]
  have hring : Holds ((s.threads self).taskQueue.pushAll (s.taskList.take b)).pop kept := by
    have := (h.holds self).pushAll (s.taskList.take b)
    rw [hq, List.nil_append, List.length_nil, Nat.sub_zero, hkept] at this
    exact this.pop
  refine pool_setQueue _ h hring ?_ ?_ ?_ ?_ ?_
  · refine ⟨(List.nodup_cons.1 hfiled.nodup).2, fun c hc => ?_⟩
    obtain ⟨m, rfl, _⟩ := hfiled.place c (List.mem_cons_of_mem _ hc)
    have hmn : m ≠ n := fun e => hhead (e ▸ hc)
    exact ⟨m, rfl, by rw [refillPlace, if_neg hmn, if_pos hc]⟩
  · exact (h.list.sublist (List.drop_sublist ..)).congr fun m hm => hout m (hdisj _ hm)
  · intro m p _ hg _ hm
    rw [hout m (fun ht => hg (by rw [← hm, hmem m ht])), hm]
  · intro m hm
    by_cases ht : (CoroId.user m : CoroId W) ∈ s.taskList.take b
    · exact h.suspended m (by rw [hmem m ht]; trivial)
    · exact h.suspended m (by rwa [hout m ht] at hm)
  · intro m
    by_cases ht : (CoroId.user m : CoroId W) ∈ s.taskList.take b
    · rw [← h.absent m, hmem m ht]
      unfold refillPlace
      split_ifs <;> simp
    · rw [hout m ht]; exact h.absent m

/-- **`get_task` hands out the oldest coroutine of the ring, refilled from the global list.** -/
theorem getTask_pool (h : Pool s ρ) (t self : W) : GetTask f t self s ρ (s.getTask f t self) := by
  have hq := h.holds self
  unfold SmartRuntime.getTask
  dsimp only
  rw [show ((s.emit (.access t self .taskQueue)).threads self).taskQueue =
    (s.threads self).taskQueue from rfl]
  cases hx : (s.threads self).taskQueue.toList with
  | cons c xs =>
    have hne : (s.threads self).taskQueue.empty = false := by
      rw [← Bool.not_eq_true, hq.empty_iff, hx]; simp
    have hfiled := h.queue self
    rw [hx] at hfiled
    obtain ⟨n, rfl, hp⟩ := hfiled.place c (by simp)
    rw [if_neg (by simp [hne]), (hx ▸ hq : Holds _ (_ :: xs)).front]
    refine .some n (Function.update ρ n (.onThread self)) ⟨rfl, rfl, rfl, by simp [SmartRuntime.emit],
      by simp [SmartRuntime.emit], rfl⟩ (pool_popQueue (pool_emit h _) hx) ?_ (by rw [hp]; trivial)
      (Function.update_self ..) fun m hm => ?_
    · simp [SmartRuntime.nextTask, hx]
    · exact Function.update_of_ne (fun e => hm (by rw [e, hp]; trivial)) _ _
  | nil =>
    rw [if_pos (hq.empty_iff.2 hx), show (s.emit (.access t self .taskQueue)).taskList = s.taskList from rfl]
    cases ht : s.taskList.take f.batchSize with
    | nil =>
      exact .none ⟨rfl, rfl, rfl, fun _ => rfl, fun _ => rfl, rfl⟩ (pool_emit h _)
        (by simp [SmartRuntime.nextTask, hx, ht])
    | cons c tmp =>
      obtain ⟨k, hk⟩ : ∃ k, (s.threads self).taskQueue.capacity = k + 1 :=
        ⟨_, (Nat.succ_pred_eq_of_pos hq.capacity_pos).symm⟩
      obtain ⟨n, rfl, hp⟩ := h.list.place c (List.mem_of_mem_take (by rw [ht]; simp))
      have hkept : (CoroId.user n :: tmp).take (s.threads self).taskQueue.capacity =
          .user n :: tmp.take k := by rw [hk, List.take_succ_cons]
      have hring := hq.pushAll (.user n :: tmp)
      rw [hx, List.nil_append, List.length_nil, Nat.sub_zero, hkept] at hring
      have hpool := pool_refill (pool_emit h (.access t self .taskQueue)) hx ht hkept
      simp only [hring.front]
      refine .some n _ ⟨rfl, rfl, rfl, by simp [SmartRuntime.emit],
        by simp [SmartRuntime.emit], rfl⟩ hpool ?_ (by rw [hp]; trivial) (by simp [refillPlace]) fun m hm => ?_
      · simp [SmartRuntime.nextTask, hx, ht]
      · have hout : (CoroId.user m : CoroId W) ∉ CoroId.user n :: tmp := by
          intro hmem
          refine hm ?_
          rw [h.list.place_user (List.mem_of_mem_take (by rw [ht]; exact hmem))]
          trivial
        have h₁ : m ≠ n := fun e => hout (by simp [e])
        have h₂ : (CoroId.user m : CoroId W) ∉ tmp.take k :=
          fun hmem => hout (List.mem_cons_of_mem _ (List.mem_of_mem_take hmem))
        rw [refillPlace, if_neg h₁, if_neg h₂, if_neg hout]

end SmartRoutine
