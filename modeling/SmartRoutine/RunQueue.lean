import Mathlib.Algebra.BigOperators.Fin
import SmartRoutine.Placement

/-!
# The two-level run queue

The queues on their own: any number of workers, and any interleaving of `push_task` on a worker,
`push_task` on the runtime and `get_task`, for any values of the two flags.

* `Conserved` — every coroutine is in the rings, in the global list or returned as often as it was
  pushed.
* `run_conserved_iff` — nothing is lost or duplicated **exactly** when each batch `get_task` moves
  into its empty ring fits there.
* `batch_overflows_ring` — a batch of two and a ring of one.
-/

set_option autoImplicit false

namespace SmartRoutine

open BoundedQueue SmartRuntime

/-- The queues of a runtime, with everything pushed and everything returned so far. -/
structure RunQueues (W : Type) where
  runtime : SmartRuntime W
  pushed : List (CoroId W)
  returned : List (CoroId W)

inductive QueueLabel (W : Type) where
  /-- `SmartThread::push_task` on the worker's own thread. -/
  | pushTask (self : W) (c : CoroId W)
  /-- `SmartRuntime::push_task`. -/
  | pushGlobal (c : CoroId W)
  /-- `SmartThread::get_task` on the worker's own thread. -/
  | getTask (self : W)
  deriving DecidableEq

namespace RunQueues

variable {W : Type} [DecidableEq W]

def step (f : Flags) (s : RunQueues W) : QueueLabel W → Option (RunQueues W)
  | .pushTask self c =>
    some { s with runtime := s.runtime.pushTask self self c, pushed := s.pushed ++ [c] }
  | .pushGlobal c => some { s with runtime := s.runtime.pushGlobal c, pushed := s.pushed ++ [c] }
  | .getTask self =>
    let r := s.runtime.getTask f self self
    some { s with runtime := r.2, returned := s.returned ++ r.1.toList }

def start (f : Flags) : RunQueues W := ⟨init f, [], []⟩

/-- How often a coroutine is in a worker's ring. -/
def inRing (s : SmartRuntime W) (c : CoroId W) (self : W) : Nat :=
  ((s.threads self).taskQueue.toList).count c

/-- Nothing is lost and nothing is duplicated. -/
def Conserved [Fintype W] (s : RunQueues W) : Prop :=
  ∀ c, s.pushed.count c = ∑ self, inRing s.runtime c self + s.runtime.taskList.count c +
    s.returned.count c

/-- The coroutines `get_task` would move to the ring. -/
def batch (f : Flags) (s : RunQueues W) : List (CoroId W) := s.runtime.taskList.take f.batchSize

/-- A ring has cells, and a batch fits into the ring it is moved to. -/
def fits (f : Flags) (s : RunQueues W) : QueueLabel W → Bool
  | .pushTask _ _ => f.capacity ≠ 0
  | .pushGlobal _ => true
  | .getTask self =>
    !(s.runtime.threads self).taskQueue.empty || (s.batch f).length ≤ f.capacity

/-! ## Rings -/

/-- The ring of a worker: one with `f.capacity` cells, or one without cells that has not been
used. -/
def RingOk (f : Flags) (q : BoundedQueue (CoroId W)) : Prop :=
  if f.capacity = 0 then q = new 0 else q.capacity = f.capacity ∧ ∃ xs, Holds q xs

def RingsOk (f : Flags) (s : SmartRuntime W) : Prop := ∀ w, RingOk f (s.threads w).taskQueue

section

variable {f : Flags} {q : BoundedQueue (CoroId W)}

omit [DecidableEq W] in
theorem new_ringOk (f : Flags) : RingOk f (new f.capacity : BoundedQueue (CoroId W)) := by
  unfold RingOk
  split
  · rename_i hcap
    rw [hcap]
  · rename_i hcap
    refine ⟨rfl, [], new_holds (by omega) ?_⟩
    unfold Flags.capacity
    omega

omit [DecidableEq W] in
/-- A ring without cells keeps nothing that is pushed. -/
theorem pushAll_noCells (vs : List (CoroId W)) {q : BoundedQueue (CoroId W)} (hq : q.data = []) :
    (q.pushAll vs).data = [] := by
  induction vs generalizing q with
  | nil => exact hq
  | cons v vs ih =>
    apply ih
    show (q.push v).2.data = []
    unfold BoundedQueue.push
    split
    · exact hq
    · show q.data.set _ _ = []
      rw [hq, List.set_nil]

omit [DecidableEq W] in
theorem toList_noCells (hq : q.data = []) : q.toList = [] := by
  unfold toList
  rw [List.filterMap_eq_nil_iff]
  intro i _
  rw [hq]
  rfl

omit [DecidableEq W] in
theorem front_noCells (hq : q.data = []) : q.front = none := by
  unfold front
  rw [hq]
  rfl

end

/-! ## Counting -/

section

variable [Fintype W] {f : Flags} {s : SmartRuntime W} {self : W} {c : CoroId W}

/-- How often a coroutine is in the queues. -/
def queued (s : SmartRuntime W) (c : CoroId W) : Nat :=
  ∑ self, inRing s c self + s.taskList.count c

/-- Replacing one ring. -/
theorem queued_setQueue (s : SmartRuntime W) (self : W) (q : BoundedQueue (CoroId W))
    (c : CoroId W) :
    queued (s.setQueue self q) c + (s.threads self).taskQueue.toList.count c =
      queued s c + q.toList.count c := by
  have hself : inRing (s.setQueue self q) c self = q.toList.count c := by
    unfold inRing
    rw [setQueue_self]
  have hrest : ∑ w ∈ Finset.univ.erase self, inRing (s.setQueue self q) c w =
      ∑ w ∈ Finset.univ.erase self, inRing s c w := by
    apply Finset.sum_congr rfl
    intro w hw
    unfold inRing
    rw [setQueue_other _ _ _ (Finset.ne_of_mem_erase hw)]
  have hnew := Finset.add_sum_erase Finset.univ (inRing (s.setQueue self q) c) (Finset.mem_univ self)
  have hold := Finset.add_sum_erase Finset.univ (inRing s c) (Finset.mem_univ self)
  have hlist : (s.setQueue self q).taskList = s.taskList := rfl
  have hring : inRing s c self = (s.threads self).taskQueue.toList.count c := rfl
  unfold queued
  rw [hlist]
  omega

/-- Any change of the global list. -/
theorem queued_setList (s : SmartRuntime W) (l : List (CoroId W)) (c : CoroId W) :
    queued { s with taskList := l } c + s.taskList.count c = queued s c + l.count c := by
  have hsum : ∑ w, inRing { s with taskList := l } c w = ∑ w, inRing s c w := rfl
  unfold queued
  rw [hsum]
  show _ + l.count c + _ = _
  omega

theorem queued_emit (s : SmartRuntime W) (e : Event W) (c : CoroId W) :
    queued (s.emit e) c = queued s c := rfl

theorem queued_pushGlobal (s : SmartRuntime W) (x c : CoroId W) :
    queued (s.pushGlobal x) c = queued s c + [x].count c := by
  have h := queued_setList s (s.taskList ++ [x]) c
  rw [List.count_append] at h
  show queued { s with taskList := s.taskList ++ [x] } c = _
  omega

/-- Taking a batch off the global list and replacing the ring of `self`. -/
theorem queued_splice (s : SmartRuntime W) (self : W) (q : BoundedQueue (CoroId W)) (b : Nat)
    (c : CoroId W) :
    queued ({ s with taskList := s.taskList.drop b }.setQueue self q) c +
        (s.threads self).taskQueue.toList.count c + (s.taskList.take b).count c =
      queued s c + q.toList.count c := by
  have hset := queued_setQueue { s with taskList := s.taskList.drop b } self q c
  have hdrop := queued_setList s (s.taskList.drop b) c
  have hsplit : (s.taskList.take b).count c + (s.taskList.drop b).count c = s.taskList.count c := by
    rw [← List.count_append, List.take_append_drop]
  dsimp only at hset
  omega

omit [Fintype W] in
theorem RingsOk.setQueue (h : RingsOk f s) {q : BoundedQueue (CoroId W)} (hq : RingOk f q) :
    RingsOk f (s.setQueue self q) := by
  intro w
  by_cases hw : w = self
  · subst hw
    rw [setQueue_self]
    exact hq
  · rw [setQueue_other _ _ _ hw]
    exact h w

/-! ### `push_task` -/

/-- **A push adds one coroutine**, to the ring or, when it is full, to the global list. -/
theorem pushTask_queued (self : W) (h : RingsOk f s) (hcap : f.capacity ≠ 0) (x : CoroId W) :
    RingsOk f (s.pushTask self self x) ∧
      ∀ c, queued (s.pushTask self self x) c = queued s c + [x].count c := by
  have hring := h self
  unfold RingOk at hring
  rw [if_neg hcap] at hring
  obtain ⟨hq, xs, hx⟩ := hring
  obtain ⟨hpushed, hafter⟩ := hx.push x
  have hafterOk : RingOk f ((s.threads self).taskQueue.push x).2 := by
    unfold RingOk
    rw [if_neg hcap]
    exact ⟨(push_capacity _ x).trans hq, _, hafter⟩
  have hcount := fun c => queued_setQueue (s.emit (.access self self .taskQueue)) self
    ((s.threads self).taskQueue.push x).2 c
  simp only [queued_emit] at hcount
  have hsame : ((s.emit (.access self self .taskQueue)).threads self).taskQueue =
      (s.threads self).taskQueue := rfl
  unfold pushTask
  simp only [hsame]
  rw [hpushed]
  by_cases hlt : xs.length < (s.threads self).taskQueue.capacity
  · rw [if_pos hlt] at hafter
    simp only [hlt, decide_true, if_true]
    refine ⟨RingsOk.setQueue (s := s.emit _) h hafterOk, fun c => ?_⟩
    have := hcount c
    rw [hsame, hx.toList_eq, hafter.toList_eq, List.count_append] at this
    omega
  · rw [if_neg hlt] at hafter
    simp only [hlt, decide_false, Bool.false_eq_true, if_false]
    refine ⟨RingsOk.setQueue (s := s.emit _) h hafterOk, fun c => ?_⟩
    have := hcount c
    rw [hsame, hx.toList_eq, hafter.toList_eq] at this
    rw [queued_pushGlobal]
    omega

/-- A push to a ring without cells is lost. -/
theorem pushTask_noCells (self : W) (h : RingsOk f s) (hcap : f.capacity = 0) (x c : CoroId W) :
    queued (s.pushTask self self x) c = queued s c := by
  have hring := h self
  unfold RingOk at hring
  rw [if_pos hcap] at hring
  have hcount := queued_setQueue (s.emit (.access self self .taskQueue)) self
    ((s.threads self).taskQueue.push x).2 c
  have hsame : ((s.emit (.access self self .taskQueue)).threads self).taskQueue =
      (s.threads self).taskQueue := rfl
  have hdata : (((new 0 : BoundedQueue (CoroId W)).push x).2).data = [] :=
    pushAll_noCells [x] (q := new 0) rfl
  have hpushed : ((new 0 : BoundedQueue (CoroId W)).push x).1 = true := rfl
  rw [hsame, queued_emit, hring, toList_noCells hdata, toList_noCells (q := new 0) rfl] at hcount
  unfold pushTask
  simp only [hsame, hring, hpushed, if_true]
  omega

/-! ### `get_task` -/

/-- A ring with something in it hands out its oldest coroutine. -/
theorem getTask_local (h : RingsOk f s) (hne : (s.threads self).taskQueue.empty = false) :
    RingsOk f (s.getTask f self self).2 ∧
      ∀ c, queued (s.getTask f self self).2 c + (s.getTask f self self).1.toList.count c =
        queued s c := by
  have hring := h self
  unfold RingOk at hring
  split at hring
  · rw [hring] at hne
    cases hne
  · rename_i hcap
    obtain ⟨hq, xs, hx⟩ := hring
    cases xs with
    | nil => rw [hx.empty_iff.2 rfl] at hne; cases hne
    | cons x xs =>
      have hcount := fun c => queued_setQueue (s.emit (.access self self .taskQueue)) self
        (s.threads self).taskQueue.pop c
      have hsame : ((s.emit (.access self self .taskQueue)).threads self).taskQueue =
          (s.threads self).taskQueue := rfl
      simp only [hsame, queued_emit, hx.toList_eq, hx.pop.toList_eq] at hcount
      unfold getTask
      simp only [hsame, hne, hx.front, Bool.false_eq_true, if_false]
      constructor
      · apply RingsOk.setQueue (s := s.emit _) h
        unfold RingOk
        rw [if_neg hcap]
        exact ⟨hq, xs, hx.pop⟩
      · intro c
        have := hcount c
        rw [show x :: xs = [x] ++ xs from rfl, List.count_append] at this
        show _ + [x].count c = _
        omega

/-- **An empty ring takes a batch; what does not fit is in no queue afterwards.** -/
theorem getTask_refill (self : W) (h : RingsOk f s)
    (hempty : (s.threads self).taskQueue.empty = true) :
    (∀ c, queued (s.getTask f self self).2 c + (s.getTask f self self).1.toList.count c +
        ((s.taskList.take f.batchSize).drop f.capacity).count c = queued s c) ∧
      ((s.taskList.take f.batchSize).length ≤ f.capacity → RingsOk f (s.getTask f self self).2) := by
  have hsame : ((s.emit (.access self self .taskQueue)).threads self).taskQueue =
      (s.threads self).taskQueue := rfl
  have hlist : (s.emit (.access self self .taskQueue)).taskList = s.taskList := rfl
  have hmove := fun q => queued_splice (s.emit (.access self self .taskQueue)) self q f.batchSize
  simp only [hsame, hlist, queued_emit] at hmove
  unfold getTask
  simp only [hsame, hlist, hempty, if_true]
  cases htmp : s.taskList.take f.batchSize with
  | nil => exact ⟨fun c => by simp [queued_emit], fun _ => h⟩
  | cons x tmp =>
    have hring := h self
    unfold RingOk at hring
    simp only [htmp] at hmove
    dsimp only
    split at hring
    · -- no cells: the whole batch is lost
      rename_i hcap
      have hdata : ((new 0 : BoundedQueue (CoroId W)).pushAll (x :: tmp)).data = [] :=
        pushAll_noCells (x :: tmp) (q := new 0) rfl
      have hpop : ((new 0 : BoundedQueue (CoroId W)).pushAll (x :: tmp)).pop.data = [] := hdata
      rw [hring] at hmove ⊢
      refine ⟨fun c => ?_, fun hle => ?_⟩
      · have := hmove ((new 0 : BoundedQueue (CoroId W)).pushAll (x :: tmp)).pop c
        rw [toList_noCells hpop, toList_noCells (q := new 0) rfl] at this
        rw [front_noCells hdata, hcap]
        simp only [Option.toList_none, List.drop_zero, List.count_nil, Nat.add_zero] at this ⊢
        exact this
      · rw [hcap] at hle
        simp at hle
    · rename_i hcap
      obtain ⟨hq, xs, hx⟩ := hring
      obtain rfl : xs = [] := hx.empty_iff.1 hempty
      obtain ⟨k, hk⟩ : ∃ k, f.capacity = k + 1 := ⟨f.capacity - 1, by omega⟩
      have hfull := hx.pushAll (x :: tmp)
      rw [hq, hk] at hfull
      simp only [List.length_nil, Nat.sub_zero, List.take_succ_cons, List.nil_append] at hfull
      refine ⟨fun c => ?_, fun _ => ?_⟩
      · have hm := hmove ((s.threads self).taskQueue.pushAll (x :: tmp)).pop c
        rw [hfull.pop.toList_eq, hx.toList_eq, List.count_nil] at hm
        have hbatch : (x :: tmp).count c = [x].count c + (tmp.take k).count c + (tmp.drop k).count c := by
          rw [← List.count_append, ← List.count_append]
          simp
        rw [hfull.front, hk, List.drop_succ_cons]
        show _ + [x].count c + _ = _
        omega
      · apply RingsOk.setQueue h
        unfold RingOk
        rw [if_neg hcap]
        exact ⟨by rw [pop_capacity, pushAll_capacity, hq], _, hfull.pop⟩

/-! ## Runs -/

theorem conserved_iff_queued (s : RunQueues W) :
    Conserved s ↔ ∀ c, s.pushed.count c = queued s.runtime c + s.returned.count c := Iff.rfl

/-- **One call keeps the books exactly when it fits.** -/
theorem step_conserved_iff {s s' : RunQueues W} {l : QueueLabel W} (h : RingsOk f s.runtime)
    (hs : Conserved s) (hstep : step f s l = some s') :
    (Conserved s' ↔ fits f s l = true) ∧ (fits f s l = true → RingsOk f s'.runtime) := by
  rw [conserved_iff_queued] at hs
  rw [conserved_iff_queued]
  cases l with
  | pushTask self x =>
    cases hstep
    show ((∀ c, (s.pushed ++ [x]).count c = queued (s.runtime.pushTask self self x) c +
      s.returned.count c) ↔ _) ∧ _
    simp only [List.count_append, hs]
    by_cases hcap : f.capacity = 0
    · have hno : fits f s (.pushTask self x) = false := by simp [fits, hcap]
      have hlost := pushTask_noCells self h hcap x x
      rw [hno]
      refine ⟨⟨fun hs' => ?_, fun h => absurd h Bool.false_ne_true⟩,
        fun h => absurd h Bool.false_ne_true⟩
      have := hs' x
      rw [List.count_singleton_self] at this
      omega
    · obtain ⟨hrings, hcount⟩ := pushTask_queued self h hcap x
      have hyes : fits f s (.pushTask self x) = true := by simp [fits, hcap]
      refine ⟨⟨fun _ => hyes, fun _ c => ?_⟩, fun _ => hrings⟩
      rw [hcount]
      omega
  | pushGlobal x =>
    cases hstep
    show ((∀ c, (s.pushed ++ [x]).count c = queued (s.runtime.pushGlobal x) c +
      s.returned.count c) ↔ _) ∧ _
    simp only [List.count_append, hs, queued_pushGlobal]
    refine ⟨⟨fun _ => rfl, fun _ c => ?_⟩, fun _ => h⟩
    omega
  | getTask self =>
    cases hstep
    show ((∀ c, s.pushed.count c = queued (s.runtime.getTask f self self).2 c +
      (s.returned ++ (s.runtime.getTask f self self).1.toList).count c) ↔ _) ∧ _
    simp only [List.count_append, hs]
    cases hempty : (s.runtime.threads self).taskQueue.empty with
    | false =>
      obtain ⟨hrings, hcount⟩ := getTask_local h hempty
      have hyes : fits f s (.getTask self) = true := by simp [fits, hempty]
      refine ⟨⟨fun _ => hyes, fun _ c => ?_⟩, fun _ => hrings⟩
      have := hcount c
      omega
    | true =>
      obtain ⟨hcount, hrings⟩ := getTask_refill self h hempty
      have hfits : fits f s (.getTask self) = true ↔ (s.batch f).length ≤ f.capacity := by
        simp [fits, hempty]
      refine ⟨⟨fun hs' => hfits.2 ?_, fun hle c => ?_⟩, fun hle => hrings (hfits.1 hle)⟩
      · -- whatever the ring cannot take is counted nowhere
        apply List.drop_eq_nil_iff.1
        rw [List.eq_nil_iff_forall_not_mem]
        intro x hx
        have hpos : 0 < ((s.runtime.taskList.take f.batchSize).drop f.capacity).count x :=
          List.count_pos_iff.2 hx
        have := hs' x
        have := hcount x
        omega
      · have hnone : (s.runtime.taskList.take f.batchSize).drop f.capacity = [] :=
          List.drop_eq_nil_iff.2 (hfits.1 hle)
        have := hcount c
        rw [hnone, List.count_nil] at this
        omega

/-- **Every coroutine pushed is in exactly one place at all times iff every batch moved to a ring
fits there** and no coroutine is pushed to a ring without cells. -/
theorem run_conserved_iff (f : Flags) (ls : List (QueueLabel W)) :
    Transition.Always (step f) Conserved (start f) ls ↔
      Transition.Guarded (step f) (fun s l => fits f s l = true) (start f) ls := by
  refine Transition.always_iff_guarded (J := fun s => RingsOk f s.runtime) ?_ ?_ ls _ ?_ ?_
  · intro s l s' h hs hstep hs'
    obtain ⟨hiff, hrings⟩ := step_conserved_iff h hs hstep
    exact hrings (hiff.1 hs')
  · intro s l s' h hs hstep
    exact (step_conserved_iff h hs hstep).1
  · intro w
    exact new_ringOk f
  · intro c
    have hnew : ∀ w, inRing (init f : SmartRuntime W) c w = 0 := fun w => rfl
    simp only [start, hnew, Finset.sum_const_zero]
    rfl

end

/-- **A batch of two for a ring of one**: the second coroutine is in no queue any more. -/
theorem batch_overflows_ring :
    ¬ Transition.Always (step ⟨1, 2⟩) Conserved (start ⟨1, 2⟩ : RunQueues Unit)
      [.pushGlobal (.user 0), .pushGlobal (.user 1), .getTask ()] := by
  intro h
  have hall := Transition.always_iff_prefix.1 h _ [] _ (List.append_nil _).symm rfl (.user 1)
  revert hall
  decide +kernel

end RunQueues

end SmartRoutine
