import SmartRoutine.Lib.PriorityQueue
import SmartRoutine.Lib.Transition

/-!
# The timer

`SmartTimer` over any priority queue for `TimerComp`, as a step relation: `set_timer` from any
thread, and `run` cut at its lock and at each callback it invokes.

* `TimerRun.Inv` — the cached nearest timestamp is exact, and every timer is in one place.
* `step_inv` — one step keeps it.
* `run_timers` — over every run: the cache, the whereabouts of every timer, and what an iteration
  invokes.
-/

set_option autoImplicit false

namespace SmartRoutine

/-- `TimerItem`.  `id` is a history variable: how many timers were set before this one. -/
structure TimerItem where
  id : Nat
  callback : Nat
  args : Nat
  timestamp : UInt64
  deriving DecidableEq, Repr

def timerComp (lhs rhs : TimerItem) : Bool := lhs.timestamp > rhs.timestamp

/-- A correct `std::priority_queue` for `TimerComp`. -/
abbrev TimerHeap := PriorityQueue TimerItem timerComp

/-- `UINT64_MAX`. -/
def uint64Max : UInt64 := 0xFFFFFFFFFFFFFFFF

structure SmartTimer (H : TimerHeap) where
  timerHeap : H.Queue
  nearestExpireTimestamp : UInt64
  timeoutList : List TimerItem

namespace SmartTimer

variable {H : TimerHeap}

def new (H : TimerHeap) : SmartTimer H := ⟨H.empty, uint64Max, []⟩

def setTimer (t : SmartTimer H) (item : TimerItem) : SmartTimer H where
  timerHeap := H.push t.timerHeap item
  nearestExpireTimestamp :=
    if t.nearestExpireTimestamp > item.timestamp then item.timestamp else t.nearestExpireTimestamp
  timeoutList := t.timeoutList

/-- What `run` does while it holds the lock. -/
def expire (t : SmartTimer H) (now : UInt64) : SmartTimer H :=
  if t.nearestExpireTimestamp < now then
    let r := H.drain (fun item => item.timestamp < now) t.timerHeap t.timeoutList
    { timerHeap := r.2
      nearestExpireTimestamp :=
        match H.top r.2 with
        | some item => item.timestamp
        | none => uint64Max
      timeoutList := r.1 }
  else t

end SmartTimer

/-- Where the thread in `run` is. -/
inductive TimerPc where
  /-- Not in `run`: before it, or after it returned -1. -/
  | idle
  /-- In `epoll_wait`. -/
  | waiting
  /-- About to take the lock. -/
  | woken
  /-- In the loop over `timeout_list_`, about to invoke this item. -/
  | firing (next : Nat)
  deriving DecidableEq, Repr

/-- The timer and its thread, with all timers ever set and all callbacks ever invoked. -/
structure TimerRun (H : TimerHeap) where
  timer : SmartTimer H
  pc : TimerPc
  set : List TimerItem
  fired : List TimerItem

inductive TimerLabel where
  /-- `set_timer` on any thread, callbacks included. -/
  | setTimer (callback args : Nat) (timestamp : UInt64)
  /-- `run` is called; `epoll_create` succeeds or not. -/
  | run (created : Bool)
  /-- `epoll_wait` returns; `fatal` is an error other than `EINTR`. -/
  | wait (fatal : Bool)
  /-- The section under the lock, with the clock's value. -/
  | lock (now : UInt64)
  /-- One callback of `timeout_list_`. -/
  | fire
  /-- The loop is over. -/
  | clear
  deriving DecidableEq, Repr

namespace TimerRun

variable {H : TimerHeap}

def start (H : TimerHeap) : TimerRun H := ⟨.new H, .idle, [], []⟩

def step (s : TimerRun H) : TimerLabel → Option (TimerRun H)
  | .setTimer callback args timestamp =>
    let item : TimerItem := ⟨s.set.length, callback, args, timestamp⟩
    some { s with timer := s.timer.setTimer item, set := s.set ++ [item] }
  | .run created =>
    if s.pc = .idle then some { s with pc := if created then .waiting else .idle } else none
  | .wait fatal =>
    if s.pc = .waiting then some { s with pc := if fatal then .idle else .woken } else none
  | .lock now =>
    if s.pc = .woken then some { s with timer := s.timer.expire now, pc := .firing 0 } else none
  | .fire =>
    match s.pc with
    | .firing next =>
      match s.timer.timeoutList[next]? with
      | some item => some { s with pc := .firing (next + 1), fired := s.fired ++ [item] }
      | none => none
    | _ => none
  | .clear =>
    match s.pc with
    | .firing next =>
      if s.timer.timeoutList.length ≤ next then
        some { s with timer := { s.timer with timeoutList := [] }, pc := .waiting }
      else none
    | _ => none

/-- The timers taken from the heap whose callbacks are still to come. -/
def extracted (s : TimerRun H) : List TimerItem :=
  match s.pc with
  | .firing next => s.timer.timeoutList.drop next
  | _ => s.timer.timeoutList

def heap (s : TimerRun H) : Multiset TimerItem := H.items s.timer.timerHeap

/-- The smallest timestamp of `items`, `UINT64_MAX` if there is none. -/
def Nearest (items : Multiset TimerItem) (nearest : UInt64) : Prop :=
  (∀ item ∈ items, nearest ≤ item.timestamp) ∧
    (items = 0 ∧ nearest = uint64Max ∨ ∃ item ∈ items, item.timestamp = nearest)

structure Inv (s : TimerRun H) : Prop where
  nearest : Nearest s.heap s.timer.nearestExpireTimestamp
  /-- `timeout_list_` is empty between iterations. -/
  cleared : (∀ next, s.pc ≠ .firing next) → s.timer.timeoutList = []
  fresh : ∀ item ∈ s.set, item.id < s.set.length
  nodup : s.set.Nodup
  accounted : (s.set : Multiset TimerItem) = s.heap + s.extracted + s.fired

/-! ## The cache -/

section

variable {items : Multiset TimerItem} {nearest now : UInt64} {item : TimerItem}

theorem le_uint64Max (t : UInt64) : t ≤ uint64Max := by
  rw [UInt64.le_iff_toNat_le]
  have := t.toNat_lt
  show t.toNat ≤ 18446744073709551615
  omega

theorem timerComp_eq_false {lhs rhs : TimerItem} :
    timerComp lhs rhs = false ↔ lhs.timestamp ≤ rhs.timestamp := by
  unfold timerComp
  rw [decide_eq_false_iff_not, UInt64.not_lt]

/-- `set_timer` keeps the cache exact. -/
theorem Nearest.cons (h : Nearest items nearest) (item : TimerItem) :
    Nearest (item ::ₘ items) (if nearest > item.timestamp then item.timestamp else nearest) := by
  obtain ⟨hle, hmin⟩ := h
  split
  · rename_i hlt
    refine ⟨?_, Or.inr ⟨item, Multiset.mem_cons_self item items, rfl⟩⟩
    intro other hother
    rcases Multiset.mem_cons.1 hother with rfl | hmem
    · exact UInt64.le_refl _
    · exact UInt64.le_trans (UInt64.le_of_lt hlt) (hle other hmem)
  · rename_i hge
    have hge' : nearest ≤ item.timestamp := UInt64.not_lt.1 hge
    refine ⟨?_, Or.inr ?_⟩
    · intro other hother
      rcases Multiset.mem_cons.1 hother with rfl | hmem
      · exact hge'
      · exact hle other hmem
    · rcases hmin with ⟨-, hmax⟩ | ⟨least, hleast, heq⟩
      · refine ⟨item, Multiset.mem_cons_self item items, ?_⟩
        apply UInt64.le_antisymm _ hge'
        rw [hmax]
        exact le_uint64Max _
      · exact ⟨least, Multiset.mem_cons_of_mem hleast, heq⟩

/-- Reading the cache off the top. -/
theorem nearest_top (q : H.Queue) :
    Nearest (H.items q) (match H.top q with
      | some item => item.timestamp
      | none => uint64Max) := by
  cases htop : H.top q with
  | none =>
    have hempty := H.top_none q htop
    refine ⟨?_, Or.inl ⟨hempty, rfl⟩⟩
    intro item hitem
    rw [hempty] at hitem
    exact absurd hitem (Multiset.notMem_zero item)
  | some item =>
    refine ⟨fun other hother => timerComp_eq_false.1 (H.top_first q item htop other hother), ?_⟩
    refine Or.inr ⟨item, ?_, rfl⟩
    rw [H.items_pop q item htop]
    exact Multiset.mem_cons_self ..

theorem timerComp_total (a b : TimerItem) : timerComp a b = false ∨ timerComp b a = false := by
  rw [timerComp_eq_false, timerComp_eq_false]
  exact UInt64.le_total _ _

theorem timerComp_trans (a b c : TimerItem) (hab : timerComp a b = false)
    (hbc : timerComp b c = false) : timerComp a c = false := by
  rw [timerComp_eq_false] at hab hbc ⊢
  exact UInt64.le_trans hab hbc

/-- Sorted lists serve as the heap. -/
def sortedTimers : TimerHeap := PriorityQueue.sorted timerComp timerComp_total timerComp_trans

/-- **The locked section takes exactly the timers below `now`**, although it looks at the heap only
when the cache is. -/
theorem expire_spec (t : SmartTimer H) (now : UInt64)
    (h : Nearest (H.items t.timerHeap) t.nearestExpireTimestamp) :
    Nearest (H.items (t.expire now).timerHeap) (t.expire now).nearestExpireTimestamp ∧
      ∃ due, (t.expire now).timeoutList = t.timeoutList ++ due ∧
        (due : Multiset TimerItem) = (H.items t.timerHeap).filter (·.timestamp < now) ∧
        H.items t.timerHeap = due + H.items (t.expire now).timerHeap := by
  unfold SmartTimer.expire
  split
  · rename_i hdue
    refine ⟨nearest_top _, ?_⟩
    have hpasses : ∀ a b, timerComp a b = false → decide (b.timestamp < now) = true →
        decide (a.timestamp < now) = true := by
      intro a b hab hb
      rw [decide_eq_true_eq] at hb ⊢
      exact UInt64.lt_of_le_of_lt (timerComp_eq_false.1 hab) hb
    obtain ⟨due, hlist, htaken, hleft⟩ :=
      PriorityQueue.drain_spec hpasses t.timerHeap t.timeoutList
    simp only [decide_eq_true_eq] at htaken hleft
    refine ⟨due, hlist, htaken, ?_⟩
    dsimp only
    rw [hleft, htaken]
    exact (Multiset.filter_add_not _ _).symm
  · rename_i hnone
    refine ⟨h, [], (List.append_nil _).symm, ?_, ?_⟩
    · symm
      apply Multiset.filter_eq_nil.2
      intro item hitem hlt
      exact hnone (UInt64.lt_of_le_of_lt (h.1 item hitem) hlt)
    · exact (Multiset.zero_add _).symm

end

/-! ## One step -/

section

variable {s s' : TimerRun H}

/-- What a step can do. -/
inductive TimerTurn (s : TimerRun H) : TimerLabel → TimerRun H → Prop
  | setTimer (callback args : Nat) (timestamp : UInt64) :
    TimerTurn s (.setTimer callback args timestamp) { s with
      timer := s.timer.setTimer ⟨s.set.length, callback, args, timestamp⟩
      set := s.set ++ [⟨s.set.length, callback, args, timestamp⟩] }
  | run (hpc : s.pc = .idle) (created : Bool) :
    TimerTurn s (.run created) { s with pc := if created then .waiting else .idle }
  | wait (hpc : s.pc = .waiting) (fatal : Bool) :
    TimerTurn s (.wait fatal) { s with pc := if fatal then .idle else .woken }
  | lock (hpc : s.pc = .woken) (now : UInt64) :
    TimerTurn s (.lock now) { s with timer := s.timer.expire now, pc := .firing 0 }
  | fire {next : Nat} {item : TimerItem} (hpc : s.pc = .firing next)
    (hitem : s.timer.timeoutList[next]? = some item) :
    TimerTurn s .fire { s with pc := .firing (next + 1), fired := s.fired ++ [item] }
  | clear {next : Nat} (hpc : s.pc = .firing next) (hdone : s.timer.timeoutList.length ≤ next) :
    TimerTurn s .clear { s with timer := { s.timer with timeoutList := [] }, pc := .waiting }

theorem step_turn {l : TimerLabel} (hstep : step s l = some s') : TimerTurn s l s' := by
  unfold step at hstep
  split at hstep
  next callback args timestamp => cases hstep; exact .setTimer callback args timestamp
  next created =>
    split at hstep <;> cases hstep
    next hpc => exact .run hpc created
  next fatal =>
    split at hstep <;> cases hstep
    next hpc => exact .wait hpc fatal
  next now =>
    split at hstep <;> cases hstep
    next hpc => exact .lock hpc now
  next =>
    split at hstep
    next next hpc =>
      split at hstep <;> cases hstep
      next hitem => exact .fire hpc hitem
    next => cases hstep
  next =>
    split at hstep
    next next hpc =>
      split at hstep <;> cases hstep
      next hdone => exact .clear hpc hdone
    next => cases hstep

theorem start_inv (H : TimerHeap) : Inv (start H) := by
  have hheap : (start H).heap = 0 := H.items_empty
  refine ⟨?_, fun _ => rfl, ?_, List.nodup_nil, ?_⟩
  · rw [hheap]
    exact ⟨fun item hitem => absurd hitem (Multiset.notMem_zero item), Or.inl ⟨rfl, rfl⟩⟩
  · intro item hitem
    cases hitem
  · rw [hheap]
    rfl

theorem setTimer_inv (hs : Inv s) (callback args : Nat) (timestamp : UInt64)
    (hstep : step s (.setTimer callback args timestamp) = some s') : Inv s' := by
  cases hstep
  have hheap := H.items_push s.timer.timerHeap ⟨s.set.length, callback, args, timestamp⟩
  refine ⟨?_, hs.cleared, ?_, ?_, ?_⟩
  · show Nearest (H.items (H.push _ _)) _
    rw [hheap]
    exact hs.nearest.cons _
  · intro item hitem
    rw [List.length_append, List.length_singleton]
    rcases List.mem_append.1 hitem with hmem | hmem
    · have := hs.fresh item hmem
      omega
    · rw [List.mem_singleton.1 hmem]
      exact Nat.lt_succ_self _
  · show (s.set ++ [_]).Nodup
    rw [← List.concat_eq_append]
    apply hs.nodup.concat
    intro hmem
    exact absurd (hs.fresh _ hmem) (Nat.lt_irrefl _)
  · show ((s.set ++ [_] : List TimerItem) : Multiset TimerItem) =
      H.items (H.push _ _) + s.extracted + s.fired
    rw [hheap, ← Multiset.coe_add, hs.accounted, Multiset.coe_singleton, Multiset.cons_add,
      Multiset.cons_add, Multiset.add_comm, Multiset.singleton_add]
    rfl

theorem Inv.empty_of_woken (hs : Inv s) (hwoken : s.pc = .woken) : s.timer.timeoutList = [] := by
  refine hs.cleared fun next h => ?_
  rw [hwoken] at h
  cases h

/-- Under the lock, what is due moves from the heap to the list. -/
theorem lock_spec (hs : Inv s) {now : UInt64} (hstep : step s (.lock now) = some s') :
    s.extracted = [] ∧ s'.extracted = s'.timer.timeoutList ∧
      Nearest s'.heap s'.timer.nearestExpireTimestamp ∧
      (s'.extracted : Multiset TimerItem) = s.heap.filter (·.timestamp < now) ∧
      s.heap = s'.heap + s'.extracted ∧ s'.pc = .firing 0 ∧ s'.set = s.set ∧ s'.fired = s.fired := by
  cases step_turn hstep with
  | lock hwoken =>
    have hempty := hs.empty_of_woken hwoken
    have hextracted : s.extracted = [] := by
      unfold extracted
      rw [hwoken]
      exact hempty
    obtain ⟨hnearest, due, hlist, hdue, hheap⟩ := expire_spec s.timer now hs.nearest
    rw [hempty, List.nil_append] at hlist
    refine ⟨hextracted, rfl, hnearest, ?_, ?_, rfl, rfl, rfl⟩
    · show ((s.timer.expire now).timeoutList : Multiset TimerItem) = _
      rw [hlist, hdue]
      rfl
    · show H.items s.timer.timerHeap =
        H.items (s.timer.expire now).timerHeap + (s.timer.expire now).timeoutList
      rw [hheap, hlist, Multiset.add_comm]

theorem lock_inv (hs : Inv s) {now : UInt64} (hstep : step s (.lock now) = some s') : Inv s' := by
  obtain ⟨hextracted, -, hnearest, -, hheap, hpc, hset, hfired⟩ := lock_spec hs hstep
  refine ⟨hnearest, fun h => absurd hpc (h 0), ?_, ?_, ?_⟩
  · rw [hset]
    exact hs.fresh
  · rw [hset]
    exact hs.nodup
  · rw [hset, hfired, hs.accounted, hextracted, Multiset.coe_nil, Multiset.add_zero, hheap]

/-- The next callback. -/
theorem fire_spec (hstep : step s .fire = some s') :
    ∃ item, s.extracted = item :: s'.extracted ∧ s'.fired = s.fired ++ [item] ∧
      s'.timer = s.timer ∧ s'.set = s.set ∧ ∃ next, s'.pc = .firing next := by
  cases step_turn hstep with
  | @fire next item hpc hitem =>
    obtain ⟨hlt, hget⟩ := List.getElem?_eq_some_iff.1 hitem
    refine ⟨item, ?_, rfl, rfl, rfl, next + 1, rfl⟩
    unfold extracted
    rw [hpc, ← hget]
    exact List.drop_eq_getElem_cons hlt

theorem fire_inv (hs : Inv s) (hstep : step s .fire = some s') : Inv s' := by
  obtain ⟨item, hextracted, hfired, htimer, hset, next, hpc⟩ := fire_spec hstep
  have hheap : s'.heap = s.heap := by
    unfold heap
    rw [htimer]
  refine ⟨?_, fun h => absurd hpc (h next), ?_, ?_, ?_⟩
  · rw [hheap, htimer]
    exact hs.nearest
  · rw [hset]
    exact hs.fresh
  · rw [hset]
    exact hs.nodup
  · rw [hset, hheap, hfired, hs.accounted, hextracted, ← Multiset.cons_coe, ← Multiset.coe_add,
      Multiset.coe_singleton, Multiset.add_cons, Multiset.cons_add, ← Multiset.add_assoc,
      ← Multiset.singleton_add, Multiset.add_comm {item}]

theorem clear_inv (hs : Inv s) (hstep : step s .clear = some s') : Inv s' := by
  cases step_turn hstep with
  | clear hpc hdone =>
    refine ⟨hs.nearest, fun _ => rfl, hs.fresh, hs.nodup, ?_⟩
    have hextracted : s.extracted = [] := by
      unfold extracted
      rw [hpc]
      exact List.drop_eq_nil_of_le hdone
    rw [hs.accounted, hextracted]
    rfl

/-- `run` entered or left: the timers are not touched. -/
theorem Inv.move {pc : TimerPc} (hs : Inv s) (hfrom : ∀ next, s.pc ≠ .firing next)
    (hto : ∀ next, pc ≠ .firing next) : Inv { s with pc := pc } := by
  have hempty := hs.cleared hfrom
  refine ⟨hs.nearest, fun _ => hempty, hs.fresh, hs.nodup, ?_⟩
  have hextracted : extracted { s with pc := pc } = s.extracted := by
    unfold extracted
    cases hpc : s.pc with
    | firing next => exact absurd hpc (hfrom next)
    | _ =>
      cases hpc' : pc with
      | firing next => exact absurd hpc' (hto next)
      | _ => rfl
  rw [hextracted]
  exact hs.accounted

/-- **One step keeps the cache exact and every timer in one place.** -/
theorem step_inv {l : TimerLabel} (hs : Inv s) (hstep : step s l = some s') : Inv s' := by
  cases step_turn hstep with
  | setTimer callback args timestamp => exact setTimer_inv hs callback args timestamp hstep
  | run hidle created =>
    apply hs.move
    · rw [hidle]
      intro next h
      cases h
    · intro next h
      cases created <;> cases h
  | wait hwaiting fatal =>
    apply hs.move
    · rw [hwaiting]
      intro next h
      cases h
    · intro next h
      cases fatal <;> cases h
  | lock => exact lock_inv hs hstep
  | fire => exact fire_inv hs hstep
  | clear => exact clear_inv hs hstep

/-- Outside the lock and the callbacks, the timers stay where they are. -/
theorem step_quiet {l : TimerLabel} (hl : (∃ b, l = .run b) ∨ (∃ b, l = .wait b) ∨ l = .clear)
    (hstep : step s l = some s') : s'.set = s.set ∧ s'.heap = s.heap ∧ s'.fired = s.fired := by
  cases step_turn hstep with
  | run | wait | clear => exact ⟨rfl, rfl, rfl⟩
  | setTimer | lock | fire => rcases hl with ⟨b, hl⟩ | ⟨b, hl⟩ | hl <;> cases hl

/-- Nothing set or fired is ever taken back. -/
theorem step_grows {l : TimerLabel} (hstep : step s l = some s') :
    s.set <+: s'.set ∧ s.fired <+: s'.fired := by
  cases step_turn hstep with
  | setTimer => exact ⟨List.prefix_append .., List.prefix_rfl⟩
  | run | wait | lock | clear => exact ⟨List.prefix_rfl, List.prefix_rfl⟩
  | fire => exact ⟨List.prefix_rfl, List.prefix_append ..⟩

theorem Inv.heap_fresh (hs : Inv s) {item : TimerItem} (hitem : item ∈ s.heap) :
    item.id < s.set.length := by
  apply hs.fresh
  rw [← Multiset.mem_coe, hs.accounted, Multiset.mem_add, Multiset.mem_add]
  exact Or.inl (Or.inl hitem)

theorem Inv.extracted_fresh (hs : Inv s) {item : TimerItem} (hitem : item ∈ s.extracted) :
    item.id < s.set.length := by
  apply hs.fresh
  rw [← Multiset.mem_coe, hs.accounted, Multiset.mem_add, Multiset.mem_add]
  exact Or.inl (Or.inr (Multiset.mem_coe.2 hitem))

end

/-! ## Runs -/

section

variable {s s' : TimerRun H} {ls : List TimerLabel}

theorem run_inv (hrun : Transition.exec step (start H) ls = some s) : Inv s :=
  Transition.exec_invariant (fun _ _ _ hs hstep => step_inv hs hstep) ls (start_inv H) hrun

/-- Inside the iteration that took `due` from the heap with `fired` invoked before it. -/
def Iterating (due fired : List TimerItem) (s : TimerRun H) : Prop :=
  s.timer.timeoutList = due ∧
    ∃ next, s.pc = .firing next ∧ next ≤ due.length ∧ s.fired = fired ++ due.take next

/-- What happens during an iteration: callbacks in order, and `set_timer` calls. -/
theorem step_iterating {due fired : List TimerItem} {l : TimerLabel} (hs : Iterating due fired s)
    (hl : l ≠ .clear) (hstep : step s l = some s') : Iterating due fired s' := by
  obtain ⟨hlist, next, hpc, hnext, hfired⟩ := hs
  cases step_turn hstep with
  | setTimer => exact ⟨hlist, next, hpc, hnext, hfired⟩
  | run hpc' | wait hpc' | lock hpc' =>
    rw [hpc] at hpc'
    cases hpc'
  | @fire _ item hpc' hitem =>
    rw [hpc] at hpc'
    cases hpc'
    rw [hlist] at hitem
    obtain ⟨hlt, hget⟩ := List.getElem?_eq_some_iff.1 hitem
    refine ⟨hlist, next + 1, rfl, hlt, ?_⟩
    show s.fired ++ [item] = _
    rw [hfired, List.append_assoc, List.take_succ_eq_append_getElem hlt, hget]
  | clear => exact absurd rfl hl

/-- The end of an iteration. -/
theorem Iterating.clear {due fired : List TimerItem} (hs : Iterating due fired s)
    (hstep : step s .clear = some s') : s'.fired = fired ++ due := by
  obtain ⟨hlist, next, hpc, -, hfired⟩ := hs
  cases step_turn hstep with
  | clear hpc' hdone =>
    rw [hpc] at hpc'
    cases hpc'
    rw [hlist] at hdone
    show s.fired = _
    rw [hfired, List.take_of_length_le hdone]

/-- **One iteration**, from the lock to the end of its loop, invokes exactly what was due. -/
theorem iteration_fires {now : UInt64} {during : List TimerLabel} (hs : Inv s)
    (hduring : TimerLabel.clear ∉ during)
    (hiter : Transition.exec step s (.lock now :: during ++ [.clear]) = some s') :
    ∃ invoked : List TimerItem, s'.fired = s.fired ++ invoked ∧
      (invoked : Multiset TimerItem) = s.heap.filter (·.timestamp < now) := by
  cases hlock : step s (.lock now) with
  | none => simp [Transition.exec, hlock] at hiter
  | some t =>
    obtain ⟨-, hlist₀, -, hdue, -, hpc₀, -, hfired₀⟩ := lock_spec hs hlock
    rw [List.cons_append, Transition.exec_cons hlock, Transition.exec_append] at hiter
    cases hmid : Transition.exec step t during with
    | none => simp [hmid] at hiter
    | some u =>
      have hstart : Iterating t.extracted s.fired t :=
        ⟨hlist₀.symm, 0, hpc₀, Nat.zero_le _, by rw [hfired₀, List.take_zero, List.append_nil]⟩
      have hend := Transition.exec_invariant_of_guarded
        (fun _ _ _ hs hl hstep => step_iterating hs hl hstep) during t u hstart
        (Transition.guarded_of_mem during t fun l hl _ hclear => hduring (hclear ▸ hl)) hmid
      refine ⟨t.extracted, ?_, hdue⟩
      rw [hmid, Option.bind_some] at hiter
      cases hclear : step u .clear with
      | none => simp [Transition.exec, hclear] at hiter
      | some v =>
        rw [Transition.exec_cons hclear, Transition.exec_nil] at hiter
        cases hiter
        exact hend.clear hclear

/-- Between iterations, what is in the heap is what was set and has not been invoked. -/
theorem heap_of_lock {now : UInt64} (hs : Inv s) (hlock : step s (.lock now) = some s') :
    s.heap = (s.set : Multiset TimerItem) - s.fired := by
  obtain ⟨hextracted, -⟩ := lock_spec hs hlock
  rw [hs.accounted, hextracted, Multiset.coe_nil, Multiset.add_zero, Multiset.add_sub_cancel_right]

/-- **No timer is missed, lost or fired twice.**  After any run: the cache is exact; every timer set
is in the heap, extracted or fired, in one of them and once; and an iteration that starts here
invokes exactly the timers set and not yet fired whose timestamp is below its `now`. -/
theorem run_timers (H : TimerHeap) (ls : List TimerLabel) (s : TimerRun H)
    (hrun : Transition.exec step (start H) ls = some s) :
    Nearest s.heap s.timer.nearestExpireTimestamp ∧
      (∀ item, s.heap.count item + s.extracted.count item + s.fired.count item =
        if item ∈ s.set then 1 else 0) ∧
      ((∀ next, s.pc ≠ .firing next) → s.extracted = []) ∧
      ∀ now during s', TimerLabel.clear ∉ during →
        Transition.exec step s (.lock now :: during ++ [.clear]) = some s' →
        ∃ invoked : List TimerItem, s'.fired = s.fired ++ invoked ∧
          (invoked : Multiset TimerItem) =
            ((s.set : Multiset TimerItem) - s.fired).filter (·.timestamp < now) := by
  have hs := run_inv hrun
  refine ⟨hs.nearest, ?_, ?_, ?_⟩
  · intro item
    have hcount := congrArg (Multiset.count item) hs.accounted
    rw [Multiset.count_add, Multiset.count_add, Multiset.coe_count, Multiset.coe_count,
      Multiset.coe_count] at hcount
    rw [← hcount, hs.nodup.count]
  · intro hidle
    unfold extracted
    cases hpc : s.pc with
    | firing next => exact absurd hpc (hidle next)
    | _ => exact hs.cleared hidle
  · intro now during s' hduring hiter
    cases hlock : step s (.lock now) with
    | none => simp [Transition.exec, hlock] at hiter
    | some t =>
      rw [← heap_of_lock hs hlock]
      exact iteration_fires hs hduring hiter

end

/-- Two timers, of which one is due when the thread takes the lock. -/
theorem run_timers_two : ∃ s, Transition.exec step (start sortedTimers)
      [.setTimer 10 0 7, .run true, .wait false, .setTimer 20 0 3, .lock 5, .fire, .clear] = some s ∧
    s.fired.map TimerItem.id = [1] ∧ Nearest s.heap s.timer.nearestExpireTimestamp :=
  ⟨_, rfl, rfl, (run_timers sortedTimers
    [.setTimer 10 0 7, .run true, .wait false, .setTimer 20 0 3, .lock 5, .fire, .clear] _ rfl).1⟩

end TimerRun

end SmartRoutine
