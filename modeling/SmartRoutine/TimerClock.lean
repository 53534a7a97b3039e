import Mathlib.Algebra.Ring.Int.Defs
import Mathlib.Algebra.Ring.Nat
import Mathlib.Logic.Function.Basic
import SmartRoutine.SmartTimer

/-!
# Timers and the clock

`set_timer_after` and `set_timer_until` turn a `timeval` into a timestamp by adding microseconds to
milliseconds, and `run` reads the clock the same way.

* `timely_after`, `timely_until` — when such a timestamp is never passed by the clock before the
  time it stands for, up to one millisecond; `early_after` gives the early reading otherwise.
* `run_not_early` — in a run whose timers are all set so, no callback is invoked early.
* `after_five_seconds_early` — a timer of five seconds fires in the fifth millisecond.
-/

set_option autoImplicit false

namespace SmartRoutine

structure Timeval where
  sec : Int
  usec : Int
  deriving DecidableEq, Repr

namespace Timeval

/-- The time in microseconds. -/
def micros (tv : Timeval) : Int := tv.sec * 1000000 + tv.usec

/-- What `get_timestamp` computes before it is cut to 64 bits. -/
def stamp (tv : Timeval) : Int := tv.sec * 1000 + tv.usec

end Timeval

structure NormalTimeval extends Timeval where
  usec_nonneg : 0 ≤ usec
  usec_lt : usec < 1000000

/-- A duration as `set_timer_after` takes it. -/
structure Duration extends NormalTimeval where
  sec_nonneg : 0 ≤ sec

/-- A reading of `gettimeofday`: time since the Epoch, which `get_timestamp` can represent. -/
structure Reading extends NormalTimeval where
  sec_nonneg : 0 ≤ sec
  stamp_lt : toTimeval.stamp < 2 ^ 63

namespace SmartTimer

def getTimestamp (tv : Timeval) : UInt64 := UInt64.ofInt tv.stamp

/-- The timestamp `set_timer_after` hands to `set_timer`. -/
def afterTimestamp (now : Reading) (duration : Duration) : UInt64 :=
  getTimestamp now.toTimeval + UInt64.ofInt (duration.sec * 1000) + UInt64.ofInt duration.usec

/-- The timestamp `set_timer_until` hands to `set_timer`; `none`: it returns -1. -/
def untilTimestamp (now : Reading) (point : NormalTimeval) : Option UInt64 :=
  let tp := getTimestamp point.toTimeval
  if tp < getTimestamp now.toTimeval then none else some tp

end SmartTimer

open SmartTimer

/-! ## Timestamps and time -/

/-- The clock does not pass `timestamp`, from `now` on, before `due`, up to one millisecond. -/
def Timely (now : Reading) (timestamp : UInt64) (due : Int) : Prop :=
  ∀ r : Reading, now.micros ≤ r.micros → timestamp < getTimestamp r.toTimeval → due ≤ r.micros + 1000

/-- The sum of the microseconds reaches into the last milliseconds of a second. -/
def timelyAfter (now : Reading) (duration : Duration) : Bool :=
  duration.sec = 0 ∨
    998999 ≤ now.usec + duration.usec ∧ now.stamp + duration.stamp < 2 ^ 64

def timelyUntil (now : Reading) (point : NormalTimeval) : Bool :=
  point.micros ≤ now.micros + 1000 ∨ point.sec = now.sec ∨
    998999 ≤ point.usec ∧ point.stamp < 2 ^ 64

section

variable {now : Reading} {duration : Duration} {point : NormalTimeval} {tp : UInt64}

theorem toNat_ofInt {x : Int} (h0 : 0 ≤ x) (hx : x < 2 ^ 64) :
    ((UInt64.ofInt x).toNat : Int) = x := by
  unfold UInt64.ofInt
  rw [UInt64.toNat_ofNat']
  omega

theorem Reading.toNat_getTimestamp (r : Reading) : ((getTimestamp r.toTimeval).toNat : Int) = r.stamp := by
  have hlt := r.stamp_lt
  have hs := r.sec_nonneg
  have hu := r.usec_nonneg
  apply toNat_ofInt
  · unfold Timeval.stamp
    omega
  · omega

theorem toNat_afterTimestamp (h : now.stamp + duration.stamp < 2 ^ 64) :
    ((afterTimestamp now duration).toNat : Int) = now.stamp + duration.stamp := by
  have hs := now.sec_nonneg
  have hu := now.usec_nonneg
  have hs' := duration.sec_nonneg
  have hu' := duration.usec_nonneg
  have hsum : afterTimestamp now duration = UInt64.ofInt (now.stamp + duration.stamp) := by
    unfold afterTimestamp getTimestamp
    rw [← UInt64.ofInt_add, ← UInt64.ofInt_add, Int.add_assoc]
    rfl
  rw [hsum]
  apply toNat_ofInt _ h
  unfold Timeval.stamp
  omega

theorem untilTimestamp_eq (h : untilTimestamp now point = some tp) : tp = getTimestamp point.toTimeval := by
  unfold untilTimestamp at h
  dsimp only at h
  split at h
  · cases h
  · exact (Option.some.inj h).symm

/-- Time only makes a timestamp safer. -/
theorem Timely.mono {now' : Reading} {due : Int} (h : Timely now tp due)
    (hle : now.micros ≤ now'.micros) : Timely now' tp due := by
  intro r hr hlt
  apply h r _ hlt
  omega

/-- A timer set for a duration of which the microseconds decide, or of no full second. -/
theorem timely_after (h : timelyAfter now duration = true) :
    Timely now (afterTimestamp now duration) (now.micros + duration.micros) := by
  intro r hr hlt
  have hfit := now.stamp_lt
  have hu := now.usec_nonneg
  have hu' := duration.usec_nonneg
  have hlt' := duration.usec_lt
  have hru := r.usec_nonneg
  have hrlt := r.usec_lt
  have hstamp := r.toNat_getTimestamp
  simp only [timelyAfter, decide_eq_true_eq] at h
  have hsum : now.stamp + duration.stamp < 2 ^ 64 := by
    unfold Timeval.stamp at hfit h ⊢
    omega
  have htp := toNat_afterTimestamp hsum
  rw [UInt64.lt_iff_toNat_lt] at hlt
  unfold Timeval.micros at hr ⊢
  unfold Timeval.stamp at hfit hstamp htp h
  omega

/-- A time point that is (almost) past, in the current second, or at the end of a second. -/
theorem timely_until (h : timelyUntil now point = true) (htp : untilTimestamp now point = some tp) :
    Timely now tp point.micros := by
  intro r hr hlt
  have hfit := now.stamp_lt
  have hu := now.usec_nonneg
  have hlt' := now.usec_lt
  have hu' := point.usec_nonneg
  have hult' := point.usec_lt
  have hs := now.sec_nonneg
  have hru := r.usec_nonneg
  have hrlt := r.usec_lt
  have hstamp := r.toNat_getTimestamp
  have htp' : tp = getTimestamp point.toTimeval := untilTimestamp_eq htp
  simp only [timelyUntil, decide_eq_true_eq] at h
  by_cases hpast : point.micros ≤ now.micros + 1000
  · omega
  · have hfuture : 0 ≤ point.stamp ∧ point.stamp < 2 ^ 64 := by
      unfold Timeval.micros Timeval.stamp at *
      omega
    have hpoint : (tp.toNat : Int) = point.stamp := by
      rw [htp']
      exact toNat_ofInt hfuture.1 hfuture.2
    rw [UInt64.lt_iff_toNat_lt] at hlt
    unfold Timeval.micros at hr h hpast ⊢
    unfold Timeval.stamp at hfit hstamp hpoint h
    omega

/-- **The condition is exact**: for any other duration some later reading of the clock fires the
timer early. -/
theorem early_after (h : timelyAfter now duration = false)
    (hfit : now.stamp + duration.stamp + 1 < 2 ^ 63) :
    ¬ Timely now (afterTimestamp now duration) (now.micros + duration.micros) := by
  intro htimely
  have hu := now.usec_nonneg
  have hs := now.sec_nonneg
  have hu' := duration.usec_nonneg
  have hs' := duration.sec_nonneg
  simp only [timelyAfter, decide_eq_false_iff_not] at h
  have hsec : duration.sec ≠ 0 := fun hzero => h (Or.inl hzero)
  have husec : now.usec + duration.usec < 998999 := by
    by_contra hge
    exact h (Or.inr ⟨by omega, by omega⟩)
  -- one second before the deadline, and just past the point where the sums agree
  let r : Reading :=
    { sec := now.sec + duration.sec - 1
      usec := now.usec + duration.usec + 1001
      usec_nonneg := by omega
      usec_lt := by omega
      sec_nonneg := by omega
      stamp_lt := by
        unfold Timeval.stamp at hfit ⊢
        dsimp only
        omega }
  have hr : now.micros ≤ r.micros := by
    show now.sec * 1000000 + now.usec ≤
      (now.sec + duration.sec - 1) * 1000000 + (now.usec + duration.usec + 1001)
    omega
  have hstamp := r.toNat_getTimestamp
  have htp := toNat_afterTimestamp (show now.stamp + duration.stamp < 2 ^ 64 by omega)
  have hfires : afterTimestamp now duration < getTimestamp r.toTimeval := by
    rw [UInt64.lt_iff_toNat_lt]
    have hr' : r.stamp = (now.sec + duration.sec - 1) * 1000 + (now.usec + duration.usec + 1001) := rfl
    unfold Timeval.stamp at hstamp htp hr'
    omega
  have hdue := htimely r hr hfires
  have hr' : r.micros = (now.sec + duration.sec - 1) * 1000000 + (now.usec + duration.usec + 1001) := rfl
  unfold Timeval.micros at hdue hr'
  omega

end

/-- A reading from the first day after the Epoch. -/
def Reading.ofSmall (sec usec : Fin 100000) : Reading where
  sec := sec.val
  usec := usec.val
  usec_nonneg := by omega
  usec_lt := by omega
  sec_nonneg := by omega
  stamp_lt := by
    unfold Timeval.stamp
    dsimp only
    omega

def Duration.seconds (n : Nat) : Duration where
  sec := n
  usec := 0
  usec_nonneg := Int.le_refl _
  usec_lt := by omega
  sec_nonneg := by omega

/-! ## Runs under the clock -/

/-- A timer with what the clock showed to its thread and to its callers. -/
structure ClockedTimer (H : TimerHeap) where
  timers : TimerRun H
  /-- The latest reading so far. -/
  clock : Reading
  /-- The reading under the lock of the current iteration. -/
  reading : Reading
  /-- When the timer with this id is to fire, in microseconds. -/
  due : Nat → Int
  /-- The callbacks invoked, each with the reading of its iteration. -/
  invoked : List (TimerItem × Reading)

inductive ClockLabel where
  | setTimerAfter (callback args : Nat) (now : Reading) (duration : Duration)
  | setTimerUntil (callback args : Nat) (now : Reading) (point : NormalTimeval)
  | run (created : Bool)
  | wait (fatal : Bool)
  | lock (now : Reading)
  | fire
  | clear

namespace ClockedTimer

variable {H : TimerHeap}

def start (H : TimerHeap) (clock : Reading) : ClockedTimer H :=
  ⟨.start H, clock, clock, fun _ => 0, []⟩

/-- The clock after a caller of `set_timer_*` has read it: the caller may have waited for the lock
since. -/
def seen (s : ClockedTimer H) (now : Reading) : Reading :=
  if s.clock.micros ≤ now.micros then now else s.clock

/-- `set_timer` for a timer that is to fire at `due`. -/
def setTimer (s : ClockedTimer H) (callback args : Nat) (now : Reading) (timestamp : UInt64)
    (due : Int) : Option (ClockedTimer H) :=
  (s.timers.step (.setTimer callback args timestamp)).map fun t =>
    { s with timers := t, clock := s.seen now, due := Function.update s.due s.timers.set.length due }

def step (s : ClockedTimer H) : ClockLabel → Option (ClockedTimer H)
  | .setTimerAfter callback args now duration =>
    s.setTimer callback args now (afterTimestamp now duration) (now.micros + duration.micros)
  | .setTimerUntil callback args now point =>
    match untilTimestamp now point with
    | some tp => s.setTimer callback args now tp point.micros
    | none => some { s with clock := s.seen now }
  | .run created => (s.timers.step (.run created)).map fun t => { s with timers := t }
  | .wait fatal => (s.timers.step (.wait fatal)).map fun t => { s with timers := t }
  | .lock now =>
    if s.clock.micros ≤ now.micros then
      (s.timers.step (.lock (getTimestamp now.toTimeval))).map fun t =>
        { s with timers := t, clock := now, reading := now }
    else none
  | .fire => (s.timers.step .fire).map fun t =>
      { s with
        timers := t
        invoked := s.invoked ++
          (t.fired.drop s.timers.fired.length).map fun item => (item, s.reading) }
  | .clear => (s.timers.step .clear).map fun t => { s with timers := t }

/-- No callback has been invoked early, up to one millisecond. -/
def NotEarly (s : ClockedTimer H) : Prop :=
  ∀ item r, (item, r) ∈ s.invoked → s.due item.id ≤ r.micros + 1000

/-- The timer is set so that the clock does not pass its timestamp early. -/
def timely : ClockLabel → Bool
  | .setTimerAfter _ _ now duration => timelyAfter now duration
  | .setTimerUntil _ _ now point => timelyUntil now point
  | _ => true

structure Inv (s : ClockedTimer H) : Prop where
  timers : s.timers.Inv
  /-- What is in the heap is safe from the clock as it is. -/
  waiting : ∀ item ∈ s.timers.heap, Timely s.clock item.timestamp (s.due item.id)
  /-- What has been taken from it was due. -/
  taken : ∀ item ∈ s.timers.extracted, s.due item.id ≤ s.reading.micros + 1000
  invoked : ∀ item r, (item, r) ∈ s.invoked → item.id < s.timers.set.length
  notEarly : s.NotEarly

section

variable {s s' : ClockedTimer H} {now : Reading} {timestamp : UInt64} {due : Int}

theorem clock_le_seen (s : ClockedTimer H) (now : Reading) : s.clock.micros ≤ (s.seen now).micros := by
  unfold seen
  split
  · assumption
  · exact Int.le_refl _

theorem now_le_seen (s : ClockedTimer H) (now : Reading) : now.micros ≤ (s.seen now).micros := by
  unfold seen
  split
  · exact Int.le_refl _
  · omega

theorem start_inv (H : TimerHeap) (clock : Reading) : Inv (start H clock) := by
  refine ⟨TimerRun.start_inv H, ?_, ?_, ?_, ?_⟩
  · intro item hitem
    rw [show (start H clock).timers.heap = 0 from H.items_empty] at hitem
    exact absurd hitem (Multiset.notMem_zero item)
  · intro item hitem
    cases hitem
  · intro item r hmem
    cases hmem
  · intro item r hmem
    cases hmem

/-- A timer is set so that the clock of its caller does not pass its timestamp early. -/
theorem setTimer_inv {callback args : Nat} (hs : Inv s) (htimely : Timely now timestamp due)
    (hstep : s.setTimer callback args now timestamp due = some s') : Inv s' := by
  obtain ⟨t, ht, rfl⟩ := Option.map_eq_some_iff.1 hstep
  have hinv := TimerRun.step_inv hs.timers ht
  cases ht
  have hold : ∀ {id}, id < s.timers.set.length →
      Function.update s.due s.timers.set.length due id = s.due id :=
    fun hid => Function.update_of_ne (Nat.ne_of_lt hid) _ _
  refine ⟨hinv, ?_, ?_, ?_, ?_⟩
  · intro item hitem
    have hcons := H.items_push s.timers.timer.timerHeap
      ⟨s.timers.set.length, callback, args, timestamp⟩
    change item ∈ H.items (H.push _ _) at hitem
    rw [hcons] at hitem
    rcases Multiset.mem_cons.1 hitem with rfl | hmem
    · show Timely (s.seen now) timestamp (Function.update s.due s.timers.set.length due _)
      rw [Function.update_self]
      exact htimely.mono (now_le_seen s now)
    · show Timely (s.seen now) item.timestamp (Function.update s.due s.timers.set.length due item.id)
      rw [hold (hs.timers.heap_fresh hmem)]
      exact (hs.waiting item hmem).mono (clock_le_seen s now)
  · intro item hitem
    show Function.update s.due s.timers.set.length due item.id ≤ _
    rw [hold (hs.timers.extracted_fresh hitem)]
    exact hs.taken item hitem
  · intro item r hmem
    have := hs.invoked item r hmem
    show item.id < (s.timers.set ++ [_]).length
    rw [List.length_append, List.length_singleton]
    omega
  · intro item r hmem
    show Function.update s.due s.timers.set.length due item.id ≤ _
    rw [hold (hs.invoked item r hmem)]
    exact hs.notEarly item r hmem

/-- The thread moves on without taking or invoking anything. -/
theorem quiet_inv {l : TimerLabel} {t : TimerRun H} (hs : Inv s)
    (hl : (∃ b, l = .run b) ∨ (∃ b, l = .wait b) ∨ l = .clear) (hstep : s.timers.step l = some t) :
    Inv { s with timers := t } := by
  obtain ⟨hset, hheap, hfired⟩ := TimerRun.step_quiet hl hstep
  have hinv := TimerRun.step_inv hs.timers hstep
  have hextracted : (t.extracted : Multiset TimerItem) = s.timers.extracted := by
    have hsame := hinv.accounted
    rw [hset, hheap, hfired, hs.timers.accounted] at hsame
    exact (Multiset.add_right_inj.1 (Multiset.add_left_inj.1 hsame)).symm
  refine ⟨hinv, ?_, ?_, ?_, hs.notEarly⟩
  · intro item hitem
    exact hs.waiting item (hheap ▸ hitem)
  · intro item hitem
    apply hs.taken item
    rw [← Multiset.mem_coe, ← hextracted]
    exact hitem
  · intro item r hmem
    show item.id < t.set.length
    rw [hset]
    exact hs.invoked item r hmem

/-- **Under the lock**: what the clock's value takes from the heap was due. -/
theorem lock_inv {t : TimerRun H} (hs : Inv s) (hle : s.clock.micros ≤ now.micros)
    (hstep : s.timers.step (.lock (getTimestamp now.toTimeval)) = some t) :
    Inv { s with timers := t, clock := now, reading := now } := by
  obtain ⟨-, -, -, htaken, hheap, -, hset, -⟩ := TimerRun.lock_spec hs.timers hstep
  have hinv := TimerRun.step_inv hs.timers hstep
  refine ⟨hinv, ?_, ?_, ?_, hs.notEarly⟩
  · intro item hitem
    have hmem : item ∈ s.timers.heap := by
      rw [hheap]
      exact Multiset.mem_add.2 (Or.inl hitem)
    exact (hs.waiting item hmem).mono hle
  · intro item hitem
    rw [← Multiset.mem_coe, htaken, Multiset.mem_filter] at hitem
    exact hs.waiting item hitem.1 now hle hitem.2
  · intro item r hmem
    show item.id < t.set.length
    rw [hset]
    exact hs.invoked item r hmem

/-- One callback, with the reading of its iteration. -/
theorem fire_inv {t : TimerRun H} (hs : Inv s) (hstep : s.timers.step .fire = some t) :
    Inv { s with
      timers := t
      invoked := s.invoked ++
        (t.fired.drop s.timers.fired.length).map fun item => (item, s.reading) } := by
  obtain ⟨item, hextracted, hfired, htimer, hset, -⟩ := TimerRun.fire_spec hstep
  have hinv := TimerRun.step_inv hs.timers hstep
  have hitem : item ∈ s.timers.extracted := by
    rw [hextracted]
    exact List.mem_cons_self
  have hlog : (t.fired.drop s.timers.fired.length).map (fun item => (item, s.reading)) =
      [(item, s.reading)] := by
    rw [hfired, List.drop_left]
    rfl
  rw [hlog]
  refine ⟨hinv, ?_, ?_, ?_, ?_⟩
  · intro other hother
    apply hs.waiting other
    rw [TimerRun.heap, htimer] at hother
    exact hother
  · intro other hother
    apply hs.taken other
    rw [hextracted]
    exact List.mem_cons_of_mem item hother
  · intro other r hmem
    show other.id < t.set.length
    rw [hset]
    rcases List.mem_append.1 hmem with hold | hnew
    · exact hs.invoked other r hold
    · cases List.mem_singleton.1 hnew
      exact hs.timers.extracted_fresh hitem
  · intro other r hmem
    rcases List.mem_append.1 hmem with hold | hnew
    · exact hs.notEarly other r hold
    · cases List.mem_singleton.1 hnew
      exact hs.taken item hitem

/-- **One step** with a timely label. -/
theorem step_inv {l : ClockLabel} (hs : Inv s) (hl : timely l = true) (hstep : step s l = some s') :
    Inv s' := by
  cases l with
  | setTimerAfter callback args now duration => exact setTimer_inv hs (timely_after hl) hstep
  | setTimerUntil callback args now point =>
    simp only [step] at hstep
    split at hstep
    · rename_i tp htp
      exact setTimer_inv hs (timely_until hl htp) hstep
    · -- refused with -1, but the clock has been read
      cases hstep
      refine ⟨hs.timers, ?_, hs.taken, hs.invoked, hs.notEarly⟩
      intro item hitem
      exact (hs.waiting item hitem).mono (clock_le_seen s now)
  | run created =>
    obtain ⟨t, ht, rfl⟩ := Option.map_eq_some_iff.1 hstep
    exact quiet_inv hs (Or.inl ⟨created, rfl⟩) ht
  | wait fatal =>
    obtain ⟨t, ht, rfl⟩ := Option.map_eq_some_iff.1 hstep
    exact quiet_inv hs (Or.inr (Or.inl ⟨fatal, rfl⟩)) ht
  | lock now =>
    simp only [step] at hstep
    split at hstep
    · rename_i hle
      obtain ⟨t, ht, rfl⟩ := Option.map_eq_some_iff.1 hstep
      exact lock_inv hs hle ht
    · cases hstep
  | fire =>
    obtain ⟨t, ht, rfl⟩ := Option.map_eq_some_iff.1 hstep
    exact fire_inv hs ht
  | clear =>
    obtain ⟨t, ht, rfl⟩ := Option.map_eq_some_iff.1 hstep
    exact quiet_inv hs (Or.inr (Or.inr rfl)) ht

end

/-- **No timer fires early** in a run whose timers are all set in a timely way. -/
theorem run_not_early (H : TimerHeap) (clock : Reading) (ls : List ClockLabel)
    (hguard : Transition.Guarded step (fun _ l => timely l = true) (start H clock) ls) :
    Transition.Always step NotEarly (start H clock) ls := by
  have halways := Transition.always_of_guarded (P := Inv)
    (fun _ _ _ hs hl hstep => step_inv hs hl hstep) ls _ (start_inv H clock) hguard
  exact Transition.Always.mono (fun s hs => hs.notEarly) ls _ halways

/-- A time point at the end of a second is waited for. -/
theorem run_not_early_endOfSecond :
    Transition.Always step NotEarly (start TimerRun.sortedTimers (Reading.ofSmall 10 0))
      [.setTimerUntil 0 0 (Reading.ofSmall 10 0) ⟨⟨12, 999500⟩, by decide, by decide⟩, .run true,
        .wait false, .lock (Reading.ofSmall 50000 0), .fire, .clear] :=
  run_not_early TimerRun.sortedTimers (Reading.ofSmall 10 0) _ (by decide +kernel)

/-- **A timer of five seconds fires after five milliseconds**: the clock shows 10 s when it is set
and 10.005001 s when its callback is invoked. -/
theorem after_five_seconds_early :
    ¬ Transition.Always step NotEarly (start TimerRun.sortedTimers (Reading.ofSmall 10 0))
      [.setTimerAfter 0 0 (Reading.ofSmall 10 0) (.seconds 5), .run true, .wait false,
        .lock (Reading.ofSmall 10 5001), .fire] := by
  intro h
  have hearly := Transition.always_iff_prefix.1 h _ [] _ (List.append_nil _).symm rfl
    ⟨0, 0, 0, 15000⟩ (Reading.ofSmall 10 5001) (List.mem_singleton.2 rfl)
  revert hearly
  decide +kernel

end ClockedTimer

end SmartRoutine
