import SmartRoutine.TimerClock

/-!
# Timestamps and the order of times

`get_timestamp` adds microseconds to milliseconds, so a later time may have the smaller timestamp.

* `getTimestamp_lt_iff` — two timestamps compare like their times **exactly** when the microseconds
  do not fall too far (`inOrder`).
* `untilTimestamp_eq_none_iff` — what `set_timer_until` refuses.
* `iteration_fires_until` — when the next iteration of `run` fires an accepted time point.
* `timestamps_inOrder_iff` — the three together; `later_time_refused` is a time point almost a
  second ahead that is taken to be in the past.
-/

set_option autoImplicit false

namespace SmartRoutine

open SmartTimer

namespace Timeval

/-- The sum in `get_timestamp` overflows neither `long` nor, converted, `uint64_t`. -/
def Fits (tv : Timeval) : Prop := 0 ≤ tv.stamp ∧ tv.stamp < 2 ^ 63

/-- From `a` to `b`, `tv_usec` falls by less than 1000 for each second that passes. -/
def inOrder (a b : Timeval) : Bool := a.usec - b.usec < 1000 * (b.sec - a.sec)

variable {a b : Timeval}

theorem Fits.toNat_getTimestamp (h : a.Fits) : ((getTimestamp a).toNat : Int) = a.stamp := by
  have hlt := h.2
  exact toNat_ofInt h.1 (by omega)

/-- **Timestamps compare like times exactly when these are in order.** -/
theorem getTimestamp_lt_iff (ha : a.Fits) (hb : b.Fits) :
    getTimestamp a < getTimestamp b ↔ a.inOrder b = true := by
  have hna := ha.toNat_getTimestamp
  have hnb := hb.toNat_getTimestamp
  rw [UInt64.lt_iff_toNat_lt, inOrder, decide_eq_true_eq]
  unfold stamp at hna hnb
  omega

end Timeval

open Timeval

theorem Reading.fits (r : Reading) : r.toTimeval.Fits := by
  have hs := r.sec_nonneg
  have hu := r.usec_nonneg
  refine ⟨?_, r.stamp_lt⟩
  unfold stamp
  omega

/-- `set_timer_until` refuses what it takes to be in the past. -/
theorem untilTimestamp_eq_none_iff (now : Reading) {point : NormalTimeval}
    (hpoint : point.toTimeval.Fits) :
    untilTimestamp now point = none ↔ point.toTimeval.inOrder now.toTimeval = true := by
  rw [← getTimestamp_lt_iff hpoint now.fits]
  unfold untilTimestamp
  dsimp only
  split
  · rename_i hlt
    exact ⟨fun _ => hlt, fun _ => rfl⟩
  · rename_i hnot
    exact ⟨fun h => (Option.some_ne_none _ h).elim, fun h => absurd h hnot⟩

namespace TimerRun

variable {H : TimerHeap} {s s' : TimerRun H}

/-- A timer once set stays among those set. -/
theorem exec_set {item : TimerItem} {ls : List TimerLabel} (hitem : item ∈ s.set)
    (hrun : Transition.exec step s ls = some s') : item ∈ s'.set :=
  Transition.exec_invariant (P := fun s => item ∈ s.set)
    (fun _ _ _ hs hstep => (step_grows hstep).1.subset hs) ls hitem hrun

/-- **One iteration** leaves fired what was fired before it and what is below its `now`. -/
theorem iteration_mem_fired {item : TimerItem} {now : UInt64} {during : List TimerLabel}
    (hs : Inv s) (hitem : item ∈ s.set) (hduring : TimerLabel.clear ∉ during)
    (hiter : Transition.exec step s (.lock now :: during ++ [.clear]) = some s') :
    item ∈ s'.fired ↔ item ∈ s.fired ∨ item.timestamp < now := by
  obtain ⟨invoked, hfired, hinvoked⟩ := iteration_fires hs hduring hiter
  have hmem : item ∈ invoked ↔ item ∈ s.heap ∧ item.timestamp < now := by
    rw [← Multiset.mem_coe, hinvoked, Multiset.mem_filter]
  have hwhere : item ∈ s.heap ∨ item ∈ s.fired := by
    cases hlock : step s (.lock now) with
    | none => simp [Transition.exec, hlock] at hiter
    | some t =>
      have hset : item ∈ (s.set : Multiset TimerItem) := hitem
      rw [hs.accounted, (lock_spec hs hlock).1, Multiset.coe_nil, Multiset.add_zero,
        Multiset.mem_add] at hset
      exact hset
  rw [hfired, List.mem_append, hmem]
  constructor
  · rintro (hold | ⟨-, hlt⟩)
    · exact .inl hold
    · exact .inr hlt
  · rintro (hold | hlt)
    · exact .inl hold
    · exact hwhere.symm.imp_right fun hheap => ⟨hheap, hlt⟩

/-- **An accepted time point** is fired by the next iteration that is in order with it, and by no
other. -/
theorem iteration_fires_until {point : NormalTimeval} {now reading : Reading}
    {before mid during : List TimerLabel} {s₀ s₁ : TimerRun H} {callback args : Nat} {tp : UInt64}
    (hpoint : point.toTimeval.Fits) (hbefore : Transition.exec step (start H) before = some s₀)
    (htp : untilTimestamp now point = some tp)
    (hset : step s₀ (.setTimer callback args tp) = some s₁)
    (hmid : Transition.exec step s₁ mid = some s) (hduring : TimerLabel.clear ∉ during)
    (hiter : Transition.exec step s (.lock (getTimestamp reading.toTimeval) :: during ++ [.clear]) =
      some s') :
    (⟨s₀.set.length, callback, args, tp⟩ : TimerItem) ∈ s'.fired ↔
      (⟨s₀.set.length, callback, args, tp⟩ : TimerItem) ∈ s.fired ∨
        point.toTimeval.inOrder reading.toTimeval = true := by
  have hs : Inv s := Transition.exec_invariant (fun _ _ _ hs hstep => step_inv hs hstep) mid
    (setTimer_inv (run_inv hbefore) callback args tp hset) hmid
  have hnew : (⟨s₀.set.length, callback, args, tp⟩ : TimerItem) ∈ s₁.set := by
    cases hset
    exact List.mem_append_right _ (List.mem_singleton.2 rfl)
  rw [iteration_mem_fired hs (exec_set hnew hmid) hduring hiter,
    ← getTimestamp_lt_iff hpoint reading.fits, ← untilTimestamp_eq htp]

end TimerRun

/-- **Timestamps respect real time exactly where times are in order**: between two times at least a
millisecond apart, in what `set_timer_until` accepts and refuses, and in the iteration that finds
the clock more than a millisecond past an accepted time point. -/
theorem timestamps_inOrder_iff (point : NormalTimeval) (hpoint : point.toTimeval.Fits) :
    (∀ a : NormalTimeval, a.toTimeval.Fits → a.micros + 1000 ≤ point.micros →
      (getTimestamp a.toTimeval < getTimestamp point.toTimeval ↔
        a.toTimeval.inOrder point.toTimeval = true)) ∧
    (∀ now : Reading,
      (now.micros + 1000 ≤ point.micros →
        (untilTimestamp now point ≠ none ↔ point.toTimeval.inOrder now.toTimeval = false)) ∧
      (point.micros + 1000 ≤ now.micros →
        (untilTimestamp now point = none ↔ point.toTimeval.inOrder now.toTimeval = true))) ∧
    ∀ (H : TimerHeap) (before mid during : List TimerLabel) (s₀ s₁ s s' : TimerRun H)
      (callback args : Nat) (now reading : Reading) (tp : UInt64),
      Transition.exec TimerRun.step (.start H) before = some s₀ →
      untilTimestamp now point = some tp →
      s₀.step (.setTimer callback args tp) = some s₁ →
      Transition.exec TimerRun.step s₁ mid = some s → TimerLabel.clear ∉ during →
      Transition.exec TimerRun.step s
        (.lock (getTimestamp reading.toTimeval) :: during ++ [.clear]) = some s' →
      point.micros + 1000 < reading.micros →
      ((⟨s₀.set.length, callback, args, tp⟩ : TimerItem) ∈ s'.fired ↔
        (⟨s₀.set.length, callback, args, tp⟩ : TimerItem) ∈ s.fired ∨
          point.toTimeval.inOrder reading.toTimeval = true) := by
  refine ⟨fun a ha _ => getTimestamp_lt_iff ha hpoint, fun now => ⟨fun _ => ?_, fun _ => ?_⟩, ?_⟩
  · rw [ne_eq, untilTimestamp_eq_none_iff now hpoint, Bool.not_eq_true]
  · exact untilTimestamp_eq_none_iff now hpoint
  · intro H before mid during s₀ s₁ s s' callback args now reading tp hbefore htp hset hmid hduring
      hiter _
    exact TimerRun.iteration_fires_until hpoint hbefore htp hset hmid hduring hiter

/-- Ten and eleven seconds, and the latter as a time point that is fired at twelve. -/
theorem timestamps_inOrder_iff_seconds :
    (getTimestamp (Reading.ofSmall 10 0).toTimeval < getTimestamp (Reading.ofSmall 11 0).toTimeval ↔
      (Reading.ofSmall 10 0).toTimeval.inOrder (Reading.ofSmall 11 0).toTimeval = true) ∧
    ((⟨0, 7, 0, 11000⟩ : TimerItem) ∈ [(⟨0, 7, 0, 11000⟩ : TimerItem)] ↔
      (⟨0, 7, 0, 11000⟩ : TimerItem) ∈ ([] : List TimerItem) ∨
        (Reading.ofSmall 11 0).toTimeval.inOrder (Reading.ofSmall 12 0).toTimeval = true) := by
  obtain ⟨hpair, -, hfires⟩ :=
    timestamps_inOrder_iff (Reading.ofSmall 11 0).toNormalTimeval (Reading.fits _)
  refine ⟨hpair (Reading.ofSmall 10 0).toNormalTimeval (Reading.fits _) (by decide), ?_⟩
  exact hfires TimerRun.sortedTimers [] [.run true, .wait false] [.fire] _ _ _ _ 7 0
    (Reading.ofSmall 10 0) (Reading.ofSmall 12 0) 11000 rfl (by decide) rfl rfl (by decide) rfl
    (by decide)

/-- **A later time with the smaller timestamp**: 11 s after 10.005 s.  As a time point it is refused
though it is 0.995 s ahead. -/
theorem later_time_refused :
    ¬ ∀ (now : Reading) (point : NormalTimeval), point.toTimeval.Fits →
      now.micros + 1000 ≤ point.micros →
      getTimestamp now.toTimeval < getTimestamp point.toTimeval ∧ untilTimestamp now point ≠ none := by
  intro h
  have hrefused := h (Reading.ofSmall 10 5000) (Reading.ofSmall 11 0).toNormalTimeval
    (Reading.fits _) (by decide)
  revert hrefused
  decide

end SmartRoutine
