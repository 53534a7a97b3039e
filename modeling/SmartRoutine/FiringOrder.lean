import SmartRoutine.SmartTimer

/-!
# The order in which timers fire

* `lock_sorted` — one batch is extracted in the order of its timestamps.
* `step_inSequence` — the callbacks of a batch are invoked one after the other, and nothing else is
  invoked before its last one.
* `run_deadlineOrder` — of two timers in the hands of the class when the later one is extracted, the
  one with the smaller timestamp is invoked first, in every run and with any clock.
-/

set_option autoImplicit false

namespace SmartRoutine

namespace TimerRun

variable {H : TimerHeap} {s s' : TimerRun H}

/-- What is extracted under the lock is in the order of the timestamps. -/
theorem lock_sorted (hs : Inv s) {now : UInt64} (hstep : step s (.lock now) = some s') :
    s'.extracted.Pairwise fun a b => a.timestamp ≤ b.timestamp := by
  obtain ⟨-, hlist, -⟩ := lock_spec hs hstep
  rw [hlist]
  cases step_turn hstep with
  | lock hwoken =>
    have hempty := hs.empty_of_woken hwoken
    show (s.timer.expire now).timeoutList.Pairwise _
    unfold SmartTimer.expire
    split
    · obtain ⟨xs, hxs, hsorted⟩ := PriorityQueue.drain_sorted (Q := H)
        (fun item => item.timestamp < now) s.timer.timerHeap s.timer.timeoutList
      dsimp only
      rw [hxs, hempty, List.nil_append]
      exact hsorted.imp fun h => timerComp_eq_false.1 h
    · rw [hempty]
      exact .nil

/-- The batch `due` is being invoked, or has been. -/
def InSequence (due fired : List TimerItem) (s : TimerRun H) : Prop :=
  Iterating due fired s ∨ fired ++ due <+: s.fired

theorem step_inSequence {due fired : List TimerItem} {l : TimerLabel}
    (hs : InSequence due fired s) (hstep : step s l = some s') : InSequence due fired s' := by
  rcases hs with hiter | hdone
  · by_cases hl : l = .clear
    · -- the loop is over, so all of the batch has been invoked
      right
      subst hl
      exact ⟨[], by rw [List.append_nil, hiter.clear hstep]⟩
    · exact .inl (step_iterating hiter hl hstep)
  · exact .inr (hdone.trans (step_grows hstep).2)

theorem InSequence.fired_prefix {due fired : List TimerItem} (h : InSequence due fired s) :
    s.fired <+: fired ++ due ∨ fired ++ due <+: s.fired := by
  rcases h with ⟨-, next, -, -, hfired⟩ | hdone
  · left
    rw [hfired]
    exact (List.prefix_append_right_inj fired).2 (List.take_prefix next due)
  · exact .inr hdone

theorem Inv.nodup_fired_extracted (hs : Inv s) : (s.fired ++ s.extracted).Nodup := by
  have hnodup : (s.set : Multiset TimerItem).Nodup := Multiset.coe_nodup.2 hs.nodup
  rw [hs.accounted, Multiset.add_assoc, Multiset.add_comm (s.extracted : Multiset TimerItem),
    Multiset.coe_add] at hnodup
  exact Multiset.coe_nodup.1 (Multiset.nodup_of_le (Multiset.le_add_left _ _) hnodup)

/-! ## One before the other -/

/-- In a sorted list, the smaller timestamp comes first. -/
theorem pair_sublist_of_sorted {t₁ t₂ : TimerItem} {xs : List TimerItem}
    (hsorted : xs.Pairwise fun a b => a.timestamp ≤ b.timestamp) (h₁ : t₁ ∈ xs) (h₂ : t₂ ∈ xs)
    (hlt : t₁.timestamp < t₂.timestamp) : List.Sublist [t₁, t₂] xs := by
  obtain ⟨before, after, rfl⟩ := List.append_of_mem h₂
  have htail := (List.pairwise_append.1 hsorted).2.1
  rcases List.mem_append.1 h₁ with hbefore | hafter
  · exact (List.singleton_sublist.2 hbefore).append
      (List.singleton_sublist.2 (List.mem_cons_self ..))
  · rcases List.mem_cons.1 hafter with rfl | hafter
    · exact absurd hlt (UInt64.lt_irrefl _)
    · exact absurd hlt (UInt64.not_lt.2 (List.rel_of_pairwise_cons htail hafter))

/-- The order in a list without repetitions is the order in each of its prefixes. -/
theorem pair_sublist_of_prefix {t₁ t₂ : TimerItem} {xs ys : List TimerItem} (hxs : xs <+: ys)
    (hnodup : ys.Nodup) (hpair : List.Sublist [t₁, t₂] ys) (h₂ : t₂ ∈ xs) : List.Sublist [t₁, t₂] xs := by
  obtain ⟨rest, rfl⟩ := hxs
  obtain ⟨front, back, hsplit, hfront, hback⟩ := List.sublist_append_iff.1 hpair
  have hnot : t₂ ∉ back := fun hmem => List.disjoint_of_nodup_append hnodup h₂ (hback.subset hmem)
  have hback_nil : back = [] := by
    cases hlast : back.getLast? with
    | none => exact List.getLast?_eq_none_iff.1 hlast
    | some t =>
      have := congrArg List.getLast? hsplit
      rw [List.getLast?_append, hlast] at this
      cases this
      exact absurd (List.mem_of_getLast? hlast) hnot
  rw [hsplit, hback_nil, List.append_nil]
  exact hfront

/-- **Timers fire in deadline order.**  If `t₁` had been set when the iteration that extracts `t₂`
took the lock, and has the smaller timestamp, then `t₂` is never invoked unless `t₁` was invoked
before it; neither is invoked twice. -/
theorem run_deadlineOrder (H : TimerHeap) (before after : List TimerLabel) (now : UInt64)
    (s t s' : TimerRun H) (t₁ t₂ : TimerItem)
    (hbefore : Transition.exec step (start H) before = some s) (hset : t₁ ∈ s.set)
    (hlock : step s (.lock now) = some t) (hextracted : t₂ ∈ t.extracted)
    (hlt : t₁.timestamp < t₂.timestamp) (hafter : Transition.exec step t after = some s')
    (hfired : t₂ ∈ s'.fired) : s'.fired.Nodup ∧ List.Sublist [t₁, t₂] s'.fired := by
  have hs := run_inv hbefore
  have ht := lock_inv hs hlock
  have hs' := Transition.exec_invariant (fun _ _ _ hs hstep => step_inv hs hstep) after ht hafter
  refine ⟨(List.nodup_append.1 hs'.nodup_fired_extracted).1, ?_⟩
  obtain ⟨hnone, hlist, -, hdue, -, hpc, -, hfired₀⟩ := lock_spec hs hlock
  have hpair : List.Sublist [t₁, t₂] (s.fired ++ t.extracted) := by
    have hwhere : t₁ ∈ (s.set : Multiset TimerItem) := hset
    rw [hs.accounted, hnone, Multiset.coe_nil, Multiset.add_zero, Multiset.mem_add] at hwhere
    rcases hwhere with hheap | hold
    · -- both are in the heap, and what is due includes all that is due earlier
      have hnow : t₂.timestamp < now := by
        have hmem : t₂ ∈ (t.extracted : Multiset TimerItem) := hextracted
        rw [hdue, Multiset.mem_filter] at hmem
        exact hmem.2
      have h₁ : t₁ ∈ (t.extracted : Multiset TimerItem) := by
        rw [hdue, Multiset.mem_filter]
        exact ⟨hheap, UInt64.lt_trans hlt hnow⟩
      exact (pair_sublist_of_sorted (lock_sorted hs hlock) h₁ hextracted hlt).trans
        (List.sublist_append_right ..)
    · exact (List.singleton_sublist.2 hold).append (List.singleton_sublist.2 hextracted)
  have hstart : InSequence t.extracted s.fired t :=
    .inl ⟨hlist.symm, 0, hpc, Nat.zero_le _, by rw [hfired₀, List.take_zero, List.append_nil]⟩
  have hseq := Transition.exec_invariant
    (fun _ _ _ hs hstep => step_inSequence hs hstep) after hstart hafter
  have hnodup : (s.fired ++ t.extracted).Nodup := hfired₀ ▸ ht.nodup_fired_extracted
  rcases hseq.fired_prefix with hpre | hpre
  · exact pair_sublist_of_prefix hpre hnodup hpair hfired
  · exact hpair.trans hpre.sublist

/-- Across two batches, with the clock stepping back between them. -/
theorem run_deadlineOrder_stepBack : ∃ s t s',
    Transition.exec step (start sortedTimers)
      [.setTimer 10 0 3, .setTimer 20 0 7, .run true, .wait false, .lock 5, .fire, .clear, .wait false,
        .lock 4, .clear, .wait false] = some s ∧
    step s (.lock 9) = some t ∧ Transition.exec step t [.fire] = some s' ∧
    s'.fired = [⟨0, 10, 0, 3⟩, ⟨1, 20, 0, 7⟩] ∧ s'.fired.Nodup ∧
    List.Sublist [⟨0, 10, 0, 3⟩, ⟨1, 20, 0, 7⟩] s'.fired :=
  ⟨_, _, _, rfl, rfl, rfl, rfl, run_deadlineOrder sortedTimers
    [.setTimer 10 0 3, .setTimer 20 0 7, .run true, .wait false, .lock 5, .fire, .clear, .wait false,
      .lock 4, .clear, .wait false]
    [.fire] 9 _ _ _ ⟨0, 10, 0, 3⟩ ⟨1, 20, 0, 7⟩ rfl (by decide) rfl (by decide) (by decide) rfl
    (by decide)⟩

end TimerRun

end SmartRoutine
