import SmartRoutine.DynamicBuffer
import SmartRoutine.Lib.Transition

/-!
# The size limit of the dynamic buffer

* `InLimit` — the indices are in order and `capacity_` is within `max_capacity_`.
* `append_inLimit_iff` — an append keeps `InLimit` **exactly** when it does not `leavesLimit`: when
  it is not accepted although, after `move_forward`, its bytes end past `capacity_` or `capacity_`
  has outgrown `max_capacity_`.
* `run_withinLimit_iff` — a run stays within the limit **exactly** when it has no such append.
* `append_past_limit` — the smallest run past it: two bytes into a block of one that may grow to
  two, and one byte more.

`expand_capacity` never runs from a state in the limit, and once the write index has passed
`capacity_` the first test of `append` wraps and is never true again.
-/

set_option autoImplicit false

namespace SmartRoutine

namespace DynamicBuffer

/-- What the size limit promises of a state, whatever is appended next. -/
structure WithinLimit (env : BufferEnv) (b : DynamicBuffer) : Prop where
  readable_le : b.readableBytes ≤ b.maxCapacity
  capacity_le : b.capacity ≤ b.maxCapacity
  refused : ∀ data ec, b.maxCapacity < b.readableBytes + data.length →
    b.append env data ec = (b, .exceedBufferBound)

structure InLimit (b : DynamicBuffer) : Prop where
  read_le : b.readIndex ≤ b.writeIndex
  write_le : b.writeIndex ≤ b.capacity
  capacity_le : b.capacity ≤ b.maxCapacity

/-- An append that the writable section is too short for, that is accepted, and that `move_forward`
makes no room for within the limit. -/
def leavesLimit (env : BufferEnv) (b : DynamicBuffer) : BufferOp → Bool
  | .append data =>
    let capacity := add64 b.capacity b.prependableBytes
    b.writableBytes < data.length && data.length ≤ b.maxWritableBytes env &&
      (b.maxCapacity < capacity || capacity < b.readableBytes + data.length)
  | .consume _ => false

section

variable {env : BufferEnv} {b b' : DynamicBuffer} {data : List UInt8} {ec : CodeVal}

theorem new_inLimit (env : BufferEnv) {maxCapacity initCapacity : Nat}
    (hinit : initCapacity ≤ maxCapacity) : InLimit (new env maxCapacity initCapacity) :=
  ⟨Nat.le_refl _, Nat.zero_le _, hinit⟩

theorem InLimit.readableBytes (h : InLimit b) (hmax : b.maxCapacity < 2 ^ 64) :
    b.readableBytes = b.writeIndex - b.readIndex := by
  have := h.write_le
  have := h.capacity_le
  exact sub64_of_le (by omega) h.read_le

theorem InLimit.writableBytes (h : InLimit b) (hmax : b.maxCapacity < 2 ^ 64) :
    b.writableBytes = b.capacity - b.writeIndex := by
  have := h.capacity_le
  exact sub64_of_le (by omega) h.write_le

/-- `max_writable_bytes()` never promises more than the limit leaves. -/
theorem InLimit.maxWritableBytes_le (env : BufferEnv) (h : InLimit b) (hmax : b.maxCapacity < 2 ^ 64) :
    b.readableBytes + b.maxWritableBytes env ≤ b.maxCapacity := by
  have hread := h.readableBytes hmax
  obtain ⟨hr, hw, hc⟩ := h
  have hsum : ∀ p, p ≤ b.readIndex →
      add64 (add64 (sub64 b.maxCapacity b.capacity) (sub64 b.capacity b.writeIndex)) p =
        b.maxCapacity - b.writeIndex + p := by
    intro p hp
    unfold add64 sub64
    omega
  rw [hread]
  by_cases hth : b.readIndex ≥ env.moveForwardThreshold
  · rw [maxWritableBytes_eq env b (p := b.readIndex) (by rw [if_pos hth]), hsum _ (Nat.le_refl _)]
    omega
  · rw [maxWritableBytes_eq env b (p := 0) (by rw [if_neg hth]), hsum _ (Nat.zero_le _)]
    omega

/-- Within the limit, the slow path of `append` does not grow the block. -/
theorem append_slow (h : InLimit b) (hmax : b.maxCapacity < 2 ^ 64)
    (hfull : b.writableBytes < data.length) (hroom : data.length ≤ b.maxWritableBytes env) :
    b.append env data ec = (b.moveForward.copyIn data, ec) := by
  have hgrow := maxWritableBytes_moveForward env h.read_le h.write_le h.capacity_le hmax
  unfold append
  rw [if_pos hfull, if_neg (by omega)]
  dsimp only
  rw [if_neg (by omega)]

theorem append_fast (hfit : data.length ≤ b.writableBytes) :
    b.append env data ec = (b.copyIn data, ec) := by
  unfold append
  rw [if_neg (by omega)]

theorem append_refused (hfull : b.writableBytes < data.length)
    (hroom : b.maxWritableBytes env < data.length) :
    b.append env data ec = (b, .exceedBufferBound) := by
  unfold append
  rw [if_pos hfull, if_pos hroom]

theorem append_maxCapacity (b : DynamicBuffer) :
    (b.append env data ec).1.maxCapacity = b.maxCapacity := by
  unfold append
  dsimp only
  split
  · split
    · rfl
    · split
      · rw [copyIn_maxCapacity, expandCapacity_maxCapacity, moveForward_maxCapacity]
      · rw [copyIn_maxCapacity, moveForward_maxCapacity]
  · rw [copyIn_maxCapacity]

theorem InLimit.withinLimit (env : BufferEnv) (h : InLimit b) (hmax : b.maxCapacity < 2 ^ 64) :
    WithinLimit env b := by
  have hread := h.readableBytes hmax
  have hwrite := h.writableBytes hmax
  have hroom := h.maxWritableBytes_le env hmax
  obtain ⟨hr, hw, hc⟩ := h
  refine ⟨by omega, hc, ?_⟩
  intro data ec hpast
  apply append_refused <;> omega

/-- **One append keeps the limit exactly when it is not one of those that leave it.** -/
theorem append_inLimit_iff (h : InLimit b) (hmax : b.maxCapacity < 2 ^ 64) :
    InLimit (b.append env data ec).1 ↔ b.leavesLimit env (.append data) = false := by
  have hread := h.readableBytes hmax
  have hwrite := h.writableBytes hmax
  have hle := h.maxWritableBytes_le env hmax
  obtain ⟨hr, hw, hc⟩ := id h
  simp only [leavesLimit, Bool.and_eq_false_iff, Bool.or_eq_false_iff, decide_eq_false_iff_not,
    Nat.not_lt, Nat.not_le]
  by_cases hfit : data.length ≤ b.writableBytes
  · rw [append_fast hfit]
    refine ⟨fun _ => Or.inl (Or.inl hfit), fun _ => ?_⟩
    have hadd : add64 b.writeIndex data.length = b.writeIndex + data.length := add64_of_lt (by omega)
    refine ⟨?_, ?_, hc⟩
    · rw [copyIn_readIndex, copyIn_writeIndex, hadd]
      omega
    · rw [copyIn_writeIndex, copyIn_capacity, hadd]
      omega
  · by_cases hroom : data.length ≤ b.maxWritableBytes env
    · rw [append_slow h hmax (by omega) hroom]
      have hsub : sub64 b.writeIndex b.readIndex = b.writeIndex - b.readIndex :=
        sub64_of_le (by omega) hr
      have hadd : add64 (b.writeIndex - b.readIndex) data.length =
          b.writeIndex - b.readIndex + data.length := add64_of_lt (by omega)
      constructor
      · rintro ⟨-, hw', hc'⟩
        rw [copyIn_writeIndex, copyIn_capacity, moveForward_writeIndex, moveForward_capacity, hsub,
          hadd, ← hread] at hw'
        rw [copyIn_capacity, moveForward_capacity, copyIn_maxCapacity, moveForward_maxCapacity] at hc'
        exact Or.inr ⟨hc', hw'⟩
      · rintro ((hfits | hrefused) | ⟨hc', hw'⟩)
        · omega
        · omega
        · refine ⟨?_, ?_, ?_⟩
          · rw [copyIn_readIndex, moveForward_readIndex]
            exact Nat.zero_le _
          · rw [copyIn_writeIndex, copyIn_capacity, moveForward_writeIndex, moveForward_capacity,
              hsub, hadd, ← hread]
            exact hw'
          · rw [copyIn_capacity, moveForward_capacity, copyIn_maxCapacity, moveForward_maxCapacity]
            exact hc'
    · rw [append_refused (by omega) (by omega)]
      exact ⟨fun _ => Or.inl (Or.inr (by omega)), fun _ => h⟩

/-- With nothing to reclaim, a write index past `capacity_` disables the limit. -/
theorem WithinLimit.inLimit (h : WithinLimit env b) (hread : b.readIndex = 0)
    (hwrite : b.writeIndex ≤ b.maxCapacity) (hmax : b.maxCapacity < 2 ^ 64) : InLimit b := by
  refine ⟨by omega, ?_, h.capacity_le⟩
  by_contra hpast
  have hreadable : b.readableBytes = b.writeIndex := by
    unfold DynamicBuffer.readableBytes
    rw [hread, sub64_of_le (by omega) (Nat.zero_le _), Nat.sub_zero]
  have hwritable : b.writableBytes = b.capacity + 2 ^ 64 - b.writeIndex := by
    unfold DynamicBuffer.writableBytes sub64
    omega
  -- one byte more than the limit leaves: `writable_bytes()` has wrapped, so it is taken
  have hrefused := h.refused (List.replicate (b.maxCapacity - b.writeIndex + 1) 0) .success
    (by rw [List.length_replicate]; omega)
  rw [append_fast (by rw [List.length_replicate]; omega)] at hrefused
  exact absurd (Prod.mk.inj hrefused).2 (by decide)

theorem append_withinLimit_iff (h : InLimit b) (hmax : b.maxCapacity < 2 ^ 64) :
    WithinLimit env (b.append env data ec).1 ↔ InLimit (b.append env data ec).1 := by
  have hread := h.readableBytes hmax
  have hwrite := h.writableBytes hmax
  have hle := h.maxWritableBytes_le env hmax
  obtain ⟨hr, hw, hc⟩ := id h
  have hmax' : (b.append env data ec).1.maxCapacity = b.maxCapacity := append_maxCapacity b
  refine ⟨fun h' => ?_, fun h' => h'.withinLimit env (by rw [hmax']; exact hmax)⟩
  by_cases hslow : b.writableBytes < data.length ∧ data.length ≤ b.maxWritableBytes env
  · rw [append_slow h hmax hslow.1 hslow.2] at h' hmax' ⊢
    apply h'.inLimit
    · rw [copyIn_readIndex, moveForward_readIndex]
    · have hsub : sub64 b.writeIndex b.readIndex = b.writeIndex - b.readIndex :=
        sub64_of_le (by omega) hr
      rw [hmax', copyIn_writeIndex, moveForward_writeIndex, hsub, add64_of_lt (by omega)]
      omega
    · rw [hmax']
      exact hmax
  · rw [append_inLimit_iff h hmax]
    simp only [leavesLimit, Bool.and_eq_false_iff, decide_eq_false_iff_not]
    left
    by_contra hnot
    omega

theorem consume_inLimit (h : InLimit b) (hmax : b.maxCapacity < 2 ^ 64) (n : Nat) :
    InLimit (b.consume n ec).1 := by
  have hread := h.readableBytes hmax
  obtain ⟨hr, hw, hc⟩ := id h
  unfold consume
  split
  · exact h
  · have hadd : add64 b.readIndex n = b.readIndex + n := add64_of_lt (by omega)
    refine ⟨?_, hw, hc⟩
    show add64 b.readIndex n ≤ b.writeIndex
    rw [hadd]
    omega

theorem step_maxCapacity {op : BufferOp} (hstep : b.step env op = some b') :
    b'.maxCapacity = b.maxCapacity := by
  cases op with
  | append data =>
    cases hstep
    exact append_maxCapacity b
  | consume n =>
    cases hstep
    unfold consume
    split <;> rfl

/-- **One call from a state in the limit**: the limit holds after it exactly when it is not an
append that leaves it, and then the invariant behind the limit does too. -/
theorem step_withinLimit_iff {op : BufferOp} (h : InLimit b) (hmax : b.maxCapacity < 2 ^ 64)
    (hstep : b.step env op = some b') :
    (WithinLimit env b' ↔ b.leavesLimit env op = false) ∧ (WithinLimit env b' → InLimit b') := by
  cases op with
  | append data =>
    cases hstep
    rw [append_withinLimit_iff h hmax]
    exact ⟨append_inLimit_iff h hmax, id⟩
  | consume n =>
    have hmax' := step_maxCapacity hstep
    cases hstep
    have hin : InLimit (b.consume n .success).1 := consume_inLimit h hmax n
    exact ⟨⟨fun _ => rfl, fun _ => hin.withinLimit env (by rw [hmax']; exact hmax)⟩, fun _ => hin⟩

end

/-- **A run stays within the limit exactly when none of its appends leaves it.** -/
theorem run_withinLimit_iff (env : BufferEnv) (maxCapacity initCapacity : Nat)
    (hinit : initCapacity ≤ maxCapacity) (hmax : maxCapacity < 2 ^ 64) (ops : List BufferOp) :
    Transition.Always (step env) (WithinLimit env) (new env maxCapacity initCapacity) ops ↔
      Transition.Guarded (step env) (fun b op => b.leavesLimit env op = false)
        (new env maxCapacity initCapacity) ops := by
  have hnew := new_inLimit env hinit
  refine Transition.always_iff_guarded (J := fun b => InLimit b ∧ b.maxCapacity < 2 ^ 64) ?_ ?_ ops _
    ⟨hnew, hmax⟩ (hnew.withinLimit env hmax)
  · intro b op b' ⟨hb, hm⟩ _ hstep hb'
    refine ⟨(step_withinLimit_iff hb hm hstep).2 hb', ?_⟩
    rw [step_maxCapacity hstep]
    exact hm
  · intro b op b' ⟨hb, hm⟩ _ hstep
    exact (step_withinLimit_iff hb hm hstep).1

/-- A buffer of four bytes is filled, drained, and refuses what it has no room for. -/
theorem run_withinLimit_iff_drained :
    Transition.Always (step defaultEnv) (WithinLimit defaultEnv) (new defaultEnv 4 4)
      [.append [1, 2, 3, 4], .consume 2, .append [5], .consume 2] := by
  refine (run_withinLimit_iff defaultEnv 4 4 (by decide) (by decide) _).2 ?_
  decide +kernel

/-- **Two bytes into a block of one** that may grow to two put the write index past `capacity_`;
the byte that follows is taken too, and three bytes are readable. -/
theorem append_past_limit :
    ¬ Transition.Always (step defaultEnv) (WithinLimit defaultEnv) (new defaultEnv 2 1)
      [.append [0, 0], .append [0]] := by
  intro h
  have hle := (Transition.always_iff_prefix.1 h _ [] _ (List.append_nil _).symm rfl).readable_le
  revert hle
  decide +kernel

end DynamicBuffer

end SmartRoutine
