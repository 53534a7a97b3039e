import SmartRoutine.DynamicBuffer
import SmartRoutine.Lib.Transition

/-!
# What the dynamic buffer refuses

* `AcceptsWhatFits` — an append that leaves no more readable bytes than `max_capacity()` succeeds.
* `acceptsWhatFits_iff` — it does **exactly** when it does not need bytes of a consumed prefix that
  is shorter than `move_forward_threshold`.
* `run_acceptsWhatFits_iff` — the same for every append of every run.
* `drained_buffer_refuses` — a buffer of four bytes, filled and drained, takes nothing any more.

`max_writable_bytes()` does not count such a prefix, although `move_forward` would reclaim it, and
`consume` never resets the indices.
-/

set_option autoImplicit false

namespace SmartRoutine

namespace DynamicBuffer

/-- What a caller who looks at the sizes expects of an append. -/
def AcceptsWhatFits (env : BufferEnv) (b : DynamicBuffer) : BufferOp → Prop
  | .append data =>
    b.readableBytes + data.length ≤ b.maxCapacity → (b.append env data .success).2 = .success
  | .consume _ => True

instance AcceptsWhatFits.decidable (env : BufferEnv) (b : DynamicBuffer) :
    ∀ op, Decidable (AcceptsWhatFits env b op)
  | .append data => inferInstanceAs (Decidable
      (b.readableBytes + data.length ≤ b.maxCapacity → (b.append env data .success).2 = .success))
  | .consume _ => isTrue trivial

/-- An append that fits, but only with the prefix consumed so far, which is below the threshold.
Its bytes would end past `max_capacity_`, and it is longer than the writable section. -/
def needsShortPrefix (env : BufferEnv) (b : DynamicBuffer) : BufferOp → Bool
  | .append data =>
    b.readableBytes + data.length ≤ b.maxCapacity &&
      b.readIndex < env.moveForwardThreshold &&
      b.writeIndex ≤ b.maxCapacity && b.maxCapacity < b.writeIndex + data.length &&
      b.writableBytes < data.length
  | .consume _ => false

/-- The indices and sizes are values of `size_t`. -/
structure SizeT (b : DynamicBuffer) : Prop where
  read_lt : b.readIndex < 2 ^ 64
  write_lt : b.writeIndex < 2 ^ 64
  capacity_lt : b.capacity < 2 ^ 64
  max_lt : b.maxCapacity < 2 ^ 64

section

variable {env : BufferEnv} {b b' : DynamicBuffer} {data : List UInt8}

theorem add64_lt (x y : Nat) : add64 x y < 2 ^ 64 := by
  rw [add64]
  exact Nat.mod_lt _ (by decide)

theorem sub64_lt (x y : Nat) : sub64 x y < 2 ^ 64 := by
  rw [sub64]
  exact Nat.mod_lt _ (by decide)

theorem new_sizeT (env : BufferEnv) {maxCapacity initCapacity : Nat}
    (hinit : initCapacity ≤ maxCapacity) (hmax : maxCapacity < 2 ^ 64) :
    SizeT (new env maxCapacity initCapacity) :=
  have hzero : 0 < 2 ^ 64 := by decide
  ⟨hzero, hzero, Nat.lt_of_le_of_lt hinit hmax, hmax⟩

theorem SizeT.copyIn (h : SizeT b) (data : List UInt8) : SizeT (b.copyIn data) := by
  refine ⟨?_, ?_, ?_, ?_⟩
  · rw [copyIn_readIndex]; exact h.read_lt
  · rw [copyIn_writeIndex]; exact add64_lt ..
  · rw [copyIn_capacity]; exact h.capacity_lt
  · rw [copyIn_maxCapacity]; exact h.max_lt

theorem SizeT.moveForward (h : SizeT b) : SizeT b.moveForward := by
  refine ⟨?_, ?_, ?_, ?_⟩
  · rw [moveForward_readIndex]; decide
  · rw [moveForward_writeIndex]; exact sub64_lt ..
  · rw [moveForward_capacity]; exact add64_lt ..
  · rw [moveForward_maxCapacity]; exact h.max_lt

theorem SizeT.expandCapacity (h : SizeT b) (env : BufferEnv) : SizeT (b.expandCapacity env) := by
  refine ⟨?_, ?_, ?_, ?_⟩
  · rw [expandCapacity_readIndex]; exact h.read_lt
  · rw [expandCapacity_writeIndex]; exact h.write_lt
  · rw [expandCapacity_capacity]
    split
    · exact h.max_lt
    · exact Nat.mod_lt _ (by decide)
  · rw [expandCapacity_maxCapacity]; exact h.max_lt

theorem SizeT.append (h : SizeT b) (env : BufferEnv) (data : List UInt8) (ec : CodeVal) :
    SizeT (b.append env data ec).1 := by
  unfold DynamicBuffer.append
  split
  · split
    · exact h
    · dsimp only
      split
      · exact (h.moveForward.expandCapacity env).copyIn data
      · exact h.moveForward.copyIn data
  · exact h.copyIn data

theorem SizeT.consume (h : SizeT b) (n : Nat) (ec : CodeVal) : SizeT (b.consume n ec).1 := by
  unfold DynamicBuffer.consume
  split
  · exact h
  · exact ⟨add64_lt .., h.write_lt, h.capacity_lt, h.max_lt⟩

theorem SizeT.step (h : SizeT b) {op : BufferOp} (hstep : b.step env op = some b') : SizeT b' := by
  cases op with
  | append data =>
    cases hstep
    exact h.append env data .success
  | consume n =>
    cases hstep
    exact h.consume n .success

/-- With its prefix counted, the buffer promises all that the limit leaves. -/
theorem SizeT.maxWritableBytes_of_ge (h : SizeT b) (hth : env.moveForwardThreshold ≤ b.readIndex)
    (hfit : b.readableBytes ≤ b.maxCapacity) :
    b.maxWritableBytes env = b.maxCapacity - b.readableBytes := by
  obtain ⟨hr, hw, hc, hm⟩ := h
  rw [maxWritableBytes_eq env b (p := b.readIndex) (by rw [if_pos hth])]
  unfold readableBytes sub64 at hfit
  unfold readableBytes add64 sub64
  omega

/-- Without, it counts from the write index. -/
theorem SizeT.maxWritableBytes_of_lt (h : SizeT b) (hth : b.readIndex < env.moveForwardThreshold) :
    b.maxWritableBytes env = sub64 b.maxCapacity b.writeIndex := by
  obtain ⟨hr, hw, hc, hm⟩ := h
  rw [maxWritableBytes_eq env b (p := 0) (by rw [if_neg (by omega)])]
  unfold add64 sub64
  omega

theorem hasRoom_iff_of_fits (h : SizeT b) {n : Nat} (hfit : b.readableBytes + n ≤ b.maxCapacity) :
    b.hasRoom env n = true ↔ ¬ (b.readIndex < env.moveForwardThreshold ∧
      b.writeIndex ≤ b.maxCapacity ∧ b.maxCapacity < b.writeIndex + n ∧ b.writableBytes < n) := by
  unfold hasRoom
  simp only [Bool.or_eq_true, decide_eq_true_eq]
  by_cases hth : b.readIndex < env.moveForwardThreshold
  · rw [h.maxWritableBytes_of_lt hth]
    have hw := h.write_lt
    have hm := h.max_lt
    -- a write index past `max_capacity_` wraps, and then everything that fits is promised
    have hroom : n ≤ sub64 b.maxCapacity b.writeIndex ↔
        ¬ (b.writeIndex ≤ b.maxCapacity ∧ b.maxCapacity < b.writeIndex + n) := by
      unfold sub64
      omega
    rw [hroom]
    omega
  · rw [h.maxWritableBytes_of_ge (by omega) (by omega)]
    omega

/-- **One append**: what fits is refused exactly when a short prefix is needed for it. -/
theorem acceptsWhatFits_iff (h : SizeT b) (op : BufferOp) :
    AcceptsWhatFits env b op ↔ b.needsShortPrefix env op = false := by
  cases op with
  | consume n => exact ⟨fun _ => rfl, fun _ => trivial⟩
  | append data =>
    by_cases hfit : b.readableBytes + data.length ≤ b.maxCapacity
    · have hroom : b.hasRoom env data.length = true ↔ _ := hasRoom_iff_of_fits h hfit
      rw [AcceptsWhatFits, append_ec, needsShortPrefix, decide_eq_true hfit, Bool.true_and,
        ← Bool.not_eq_true]
      simp only [Bool.and_eq_true, decide_eq_true_eq, and_assoc]
      rw [← hroom]
      cases b.hasRoom env data.length with
      | true => simp
      | false => simp [hfit]
    · rw [needsShortPrefix, decide_eq_false hfit]
      simp only [Bool.false_and, AcceptsWhatFits]
      exact ⟨fun _ => trivial, fun _ h => absurd h hfit⟩

end

/-- **Every append of a run accepts what fits exactly when none needs a short prefix.** -/
theorem run_acceptsWhatFits_iff (env : BufferEnv) (maxCapacity initCapacity : Nat)
    (hinit : initCapacity ≤ maxCapacity) (hmax : maxCapacity < 2 ^ 64) (ops : List BufferOp) :
    Transition.Guarded (step env) (AcceptsWhatFits env) (new env maxCapacity initCapacity) ops ↔
      Transition.Guarded (step env) (fun b op => b.needsShortPrefix env op = false)
        (new env maxCapacity initCapacity) ops := by
  have hany : Transition.Guarded (step env) (fun _ _ => True) (new env maxCapacity initCapacity) ops :=
    Transition.guarded_of_mem ops _ fun _ _ _ => trivial
  exact Transition.Guarded.congr (P := SizeT) (fun b op b' h _ hstep => h.step hstep)
    (fun b op b' h _ _ => acceptsWhatFits_iff h op) ops (new_sizeT env hinit hmax) hany

/-- With a threshold of two bytes, the buffer of four is refilled after two have been consumed. -/
theorem run_acceptsWhatFits_iff_refilled :
    Transition.Guarded (step ⟨2, fun _ => 0⟩) (AcceptsWhatFits ⟨2, fun _ => 0⟩)
      (new ⟨2, fun _ => 0⟩ 4 4) [.append [1, 2, 3, 4], .consume 2, .append [5, 6]] := by
  refine (run_acceptsWhatFits_iff ⟨2, fun _ => 0⟩ 4 4 (by decide) (by decide) _).2 ?_
  decide +kernel

/-- **A drained buffer refuses**: four bytes in, four bytes out, and not one more fits. -/
theorem drained_buffer_refuses :
    ¬ Transition.Guarded (step defaultEnv) (AcceptsWhatFits defaultEnv) (new defaultEnv 4 4)
      [.append [1, 2, 3, 4], .consume 4, .append [5]] := by
  decide +kernel

end DynamicBuffer

end SmartRoutine
