import SmartRoutine.DynamicBuffer
import SmartRoutine.Lib.Transition

/-!
# When the dynamic buffer stays inside its block

* `run_inBlock_iff` — a run of `append` and `consume` calls keeps every access inside the block
  and `capacity_` equal to its size **exactly** when no `append` is accepted for which the writable
  section is too short (`fits`).
* `append_after_full` — the smallest run that leaves the block.

`move_forward` adds the prependable bytes to `capacity_` although the block keeps its size, and
the test that follows it never lets `expand_capacity` run.
-/

set_option autoImplicit false

namespace SmartRoutine

/-- Every byte of the range is a byte of the block. -/
def Access.InBlock (a : Access) : Prop := ∀ i, i < a.len → a.off + i < a.block

namespace DynamicBuffer

structure InBlock (b : DynamicBuffer) : Prop where
  read_le : b.readIndex ≤ b.writeIndex
  write_le : b.writeIndex ≤ b.capacity
  block : b.capacity = b.block
  accesses : ∀ a ∈ b.accesses, a.InBlock

/-- Not an `append` that the writable section is too short for and that is accepted anyway. -/
def fits (env : BufferEnv) (b : DynamicBuffer) : BufferOp → Bool
  | .append data => data.length ≤ b.writableBytes || b.maxWritableBytes env < data.length
  | .consume _ => true

section

variable {env : BufferEnv} {b b' : DynamicBuffer} {data : List UInt8} {ec : CodeVal}

theorem new_inBlock (env : BufferEnv) (maxCapacity initCapacity : Nat) :
    InBlock (new env maxCapacity initCapacity) :=
  ⟨Nat.le_refl _, Nat.zero_le _, rfl, by simp [new]⟩

theorem copyIn_accesses (b : DynamicBuffer) (data : List UInt8) :
    (b.copyIn data).accesses = b.accesses ++ [⟨b.writeIndex, data.length, b.block⟩] := by
  simp only [copyIn, touch]

theorem InBlock.concat_accesses (h : InBlock b) {a : Access} (ha : a.InBlock) :
    ∀ a' ∈ b.accesses ++ [a], a'.InBlock := by
  intro a' ha'
  rcases List.mem_append.1 ha' with hm | hm
  · exact h.accesses a' hm
  · exact List.mem_singleton.1 hm ▸ ha

theorem InBlock.writableBytes (h : InBlock b) (hmax : b.capacity < 2 ^ 64) :
    b.writableBytes = b.capacity - b.writeIndex := sub64_of_le hmax h.write_le

/-- The fast path of `append`. -/
theorem copyIn_inBlock (h : InBlock b) (hmax : b.capacity < 2 ^ 64)
    (hfit : data.length ≤ b.writableBytes) : InBlock (b.copyIn data) := by
  have hw := h.write_le
  have hb := h.block
  rw [h.writableBytes hmax] at hfit
  have hadd : add64 b.writeIndex data.length = b.writeIndex + data.length := add64_of_lt (by omega)
  refine ⟨?_, ?_, ?_, ?_⟩
  · have := h.read_le
    rw [copyIn_readIndex, copyIn_writeIndex, hadd]; omega
  · rw [copyIn_writeIndex, copyIn_capacity, hadd]; omega
  · rw [copyIn_capacity, copyIn_block, hb]
  · rw [copyIn_accesses]
    refine h.concat_accesses fun i hi => ?_
    simp only at hi ⊢
    omega

/-- **The slow path of `append` always leaves the block**: either `capacity_` no longer is its
size, or, with nothing to reclaim, the copy overruns it. -/
theorem slowPath_not_inBlock (h : InBlock b) (hcap : b.capacity ≤ b.maxCapacity)
    (hmax : b.maxCapacity < 2 ^ 64) (hfull : b.writableBytes < data.length) :
    ¬ InBlock (b.moveForward.copyIn data) := by
  intro h'
  have hr := h.read_le
  have hw := h.write_le
  have hb := h'.block
  rw [copyIn_capacity, copyIn_block, moveForward_capacity, moveForward_block, ← h.block] at hb
  have hzero : b.readIndex = 0 := by
    simp only [add64] at hb
    omega
  rw [h.writableBytes (by omega)] at hfull
  have hacc := h'.accesses ⟨b.moveForward.writeIndex, data.length, b.moveForward.block⟩
    (by rw [copyIn_accesses]; simp) (b.capacity - b.writeIndex) hfull
  rw [moveForward_writeIndex, moveForward_block, ← h.block, hzero, sub64_of_le (by omega) (Nat.zero_le _)]
    at hacc
  simp only at hacc
  omega

theorem append_inBlock_iff (h : InBlock b) (hcap : b.capacity ≤ b.maxCapacity)
    (hmax : b.maxCapacity < 2 ^ 64) :
    InBlock (b.append env data ec).1 ↔ b.fits env (.append data) = true := by
  simp only [fits, Bool.or_eq_true, decide_eq_true_eq]
  unfold append
  split
  · rename_i hfull
    split
    · rename_i hrefused
      exact ⟨fun _ => Or.inr hrefused, fun _ => h⟩
    · rename_i hroom
      have hgrow := maxWritableBytes_moveForward env h.read_le h.write_le hcap hmax
      dsimp only
      rw [if_neg (by omega)]
      refine ⟨fun h' => absurd h' (slowPath_not_inBlock h hcap hmax hfull), fun hfits => ?_⟩
      omega
  · rename_i hfit
    exact ⟨fun _ => Or.inl (by omega), fun _ => copyIn_inBlock h (by omega) (by omega)⟩

theorem consume_inBlock (h : InBlock b) (hmax : b.capacity < 2 ^ 64) (n : Nat) :
    InBlock (b.consume n ec).1 := by
  have hr := h.read_le
  have hw := h.write_le
  have hb := h.block
  unfold consume
  split
  · exact h
  · rename_i hn
    rw [readableBytes, sub64_of_le (by omega) hr] at hn
    have hadd : add64 b.readIndex n = b.readIndex + n := add64_of_lt (by omega)
    refine ⟨?_, hw, hb, h.concat_accesses fun i hi => ?_⟩
    · show add64 b.readIndex n ≤ b.writeIndex
      rw [hadd]; omega
    · simp only at hi ⊢
      omega

/-- Calls that fit leave the capacities as they are. -/
theorem step_capacity {op : BufferOp} (hfits : b.fits env op = true) (hstep : b.step env op = some b') :
    b'.capacity = b.capacity ∧ b'.maxCapacity = b.maxCapacity := by
  cases op with
  | append data =>
    cases hstep
    simp only [fits, Bool.or_eq_true, decide_eq_true_eq] at hfits
    unfold append
    split
    · rw [if_pos (by omega)]; exact ⟨rfl, rfl⟩
    · exact ⟨copyIn_capacity b data, copyIn_maxCapacity b data⟩
  | consume n =>
    cases hstep
    unfold consume
    split <;> exact ⟨rfl, rfl⟩

theorem step_inBlock_iff {op : BufferOp} (h : InBlock b) (hcap : b.capacity ≤ b.maxCapacity)
    (hmax : b.maxCapacity < 2 ^ 64) (hstep : b.step env op = some b') :
    InBlock b' ↔ b.fits env op = true := by
  cases op with
  | append data => cases hstep; exact append_inBlock_iff h hcap hmax
  | consume n =>
    cases hstep
    exact ⟨fun _ => rfl, fun _ => consume_inBlock h (by omega) n⟩

end

/-- **A run stays inside the block exactly when each of its appends finds its bytes writable or is
refused.** -/
theorem run_inBlock_iff (env : BufferEnv) (maxCapacity initCapacity : Nat)
    (hinit : initCapacity ≤ maxCapacity) (hmax : maxCapacity < 2 ^ 64) (ops : List BufferOp) :
    Transition.Always (step env) InBlock (new env maxCapacity initCapacity) ops ↔
      Transition.Guarded (step env) (fun b op => b.fits env op) (new env maxCapacity initCapacity) ops := by
  refine Transition.always_iff_guarded
    (J := fun b => b.capacity ≤ b.maxCapacity ∧ b.maxCapacity < 2 ^ 64) ?_ ?_ ops _ ⟨hinit, hmax⟩
    (new_inBlock env maxCapacity initCapacity)
  · intro b op b' ⟨hc, hm⟩ hb hstep hb'
    obtain ⟨hc', hm'⟩ := step_capacity ((step_inBlock_iff hb hc hm hstep).1 hb') hstep
    exact ⟨by rw [hc', hm']; exact hc, by rw [hm']; exact hm⟩
  · intro b op b' ⟨hc, hm⟩ hb hstep
    exact step_inBlock_iff hb hc hm hstep

/-- A buffer of eight bytes is filled, half drained, and refuses what it has no room for. -/
theorem run_inBlock_iff_drained :
    Transition.Always (step defaultEnv) InBlock (new defaultEnv 8 8)
      [.append [1, 2, 3, 4, 5, 6, 7, 8], .consume 4, .append [9], .consume 4] := by
  refine (run_inBlock_iff defaultEnv 8 8 (by decide) (by decide) _).2 ?_
  decide +kernel

/-- **Two bytes into a block of one** that may grow to two are accepted and copied past its end. -/
theorem append_after_full :
    ¬ Transition.Always (step defaultEnv) InBlock (new defaultEnv 2 1) [.append [0, 0]] := by
  intro h
  have hb := (Transition.always_iff_prefix.1 h [.append [0, 0]] [] _ rfl rfl).accesses ⟨0, 2, 1⟩
    (by decide +kernel)
  exact absurd (hb 1 (by decide)) (by decide)

end DynamicBuffer

end SmartRoutine
