import SmartRoutine.DynamicBuffer
import SmartRoutine.Lib.Transition

/-!
# The dynamic buffer is a byte FIFO

* `BufferHistory` — the buffer, with every byte its successful calls took in and gave out.
* `step_fifo` — one call keeps `Fifo`: what was delivered, followed by the readable section, is what
  was appended.
* `run_fifo` — the same for every run, and a call that reports `ExceedBufferBound` leaves the buffer
  as it was.

The only bound is on what has been appended: a call that would break it has not been made, or was
refused.
-/

set_option autoImplicit false

namespace SmartRoutine

structure BufferHistory where
  buffer : DynamicBuffer
  /-- The bytes of the successful appends. -/
  appended : List UInt8
  /-- The bytes the successful consumes copied out. -/
  delivered : List UInt8

namespace BufferHistory

open DynamicBuffer

def start (env : BufferEnv) (maxCapacity initCapacity : Nat) : BufferHistory :=
  ⟨new env maxCapacity initCapacity, [], []⟩

/-- An `append` that left `r`. -/
def tookIn (s : BufferHistory) (data : List UInt8) (r : DynamicBuffer × CodeVal) : BufferHistory :=
  ⟨r.1, if r.2.fail then s.appended else s.appended ++ data, s.delivered⟩

/-- A `consume` that left `r`. -/
def gaveOut (s : BufferHistory) (r : DynamicBuffer × CodeVal × List UInt8) : BufferHistory :=
  ⟨r.1, s.appended, if r.2.1.fail then s.delivered else s.delivered ++ r.2.2⟩

def step (env : BufferEnv) (s : BufferHistory) : BufferOp → Option BufferHistory
  | .append data => some (s.tookIn data (s.buffer.append env data .success))
  | .consume dataLength => some (s.gaveOut (s.buffer.consume dataLength .success))

/-- First in, first out, for a buffer made with capacity `i`. -/
structure Fifo (i : Nat) (s : BufferHistory) : Prop where
  inRange : InRange s.buffer i s.appended.length
  order : s.delivered ++ s.buffer.contents = s.appended

section

variable {env : BufferEnv} {s s' : BufferHistory} {op : BufferOp} {i : Nat}

theorem new_contents (env : BufferEnv) (maxCapacity initCapacity : Nat) :
    (new env maxCapacity initCapacity).contents = [] := by
  have hread : (new env maxCapacity initCapacity).readableBytes = 0 := by
    unfold readableBytes new
    rw [sub64_of_le (Nat.two_pow_pos _) (Nat.le_refl _)]
  unfold contents readBuffer
  rw [hread, Memory.slice_zero]

theorem start_fifo (env : BufferEnv) {maxCapacity : Nat} (hmax : maxCapacity < 2 ^ 64) (i : Nat) :
    Fifo i (start env maxCapacity i) := by
  refine ⟨new_inRange env hmax i, ?_⟩
  unfold start
  rw [new_contents, List.append_nil]

@[simp] theorem tookIn_refused (s : BufferHistory) (data : List UInt8) :
    s.tookIn data (s.buffer, .exceedBufferBound) = s := rfl

@[simp] theorem tookIn_success (s : BufferHistory) (data : List UInt8) (b : DynamicBuffer) :
    s.tookIn data (b, .success) = ⟨b, s.appended ++ data, s.delivered⟩ := rfl

@[simp] theorem gaveOut_appended (s : BufferHistory) (r : DynamicBuffer × CodeVal × List UInt8) :
    (s.gaveOut r).appended = s.appended := rfl

@[simp] theorem gaveOut_refused (s : BufferHistory) :
    s.gaveOut (s.buffer, .exceedBufferBound, []) = s := rfl

@[simp] theorem gaveOut_success (s : BufferHistory) (b : DynamicBuffer) (out : List UInt8) :
    s.gaveOut (b, .success, out) = ⟨b, s.appended, s.delivered ++ out⟩ := rfl

/-- A call either refuses and touches nothing, or leaves `ec` alone. -/
theorem append_report (env : BufferEnv) (b : DynamicBuffer) (data : List UInt8) (ec : CodeVal) :
    b.append env data ec = (b, .exceedBufferBound) ∨ ∃ b', b.append env data ec = (b', ec) := by
  unfold append
  split
  · split
    · exact Or.inl rfl
    · exact Or.inr ⟨_, rfl⟩
  · exact Or.inr ⟨_, rfl⟩

theorem consume_report (b : DynamicBuffer) (n : Nat) (ec : CodeVal) :
    b.consume n ec = (b, .exceedBufferBound, []) ∨ ∃ b' out, b.consume n ec = (b', ec, out) := by
  unfold consume
  split
  · exact Or.inl rfl
  · exact Or.inr ⟨_, _, rfl⟩

/-- **A call that reports `ExceedBufferBound` leaves the buffer as it was.** -/
theorem append_of_exceeds {b : DynamicBuffer} {data : List UInt8}
    (h : (b.append env data .success).2 = .exceedBufferBound) :
    (b.append env data .success).1 = b := by
  obtain hsame | ⟨b', hec⟩ := append_report env b data .success
  · rw [hsame]
  · rw [hec] at h
    cases h

theorem consume_of_exceeds {b : DynamicBuffer} {n : Nat}
    (h : (b.consume n .success).2.1 = .exceedBufferBound) :
    (b.consume n .success).1 = b ∧ (b.consume n .success).2.2 = [] := by
  obtain hsame | ⟨b', out, hec⟩ := consume_report b n .success
  · rw [hsame]
    exact ⟨rfl, rfl⟩
  · rw [hec] at h
    cases h

/-- Nothing that was appended is ever taken back. -/
theorem step_appended_le (hstep : step env s op = some s') :
    s.appended.length ≤ s'.appended.length := by
  cases op with
  | append data =>
    simp only [step, Option.some.injEq] at hstep
    obtain hsame | ⟨b', hec⟩ := append_report env s.buffer data .success
    · rw [hsame, tookIn_refused] at hstep
      rw [hstep]
    · rw [hec, tookIn_success] at hstep
      rw [← hstep, List.length_append]
      omega
  | consume n =>
    simp only [step, Option.some.injEq] at hstep
    rw [← hstep, gaveOut_appended]

/-- One call, as long as what it brings the total to can be counted. -/
theorem step_fifo (hi : i < 2 ^ 63) (hs : Fifo i s) (hstep : step env s op = some s')
    (ha : s'.appended.length < 2 ^ 63) : Fifo i s' := by
  have hle := step_appended_le hstep
  obtain ⟨hrange, horder⟩ := id hs
  cases op with
  | append data =>
    simp only [step, Option.some.injEq] at hstep
    obtain hsame | ⟨b', hec⟩ := append_report env s.buffer data .success
    · rw [hsame, tookIn_refused] at hstep
      exact hstep ▸ hs
    · rw [hec, tookIn_success] at hstep
      rw [← hstep, List.length_append] at ha
      obtain hsame | ⟨hrange', -, hcont⟩ := append_contents env .success hrange hi ha
      · rw [hsame] at hec
        cases hec
      · rw [hec] at hrange' hcont
        rw [← hstep]
        refine ⟨?_, ?_⟩
        · rw [List.length_append]
          exact hrange'
        · rw [hcont, ← List.append_assoc, horder]
  | consume n =>
    simp only [step, Option.some.injEq] at hstep
    obtain hsame | ⟨b', out, hec⟩ := consume_report s.buffer n .success
    · rw [hsame, gaveOut_refused] at hstep
      exact hstep ▸ hs
    · rw [hec, gaveOut_success] at hstep
      rw [← hstep] at hle ha
      obtain ⟨hsame, -⟩ | ⟨hrange', hout, -, hcont⟩ :=
        consume_contents .success hrange ha n
      · rw [hsame] at hec
        cases hec
      · rw [hec] at hrange' hout hcont
        obtain ⟨-, rfl⟩ := Prod.mk.inj hout
        rw [← hstep]
        refine ⟨hrange', ?_⟩
        rw [hcont, List.append_assoc, List.take_append_drop, horder]

end

/-- **First in, first out**, and a call that reports `ExceedBufferBound` has changed nothing. -/
theorem run_fifo (env : BufferEnv) (maxCapacity initCapacity : Nat) (hmax : maxCapacity < 2 ^ 64)
    (hinit : initCapacity < 2 ^ 63) (ops : List BufferOp) (s : BufferHistory)
    (hrun : Transition.exec (step env) (start env maxCapacity initCapacity) ops = some s)
    (htotal : s.appended.length < 2 ^ 63) :
    s.delivered ++ s.buffer.contents = s.appended ∧
      (∀ data, (s.buffer.append env data .success).2 = .exceedBufferBound →
        (s.buffer.append env data .success).1 = s.buffer) ∧
      ∀ n, (s.buffer.consume n .success).2.1 = .exceedBufferBound →
        (s.buffer.consume n .success).1 = s.buffer ∧ (s.buffer.consume n .success).2.2 = [] := by
  have hfifo := Transition.exec_invariant
    (P := fun s => s.appended.length < 2 ^ 63 → Fifo initCapacity s) ?_ ops
    (fun _ => start_fifo env hmax initCapacity) hrun htotal
  · exact ⟨hfifo.order, fun _ => append_of_exceeds, fun _ => consume_of_exceeds⟩
  · intro s op s' hs hstep ha
    have hle := step_appended_le hstep
    exact step_fifo hinit (hs (by omega)) hstep ha

/-- Three bytes go in, one comes out, two more are refused, one comes out. -/
theorem run_fifo_drained :
    ∃ s, Transition.exec (step defaultEnv) (start defaultEnv 4 4)
        [.append [1, 2, 3], .consume 1, .append [4, 5], .consume 1] = some s ∧
      s.delivered ++ s.buffer.contents = s.appended ∧ s.delivered = [1, 2] := by
  refine ⟨_, rfl, (run_fifo defaultEnv 4 4 (by decide) (by decide)
    [.append [1, 2, 3], .consume 1, .append [4, 5], .consume 1] _ rfl ?_).1, ?_⟩
  · decide +kernel
  · decide +kernel

end BufferHistory

end SmartRoutine
