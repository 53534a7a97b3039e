import SmartRoutine.StreamTransfer

/-!
# When a transfer is complete

* `Completes` — after a dispatch, a call with nothing left to do has been resumed.
* `Branch.settles_iff` — a dispatch does **exactly** that, unless it is the zero branch of
  `smart_write_impl`, which does not exist, with nothing left to write.
* `runs_complete_iff` — the same for every run; `empty_write_parked` is a write of no bytes.
-/

set_option autoImplicit false

namespace SmartRoutine

section

variable {zero : Bool} {value errno : Int} {count ret ret' : Nat} {resumed : Bool}

/-- Unless the descriptor was not ready, a call with nothing left to do has been resumed, and one
that is parked has something left. -/
def Settles (zero : Bool) (value errno : Int) (count ret' : Nat) (resumed : Bool) : Prop :=
  ¬ (value < 0 ∧ errno = EWOULDBLOCK) →
    ((ret' = count ∨ zero = true ∧ value = 0 ∨ value < 0 ∧ errno ≠ EWOULDBLOCK) → resumed = true) ∧
      (resumed = false → ret' < count)

theorem settles_of_resumed : Settles zero value errno count ret' true :=
  fun _ => ⟨fun _ => rfl, fun h => Bool.noConfusion h⟩

/-- Parked without an error, short of the end. -/
theorem settles_of_short (hzero : zero = true → value ≠ 0) (hok : 0 ≤ value) (hshort : ret' < count) :
    Settles zero value errno count ret' resumed := by
  refine fun _ => ⟨fun hdone => ?_, fun _ => hshort⟩
  rcases hdone with hdone | ⟨hz, h0⟩ | ⟨hneg, -⟩
  · omega
  · exact absurd h0 (hzero hz)
  · omega

/-- **One dispatch** resumes a call that has nothing left to do, exactly when a result of 0 resumes
or there is no such result with nothing left. -/
theorem Branch.settles_iff (h : Branch zero (toInt value) errno count ret ret' resumed)
    (hv : -1 ≤ value) (hle : ret ≤ count) (hcount : count < 2 ^ 64)
    (hmost : value ≤ sub64 count ret) :
    Settles zero value errno count ret' resumed ↔ zero = true ∨ ¬ (ret = count ∧ value = 0) := by
  have hret := h.ret_le hv hle hcount hmost
  have hint : value < 0 → toInt value = value := toInt_of_neg hv
  have hzero : toInt 0 = 0 := toInt_of_lt (by decide) (by decide)
  rw [sub64_of_le hcount hle] at hmost
  constructor
  · intro hsettles
    by_contra hnot
    obtain ⟨hz, hend, rfl⟩ : ¬ zero = true ∧ ret = count ∧ value = 0 := by
      rw [not_or, not_not] at hnot
      exact hnot
    rw [hzero] at h
    obtain ⟨hsame, hparked⟩ := h.of_zero
    have := (hsettles (by omega)).2 (hparked.trans (Bool.not_eq_true _ ▸ hz))
    omega
  · intro hcond
    cases h with
    | moved hpos =>
      have := toInt_le hv hpos
      by_cases hdone : add64 ret (toInt value).toNat = count
      · rw [decide_eq_true hdone]
        exact settles_of_resumed
      · have := hret (decide_eq_false hdone)
        exact settles_of_short (fun _ => by omega) (by omega) (by omega)
    | failed => exact settles_of_resumed
    | again hneg he =>
      intro hready
      -- so the result only looks negative in an `int`
      have hok : 0 ≤ value := by
        by_contra hlt
        exact hready ⟨by omega, he⟩
      have hne : value ≠ 0 := by
        rintro rfl
        omega
      exact settles_of_short (fun _ => hne) hok (by omega) hready
    | zero h0 =>
      cases hz : zero with
      | true => exact settles_of_resumed
      | false =>
        have hok : 0 ≤ value := by
          by_contra hlt
          have := hint (by omega)
          omega
        have hshort : ¬ (ret = count ∧ value = 0) := hcond.resolve_left (by rw [hz]; decide)
        exact settles_of_short (fun h => by cases h) hok (by omega)

end

/-! ## Runs -/

/-- After a dispatch whose system call did not fail with `EWOULDBLOCK`, the coroutine has been
resumed if nothing is left to transfer, at end of file, or after a failure; so if it is parked,
something is left. -/
def Completes {σ ρ : Type} (C : Channel σ ρ) (t : Transfer σ) (r : ρ) : Prop :=
  ∀ t', Transfer.step C t r = some t' → ¬ (C.value r < 0 ∧ C.errno r = EWOULDBLOCK) →
    ((C.ret t'.ctx = C.count t'.ctx ∨ C.eof r = true ∨ C.fails r = true) → t'.resumed = true) ∧
      (t'.resumed = false → C.ret t'.ctx < C.count t'.ctx)

instance Completes.decidable {σ ρ : Type} (C : Channel σ ρ) (t : Transfer σ) (r : ρ) :
    Decidable (Completes C t r) :=
  match h : Transfer.step C t r with
  | none => isTrue fun t' ht' => by rw [h] at ht'; cases ht'
  | some t' =>
    decidable_of_iff (¬ (C.value r < 0 ∧ C.errno r = EWOULDBLOCK) →
        ((C.ret t'.ctx = C.count t'.ctx ∨ C.eof r = true ∨ C.fails r = true) → t'.resumed = true) ∧
          (t'.resumed = false → C.ret t'.ctx < C.count t'.ctx))
      ⟨fun hdone t'' ht'' => by rw [h] at ht''; cases ht''; exact hdone, fun hdone => hdone t' h⟩

/-- A call for `n` bytes returns at most `n`. -/
def Channel.atMost {σ ρ : Type} (C : Channel σ ρ) (t : Transfer σ) (r : ρ) : Bool :=
  C.value r ≤ (C.request t.ctx).length

namespace Transfer

variable {σ ρ : Type} {C : Channel σ ρ} {zero : Bool} {t t' : Transfer σ} {r : ρ} {count : Nat}
  (hC : Branches C.op zero C.count C.ret C.value C.errno)
  (heof : ∀ r, C.eof r = true ↔ zero = true ∧ C.value r = 0)

/-- A parked call has not passed the end. -/
def Short (C : Channel σ ρ) (count : Nat) (t : Transfer σ) : Prop :=
  t.resumed = false → C.count t.ctx = count ∧ C.ret t.ctx ≤ count

include hC heof

/-- **One dispatch** of either handler. -/
theorem step_completes (hcount : count < 2 ^ 64) (h : Short C count t)
    (hmost : C.atMost t r = true) (hstep : step C t r = some t') :
    Short C count t' ∧
      (Completes C t r ↔ zero = true ∨ ¬ (C.ret t.ctx = C.count t.ctx ∧ C.value r = 0)) := by
  obtain ⟨ctx', b, hhandler, hsame, hbranch⟩ := hC.handler t.ctx r
  cases hres : t.resumed with
  | true =>
    rw [step_of_resumed hres] at hstep
    cases hstep
  | false =>
    obtain ⟨hc, hle⟩ := h hres
    have hnext := step_of_parked hres hhandler
    replace hmost : C.value r ≤ sub64 (C.count t.ctx) (C.ret t.ctx) := of_decide_eq_true hmost
    have hiff := hbranch.settles_iff (hC.value r) (by omega) (by omega) hmost
    have hshort := hbranch.ret_le (hC.value r) (by omega) (by omega) hmost
    rw [hnext] at hstep
    cases hstep
    refine ⟨fun hb => ⟨hsame.trans hc, ?_⟩, ?_⟩
    · rw [← hc]
      exact hshort hb
    · rw [← hiff, Settles, ← heof r, ← Channel.fails_iff, Completes, hnext]
      constructor
      · intro hdone
        have := hdone _ rfl
        rw [hsame] at this
        exact this
      · intro hdone t' ht'
        cases ht'
        dsimp only
        rw [hsame]
        exact hdone

theorem run_completes_iff (ctx : σ) (hret : C.ret ctx = 0)
    (hcount : C.count ctx < 2 ^ 64) (outcomes : List ρ)
    (hmost : Transition.Guarded (step C) (fun t r => C.atMost t r = true) (start ctx) outcomes) :
    Transition.Guarded (step C) (Completes C) (start ctx) outcomes ↔
      Transition.Guarded (step C)
        (fun t r => zero = true ∨ ¬ (C.ret t.ctx = C.count t.ctx ∧ C.value r = 0))
        (start ctx) outcomes := by
  have hstart : Short C (C.count ctx) (start ctx) := fun _ => ⟨rfl, hret ▸ Nat.zero_le _⟩
  exact Transition.Guarded.congr (P := Short C (C.count ctx))
    (fun _ _ _ h hm hstep => (step_completes hC heof hcount h hm hstep).1)
    (fun _ _ _ h hm hstep => (step_completes hC heof hcount h hm hstep).2) outcomes hstart hmost

end Transfer

theorem readChannel_eof (r : ReadResult) : readChannel.eof r = true ↔ true = true ∧ r.value = 0 :=
  decide_eq_true_iff.trans (and_iff_right rfl).symm

theorem writeChannel_eof (r : CallResult) : writeChannel.eof r = true ↔ false = true ∧ r.value = 0 :=
  ⟨fun h => Bool.noConfusion h, fun h => Bool.noConfusion h.1⟩

/-- **A completed transfer never stays parked** in any run of `smart_read`, and in a run of
`smart_write` exactly when no dispatch with nothing left to write has `write` return 0. -/
theorem runs_complete_iff (fd : Int) (buf : Nat → UInt8) (count : UInt64) :
    (∀ outcomes : List ReadResult,
      Transition.Guarded (Transfer.step readChannel) (fun t r => readChannel.atMost t r = true)
        (.start (.new fd buf count.toNat)) outcomes →
      Transition.Guarded (Transfer.step readChannel) (Completes readChannel)
        (.start (.new fd buf count.toNat)) outcomes) ∧
    ∀ outcomes : List CallResult,
      Transition.Guarded (Transfer.step writeChannel) (fun t r => writeChannel.atMost t r = true)
        (.start (.new fd buf count.toNat)) outcomes →
      (Transition.Guarded (Transfer.step writeChannel) (Completes writeChannel)
          (.start (.new fd buf count.toNat)) outcomes ↔
        Transition.Guarded (Transfer.step writeChannel)
          (fun t r => ¬ (t.ctx.ret = t.ctx.count ∧ r.value = 0))
          (.start (.new fd buf count.toNat)) outcomes) := by
  constructor
  · intro outcomes hmost
    refine (Transfer.run_completes_iff smartRead_branches readChannel_eof (.new fd buf count.toNat) rfl
      count.toNat_lt outcomes hmost).2 ?_
    exact Transition.guarded_of_mem outcomes _ fun _ _ _ => .inl rfl
  · intro outcomes hmost
    rw [Transfer.run_completes_iff smartWrite_branches writeChannel_eof (.new fd buf count.toNat) rfl
      count.toNat_lt outcomes hmost]
    simp only [Bool.false_eq_true, false_or]
    exact Iff.rfl

/-- A read that fills the buffer in two steps. -/
theorem runs_complete_iff_two :
    Transition.Guarded (Transfer.step readChannel) (Completes readChannel)
      (.start (.new 5 (fun _ => 0) 2)) [⟨some [1], 0⟩, ⟨some [2], 0⟩] := by
  refine (runs_complete_iff 5 (fun _ => 0) 2).1 [⟨some [1], 0⟩, ⟨some [2], 0⟩] ?_
  decide +kernel

/-- **A write of no bytes** is never resumed: `write` returns 0, and the coroutine stays parked with
nothing left to write. -/
theorem empty_write_parked :
    Transition.Guarded (Transfer.step writeChannel) (fun t r => writeChannel.atMost t r = true)
        (.start (.new 5 (fun _ => 0) 0)) [⟨some 0, 0⟩] ∧
      ¬ Transition.Guarded (Transfer.step writeChannel) (Completes writeChannel)
        (.start (.new 5 (fun _ => 0) 0)) [⟨some 0, 0⟩] := by
  decide +kernel

end SmartRoutine
