import Mathlib.Algebra.Ring.Int.Defs
import Mathlib.Algebra.Ring.Nat
import SmartRoutine.IoCall

/-!
# The branches of the transferring handlers

`smart_read_impl` and `smart_write_impl` test the sign of a result that they keep in an `int`.

* `Branch` — what a branch leaves in `ret_`, and whether it resumes.
* `smartRead_branches`, `smartWrite_branches` — every dispatch of the two handlers is one of them;
  they differ in the result of 0.
-/

set_option autoImplicit false

namespace SmartRoutine

theorem toInt_of_lt {x : Int} (h : -1 ≤ x) (hx : x ≤ 2 ^ 31 - 1) : toInt x = x := by
  unfold toInt
  apply Int.bmod_eq_of_le <;> omega

theorem toInt_of_neg {x : Int} (h : -1 ≤ x) (hneg : x < 0) : toInt x = x :=
  toInt_of_lt h (by omega)

/-- What is left of a result in an `int`, if it is positive there. -/
theorem toInt_le {x : Int} (h : -1 ≤ x) (hpos : 0 < toInt x) : toInt x ≤ x := by
  unfold toInt at hpos ⊢
  rw [Int.bmod_def] at hpos ⊢
  split at hpos <;> omega

theorem receive_ret (ctx : ReadContext) (r : ReadResult) : (ctx.receive r).ret = ctx.ret := by
  unfold ReadContext.receive
  split <;> rfl

theorem receive_count (ctx : ReadContext) (r : ReadResult) : (ctx.receive r).count = ctx.count := by
  unfold ReadContext.receive
  split <;> rfl

/-- What a handler leaves in `ret_`, and whether it resumes, given the `int` it tests; `zero` says
whether a result of 0 resumes. -/
inductive Branch (zero : Bool) (result errno : Int) (count ret : Nat) : Nat → Bool → Prop
  | moved (h : 0 < result) :
    Branch zero result errno count ret (add64 ret result.toNat)
      (decide (add64 ret result.toNat = count))
  | failed (h : result < 0) (he : errno ≠ EWOULDBLOCK) :
    Branch zero result errno count ret (2 ^ 64 - 1) true
  | again (h : result < 0) (he : errno = EWOULDBLOCK) : Branch zero result errno count ret ret false
  | zero (h : result = 0) : Branch zero result errno count ret ret zero

theorem smartReadImpl_branch (ctx : ReadContext) (r : ReadResult) :
    Branch true (toInt r.value) r.errno ctx.count ctx.ret (smartReadImpl ctx r).1.ret
      (smartReadImpl ctx r).2 := by
  unfold smartReadImpl
  dsimp only
  split
  · rename_i hpos
    rw [receive_ret, receive_count]
    exact .moved hpos
  · split
    · rename_i hfailed
      exact .failed hfailed.1 hfailed.2
    · rename_i hpos hfailed
      rw [receive_ret]
      by_cases hzero : toInt r.value = 0
      · rw [decide_eq_true hzero]
        exact .zero hzero
      · rw [decide_eq_false hzero]
        exact .again (by omega) (by_contra fun he => hfailed ⟨by omega, he⟩)

theorem smartWriteImpl_branch (ctx : WriteContext) (r : CallResult) :
    Branch false (toInt r.value) r.errno ctx.count ctx.ret (smartWriteImpl ctx r).1.ret
      (smartWriteImpl ctx r).2 := by
  unfold smartWriteImpl
  dsimp only
  split
  · rename_i hpos
    exact .moved hpos
  · split
    · rename_i hfailed
      exact .failed hfailed.1 hfailed.2
    · rename_i hpos hfailed
      by_cases hzero : toInt r.value = 0
      · exact .zero hzero
      · exact .again (by omega) (by_contra fun he => hfailed ⟨by omega, he⟩)

theorem smartReadImpl_count (ctx : ReadContext) (r : ReadResult) :
    (smartReadImpl ctx r).1.count = ctx.count := by
  unfold smartReadImpl
  dsimp only
  split
  · exact receive_count ctx r
  · split <;> exact receive_count ctx r

theorem smartWriteImpl_count (ctx : WriteContext) (r : CallResult) :
    (smartWriteImpl ctx r).1.count = ctx.count := by
  unfold smartWriteImpl
  dsimp only
  split
  · rfl
  · split <;> rfl

/-- Every dispatch of the handler is one of its branches. -/
structure Branches {σ ρ : Type} (op : IoOp σ ρ) (zero : Bool) (count ret : σ → Nat)
    (value errno : ρ → Int) : Prop where
  handler : ∀ ctx r, ∃ ctx' b, op.handler ctx r = some (ctx', b) ∧ count ctx' = count ctx ∧
    Branch zero (toInt (value r)) (errno r) (count ctx) (ret ctx) (ret ctx') b
  value : ∀ r, -1 ≤ value r

theorem smartRead_branches : Branches smartRead true ReadContext.count ReadContext.ret
    ReadResult.value ReadResult.errno where
  handler := fun ctx r => ⟨(smartReadImpl ctx r).1, (smartReadImpl ctx r).2, rfl,
    smartReadImpl_count ctx r, smartReadImpl_branch ctx r⟩
  value := ReadResult.neg_one_le

theorem smartWrite_branches : Branches smartWrite false WriteContext.count WriteContext.ret
    CallResult.value CallResult.errno where
  handler := fun ctx r => ⟨(smartWriteImpl ctx r).1, (smartWriteImpl ctx r).2, rfl,
    smartWriteImpl_count ctx r, smartWriteImpl_branch ctx r⟩
  value := CallResult.neg_one_le

/-! ## What follows from a branch -/

/-- A transfer of what was asked for, counted on `size_t`. -/
theorem add64_moved {ret count : Nat} {value : Int} (hle : ret ≤ count) (hcount : count < 2 ^ 64)
    (hvalue : value ≤ sub64 count ret) :
    add64 ret value.toNat = ret + value.toNat ∧ ret + value.toNat ≤ count := by
  rw [sub64_of_le hcount hle] at hvalue
  exact ⟨add64_of_lt (by omega), by omega⟩

namespace Branch

variable {zero : Bool} {value errno : Int} {count ret ret' : Nat} {resumed : Bool}

/-- A call that has not failed has counted what its system call moved. -/
theorem ret_eq (h : Branch zero value errno count ret ret' resumed)
    (hok : ¬ (value < 0 ∧ errno ≠ EWOULDBLOCK))
    (hadd : add64 ret value.toNat = ret + value.toNat) : ret' = ret + value.toNat := by
  cases h with
  | moved => exact hadd
  | failed hneg he => exact absurd ⟨hneg, he⟩ hok
  | again hneg => omega
  | zero h => omega

theorem of_neg (h : Branch zero value errno count ret ret' resumed) (hneg : value < 0) :
    ret' = (if resumed then 2 ^ 64 - 1 else ret) ∧ (resumed = true ↔ errno ≠ EWOULDBLOCK) := by
  cases h with
  | moved hpos => omega
  | failed _ he => exact ⟨rfl, iff_of_true rfl he⟩
  | again _ he => exact ⟨rfl, iff_of_false Bool.false_ne_true (not_not.2 he)⟩
  | zero h => omega

/-- A result of 0 leaves `ret_` as it is. -/
theorem of_zero (h : Branch zero 0 errno count ret ret' resumed) : ret' = ret ∧ resumed = zero := by
  cases h with
  | moved h => exact absurd h (by decide)
  | failed h => exact absurd h (by decide)
  | again h => exact absurd h (by decide)
  | zero => exact ⟨rfl, rfl⟩

/-- A call that stays parked has not passed the end. -/
theorem ret_le (h : Branch zero (toInt value) errno count ret ret' resumed) (hv : -1 ≤ value)
    (hle : ret ≤ count) (hcount : count < 2 ^ 64) (hmost : value ≤ sub64 count ret)
    (hparked : resumed = false) : ret' ≤ count := by
  rw [sub64_of_le hcount hle] at hmost
  cases h with
  | moved hpos =>
    have := toInt_le hv hpos
    rw [add64_of_lt (by omega)]
    omega
  | failed => cases hparked
  | again => exact hle
  | zero => exact hle

end Branch

end SmartRoutine
