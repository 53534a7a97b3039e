import SmartRoutine.TransferBranches

/-!
# What a blocking call returns, and `errno` then

`smart_read`, `smart_write`, `smart_accept` and `smart_connect` as a coroutine calls them: the
handler runs on the epoller's thread until it resumes the coroutine, and the call reads its result
out of the context.

* `Transfers`, `await_transfers` — what the handlers of `smart_read` and `smart_write` leave in
  `ret_`.
* `returned_errno_iff` — exactly when a call that returns -1 leaves the error that made it fail in
  `errno`: always for `smart_accept` and `smart_connect`; for the other two only by coincidence,
  because `ret_ < 0` is never true of a `size_t`.
* `read_reset_errno` — a read that fails with `ECONNRESET` and returns with `errno` 0.
-/

set_option autoImplicit false

namespace SmartRoutine

def EINPROGRESS : Int := 115

/-- `read` and `write` transfer this many bytes at most. -/
def maxTransfer : Int := 0x7ffff000

/-- Conversion of a `size_t` to `ssize_t`. -/
def toSsize (n : Nat) : Int := (n : Int).bmod (2 ^ 64)

/-- `read` stores no more than it is asked for. -/
def ReadContext.allows (ctx : ReadContext) (r : ReadResult) : Bool :=
  r.value ≤ sub64 ctx.count ctx.ret ∧ r.value ≤ maxTransfer

def WriteContext.allows (ctx : WriteContext) (r : CallResult) : Bool :=
  r.value ≤ sub64 ctx.count ctx.ret ∧ r.value ≤ maxTransfer

/-- Dispatch the handler on these outcomes, of which the last makes it resume the coroutine. -/
def IoOp.await {σ ρ : Type} (op : IoOp σ ρ) (allows : σ → ρ → Bool) : σ → List ρ → Option σ
  | _, [] => none
  | ctx, r :: rs =>
    if allows ctx r then
      match op.handler ctx r with
      | some (ctx', true) => if rs.isEmpty then some ctx' else none
      | some (ctx', false) => await op allows ctx' rs
      | none => none
    else none

/-- A call's result, and `errno` when it returns. -/
structure Returned where
  value : Int
  errno : Int
  deriving DecidableEq, Repr

/-- `switch_to` puts `errno` back to what it was before the switch, whatever it is after. -/
def switchTo (saved _later : Int) : Int := saved

/-! ## The calls, with `tls_smart_thread` set -/

namespace Coroutine

section

variable (errno later : Int)

/-- With what `buf` holds then. -/
def smartRead (fd : Int) (buf : Nat → UInt8) (count : UInt64) (outcomes : List ReadResult) :
    Option (Returned × (Nat → UInt8)) :=
  (SmartRoutine.smartRead.await ReadContext.allows (.new fd buf count.toNat) outcomes).map fun ctx =>
    let errno := switchTo errno later
    (⟨toSsize ctx.ret, if ctx.ret < 0 then ctx.errno else errno⟩, ctx.buf)

def smartWrite (fd : Int) (buf : Nat → UInt8) (count : UInt64) (outcomes : List CallResult) :
    Option Returned :=
  (SmartRoutine.smartWrite.await WriteContext.allows (.new fd buf count.toNat) outcomes).map fun ctx =>
    let errno := switchTo errno later
    ⟨toSsize ctx.ret, if ctx.ret < 0 then ctx.errno else errno⟩

def smartAccept (sockfd : Int) (outcomes : List CallResult) : Option Returned :=
  (SmartRoutine.smartAccept.await (fun _ _ => true) (.new sockfd) outcomes).map fun ctx =>
    let errno := switchTo errno later
    if ctx.ret < 0 then ⟨-1, ctx.errno⟩ else ⟨ctx.ret, errno⟩

/-- `first` is the outcome of `connect` itself. -/
def smartConnect (sockfd : Int) (first : CallResult) (outcomes : List CallResult) :
    Option Returned :=
  if first.value < 0 ∧ first.errno = EINPROGRESS then
    (SmartRoutine.smartConnect.await (fun _ _ => true) (.new sockfd) outcomes).map fun ctx =>
      let errno := switchTo first.errno later
      if ctx.errno ≠ 0 then ⟨-1, ctx.errno⟩ else ⟨0, errno⟩
  else some ⟨first.value, first.errno⟩

end

end Coroutine

inductive BlockingCall where
  | read (fd : Int) (buf : Nat → UInt8) (count : UInt64) (outcomes : List ReadResult)
  | write (fd : Int) (buf : Nat → UInt8) (count : UInt64) (outcomes : List CallResult)
  | accept (sockfd : Int) (outcomes : List CallResult)
  | connect (sockfd : Int) (first : CallResult) (outcomes : List CallResult)

namespace BlockingCall

def returned (errno later : Int) : BlockingCall → Option Returned
  | read fd buf count outcomes =>
    (Coroutine.smartRead errno later fd buf count outcomes).map Prod.fst
  | write fd buf count outcomes => Coroutine.smartWrite errno later fd buf count outcomes
  | accept sockfd outcomes => Coroutine.smartAccept errno later sockfd outcomes
  | connect sockfd first outcomes => Coroutine.smartConnect later sockfd first outcomes

/-- The error of the system call, or the `SO_ERROR` value, that makes the call fail. -/
def cause : BlockingCall → Option Int
  | read _ _ _ outcomes => outcomes.getLast?.bind fun r => if r.value < 0 then some r.errno else none
  | write _ _ _ outcomes =>
    outcomes.getLast?.bind fun r => if r.value < 0 then some r.errno else none
  | accept _ outcomes => outcomes.getLast?.bind fun r => if r.value < 0 then some r.errno else none
  | connect _ first outcomes =>
    if first.value < 0 ∧ first.errno = EINPROGRESS then
      outcomes.getLast?.bind fun r =>
        match r.result with
        | none => some r.errno
        | some error => if error ≠ 0 then some error else none
    else if first.value < 0 then some first.errno else none

/-- The bytes a list of outcomes transfers. -/
def transferred {ρ : Type} (value : ρ → Int) (outcomes : List ρ) : Nat :=
  (outcomes.map fun r => (value r).toNat).sum

/-- `errno` is right by coincidence: it was so before the call, and no transfer looks like -1. -/
def coincides {ρ : Type} (value errnoOf : ρ → Int) (errno : Int) (outcomes : List ρ) : Bool :=
  match outcomes.getLast? with
  | some r => if value r < 0 then errnoOf r = errno else transferred value outcomes ≠ 2 ^ 64 - 1
  | none => true

def keepsErrno (errno : Int) : BlockingCall → Bool
  | read _ _ _ outcomes => coincides ReadResult.value ReadResult.errno errno outcomes
  | write _ _ _ outcomes => coincides CallResult.value CallResult.errno errno outcomes
  | accept _ _ => true
  | connect _ _ _ => true

end BlockingCall

/-! ## Transfers -/

/-- What one dispatch of a transferring handler does to `ret_`. -/
structure Transfers {σ ρ : Type} (op : IoOp σ ρ) (allows : σ → ρ → Bool) (count ret : σ → Nat)
    (value : ρ → Int) : Prop where
  count_eq : ∀ ctx r ctx' b, op.handler ctx r = some (ctx', b) → count ctx' = count ctx
  moved : ∀ ctx r ctx' b, allows ctx r = true → ret ctx ≤ count ctx → count ctx < 2 ^ 64 →
    0 ≤ value r → op.handler ctx r = some (ctx', b) →
    ret ctx' = ret ctx + (value r).toNat ∧ ret ctx' ≤ count ctx
  failed : ∀ ctx r ctx', value r < 0 → op.handler ctx r = some (ctx', true) → ret ctx' = 2 ^ 64 - 1
  retried : ∀ ctx r ctx', value r < 0 → op.handler ctx r = some (ctx', false) → ret ctx' = ret ctx

theorem toSsize_eq_neg_one {n : Nat} (hn : n < 2 ^ 64) : toSsize n = -1 ↔ n = 2 ^ 64 - 1 := by
  unfold toSsize
  rw [Int.bmod_def]
  split <;> omega

/-- The branches of a handler, for outcomes within what was asked for. -/
theorem Branches.transfers {σ ρ : Type} {op : IoOp σ ρ} {zero : Bool} {count ret : σ → Nat}
    {value errno : ρ → Int} {allows : σ → ρ → Bool} (h : Branches op zero count ret value errno)
    (hallows : ∀ ctx r, allows ctx r = true →
      value r ≤ sub64 (count ctx) (ret ctx) ∧ value r ≤ maxTransfer) :
    Transfers op allows count ret value := by
  refine ⟨?_, ?_, ?_, ?_⟩
  · intro ctx r ctx' b hhandler
    obtain ⟨ctx₁, b₁, hhandler₁, hsame, -⟩ := h.handler ctx r
    cases hhandler.symm.trans hhandler₁
    exact hsame
  · intro ctx r ctx' b ha hle hcount h0 hhandler
    obtain ⟨ctx₁, b₁, hhandler₁, -, hbranch⟩ := h.handler ctx r
    cases hhandler.symm.trans hhandler₁
    obtain ⟨hroom, hmax⟩ := hallows ctx r ha
    obtain ⟨hsum, hle'⟩ := add64_moved hle hcount hroom
    rw [toInt_of_lt (h.value r) (by unfold maxTransfer at hmax; omega)] at hbranch
    rw [hbranch.ret_eq (by omega) hsum]
    exact ⟨rfl, hle'⟩
  · intro ctx r ctx' hneg hhandler
    obtain ⟨ctx₁, b₁, hhandler₁, -, hbranch⟩ := h.handler ctx r
    cases hhandler.symm.trans hhandler₁
    rw [toInt_of_neg (h.value r) hneg] at hbranch
    exact (hbranch.of_neg hneg).1
  · intro ctx r ctx' hneg hhandler
    obtain ⟨ctx₁, b₁, hhandler₁, -, hbranch⟩ := h.handler ctx r
    cases hhandler.symm.trans hhandler₁
    rw [toInt_of_neg (h.value r) hneg] at hbranch
    exact (hbranch.of_neg hneg).1

theorem smartRead_transfers : Transfers smartRead ReadContext.allows ReadContext.count
    ReadContext.ret ReadResult.value :=
  smartRead_branches.transfers fun _ _ h => of_decide_eq_true h

theorem smartWrite_transfers : Transfers smartWrite WriteContext.allows WriteContext.count
    WriteContext.ret CallResult.value :=
  smartWrite_branches.transfers fun _ _ h => of_decide_eq_true h

/-! ## Runs of a handler -/

section

variable {σ ρ : Type} {op : IoOp σ ρ} {allows : σ → ρ → Bool}

/-- The first outcome: it is the last, or the coroutine waits on. -/
theorem await_cons {ctx ctx' : σ} {r : ρ} {rs : List ρ}
    (h : op.await allows ctx (r :: rs) = some ctx') :
    allows ctx r = true ∧ ((rs = [] ∧ op.handler ctx r = some (ctx', true)) ∨
      ∃ ctx₁, op.handler ctx r = some (ctx₁, false) ∧ op.await allows ctx₁ rs = some ctx') := by
  unfold IoOp.await at h
  split at h
  · rename_i hallows
    refine ⟨hallows, ?_⟩
    split at h
    · rename_i ctx₁ hhandler
      split at h
      · rename_i hlast
        cases h
        exact Or.inl ⟨List.isEmpty_iff.1 hlast, hhandler⟩
      · cases h
    · rename_i ctx₁ hhandler
      exact Or.inr ⟨ctx₁, hhandler, h⟩
    · cases h
  · cases h

theorem await_ne_nil {ctx ctx' : σ} {rs : List ρ} (h : op.await allows ctx rs = some ctx') :
    rs ≠ [] := by
  rintro rfl
  cases h

open BlockingCall in
/-- **What a transferring call leaves in `ret_`**, by its last outcome: `(size_t)-1` after a
failure, else what has been transferred. -/
theorem await_transfers {count ret : σ → Nat} {value : ρ → Int}
    (h : Transfers op allows count ret value) :
    ∀ (outcomes : List ρ) (ctx ctx' : σ), ret ctx ≤ count ctx → count ctx < 2 ^ 64 →
      op.await allows ctx outcomes = some ctx' →
      ∃ last, outcomes.getLast? = some last ∧ (value last < 0 → ret ctx' = 2 ^ 64 - 1) ∧
        (0 ≤ value last →
          ret ctx' = ret ctx + transferred value outcomes ∧ ret ctx' ≤ count ctx) := by
  intro outcomes
  induction outcomes with
  | nil =>
    intro ctx ctx' _ _ hawait
    cases hawait
  | cons r rs ih =>
    intro ctx ctx' hle hcount hawait
    have hsum : transferred value (r :: rs) = (value r).toNat + transferred value rs := by
      unfold transferred
      rw [List.map_cons, List.sum_cons]
    obtain ⟨hallows, ⟨rfl, hhandler⟩ | ⟨ctx₁, hhandler, hrest⟩⟩ := await_cons hawait
    · refine ⟨r, rfl, fun hneg => h.failed ctx r ctx' hneg hhandler, fun h0 => ?_⟩
      rw [hsum]
      exact h.moved ctx r ctx' true hallows hle hcount h0 hhandler
    · have hsame := h.count_eq ctx r ctx₁ false hhandler
      have hmoved : ret ctx₁ = ret ctx + (value r).toNat ∧ ret ctx₁ ≤ count ctx := by
        by_cases h0 : 0 ≤ value r
        · exact h.moved ctx r ctx₁ false hallows hle hcount h0 hhandler
        · have := h.retried ctx r ctx₁ (by omega) hhandler
          omega
      obtain ⟨last, hlast, hneg, hpos⟩ := ih ctx₁ ctx' (by omega) (by omega) hrest
      refine ⟨last, ?_, hneg, fun h0 => ?_⟩
      · rw [List.getLast?_cons_of_ne_nil (await_ne_nil hrest), hlast]
      · have := hpos h0
        rw [hsum]
        omega

/-- What `smart_accept_impl` leaves in the context. -/
theorem await_accept :
    ∀ (outcomes : List CallResult) (ctx ctx' : AcceptContext),
      smartAccept.await (fun _ _ => true) ctx outcomes = some ctx' →
      ∃ last, outcomes.getLast? = some last ∧
        (last.value < 0 → ctx'.ret = -1 ∧ ctx'.errno = last.errno) ∧
        (0 ≤ last.value → ctx'.ret = last.value) := by
  intro outcomes
  induction outcomes with
  | nil =>
    intro ctx ctx' hawait
    cases hawait
  | cons r rs ih =>
    intro ctx ctx' hawait
    obtain ⟨-, ⟨rfl, hhandler⟩ | ⟨ctx₁, -, hrest⟩⟩ := await_cons hawait
    · refine ⟨r, rfl, ?_, ?_⟩
      · intro hneg
        simp only [smartAccept, smartAcceptImpl, Option.some.injEq] at hhandler
        split at hhandler
        · cases hhandler
          exact ⟨rfl, rfl⟩
        · rw [if_neg (by omega)] at hhandler
          cases hhandler
      · intro h0
        simp only [smartAccept, smartAcceptImpl, Option.some.injEq] at hhandler
        rw [if_neg (by omega), if_pos h0] at hhandler
        cases hhandler
        rfl
    · obtain ⟨last, hlast, hspec⟩ := ih ctx₁ ctx' hrest
      refine ⟨last, ?_, hspec⟩
      rw [List.getLast?_cons_of_ne_nil (await_ne_nil hrest), hlast]

/-- `smart_connect_impl` resumes the coroutine with its first dispatch. -/
theorem await_connect {outcomes : List CallResult} {ctx ctx' : ConnectContext}
    (hawait : smartConnect.await (fun _ _ => true) ctx outcomes = some ctx') :
    ∃ r, outcomes = [r] ∧ ctx' = (smartConnectImpl ctx r).1 := by
  cases outcomes with
  | nil => cases hawait
  | cons r rs =>
    have hresumes : (smartConnectImpl ctx r).2 = true := by
      unfold smartConnectImpl
      split <;> rfl
    obtain ⟨-, ⟨rfl, hhandler⟩ | ⟨ctx₁, hhandler, -⟩⟩ := await_cons hawait
    · refine ⟨r, rfl, ?_⟩
      simp only [smartConnect, Option.some.injEq] at hhandler
      rw [hhandler]
    · simp only [smartConnect, Option.some.injEq] at hhandler
      rw [hhandler] at hresumes
      cases hresumes

end

/-! ## The contract -/

namespace BlockingCall

/-- A call that returns -1 leaves the error that made it fail in `errno`. -/
def ReportsCause (c : BlockingCall) (ret : Returned) : Prop :=
  ret.value = -1 → c.cause = some ret.errno

section

variable {errno later : Int} {ret : Returned}

/-- The transferring calls: the value says what happened, `errno` is what it was before. -/
theorem transferring_iff {ρ : Type} {value errnoOf : ρ → Int} {outcomes : List ρ} {last : ρ} {n : Nat}
    {errno : Int} (hlast : outcomes.getLast? = some last)
    (hneg : value last < 0 → n = 2 ^ 64 - 1)
    (hpos : 0 ≤ value last → n = transferred value outcomes ∧ n < 2 ^ 64) :
    (toSsize n = -1 → (outcomes.getLast?.bind fun r =>
        if value r < 0 then some (errnoOf r) else none) = some errno) ↔
      coincides value errnoOf errno outcomes = true := by
  unfold coincides
  rw [hlast]
  dsimp only [Option.bind_some]
  by_cases h : value last < 0
  · have hvalue : toSsize n = -1 := (toSsize_eq_neg_one (by omega)).2 (hneg h)
    rw [if_pos h, if_pos h, decide_eq_true_eq]
    constructor
    · intro hcause
      exact Option.some.inj (hcause hvalue)
    · intro hsame _
      rw [hsame]
  · obtain ⟨hn, hlt⟩ := hpos (by omega)
    rw [if_neg h, if_neg h, decide_eq_true_eq, toSsize_eq_neg_one hlt, hn]
    constructor
    · intro hcause heq
      cases hcause heq
    · intro hne heq
      exact absurd heq hne

/-- A transferring call, once its handler has resumed the coroutine. -/
theorem awaited_iff {σ ρ : Type} {op : IoOp σ ρ} {allows : σ → ρ → Bool} {count retOf : σ → Nat}
    {value errnoOf : ρ → Int} {outcomes : List ρ} {ctx ctx' : σ} {errno : Int}
    (h : Transfers op allows count retOf value) (hnew : retOf ctx = 0) (hcount : count ctx < 2 ^ 64)
    (hawait : op.await allows ctx outcomes = some ctx') :
    (toSsize (retOf ctx') = -1 → (outcomes.getLast?.bind fun r =>
        if value r < 0 then some (errnoOf r) else none) = some errno) ↔
      coincides value errnoOf errno outcomes = true := by
  obtain ⟨last, hlast, hneg, hpos⟩ := await_transfers h outcomes ctx ctx'
    (by rw [hnew]; exact Nat.zero_le _) hcount hawait
  apply transferring_iff hlast hneg
  intro h0
  obtain ⟨hret, hle⟩ := hpos h0
  rw [hnew, Nat.zero_add] at hret
  exact ⟨hret, Nat.lt_of_le_of_lt hle hcount⟩

theorem read_iff {fd : Int} {buf : Nat → UInt8} {count : UInt64} {outcomes : List ReadResult}
    (h : (read fd buf count outcomes).returned errno later = some ret) :
    ReportsCause (read fd buf count outcomes) ret ↔
      (read fd buf count outcomes).keepsErrno errno = true := by
  simp only [returned, Coroutine.smartRead, Option.map_map] at h
  obtain ⟨ctx, hawait, rfl⟩ := Option.map_eq_some_iff.1 h
  simp only [ReportsCause, cause, keepsErrno, Function.comp, switchTo, Nat.not_lt_zero, if_false]
  exact awaited_iff smartRead_transfers rfl count.toNat_lt hawait

theorem write_iff {fd : Int} {buf : Nat → UInt8} {count : UInt64} {outcomes : List CallResult}
    (h : (write fd buf count outcomes).returned errno later = some ret) :
    ReportsCause (write fd buf count outcomes) ret ↔
      (write fd buf count outcomes).keepsErrno errno = true := by
  simp only [returned, Coroutine.smartWrite] at h
  obtain ⟨ctx, hawait, rfl⟩ := Option.map_eq_some_iff.1 h
  simp only [ReportsCause, cause, keepsErrno, switchTo, Nat.not_lt_zero, if_false]
  exact awaited_iff smartWrite_transfers rfl count.toNat_lt hawait

/-- `smart_accept` sets `errno` itself. -/
theorem accept_reports {sockfd : Int} {outcomes : List CallResult}
    (h : (accept sockfd outcomes).returned errno later = some ret) :
    ReportsCause (accept sockfd outcomes) ret := by
  simp only [returned, Coroutine.smartAccept] at h
  obtain ⟨ctx, hawait, rfl⟩ := Option.map_eq_some_iff.1 h
  obtain ⟨last, hlast, hneg, hpos⟩ := await_accept outcomes _ ctx hawait
  intro hvalue
  simp only [cause, hlast, Option.bind_some]
  by_cases h0 : last.value < 0
  · obtain ⟨hret, herrno⟩ := hneg h0
    rw [if_pos h0, if_pos (by omega), herrno]
  · have hret := hpos (by omega)
    rw [if_neg (by omega)] at hvalue
    dsimp only at hvalue
    omega

/-- `smart_connect` sets `errno` itself once it has waited, and leaves that of `connect` alone when
it has not. -/
theorem connect_reports {sockfd : Int} {first : CallResult} {outcomes : List CallResult}
    (h : (connect sockfd first outcomes).returned errno later = some ret) :
    ReportsCause (connect sockfd first outcomes) ret := by
  simp only [returned, Coroutine.smartConnect] at h
  intro hvalue
  simp only [cause]
  split at h
  · rename_i hprogress
    obtain ⟨ctx, hawait, rfl⟩ := Option.map_eq_some_iff.1 h
    obtain ⟨r, rfl, hctx⟩ := await_connect hawait
    rw [if_pos hprogress]
    have hfailed : ctx.errno ≠ 0 := by
      intro hzero
      rw [if_neg (not_not.2 hzero)] at hvalue
      cases hvalue
    rw [if_pos hfailed]
    simp only [List.getLast?_singleton, Option.bind_some]
    cases hresult : r.result with
    | none =>
      simp only [smartConnectImpl, hresult] at hctx
      rw [hctx]
    | some error =>
      simp only [smartConnectImpl, hresult] at hctx
      by_cases herror : error ≠ 0
      · rw [if_pos herror] at hctx
        rw [hctx]
        exact if_pos herror
      · rw [if_neg herror] at hctx
        exact absurd (by rw [hctx]; rfl) hfailed
  · rename_i hnot
    cases h
    dsimp only at hvalue
    rw [if_neg hnot, if_pos (by omega)]

end

/-- **A call that returns -1 leaves the error that made it fail in `errno`** exactly when it is
`smart_accept` or `smart_connect`, or that error is what `errno` was before the call. -/
theorem returned_errno_iff (c : BlockingCall) (errno later : Int) (ret : Returned)
    (h : c.returned errno later = some ret) :
    (ret.value = -1 → c.cause = some ret.errno) ↔ c.keepsErrno errno = true := by
  cases c with
  | read fd buf count outcomes => exact read_iff h
  | write fd buf count outcomes => exact write_iff h
  | accept sockfd outcomes => exact ⟨fun _ => rfl, fun _ => accept_reports h⟩
  | connect sockfd first outcomes => exact ⟨fun _ => rfl, fun _ => connect_reports h⟩

/-- A connection that is refused while the coroutine waits. -/
theorem returned_errno_iff_refused :
    (connect 5 ⟨none, EINPROGRESS⟩ [⟨some 111, 0⟩]).returned 0 0 = some ⟨-1, 111⟩ ∧
      (connect 5 ⟨none, EINPROGRESS⟩ [⟨some 111, 0⟩]).cause = some 111 :=
  ⟨rfl, (returned_errno_iff (connect 5 ⟨none, EINPROGRESS⟩ [⟨some 111, 0⟩]) 0 0 ⟨-1, 111⟩ rfl).2 rfl
    rfl⟩

/-- **A read that the peer resets** (`ECONNRESET`) returns -1 and leaves `errno` at the 0 it was
before. -/
theorem read_reset_errno :
    (read 5 (fun _ => 0) 16 [⟨none, 104⟩]).returned 0 0 = some ⟨-1, 0⟩ ∧
      (read 5 (fun _ => 0) 16 [⟨none, 104⟩]).cause = some 104 ∧
      ¬ (read 5 (fun _ => 0) 16 [⟨none, 104⟩]).cause = some 0 := by
  decide +kernel

end BlockingCall

end SmartRoutine
