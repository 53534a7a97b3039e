import SmartRoutine.DynamicBuffer
import SmartRoutine.PartialSearch

/-!
# The handlers of the blocking calls

`smart_read_impl`, `smart_write_impl`, `smart_connect_impl`, `smart_accept_impl` and
`smart_read_until_impl`: what one dispatch does to the context of the call, given the outcome of
the system call it makes.  A handler returns the context and whether it resumes the coroutine;
every handler has finished with its context when it does.

The system calls return `ssize_t`; the handlers keep the result in an `int` (`toInt`).
-/

set_option autoImplicit false

namespace SmartRoutine

def EWOULDBLOCK : Int := 11

/-- Conversion to `int`. -/
@[irreducible] def toInt (x : Int) : Int := x.bmod (2 ^ 32)

/-- Outcome of `read`: the bytes stored, none of them at end of file, or failure; `errno` is its
value after the call. -/
structure ReadResult where
  bytes : Option (List UInt8)
  errno : Int
  deriving DecidableEq, Repr

def ReadResult.value (r : ReadResult) : Int :=
  match r.bytes with
  | some bytes => bytes.length
  | none => -1

/-- Outcome of `write`, `accept` and `getsockopt`: a non-negative result or failure.  For
`getsockopt` the result is `SO_ERROR`. -/
structure CallResult where
  result : Option Nat
  errno : Int
  deriving DecidableEq, Repr

def CallResult.value (r : CallResult) : Int :=
  match r.result with
  | some n => n
  | none => -1

theorem ReadResult.neg_one_le (r : ReadResult) : -1 ≤ r.value := by
  unfold ReadResult.value
  split <;> omega

theorem CallResult.neg_one_le (r : CallResult) : -1 ≤ r.value := by
  unfold CallResult.value
  split <;> omega

/-! ## The contexts -/

structure ReadContext where
  fd : Int
  buf : Nat → UInt8
  count : Nat
  ret : Nat
  errno : Int

structure WriteContext where
  fd : Int
  buf : Nat → UInt8
  count : Nat
  ret : Nat
  errno : Int

structure ConnectContext where
  sockfd : Int
  errno : Int
  deriving DecidableEq, Repr

structure AcceptContext where
  sockfd : Int
  errno : Int
  ret : Int
  deriving DecidableEq, Repr

structure ReadUntilContext where
  fd : Int
  buffer : DynamicBuffer
  delim : List UInt8
  ec : CodeVal
  ret : Int
  lastSearchEnd : Nat

def ReadContext.new (fd : Int) (buf : Nat → UInt8) (count : Nat) : ReadContext := ⟨fd, buf, count, 0, 0⟩

def WriteContext.new (fd : Int) (buf : Nat → UInt8) (count : Nat) : WriteContext := ⟨fd, buf, count, 0, 0⟩

def ConnectContext.new (sockfd : Int) : ConnectContext := ⟨sockfd, 0⟩

def AcceptContext.new (sockfd : Int) : AcceptContext := ⟨sockfd, 0, -1⟩

def ReadUntilContext.new (fd : Int) (buffer : DynamicBuffer) (delim : List UInt8) : ReadUntilContext :=
  ⟨fd, buffer, delim, .success, 0, 0⟩

/-! ## The handlers -/

/-- `read` has stored its bytes at `buf_ + ret_`. -/
def ReadContext.receive (ctx : ReadContext) (r : ReadResult) : ReadContext :=
  match r.bytes with
  | some bytes => { ctx with buf := Memory.store ctx.buf ctx.ret bytes }
  | none => ctx

def smartReadImpl (ctx : ReadContext) (r : ReadResult) : ReadContext × Bool :=
  let ctx := ctx.receive r
  let ret := toInt r.value
  if ret > 0 then
    let ctx := { ctx with ret := add64 ctx.ret ret.toNat }
    (ctx, ctx.ret = ctx.count)
  else if ret < 0 ∧ r.errno ≠ EWOULDBLOCK then
    ({ ctx with ret := 2 ^ 64 - 1, errno := r.errno }, true)
  else (ctx, ret = 0)

def smartWriteImpl (ctx : WriteContext) (r : CallResult) : WriteContext × Bool :=
  let ret := toInt r.value
  if ret > 0 then
    let ctx := { ctx with ret := add64 ctx.ret ret.toNat }
    (ctx, ctx.ret = ctx.count)
  else if ret < 0 ∧ r.errno ≠ EWOULDBLOCK then
    ({ ctx with ret := 2 ^ 64 - 1, errno := r.errno }, true)
  else (ctx, false)

def smartConnectImpl (ctx : ConnectContext) (r : CallResult) : ConnectContext × Bool :=
  match r.result with
  | none => ({ ctx with errno := r.errno }, true)
  | some error => (if error ≠ 0 then { ctx with errno := error } else ctx, true)

def smartAcceptImpl (ctx : AcceptContext) (r : CallResult) : AcceptContext × Bool :=
  let ret := r.value
  if ret < 0 ∧ r.errno ≠ EWOULDBLOCK then ({ ctx with ret := -1, errno := r.errno }, true)
  else if ret ≥ 0 then ({ ctx with ret := ret }, true)
  else (ctx, false)

/-- The search of `smart_read_until_impl`, from `last_search_end_` on. -/
def ReadUntilContext.search (ctx : ReadUntilContext) : Option (PartialSearchResult × Nat) :=
  let constBuffer := ctx.buffer.readBuffer
  partialSearch (fun k => ctx.buffer.mem (constBuffer.data + ctx.lastSearchEnd + k))
    (sub64 constBuffer.size ctx.lastSearchEnd) ctx.delim

/-- What follows from the outcome of `append`. -/
def ReadUntilContext.appended (ctx : ReadUntilContext) (r : DynamicBuffer × CodeVal) (n : Nat) :
    ReadUntilContext :=
  { ctx with buffer := r.1, ec := r.2, ret := if r.2.fail then -1 else toInt (ctx.ret + n) }

/-- `append` of the bytes read. -/
def ReadUntilContext.receive (env : BufferEnv) (ctx : ReadUntilContext) (bytes : List UInt8) :
    ReadUntilContext :=
  ctx.appended (ctx.buffer.append env bytes ctx.ec) bytes.length

def ReadUntilContext.setSearchEnd (ctx : ReadUntilContext) (e : Nat) : ReadUntilContext :=
  { ctx with lastSearchEnd := e }

/-- What follows from the result of the search; `none` if it never returns. -/
def ReadUntilContext.afterSearch (ctx : ReadUntilContext) :
    Option (PartialSearchResult × Nat) → Option (ReadUntilContext × Bool)
  | none => none
  | some (.Match, _) => some (ctx, true)
  | some (.PartialMatch, i) => some (ctx.setSearchEnd (add64 ctx.lastSearchEnd i), ctx.ec.fail)
  | some (.NotMatch, _) => some (ctx.setSearchEnd ctx.buffer.readBuffer.size, ctx.ec.fail)

/-- `r.bytes` are the bytes in `tmp_buf`. -/
def smartReadUntilImpl (env : BufferEnv) (ctx : ReadUntilContext) (r : ReadResult) :
    Option (ReadUntilContext × Bool) :=
  let ret := toInt r.value
  if ret > 0 then
    let ctx := ctx.receive env (r.bytes.getD [])
    ctx.afterSearch ctx.search
  else if ret < 0 ∧ r.errno ≠ EWOULDBLOCK then some ({ ctx with ret := -1 }, true)
  else some (ctx, ret = 0)

end SmartRoutine
