import SmartRoutine.ReadUntil
import SmartRoutine.Sockets

/-!
# What the operations of a socket report

* `Reports` — `ec` says failure when the operation was refused or its call failed, and then only;
  no -1 is returned without it.
* `await_readUntil` — what `smart_read_until_impl` leaves in the context, by the last outcome.
* `outcome_reports_iff` — each operation reports **exactly** when its call did not fail or failed
  with an error it has a test for.
* `connect_refused_silent` — a connection that the peer refuses looks like a success.
-/

set_option autoImplicit false

namespace SmartRoutine

/-- An operation with the outcome of the call it makes.  The first seven are those of
`TcpSocket`. -/
inductive SocketCall where
  | open_ (r : Returned)
  | bind (addr : Bool) (r : Returned)
  | connect (r : Returned)
  | close (r : Returned)
  | read (r : Returned)
  | readUntil (env : BufferEnv) (coroutine : Bool) (buffer : DynamicBuffer) (delim : List UInt8)
    (outcomes : List ReadResult)
  | write (r : Returned)
  | listen (r : Returned)
  | accept (peer : TcpSocket) (r : Returned)
  | setAddressReuse (r : Returned)

/-- The bytes a list of outcomes brings, cut as they came. -/
def chunks (outcomes : List ReadResult) : List (List UInt8) :=
  outcomes.filterMap fun r => if 0 < r.value then r.bytes else none

/-- `append` one chunk after the other. -/
def DynamicBuffer.appendAll (env : BufferEnv) (b : DynamicBuffer) (ec : CodeVal) :
    List (List UInt8) → DynamicBuffer × CodeVal
  | [] => (b, ec)
  | c :: cs => appendAll env (b.append env c ec).1 (b.append env c ec).2 cs

/-- The last outcome is a failure. -/
def lastFails (outcomes : List ReadResult) : Bool := outcomes.getLast?.any fun r => r.value < 0

/-- The buffer has no room for all that the outcomes bring. -/
def overflows (env : BufferEnv) (buffer : DynamicBuffer) (outcomes : List ReadResult) : Bool :=
  (buffer.appendAll env .success (chunks outcomes)).2.fail

def received (outcomes : List ReadResult) : Nat := (outcomes.map fun r => r.value.toNat).sum

namespace SocketCall

/-- What the operation returns, if anything, and `ec`, `Success` before, after it. -/
def outcome (a : Acceptor) : SocketCall → Option (Option Int × CodeVal)
  | open_ r => some (none, (a.toTcpSocket.open_ r .success).ec)
  | bind addr r => some (none, (a.toTcpSocket.bind addr r .success).ec)
  | connect r => some (none, (a.toTcpSocket.connect r .success).ec)
  | close _ => some (none, (a.toTcpSocket.close .success).ec)
  | read r => some (some (a.toTcpSocket.read r .success).1, (a.toTcpSocket.read r .success).2)
  | readUntil env coroutine buffer delim outcomes =>
    (a.toTcpSocket.readUntil env coroutine buffer delim outcomes .success).map fun p =>
      (some p.1, p.2.1)
  | write r => some (some (a.toTcpSocket.write r .success).1, (a.toTcpSocket.write r .success).2)
  | listen r => some (none, (a.listen r .success).ec)
  | accept peer r => some (none, (a.accept peer r .success).ec)
  | setAddressReuse r => some (none, (a.setAddressReuse r .success).ec)

/-- The state check of the operation fails. -/
def refused (a : Acceptor) : SocketCall → Bool
  | open_ _ => a.opened
  | bind addr _ => !a.opened || a.bound || !addr
  | connect _ => !a.opened || a.connected
  | close _ => !a.opened
  | read _ => !a.opened || !a.connected
  | readUntil _ _ _ _ _ => !a.opened || !a.connected
  | write _ => !a.opened || !a.connected
  | listen _ => !a.opened || a.listening
  | accept _ _ => !a.opened || !a.listening
  | setAddressReuse _ => !a.opened

/-- The call the operation makes fails. -/
def failed (a : Acceptor) : SocketCall → Bool
  | open_ r => r.value < 0
  | bind _ r => r.value < 0
  | connect r => r.value < 0
  | close r => 0 ≤ a.socket && r.value < 0
  | read r => r.value < 0
  | readUntil env coroutine buffer _ outcomes =>
    !coroutine || lastFails outcomes || overflows env buffer outcomes
  | write r => r.value < 0
  | listen r => r.value < 0
  | accept _ r => r.value < 0
  | setAddressReuse r => r.value < 0

/-- The operation has a test for this failure. -/
def known : SocketCall → Bool
  | open_ r => (openErrors.lookup r.errno).isSome
  | bind _ r => (bindErrors.lookup r.errno).isSome
  | connect r => (connectErrors.lookup r.errno).isSome
  | listen r => (listenErrors.lookup r.errno).isSome
  | accept _ r => (acceptErrors.lookup r.errno).isSome
  | readUntil env coroutine buffer _ outcomes =>
    coroutine && !lastFails outcomes && overflows env buffer outcomes
  | _ => false

/-- The number of bytes does not become -1 when it is kept in an `int`. -/
def fitsInt : SocketCall → Bool
  | read r => toInt r.value ≠ -1
  | readUntil _ _ _ _ outcomes => toInt (received outcomes) ≠ -1
  | write r => toInt r.value ≠ -1
  | _ => true

/-- `ec` says failure exactly when there was one, and -1 is never returned without it. -/
def Reports (a : Acceptor) (c : SocketCall) (ret : Option Int) (ec : CodeVal) : Prop :=
  (ec.fail = true ↔ c.refused a = true ∨ c.failed a = true) ∧ (ret = some (-1) → ec.fail = true)

/-- The operation was refused, its call failed in a way it has a test for, or did not fail. -/
def translated (a : Acceptor) (c : SocketCall) : Bool :=
  c.refused a || (if c.failed a then c.known else c.fitsInt)

end SocketCall

/-! ## Tables -/

theorem translate_fail {table : List (Int × CodeVal)} (h : ∀ p ∈ table, p.2.fail = true) (errno : Int) :
    (translate table errno .success).fail = (table.lookup errno).isSome := by
  unfold translate
  cases hl : table.lookup errno with
  | none => rfl
  | some v =>
    obtain ⟨l₁, l₂, htable, -⟩ := List.lookup_eq_some_iff.1 hl
    rw [Option.getD_some, Option.isSome_some]
    apply h (errno, v)
    rw [htable]
    simp

theorem openErrors_fail : ∀ p ∈ openErrors, p.2.fail = true := by decide

theorem bindErrors_fail : ∀ p ∈ bindErrors, p.2.fail = true := by decide

theorem connectErrors_fail : ∀ p ∈ connectErrors, p.2.fail = true := by decide

theorem listenErrors_fail : ∀ p ∈ listenErrors, p.2.fail = true := by decide

theorem acceptErrors_fail : ∀ p ∈ acceptErrors, p.2.fail = true := by decide

/-! ## `smart_read_until` -/

theorem toInt_toInt_add (x y : Int) : toInt (toInt x + y) = toInt (x + y) := by
  unfold toInt
  exact Int.bmod_add_bmod

theorem CodeVal.eq_success {v : CodeVal} (h : v.fail = false) : v = .success := by
  unfold CodeVal.fail at h
  simpa using h

theorem ReadResult.value_of_some {r : ReadResult} {bytes : List UInt8} (h : r.bytes = some bytes) :
    r.value = bytes.length := by
  unfold ReadResult.value
  rw [h]

theorem DynamicBuffer.appendAll_cons (env : BufferEnv) (b : DynamicBuffer) (ec : CodeVal)
    (c : List UInt8) (cs : List (List UInt8)) :
    b.appendAll env ec (c :: cs) = (b.append env c ec).1.appendAll env (b.append env c ec).2 cs := by
  rw [DynamicBuffer.appendAll]

theorem DynamicBuffer.appendAll_nil (env : BufferEnv) (b : DynamicBuffer) (ec : CodeVal) :
    (b.appendAll env ec []).2 = ec := by
  rw [DynamicBuffer.appendAll]

section

variable {r : ReadResult} {rs : List ReadResult}

theorem chunks_nil : chunks [] = [] := rfl

theorem chunks_cons_some {bytes : List UInt8} (hbytes : r.bytes = some bytes)
    (hpos : 0 < bytes.length) : chunks (r :: rs) = bytes :: chunks rs := by
  have hvalue := ReadResult.value_of_some hbytes
  unfold chunks
  rw [List.filterMap_cons, if_pos (by omega), hbytes]

theorem chunks_cons_none (h : r.value ≤ 0) : chunks (r :: rs) = chunks rs := by
  unfold chunks
  rw [List.filterMap_cons, if_neg (by omega)]

theorem received_cons : received (r :: rs) = r.value.toNat + received rs := by
  unfold received
  rw [List.map_cons, List.sum_cons]

theorem received_nil : received [] = 0 := rfl

/-- What the coroutine finds in the context after these outcomes: the error code of `append`, and
-1 with it; after a failed `read` only the -1. -/
def Leaves (env : BufferEnv) (ctx : ReadUntilContext) (outcomes : List ReadResult)
    (ctx' : ReadUntilContext) : Prop :=
  ∃ last, outcomes.getLast? = some last ∧
    (last.value < 0 → ctx'.ret = -1 ∧ ctx'.ec = .success) ∧
    (0 ≤ last.value → ctx'.ec = (ctx.buffer.appendAll env .success (chunks outcomes)).2 ∧
      ctx'.ret = if ctx'.ec.fail then -1 else toInt (ctx.ret + received outcomes))

variable {env : BufferEnv} {ctx ctx₁ ctx' : ReadUntilContext}

/-- The outcome that resumes the coroutine. -/
theorem leaves_singleton (hallows : r.value ≤ 64) (hec : ctx.ec = .success)
    (hret : toInt ctx.ret = ctx.ret) (h : smartReadUntilImpl env ctx r = some (ctx', true)) :
    Leaves env ctx [r] ctx' := by
  refine ⟨r, rfl, ?_⟩
  obtain ⟨bytes, hbytes, hpos, -, hec', hret', -⟩ | ⟨hneg, -, hctx⟩ | ⟨-, hfalse, -⟩ |
    ⟨hzero, -, hctx⟩ := smartReadUntilImpl_cases hallows h
  · have hvalue := ReadResult.value_of_some hbytes
    refine ⟨fun hneg => by omega, fun _ => ?_⟩
    rw [hec] at hec'
    rw [chunks_cons_some hbytes hpos, chunks_nil, DynamicBuffer.appendAll_cons,
      DynamicBuffer.appendAll_nil, received_cons, received_nil, hvalue, Int.toNat_natCast, Nat.add_zero]
    exact ⟨hec', hret'⟩
  · rw [hctx]
    exact ⟨fun _ => ⟨rfl, hec⟩, fun h0 => by omega⟩
  · cases hfalse
  · refine ⟨fun hneg => by omega, fun _ => ?_⟩
    have hgood : ctx.ec.fail = false := by
      rw [hec]
      rfl
    rw [chunks_cons_none (by omega), chunks_nil, DynamicBuffer.appendAll_nil, received_cons,
      received_nil, hzero, hctx, hgood, if_neg Bool.false_ne_true, hec]
    refine ⟨rfl, ?_⟩
    rw [Int.toNat_zero, Nat.add_zero, Nat.cast_zero, Int.add_zero, hret]

/-- An outcome after which the coroutine waits on. -/
theorem leaves_cons (hallows : r.value ≤ 64) (hec : ctx.ec = .success) (hret : toInt ctx.ret = ctx.ret)
    (h : smartReadUntilImpl env ctx r = some (ctx₁, false)) :
    ctx₁.ec = .success ∧ toInt ctx₁.ret = ctx₁.ret ∧
      (rs ≠ [] → Leaves env ctx₁ rs ctx' → Leaves env ctx (r :: rs) ctx') := by
  obtain ⟨bytes, hbytes, hpos, hbuffer, hec', hret', hresume⟩ | ⟨-, hfalse, -⟩ | ⟨hneg, -, hctx⟩ |
    ⟨-, hfalse, -⟩ := smartReadUntilImpl_cases hallows h
  · have hkept : ctx₁.ec.fail = false := by
      cases hfail : ctx₁.ec.fail with
      | false => rfl
      | true => exact absurd (hresume hfail) Bool.false_ne_true
    have hvalue := ReadResult.value_of_some hbytes
    have hsuccess := CodeVal.eq_success hkept
    rw [hkept, if_neg Bool.false_ne_true] at hret'
    rw [hec] at hec' hbuffer
    refine ⟨hsuccess, ?_, ?_⟩
    · have hidem := toInt_toInt_add (ctx.ret + bytes.length) 0
      rwa [Int.add_zero, Int.add_zero, ← hret'] at hidem
    · rintro hne ⟨last, hlast, hneg, hdone⟩
      refine ⟨last, ?_, hneg, fun h0 => ?_⟩
      · rw [List.getLast?_cons_of_ne_nil hne, hlast]
      · rw [chunks_cons_some hbytes hpos, received_cons, hvalue, Int.toNat_natCast, Nat.cast_add,
          ← Int.add_assoc, ← toInt_toInt_add, ← hret', DynamicBuffer.appendAll_cons, ← hec', ← hbuffer,
          hsuccess]
        exact hdone h0
  · cases hfalse
  · rw [hctx]
    refine ⟨hec, hret, ?_⟩
    rintro hne ⟨last, hlast, hspec⟩
    refine ⟨last, ?_, ?_⟩
    · rw [List.getLast?_cons_of_ne_nil hne, hlast]
    · rw [chunks_cons_none (by omega), received_cons, Int.toNat_of_nonpos (by omega), Nat.zero_add]
      exact hspec
  · cases hfalse

end

theorem smartReadUntil_handler (env : BufferEnv) :
    (smartReadUntil env).handler = smartReadUntilImpl env := rfl

/-- **What `smart_read_until_impl` leaves in the context.** -/
theorem await_readUntil {env : BufferEnv} :
    ∀ (outcomes : List ReadResult) (ctx ctx' : ReadUntilContext), ctx.ec = .success →
      toInt ctx.ret = ctx.ret →
      (smartReadUntil env).await ReadUntilContext.allows ctx outcomes = some ctx' →
      Leaves env ctx outcomes ctx' := by
  intro outcomes
  induction outcomes with
  | nil =>
    intro ctx ctx' _ _ hawait
    exact absurd rfl (await_ne_nil hawait)
  | cons r rs ih =>
    intro ctx ctx' hec hret hawait
    obtain ⟨hallows, hnext⟩ := await_cons hawait
    have hsmall : r.value ≤ 64 := of_decide_eq_true hallows
    rw [smartReadUntil_handler] at hnext
    obtain ⟨rfl, hhandler⟩ | ⟨ctx₁, hhandler, hrest⟩ := hnext
    · exact leaves_singleton hsmall hec hret hhandler
    · obtain ⟨hec₁, hret₁, hleaves⟩ := leaves_cons hsmall hec hret hhandler
      exact hleaves (await_ne_nil hrest) (ih ctx₁ ctx' hec₁ hret₁ hrest)

/-! ## The operations -/

namespace SocketCall

section

variable {a : Acceptor} {c : SocketCall} {ret : Option Int} {ec : CodeVal}

/-- What `ec` and the result are, case by case. -/
theorem reports_iff_of (hrefused : c.refused a = true → ec.fail = true)
    (hfailed : c.refused a = false → c.failed a = true → ec.fail = c.known)
    (hpassed : c.refused a = false → c.failed a = false →
      ec.fail = false ∧ (ret = some (-1) ↔ c.fitsInt = false)) :
    Reports a c ret ec ↔ c.translated a = true := by
  unfold Reports translated
  cases hr : c.refused a with
  | true => simp [hrefused hr]
  | false =>
    cases hf : c.failed a with
    | true =>
      have hfail := hfailed hr hf
      simp only [hfail, Bool.false_or, if_true, or_true, iff_true, and_iff_left_iff_imp]
      exact fun h _ => h
    | false =>
      obtain ⟨hec, hret⟩ := hpassed hr hf
      simp [hec, hret]

/-- An operation with a chain of tests on `errno`. -/
theorem tested_reports_iff (refuse : Bool) {r : Returned} {table : List (Int × CodeVal)}
    (htable : ∀ p ∈ table, p.2.fail = true) (hrefused : c.refused a = refuse)
    (hfailed : c.failed a = decide (r.value < 0)) (hknown : c.known = (table.lookup r.errno).isSome)
    (hfits : c.fitsInt = true)
    (hec : ec = if refuse then .invalidArgument
      else if r.value < 0 then translate table r.errno .success else .success) :
    Reports a c none ec ↔ c.translated a = true := by
  subst hrefused
  apply reports_iff_of
  · intro h
    rw [hec, if_pos h]
    rfl
  · intro h hf
    rw [hfailed, decide_eq_true_eq] at hf
    rw [hec, if_neg (Bool.not_eq_true _ ▸ h), if_pos hf, translate_fail htable, hknown]
  · intro h hf
    rw [hfailed, decide_eq_false_iff_not] at hf
    rw [hec, if_neg (Bool.not_eq_true _ ▸ h), if_neg hf, hfits]
    exact ⟨rfl, by simp⟩

/-- An operation that does not look at what its call returns, or only logs it. -/
theorem silent_reports_iff (refuse : Bool) (hrefused : c.refused a = refuse) (hknown : c.known = false)
    (hec : ec = if refuse then .invalidArgument else .success)
    (hret : c.refused a = false → (ret = some (-1) ↔ c.fitsInt = false)) :
    Reports a c ret ec ↔ c.translated a = true := by
  subst hrefused
  apply reports_iff_of
  · intro h
    rw [hec, if_pos h]
    rfl
  · intro h _
    rw [hec, if_neg (Bool.not_eq_true _ ▸ h), hknown]
    rfl
  · intro h _
    rw [hec, if_neg (Bool.not_eq_true _ ▸ h)]
    exact ⟨rfl, hret h⟩

theorem open_reports_iff (r : Returned) :
    Reports a (open_ r) none (a.toTcpSocket.open_ r .success).ec ↔ (open_ r).translated a = true := by
  apply tested_reports_iff a.opened openErrors_fail rfl rfl rfl rfl
  unfold TcpSocket.open_
  simp only [apply_ite Done.ec]

theorem bind_reports_iff (addr : Bool) (r : Returned) :
    Reports a (bind addr r) none (a.toTcpSocket.bind addr r .success).ec ↔
      (bind addr r).translated a = true := by
  apply tested_reports_iff (!a.opened || a.bound || !addr) bindErrors_fail rfl rfl rfl rfl
  unfold TcpSocket.bind
  cases addr <;> simp [apply_ite Done.ec]

theorem connect_reports_iff (r : Returned) :
    Reports a (connect r) none (a.toTcpSocket.connect r .success).ec ↔
      (connect r).translated a = true := by
  apply tested_reports_iff (!a.opened || a.connected) connectErrors_fail rfl rfl rfl rfl
  unfold TcpSocket.connect
  simp only [apply_ite Done.ec]

theorem listen_reports_iff (r : Returned) :
    Reports a (listen r) none (a.listen r .success).ec ↔ (listen r).translated a = true := by
  apply tested_reports_iff (!a.opened || a.listening) listenErrors_fail rfl rfl rfl rfl
  unfold Acceptor.listen
  simp only [apply_ite Done.ec]

theorem accept_reports_iff (peer : TcpSocket) (r : Returned) :
    Reports a (accept peer r) none (a.accept peer r .success).ec ↔
      (accept peer r).translated a = true := by
  apply tested_reports_iff (!a.opened || !a.listening) acceptErrors_fail rfl rfl rfl rfl
  unfold Acceptor.accept
  simp only [apply_ite Done.ec]

theorem close_reports_iff (r : Returned) :
    Reports a (close r) none (a.toTcpSocket.close .success).ec ↔ (close r).translated a = true := by
  apply silent_reports_iff (!a.opened) rfl rfl
  · unfold TcpSocket.close
    simp only [apply_ite Done.ec, ite_self]
  · simp [fitsInt]

theorem setAddressReuse_reports_iff (r : Returned) :
    Reports a (setAddressReuse r) none (a.setAddressReuse r .success).ec ↔
      (setAddressReuse r).translated a = true := by
  apply silent_reports_iff (!a.opened) rfl rfl
  · unfold Acceptor.setAddressReuse
    simp only [apply_ite Done.ec]
  · simp [fitsInt]

theorem transfer_eq (s : TcpSocket) (r : Returned) (ec : CodeVal) :
    s.transfer r ec = (if (!s.opened || !s.connected) = true then -1 else toInt r.value,
      if (!s.opened || !s.connected) = true then .invalidArgument else ec) := by
  unfold TcpSocket.transfer
  split <;> rfl

theorem transfer_reports_iff (r : Returned) (hrefused : c.refused a = (!a.opened || !a.connected))
    (hknown : c.known = false) (hfits : c.fitsInt = decide (toInt r.value ≠ -1)) :
    Reports a c (some (a.toTcpSocket.transfer r .success).1) (a.toTcpSocket.transfer r .success).2 ↔
      c.translated a = true := by
  rw [transfer_eq]
  apply silent_reports_iff (!a.opened || !a.connected) hrefused hknown rfl
  intro h
  rw [hrefused] at h
  rw [if_neg (Bool.not_eq_true _ ▸ h), hfits]
  simp

theorem read_reports_iff (r : Returned) :
    Reports a (read r) (some (a.toTcpSocket.read r .success).1) (a.toTcpSocket.read r .success).2 ↔
      (read r).translated a = true :=
  transfer_reports_iff r rfl rfl rfl

theorem write_reports_iff (r : Returned) :
    Reports a (write r) (some (a.toTcpSocket.write r .success).1) (a.toTcpSocket.write r .success).2 ↔
      (write r).translated a = true :=
  transfer_reports_iff r rfl rfl rfl

/-- A context with what the handler has left in it, read by the coroutine. -/
theorem readUntil_waited {env : BufferEnv} {buffer : DynamicBuffer} {delim : List UInt8}
    {outcomes : List ReadResult} (ctx : ReadUntilContext) {ctx' : ReadUntilContext} (hnew : ctx.ret = 0)
    (hbuffer : ctx.buffer = buffer) (hleaves : Leaves env ctx outcomes ctx')
    (hrefused : (readUntil env true buffer delim outcomes).refused a = false) :
    Reports a (readUntil env true buffer delim outcomes) (some ctx'.ret)
        (if ctx'.ret < 0 then ctx'.ec else .success) ↔
      (readUntil env true buffer delim outcomes).translated a = true := by
  obtain ⟨last, hlast, hneg, hdone⟩ := hleaves
  rw [hnew, hbuffer, Int.zero_add] at hdone
  have hfails : lastFails outcomes = decide (last.value < 0) := by
    rw [lastFails, hlast, Option.any_some]
  have hfailed : (readUntil env true buffer delim outcomes).failed a =
      (decide (last.value < 0) || overflows env buffer outcomes) := by
    rw [failed, Bool.not_true, Bool.false_or, hfails]
  have hknown : (readUntil env true buffer delim outcomes).known =
      (!decide (last.value < 0) && overflows env buffer outcomes) := by
    rw [known, Bool.true_and, hfails]
  apply reports_iff_of
  · intro h
    rw [hrefused] at h
    cases h
  · intro _ hf
    rw [hknown]
    by_cases h0 : last.value < 0
    · -- `read` failed: `ec_` is what it was
      obtain ⟨hret, hec⟩ := hneg h0
      rw [decide_eq_true h0, hec, ite_self]
      rfl
    · obtain ⟨hec, hret⟩ := hdone (by omega)
      rw [hfailed, decide_eq_false h0, Bool.false_or] at hf
      have hfail : ctx'.ec.fail = true := by
        rw [hec]
        exact hf
      rw [hfail, if_pos rfl] at hret
      rw [hret, if_pos (by decide), hfail, decide_eq_false h0, hf]
      rfl
  · intro _ hf
    rw [hfailed, Bool.or_eq_false_iff, decide_eq_false_iff_not] at hf
    obtain ⟨hec, hret⟩ := hdone (by omega)
    have hfail : ctx'.ec.fail = false := by
      rw [hec]
      exact hf.2
    rw [hfail, if_neg Bool.false_ne_true] at hret
    rw [CodeVal.eq_success hfail, ite_self, hret, fitsInt]
    exact ⟨rfl, by simp⟩

theorem readUntil_reports_iff {env : BufferEnv} {coroutine : Bool} {buffer : DynamicBuffer}
    {delim : List UInt8} {outcomes : List ReadResult}
    (h : (readUntil env coroutine buffer delim outcomes).outcome a = some (ret, ec)) :
    Reports a (readUntil env coroutine buffer delim outcomes) ret ec ↔
      (readUntil env coroutine buffer delim outcomes).translated a = true := by
  obtain ⟨p, hp, hpair⟩ := Option.map_eq_some_iff.1 h
  obtain ⟨rfl, rfl⟩ := Prod.mk.inj hpair
  unfold TcpSocket.readUntil at hp
  by_cases hstate : (!a.opened || !a.connected) = true
  · rw [if_pos hstate] at hp
    obtain rfl := Option.some.inj hp
    apply reports_iff_of
    · exact fun _ => rfl
    · intro hrefused
      exact absurd hstate (Bool.not_eq_true _ ▸ hrefused)
    · intro hrefused
      exact absurd hstate (Bool.not_eq_true _ ▸ hrefused)
  · rw [if_neg hstate] at hp
    unfold smartReadUntilCall at hp
    cases coroutine with
    | false =>
      -- another thread: nothing is read
      obtain rfl := Option.some.inj hp
      apply reports_iff_of
      · intro hrefused
        exact absurd hrefused hstate
      · exact fun _ _ => rfl
      · intro _ hf
        cases hf
    | true =>
      rw [if_pos rfl] at hp
      obtain ⟨ctx', hawait, hctx⟩ := Option.map_eq_some_iff.1 hp
      rw [← hctx]
      apply readUntil_waited (.new a.socket buffer delim) rfl rfl
      · apply await_readUntil outcomes _ ctx' rfl _ hawait
        unfold toInt
        rfl
      · exact Bool.eq_false_iff.2 hstate

end

/-- **An operation reports failure exactly when it fails**, and no -1 is returned without it,
exactly when it was refused, or its call did not fail, or failed with an error it has a test for. -/
theorem outcome_reports_iff (a : Acceptor) (c : SocketCall) (ret : Option Int) (ec : CodeVal)
    (h : c.outcome a = some (ret, ec)) : Reports a c ret ec ↔ c.translated a = true := by
  cases c with
  | open_ r =>
    cases h
    exact open_reports_iff r
  | bind addr r =>
    cases h
    exact bind_reports_iff addr r
  | connect r =>
    cases h
    exact connect_reports_iff r
  | close r =>
    cases h
    exact close_reports_iff r
  | read r =>
    cases h
    exact read_reports_iff r
  | readUntil env coroutine buffer delim outcomes => exact readUntil_reports_iff h
  | write r =>
    cases h
    exact write_reports_iff r
  | listen r =>
    cases h
    exact listen_reports_iff r
  | accept peer r =>
    cases h
    exact accept_reports_iff peer r
  | setAddressReuse r =>
    cases h
    exact setAddressReuse_reports_iff r

/-- A socket that `open` and `bind` have been called on. -/
def boundSocket : Acceptor := ⟨⟨3, true, true, false⟩, false⟩

/-- A port that another socket listens on. -/
theorem outcome_reports_iff_inUse :
    Reports boundSocket (listen ⟨-1, EADDRINUSE⟩) none .addressInUse :=
  (outcome_reports_iff boundSocket (listen ⟨-1, EADDRINUSE⟩) none .addressInUse rfl).2 rfl

/-- **A connection that is refused** (`ECONNREFUSED`) leaves `ec` at `Success`. -/
theorem connect_refused_silent :
    (connect ⟨-1, 111⟩).outcome boundSocket = some (none, .success) ∧
      ¬ Reports boundSocket (connect ⟨-1, 111⟩) none .success := by
  refine ⟨rfl, fun h => ?_⟩
  have hfail := h.1.2 (Or.inr rfl)
  cases hfail

end SocketCall

end SmartRoutine
