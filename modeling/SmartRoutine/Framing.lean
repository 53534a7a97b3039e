import SmartRoutine.BufferFifo
import SmartRoutine.Lib.Delimited
import SmartRoutine.ReadUntil

/-!
# Reading delimited messages

A coroutine calls `smart_read_until`, consumes the first message of the readable section, and calls
again, always on one buffer.  The stream arrives in pieces, one for each report of the epoller.

* `UpToDate` — every message that has arrived in full has been consumed.
* `step_spec` — one piece: the handler returns, and the coroutine is up to date after it **exactly**
  when the buffer takes the piece and only one message is complete then.
* `run_upToDate_iff` — the same for every run.
* `two_messages_wait` — two messages in one piece: the second one waits for a third to begin.

A call searches the readable section when a piece arrives, never when it begins.
-/

set_option autoImplicit false

namespace SmartRoutine

open Delimited Pattern

structure Reader where
  /-- The context of the call in which the coroutine waits. -/
  ctx : ReadUntilContext
  /-- What the stream has brought so far. -/
  arrived : List UInt8
  messages : List (List UInt8)

/-- The bytes in `tmp_buf`. -/
def ReadResult.data (r : ReadResult) : List UInt8 := r.bytes.getD []

namespace Reader

/-- The first call. -/
def start (fd : Int) (b : DynamicBuffer) (delim : List UInt8) : Reader :=
  ⟨.new fd b delim, b.contents, []⟩

/-- The next call. -/
def call (s : Reader) (b : DynamicBuffer) : Reader := { s with ctx := .new s.ctx.fd b s.ctx.delim }

/-- The next call, after a `consume` that left `r`. -/
def took (s : Reader) (r : DynamicBuffer × CodeVal × List UInt8) : Reader :=
  { s with messages := s.messages ++ [r.2.2] }.call r.1

/-- The coroutine consumes the first message, of length `n` with its delimiter, if there is one. -/
def consumeFirst (s : Reader) : Option Nat → Reader
  | some n => s.took (s.ctx.buffer.consume n .success)
  | none => s.call s.ctx.buffer

/-- The call has returned. -/
def resumed (s : Reader) : Reader :=
  s.consumeFirst (firstMessage s.ctx.delim s.ctx.buffer.contents)

/-- The handler has been dispatched, and has resumed the coroutine or not. -/
def dispatched (s : Reader) (data : List UInt8) : ReadUntilContext × Bool → Reader
  | (ctx, true) => resumed ⟨ctx, s.arrived ++ data, s.messages⟩
  | (ctx, false) => ⟨ctx, s.arrived ++ data, s.messages⟩

/-- A report of the epoller, with the outcome of `read`: a piece of the stream, its end, or an
error. -/
def step (env : BufferEnv) (s : Reader) (r : ReadResult) : Option Reader :=
  (smartReadUntilImpl env s.ctx r).map (s.dispatched r.data)

/-- Every message that has arrived in full has been consumed. -/
def UpToDate (delim : List UInt8) (s : Reader) : Prop :=
  Framed delim s.arrived s.messages s.ctx.buffer.contents

/-- The buffer takes what arrives, and at most one message is complete then. -/
def oneAtATime (env : BufferEnv) (s : Reader) (r : ReadResult) : Bool :=
  s.ctx.buffer.hasRoom env r.data.length && single s.ctx.delim (s.ctx.buffer.contents ++ r.data)

/-- After one read more `partial_search`, which counts on `unsigned int`, can still count the
readable section. -/
def searchable (s : Reader) : Bool := s.ctx.buffer.contents.length + 64 < 2 ^ 32

/-- A call in which a coroutine waits, when `a` bytes have been appended to the buffer so far. -/
structure Waiting (i a : Nat) (delim : List UInt8) (ctx : ReadUntilContext) : Prop where
  searched : Searched ctx i a ctx.buffer.contents
  delim_eq : ctx.delim = delim
  ec_eq : ctx.ec = .success

section

variable {env : BufferEnv} {s s' : Reader} {r : ReadResult} {b : DynamicBuffer} {delim : List UInt8}
  {i a n : Nat}

/-! ## A call begins -/

theorem new_buffer (fd : Int) (b : DynamicBuffer) (delim : List UInt8) :
    (ReadUntilContext.new fd b delim).buffer = b := rfl

theorem new_waiting (fd : Int) (hrange : b.InRange i a) :
    Waiting i a delim (.new fd b delim) := by
  refine ⟨⟨?_, rfl, skipped_zero _ _⟩, rfl, rfl⟩
  rw [new_buffer]
  exact hrange

theorem call_ctx : (s.call b).ctx = .new s.ctx.fd b s.ctx.delim := rfl

theorem resumed_none (h : firstMessage s.ctx.delim s.ctx.buffer.contents = none) :
    s.resumed = s.call s.ctx.buffer := by
  rw [resumed, h, consumeFirst]

/-- **The first message is delivered, and the next call starts with what is left.** -/
theorem resumed_some (hrange : s.ctx.buffer.InRange i a) (ha : a < 2 ^ 63)
    (h : firstMessage s.ctx.delim s.ctx.buffer.contents = some n) :
    ∃ b, b.InRange i a ∧ b.contents = s.ctx.buffer.contents.drop n ∧
      s.resumed = { s with messages := s.messages ++ [s.ctx.buffer.contents.take n] }.call b := by
  obtain ⟨hle, -, -⟩ := firstMessage_eq_some.1 h
  obtain ⟨-, hlt⟩ | ⟨hrange', hout, -, hcont⟩ :=
    DynamicBuffer.consume_contents .success hrange ha n
  · omega
  · refine ⟨_, hrange', hcont, ?_⟩
    rw [resumed, h, consumeFirst, took, hout]

theorem resumed_waiting (hrange : s.ctx.buffer.InRange i a) (ha : a < 2 ^ 63)
    (hdelim : s.ctx.delim = delim) : Waiting i a delim s.resumed.ctx := by
  cases h : firstMessage s.ctx.delim s.ctx.buffer.contents with
  | none =>
    rw [resumed_none h, call_ctx, hdelim]
    exact new_waiting _ hrange
  | some n =>
    obtain ⟨b, hrange', -, hresumed⟩ := resumed_some hrange ha h
    rw [hresumed, call_ctx, hdelim]
    exact new_waiting _ hrange'

theorem call_arrived : (s.call b).arrived = s.arrived := rfl

theorem call_messages : (s.call b).messages = s.messages := rfl

/-- **A call returns with a message**: the coroutine is up to date when it calls again exactly when
no second message is complete. -/
theorem resumed_upToDate_iff {stream ys : List UInt8} (hrange : s.ctx.buffer.InRange i a)
    (ha : a < 2 ^ 63) (hdelim : s.ctx.delim = delim) {rest : List UInt8}
    (h : Framed delim stream s.messages rest) (harrived : s.arrived = stream ++ ys)
    (hcont : s.ctx.buffer.contents = rest ++ ys) (hfound : delim <:+: rest ++ ys) :
    UpToDate delim s.resumed ↔ single delim (rest ++ ys) = true := by
  cases hfirst : firstMessage delim (rest ++ ys) with
  | none => exact absurd hfound (firstMessage_eq_none.1 hfirst)
  | some n =>
    obtain ⟨b, -, hdrop, hresumed⟩ := resumed_some (n := n) hrange ha (by rw [hdelim, hcont, hfirst])
    rw [UpToDate, hresumed, call_ctx, new_buffer, call_arrived, call_messages, hdrop, hcont, harrived]
    exact h.grow_iff hfirst

/-- A call returns, and its coroutine had nothing left to consume. -/
theorem resumed_open (hopen : ¬ s.ctx.delim <:+: s.ctx.buffer.contents) :
    UpToDate delim s.resumed ↔ Framed delim s.arrived s.messages s.ctx.buffer.contents := by
  rw [UpToDate, resumed_none (firstMessage_eq_none.2 hopen), call_ctx, new_buffer, call_arrived,
    call_messages]

/-! ## A report -/

theorem dispatched_false (s : Reader) (data : List UInt8) (ctx : ReadUntilContext) :
    s.dispatched data (ctx, false) = ⟨ctx, s.arrived ++ data, s.messages⟩ := by
  rw [dispatched]

theorem dispatched_true (s : Reader) (data : List UInt8) (ctx : ReadUntilContext) :
    s.dispatched data (ctx, true) = resumed ⟨ctx, s.arrived ++ data, s.messages⟩ := by
  rw [dispatched]

theorem data_of_nonpos (h : r.value ≤ 0) : r.data = [] := by
  obtain ⟨_ | bytes, errno⟩ := r
  · rfl
  · have hlen : (bytes.length : Int) ≤ 0 := h
    show bytes = []
    apply List.length_eq_zero_iff.1
    omega

theorem Waiting.withRet {ctx : ReadUntilContext} (h : Waiting i a delim ctx) (ret : Int) :
    Waiting i a delim { ctx with ret := ret } :=
  ⟨⟨h.searched.range, rfl, h.searched.skipped⟩, h.delim_eq, h.ec_eq⟩

/-- Nothing has arrived: the call waits on, or returns to a coroutine that calls again. -/
theorem step_of_nonpos (hw : Waiting i a delim s.ctx) (ha : a < 2 ^ 63) (h : r.value ≤ 0) :
    ∃ s', step env s r = some s' ∧ Waiting i (a + r.data.length) delim s'.ctx ∧
      (UpToDate delim s → (UpToDate delim s' ↔ s.oneAtATime env r = true)) := by
  have hdata := data_of_nonpos h
  obtain ⟨ret, resume, himpl⟩ : ∃ ret resume,
      smartReadUntilImpl env s.ctx r = some ({ s.ctx with ret := ret }, resume) := by
    rw [smartReadUntilImpl_of_nonpos env s.ctx h]
    split
    · exact ⟨-1, true, rfl⟩
    · exact ⟨s.ctx.ret, _, rfl⟩
  refine ⟨s.dispatched [] ({ s.ctx with ret := ret }, resume), ?_, ?_, fun hup => ?_⟩
  · rw [step, himpl, hdata, Option.map_some]
  · rw [hdata, List.length_nil, Nat.add_zero]
    cases resume with
    | false =>
      rw [dispatched_false]
      exact hw.withRet ret
    | true =>
      rw [dispatched_true]
      exact resumed_waiting hw.searched.range ha hw.delim_eq
  · have hopen := hup.rest_open
    have hone : s.oneAtATime env r = true := by
      rw [oneAtATime, hdata, List.append_nil, List.length_nil, DynamicBuffer.hasRoom_zero, single, hw.delim_eq,
        firstMessage_eq_none.2 hopen]
      rfl
    refine iff_of_true ?_ hone
    cases resume with
    | false =>
      rw [dispatched_false, List.append_nil]
      exact hup
    | true =>
      rw [dispatched_true, resumed_open (by rw [hw.delim_eq]; exact hopen), List.append_nil]
      exact hup

theorem searched_self {ctx : ReadUntilContext} {text : List UInt8} (h : Searched ctx i a text) :
    Searched ctx i a ctx.buffer.contents :=
  ⟨h.range, rfl, by rw [h.contents]; exact h.skipped⟩

/-- A piece that the buffer takes. -/
theorem step_of_room (hi : i < 2 ^ 63) (hdelim : delim ≠ []) (hw : Waiting i a delim s.ctx)
    {bytes : List UInt8} (errno : Int) (hpos : 0 < bytes.length) (hmax : bytes.length ≤ 64)
    (ha : a + bytes.length < 2 ^ 63) (hlen : (s.ctx.buffer.contents ++ bytes).length < 2 ^ 32)
    (hroom : s.ctx.buffer.hasRoom env bytes.length = true) :
    ∃ s', step env s ⟨some bytes, errno⟩ = some s' ∧ Waiting i (a + bytes.length) delim s'.ctx ∧
      (UpToDate delim s → (UpToDate delim s' ↔
        single delim (s.ctx.buffer.contents ++ bytes) = true)) := by
  rw [List.length_append] at hlen
  obtain ⟨ctx', resume, added, himpl, hsearched, -, hdelim', hdone⟩ :=
    smartReadUntilImpl_chunk env errno hw.searched hi (by rw [hw.delim_eq]; exact hdelim) hpos hmax ha
      hlen
  rw [hw.delim_eq] at hdelim'
  have hec : ctx'.ec = .success := by
    obtain ⟨-, hec, -⟩ := smartReadUntilImpl_append hpos hmax himpl
    rw [hec, hw.ec_eq, DynamicBuffer.append_ec, if_pos hroom]
  obtain ⟨-, rfl, hresume⟩ := hdone hec
  rw [hw.delim_eq] at hresume
  refine ⟨s.dispatched added (ctx', resume), ?_, ?_, fun hup => ?_⟩
  · rw [step, himpl, Option.map_some]
    rfl
  · cases resume with
    | false =>
      rw [dispatched_false]
      exact ⟨searched_self hsearched, hdelim', hec⟩
    | true =>
      rw [dispatched_true]
      exact resumed_waiting hsearched.range ha hdelim'
  · cases resume with
    | false =>
      have hopen : ¬ delim <:+: s.ctx.buffer.contents ++ added := fun hinfix =>
        Bool.false_ne_true (hresume.2 hinfix)
      rw [dispatched_false, single, firstMessage_eq_none.2 hopen]
      refine iff_of_true ?_ rfl
      rw [UpToDate, hsearched.contents]
      exact hup.grow hopen
    | true =>
      rw [dispatched_true]
      exact resumed_upToDate_iff hsearched.range ha hdelim' hup rfl hsearched.contents (hresume.1 rfl)

/-- A piece that the buffer refuses is lost. -/
theorem step_of_refused (hi : i < 2 ^ 63) (hdelim : delim ≠ []) (hw : Waiting i a delim s.ctx)
    {bytes : List UInt8} (errno : Int) (hpos : 0 < bytes.length) (hmax : bytes.length ≤ 64)
    (ha : a + bytes.length < 2 ^ 63) (hlen : (s.ctx.buffer.contents ++ bytes).length < 2 ^ 32)
    (hroom : s.ctx.buffer.hasRoom env bytes.length = false) :
    ∃ s', step env s ⟨some bytes, errno⟩ = some s' ∧ Waiting i (a + bytes.length) delim s'.ctx ∧
      (UpToDate delim s → ¬ UpToDate delim s') := by
  rw [List.length_append] at hlen
  obtain ⟨ctx', resume, added, himpl, hsearched, -, hdelim', -⟩ :=
    smartReadUntilImpl_chunk env errno hw.searched hi (by rw [hw.delim_eq]; exact hdelim) hpos hmax ha
      hlen
  rw [hw.delim_eq] at hdelim'
  have hexceeds : (s.ctx.buffer.append env bytes .success).2 = .exceedBufferBound := by
    rw [DynamicBuffer.append_ec, hroom, if_neg Bool.false_ne_true]
  obtain ⟨hresume, hbuffer⟩ : resume = true ∧ ctx'.buffer = s.ctx.buffer := by
    obtain ⟨hbuffer, hec, -, hresume⟩ := smartReadUntilImpl_append hpos hmax himpl
    rw [hw.ec_eq] at hec hbuffer
    rw [hec, hexceeds] at hresume
    exact ⟨hresume rfl, hbuffer.trans (BufferHistory.append_of_exceeds hexceeds)⟩
  subst hresume
  refine ⟨s.dispatched bytes (ctx', true), ?_, ?_, fun hup => ?_⟩
  · rw [step, himpl, Option.map_some]
    rfl
  · rw [dispatched_true]
    exact resumed_waiting hsearched.range ha hdelim'
  · have hopen := hup.rest_open
    rw [dispatched_true, resumed_open]
    · show ¬ Framed delim (s.arrived ++ bytes) s.messages ctx'.buffer.contents
      rw [hbuffer]
      exact hup.not_lose (List.length_pos_iff.1 hpos)
    · show ¬ ctx'.delim <:+: ctx'.buffer.contents
      rw [hdelim', hbuffer]
      exact hopen

/-- **One report**: the handler returns, and the coroutine stays up to date exactly when the buffer
takes what arrives and at most one message is complete then. -/
theorem step_spec (hi : i < 2 ^ 63) (hdelim : delim ≠ []) (hw : Waiting i a delim s.ctx)
    (hread : r.value ≤ 64) (ha : a + r.data.length < 2 ^ 63) (hsearch : s.searchable = true) :
    ∃ s', step env s r = some s' ∧ Waiting i (a + r.data.length) delim s'.ctx ∧
      (UpToDate delim s → (UpToDate delim s' ↔ s.oneAtATime env r = true)) := by
  by_cases h : r.value ≤ 0
  · exact step_of_nonpos hw (by omega) h
  obtain ⟨_ | bytes, errno⟩ := r
  · exact absurd (by decide : (-1 : Int) ≤ 0) h
  have hpos : 0 < bytes.length := by
    have hvalue : ¬ (bytes.length : Int) ≤ 0 := h
    omega
  have hmax : bytes.length ≤ 64 := Int.ofNat_le.1 hread
  have hlen : (s.ctx.buffer.contents ++ bytes).length < 2 ^ 32 := by
    have hshort := of_decide_eq_true hsearch
    rw [List.length_append]
    omega
  cases hroom : s.ctx.buffer.hasRoom env bytes.length with
  | true =>
    obtain ⟨s', hstep, hw', hup⟩ := step_of_room hi hdelim hw errno hpos hmax ha hlen hroom
    refine ⟨s', hstep, hw', fun hs => ?_⟩
    rw [hup hs, oneAtATime, hw.delim_eq]
    show _ ↔ (s.ctx.buffer.hasRoom env bytes.length && _) = true
    rw [hroom, Bool.true_and]
    rfl
  | false =>
    obtain ⟨s', hstep, hw', hup⟩ := step_of_refused hi hdelim hw errno hpos hmax ha hlen hroom
    refine ⟨s', hstep, hw', fun hs => iff_of_false (hup hs) ?_⟩
    rw [oneAtATime]
    show ¬ (s.ctx.buffer.hasRoom env bytes.length && _) = true
    rw [hroom, Bool.false_and]
    exact Bool.false_ne_true

/-! ## Runs -/

/-- What a run needs of the reports still to come. -/
structure Ahead (env : BufferEnv) (i : Nat) (delim : List UInt8) (s : Reader)
    (outcomes : List ReadResult) : Prop where
  waiting : ∃ a, Waiting i a delim s.ctx ∧
    a + (outcomes.map fun r => r.data.length).sum < 2 ^ 63
  reads : ∀ r ∈ outcomes, r.value ≤ 64
  sections : Transition.Always (step env) (fun s => s.searchable = true) s outcomes

theorem Ahead.step_spec {rs : List ReadResult} (hi : i < 2 ^ 63) (hdelim : delim ≠ [])
    (h : Ahead env i delim s (r :: rs)) :
    ∃ s', step env s r = some s' ∧ Ahead env i delim s' rs ∧
      (UpToDate delim s → (UpToDate delim s' ↔ s.oneAtATime env r = true)) := by
  obtain ⟨⟨a, hw, ha⟩, hreads, hsections⟩ := h
  rw [List.map_cons, List.sum_cons] at ha
  obtain ⟨s', hstep, hw', hup⟩ := Reader.step_spec hi hdelim hw (hreads r List.mem_cons_self)
    (by omega) hsections.head
  refine ⟨s', hstep, ⟨⟨_, hw', by omega⟩, fun r' hr' => hreads r' (List.mem_cons_of_mem r hr'), ?_⟩, hup⟩
  simp only [Transition.Always, hstep] at hsections
  exact hsections.2

end

/-- **A coroutine that reads delimited messages is never stuck in a handler, and gets each message
with its last byte**, exactly when no message is complete in the buffer it starts with, the buffer
takes all that arrives, and no piece of the stream leaves two messages complete. -/
theorem run_upToDate_iff (env : BufferEnv) (maxCapacity initCapacity : Nat) (ops : List BufferOp)
    (b : DynamicBuffer) (fd : Int) (delim : List UInt8) (outcomes : List ReadResult)
    (hmax : maxCapacity < 2 ^ 64) (hinit : initCapacity < 2 ^ 63)
    (hbuffer : Transition.exec (DynamicBuffer.step env) (.new env maxCapacity initCapacity) ops = some b)
    (hdelim : delim ≠ []) (hreads : ∀ r ∈ outcomes, r.value ≤ 64)
    (htotal : (ops.map BufferOp.added).sum + (outcomes.map fun r => r.data.length).sum < 2 ^ 63)
    (hsections : Transition.Always (step env) (fun s => s.searchable = true) (start fd b delim) outcomes) :
    (∃ s, Transition.exec (step env) (start fd b delim) outcomes = some s) ∧
      (Transition.Always (step env) (UpToDate delim) (start fd b delim) outcomes ↔
        firstMessage delim b.contents = none ∧
          Transition.Guarded (step env) (fun s r => s.oneAtATime env r = true) (start fd b delim)
            outcomes) := by
  have hrange : b.InRange initCapacity (ops.map BufferOp.added).sum := by
    have hreached := DynamicBuffer.run_inRange hinit ops _ b 0
      (DynamicBuffer.new_inRange env hmax initCapacity) (by omega) hbuffer
    rwa [Nat.zero_add] at hreached
  have hahead : Ahead env initCapacity delim (start fd b delim) outcomes :=
    ⟨⟨_, new_waiting fd hrange, htotal⟩, hreads, hsections⟩
  have hnext := fun s r rs (h : Ahead env initCapacity delim s (r :: rs)) =>
    h.step_spec hinit hdelim
  have hstart : UpToDate delim (start fd b delim) ↔ firstMessage delim b.contents = none := by
    rw [firstMessage_eq_none]
    exact ⟨fun h => h.rest_open, framed_nil⟩
  have hruns : UpToDate delim (start fd b delim) →
      (Transition.Always (step env) (UpToDate delim) (start fd b delim) outcomes ↔
        Transition.Guarded (step env) (fun s r => s.oneAtATime env r = true) (start fd b delim)
          outcomes) := by
    apply Transition.always_iff_guarded_ahead _ _ outcomes _ hahead
    · intro s r rs s' h _ hstep _
      obtain ⟨t, hstep', h', -⟩ := hnext s r rs h
      cases hstep.symm.trans hstep'
      exact h'
    · intro s r rs s' h hup hstep
      obtain ⟨t, hstep', -, hiff⟩ := hnext s r rs h
      cases hstep.symm.trans hstep'
      exact hiff hup
  refine ⟨?_, fun h => ?_, fun h => ?_⟩
  · apply Transition.exec_total _ outcomes _ hahead
    intro s r rs h
    obtain ⟨s', hstep, h', -⟩ := hnext s r rs h
    exact ⟨s', hstep, h'⟩
  · have hup := h.head
    exact ⟨hstart.1 hup, (hruns hup).1 h⟩
  · exact (hruns (hstart.2 h.1)).2 h.2

/-- A message in two pieces, the second of which begins the next one. -/
theorem run_upToDate_iff_pieces :
    Transition.Always (step DynamicBuffer.defaultEnv) (UpToDate [13, 10])
      (start 5 (.new DynamicBuffer.defaultEnv 64 64) [13, 10])
      [⟨some [1, 13], 0⟩, ⟨none, EWOULDBLOCK⟩, ⟨some [10, 2], 0⟩] :=
  (run_upToDate_iff DynamicBuffer.defaultEnv 64 64 [] (.new DynamicBuffer.defaultEnv 64 64) 5 [13, 10]
    [⟨some [1, 13], 0⟩, ⟨none, EWOULDBLOCK⟩, ⟨some [10, 2], 0⟩] (by decide) (by decide) rfl (by decide)
    (by decide) (by decide) (by decide +kernel)).2.2 ⟨by decide +kernel, by decide +kernel⟩

/-- **Two messages in one piece**: the first is consumed, and the call for the second waits. -/
theorem two_messages_wait :
    ¬ Transition.Always (step DynamicBuffer.defaultEnv) (UpToDate [10])
      (start 5 (.new DynamicBuffer.defaultEnv 64 64) [10]) [⟨some [1, 10, 2, 10], 0⟩] := by
  intro halways
  have hleft : (Transition.exec (step DynamicBuffer.defaultEnv)
      (start 5 (.new DynamicBuffer.defaultEnv 64 64) [10]) [⟨some [1, 10, 2, 10], 0⟩]).map
        (fun s => s.ctx.buffer.contents) = some [2, 10] := by decide +kernel
  obtain ⟨s, hrun, hcontents⟩ := Option.map_eq_some_iff.1 hleft
  have hopen := (Transition.always_iff_prefix.1 halways _ [] s (List.append_nil _).symm hrun).rest_open
  rw [hcontents] at hopen
  exact hopen (by decide)

end Reader

end SmartRoutine
