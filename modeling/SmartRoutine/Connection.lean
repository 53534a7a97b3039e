import SmartRoutine.Completion

/-!
# One direction of a connection

A coroutine that calls `smart_write` any number of times, a coroutine that calls `smart_read` any
number of times on the other end, and between them the kernel's bounded buffer.  Each call is a
`Transfer`: the dispatches of its handler, whose system calls move some bytes, fail or find the
descriptor not ready, in any interleaving.

* `Pipe` — the kernel's side: what `write` and `read` can answer.
* `Caller` — one end: the calls that have returned, and the one in flight.
* `step_inv` — the reader's bytes and those in flight are the writer's, in order.
* `run_stream` — what the two sequences of calls return, and what the reads leave in their buffers.
* `run_progress` — dispatches that move bytes are finitely many, and where there is none a parked
  call waits for bytes that no write has been called with, or for room that no read has made.
-/

set_option autoImplicit false

namespace SmartRoutine

/-! ## The kernel's side -/

structure Pipe where
  capacity : Nat
  inFlight : List UInt8
  /-- The writer's end has been shut down. -/
  shut : Bool
  /-- The connection has been reset, and what was in flight is lost. -/
  reset : Bool

/-- What a system call on a non-blocking socket can come to. -/
inductive Answer where
  | moves (n : Nat)
  /-- `EWOULDBLOCK`. -/
  | blocks
  | fails (errno : Int)
  deriving DecidableEq, Repr

namespace Pipe

def room (p : Pipe) : Nat := p.capacity - p.inFlight.length

/-- Nothing is in flight, and nothing will be. -/
def Ended (p : Pipe) : Prop := (p.shut = true ∨ p.reset = true) ∧ p.inFlight = []

instance Ended.decidable (p : Pipe) : Decidable p.Ended := inferInstanceAs (Decidable (_ ∧ _))

/-- `write` of a request in `buf`; 0 is its answer to an empty request only. -/
def write (p : Pipe) (buf : Nat → UInt8) (req : Request) : Answer → Option (CallResult × Pipe)
  | .moves n =>
    if p.shut = false ∧ p.reset = false ∧ n ≤ req.length ∧ n ≤ p.room ∧ n ≤ maxTransfer ∧
        (n = 0 → req.length = 0) then
      some (⟨some n, 0⟩, { p with inFlight := p.inFlight ++ Memory.slice buf req.offset n })
    else none
  | .blocks => some (⟨none, EWOULDBLOCK⟩, p)
  | .fails errno => if errno ≠ EWOULDBLOCK then some (⟨none, errno⟩, p) else none

/-- `read` of a request; 0 is its answer to an empty request and at end of file. -/
def read (p : Pipe) (req : Request) : Answer → Option (ReadResult × Pipe)
  | .moves n =>
    if n ≤ req.length ∧ n ≤ p.inFlight.length ∧ n ≤ maxTransfer ∧
        (n = 0 → req.length = 0 ∨ p.Ended) then
      some (⟨some (p.inFlight.take n), 0⟩, { p with inFlight := p.inFlight.drop n })
    else none
  | .blocks => some (⟨none, EWOULDBLOCK⟩, p)
  | .fails errno => if errno ≠ EWOULDBLOCK then some (⟨none, errno⟩, p) else none

end Pipe

/-! ## The calls of one end -/

structure Caller (σ : Type) where
  fd : Int
  /-- The calls that have returned, oldest first: the context each began with, and its end. -/
  returned : List (σ × Transfer σ)
  current : Option (σ × Transfer σ)

namespace Caller

variable {σ ρ : Type}

def calls (c : Caller σ) : List (σ × Transfer σ) := c.returned ++ c.current.toList

/-- The bytes that the calls have moved. -/
def stream (c : Caller σ) : List UInt8 := c.calls.flatMap fun p => p.2.stream

def begin (c : Caller σ) (ctx : σ) : Option (Caller σ) :=
  if c.current.isSome then none else some { c with current := some (ctx, .start ctx) }

/-- A resumed coroutine returns from its call. -/
def settle (c : Caller σ) (ctx : σ) (t : Transfer σ) : Caller σ :=
  if t.resumed then { c with returned := c.returned ++ [(ctx, t)], current := none }
  else { c with current := some (ctx, t) }

/-- One dispatch, with the system call that its handler makes. -/
def dispatch (C : Channel σ ρ) (c : Caller σ) (syscall : σ → Option (ρ × Pipe)) :
    Option (Pipe × Caller σ) :=
  match c.current with
  | none => none
  | some (ctx, t) =>
    match syscall t.ctx with
    | none => none
    | some (r, pipe) => (Transfer.step C t r).map fun t' => (pipe, c.settle ctx t')

end Caller

structure Connection where
  pipe : Pipe
  writer : Caller WriteContext
  reader : Caller ReadContext

inductive ConnectionLabel where
  | smartWrite (buf : Nat → UInt8) (count : Nat)
  | smartRead (buf : Nat → UInt8) (count : Nat)
  | writeReady (a : Answer)
  | readReady (a : Answer)
  | shutdown
  | reset

/-- A dispatch that moves bytes. -/
def ConnectionLabel.moving : ConnectionLabel → Bool
  | .writeReady (.moves n) => 0 < n
  | .readReady (.moves n) => 0 < n
  | _ => false

/-- A call of one of the two ends. -/
def ConnectionLabel.begins : ConnectionLabel → Bool
  | .smartWrite _ _ | .smartRead _ _ => true
  | _ => false

namespace Connection

/-- A call asks for no more than `SSIZE_MAX` bytes. -/
def step (s : Connection) : ConnectionLabel → Option Connection
  | .smartWrite buf count =>
    if count < 2 ^ 63 then
      (s.writer.begin (.new s.writer.fd buf count)).map fun w => { s with writer := w }
    else none
  | .smartRead buf count =>
    if count < 2 ^ 63 then
      (s.reader.begin (.new s.reader.fd buf count)).map fun r => { s with reader := r }
    else none
  | .writeReady a =>
    (s.writer.dispatch writeChannel fun ctx =>
      s.pipe.write ctx.buf (writeChannel.request ctx) a).map fun p => ⟨p.1, p.2, s.reader⟩
  | .readReady a =>
    (s.reader.dispatch readChannel fun ctx =>
      s.pipe.read (readChannel.request ctx) a).map fun p => ⟨p.1, s.writer, p.2⟩
  | .shutdown => some { s with pipe := { s.pipe with shut := true } }
  | .reset => some { s with pipe := { s.pipe with reset := true, inFlight := [] } }

def established (writerFd readerFd : Int) (capacity : Nat) : Connection :=
  ⟨⟨capacity, [], false, false⟩, ⟨writerFd, [], none⟩, ⟨readerFd, [], none⟩⟩

end Connection

/-! ## One dispatch of a call -/

namespace Branch

variable {zero : Bool} {value errno : Int} {count ret ret' : Nat} {resumed : Bool}

/-- A call that is resumed without a failure has nothing left to do, or has seen the end. -/
theorem done_of_resumed (h : Branch zero value errno count ret ret' resumed) (hb : resumed = true)
    (hok : ¬ (value < 0 ∧ errno ≠ EWOULDBLOCK)) : ret' = count ∨ zero = true ∧ value = 0 := by
  cases h with
  | moved => exact .inl (of_decide_eq_true hb)
  | failed hneg he => exact absurd ⟨hneg, he⟩ hok
  | again => cases hb
  | zero h0 => exact .inr ⟨hb, h0⟩

/-- A parked call reaches the end only where it stands there already. -/
theorem eq_of_parked (h : Branch zero value errno count ret ret' resumed) (hb : resumed = false)
    (hend : ret' = count) : ret = count := by
  cases h with
  | moved => exact absurd hend (of_decide_eq_false hb)
  | failed => cases hb
  | again => exact hend
  | zero => exact hend

end Branch

section

variable {σ ρ : Type} {C : Channel σ ρ} {zero : Bool} {ctx : σ} {t t' : Transfer σ} {r : ρ}

/-- What holds of every call, from its start to its end. -/
structure CallOk (C : Channel σ ρ) (ctx : σ) (t : Transfer σ) : Prop where
  ret_zero : C.ret ctx = 0
  count_lt : C.count ctx < 2 ^ 63
  inv : Transfer.Inv C ctx t

/-- A channel whose handler has the branches of `smart_read_impl` or of `smart_write_impl`. -/
structure Channel.Handles (C : Channel σ ρ) (zero : Bool) : Prop where
  moves : C.Moves
  branches : Branches C.op zero C.count C.ret C.value C.errno

theorem readChannel_handles : readChannel.Handles true := ⟨readChannel_moves, smartRead_branches⟩

theorem writeChannel_handles : writeChannel.Handles false := ⟨writeChannel_moves, smartWrite_branches⟩

/-- What one dispatch keeps of a call, and when the call returns. -/
theorem CallOk.step (hC : C.Handles zero) (h : CallOk C ctx t) (hres : t.resumed = false)
    (hallowed : C.allowed t.ctx r = true) (hstep : Transfer.step C t r = some t') :
    CallOk C ctx t' ∧ t'.stream = t.stream ++ C.moved t.ctx r ∧
      (t'.resumed = true → t'.failed = false →
        t'.stream.length = C.count ctx ∨ zero = true ∧ C.value r = 0) ∧
      (t'.resumed = false → t'.stream.length = C.count ctx → t.stream.length = C.count ctx) := by
  have hcount := h.count_lt
  have hinv := Transfer.step_inv (hC.moves.sound hC.branches) (by omega) h.inv hallowed hstep
  obtain ⟨ctx', b, hhandler, -, hbranch⟩ := hC.branches.handler t.ctx r
  rw [toInt_of_lt (hC.branches.value r) (Channel.allowed_iff.1 hallowed).2, h.inv.count_eq,
    h.inv.ret_of_parked hres] at hbranch
  rw [Transfer.step_of_parked hres hhandler] at hstep
  obtain rfl := Option.some.inj hstep
  refine ⟨⟨h.ret_zero, hcount, hinv⟩, rfl, fun hb hok => ?_, fun hb hend => ?_⟩
  · have hret := hinv.ret_eq
    rw [hok, if_neg Bool.false_ne_true] at hret
    rw [← hret]
    refine hbranch.done_of_resumed hb fun hfails => ?_
    exact Bool.false_ne_true (hok.symm.trans (Channel.fails_iff.2 hfails))
  · have hret := hinv.ret_of_parked hb
    exact hbranch.eq_of_parked hb (hret.trans hend)

/-- A request is empty only when nothing is left. -/
theorem CallOk.full_of_empty (h : CallOk C ctx t) (hres : t.resumed = false) (h' : CallOk C ctx t')
    (hstream : t'.stream = t.stream ++ C.moved t.ctx r) (hnone : (C.request t.ctx).length = 0) :
    t'.stream.length = C.count ctx := by
  have hfits := h.inv.fits
  have hfits' := h'.inv.fits
  have hlt := h.count_lt
  have hlen := congrArg List.length hstream
  rw [List.length_append] at hlen
  rw [Channel.request, h.inv.count_eq, h.inv.ret_of_parked hres, sub64_of_le (by omega) hfits] at hnone
  dsimp only at hnone
  omega

/-- The value that a call returns. -/
theorem CallOk.value (h : CallOk C ctx t) : (t.failed = true ∧ toSsize (C.ret t.ctx) = -1) ∨
    (t.failed = false ∧ C.ret t.ctx = t.stream.length ∧ toSsize (C.ret t.ctx) = t.stream.length) := by
  have hret := h.inv.ret_eq
  have hfits := h.inv.fits
  have hlt := h.count_lt
  cases hf : t.failed with
  | true =>
    rw [hf, if_pos rfl] at hret
    exact .inl ⟨rfl, (toSsize_eq_neg_one (by omega)).2 hret⟩
  | false =>
    rw [hf, if_neg Bool.false_ne_true] at hret
    refine .inr ⟨rfl, hret, ?_⟩
    unfold toSsize
    rw [Int.bmod_eq_of_le (by omega) (by omega), hret]

end

/-! ## One end -/

namespace Caller

variable {σ ρ : Type} {C : Channel σ ρ} {zero : Bool} {c c' : Caller σ} {ctx : σ} {t : Transfer σ}

/-- `ended` is what a call has seen that returns before its end. -/
structure Inv (C : Channel σ ρ) (ended : Prop) (c : Caller σ) : Prop where
  ok : ∀ p ∈ c.calls, CallOk C p.1 p.2
  returned : ∀ p ∈ c.returned, p.2.failed = false → p.2.stream.length = C.count p.1 ∨ ended
  current : ∀ p ∈ c.current, p.2.resumed = false ∧
    (p.2.stream.length = C.count p.1 → C.count p.1 = 0)

theorem Inv.mono {ended ended' : Prop} (h : Inv C ended c) (himp : ended → ended') : Inv C ended' c :=
  ⟨h.ok, fun p hp hok => (h.returned p hp hok).imp_right himp, h.current⟩

theorem calls_of_current (hc : c.current = some (ctx, t)) : c.calls = c.returned ++ [(ctx, t)] := by
  rw [calls, hc, Option.toList_some]

theorem mem_calls_of_current (hc : c.current = some (ctx, t)) : (ctx, t) ∈ c.calls := by
  rw [calls_of_current hc]
  exact List.mem_append_right _ (List.mem_singleton_self _)

/-- The call in flight. -/
theorem Inv.inFlight {ended : Prop} (h : Inv C ended c) (hc : c.current = some (ctx, t)) :
    CallOk C ctx t ∧ t.resumed = false ∧ (t.stream.length = C.count ctx → C.count ctx = 0) :=
  ⟨h.ok _ (mem_calls_of_current hc), h.current (ctx, t) (by rw [hc]; exact rfl)⟩

theorem calls_of_idle (hc : c.current = none) : c.calls = c.returned := by
  rw [calls, hc, Option.toList_none, List.append_nil]

@[simp] theorem calls_settle : (c.settle ctx t).calls = c.returned ++ [(ctx, t)] := by
  unfold settle calls
  cases t.resumed <;> simp

theorem stream_of_current (hc : c.current = some (ctx, t)) :
    c.stream = (c.returned.flatMap fun p => p.2.stream) ++ t.stream := by
  rw [stream, calls_of_current hc, List.flatMap_append, List.flatMap_singleton]

theorem stream_settle :
    (c.settle ctx t).stream = (c.returned.flatMap fun p => p.2.stream) ++ t.stream := by
  rw [stream, calls_settle, List.flatMap_append, List.flatMap_singleton]

/-- A new call has moved nothing yet. -/
theorem begin_spec (h : c.begin ctx = some c') :
    c'.calls = c.calls ++ [(ctx, .start ctx)] ∧ c'.returned = c.returned ∧
      c'.current = some (ctx, .start ctx) ∧ c'.stream = c.stream := by
  unfold begin at h
  split at h
  · cases h
  · rename_i hnone
    have hidle : c.current = none := by simpa using hnone
    obtain rfl := Option.some.inj h
    refine ⟨?_, rfl, rfl, ?_⟩
    · rw [calls_of_idle hidle, calls, Option.toList_some]
    · rw [stream_of_current rfl, stream, calls_of_idle hidle]
      exact List.append_nil _

theorem Inv.begin {ended : Prop} (h : Inv C ended c) (hbegin : c.begin ctx = some c')
    (hret : C.ret ctx = 0) (hcount : C.count ctx < 2 ^ 63) : Inv C ended c' := by
  obtain ⟨hcalls, hreturned, hcurrent, -⟩ := begin_spec hbegin
  refine ⟨fun p hp => ?_, ?_, fun p hp => ?_⟩
  · rw [hcalls, List.mem_append, List.mem_singleton] at hp
    rcases hp with hp | rfl
    · exact h.ok p hp
    · exact ⟨hret, hcount, Transfer.start_inv hret⟩
  · rw [hreturned]
    exact h.returned
  · rw [hcurrent, Option.mem_some_iff] at hp
    obtain rfl := hp
    exact ⟨rfl, fun h => h.symm⟩

theorem dispatch_cases {syscall : σ → Option (ρ × Pipe)} {pipe : Pipe}
    (h : c.dispatch C syscall = some (pipe, c')) :
    ∃ ctx t r t', c.current = some (ctx, t) ∧ syscall t.ctx = some (r, pipe) ∧
      Transfer.step C t r = some t' ∧ c' = c.settle ctx t' := by
  unfold dispatch at h
  split at h
  · cases h
  · rename_i ctx t hcurrent
    split at h
    · cases h
    · rename_i r pipe' hcall
      obtain ⟨t', ht', heq⟩ := Option.map_eq_some_iff.1 h
      obtain ⟨rfl, rfl⟩ := Prod.mk.inj heq
      exact ⟨ctx, t, r, t', hcurrent, hcall, ht', rfl⟩

/-- **One dispatch** of the call in flight. -/
theorem Inv.dispatch {ended ended' : Prop} {r : ρ} {t' : Transfer σ} (hC : C.Handles zero)
    (h : Inv C ended c) (hcurrent : c.current = some (ctx, t)) (hallowed : C.allowed t.ctx r = true)
    (hstep : Transfer.step C t r = some t') (himp : ended → ended')
    (hzero : zero = true → C.value r = 0 → (C.request t.ctx).length = 0 ∨ ended') :
    Inv C ended' (c.settle ctx t') ∧ (c.settle ctx t').stream = c.stream ++ C.moved t.ctx r := by
  obtain ⟨hold, hpark, hend⟩ := h.inFlight hcurrent
  obtain ⟨hok, hstream, hdone, hgoes⟩ := hold.step hC hpark hallowed hstep
  have hreturned := (h.mono himp).returned
  refine ⟨⟨fun p hp => ?_, fun p hp => ?_, fun p hp => ?_⟩, ?_⟩
  · rw [calls_settle, List.mem_append, List.mem_singleton] at hp
    rcases hp with hp | rfl
    · exact h.ok p (List.mem_append_left _ hp)
    · exact hok
  · unfold settle at hp
    split at hp
    · rename_i hres
      rcases List.mem_append.1 hp with hp | hp
      · exact hreturned p hp
      · obtain rfl := List.mem_singleton.1 hp
        intro hf
        rcases hdone hres hf with hfull | ⟨hz, h0⟩
        · exact .inl hfull
        · exact (hzero hz h0).imp_left fun hnone => hold.full_of_empty hpark hok hstream hnone
    · exact hreturned p hp
  · unfold settle at hp
    split at hp
    · cases hp
    · rename_i hres
      obtain rfl := Option.mem_some_iff.1 hp
      have hparked : t'.resumed = false := by simpa using hres
      exact ⟨hparked, fun hlen => hend (hgoes hparked hlen)⟩
  · rw [stream_settle, hstream, stream_of_current hcurrent, List.append_assoc]

/-- The bytes that the call in flight has still to move. -/
def left (C : Channel σ ρ) (c : Caller σ) : Nat :=
  c.current.elim 0 fun p => C.count p.1 - p.2.stream.length

/-- A dispatch that moves bytes brings the call nearer to its end, and none takes it back. -/
theorem Inv.left_add_le {ended : Prop} {r : ρ} {t' : Transfer σ} (hC : C.Handles zero)
    (h : Inv C ended c) (hcurrent : c.current = some (ctx, t)) (hallowed : C.allowed t.ctx r = true)
    (hstep : Transfer.step C t r = some t') :
    (c.settle ctx t').left C + (C.moved t.ctx r).length ≤ c.left C := by
  obtain ⟨hok, hpark, -⟩ := h.inFlight hcurrent
  obtain ⟨hok', hstream, -⟩ := hok.step hC hpark hallowed hstep
  have hlen := congrArg List.length hstream
  rw [List.length_append] at hlen
  have hfits := hok'.inv.fits
  have hold : c.left C = C.count ctx - t.stream.length := by rw [left, hcurrent, Option.elim_some]
  rw [hold]
  unfold left settle
  split
  · show 0 + _ ≤ _
    omega
  · show C.count ctx - t'.stream.length + _ ≤ _
    omega

/-- A call that is parked, and not for nothing, has something left. -/
theorem Inv.parked {ended : Prop} (h : Inv C ended c) (hcurrent : c.current = some (ctx, t))
    (hcount : 0 < C.count ctx) : t.resumed = false ∧ 0 < (C.request t.ctx).length ∧
      t.stream.length < C.count ctx := by
  obtain ⟨hok, hpark, hend⟩ := h.inFlight hcurrent
  have hlt := hok.count_lt
  have hfits := hok.inv.fits
  have hne : t.stream.length ≠ C.count ctx := fun heq => by
    have := hend heq
    omega
  rw [Channel.request, hok.inv.count_eq, hok.inv.ret_of_parked hpark, sub64_of_le (by omega) hfits]
  exact ⟨hpark, by dsimp only; omega, by omega⟩

/-- Every outcome is dispatched. -/
theorem dispatch_of_syscall (syscall : σ → Option (ρ × Pipe)) {pipe : Pipe} {r : ρ}
    (hC : C.Handles zero) (hcurrent : c.current = some (ctx, t)) (hpark : t.resumed = false)
    (hcall : syscall t.ctx = some (r, pipe)) : ∃ c', c.dispatch C syscall = some (pipe, c') := by
  obtain ⟨ctx', b, hhandler, -⟩ := hC.branches.handler t.ctx r
  have hstep := Transfer.step_of_parked hpark hhandler
  exact ⟨_, by simp only [dispatch, hcurrent, hcall, hstep, Option.map_some]; rfl⟩

end Caller

/-- `smart_write_impl` leaves the buffer as it is. -/
theorem Transfer.step_buf {t t' : Transfer WriteContext} {r : CallResult}
    (h : Transfer.step writeChannel t r = some t') : t'.ctx.buf = t.ctx.buf := by
  unfold Transfer.step at h
  split at h
  · cases h
  · obtain rfl := Option.some.inj h
    exact smartWriteImpl_buf t.ctx r

/-! ## The kernel's answers -/

theorem Channel.allowed_of_neg {σ ρ : Type} {C : Channel σ ρ} {ctx : σ} {r : ρ} (h : C.value r < 0) :
    C.allowed ctx r = true :=
  Channel.allowed_iff.2 ⟨by omega, by omega⟩

namespace Pipe

variable {p p' : Pipe} {a : Answer}

/-- What `write` takes goes behind what is in flight, if the writer's end is open. -/
theorem write_spec {ctx : WriteContext} {r : CallResult}
    (h : p.write ctx.buf (writeChannel.request ctx) a = some (r, p')) :
    writeChannel.allowed ctx r = true ∧
      p' = { p with inFlight := p.inFlight ++ writeChannel.moved ctx r } ∧
      (writeChannel.moved ctx r = [] ∨ p.shut = false ∧ p.reset = false ∧
        (writeChannel.moved ctx r).length ≤ p.room) ∧
      (∀ n, a = .moves n → (writeChannel.moved ctx r).length = n) := by
  have hmoved : ∀ e, writeChannel.moved ctx ⟨none, e⟩ = [] := fun _ => rfl
  cases a with
  | moves n =>
    rw [write] at h
    split at h
    · rename_i hcond
      obtain ⟨hshut, hreset, hlen, hroom, hmax, -⟩ := hcond
      obtain ⟨rfl, rfl⟩ := Prod.mk.inj (Option.some.inj h)
      refine ⟨Channel.allowed_iff.2 ⟨Int.ofNat_le.2 hlen, ?_⟩, rfl, .inr ⟨hshut, hreset, ?_⟩, ?_⟩
      · exact hmax.trans (by decide)
      · exact (Memory.length_slice ..).trans_le hroom
      · rintro _ ⟨⟩
        exact Memory.length_slice ..
    · cases h
  | blocks =>
    obtain ⟨rfl, rfl⟩ := Prod.mk.inj (Option.some.inj h)
    exact ⟨Channel.allowed_of_neg (Int.negSucc_lt_zero 0), by simp [hmoved],
      .inl (hmoved _), fun n hn => by cases hn⟩
  | fails errno =>
    rw [write] at h
    split at h
    · obtain ⟨rfl, rfl⟩ := Prod.mk.inj (Option.some.inj h)
      exact ⟨Channel.allowed_of_neg (Int.negSucc_lt_zero 0), by simp [hmoved],
        .inl (hmoved _), fun n hn => by cases hn⟩
    · cases h

/-- What `read` gives out is the front of what is in flight. -/
theorem read_spec {ctx : ReadContext} {r : ReadResult}
    (h : p.read (readChannel.request ctx) a = some (r, p')) :
    readChannel.allowed ctx r = true ∧ p' = { p with inFlight := p'.inFlight } ∧
      p.inFlight = readChannel.moved ctx r ++ p'.inFlight ∧
      (r.value = 0 → sub64 ctx.count ctx.ret = 0 ∨ p.Ended) ∧
      (∀ n, a = .moves n → (readChannel.moved ctx r).length = n) := by
  cases a with
  | moves n =>
    rw [read] at h
    split at h
    · rename_i hcond
      obtain ⟨hlen, hthere, hmax, hzero⟩ := hcond
      obtain ⟨rfl, rfl⟩ := Prod.mk.inj (Option.some.inj h)
      have hvalue : readChannel.value ⟨some (p.inFlight.take n), 0⟩ = n := by
        show ((p.inFlight.take n).length : Int) = n
        rw [List.length_take_of_le hthere]
      refine ⟨Channel.allowed_iff.2 ?_, rfl, (List.take_append_drop ..).symm, fun h0 => hzero ?_, ?_⟩
      · rw [hvalue]
        exact ⟨Int.ofNat_le.2 hlen, hmax.trans (by decide)⟩
      · have : (n : Int) = 0 := hvalue.symm.trans h0
        omega
      · rintro _ ⟨⟩
        exact List.length_take_of_le hthere
    · cases h
  | blocks =>
    obtain ⟨rfl, rfl⟩ := Prod.mk.inj (Option.some.inj h)
    exact ⟨Channel.allowed_of_neg (Int.negSucc_lt_zero 0), rfl, rfl,
      fun h0 => absurd h0 (by decide), fun n hn => by cases hn⟩
  | fails errno =>
    rw [read] at h
    split at h
    · obtain ⟨rfl, rfl⟩ := Prod.mk.inj (Option.some.inj h)
      exact ⟨Channel.allowed_of_neg (Int.negSucc_lt_zero 0), rfl, rfl,
        fun h0 => absurd h0 (by simp [ReadResult.value]), fun n hn => by cases hn⟩
    · cases h

end Pipe

/-! ## Steps -/

namespace Connection

variable {s s' : Connection} {capacity : Nat}

structure Inv (capacity : Nat) (s : Connection) : Prop where
  capacity_eq : s.pipe.capacity = capacity
  writer : s.writer.Inv writeChannel False
  /-- `smart_write` leaves the buffers as they are. -/
  unchanged : ∀ p ∈ s.writer.calls, p.2.ctx.buf = p.1.buf
  reader : s.reader.Inv readChannel s.pipe.Ended
  fits : s.pipe.inFlight.length ≤ capacity
  /-- What has been written has been read, is in flight or was lost when the connection was reset. -/
  flow : ∃ lost, s.writer.stream = s.reader.stream ++ (s.pipe.inFlight ++ lost) ∧
    (s.pipe.reset = false → lost = [])

theorem established_inv (writerFd readerFd : Int) (capacity : Nat) :
    Inv capacity (established writerFd readerFd capacity) where
  capacity_eq := rfl
  writer := ⟨by simp [established, Caller.calls], by simp [established], by simp [established]⟩
  unchanged := by simp [established, Caller.calls]
  reader := ⟨by simp [established, Caller.calls], by simp [established], by simp [established]⟩
  fits := Nat.zero_le _
  flow := ⟨[], rfl, fun _ => rfl⟩

/-- A dispatch of the writing end. -/
theorem writeReady_inv (h : Inv capacity s) {a : Answer} (hstep : step s (.writeReady a) = some s') :
    Inv capacity s' := by
  obtain ⟨⟨pipe, w⟩, hdispatch, rfl⟩ := Option.map_eq_some_iff.1 hstep
  obtain ⟨ctx, t, r, t', hcurrent, hcall, ht, rfl⟩ := Caller.dispatch_cases hdispatch
  obtain ⟨hallowed, rfl, hopen, -⟩ := Pipe.write_spec hcall
  obtain ⟨hw, hstream⟩ := h.writer.dispatch writeChannel_handles hcurrent hallowed ht id
    (fun hzero => Bool.noConfusion hzero)
  obtain ⟨lost, hflow, hlost⟩ := h.flow
  refine ⟨h.capacity_eq, hw, fun p hp => ?_, h.reader.mono fun hended => ⟨hended.1, ?_⟩, ?_, ?_⟩
  · rw [Caller.calls_settle, List.mem_append, List.mem_singleton] at hp
    rcases hp with hp | rfl
    · exact h.unchanged p (List.mem_append_left _ hp)
    · have hold := h.unchanged (ctx, t) (Caller.mem_calls_of_current hcurrent)
      exact (Transfer.step_buf ht).trans hold
  · rcases hopen with hnone | ⟨hshut, hreset, -⟩
    · show s.pipe.inFlight ++ _ = []
      rw [hnone, hended.2, List.append_nil]
    · exact absurd hended.1 (by simp [hshut, hreset])
  · show (s.pipe.inFlight ++ _).length ≤ capacity
    have hfits := h.fits
    have hcapacity := h.capacity_eq
    rw [List.length_append]
    rcases hopen with hnone | ⟨-, -, hroom⟩
    · rw [hnone]
      exact hfits
    · unfold Pipe.room at hroom
      omega
  · show ∃ lost, _ = s.reader.stream ++ (s.pipe.inFlight ++ _ ++ lost) ∧ _
    rw [hstream, hflow]
    rcases hopen with hnone | ⟨-, hreset, -⟩
    · exact ⟨lost, by simp [hnone], hlost⟩
    · exact ⟨[], by simp [hlost hreset], fun _ => rfl⟩

/-- A dispatch of the reading end. -/
theorem readReady_inv (h : Inv capacity s) {a : Answer} (hstep : step s (.readReady a) = some s') :
    Inv capacity s' := by
  obtain ⟨⟨pipe, rd⟩, hdispatch, rfl⟩ := Option.map_eq_some_iff.1 hstep
  obtain ⟨ctx, t, r, t', hcurrent, hcall, ht, rfl⟩ := Caller.dispatch_cases hdispatch
  obtain ⟨hallowed, hpipe, hfront, hzero, -⟩ := Pipe.read_spec hcall
  obtain ⟨lost, hflow, hlost⟩ := h.flow
  have hended : s.pipe.Ended → pipe.Ended := by
    intro hended
    rw [hended.2] at hfront
    rw [hpipe]
    exact ⟨hended.1, (List.append_eq_nil_iff.1 hfront.symm).2⟩
  obtain ⟨hr, hstream⟩ := h.reader.dispatch readChannel_handles hcurrent hallowed ht hended
    fun _ h0 => (hzero h0).imp_right hended
  refine ⟨by rw [hpipe]; exact h.capacity_eq, h.writer, h.unchanged, hr, ?_, lost, ?_, ?_⟩
  · have hfits := h.fits
    have hlen := congrArg List.length hfront
    rw [List.length_append] at hlen
    show pipe.inFlight.length ≤ capacity
    omega
  · show s.writer.stream = (s.reader.settle ctx t').stream ++ (pipe.inFlight ++ lost)
    rw [hflow, hstream, hfront]
    simp
  · rw [hpipe]
    exact hlost

/-- **One step** of either end or of the kernel. -/
theorem step_inv (h : Inv capacity s) {l : ConnectionLabel} (hstep : step s l = some s') : Inv capacity s' := by
  cases l with
  | smartWrite buf count =>
    rw [step] at hstep
    split at hstep
    · rename_i hcount
      obtain ⟨w, hbegin, rfl⟩ := Option.map_eq_some_iff.1 hstep
      obtain ⟨hcalls, -, -, hstream⟩ := Caller.begin_spec hbegin
      refine ⟨h.capacity_eq, h.writer.begin hbegin rfl hcount, fun p hp => ?_, h.reader, h.fits, ?_⟩
      · rw [hcalls, List.mem_append, List.mem_singleton] at hp
        rcases hp with hp | rfl
        · exact h.unchanged p hp
        · rfl
      · show ∃ lost, w.stream = _ ∧ _
        rw [hstream]
        exact h.flow
    · cases hstep
  | smartRead buf count =>
    rw [step] at hstep
    split at hstep
    · rename_i hcount
      obtain ⟨rd, hbegin, rfl⟩ := Option.map_eq_some_iff.1 hstep
      obtain ⟨-, -, -, hstream⟩ := Caller.begin_spec hbegin
      refine ⟨h.capacity_eq, h.writer, h.unchanged, h.reader.begin hbegin rfl hcount, h.fits, ?_⟩
      show ∃ lost, _ = rd.stream ++ _ ∧ _
      rw [hstream]
      exact h.flow
    · cases hstep
  | writeReady a => exact writeReady_inv h hstep
  | readReady a => exact readReady_inv h hstep
  | shutdown =>
    obtain rfl := Option.some.inj hstep
    exact ⟨h.capacity_eq, h.writer, h.unchanged, h.reader.mono fun hended => ⟨.inl rfl, hended.2⟩,
      h.fits, h.flow⟩
  | reset =>
    obtain rfl := Option.some.inj hstep
    obtain ⟨lost, hflow, -⟩ := h.flow
    exact ⟨h.capacity_eq, h.writer, h.unchanged, h.reader.mono fun _ => ⟨.inr rfl, rfl⟩,
      Nat.zero_le _, s.pipe.inFlight ++ lost, hflow, fun hreset => Bool.noConfusion hreset⟩

theorem run_inv {writerFd readerFd : Int} {ls : List ConnectionLabel}
    (hrun : Transition.exec step (established writerFd readerFd capacity) ls = some s) :
    Inv capacity s :=
  Transition.exec_invariant (fun _ _ _ h hstep => step_inv h hstep) ls
    (established_inv writerFd readerFd capacity) hrun

/-! ## What the calls return -/

/-- The buffers that `smart_write` has been called with. -/
def written (s : Connection) : List UInt8 :=
  s.writer.calls.flatMap fun p => Memory.slice p.1.buf 0 p.1.count

/-- What the calls of `smart_read` that have returned left in their buffers. -/
def received (s : Connection) : List UInt8 :=
  s.reader.returned.flatMap fun p => Memory.slice p.2.ctx.buf 0 p.2.ctx.ret

/-- No call has returned -1. -/
structure NoneFailed (s : Connection) : Prop where
  writes : ∀ p ∈ s.writer.returned, toSsize p.2.ctx.ret ≠ -1
  reads : ∀ p ∈ s.reader.returned, toSsize p.2.ctx.ret ≠ -1

theorem Inv.wrote (h : Inv capacity s) {p : WriteContext × Transfer WriteContext} (hp : p ∈ s.writer.calls) :
    p.2.stream = Memory.slice p.1.buf 0 p.2.stream.length := by
  have hstream := (h.writer.ok p hp).inv.stream_eq
  rw [show writeChannel.buf p.2.ctx = p.1.buf from h.unchanged p hp] at hstream
  exact hstream

/-- A write that has returned something else than -1 has moved its buffer. -/
theorem Inv.wrote_all (h : Inv capacity s) {p : WriteContext × Transfer WriteContext}
    (hp : p ∈ s.writer.returned) :
    toSsize p.2.ctx.ret = -1 ∨ toSsize p.2.ctx.ret = p.1.count ∧
      p.2.stream = Memory.slice p.1.buf 0 p.1.count := by
  have hcall : p ∈ s.writer.calls := List.mem_append_left _ hp
  rcases (h.writer.ok p hcall).value with ⟨-, hvalue⟩ | ⟨hok, -, hvalue⟩
  · exact .inl hvalue
  · have hlen : p.2.stream.length = p.1.count := (h.writer.returned p hp hok).resolve_right id
    have hwrote := h.wrote hcall
    rw [hlen] at hwrote
    exact .inr ⟨hvalue.trans (congrArg _ hlen), hwrote⟩

theorem Inv.returned_written (h : Inv capacity s) (hnone : NoneFailed s) :
    (s.writer.returned.flatMap fun p => p.2.stream) =
      s.writer.returned.flatMap fun p => Memory.slice p.1.buf 0 p.1.count := by
  refine List.flatMap_congr fun p hp => ?_
  exact ((h.wrote_all hp).resolve_left (hnone.writes p hp)).2

/-- Nothing is written but the buffers, in the order of the calls. -/
theorem Inv.stream_written (h : Inv capacity s) (hnone : NoneFailed s) : s.writer.stream <+: s.written := by
  have hreturned := h.returned_written hnone
  cases hcurrent : s.writer.current with
  | none =>
    have heq : s.writer.stream = s.written := by
      rw [Caller.stream, written, Caller.calls_of_idle hcurrent, hreturned]
    exact heq ▸ List.prefix_rfl
  | some p =>
    obtain ⟨ctx, t⟩ := p
    have hmem := Caller.mem_calls_of_current hcurrent
    have hfits : t.stream.length ≤ ctx.count := (h.writer.ok _ hmem).inv.fits
    rw [Caller.stream_of_current hcurrent, written, Caller.calls_of_current hcurrent,
      List.flatMap_append, hreturned, List.flatMap_singleton, List.prefix_append_right_inj,
      h.wrote hmem, ← Memory.take_slice ctx.buf 0 ctx.count hfits]
    exact List.take_prefix ..

/-- Between calls, all of them has been written. -/
theorem Inv.stream_idle (h : Inv capacity s) (hnone : NoneFailed s) (hidle : s.writer.current = none) :
    s.writer.stream = s.written := by
  rw [Caller.stream, written, Caller.calls_of_idle hidle, h.returned_written hnone]

/-- What a read has returned counts what it left in its buffer. -/
theorem Inv.received_eq (h : Inv capacity s) (hnone : NoneFailed s) :
    s.received = s.reader.returned.flatMap fun p => p.2.stream := by
  refine List.flatMap_congr fun p hp => ?_
  have hok := h.reader.ok p (List.mem_append_left _ hp)
  rcases hok.value with ⟨-, hvalue⟩ | ⟨-, hret, -⟩
  · exact absurd hvalue (hnone.reads p hp)
  · rw [show p.2.ctx.ret = _ from hret]
    exact hok.inv.stream_eq.symm

theorem Inv.received_idle (h : Inv capacity s) (hnone : NoneFailed s)
    (hidle : s.reader.current = none) : s.received = s.reader.stream := by
  rw [h.received_eq hnone, Caller.stream, Caller.calls_of_idle hidle]

theorem Inv.received_prefix (h : Inv capacity s) (hnone : NoneFailed s) : s.received <+: s.reader.stream := by
  rw [h.received_eq hnone, Caller.stream, Caller.calls, List.flatMap_append]
  exact List.prefix_append ..

/-- **A byte stream.**  In every run, a write returns -1 or has written its whole buffer; a read
returns -1 or has filled its buffer up to the count, less only once nothing more can come, and
leaves the rest of the buffer as it was; and as long as no call has returned -1, the reads have got
the front of what the writes were called with: all of it, when a read came back short, no call is
in flight and the connection has not been reset. -/
theorem run_stream (writerFd readerFd : Int) (capacity : Nat) (ls : List ConnectionLabel)
    (s : Connection)
    (hrun : Transition.exec step (established writerFd readerFd capacity) ls = some s) :
    (∀ p ∈ s.writer.returned, toSsize p.2.ctx.ret = -1 ∨ toSsize p.2.ctx.ret = p.1.count) ∧
    (∀ p ∈ s.reader.returned, toSsize p.2.ctx.ret = -1 ∨
      (0 ≤ toSsize p.2.ctx.ret ∧ toSsize p.2.ctx.ret ≤ p.1.count ∧
        (toSsize p.2.ctx.ret < p.1.count → s.pipe.Ended) ∧
        ∀ i : Nat, toSsize p.2.ctx.ret ≤ i → p.2.ctx.buf i = p.1.buf i)) ∧
    (NoneFailed s → s.received <+: s.written) ∧
    (NoneFailed s → s.pipe.reset = false → s.writer.current = none → s.reader.current = none →
      (∃ p ∈ s.reader.returned, toSsize p.2.ctx.ret < p.1.count) → s.received = s.written) := by
  have h := run_inv hrun
  have hread : ∀ p ∈ s.reader.returned, toSsize p.2.ctx.ret = -1 ∨
      (0 ≤ toSsize p.2.ctx.ret ∧ toSsize p.2.ctx.ret ≤ p.1.count ∧
        (toSsize p.2.ctx.ret < p.1.count → s.pipe.Ended) ∧
        ∀ i : Nat, toSsize p.2.ctx.ret ≤ i → p.2.ctx.buf i = p.1.buf i) := by
    intro p hp
    have hok := h.reader.ok p (List.mem_append_left _ hp)
    have hfits : p.2.stream.length ≤ p.1.count := hok.inv.fits
    rcases hok.value with ⟨-, hvalue⟩ | ⟨hf, -, hvalue⟩
    · exact .inl hvalue
    · replace hvalue : toSsize p.2.ctx.ret = p.2.stream.length := hvalue
      rw [hvalue]
      refine .inr ⟨by omega, by omega, fun hshort => ?_, fun i hi => ?_⟩
      · refine (h.reader.returned p hp hf).resolve_left fun hfull => ?_
        rw [show p.2.stream.length = p.1.count from hfull] at hshort
        omega
      · exact hok.inv.rest i (by omega)
  refine ⟨fun p hp => (h.wrote_all hp).imp_right And.left, hread, fun hnone => ?_, ?_⟩
  · obtain ⟨lost, hflow, -⟩ := h.flow
    have hprefix : s.reader.stream <+: s.writer.stream := ⟨_, hflow.symm⟩
    exact ((h.received_prefix hnone).trans hprefix).trans (h.stream_written hnone)
  · rintro hnone hreset hw hr ⟨p, hp, hshort⟩
    obtain ⟨lost, hflow, hlost⟩ := h.flow
    have hended : s.pipe.Ended :=
      ((hread p hp).resolve_left (hnone.reads p hp)).2.2.1 hshort
    rw [h.received_idle hnone hr, ← h.stream_idle hnone hw, hflow, hended.2, hlost hreset,
      List.append_nil, List.append_nil]

/-- Three bytes over a buffer of two, in two writes and two reads. -/
def threeOver : List ConnectionLabel :=
  [.smartRead (fun _ => 0) 3, .smartWrite (fun i => i.toUInt8) 3, .writeReady (.moves 2),
    .readReady (.moves 2), .writeReady (.moves 1), .readReady .blocks, .readReady (.moves 1)]

theorem run_stream_three : ∃ s, Transition.exec step (established 5 6 2) threeOver = some s ∧
    s.reader.returned.length = 1 ∧ NoneFailed s ∧ s.received <+: s.written := by
  obtain ⟨s, hs, hp⟩ := (Option.any_eq_true ..).1 (show
    (Transition.exec step (established 5 6 2) threeOver).any (fun s => s.reader.returned.length = 1 ∧
      (∀ p ∈ s.writer.returned, toSsize p.2.ctx.ret ≠ -1) ∧
      ∀ p ∈ s.reader.returned, toSsize p.2.ctx.ret ≠ -1) = true by decide +kernel)
  obtain ⟨hlen, hw, hr⟩ := of_decide_eq_true hp
  exact ⟨s, hs, hlen, ⟨hw, hr⟩, (run_stream 5 6 2 threeOver s hs).2.2.1 ⟨hw, hr⟩⟩

/-! ## Progress -/

/-- The bytes that the calls in flight have still to move. -/
def left (s : Connection) : Nat := s.writer.left writeChannel + s.reader.left readChannel

/-- The bytes that `smart_read` has been called for. -/
def asked (s : Connection) : Nat := (s.reader.calls.map fun p => p.1.count).sum

/-- A dispatch that counts as moving has moved a byte. -/
theorem moving_toNat_le {a : Answer} {len : Nat} (hlen : ∀ n, a = .moves n → len = n) :
    (ConnectionLabel.writeReady a).moving.toNat ≤ len ∧
      (ConnectionLabel.readReady a).moving.toNat ≤ len := by
  cases a with
  | moves n =>
    have hpos : (decide (0 < n)).toNat ≤ n := by
      cases n with
      | zero => exact Nat.le_refl _
      | succ n => exact Nat.succ_le_succ (Nat.zero_le n)
    rw [hlen n rfl]
    exact ⟨hpos, hpos⟩
  | blocks => exact ⟨Nat.zero_le _, Nat.zero_le _⟩
  | fails errno => exact ⟨Nat.zero_le _, Nat.zero_le _⟩

/-- Only a new call adds to what is left, and a moving dispatch takes from it. -/
theorem Inv.step_left (h : Inv capacity s) {l : ConnectionLabel} (hold : l.begins = false)
    (hstep : step s l = some s') : s'.left + l.moving.toNat ≤ s.left := by
  cases l with
  | smartWrite => cases hold
  | smartRead => cases hold
  | writeReady a =>
    obtain ⟨⟨pipe, w⟩, hdispatch, rfl⟩ := Option.map_eq_some_iff.1 hstep
    obtain ⟨ctx, t, r, t', hcurrent, hcall, ht, rfl⟩ := Caller.dispatch_cases hdispatch
    obtain ⟨hallowed, -, -, hlen⟩ := Pipe.write_spec hcall
    have hle := h.writer.left_add_le writeChannel_handles hcurrent hallowed ht
    have hmoved := (moving_toNat_le hlen).1
    simp only [left]
    omega
  | readReady a =>
    obtain ⟨⟨pipe, rd⟩, hdispatch, rfl⟩ := Option.map_eq_some_iff.1 hstep
    obtain ⟨ctx, t, r, t', hcurrent, hcall, ht, rfl⟩ := Caller.dispatch_cases hdispatch
    obtain ⟨hallowed, -, -, -, hlen⟩ := Pipe.read_spec hcall
    have hle := h.reader.left_add_le readChannel_handles hcurrent hallowed ht
    have hmoved := (moving_toNat_le hlen).2
    simp only [left]
    omega
  | shutdown =>
    cases hstep
    exact Nat.le_refl _
  | reset =>
    cases hstep
    exact Nat.le_refl _

/-- Until the next call, the dispatches that move bytes are at most as many as the bytes left. -/
theorem Inv.moving_count {ms : List ConnectionLabel} (h : Inv capacity s)
    (hold : ∀ m ∈ ms, m.begins = false) (hrun : Transition.exec step s ms = some s') :
    ms.countP ConnectionLabel.moving ≤ s.left := by
  induction ms generalizing s with
  | nil => exact Nat.zero_le _
  | cons m ms ih =>
    cases hstep : step s m with
    | none => simp [Transition.exec, hstep] at hrun
    | some s₁ =>
      rw [Transition.exec_cons hstep] at hrun
      have hle := h.step_left (hold m (List.mem_cons_self ..)) hstep
      have hrest := ih (step_inv h hstep) (fun m' hm' => hold m' (List.mem_cons_of_mem m hm')) hrun
      have hcount : (m :: ms).countP ConnectionLabel.moving =
          ms.countP ConnectionLabel.moving + m.moving.toNat := by
        rw [List.countP_cons]
        cases m.moving <;> rfl
      omega

/-- A parked read moves a byte that is there. -/
theorem Inv.reader_moves (h : Inv capacity s) {p : ReadContext × Transfer ReadContext}
    (hp : s.reader.current = some p) (hcount : 0 < p.1.count) (hthere : s.pipe.inFlight ≠ []) :
    ∃ s', step s (.readReady (.moves 1)) = some s' := by
  obtain ⟨hpark, hlen, -⟩ := h.reader.parked hp hcount
  have hbyte := List.length_pos_iff.2 hthere
  have hcall : s.pipe.read (readChannel.request p.2.ctx) (.moves 1) = some
      (⟨some (s.pipe.inFlight.take 1), 0⟩, { s.pipe with inFlight := s.pipe.inFlight.drop 1 }) := by
    rw [Pipe.read, if_pos ⟨hlen, hbyte, by decide, fun h => by cases h⟩]
  obtain ⟨c, hc⟩ := Caller.dispatch_of_syscall
    (fun ctx => s.pipe.read (readChannel.request ctx) (.moves 1)) readChannel_handles hp hpark hcall
  exact ⟨_, by rw [step, hc]; rfl⟩

/-- A parked write moves a byte where there is room. -/
theorem Inv.writer_moves (h : Inv capacity s) {p : WriteContext × Transfer WriteContext}
    (hp : s.writer.current = some p) (hcount : 0 < p.1.count) (hshut : s.pipe.shut = false)
    (hreset : s.pipe.reset = false) (hroom : 0 < s.pipe.room) :
    ∃ s', step s (.writeReady (.moves 1)) = some s' := by
  obtain ⟨hpark, hlen, -⟩ := h.writer.parked hp hcount
  have hcall : s.pipe.write p.2.ctx.buf (writeChannel.request p.2.ctx) (.moves 1) = some (⟨some 1, 0⟩,
      { s.pipe with inFlight := s.pipe.inFlight ++
          Memory.slice p.2.ctx.buf (writeChannel.request p.2.ctx).offset 1 }) := by
    rw [Pipe.write, if_pos ⟨hshut, hreset, hlen, hroom, by decide, fun h => by cases h⟩]
  obtain ⟨c, hc⟩ := Caller.dispatch_of_syscall
    (fun ctx => s.pipe.write ctx.buf (writeChannel.request ctx) (.moves 1)) writeChannel_handles hp
    hpark hcall
  exact ⟨_, by rw [step, hc]; rfl⟩

/-- A parked write has not written all that the writes were called with. -/
theorem Inv.stream_lt_written (h : Inv capacity s) (hnone : NoneFailed s)
    {p : WriteContext × Transfer WriteContext} (hp : s.writer.current = some p)
    (hcount : 0 < p.1.count) : s.writer.stream.length < s.written.length := by
  have hshort : p.2.stream.length < p.1.count := (h.writer.parked hp hcount).2.2
  rw [Caller.stream_of_current hp, written, Caller.calls_of_current hp, List.flatMap_append,
    h.returned_written hnone, List.flatMap_singleton, List.length_append, List.length_append,
    Memory.length_slice]
  exact Nat.add_lt_add_left hshort _

/-- A parked read has not read all that the reads were called for. -/
theorem Inv.stream_lt_asked (h : Inv capacity s) (hnone : NoneFailed s) (hended : ¬ s.pipe.Ended)
    {p : ReadContext × Transfer ReadContext} (hp : s.reader.current = some p)
    (hcount : 0 < p.1.count) : s.reader.stream.length < s.asked := by
  have hshort : p.2.stream.length < p.1.count := (h.reader.parked hp hcount).2.2
  have hreturned : s.reader.returned.map (fun p => p.2.stream.length) =
      s.reader.returned.map fun p => p.1.count := by
    refine List.map_congr_left fun q hq => ?_
    rcases (h.reader.ok q (List.mem_append_left _ hq)).value with ⟨-, hvalue⟩ | ⟨hok, -⟩
    · exact absurd hvalue (hnone.reads q hq)
    · exact (h.reader.returned q hq hok).resolve_right hended
  rw [Caller.stream_of_current hp, asked, Caller.calls_of_current hp, List.length_append,
    List.length_flatMap, hreturned, List.map_append, List.sum_append, List.map_singleton,
    List.sum_singleton]
  exact Nat.add_lt_add_left hshort _

/-- **No call waits for nothing.**  From every state of a run, until the next call, the dispatches that
move bytes are at most as many as the bytes that the two calls in flight have left, whatever comes
between them; and in a state where there is none, on an open connection on which no call has failed
and none is in flight for 0 bytes, a parked read has a writer between two calls on the other end and
asks for more than has been written, and a parked write has a reader between two calls and has been
called with more than the buffer holds beyond what has been read. -/
theorem run_progress (writerFd readerFd : Int) (capacity : Nat) (hcapacity : 0 < capacity)
    (ls : List ConnectionLabel) (s : Connection)
    (hrun : Transition.exec step (established writerFd readerFd capacity) ls = some s) :
    (∀ ms s', (∀ m ∈ ms, m.begins = false) → Transition.exec step s ms = some s' →
      ms.countP ConnectionLabel.moving ≤ s.left) ∧
    ((∀ m, m.moving = true → step s m = none) → NoneFailed s → s.pipe.shut = false →
      s.pipe.reset = false → (∀ p ∈ s.writer.current, 0 < p.1.count) →
      (∀ p ∈ s.reader.current, 0 < p.1.count) →
      (s.reader.current.isSome → s.writer.current = none ∧ s.written.length < s.asked) ∧
      (s.writer.current.isSome →
        s.reader.current = none ∧ s.received.length + capacity < s.written.length)) := by
  have h := run_inv hrun
  refine ⟨fun ms s' hold hms => h.moving_count hold hms, ?_⟩
  intro hstuck hnone hshut hreset hwcount hrcount
  obtain ⟨lost, hflow, hlost⟩ := h.flow
  rw [hlost hreset, List.append_nil] at hflow
  have hfits := h.fits
  have hroom : s.pipe.room = capacity - s.pipe.inFlight.length := by
    rw [Pipe.room, h.capacity_eq]
  have hended : ¬ s.pipe.Ended := fun hend => by simp [Pipe.Ended, hshut, hreset] at hend
  have hempty : s.reader.current.isSome → s.pipe.inFlight = [] := by
    intro hsome
    obtain ⟨p, hp⟩ := Option.isSome_iff_exists.1 hsome
    by_contra hthere
    obtain ⟨s', hs'⟩ := h.reader_moves hp (hrcount p hp) hthere
    rw [hstuck (.readReady (.moves 1)) rfl] at hs'
    cases hs'
  have hfull : s.writer.current.isSome → s.pipe.inFlight.length = capacity := by
    intro hsome
    obtain ⟨p, hp⟩ := Option.isSome_iff_exists.1 hsome
    by_contra hpart
    obtain ⟨s', hs'⟩ := h.writer_moves hp (hwcount p hp) hshut hreset (by omega)
    rw [hstuck (.writeReady (.moves 1)) rfl] at hs'
    cases hs'
  have hnotboth : ¬ (s.reader.current.isSome = true ∧ s.writer.current.isSome = true) := by
    rintro ⟨hr, hw⟩
    have hlen := hfull hw
    rw [hempty hr, List.length_nil] at hlen
    omega
  refine ⟨fun hr => ?_, fun hw => ?_⟩
  · have hidle : s.writer.current = none := by
      rw [← Option.not_isSome_iff_eq_none]
      exact fun hw => hnotboth ⟨hr, hw⟩
    obtain ⟨p, hp⟩ := Option.isSome_iff_exists.1 hr
    have hlt := h.stream_lt_asked hnone hended hp (hrcount p hp)
    rw [← h.stream_idle hnone hidle, hflow, hempty hr, List.append_nil]
    exact ⟨hidle, hlt⟩
  · have hidle : s.reader.current = none := by
      rw [← Option.not_isSome_iff_eq_none]
      exact fun hr => hnotboth ⟨hr, hw⟩
    obtain ⟨p, hp⟩ := Option.isSome_iff_exists.1 hw
    have hlt := h.stream_lt_written hnone hp (hwcount p hp)
    have hlen := congrArg List.length hflow
    rw [List.length_append, hfull hw] at hlen
    rw [h.received_idle hnone hidle]
    exact ⟨hidle, by omega⟩

/-- A buffer of two, with five bytes to write and none read: no dispatch moves a byte. -/
def bufferFull : List ConnectionLabel := [.smartWrite (fun i => i.toUInt8) 5, .writeReady (.moves 2)]

/-- The write stays parked for lack of a read. -/
theorem run_progress_full : ∃ s, Transition.exec step (established 5 6 2) bufferFull = some s ∧
    s.writer.current.isSome = true ∧
    (∀ ms s', (∀ m ∈ ms, m.begins = false) → Transition.exec step s ms = some s' →
      ms.countP ConnectionLabel.moving ≤ s.left) ∧
    s.reader.current = none ∧ s.received.length + 2 < s.written.length := by
  obtain ⟨s, hs, hp⟩ := (Option.any_eq_true ..).1 (show
    (Transition.exec step (established 5 6 2) bufferFull).any (fun s => s.writer.current.isSome ∧
      s.reader.current.isNone ∧ s.pipe.room = 0 ∧ s.pipe.shut = false ∧ s.pipe.reset = false ∧
      (∀ p ∈ s.writer.current, 0 < p.1.count) ∧ s.writer.returned.isEmpty ∧
      s.reader.returned.isEmpty) = true by decide +kernel)
  obtain ⟨hw, hr, hroom, hshut, hreset, hcount, hwret, hrret⟩ := of_decide_eq_true hp
  have hidle : s.reader.current = none := Option.isNone_iff_eq_none.1 hr
  have hnone : NoneFailed s := by
    rw [List.isEmpty_iff] at hwret hrret
    exact ⟨by simp [hwret], by simp [hrret]⟩
  have hstuck : ∀ m : ConnectionLabel, m.moving = true → step s m = none := by
    intro m hmoving
    cases m with
    | writeReady a =>
      cases a with
      | moves n =>
        obtain ⟨p, hp⟩ := Option.isSome_iff_exists.1 hw
        have hn : ¬ n ≤ s.pipe.room := by
          rw [hroom]
          exact Nat.not_le_of_lt (of_decide_eq_true hmoving)
        simp [step, Caller.dispatch, hp, Pipe.write, hn]
      | blocks => cases hmoving
      | fails errno => cases hmoving
    | readReady a => simp [step, Caller.dispatch, hidle]
    | smartWrite | smartRead | shutdown | reset => cases hmoving
  obtain ⟨hbound, hwaits⟩ := run_progress 5 6 2 (by decide) bufferFull s hs
  exact ⟨s, hs, hw, hbound, (hwaits hstuck hnone hshut hreset hcount (by simp [hidle])).2 hw⟩

end Connection

end SmartRoutine
