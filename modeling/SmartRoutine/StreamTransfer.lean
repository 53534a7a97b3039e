import SmartRoutine.CallErrno

/-!
# What `smart_read` and `smart_write` transfer

One machine for both: each dispatch makes one system call, which moves some bytes or fails, until
the handler resumes the coroutine.

* `Channel` — the handler of a call with what it asks for and what its system call moves.
* `Channel.Sound` — one dispatch of it; `Channel.Moves.sound` has it from the branches of a handler.
* `Transfer.run_exact` — the bytes moved are the front of the buffer, through any number of partial
  transfers and retries.
* `IoCall.exec_outcomes` — the registered call does what this machine does with the outcomes of its
  dispatches.
* `smartRead_smartWrite_exact` — the two calls.
-/

set_option autoImplicit false

namespace SmartRoutine

/-- The range of `buf_` that a system call is given. -/
structure Request where
  offset : Nat
  length : Nat
  deriving DecidableEq, Repr

/-- A call that moves bytes between a descriptor and `buf_`. -/
structure Channel (σ ρ : Type) where
  op : IoOp σ ρ
  buf : σ → Nat → UInt8
  count : σ → Nat
  ret : σ → Nat
  value : ρ → Int
  errno : ρ → Int
  /-- The outcome reports the end of the stream. -/
  eof : ρ → Bool
  /-- The bytes that an outcome moves over the descriptor. -/
  moved : σ → ρ → List UInt8

def readChannel : Channel ReadContext ReadResult where
  op := smartRead
  buf := ReadContext.buf
  count := ReadContext.count
  ret := ReadContext.ret
  value := ReadResult.value
  errno := ReadResult.errno
  eof := fun r => r.value = 0
  moved := fun _ r => r.bytes.getD []

def writeChannel : Channel WriteContext CallResult where
  op := smartWrite
  buf := WriteContext.buf
  count := WriteContext.count
  ret := WriteContext.ret
  value := CallResult.value
  errno := CallResult.errno
  eof := fun _ => false
  moved := fun ctx r => Memory.slice ctx.buf ctx.ret r.value.toNat

namespace Channel

variable {σ ρ : Type}

/-- `buf_ + ret_` and `count_ - ret_`, as the handlers pass them. -/
def request (C : Channel σ ρ) (ctx : σ) : Request := ⟨C.ret ctx, sub64 (C.count ctx) (C.ret ctx)⟩

/-- The system call has failed, and not because nothing was ready. -/
def fails (C : Channel σ ρ) (r : ρ) : Bool := C.value r < 0 ∧ C.errno r ≠ EWOULDBLOCK

/-- No more is moved than asked for, nor than an `int` can say. -/
def allowed (C : Channel σ ρ) (ctx : σ) (r : ρ) : Bool :=
  C.value r ≤ (C.request ctx).length ∧ C.value r ≤ 2 ^ 31 - 1

theorem fails_iff {C : Channel σ ρ} {r : ρ} :
    C.fails r = true ↔ C.value r < 0 ∧ C.errno r ≠ EWOULDBLOCK := by
  rw [fails, decide_eq_true_eq]

theorem allowed_iff {C : Channel σ ρ} {ctx : σ} {r : ρ} : C.allowed ctx r = true ↔
    C.value r ≤ sub64 (C.count ctx) (C.ret ctx) ∧ C.value r ≤ 2 ^ 31 - 1 := by
  rw [allowed, decide_eq_true_eq, request]

end Channel

/-- The context, and what has happened so far. -/
structure Transfer (σ : Type) where
  ctx : σ
  /-- The bytes moved, in order. -/
  stream : List UInt8
  failed : Bool
  resumed : Bool

namespace Transfer

variable {σ ρ : Type}

def start (ctx : σ) : Transfer σ := ⟨ctx, [], false, false⟩

/-- One dispatch; there is none after the coroutine has been resumed. -/
def step (C : Channel σ ρ) (t : Transfer σ) (r : ρ) : Option (Transfer σ) :=
  if t.resumed then none
  else
    match C.op.handler t.ctx r with
    | some (ctx, resumed) => some ⟨ctx, t.stream ++ C.moved t.ctx r, C.fails r, resumed⟩
    | none => none

theorem step_of_resumed {C : Channel σ ρ} {t : Transfer σ} {r : ρ} (h : t.resumed = true) :
    step C t r = none := by
  rw [step, if_pos h]

theorem step_of_parked {C : Channel σ ρ} {t : Transfer σ} {r : ρ} {ctx' : σ} {b : Bool}
    (h : t.resumed = false) (hhandler : C.op.handler t.ctx r = some (ctx', b)) :
    step C t r = some ⟨ctx', t.stream ++ C.moved t.ctx r, C.fails r, b⟩ := by
  rw [step, h, if_neg Bool.false_ne_true, hhandler]

end Transfer

/-! ## One dispatch -/

/-- What one dispatch does to a context. -/
structure Channel.Sound {σ ρ : Type} (C : Channel σ ρ) : Prop where
  moves : ∀ ctx r, C.allowed ctx r = true → C.ret ctx ≤ C.count ctx → C.count ctx < 2 ^ 64 →
    C.fails r = false → ∃ ctx' b, C.op.handler ctx r = some (ctx', b) ∧ C.count ctx' = C.count ctx ∧
      C.ret ctx' = C.ret ctx + (C.moved ctx r).length ∧ C.ret ctx' ≤ C.count ctx ∧
      C.buf ctx' = Memory.store (C.buf ctx) (C.ret ctx) (C.moved ctx r)
  fails : ∀ ctx r, C.fails r = true → ∃ ctx', C.op.handler ctx r = some (ctx', true) ∧
    C.count ctx' = C.count ctx ∧ C.ret ctx' = 2 ^ 64 - 1 ∧ C.buf ctx' = C.buf ctx ∧ C.moved ctx r = []

section

theorem ReadResult.toNat_value (r : ReadResult) : r.value.toNat = (r.bytes.getD []).length := by
  unfold ReadResult.value
  cases r.bytes with
  | none => rfl
  | some bytes => exact Int.toNat_natCast bytes.length

theorem receive_buf (ctx : ReadContext) (r : ReadResult) :
    (ctx.receive r).buf = Memory.store ctx.buf ctx.ret (r.bytes.getD []) := by
  unfold ReadContext.receive
  cases r.bytes with
  | none => exact (Memory.store_nil ctx.buf ctx.ret).symm
  | some bytes => rfl

/-- What a dispatch moves, it stores behind the bytes already counted. -/
structure Channel.Moves {σ ρ : Type} (C : Channel σ ρ) : Prop where
  length_moved : ∀ ctx r, (C.moved ctx r).length = (C.value r).toNat
  buf_eq : ∀ ctx r ctx' b, C.op.handler ctx r = some (ctx', b) →
    C.buf ctx' = Memory.store (C.buf ctx) (C.ret ctx) (C.moved ctx r)

/-- The reading handler stores into `buf_` in no other way. -/
theorem smartReadImpl_buf (ctx : ReadContext) (r : ReadResult) :
    (smartReadImpl ctx r).1.buf = Memory.store ctx.buf ctx.ret (r.bytes.getD []) := by
  unfold smartReadImpl
  dsimp only
  split
  · exact receive_buf ctx r
  · split <;> exact receive_buf ctx r

/-- The writing handler only reads `buf_`. -/
theorem smartWriteImpl_buf (ctx : WriteContext) (r : CallResult) :
    (smartWriteImpl ctx r).1.buf = ctx.buf := by
  unfold smartWriteImpl
  dsimp only
  split
  · rfl
  · split <;> rfl

theorem readChannel_moves : readChannel.Moves where
  length_moved := fun _ r => r.toNat_value.symm
  buf_eq := by
    intro ctx r ctx' b h
    have hbuf := smartReadImpl_buf ctx r
    rw [(Option.some.inj h : smartReadImpl ctx r = (ctx', b))] at hbuf
    exact hbuf

theorem writeChannel_moves : writeChannel.Moves where
  length_moved := fun _ _ => Memory.length_slice ..
  buf_eq := by
    intro ctx r ctx' b h
    have hbuf := smartWriteImpl_buf ctx r
    rw [(Option.some.inj h : smartWriteImpl ctx r = (ctx', b))] at hbuf
    exact hbuf.trans (Memory.store_slice ..).symm

/-- **One dispatch** of either channel. -/
theorem Channel.Moves.sound {σ ρ : Type} {C : Channel σ ρ} {zero : Bool} (hmoves : C.Moves)
    (hbranches : Branches C.op zero C.count C.ret C.value C.errno) : C.Sound where
  moves := by
    intro ctx r hallowed hle hcount hok
    obtain ⟨ctx', b, hhandler, hsame, hbranch⟩ := hbranches.handler ctx r
    obtain ⟨hroom, hint⟩ := Channel.allowed_iff.1 hallowed
    replace hok : ¬ (C.value r < 0 ∧ C.errno r ≠ EWOULDBLOCK) := fun h =>
      Bool.false_ne_true (hok.symm.trans (Channel.fails_iff.2 h))
    obtain ⟨hsum, hle'⟩ := add64_moved hle hcount hroom
    rw [toInt_of_lt (hbranches.value r) hint] at hbranch
    have hret := hbranch.ret_eq hok hsum
    refine ⟨ctx', b, hhandler, hsame, ?_, ?_, hmoves.buf_eq ctx r ctx' b hhandler⟩
    · rw [hret, hmoves.length_moved]
    · rw [hret]
      exact hle'
  fails := by
    intro ctx r hfails
    obtain ⟨ctx', b, hhandler, hsame, hbranch⟩ := hbranches.handler ctx r
    obtain ⟨hneg, herrno⟩ := Channel.fails_iff.1 hfails
    rw [toInt_of_neg (hbranches.value r) hneg] at hbranch
    obtain ⟨hret, hresumes⟩ := hbranch.of_neg hneg
    obtain rfl : b = true := hresumes.2 herrno
    have hnone : C.moved ctx r = [] := by
      have := hmoves.length_moved ctx r
      exact List.eq_nil_of_length_eq_zero (by omega)
    have hbuf := hmoves.buf_eq ctx r ctx' true hhandler
    rw [hnone, Memory.store_nil] at hbuf
    exact ⟨ctx', hhandler, hsame, hret, hbuf, hnone⟩

end

/-! ## Runs -/

namespace Transfer

variable {σ ρ : Type} {C : Channel σ ρ} {ctx : σ} {t t' : Transfer σ}

/-- The bytes moved are the front of the buffer, and the result counts them. -/
structure Exact (C : Channel σ ρ) (ctx : σ) (t : Transfer σ) : Prop where
  /-- Every call asks for what is left, at the place where it belongs. -/
  requests : t.resumed = false →
    C.request t.ctx = ⟨C.ret t.ctx, C.count ctx - C.ret t.ctx⟩ ∧ C.ret t.ctx ≤ C.count ctx ∧
      C.ret t.ctx = t.stream.length
  stream_eq : t.stream = Memory.slice (C.buf t.ctx) 0 t.stream.length
  rest : ∀ i, t.stream.length ≤ i → C.buf t.ctx i = C.buf ctx i
  fits : t.stream.length ≤ C.count ctx
  returned : t.resumed = true →
    toSsize (C.ret t.ctx) = if t.failed then -1 else (t.stream.length : Int)

/-- What holds between two dispatches. -/
structure Inv (C : Channel σ ρ) (ctx : σ) (t : Transfer σ) : Prop where
  count_eq : C.count t.ctx = C.count ctx
  ret_eq : C.ret t.ctx = if t.failed then 2 ^ 64 - 1 else t.stream.length
  failed : t.failed = true → t.resumed = true
  stream_eq : t.stream = Memory.slice (C.buf t.ctx) 0 t.stream.length
  rest : ∀ i, t.stream.length ≤ i → C.buf t.ctx i = C.buf ctx i
  fits : t.stream.length ≤ C.count ctx

theorem start_inv (hret : C.ret ctx = 0) : Inv C ctx (start ctx) :=
  ⟨rfl, hret, fun h => Bool.noConfusion h, rfl, fun _ _ => rfl, Nat.zero_le _⟩

theorem Inv.ret_of_parked (h : Inv C ctx t) (hres : t.resumed = false) :
    C.ret t.ctx = t.stream.length := by
  have hok : t.failed = false := by
    rw [← Bool.not_eq_true]
    intro hf
    exact Bool.false_ne_true (hres.symm.trans (h.failed hf))
  rw [h.ret_eq, hok, if_neg Bool.false_ne_true]

theorem step_inv (hC : C.Sound) (hcount : C.count ctx < 2 ^ 64) {r : ρ} (h : Inv C ctx t)
    (hallowed : C.allowed t.ctx r = true) (hstep : step C t r = some t') : Inv C ctx t' := by
  cases hres : t.resumed with
  | true =>
    rw [step_of_resumed hres] at hstep
    cases hstep
  | false =>
    have hret := h.ret_of_parked hres
    obtain ⟨hc, -, -, hstream, hrest, hfits⟩ := h
    cases hf : C.fails r with
    | true =>
      obtain ⟨ctx', hhandler, hc', hret', hbuf', hmoved⟩ := hC.fails t.ctx r hf
      rw [step_of_parked hres hhandler, hmoved, List.append_nil, hf] at hstep
      cases hstep
      refine ⟨hc'.trans hc, hret', fun _ => rfl, ?_, ?_, hfits⟩
      · rw [hbuf']
        exact hstream
      · rw [hbuf']
        exact hrest
    | false =>
      obtain ⟨ctx', b, hhandler, hc', hret', hle', hbuf'⟩ :=
        hC.moves t.ctx r hallowed (by omega) (by omega) hf
      rw [step_of_parked hres hhandler, hf] at hstep
      cases hstep
      rw [hret] at hret' hbuf'
      have hlen : (t.stream ++ C.moved t.ctx r).length = C.ret ctx' := by
        rw [List.length_append, hret']
      refine ⟨hc'.trans hc, ?_, fun h => Bool.noConfusion h, ?_, ?_, ?_⟩
      · exact hlen.symm
      · -- the new bytes are stored right after the old ones
        show t.stream ++ C.moved t.ctx r = Memory.slice (C.buf ctx') 0 _
        rw [hlen, hret', hbuf', Memory.slice_store_append, ← hstream]
      · intro i hi
        rw [hlen] at hi
        show C.buf ctx' i = C.buf ctx i
        rw [hbuf', Memory.store_of_not_mem _ _ _ (by omega)]
        exact hrest i (by omega)
      · show (t.stream ++ C.moved t.ctx r).length ≤ C.count ctx
        omega

theorem Inv.exact (hcount : C.count ctx < 2 ^ 63) (h : Inv C ctx t) : Exact C ctx t := by
  refine ⟨?_, h.stream_eq, h.rest, h.fits, ?_⟩
  · intro hres
    have hret := h.ret_of_parked hres
    have hfits := h.fits
    rw [Channel.request, h.count_eq, sub64_of_le (by omega) (by omega)]
    exact ⟨rfl, by omega, hret⟩
  · intro _
    have hfits := h.fits
    rw [h.ret_eq]
    cases t.failed with
    | true =>
      show toSsize (2 ^ 64 - 1) = -1
      exact (toSsize_eq_neg_one (by decide)).2 rfl
    | false =>
      show toSsize t.stream.length = t.stream.length
      unfold toSsize
      apply Int.bmod_eq_of_le <;> omega

theorem run_exact (hC : C.Sound) (hret : C.ret ctx = 0) (hcount : C.count ctx < 2 ^ 63)
    {outcomes : List ρ}
    (hallowed : Transition.Guarded (step C) (fun t r => C.allowed t.ctx r = true) (start ctx) outcomes)
    (hrun : Transition.exec (step C) (start ctx) outcomes = some t) : Exact C ctx t :=
  (Transition.exec_invariant_of_guarded (P := Inv C ctx)
    (fun _ _ _ h hr hstep => step_inv hC (by omega) h hr hstep) outcomes _ _ (start_inv hret) hallowed
    hrun).exact hcount

/-- `smart_write` leaves the caller's buffer as it is. -/
theorem run_buf {ctx : WriteContext} {t : Transfer WriteContext} {outcomes : List CallResult}
    (hrun : Transition.exec (step writeChannel) (start ctx) outcomes = some t) :
    t.ctx.buf = ctx.buf := by
  refine Transition.exec_invariant (P := fun t => t.ctx.buf = ctx.buf) ?_ outcomes rfl hrun
  intro t r t' h hstep
  unfold step at hstep
  split at hstep
  · cases hstep
  · cases hstep
    exact (smartWriteImpl_buf t.ctx r).trans h

end Transfer

/-! ## The registered calls -/

variable {ι σ ρ : Type} [DecidableEq ι]

/-- **The call follows the outcomes that its handler sees**, whatever else the epoller does. -/
theorem IoCall.exec_outcomes (C : Channel σ ρ) {me : ι} {fd : Int} (ls : List (IoLabel ι ρ))
    {s s' : IoCall ι σ} {t : Transfer σ} (h : CallInv C.op me fd s) (hctx : t.ctx = s.ctx)
    (hres : t.resumed = !s.pushes.isEmpty)
    (hrun : Transition.exec (step C.op me) s ls = some s') :
    ∃ t', Transition.exec (Transfer.step C) t (ls.filterMap (IoLabel.outcome C.op.direction)) =
      some t' ∧ t'.ctx = s'.ctx ∧ t'.resumed = !s'.pushes.isEmpty := by
  induction ls generalizing s t with
  | nil =>
    cases hrun
    exact ⟨t, rfl, hctx, hres⟩
  | cons l ls ih =>
    cases hstep : step C.op me s l with
    | none => simp [Transition.exec, hstep] at hrun
    | some s₁ =>
      rw [Transition.exec_cons hstep] at hrun
      have hinv := step_inv h hstep
      have hout := step_outcome h hstep
      cases ho : l.outcome C.op.direction with
      | none =>
        rw [ho] at hout
        rw [List.filterMap_cons_none ho]
        exact ih hinv (hctx.trans hout.1.symm) (by rw [hres, hout.2]) hrun
      | some r =>
        rw [ho] at hout
        obtain ⟨hp, hhandler⟩ := hout
        have hnext : Transfer.step C t r =
            some ⟨s₁.ctx, t.stream ++ C.moved t.ctx r, C.fails r, !s₁.pushes.isEmpty⟩ := by
          simp [Transfer.step, hres, hp, hctx, hhandler]
        rw [List.filterMap_cons_some ho, Transition.exec_cons hnext]
        exact ih hinv rfl rfl hrun

/-- **`smart_read` and `smart_write` transfer exactly the stream**, on a descriptor that no other
item uses, in every run in which no system call moves more than it was asked for or than an `int`
can say. -/
theorem smartRead_smartWrite_exact (me : ι) (fd : Int) (buf : Nat → UInt8) (count : Nat)
    (hcount : count < 2 ^ 63) (epoller : SmartEPoller ι) :
    (∀ (ls : List (IoLabel ι ReadResult)) (s : IoCall ι ReadContext),
      Transition.exec (IoCall.step smartRead me)
        (IoCall.start smartRead me fd (.new fd buf count) epoller) ls = some s →
      Transition.Guarded (Transfer.step readChannel)
        (fun t r => readChannel.allowed t.ctx r = true) (.start (.new fd buf count))
        (ls.filterMap (IoLabel.outcome .reading)) →
      ∃ t, Transition.exec (Transfer.step readChannel) (.start (.new fd buf count))
          (ls.filterMap (IoLabel.outcome .reading)) = some t ∧
        t.ctx = s.ctx ∧ t.resumed = !s.pushes.isEmpty ∧
        Transfer.Exact readChannel (.new fd buf count) t) ∧
    ∀ (ls : List (IoLabel ι CallResult)) (s : IoCall ι WriteContext),
      Transition.exec (IoCall.step smartWrite me)
        (IoCall.start smartWrite me fd (.new fd buf count) epoller) ls = some s →
      Transition.Guarded (Transfer.step writeChannel)
        (fun t r => writeChannel.allowed t.ctx r = true) (.start (.new fd buf count))
        (ls.filterMap (IoLabel.outcome .writing)) →
      ∃ t, Transition.exec (Transfer.step writeChannel) (.start (.new fd buf count))
          (ls.filterMap (IoLabel.outcome .writing)) = some t ∧
        t.ctx = s.ctx ∧ t.resumed = !s.pushes.isEmpty ∧ t.ctx.buf = buf ∧
        Transfer.Exact writeChannel (.new fd buf count) t := by
  refine ⟨fun ls s hrun hallowed => ?_, fun ls s hrun hallowed => ?_⟩
  · obtain ⟨t, ht, hctx, hres⟩ := IoCall.exec_outcomes readChannel ls
      (t := .start (.new fd buf count)) (IoCall.start_inv smartRead me fd _ epoller) rfl rfl hrun
    exact ⟨t, ht, hctx, hres, Transfer.run_exact (readChannel_moves.sound smartRead_branches) rfl hcount hallowed ht⟩
  · obtain ⟨t, ht, hctx, hres⟩ := IoCall.exec_outcomes writeChannel ls
      (t := .start (.new fd buf count)) (IoCall.start_inv smartWrite me fd _ epoller) rfl rfl hrun
    exact ⟨t, ht, hctx, hres, Transfer.run_buf ht,
      Transfer.run_exact (writeChannel_moves.sound smartWrite_branches) rfl hcount hallowed ht⟩

/-- Three bytes, read one and two with a retry between them. -/
def threeBytesRead : List (IoLabel Unit ReadResult) :=
  [.enable, .dispatch EPOLLIN ⟨some [7], 0⟩, .dispatch EPOLLIN ⟨none, EWOULDBLOCK⟩,
    .dispatch EPOLLIN ⟨some [8, 9], 0⟩]

/-- Three bytes, written two and one with a retry between them. -/
def threeBytes : List (IoLabel Unit CallResult) :=
  [.enable, .dispatch EPOLLOUT ⟨some 2, 0⟩, .dispatch EPOLLOUT ⟨none, EWOULDBLOCK⟩,
    .dispatch EPOLLOUT ⟨some 1, 0⟩]

theorem smartRead_smartWrite_exact_three :
    (∃ t, Transition.exec (Transfer.step readChannel) (.start (.new 5 (fun _ => 0) 3))
        [⟨some [7], 0⟩, ⟨none, EWOULDBLOCK⟩, ⟨some [8, 9], 0⟩] = some t ∧
      t.resumed = true ∧ Transfer.Exact readChannel (.new 5 (fun _ => 0) 3) t) ∧
    ∃ t, Transition.exec (Transfer.step writeChannel) (.start (.new 5 (fun _ => 7) 3))
        [⟨some 2, 0⟩, ⟨none, EWOULDBLOCK⟩, ⟨some 1, 0⟩] = some t ∧
      t.resumed = true ∧ Transfer.Exact writeChannel (.new 5 (fun _ => 7) 3) t := by
  constructor
  · have hruns : (Transition.exec (IoCall.step smartRead ()) (IoCall.start smartRead () 5
        (.new 5 (fun _ => 0) 3) ⟨fun _ => .new 0, fun _ => none, []⟩) threeBytesRead).map
          (fun s => s.pushes.isEmpty) = some false := by
      decide +kernel
    obtain ⟨s, hs, hpushed⟩ := Option.map_eq_some_iff.1 hruns
    obtain ⟨t, ht, -, hres, hexact⟩ := (smartRead_smartWrite_exact () 5 (fun _ => 0) 3 (by decide)
      ⟨fun _ => .new 0, fun _ => none, []⟩).1 threeBytesRead s hs (by decide +kernel)
    exact ⟨t, ht, by rw [hres, hpushed]; rfl, hexact⟩
  · have hruns : (Transition.exec (IoCall.step smartWrite ()) (IoCall.start smartWrite () 5
        (.new 5 (fun _ => 7) 3) ⟨fun _ => .new 0, fun _ => none, []⟩) threeBytes).map
          (fun s => s.pushes.isEmpty) = some false := by
      decide +kernel
    obtain ⟨s, hs, hpushed⟩ := Option.map_eq_some_iff.1 hruns
    obtain ⟨t, ht, -, hres, -, hexact⟩ := (smartRead_smartWrite_exact () 5 (fun _ => 7) 3 (by decide)
      ⟨fun _ => .new 0, fun _ => none, []⟩).2 threeBytes s hs (by decide +kernel)
    exact ⟨t, ht, by rw [hres, hpushed]; rfl, hexact⟩

end SmartRoutine
