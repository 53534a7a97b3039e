import SmartRoutine.SocketWorld

/-!
# The handlers and blocking descriptors

The descriptors of sockets with their file status flag `O_NONBLOCK`, while coroutines open, accept,
move and close, and the epoller's thread calls handlers.

* `Modes` — `smart_socket` has made every descriptor non-blocking that `open` returned; one that
  `accept` returned is blocking.
* `run_nonBlocking_iff` — no handler is called on a blocking descriptor **exactly** when none is
  called on an accepted one.
* `accepted_peer_blocks` — a connection is accepted and read.
-/

set_option autoImplicit false

namespace SmartRoutine

/-- The handlers that make a system call on the descriptor of an object. -/
inductive Handler where
  | smartReadImpl
  | smartWriteImpl
  | smartAcceptImpl
  | smartReadUntilImpl
  deriving DecidableEq, Repr

/-- `smart_socket`: `socket` returns a blocking descriptor, and with `tls_smart_thread` set `fcntl`
adds `O_NONBLOCK`. -/
def smartSocketMode (coroutine : Bool) (nonblocking : Int → Bool) (fd : Int) : Int → Bool :=
  if fd ≥ 0 then
    let nonblocking := Function.update nonblocking fd false
    if coroutine then Function.update nonblocking fd true else nonblocking
  else nonblocking

/-- `smart_accept`: what `accept` returns is blocking, whatever the listening socket is. -/
def smartAcceptMode (nonblocking : Int → Bool) (fd : Int) : Int → Bool :=
  if fd ≥ 0 then Function.update nonblocking fd false else nonblocking

/-- What the calls of an operation on a coroutine do to the flag. -/
def SysCall.mode (nonblocking : Int → Bool) : SysCall → Int → Bool
  | .socket ret => smartSocketMode true nonblocking ret
  | .accept _ ret => smartAcceptMode nonblocking ret
  | _ => nonblocking

/-- The system calls that an operation makes. -/
def SocketWorld.calls {ι : Type} (w : SocketWorld ι) : SocketLabel ι → List SysCall
  | .construct _ _ => []
  | .moveConstruct _ _ _ => []
  | .open_ o r => ((w.objects o).map fun x => (x.base.open_ r .success).calls).getD []
  | .bind o addr r => ((w.objects o).map fun x => (x.base.bind addr r .success).calls).getD []
  | .connect o r => ((w.objects o).map fun x => (x.base.connect r .success).calls).getD []
  | .listen o r =>
    match w.objects o with
    | some (.acceptor a) => (a.listen r .success).calls
    | _ => []
  | .accept o peer r =>
    match w.objects o, w.objects peer with
    | some (.acceptor a), some p => (a.accept p.base r .success).calls
    | _, _ => []
  | .close o => ((w.objects o).map fun x => (x.base.close .success).calls).getD []
  | .destroy o => ((w.objects o).map fun x => x.base.destroy).getD []

/-- The objects and the kernel, with the flag of every descriptor. -/
structure SocketModes (ι : Type) where
  world : SocketWorld ι
  nonblocking : Int → Bool

inductive ModeLabel (ι : Type) where
  | op (l : SocketLabel ι)
  /-- The handler is called on the descriptor that `o` holds. -/
  | handler (o : ι) (h : Handler)
  deriving DecidableEq

/-! ## Operations and their calls -/

namespace SocketWorld

variable {ι : Type} [DecidableEq ι] {w w' : SocketWorld ι} {o : ι}

theorem commit_kernel {x : Option SocketObject} {calls : List SysCall}
    (h : w.commit o x calls = some w') : w'.kernel = w.kernel.run calls := by
  unfold commit at h
  split at h
  · cases h
    rfl
  · cases h

theorem onBase_kernel {f : TcpSocket → Done TcpSocket} (h : w.onBase o f = some w') :
    w'.kernel = w.kernel.run (((w.objects o).map fun x => (f x.base).calls).getD []) := by
  unfold onBase at h
  split at h
  · rename_i x hx
    rw [hx]
    exact commit_kernel h
  · cases h

/-- An operation changes the kernel by its calls. -/
theorem step_kernel {l : SocketLabel ι} (h : w.step l = some w') :
    w'.kernel = w.kernel.run (w.calls l) := by
  cases step_turn h with
  | construct _ hcommit => exact commit_kernel hcommit
  | moveConstruct _ _ _ hw' =>
    subst hw'
    rfl
  | @open_ o r hbase => exact onBase_kernel (f := fun s => s.open_ r .success) hbase
  | @bind o addr r hbase => exact onBase_kernel (f := fun s => s.bind addr r .success) hbase
  | @connect o r hbase => exact onBase_kernel (f := fun s => s.connect r .success) hbase
  | listen ha hcommit =>
    simp only [calls, ha]
    exact commit_kernel hcommit
  | accept ha hp hcommit =>
    simp only [calls, ha, hp]
    exact commit_kernel hcommit
  | close hbase => exact onBase_kernel (f := fun s => s.close .success) hbase
  | destroy hx hcommit =>
    simp only [calls, hx]
    exact commit_kernel hcommit

end SocketWorld

/-! ## The flag -/

/-- The flag of an open descriptor says where it came from. -/
def Modes (k : Kernel) (nonblocking : Int → Bool) : Prop :=
  ∀ fd d, k.fds fd = some d → nonblocking fd = !d.accepted

section

variable {k : Kernel} {nonblocking : Int → Bool}

/-- One descriptor changes; the flags of the others stay. -/
theorem Modes.update (h : Modes k nonblocking) {k' : Kernel} {fd : Int} {x : Option Descriptor}
    (hk : k'.fds = Function.update k.fds fd x) {nonblocking' : Int → Bool}
    (hself : ∀ d, x = some d → nonblocking' fd = !d.accepted)
    (hother : ∀ fd', fd' ≠ fd → nonblocking' fd' = nonblocking fd') : Modes k' nonblocking' := by
  intro fd' d hd
  rw [hk] at hd
  by_cases he : fd' = fd
  · rw [he, Function.update_self] at hd
    rw [he]
    exact hself d hd
  · rw [Function.update_of_ne he] at hd
    rw [hother fd' he]
    exact h fd' d hd

theorem Modes.mark (h : Modes k nonblocking) (fd : Int) {f : Descriptor → Descriptor}
    (hf : ∀ d, (f d).accepted = d.accepted) : Modes (k.mark fd f) nonblocking := by
  refine h.update rfl (fun d hd => ?_) fun _ _ => rfl
  obtain ⟨d', hd', rfl⟩ := Option.map_eq_some_iff.1 hd
  rw [hf]
  exact h fd d' hd'

/-- A descriptor is returned, and its flag set one way or the other. -/
theorem Modes.opened (h : Modes k nonblocking) {ret : Int} (hret : 0 ≤ ret) (accepted : Bool)
    {nonblocking' : Int → Bool} (hself : nonblocking' ret = !accepted)
    (hother : ∀ fd, fd ≠ ret → nonblocking' fd = nonblocking fd) :
    Modes (k.opened ret accepted) nonblocking' := by
  rw [Kernel.opened, if_pos hret]
  refine h.update rfl (fun d hd => ?_) hother
  cases hd
  exact hself

theorem Kernel.opened_of_neg {ret : Int} (h : ¬ 0 ≤ ret) (accepted : Bool) :
    k.opened ret accepted = k := if_neg h

/-- **One system call.** -/
theorem Modes.apply (h : Modes k nonblocking) (c : SysCall) :
    Modes (k.apply c) (c.mode nonblocking) := by
  cases c with
  | socket ret =>
    simp only [Kernel.apply, SysCall.mode, smartSocketMode, if_true, ge_iff_le]
    split
    · rename_i hret
      refine h.opened hret false (Function.update_self ..) fun fd hne => ?_
      rw [Function.update_of_ne hne, Function.update_of_ne hne]
    · rename_i hret
      rw [Kernel.opened_of_neg hret]
      exact h
  | accept fd ret =>
    simp only [Kernel.apply, SysCall.mode, smartAcceptMode, ge_iff_le]
    split
    · rename_i hret
      exact h.opened hret true (Function.update_self ..) fun fd hne => Function.update_of_ne hne ..
    · rename_i hret
      rw [Kernel.opened_of_neg hret]
      exact h
  | bind fd ok =>
    cases ok with
    | true => exact h.mark fd fun _ => rfl
    | false => exact h
  | connect fd ok =>
    cases ok with
    | true => exact h.mark fd fun _ => rfl
    | false => exact h
  | listen fd ok =>
    cases ok with
    | true => exact h.mark fd fun _ => rfl
    | false => exact h
  | setsockopt fd ok => exact h
  | close fd =>
    simp only [Kernel.apply, SysCall.mode]
    split
    · exact h.update rfl (fun d hd => by cases hd) fun _ _ => rfl
    · exact h

theorem Modes.run (calls : List SysCall) (h : Modes k nonblocking) :
    Modes (k.run calls) (calls.foldl SysCall.mode nonblocking) := by
  induction calls generalizing k nonblocking with
  | nil => exact h
  | cons c calls ih => exact ih (h.apply c)

end

/-! ## Runs -/

namespace SocketModes

variable {ι : Type} [DecidableEq ι]

def start : SocketModes ι := ⟨.start, fun _ => false⟩

def step (s : SocketModes ι) : ModeLabel ι → Option (SocketModes ι)
  | .op l => (s.world.step l).map fun w => ⟨w, (s.world.calls l).foldl SysCall.mode s.nonblocking⟩
  | .handler o _ => if (s.world.holds o).isSome then some s else none

/-- The system call of a handler does not block. -/
def nonBlocking (s : SocketModes ι) : ModeLabel ι → Bool
  | .op _ => true
  | .handler o _ => (s.world.holds o).all s.nonblocking

/-- A handler is called on a descriptor that `open` made. -/
def onOpened (s : SocketModes ι) : ModeLabel ι → Bool
  | .op _ => true
  | .handler o _ => ((s.world.holds o).bind s.world.kernel.fds).all fun d => !d.accepted

structure Inv (s : SocketModes ι) : Prop where
  world : s.world.Inv
  modes : Modes s.world.kernel s.nonblocking

omit [DecidableEq ι] in
theorem start_inv : Inv (start : SocketModes ι) :=
  ⟨SocketWorld.start_inv, fun fd d h => by cases h⟩

variable {s s' : SocketModes ι} {l : ModeLabel ι}

theorem step_inv (hs : Inv s) (hstep : s.step l = some s') : Inv s' := by
  cases l with
  | op l =>
    obtain ⟨w, hw, rfl⟩ := Option.map_eq_some_iff.1 hstep
    refine ⟨SocketWorld.step_inv hs.world hw, ?_⟩
    show Modes w.kernel _
    rw [SocketWorld.step_kernel hw]
    exact hs.modes.run _
  | handler o h =>
    simp only [step] at hstep
    split at hstep
    · cases hstep
      exact hs
    · cases hstep

omit [DecidableEq ι] in
/-- **A handler blocks exactly on an accepted descriptor.** -/
theorem nonBlocking_iff (hs : Inv s) (l : ModeLabel ι) :
    s.nonBlocking l = true ↔ s.onOpened l = true := by
  cases l with
  | op l => exact Iff.rfl
  | handler o h =>
    cases ho : s.world.holds o with
    | none => simp [nonBlocking, onOpened, ho]
    | some fd =>
      obtain ⟨d, hd⟩ := Option.isSome_iff_exists.1 (hs.world.exact.live_of_holds o fd ho)
      simp [nonBlocking, onOpened, ho, hd, hs.modes fd d hd]

end SocketModes

/-- **The epoller's thread never blocks in a handler, in any run, exactly when no handler is called
on an accepted descriptor.** -/
theorem SocketModes.run_nonBlocking_iff {ι : Type} [DecidableEq ι] (ls : List (ModeLabel ι)) :
    Transition.Guarded step (fun s l => s.nonBlocking l = true) (start : SocketModes ι) ls ↔
      Transition.Guarded step (fun s l => s.onOpened l = true) (start : SocketModes ι) ls :=
  Transition.Guarded.congr (P := Inv) (fun _ _ _ hs _ hstep => step_inv hs hstep)
    (fun _ l _ hs _ _ => nonBlocking_iff hs l) ls start_inv
    (Transition.guarded_of_mem (G := fun _ _ => True) ls start fun _ _ _ => trivial)

/-- **An accepted connection is read on a blocking descriptor.** -/
theorem SocketModes.accepted_peer_blocks :
    ¬ Transition.Guarded step (fun s l => s.nonBlocking l = true) (start : SocketModes Nat)
      [.op (.construct 0 true), .op (.open_ 0 ⟨3, 0⟩), .op (.bind 0 true ⟨0, 0⟩),
        .op (.listen 0 ⟨0, 0⟩), .op (.construct 1 false), .handler 0 .smartAcceptImpl,
        .op (.accept 0 1 ⟨4, 0⟩), .handler 1 .smartReadImpl] := by
  decide +kernel

end SmartRoutine
