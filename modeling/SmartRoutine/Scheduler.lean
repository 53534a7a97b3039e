import Mathlib.Logic.Function.Basic
import SmartRoutine.BoundedQueue
import SmartRoutine.Lib.Transition

/-!
# Workers, coroutines and the runtime as a step function

Model of `SmartThread`, `SmartRuntime` and the start / yield / resume part of `smart_routine.cpp`
for any set `W` of workers, as one step function over explicit states.

A worker is both an OS thread (its `tls_smart_thread` never changes) and a `SmartThread` object.
The two are kept apart: every operation names the thread `t` that executes it and the object
`self` it is a member call on, because `coro_runner` keeps `tls_st` in a local across `fn_` and so
may call the members of another worker's object.  `Pc` says where the stack a thread is executing
stands; `Fcontext` says where a stack that was left through `switch_to` goes on.

User code is arbitrary: while a thread is inside `fn_` a label chooses what the coroutine does
next (`start`, `yield`, `read`, `write`, `finish`); everything else is `advance`.  Each step makes
at most one access to the state shared between threads (the global list, the parked set).

`trace` is a history variable: which worker object each thread touched, every store and execution
of the deferred action, every context handed to `switch_to`, every `destroy_coro`.
-/

set_option autoImplicit false

namespace SmartRoutine

/-- A `SmartCoro` object: a worker's `main_coro_`, or the `n`-th one made by
`smart_routine_start`. -/
inductive CoroId (W : Type) where
  | main (self : W)
  | user (n : Nat)
  deriving DecidableEq, Repr

/-- Locals of `coro_runner` that live across the call of `fn_`. -/
structure Runner (W : Type) where
  tlsSt : W
  currCoro : CoroId W
  deriving DecidableEq, Repr

/-- Where a jump to a context continues. -/
inductive Fcontext (W : Type) where
  /-- `make_fcontext(…, coro_runner)`, never entered. -/
  | fresh
  /-- Suspended in `switch_to` called by `yield`. -/
  | inYield (r : Runner W)
  /-- Suspended in `switch_to` called by `main_loop` of `self`. -/
  | inLoop (self : W)
  /-- Entered and not saved again: a jump to it is undefined. -/
  | running
  deriving DecidableEq, Repr

structure Coro (W : Type) where
  fcontext : Fcontext W
  finished : Bool
  destroyed : Bool
  deriving DecidableEq, Repr

/-- `delay_callback_` together with its argument.  An item is named by the coroutine it wakes. -/
inductive DelayCallback (W : Type) where
  | addBackToQueue (coro : CoroId W)
  | enableEpollReading (coro : CoroId W)
  | enableEpollWriting (coro : CoroId W)
  | destroyCoro (coro : CoroId W)
  deriving DecidableEq, Repr

/-- `SmartThread`; `main_coro_` of the object `self` is `CoroId.main self`. -/
structure SmartThread (W : Type) where
  currentCoro : CoroId W
  taskQueue : BoundedQueue (CoroId W)
  delayCallback : Option (DelayCallback W)

/-- Where the stack a thread executes stands. -/
inductive Pc (W : Type) where
  /-- Entry of `coro_runner`. -/
  | coroRunner
  /-- Inside `fn_`. -/
  | runFn (r : Runner W)
  /-- In `yield` of `self`: the callback is stored, `get_task` comes next. -/
  | yielding (r : Runner W) (self : W)
  /-- Top of `main_loop` of `self`. -/
  | mainLoop (self : W)
  /-- In `main_loop` of `self`: `switch_to` has returned. -/
  | afterSwitch (self : W)
  /-- Jumped to a context that was not suspended. -/
  | wild
  deriving DecidableEq, Repr

/-- Members of `SmartThread` that are not locked. -/
inductive Field where
  | taskQueue
  | currentCoro
  | delayCallback
  deriving DecidableEq, Repr

inductive Event (W : Type) where
  | access (thread self : W) (field : Field)
  | store (thread self : W) (cb : DelayCallback W) (storer : CoroId W)
  | exec (thread self : W) (cb : DelayCallback W)
  | switch (thread self : W) (src dst : CoroId W) (target : Coro W)
  | destroy (thread : W) (coro : CoroId W) (target : Coro W) (current : CoroId W)
  deriving DecidableEq, Repr

/-- The flags `task_queue_length` and `acquire_tasks_batch_size` (64 bits, unchecked). -/
structure Flags where
  taskQueueLength : Nat
  acquireTasksBatchSize : Nat

/-- `BoundedQueue(uint32_t capacity)` is given the 64-bit flag. -/
def Flags.capacity (f : Flags) : Nat := f.taskQueueLength % 2 ^ 32

/-- `get_tasks(unsigned int batch_size, …)` is given the 64-bit flag. -/
def Flags.batchSize (f : Flags) : Nat := f.acquireTasksBatchSize % 2 ^ 32

structure SmartRuntime (W : Type) where
  threads : W → SmartThread W
  pc : W → Pc W
  coros : CoroId W → Coro W
  nextCoro : Nat
  /-- `task_list_`, accessed under `task_list_lock_`. -/
  taskList : List (CoroId W)
  /-- Coroutines whose item is registered with epoll. -/
  parked : List (CoroId W)
  trace : List (Event W)

namespace SmartRuntime

variable {W : Type} [DecidableEq W]

/-- Every worker stands at the top of its `main_loop`, on its `main_coro_`. -/
def init (f : Flags) : SmartRuntime W where
  threads := fun self => ⟨.main self, .new f.capacity, none⟩
  pc := fun t => .mainLoop t
  coros := fun c => match c with
    | .main _ => ⟨.running, false, false⟩
    | .user _ => ⟨.fresh, false, false⟩
  nextCoro := 0
  taskList := []
  parked := []
  trace := []

/-! ## Updates of one component -/

def emit (s : SmartRuntime W) (e : Event W) : SmartRuntime W := { s with trace := s.trace ++ [e] }

def setPc (s : SmartRuntime W) (t : W) (p : Pc W) : SmartRuntime W :=
  { s with pc := Function.update s.pc t p }

def setCoro (s : SmartRuntime W) (c : CoroId W) (co : Coro W) : SmartRuntime W :=
  { s with coros := Function.update s.coros c co }

def setQueue (s : SmartRuntime W) (self : W) (q : BoundedQueue (CoroId W)) : SmartRuntime W :=
  { s with threads := Function.update s.threads self { s.threads self with taskQueue := q } }

def setCurrent (s : SmartRuntime W) (self : W) (c : CoroId W) : SmartRuntime W :=
  { s with threads := Function.update s.threads self { s.threads self with currentCoro := c } }

def setSlot (s : SmartRuntime W) (self : W) (cb : Option (DelayCallback W)) : SmartRuntime W :=
  { s with threads := Function.update s.threads self { s.threads self with delayCallback := cb } }

/-! ## The run queues -/

/-- `SmartRuntime::push_task`. -/
def pushGlobal (s : SmartRuntime W) (c : CoroId W) : SmartRuntime W := { s with taskList := s.taskList ++ [c] }

/-- `SmartThread::push_task` of `self`, executed by `t`. -/
def pushTask (s : SmartRuntime W) (t self : W) (c : CoroId W) : SmartRuntime W :=
  let s := s.emit (.access t self .taskQueue)
  let r := (s.threads self).taskQueue.push c
  let s := s.setQueue self r.2
  if r.1 then s else s.pushGlobal c

/-- `SmartThread::get_task` of `self`, executed by `t`; `none` is `nullptr`. -/
def getTask (f : Flags) (s : SmartRuntime W) (t self : W) : Option (CoroId W) × SmartRuntime W :=
  let s := s.emit (.access t self .taskQueue)
  let q := (s.threads self).taskQueue
  if q.empty then
    -- `get_tasks` splices at most `batch_size` coroutines off the global list
    match s.taskList.take f.batchSize with
    | [] => (none, s)
    | tmp =>
      let q := q.pushAll tmp
      (q.front, { s with taskList := s.taskList.drop f.batchSize }.setQueue self q.pop)
  else (q.front, s.setQueue self q.pop)

/-- The coroutine `get_task` of `self` is about to hand out: the oldest local one, else the first
of the global list. -/
def nextTask (f : Flags) (s : SmartRuntime W) (self : W) : Option (CoroId W) :=
  match (s.threads self).taskQueue.toList with
  | c :: _ => some c
  | [] => (s.taskList.take f.batchSize).head?

/-! ## Switching and the deferred action -/

/-- Where a thread stands after a jump to a context. -/
def entry : Fcontext W → Pc W
  | .fresh => .coroRunner
  | .inYield r => .runFn r
  | .inLoop self => .afterSwitch self
  | .running => .wild

/-- `SmartThread::switch_to` of `self`, executed by `t`; `saved` is the continuation
`jump_fcontext` stores into `current_coro_`. -/
def switchTo (s : SmartRuntime W) (t self : W) (next : CoroId W) (saved : Fcontext W) : SmartRuntime W :=
  let cur := (s.threads self).currentCoro
  let target := s.coros next
  let s := s.emit (.switch t self cur next target)
  let s := s.setCoro cur { s.coros cur with fcontext := saved }
  let s := s.setCoro next { s.coros next with fcontext := .running }
  (s.setCurrent self next).setPc t (if target.destroyed then .wild else entry target.fcontext)

/-- `delay_callback_ = …` of `self`, executed by `t` on the stack of `storer`. -/
def storeCallback (s : SmartRuntime W) (t self : W) (cb : DelayCallback W) (storer : CoroId W) : SmartRuntime W :=
  (s.setSlot self (some cb)).emit (.store t self cb storer)

/-- The body of a deferred action, run by thread `t`. -/
def runCallback (s : SmartRuntime W) (t : W) : DelayCallback W → SmartRuntime W
  | .addBackToQueue c => s.pushTask t t c
  | .enableEpollReading c => { s with parked := s.parked ++ [c] }
  | .enableEpollWriting c => { s with parked := s.parked ++ [c] }
  | .destroyCoro c =>
    (s.emit (.destroy t c (s.coros c) (s.threads t).currentCoro)).setCoro c
      { s.coros c with destroyed := true }

/-- `if (delay_callback_) { delay_callback_(args); delay_callback_ = nullptr; … }` of `self`. -/
def flushCallback (s : SmartRuntime W) (t self : W) : SmartRuntime W :=
  match (s.threads self).delayCallback with
  | none => s.emit (.access t self .delayCallback)
  | some cb => ((s.emit (.exec t self cb)).runCallback t cb).setSlot self none

/-! ## Steps -/

/-- `coro_runner` up to the call of `fn_`. -/
def coroRunner (s : SmartRuntime W) (t : W) : SmartRuntime W :=
  let s := (s.flushCallback t t).emit (.access t t .currentCoro)
  s.setPc t (.runFn ⟨t, (s.threads t).currentCoro⟩)

/-- `smart_routine_start` called on a worker. -/
def smartRoutineStart (s : SmartRuntime W) (t : W) : SmartRuntime W :=
  { s with nextCoro := s.nextCoro + 1 }.pushTask t t (.user s.nextCoro)

/-- `SmartThread::yield` of `t` up to `get_task`, with the callback made from `current_coro_`. -/
def yieldWith (s : SmartRuntime W) (t : W) (r : Runner W) (cb : CoroId W → DelayCallback W) : SmartRuntime W :=
  let s := s.emit (.access t t .currentCoro)
  (s.storeCallback t t (cb (s.threads t).currentCoro) r.currCoro).setPc t (.yielding r t)

/-- The rest of `yield` of `self`: `get_task` and `switch_to` on `tls_smart_thread`. -/
def yieldSwitch (f : Flags) (s : SmartRuntime W) (t : W) (r : Runner W) (self : W) : SmartRuntime W :=
  match s.getTask f t t with
  | (some c, s) => s.switchTo t t c (.inYield r)
  | (none, s) => s.switchTo t t (.main self) (.inYield r)

/-- The end of `coro_runner`: `fn_` has returned. -/
def finishCoro (s : SmartRuntime W) (t : W) (r : Runner W) : SmartRuntime W :=
  let s := s.setCoro r.currCoro { s.coros r.currCoro with finished := true }
  (s.storeCallback t r.tlsSt (.destroyCoro r.currCoro) r.currCoro).setPc t (.mainLoop r.tlsSt)

/-- One turn of `main_loop` of `self`; without a task the thread sleeps and tries again. -/
def mainLoop (f : Flags) (s : SmartRuntime W) (t self : W) : SmartRuntime W :=
  match s.getTask f t self with
  | (some c, s) => s.switchTo t self c (.inLoop self)
  | (none, s) => s

/-- `main_loop` of `self` after `switch_to` has returned. -/
def afterSwitch (s : SmartRuntime W) (t self : W) : SmartRuntime W :=
  (s.flushCallback t self).setPc t (.mainLoop self)

end SmartRuntime

inductive Action where
  | start
  | yield
  | read
  | write
  | finish
  | advance
  deriving DecidableEq, Repr

inductive Label (W : Type) where
  /-- `smart_routine_start` on a thread that is no worker. -/
  | externalStart
  /-- The epoller thread takes a coroutine out of the parked set and resumes it. -/
  | ioComplete (c : CoroId W)
  | worker (t : W) (a : Action)
  deriving DecidableEq, Repr

section

variable {W : Type} [DecidableEq W]

open SmartRuntime

/-- One step of a worker thread. -/
def workerStep (f : Flags) (s : SmartRuntime W) (t : W) (a : Action) : Option (SmartRuntime W) :=
  match s.pc t, a with
  | .coroRunner, .advance => some (s.coroRunner t)
  | .runFn _, .start => some (s.smartRoutineStart t)
  | .runFn r, .yield => some (s.yieldWith t r .addBackToQueue)
  | .runFn r, .read => some (s.yieldWith t r .enableEpollReading)
  | .runFn r, .write => some (s.yieldWith t r .enableEpollWriting)
  | .runFn r, .finish => some (s.finishCoro t r)
  | .yielding r self, .advance => some (s.yieldSwitch f t r self)
  | .mainLoop self, .advance => some (s.mainLoop f t self)
  | .afterSwitch self, .advance => some (s.afterSwitch t self)
  | _, _ => none

/-- One step of the runtime. -/
def step (f : Flags) (s : SmartRuntime W) : Label W → Option (SmartRuntime W)
  | .externalStart => some ({ s with nextCoro := s.nextCoro + 1 }.pushGlobal (.user s.nextCoro))
  | .ioComplete c =>
    if c ∈ s.parked then some ({ s with parked := s.parked.erase c }.pushGlobal c) else none
  | .worker t a => workerStep f s t a

/-- Run the runtime from its initial state. -/
def run (f : Flags) (ls : List (Label W)) : Option (SmartRuntime W) := Transition.exec (step f) (init f) ls

end

end SmartRoutine
