import SmartRoutine.Lib.Ownership
import SmartRoutine.Lib.Transition
import SmartRoutine.Sockets

/-!
# Sockets and their descriptors

Any number of `TcpSocket` and `Acceptor` objects over a kernel that keeps, for every open
descriptor, which calls have succeeded on it.  A system call may have any outcome, except that
`socket` and `accept` return no descriptor that is open.

* `Inv` — every open descriptor is held by one object, and nothing has been closed twice.
* `step_inv` — every operation, on every path, keeps it.
* `run_ownedOnce` — the same over whole runs.
-/

set_option autoImplicit false

namespace SmartRoutine

/-! ## The kernel -/

/-- An open descriptor: where it came from, and the calls that succeeded on it. -/
structure Descriptor where
  accepted : Bool
  bound : Bool
  connected : Bool
  listening : Bool
  deriving DecidableEq, Repr

structure Kernel where
  fds : Int → Option Descriptor
  /-- Descriptors closed when they were not open. -/
  doubleCloses : List Int

namespace Kernel

def boot : Kernel := ⟨fun _ => none, []⟩

/-- A call succeeded on a descriptor. -/
def mark (k : Kernel) (fd : Int) (f : Descriptor → Descriptor) : Kernel :=
  { k with fds := Function.update k.fds fd ((k.fds fd).map f) }

/-- `socket` or `accept` came back with `ret`. -/
def opened (k : Kernel) (ret : Int) (accepted : Bool) : Kernel :=
  if 0 ≤ ret then { k with fds := Function.update k.fds ret (some ⟨accepted, false, false, false⟩) }
  else k

def apply (k : Kernel) : SysCall → Kernel
  | .socket ret => k.opened ret false
  | .accept _ ret => k.opened ret true
  | .bind fd ok => if ok then k.mark fd fun d => { d with bound := true } else k
  | .connect fd ok => if ok then k.mark fd fun d => { d with connected := true } else k
  | .listen fd ok => if ok then k.mark fd fun d => { d with listening := true } else k
  | .setsockopt _ _ => k
  | .close fd =>
    if (k.fds fd).isSome then { k with fds := Function.update k.fds fd none }
    else { k with doubleCloses := k.doubleCloses ++ [fd] }

def run (k : Kernel) (calls : List SysCall) : Kernel := calls.foldl apply k

def live (k : Kernel) (fd : Int) : Prop := (k.fds fd).isSome = true

/-- A descriptor that is returned is not open. -/
def possible (k : Kernel) : SysCall → Bool
  | .socket ret => ret < 0 || (k.fds ret).isNone
  | .accept _ ret => ret < 0 || (k.fds ret).isNone
  | _ => true

end Kernel

/-! ## The objects -/

inductive SocketObject where
  | tcpSocket (s : TcpSocket)
  | acceptor (a : Acceptor)
  deriving DecidableEq, Repr

namespace SocketObject

def base : SocketObject → TcpSocket
  | tcpSocket s => s
  | acceptor a => a.toTcpSocket

/-- What a member function of `TcpSocket` does to an object of either class. -/
def setBase : SocketObject → TcpSocket → SocketObject
  | tcpSocket _, s => tcpSocket s
  | acceptor a, s => acceptor ⟨s, a.listening⟩

/-- Construct an `Acceptor`, or a `TcpSocket`, from an rvalue: the new object and the old one. -/
def moveTo : SocketObject → Bool → Option (SocketObject × SocketObject)
  | tcpSocket s, false => some (tcpSocket s.move.1, tcpSocket s.move.2)
  | acceptor a, false => some (tcpSocket a.toTcpSocket.move.1, (acceptor a).setBase a.toTcpSocket.move.2)
  | acceptor a, true => some (acceptor a.move.1, acceptor a.move.2)
  | tcpSocket _, true => none

end SocketObject

/-- The live objects and the kernel. -/
structure SocketWorld (ι : Type) where
  objects : ι → Option SocketObject
  kernel : Kernel

inductive SocketLabel (ι : Type) where
  | construct (o : ι) (isAcceptor : Bool)
  | moveConstruct (o source : ι) (isAcceptor : Bool)
  | open_ (o : ι) (r : Returned)
  | bind (o : ι) (addr : Bool) (r : Returned)
  | connect (o : ι) (r : Returned)
  | listen (o : ι) (r : Returned)
  | accept (o peer : ι) (r : Returned)
  | close (o : ι)
  | destroy (o : ι)
  deriving DecidableEq

namespace SocketWorld

variable {ι : Type} [DecidableEq ι]

def start : SocketWorld ι := ⟨fun _ => none, .boot⟩

/-- An object after an operation, and the calls it made. -/
def commit (w : SocketWorld ι) (o : ι) (x : Option SocketObject) (calls : List SysCall) :
    Option (SocketWorld ι) :=
  if calls.all w.kernel.possible then some ⟨Function.update w.objects o x, w.kernel.run calls⟩
  else none

/-- A member function of `TcpSocket`. -/
def onBase (w : SocketWorld ι) (o : ι) (f : TcpSocket → Done TcpSocket) : Option (SocketWorld ι) :=
  match w.objects o with
  | some x => w.commit o (some (x.setBase (f x.base).state)) (f x.base).calls
  | none => none

def step (w : SocketWorld ι) : SocketLabel ι → Option (SocketWorld ι)
  | .construct o isAcceptor =>
    match w.objects o with
    | none => w.commit o (some (if isAcceptor then .acceptor .new else .tcpSocket .new)) []
    | some _ => none
  | .moveConstruct o source isAcceptor =>
    match w.objects o, w.objects source with
    | none, some x => (x.moveTo isAcceptor).map fun r =>
        { w with objects := Function.update (Function.update w.objects source (some r.2)) o (some r.1) }
    | _, _ => none
  | .open_ o r => w.onBase o fun s => s.open_ r .success
  | .bind o addr r => w.onBase o fun s => s.bind addr r .success
  | .connect o r => w.onBase o fun s => s.connect r .success
  | .listen o r =>
    match w.objects o with
    | some (.acceptor a) => w.commit o (some (.acceptor (a.listen r .success).state)) (a.listen r .success).calls
    | _ => none
  | .accept o peer r =>
    match w.objects o, w.objects peer with
    | some (.acceptor a), some p =>
      w.commit peer (some (p.setBase (a.accept p.base r .success).state)) (a.accept p.base r .success).calls
    | _, _ => none
  | .close o => w.onBase o fun s => s.close .success
  | .destroy o =>
    match w.objects o with
    | some x => w.commit o none x.base.destroy
    | none => none

end SocketWorld

/-! ## What the operations do to ownership -/

/-- The descriptor a socket holds. -/
def TcpSocket.held (s : TcpSocket) : Option Int := if 0 ≤ s.socket then some s.socket else none

def SysCall.returns (ret : Int) : SysCall → Prop
  | .socket r => r = ret
  | .accept _ r => r = ret
  | _ => False

/-- A call that neither opens nor closes a descriptor. -/
def SysCall.neutral : SysCall → Bool
  | .socket ret => ret < 0
  | .accept _ ret => ret < 0
  | .close _ => false
  | _ => true

/-- How the calls of an operation change what its object holds. -/
inductive Effect : Option Int → Option Int → List SysCall → Prop where
  | keep (h : Option Int) (calls : List SysCall) (hneutral : ∀ c ∈ calls, c.neutral = true) :
    Effect h h calls
  | release (fd : Int) : Effect (some fd) none [.close fd]
  | acquire (c : SysCall) (ret : Int) (hret : 0 ≤ ret) (hc : c.returns ret) :
    Effect none (some ret) [c]
  | replace (c : SysCall) (ret fd : Int) (hret : 0 ≤ ret) (hc : c.returns ret) :
    Effect (some fd) (some ret) [c, .close fd]

/-- `opened_` says whether there is a descriptor. -/
def TcpSocket.Opened (s : TcpSocket) : Prop := s.opened = true ↔ 0 ≤ s.socket

namespace TcpSocket

section

variable {s : TcpSocket} {r : Returned} {ec : CodeVal}

theorem held_of_nonneg (h : 0 ≤ s.socket) : s.held = some s.socket := if_pos h

theorem held_of_neg (h : s.socket < 0) : s.held = none := if_neg (by omega)

theorem Opened.neg (h : s.Opened) (hclosed : ¬ s.opened = true) : s.socket < 0 := by
  have hnot := mt h.2 hclosed
  omega

/-- An operation that changes flags only. -/
theorem effect_keep {s' : TcpSocket} {calls : List SysCall} (hsocket : s'.socket = s.socket)
    (hneutral : ∀ c ∈ calls, c.neutral = true) : Effect s.held s'.held calls := by
  unfold held
  rw [hsocket]
  exact Effect.keep _ calls hneutral

theorem open_effect (h : s.Opened) :
    Effect s.held (s.open_ r ec).state.held (s.open_ r ec).calls ∧ (s.open_ r ec).state.Opened := by
  unfold open_
  split
  · exact ⟨effect_keep rfl (by simp), h⟩
  · rename_i hclosed
    have hneg := h.neg hclosed
    dsimp only
    split
    · rename_i hfail
      refine ⟨?_, ?_⟩
      · rw [held_of_neg hneg, held_of_neg hfail]
        apply Effect.keep
        intro c hc
        rw [List.mem_singleton.1 hc]
        exact decide_eq_true hfail
      · unfold Opened
        exact ⟨fun h' => absurd h' hclosed, fun h' => absurd (show 0 ≤ r.value from h') (by omega)⟩
    · rename_i hok
      have hret : 0 ≤ r.value := by omega
      refine ⟨?_, ⟨fun _ => hret, fun _ => rfl⟩⟩
      rw [held_of_neg hneg, held_of_nonneg hret]
      exact Effect.acquire _ _ hret rfl

theorem bind_effect {addr : Bool} (h : s.Opened) :
    Effect s.held (s.bind addr r ec).state.held (s.bind addr r ec).calls ∧
      (s.bind addr r ec).state.Opened := by
  unfold bind
  split
  · exact ⟨effect_keep rfl (by simp), h⟩
  · split
    · exact ⟨effect_keep rfl (by simp), h⟩
    · split <;> exact ⟨effect_keep rfl (by simp [SysCall.neutral]), h⟩

theorem connect_effect (h : s.Opened) :
    Effect s.held (s.connect r ec).state.held (s.connect r ec).calls ∧
      (s.connect r ec).state.Opened := by
  unfold connect
  split
  · exact ⟨effect_keep rfl (by simp), h⟩
  · split <;> exact ⟨effect_keep rfl (by simp [SysCall.neutral]), h⟩

theorem close_effect (h : s.Opened) :
    Effect s.held (s.close ec).state.held (s.close ec).calls ∧ (s.close ec).state.Opened := by
  unfold close
  split
  · exact ⟨effect_keep rfl (by simp), h⟩
  · split
    · rename_i hge
      refine ⟨?_, ⟨fun h' => absurd h' Bool.false_ne_true,
        fun h' => absurd (show (0 : Int) ≤ -1 from h') (by decide)⟩⟩
      rw [held_of_nonneg hge]
      exact Effect.release _
    · exact ⟨effect_keep rfl (by simp), h⟩

theorem destroy_effect (s : TcpSocket) : Effect s.held none s.destroy := by
  unfold destroy
  split
  · rename_i hge
    rw [held_of_nonneg hge]
    exact Effect.release _
  · rw [held_of_neg (by omega)]
    exact Effect.keep _ _ (by simp)

end

end TcpSocket

section

variable {a : Acceptor} {peer : TcpSocket} {r : Returned} {ec : CodeVal}

theorem Acceptor.listen_effect (h : a.toTcpSocket.Opened) :
    Effect a.toTcpSocket.held (a.listen r ec).state.toTcpSocket.held (a.listen r ec).calls ∧
      (a.listen r ec).state.toTcpSocket.Opened := by
  unfold Acceptor.listen
  split
  · exact ⟨TcpSocket.effect_keep rfl (by simp), h⟩
  · split <;> exact ⟨TcpSocket.effect_keep rfl (by simp [SysCall.neutral]), h⟩

/-- The accepted descriptor takes the place of the one the peer had, if any. -/
theorem Acceptor.accept_effect (h : peer.Opened) :
    Effect peer.held (a.accept peer r ec).state.held (a.accept peer r ec).calls ∧
      (a.accept peer r ec).state.Opened := by
  unfold Acceptor.accept
  split
  · exact ⟨TcpSocket.effect_keep rfl (by simp), h⟩
  · split
    · rename_i hfail
      exact ⟨TcpSocket.effect_keep rfl (by simpa [SysCall.neutral] using hfail), h⟩
    · rename_i hok
      have hret : 0 ≤ r.value := by omega
      refine ⟨?_, ⟨fun _ => hret, fun _ => rfl⟩⟩
      dsimp only [TcpSocket.setAcceptedFd]
      rw [TcpSocket.held_of_nonneg (s := ⟨r.value, true, true, true⟩) hret]
      by_cases hpeer : peer.socket ≥ 0
      · rw [if_pos hpeer, TcpSocket.held_of_nonneg hpeer]
        exact Effect.replace _ _ _ hret rfl
      · rw [if_neg hpeer, TcpSocket.held_of_neg (by omega)]
        exact Effect.acquire _ _ hret rfl

end

/-! ## The kernel's books -/

namespace Kernel

section

variable {k : Kernel} {fd x ret : Int} {c : SysCall}

theorem live_mark (f : Descriptor → Descriptor) : (k.mark fd f).live x ↔ k.live x := by
  unfold live mark
  dsimp only
  by_cases hx : x = fd
  · rw [hx, Function.update_self, Option.isSome_map]
  · rw [Function.update_of_ne hx]

theorem live_opened {accepted : Bool} (h : 0 ≤ ret) :
    (k.opened ret accepted).live x ↔ x = ret ∨ k.live x := by
  unfold live opened
  rw [if_pos h]
  dsimp only
  by_cases hx : x = ret
  · simp [hx]
  · rw [Function.update_of_ne hx]
    simp [hx]

theorem apply_neutral (h : c.neutral = true) :
    ((k.apply c).live x ↔ k.live x) ∧ (k.apply c).doubleCloses = k.doubleCloses := by
  cases c with
  | socket ret =>
    have hret : ¬ 0 ≤ ret := by
      simp only [SysCall.neutral, decide_eq_true_eq] at h
      omega
    simp only [apply, opened, if_neg hret, and_self]
  | accept fd ret =>
    have hret : ¬ 0 ≤ ret := by
      simp only [SysCall.neutral, decide_eq_true_eq] at h
      omega
    simp only [apply, opened, if_neg hret, and_self]
  | bind fd ok =>
    cases ok with
    | true => exact ⟨live_mark _, rfl⟩
    | false => exact ⟨Iff.rfl, rfl⟩
  | connect fd ok =>
    cases ok with
    | true => exact ⟨live_mark _, rfl⟩
    | false => exact ⟨Iff.rfl, rfl⟩
  | listen fd ok =>
    cases ok with
    | true => exact ⟨live_mark _, rfl⟩
    | false => exact ⟨Iff.rfl, rfl⟩
  | setsockopt fd ok => exact ⟨Iff.rfl, rfl⟩
  | close fd => cases h

theorem run_neutral : ∀ (calls : List SysCall) (k : Kernel), (∀ c ∈ calls, c.neutral = true) →
    ((k.run calls).live x ↔ k.live x) ∧ (k.run calls).doubleCloses = k.doubleCloses := by
  intro calls
  induction calls with
  | nil =>
    intro k _
    exact ⟨Iff.rfl, rfl⟩
  | cons c calls ih =>
    intro k h
    obtain ⟨hlive, hcloses⟩ := ih (k.apply c) fun c' hc' => h c' (List.mem_cons_of_mem c hc')
    obtain ⟨hlive₁, hcloses₁⟩ := apply_neutral (k := k) (x := x) (h c List.mem_cons_self)
    exact ⟨hlive.trans hlive₁, hcloses.trans hcloses₁⟩

/-- A descriptor that was returned is new, and open then. -/
theorem apply_returns (hc : c.returns ret) (hret : 0 ≤ ret) (hpossible : k.possible c = true) :
    ¬ k.live ret ∧ (∀ x, (k.apply c).live x ↔ x = ret ∨ k.live x) ∧
      (k.apply c).doubleCloses = k.doubleCloses := by
  have hnew : ∀ {r}, r = ret → (r < 0 || (k.fds r).isNone) = true → ¬ k.live ret := by
    rintro r rfl hp
    simp only [Bool.or_eq_true, decide_eq_true_eq, Option.isNone_iff_eq_none] at hp
    rcases hp with hneg | hnone
    · omega
    · unfold live
      rw [hnone]
      exact Bool.false_ne_true
  cases c with
  | socket r =>
    refine ⟨hnew hc hpossible, ?_, ?_⟩
    · intro x
      rw [show r = ret from hc]
      exact live_opened hret
    · show (k.opened r false).doubleCloses = k.doubleCloses
      unfold opened
      split <;> rfl
  | accept fd r =>
    refine ⟨hnew hc hpossible, ?_, ?_⟩
    · intro x
      rw [show r = ret from hc]
      exact live_opened hret
    · show (k.opened r true).doubleCloses = k.doubleCloses
      unfold opened
      split <;> rfl
  | bind fd ok => exact hc.elim
  | connect fd ok => exact hc.elim
  | listen fd ok => exact hc.elim
  | setsockopt fd ok => exact hc.elim
  | close fd => exact hc.elim

/-- Closing an open descriptor. -/
theorem apply_close (h : k.live fd) :
    (∀ x, (k.apply (.close fd)).live x ↔ k.live x ∧ x ≠ fd) ∧
      (k.apply (.close fd)).doubleCloses = k.doubleCloses := by
  have happly : k.apply (.close fd) = { k with fds := Function.update k.fds fd none } := if_pos h
  rw [happly]
  refine ⟨?_, rfl⟩
  intro x
  unfold live
  dsimp only
  by_cases hx : x = fd
  · simp [hx]
  · rw [Function.update_of_ne hx]
    simp [hx]

/-- **The calls of an operation change ownership as its effect says**, and close nothing twice. -/
theorem run_effect {ι : Type} [DecidableEq ι] {holds : ι → Option Int} {o : ι} {h' : Option Int}
    {calls : List SysCall} (h : Ownership.Exact holds k.live) (heffect : Effect (holds o) h' calls)
    (hpossible : calls.all k.possible = true) :
    Ownership.Exact (Function.update holds o h') (k.run calls).live ∧
      (k.run calls).doubleCloses = k.doubleCloses := by
  generalize hbefore : holds o = before at heffect
  cases heffect with
  | keep _ _ hneutral =>
    refine ⟨?_, (run_neutral (x := 0) calls k hneutral).2⟩
    rw [← hbefore, Function.update_eq_self]
    exact h.congr fun x => (run_neutral calls k hneutral).1
  | release fd =>
    obtain ⟨hlive, hcloses⟩ := apply_close (h.live_of_holds o fd hbefore)
    exact ⟨(h.release hbefore).congr hlive, hcloses⟩
  | acquire c ret hret hc =>
    simp only [List.all_cons, List.all_nil, Bool.and_true] at hpossible
    obtain ⟨hnew, hlive, hcloses⟩ := apply_returns hc hret hpossible
    exact ⟨(h.acquire hbefore hnew).congr hlive, hcloses⟩
  | replace c ret fd hret hc =>
    simp only [List.all_cons, List.all_nil, Bool.and_true, Bool.and_eq_true] at hpossible
    obtain ⟨hnew, hlive, hcloses⟩ := apply_returns hc hret hpossible.1
    have hold : (k.apply c).live fd := (hlive fd).2 (Or.inr (h.live_of_holds o fd hbefore))
    obtain ⟨hlive', hcloses'⟩ := apply_close hold
    refine ⟨(h.replace hbefore hnew).congr ?_, hcloses'.trans hcloses⟩
    intro x
    rw [show (k.run [c, .close fd]).live x ↔ ((k.apply c).apply (.close fd)).live x from Iff.rfl,
      hlive', hlive]

end

end Kernel

/-! ## The whole world -/

namespace SocketWorld

variable {ι : Type} [DecidableEq ι]

/-- The descriptor an object holds. -/
def holds (w : SocketWorld ι) (o : ι) : Option Int := (w.objects o).bind fun x => x.base.held

structure Inv (w : SocketWorld ι) : Prop where
  exact : Ownership.Exact w.holds w.kernel.live
  opened : ∀ o x, w.objects o = some x → x.base.Opened
  closedOnce : w.kernel.doubleCloses = []

section

variable {w w' : SocketWorld ι} {o : ι} {x : SocketObject} {calls : List SysCall}

@[simp] theorem base_setBase (x : SocketObject) (s : TcpSocket) : (x.setBase s).base = s := by
  cases x <;> rfl

omit [DecidableEq ι] in
theorem holds_of (hx : w.objects o = some x) : w.holds o = x.base.held := by
  unfold holds
  rw [hx]
  rfl

theorem holds_update (w : SocketWorld ι) (o : ι) (y : Option SocketObject) (k : Kernel) :
    holds ⟨Function.update w.objects o y, k⟩ =
      Function.update w.holds o (y.bind fun x => x.base.held) := by
  funext o'
  show (Function.update w.objects o y o').bind _ = _
  by_cases ho : o' = o
  · rw [ho, Function.update_self, Function.update_self]
  · rw [Function.update_of_ne ho, Function.update_of_ne ho]
    rfl

theorem opened_update {y : Option SocketObject} (hs : Inv w) (hy : ∀ z, y = some z → z.base.Opened) :
    ∀ o' z, Function.update w.objects o y o' = some z → z.base.Opened := by
  intro o' z hz
  by_cases ho : o' = o
  · rw [ho, Function.update_self] at hz
    exact hy z hz
  · rw [Function.update_of_ne ho] at hz
    exact hs.opened o' z hz

/-- An operation on one object. -/
theorem commit_inv {y : Option SocketObject} (hs : Inv w)
    (heffect : Effect (w.holds o) (y.bind fun x => x.base.held) calls)
    (hy : ∀ z, y = some z → z.base.Opened) (hstep : w.commit o y calls = some w') : Inv w' := by
  unfold commit at hstep
  split at hstep
  · rename_i hpossible
    cases hstep
    obtain ⟨hexact, hcloses⟩ := Kernel.run_effect hs.exact heffect hpossible
    refine ⟨?_, opened_update hs hy, hcloses.trans hs.closedOnce⟩
    rw [holds_update]
    exact hexact
  · cases hstep

/-- A member function of `TcpSocket`. -/
theorem onBase_inv {f : TcpSocket → Done TcpSocket} (hs : Inv w)
    (hf : ∀ s : TcpSocket, s.Opened →
      Effect s.held (f s).state.held (f s).calls ∧ (f s).state.Opened)
    (hstep : w.onBase o f = some w') : Inv w' := by
  unfold onBase at hstep
  split at hstep
  · rename_i x hx
    obtain ⟨heffect, hopened⟩ := hf x.base (hs.opened o x hx)
    apply commit_inv hs _ _ hstep
    · rw [holds_of hx, Option.bind_some, base_setBase]
      exact heffect
    · intro z hz
      cases hz
      rw [base_setBase]
      exact hopened
  · cases hstep

theorem new_opened : TcpSocket.new.Opened :=
  ⟨fun h => absurd h Bool.false_ne_true, fun h => absurd (show (0 : Int) ≤ -1 from h) (by decide)⟩

/-- The new object has the old one's descriptor, and the old one has none. -/
theorem moveTo_base {isAcceptor : Bool} {r : SocketObject × SocketObject}
    (h : x.moveTo isAcceptor = some r) : r.1.base = x.base ∧ r.2.base = TcpSocket.new := by
  cases x with
  | tcpSocket s =>
    cases isAcceptor with
    | true => cases h
    | false =>
      cases h
      exact ⟨rfl, rfl⟩
  | acceptor a =>
    cases isAcceptor <;>
    · cases h
      exact ⟨rfl, rfl⟩

theorem moveConstruct_inv {source : ι} {r : SocketObject × SocketObject} (hs : Inv w)
    {isAcceptor : Bool} (ho : w.objects o = none) (hx : w.objects source = some x)
    (hr : x.moveTo isAcceptor = some r) :
    Inv { w with
      objects := Function.update (Function.update w.objects source (some r.2)) o (some r.1) } := by
  obtain ⟨hnew, hold⟩ := moveTo_base hr
  have hne : source ≠ o := by
    rintro rfl
    rw [ho] at hx
    cases hx
  have hnone : w.holds o = none := by
    unfold holds
    rw [ho]
    rfl
  refine ⟨?_, ?_, hs.closedOnce⟩
  · have htransfer := hs.exact.transfer hne hnone
    have hholds : holds { w with
        objects := Function.update (Function.update w.objects source (some r.2)) o (some r.1) } =
        Function.update (Function.update w.holds source none) o (w.holds source) := by
      rw [holds_update ⟨Function.update w.objects source (some r.2), w.kernel⟩, holds_update w,
        holds_of hx, Option.bind_some, Option.bind_some, hnew, hold]
      rfl
    rw [hholds]
    exact htransfer
  · intro o' z hz
    change Function.update (Function.update w.objects source (some r.2)) o (some r.1) o' = some z at hz
    by_cases ho' : o' = o
    · rw [ho', Function.update_self] at hz
      cases hz
      rw [hnew]
      exact hs.opened source x hx
    · rw [Function.update_of_ne ho'] at hz
      apply opened_update hs _ o' z hz
      intro z' hz'
      cases hz'
      rw [hold]
      exact new_opened

/-- What a step can do. -/
inductive SocketTurn (w w' : SocketWorld ι) : SocketLabel ι → Prop
  | construct {o : ι} {isAcceptor : Bool} (ho : w.objects o = none)
    (hcommit : w.commit o (some (if isAcceptor then .acceptor .new else .tcpSocket .new)) [] =
      some w') : SocketTurn w w' (.construct o isAcceptor)
  | moveConstruct {o source : ι} {isAcceptor : Bool} {x : SocketObject}
    {p : SocketObject × SocketObject} (ho : w.objects o = none) (hx : w.objects source = some x)
    (hmove : x.moveTo isAcceptor = some p)
    (hw' : w' = { w with
      objects := Function.update (Function.update w.objects source (some p.2)) o (some p.1) }) :
    SocketTurn w w' (.moveConstruct o source isAcceptor)
  | open_ {o : ι} {r : Returned} (hbase : w.onBase o (fun s => s.open_ r .success) = some w') :
    SocketTurn w w' (.open_ o r)
  | bind {o : ι} {addr : Bool} {r : Returned}
    (hbase : w.onBase o (fun s => s.bind addr r .success) = some w') :
    SocketTurn w w' (.bind o addr r)
  | connect {o : ι} {r : Returned} (hbase : w.onBase o (fun s => s.connect r .success) = some w') :
    SocketTurn w w' (.connect o r)
  | listen {o : ι} {r : Returned} {a : Acceptor} (ha : w.objects o = some (.acceptor a))
    (hcommit : w.commit o (some (.acceptor (a.listen r .success).state)) (a.listen r .success).calls =
      some w') : SocketTurn w w' (.listen o r)
  | accept {o peer : ι} {r : Returned} {a : Acceptor} {p : SocketObject}
    (ha : w.objects o = some (.acceptor a)) (hp : w.objects peer = some p)
    (hcommit : w.commit peer (some (p.setBase (a.accept p.base r .success).state))
      (a.accept p.base r .success).calls = some w') : SocketTurn w w' (.accept o peer r)
  | close {o : ι} (hbase : w.onBase o (fun s => s.close .success) = some w') :
    SocketTurn w w' (.close o)
  | destroy {o : ι} {x : SocketObject} (hx : w.objects o = some x)
    (hcommit : w.commit o none x.base.destroy = some w') : SocketTurn w w' (.destroy o)

theorem step_turn {l : SocketLabel ι} (hstep : w.step l = some w') : SocketTurn w w' l := by
  unfold step at hstep
  split at hstep
  next =>
    split at hstep
    next ho => exact .construct ho hstep
    next => cases hstep
  next =>
    split at hstep
    next ho hx =>
      obtain ⟨p, hmove, rfl⟩ := Option.map_eq_some_iff.1 hstep
      exact .moveConstruct ho hx hmove rfl
    next => cases hstep
  next => exact .open_ hstep
  next => exact .bind hstep
  next => exact .connect hstep
  next =>
    split at hstep
    next ha => exact .listen ha hstep
    next => cases hstep
  next =>
    split at hstep
    next ha hp => exact .accept ha hp hstep
    next => cases hstep
  next => exact .close hstep
  next =>
    split at hstep
    next hx => exact .destroy hx hstep
    next => cases hstep

/-- **Every operation, on every path, keeps the books.** -/
theorem step_inv {l : SocketLabel ι} (hs : Inv w) (hstep : w.step l = some w') : Inv w' := by
  cases step_turn hstep with
  | @construct o isAcceptor ho hcommit =>
    have hbase : (if isAcceptor then SocketObject.acceptor .new else .tcpSocket .new).base =
        TcpSocket.new := by cases isAcceptor <;> rfl
    apply commit_inv hs _ _ hcommit
    · rw [Option.bind_some, hbase]
      unfold holds
      rw [ho]
      exact Effect.keep none [] (by simp)
    · intro z hz
      cases hz
      rw [hbase]
      exact new_opened
  | moveConstruct ho hx hmove hw' => exact hw' ▸ moveConstruct_inv hs ho hx hmove
  | open_ hbase => exact onBase_inv hs (fun s h => TcpSocket.open_effect h) hbase
  | bind hbase => exact onBase_inv hs (fun s h => TcpSocket.bind_effect h) hbase
  | connect hbase => exact onBase_inv hs (fun s h => TcpSocket.connect_effect h) hbase
  | listen ha hcommit =>
    obtain ⟨heffect, hopened⟩ := Acceptor.listen_effect (hs.opened _ _ ha)
    apply commit_inv hs _ _ hcommit
    · rw [holds_of ha]
      exact heffect
    · intro z hz
      cases hz
      exact hopened
  | @accept o peer r a p ha hp hcommit =>
    obtain ⟨heffect, hopened⟩ := Acceptor.accept_effect (hs.opened peer p hp)
    apply commit_inv hs _ _ hcommit
    · rw [holds_of hp, Option.bind_some, base_setBase]
      exact heffect
    · intro z hz
      cases hz
      rw [base_setBase]
      exact hopened
  | close hbase => exact onBase_inv hs (fun s h => TcpSocket.close_effect h) hbase
  | @destroy o x hx hcommit =>
    apply commit_inv hs _ _ hcommit
    · rw [holds_of hx]
      exact TcpSocket.destroy_effect x.base
    · intro z hz
      cases hz

omit [DecidableEq ι] in
theorem start_inv : Inv (start : SocketWorld ι) := by
  refine ⟨⟨?_, ?_, ?_⟩, ?_, rfl⟩
  · intro o fd h
    cases h
  · intro i j fd h
    cases h
  · intro fd h
    cases h
  · intro o x h
    cases h

theorem run_inv {ls : List (SocketLabel ι)} (hrun : Transition.exec step start ls = some w) : Inv w :=
  Transition.exec_invariant (fun _ _ _ hs hstep => step_inv hs hstep) ls start_inv hrun

end

/-- **Descriptors are owned once and closed once**, in every reachable state: `opened_` says whether
there is one, no two objects hold the same, every open one is held by exactly one object, and none
has been closed when it was not open. -/
theorem run_ownedOnce (ls : List (SocketLabel ι)) (w : SocketWorld ι)
    (hrun : Transition.exec step start ls = some w) :
    (∀ o x, w.objects o = some x → (x.base.opened = true ↔ 0 ≤ x.base.socket)) ∧
      (∀ o₁ o₂ x₁ x₂, w.objects o₁ = some x₁ → w.objects o₂ = some x₂ → 0 ≤ x₁.base.socket →
        x₁.base.socket = x₂.base.socket → o₁ = o₂) ∧
      (∀ fd d, w.kernel.fds fd = some d →
        ∃! o, ∃ x, w.objects o = some x ∧ x.base.socket = fd) ∧
      w.kernel.doubleCloses = [] := by
  have hs := run_inv hrun
  have hholds : ∀ o fd, w.holds o = some fd ↔
      ∃ x, w.objects o = some x ∧ 0 ≤ x.base.socket ∧ x.base.socket = fd := by
    intro o fd
    unfold holds TcpSocket.held
    rw [Option.bind_eq_some_iff]
    constructor
    · rintro ⟨x, hx, hfd⟩
      split at hfd
      · rename_i hge
        exact ⟨x, hx, hge, Option.some.inj hfd⟩
      · cases hfd
    · rintro ⟨x, hx, hge, rfl⟩
      exact ⟨x, hx, if_pos hge⟩
  refine ⟨hs.opened, ?_, ?_, hs.closedOnce⟩
  · intro o₁ o₂ x₁ x₂ h₁ h₂ hge heq
    apply hs.exact.holder_unique o₁ o₂ x₁.base.socket
    · exact (hholds o₁ _).2 ⟨x₁, h₁, hge, rfl⟩
    · exact (hholds o₂ _).2 ⟨x₂, h₂, heq ▸ hge, heq.symm⟩
  · intro fd d hd
    have hlive : w.kernel.live fd := by
      unfold Kernel.live
      rw [hd]
      rfl
    obtain ⟨o, ho, hunique⟩ := hs.exact.existsUnique hlive
    obtain ⟨x, hx, hge, heq⟩ := (hholds o fd).1 ho
    refine ⟨o, ⟨x, hx, heq⟩, ?_⟩
    rintro o' ⟨x', hx', heq'⟩
    exact hunique o' ((hholds o' fd).2 ⟨x', hx', by omega, heq'⟩)

/-- A second connection replaces the first, moves on, the acceptor accepts into itself, and the
connection is closed before its socket is destroyed. -/
theorem run_ownedOnce_replaced : ∃ w, Transition.exec step (start : SocketWorld Nat)
      [.construct 0 true, .open_ 0 ⟨3, 0⟩, .listen 0 ⟨0, 0⟩, .construct 1 false, .accept 0 1 ⟨4, 0⟩,
        .accept 0 1 ⟨5, 0⟩, .moveConstruct 2 1 false, .accept 0 0 ⟨4, 0⟩, .close 2, .destroy 2] = some w ∧
    (w.kernel.fds 3).isNone ∧ (w.kernel.fds 4).isSome ∧ (w.kernel.fds 5).isNone ∧
    w.kernel.doubleCloses = [] :=
  ⟨_, rfl, rfl, rfl, rfl, (run_ownedOnce [.construct 0 true, .open_ 0 ⟨3, 0⟩, .listen 0 ⟨0, 0⟩,
    .construct 1 false, .accept 0 1 ⟨4, 0⟩, .accept 0 1 ⟨5, 0⟩, .moveConstruct 2 1 false,
    .accept 0 0 ⟨4, 0⟩, .close 2, .destroy 2] _ rfl).2.2.2⟩

end SocketWorld

end SmartRoutine
