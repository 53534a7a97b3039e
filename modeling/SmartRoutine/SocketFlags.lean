import SmartRoutine.SocketWorld

/-!
# What the flags of a socket say

* `Described` — `bound_`, `connected_` and `listening_` are true only of a descriptor that is open
  and on which the call has succeeded, or that was accepted.
* `run_flags_iff` — this holds throughout a run **exactly** when no acceptor whose `listening_` is
  true is closed, accepted into, or moved from: `close`, `set_accepted_fd` and the move constructor
  know the flags of the base class only.
* `close_listening` — a listening acceptor is closed; it refuses to `listen` when it is opened
  again.
-/

set_option autoImplicit false

namespace SmartRoutine

/-- `listening_`, which only an `Acceptor` has. -/
def SocketObject.listening : SocketObject → Bool
  | .tcpSocket _ => false
  | .acceptor a => a.listening

/-- The flags of an object describe the descriptor it holds. -/
structure Described (k : Kernel) (x : SocketObject) : Prop where
  bound : x.base.bound = true →
    ∃ d, k.fds x.base.socket = some d ∧ (d.bound = true ∨ d.accepted = true)
  connected : x.base.connected = true →
    ∃ d, k.fds x.base.socket = some d ∧ (d.connected = true ∨ d.accepted = true)
  listening : x.listening = true → ∃ d, k.fds x.base.socket = some d ∧ d.listening = true

namespace SocketWorld

variable {ι : Type} [DecidableEq ι]

/-- No descriptor of the acceptor's is listening. -/
def Quiet (k : Kernel) (a : Acceptor) : Prop := ∀ d, k.fds a.socket = some d → d.listening = false

/-- The flags, and what `listen` and `accept` make of them. -/
structure FlagsDescribe (w : SocketWorld ι) : Prop where
  described : ∀ o x, w.objects o = some x → Described w.kernel x
  /-- An open socket that does not listen may be told to. -/
  listen : ∀ o a r ec, w.objects o = some (.acceptor a) → a.opened = true → Quiet w.kernel a →
    (a.listen r ec).calls = [.listen a.socket (0 ≤ r.value)]
  /-- One that does not listen accepts nothing. -/
  accept : ∀ o a peer r ec, w.objects o = some (.acceptor a) → Quiet w.kernel a →
    a.accept peer r ec = ⟨peer, .invalidArgument, []⟩

/-- `listening_` of an object is true. -/
def listens (w : SocketWorld ι) (o : ι) : Bool := (w.objects o).any SocketObject.listening

/-- Not an operation that leaves `listening_` behind without its descriptor. -/
def keepsListening (w : SocketWorld ι) : SocketLabel ι → Bool
  | .close o => !w.listens o
  | .moveConstruct _ source _ => !w.listens source
  | .accept o peer r => !w.listens o || r.value < 0 || !w.listens peer
  | _ => true

end SocketWorld

/-! ## Which descriptors a call can change -/

def SysCall.touches (fd : Int) : SysCall → Prop
  | .socket ret => ret = fd
  | .accept _ ret => ret = fd
  | .bind f _ => f = fd
  | .connect f _ => f = fd
  | .listen f _ => f = fd
  | .setsockopt _ _ => False
  | .close f => f = fd

/-- The calls of an operation touch the descriptor its object holds, or one they return. -/
def Local (held : Option Int) (calls : List SysCall) : Prop :=
  ∀ c ∈ calls, ∀ fd, c.touches fd → held = some fd ∨ c.returns fd

namespace Kernel

section

variable {k : Kernel} {fd : Int} {c : SysCall}

theorem fds_mark_of_ne {f : Int} (g : Descriptor → Descriptor) (h : f ≠ fd) :
    (k.mark f g).fds fd = k.fds fd :=
  Function.update_of_ne h.symm _ _

theorem fds_mark {g : Descriptor → Descriptor} {d : Descriptor} (hd : k.fds fd = some d) :
    (k.mark fd g).fds fd = some (g d) := by
  show (Function.update k.fds fd _) fd = _
  rw [Function.update_self, hd, Option.map_some]

theorem fds_opened_of_ne {ret : Int} {accepted : Bool} (h : ret ≠ fd) :
    (k.opened ret accepted).fds fd = k.fds fd := by
  unfold opened
  split
  · exact Function.update_of_ne h.symm _ _
  · rfl

theorem fds_apply (h : ¬ c.touches fd) : (k.apply c).fds fd = k.fds fd := by
  cases c with
  | socket ret => exact fds_opened_of_ne h
  | accept f ret => exact fds_opened_of_ne h
  | bind f ok =>
    cases ok with
    | true => exact fds_mark_of_ne _ h
    | false => rfl
  | connect f ok =>
    cases ok with
    | true => exact fds_mark_of_ne _ h
    | false => rfl
  | listen f ok =>
    cases ok with
    | true => exact fds_mark_of_ne _ h
    | false => rfl
  | setsockopt f ok => rfl
  | close f =>
    unfold apply
    dsimp only
    split
    · exact Function.update_of_ne (Ne.symm h) _ _
    · rfl

theorem fds_run : ∀ (calls : List SysCall) (k : Kernel), (∀ c ∈ calls, ¬ c.touches fd) →
    (k.run calls).fds fd = k.fds fd := by
  intro calls
  induction calls with
  | nil =>
    intro k _
    rfl
  | cons c calls ih =>
    intro k h
    have hrest := ih (k.apply c) fun c' hc' => h c' (List.mem_cons_of_mem c hc')
    exact hrest.trans (fds_apply (h c List.mem_cons_self))

end

end Kernel

namespace TcpSocket

section

variable {s : TcpSocket} {r : Returned} {ec : CodeVal}

theorem local_nil (held : Option Int) : Local held [] := by
  intro c hc
  cases hc

/-- The state check of an operation has passed. -/
theorem opened_of_ready {opened other : Bool} (h : ¬ (!opened || other) = true) :
    opened = true ∧ other = false := by
  rwa [Bool.or_eq_true, not_or, Bool.not_eq_true', Bool.not_eq_false, Bool.not_eq_true] at h

theorem Opened.held (h : s.Opened) (hopened : s.opened = true) : s.held = some s.socket :=
  held_of_nonneg (h.1 hopened)

theorem open_local : Local s.held (s.open_ r ec).calls := by
  unfold open_
  split
  · exact local_nil _
  · dsimp only
    split <;>
    · intro c hc fd hfd
      rw [List.mem_singleton.1 hc] at hfd ⊢
      exact Or.inr hfd

/-- A call on the descriptor of an open socket. -/
theorem local_singleton {c : SysCall} (h : s.Opened) (hopened : s.opened = true)
    (hc : ∀ fd, c.touches fd → s.socket = fd) : Local s.held [c] := by
  intro c' hc' fd hfd
  rw [List.mem_singleton.1 hc'] at hfd
  rw [h.held hopened, hc fd hfd]
  exact Or.inl rfl

/-- `close` is only called on what the socket holds. -/
theorem local_close (hge : 0 ≤ s.socket) : Local s.held [.close s.socket] := by
  intro c hc fd hfd
  rw [List.mem_singleton.1 hc] at hfd
  rw [held_of_nonneg hge, show s.socket = fd from hfd]
  exact Or.inl rfl

theorem bind_local {addr : Bool} (h : s.Opened) : Local s.held (s.bind addr r ec).calls := by
  unfold bind
  split
  · exact local_nil _
  · rename_i hready
    obtain ⟨hopened, -⟩ := opened_of_ready hready
    split
    · exact local_nil _
    · split <;> exact local_singleton h hopened fun fd hfd => hfd

theorem connect_local (h : s.Opened) : Local s.held (s.connect r ec).calls := by
  unfold connect
  split
  · exact local_nil _
  · rename_i hready
    obtain ⟨hopened, -⟩ := opened_of_ready hready
    split <;> exact local_singleton h hopened fun fd hfd => hfd

theorem close_local (s : TcpSocket) (ec : CodeVal) : Local s.held (s.close ec).calls := by
  unfold close
  split
  · exact local_nil _
  · split
    · rename_i hge
      exact local_close hge
    · exact local_nil _

theorem destroy_local (s : TcpSocket) : Local s.held s.destroy := by
  unfold destroy
  split
  · rename_i hge
    exact local_close hge
  · exact local_nil _

end

end TcpSocket

section

variable {a : Acceptor} {peer : TcpSocket} {r : Returned} {ec : CodeVal}

theorem Acceptor.listen_local (h : a.toTcpSocket.Opened) (r : Returned) (ec : CodeVal) :
    Local a.toTcpSocket.held (a.listen r ec).calls := by
  unfold Acceptor.listen
  split
  · exact TcpSocket.local_nil _
  · rename_i hready
    obtain ⟨hopened, -⟩ := TcpSocket.opened_of_ready hready
    split <;> exact TcpSocket.local_singleton h hopened fun fd hfd => hfd

theorem Acceptor.accept_local (a : Acceptor) (peer : TcpSocket) (r : Returned) (ec : CodeVal) :
    Local peer.held (a.accept peer r ec).calls := by
  unfold Acceptor.accept
  split
  · exact TcpSocket.local_nil _
  · split
    · intro c hc fd hfd
      rw [List.mem_singleton.1 hc] at hfd ⊢
      exact Or.inr hfd
    · intro c hc fd hfd
      rcases List.mem_cons.1 hc with rfl | hc
      · exact Or.inr hfd
      · exact TcpSocket.destroy_local peer c hc fd hfd

end

/-! ## The flags of the object itself -/

/-- What ownership says about one object. -/
structure Fits (k : Kernel) (s : TcpSocket) : Prop where
  opened : s.Opened
  live : 0 ≤ s.socket → k.live s.socket
  nonneg : ∀ fd, k.live fd → 0 ≤ fd

section

variable {k : Kernel} {x : SocketObject} {s : TcpSocket} {fd : Int} {r : Returned} {ec : CodeVal}

theorem SocketObject.listening_setBase (x : SocketObject) (s : TcpSocket) :
    (x.setBase s).listening = x.listening := by
  cases x <;> rfl

theorem SocketObject.setBase_base (x : SocketObject) : x.setBase x.base = x := by
  cases x <;> rfl

theorem Fits.not_live (h : Fits k s) (hfd : fd < 0) : k.fds fd = none := by
  cases hd : k.fds fd with
  | none => rfl
  | some d =>
    have := h.nonneg fd (by unfold Kernel.live; rw [hd]; rfl)
    omega

/-- A flag that needs the record of a descriptor. -/
theorem flag_false {flag : Bool} {P : Descriptor → Prop} (hnone : k.fds fd = none)
    (h : flag = true → ∃ d, k.fds fd = some d ∧ P d) : flag = false := by
  cases flag with
  | false => rfl
  | true =>
    obtain ⟨d, hd, -⟩ := h rfl
    rw [hnone] at hd
    cases hd

/-- An object without a descriptor has no flags. -/
theorem Described.closed (h : Described k x) (hfits : Fits k x.base) (hneg : x.base.socket < 0) :
    x.base.bound = false ∧ x.base.connected = false ∧ x.listening = false := by
  have hnone := hfits.not_live hneg
  exact ⟨flag_false hnone h.bound, flag_false hnone h.connected, flag_false hnone h.listening⟩

theorem Described.of_false (hb : x.base.bound = false) (hc : x.base.connected = false)
    (hl : x.listening = false) : Described k x := by
  refine ⟨fun h => ?_, fun h => ?_, fun h => ?_⟩
  · rw [hb] at h
    cases h
  · rw [hc] at h
    cases h
  · rw [hl] at h
    cases h

theorem Described.quiet {a : Acceptor} (h : Described k (.acceptor a)) (hquiet : SocketWorld.Quiet k a) :
    a.listening = false := by
  cases hl : a.listening with
  | false => rfl
  | true =>
    obtain ⟨d, hd, hdl⟩ := h.listening hl
    rw [hquiet d hd] at hdl
    cases hdl

/-- Calls that do not change the descriptor's record. -/
theorem Described.congr {k' : Kernel} (h : Described k x)
    (hfds : k'.fds x.base.socket = k.fds x.base.socket) : Described k' x := by
  refine ⟨?_, ?_, ?_⟩
  · rw [hfds]
    exact h.bound
  · rw [hfds]
    exact h.connected
  · rw [hfds]
    exact h.listening

/-- A record only gains entries when a call on its descriptor succeeds. -/
theorem Described.mark {f : Descriptor → Descriptor} (h : Described k x)
    (ha : ∀ d, (f d).accepted = d.accepted) (hb : ∀ d, d.bound = true → (f d).bound = true)
    (hc : ∀ d, d.connected = true → (f d).connected = true)
    (hl : ∀ d, d.listening = true → (f d).listening = true) :
    Described (k.mark x.base.socket f) x := by
  refine ⟨fun h' => ?_, fun h' => ?_, fun h' => ?_⟩
  · obtain ⟨d, hd, hor⟩ := h.bound h'
    exact ⟨f d, Kernel.fds_mark hd, hor.imp (hb d) fun h'' => by rw [ha, h'']⟩
  · obtain ⟨d, hd, hor⟩ := h.connected h'
    exact ⟨f d, Kernel.fds_mark hd, hor.imp (hc d) fun h'' => by rw [ha, h'']⟩
  · obtain ⟨d, hd, hor⟩ := h.listening h'
    exact ⟨f d, Kernel.fds_mark hd, hl d hor⟩

/-- The record of an open object. -/
theorem Fits.record (h : Fits k s) (hopened : s.opened = true) : ∃ d, k.fds s.socket = some d :=
  Option.isSome_iff_exists.1 (h.live (h.opened.1 hopened))

theorem open_described (h : Described k x) (hfits : Fits k x.base) :
    Described (k.run (x.base.open_ r ec).calls) (x.setBase (x.base.open_ r ec).state) := by
  unfold TcpSocket.open_
  split
  · rw [SocketObject.setBase_base]
    exact h
  · rename_i hclosed
    obtain ⟨hb, hc, hl⟩ := h.closed hfits (hfits.opened.neg hclosed)
    dsimp only
    split <;>
    · apply Described.of_false
      · rw [SocketWorld.base_setBase]
        exact hb
      · rw [SocketWorld.base_setBase]
        exact hc
      · rw [SocketObject.listening_setBase]
        exact hl

theorem bind_described {addr : Bool} (h : Described k x) (hfits : Fits k x.base) :
    Described (k.run (x.base.bind addr r ec).calls) (x.setBase (x.base.bind addr r ec).state) := by
  unfold TcpSocket.bind
  split
  · rw [SocketObject.setBase_base]
    exact h
  · rename_i hready
    obtain ⟨hopened, -⟩ := TcpSocket.opened_of_ready hready
    obtain ⟨d, hd⟩ := hfits.record hopened
    split
    · rw [SocketObject.setBase_base]
      exact h
    · split
      · rw [SocketObject.setBase_base]
        exact h
      · have hmark : Described (k.mark x.base.socket fun d => { d with bound := true }) x :=
          h.mark (fun _ => rfl) (fun _ _ => rfl) (fun _ h' => h') fun _ h' => h'
        refine ⟨fun _ => ?_, ?_, ?_⟩
        · rw [SocketWorld.base_setBase]
          exact ⟨{ d with bound := true }, Kernel.fds_mark hd, Or.inl rfl⟩
        · rw [SocketWorld.base_setBase]
          exact hmark.connected
        · rw [SocketWorld.base_setBase, SocketObject.listening_setBase]
          exact hmark.listening

theorem connect_described (h : Described k x) (hfits : Fits k x.base) :
    Described (k.run (x.base.connect r ec).calls) (x.setBase (x.base.connect r ec).state) := by
  unfold TcpSocket.connect
  split
  · rw [SocketObject.setBase_base]
    exact h
  · rename_i hready
    obtain ⟨hopened, -⟩ := TcpSocket.opened_of_ready hready
    obtain ⟨d, hd⟩ := hfits.record hopened
    split
    · rw [SocketObject.setBase_base]
      exact h
    · have hmark : Described (k.mark x.base.socket fun d => { d with connected := true }) x :=
        h.mark (fun _ => rfl) (fun _ h' => h') (fun _ _ => rfl) fun _ h' => h'
      refine ⟨?_, fun _ => ?_, ?_⟩
      · rw [SocketWorld.base_setBase]
        exact hmark.bound
      · rw [SocketWorld.base_setBase]
        exact ⟨{ d with connected := true }, Kernel.fds_mark hd, Or.inl rfl⟩
      · rw [SocketWorld.base_setBase, SocketObject.listening_setBase]
        exact hmark.listening

theorem listen_described {a : Acceptor} (h : Described k (.acceptor a))
    (hfits : Fits k a.toTcpSocket) :
    Described (k.run (a.listen r ec).calls) (.acceptor (a.listen r ec).state) := by
  unfold Acceptor.listen
  split
  · exact h
  · rename_i hready
    obtain ⟨hopened, -⟩ := TcpSocket.opened_of_ready hready
    obtain ⟨d, hd⟩ := hfits.record hopened
    split
    · exact h
    · have hmark : Described (k.mark a.socket fun d => { d with listening := true }) (.acceptor a) :=
        h.mark (fun _ => rfl) (fun _ h' => h') (fun _ h' => h') fun _ _ => rfl
      exact ⟨hmark.bound, hmark.connected, fun _ =>
        ⟨{ d with listening := true }, Kernel.fds_mark hd, rfl⟩⟩

/-- **`close` leaves `listening_` behind.** -/
theorem close_described_iff (h : Described k x) (hfits : Fits k x.base) :
    Described (k.run (x.base.close ec).calls) (x.setBase (x.base.close ec).state) ↔
      x.listening = false := by
  unfold TcpSocket.close
  split
  · rename_i hclosed
    have hneg : x.base.socket < 0 := by
      apply hfits.opened.neg
      rw [Bool.not_eq_true'] at hclosed
      rw [hclosed]
      exact Bool.false_ne_true
    rw [SocketObject.setBase_base]
    exact ⟨fun _ => (h.closed hfits hneg).2.2, fun _ => h⟩
  · rename_i hopened
    rw [Bool.not_eq_true', Bool.not_eq_false] at hopened
    have hge := hfits.opened.1 hopened
    rw [if_pos hge]
    dsimp only
    constructor
    · intro h'
      cases hl : x.listening with
      | false => rfl
      | true =>
        obtain ⟨d, hd, -⟩ := h'.listening (by rw [SocketObject.listening_setBase, hl])
        rw [SocketWorld.base_setBase] at hd
        have hsame : (k.run [.close x.base.socket]).fds (-1) = k.fds (-1) := by
          apply Kernel.fds_run
          intro c hc htouch
          rw [List.mem_singleton.1 hc] at htouch
          have : x.base.socket = -1 := htouch
          omega
        rw [hsame, hfits.not_live (by decide)] at hd
        cases hd
    · intro hl
      apply Described.of_false
      · rw [SocketWorld.base_setBase]
      · rw [SocketWorld.base_setBase]
      · rw [SocketObject.listening_setBase, hl]

/-- The accepted descriptor is new, so that closing the one it replaces leaves its record alone. -/
theorem Fits.accepted_record (hfits : Fits k s) {sockfd ret : Int}
    (hpossible : k.possible (.accept sockfd ret) = true) (hret : 0 ≤ ret) :
    (k.run (.accept sockfd ret :: (s.setAcceptedFd ret).2)).fds ret =
      some ⟨true, false, false, false⟩ := by
  obtain ⟨hnew, -, -⟩ := Kernel.apply_returns
    (show (SysCall.accept sockfd ret).returns ret from rfl) hret hpossible
  show ((k.apply (.accept sockfd ret)).run (s.setAcceptedFd ret).2).fds _ = _
  rw [Kernel.fds_run]
  · show (k.opened ret true).fds ret = _
    unfold Kernel.opened
    rw [if_pos hret]
    exact Function.update_self ..
  · intro c hc htouch
    unfold TcpSocket.setAcceptedFd at hc
    dsimp only at hc
    split at hc
    · rename_i hge
      rw [List.mem_singleton.1 hc] at htouch
      rw [← show s.socket = ret from htouch] at hnew
      exact hnew (hfits.live hge)
    · cases hc

/-- **`set_accepted_fd` leaves `listening_` behind.** -/
theorem accept_described_iff {a : Acceptor} (ha : Described k (.acceptor a))
    (hfitsA : Fits k a.toTcpSocket) (h : Described k x) (hfits : Fits k x.base)
    (hpossible : (a.accept x.base r ec).calls.all k.possible = true) :
    Described (k.run (a.accept x.base r ec).calls) (x.setBase (a.accept x.base r ec).state) ↔
      (!a.listening || r.value < 0 || !x.listening) = true := by
  unfold Acceptor.accept at hpossible ⊢
  split
  · rename_i hrefused
    have hl : a.listening = false := by
      rw [Bool.or_eq_true, Bool.not_eq_true', Bool.not_eq_true'] at hrefused
      rcases hrefused with hclosed | hl
      · apply (ha.closed hfitsA (hfitsA.opened.neg _)).2.2
        rw [hclosed]
        exact Bool.false_ne_true
      · exact hl
    rw [SocketObject.setBase_base, hl]
    exact ⟨fun _ => rfl, fun _ => h⟩
  · rename_i hready
    obtain ⟨-, hlistening⟩ := TcpSocket.opened_of_ready hready
    rw [if_neg hready] at hpossible
    split
    · rename_i hfail
      have hsame : k.run [.accept a.socket r.value] = k := by
        show k.opened r.value true = k
        unfold Kernel.opened
        rw [if_neg (by omega)]
      rw [SocketObject.setBase_base, hsame]
      refine ⟨fun _ => ?_, fun _ => h⟩
      simp [hfail]
    · rename_i hok
      rw [if_neg hok] at hpossible
      dsimp only at hpossible ⊢
      rw [List.all_cons, Bool.and_eq_true] at hpossible
      have hrecord := hfits.accepted_record hpossible.1 (show 0 ≤ r.value by omega)
      have hflags : (!a.listening || decide (r.value < 0) || !x.listening) = !x.listening := by
        simp [hlistening, hok]
      rw [hflags, Bool.not_eq_true']
      constructor
      · intro h'
        cases hl : x.listening with
        | false => rfl
        | true =>
          obtain ⟨d, hd, hdl⟩ := h'.listening (by rw [SocketObject.listening_setBase, hl])
          rw [SocketWorld.base_setBase] at hd
          rw [show (x.base.setAcceptedFd r.value).1.socket = r.value from rfl, hrecord] at hd
          cases hd
          cases hdl
      · intro hl
        refine ⟨fun _ => ?_, fun _ => ?_, fun h' => ?_⟩
        · rw [SocketWorld.base_setBase]
          exact ⟨_, hrecord, Or.inr rfl⟩
        · rw [SocketWorld.base_setBase]
          exact ⟨_, hrecord, Or.inr rfl⟩
        · rw [SocketObject.listening_setBase, hl] at h'
          cases h'

end

/-! ## All objects -/

namespace SocketWorld

variable {ι : Type} [DecidableEq ι]

def AllDescribed (w : SocketWorld ι) : Prop :=
  ∀ o x, w.objects o = some x → Described w.kernel x

section

variable {w w' : SocketWorld ι} {o : ι} {x : SocketObject} {calls : List SysCall}

omit [DecidableEq ι] in
/-- The consequences for `listen` and `accept` follow from the flag. -/
theorem flagsDescribe_iff : w.FlagsDescribe ↔ w.AllDescribed := by
  refine ⟨fun h => h.described, fun h => ⟨h, ?_, ?_⟩⟩
  · intro o a r ec ha hopened hquiet
    have hl := (h o _ ha).quiet hquiet
    unfold Acceptor.listen
    rw [hopened, hl, if_neg (by decide)]
    split
    · rename_i hfail
      rw [decide_eq_false (by omega : ¬ r.value ≥ 0)]
    · rename_i hok
      rw [decide_eq_true (by omega : r.value ≥ 0)]
  · intro o a peer r ec ha hquiet
    have hl := (h o _ ha).quiet hquiet
    unfold Acceptor.accept
    rw [hl, if_pos (by simp)]

omit [DecidableEq ι] in
theorem Inv.fits (hs : Inv w) (hx : w.objects o = some x) : Fits w.kernel x.base := by
  refine ⟨hs.opened o x hx, ?_, ?_⟩
  · intro hge
    apply hs.exact.live_of_holds o
    rw [holds_of hx, TcpSocket.held_of_nonneg hge]
  · intro fd hlive
    obtain ⟨o', ho'⟩ := hs.exact.holder_exists fd hlive
    unfold holds TcpSocket.held at ho'
    obtain ⟨y, -, hy⟩ := Option.bind_eq_some_iff.1 ho'
    split at hy
    · rename_i hge
      rw [← Option.some.inj hy]
      exact hge
    · cases hy

omit [DecidableEq ι] in
/-- The descriptors of the other objects are not touched. -/
theorem others_described (hs : Inv w) (hlocal : Local (w.holds o) calls)
    (hpossible : calls.all w.kernel.possible = true) {o' : ι} {y : SocketObject} (hne : o' ≠ o)
    (hy : w.objects o' = some y) (h : Described w.kernel y) : Described (w.kernel.run calls) y := by
  have hfits := hs.fits hy
  by_cases hge : 0 ≤ y.base.socket
  · apply h.congr
    apply Kernel.fds_run
    intro c hc htouch
    have hlive := hfits.live hge
    rcases hlocal c hc _ htouch with hheld | hreturns
    · have hmine : w.holds o' = some y.base.socket := by
        rw [holds_of hy, TcpSocket.held_of_nonneg hge]
      exact hne (hs.exact.holder_unique o' o _ hmine hheld)
    · exact (Kernel.apply_returns hreturns hge (List.all_eq_true.1 hpossible c hc)).1 hlive
  · obtain ⟨hb, hc, hl⟩ := h.closed hfits (by omega)
    exact Described.of_false hb hc hl

/-- After an operation on one object, only that object's flags are in question. -/
theorem commit_described_iff {y : Option SocketObject} (hs : Inv w) (h : w.AllDescribed)
    (hlocal : Local (w.holds o) calls) (hstep : w.commit o y calls = some w') :
    w'.AllDescribed ↔ ∀ z, y = some z → Described (w.kernel.run calls) z := by
  unfold commit at hstep
  split at hstep
  · rename_i hpossible
    cases hstep
    constructor
    · intro h' z hz
      apply h' o z
      show Function.update w.objects o y o = some z
      rw [Function.update_self, hz]
    · intro hy o' z hz
      change Function.update w.objects o y o' = some z at hz
      by_cases ho : o' = o
      · rw [ho, Function.update_self] at hz
        exact hy z hz
      · rw [Function.update_of_ne ho] at hz
        exact others_described hs hlocal hpossible ho hz (h o' z hz)
  · cases hstep

theorem commit_some_described_iff {y : SocketObject} (hs : Inv w) (h : w.AllDescribed)
    (hlocal : Local (w.holds o) calls) (hstep : w.commit o (some y) calls = some w') :
    w'.AllDescribed ↔ Described (w.kernel.run calls) y := by
  rw [commit_described_iff hs h hlocal hstep]
  constructor
  · intro h'
    exact h' y rfl
  · intro h' z hz
    rw [← Option.some.inj hz]
    exact h'

theorem commit_possible {y : Option SocketObject} (hstep : w.commit o y calls = some w') :
    calls.all w.kernel.possible = true := by
  unfold commit at hstep
  split at hstep
  · assumption
  · cases hstep

omit [DecidableEq ι] in
theorem listens_of (hx : w.objects o = some x) : w.listens o = x.listening := by
  unfold listens
  rw [hx]
  rfl

/-- A member function of `TcpSocket`: the flags of its object decide. -/
theorem onBase_described_iff {f : TcpSocket → Done TcpSocket} (hs : Inv w) (h : w.AllDescribed)
    (hf : ∀ s : TcpSocket, s.Opened → Local s.held (f s).calls) (hstep : w.onBase o f = some w') :
    ∃ x, w.objects o = some x ∧ (w'.AllDescribed ↔
      Described (w.kernel.run (f x.base).calls) (x.setBase (f x.base).state)) := by
  unfold onBase at hstep
  split at hstep
  · rename_i x hx
    have hlocal := hf x.base (hs.opened o x hx)
    rw [← holds_of hx] at hlocal
    exact ⟨x, hx, commit_some_described_iff hs h hlocal hstep⟩
  · cases hstep

theorem new_described (k : Kernel) (isAcceptor : Bool) :
    Described k (if isAcceptor then SocketObject.acceptor .new else .tcpSocket .new) := by
  cases isAcceptor <;> exact Described.of_false rfl rfl rfl

/-- Moved from, an object keeps its `listening_`; a `TcpSocket` made from it has none. -/
theorem moveTo_listening {r : SocketObject × SocketObject} {isAcceptor : Bool}
    (hr : x.moveTo isAcceptor = some r) :
    r.2.listening = x.listening ∧ (r.1.listening = true → x.listening = true) := by
  cases x with
  | tcpSocket s =>
    cases isAcceptor with
    | true => cases hr
    | false =>
      cases hr
      exact ⟨rfl, id⟩
  | acceptor a =>
    cases isAcceptor with
    | true =>
      cases hr
      exact ⟨rfl, id⟩
    | false =>
      cases hr
      exact ⟨rfl, fun h' => absurd h' Bool.false_ne_true⟩

/-- **A move leaves `listening_` behind.** -/
theorem moveConstruct_described_iff {source : ι} {r : SocketObject × SocketObject} {isAcceptor : Bool}
    (hs : Inv w) (h : w.AllDescribed) (ho : w.objects o = none) (hx : w.objects source = some x)
    (hr : x.moveTo isAcceptor = some r) :
    AllDescribed { w with
        objects := Function.update (Function.update w.objects source (some r.2)) o (some r.1) } ↔
      x.listening = false := by
  obtain ⟨hnew, hold⟩ := moveTo_base hr
  have hne : source ≠ o := by
    rintro rfl
    rw [ho] at hx
    cases hx
  have hkept := moveTo_listening hr
  have hfits := hs.fits hx
  constructor
  · intro h'
    cases hl : x.listening with
    | false => rfl
    | true =>
      have hsource : Function.update (Function.update w.objects source (some r.2)) o (some r.1)
          source = some r.2 := by
        rw [Function.update_of_ne hne, Function.update_self]
      obtain ⟨d, hd, -⟩ := (h' source r.2 hsource).listening (by rw [hkept.1, hl])
      rw [hold] at hd
      change w.kernel.fds (-1) = some d at hd
      rw [hfits.not_live (by decide)] at hd
      cases hd
  · intro hl o' z hz
    change Function.update (Function.update w.objects source (some r.2)) o (some r.1) o' = some z at hz
    show Described w.kernel z
    by_cases ho' : o' = o
    · rw [ho', Function.update_self] at hz
      cases hz
      have hx' := h source x hx
      refine ⟨?_, ?_, fun hl' => absurd (hkept.2 hl') (by rw [hl]; exact Bool.false_ne_true)⟩
      · rw [hnew]
        exact hx'.bound
      · rw [hnew]
        exact hx'.connected
    · rw [Function.update_of_ne ho'] at hz
      by_cases hsource : o' = source
      · rw [hsource, Function.update_self] at hz
        cases hz
        apply Described.of_false
        · rw [hold]
          rfl
        · rw [hold]
          rfl
        · rw [hkept.1, hl]
      · rw [Function.update_of_ne hsource] at hz
        exact h o' z hz

/-- **One step**: the flags still describe the descriptors exactly when `listening_` is not left
behind. -/
theorem step_described_iff {l : SocketLabel ι} (hs : Inv w) (h : w.AllDescribed)
    (hstep : w.step l = some w') : w'.AllDescribed ↔ w.keepsListening l = true := by
  cases step_turn hstep with
  | construct _ hcommit =>
    rw [commit_some_described_iff hs h (TcpSocket.local_nil _) hcommit]
    exact ⟨fun _ => rfl, fun _ => new_described _ _⟩
  | @moveConstruct o source isAcceptor x p ho hx hmove hw' =>
    rw [hw', moveConstruct_described_iff hs h ho hx hmove]
    show _ ↔ (!w.listens source) = true
    rw [listens_of hx, Bool.not_eq_true']
  | @open_ o r hbase =>
    obtain ⟨x, hx, hiff⟩ := onBase_described_iff hs h (fun s _ => TcpSocket.open_local) hbase
    rw [hiff]
    exact ⟨fun _ => rfl, fun _ => open_described (h o x hx) (hs.fits hx)⟩
  | @bind o addr r hbase =>
    obtain ⟨x, hx, hiff⟩ := onBase_described_iff hs h (fun s hs => TcpSocket.bind_local hs) hbase
    rw [hiff]
    exact ⟨fun _ => rfl, fun _ => bind_described (h o x hx) (hs.fits hx)⟩
  | @connect o r hbase =>
    obtain ⟨x, hx, hiff⟩ := onBase_described_iff hs h (fun s hs => TcpSocket.connect_local hs) hbase
    rw [hiff]
    exact ⟨fun _ => rfl, fun _ => connect_described (h o x hx) (hs.fits hx)⟩
  | @listen o r a ha hcommit =>
    have hlocal := Acceptor.listen_local (hs.opened o _ ha) r .success
    rw [show a.toTcpSocket.held = w.holds o from (holds_of ha).symm] at hlocal
    rw [commit_some_described_iff hs h hlocal hcommit]
    exact ⟨fun _ => rfl, fun _ => listen_described (h o _ ha) (hs.fits ha)⟩
  | @accept o peer r a p ha hp hcommit =>
    have hlocal := Acceptor.accept_local a p.base r .success
    rw [← holds_of hp] at hlocal
    rw [commit_some_described_iff hs h hlocal hcommit, accept_described_iff (h o _ ha) (hs.fits ha)
      (h peer p hp) (hs.fits hp) (commit_possible hcommit)]
    have hguard : w.keepsListening (.accept o peer r) =
        (!a.listening || decide (r.value < 0) || !p.listening) := by
      show (!w.listens o || _ || !w.listens peer) = _
      rw [listens_of ha, listens_of hp]
      rfl
    rw [hguard]
  | @close o hbase =>
    obtain ⟨x, hx, hiff⟩ := onBase_described_iff hs h (fun s _ => TcpSocket.close_local s _) hbase
    rw [hiff, close_described_iff (h o x hx) (hs.fits hx)]
    show _ ↔ (!w.listens o) = true
    rw [listens_of hx, Bool.not_eq_true']
  | @destroy o x hx hcommit =>
    have hlocal := TcpSocket.destroy_local x.base
    rw [← holds_of hx] at hlocal
    rw [commit_described_iff hs h hlocal hcommit]
    refine ⟨fun _ => rfl, fun _ z hz => ?_⟩
    cases hz

end

/-- **The flags describe the descriptors throughout a run exactly when `listening_` is never left
behind** by a `close`, an `accept` into the object, or a move. -/
theorem run_flags_iff (ls : List (SocketLabel ι)) :
    Transition.Always step FlagsDescribe start ls ↔
      Transition.Guarded step (fun w l => w.keepsListening l = true) start ls := by
  refine Transition.always_iff_guarded (J := Inv) ?_ ?_ ls start start_inv ?_
  · intro w l w' hs _ hstep _
    exact step_inv hs hstep
  · intro w l w' hs hflags hstep
    rw [flagsDescribe_iff] at hflags ⊢
    exact step_described_iff hs hflags hstep
  · rw [flagsDescribe_iff]
    intro o x hx
    cases hx

/-- **A listening acceptor is closed**: `listening_` stays true, with no descriptor. -/
theorem close_listening : ¬ Transition.Always step FlagsDescribe (start : SocketWorld Nat)
    [.construct 0 true, .open_ 0 ⟨3, 0⟩, .listen 0 ⟨0, 0⟩, .close 0, .open_ 0 ⟨3, 0⟩] := by
  intro h
  have hflags := Transition.always_iff_prefix.1 h _ [] _ (List.append_nil _).symm rfl
  -- opened again, on a descriptor that does not listen, it refuses to be told to
  have hlisten := hflags.listen 0 ⟨⟨3, true, false, false⟩, true⟩ ⟨0, 0⟩ .success rfl rfl
    (by intro d hd; cases hd; rfl)
  cases hlisten

end SocketWorld

end SmartRoutine
