import SmartRoutine.Lib.Contexts
import SmartRoutine.Libcontext

/-!
# Threads that switch contexts

Threads share one memory.  Each has its own registers and executes the stack of one context; what the
code on a stack does between two calls of `libcontext` is arbitrary (`compute`).  `make` is the call
of `make_fcontext` in the constructor of `SmartCoro`, `jump` the call of `jump_fcontext` in
`SmartThread::switch_to`, `free` the destructor of `SmartCoro`.

`contexts` and `trace` are history variables: where each context was left, and where each jump went.

* `machineStep_represents` — the frames in memory are what the history says.
* `run_resumes` — every jump goes on where its context was left.
-/

set_option autoImplicit false

namespace SmartRoutine

open Memory X86

/-- Where the contexts are: the stack of each, and the member `fcontext_` that points into it. -/
structure Layout (ι : Type) where
  base : ι → Nat
  size : ι → Nat
  cell : ι → Nat

/-- A jump of `thread` to `coro`. -/
structure Resumption (τ ι : Type) where
  thread : τ
  coro : ι
  stands : Continuation
  left : Contexts.Status Continuation

structure Machine (τ ι : Type) where
  threads : τ → State
  mem : Nat → UInt8
  contexts : Contexts.State τ ι Continuation
  trace : List (Resumption τ ι)

inductive MachineLabel (τ ι : Type) where
  /-- Other code, which leaves the registers and memory as in `s`. -/
  | compute (t : τ) (s : State)
  | make (t : τ) (c : ι)
  | jump (t : τ) (c : ι)
  | free (c : ι)

variable {τ ι : Type} (L : Layout ι) (finish : UInt64)

/-- What the thread sees. -/
def Machine.view (m : Machine τ ι) (t : τ) : State := { m.threads t with mem := m.mem }

section

variable [DecidableEq τ] [DecidableEq ι]

def Machine.put (m : Machine τ ι) (t : τ) (s : State) : Machine τ ι :=
  { m with threads := Function.update m.threads t s, mem := s.mem }

/-- `context_.fcontext_`. -/
def Layout.fcontext (mem : Nat → UInt8) (c : ι) : Nat := (wordAt mem (L.cell c)).toNat

/-- Where a new context will be entered. -/
def entersAt (s : State) : Continuation :=
  ⟨s.regs .rdx, stackTop s - 8, words s.mem ((stackTop s).toNat - 64) 6⟩

def machineStep (m : Machine τ ι) : MachineLabel τ ι → Option (Machine τ ι)
  | .compute t s => some (m.put t s)
  | .make t c =>
    match Contexts.step m.contexts (.make c (entersAt (m.view t))),
      exec 0 (makeFcontext finish) (m.view t) with
    | some contexts, some (s, _) =>
      some { m.put t (s.store (L.cell c) (s.regs .rax)) with contexts := contexts }
    | _, _ => none
  | .jump t c =>
    match Contexts.step m.contexts (.jump t c (returnsTo (m.view t))),
      exec 0 jumpFcontext (m.view t) with
    | some contexts, some (s, a) =>
      some { m.put t s with
        contexts := contexts
        trace := m.trace ++ [⟨t, c, standsAt (s, a), m.contexts.status c⟩] }
    | _, _ => none
  | .free c => (Contexts.step m.contexts (.free c)).map fun contexts => { m with contexts := contexts }

end

/-! ## What the code around the calls has to do -/

/-- The stacks and the members of the live contexts do not overlap. -/
structure Placed (live : ι → Prop) : Prop where
  fits : ∀ c, live c → L.base c + L.size c < 2 ^ 64
  apart : ∀ c d, live c → live d → Apart (L.cell c) 8 (L.base d) (L.size d)
  blocks : ∀ c d, live c → live d → c ≠ d → Apart (L.base c) (L.size c) (L.base d) (L.size d)
  cells : ∀ c d, live c → live d → c ≠ d → Apart (L.cell c) 8 (L.cell d) 8

def Machine.live (m : Machine τ ι) (c : ι) : Prop := m.contexts.status c ≠ .vacant

/-- The thread is on its stack, `room` bytes above its end. -/
def OnStack (m : Machine τ ι) (t : τ) (room : Nat) : Prop :=
  L.base (m.contexts.current t) + room ≤ ((m.view t).regs .rsp).toNat ∧
    ((m.view t).regs .rsp).toNat + 8 ≤
      L.base (m.contexts.current t) + L.size (m.contexts.current t)

/-- Code keeps what `libcontext` has saved, calls it with the arguments `SmartCoro` and `switch_to`
give it, has room left on its stack, and gets stacks from `malloc` that do not overlap. -/
def Obeys (m : Machine τ ι) : MachineLabel τ ι → Prop
  | .compute _ s => ∀ c k, m.contexts.status c = .suspended k →
      slice s.mem (L.cell c) 8 = slice m.mem (L.cell c) 8 ∧
        slice s.mem (L.fcontext m.mem c) 64 = slice m.mem (L.fcontext m.mem c) 64
  | .make t c => OnStack L m t 0 ∧ ((m.view t).regs .rdi).toNat = L.base c + L.size c ∧
      88 ≤ L.size c ∧ Placed L fun d => m.live d ∨ d = c
  | .jump t c => OnStack L m t 56 ∧ ((m.view t).regs .rdi).toNat = L.cell (m.contexts.current t) ∧
      (m.view t).regs .rsi = wordAt m.mem (L.cell c)
  | .free _ => True

/-! ## The frames in memory -/

/-- The context pointer of `c` points into its stack, to a frame that says `k`. -/
structure FrameOk (mem : Nat → UInt8) (c : ι) (k : Continuation) : Prop where
  low : L.base c ≤ L.fcontext mem c
  high : L.fcontext mem c + 64 ≤ L.base c + L.size c
  frame : frameAt mem (L.fcontext mem c) = k

structure Represents (m : Machine τ ι) : Prop where
  runs : Contexts.Runs m.contexts
  placed : Placed L m.live
  frames : ∀ c k, m.contexts.status c = .suspended k → FrameOk L m.mem c k
  resumed : ∀ e ∈ m.trace, e.left = .suspended e.stands

section

variable {L finish} {m m' : Machine τ ι} {t : τ} {c : ι} {k : Continuation}

theorem fcontext_congr {mem mem' : Nat → UInt8} (h : slice mem' (L.cell c) 8 = slice mem (L.cell c) 8) :
    L.fcontext mem' c = L.fcontext mem c := by
  rw [Layout.fcontext, wordAt_congr h, Layout.fcontext]

theorem FrameOk.kept {mem mem' : Nat → UInt8} (h : FrameOk L mem c k)
    (hcell : slice mem' (L.cell c) 8 = slice mem (L.cell c) 8)
    (hframe : slice mem' (L.fcontext mem c) 64 = slice mem (L.fcontext mem c) 64) :
    FrameOk L mem' c k := by
  have hp := fcontext_congr (L := L) hcell
  exact ⟨by rw [hp]; exact h.low, by rw [hp]; exact h.high, by rw [hp, frameAt_congr hframe, h.frame]⟩

theorem Placed.mono {live live' : ι → Prop} (h : Placed L live) (hl : ∀ c, live' c → live c) :
    Placed L live' :=
  ⟨fun c hc => h.fits c (hl c hc), fun c d hc hd => h.apart c d (hl c hc) (hl d hd),
    fun c d hc hd => h.blocks c d (hl c hc) (hl d hd), fun c d hc hd => h.cells c d (hl c hc) (hl d hd)⟩

theorem Represents.live_current (h : Represents L m) (t : τ) : m.live (m.contexts.current t) := by
  rw [Machine.live, h.runs.running t]
  simp

theorem ne_vacant (h : m.contexts.status c = .suspended k) : m.live c := by
  rw [Machine.live, h]
  simp

/-- A suspended context is not the one the thread executes. -/
theorem Represents.ne_current (h : Represents L m) (hc : m.contexts.status c = .suspended k) (t : τ) :
    c ≠ m.contexts.current t := by
  rintro rfl
  rw [h.runs.running t] at hc
  cases hc

/-! ### A jump -/

section

variable (h : Represents L m) (hon : OnStack L m t 56)
  (hrdi : ((m.view t).regs .rdi).toNat = L.cell (m.contexts.current t))

include h hon hrdi

theorem canSuspend_view : CanSuspend (m.view t) := by
  obtain ⟨hlow, hhigh⟩ := hon
  have hlive := h.live_current t
  refine ⟨by omega, ?_⟩
  rw [hrdi]
  exact (h.placed.apart _ _ hlive hlive).within (by omega) (by omega)

/-- What is apart from the stack and the member of a thread's own context survives its jump. -/
theorem jumped_keeps {o len : Nat}
    (hstack : Apart o len (L.base (m.contexts.current t)) (L.size (m.contexts.current t)))
    (hcell : Apart o len (L.cell (m.contexts.current t)) 8) :
    slice (jumped (m.view t)).mem o len = slice m.mem o len := by
  have hsuspend := canSuspend_view h hon hrdi
  obtain ⟨hlow, hhigh⟩ := hon
  exact jumpFcontext_footprint hsuspend (hstack.within (by omega) (by omega)) (by rw [hrdi]; exact hcell)

/-- The context that is left. -/
theorem jumped_left : FrameOk L (jumped (m.view t)).mem (m.contexts.current t) (returnsTo (m.view t)) := by
  have hsuspend := canSuspend_view h hon hrdi
  have hp : L.fcontext (jumped (m.view t)).mem (m.contexts.current t) =
      ((m.view t).regs .rsp).toNat - 56 := by
    rw [Layout.fcontext, ← hrdi, jumped, resume_mem, wordAt_suspend hsuspend]
  obtain ⟨hlow, hhigh⟩ := hon
  refine ⟨by omega, by omega, ?_⟩
  rw [hp, jumped, resume_mem, frameAt_suspend hsuspend]

/-- The other suspended contexts. -/
theorem jumped_other {d : ι} {kd : Continuation} (hd : m.contexts.status d = .suspended kd) :
    FrameOk L (jumped (m.view t)).mem d kd := by
  have hframe := h.frames d kd hd
  have hlive := ne_vacant hd
  have hcur := h.live_current t
  have hne := h.ne_current hd t
  have hlow := hframe.low
  have hhigh := hframe.high
  refine hframe.kept (jumped_keeps h hon hrdi (h.placed.apart _ _ hlive hcur)
    (h.placed.cells _ _ hlive hcur hne)) (jumped_keeps h hon hrdi ?_ ?_)
  · exact ((h.placed.blocks _ _ hlive hcur hne).symm.within hlow hhigh).symm
  · exact ((h.placed.apart _ _ hcur hlive).within hlow hhigh).symm

/-- **A jump goes on where its context was left.** -/
theorem jumped_stands (hc : m.contexts.status c = .suspended k)
    (hrsi : (m.view t).regs .rsi = wordAt m.mem (L.cell c)) :
    exec 0 jumpFcontext (m.view t) = some (jumped (m.view t), k.rip) ∧
      standsAt (jumped (m.view t), k.rip) = k := by
  have hframe := h.frames c k hc
  have hlive := ne_vacant hc
  have hcur := h.live_current t
  have hne := h.ne_current hc t
  have hlow := hframe.low
  have hhigh := hframe.high
  have hfits := h.placed.fits c hlive
  have hresume : CanResume (m.view t) (L.fcontext m.mem c) 64 := by
    refine ⟨canSuspend_view h hon hrdi, by rw [hrsi, Layout.fcontext], by omega, ?_, ?_⟩
    · have hblocks := ((h.placed.blocks _ _ hlive hcur hne).symm.within hlow hhigh).symm
      obtain ⟨hlow', hhigh'⟩ := hon
      exact hblocks.within (by omega) (by omega)
    · rw [hrdi]
      exact ((h.placed.apart _ _ hcur hlive).within hlow hhigh).symm
  have hk : frameAt (m.view t).mem (L.fcontext m.mem c) = k := hframe.frame
  have := exec_jumpFcontext_frame hresume (Nat.le_refl 64)
  rwa [hk] at this

end

/-! ### A new context -/

section

variable (h : Represents L m) (hon : OnStack L m t 0)
  (hrdi : ((m.view t).regs .rdi).toNat = L.base c + L.size c) (hsize : 88 ≤ L.size c)
  (hplaced : Placed L fun d => m.live d ∨ d = c) (hc : m.contexts.status c = .vacant)

include hrdi hsize

/-- The new frame lies in the new stack. -/
theorem newFrame_low : L.base c + 72 ≤ (stackTop (m.view t)).toNat ∧
    (stackTop (m.view t)).toNat ≤ L.base c + L.size c := by
  rw [toNat_stackTop, hrdi]
  omega

include h hon hplaced hc

theorem canMake_view : CanMake (m.view t) := by
  obtain ⟨hlow, hhigh⟩ := newFrame_low (m := m) (t := t) hrdi hsize
  obtain ⟨hlow', hhigh'⟩ := hon
  have hne : m.contexts.current t ≠ c := by
    rintro rfl
    exact h.live_current t hc
  have hblocks := hplaced.blocks _ _ (Or.inl (h.live_current t)) (Or.inr rfl) hne
  refine ⟨by omega, ?_⟩
  exact (hblocks.symm.within (by omega) (by omega)).symm.within (by omega) (by omega)

/-- What is apart from the new stack and its member survives. -/
theorem made_keeps {o len : Nat} (hstack : Apart o len (L.base c) (L.size c))
    (hcell : Apart o len (L.cell c) 8) :
    slice (putWord (made finish (m.view t)).mem (L.cell c) (newFcontext (m.view t))) o len =
      slice m.mem o len := by
  obtain ⟨hlow, hhigh⟩ := newFrame_low (m := m) (t := t) hrdi hsize
  have hblock : Apart o len ((stackTop (m.view t)).toNat - 72) 72 := hstack.within (by omega) (by omega)
  rw [slice_putWord_apart _ hcell, made_mem finish (canMake_view h hon hrdi hsize hplaced hc),
    slice_newFrame_apart finish _ hblock]
  rfl

/-- The new context. -/
theorem made_new :
    FrameOk L (putWord (made finish (m.view t)).mem (L.cell c) (newFcontext (m.view t))) c
      (entersAt (m.view t)) := by
  obtain ⟨hlow, hhigh⟩ := newFrame_low (m := m) (t := t) hrdi hsize
  have hmake := canMake_view h hon hrdi hsize hplaced hc
  have hlt := (stackTop (m.view t)).toNat_lt
  have hp : L.fcontext (putWord (made finish (m.view t)).mem (L.cell c) (newFcontext (m.view t))) c =
      (stackTop (m.view t)).toNat - 72 := by
    rw [Layout.fcontext, wordAt_putWord, toNat_newFcontext hmake]
  have hcell : Apart ((stackTop (m.view t)).toNat - 72) 64 (L.cell c) 8 :=
    ((hplaced.apart c c (Or.inr rfl) (Or.inr rfl)).within (by omega) (by omega)).symm
  have hrsp : UInt64.ofNat ((stackTop (m.view t)).toNat - 72 + 64) = stackTop (m.view t) - 8 := by
    have height : (8 : UInt64).toNat ≤ (stackTop (m.view t)).toNat := by
      show 8 ≤ _
      omega
    refine UInt64.toNat_inj.1 ?_
    rw [UInt64.toNat_ofNat_of_lt' (by omega : _ < 2 ^ 64), toNat_sub height]
    show _ - 72 + 64 = _ - 8
    omega
  have hlow' : (stackTop (m.view t)).toNat - 72 + 8 = (stackTop (m.view t)).toNat - 64 := by omega
  refine ⟨by omega, by omega, ?_⟩
  rw [hp, frameAt_congr (slice_putWord_apart _ hcell), made_mem finish hmake, frameAt_newFrame, hrsp,
    hlow', entersAt]

/-- The contexts there were. -/
theorem made_other {d : ι} {kd : Continuation} (hd : m.contexts.status d = .suspended kd) :
    FrameOk L (putWord (made finish (m.view t)).mem (L.cell c) (newFcontext (m.view t))) d kd := by
  have hframe := h.frames d kd hd
  have hlive := ne_vacant hd
  have hne : d ≠ c := by
    rintro rfl
    exact hlive hc
  have hlow := hframe.low
  have hhigh := hframe.high
  refine hframe.kept (made_keeps h hon hrdi hsize hplaced hc
    (hplaced.apart _ _ (Or.inl hlive) (Or.inr rfl)) (hplaced.cells _ _ (Or.inl hlive) (Or.inr rfl) hne))
    (made_keeps h hon hrdi hsize hplaced hc ?_ ?_)
  · exact ((hplaced.blocks _ _ (Or.inl hlive) (Or.inr rfl) hne).symm.within hlow hhigh).symm
  · exact ((hplaced.apart _ _ (Or.inr rfl) (Or.inl hlive)).within hlow hhigh).symm

end

/-! ## Runs -/

variable [DecidableEq τ] [DecidableEq ι]

theorem machineStep_make (hstep : machineStep L finish m (.make t c) = some m') :
    m.contexts.status c = .vacant ∧
      m'.mem = putWord (made finish (m.view t)).mem (L.cell c) (newFcontext (m.view t)) ∧
      m'.contexts = m.contexts.make c (entersAt (m.view t)) ∧ m'.trace = m.trace := by
  rw [machineStep, exec_makeFcontext] at hstep
  cases hs : Contexts.step m.contexts (.make c (entersAt (m.view t))) with
  | none => simp [hs] at hstep
  | some contexts =>
    obtain ⟨hc, rfl⟩ := Contexts.step_make.1 hs
    simp only [hs, Option.some.injEq] at hstep
    subst hstep
    refine ⟨hc, ?_, rfl, rfl⟩
    rw [Machine.put, State.store_mem, made_rax]

theorem machineStep_jump (hstep : machineStep L finish m (.jump t c) = some m') :
    ∃ k, m.contexts.status c = .suspended k ∧ m'.mem = (jumped (m.view t)).mem ∧
      m'.contexts = m.contexts.jump t c (returnsTo (m.view t)) ∧
      ∀ a, exec 0 jumpFcontext (m.view t) = some (jumped (m.view t), a) →
        m'.trace = m.trace ++ [⟨t, c, standsAt (jumped (m.view t), a), .suspended k⟩] := by
  rw [machineStep, exec_jumpFcontext] at hstep
  cases hs : Contexts.step m.contexts (.jump t c (returnsTo (m.view t))) with
  | none => simp [hs] at hstep
  | some contexts =>
    obtain ⟨⟨k, hc⟩, rfl⟩ := Contexts.step_jump.1 hs
    simp only [hs, Option.some.injEq] at hstep
    subst hstep
    refine ⟨k, hc, rfl, rfl, fun a ha => ?_⟩
    rw [exec_jumpFcontext] at ha
    obtain ⟨-, rfl⟩ := Prod.mk.inj (Option.some.inj ha)
    rw [hc]
    rfl

theorem machineStep_free (hstep : machineStep L finish m (.free c) = some m') :
    (∃ k, m.contexts.status c = .suspended k) ∧ m' = { m with contexts := m.contexts.free c } := by
  rw [machineStep] at hstep
  obtain ⟨contexts, hs, rfl⟩ := Option.map_eq_some_iff.1 hstep
  obtain ⟨hc, rfl⟩ := Contexts.step_free.1 hs
  exact ⟨hc, rfl⟩

/-- **A step keeps the frames in memory what the history says.** -/
theorem machineStep_represents (h : Represents L m) {l : MachineLabel τ ι} (hobeys : Obeys L m l)
    (hstep : machineStep L finish m l = some m') : Represents L m' := by
  cases l with
  | compute t s =>
    obtain rfl : m.put t s = m' := Option.some.inj hstep
    exact ⟨h.runs, h.placed, fun c k hc => (h.frames c k hc).kept (hobeys c k hc).1 (hobeys c k hc).2,
      h.resumed⟩
  | make t c =>
    obtain ⟨hon, hrdi, hsize, hplaced⟩ := hobeys
    obtain ⟨hc, hmem, hctx, htrace⟩ := machineStep_make hstep
    have hruns := Contexts.step_runs h.runs (Contexts.step_make.2 ⟨hc, hctx⟩)
    refine ⟨hruns, hplaced.mono fun d hd => ?_, fun d k hd => ?_, by rw [htrace]; exact h.resumed⟩
    · by_cases e : d = c
      · exact Or.inr e
      · rw [Machine.live, hctx, Contexts.make_status_of_ne _ _ _ e] at hd
        exact Or.inl hd
    · rw [hmem]
      rw [hctx] at hd
      by_cases e : d = c
      · subst e
        rw [Contexts.make_status_self] at hd
        obtain rfl := Contexts.Status.suspended.inj hd
        exact made_new h hon hrdi hsize hplaced hc
      · rw [Contexts.make_status_of_ne _ _ _ e] at hd
        exact made_other h hon hrdi hsize hplaced hc hd
  | jump t c =>
    obtain ⟨hon, hrdi, hrsi⟩ := hobeys
    obtain ⟨k, hc, hmem, hctx, htrace⟩ := machineStep_jump hstep
    obtain ⟨hexec, hstands⟩ := jumped_stands h hon hrdi hc hrsi
    have hruns := Contexts.step_runs h.runs (Contexts.step_jump.2 ⟨⟨k, hc⟩, hctx⟩)
    refine ⟨hruns, h.placed.mono fun d hd => ?_, fun d kd hd => ?_, fun e he => ?_⟩
    · by_cases e : d = c
      · exact e ▸ ne_vacant hc
      · by_cases e' : d = m.contexts.current t
        · exact e' ▸ h.live_current t
        · rwa [Machine.live, hctx, Contexts.jump_status_of_ne _ _ _ _ e e'] at hd
    · rw [hmem]
      rw [hctx] at hd
      by_cases e : d = c
      · rw [e, Contexts.jump_status_self] at hd
        cases hd
      · by_cases e' : d = m.contexts.current t
        · subst e'
          rw [Contexts.jump_status_left _ _ _ _ e] at hd
          obtain rfl := Contexts.Status.suspended.inj hd
          exact jumped_left h hon hrdi
        · rw [Contexts.jump_status_of_ne _ _ _ _ e e'] at hd
          exact jumped_other h hon hrdi hd
    · rw [htrace _ hexec, hstands] at he
      rcases List.mem_append.1 he with he | he
      · exact h.resumed e he
      · rw [List.mem_singleton.1 he]
  | free c =>
    obtain ⟨⟨k, hc⟩, rfl⟩ := machineStep_free hstep
    have hruns := Contexts.step_runs h.runs (Contexts.step_free.2 ⟨⟨k, hc⟩, rfl⟩)
    refine ⟨hruns, h.placed.mono fun d hd => ?_, fun d kd hd => ?_, h.resumed⟩
    · by_cases e : d = c
      · exact e ▸ ne_vacant hc
      · rwa [Machine.live, Contexts.free_status_of_ne _ _ e] at hd
    · by_cases e : d = c
      · rw [e, Contexts.free_status_self] at hd
        cases hd
      · rw [Contexts.free_status_of_ne _ _ e] at hd
        exact h.frames d kd hd

/-- **Every jump goes on where its context was left**, at the return of the call of `jump_fcontext`
that left it, or at the entry of the function it was made with; for any number of threads and
contexts, and whatever the code on the stacks does in between. -/
theorem run_resumes (h : Represents L m) {ls : List (MachineLabel τ ι)}
    (hobeys : Transition.Guarded (machineStep L finish) (Obeys L) m ls)
    (hrun : Transition.exec (machineStep L finish) m ls = some m') :
    Represents L m' ∧ ∀ e ∈ m'.trace, e.left = .suspended e.stands := by
  have := Transition.exec_invariant_of_guarded (P := Represents L)
    (fun _ _ _ hm hg hs => machineStep_represents hm hg hs) ls m m' h hobeys hrun
  exact ⟨this, this.resumed⟩

/-! ## Progress -/

/-- The operation on contexts that a label stands for. -/
def MachineLabel.op : MachineLabel τ ι → Option (Contexts.Op τ ι Unit)
  | .compute _ _ => none
  | .make _ c => some (.make c ())
  | .jump t c => some (.jump t c ())
  | .free c => some (.free c)

/-- The contexts without their continuations. -/
def Machine.skeleton (m : Machine τ ι) : Contexts.State τ ι Unit := m.contexts.map fun _ => ()

theorem skeleton_step {o : Contexts.Op τ ι Continuation} {a : Contexts.State τ ι Unit}
    (h : Contexts.step m.skeleton (o.map fun _ => ()) = some a) :
    ∃ contexts, Contexts.step m.contexts o = some contexts ∧ contexts.map (fun _ => ()) = a := by
  rw [Machine.skeleton, Contexts.step_map] at h
  exact Option.map_eq_some_iff.1 h

variable (L finish) in
/-- The listings never get stuck: a call is made as soon as the contexts allow it. -/
theorem machineStep_op {l : MachineLabel τ ι} {o : Contexts.Op τ ι Unit} (hl : l.op = some o)
    {a : Contexts.State τ ι Unit} (h : Contexts.step m.skeleton o = some a) :
    ∃ m', machineStep L finish m l = some m' ∧ m'.skeleton = a := by
  cases l with
  | compute t s => cases hl
  | make t c =>
    cases hl
    obtain ⟨contexts, hs, ha⟩ := skeleton_step (o := .make c (entersAt (m.view t))) h
    rw [machineStep, exec_makeFcontext, hs]
    exact ⟨_, rfl, ha⟩
  | jump t c =>
    cases hl
    obtain ⟨contexts, hs, ha⟩ := skeleton_step (o := .jump t c (returnsTo (m.view t))) h
    rw [machineStep, exec_jumpFcontext, hs]
    exact ⟨_, rfl, ha⟩
  | free c =>
    cases hl
    obtain ⟨contexts, hs, ha⟩ := skeleton_step (o := .free c) h
    rw [machineStep, hs]
    exact ⟨_, rfl, ha⟩

variable (L finish) in
/-- **A run never gets stuck** whose calls are allowed, whatever code runs in between. -/
theorem machine_progress {ls : List (MachineLabel τ ι)} {a : Contexts.State τ ι Unit}
    (h : Transition.exec Contexts.step m.skeleton (ls.filterMap MachineLabel.op) = some a) :
    ∃ m', Transition.exec (machineStep L finish) m ls = some m' ∧ m'.skeleton = a := by
  induction ls generalizing m with
  | nil => exact ⟨m, rfl, Option.some.inj h⟩
  | cons l ls ih =>
    cases ho : l.op with
    | none =>
      cases l with
      | compute t s =>
        have hstep : machineStep L finish m (.compute t s) = some (m.put t s) := rfl
        rw [List.filterMap_cons_none ho] at h
        rw [Transition.exec_cons hstep]
        exact ih h
      | make t c => cases ho
      | jump t c => cases ho
      | free c => cases ho
    | some o =>
      rw [List.filterMap_cons_some ho] at h
      cases hs : Contexts.step m.skeleton o with
      | none => simp [Transition.exec, hs] at h
      | some b =>
        rw [Transition.exec_cons hs] at h
        obtain ⟨m₁, hstep, rfl⟩ := machineStep_op L finish ho hs
        rw [Transition.exec_cons hstep]
        exact ih h

end

/-- Two stacks of a page each. -/
def twoStacks : Layout Bool where
  base c := if c then 0x2000 else 0x1000
  size _ := 0x1000
  cell c := if c then 0x100 else 0x108

/-- A thread about to jump from one to the other, which was left at `0x2800`. -/
def aboutToJump : Machine Unit Bool where
  threads _ :=
    { regs | .rsp => 0x1800 | .rdi => 0x108 | .rsi => 0x2800 | _ => 0
      zf := false
      mxcsr := 0x1f80
      fcw := 0x37f
      mem := fun _ => 0 }
  mem a := if a = 0x101 then 0x28 else 0
  contexts :=
    { status c := if c then .suspended (frameAt (fun a => if a = 0x101 then 0x28 else 0) 0x2800) else .running
      current _ := false }
  trace := []

theorem run_resumes_jump : ∃ m', Transition.exec (machineStep twoStacks 0) aboutToJump [.jump () true] =
    some m' ∧ m'.trace.length = 1 ∧ ∀ e ∈ m'.trace, e.left = .suspended e.stands := by
  have hword : wordAt aboutToJump.mem (twoStacks.cell true) = 0x2800 := by decide
  have hplaced : Placed twoStacks fun _ => True := by
    refine ⟨?_, ?_, ?_, ?_⟩ <;> simp only [true_imp_iff] <;> decide
  have hrep : Represents twoStacks aboutToJump := by
    refine ⟨⟨fun _ => rfl, fun _ _ _ => rfl, fun c hc => ⟨(), ?_⟩⟩, hplaced.mono fun _ _ => trivial,
      fun c k hc => ?_, by simp [aboutToJump]⟩
    · cases c <;> simp_all [aboutToJump]
    · cases c with
      | false => simp [aboutToJump] at hc
      | true =>
        have hp : twoStacks.fcontext aboutToJump.mem true = 0x2800 := by rw [Layout.fcontext, hword]; rfl
        refine ⟨by rw [hp]; decide, by rw [hp]; decide, ?_⟩
        rw [hp]
        simpa [aboutToJump] using hc
  obtain ⟨m', hstep⟩ : ∃ m', machineStep twoStacks 0 aboutToJump (.jump () true) = some m' := ⟨_, rfl⟩
  have hexec : Transition.exec (machineStep twoStacks 0) aboutToJump [.jump () true] = some m' :=
    Transition.exec_single hstep
  have hobeys : Obeys twoStacks aboutToJump (.jump () true) :=
    ⟨by unfold OnStack; decide, by decide, by rw [hword]; rfl⟩
  obtain ⟨-, hall⟩ := run_resumes hrep (by simp [Transition.Guarded, hstep, hobeys]) hexec
  refine ⟨m', hexec, ?_, hall⟩
  obtain ⟨k, -, -, -, htrace⟩ := machineStep_jump hstep
  rw [htrace _ (exec_jumpFcontext _)]
  rfl

end SmartRoutine
