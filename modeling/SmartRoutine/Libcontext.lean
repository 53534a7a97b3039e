import SmartRoutine.Lib.X86

/-!
# `libcontext` on x86-64 Linux

The listings of `jump_fcontext` and `make_fcontext`, and what they do to the registers and to
memory.  A context pointer is the stack pointer `jump_fcontext` left behind; `frameAt` reads where a
jump to it will go on.

* `jumpFcontext_returns` — a jump looks to its caller like an ordinary call.
* `makeFcontext_enters` — the first jump to a new context enters its function.
* `jumpFcontext_footprint` — what a jump writes.

The address of `finish` is a parameter: the linker chooses it.
-/

set_option autoImplicit false

namespace SmartRoutine

open Memory X86

/-! ## The listings -/

def jumpFcontext : List Instr :=
  [.push .rbp,
   .push .rbx,
   .push .r15,
   .push .r14,
   .push .r13,
   .push .r12,
   .lea (-0x8) .rsp .rsp,
   .cmp 0 .rcx,
   .je 2,
   .stmxcsr 0 .rsp,
   .fnstcw 0x4 .rsp,
   -- 1:
   .movTo .rsp 0 .rdi,
   .mov .rsi .rsp,
   .cmp 0 .rcx,
   .je 2,
   .ldmxcsr 0 .rsp,
   .fldcw 0x4 .rsp,
   -- 2:
   .lea 0x8 .rsp .rsp,
   .pop .r12,
   .pop .r13,
   .pop .r14,
   .pop .r15,
   .pop .rbx,
   .pop .rbp,
   .pop .r8,
   .mov .rdx .rax,
   .mov .rdx .rdi,
   .jmp .r8]

def makeFcontext (finish : UInt64) : List Instr :=
  [.mov .rdi .rax,
   .and (-16) .rax,
   .lea (-0x48) .rax .rax,
   .movTo .rdx 0x38 .rax,
   .stmxcsr 0 .rax,
   .fnstcw 0x4 .rax,
   .leaSymbol finish .rcx,
   .movTo .rcx 0x40 .rax,
   .ret]

/-- What stands at `finish`; `next` is the address of its `hlt`. -/
def finishListing (exit next : UInt64) : List Instr := [.xor .rdi .rdi, .call exit next, .hlt]

/-! ## Frames -/

/-- The registers a function gives back as it found them, in the order `jump_fcontext` pops them. -/
def calleeSaved : List Reg := [.r12, .r13, .r14, .r15, .rbx, .rbp]

/-- Where a stack goes on. -/
structure Continuation where
  rip : UInt64
  rsp : UInt64
  saved : List UInt64
  deriving DecidableEq, Repr

/-- Where a call that has just been entered will return. -/
def returnsTo (s : State) : Continuation := ⟨s.top, s.regs .rsp + 8, calleeSaved.map s.regs⟩

/-- Where control stands when a listing has been left. -/
def standsAt (p : State × UInt64) : Continuation := ⟨p.2, p.1.regs .rsp, calleeSaved.map p.1.regs⟩

/-- The frame a context pointer points to. -/
def frameAt (m : Nat → UInt8) (p : Nat) : Continuation :=
  ⟨wordAt m (p + 56), UInt64.ofNat (p + 64), words m (p + 8) 6⟩

/-- The control words in the frame a context pointer points to. -/
def fpuAt (m : Nat → UInt8) (p : Nat) : UInt32 × UInt16 :=
  (UInt32.ofNat (load m p 4), UInt16.ofNat (load m (p + 4) 2))

theorem fpuAt_congr {m m' : Nat → UInt8} {p : Nat} (h : slice m' p 64 = slice m p 64) :
    fpuAt m' p = fpuAt m p := by
  have hmxcsr : slice m' p 4 = slice m p 4 := by simpa using slice_part h (k := 0) (n := 4) (by omega)
  rw [fpuAt, load, load, hmxcsr, slice_part h (k := 4) (n := 2) (by omega), fpuAt, load, load]

theorem frameAt_congr {m m' : Nat → UInt8} {p : Nat} (h : slice m' p 64 = slice m p 64) :
    frameAt m' p = frameAt m p := by
  rw [frameAt, wordAt_congr (slice_part h (k := 56) (n := 8) (by omega)),
    words_congr (slice_part h (k := 8) (n := 8 * 6) (by omega)), frameAt]

/-! ## The two halves of a jump -/

/-- `if (preserve_fpu) { stmxcsr (%rsp); fnstcw 4(%rsp) }`. -/
def saveFpu (s : State) : State :=
  if s.regs .rcx = 0 then { s with zf := true }
  else { s with
    zf := false
    mem := put (put s.mem (s.addr 0 .rsp) 4 s.mxcsr.toNat) (s.addr 4 .rsp) 2 s.fcw.toNat }

/-- `if (preserve_fpu) { ldmxcsr (%rsp); fldcw 4(%rsp) }`. -/
def loadFpu (s : State) : State :=
  if s.regs .rcx = 0 then { s with zf := true }
  else { s with
    zf := false
    mxcsr := UInt32.ofNat (load s.mem (s.addr 0 .rsp) 4)
    fcw := UInt16.ofNat (load s.mem (s.addr 4 .rsp) 2) }

/-- The frame of the context that is left, with room for the control words. -/
def pushFrame (s : State) : State := (s.pushAll calleeSaved.reverse).lea (-8) .rsp .rsp

/-- Up to `movq %rsp, (%rdi)`: the context that is left is in memory. -/
def suspend (s : State) : State :=
  (saveFpu (pushFrame s)).store ((saveFpu (pushFrame s)).addr 0 .rdi)
    ((saveFpu (pushFrame s)).regs .rsp)

/-- From `movq %rsi, %rsp` up to `popq %r8`. -/
def popFrame (s : State) : State :=
  ((loadFpu (s.set .rsp (s.regs .rsi))).lea 8 .rsp .rsp).popAll (calleeSaved ++ [.r8])

/-- From `movq %rsi, %rsp` on: the context at `%rsi` is in the registers. -/
def resume (s : State) : State :=
  ((popFrame s).set .rax ((popFrame s).regs .rdx)).set .rdi
    (((popFrame s).set .rax ((popFrame s).regs .rdx)).regs .rdx)

theorem exec_saveFpu (is : List Instr) (s : State) :
    exec 0 ([.cmp 0 .rcx, .je 2, .stmxcsr 0 .rsp, .fnstcw 0x4 .rsp] ++ is) s =
      exec 0 is (saveFpu s) := by
  by_cases h : s.regs .rcx = 0 <;> simp [exec, Instr.step, saveFpu, h, State.addr]

theorem exec_loadFpu (is : List Instr) (s : State) :
    exec 0 ([.cmp 0 .rcx, .je 2, .ldmxcsr 0 .rsp, .fldcw 0x4 .rsp] ++ is) s =
      exec 0 is (loadFpu s) := by
  by_cases h : s.regs .rcx = 0 <;> simp [exec, Instr.step, loadFpu, h, State.addr]

theorem exec_suspend (is : List Instr) (s : State) :
    exec 0 (calleeSaved.reverse.map .push ++ (.lea (-0x8) .rsp .rsp ::
      ([.cmp 0 .rcx, .je 2, .stmxcsr 0 .rsp, .fnstcw 0x4 .rsp] ++ (.movTo .rsp 0 .rdi :: is)))) s =
      exec 0 is (suspend s) := by
  rw [exec_push, exec_lea, exec_saveFpu, exec_movTo]
  rfl

theorem exec_resume (s : State) :
    exec 0 (.mov .rsi .rsp :: ([.cmp 0 .rcx, .je 2, .ldmxcsr 0 .rsp, .fldcw 0x4 .rsp] ++
      (.lea 0x8 .rsp .rsp :: ((calleeSaved ++ [Reg.r8]).map .pop ++
        [.mov .rdx .rax, .mov .rdx .rdi, .jmp .r8])))) s =
      some (resume s, (resume s).regs .r8) := by
  rw [exec_mov, exec_loadFpu, exec_lea, exec_pop, exec_mov, exec_mov, exec_jmp]
  rfl

/-- **`jump_fcontext`** suspends one context and resumes another. -/
theorem exec_jumpFcontext (s : State) :
    exec 0 jumpFcontext s = some (resume (suspend s), (resume (suspend s)).regs .r8) :=
  (exec_suspend _ s).trans (exec_resume (suspend s))

/-! ## Leaving a context -/

/-- There is room for the frame, and the cell that receives the context pointer is not on it. -/
structure CanSuspend (s : State) : Prop where
  room : 56 ≤ (s.regs .rsp).toNat
  cell : Apart (s.regs .rdi).toNat 8 ((s.regs .rsp).toNat - 56) 64

section

variable {s : State}

@[simp] theorem saveFpu_regs (s : State) : (saveFpu s).regs = s.regs := by
  unfold saveFpu
  split <;> rfl

theorem addr_zero (s : State) (r : Reg) : s.addr 0 r = (s.regs r).toNat := by
  simp [State.addr]

/-- The control words lie in the lowest six bytes of the frame. -/
theorem slice_saveFpu_apart (h : (s.regs .rsp).toNat + 8 < 2 ^ 64) {o len : Nat}
    (ho : Apart o len (s.regs .rsp).toNat 8) : slice (saveFpu s).mem o len = slice s.mem o len := by
  have hfcw : s.addr 4 .rsp = (s.regs .rsp).toNat + 4 :=
    toNat_add (show _ + 4 < 2 ^ 64 by omega)
  unfold saveFpu
  split
  · rfl
  · show slice (put (put s.mem _ 4 _) _ 2 _) o len = _
    rw [addr_zero, hfcw]
    have hmxcsr : Apart o len (s.regs .rsp).toNat 4 := ho.within (by omega) (by omega)
    have hfcw' : Apart o len ((s.regs .rsp).toNat + 4) 2 := ho.within (by omega) (by omega)
    rw [slice_put_apart _ hfcw', slice_put_apart _ hmxcsr]

theorem length_calleeSaved : calleeSaved.reverse.length = 6 := rfl

theorem pushFrame_mem (s : State) : (pushFrame s).mem = (s.pushAll calleeSaved.reverse).mem := by
  rw [pushFrame, State.lea_mem]

theorem pushFrame_regs {r : Reg} (h : r ≠ .rsp) : (pushFrame s).regs r = s.regs r := by
  rw [pushFrame, State.lea_regs_of_ne _ _ _ _ h, State.regs_pushAll h]

theorem pushFrame_rsp (h : 56 ≤ (s.regs .rsp).toNat) :
    ((pushFrame s).regs .rsp).toNat = (s.regs .rsp).toNat - 56 := by
  have hpush := State.rsp_pushAll (s := s) (l := calleeSaved.reverse) (by rw [length_calleeSaved]; omega)
  rw [length_calleeSaved] at hpush
  rw [pushFrame, State.lea_regs_self]
  generalize (s.pushAll calleeSaved.reverse).regs .rsp = sp at hpush ⊢
  have hsub : sp + -8 = sp - 8 := (UInt64.sub_eq_add_neg sp 8).symm
  have hle : (8 : UInt64).toNat ≤ sp.toNat := by
    show 8 ≤ _
    omega
  rw [hsub, toNat_sub hle, hpush]
  exact Nat.sub_sub _ 48 8

theorem slice_pushFrame_apart (h : 56 ≤ (s.regs .rsp).toNat) {o len : Nat}
    (ho : Apart o len ((s.regs .rsp).toNat - 48) 48) :
    slice (pushFrame s).mem o len = slice s.mem o len := by
  rw [pushFrame_mem]
  exact State.slice_pushAll_apart (by rw [length_calleeSaved]; omega) (by rwa [length_calleeSaved])

theorem words_pushFrame (h : 56 ≤ (s.regs .rsp).toNat) :
    words (pushFrame s).mem ((s.regs .rsp).toNat - 48) 6 = calleeSaved.map s.regs := by
  have := State.words_pushAll (s := s) (l := calleeSaved.reverse) (by rw [length_calleeSaved]; omega)
    (by decide)
  rw [length_calleeSaved, List.map_reverse, List.reverse_reverse] at this
  rw [pushFrame_mem, this]

theorem suspend_regs {r : Reg} (h : r ≠ .rsp) : (suspend s).regs r = s.regs r := by
  rw [suspend, State.store_regs, saveFpu_regs, pushFrame_regs h]

/-- On top of the registers come the control words and the cell. -/
theorem slice_suspend_pushFrame (h : CanSuspend s) {o len : Nat}
    (hfpu : Apart o len ((s.regs .rsp).toNat - 56) 8) (hcell : Apart o len (s.regs .rdi).toNat 8) :
    slice (suspend s).mem o len = slice (pushFrame s).mem o len := by
  have hroom := h.room
  have hlt := (s.regs .rsp).toNat_lt
  have hrsp := pushFrame_rsp hroom
  have hrdi : (saveFpu (pushFrame s)).addr 0 .rdi = (s.regs .rdi).toNat := by
    rw [addr_zero, saveFpu_regs, pushFrame_regs (by decide)]
  rw [suspend, State.store_mem, hrdi, slice_putWord_apart _ hcell]
  exact slice_saveFpu_apart (by omega) (by rwa [hrsp])

/-- **What leaving a context writes**: its frame and the cell. -/
theorem slice_suspend_apart (h : CanSuspend s) {o len : Nat}
    (hframe : Apart o len ((s.regs .rsp).toNat - 56) 56)
    (hcell : Apart o len (s.regs .rdi).toNat 8) : slice (suspend s).mem o len = slice s.mem o len := by
  have hroom := h.room
  have hfpu : Apart o len ((s.regs .rsp).toNat - 56) 8 := hframe.within (by omega) (by omega)
  have hpush : Apart o len ((s.regs .rsp).toNat - 48) 48 := hframe.within (by omega) (by omega)
  rw [slice_suspend_pushFrame h hfpu hcell, slice_pushFrame_apart hroom hpush]

/-- The cell holds the stack pointer that was left. -/
theorem wordAt_suspend (h : CanSuspend s) :
    (wordAt (suspend s).mem (s.regs .rdi).toNat).toNat = (s.regs .rsp).toNat - 56 := by
  have hrdi : (saveFpu (pushFrame s)).addr 0 .rdi = (s.regs .rdi).toNat := by
    rw [addr_zero, saveFpu_regs, pushFrame_regs (by decide)]
  rw [suspend, State.store_mem, hrdi, wordAt_putWord, saveFpu_regs, pushFrame_rsp h.room]

@[simp] theorem fpu_suspend (s : State) : (suspend s).fpu = s.fpu := by
  have hsave : ∀ u : State, (saveFpu u).fpu = u.fpu := fun u => by
    unfold saveFpu
    split <;> rfl
  rw [suspend, State.store_fpu, hsave, pushFrame, State.lea_fpu, State.fpu_pushAll]

/-- **The frame that was left** is where the call of `jump_fcontext` returns to. -/
theorem frameAt_suspend (h : CanSuspend s) :
    frameAt (suspend s).mem ((s.regs .rsp).toNat - 56) = returnsTo s := by
  have hroom := h.room
  have hret : (s.regs .rsp).toNat - 56 + 56 = (s.regs .rsp).toNat := by omega
  have hup : (s.regs .rsp).toNat - 56 + 64 = (s.regs .rsp).toNat + 8 := by omega
  have hlow : (s.regs .rsp).toNat - 56 + 8 = (s.regs .rsp).toNat - 48 := by omega
  have hcell := h.cell.symm
  have hrip : wordAt (suspend s).mem (s.regs .rsp).toNat = s.top := by
    refine wordAt_congr (slice_suspend_apart h (Or.inr (by omega)) ?_)
    exact (hcell.symm.within (by omega) (by omega)).symm
  have hsaved : words (suspend s).mem ((s.regs .rsp).toNat - 48) 6 = calleeSaved.map s.regs := by
    rw [← words_pushFrame hroom]
    refine words_congr (slice_suspend_pushFrame h (Or.inr (by omega)) ?_)
    exact (hcell.symm.within (by omega) (by omega)).symm
  rw [frameAt, hret, hup, hlow, hrip, hsaved, returnsTo, UInt64.ofNat_add, UInt64.ofNat_toNat]
  rfl

end

/-! ## Entering a context -/

section

variable {s : State}

@[simp] theorem loadFpu_regs (s : State) : (loadFpu s).regs = s.regs := by
  unfold loadFpu
  split <;> rfl

@[simp] theorem loadFpu_mem (s : State) : (loadFpu s).mem = s.mem := by
  unfold loadFpu
  split <;> rfl

@[simp] theorem popFrame_mem (s : State) : (popFrame s).mem = s.mem := by
  rw [popFrame, State.mem_popAll, State.lea_mem, loadFpu_mem, State.set_mem]

@[simp] theorem resume_mem (s : State) : (resume s).mem = s.mem := by
  rw [resume, State.set_mem, State.set_mem, popFrame_mem]

/-- The argument of the jump is what the other side's call returns, or the argument of its entry. -/
theorem resume_value (s : State) : (resume s).regs .rax = s.regs .rdx ∧ (resume s).regs .rdi = s.regs .rdx := by
  have hrdx : (popFrame s).regs .rdx = s.regs .rdx := by
    rw [popFrame, State.regs_popAll (by decide) (by decide), State.lea_regs_of_ne _ _ _ _ (by decide),
      loadFpu_regs, State.set_regs_of_ne _ _ _ (by decide)]
  have hrax : ((popFrame s).set .rax ((popFrame s).regs .rdx)).regs .rdx = s.regs .rdx := by
    rw [State.set_regs_of_ne _ _ _ (by decide), hrdx]
  constructor
  · rw [resume, State.set_regs_of_ne _ _ _ (by decide), State.set_regs_self, hrdx]
  · rw [resume, State.set_regs_self, hrax]

theorem resume_regs {r : Reg} (hrax : r ≠ .rax) (hrdi : r ≠ .rdi) :
    (resume s).regs r = (popFrame s).regs r := by
  rw [resume, State.set_regs_of_ne _ _ _ hrdi, State.set_regs_of_ne _ _ _ hrax]

theorem resume_saved : calleeSaved.map (resume s).regs = calleeSaved.map (popFrame s).regs :=
  List.map_congr_left fun r hr => resume_regs (by rintro rfl; revert hr; decide)
    (by rintro rfl; revert hr; decide)

theorem length_frameRegs : (calleeSaved ++ [Reg.r8]).length = 7 := rfl

/-- The pops take the six registers and the return address off the frame. -/
theorem regs_popFrame (h : (s.regs .rsi).toNat + 64 < 2 ^ 64) :
    calleeSaved.map (popFrame s).regs = words s.mem ((s.regs .rsi).toNat + 8) 6 ∧
      (popFrame s).regs .r8 = wordAt s.mem ((s.regs .rsi).toNat + 56) ∧
      ((popFrame s).regs .rsp).toNat = (s.regs .rsi).toNat + 64 := by
  let u := (loadFpu (s.set .rsp (s.regs .rsi))).lea 8 .rsp .rsp
  have hsp : (u.regs .rsp).toNat = (s.regs .rsi).toNat + 8 := by
    have hle : (s.regs .rsi).toNat + (8 : UInt64).toNat < 2 ^ 64 := by
      show _ + 8 < _
      omega
    show (State.regs (State.lea _ _ _ _) _).toNat = _
    rw [State.lea_regs_self, loadFpu_regs, State.set_regs_self, toNat_add hle]
    rfl
  have hmem : u.mem = s.mem := by
    show (State.lea _ _ _ _).mem = _
    rw [State.lea_mem, loadFpu_mem, State.set_mem]
  have hpop : popFrame s = u.popAll (calleeSaved ++ [Reg.r8]) := rfl
  have hmap := State.map_popAll (s := u) (l := calleeSaved ++ [Reg.r8]) (by decide) (by decide)
    (by rw [hsp, length_frameRegs]; omega)
  rw [← hpop, hmem, hsp, length_frameRegs, List.map_append, words_append _ _ 6 1] at hmap
  obtain ⟨hsaved, hrip⟩ := List.append_inj hmap (by rw [List.length_map, length_words]; rfl)
  have hup := State.rsp_popAll (s := u) (l := calleeSaved ++ [Reg.r8]) (by decide)
    (by rw [hsp, length_frameRegs]; omega)
  rw [← hpop, hsp, length_frameRegs] at hup
  exact ⟨hsaved, List.head_eq_of_cons_eq hrip, by rw [hup]⟩

/-- **Entering a context** goes on where its frame says. -/
theorem standsAt_resume (h : (s.regs .rsi).toNat + 64 < 2 ^ 64) :
    standsAt (resume s, (resume s).regs .r8) = frameAt s.mem (s.regs .rsi).toNat := by
  obtain ⟨hsaved, hrip, hrsp⟩ := regs_popFrame h
  have hofNat : (popFrame s).regs .rsp = UInt64.ofNat ((s.regs .rsi).toNat + 64) := by
    rw [← hrsp, UInt64.ofNat_toNat]
  rw [standsAt, resume_saved, resume_regs (by decide) (by decide), resume_regs (by decide) (by decide),
    hsaved, hrip, hofNat, frameAt]

/-- The control words are the thread's own unless the jump is to preserve them. -/
theorem fpu_resume (h : (s.regs .rsi).toNat + 64 < 2 ^ 64) :
    (resume s).fpu = if s.regs .rcx = 0 then s.fpu else fpuAt s.mem (s.regs .rsi).toNat := by
  have hpop : (resume s).fpu = (loadFpu (s.set .rsp (s.regs .rsi))).fpu := by
    rw [resume, State.set_fpu, State.set_fpu, popFrame, State.fpu_popAll, State.lea_fpu]
  have hrcx : (s.set .rsp (s.regs .rsi)).regs .rcx = s.regs .rcx :=
    State.set_regs_of_ne _ _ _ (by decide)
  have hsp : (s.set .rsp (s.regs .rsi)).addr 0 .rsp = (s.regs .rsi).toNat := by
    rw [addr_zero, State.set_regs_self]
  have hle : (s.regs .rsi).toNat + (4 : UInt64).toNat < 2 ^ 64 := by
    show _ + 4 < _
    omega
  have hfcw : (s.set .rsp (s.regs .rsi)).addr 4 .rsp = (s.regs .rsi).toNat + 4 := by
    rw [State.addr, State.set_regs_self, toNat_add hle]
    rfl
  rw [hpop, loadFpu, hrcx, hsp, hfcw]
  split <;> rfl

end

/-! ## Jumps and back -/

/-- The result of a jump. -/
def jumped (s : State) : State := resume (suspend s)

/-- A jump to the context pointer `p` writes nothing to the `n` bytes there. -/
structure CanResume (s : State) (p n : Nat) : Prop extends CanSuspend s where
  target : (s.regs .rsi).toNat = p
  fits : p + 64 < 2 ^ 64
  frame : Apart p n ((s.regs .rsp).toNat - 56) 56
  kept : Apart p n (s.regs .rdi).toNat 8

section

variable {s t : State} {p n : Nat}

/-- **What a jump writes**: the frame of the context that is left, and its cell. -/
theorem jumpFcontext_footprint (h : CanSuspend s) {o len : Nat}
    (hframe : Apart o len ((s.regs .rsp).toNat - 56) 56) (hcell : Apart o len (s.regs .rdi).toNat 8) :
    slice (jumped s).mem o len = slice s.mem o len := by
  rw [jumped, resume_mem, slice_suspend_apart h hframe hcell]

/-- A jump leaves the frame it goes to as it is. -/
theorem CanResume.slice_suspend (h : CanResume s p n) (hn : 64 ≤ n) :
    slice (suspend s).mem p 64 = slice s.mem p 64 :=
  slice_suspend_apart h.toCanSuspend (h.frame.symm.within (Nat.le_refl _) (by omega)).symm
    (h.kept.symm.within (Nat.le_refl _) (by omega)).symm

/-- A jump goes on where the frame it is given says. -/
theorem exec_jumpFcontext_frame (h : CanResume s p n) (hn : 64 ≤ n) :
    exec 0 jumpFcontext s = some (jumped s, (frameAt s.mem p).rip) ∧
      standsAt (jumped s, (frameAt s.mem p).rip) = frameAt s.mem p := by
  have hrsi : ((suspend s).regs .rsi).toNat = p := by rw [suspend_regs (by decide), h.target]
  have hstands := standsAt_resume (s := suspend s) (by rw [hrsi]; exact h.fits)
  rw [hrsi, frameAt_congr (h.slice_suspend hn)] at hstands
  have hrip : (resume (suspend s)).regs .r8 = (frameAt s.mem p).rip := congrArg Continuation.rip hstands
  constructor
  · rw [exec_jumpFcontext, hrip, jumped]
  · rw [← hrip, jumped, hstands]

theorem jumped_fpu (h : CanResume s p n) (hn : 64 ≤ n) :
    (jumped s).fpu = if s.regs .rcx = 0 then s.fpu else fpuAt s.mem p := by
  have hrsi : ((suspend s).regs .rsi).toNat = p := by rw [suspend_regs (by decide), h.target]
  have hrcx : (suspend s).regs .rcx = s.regs .rcx := suspend_regs (by decide)
  have hfpu := fpu_resume (s := suspend s) (by rw [hrsi]; exact h.fits)
  rwa [hrsi, hrcx, fpu_suspend, fpuAt_congr (h.slice_suspend hn)] at hfpu

theorem jumped_value (s : State) :
    (jumped s).regs .rax = s.regs .rdx ∧ (jumped s).regs .rdi = s.regs .rdx := by
  have := resume_value (suspend s)
  rwa [suspend_regs (by decide)] at this

end

section

variable {s : State} (finish : UInt64)

/-- `%rdi`, the end of the stack, rounded down. -/
def stackTop (s : State) : UInt64 := s.regs .rdi &&& -16

/-- The context pointer `make_fcontext` returns. -/
def newFcontext (s : State) : UInt64 := stackTop s + -0x48

/-- There is room for the frame, and the return address of the caller is not on it. -/
structure CanMake (s : State) : Prop where
  room : 72 ≤ (stackTop s).toNat
  stack : Apart (s.regs .rsp).toNat 8 ((stackTop s).toNat - 72) 72

/-- Up to `leaq -0x48(%rax), %rax`. -/
def makeRoom (s : State) : State :=
  ((s.set .rax (s.regs .rdi)).land (-16) .rax).lea (-0x48) .rax .rax

/-- `movq %rdx, 0x38(%rax)` and the control words. -/
def placeEntry (s : State) : State :=
  { s with
    mem := put (put (putWord s.mem (s.addr 0x38 .rax) (s.regs .rdx)) (s.addr 0 .rax) 4 s.mxcsr.toNat)
      (s.addr 0x4 .rax) 2 s.fcw.toNat }

/-- `movq %rcx, 0x40(%rax)`. -/
def placeFinish (s : State) : State :=
  (s.set .rcx finish).store ((s.set .rcx finish).addr 0x40 .rax) finish

/-- The state in which `make_fcontext` returns. -/
def made (s : State) : State :=
  (placeFinish finish (placeEntry (makeRoom s))).set .rsp
    ((placeFinish finish (placeEntry (makeRoom s))).regs .rsp + 8)

theorem exec_placeEntry (is : List Instr) (s : State) :
    exec 0 (.movTo .rdx 0x38 .rax :: .stmxcsr 0 .rax :: .fnstcw 0x4 .rax :: is) s =
      exec 0 is (placeEntry s) := rfl

theorem exec_placeFinish (is : List Instr) (s : State) :
    exec 0 (.leaSymbol finish .rcx :: .movTo .rcx 0x40 .rax :: is) s =
      exec 0 is (placeFinish finish s) := by
  rw [exec_leaSymbol, exec_movTo, State.set_regs_self, placeFinish]

/-- **`make_fcontext`** rounds the end of the stack down and places a frame under it. -/
theorem exec_makeFcontext (s : State) : exec 0 (makeFcontext finish) s =
    some (made finish s, (placeFinish finish (placeEntry (makeRoom s))).top) := by
  rw [makeFcontext, exec_mov, exec_and, exec_lea, exec_placeEntry, exec_placeFinish, exec_ret]
  rfl

theorem toNat_stackTop (s : State) : (stackTop s).toNat = (s.regs .rdi).toNat / 16 * 16 :=
  toNat_and_mask _ _ (k := 4) (by decide) rfl

theorem toNat_newFcontext (h : CanMake s) : (newFcontext s).toNat = (stackTop s).toNat - 72 := by
  have hsub : newFcontext s = stackTop s - 0x48 := (UInt64.sub_eq_add_neg _ _).symm
  have hle : (0x48 : UInt64).toNat ≤ (stackTop s).toNat := h.room
  rw [hsub, toNat_sub hle]
  rfl

theorem makeRoom_rax (s : State) : (makeRoom s).regs .rax = newFcontext s := by
  rw [makeRoom, State.lea_regs_self, State.land_regs_self, State.set_regs_self, newFcontext, stackTop]

theorem makeRoom_regs {r : Reg} (h : r ≠ .rax) : (makeRoom s).regs r = s.regs r := by
  rw [makeRoom, State.lea_regs_of_ne _ _ _ _ h, State.land_regs_of_ne _ _ _ h,
    State.set_regs_of_ne _ _ _ h]

theorem makeRoom_mem (s : State) : (makeRoom s).mem = s.mem := by
  rw [makeRoom, State.lea_mem, State.land_mem, State.set_mem]

theorem makeRoom_fpu (s : State) : (makeRoom s).fpu = s.fpu := by
  rw [makeRoom, State.lea_fpu, State.land_fpu, State.set_fpu]

@[simp] theorem placeEntry_regs (s : State) : (placeEntry s).regs = s.regs := rfl

theorem makeRoom_addr (h : CanMake s) {d : UInt64} (hd : d.toNat < 72) :
    (makeRoom s).addr d .rax = (stackTop s).toNat - 72 + d.toNat := by
  have hroom := h.room
  have hlt := (stackTop s).toNat_lt
  have hp := toNat_newFcontext h
  rw [State.addr, makeRoom_rax, toNat_add (by omega), hp]

/-- Memory after `make_fcontext`, where `p` is the new context pointer. -/
def newFrame (s : State) (p : Nat) : Nat → UInt8 :=
  putWord
    (put (put (putWord s.mem (p + 56) (s.regs .rdx)) p 4 s.mxcsr.toNat) (p + 4) 2 s.fcw.toNat)
    (p + 64) finish

theorem made_mem (h : CanMake s) : (made finish s).mem = newFrame finish s ((stackTop s).toNat - 72) := by
  have haddr : ((placeEntry (makeRoom s)).set .rcx finish).addr 0x40 .rax =
      (stackTop s).toNat - 72 + 64 := by
    have := makeRoom_addr h (d := 0x40) (by decide)
    rw [State.addr] at this
    rw [State.addr, State.set_regs_of_ne _ _ _ (by decide), placeEntry_regs, this]
    rfl
  have hmxcsr : (makeRoom s).mxcsr = s.mxcsr := congrArg Prod.fst (makeRoom_fpu s)
  have hfcw : (makeRoom s).fcw = s.fcw := congrArg Prod.snd (makeRoom_fpu s)
  have hplace : (placeEntry (makeRoom s)).mem =
      put (put (putWord s.mem ((stackTop s).toNat - 72 + 56) (s.regs .rdx)) ((stackTop s).toNat - 72) 4
        s.mxcsr.toNat) ((stackTop s).toNat - 72 + 4) 2 s.fcw.toNat := by
    rw [placeEntry, makeRoom_addr h (d := 0x38) (by decide), makeRoom_addr h (d := 0) (by decide),
      makeRoom_addr h (d := 4) (by decide), makeRoom_mem, makeRoom_regs (by decide), hmxcsr, hfcw]
    simp only [UInt64.reduceToNat, Nat.add_zero]
  rw [made, State.set_mem, placeFinish, State.store_mem, haddr, State.set_mem, hplace, newFrame]

section

variable (p : Nat)

theorem newFrame_finish : wordAt (newFrame finish s p) (p + 64) = finish := by
  rw [newFrame, wordAt_putWord]

theorem newFrame_entry : wordAt (newFrame finish s p) (p + 56) = s.regs .rdx := by
  have hfinish : Apart (p + 56) 8 (p + 64) 8 := Or.inl (Nat.le_refl _)
  have hfcw : Apart (p + 56) 8 (p + 4) 2 := Or.inr (by omega)
  have hmxcsr : Apart (p + 56) 8 p 4 := Or.inr (by omega)
  rw [newFrame, wordAt_putWord_apart _ hfinish, wordAt_congr (slice_put_apart _ hfcw),
    wordAt_congr (slice_put_apart _ hmxcsr), wordAt_putWord]

theorem newFrame_saved : words (newFrame finish s p) (p + 8) 6 = words s.mem (p + 8) 6 := by
  have hfinish : Apart (p + 8) 48 (p + 64) 8 := Or.inl (by omega)
  have hfcw : Apart (p + 8) 48 (p + 4) 2 := Or.inr (by omega)
  have hmxcsr : Apart (p + 8) 48 p 4 := Or.inr (by omega)
  have hentry : Apart (p + 8) 48 (p + 56) 8 := Or.inl (by omega)
  refine words_congr ?_
  show slice _ (p + 8) 48 = _
  rw [newFrame, slice_putWord_apart _ hfinish, slice_put_apart _ hfcw, slice_put_apart _ hmxcsr,
    slice_putWord_apart _ hentry]

theorem frameAt_newFrame : frameAt (newFrame finish s p) p =
    ⟨s.regs .rdx, UInt64.ofNat (p + 64), words s.mem (p + 8) 6⟩ := by
  rw [frameAt, newFrame_entry, newFrame_saved]

theorem newFrame_fpu : fpuAt (newFrame finish s p) p = s.fpu := by
  have hmxcsr : Apart p 4 (p + 64) 8 := Or.inl (by omega)
  have hfcw : Apart (p + 4) 2 (p + 64) 8 := Or.inl (by omega)
  have hpart : Apart p 4 (p + 4) 2 := Or.inl (Nat.le_refl _)
  rw [fpuAt, newFrame, putWord, load_put_apart _ hmxcsr, load_put_apart _ hfcw, load_put_apart _ hpart,
    load_put _ s.mxcsr.toNat_lt, load_put _ s.fcw.toNat_lt, UInt32.ofNat_toNat, UInt16.ofNat_toNat,
    State.fpu]

theorem slice_newFrame_apart {o len : Nat} (h : Apart o len p 72) :
    slice (newFrame finish s p) o len = slice s.mem o len := by
  have hfinish : Apart o len (p + 64) 8 := h.within (by omega) (by omega)
  have hfcw : Apart o len (p + 4) 2 := h.within (by omega) (by omega)
  have hmxcsr : Apart o len p 4 := h.within (by omega) (by omega)
  have hentry : Apart o len (p + 56) 8 := h.within (by omega) (by omega)
  rw [newFrame, slice_putWord_apart _ hfinish, slice_put_apart _ hfcw, slice_put_apart _ hmxcsr,
    slice_putWord_apart _ hentry]

end

/-- `make_fcontext` keeps every register but the two it computes with, and pops its return
address. -/
theorem made_regs : (∀ r, r ∉ [Reg.rax, Reg.rcx, Reg.rsp] → (made finish s).regs r = s.regs r) ∧
    (made finish s).regs .rsp = s.regs .rsp + 8 := by
  constructor
  · intro r h
    simp only [List.mem_cons, List.not_mem_nil, or_false, not_or] at h
    obtain ⟨hrax, hrcx, hrsp⟩ := h
    rw [made, State.set_regs_of_ne _ _ _ hrsp, placeFinish, State.store_regs,
      State.set_regs_of_ne _ _ _ hrcx, placeEntry_regs, makeRoom_regs hrax]
  · rw [made, State.set_regs_self, placeFinish, State.store_regs, State.set_regs_of_ne _ _ _ (by decide),
      placeEntry_regs, makeRoom_regs (by decide)]

theorem made_rax : (made finish s).regs .rax = newFcontext s := by
  rw [made, State.set_regs_of_ne _ _ _ (by decide), placeFinish, State.store_regs,
    State.set_regs_of_ne _ _ _ (by decide), placeEntry_regs, makeRoom_rax]

/-- **`make_fcontext`** returns to its caller. -/
theorem exec_makeFcontext_returns (h : CanMake s) :
    exec 0 (makeFcontext finish) s = some (made finish s, s.top) := by
  have hmem : (placeFinish finish (placeEntry (makeRoom s))).mem = (made finish s).mem := by
    rw [made, State.set_mem]
  have hrsp : (placeFinish finish (placeEntry (makeRoom s))).regs .rsp = s.regs .rsp := by
    rw [placeFinish, State.store_regs, State.set_regs_of_ne _ _ _ (by decide), placeEntry_regs,
      makeRoom_regs (by decide)]
  have htop : (placeFinish finish (placeEntry (makeRoom s))).top = s.top := by
    rw [State.top, State.top, hrsp, hmem, made_mem finish h]
    exact wordAt_congr (slice_newFrame_apart finish _ h.stack)
  rw [exec_makeFcontext, htop]

/-- A return to `finish` ends the process with status 0. -/
theorem exec_finish (exit next : UInt64) (u : State) :
    ∃ v, exec 0 (finishListing exit next) u = some (v, exit) ∧ v.regs .rdi = 0 := by
  refine ⟨(u.xor .rdi .rdi).push next, rfl, ?_⟩
  rw [State.push_regs _ _ _ (by decide), State.xor_regs_self, UInt64.xor_self]

/-- **A new context enters its function.**  The first jump to the pointer `make_fcontext` returned,
from any stack and after any other code that keeps the 72 bytes there, stands at the entry of `fn`
as after a call from `finish`: the argument of the jump in `%rdi`, the stack aligned and below the
end it was given.  When `fn` returns, the process exits with status 0. -/
theorem makeFcontext_enters {s' t : State} {a : UInt64}
    (hs : exec 0 (makeFcontext finish) s = some (s', a)) (hmake : CanMake s)
    (hto : CanResume t ((stackTop s).toNat - 72) 72)
    (hkept : slice t.mem ((stackTop s).toNat - 72) 72 = slice s'.mem ((stackTop s).toNat - 72) 72) :
    a = s.top ∧ (s'.regs .rax).toNat = (stackTop s).toNat - 72 ∧
    ∃ t', exec 0 jumpFcontext t = some (t', s.regs .rdx) ∧ t'.regs .rdi = t.regs .rdx ∧
      (t'.regs .rsp).toNat = (s.regs .rdi).toNat / 16 * 16 - 8 ∧ t'.top = finish ∧
      (t.regs .rcx = 0 → t'.fpu = t.fpu) ∧ (t.regs .rcx ≠ 0 → t'.fpu = s.fpu) ∧
      ∀ u exit next, u.top = finish →
        ∃ v w, exec 0 [.ret] u = some (v, finish) ∧
          exec 0 (finishListing exit next) v = some (w, exit) ∧ w.regs .rdi = 0 := by
  rw [exec_makeFcontext_returns finish hmake] at hs
  obtain ⟨rfl, rfl⟩ := Prod.mk.inj (Option.some.inj hs)
  rw [made_mem finish hmake] at hkept
  have hlow : slice t.mem ((stackTop s).toNat - 72) 64 =
      slice (newFrame finish s ((stackTop s).toNat - 72)) ((stackTop s).toNat - 72) 64 := by
    simpa using slice_part hkept (k := 0) (n := 64) (by omega)
  have hrip : (frameAt t.mem ((stackTop s).toNat - 72)).rip = s.regs .rdx := by
    rw [frameAt_congr hlow]
    exact newFrame_entry finish _
  obtain ⟨hexec, hstands⟩ := exec_jumpFcontext_frame hto (by omega)
  have hfpu := jumped_fpu hto (by omega)
  rw [fpuAt_congr hlow, newFrame_fpu] at hfpu
  have hrsp : ((jumped t).regs .rsp).toNat = (stackTop s).toNat - 72 + 64 := by
    have hsp : (jumped t).regs .rsp = UInt64.ofNat ((stackTop s).toNat - 72 + 64) :=
      congrArg Continuation.rsp hstands
    rw [hsp, UInt64.toNat_ofNat_of_lt' hto.fits]
  have hroom := hmake.room
  rw [hrip] at hexec
  refine ⟨rfl, ?_, jumped t, hexec, (jumped_value t).2, ?_, ?_, fun h => ?_, fun h => ?_,
    fun u exit next htop => ?_⟩
  · rw [made_rax, toNat_newFcontext hmake]
  · rw [hrsp, ← toNat_stackTop]
    omega
  · have hword : slice (jumped t).mem ((stackTop s).toNat - 72 + 64) 8 =
        slice (newFrame finish s ((stackTop s).toNat - 72)) ((stackTop s).toNat - 72 + 64) 8 := by
      rw [jumpFcontext_footprint hto.toCanSuspend
        (hto.frame.symm.within (by omega) (by omega)).symm (hto.kept.symm.within (by omega) (by omega)).symm]
      exact slice_part hkept (k := 64) (n := 8) (by omega)
    rw [State.top, hrsp, wordAt_congr hword, newFrame_finish]
  · rw [hfpu, if_pos h]
  · rw [hfpu, if_neg h]
  · obtain ⟨w, hw, hrdi⟩ := exec_finish exit next (u.set .rsp (u.regs .rsp + 8))
    exact ⟨_, w, by rw [exec_ret, htop], hw, hrdi⟩

end

/-- A call of `make_fcontext` for the stack that ends at `0x3008`, with its function at `0x400`. -/
def maker : State where
  regs | .rsp => 0x1000 | .rdi => 0x3008 | .rdx => 0x400 | _ => 0
  zf := false
  mxcsr := 0x1f80
  fcw := 0x37f
  mem := fun _ => 0

/-- A thread about to enter the new context. -/
def enterer (m : Nat → UInt8) : State where
  regs | .rsp => 0x2000 | .rdi => 0x108 | .rsi => 0x2fb8 | .rdx => 7 | _ => 0
  zf := false
  mxcsr := 0x1f80
  fcw := 0x37f
  mem := m

theorem makeFcontext_enters_maker : ∃ t',
    exec 0 jumpFcontext (enterer (made 0x500 maker).mem) = some (t', 0x400) ∧ t'.regs .rdi = 7 ∧
      (t'.regs .rsp).toNat = 0x3000 - 8 ∧ t'.top = 0x500 := by
  have hmake : CanMake maker := ⟨by decide, by decide⟩
  obtain ⟨-, -, t', hexec, hrdi, hrsp, htop, -⟩ :=
    makeFcontext_enters 0x500 (t := enterer (made 0x500 maker).mem)
      (exec_makeFcontext_returns 0x500 hmake) hmake
      ⟨⟨by decide, by decide⟩, by decide, by decide, by decide, by decide⟩ rfl
  exact ⟨t', hexec, hrdi, hrsp, htop⟩

end SmartRoutine
