import Mathlib.Data.Nat.Bitwise
import SmartRoutine.Lib.Bytes

/-!
# A fragment of x86-64

Enough of the instruction set for straight-line listings with forward jumps: the stack, moves
between registers and memory, and the two control words of the floating-point units.  A listing runs
until it leaves by a jump, a call or a return.

Registers hold 64 bits and wrap; an access to memory does not wrap around the end of the address
space.

* `exec` — runs a listing.
* `exec_push`, `exec_pop` — a block of pushes, a block of pops.
* `words_pushAll`, `map_popAll` — what a block of pushes leaves in memory, and what a block of pops
  takes from it.
* `slice_pushAll_apart`, `regs_popAll` — what they leave alone.
* `toNat_and_mask` — an address rounded down to a power of two.
-/

set_option autoImplicit false

namespace X86

open Memory

/-- The general-purpose registers. -/
inductive Reg where
  | rax | rbx | rcx | rdx | rsi | rdi | rsp | rbp
  | r8 | r9 | r10 | r11 | r12 | r13 | r14 | r15
  deriving DecidableEq, Repr

structure State where
  regs : Reg → UInt64
  zf : Bool
  mxcsr : UInt32
  fcw : UInt16
  mem : Nat → UInt8

/-- A quadword in memory. -/
def wordAt (m : Nat → UInt8) (a : Nat) : UInt64 := UInt64.ofNat (load m a 8)

def putWord (m : Nat → UInt8) (a : Nat) (v : UInt64) : Nat → UInt8 := put m a 8 v.toNat

/-- The `n` quadwords from `a` on. -/
def words (m : Nat → UInt8) : Nat → Nat → List UInt64
  | _, 0 => []
  | a, n + 1 => wordAt m a :: words m (a + 8) n

namespace State

/-- The control words of the floating-point units. -/
def fpu (s : State) : UInt32 × UInt16 := (s.mxcsr, s.fcw)

def set (s : State) (r : Reg) (v : UInt64) : State := { s with regs := Function.update s.regs r v }

/-- `dst = base + disp`. -/
def lea (s : State) (disp : UInt64) (base dst : Reg) : State := s.set dst (s.regs base + disp)

/-- `and imm, r`, which also sets the flag. -/
def land (s : State) (imm : UInt64) (r : Reg) : State :=
  { s.set r (s.regs r &&& imm) with zf := (s.regs r &&& imm) = 0 }

def xor (s : State) (src dst : Reg) : State :=
  { s.set dst (s.regs dst ^^^ s.regs src) with zf := (s.regs dst ^^^ s.regs src) = 0 }

/-- `disp(base)`. -/
def addr (s : State) (disp : UInt64) (base : Reg) : Nat := (s.regs base + disp).toNat

def store (s : State) (a : Nat) (v : UInt64) : State := { s with mem := putWord s.mem a v }

def push (s : State) (v : UInt64) : State :=
  (s.set .rsp (s.regs .rsp - 8)).store (s.regs .rsp - 8).toNat v

/-- The quadword on top of the stack. -/
def top (s : State) : UInt64 := wordAt s.mem (s.regs .rsp).toNat

/-- The stack pointer moves first, so that `pop %rsp` is what the manual says. -/
def pop (s : State) (r : Reg) : State := (s.set .rsp (s.regs .rsp + 8)).set r s.top

def pushAll (s : State) (rs : List Reg) : State := rs.foldl (fun s r => s.push (s.regs r)) s

def popAll (s : State) (rs : List Reg) : State := rs.foldl pop s

end State

inductive Instr where
  | push (r : Reg)
  | pop (r : Reg)
  | lea (disp : UInt64) (base dst : Reg)
  /-- `leaq symbol(%rip), dst`. -/
  | leaSymbol (symbol : UInt64) (dst : Reg)
  | mov (src dst : Reg)
  /-- `movq src, disp(base)`. -/
  | movTo (src : Reg) (disp : UInt64) (base : Reg)
  | cmp (imm : UInt64) (r : Reg)
  /-- A jump forward, over `skip` instructions. -/
  | je (skip : Nat)
  | and (imm : UInt64) (r : Reg)
  | xor (src dst : Reg)
  | stmxcsr (disp : UInt64) (base : Reg)
  | fnstcw (disp : UInt64) (base : Reg)
  | ldmxcsr (disp : UInt64) (base : Reg)
  | fldcw (disp : UInt64) (base : Reg)
  | jmp (r : Reg)
  | ret
  /-- A call of `symbol` that is to return to `next`. -/
  | call (symbol next : UInt64)
  | hlt
  deriving Repr

/-- Where control goes after an instruction. -/
inductive Flow where
  | next (s : State)
  | skip (n : Nat) (s : State)
  | leave (s : State) (target : UInt64)
  | stop

def Instr.step (s : State) : Instr → Flow
  | push r => .next (s.push (s.regs r))
  | pop r => .next (s.pop r)
  | lea disp base dst => .next (s.lea disp base dst)
  | leaSymbol symbol dst => .next (s.set dst symbol)
  | mov src dst => .next (s.set dst (s.regs src))
  | movTo src disp base => .next (s.store (s.addr disp base) (s.regs src))
  | cmp imm r => .next { s with zf := s.regs r = imm }
  | je n => if s.zf then .skip n s else .next s
  | and imm r => .next (s.land imm r)
  | xor src dst => .next (s.xor src dst)
  | stmxcsr disp base => .next { s with mem := put s.mem (s.addr disp base) 4 s.mxcsr.toNat }
  | fnstcw disp base => .next { s with mem := put s.mem (s.addr disp base) 2 s.fcw.toNat }
  | ldmxcsr disp base => .next { s with mxcsr := UInt32.ofNat (load s.mem (s.addr disp base) 4) }
  | fldcw disp base => .next { s with fcw := UInt16.ofNat (load s.mem (s.addr disp base) 2) }
  | jmp r => .leave s (s.regs r)
  | ret => .leave (s.set .rsp (s.regs .rsp + 8)) s.top
  | call symbol next => .leave (s.push next) symbol
  | hlt => .stop

/-- Run a listing, after skipping so many instructions, until it leaves; `none` where it halts or
runs past its end. -/
def exec : Nat → List Instr → State → Option (State × UInt64)
  | _, [], _ => none
  | n + 1, _ :: is, s => exec n is s
  | 0, i :: is, s =>
    match i.step s with
    | .next s' => exec 0 is s'
    | .skip n s' => exec n is s'
    | .leave s' a => some (s', a)
    | .stop => none

/-! ## Quadwords -/

section

variable (m : Nat → UInt8) {a b : Nat} {v : UInt64}

@[simp] theorem length_words (a n : Nat) : (words m a n).length = n := by
  induction n generalizing a with
  | zero => rfl
  | succ n ih => rw [words, List.length_cons, ih]

theorem words_append (a n k : Nat) : words m a (n + k) = words m a n ++ words m (a + 8 * n) k := by
  induction n generalizing a with
  | zero => rw [Nat.zero_add]; rfl
  | succ n ih =>
    have hoff : a + 8 * (n + 1) = a + 8 + 8 * n := by omega
    rw [Nat.succ_add, words, ih, words, List.cons_append, hoff]

theorem wordAt_congr {m m' : Nat → UInt8} (h : slice m' b 8 = slice m a 8) :
    wordAt m' b = wordAt m a := by
  rw [wordAt, load, h]
  rfl

/-- A range of bytes determines its quadwords. -/
theorem words_congr {m m' : Nat → UInt8} {n : Nat} (h : slice m' b (8 * n) = slice m a (8 * n)) :
    words m' b n = words m a n := by
  induction n generalizing a b with
  | zero => rfl
  | succ n ih =>
    have hhead : slice m' b 8 = slice m a 8 := by
      simpa using slice_part h (k := 0) (n := 8) (by omega)
    rw [words, words, wordAt_congr hhead, ih (slice_part h (k := 8) (n := 8 * n) (by omega))]

theorem wordAt_putWord : wordAt (putWord m a v) a = v := by
  have hv : v.toNat < 256 ^ 8 := v.toNat_lt
  rw [wordAt, putWord, load_put m hv, UInt64.ofNat_toNat]

theorem slice_putWord_apart {o len : Nat} (h : Apart o len a 8) :
    slice (putWord m a v) o len = slice m o len :=
  slice_put_apart m h

theorem wordAt_putWord_apart (h : Apart b 8 a 8) : wordAt (putWord m a v) b = wordAt m b :=
  wordAt_congr (slice_putWord_apart m h)

end

/-! ## Registers -/

namespace State

section

variable (s : State) (r : Reg) (v : UInt64)

@[simp] theorem set_regs_self : (s.set r v).regs r = v := Function.update_self ..

theorem set_regs_of_ne {r' : Reg} (h : r' ≠ r) : (s.set r v).regs r' = s.regs r' :=
  Function.update_of_ne h ..

@[simp] theorem set_mem : (s.set r v).mem = s.mem := rfl

@[simp] theorem set_fpu : (s.set r v).fpu = s.fpu := rfl

@[simp] theorem lea_regs_self (disp : UInt64) (base : Reg) :
    (s.lea disp base r).regs r = s.regs base + disp := set_regs_self ..

theorem lea_regs_of_ne (disp : UInt64) (base : Reg) {r' : Reg} (h : r' ≠ r) :
    (s.lea disp base r).regs r' = s.regs r' := set_regs_of_ne _ _ _ h

@[simp] theorem lea_mem (disp : UInt64) (base : Reg) : (s.lea disp base r).mem = s.mem := rfl

@[simp] theorem land_regs_self (imm : UInt64) : (s.land imm r).regs r = s.regs r &&& imm :=
  set_regs_self ..

theorem land_regs_of_ne (imm : UInt64) {r' : Reg} (h : r' ≠ r) :
    (s.land imm r).regs r' = s.regs r' := set_regs_of_ne _ _ _ h

@[simp] theorem land_mem (imm : UInt64) : (s.land imm r).mem = s.mem := rfl

@[simp] theorem land_fpu (imm : UInt64) : (s.land imm r).fpu = s.fpu := rfl

@[simp] theorem xor_regs_self (src : Reg) : (s.xor src r).regs r = s.regs r ^^^ s.regs src :=
  set_regs_self ..

@[simp] theorem lea_fpu (disp : UInt64) (base : Reg) : (s.lea disp base r).fpu = s.fpu := rfl

@[simp] theorem store_fpu (a : Nat) : (s.store a v).fpu = s.fpu := rfl

@[simp] theorem store_regs (a : Nat) : (s.store a v).regs = s.regs := rfl

@[simp] theorem store_mem (a : Nat) : (s.store a v).mem = putWord s.mem a v := rfl

@[simp] theorem push_rsp : (s.push v).regs .rsp = s.regs .rsp - 8 := by
  rw [push, store_regs, set_regs_self]

theorem push_regs (h : r ≠ .rsp) : (s.push v).regs r = s.regs r := set_regs_of_ne _ _ _ h

theorem push_mem : (s.push v).mem = putWord s.mem (s.regs .rsp - 8).toNat v := rfl

@[simp] theorem pop_mem : (s.pop r).mem = s.mem := rfl

theorem pop_rsp (h : r ≠ .rsp) : (s.pop r).regs .rsp = s.regs .rsp + 8 := by
  rw [pop, set_regs_of_ne _ _ _ h.symm, set_regs_self]

@[simp] theorem pop_regs_self : (s.pop r).regs r = s.top := set_regs_self ..

theorem pop_regs {r' : Reg} (h : r' ≠ r) (hsp : r' ≠ .rsp) : (s.pop r).regs r' = s.regs r' := by
  rw [pop, set_regs_of_ne _ _ _ h, set_regs_of_ne _ _ _ hsp]

end

end State

/-- Down the stack. -/
theorem toNat_sub {a b : UInt64} (h : b.toNat ≤ a.toNat) : (a - b).toNat = a.toNat - b.toNat :=
  UInt64.toNat_sub_of_le a b (UInt64.le_iff_toNat_le.2 h)

/-- Up the stack. -/
theorem toNat_add {a b : UInt64} (h : a.toNat + b.toNat < 2 ^ 64) :
    (a + b).toNat = a.toNat + b.toNat := by
  rw [UInt64.toNat_add, Nat.mod_eq_of_lt h]

/-! ## Single instructions -/

section

variable (is : List Instr) (s : State)

@[simp] theorem exec_lea (disp : UInt64) (base dst : Reg) :
    exec 0 (.lea disp base dst :: is) s = exec 0 is (s.lea disp base dst) := rfl

@[simp] theorem exec_leaSymbol (symbol : UInt64) (dst : Reg) :
    exec 0 (.leaSymbol symbol dst :: is) s = exec 0 is (s.set dst symbol) := rfl

@[simp] theorem exec_mov (src dst : Reg) :
    exec 0 (.mov src dst :: is) s = exec 0 is (s.set dst (s.regs src)) := rfl

@[simp] theorem exec_and (imm : UInt64) (r : Reg) :
    exec 0 (.and imm r :: is) s = exec 0 is (s.land imm r) := rfl

@[simp] theorem exec_movTo (src : Reg) (disp : UInt64) (base : Reg) :
    exec 0 (.movTo src disp base :: is) s = exec 0 is (s.store (s.addr disp base) (s.regs src)) := rfl

@[simp] theorem exec_jmp (r : Reg) : exec 0 (.jmp r :: is) s = some (s, s.regs r) := rfl

@[simp] theorem exec_ret :
    exec 0 (.ret :: is) s = some (s.set .rsp (s.regs .rsp + 8), s.top) := rfl

end

/-! ## Blocks of pushes and pops -/

theorem exec_push (l : List Reg) (is : List Instr) (s : State) :
    exec 0 (l.map .push ++ is) s = exec 0 is (s.pushAll l) := by
  induction l generalizing s with
  | nil => rfl
  | cons r l ih => exact ih (s.push (s.regs r))

theorem exec_pop (l : List Reg) (is : List Instr) (s : State) :
    exec 0 (l.map .pop ++ is) s = exec 0 is (s.popAll l) := by
  induction l generalizing s with
  | nil => rfl
  | cons r l ih => exact ih (s.pop r)

namespace State

section

variable {s : State} {l : List Reg}

theorem regs_pushAll {r : Reg} (h : r ≠ .rsp) : (s.pushAll l).regs r = s.regs r := by
  induction l generalizing s with
  | nil => rfl
  | cons x l ih =>
    have htail : ((s.push (s.regs x)).pushAll l).regs r = (s.push (s.regs x)).regs r := ih
    exact htail.trans (push_regs s r _ h)

theorem rsp_pushAll (h : 8 * l.length ≤ (s.regs .rsp).toNat) :
    ((s.pushAll l).regs .rsp).toNat = (s.regs .rsp).toNat - 8 * l.length := by
  induction l generalizing s with
  | nil => rfl
  | cons x l ih =>
    rw [List.length_cons] at h
    have hsub : (s.regs .rsp - 8).toNat = (s.regs .rsp).toNat - 8 :=
      toNat_sub (show 8 ≤ _ by omega)
    have htail : ((s.push (s.regs x)).pushAll l).regs .rsp = (s.pushAll (x :: l)).regs .rsp := rfl
    rw [← htail, ih (by rw [push_rsp, hsub]; omega), push_rsp, hsub, List.length_cons]
    omega

/-- **A block of pushes** writes only what it makes room for. -/
theorem slice_pushAll_apart (h : 8 * l.length ≤ (s.regs .rsp).toNat) {o len : Nat}
    (ho : Apart o len ((s.regs .rsp).toNat - 8 * l.length) (8 * l.length)) :
    slice (s.pushAll l).mem o len = slice s.mem o len := by
  induction l generalizing s with
  | nil => rfl
  | cons x l ih =>
    rw [List.length_cons] at h ho
    have hsub : (s.regs .rsp - 8).toNat = (s.regs .rsp).toNat - 8 :=
      toNat_sub (show 8 ≤ _ by omega)
    have htail : slice ((s.push (s.regs x)).pushAll l).mem o len =
        slice (s.push (s.regs x)).mem o len := by
      refine ih ?_ ?_
      · rw [push_rsp, hsub]
        omega
      · rw [push_rsp, hsub]
        rcases ho with ho | ho
        · exact Or.inl (by omega)
        · exact Or.inr (by omega)
    have hhead : slice (s.push (s.regs x)).mem o len = slice s.mem o len := by
      rw [push_mem, hsub]
      refine slice_putWord_apart s.mem ?_
      rcases ho with ho | ho
      · exact Or.inl (by omega)
      · exact Or.inr (by omega)
    exact htail.trans hhead

/-- **A block of pushes** leaves the registers in memory, the last one lowest. -/
theorem words_pushAll (h : 8 * l.length ≤ (s.regs .rsp).toNat) (hsp : Reg.rsp ∉ l) :
    words (s.pushAll l).mem ((s.regs .rsp).toNat - 8 * l.length) l.length =
      (l.map s.regs).reverse := by
  induction l generalizing s with
  | nil => rfl
  | cons x l ih =>
    rw [List.length_cons] at h
    have hsub : (s.regs .rsp - 8).toNat = (s.regs .rsp).toNat - 8 :=
      toNat_sub (show 8 ≤ _ by omega)
    have hroom : 8 * l.length ≤ ((s.push (s.regs x)).regs .rsp).toNat := by
      rw [push_rsp, hsub]
      omega
    have hlow : (s.regs .rsp).toNat - 8 * (l.length + 1) =
        ((s.push (s.regs x)).regs .rsp).toNat - 8 * l.length := by
      rw [push_rsp, hsub]
      omega
    have hhigh : (s.regs .rsp).toNat - 8 * (l.length + 1) + 8 * l.length =
        (s.regs .rsp).toNat - 8 := by omega
    have hregs : l.map (s.push (s.regs x)).regs = l.map s.regs :=
      List.map_congr_left fun r hr => push_regs s r _ fun he =>
        hsp (List.mem_cons_of_mem _ (he ▸ hr))
    have htail := ih hroom (fun hr => hsp (List.mem_cons_of_mem _ hr))
    have hword : wordAt ((s.push (s.regs x)).pushAll l).mem ((s.regs .rsp).toNat - 8) = s.regs x := by
      have happart : slice ((s.push (s.regs x)).pushAll l).mem ((s.regs .rsp).toNat - 8) 8 =
          slice (s.push (s.regs x)).mem ((s.regs .rsp).toNat - 8) 8 := by
        refine slice_pushAll_apart hroom (Or.inr ?_)
        rw [push_rsp, hsub]
        omega
      rw [wordAt_congr happart, push_mem, hsub, wordAt_putWord]
    have hall : s.pushAll (x :: l) = (s.push (s.regs x)).pushAll l := rfl
    rw [List.length_cons, hall, words_append, hhigh, hlow, htail, hregs, List.map_cons,
      List.reverse_cons]
    exact congrArg _ (congrArg (· :: []) hword)

@[simp] theorem mem_popAll : (s.popAll l).mem = s.mem := by
  induction l generalizing s with
  | nil => rfl
  | cons x l ih => exact ih (s := s.pop x)

@[simp] theorem fpu_pushAll : (s.pushAll l).fpu = s.fpu := by
  induction l generalizing s with
  | nil => rfl
  | cons x l ih => exact ih (s := s.push (s.regs x))

@[simp] theorem fpu_popAll : (s.popAll l).fpu = s.fpu := by
  induction l generalizing s with
  | nil => rfl
  | cons x l ih => exact ih (s := s.pop x)

theorem regs_popAll {r : Reg} (hr : r ∉ l) (hsp : r ≠ .rsp) :
    (s.popAll l).regs r = s.regs r := by
  induction l generalizing s with
  | nil => rfl
  | cons x l ih =>
    have htail : ((s.pop x).popAll l).regs r = (s.pop x).regs r :=
      ih fun h => hr (List.mem_cons_of_mem _ h)
    have hx : r ≠ x := fun he => hr (he ▸ List.mem_cons_self)
    exact htail.trans (pop_regs s x hx hsp)

theorem rsp_popAll (hsp : Reg.rsp ∉ l) (h : (s.regs .rsp).toNat + 8 * l.length < 2 ^ 64) :
    ((s.popAll l).regs .rsp).toNat = (s.regs .rsp).toNat + 8 * l.length := by
  induction l generalizing s with
  | nil => rfl
  | cons x l ih =>
    rw [List.length_cons] at h
    have hx : x ≠ .rsp := fun he => hsp (he ▸ List.mem_cons_self)
    have hadd : (s.regs .rsp + 8).toNat = (s.regs .rsp).toNat + 8 := by
      refine toNat_add ?_
      show _ + 8 < _
      omega
    have htail := ih (s := s.pop x) (fun hr => hsp (List.mem_cons_of_mem _ hr))
      (by rw [pop_rsp s x hx, hadd]; omega)
    have hall : s.popAll (x :: l) = (s.pop x).popAll l := rfl
    rw [hall, htail, pop_rsp s x hx, hadd, List.length_cons]
    omega

/-- **A block of pops** fills the registers from memory, the lowest one first. -/
theorem map_popAll (hsp : Reg.rsp ∉ l) (hnodup : l.Nodup)
    (h : (s.regs .rsp).toNat + 8 * l.length < 2 ^ 64) :
    l.map (s.popAll l).regs = words s.mem (s.regs .rsp).toNat l.length := by
  induction l generalizing s with
  | nil => rfl
  | cons x l ih =>
    rw [List.length_cons] at h
    have hx : x ≠ .rsp := fun he => hsp (he ▸ List.mem_cons_self)
    have hadd : (s.regs .rsp + 8).toNat = (s.regs .rsp).toNat + 8 := by
      refine toNat_add ?_
      show _ + 8 < _
      omega
    have htail := ih (s := s.pop x) (fun hr => hsp (List.mem_cons_of_mem _ hr))
      (List.nodup_cons.1 hnodup).2 (by rw [pop_rsp s x hx, hadd]; omega)
    have hhead : ((s.pop x).popAll l).regs x = s.top := by
      rw [regs_popAll (List.nodup_cons.1 hnodup).1 hx, pop_regs_self]
    have hall : s.popAll (x :: l) = (s.pop x).popAll l := rfl
    rw [hall, List.map_cons, htail, hhead, pop_mem, pop_rsp s x hx, hadd, List.length_cons, words]
    rfl

end

end State

attribute [irreducible] State.pushAll State.popAll

/-! ## Alignment -/

/-- Clearing the lowest `k` bits. -/
theorem land_mask {x w k : Nat} (hx : x < 2 ^ w) (hk : k ≤ w) :
    x &&& (2 ^ w - 2 ^ k) = x / 2 ^ k * 2 ^ k := by
  refine Nat.eq_of_testBit_eq fun i => ?_
  have hpos : 2 ^ k - 1 + 1 = 2 ^ k := Nat.sub_add_cancel Nat.one_le_two_pow
  have hle : 2 ^ k ≤ 2 ^ w := Nat.pow_le_pow_right (by decide) hk
  have hlt : 2 ^ k - 1 < 2 ^ w := by omega
  have hmask : (2 ^ w - 2 ^ k).testBit i = (decide (i < w) && !decide (i < k)) := by
    have := Nat.testBit_two_pow_sub_succ hlt i
    rwa [hpos, Nat.testBit_two_pow_sub_one] at this
  rw [Nat.testBit_and, hmask, Nat.testBit_mul_two_pow, Nat.testBit_div_two_pow]
  by_cases hik : i < k
  · have : ¬ k ≤ i := by omega
    simp [hik, this]
  · have hki : k ≤ i := by omega
    rw [Nat.sub_add_cancel hki]
    by_cases hiw : i < w
    · simp [hik, hki, hiw]
    · have hbig : x < 2 ^ i := Nat.lt_of_lt_of_le hx (Nat.pow_le_pow_right (by decide) (by omega))
      simp [hiw, Nat.testBit_lt_two_pow hbig]

/-- An address rounded down. -/
theorem toNat_and_mask (a mask : UInt64) {k : Nat} (hk : k ≤ 64) (hmask : mask.toNat = 2 ^ 64 - 2 ^ k) :
    (a &&& mask).toNat = a.toNat / 2 ^ k * 2 ^ k := by
  rw [UInt64.toNat_and, hmask, land_mask a.toNat_lt hk]

end X86
