import SmartRoutine.CoroContexts
import SmartRoutine.TransferBranches

/-!
# The stack of a coroutine

The constructor of `SmartCoro` rounds the flag `stack_size` up to whole pages, in 32 bits and with
the result in an `int`, gets that many bytes from `malloc` and hands their end to `make_fcontext`.

* `stackSize_eq` — the size in pages, and where the arithmetic goes wrong.
* `smartCoro_obeys_iff` — the constructor calls `make_fcontext` the way switching needs it
  **exactly** when the flag, cut to 32 bits, is at most `2 ^ 31` less a page, and `malloc` succeeds.
-/

set_option autoImplicit false

namespace SmartRoutine

open X86

/-- `stack_size` in the constructor, for the flag of that name. -/
def stackSize (pageSize flag : Nat) : Int :=
  let pageSizeM1 := pageSize - 1
  let minStackSize := pageSize * 2 % 2 ^ 32
  toInt ((max (flag % 2 ^ 32) minStackSize + pageSizeM1) % 2 ^ 32 &&& (2 ^ 32 - 1 - pageSizeM1) : Nat)

/-- An `int` converted to `size_t`. -/
def toSizeT (x : Int) : Nat := (x % 2 ^ 64).toNat

/-- `context_` of a coroutine. -/
structure CoroContext where
  sp : UInt64
  stackSize : Int

/-- The constructor up to the call of `make_fcontext`; a null pointer from `malloc` is only
logged. -/
def smartCoro (malloc : Nat → Option UInt64) (pageSize flag : Nat) : CoroContext :=
  let stackSize := stackSize pageSize flag
  ⟨(malloc (toSizeT stackSize)).getD 0, stackSize⟩

/-- `bp`, the first argument of `make_fcontext`. -/
def CoroContext.bp (context : CoroContext) : UInt64 := context.sp + UInt64.ofNat (toSizeT context.stackSize)

/-- The bytes that belong to the coroutine's stack. -/
def CoroContext.owned (malloc : Nat → Option UInt64) (context : CoroContext) : Nat :=
  if (malloc (toSizeT context.stackSize)).isSome then toSizeT context.stackSize else 0

/-! ## The size -/

section

variable {k flag : Nat}

/-- The mask `~PAGESIZE_M1` rounds down to a page. -/
theorem stackSize_mask (hk : k ≤ 29) : stackSize (2 ^ k) flag =
    toInt (((max (flag % 2 ^ 32) (2 ^ k * 2) + (2 ^ k - 1)) % 2 ^ 32 / 2 ^ k * 2 ^ k : Nat) : Int) := by
  have hpos : 0 < 2 ^ k := Nat.two_pow_pos k
  have hle : 2 ^ k ≤ 2 ^ 29 := Nat.pow_le_pow_right (by decide) hk
  have hmask : 2 ^ 32 - 1 - (2 ^ k - 1) = 2 ^ 32 - 2 ^ k := by omega
  unfold stackSize
  dsimp only
  rw [hmask, land_mask (Nat.mod_lt _ (by decide)) (by omega), Nat.mod_eq_of_lt (a := 2 ^ k * 2) (by omega)]

/-- What is at least `2 ^ 31` stays so when it is rounded down to a page. -/
theorem pages_le {x : Nat} (hk : k ≤ 29) (hx : 2 ^ 31 ≤ x) : 2 ^ 31 ≤ x / 2 ^ k * 2 ^ k := by
  have hpages : 2 ^ 31 = 2 ^ (31 - k) * 2 ^ k := by
    rw [← Nat.pow_add]
    congr 1
    omega
  rw [hpages] at hx ⊢
  exact Nat.mul_le_mul_right _ ((Nat.le_div_iff_mul_le (Nat.two_pow_pos k)).2 hx)

/-- **The flag is rounded up to whole pages**, two at least, unless it comes close to `2 ^ 31`; from
there on the `int` is negative, and in the last page below `2 ^ 32` it is 0. -/
theorem stackSize_eq (hk : k ≤ 29) : stackSize (2 ^ k) flag =
    if flag % 2 ^ 32 ≤ 2 ^ 31 - 2 ^ k then
      (((max (flag % 2 ^ 32) (2 ^ k * 2) + (2 ^ k - 1)) / 2 ^ k * 2 ^ k : Nat) : Int)
    else if flag % 2 ^ 32 ≤ 2 ^ 32 - 2 ^ k then
      (((flag % 2 ^ 32 + (2 ^ k - 1)) / 2 ^ k * 2 ^ k : Nat) : Int) - 2 ^ 32
    else 0 := by
  have hpos : 0 < 2 ^ k := Nat.two_pow_pos k
  have hle : 2 ^ k ≤ 2 ^ 29 := Nat.pow_le_pow_right (by decide) hk
  have hflag : flag % 2 ^ 32 < 2 ^ 32 := Nat.mod_lt _ (by decide)
  rw [stackSize_mask hk]
  generalize flag % 2 ^ 32 = u at hflag ⊢
  split
  · -- at most `2 ^ 31 - 1` before the rounding
    have hx : max u (2 ^ k * 2) + (2 ^ k - 1) < 2 ^ 31 := by omega
    have hy := Nat.div_mul_le_self (max u (2 ^ k * 2) + (2 ^ k - 1)) (2 ^ k)
    rw [Nat.mod_eq_of_lt (by omega)]
    exact toInt_of_lt (by omega) (by omega)
  · have hmax : max u (2 ^ k * 2) = u := by omega
    rw [hmax]
    split
    · have hy := Nat.div_mul_le_self (u + (2 ^ k - 1)) (2 ^ k)
      have hlow := pages_le hk (show 2 ^ 31 ≤ u + (2 ^ k - 1) by omega)
      rw [Nat.mod_eq_of_lt (by omega)]
      generalize (u + (2 ^ k - 1)) / 2 ^ k * 2 ^ k = y at hy hlow ⊢
      unfold toInt
      rw [Int.bmod_def]
      omega
    · -- the sum wraps to less than a page
      have hwrap : (u + (2 ^ k - 1)) % 2 ^ 32 = u + (2 ^ k - 1) - 2 ^ 32 := by omega
      rw [hwrap, Nat.div_eq_of_lt (by omega), Nat.zero_mul]
      exact toInt_of_lt (by decide) (by decide)

/-- The least whole number of pages that holds the flag and two pages. -/
theorem stackSize_pages (hk : k ≤ 29) (hflag : flag % 2 ^ 32 ≤ 2 ^ 31 - 2 ^ k) :
    ∃ n, stackSize (2 ^ k) flag = (n : Nat) ∧ 2 ^ k ∣ n ∧ max (flag % 2 ^ 32) (2 ^ k * 2) ≤ n ∧
      n < max (flag % 2 ^ 32) (2 ^ k * 2) + 2 ^ k ∧ n < 2 ^ 31 := by
  have hpos : 0 < 2 ^ k := Nat.two_pow_pos k
  have hle : 2 ^ k ≤ 2 ^ 29 := Nat.pow_le_pow_right (by decide) hk
  rw [stackSize_eq hk, if_pos hflag]
  have hdown := Nat.div_mul_le_self (max (flag % 2 ^ 32) (2 ^ k * 2) + (2 ^ k - 1)) (2 ^ k)
  have hup := Nat.lt_div_mul_add (a := max (flag % 2 ^ 32) (2 ^ k * 2) + (2 ^ k - 1)) hpos
  exact ⟨_, rfl, Nat.dvd_mul_left .., by omega, by omega, by omega⟩

/-- Room for the first frame. -/
theorem stackSize_room (hk : 6 ≤ k ∧ k ≤ 29) (hflag : flag % 2 ^ 32 ≤ 2 ^ 31 - 2 ^ k) :
    88 ≤ toSizeT (stackSize (2 ^ k) flag) := by
  have hpage : 2 ^ 6 ≤ 2 ^ k := Nat.pow_le_pow_right (by decide) hk.1
  obtain ⟨n, hn, -, hlow, -, hlt⟩ := stackSize_pages hk.2 hflag
  rw [hn]
  unfold toSizeT
  omega

/-- Otherwise `malloc` is asked for nothing, or for more than there is. -/
theorem stackSize_wrong (hk : k ≤ 29) (hflag : ¬ flag % 2 ^ 32 ≤ 2 ^ 31 - 2 ^ k) :
    toSizeT (stackSize (2 ^ k) flag) = 0 ∨ 2 ^ 63 ≤ toSizeT (stackSize (2 ^ k) flag) := by
  have hpos : 0 < 2 ^ k := Nat.two_pow_pos k
  have hle : 2 ^ k ≤ 2 ^ 29 := Nat.pow_le_pow_right (by decide) hk
  rw [stackSize_eq hk, if_neg hflag]
  split
  · have hdown := Nat.div_mul_le_self (flag % 2 ^ 32 + (2 ^ k - 1)) (2 ^ k)
    have hlow := pages_le hk (show 2 ^ 31 ≤ flag % 2 ^ 32 + (2 ^ k - 1) by omega)
    generalize (flag % 2 ^ 32 + (2 ^ k - 1)) / 2 ^ k * 2 ^ k = y at hdown hlow ⊢
    right
    unfold toSizeT
    omega
  · exact .inl rfl

/-- The `int` is no size then. -/
theorem stackSize_nonpos (hk : k ≤ 29) (hflag : ¬ flag % 2 ^ 32 ≤ 2 ^ 31 - 2 ^ k) :
    stackSize (2 ^ k) flag ≤ 0 := by
  rw [stackSize_eq hk, if_neg hflag]
  split
  · have hdown := Nat.div_mul_le_self (flag % 2 ^ 32 + (2 ^ k - 1)) (2 ^ k)
    omega
  · exact Int.le_refl 0

end

/-! ## The call of `make_fcontext` -/

/-- `malloc` returns a block inside the address space, and none of more than half of it. -/
def MallocOk (malloc : Nat → Option UInt64) : Prop :=
  ∀ n a, malloc n = some a → n < 2 ^ 63 ∧ a.toNat + n < 2 ^ 64

section

variable {τ ι : Type} {L : Layout ι} {m : Machine τ ι} {t : τ} {c : ι}

/-- **The constructor meets what switching asks of it exactly when the flag, cut to 32 bits, is at
most `2 ^ 31` less a page and `malloc` succeeds**: then the stack that `make_fcontext` is given ends
where the block does, and has room for the first frame.  For any other flag the `int` is negative or
0. -/
theorem smartCoro_obeys_iff {malloc : Nat → Option UInt64} (hmalloc : MallocOk malloc) {k : Nat}
    (hk : 6 ≤ k ∧ k ≤ 29) (flag : Nat) (hbase : L.base c = (smartCoro malloc (2 ^ k) flag).sp.toNat)
    (hsize : L.size c = (smartCoro malloc (2 ^ k) flag).owned malloc)
    (hrdi : (m.view t).regs .rdi = (smartCoro malloc (2 ^ k) flag).bp) (hstack : OnStack L m t 0)
    (hplaced : Placed L fun d => m.live d ∨ d = c) :
    (Obeys L m (.make t c) ↔
      flag % 2 ^ 32 ≤ 2 ^ 31 - 2 ^ k ∧ (malloc (toSizeT (stackSize (2 ^ k) flag))).isSome = true) ∧
      (¬ flag % 2 ^ 32 ≤ 2 ^ 31 - 2 ^ k → stackSize (2 ^ k) flag ≤ 0) := by
  refine ⟨?_, stackSize_nonpos hk.2⟩
  rw [Obeys, hrdi, hsize, hbase, CoroContext.owned, CoroContext.bp, smartCoro]
  dsimp only
  constructor
  · rintro ⟨-, -, hroom, -⟩
    cases hm : malloc (toSizeT (stackSize (2 ^ k) flag)) with
    | none => simp [hm] at hroom
    | some a =>
      refine ⟨?_, rfl⟩
      rw [hm, if_pos Option.isSome_some] at hroom
      by_contra hflag
      have := (hmalloc _ _ hm).1
      rcases stackSize_wrong hk.2 hflag with hzero | hhuge <;> omega
  · rintro ⟨hflag, hm⟩
    have hroom := stackSize_room hk hflag
    cases ha : malloc (toSizeT (stackSize (2 ^ k) flag)) with
    | none => simp [ha] at hm
    | some a =>
      have hfits := (hmalloc _ _ ha).2
      have hend : (a + UInt64.ofNat (toSizeT (stackSize (2 ^ k) flag))).toNat =
          a.toNat + toSizeT (stackSize (2 ^ k) flag) := by
        rw [UInt64.toNat_add, UInt64.toNat_ofNat_of_lt' (Nat.lt_of_le_of_lt (Nat.le_add_left _ _) hfits),
          Nat.mod_eq_of_lt hfits]
      rw [if_pos Option.isSome_some, Option.getD_some, hend]
      exact ⟨hstack, rfl, hroom, hplaced⟩

/-- Two pages of 2048 bytes for the first coroutine of `worker`. -/
def twoPages (n : Nat) : Option UInt64 := if n = 0x1000 then some 0x3000 else none

theorem smartCoro_obeys_iff_worker : (Obeys workerLayout worker (.make () (.user 0)) ↔
    0 % 2 ^ 32 ≤ 2 ^ 31 - 2 ^ 11 ∧ (twoPages (toSizeT (stackSize (2 ^ 11) 0))).isSome = true) ∧
    (¬ 0 % 2 ^ 32 ≤ 2 ^ 31 - 2 ^ 11 → stackSize (2 ^ 11) 0 ≤ 0) := by
  have hsize : toSizeT (stackSize (2 ^ 11) 0) = 0x1000 := by
    rw [stackSize_eq (by decide)]
    decide
  have hcoro : smartCoro twoPages (2 ^ 11) 0 = ⟨0x3000, stackSize (2 ^ 11) 0⟩ := by
    rw [smartCoro, hsize]
    rfl
  have hmalloc : MallocOk twoPages := by
    intro n a h
    unfold twoPages at h
    split at h
    · obtain rfl := Option.some.inj h
      subst n
      decide
    · cases h
  refine smartCoro_obeys_iff hmalloc (by decide) 0 ?_ ?_ ?_ (by unfold OnStack; decide)
    worker_obeys.2.2.2
  · rw [hcoro]
    rfl
  · rw [hcoro, CoroContext.owned, hsize]
    rfl
  · rw [hcoro, CoroContext.bp, hsize]
    rfl

end

end SmartRoutine
