import SmartRoutine.Lib.Memory

/-!
# Footprints

A program over one block of memory reads ranges, writes ranges and copies ranges inside the block;
what it does next may depend on what it has read.  `reads` and `writes` are the ranges that it
touches when it is run.

* `run_bind`, `reads_bind`, `writes_bind` — a program and what follows it.
* `run_frame` — a cell that is not written keeps its value.
* `run_congr` — what a program does depends on the cells that it reads only.
-/

set_option autoImplicit false

namespace Memory

/-- The `len` cells from `off` on. -/
structure Range where
  off : Nat
  len : Nat
  deriving DecidableEq, Repr

namespace Range

def Has (r : Range) (i : Nat) : Prop := r.off ≤ i ∧ i < r.off + r.len

instance Has.decidable (r : Range) (i : Nat) : Decidable (r.Has i) :=
  inferInstanceAs (Decidable (_ ∧ _))

/-- The range ends before `n`. -/
def Below (r : Range) (n : Nat) : Prop := r.off + r.len ≤ n

instance Below.decidable (r : Range) (n : Nat) : Decidable (r.Below n) :=
  inferInstanceAs (Decidable (_ ≤ _))

end Range

/-- A program over a block of cells of type `α`, with a result of type `β`. -/
inductive Prog (α β : Type) where
  | done (result : β)
  | read (off len : Nat) (next : List α → Prog α β)
  | write (off : Nat) (xs : List α) (next : Prog α β)
  | copy (dst src n : Nat) (next : Prog α β)

namespace Prog

variable {α β γ : Type}

def bind : Prog α β → (β → Prog α γ) → Prog α γ
  | done b, f => f b
  | read off len next, f => read off len fun xs => (next xs).bind f
  | write off xs next, f => write off xs (next.bind f)
  | copy dst src n next, f => copy dst src n (next.bind f)

instance : Monad (Prog α) where
  pure := done
  bind := bind

/-- The cells of a range. -/
def get (off len : Nat) : Prog α (List α) := read off len done

def set (off : Nat) (xs : List α) : Prog α Unit := write off xs (done ())

def move (dst src n : Nat) : Prog α Unit := copy dst src n (done ())

/-- The result, and the block afterwards. -/
def run : Prog α β → (Nat → α) → β × (Nat → α)
  | done b, m => (b, m)
  | read off len next, m => (next (slice m off len)).run m
  | write off xs next, m => next.run (store m off xs)
  | copy dst src n next, m => next.run (Memory.move m dst src n)

/-- The ranges read, in order. -/
def reads : Prog α β → (Nat → α) → List Range
  | done _, _ => []
  | read off len next, m => ⟨off, len⟩ :: (next (slice m off len)).reads m
  | write off xs next, m => next.reads (store m off xs)
  | copy dst src n next, m => ⟨src, n⟩ :: next.reads (Memory.move m dst src n)

/-- The ranges written, in order. -/
def writes : Prog α β → (Nat → α) → List Range
  | done _, _ => []
  | read off len next, m => (next (slice m off len)).writes m
  | write off xs next, m => ⟨off, xs.length⟩ :: next.writes (store m off xs)
  | copy dst src n next, m => ⟨dst, n⟩ :: next.writes (Memory.move m dst src n)

section

variable (m : Nat → α)

@[simp] theorem run_pure (b : β) : (pure b : Prog α β).run m = (b, m) := rfl

@[simp] theorem reads_pure (b : β) : (pure b : Prog α β).reads m = [] := rfl

@[simp] theorem writes_pure (b : β) : (pure b : Prog α β).writes m = [] := rfl

@[simp] theorem run_get (off len : Nat) : (get off len : Prog α _).run m = (slice m off len, m) := rfl

@[simp] theorem reads_get (off len : Nat) : (get off len : Prog α _).reads m = [⟨off, len⟩] := rfl

@[simp] theorem writes_get (off len : Nat) : (get off len : Prog α _).writes m = [] := rfl

@[simp] theorem run_set (off : Nat) (xs : List α) : (set off xs).run m = ((), store m off xs) := rfl

@[simp] theorem reads_set (off : Nat) (xs : List α) : (set off xs).reads m = [] := rfl

@[simp] theorem writes_set (off : Nat) (xs : List α) :
    (set off xs).writes m = [⟨off, xs.length⟩] := rfl

@[simp] theorem run_move (dst src n : Nat) :
    (move dst src n : Prog α _).run m = ((), Memory.move m dst src n) := rfl

@[simp] theorem reads_move (dst src n : Nat) : (move dst src n : Prog α _).reads m = [⟨src, n⟩] := rfl

@[simp] theorem writes_move (dst src n : Nat) :
    (move dst src n : Prog α _).writes m = [⟨dst, n⟩] := rfl

/-! ## A program and what follows it -/

@[simp] theorem run_bind (p : Prog α β) (f : β → Prog α γ) :
    (p >>= f).run m = (f (p.run m).1).run (p.run m).2 := by
  show (p.bind f).run m = _
  induction p generalizing m with
  | done b => rfl
  | read off len next ih => exact ih (slice m off len) m
  | write off xs next ih => exact ih (store m off xs)
  | copy dst src n next ih => exact ih (Memory.move m dst src n)

@[simp] theorem reads_bind (p : Prog α β) (f : β → Prog α γ) :
    (p >>= f).reads m = p.reads m ++ (f (p.run m).1).reads (p.run m).2 := by
  show (p.bind f).reads m = _
  induction p generalizing m with
  | done b => rfl
  | read off len next ih => exact congrArg (_ :: ·) (ih (slice m off len) m)
  | write off xs next ih => exact ih (store m off xs)
  | copy dst src n next ih => exact congrArg (_ :: ·) (ih (Memory.move m dst src n))

@[simp] theorem writes_bind (p : Prog α β) (f : β → Prog α γ) :
    (p >>= f).writes m = p.writes m ++ (f (p.run m).1).writes (p.run m).2 := by
  show (p.bind f).writes m = _
  induction p generalizing m with
  | done b => rfl
  | read off len next ih => exact ih (slice m off len) m
  | write off xs next ih => exact congrArg (_ :: ·) (ih (store m off xs))
  | copy dst src n next ih => exact congrArg (_ :: ·) (ih (Memory.move m dst src n))

/-! ## What the footprint says -/

/-- **A cell that is not written keeps its value.** -/
theorem run_frame (p : Prog α β) {i : Nat} (h : ∀ r ∈ p.writes m, ¬ r.Has i) :
    (p.run m).2 i = m i := by
  induction p generalizing m with
  | done b => rfl
  | read off len next ih => exact ih (slice m off len) m h
  | write off xs next ih =>
    rw [run, ih _ fun r hr => h r (List.mem_cons_of_mem _ hr)]
    exact store_of_not_mem m off xs (h ⟨off, xs.length⟩ (List.mem_cons_self ..))
  | copy dst src n next ih =>
    rw [run, ih _ fun r hr => h r (List.mem_cons_of_mem _ hr)]
    exact if_neg (h ⟨dst, n⟩ (List.mem_cons_self ..))

theorem store_agree {m m' : Nat → α} {off i : Nat} {xs : List α}
    (h : m' i = m i ∨ Range.Has ⟨off, xs.length⟩ i) : store m' off xs i = store m off xs i := by
  by_cases hin : off ≤ i ∧ i < off + xs.length
  · rw [store, store, dif_pos hin, dif_pos hin]
  · rw [store_of_not_mem m' off xs hin, store_of_not_mem m off xs hin]
    exact h.resolve_right hin

theorem move_agree {m m' : Nat → α} {dst src n i : Nat}
    (hsrc : ∀ k, Range.Has ⟨src, n⟩ k → m' k = m k) (h : m' i = m i ∨ Range.Has ⟨dst, n⟩ i) :
    Memory.move m' dst src n i = Memory.move m dst src n i := by
  by_cases hin : dst ≤ i ∧ i < dst + n
  · rw [Memory.move, Memory.move, if_pos hin, if_pos hin]
    refine hsrc _ ⟨Nat.le_add_right .., ?_⟩
    have := hin.2
    show src + (i - dst) < src + n
    omega
  · rw [Memory.move, Memory.move, if_neg hin, if_neg hin]
    exact h.resolve_right hin

/-- **What a program does depends on the cells that it reads only**: the same result, and the same
value in every cell that it writes. -/
theorem run_congr (p : Prog α β) {m' : Nat → α}
    (h : ∀ r ∈ p.reads m, ∀ i, r.Has i → m' i = m i) :
    (p.run m').1 = (p.run m).1 ∧
      ∀ i, m' i = m i ∨ (∃ r ∈ p.writes m, r.Has i) → (p.run m').2 i = (p.run m).2 i := by
  induction p generalizing m m' with
  | done b => exact ⟨rfl, fun i hi => hi.resolve_right fun ⟨r, hr, _⟩ => absurd hr (List.not_mem_nil)⟩
  | read off len next ih =>
    have hslice : slice m' off len = slice m off len :=
      slice_congr fun i hi => h ⟨off, len⟩ (List.mem_cons_self ..) (off + i)
        ⟨Nat.le_add_right .., Nat.add_lt_add_left hi off⟩
    simp only [run, hslice]
    exact ih _ m fun r hr => h r (List.mem_cons_of_mem _ hr)
  | write off xs next ih =>
    have hagree : ∀ r ∈ next.reads (store m off xs), ∀ i, r.Has i →
        store m' off xs i = store m off xs i := fun r hr i hi => store_agree (.inl (h r hr i hi))
    obtain ⟨hresult, hcells⟩ := ih (store m off xs) hagree
    refine ⟨hresult, fun i hi => hcells i ?_⟩
    rcases hi with hi | ⟨r, hr, hi⟩
    · exact .inl (store_agree (.inl hi))
    · rcases List.mem_cons.1 hr with rfl | hr
      · exact .inl (store_agree (.inr hi))
      · exact .inr ⟨r, hr, hi⟩
  | copy dst src n next ih =>
    have hsrc := h ⟨src, n⟩ (List.mem_cons_self ..)
    have hagree : ∀ r ∈ next.reads (Memory.move m dst src n), ∀ i, r.Has i →
        Memory.move m' dst src n i = Memory.move m dst src n i := fun r hr i hi =>
      move_agree hsrc (.inl (h r (List.mem_cons_of_mem _ hr) i hi))
    obtain ⟨hresult, hcells⟩ := ih (Memory.move m dst src n) hagree
    refine ⟨hresult, fun i hi => hcells i ?_⟩
    rcases hi with hi | ⟨r, hr, hi⟩
    · exact .inl (move_agree hsrc (.inl hi))
    · rcases List.mem_cons.1 hr with rfl | hr
      · exact .inl (move_agree hsrc (.inr hi))
      · exact .inr ⟨r, hr, hi⟩

end

end Prog

end Memory
