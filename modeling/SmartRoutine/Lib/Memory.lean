import Mathlib.Data.List.Basic

/-!
# Flat memory

A block of memory is a function from indices to cells.  `slice` reads a range, `store` is `memcpy`
from outside the block, `move` is `memmove` inside it.  No range is checked here: who may access
what is the business of the program that uses the block.
-/

set_option autoImplicit false

namespace Memory

variable {α : Type*}

/-- The `len` cells from `off` on. -/
def slice (m : Nat → α) (off len : Nat) : List α := (List.range len).map fun i => m (off + i)

/-- Overwrite the cells from `off` on with `xs`. -/
def store (m : Nat → α) (off : Nat) (xs : List α) : Nat → α := fun i =>
  if h : off ≤ i ∧ i < off + xs.length then xs[i - off] else m i

/-- Copy the `n` cells from `src` on to `dst`; the ranges may overlap. -/
def move (m : Nat → α) (dst src n : Nat) : Nat → α := fun i =>
  if dst ≤ i ∧ i < dst + n then m (src + (i - dst)) else m i

section

variable (m : Nat → α) (off len : Nat)

@[simp] theorem length_slice : (slice m off len).length = len := by simp [slice]

@[simp] theorem slice_zero : slice m off 0 = [] := rfl

theorem getElem_slice {i : Nat} (h : i < (slice m off len).length) :
    (slice m off len)[i] = m (off + i) := by
  simp [slice]

theorem slice_add (a b : Nat) : slice m off (a + b) = slice m off a ++ slice m (off + a) b := by
  simp only [slice, List.range_add, List.map_append, List.map_map]
  congr 1
  refine List.map_congr_left fun i _ => ?_
  simp [Nat.add_assoc]

theorem take_slice {k : Nat} (h : k ≤ len) : (slice m off len).take k = slice m off k := by
  obtain ⟨d, rfl⟩ := Nat.exists_eq_add_of_le h
  rw [slice_add, List.take_left' (length_slice ..)]

theorem drop_slice {k : Nat} (h : k ≤ len) :
    (slice m off len).drop k = slice m (off + k) (len - k) := by
  obtain ⟨d, rfl⟩ := Nat.exists_eq_add_of_le h
  rw [slice_add, List.drop_left' (length_slice ..), Nat.add_sub_cancel_left]

theorem slice_congr {m m' : Nat → α} {off off' len : Nat}
    (h : ∀ i, i < len → m (off + i) = m' (off' + i)) : slice m off len = slice m' off' len :=
  List.map_congr_left fun i hi => h i (List.mem_range.1 hi)

theorem slice_eq_iff {m m' : Nat → α} {off off' len : Nat} :
    slice m off len = slice m' off' len ↔ ∀ i, i < len → m (off + i) = m' (off' + i) := by
  rw [slice, slice, List.map_inj_left]
  exact forall_congr' fun i => by rw [List.mem_range]

/-- Where two ranges agree, so do their parts. -/
theorem slice_part {m m' : Nat → α} {off off' len : Nat} (h : slice m off len = slice m' off' len)
    {k n : Nat} (hk : k + n ≤ len) : slice m (off + k) n = slice m' (off' + k) n := by
  have hdrop : slice m (off + k) (len - k) = slice m' (off' + k) (len - k) := by
    rw [← drop_slice m off len (by omega), h, drop_slice m' off' len (by omega)]
  rw [← take_slice m (off + k) (len - k) (by omega), hdrop, take_slice m' (off' + k) (len - k) (by omega)]

end

section

variable (m : Nat → α) (off : Nat) (xs : List α)

/-- What has been stored is read back. -/
theorem slice_store : slice (store m off xs) off xs.length = xs := by
  refine List.ext_getElem (length_slice ..) fun i _ h => ?_
  have hi : off ≤ off + i ∧ off + i < off + xs.length := ⟨by omega, by omega⟩
  simp [getElem_slice, store, hi]

/-- A range copied from another block. -/
theorem slice_store_slice (m' : Nat → α) (off' len : Nat) :
    slice (store m off (slice m' off' len)) off len = slice m' off' len := by
  have := slice_store m off (slice m' off' len)
  rwa [length_slice] at this

/-- A store leaves what lies before it alone. -/
theorem slice_store_before {o len : Nat} (h : o + len ≤ off) :
    slice (store m off xs) o len = slice m o len := by
  refine slice_congr fun i hi => ?_
  have : ¬ (off ≤ o + i ∧ o + i < off + xs.length) := by omega
  simp [store, this]

/-- Bytes stored right after a range extend it. -/
theorem slice_store_append : slice (store m off xs) 0 (off + xs.length) = slice m 0 off ++ xs := by
  rw [slice_add, slice_store_before _ _ _ (by omega), Nat.zero_add, slice_store]

/-- A store leaves every cell outside it alone. -/
theorem store_of_not_mem {i : Nat} (h : ¬ (off ≤ i ∧ i < off + xs.length)) : store m off xs i = m i := by
  simp [store, h]

theorem store_nil : store m off [] = m := by
  funext i
  exact store_of_not_mem m off [] (by simp)

/-- Storing what is there already changes nothing. -/
theorem store_slice (len : Nat) : store m off (slice m off len) = m := by
  funext i
  by_cases h : off ≤ i ∧ i < off + (slice m off len).length
  · rw [store, dif_pos h, getElem_slice]
    congr 1
    omega
  · exact store_of_not_mem m off _ h

/-- A range inside the moved one is read back at its new place. -/
theorem slice_move (dst src : Nat) {n k len : Nat} (h : k + len ≤ n) :
    slice (move m dst src n) (dst + k) len = slice m (src + k) len := by
  refine slice_congr fun i hi => ?_
  have hin : dst ≤ dst + k + i ∧ dst + k + i < dst + n := ⟨by omega, by omega⟩
  rw [move, if_pos hin, show dst + k + i - dst = k + i by omega, Nat.add_assoc]

end

end Memory
