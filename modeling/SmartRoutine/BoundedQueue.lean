import Mathlib.Algebra.Ring.Nat
import Mathlib.Data.List.Basic
import Mathlib.Data.List.Induction

/-!
# The bounded ring of a worker

Model of `BoundedQueue<T>` (`include/common/bounded_queue.h`): an array of `capacity_` cells
written at `tail_` and read at `head_`, both `uint32_t` and wrapped modulo the capacity, with
`is_empty_` telling the empty ring from the full one.

`Holds q xs` says that the ring `q` holds exactly the list `xs`, oldest element first.
`new_holds`, `Holds.push`, `Holds.front`, `Holds.pop`, `Holds.pushAll` — each operation refines the
corresponding operation on the bounded list, through any number of wrap-arounds.
-/

set_option autoImplicit false

namespace SmartRoutine

/-- `BoundedQueue<T>`; a cell is `none` while `new T[capacity_]` has left it indeterminate. -/
structure BoundedQueue (α : Type) where
  data : List (Option α)
  capacity : Nat
  head : Nat
  tail : Nat
  isEmpty : Bool
  deriving DecidableEq, Repr

namespace BoundedQueue

variable {α : Type}

def new (capacity : Nat) : BoundedQueue α := ⟨List.replicate capacity none, capacity, 0, 0, true⟩

def empty (q : BoundedQueue α) : Bool := q.isEmpty

def full (q : BoundedQueue α) : Bool := q.tail == q.head && !q.isEmpty

/-- `push`: `data_[tail_++] = value; tail_ %= capacity_`, refused when full. -/
def push (q : BoundedQueue α) (value : α) : Bool × BoundedQueue α :=
  if q.full then (false, q)
  else (true, { q with data := q.data.set q.tail (some value),
                       tail := (q.tail + 1) % 2 ^ 32 % q.capacity, isEmpty := false })

/-- `front`: `data_[head_]`. -/
def front (q : BoundedQueue α) : Option α := (q.data[q.head]?).join

/-- `pop`: advance `head_`; the ring is empty once it has caught up with `tail_`. -/
def pop (q : BoundedQueue α) : BoundedQueue α :=
  let head := (q.head + 1) % 2 ^ 32 % q.capacity
  { q with head := head, isEmpty := if q.tail = head then true else q.isEmpty }

/-- Number of elements held. -/
def size (q : BoundedQueue α) : Nat :=
  if q.isEmpty then 0
  else if q.head < q.tail then q.tail - q.head else q.tail + q.capacity - q.head

/-- The elements held, oldest first. -/
def toList (q : BoundedQueue α) : List α :=
  (List.range q.size).filterMap fun i => (q.data[(q.head + i) % q.capacity]?).join

/-! ## Circular indices -/

/-- One wrap at most: the index `i ≤ c` cells after `h < c`. -/
theorem add_mod_wrap {h i c : Nat} (hh : h < c) (hi : i ≤ c) :
    (h + i) % c = if h + i < c then h + i else h + i - c := by
  split
  · exact Nat.mod_eq_of_lt ‹_›
  · rw [Nat.mod_eq_sub_mod (by omega)]
    exact Nat.mod_eq_of_lt (by omega)

/-- `x++; x %= capacity_` on `uint32_t` advances by one cell. -/
theorem succ_wrap {x c : Nat} (hx : x < c) (hc : c < 2 ^ 32) :
    (x + 1) % 2 ^ 32 % c = (x + 1) % c := by
  rw [Nat.mod_eq_of_lt (by omega : x + 1 < 2 ^ 32)]

/-! ## The list a ring holds -/

/-- The ring `q` holds exactly `xs`, oldest element first. -/
structure Holds (q : BoundedQueue α) (xs : List α) : Prop where
  capacity_lt : q.capacity < 2 ^ 32
  head_lt : q.head < q.capacity
  length_le : xs.length ≤ q.capacity
  data_length : q.data.length = q.capacity
  tail_eq : q.tail = (q.head + xs.length) % q.capacity
  isEmpty_iff : q.isEmpty = true ↔ xs = []
  cells : ∀ i (hi : i < xs.length), q.data[(q.head + i) % q.capacity]? = some (some xs[i])

variable {q : BoundedQueue α} {xs : List α}

theorem Holds.capacity_pos (h : Holds q xs) : 0 < q.capacity := Nat.zero_lt_of_lt h.head_lt

theorem Holds.tail_lt (h : Holds q xs) : q.tail < q.capacity := by
  rw [h.tail_eq]; exact Nat.mod_lt _ h.capacity_pos

theorem new_holds {c : Nat} (hc : 0 < c) (hc' : c < 2 ^ 32) : Holds (new c : BoundedQueue α) [] where
  capacity_lt := hc'
  head_lt := hc
  length_le := Nat.zero_le _
  data_length := by simp [new]
  tail_eq := by simp [new]
  isEmpty_iff := by simp [new]
  cells := fun i hi => by simp at hi

theorem Holds.empty_iff (h : Holds q xs) : q.empty = true ↔ xs = [] := h.isEmpty_iff

theorem Holds.full_iff (h : Holds q xs) : q.full = true ↔ xs.length = q.capacity := by
  have hw := add_mod_wrap h.head_lt h.length_le
  have hh := h.head_lt
  have hl := h.length_le
  rw [← h.tail_eq] at hw
  have he : q.isEmpty = false ↔ xs ≠ [] := by rw [← Bool.not_eq_true, h.isEmpty_iff]
  simp only [full, Bool.and_eq_true, beq_iff_eq, Bool.not_eq_true', he]
  rw [← List.length_pos_iff]
  constructor
  · rintro ⟨ht, hpos⟩
    split at hw <;> omega
  · intro hlen
    split at hw <;> omega

/-- Distinct offsets below the capacity are distinct cells. -/
theorem wrap_ne {h i j c : Nat} (hh : h < c) (hij : i < j) (hj : j < c) :
    (h + i) % c ≠ (h + j) % c := by
  rw [add_mod_wrap hh (by omega), add_mod_wrap hh (by omega)]
  split <;> split <;> omega

theorem Holds.push_of_lt (h : Holds q xs) (hl : xs.length < q.capacity) (v : α) :
    (q.push v).1 = true ∧ Holds (q.push v).2 (xs ++ [v]) := by
  have hf : q.full = false := by
    rw [← Bool.not_eq_true, h.full_iff]; omega
  have hh := h.head_lt
  have htl := h.tail_lt
  simp only [push, hf, Bool.false_eq_true, if_false, true_and]
  refine ⟨h.capacity_lt, hh, by simp; omega, by simp [h.data_length], ?_, by simp, ?_⟩
  · rw [succ_wrap htl h.capacity_lt, h.tail_eq]
    simp [Nat.add_assoc]
  · intro i hi
    simp only [List.length_append, List.length_cons, List.length_nil] at hi
    rcases (by omega : i < xs.length ∨ i = xs.length) with hlt | rfl
    · have hne : q.tail ≠ (q.head + i) % q.capacity := by
        rw [h.tail_eq]; exact (wrap_ne hh hlt hl).symm
      rw [List.getElem?_set_ne hne, List.getElem_append_left hlt]
      exact h.cells i hlt
    · rw [← h.tail_eq, List.getElem?_set_self (by rw [h.data_length]; exact htl)]
      simp

theorem Holds.push_of_full (h : Holds q xs) (hl : xs.length = q.capacity) (v : α) :
    q.push v = (false, q) := by
  simp [push, h.full_iff.2 hl]

/-- **`push` appends exactly when there is room and otherwise changes nothing.** -/
theorem Holds.push (h : Holds q xs) (v : α) :
    (q.push v).1 = decide (xs.length < q.capacity) ∧
      Holds (q.push v).2 (if xs.length < q.capacity then xs ++ [v] else xs) := by
  by_cases hl : xs.length < q.capacity
  · simpa [hl] using h.push_of_lt hl v
  · have := h.length_le
    rw [h.push_of_full (by omega) v]
    simpa [hl] using h

@[simp] theorem push_capacity (q : BoundedQueue α) (v : α) : (q.push v).2.capacity = q.capacity := by
  unfold BoundedQueue.push; split <;> rfl

@[simp] theorem pop_capacity (q : BoundedQueue α) : q.pop.capacity = q.capacity := rfl

theorem Holds.front {x : α} (h : Holds q (x :: xs)) : q.front = some x := by
  have := h.cells 0 (by simp)
  simp only [Nat.add_zero, Nat.mod_eq_of_lt h.head_lt] at this
  simp [BoundedQueue.front, this]

theorem Holds.pop {x : α} (h : Holds q (x :: xs)) : Holds q.pop xs := by
  have hh := h.head_lt
  have hl := h.length_le
  have hpos := h.capacity_pos
  have he : q.isEmpty = false := by
    rw [← Bool.not_eq_true, h.isEmpty_iff]; simp
  have hhead : (q.head + 1) % 2 ^ 32 % q.capacity = (q.head + 1) % q.capacity :=
    succ_wrap hh h.capacity_lt
  have hidx : ∀ i, ((q.head + 1) % q.capacity + i) % q.capacity = (q.head + (i + 1)) % q.capacity := by
    intro i
    rw [Nat.mod_add_mod, Nat.add_assoc, Nat.add_comm 1 i]
  simp only [List.length_cons] at hl
  refine ⟨h.capacity_lt, ?_, by simp only [pop_capacity]; omega, h.data_length, ?_, ?_, ?_⟩
  · simp only [BoundedQueue.pop, hhead]; exact Nat.mod_lt _ hpos
  · simp only [BoundedQueue.pop, hhead, hidx]
    exact h.tail_eq
  · have ht := add_mod_wrap hh hl
    have hn := add_mod_wrap hh (by omega : 1 ≤ q.capacity)
    have hcaught : q.tail = (q.head + 1) % q.capacity ↔ xs = [] := by
      rw [h.tail_eq, List.length_cons, ht, hn, ← List.length_eq_zero_iff]
      split <;> split <;> omega
    simp only [BoundedQueue.pop, hhead, he]
    rw [← hcaught]
    split <;> simp_all
  · intro i hi
    simp only [BoundedQueue.pop, hhead, hidx]
    exact h.cells (i + 1) (by simpa using hi)

theorem Holds.size_eq (h : Holds q xs) : q.size = xs.length := by
  have hh := h.head_lt
  have hl := h.length_le
  have hw := add_mod_wrap hh hl
  rw [← h.tail_eq] at hw
  unfold size
  by_cases hx : xs = []
  · simp [h.isEmpty_iff.2 hx, hx]
  · have he : q.isEmpty = false := by rw [← Bool.not_eq_true, h.isEmpty_iff]; exact hx
    have hpos := List.length_pos_iff.2 hx
    rw [he]
    simp only [Bool.false_eq_true, if_false]
    split at hw <;> split <;> omega

/-- The list a ring holds is the one read off its cells. -/
theorem Holds.toList_eq (h : Holds q xs) : q.toList = xs := by
  unfold toList
  rw [h.size_eq]
  have hmap : ∀ i ∈ List.range xs.length,
      (q.data[(q.head + i) % q.capacity]?).join = xs[i]? := by
    intro i hi
    have hi' := List.mem_range.1 hi
    rw [h.cells i hi', List.getElem?_eq_getElem hi']
    rfl
  rw [List.filterMap_congr hmap]
  clear hmap h
  induction xs using List.reverseRecOn with
  | nil => rfl
  | append_singleton xs x ih =>
    rw [List.length_append, List.length_singleton, List.range_succ, List.filterMap_append]
    have hl : List.filterMap (fun i => (xs ++ [x])[i]?) (List.range xs.length) =
        List.filterMap (fun i => xs[i]?) (List.range xs.length) :=
      List.filterMap_congr fun i hi => List.getElem?_append_left (List.mem_range.1 hi)
    rw [hl, ih]
    simp

/-! ## Pushing a batch -/

/-- `for (auto coro : tmp_list) task_queue_.push(coro)`: the result of each push is ignored. -/
def pushAll (q : BoundedQueue α) (vs : List α) : BoundedQueue α :=
  vs.foldl (fun q v => (q.push v).2) q

@[simp] theorem pushAll_capacity (q : BoundedQueue α) (vs : List α) :
    (q.pushAll vs).capacity = q.capacity := by
  induction vs generalizing q with
  | nil => rfl
  | cons v vs ih => simpa [pushAll] using ih (q.push v).2

/-- Pushing a batch keeps the elements that fit and silently drops the others. -/
theorem Holds.pushAll (h : Holds q xs) (vs : List α) :
    Holds (q.pushAll vs) (xs ++ vs.take (q.capacity - xs.length)) := by
  induction vs generalizing q xs with
  | nil => simpa [BoundedQueue.pushAll] using h
  | cons v vs ih =>
    have hp := (h.push v).2
    have := ih hp
    rw [push_capacity] at this
    have hl := h.length_le
    by_cases hlt : xs.length < q.capacity
    · obtain ⟨k, hk⟩ : ∃ k, q.capacity - xs.length = k + 1 := ⟨q.capacity - xs.length - 1, by omega⟩
      have hk' : q.capacity - (xs.length + 1) = k := by omega
      simp only [hlt, if_true, List.length_append, List.length_singleton, hk'] at this
      simpa [BoundedQueue.pushAll, hk] using this
    · have hk : q.capacity - xs.length = 0 := by omega
      simp only [hlt, if_false, hk, List.take_zero, List.append_nil] at this ⊢
      simpa [BoundedQueue.pushAll] using this

end BoundedQueue

end SmartRoutine
