import SmartRoutine.BoundedQueue
import SmartRoutine.Lib.Refinement

/-!
# The ring is a bounded FIFO

Whole sequences of calls of `BoundedQueue<T>`, `front` and `pop` only while `empty()` is false.

* `Fifo` — what the class is for: a list of at most `capacity` elements.
* `simulates` — one call of the ring and one of the list.
* `calls_isFifo` — every sequence of calls, and every index into `data_` on the way.
-/

set_option autoImplicit false

namespace SmartRoutine

open Refinement Transition

/-- A call of the public interface that changes or reads the elements. -/
inductive QueueCall (α : Type) where
  | push (value : α)
  | front
  | pop
  deriving DecidableEq, Repr

/-- What the caller sees: the value returned, and `empty()` and `full()` afterwards. -/
structure QueueAnswer (α : Type) where
  /-- The result of `push`. -/
  pushed : Option Bool
  /-- The value read by `front`. -/
  value : Option α
  empty : Bool
  full : Bool
  deriving DecidableEq, Repr

variable {α : Type}

namespace BoundedQueue

def observe (q : BoundedQueue α) (pushed : Option Bool) (value : Option α) : QueueAnswer α :=
  ⟨pushed, value, q.empty, q.full⟩

/-- One call; `front` and `pop` are not made on an empty ring. -/
def call (q : BoundedQueue α) : QueueCall α → Option (BoundedQueue α × QueueAnswer α)
  | .push v => some ((q.push v).2, (q.push v).2.observe (some (q.push v).1) none)
  | .front => if q.empty then none else some (q, q.observe none q.front)
  | .pop => if q.empty then none else some (q.pop, q.pop.observe none none)

/-- The index into `data_` that a call uses. -/
def cellUsed (q : BoundedQueue α) : QueueCall α → Option Nat
  | .push _ => if q.full then none else some q.tail
  | .front => some q.head
  | .pop => none

end BoundedQueue

/-! ## The abstract queue -/

/-- A list of at most `capacity` elements, oldest first. -/
structure Fifo (α : Type) (capacity : Nat) where
  items : List α
  length_le : items.length ≤ capacity

namespace Fifo

variable {capacity : Nat}

def new (α : Type) (capacity : Nat) : Fifo α capacity := ⟨[], Nat.zero_le _⟩

def observe (f : Fifo α capacity) (pushed : Option Bool) (value : Option α) : QueueAnswer α :=
  ⟨pushed, value, f.items.isEmpty, f.items.length == capacity⟩

/-- Append, with room for one more. -/
def append (f : Fifo α capacity) (v : α) (h : f.items.length < capacity) : Fifo α capacity :=
  ⟨f.items ++ [v], by rw [List.length_append]; exact h⟩

def dropOldest (f : Fifo α capacity) : Fifo α capacity :=
  ⟨f.items.tail, Nat.le_trans (by simp) f.length_le⟩

/-- The call on the list. -/
def call (f : Fifo α capacity) : QueueCall α → Option (Fifo α capacity × QueueAnswer α)
  | .push v =>
    if h : f.items.length < capacity then
      some (f.append v h, (f.append v h).observe (some true) none)
    else some (f, f.observe (some false) none)
  | .front => f.items.head?.map fun x => (f, f.observe none (some x))
  | .pop => f.items.head?.map fun _ => (f.dropOldest, f.dropOldest.observe none none)

end Fifo

namespace BoundedQueue

/-- The ring is in use as a queue of `capacity` elements and holds those of `f`. -/
def Represents {capacity : Nat} (q : BoundedQueue α) (f : Fifo α capacity) : Prop :=
  q.capacity = capacity ∧ Holds q f.items

section

variable {capacity : Nat} {q : BoundedQueue α} {f : Fifo α capacity}

theorem Represents.observe (h : Represents q f) (pushed : Option Bool) (value : Option α) :
    q.observe pushed value = f.observe pushed value := by
  have he : q.empty = f.items.isEmpty := by
    rw [Bool.eq_iff_iff, h.2.empty_iff, List.isEmpty_iff]
  have hf : q.full = (f.items.length == capacity) := by
    rw [Bool.eq_iff_iff, h.2.full_iff, beq_iff_eq, h.1]
  simp only [BoundedQueue.observe, Fifo.observe, he, hf]

theorem Represents.push (h : Represents q f) (v : α) :
    ∃ f', f.call (.push v) = some (f', (q.push v).2.observe (some (q.push v).1) none) ∧
      Represents (q.push v).2 f' := by
  obtain ⟨hcap, hq⟩ := h
  by_cases hl : f.items.length < capacity
  · obtain ⟨hok, hq'⟩ := hq.push_of_lt (by omega) v
    have hr : Represents (q.push v).2 (f.append v hl) := ⟨(push_capacity q v).trans hcap, hq'⟩
    exact ⟨f.append v hl, by simp only [Fifo.call, dif_pos hl, hr.observe, hok], hr⟩
  · have hle := f.length_le
    rw [hq.push_of_full (by omega) v]
    have hr : Represents q f := ⟨hcap, hq⟩
    exact ⟨f, by simp only [Fifo.call, dif_neg hl, hr.observe], hr⟩

/-- **One call**: the ring allows it iff the list does, and then they answer alike. -/
theorem simulates (capacity : Nat) :
    Simulates Represents (call : BoundedQueue α → _) (Fifo.call : Fifo α capacity → _) := by
  intro q f c h
  cases c with
  | push v =>
    obtain ⟨f', hf', hr⟩ := h.push v
    exact .inr ⟨_, f', _, rfl, hf', hr⟩
  | front =>
    have he := h.2.empty_iff
    have ho := h.observe
    cases hx : f.items with
    | nil =>
      rw [hx] at he
      exact .inl ⟨by simp [call, he.2 rfl], by simp [Fifo.call, hx]⟩
    | cons x xs =>
      have hq : Holds q (x :: xs) := hx ▸ h.2
      have hne : q.empty = false := by rw [← Bool.not_eq_true, he, hx]; simp
      exact .inr ⟨q, f, q.observe none q.front, by simp [call, hne],
        by simp [Fifo.call, hx, ho, hq.front], h⟩
  | pop =>
    have he := h.2.empty_iff
    cases hx : f.items with
    | nil =>
      rw [hx] at he
      exact .inl ⟨by simp [call, he.2 rfl], by simp [Fifo.call, hx]⟩
    | cons x xs =>
      have hq : Holds q (x :: xs) := hx ▸ h.2
      have hne : q.empty = false := by rw [← Bool.not_eq_true, he, hx]; simp
      have hr : Represents q.pop f.dropOldest := ⟨h.1, by simpa [Fifo.dropOldest, hx] using hq.pop⟩
      exact .inr ⟨q.pop, f.dropOldest, q.pop.observe none none, by simp [call, hne],
        by simp [Fifo.call, hx, hr.observe], hr⟩

theorem new_represents {c : Nat} (hc : 0 < c) (hc' : c < 2 ^ 32) :
    Represents (new c : BoundedQueue α) (Fifo.new α c) :=
  ⟨rfl, new_holds hc hc'⟩

/-- A call uses cells of the array only. -/
theorem Represents.cellUsed_lt (h : Represents q f) (c : QueueCall α) :
    ∀ i ∈ q.cellUsed c, i < capacity ∧ i < q.data.length := by
  intro i hi
  rw [h.2.data_length, h.1, and_self, ← h.1]
  cases c with
  | push v =>
    simp only [cellUsed, Option.mem_def] at hi
    split at hi
    · cases hi
    · cases hi
      exact h.2.tail_lt
  | front =>
    cases hi
    exact h.2.head_lt
  | pop => cases hi

end

/-- **The ring is a bounded FIFO.**  Any sequence of calls is answered as by a list of at most
`c` elements, the ring holds that list in every state it reaches, a refused push changes nothing,
and no call leaves the array. -/
theorem calls_isFifo (c : Nat) (hc : 0 < c) (hc' : c < 2 ^ 32) (calls : List (QueueCall α)) :
    answers call (new c : BoundedQueue α) calls = answers Fifo.call (Fifo.new α c) calls ∧
      ∀ q, exec (next call) (new c : BoundedQueue α) calls = some q →
        (∃ f, exec (next Fifo.call) (Fifo.new α c) calls = some f ∧ q.toList = f.items ∧
          q.observe none none = f.observe none none) ∧
        (∀ v, (q.push v).1 = false → (q.push v).2 = q) ∧
        ∀ l, ∀ i ∈ q.cellUsed l, i < c ∧ i < q.data.length := by
  refine ⟨(simulates c).answers_eq calls (new_represents hc hc'), fun q hq => ?_⟩
  obtain ⟨f, hf, hr⟩ := (simulates c).exec calls (new_represents hc hc') hq
  refine ⟨⟨f, hf, hr.2.toList_eq, hr.observe none none⟩, fun v hv => ?_, hr.cellUsed_lt⟩
  rcases Nat.lt_or_ge f.items.length q.capacity with hl | hl
  · rw [(hr.2.push_of_lt hl v).1] at hv
    cases hv
  · rw [hr.2.push_of_full (Nat.le_antisymm hr.2.length_le hl) v]

/-- A ring of one cell: filled, refusing, drained and filled again. -/
theorem calls_isFifo_one :
    (0 < 1 ∧ 1 < 2 ^ 32) ∧
      answers call (new 1 : BoundedQueue Nat) [.push 7, .push 8, .front, .pop, .push 9] =
        answers Fifo.call (Fifo.new Nat 1) [.push 7, .push 8, .front, .pop, .push 9] :=
  ⟨by decide, (calls_isFifo 1 (by decide) (by decide) _).1⟩

end BoundedQueue

end SmartRoutine
