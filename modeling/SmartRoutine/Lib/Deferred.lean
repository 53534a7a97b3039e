import Mathlib.Data.List.Induction
import SmartRoutine.Lib.Transition

/-!
# A one-place slot for deferred actions

An agent that is about to be switched away from leaves an action in a slot; whoever is switched
to has to run it.  A history of the slot is a list of three kinds of operations: an agent stores
an action, an agent leaves (is switched away from), the stored action is run.

* `next` — the protocol as an automaton: empty, armed (stored, the storing agent still runs),
  due (the storing agent has left), empty again once the action has run.
* `OnceInOrder` — what the protocol is for: every stored action is followed at once by the
  departure of the agent that stored it and then by its execution, before anything else touches
  the slot, and nothing is run that was not stored.
* `onceInOrder_of_phase` — every history the automaton accepts is `OnceInOrder`.
-/

set_option autoImplicit false

namespace Deferred

open Transition

/-- Operations on a slot for actions `α` by agents `κ`. -/
inductive SlotOp (α κ : Type) where
  | store (action : α) (agent : κ)
  | leave (agent : κ)
  | exec (action : α)
  deriving DecidableEq, Repr

inductive Phase (α κ : Type) where
  | idle
  | armed (action : α) (agent : κ)
  | due (action : α)
  deriving DecidableEq, Repr

variable {α κ : Type}

/-- Every stored action is run exactly once, after the storing agent has left and before any
other operation on the slot; at the end of the history one action may still be on its way. -/
structure OnceInOrder (ops : List (SlotOp α κ)) : Prop where
  stored : ∀ pre a k post, ops = pre ++ .store a k :: post →
    post = [] ∨ post = [.leave k] ∨ ∃ rest, post = .leave k :: .exec a :: rest
  executed : ∀ pre a post, ops = pre ++ .exec a :: post →
    ∃ pre' k, pre = pre' ++ [.store a k, .leave k]

/-- What the end of an accepted history looks like in each phase. -/
def EndsIn (ops : List (SlotOp α κ)) : Phase α κ → Prop
  | .idle => ∀ pre a k, ops ≠ pre ++ [.store a k] ∧ ops ≠ pre ++ [.store a k, .leave k]
  | .armed a k => ∃ pre, ops = pre ++ [.store a k]
  | .due a => ∃ pre k, ops = pre ++ [.store a k, .leave k]

/-- A history splits at an operation of `ops ++ [o]` inside `ops` or at its end. -/
theorem split_concat {ops pre post : List (SlotOp α κ)} {o x : SlotOp α κ}
    (h : ops ++ [o] = pre ++ x :: post) :
    (post = [] ∧ x = o ∧ pre = ops) ∨ ∃ post', post = post' ++ [o] ∧ ops = pre ++ x :: post' := by
  rcases post.eq_nil_or_concat with rfl | ⟨post', y, rfl⟩
  · obtain ⟨hpre, hx⟩ := List.append_inj' h rfl
    simp only [List.cons.injEq, and_true] at hx
    exact Or.inl ⟨rfl, hx.symm, hpre.symm⟩
  · rw [List.concat_eq_append, show pre ++ x :: (post' ++ [y]) = (pre ++ x :: post') ++ [y] by simp] at h
    obtain ⟨hops, ho⟩ := List.append_inj' h rfl
    simp only [List.cons.injEq, and_true] at ho
    exact Or.inr ⟨post', by rw [List.concat_eq_append, ho], hops⟩

theorem concat_inj {xs ys : List (SlotOp α κ)} {x y : SlotOp α κ} (h : xs ++ [x] = ys ++ [y]) :
    xs = ys ∧ x = y := by
  obtain ⟨h₁, h₂⟩ := List.append_inj' h rfl
  exact ⟨h₁, by simpa using h₂⟩

theorem onceInOrder_nil : OnceInOrder ([] : List (SlotOp α κ)) where
  stored := fun pre a k post h => by simp at h
  executed := fun pre a post h => by simp at h

/-- One operation more keeps the order if it continues an action on its way, and runs only
that. -/
theorem OnceInOrder.concat {ops : List (SlotOp α κ)} (h : OnceInOrder ops) {o : SlotOp α κ}
    (hstore : ∀ pre a k, ops = pre ++ [.store a k] → o = .leave k)
    (hleave : ∀ pre a k, ops = pre ++ [.store a k, .leave k] → o = .exec a)
    (hexec : ∀ a, o = .exec a → ∃ pre k, ops = pre ++ [.store a k, .leave k]) :
    OnceInOrder (ops ++ [o]) := by
  refine ⟨fun pre a k post hs => ?_, fun pre a post hs => ?_⟩
  · rcases split_concat hs with ⟨rfl, _, _⟩ | ⟨post', rfl, hops⟩
    · exact Or.inl rfl
    · rcases h.stored pre a k post' hops with rfl | rfl | ⟨rest, rfl⟩
      · rw [hstore pre a k hops]
        exact Or.inr (Or.inl rfl)
      · rw [hleave pre a k hops]
        exact Or.inr (Or.inr ⟨[], rfl⟩)
      · exact Or.inr (Or.inr ⟨rest ++ [o], rfl⟩)
  · rcases split_concat hs with ⟨_, ho, rfl⟩ | ⟨post', _, hops⟩
    · exact hexec a ho.symm
    · exact h.executed pre a post' hops

section

variable {ops : List (SlotOp α κ)} {a : α} {k : κ} {o : SlotOp α κ}

/-- The last two operations, one at a time. -/
theorem append_two (pre : List (SlotOp α κ)) (x y : SlotOp α κ) :
    pre ++ [x, y] = (pre ++ [x]) ++ [y] := by
  simp

/-- Nothing is on its way. -/
theorem OnceInOrder.concat_idle (h : OnceInOrder ops) (hend : EndsIn ops (.idle : Phase α κ))
    (ho : ∀ a, o ≠ .exec a) : OnceInOrder (ops ++ [o]) := by
  apply h.concat
  · intro pre a' k' he
    exact absurd he (hend pre a' k').1
  · intro pre a' k' he
    exact absurd he (hend pre a' k').2
  · intro a' he
    exact absurd he (ho a')

theorem endsIn_idle_leave (hend : EndsIn ops (.idle : Phase α κ)) (k : κ) :
    EndsIn (ops ++ [.leave k]) (.idle : Phase α κ) := by
  intro pre a' k'
  refine ⟨fun he => ?_, fun he => ?_⟩
  · have hlast := (concat_inj he).2
    cases hlast
  · rw [append_two] at he
    exact (hend pre a' k').1 (concat_inj he).1

/-- The storing agent leaves. -/
theorem OnceInOrder.concat_armed (h : OnceInOrder ops) (hend : EndsIn ops (.armed a k)) :
    OnceInOrder (ops ++ [.leave k]) ∧ EndsIn (ops ++ [.leave k]) (.due a : Phase α κ) := by
  obtain ⟨pre₀, hops⟩ := hend
  refine ⟨h.concat ?_ ?_ (by simp), ⟨pre₀, k, by rw [hops, append_two]⟩⟩
  · intro pre a' k' he
    rw [hops] at he
    have hlast := (concat_inj he).2
    cases hlast
    rfl
  · intro pre a' k' he
    rw [hops, append_two] at he
    have hlast := (concat_inj he).2
    cases hlast

/-- The stored action runs. -/
theorem OnceInOrder.concat_due (h : OnceInOrder ops) (hend : EndsIn ops (.due a : Phase α κ)) :
    OnceInOrder (ops ++ [.exec a]) ∧ EndsIn (ops ++ [.exec a]) (.idle : Phase α κ) := by
  obtain ⟨pre₀, k, hops⟩ := hend
  refine ⟨h.concat ?_ ?_ ?_, fun pre a' k' => ⟨fun he => ?_, fun he => ?_⟩⟩
  · intro pre a' k' he
    rw [hops, append_two] at he
    have hlast := (concat_inj he).2
    cases hlast
  · intro pre a' k' he
    rw [hops, append_two, append_two] at he
    have hlast := (concat_inj (concat_inj he).1).2
    cases hlast
    rfl
  · intro a' he
    cases he
    exact ⟨pre₀, k, hops⟩
  · have hlast := (concat_inj he).2
    cases hlast
  · rw [append_two] at he
    have hlast := (concat_inj he).2
    cases hlast

end

section

variable [DecidableEq α] [DecidableEq κ]

/-- The protocol; `none` is a violation. -/
def next : Phase α κ → SlotOp α κ → Option (Phase α κ)
  | .idle, .store a k => some (.armed a k)
  | .idle, .leave _ => some .idle
  | .armed a k, .leave k' => if k' = k then some (.due a) else none
  | .due a, .exec a' => if a' = a then some .idle else none
  | _, _ => none

/-- Phase reached by a history of the empty slot. -/
def phase (ops : List (SlotOp α κ)) : Option (Phase α κ) := exec next .idle ops

theorem phase_concat {ops : List (SlotOp α κ)} {p : Phase α κ} (h : phase ops = some p)
    (o : SlotOp α κ) : phase (ops ++ [o]) = next p o := exec_concat h o

/-- **One operation** that the protocol accepts. -/
theorem OnceInOrder.next {ops : List (SlotOp α κ)} {p p' : Phase α κ} {o : SlotOp α κ}
    (h : OnceInOrder ops) (hend : EndsIn ops p) (hnext : next p o = some p') :
    OnceInOrder (ops ++ [o]) ∧ EndsIn (ops ++ [o]) p' := by
  unfold Deferred.next at hnext
  split at hnext
  · cases hnext
    exact ⟨h.concat_idle hend (by simp), ⟨ops, rfl⟩⟩
  · cases hnext
    exact ⟨h.concat_idle hend (by simp), endsIn_idle_leave hend _⟩
  · split at hnext
    · rename_i hk
      subst hk
      cases hnext
      exact h.concat_armed hend
    · cases hnext
  · split at hnext
    · rename_i ha
      subst ha
      cases hnext
      exact h.concat_due hend
    · cases hnext
  · cases hnext

theorem endsIn_of_phase (ops : List (SlotOp α κ)) :
    ∀ p, phase ops = some p → OnceInOrder ops ∧ EndsIn ops p := by
  induction ops using List.reverseRecOn with
  | nil =>
    intro p h
    simp only [phase, exec_nil, Option.some.injEq] at h
    subst h
    exact ⟨onceInOrder_nil, fun pre a k => by simp⟩
  | append_singleton ops o ih =>
    intro p' h
    cases hp : phase ops with
    | none =>
      rw [phase, exec_append] at h
      rw [phase] at hp
      simp [hp] at h
    | some p =>
      rw [phase_concat hp] at h
      obtain ⟨hord, hend⟩ := ih p hp
      exact hord.next hend h

/-- **Every history the protocol accepts runs each stored action exactly once and in order.** -/
theorem onceInOrder_of_phase {ops : List (SlotOp α κ)} {p : Phase α κ} (h : phase ops = some p) :
    OnceInOrder ops := (endsIn_of_phase ops p h).1

end

end Deferred
