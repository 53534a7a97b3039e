import Mathlib.Data.List.Sort
import Mathlib.Data.Multiset.Filter

/-!
# Priority queues

`PriorityQueue α comp` is any queue that keeps a multiset of elements and shows one that no other
comes before; `comp a b` says that `a` comes after `b`.  Elements that compare equal come out in any
order.

* `popWhile` — take elements off the top as long as they meet a test.
* `drain_sorted` — the elements taken come out in order.
* `popWhile_spec` — for a test that an element passes whenever a later one does, exactly the
  elements that pass it are taken.
* `PriorityQueue.sorted` — sorted lists are such queues.
-/

set_option autoImplicit false

structure PriorityQueue (α : Type) (comp : α → α → Bool) where
  Queue : Type
  items : Queue → Multiset α
  empty : Queue
  top : Queue → Option α
  push : Queue → α → Queue
  pop : Queue → Queue
  items_empty : items empty = 0
  items_push : ∀ q a, items (push q a) = a ::ₘ items q
  items_pop : ∀ q a, top q = some a → items q = a ::ₘ items (pop q)
  top_none : ∀ q, top q = none → items q = 0
  top_first : ∀ q a, top q = some a → ∀ b ∈ items q, comp a b = false

namespace PriorityQueue

variable {α : Type} {comp : α → α → Bool} (Q : PriorityQueue α comp)

/-- Move elements that meet `p` from the top to the end of `acc`, `fuel` of them at most. -/
def popWhile (p : α → Bool) : Nat → Q.Queue → List α → List α × Q.Queue
  | 0, q, acc => (acc, q)
  | fuel + 1, q, acc =>
    match Q.top q with
    | none => (acc, q)
    | some a => if p a then popWhile p fuel (Q.pop q) (acc ++ [a]) else (acc, q)

/-- The loop as the program has it: until the queue is empty or its top fails the test. -/
def drain (p : α → Bool) (q : Q.Queue) (acc : List α) : List α × Q.Queue :=
  Q.popWhile p (Multiset.card (Q.items q)) q acc

variable {Q}

theorem popWhile_spec {p : α → Bool} (hp : ∀ a b, comp a b = false → p b = true → p a = true) :
    ∀ (fuel : Nat) (q : Q.Queue) (acc : List α), Multiset.card (Q.items q) ≤ fuel →
      ∃ xs, (Q.popWhile p fuel q acc).1 = acc ++ xs ∧
        (xs : Multiset α) = (Q.items q).filter (p · = true) ∧
        Q.items (Q.popWhile p fuel q acc).2 = (Q.items q).filter (¬ p · = true) := by
  intro fuel
  induction fuel with
  | zero =>
    intro q acc hcard
    have hempty : Q.items q = 0 := Multiset.card_eq_zero.1 (Nat.le_zero.1 hcard)
    refine ⟨[], (List.append_nil _).symm, ?_, ?_⟩
    · rw [hempty]
      rfl
    · show Q.items q = _
      rw [hempty]
      rfl
  | succ fuel ih =>
    intro q acc hcard
    unfold popWhile
    cases htop : Q.top q with
    | none =>
      have hempty := Q.top_none q htop
      refine ⟨[], (List.append_nil _).symm, ?_, ?_⟩
      · rw [hempty]
        rfl
      · show Q.items q = _
        rw [hempty]
        rfl
    | some a =>
      have hitems := Q.items_pop q a htop
      dsimp only
      by_cases ha : p a = true
      · rw [if_pos ha]
        have hcard' : Multiset.card (Q.items (Q.pop q)) ≤ fuel := by
          rw [hitems, Multiset.card_cons] at hcard
          omega
        obtain ⟨xs, hacc, htaken, hleft⟩ := ih (Q.pop q) (acc ++ [a]) hcard'
        refine ⟨a :: xs, ?_, ?_, ?_⟩
        · rw [hacc, List.append_assoc, List.singleton_append]
        · rw [hitems, Multiset.filter_cons_of_pos (p := fun b => p b = true) _ ha, ← htaken, Multiset.cons_coe]
        · rw [hleft, hitems, Multiset.filter_cons_of_neg (p := fun b => ¬ p b = true) _ (not_not.2 ha)]
      · -- the top fails, and everything else comes at the top or after it
        rw [if_neg ha]
        have hfail : ∀ b ∈ Q.items q, ¬ p b = true := by
          intro b hb hpb
          exact ha (hp a b (Q.top_first q a htop b hb) hpb)
        refine ⟨[], (List.append_nil _).symm, ?_, ?_⟩
        · exact (Multiset.filter_eq_nil.2 hfail).symm
        · exact (Multiset.filter_eq_self.2 hfail).symm

/-- **Draining takes exactly the elements that pass the test** and leaves the others. -/
theorem drain_spec {p : α → Bool} (hp : ∀ a b, comp a b = false → p b = true → p a = true)
    (q : Q.Queue) (acc : List α) :
    ∃ xs, (Q.drain p q acc).1 = acc ++ xs ∧ (xs : Multiset α) = (Q.items q).filter (p · = true) ∧
      Q.items (Q.drain p q acc).2 = (Q.items q).filter (¬ p · = true) :=
  popWhile_spec hp _ q acc (Nat.le_refl _)

theorem top_mem {q : Q.Queue} {a : α} (h : Q.top q = some a) : a ∈ Q.items q := by
  rw [Q.items_pop q a h]
  exact Multiset.mem_cons_self a _

theorem popWhile_sorted (p : α → Bool) (fuel : Nat) (q : Q.Queue) (acc : List α) :
    ∃ xs, (Q.popWhile p fuel q acc).1 = acc ++ xs ∧ (∀ x ∈ xs, x ∈ Q.items q) ∧
      xs.Pairwise fun a b => comp a b = false := by
  induction fuel generalizing q acc with
  | zero => exact ⟨[], (List.append_nil _).symm, fun x hx => (List.not_mem_nil hx).elim, .nil⟩
  | succ fuel ih =>
    have hnone : ∃ xs, acc = acc ++ xs ∧ (∀ x ∈ xs, x ∈ Q.items q) ∧
        xs.Pairwise fun a b => comp a b = false :=
      ⟨[], (List.append_nil _).symm, fun x hx => (List.not_mem_nil hx).elim, .nil⟩
    unfold popWhile
    cases htop : Q.top q with
    | none => exact hnone
    | some a =>
      dsimp only
      split
      · obtain ⟨xs, hacc, hmem, hsorted⟩ := ih (Q.pop q) (acc ++ [a])
        have hrest : ∀ x ∈ xs, x ∈ Q.items q := by
          intro x hx
          rw [Q.items_pop q a htop]
          exact Multiset.mem_cons_of_mem (hmem x hx)
        refine ⟨a :: xs, by rw [hacc, List.append_assoc, List.singleton_append], ?_, ?_⟩
        · intro x hx
          rcases List.mem_cons.1 hx with rfl | hx
          · exact top_mem htop
          · exact hrest x hx
        · -- the top comes before everything that is taken later
          exact List.pairwise_cons.2 ⟨fun x hx => Q.top_first q a htop x (hrest x hx), hsorted⟩
      · exact hnone

/-- **Draining takes the elements in order**, whatever the test. -/
theorem drain_sorted (p : α → Bool) (q : Q.Queue) (acc : List α) :
    ∃ xs, (Q.drain p q acc).1 = acc ++ xs ∧ xs.Pairwise fun a b => comp a b = false := by
  obtain ⟨xs, hacc, -, hsorted⟩ := popWhile_sorted p (Multiset.card (Q.items q)) q acc
  exact ⟨xs, hacc, hsorted⟩

/-! ## Sorted lists -/

/-- Sorted lists as a priority queue for a total preorder. -/
def sorted (comp : α → α → Bool) (htotal : ∀ a b, comp a b = false ∨ comp b a = false)
    (htrans : ∀ a b c, comp a b = false → comp b c = false → comp a c = false) :
    PriorityQueue α comp :=
  have : Std.Total fun a b => comp a b = false := ⟨htotal⟩
  have : IsTrans α fun a b => comp a b = false := ⟨htrans⟩
  { Queue := { xs : List α // xs.Pairwise fun a b => comp a b = false }
    items := fun q => q.1
    empty := ⟨[], List.Pairwise.nil⟩
    top := fun q => q.1.head?
    push := fun q a => ⟨q.1.orderedInsert (fun a b => comp a b = false) a, q.2.orderedInsert a _⟩
    pop := fun q => ⟨q.1.tail, q.2.tail⟩
    items_empty := rfl
    items_push := fun q a => Multiset.coe_eq_coe.2 (List.perm_orderedInsert _ a q.1)
    items_pop := fun q a h => by
      obtain ⟨xs, hxs⟩ := q
      cases xs with
      | nil => cases h
      | cons x xs => cases h; rfl
    top_none := fun q h => by
      rw [List.head?_eq_none_iff] at h
      show (q.1 : Multiset α) = 0
      rw [h]
      rfl
    top_first := fun q a h b hb => by
      obtain ⟨xs, hxs⟩ := q
      cases xs with
      | nil => cases h
      | cons x xs =>
        cases h
        rcases List.mem_cons.1 (Multiset.mem_coe.1 hb) with rfl | hmem
        · exact (htotal b b).elim id id
        · exact List.rel_of_pairwise_cons hxs hmem }

end PriorityQueue
