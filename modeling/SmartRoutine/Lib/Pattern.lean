import Mathlib.Data.List.Basic
import Mathlib.Order.Bounds.Defs

/-!
# Occurrences of a pattern in a growing text

A text grows at its end.  `Alive p xs i` says that nothing seen so far rules out an occurrence of
`p` at position `i`: text and pattern agree wherever both are known.

* `Skipped.append` — positions ruled out stay ruled out, so a search need not look at them again.
* `infix_iff_occursAt` — the pattern occurs iff some alive position has enough text after it.
* `Skipped.not_occurs` — the positions that remain after a prefix has been skipped decide.
* `alive_iff` — an alive position inside the text is a start of the pattern, or of a suffix that
  more text may complete.
-/

set_option autoImplicit false

namespace Pattern

variable {α : Type*}

/-- Text and pattern agree from position `i` on, wherever both are known. -/
def Alive (p xs : List α) (i : Nat) : Prop :=
  ∀ k (hp : k < p.length) (hx : i + k < xs.length), xs[i + k] = p[k]

def OccursAt (p xs : List α) (i : Nat) : Prop := i + p.length ≤ xs.length ∧ Alive p xs i

/-- The text from `i` on is a proper prefix of the pattern, and not empty. -/
def PendingAt (p xs : List α) (i : Nat) : Prop := xs.drop i ≠ [] ∧ xs.drop i <+: p ∧ xs.drop i ≠ p

/-- No position before `e` is alive. -/
def Skipped (p xs : List α) (e : Nat) : Prop := ∀ i, i < e → ¬ Alive p xs i

section

variable {p xs ys : List α} {i e : Nat}

theorem alive_of_length_le (h : xs.length ≤ i) : Alive p xs i := fun k _ hx => by omega

theorem Alive.of_append (h : Alive p (xs ++ ys) i) : Alive p xs i := by
  intro k hp hx
  have := h k hp (by rw [List.length_append]; omega)
  rwa [List.getElem_append_left hx] at this

theorem skipped_zero (p xs : List α) : Skipped p xs 0 := fun _ h => absurd h (Nat.not_lt_zero _)

theorem Skipped.succ (h : Skipped p xs i) (hi : ¬ Alive p xs i) : Skipped p xs (i + 1) := by
  intro k hk
  by_cases e : k = i
  · exact e ▸ hi
  · exact h k (by omega)

theorem Skipped.le_length (h : Skipped p xs e) : e ≤ xs.length := by
  by_contra hlt
  exact h xs.length (by omega) (alive_of_length_le (Nat.le_refl _))

/-- **Ruled out is ruled out for good.** -/
theorem Skipped.append (h : Skipped p xs e) (ys : List α) : Skipped p (xs ++ ys) e :=
  fun i hi ha => h i hi ha.of_append

theorem alive_drop (p : List α) {xs : List α} {e : Nat} (i : Nat) :
    Alive p (xs.drop e) i ↔ Alive p xs (e + i) := by
  constructor
  · intro h k hp hx
    have := h k hp (by rw [List.length_drop]; omega)
    rw [List.getElem_drop] at this
    simpa only [Nat.add_assoc] using this
  · intro h k hp hx
    rw [List.length_drop] at hx
    rw [List.getElem_drop]
    simpa only [Nat.add_assoc] using h k hp (by omega)

theorem occursAt_drop (p : List α) (he : e ≤ xs.length) (i : Nat) :
    OccursAt p (xs.drop e) i ↔ OccursAt p xs (e + i) := by
  unfold OccursAt
  rw [alive_drop, List.length_drop]
  constructor <;> rintro ⟨hl, ha⟩ <;> exact ⟨by omega, ha⟩

/-- Skipping a prefix and then positions of the rest. -/
theorem Skipped.drop (h : Skipped p xs e) (h' : Skipped p (xs.drop e) i) : Skipped p xs (e + i) := by
  intro k hk ha
  by_cases hlt : k < e
  · exact h k hlt ha
  · obtain ⟨d, rfl⟩ := Nat.exists_eq_add_of_le (Nat.le_of_not_lt hlt)
    exact h' d (by omega) ((alive_drop p d).2 ha)

theorem occursAt_iff (hi : i ≤ xs.length) : OccursAt p xs i ↔ p <+: xs.drop i := by
  rw [List.prefix_iff_getElem]
  constructor
  · rintro ⟨hl, ha⟩
    refine ⟨by rw [List.length_drop]; omega, fun k hk => ?_⟩
    rw [List.getElem_drop]
    exact (ha k hk (by omega)).symm
  · rintro ⟨hl, ha⟩
    rw [List.length_drop] at hl
    refine ⟨by omega, fun k hk hx => ?_⟩
    have := ha k hk
    rw [List.getElem_drop] at this
    exact this.symm

theorem infix_iff_occursAt : p <:+: xs ↔ ∃ i, OccursAt p xs i := by
  rw [List.infix_iff_prefix_suffix]
  constructor
  · rintro ⟨t, hp, s, rfl⟩
    refine ⟨s.length, (occursAt_iff (by simp)).2 ?_⟩
    rw [List.drop_left]
    exact hp
  · rintro ⟨i, ho⟩
    have hi : i ≤ xs.length := by have := ho.1; omega
    exact ⟨xs.drop i, (occursAt_iff hi).1 ho, List.drop_suffix _ _⟩

/-- With everything before `e` skipped, the pattern does not occur unless enough text follows. -/
theorem Skipped.not_occurs (h : Skipped p xs e) (hshort : xs.length < e + p.length) : ¬ p <:+: xs := by
  rw [infix_iff_occursAt]
  rintro ⟨i, hl, ha⟩
  by_cases hi : i < e
  · exact h i hi ha
  · omega

theorem prefix_drop_iff (hp : p ≠ []) : p <+: xs.drop i ↔ OccursAt p xs i := by
  have hpos := List.length_pos_iff.2 hp
  by_cases hi : i ≤ xs.length
  · exact (occursAt_iff hi).symm
  · rw [List.drop_eq_nil_of_le (by omega), List.prefix_nil]
    exact ⟨fun h => absurd h hp, fun h => by have := h.1; omega⟩

theorem pendingAt_iff : PendingAt p xs i ↔ i < xs.length ∧ xs.length < i + p.length ∧ Alive p xs i := by
  unfold PendingAt
  rw [ne_eq, List.drop_eq_nil_iff, List.prefix_iff_getElem]
  constructor
  · rintro ⟨hi, ⟨hl, ha⟩, hne⟩
    have hlen : (xs.drop i).length ≠ p.length := fun e =>
      hne (List.ext_getElem e fun k hk _ => ha k hk)
    rw [List.length_drop] at hl hlen
    refine ⟨by omega, by omega, fun k hp hx => ?_⟩
    have := ha k (by rw [List.length_drop]; omega)
    rwa [List.getElem_drop] at this
  · rintro ⟨hi, hl, ha⟩
    refine ⟨by omega, ⟨by rw [List.length_drop]; omega, fun k hk => ?_⟩, fun e => ?_⟩
    · rw [List.length_drop] at hk
      rw [List.getElem_drop]
      exact ha k (by omega) (by omega)
    · have := congrArg List.length e
      rw [List.length_drop] at this
      omega

/-- **An alive position inside the text starts the pattern, or a suffix that may still become
one.** -/
theorem alive_iff (hi : i < xs.length) : Alive p xs i ↔ OccursAt p xs i ∨ PendingAt p xs i := by
  rw [pendingAt_iff, OccursAt]
  constructor
  · intro ha
    rcases Nat.lt_or_ge xs.length (i + p.length) with hl | hl
    · exact .inr ⟨hi, hl, ha⟩
    · exact .inl ⟨hl, ha⟩
  · rintro (h | h)
    · exact h.2
    · exact h.2.2

/-- No alive position has been skipped. -/
theorem Skipped.isLeast {P : Nat → Prop} (h : Skipped p xs i) (hP : ∀ k, P k → Alive p xs k)
    (hi : P i) : IsLeast {k | P k} i :=
  ⟨hi, fun k hk => Nat.le_of_not_lt fun hlt => h k hlt (hP k hk)⟩

/-- A pending position leaves no room for an occurrence after it. -/
theorem Skipped.not_occurs_of_pendingAt (h : Skipped p xs i) (ho : PendingAt p xs i) : ¬ p <:+: xs :=
  h.not_occurs (pendingAt_iff.1 ho).2.1

end

end Pattern
