import SmartRoutine.PartialSearch

/-!
# When partial_search returns

The outer index of `partial_search` has 32 bits, the length that it is compared with 64.

* `HitsAt` — the comparison from one start index ends the search.
* `searchTerminates_iff` — the search ends **exactly** for a length below `2^32` or when it hits at some
  index; whatever the buffer holds, exactly for a length below `2^32`.
* `partialSearch_isSome_iff` — the model's bound on the turns is one.
* `search_never_ends` — a buffer of `2^32` bytes without the delimiter.
-/

set_option autoImplicit false

namespace SmartRoutine

/-- The loops end after finitely many turns. -/
def SearchTerminates (buf : Nat → UInt8) (len : Nat) (str : List UInt8) : Prop :=
  ∃ turns, ((searchStep buf len str)^[turns] (.outer 0)).IsDone

/-- From start index `i`, the bytes agree up to the end of the string or to the last index of the
buffer.  `test_i` wraps like `i` does, and `j` never gets to `2^32`. -/
def HitsAt (buf : Nat → UInt8) (len : Nat) (str : List UInt8) (i : Nat) : Prop :=
  i < 2 ^ 32 ∧ ∃ j, j < 2 ^ 32 ∧ j < str.length ∧
    (∀ k (hk : k < str.length), k ≤ j → buf ((i + k) % 2 ^ 32) = str[k]) ∧
    (j = str.length - 1 ∨ (i + j) % 2 ^ 32 = len - 1)

section

variable {buf : Nat → UInt8} {len : Nat} {str : List UInt8}

/-! ## The search gets nowhere -/

/-- A search without a hit: the indices, and the bytes that agree. -/
def Unhit (buf : Nat → UInt8) (str : List UInt8) : SearchState → Prop
  | .outer i => i < 2 ^ 32
  | .inner i j testI => i < 2 ^ 32 ∧ j < 2 ^ 32 ∧ testI = (i + j) % 2 ^ 32 ∧
      ∀ k (hk : k < str.length), k < j → buf ((i + k) % 2 ^ 32) = str[k]
  | .done _ => False

theorem succ32_lt (x : Nat) : succ32 x < 2 ^ 32 := Nat.mod_lt _ (by decide)

/-- **Each turn of a search over `2^32` bytes or more, without a hit, is followed by another.** -/
theorem unhit_searchStep (hlen : 2 ^ 32 ≤ len) (hno : ∀ i, ¬ HitsAt buf len str i) (s : SearchState)
    (h : Unhit buf str s) : Unhit buf str (searchStep buf len str s) := by
  match s with
  | .outer i =>
    have hi : i < 2 ^ 32 := h
    rw [searchStep, if_pos (by omega)]
    exact ⟨hi, by decide, (Nat.mod_eq_of_lt hi).symm, fun k _ hk => absurd hk (Nat.not_lt_zero k)⟩
  | .inner i j testI =>
    obtain ⟨hi, hj32, htest, hagree⟩ := h
    have hupto (hj : j < str.length) (hbyte : buf testI = str[j]) :
        ∀ k (hk : k < str.length), k ≤ j → buf ((i + k) % 2 ^ 32) = str[k] := by
      intro k hk hkj
      by_cases he : k = j
      · subst he
        rw [← htest]
        exact hbyte
      · exact hagree k hk (by omega)
    have hturn : SearchTurn buf len str i j testI _ := searchStep_turn i j testI
    generalize searchStep buf len str (.inner i j testI) = s' at hturn
    cases hturn with
    | found hj hbyte hlast => exact hno i ⟨hi, j, hj32, hj, hupto hj hbyte, .inl hlast⟩
    | pending hj hbyte _ hend => exact hno i ⟨hi, j, hj32, hj, hupto hj hbyte, .inr (htest ▸ hend)⟩
    | next hj hbyte hlast hend =>
      refine ⟨hi, succ32_lt j, ?_, fun k hk hkj => hupto hj hbyte k hk ?_⟩
      · rw [htest, succ32, succ32, Nat.mod_add_mod, Nat.add_mod_mod, Nat.add_assoc]
      · -- also when `j` wraps to 0, where nothing is claimed
        have : succ32 j ≤ j + 1 := Nat.mod_le ..
        omega
    | away => exact succ32_lt i
  | .done result => exact h

theorem not_terminates (hlen : 2 ^ 32 ≤ len) (hno : ∀ i, ¬ HitsAt buf len str i) :
    ¬ SearchTerminates buf len str := by
  rintro ⟨turns, hdone⟩
  have hinit : Unhit buf str (.outer 0) := Nat.two_pow_pos 32
  have hunhit := Transition.iterate_keeps (unhit_searchStep hlen hno) turns _ hinit
  cases hs : (searchStep buf len str)^[turns] (.outer 0) with
  | outer i => rw [hs] at hdone; exact hdone.elim
  | inner i j testI => rw [hs] at hdone; exact hdone.elim
  | done result => rw [hs] at hunhit; exact hunhit.elim

/-! ## The search ends -/

/-- The way to a hit at `i₀`, after `j₀` bytes that agree. -/
def BeforeHit (len : Nat) (str : List UInt8) (i₀ j₀ : Nat) : SearchState → Prop
  | .outer i => i ≤ i₀
  | .inner i j testI => i ≤ i₀ ∧ j ≤ str.length ∧ j < 2 ^ 32 ∧ testI = (i + j) % 2 ^ 32 ∧
      (i = i₀ → j ≤ j₀) ∧ (len = 2 ^ 32 → i + j < 2 ^ 32)
  | .done _ => True

section

variable {i₀ j₀ i j testI : Nat} (hlen : 2 ^ 32 ≤ len) (hi₀ : i₀ < 2 ^ 32) (hj₀ : j₀ < 2 ^ 32)
  (hj₀str : j₀ < str.length)
  (hagree : ∀ k (hk : k < str.length), k ≤ j₀ → buf ((i₀ + k) % 2 ^ 32) = str[k])
  (hhit : j₀ = str.length - 1 ∨ (i₀ + j₀) % 2 ^ 32 = len - 1)

include hj₀str hagree in
/-- The search does not leave the row of the hit. -/
theorem row_lt_of_away (h : BeforeHit len str i₀ j₀ (.inner i j testI))
    (hno : ∀ hj : j < str.length, buf testI ≠ str[j]) : i < i₀ := by
  obtain ⟨hi, -, -, htest, hrow, -⟩ := h
  have hne : i ≠ i₀ := by
    intro he
    refine hno (Nat.lt_of_le_of_lt (hrow he) hj₀str) ?_
    rw [htest, he]
    exact hagree j _ (hrow he)
  omega

include hlen hj₀ hhit in
/-- Nor does `j` wrap: a string longer than `2^32` is hit by the end of `2^32` bytes, if at all. -/
theorem col_lt_of_next (h : BeforeHit len str i₀ j₀ (.inner i j testI)) (hj : j < str.length)
    (hlast : j ≠ str.length - 1) (hend : testI ≠ len - 1) : j + 1 < 2 ^ 32 := by
  obtain ⟨-, -, hj32, htest, -, hwrap⟩ := h
  by_cases hlong : 2 ^ 32 < str.length
  · have hlen32 : len = 2 ^ 32 := by omega
    have := hwrap hlen32
    omega
  · omega

include hlen hi₀ hj₀ hj₀str hagree hhit in
theorem beforeHit_searchStep (s : SearchState) (h : BeforeHit len str i₀ j₀ s) :
    BeforeHit len str i₀ j₀ (searchStep buf len str s) := by
  match s with
  | .outer i =>
    have hi : i ≤ i₀ := h
    rw [searchStep, if_pos (by omega)]
    exact ⟨hi, Nat.zero_le _, by decide, (Nat.mod_eq_of_lt (by omega)).symm, fun _ => Nat.zero_le _,
      fun _ => by omega⟩
  | .inner i j testI =>
    have hturn : SearchTurn buf len str i j testI _ := searchStep_turn i j testI
    generalize searchStep buf len str (.inner i j testI) = s' at hturn
    cases hturn with
    | found => trivial
    | pending => trivial
    | next hj' _ hlast hend =>
      have hj1 := col_lt_of_next hlen hj₀ hhit h hj' hlast hend
      obtain ⟨hi, -, -, htest, hrow, hwrap⟩ := h
      rw [succ32_of_lt hj1]
      refine ⟨hi, hj', hj1, ?_, fun he => ?_, fun hl => ?_⟩
      · rw [htest, succ32, Nat.mod_add_mod, Nat.add_assoc]
      · -- at `j₀` the search would have ended
        have hne : j ≠ j₀ := by
          rintro rfl
          rw [htest, he] at hend
          exact hhit.elim hlast hend
        have := hrow he
        omega
      · have := hwrap hl
        omega
    | away hno =>
      have hi := row_lt_of_away hj₀str hagree h hno
      rw [succ32_of_lt (by omega)]
      exact hi
  | .done result => trivial

include hlen hi₀ hj₀ hj₀str hagree hhit in
/-- **A search that hits ends.** -/
theorem isDone_of_hit :
    ((searchStep buf len str)^[searchTurns len str.length] (.outer 0)).IsDone := by
  have hdec (s : SearchState) (h : BeforeHit len str i₀ j₀ s) (hd : ¬ s.IsDone) :
      searchVariant (i₀ + 1) str.length (searchStep buf len str s) <
        searchVariant (i₀ + 1) str.length s := by
    match s with
    | .outer i => exact variant_outer
    | .inner i j testI =>
      have hrow : OnRows str (i₀ + 1) (.inner i j testI) := ⟨Nat.lt_succ_of_le h.1, h.2.1⟩
      refine variant_inner hrow (fun hno => ?_) (col_lt_of_next hlen hj₀ hhit h)
      have := row_lt_of_away hj₀str hagree h hno
      omega
    | .done result => exact absurd trivial hd
  have hinit : BeforeHit len str i₀ j₀ (.outer 0) := Nat.zero_le i₀
  have hturns : searchVariant (i₀ + 1) str.length (.outer 0) ≤ searchTurns len str.length := by
    have hrows : (i₀ + 1) * (str.length + 2) ≤ len * (str.length + 2) :=
      Nat.mul_le_mul_right _ (by omega)
    simp only [searchVariant, searchTurns, Nat.sub_zero, Nat.succ_mul len]
    omega
  exact (Transition.iterate_of_variant
    (beforeHit_searchStep hlen hi₀ hj₀ hj₀str hagree hhit) IsDone.searchStep hdec _ _ hinit hturns).2

end

/-- A search that ends at all ends within the model's bound. -/
theorem isDone_searchTurns (h : SearchTerminates buf len str) :
    ((searchStep buf len str)^[searchTurns len str.length] (.outer 0)).IsDone := by
  by_cases hlen : len < 2 ^ 32
  · exact isDone_of_lt buf str hlen
  · by_cases hhit : ∃ i, HitsAt buf len str i
    · obtain ⟨i, hi, j, hj32, hj, hagree, hend⟩ := hhit
      exact isDone_of_hit (by omega) hi hj32 hj hagree hend
    · exact absurd h (not_terminates (by omega) fun i hi => hhit ⟨i, hi⟩)

/-- **`partialSearch` returns what the search ends with, and `none` only if it never ends.** -/
theorem partialSearch_isSome_iff (buf : Nat → UInt8) (len : Nat) (str : List UInt8) :
    (partialSearch buf len str).isSome = true ↔ SearchTerminates buf len str := by
  have hdone : (partialSearch buf len str).isSome = true ↔
      ((searchStep buf len str)^[searchTurns len str.length] (.outer 0)).IsDone := by
    unfold partialSearch
    cases (searchStep buf len str)^[searchTurns len str.length] (.outer 0) with
    | outer i => exact iff_of_false Bool.false_ne_true id
    | inner i j testI => exact iff_of_false Bool.false_ne_true id
    | done result => exact iff_of_true rfl trivial
  rw [hdone]
  exact ⟨fun h => ⟨_, h⟩, isDone_searchTurns⟩

/-- A byte that the string does not begin with is nowhere hit. -/
theorem not_hitsAt_const {c : UInt8} (hc : str.head? ≠ some c) (i : Nat) :
    ¬ HitsAt (fun _ => c) len str i := by
  rintro ⟨-, j, -, hj, hagree, -⟩
  cases str with
  | nil => exact Nat.not_lt_zero j hj
  | cons x xs =>
    have hx : c = x := hagree 0 (Nat.zero_lt_succ _) (Nat.zero_le j)
    exact hc (congrArg some hx.symm)

theorem exists_head?_ne (str : List UInt8) : ∃ c, str.head? ≠ some c := by
  cases str with
  | nil => exact ⟨0, by simp⟩
  | cons x xs => exact ⟨x + 1, by simp⟩

end

/-- **`partial_search` ends exactly for a buffer of fewer than `2^32` bytes, or when it hits at some
index** below `2^32`; so for every buffer of a length exactly when the length is below `2^32`. -/
theorem searchTerminates_iff (len : Nat) (str : List UInt8) :
    (∀ buf : Nat → UInt8,
      SearchTerminates buf len str ↔ len < 2 ^ 32 ∨ ∃ i, HitsAt buf len str i) ∧
    ((∀ buf : Nat → UInt8, SearchTerminates buf len str) ↔ len < 2 ^ 32) := by
  have hone (buf : Nat → UInt8) :
      SearchTerminates buf len str ↔ len < 2 ^ 32 ∨ ∃ i, HitsAt buf len str i := by
    constructor
    · intro h
      by_contra hnot
      obtain ⟨hlen, hno⟩ := not_or.1 hnot
      exact not_terminates (by omega) (not_exists.1 hno) h
    · rintro (hlen | ⟨i, hi, j, hj32, hj, hagree, hend⟩)
      · exact ⟨_, isDone_of_lt buf str hlen⟩
      · by_cases hlen : len < 2 ^ 32
        · exact ⟨_, isDone_of_lt buf str hlen⟩
        · exact ⟨_, isDone_of_hit (by omega) hi hj32 hj hagree hend⟩
  refine ⟨hone, fun hall => ?_, fun hlen buf => (hone buf).2 (.inl hlen)⟩
  by_contra hlen
  obtain ⟨c, hc⟩ := exists_head?_ne str
  exact not_terminates (by omega) (not_hitsAt_const hc) (hall _)

/-- **A buffer of `2^32` zero bytes, searched for a newline**, keeps the epoller's thread. -/
theorem search_never_ends : ¬ SearchTerminates (fun _ => 0) (2 ^ 32) [10] := by
  have hno : ∀ i, ¬ HitsAt (fun _ => 0) (2 ^ 32) [10] i := not_hitsAt_const (by decide)
  exact not_terminates (Nat.le_refl _) hno

end SmartRoutine
