import Mathlib.Algebra.Ring.Nat
import Mathlib.Order.Bounds.Basic
import SmartRoutine.Lib.Memory
import SmartRoutine.Lib.Pattern
import SmartRoutine.Lib.Transition

/-!
# partial_search

The two nested loops of `partial_search` as a machine that makes one comparison at a time, with its
indices as 32-bit unsigned values and the lengths as `size_t`.

* `searchStep` — one turn; `SearchTurn`, `searchStep_turn` — what one of the inner loop can do.
* `isDone_of_lt` — below `2^32` bytes the search ends.
* `partialSearch_classifies` — for every buffer of length below `2^32` and every non-empty string
  the search returns, and its result says which start positions are still alive.
* `partialSearch_iff` — when it returns which result, and what it reads of the buffer.
-/

set_option autoImplicit false

namespace SmartRoutine

open Pattern

inductive PartialSearchResult where
  | Match
  | PartialMatch
  | NotMatch
  deriving DecidableEq, Repr

/-- Where the two loops of `partial_search` stand. -/
inductive SearchState where
  /-- Head of the outer loop. -/
  | outer (i : Nat)
  /-- Head of the inner loop. -/
  | inner (i j testI : Nat)
  | done (result : PartialSearchResult × Nat)
  deriving DecidableEq, Repr

/-- `x++` on `unsigned int`. -/
def succ32 (x : Nat) : Nat := (x + 1) % 2 ^ 32

/-- One turn of the loop the search stands in. -/
def searchStep (buf : Nat → UInt8) (len : Nat) (str : List UInt8) : SearchState → SearchState
  | .outer i => if i < len then .inner i 0 i else .done (.NotMatch, 0)
  | .inner i j testI =>
    if h : j < str.length then
      if buf testI = str[j] then
        if j = str.length - 1 then .done (.Match, i)
        else if testI = len - 1 then .done (.PartialMatch, i)
        else .inner i (succ32 j) (succ32 testI)
      else .outer (succ32 i)
    else .outer (succ32 i)
  | .done result => .done result

/-- More turns than the search takes if it returns at all. -/
def searchTurns (len n : Nat) : Nat := (len + 1) * (n + 2)

/-- `partial_search`; `none` if it never returns. -/
def partialSearch (buf : Nat → UInt8) (len : Nat) (str : List UInt8) : Option (PartialSearchResult × Nat) :=
  match (searchStep buf len str)^[searchTurns len str.length] (.outer 0) with
  | .done result => some result
  | _ => none

/-! ## What the result means -/

/-- The first alive position of the text and whether the pattern fits there. -/
def Classifies (p xs : List UInt8) : PartialSearchResult × Nat → Prop
  | (.Match, i) => Skipped p xs i ∧ OccursAt p xs i
  | (.PartialMatch, i) => i < xs.length ∧ Skipped p xs i ∧ Alive p xs i ∧ ¬ OccursAt p xs i
  | (.NotMatch, i) => i = 0 ∧ Skipped p xs xs.length

/-- What holds at the head of each loop. -/
def SearchInv (buf : Nat → UInt8) (len : Nat) (str : List UInt8) : SearchState → Prop
  | .outer i => i ≤ len ∧ Skipped str (Memory.slice buf 0 len) i
  | .inner i j testI => i ≤ testI ∧ testI < len ∧ testI = i + j ∧ j < str.length ∧
      Skipped str (Memory.slice buf 0 len) i ∧ ∀ k (hk : k < str.length), k < j → buf (i + k) = str[k]
  | .done result => Classifies str (Memory.slice buf 0 len) result

/-- Turns left, at most. -/
def searchVariant (len n : Nat) : SearchState → Nat
  | .outer i => (len - i) * (n + 2) + 1
  | .inner i j _ => (len - i) * (n + 2) - j
  | .done _ => 0

def SearchState.IsDone : SearchState → Prop
  | .done _ => True
  | _ => False

/-! ## One turn -/

/-- A turn of the inner loop. -/
inductive SearchTurn (buf : Nat → UInt8) (len : Nat) (str : List UInt8) (i j testI : Nat) :
    SearchState → Prop
  | found (hj : j < str.length) (hbyte : buf testI = str[j]) (hlast : j = str.length - 1) :
    SearchTurn buf len str i j testI (.done (.Match, i))
  | pending (hj : j < str.length) (hbyte : buf testI = str[j]) (hlast : j ≠ str.length - 1)
    (hend : testI = len - 1) :
    SearchTurn buf len str i j testI (.done (.PartialMatch, i))
  | next (hj : j < str.length) (hbyte : buf testI = str[j]) (hlast : j ≠ str.length - 1)
    (hend : testI ≠ len - 1) :
    SearchTurn buf len str i j testI (.inner i (succ32 j) (succ32 testI))
  | away (hno : ∀ hj : j < str.length, buf testI ≠ str[j]) :
    SearchTurn buf len str i j testI (.outer (succ32 i))

section

variable {buf : Nat → UInt8} {len : Nat} {str : List UInt8}

theorem succ32_of_lt {x : Nat} (h : x + 1 < 2 ^ 32) : succ32 x = x + 1 := Nat.mod_eq_of_lt h

theorem searchStep_turn (i j testI : Nat) :
    SearchTurn buf len str i j testI (searchStep buf len str (.inner i j testI)) := by
  rw [searchStep]
  split
  · rename_i hj
    split
    · rename_i hbyte
      split
      · rename_i hlast
        exact .found hj hbyte hlast
      · rename_i hlast
        split
        · rename_i hend
          exact .pending hj hbyte hlast hend
        · rename_i hend
          exact .next hj hbyte hlast hend
    · rename_i hbyte
      exact .away fun _ => hbyte
  · rename_i hj
    exact .away fun h => absurd h hj

theorem IsDone.searchStep (s : SearchState) (h : s.IsDone) : (searchStep buf len str s).IsDone := by
  cases s with
  | outer i => exact h.elim
  | inner i j testI => exact h.elim
  | done result => trivial

/-! ## The search ends -/

/-- A search that goes through the rows before `rows` in order. -/
def OnRows (str : List UInt8) (rows : Nat) : SearchState → Prop
  | .outer i => i ≤ rows
  | .inner i j _ => i < rows ∧ j ≤ str.length
  | .done _ => True

theorem variant_outer {rows i : Nat} :
    searchVariant rows str.length (searchStep buf len str (.outer i)) <
      searchVariant rows str.length (.outer i) := by
  rw [searchStep]
  split
  · simp only [searchVariant]; omega
  · simp only [searchVariant]; omega

/-- A turn that leaves the indices unwrapped. -/
theorem variant_inner {rows i j testI : Nat} (h : OnRows str rows (.inner i j testI))
    (houter : (∀ hj : j < str.length, buf testI ≠ str[j]) → i + 1 < 2 ^ 32)
    (hinner : j < str.length → j ≠ str.length - 1 → testI ≠ len - 1 → j + 1 < 2 ^ 32) :
    searchVariant rows str.length (searchStep buf len str (.inner i j testI)) <
      searchVariant rows str.length (.inner i j testI) := by
  obtain ⟨hi, hj⟩ := h
  have hrows : (rows - i) * (str.length + 2) =
      (rows - (i + 1)) * (str.length + 2) + (str.length + 2) := by
    rw [← Nat.succ_mul]
    congr 1
    omega
  have hturn : SearchTurn buf len str i j testI _ := searchStep_turn i j testI
  generalize searchStep buf len str (.inner i j testI) = s' at hturn ⊢
  cases hturn with
  | found => simp only [searchVariant]; omega
  | pending => simp only [searchVariant]; omega
  | next hj' _ hlast hend =>
    rw [succ32_of_lt (hinner hj' hlast hend)]
    simp only [searchVariant]
    omega
  | away hno =>
    rw [succ32_of_lt (houter hno)]
    simp only [searchVariant]
    omega

/-- The indices of a search below `2^32` bytes. -/
def InBuffer (len : Nat) (str : List UInt8) : SearchState → Prop
  | .outer i => i ≤ len
  | .inner i j testI => j ≤ str.length ∧ testI = i + j ∧ testI < len
  | .done _ => True

theorem InBuffer.onRows {s : SearchState} (h : InBuffer len str s) : OnRows str len s := by
  match s with
  | .outer i => exact h
  | .inner i j testI =>
    obtain ⟨hj, htest, hlt⟩ := h
    exact ⟨by omega, hj⟩
  | .done result => trivial

theorem inBuffer_searchStep (hlen : len < 2 ^ 32) (s : SearchState) (h : InBuffer len str s) :
    InBuffer len str (searchStep buf len str s) := by
  match s with
  | .outer i =>
    rw [searchStep]
    split
    · rename_i hi
      exact ⟨Nat.zero_le _, rfl, hi⟩
    · trivial
  | .inner i j testI =>
    obtain ⟨hj, htest, hlt⟩ := h
    have hturn : SearchTurn buf len str i j testI _ := searchStep_turn i j testI
    generalize searchStep buf len str (.inner i j testI) = s' at hturn
    cases hturn with
    | found => trivial
    | pending => trivial
    | next hj' _ hlast hend =>
      rw [succ32_of_lt (by omega), succ32_of_lt (by omega)]
      exact ⟨hj', by omega, by omega⟩
    | away =>
      rw [succ32_of_lt (by omega)]
      show i + 1 ≤ len
      omega
  | .done result => trivial

/-- **Below `2^32` bytes the search ends.** -/
theorem isDone_of_lt (buf : Nat → UInt8) (str : List UInt8) (hlen : len < 2 ^ 32) :
    ((searchStep buf len str)^[searchTurns len str.length] (.outer 0)).IsDone := by
  have hdec (s : SearchState) (h : InBuffer len str s) (hd : ¬ s.IsDone) :
      searchVariant len str.length (searchStep buf len str s) < searchVariant len str.length s := by
    match s with
    | .outer i => exact variant_outer
    | .inner i j testI =>
      obtain ⟨hj, htest, hlt⟩ := h
      exact variant_inner (InBuffer.onRows ⟨hj, htest, hlt⟩) (fun _ => by omega)
        fun _ _ _ => by omega
    | .done result => exact absurd trivial hd
  have hturns : searchVariant len str.length (.outer 0) ≤ searchTurns len str.length := by
    simp only [searchVariant, searchTurns, Nat.sub_zero, Nat.succ_mul]
    omega
  have hinit : InBuffer len str (.outer 0) := Nat.zero_le len
  exact (Transition.iterate_of_variant (inBuffer_searchStep hlen) IsDone.searchStep hdec _ _ hinit
    hturns).2

/-! ## What the turns keep -/

theorem alive_slice {i : Nat} : Alive str (Memory.slice buf 0 len) i ↔
    ∀ k (hk : k < str.length), i + k < len → buf (i + k) = str[k] := by
  unfold Alive
  constructor
  · intro h k hk hx
    have := h k hk (by rwa [Memory.length_slice])
    rwa [Memory.getElem_slice, Nat.zero_add] at this
  · intro h k hk hx
    rw [Memory.length_slice] at hx
    rw [Memory.getElem_slice, Nat.zero_add]
    exact h k hk hx

/-- **Each turn keeps what is known about the positions passed.** -/
theorem searchStep_inv (hlen : len < 2 ^ 32) (hstr : str ≠ []) (s : SearchState)
    (h : SearchInv buf len str s) : SearchInv buf len str (searchStep buf len str s) := by
  have hpos : 0 < str.length := List.length_pos_iff.2 hstr
  match s with
  | .outer i =>
    obtain ⟨hi, hskip⟩ := h
    rw [searchStep]
    split
    · rename_i hlt
      exact ⟨Nat.le_refl _, hlt, rfl, hpos, hskip, fun k _ hk => by omega⟩
    · have hend : i = len := by omega
      refine ⟨rfl, ?_⟩
      rw [Memory.length_slice]
      exact hend ▸ hskip
  | .inner i j testI =>
    obtain ⟨hle, ht, htest, hj, hskip, heq⟩ := h
    -- the first `j + 1` bytes agree
    have hupto (hbyte : buf testI = str[j]) :
        ∀ k (hk : k < str.length), k ≤ j → buf (i + k) = str[k] := by
      intro k hk hkj
      by_cases e : k = j
      · subst e; rw [← htest]; exact hbyte
      · exact heq k hk (by omega)
    have hturn : SearchTurn buf len str i j testI _ := searchStep_turn i j testI
    generalize searchStep buf len str (.inner i j testI) = s' at hturn
    cases hturn with
    | found _ hbyte hlast =>
      refine ⟨hskip, ?_, alive_slice.2 fun k hk _ => hupto hbyte k hk (by omega)⟩
      rw [Memory.length_slice]
      omega
    | pending _ hbyte hlast hend =>
      refine ⟨?_, hskip, alive_slice.2 fun k hk hx => hupto hbyte k hk (by omega), fun ho => ?_⟩
      · rw [Memory.length_slice]
        omega
      · have := ho.1
        rw [Memory.length_slice] at this
        omega
    | next _ hbyte hlast hend =>
      rw [succ32_of_lt (by omega), succ32_of_lt (by omega)]
      exact ⟨by omega, by omega, by omega, by omega, hskip,
        fun k hk hkj => hupto hbyte k hk (by omega)⟩
    | away hno =>
      rw [succ32_of_lt (by omega)]
      refine ⟨by omega, hskip.succ fun ha => hno hj ?_⟩
      rw [htest]
      exact alive_slice.1 ha j hj (by omega)
  | .done result => exact h

/-- **The search returns, and classifies the buffer.** -/
theorem partialSearch_classifies (buf : Nat → UInt8) (hlen : len < 2 ^ 32) (hstr : str ≠ []) :
    ∃ r, partialSearch buf len str = some r ∧ Classifies str (Memory.slice buf 0 len) r := by
  have hinit : SearchInv buf len str (.outer 0) := ⟨Nat.zero_le _, skipped_zero _ _⟩
  have hinv := Transition.iterate_keeps (searchStep_inv hlen hstr)
    (searchTurns len str.length) _ hinit
  have hdone := isDone_of_lt buf str hlen
  unfold partialSearch
  cases hs : (searchStep buf len str)^[searchTurns len str.length] (.outer 0) with
  | outer i => rw [hs] at hdone; exact hdone.elim
  | inner i j testI => rw [hs] at hdone; exact hdone.elim
  | done r => rw [hs] at hinv; exact ⟨r, rfl, hinv⟩

/-! ## Exactly which result -/

/-- The index into the buffer that the next turn compares. -/
def SearchState.reads (str : List UInt8) : SearchState → Option Nat
  | .inner _ j testI => if j < str.length then some testI else none
  | _ => none

/-- The inner index stays inside the buffer at every turn. -/
theorem searchStep_reads (buf : Nat → UInt8) (hlen : len < 2 ^ 32) (hstr : str ≠ []) (turn : Nat) :
    ∀ k ∈ ((searchStep buf len str)^[turn] (.outer 0)).reads str, k < len := by
  have hinit : SearchInv buf len str (.outer 0) := ⟨Nat.zero_le _, skipped_zero _ _⟩
  have hinv := Transition.iterate_keeps (searchStep_inv hlen hstr) turn _ hinit
  intro k hk
  cases hs : (searchStep buf len str)^[turn] (.outer 0) with
  | outer i => rw [hs] at hk; cases hk
  | inner i j testI =>
    rw [hs] at hk hinv
    obtain ⟨-, ht, -, hj, -, -⟩ := hinv
    simp only [SearchState.reads, if_pos hj, Option.mem_def, Option.some.injEq] at hk
    exact hk ▸ ht
  | done r => rw [hs] at hk; cases hk

variable {xs : List UInt8}

/-- What `partial_search` is to return: the first occurrence, else the first position from which
more text may complete one, else nothing. -/
def IsResult (p xs : List UInt8) : PartialSearchResult × Nat → Prop
  | (.Match, i) => IsLeast {k | p <+: xs.drop k} i
  | (.PartialMatch, i) => ¬ p <:+: xs ∧ IsLeast {k | PendingAt p xs k} i
  | (.NotMatch, i) => i = 0 ∧ ¬ p <:+: xs ∧ ∀ k, ¬ PendingAt p xs k

theorem Classifies.isResult {r : PartialSearchResult × Nat} (hstr : str ≠ [])
    (h : Classifies str xs r) : IsResult str xs r := by
  have hocc : ∀ k, str <+: xs.drop k → Alive str xs k := fun k hk =>
    ((prefix_drop_iff hstr).1 hk).2
  have hpend : ∀ k, PendingAt str xs k → Alive str xs k := fun k hk => (pendingAt_iff.1 hk).2.2
  match r with
  | (.Match, i) => exact h.1.isLeast hocc ((prefix_drop_iff hstr).2 h.2)
  | (.PartialMatch, i) =>
    obtain ⟨hi, hskip, ha, hno⟩ := h
    have hp : PendingAt str xs i := ((alive_iff hi).1 ha).resolve_left hno
    exact ⟨hskip.not_occurs_of_pendingAt hp, hskip.isLeast hpend hp⟩
  | (.NotMatch, i) =>
    obtain ⟨h0, hskip⟩ := h
    have hpos := List.length_pos_iff.2 hstr
    exact ⟨h0, hskip.not_occurs (by omega), fun k hk =>
      hskip k (pendingAt_iff.1 hk).1 (hpend k hk)⟩

/-- An occurrence excludes the two other results. -/
theorem not_infix_of_isLeast {i : Nat} (hno : ¬ str <:+: xs)
    (h : IsLeast {k | str <+: xs.drop k} i) : False :=
  hno (List.IsInfix.trans h.1.isInfix (List.drop_suffix i xs).isInfix)

/-- There is one result only. -/
theorem IsResult.unique {r r' : PartialSearchResult × Nat} (h : IsResult str xs r)
    (h' : IsResult str xs r') : r = r' := by
  match r, r' with
  | (.Match, i), (.Match, j) => rw [IsLeast.unique h h']
  | (.Match, i), (.PartialMatch, j) => exact (not_infix_of_isLeast h'.1 h).elim
  | (.Match, i), (.NotMatch, j) => exact (not_infix_of_isLeast h'.2.1 h).elim
  | (.PartialMatch, i), (.Match, j) => exact (not_infix_of_isLeast h.1 h').elim
  | (.PartialMatch, i), (.PartialMatch, j) => rw [IsLeast.unique h.2 h'.2]
  | (.PartialMatch, i), (.NotMatch, j) => exact (h'.2.2 i h.2.1).elim
  | (.NotMatch, i), (.Match, j) => exact (not_infix_of_isLeast h.2.1 h').elim
  | (.NotMatch, i), (.PartialMatch, j) => exact (h.2.2 j h'.2.1).elim
  | (.NotMatch, i), (.NotMatch, j) => rw [h.1, h'.1]

/-- **`partial_search` classifies the buffer.**  It reads indices of the buffer only, and each of
its results is returned exactly when it is the right one. -/
theorem partialSearch_iff (buf : Nat → UInt8) (len : Nat) (str : List UInt8) (hlen : len < 2 ^ 32)
    (hstr : str ≠ []) :
    (∀ turn, ∀ k ∈ ((searchStep buf len str)^[turn] (.outer 0)).reads str, k < len) ∧
      ∃ r, partialSearch buf len str = some r ∧
        (∀ i, r = (.Match, i) ↔ IsLeast {k | str <+: (Memory.slice buf 0 len).drop k} i) ∧
        (∀ i, r = (.PartialMatch, i) ↔ ¬ str <:+: Memory.slice buf 0 len ∧
          IsLeast {k | PendingAt str (Memory.slice buf 0 len) k} i) ∧
        (r = (.NotMatch, 0) ↔ ¬ str <:+: Memory.slice buf 0 len ∧
          ∀ k, ¬ PendingAt str (Memory.slice buf 0 len) k) := by
  obtain ⟨r, hr, hc⟩ := partialSearch_classifies buf hlen hstr
  have hres : IsResult str (Memory.slice buf 0 len) r := hc.isResult hstr
  have hiff : ∀ r', r = r' ↔ IsResult str (Memory.slice buf 0 len) r' := fun r' =>
    ⟨fun e => e ▸ hres, hres.unique⟩
  refine ⟨searchStep_reads buf hlen hstr, r, hr, fun i => hiff (.Match, i),
    fun i => hiff (.PartialMatch, i), ?_⟩
  rw [hiff (.NotMatch, 0), IsResult]
  exact and_iff_right rfl

/-- The text `aa` may still become `aaa`. -/
theorem partialSearch_iff_aaa :
    (2 < 2 ^ 32 ∧ [97, 97, 97] ≠ ([] : List UInt8)) ∧
      ∃ r, partialSearch (fun _ => 97) 2 [97, 97, 97] = some r ∧
        (r = (.PartialMatch, 0) ↔ ¬ [97, 97, 97] <:+: Memory.slice (fun _ => (97 : UInt8)) 0 2 ∧
          IsLeast {k | PendingAt [97, 97, 97] (Memory.slice (fun _ => (97 : UInt8)) 0 2) k} 0) := by
  obtain ⟨-, r, hr, -, hp, -⟩ :=
    partialSearch_iff (fun _ => 97) 2 [97, 97, 97] (by decide) (by decide)
  exact ⟨⟨by decide, by decide⟩, r, hr, hp 0⟩

end

end SmartRoutine
