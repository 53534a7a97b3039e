import Mathlib.Data.List.Infix

/-!
# Delimited messages

A message ends with the delimiter and has it nowhere before.

* `firstMessage` — the length of the first message of a text, if it has one.
* `Framed` — a stream cut into the messages that are complete and a rest that has none.
* `Framed.grow`, `Framed.grow_iff`, `Framed.not_lose` — what a piece more of the stream does.
-/

set_option autoImplicit false

namespace Delimited

variable {α : Type*}

def IsMessage (delim m : List α) : Prop := delim <:+ m ∧ ∀ k < m.length, ¬ delim <:+ m.take k

/-- The stream is these messages, in this order, and a rest in which no message is complete. -/
structure Framed (delim stream : List α) (messages : List (List α)) (rest : List α) : Prop where
  order : messages.flatten ++ rest = stream
  message : ∀ m ∈ messages, IsMessage delim m
  rest_open : ¬ delim <:+: rest

section

variable [DecidableEq α]

def firstMessage (delim text : List α) : Option Nat :=
  (List.range (text.length + 1)).find? fun k => delim.isSuffixOf (text.take k)

/-- At most one message is complete in the text. -/
def single (delim text : List α) : Bool :=
  match firstMessage delim text with
  | some k => (firstMessage delim (text.drop k)).isNone
  | none => true

variable {delim text stream rest ys : List α} {messages : List (List α)} {n : Nat}

omit [DecidableEq α] in
theorem infix_iff_suffix_take : delim <:+: text ↔ ∃ k ≤ text.length, delim <:+ text.take k := by
  rw [List.infix_iff_suffix_prefix]
  constructor
  · rintro ⟨t, hsuffix, hprefix⟩
    refine ⟨t.length, hprefix.length_le, ?_⟩
    rw [← List.prefix_iff_eq_take.1 hprefix]
    exact hsuffix
  · rintro ⟨k, -, hsuffix⟩
    exact ⟨text.take k, hsuffix, List.take_prefix k text⟩

theorem firstMessage_eq_none : firstMessage delim text = none ↔ ¬ delim <:+: text := by
  unfold firstMessage
  rw [List.find?_eq_none, infix_iff_suffix_take]
  simp only [List.mem_range, List.isSuffixOf_iff_suffix, Nat.lt_succ_iff, not_exists, not_and]

theorem firstMessage_eq_some : firstMessage delim text = some n ↔
    n ≤ text.length ∧ delim <:+ text.take n ∧ ∀ k < n, ¬ delim <:+ text.take k := by
  unfold firstMessage
  rw [List.find?_range_eq_some]
  simp only [List.mem_range, List.isSuffixOf_iff_suffix, Nat.lt_succ_iff, Bool.not_eq_true',
    ← Bool.not_eq_true]
  constructor
  · rintro ⟨hsuffix, hle, hfirst⟩
    exact ⟨hle, hsuffix, hfirst⟩
  · rintro ⟨hle, hsuffix, hfirst⟩
    exact ⟨hsuffix, hle, hfirst⟩

/-- **What `firstMessage` measures is a message.** -/
theorem isMessage_take (h : firstMessage delim text = some n) : IsMessage delim (text.take n) := by
  obtain ⟨hle, hsuffix, hfirst⟩ := firstMessage_eq_some.1 h
  refine ⟨hsuffix, fun k hk => ?_⟩
  rw [List.length_take_of_le hle] at hk
  rw [List.take_take, Nat.min_eq_left (Nat.le_of_lt hk)]
  exact hfirst k hk

omit [DecidableEq α] in
theorem framed_nil (h : ¬ delim <:+: text) : Framed delim text [] text :=
  ⟨rfl, fun _ hm => absurd hm List.not_mem_nil, h⟩

omit [DecidableEq α] in
/-- A piece that completes no message. -/
theorem Framed.grow (h : Framed delim stream messages rest) (hopen : ¬ delim <:+: rest ++ ys) :
    Framed delim (stream ++ ys) messages (rest ++ ys) := by
  refine ⟨?_, h.message, hopen⟩
  rw [← List.append_assoc, h.order]

/-- **A piece that completes a message**: taking the first one frames the stream exactly when no
second one is complete. -/
theorem Framed.grow_iff (h : Framed delim stream messages rest)
    (hfirst : firstMessage delim (rest ++ ys) = some n) :
    Framed delim (stream ++ ys) (messages ++ [(rest ++ ys).take n]) ((rest ++ ys).drop n) ↔
      single delim (rest ++ ys) = true := by
  unfold single
  rw [hfirst, Option.isNone_iff_eq_none, firstMessage_eq_none]
  constructor
  · exact fun hnext => hnext.rest_open
  · intro hopen
    refine ⟨?_, fun m hm => ?_, hopen⟩
    · rw [List.flatten_append, List.flatten_singleton, List.append_assoc, List.take_append_drop,
        ← List.append_assoc, h.order]
    · obtain hm | rfl := (List.mem_append.1 hm).imp id List.mem_singleton.1
      · exact h.message m hm
      · exact isMessage_take hfirst

omit [DecidableEq α] in
/-- A piece that is dropped. -/
theorem Framed.not_lose (h : Framed delim stream messages rest) (hne : ys ≠ []) :
    ¬ Framed delim (stream ++ ys) messages rest := by
  intro hlost
  have horder := hlost.order
  rw [h.order] at horder
  exact hne (List.self_eq_append_right.1 horder)

end

end Delimited
