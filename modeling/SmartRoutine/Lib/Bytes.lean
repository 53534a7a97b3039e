import Mathlib.Algebra.Order.Ring.Nat
import Mathlib.Data.List.OfFn
import SmartRoutine.Lib.Memory

/-!
# Fields of an object

An object is a flat memory of bytes, and a field of it a range that holds bytes or a number, least
significant byte first.

* `load_put` — what was put into a field is loaded from it.
* `slice_store_apart`, `slice_move_apart`, `load_put_apart` — writing a field leaves the others
  alone.
-/

set_option autoImplicit false

namespace Memory

/-- The number with these bytes. -/
def ofBytes (bs : List UInt8) : Nat := bs.foldr (fun b n => b.toNat + 256 * n) 0

/-- The lowest `len` bytes of a number. -/
def toBytes (len n : Nat) : List UInt8 := List.ofFn fun i : Fin len => UInt8.ofNat (n / 256 ^ i.val)

def load (m : Nat → UInt8) (off len : Nat) : Nat := ofBytes (slice m off len)

def put (m : Nat → UInt8) (off len n : Nat) : Nat → UInt8 := store m off (toBytes len n)

/-- The ranges have no cell in common. -/
def Apart (o len o' len' : Nat) : Prop := o + len ≤ o' ∨ o' + len' ≤ o

instance Apart.decidable (o len o' len' : Nat) : Decidable (Apart o len o' len') :=
  inferInstanceAs (Decidable (_ ∨ _))

theorem Apart.symm {o len o' len' : Nat} (h : Apart o len o' len') : Apart o' len' o len := Or.symm h

/-- What is apart from a range is apart from every part of it. -/
theorem Apart.within {o len o' len' p n : Nat} (h : Apart o len o' len') (hlow : o' ≤ p)
    (hhigh : p + n ≤ o' + len') : Apart o len p n := by
  rcases h with h | h
  · exact Or.inl (by omega)
  · exact Or.inr (by omega)

@[simp] theorem length_toBytes (len n : Nat) : (toBytes len n).length = len := List.length_ofFn ..

theorem ofBytes_toBytes (len n : Nat) : ofBytes (toBytes len n) = n % 256 ^ len := by
  induction len generalizing n with
  | zero =>
    rw [pow_zero, Nat.mod_one]
    rfl
  | succ len ih =>
    have htail : toBytes (len + 1) n = UInt8.ofNat n :: toBytes len (n / 256) := by
      rw [toBytes, List.ofFn_succ]
      congr 1
      · rw [Fin.val_zero, pow_zero, Nat.div_one]
      · refine congrArg List.ofFn (funext fun i => ?_)
        rw [Fin.val_succ, pow_succ', Nat.div_div_eq_div_mul]
    have hcons : ofBytes (UInt8.ofNat n :: toBytes len (n / 256)) =
        (UInt8.ofNat n).toNat + 256 * ofBytes (toBytes len (n / 256)) := rfl
    rw [htail, hcons, ih, pow_succ', Nat.mod_mul, UInt8.toNat_ofNat']

section

variable (m : Nat → UInt8) {o len o' len' n : Nat} {xs : List UInt8}

/-- The lowest byte comes first. -/
theorem load_mod (o len : Nat) : load m o (len + 1) % 256 = (m o).toNat := by
  have hcons : load m o (len + 1) = (m o).toNat + 256 * ofBytes (slice m (o + 1) len) := by
    rw [load, Nat.add_comm, slice_add]
    rfl
  have hlt := (m o).toNat_lt
  rw [hcons]
  omega

theorem slice_put (o len n : Nat) : slice (put m o len n) o len = toBytes len n := by
  have := slice_store m o (toBytes len n)
  rwa [length_toBytes] at this

/-- **What was put into a field is loaded from it.** -/
theorem load_put (hn : n < 256 ^ len) : load (put m o len n) o len = n := by
  rw [load, slice_put, ofBytes_toBytes, Nat.mod_eq_of_lt hn]

theorem slice_store_apart (h : Apart o len o' xs.length) :
    slice (store m o' xs) o len = slice m o len := by
  refine slice_congr fun i hi => store_of_not_mem m o' xs ?_
  rcases h with h | h <;> omega

theorem slice_put_apart (h : Apart o len o' len') :
    slice (put m o' len' n) o len = slice m o len :=
  slice_store_apart m (by rwa [length_toBytes])

theorem slice_move_apart {src : Nat} (h : Apart o len o' n) :
    slice (move m o' src n) o len = slice m o len := by
  refine slice_congr fun i hi => ?_
  have : ¬ (o' ≤ o + i ∧ o + i < o' + n) := by rcases h with h | h <;> omega
  rw [move, if_neg this]

theorem load_store_apart (h : Apart o len o' xs.length) : load (store m o' xs) o len = load m o len := by
  rw [load, slice_store_apart m h, load]

theorem load_put_apart (h : Apart o len o' len') : load (put m o' len' n) o len = load m o len := by
  rw [load, slice_put_apart m h, load]

theorem load_move_apart {src : Nat} (h : Apart o len o' n) :
    load (move m o' src n) o len = load m o len := by
  rw [load, slice_move_apart m h, load]

end

end Memory
