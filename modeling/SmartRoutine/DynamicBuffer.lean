import Mathlib.Algebra.Ring.Nat
import SmartRoutine.Lib.Memory

/-!
# The dynamic buffer

`DynamicBuffer` as the code computes it: indices and sizes are 64-bit unsigned, the block is a
flat memory that is never bound-checked, and `accesses` is a history variable that records every
range `memcpy` and `memmove` read or write in a block together with the size of that block.

* `contents` — the readable section, what a user of the buffer sees.
* `append_contents`, `consume_contents` — `append` adds at the end or changes
  nothing, `consume` takes from the front, as long as no index overflows (`InRange`).
-/

set_option autoImplicit false

namespace SmartRoutine

/-- `CodeVal` of an `ErrorCode`. -/
inductive CodeVal where
  | success
  | invalidArgument
  | insufficientResources
  | outOfMemory
  | permissionDenied
  | addressInUse
  | connectionAborted
  | exceedBufferBound
  deriving DecidableEq, Repr

/-- `ErrorCode::fail`, also its conversion to `bool`. -/
def CodeVal.fail (v : CodeVal) : Bool := v ≠ .success

/-- `a + b` on `size_t`. -/
@[irreducible] def add64 (a b : Nat) : Nat := (a + b) % 2 ^ 64

/-- `a - b` on `size_t`. -/
@[irreducible] def sub64 (a b : Nat) : Nat := (a + 2 ^ 64 - b) % 2 ^ 64

theorem add64_of_lt {a b : Nat} (h : a + b < 2 ^ 64) : add64 a b = a + b := by
  rw [add64, Nat.mod_eq_of_lt h]

theorem sub64_of_le {a b : Nat} (ha : a < 2 ^ 64) (h : b ≤ a) : sub64 a b = a - b := by
  unfold sub64; omega

/-- A range of bytes read or written in a block of the given size. -/
structure Access where
  off : Nat
  len : Nat
  block : Nat
  deriving DecidableEq, Repr

/-- `ConstBuffer` into the block: the index of its first byte, and its size. -/
structure ConstBuffer where
  data : Nat
  size : Nat
  deriving DecidableEq, Repr

structure DynamicBuffer where
  accesses : List Access
  /-- The bytes of `buffer_`. -/
  mem : Nat → UInt8
  /-- Size of the block last obtained from `malloc`. -/
  block : Nat
  readIndex : Nat
  writeIndex : Nat
  capacity : Nat
  maxCapacity : Nat

/-- The flag `move_forward_threshold`, and what a fresh block holds. -/
structure BufferEnv where
  moveForwardThreshold : Nat
  uninit : Nat → UInt8

namespace DynamicBuffer

/-- The default threshold, with blocks that come zeroed. -/
def defaultEnv : BufferEnv := ⟨1024 * 1024, fun _ => 0⟩

def new (env : BufferEnv) (maxCapacity initCapacity : Nat) : DynamicBuffer where
  accesses := []
  mem := env.uninit
  block := initCapacity
  readIndex := 0
  writeIndex := 0
  capacity := initCapacity
  maxCapacity := maxCapacity

def readableBytes (b : DynamicBuffer) : Nat := sub64 b.writeIndex b.readIndex

def writableBytes (b : DynamicBuffer) : Nat := sub64 b.capacity b.writeIndex

def prependableBytes (b : DynamicBuffer) : Nat := b.readIndex

def maxWritableBytes (env : BufferEnv) (b : DynamicBuffer) : Nat :=
  let prependableLength :=
    if b.prependableBytes ≥ env.moveForwardThreshold then b.prependableBytes else 0
  add64 (add64 (sub64 b.maxCapacity b.capacity) b.writableBytes) prependableLength

def readBuffer (b : DynamicBuffer) : ConstBuffer := ⟨b.readIndex, b.readableBytes⟩

/-- Record an access to the current block. -/
def touch (b : DynamicBuffer) (off len : Nat) : DynamicBuffer :=
  { b with accesses := b.accesses ++ [⟨off, len, b.block⟩] }

def moveForward (b : DynamicBuffer) : DynamicBuffer :=
  let prependableLength := b.prependableBytes
  let n := sub64 b.capacity prependableLength
  let b := (b.touch b.readIndex n).touch 0 n
  { b with
    mem := Memory.move b.mem 0 b.readIndex n
    writeIndex := sub64 b.writeIndex prependableLength
    readIndex := 0
    capacity := add64 b.capacity prependableLength }

def expandCapacity (env : BufferEnv) (b : DynamicBuffer) : DynamicBuffer :=
  let newCapacity :=
    if b.capacity * 2 % 2 ^ 64 > b.maxCapacity then b.maxCapacity else b.capacity * 2 % 2 ^ 64
  let b := b.touch 0 b.capacity
  { { b with block := newCapacity }.touch 0 b.capacity with
    mem := Memory.store env.uninit 0 (Memory.slice b.mem 0 b.capacity)
    capacity := newCapacity }

/-- `memcpy` to `write_section_start()`. -/
def copyIn (b : DynamicBuffer) (data : List UInt8) : DynamicBuffer :=
  { b.touch b.writeIndex data.length with
    mem := Memory.store b.mem b.writeIndex data
    writeIndex := add64 b.writeIndex data.length }

/-- The buffer and `ec` after the call; `ec` is written on failure only. -/
def append (env : BufferEnv) (b : DynamicBuffer) (data : List UInt8) (ec : CodeVal) :
    DynamicBuffer × CodeVal :=
  if data.length > b.writableBytes then
    if data.length > b.maxWritableBytes env then (b, .exceedBufferBound)
    else
      let b := b.moveForward
      let b := if data.length > b.maxWritableBytes env then b.expandCapacity env else b
      (b.copyIn data, ec)
  else (b.copyIn data, ec)

/-- The buffer, `ec` and the bytes delivered. -/
def consume (b : DynamicBuffer) (dataLength : Nat) (ec : CodeVal) :
    DynamicBuffer × CodeVal × List UInt8 :=
  if dataLength > b.readableBytes then (b, .exceedBufferBound, [])
  else
    ({ b.touch b.readIndex dataLength with readIndex := add64 b.readIndex dataLength }, ec,
      Memory.slice b.mem b.readIndex dataLength)

/-- `append` takes `n` bytes. -/
def hasRoom (env : BufferEnv) (b : DynamicBuffer) (n : Nat) : Bool :=
  n ≤ b.writableBytes || n ≤ b.maxWritableBytes env

section

variable (env : BufferEnv) (b : DynamicBuffer) (data : List UInt8)

@[simp] theorem moveForward_readIndex : b.moveForward.readIndex = 0 := by simp only [moveForward]

@[simp] theorem moveForward_writeIndex :
    b.moveForward.writeIndex = sub64 b.writeIndex b.readIndex := by
  simp only [moveForward, touch, prependableBytes]

@[simp] theorem moveForward_capacity : b.moveForward.capacity = add64 b.capacity b.readIndex := by
  simp only [moveForward, touch, prependableBytes]

@[simp] theorem moveForward_maxCapacity : b.moveForward.maxCapacity = b.maxCapacity := by
  simp only [moveForward, touch]

@[simp] theorem moveForward_block : b.moveForward.block = b.block := by
  simp only [moveForward, touch]

@[simp] theorem moveForward_mem : b.moveForward.mem =
    Memory.move b.mem 0 b.readIndex (sub64 b.capacity b.readIndex) := by
  simp only [moveForward, touch, prependableBytes]

@[simp] theorem copyIn_readIndex : (b.copyIn data).readIndex = b.readIndex := by
  simp only [copyIn, touch]

@[simp] theorem copyIn_writeIndex : (b.copyIn data).writeIndex = add64 b.writeIndex data.length := by
  simp only [copyIn]

@[simp] theorem copyIn_capacity : (b.copyIn data).capacity = b.capacity := by
  simp only [copyIn, touch]

@[simp] theorem copyIn_maxCapacity : (b.copyIn data).maxCapacity = b.maxCapacity := by
  simp only [copyIn, touch]

@[simp] theorem copyIn_block : (b.copyIn data).block = b.block := by simp only [copyIn, touch]

@[simp] theorem copyIn_mem : (b.copyIn data).mem = Memory.store b.mem b.writeIndex data := by
  simp only [copyIn]

@[simp] theorem expandCapacity_readIndex : (b.expandCapacity env).readIndex = b.readIndex := by
  simp only [expandCapacity, touch]

@[simp] theorem expandCapacity_writeIndex : (b.expandCapacity env).writeIndex = b.writeIndex := by
  simp only [expandCapacity, touch]

@[simp] theorem expandCapacity_maxCapacity : (b.expandCapacity env).maxCapacity = b.maxCapacity := by
  simp only [expandCapacity, touch]

@[simp] theorem expandCapacity_mem : (b.expandCapacity env).mem =
    Memory.store env.uninit 0 (Memory.slice b.mem 0 b.capacity) := by
  simp only [expandCapacity, touch]

theorem expandCapacity_capacity : (b.expandCapacity env).capacity =
    if b.capacity * 2 % 2 ^ 64 > b.maxCapacity then b.maxCapacity else b.capacity * 2 % 2 ^ 64 := by
  simp only [expandCapacity, touch]

/-- `max_writable_bytes()` with the prependable bytes that count as `p`. -/
theorem maxWritableBytes_eq {p : Nat}
    (hp : p = if b.readIndex ≥ env.moveForwardThreshold then b.readIndex else 0) :
    b.maxWritableBytes env =
      add64 (add64 (sub64 b.maxCapacity b.capacity) (sub64 b.capacity b.writeIndex)) p := by
  rw [hp]; rfl

theorem hasRoom_zero : b.hasRoom env 0 = true := by
  unfold hasRoom
  rw [decide_eq_true (Nat.zero_le _), Bool.true_or]

/-- What `append` tests. -/
theorem append_ec :
    (b.append env data .success).2 =
      if b.hasRoom env data.length then .success else .exceedBufferBound := by
  unfold append hasRoom
  by_cases hfull : data.length > b.writableBytes
  · rw [if_pos hfull, decide_eq_false (by omega), Bool.false_or]
    by_cases hmax : data.length > b.maxWritableBytes env
    · rw [if_pos hmax, decide_eq_false (by omega), if_neg Bool.false_ne_true]
    · rw [if_neg hmax, decide_eq_true (by omega), if_pos rfl]
  · rw [if_neg hfull, decide_eq_true (by omega), Bool.true_or, if_pos rfl]

end

end DynamicBuffer

inductive BufferOp where
  | append (data : List UInt8)
  | consume (dataLength : Nat)
  deriving DecidableEq, Repr

/-- One call on the buffer. -/
def DynamicBuffer.step (env : BufferEnv) (b : DynamicBuffer) : BufferOp → Option DynamicBuffer
  | .append data => some (b.append env data .success).1
  | .consume dataLength => some (b.consume dataLength .success).1

/-! ## The readable section -/

namespace DynamicBuffer

/-- The bytes of `read_buffer()`. -/
def contents (b : DynamicBuffer) : List UInt8 := Memory.slice b.mem b.readBuffer.data b.readBuffer.size

/-- The buffer was made with capacity `i` and `a` bytes have been appended so far. -/
structure InRange (b : DynamicBuffer) (i a : Nat) : Prop where
  read_le : b.readIndex ≤ b.writeIndex
  write_le : b.writeIndex ≤ a
  capacity_le : b.capacity + b.writeIndex ≤ i + a
  max_lt : b.maxCapacity < 2 ^ 64

section

variable {env : BufferEnv} {b : DynamicBuffer} {i a : Nat} {data : List UInt8} {ec : CodeVal}

theorem new_inRange (env : BufferEnv) {maxCapacity : Nat} (hmax : maxCapacity < 2 ^ 64) (i : Nat) :
    InRange (new env maxCapacity i) i 0 :=
  ⟨Nat.le_refl _, Nat.le_refl _, Nat.le_refl _, hmax⟩

theorem InRange.readableBytes (h : InRange b i a) (ha : a < 2 ^ 63) :
    b.readableBytes = b.writeIndex - b.readIndex := by
  have := h.read_le
  have := h.write_le
  exact sub64_of_le (by omega) h.read_le

theorem InRange.contents (h : InRange b i a) (ha : a < 2 ^ 63) :
    b.contents = Memory.slice b.mem b.readIndex (b.writeIndex - b.readIndex) := by
  rw [DynamicBuffer.contents, readBuffer, h.readableBytes ha]

theorem InRange.length_contents (h : InRange b i a) (ha : a < 2 ^ 63) :
    b.contents.length = b.writeIndex - b.readIndex := by
  rw [h.contents ha, Memory.length_slice]

/-- Copying in at the end of the readable section. -/
theorem copyIn_contents (data : List UInt8) (h : InRange b i a) (ha : a + data.length < 2 ^ 63) :
    InRange (b.copyIn data) i (a + data.length) ∧ (b.copyIn data).contents = b.contents ++ data := by
  obtain ⟨hr, hw, hc, hm⟩ := h
  have hadd : add64 b.writeIndex data.length = b.writeIndex + data.length := add64_of_lt (by omega)
  have h' : InRange (b.copyIn data) i (a + data.length) := by
    refine ⟨?_, ?_, ?_, hm⟩ <;>
      simp only [copyIn_readIndex, copyIn_writeIndex, copyIn_capacity, hadd] <;> omega
  refine ⟨h', ?_⟩
  rw [h'.contents ha, InRange.contents ⟨hr, hw, hc, hm⟩ (by omega), copyIn_mem, copyIn_readIndex,
    copyIn_writeIndex, hadd,
    show b.writeIndex + data.length - b.readIndex = (b.writeIndex - b.readIndex) + data.length by omega,
    Memory.slice_add, Memory.slice_store_before _ _ _ (by omega), Nat.add_sub_cancel' hr,
    Memory.slice_store]

/-- Moving the readable section to the front does not change it. -/
theorem moveForward_contents (h : InRange b i a) (hi : i < 2 ^ 63) (ha : a < 2 ^ 63)
    (hcap : b.writeIndex ≤ b.capacity) :
    InRange b.moveForward i a ∧ b.moveForward.contents = b.contents ∧
      b.moveForward.writeIndex = b.writeIndex - b.readIndex ∧
      b.moveForward.capacity = b.capacity + b.readIndex := by
  obtain ⟨hr, hw, hc, hm⟩ := h
  have hwrite : b.moveForward.writeIndex = b.writeIndex - b.readIndex := by
    rw [moveForward_writeIndex, sub64_of_le (by omega) hr]
  have hcapacity : b.moveForward.capacity = b.capacity + b.readIndex := by
    rw [moveForward_capacity, add64_of_lt (by omega)]
  have h' : InRange b.moveForward i a := by
    refine ⟨?_, ?_, ?_, hm⟩ <;> simp only [hwrite, hcapacity, moveForward_readIndex] <;> omega
  refine ⟨h', ?_, hwrite, hcapacity⟩
  have hn : sub64 b.capacity b.readIndex = b.capacity - b.readIndex := sub64_of_le (by omega) (by omega)
  have hmove := Memory.slice_move b.mem 0 b.readIndex (k := 0)
    (show 0 + (b.writeIndex - b.readIndex) ≤ b.capacity - b.readIndex by omega)
  rw [h'.contents ha, InRange.contents ⟨hr, hw, hc, hm⟩ ha, moveForward_readIndex, hwrite, Nat.sub_zero,
    moveForward_mem, hn]
  exact hmove

/-- The capacity only ever shrinks in `expand_capacity`, to a maximum that the buffer has
outgrown. -/
theorem expandCapacity_contents (env : BufferEnv) (h : InRange b i a) (ha : a < 2 ^ 63)
    (hread : b.readIndex = 0) (hcap : b.writeIndex ≤ b.capacity) (hmax : b.maxCapacity ≤ b.capacity) :
    InRange (b.expandCapacity env) i a ∧ (b.expandCapacity env).contents = b.contents := by
  obtain ⟨hr, hw, hc, hm⟩ := h
  have h' : InRange (b.expandCapacity env) i a := by
    refine ⟨hr, hw, ?_, hm⟩
    rw [expandCapacity_capacity, expandCapacity_writeIndex]
    split <;> omega
  refine ⟨h', ?_⟩
  have hlen : (Memory.slice b.mem 0 b.capacity).length = b.capacity := Memory.length_slice ..
  have hall := Memory.slice_store env.uninit 0 (Memory.slice b.mem 0 b.capacity)
  rw [hlen] at hall
  rw [h'.contents ha, InRange.contents ⟨hr, hw, hc, hm⟩ ha, expandCapacity_readIndex,
    expandCapacity_writeIndex, expandCapacity_mem, hread, Nat.sub_zero, ← Memory.take_slice _ 0 _ hcap,
    hall, Memory.take_slice _ _ _ hcap]

/-- Compaction makes at least the room promised before it, unless the buffer has outgrown its
maximum. -/
theorem maxWritableBytes_moveForward (env : BufferEnv) (hr : b.readIndex ≤ b.writeIndex)
    (hw : b.writeIndex ≤ b.capacity) (hc : b.capacity ≤ b.maxCapacity) (hm : b.maxCapacity < 2 ^ 64) :
    b.maxWritableBytes env ≤ b.moveForward.maxWritableBytes env := by
  have hold : ∀ p, p ≤ b.readIndex →
      add64 (add64 (sub64 b.maxCapacity b.capacity) (sub64 b.capacity b.writeIndex)) p =
        b.maxCapacity - b.writeIndex + p := by
    intro p hp
    simp only [add64, sub64]
    omega
  have hnew : add64 (add64 (sub64 b.maxCapacity (add64 b.capacity b.readIndex))
      (sub64 (add64 b.capacity b.readIndex) (b.writeIndex - b.readIndex))) 0 =
        b.maxCapacity - b.writeIndex + b.readIndex := by
    simp only [add64, sub64]
    omega
  rw [maxWritableBytes_eq env b.moveForward (p := 0) (by rw [moveForward_readIndex]; split <;> rfl),
    moveForward_maxCapacity, moveForward_writeIndex, moveForward_capacity, sub64_of_le (by omega) hr, hnew]
  by_cases hth : b.readIndex ≥ env.moveForwardThreshold
  · apply Nat.le_of_eq
    rw [maxWritableBytes_eq env b (p := b.readIndex) (by rw [if_pos hth]), hold _ (Nat.le_refl _)]
  · rw [maxWritableBytes_eq env b (p := 0) (by rw [if_neg hth]), hold _ (Nat.zero_le _)]
    omega

/-- **`append` adds at the end of the readable section, or changes nothing and says so.** -/
theorem append_contents (env : BufferEnv) (ec : CodeVal) (h : InRange b i a) (hi : i < 2 ^ 63)
    (ha : a + data.length < 2 ^ 63) :
    (b.append env data ec = (b, .exceedBufferBound)) ∨
      InRange (b.append env data ec).1 i (a + data.length) ∧ (b.append env data ec).2 = ec ∧
        (b.append env data ec).1.contents = b.contents ++ data := by
  unfold append
  split
  · rename_i hfull
    split
    · exact Or.inl rfl
    · rename_i hmax
      have hcap : b.writeIndex ≤ b.capacity := by
        have := h.write_le
        have := h.capacity_le
        simp only [writableBytes, sub64] at hfull
        omega
      obtain ⟨hm, hcont, hwrite, hc⟩ := moveForward_contents h hi (by omega) hcap
      refine Or.inr ?_
      dsimp only
      split
      · rename_i hgrow
        have houtgrown : b.moveForward.maxCapacity ≤ b.moveForward.capacity := by
          rw [moveForward_maxCapacity, hc]
          by_contra hlt
          have := maxWritableBytes_moveForward env h.read_le hcap (by omega) h.max_lt
          omega
        obtain ⟨he, hcont'⟩ := expandCapacity_contents env hm (by omega)
          (moveForward_readIndex b) (by omega) houtgrown
        obtain ⟨h', hc'⟩ := copyIn_contents data he ha
        exact ⟨h', rfl, by rw [hc', hcont', hcont]⟩
      · obtain ⟨h', hc'⟩ := copyIn_contents data hm ha
        exact ⟨h', rfl, by rw [hc', hcont]⟩
  · obtain ⟨h', hc'⟩ := copyIn_contents data h ha
    exact Or.inr ⟨h', rfl, hc'⟩

/-- **`consume` delivers the front of the readable section and drops it, or changes nothing.** -/
theorem consume_contents (ec : CodeVal) (h : InRange b i a) (ha : a < 2 ^ 63) (n : Nat) :
    (b.consume n ec = (b, .exceedBufferBound, []) ∧ b.contents.length < n) ∨
      InRange (b.consume n ec).1 i a ∧ (b.consume n ec).2 = (ec, b.contents.take n) ∧
        n ≤ b.contents.length ∧ (b.consume n ec).1.contents = b.contents.drop n := by
  have hlen := h.length_contents ha
  unfold consume
  split
  · rename_i hn
    rw [h.readableBytes ha] at hn
    exact Or.inl ⟨rfl, by omega⟩
  · rename_i hn
    rw [h.readableBytes ha] at hn
    have hcont := h.contents ha
    obtain ⟨hr, hw, hc, hm⟩ := h
    have hadd : add64 b.readIndex n = b.readIndex + n := add64_of_lt (by omega)
    have h' : InRange { b.touch b.readIndex n with readIndex := add64 b.readIndex n } i a := by
      refine ⟨?_, hw, hc, hm⟩
      simp only [touch, hadd]
      omega
    refine Or.inr ⟨h', ?_, by omega, ?_⟩
    · rw [hcont, Memory.take_slice _ _ _ (by omega)]
    · rw [h'.contents ha, hcont, Memory.drop_slice _ _ _ (by omega)]
      simp only [touch, hadd]
      congr 1
      omega

end

end DynamicBuffer

end SmartRoutine
