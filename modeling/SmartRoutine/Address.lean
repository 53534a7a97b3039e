import SmartRoutine.DynamicBuffer
import SmartRoutine.Lib.Bytes

/-!
# Addresses in memory

`Address` as the bytes of an object, with the layouts of Linux on x86-64: `addr_` and `addr6_` share
the first 16 bytes, `type_` follows in 4.  A member function is given the memory and where its
object begins; what lies behind an object is whatever the memory holds there.

`memcpy` reads all its bytes before it writes any, also between ranges that overlap.

* `Address.Is` — an object of one of the two families, with its address.
* `makeAddress_is`, `makeAddress_code` — `make_address` returns the address that the text names, and
  an error when it names none.
-/

set_option autoImplicit false

namespace SmartRoutine

open Memory

/-- The bytes from the beginning of an object on, and whatever follows it. -/
abbrev Object := Nat → UInt8

def AF_INET : Nat := 2
def AF_INET6 : Nat := 10

/-- `sizeof(sockaddr_in)` and `sizeof(sockaddr_in6)`. -/
def sizeofSockaddrIn : Nat := 16
def sizeofSockaddrIn6 : Nat := 28

/-- `AddressType`. -/
inductive AddressType where
  | none
  | ipv4
  | ipv6
  deriving DecidableEq, Repr

/-- The value of the enumerator. -/
def AddressType.value : AddressType → Nat
  | none => 0
  | ipv4 => 1
  | ipv6 => 2

/-- `strchr(str, c) != nullptr`. -/
def hasChar (str : List UInt8) (c : UInt8) : Bool := str.contains c

/-- `inet_pton` for each family: the bytes of the address, or 0 returned. -/
structure InetPton where
  inet : List UInt8 → Option (List UInt8)
  inet6 : List UInt8 → Option (List UInt8)
  length_inet : ∀ s bs, inet s = some bs → bs.length = 4
  length_inet6 : ∀ s bs, inet6 s = some bs → bs.length = 16

namespace Address

/-- Offset of `type_`, and `sizeof(Address)`. -/
def typeOffset : Nat := 16
def size : Nat := 20

/-- `type_`, of type `int`. -/
def typeAt (m : Object) (this : Nat) : Nat := load m (this + typeOffset) 4

def setType (m : Object) (this : Nat) (t : AddressType) : Object :=
  put m (this + typeOffset) 4 t.value

def isV4 (m : Object) (this : Nat) : Bool := typeAt m this = AddressType.ipv4.value

def isV6 (m : Object) (this : Nat) : Bool := typeAt m this = AddressType.ipv6.value

/-- `Address()`: the union is left as it is. -/
def new (m : Object) (this : Nat) : Object := setType m this .none

/-- `copy_addr`: as many bytes as a socket address has, from `addr_` or `addr6_` on. -/
def copyAddr (m : Object) (this dst : Nat) : Object :=
  if isV4 m this then move m dst this sizeofSockaddrIn
  else if isV6 m this then move m dst this sizeofSockaddrIn6
  else m

/-- `set_ipv4_address`, from an `in_addr` at `off` in other memory. -/
def setIpv4Address (m : Object) (this : Nat) (other : Object) (off : Nat) : Object :=
  setType (store m this (slice other off 4)) this .ipv4

def setIpv6Address (m : Object) (this : Nat) (other : Object) (off : Nat) : Object :=
  setType (store m this (slice other off 16)) this .ipv6

end Address

/-- What `inet_pton` leaves in `address` and `code`. -/
def parsed (address : Object) (code : CodeVal) : Option (List UInt8) → Object × CodeVal
  | some bs => (store address 0 bs, code)
  | none => (address, .invalidArgument)

/-- `make_address`: the object it returns, built in memory that holds `raw`, and `code`. -/
def makeAddress (P : InetPton) (raw : Object) (addressStr : List UInt8) (code : CodeVal) :
    Object × CodeVal :=
  let address := Address.new raw 0
  if hasChar addressStr '.'.toUInt8 then
    parsed (Address.setType address 0 .ipv4) code (P.inet addressStr)
  else if hasChar addressStr ':'.toUInt8 then
    parsed (Address.setType address 0 .ipv6) code (P.inet6 addressStr)
  else (address, .invalidArgument)

/-! ## The two families -/

/-- A family of addresses. -/
inductive Family where
  | v4
  | v6
  deriving DecidableEq, Repr

namespace Family

def type : Family → AddressType
  | v4 => .ipv4
  | v6 => .ipv6

/-- `sa_family`. -/
def af : Family → Nat
  | v4 => AF_INET
  | v6 => AF_INET6

/-- Number of bytes of an address. -/
def length : Family → Nat
  | v4 => 4
  | v6 => 16

/-- Number of bytes of a socket address. -/
def sizeofSockaddr : Family → Nat
  | v4 => sizeofSockaddrIn
  | v6 => sizeofSockaddrIn6

end Family

/-- What a text names: its punctuation says in which family. -/
def named (P : InetPton) (addressStr : List UInt8) : Option (Family × List UInt8) :=
  if hasChar addressStr '.'.toUInt8 then (P.inet addressStr).map (Family.v4, ·)
  else if hasChar addressStr ':'.toUInt8 then (P.inet6 addressStr).map (Family.v6, ·)
  else none

theorem AddressType.value_lt (t : AddressType) : t.value < 256 ^ 4 := by
  cases t <;> decide

namespace Address

/-- The object at `this` is an address of family `f` with these bytes. -/
structure Is (m : Object) (this : Nat) (f : Family) (bytes : List UInt8) : Prop where
  type_eq : typeAt m this = f.type.value
  bytes_eq : slice m this f.length = bytes

section

variable {m m' other : Object} {this this' : Nat} {f : Family} {bytes : List UInt8}

theorem typeAt_setType (m : Object) (this : Nat) (t : AddressType) :
    typeAt (setType m this t) this = t.value :=
  load_put m t.value_lt

theorem slice_setType (m : Object) (this : Nat) (t : AddressType) :
    slice (setType m this t) this f.length = slice m this f.length := by
  refine slice_put_apart m (Or.inl ?_)
  cases f <;> exact Nat.add_le_add_left (by decide) this

theorem Is.isV4 (h : Is m this f bytes) : isV4 m this = decide (f = .v4) := by
  rw [Address.isV4, h.type_eq]
  cases f <;> rfl

theorem Is.isV6 (h : Is m this f bytes) : isV6 m this = decide (f = .v6) := by
  rw [Address.isV6, h.type_eq]
  cases f <;> rfl

theorem exists_is (h : Address.isV4 m this = true ∨ Address.isV6 m this = true) :
    ∃ f bytes, Is m this f bytes := by
  rcases h with h | h
  · exact ⟨.v4, _, of_decide_eq_true h, rfl⟩
  · exact ⟨.v6, _, of_decide_eq_true h, rfl⟩

/-- The object is in its `sizeof(Address)` bytes. -/
theorem Is.of_slice (h : Is m this f bytes) (hs : slice m' this' size = slice m this size) :
    Is m' this' f bytes := by
  refine ⟨?_, ?_⟩
  · rw [typeAt, load, slice_part hs (by decide)]
    exact h.type_eq
  · have hlen : 0 + f.length ≤ size := by cases f <;> decide
    exact (slice_part hs hlen).trans h.bytes_eq

theorem Is.copyAddr (h : Is m this f bytes) (dst : Nat) :
    Address.copyAddr m this dst = move m dst this f.sizeofSockaddr := by
  rw [Address.copyAddr, h.isV4, h.isV6]
  cases f <;> rfl

theorem is_setType (hb : slice m this f.length = bytes) : Is (setType m this f.type) this f bytes :=
  ⟨typeAt_setType .., (slice_setType ..).trans hb⟩

theorem is_setIpv4Address (m : Object) (this : Nat) (other : Object) (off : Nat) :
    Is (setIpv4Address m this other off) this .v4 (slice other off 4) :=
  is_setType (f := .v4) (slice_store_slice m this other off 4)

theorem is_setIpv6Address (m : Object) (this : Nat) (other : Object) (off : Nat) :
    Is (setIpv6Address m this other off) this .v6 (slice other off 16) :=
  is_setType (f := .v6) (slice_store_slice m this other off 16)

/-- Bytes parsed into an object whose type is set already. -/
theorem is_store (hm : typeAt m this = f.type.value) (hlen : bytes.length = f.length) :
    Is (store m this bytes) this f bytes := by
  refine ⟨(load_store_apart m (Or.inr ?_)).trans hm, hlen ▸ slice_store m this bytes⟩
  rw [hlen]
  cases f <;> exact Nat.add_le_add_left (by decide) this

end

end Address

section

variable (P : InetPton) (raw : Object) (addressStr : List UInt8)

/-- **What `make_address` returns** of a text that names an address. -/
theorem makeAddress_is {f : Family} {bytes : List UInt8} (h : named P addressStr = some (f, bytes))
    (code : CodeVal) : Address.Is (makeAddress P raw addressStr code).1 0 f bytes := by
  unfold named at h
  unfold makeAddress
  dsimp only
  split at h
  next hdot =>
    obtain ⟨bs, hbs, heq⟩ := Option.map_eq_some_iff.1 h
    obtain ⟨rfl, rfl⟩ := Prod.mk.inj heq
    rw [if_pos hdot, hbs]
    exact Address.is_store (Address.typeAt_setType ..) (P.length_inet _ _ hbs)
  next hdot =>
    split at h
    next hcolon =>
      obtain ⟨bs, hbs, heq⟩ := Option.map_eq_some_iff.1 h
      obtain ⟨rfl, rfl⟩ := Prod.mk.inj heq
      rw [if_neg hdot, if_pos hcolon, hbs]
      exact Address.is_store (Address.typeAt_setType ..) (P.length_inet6 _ _ hbs)
    next => cases h

theorem parsed_code (address : Object) (bs : Option (List UInt8)) :
    (parsed address .success bs).2 = .success ↔ bs.isSome = true := by
  cases bs <;> simp [parsed]

/-- **`make_address` reports no error exactly when the text names an address.** -/
theorem makeAddress_code :
    (makeAddress P raw addressStr .success).2 = .success ↔ (named P addressStr).isSome = true := by
  unfold makeAddress named
  dsimp only
  split
  · rw [parsed_code, Option.isSome_map]
  · split
    · rw [parsed_code, Option.isSome_map]
    · simp

end

end SmartRoutine
