import SmartRoutine.Address

/-!
# Endpoints and their socket addresses

`Endpoint` as an object: the union of `addr_` and `addr6_` in 28 bytes, `address_` in 20, and
`port_`.  The union is the socket address handed to `bind` and `connect`.

* `Endpoint.Holds.convertToSockaddrIn_read` — what `convert_to_sockaddr_in` leaves in the union.
* `Endpoint.fromSockaddr_holds`, `Endpoint.slice_fromSockaddr` — what `from_sockaddr` takes over,
  and that it leaves the union alone.
* `Endpoint.readsBack_iff` — an endpoint read back from its own socket address is the same
  **exactly** when the two bytes of its port are equal: `from_sockaddr` does not undo `htons`.

For an IPv6 address `copy_addr` copies 28 bytes where 16 are the address: `sin6_scope_id` becomes
`type_`, and the first half of `address_` becomes `port_` and what lies behind it.
-/

set_option autoImplicit false

namespace SmartRoutine

open Memory

/-- `htons` of a little-endian host. -/
def htons (port : UInt16) : UInt16 := UInt16.ofNat (port.toNat % 256 * 256 + port.toNat / 256)

theorem toNat_htons (port : UInt16) :
    (htons port).toNat = port.toNat % 256 * 256 + port.toNat / 256 := by
  have hlt := port.toNat_lt
  rw [htons, UInt16.toNat_ofNat']
  exact Nat.mod_eq_of_lt (by omega)

theorem htons_eq_self_iff (port : UInt16) :
    htons port = port ↔ port.toNat / 256 = port.toNat % 256 := by
  rw [← UInt16.toNat_inj, toNat_htons]
  have hlt := port.toNat_lt
  omega

/-! ## Socket addresses -/

/-- Offset of `sin_addr` or `sin6_addr`. -/
def Family.addrOffset : Family → Nat
  | v4 => 4
  | v6 => 8

/-- Family, port in network order and address bytes of a `sockaddr`. -/
structure SocketAddress where
  family : Family
  port : UInt16
  bytes : List UInt8
  deriving DecidableEq, Repr

/-- `sin_port`, in the same place in both families. -/
def sinPort (s : Object) : UInt16 := UInt16.ofNat (load s 2 2)

/-- What a `sockaddr` of one of the two families says. -/
def SocketAddress.read (s : Object) : Option SocketAddress :=
  if load s 0 2 = AF_INET then some ⟨.v4, sinPort s, slice s 4 4⟩
  else if load s 0 2 = AF_INET6 then some ⟨.v6, sinPort s, slice s 8 16⟩
  else none

theorem SocketAddress.read_of_family {s : Object} {f : Family} (h : load s 0 2 = f.af) :
    read s = some ⟨f, sinPort s, slice s f.addrOffset f.length⟩ := by
  unfold SocketAddress.read
  rw [h]
  cases f <;> rfl

/-- It is in the first 28 bytes. -/
theorem SocketAddress.read_congr {s s' : Object} (h : slice s' 0 28 = slice s 0 28) :
    read s' = read s := by
  have hfamily : load s' 0 2 = load s 0 2 :=
    congrArg ofBytes (slice_part h (k := 0) (n := 2) (by decide))
  have hport : load s' 2 2 = load s 2 2 :=
    congrArg ofBytes (slice_part h (k := 2) (n := 2) (by decide))
  have h4 : slice s' 4 4 = slice s 4 4 := slice_part h (k := 4) (n := 4) (by decide)
  have h6 : slice s' 8 16 = slice s 8 16 := slice_part h (k := 8) (n := 16) (by decide)
  rw [SocketAddress.read, sinPort, hfamily, hport, h4, h6]
  rfl

/-! ## The class -/

/-- `Endpoint`: the bytes of the object, then what lies behind it. -/
structure Endpoint where
  mem : Object

namespace Endpoint

/-- Offsets of `address_` and `port_`; the union is at 0. -/
def addressOffset : Nat := 28
def portOffset : Nat := 48

/-- `port()`. -/
def port (e : Endpoint) : UInt16 := UInt16.ofNat (load e.mem portOffset 2)

def setPort (e : Endpoint) (port : UInt16) : Endpoint := ⟨put e.mem portOffset 2 port.toNat⟩

/-- `address_ = address`. -/
def setAddress (e : Endpoint) (address : Object) : Endpoint :=
  ⟨store e.mem addressOffset (slice address 0 Address.size)⟩

/-- The union cleared, with `sin_family` and `sin_port`. -/
def header (f : Family) (e : Endpoint) : Object :=
  let m := store e.mem 0 (List.replicate f.sizeofSockaddr 0)
  let m := put m 0 2 f.af
  put m 2 2 (htons e.port).toNat

/-- One branch of `convert_to_sockaddr_in`. -/
def convertAs (f : Family) (e : Endpoint) : Endpoint :=
  ⟨Address.copyAddr (header f e) addressOffset f.addrOffset⟩

def convertToSockaddrIn (e : Endpoint) : Endpoint :=
  if Address.isV4 e.mem addressOffset then e.convertAs .v4
  else if Address.isV6 e.mem addressOffset then e.convertAs .v6
  else e

/-- `Endpoint()`, in memory that holds `raw`; `port_(-1)` is 65535. -/
def new (raw : Object) : Endpoint := setPort ⟨Address.new raw addressOffset⟩ (-1)

/-- `Endpoint(address, port)`. -/
def ofAddress (raw address : Object) (port : UInt16) : Endpoint :=
  (((⟨raw⟩ : Endpoint).setAddress address).setPort port).convertToSockaddrIn

/-- `to_sockaddr_in`: the memory pointed to and `addr_size`; `none` is the null pointer. -/
def toSockaddrIn (e : Endpoint) : Option (Object × Nat) :=
  if Address.isV4 e.mem addressOffset then some (e.mem, sizeofSockaddrIn)
  else if Address.isV6 e.mem addressOffset then some (e.mem, sizeofSockaddrIn6)
  else none

/-- `from_sockaddr`: the union stays as it is. -/
def fromSockaddr (e : Endpoint) (address : Object) : Endpoint :=
  if load address 0 2 = AF_INET then
    setPort ⟨Address.setIpv4Address e.mem addressOffset address 4⟩ (sinPort address)
  else if load address 0 2 = AF_INET6 then
    setPort ⟨Address.setIpv6Address e.mem addressOffset address 8⟩ (sinPort address)
  else e

/-- A copy, in memory that holds `raw`. -/
def copy (raw : Object) (other : Endpoint) : Endpoint := ⟨store raw 0 (slice other.mem 0 50)⟩

end Endpoint

/-- `make_endpoint`: the endpoint it returns, and `code`. -/
def makeEndpoint (P : InetPton) (raw rawAddress : Object) (ip : List UInt8) (port : UInt16)
    (code : CodeVal) : Endpoint × CodeVal :=
  let made := makeAddress P rawAddress ip code
  ((((Endpoint.new raw).setAddress made.1).setPort port).convertToSockaddrIn, made.2)

namespace Endpoint

/-! ## What the members do -/

section

variable {e : Endpoint} {f : Family} {bytes : List UInt8} {raw address s : Object}

/-- `address_` is an address of family `f` with these bytes. -/
abbrev Holds (e : Endpoint) (f : Family) (bytes : List UInt8) : Prop :=
  Address.Is e.mem addressOffset f bytes

@[simp] theorem port_setPort (e : Endpoint) (p : UInt16) : (e.setPort p).port = p := by
  have hp : p.toNat < 256 ^ 2 := p.toNat_lt
  rw [port, setPort, load_put _ hp, UInt16.ofNat_toNat]

/-- `port_` lies behind everything else. -/
theorem slice_setPort (e : Endpoint) (p : UInt16) {o len : Nat} (h : o + len ≤ portOffset) :
    slice (e.setPort p).mem o len = slice e.mem o len :=
  slice_put_apart e.mem (Or.inl h)

theorem Holds.setPort (h : e.Holds f bytes) (p : UInt16) : (e.setPort p).Holds f bytes :=
  h.of_slice (slice_setPort e p (by decide))

theorem Holds.setAddress (h : Address.Is address 0 f bytes) (e : Endpoint) :
    (e.setAddress address).Holds f bytes :=
  h.of_slice (slice_store_slice e.mem addressOffset address 0 Address.size)

theorem toSockaddrIn_eq (h : Address.typeAt e.mem addressOffset = f.type.value) :
    e.toSockaddrIn = some (e.mem, f.sizeofSockaddr) := by
  have hv4 := (⟨h, rfl⟩ : Address.Is e.mem addressOffset f _).isV4
  have hv6 := (⟨h, rfl⟩ : Address.Is e.mem addressOffset f _).isV6
  rw [toSockaddrIn, hv4, hv6]
  cases f <;> rfl

theorem Holds.convertToSockaddrIn (h : e.Holds f bytes) :
    e.convertToSockaddrIn = e.convertAs f := by
  rw [Endpoint.convertToSockaddrIn, h.isV4, h.isV6]
  cases f <;> rfl

theorem load_header_family (f : Family) (e : Endpoint) : load (header f e) 0 2 = f.af := by
  rw [header, load_put_apart _ (by decide)]
  exact load_put _ (by cases f <;> decide)

theorem load_header_port (f : Family) (e : Endpoint) :
    load (header f e) 2 2 = (htons e.port).toNat :=
  load_put _ (htons e.port).toNat_lt

/-- Only the union is written. -/
theorem slice_header (f : Family) (e : Endpoint) {o : Nat} (ho : 28 ≤ o) (len : Nat) :
    slice (header f e) o len = slice e.mem o len := by
  rw [header, slice_put_apart _ (Or.inr (by omega)), slice_put_apart _ (Or.inr (by omega))]
  refine slice_store_apart _ (Or.inr ?_)
  rw [List.length_replicate]
  cases f <;> exact Nat.le_trans (by decide) ho

theorem Holds.convertAs (h : e.Holds f bytes) :
    e.convertAs f = ⟨move (header f e) f.addrOffset addressOffset f.sizeofSockaddr⟩ := by
  have hheader : Address.Is (header f e) addressOffset f bytes :=
    h.of_slice (slice_header f e (by decide) Address.size)
  rw [Endpoint.convertAs, hheader.copyAddr]

/-- **What `convert_to_sockaddr_in` leaves in the union.** -/
theorem Holds.convertToSockaddrIn_read (h : e.Holds f bytes) :
    SocketAddress.read e.convertToSockaddrIn.mem = some ⟨f, htons e.port, bytes⟩ := by
  rw [h.convertToSockaddrIn, h.convertAs]
  have hfamily : load (move (header f e) f.addrOffset addressOffset f.sizeofSockaddr) 0 2 = f.af := by
    rw [load_move_apart _ (by cases f <;> decide), load_header_family]
  have hport : sinPort (move (header f e) f.addrOffset addressOffset f.sizeofSockaddr) =
      htons e.port := by
    rw [sinPort, load_move_apart _ (by cases f <;> decide), load_header_port, UInt16.ofNat_toNat]
  have hbytes : slice (move (header f e) f.addrOffset addressOffset f.sizeofSockaddr)
      f.addrOffset f.length = bytes := by
    have hmove : slice (move (header f e) f.addrOffset addressOffset f.sizeofSockaddr)
        (f.addrOffset + 0) f.length = slice (header f e) (addressOffset + 0) f.length :=
      slice_move (header f e) f.addrOffset addressOffset (by cases f <;> decide)
    exact hmove.trans ((slice_header f e (by decide) f.length).trans h.bytes_eq)
  rw [SocketAddress.read_of_family hfamily, hport, hbytes]

/-- The type is not reached by the 28 bytes of an IPv6 address either. -/
theorem Holds.convertToSockaddrIn_type (h : e.Holds f bytes) :
    Address.typeAt e.convertToSockaddrIn.mem addressOffset = f.type.value := by
  rw [h.convertToSockaddrIn, h.convertAs, Address.typeAt, load_move_apart _ (by cases f <;> decide),
    load, slice_header f e (by decide)]
  exact h.type_eq

/-! ## `to_sockaddr_in` -/

/-- `to_sockaddr_in` returns a socket address that says `g`. -/
def Returns (e : Endpoint) (g : SocketAddress) : Prop :=
  ∃ s, e.toSockaddrIn = some (s, g.family.sizeofSockaddr) ∧ SocketAddress.read s = some g

/-- The size returned tells the type. -/
theorem type_of_toSockaddrIn (h : e.toSockaddrIn = some (s, f.sizeofSockaddr)) :
    Address.typeAt e.mem addressOffset = f.type.value ∧ s = e.mem := by
  rw [toSockaddrIn] at h
  split at h
  next hv4 =>
    obtain ⟨rfl, hsize⟩ := Prod.mk.inj (Option.some.inj h)
    cases f with
    | v4 => exact ⟨of_decide_eq_true hv4, rfl⟩
    | v6 => exact absurd hsize (by decide)
  next =>
    split at h
    next hv6 =>
      obtain ⟨rfl, hsize⟩ := Prod.mk.inj (Option.some.inj h)
      cases f with
      | v4 => exact absurd hsize (by decide)
      | v6 => exact ⟨of_decide_eq_true hv6, rfl⟩
    next => cases h

/-- `to_sockaddr_in` goes by the type of `address_`, and returns the union. -/
theorem returns_iff {g : SocketAddress} : e.Returns g ↔
    Address.typeAt e.mem addressOffset = g.family.type.value ∧ SocketAddress.read e.mem = some g := by
  constructor
  · rintro ⟨s, hs, hread⟩
    obtain ⟨htype, rfl⟩ := type_of_toSockaddrIn hs
    exact ⟨htype, hread⟩
  · rintro ⟨htype, hread⟩
    exact ⟨e.mem, toSockaddrIn_eq htype, hread⟩

instance Returns.decidable (e : Endpoint) (g : SocketAddress) : Decidable (e.Returns g) :=
  decidable_of_iff _ returns_iff.symm

/-- An address converted is returned. -/
theorem Holds.returns (h : e.Holds f bytes) :
    e.convertToSockaddrIn.Returns ⟨f, htons e.port, bytes⟩ :=
  returns_iff.2 ⟨h.convertToSockaddrIn_type, h.convertToSockaddrIn_read⟩

theorem ofAddress_returns (h : Address.Is address 0 f bytes) (raw : Object) (p : UInt16) :
    (ofAddress raw address p).Returns ⟨f, htons p, bytes⟩ := by
  have hset := ((Holds.setAddress h ⟨raw⟩).setPort p).returns
  rwa [port_setPort] at hset

theorem makeEndpoint_returns {P : InetPton} {ip : List UInt8} (h : named P ip = some (f, bytes))
    (raw rawAddress : Object) (p : UInt16) (code : CodeVal) :
    (makeEndpoint P raw rawAddress ip p code).1.Returns ⟨f, htons p, bytes⟩ := by
  have his := makeAddress_is P rawAddress ip h code
  have hset := ((Holds.setAddress his (new raw)).setPort p).returns
  rw [port_setPort] at hset
  simpa only [makeEndpoint] using hset

/-- Both the type and the union are in the bytes copied. -/
theorem copy_returns {g : SocketAddress} (h : e.Returns g) (raw : Object) : (copy raw e).Returns g := by
  have hcopy : slice (copy raw e).mem 0 50 = slice e.mem 0 50 :=
    slice_store_slice raw 0 e.mem 0 50
  have htype : Address.typeAt (copy raw e).mem addressOffset = Address.typeAt e.mem addressOffset :=
    congrArg ofBytes (slice_part hcopy (k := 44) (n := 4) (by decide))
  have hunion : slice (copy raw e).mem 0 28 = slice e.mem 0 28 :=
    slice_part hcopy (k := 0) (n := 28) (by decide)
  rw [returns_iff] at h ⊢
  rw [htype, SocketAddress.read_congr hunion]
  exact h

/-! ## `from_sockaddr` -/

section

variable {g : SocketAddress}

/-- **What `from_sockaddr` takes over**: the address, and the port in network order. -/
theorem fromSockaddr_holds (h : SocketAddress.read s = some g) (e : Endpoint) :
    (e.fromSockaddr s).Holds g.family g.bytes ∧ (e.fromSockaddr s).port = g.port := by
  unfold SocketAddress.read at h
  rw [fromSockaddr]
  split at h
  next hv4 =>
    cases h
    rw [if_pos hv4, port_setPort]
    exact ⟨Holds.setPort (Address.is_setIpv4Address ..) _, rfl⟩
  next hv4 =>
    split at h
    next hv6 =>
      cases h
      rw [if_neg hv4, if_pos hv6, port_setPort]
      exact ⟨Holds.setPort (Address.is_setIpv6Address ..) _, rfl⟩
    next => cases h

/-- **`from_sockaddr` does not touch the union.** -/
theorem slice_fromSockaddr (e : Endpoint) (s : Object) :
    slice (e.fromSockaddr s).mem 0 28 = slice e.mem 0 28 := by
  have hset (bs : List UInt8) (t : AddressType) (p : UInt16) :
      slice (setPort ⟨Address.setType (store e.mem addressOffset bs) addressOffset t⟩ p).mem 0 28 =
        slice e.mem 0 28 := by
    rw [slice_setPort _ p (by decide)]
    exact (slice_put_apart _ (by decide)).trans (slice_store_apart _ (Or.inl (by decide)))
  rw [fromSockaddr]
  split
  · exact hset _ _ _
  · split
    · exact hset _ _ _
    · rfl

/-- A `sockaddr` of another family changes nothing. -/
theorem fromSockaddr_of_none (h : SocketAddress.read s = none) (e : Endpoint) :
    e.fromSockaddr s = e := by
  unfold SocketAddress.read at h
  rw [fromSockaddr]
  split at h
  next => cases h
  next hv4 =>
    split at h
    next => cases h
    next hv6 => rw [if_neg hv4, if_neg hv6]

/-- So what is returned afterwards is right only if it was there before. -/
theorem fromSockaddr_returns_iff (h : SocketAddress.read s = some g) (e : Endpoint) :
    (e.fromSockaddr s).Returns g ↔ SocketAddress.read e.mem = some g := by
  rw [returns_iff, SocketAddress.read_congr (slice_fromSockaddr e s)]
  exact and_iff_right (fromSockaddr_holds h e).1.type_eq

/-! ## Reading back -/

/-- The endpoint has the type and the address bytes of `address`, and the port. -/
def SameAs (e : Endpoint) (address : Object) (p : UInt16) : Prop :=
  ∃ f bytes, Address.Is address 0 f bytes ∧ e.Holds f bytes ∧ e.port = p

/-- `e` is the same as its origin after `from_sockaddr` of the socket address of `origin`. -/
def ReadsBack (origin e : Endpoint) (address : Object) (p : UInt16) : Prop :=
  ∃ s size, origin.toSockaddrIn = some (s, size) ∧ (e.fromSockaddr s).SameAs address p

end

end

/-- **An endpoint read back from its own socket address is the same exactly when the two bytes of
its port are equal.** -/
theorem readsBack_iff (raw address : Object) (p : UInt16) (e : Endpoint)
    (haddress : Address.isV4 address 0 = true ∨ Address.isV6 address 0 = true) :
    ReadsBack (ofAddress raw address p) e address p ↔ p.toNat / 256 = p.toNat % 256 := by
  obtain ⟨f, bytes, his⟩ := Address.exists_is haddress
  obtain ⟨s, hs, hread⟩ := ofAddress_returns his raw p
  obtain ⟨hholds, hport⟩ := fromSockaddr_holds hread e
  rw [← htons_eq_self_iff]
  constructor
  · rintro ⟨s', size, hs', f', bytes', -, -, hp⟩
    obtain ⟨rfl, -⟩ := Prod.mk.inj (Option.some.inj (hs'.symm.trans hs))
    exact hport.symm.trans hp
  · intro hp
    exact ⟨s, _, hs, f, bytes, his, hholds, hport.trans hp⟩

/-- 127.0.0.1, as an object of type `Ipv4`. -/
def loopback : Object := store (Address.setType (fun _ => 0) 0 .ipv4) 0 [127, 0, 0, 1]

/-- Port 257 is the same in both orders. -/
theorem readsBack_iff_symmetric :
    ReadsBack (ofAddress (fun _ => 0) loopback 257) (new fun _ => 0) loopback 257 :=
  (readsBack_iff (fun _ => 0) loopback 257 (new fun _ => 0) (Or.inl (by decide +kernel))).2
    (by decide)

/-- **Port 80 comes back as 20480.** -/
theorem port_comes_back_swapped :
    ¬ ReadsBack (ofAddress (fun _ => 0) loopback 80) (new fun _ => 0) loopback 80 := by
  have hvalue : (ofAddress (fun _ => 0) loopback 80).toSockaddrIn =
      some ((ofAddress (fun _ => 0) loopback 80).mem, sizeofSockaddrIn) :=
    toSockaddrIn_eq (f := .v4) (by decide +kernel)
  rintro ⟨s, size, hs, -, -, -, -, hp⟩
  obtain ⟨rfl, -⟩ := Prod.mk.inj (Option.some.inj (hs.symm.trans hvalue))
  exact absurd hp (by decide +kernel)

end Endpoint

end SmartRoutine
