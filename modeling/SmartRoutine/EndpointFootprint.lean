import SmartRoutine.Endpoint
import SmartRoutine.Lib.Footprint

/-!
# What building the socket address touches

`convert_to_sockaddr_in` as a program over the bytes of the endpoint, with the ranges that it reads
and writes.

* `Endpoint.run_convertProg` — the program does what `convertToSockaddrIn` does.
* `Endpoint.Holds.reads_convertProg`, `Endpoint.Holds.writes_convertProg` — its footprint, for each family.
* `Endpoint.ReadsInside.slice_congr` — bytes behind the endpoint do not matter to a conversion that
  does not read them.
* `Endpoint.ConvertsCleanly` — nothing is read outside the endpoint, nothing written outside the
  socket address, `address_` and `port_` stay, and what is no field of the address is zero.
* `Endpoint.convertsCleanly_never` — **no** conversion is clean, and which part fails when:
  `copy_addr` copies `sizeof(sockaddr_in)` or `sizeof(sockaddr_in6)` bytes where the address has 4
  or 16.
-/

set_option autoImplicit false

namespace SmartRoutine

open Memory

namespace Address

/-- `is_v4` and `is_v6`. -/
def hasType (this : Nat) (t : AddressType) : Prog UInt8 Bool := do
  let bytes ← Prog.get (this + typeOffset) 4
  pure (decide (ofBytes bytes = t.value))

def copyAddrProg (this dst : Nat) : Prog UInt8 Unit := do
  if ← hasType this .ipv4 then Prog.move dst this sizeofSockaddrIn
  else if ← hasType this .ipv6 then Prog.move dst this sizeofSockaddrIn6
  else pure ()

end Address

/-- The byte is in the family, port or address field of a socket address. -/
def Family.InField (f : Family) (i : Nat) : Prop :=
  Range.Has ⟨0, 2⟩ i ∨ Range.Has ⟨2, 2⟩ i ∨ Range.Has ⟨f.addrOffset, f.length⟩ i

instance Family.InField.decidable (f : Family) (i : Nat) : Decidable (f.InField i) :=
  inferInstanceAs (Decidable (_ ∨ _ ∨ _))

theorem Family.inField_v4 {i : Nat} : v4.InField i ↔ i < 8 := by
  simp only [InField, Range.Has, addrOffset, length]
  omega

theorem Family.inField_v6 {i : Nat} : v6.InField i ↔ i < 4 ∨ 8 ≤ i ∧ i < 24 := by
  simp only [InField, Range.Has, addrOffset, length]
  omega

namespace Endpoint

/-- `sizeof(Endpoint)`. -/
def size : Nat := 52

def headerProg (f : Family) : Prog UInt8 Unit := do
  Prog.set 0 (List.replicate f.sizeofSockaddr 0)
  Prog.set 0 (toBytes 2 f.af)
  let port ← Prog.get portOffset 2
  Prog.set 2 (toBytes 2 (htons (UInt16.ofNat (ofBytes port))).toNat)

def convertAsProg (f : Family) : Prog UInt8 Unit := do
  headerProg f
  Address.copyAddrProg addressOffset f.addrOffset

def convertProg : Prog UInt8 Unit := do
  if ← Address.hasType addressOffset .ipv4 then convertAsProg .v4
  else if ← Address.hasType addressOffset .ipv6 then convertAsProg .v6
  else pure ()

end Endpoint

/-! ## The program and the function -/

section

variable {m : Object} {this : Nat} {f : Family} {bytes : List UInt8}

theorem Address.run_hasType (m : Object) (this : Nat) (t : AddressType) :
    (hasType this t).run m = (decide (typeAt m this = t.value), m) := rfl

/-- A test of the type. -/
theorem Address.run_ifType {t : AddressType} (p q : Prog UInt8 Unit) :
    (do if ← hasType this t then p else q).run m =
      if typeAt m this = t.value then p.run m else q.run m := by
  rw [Prog.run_bind, run_hasType]
  by_cases h : typeAt m this = t.value <;> simp [h]

theorem Address.reads_ifType {t : AddressType} (p q : Prog UInt8 Unit) :
    (do if ← hasType this t then p else q).reads m =
      ⟨this + typeOffset, 4⟩ :: if typeAt m this = t.value then p.reads m else q.reads m := by
  rw [Prog.reads_bind, run_hasType]
  by_cases h : typeAt m this = t.value <;> simp [h, hasType]

theorem Address.writes_ifType {t : AddressType} (p q : Prog UInt8 Unit) :
    (do if ← hasType this t then p else q).writes m =
      if typeAt m this = t.value then p.writes m else q.writes m := by
  rw [Prog.writes_bind, run_hasType]
  by_cases h : typeAt m this = t.value <;> simp [h, hasType]

theorem Address.run_copyAddrProg (m : Object) (this dst : Nat) :
    (copyAddrProg this dst).run m = ((), copyAddr m this dst) := by
  rw [copyAddrProg, run_ifType, run_ifType, copyAddr, isV4, isV6]
  simp only [decide_eq_true_eq]
  split
  · rfl
  · split <;> rfl

/-- The ranges that finding out the family reads. -/
def Family.typeReads (this : Nat) : Family → List Range
  | v4 => [⟨this + Address.typeOffset, 4⟩]
  | v6 => [⟨this + Address.typeOffset, 4⟩, ⟨this + Address.typeOffset, 4⟩]

theorem Address.Is.reads_copyAddrProg (h : Is m this f bytes) (dst : Nat) :
    (copyAddrProg this dst).reads m = f.typeReads this ++ [⟨this, f.sizeofSockaddr⟩] := by
  rw [copyAddrProg, reads_ifType, reads_ifType, h.type_eq]
  cases f <;> rfl

theorem Address.Is.writes_copyAddrProg (h : Is m this f bytes) (dst : Nat) :
    (copyAddrProg this dst).writes m = [⟨dst, f.sizeofSockaddr⟩] := by
  rw [copyAddrProg, writes_ifType, writes_ifType, h.type_eq]
  cases f <;> rfl

end

namespace Endpoint

/-- Clearing the union leaves `port_`. -/
theorem slice_cleared (f : Family) (e : Endpoint) :
    slice (store (store e.mem 0 (List.replicate f.sizeofSockaddr 0)) 0 (toBytes 2 f.af)) portOffset 2 =
      slice e.mem portOffset 2 := by
  rw [slice_store_apart _ (Or.inr (by rw [length_toBytes]; decide))]
  refine slice_store_apart _ (Or.inr ?_)
  rw [List.length_replicate]
  cases f <;> decide

theorem run_headerProg (f : Family) (e : Endpoint) :
    (headerProg f).run e.mem = ((), header f e) := by
  simp only [headerProg, Prog.run_bind, Prog.run_set, Prog.run_get, slice_cleared, header, port, put,
    load]

theorem reads_headerProg (f : Family) (m : Object) : (headerProg f).reads m = [⟨portOffset, 2⟩] := rfl

theorem writes_headerProg (f : Family) (m : Object) :
    (headerProg f).writes m = [⟨0, f.sizeofSockaddr⟩, ⟨0, 2⟩, ⟨2, 2⟩] := by
  simp [headerProg]

theorem run_convertAsProg (f : Family) (e : Endpoint) :
    (convertAsProg f).run e.mem = ((), (convertAs f e).mem) := by
  rw [convertAsProg, Prog.run_bind, run_headerProg, Address.run_copyAddrProg, convertAs]

/-- **The program does what the function does.** -/
theorem run_convertProg (e : Endpoint) :
    convertProg.run e.mem = ((), e.convertToSockaddrIn.mem) := by
  rw [convertProg, Address.run_ifType, Address.run_ifType, run_convertAsProg, run_convertAsProg,
    convertToSockaddrIn, Address.isV4, Address.isV6]
  simp only [decide_eq_true_eq]
  split
  · rfl
  · split <;> rfl

section

variable {e : Endpoint} {f : Family} {bytes : List UInt8}

theorem Holds.header (h : e.Holds f bytes) :
    Address.Is (Endpoint.header f e) addressOffset f bytes :=
  h.of_slice (slice_header f e (by decide) Address.size)

/-- **What a conversion reads.** -/
theorem Holds.reads_convertProg (h : e.Holds f bytes) :
    convertProg.reads e.mem = f.typeReads addressOffset ++ ⟨portOffset, 2⟩ ::
      (f.typeReads addressOffset ++ [⟨addressOffset, f.sizeofSockaddr⟩]) := by
  have has : (convertAsProg f).reads e.mem = ⟨portOffset, 2⟩ ::
      (f.typeReads addressOffset ++ [⟨addressOffset, f.sizeofSockaddr⟩]) := by
    rw [convertAsProg, Prog.reads_bind, run_headerProg, reads_headerProg, h.header.reads_copyAddrProg]
    rfl
  rw [convertProg, Address.reads_ifType, Address.reads_ifType, h.type_eq, ← has]
  cases f <;> rfl

/-- **What a conversion writes.** -/
theorem Holds.writes_convertProg (h : e.Holds f bytes) : convertProg.writes e.mem =
    [⟨0, f.sizeofSockaddr⟩, ⟨0, 2⟩, ⟨2, 2⟩, ⟨f.addrOffset, f.sizeofSockaddr⟩] := by
  have has : (convertAsProg f).writes e.mem =
      [⟨0, f.sizeofSockaddr⟩, ⟨0, 2⟩, ⟨2, 2⟩, ⟨f.addrOffset, f.sizeofSockaddr⟩] := by
    rw [convertAsProg, Prog.writes_bind, run_headerProg, writes_headerProg,
      h.header.writes_copyAddrProg]
    rfl
  rw [convertProg, Address.writes_ifType, Address.writes_ifType, h.type_eq, ← has]
  cases f <;> rfl

/-! ## The effect -/

/-- Nothing is read outside the endpoint. -/
def ReadsInside (e : Endpoint) : Prop := ∀ r ∈ convertProg.reads e.mem, r.Below size

/-- Nothing is written outside the socket address of the family. -/
def WritesSockaddr (f : Family) (e : Endpoint) : Prop :=
  ∀ r ∈ convertProg.writes e.mem, r.Below f.sizeofSockaddr

/-- `address_` and `port_` are left as they were. -/
def KeepsMembers (e : Endpoint) : Prop :=
  slice e.convertToSockaddrIn.mem addressOffset Address.size = slice e.mem addressOffset Address.size ∧
    e.convertToSockaddrIn.port = e.port

/-- Every other byte of the socket address is zero. -/
def NoStrayBytes (f : Family) (e : Endpoint) : Prop :=
  ∀ i, i < f.sizeofSockaddr → ¬ f.InField i → e.convertToSockaddrIn.mem i = 0

instance NoStrayBytes.decidable (f : Family) (e : Endpoint) : Decidable (NoStrayBytes f e) :=
  inferInstanceAs (Decidable (∀ i, i < f.sizeofSockaddr → ¬ f.InField i →
    e.convertToSockaddrIn.mem i = 0))

instance KeepsMembers.decidable (e : Endpoint) : Decidable (KeepsMembers e) :=
  inferInstanceAs (Decidable (_ ∧ _))

/-- **Building the socket address changes nothing else and leaves no stray bytes.** -/
structure ConvertsCleanly (f : Family) (e : Endpoint) : Prop where
  reads : ReadsInside e
  writes : WritesSockaddr f e
  keeps : KeepsMembers e
  noStray : NoStrayBytes f e

theorem Holds.convertToSockaddrIn_mem (h : e.Holds f bytes) : e.convertToSockaddrIn.mem =
    move (Endpoint.header f e) f.addrOffset addressOffset f.sizeofSockaddr := by
  rw [h.convertToSockaddrIn, h.convertAs]

/-- 28 bytes of an IPv6 address go beyond the endpoint. -/
theorem Holds.readsInside_iff (h : e.Holds f bytes) : ReadsInside e ↔ f = .v4 := by
  rw [ReadsInside, h.reads_convertProg]
  cases f <;> decide

/-- **A conversion that reads inside the endpoint depends on its bytes only.** -/
theorem ReadsInside.slice_congr (h : ReadsInside e) {e' : Endpoint}
    (hsame : slice e'.mem 0 size = slice e.mem 0 size) :
    slice e'.convertToSockaddrIn.mem 0 size = slice e.convertToSockaddrIn.mem 0 size := by
  rw [slice_eq_iff] at hsame ⊢
  simp only [Nat.zero_add] at hsame ⊢
  have hreads : ∀ r ∈ convertProg.reads e.mem, ∀ i, r.Has i → e'.mem i = e.mem i :=
    fun r hr i hi => hsame i (Nat.lt_of_lt_of_le hi.2 (h r hr))
  have hcells := (Prog.run_congr e.mem convertProg hreads).2
  rw [run_convertProg, run_convertProg] at hcells
  exact fun i hi => hcells i (Or.inl (hsame i hi))

/-- Both copies end behind the socket address. -/
theorem Holds.not_writesSockaddr (h : e.Holds f bytes) : ¬ WritesSockaddr f e := by
  rw [WritesSockaddr, h.writes_convertProg]
  cases f <;> decide

/-- A cell behind the union keeps its value, unless the copy of an IPv6 address reaches it. -/
theorem Holds.convertToSockaddrIn_behind (h : e.Holds f bytes) {i : Nat}
    (hi : f.addrOffset + f.sizeofSockaddr ≤ i) (hunion : 28 ≤ i) :
    e.convertToSockaddrIn.mem i = e.mem i := by
  have hframe := Prog.run_frame e.mem convertProg (i := i)
  rw [run_convertProg] at hframe
  refine hframe ?_
  rw [h.writes_convertProg]
  have hsize : f.sizeofSockaddr ≤ 28 := by cases f <;> decide
  simp only [List.mem_cons, List.not_mem_nil, or_false, forall_eq_or_imp, forall_eq, Range.Has]
  omega

theorem Holds.convertToSockaddrIn_port (h : e.Holds f bytes) :
    e.convertToSockaddrIn.port = e.port := by
  have hslice : slice e.convertToSockaddrIn.mem portOffset 2 = slice e.mem portOffset 2 := by
    refine slice_congr fun i hi => h.convertToSockaddrIn_behind ?_ (Nat.le_add_right_of_le (by decide))
    exact Nat.le_add_right_of_le (by cases f <;> decide)
  rw [port, port, load, hslice, load]

/-- A cell that the copy reaches. -/
theorem Holds.convertToSockaddrIn_copied (h : e.Holds f bytes) {k : Nat}
    (hk : k < f.sizeofSockaddr) :
    e.convertToSockaddrIn.mem (f.addrOffset + k) = e.mem (addressOffset + k) := by
  have hheader := slice_eq_iff.1 (slice_header f e (o := addressOffset) (by decide) (k + 1)) k (by omega)
  rw [h.convertToSockaddrIn_mem, move, if_pos ⟨by omega, by omega⟩, Nat.add_sub_cancel_left, hheader]

/-- **`address_` survives** an IPv4 conversion; an IPv6 one only if its first 8 bytes are those of
`port_` and what lies behind it. -/
theorem Holds.keepsMembers_iff (h : e.Holds f bytes) :
    KeepsMembers e ↔ f = .v4 ∨ slice e.mem portOffset 8 = slice e.mem addressOffset 8 := by
  rw [KeepsMembers, and_iff_left h.convertToSockaddrIn_port, slice_eq_iff, slice_eq_iff]
  cases f with
  | v4 =>
    refine iff_of_true (fun i _ => h.convertToSockaddrIn_behind ?_ ?_) (Or.inl rfl)
    · exact Nat.le_add_right_of_le (by decide)
    · exact Nat.le_add_right_of_le (by decide)
  | v6 =>
    -- the copy ends 8 bytes into `address_`, with what was 20 bytes further on
    have hcopied (i : Nat) (hi : i < 8) :
        e.convertToSockaddrIn.mem (addressOffset + i) = e.mem (portOffset + i) := by
      have hk : 20 + i < Family.v6.sizeofSockaddr := by
        show 20 + i < 28
        omega
      have := h.convertToSockaddrIn_copied hk
      rwa [← Nat.add_assoc, ← Nat.add_assoc] at this
    constructor
    · intro hkeeps
      exact Or.inr fun i hi => (hcopied i hi).symm.trans (hkeeps i (Nat.lt_of_lt_of_le hi (by decide)))
    · rintro (hv4 | hsame) i hi
      · cases hv4
      · by_cases hi8 : i < 8
        · exact (hcopied i hi8).trans (hsame i hi8)
        · refine h.convertToSockaddrIn_behind ?_ ?_
          · show 8 + 28 ≤ 28 + i
            omega
          · show 28 ≤ 28 + i
            omega

/-- **No byte is stray** in the socket address of an IPv4 address with zeros behind it; `type_` is
in that of an IPv6 address. -/
theorem Holds.noStrayBytes_iff (h : e.Holds f bytes) :
    NoStrayBytes f e ↔ f = .v4 ∧ slice e.mem (addressOffset + 4) 8 = List.replicate 8 0 := by
  cases f with
  | v4 =>
    have hzero : slice e.mem (addressOffset + 4) 8 = List.replicate 8 0 ↔
        ∀ i, i < 8 → e.mem (addressOffset + 4 + i) = 0 := by
      show slice e.mem (addressOffset + 4) 8 = slice (fun _ => 0) 0 8 ↔ _
      exact slice_eq_iff
    have hcopied (i : Nat) (hi : i < 8) :
        e.convertToSockaddrIn.mem (8 + i) = e.mem (addressOffset + 4 + i) := by
      have hk : 4 + i < Family.v4.sizeofSockaddr := by
        show 4 + i < 16
        omega
      have := h.convertToSockaddrIn_copied hk
      rwa [← Nat.add_assoc, ← Nat.add_assoc] at this
    rw [and_iff_right rfl, hzero]
    constructor
    · intro hstray i hi
      have hin : 8 + i < Family.v4.sizeofSockaddr := by
        show 8 + i < 16
        omega
      rw [← hcopied i hi]
      exact hstray (8 + i) hin (by rw [Family.inField_v4]; omega)
    · intro hz i hi hfield
      have hi16 : i < 16 := hi
      rw [Family.inField_v4] at hfield
      obtain ⟨k, rfl⟩ := Nat.exists_eq_add_of_le (Nat.le_of_not_lt hfield)
      rw [hcopied k (by omega)]
      exact hz k (by omega)
  | v6 =>
    -- `sin6_scope_id` is `type_`
    refine iff_of_false (fun hstray => ?_) fun hv4 => by cases hv4.1
    have hcopied := h.convertToSockaddrIn_copied (k := 16) (by decide)
    have hzero : e.mem (addressOffset + 16) = 0 :=
      hcopied.symm.trans (hstray 24 (by decide) (by rw [Family.inField_v6]; omega))
    have htype : load e.mem (addressOffset + 16) 4 = 2 := h.type_eq
    have hmod := load_mod e.mem (addressOffset + 16) 3
    rw [htype, hzero] at hmod
    exact absurd hmod (by decide)

end

/-- **No conversion is clean**, and what it takes for each part of it. -/
theorem convertsCleanly_never (e : Endpoint) (f : Family)
    (hf : Address.typeAt e.mem addressOffset = f.type.value) :
    ¬ ConvertsCleanly f e ∧
      (ReadsInside e ↔ f = .v4) ∧ ¬ WritesSockaddr f e ∧
      (KeepsMembers e ↔ f = .v4 ∨ slice e.mem portOffset 8 = slice e.mem addressOffset 8) ∧
      (NoStrayBytes f e ↔ f = .v4 ∧ slice e.mem (addressOffset + 4) 8 = List.replicate 8 0) := by
  have h : e.Holds f _ := ⟨hf, rfl⟩
  exact ⟨fun hclean => h.not_writesSockaddr hclean.writes, h.readsInside_iff, h.not_writesSockaddr,
    h.keepsMembers_iff, h.noStrayBytes_iff⟩

/-- 127.0.0.1 in memory of zeros. -/
theorem convertsCleanly_never_loopback :
    ¬ ConvertsCleanly .v4 (((⟨fun _ => 0⟩ : Endpoint).setAddress loopback).setPort 80) :=
  (convertsCleanly_never (((⟨fun _ => 0⟩ : Endpoint).setAddress loopback).setPort 80) .v4
    (by decide +kernel)).1

/-- An address of type `t` with port 80, in an object that held only bytes 170. -/
def overwritten (t : AddressType) : Endpoint :=
  setPort ⟨Address.setType (fun _ => 170) addressOffset t⟩ 80

/-- **The rest of the union of an IPv4 address becomes `sin_zero`; an IPv6 address becomes the port
and the padding behind it.** -/
theorem conversion_leaves_stray_bytes :
    ¬ (∀ e f, Address.typeAt e.mem addressOffset = f.type.value → ConvertsCleanly f e) ∧
      ¬ NoStrayBytes .v4 (overwritten .ipv4) ∧ ¬ NoStrayBytes .v6 (overwritten .ipv6) ∧
        ¬ KeepsMembers (overwritten .ipv6) := by
  have hv4 : ¬ NoStrayBytes .v4 (overwritten .ipv4) := by decide +kernel
  refine ⟨fun h => ?_, hv4, by decide +kernel, by decide +kernel⟩
  exact hv4 (h (overwritten .ipv4) .v4 (by decide +kernel)).noStray

end Endpoint

end SmartRoutine
