import SmartRoutine.Endpoint
import SmartRoutine.Sockets

/-!
# Addresses given by text

What `make_address` accepts, against the two grammars of `inet_pton`, and what becomes of a text
that it rejects.

* `makeAddress_eq` — the family is attempted before anything is parsed.
* `typeAt_makeAddress`, `makeEndpoint_isSome` — the type is that of the attempt, whether or not it
  succeeds, and an endpoint has a socket address when there was one.
* `makeAddress_agrees_iff` — the addresses that are refused are the IPv6 ones with a dot.
* `makesExactly_iff` — accepting exactly the addresses and rejecting the rest cleanly **is** that
  the attempted parser accepts, if there is one.
-/

set_option autoImplicit false

namespace SmartRoutine

open Memory

/-- `inet_pton` for family `f`. -/
def InetPton.parse (P : InetPton) : Family → List UInt8 → Option (List UInt8)
  | .v4 => P.inet
  | .v6 => P.inet6

/-- What is documented of the two grammars: dots and no colon between the numbers of an IPv4
address, colons in an IPv6 address. -/
structure InetPton.Grammar (P : InetPton) : Prop where
  inet_dot : ∀ s bs, P.inet s = some bs → hasChar s '.'.toUInt8 = true
  inet_colon : ∀ s bs, P.inet s = some bs → hasChar s ':'.toUInt8 = false
  inet6_colon : ∀ s bs, P.inet6 s = some bs → hasChar s ':'.toUInt8 = true

/-- The family that `make_address` tries. -/
def attempted (addressStr : List UInt8) : Option Family :=
  if hasChar addressStr '.'.toUInt8 then some .v4
  else if hasChar addressStr ':'.toUInt8 then some .v6
  else none

/-- The `type_` that this leaves. -/
def attemptedType (addressStr : List UInt8) : AddressType :=
  (attempted addressStr).elim .none Family.type

/-! ## `make_address` -/

section

variable (P : InetPton) (raw : Object) (addressStr : List UInt8) (code : CodeVal)

theorem makeAddress_eq : makeAddress P raw addressStr code =
    match attempted addressStr with
    | none => (Address.new raw 0, .invalidArgument)
    | some f => parsed (Address.setType (Address.new raw 0) 0 f.type) code (P.parse f addressStr) := by
  unfold makeAddress attempted
  dsimp only
  split
  · rfl
  · split <;> rfl

theorem named_eq : named P addressStr =
    (attempted addressStr).bind fun f => (P.parse f addressStr).map (f, ·) := by
  unfold named attempted
  split
  · rfl
  · split <;> rfl

/-- An address parsed lies before `type_`. -/
theorem typeAt_parsed {f : Family} (address : Object) (h : Address.typeAt address 0 = f.type.value)
    {bs : Option (List UInt8)} (hlen : ∀ b, bs = some b → b.length = f.length) :
    Address.typeAt (parsed address code bs).1 0 = f.type.value := by
  cases bs with
  | none => exact h
  | some b => exact (Address.is_store h (hlen b rfl)).type_eq

theorem InetPton.length_parse {f : Family} {s bs : List UInt8} (h : P.parse f s = some bs) :
    bs.length = f.length := by
  cases f with
  | v4 => exact P.length_inet s bs h
  | v6 => exact P.length_inet6 s bs h

/-- **The type is that of the attempt**, whether or not it succeeds. -/
theorem typeAt_makeAddress :
    Address.typeAt (makeAddress P raw addressStr code).1 0 = (attemptedType addressStr).value := by
  rw [makeAddress_eq, attemptedType]
  cases attempted addressStr with
  | none => exact Address.typeAt_setType raw 0 .none
  | some f =>
    exact typeAt_parsed code _ (Address.typeAt_setType _ 0 f.type) fun b hb => P.length_parse hb

theorem makeAddress_error (h : named P addressStr = none) :
    (makeAddress P raw addressStr code).2 = .invalidArgument := by
  rw [named_eq] at h
  rw [makeAddress_eq]
  cases hf : attempted addressStr with
  | none => rfl
  | some f =>
    rw [hf, Option.bind_some, Option.map_eq_none_iff] at h
    simp only [h, parsed]

end

/-! ## Endpoints of a rejected text -/

namespace Endpoint

theorem typeAt_convertToSockaddrIn (e : Endpoint) :
    Address.typeAt e.convertToSockaddrIn.mem addressOffset = Address.typeAt e.mem addressOffset := by
  by_cases h : Address.isV4 e.mem addressOffset = true ∨ Address.isV6 e.mem addressOffset = true
  · obtain ⟨f, bytes, his⟩ := Address.exists_is h
    have hholds : e.Holds f bytes := his
    exact hholds.convertToSockaddrIn_type.trans his.type_eq.symm
  · rw [not_or, Bool.not_eq_true, Bool.not_eq_true] at h
    rw [convertToSockaddrIn, h.1, h.2]
    rfl

/-- Neither of the members before `type_` is written. -/
theorem typeAt_make (e : Endpoint) (address : Object) (p : UInt16) :
    Address.typeAt ((e.setAddress address).setPort p).convertToSockaddrIn.mem addressOffset =
      Address.typeAt address 0 := by
  rw [typeAt_convertToSockaddrIn, Address.typeAt, load, slice_setPort _ p (by decide)]
  have hset : slice (e.setAddress address).mem addressOffset Address.size =
      slice address 0 Address.size :=
    slice_store_slice e.mem addressOffset address 0 Address.size
  exact congrArg ofBytes (slice_part hset (k := Address.typeOffset) (n := 4) (by decide))

theorem toSockaddrIn_isSome_iff (e : Endpoint) : e.toSockaddrIn.isSome = true ↔
    ∃ f : Family, Address.typeAt e.mem addressOffset = f.type.value := by
  constructor
  · intro h
    obtain ⟨⟨s, n⟩, hs⟩ := Option.isSome_iff_exists.1 h
    rw [toSockaddrIn] at hs
    split at hs
    next hv4 => exact ⟨.v4, of_decide_eq_true hv4⟩
    next =>
      split at hs
      next hv6 => exact ⟨.v6, of_decide_eq_true hv6⟩
      next => cases hs
  · rintro ⟨f, hf⟩
    rw [toSockaddrIn_eq hf]
    rfl

end Endpoint

theorem AddressType.value_eq_iff {t : AddressType} :
    (∃ f : Family, t.value = f.type.value) ↔ t ≠ .none := by
  constructor
  · rintro ⟨f, hf⟩ rfl
    cases f <;> cases hf
  · intro h
    cases t with
    | none => exact absurd rfl h
    | ipv4 => exact ⟨.v4, rfl⟩
    | ipv6 => exact ⟨.v6, rfl⟩

section

variable (P : InetPton) (raw rawAddress : Object) (ip : List UInt8) (port : UInt16) (code : CodeVal)

/-- **An endpoint made of a text has a socket address when there was an attempt**, also if the text
was rejected. -/
theorem makeEndpoint_isSome :
    (makeEndpoint P raw rawAddress ip port code).1.toSockaddrIn.isSome = (attempted ip).isSome := by
  have htype : Address.typeAt (makeEndpoint P raw rawAddress ip port code).1.mem
      Endpoint.addressOffset = (attemptedType ip).value := by
    rw [makeEndpoint, Endpoint.typeAt_make, typeAt_makeAddress]
  rw [Bool.eq_iff_iff, Endpoint.toSockaddrIn_isSome_iff, htype, AddressType.value_eq_iff,
    attemptedType]
  cases attempted ip with
  | none => simp
  | some f => cases f <;> simp [Family.type]

/-- `bind` refuses an endpoint without a socket address, in any state of the socket. -/
theorem TcpSocket.bind_false (t : TcpSocket) (r : Returned) :
    t.bind false r code = ⟨t, .invalidArgument, []⟩ := by
  unfold TcpSocket.bind
  split <;> rfl

end

/-! ## The two grammars -/

section

variable {P : InetPton} {s : List UInt8} (hP : P.Grammar)

include hP

/-- A text of neither grammar's punctuation is no address. -/
theorem InetPton.Grammar.attempted_isSome {f : Family} (h : (P.parse f s).isSome = true) :
    (attempted s).isSome = true := by
  obtain ⟨bs, hbs⟩ := Option.isSome_iff_exists.1 h
  unfold attempted
  cases f with
  | v4 => rw [if_pos (hP.inet_dot s bs hbs)]; rfl
  | v6 =>
    rw [if_pos (hP.inet6_colon s bs hbs)]
    split <;> rfl

/-- No text is an address of both families. -/
theorem InetPton.Grammar.unique {f g : Family} (hf : (P.parse f s).isSome = true)
    (hg : (P.parse g s).isSome = true) : f = g := by
  have hapart (h4 : (P.inet s).isSome = true) (h6 : (P.inet6 s).isSome = true) : False := by
    obtain ⟨bs, hbs⟩ := Option.isSome_iff_exists.1 h4
    obtain ⟨bs', hbs'⟩ := Option.isSome_iff_exists.1 h6
    have hcolon := hP.inet_colon s bs hbs
    rw [hP.inet6_colon s bs' hbs'] at hcolon
    cases hcolon
  cases f <;> cases g
  · rfl
  · exact (hapart hf hg).elim
  · exact (hapart hg hf).elim
  · rfl

/-- What is accepted is accepted in the family attempted, but for an IPv6 address with a dot. -/
theorem InetPton.Grammar.attempted_eq {f : Family} (h : (P.parse f s).isSome = true)
    (hdot : ¬ (hasChar s '.'.toUInt8 = true ∧ (P.inet6 s).isSome = true)) : attempted s = some f := by
  obtain ⟨bs, hbs⟩ := Option.isSome_iff_exists.1 h
  unfold attempted
  cases f with
  | v4 => rw [if_pos (hP.inet_dot s bs hbs)]
  | v6 => rw [if_neg fun hs => hdot ⟨hs, h⟩, if_pos (hP.inet6_colon s bs hbs)]

end

/-- `inet_pton` accepts the text for one of the families. -/
def InetPton.Accepts (P : InetPton) (s : List UInt8) : Prop := ∃ f, (P.parse f s).isSome = true

/-- **`make_address` accepts exactly the textual addresses and rejects cleanly.** -/
structure MakesExactly (P : InetPton) (s : List UInt8) : Prop where
  success_iff : ∀ raw, (makeAddress P raw s .success).2 = .success ↔ P.Accepts s
  is : ∀ raw code f bs, P.parse f s = some bs → Address.Is (makeAddress P raw s code).1 0 f bs
  rejected : ∀ raw code, ¬ P.Accepts s → (makeAddress P raw s code).2 = .invalidArgument ∧
    Address.isV4 (makeAddress P raw s code).1 0 = false ∧
    Address.isV6 (makeAddress P raw s code).1 0 = false
  refused : ∀ raw rawAddress port, (makeEndpoint P raw rawAddress s port .success).2 ≠ .success →
    (makeEndpoint P raw rawAddress s port .success).1.toSockaddrIn = none ∧
      ∀ (t : TcpSocket) (r : Returned) (ec : CodeVal),
        t.bind (makeEndpoint P raw rawAddress s port .success).1.toSockaddrIn.isSome r ec =
          ⟨t, .invalidArgument, []⟩

/-- The parser of the family attempted accepts, if there is one. -/
def AttemptAccepts (P : InetPton) (s : List UInt8) : Prop :=
  ∀ f, attempted s = some f → (P.parse f s).isSome = true

section

variable {P : InetPton} {s : List UInt8}

theorem named_isSome_iff : (named P s).isSome = true ↔
    ∃ f, attempted s = some f ∧ (P.parse f s).isSome = true := by
  rw [named_eq]
  cases attempted s with
  | none => simp
  | some f => simp

/-- **The addresses that are refused are the IPv6 ones with a dot.** -/
theorem makeAddress_agrees_iff (hP : P.Grammar) (raw : Object) :
    ((makeAddress P raw s .success).2 = .success ↔ P.Accepts s) ↔
      ¬ (hasChar s '.'.toUInt8 = true ∧ (P.inet6 s).isSome = true) := by
  rw [makeAddress_code, named_isSome_iff]
  constructor
  · rintro hagree ⟨hdot, hinet6⟩
    obtain ⟨f, hf, haccepts⟩ := hagree.2 ⟨.v6, hinet6⟩
    rw [attempted, if_pos hdot] at hf
    cases hf
    cases hP.unique (f := .v4) (g := .v6) haccepts hinet6
  · intro hdot
    constructor
    · rintro ⟨f, -, haccepts⟩
      exact ⟨f, haccepts⟩
    · rintro ⟨f, haccepts⟩
      exact ⟨f, hP.attempted_eq haccepts hdot, haccepts⟩

/-- A text that is parsed as what it is. -/
theorem makesExactly_of_parse (hP : P.Grammar) {f : Family} {bytes : List UInt8}
    (hf : attempted s = some f) (hbytes : P.parse f s = some bytes) : MakesExactly P s := by
  have haccepts : P.Accepts s := ⟨f, Option.isSome_iff_exists.2 ⟨bytes, hbytes⟩⟩
  have hnamed : named P s = some (f, bytes) := by
    rw [named_eq, hf, Option.bind_some, hbytes, Option.map_some]
  have hcode (raw : Object) : (makeAddress P raw s .success).2 = .success :=
    (makeAddress_code P raw s).2 (Option.isSome_iff_exists.2 ⟨_, hnamed⟩)
  refine ⟨fun raw => iff_of_true (hcode raw) haccepts, ?_, fun _ _ h => absurd haccepts h,
    fun _ rawAddress _ h => absurd (hcode rawAddress) h⟩
  intro raw code g bs hbs
  obtain rfl : f = g :=
    hP.unique (Option.isSome_iff_exists.2 ⟨_, hbytes⟩) (Option.isSome_iff_exists.2 ⟨_, hbs⟩)
  obtain rfl : bytes = bs := Option.some.inj (hbytes.symm.trans hbs)
  exact makeAddress_is P raw s hnamed code

/-- A text with neither a dot nor a colon. -/
theorem makesExactly_of_none (hP : P.Grammar) (hs : attempted s = none) : MakesExactly P s := by
  have hnot : ¬ P.Accepts s := by
    rintro ⟨f, haccepts⟩
    have := hP.attempted_isSome haccepts
    rw [hs] at this
    cases this
  have herror (raw : Object) (code : CodeVal) : makeAddress P raw s code =
      (Address.new raw 0, .invalidArgument) := by
    rw [makeAddress_eq, hs]
  have htype (raw : Object) : Address.typeAt (Address.new raw 0) 0 = AddressType.none.value :=
    Address.typeAt_setType raw 0 .none
  refine ⟨fun raw => ?_, ?_, ?_, ?_⟩
  · rw [herror]
    exact iff_of_false CodeVal.noConfusion hnot
  · intro raw code f bs hbs
    exact absurd ⟨f, Option.isSome_iff_exists.2 ⟨bs, hbs⟩⟩ hnot
  · intro raw code _
    rw [herror, Address.isV4, Address.isV6, htype]
    exact ⟨rfl, rfl, rfl⟩
  · intro raw rawAddress port _
    have hnone := makeEndpoint_isSome P raw rawAddress s port .success
    rw [hs] at hnone
    refine ⟨Option.isNone_iff_eq_none.1 (Option.isSome_eq_false_iff.1 hnone), fun t r ec => ?_⟩
    rw [hnone]
    exact t.bind_false ec r

end

/-- **Exactly the addresses are accepted and the rest rejected cleanly if and only if the attempted
parser accepts, or none is attempted.** -/
theorem makesExactly_iff (P : InetPton) (hP : P.Grammar) (s : List UInt8) :
    MakesExactly P s ↔ AttemptAccepts P s := by
  constructor
  · intro h f hf
    by_contra hrejected
    have hnot : ¬ P.Accepts s := by
      intro haccepts
      have hsuccess := (h.success_iff fun _ => 0).2 haccepts
      rw [makeAddress_code, named_isSome_iff] at hsuccess
      obtain ⟨g, hg, hgaccepts⟩ := hsuccess
      obtain rfl : f = g := Option.some.inj (hf.symm.trans hg)
      exact hrejected hgaccepts
    -- the type was set before the parse
    obtain ⟨-, hv4, hv6⟩ := h.rejected (fun _ => 0) .success hnot
    rw [Address.isV4, typeAt_makeAddress, attemptedType, hf] at hv4
    rw [Address.isV6, typeAt_makeAddress, attemptedType, hf] at hv6
    cases f with
    | v4 => exact absurd hv4 (by decide)
    | v6 => exact absurd hv6 (by decide)
  · intro h
    cases hs : attempted s with
    | none => exact makesExactly_of_none hP hs
    | some f =>
      obtain ⟨bytes, hbytes⟩ := Option.isSome_iff_exists.1 (h f hs)
      exact makesExactly_of_parse hP hs hbytes

/-! ## Three texts -/

/-- `1.2.3.4`. -/
def quad : List UInt8 := ['1', '.', '2', '.', '3', '.', '4'].map Char.toUInt8

/-- `::ffff:1.2.3.4`. -/
def mappedQuad : List UInt8 := [':', ':', 'f', 'f', 'f', 'f', ':'].map Char.toUInt8 ++ quad

/-- `1.2.3`. -/
def threeParts : List UInt8 := ['1', '.', '2', '.', '3'].map Char.toUInt8

/-- What `inet_pton` says of them. -/
def inetTable : InetPton where
  inet s := if s = quad then some [1, 2, 3, 4] else none
  inet6 s := if s = mappedQuad then some (List.replicate 10 0 ++ [255, 255, 1, 2, 3, 4]) else none
  length_inet s bs h := by
    split at h
    · cases h; rfl
    · cases h
  length_inet6 s bs h := by
    split at h
    · cases h; rfl
    · cases h

theorem inetTable_grammar : inetTable.Grammar := by
  have hinet {s bs : List UInt8} (h : inetTable.inet s = some bs) : s = quad :=
    (Option.ite_none_right_eq_some.1 h).1
  have hinet6 {s bs : List UInt8} (h : inetTable.inet6 s = some bs) : s = mappedQuad :=
    (Option.ite_none_right_eq_some.1 h).1
  refine ⟨fun s bs h => ?_, fun s bs h => ?_, fun s bs h => ?_⟩
  · rw [hinet h]; decide
  · rw [hinet h]; decide
  · rw [hinet6 h]; decide

/-- `1.2.3.4` is taken for what it is. -/
theorem makesExactly_iff_quad : MakesExactly inetTable quad :=
  (makesExactly_iff inetTable inetTable_grammar quad).2 (by
    intro f hf
    have hv4 : attempted quad = some .v4 := by decide
    obtain rfl : Family.v4 = f := Option.some.inj (hv4.symm.trans hf)
    decide)

/-- **The IPv6 address `::ffff:1.2.3.4` is refused, and `bind` is called with `1.2.3`.** -/
theorem dotted_text_is_taken_for_ipv4 :
    ¬ (∀ P : InetPton, P.Grammar → ∀ s, MakesExactly P s) ∧
      ¬ MakesExactly inetTable mappedQuad ∧ ¬ MakesExactly inetTable threeParts ∧
      (TcpSocket.bind ⟨3, true, false, false⟩
        (makeEndpoint inetTable (fun _ => 0) (fun _ => 0) threeParts 80 .success).1.toSockaddrIn.isSome
        ⟨0, 0⟩ .success).calls = [.bind 3 true] := by
  have hsome : (makeEndpoint inetTable (fun _ => 0) (fun _ => 0) threeParts 80
      .success).1.toSockaddrIn.isSome = true := by
    rw [makeEndpoint_isSome]
    decide
  have hmapped : ¬ MakesExactly inetTable mappedQuad := by
    intro h
    have hsuccess := (h.success_iff fun _ => 0).2 ⟨.v6, by decide⟩
    rw [makeAddress_code] at hsuccess
    exact absurd hsuccess (by decide)
  refine ⟨fun h => hmapped (h inetTable inetTable_grammar mappedQuad), hmapped, fun h => ?_, ?_⟩
  · have herror := makeAddress_error inetTable (fun _ => 0) threeParts .success (by decide)
    have hnone := (h.refused (fun _ => 0) (fun _ => 0) 80 fun hs => by cases herror.symm.trans hs).1
    rw [hnone] at hsome
    cases hsome
  · rw [hsome]
    rfl

end SmartRoutine
