import Mathlib.Logic.Function.Basic
import SmartRoutine.Endpoint
import SmartRoutine.Lib.Transition

/-!
# The cached socket address

A program builds endpoints and changes them; beside each one stands the socket address that it was
given last.

* `CacheEncodes` — `to_sockaddr_in` of every endpoint returns what the endpoint was given.
* `run_cacheEncodes_iff` — a run keeps it **exactly** when every `from_sockaddr` finds in the union
  what it is given: the others write the union, `from_sockaddr` never does.
* `accepted_endpoint_is_stale` — an endpoint filled by `from_sockaddr` alone.

An operation that is given no address leaves none owed: the default constructor, `make_endpoint`
with an error, `Endpoint(address, port)` of an `Address` of neither family.
-/

set_option autoImplicit false

namespace SmartRoutine

open Memory

namespace EndpointCache

/-- An endpoint of the program, with the socket address it was given last. -/
structure Cell where
  endpoint : Endpoint
  given : Option SocketAddress

/-- The endpoints that have been built. -/
abbrev Endpoints (ι : Type) := ι → Option Cell

/-- Operations that build or change the endpoint `i`.  `raw` is what the memory of a new object
holds, `rawAddress` that of the `Address` inside `make_address`. -/
inductive Op (ι : Type) where
  | newEndpoint (i : ι) (raw : Object)
  | ofAddress (i : ι) (raw address : Object) (port : UInt16)
  | makeEndpoint (i : ι) (raw rawAddress : Object) (ip : List UInt8) (port : UInt16) (code : CodeVal)
  | fromSockaddr (i : ι) (address : Object)
  | copy (i j : ι) (raw : Object)

/-- What an address and a port give. -/
def givenBy (address : Object) (port : UInt16) : Option SocketAddress :=
  if Address.isV4 address 0 then some ⟨.v4, htons port, slice address 0 4⟩
  else if Address.isV6 address 0 then some ⟨.v6, htons port, slice address 0 16⟩
  else none

/-- What a text and a port give. -/
def givenByText (P : InetPton) (ip : List UInt8) (port : UInt16) : Option SocketAddress :=
  (named P ip).map fun (f, bytes) => ⟨f, htons port, bytes⟩

section

variable {ι : Type} [DecidableEq ι]

def assign (s : Endpoints ι) (i : ι) (endpoint : Endpoint) (given : Option SocketAddress) :
    Endpoints ι :=
  Function.update s i (some ⟨endpoint, given⟩)

/-- One operation; an endpoint that is changed or copied has been built before. -/
def step (P : InetPton) (s : Endpoints ι) : Op ι → Option (Endpoints ι)
  | .newEndpoint i raw => some (assign s i (Endpoint.new raw) none)
  | .ofAddress i raw address port =>
    some (assign s i (Endpoint.ofAddress raw address port) (givenBy address port))
  | .makeEndpoint i raw rawAddress ip port code =>
    some (assign s i (makeEndpoint P raw rawAddress ip port code).1 (givenByText P ip port))
  | .fromSockaddr i address =>
    (s i).map fun c =>
      assign s i (c.endpoint.fromSockaddr address) ((SocketAddress.read address).or c.given)
  | .copy i j raw => (s j).map fun c => assign s i (c.endpoint.copy raw) c.given

/-- **The cached socket address encodes what the endpoint was given.** -/
def CacheEncodes (s : Endpoints ι) : Prop :=
  ∀ i c, s i = some c → ∀ g, c.given = some g → c.endpoint.Returns g

/-- A `from_sockaddr` that finds in the union what it is given. -/
def FindsItCached (s : Endpoints ι) : Op ι → Prop
  | .fromSockaddr i address =>
    ∀ c, s i = some c → ∀ g, SocketAddress.read address = some g →
      SocketAddress.read c.endpoint.mem = some g
  | _ => True

end

/-! ## One operation -/

section

variable {ι : Type} [DecidableEq ι] {P : InetPton} {s s' : Endpoints ι} {op : Op ι} {i : ι}
  {e : Endpoint} {given : Option SocketAddress} {g : SocketAddress}

theorem givenBy_eq {address : Object} {p : UInt16} (h : givenBy address p = some g) :
    Address.Is address 0 g.family g.bytes ∧ g.port = htons p := by
  unfold givenBy at h
  split at h
  next hv4 =>
    cases h
    exact ⟨⟨of_decide_eq_true hv4, rfl⟩, rfl⟩
  next =>
    split at h
    next hv6 =>
      cases h
      exact ⟨⟨of_decide_eq_true hv6, rfl⟩, rfl⟩
    next => cases h

theorem ofAddress_returns {address : Object} {p : UInt16} (h : givenBy address p = some g)
    (raw : Object) : (Endpoint.ofAddress raw address p).Returns g := by
  obtain ⟨his, hport⟩ := givenBy_eq h
  obtain ⟨f, port, bytes⟩ := g
  dsimp only at hport
  rw [hport]
  exact Endpoint.ofAddress_returns his raw p

theorem makeEndpoint_returns {ip : List UInt8} {p : UInt16} (h : givenByText P ip p = some g)
    (raw rawAddress : Object) (code : CodeVal) :
    (makeEndpoint P raw rawAddress ip p code).1.Returns g := by
  obtain ⟨⟨f, bytes⟩, hnamed, rfl⟩ := Option.map_eq_some_iff.1 h
  exact Endpoint.makeEndpoint_returns hnamed raw rawAddress p code

/-- Only the cell written has to be looked at. -/
theorem cacheEncodes_assign (h : CacheEncodes s) :
    CacheEncodes (assign s i e given) ↔ ∀ g, given = some g → e.Returns g := by
  constructor
  · intro hassign
    exact hassign i _ (Function.update_self ..)
  · intro hnew j c hj
    by_cases hji : j = i
    · subst hji
      rw [assign, Function.update_self] at hj
      cases hj
      exact hnew
    · rw [assign, Function.update_of_ne hji] at hj
      exact h j c hj

/-- **One operation** keeps the cached addresses right exactly when a `from_sockaddr` finds in the
union what it is given. -/
theorem step_cacheEncodes_iff (h : CacheEncodes s) (hstep : step P s op = some s') :
    CacheEncodes s' ↔ FindsItCached s op := by
  cases op with
  | newEndpoint i raw =>
    cases hstep
    rw [cacheEncodes_assign h]
    exact ⟨fun _ => trivial, fun _ g hg => by cases hg⟩
  | ofAddress i raw address port =>
    cases hstep
    rw [cacheEncodes_assign h]
    exact ⟨fun _ => trivial, fun _ g hg => ofAddress_returns hg raw⟩
  | makeEndpoint i raw rawAddress ip port code =>
    cases hstep
    rw [cacheEncodes_assign h]
    exact ⟨fun _ => trivial, fun _ g hg => makeEndpoint_returns hg raw rawAddress code⟩
  | copy i j raw =>
    obtain ⟨c, hc, rfl⟩ := Option.map_eq_some_iff.1 hstep
    rw [cacheEncodes_assign h]
    exact ⟨fun _ => trivial, fun _ g hg => Endpoint.copy_returns (h j c hc g hg) raw⟩
  | fromSockaddr i address =>
    obtain ⟨c, hc, rfl⟩ := Option.map_eq_some_iff.1 hstep
    rw [cacheEncodes_assign h]
    cases hread : SocketAddress.read address with
    | none =>
      -- another family: neither the endpoint nor what it was given changes
      rw [Endpoint.fromSockaddr_of_none hread, Option.none_or]
      constructor
      · intro _ _ _ g hg
        rw [hread] at hg
        cases hg
      · intro _
        exact h i c hc
    | some g =>
      have hiff := Endpoint.fromSockaddr_returns_iff hread c.endpoint
      rw [Option.some_or]
      constructor
      · intro hnew c' hc' g' hg'
        rw [hc] at hc'
        rw [hread] at hg'
        cases hc'
        cases hg'
        exact hiff.1 (hnew g rfl)
      · intro hfinds g' hg'
        cases hg'
        exact hiff.2 (hfinds c hc g hread)

end

/-! ## Every run -/

/-- **A run keeps every cached socket address right exactly when each `from_sockaddr` finds in the
union what it is given.** -/
theorem run_cacheEncodes_iff {ι : Type} [DecidableEq ι] (P : InetPton) (ops : List (Op ι)) :
    Transition.Always (step P) CacheEncodes (fun _ => none) ops ↔
      Transition.Guarded (step P) FindsItCached (fun _ => none) ops := by
  have hempty : CacheEncodes fun _ : ι => none := by
    intro i c hc
    cases hc
  exact Transition.always_iff_guarded (J := fun _ => True) (fun _ _ _ _ _ _ _ => trivial)
    (fun s op s' _ h hstep => step_cacheEncodes_iff h hstep) ops _ trivial hempty

/-- A `sockaddr_in` with port 80 and 10.0.0.1, as `accept` fills it. -/
def peerSockaddr : Object := store (fun _ => 0) 0 [2, 0, 0, 80, 10, 0, 0, 1]

/-- An `inet_pton` that is not asked. -/
def noText : InetPton where
  inet _ := none
  inet6 _ := none
  length_inet _ _ h := by cases h
  length_inet6 _ _ h := by cases h

/-- **The endpoint that `accept` fills has no socket address.** -/
theorem accepted_endpoint_is_stale :
    ¬ Transition.Always (step noText) CacheEncodes (fun _ : Unit => none)
      [.newEndpoint () fun _ => 0, .fromSockaddr () peerSockaddr] := by
  rintro ⟨-, -, h⟩
  have hreturns : ((Endpoint.new fun _ => 0).fromSockaddr peerSockaddr).Returns
      ⟨.v4, 80 * 256, [10, 0, 0, 1]⟩ :=
    h () ⟨(Endpoint.new fun _ => 0).fromSockaddr peerSockaddr, _⟩ rfl _ (by decide +kernel)
  exact absurd hreturns (by decide +kernel)

end EndpointCache

end SmartRoutine
