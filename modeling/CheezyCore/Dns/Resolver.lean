import Mathlib.Algebra.Order.Ring.Int
import CheezyCore.Foundation.Netip

/-!
# Looking up both kinds of addresses

`Resolver.LookupIP` asks for A and AAAA records at once. When it has the answer for A it waits for
the other one as long as a timer runs. If the timer ends the wait, an error of the A exchange is
forgotten.
-/

namespace Dns

open Netip

inductive DnsType where
  | A
  | AAAA
  deriving DecidableEq

/-- A record of an answer, with the bytes of its address. -/
inductive Answer where
  | A (ip : List UInt8)
  | AAAA (ip : List UInt8)
  | other

def msgToIP (answers : List Answer) : List Addr :=
  answers.filterMap fun
    | .A ip | .AAAA ip =>
      let ip := (Addr.ofSlice ip).getD .zero
      if ip.isValid then some ip.unmap else none
    | .other => none

inductive LookupError (ε : Type*) where
  | ipVersion
  | ipNotFound
  | exchange (e : ε)
  deriving DecidableEq

abbrev Lookup (ε : Type*) := Except (LookupError ε) (List Addr)

variable {ε : Type*}

/-- `lookupIP`: `literal` is the host as an address, if it is one, and `exchange` the result of
`ExchangeContext` otherwise. -/
def lookupIP (literal : Option Addr) (exchange : Except ε (List Answer)) (dnsType : DnsType) :
    Lookup ε :=
  match literal with
  | some ip =>
    if dnsType = .AAAA ∧ ¬ ip.unmap.is4 then .ok [ip.unmap]
    else if dnsType = .A ∧ ip.unmap.is4 then .ok [ip.unmap]
    else .error .ipVersion
  | none =>
    match exchange with
    | .error e => .error (.exchange e)
    | .ok answers =>
      if (msgToIP answers).length = 0 then .error .ipNotFound else .ok (msgToIP answers)

theorem ne_nil_of_lookupIP {literal : Option Addr} {exchange : Except ε (List Answer)}
    {dnsType : DnsType} {ips : List Addr} (h : lookupIP literal exchange dnsType = .ok ips) :
    ips ≠ [] := by
  rintro rfl
  revert h
  fun_cases lookupIP literal exchange dnsType with
  | case6 answers hlength => exact fun h => hlength (by rw [Except.ok.inj h]; rfl)
  | _ => nofun

/-- The two cases of the `select`. -/
inductive Case where
  | channel
  | timer
  deriving DecidableEq

/-- When the two exchanges end, and when the `select` takes a case. -/
structure Timing where
  a : Int
  aaaa : Int
  select : Int

def waitIPv6 (ipv6Timeout : Int) : Int := if 0 < ipv6Timeout then ipv6Timeout else 100000000

def Timing.ready (t : Timing) (ipv6Timeout : Int) : Case → Bool
  | .channel => t.a ≤ t.select && t.aaaa ≤ t.select
  | .timer => t.a + waitIPv6 ipv6Timeout ≤ t.select

/-- The addresses that `lookupIP` returns, none together with an error. -/
def addresses : Lookup ε → List Addr
  | .ok ips => ips
  | .error _ => []

/-- `LookupIP` of a resolver, if the case is ready. -/
def Resolver.lookupIP (a aaaa : Lookup ε) (ipv6Timeout : Int) (t : Timing) (case : Case) :
    Option (List Addr × Option (LookupError ε)) :=
  if t.ready ipv6Timeout case then
    match case, a, aaaa with
    | .channel, .error _, .error _ => some ([], some .ipNotFound)
    | .channel, a, aaaa => some (addresses a ++ addresses aaaa, none)
    | .timer, a, _ => some (addresses a, none)
  else none

/-- What is expected of the result of `LookupIP`. -/
structure Reports (a aaaa : Lookup ε) (ips : List Addr) (err : Option (LookupError ε)) : Prop where
  failure : err = none → ips ≠ []
  source : ∀ ip ∈ ips, ip ∈ addresses a ∨ ip ∈ addresses aaaa
  first : ∀ found, a = .ok found → err = none ∧ found <+: ips

variable {ipv6Timeout : Int} {t : Timing} {case : Case} {ips : List Addr}
  {err : Option (LookupError ε)}

theorem reports_iff {a aaaa : Lookup ε} (hne : ∀ found, a = .ok found → found ≠ [])
    (hne' : ∀ found, aaaa = .ok found → found ≠ [])
    (h : Resolver.lookupIP a aaaa ipv6Timeout t case = some (ips, err)) :
    Reports a aaaa ips err ↔ (∃ found, a = .ok found) ∨ case = .channel := by
  have hresult := (Option.ite_none_right_eq_some.mp h).2
  cases a with
  | ok found =>
    have hsome : ∃ rest, ips = found ++ rest ∧ err = none ∧ ∀ ip ∈ rest, ip ∈ addresses aaaa := by
      cases case with
      | channel =>
        cases hresult
        exact ⟨_, rfl, rfl, fun _ => id⟩
      | timer =>
        cases hresult
        exact ⟨[], (List.append_nil _).symm, rfl, nofun⟩
    obtain ⟨rest, rfl, rfl, hrest⟩ := hsome
    refine iff_of_true ⟨fun _ => ?_, fun ip hip => ?_, ?_⟩ (.inl ⟨found, rfl⟩)
    · exact List.append_ne_nil_of_left_ne_nil (hne found rfl) rest
    · exact (List.mem_append.mp hip).imp_right (hrest ip)
    · rintro _ ⟨⟩
      exact ⟨rfl, List.prefix_append _ _⟩
  | error e =>
    cases case with
    | channel =>
      refine iff_of_true ?_ (.inr rfl)
      cases aaaa with
      | ok found =>
        cases hresult
        exact ⟨fun _ => hne' found rfl, fun _ => .inr, nofun⟩
      | error _ =>
        cases hresult
        exact ⟨nofun, nofun, nofun⟩
    | timer =>
      cases hresult
      exact iff_of_false (fun hreports => hreports.failure rfl rfl) (by simp)

/-- The result is as expected exactly if the A exchange succeeds or the timer does not end the
wait. -/
theorem lookupIP_reports_iff {literal : Option Addr} {a aaaa : Except ε (List Answer)}
    (h : Resolver.lookupIP (lookupIP literal a .A) (lookupIP literal aaaa .AAAA) ipv6Timeout t
      case = some (ips, err)) :
    Reports (lookupIP literal a .A) (lookupIP literal aaaa .AAAA) ips err ↔
      (∃ found, lookupIP literal a .A = .ok found) ∨ case = .channel :=
  reports_iff (fun _ => ne_nil_of_lookupIP) (fun _ => ne_nil_of_lookupIP) h

def v4Answer : Except String (List Answer) := .ok [.A [127, 0, 0, 1]]

def v6Answer : Except String (List Answer) := .ok [.AAAA (List.replicate 15 0 ++ [1])]

/-- One address of each kind; the AAAA exchange ends 20 ms after the other. -/
theorem lookupIP_reports_both :
    ∃ ips, Resolver.lookupIP (lookupIP none v4Answer .A) (lookupIP none v6Answer .AAAA) 0
        ⟨10000000, 30000000, 30000000⟩ .channel = some (ips, none) ∧
      Reports (lookupIP none v4Answer .A) (lookupIP none v6Answer .AAAA) ips none := by
  refine ⟨_, (and_iff_left_of_imp fun h => ?_).mpr rfl⟩
  exact (lookupIP_reports_iff h).mpr (.inr rfl)

/-- The A exchange fails after 10 ms, the AAAA exchange finds an address after 200 ms, and
`LookupIP` has returned no address and no error in between. -/
theorem lookupIP_no_address :
    Resolver.lookupIP (lookupIP none (.error "refused") .A) (lookupIP none v6Answer .AAAA) 0
      ⟨10000000, 200000000, 110000000⟩ .timer = some ([], none) :=
  rfl

end Dns
