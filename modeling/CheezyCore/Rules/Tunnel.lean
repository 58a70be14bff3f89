import CheezyCore.Foundation.Netip
import CheezyCore.Rules.FirstMatch

/-!
# Sub-rules with the tunnel's helper

The rules `DOMAIN`, `IP-CIDR`, `SRC-IP-CIDR` and `UID` stand for those that only read, that
have the destination resolved and that have the process looked up. With the helper the
tunnel makes for a connection, repeating tests gives the same answers exactly if resolving
the destination brings nothing new. Otherwise an `IP-CIDR` rule with `no-resolve` that did
not match may match when its list is gone through a second time.
-/

namespace Netip.Addr

/-- `ip.WithZone("")`. -/
def withoutZone : Addr → Addr
  | .v6 x _ => .v6 x []
  | a => a

end Netip.Addr

namespace Rules

open Netip Probing

/-- What matching reads of the metadata of a connection, and the variables the functions of
the tunnel's helper share. -/
structure Session where
  host : Name
  sniffHost : Name
  srcIP : Addr
  dstIP : Addr
  uid : Nat
  resolved : Bool
  attemptProcessLookup : Bool
  deriving DecidableEq

namespace Session

/-- `metadata.RuleHost()`. -/
def ruleHost (s : Session) : Name := if s.sniffHost = [] then s.host else s.sniffHost

/-- `ResolveIP` of the tunnel's helper, given what the resolver says of a host. -/
def resolveIP (resolve : Name → Option Addr) (s : Session) : Session :=
  if !s.resolved && s.host != [] && !s.dstIP.isValid then
    { s with dstIP := (resolve s.host).getD s.dstIP, resolved := true }
  else s

/-- `FindProcess` of the tunnel's helper, given what is found about the process. -/
def findProcess (process : Option Nat) (s : Session) : Session :=
  if s.attemptProcessLookup then
    { s with attemptProcessLookup := false, uid := process.getD s.uid }
  else s

end Session

/-- The helper of `resolveMetadata`. -/
def tunnelHelper (resolve : Name → Option Addr) (process : Option Nat)
    (checkPassRule : Option (Name → Bool)) : RuleMatchHelper Session where
  resolveIP := some (Session.resolveIP resolve)
  findProcess := some (Session.findProcess process)
  checkPassRule := checkPassRule

inductive PlainRule where
  | domain (domain : Name)
  | ipCIDR (ipnet : Prefix) (isSourceIP noResolveIP : Bool)
  | uid (uids : List (Nat × Nat))

namespace PlainRule

/-- Call a function of the helper if it is there. -/
def invoke (f : Option (Session → Session)) (s : Session) : Session :=
  match f with
  | some f => f s
  | none => s

/-- `ip.IsValid() && i.ipnet.Contains(ip.WithZone(""))`. -/
def inNet (ipnet : Prefix) (ip : Addr) : Bool := ip.isValid && ipnet.contains ip.withoutZone

end PlainRule

/-- `Match`, without the adapter. -/
def PlainRule.match : PlainRule → RuleMatchHelper Session → Session → Bool × Session
  | .domain name, _, s => (s.ruleHost == name, s)
  | .ipCIDR ipnet isSourceIP noResolveIP, helper, s =>
    let s := if !noResolveIP && !isSourceIP then invoke helper.resolveIP s else s
    (inNet ipnet (if isSourceIP then s.srcIP else s.dstIP), s)
  -- An empty list matches nothing here and everything in `IntRanges.Check`; a `UID` rule is
  -- not made with one.
  | .uid uids, helper, s =>
    let s := invoke helper.findProcess s
    (s.uid != 0 && uids.any fun range => range.1 ≤ s.uid && s.uid ≤ range.2, s)

namespace Session

variable {resolve : Name → Option Addr} {s : Session}

/-- Resolving the destination brings nothing new. -/
def Settled (resolve : Name → Option Addr) (s : Session) : Prop :=
  s.resolved ∨ s.host = [] ∨ s.dstIP.isValid ∨ ∀ ip, resolve s.host = some ip → ¬ ip.isValid

/-- The uid after the process is looked up. -/
def foundUid (process : Option Nat) (s : Session) : Nat :=
  if s.attemptProcessLookup then process.getD s.uid else s.uid

/-- What the rules see. -/
structure View where
  ruleHost : Name
  srcIP : Addr
  dstIP : Option Addr
  uid : Nat

def view (process : Option Nat) (s : Session) : View where
  ruleHost := s.ruleHost
  srcIP := s.srcIP
  dstIP := if s.dstIP.isValid then some s.dstIP else none
  uid := s.foundUid process

theorem settled_resolveIP (process : Option Nat) (h : s.Settled resolve) :
    (s.resolveIP resolve).Settled resolve ∧
      (s.resolveIP resolve).view process = s.view process := by
  unfold resolveIP
  split
  next hcond =>
    simp only [Bool.and_eq_true, Bool.not_eq_true', bne_iff_ne] at hcond
    obtain ⟨⟨hresolved, hhost⟩, hvalid⟩ := hcond
    have hnothing : ∀ ip, resolve s.host = some ip → ¬ ip.isValid := by
      simpa [Settled, hresolved, hhost, hvalid] using h
    have hdst : ((resolve s.host).getD s.dstIP).isValid = false := by
      cases hip : resolve s.host with
      | none => exact hvalid
      | some ip => exact Bool.eq_false_iff.mpr (hnothing ip hip)
    refine ⟨.inl rfl, ?_⟩
    simp [view, foundUid, ruleHost, hdst, hvalid]
  next => exact ⟨h, rfl⟩

theorem settled_findProcess (process : Option Nat) (h : s.Settled resolve) :
    (s.findProcess process).Settled resolve ∧
      (s.findProcess process).view process = s.view process := by
  unfold findProcess
  split
  next hattempt =>
    refine ⟨h, ?_⟩
    simp [view, foundUid, ruleHost, hattempt]
  next => exact ⟨h, rfl⟩

theorem uid_findProcess (process : Option Nat) (s : Session) :
    (s.findProcess process).uid = s.foundUid process := by
  unfold findProcess foundUid
  split <;> rfl

end Session

/-- What a rule answers, from what it sees. -/
def PlainRule.answer (view : Session.View) : PlainRule → Bool
  | .domain name => view.ruleHost == name
  | .ipCIDR ipnet true _ => inNet ipnet view.srcIP
  | .ipCIDR ipnet false _ => view.dstIP.any (inNet ipnet)
  | .uid uids => view.uid != 0 && uids.any fun range => range.1 ≤ view.uid && view.uid ≤ range.2

section Tunnel

variable {resolve : Name → Option Addr} {process : Option Nat}
variable {checkPassRule : Option (Name → Bool)} {s : Session}

theorem match_keeps (rule : PlainRule) (h : s.Settled resolve) :
    (rule.match (tunnelHelper resolve process checkPassRule) s).2.Settled resolve ∧
      (rule.match (tunnelHelper resolve process checkPassRule) s).2.view process
        = s.view process := by
  cases rule with
  | domain name => exact ⟨h, rfl⟩
  | ipCIDR ipnet isSourceIP noResolveIP =>
    unfold PlainRule.match
    dsimp only
    split
    · exact Session.settled_resolveIP process h
    · exact ⟨h, rfl⟩
  | uid uids => exact Session.settled_findProcess process h

theorem match_sees (rule : PlainRule) (h : s.Settled resolve) :
    (rule.match (tunnelHelper resolve process checkPassRule) s).1
      = rule.answer (s.view process) := by
  cases rule with
  | domain name => rfl
  | ipCIDR ipnet isSourceIP noResolveIP =>
    have haddr (u : Session) : PlainRule.inNet ipnet (if isSourceIP then u.srcIP else u.dstIP)
        = PlainRule.answer (u.view process) (.ipCIDR ipnet isSourceIP noResolveIP) := by
      cases isSourceIP with
      | true => rfl
      | false => cases hvalid : u.dstIP.isValid <;> simp [PlainRule.inNet, PlainRule.answer,
          Session.view, hvalid]
    refine (haddr _).trans (congrArg (PlainRule.answer · _) ?_)
    split
    · exact (Session.settled_resolveIP process h).2
    · rfl
  | uid uids =>
    simp only [PlainRule.match, tunnelHelper, PlainRule.invoke, Session.uid_findProcess]
    rfl

theorem repeatable_of_settled (h : s.Settled resolve) :
    Repeatable (fun rule : PlainRule => rule.match (tunnelHelper resolve process checkPassRule))
      s :=
  repeatable_of_view (Session.Settled resolve) (Session.view process)
    (fun rule view => rule.answer view) (fun rule _ hu => match_keeps rule hu)
    (fun rule _ hu => match_sees rule hu) h

/-- The prefix of one address. -/
def singleNet (ip : Addr) (h : ip.isValid) : Prefix where
  ip := ip.withoutZone
  bits := ip.bitLen
  isValid := by cases ip <;> first | rfl | exact h
  noZone := by cases ip <;> rfl
  bits_le := by cases ip <;> exact Nat.le_refl _

theorem inNet_singleNet {ip : Addr} (h : ip.isValid) :
    PlainRule.inNet (singleNet ip h) ip = true := by
  cases ip with
  | invalid x => cases h
  | v4 x
  | v6 x z => simp [PlainRule.inNet, singleNet, Prefix.contains, Addr.withoutZone, Addr.isValid]

/-- With the tunnel's helper, tests can be repeated exactly if the destination needs no
resolving or resolving it brings nothing. -/
theorem repeatable_tunnelHelper_iff :
    Repeatable (fun rule : PlainRule => rule.match (tunnelHelper resolve process checkPassRule)) s
      ↔ s.Settled resolve := by
  constructor
  · intro h
    by_contra hnot
    simp only [Session.Settled, not_or, not_forall, not_not] at hnot
    obtain ⟨hresolved, hhost, hvalid, ip, hip, hipValid⟩ := hnot
    -- a rule that does not resolve before one that does
    have hanswers := h [] [.ipCIDR (singleNet ip hipValid) false true,
      .ipCIDR (singleNet ip hipValid) false false]
    have hfound : (s.resolveIP resolve).dstIP = ip := by
      simp [Session.resolveIP, hresolved, hhost, hvalid, hip]
    have hunknown : PlainRule.inNet (singleNet ip hipValid) s.dstIP = false := by
      simp [PlainRule.inNet, hvalid]
    simp [answers, PlainRule.match, tunnelHelper, PlainRule.invoke, hfound,
      hunknown, inNet_singleNet] at hanswers
  · exact repeatable_of_settled

end Tunnel

section SecondPass

open Strings

end SecondPass

end Rules
