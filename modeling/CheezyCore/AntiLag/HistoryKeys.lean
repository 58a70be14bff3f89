import CheezyCore.Foundation.Netip
import CheezyCore.Foundation.Strings
import CheezyCore.XrayMux.Frame

/-!
# The keys of the route history

A key joins network, address family, node name, classification and destination
with one separator, and escapes it in none of them. The keys of two nodes are apart
exactly as long as neither name continues the other one after a separator.
-/

namespace AntiLag

open Netip Strings
open XrayMux (NetWork)

abbrev Text := List UInt8

/-- The fields of `C.Metadata` that a key is made of. -/
structure KeyMetadata where
  netWork : NetWork := .TCP
  dstIP : Netip.Addr := .v4 0
  dstPort : UInt16 := 0
  host : Text := []
  process : Text := []
  wildcardTarget : Text := []
  destinationRegion : Text := []
  geoSource : Text := []
  dstIPASN : Text := []

/-- `NetWork.String`. -/
def networkString : NetWork → Text
  | .TCP => bytes "tcp"
  | .UDP => bytes "udp"
  | .ALLNet => bytes "all"
  | .InvalidNet => bytes "invalid"

def family (ip : Netip.Addr) : Text :=
  if ip.is4 then bytes "4" else if ip.is6 then bytes "6" else bytes "unknown"

/-- `strings.Fields(s)[0]`, empty if there is no field. -/
def firstField (s : Text) : Text := go (trimLeftOf whiteSpace s.length s)
where
  go : Text → Text
    | [] => []
    | x :: rest => if whiteSpace.any (·.isPrefixOf (x :: rest)) then [] else x :: go rest

/-- `strings.TrimPrefix(s, "AS")`. -/
def trimAS (s : Text) : Text := if (bytes "AS").isPrefixOf s then s.drop 2 else s

namespace KeyMetadata

variable (m : KeyMetadata) (node : Text)

/-- What every key of a node begins with. -/
def lead : Text :=
  networkString m.netWork ++ bytes "|" ++ family m.dstIP.unmap ++ bytes "|" ++ node ++ bytes "|"

/-- The same with the classification of the destination, if it has one. -/
def classed : Text :=
  if m.destinationRegion ≠ [] ∧ m.destinationRegion ≠ bytes "unknown" then
    m.lead node ++ m.geoSource ++ bytes "|" ++ m.destinationRegion ++ bytes "|"
  else m.lead node

def service : Text :=
  if m.process ≠ [] then m.process else if m.wildcardTarget ≠ [] then m.wildcardTarget else m.host

end KeyMetadata

section

-- the texts of an address, and of its masked prefix of so many bits
variable (addrText : Netip.Addr → Text) (netText : Netip.Addr → Nat → Text)

def antiKeys (m : KeyMetadata) (node : Text) : List Text :=
  let ip := m.dstIP.unmap
  let host := if m.netWork = .TCP ∧ m.host ≠ [] then toLower m.host else addrText ip
  let scope := m.destinationRegion
  let asn := firstField m.dstIPASN
  (m.lead node ++ (bytes "host:" ++ host ++ bytes ":" ++ itoa m.dstPort.toNat)) ::
    if ip.isValid ∧ m.service ≠ [] then
      (m.classed node ++ (bytes "net:" ++ m.service ++ bytes "|" ++
        netText ip (if ip.is4 then 24 else 64))) ::
        if scope ≠ [] ∧ scope ≠ bytes "global" ∧ scope ≠ bytes "unknown" then
          (m.classed node ++ (bytes "region:" ++ m.service)) ::
            if asn ≠ [] ∧ asn ≠ bytes "unknown" then
              [m.classed node ++ (bytes "asn:" ++ m.service ++ bytes "|" ++ trimAS asn)] else []
        else []
    else []

variable {addrText netText} {m m₁ m₂ : KeyMetadata} {node n₁ n₂ key : Text}

theorem lead_prefix_classed : m.lead node <+: m.classed node := by
  unfold KeyMetadata.classed
  split
  · simp only [List.append_assoc, List.prefix_append]
  · exact List.prefix_rfl

theorem lead_prefix_of_mem (h : key ∈ antiKeys addrText netText m node) : m.lead node <+: key := by
  simp only [antiKeys, List.mem_cons, List.mem_ite_nil_right, List.not_mem_nil, or_false] at h
  obtain rfl | ⟨-, rfl | ⟨-, rfl | ⟨-, rfl⟩⟩⟩ := h
  · exact List.prefix_append _ _
  all_goals exact lead_prefix_classed.trans (List.prefix_append _ _)

theorem rest_eq_of_append {x y a b : Text} (hx : 124 ∉ x) (hy : 124 ∉ y)
    (h : x ++ bytes "|" ++ a = y ++ bytes "|" ++ b) : a = b := by
  have hdrop : ∀ x rest : Text, 124 ∉ x →
      (x ++ bytes "|" ++ rest).dropWhile (· != 124) = 124 :: rest := by
    intro x rest hx
    rw [List.append_assoc, List.dropWhile_append_of_pos]
    · rfl
    · exact fun c hc => bne_iff_ne.mpr fun hbar => hx (hbar ▸ hc)
  have hrest := congrArg (List.dropWhile (· != 124)) h
  rw [hdrop x a hx, hdrop y b hy] at hrest
  exact List.tail_eq_of_cons_eq hrest

/-- A key of two nodes gives a text that begins with either name and a separator. -/
theorem node_prefix_of_mem (h₁ : key ∈ antiKeys addrText netText m₁ n₁)
    (h₂ : key ∈ antiKeys addrText netText m₂ n₂) :
    ∃ text, n₁ ++ bytes "|" <+: text ∧ n₂ ++ bytes "|" <+: text := by
  have hnet : ∀ n : NetWork, 124 ∉ networkString n := by
    intro n
    cases n <;> decide
  have hfamily : ∀ ip : Netip.Addr, 124 ∉ family ip := by
    intro ip
    unfold family
    split_ifs <;> decide
  have hlead : ∀ (m : KeyMetadata) (n rest : Text), m.lead n ++ rest =
      networkString m.netWork ++ bytes "|" ++
        (family m.dstIP.unmap ++ bytes "|" ++ (n ++ bytes "|" ++ rest)) := by
    simp [KeyMetadata.lead]
  obtain ⟨rest₁, rfl⟩ := lead_prefix_of_mem h₁
  obtain ⟨rest₂, h⟩ := lead_prefix_of_mem h₂
  rw [hlead, hlead] at h
  have hnodes := rest_eq_of_append (hfamily _) (hfamily _) (rest_eq_of_append (hnet _) (hnet _) h)
  exact ⟨_, List.prefix_append _ _, rest₂, hnodes⟩

/-- If a name continues another one after a separator, their keys meet. -/
theorem exists_shared_key (node t : Text) : ∃ m₁ m₂ key,
    key ∈ antiKeys addrText netText m₁ node ∧
      key ∈ antiKeys addrText netText m₂ (node ++ bytes "|" ++ t) := by
  let m₁ : KeyMetadata :=
    { process := bytes "a:0", destinationRegion := bytes "host:", geoSource := t }
  let m₂ : KeyMetadata := { host := bytes "|region:a" }
  have hlower : toLower m₂.host = m₂.host := toLower_of_lower (by decide +kernel)
  have htail : bytes "host:" ++ (bytes "|" ++ (bytes "region:" ++ bytes "a:0")) =
      bytes "host:" ++ (bytes "|region:a" ++ (bytes ":" ++ itoa 0)) := by decide
  refine ⟨m₁, m₂, m₁.classed node ++ (bytes "region:" ++ m₁.service), ?_, ?_⟩
  · refine .tail _ (List.mem_ite_nil_right.mpr ⟨⟨rfl, ?_⟩, .tail _ ?_⟩)
    · simp +decide [KeyMetadata.service, m₁]
    · exact List.mem_ite_nil_right.mpr ⟨by simp +decide [m₁], List.mem_cons_self⟩
  · refine List.mem_cons.mpr (.inl ?_)
    simp +decide [KeyMetadata.classed, KeyMetadata.service, KeyMetadata.lead, hlower, m₁, m₂, htail]

/-- Two nodes have no key in common, whatever the metadata, exactly if their names
differ and neither continues the other one after a separator. -/
theorem antiKeys_disjoint_iff (addrText : Netip.Addr → Text)
    (netText : Netip.Addr → Nat → Text) (n₁ n₂ : Text) :
    (∀ m₁ m₂, (antiKeys addrText netText m₁ n₁).Disjoint (antiKeys addrText netText m₂ n₂)) ↔
      n₁ ≠ n₂ ∧ ¬ n₁ ++ bytes "|" <+: n₂ ∧ ¬ n₂ ++ bytes "|" <+: n₁ := by
  constructor
  · intro h
    refine ⟨?_, ?_, ?_⟩
    · rintro rfl
      exact h {} {} List.mem_cons_self List.mem_cons_self
    · rintro ⟨t, rfl⟩
      obtain ⟨m₁, m₂, key, hkey₁, hkey₂⟩ := exists_shared_key n₁ t
      exact h m₁ m₂ hkey₁ hkey₂
    · rintro ⟨t, rfl⟩
      obtain ⟨m₁, m₂, key, hkey₁, hkey₂⟩ := exists_shared_key n₂ t
      exact h m₂ m₁ hkey₂ hkey₁
  · rintro ⟨hne, h₁, h₂⟩ m₁ m₂ key hkey₁ hkey₂
    obtain ⟨text, htext₁, htext₂⟩ := node_prefix_of_mem hkey₁ hkey₂
    obtain h | h := List.prefix_or_prefix_of_prefix htext₁ htext₂
    · exact (List.prefix_concat_iff.mp h).elim (fun h => hne (List.append_cancel_right h)) h₁
    · exact (List.prefix_concat_iff.mp h).elim (fun h => hne (List.append_cancel_right h).symm) h₂

end

/-- The nodes `a` and `a|geo`, with the texts of the address 0.0.0.0. -/
theorem antiKeys_shared_a : ∃ m₁ m₂ key,
    key ∈ antiKeys (fun _ => bytes "0.0.0.0") (fun _ _ => bytes "0.0.0.0/24") m₁ (bytes "a") ∧
      key ∈ antiKeys (fun _ => bytes "0.0.0.0") (fun _ _ => bytes "0.0.0.0/24") m₂
        (bytes "a|geo") :=
  exists_shared_key (bytes "a") (bytes "geo")

end AntiLag
