import Mathlib.Algebra.Order.Ring.Int
import Mathlib.Data.List.MinMax

/-!
# The selection of URL-test and fallback groups

A group selects one of its proxies each time it is used, by what the health checks have
found out about them. The proxies, their health and the name that is forced may differ from
one evaluation to the next; what a group remembers is the proxy it chose last, or the name
that was forced on it.
-/

namespace OutboundGroup

/-- `internalProxyState`; `delay` is the delay of the last record, zero without one. -/
structure TestState where
  alive : Bool
  delay : UInt16
  deriving DecidableEq, Repr

/-- What a proxy knows of its health: in general, and for the test URL of the group. -/
structure Health where
  alive : Bool
  extra : Option TestState
  deriving DecidableEq, Repr

namespace Health

def aliveForTestUrl (h : Health) : Bool :=
  match h.extra with
  | some state => state.alive
  | none => h.alive

def lastDelayForTestUrl (h : Health) : UInt16 :=
  match h.extra with
  | some state => if !state.alive || state.delay = 0 then 0xffff else state.delay
  | none => 0xffff

theorem lastDelay_of_dead {h : Health} (hdead : h.aliveForTestUrl = false) :
    h.lastDelayForTestUrl = 0xffff := by
  unfold lastDelayForTestUrl
  cases hextra : h.extra with
  | none => rfl
  | some state =>
    rw [aliveForTestUrl] at hdead
    simp_all only [Bool.not_false, Bool.true_or, if_true]

end Health

/-- A member of a group. -/
structure Proxy where
  id : Nat
  name : String
  deriving DecidableEq, Repr

/-- The proxies of a group, of which there is at least one, and their health. -/
structure Members where
  first : Proxy
  rest : List Proxy
  health : Proxy → Health

namespace Members

variable (g : Members)

def list : List Proxy := g.first :: g.rest

def alive (p : Proxy) : Bool := (g.health p).aliveForTestUrl

def delay (p : Proxy) : UInt16 := (g.health p).lastDelayForTestUrl

/-- The first proxy of the name that is alive. An empty name forces nothing. -/
def forced (selected : String) : Option Proxy :=
  if selected = "" then none else g.list.find? fun p => g.alive p && p.name = selected

end Members

/-! ## URL test -/

variable {q : Proxy}

namespace URLTest

/-- The variables of the loop of `fast`. -/
structure Scan where
  fast : Proxy
  minDelay : UInt16
  fastNotExist : Bool

/-- The body of the loop. -/
def scan (g : Members) (fastNode : Option Proxy) (s : Scan) (proxy : Proxy) : Scan :=
  let s := if fastNode.any (·.name = proxy.name) then { s with fastNotExist := false } else s
  if !g.alive proxy then s
  else if g.delay proxy < s.minDelay then { s with fast := proxy, minDelay := g.delay proxy }
  else s

def scanned (g : Members) (fastNode : Option Proxy) : Scan :=
  g.rest.foldl (scan g fastNode) ⟨g.first, g.delay g.first, true⟩

/-- `fast`. The proxy that it returns is the new `fastNode`. -/
def fast (tolerance : UInt16) (selected : String) (g : Members) (fastNode : Option Proxy) :
    Proxy :=
  match g.forced selected with
  | some proxy => proxy
  | none =>
    let s := scanned g fastNode
    match fastNode with
    | none => s.fast
    | some node =>
      if s.fastNotExist || !g.alive node || g.delay s.fast + tolerance < g.delay node then s.fast
      else node

/-- `fastNode` after the evaluations, each with the forced name and the proxies. -/
def run (tolerance : UInt16) (evaluations : List (String × Members)) : Option Proxy :=
  evaluations.foldl (fun node e => some (fast tolerance e.1 e.2 node)) none

/-- An alive proxy of the list with the smallest delay among the alive ones. -/
structure Fastest (g : Members) (p : Proxy) : Prop where
  mem : p ∈ g.list
  alive : g.alive p = true
  least : ∀ q ∈ g.list, g.alive q = true → g.delay p ≤ g.delay q

/-- The proxy that was chosen last is to be kept. -/
structure Kept (tolerance : UInt16) (g : Members) (node : Proxy) : Prop where
  named : ∃ q ∈ g.list, q.name = node.name
  alive : g.alive node = true
  close : ∃ m, Fastest g m ∧ (g.delay node).toNat ≤ (g.delay m).toNat + tolerance.toNat

/-- What the selection has to be, after the choice of `fastNode`. -/
def Right (tolerance : UInt16) (selected : String) (g : Members) (fastNode : Option Proxy)
    (p : Proxy) : Prop :=
  match g.forced selected with
  | some f => p = f
  | none =>
    (∀ node, fastNode = some node → Kept tolerance g node → p = node) ∧
    ((∀ node, fastNode = some node → ¬ Kept tolerance g node) →
      (∃ q ∈ g.list, g.alive q = true) → Fastest g p)

/-- The first proxy with the smallest delay among the first of the list and the alive ones. -/
def leader (g : Members) : Option Proxy :=
  (g.first :: g.rest.filter g.alive).argmin fun p => (g.delay p).toNat

/-- When `fast` selects as it should without a forced proxy: a choice that is to be kept is the
fastest anyway, or stands behind the first place and is as fast as the others after the sum of
delay and tolerance has wrapped; and without one the first proxy is alive or some proxy has a
delay, if there is an alive one at all. -/
def Holds (tolerance : UInt16) (selected : String) (g : Members) (fastNode : Option Proxy) :
    Prop :=
  g.forced selected = none →
    (∀ node, fastNode = some node → Kept tolerance g node → leader g = some node ∨
      (∃ q ∈ g.rest, q.name = node.name) ∧
        ∃ m, Fastest g m ∧ g.delay node ≤ g.delay m + tolerance) ∧
    ((∀ node, fastNode = some node → ¬ Kept tolerance g node) →
      (∃ q ∈ g.list, g.alive q = true) →
        g.alive g.first = true ∨ ∃ q ∈ g.rest, g.alive q = true ∧ g.delay q ≠ 0xffff)

section Scanning

variable {g : Members} {fastNode : Option Proxy}

theorem delay_le (g : Members) (p : Proxy) : g.delay p ≤ 0xffff :=
  UInt16.le_iff_toNat_le.mpr (Nat.le_of_lt_succ (g.delay p).toNat_lt)

/-- The loop looks for the first proxy with the smallest delay. -/
theorem foldl_scan {rest : List Proxy} {s : Scan} (hs : s.minDelay = g.delay s.fast) :
    (rest.filter g.alive).foldl
        (List.argAux fun p q => (g.delay p).toNat < (g.delay q).toNat) (some s.fast) =
      some (rest.foldl (scan g fastNode) s).fast := by
  induction rest generalizing s with
  | nil => rfl
  | cons p rest ih =>
    rw [List.filter_cons]
    cases halive : g.alive p with
    | false =>
      have hscan : (scan g fastNode s p).fast = s.fast ∧
          (scan g fastNode s p).minDelay = s.minDelay := by
        unfold scan
        split <;> simp [halive]
      rw [← hscan.1]
      exact ih (by rw [hscan.1, hscan.2, hs])
    | true =>
      have hscan : (scan g fastNode s p).minDelay = g.delay (scan g fastNode s p).fast ∧
          some (scan g fastNode s p).fast = List.argAux
            (fun p q => (g.delay p).toNat < (g.delay q).toNat) (some s.fast) p := by
        unfold scan List.argAux
        by_cases hlt : g.delay p < g.delay s.fast
        · split <;> simp [halive, hs, hlt, UInt16.lt_iff_toNat_lt.mp hlt]
        · split <;> simp [hs, hlt, mt UInt16.lt_iff_toNat_lt.mpr hlt]
      rw [if_pos rfl, List.foldl_cons, ← hscan.2]
      exact ih hscan.1

theorem leader_eq (g : Members) (fastNode : Option Proxy) :
    leader g = some (scanned g fastNode).fast :=
  @foldl_scan g fastNode g.rest ⟨g.first, g.delay g.first, true⟩ rfl

theorem foldl_fastNotExist {rest : List Proxy} {s : Scan} :
    (rest.foldl (scan g fastNode) s).fastNotExist =
      (s.fastNotExist && !rest.any fun q => fastNode.any (·.name = q.name)) := by
  induction rest generalizing s with
  | nil => simp
  | cons p rest ih =>
    have hstep : (scan g fastNode s p).fastNotExist =
        (s.fastNotExist && !fastNode.any (·.name = p.name)) := by
      unfold scan
      cases hnamed : fastNode.any (·.name = p.name) with
      | true | false => simp [apply_ite Scan.fastNotExist]
    rw [List.foldl_cons, ih, hstep, List.any_cons, Bool.not_or, Bool.and_assoc]

theorem scanned_fastNotExist {node : Proxy} :
    (scanned g (some node)).fastNotExist = false ↔ ∃ q ∈ g.rest, q.name = node.name := by
  rw [scanned, foldl_fastNotExist]
  simp [@eq_comm _ node.name]

section Leader

variable {p : Proxy} (hp : leader g = some p)
include hp

theorem delay_leader_le (hq : q ∈ g.list) (halive : g.alive q = true) : g.delay p ≤ g.delay q := by
  have hmem : q ∈ g.first :: g.rest.filter g.alive := by
    rcases List.mem_cons.mp hq with rfl | hq
    · exact List.mem_cons_self
    · exact List.mem_cons_of_mem _ (List.mem_filter.mpr ⟨hq, halive⟩)
  exact UInt16.le_iff_toNat_le.mpr (List.le_of_mem_argmin (f := fun r => (g.delay r).toNat) hmem hp)

theorem leader_cases : p = g.first ∨ p ∈ g.rest ∧ g.alive p = true := by
  simpa using List.argmin_mem hp

theorem fastest_leader_iff : Fastest g p ↔ g.alive p = true := by
  refine ⟨Fastest.alive, fun halive => ⟨?_, halive, fun q => delay_leader_le hp⟩⟩
  rcases leader_cases hp with rfl | ⟨hmem, -⟩
  · exact List.mem_cons_self
  · exact List.mem_cons_of_mem _ hmem

theorem delay_of_leader_dead (hdead : g.alive p = false) (hq : q ∈ g.list)
    (halive : g.alive q = true) : g.delay q = 0xffff := by
  have hle := delay_leader_le hp hq halive
  rw [show g.delay p = 0xffff from Health.lastDelay_of_dead hdead] at hle
  exact UInt16.le_antisymm (delay_le g q) hle

theorem exists_fastest (hsome : ∃ q ∈ g.list, g.alive q = true) : ∃ m, Fastest g m := by
  cases halive : g.alive p with
  | true => exact ⟨p, (fastest_leader_iff hp).mpr halive⟩
  | false =>
    obtain ⟨q, hq, hqalive⟩ := hsome
    refine ⟨q, hq, hqalive, fun r hr hralive => ?_⟩
    rw [delay_of_leader_dead hp halive hq hqalive, delay_of_leader_dead hp halive hr hralive]
    exact UInt16.le_rfl

theorem delay_fastest {m : Proxy} (hm : Fastest g m) : g.delay p = g.delay m := by
  cases halive : g.alive p with
  | true =>
    exact UInt16.le_antisymm (delay_leader_le hp hm.mem hm.alive)
      (hm.least p ((fastest_leader_iff hp).mpr halive).mem halive)
  | false =>
    rw [delay_of_leader_dead hp halive hm.mem hm.alive]
    exact Health.lastDelay_of_dead halive

theorem leader_alive_iff : g.alive p = true ↔
    g.alive g.first = true ∨ ∃ q ∈ g.rest, g.alive q = true ∧ g.delay q ≠ 0xffff := by
  constructor
  · intro halive
    by_cases hfirst : g.alive g.first = true
    · exact .inl hfirst
    · have hne : p ≠ g.first := fun heq => hfirst (heq ▸ halive)
      refine .inr ⟨p, ((leader_cases hp).resolve_left hne).1, halive, fun hmax => ?_⟩
      -- The first proxy would come before one that is not faster.
      have hindex := List.index_of_argmin hp List.mem_cons_self (by
        rw [hmax]
        exact UInt16.le_iff_toNat_le.mp (delay_le g g.first))
      simp [List.idxOf_cons_ne _ hne.symm] at hindex
  · intro h
    by_contra hdead
    rw [Bool.not_eq_true] at hdead
    rcases h with hfirst | ⟨q, hq, halive, hdelay⟩
    · rcases leader_cases hp with rfl | ⟨-, halive⟩
      · exact absurd (hfirst.symm.trans hdead) (by decide)
      · exact absurd (halive.symm.trans hdead) (by decide)
    · exact hdelay (delay_of_leader_dead hp hdead (List.mem_cons_of_mem _ hq) halive)

end Leader

end Scanning

section Selection

variable {tolerance : UInt16} {selected : String} {g : Members} {fastNode : Option Proxy}
  {node : Proxy}

/-- A choice is kept when it is seen behind the first place, is alive and not too slow for the
sum as the code computes it, or when it leads. -/
theorem fast_eq_node_iff (hforced : g.forced selected = none) {m : Proxy} (hm : Fastest g m) :
    fast tolerance selected g (some node) = node ↔ (scanned g (some node)).fast = node ∨
      (∃ q ∈ g.rest, q.name = node.name) ∧ g.alive node = true ∧
        g.delay node ≤ g.delay m + tolerance := by
  rw [← scanned_fastNotExist, ← delay_fastest (leader_eq g (some node)) hm, fast, hforced]
  simp only [Bool.or_eq_true, Bool.not_eq_true', decide_eq_true_eq]
  constructor
  · intro h
    split at h
    next => exact .inl h
    next hnot =>
      rw [not_or, not_or, Bool.not_eq_true, Bool.not_eq_false, UInt16.not_lt] at hnot
      exact .inr ⟨hnot.1.1, hnot.1.2, hnot.2⟩
  · rintro (h | ⟨hseen, halive, hdelay⟩)
    · split
      next => exact h
      next => rfl
    · rw [if_neg (by rw [hseen, halive]; simp [UInt16.not_lt.mpr hdelay])]

theorem fast_eq_or (hforced : g.forced selected = none) :
    fast tolerance selected g fastNode = (scanned g fastNode).fast ∨
      fastNode = some (fast tolerance selected g fastNode) := by
  rw [fast, hforced]
  cases fastNode with
  | none => exact .inl rfl
  | some node =>
    dsimp only
    split
    · exact .inl rfl
    · exact .inr rfl

/-- A choice that is not to be kept is given up for the proxy the loop has found. -/
theorem fast_of_not_kept (hforced : g.forced selected = none)
    (hkept : ∀ node, fastNode = some node → ¬ Kept tolerance g node)
    (hsome : ∃ q ∈ g.list, g.alive q = true) :
    fast tolerance selected g fastNode = (scanned g fastNode).fast := by
  rcases @fast_eq_or tolerance selected g fastNode hforced with h | h
  · exact h
  · obtain ⟨m, hm⟩ := exists_fastest (leader_eq g fastNode) hsome
    generalize hnode : fast tolerance selected g fastNode = node at h ⊢
    subst h
    rcases (fast_eq_node_iff hforced hm).mp hnode with hlead | ⟨⟨q, hq, hname⟩, halive, hdelay⟩
    · exact hlead.symm
    · exact absurd ⟨⟨q, List.mem_cons_of_mem _ hq, hname⟩, halive, m, hm,
        (UInt16.le_iff_toNat_le.mp hdelay).trans (Nat.mod_le _ _)⟩ (hkept node rfl)

theorem right_iff_of_kept (hforced : g.forced selected = none) (hkept : Kept tolerance g node) :
    fast tolerance selected g (some node) = node ↔ leader g = some node ∨
      (∃ q ∈ g.rest, q.name = node.name) ∧
        ∃ m, Fastest g m ∧ g.delay node ≤ g.delay m + tolerance := by
  have hleader := leader_eq g (some node)
  obtain ⟨m, hm, _⟩ := hkept.close
  rw [fast_eq_node_iff hforced hm, hleader, Option.some.injEq]
  refine or_congr_right (and_congr_right fun _ => ⟨fun h => ⟨m, hm, h.2⟩, ?_⟩)
  rintro ⟨n, hn, hdelay⟩
  rw [← delay_fastest hleader hm, delay_fastest hleader hn]
  exact ⟨hkept.alive, hdelay⟩

end Selection

/-- In a group with any history, an evaluation selects what it should exactly under `Holds`. -/
theorem fast_right_iff (tolerance : UInt16) (history : List (String × Members))
    (selected : String) (g : Members) :
    Right tolerance selected g (run tolerance history)
      (fast tolerance selected g (run tolerance history)) ↔
    Holds tolerance selected g (run tolerance history) := by
  generalize run tolerance history = fastNode
  unfold Right Holds
  cases hforced : g.forced selected with
  | some f => simp [fast, hforced]
  | none =>
    have hleader := leader_eq g fastNode
    rw [forall_prop_of_true rfl]
    refine and_congr (forall₃_congr fun node hnode hkept => ?_)
      (forall₂_congr fun hdrop hsome => ?_)
    · subst hnode
      exact right_iff_of_kept hforced hkept
    · rw [fast_of_not_kept hforced hdrop hsome, fastest_leader_iff hleader,
        leader_alive_iff hleader]

/-- Two proxies with the delays. -/
def pair (a b : UInt16) : Members where
  first := ⟨0, "a"⟩
  rest := [⟨1, "b"⟩]
  health p := ⟨true, some ⟨true, if p.id = 0 then a else b⟩⟩

/-- The choice at the first place is given up for one that is faster within the tolerance. -/
theorem first_place_given_up : run 50 [("", pair 80 100)] = some ⟨0, "a"⟩ ∧
    fast 50 "" (pair 100 80) (some ⟨0, "a"⟩) = ⟨1, "b"⟩ ∧
    ¬ Right 50 "" (pair 100 80) (some ⟨0, "a"⟩) ⟨1, "b"⟩ := by
  refine ⟨by decide, by decide, fun h => ?_⟩
  have hfastest : Fastest (pair 100 80) ⟨1, "b"⟩ := ⟨by decide, by decide, by decide⟩
  have hkept := h.1 ⟨0, "a"⟩ rfl
    ⟨⟨⟨0, "a"⟩, by decide, rfl⟩, by decide, ⟨1, "b"⟩, hfastest, by decide⟩
  exact absurd hkept (by decide)

end URLTest

/-! ## Fallback -/

namespace Fallback

/-- The loop of `findAliveProxy`, with the forced name it leaves. -/
def find (g : Members) : List Proxy → String → Proxy × String
  | [], selected => (g.first, selected)
  | proxy :: proxies, selected =>
    if selected = "" then
      if g.alive proxy then (proxy, selected) else find g proxies selected
    else if proxy.name = selected then
      if g.alive proxy then (proxy, selected) else find g proxies ""
    else find g proxies selected

def findAliveProxy (g : Members) (selected : String) : Proxy × String := find g g.list selected

/-- The uses of a group that read or change the forced name. -/
inductive Action
  | set (g : Members) (name : String)
  | forceSet (name : String)
  | select (g : Members)

/-- The forced name after a use. A name that is set has to be in the list. -/
def act (selected : String) : Action → String
  | .set g name => if g.list.any (·.name = name) then name else selected
  | .forceSet name => name
  | .select g => (findAliveProxy g selected).2

def run (actions : List Action) : String := actions.foldl act ""

/-- What a selection has to be: the forced proxy, or the first that is alive. -/
def Right (g : Members) (selected : String) (p : Proxy) : Prop :=
  ∀ q, (g.forced selected).or (g.list.find? g.alive) = some q → p = q

/-- When `findAliveProxy` selects as it should: nothing is forced, or none is alive; without a
proxy of the forced name the first is alive; and if the first of the name is dead, the first
proxy alive behind it is the right one, or there is none and the first of the list is alive. -/
def Holds (g : Members) (selected : String) : Prop :=
  selected = "" ∨ (∀ q ∈ g.list, g.alive q = false) ∨
  match g.list.dropWhile (·.name ≠ selected) with
  | [] => g.alive g.first = true
  | p :: after => g.alive p = true ∨
    match after.find? g.alive with
    | none => g.alive g.first = true
    | some q => q.name = selected ∨ (∀ r ∈ after, g.alive r = true → r.name ≠ selected) ∧
        ((g.list.takeWhile (·.name ≠ selected)).find? g.alive).getD q = q

variable {g : Members} {selected : String}

theorem find_empty (proxies : List Proxy) :
    (find g proxies "").1 = (proxies.find? g.alive).getD g.first := by
  induction proxies with
  | nil => rfl
  | cons p proxies ih =>
    rw [find, List.find?_cons]
    cases g.alive p with
    | true => rfl
    | false => exact ih

theorem find_of_absent {before proxies : List Proxy} (hselected : selected ≠ "")
    (habsent : ∀ q ∈ before, q.name ≠ selected) :
    find g (before ++ proxies) selected = find g proxies selected := by
  induction before with
  | nil => rfl
  | cons p before ih =>
    rw [List.forall_mem_cons] at habsent
    rw [List.cons_append, find, if_neg hselected, if_neg habsent.1]
    exact ih habsent.2

/-- The first proxy of the list is right if it is alive, or if none is. -/
theorem first_right_iff : (∀ q, g.list.find? g.alive = some q → g.first = q) ↔
    (∀ q ∈ g.list, g.alive q = false) ∨ g.alive g.first = true := by
  constructor
  · intro h
    cases hfind : g.list.find? g.alive with
    | none => exact .inl fun q hq => by simpa using List.find?_eq_none.mp hfind q hq
    | some q => exact .inr (h q hfind ▸ List.find?_some hfind)
  · rintro (h | h) q hq
    · exact absurd (List.find?_some hq) (by simp [h q (List.mem_of_find?_eq_some hq)])
    · rw [Members.list, List.find?_cons_of_pos h] at hq
      exact Option.some.inj hq

theorem find_named {after : List Proxy} (hq : after.find? g.alive = some q)
    (hname : q.name = selected) :
    after.find? (fun p => g.alive p && p.name = selected) = some q := by
  obtain ⟨halive, before, rest, rfl, hbefore⟩ := List.find?_eq_some_iff_append.mp hq
  refine List.find?_eq_some_iff_append.mpr ⟨by simp [halive, hname], before, rest, rfl, ?_⟩
  intro r hr
  simp [show g.alive r = false by simpa using hbefore r hr]

/-- The selection behind a dead proxy of the forced name. -/
theorem behind_right_iff {before after : List Proxy} (hq : after.find? g.alive = some q) :
    (∀ c, (after.find? fun p => g.alive p && p.name = selected).or
        ((before.find? g.alive).or (after.find? g.alive)) = some c → q = c) ↔
      q.name = selected ∨ (∀ r ∈ after, g.alive r = true → r.name ≠ selected) ∧
        (before.find? g.alive).getD q = q := by
  by_cases hname : q.name = selected
  · simp [find_named hq hname, hname]
  · cases hforced : after.find? fun p => g.alive p && p.name = selected with
    | some c =>
      obtain ⟨halive, hc⟩ : g.alive c = true ∧ c.name = selected := by
        simpa using List.find?_some hforced
      have hne : q ≠ c := fun h => hname (h ▸ hc)
      refine ⟨fun h => absurd (h c rfl) hne, ?_⟩
      rintro (h | ⟨h, _⟩)
      · exact absurd h hname
      · exact absurd hc (h c (List.mem_of_find?_eq_some hforced) halive)
    | none =>
      have hno : ∀ r ∈ after, g.alive r = true → r.name ≠ selected := by
        simpa using hforced
      rw [hq]
      cases before.find? g.alive with
      | none => simpa [hname] using hno
      | some b => simpa [hname] using ⟨fun h => ⟨hno, h.symm⟩, fun h => h.2.symm⟩

/-- In a group with any history, a selection is what it should be exactly under `Holds`. -/
theorem findAliveProxy_right_iff (history : List Action) (g : Members) :
    Right g (run history) (findAliveProxy g (run history)).1 ↔ Holds g (run history) := by
  generalize run history = selected
  by_cases hempty : selected = ""
  · subst hempty
    refine ⟨fun _ => .inl rfl, fun _ q hq => ?_⟩
    rw [Members.forced, if_pos rfl, Option.none_or] at hq
    rw [findAliveProxy, find_empty, hq]
    rfl
  have hlist := g.list.takeWhile_append_dropWhile (p := (·.name ≠ selected))
  have hbefore : ∀ q ∈ g.list.takeWhile (·.name ≠ selected), q.name ≠ selected :=
    fun q hq => by
      simpa using List.all_eq_true.mp List.all_takeWhile q hq
  have hnamed : (g.list.takeWhile (·.name ≠ selected)).find?
      (fun p => g.alive p && p.name = selected) = none :=
    List.find?_eq_none.mpr fun q hq => by simp [hbefore q hq]
  unfold Right Holds
  rw [Members.forced, if_neg hempty, or_iff_right hempty, findAliveProxy]
  generalize g.list.takeWhile (·.name ≠ selected) = before at *
  cases hdrop : g.list.dropWhile (·.name ≠ selected) with
  | nil =>
    rw [hdrop, List.append_nil] at hlist
    subst hlist
    rw [hnamed, ← List.append_nil g.list, find_of_absent hempty hbefore]
    simpa [find] using first_right_iff
  | cons p after =>
    have hp : p.name = selected := by
      have hhead :=
        @List.head_dropWhile_not _ (·.name ≠ selected) g.list (hdrop ▸ List.cons_ne_nil _ _)
      simp only [hdrop, List.head_cons] at hhead
      simpa using hhead
    rw [hdrop] at hlist
    have hfirst := @first_right_iff g
    rw [← hlist, find_of_absent hempty hbefore, List.find?_append, hnamed, find, if_neg hempty,
      if_pos hp]
    cases halive : g.alive p with
    | true => simp [halive, hp]
    | false =>
      rw [← hlist] at hfirst
      simp only [List.find?_append, List.find?_cons, halive, Bool.false_and, find_empty,
        Bool.false_eq_true, if_false, false_or] at hfirst ⊢
      cases hafter : after.find? g.alive with
      | none =>
        have hnone : after.find? (fun p => g.alive p && p.name = selected) = none :=
          List.find?_eq_none.mpr fun q hq => by simp [List.find?_eq_none.mp hafter q hq]
        simpa [hafter, hnone] using hfirst
      | some q =>
        have hsome : ¬ ∀ r ∈ before ++ p :: after, g.alive r = false := fun h => by
          have hdead := h q (by simp [List.mem_of_find?_eq_some hafter])
          exact absurd (List.find?_some hafter) (by simp [hdead])
        rw [or_iff_right hsome]
        simpa [hafter] using behind_right_iff hafter

/-- A forced name that is not in the list stands for a dead proxy before one that is alive. -/
def deadThenAlive : Members where
  first := ⟨0, "a"⟩
  rest := [⟨1, "b"⟩]
  health p := ⟨p.id ≠ 0, none⟩

theorem unknown_name_selects_dead : run [.forceSet "c"] = "c" ∧
    findAliveProxy deadThenAlive "c" = (⟨0, "a"⟩, "c") ∧
    deadThenAlive.alive ⟨0, "a"⟩ = false ∧ ¬ Right deadThenAlive "c" ⟨0, "a"⟩ := by
  refine ⟨by decide, by decide, by decide, fun h => ?_⟩
  exact absurd (h ⟨1, "b"⟩ (by decide)) (by decide)

end Fallback

end OutboundGroup
