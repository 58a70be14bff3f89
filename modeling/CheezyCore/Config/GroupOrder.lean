import CheezyCore.Foundation.Table
import CheezyCore.Config.ProxyGroups

/-!
# The sorted groups

The graph that step 1.1 builds is a function of the groups (`expected`), so that the links to a
node are the places in which it is a member. `placeGroup` then writes every group that is taken
from the queue before those that were taken earlier.
-/

namespace Config

open Peeling

variable {Mapping : Type} {decode : Mapping → Decoded} {groups written : List Mapping}
  {edges : List String} {graph : GroupGraph Mapping} {name : String} {m : Mapping}

/-! ### Groups by name -/

/-- Every group is decoded and has a name of its own. -/
def Distinct (decode : Mapping → Decoded) (groups : List Mapping) : Prop :=
  (∀ m ∈ groups, (decode m).err = none) ∧ (groups.map (groupName decode)).Nodup

theorem groupName_of_find (h : find decode groups name = some m) :
    m ∈ groups ∧ groupName decode m = name :=
  ⟨List.mem_of_find?_eq_some h, by simpa using List.find?_some h⟩

theorem find_groupName (nodup : (groups.map (groupName decode)).Nodup) (hm : m ∈ groups) :
    find decode groups (groupName decode m) = some m := by
  cases hfind : find decode groups (groupName decode m) with
  | none => exact absurd (List.find?_eq_none.mp hfind m hm) (by simp)
  | some other =>
    obtain ⟨hother, hname⟩ := groupName_of_find hfind
    exact congrArg some (List.inj_on_of_nodup_map nodup hother hm hname)

theorem find_concat :
    find decode (groups ++ [m]) name =
      (find decode groups name).or (if groupName decode m = name then some m else none) := by
  simp [find, List.find?_append, List.find?_singleton]

/-! ### Step 1.1 -/

/-- The node of a name when these groups have been read, with these members. -/
def expected (decode : Mapping → Decoded) (groups : List Mapping) (edges : List String)
    (name : String) : Option (GraphNode Mapping) :=
  if (find decode groups name).isSome ∨ name ∈ edges then
    some ⟨edges.count name, find decode groups name, 0,
      (find decode groups name).map fun m => (decode m).option, []⟩
  else none

def Represents (decode : Mapping → Decoded) (groups : List Mapping) (edges : List String)
    (graph : GroupGraph Mapping) : Prop :=
  ∀ name, graph.lookup name = expected decode groups edges name

section

variable (h : Represents decode groups edges graph)
include h

theorem Represents.mem_iff : name ∈ graph ↔ (find decode groups name).isSome ∨ name ∈ edges := by
  rw [← AList.lookup_isSome, h name, expected]
  split
  next hmem => exact iff_of_true rfl hmem
  next hmem => exact iff_of_false nofun hmem

theorem Represents.node {node : GraphNode Mapping} (hnode : graph.lookup name = some node) :
    node = ⟨edges.count name, find decode groups name, 0,
      (find decode groups name).map fun m => (decode m).option, []⟩ := by
  rw [h name, expected] at hnode
  split at hnode
  · exact (Option.some.inj hnode).symm
  · cases hnode

theorem Represents.addProxies {proxies : List String} :
    Represents decode groups (edges ++ proxies) (addProxies proxies graph) := by
  induction proxies generalizing graph edges with
  | nil =>
    rw [List.append_nil]
    exact h
  | cons proxy rest ih =>
    rw [List.append_cons]
    apply ih
    intro name
    by_cases hname : name = proxy
    · subst hname
      rw [expected, if_pos (.inr (List.mem_append_right edges List.mem_cons_self))]
      cases hnode : graph.lookup name with
      | some node =>
        rw [h.node hnode]
        simp
      | none =>
        have hnew := AList.lookup_eq_none.mp hnode
        rw [h.mem_iff, not_or, Option.not_isSome_iff_eq_none] at hnew
        rw [hnew.1, List.count_append, List.count_eq_zero.mpr hnew.2]
        simp
    · have hcount : [proxy].count name = 0 := by
        rw [List.count_eq_zero, List.mem_singleton]
        exact hname
      rw [AList.lookup_insert_ne hname, h name]
      simp only [expected, List.mem_append, List.mem_singleton, hname, or_false,
        List.count_append, hcount, Nat.add_zero]

/-- A group whose name is not that of another one. -/
theorem Represents.insert {node : GraphNode Mapping}
    (hfresh : find decode groups (groupName decode m) = none)
    (hcount : node.indegree = edges.count (groupName decode m)) (hout : node.outdegree = 0)
    (hfroms : node.froms = []) :
    Represents decode (groups ++ [m]) edges (graph.insert (groupName decode m)
      { node with data := some m, option := some (decode m).option }) := by
  intro name
  rw [expected, find_concat]
  by_cases hname : name = groupName decode m
  · subst hname
    rw [AList.lookup_insert, hfresh, if_pos rfl, hcount, hout, hfroms]
    rfl
  · rw [AList.lookup_insert_ne hname, h name, if_neg (Ne.symm hname), Option.or_none]
    rfl

end

theorem distinct_concat (h : Distinct decode groups) (herr : (decode m).err = none)
    (hfresh : find decode groups (groupName decode m) = none) :
    Distinct decode (groups ++ [m]) := by
  constructor
  · exact Table.forall_concat h.1 herr
  · rw [List.map_append]
    refine h.2.append (List.nodup_singleton _) (List.disjoint_singleton.mpr ?_)
    intro hmem
    obtain ⟨other, hother, hname⟩ := List.mem_map.mp hmem
    exact absurd (List.find?_eq_none.mp hfresh other hother) (by simpa using hname)

/-- Step 1.1 succeeds if and only if the groups are distinct. -/
theorem buildGraph_cases (groups : List Mapping) {done : List Mapping}
    (h : Represents decode done edges graph) (hdone : Distinct decode done) :
    (∃ graph', buildGraph decode groups graph = .ok graph' ∧ Distinct decode (done ++ groups) ∧
      Represents decode (done ++ groups) (edges ++ groups.flatMap (members decode)) graph') ∨
    (∃ err, buildGraph decode groups graph = .error err ∧ ¬ Distinct decode (done ++ groups)) := by
  induction groups generalizing graph done edges with
  | nil => exact .inl ⟨graph, rfl, by simpa using hdone, by simpa using h⟩
  | cons m rest ih =>
    rw [buildGraph]
    cases herr : (decode m).err with
    | some err =>
      refine .inr ⟨_, rfl, fun hdistinct => ?_⟩
      have hok := hdistinct.1 m (List.mem_append_right done List.mem_cons_self)
      rw [herr] at hok
      cases hok
    | none =>
      -- the group is new, and the node has not been a group so far
      have hgo : ∀ node : GraphNode Mapping, find decode done (groupName decode m) = none →
          node.indegree = edges.count (groupName decode m) → node.outdegree = 0 →
          node.froms = [] → ∀ graph', graph' = addProxies (members decode m)
            (graph.insert (groupName decode m)
              { node with data := some m, option := some (decode m).option }) →
          (∃ graph'', buildGraph decode rest graph' = .ok graph'' ∧
            Distinct decode (done ++ m :: rest) ∧
            Represents decode (done ++ m :: rest)
              (edges ++ (m :: rest).flatMap (members decode)) graph'') ∨
          (∃ err, buildGraph decode rest graph' = .error err ∧
            ¬ Distinct decode (done ++ m :: rest)) := by
        rintro node hfresh hcount hout hfroms graph' rfl
        have hih := @ih (edges ++ members decode m) _ (done ++ [m])
          (h.insert hfresh hcount hout hfroms).addProxies (distinct_concat hdone herr hfresh)
        rwa [← List.append_cons, List.append_assoc] at hih
      cases hnode : graph.lookup (groupName decode m) with
      | none =>
        have hnew := AList.lookup_eq_none.mp hnode
        rw [h.mem_iff, not_or, Option.not_isSome_iff_eq_none] at hnew
        simp only [groupName] at hnode
        simp only [hnode]
        exact hgo ⟨0, none, 0, none, []⟩ hnew.1
          (by rw [List.count_eq_zero.mpr hnew.2]; rfl) rfl rfl _ rfl
      | some node =>
        have hfields := h.node hnode
        simp only [groupName] at hnode
        simp only [hnode]
        split
        next hdata =>
          refine .inr ⟨_, rfl, fun hdistinct => ?_⟩
          rw [hfields] at hdata
          obtain ⟨other, hother⟩ := Option.isSome_iff_exists.mp hdata
          obtain ⟨hother, hname⟩ := groupName_of_find hother
          have hnodup := hdistinct.2
          rw [List.map_append] at hnodup
          exact (List.nodup_append.mp hnodup).2.2 _ (List.mem_map_of_mem hother) _
            List.mem_cons_self hname
        next hdata =>
          rw [Option.not_isSome_iff_eq_none] at hdata
          have hfresh : find decode done (groupName decode m) = none := by
            rw [hfields] at hdata
            exact hdata
          exact hgo node hfresh (by rw [hfields]) (by rw [hfields]) (by rw [hfields]) _ rfl

/-! ### Step 1.2 -/

/-- What stays the same of a node while the groups are sorted. -/
def groupInfo (decode : Mapping → Decoded) (groups : List Mapping) (name : String) :
    Option Mapping × Int × Option GroupCommonOption × List String :=
  (find decode groups name, 0, (find decode groups name).map fun m => (decode m).option, [])

theorem links_groupInfo :
    indegrees.links (groupInfo decode groups name) =
      (find decode groups name).elim [] (members decode) := by
  unfold groupInfo
  cases find decode groups name <;> rfl

theorem flatMap_links (names : List String) :
    (names.flatMap fun name => indegrees.links (groupInfo decode groups name)) =
      (names.filterMap (find decode groups)).flatMap (members decode) := by
  simp only [links_groupInfo]
  induction names with
  | nil => rfl
  | cons name names ih =>
    rw [List.flatMap_cons, ih, List.filterMap_cons]
    cases find decode groups name <;> rfl

/-- The groups are those nodes of the graph that are groups. -/
theorem Represents.perm_groups (h : Represents decode groups edges graph)
    (nodup : (groups.map (groupName decode)).Nodup) :
    (graph.keys.filterMap (find decode groups)).Perm groups := by
  have hleft : (graph.keys.filterMap (find decode groups)).Nodup := by
    refine graph.keys_nodup.filterMap ?_
    intro a b m ha hb
    exact (groupName_of_find ha).2.symm.trans (groupName_of_find hb).2
  refine (List.perm_ext_iff_of_nodup hleft nodup.of_map).mpr fun m => ?_
  rw [List.mem_filterMap]
  constructor
  · rintro ⟨name, -, hm⟩
    exact (groupName_of_find hm).1
  · intro hm
    have hfind := find_groupName nodup hm
    exact ⟨groupName decode m, h.mem_iff.mpr (.inl (by rw [hfind]; rfl)), hfind⟩

theorem Represents.ready {order : MapOrder String}
    (h : Represents decode groups (groups.flatMap (members decode)) graph)
    (nodup : (groups.map (groupName decode)).Nodup) :
    indegrees.Ready (groupInfo decode groups) graph (indegrees.sources order graph) := by
  apply Scheme.ready_sources
  · intro name node hnode
    have hcount : indegrees.inward (groupInfo decode groups) graph.keys name =
        (groups.flatMap (members decode)).count name := by
      rw [Scheme.inward, flatMap_links]
      exact ((h.perm_groups nodup).flatMap_right _).count_eq name
    rw [hcount, h.node hnode]
    exact ⟨rfl, rfl⟩
  · intro name hname child hchild
    rw [links_groupInfo] at hchild
    cases hfind : find decode groups name with
    | none =>
      rw [hfind] at hchild
      cases hchild
    | some m =>
      rw [hfind] at hchild
      exact h.mem_iff.mpr (.inr (List.mem_flatMap.mpr
        ⟨m, (groupName_of_find hfind).1, hchild⟩))

/-- The groups that have been written are the end of the list. -/
structure Placed (decode : Mapping → Decoded) (groups written : List Mapping)
    (names : List String) (s : Sorting Mapping) : Prop where
  index : s.index = written.length
  length : s.groups.length = groups.length
  suffix : ∃ before, s.groups = before ++ written
  perm : (written ++ names.filterMap (find decode groups)).Perm groups
  removed : ∀ m ∈ written, groupName decode m ∉ names
  ordered : Ordered decode written

theorem Ordered.cons (h : Ordered decode written) (irrefl : groupName decode m ∉ members decode m)
    (later : ∀ other ∈ written, groupName decode other ∉ members decode m) :
    Ordered decode (m :: written) := by
  intro i j g other hg hother hmember
  cases i with
  | zero =>
    cases hg
    cases j with
    | zero =>
      cases hother
      exact absurd hmember irrefl
    | succ j => exact absurd hmember (later other (List.mem_of_getElem? hother))
  | succ i =>
    cases j with
    | zero => exact Nat.succ_pos i
    | succ j => exact Nat.succ_lt_succ (h i j g other hg hother hmember)

/-- The names that are left lose a name. -/
theorem perm_filterMap_erase {names names' : List String} (hmem : name ∈ names)
    (hperm : names'.Perm (names.erase name)) :
    (names.filterMap (find decode groups)).Perm
      ((find decode groups name).toList ++ names'.filterMap (find decode groups)) := by
  have hcons := ((List.perm_cons_erase hmem).trans (hperm.symm.cons name)).filterMap
    (find decode groups)
  cases hfind : find decode groups name <;> simpa [hfind] using hcons

/-- A group is written before those that have been written. -/
theorem placeGroup_eq {node : GraphNode Mapping} {s : Sorting Mapping} {before : List Mapping}
    {option : GroupCommonOption} {last : Mapping} (hoption : node.option = some option)
    (hdata : node.data = some m) (hgroups : s.groups = before ++ last :: written)
    (hindex : s.index = written.length) :
    placeGroup node s = some ⟨s.index + 1, before ++ m :: written⟩ := by
  have hlength : s.groups.length = before.length + (s.index + 1) := by
    rw [hgroups, hindex, List.length_append, List.length_cons]
  have hset : s.groups.set before.length m = before ++ m :: written := by
    rw [hgroups, List.set_append_right _ _ (Nat.le_refl _), Nat.sub_self]
    rfl
  rw [placeGroup, hoption, hdata]
  simp only [hlength, Nat.le_add_left, if_true, Nat.add_sub_cancel, hset]

theorem Placed.visit {rest : List String} {node : GraphNode Mapping} {s : Sorting Mapping}
    (ready : indegrees.Ready (groupInfo decode groups) graph (name :: rest))
    (hnode : graph.lookup name = some node) (h : Placed decode groups written graph.keys s) :
    ∃ s', placeGroup node s = some s' ∧ ∀ names, names.Perm (graph.keys.erase name) →
      ∃ written', Placed decode groups written' names s' := by
  obtain ⟨hmem, hzero⟩ := (ready.queued name).mp List.mem_cons_self
  have hinfo := (ready.nodes name node hnode).2
  have hdata : node.data = find decode groups name := congrArg Prod.fst hinfo
  have hoption : node.option = (find decode groups name).map fun m => (decode m).option :=
    congrArg (fun info => info.2.2.1) hinfo
  have hsub : ∀ names : List String, names.Perm (graph.keys.erase name) →
      ∀ other ∈ names, other ≠ name ∧ other ∈ graph.keys := by
    intro names hnames other hother
    exact (graph.keys_nodup.mem_erase_iff).mp (hnames.mem_iff.mp hother)
  have hperm : ∀ names : List String, names.Perm (graph.keys.erase name) →
      (written ++ ((find decode groups name).toList ++
        names.filterMap (find decode groups))).Perm groups := by
    intro names hnames
    exact ((perm_filterMap_erase hmem hnames).symm.append_left written).trans h.perm
  cases hfind : find decode groups name with
  | none =>
    refine ⟨s, ?_, fun names hnames => ⟨written, h.index, h.length, h.suffix, ?_, ?_, h.ordered⟩⟩
    · rw [placeGroup, hoption, hfind]
      rfl
    · have hnames := hperm names hnames
      rwa [hfind, Option.toList_none] at hnames
    · intro m hm hother
      exact h.removed m hm (hsub names hnames _ hother).2
  | some m =>
    rw [hfind] at hperm hdata hoption
    have hname := (groupName_of_find hfind).2
    have hlinks : indegrees.links (groupInfo decode groups name) = members decode m := by
      rw [links_groupInfo, hfind]
      rfl
    -- there is a place before the groups that have been written
    obtain ⟨before, last, hgroups⟩ : ∃ before last, s.groups = before ++ last :: written := by
      obtain ⟨before, hbefore⟩ := h.suffix
      have hlength := (hperm _ (.refl _)).length_eq
      rw [← h.length, hbefore, List.length_append, List.length_append, List.length_append,
        Option.toList_some, List.length_singleton] at hlength
      have hne : before ≠ [] := List.ne_nil_of_length_pos (by omega)
      refine ⟨before.dropLast, before.getLast hne, ?_⟩
      rw [hbefore, List.append_cons, List.dropLast_append_getLast hne]
    refine ⟨_, placeGroup_eq hoption hdata hgroups h.index, fun names hnames =>
      ⟨m :: written, ?_, ?_, ⟨before, rfl⟩, ?_, ?_, h.ordered.cons ?_ ?_⟩⟩
    · rw [List.length_cons, h.index]
    · rw [← h.length, hgroups, List.length_append, List.length_append]
      rfl
    · exact List.perm_middle.symm.trans (hperm names hnames)
    · intro other hother hleft
      obtain ⟨hne, hkey⟩ := hsub names hnames _ hleft
      obtain rfl | hother := List.mem_cons.mp hother
      · exact hne hname
      · exact h.removed other hother hkey
    · intro hself
      rw [hname, ← hlinks] at hself
      exact List.count_eq_zero.mp hzero (List.mem_flatMap.mpr ⟨name, hmem, hself⟩)
    · intro other hother hmember
      rw [← hlinks] at hmember
      exact h.removed other hother (ready.closed name hmem _ hmember)

/-- Step 1.2 takes nodes from the queue until the others are all referred to by each other. -/
theorem Represents.sort (order : MapOrder String)
    (h : Represents decode groups (groups.flatMap (members decode)) graph)
    (nodup : (groups.map (groupName decode)).Nodup) :
    ∃ graph' s written, indegrees.peel placeGroup graph.keys.length graph
        (indegrees.sources order graph) ⟨0, groups⟩ = some (graph', s) ∧
      indegrees.Ready (groupInfo decode groups) graph' [] ∧
      Placed decode groups written graph'.keys s := by
  have hstart : ∃ written, Placed decode groups written graph.keys ⟨0, groups⟩ :=
    ⟨[], rfl, rfl, ⟨groups, (List.append_nil groups).symm⟩, h.perm_groups nodup, nofun, nofun⟩
  obtain ⟨graph', s, hpeel, hready, written, hplaced⟩ :=
    (h.ready nodup).peel (P := fun names s => ∃ written, Placed decode groups written names s)
      (fun graph name rest node s hready hnode hplaced =>
        hplaced.elim fun _ hplaced => hplaced.visit hready hnode) hstart (Nat.le_refl _)
  exact ⟨graph', s, written, hpeel, hready, hplaced⟩

/-! ### Step 2 -/

/-- The names that step 2.1 has collected for a node. -/
def fromsOf (graph : GroupGraph Mapping) (name : String) : List String :=
  ((graph.lookup name).map GraphNode.froms).getD []

/-- The references that step 2.1 has entered are entered on both sides. -/
structure Linked (graph : GroupGraph Mapping) : Prop where
  capacity : ∀ name node, graph.lookup name = some node → 0 ≤ node.indegree
  proxies : ∀ name node option, graph.lookup name = some node → node.option = some option →
    ∀ proxy ∈ option.proxies, proxy ∈ graph
  outdegree : ∀ name node, graph.lookup name = some node →
    node.outdegree = (graph.keys.flatMap (fromsOf graph)).count name
  froms : ∀ name ∈ graph, ∀ other ∈ fromsOf graph name, other ∈ graph

section

variable {proxy : String} (hname : name ∈ graph) (hproxy : proxy ∈ graph)
include hname hproxy

/-- One member in step 2.1, at the node that has it and at the node that it is. -/
theorem linkProxies_cons
    (capacity : ∀ name node, graph.lookup name = some node → 0 ≤ node.indegree) :
    ∃ graph', (∀ rest, linkProxies name (proxy :: rest) graph = linkProxies name rest graph') ∧
      graph'.keys.Perm graph.keys ∧
      ∀ other, graph'.lookup other = (graph.lookup other).map fun node =>
        { node with
          outdegree := node.outdegree + if other = name then 1 else 0
          froms := if other = proxy then node.froms ++ [name] else node.froms } := by
  obtain ⟨node, hnode⟩ := exists_lookup hname
  let counted : GraphNode Mapping := { node with outdegree := node.outdegree + 1 }
  have hcounted := lookup_insert_map
    (fun node => { node with outdegree := node.outdegree + 1 }) hnode
  have hkeys : (graph.insert name counted).keys.Perm graph.keys := keys_insert_perm hname
  have hproxy' : proxy ∈ graph.insert name counted := hkeys.mem_iff.mpr hproxy
  obtain ⟨child, hchild⟩ := exists_lookup hproxy'
  have hcapacity : ¬ (child.froms = [] ∧ child.indegree < 0) := by
    rintro ⟨-, hnegative⟩
    rw [hcounted proxy] at hchild
    obtain ⟨old, hold, heq⟩ := Option.map_eq_some_iff.mp hchild
    have hle := capacity proxy old hold
    rw [← heq] at hnegative
    split at hnegative <;> exact absurd hnegative (Int.not_lt.mpr hle)
  refine ⟨(graph.insert name counted).insert proxy { child with froms := child.froms ++ [name] },
    ?_, (keys_insert_perm hproxy').trans hkeys, ?_⟩
  · intro rest
    rw [linkProxies, hnode]
    simp [hchild, if_neg hcapacity, counted]
  · intro other
    rw [lookup_insert_map (fun child => { child with froms := child.froms ++ [name] }) hchild,
      hcounted, Option.map_map]
    congr 1
    funext node
    by_cases hother : other = name
    · by_cases hlink : other = proxy
      · simp [hother, ← hlink]
      · simp [hother, hother ▸ hlink]
    · by_cases hlink : other = proxy
      · simp [hlink, hlink ▸ hother]
      · simp [hother, hlink]

theorem Linked.enter (h : Linked graph) :
    ∃ graph', (∀ rest, linkProxies name (proxy :: rest) graph = linkProxies name rest graph') ∧
      Linked graph' ∧ graph'.keys.Perm graph.keys := by
  obtain ⟨graph', hlink, hkeys, hlookup⟩ := linkProxies_cons hname hproxy h.capacity
  have hmem : ∀ other, other ∈ graph' ↔ other ∈ graph := fun other => hkeys.mem_iff
  have hfroms : ∀ other, fromsOf graph' other =
      if other = proxy then fromsOf graph other ++ [name] else fromsOf graph other := by
    intro other
    rw [fromsOf, fromsOf, hlookup other]
    cases hother : graph.lookup other with
    | none =>
      have hne : other ≠ proxy := by
        rintro rfl
        exact AList.lookup_eq_none.mp hother hproxy
      rw [if_neg hne]
      rfl
    | some node => rfl
  have hold {other node'} (hnode' : graph'.lookup other = some node') :=
    Option.map_eq_some_iff.mp ((hlookup other).symm.trans hnode')
  refine ⟨graph', hlink, ⟨?_, ?_, ?_, ?_⟩, hkeys⟩
  · intro other node' hnode'
    obtain ⟨node, hnode, rfl⟩ := hold hnode'
    exact h.capacity other node hnode
  · intro other node' option hnode' hoption member hmember
    obtain ⟨node, hnode, rfl⟩ := hold hnode'
    exact (hmem member).mpr (h.proxies other node option hnode hoption member hmember)
  · intro other node' hnode'
    obtain ⟨node, hnode, rfl⟩ := hold hnode'
    rw [(hkeys.flatMap_right _).count_eq, funext hfroms,
      count_flatMap_concat graph.keys_nodup (AList.mem_keys.mp hproxy), Int.natCast_add,
      ← h.outdegree other node hnode]
    split <;> rfl
  · intro other hother member hmember
    rw [hfroms other] at hmember
    refine (hmem member).mpr ?_
    split at hmember
    · rcases Table.mem_concat hmember with hmember | rfl
      · exact h.froms other ((hmem other).mp hother) member hmember
      · exact hname
    · exact h.froms other ((hmem other).mp hother) member hmember

end

theorem Linked.linkProxies {proxies : List String} (h : Linked graph) (hname : name ∈ graph)
    (hproxies : ∀ proxy ∈ proxies, proxy ∈ graph) :
    ∃ graph', linkProxies name proxies graph = some graph' ∧ Linked graph' ∧
      graph'.keys.Perm graph.keys := by
  induction proxies generalizing graph with
  | nil => exact ⟨graph, rfl, h, .refl _⟩
  | cons proxy rest ih =>
    obtain ⟨middle, hlink, hmiddle, hkeys⟩ := h.enter hname (hproxies proxy List.mem_cons_self)
    obtain ⟨graph', hrest, hlinked, hkeys'⟩ := ih hmiddle (hkeys.mem_iff.mpr hname)
      fun other hother => hkeys.mem_iff.mpr (hproxies other (List.mem_cons_of_mem _ hother))
    exact ⟨graph', (hlink rest).trans hrest, hlinked, hkeys'.trans hkeys⟩

theorem Linked.rebuildGraph {names : List String} (h : Linked graph)
    (hnames : ∀ name ∈ names, name ∈ graph) :
    ∃ graph', rebuildGraph names graph = some graph' ∧ Linked graph' := by
  induction names generalizing graph with
  | nil => exact ⟨graph, rfl, h⟩
  | cons name rest ih =>
    obtain ⟨hname, hrest⟩ := List.forall_mem_cons.mp hnames
    obtain ⟨node, hnode⟩ := exists_lookup hname
    rw [Config.rebuildGraph, hnode]
    cases hoption : node.option with
    | none =>
      simp only [hoption]
      exact ih h hrest
    | some option =>
      obtain ⟨middle, hlink, hmiddle, hkeys⟩ :=
        h.linkProxies hname (h.proxies name node option hnode hoption)
      simp only [hoption, hlink, Option.bind_some]
      exact ih hmiddle fun other hother => hkeys.mem_iff.mpr (hrest other hother)

/-- What step 1.2 leaves can be linked: all members of a node that is left are left. -/
theorem linked_of_ready (h : indegrees.Ready (groupInfo decode groups) graph []) :
    Linked graph := by
  have hfroms : ∀ name, fromsOf graph name = [] := by
    intro name
    unfold fromsOf
    cases hnode : graph.lookup name with
    | none => rfl
    | some node => exact congrArg (fun info => info.2.2.2) (h.nodes name node hnode).2
  refine ⟨?_, ?_, ?_, ?_⟩
  · intro name node hnode
    have hdegree : node.indegree = _ := (h.nodes name node hnode).1
    rw [hdegree]
    exact Int.natCast_nonneg _
  · intro name node option hnode hoption proxy hproxy
    refine h.closed name (AList.lookup_isSome.mp (by rw [hnode]; rfl)) proxy ?_
    rw [← (h.nodes name node hnode).2]
    show proxy ∈ (node.option.map GroupCommonOption.proxies).getD []
    rw [hoption]
    exact hproxy
  · intro name node hnode
    have hout : node.outdegree = 0 := congrArg (fun info => info.2.1) (h.nodes name node hnode).2
    rw [hout, List.flatMap_eq_nil_iff.mpr fun name _ => hfroms name]
    rfl
  · intro name _ other hother
    rw [hfroms name] at hother
    cases hother

/-- Steps 2.1 to 2.3 find every node they look up. -/
theorem locateLoop_some (orders : Orders)
    (h : indegrees.Ready (groupInfo decode groups) graph []) :
    ∃ err, locateLoop orders graph = some err := by
  obtain ⟨graph', hrebuild, hlinked⟩ := (linked_of_ready h).rebuildGraph
    fun name hname => ((orders.rebuild.perm graph.keys).mem_iff).mp hname
  have hready : outdegrees.Ready (fromsOf graph') graph'
      (outdegrees.sources orders.outside graph') := by
    refine Scheme.ready_sources ?_ hlinked.froms
    intro name node hnode
    refine ⟨hlinked.outdegree name node hnode, ?_⟩
    rw [fromsOf, hnode]
    rfl
  obtain ⟨graph'', _, hpeel, -, -⟩ : ∃ graph'' s, outdegrees.peel (fun _ => some)
      graph'.keys.length graph' (outdegrees.sources orders.outside graph') () = some (graph'', s) ∧
      outdegrees.Ready (fromsOf graph') graph'' [] ∧ True :=
    hready.peel (fun _ _ _ _ s _ _ _ => ⟨s, rfl, fun _ _ => trivial⟩)
      trivial (Nat.le_refl _)
  rw [locateLoop, hrebuild, Option.bind_some, hpeel]
  exact ⟨_, rfl⟩

/-! ### The result -/

section

variable {sorted : List Mapping} (h : Ordered decode sorted) (hperm : sorted.Perm groups)
variable (nodup : (groups.map (groupName decode)).Nodup)
include h hperm nodup

/-- A reference leads to a group further to the front. -/
theorem Ordered.idxOf_lt {a b : String} (href : References decode groups a b) :
    (sorted.map (groupName decode)).idxOf b < (sorted.map (groupName decode)).idxOf a := by
  have hplace : ∀ m ∈ groups,
      sorted[(sorted.map (groupName decode)).idxOf (groupName decode m)]? = some m := by
    intro m hm
    have hname := List.getElem?_idxOf (List.mem_map_of_mem (f := groupName decode)
      (hperm.mem_iff.mpr hm))
    rw [List.getElem?_map] at hname
    obtain ⟨other, hother, hname⟩ := Option.map_eq_some_iff.mp hname
    rw [hother, List.inj_on_of_nodup_map nodup
      (hperm.mem_iff.mp (List.mem_of_getElem? hother)) hm hname]
  obtain ⟨g, hg, other, hother, rfl, rfl, hmember⟩ := href
  exact h _ _ g other (hplace g hg) (hplace other hother) hmember

theorem Ordered.acyclic : Acyclic decode groups := by
  intro a hcycle
  have hlt := Relation.TransGen.lift (p := (· > ·)) (sorted.map (groupName decode)).idxOf
    (fun _ _ => h.idxOf_lt hperm nodup) a a hcycle
  rw [Relation.transGen_eq_self] at hlt
  exact lt_irrefl _ hlt

end

/-- If something is left by step 1.2, it has a loop. -/
theorem not_acyclic_of_ready (h : indegrees.Ready (groupInfo decode groups) graph [])
    (hleft : graph.keys ≠ []) : ¬ Acyclic decode groups := by
  -- every node that is left is a member of a group that is left
  have hgroup : ∀ name ∈ graph, ∃ m, find decode groups (groupName decode m) = some m ∧
      groupName decode m ∈ graph ∧ name ∈ members decode m := by
    intro name hname
    obtain ⟨other, hother, hlink⟩ := h.linked hname
    rw [links_groupInfo] at hlink
    cases hfind : find decode groups other with
    | none =>
      rw [hfind] at hlink
      cases hlink
    | some m =>
      rw [hfind] at hlink
      have hm := (groupName_of_find hfind).2
      exact ⟨m, hm ▸ hfind, hm ▸ hother, hlink⟩
  let names := graph.keys.filter fun name => (find decode groups name).isSome
  have hlinked : ∀ name ∈ names, ∃ other ∈ names, References decode groups other name := by
    intro name hname
    obtain ⟨hkey, hsome⟩ := List.mem_filter.mp hname
    obtain ⟨target, htarget⟩ := Option.isSome_iff_exists.mp hsome
    obtain ⟨m, hfind, hm, hmember⟩ := hgroup name hkey
    refine ⟨groupName decode m, List.mem_filter.mpr ⟨hm, by rw [hfind]; rfl⟩, ?_⟩
    exact ⟨m, (groupName_of_find hfind).1, target, (groupName_of_find htarget).1, rfl,
      (groupName_of_find htarget).2, hmember⟩
  obtain ⟨first, hfirst⟩ := List.exists_mem_of_ne_nil _ hleft
  obtain ⟨m, hfind, hm, -⟩ := hgroup first hfirst
  have hnonempty : names ≠ [] :=
    List.ne_nil_of_mem (List.mem_filter.mpr ⟨hm, by rw [hfind]; rfl⟩)
  obtain ⟨name, hcycle⟩ := exists_cycle hnonempty hlinked
  intro hacyclic
  exact hacyclic name hcycle

/-- For every order of iteration, `proxyGroupsDagSort` neither indexes outside of the list nor
misses a node. There is no error if and only if all groups are decoded, their names are unique
and they do not refer to each other in a loop. The groups are then a permutation of the
original ones, in which every group comes after those it has as members. -/
theorem groups_sorted (decode : Mapping → Decoded) (orders : Orders) (groups : List Mapping) :
    ∃ err sorted, proxyGroupsDagSort decode orders groups = some (err, sorted) ∧
      (err = none ↔ (∀ m ∈ groups, (decode m).err = none) ∧
        (groups.map (groupName decode)).Nodup ∧ Acyclic decode groups) ∧
      (err = none → sorted.Perm groups ∧ Ordered decode sorted) := by
  have hempty : Represents decode [] [] (∅ : GroupGraph Mapping) := fun _ => rfl
  unfold proxyGroupsDagSort
  obtain ⟨graph, hbuild, hdistinct, hgraph⟩ | ⟨err, hbuild, hdistinct⟩ :=
    buildGraph_cases groups hempty ⟨nofun, List.nodup_nil⟩
  · obtain ⟨graph', s, written, hpeel, hready, hplaced⟩ :=
      hgraph.sort orders.queue hdistinct.2
    rw [hbuild]
    simp only [List.nil_append] at hpeel
    simp only [hpeel, Option.bind_some]
    split
    next hlength =>
      -- everything has been written
      have hkeys := List.eq_nil_of_length_eq_zero hlength
      have hperm := hplaced.perm
      rw [hkeys, List.filterMap_nil, List.append_nil] at hperm
      obtain ⟨before, hbefore⟩ := hplaced.suffix
      have hnil : before = [] := by
        have hlengths := hplaced.length
        rw [hbefore, List.length_append, ← hperm.length_eq] at hlengths
        exact List.eq_nil_of_length_eq_zero (by omega)
      rw [hbefore, hnil]
      have hacyclic := hplaced.ordered.acyclic hperm hdistinct.2
      exact ⟨none, written, rfl, iff_of_true rfl ⟨hdistinct.1, hdistinct.2, hacyclic⟩,
        fun _ => ⟨hperm, hplaced.ordered⟩⟩
    next hlength =>
      obtain ⟨err, herr⟩ := locateLoop_some orders hready
      rw [herr]
      have hcycle := not_acyclic_of_ready hready fun hkeys => hlength (by rw [hkeys]; rfl)
      exact ⟨some err, s.groups, rfl, iff_of_false nofun fun hall => hcycle hall.2.2, nofun⟩
  · rw [hbuild]
    exact ⟨some err, groups, rfl,
      iff_of_false nofun fun hall => hdistinct ⟨hall.1, hall.2.1⟩, nofun⟩

/-- Groups that are written as they are decoded. -/
def plainDecode (option : GroupCommonOption) : Decoded := ⟨option, none⟩

def listedOrders : Orders := ⟨.listed _, .listed _, .listed _, .listed _⟩

theorem groups_sorted_member :
    proxyGroupsDagSort plainDecode listedOrders [⟨"auto", ["fast"]⟩, ⟨"fast", ["p"]⟩] =
        some (none, [⟨"fast", ["p"]⟩, ⟨"auto", ["fast"]⟩]) ∧
      Ordered plainDecode [⟨"fast", ["p"]⟩, ⟨"auto", ["fast"]⟩] := by
  have hsort : proxyGroupsDagSort plainDecode listedOrders [⟨"auto", ["fast"]⟩, ⟨"fast", ["p"]⟩] =
      some (none, [⟨"fast", ["p"]⟩, ⟨"auto", ["fast"]⟩]) := by decide +kernel
  obtain ⟨err, sorted, hsorted, -, hok⟩ :=
    groups_sorted plainDecode listedOrders [⟨"auto", ["fast"]⟩, ⟨"fast", ["p"]⟩]
  cases hsort.symm.trans hsorted
  exact ⟨hsort, (hok rfl).2⟩

end Config
