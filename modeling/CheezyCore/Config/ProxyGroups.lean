import CheezyCore.Foundation.Peeling
import Mathlib.Data.List.Nodup

/-!
# The order of proxy groups

`proxyGroupsDagSort` sorts the groups of a configuration such that each one comes after the
groups it refers to. It takes the graph of references apart from the groups that nothing refers
to, and writes the groups from the end of the list. If something is left the graph has a loop,
which is then located by taking the rest apart from the other side.

The result is missing where the source would panic: an index outside of the list, a node that
is not in the graph, a slice with a negative capacity.
-/

namespace Config

open Peeling

structure GroupCommonOption where
  name : String
  proxies : List String
  deriving DecidableEq, Repr

/-- What `decoder.Decode` leaves in the option, and the text of its error. -/
structure Decoded where
  option : GroupCommonOption
  err : Option String
  deriving DecidableEq, Repr

structure GraphNode (Mapping : Type) where
  indegree : Int
  data : Option Mapping
  outdegree : Int
  option : Option GroupCommonOption
  froms : List String

variable {Mapping : Type}

abbrev GroupGraph (Mapping : Type) := NodeMap String (GraphNode Mapping)

/-- The members of a group, in step 1.1. -/
def addProxies : List String → GroupGraph Mapping → GroupGraph Mapping
  | [], graph => graph
  | proxy :: rest, graph =>
    addProxies rest <| graph.insert proxy <|
      match graph.lookup proxy with
      | some node => { node with indegree := node.indegree + 1 }
      | none => ⟨1, none, 0, none, []⟩

/-- Step 1.1. -/
def buildGraph (decode : Mapping → Decoded) :
    List Mapping → GroupGraph Mapping → Except String (GroupGraph Mapping)
  | [], graph => .ok graph
  | mapping :: rest, graph =>
    let option := (decode mapping).option
    match (decode mapping).err with
    | some err => .error ("ProxyGroup " ++ option.name ++ ": " ++ err)
    | none =>
      match graph.lookup option.name with
      | some node =>
        if node.data.isSome then
          .error ("ProxyGroup " ++ option.name ++ ": duplicate group name")
        else
          buildGraph decode rest (addProxies option.proxies
            (graph.insert option.name { node with data := mapping, option := option }))
      | none =>
        buildGraph decode rest (addProxies option.proxies
          (graph.insert option.name ⟨0, mapping, 0, option, []⟩))

/-- The indegrees and the members, for step 1.2. The members of a plain proxy, whose option is
nil, are none. -/
def indegrees : Scheme String (GraphNode Mapping)
    (Option Mapping × Int × Option GroupCommonOption × List String) where
  degree node := node.indegree
  info node := (node.data, node.outdegree, node.option, node.froms)
  links info := (info.2.2.1.map GroupCommonOption.proxies).getD []
  decrement node := { node with indegree := node.indegree - 1 }
  degree_decrement _ := rfl
  info_decrement _ := rfl

/-- The outdegrees and the nodes that refer to a node, for step 2.2. -/
def outdegrees : Scheme String (GraphNode Mapping) (List String) where
  degree node := node.outdegree
  info node := node.froms
  links froms := froms
  decrement node := { node with outdegree := node.outdegree - 1 }
  degree_decrement _ := rfl
  info_decrement _ := rfl

/-- `index` and `groupsConfig`. -/
structure Sorting (Mapping : Type) where
  index : Nat
  groups : List Mapping

/-- `groupsConfig[len(groupsConfig)-index] = node.data` after `index++`, for a group. -/
def placeGroup (node : GraphNode Mapping) (s : Sorting Mapping) : Option (Sorting Mapping) :=
  match node.option, node.data with
  | none, _ => some s
  | some _, none => none
  | some _, some data =>
    if s.index + 1 ≤ s.groups.length then
      some ⟨s.index + 1, s.groups.set (s.groups.length - (s.index + 1)) data⟩
    else none

/-- The members of one group, in step 2.1. -/
def linkProxies (name : String) : List String → GroupGraph Mapping → Option (GroupGraph Mapping)
  | [], graph => some graph
  | proxy :: rest, graph =>
    match graph.lookup name with
    | none => none
    | some node =>
      let graph := graph.insert name { node with outdegree := node.outdegree + 1 }
      match graph.lookup proxy with
      | none => none
      | some child =>
        -- `make([]string, 0, child.indegree)`
        if child.froms = [] ∧ child.indegree < 0 then none
        else
          linkProxies name rest
            (graph.insert proxy { child with froms := child.froms ++ [name] })

/-- Step 2.1. -/
def rebuildGraph : List String → GroupGraph Mapping → Option (GroupGraph Mapping)
  | [], graph => some graph
  | name :: rest, graph =>
    match graph.lookup name with
    | none => none
    | some node =>
      match node.option with
      | none => rebuildGraph rest graph
      | some option => (linkProxies name option.proxies graph).bind (rebuildGraph rest)

/-- The orders of the four iterations over the graph. -/
structure Orders where
  queue : MapOrder String
  rebuild : MapOrder String
  outside : MapOrder String
  report : MapOrder String

/-- Steps 2.1 to 2.3: the text of the error. -/
def locateLoop (orders : Orders) (graph : GroupGraph Mapping) : Option String :=
  (rebuildGraph (orders.rebuild.range graph.keys) graph).bind fun graph =>
    (outdegrees.peel (fun _ => some) graph.keys.length graph
      (outdegrees.sources orders.outside graph) ()).map fun (graph, _) =>
        "loop is detected in ProxyGroup, please check following ProxyGroups: [" ++
          " ".intercalate (orders.report.range graph.keys) ++ "]"

/-- The error, if there is one, and the contents of `groupsConfig`. -/
def proxyGroupsDagSort (decode : Mapping → Decoded) (orders : Orders)
    (groupsConfig : List Mapping) : Option (Option String × List Mapping) :=
  match buildGraph decode groupsConfig ∅ with
  | .error err => some (some err, groupsConfig)
  | .ok graph =>
    (indegrees.peel placeGroup graph.keys.length graph
      (indegrees.sources orders.queue graph) ⟨0, groupsConfig⟩).bind fun (graph, sorting) =>
        if graph.keys.length = 0 then some (none, sorting.groups)
        else (locateLoop orders graph).map fun err => (some err, sorting.groups)

def groupName (decode : Mapping → Decoded) (mapping : Mapping) : String :=
  (decode mapping).option.name

def members (decode : Mapping → Decoded) (mapping : Mapping) : List String :=
  (decode mapping).option.proxies

/-- One group has another as a member. -/
def References (decode : Mapping → Decoded) (groups : List Mapping) (a b : String) : Prop :=
  ∃ g ∈ groups, ∃ h ∈ groups, groupName decode g = a ∧ groupName decode h = b ∧
    b ∈ members decode g

def Acyclic (decode : Mapping → Decoded) (groups : List Mapping) : Prop :=
  ∀ a, ¬ Relation.TransGen (References decode groups) a a

/-- Every group comes after the groups it has as members. -/
def Ordered (decode : Mapping → Decoded) (groups : List Mapping) : Prop :=
  ∀ (i j : Nat) (g h : Mapping), groups[i]? = some g → groups[j]? = some h →
    groupName decode h ∈ members decode g → j < i

/-- The group with a name. -/
def find (decode : Mapping → Decoded) (groups : List Mapping) (name : String) : Option Mapping :=
  groups.find? fun mapping => decide (groupName decode mapping = name)

end Config
