import Mathlib.Algebra.Order.Ring.Int
import Mathlib.Data.Fintype.Order
import Mathlib.Data.List.AList
import Mathlib.Data.List.Perm.Basic
import Mathlib.Logic.Relation
import Mathlib.Order.Preorder.Finite

/-!
# Peeling a graph

A graph whose nodes count the links that lead to them is taken apart: a node with the count
zero is removed, and every link it has lowers a count. What cannot be removed consists of nodes
that are all linked from others of them, hence it has a cycle.

Counts and links may be any parts of a node (`Scheme`). The keys of a map are visited in an
order that is not known (`MapOrder`).
-/

namespace Peeling

variable {α ν ι σ : Type*} [DecidableEq α] {names : List α} {name : α}

/-- The order in which a map is iterated over. -/
structure MapOrder (α : Type*) where
  range : List α → List α
  perm : ∀ keys, (range keys).Perm keys

/-- The order in which the keys are listed. -/
def MapOrder.listed (α : Type*) : MapOrder α := ⟨id, List.Perm.refl⟩

abbrev NodeMap (α ν : Type*) := AList fun _ : α => ν

/-- The parts of a node: its count, and what stays as it is, with the links in it. -/
structure Scheme (α ν ι : Type*) where
  degree : ν → Int
  info : ν → ι
  links : ι → List α
  decrement : ν → ν
  degree_decrement : ∀ node, degree (decrement node) = degree node - 1
  info_decrement : ∀ node, info (decrement node) = info node

section Modify

variable {graph : NodeMap α ν} {name : α} {node : ν}

theorem lookup_insert_map (f : ν → ν) (h : graph.lookup name = some node) (other : α) :
    (graph.insert name (f node)).lookup other =
      (graph.lookup other).map fun node => if other = name then f node else node := by
  by_cases hother : other = name
  · subst hother
    rw [AList.lookup_insert, h, Option.map_some, if_pos rfl]
  · simp [AList.lookup_insert_ne hother, if_neg hother]

theorem exists_lookup (h : name ∈ graph) : ∃ node, graph.lookup name = some node :=
  Option.isSome_iff_exists.mp (AList.lookup_isSome.mpr h)

theorem keys_insert_perm (h : name ∈ graph) : (graph.insert name node).keys.Perm graph.keys := by
  rw [AList.keys_insert]
  exact (List.perm_cons_erase h).symm

end Modify

/-- One more link of a node. -/
theorem count_flatMap_concat {links : α → List α} (nodup : names.Nodup) (mem : name ∈ names)
    (added other : α) :
    (names.flatMap fun from' => if from' = name then links from' ++ [added] else links from').count
        other = (names.flatMap links).count other + if other = added then 1 else 0 := by
  have hperm := List.perm_cons_erase mem
  have hrest : ((names.erase name).flatMap fun from' =>
      if from' = name then links from' ++ [added] else links from') =
        (names.erase name).flatMap links := by
    refine List.flatMap_congr fun from' hfrom => ?_
    rw [if_neg (nodup.mem_erase_iff.mp hfrom).1]
  rw [(hperm.flatMap_right _).count_eq, (hperm.flatMap_right _).count_eq, List.flatMap_cons,
    List.flatMap_cons, hrest, if_pos rfl, List.count_append, List.count_append, List.count_append,
    List.count_singleton']
  simp only [eq_comm]
  omega

namespace Scheme

variable (c : Scheme α ν ι)

/-- The nodes with the count zero. -/
def sources (order : MapOrder α) (graph : NodeMap α ν) : List α :=
  (order.range graph.keys).filter fun name =>
    (graph.lookup name).any fun node => decide (c.degree node = 0)

/-- Lowers the count of every child and queues those that reach zero. There is no result if a
child is not in the graph. -/
def release : List α → NodeMap α ν → List α → Option (NodeMap α ν × List α)
  | [], graph, queue => some (graph, queue)
  | child :: rest, graph, queue =>
    match graph.lookup child with
    | none => none
    | some node =>
      release rest (graph.insert child (c.decrement node))
        (if c.degree (c.decrement node) = 0 then queue ++ [child] else queue)

/-- Takes nodes from the queue until it is empty. There is no result if a node is not in the
graph, if it cannot be visited, or if there are more than so many rounds. -/
def peel (visit : ν → σ → Option σ) :
    Nat → NodeMap α ν → List α → σ → Option (NodeMap α ν × σ)
  | _, graph, [], s => some (graph, s)
  | 0, _, _ :: _, _ => none
  | rounds + 1, graph, name :: rest, s =>
    match graph.lookup name with
    | none => none
    | some node =>
      match visit node s with
      | none => none
      | some s =>
        match c.release (c.links (c.info node)) graph (name :: rest) with
        | none => none
        | some (graph, queue) => peel visit rounds (graph.erase name) queue.tail s

/-- The counts are these weights, and the queue has the nodes whose weight is zero. -/
structure Level (info : α → ι) (weight : α → Nat) (graph : NodeMap α ν) (queue : List α) :
    Prop where
  nodes : ∀ name node, graph.lookup name = some node →
    c.degree node = weight name ∧ c.info node = info name
  queued : ∀ name, name ∈ queue ↔ name ∈ graph ∧ weight name = 0
  nodup : queue.Nodup

/-- The number of links to a node from these nodes. -/
def inward (info : α → ι) (names : List α) (name : α) : Nat :=
  (names.flatMap fun from' => c.links (info from')).count name

/-- The counts are the numbers of links inside the graph, and no link leaves it. -/
structure Ready (info : α → ι) (graph : NodeMap α ν) (queue : List α) : Prop
    extends c.Level info (c.inward info graph.keys) graph queue where
  closed : ∀ name ∈ graph, ∀ child ∈ c.links (info name), child ∈ graph

variable {c} {info : α → ι} {weight : α → Nat} {graph : NodeMap α ν} {queue : List α} {s : σ}

theorem Level.decrement {child : α} (h : c.Level info weight graph queue) (mem : child ∈ graph)
    (pos : 0 < weight child) :
    ∃ node, graph.lookup child = some node ∧
      c.Level info (Function.update weight child (weight child - 1))
        (graph.insert child (c.decrement node))
        (if c.degree (c.decrement node) = 0 then queue ++ [child] else queue) := by
  obtain ⟨node, hnode⟩ := exists_lookup mem
  obtain ⟨hdegree, hinfo⟩ := h.nodes child node hnode
  have hlower : c.degree (c.decrement node) = ((weight child - 1 : Nat) : Int) := by
    rw [c.degree_decrement]
    omega
  have hunqueued : child ∉ queue := fun hq => Nat.ne_of_gt pos ((h.queued child).mp hq).2
  refine ⟨node, hnode, ?_, ?_, ?_⟩
  · intro name other hother
    by_cases hname : name = child
    · subst hname
      rw [AList.lookup_insert] at hother
      cases hother
      exact ⟨by rw [hlower, Function.update_self], by rw [c.info_decrement, hinfo]⟩
    · rw [AList.lookup_insert_ne hname] at hother
      rw [Function.update_of_ne hname]
      exact h.nodes name other hother
  · intro name
    rw [hlower, AList.mem_insert]
    by_cases hname : name = child
    · subst hname
      rw [Function.update_self]
      split
      next hzero =>
        exact iff_of_true (List.mem_append_right queue List.mem_cons_self)
          ⟨.inl rfl, Int.natCast_eq_zero.mp hzero⟩
      next hzero =>
        exact iff_of_false hunqueued fun hq => hzero (Int.natCast_eq_zero.mpr hq.2)
    · rw [Function.update_of_ne hname, or_iff_right hname, ← h.queued name]
      split
      · rw [List.mem_append, List.mem_singleton, or_iff_left hname]
      · exact Iff.rfl
  · split
    · exact h.nodup.append (List.nodup_singleton child) (List.disjoint_singleton.mpr hunqueued)
    · exact h.nodup

/-- The links of a node are taken off the weights of its children. -/
theorem Level.release {rest : List α} (mem : ∀ child ∈ rest, child ∈ graph)
    (h : c.Level info (fun name => weight name + rest.count name) graph queue) :
    ∃ graph' more, c.release rest graph queue = some (graph', queue ++ more) ∧
      c.Level info weight graph' (queue ++ more) ∧ graph'.keys.Perm graph.keys := by
  induction rest generalizing graph queue with
  | nil => exact ⟨graph, [], by rw [List.append_nil]; rfl, by simpa using h, .refl _⟩
  | cons child rest ih =>
    have hchild := mem child List.mem_cons_self
    obtain ⟨node, hnode, hlevel⟩ := h.decrement hchild (by
      rw [List.count_cons_self]
      omega)
    have hweight : Function.update (fun name => weight name + (child :: rest).count name) child
        (weight child + (child :: rest).count child - 1) =
          fun name => weight name + rest.count name := by
      funext name
      by_cases hname : name = child
      · subst hname
        rw [Function.update_self, List.count_cons_self]
        omega
      · rw [Function.update_of_ne hname, List.count_cons_of_ne (Ne.symm hname)]
    rw [hweight] at hlevel
    have hkeys : (graph.insert child (c.decrement node)).keys.Perm graph.keys :=
      keys_insert_perm hchild
    obtain ⟨graph', more, hrelease, hlevel, hperm⟩ :=
      ih (fun name hname => (AList.mem_insert graph).mpr
        (.inr (mem name (List.mem_cons_of_mem child hname)))) hlevel
    rw [Scheme.release, hnode]
    refine ⟨graph', (if c.degree (c.decrement node) = 0 then [child] else []) ++ more, ?_⟩
    have hqueue : queue ++ ((if c.degree (c.decrement node) = 0 then [child] else []) ++ more) =
        (if c.degree (c.decrement node) = 0 then queue ++ [child] else queue) ++ more := by
      split
      · rw [List.append_assoc]
      · rfl
    rw [hqueue]
    exact ⟨hrelease, hlevel, hperm.trans hkeys⟩

theorem inward_perm {names' : List α} (h : names.Perm names') :
    c.inward info names = c.inward info names' :=
  funext fun name => (h.flatMap_right _).count_eq name

theorem inward_cons (first : α) (names : List α) :
    c.inward info (first :: names) =
      fun name => c.inward info names name + (c.links (info first)).count name := by
  funext name
  rw [inward, List.flatMap_cons, List.count_append, Nat.add_comm]
  rfl

/-- One round: the first node of the queue and its links are removed. -/
theorem Ready.round {rest : List α} (h : c.Ready info graph (name :: rest)) :
    ∃ node graph' queue', graph.lookup name = some node ∧ c.info node = info name ∧
      c.release (c.links (c.info node)) graph (name :: rest) = some (graph', name :: queue') ∧
      c.Ready info (graph'.erase name) queue' ∧
      (graph'.erase name).keys.Perm (graph.keys.erase name) := by
  obtain ⟨hmem, hzero⟩ := (h.queued name).mp List.mem_cons_self
  obtain ⟨node, hnode⟩ := exists_lookup hmem
  have hinfo := (h.nodes name node hnode).2
  have hweight : c.inward info graph.keys = fun other =>
      c.inward info (graph.keys.erase name) other + (c.links (info name)).count other := by
    rw [← inward_cons]
    exact inward_perm (List.perm_cons_erase hmem)
  obtain ⟨graph', more, hrelease, hlevel, hperm⟩ :=
    Level.release (h.closed name hmem) (hweight ▸ h.toLevel)
  have herase : (graph'.erase name).keys.Perm (graph.keys.erase name) := by
    rw [AList.keys_erase]
    exact hperm.erase name
  have hunlinked : ∀ other ∈ graph, name ∉ c.links (info other) := by
    intro other hother hlink
    exact List.count_eq_zero.mp hzero (List.mem_flatMap.mpr ⟨other, hother, hlink⟩)
  refine ⟨node, graph', rest ++ more, hnode, hinfo, hinfo ▸ hrelease, ⟨⟨?_, ?_, ?_⟩, ?_⟩, herase⟩
  · intro other node' hnode'
    rw [inward_perm herase]
    by_cases hother : other = name
    · rw [hother, AList.lookup_erase] at hnode'
      cases hnode'
    · rw [AList.lookup_erase_ne hother] at hnode'
      exact hlevel.nodes other node' hnode'
  · intro other
    rw [inward_perm herase, AList.mem_erase, and_assoc, ← hlevel.queued other, List.cons_append,
      List.mem_cons]
    have hnodup := (List.nodup_cons.mp hlevel.nodup).1
    constructor
    · intro hother
      exact ⟨fun heq => hnodup (heq ▸ hother), .inr hother⟩
    · rintro ⟨hne, heq | hother⟩
      · exact absurd heq hne
      · exact hother
  · exact (List.nodup_cons.mp hlevel.nodup).2
  · intro other hother child hchild
    rw [AList.mem_erase, AList.mem_keys, hperm.mem_iff] at hother ⊢
    refine ⟨?_, h.closed other hother.2 child hchild⟩
    rintro rfl
    exact hunlinked other hother.2 hchild

/-- The nodes are all visited in some order, except for those that end up linked in a cycle.
`P` is what holds of the nodes that are left and of the state. -/
theorem Ready.peel {visit : ν → σ → Option σ} {P : List α → σ → Prop}
    (hvisit : ∀ graph name rest node s, c.Ready info graph (name :: rest) →
      graph.lookup name = some node → P graph.keys s →
      ∃ s', visit node s = some s' ∧ ∀ names, names.Perm (graph.keys.erase name) → P names s')
    {rounds : Nat} (h : c.Ready info graph queue) (start : P graph.keys s)
    (enough : graph.keys.length ≤ rounds) :
    ∃ graph' s', c.peel visit rounds graph queue s = some (graph', s') ∧
      c.Ready info graph' [] ∧ P graph'.keys s' := by
  induction rounds generalizing graph queue s with
  | zero =>
    cases queue with
    | nil => exact ⟨graph, s, rfl, h, start⟩
    | cons name rest =>
      have hmem := ((h.queued name).mp List.mem_cons_self).1
      have hpos := List.length_pos_of_mem (AList.mem_keys.mp hmem)
      omega
  | succ rounds ih =>
    cases queue with
    | nil => exact ⟨graph, s, rfl, h, start⟩
    | cons name rest =>
      obtain ⟨node, graph', queue', hnode, -, hrelease, hready, hkeys⟩ := h.round
      obtain ⟨s', hs', hp⟩ := hvisit graph name rest node s h hnode start
      have hmem := ((h.queued name).mp List.mem_cons_self).1
      have hlength := hkeys.length_eq
      rw [List.length_erase_of_mem (AList.mem_keys.mp hmem)] at hlength
      rw [Scheme.peel, hnode]
      simp only [hs', hrelease, List.tail_cons]
      exact ih hready (hp _ hkeys) (by omega)

/-- When the queue is empty every node that is left is linked from one that is left. -/
theorem Ready.linked (h : c.Ready info graph []) (mem : name ∈ graph) :
    ∃ other ∈ graph, name ∈ c.links (info other) := by
  have hpos : c.inward info graph.keys name ≠ 0 := by
    intro hzero
    exact List.not_mem_nil ((h.queued name).mpr ⟨mem, hzero⟩)
  obtain ⟨other, hother, hlink⟩ := List.mem_flatMap.mp (List.count_pos_iff.mp
    (Nat.pos_of_ne_zero hpos))
  exact ⟨other, hother, hlink⟩

/-- The counts of a graph and its nodes with the count zero. -/
theorem ready_sources {order : MapOrder α}
    (nodes : ∀ name node, graph.lookup name = some node →
      c.degree node = c.inward info graph.keys name ∧ c.info node = info name)
    (closed : ∀ name ∈ graph, ∀ child ∈ c.links (info name), child ∈ graph) :
    c.Ready info graph (c.sources order graph) := by
  have hperm := order.perm graph.keys
  refine ⟨⟨nodes, ?_, (hperm.nodup_iff.mpr graph.keys_nodup).filter _⟩, closed⟩
  intro name
  rw [sources, List.mem_filter, hperm.mem_iff, Option.any_eq_true]
  refine and_congr_right fun hmem => ?_
  obtain ⟨node, hnode⟩ := exists_lookup hmem
  have hdegree := (nodes name node hnode).1
  rw [hnode]
  constructor
  · rintro ⟨node', hnode', hzero⟩
    cases hnode'
    have hzero := of_decide_eq_true hzero
    omega
  · intro hzero
    exact ⟨node, rfl, decide_eq_true (by omega)⟩

end Scheme

/-- Finitely many values that all have a predecessor among them are in a cycle. -/
theorem exists_cycle {r : α → α → Prop} (nonempty : names ≠ [])
    (linked : ∀ name ∈ names, ∃ other ∈ names, r other name) :
    ∃ name, Relation.TransGen r name name := by
  by_contra hnone
  have hirrefl : ∀ name, ¬ Relation.TransGen r name name := fun name h => hnone ⟨name, h⟩
  let below : {name // name ∈ names} → {name // name ∈ names} → Prop :=
    fun a b => Relation.TransGen r a.1 b.1
  have : Std.Irrefl below := ⟨fun a => hirrefl a.1⟩
  have hwf : WellFounded below := Finite.wellFounded_of_trans_of_irrefl below
  obtain ⟨first, hfirst⟩ := List.exists_mem_of_ne_nil names nonempty
  obtain ⟨least, -, hleast⟩ := hwf.has_min Set.univ ⟨⟨first, hfirst⟩, trivial⟩
  obtain ⟨other, hother, hlink⟩ := linked least.1 least.2
  exact hleast ⟨other, hother⟩ trivial (.single hlink)

end Peeling
