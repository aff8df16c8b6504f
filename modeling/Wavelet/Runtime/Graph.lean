import Mathlib.Data.List.Basic
import Wavelet.Control
import Wavelet.Runtime.Scheduler

/-!
# The computation graph

`Graph` and `NodeContext` of `graph.rs` over a stable graph: a slot for each index, empty
where a node was removed, and the edges with the newest first, which is the order in which
the outgoing edges of a node are listed. Removing a node drops the edges at it and leaves
its index free; which free index the next node gets is the caller's parameter, so no
result depends on the allocation policy. A `Key` is the identity of a node's shared data
(its `Rc` allocation), which, unlike its index, is never given to another node.
-/

namespace Wavelet

abbrev Key := Nat

/-- The boxed closure of a node, as far as the runtime sees it: the data it upgrades
(`build`) or owns (`spawn`), and whether it lets a panic through. -/
structure CycleFn where
  state : Key
  spawned : Bool
  allowPanic : Bool
  deriving DecidableEq, Repr

structure NodeContext where
  cycleFn : CycleFn
  schedEpoch : Nat
  depth : Nat
  poisoned : Bool
  deriving DecidableEq, Repr

/-- `NodeContext::new`: the scheduling epoch starts at 0. -/
def NodeContext.new (cycleFn : CycleFn) (depth : Nat) : NodeContext := ⟨cycleFn, 0, depth, false⟩

structure Edge where
  parent : NodeIndex
  child : NodeIndex
  relationship : Relationship
  deriving DecidableEq, Repr

structure Graph where
  slots : List (Option NodeContext)
  edgeList : List Edge
  deriving DecidableEq, Repr

namespace Graph

def new : Graph := ⟨[], []⟩

/-- `inner.node_weight(i)`. -/
def nodeWeight (g : Graph) (i : NodeIndex) : Option NodeContext := g.slots.getD i none

/-- Assignment through `inner.node_weight_mut(i)`. -/
def setWeight (g : Graph) (i : NodeIndex) (w : NodeContext) : Graph :=
  { g with slots := g.slots.set i (some w) }

def canSchedule (g : Graph) (i : NodeIndex) (epoch : Nat) : Option (Nat × Graph) :=
  match g.nodeWeight i with
  | some ctx =>
    if ctx.schedEpoch = epoch then none else some (ctx.depth, g.setWeight i { ctx with schedEpoch := epoch })
  | none => none

def triggeringEdges (g : Graph) (i : NodeIndex) : List NodeIndex :=
  (g.edgeList.filter fun e => e.parent = i ∧ e.relationship = .trigger).map (·.child)

def edges (g : Graph) (i : NodeIndex) : List NodeIndex :=
  (g.edgeList.filter fun e => e.parent = i).map (·.child)

/-- `self.inner[i].poisoned = true`; indexing an empty slot panics. -/
def markPoisoned (g : Graph) (i : NodeIndex) : Option Graph :=
  (g.nodeWeight i).map fun ctx => g.setWeight i { ctx with poisoned := true }

/-- The node is put into the free slot `i`. -/
def addNode (g : Graph) (i : NodeIndex) (w : NodeContext) : Graph :=
  { g with slots := (g.slots ++ List.replicate (i + 1 - g.slots.length) none).set i (some w) }

/-- An edge between missing nodes panics. -/
def addEdge (g : Graph) (parent child : NodeIndex) (r : Relationship) : Option Graph :=
  if (g.nodeWeight parent).isSome ∧ (g.nodeWeight child).isSome then
    some { g with edgeList := ⟨parent, child, r⟩ :: g.edgeList }
  else none

def removeNode (g : Graph) (i : NodeIndex) : Graph :=
  ⟨g.slots.set i none, g.edgeList.filter fun e => e.parent ≠ i ∧ e.child ≠ i⟩

def nodeCount (g : Graph) : Nat := g.slots.countP (·.isSome)

/-- One edge, of either relationship. -/
def Adj (g : Graph) (p c : NodeIndex) : Prop := ∃ r, ⟨p, c, r⟩ ∈ g.edgeList

/-! ## Reading a graph after an update -/

theorem lt_length_of_nodeWeight {g : Graph} {i : Nat} {w : NodeContext} (h : g.nodeWeight i = some w) :
    i < g.slots.length := by
  by_contra past
  simp [nodeWeight, List.getD_eq_getElem?_getD, List.getElem?_eq_none (Nat.le_of_not_lt past)] at h

theorem nodeWeight_set {g : Graph} {i : Nat} (bound : i < g.slots.length) (o : Option NodeContext)
    (es : List Edge) (j : NodeIndex) :
    (Graph.mk (g.slots.set i o) es).nodeWeight j = if j = i then o else g.nodeWeight j := by
  simp only [nodeWeight, List.getD_eq_getElem?_getD, List.getElem?_set]
  by_cases same : i = j
  · subst same; simp [bound]
  · simp [same, Ne.symm same]

theorem nodeWeight_setWeight {g : Graph} {i : NodeIndex} {w : NodeContext} (there : g.nodeWeight i = some w)
    (w' : NodeContext) (j : NodeIndex) :
    (g.setWeight i w').nodeWeight j = if j = i then some w' else g.nodeWeight j :=
  nodeWeight_set (lt_length_of_nodeWeight there) ..

theorem nodeWeight_addNode (g : Graph) (i : Nat) (w : NodeContext) (j : Nat) :
    (g.addNode i w).nodeWeight j = if j = i then some w else g.nodeWeight j := by
  simp only [nodeWeight, addNode, List.getD_eq_getElem?_getD, List.getElem?_set, List.getElem?_append,
    List.getElem?_replicate, List.length_append, List.length_replicate]
  by_cases same : i = j
  · subst same
    simp only [if_true]
    rw [if_pos (by omega)]
    rfl
  · simp only [same, Ne.symm same, if_false]
    split
    · rfl
    · rename_i past
      rw [List.getElem?_eq_none (by omega : g.slots.length ≤ j)]
      split <;> rfl

theorem nodeWeight_removeNode (g : Graph) (i j : Nat) :
    (g.removeNode i).nodeWeight j = if j = i then none else g.nodeWeight j := by
  by_cases bound : i < g.slots.length
  · exact nodeWeight_set bound ..
  · have same : g.slots.set i none = g.slots := List.set_eq_of_length_le (by omega)
    simp only [nodeWeight, removeNode, same]
    split
    · rename_i eq
      subst eq
      rw [List.getD_eq_getElem?_getD, List.getElem?_eq_none (by omega)]; rfl
    · rfl

theorem mem_edgeList_removeNode {g : Graph} {i : NodeIndex} {e : Edge} :
    e ∈ (g.removeNode i).edgeList ↔ e ∈ g.edgeList ∧ e.parent ≠ i ∧ e.child ≠ i := by
  simp [removeNode]

theorem addEdge_eq_some_iff {g g' : Graph} {p c : NodeIndex} {r : Relationship} :
    g.addEdge p c r = some g' ↔
      (g.nodeWeight p).isSome ∧ (g.nodeWeight c).isSome ∧
      g' = { g with edgeList := ⟨p, c, r⟩ :: g.edgeList } := by
  unfold addEdge
  split
  · rename_i both
    simp [both, eq_comm]
  · rename_i missing
    simp only [reduceCtorEq, false_iff]
    exact fun h => missing ⟨h.1, h.2.1⟩

theorem canSchedule_eq_some_iff {g g' : Graph} {i : NodeIndex} {epoch d : Nat} :
    g.canSchedule i epoch = some (d, g') ↔ ∃ ctx, g.nodeWeight i = some ctx ∧ ctx.schedEpoch ≠ epoch ∧
      d = ctx.depth ∧ g' = g.setWeight i { ctx with schedEpoch := epoch } := by
  unfold canSchedule
  split
  · rename_i ctx there
    split
    · rename_i same
      simp [there, same]
    · rename_i differ
      simp only [Option.some.injEq, Prod.mk.injEq, there, exists_eq_left']
      exact ⟨fun h => ⟨differ, h.1.symm, h.2.symm⟩, fun h => ⟨h.2.1.symm, h.2.2.symm⟩⟩
  · rename_i missing
    simp [missing]

theorem canSchedule_eq_none_iff {g : Graph} {i : NodeIndex} {epoch : Nat} :
    g.canSchedule i epoch = none ↔ ∀ ctx, g.nodeWeight i = some ctx → ctx.schedEpoch = epoch := by
  unfold canSchedule
  split
  · rename_i ctx there
    split <;> simp [*]
  · rename_i missing
    simp [missing]

theorem mem_edges_iff {g : Graph} {p c : NodeIndex} : c ∈ g.edges p ↔ g.Adj p c := by
  simp only [edges, Adj, List.mem_map, List.mem_filter, decide_eq_true_eq]
  constructor
  · rintro ⟨e, ⟨member, rfl⟩, rfl⟩
    exact ⟨e.relationship, member⟩
  · rintro ⟨r, member⟩
    exact ⟨_, ⟨member, rfl⟩, rfl⟩

theorem mem_triggeringEdges_iff {g : Graph} {p c : NodeIndex} :
    c ∈ g.triggeringEdges p ↔ ⟨p, c, .trigger⟩ ∈ g.edgeList := by
  simp only [triggeringEdges, List.mem_map, List.mem_filter, decide_eq_true_eq]
  constructor
  · rintro ⟨e, ⟨member, rfl, same⟩, rfl⟩
    rwa [← same]
  · intro member
    exact ⟨_, ⟨member, rfl, rfl⟩, rfl⟩

theorem adj_of_mem_triggeringEdges {g : Graph} {p c : NodeIndex} (h : c ∈ g.triggeringEdges p) : g.Adj p c :=
  ⟨_, mem_triggeringEdges_iff.mp h⟩

/-- Removing a node that is there lowers the node count. -/
theorem nodeCount_removeNode {g : Graph} {i : NodeIndex} {w : NodeContext} (there : g.nodeWeight i = some w) :
    (g.removeNode i).nodeCount < g.nodeCount := by
  have bound := lt_length_of_nodeWeight there
  have slot : g.slots[i] = some w := by
    simpa [nodeWeight, bound] using there
  have counted := List.countP_set (p := fun o : Option NodeContext => o.isSome) (a := none) bound
  have positive : 0 < g.slots.countP (·.isSome) :=
    List.countP_pos_iff.mpr ⟨g.slots[i], List.getElem_mem bound, by simp [slot]⟩
  simp only [slot, Option.isSome_some, Option.isSome_none, if_true] at counted
  simp only [nodeCount, removeNode]
  simp at counted
  omega

end Graph

end Wavelet
