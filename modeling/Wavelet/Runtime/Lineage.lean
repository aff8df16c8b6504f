import Wavelet.Runtime.Declared

/-!
# The parents of one node

What a builder was told of the parents of its node stays true of the graph, whatever parents
the other builders are given: the parents are older and lie above the node, and as long as
one that it was told to be triggered by is in the graph, the edge is there. If all of them
were in the graph when the node was built, no other node has an edge to it.
-/

namespace Wavelet
namespace Executor

open Relation

variable {W : Type}

/-- Node `c` was built with the parents `rels`. -/
structure Lineage (rels : List (Key × Relationship)) (c : Key) (ex : Executor W) : Prop where
  built : c < ex.inners.length
  older : ∀ kr ∈ rels, kr.1 < c
  above : ∀ kr ∈ rels, (ex.inner kr.1).depth < (ex.inner c).depth
  triggers : ∀ i j p, ex.keyAt i = some p → ex.keyAt j = some c → (p, .trigger) ∈ rels →
    ⟨i, j, .trigger⟩ ∈ ex.graph.edgeList

/-- Only the parents `rels` have edges to node `c`. -/
def Only (rels : List (Key × Relationship)) (c : Key) (ex : Executor W) : Prop :=
  ∀ i j, ex.keyAt j = some c → ex.graph.Adj i j → ∃ p r, ex.keyAt i = some p ∧ (p, r) ∈ rels

/-- As `Only`, and each edge stands for a relationship that was declared. -/
def Told (rels : List (Key × Relationship)) (c : Key) (ex : Executor W) : Prop :=
  ∀ i j r, ex.keyAt j = some c → ⟨i, j, r⟩ ∈ ex.graph.edgeList → ∃ p, ex.keyAt i = some p ∧ (p, r) ∈ rels

variable {rels : List (Key × Relationship)} {c : Key} {ex ex' : Executor W}

/-! ## Building the node -/

section Start

variable {args : BuildArgs} {depth : Nat} {graph : Graph}

theorem told_of_declared (ex : Executor W) {kr : Key × Relationship} (declared : kr ∈ args.relationships) :
    ∃ r, (ex.place kr.1, r) ∈ ex.parents args ∧ (kr.2 = .trigger → r = .trigger) := by
  have told : (ex.place kr.1, kr.2) ∈ ex.calls args := List.mem_map.mpr ⟨kr, declared, rfl⟩
  cases strong : strongest (ex.calls args) (ex.place kr.1) with
  | none => exact absurd told (strongest_eq_none_iff.mp strong _)
  | some r =>
    refine ⟨r, ((ex.parents_stand args).entries _ _).mpr strong, fun trigger => ?_⟩
    rw [trigger] at told
    exact (strongest_eq_some_iff.mp strong).2 told

theorem Lineage.start (inPlace : ex.InPlace) (known : ∀ kr ∈ args.relationships, kr.1 < ex.inners.length)
    (deep : childDepth (ex.parents args) = some depth)
    (edges : addEdges args.index (ex.graph.addNode args.index
      (.new ⟨ex.inners.length, args.spawned, args.allowPanic⟩ depth))
      (args.order.order (ex.parents args)) = some graph) :
    Lineage args.relationships ex.inners.length (ex.insertNode args depth graph) := by
  have slots := keyAt_insertNode edges
  constructor
  case built =>
    show _ < (_ ++ [_]).length
    simp
  case older => exact known
  case above =>
    intro kr declared
    obtain ⟨r, given, -⟩ := told_of_declared ex declared
    rw [inner_insertNode, inner_insertNode, if_neg (Nat.ne_of_lt (known kr declared)), if_pos rfl]
    exact lt_of_childDepth deep given
  case triggers =>
    intro i j p parent child declared
    show _ ∈ graph.edgeList
    rw [slots] at parent child
    have here : j = args.index := by
      split at child
      · assumption
      · exact absurd (inPlace.of_keyAt child).1 (Nat.lt_irrefl _)
    split at parent
    · cases parent
      exact absurd (known _ declared) (Nat.lt_irrefl _)
    · obtain ⟨r, given, trigger⟩ := told_of_declared ex declared
      rw [trigger rfl] at given
      rw [here, (addEdges_some edges).2]
      refine .inr ⟨i, (ex.inner p).depth, .trigger, (args.order.perm _).mem_iff.mpr ?_, rfl⟩
      rwa [← (inPlace.of_keyAt parent).2]

theorem Told.start (inPlace : ex.InPlace) (linked : ex.graph.Linked)
    (vacant : ex.graph.nodeWeight args.index = none)
    (present : ∀ kr ∈ args.relationships, ex.Present kr.1)
    (edges : addEdges args.index (ex.graph.addNode args.index
      (.new ⟨ex.inners.length, args.spawned, args.allowPanic⟩ depth))
      (args.order.order (ex.parents args)) = some graph) :
    Told args.relationships ex.inners.length (ex.insertNode args depth graph) := by
  have empty : ex.keyAt args.index = none := by rw [keyAt, vacant]; rfl
  intro i j r child member
  replace member : ⟨i, j, r⟩ ∈ graph.edgeList := member
  have here : j = args.index := by
    rw [keyAt_insertNode edges] at child
    split at child
    · assumption
    · exact absurd (inPlace.of_keyAt child).1 (Nat.lt_irrefl _)
  have ends : graph.Linked := addEdges_linked (linked.addNode args.index _) edges
  have known : (ex.insertNode args depth graph).graph.Linked := ends
  obtain ⟨⟨p, parent⟩, -⟩ := ends_of_linked known member
  rw [here] at member
  exact ⟨p, parent,
    (strongest_eq_some_iff.mp ((edges_to_child inPlace linked empty present edges parent r).mp member)).1⟩

theorem Told.only (told : Told rels c ex) : Only rels c ex := by
  rintro i j child ⟨r, member⟩
  obtain ⟨p, parent, declared⟩ := told i j r child member
  exact ⟨p, r, parent, declared⟩

theorem Only.start (inPlace : ex.InPlace) (linked : ex.graph.Linked)
    (vacant : ex.graph.nodeWeight args.index = none)
    (present : ∀ kr ∈ args.relationships, ex.Present kr.1)
    (edges : addEdges args.index (ex.graph.addNode args.index
      (.new ⟨ex.inners.length, args.spawned, args.allowPanic⟩ depth))
      (args.order.order (ex.parents args)) = some graph) :
    Only args.relationships ex.inners.length (ex.insertNode args depth graph) :=
  (Told.start inPlace linked vacant present edges).only

end Start

/-! ## Keeping it -/

theorem Micro.lineage (step : Micro ex ex') (lineage : Lineage rels c ex) : Lineage rels c ex' := by
  obtain ⟨built, older, above, triggers⟩ := lineage
  rcases step.nodes with nodes | ⟨args, depth, graph, vacant, deep, edges, rfl⟩
  · rcases step.slots with ⟨graph, -, -, depth⟩ | ⟨removed, rest, k, -, -, -, rfl⟩ |
      ⟨args, depth, graph, rfl, -, -⟩
    · constructor
      case built => rwa [nodes]
      case older => exact older
      case above =>
        intro kr declared
        rw [depth, depth]
        exact above kr declared
      case triggers =>
        intro i j p parent child declared
        rw [keyAt_of_same graph] at parent child
        rw [graph.edges]
        exact triggers i j p parent child declared
    · refine ⟨built, older, above, fun i j p parent child declared => ?_⟩
      obtain ⟨apart, parent⟩ := keyAt_of_removeNode parent
      obtain ⟨other, child⟩ := keyAt_of_removeNode child
      exact Graph.mem_edgeList_removeNode.mpr ⟨triggers i j p parent child declared, apart, other⟩
    · replace nodes : (ex.inners ++ [(⟨args.index, depth, 0⟩ : NodeInner)]).length = ex.inners.length := nodes
      simp at nodes
  · have slots := keyAt_insertNode edges
    constructor
    case built => exact Nat.lt_of_lt_of_le built (by show _ ≤ (_ ++ [_]).length; simp)
    case older => exact older
    case above =>
      intro kr declared
      have less := older kr declared
      rw [inner_insertNode, inner_insertNode, if_neg (Nat.ne_of_lt (Nat.lt_trans less built)),
        if_neg (Nat.ne_of_lt built)]
      exact above kr declared
    case triggers =>
      intro i j p parent child declared
      rw [slots] at parent child
      split at child
      · cases child
        exact absurd built (Nat.lt_irrefl _)
      · rename_i other
        split at parent
        · cases parent
          -- a new node is no one's parent
          exact absurd built (Nat.lt_asymm (older _ declared))
        · exact (edges_to_others edges rfl other _).mpr (triggers i j p parent child declared)

theorem Path.lineage (path : Path ex ex') (lineage : Lineage rels c ex) : Lineage rels c ex' :=
  Steps.run_inv (p := Lineage rels c) (fun _ _ step => step.lineage) path lineage

/-- An edge to a node that was there before a step was there before it too. -/
theorem Micro.edge_back (step : Micro ex ex') (built : c < ex.inners.length) {i j : NodeIndex}
    {r : Relationship} (child : ex'.keyAt j = some c) (member : ⟨i, j, r⟩ ∈ ex'.graph.edgeList) :
    ex.keyAt j = some c ∧ ⟨i, j, r⟩ ∈ ex.graph.edgeList ∧ ∀ p, ex.keyAt i = some p →
      ex'.keyAt i = some p := by
  rcases step.nodes with nodes | ⟨args, depth, graph, vacant, deep, edges, rfl⟩
  · rcases step.slots with ⟨graph, -, -, -⟩ | ⟨removed, rest, k, -, -, -, rfl⟩ |
      ⟨args, depth, graph, rfl, -, -⟩
    · rw [keyAt_of_same graph] at child ⊢
      rw [graph.edges] at member
      exact ⟨child, member, fun p parent => parent⟩
    · obtain ⟨other, child⟩ := keyAt_of_removeNode child
      obtain ⟨member, apart, -⟩ := Graph.mem_edgeList_removeNode.mp member
      refine ⟨child, member, fun p parent => ?_⟩
      refine (keyAt_removeNode ex removed.index i).trans ?_
      rw [if_neg apart, parent]
    · replace nodes : (ex.inners ++ [(⟨args.index, depth, 0⟩ : NodeInner)]).length = ex.inners.length := nodes
      simp at nodes
  · have slots := keyAt_insertNode edges
    rw [slots] at child
    split at child
    · cases child
      exact absurd built (Nat.lt_irrefl _)
    · rename_i other
      refine ⟨child, (edges_to_others edges rfl other r).mp member, fun p parent => ?_⟩
      rw [slots, if_neg, parent]
      rintro rfl
      rw [keyAt, vacant] at parent
      cases parent

theorem Micro.only (step : Micro ex ex') (built : c < ex.inners.length) (only : Only rels c ex) :
    Only rels c ex' := by
  rintro i j child ⟨r, member⟩
  obtain ⟨child, member, stays⟩ := step.edge_back built child member
  obtain ⟨p, r, parent, declared⟩ := only i j child ⟨r, member⟩
  exact ⟨p, r, stays p parent, declared⟩

theorem Path.only (path : Path ex ex') (built : c < ex.inners.length) (only : Only rels c ex) :
    Only rels c ex' := by
  induction path with
  | refl => exact only
  | tail before step ih => exact step.only (Path.seated before built).built ih

theorem Micro.told (step : Micro ex ex') (built : c < ex.inners.length) (told : Told rels c ex) :
    Told rels c ex' := by
  intro i j r child member
  obtain ⟨child, member, stays⟩ := step.edge_back built child member
  obtain ⟨p, parent, declared⟩ := told i j r child member
  exact ⟨p, stays p parent, declared⟩

theorem Path.told (path : Path ex ex') (built : c < ex.inners.length) (told : Told rels c ex) :
    Told rels c ex' := by
  induction path with
  | refl => exact told
  | tail before step ih => exact step.told (Path.seated before built).built ih

/-! ## Its place -/

/-- A node that is built keeps its depth. -/
theorem Path.depth {k : Key} (path : Path ex ex') (built : k < ex.inners.length) :
    (ex'.inner k).depth = (ex.inner k).depth := by
  induction path with
  | refl => rfl
  | tail before step ih =>
    rcases step.slots with ⟨-, -, -, depths⟩ | ⟨removed, rest, j, -, -, -, rfl⟩ |
      ⟨args, depth, graph, rfl, -, -⟩
    · exact (depths k).trans ih
    · exact ih
    · rw [inner_insertNode, if_neg (Nat.ne_of_lt (Path.seated before built).built)]
      exact ih

/-- A node that has died does not come back. -/
theorem Path.alive {k : Key} (path : Path ex ex') (built : k < ex.inners.length)
    (alive : ex'.Alive k) : ex.Alive k := by
  induction path with
  | refl => exact alive
  | @tail state last before step ih =>
    have offers : ∀ {s s' : Executor W} {i : NodeIndex} {o : Offer}, s.offer i = some (o, s') →
        s'.Alive k → s.Alive k := by
      intro s s' i o offered alive
      rwa [Alive, handles_offer offered] at alive
    apply ih
    cases step with
    | code step => exact alive_of_code (.single step) alive
    | fire source driver r known sub takes fired =>
      obtain ⟨o, mid, offered, -, rfl⟩ := fire_ok fired
      have old : ({ state with eventDriver := driver } : Executor W).Alive k := offers offered alive
      exact old
    | poison i poisoned =>
      obtain ⟨ctx, -, rfl⟩ := markPoisoned_ok poisoned
      exact alive
    | spread child spreads =>
      obtain ⟨o, mid, offered, rfl⟩ := spread_ok spreads
      exact offers offered alive
    | build args depth graph vacant deep edges =>
      rcases List.mem_cons.mp alive with new | old
      · exact absurd new (Nat.ne_of_lt (Path.seated before built).built)
      · exact old
    | _ => exact alive

/-- Node `k` was made by `build` at the depth `depth`, for which there is a queue. -/
structure Housed (depth : Nat) (k : Key) (ex : Executor W) : Prop where
  built : k < ex.inners.length
  deep : (ex.inner k).depth = depth
  queue : depth < ex.scheduler.multiQueue.length
  shared : ∀ i fn d, ex.graph.core i = some (fn, d) → fn.state = k → fn.spawned = false

theorem Micro.queues_le (step : Micro ex ex') :
    ex.scheduler.multiQueue.length ≤ ex'.scheduler.multiQueue.length := by
  have offers : ∀ {s s' : Executor W} {i : NodeIndex} {o : Offer}, s.offer i = some (o, s') →
      s'.scheduler.multiQueue.length = s.scheduler.multiQueue.length := by
    intro s s' i o offered
    rcases offer_cases offered with ⟨-, rfl, -⟩ | ⟨_, -, -, -, rfl⟩ | ⟨_, -, -, -, -, rfl⟩ |
      ⟨_, -, -, -, -, -, rfl⟩
    · rfl
    · rfl
    · rfl
    · exact Scheduler.enqueue_length ..
  cases step with
  | code step => exact Nat.le_of_eq step.queues.symm
  | fire source driver r known sub takes fired =>
    obtain ⟨o, mid, offered, -, rfl⟩ := fire_ok fired
    exact Nat.le_of_eq (offers offered).symm
  | pop o s popped => exact Nat.le_of_eq (Scheduler.pop_length popped).symm
  | poison i poisoned =>
    obtain ⟨ctx, -, rfl⟩ := markPoisoned_ok poisoned
    exact Nat.le_refl _
  | spread child spreads =>
    obtain ⟨o, mid, offered, rfl⟩ := spread_ok spreads
    exact Nat.le_of_eq (offers offered).symm
  | build args depth graph vacant deep edges =>
    show _ ≤ (ex.scheduler.enableDepth depth).multiQueue.length
    rw [Scheduler.enableDepth_length]
    omega
  | _ => exact Nat.le_refl _

theorem Housed.start {args : BuildArgs} {depth : Nat} {graph : Graph} (inPlace : ex.InPlace)
    (shared : args.spawned = false)
    (edges : addEdges args.index (ex.graph.addNode args.index
      (.new ⟨ex.inners.length, args.spawned, args.allowPanic⟩ depth))
      (args.order.order (ex.parents args)) = some graph) :
    Housed depth ex.inners.length (ex.insertNode args depth graph) := by
  constructor
  case built =>
    show _ < (_ ++ [_]).length
    simp
  case deep => rw [inner_insertNode, if_pos rfl]
  case queue =>
    show _ < (ex.scheduler.enableDepth depth).multiQueue.length
    rw [Scheduler.enableDepth_length]
    omega
  case shared =>
    intro i fn d there own
    replace there : graph.core i = some (fn, d) := there
    rw [core_build edges] at there
    split at there
    · cases there
      exact shared
    · exact absurd own (Nat.ne_of_lt (inPlace i fn d there).1)

theorem Micro.housed {depth : Nat} {k : Key} (step : Micro ex ex') (housed : Housed depth k ex) :
    Housed depth k ex' := by
  obtain ⟨built, deep, queue, shared⟩ := housed
  have queue' := Nat.lt_of_lt_of_le queue step.queues_le
  rcases step.nodes with nodes | ⟨args, depth', graph, vacant, -, edges, rfl⟩
  · rcases step.slots with ⟨graph, -, -, depths⟩ | ⟨removed, rest, j, -, -, -, rfl⟩ |
      ⟨args, depth, graph, rfl, -, -⟩
    · refine ⟨by rwa [nodes], by rwa [depths], queue', fun i fn d there own => ?_⟩
      rw [graph.core] at there
      exact shared i fn d there own
    · refine ⟨built, deep, queue', fun i fn d there own => ?_⟩
      replace there : (ex.graph.removeNode removed.index).core i = some (fn, d) := there
      rw [Graph.core_removeNode] at there
      split at there
      · cases there
      · exact shared i fn d there own
    · replace nodes : (ex.inners ++ [(⟨args.index, depth, 0⟩ : NodeInner)]).length = ex.inners.length := nodes
      simp at nodes
  · constructor
    case built => exact Nat.lt_of_lt_of_le built (by show _ ≤ (_ ++ [_]).length; simp)
    case deep => rwa [inner_insertNode, if_neg (Nat.ne_of_lt built)]
    case queue => exact queue'
    case shared =>
      intro i fn d there own
      replace there : graph.core i = some (fn, d) := there
      rw [core_build edges] at there
      split at there
      · cases there
        exact absurd own (Nat.ne_of_gt built)
      · exact shared i fn d there own

theorem Path.housed {depth : Nat} {k : Key} (path : Path ex ex') (housed : Housed depth k ex) :
    Housed depth k ex' :=
  Steps.run_inv (p := Housed depth k) (fun _ _ step => step.housed) path housed

/-! ## Queues for every depth -/

/-- There is a queue for every node. -/
def Enabled (ex : Executor W) : Prop :=
  ∀ i fn d, ex.graph.core i = some (fn, d) → d < ex.scheduler.multiQueue.length

theorem Enabled.congr {ex ex' : Executor W} (enabled : ex.Enabled) (same : ex.graph.Same ex'.graph)
    (queues : ex.scheduler.multiQueue.length ≤ ex'.scheduler.multiQueue.length) : ex'.Enabled := by
  intro i fn d there
  rw [same.core] at there
  exact Nat.lt_of_lt_of_le (enabled i fn d there) queues

theorem Micro.enabled {ex ex' : Executor W} (step : Micro ex ex') (enabled : ex.Enabled) : ex'.Enabled := by
  have queues := step.queues_le
  rcases step.nodes with nodes | ⟨args, depth, graph, -, -, edges, rfl⟩
  · rcases step.slots with ⟨same, -⟩ | ⟨r, rest, k, -, -, -, rfl⟩ | ⟨args, depth, graph, rfl, -⟩
    · exact enabled.congr same queues
    · intro i fn d there
      replace there : (ex.graph.removeNode r.index).core i = some (fn, d) := there
      rw [Graph.core_removeNode] at there
      split at there
      · cases there
      · exact enabled i fn d there
    · replace nodes : (ex.inners ++ [_]).length = ex.inners.length := nodes
      simp at nodes
  · intro i fn d there
    replace there : graph.core i = some (fn, d) := there
    rw [core_build edges] at there
    split at there
    · cases there
      show _ < (ex.scheduler.enableDepth depth).multiQueue.length
      rw [Scheduler.enableDepth_length]
      omega
    · exact Nat.lt_of_lt_of_le (enabled i fn d there) queues

theorem Path.enabled {ex ex' : Executor W} (path : Path ex ex') (enabled : ex.Enabled) : ex'.Enabled :=
  Steps.run_inv (p := Enabled) (fun _ _ step => step.enabled) path enabled

theorem Enabled.offer {ex : Executor W} (enabled : ex.Enabled) (i : NodeIndex) : ex.offer i ≠ none := by
  intro past
  unfold Executor.offer at past
  split at past
  · cases past
  · rename_i depth graph schedulable
    obtain ⟨ctx, there, -, rfl, -⟩ := Graph.canSchedule_eq_some_iff.mp schedulable
    have bound := enabled i _ _ (Graph.core_of_nodeWeight there)
    split at past
    · cases past
    · cases past
    · rename_i beyond
      obtain ⟨-, short⟩ := Scheduler.schedule_eq_outOfBounds_iff.mp beyond
      omega

end Executor
end Wavelet
