import Wavelet.Runtime.Reachable

/-!
# Indices and the nodes they were taken from

The removal queue and the event sources hold bare indices, which outlive their node, and
the graph gives a free index to the next node. `Own` says that the slot a reference points
to holds the reference's own node, if any. A slot changes hands only when its node is
removed or a new one is built there, so a reference stays its node's own until a node is
built at its index.
-/

namespace Wavelet
namespace Executor

variable {W : Type}

theorem keyAt_eq_core (ex : Executor W) (i : NodeIndex) : ex.keyAt i = (ex.graph.core i).map (·.1.state) := by
  simp only [keyAt, Graph.core, Option.map_map]
  rfl

theorem keyAt_of_same {ex ex' : Executor W} (same : ex.graph.Same ex'.graph) (i : NodeIndex) :
    ex'.keyAt i = ex.keyAt i := by
  rw [keyAt_eq_core, keyAt_eq_core, same.core]

theorem keyAt_removeNode (ex : Executor W) (i j : NodeIndex) :
    ((ex.graph.removeNode i).nodeWeight j).map (·.cycleFn.state) = if j = i then none else ex.keyAt j := by
  rw [Graph.nodeWeight_removeNode]
  split <;> rfl

/-- What a removal leaves in the graph was there before, in another slot. -/
theorem keyAt_of_removeNode {ex : Executor W} {i j : NodeIndex} {k : Key}
    (here : ((ex.graph.removeNode i).nodeWeight j).map (·.cycleFn.state) = some k) :
    j ≠ i ∧ ex.keyAt j = some k := by
  rw [keyAt_removeNode] at here
  split at here
  · cases here
  · rename_i other
    exact ⟨other, here⟩

theorem keyAt_insertNode {ex : Executor W} {args : BuildArgs} {depth : Nat} {graph : Graph}
    {ps : List ParentEntry}
    (edges : addEdges args.index (ex.graph.addNode args.index
      (.new ⟨ex.inners.length, args.spawned, args.allowPanic⟩ depth))
      ps = some graph) (j : NodeIndex) :
    (ex.insertNode args depth graph).keyAt j =
      if j = args.index then some ex.inners.length else ex.keyAt j := by
  rw [keyAt_eq_core, keyAt_eq_core]
  show (graph.core j).map _ = _
  rw [core_build edges]
  split <;> rfl

/-- What one step does to the slots. -/
theorem Micro.slots {ex ex' : Executor W} (step : Micro ex ex') :
    (ex.graph.Same ex'.graph ∧ ex'.inners.length = ex.inners.length ∧
      (∀ k, (ex'.inner k).index = (ex.inner k).index) ∧
      ∀ k, (ex'.inner k).depth = (ex.inner k).depth) ∨
    (∃ r rest k, ex.gc = r :: rest ∧ ex.keyAt r.index = some k ∧ ex.scheduler.AtRest ∧
      ex' = log { ex with gc := rest, graph := ex.graph.removeNode r.index } (.removed k)) ∨
    (∃ args depth graph, ex' = ex.insertNode args depth graph ∧ ex.keyAt args.index = none ∧
      ∀ j, ex'.keyAt j = if j = args.index then some ex.inners.length else ex.keyAt j) := by
  cases step with
  | code step =>
    have frame := step.frame
    exact .inl ⟨by rw [frame.graph]; exact .refl _, frame.nodes, frame.index, frame.depth⟩
  | fire source driver r known sub takes fired =>
    obtain ⟨o, mid, offered, -, rfl⟩ := fire_ok fired
    have graph := offer_same offered
    have same := inners_offer offered
    have inner : ∀ k, mid.inner k = ex.inner k := fun k => congrArg (fun l => l.getD k .uninitialized) same
    exact .inl ⟨graph, congrArg List.length same, fun k => congrArg (·.index) (inner k),
      fun k => congrArg (·.depth) (inner k)⟩
  | poison i poisoned =>
    obtain ⟨ctx, there, rfl⟩ := markPoisoned_ok poisoned
    exact .inl ⟨Graph.setWeight_same there _ rfl rfl, rfl, fun _ => rfl, fun _ => rfl⟩
  | spread child spreads =>
    obtain ⟨o, mid, offered, rfl⟩ := spread_ok spreads
    have graph := offer_same offered
    have same := inners_offer offered
    have inner : ∀ k, mid.inner k = ex.inner k := fun k => congrArg (fun l => l.getD k .uninitialized) same
    exact .inl ⟨graph, congrArg List.length same, fun k => congrArg (·.index) (inner k),
      fun k => congrArg (·.depth) (inner k)⟩
  | remove r rest k front there rests => exact .inr (.inl ⟨r, rest, k, front, there, rests, rfl⟩)
  | build args depth graph vacant deep edges =>
    exact .inr (.inr ⟨args, depth, graph, rfl, by rw [keyAt, vacant]; rfl, keyAt_insertNode edges⟩)
  | _ => exact .inl ⟨.refl _, rfl, fun _ => rfl, fun _ => rfl⟩

/-- A node that is built keeps its index, and is in no slot that it was not in before. -/
structure Seated (k : Key) (ex ex' : Executor W) : Prop where
  built : k < ex'.inners.length
  index : (ex'.inner k).index = (ex.inner k).index
  stays : ∀ i, ex'.keyAt i = some k → ex.keyAt i = some k

theorem Path.seated {k : Key} {ex ex' : Executor W} (path : Path ex ex')
    (built : k < ex.inners.length) : Seated k ex ex' := by
  refine Steps.run_inv (p := Seated k ex) (fun s s' step seated => ?_) path ⟨built, rfl, fun _ here => here⟩
  rcases step.slots with ⟨same, nodes, index, -⟩ | ⟨r, rest, j, -, there, -, rfl⟩ |
    ⟨args, depth, graph, rfl, vacant, slots⟩
  · constructor
    case built => rw [nodes]; exact seated.built
    case index => rw [index]; exact seated.index
    case stays =>
      intro i here
      rw [keyAt_of_same same] at here
      exact seated.stays i here
  · exact ⟨seated.built, seated.index, fun i here => seated.stays i (keyAt_of_removeNode here).2⟩
  · have old := Nat.ne_of_lt seated.built
    constructor
    case built =>
      show k < (s.inners ++ [_]).length
      rw [List.length_append]
      exact Nat.lt_of_lt_of_le seated.built (Nat.le_add_right _ _)
    case index =>
      rw [inner_insertNode, if_neg old]
      exact seated.index
    case stays =>
      intro i here
      rw [slots] at here
      split at here
      · exact absurd (Option.some.inj here).symm old
      · exact seated.stays i here

/-- A node that is in the graph has been there since it was built. -/
theorem Path.present {c : Key} {ex ex' : Executor W} (path : Path ex ex')
    (built : c < ex.inners.length) (present : ex'.Present c) :
    ex.Present c := by
  have seated := Path.seated path built
  have here := seated.stays _ present
  rwa [seated.index] at here

/-- The slots hold nodes that were built. -/
theorem Path.occupants {ex ex' : Executor W} (path : Path ex ex')
    (start : ∀ i k, ex.keyAt i = some k → k < ex.inners.length) :
    ∀ i k, ex'.keyAt i = some k → k < ex'.inners.length := by
  refine Steps.run_inv (p := fun s : Executor W => ∀ i k, s.keyAt i = some k → k < s.inners.length)
    (fun s s' step built i k here => ?_) path start
  rcases step.slots with ⟨same, nodes, -⟩ | ⟨r, rest, j, -, there, -, rfl⟩ |
    ⟨args, depth, graph, rfl, vacant, slots⟩
  · rw [keyAt_of_same same] at here
    rw [nodes]
    exact built i k here
  · exact built i k (keyAt_of_removeNode here).2
  · have nodes : (s.insertNode args depth graph).inners.length = s.inners.length + 1 := List.length_append ..
    rw [slots] at here
    rw [nodes]
    split at here
    · cases here
      exact Nat.lt_succ_self _
    · exact Nat.lt_succ_of_lt (built i k here)

/-- The slot that `r` points to holds `r`'s own node, or nothing. -/
def Own (ex : Executor W) (r : Ref) : Prop := ∀ m, ex.keyAt r.index = some m → r.node = some m

/-- A fresh reference to a node in the graph, or to what is in a slot. -/
theorem own_of_occupant {ex : Executor W} {r : Ref}
    (fresh : ex.keyAt r.index = none ∨ ex.keyAt r.index = r.node) :
    ex.Own r := by
  intro m here
  rcases fresh with vacant | same
  · rw [vacant] at here
    cases here
  · rw [← same, here]

/-! ## Nodes that are gone -/

/-- Every node ever built is in the graph, or the trace has its removal. -/
def Accounted (ex : Executor W) : Prop := ∀ k, k < ex.inners.length → ex.Present k ∨ .removed k ∈ ex.trace

/-- A node stays in the graph until an entry of the list of marked nodes takes it out. -/
theorem Micro.present {k : Key} {ex ex' : Executor W} (step : Micro ex ex')
    (built : k < ex.inners.length) (present : ex.Present k) :
    ex'.Present k ∨ (∃ r ∈ ex.gc, r.index = (ex.inner k).index) ∧ .removed k ∈ ex'.trace := by
  have there : ex.keyAt (ex.inner k).index = some k := present
  rcases step.slots with ⟨same, -, index, -⟩ | ⟨r, rest, j, front, occupant, -, rfl⟩ |
    ⟨args, depth, graph, rfl, vacant, slots⟩
  · left
    rw [Present, index, keyAt_of_same same]
    exact there
  · by_cases here : (ex.inner k).index = r.index
    · right
      rw [here, occupant] at there
      cases there
      exact ⟨⟨r, by rw [front]; exact List.mem_cons_self, here.symm⟩, List.mem_cons_self⟩
    · left
      refine (keyAt_removeNode ex r.index (ex.inner k).index).trans ?_
      rw [if_neg here]
      exact there
  · left
    rw [Present, inner_insertNode, if_neg (Nat.ne_of_lt built), slots, if_neg, there]
    intro same
    rw [same, vacant] at there
    cases there

theorem Micro.accounted {ex ex' : Executor W} (step : Micro ex ex') (accounted : ex.Accounted) :
    ex'.Accounted := by
  intro k built
  by_cases old : k < ex.inners.length
  · rcases accounted k old with present | removed
    · exact (step.present old present).imp id And.right
    · exact .inr (step.trace_suffix.mem removed)
  · rcases step.slots with ⟨-, nodes, -, -⟩ | ⟨r, rest, j, -, -, -, rfl⟩ | ⟨args, depth, graph, rfl, -, slots⟩
    · exact absurd (by rwa [nodes] at built) old
    · exact absurd built old
    · have next : k < (ex.inners ++ [(⟨args.index, depth, 0⟩ : NodeInner)]).length := built
      rw [List.length_append, List.length_singleton] at next
      obtain rfl : k = ex.inners.length := by omega
      left
      rw [Present, inner_insertNode, if_pos rfl, slots, if_pos rfl]

theorem Reachable.accounted {allowed : Exit → Prop} {ex : Executor W}
    (reached : Reachable allowed ex) : ex.Accounted := by
  obtain ⟨cfg, mode, world, path⟩ := reached.path
  exact Steps.run_inv (p := Accounted) (fun _ _ step => step.accounted) path (fun _ built => by cases built)

end Executor
end Wavelet
