import Wavelet.Runtime.Micro

/-!
# The structure of the graph along a run

Builders that are given nodes of the graph as parents keep the graph sound: every node sits
at the place its handle names, every edge goes down, and the scheduler has a queue for the
depth of every node. If moreover `schedule_node` is only called on nodes of the graph, then
the queue of a depth holds nodes of that depth.
-/

namespace Wavelet

/-- What scheduling and poisoning leave of a node. -/
def Graph.core (g : Graph) (i : NodeIndex) : Option (CycleFn × Nat) :=
  (g.nodeWeight i).map fun ctx => (ctx.cycleFn, ctx.depth)

structure Graph.Same (g g' : Graph) : Prop where
  core : ∀ i, g'.core i = g.core i
  edges : g'.edgeList = g.edgeList

namespace Graph

theorem core_of_nodeWeight {g : Graph} {i : NodeIndex} {ctx : NodeContext} (h : g.nodeWeight i = some ctx) :
    g.core i = some (ctx.cycleFn, ctx.depth) := by
  rw [core, h]; rfl

theorem nodeWeight_of_core {g : Graph} {i : NodeIndex} {fn : CycleFn} {d : Nat}
    (h : g.core i = some (fn, d)) :
    ∃ ctx, g.nodeWeight i = some ctx ∧ ctx.cycleFn = fn ∧ ctx.depth = d := by
  obtain ⟨ctx, there, same⟩ := Option.map_eq_some_iff.mp h
  exact ⟨ctx, there, by simpa using same⟩

theorem Same.refl (g : Graph) : g.Same g := ⟨fun _ => rfl, rfl⟩

theorem Same.trans {a b c : Graph} (first : a.Same b) (second : b.Same c) : a.Same c :=
  ⟨fun i => (second.core i).trans (first.core i), second.edges.trans first.edges⟩

theorem Same.adj {a b : Graph} (same : a.Same b) {p c : NodeIndex} : b.Adj p c ↔ a.Adj p c := by
  simp only [Adj, same.edges]

theorem setWeight_same {g : Graph} {i : NodeIndex} {ctx : NodeContext} (there : g.nodeWeight i = some ctx)
    (ctx' : NodeContext) (fn : ctx'.cycleFn = ctx.cycleFn) (depth : ctx'.depth = ctx.depth) :
    g.Same (g.setWeight i ctx') := by
  refine ⟨fun j => ?_, rfl⟩
  simp only [core, nodeWeight_setWeight there]
  split
  · rename_i here
    subst here
    simp [there, fn, depth]
  · rfl

theorem core_removeNode (g : Graph) (i j : NodeIndex) :
    (g.removeNode i).core j = if j = i then none else g.core j := by
  simp only [core, nodeWeight_removeNode]
  split <;> rfl

theorem core_addNode (g : Graph) (i : NodeIndex) (ctx : NodeContext) (j : NodeIndex) :
    (g.addNode i ctx).core j = if j = i then some (ctx.cycleFn, ctx.depth) else g.core j := by
  simp only [core, nodeWeight_addNode]
  split <;> rfl

end Graph

/-! ## Builders -/

theorem addEdges_some {child : NodeIndex} {ps : List ParentEntry} {g g' : Graph}
    (h : addEdges child g ps = some g') :
    g'.slots = g.slots ∧
      ∀ e, e ∈ g'.edgeList ↔ e ∈ g.edgeList ∨ ∃ p d r, ((p, d), r) ∈ ps ∧ e = ⟨p, child, r⟩ := by
  induction ps generalizing g with
  | nil => cases h; exact ⟨rfl, fun e => by simp⟩
  | cons entry rest ih =>
    obtain ⟨⟨parent, d⟩, r⟩ := entry
    obtain ⟨mid, first, later⟩ := Option.bind_eq_some_iff.mp h
    obtain ⟨-, -, rfl⟩ := Graph.addEdge_eq_some_iff.mp first
    obtain ⟨slots, edges⟩ := ih later
    refine ⟨slots, fun e => ?_⟩
    rw [edges]
    constructor
    · rintro (member | ⟨p, d', r', member, rfl⟩)
      · rcases List.mem_cons.mp member with rfl | old
        · exact .inr ⟨parent, d, r, List.mem_cons_self, rfl⟩
        · exact .inl old
      · exact .inr ⟨p, d', r', List.mem_cons_of_mem _ member, rfl⟩
    · rintro (old | ⟨p, d', r', member, rfl⟩)
      · exact .inl (List.mem_cons_of_mem _ old)
      · rcases List.mem_cons.mp member with same | old
        · simp only [Prod.mk.injEq] at same
          obtain ⟨⟨rfl, rfl⟩, rfl⟩ := same
          exact .inl List.mem_cons_self
        · exact .inr ⟨p, d', r', old, rfl⟩

namespace Graph

/-- Every edge has nodes at both ends. -/
def Linked (g : Graph) : Prop :=
  ∀ e ∈ g.edgeList, (g.nodeWeight e.parent).isSome ∧ (g.nodeWeight e.child).isSome

theorem isSome_core (g : Graph) (i : NodeIndex) : (g.core i).isSome = (g.nodeWeight i).isSome :=
  Option.isSome_map

theorem Same.linked {g g' : Graph} (same : g.Same g') (linked : g.Linked) : g'.Linked := by
  intro e member
  rw [same.edges] at member
  rw [← isSome_core, ← isSome_core, same.core, same.core, isSome_core, isSome_core]
  exact linked e member

theorem Linked.addNode {g : Graph} (linked : g.Linked) (i : NodeIndex) (w : NodeContext) :
    (g.addNode i w).Linked := by
  intro e member
  obtain ⟨parent, child⟩ := linked e member
  rw [nodeWeight_addNode, nodeWeight_addNode]
  constructor
  · split
    · rfl
    · exact parent
  · split
    · rfl
    · exact child

theorem Linked.removeNode {g : Graph} (linked : g.Linked) (i : NodeIndex) : (g.removeNode i).Linked := by
  intro e member
  obtain ⟨old, parent, child⟩ := mem_edgeList_removeNode.mp member
  rw [nodeWeight_removeNode, nodeWeight_removeNode, if_neg parent, if_neg child]
  exact linked e old

end Graph

theorem addEdges_linked {child : NodeIndex} {ps : List ParentEntry} {g g' : Graph} (linked : g.Linked)
    (h : addEdges child g ps = some g') : g'.Linked := by
  induction ps generalizing g with
  | nil => cases h; exact linked
  | cons entry rest ih =>
    obtain ⟨⟨parent, d⟩, r⟩ := entry
    obtain ⟨mid, first, later⟩ := Option.bind_eq_some_iff.mp h
    obtain ⟨there, here, rfl⟩ := Graph.addEdge_eq_some_iff.mp first
    refine ih (fun e member => ?_) later
    rcases List.mem_cons.mp member with rfl | old
    · exact ⟨there, here⟩
    · exact linked e old

theorem mem_addRelationship {parent : NodeIndex × Nat} {r : Relationship} {ps : List ParentEntry}
    {entry : ParentEntry} (h : entry ∈ addRelationship parent r ps) :
    entry.1 = parent ∨ ∃ old ∈ ps, old.1 = entry.1 := by
  induction ps with
  | nil => exact .inl (by rw [List.mem_singleton.mp h])
  | cons first rest ih =>
    obtain ⟨other, r'⟩ := first
    rw [addRelationship] at h
    split at h
    · rcases List.mem_cons.mp h with rfl | member
      · exact .inr ⟨_, List.mem_cons_self, rfl⟩
      · exact .inr ⟨entry, List.mem_cons_of_mem _ member, rfl⟩
    · rcases List.mem_cons.mp h with rfl | member
      · exact .inr ⟨_, List.mem_cons_self, rfl⟩
      · exact (ih member).imp id fun ⟨old, inside, same⟩ => ⟨old, List.mem_cons_of_mem _ inside, same⟩

theorem childDepth_eq (ps : List ParentEntry) :
    childDepth ps =
      match (ps.map (·.1.2)).max? with
      | none => some 0
      | some d => if d + 1 + 1 < 2 ^ 32 then some (d + 1) else none := by
  unfold childDepth
  cases ps.map (·.1.2) with
  | nil => rfl
  | cons d ds => rw [List.max?_cons']

/-- A child lies right below the deepest parent that the builder was given. -/
theorem childDepth_cases {ps : List ParentEntry} {depth : Nat} (h : childDepth ps = some depth) :
    ps = [] ∧ depth = 0 ∨ (∃ entry ∈ ps, depth = entry.1.2 + 1) ∧ ∀ entry ∈ ps, entry.1.2 < depth := by
  rw [childDepth_eq] at h
  cases deepest : (ps.map (·.1.2)).max? with
  | none =>
    rw [deepest] at h
    cases h
    exact .inl ⟨List.map_eq_nil_iff.mp (List.max?_eq_none_iff.mp deepest), rfl⟩
  | some d =>
    rw [deepest] at h
    simp only at h
    split at h
    · cases h
      obtain ⟨member, bound⟩ := List.max?_eq_some_iff.mp deepest
      obtain ⟨entry, inside, here⟩ := List.mem_map.mp member
      refine .inr ⟨⟨entry, inside, by rw [here]⟩, fun other inside' => ?_⟩
      exact Nat.lt_succ_of_le (bound _ (List.mem_map.mpr ⟨other, inside', rfl⟩))
    · cases h

/-- A child lies below every parent the builder was given. -/
theorem lt_of_childDepth {ps : List ParentEntry} {depth : Nat} (h : childDepth ps = some depth)
    {entry : ParentEntry} (member : entry ∈ ps) : entry.1.2 < depth := by
  rcases childDepth_cases h with ⟨empty, -⟩ | ⟨-, below⟩
  · rw [empty] at member
    cases member
  · exact below entry member

namespace Executor

variable {W : Type}

theorem mem_parents {ex : Executor W} {args : BuildArgs} {entry : ParentEntry} (h : entry ∈ ex.parents args) :
    ∃ kr ∈ args.relationships, entry.1 = ((ex.inner kr.1).index, (ex.inner kr.1).depth) := by
  have fold : ∀ (l : List (Key × Relationship)) (ps : List ParentEntry) (entry : ParentEntry),
      entry ∈ l.foldl (fun ps kr => addRelationship
          ((ex.inner kr.1).index, (ex.inner kr.1).depth) kr.2 ps) ps →
      (∃ kr ∈ l, entry.1 = ((ex.inner kr.1).index, (ex.inner kr.1).depth)) ∨ ∃ old ∈ ps, old.1 = entry.1 := by
    intro l
    induction l with
    | nil => exact fun ps entry member => .inr ⟨entry, member, rfl⟩
    | cons kr rest ih =>
      intro ps entry member
      rcases ih _ entry member with ⟨kr', inside, same⟩ | ⟨old, inside, same⟩
      · exact .inl ⟨kr', List.mem_cons_of_mem _ inside, same⟩
      · rcases mem_addRelationship inside with here | ⟨older, inside', same'⟩
        · exact .inl ⟨kr, List.mem_cons_self, by rw [← same, here]⟩
        · exact .inr ⟨older, inside', by rw [same', same]⟩
  rcases fold _ _ _ h with found | ⟨old, inside, -⟩
  · exact found
  · cases inside

/-! ## Conditions on the trace -/

/-- Every line of the trace satisfies `p`. -/
def All (p : Event → Prop) (ex : Executor W) : Prop := ∀ event ∈ ex.trace, p event

instance (p : Event → Prop) [DecidablePred p] (ex : Executor W) : Decidable (ex.All p) :=
  inferInstanceAs (Decidable (∀ event ∈ ex.trace, p event))

theorem trace_offer {ex ex' : Executor W} {i : NodeIndex} {o : Offer} (h : ex.offer i = some (o, ex')) :
    ex'.trace = ex.trace := by
  rcases offer_cases h with ⟨-, rfl, -⟩ | ⟨_, -, -, -, rfl⟩ | ⟨_, -, -, -, -, rfl⟩ |
    ⟨_, -, -, -, -, -, rfl⟩ <;> rfl

/-- The trace only grows. -/
theorem Micro.trace_suffix {ex ex' : Executor W} (step : Micro ex ex') : ex.trace <:+ ex'.trace := by
  cases step with
  | code step =>
    cases step with
    | handle step =>
      cases step with
      | expire o k => exact ⟨[_, _], rfl⟩
      | request t => exact ⟨[_], rfl⟩
      | register t driver => exact ⟨[_], rfl⟩
      | noted r kept => exact ⟨[_], rfl⟩
      | _ => exact List.suffix_refl _
    | refused k => exact ⟨[_], rfl⟩
    | manual k s => exact ⟨[_], rfl⟩
    | _ => exact List.suffix_refl _
  | fire source driver r known sub takes fired =>
    obtain ⟨o, mid, offered, -, rfl⟩ := fire_ok fired
    exact ⟨[_], congrArg _ (trace_offer offered).symm⟩
  | poison i poisoned =>
    obtain ⟨ctx, -, rfl⟩ := markPoisoned_ok poisoned
    exact ⟨[_], rfl⟩
  | spread child spreads =>
    obtain ⟨o, mid, offered, rfl⟩ := spread_ok spreads
    exact ⟨[_], congrArg _ (trace_offer offered).symm⟩
  | pop o s popped => exact List.suffix_refl _
  | discard r rest front vacant => exact List.suffix_refl _
  | _ => exact ⟨[_], rfl⟩

theorem All.earlier {p : Event → Prop} {ex ex' : Executor W} (step : Micro ex ex')
    (all : ex'.All p) : ex.All p :=
  fun event member => all event (step.trace_suffix.mem member)

theorem Path.all {p : Event → Prop} {ex ex' : Executor W} (path : Path ex ex') (all : ex'.All p) :
    ex.All p := by
  induction path with
  | refl => exact all
  | tail _ step ih => exact ih (all.earlier step)

end Executor

/-- Builders are given nodes of the graph. -/
def Event.ParentsPresent : Event → Prop
  | .built _ _ parentsPresent _ _ => parentsPresent = true
  | _ => True

/-- `schedule_node` is called on nodes of the graph. -/
def Event.ManualPresent : Event → Prop
  | .manual _ present => present = true
  | _ => True

instance : DecidablePred Event.ParentsPresent
  | .built _ _ parentsPresent _ _ => inferInstanceAs (Decidable (parentsPresent = true))
  | .began | .registered .. | .notified .. | .fired .. | .spread .. | .manual .. | .ran _
  | .terminated | .poisoned _ | .dropped _ | .marked .. | .removed _ => .isTrue trivial

instance : DecidablePred Event.ManualPresent
  | .manual _ present => inferInstanceAs (Decidable (present = true))
  | .began | .built .. | .registered .. | .notified .. | .fired .. | .spread .. | .ran _
  | .terminated | .poisoned _ | .dropped _ | .marked .. | .removed _ => .isTrue trivial

namespace Executor

variable {W : Type}

/-! ## A sound graph -/

structure Sound (ex : Executor W) : Prop where
  placed : ∀ i fn d, ex.graph.core i = some (fn, d) →
    fn.state < ex.inners.length ∧ (ex.inner fn.state).index = i ∧ (ex.inner fn.state).depth = d
  ascending : ∀ e ∈ ex.graph.edgeList, ∃ p c, ex.graph.core e.parent = some p ∧
    ex.graph.core e.child = some c ∧ p.2 < c.2
  enabled : ∀ i fn d, ex.graph.core i = some (fn, d) → d < ex.scheduler.multiQueue.length

/-- Soundness is about the nodes' places alone. -/
theorem Sound.congr {ex ex' : Executor W} (sound : ex.Sound) (same : ex.graph.Same ex'.graph)
    (nodes : ex'.inners.length = ex.inners.length) (index : ∀ k, (ex'.inner k).index = (ex.inner k).index)
    (depth : ∀ k, (ex'.inner k).depth = (ex.inner k).depth)
    (queues : ex'.scheduler.multiQueue.length = ex.scheduler.multiQueue.length) : ex'.Sound where
  placed i fn d there := by
    rw [same.core] at there
    rw [nodes, index, depth]
    exact sound.placed i fn d there
  ascending e member := by
    simp only [same.core]
    exact sound.ascending e (by rwa [same.edges] at member)
  enabled i fn d there := by
    rw [same.core] at there
    rw [queues]
    exact sound.enabled i fn d there

theorem Sound.log {ex : Executor W} (sound : ex.Sound) (event : Event) : (ex.log event).Sound :=
  sound.congr (.refl _) rfl (fun _ => rfl) (fun _ => rfl) rfl

theorem offer_same {ex ex' : Executor W} {i : NodeIndex} {o : Offer} (h : ex.offer i = some (o, ex')) :
    ex.graph.Same ex'.graph := by
  rcases offer_cases h with ⟨-, rfl, -⟩ | ⟨_, -, -, -, rfl⟩ | ⟨ctx, there, -, -, -, rfl⟩ |
    ⟨ctx, there, -, -, -, -, rfl⟩
  · exact .refl _
  · exact .refl _
  · exact Graph.setWeight_same there _ rfl rfl
  · exact Graph.setWeight_same there _ rfl rfl

theorem inners_offer {ex ex' : Executor W} {i : NodeIndex} {o : Offer} (h : ex.offer i = some (o, ex')) :
    ex'.inners = ex.inners := by
  rcases offer_cases h with ⟨-, rfl, -⟩ | ⟨_, -, -, -, rfl⟩ | ⟨_, -, -, -, -, rfl⟩ |
    ⟨_, -, -, -, -, -, rfl⟩ <;> rfl

theorem gc_offer {ex ex' : Executor W} {i : NodeIndex} {o : Offer}
    (h : ex.offer i = some (o, ex')) : ex'.gc = ex.gc := by
  rcases offer_cases h with ⟨-, rfl, -⟩ | ⟨_, -, -, -, rfl⟩ | ⟨_, -, -, -, -, rfl⟩ |
    ⟨_, -, -, -, -, -, rfl⟩ <;> rfl

theorem handles_offer {ex ex' : Executor W} {i : NodeIndex} {o : Offer} (h : ex.offer i = some (o, ex')) :
    ex'.handles = ex.handles := by
  rcases offer_cases h with ⟨-, rfl, -⟩ | ⟨_, -, -, -, rfl⟩ | ⟨_, -, -, -, -, rfl⟩ |
    ⟨_, -, -, -, -, -, rfl⟩ <;> rfl

theorem eventDriver_offer {ex ex' : Executor W} {i : NodeIndex} {o : Offer} (h : ex.offer i = some (o, ex')) :
    ex'.eventDriver = ex.eventDriver := by
  rcases offer_cases h with ⟨-, rfl, -⟩ | ⟨_, -, -, -, rfl⟩ | ⟨_, -, -, -, -, rfl⟩ |
    ⟨_, -, -, -, -, -, rfl⟩ <;> rfl

theorem offer_sound {ex ex' : Executor W} {i : NodeIndex} {o : Offer} (h : ex.offer i = some (o, ex'))
    (sound : ex.Sound) : ex'.Sound := by
  have same := offer_same h
  rcases offer_cases h with ⟨-, rfl, -⟩ | ⟨_, -, -, -, rfl⟩ | ⟨ctx, -, -, -, -, rfl⟩ |
    ⟨ctx, -, -, -, -, -, rfl⟩
  · exact sound
  · exact sound
  · exact sound.congr same rfl (fun _ => rfl) (fun _ => rfl) rfl
  · exact sound.congr same rfl (fun _ => rfl) (fun _ => rfl) (Scheduler.enqueue_length ..)

theorem inner_insertNode {ex : Executor W} {args : BuildArgs} {depth : Nat} {graph : Graph} (k : Nat) :
    (ex.insertNode args depth graph).inner k =
      if k = ex.inners.length then ⟨args.index, depth, 0⟩ else ex.inner k := by
  simp only [inner, insertNode, log, List.getD_eq_getElem?_getD, List.getElem?_append]
  split
  · rename_i old
    rw [if_neg (Nat.ne_of_lt old)]
  · rename_i past
    split
    · rename_i here
      subst here
      simp
    · rename_i other
      have beyond : 0 < k - ex.inners.length := by omega
      rw [List.getElem?_eq_none (by simp only [List.length_singleton]; omega),
        List.getElem?_eq_none (by omega)]

/-- The graph after a build. -/
theorem core_build {ex : Executor W} {args : BuildArgs} {depth : Nat} {graph : Graph} {fn : CycleFn}
    {ps : List ParentEntry}
    (edges : addEdges args.index (ex.graph.addNode args.index (.new fn depth)) ps = some graph)
    (j : NodeIndex) : graph.core j = if j = args.index then some (fn, depth) else ex.graph.core j := by
  have slots := (addEdges_some edges).1
  have same : graph.core j = (ex.graph.addNode args.index (.new fn depth)).core j := by
    simp only [Graph.core, Graph.nodeWeight, slots]
  rw [same, Graph.core_addNode]
  rfl

theorem build_sound {ex : Executor W} {args : BuildArgs} {depth : Nat} {graph : Graph} (sound : ex.Sound)
    (vacant : ex.graph.nodeWeight args.index = none) (deep : childDepth (ex.parents args) = some depth)
    (edges : addEdges args.index (ex.graph.addNode args.index
      (.new ⟨ex.inners.length, args.spawned, args.allowPanic⟩ depth))
      (args.order.order (ex.parents args)) = some graph)
    (present : ∀ kr ∈ args.relationships, ex.Present kr.1) : (ex.insertNode args depth graph).Sound := by
  have core := core_build edges
  have noCore : ex.graph.core args.index = none := by rw [Graph.core, vacant]; rfl
  constructor
  · intro i fn d there
    have there : graph.core i = some (fn, d) := there
    rw [core] at there
    rw [inner_insertNode]
    split at there
    · rename_i here
      simp only [Option.some.injEq, Prod.mk.injEq] at there
      obtain ⟨rfl, rfl⟩ := there
      simp [insertNode, log, here]
    · have old := sound.placed i fn d there
      rw [if_neg (Nat.ne_of_lt old.1)]
      exact ⟨Nat.lt_of_lt_of_le old.1 (by simp [insertNode, log]), old.2⟩
  · intro e member
    rcases (addEdges_some edges).2 e |>.mp member with old | ⟨p, d, r, entry, rfl⟩
    · obtain ⟨pc, cc, parent, child, less⟩ := sound.ascending e old
      have moved : ∀ j c, ex.graph.core j = some c → graph.core j = some c := fun j c there => by
        rw [core, if_neg, there]
        rintro rfl
        rw [noCore] at there
        cases there
      exact ⟨pc, cc, moved _ _ parent, moved _ _ child, less⟩
    · have given := (args.order.perm _).mem_iff.mp entry
      obtain ⟨kr, declared, same⟩ := mem_parents given
      simp only [Prod.mk.injEq] at same
      obtain ⟨ctx, there, key⟩ := Option.map_eq_some_iff.mp (present kr declared)
      have place := Graph.core_of_nodeWeight there
      have depths := (sound.placed _ _ _ place).2.2
      have below := lt_of_childDepth deep given
      refine ⟨(ctx.cycleFn, ctx.depth), (⟨ex.inners.length, args.spawned, args.allowPanic⟩, depth),
        ?_, ?_, ?_⟩
      · show graph.core p = _
        rw [core, if_neg, same.1, place]
        rintro rfl
        rw [same.1, place] at noCore
        cases noCore
      · show graph.core args.index = _
        rw [core, if_pos rfl]
      · rw [← depths, key, ← same.2]
        exact below
  · intro i fn d there
    have there : graph.core i = some (fn, d) := there
    rw [core] at there
    have grown : (ex.insertNode args depth graph).scheduler.multiQueue.length =
        max ex.scheduler.multiQueue.length (depth + 1) := Scheduler.enableDepth_length ..
    rw [grown]
    split at there
    · cases there
      omega
    · have := sound.enabled i fn d there
      omega

theorem remove_sound {ex : Executor W} (sound : ex.Sound) (i : NodeIndex) (gc : List Ref) (event : Event) :
    (log { ex with gc := gc, graph := ex.graph.removeNode i } event).Sound := by
  constructor
  · intro j fn d there
    have there : (ex.graph.removeNode i).core j = some (fn, d) := there
    rw [Graph.core_removeNode] at there
    split at there
    · cases there
    · exact sound.placed j fn d there
  · intro e member
    obtain ⟨old, parent, child⟩ := Graph.mem_edgeList_removeNode.mp member
    obtain ⟨pc, cc, parentCore, childCore, less⟩ := sound.ascending e old
    refine ⟨pc, cc, ?_, ?_, less⟩
    · show (ex.graph.removeNode i).core e.parent = _
      rw [Graph.core_removeNode, if_neg parent, parentCore]
    · show (ex.graph.removeNode i).core e.child = _
      rw [Graph.core_removeNode, if_neg child, childCore]
  · intro j fn d there
    have there : (ex.graph.removeNode i).core j = some (fn, d) := there
    rw [Graph.core_removeNode] at there
    split at there
    · cases there
    · exact sound.enabled j fn d there

theorem Code.queues {ex ex' : Executor W} (step : Code ex ex') :
    ex'.scheduler.multiQueue.length = ex.scheduler.multiQueue.length := by
  cases step with
  | handle step => rw [scheduler_of_handleRun (.single step)]
  | manual k s held accepted =>
    obtain ⟨-, -, rfl⟩ := Scheduler.schedule_eq_ok_iff.mp accepted
    exact Scheduler.enqueue_length ..
  | _ => rfl

/-- One step keeps the graph sound. -/
theorem Micro.sound {ex ex' : Executor W} (step : Micro ex ex') (parents : ex'.All Event.ParentsPresent)
    (sound : ex.Sound) : ex'.Sound := by
  cases step with
  | code step =>
    have frame := step.frame
    exact sound.congr (by rw [frame.graph]; exact .refl _) frame.nodes frame.index frame.depth step.queues
  | fire source driver r known sub takes fired =>
    obtain ⟨o, mid, offered, -, rfl⟩ := fire_ok fired
    exact (offer_sound offered (sound.congr (.refl _) rfl (fun _ => rfl) (fun _ => rfl) rfl)).log _
  | pop o s popped =>
    exact sound.congr (.refl _) rfl (fun _ => rfl) (fun _ => rfl) (Scheduler.pop_length popped)
  | poison i poisoned =>
    obtain ⟨ctx, there, rfl⟩ := markPoisoned_ok poisoned
    exact sound.congr (Graph.setWeight_same there _ rfl rfl) rfl (fun _ => rfl) (fun _ => rfl) rfl
  | spread child spreads =>
    obtain ⟨o, mid, offered, rfl⟩ := spread_ok spreads
    exact (offer_sound offered sound).log _
  | remove r rest k front there rests => exact remove_sound sound r.index rest _
  | build args depth graph vacant deep edges =>
    have present : decide (∀ kr ∈ args.relationships, ex.Present kr.1) = true := parents _ List.mem_cons_self
    exact build_sound sound vacant deep edges (of_decide_eq_true present)
  | _ => exact sound.congr (.refl _) rfl (fun _ => rfl) (fun _ => rfl) rfl

theorem Path.sound {ex ex' : Executor W} (path : Path ex ex') (parents : ex'.All Event.ParentsPresent)
    (sound : ex.Sound) : ex'.Sound :=
  Steps.run_inv_of (p := Sound) (fun _ _ step => All.earlier step)
    (fun _ _ step => step.sound) path parents sound

/-! ## Places -/

/-- Every node sits at the place that its data names. -/
def InPlace (ex : Executor W) : Prop := ∀ i fn d, ex.graph.core i = some (fn, d) →
  fn.state < ex.inners.length ∧ (ex.inner fn.state).index = i ∧ (ex.inner fn.state).depth = d

theorem InPlace.congr {ex ex' : Executor W} (inPlace : ex.InPlace) (same : ex.graph.Same ex'.graph)
    (nodes : ex'.inners.length = ex.inners.length) (index : ∀ k, (ex'.inner k).index = (ex.inner k).index)
    (depth : ∀ k, (ex'.inner k).depth = (ex.inner k).depth) : ex'.InPlace := by
  intro i fn d there
  rw [same.core] at there
  rw [nodes, index, depth]
  exact inPlace i fn d there

/-- One step keeps every node in its place, whatever parents the builders are given. -/
theorem Micro.inPlace {ex ex' : Executor W} (step : Micro ex ex') (inPlace : ex.InPlace) : ex'.InPlace := by
  cases step with
  | code step =>
    have frame := step.frame
    exact inPlace.congr (by rw [frame.graph]; exact .refl _) frame.nodes frame.index frame.depth
  | fire source driver r known sub takes fired =>
    obtain ⟨o, mid, offered, -, rfl⟩ := fire_ok fired
    have inners : mid.inners = ex.inners := (inners_offer offered :)
    have same : ex.graph.Same mid.graph := (offer_same offered :)
    exact inPlace.congr same (congrArg _ inners)
      (fun k => congrArg (fun l => (l.getD k .uninitialized).index) inners)
      (fun k => congrArg (fun l => (l.getD k .uninitialized).depth) inners)
  | poison i poisoned =>
    obtain ⟨ctx, there, rfl⟩ := markPoisoned_ok poisoned
    exact inPlace.congr (Graph.setWeight_same there _ rfl rfl) rfl (fun _ => rfl) (fun _ => rfl)
  | spread child spreads =>
    obtain ⟨o, mid, offered, rfl⟩ := spread_ok spreads
    have inners : mid.inners = ex.inners := inners_offer offered
    have same : ex.graph.Same mid.graph := offer_same offered
    exact inPlace.congr same (congrArg _ inners)
      (fun k => congrArg (fun l => (l.getD k .uninitialized).index) inners)
      (fun k => congrArg (fun l => (l.getD k .uninitialized).depth) inners)
  | remove r rest k front there rests =>
    intro i fn d here
    replace here : (ex.graph.removeNode r.index).core i = some (fn, d) := here
    rw [Graph.core_removeNode] at here
    split at here
    · cases here
    · exact inPlace i fn d here
  | build args depth graph vacant deep edges =>
    intro i fn d here
    replace here : graph.core i = some (fn, d) := here
    have length : (ex.insertNode args depth graph).inners.length = ex.inners.length + 1 := List.length_append
    rw [core_build edges] at here
    rw [length, inner_insertNode]
    split at here
    · rename_i new
      cases here
      rw [if_pos rfl]
      exact ⟨Nat.lt_succ_self _, new.symm, rfl⟩
    · obtain ⟨old, place⟩ := inPlace i fn d here
      rw [if_neg (Nat.ne_of_lt old)]
      exact ⟨Nat.lt_succ_of_lt old, place⟩
  | _ => exact inPlace.congr (.refl _) rfl (fun _ => rfl) (fun _ => rfl)

theorem Path.inPlace {ex ex' : Executor W} (path : Path ex ex') (inPlace : ex.InPlace) : ex'.InPlace :=
  Steps.run_inv (p := InPlace) (fun _ _ step => step.inPlace) path inPlace

theorem InPlace.of_keyAt {ex : Executor W} (inPlace : ex.InPlace) {i : NodeIndex} {k : Key}
    (here : ex.keyAt i = some k) :
    k < ex.inners.length ∧ (ex.inner k).index = i := by
  obtain ⟨ctx, there, rfl⟩ := Option.map_eq_some_iff.mp here
  obtain ⟨built, index, -⟩ := inPlace _ _ _ (Graph.core_of_nodeWeight there)
  exact ⟨built, index⟩

end Executor
end Wavelet
