import Mathlib.Data.List.Nodup
import Wavelet.Cycle.Order
import Wavelet.Runtime.Ownership

/-!
# What was declared to a builder

The `parents` map of a builder has one entry for each place that was named to it, with the
strongest relationship that was said of it. `Recorded` is a run with the builders it called,
so that an edge can be compared with what was declared: as long as the parents are nodes of
the graph when their child is built, the edges connect the nodes that were named, go to a
greater depth and stand for the strongest relationship.
-/

namespace Wavelet

/-- `Trigger` if any call said so, else `Observe`. -/
def strongest {α : Type} [DecidableEq α] (calls : List (α × Relationship)) (a : α) : Option Relationship :=
  if (a, .trigger) ∈ calls then some .trigger
  else if (a, .observe) ∈ calls then some .observe
  else none

section Strongest

variable {α β : Type} [DecidableEq α] [DecidableEq β]

theorem strongest_eq_none_iff {calls : List (α × Relationship)} {a : α} :
    strongest calls a = none ↔ ∀ r, (a, r) ∉ calls := by
  unfold strongest
  constructor
  · intro h r
    split at h
    · cases h
    · split at h
      · cases h
      · cases r <;> assumption
  · intro h
    rw [if_neg (h .trigger), if_neg (h .observe)]

theorem strongest_eq_some_iff {calls : List (α × Relationship)} {a : α} {r : Relationship} :
    strongest calls a = some r ↔ (a, r) ∈ calls ∧ ((a, .trigger) ∈ calls → r = .trigger) := by
  unfold strongest
  split
  · rename_i trigger
    simp only [Option.some.injEq]
    constructor
    · rintro rfl
      exact ⟨trigger, fun _ => rfl⟩
    · intro h
      exact (h.2 trigger).symm
  · rename_i none
    split
    · rename_i observe
      simp only [Option.some.injEq]
      constructor
      · rintro rfl
        exact ⟨observe, fun no => absurd no none⟩
      · rintro ⟨member, -⟩
        cases r with
        | trigger => exact absurd member none
        | observe => rfl
    · rename_i absent
      simp only [reduceCtorEq, false_iff, not_and]
      intro member
      cases r with
      | trigger => exact absurd member none
      | observe => exact absurd member absent

/-- Names that are told apart by `f` may be replaced by their places. -/
theorem strongest_map {f : α → β} {calls : List (α × Relationship)} {a : α}
    (apart : ∀ call ∈ calls, f call.1 = f a → call.1 = a) :
    strongest (calls.map fun call => (f call.1, call.2)) (f a) = strongest calls a := by
  have members : ∀ r, (f a, r) ∈ calls.map (fun call => (f call.1, call.2)) ↔ (a, r) ∈ calls := by
    intro r
    rw [List.mem_map]
    constructor
    · rintro ⟨⟨b, r'⟩, member, same⟩
      simp only [Prod.mk.injEq] at same
      obtain ⟨here, rfl⟩ := same
      have := apart _ member here
      simp only at this
      rwa [this] at member
    · intro member
      exact ⟨(a, r), member, rfl⟩
  simp only [strongest, members]

end Strongest

/-! ## The map -/

theorem map_fst_addRelationship (parent : NodeIndex × Nat) (r : Relationship) (ps : List ParentEntry) :
    (addRelationship parent r ps).map (·.1) = if parent ∈ ps.map (·.1) then ps.map (·.1) else ps.map
      (·.1) ++ [parent] := by
  induction ps with
  | nil => rfl
  | cons first rest ih =>
    obtain ⟨other, s⟩ := first
    rw [addRelationship]
    by_cases here : other = parent
    · subst here
      simp
    · rw [if_neg here, List.map_cons, ih]
      simp only [List.map_cons, List.mem_cons, Ne.symm here, false_or]
      split
      · rfl
      · rfl

theorem mem_addRelationship_iff {parent : NodeIndex × Nat} {r : Relationship} {ps : List ParentEntry}
    (distinct : (ps.map (·.1)).Nodup) (place : NodeIndex × Nat) (s : Relationship) :
    (place, s) ∈ addRelationship parent r ps ↔
      (place = parent ∧ (s = .trigger ↔ r = .trigger ∨ (parent, .trigger) ∈ ps)) ∨
      (place ≠ parent ∧ (place, s) ∈ ps) := by
  induction ps with
  | nil => cases r <;> cases s <;> simp [addRelationship]
  | cons first rest ih =>
    obtain ⟨other, t⟩ := first
    obtain ⟨unseen, distinct⟩ := List.nodup_cons.mp distinct
    rw [addRelationship]
    by_cases here : other = parent
    · subst here
      have only : ∀ t', (other, t') ∉ rest := fun t' member => unseen (List.mem_map.mpr ⟨_, member, rfl⟩)
      rw [if_pos rfl]
      by_cases same : place = other
      · subst same
        cases r <;> cases s <;> cases t <;> simp [only]
      · simp [same]
    · rw [if_neg here, List.mem_cons, ih distinct]
      by_cases same : place = parent
      · subst same
        simp [Ne.symm here]
      · simp [same]

/-- The map stands for the calls: one entry for each place, with the strongest relationship. -/
structure Stands (calls ps : List ParentEntry) : Prop where
  distinct : (ps.map (·.1)).Nodup
  entries : ∀ place r, (place, r) ∈ ps ↔ strongest calls place = some r

theorem Stands.add {calls ps : List ParentEntry} (stands : Stands calls ps)
    (parent : NodeIndex × Nat) (r : Relationship) :
    Stands (calls ++ [(parent, r)]) (addRelationship parent r ps) := by
  constructor
  case distinct =>
    rw [map_fst_addRelationship]
    split
    · exact stands.distinct
    · rename_i unseen
      apply List.Nodup.append stands.distinct (List.nodup_singleton _)
      rintro place member here
      rw [List.mem_singleton.mp here] at member
      exact unseen member
  case entries =>
    intro place s
    have trigger : ∀ q, (q, Relationship.trigger) ∈ ps ↔ (q, Relationship.trigger) ∈ calls := by
      intro q
      rw [stands.entries, strongest_eq_some_iff]
      simp
    rw [mem_addRelationship_iff stands.distinct, trigger, stands.entries, strongest_eq_some_iff,
      strongest_eq_some_iff]
    by_cases same : place = parent
    · subst same
      cases r <;> cases s <;> simp
    · simp [same]

namespace Executor

open Relation

variable {W : Type}

/-- The place that a handle names. -/
def place (ex : Executor W) (k : Key) : NodeIndex × Nat := ((ex.inner k).index, (ex.inner k).depth)

/-- The calls as the map sees them. -/
def calls (ex : Executor W) (args : BuildArgs) : List ParentEntry :=
  args.relationships.map fun kr => (ex.place kr.1, kr.2)

theorem parents_stand (ex : Executor W) (args : BuildArgs) : Stands (ex.calls args) (ex.parents args) := by
  have fold : ∀ (rest : List (Key × Relationship)) (calls ps : List ParentEntry), Stands calls ps →
      Stands (calls ++ rest.map fun kr => (ex.place kr.1, kr.2))
        (rest.foldl (fun ps kr => addRelationship ((ex.inner kr.1).index, (ex.inner kr.1).depth) kr.2 ps) ps) := by
    intro rest
    induction rest with
    | nil =>
      intro calls ps stands
      simpa using stands
    | cons kr rest ih =>
      intro calls ps stands
      have := ih _ _ (stands.add (ex.place kr.1) kr.2)
      rwa [List.append_assoc] at this
  exact fold args.relationships [] [] ⟨List.nodup_nil, fun place r => by simp [strongest]⟩

/-- Distinct nodes of the graph have distinct places. -/
theorem key_of_place {ex : Executor W} {j k : Key} (first : ex.Present j) (second : ex.Present k)
    (same : (ex.inner j).index = (ex.inner k).index) : j = k := by
  have first : ex.keyAt (ex.inner j).index = some j := first
  have second : ex.keyAt (ex.inner k).index = some k := second
  rw [same, second] at first
  exact (Option.some.inj first).symm

/-- What the builder was told of a node of the graph, if all its parents are in the graph. -/
theorem mem_parents_iff {ex : Executor W} {args : BuildArgs}
    (present : ∀ kr ∈ args.relationships, ex.Present kr.1) {k : Key} (there : ex.Present k)
    (r : Relationship) :
    (ex.place k, r) ∈ ex.parents args ↔ strongest args.relationships k = some r := by
  rw [(ex.parents_stand args).entries, calls, strongest_map]
  intro kr declared same
  exact key_of_place (present kr declared) there (congrArg Prod.fst same)

/-! ## Runs with their builders -/

/-- `ex` is reached by small steps that called the builders `builds`, oldest first: the
`k`-th of them made node `k`. -/
inductive Recorded : List BuildArgs → Executor W → Prop
  | initial (cfg : EventDriverConfig) (mode : ExecutionMode) (world : W) :
      Recorded [] (withConfig cfg mode world)
  | step {builds ex ex'} : Recorded builds ex → Micro ex ex' →
      ex'.inners.length = ex.inners.length → Recorded builds ex'
  | build (args : BuildArgs) (depth graph) {builds ex} : Recorded builds ex →
      ex.graph.nodeWeight args.index = none →
      childDepth (ex.parents args) = some depth →
      addEdges args.index (ex.graph.addNode args.index
        (.new ⟨ex.inners.length, args.spawned, args.allowPanic⟩ depth))
        (args.order.order (ex.parents args)) = some graph →
      Recorded (builds ++ [args]) (ex.insertNode args depth graph)

/-- A small step that builds no node keeps their number. -/
theorem Micro.nodes {ex ex' : Executor W} (step : Micro ex ex') : ex'.inners.length = ex.inners.length ∨
    ∃ args depth graph, ex.graph.nodeWeight args.index = none ∧ childDepth (ex.parents args) = some depth ∧
      addEdges args.index (ex.graph.addNode args.index
      (.new ⟨ex.inners.length, args.spawned, args.allowPanic⟩ depth))
        (args.order.order (ex.parents args)) = some graph ∧ ex' = ex.insertNode args depth graph := by
  cases step with
  | code step => exact .inl step.frame.nodes
  | fire source driver r known sub takes fired =>
    obtain ⟨o, mid, offered, -, rfl⟩ := fire_ok fired
    have same := inners_offer offered
    exact .inl (congrArg List.length same)
  | poison i poisoned =>
    obtain ⟨ctx, there, rfl⟩ := markPoisoned_ok poisoned
    exact .inl rfl
  | spread child spreads =>
    obtain ⟨o, mid, offered, rfl⟩ := spread_ok spreads
    have same := inners_offer offered
    exact .inl (congrArg List.length same)
  | build args depth graph vacant deep edges => exact .inr ⟨args, depth, graph, vacant, deep, edges, rfl⟩
  | _ => exact .inl rfl

theorem Path.recorded {builds : List BuildArgs} {ex ex' : Executor W} (path : Path ex ex')
    (recorded : Recorded builds ex) :
    ∃ builds', Recorded builds' ex' := by
  induction path with
  | refl => exact ⟨builds, recorded⟩
  | tail _ step ih =>
    obtain ⟨builds', recorded'⟩ := ih
    rcases step.nodes with same | ⟨args, depth, graph, vacant, deep, edges, rfl⟩
    · exact ⟨builds', recorded'.step step same⟩
    · exact ⟨_, recorded'.build args depth graph vacant deep edges⟩

/-- A run that leaves the number of nodes as it was called no builder. -/
theorem Recorded.path {builds : List BuildArgs} {ex ex' : Executor W}
    (recorded : Recorded builds ex) (path : Path ex ex')
    (same : ex'.inners.length = ex.inners.length) : Recorded builds ex' := by
  have grows : ∀ {s s' : Executor W}, Path s s' → s.inners.length ≤ s'.inners.length := by
    intro s s' path
    induction path with
    | refl => exact Nat.le_refl _
    | tail _ step ih =>
      rcases step.nodes with kept | ⟨args, depth, graph, -, -, -, rfl⟩
      · omega
      · refine Nat.le_trans ih ?_
        show _ ≤ (_ ++ [_]).length
        rw [List.length_append]
        omega
  induction path with
  | refl => exact recorded
  | tail before step ih =>
    have first := grows before
    have last := grows (.single step)
    exact (ih (by omega)).step step (by omega)

theorem Recorded.builder {builds : List BuildArgs} {args : BuildArgs} {ex ex' : Executor W}
    (recorded : Recorded builds ex) (h : ex.build args = .ok ex') : Recorded (builds ++ [args]) ex' := by
  obtain ⟨depth, graph, handles, vacant, deep, edges, rfl, path⟩ := build_ok h
  exact (recorded.build args depth graph vacant deep edges).path path rfl

/-- The builders among the operations of a program. -/
def builders (ops : List (ExecOp W)) : List BuildArgs :=
  ops.filterMap fun op =>
    match op with
    | .build args => some args
    | .handle _ | .driver _ => none

theorem Recorded.ops {builds : List BuildArgs} {prog : Program W} {ops : List (ExecOp W)}
    {ex ex' : Executor W} (recorded : Recorded builds ex) (h : ex.execOps prog ops = .ok ex') :
    Recorded (builds ++ builders ops) ex' := by
  induction ops generalizing builds ex with
  | nil =>
    cases h
    rwa [builders, List.filterMap_nil, List.append_nil]
  | cons op rest ih =>
    rw [execOps, List.foldlM_cons] at h
    obtain ⟨mid, first, later⟩ := Steps.bind_ok' h
    cases op with
    | handle op =>
      cases first
      have run := (handleOp_run prog ex op).code
      exact ih (recorded.path (CodeRun.path run) (frame_of_run run).nodes) later
    | driver op =>
      simp only [execOp] at first
      split at first
      · rename_i next applied
        cases first
        have run := driverOp_run applied
        exact ih (recorded.path (CodeRun.path run) (frame_of_run run).nodes) later
      · cases first
    | build args =>
      have last := ih (recorded.builder first) later
      rwa [List.append_assoc] at last

/-- Every reachable state has such a record. -/
theorem Reachable.recorded {allowed : Exit → Prop} {ex : Executor W} (reached : Reachable allowed ex) :
    ∃ builds, Recorded builds ex := by
  obtain ⟨cfg, mode, world, path⟩ := reached.path
  exact path.recorded (.initial cfg mode world)

theorem Recorded.counted {builds : List BuildArgs} {ex : Executor W} (recorded : Recorded builds ex) :
    builds.length = ex.inners.length := by
  induction recorded with
  | initial => rfl
  | step _ _ same ih => rw [same, ih]
  | build args depth graph _ _ _ _ ih =>
    show (_ ++ [args]).length = (_ ++ [_]).length
    rw [List.length_append, List.length_append, ih]
    rfl

theorem Recorded.sound {builds : List BuildArgs} {ex : Executor W} (recorded : Recorded builds ex)
    (parents : ex.All Event.ParentsPresent) : ex.Sound := by
  induction recorded with
  | initial cfg mode world => exact sound_withConfig cfg mode world
  | step _ step _ ih => exact step.sound parents (ih (parents.earlier step))
  | build args depth graph _ vacant deep edges ih =>
    have step := Micro.build args depth graph vacant deep edges
    exact step.sound parents (ih (parents.earlier step))

/-- A sound graph has a node at both ends of every edge. -/
theorem Sound.linked {ex : Executor W} (sound : ex.Sound) : ex.graph.Linked := by
  intro e member
  obtain ⟨p, c, parent, child, -⟩ := sound.ascending e member
  rw [← Graph.isSome_core, ← Graph.isSome_core, parent, child]
  exact ⟨rfl, rfl⟩

theorem ends_of_linked {ex : Executor W} (linked : ex.graph.Linked) {e : Edge}
    (member : e ∈ ex.graph.edgeList) :
    (∃ p, ex.keyAt e.parent = some p) ∧ ∃ c, ex.keyAt e.child = some c := by
  obtain ⟨parent, child⟩ := linked e member
  obtain ⟨p, parent⟩ := Option.isSome_iff_exists.mp parent
  obtain ⟨c, child⟩ := Option.isSome_iff_exists.mp child
  rw [keyAt, keyAt, parent, child]
  exact ⟨⟨_, rfl⟩, ⟨_, rfl⟩⟩

/-! ## The declared edges -/

/-- The edges between two nodes are the strongest relationship that the child's builder was
told of the parent, if any. -/
def Named (builds : List BuildArgs) (ex : Executor W) : Prop :=
  ∀ i j p c r, ex.keyAt i = some p → ex.keyAt j = some c →
    (⟨i, j, r⟩ ∈ ex.graph.edgeList ↔ ∃ args, builds[c]? = some args ∧ strongest args.relationships p = some r)

/-- Builders name older nodes. -/
def Older (builds : List BuildArgs) : Prop :=
  ∀ (c : Nat) (args : BuildArgs), builds[c]? = some args → ∀ kr ∈ args.relationships, kr.1 < c

/-- A step that builds nothing keeps or removes nodes, with the edges at them. -/
theorem Named.step {builds : List BuildArgs} {ex ex' : Executor W} (named : Named builds ex)
    (step : Micro ex ex') (same : ex'.inners.length = ex.inners.length) : Named builds ex' := by
  intro i j p c r parent child
  rcases step.slots with ⟨graph, -, -⟩ | ⟨removed, rest, k, -, -, -, rfl⟩ | ⟨args, depth, graph, rfl, -, -⟩
  · rw [keyAt_of_same graph] at parent child
    rw [graph.edges]
    exact named i j p c r parent child
  · obtain ⟨apart, parent⟩ := keyAt_of_removeNode parent
    obtain ⟨apart', child⟩ := keyAt_of_removeNode child
    refine Iff.trans (Graph.mem_edgeList_removeNode.trans ?_) (named i j p c r parent child)
    exact ⟨fun h => h.1, fun h => ⟨h, apart, apart'⟩⟩
  · have grown : (ex.inners ++ [(⟨args.index, depth, 0⟩ : NodeInner)]).length = ex.inners.length := same
    simp at grown

/-- A free index has no edges. -/
theorem apart_of_vacant {ex : Executor W} (linked : ex.graph.Linked) {i : NodeIndex}
    (vacant : ex.keyAt i = none) {e : Edge} (member : e ∈ ex.graph.edgeList) :
    e.parent ≠ i ∧ e.child ≠ i := by
  obtain ⟨⟨p, parent⟩, c, child⟩ := ends_of_linked linked member
  constructor
  · intro same
    rw [same, vacant] at parent
    cases parent
  · intro same
    rw [same, vacant] at child
    cases child

section Child

variable {ex : Executor W} {args : BuildArgs} {depth : Nat} {graph : Graph}

/-- The edges from the nodes of the graph to a new one. -/
theorem named_child (inPlace : ex.InPlace) (linked : ex.graph.Linked) (vacant : ex.keyAt args.index = none)
    (present : ∀ kr ∈ args.relationships, ex.Present kr.1) {g : Graph}
    (edges : addEdges args.index g (args.order.order (ex.parents args)) = some graph)
    (old : g.edgeList = ex.graph.edgeList) {i : NodeIndex} {p : Key} (parent : ex.keyAt i = some p)
    (r : Relationship) :
    ⟨i, args.index, r⟩ ∈ graph.edgeList ↔ strongest args.relationships p = some r := by
  obtain ⟨-, here⟩ := inPlace.of_keyAt parent
  have there : ex.Present p := by rw [Present, here, parent]
  rw [(addEdges_some edges).2, old, ← mem_parents_iff present there]
  constructor
  · rintro (member | ⟨i', d, r', entry, same⟩)
    · exact absurd rfl (apart_of_vacant linked vacant member).2
    · cases same
      have given := (args.order.perm _).mem_iff.mp entry
      obtain ⟨kr, declared, same⟩ := mem_parents given
      have index : (ex.inner kr.1).index = (ex.inner p).index := by
        rw [here]; exact (congrArg Prod.fst same).symm
      rw [key_of_place (present kr declared) there index] at same
      simp only at same
      rwa [same] at given
  · intro given
    refine .inr ⟨i, (ex.inner p).depth, r, (args.order.perm _).mem_iff.mpr ?_, rfl⟩
    rw [← here]
    exact given

/-- A new node is not its own child. -/
theorem no_loop (linked : ex.graph.Linked) (vacant : ex.keyAt args.index = none)
    (present : ∀ kr ∈ args.relationships, ex.Present kr.1) {g : Graph}
    (edges : addEdges args.index g (args.order.order (ex.parents args)) = some graph)
    (old : g.edgeList = ex.graph.edgeList) (r : Relationship) :
    ⟨args.index, args.index, r⟩ ∉ graph.edgeList := by
  rw [(addEdges_some edges).2, old]
  rintro (member | ⟨i, d, r', entry, same⟩)
  · exact (apart_of_vacant linked vacant member).1 rfl
  · cases same
    obtain ⟨kr, declared, same⟩ := mem_parents ((args.order.perm _).mem_iff.mp entry)
    have there : ex.keyAt (ex.inner kr.1).index = some kr.1 := present kr declared
    have index : args.index = (ex.inner kr.1).index := congrArg Prod.fst same
    rw [← index, vacant] at there
    cases there

theorem older_than_child (inPlace : ex.InPlace) (present : ∀ kr ∈ args.relationships, ex.Present kr.1) :
    ∀ kr ∈ args.relationships, kr.1 < ex.inners.length :=
  fun kr declared => (inPlace.of_keyAt (present kr declared)).1

/-- The edges to a new node, from whatever node. -/
theorem edges_to_child (inPlace : ex.InPlace) (linked : ex.graph.Linked) (vacant : ex.keyAt args.index = none)
    (present : ∀ kr ∈ args.relationships, ex.Present kr.1)
    (edges : addEdges args.index (ex.graph.addNode args.index
      (.new ⟨ex.inners.length, args.spawned, args.allowPanic⟩ depth))
      (args.order.order (ex.parents args)) = some graph) {i : NodeIndex} {p : Key}
    (parent : (ex.insertNode args depth graph).keyAt i = some p) (r : Relationship) :
    ⟨i, args.index, r⟩ ∈ graph.edgeList ↔ strongest args.relationships p = some r := by
  rw [keyAt_insertNode edges] at parent
  split at parent
  · rename_i same
    cases parent
    have unnamed : strongest args.relationships ex.inners.length = none := by
      apply strongest_eq_none_iff.mpr
      intro r member
      exact absurd (older_than_child inPlace present _ member) (Nat.lt_irrefl _)
    rw [unnamed, same]
    constructor
    · intro member
      exact absurd member (no_loop linked vacant present edges rfl r)
    · intro no
      cases no
  · exact named_child inPlace linked vacant present edges rfl parent r

/-- The other edges stay as they were. -/
theorem edges_to_others {g : Graph} {ps : List ParentEntry} (edges : addEdges args.index g ps = some graph)
    (old : g.edgeList = ex.graph.edgeList) {i j : NodeIndex} (other : j ≠ args.index) (r : Relationship) :
    ⟨i, j, r⟩ ∈ graph.edgeList ↔ ⟨i, j, r⟩ ∈ ex.graph.edgeList := by
  rw [(addEdges_some edges).2, old]
  apply or_iff_left
  rintro ⟨i, d, r', -, same⟩
  cases same
  exact other rfl

end Child

theorem Named.build {builds : List BuildArgs} {ex : Executor W} {args : BuildArgs} {depth : Nat}
    {graph : Graph} (named : Named builds ex) (older : Older builds)
    (counted : builds.length = ex.inners.length) (sound : ex.Sound)
    (vacant : ex.graph.nodeWeight args.index = none) (present : ∀ kr ∈ args.relationships, ex.Present kr.1)
    (edges : addEdges args.index (ex.graph.addNode args.index
      (.new ⟨ex.inners.length, args.spawned, args.allowPanic⟩ depth))
      (args.order.order (ex.parents args)) = some graph) :
    Named (builds ++ [args]) (ex.insertNode args depth graph) := by
  have slots := keyAt_insertNode edges
  have empty : ex.keyAt args.index = none := by rw [keyAt, vacant]; rfl
  intro i j p c r parent child
  show ⟨i, j, r⟩ ∈ graph.edgeList ↔ _
  rw [slots] at child
  by_cases childNew : j = args.index
  · subst childNew
    rw [if_pos rfl] at child
    cases child
    have here : (builds ++ [args])[ex.inners.length]? = some args := by rw [← counted]; simp
    simp only [here, Option.some.injEq, exists_eq_left']
    exact edges_to_child sound.placed sound.linked empty present edges parent r
  · rw [if_neg childNew] at child
    have bound := (InPlace.of_keyAt sound.placed child).1
    have here : (builds ++ [args])[c]? = builds[c]? :=
      List.getElem?_append_left (by rw [counted]; exact bound)
    rw [here, edges_to_others edges rfl childNew]
    rw [slots] at parent
    by_cases parentNew : i = args.index
    · subst parentNew
      rw [if_pos rfl] at parent
      cases parent
      constructor
      · intro member
        exact absurd rfl (apart_of_vacant sound.linked empty member).1
      · rintro ⟨args', built, declared⟩
        have less := older c args' built _ (strongest_eq_some_iff.mp declared).1
        exact absurd bound (Nat.lt_asymm less)
    · rw [if_neg parentNew] at parent
      exact named i j p c r parent child

theorem Older.build {builds : List BuildArgs} {ex : Executor W} {args : BuildArgs} (older : Older builds)
    (counted : builds.length = ex.inners.length) (sound : ex.Sound)
    (present : ∀ kr ∈ args.relationships, ex.Present kr.1) :
    Older (builds ++ [args]) := by
  intro c args' built kr declared
  rw [List.getElem?_append] at built
  split at built
  · exact older c args' built kr declared
  · rename_i past
    rw [List.getElem?_singleton] at built
    split at built
    · cases built
      exact Nat.lt_of_lt_of_le (older_than_child sound.placed present kr declared)
        (counted ▸ Nat.le_of_not_lt past)
    · cases built

/-- The graph is the one that the builders declared: every edge goes down, the edges between
two nodes are those named to the child's builder, and there is a queue for the depth of
every node. -/
structure WellFormed (builds : List BuildArgs) (ex : Executor W) : Prop where
  ascending : ∀ e ∈ ex.graph.edgeList, ∃ p c, ex.graph.core e.parent = some p ∧
    ex.graph.core e.child = some c ∧ p.2 < c.2
  named : Named builds ex
  enabled : ∀ i fn d, ex.graph.core i = some (fn, d) → d < ex.scheduler.multiQueue.length

/-- Builders that are given nodes of the graph declare what the graph becomes, in every state
of every run. -/
theorem declared_graph_well_formed {builds : List BuildArgs} {ex : Executor W} (recorded : Recorded builds ex)
    (parents : ex.All Event.ParentsPresent) : WellFormed builds ex := by
  have sound := recorded.sound parents
  have both : Older builds ∧ Named builds ex := by
    induction recorded with
    | initial cfg mode world =>
      constructor
      · intro c args built
        cases built
      · intro i j p c r parent
        cases parent
    | step before step same ih =>
      have parents' := parents.earlier step
      obtain ⟨older, named⟩ := ih parents' (before.sound parents')
      exact ⟨older, named.step step same⟩
    | build args depth graph before vacant deep edges ih =>
      have step := Micro.build args depth graph vacant deep edges
      have parents' := parents.earlier step
      have sound' := before.sound parents'
      obtain ⟨older, named⟩ := ih parents' sound'
      have present := of_decide_eq_true (parents _ List.mem_cons_self : decide _ = true)
      exact ⟨older.build before.counted sound' present,
        named.build older before.counted sound' vacant present edges⟩
  exact ⟨sound.ascending, both.2, sound.enabled⟩

theorem not_wellFormed_of_level {builds : List BuildArgs} {ex : Executor W} {e : Edge}
    (member : e ∈ ex.graph.edgeList) (level : ex.graph.depthAt e.parent = ex.graph.depthAt e.child) :
    ¬ WellFormed builds ex := by
  intro wellFormed
  obtain ⟨p, c, parent, child, less⟩ := wellFormed.ascending e member
  rw [Graph.depthAt_of_core parent, Graph.depthAt_of_core child] at level
  omega

/-- The edge for a parent whose index holds none of the nodes named to the builder goes out
from another node, or from the child itself: the graph is not the declared one. -/
theorem stale_parent_misleads {builds : List BuildArgs} {ex ex' : Executor W} {args : BuildArgs}
    (recorded : Recorded builds ex) (parents : ex.All Event.ParentsPresent) {kr : Key × Relationship}
    (declared : kr ∈ args.relationships)
    (stale : ∀ other ∈ args.relationships, ex.Present other.1 →
      (ex.inner other.1).index ≠ (ex.inner kr.1).index) (h : ex.build args = .ok ex') :
    ¬ WellFormed (builds ++ [args]) ex' := by
  intro wellFormed
  obtain ⟨depth, graph, handles, vacant, deep, edges, rfl, -⟩ := build_ok h
  have slots := keyAt_insertNode edges
  -- the map has an entry for the stale place, and the entry becomes an edge
  obtain ⟨r, entry⟩ : ∃ r, (ex.place kr.1, r) ∈ ex.parents args := by
    have told : (ex.place kr.1, kr.2) ∈ ex.calls args := List.mem_map.mpr ⟨kr, declared, rfl⟩
    cases strong : strongest (ex.calls args) (ex.place kr.1) with
    | none => exact absurd told (strongest_eq_none_iff.mp strong _)
    | some r => exact ⟨r, ((ex.parents_stand args).entries _ _).mpr strong⟩
  have edge : ⟨(ex.inner kr.1).index, args.index, r⟩ ∈ graph.edgeList :=
    (addEdges_some edges).2 _ |>.mpr (.inr ⟨_, _, _, (args.order.perm _).mem_iff.mpr entry, rfl⟩)
  obtain ⟨p, c, parent, child, less⟩ := wellFormed.ascending _ edge
  by_cases itself : (ex.inner kr.1).index = args.index
  · replace parent : graph.core (ex.inner kr.1).index = some p := parent
    replace child : graph.core args.index = some c := child
    rw [itself, child] at parent
    cases parent
    exact Nat.lt_irrefl _ less
  · -- the node found there was not named
    have occupant : ex.keyAt (ex.inner kr.1).index = some p.1.state := by
      have := keyAt_eq_core (ex.insertNode args depth graph) (ex.inner kr.1).index
      rw [slots, if_neg itself] at this
      rw [this]
      replace parent : graph.core (ex.inner kr.1).index = some p := parent
      show (graph.core _).map _ = _
      rw [parent]
      rfl
    have made := (wellFormed.named (ex.inner kr.1).index args.index p.1.state ex.inners.length r
      ((slots _).trans (by rw [if_neg itself, occupant])) ((slots _).trans (if_pos rfl))).mp edge
    obtain ⟨args', built, named⟩ := made
    rw [← recorded.counted, List.getElem?_concat_length] at built
    cases built
    have place := (InPlace.of_keyAt (recorded.sound parents).placed occupant).2
    refine stale _ (strongest_eq_some_iff.mp named).1 ?_ place
    rw [Present, place, occupant]

/-- A source and its child. -/
theorem relay_well_formed :
    ∃ ex, bare.execOps relay relayOps = .ok ex ∧ ex.graph.edgeList = [⟨0, 1, .trigger⟩] ∧
      WellFormed (builders relayOps) ex :=
  have built : bare.execOps relay relayOps = .ok _ := rfl
  ⟨_, built, rfl, declared_graph_well_formed ((Recorded.initial ..).ops built) (by decide)⟩

/-- Node 0 sweeps itself. -/
def leaver : Program Unit where
  cycleFn _ _ k := ([], .ret (if k = 0 then .sweep else .unchanged))
  onDrop _ _ := []
  spawnFn _ _ := []

def leaverOps : List (ExecOp Unit) :=
  [.build { index := 0 }, .build { index := 1 }, .driver (.yieldNow (.node 0))]

/-- Node 2 gets the index of node 0 and depth 1, and node 3 is a child of node 0. -/
def stalyOps : List (ExecOp Unit) :=
  [.build { index := 0, relationships := [(1, .trigger)] },
    .build { index := 2, relationships := [(0, .trigger)] }]

/-- The edge to the child of node 0, which has left the graph, is made from node 2, which is
as deep as the child. -/
theorem stale_parent_wrong_edge :
    ∃ ex : Executor Unit, bare.play leaver 3 [(leaverOps, instantly), (stalyOps, instantly)] =
      .ok ([.running, .running], ex) ∧
      Reachable (· = .running) ex ∧ ex.graph.edgeList = [⟨0, 2, .trigger⟩, ⟨1, 0, .trigger⟩] ∧
      ex.keyAt 0 = some 2 ∧
      ex.keyAt 2 = some 3 ∧ ex.graph.depthAt 0 = ex.graph.depthAt 2 ∧ ∀ builds, Recorded builds ex →
      ¬ WellFormed builds ex :=
  have played : bare.play leaver 3 [(leaverOps, instantly), (stalyOps, instantly)] =
      .ok ([.running, .running], _) := rfl
  ⟨_, played, (Reachable.initial ..).play played (by decide), rfl, rfl, rfl, rfl,
    fun _ _ => not_wellFormed_of_level (e := ⟨0, 2, .trigger⟩) (List.Mem.head _) rfl⟩

end Executor
end Wavelet
