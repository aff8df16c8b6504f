import Wavelet.Runtime.Declared

/-!
# How relationships are spelled

Two programs that build the same nodes may declare their relationships in any order, with
repetitions, and the `parents` map may be iterated in any order. The graphs then differ in
the order of their edges, but not in the lists of children that a node has.
-/

namespace Wavelet

/-! ## Edges seen from a parent -/

namespace Graph

/-- The edges `l` in the place of those of `g` make no difference to any node. -/
def Agrees (g : Graph) (l : List Edge) : Prop :=
  ∀ i, (Graph.mk g.slots l).edges i = g.edges i ∧ (Graph.mk g.slots l).triggeringEdges i = g.triggeringEdges i

theorem edges_cons (slots : List (Option NodeContext)) (e : Edge) (l : List Edge) (i : NodeIndex) :
    (Graph.mk slots (e :: l)).edges i =
      (if e.parent = i then [e.child] else []) ++ (Graph.mk slots l).edges i := by
  unfold edges
  rw [List.filter_cons]
  split
  · rename_i here
    rw [if_pos (of_decide_eq_true here)]
    rfl
  · rename_i other
    rw [if_neg fun here => other (decide_eq_true here)]
    rfl

theorem triggeringEdges_cons (slots : List (Option NodeContext)) (e : Edge) (l : List Edge) (i : NodeIndex) :
    (Graph.mk slots (e :: l)).triggeringEdges i =
      (if e.parent = i ∧ e.relationship = .trigger then [e.child] else []) ++
      (Graph.mk slots l).triggeringEdges i := by
  unfold triggeringEdges
  rw [List.filter_cons]
  split
  · rename_i here
    rw [if_pos (of_decide_eq_true here)]
    rfl
  · rename_i other
    rw [if_neg fun here => other (decide_eq_true here)]
    rfl

/-- A removal keeps the order of the children that are left. -/
theorem children_removeNode (g : Graph) (j : NodeIndex) (q : Edge → Bool) (out : ∀ e, q e → e.parent ≠ j) :
    ((g.removeNode j).edgeList.filter q).map (·.child) =
      ((g.edgeList.filter q).map (·.child)).filter (· ≠ j) := by
  unfold removeNode
  rw [List.filter_map, List.filter_filter, List.filter_filter]
  congr 1
  apply List.filter_congr
  intro e _
  simp only [Function.comp_apply]
  cases taken : q e with
  | false => simp
  | true =>
    have apart := out e taken
    simp [apart]

theorem children_removeNode_self (g : Graph) (j : NodeIndex) (q : Edge → Bool)
    (out : ∀ e, q e → e.parent = j) :
    (g.removeNode j).edgeList.filter q = [] := by
  rw [List.filter_eq_nil_iff]
  intro e member taken
  exact (mem_edgeList_removeNode.mp member).2.1 (out e taken)

theorem Agrees.removeNode {g : Graph} {l : List Edge} (agrees : g.Agrees l) (j : NodeIndex) :
    (g.removeNode j).Agrees ((Graph.mk g.slots l).removeNode j).edgeList := by
  intro i
  obtain ⟨all, triggers⟩ := agrees i
  by_cases here : i = j
  · have parent : ∀ e : Edge, decide (e.parent = i) = true → e.parent = j :=
      fun e same => here ▸ of_decide_eq_true same
    have parent' : ∀ e : Edge, decide (e.parent = i ∧ e.relationship = .trigger) = true → e.parent = j :=
      fun e same => here ▸ (of_decide_eq_true same).1
    constructor
    · unfold edges
      rw [children_removeNode_self g j _ parent]
      exact congrArg _ (children_removeNode_self (Graph.mk g.slots l) j _ parent)
    · unfold triggeringEdges
      rw [children_removeNode_self g j _ parent']
      exact congrArg _ (children_removeNode_self (Graph.mk g.slots l) j _ parent')
  · have parent : ∀ e : Edge, decide (e.parent = i) = true → e.parent ≠ j :=
      fun e same => (of_decide_eq_true same).symm ▸ here
    have parent' : ∀ e : Edge, decide (e.parent = i ∧ e.relationship = .trigger) = true → e.parent ≠ j :=
      fun e same => (of_decide_eq_true same).1.symm ▸ here
    constructor
    · unfold edges at all ⊢
      rw [children_removeNode g j _ parent, ← all]
      exact children_removeNode (Graph.mk g.slots l) j _ parent
    · unfold triggeringEdges at triggers ⊢
      rw [children_removeNode g j _ parent', ← triggers]
      exact children_removeNode (Graph.mk g.slots l) j _ parent'

end Graph

/-! ## The edges of a builder -/

/-- A new node comes first among the children of each of its parents. -/
theorem edges_addEdges {child : NodeIndex} {entries : List ParentEntry} {g g' : Graph}
    (h : addEdges child g entries = some g') (i : NodeIndex) :
    g'.edges i = List.replicate (entries.countP fun entry => entry.1.1 = i) child ++ g.edges i ∧
      g'.triggeringEdges i =
        List.replicate (entries.countP fun entry => entry.1.1 = i ∧ entry.2 = .trigger) child ++
        g.triggeringEdges i := by
  induction entries generalizing g with
  | nil =>
    cases h
    exact ⟨rfl, rfl⟩
  | cons entry rest ih =>
    obtain ⟨⟨parent, depth⟩, r⟩ := entry
    obtain ⟨mid, added, later⟩ := Option.bind_eq_some_iff.mp h
    obtain ⟨-, -, rfl⟩ := Graph.addEdge_eq_some_iff.mp added
    obtain ⟨all, triggers⟩ := ih later
    rw [all, triggers, Graph.edges_cons, Graph.triggeringEdges_cons, List.countP_cons, List.countP_cons]
    constructor
    · by_cases here : parent = i
      · simp [here, List.replicate_succ', List.append_assoc]
      · simp [here]
    · by_cases here : parent = i ∧ r = .trigger
      · simp [here, List.replicate_succ', List.append_assoc]
      · simp [here]

/-- Whether all parents are there does not depend on the order. -/
theorem addEdges_isSome_iff {child : NodeIndex} {entries : List ParentEntry} {g : Graph} :
    (addEdges child g entries).isSome ↔
      ∀ entry ∈ entries, (g.nodeWeight entry.1.1).isSome ∧ (g.nodeWeight child).isSome := by
  induction entries generalizing g with
  | nil => simp [addEdges]
  | cons entry rest ih =>
    obtain ⟨⟨parent, depth⟩, r⟩ := entry
    rw [addEdges]
    cases added : g.addEdge parent child r with
    | none =>
      unfold Graph.addEdge at added
      split at added
      · cases added
      · rename_i missing
        simp [missing]
    | some mid =>
      obtain ⟨there, there', rfl⟩ := Graph.addEdge_eq_some_iff.mp added
      show (addEdges child _ rest).isSome ↔ _
      rw [ih]
      constructor
      · intro later entry member
        rcases List.mem_cons.mp member with rfl | old
        · exact ⟨there, there'⟩
        · exact later entry old
      · intro all entry member
        exact all entry (List.mem_cons_of_mem _ member)

theorem addEdges_edgeList {child : NodeIndex} {entries : List ParentEntry} {g g' : Graph}
    (h : addEdges child g entries = some g') :
    g'.edgeList = (entries.map fun entry => ⟨entry.1.1, child, entry.2⟩).reverse ++ g.edgeList := by
  induction entries generalizing g with
  | nil =>
    cases h
    rfl
  | cons entry rest ih =>
    obtain ⟨⟨parent, depth⟩, r⟩ := entry
    obtain ⟨mid, added, later⟩ := Option.bind_eq_some_iff.mp h
    obtain ⟨-, -, rfl⟩ := Graph.addEdge_eq_some_iff.mp added
    rw [ih later]
    simp

/-- Edges to the same parents, in whatever order they are made, make no difference. -/
theorem Graph.Agrees.addEdges {child : NodeIndex} {entries entries' : List ParentEntry} {g : Graph}
    {l : List Edge} (agrees : g.Agrees l) (perm : entries.Perm entries') :
    Option.Rel (fun joined joined' => ∃ l', joined.Agrees l' ∧ joined' = ⟨joined.slots, l'⟩)
      (addEdges child g entries) (addEdges child ⟨g.slots, l⟩ entries') := by
  have alike : (Wavelet.addEdges child g entries).isSome ↔
      (Wavelet.addEdges child ⟨g.slots, l⟩ entries').isSome := by
    rw [addEdges_isSome_iff, addEdges_isSome_iff]
    simp only [perm.mem_iff]
    rfl
  cases h : Wavelet.addEdges child g entries with
  | none =>
    cases h' : Wavelet.addEdges child ⟨g.slots, l⟩ entries' with
    | none => exact .none
    | some g'' =>
      rw [h, h'] at alike
      cases alike.mpr rfl
  | some g' =>
    cases h' : Wavelet.addEdges child ⟨g.slots, l⟩ entries' with
    | none =>
      rw [h, h'] at alike
      cases alike.mp rfl
    | some g'' =>
      have slots : g''.slots = g'.slots := by rw [(addEdges_some h).1, (addEdges_some h').1]
      have same : Graph.mk g'.slots g''.edgeList = g'' := by rw [← slots]
      refine .some ⟨g''.edgeList, fun i => ?_, same.symm⟩
      rw [same, (edges_addEdges h' i).1, (edges_addEdges h' i).2, (edges_addEdges h i).1,
        (edges_addEdges h i).2,
        perm.countP_eq, perm.countP_eq, (agrees i).1, (agrees i).2]
      exact ⟨rfl, rfl⟩

/-! ## Spellings -/

section Strongest

variable {α β : Type} [DecidableEq α] [DecidableEq β]

theorem strongest_of_said {calls calls' : List (α × Relationship)} {a : α}
    (trigger : (a, .trigger) ∈ calls ↔ (a, .trigger) ∈ calls')
    (said : (∃ r, (a, r) ∈ calls) ↔ ∃ r, (a, r) ∈ calls') :
    strongest calls a = strongest calls' a := by
  by_cases triggered : (a, .trigger) ∈ calls
  · have triggered' := trigger.mp triggered
    simp [strongest, triggered, triggered']
  · have quiet : (a, .trigger) ∉ calls' := fun triggered' => triggered (trigger.mpr triggered')
    have observed : (a, .observe) ∈ calls ↔ (a, .observe) ∈ calls' := by
      constructor
      · intro observe
        obtain ⟨r, member⟩ := said.mp ⟨_, observe⟩
        cases r with
        | trigger => exact absurd member quiet
        | observe => exact member
      · intro observe
        obtain ⟨r, member⟩ := said.mpr ⟨_, observe⟩
        cases r with
        | trigger => exact absurd member triggered
        | observe => exact member
    simp [strongest, triggered, quiet, observed]

theorem said_of_strongest {calls calls' : List (α × Relationship)} {a : α}
    (same : strongest calls a = strongest calls' a) (said : ∃ r, (a, r) ∈ calls) : ∃ r, (a, r) ∈ calls' := by
  obtain ⟨r, member⟩ := said
  by_contra unsaid
  have none := strongest_eq_none_iff.mpr fun r' member' => unsaid ⟨r', member'⟩
  rw [← same] at none
  exact strongest_eq_none_iff.mp none r member

theorem said_iff {calls calls' : List (α × Relationship)}
    (same : ∀ a, strongest calls a = strongest calls' a) (a : α) :
    (∃ r, (a, r) ∈ calls) ↔ ∃ r, (a, r) ∈ calls' :=
  ⟨said_of_strongest (same a), said_of_strongest (same a).symm⟩

theorem triggered_iff {calls calls' : List (α × Relationship)}
    (same : ∀ a, strongest calls a = strongest calls' a) (a : α) :
    (a, .trigger) ∈ calls ↔ (a, .trigger) ∈ calls' := by
  have strong : ∀ calls : List (α × Relationship), (a, .trigger) ∈ calls ↔
      strongest calls a = some .trigger := by
    intro calls
    rw [strongest_eq_some_iff]
    exact ⟨fun member => ⟨member, fun _ => rfl⟩, fun h => h.1⟩
  rw [strong, strong, same]

/-- If the strongest relationship of every name is the same, so is that of every place. -/
theorem strongest_places {f : α → β} {calls calls' : List (α × Relationship)}
    (same : ∀ a, strongest calls a = strongest calls' a) (b : β) :
    strongest (calls.map fun call => (f call.1, call.2)) b =
      strongest (calls'.map fun call => (f call.1, call.2)) b := by
  apply strongest_of_said
  · simp only [List.mem_map, Prod.mk.injEq]
    constructor
    · rintro ⟨⟨a, r⟩, member, rfl, rfl⟩
      exact ⟨_, (triggered_iff same a).mp member, rfl, rfl⟩
    · rintro ⟨⟨a, r⟩, member, rfl, rfl⟩
      exact ⟨_, (triggered_iff same a).mpr member, rfl, rfl⟩
  · simp only [List.mem_map, Prod.mk.injEq]
    constructor
    · rintro ⟨r, ⟨a, r'⟩, member, rfl, rfl⟩
      obtain ⟨r, member'⟩ := (said_iff same a).mp ⟨_, member⟩
      exact ⟨r, _, member', rfl, rfl⟩
    · rintro ⟨r, ⟨a, r'⟩, member, rfl, rfl⟩
      obtain ⟨r, member'⟩ := (said_iff same a).mpr ⟨_, member⟩
      exact ⟨r, _, member', rfl, rfl⟩

end Strongest

/-- Two maps that stand for the same are the same up to the order of their entries. -/
theorem Stands.perm {calls calls' ps ps' : List ParentEntry} (stands : Stands calls ps)
    (stands' : Stands calls' ps') (same : ∀ place, strongest calls place = strongest calls' place) :
    ps.Perm ps' := by
  rw [List.perm_ext_iff_of_nodup (.of_map _ stands.distinct) (.of_map _ stands'.distinct)]
  rintro ⟨place, r⟩
  rw [stands.entries, stands'.entries, same]

/-- The depth depends on the set of the parents' depths. -/
theorem childDepth_perm {ps ps' : List ParentEntry} (perm : ps.Perm ps') :
    childDepth ps = childDepth ps' := by
  have depths := perm.map (·.1.2)
  have same : (ps.map (·.1.2)).max? = (ps'.map (·.1.2)).max? := by
    apply Option.ext
    intro d
    rw [List.max?_eq_some_iff, List.max?_eq_some_iff]
    simp only [depths.mem_iff]
  rw [childDepth_eq, childDepth_eq, same]

/-- Two configurations of a builder that declare the same. -/
structure BuildArgs.Respelled (a b : BuildArgs) : Prop where
  index : a.index = b.index
  strongest : ∀ p, strongest a.relationships p = Wavelet.strongest b.relationships p
  captures : a.captures = b.captures
  data : a.data = b.data
  spawned : a.spawned = b.spawned
  allowPanic : a.allowPanic = b.allowPanic

/-! ## A new node -/

namespace Executor

variable {W : Type}

/-- The node that a builder has made, by what was declared to it: it lies right below its
deepest parent, and it has one edge from each parent, with the strongest relationship. -/
structure Joined (ex : Executor W) (args : BuildArgs) (ex' : Executor W) : Prop where
  below : ∀ kr ∈ args.relationships, (ex.inner kr.1).depth < (ex'.inner ex.inners.length).depth
  next : (args.relationships = [] ∧ (ex'.inner ex.inners.length).depth = 0) ∨
    ∃ kr ∈ args.relationships, (ex'.inner ex.inners.length).depth = (ex.inner kr.1).depth + 1
  edges : ∀ p, ex.Present p →
    (ex'.graph.edgeList.filter fun e => e.parent = (ex.inner p).index ∧ e.child = args.index) =
      (strongest args.relationships p).toList.map fun r => ⟨(ex.inner p).index, args.index, r⟩
  parents : ∀ e ∈ ex'.graph.edgeList, e.child = args.index →
    ∃ kr ∈ args.relationships, e.parent = (ex.inner kr.1).index

/-- A list without repetitions whose members are all `a`. -/
theorem eq_toList {α : Type} {l : List α} {o : Option α} (distinct : l.Nodup)
    (members : ∀ a, a ∈ l ↔ o = some a) :
    l = o.toList := by
  cases o with
  | none =>
    cases l with
    | nil => rfl
    | cons a rest => cases (members a).mp List.mem_cons_self
  | some a =>
    apply List.perm_singleton.mp
    rw [List.perm_ext_iff_of_nodup distinct (List.nodup_singleton a)]
    intro b
    rw [members, List.mem_singleton]
    exact ⟨fun same => (Option.some.inj same).symm, fun same => congrArg some same.symm⟩

theorem build_joined {args : BuildArgs} {ex ex' : Executor W} (sound : ex.Sound)
    (present : ∀ kr ∈ args.relationships, ex.Present kr.1) (h : ex.build args = .ok ex') :
    ex.Joined args ex' := by
  obtain ⟨depth, graph, handles, vacant, deep, edges, rfl, -⟩ := build_ok h
  have inner : (ex.inners ++ [(⟨args.index, depth, 0⟩ : NodeInner)]).getD ex.inners.length .uninitialized =
      ⟨args.index, depth, 0⟩ := by
    simp
  have deeper : ({ ex.insertNode args depth graph with handles := handles }.inner ex.inners.length).depth =
      depth :=
    congrArg NodeInner.depth inner
  have stands := ex.parents_stand args
  have told : ∀ kr ∈ args.relationships, ∃ r, (ex.place kr.1, r) ∈ ex.parents args := by
    intro kr declared
    obtain ⟨r, strong⟩ : ∃ r, strongest args.relationships kr.1 = some r := by
      cases strong : strongest args.relationships kr.1 with
      | none => exact absurd declared (strongest_eq_none_iff.mp strong kr.2)
      | some r => exact ⟨r, rfl⟩
    exact ⟨r, (mem_parents_iff present (present kr declared) r).mpr strong⟩
  have noEdge : ∀ e ∈ ex.graph.edgeList, e.child ≠ args.index := by
    intro e member same
    obtain ⟨c, child⟩ := (ends_of_linked sound.linked member).2
    rw [same, keyAt, vacant] at child
    cases child
  have list := addEdges_edgeList edges
  constructor
  case below =>
    intro kr declared
    obtain ⟨r, entry⟩ := told kr declared
    rw [deeper]
    exact lt_of_childDepth deep entry
  case next =>
    rw [deeper]
    rcases childDepth_cases deep with ⟨empty, zero⟩ | ⟨⟨entry, member, right⟩, -⟩
    · refine .inl ⟨?_, zero⟩
      cases shape : args.relationships with
      | nil => rfl
      | cons kr rest =>
        obtain ⟨r, entry⟩ := told kr (shape ▸ List.mem_cons_self)
        rw [empty] at entry
        cases entry
    · obtain ⟨kr, declared, same⟩ := mem_parents member
      exact .inr ⟨kr, declared, by rw [right, same]⟩
  case edges =>
    intro p there
    have distinct : (args.order.order (ex.parents args)).Nodup :=
      (args.order.perm _).nodup_iff.mpr (.of_map _ stands.distinct)
    -- the entry of `p` is the only one with its index
    have named : (args.order.order (ex.parents args)).filter (fun entry => entry.1.1 = (ex.inner p).index) =
        ((strongest args.relationships p).map fun r => (ex.place p, r)).toList := by
      apply eq_toList (distinct.filter _)
      intro entry
      rw [List.mem_filter, (args.order.perm _).mem_iff, decide_eq_true_eq, Option.map_eq_some_iff]
      constructor
      · rintro ⟨member, here⟩
        obtain ⟨kr, declared, same⟩ := mem_parents member
        have key := key_of_place (present kr declared) there (by rw [← here, same])
        have place : entry.1 = ex.place p := by rw [same, key]; rfl
        refine ⟨entry.2, (mem_parents_iff present there _).mp ?_, ?_⟩
        · rw [← place]
          exact member
        · rw [← place]
      · rintro ⟨r, strong, rfl⟩
        exact ⟨(mem_parents_iff present there r).mpr strong, rfl⟩
    have old : ex.graph.edgeList.filter (fun e => e.parent = (ex.inner p).index ∧
        e.child = args.index) = [] := by
      rw [List.filter_eq_nil_iff]
      intro e member both
      exact noEdge e member (of_decide_eq_true both).2
    have new :
        ((args.order.order (ex.parents args)).map fun entry => (⟨entry.1.1, args.index, entry.2⟩ : Edge)).filter
        (fun e => e.parent = (ex.inner p).index ∧ e.child = args.index) =
          (strongest args.relationships p).toList.map fun r => ⟨(ex.inner p).index, args.index, r⟩ := by
      rw [List.filter_map]
      have same : ((fun e : Edge => decide (e.parent = (ex.inner p).index ∧ e.child = args.index)) ∘
          fun entry : ParentEntry => (⟨entry.1.1, args.index, entry.2⟩ : Edge)) =
            fun entry => decide (entry.1.1 = (ex.inner p).index) := by
        funext entry
        simp
      rw [same, named]
      cases strongest args.relationships p <;> rfl
    show graph.edgeList.filter _ = _
    rw [list]
    show List.filter _ (_ ++ ex.graph.edgeList) = _
    rw [List.filter_append, old, List.append_nil, List.filter_reverse, new]
    cases strongest args.relationships p <;> rfl
  case parents =>
    intro e member child
    replace member : e ∈ graph.edgeList := member
    rw [list, List.mem_append, List.mem_reverse] at member
    rcases member with new | old
    · obtain ⟨entry, inside, rfl⟩ := List.mem_map.mp new
      obtain ⟨kr, declared, same⟩ := mem_parents ((args.order.perm _).mem_iff.mp inside)
      exact ⟨kr, declared, congrArg Prod.fst same⟩
    · exact absurd child (noEdge e old)

end Executor
end Wavelet
