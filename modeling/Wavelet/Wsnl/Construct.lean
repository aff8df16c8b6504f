import Mathlib.Data.List.Chain
import Wavelet.Cycle.Reads

/-!
# The constructors of `wsnl`

A constructor takes the handles of its inputs, sets the data of the new node and builds it;
its handles move into the cycle function. From then on the life of the node is a part of the
life of an executor whose programs leave the node's data to it.
-/

namespace Wavelet

variable {W : Type}

/-- `Node<T>`: a handle, and where the data of its node is. -/
structure Node (W α : Type) where
  key : Key
  data : Cell W α

/-- `borrow`. -/
def Node.borrow {α : Type} (n : Node W α) (w : W) : α := n.data.get w

/-- The data of a node is changed by its own cycle function alone. -/
def Program.Encloses {α : Type} (prog : Program W) (n : Node W α) : Prop := prog.Spares n.data n.key

/-- A `triggered_by` of a builder. -/
def Node.triggers {α : Type} (n : Node W α) : Key × Relationship := (n.key, .trigger)

/-- What a constructor does: `init` is the data of the node, the captured handles are given up
by the caller. -/
def construct (init : W → W) (args : BuildArgs) : List (ExecOp W) :=
  .handle (.update init) :: .build args :: args.captures.map fun k => .handle (.drop k .user)

/-- A node that is to run in the next cycle. -/
def ExecOp.yields (k : Key) : ExecOp W := .driver (.yieldNow (.node k))

/-- The clock has moved. -/
def CycleInput.anHourLater : CycleInput := ⟨some 0, ⟨1, 0⟩, ⟨1, 0⟩, none⟩

/-- An operation that leaves the data of a node alone. -/
def ExecOp.Leaves {α : Type} (op : ExecOp W) (cell : Cell W α) : Prop := ∀ v, op.Keeps fun w => cell.get w = v

/-- `other` is no part of the cell. -/
def Cell.Apart {α β : Type} (cell : Cell W α) (other : Cell W β) : Prop :=
  ∀ a w, other.get (cell.put a w) = other.get w

namespace Executor

open Relation

/-- Node `c` has just been made by a constructor, in a state between two cycles or in a
deferred subgraph. -/
structure Built (exits : Exit → Prop) (prog : Program W) (init : W → W) (args : BuildArgs) (c : Key)
    (before ex : Executor W) : Prop where
  lived : before.From exits
  next : before.inners.length = c
  known : ∀ kr ∈ args.relationships, kr.1 < c
  built : before.execOps prog (construct init args) = .ok ex

/-- The same, when every cycle before has returned `Running`. -/
abbrev Constructed (prog : Program W) (init : W → W) (args : BuildArgs) (c : Key)
    (before ex : Executor W) : Prop :=
  Built (· = .running) prog init args c before ex

namespace Built

variable {exits : Exit → Prop} {prog : Program W} {init : W → W} {args : BuildArgs} {c : Key}
  {before ex : Executor W}

theorem steps (made : Built exits prog init args c before ex) :
    ∃ depth graph, before.graph.nodeWeight args.index = none ∧ childDepth (before.parents args) = some depth ∧
      addEdges args.index (before.graph.addNode args.index
      (.new ⟨before.inners.length, args.spawned, args.allowPanic⟩ depth))
        (args.order.order (before.parents args)) = some graph ∧
      Path ({ before with world := init before.world }.insertNode args depth graph) ex := by
  have built := made.built
  rw [construct, execOps, List.foldlM_cons] at built
  obtain ⟨set, first, rest⟩ := Steps.bind_ok' built
  cases first
  rw [List.foldlM_cons] at rest
  obtain ⟨mid, builds, moves⟩ := Steps.bind_ok' rest
  obtain ⟨depth, graph, handles, vacant, deep, edges, rfl, path⟩ := build_ok builds
  refine ⟨depth, graph, vacant, deep, edges, path.trans ?_⟩
  exact Steps.foldlM_steps (fun _ _ _ _ applied => execOp_path prog applied) moves

theorem after (made : Built exits prog init args c before ex) : ex.From exits := made.lived.ops made.built

theorem lineage (made : Built exits prog init args c before ex) : Lineage args.relationships c ex := by
  obtain ⟨depth, graph, -, deep, edges, path⟩ := made.steps
  have known := made.known
  rw [← made.next] at known ⊢
  have placed : ({ before with world := init before.world } : Executor W).InPlace := made.lived.inPlace
  have start := Lineage.start placed known deep edges
  exact path.lineage start

theorem told (made : Built exits prog init args c before ex)
    (present : ∀ kr ∈ args.relationships, before.Present kr.1) :
    Told args.relationships c ex := by
  obtain ⟨depth, graph, vacant, -, edges, path⟩ := made.steps
  have known := made.known
  rw [← made.next] at known ⊢
  have placed : ({ before with world := init before.world } : Executor W).InPlace := made.lived.inPlace
  have start := Told.start placed made.lived.linked vacant present edges
  exact path.told (by show _ < (_ ++ [_]).length; simp) start

theorem only (made : Built exits prog init args c before ex)
    (present : ∀ kr ∈ args.relationships, before.Present kr.1) :
    Only args.relationships c ex :=
  (made.told present).only

/-- The data is as the constructor set it. -/
theorem world (made : Built exits prog init args c before ex) {p : W → Prop} (drops : prog.DropsKeep p)
    (start : p (init before.world)) : p ex.world := by
  have built := made.built
  rw [construct, execOps, List.foldlM_cons] at built
  obtain ⟨set, first, rest⟩ := Steps.bind_ok' built
  cases first
  refine execOps_world drops (fun op member => ?_) rest start
  rcases List.mem_cons.mp member with rfl | moves
  · trivial
  · obtain ⟨k, -, rfl⟩ := List.mem_map.mp moves
    trivial

end Built

/-! ## The life of the node -/

variable {prog : Program W} {manners : Manners W} {start : Executor W → Prop} {history : List (Executor W)}

/-- The data of the node changed in the cycle only if it broadcast. -/
def Announces {α : Type} (n : Node W α) (ex last : Executor W) : Prop :=
  n.borrow last.world ≠ n.borrow ex.world → last.HasBroadcast n.key

theorem Announces.of_same {α : Type} {n : Node W α} {ex last : Executor W}
    (same : last.world = ex.world) : Announces n ex last :=
  fun changed => absurd (congrArg n.borrow same) changed

/-- What a life keeps of a node: its lineage. -/
theorem Life.lineage {exits : Exit → Prop} {rels : List (Key × Relationship)} {c : Key} {ex : Executor W}
    (life : Life manners start history ex) (admits : ∀ exit, manners.exits exit → exits exit)
    (begins : ∀ ex, start ex → ex.From exits ∧ Lineage rels c ex) : ex.From exits ∧ Lineage rels c ex := by
  obtain ⟨first, here, path⟩ := life.path fun ex here => (begins ex here).1.wf
  exact ⟨life.from admits fun ex here => (begins ex here).1, path.lineage (begins first here).2⟩

/-- The rule for what a life of whole cycles says about data, as long as node `c` is in the
graph: the programs' destructors and the operations between cycles leave it alone, and a cycle
makes it true of the cycle as well. -/
theorem Life.data {rels : List (Key × Relationship)} {c : Key} {p : List (Executor W) → W → Prop}
    {ex : Executor W} (life : Life manners start history ex) (running : manners.Running)
    (begins : ∀ ex, start ex → ex.Idle ∧ Lineage rels c ex ∧ p [] ex.world)
    (drops : ∀ prog history, manners.legal prog → prog.DropsKeep (p history))
    (ops : ∀ op history, manners.polite op → op.Keeps (p history))
    (pass : ∀ prog fuel input history ex last swept, Life manners start history ex → manners.legal prog →
      Pass prog fuel input ex last swept → manners.fine prog input ex last → ex.cycles + 1 < 2 ^ 64 →
      last.All Event.ManualPresent → swept.Present c → p history ex.world → p (history ++ [last]) last.world)
    (present : ex.Present c) (few : ex.cycles < 2 ^ 64) (manuals : ex.All Event.ManualPresent) :
    p history ex.world := by
  have knows : ∀ {history ex}, Life manners start history ex → ex.Idle ∧ Lineage rels c ex :=
    fun life => life.lineage running fun ex here => ⟨(begins ex here).1, (begins ex here).2.1⟩
  induction life with
  | start here => exact (begins _ here).2.2
  | @op prog op history ex ex' life legal polite applied ih =>
    have path := execOp_path prog applied
    refine execOp_world (drops prog history legal) (ops op history polite) applied (ih ?_ ?_ ?_)
    · exact path.present (knows life).2.built present
    · exact Nat.lt_of_le_of_lt (Path.cycles_le path) few
    · exact Path.all path manuals
  | opens tickets life ih => exact ih present few manuals
  | @closes prog ticket history ex life legal ih =>
    have path := CodeRun.path (dropOwner_run prog ex (.spawn ticket)).code
    refine dropOwner_world (drops prog history legal) _ (ih ?_ ?_ ?_)
    · exact path.present (knows life).2.built present
    · exact Nat.lt_of_le_of_lt (Path.cycles_le path) few
    · exact Path.all path manuals
  | @pass prog fuel input history ex last swept life legal passes fine ih =>
    obtain ⟨idle, lineage⟩ := knows life
    obtain ⟨first, second⟩ := passes.path idle.atRest.wf
    have fewer := passes.cycles_lt idle.wf few
    have here := pass prog fuel input history ex last swept life legal passes fine fewer
      (Path.all second manuals) present
      (ih (passes.present idle lineage.built present) (by omega) (Path.all (first.trans second) manuals))
    exact sweepLoop_world (drops prog _ legal) passes.sweeps here
  | stopped prog fuel input exit life legal admitted no nodes fine ih =>
    exact absurd (running exit admitted) no

/-- The state in which the last cycle has ended its node loop, or the first one. -/
def latest (first : Executor W) (past : List (Executor W)) : Executor W := past.getLast?.getD first

/-- The rule for what a life says about each of its cycles and those before it: between two
cycles the node's data is left alone. -/
theorem Life.chain {rels : List (Key × Relationship)} {c : Key} {α : Type} {own : Cell W α}
    {r : List (Executor W) → Executor W → Prop} {first ex : Executor W}
    (life : Life manners (· = first) history ex) (lived : first.Lived) (lineage : Lineage rels c first)
    (drops : ∀ prog v, manners.legal prog → prog.DropsKeep fun w => own.get w = v)
    (ops : ∀ op, manners.polite op → op.Leaves own)
    (cycle : ∀ prog fuel input exit past ex last, ex.Lived → Lineage rels c ex → manners.legal prog →
      runNodes prog fuel input ex = .ok (exit, last) → ex.cycles + 1 < 2 ^ 64 → last.All Event.ManualPresent →
      own.get ex.world = own.get (latest first past).world → r past last)
    (few : ex.cycles < 2 ^ 64) (manuals : ex.All Event.ManualPresent) :
    (∀ past last later, history = past ++ last :: later → r past last) ∧
      own.get ex.world = own.get (latest first history).world := by
  have knows : ∀ {history ex}, Life manners (· = first) history ex → ex.Lived ∧ Lineage rels c ex :=
    fun life => life.lineage (fun _ _ => trivial) fun ex here => by
      cases here
      exact ⟨lived, lineage⟩
  have one : ∀ {history : List (Executor W)} {last},
      (∀ past last later, history = past ++ last :: later → r past last) → r history last →
      ∀ past last' later, history ++ [last] = past ++ last' :: later → r past last' := by
    intro history last old new past last' later split
    rcases List.eq_nil_or_concat later with rfl | ⟨later, newest, rfl⟩
    · obtain ⟨rfl, same⟩ := List.append_inj' split rfl
      cases same
      exact new
    · rw [List.concat_eq_append, ← List.cons_append, ← List.append_assoc] at split
      exact old past last' later (List.append_inj' split rfl).1
  induction life with
  | start here =>
    cases here
    exact ⟨fun past last later split => by simp at split, rfl⟩
  | @op prog op history ex ex' life legal polite applied ih =>
    have path := execOp_path prog applied
    obtain ⟨each, same⟩ := ih (Nat.lt_of_le_of_lt (Path.cycles_le path) few) (Path.all path manuals)
    exact ⟨each, execOp_world (drops prog _ legal) (ops op polite _) applied same⟩
  | opens tickets life ih => exact ih few manuals
  | @closes prog ticket history ex life legal ih =>
    have path := CodeRun.path (dropOwner_run prog ex (.spawn ticket)).code
    obtain ⟨each, same⟩ := ih (Nat.lt_of_le_of_lt (Path.cycles_le path) few) (Path.all path manuals)
    exact ⟨each, dropOwner_world (drops prog _ legal) _ same⟩
  | @pass prog fuel input history ex last swept life legal passes _ ih =>
    obtain ⟨lived, lineage⟩ := knows life
    obtain ⟨before, after⟩ := passes.path lived.wf
    have fewer := passes.cycles_lt lived.wf few
    obtain ⟨each, same⟩ := ih (by omega) (Path.all (before.trans after) manuals)
    have new :=
      cycle prog fuel input .running history ex last lived lineage legal passes.nodes fewer
      (Path.all after manuals) same
    refine ⟨one each new, ?_⟩
    rw [latest, List.getLast?_concat]
    exact sweepLoop_world (drops prog _ legal) passes.sweeps rfl
  | @stopped prog fuel input exit history ex ex' life legal _ _ nodes _ ih =>
    obtain ⟨lived, lineage⟩ := knows life
    have path := runNodes_path prog nodes
    have counted := runNodes_counted nodes
    obtain ⟨each, same⟩ := ih (by omega) (Path.all path manuals)
    have new := cycle prog fuel input exit history ex ex' lived lineage legal nodes (by omega) manuals same
    refine ⟨one each new, ?_⟩
    rw [latest, List.getLast?_concat]
    rfl

end Executor
end Wavelet
