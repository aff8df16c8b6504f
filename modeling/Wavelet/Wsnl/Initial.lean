import Wavelet.Wsnl.Network

/-!
# Logic nodes with an initial value

`and_node_with_init`, `or_node_with_init` and `xor_node_with_init` of `logic.rs`, and the three
functions that call them with `false`. Nothing makes such a node run after it was built. So it
goes on holding its initial value, whatever its inputs are, until one of them broadcasts; from
then on it holds the value of its operation.
-/

namespace Wavelet

variable {W : Type}

def LogicNode.withInit (g : LogicNode W) (init : Bool) (index : NodeIndex) (order : HashOrder) :
    List (ExecOp W) :=
  construct (g.output.data.put init) (g.args index order)

section Constructors

variable (output left right : Node W Bool) (init : Bool) (index : NodeIndex) (order : HashOrder)

def andNodeWithInit : List (ExecOp W) := (andNode output left right).withInit init index order

def orNodeWithInit : List (ExecOp W) := (orNode output left right).withInit init index order

def xorNodeWithInit : List (ExecOp W) := (xorNode output left right).withInit init index order

/-- The function `and_node`. -/
def makeAndNode : List (ExecOp W) := andNodeWithInit output left right false index order

/-- The function `or_node`. -/
def makeOrNode : List (ExecOp W) := orNodeWithInit output left right false index order

/-- The function `xor_node`. -/
def makeXorNode : List (ExecOp W) := xorNodeWithInit output left right false index order

end Constructors

namespace Executor

/-- Node `k` has run in the current cycle. -/
def HasRun (last : Executor W) (k : Key) : Prop := ∃ run ∈ last.runs, run.node = k

instance (last : Executor W) (k : Key) : Decidable (last.HasRun k) :=
  inferInstanceAs (Decidable (∃ run ∈ last.runs, _))

end Executor

namespace LogicNode

/-- Nobody else changes the node or its inputs, and these announce their changes. -/
def manners (g : LogicNode W) : Manners W where
  legal prog := prog.Runs g
  polite op := op.Leaves g.output.data ∧ op.Leaves g.left.data ∧ op.Leaves g.right.data
  fine _ _ ex last := Executor.Announces g.left ex last ∧ Executor.Announces g.right ex last

/-- The node has just been made with the value `init`. -/
def New (g : LogicNode W) (init : Bool) (ex : Executor W) : Prop :=
  ∃ prog index order before, prog.Runs g ∧
    Executor.Constructed prog (g.output.data.put init) (g.args index order) g.key before ex

/-- The value is turned over with each broadcast. -/
def flips (g : LogicNode W) (init : Bool) (history : List (Executor W)) : Bool :=
  history.foldl (fun value last => if last.HasBroadcast g.key then !value else value) init

/-- What the node holds after the cycles of `history`. -/
structure Shows (g : LogicNode W) (init : Bool) (history : List (Executor W)) (w : W) : Prop where
  rests : (∀ last ∈ history, ¬ last.HasRun g.key) → g.output.borrow w = init
  settled : (∃ last ∈ history, last.HasRun g.key) → g.Settled w
  runs : ∀ last ∈ history, last.HasBroadcast g.left.key ∨ last.HasBroadcast g.right.key → last.HasRun g.key
  flips : g.output.borrow w = g.flips init history

end LogicNode

namespace Executor

variable {prog : Program W} {g : LogicNode W} {init : Bool} {history : List (Executor W)}
  {ex last swept : Executor W}

/-! ## In a cycle -/

/-- A run is a call, as the node is not swept: it takes the value of its operation. If it does not run
no input has broadcast, and all is as before. -/
theorem Pass.runs_or_rests {fuel : Nat} {input : CycleInput}
    (pass : Pass prog fuel input ex last swept) (idle : ex.Idle) (few : ex.cycles + 1 < 2 ^ 64)
    (manuals : last.All Event.ManualPresent) (lineage : Lineage g.relationships g.key ex)
    (code : prog.Runs g) (survives : swept.Present g.key) :
    (last.HasRun g.key → g.Settled last.world) ∧
      (¬ last.HasRun g.key → g.output.borrow last.world = g.output.borrow ex.world ∧
      ¬ last.HasBroadcast g.left.key ∧
        ¬ last.HasBroadcast g.right.key) := by
  obtain ⟨now, polled, final, s, polls, rfl, course⟩ :=
    pass.course idle few manuals lineage (pass.present idle lineage.built survives)
  have unswept := pass.unswept idle lineage.built survives
  constructor
  · rintro ⟨run, member, own⟩
    rcases pass.recomputes idle few manuals lineage code with ⟨-, silent⟩ | ⟨settled, -⟩
    · have listed : run.verdict ∈ final.verdicts g.key :=
        List.mem_map_of_mem (List.mem_filter.mpr ⟨member, by simpa using own⟩)
      rcases course.control_of_run member (unswept run member own) with unchanged | broadcast
      · rw [unchanged] at listed
        exact absurd listed (silent _)
      · rw [broadcast] at listed
        exact absurd listed (silent _)
    · exact settled
  · intro none
    have others : ∀ run ∈ final.runs, run.node ≠ g.key := fun run member own => none ⟨run, member, own⟩
    refine ⟨?_, fun broadcast => none ?_, fun broadcast => none ?_⟩
    · have world : polled.world = ex.world := (world_poll polls).trans rfl
      obtain ⟨later, runs⟩ := Turns.runs course.turns
      rw [← world]
      show g.output.data.get final.world = _
      refine Turns.spares course.turns code.output runs fun run member => others run ?_
      rw [runs]
      exact List.mem_append_left _ member
    · exact course.runs_of_broadcast (p := g.left.key)
        (by simp [LogicNode.relationships, Node.triggers]) broadcast
    · exact course.runs_of_broadcast (p := g.right.key)
        (by simp [LogicNode.relationships, Node.triggers]) broadcast

/-- One more cycle. -/
theorem shows_pass {fuel : Nat} {input : CycleInput} (shows : g.Shows init history ex.world)
    (pass : Pass prog fuel input ex last swept) (idle : ex.Idle) (few : ex.cycles + 1 < 2 ^ 64)
    (manuals : last.All Event.ManualPresent) (lineage : Lineage g.relationships g.key ex)
    (code : prog.Runs g) (left : Announces g.left ex last) (right : Announces g.right ex last)
    (survives : swept.Present g.key) : g.Shows init (history ++ [last]) last.world := by
  obtain ⟨ran, rested⟩ := pass.runs_or_rests idle few manuals lineage code survives
  have speaks := pass.speaks idle few manuals lineage code
  have listed : last ∈ history ++ [last] := List.mem_append_right _ (List.mem_singleton_self _)
  constructor
  case rests =>
    intro none
    rw [(rested (none last listed)).1]
    exact shows.rests fun past member => none past (List.mem_append_left _ member)
  case settled =>
    rintro ⟨past, member, run⟩
    by_cases now : last.HasRun g.key
    · exact ran now
    · rcases List.mem_append.mp member with old | here
      · obtain ⟨same, first, second⟩ := rested now
        -- the inputs have not changed either
        have first' : g.left.borrow last.world = g.left.borrow ex.world := not_imp_comm.mp left first
        have second' : g.right.borrow last.world = g.right.borrow ex.world := not_imp_comm.mp right second
        have settled := shows.settled ⟨past, old, run⟩
        show g.output.borrow last.world = g.op (g.left.borrow last.world) (g.right.borrow last.world)
        rw [same, first', second']
        exact settled
      · rw [List.mem_singleton.mp here] at run
        exact absurd run now
  case runs =>
    intro past member broadcast
    rcases List.mem_append.mp member with old | here
    · exact shows.runs past old broadcast
    · rw [List.mem_singleton.mp here] at broadcast ⊢
      by_contra none
      obtain ⟨-, first, second⟩ := rested none
      exact broadcast.elim first second
  case flips =>
    rw [LogicNode.flips, List.foldl_append, List.foldl_cons, List.foldl_nil]
    show _ = if last.HasBroadcast g.key then !(g.flips init history) else g.flips init history
    rw [← shows.flips]
    split
    · rename_i broadcast
      exact Bool.eq_not.mpr (speaks.mp broadcast)
    · rename_i silent
      exact not_imp_comm.mp speaks.mpr silent

/-! ## Over a life -/

/-- What leaves the node and its inputs alone leaves what it shows. -/
theorem shows_of_same {w w' : W} (same : ((g.output.borrow w', g.left.borrow w'), g.right.borrow w') =
    ((g.output.borrow w, g.left.borrow w), g.right.borrow w)) (shows : g.Shows init history w) :
    g.Shows init history w' := by
  obtain ⟨rests, settled, runs, flips⟩ := shows
  have output : g.output.borrow w' = g.output.borrow w := by
    simp only [Prod.mk.injEq] at same
    exact same.1.1
  rw [← output] at rests flips
  exact ⟨rests, fun ran => settled_of_same same (settled ran), runs, flips⟩

/-- As long as it is in the graph, a logic node holds its initial value until its first run, and from
then on the value of its operation; it runs in each cycle in which an input broadcasts, and its
value has been turned over as often as it has broadcast. -/
theorem with_init_shows (life : Life g.manners (g.New init) history ex) (present : ex.Present g.key)
    (few : ex.cycles < 2 ^ 64) (manuals : ex.All Event.ManualPresent) : g.Shows init history ex.world := by
  have begins : ∀ s, g.New init s → s.Idle ∧ Lineage g.relationships g.key s ∧ g.Shows init [] s.world := by
    rintro s ⟨prog, index, order, before, code, made⟩
    have value := made.world (code.output.drops init) (g.output.data.get_put init before.world)
    exact ⟨made.after, made.lineage, fun _ => value, fun ran => by simp at ran,
      fun _ none => absurd none List.not_mem_nil, value⟩
  refine life.data (p := g.Shows init) (fun _ same => same) begins (fun prog history code => ?_)
    (fun op history polite => ?_)
    (fun prog fuel input history s last swept life code pass fine few manuals survives shows => ?_)
    present few manuals
  · refine Program.DropsKeep.of_left ?_ fun _ _ same shows => shows_of_same same shows
    exact Program.DropsKeep.left_both
      (Program.DropsKeep.left_both code.output.drops code.left.drops) code.right.drops
  · obtain ⟨output, left, right⟩ := polite
    refine ExecOp.keeps_of_left ?_ fun _ _ same shows => shows_of_same same shows
    exact ExecOp.left_both (ExecOp.left_both output left) right
  · obtain ⟨idle, lineage⟩ :=
      life.lineage (fun _ same => same) fun s here => ⟨(begins s here).1, (begins s here).2.1⟩
    exact shows_pass shows pass idle few manuals lineage code fine.1 fine.2 survives

/-- An and-gate over two levers that starts with `true`, though both are off. -/
def onceGates : List (Gate Key Bool) := [⟨(· && ·), 0, 1, 2⟩]

def once : Program Board := wiring onceGates [0, 1]

/-- An idle cycle, then one that moves lever 0. -/
theorem once_shows :
    ∃ before ex last rested moved last' swept, dark.execOps once [.build { index := 0 },
      .build { index := 1 }] = .ok before ∧
      before.execOps once (andNodeWithInit (lamp 2) (lamp 0) (lamp 1) true 2 .insertion) = .ok ex ∧
      Pass once 4 instantly ex last rested ∧ rested.execOp once (.yields 0) = .ok moved ∧
      Pass once 4 .anHourLater moved last' swept ∧ rested.world 2 = true ∧ swept.world 2 = false ∧
      (andNode (lamp 2) (lamp 0) (lamp 1)).Shows true [last, last'] swept.world := by
  obtain ⟨before, ex, last, rested, moved, last', swept, prepared, built, nodes, sweeps, yields,
    nodes', sweeps', length, still, moves, present,
      few, manuals, shown, shown'⟩ :
      ∃ before ex last rested moved last' swept, dark.execOps once [.build { index := 0 },
        .build { index := 1 }] = .ok before ∧
        before.execOps once (andNodeWithInit (lamp 2) (lamp 0) (lamp 1) true 2 .insertion) = .ok ex ∧
        runNodes once 4 instantly ex = .ok (.running, last) ∧ sweepLoop once 4 last = .ok rested ∧
        rested.execOp once (.yields 0) = .ok moved ∧
        runNodes once 4 .anHourLater moved = .ok (.running, last') ∧
        sweepLoop once 4 last' = .ok swept ∧ before.inners.length = 2 ∧
        (∀ k ∈ [0, 1], last.world k = ex.world k ∨ last.HasBroadcast k) ∧
        (∀ k ∈ [0, 1], last'.world k = moved.world k ∨ last'.HasBroadcast k) ∧ swept.Present 2 ∧
        swept.cycles < 2 ^ 64 ∧
        swept.All Event.ManualPresent ∧ rested.world 2 = true ∧ swept.world 2 = false :=
    ⟨_, _, _, _, _, _, _, rfl, rfl, rfl, rfl, rfl, rfl, rfl,
      rfl, by decide, by decide, by decide, by decide, by decide, rfl, rfl⟩
  let g := andNode (lamp 2) (lamp 0) (lamp 1)
  have code : once.Runs g := ⟨fun _ _ => rfl, wiring_encloses .., wiring_encloses .., wiring_encloses ..⟩
  have made : g.New true ex := by
    refine ⟨once, 2, .insertion, before, code, From.ops ⟨[], .start ⟨_, _, _, rfl⟩⟩ prepared,
      length, fun kr declared => ?_, built⟩
    rcases List.mem_cons.mp declared with rfl | second
    · exact Nat.zero_lt_two
    · rw [List.mem_singleton.mp second]
      exact Nat.one_lt_two
  have fine : ∀ {s s' : Executor Board}, (∀ k ∈ [0, 1], s'.world k = s.world k ∨ s'.HasBroadcast k) →
      g.manners.fine once instantly s s' :=
    fun moved => ⟨fun changed => (moved 0 (by simp)).resolve_left changed,
      fun changed => (moved 1 (by simp)).resolve_left changed⟩
  have rests : Life g.manners (g.New true) [last] rested :=
    (Life.start made).pass once 4 instantly code ⟨nodes, sweeps⟩ (fine still)
  have ready := rests.op once (.yields 0) code ⟨fun _ => trivial, fun _ => trivial, fun _ => trivial⟩ yields
  have life := ready.pass once 4 .anHourLater code ⟨nodes', sweeps'⟩ (fine moves)
  exact ⟨before, ex, last, rested, moved, last', swept, prepared, built, ⟨nodes, sweeps⟩, yields,
    ⟨nodes', sweeps'⟩, shown, shown',
    with_init_shows life present few manuals⟩

end Executor
end Wavelet
