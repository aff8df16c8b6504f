import Wavelet.Cycle.Books
import Wavelet.Lib.Wiring
import Wavelet.Wsnl.Construct

/-!
# Logic nodes

`and_node_with_bootstrap`, `or_node_with_bootstrap` and `xor_node_with_bootstrap` of
`logic.rs`: nodes that hold a Boolean operation of the data of two others, and broadcast when
it changes. If such a node runs in a cycle it takes the value of its operation. It runs if an
input of it broadcasts, and for the yield of its `on_init`.
-/

namespace Wavelet

variable {W : Type}

/-- A logic node: its handle, its operation and the handles of its inputs. -/
abbrev LogicNode (W : Type) := Gate (Node W Bool) Bool

namespace LogicNode

def key (g : LogicNode W) : Key := g.output.key

def relationships (g : LogicNode W) : List (Key × Relationship) := [g.left.triggers, g.right.triggers]

def args (g : LogicNode W) (index : NodeIndex) (order : HashOrder) : BuildArgs where
  index := index
  relationships := g.relationships
  order := order
  captures := [g.left.key, g.right.key]

/-- The cycle function of a logic node. -/
def cycle (g : LogicNode W) (ex : Executor W) (_ : ExecutionContext) : List (Effect W) × Outcome :=
  let newValue := g.op (g.left.borrow ex.world) (g.right.borrow ex.world)
  let isDifferent := newValue ^^ g.output.borrow ex.world
  ([.handle (.update (g.output.data.put newValue))], .ret (Control.from isDifferent))

/-- The node starts with `false`, and `on_init` yields. -/
def withBootstrap (g : LogicNode W) (index : NodeIndex) (order : HashOrder) : List (ExecOp W) :=
  construct (g.output.data.put false) (g.args index order) ++ [.driver (.yieldNow (.raw index))]

/-- It holds the value of the operation. -/
def Settled (g : LogicNode W) (w : W) : Prop := g.Agrees fun n => n.borrow w

instance (g : LogicNode W) (w : W) : Decidable (g.Settled w) := inferInstanceAs (Decidable (_ = _))

end LogicNode

/-- The node that `and_node_with_bootstrap` makes. -/
def andNode (output left right : Node W Bool) : LogicNode W := ⟨(· && ·), left, right, output⟩

/-- The node that `or_node_with_bootstrap` makes. -/
def orNode (output left right : Node W Bool) : LogicNode W := ⟨(· || ·), left, right, output⟩

/-- The node that `xor_node_with_bootstrap` makes. -/
def xorNode (output left right : Node W Bool) : LogicNode W := ⟨(· ^^ ·), left, right, output⟩

/-- Node `g` of the program is a logic node, and the data of it and of its inputs is their
own. -/
structure Program.Runs (prog : Program W) (g : LogicNode W) : Prop where
  runs : ∀ ex ctx, prog.cycleFn ex ctx g.key = g.cycle ex ctx
  output : prog.Encloses g.output
  left : prog.Encloses g.left
  right : prog.Encloses g.right

namespace Executor

variable {prog : Program W} {now : CycleTime} {g : LogicNode W}

/-! ## What a cycle does to a logic node -/

/-- One run, when the inputs have their last values: the cycle function is called or it is not. -/
def Recomputes (value : Bool) (before : Bool) (verdict : Verdict) (after : Bool) : Prop :=
  (verdict = .poisoned ∨ verdict = .noHandle) ∧ after = before ∨
  verdict = .returned (Control.from (value ^^ before)) ∧ after = value

theorem from_xor_eq_broadcast {a b : Bool} : Control.from (a ^^ b) = .broadcast ↔ a ≠ b := by
  cases a <;> cases b <;> simp [Control.from]

/-- Over the runs of a cycle a logic node is not called, or it takes the new value and
broadcasts if that is another. -/
theorem recomputes_trail {value start last : Bool} {verdicts : List Verdict}
    (trail : Steps.Trail (Recomputes value) start verdicts last) :
    (last = start ∧ ∀ control, .returned control ∉ verdicts) ∨ last = value ∧
      (.returned .broadcast ∈ verdicts ↔ value ≠ start) := by
  refine trail.inv (p := fun verdicts last => (last = start ∧ ∀ control, .returned control ∉ verdicts) ∨
    last = value ∧ (.returned .broadcast ∈ verdicts ↔ value ≠ start)) (.inl ⟨rfl, fun _ no => by cases no⟩) ?_
  rintro verdicts before verdict after (⟨skipped, rfl⟩ | ⟨rfl, rfl⟩) past
  · have other : ∀ control, .returned control ≠ verdict := by
      rintro control rfl
      simp at skipped
    rcases past with ⟨same, none⟩ | ⟨taken, speaks⟩
    · refine .inl ⟨same, fun control member => ?_⟩
      rcases List.mem_cons.mp member with here | old
      · exact other control here
      · exact none control old
    · exact .inr ⟨taken, by rw [List.mem_cons, or_iff_right (other _), speaks]⟩
  · right
    refine ⟨rfl, ?_⟩
    rw [List.mem_cons, Verdict.returned.injEq, eq_comm, from_xor_eq_broadcast]
    rcases past with ⟨rfl, none⟩ | ⟨rfl, speaks⟩
    · exact or_iff_left (none _)
    · rw [speaks]
      simp

theorem Course.recomputes {seeded : Prop} {polled final : Executor W}
    (course : Course prog now g.relationships g.key seeded polled final) (code : prog.Runs g) :
    Steps.Trail (Recomputes (g.value fun n => n.borrow final.world)) (g.output.borrow polled.world)
      (final.verdicts g.key)
      (g.output.borrow final.world) := by
  have plain : ∀ s ctx, ∀ effect ∈ (prog.cycleFn s ctx g.key).1, ∃ f, effect = .handle (.update f) := by
    intro s ctx effect member
    rw [code.runs] at member
    exact ⟨_, List.mem_singleton.mp member⟩
  refine course.trail code.output course.turns .refl (course.unpanicked plain fun s ctx => ?_)
    (fun a verdict skipped => .inl ⟨skipped, rfl⟩) fun s i control sees answers =>
    ⟨fun effect member => ?_, ?_⟩
  · rw [code.runs]
    exact fun no => by cases no
  · obtain ⟨f, rfl⟩ := plain _ _ effect member
    trivial
  · have left : g.left.borrow s.world = g.left.borrow final.world :=
      sees.data g.left.triggers (by simp [LogicNode.relationships]) _ code.left
    have right : g.right.borrow s.world = g.right.borrow final.world :=
      sees.data g.right.triggers (by simp [LogicNode.relationships]) _ code.right
    rw [code.runs] at answers ⊢
    right
    cases answers
    rw [Gate.value, ← left, ← right]
    exact ⟨rfl, g.output.data.get_put _ _⟩

section Pass

variable {fuel : Nat} {input : CycleInput} {ex last swept : Executor W}

theorem Pass.recomputes (pass : Pass prog fuel input ex last swept) (idle : ex.Idle)
    (few : ex.cycles + 1 < 2 ^ 64) (manuals : last.All Event.ManualPresent)
    (lineage : Lineage g.relationships g.key ex) (code : prog.Runs g) :
    (g.output.borrow last.world = g.output.borrow ex.world ∧
      ∀ control, .returned control ∉ last.verdicts g.key) ∨
      g.Settled last.world ∧ (last.HasBroadcast g.key ↔
      g.output.borrow last.world ≠ g.output.borrow ex.world) := by
  obtain ⟨now, polled, final, s, polls, same, turns, -, courses⟩ := pass.courses idle few manuals
  have world : polled.world = ex.world := (world_poll polls).trans rfl
  by_cases present : ex.Present g.key
  · have course := courses _ _ lineage present
    have trail := course.recomputes code
    rw [world] at trail
    subst same
    rw [hasBroadcast_iff]
    rcases recomputes_trail trail with idles | ⟨taken, speaks⟩
    · exact .inl idles
    · right
      refine ⟨taken, ?_⟩
      show .returned .broadcast ∈ final.verdicts g.key ↔ g.output.borrow final.world ≠ _
      rw [taken]
      exact speaks
  · -- a node that is not in the graph does not run
    have others : ∀ run ∈ last.runs, run.node ≠ g.key := by
      intro run member own
      obtain ⟨here, index⟩ := pass.present_of_run idle member
      apply present
      rw [Present, ← own, index, here]
    left
    constructor
    · obtain ⟨later, runs⟩ := Turns.runs turns
      subst same
      rw [← world]
      show g.output.data.get final.world = _
      refine Turns.spares turns code.output runs fun run member => others run ?_
      show run ∈ final.runs
      rw [runs]
      exact List.mem_append_left _ member
    · intro control member
      obtain ⟨run, listed, -⟩ := List.mem_map.mp member
      obtain ⟨ran, own⟩ := List.mem_filter.mp listed
      exact others run ran (by simpa using own)

/-- A logic node broadcasts when its data change and only then, in the graph or not. -/
theorem Pass.speaks (pass : Pass prog fuel input ex last swept) (idle : ex.Idle)
    (few : ex.cycles + 1 < 2 ^ 64) (manuals : last.All Event.ManualPresent)
    (lineage : Lineage g.relationships g.key ex) (code : prog.Runs g) :
    last.HasBroadcast g.key ↔ g.output.borrow last.world ≠ g.output.borrow ex.world := by
  rcases pass.recomputes idle few manuals lineage code with ⟨same, silent⟩ | ⟨-, speaks⟩
  · rw [hasBroadcast_iff]
    exact iff_of_false (silent _) (not_not_intro same)
  · exact speaks

/-- A yield of the node's `on_init` is queued. -/
def Waiting (g : LogicNode W) (ex : Executor W) : Prop :=
  (ex.inner g.key).index ∈ ex.eventDriver.yieldDriver.map (·.index)

/-- A logic node that is not swept ends a cycle settled, if it was so before or is run for the
first time. -/
theorem Pass.settles_logic (pass : Pass prog fuel input ex last swept) (idle : ex.Idle)
    (few : ex.cycles + 1 < 2 ^ 64) (manuals : last.All Event.ManualPresent)
    (lineage : Lineage g.relationships g.key ex) (code : prog.Runs g)
    (left : Announces g.left ex last) (right : Announces g.right ex last) (survives : swept.Present g.key)
    (before : Waiting g ex ∨ g.Settled ex.world) :
    g.Settled last.world := by
  rcases pass.recomputes idle few manuals lineage code with ⟨same, silent⟩ | ⟨settled, -⟩
  · obtain ⟨now, polled, final, s, polls, rfl, course⟩ :=
      pass.course idle few manuals lineage (pass.present idle lineage.built survives)
    have unswept := pass.unswept idle lineage.built survives
    -- a run would have been a call
    have quiet : ¬ ∃ run ∈ final.runs, run.node = g.key := by
      rintro ⟨run, member, own⟩
      have listed : run.verdict ∈ final.verdicts g.key :=
        List.mem_map_of_mem (List.mem_filter.mpr ⟨member, by simpa using own⟩)
      rcases course.control_of_run member (unswept run member own) with unchanged | broadcast
      · rw [unchanged] at listed
        exact silent _ listed
      · rw [broadcast] at listed
        exact silent _ listed
    have still : ∀ n : Node W Bool, n.triggers ∈ g.relationships →
        Announces n ex { final with scheduler := s } →
        n.borrow final.world = n.borrow ex.world := by
      intro n listed announces
      by_contra changed
      exact quiet (course.runs_of_broadcast listed (announces changed))
    rcases before with waiting | settled
    · have top : polled.scheduler.currDepth = 0 := (Steady.of_poll polls).currDepth.trans idle.atRest.top
      refine absurd (course.runs_of_seed ?_ top) quiet
      simp only [seeds, internalSeeds, List.map_append, List.mem_append]
      exact .inl (.inl (.inr waiting))
    · have first := still g.left (by simp [LogicNode.relationships]) left
      have second := still g.right (by simp [LogicNode.relationships]) right
      show g.output.borrow final.world = g.op (g.left.borrow final.world) (g.right.borrow final.world)
      rw [first, second, same]
      exact settled
  · exact settled

end Pass

/-! ## What is left alone between cycles -/

/-- Dropping handles does not touch the queued yields. -/
theorem yieldDriver_applyHandleOp {dropHandle : Executor W → Owner → Key → Executor W}
    (drops : ∀ s o k, (dropHandle s o k).eventDriver.yieldDriver = s.eventDriver.yieldDriver)
    (ex : Executor W) (op : HandleOp W) :
    (applyHandleOp dropHandle ex op).eventDriver.yieldDriver = ex.eventDriver.yieldDriver := by
  cases op with
  | update f => rfl
  | clone k o =>
    rw [applyHandleOp, cloneHandle]
    split
    · rfl
    · rfl
  | drop k o =>
    cases o with
    | running => rfl
    | graph j => rfl
    | _ => exact drops ex _ k
  | markForSweep t => rfl
  | notify t =>
    rw [applyHandleOp, notify, wake, pushNotification]
    dsimp only
    split
    · rfl
    · rfl

theorem yieldDriver_dropHandleWith (depth : Nat) (ex : Executor W) (o : Owner) (k : Key) :
    (dropHandleWith prog depth ex o k).eventDriver.yieldDriver = ex.eventDriver.yieldDriver := by
  induction depth generalizing ex o k with
  | zero => rfl
  | succ depth ih =>
    rw [dropHandleWith]
    split
    · dsimp only
      split
      · rfl
      · refine Steps.foldl_inv (p := fun s : Executor W => s.eventDriver.yieldDriver =
            ex.eventDriver.yieldDriver)
          (fun s j _ same => (ih s _ j).trans same) ?_
        exact Steps.foldl_inv (p := fun s : Executor W => s.eventDriver.yieldDriver =
            ex.eventDriver.yieldDriver)
          (fun s op _ same => (yieldDriver_applyHandleOp ih s op).trans same) rfl
    · rfl

theorem yieldDriver_dropHandle (ex : Executor W) (o : Owner) (k : Key) :
    (ex.dropHandle prog o k).eventDriver.yieldDriver = ex.eventDriver.yieldDriver :=
  yieldDriver_dropHandleWith ..

theorem yieldDriver_dropOwner (ex : Executor W) (o : Owner) :
    (ex.dropOwner prog o).eventDriver.yieldDriver = ex.eventDriver.yieldDriver :=
  Steps.foldl_inv (p := fun s : Executor W => s.eventDriver.yieldDriver = ex.eventDriver.yieldDriver)
    (fun s k _ same => (yieldDriver_dropHandle s o k).trans same) rfl

/-- Between cycles no yield is taken out. -/
theorem yieldDriver_execOp {op : ExecOp W} {ex ex' : Executor W} (h : ex.execOp prog op = .ok ex') :
    ex.eventDriver.yieldDriver <+: ex'.eventDriver.yieldDriver := by
  cases op with
  | handle op =>
    cases h
    show _ <+: (applyHandleOp (dropHandle prog) ex op).eventDriver.yieldDriver
    rw [yieldDriver_applyHandleOp yieldDriver_dropHandle]
  | driver op =>
    simp only [execOp] at h
    split at h
    · rename_i next applied
      cases h
      cases op with
      | yieldNow t => cases applied; exact List.prefix_append ..
      | registerTimer t when =>
        obtain ⟨timer, -, rfl⟩ := Option.map_eq_some_iff.mp applied; exact List.prefix_refl _
      | deregisterTimer source =>
        obtain ⟨timer, -, rfl⟩ := Option.map_eq_some_iff.mp applied; exact List.prefix_refl _
      | registerIo t token =>
        obtain ⟨io, -, rfl⟩ := Option.map_eq_some_iff.mp applied; split <;> exact List.prefix_refl _
      | deregisterIo token =>
        obtain ⟨io, -, rfl⟩ := Option.map_eq_some_iff.mp applied; exact List.prefix_refl _
    · cases h
  | build args =>
    obtain ⟨depth, graph, handles, -, -, -, rfl, -⟩ := build_ok h
    exact List.prefix_refl _

theorem yieldDriver_execOps {ops : List (ExecOp W)} {ex ex' : Executor W}
    (h : ex.execOps prog ops = .ok ex') :
    ex.eventDriver.yieldDriver <+: ex'.eventDriver.yieldDriver :=
  Steps.foldlM_inv (p := fun s : Executor W => ex.eventDriver.yieldDriver <+: s.eventDriver.yieldDriver)
    (fun _ _ _ _ applied grown => grown.trans (yieldDriver_execOp applied)) h (List.prefix_refl _)

/-- Only a builder makes a node. -/
theorem nodes_execOp {op : ExecOp W} {ex ex' : Executor W} (h : ex.execOp prog op = .ok ex') :
    ex'.inners.length = ex.inners.length ∨ (∃ args, op = .build args) ∧
      ex'.inners.length = ex.inners.length + 1 := by
  cases op with
  | handle op =>
    cases h
    exact .inl (congrArg _ (inners_of_handleRun (handleOp_run prog ex op)))
  | driver op =>
    simp only [execOp] at h
    split at h
    · rename_i next applied
      cases h
      exact .inl (congrArg _ (inners_driverOp applied))
    · cases h
  | build args =>
    obtain ⟨depth, graph, handles, -, -, -, rfl, -⟩ := build_ok h
    exact .inr ⟨⟨args, rfl⟩, List.length_append⟩

theorem Constructed.nodes {init : W → W} {args : BuildArgs} {c : Key} {before ex : Executor W}
    (made : Constructed prog init args c before ex) : ex.inners.length = c + 1 := by
  have built := made.built
  rw [construct, execOps, List.foldlM_cons] at built
  obtain ⟨set, first, rest⟩ := Steps.bind_ok' built
  cases first
  rw [List.foldlM_cons] at rest
  obtain ⟨mid, builds, moves⟩ := Steps.bind_ok' rest
  obtain ⟨depth, graph, handles, -, -, -, rfl, -⟩ := build_ok builds
  refine Steps.foldlM_inv (p := fun s : Executor W => s.inners.length = c + 1)
    (fun s op s' member applied same => ?_) moves ?_
  · rcases nodes_execOp applied with kept | ⟨⟨args, rfl⟩, -⟩
    · exact kept.trans same
    · simp at member
  · rw [← made.next]
    exact List.length_append

theorem Turns.nodes {a b : Executor W} (turns : Turns prog now a b) : b.inners.length = a.inners.length := by
  induction turns with
  | refl => rfl
  | tail _ step ih =>
    obtain ⟨run, ran, turn⟩ := turnOf_again step
    obtain ⟨s, -, cycled⟩ := turn.cycled
    rw [inners_handleControl turn.handled, ← ih]
    exact (frame_of_run (graphCycle_run prog cycled)).nodes

/-- No node is built in a cycle before its deferred subgraphs. -/
theorem Pass.nodes_eq {fuel : Nat} {input : CycleInput} {ex last swept : Executor W}
    (pass : Pass prog fuel input ex last swept) :
    swept.inners.length = ex.inners.length := by
  obtain ⟨now, polled, final, s, polls, turns, -, rfl⟩ := pass.loop
  rw [inners_sweepLoop pass.sweeps]
  have begun : polled.inners = ex.inners := (inners_poll polls).trans rfl
  rw [← begun]
  show final.inners.length = _
  exact Turns.nodes turns

end Executor
end Wavelet
