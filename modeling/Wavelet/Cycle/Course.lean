import Wavelet.Cleanup.Sweep
import Wavelet.Cycle.Dedup
import Wavelet.Cycle.Mutations
import Wavelet.Runtime.Lineage

/-!
# The course of a node loop

A node loop that runs to its end is a list of turns, one for each run. What a node reads in
its turn is what the earlier turns have left, and as the runs go down the graph, the turns of
its parents are all among them.
-/

namespace Wavelet
namespace Executor

open Relation

variable {W : Type} {prog : Program W} {now : CycleTime}

/-! ## Turns and their runs -/

/-- The turn of one run: the state right after the run, and the state after its consequences. -/
structure TurnOf (prog : Program W) (now : CycleTime) (before : Executor W) (run : Run)
    (ran after : Executor W) : Prop where
  step : nodeStep prog now before = .ok (.again after)
  cycled : ∃ s, before.scheduler.pop = (some run.index, s) ∧
    graphCycle prog now run.index { before with scheduler := s } = .ok (run, ran)
  goesOn : run.verdict.control ≠ .terminate
  handled : handleControl run (ran.recordRun run) = .ok after

theorem turnOf_again {before after : Executor W} (h : nodeStep prog now before = .ok (.again after)) :
    ∃ run ran, TurnOf prog now before run ran after := by
  obtain ⟨i, s, run, ran, popped, cycled, goesOn, handled⟩ := nodeStep_again prog h
  obtain ⟨ctx, -, rfl, -, -⟩ := graphCycle_ok prog cycled
  exact ⟨run, ran, h, ⟨s, popped, cycled⟩, goesOn, handled⟩

namespace TurnOf

variable {before ran after : Executor W} {run : Run}

theorem runs (turn : TurnOf prog now before run ran after) : after.runs = run :: before.runs := by
  obtain ⟨s, -, cycled⟩ := turn.cycled
  rw [(Steady.of_handleControl turn.handled).runs]
  exact congrArg (run :: ·) (frame_of_run (graphCycle_run prog cycled)).runs

theorem epoch (turn : TurnOf prog now before run ran after) : after.epoch = before.epoch := by
  obtain ⟨s, -, cycled⟩ := turn.cycled
  rw [(Steady.of_handleControl turn.handled).epoch]
  exact (frame_of_run (graphCycle_run prog cycled)).epoch

theorem same (turn : TurnOf prog now before run ran after) : before.graph.Same after.graph := by
  obtain ⟨s, -, cycled⟩ := turn.cycled
  have first : before.graph.Same ran.graph := (Steady.of_code (graphCycle_run prog cycled)).graph
  exact first.trans (Steady.of_handleControl turn.handled).graph

theorem occupant (turn : TurnOf prog now before run ran after) : before.keyAt run.index = some run.node := by
  obtain ⟨s, -, cycled⟩ := turn.cycled
  obtain ⟨ctx, there, -, node, -⟩ := graphCycle_ok prog cycled
  replace there : before.graph.nodeWeight run.index = some ctx := there
  rw [keyAt, there, node]
  rfl

theorem world (turn : TurnOf prog now before run ran after) : after.world = ran.world :=
  (world_handleControl turn.handled).trans rfl

/-- The cursor is at the depth of the node that runs. -/
theorem cursor (turn : TurnOf prog now before run ran after) (wf : before.scheduler.WF)
    (queued : before.Queued) :
    ran.scheduler.currDepth = before.graph.depthAt run.index := by
  obtain ⟨s, popped, cycled⟩ := turn.cycled
  have pop := Scheduler.pop_some wf popped
  obtain ⟨fn, core⟩ := queued s.currDepth run.index (by rw [pop.first]; exact List.mem_cons_self)
  rw [Graph.depthAt_of_core core]
  exact (Steady.of_code (graphCycle_run prog cycled)).currDepth

/-- Only the node that runs changes its data. -/
theorem spares {α : Type} {cell : Cell W α} {k : Key} (turn : TurnOf prog now before run ran after)
    (spares : prog.Spares cell k) (other : run.node ≠ k) : cell.get after.world = cell.get before.world := by
  obtain ⟨s, -, cycled⟩ := turn.cycled
  rw [turn.world]
  exact graphCycle_world (p := fun w => cell.get w = cell.get before.world) (spares.drops _) cycled
    (spares.runs _ _ other) rfl

end TurnOf

/-- The node that terminates the loop changes its own data only. -/
theorem LastTurn.spares {α : Type} {cell : Cell W α} {k : Key} {before ran last : Executor W} {run : Run}
    (turn : LastTurn prog now before run ran last) (spares : prog.Spares cell k) (other : run.node ≠ k) :
    cell.get last.world = cell.get before.world := by
  obtain ⟨-, ⟨s, -, cycled⟩, -, rfl⟩ := turn
  show cell.get ran.world = cell.get before.world
  exact graphCycle_world (p := fun w => cell.get w = cell.get before.world) (spares.drops _) cycled
    (spares.runs _ _ other) rfl

theorem Turns.runs {a b : Executor W} (turns : Turns prog now a b) : ∃ later, b.runs = later ++ a.runs := by
  induction turns with
  | refl => exact ⟨[], rfl⟩
  | tail _ step ih =>
    obtain ⟨later, runs⟩ := ih
    obtain ⟨run, ran, turn⟩ := turnOf_again step
    exact ⟨run :: later, by rw [turn.runs, runs]; rfl⟩

/-- The turn of a run that a loop has made. -/
theorem Turns.split {start last : Executor W} (turns : Turns prog now start last)
    (none : start.runs = []) {later earlier : List Run} {run : Run}
    (runs : last.runs = later ++ run :: earlier) :
    ∃ before ran after, Turns prog now start before ∧ before.runs = earlier ∧
      TurnOf prog now before run ran after ∧
      Turns prog now after last := by
  induction turns generalizing later with
  | refl =>
    rw [none] at runs
    simp at runs
  | @tail mid last turns step ih =>
    obtain ⟨latest, ran, turn⟩ := turnOf_again step
    rw [turn.runs] at runs
    cases later with
    | nil =>
      simp only [List.nil_append, List.cons.injEq] at runs
      obtain ⟨rfl, rfl⟩ := runs
      exact ⟨mid, ran, last, turns, rfl, turn, .refl⟩
    | cons first rest =>
      simp only [List.cons_append, List.cons.injEq] at runs
      obtain ⟨before, ran', after, first, earlier, turn', rest⟩ := ih runs.2
      exact ⟨before, ran', after, first, earlier, turn', rest.tail step⟩

/-- Two states that a loop goes through: one comes after the other. -/
theorem Turns.total {a b c : Executor W} (first : Turns prog now a b) (second : Turns prog now a c) :
    Turns prog now b c ∨ Turns prog now c b := by
  refine ReflTransGen.total_of_right_unique (fun s next next' step step' => ?_) first second
  rw [step] at step'
  cases step'
  rfl

/-- The state in which a loop ends comes after all others. -/
theorem Turns.onward {a mid last : Executor W} {s : Scheduler} (turns : Turns prog now a mid)
    (whole : Turns prog now a last) (drained : last.scheduler.pop = (none, s)) : Turns prog now mid last := by
  rcases turns.total whole with here | past
  · exact here
  · rcases past.cases_head with rfl | ⟨next, step, -⟩
    · exact .refl
    · obtain ⟨i, s', run, mid', popped, -⟩ := nodeStep_again prog step
      rw [drained] at popped
      cases popped

/-- The rule for turns whose runs all are as `own` says. -/
theorem Turns.induct {p : Executor W → Prop} {own : Run → Prop} {a b : Executor W}
    (turns : Turns prog now a b) {later : List Run} (runs : b.runs = later ++ a.runs)
    (fine : ∀ run ∈ later, own run)
    (turn : ∀ before run ran after, Turns prog now a before → TurnOf prog now before run ran after →
      own run → p before → p after) (start : p a) : p b := by
  induction turns generalizing later with
  | refl => exact start
  | @tail mid b turns step ih =>
    obtain ⟨run, ran, here⟩ := turnOf_again step
    obtain ⟨rest, before⟩ := Turns.runs turns
    rw [here.runs, before, ← List.cons_append, List.append_cancel_right_eq] at runs
    subst runs
    exact turn mid run ran b turns here (fine run List.mem_cons_self)
      (ih before fun r member => fine r (List.mem_cons_of_mem _ member))

/-- Turns of other nodes leave the data of a node alone. -/
theorem Turns.spares {α : Type} {cell : Cell W α} {k : Key} {a b : Executor W} (turns : Turns prog now a b)
    (spares : prog.Spares cell k) {later : List Run} (runs : b.runs = later ++ a.runs)
    (others : ∀ run ∈ later, run.node ≠ k) :
    cell.get b.world = cell.get a.world := by
  refine Turns.induct (p := fun s => cell.get s.world = cell.get a.world) turns runs others ?_ rfl
  intro before run ran after _ turn other same
  rw [turn.spares spares other, same]

theorem Turns.epoch {a b : Executor W} (turns : Turns prog now a b) : b.epoch = a.epoch := by
  induction turns with
  | refl => rfl
  | tail _ step ih =>
    obtain ⟨run, ran, turn⟩ := turnOf_again step
    exact turn.epoch.trans ih

theorem Turns.occupants {a b : Executor W} (turns : Turns prog now a b)
    (start : ∀ run ∈ a.runs, a.keyAt run.index = some run.node) :
    ∀ run ∈ b.runs, a.keyAt run.index = some run.node := by
  induction turns with
  | refl => exact start
  | tail before step ih =>
    obtain ⟨run, ran, turn⟩ := turnOf_again step
    intro r member
    rw [turn.runs] at member
    rcases List.mem_cons.mp member with rfl | old
    · rw [← keyAt_of_same (Turns.same before)]
      exact turn.occupant
    · exact ih r old

/-! ## Swept runs -/

theorem gc_handleControl {run : Run} {ex ex' : Executor W} (h : handleControl run ex = .ok ex') :
    ex.gc <+: ex'.gc ∧ (run.Swept → run.index ∈ ex'.marks) := by
  have poison : ∀ {i} {s s' : Executor W}, s.markPoisoned i = .ok s' → s'.gc = s.gc := by
    intro i s s' poisoned
    obtain ⟨ctx, -, rfl⟩ := markPoisoned_ok poisoned
    rfl
  have spread : ∀ {c} {s s' : Executor W}, s.spread c = .ok s' → s'.gc = s.gc := by
    intro c s s' spreads
    obtain ⟨o, mid, offered, rfl⟩ := spread_ok spreads
    exact (gc_offer offered :)
  constructor
  · apply handleControl_inv (p := fun s : Executor W => ex.gc <+: s.gc) _ _ _ h (List.prefix_refl _)
    · intro s grows
      exact grows.trans (List.prefix_append ..)
    · intro i s s' poisoned grows
      rwa [poison poisoned]
    · intro c s s' spreads grows
      rwa [spread spreads]
  · intro swept
    rw [Run.Swept] at swept
    simp only [handleControl, swept] at h
    refine Steps.foldlM_inv (p := fun s : Executor W => run.index ∈ s.marks)
      (fun s c s' _ both marked => ?_) h
      (mem_marks_markForSweep.mpr (.inr rfl))
    obtain ⟨mid, poisoned, spreads⟩ := Steps.bind_ok both
    rw [marks, spread spreads, poison poisoned]
    exact marked

/-- Whatever is swept in a node loop is marked when it ends. -/
theorem Turns.marked {start last : Executor W} (turns : Turns prog now start last) (none : start.runs = []) :
    ∀ run ∈ last.runs, run.Swept → run.index ∈ last.marks := by
  induction turns with
  | refl =>
    intro run member
    rw [none] at member
    cases member
  | @tail mid last before step ih =>
    obtain ⟨latest, ran, turn⟩ := turnOf_again step
    obtain ⟨s, -, cycled⟩ := turn.cycled
    obtain ⟨grows, marks⟩ := gc_handleControl turn.handled
    have first : mid.gc <+: ran.gc := (frame_of_run (graphCycle_run prog cycled)).marks
    intro run member swept
    rw [turn.runs] at member
    rcases List.mem_cons.mp member with rfl | old
    · exact marks swept
    · exact marks_mono (first.trans grows) (ih run old swept)

/-- The children of a swept node are poisoned. -/
theorem Turns.poisons {start last : Executor W} (turns : Turns prog now start last) (none : start.runs = []) :
    ∀ run ∈ last.runs, run.Swept → ∀ c, last.graph.Adj run.index c → last.Poisoned c := by
  induction turns with
  | refl =>
    intro run member
    rw [none] at member
    cases member
  | @tail mid last before step ih =>
    obtain ⟨latest, ran, turn⟩ := turnOf_again step
    obtain ⟨s, -, cycled⟩ := turn.cycled
    have frame := frame_of_run (graphCycle_run prog cycled)
    have graph : ran.graph = mid.graph := frame.graph
    intro run member swept c edge
    rw [turn.same.adj] at edge
    rw [poisoned_handleControl turn.handled]
    rw [turn.runs] at member
    rcases List.mem_cons.mp member with rfl | old
    · right
      refine ⟨swept, ?_⟩
      show ran.graph.Adj run.index c
      rwa [graph]
    · left
      show ∃ ctx, ran.graph.nodeWeight c = some ctx ∧ _
      rw [graph]
      exact ih run old swept c edge

/-! ## The calls of one node -/

/-- The state and the context in which the next turn calls the cycle function of node `c`,
if it does. -/
def called (c : Key) (now : CycleTime) (ex : Executor W) : Option (Executor W × ExecutionContext) :=
  match ex.scheduler.pop with
  | (none, _) => none
  | (some i, scheduler) =>
    match ex.graph.nodeWeight i with
    | none => none
    | some ctx =>
      let ex := { ex with scheduler := scheduler }
      if ctx.cycleFn.state = c ∧ ctx.poisoned = false then
        if ctx.cycleFn.spawned then some (ex, ⟨i, now, ex.epoch⟩)
        else if ex.Alive c then some (ex.addHandle .running c, ⟨i, now, ex.epoch⟩)
        else none
      else none

section Calls

variable {c : Key} {before ran after : Executor W} {run : Run} {q : Executor W → Prop}

theorem handleControl_keeps (lasting : Lasting q) {ex ex' : Executor W}
    (h : handleControl run (ex.recordRun run) = .ok ex') (good : q ex) : q ex' :=
  handleControl_carries lasting h (lasting.frame good rfl rfl rfl)

/-- A run of `c` that does not call it changes nothing but the scheduler. -/
theorem TurnOf.skipped (turn : TurnOf prog now before run ran after)
    (none : called c now before = none) (own : run.node = c) :
    (run.verdict = .poisoned ∨ run.verdict = .noHandle) ∧ ∃ s, ran = { before with scheduler := s } := by
  obtain ⟨s, popped, cycled⟩ := turn.cycled
  obtain ⟨ctx, there, -, node, poisoned | spawned | built | dead⟩ := graphCycle_cases prog cycled
  · exact ⟨.inl poisoned.2.1, s, poisoned.2.2⟩
  · replace there : before.graph.nodeWeight run.index = some ctx := there
    simp [called, popped, there, ← node, own, spawned.1, spawned.2.1] at none
  · replace there : before.graph.nodeWeight run.index = some ctx := there
    obtain ⟨sound, shared, alive, -⟩ := built
    rw [own] at alive
    simp [called, popped, there, ← node, own, sound, shared, alive] at none
  · exact ⟨.inr dead.2.2.2.1, s, dead.2.2.2.2⟩

/-- A turn that does not call `c` keeps what the other nodes keep. -/
theorem TurnOf.uncalled (turn : TurnOf prog now before run ran after)
    (none : called c now before = none) (lasting : Lasting q) (drops : prog.DropsCarry q)
    (runs : ∀ k, k ≠ c → prog.RunsCarry q k) (start : q before) : q after := by
  refine handleControl_keeps lasting turn.handled ?_
  by_cases own : run.node = c
  · obtain ⟨-, s, rfl⟩ := turn.skipped none own
    exact lasting.frame start rfl rfl rfl
  · obtain ⟨s, -, cycled⟩ := turn.cycled
    have entered : q { before with scheduler := s } := lasting.frame start rfl rfl rfl
    exact graphCycle_carries lasting drops cycled (runs _ own) entered

/-- The turn of another node that terminates the loop. -/
theorem LastTurn.carries {last : Executor W} (turn : LastTurn prog now before run ran last)
    (other : run.node ≠ c) (lasting : Lasting q) (drops : prog.DropsCarry q)
    (runs : ∀ k, k ≠ c → prog.RunsCarry q k) (start : q before) : q last := by
  obtain ⟨-, ⟨s, -, cycled⟩, -, rfl⟩ := turn
  have entered : q { before with scheduler := s } := lasting.frame start rfl rfl rfl
  exact lasting.frame (graphCycle_carries lasting drops cycled (runs _ other) entered) rfl rfl rfl

/-- A turn that calls `c`. -/
structure CallOf (prog : Program W) (c : Key) (before : Executor W) (run : Run)
    (after s : Executor W) (ctx : ExecutionContext) : Prop where
  node : run.node = c
  epoch : ctx.epoch = s.epoch
  ages : Ages before s
  world : s.world = before.world
  alive : s.Alive c
  inners : s.inners = before.inners
  graph : s.graph = before.graph
  queues : s.scheduler.multiQueue.length = before.scheduler.multiQueue.length
  cursor : s.scheduler.currDepth = before.graph.depthAt run.index
  call : ∃ fn mid, fn.state = c ∧ callCycleFn prog ctx.cycleTime ctx.current fn s = .ok (run.verdict, mid) ∧
    Path mid after ∧
    ∀ q : Executor W → Prop, Lasting q → prog.DropsCarry q → q mid → q after

theorem TurnOf.call (turn : TurnOf prog now before run ran after) {s : Executor W} {ctx : ExecutionContext}
    (calls : called c now before = some (s, ctx)) {depth : Nat} (housed : Housed depth c before)
    (wf : before.scheduler.WF) (queued : before.Queued) : CallOf prog c before run after s ctx := by
  obtain ⟨scheduler, popped, cycled⟩ := turn.cycled
  obtain ⟨weight, there, -, node, cases⟩ := graphCycle_cases prog cycled
  replace there : before.graph.nodeWeight run.index = some weight := there
  simp only [called, popped, there] at calls
  split at calls
  · rename_i own
    obtain ⟨own, sound⟩ := own
    have shared := housed.shared _ _ _ (Graph.core_of_nodeWeight there) own
    rw [if_neg (by simp [shared])] at calls
    split at calls
    · rename_i alive
      cases calls
      have cursor : ran.scheduler.currDepth = scheduler.currDepth :=
        (Steady.of_code (graphCycle_run prog cycled)).currDepth
      have entered : Ages before { before with scheduler := scheduler } := .of_handles rfl rfl
      refine ⟨by rw [node, own], rfl, entered.trans (.of_code (.single (.handle (.clone .running c alive)))),
        rfl, List.mem_cons_self, rfl, rfl,
        Scheduler.pop_length popped, cursor.symm.trans (turn.cursor wf queued), ?_⟩
      rcases cases with poisoned | spawned | ⟨-, -, -, mid, ran', rfl⟩ | dead
      · rw [sound] at poisoned
        cases poisoned.1
      · rw [shared] at spawned
        cases spawned.2.1
      · have placed := (run_path popped cycled).2
        have dropped : Path mid (mid.dropHandle prog .running run.node) :=
          CodeRun.path (dropHandle_run prog ..).code
        rw [node, own] at ran'
        refine ⟨weight.cycleFn, mid, own, ran', ?_, fun q lasting drops good => ?_⟩
        · exact (dropped.tail (.ran run placed)).trans
            (handleControl_path placed List.mem_cons_self turn.handled)
        · exact handleControl_keeps lasting turn.handled (dropHandle_carries lasting drops _ _ good)
      · rw [node, own] at dead
        exact absurd alive dead.2.2.1
    · cases calls
  · cases calls

/-- The one run of node `c` in a loop. -/
structure Sole (prog : Program W) (now : CycleTime) (c : Key) (start last before : Executor W)
    (run : Run) (ran after : Executor W) : Prop where
  first : Turns prog now start before
  turn : TurnOf prog now before run ran after
  rest : Turns prog now after last
  own : run.node = c
  earlier : ∀ r ∈ before.runs, r.node ≠ c
  later : ∃ later, last.runs = later ++ after.runs ∧ ∀ r ∈ later, r.node ≠ c

theorem sole_of_turn {start last : Executor W} (first : Turns prog now start before)
    (turn : TurnOf prog now before run ran after) (rest : Turns prog now after last)
    (own : run.node = c) (once : (last.runs.filter fun r => r.node = c).length ≤ 1) :
    Sole prog now c start last before run ran after := by
  obtain ⟨later, runs⟩ := Turns.runs rest
  have single : (later.filter fun r => r.node = c).length +
      ((before.runs.filter fun r => r.node = c).length + 1) ≤ 1 := by
    rwa [runs, turn.runs, List.filter_append, List.length_append,
      List.filter_cons_of_pos (by simpa using own), List.length_cons] at once
  have none : ∀ {l : List Run}, (l.filter fun r => r.node = c).length = 0 → ∀ r ∈ l, r.node ≠ c := by
    intro l empty r member node
    have left := List.filter_eq_nil_iff.mp (List.eq_nil_of_length_eq_zero empty) r member
    simp [node] at left
  exact ⟨first, turn, rest, own, none (by omega), later, runs, none (by omega)⟩

namespace Sole

variable {start last mid : Executor W}

/-- A state in which `c` has not run comes before its run. -/
theorem follows (sole : Sole prog now c start last before run ran after) (turns : Turns prog now start mid)
    (none : ∀ r ∈ mid.runs, r.node ≠ c) : Turns prog now mid before := by
  rcases turns.total sole.first with here | past
  · exact here
  · rcases past.cases_head with rfl | ⟨next, step, rest⟩
    · exact .refl
    · have same := sole.turn.step
      rw [step] at same
      cases same
      obtain ⟨later, runs⟩ := Turns.runs rest
      exact absurd sole.own (none run (by rw [runs, sole.turn.runs]; simp))

theorem unique (sole : Sole prog now c start last before run ran after) {r : Run}
    (member : r ∈ last.runs) (own : r.node = c) : r = run := by
  obtain ⟨later, runs, others⟩ := sole.later
  rw [runs, sole.turn.runs] at member
  rcases List.mem_append.mp member with late | now
  · exact absurd own (others r late)
  · rcases List.mem_cons.mp now with here | early
    · exact here
    · exact absurd own (sole.earlier r early)

/-- The turns on the way to a later state are those of other nodes. -/
theorem between (sole : Sole prog now c start last before run ran after)
    (turns : Turns prog now after mid) (rest : Turns prog now mid last) :
    ∃ later, mid.runs = later ++ after.runs ∧ ∀ r ∈ later, r.node ≠ c := by
  obtain ⟨all, runs, others⟩ := sole.later
  obtain ⟨later, first⟩ := Turns.runs turns
  obtain ⟨latest, second⟩ := Turns.runs rest
  refine ⟨later, first, fun r member => others r ?_⟩
  rw [second, first, ← List.append_assoc, List.append_cancel_right_eq] at runs
  rw [← runs]
  exact List.mem_append_right _ member

end Sole

/-! ### What is scheduled by hand -/

/-- A turn of another node does not call `c`. -/
theorem TurnOf.uncalled_of_other (turn : TurnOf prog now before run ran after)
    (other : run.node ≠ c) : called c now before = none := by
  obtain ⟨s, popped, cycled⟩ := turn.cycled
  obtain ⟨ctx, there, -, node, -⟩ := graphCycle_ok prog cycled
  replace there : before.graph.nodeWeight run.index = some ctx := there
  rw [node] at other
  simp [called, popped, there, other]

/-- A call of `c` puts into the queues what its effects do. -/
theorem handedIn_of_called {ex s : Executor W} {ctx : ExecutionContext}
    (calls : called c now ex = some (s, ctx)) :
    handedIn prog now ex = handed prog s (prog.cycleFn s ctx c).1 := by
  unfold called at calls
  split at calls
  · cases calls
  · rename_i i scheduler popped
    split at calls
    · cases calls
    · rename_i weight there
      dsimp only at calls
      split at calls
      · rename_i own
        obtain ⟨rfl, sound⟩ := own
        simp only [handedIn, popped, there, sound]
        split at calls
        · rename_i spawned
          cases calls
          rw [if_neg Bool.false_ne_true, if_pos spawned]
        · rename_i shared
          split at calls
          · rename_i alive
            cases calls
            rw [if_neg Bool.false_ne_true, if_neg shared, if_pos alive]
            rfl
          · cases calls
      · cases calls

/-- Turns of other nodes leave the count of an index that only `c` schedules. -/
theorem Turned.others {start a b : Executor W} {calls : List NodeIndex} {i : NodeIndex}
    (turned : Turned prog now start calls a) (turns : Turns prog now a b) {later : List Run}
    (runs : b.runs = later ++ a.runs) (others : ∀ r ∈ later, r.node ≠ c)
    (still : ∀ mid, Turns prog now start mid → called c now mid = none → i ∉ handedIn prog now mid) :
    ∃ calls', Turned prog now start calls' b ∧ calls'.count i = calls.count i := by
  refine Turns.induct (p := fun s => ∃ calls', Turned prog now start calls' s ∧
      calls'.count i = calls.count i) turns runs others ?_
    ⟨calls, turned, rfl⟩
  rintro before run ran after - turn other ⟨calls', turned', count⟩
  refine ⟨_, turned'.again turn.step, ?_⟩
  rw [List.count_append, count, List.count_eq_zero.mpr
    (still before turned'.turns (turn.uncalled_of_other other)), Nat.add_zero]

end Calls

/-! ### Plain effects -/

theorem handles_applyEffect_plain {effect : Effect W} (plain : effect.Plain) {ex ex' : Executor W}
    (h : ex.applyEffect prog effect = some ex') : ex'.handles = ex.handles := by
  cases effect with
  | handle op =>
    cases op with
    | update f => cases h; rfl
    | _ => exact plain.elim
  | driver op => exact plain.elim
  | scheduleNode k =>
    simp only [applyEffect, scheduleNode] at h
    split at h
    · split at h
      · cases h; rfl
      · cases h; rfl
      · cases h
    · cases h; rfl
  | spawnSubgraph captures => exact plain.elim

/-- Plain effects that all run put into the queues what they schedule, if that is alive and
not above the cursor. -/
theorem handed_plain {effects : List (Effect W)} (plain : ∀ effect ∈ effects, effect.Plain)
    {ex last : Executor W} (applied : ex.applyEffects prog effects = (true, last))
    (low : ∀ k ∈ effects.filterMap Effect.scheduled, ex.Alive k ∧ ex.scheduler.currDepth ≤ (ex.inner k).depth)
    (manuals : last.All Event.ManualPresent) :
    handed prog ex effects = (effects.filterMap Effect.scheduled).map (fun k => (ex.inner k).index) ∧
      ∀ k ∈ effects.filterMap Effect.scheduled, ex.Present k := by
  induction effects generalizing ex with
  | nil => exact ⟨rfl, fun _ none => by cases none⟩
  | cons effect rest ih =>
    have grows : rest.filterMap Effect.scheduled ⊆ (effect :: rest).filterMap Effect.scheduled :=
      List.filterMap_subset _ (List.subset_cons_self effect rest)
    rw [applyEffects] at applied
    split at applied
    · rename_i next first
      have code := applyEffect_run prog first
      have frame := frame_of_run code
      have inner : ∀ k, next.inner k = ex.inner k := inner_of_inners (inners_applyEffect first)
      have handles := handles_applyEffect_plain (plain effect List.mem_cons_self) first
      have later : CodeRun next last := by
        have run := applyEffects_run prog next rest
        rwa [applied] at run
      have lowLater : ∀ k ∈ rest.filterMap Effect.scheduled, next.Alive k ∧
          next.scheduler.currDepth ≤ (next.inner k).depth := by
        intro k listed
        rw [Alive, handles, inner, (Steady.of_code code).currDepth]
        exact low k (grows listed)
      obtain ⟨same, there⟩ := ih (fun e member => plain e (List.mem_cons_of_mem _ member)) applied lowLater
      have present : ∀ k, next.Present k → ex.Present k := by
        intro k here
        rwa [Present, inner, frame.keyAt] at here
      simp only [inner] at same
      rw [handed, first]
      cases effect with
      | scheduleNode k =>
        obtain ⟨alive, above⟩ := low k List.mem_cons_self
        simp only [List.filterMap_cons, Effect.scheduled, List.map_cons, handedBy,
          if_pos (And.intro alive above), same]
        refine ⟨rfl, fun j listed => ?_⟩
        rcases List.mem_cons.mp listed with rfl | old
        · -- the call is in the trace
          have logged : .manual j (decide (ex.Present j)) ∈ next.trace := by
            simp only [applyEffect, if_pos alive, scheduleNode] at first
            split at first
            · cases first; exact List.mem_cons_self
            · cases first; exact List.mem_cons_self
            · cases first
          have told := Path.all (CodeRun.path later) manuals _ logged
          exact of_decide_eq_true told
        · exact present j (there j old)
      | _ => exact ⟨same, fun j listed => present j (there j listed)⟩
    · cases applied

end Executor
end Wavelet
