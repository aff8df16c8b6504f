import Wavelet.Runtime.Structure

/-!
# Reachable states

A run of an executor from outside: operations of the program between cycles, and calls of
`cycle` that return. Each call may come with another program, so a program that changes
its mind is covered. What is shown here of every reachable state: the queues are well
formed and hold nodes of their depth, and no stamp lies in the future.
-/

namespace Wavelet
namespace Executor

open Relation

variable {W : Type}

/-- One call from outside; `allowed` says which ends of a cycle the run goes on after. -/
inductive Step (allowed : Exit → Prop) : Executor W → Executor W → Prop
  | op (prog : Program W) (op : ExecOp W) {ex ex'} : ex.execOp prog op = .ok ex' → Step allowed ex ex'
  | cycle (prog : Program W) (fuel input exit) {ex ex'} : allowed exit →
      cycle prog fuel input ex = .ok (exit, ex') → Step allowed ex ex'

def Reachable (allowed : Exit → Prop) (ex : Executor W) : Prop :=
  ∃ cfg mode world, ReflTransGen (Step allowed) (withConfig cfg mode world) ex

theorem Reachable.initial {allowed : Exit → Prop} (cfg : EventDriverConfig) (mode : ExecutionMode)
    (world : W) :
    Reachable allowed (withConfig cfg mode world) :=
  ⟨cfg, mode, world, .refl⟩

theorem Reachable.ops {allowed : Exit → Prop} {prog : Program W} {ops : List (ExecOp W)} {ex ex' : Executor W}
    (reached : Reachable allowed ex) (h : ex.execOps prog ops = .ok ex') : Reachable allowed ex' := by
  obtain ⟨cfg, mode, world, run⟩ := reached
  exact ⟨cfg, mode, world, run.trans (Steps.foldlM_steps (fun _ _ _ _ applied => .single (.op prog _ applied)) h)⟩

theorem Reachable.cycle {allowed : Exit → Prop} {prog : Program W} {fuel : Nat} {input : CycleInput}
    {exit : Exit} {ex ex' : Executor W} (reached : Reachable allowed ex) (fine : allowed exit)
    (h : Executor.cycle prog fuel input ex = .ok (exit, ex')) : Reachable allowed ex' := by
  obtain ⟨cfg, mode, world, run⟩ := reached
  exact ⟨cfg, mode, world, run.tail (.cycle prog fuel input exit fine h)⟩

/-- A scripted run: operations of the program and then a cycle, again and again. -/
def play (prog : Program W) (fuel : Nat) (ex : Executor W) :
    List (List (ExecOp W) × CycleInput) → Except Failure (List Exit × Executor W)
  | [] => .ok ([], ex)
  | (ops, input) :: rest => do
    let ex ← ex.execOps prog ops
    let (exit, ex) ← Executor.cycle prog fuel input ex
    let (exits, ex) ← play prog fuel ex rest
    pure (exit :: exits, ex)

theorem Reachable.play {allowed : Exit → Prop} {prog : Program W} {fuel : Nat}
    {script : List (List (ExecOp W) × CycleInput)} {exits : List Exit} {ex ex' : Executor W}
    (reached : Reachable allowed ex) (h : ex.play prog fuel script = .ok (exits, ex'))
    (fine : ∀ exit ∈ exits, allowed exit) : Reachable allowed ex' := by
  induction script generalizing ex exits with
  | nil => cases h; exact reached
  | cons round rest ih =>
    obtain ⟨mid, ops, cycles⟩ := Steps.bind_ok' h
    obtain ⟨⟨exit, last⟩, returned, later⟩ := Steps.bind_ok' cycles
    obtain ⟨⟨more, final⟩, played, same⟩ := Steps.bind_ok' later
    cases same
    have here := (reached.ops ops).cycle (fine exit List.mem_cons_self) returned
    exact ih here played fun exit member => fine exit (List.mem_cons_of_mem _ member)

theorem Step.path {allowed : Exit → Prop} {ex ex' : Executor W} (step : Step allowed ex ex')
    (wf : ex.scheduler.WF) :
    Path ex ex' := by
  cases step with
  | op prog op applied => exact execOp_path prog applied
  | cycle prog fuel input exit _ returned => exact cycle_path prog wf returned

theorem path_of_steps {allowed : Exit → Prop} {ex ex' : Executor W} (run : ReflTransGen (Step allowed) ex ex')
    (wf : ex.scheduler.WF) : Path ex ex' := by
  induction run with
  | refl => exact .refl
  | tail _ last ih => exact ih.trans (last.path (ih.schedulerWF wf))

theorem Reachable.path {allowed : Exit → Prop} {ex : Executor W} (reached : Reachable allowed ex) :
    ∃ cfg mode world, Path (withConfig cfg mode world) ex := by
  obtain ⟨cfg, mode, world, run⟩ := reached
  exact ⟨cfg, mode, world, path_of_steps run Scheduler.new_wf⟩

theorem Reachable.schedulerWF {allowed : Exit → Prop} {ex : Executor W} (reached : Reachable allowed ex) :
    ex.scheduler.WF := by
  obtain ⟨cfg, mode, world, path⟩ := reached.path
  exact path.schedulerWF Scheduler.new_wf

theorem Reachable.mono {allowed allowed' : Exit → Prop} {ex : Executor W}
    (more : ∀ exit, allowed exit → allowed' exit) (reached : Reachable allowed ex) :
    Reachable allowed' ex := by
  obtain ⟨cfg, mode, world, run⟩ := reached
  refine ⟨cfg, mode, world, ReflTransGen.mono (fun s s' step => ?_) _ _ run⟩
  cases step with
  | op prog op applied => exact .op prog op applied
  | cycle prog fuel input exit fine returned => exact .cycle prog fuel input exit (more exit fine) returned

theorem sound_withConfig (cfg : EventDriverConfig) (mode : ExecutionMode) (world : W) :
    (withConfig cfg mode world).Sound where
  placed _ _ _ there := by cases there
  ascending _ member := by cases member
  enabled _ _ _ there := by cases there

theorem Reachable.inPlace {allowed : Exit → Prop} {ex : Executor W}
    (reached : Reachable allowed ex) : ex.InPlace := by
  obtain ⟨cfg, mode, world, path⟩ := reached.path
  exact path.inPlace fun _ _ _ there => by cases there

/-- Builders that are given nodes of the graph build a sound graph. -/
theorem Reachable.sound {allowed : Exit → Prop} {ex : Executor W} (reached : Reachable allowed ex)
    (parents : ex.All Event.ParentsPresent) : ex.Sound := by
  obtain ⟨cfg, mode, world, path⟩ := reached.path
  exact path.sound parents (sound_withConfig ..)

/-! ## The ends of the edges -/

theorem Micro.linked {ex ex' : Executor W} (step : Micro ex ex') (linked : ex.graph.Linked) :
    ex'.graph.Linked := by
  cases step with
  | code step =>
    rw [step.frame.graph]
    exact linked
  | fire source driver r known sub takes fired =>
    obtain ⟨o, mid, offered, -, rfl⟩ := fire_ok fired
    exact (offer_same offered).linked linked
  | poison i poisoned =>
    obtain ⟨ctx, there, rfl⟩ := markPoisoned_ok poisoned
    exact (Graph.setWeight_same there { ctx with poisoned := true } rfl rfl).linked linked
  | spread child spreads =>
    obtain ⟨o, mid, offered, rfl⟩ := spread_ok spreads
    exact (offer_same offered).linked linked
  | remove r rest k front there rests => exact linked.removeNode r.index
  | build args depth graph vacant deep edges => exact addEdges_linked (linked.addNode args.index _) edges
  | _ => exact linked

/-- No edge ever loses one of its nodes. -/
theorem Path.linked {ex ex' : Executor W} (path : Path ex ex') (linked : ex.graph.Linked) :
    ex'.graph.Linked :=
  Steps.run_inv (p := fun s : Executor W => s.graph.Linked) (fun _ _ step => step.linked) path linked

/-! ## The queue of a depth -/

/-- No call of `schedule_node` on a node that has left the graph gets past the cursor. -/
def Heeds (ex ex' : Executor W) : Prop :=
  ∀ k, ex.scheduleNode k = some ex' → ex.Present k ∨ (ex.inner k).depth < ex.scheduler.currDepth

theorem scheduleNode_accepted {ex : Executor W} {k : Key} {s : Scheduler}
    (accepted : ex.scheduler.schedule (ex.inner k).index (ex.inner k).depth = .ok s) :
    ex.scheduleNode k = some { ex.log (.manual k (decide (ex.Present k))) with scheduler := s } := by
  have logged : (ex.log (.manual k (decide (ex.Present k)))).scheduler.schedule
      ((ex.log (.manual k (decide (ex.Present k)))).inner k).index
      ((ex.log (.manual k (decide (ex.Present k)))).inner k).depth = .ok s := accepted
  simp only [scheduleNode, logged]

theorem scheduleNode_refused {ex : Executor W} {k : Key}
    (refused : ex.scheduler.schedule (ex.inner k).index (ex.inner k).depth = .error .schedulerError) :
    ex.scheduleNode k = some (ex.log (.manual k (decide (ex.Present k)))) := by
  have logged : (ex.log (.manual k (decide (ex.Present k)))).scheduler.schedule
      ((ex.log (.manual k (decide (ex.Present k)))).inner k).index
      ((ex.log (.manual k (decide (ex.Present k)))).inner k).depth = .error .schedulerError := refused
  simp only [scheduleNode, logged]

theorem scheduleNode_outOfBounds {ex : Executor W} {k : Key}
    (past : ex.scheduler.schedule (ex.inner k).index (ex.inner k).depth = .error .indexOutOfBounds) :
    ex.scheduleNode k = none := by
  have logged : (ex.log (.manual k (decide (ex.Present k)))).scheduler.schedule
      ((ex.log (.manual k (decide (ex.Present k)))).inner k).index
      ((ex.log (.manual k (decide (ex.Present k)))).inner k).depth = .error .indexOutOfBounds := past
  simp only [scheduleNode, logged]

theorem Heeds.present {ex ex' : Executor W} (heeds : Heeds ex ex') {k : Key} {s : Scheduler}
    (accepted : ex.scheduler.schedule (ex.inner k).index (ex.inner k).depth = .ok s)
    (same : ex' = { ex.log (.manual k (decide (ex.Present k))) with scheduler := s }) : ex.Present k := by
  rcases heeds k (same ▸ scheduleNode_accepted accepted) with present | above
  · exact present
  · have low := (Scheduler.schedule_eq_ok_iff.mp accepted).1
    exact absurd above (Nat.not_lt.mpr low)

theorem heeds_of_manuals {ex ex' : Executor W} (manuals : ex'.All Event.ManualPresent) : Heeds ex ex' := by
  intro k call
  left
  have logged : .manual k (decide (ex.Present k)) ∈ ex'.trace := by
    simp only [scheduleNode] at call
    split at call
    · cases call; exact List.mem_cons_self
    · cases call; exact List.mem_cons_self
    · cases call
  have present : decide (ex.Present k) = true := manuals _ logged
  exact of_decide_eq_true present

/-- A queued index is a node of the graph of the queue's depth. -/
def Queued (ex : Executor W) : Prop := ∀ d i, i ∈ ex.scheduler.queue d → ∃ fn, ex.graph.core i = some (fn, d)

theorem core_of_present {ex : Executor W} (inPlace : ex.InPlace) {k : Key} (present : ex.Present k) :
    ∃ fn, fn.state = k ∧ ex.graph.core (ex.inner k).index = some (fn, (ex.inner k).depth) := by
  obtain ⟨ctx, there, key⟩ := Option.map_eq_some_iff.mp present
  have core := Graph.core_of_nodeWeight there
  have depth := (inPlace _ _ _ core).2.2
  exact ⟨ctx.cycleFn, key, by rw [core, ← depth, key]⟩

theorem offer_queued {ex ex' : Executor W} {i : NodeIndex} {o : Offer} (h : ex.offer i = some (o, ex'))
    (queued : ex.Queued) : ex'.Queued := by
  have same := offer_same h
  intro d j member
  rw [same.core]
  rcases offer_cases h with ⟨-, rfl, -⟩ | ⟨_, -, -, -, rfl⟩ | ⟨ctx, -, -, -, -, rfl⟩ |
    ⟨ctx, there, -, -, bound, -, rfl⟩
  · exact queued d j member
  · exact queued d j member
  · exact queued d j member
  · rw [Scheduler.enqueue_queue bound] at member
    split at member
    · rename_i here
      subst here
      rcases List.mem_append.mp member with old | new
      · exact queued _ j old
      · rw [List.mem_singleton.mp new]
        exact ⟨ctx.cycleFn, Graph.core_of_nodeWeight there⟩
    · exact queued d j member

theorem Micro.queued {ex ex' : Executor W} (step : Micro ex ex') (heeds : Heeds ex ex')
    (wf : ex.scheduler.WF) (inPlace : ex.InPlace) (queued : ex.Queued) : ex'.Queued := by
  cases step with
  | code step =>
    cases step with
    | handle step =>
      intro d i member
      rw [scheduler_of_handleRun (.single step)] at member
      rw [step.frame.graph]
      exact queued d i member
    | manual k s held accepted =>
      obtain ⟨fn, -, core⟩ := core_of_present inPlace (heeds.present accepted rfl)
      obtain ⟨-, bound, rfl⟩ := Scheduler.schedule_eq_ok_iff.mp accepted
      intro d i member
      replace member : i ∈ (ex.scheduler.enqueue (ex.inner k).index (ex.inner k).depth).queue d := member
      rw [Scheduler.enqueue_queue bound] at member
      split at member
      · rename_i here
        subst here
        rcases List.mem_append.mp member with old | new
        · exact queued _ i old
        · rw [List.mem_singleton.mp new]
          exact ⟨fn, core⟩
      · exact queued d i member
    | _ => exact queued
  | fire source driver r known sub takes fired =>
    obtain ⟨o, mid, offered, -, rfl⟩ := fire_ok fired
    exact show mid.Queued from offer_queued offered queued
  | pop o s popped =>
    intro d i member
    cases o with
    | none => rw [(Scheduler.pop_none wf popped).1.drained d] at member; cases member
    | some j => exact queued d i ((Scheduler.pop_some wf popped).mem_queue_of member)
  | poison j poisoned =>
    obtain ⟨ctx, there, rfl⟩ := markPoisoned_ok poisoned
    have same := Graph.setWeight_same there { ctx with poisoned := true } rfl rfl
    intro d i member
    obtain ⟨fn, core⟩ := queued d i member
    exact ⟨fn, (same.core i).trans core⟩
  | spread child spreads =>
    obtain ⟨o, mid, offered, rfl⟩ := spread_ok spreads
    exact show mid.Queued from offer_queued offered queued
  | remove r rest k front there rests =>
    intro d i member
    replace member : i ∈ ex.scheduler.queue d := member
    rw [rests.drained d] at member
    cases member
  | build args depth graph vacant deep edges =>
    intro d i member
    replace member : i ∈ (ex.scheduler.enableDepth depth).queue d := member
    rw [Scheduler.enableDepth_queue] at member
    obtain ⟨fn, core⟩ := queued d i member
    refine ⟨fn, ?_⟩
    show graph.core i = _
    rw [core_build edges, if_neg, core]
    rintro rfl
    rw [Graph.core, vacant] at core
    cases core
  | _ => exact queued

theorem Path.queued {ex ex' : Executor W} (path : Path ex ex') (manuals : ex'.All Event.ManualPresent)
    (wf : ex.scheduler.WF) (inPlace : ex.InPlace) (queued : ex.Queued) : ex'.Queued := by
  induction path with
  | refl => exact queued
  | tail path step ih =>
    exact step.queued (heeds_of_manuals manuals) (Path.schedulerWF path wf) (Path.inPlace path inPlace)
      (ih (manuals.earlier step))

theorem Reachable.queued {allowed : Exit → Prop} {ex : Executor W} (reached : Reachable allowed ex)
    (manuals : ex.All Event.ManualPresent) : ex.Queued := by
  obtain ⟨cfg, mode, world, path⟩ := reached.path
  exact path.queued manuals Scheduler.new_wf (fun _ _ _ there => by cases there)
    (fun _ _ member => by cases member)

/-! ## Stamps -/

/-- The calls of `cycle` so far. -/
def cycles (ex : Executor W) : Nat := ex.trace.count .began

/-- The epoch counts the cycles, as long as it does not wrap around, and no node is
stamped with a later one. -/
structure Stamped (ex : Executor W) : Prop where
  epoch : ex.epoch = ex.cycles
  past : ∀ i ctx, ex.graph.nodeWeight i = some ctx → ctx.schedEpoch ≤ ex.epoch

theorem Micro.cycles_le {ex ex' : Executor W} (step : Micro ex ex') : ex.cycles ≤ ex'.cycles :=
  step.trace_suffix.sublist.count_le _

theorem cycles_log (ex : Executor W) {event : Event} (other : event ≠ .began) :
    (ex.log event).cycles = ex.cycles :=
  List.count_cons_of_ne (by simpa using other) ..

theorem Code.cycles {ex ex' : Executor W} (step : Code ex ex') : ex'.cycles = ex.cycles := by
  cases step with
  | handle step =>
    cases step with
    | expire o k => exact (cycles_log _ (by simp)).trans (cycles_log _ (by simp))
    | request t => exact cycles_log _ (by simp)
    | register t driver => exact cycles_log _ (by simp)
    | _ => rfl
  | refused k => exact cycles_log _ (by simp)
  | manual k s => exact cycles_log ex (by simp)
  | _ => rfl

theorem offer_stamped {ex ex' : Executor W} {i : NodeIndex} {o : Offer} (h : ex.offer i = some (o, ex'))
    (stamped : ex.Stamped) : ex'.Stamped := by
  have set : ∀ ctx ctx' : NodeContext, ex.graph.nodeWeight i = some ctx → ctx'.schedEpoch ≤ ex.epoch →
      ∀ j w, (ex.graph.setWeight i ctx').nodeWeight j = some w → w.schedEpoch ≤ ex.epoch := by
    intro ctx ctx' there low j w here
    rw [Graph.nodeWeight_setWeight there] at here
    split at here
    · cases here; exact low
    · exact stamped.past j w here
  rcases offer_cases h with ⟨-, rfl, -⟩ | ⟨_, -, -, -, rfl⟩ | ⟨ctx, there, -, -, -, rfl⟩ |
    ⟨ctx, there, -, -, -, -, rfl⟩
  · exact stamped
  · exact stamped
  · exact ⟨stamped.epoch, set ctx _ there (Nat.le_refl _)⟩
  · exact ⟨stamped.epoch, set ctx _ there (Nat.le_refl _)⟩

theorem Stamped.log {ex : Executor W} (stamped : ex.Stamped) {event : Event} (other : event ≠ .began) :
    (ex.log event).Stamped :=
  ⟨stamped.epoch.trans (cycles_log ex other).symm, stamped.past⟩

theorem Micro.stamped {ex ex' : Executor W} (step : Micro ex ex') (few : ex'.cycles < 2 ^ 64)
    (stamped : ex.Stamped) :
    ex'.Stamped := by
  cases step with
  | code step =>
    have frame := step.frame
    exact ⟨by rw [frame.epoch, step.cycles, stamped.epoch], by rw [frame.graph, frame.epoch]; exact stamped.past⟩
  | begin =>
    have count : ex.beginCycle.cycles = ex.cycles + 1 := List.count_cons_self
    have next : ex.beginCycle.epoch = ex.epoch + 1 := Nat.mod_eq_of_lt (by rw [stamped.epoch]; omega)
    refine ⟨by rw [next, count, stamped.epoch], fun i ctx there => ?_⟩
    rw [next]
    exact Nat.le_succ_of_le (stamped.past i ctx there)
  | fire source driver r known sub takes fired =>
    obtain ⟨o, mid, offered, -, rfl⟩ := fire_ok fired
    exact (offer_stamped offered ⟨stamped.epoch, stamped.past⟩).log (by simp)
  | poison j poisoned =>
    obtain ⟨ctx, there, rfl⟩ := markPoisoned_ok poisoned
    refine ⟨stamped.epoch.trans (cycles_log ex (by simp)).symm, fun i w here => ?_⟩
    replace here : (ex.graph.setWeight j { ctx with poisoned := true }).nodeWeight i = some w := here
    rw [Graph.nodeWeight_setWeight there] at here
    split at here
    · cases here; exact stamped.past j ctx there
    · exact stamped.past i w here
  | spread child spreads =>
    obtain ⟨o, mid, offered, rfl⟩ := spread_ok spreads
    exact (offer_stamped offered stamped).log (by simp)
  | remove r rest k front there rests =>
    refine ⟨stamped.epoch.trans (cycles_log ex (by simp)).symm, fun i w here => ?_⟩
    replace here : (ex.graph.removeNode r.index).nodeWeight i = some w := here
    rw [Graph.nodeWeight_removeNode] at here
    split at here
    · cases here
    · exact stamped.past i w here
  | build args depth graph vacant deep edges =>
    refine ⟨stamped.epoch.trans (cycles_log ex (by simp)).symm, fun i w here => ?_⟩
    replace here : graph.nodeWeight i = some w := here
    have slots := (addEdges_some edges).1
    simp only [Graph.nodeWeight, slots] at here
    replace here := (Graph.nodeWeight_addNode ..).symm.trans here
    split at here
    · cases here; exact Nat.zero_le _
    · exact stamped.past i w here
  | pop o s popped => exact ⟨stamped.epoch, stamped.past⟩
  | discard r rest front vacant => exact ⟨stamped.epoch, stamped.past⟩
  | ran run there => exact ⟨stamped.epoch.trans (cycles_log ex (by simp)).symm, stamped.past⟩
  | mark run there swept ran => exact ⟨stamped.epoch.trans (cycles_log ex (by simp)).symm, stamped.past⟩
  | terminated => exact stamped.log (by simp)

theorem Path.cycles_le {ex ex' : Executor W} (path : Path ex ex') : ex.cycles ≤ ex'.cycles := by
  induction path with
  | refl => exact Nat.le_refl _
  | tail _ step ih => exact Nat.le_trans ih step.cycles_le

/-- A cycle is counted. -/
theorem cycles_of_cycle {prog : Program W} {fuel : Nat} {input : CycleInput} {exit : Exit}
    {ex ex' : Executor W} (wf : ex.scheduler.WF) (h : cycle prog fuel input ex = .ok (exit, ex')) :
    ex.cycles + 1 ≤ ex'.cycles := by
  have count : ex.beginCycle.cycles = ex.cycles + 1 := List.count_cons_self
  have nodes : ∀ {exit : Exit} {last : Executor W}, runNodes prog fuel input ex = .ok (exit, last) →
      Path ex.beginCycle last := by
    intro exit last ran
    rcases runNodes_ok prog ran with ⟨-, polls⟩ | ⟨now, polled, polls, loop⟩
    · exact poll_path polls
    · exact (poll_path polls).trans loop.path
  rw [← count]
  rcases cycle_ok prog h with ⟨-, ran⟩ | ⟨-, mid, swept, ran, sweeps, spawns⟩
  · exact Path.cycles_le (nodes ran)
  · have sweep := (sweepLoop_path prog (runNodes_atRest prog wf ran) sweeps).1
    exact Path.cycles_le ((nodes ran).trans (sweep.trans (runSpawns_path prog spawns)))

theorem Path.stamped {ex ex' : Executor W} (path : Path ex ex') (few : ex'.cycles < 2 ^ 64)
    (stamped : ex.Stamped) :
    ex'.Stamped :=
  Steps.run_inv_of (p := Stamped) (fun _ _ step few => Nat.lt_of_le_of_lt step.cycles_le few)
    (fun _ _ step => step.stamped) path few stamped

theorem Reachable.stamped {allowed : Exit → Prop} {ex : Executor W} (reached : Reachable allowed ex)
    (few : ex.cycles < 2 ^ 64) : ex.Stamped := by
  obtain ⟨cfg, mode, world, path⟩ := reached.path
  exact path.stamped few ⟨rfl, fun _ _ there => by cases there⟩

/-- A new cycle has an epoch that no node carries. -/
theorem Stamped.fresh {ex : Executor W} (stamped : ex.Stamped) (few : ex.cycles + 1 < 2 ^ 64) (i : NodeIndex)
    (ctx : NodeContext) (there : ex.beginCycle.graph.nodeWeight i = some ctx) :
    ctx.schedEpoch ≠ ex.beginCycle.epoch := by
  have next : ex.beginCycle.epoch = ex.epoch + 1 := Nat.mod_eq_of_lt (by rw [stamped.epoch]; exact few)
  have := stamped.past i ctx there
  omega

/-! ## At rest between cycles -/

theorem atRest_enableDepth {s : Scheduler} (rests : s.AtRest) (depth : Nat) :
    (s.enableDepth depth).AtRest where
  top := by rw [Scheduler.enableDepth_currDepth, rests.top]
  none_pending := by rw [Scheduler.enableDepth_pendingEvents, rests.none_pending]
  drained d := by rw [Scheduler.enableDepth_queue, rests.drained d]

theorem scheduler_driverOp {ex ex' : Executor W} {op : DriverOp} (h : ex.driverOp op = some ex') :
    ex'.scheduler = ex.scheduler := by
  obtain ⟨driver, trace, rfl⟩ := driverOp_ok h
  rfl

theorem scheduler_build {args : BuildArgs} {ex ex' : Executor W} (h : ex.build args = .ok ex') :
    ∃ depth, ex'.scheduler = ex.scheduler.enableDepth depth := by
  obtain ⟨depth, graph, handles, -, -, -, rfl, -⟩ := build_ok h
  exact ⟨depth, rfl⟩

/-- Operations between cycles do not move the cursor. -/
theorem execOp_top {prog : Program W} {op : ExecOp W} {ex ex' : Executor W} (h : ex.execOp prog op = .ok ex')
    (top : ex.scheduler.currDepth = 0) : ex'.scheduler.currDepth = 0 := by
  cases op with
  | handle op => cases h; rw [scheduler_of_handleRun (handleOp_run prog ex op)]; exact top
  | driver op =>
    simp only [execOp] at h
    split at h
    · rename_i next applied
      cases h
      rw [scheduler_driverOp applied]
      exact top
    · cases h
  | build args =>
    obtain ⟨depth, same⟩ := scheduler_build h
    rw [same, Scheduler.enableDepth_currDepth]
    exact top

theorem execOp_atRest {prog : Program W} {op : ExecOp W} {ex ex' : Executor W}
    (h : ex.execOp prog op = .ok ex') (rests : ex.scheduler.AtRest) : ex'.scheduler.AtRest := by
  cases op with
  | handle op => cases h; rw [scheduler_of_handleRun (handleOp_run prog ex op)]; exact rests
  | driver op =>
    simp only [execOp] at h
    split at h
    · rename_i next applied
      cases h
      rw [scheduler_driverOp applied]
      exact rests
    · cases h
  | build args =>
    obtain ⟨depth, same⟩ := scheduler_build h
    rw [same]
    exact atRest_enableDepth rests depth

theorem runSpawns_atRest {prog : Program W} {tickets : List Nat} {ex ex' : Executor W}
    (h : runSpawns prog tickets ex = .ok ex') (rests : ex.scheduler.AtRest) : ex'.scheduler.AtRest := by
  induction tickets generalizing ex with
  | nil => cases h; exact rests
  | cons ticket rest ih =>
    obtain ⟨mid, spawned, later⟩ := Steps.bind_ok h
    obtain ⟨built, ops, rfl⟩ := Steps.map_ok spawned
    have stays : built.scheduler.AtRest :=
      Steps.foldlM_inv (p := fun s : Executor W => s.scheduler.AtRest)
        (fun _ _ _ _ applied => execOp_atRest applied) ops rests
    exact ih later (by rw [scheduler_of_handleRun (dropOwner_run prog built (.spawn ticket))]; exact stays)

/-- A cycle that returns `Running` ends with the scheduler at rest. -/
theorem cycle_atRest {prog : Program W} {fuel : Nat} {input : CycleInput} {ex ex' : Executor W}
    (wf : ex.scheduler.WF) (h : cycle prog fuel input ex = .ok (.running, ex')) : ex'.scheduler.AtRest := by
  rcases cycle_ok prog h with ⟨no, -⟩ | ⟨-, mid, swept, nodes, sweeps, spawns⟩
  · exact absurd rfl no
  · have rests := runNodes_atRest prog wf nodes
    have same := (sweepLoop_path prog rests sweeps).2.1
    exact runSpawns_atRest spawns (by rw [same]; exact rests)

/-- While every cycle returns `Running`, the scheduler is at rest between two calls. -/
theorem Reachable.atRest {ex : Executor W} (reached : Reachable (· = .running) ex) : ex.scheduler.AtRest := by
  obtain ⟨cfg, mode, world, run⟩ := reached
  have both : ex.scheduler.AtRest := by
    induction run with
    | refl => exact ⟨rfl, rfl, fun _ => rfl⟩
    | tail run step ih =>
      cases step with
      | op prog op applied => exact execOp_atRest applied ih
      | cycle prog fuel input exit fine returned =>
        subst fine
        exact cycle_atRest ih.wf returned
  exact both

end Executor
end Wavelet
