import Wavelet.Lib.Synchronous
import Wavelet.Wsnl.Logic
import Wavelet.Wsnl.Stream

/-!
# Dataflow

The executor runs what events wake and what that triggers, by depth, and keeps what is to run in
queues. For nodes that make their data of their own and of those of their parents, this comes to
a synchronous circuit: each cycle is a tick in which all nodes are visited in the order in which
they were built.
-/

namespace Wavelet

open Synchronous

variable {W ι : Type} {σ : ι → Type}

/-- A synchronous circuit whose nodes are nodes of an executor. -/
structure Dataflow (W ι : Type) (σ : ι → Type) where
  circuit : Circuit ι σ CycleTime
  node : ∀ i, Node W (σ i)
  distinct : ∀ i j, (node i).key = (node j).key → i = j
  apart : ∀ i j, i ≠ j → (node i).data.Apart (node j).data

namespace Dataflow

variable (flow : Dataflow W ι σ)

def key (i : ι) : Key := (flow.node i).key

def value (w : W) (i : ι) : σ i := (flow.node i).borrow w

def relationships (i : ι) : List (Key × Relationship) :=
  (flow.circuit.parents i).map fun p => (flow.key p.1, if p.2 then .trigger else .observe)

/-- What the circuit makes of what the cycle function of a node finds. -/
def reaction (i : ι) (ex : Executor W) (ctx : ExecutionContext) : Option (σ i × Bool) :=
  flow.circuit.react i ctx.cycleTime (flow.value ex.world i) (flow.value ex.world) fun j =>
    ex.hasMutated ctx (flow.key j)

/-- What the nodes show at the end of a cycle. -/
def snapshot (last : Executor W) : Snapshot ι σ :=
  ⟨flow.value last.world, fun i => decide (last.HasBroadcast (flow.key i))⟩

/-- What a cycle gives a tick: its time, the nodes that its events are for, and what the sources show. -/
def tick (now : CycleTime) (input : CycleInput) (ex last : Executor W) : Stimulus ι σ CycleTime where
  time := now
  woken i := decide ((ex.inner (flow.key i)).index ∈ (Executor.seeds input ex).map (·.index))
  input i := ((flow.snapshot last).value i, (flow.snapshot last).spoke i)

end Dataflow

/-- In this program the nodes of the circuit that are no sources are as the circuit has them: if a
cycle function returns, it is with what the circuit makes of what it finds. Apart from their
constructors no one else changes the data of the nodes. -/
structure Program.Flows (prog : Program W) (flow : Dataflow W ι σ) : Prop where
  plain : ∀ i, flow.circuit.source i = false →
    ∀ ex ctx, ∀ effect ∈ (prog.cycleFn ex ctx (flow.key i)).1, effect.Plain
  returns : ∀ i, flow.circuit.source i = false →
    ∀ ex ctx control, (prog.cycleFn ex ctx (flow.key i)).2 = .ret control →
    ∃ speaks, control = Control.from speaks ∧
      flow.reaction i ex ctx =
      some (flow.value ((prog.cycleFn ex ctx (flow.key i)).1.foldl Effect.onWorld ex.world) i, speaks)
  runs : ∀ i v j, j ≠ flow.key i → prog.RunsKeep (fun w => flow.value w i = v) j
  drops : ∀ i v, prog.DropsKeep fun w => flow.value w i = v

/-- The program without its deferred subgraphs. -/
def Program.spawnless (prog : Program W) : Program W := { prog with spawnFn := fun _ _ => [] }

theorem Program.Flows.encloses {prog : Program W} {flow : Dataflow W ι σ} (flows : prog.Flows flow) (i : ι) :
    prog.spawnless.Encloses (flow.node i) :=
  ⟨flows.runs i, flows.drops i, fun _ _ _ _ no => absurd no List.not_mem_nil⟩

namespace Executor

variable {prog : Program W} {flow : Dataflow W ι σ} {now : CycleTime} {i : ι}

/-! ## Deferred subgraphs play no part in a cycle before they are called -/

theorem dropHandle_spawnless : dropHandle prog.spawnless = dropHandle prog := by
  have each : ∀ depth, dropHandleWith prog.spawnless depth = dropHandleWith prog depth := by
    intro depth
    induction depth with
    | zero => rfl
    | succ depth ih =>
      funext ex o k
      rw [dropHandleWith, dropHandleWith, ih]
      rfl
  funext ex o k
  rw [dropHandle, dropHandle, each]

theorem applyEffect_spawnless : applyEffect prog.spawnless = applyEffect prog := by
  funext ex effect
  cases effect <;> simp only [applyEffect, handleOp, dropHandle_spawnless]

theorem applyEffects_spawnless : applyEffects prog.spawnless = applyEffects prog := by
  funext ex effects
  induction effects generalizing ex with
  | nil => rfl
  | cons effect rest ih => simp only [applyEffects, applyEffect_spawnless, ih]

theorem nodeStep_spawnless : nodeStep prog.spawnless = nodeStep prog := by
  have calls : callCycleFn prog.spawnless = callCycleFn prog := by
    funext now i fn ex
    rw [callCycleFn, callCycleFn, applyEffects_spawnless]
    rfl
  have runs : graphCycle prog.spawnless = graphCycle prog := by
    funext now i ex
    simp only [graphCycle, callClosure, calls, dropHandle_spawnless]
  funext now ex
  rw [nodeStep, nodeStep, runs]

theorem handedIn_spawnless : handedIn prog.spawnless = handedIn prog := by
  have each : handed prog.spawnless = handed prog := by
    funext ex effects
    induction effects generalizing ex with
    | nil => rfl
    | cons effect rest ih => simp only [handed, applyEffect_spawnless, ih]
  funext now ex
  simp only [handedIn, each]
  rfl

theorem turned_spawnless {start ex : Executor W} {calls : List NodeIndex}
    (turned : Turned prog.spawnless now start calls ex) :
    Turned prog now start calls ex := by
  induction turned with
  | start => exact .start
  | again _ step ih =>
    rw [nodeStep_spawnless] at step
    rw [handedIn_spawnless]
    exact ih.again step

theorem Pass.spawnless {fuel : Nat} {input : CycleInput} {ex last swept : Executor W}
    (pass : Pass prog fuel input ex last swept) :
    Pass prog.spawnless fuel input ex last swept := by
  have loops : nodeLoop prog.spawnless = nodeLoop prog := by
    funext now fuel ex
    induction fuel generalizing ex with
    | zero => rfl
    | succ fuel ih => simp only [nodeLoop, nodeStep_spawnless, ih]
  have removes : removeNode prog.spawnless = removeNode prog := by
    funext ex i
    simp only [removeNode, dropOwner, dropHandle_spawnless]
  have sweeps : sweepLoop prog.spawnless = sweepLoop prog := by
    funext fuel ex
    induction fuel generalizing ex with
    | zero => rfl
    | succ fuel ih => simp only [sweepLoop, removes, ih]
  constructor
  · rw [runNodes, loops]
    exact pass.nodes
  · rw [sweeps]
    exact pass.sweeps

/-! ## A cycle as a tick -/

/-- One run in a cycle that ends with this snapshot: the cycle function is called or it is not. -/
def Reacts (flow : Dataflow W ι σ) (now : CycleTime) (snapshot : Snapshot ι σ) (i : ι)
    (before : σ i) (verdict : Verdict) (after : σ i) : Prop :=
  (verdict = .poisoned ∨ verdict = .noHandle) ∧ after = before ∨
    ∃ speaks, verdict = .returned (Control.from speaks) ∧
      flow.circuit.react i now before snapshot.value snapshot.spoke = some (after, speaks)

section Course

variable {seeded : Prop} {polled final : Executor W}

theorem Course.reacts
    (course : Course prog.spawnless now (flow.relationships i) (flow.key i) seeded polled final)
    (flows : prog.Flows flow) (inner : flow.circuit.source i = false)
    (unswept : ∀ run ∈ final.runs, run.node = flow.key i → ¬ run.Swept) :
    Steps.Trail (Reacts flow now (flow.snapshot final) i) (flow.value polled.world i)
      (final.verdicts (flow.key i))
      (flow.value final.world i) := by
  refine course.trail (flows.encloses i) course.turns .refl (fun run member own panicked => ?_)
    (fun a verdict skipped => .inl ⟨skipped, rfl⟩) fun s index control sees answers =>
    ⟨flows.plain i inner _ _, .inr ?_⟩
  · apply unswept run member own
    rw [Run.Swept, panicked]
    rfl
  · obtain ⟨speaks, rfl, made⟩ := flows.returns i inner _ _ _ answers
    refine ⟨speaks, rfl, made ▸ flow.circuit.looks i _ _ _ _ _ _ fun p member => ?_⟩
    have declared : (flow.key p.1, if p.2 then Relationship.trigger else .observe) ∈ flow.relationships i :=
      List.mem_map_of_mem member
    constructor
    · exact (sees.data _ declared _ (flows.encloses p.1)).symm
    · exact (sees.hasMutated declared rfl).symm

/-- A node that is not swept reacts once to the snapshot that the cycle ends with if it is due, and
is left alone otherwise. -/
theorem Course.settles_in
    (course : Course prog.spawnless now (flow.relationships i) (flow.key i) seeded polled final)
    (flows : prog.Flows flow) (inner : flow.circuit.source i = false)
    (unswept : ∀ run ∈ final.runs, run.node = flow.key i → ¬ run.Swept)
    (told : Told (flow.relationships i) (flow.key i) polled) (top : polled.scheduler.currDepth = 0)
    (uncalled : ∀ calls mid, Turned prog.spawnless now polled calls mid →
      (polled.inner (flow.key i)).index ∉ calls) {t : Stimulus ι σ CycleTime} (time : t.time = now)
    (woken : t.woken i = true ↔ seeded) :
    flow.circuit.Settled t (flow.snapshot final) i (flow.value polled.world i) := by
  have trail := course.reacts flows inner unswept
  have due : flow.circuit.due t (flow.snapshot final).spoke i = true ↔
      seeded ∨ ∃ p ∈ flow.circuit.parents i, p.2 = true ∧ final.HasBroadcast (flow.key p.1) := by
    simp [Circuit.due, woken, Dataflow.snapshot]
  constructor
  case reacts =>
    intro wakes
    obtain ⟨run, member, own⟩ : ∃ run ∈ final.runs, run.node = flow.key i := by
      rcases due.mp wakes with seed | ⟨p, parent, trigger, spoke⟩
      · exact course.runs_of_seed seed top
      · refine course.runs_of_broadcast ?_ spoke
        have declared :=
          List.mem_map_of_mem
          (f := fun p => (flow.key p.1, if p.2 then Relationship.trigger else .observe)) parent
        rwa [trigger] at declared
    have listed : run.verdict ∈ final.verdicts (flow.key i) :=
      List.mem_map_of_mem (List.mem_filter.mpr ⟨member, by simpa using own⟩)
    have once := course.runs_once uncalled
    obtain ⟨verdict, single⟩ : ∃ verdict, final.verdicts (flow.key i) = [verdict] := by
      apply List.length_eq_one_iff.mp
      have some := List.length_pos_of_mem listed
      omega
    rw [single] at trail listed
    rcases trail.of_single with ⟨skipped, -⟩ | ⟨speaks, told, made⟩
    · rw [← List.mem_singleton.mp listed] at skipped
      rcases course.control_of_run member (unswept run member own) with unchanged | told
      · simp [unchanged] at skipped
      · simp [told] at skipped
    · rw [time, made]
      have spoke : (flow.snapshot final).spoke i = speaks := by
        cases speaks <;> simp [Dataflow.snapshot, hasBroadcast_iff, single, told, Control.from]
      rw [spoke]
      rfl
  case rests =>
    intro sleeps
    have none : final.verdicts (flow.key i) = [] := by
      rw [verdicts, List.map_eq_nil_iff, List.filter_eq_nil_iff]
      intro run member own
      replace own : run.node = flow.key i := by simpa using own
      have awake : flow.circuit.due t (flow.snapshot final).spoke i = true := by
        rw [due]
        by_cases seed : seeded
        · exact .inl seed
        · right
          obtain ⟨k, declared, spoke⟩ :=
            course.trigger_of_run told seed uncalled member own (unswept run member own)
          obtain ⟨p, parent, same⟩ := List.mem_map.mp declared
          simp only [Prod.mk.injEq] at same
          refine ⟨p, parent, ?_, by rwa [same.1]⟩
          by_contra observes
          simp [observes] at same
      rw [sleeps] at awake
      cases awake
    rw [none] at trail
    refine ⟨trail.eq_of_nil, ?_⟩
    simp [Dataflow.snapshot, hasBroadcast_iff, none]

end Course

section Pass

variable {fuel : Nat} {input : CycleInput} {ex last swept polled : Executor W}

/-- No call of `schedule_node` in the cycle is for a node of the circuit that reacts. -/
def Unscheduled (prog : Program W) (flow : Dataflow W ι σ) (now : CycleTime)
    (ex polled : Executor W) : Prop :=
  ∀ i, flow.circuit.source i = false → flow.key i < ex.inners.length →
    ∀ calls mid, Turned prog now polled calls mid →
    (ex.inner (flow.key i)).index ∉ calls

/-- What is known of the nodes that have been built. -/
structure Linked (flow : Dataflow W ι σ) (i : ι) (ex : Executor W) : Prop where
  lineage : Lineage (flow.relationships i) (flow.key i) ex
  told : Told (flow.relationships i) (flow.key i) ex

theorem Linked.path {ex' : Executor W} (linked : Linked flow i ex) (path : Path ex ex') : Linked flow i ex' :=
  ⟨path.lineage linked.lineage, path.told linked.lineage.built linked.told⟩

/-- A cycle solves the equations of its tick. -/
theorem Pass.solves (pass : Pass prog fuel input ex last swept) (flows : prog.Flows flow)
    (idle : ex.Idle) (few : ex.cycles + 1 < 2 ^ 64) (manuals : last.All Event.ManualPresent)
    (polls : poll input ex.beginCycle = .ok (some now, polled))
    (unscheduled : Unscheduled prog flow now ex polled) {order : List ι} {before : ∀ i, σ i}
    (inner : ∀ i ∈ order, flow.circuit.source i = false) (linked : ∀ i ∈ order, Linked flow i ex)
    (stays : ∀ i ∈ order, swept.Present (flow.key i))
    (shows : ∀ i ∈ order, before i = flow.value ex.world i) :
    flow.circuit.Solves (flow.tick now input ex last) order before (flow.snapshot last) := by
  obtain ⟨now', polled', final, s, polls', rfl, -, -, courses⟩ := pass.spawnless.courses idle few manuals
  rw [polls] at polls'
  cases polls'
  have begun : Path ex polled := .head .begin (poll_path polls)
  have world : polled.world = ex.world := (world_poll polls).trans rfl
  have top : polled.scheduler.currDepth = 0 := (Steady.of_poll polls).currDepth.trans idle.atRest.top
  refine ⟨fun i _ => ⟨rfl, rfl⟩, fun i member => ?_⟩
  have known := linked i member
  have built := known.lineage.built
  have index : (polled.inner (flow.key i)).index = (ex.inner (flow.key i)).index := by
    rw [inner_of_inners (inners_poll polls)]
    rfl
  rw [shows i member, ← world]
  refine (courses _ _ known.lineage (pass.present idle built (stays i member))).settles_in flows
    (inner i member)
    (pass.unswept idle built (stays i member)) (begun.told built known.told) top
    (fun calls mid turned => ?_) rfl decide_eq_true_iff
  rw [index]
  exact unscheduled i (inner i member) built calls mid (turned_spawnless turned)

end Pass

/-! ## Whole runs -/

/-- A run in which the nodes of a circuit come to be and react: the acts of the circuit, the states
in which the node loops ended, oldest first, and the executor. The nodes are built by their
constructors, between two cycles or in a deferred subgraph, with parents that are in the graph. -/
inductive Flowing (flow : Dataflow W ι σ) : List (Act ι σ CycleTime) → List (Executor W) → Executor W → Prop
  | start (cfg mode world) : Flowing flow [] [] (withConfig cfg mode world)
  | op (prog op) {acts history ex ex'} : Flowing flow acts history ex → prog.Flows flow →
      (∀ i, flow.circuit.source i = false → flow.key i < ex.inners.length → op.Leaves (flow.node i).data) →
      (∀ args, op = .build args → ∀ i, flow.circuit.source i = false → flow.key i ≠ ex.inners.length) →
      ex.execOp prog op = .ok ex' → Flowing flow acts history ex'
  | make (prog i start args) {acts history ex ex'} : Flowing flow acts history ex → prog.Flows flow →
      flow.circuit.source i = false → flow.key i = ex.inners.length →
      args.relationships = flow.relationships i →
      (∀ kr ∈ args.relationships, ex.Present kr.1) →
      ex.execOps prog (construct ((flow.node i).data.put start) args) = .ok ex' →
      Flowing flow (acts ++ [.make i start]) history ex'
  | opens (tickets) {acts history ex} : Flowing flow acts history ex →
      Flowing flow acts history { ex with deferredSpawns := tickets }
  | closes (prog ticket) {acts history ex} : Flowing flow acts history ex → prog.Flows flow →
      Flowing flow acts history (ex.dropOwner prog (.spawn ticket))
  | pass (prog fuel input now polled) {acts history ex last swept} : Flowing flow acts history ex →
      prog.Flows flow →
      poll input ex.beginCycle = .ok (some now, polled) → Unscheduled prog flow now ex polled →
      Pass prog fuel input ex last swept →
      Flowing flow (acts ++ [.tick (flow.tick now input ex last)]) (history ++ [last]) swept

/-- All nodes of the circuit that have been built are in the graph. -/
def Intact (flow : Dataflow W ι σ) (ex : Executor W) : Prop :=
  ∀ i, flow.circuit.source i = false → flow.key i < ex.inners.length → ex.Present (flow.key i)

variable {acts : List (Act ι σ CycleTime)} {history : List (Executor W)} {ex ex' : Executor W}

theorem Intact.back (intact : Intact flow ex') (path : Path ex ex') : Intact flow ex :=
  fun i inner built => path.present built (intact i inner (Path.seated path built).built)

namespace Flowing

theorem idle (flowing : Flowing flow acts history ex) : ex.Idle := by
  induction flowing with
  | start cfg mode world => exact ⟨[], .start ⟨cfg, mode, world, rfl⟩⟩
  | op prog op _ _ _ _ applied ih => exact ih.op applied
  | make prog i start args _ _ _ _ _ _ built ih => exact ih.ops built
  | opens tickets _ ih =>
    obtain ⟨history, life⟩ := ih
    exact ⟨_, life.opens tickets⟩
  | closes prog ticket _ _ ih =>
    obtain ⟨history, life⟩ := ih
    exact ⟨_, life.closes prog ticket trivial⟩
  | pass prog fuel input now polled _ _ _ _ pass ih =>
    obtain ⟨history, life⟩ := ih
    exact ⟨_, life.pass prog fuel input trivial pass trivial⟩

theorem constructed {start : σ i} {args : BuildArgs} (flowing : Flowing flow acts history ex)
    (next : flow.key i = ex.inners.length) (known : ∀ kr ∈ args.relationships, ex.Present kr.1)
    (built : ex.execOps prog (construct ((flow.node i).data.put start) args) = .ok ex') :
    Constructed prog ((flow.node i).data.put start) args (flow.key i) ex ex' := by
  refine ⟨flowing.idle, next.symm, fun kr declared => ?_, built⟩
  rw [next]
  exact (flowing.idle.inPlace.of_keyAt (known kr declared)).1

/-- A node of the circuit that is built after a step was built before it. -/
theorem built_of_op {op : ExecOp W}
    (none : ∀ args, op = .build args → ∀ i, flow.circuit.source i = false → flow.key i ≠ ex.inners.length)
    (applied : ex.execOp prog op = .ok ex') (inner : flow.circuit.source i = false)
    (built : flow.key i < ex'.inners.length) :
    flow.key i < ex.inners.length := by
  rcases nodes_execOp applied with same | ⟨⟨args, builds⟩, next⟩
  · rwa [same] at built
  · have other := none args builds i inner
    rw [next] at built
    exact Nat.lt_of_le_of_ne (Nat.le_of_lt_succ built) other

theorem linked (flowing : Flowing flow acts history ex) (inner : flow.circuit.source i = false)
    (built : flow.key i < ex.inners.length) : Linked flow i ex := by
  induction flowing with
  | start cfg mode world => exact absurd built (Nat.not_lt_zero _)
  | op prog op _ _ _ none applied ih =>
    exact (ih (built_of_op none applied inner built)).path (execOp_path prog applied)
  | make prog j start args flowing _ _ next rels known applied ih =>
    have made := flowing.constructed next known applied
    rw [made.nodes, next] at built
    rcases Nat.lt_or_eq_of_le (Nat.le_of_lt_succ built) with older | same
    · exact (ih older).path (execOps_path prog applied)
    · obtain rfl := flow.distinct i j (same.trans next.symm)
      have lineage := made.lineage
      have told := made.told known
      rw [rels] at lineage told
      exact ⟨lineage, told⟩
  | opens tickets _ ih => exact (ih built).path (.single (.code (.spawns tickets _)))
  | @closes prog ticket acts history ex flowing _ ih =>
    have run := dropOwner_run prog ex (.spawn ticket)
    rw [inners_of_handleRun run] at built
    exact (ih built).path (CodeRun.path run.code)
  | @pass prog fuel input now polled acts history ex last swept flowing _ _ _ pass ih =>
    obtain ⟨first, second⟩ := pass.path flowing.idle.atRest.wf
    have path : Path ex swept := first.trans second
    rw [pass.nodes_eq] at built
    exact (ih built).path path

end Flowing

/-- The circuit that replays the acts of a run is as the executor: its nodes are those that have been
built, each after its parents, they show the same, and in every tick the same nodes broadcast as in
the cycle. -/
structure Replays (flow : Dataflow W ι σ) (history : List (Executor W)) (ex : Executor W)
    (m : Reactor ι σ) : Prop where
  ordered : flow.circuit.Ordered m.order
  order : ∀ i, i ∈ m.order ↔ flow.circuit.source i = false ∧ flow.key i < ex.inners.length
  shows : ∀ i ∈ m.order, m.value i = flow.value ex.world i
  spoken : m.spoken = history.map fun last => (flow.snapshot last).spoke

variable [DecidableEq ι] {m : Reactor ι σ}

namespace Replays

/-- The constructor of another node. -/
theorem make {start : σ i} {args : BuildArgs} (replays : Replays flow history ex m) (flows : prog.Flows flow)
    (inner : flow.circuit.source i = false) (next : flow.key i = ex.inners.length)
    (rels : args.relationships = flow.relationships i)
    (made : Constructed prog ((flow.node i).data.put start) args (flow.key i) ex ex') :
    Replays flow history ex' { m with order := m.order ++ [i], value := Function.update m.value i start } := by
  obtain ⟨ordered, order, shows, spoken⟩ := replays
  have fresh : i ∉ m.order := by
    rw [order, next]
    exact fun no => absurd no.2 (Nat.lt_irrefl _)
  constructor
  case ordered =>
    refine ordered.snoc fresh inner fun p parent => ?_
    by_cases outer : flow.circuit.source p.1 = true
    · exact .inl outer
    · right
      rw [order]
      refine ⟨by simpa using outer, ?_⟩
      rw [← next]
      refine made.known (flow.key p.1, if p.2 then .trigger else .observe) ?_
      rw [rels]
      exact List.mem_map_of_mem parent
  case order =>
    intro j
    rw [List.mem_append, order, List.mem_singleton, made.nodes, next, Nat.lt_succ_iff_lt_or_eq]
    constructor
    · rintro (⟨inner, built⟩ | rfl)
      · exact ⟨inner, .inl built⟩
      · exact ⟨inner, .inr next⟩
    · rintro ⟨inner, built | same⟩
      · exact .inl ⟨inner, built⟩
      · exact .inr (flow.distinct j i (same.trans next.symm))
  case shows =>
    intro j member
    by_cases own : j = i
    · subst own
      have value := made.world (flows.drops j start) ((flow.node j).data.get_put start ex.world)
      exact (Function.update_self j start m.value).trans value.symm
    · have old : j ∈ m.order := by simpa [own] using member
      have value := made.world (flows.drops j (flow.value ex.world j))
        (flow.apart i j (Ne.symm own) start ex.world)
      exact (Function.update_of_ne own start m.value).trans ((shows j old).trans value.symm)
  case spoken => exact spoken

/-- A cycle. -/
theorem pass {fuel : Nat} {input : CycleInput} {last swept polled : Executor W}
    (replays : Replays flow history ex m) (flows : prog.Flows flow)
    (pass : Pass prog fuel input ex last swept) (idle : ex.Idle) (few : ex.cycles + 1 < 2 ^ 64)
    (manuals : last.All Event.ManualPresent)
    (polls : poll input ex.beginCycle = .ok (some now, polled))
    (unscheduled : Unscheduled prog flow now ex polled) (linked : ∀ i ∈ m.order, Linked flow i ex)
    (stays : ∀ i ∈ m.order, swept.Present (flow.key i)) :
    ∃ m', flow.circuit.handle m (.tick (flow.tick now input ex last)) = some m' ∧
      Replays flow (history ++ [last]) swept m' := by
  obtain ⟨ordered, order, shows, spoken⟩ := replays
  have inner : ∀ i ∈ m.order, flow.circuit.source i = false := fun i member => ((order i).mp member).1
  have solves := pass.solves flows idle few manuals polls unscheduled inner linked stays shows
  obtain ⟨f, ticked, done, rest⟩ := Circuit.tick_of_solves ordered solves
  refine ⟨⟨m.order, f.value, m.spoken ++ [f.spoke]⟩, by rw [Circuit.handle, ticked]; rfl, ordered,
    fun i => ?_, fun i member => ?_, ?_⟩
  · rw [order, pass.nodes_eq]
  · have value := sweepLoop_world (flows.drops i (flow.value last.world i)) pass.sweeps rfl
    exact (done i member).1.trans value.symm
  · have spoke : f.spoke = (flow.snapshot last).spoke := by
      funext i
      by_cases member : i ∈ m.order
      · exact (done i member).2
      · rw [(rest i member).2]
        cases outer : flow.circuit.source i with
        | true => simp [Circuit.enter, outer, Dataflow.tick]
        | false =>
          -- a node that has not been built does not run
          have silent : ¬ last.HasBroadcast (flow.key i) := by
            rintro ⟨run, ran, own, -⟩
            obtain ⟨here, -⟩ := pass.present_of_run idle ran
            rw [own] at here
            exact member ((order i).mpr ⟨outer, (idle.inPlace.of_keyAt here).1⟩)
          simp [Circuit.enter, outer, Dataflow.snapshot, silent]
    show m.spoken ++ [f.spoke] = _
    rw [spoken, spoke, List.map_append, List.map_singleton]

end Replays

variable [∀ i, Inhabited (σ i)]

/-- As long as the nodes of the circuit are in the graph. -/
theorem Flowing.replays (flowing : Flowing flow acts history ex) (intact : Intact flow ex)
    (few : ex.cycles < 2 ^ 64) (manuals : ex.All Event.ManualPresent) :
    ∃ m, flow.circuit.replay acts = some m ∧ Replays flow history ex m := by
  induction flowing with
  | start cfg mode world =>
    exact ⟨_, rfl, .nil, fun i => iff_of_false List.not_mem_nil fun no => Nat.not_lt_zero _ no.2,
      fun _ no => absurd no List.not_mem_nil, rfl⟩
  | @op prog op acts history ex ex' flowing flows leaves none applied ih =>
    have path := execOp_path prog applied
    obtain ⟨m, played, ordered, order, shows, spoken⟩ :=
      ih (intact.back path) (Nat.lt_of_le_of_lt (Path.cycles_le path) few)
      (Path.all path manuals)
    refine ⟨m, played, ordered, fun i => ?_, fun i member => ?_, spoken⟩
    · rw [order]
      refine and_congr_right fun inner =>
        ⟨fun built => (Path.seated path built).built, Flowing.built_of_op none applied inner⟩
    · obtain ⟨inner, built⟩ := (order i).mp member
      rw [shows i member]
      exact (execOp_world (flows.drops i _) (leaves i inner built _) applied rfl).symm
  | @make prog i start args acts history ex ex' flowing flows inner next rels known applied ih =>
    have path := execOps_path prog applied
    obtain ⟨m, played, replays⟩ :=
      ih (intact.back path) (Nat.lt_of_le_of_lt (Path.cycles_le path) few) (Path.all path manuals)
    exact ⟨_, Circuit.replay_concat played,
      replays.make flows inner next rels (flowing.constructed next known applied)⟩
  | opens tickets flowing ih =>
    obtain ⟨m, played, ordered, order, shows, spoken⟩ := ih intact few manuals
    exact ⟨m, played, ordered, order, shows, spoken⟩
  | @closes prog ticket acts history ex flowing flows ih =>
    have run := dropOwner_run prog ex (.spawn ticket)
    have path := CodeRun.path run.code
    obtain ⟨m, played, ordered, order, shows, spoken⟩ :=
      ih (intact.back path) (Nat.lt_of_le_of_lt (Path.cycles_le path) few)
      (Path.all path manuals)
    refine ⟨m, played, ordered, fun i => ?_, fun i member => ?_, spoken⟩
    · rw [order, inners_of_handleRun run]
    · rw [shows i member]
      exact (dropOwner_world (flows.drops i _) _ rfl).symm
  | @pass prog fuel input now polled acts history ex last swept flowing flows polls unscheduled pass ih =>
    obtain ⟨first, second⟩ := pass.path flowing.idle.atRest.wf
    have path : Path ex swept := first.trans second
    have fewer := pass.cycles_lt flowing.idle.wf few
    obtain ⟨m, played, replays⟩ := ih (intact.back path) (Nat.lt_of_succ_lt fewer) (Path.all path manuals)
    have known := fun i member => (replays.order i).mp member
    obtain ⟨m', handled, replays'⟩ :=
      replays.pass flows pass flowing.idle fewer (Path.all second manuals) polls unscheduled
      (fun i member => flowing.linked (known i member).1 (known i member).2)
      fun i member => intact i (known i member).1 (by rw [pass.nodes_eq]; exact (known i member).2)
    exact ⟨m', by rw [Circuit.replay_concat played, handled], replays'⟩

/-- An executor is a synchronous circuit, as long as the nodes are in the graph: replaying what
happened, node by node in the order in which they were built, shows what the executor shows, and in
each tick the same nodes broadcast. -/
theorem flow_is_synchronous (flowing : Flowing flow acts history ex)
    (intact : Intact flow ex) (few : ex.cycles < 2 ^ 64) (manuals : ex.All Event.ManualPresent) :
    ∃ m, flow.circuit.replay acts = some m ∧
      (∀ i, i ∈ m.order ↔ flow.circuit.source i = false ∧ flow.key i < ex.inners.length) ∧
      (∀ i ∈ m.order, m.value i = flow.value ex.world i) ∧
      m.spoken = history.map fun last i => decide (last.HasBroadcast (flow.key i)) := by
  obtain ⟨m, played, replays⟩ := flowing.replays intact few manuals
  exact ⟨m, played, replays.order, replays.shows, replays.spoken⟩

/-- A source, its even items, and these without repetitions, as a circuit. -/
inductive Pipe where
  | source
  | kept
  | unique
  deriving DecidableEq, Repr

namespace Pipe

def node : Pipe → Node Flow (List Nat)
  | source => ⟨0, sourceFlow⟩
  | kept => ⟨1, keptFlow⟩
  | unique => ⟨2, uniqueFlow⟩

def parents : Pipe → List (Pipe × Bool)
  | source => []
  | kept => [(source, true)]
  | unique => [(kept, true)]

def shows (value : Pipe → List Nat) : Pipe → List Nat
  | source => []
  | kept => evens.view (value source)
  | unique => distinct.view (value kept)

end Pipe

def pipe : Dataflow Flow Pipe (fun _ => List Nat) where
  circuit :=
    { source := fun i => i = .source
      parents := Pipe.parents
      react := fun i _ _ value _ => some (Pipe.shows value i, !(Pipe.shows value i).isEmpty)
      looks := by
        intro i _ _ value value' _ _ same
        cases i with
        | source => rfl
        | kept => simp only [Pipe.shows, (same (.source, true) (List.mem_singleton_self _)).1]
        | unique => simp only [Pipe.shows, (same (.kept, true) (List.mem_singleton_self _)).1] }
  node := Pipe.node
  distinct := by
    intro i j
    cases i <;> cases j <;> simp [Pipe.node]
  apart := by
    intro i j other
    cases i <;> cases j <;> first | exact absurd rfl other | exact fun _ _ => rfl

theorem stage_returns {T : Type} {kind : StageKind T} {own : Cell W (List T)}
    {parent : Node W (List T)} {ctx : ExecutionContext} {control : Control}
    (answers : (transformStream own parent kind.transform streamAnswer ex ctx).2 = .ret control) :
    control = streamAnswer (kind.view (parent.borrow ex.world)) ∧
      own.get ((transformStream own parent kind.transform streamAnswer ex ctx).1.foldl Effect.onWorld ex.world) =
        kind.view (parent.borrow ex.world) := by
  unfold transformStream at answers ⊢
  cases made : kind.transform (own.get ex.world) (parent.borrow ex.world) with
  | ok value =>
    rw [made] at answers
    cases answers
    rw [StageKind.eq_view made]
    exact ⟨rfl, own.get_put _ _⟩
  | error value =>
    rw [made] at answers
    cases answers

theorem pipe_flows : (flowing (accumulateItems addUp)).Flows pipe := by
  constructor
  case plain =>
    intro i _ ex ctx effect member
    rcases flowing_effects member with ⟨-, items, rfl⟩ | ⟨-, items, rfl⟩ | ⟨-, items, rfl⟩ |
      ⟨-, total, rfl⟩ <;> trivial
  case returns =>
    intro i inner ex ctx control answers
    cases i with
    | source => cases inner
    | kept =>
      obtain ⟨rfl, value⟩ := @stage_returns Flow ex Nat evens keptFlow ⟨0, sourceFlow⟩ ctx control answers
      exact ⟨_, rfl, congrArg some (Prod.ext value.symm rfl)⟩
    | unique =>
      obtain ⟨rfl, value⟩ := @stage_returns Flow ex Nat distinct uniqueFlow ⟨1, keptFlow⟩ ctx control answers
      exact ⟨_, rfl, congrArg some (Prod.ext value.symm rfl)⟩
  case runs =>
    intro i
    cases i with
    | source => exact flowing_source.runs
    | kept => exact flowing_keeps.spares.runs
    | unique => exact flowing_deduplicates.spares.runs
  case drops =>
    intro i
    cases i with
    | source => exact flowing_source.drops
    | kept => exact flowing_keeps.spares.drops
    | unique => exact flowing_deduplicates.spares.drops

/-- The program of the pipeline. -/
abbrev piping : Program Flow := flowing (accumulateItems addUp)

/-- The pipeline is built in slots of one's choice, an event wakes its source, and a cycle runs it. -/
structure Piped (indices : Nat → NodeIndex) (op : DriverOp) (start moved last swept : Executor Flow)
    (now : CycleTime) : Prop where
  fresh : start.inners.length = 0
  steps : ∃ zero first kept second unique polled,
    start.execOp piping (.build { index := indices 0 }) = .ok zero ∧
      zero.execOp piping (.handle (.clone 0 .user)) = .ok first ∧
    first.execOps piping (filterStreamNode ⟨0, sourceFlow⟩ (indices 1) .insertion keptFlow) = .ok kept ∧
    kept.execOp piping (.handle (.clone 1 .user)) = .ok second ∧
    second.execOps piping (deduplicateStreamNode ⟨1, keptFlow⟩ (indices 2) .insertion uniqueFlow) =
    .ok unique ∧
    unique.execOp piping (.driver op) = .ok moved ∧
    poll .anHourLater moved.beginCycle = .ok (some now, polled) ∧
    (first.inners.length = 1 ∧ second.inners.length = 2) ∧ first.Present 0 ∧ second.Present 1
  pass : Pass piping 4 .anHourLater moved last swept
  woken : ∀ k < 3, (moved.inner k).index ∈ (seeds .anHourLater moved).map (·.index) ↔ k = 0
  speaks : ∀ k < 3, last.HasBroadcast k
  world : last.world = ⟨[1, 2, 2, 4], [2, 2, 4], [2, 4], 0⟩
  built : swept.inners.length = 3
  present : ∀ k < 3, swept.Present k
  few : swept.cycles < 2 ^ 64
  manuals : swept.All Event.ManualPresent

/-- A yield wakes the source. -/
theorem piped : ∃ moved last swept, Piped id (.yieldNow (.node 0)) dry moved last swept ⟨1, 0⟩ :=
  ⟨_, _, _, ⟨rfl, ⟨_, _, _, _, _, _, rfl, rfl, rfl, rfl, rfl, rfl, rfl, by decide, by decide, by decide⟩,
    ⟨rfl, rfl⟩, by decide,
    by decide, rfl, rfl, by decide, by decide, by decide⟩⟩

/-- Another executor, with a timer driver. -/
def clocked : Executor Flow := withConfig { ioEnabled := false } .spin ⟨[], [], [], 0⟩

/-- The nodes are in other slots, and a timer wakes the source. -/
theorem piped_clocked : ∃ moved last swept, Piped (fun k => 7 - k)
    (.registerTimer (.node 0) 1) clocked moved last swept ⟨1, 0⟩ :=
  ⟨_, _, _, ⟨rfl, ⟨_, _, _, _, _, _, rfl, rfl, rfl, rfl, rfl, rfl, rfl, by decide, by decide, by decide⟩,
    ⟨rfl, rfl⟩, by decide,
    by decide, rfl, rfl, by decide, by decide, by decide⟩⟩

theorem Piped.intact {indices : Nat → NodeIndex} {op : DriverOp} {start moved last swept : Executor Flow}
    (piped : Piped indices op start moved last swept now) : Intact pipe swept := by
  intro i _ built
  rw [piped.built] at built
  exact piped.present _ built

theorem pipe_life {indices : Nat → NodeIndex} {op : DriverOp} {cfg : EventDriverConfig}
    {mode : ExecutionMode} {world : Flow} {moved last swept : Executor Flow}
    (piped : Piped indices op (withConfig cfg mode world) moved last swept now) :
    Flowing pipe [.make .kept [], .make .unique [],
      .tick (pipe.tick now .anHourLater moved last)] [last] swept := by
  obtain ⟨zero, first, kept, second, unique, polled, sourced, cloned, filters, cloned',
    deduplicates, woken, polls, nexts, there,
    there'⟩ := piped.steps
  have source : Flowing pipe [] [] zero := by
    refine (Flowing.start cfg mode world).op piping (.build { index := indices 0 }) pipe_flows
      (fun _ _ no => absurd no (Nat.not_lt_zero _)) (fun _ _ i inner => ?_) sourced
    rw [piped.fresh]
    cases i with
    | source => cases inner
    | kept => exact Nat.one_ne_zero
    | unique => exact two_ne_zero
  have parent : Flowing pipe [] [] first :=
    source.op piping (.handle (.clone 0 .user)) pipe_flows (fun _ _ _ _ => trivial)
      (fun _ no => by cases no) cloned
  have filters' : first.execOps piping
      (construct ((pipe.node Pipe.kept).data.put [])
        (accumulateArgs ⟨0, sourceFlow⟩ (indices 1) .insertion)) = .ok kept := filters
  have filter : Flowing pipe [.make .kept []] [] kept :=
    parent.make piping Pipe.kept _ _ pipe_flows rfl nexts.1.symm rfl
    (fun kr declared => by rwa [List.mem_singleton.mp declared]) filters'
  have parent' : Flowing pipe [.make .kept []] [] second :=
    filter.op piping (.handle (.clone 1 .user)) pipe_flows (fun _ _ _ _ => trivial)
      (fun _ no => by cases no) cloned'
  have deduplicates' : second.execOps piping
      (construct ((pipe.node Pipe.unique).data.put [])
        (accumulateArgs ⟨1, keptFlow⟩ (indices 2) .insertion)) = .ok unique := deduplicates
  have both : Flowing pipe [.make .kept [], .make .unique []] [] unique :=
    parent'.make piping Pipe.unique _ _ pipe_flows rfl
    nexts.2.symm rfl (fun kr declared => by rwa [List.mem_singleton.mp declared]) deduplicates'
  have ready : Flowing pipe [.make .kept [], .make .unique []] [] moved :=
    both.op piping (.driver op) pipe_flows (fun _ _ _ _ => trivial) (fun _ no => by cases no) woken
  have quiet : piping.NoManual := by
    intro s ctx k j member
    rcases flowing_effects member with ⟨-, items, no⟩ | ⟨-, items, no⟩ | ⟨-, items, no⟩ |
      ⟨-, value, no⟩ <;> cases no
  refine ready.pass _ 4 _ now polled pipe_flows polls (fun i _ _ calls mid turned => ?_) piped.pass
  rw [turned.calls_eq_nil quiet]
  exact List.not_mem_nil

/-- The pipeline gets one batch. -/
theorem pipe_is_synchronous :
    ∃ moved last swept m, Piped id (.yieldNow (.node 0)) dry moved last swept ⟨1, 0⟩ ∧
      pipe.circuit.replay [.make .kept [], .make .unique [],
      .tick (pipe.tick ⟨1, 0⟩ .anHourLater moved last)] = some m ∧
      m.value .unique = swept.world.unique := by
  obtain ⟨moved, last, swept, run⟩ := piped
  obtain ⟨m, played, made, shows, -⟩ := flow_is_synchronous (pipe_life run) run.intact run.few run.manuals
  exact ⟨moved, last, swept, m, run, played, shows .unique ((made _).mpr ⟨rfl, by rw [run.built]; decide⟩)⟩

/-- What a circuit shows is up to what happens to it: two executors, with other indices, keys, orders
of hashing and drivers, other programs and other nodes besides, show the same if the same nodes are
built in the same order and each cycle wakes the same nodes and gives the sources the same. -/
theorem flow_determined {W' : Type} {flow' : Dataflow W' ι σ} {history' : List (Executor W')}
    {ex' : Executor W'} (circuit : flow'.circuit = flow.circuit)
    (flowing : Flowing flow acts history ex) (flowing' : Flowing flow' acts history' ex')
    (intact : Intact flow ex) (intact' : Intact flow' ex') (few : ex.cycles < 2 ^ 64)
    (few' : ex'.cycles < 2 ^ 64) (manuals : ex.All Event.ManualPresent)
    (manuals' : ex'.All Event.ManualPresent) :
    (∀ i, flow.circuit.source i = false → flow.key i < ex.inners.length →
      flow'.key i < ex'.inners.length ∧ flow.value ex.world i = flow'.value ex'.world i) ∧
      history.map (fun last i => decide (last.HasBroadcast (flow.key i))) =
        history'.map fun last i => decide (last.HasBroadcast (flow'.key i)) := by
  obtain ⟨m, played, replays⟩ := flowing.replays intact few manuals
  obtain ⟨m', played', replays'⟩ := flowing'.replays intact' few' manuals'
  rw [circuit] at played'
  obtain rfl : m = m' := Option.some.inj (played.symm.trans played')
  refine ⟨fun i inner built => ?_, replays.spoken.symm.trans replays'.spoken⟩
  have made : i ∈ m.order := (replays.order i).mpr ⟨inner, built⟩
  exact ⟨((replays'.order i).mp made).2, (replays.shows i made).symm.trans (replays'.shows i made)⟩

theorem pipe_determined :
    ∃ moved last swept moved' last' swept', Piped id (.yieldNow (.node 0)) dry moved last swept ⟨1, 0⟩ ∧
      Piped (fun k => 7 - k) (.registerTimer (.node 0) 1) clocked moved' last' swept' ⟨1, 0⟩ ∧
      swept.world.unique = swept'.world.unique := by
  obtain ⟨moved, last, swept, run⟩ := piped
  obtain ⟨moved', last', swept', run'⟩ := piped_clocked
  have acts : pipe.tick ⟨1, 0⟩ .anHourLater moved' last' = pipe.tick ⟨1, 0⟩ .anHourLater moved last := by
    have small : ∀ i, pipe.key i < 3 := fun i => by cases i <;> decide
    rw [Dataflow.tick, Dataflow.tick, Stimulus.mk.injEq]
    refine ⟨rfl, funext fun i => ?_, funext fun i => ?_⟩
    · exact decide_eq_decide.mpr ((run'.woken _ (small i)).trans (run.woken _ (small i)).symm)
    · have spoke : decide (last'.HasBroadcast (pipe.key i)) = decide (last.HasBroadcast (pipe.key i)) :=
        decide_eq_decide.mpr (iff_of_true (run'.speaks _ (small i)) (run.speaks _ (small i)))
      simp only [Dataflow.snapshot, run.world, run'.world, spoke]
  have life' := pipe_life run'
  rw [acts] at life'
  have same :=
    flow_determined rfl (pipe_life run) life' run.intact run'.intact run.few run'.few run.manuals run'.manuals
  exact ⟨moved, last, swept, moved', last', swept', run, run',
    (same.1 .unique rfl (by rw [run.built]; decide)).2⟩

end Executor
end Wavelet
