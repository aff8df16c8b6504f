import Wavelet.Cycle.Life
import Wavelet.Cycle.Order
import Wavelet.Runtime.Walks

/-!
# Deferred subgraphs

A cycle function hands a closure to `spawn_subgraph`, and the executor calls it after the sweep of
the cycle. A cycle that stops early leaves the closures where they are, for the first one that
does not.
-/

namespace Wavelet
namespace Executor

open Relation Steps

variable {W : Type} {prog : Program W}

/-! ## Who makes closures -/

/-- The closures that wait, and the number of those made so far. -/
def spawning (ex : Executor W) : List Nat × Nat := (ex.deferredSpawns, ex.tickets)

theorem spawning_of_handles {ex ex' : Executor W} (run : HandleRun ex ex') : ex'.spawning = ex.spawning := by
  refine run_inv (p := fun s : Executor W => s.spawning = ex.spawning) (fun s s' step same => ?_) run rfl
  rw [← same]
  cases step <;> rfl

/-- Whatever closures have been made meanwhile wait at the end. -/
def Defers (ex ex' : Executor W) : Prop :=
  ∃ n, ex'.deferredSpawns = ex.deferredSpawns ++ List.range' ex.tickets n ∧ ex'.tickets = ex.tickets + n

namespace Defers

theorem of_same {ex ex' : Executor W} (same : ex'.spawning = ex.spawning) : Defers ex ex' := by
  rw [spawning, spawning, Prod.mk.injEq] at same
  exact ⟨0, by rw [same.1]; simp, same.2⟩

theorem trans {a b c : Executor W} (first : Defers a b) (second : Defers b c) : Defers a c := by
  obtain ⟨n, queue, made⟩ := first
  obtain ⟨m, queue', made'⟩ := second
  refine ⟨n + m, ?_, by omega⟩
  rw [queue', queue, made, List.append_assoc, List.range'_append_1]

theorem effect {ex ex' : Executor W} {effect : Effect W}
    (h : ex.applyEffect prog effect = some ex') : Defers ex ex' := by
  cases effect with
  | handle op =>
    cases h
    exact of_same (spawning_of_handles (handleOp_run prog ex op))
  | driver op =>
    obtain ⟨driver, trace, rfl⟩ := driverOp_ok h
    exact of_same rfl
  | scheduleNode k =>
    simp only [applyEffect, scheduleNode] at h
    split at h
    · split at h
      · cases h
        exact of_same rfl
      · cases h
        exact of_same rfl
      · cases h
    · cases h
      exact of_same rfl
  | spawnSubgraph captures =>
    cases h
    have clones :=
      @foldl_steps _ _ HandleStep (fun s k => s.cloneHandle (.spawn ex.tickets) k) captures
      (fun s k _ => cloneHandle_run s _ k)
      ({ ex with deferredSpawns := ex.deferredSpawns ++ [ex.tickets], tickets := ex.tickets + 1 } : Executor W)
    have same := spawning_of_handles clones
    rw [spawning, spawning, Prod.mk.injEq] at same
    exact ⟨1, same.1, same.2⟩

theorem walks (prog : Program W) : Walks prog Defers where
  trans := Defers.trans
  same _ queue made _ _ := of_same (by rw [spawning, spawning, queue, made])
  enter _ := of_same rfl
  drop ex o k := of_same (spawning_of_handles (dropHandle_run prog ex o k))
  runs ex _ _ _ :=
    effects_inv (p := Defers ex) (fun _ _ before applied => before.trans (effect applied)) (of_same rfl)

theorem nodes {fuel : Nat} {input : CycleInput} {exit : Exit} {ex ex' : Executor W}
    (h : runNodes prog fuel input ex = .ok (exit, ex')) : Defers ex ex' := by
  have polling : ∀ {t : Option CycleTime} {polled : Executor W}, poll input ex.beginCycle =
      .ok (t, polled) → Defers ex polled := by
    intro t polled polls
    refine of_same (poll_inv (p := fun s : Executor W => s.spawning = ex.spawning) (fun _ _ same => same)
      (fun source r s s' fired same => ?_) polls rfl)
    obtain ⟨o, mid, offered, -, rfl⟩ := fire_ok fired
    rw [← same]
    rcases offer_cases offered with ⟨-, rfl, -⟩ | ⟨_, -, -, -, rfl⟩ | ⟨_, -, -, -, -, rfl⟩ |
      ⟨_, -, -, -, -, -, rfl⟩ <;> rfl
  rcases runNodes_ok prog h with ⟨-, polls⟩ | ⟨now, polled, polls, loops⟩
  · exact polling polls
  · exact (polling polls).trans ((walks prog).loop loops)

end Defers

theorem range_later (m n : Nat) : List.range (m + n) = List.range m ++ List.range' m n := by
  rw [List.range_eq_range', List.range_eq_range', ← List.range'_append_1, Nat.zero_add]

/-! ## Who calls them -/

/-- Neither an operation nor the sweep touches them. -/
theorem spawning_execOp {op : ExecOp W} {ex ex' : Executor W} (h : ex.execOp prog op = .ok ex') :
    ex'.spawning = ex.spawning := by
  cases op with
  | handle op =>
    cases h
    exact spawning_of_handles (handleOp_run prog ex op)
  | driver op =>
    simp only [execOp] at h
    split at h
    · rename_i next applied
      cases h
      obtain ⟨driver, trace, rfl⟩ := driverOp_ok applied
      rfl
    · cases h
  | build args =>
    obtain ⟨depth, graph, handles, -, -, -, rfl, -⟩ := build_ok h
    rfl

theorem spawning_sweepLoop {fuel : Nat} {ex ex' : Executor W}
    (h : sweepLoop prog fuel ex = .ok ex') : ex'.spawning = ex.spawning := by
  induction fuel generalizing ex with
  | zero => cases h
  | succ fuel ih =>
    rw [sweepLoop] at h
    split at h
    · cases h
      rfl
    · rename_i r rest marked
      rw [ih h, removeNode]
      split
      · rfl
      · rename_i k here
        rw [spawning_of_handles (dropOwner_run prog ..), spawning_of_handles (dropOwner_run prog ..)]
        rfl

/-- The calls of the closures, each with the executor that it gets. -/
def spawnCalls (prog : Program W) : List Nat → Executor W → List (Nat × Executor W)
  | [], _ => []
  | ticket :: rest, ex =>
    (ticket, ex) :: ((runSpawn prog { ex with deferredSpawns := rest } ticket).map
        (spawnCalls prog rest)).toOption.getD []

theorem spawning_runSpawns {tickets : List Nat} {ex ex' : Executor W}
    (h : runSpawns prog tickets ex = .ok ex') (queue : ex.deferredSpawns = tickets)
    (rests : ex.scheduler.AtRest) :
    ex'.deferredSpawns = [] ∧ ex'.tickets = ex.tickets ∧ (spawnCalls prog tickets ex).map (·.1) = tickets ∧
      ∀ call ∈ spawnCalls prog tickets ex, call.2.scheduler.AtRest := by
  induction tickets generalizing ex with
  | nil =>
    cases h
    exact ⟨queue, rfl, rfl, fun _ none => by cases none⟩
  | cons ticket rest ih =>
    obtain ⟨mid, spawned, later⟩ := bind_ok h
    have called : spawnCalls prog (ticket :: rest) ex = (ticket, ex) :: spawnCalls prog rest mid := by
      rw [spawnCalls, spawned]
      rfl
    have same : mid.spawning = (rest, ex.tickets) := by
      obtain ⟨built, ops, rfl⟩ := map_ok spawned
      rw [spawning_of_handles (dropOwner_run prog built _)]
      exact foldlM_inv (p := fun s : Executor W => s.spawning = (rest, ex.tickets))
        (fun _ _ _ _ applied same => (spawning_execOp applied).trans same) ops rfl
    rw [spawning, Prod.mk.injEq] at same
    have rests' : mid.scheduler.AtRest := by
      obtain ⟨built, ops, rfl⟩ := map_ok spawned
      rw [scheduler_of_handleRun (dropOwner_run prog built _)]
      exact foldlM_inv (p := fun s : Executor W => s.scheduler.AtRest)
        (fun _ _ _ _ applied rests => execOp_atRest applied rests) ops rests
    obtain ⟨none, made, tickets, each⟩ := ih later same.1 rests'
    rw [called]
    refine ⟨none, made.trans same.2, by rw [List.map_cons, tickets], fun call member => ?_⟩
    rcases List.mem_cons.mp member with rfl | member
    · exact rests
    · exact each call member

/-! ## Runs -/

/-- A run of an executor, with the closures that it has called, oldest first. -/
inductive Spawning : List (Nat × Executor W) → Executor W → Prop
  | start (cfg mode world) : Spawning [] (withConfig cfg mode world)
  | op (prog op) {calls ex ex'} : Spawning calls ex → ex.execOp prog op = .ok ex' → Spawning calls ex'
  | stopped (prog fuel input exit) {calls ex ex'} : Spawning calls ex →
      runNodes prog fuel input ex = .ok (exit, ex') → exit ≠ .running →
      Spawning calls ex'
  | cycle (prog fuel input) {calls ex last swept ex'} : Spawning calls ex →
      Pass prog fuel input ex last swept →
      runSpawns prog swept.deferredSpawns swept = .ok ex' →
      Spawning (calls ++ spawnCalls prog swept.deferredSpawns swept) ex'

theorem Spawning.of_cycle {fuel : Nat} {input : CycleInput} {exit : Exit}
    {calls : List (Nat × Executor W)} {ex ex' : Executor W} (run : Spawning calls ex)
    (h : Executor.cycle prog fuel input ex = .ok (exit, ex')) : ∃ more, Spawning (calls ++ more) ex' := by
  rcases cycle_ok prog h with ⟨early, nodes⟩ | ⟨-, mid, swept, nodes, sweeps, spawns⟩
  · exact ⟨[], by rw [List.append_nil]; exact .stopped prog fuel input exit run nodes early⟩
  · exact ⟨_, .cycle prog fuel input run ⟨nodes, sweeps⟩ spawns⟩

theorem Spawning.path {calls : List (Nat × Executor W)} {ex : Executor W} (run : Spawning calls ex) :
    ∃ cfg mode world, Path (withConfig cfg mode world) ex := by
  induction run with
  | start cfg mode world => exact ⟨cfg, mode, world, .refl⟩
  | op prog op _ applied ih =>
    obtain ⟨cfg, mode, world, path⟩ := ih
    exact ⟨cfg, mode, world, path.trans (execOp_path prog applied)⟩
  | stopped prog fuel input exit _ nodes _ ih =>
    obtain ⟨cfg, mode, world, path⟩ := ih
    exact ⟨cfg, mode, world, path.trans (runNodes_path prog nodes)⟩
  | cycle prog fuel input _ pass spawns ih =>
    obtain ⟨cfg, mode, world, path⟩ := ih
    obtain ⟨first, second⟩ := pass.path (path.schedulerWF Scheduler.new_wf)
    exact ⟨cfg, mode, world, path.trans (first.trans (second.trans (runSpawns_path prog spawns)))⟩

/-- What one cycle does that is not stopped. -/
theorem Pass.spawns {fuel : Nat} {input : CycleInput} {ex last swept ex' : Executor W}
    (pass : Pass prog fuel input ex last swept) (wf : ex.scheduler.WF)
    (spawns : runSpawns prog swept.deferredSpawns swept = .ok ex') :
    ex'.deferredSpawns = [] ∧
      ∃ n, ex'.tickets = ex.tickets + n ∧
        (spawnCalls prog swept.deferredSpawns swept).map (·.1) = ex.deferredSpawns ++
        List.range' ex.tickets n ∧
        ∀ call ∈ spawnCalls prog swept.deferredSpawns swept, call.2.scheduler.AtRest := by
  have rests : swept.scheduler.AtRest := by
    rw [(sweepLoop_path prog (runNodes_atRest prog wf pass.nodes) pass.sweeps).2.1]
    exact runNodes_atRest prog wf pass.nodes
  obtain ⟨none, made, called, each⟩ := spawning_runSpawns spawns rfl rests
  obtain ⟨n, queue, tickets⟩ := Defers.nodes pass.nodes
  have same := spawning_sweepLoop pass.sweeps
  rw [spawning, spawning, Prod.mk.injEq] at same
  exact ⟨none, n, by rw [made, same.2, tickets], by rw [called, same.1, queue], each⟩

/-- In every run, whatever cycles of it fail or are stopped: each closure given to
`spawn_subgraph` is called once, in the order in which they were given, none is lost, and none
is called while a node is queued. A cycle that runs on calls all those that are left. -/
theorem closures_called_once {calls : List (Nat × Executor W)} {ex : Executor W} (run : Spawning calls ex) :
    calls.map (·.1) ++ ex.deferredSpawns = List.range ex.tickets ∧ (∀ call ∈ calls, call.2.scheduler.AtRest) ∧
      ∀ prog fuel input ex', Executor.cycle prog fuel input ex = .ok (.running, ex') →
        ∃ more, Spawning (calls ++ more) ex' ∧ (calls ++ more).map (·.1) = List.range ex'.tickets := by
  have counts : ∀ {calls : List (Nat × Executor W)} {ex : Executor W}, Spawning calls ex →
      calls.map (·.1) ++ ex.deferredSpawns = List.range ex.tickets ∧
      ∀ call ∈ calls, call.2.scheduler.AtRest := by
    intro calls ex run
    induction run with
    | start cfg mode world => exact ⟨rfl, fun _ none => by cases none⟩
    | op prog op _ applied ih =>
      have same := spawning_execOp applied
      rw [spawning, spawning, Prod.mk.injEq] at same
      rw [same.1, same.2]
      exact ih
    | stopped prog fuel input exit _ nodes _ ih =>
      obtain ⟨n, queue, made⟩ := Defers.nodes nodes
      refine ⟨?_, ih.2⟩
      rw [queue, made, ← List.append_assoc, ih.1]
      exact (range_later _ _).symm
    | @cycle prog fuel input calls ex last swept ex' before pass spawns ih =>
      obtain ⟨cfg, mode, world, path⟩ := before.path
      obtain ⟨none, n, made, called, each⟩ := pass.spawns (path.schedulerWF Scheduler.new_wf) spawns
      constructor
      · rw [none, List.append_nil, List.map_append, called, made, ← List.append_assoc, ih.1]
        exact (range_later _ _).symm
      · intro call member
        rcases List.mem_append.mp member with past | new
        · exact ih.2 call past
        · exact each call new
  refine ⟨(counts run).1, (counts run).2, fun prog fuel input ex' h => ?_⟩
  rcases cycle_ok prog h with ⟨no, -⟩ | ⟨-, mid, swept, nodes, sweeps, spawns⟩
  · exact absurd rfl no
  · have pass : Pass prog fuel input ex mid swept := ⟨nodes, sweeps⟩
    have next := Spawning.cycle prog fuel input run pass spawns
    refine ⟨_, next, ?_⟩
    obtain ⟨cfg, mode, world, path⟩ := run.path
    have none := (pass.spawns (path.schedulerWF Scheduler.new_wf) spawns).1
    rw [← (counts next).1, none, List.append_nil]

/-- Every node defers a subgraph. -/
def deferring (control : Control) : Program Unit where
  cycleFn _ _ _ := ([.spawnSubgraph []], .ret control)
  onDrop _ _ := []
  spawnFn _ _ := []

/-- The first cycle is stopped by its node, the second one calls both closures. -/
theorem deferring_closures_called :
    ∃ built stopped moved last swept, bare.execOps (deferring .terminate) [.build { index := 0 },
      .driver (.yieldNow (.node 0))] = .ok built ∧
      runNodes (deferring .terminate) 2 instantly built = .ok (.terminated, stopped) ∧
      stopped.deferredSpawns = [0] ∧
      stopped.execOp (deferring .unchanged) (.driver (.yieldNow (.node 0))) = .ok moved ∧
      Pass (deferring .unchanged) 2 instantly moved last swept ∧ swept.deferredSpawns = [0, 1] ∧
      Executor.cycle (deferring .unchanged) 2 instantly moved =
      .ok (.running, { swept with deferredSpawns := [] }) ∧
      ∃ more, Spawning more { swept with deferredSpawns := [] } ∧ more.map (·.1) = [0, 1] := by
  obtain ⟨first, built, stopped, moved, last, swept, builds, yields, nodes, waits, yields', nodes',
    sweeps, queue, returned, tickets⟩ :
      ∃ first built stopped moved last swept, bare.execOp (deferring .terminate)
        (.build { index := 0 }) = .ok first ∧
        first.execOp (deferring .terminate) (.driver (.yieldNow (.node 0))) = .ok built ∧
        runNodes (deferring .terminate) 2 instantly built = .ok (.terminated, stopped) ∧
        stopped.deferredSpawns = [0] ∧
        stopped.execOp (deferring .unchanged) (.driver (.yieldNow (.node 0))) = .ok moved ∧
        runNodes (deferring .unchanged) 2 instantly moved = .ok (.running, last) ∧
        sweepLoop (deferring .unchanged) 2 last = .ok swept ∧
        swept.deferredSpawns = [0, 1] ∧
        Executor.cycle (deferring .unchanged) 2 instantly moved =
        .ok (.running, { swept with deferredSpawns := [] }) ∧ swept.tickets = 2 :=
    ⟨_, _, _, _, _, _, rfl, rfl, rfl, rfl, rfl, rfl, rfl, rfl, rfl, rfl⟩
  have run : Spawning [] moved :=
    .op _ _ (.stopped _ _ _ _ (.op _ _ (.op _ _ (.start _ _ _) builds) yields) nodes (by decide)) yields'
  obtain ⟨more, next, called⟩ := (closures_called_once run).2.2 _ _ _ _ returned
  refine ⟨built, stopped, moved, last, swept, ?_, nodes, waits, yields', ⟨nodes', sweeps⟩, queue,
    returned, more, next, ?_⟩
  · rw [execOps, List.foldlM_cons, builds]
    show List.foldlM _ first _ = _
    rw [List.foldlM_cons, yields]
    rfl
  · rw [List.nil_append] at called
    rw [called]
    show List.range swept.tickets = _
    rw [tickets]
    rfl

end Executor
end Wavelet
