import Wavelet.Cycle.Course

/-!
# `has_mutated` at every moment

A node is built with the stamp 0, and the epoch of an executor starts at 0 as well. So before
the first cycle `has_mutated` says of every node that it has mutated. From the first cycle on,
and as long as the epoch does not wrap around, it is exact: inside a cycle it tells the nodes
that have broadcast so far, and after it the nodes that did, whatever the cycle returned.
-/

namespace Wavelet
namespace Executor

open Relation

variable {W : Type} {prog : Program W}

/-- `Executor::has_mutated`. -/
def hasMutatedLast (ex : Executor W) (k : Key) : Bool := decide ((ex.inner k).mutEpoch = ex.epoch)

/-! ## Moments -/

/-- A step of the deferred subgraphs of a cycle. -/
inductive SpawnStep : Executor W → Executor W → Prop
  | op (prog op) {ex ex'} : ex.execOp prog op = .ok ex' → SpawnStep ex ex'
  | opens (tickets) {ex} : SpawnStep ex { ex with deferredSpawns := tickets }
  | closes (prog ticket) {ex} : SpawnStep ex (ex.dropOwner prog (.spawn ticket))

/-- A state in which the program can ask: between two calls from outside, in a deferred
subgraph, or in a call of a cycle function after the first `n` things it does, where it asks
through its context. -/
inductive Moment : Option ExecutionContext → Executor W → Prop
  | outside {ex} : Reachable (fun _ => True) ex → Moment none ex
  | spawning (prog fuel input) {ex last swept ex'} : Reachable (fun _ => True) ex →
      Pass prog fuel input ex last swept →
      ReflTransGen SpawnStep swept ex' → Moment none ex'
  | inside (prog input n k) {ex now polled mid s ctx} : Reachable (fun _ => True) ex →
      poll input ex.beginCycle = .ok (some now, polled) → Turns prog now polled mid →
      called k now mid = some (s, ctx) →
      Moment (some ctx) (s.applyEffects prog ((prog.cycleFn s ctx k).1.take n)).2

/-- `has_mutated`, of the context in a cycle function and of the executor otherwise. -/
def mutated (ex : Executor W) : Option ExecutionContext → Key → Bool
  | some ctx, k => ex.hasMutated ctx k
  | none, k => ex.hasMutatedLast k

/-! ## The stamps -/

/-- No stamp is later than the epoch, and those of a cycle are the ones of its broadcasts. -/
structure Honest (ex : Executor W) : Prop where
  dated : ex.Dated
  built : ∀ run ∈ ex.runs, run.node < ex.inners.length
  truthful : 0 < ex.epoch → ex.Truthful
  blank : ex.epoch = 0 → ex.runs = []

namespace Honest

variable {ex ex' : Executor W}

theorem congr (honest : ex.Honest) (inners : ex'.inners = ex.inners) (epoch : ex'.epoch = ex.epoch)
    (runs : ex'.runs = ex.runs) :
    ex'.Honest := by
  constructor
  case dated =>
    intro k
    rw [inner_of_inners inners, epoch]
    exact honest.dated k
  case built =>
    rw [runs, inners]
    exact honest.built
  case truthful =>
    intro begun k
    rw [epoch] at begun
    rw [inner_of_inners inners, epoch, HasBroadcast, runs]
    exact honest.truthful begun k
  case blank =>
    rw [epoch, runs]
    exact honest.blank

theorem handles (honest : ex.Honest) (run : HandleRun ex ex') : ex'.Honest := by
  have frame := frame_of_run run.code
  exact honest.congr (inners_of_handleRun run) frame.epoch frame.runs

theorem op {op : ExecOp W} (honest : ex.Honest) (h : ex.execOp prog op = .ok ex') : ex'.Honest := by
  have runs := runs_execOp h
  cases op with
  | handle op =>
    cases h
    exact honest.handles (handleOp_run prog ex op)
  | driver op =>
    simp only [execOp] at h
    split at h
    · rename_i next applied
      cases h
      exact honest.congr (inners_driverOp applied) (frame_of_run (driverOp_run applied)).epoch runs
    · cases h
  | build args =>
    have dated := honest.dated.op h
    obtain ⟨depth, graph, handles, -, -, -, rfl, -⟩ := build_ok h
    have longer : ({ ex.insertNode args depth graph with handles := handles } : Executor W).inners.length =
        ex.inners.length + 1 :=
      List.length_append ..
    constructor
    case dated => exact dated
    case built =>
      intro run member
      rw [longer]
      exact Nat.lt_succ_of_lt (honest.built run member)
    case truthful =>
      intro begun k
      replace begun : 0 < ex.epoch := begun
      show ((ex.insertNode args depth graph).inner k).mutEpoch = ex.epoch ↔ ex.HasBroadcast k
      rw [inner_insertNode]
      split
      · rename_i new
        -- the new node has the stamp 0 and no run
        subst new
        constructor
        · intro zero
          exact absurd zero (Nat.ne_of_lt begun)
        · rintro ⟨run, member, same, -⟩
          have older := honest.built run member
          rw [same] at older
          exact absurd older (Nat.lt_irrefl _)
      · exact honest.truthful begun k
    case blank => exact honest.blank

theorem spawnStep (step : SpawnStep ex ex') (honest : ex.Honest) : ex'.Honest := by
  cases step with
  | op prog op applied => exact honest.op applied
  | opens tickets => exact honest.congr rfl rfl rfl
  | closes prog ticket => exact honest.handles (dropOwner_run prog ex (.spawn ticket))

theorem spawns {tickets : List Nat} (honest : ex.Honest) (h : runSpawns prog tickets ex = .ok ex') :
    ex'.Honest := by
  induction tickets generalizing ex with
  | nil =>
    cases h
    exact honest
  | cons ticket rest ih =>
    obtain ⟨mid, spawned, later⟩ := Steps.bind_ok h
    obtain ⟨built, ops, rfl⟩ := Steps.map_ok spawned
    have begun : ({ ex with deferredSpawns := rest } : Executor W).Honest := honest.congr rfl rfl rfl
    have after : built.Honest :=
      Steps.foldlM_inv (p := Honest) (fun _ _ _ _ applied here => here.op applied) ops begun
    exact ih (after.handles (dropOwner_run prog built (.spawn ticket))) later

theorem begin (honest : ex.Honest) (stamped : ex.Stamped) (few : ex.cycles + 1 < 2 ^ 64) :
    ex.beginCycle.Honest := by
  have next := epoch_begin stamped few
  constructor
  case dated =>
    intro k
    rw [next]
    exact Nat.le_succ_of_le (honest.dated k)
  case built =>
    intro run member
    cases member
  case truthful =>
    intro _
    exact honest.dated.begin stamped few
  case blank =>
    intro _
    rfl

theorem poll {input : CycleInput} {t : Option CycleTime} (honest : ex.Honest)
    (h : Executor.poll input ex = .ok (t, ex')) :
    ex'.Honest :=
  honest.congr (inners_poll h) (Steady.of_poll h).epoch (Steady.of_poll h).runs

/-- A run stamps its own node, if it broadcasts, and goes on record. -/
theorem ran {now : CycleTime} {i : NodeIndex} {run : Run} {s : Scheduler} (honest : ex.Honest)
    (inPlace : ex.InPlace) (begun : 0 < ex.epoch)
    (h : graphCycle prog now i { ex with scheduler := s } = .ok (run, ex')) : (ex'.recordRun run).Honest := by
  have frame := frame_of_run (graphCycle_run prog h)
  have epoch : ex'.epoch = ex.epoch := frame.epoch
  have runs : ex'.runs = ex.runs := frame.runs
  have nodes : ex'.inners.length = ex.inners.length := frame.nodes
  have placed : run.node < ex.inners.length := by
    obtain ⟨ctx, there, -, node, -⟩ := graphCycle_ok prog h
    rw [node]
    exact (inPlace _ _ _ (Graph.core_of_nodeWeight there)).1
  have stamps : ∀ k, (ex'.inner k).mutEpoch = _ := mutEpoch_graphCycle h placed
  constructor
  case dated =>
    intro k
    show (ex'.inner k).mutEpoch ≤ ex'.epoch
    rw [stamps, epoch]
    split
    · exact Nat.le_refl _
    · exact honest.dated k
  case built =>
    intro r member
    show r.node < ex'.inners.length
    rw [nodes]
    rcases List.mem_cons.mp member with rfl | old
    · exact placed
    · rw [runs] at old
      exact honest.built r old
  case truthful =>
    intro _ k
    have before := honest.truthful begun k
    show (ex'.inner k).mutEpoch = ex'.epoch ↔ ∃ r ∈ run :: ex'.runs, _
    rw [stamps, epoch, runs]
    simp only [List.mem_cons, exists_eq_or_imp]
    split
    · rename_i own
      simp [own]
    · rename_i other
      simp only [other, false_or]
      exact before
  case blank =>
    intro zero
    replace zero : ex'.epoch = 0 := zero
    omega

theorem turn {now : CycleTime} (honest : ex.Honest) (inPlace : ex.InPlace) (begun : 0 < ex.epoch)
    (h : nodeStep prog now ex = .ok (.again ex')) : ex'.Honest := by
  obtain ⟨i, s, run, mid, -, ran, -, handled⟩ := nodeStep_again prog h
  have steady := Steady.of_handleControl handled
  exact (honest.ran inPlace begun ran).congr (inners_handleControl handled) steady.epoch steady.runs

theorem turns {now : CycleTime} (honest : ex.Honest) (inPlace : ex.InPlace) (begun : 0 < ex.epoch)
    (h : Turns prog now ex ex') :
    ex'.Honest ∧ ex'.epoch = ex.epoch := by
  induction h with
  | refl => exact ⟨honest, rfl⟩
  | tail before step ih =>
    obtain ⟨here, same⟩ := ih
    have placed := Path.inPlace (Turns.path before) inPlace
    refine ⟨here.turn placed (by rw [same]; exact begun) step, ?_⟩
    rw [(mutEpoch_turn placed step).1, same]

theorem visits {now : CycleTime} (honest : ex.Honest) (inPlace : ex.InPlace) (begun : 0 < ex.epoch)
    (h : Visits prog now ex ex') : ex'.Honest := by
  obtain ⟨mid, turns, last⟩ := h
  obtain ⟨here, same⟩ := honest.turns inPlace begun turns
  have placed := Path.inPlace (Turns.path turns) inPlace
  rcases last with rfl | finished | terminated
  · exact here
  · obtain ⟨s, -, rfl⟩ := nodeStep_finished prog finished
    exact here.congr rfl rfl rfl
  · obtain ⟨i, s, run, next, -, ran, -, rfl⟩ := nodeStep_terminated prog terminated
    exact (here.ran placed (by rw [same]; exact begun) ran).congr rfl rfl rfl

/-- A cycle up to the end of its node loop, or of its failed poll. -/
theorem nodes {fuel : Nat} {input : CycleInput} {exit : Exit} (honest : ex.Honest) (inPlace : ex.InPlace)
    (stamped : ex.Stamped) (few : ex.cycles + 1 < 2 ^ 64)
    (h : runNodes prog fuel input ex = .ok (exit, ex')) : ex'.Honest := by
  have begun := honest.begin stamped few
  rcases runNodes_ok prog h with ⟨-, polls⟩ | ⟨now, polled, polls, loop⟩
  · exact begun.poll polls
  · refine (begun.poll polls).visits (Path.inPlace (.head .begin (poll_path polls)) inPlace) ?_ loop.visits
    rw [(Steady.of_poll polls).epoch, epoch_begin stamped few]
    exact Nat.succ_pos _

theorem sweep {fuel : Nat} (honest : ex.Honest) (h : sweepLoop prog fuel ex = .ok ex') : ex'.Honest :=
  honest.congr (inners_sweepLoop h) (epoch_sweepLoop h) (runs_sweepLoop h)

end Honest

/-! ## Runs -/

theorem Reachable.honest {ex : Executor W} (reached : Reachable (fun _ => True) ex)
    (few : ex.cycles < 2 ^ 64) : ex.Honest := by
  obtain ⟨cfg, mode, world, run⟩ := reached
  induction run with
  | refl =>
    refine ⟨fun _ => Nat.le_refl _, fun _ member => (by cases member), fun begun => ?_, fun _ => rfl⟩
    exact absurd begun (Nat.lt_irrefl 0)
  | @tail mid last run step ih =>
    have reached : Reachable (fun _ => True) mid := ⟨cfg, mode, world, run⟩
    have path := step.path reached.schedulerWF
    have honest := ih (Nat.lt_of_le_of_lt path.cycles_le few)
    cases step with
    | op prog op applied => exact honest.op applied
    | cycle prog fuel input exit _ returned =>
      have counted := cycles_of_cycle reached.schedulerWF returned
      have stamped := reached.stamped (by omega)
      rcases cycle_ok prog returned with ⟨-, nodes⟩ | ⟨-, ended, swept, nodes, sweeps, spawns⟩
      · exact honest.nodes reached.inPlace stamped (by omega) nodes
      · have after := (honest.nodes reached.inPlace stamped (by omega) nodes).sweep sweeps
        exact after.spawns spawns

theorem SpawnStep.path {ex ex' : Executor W} (step : SpawnStep ex ex') : Path ex ex' := by
  cases step with
  | op prog op applied => exact execOp_path prog applied
  | opens tickets => exact .single (.code (.spawns tickets ex.tickets))
  | closes prog ticket => exact (HandleRun.code (dropOwner_run prog ex (.spawn ticket))).path

/-- The state of a call is the one before its turn, without the node in the queue and with a
handle for the closure. -/
theorem called_eq {c : Key} {now : CycleTime} {ex s : Executor W} {ctx : ExecutionContext}
    (h : called c now ex = some (s, ctx)) :
    Path ex s ∧ s.inners = ex.inners ∧ s.runs = ex.runs ∧ s.epoch = ex.epoch ∧ ctx.epoch = ex.epoch := by
  unfold called at h
  split at h
  · cases h
  · rename_i i scheduler popped
    split at h
    · cases h
    · rename_i w there
      dsimp only at h
      have pops : Path ex { ex with scheduler := scheduler } := .single (.pop _ _ popped)
      split at h
      · split at h
        · cases h
          exact ⟨pops, rfl, rfl, rfl, rfl⟩
        · split at h
          · rename_i alive
            cases h
            exact ⟨pops.tail (.code (.handle (.clone .running c alive))), rfl, rfl, rfl, rfl⟩
          · cases h
      · cases h

theorem Moment.honest {o : Option ExecutionContext} {ex : Executor W} (moment : Moment o ex)
    (few : ex.cycles < 2 ^ 64) :
    ex.Honest ∧ ex.Stamped ∧ ∀ ctx, o = some ctx → ctx.epoch = ex.epoch := by
  cases moment with
  | outside reached => exact ⟨reached.honest few, reached.stamped few, fun _ no => by cases no⟩
  | @spawning prog fuel input start last swept _ reached pass run =>
    obtain ⟨nodes, sweeps⟩ := pass.path reached.schedulerWF
    have spawns : Path swept ex :=
      Steps.run_inv (p := Path swept) (fun _ _ step path => path.trans step.path) run .refl
    have counted : start.cycles + 1 ≤ last.cycles := runNodes_counted pass.nodes
    have later : last.cycles ≤ ex.cycles := Path.cycles_le (sweeps.trans spawns)
    have stamped := reached.stamped (by omega)
    have after :=
      ((reached.honest (by omega)).nodes reached.inPlace stamped (by omega) pass.nodes).sweep pass.sweeps
    refine ⟨?_, Path.stamped (nodes.trans (sweeps.trans spawns)) few stamped, fun _ no => by cases no⟩
    exact Steps.run_inv (p := Honest) (fun _ _ step => Honest.spawnStep step) run after
  | @inside prog input n k start now polled mid s ctx reached polls turns calls =>
    have begins : Path start.beginCycle mid := (poll_path polls).trans (Turns.path turns)
    obtain ⟨enters, inners, runs, epoch, context⟩ := called_eq calls
    have effects := applyEffects_run prog s ((prog.cycleFn s ctx k).1.take n)
    have counted : start.beginCycle.cycles = start.cycles + 1 := List.count_cons_self
    have later := Path.cycles_le (begins.trans (enters.trans effects.path))
    have stamped := reached.stamped (by omega)
    have begun := ((reached.honest (by omega)).begin stamped (by omega)).poll polls
    have first : 0 < polled.epoch := by
      rw [(Steady.of_poll polls).epoch, epoch_begin stamped (by omega)]
      exact Nat.succ_pos _
    have placed : polled.InPlace := Path.inPlace (.head .begin (poll_path polls)) reached.inPlace
    have here := (begun.turns placed first turns).1
    have frame := frame_of_run effects
    refine ⟨?_, Path.stamped (.head .begin (begins.trans (enters.trans effects.path))) few stamped, ?_⟩
    · exact (here.congr inners epoch runs).congr inners_applyEffects frame.epoch frame.runs
    · intro ctx' same
      cases same
      rw [frame.epoch, epoch, context]

/-- At every moment of a run of fewer than `2 ^ 64` cycles, `has_mutated` is exact if and only
if a cycle has begun. -/
theorem has_mutated_exact_iff {o : Option ExecutionContext} {ex : Executor W} (moment : Moment o ex)
    (few : ex.cycles < 2 ^ 64) (k : Key) : ((ex.mutated o k = true ↔ ex.HasBroadcast k) ↔ 0 < ex.cycles) := by
  obtain ⟨honest, stamped, context⟩ := moment.honest few
  have same : ex.mutated o k = true ↔ (ex.inner k).mutEpoch = ex.epoch := by
    cases o with
    | none => simp [mutated, hasMutatedLast]
    | some ctx => simp [mutated, hasMutated, context ctx rfl]
  rw [same, ← stamped.epoch]
  constructor
  · intro fits
    by_contra start
    have zero : ex.epoch = 0 := Nat.eq_zero_of_not_pos start
    have stamp : (ex.inner k).mutEpoch = ex.epoch := by
      have := honest.dated k
      omega
    obtain ⟨run, member, -⟩ := fits.mp stamp
    rw [honest.blank zero] at member
    cases member
  · intro begun
    exact honest.truthful begun k

/-- After one cycle, the node that broadcast and the one that it woke. -/
theorem relay_mutated :
    ∃ ex : Executor Unit, bare.play relay 3 [(relayOps, instantly)] = .ok ([.running], ex) ∧
      ex.mutated none 0 = true ∧ ex.mutated none 1 = false ∧
      ((ex.mutated none 0 = true ↔ ex.HasBroadcast 0) ↔ 0 < ex.cycles) ∧
      ((ex.mutated none 1 = true ↔ ex.HasBroadcast 1) ↔ 0 < ex.cycles) :=
  have played : bare.play relay 3 [(relayOps, instantly)] = .ok ([.running], _) := rfl
  have moment := Moment.outside ((Reachable.initial ..).play played fun _ _ => trivial)
  ⟨_, played, by decide, by decide, has_mutated_exact_iff moment (by decide) 0,
    has_mutated_exact_iff moment (by decide) 1⟩

/-- A node that is built before the first cycle has not run, and counts as mutated. -/
theorem built_mutated :
    ∃ ex : Executor Unit, bare.execOps relay [.build { index := 0 }] = .ok ex ∧ Moment none ex ∧
      ex.cycles < 2 ^ 64 ∧
      ex.mutated none 0 = true ∧ ¬ ex.HasBroadcast 0 :=
  have built : bare.execOps relay [.build { index := 0 }] = .ok _ := rfl
  ⟨_, built, .outside ((Reachable.initial ..).ops built), by decide, by decide, by decide⟩

end Executor
end Wavelet
