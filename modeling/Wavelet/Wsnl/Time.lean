import Wavelet.Cycle.Order
import Wavelet.Runtime.World

/-!
# The periodic trigger

`periodic_trigger_node` of `time.rs`. Its data doubles as the flag of the first run: it is
`None` at first, and it is replaced only if it is `Some` already. So it never is, and the node
never broadcasts.
-/

namespace Wavelet

variable {W : Type}

/-- The cycle function of the node. -/
def periodicTrigger (cell : Cell W (Option TimerSource)) (duration : Nat) (ex : Executor W)
    (ctx : ExecutionContext) :
    List (Effect W) × Outcome :=
  let when := ctx.cycleTime.instant + duration
  let source : TimerSource := ⟨when, (ex.eventDriver.timerDriver.map (·.sequence)).getD 0⟩
  let registers : Effect W := .driver (.registerTimer (.raw ctx.current) when)
  if (cell.get ex.world).isSome then ([registers, .handle (.update (cell.put (some source)))],
      .ret .broadcast)
  else ([registers], .ret .unchanged)

/-- `periodic_trigger_node`: the node is built with `None`, and `on_init` yields. -/
def periodicTriggerNode (cell : Cell W (Option TimerSource)) (index : NodeIndex) : List (ExecOp W) :=
  [.handle (.update (cell.put none)), .build { index := index }, .driver (.yieldNow (.raw index))]

/-- Node `k` of the program is a periodic trigger. -/
structure Program.Triggers (prog : Program W) (cell : Cell W (Option TimerSource)) (duration : Nat)
    (k : Key) : Prop where
  runs : ∀ ex ctx, prog.cycleFn ex ctx k = periodicTrigger cell duration ex ctx
  spares : prog.Spares cell k

/-! ## What a periodic trigger promises -/

/-- A cycle as a periodic trigger sees it: the reading that the timers were polled with, the
cycle's time, its runs, and after the cycle its outstanding timers and its data. -/
structure Tick where
  polled : Nat
  time : Nat
  runs : List Run
  timers : List TimerSource
  value : Option TimerSource

namespace Executor

/-- The timers of an index. -/
def timersOf (ex : Executor W) (i : NodeIndex) : List TimerSource :=
  (ex.eventDriver.timerDriver.map fun d => (d.timers.entries.filter fun t => t.2.index = i).map (·.1)).getD []

def tick (cell : Cell W (Option TimerSource)) (k : Key) (input : CycleInput) (now : CycleTime)
    (ex : Executor W) : Tick :=
  ⟨input.first.instant, now.instant, ex.runs.filter fun run => run.node = k, ex.timersOf (ex.inner k).index,
    cell.get ex.world⟩

/-- The life of the trigger `k`: it is built, and then come operations and cycles, of
programs that leave its data to it. The cycles are recorded, oldest first. -/
inductive TriggerLife (cell : Cell W (Option TimerSource)) (duration : Nat) (k : Key) :
    List Tick → Executor W → Prop
  | built (prog : Program W) (index : NodeIndex) {before ex : Executor W} :
      prog.Triggers cell duration k → before.inners.length = k →
      before.execOps prog (periodicTriggerNode cell index) = .ok ex → TriggerLife cell duration k [] ex
  | op (prog : Program W) (op : ExecOp W) {ticks : List Tick} {ex ex' : Executor W} :
      TriggerLife cell duration k ticks ex → prog.Triggers cell duration k →
      (∀ v, op.Keeps fun w => cell.get w = v) → ex.execOp prog op = .ok ex' →
      TriggerLife cell duration k ticks ex'
  | cycle (prog : Program W) (fuel : Nat) (input : CycleInput) (now : CycleTime)
      (polled : Executor W) {ticks : List Tick}
      {ex ex' : Executor W} : TriggerLife cell duration k ticks ex → prog.Triggers cell duration k →
      poll input ex.beginCycle = .ok (some now, polled) →
      cycle prog fuel input ex = .ok (.running, ex') →
      TriggerLife cell duration k (ticks ++ [tick cell k input now ex']) ex'

end Executor

/-- The timer that the last run set. -/
def lastTimer (ticks : List Tick) : Option TimerSource :=
  (ticks.reverse.find? fun t => t.runs ≠ []).bind fun t => t.timers.head?

/-- The law of the periodic trigger over its cycles. -/
structure Periodic (duration : Nat) (ticks : List Tick) : Prop where
  first : ∀ t rest, ticks = t :: rest → t.runs.length = 1
  due : ∀ before t after, ticks = before ++ t :: after → before ≠ [] →
    t.runs.length = if ∃ source, lastTimer before = some source ∧ source.when ≤ t.polled then 1 else 0
  outstanding : ∀ t ∈ ticks, t.runs ≠ [] →
    ∃ source, t.timers = [source] ∧ source.when = t.time + duration ∧ t.value = some source
  broadcasts : ∀ before t after, ticks = before ++ t :: after → (∃ earlier ∈ before, earlier.runs ≠ []) →
    ∀ run ∈ t.runs, run.verdict = .returned .broadcast

variable {cell : Cell W (Option TimerSource)} {duration : Nat} {k : Key} {prog : Program W}

/-! ## What it does -/

open Executor

namespace Program

/-- As long as the data is `None`, the cycle function leaves it so. -/
theorem Triggers.keeps (triggers : prog.Triggers cell duration k) :
    prog.Keeps fun w => cell.get w = none where
  runs j := by
    by_cases own : j = k
    · subst own
      intro ex ctx unset effect member
      rw [triggers.runs, periodicTrigger, unset] at member
      simp only [Option.isSome_none, Bool.false_eq_true, if_false, List.mem_singleton] at member
      subst member
      trivial
    · exact triggers.spares.runs none j own
  drops := triggers.spares.drops none
  spawns := triggers.spares.spawns none

theorem periodicTrigger_unset {ex : Executor W} (unset : cell.get ex.world = none) (ctx : ExecutionContext) :
    (periodicTrigger cell duration ex ctx).2 = .ret .unchanged := by
  simp [periodicTrigger, unset]

/-- A call of the cycle function does not broadcast while the data is `None`. -/
theorem Triggers.silent_call (triggers : prog.Triggers cell duration k) {now : CycleTime}
    {i : NodeIndex} {fn : CycleFn} {ex ex' : Executor W} {v : Verdict}
    (h : callCycleFn prog now i fn ex = .ok (v, ex')) (own : fn.state = k)
    (unset : cell.get ex.world = none) : v ≠ .returned .broadcast := by
  obtain ⟨answer, finished, after, answered, -, ends⟩ := callCycleFn_ok prog h
  rw [own, triggers.runs] at answered
  have unchanged := @periodicTrigger_unset W cell duration ex unset ⟨i, now, ex.epoch⟩
  rw [answered] at unchanged
  rcases ends with ⟨control, rfl, -, returned, -⟩ | ⟨rfl, -⟩
  · rw [unchanged] at returned
    cases returned
    exact fun no => by cases no
  · exact fun no => by cases no

theorem Triggers.silent (triggers : prog.Triggers cell duration k) {now : CycleTime} {i : NodeIndex}
    {ex ex' : Executor W} {run : Run} (h : graphCycle prog now i ex = .ok (run, ex'))
    (own : run.node = k) (unset : cell.get ex.world = none) :
    run.verdict ≠ .returned .broadcast := by
  obtain ⟨ctx, -, -, node, poisoned | spawned | built | dead⟩ := graphCycle_cases prog h
  · rw [poisoned.2.1]
    exact fun no => by cases no
  · exact triggers.silent_call spawned.2.2 (node.symm.trans own) unset
  · obtain ⟨-, -, -, mid, called, -⟩ := built
    exact triggers.silent_call called (node.symm.trans own) unset
  · rw [dead.2.2.2.1]
    exact fun no => by cases no

end Program

namespace Executor

/-- The data is `None`, and the node has not broadcast in this cycle. -/
structure Dumb (cell : Cell W (Option TimerSource)) (k : Key) (ex : Executor W) : Prop where
  unset : cell.get ex.world = none
  silent : ∀ run ∈ ex.runs, run.node = k → run.verdict ≠ .returned .broadcast

theorem Dumb.run {now : CycleTime} {i : NodeIndex} {ex mid : Executor W} {run : Run}
    (triggers : prog.Triggers cell duration k) (dumb : Dumb cell k ex)
    (ran : graphCycle prog now i ex = .ok (run, mid)) : Dumb cell k (mid.recordRun run) where
  unset := by
    have after : cell.get mid.world = none :=
      graphCycle_world triggers.keeps.drops ran (triggers.keeps.runs _) dumb.unset
    exact after
  silent r member own := by
    have runs : mid.runs = ex.runs := (frame_of_run (graphCycle_run prog ran)).runs
    replace member : r ∈ run :: mid.runs := member
    rw [runs] at member
    rcases List.mem_cons.mp member with rfl | old
    · exact triggers.silent ran own dumb.unset
    · exact dumb.silent r old own

theorem Dumb.loop {now : CycleTime} {exit : Exit} {ex ex' : Executor W}
    (triggers : prog.Triggers cell duration k) (loop : Loop prog now ex exit ex')
    (dumb : Dumb cell k ex) : Dumb cell k ex' := by
  induction loop with
  | finished step =>
    obtain ⟨s, -, rfl⟩ := nodeStep_finished prog step
    exact ⟨dumb.unset, dumb.silent⟩
  | @terminated ex ex' step =>
    obtain ⟨i, s, run, mid, -, ran, -, rfl⟩ := nodeStep_terminated prog step
    have before : Dumb cell k { ex with scheduler := s } := ⟨dumb.unset, dumb.silent⟩
    have after := before.run triggers ran
    exact ⟨after.unset, after.silent⟩
  | @again ex mid' exit ex' step _ ih =>
    obtain ⟨i, s, run, mid, -, ran, -, handled⟩ := nodeStep_again prog step
    have before : Dumb cell k { ex with scheduler := s } := ⟨dumb.unset, dumb.silent⟩
    have after := before.run triggers ran
    apply ih
    constructor
    · rw [world_handleControl handled]
      exact after.unset
    · rw [(Steady.of_handleControl handled).runs]
      exact after.silent

/-- A cycle leaves the data `None`, and the node does not broadcast in it. -/
theorem Dumb.cycle {fuel : Nat} {input : CycleInput} {ex ex' : Executor W}
    (triggers : prog.Triggers cell duration k) (unset : cell.get ex.world = none)
    (h : Executor.cycle prog fuel input ex = .ok (.running, ex')) : Dumb cell k ex' := by
  constructor
  · exact cycle_world triggers.keeps h unset
  · rcases cycle_ok prog h with ⟨no, -⟩ | ⟨-, mid, swept, nodes, sweeps, spawns⟩
    · exact absurd rfl no
    · rw [runs_runSpawns spawns, runs_sweepLoop sweeps]
      rcases runNodes_ok prog nodes with ⟨no, -⟩ | ⟨now, polled, polls, loop⟩
      · cases no
      · refine (Dumb.loop triggers loop ⟨?_, ?_⟩).silent
        · rw [world_poll polls]
          exact unset
        · rw [(Steady.of_poll polls).runs]
          exact fun _ member => by cases member

theorem TriggerLife.dumb {ticks : List Tick} {ex : Executor W} (life : TriggerLife cell duration k ticks ex) :
    cell.get ex.world = none ∧ ∀ t ∈ ticks, t.value = none ∧
      ∀ run ∈ t.runs, run.verdict ≠ .returned .broadcast := by
  induction life with
  | built prog index triggers count built =>
    refine ⟨?_, fun _ member => by cases member⟩
    rw [execOps, periodicTriggerNode, List.foldlM_cons] at built
    obtain ⟨set, first, rest⟩ := Steps.bind_ok' built
    have unset : cell.get set.world = none := by
      cases first
      exact cell.get_put none _
    refine execOps_world (p := fun w => cell.get w = none) triggers.keeps.drops ?_ rest unset
    intro op member
    simp only [List.mem_cons, List.not_mem_nil, or_false] at member
    rcases member with rfl | rfl <;> trivial
  | op prog op _ triggers keeps applied ih =>
    exact ⟨execOp_world triggers.keeps.drops (keeps none) applied ih.1, ih.2⟩
  | @cycle prog fuel input now polled ticks ex ex' _ triggers _ returned ih =>
    have after := Dumb.cycle triggers ih.1 returned
    refine ⟨after.unset, fun t member => ?_⟩
    rcases List.mem_append.mp member with old | new
    · exact ih.2 t old
    · rw [List.mem_singleton.mp new]
      refine ⟨after.unset, fun run member => ?_⟩
      obtain ⟨ran, own⟩ := List.mem_filter.mp member
      exact after.silent run ran (of_decide_eq_true own)

/-- The law of the periodic trigger holds of no life in which a cycle has returned: the data
stays `None`, and no run broadcasts. -/
theorem never_periodic {ticks : List Tick} {ex : Executor W} (life : TriggerLife cell duration k ticks ex)
    (lived : ticks ≠ []) : ¬ Periodic duration ticks := by
  intro periodic
  cases ticks with
  | nil => exact lived rfl
  | cons t rest =>
    have once := periodic.first t rest rfl
    have ran : t.runs ≠ [] := by
      intro none
      rw [none] at once
      cases once
    obtain ⟨source, -, -, set⟩ := periodic.outstanding t List.mem_cons_self ran
    rw [(life.dumb.2 t List.mem_cons_self).1] at set
    cases set

/-- The data of the only node. -/
def soleCell : Cell (Option TimerSource) (Option TimerSource) := ⟨id, fun a _ => a, fun _ _ => rfl⟩

/-- A program whose only node is a periodic trigger. -/
def ticking : Program (Option TimerSource) where
  cycleFn ex ctx k := if k = 0 then periodicTrigger soleCell 10 ex ctx else ([], .ret .unchanged)
  onDrop _ _ := []
  spawnFn _ _ := []

def tickAt (now : Nat) : CycleInput := ⟨some 0, ⟨now, 0⟩, ⟨now, 0⟩, none⟩

theorem ticking_triggers : ticking.Triggers soleCell 10 0 where
  runs _ _ := rfl
  spares := by
    constructor
    · intro v j other ex ctx data effect member
      simp only [ticking, if_neg other] at member
      cases member
    · intro v ex k op member
      cases member
    · intro v ex t op member
      cases member

/-- One cycle of a trigger with period 10. -/
def firstTick : Tick := ⟨0, 0, [⟨0, 0, .returned .unchanged⟩], [⟨10, 0⟩], none⟩

theorem ticking_never_periodic :
    ∃ ex ex', (withConfig { ioEnabled := false } .spin none).execOps ticking
      (periodicTriggerNode soleCell 0) = .ok ex ∧
      cycle ticking 2 (tickAt 0) ex = .ok (.running, ex') ∧
      tick soleCell 0 (tickAt 0) ⟨0, 0⟩ ex' = firstTick ∧
      ¬ Periodic 10 [firstTick] :=
  have built : (withConfig { ioEnabled := false } .spin none).execOps ticking
      (periodicTriggerNode soleCell 0) = .ok _ := rfl
  have life := TriggerLife.built ticking 0 ticking_triggers rfl built
  ⟨_, _, built, rfl, rfl, never_periodic (life.cycle ticking 2 (tickAt 0) ⟨0, 0⟩ _ ticking_triggers rfl rfl)
    (by simp)⟩

/-- The trigger with period 10 runs at 0, 10 and 20, and sets a timer each time, but its data
is `None` and no run broadcasts. -/
theorem trigger_silent :
    ∃ ex first second third,
      (withConfig { ioEnabled := false } .spin none).execOps ticking
      (periodicTriggerNode soleCell 0) = .ok ex ∧
      cycle ticking 2 (tickAt 0) ex = .ok (.running, first) ∧
      cycle ticking 2 (tickAt 10) first = .ok (.running, second) ∧
      cycle ticking 2 (tickAt 20) second = .ok (.running, third) ∧
      tick soleCell 0 (tickAt 0) ⟨0, 0⟩ first = firstTick ∧
      tick soleCell 0 (tickAt 10) ⟨10, 0⟩ second = ⟨10, 10, [⟨0, 0, .returned .unchanged⟩], [⟨20, 1⟩], none⟩ ∧
      tick soleCell 0 (tickAt 20) ⟨20, 0⟩ third = ⟨20, 20, [⟨0, 0, .returned .unchanged⟩], [⟨30, 2⟩], none⟩ ∧
      ¬ Periodic 10 [firstTick] := by
  have built : (withConfig { ioEnabled := false } .spin none).execOps ticking
      (periodicTriggerNode soleCell 0) = .ok _ := rfl
  refine ⟨_, _, _, _, built, rfl, rfl, rfl, rfl, rfl, rfl, fun periodic => ?_⟩
  obtain ⟨source, -, -, set⟩ := periodic.outstanding firstTick List.mem_cons_self (by decide)
  cases set

end Executor
end Wavelet
