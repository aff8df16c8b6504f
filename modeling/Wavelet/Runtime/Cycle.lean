import Wavelet.Runtime.Builder

/-!
# One cycle

`EventDriver::poll` and `Executor::cycle`. The clock and `mio` are the cycle's input: the
two readings that the clock would give (the second is taken only after a poll that may
have slept) and the outcome of the I/O poll. A cycle ends `Ok(Running)`, `Ok(Terminated)`
or `Err`; a panic that leaves the cycle ends the run.
-/

namespace Wavelet

structure CycleInput where
  timeout : Option Nat
  first : CycleTime
  second : CycleTime
  io : Option (List IoEvent)
  deriving DecidableEq, Repr

/-- The result of a cycle that returns. -/
inductive Exit where
  | running
  | terminated
  | err
  deriving DecidableEq, Repr

namespace Executor

variable {W : Type}

/-! ## Scheduling -/

/-- `can_schedule`, then `schedule`; `none` is a panic on an index past the queues. -/
def offer (ex : Executor W) (i : NodeIndex) : Option (Offer × Executor W) :=
  match ex.graph.canSchedule i ex.epoch with
  | none => some (if (ex.graph.nodeWeight i).isSome then .stamped else .vacant, ex)
  | some (depth, graph) =>
    match ex.scheduler.schedule i depth with
    | .ok scheduler => some (.accepted, { ex with graph := graph, scheduler := scheduler })
    | .error .schedulerError => some (.refused, { ex with graph := graph })
    | .error .indexOutOfBounds => none

/-- An event source offers its node. -/
def fire (source : Source) (ex : Executor W) (r : Ref) : Except Failure (Executor W) :=
  match ex.offer r.index with
  | none => .error .indexOutOfBounds
  | some (outcome, ex') =>
    match outcome, source.onRefusal with
    | .refused, some failure => .error failure
    | _, _ =>
      .ok (ex'.log (.fired source r (ex.keyAt r.index) (decide (r.index ∈ ex.scheduler.entries)) outcome))

/-! ## Polling -/

def drainNotifications : Nat → Executor W → Except Failure (Executor W)
  | 0, ex => .ok ex
  | n + 1, ex =>
    match ex.eventDriver.notifications.pop with
    | none => .ok ex
    | some (r, queue) =>
      (fire .notification { ex with eventDriver := { ex.eventDriver with notifications := queue } } r).bind
        (drainNotifications n)

/-- `drain(..).for_each` over the queued yields. -/
def drainYields : List Ref → Executor W → Except Failure (Executor W)
  | [], ex => .ok ex
  | r :: rest, ex =>
    (fire .yield { ex with eventDriver := { ex.eventDriver with yieldDriver := rest } } r).bind
      (drainYields rest)

/-- `YieldDriver::poll`. -/
def pollYields (ex : Executor W) : Except Failure (Executor W) := drainYields ex.eventDriver.yieldDriver ex

/-- The loop of `TimerDriver::poll`; the first argument bounds the timers left. -/
def expireTimers (now : Nat) : Nat → TimerDriver → Executor W → Except Failure (Executor W)
  | 0, _, ex => .ok ex
  | n + 1, timer, ex =>
    match timer.timers.popFirst with
    | none => .ok ex
    | some ((source, r), rest) =>
      if source.when ≤ now then
        let timer := { timer with timers := rest }
        (fire .timer { ex with eventDriver := { ex.eventDriver with timerDriver := some timer } } r).bind
          (expireTimers now n timer)
      else .ok ex

def pollTimers (now : Nat) (ex : Executor W) : Except Failure (Executor W) :=
  match ex.eventDriver.timerDriver with
  | none => .ok ex
  | some timer => expireTimers now timer.timers.entries.length timer ex

/-- `IoDriver::poll` on the events that `mio` reported. -/
def pollIo (io : IoDriver) (events : List IoEvent) (ex : Executor W) : Except Failure (Executor W) :=
  events.foldlM (fun ex event =>
    match event with
    | .waker => .ok ex
    | .source token =>
      match io.lookup token with
      | none => .error .missingToken
      | some r => fire .io ex r) ex

/-- The part of `EventDriver::poll` before the I/O driver is asked. -/
def pollInternal (now : Nat) (ex : Executor W) : Except Failure (Executor W) := do
  let ex ← drainNotifications ex.eventDriver.pollLimit ex
  let ex ← pollYields ex
  pollTimers now ex

/-- `fast_poll` is taken when work is ready or the caller will not wait. -/
def FastPath (ex : Executor W) (timeout : Option Nat) : Prop :=
  ex.scheduler.hasPendingEvent ∨ timeout = some 0

instance (ex : Executor W) (timeout : Option Nat) : Decidable (ex.FastPath timeout) :=
  inferInstanceAs (Decidable (_ ∨ _))

/-- The timeout handed to the I/O poll. -/
def ioTimeout (ex : Executor W) (now : Nat) (timeout : Option Nat) : Option Nat :=
  if ex.FastPath timeout then some 0 else ex.eventDriver.effectiveTimeout now timeout

def resetWaker (ex : Executor W) : Executor W :=
  { ex with eventDriver := { ex.eventDriver with waker := false } }

/-- The I/O poll of `fast_poll` and `slow_poll`: the cycle's time, `none` for an error. A poll
that fails returns before it takes an event: the wake stays pending. -/
def askIo (input : CycleInput) (ex : Executor W) : Except Failure (Option CycleTime × Executor W) :=
  match ex.eventDriver.ioDriver, input.io with
  | none, _ => .ok (some input.first, ex)
  | some _, none => .ok (none, ex)
  | some io, some events =>
    let timeout := ex.ioTimeout input.first.instant input.timeout
    let slept := ¬ ex.FastPath input.timeout ∧ ex.eventDriver.mode = .park ∧ timeout ≠ some 0
    (pollIo io events ex.resetWaker).map fun ex => (some (if slept then input.second else input.first), ex)

/-- `EventDriver::poll`. -/
def poll (input : CycleInput) (ex : Executor W) : Except Failure (Option CycleTime × Executor W) := do
  let ex ← pollInternal input.first.instant ex
  askIo input ex

/-! ## Running a node -/

variable (prog : Program W)

/-- `set_mut_epoch`. -/
def setMutEpoch (ex : Executor W) (k : Key) (epoch : Nat) : Executor W :=
  { ex with inners := ex.inners.set k { ex.inner k with mutEpoch := epoch } }

/-- The cycle function of node `k` itself. A panic is turned into `Control::Sweep` unless
the node lets it through. -/
def callCycleFn (now : CycleTime) (i : NodeIndex) (fn : CycleFn) (ex : Executor W) :
    Except Failure (Verdict × Executor W) :=
  let answer := prog.cycleFn ex ⟨i, now, ex.epoch⟩ fn.state
  let (finished, ex) := ex.applyEffects prog answer.1
  match finished, answer.2 with
  | true, .ret control =>
    .ok (.returned control, if control = .broadcast then ex.setMutEpoch fn.state ex.epoch else ex)
  | _, _ => if fn.allowPanic then .error .user else .ok (.panicked, ex)

/-- The boxed closure: `build` makes one that upgrades a weak handle for the time of the
call, `spawn` one that owns its node. -/
def callClosure (now : CycleTime) (i : NodeIndex) (fn : CycleFn) (ex : Executor W) :
    Except Failure (Verdict × Executor W) :=
  if fn.spawned then callCycleFn prog now i fn ex
  else if ex.Alive fn.state then
    (callCycleFn prog now i fn (ex.addHandle .running fn.state)).map fun (verdict, ex) =>
      (verdict, ex.dropHandle prog .running fn.state)
  else .ok (.noHandle, ex)

/-- `Graph::cycle`. -/
def graphCycle (now : CycleTime) (i : NodeIndex) (ex : Executor W) : Except Failure (Run × Executor W) :=
  match ex.graph.nodeWeight i with
  | none => .error .missingNode
  | some ctx =>
    if ctx.poisoned then .ok (⟨i, ctx.cycleFn.state, .poisoned⟩, ex)
    else (callClosure prog now i ctx.cycleFn ex).map fun (verdict, ex) =>
      (⟨i, ctx.cycleFn.state, verdict⟩, ex)

/-! ## The node loop -/

/-- A child is scheduled; a refusal is ignored. -/
def spread (ex : Executor W) (child : NodeIndex) : Except Failure (Executor W) :=
  match ex.offer child with
  | none => .error .indexOutOfBounds
  | some (outcome, ex') => .ok (ex'.log (.spread child (decide (child ∈ ex.scheduler.entries)) outcome))

def markPoisoned (ex : Executor W) (i : NodeIndex) : Except Failure (Executor W) :=
  match ex.graph.nodeWeight i, ex.graph.markPoisoned i with
  | some ctx, some graph => .ok (log { ex with graph := graph } (.poisoned ctx.cycleFn.state))
  | _, _ => .error .missingNode

def poisonAndSpread (ex : Executor W) (child : NodeIndex) : Except Failure (Executor W) :=
  (ex.markPoisoned child).bind fun ex => ex.spread child

/-- What the executor does with the control value of a run. -/
def handleControl (run : Run) (ex : Executor W) : Except Failure (Executor W) :=
  match run.verdict.control with
  | .broadcast => (ex.graph.triggeringEdges run.index).foldlM spread ex
  | .sweep =>
    let ex := ex.markForSweep .swept ⟨run.index, some run.node⟩
    (ex.graph.edges run.index).foldlM poisonAndSpread ex
  | .unchanged | .terminate => .ok ex

def recordRun (run : Run) (ex : Executor W) : Executor W := log { ex with runs := run :: ex.runs } (.ran run)

/-- One turn of the node loop: the loop is over, the cycle returns `Terminated`, or the
loop goes on. -/
inductive Turn (W : Type) where
  | finished (ex : Executor W)
  | terminated (ex : Executor W)
  | again (ex : Executor W)

def nodeStep (now : CycleTime) (ex : Executor W) : Except Failure (Turn W) :=
  match ex.scheduler.pop with
  | (none, scheduler) => .ok (.finished { ex with scheduler := scheduler })
  | (some i, scheduler) => do
    let (run, ex) ← graphCycle prog now i { ex with scheduler := scheduler }
    let ex := ex.recordRun run
    if run.verdict.control = .terminate then pure (.terminated (ex.log .terminated))
    else
      let ex ← handleControl run ex
      pure (.again ex)

def nodeLoop (now : CycleTime) : Nat → Executor W → Except Failure (Exit × Executor W)
  | 0, _ => .error .outOfFuel
  | fuel + 1, ex => do
    match ← nodeStep prog now ex with
    | .finished ex => pure (.running, ex)
    | .terminated ex => pure (.terminated, ex)
    | .again ex => nodeLoop now fuel ex

/-! ## Cleanup -/

/-- `remove_node`: the box of the node is dropped with what its closure holds. -/
def removeNode (ex : Executor W) (i : NodeIndex) : Executor W :=
  match ex.keyAt i with
  | none => ex
  | some k =>
    let ex := log { ex with graph := ex.graph.removeNode i } (.removed k)
    (ex.dropOwner prog (.graph k)).dropOwner prog (.closure k)

def sweepLoop : Nat → Executor W → Except Failure (Executor W)
  | 0, _ => .error .outOfFuel
  | fuel + 1, ex =>
    match ex.gc with
    | [] => .ok ex
    | r :: rest => sweepLoop fuel (removeNode prog { ex with gc := rest } r.index)

/-- One deferred subgraph; what its closure captured is dropped when it returns. -/
def runSpawn (ex : Executor W) (ticket : Nat) : Except Failure (Executor W) :=
  (ex.execOps prog (prog.spawnFn ex ticket)).map fun ex => ex.dropOwner prog (.spawn ticket)

/-- No deferred subgraph can defer another one: it has no execution context. -/
def runSpawns : List Nat → Executor W → Except Failure (Executor W)
  | [], ex => .ok ex
  | ticket :: rest, ex => (runSpawn prog { ex with deferredSpawns := rest } ticket).bind (runSpawns rest)

/-! ## The cycle -/

def beginCycle (ex : Executor W) : Executor W :=
  log { ex with epoch := (ex.epoch + 1) % 2 ^ 64, runs := [] } .began

/-- The epoch wraps around. -/
theorem beginCycle_of_wraps {ex : Executor W} (wraps : (ex.epoch + 1) % 2 ^ 64 = 0) :
    ex.beginCycle = log { ex with epoch := 0, runs := [] } .began := by
  rw [beginCycle, wraps]

/-- The cycle up to the end of its node loop. -/
def runNodes (fuel : Nat) (input : CycleInput) (ex : Executor W) : Except Failure (Exit × Executor W) := do
  match ← poll input ex.beginCycle with
  | (none, ex) => pure (.err, ex)
  | (some now, ex) => nodeLoop prog now fuel ex

/-- `Executor::cycle`. Both loops get the same fuel. -/
def cycle (fuel : Nat) (input : CycleInput) (ex : Executor W) : Except Failure (Exit × Executor W) := do
  match ← runNodes prog fuel input ex with
  | (.running, ex) =>
    let ex ← sweepLoop prog fuel ex
    let ex ← runSpawns prog ex.deferredSpawns ex
    pure (.running, ex)
  | stopped => pure stopped

end Executor
end Wavelet
