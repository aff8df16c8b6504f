import Mathlib.Algebra.Order.Floor.Div
import Wavelet.Cycle.Ends

/-!
# Historical replay

`HistoricalClock` of `historical.rs` walks through an interval in fixed steps and says that it
is exhausted once it has shown the end. `run_until_completion` of `runtime.rs` goes through
cycles until then; each takes one reading.
-/

namespace Wavelet

/-! ## The clock -/

/-- `Interval`, its `end` named `stop`; `new` asserts the order. -/
structure Interval where
  start : Int
  stop : Int
  ordered : start < stop

structure HistoricalClock where
  interval : Interval
  timeStep : Nat
  currentTime : Int
  baselineInstant : Nat
  exhausted : Bool

namespace HistoricalClock

/-- The baseline is the instant of the call, less the time from the epoch to the start. -/
def withTimeStep (interval : Interval) (timeStep : Nat) (baseline : Nat) : HistoricalClock where
  interval := interval
  timeStep := timeStep
  currentTime := interval.start
  baselineInstant := baseline
  exhausted := false

/-- 100 microseconds. -/
def defaultTimeStep : Nat := 100000

def new (interval : Interval) (baseline : Nat) :
    HistoricalClock := withTimeStep interval defaultTimeStep baseline

def isExhausted (clock : HistoricalClock) : Bool := clock.exhausted

def currentInstant (clock : HistoricalClock) : Nat :=
  clock.baselineInstant + (clock.currentTime - clock.interval.start).toNat

def tryAdvance (clock : HistoricalClock) : HistoricalClock :=
  if clock.exhausted then clock
  else if clock.currentTime = clock.interval.stop then { clock with exhausted := true }
  else
    let nextTime := clock.currentTime + clock.timeStep
    if clock.interval.stop ≤ nextTime then { clock with currentTime := clock.interval.stop }
    else { clock with currentTime := nextTime }

def cycleTime (clock : HistoricalClock) : CycleTime × HistoricalClock :=
  (⟨clock.currentInstant, clock.currentTime⟩, clock.tryAdvance)

end HistoricalClock

/-- The `Clock` of a replay. -/
def historical : Clock HistoricalClock := ⟨HistoricalClock.cycleTime⟩

namespace Clock

variable {C : Type*} (clock : Clock C)

/-- The clock after so many calls of `cycle_time`. -/
def after (c : C) : Nat → C
  | 0 => c
  | i + 1 => (clock.cycleTime (after c i)).2

/-- What the call after so many others returns. -/
def reading (c : C) (i : Nat) : CycleTime := (clock.cycleTime (clock.after c i)).1

end Clock

/-- The unix time that step `i` of a replay stands for. -/
def Interval.at (interval : Interval) (timeStep i : Nat) : Int :=
  min (interval.start + i * timeStep) interval.stop

/-- The number of cycles of a replay. -/
def Interval.cycles (interval : Interval) (timeStep : Nat) : Nat :=
  (interval.stop - interval.start).toNat ⌈/⌉ timeStep + 1

namespace HistoricalClock

variable {interval : Interval} {timeStep baseline : Nat}

/-- What holds of the clock after `i` calls. -/
structure Walks (interval : Interval) (timeStep baseline i : Nat) (clock : HistoricalClock) : Prop where
  sameInterval : clock.interval = interval
  sameStep : clock.timeStep = timeStep
  sameBaseline : clock.baselineInstant = baseline
  current : clock.currentTime = interval.at timeStep i
  ended : clock.exhausted = true → clock.currentTime = interval.stop

theorem Walks.next {i : Nat} {clock : HistoricalClock} (walks : Walks interval timeStep baseline i clock) :
    Walks interval timeStep baseline (i + 1) clock.tryAdvance ∧
      (clock.tryAdvance.exhausted = true ↔ clock.currentTime = interval.stop) := by
  obtain ⟨rfl, rfl, rfl, current, ended⟩ := walks
  have step : ((i + 1 : Nat) : Int) * clock.timeStep = i * clock.timeStep + clock.timeStep := by
    rw [Nat.cast_succ, add_one_mul]
  unfold Interval.at at current
  unfold tryAdvance
  split
  · rename_i exhausted
    have here := ended exhausted
    refine ⟨⟨rfl, rfl, rfl, ?_, ended⟩, fun _ => here, fun _ => exhausted⟩
    unfold Interval.at
    rw [step]
    omega
  · rename_i running
    split
    · rename_i here
      refine ⟨⟨rfl, rfl, rfl, ?_, fun _ => here⟩, fun _ => here, fun _ => rfl⟩
      unfold Interval.at
      dsimp only
      rw [step]
      omega
    · rename_i before
      have still : clock.exhausted ≠ true := running
      dsimp only
      split
      · refine ⟨⟨rfl, rfl, rfl, ?_, fun no => absurd no still⟩, fun no => absurd no still,
          fun here => absurd here before⟩
        unfold Interval.at
        dsimp only
        rw [step]
        omega
      · refine ⟨⟨rfl, rfl, rfl, ?_, fun no => absurd no still⟩, fun no => absurd no still,
          fun here => absurd here before⟩
        unfold Interval.at
        dsimp only
        rw [step]
        omega

theorem walks (interval : Interval) (timeStep baseline i : Nat) :
    Walks interval timeStep baseline i (historical.after (withTimeStep interval timeStep baseline) i) := by
  induction i with
  | zero =>
    refine ⟨rfl, rfl, rfl, ?_, fun no => by cases no⟩
    have ordered := interval.ordered
    show interval.start = min (interval.start + (0 : Nat) * (timeStep : Int)) interval.stop
    omega
  | succ i ih => exact ih.next.1

/-- A call returns the step's time, and its distance from the start as an instant. -/
theorem reading_eq (interval : Interval) (timeStep baseline i : Nat) :
    historical.reading (withTimeStep interval timeStep baseline) i =
      ⟨baseline + (interval.at timeStep i - interval.start).toNat, interval.at timeStep i⟩ := by
  have walks := walks interval timeStep baseline i
  unfold Clock.reading
  show CycleTime.mk (HistoricalClock.currentInstant _) _ = _
  rw [currentInstant, walks.sameBaseline, walks.current, walks.sameInterval]

/-- The clock is exhausted after the first call that returned the end. -/
theorem exhausted_iff (interval : Interval) (timeStep baseline i : Nat) :
    (historical.after (withTimeStep interval timeStep baseline) (i + 1)).isExhausted = true ↔
      interval.stop ≤ interval.start + i * timeStep := by
  have walks := walks interval timeStep baseline i
  refine walks.next.2.trans ?_
  rw [walks.current, Interval.at]
  omega

end HistoricalClock

/-! ## The steps of an interval -/

namespace Interval

variable {interval : Interval} {timeStep : Nat}

/-- The replay stops at the first step that reaches the end. -/
theorem lt_cycles_iff (interval : Interval) (forward : 0 < timeStep) (i : Nat) :
    i + 1 < interval.cycles timeStep ↔ interval.start + i * timeStep < interval.stop := by
  have ordered := interval.ordered
  unfold cycles
  rw [Nat.add_lt_add_iff_right, ← Nat.not_le, ceilDiv_le_iff_le_mul forward, Nat.not_le, mul_comm]
  rw [← Int.ofNat_lt, Nat.cast_mul, Int.toNat_of_nonneg (by omega)]
  omega

/-- Every step shows a later time than the one before. -/
theorem at_lt_at (forward : 0 < timeStep) {i j : Nat} (before : i < j)
    (within : j < interval.cycles timeStep) :
    interval.at timeStep i < interval.at timeStep j := by
  have short := (lt_cycles_iff interval forward i).mp (by omega)
  have further : (i : Int) * timeStep < j * timeStep := by
    rw [← Nat.cast_mul, ← Nat.cast_mul, Int.ofNat_lt]
    exact Nat.mul_lt_mul_of_pos_right before forward
  unfold Interval.at
  omega

/-- The last step shows the end. -/
theorem at_last (forward : 0 < timeStep) :
    interval.at timeStep (interval.cycles timeStep - 1) = interval.stop := by
  have reached := (lt_cycles_iff interval forward (interval.cycles timeStep - 1)).not.mp (by omega)
  unfold Interval.at
  omega

end Interval
/-! ## Cycles that read the clock -/

namespace Executor

variable {W : Type} {prog : Program W}

/-- The I/O poll of `slow_poll` may have slept, so the time is read once more. -/
def Sleeps (input : CycleInput) (ex : Executor W) : Prop :=
  (ex.eventDriver.ioDriver.isSome ∧ input.io.isSome) ∧ ¬ ex.FastPath input.timeout ∧
  ex.eventDriver.mode = .park ∧
    ex.ioTimeout input.first.instant input.timeout ≠ some 0

instance (input : CycleInput) (ex : Executor W) : Decidable (ex.Sleeps input) :=
  inferInstanceAs (Decidable (_ ∧ _))

/-- How often the poll of a cycle reads the clock. -/
def readings (input : CycleInput) (ex : Executor W) : Nat :=
  match pollInternal input.first.instant ex.beginCycle with
  | .ok mid => if mid.Sleeps input then 2 else 1
  | .error _ => 1

/-- What the clock and `mio` tell a cycle. -/
def inputOf {C : Type*} (clock : Clock C) (c : C) (timeout : Option Nat)
    (io : Option (List IoEvent)) : CycleInput :=
  ⟨timeout, clock.reading c 0, clock.reading c 1, io⟩

theorem askIo_time {input : CycleInput} {t : Option CycleTime} {ex ex' : Executor W}
    (h : askIo input ex = .ok (t, ex')) :
    t = none ∨ t = some (if ex.Sleeps input then input.second else input.first) := by
  unfold askIo at h
  split at h
  · rename_i disabled
    have awake : ¬ ex.Sleeps input := by
      intro sleeps
      have enabled := sleeps.1.1
      rw [disabled] at enabled
      cases enabled
    cases h
    right
    rw [if_neg awake]
  · cases h
    exact .inl rfl
  · rename_i io events enabled reported
    have asked : ex.eventDriver.ioDriver.isSome ∧ input.io.isSome := by
      rw [enabled, reported]
      exact ⟨rfl, rfl⟩
    obtain ⟨polled, -, same⟩ := Steps.map_ok h
    cases same
    right
    exact congrArg some (if_congr ⟨fun slept => ⟨asked, slept⟩, fun sleeps => sleeps.2⟩ rfl rfl)

/-- A poll that must not wait reads the clock once, and that reading is the cycle's time. -/
theorem readings_eq_one {input : CycleInput} (hurried : input.timeout = some 0) (ex : Executor W) :
    ex.readings input = 1 := by
  unfold readings
  split
  · exact if_neg fun sleeps => sleeps.2.1 (.inr hurried)
  · rfl

theorem poll_time {input : CycleInput} (hurried : input.timeout = some 0) {t : Option CycleTime}
    {ex ex' : Executor W} (h : poll input ex = .ok (t, ex')) : t = none ∨ t = some input.first := by
  obtain ⟨mid, -, asks⟩ := poll_ok h
  have time := askIo_time asks
  rwa [if_neg fun sleeps => sleeps.2.1 (.inr hurried)] at time

/-- The time that the nodes of the next cycle see, if its poll comes through. -/
def cycleTime (input : CycleInput) (ex : Executor W) : Option CycleTime :=
  match poll input ex.beginCycle with
  | .ok (t, _) => t
  | .error _ => none

end Executor

/-! ## The run -/

/-- The cycle functions never return `Terminate`. -/
def Program.Steadfast {W : Type} (prog : Program W) : Prop :=
  ∀ ex ctx k, (prog.cycleFn ex ctx k).2 ≠ .ret .terminate

/-- What other threads do between two cycles, and what `mio` reports in the second. -/
structure Surroundings (W : Type) where
  shared : W → W
  arrivals : List Target
  io : Option (List IoEvent)

/-- A cycle of a replay: the time that its nodes see and how it ends. -/
structure Replayed where
  time : Option CycleTime
  exit : Exit
  deriving DecidableEq, Repr

namespace Executor

variable {W : Type} (prog : Program W)

def surround (outside : Surroundings W) (ex : Executor W) : Executor W :=
  outside.arrivals.foldl notify { ex with world := outside.shared ex.world }

/-- `Runtime<HistoricalClock>::run_until_completion`, with the cycles it went through. An error
of a cycle counts as `Running`. -/
def runUntilCompletion (outside : Nat → Surroundings W) (fuel : Nat) :
    Nat → Nat → HistoricalClock → Executor W → Except Failure (List Replayed × Executor W)
  | 0, _, _, _ => .error .outOfFuel
  | turns + 1, i, clock, ex =>
    if clock.isExhausted then .ok ([], ex)
    else do
      let ex := ex.surround (outside i)
      let input := inputOf historical clock (some 0) (outside i).io
      let (exit, ex') ← cycle prog fuel input ex
      let visit : Replayed := ⟨ex.cycleTime input, exit⟩
      if exit = .terminated then pure ([visit], ex')
      else
        let (later, last) ← runUntilCompletion outside fuel turns (i + 1)
          (historical.after clock (ex.readings input)) ex'
        pure (visit :: later, last)

variable {prog}

theorem Loop.steadfast (steadfast : prog.Steadfast) {now : CycleTime} {exit : Exit} {ex ex' : Executor W}
    (loop : Loop prog now ex exit ex') : exit ≠ .terminated := by
  induction loop with
  | finished _ => exact fun no => by cases no
  | again _ _ ih => exact ih
  | terminated step =>
    obtain ⟨i, s, run, mid, -, ran, stops, -⟩ := nodeStep_terminated prog step
    have called : ∀ {fn : CycleFn} {before after : Executor W},
        callCycleFn prog now i fn before = .ok (run.verdict, after) → run.verdict.control ≠ .terminate := by
      intro fn before after calls
      obtain ⟨answer, finished, after, rfl, -, ends⟩ := callCycleFn_ok prog calls
      rcases ends with ⟨control, verdict, -, returned, -⟩ | ⟨verdict, -, -⟩
      · rw [verdict]
        rintro rfl
        exact steadfast _ _ _ returned
      · rw [verdict]
        exact fun no => by cases no
    obtain ⟨ctx, -, -, -, poisoned | spawned | built | dead⟩ := graphCycle_cases prog ran
    · rw [poisoned.2.1] at stops
      cases stops
    · exact absurd stops (called spawned.2.2)
    · obtain ⟨-, -, -, mid, calls, -⟩ := built
      exact absurd stops (called calls)
    · rw [dead.2.2.2.1] at stops
      cases stops

theorem cycle_steadfast (steadfast : prog.Steadfast) {fuel : Nat} {input : CycleInput} {exit : Exit}
    {ex ex' : Executor W} (h : cycle prog fuel input ex = .ok (exit, ex')) : exit ≠ .terminated := by
  rcases cycle_ok prog h with ⟨-, ran⟩ | ⟨rfl, -⟩
  · rcases runNodes_ok prog ran with ⟨rfl, -⟩ | ⟨now, polled, -, loop⟩
    · exact fun no => by cases no
    · exact loop.steadfast steadfast
  · exact fun no => by cases no

theorem scheduler_surround (outside : Surroundings W) (ex : Executor W) :
    (ex.surround outside).scheduler = ex.scheduler := by
  refine Steps.foldl_inv (p := fun s : Executor W => s.scheduler = ex.scheduler) (fun s t _ same => ?_) rfl
  rw [← same]
  exact scheduler_of_handleRun (notify_run s t)

end Executor

namespace Interval

variable {W : Type} {prog : Program W} {interval : Interval} {baseline : Nat}

/-- The clock before cycle `i` of a replay. -/
def clockAt (interval : Interval) (timeStep baseline i : Nat) : HistoricalClock :=
  historical.after (.withTimeStep interval timeStep baseline) i

def inputAt (interval : Interval) (timeStep baseline i : Nat) (io : Option (List IoEvent)) : CycleInput :=
  Executor.inputOf historical (interval.clockAt timeStep baseline i) (some 0) io

/-- The clock is exhausted after the last cycle of a replay, and not before. -/
theorem exhausted_iff_cycles {timeStep : Nat} (forward : 0 < timeStep) (i : Nat) :
    (interval.clockAt timeStep baseline i).isExhausted = true ↔ interval.cycles timeStep ≤ i := by
  cases i with
  | zero =>
    constructor
    · exact fun no => by cases no
    · intro none
      unfold cycles at none
      omega
  | succ i =>
    have running := lt_cycles_iff interval forward i
    rw [clockAt, HistoricalClock.exhausted_iff]
    omega

/-- A cycle of a replay that stands for step `i`: its nodes see the time of the step, unless
the I/O poll failed and no node ran. -/
structure ShownBy (interval : Interval) (timeStep baseline i : Nat) (visit : Replayed) : Prop where
  onward : visit.exit ≠ .terminated
  time : visit.time = some ⟨baseline + (interval.at timeStep i - interval.start).toNat,
    interval.at timeStep i⟩ ∨
    visit.time = none ∧ visit.exit = .err

theorem shownBy_cycle (steadfast : prog.Steadfast) {timeStep i : Nat} {io : Option (List IoEvent)}
    {fuel : Nat} {exit : Exit} {ex ex' : Executor W}
    (h : Executor.cycle prog fuel
      (interval.inputAt timeStep baseline i io) ex = .ok (exit, ex')) :
    interval.ShownBy timeStep baseline i
      ⟨ex.cycleTime (interval.inputAt timeStep baseline i io), exit⟩ := by
  refine ⟨Executor.cycle_steadfast steadfast h, ?_⟩
  have nodes : ∃ last, Executor.runNodes prog fuel
      (interval.inputAt timeStep baseline i io) ex = .ok (exit, last) := by
    rcases Executor.cycle_ok prog h with ⟨-, ran⟩ | ⟨rfl, mid, -, ran, -⟩
    · exact ⟨ex', ran⟩
    · exact ⟨mid, ran⟩
  obtain ⟨last, ran⟩ := nodes
  unfold Executor.cycleTime
  rcases Executor.runNodes_ok prog ran with ⟨rfl, polls⟩ | ⟨now, polled, polls, -⟩
  · rw [polls]
    exact .inr ⟨rfl, rfl⟩
  · rw [polls]
    rcases Executor.poll_time rfl polls with no | time
    · cases no
    · rw [← HistoricalClock.reading_eq]
      exact .inl time

/-- What is left of a replay after `i` cycles. -/
theorem replay_from (quiet : prog.NoManual) (steadfast : prog.Steadfast) {timeStep : Nat}
    (forward : 0 < timeStep) (outside : Nat → Surroundings W) (left : Nat) {i : Nat}
    (here : i + left = interval.cycles timeStep) {ex : Executor W} (wf : ex.scheduler.WF) :
    ∃ enough, ∀ fuel turns, enough ≤ fuel → left < turns →
      (∃ failure, failure ≠ .outOfFuel ∧
        Executor.runUntilCompletion prog outside fuel turns i
          (interval.clockAt timeStep baseline i) ex = .error failure) ∨
      ∃ visits last,
        Executor.runUntilCompletion prog outside fuel turns i
          (interval.clockAt timeStep baseline i) ex = .ok (visits, last) ∧
        visits.length = left ∧
        ∀ j visit, visits[j]? = some visit → interval.ShownBy timeStep baseline (i + j) visit := by
  induction left generalizing i ex with
  | zero =>
    refine ⟨0, fun fuel turns _ more => .inr ⟨[], ex, ?_, rfl, fun j visit no => (by cases no)⟩⟩
    obtain ⟨turns, rfl⟩ : ∃ n, turns = n + 1 := ⟨turns - 1, by omega⟩
    rw [Executor.runUntilCompletion, if_pos ((exhausted_iff_cycles forward i).mpr (by omega))]
  | succ left ih =>
    have running : ¬ (interval.clockAt timeStep baseline i).isExhausted = true := by
      rw [exhausted_iff_cycles forward i]
      omega
    have wf' : (ex.surround (outside i)).scheduler.WF := by rwa [Executor.scheduler_surround]
    obtain ⟨result, bound, fueled, ends⟩ := Executor.cycle_ends quiet
      (interval.inputAt timeStep baseline i (outside i).io) wf'
    cases result with
    | error failure =>
      refine ⟨bound, fun fuel turns enough more => .inl ⟨failure, fun out => fueled (by rw [out]), ?_⟩⟩
      obtain ⟨turns, rfl⟩ : ∃ n, turns = n + 1 := ⟨turns - 1, by omega⟩
      rw [Executor.runUntilCompletion, if_neg running]
      show Except.bind
        (Executor.cycle prog fuel (interval.inputAt timeStep baseline i (outside i).io) _) _ = _
      rw [ends fuel enough]
      rfl
    | ok after =>
      obtain ⟨exit, ex'⟩ := after
      have returned := ends bound (Nat.le_refl _)
      have shown := shownBy_cycle steadfast returned
      obtain ⟨bound', later⟩ :=
        @ih (i + 1) (by omega) ex' (Executor.cycle_path prog wf' returned |>.schedulerWF wf')
      refine ⟨max bound bound', fun fuel turns enough more => ?_⟩
      obtain ⟨turns, rfl⟩ : ∃ n, turns = n + 1 := ⟨turns - 1, by omega⟩
      have unfolded : Executor.runUntilCompletion prog outside fuel (turns + 1) i
            (interval.clockAt timeStep baseline i) ex =
          (Executor.runUntilCompletion prog outside fuel turns (i + 1)
            (interval.clockAt timeStep baseline (i + 1)) ex').map fun rest =>
              (⟨(ex.surround (outside i)).cycleTime (interval.inputAt timeStep baseline i (outside i).io),
              exit⟩ :: rest.1, rest.2) := by
        rw [Executor.runUntilCompletion, if_neg running]
        show Except.bind (Executor.cycle prog fuel (interval.inputAt timeStep baseline i (outside i).io) _) _ = _
        rw [ends fuel (by omega)]
        show (if exit = .terminated then _ else _) = _
        rw [if_neg shown.onward, Executor.readings_eq_one rfl]
        rfl
      rw [unfolded]
      rcases later fuel turns (by omega) (by omega) with ⟨failure, fueled', stops⟩ |
        ⟨visits, last, runs, length, shows⟩
      · rw [stops]
        exact .inl ⟨failure, fueled', rfl⟩
      · rw [runs]
        refine .inr ⟨_, last, rfl, by rw [List.length_cons, length], fun j visit there => ?_⟩
        cases j with
        | zero =>
          cases there
          exact shown
        | succ j =>
          have next := shows j visit there
          rwa [Nat.add_assoc, Nat.add_comm 1 j] at next

/-- Call `i` of `cycle_time` returns the time of step `i`, and the clock is exhausted after the
first call that has returned the end. A replay of a program that neither terminates nor calls
`schedule_node` goes through every step once, in order and up to the end, unless a panic
leaves one of its cycles. -/
theorem replay_visits_each_step_once (interval : Interval) (baseline : Nat) :
    (∀ timeStep i, 0 < timeStep →
      historical.reading (.withTimeStep interval timeStep baseline) i =
          ⟨baseline + (interval.at timeStep i - interval.start).toNat, interval.at timeStep i⟩ ∧
        ((historical.after (.withTimeStep interval timeStep baseline) (i + 1)).isExhausted = true ↔
          interval.stop ≤ interval.start + i * timeStep)) ∧
    (∀ i j, i < j → j < interval.cycles HistoricalClock.defaultTimeStep →
      interval.at HistoricalClock.defaultTimeStep i < interval.at HistoricalClock.defaultTimeStep j) ∧
    interval.at HistoricalClock.defaultTimeStep
      (interval.cycles HistoricalClock.defaultTimeStep - 1) = interval.stop ∧
    ∀ (W : Type) (prog : Program W), prog.NoManual → prog.Steadfast → ∀ ex :
    Executor W, ex.Reachable (fun _ => True) →
      ∀ outside : Nat → Surroundings W, ∃ enough, ∀ fuel turns, enough ≤ fuel →
      interval.cycles HistoricalClock.defaultTimeStep < turns →
        (∃ failure, failure ≠ .outOfFuel ∧
          ex.runUntilCompletion prog outside fuel turns 0 (.new interval baseline) = .error failure) ∨
        ∃ visits last, ex.runUntilCompletion prog outside fuel turns 0 (.new interval baseline) =
        .ok (visits, last) ∧
          visits.length = interval.cycles HistoricalClock.defaultTimeStep ∧
          ∀ i visit, visits[i]? = some visit →
          interval.ShownBy HistoricalClock.defaultTimeStep baseline i visit := by
  have forward : 0 < HistoricalClock.defaultTimeStep := by decide
  refine ⟨fun timeStep i _ => ⟨HistoricalClock.reading_eq .., HistoricalClock.exhausted_iff ..⟩,
    fun i j before within => at_lt_at forward before within, at_last forward,
    fun W prog quiet steadfast ex reached outside => ?_⟩
  obtain ⟨enough, replays⟩ :=
    @replay_from _ prog interval baseline quiet steadfast _ forward outside _ 0 (Nat.zero_add _)
    ex reached.schedulerWF
  simp only [Nat.zero_add] at replays
  exact ⟨enough, replays⟩

/-- Half a millisecond and a bit, which takes seven cycles. -/
def brief : Interval := ⟨0, 500001, by decide⟩

/-- Nothing happens in the other threads. -/
def undisturbed (_ : Nat) : Surroundings Unit := ⟨id, [], some []⟩

/-- A node that yields once and then rests. -/
def resting : Program Unit where
  cycleFn _ _ _ := ([], .ret .unchanged)
  onDrop _ _ := []
  spawnFn _ _ := []

theorem brief_replay_visits_each_step_once :
    ∃ ex : Executor Unit,
      (Executor.withConfig {} .spin ()).execOps resting [.build { index := 0 },
      .driver (.yieldNow (.node 0))] = .ok ex ∧
      (historical.reading (.withTimeStep brief 300000 7) 1 = ⟨300007, 300000⟩ ∧
        ((historical.after (.withTimeStep brief 300000 7) 3).isExhausted = true ↔ (500001 : Int) ≤ 600000)) ∧
      ∃ enough, ∀ fuel turns, enough ≤ fuel → 7 < turns →
        (∃ failure, failure ≠ .outOfFuel ∧ ex.runUntilCompletion resting undisturbed fuel turns 0
          (.new brief 7) = .error failure) ∨
        ∃ visits last, ex.runUntilCompletion resting undisturbed fuel turns 0 (.new brief 7) =
          .ok (visits, last) ∧
          visits.length = 7 ∧ ∀ i visit, visits[i]? = some visit →
          brief.ShownBy HistoricalClock.defaultTimeStep 7 i visit := by
  have built : (Executor.withConfig {} .spin ()).execOps resting [.build { index := 0 },
      .driver (.yieldNow (.node 0))] =
    .ok _ := rfl
  have clock := (replay_visits_each_step_once brief 7).1
  have replays := (replay_visits_each_step_once brief 7).2.2.2 Unit resting
    (fun _ _ _ _ member => by cases member)
    (fun _ _ _ no => by cases no) _ (.ops (.initial ..) built) undisturbed
  exact ⟨_, built, ⟨(clock 300000 1 (by decide)).1, (clock 300000 2 (by decide)).2⟩, replays⟩

/-- A node that lets its panics through. -/
def fainting : Program Unit where
  cycleFn _ _ _ := ([], .panic)
  onDrop _ _ := []
  spawnFn _ _ := []

/-- The panic leaves the first cycle, and with it the replay, which never returns. -/
theorem fainting_replay_never_returns :
    fainting.NoManual ∧ fainting.Steadfast ∧ ∃ ex : Executor Unit, ex.Reachable (fun _ => True) ∧
      ∀ fuel turns visits last, ex.runUntilCompletion fainting undisturbed fuel turns 0
      (.new brief 7) ≠ .ok (visits, last) := by
  have built : (Executor.withConfig {} .spin ()).execOps fainting
      [.build { index := 0, allowPanic := true }, .driver (.yieldNow (.node 0))] = .ok _ := rfl
  refine ⟨fun _ _ _ _ member => (by cases member), fun _ _ _ no => (by cases no), _, .ops (.initial ..) built,
    fun fuel turns visits last returned => ?_⟩
  cases turns with
  | zero => cases returned
  | succ turns =>
    cases fuel with
    | zero => cases returned
    | succ fuel => cases returned

end Interval
end Wavelet
