import Mathlib.Data.List.Dedup
import Wavelet.Cycle.Closure

/-!
# Failed polls

A failed I/O poll leaves the nodes that the other events woke in the scheduler, stamped with
the epoch of the failed cycle. The next cycle runs them, but it has a new epoch, so what
wakes such a node again, or a parent that schedules it, queues it a second time. The nodes
of the failed cycles run exactly once if and only if this does not happen.
-/

namespace Wavelet
namespace Executor

variable {W : Type}

/-- The nodes of the graph that the internal events of a cycle wake. -/
def wokenBy (input : CycleInput) (ex : Executor W) : List NodeIndex :=
  (((internalSeeds input ex).map (·.index)).filter fun i => (ex.graph.nodeWeight i).isSome).dedup

/-- Cycles whose I/O poll fails, and notifications between them, with the nodes that were
woken. -/
inductive FailedRun (start : Executor W) : List NodeIndex → Executor W → Prop
  | start : FailedRun start [] start
  | notify (t : Target) {woken ex} : FailedRun start woken ex → FailedRun start woken (ex.notify t)
  | cycle (prog : Program W) (fuel input) {woken ex ex'} : FailedRun start woken ex →
      cycle prog fuel input ex = .ok (.err, ex') → FailedRun start (woken ++ ex.wokenBy input) ex'

/-- A failed cycle is its poll. -/
theorem failed_poll {prog : Program W} {fuel : Nat} {input : CycleInput} {ex ex' : Executor W}
    (h : cycle prog fuel input ex = .ok (.err, ex')) : poll input ex.beginCycle = .ok (none, ex') := by
  rcases cycle_ok prog h with ⟨-, nodes⟩ | ⟨no, -⟩
  · rcases runNodes_ok prog nodes with ⟨-, polls⟩ | ⟨now, polled, -, loop⟩
    · exact polls
    · exact absurd rfl loop.exit_ne_err
  · cases no

/-- No node runs in a failed cycle. -/
theorem failed_runs {prog : Program W} {fuel : Nat} {input : CycleInput} {ex ex' : Executor W}
    (h : cycle prog fuel input ex = .ok (.err, ex')) : ex'.runs = [] :=
  (Steady.of_poll (failed_poll h)).runs

namespace FailedRun

variable {start ex : Executor W} {woken : List NodeIndex}

theorem reachable (run : FailedRun start woken ex) (reached : Reachable (fun _ => True) start) :
    Reachable (fun _ => True) ex := by
  induction run with
  | start => exact reached
  | notify t _ ih =>
    obtain ⟨cfg, mode, world, steps⟩ := ih
    exact ⟨cfg, mode, world, steps.tail (.op (⟨fun _ _ _ => ([], .panic), fun _ _ => [], fun _ _ => []⟩ : Program W)
      (.handle (.notify t)) rfl)⟩
  | cycle prog fuel input _ failed ih => exact ih.cycle trivial failed

end FailedRun

/-- What failed cycles leave behind: every woken node is queued, once for each cycle that
woke it. -/
structure Held (woken : List NodeIndex) (ex : Executor W) : Prop where
  sound : ex.Sound
  queued : ex.Queued
  top : ex.scheduler.currDepth = 0
  counted : ∀ i, ex.scheduler.entries.count i = woken.count i

theorem Held.notify {woken : List NodeIndex} {ex : Executor W} (held : Held woken ex) (t : Target) :
    Held woken (ex.notify t) := by
  have run := notify_run ex t
  have frame := frame_of_run run.code
  have scheduler := scheduler_of_handleRun run
  refine ⟨held.sound.congr (by rw [frame.graph]; exact .refl _) frame.nodes frame.index frame.depth
    (by rw [scheduler]), ?_, ?_, ?_⟩
  · intro d i member
    rw [scheduler] at member
    rw [frame.graph]
    exact held.queued d i member
  · rw [scheduler]
    exact held.top
  · rw [scheduler]
    exact held.counted

theorem live_of_same {ex ex' : Executor W} (same : ex.graph.Same ex'.graph) (i : NodeIndex) :
    (ex'.graph.nodeWeight i).isSome = (ex.graph.nodeWeight i).isSome := by
  have core := same.core i
  simp only [Graph.core] at core
  rw [← Option.isSome_map, core, Option.isSome_map]

theorem Held.failed {woken : List NodeIndex} {input : CycleInput} {ex ex' : Executor W} (held : Held woken ex)
    (wf : ex.scheduler.WF)
    (fresh : ∀ i ctx, ex.beginCycle.graph.nodeWeight i = some ctx → ctx.schedEpoch ≠ ex.beginCycle.epoch)
    (polls : poll input ex.beginCycle = .ok (none, ex')) : Held (woken ++ ex.wokenBy input) ex' := by
  have books := poll_books wf held.sound held.queued held.top fresh polls
  have steady := Steady.of_poll polls
  refine ⟨books.sound, books.queued, steady.currDepth.trans held.top, fun i => ?_⟩
  have total := books.tally.counted i
  have idle : ex'.runs = [] := steady.runs
  have live : (ex'.graph.nodeWeight i).isSome = (ex.graph.nodeWeight i).isSome := live_of_same steady.graph i
  rw [idle, live, held.counted i] at total
  rw [List.count_append, wokenBy, List.count_dedup]
  simp only [List.mem_filter]
  simpa using total

theorem FailedRun.held {start ex : Executor W} {woken : List NodeIndex} (run : FailedRun start woken ex)
    (reached : Reachable (fun _ => True) start) (rests : start.scheduler.AtRest)
    (parents : ex.All Event.ParentsPresent) (few : ex.cycles < 2 ^ 64) : Held woken ex := by
  induction run with
  | start =>
    refine ⟨reached.sound parents, fun d i member => ?_, rests.top, fun i => by rw [rests.entries_nil]⟩
    rw [rests.drained d] at member
    cases member
  | notify t run ih =>
    rename_i woken ex
    have path := CodeRun.path (notify_run ex t).code
    exact (ih (Path.all path parents) (Nat.lt_of_le_of_lt (Path.cycles_le path) few)).notify t
  | cycle prog fuel input run failed ih =>
    rename_i woken ex ex'
    have polls := failed_poll failed
    have path : Path ex ex' := .head .begin (poll_path polls)
    have reached' := run.reachable reached
    have began := cycles_of_cycle reached'.schedulerWF failed
    exact (ih (Path.all path parents) (by omega)).failed reached'.schedulerWF
      ((reached'.stamped (by omega)).fresh (by omega)) polls

/-! ## The cycle that succeeds -/

variable {prog : Program W}

/-- The books at the end of a node loop: what was offered in it are the children that its
runs scheduled. -/
theorem Loop.books {base offered : List NodeIndex} {now : CycleTime} {exit : Exit} {ex ex' : Executor W}
    (h : Loop prog now ex exit ex') (quiet : prog.NoManual) (books : Books base offered ex) :
    ∃ offered' done, Tally base offered' ex' ∧ ex'.runs = done ++ ex.runs ∧ ex.graph.Same ex'.graph ∧
      ∀ i, i ∈ offered' ↔ i ∈ offered ∨ ∃ run ∈ done, i ∈ ex.graph.scheduledBy run := by
  induction h generalizing offered with
  | finished step =>
    obtain ⟨s, popped, rfl⟩ := nodeStep_finished prog step
    obtain ⟨rests, empty⟩ := Scheduler.pop_none books.wf popped
    obtain ⟨stamped, counted⟩ := books.tally
    refine ⟨offered, [], ⟨stamped, fun i => ?_⟩, rfl, .refl _, fun i => by simp⟩
    have before := counted i
    rw [empty] at before
    show s.entries.count i + _ = _
    rw [rests.entries_nil]
    exact before
  | terminated step =>
    obtain ⟨j, s, run, mid, popped, ran, ends, rfl⟩ := nodeStep_terminated prog step
    have tally := tally_recordRun quiet books.wf books.tally popped ran
    have frame := frame_of_run (graphCycle_run prog ran)
    refine ⟨offered, [run], tally.congr rfl rfl rfl rfl, congrArg (run :: ·) frame.runs, ?_, fun i => ?_⟩
    · show Graph.Same _ mid.graph
      rw [frame.graph]
      exact .refl _
    · simp [Graph.scheduledBy, ends]
  | again step _ ih =>
    obtain ⟨run, turn⟩ := books.turn quiet step
    obtain ⟨offered', done, tally, runs, same, offers⟩ := ih turn.books
    refine ⟨offered', done ++ [run], tally, by rw [runs, turn.runs]; simp, turn.same.trans same, fun i => ?_⟩
    rw [offers]
    simp only [List.mem_append, turn.same.scheduledBy, List.mem_singleton, or_and_right, exists_or,
      exists_eq_left]
    exact or_right_comm.trans or_assoc

/-- No node runs in a failed cycle. In the next cycle that returns `Ok`, in which the nodes
do not call `schedule_node`, the nodes that the failed cycles woke run exactly once if and
only if none of them was woken by two of the failed cycles, is woken again in the last one
or is scheduled in it by a parent; provided none of them is still queued, which can only be
after the early return of a node that terminates. -/
theorem failed_polls_transparent_iff {fuel : Nat} {input : CycleInput} {exit : Exit}
    {start ex ex' : Executor W} {woken : List NodeIndex} (reached : Reachable (fun _ => True) start)
    (rests : start.scheduler.AtRest) (failed : FailedRun start woken ex)
    (parents : ex.All Event.ParentsPresent) (few : ex.cycles + 1 < 2 ^ 64) (quiet : prog.NoManual)
    (returned : cycle prog fuel input ex = .ok (exit, ex')) (finished : exit ≠ .err) :
    (∀ (prog : Program W) fuel input (a b : Executor W), cycle prog fuel input a = .ok (.err, b) →
      b.runs = []) ∧
    (exit = .running → ∀ i ∈ woken, i ∉ ex'.scheduler.entries) ∧
    ((∀ i ∈ woken, i ∉ ex'.scheduler.entries) →
      ((∀ i ∈ woken, (ex'.runs.map (·.index)).count i = 1) ↔
        woken.Nodup ∧ ∀ i ∈ woken, i ∉ (seeds input ex).map (·.index) ∧
        ∀ run ∈ ex'.runs, i ∉ ex.graph.scheduledBy run)) := by
  have held := failed.held reached rests parents (by omega)
  have reached' := failed.reachable reached
  have wf := reached'.schedulerWF
  have fresh := (reached'.stamped (by omega)).fresh few
  refine ⟨fun _ _ _ _ _ => failed_runs, ?_, fun gone => ?_⟩
  · rintro rfl i -
    rw [(cycle_atRest wf returned).entries_nil]
    exact List.not_mem_nil
  -- the state at the end of the node loop, whose runs and entries are those of the cycle
  have ends : ∃ last, runNodes prog fuel input ex = .ok (exit, last) ∧ ex'.runs = last.runs ∧
      ∀ i ∈ woken, i ∉ last.scheduler.entries := by
    rcases cycle_ok prog returned with ⟨-, nodes⟩ | ⟨rfl, mid, swept, nodes, sweeps, spawns⟩
    · exact ⟨ex', nodes, rfl, gone⟩
    · refine ⟨mid, nodes, (runs_runSpawns spawns).trans (runs_sweepLoop sweeps), fun i _ => ?_⟩
      rw [(runNodes_atRest prog wf nodes).entries_nil]
      exact List.not_mem_nil
  obtain ⟨last, nodes, runs, gone⟩ := ends
  rcases runNodes_ok prog nodes with ⟨no, -⟩ | ⟨now, polled, polls, loop⟩
  · exact absurd no finished
  have books := poll_books wf held.sound held.queued held.top fresh polls
  have steady := Steady.of_poll polls
  have idle : polled.runs = [] := steady.runs
  have here : ex.graph.Same polled.graph := steady.graph
  obtain ⟨offered, done, tally, all, same, offers⟩ := loop.books quiet books
  rw [idle, List.append_nil] at all
  have counted : ∀ i ∈ woken, (ex'.runs.map (·.index)).count i = woken.count i +
      if i ∈ offered then 1 else 0 := by
    intro i member
    have total := tally.counted i
    have queued : i ∈ ex.scheduler.entries := by
      rw [← List.count_pos_iff, held.counted]
      exact List.count_pos_iff.mpr member
    obtain ⟨d, inside⟩ := Scheduler.mem_entries_iff.mp queued
    obtain ⟨fn, core⟩ := held.queued d i inside
    have live : (last.graph.nodeWeight i).isSome := by
      obtain ⟨ctx, there, -⟩ := Graph.nodeWeight_of_core (((here.trans same).core i).trans core)
      rw [there]
      rfl
    rw [List.count_eq_zero.mpr (gone i member), held.counted i, Nat.zero_add] at total
    rw [runs, total]
    simp [live]
  have again : ∀ i, i ∈ offered ↔ i ∈ (seeds input ex).map (·.index) ∨
      ∃ run ∈ ex'.runs, i ∈ ex.graph.scheduledBy run := by
    intro i
    rw [offers, runs, all]
    simp only [Option.isSome_some, if_true, here.scheduledBy]
  rw [List.nodup_iff_count_eq_one]
  constructor
  · intro once
    constructor
    · intro i member
      have total := counted i member
      have positive := List.count_pos_iff.mpr member
      rw [once i member] at total
      omega
    · intro i member
      have total := counted i member
      have positive := List.count_pos_iff.mpr member
      rw [once i member] at total
      have not : i ∉ offered := by
        intro offered
        rw [if_pos offered] at total
        omega
      rw [again] at not
      push Not at not
      exact not
  · rintro ⟨once, apart⟩ i member
    have not : i ∉ offered := by
      rw [again]
      push Not
      exact apart i member
    rw [counted i member, once i member, if_neg not]

/-- The I/O driver is on. -/
def polling : Executor Unit := withConfig { timerEnabled := false } .park ()

/-- The outcomes of the I/O poll: an error, and no event. -/
def interrupted : CycleInput := ⟨none, ⟨0, 0⟩, ⟨0, 0⟩, none⟩

def undisturbed : CycleInput := ⟨none, ⟨0, 0⟩, ⟨0, 0⟩, some []⟩

def idleOps : List (ExecOp Unit) :=
  [.build { index := 0 }, .build { index := 1 }, .driver (.yieldNow (.node 0))]

/-- One poll fails after it woke node 0, the next wakes node 1. -/
theorem relay_failed_polls_transparent :
    ∃ start failed mid last, polling.execOps relay idleOps = .ok start ∧
      cycle relay 3 interrupted start = .ok (.err, failed) ∧ failed.notify (.node 1) = mid ∧
      cycle relay 3 undisturbed mid = .ok (.running, last) ∧ (last.runs.map (·.index)).count 0 = 1 :=
  have built : polling.execOps relay idleOps = .ok _ := rfl
  have failed : cycle relay 3 interrupted _ = .ok (.err, _) := rfl
  have returned : cycle relay 3 undisturbed _ = .ok (.running, _) := rfl
  have reached : Reachable (· = .running) _ := (Reachable.initial ..).ops built
  have transparent := failed_polls_transparent_iff (reached.mono fun _ _ => trivial) reached.atRest
    (.notify (.node 1) (.cycle relay 3 interrupted .start failed)) (by decide)
    (by decide) relay_noManual returned (by decide)
  ⟨_, _, _, _, built, failed, rfl, returned, (transparent.2.2 (by decide)).mpr (by decide) 0 (by decide)⟩

/-- Node 0 yields, the poll fails, node 0 is notified: the next cycle runs it twice. -/
theorem woken_again_runs_twice :
    ∃ start failed last : Executor Unit, Reachable (fun _ => True) start ∧ start.scheduler.AtRest ∧
      start.All Event.ParentsPresent ∧ FailedRun start [0] (failed.notify (.node 0)) ∧ relay.NoManual ∧
      cycle relay 3 undisturbed (failed.notify (.node 0)) = .ok (.running, last) ∧
      last.runs.map (·.index) = [0, 0] :=
  have built : polling.execOps relay idleOps = .ok _ := rfl
  have failed : cycle relay 3 interrupted _ = .ok (.err, _) := rfl
  have reached : Reachable (· = .running) _ := (Reachable.initial ..).ops built
  ⟨_, _, _, reached.mono fun _ _ => trivial, reached.atRest, by decide,
    .notify (.node 0) (.cycle relay 3 interrupted .start failed), relay_noManual, rfl, rfl⟩

end Executor
end Wavelet
