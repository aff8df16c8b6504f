import Wavelet.Cycle.Closure
import Wavelet.Cycle.Course
import Wavelet.Cycle.Ends
import Wavelet.Cycle.Pops
import Wavelet.Events.Rest
import Wavelet.Runtime.Lineage

/-!
# Cycles that return

The runtime has panics of its own: an index without a node, a depth without a queue, a refusal
while it polls, a loop that does not end. None of them is reached while the cycle functions do
not call `schedule_node` and the cursor of the scheduler is at the top. What is left are the
panics that the code of the user causes, and an event of a source that was not registered.
-/

namespace Wavelet

variable {W : Type}

namespace Executor

open Steps

variable {prog : Program W}

/-! ## Polling -/

/-- What the runtime relies on in a cycle. -/
structure Firm (ex : Executor W) : Prop where
  wf : ex.scheduler.WF
  inPlace : ex.InPlace
  linked : ex.graph.Linked
  enabled : ex.Enabled
  queued : ex.Queued

theorem Firm.step {ex ex' : Executor W} (firm : ex.Firm) (path : Path ex ex')
    (queued : ex'.Queued) : ex'.Firm :=
  ⟨path.schedulerWF firm.wf, path.inPlace firm.inPlace, path.linked firm.linked,
    path.enabled firm.enabled, queued⟩

theorem Reachable.firm {allowed : Exit → Prop} {ex : Executor W} (reached : Reachable allowed ex)
    (manuals : ex.All Event.ManualPresent) :
    ex.Firm := by
  obtain ⟨cfg, mode, world, path⟩ := reached.path
  constructor
  case wf => exact reached.schedulerWF
  case inPlace => exact path.inPlace fun _ _ _ there => by cases there
  case linked => exact path.linked fun _ member => by cases member
  case enabled => exact path.enabled fun _ _ _ there => by cases there
  case queued => exact reached.queued manuals

theorem Firm.again {now : CycleTime} {ex ex' : Executor W} (quiet : prog.NoManual) (firm : ex.Firm)
    (step : nodeStep prog now ex = .ok (.again ex')) : ex'.Firm := by
  apply firm.step (nodeStep_path (.inr (.inr step)))
  obtain ⟨i, s, run, mid, popped, ran, -, handled⟩ := nodeStep_again prog step
  have scheduler : mid.scheduler = s := scheduler_graphCycle quiet ran
  have graph : mid.graph = ex.graph := (frame_of_run (graphCycle_run prog ran)).graph
  apply queued_handleControl handled
  intro d j member
  replace member : j ∈ mid.scheduler.queue d := member
  rw [scheduler] at member
  show ∃ fn, mid.graph.core j = _
  rw [graph]
  exact firm.queued d j ((Scheduler.pop_some firm.wf popped).mem_queue_of member)

end Executor
end Wavelet
