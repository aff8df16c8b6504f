import Wavelet.Cycle.Order
import Wavelet.Cycle.Tally
import Wavelet.Lib.Firsts

/-!
# Who comes first at one depth

The poll is documented to serve the yields first, then the timers, then what comes from
outside. It empties the notification queue before all of them. So at each depth the nodes
of the yields and timers run first, in their order, exactly if the notifications it takes
out do not upset that order.
-/

namespace Wavelet
namespace Executor

open Firsts

variable {W : Type}

/-! ## Who is woken -/

/-- `can_schedule` hands out depth `d` for index `i`. -/
def wakesAt (ex : Executor W) (d : Nat) (i : NodeIndex) : Bool :=
  match ex.graph.canSchedule i ex.epoch with
  | some (depth, _) => depth = d
  | none => false

/-- The nodes of depth `d` that the events wake, in the order of their first events. -/
def wokenAt (ex : Executor W) (d : Nat) (events : List Ref) : List NodeIndex :=
  ((events.map (·.index)).filter (ex.wakesAt d)).eraseDups

/-- The notifications that the next poll takes out. -/
def notified (ex : Executor W) : List Ref := ex.eventDriver.notifications.items.take ex.eventDriver.pollLimit

/-- The timers that the next poll finds expired, by deadline. -/
def expired (input : CycleInput) (ex : Executor W) : List Ref :=
  (ex.eventDriver.timerDriver.map fun timer => timer.due input.first.instant).getD []

/-- The nodes of depth `d` with an internal wake-up: those with a yield in the order of their
first yields, then those without one in the order of their deadlines. -/
def internalAt (input : CycleInput) (ex : Executor W) (d : Nat) : List NodeIndex :=
  ex.wokenAt d ex.eventDriver.yieldDriver ++
    (ex.wokenAt d (ex.expired input)).removeAll (ex.wokenAt d ex.eventDriver.yieldDriver)

theorem wakesAt_iff {ex : Executor W} {d : Nat} {i : NodeIndex} :
    ex.wakesAt d i = true ↔ ∃ ctx, ex.graph.nodeWeight i = some ctx ∧ ctx.depth = d ∧
      ctx.schedEpoch ≠ ex.epoch := by
  unfold wakesAt Graph.canSchedule
  cases ex.graph.nodeWeight i with
  | none => simp
  | some ctx =>
    by_cases seen : ctx.schedEpoch = ex.epoch
    · simp [seen]
    · simp [seen]

theorem seeds_eq (input : CycleInput) (ex : Executor W) :
    seeds input ex = ex.notified ++ (ex.eventDriver.yieldDriver ++ ex.expired input) ++ ioSeeds input ex := by
  simp [seeds, internalSeeds, notified, expired]

theorem wokenAt_seeds (input : CycleInput) (ex : Executor W) (d : Nat) :
    ex.wokenAt d (seeds input ex) =
      (((ex.notified.map (·.index)).filter (ex.wakesAt d)) ++
        (((ex.eventDriver.yieldDriver ++ ex.expired input).map (·.index)).filter (ex.wakesAt d)) ++
        (((ioSeeds input ex).map (·.index)).filter (ex.wakesAt d))).eraseDups := by
  rw [wokenAt, seeds_eq, List.map_append, List.map_append, List.filter_append, List.filter_append]

theorem internalAt_eq (input : CycleInput) (ex : Executor W) (d : Nat) :
    ex.internalAt input d = ex.wokenAt d (ex.eventDriver.yieldDriver ++ ex.expired input) := by
  unfold internalAt wokenAt
  rw [List.map_append, List.filter_append, List.eraseDups_append, eraseDups_removeAll]

/-! ## The queues after the poll -/

/-- The queues hold who was woken by the offers so far, and no one else is stamped. -/
structure Offered (begun : Executor W) (offered : List NodeIndex) (ex : Executor W) : Prop where
  queues : ∀ d, ex.scheduler.queue d = (offered.filter (begun.wakesAt d)).eraseDups
  awake : ∀ d i, ex.wakesAt d i = true ↔ begun.wakesAt d i = true ∧ i ∉ offered

namespace Offered

variable {begun ex ex' : Executor W} {offered : List NodeIndex}

theorem start (rest : ex.scheduler.AtRest) : Offered ex [] ex where
  queues d := by rw [rest.drained d]; rfl
  awake d i := by simp

theorem congr (inv : Offered begun offered ex) (graph : ex'.graph = ex.graph) (epoch : ex'.epoch = ex.epoch)
    (scheduler : ex'.scheduler = ex.scheduler) : Offered begun offered ex' := by
  constructor
  · rw [scheduler]; exact inv.queues
  · unfold wakesAt; rw [graph, epoch]; exact inv.awake

/-- An offer that wakes nobody. -/
theorem idle {i : NodeIndex} (inv : Offered begun offered ex) (asleep : ∀ d, ex.wakesAt d i = false) :
    Offered begun (offered ++ [i]) ex := by
  have known : ∀ d, begun.wakesAt d i = true → i ∈ offered := by
    intro d wakes
    by_contra unknown
    have := (inv.awake d i).mpr ⟨wakes, unknown⟩
    rw [asleep d] at this
    cases this
  constructor
  · intro d
    rw [inv.queues d, List.filter_append]
    by_cases wakes : begun.wakesAt d i = true
    · have member : i ∈ offered.filter (begun.wakesAt d) := List.mem_filter.mpr ⟨known d wakes, wakes⟩
      rw [List.filter_singleton, wakes, cond_true, concat_of_mem member]
    · simp [wakes]
  · intro d j
    rw [inv.awake d j, List.mem_append, List.mem_singleton]
    constructor
    · rintro ⟨wakes, unknown⟩
      refine ⟨wakes, ?_⟩
      rintro (member | rfl)
      · exact unknown member
      · exact unknown (known d wakes)
    · rintro ⟨wakes, unknown⟩
      exact ⟨wakes, fun member => unknown (.inl member)⟩

/-- An offer that puts its node into the queue of its depth. -/
theorem wake {i : NodeIndex} {ctx : NodeContext} (inv : Offered begun offered ex)
    (there : ex.graph.nodeWeight i = some ctx) (unseen : ctx.schedEpoch ≠ ex.epoch)
    (bound : ctx.depth < ex.scheduler.multiQueue.length) :
    Offered begun (offered ++ [i]) { ex with
      graph := ex.graph.setWeight i { ctx with schedEpoch := ex.epoch }
      scheduler := ex.scheduler.enqueue i ctx.depth } := by
  have here : ∀ d, ex.wakesAt d i = true ↔ ctx.depth = d := by
    intro d
    rw [wakesAt_iff]
    constructor
    · rintro ⟨ctx', there', depth, -⟩
      rw [there] at there'
      cases there'
      exact depth
    · intro depth
      exact ⟨ctx, there, depth, unseen⟩
  have unknown : i ∉ offered := ((inv.awake ctx.depth i).mp ((here _).mpr rfl)).2
  have before : ∀ d, begun.wakesAt d i = true ↔ ctx.depth = d := by
    intro d
    rw [← here d, inv.awake d i]
    simp [unknown]
  constructor
  · intro d
    show (ex.scheduler.enqueue i ctx.depth).queue d = _
    rw [Scheduler.enqueue_queue bound, List.filter_append]
    by_cases same : d = ctx.depth
    · subst same
      have wakes : begun.wakesAt ctx.depth i = true := (before _).mpr rfl
      have new : i ∉ offered.filter (begun.wakesAt ctx.depth) :=
        fun member => unknown (List.mem_filter.mp member).1
      rw [if_pos rfl, inv.queues, List.filter_singleton, wakes, cond_true, concat_of_not_mem new]
    · have other : ¬ begun.wakesAt d i = true := fun wakes => same ((before d).mp wakes).symm
      simp [same, other, inv.queues d]
  · intro d j
    rw [List.mem_append, List.mem_singleton, wakesAt_iff]
    show (∃ w, (ex.graph.setWeight i { ctx with schedEpoch := ex.epoch }).nodeWeight j = some w ∧
        w.depth = d ∧
      w.schedEpoch ≠ ex.epoch) ↔ _
    rw [Graph.nodeWeight_setWeight there]
    split
    · rename_i same
      constructor
      · rintro ⟨w, stamped, -, differs⟩
        cases stamped
        exact absurd rfl differs
      · rintro ⟨-, new⟩
        exact absurd (.inr same) new
    · rename_i other
      rw [← wakesAt_iff, inv.awake d j]
      simp [other]

theorem fire {source : Source} {r : Ref} (inv : Offered begun offered ex)
    (h : Executor.fire source ex r = .ok ex') (top : ex.scheduler.currDepth = 0) :
    Offered begun (offered ++ [r.index]) ex' := by
  obtain ⟨o, mid, took, -, rfl⟩ := fire_ok h
  have after : Offered begun (offered ++ [r.index]) mid := by
    rcases offer_cases took with ⟨-, rfl, vacant⟩ | ⟨ctx, there, seen, -, rfl⟩ | ⟨_, -, -, above, -⟩ |
      ⟨ctx, there, unseen, -, bound, -, rfl⟩
    · refine inv.idle fun d => Bool.eq_false_iff.mpr fun wakes => ?_
      obtain ⟨ctx, there, -⟩ := wakesAt_iff.mp wakes
      rw [vacant] at there
      cases there
    · refine inv.idle fun d => Bool.eq_false_iff.mpr fun wakes => ?_
      obtain ⟨ctx', there', -, unseen⟩ := wakesAt_iff.mp wakes
      rw [there] at there'
      cases there'
      exact unseen seen
    · omega
    · exact inv.wake there unseen bound
  exact after.congr rfl rfl rfl

theorem seeding : Seeding (Offered begun : List NodeIndex → Executor W → Prop) where
  driver _ inv := inv.congr rfl rfl rfl
  fire fired top inv := inv.fire fired top

end Offered

/-- After the poll each queue holds the nodes of its depth that the events woke, in the
order of the poll. -/
theorem queue_poll {input : CycleInput} {now : CycleTime} {ex polled : Executor W}
    (rest : ex.scheduler.AtRest) (h : poll input ex = .ok (some now, polled)) (d : Nat) :
    polled.scheduler.queue d = ex.wokenAt d (seeds input ex) := by
  have inv := Offered.seeding.poll (Offered.start rest) rest.top h
  simpa [wokenAt] using inv.queues d

/-! ## The order of the pops -/

variable (prog : Program W)

/-- The indices that the node loop pops, each with the depth of its queue. -/
def popOrder (now : CycleTime) : Nat → Executor W → List (Nat × NodeIndex)
  | 0, _ => []
  | fuel + 1, ex =>
    match ex.scheduler.pop with
    | (none, _) => []
    | (some i, s) => (s.currDepth, i) :: match nodeStep prog now ex with
      | .ok (.again ex') => popOrder now fuel ex'
      | _ => []

/-- The pops from one queue. -/
def ofDepth (d : Nat) (pops : List (Nat × NodeIndex)) : List NodeIndex :=
  (pops.filter fun p => p.1 = d).map (·.2)

/-- The pops of a cycle. -/
def cycleOrder (fuel : Nat) (input : CycleInput) (ex : Executor W) : List (Nat × NodeIndex) :=
  match poll input ex.beginCycle with
  | .ok (some now, polled) => popOrder prog now fuel polled
  | _ => []

variable {prog}

/-- A turn pops the first entry of a queue and adds to the ends. -/
theorem queue_turn {now : CycleTime} {i : NodeIndex} {s : Scheduler} {ex mid : Executor W} {run : Run}
    (wf : ex.scheduler.WF) (popped : ex.scheduler.pop = (some i, s))
    (ran : graphCycle prog now i { ex with scheduler := s } = .ok (run, mid)) (d : Nat) :
    ex.scheduler.queue d = (if s.currDepth = d then [i] else []) ++ s.queue d ∧
      s.queue d <+: mid.scheduler.queue d := by
  have pop := Scheduler.pop_some wf popped
  refine ⟨?_, queue_code (graphCycle_run prog ran) d⟩
  split
  · rename_i same
    subst same
    exact pop.first
  · rename_i other
    exact (pop.rest d (Ne.symm other)).symm

theorem ofDepth_cons (d c : Nat) (i : NodeIndex) (pops : List (Nat × NodeIndex)) :
    ofDepth d ((c, i) :: pops) = (if c = d then [i] else []) ++ ofDepth d pops := by
  unfold ofDepth
  by_cases same : c = d
  · simp [same]
  · simp [same]

/-- The pops are the runs. -/
theorem popOrder_runs {now : CycleTime} {fuel : Nat} {exit : Exit} {ex ex' : Executor W}
    (h : nodeLoop prog now fuel ex = .ok (exit, ex')) :
    ex'.runs.reverse.map (·.index) = ex.runs.reverse.map (·.index) ++
      (popOrder prog now fuel ex).map (·.2) := by
  induction fuel generalizing ex with
  | zero => cases h
  | succ fuel ih =>
    rw [nodeLoop] at h
    obtain ⟨turn, step, rest⟩ := Steps.bind_ok' h
    rw [popOrder]
    have counted : ∀ {i : NodeIndex} {s : Scheduler} {run : Run} {mid : Executor W},
        graphCycle prog now i { ex with scheduler := s } = .ok (run, mid) → run.index = i ∧
          mid.runs = ex.runs := by
      intro i s run mid ran
      obtain ⟨ctx, -, index, -⟩ := graphCycle_ok prog ran
      exact ⟨index, (Steady.of_code (graphCycle_run prog ran)).runs⟩
    cases turn with
    | finished last =>
      obtain ⟨s, popped, rfl⟩ := nodeStep_finished prog step
      cases rest
      simp [popped]
    | terminated last =>
      obtain ⟨i, s, run, mid, popped, ran, -, rfl⟩ := nodeStep_terminated prog step
      obtain ⟨index, runs⟩ := counted ran
      cases rest
      simp only [popped, step]
      show (run :: mid.runs).reverse.map (·.index) = _
      simp [index, runs]
    | again next =>
      obtain ⟨i, s, run, mid, popped, ran, -, handled⟩ := nodeStep_again prog step
      obtain ⟨index, runs⟩ := counted ran
      have grown : next.runs = run :: mid.runs := (Steady.of_handleControl handled).runs
      simp only [popped, step]
      rw [ih rest, grown]
      simp [index, runs]

/-- What is queued is popped first, each queue from its front, as far as the loop goes. -/
theorem queue_agrees {now : CycleTime} {fuel : Nat} {exit : Exit} {ex ex' : Executor W} (wf : ex.scheduler.WF)
    (h : nodeLoop prog now fuel ex = .ok (exit, ex')) (d : Nat) :
    Agree (ex.scheduler.queue d) (ofDepth d (popOrder prog now fuel ex)) ∧
      (exit = .running → ex.scheduler.queue d <+: ofDepth d (popOrder prog now fuel ex)) := by
  induction fuel generalizing ex with
  | zero => cases h
  | succ fuel ih =>
    rw [nodeLoop] at h
    obtain ⟨turn, step, rest⟩ := Steps.bind_ok' h
    rw [popOrder]
    cases turn with
    | finished last =>
      obtain ⟨s, popped, rfl⟩ := nodeStep_finished prog step
      have empty : ex.scheduler.queue d = [] := by
        have nothing := (Scheduler.pop_none wf popped).2
        exact Buckets.flatten_eq_nil_iff.mp nothing d
      rw [empty]
      exact ⟨.inl List.nil_prefix, fun _ => List.nil_prefix⟩
    | terminated last =>
      obtain ⟨i, s, run, mid, popped, ran, -, rfl⟩ := nodeStep_terminated prog step
      obtain ⟨split, -⟩ := queue_turn wf popped ran d
      cases rest
      simp only [popped, step, ofDepth_cons]
      rw [split]
      refine ⟨.inr ?_, fun running => by cases running⟩
      rw [show ofDepth d [] = [] from rfl, List.append_nil]
      exact List.prefix_append ..
    | again next =>
      obtain ⟨i, s, run, mid, popped, ran, -, handled⟩ := nodeStep_again prog step
      obtain ⟨split, kept⟩ := queue_turn wf popped ran d
      have wf' : next.scheduler.WF := Path.schedulerWF (nodeStep_path (.inr (.inr step))) wf
      have grown : s.queue d <+: next.scheduler.queue d := kept.trans (queue_handleControl handled d)
      obtain ⟨agree, all⟩ := ih wf' rest
      simp only [popped, step, ofDepth_cons]
      rw [split]
      constructor
      · have later := agree.of_prefix grown
        split
        · exact later.cons i
        · exact later
      · intro running
        exact (List.prefix_append_right_inj _).mpr (grown.trans (all running))

/-! ## Internal wake-ups first -/

/-- At every depth the notifications that the next poll takes out wake the nodes in the
order of the internal wake-ups, as far as both go. -/
def Undisputed (input : CycleInput) (ex : Executor W) : Prop :=
  ∀ d, Agree (ex.beginCycle.wokenAt d ex.notified) (ex.beginCycle.internalAt input d)

/-- At every depth the nodes with an internal wake-up run first, in their order. -/
def InternalFirst (input : CycleInput) (ex : Executor W) (pops : List (Nat × NodeIndex)) : Prop :=
  ∀ d, ex.beginCycle.internalAt input d <+: ofDepth d pops

/-- The same of a cycle that may have stopped before it ran them all. -/
def InternalFirstSoFar (input : CycleInput) (ex : Executor W) (pops : List (Nat × NodeIndex)) : Prop :=
  ∀ d, Agree (ex.beginCycle.internalAt input d) (ofDepth d pops)

theorem prefix_wokenAt_iff (input : CycleInput) (ex : Executor W) (d : Nat) :
    ex.internalAt input d <+: ex.wokenAt d (seeds input ex) ↔
      Agree (ex.wokenAt d ex.notified) (ex.internalAt input d) := by
  rw [internalAt_eq, wokenAt_seeds]
  exact prefix_eraseDups_iff

theorem wokenAt_notified (input : CycleInput) (ex : Executor W) (d : Nat) :
    ex.wokenAt d ex.notified <+: ex.wokenAt d (seeds input ex) := by
  rw [wokenAt_seeds, List.append_assoc]
  exact eraseDups_prefix_append ..

/-- A cycle that starts with the scheduler at rest runs the nodes that the events woke before
any other of their depth. Those with an internal wake-up are the first of them exactly if the
notifications do not dispute it; a cycle that terminates keeps that order as far as it goes. -/
theorem internal_first_iff {fuel : Nat} {input : CycleInput} {exit : Exit} {ex ex' : Executor W}
    (rest : ex.scheduler.AtRest) (returned : cycle prog fuel input ex = .ok (exit, ex')) :
    (cycleOrder prog fuel input ex).map (·.2) = ex'.runs.reverse.map (·.index) ∧
      (exit = .running →
        (∀ d, ex.beginCycle.wokenAt d (seeds input ex) <+: ofDepth d (cycleOrder prog fuel input ex)) ∧
          (InternalFirst input ex (cycleOrder prog fuel input ex) ↔ ex.Undisputed input)) ∧
      (ex.Undisputed input → InternalFirstSoFar input ex (cycleOrder prog fuel input ex)) := by
  have nodes : ∃ last, runNodes prog fuel input ex = .ok (exit, last) ∧ ex'.runs = last.runs := by
    rcases cycle_ok prog returned with ⟨-, ran⟩ | ⟨rfl, mid, swept, ran, sweeps, spawns⟩
    · exact ⟨ex', ran, rfl⟩
    · exact ⟨mid, ran, (runs_runSpawns spawns).trans (runs_sweepLoop sweeps)⟩
  obtain ⟨last, ran, runs⟩ := nodes
  obtain ⟨⟨t, polled⟩, polls, loop⟩ := Steps.bind_ok' ran
  have begun : ex.beginCycle.scheduler.AtRest := rest
  rw [runs]
  unfold cycleOrder
  rw [polls]
  cases t with
  | none =>
    have none : polled.runs = [] := (Steady.of_poll polls).runs
    cases loop
    refine ⟨by simp [none], ?_, fun _ d => .inr List.nil_prefix⟩
    intro running
    cases running
  | some now =>
    have wf : polled.scheduler.WF := Path.schedulerWF (poll_path polls) begun.wf
    have empty : polled.runs = [] := (Steady.of_poll polls).runs
    have order := popOrder_runs loop
    have queued := queue_poll begun polls
    refine ⟨by simpa [empty] using order.symm, ?_, ?_⟩
    · rintro rfl
      have all : ∀ d, ex.beginCycle.wokenAt d (seeds input ex) <+: ofDepth d
          (popOrder prog now fuel polled) := by
        intro d
        have := (queue_agrees wf loop d).2 rfl
        rwa [queued d] at this
      refine ⟨all, ?_, ?_⟩
      · intro first d
        exact List.prefix_or_prefix_of_prefix
          ((wokenAt_notified input ex.beginCycle d).trans (all d)) (first d)
      · intro undisputed d
        exact ((prefix_wokenAt_iff input ex.beginCycle d).mpr (undisputed d)).trans (all d)
    · intro undisputed d
      have inside := (prefix_wokenAt_iff input ex.beginCycle d).mpr (undisputed d)
      have agree := (queue_agrees wf loop d).1
      rw [queued d] at agree
      exact agree.of_prefix inside

/-- Two nodes of one depth, one notified from outside, both with a yield. -/
def rivalOps (notified : Key) (yields : List Key) : List (ExecOp Unit) :=
  [.build { index := 0 }, .build { index := 1 }, .handle (.notify (.node notified))] ++
    yields.map fun k => .driver (.yieldNow (.node k))

theorem rivals_internal_first : ∃ ex ex', bare.execOps relay (rivalOps 1 [1, 0]) = .ok ex ∧
    cycle relay 3 instantly ex = .ok (.running, ex') ∧ ex.beginCycle.internalAt instantly 0 = [1, 0] ∧
    ex.Undisputed instantly ∧ InternalFirst instantly ex (cycleOrder relay 3 instantly ex) := by
  have first : ∀ ex ex' : Executor Unit, ex.scheduler.AtRest →
      cycle relay 3 instantly ex = .ok (.running, ex') →
      ex.Undisputed instantly → InternalFirst instantly ex (cycleOrder relay 3 instantly ex) :=
    fun _ _ rest ran => ((internal_first_iff rest ran).2.1 rfl).2.mpr
  refine ⟨_, _, rfl, rfl, by decide, ?undisputed,
    first _ _ ⟨rfl, rfl, Buckets.flatten_eq_nil_iff.mp rfl⟩ rfl ?undisputed⟩
  intro d
  cases d with
  | zero => decide
  | succ d => exact .inl ⟨[], rfl⟩

/-- A notification from outside puts its node before one of the same depth that has a yield. -/
theorem notified_before_yield : ∃ ex ex', bare.execOps relay (rivalOps 0 [1]) = .ok ex ∧ ex.scheduler.AtRest ∧
    cycle relay 3 instantly ex = .ok (.running, ex') ∧ ex.beginCycle.internalAt instantly 0 = [1] ∧
    ofDepth 0 (cycleOrder relay 3 instantly ex) = [0, 1] ∧
    ¬ InternalFirst instantly ex (cycleOrder relay 3 instantly ex) := by
  refine ⟨_, _, rfl, ⟨rfl, rfl, Buckets.flatten_eq_nil_iff.mp rfl⟩, rfl, by decide, by decide, ?_⟩
  intro first
  exact absurd (first 0) (by decide)

end Executor
end Wavelet
