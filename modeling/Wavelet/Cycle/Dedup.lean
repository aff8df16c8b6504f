import Wavelet.Cycle.Books

/-!
# Scheduling by hand

`can_schedule` accepts a node once in an epoch, but `schedule_node` goes past the stamp. The
origins of a cycle say where the entries of the queues and the runs come from: the accepted
offers, which never repeat, and the accepted calls of `schedule_node`. So a node runs twice
exactly if it is scheduled by hand and once more, and a loop in which that does not happen
is over once every node has run.
-/

namespace Wavelet

/-- The index that an accepted offer puts into the queues. -/
def Event.accepted : Event → Option NodeIndex
  | .fired _ r _ _ .accepted => some r.index
  | .spread c _ .accepted => some c
  | _ => none

theorem Graph.nodeCount_eq {g : Graph} {n : Nat} (bound : g.slots.length ≤ n) :
    g.nodeCount = ((List.range n).filter fun i => (g.core i).isSome).length := by
  have padded : g.slots ++ List.replicate (n - g.slots.length) none = (List.range n).map fun i =>
      g.nodeWeight i := by
    apply List.ext_getElem
    · simp only [List.length_append, List.length_replicate, List.length_map, List.length_range]
      omega
    · intro i first second
      simp only [List.getElem_append, List.getElem_replicate, List.getElem_map, List.getElem_range,
        nodeWeight, List.getD_eq_getElem?_getD]
      split
      · rename_i inside
        simp [inside]
      · rename_i past
        simp [List.getElem?_eq_none (Nat.le_of_not_lt past)]
  have counted := congrArg (List.countP fun o => o.isSome) padded
  rw [List.countP_append, List.countP_replicate, List.countP_map,
    List.countP_eq_length_filter (l := List.range n)] at counted
  simp only [Option.isSome_none, Bool.false_eq_true, if_false, Nat.add_zero] at counted
  rw [nodeCount, counted]
  simp only [core, Option.isSome_map]
  rfl

/-- Graphs with the same nodes have the same number of them. -/
theorem Graph.Same.nodeCount {g g' : Graph} (same : g.Same g') : g'.nodeCount = g.nodeCount := by
  rw [Graph.nodeCount_eq (Nat.le_max_left g.slots.length g'.slots.length),
    Graph.nodeCount_eq (Nat.le_max_right g.slots.length g'.slots.length)]
  simp only [same.core]

namespace Executor

open Relation

variable {W : Type}

/-- The nodes that `can_schedule` let into the queues in the current cycle, newest first. -/
def accepted (ex : Executor W) : List NodeIndex :=
  (ex.trace.takeWhile fun e => e ≠ .began).filterMap Event.accepted

theorem accepted_log (ex : Executor W) {e : Event} (other : e ≠ .began) :
    (ex.log e).accepted = e.accepted.toList ++ ex.accepted := by
  unfold accepted log
  simp only [List.takeWhile_cons, ne_eq, other, not_false_eq_true, decide_true, if_true, List.filterMap_cons]
  cases e.accepted <;> rfl

theorem accepted_quiet (ex : Executor W) {e : Event} (other : e ≠ .began) (quiet : e.accepted = none) :
    (ex.log e).accepted = ex.accepted := by
  rw [accepted_log ex other, quiet]
  rfl

/-- Program code makes no offers. -/
theorem Code.accepted {ex ex' : Executor W} (step : Code ex ex') : ex'.accepted = ex.accepted := by
  cases step with
  | handle step =>
    cases step with
    | expire o k => exact (accepted_quiet _ (by simp) rfl).trans (accepted_quiet _ (by simp) rfl)
    | request t => exact accepted_quiet _ (by simp) rfl
    | register t driver => exact accepted_quiet _ (by simp) rfl
    | noted r kept => exact accepted_quiet _ (by simp) rfl
    | _ => rfl
  | refused k => exact accepted_quiet _ (by simp) rfl
  | manual k s => exact accepted_quiet ex (by simp) rfl
  | _ => rfl

theorem accepted_recordRun (run : Run) (ex : Executor W) : (ex.recordRun run).accepted = ex.accepted :=
  accepted_quiet { ex with runs := run :: ex.runs } (by simp) rfl

theorem accepted_of_code {ex ex' : Executor W} (run : CodeRun ex ex') : ex'.accepted = ex.accepted :=
  Steps.run_inv (p := fun s : Executor W => s.accepted = ex.accepted)
    (fun _ _ step same => step.accepted.trans same) run rfl

/-! ## The calls of `schedule_node` -/

variable (prog : Program W)

/-- What one effect puts into the queues. -/
def handedBy (ex : Executor W) : Effect W → List NodeIndex
  | .scheduleNode k =>
    if ex.Alive k ∧ ex.scheduler.currDepth ≤ (ex.inner k).depth then [(ex.inner k).index] else []
  | _ => []

/-- What the effects of a cycle function put into the queues, up to a panic. -/
def handed : Executor W → List (Effect W) → List NodeIndex
  | _, [] => []
  | ex, effect :: rest =>
    match ex.applyEffect prog effect with
    | some next => ex.handedBy effect ++ handed next rest
    | none => []

/-- What the cycle function of the node that the next turn runs puts into the queues. -/
def handedIn (now : CycleTime) (ex : Executor W) : List NodeIndex :=
  match ex.scheduler.pop with
  | (none, _) => []
  | (some i, scheduler) =>
    match ex.graph.nodeWeight i with
    | none => []
    | some ctx =>
      let ex := { ex with scheduler := scheduler }
      let k := ctx.cycleFn.state
      if ctx.poisoned then []
      else if ctx.cycleFn.spawned then handed prog ex (prog.cycleFn ex ⟨i, now, ex.epoch⟩ k).1
      else if ex.Alive k then
        let ex := ex.addHandle .running k
        handed prog ex (prog.cycleFn ex ⟨i, now, ex.epoch⟩ k).1
      else []

variable {prog}

theorem entries_applyEffect {ex ex' : Executor W} {effect : Effect W}
    (h : ex.applyEffect prog effect = some ex') (i : NodeIndex) :
    ex'.scheduler.entries.count i = ex.scheduler.entries.count i + (ex.handedBy effect).count i := by
  cases effect with
  | handle op =>
    cases h
    rw [scheduler_of_handleRun (handleOp_run prog ex op)]
    rfl
  | driver op =>
    rw [scheduler_driverOp h]
    rfl
  | scheduleNode k =>
    simp only [applyEffect] at h
    simp only [handedBy]
    split at h
    · rename_i held
      simp only [scheduleNode] at h
      split at h
      · rename_i s accepted
        cases h
        obtain ⟨low, bound, rfl⟩ := Scheduler.schedule_eq_ok_iff.mp accepted
        replace low : ex.scheduler.currDepth ≤ (ex.inner k).depth := low
        rw [if_pos ⟨held, low⟩]
        refine (Scheduler.enqueue_count bound _ _).trans ?_
        rw [List.count_singleton]
        simp only [beq_iff_eq]
        rfl
      · rename_i refused
        cases h
        have above : (ex.inner k).depth < ex.scheduler.currDepth :=
          Scheduler.schedule_eq_refused_iff.mp refused
        rw [if_neg (by omega)]
        rfl
      · cases h
    · rename_i dead
      cases h
      rw [if_neg (fun both => dead both.1)]
      rfl
  | spawnSubgraph captures =>
    cases h
    have clones := Steps.foldl_steps (l := captures) (fun s k _ => cloneHandle_run s (.spawn ex.tickets) k)
      { ex with deferredSpawns := ex.deferredSpawns ++ [ex.tickets], tickets := ex.tickets + 1 }
    have same := scheduler_of_handleRun clones
    exact congrArg (fun s : Scheduler => s.entries.count i) same

theorem entries_applyEffects (effects : List (Effect W)) (ex : Executor W) (i : NodeIndex) :
    (ex.applyEffects prog effects).2.scheduler.entries.count i =
      ex.scheduler.entries.count i + (handed prog ex effects).count i := by
  induction effects generalizing ex with
  | nil => rfl
  | cons effect rest ih =>
    rw [applyEffects, handed]
    cases applied : ex.applyEffect prog effect with
    | some next =>
      simp only
      rw [ih, entries_applyEffect applied, List.count_append]
      omega
    | none => rfl

theorem entries_callCycleFn {now : CycleTime} {i : NodeIndex} {fn : CycleFn} {ex ex' : Executor W}
    {v : Verdict} (h : callCycleFn prog now i fn ex = .ok (v, ex')) (j : NodeIndex) :
    ex'.scheduler.entries.count j = ex.scheduler.entries.count j +
      (handed prog ex (prog.cycleFn ex ⟨i, now, ex.epoch⟩ fn.state).1).count j := by
  obtain ⟨answer, finished, after, rfl, applied, ends⟩ := callCycleFn_ok prog h
  have effects := @entries_applyEffects _ prog (prog.cycleFn ex ⟨i, now, ex.epoch⟩ fn.state).1 ex j
  rw [applied] at effects
  rcases ends with ⟨control, -, -, -, rfl⟩ | ⟨-, rfl, -⟩
  · split
    · exact effects
    · exact effects
  · exact effects

/-- The run of a popped node adds to the entries what its cycle function schedules by hand. -/
theorem entries_graphCycle {now : CycleTime} {i : NodeIndex} {s : Scheduler} {ex ex' : Executor W} {run : Run}
    (popped : ex.scheduler.pop = (some i, s))
    (h : graphCycle prog now i { ex with scheduler := s } = .ok (run, ex'))
    (j : NodeIndex) : ex'.scheduler.entries.count j = s.entries.count j + (handedIn prog now ex).count j := by
  obtain ⟨ctx, there, -, node, poisoned | spawned | built | dead⟩ := graphCycle_cases prog h
  all_goals
    replace there : ex.graph.nodeWeight i = some ctx := there
    simp only [handedIn, popped, there]
  · rw [poisoned.2.2, if_pos poisoned.1]
    rfl
  · rw [if_neg (by simp [spawned.1]), if_pos spawned.2.1]
    exact entries_callCycleFn spawned.2.2 j
  · obtain ⟨sound, built, alive, mid, called, rfl⟩ := built
    rw [node] at alive called
    rw [if_neg (by simp [sound]), if_neg (by simp [built]), if_pos alive,
      scheduler_of_handleRun (dropHandle_run prog ..)]
    exact entries_callCycleFn called j
  · obtain ⟨sound, built, dead, -, rfl⟩ := dead
    rw [node] at dead
    rw [if_neg (by simp [sound]), if_neg (by simp [built]), if_neg dead]
    rfl

/-! ## Where entries and runs come from -/

/-- The entries and the runs of a cycle that started at rest are the accepted offers and the
accepted calls `calls` of `schedule_node`; no offer is accepted twice, because it leaves the
epoch's stamp. -/
structure Origins (calls : List NodeIndex) (ex : Executor W) : Prop where
  wf : ex.scheduler.WF
  counted : ∀ i, ex.scheduler.entries.count i + (ex.runs.map (·.index)).count i = calls.count i +
    ex.accepted.count i
  distinct : ex.accepted.Nodup
  stamped : ∀ i ∈ ex.accepted, ∀ ctx, ex.graph.nodeWeight i = some ctx → ctx.schedEpoch = ex.epoch
  live : ∀ run ∈ ex.runs, (ex.graph.core run.index).isSome

namespace Origins

variable {calls : List NodeIndex} {ex ex' : Executor W}

theorem start (rests : ex.scheduler.AtRest) : Origins [] ex.beginCycle where
  wf := rests.wf
  counted i := by
    show ex.scheduler.entries.count i + _ = _
    rw [rests.entries_nil]
    rfl
  distinct := List.nodup_nil
  stamped _ member := by cases member
  live _ member := by cases member

/-- What the origins read is left alone. -/
theorem congr (origins : Origins calls ex) (graph : ex'.graph = ex.graph) (epoch : ex'.epoch = ex.epoch)
    (scheduler : ex'.scheduler = ex.scheduler) (runs : ex'.runs = ex.runs)
    (accepted : ex'.accepted = ex.accepted) :
    Origins calls ex' := by
  obtain ⟨wf, counted, distinct, stamped, live⟩ := origins
  constructor
  · rwa [scheduler]
  · rwa [scheduler, runs, accepted]
  · rwa [accepted]
  · rwa [accepted, graph, epoch]
  · rwa [runs, graph]

theorem log (origins : Origins calls ex) {e : Event} (other : e ≠ .began) (quiet : e.accepted = none) :
    Origins calls (ex.log e) :=
  origins.congr rfl rfl rfl rfl (accepted_quiet ex other quiet)

/-- An offer and its line in the trace. -/
theorem offer {i : NodeIndex} {o : Offer} (origins : Origins calls ex)
    (h : ex.offer i = some (o, ex')) {e : Event} (other : e ≠ .began)
    (line : e.accepted = if o = .accepted then some i else none) : Origins calls (ex'.log e) := by
  have same := accepted_log ex' other
  rw [line] at same
  have before : ex'.accepted = ex.accepted := by rw [accepted, trace_offer h]; rfl
  rw [before] at same
  have graph := offer_same h
  have live : ∀ run ∈ ex'.runs, (ex'.graph.core run.index).isSome := by
    intro run member
    rw [(offer_rest h).2.2.1] at member
    rw [graph.core]
    exact origins.live run member
  rcases offer_cases h with ⟨rfl, rfl, -⟩ | ⟨_, -, -, rfl, rfl⟩ | ⟨ctx, there, -, -, rfl, rfl⟩ |
    ⟨ctx, there, unseen, low, bound, rfl, rfl⟩
  · exact origins.congr rfl rfl rfl rfl same
  · exact origins.congr rfl rfl rfl rfl same
  · refine ⟨origins.wf, ?_, ?_, ?_, live⟩
    · intro j
      rw [same]
      exact origins.counted j
    · rw [same]
      exact origins.distinct
    · intro j member w here
      rw [same] at member
      replace here : (ex.graph.setWeight i { ctx with schedEpoch := ex.epoch }).nodeWeight j = some w := here
      rw [Graph.nodeWeight_setWeight there] at here
      split at here
      · cases here
        rfl
      · exact origins.stamped j member w here
  · rw [if_pos rfl] at same
    have fresh : i ∉ ex.accepted := fun member => unseen (origins.stamped i member ctx there)
    refine ⟨origins.wf.enqueue low bound, ?_, ?_, ?_, live⟩
    · intro j
      have count := origins.counted j
      have entries := Scheduler.enqueue_count bound i j
      rw [same]
      show (ex.scheduler.enqueue i ctx.depth).entries.count j + (ex.runs.map (·.index)).count j = _
      rw [entries, List.count_append]
      simp only [Option.toList_some, List.count_singleton, beq_iff_eq]
      omega
    · rw [same]
      exact List.nodup_cons.mpr ⟨fresh, origins.distinct⟩
    · intro j member w here
      rw [same] at member
      replace here : (ex.graph.setWeight i { ctx with schedEpoch := ex.epoch }).nodeWeight j = some w := here
      rw [Graph.nodeWeight_setWeight there] at here
      split at here
      · cases here
        rfl
      · rename_i apart
        rcases List.mem_cons.mp member with same | old
        · exact absurd same apart
        · exact origins.stamped j old w here

theorem fire {source : Source} {r : Ref} (origins : Origins calls ex)
    (h : fire source ex r = .ok ex') : Origins calls ex' := by
  obtain ⟨o, mid, took, -, rfl⟩ := fire_ok h
  apply origins.offer took (by simp)
  cases o <;> rfl

theorem spread {c : NodeIndex} (origins : Origins calls ex) (h : ex.spread c = .ok ex') :
    Origins calls ex' := by
  obtain ⟨o, mid, took, rfl⟩ := spread_ok h
  apply origins.offer took (by simp)
  cases o <;> rfl

theorem markForSweep (origins : Origins calls ex) (cause : Cause) (r : Ref) :
    Origins calls (ex.markForSweep cause r) :=
  origins.congr rfl rfl rfl rfl (accepted_quiet { ex with gc := ex.gc ++ [r] } (by simp) rfl)

theorem markPoisoned {c : NodeIndex} (origins : Origins calls ex)
    (h : ex.markPoisoned c = .ok ex') : Origins calls ex' := by
  obtain ⟨ctx, there, rfl⟩ := markPoisoned_ok h
  have same := Graph.setWeight_same there { ctx with poisoned := true } rfl rfl
  have quiet : Origins calls { ex with graph := ex.graph.setWeight c { ctx with poisoned := true } } := by
    refine ⟨origins.wf, origins.counted, origins.distinct, ?_, ?_⟩
    · intro j member w here
      replace here : (ex.graph.setWeight c { ctx with poisoned := true }).nodeWeight j = some w := here
      rw [Graph.nodeWeight_setWeight there] at here
      split at here
      · rename_i here'
        subst here'
        cases here
        exact origins.stamped j member ctx there
      · exact origins.stamped j member w here
    · intro run member
      rw [same.core]
      exact origins.live run member
  exact quiet.log (by simp) rfl

theorem poll {input : CycleInput} {t : Option CycleTime} (origins : Origins calls ex)
    (h : poll input ex = .ok (t, ex')) :
    Origins calls ex' :=
  poll_inv (p := Origins calls) (fun _ _ good => good.congr rfl rfl rfl rfl rfl)
    (fun _ _ _ _ fired good => good.fire fired) h origins

theorem handleControl {run : Run} (origins : Origins calls ex)
    (h : handleControl run ex = .ok ex') : Origins calls ex' :=
  handleControl_inv (p := Origins calls) (fun _ good => good.markForSweep ..)
    (fun _ _ _ poisoned good => good.markPoisoned poisoned)
    (fun _ _ _ spreads good => good.spread spreads) h origins

/-- A pop and the run of the node it returns, up to where its control value is looked at. -/
theorem run {now : CycleTime} {i : NodeIndex} {s : Scheduler} {run : Run} (origins : Origins calls ex)
    (popped : ex.scheduler.pop = (some i, s))
    (ran : graphCycle prog now i { ex with scheduler := s } = .ok (run, ex')) :
    Origins (calls ++ handedIn prog now ex) (ex'.recordRun run) := by
  have code := graphCycle_run prog ran
  have frame := frame_of_run code
  have accepted : ex'.accepted = ex.accepted := by
    rw [accepted_of_code code]
    rfl
  have entries := entries_graphCycle popped ran
  obtain ⟨ctx, there, rfl, -, -⟩ := graphCycle_ok prog ran
  have pop := Scheduler.pop_some origins.wf popped
  have graph : ex'.graph = ex.graph := frame.graph
  have runs : ex'.runs = ex.runs := frame.runs
  have last : (ex'.recordRun run).accepted = ex.accepted := (accepted_recordRun run ex').trans accepted
  constructor
  case wf =>
    have path : Path { ex with scheduler := s } ex' := CodeRun.path code
    have left : ({ ex with scheduler := s } : Executor W).scheduler.WF := pop.wf origins.wf
    exact path.schedulerWF left
  case counted =>
    intro j
    have before := origins.counted j
    have taken := pop.count j
    have now := entries j
    rw [last, List.count_append]
    show ex'.scheduler.entries.count j + ((run :: ex'.runs).map (·.index)).count j = _
    rw [now, runs, List.map_cons, List.count_cons]
    simp only [beq_iff_eq]
    omega
  case distinct =>
    rw [last]
    exact origins.distinct
  case stamped =>
    intro j member w here
    rw [last] at member
    replace here : ex'.graph.nodeWeight j = some w := here
    rw [graph] at here
    show w.schedEpoch = ex'.epoch
    rw [frame.epoch]
    exact origins.stamped j member w here
  case live =>
    intro r member
    show (ex'.graph.core r.index).isSome
    rw [graph]
    replace member : r ∈ run :: ex'.runs := member
    rw [runs] at member
    rcases List.mem_cons.mp member with rfl | old
    · rw [Graph.core_of_nodeWeight there]
      rfl
    · exact origins.live r old

end Origins

/-! ## Turns -/

theorem accepted_handleControl {run : Run} {ex ex' : Executor W} (h : handleControl run ex = .ok ex') :
    ex.accepted <:+ ex'.accepted := by
  apply handleControl_inv (p := fun s : Executor W => ex.accepted <:+ s.accepted) _ _ _ h (List.suffix_refl _)
  · intro s kept
    rw [markForSweep, accepted_quiet _ (by simp) rfl]
    exact kept
  · intro c s s' poisoned kept
    obtain ⟨ctx, -, rfl⟩ := markPoisoned_ok poisoned
    rw [accepted_quiet _ (by simp) rfl]
    exact kept
  · intro c s s' spreads kept
    obtain ⟨o, mid, offered, rfl⟩ := spread_ok spreads
    have same : mid.accepted = s.accepted := by rw [accepted, trace_offer offered]; rfl
    rw [accepted_log _ (by simp), same]
    exact kept.trans (List.suffix_append ..)

/-- A turn that goes on makes one run, and adds the calls of its cycle function. -/
theorem Origins.again {calls : List NodeIndex} {now : CycleTime} {ex ex' : Executor W}
    (origins : Origins calls ex) (h : nodeStep prog now ex = .ok (.again ex')) :
    Origins (calls ++ handedIn prog now ex) ex' ∧ ex.accepted <:+ ex'.accepted ∧
      (∃ run, ex'.runs = run :: ex.runs) ∧
      ex.graph.Same ex'.graph := by
  obtain ⟨i, s, run, mid, popped, ran, -, handled⟩ := nodeStep_again prog h
  have steady := Steady.of_handleControl handled
  have code := graphCycle_run prog ran
  refine ⟨(origins.run popped ran).handleControl handled, ?_, ⟨run, ?_⟩, ?_⟩
  · have kept := accepted_handleControl handled
    rw [accepted_recordRun, accepted_of_code code] at kept
    exact kept
  · rw [steady.runs]
    exact congrArg (run :: ·) (frame_of_run code).runs
  · have same := (Steady.of_code code).graph
    exact same.trans steady.graph

/-- The turns of a node loop, with what the cycle functions have put into the queues by hand. -/
inductive Turned (prog : Program W) (now : CycleTime) (start : Executor W) :
    List NodeIndex → Executor W → Prop
  | start : Turned prog now start [] start
  | again {calls ex ex'} : Turned prog now start calls ex → nodeStep prog now ex = .ok (.again ex') →
      Turned prog now start (calls ++ handedIn prog now ex) ex'

theorem Turned.origins {now : CycleTime} {start ex : Executor W} {calls : List NodeIndex}
    (turned : Turned prog now start calls ex) (clean : Origins [] start) : Origins calls ex := by
  induction turned with
  | start => exact clean
  | again _ step ih => exact (ih.again step).1

theorem Turned.same {now : CycleTime} {start ex : Executor W} {calls : List NodeIndex}
    (turned : Turned prog now start calls ex) (clean : Origins [] start) : start.graph.Same ex.graph := by
  induction turned with
  | start => exact .refl _
  | again before step ih => exact ih.trans ((before.origins clean).again step).2.2.2

theorem Turns.turned {now : CycleTime} {start ex : Executor W} (turns : Turns prog now start ex) :
    ∃ calls, Turned prog now start calls ex := by
  induction turns with
  | refl => exact ⟨[], .start⟩
  | tail _ step ih =>
    obtain ⟨calls, turned⟩ := ih
    exact ⟨_, turned.again step⟩

theorem Turned.turns {now : CycleTime} {start ex : Executor W} {calls : List NodeIndex}
    (turned : Turned prog now start calls ex) :
    Turns prog now start ex := by
  induction turned with
  | start => exact .refl
  | again _ step ih => exact ih.tail step

/-- The turns of a loop that ends are on the way to its end. -/
theorem Turned.loop {now : CycleTime} {start ex last : Executor W} {calls : List NodeIndex} {exit : Exit}
    (turned : Turned prog now start calls ex) (loop : Loop prog now start exit last) :
    Loop prog now ex exit last := by
  induction turned with
  | start => exact loop
  | again _ step ih =>
    cases ih with
    | finished ends => rw [step] at ends; cases ends
    | terminated ends => rw [step] at ends; cases ends
    | again next rest =>
      rw [step] at next
      cases next
      exact rest

/-- A loop that runs out of entries has run all that was put into the queues. -/
theorem Origins.drained {calls : List NodeIndex} {now : CycleTime} {ex last : Executor W}
    (origins : Origins calls ex) (loop : Loop prog now ex .running last) (i : NodeIndex) :
    calls.count i + ex.accepted.count i ≤ (last.runs.map (·.index)).count i := by
  generalize exits : Exit.running = exit at loop
  induction loop generalizing calls with
  | finished step =>
    obtain ⟨s, popped, rfl⟩ := nodeStep_finished prog step
    have count := origins.counted i
    rw [(Scheduler.pop_none origins.wf popped).2] at count
    simp only [List.count_nil, Nat.zero_add] at count
    exact Nat.le_of_eq count.symm
  | terminated step => cases exits
  | again step _ ih =>
    obtain ⟨next, kept, -⟩ := origins.again step
    have later := ih next exits
    have more := kept.sublist.count_le i
    rw [List.count_append] at later
    omega

/-! ## Once each -/

/-- In every state of the node loop each node has run at most once, and the loop is over
after as many turns as there are nodes. -/
def RunsOnce (prog : Program W) (input : CycleInput) (ex : Executor W) : Prop :=
  (∀ ex', InCycle prog input ex ex' → (ex'.runs.map (·.index)).Nodup) ∧
    ∀ fuel, ex.graph.nodeCount < fuel → runNodes prog fuel input ex ≠ .error .outOfFuel

/-- No node that a cycle function schedules by hand is put into the queues another time in
the cycle: neither by another call, nor for an event, a broadcast or a sweep. -/
def Unrepeated (prog : Program W) (input : CycleInput) (ex : Executor W) : Prop :=
  ∀ now polled calls mid, poll input ex.beginCycle = .ok (some now, polled) →
    Turned prog now polled calls mid →
    calls.Nodup ∧ ∀ i ∈ calls, i ∉ mid.accepted

/-- The loop is not left early, by a node that terminates or by a panic. -/
def Uncut (prog : Program W) (input : CycleInput) (ex : Executor W) : Prop :=
  ∀ fuel, (∃ last, runNodes prog fuel input ex = .ok (.running, last)) ∨
    runNodes prog fuel input ex = .error .outOfFuel

theorem runs_le_nodeCount {ex : Executor W} (live : ∀ run ∈ ex.runs, (ex.graph.core run.index).isSome)
    (once : (ex.runs.map (·.index)).Nodup) : ex.runs.length ≤ ex.graph.nodeCount := by
  rw [Graph.nodeCount_eq (Nat.le_refl _), ← List.length_map (·.index)]
  apply List.Subperm.length_le
  apply List.subperm_of_subset once
  intro i member
  obtain ⟨run, ran, rfl⟩ := List.mem_map.mp member
  have there := live run ran
  obtain ⟨⟨fn, d⟩, core⟩ := Option.isSome_iff_exists.mp there
  obtain ⟨ctx, weight, -⟩ := Graph.nodeWeight_of_core core
  exact List.mem_filter.mpr ⟨List.mem_range.mpr (Graph.lt_length_of_nodeWeight weight), there⟩

/-- Turns without a repetition have run no node twice, nor left a node that has run in the
queues. -/
theorem Origins.once {calls : List NodeIndex} {ex : Executor W} (origins : Origins calls ex)
    (distinct : calls.Nodup) (apart : ∀ i ∈ calls, i ∉ ex.accepted) (i : NodeIndex) :
    ex.scheduler.entries.count i + (ex.runs.map (·.index)).count i ≤ 1 := by
  rw [origins.counted]
  have first := List.nodup_iff_count_le_one.mp distinct i
  have second := List.nodup_iff_count_le_one.mp origins.distinct i
  by_cases member : i ∈ calls
  · have none := List.count_eq_zero.mpr (apart i member)
    omega
  · have none := List.count_eq_zero.mpr member
    omega

theorem Origins.nodup {calls : List NodeIndex} {ex : Executor W} (origins : Origins calls ex)
    (distinct : calls.Nodup) (apart : ∀ i ∈ calls, i ∉ ex.accepted) : (ex.runs.map (·.index)).Nodup := by
  rw [List.nodup_iff_count_le_one]
  intro i
  have := origins.once distinct apart i
  omega

/-- The turns that are left: one for each node that has not run. -/
theorem Unrepeated.loop_ends {input : CycleInput} {ex polled mid : Executor W} {now : CycleTime}
    {calls : List NodeIndex} {fuel : Nat} (unrepeated : Unrepeated prog input ex)
    (polls : Executor.poll input ex.beginCycle = .ok (some now, polled)) (clean : Origins [] polled)
    (turned : Turned prog now polled calls mid)
    (enough : polled.graph.nodeCount < fuel + mid.runs.length) :
    nodeLoop prog now fuel mid ≠ .error .outOfFuel := by
  induction fuel generalizing mid calls with
  | zero =>
    have origins := turned.origins clean
    obtain ⟨distinct, apart⟩ := unrepeated now polled calls mid polls turned
    have bound := runs_le_nodeCount origins.live (origins.nodup distinct apart)
    rw [(turned.same clean).nodeCount] at bound
    omega
  | succ fuel ih =>
    intro fails
    rw [nodeLoop] at fails
    cases step : nodeStep prog now mid with
    | error failure =>
      rw [step] at fails
      cases fails
      rcases nodeStep_fails _ step with no | no | no <;> cases no
    | ok turn =>
      rw [step] at fails
      cases turn with
      | finished last => cases fails
      | terminated last => cases fails
      | again next =>
        obtain ⟨run, runs⟩ := ((turned.origins clean).again step).2.2.1
        refine ih (turned.again step) ?_ fails
        rw [runs, List.length_cons]
        omega

/-- An index that is put into the queues is that of a node for which `schedule_node` is called. -/
theorem mem_handed {effects : List (Effect W)} {ex : Executor W} {i : NodeIndex}
    (member : i ∈ handed prog ex effects) :
    ∃ j, .scheduleNode j ∈ effects ∧ (ex.inner j).index = i := by
  induction effects generalizing ex with
  | nil => cases member
  | cons effect rest ih =>
    rw [handed] at member
    split at member
    · rename_i next applied
      rcases List.mem_append.mp member with here | later
      · cases effect with
        | scheduleNode j =>
          refine ⟨j, List.mem_cons_self, ?_⟩
          rw [handedBy] at here
          split at here
          · exact (List.mem_singleton.mp here).symm
          · cases here
        | _ => cases here
      · obtain ⟨j, listed, index⟩ := ih later
        rw [inner_of_inners (inners_applyEffect applied)] at index
        exact ⟨j, List.mem_cons_of_mem _ listed, index⟩
    · cases member

theorem handed_eq_nil {effects : List (Effect W)} (quiet : ∀ j, Effect.scheduleNode j ∉ effects)
    (ex : Executor W) :
    handed prog ex effects = [] := by
  rw [List.eq_nil_iff_forall_not_mem]
  intro i member
  obtain ⟨j, listed, -⟩ := mem_handed member
  exact quiet j listed

/-- Without calls of `schedule_node` there is nothing to repeat. -/
theorem Turned.calls_eq_nil {now : CycleTime} {start ex : Executor W} {calls : List NodeIndex}
    (turned : Turned prog now start calls ex) (quiet : prog.NoManual) : calls = [] := by
  induction turned with
  | start => rfl
  | @again calls ex ex' _ _ ih =>
    have nothing : handedIn prog now ex = [] := by
      unfold handedIn
      split
      · rfl
      · split
        · rfl
        · simp only
          split
          · rfl
          · split
            · exact handed_eq_nil (quiet _ _ _) _
            · split
              · exact handed_eq_nil (quiet _ _ _) _
              · rfl
    rw [ih, nothing]
    rfl

/-- A cycle that starts at rest runs each node at most once, and its loop is over after as
many turns as there are nodes, if no node scheduled by hand is queued another time in it;
and only if, unless the loop is left early. -/
theorem runs_once_iff_unrepeated (prog : Program W) (input : CycleInput) (ex : Executor W)
    (rests : ex.scheduler.AtRest) :
    (Unrepeated prog input ex → RunsOnce prog input ex) ∧
      (Uncut prog input ex → RunsOnce prog input ex → Unrepeated prog input ex) := by
  constructor
  · intro unrepeated
    constructor
    · rintro ex' ⟨now, polled, polls, mid, turns, last⟩
      have clean := (Origins.start rests).poll polls
      obtain ⟨calls, turned⟩ := turns.turned
      obtain ⟨distinct, apart⟩ := unrepeated now polled calls mid polls turned
      have origins := turned.origins clean
      have once := origins.once distinct apart
      rcases last with rfl | finished | terminated
      · exact origins.nodup distinct apart
      · obtain ⟨s, -, rfl⟩ := nodeStep_finished prog finished
        exact origins.nodup distinct apart
      · obtain ⟨i, s, run, after, popped, ran, -, rfl⟩ := nodeStep_terminated prog terminated
        have runs : after.runs = mid.runs := (frame_of_run (graphCycle_run prog ran)).runs
        obtain ⟨ctx, -, rfl, -, -⟩ := graphCycle_ok prog ran
        show ((run :: after.runs).map (·.index)).Nodup
        rw [runs, List.map_cons, List.nodup_cons]
        refine ⟨fun again => ?_, origins.nodup distinct apart⟩
        -- the node that ends the loop was still queued
        have queued := (Scheduler.pop_some origins.wf popped).count run.index
        have counted := List.count_pos_iff.mpr again
        have := once run.index
        simp only [if_true] at queued
        omega
    · intro fuel enough fails
      rw [runNodes] at fails
      cases polls : poll input ex.beginCycle with
      | error failure =>
        rw [polls] at fails
        cases fails
        exact poll_fueled _ polls rfl
      | ok result =>
        rw [polls] at fails
        obtain ⟨t, polled⟩ := result
        cases t with
        | none => cases fails
        | some now =>
          refine unrepeated.loop_ends polls ((Origins.start rests).poll polls) .start ?_ fails
          have same : ex.graph.Same polled.graph := (Steady.of_poll polls).graph
          have runs : polled.runs = [] := (Steady.of_poll polls).runs
          rw [same.nodeCount, runs]
          exact enough
  · intro uncut once now polled calls mid polls turned
    have clean := (Origins.start rests).poll polls
    have origins := turned.origins clean
    obtain ⟨last, nodes⟩ : ∃ last, runNodes prog (ex.graph.nodeCount + 1) input ex = .ok (.running, last) :=
      (uncut _).resolve_right (once.2 _ (Nat.lt_succ_self _))
    have loop : Loop prog now polled .running last := by
      rcases runNodes_ok prog nodes with ⟨no, -⟩ | ⟨now', polled', polls', loop⟩
      · cases no
      · rw [polls] at polls'
        cases polls'
        exact loop
    have whole := once.1 last ⟨now, polled, polls, loop.visits⟩
    have counts : ∀ i, calls.count i + mid.accepted.count i ≤ 1 := fun i =>
      Nat.le_trans (origins.drained (turned.loop loop) i) (List.nodup_iff_count_le_one.mp whole i)
    constructor
    · rw [List.nodup_iff_count_le_one]
      intro i
      have := counts i
      omega
    · intro i member accepted
      have := counts i
      have := List.count_pos_iff.mpr member
      have := List.count_pos_iff.mpr accepted
      omega

/-- The turns of a node loop, from its first one on. -/
theorem Turned.first {now : CycleTime} {start ex : Executor W} {calls : List NodeIndex}
    (turned : Turned prog now start calls ex) :
    (calls = [] ∧ ex = start) ∨ ∃ next rest, nodeStep prog now start = .ok (.again next) ∧
      calls = handedIn prog now start ++ rest ∧ Turned prog now next rest ex := by
  induction turned with
  | start => exact .inl ⟨rfl, rfl⟩
  | @again calls ex ex' _ step ih =>
    right
    rcases ih with ⟨rfl, rfl⟩ | ⟨next, rest, first, rfl, turned⟩
    · exact ⟨ex', [], step, by simp, .start⟩
    · exact ⟨next, rest ++ handedIn prog now ex, first, by simp, turned.again step⟩

/-- Node 0 schedules node 1. -/
def nudging : Program Unit where
  cycleFn _ _ k := (if k = 0 then [.scheduleNode 1] else [], .ret .unchanged)
  onDrop _ _ := []
  spawnFn _ _ := []

def nudgingOps : List (ExecOp Unit) :=
  [.build { index := 0 }, .build { index := 1 }, .driver (.yieldNow (.node 0))]

theorem nudging_runs_once :
    ∃ ex ex', bare.execOps nudging nudgingOps = .ok ex ∧ Unrepeated nudging instantly ex ∧
      RunsOnce nudging instantly ex ∧
      cycle nudging 3 instantly ex = .ok (.running, ex') ∧ ex'.runs.map (·.index) = [1, 0] := by
  obtain ⟨ex, polled, one, two, last, ex', built, polls, first, second, third, returned,
      byFirst, bySecond, offers, offers', offers'', ran⟩ :
      ∃ ex polled one two last ex', bare.execOps nudging nudgingOps = .ok ex ∧
        poll instantly ex.beginCycle = .ok (some ⟨0, 0⟩, polled) ∧
        nodeStep nudging ⟨0, 0⟩ polled = .ok (.again one) ∧
        nodeStep nudging ⟨0, 0⟩ one = .ok (.again two) ∧ nodeStep nudging ⟨0, 0⟩ two = .ok (.finished last) ∧
        cycle nudging 3 instantly ex = .ok (.running, ex') ∧ handedIn nudging ⟨0, 0⟩ polled = [1] ∧
        handedIn nudging ⟨0, 0⟩ one = [] ∧ polled.accepted = [0] ∧ one.accepted = [0] ∧ two.accepted = [0] ∧
        ex'.runs.map (·.index) = [1, 0] :=
        ⟨_, _, _, _, _, _, rfl, rfl, rfl, rfl, rfl, rfl, rfl, rfl, rfl, rfl, rfl, rfl⟩
  have unrepeated : Unrepeated nudging instantly ex := by
    intro now start calls mid starts turned
    rw [polls] at starts
    cases starts
    -- the loop has two turns, and node 0 schedules node 1 in the first
    rcases turned.first with ⟨rfl, rfl⟩ | ⟨next, rest, step, rfl, turned⟩
    · simp
    · rw [first] at step
      cases step
      rcases turned.first with ⟨rfl, rfl⟩ | ⟨next, rest, step, rfl, turned⟩
      · simp [byFirst, offers']
      · rw [second] at step
        cases step
        rcases turned.first with ⟨rfl, rfl⟩ | ⟨next, rest, step, -, -⟩
        · simp [byFirst, bySecond, offers'']
        · rw [third] at step
          cases step
  have reached : Reachable (· = .running) ex := (Reachable.initial ..).ops built
  exact ⟨ex, ex', built, unrepeated,
    (runs_once_iff_unrepeated nudging instantly ex reached.atRest).1 unrepeated, returned, ran⟩

/-- A node that has not run yet in the cycle schedules itself. -/
def encore : Program Unit where
  cycleFn ex _ k := (if ex.runs = [] then [.scheduleNode k] else [], .ret .unchanged)
  onDrop _ _ := []
  spawnFn _ _ := []

def encoreOps : List (ExecOp Unit) := [.build { index := 0 }, .driver (.yieldNow (.node 0))]

/-- The node runs twice in one cycle. -/
theorem encore_runs_twice :
    ∃ ex ex', bare.execOps encore encoreOps = .ok ex ∧ ex.scheduler.AtRest ∧ ex.All Event.ParentsPresent ∧
      cycle encore 3 instantly ex = .ok (.running, ex') ∧ ex'.All Event.ManualPresent ∧
      ex'.runs.map (·.index) = [0, 0] ∧
      ex.graph.nodeCount = 1 ∧ cycle encore 2 instantly ex = .error .outOfFuel :=
  have built : bare.execOps encore encoreOps = .ok _ := rfl
  have reached : Reachable (· = .running) _ := (Reachable.initial ..).ops built
  ⟨_, _, built, reached.atRest, by decide, rfl, by decide, rfl, rfl, rfl⟩

end Executor
end Wavelet
