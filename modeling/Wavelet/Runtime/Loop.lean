import Wavelet.Runtime.Reachable

/-!
# Rules for the poll and the node loop

Induction rules: a property that every event and every change of the event driver keeps is
kept by the poll, one that marking, poisoning and scheduling keep is kept by what follows a
run. The states of a cycle are those the node loop goes through. Neither the poll nor the
loop changes which nodes there are.
-/

namespace Wavelet

/-- The ways in which a turn of the node loop fails. -/
def Failure.OfTurn (failure : Failure) : Prop :=
  failure = .missingNode ∨ failure = .indexOutOfBounds ∨ failure = .user

/-- The ways in which code that builds and registers fails. -/
def Failure.OfCode (failure : Failure) : Prop :=
  failure = .noDriver ∨ failure = .unavailable ∨ failure = .depthOverflow ∨ failure = .missingNode

namespace Executor

open Relation Steps

variable {W : Type}

/-! ## Rules -/

section QueueRule

variable {p : Executor W → Prop}
  (driver : ∀ ex (d : EventDriver), d.notifications = ex.eventDriver.notifications → p ex →
      p { ex with eventDriver := d })
  (fires : ∀ source r ex ex', fire source ex r = .ok ex' → p ex → p ex')

include driver fires

theorem drainYields_inv {l : List Ref} {ex ex' : Executor W} (h : drainYields l ex = .ok ex')
    (start : p ex) : p ex' := by
  induction l generalizing ex with
  | nil => cases h; exact start
  | cons r rest ih =>
    obtain ⟨mid, fired, later⟩ := Steps.bind_ok h
    exact ih later (fires _ _ _ _ fired (driver _ _ rfl start))

theorem expireTimers_inv {now n : Nat} {timer : TimerDriver} {ex ex' : Executor W}
    (h : expireTimers now n timer ex = .ok ex') (start : p ex) : p ex' := by
  induction n generalizing timer ex with
  | zero => cases h; exact start
  | succ n ih =>
    obtain ⟨-, rfl⟩ | ⟨source, r, rest, mid, -, -, fired, later⟩ := expireTimers_succ h
    · exact start
    · exact ih later (fires _ _ _ _ fired (driver _ _ rfl start))

end QueueRule

section PollRule

variable {p : Executor W → Prop} (driver : ∀ ex d, p ex → p { ex with eventDriver := d })
  (fires : ∀ source r ex ex', fire source ex r = .ok ex' → p ex → p ex')

include driver fires

theorem drainNotifications_inv {n : Nat} {ex ex' : Executor W}
    (h : drainNotifications n ex = .ok ex') (start : p ex) :
    p ex' := by
  induction n generalizing ex with
  | zero => cases h; exact start
  | succ n ih =>
    rw [drainNotifications] at h
    split at h
    · cases h; exact start
    · obtain ⟨mid, fired, rest⟩ := Steps.bind_ok h
      exact ih rest (fires _ _ _ _ fired (driver _ _ start))

theorem pollInternal_inv {now : Nat} {ex ex' : Executor W} (h : pollInternal now ex = .ok ex')
    (start : p ex) : p ex' := by
  obtain ⟨drained, yielded, notes, yields, timers⟩ := pollInternal_ok h
  have afterNotes := drainNotifications_inv driver fires notes start
  have afterYields := drainYields_inv (fun s d _ => driver s d) fires yields afterNotes
  unfold pollTimers at timers
  split at timers
  · cases timers; exact afterYields
  · exact expireTimers_inv (fun s d _ => driver s d) fires timers afterYields

end PollRule

theorem pollIo_inv {p : Executor W → Prop} (fires : ∀ r ex ex', fire .io ex r = .ok ex' → p ex → p ex')
    {io : IoDriver} {events : List IoEvent} {ex ex' : Executor W}
    (h : pollIo io events ex = .ok ex') (start : p ex) :
    p ex' := by
  refine Steps.foldlM_inv (fun s event s' _ handled good => ?_) h start
  split at handled
  · cases handled; exact good
  · split at handled
    · cases handled
    · exact fires _ _ _ handled good

theorem poll_inv {p : Executor W → Prop} (driver : ∀ ex d, p ex → p { ex with eventDriver := d })
    (fires : ∀ source r ex ex', fire source ex r = .ok ex' → p ex → p ex') {input : CycleInput}
    {t : Option CycleTime} {ex ex' : Executor W} (h : poll input ex = .ok (t, ex')) (start : p ex) :
      p ex' := by
  obtain ⟨mid, internal, asks⟩ := poll_ok h
  have inside := pollInternal_inv driver fires internal start
  rcases askIo_ok asks with ⟨-, rfl, -⟩ | ⟨_, -, -, rfl⟩ | ⟨_, io, events, -, -, -, polled⟩
  · exact driver _ _ inside
  · exact inside
  · exact pollIo_inv (fires _) polled (driver _ _ inside)

/-! ## How a poll fails -/

section PollFails

variable {p : Executor W → Prop} {fault : Failure → Prop}
  (driver : ∀ ex d, p ex → p { ex with eventDriver := d })
  (fires : ∀ source r ex ex', fire source ex r = .ok ex' → p ex → p ex')
  (fails : ∀ source r ex, p ex → Fails fault (fire source ex r))

include driver fires fails

theorem drainNotifications_fails {n : Nat} {ex : Executor W} (start : p ex) :
    Fails fault (drainNotifications n ex) := by
  induction n generalizing ex with
  | zero => exact .ok _
  | succ n ih =>
    rw [drainNotifications]
    split
    · exact .ok _
    · exact .bind (fails _ _ _ (driver _ _ start)) fun mid fired =>
        ih (fires _ _ _ _ fired (driver _ _ start))

theorem drainYields_fails {l : List Ref} {ex : Executor W} (start : p ex) :
    Fails fault (drainYields l ex) := by
  induction l generalizing ex with
  | nil => exact .ok _
  | cons r rest ih =>
    exact .bind (fails _ _ _ (driver _ _ start)) fun mid fired => ih (fires _ _ _ _ fired (driver _ _ start))

theorem expireTimers_fails {now n : Nat} {timer : TimerDriver} {ex : Executor W} (start : p ex) :
    Fails fault (expireTimers now n timer ex) := by
  induction n generalizing timer ex with
  | zero => exact .ok _
  | succ n ih =>
    rw [expireTimers]
    split
    · exact .ok _
    · simp only
      split
      · exact .bind (fails _ _ _ (driver _ _ start)) fun mid fired =>
          ih (fires _ _ _ _ fired (driver _ _ start))
      · exact .ok _

theorem pollInternal_fails {now : Nat} {ex : Executor W} (start : p ex) :
    Fails fault (pollInternal now ex) := by
  refine .bind (drainNotifications_fails driver fires fails start) fun drained notes => ?_
  have afterNotes := drainNotifications_inv driver fires notes start
  refine .bind (drainYields_fails driver fires fails afterNotes) fun yielded yields => ?_
  have afterYields := drainYields_inv (fun s d _ => driver s d) fires yields afterNotes
  unfold pollTimers
  split
  · exact .ok _
  · exact expireTimers_fails driver fires fails afterYields

/-- The rule for the failures of a poll: those of an event that fires, and an event of a
source that is not registered. -/
theorem poll_fails (token : fault .missingToken) {input : CycleInput} {ex : Executor W} (start : p ex) :
    Fails fault (poll input ex) := by
  refine .bind (pollInternal_fails driver fires fails start) fun mid internal => ?_
  have inside := pollInternal_inv driver fires internal start
  unfold askIo
  split
  · exact .ok _
  · exact .ok _
  · refine .map _ (Fails.foldlM (q := p) (fun s event _ good => ?_)
        (fun s event s' _ good handled => ?_) (driver _ _ inside))
    · split
      · exact .ok _
      · split
        · exact .error token
        · exact fails _ _ _ good
    · split at handled
      · cases handled; exact good
      · split at handled
        · cases handled
        · exact fires _ _ _ _ handled good

end PollFails

theorem fire_fails {source : Source} {r : Ref} {ex : Executor W} :
    Fails (fun f => f = .indexOutOfBounds ∨ f = .expectNotification ∨ f = .unwrapIo) (fire source ex r) := by
  unfold fire
  split
  · exact .error (.inl rfl)
  · rename_i o mid offered
    cases o with
    | refused =>
      cases source with
      | notification => exact .error (.inr (.inl rfl))
      | io => exact .error (.inr (.inr rfl))
      | yield | timer => exact .ok _
    | _ => exact .ok _

/-- A poll never runs out of fuel. -/
theorem poll_fueled {input : CycleInput} {ex : Executor W} :
    Fails (fun f => f ≠ .outOfFuel) (poll input ex) := by
  refine poll_fails (p := fun _ => True) (fun _ _ _ => trivial) (fun _ _ _ _ _ _ => trivial)
    (fun source r ex _ => ?_)
    (by decide) trivial
  refine .mono ?_ fire_fails
  rintro f (rfl | rfl | rfl) <;> decide

/-- The rule for what follows a run. -/
theorem handleControl_inv {p : Executor W → Prop} {run : Run}
    (mark : ∀ ex, p ex → p (ex.markForSweep .swept ⟨run.index, some run.node⟩))
    (poison : ∀ i ex ex', markPoisoned ex i = .ok ex' → p ex → p ex')
    (spreads : ∀ c ex ex', spread ex c = .ok ex' → p ex → p ex') {ex ex' : Executor W}
    (h : handleControl run ex = .ok ex') (start : p ex) : p ex' := by
  unfold handleControl at h
  split at h
  · exact Steps.foldlM_inv (fun s c s' _ spreading => spreads c s s' spreading) h start
  · refine Steps.foldlM_inv (fun s c s' _ both good => ?_) h (mark _ start)
    obtain ⟨mid, poisoned, spreading⟩ := Steps.bind_ok both
    exact spreads c mid s' spreading (poison c s mid poisoned good)
  · cases h; exact start
  · cases h; exact start

/-! ## What an offer leaves alone -/

theorem offer_rest {ex ex' : Executor W} {i : NodeIndex} {o : Offer} (h : ex.offer i = some (o, ex')) :
    ex'.scheduler.currDepth = ex.scheduler.currDepth ∧
      ex'.scheduler.multiQueue.length = ex.scheduler.multiQueue.length ∧ ex'.runs = ex.runs ∧
      ex'.epoch = ex.epoch := by
  rcases offer_cases h with ⟨-, rfl, -⟩ | ⟨_, -, -, -, rfl⟩ | ⟨_, -, -, -, -, rfl⟩ | ⟨_, -, -, -, -, -, rfl⟩
  · exact ⟨rfl, rfl, rfl, rfl⟩
  · exact ⟨rfl, rfl, rfl, rfl⟩
  · exact ⟨rfl, rfl, rfl, rfl⟩
  · exact ⟨rfl, Scheduler.enqueue_length .., rfl, rfl⟩

/-- An offer, program code and what follows a run only add to the ends of the queues. -/
theorem queue_enqueue {s : Scheduler} {d : Nat} (bound : d < s.multiQueue.length) (i : NodeIndex) (e : Nat) :
    s.queue e <+: (s.enqueue i d).queue e := by
  rw [Scheduler.enqueue_queue bound]
  split
  · rename_i same
    subst same
    exact List.prefix_append ..
  · exact List.prefix_refl _

theorem queue_offer {ex ex' : Executor W} {i : NodeIndex} {o : Offer}
    (h : ex.offer i = some (o, ex')) (d : Nat) :
    ex.scheduler.queue d <+: ex'.scheduler.queue d := by
  rcases offer_cases h with ⟨-, rfl, -⟩ | ⟨_, -, -, -, rfl⟩ | ⟨_, -, -, -, -, rfl⟩ |
    ⟨_, -, -, -, bound, -, rfl⟩
  · exact List.prefix_refl _
  · exact List.prefix_refl _
  · exact List.prefix_refl _
  · exact queue_enqueue bound ..

theorem queue_code {ex ex' : Executor W} (run : CodeRun ex ex') (d : Nat) :
    ex.scheduler.queue d <+: ex'.scheduler.queue d := by
  refine Steps.run_inv (p := fun s : Executor W => ex.scheduler.queue d <+: s.scheduler.queue d)
    (fun s s' step grown => ?_)
    run (List.prefix_refl _)
  cases step with
  | handle step => rwa [scheduler_of_handleRun (.single step)]
  | manual k s held accepted =>
    obtain ⟨-, bound, rfl⟩ := Scheduler.schedule_eq_ok_iff.mp accepted
    exact grown.trans (queue_enqueue bound ..)
  | _ => exact grown

theorem queue_handleControl {run : Run} {ex ex' : Executor W} (h : handleControl run ex = .ok ex') (d : Nat) :
    ex.scheduler.queue d <+: ex'.scheduler.queue d := by
  apply handleControl_inv (p := fun s : Executor W => ex.scheduler.queue d <+: s.scheduler.queue d) _ _ _ h
    (List.prefix_refl _)
  · intro s grown
    exact grown
  · intro i s s' poisoned grown
    obtain ⟨ctx, -, rfl⟩ := markPoisoned_ok poisoned
    exact grown
  · intro c s s' spreads grown
    obtain ⟨o, mid, offered, rfl⟩ := spread_ok spreads
    exact grown.trans (queue_offer offered d)

theorem mem_entries_of_queues {s s' : Scheduler} {i : NodeIndex}
    (grown : ∀ d, s.queue d <+: s'.queue d) (queued : i ∈ s.entries) :
    i ∈ s'.entries := by
  obtain ⟨d, member⟩ := Scheduler.mem_entries_iff.mp queued
  exact Scheduler.mem_entries_iff.mpr ⟨d, (grown d).subset member⟩

theorem mem_entries_offer {ex ex' : Executor W} {i j : NodeIndex} {o : Offer} (h : ex.offer j = some (o, ex'))
    (queued : i ∈ ex.scheduler.entries) : i ∈ ex'.scheduler.entries :=
  mem_entries_of_queues (queue_offer h) queued

theorem mem_entries_code {ex ex' : Executor W} {i : NodeIndex} (run : CodeRun ex ex')
    (queued : i ∈ ex.scheduler.entries) :
    i ∈ ex'.scheduler.entries := mem_entries_of_queues (queue_code run) queued

/-- The parts of the state that scheduling leaves alone. -/
structure Steady (ex ex' : Executor W) : Prop where
  graph : ex.graph.Same ex'.graph
  currDepth : ex'.scheduler.currDepth = ex.scheduler.currDepth
  queues : ex'.scheduler.multiQueue.length = ex.scheduler.multiQueue.length
  runs : ex'.runs = ex.runs
  epoch : ex'.epoch = ex.epoch

namespace Steady

theorem refl (ex : Executor W) : Steady ex ex := ⟨.refl _, rfl, rfl, rfl, rfl⟩

theorem trans {a b c : Executor W} (first : Steady a b) (second : Steady b c) : Steady a c where
  graph := first.graph.trans second.graph
  currDepth := second.currDepth.trans first.currDepth
  queues := second.queues.trans first.queues
  runs := second.runs.trans first.runs
  epoch := second.epoch.trans first.epoch

theorem of_fire {source : Source} {r : Ref} {ex ex' : Executor W} (h : fire source ex r = .ok ex') :
    Steady ex ex' := by
  obtain ⟨o, mid, offered, -, rfl⟩ := fire_ok h
  obtain ⟨depth, queues, runs, epoch⟩ := offer_rest offered
  exact ⟨(offer_same offered : ex.graph.Same mid.graph), depth, queues, runs, epoch⟩

theorem of_spread {c : NodeIndex} {ex ex' : Executor W} (h : ex.spread c = .ok ex') : Steady ex ex' := by
  obtain ⟨o, mid, offered, rfl⟩ := spread_ok h
  obtain ⟨depth, queues, runs, epoch⟩ := offer_rest offered
  exact ⟨(offer_same offered : ex.graph.Same mid.graph), depth, queues, runs, epoch⟩

theorem of_markPoisoned {i : NodeIndex} {ex ex' : Executor W} (h : ex.markPoisoned i = .ok ex') :
    Steady ex ex' := by
  obtain ⟨ctx, there, rfl⟩ := markPoisoned_ok h
  exact ⟨Graph.setWeight_same there _ rfl rfl, rfl, rfl, rfl, rfl⟩

theorem of_poll {input : CycleInput} {t : Option CycleTime} {ex ex' : Executor W}
    (h : poll input ex = .ok (t, ex')) :
    Steady ex ex' :=
  poll_inv (p := Steady ex) (fun _ _ steady => steady.trans ⟨.refl _, rfl, rfl, rfl, rfl⟩)
    (fun _ _ _ _ fired steady => steady.trans (of_fire fired)) h (refl ex)

theorem of_handleControl {run : Run} {ex ex' : Executor W} (h : handleControl run ex = .ok ex') :
    Steady ex ex' :=
  handleControl_inv (p := Steady ex) (fun _ steady => steady.trans ⟨.refl _, rfl, rfl, rfl, rfl⟩)
    (fun _ _ _ poisoned steady => steady.trans (of_markPoisoned poisoned))
    (fun _ _ _ spreading steady => steady.trans (of_spread spreading)) h (refl ex)

theorem of_code {ex ex' : Executor W} (run : CodeRun ex ex') : Steady ex ex' := by
  induction run with
  | refl => exact .refl ex
  | tail _ last ih =>
    have frame := last.frame
    refine ih.trans ⟨by rw [frame.graph]; exact .refl _, ?_, last.queues, frame.runs, frame.epoch⟩
    cases last with
    | handle step => rw [scheduler_of_handleRun (.single step)]
    | manual k s held accepted =>
      obtain ⟨-, -, rfl⟩ := Scheduler.schedule_eq_ok_iff.mp accepted
      rfl
    | _ => rfl

end Steady

/-! ## The states of a cycle -/

variable (prog : Program W)

/-- Turns of the node loop that go on. -/
def Turns (now : CycleTime) : Executor W → Executor W → Prop :=
  ReflTransGen fun ex ex' => nodeStep prog now ex = .ok (.again ex')

/-- The states the node loop goes through, the one it ends in included. -/
def Visits (now : CycleTime) (start ex' : Executor W) : Prop :=
  ∃ mid, Turns prog now start mid ∧
    (ex' = mid ∨ nodeStep prog now mid = .ok (.finished ex') ∨ nodeStep prog now mid = .ok (.terminated ex'))

/-- A state of the node loop of the cycle that starts in `ex`. -/
def InCycle (input : CycleInput) (ex ex' : Executor W) : Prop :=
  ∃ now polled, poll input ex.beginCycle = .ok (some now, polled) ∧ Visits prog now polled ex'

variable {prog}

theorem Loop.visits {now : CycleTime} {exit : Exit} {ex ex' : Executor W} (h : Loop prog now ex exit ex') :
    Visits prog now ex ex' := by
  induction h with
  | finished step => exact ⟨_, .refl, .inr (.inl step)⟩
  | terminated step => exact ⟨_, .refl, .inr (.inr step)⟩
  | again step _ ih =>
    obtain ⟨mid, turns, last⟩ := ih
    exact ⟨mid, .head step turns, last⟩

theorem Turns.path {now : CycleTime} {ex ex' : Executor W} (h : Turns prog now ex ex') : Path ex ex' := by
  induction h with
  | refl => exact .refl
  | tail _ step ih => exact ih.trans (nodeStep_path (.inr (.inr step)))

theorem Visits.path {now : CycleTime} {ex ex' : Executor W} (h : Visits prog now ex ex') : Path ex ex' := by
  obtain ⟨mid, turns, last⟩ := h
  rcases last with rfl | finished | terminated
  · exact Turns.path turns
  · exact (Turns.path turns).trans (nodeStep_path (.inl finished))
  · exact (Turns.path turns).trans (nodeStep_path (.inr (.inl terminated)))

/-- Handles, sweeps and spawns make no run. -/
theorem runs_of_handleRun {ex ex' : Executor W} (run : HandleRun ex ex') : ex'.runs = ex.runs :=
  (frame_of_run run.code).runs

theorem runs_sweepLoop {fuel : Nat} {ex ex' : Executor W} (h : sweepLoop prog fuel ex = .ok ex') :
    ex'.runs = ex.runs := by
  induction fuel generalizing ex with
  | zero => cases h
  | succ fuel ih =>
    rw [sweepLoop] at h
    split at h
    · cases h; rfl
    · rename_i r rest front
      rw [ih h]
      unfold removeNode
      split
      · rfl
      · rw [runs_of_handleRun (dropOwner_run ..), runs_of_handleRun (dropOwner_run ..)]; rfl

theorem runs_execOp {op : ExecOp W} {ex ex' : Executor W} (h : ex.execOp prog op = .ok ex') :
    ex'.runs = ex.runs := by
  cases op with
  | handle op => cases h; exact runs_of_handleRun (handleOp_run prog ex op)
  | driver op =>
    simp only [execOp] at h
    split at h
    · rename_i next applied
      cases h
      exact (frame_of_run (driverOp_run applied)).runs
    · cases h
  | build args =>
    obtain ⟨depth, graph, handles, -, -, -, rfl, -⟩ := build_ok h
    rfl

theorem runs_runSpawns {tickets : List Nat} {ex ex' : Executor W} (h : runSpawns prog tickets ex = .ok ex') :
    ex'.runs = ex.runs := by
  induction tickets generalizing ex with
  | nil => cases h; rfl
  | cons ticket rest ih =>
    obtain ⟨mid, spawned, later⟩ := Steps.bind_ok h
    obtain ⟨built, ops, rfl⟩ := Steps.map_ok spawned
    rw [ih later, runs_of_handleRun (dropOwner_run prog built (.spawn ticket))]
    exact Steps.foldlM_inv (p := fun s : Executor W => s.runs = ex.runs)
      (fun _ _ _ _ applied same => (runs_execOp applied).trans same) ops rfl

/-- The runs of a cycle are those of its node loop. -/
theorem runs_of_cycle {fuel : Nat} {input : CycleInput} {exit : Exit} {ex ex' : Executor W}
    (wf : ex.scheduler.WF) (h : cycle prog fuel input ex = .ok (exit, ex')) :
    (exit = .err ∧ ex'.runs = []) ∨ ∃ last, InCycle prog input ex last ∧ Path last ex' ∧
      ex'.runs = last.runs := by
  have nodes : ∀ {exit : Exit} {last : Executor W}, runNodes prog fuel input ex = .ok (exit, last) →
      (exit = .err ∧ last.runs = []) ∨ InCycle prog input ex last := by
    intro exit last ran
    rcases runNodes_ok prog ran with ⟨failed, polls⟩ | ⟨now, polled, polls, loop⟩
    · exact .inl ⟨failed, (Steady.of_poll polls).runs⟩
    · exact .inr ⟨now, polled, polls, loop.visits⟩
  rcases cycle_ok prog h with ⟨-, ran⟩ | ⟨-, mid, swept, ran, sweeps, spawns⟩
  · rcases nodes ran with failed | inside
    · exact .inl failed
    · exact .inr ⟨ex', inside, .refl, rfl⟩
  · rcases nodes ran with ⟨no, -⟩ | inside
    · cases no
    · have path := (sweepLoop_path prog (runNodes_atRest prog wf ran) sweeps).1
      exact .inr ⟨mid, inside, path.trans (runSpawns_path prog spawns),
        (runs_runSpawns spawns).trans (runs_sweepLoop sweeps)⟩

/-! ## How a turn fails -/

theorem callCycleFn_fails {now : CycleTime} {i : NodeIndex} {fn : CycleFn} {ex : Executor W} :
    Fails (· = .user) (callCycleFn prog now i fn ex) := by
  unfold callCycleFn
  simp only
  split
  · exact .ok _
  · split
    · exact .error rfl
    · exact .ok _

/-- A closure fails only with a panic that its node lets through. -/
theorem callClosure_fails {now : CycleTime} {i : NodeIndex} {fn : CycleFn} {ex : Executor W} :
    Fails (· = .user) (callClosure prog now i fn ex) := by
  unfold callClosure
  split
  · exact callCycleFn_fails
  · split
    · exact .map _ callCycleFn_fails
    · exact .ok _

theorem graphCycle_fails {now : CycleTime} {i : NodeIndex} {ex : Executor W} :
    Fails (fun failure => failure = .user ∨ failure = .missingNode ∧ ex.graph.nodeWeight i = none)
      (graphCycle prog now i ex) := by
  unfold graphCycle
  split
  · rename_i missing
    exact .error (.inr ⟨rfl, missing⟩)
  · split
    · exact .ok _
    · exact .map _ (callClosure_fails.mono fun _ => .inl)

theorem spread_fails {c : NodeIndex} {ex : Executor W} : Fails Failure.OfTurn (ex.spread c) := by
  unfold spread
  split
  · exact .error (.inr (.inl rfl))
  · exact .ok _

theorem handleControl_fails {run : Run} {ex : Executor W} : Fails Failure.OfTurn (handleControl run ex) := by
  unfold handleControl
  split
  · exact .foldlM (q := fun _ => True) (fun _ _ _ _ => spread_fails) (fun _ _ _ _ _ _ => trivial) trivial
  · refine .foldlM (q := fun _ => True) (fun s c _ _ => .bind ?_ fun _ _ => spread_fails)
      (fun _ _ _ _ _ _ => trivial) trivial
    unfold markPoisoned
    split
    · exact .ok _
    · exact .error (.inl rfl)
  · exact .ok _
  · exact .ok _

theorem nodeStep_fails {now : CycleTime} {ex : Executor W} : Fails Failure.OfTurn (nodeStep prog now ex) := by
  unfold nodeStep
  split
  · exact .ok _
  · refine .bind (graphCycle_fails.mono ?_) fun ⟨run, mid⟩ _ => ?_
    · rintro failure (user | ⟨missing, -⟩)
      · exact .inr (.inr user)
      · exact .inl missing
    · simp only
      split
      · exact .ok _
      · exact .bind handleControl_fails fun _ _ => .ok _

theorem execOp_fails {op : ExecOp W} {ex : Executor W} : Fails Failure.OfCode (ex.execOp prog op) := by
  cases op with
  | handle op => exact .ok _
  | driver op =>
    simp only [execOp]
    split
    · exact .ok _
    · exact .error (.inl rfl)
  | build args =>
    simp only [execOp, build]
    split
    · exact .error (.inr (.inl rfl))
    · split
      · exact .error (.inr (.inr (.inl rfl)))
      · split
        · exact .error (.inr (.inr (.inr rfl)))
        · exact .ok _

theorem runSpawns_fails {tickets : List Nat} {ex : Executor W} :
    Fails Failure.OfCode (runSpawns prog tickets ex) := by
  induction tickets generalizing ex with
  | nil => exact .ok _
  | cons ticket rest ih =>
    refine .bind (.map _ ?_) fun _ _ => ih
    exact .foldlM (q := fun _ => True) (fun _ _ _ _ => execOp_fails) (fun _ _ _ _ _ _ => trivial) trivial

end Executor
end Wavelet
