import Wavelet.Runtime.Code

/-!
# The executor as a transition system

`Micro` lists the small steps of the executor around program code: starting a cycle, an
event that fires, a pop of the scheduler, a run, a mark, poison, a child that is scheduled,
a removal, a build. Every function of the executor is a run of these steps, so what each
step keeps holds of every state the executor goes through.
-/

namespace Wavelet
namespace Executor

open Relation

variable {W : Type}

/-- The drain of the notifications takes its entry off the front of the queue, the other
sources leave the queue alone. -/
def Takes (source : Source) (r : Ref) (before after : EventDriver) : Prop :=
  match source with
  | .notification => before.notifications.items = r :: after.notifications.items
  | _ => after.notifications = before.notifications

/-- One small step. A removal needs the scheduler at rest, which is how the sweep loop
finds it. -/
inductive Micro : Executor W → Executor W → Prop
  | code {ex ex'} : Code ex ex' → Micro ex ex'
  | begin {ex} : Micro ex ex.beginCycle
  | fire (source driver r) {ex ex'} : r ∈ ex.eventDriver.refs → (∀ s ∈ driver.refs, s ∈ ex.eventDriver.refs) →
      Takes source r ex.eventDriver driver → fire source { ex with eventDriver := driver } r =
      .ok ex' → Micro ex ex'
  | pop (o s) {ex} : ex.scheduler.pop = (o, s) → Micro ex { ex with scheduler := s }
  | ran (run : Run) {ex} : ex.keyAt run.index = some run.node → Micro ex (ex.recordRun run)
  | terminated {ex} : Micro ex (ex.log .terminated)
  | mark (run : Run) {ex} : ex.keyAt run.index = some run.node → run.Swept → .ran run ∈ ex.trace →
      Micro ex (ex.markForSweep .swept ⟨run.index, some run.node⟩)
  | poison (i) {ex ex'} : ex.markPoisoned i = .ok ex' → Micro ex ex'
  | spread (child) {ex ex'} : ex.spread child = .ok ex' → Micro ex ex'
  | discard (r rest) {ex} : ex.gc = r :: rest → ex.keyAt r.index = none → Micro ex { ex with gc := rest }
  | remove (r rest k) {ex} : ex.gc = r :: rest → ex.keyAt r.index = some k → ex.scheduler.AtRest →
      Micro ex (log { ex with gc := rest, graph := ex.graph.removeNode r.index } (.removed k))
  | build (args : BuildArgs) (depth graph) {ex} : ex.graph.nodeWeight args.index = none →
      childDepth (ex.parents args) = some depth →
      addEdges args.index (ex.graph.addNode args.index
        (.new ⟨ex.inners.length, args.spawned, args.allowPanic⟩ depth))
        (args.order.order (ex.parents args)) = some graph →
      Micro ex (ex.insertNode args depth graph)

/-- A run of the executor in small steps. -/
abbrev Path : Executor W → Executor W → Prop := ReflTransGen Micro

theorem CodeRun.path {ex ex' : Executor W} (run : CodeRun ex ex') : Path ex ex' :=
  ReflTransGen.mono (fun _ _ => Micro.code) _ _ run

/-! ## What `offer` does -/

/-- An offer that does not panic stamps the node and queues it, or changes nothing. -/
theorem offer_cases {ex ex' : Executor W} {i : NodeIndex} {o : Offer} (h : ex.offer i = some (o, ex')) :
    (o = .vacant ∧ ex' = ex ∧ ex.graph.nodeWeight i = none) ∨
    (∃ ctx, ex.graph.nodeWeight i = some ctx ∧ ctx.schedEpoch = ex.epoch ∧ o = .stamped ∧ ex' = ex) ∨
    (∃ ctx, ex.graph.nodeWeight i = some ctx ∧ ctx.schedEpoch ≠ ex.epoch ∧
      ctx.depth < ex.scheduler.currDepth ∧
      o = .refused ∧ ex' = { ex with graph := ex.graph.setWeight i { ctx with schedEpoch := ex.epoch } }) ∨
    (∃ ctx, ex.graph.nodeWeight i = some ctx ∧ ctx.schedEpoch ≠ ex.epoch ∧
      ex.scheduler.currDepth ≤ ctx.depth ∧
      ctx.depth < ex.scheduler.multiQueue.length ∧ o = .accepted ∧
      ex' = { ex with
        graph := ex.graph.setWeight i { ctx with schedEpoch := ex.epoch }
        scheduler := ex.scheduler.enqueue i ctx.depth }) := by
  unfold offer at h
  split at h
  · rename_i unschedulable
    simp only [Option.some.injEq, Prod.mk.injEq] at h
    obtain ⟨rfl, rfl⟩ := h
    cases there : ex.graph.nodeWeight i with
    | none => exact .inl ⟨by simp, rfl, rfl⟩
    | some ctx =>
      exact .inr (.inl ⟨ctx, rfl, Graph.canSchedule_eq_none_iff.mp unschedulable ctx there, by simp, rfl⟩)
  · rename_i depth graph schedulable
    obtain ⟨ctx, there, fresh, rfl, rfl⟩ := Graph.canSchedule_eq_some_iff.mp schedulable
    split at h
    · rename_i s accepted
      obtain ⟨low, bound, rfl⟩ := Scheduler.schedule_eq_ok_iff.mp accepted
      simp only [Option.some.injEq, Prod.mk.injEq] at h
      obtain ⟨rfl, rfl⟩ := h
      exact .inr (.inr (.inr ⟨ctx, there, fresh, low, bound, rfl, rfl⟩))
    · rename_i refused
      simp only [Option.some.injEq, Prod.mk.injEq] at h
      obtain ⟨rfl, rfl⟩ := h
      exact .inr (.inr (.inl ⟨ctx, there, fresh, Scheduler.schedule_eq_refused_iff.mp refused, rfl, rfl⟩))
    · cases h

/-- An event that fires is an offer and a line of the trace. -/
theorem fire_ok {source : Source} {ex ex' : Executor W} {r : Ref} (h : fire source ex r = .ok ex') :
    ∃ o mid, ex.offer r.index = some (o, mid) ∧ (o = .refused → source.onRefusal = none) ∧
      ex' = mid.log (.fired source r (ex.keyAt r.index) (decide (r.index ∈ ex.scheduler.entries)) o) := by
  unfold fire at h
  split at h
  · cases h
  · rename_i o mid offered
    split at h
    · cases h
    · rename_i allowed
      cases h
      refine ⟨_, mid, offered, fun refused => ?_, rfl⟩
      cases panics : source.onRefusal with
      | none => rfl
      | some failure => exact absurd panics (allowed failure refused)

theorem spread_ok {ex ex' : Executor W} {c : NodeIndex} (h : ex.spread c = .ok ex') :
    ∃ o mid, ex.offer c = some (o, mid) ∧
      ex' = mid.log (.spread c (decide (c ∈ ex.scheduler.entries)) o) := by
  unfold spread at h
  split at h
  · cases h
  · rename_i o mid offered
    cases h
    exact ⟨o, mid, offered, rfl⟩

theorem markPoisoned_ok {ex ex' : Executor W} {i : NodeIndex} (h : ex.markPoisoned i = .ok ex') :
    ∃ ctx, ex.graph.nodeWeight i = some ctx ∧
      ex' = log { ex with graph := ex.graph.setWeight i { ctx with poisoned := true } }
        (.poisoned ctx.cycleFn.state) := by
  unfold markPoisoned at h
  split at h
  · rename_i ctx graph there poisoned
    cases h
    simp only [Graph.markPoisoned, there, Option.map_some, Option.some.injEq] at poisoned
    exact ⟨ctx, there, by rw [poisoned]⟩
  · cases h

/-! ## Polling -/

theorem drainNotifications_path {n : Nat} {ex ex' : Executor W}
    (h : drainNotifications n ex = .ok ex') : Path ex ex' := by
  induction n generalizing ex with
  | zero => cases h; exact .refl
  | succ n ih =>
    rw [drainNotifications] at h
    split at h
    · cases h; exact .refl
    · rename_i r queue popped
      obtain ⟨items, -⟩ := BoundedQueue.pop_eq_some_iff.mp popped
      obtain ⟨mid, fired, rest⟩ := Steps.bind_ok h
      refine .head (.fire .notification { ex.eventDriver with notifications := queue } r ?_
          (fun s member => ?_) items fired) (ih rest)
      · rw [EventDriver.mem_refs_iff, items]
        exact .inr (.inl List.mem_cons_self)
      · rw [EventDriver.mem_refs_iff] at member ⊢
        rw [items]
        rcases member with yields | notes | rest
        · exact .inl yields
        · exact .inr (.inl (List.mem_cons_of_mem _ notes))
        · exact .inr (.inr rest)

theorem eventDriver_fire {source : Source} {ex ex' : Executor W} {r : Ref} (h : fire source ex r = .ok ex') :
    ex'.eventDriver = ex.eventDriver := by
  obtain ⟨o, offered, took, -, rfl⟩ := fire_ok h
  rcases offer_cases took with ⟨-, rfl, -⟩ | ⟨_, -, -, -, rfl⟩ | ⟨_, -, -, -, -, rfl⟩ |
    ⟨_, -, -, -, -, -, rfl⟩ <;> rfl

theorem drainYields_path {l : List Ref} {ex ex' : Executor W} (start : ex.eventDriver.yieldDriver = l)
    (h : drainYields l ex = .ok ex') : Path ex ex' := by
  induction l generalizing ex with
  | nil => cases h; exact .refl
  | cons r rest ih =>
    obtain ⟨mid, fired, later⟩ := Steps.bind_ok h
    have left : mid.eventDriver.yieldDriver = rest := by rw [eventDriver_fire fired]
    refine .head (.fire .yield { ex.eventDriver with yieldDriver := rest } r ?_
        (fun s member => ?_) rfl fired) (ih left later)
    · rw [EventDriver.mem_refs_iff, start]
      exact .inl List.mem_cons_self
    · rw [EventDriver.mem_refs_iff] at member ⊢
      rw [start]
      exact member.imp (List.mem_cons_of_mem _) id

/-- A turn of the loop over the timers: none is due, or the first is taken out and fires. -/
theorem expireTimers_succ {now n : Nat} {timer : TimerDriver} {ex ex' : Executor W}
    (h : expireTimers now (n + 1) timer ex = .ok ex') :
    ((∀ source r rest, timer.timers.popFirst = some ((source, r), rest) → now < source.when) ∧ ex' = ex) ∨
      ∃ source r rest mid, timer.timers.popFirst = some ((source, r), rest) ∧ source.when ≤ now ∧
        fire .timer { ex with eventDriver := { ex.eventDriver with
          timerDriver := some { timer with timers := rest } } } r = .ok mid ∧
        expireTimers now n { timer with timers := rest } mid = .ok ex' := by
  rw [expireTimers] at h
  split at h
  · rename_i none
    cases h
    left
    refine ⟨fun source r rest popped => ?_, rfl⟩
    rw [none] at popped
    cases popped
  · rename_i source r rest popped
    simp only at h
    split at h
    · rename_i due
      obtain ⟨mid, fired, later⟩ := Steps.bind_ok h
      exact .inr ⟨source, r, rest, mid, popped, due, fired, later⟩
    · rename_i early
      cases h
      left
      refine ⟨fun source' r' rest' first => ?_, rfl⟩
      rw [popped] at first
      cases first
      exact Nat.lt_of_not_le early

theorem expireTimers_path {now n : Nat} {timer : TimerDriver} {ex ex' : Executor W}
    (start : ex.eventDriver.timerDriver = some timer) (h : expireTimers now n timer ex = .ok ex') :
    Path ex ex' := by
  induction n generalizing timer ex with
  | zero => cases h; exact .refl
  | succ n ih =>
    obtain ⟨-, rfl⟩ | ⟨source, r, rest, mid, popped, -, fired, later⟩ := expireTimers_succ h
    · exact .refl
    · have entries := OrderedMap.popFirst_eq_some_iff.mp popped
      have left : mid.eventDriver.timerDriver = some { timer with timers := rest } := by
        rw [eventDriver_fire fired]
      refine .head (.fire .timer { ex.eventDriver with timerDriver := some { timer with timers := rest } } r ?_
        (fun s member => ?_) rfl fired) (ih left later)
      · simp [EventDriver.mem_refs_iff, EventDriver.timerRefs, TimerDriver.refs, start, entries]
      · simp only [EventDriver.mem_refs_iff, EventDriver.timerRefs, EventDriver.ioRefs,
          TimerDriver.refs, start, entries,
          Option.map_some, Option.getD_some, List.map_cons, List.mem_cons] at member ⊢
        rcases member with yields | notes | timers | ios
        · exact .inl yields
        · exact .inr (.inl notes)
        · exact .inr (.inr (.inl (.inr timers)))
        · exact .inr (.inr (.inr ios))

/-- The other sources leave the driver alone but for their own queue. -/
theorem eventDriver_drainYields {l : List Ref} {ex ex' : Executor W} (h : drainYields l ex = .ok ex') :
    ∃ left, ex'.eventDriver = { ex.eventDriver with yieldDriver := left } := by
  induction l generalizing ex with
  | nil => cases h; exact ⟨_, rfl⟩
  | cons r rest ih =>
    obtain ⟨mid, fired, later⟩ := Steps.bind_ok h
    obtain ⟨left, driver⟩ := ih later
    exact ⟨left, by rw [driver, eventDriver_fire fired]⟩

theorem eventDriver_expireTimers {now n : Nat} {timer : TimerDriver} {ex ex' : Executor W}
    (h : expireTimers now n timer ex = .ok ex') :
    ∃ left, ex'.eventDriver = { ex.eventDriver with timerDriver := left } := by
  induction n generalizing timer ex with
  | zero => cases h; exact ⟨_, rfl⟩
  | succ n ih =>
    obtain ⟨-, rfl⟩ | ⟨source, r, rest, mid, -, -, fired, later⟩ := expireTimers_succ h
    · exact ⟨_, rfl⟩
    · obtain ⟨left, driver⟩ := ih later
      exact ⟨left, by rw [driver, eventDriver_fire fired]⟩

theorem pollTimers_path {now : Nat} {ex ex' : Executor W} (h : pollTimers now ex = .ok ex') :
    Path ex ex' := by
  unfold pollTimers at h
  split at h
  · cases h; exact .refl
  · rename_i timer configured
    exact expireTimers_path configured h

theorem pollIo_path {io : IoDriver} {events : List IoEvent} {ex ex' : Executor W}
    (start : ex.eventDriver.ioDriver = some io) (h : pollIo io events ex = .ok ex') : Path ex ex' := by
  induction events generalizing ex with
  | nil => cases h; exact .refl
  | cons event rest ih =>
    rw [pollIo, List.foldlM_cons] at h
    obtain ⟨mid, first, later⟩ := Steps.bind_ok' h
    split at first
    · cases first; exact ih start later
    · rename_i token
      split at first
      · cases first
      · rename_i r registered
        have same := eventDriver_fire first
        refine .head (.fire .io ex.eventDriver r ?_ (fun _ member => member) rfl first)
          (ih (by rw [same, start]) later)
        rw [EventDriver.mem_refs_iff, EventDriver.ioRefs, start]
        exact .inr (.inr (.inr (IoDriver.mem_of_lookup registered)))

/-- The parts of the poll before the I/O driver. -/
theorem pollInternal_ok {now : Nat} {ex ex' : Executor W} (h : pollInternal now ex = .ok ex') :
    ∃ drained yielded, drainNotifications ex.eventDriver.pollLimit ex = .ok drained ∧
      pollYields drained = .ok yielded ∧ pollTimers now yielded = .ok ex' := by
  obtain ⟨drained, notes, rest⟩ := Steps.bind_ok' h
  obtain ⟨yielded, yields, timers⟩ := Steps.bind_ok' rest
  exact ⟨drained, yielded, notes, yields, timers⟩

/-- The outcomes of the I/O poll: no I/O driver, an error, or events. -/
theorem askIo_ok {input : CycleInput} {ex ex' : Executor W} {t : Option CycleTime}
    (h : askIo input ex = .ok (t, ex')) :
    t = none ∧ ex' = ex ∧ ex.eventDriver.ioDriver ≠ none ∧ input.io = none ∨
      (∃ now, t = some now ∧ ex.eventDriver.ioDriver = none ∧ ex' = ex) ∨
      ∃ now io events, t = some now ∧ ex.eventDriver.ioDriver = some io ∧ input.io = some events ∧
        pollIo io events ex.resetWaker = .ok ex' := by
  unfold askIo at h
  split at h
  · rename_i absent
    cases h
    exact .inr (.inl ⟨_, rfl, absent, rfl⟩)
  · rename_i io configured failed
    cases h
    exact .inl ⟨rfl, rfl, by simp [configured], failed⟩
  · rename_i io events configured reported
    obtain ⟨last, polled, same⟩ := Steps.map_ok h
    cases same
    exact .inr (.inr ⟨_, io, events, rfl, configured, reported, polled⟩)

/-- A poll is its internal part and the I/O poll. -/
theorem poll_ok {input : CycleInput} {ex ex' : Executor W} {t : Option CycleTime}
    (h : poll input ex = .ok (t, ex')) :
    ∃ mid, pollInternal input.first.instant ex = .ok mid ∧ askIo input mid = .ok (t, ex') := by
  obtain ⟨mid, internal, asks⟩ := Steps.bind_ok' h
  exact ⟨mid, internal, asks⟩

theorem pollInternal_path {now : Nat} {ex ex' : Executor W} (h : pollInternal now ex = .ok ex') :
    Path ex ex' := by
  obtain ⟨drained, yielded, notes, yields, timers⟩ := pollInternal_ok h
  exact (drainNotifications_path notes).trans ((drainYields_path rfl yields).trans (pollTimers_path timers))

theorem askIo_path {input : CycleInput} {ex ex' : Executor W} {t : Option CycleTime}
    (h : askIo input ex = .ok (t, ex')) :
    Path ex ex' := by
  have reset : Path ex ex.resetWaker := .single (.code (.forget _ (fun _ member => member) rfl))
  rcases askIo_ok h with ⟨-, rfl, -⟩ | ⟨_, -, -, rfl⟩ | ⟨_, io, events, -, configured, -, polled⟩
  · exact .refl
  · exact .refl
  · exact reset.trans (pollIo_path configured polled)

theorem poll_path {input : CycleInput} {ex ex' : Executor W} {t : Option CycleTime}
    (h : poll input ex = .ok (t, ex')) :
    Path ex ex' := by
  obtain ⟨mid, internal, asks⟩ := poll_ok h
  exact (pollInternal_path internal).trans (askIo_path asks)

/-! ## The node loop -/

variable (prog : Program W)

/-- A node that can be popped is in the graph, and its run says so. -/
theorem graphCycle_ok {now : CycleTime} {i : NodeIndex} {ex ex' : Executor W} {run : Run}
    (h : graphCycle prog now i ex = .ok (run, ex')) :
    ∃ ctx, ex.graph.nodeWeight i = some ctx ∧ run.index = i ∧ run.node = ctx.cycleFn.state ∧
      (run.verdict = .poisoned ↔ ctx.poisoned = true) := by
  have called : ∀ {fn : CycleFn} {mid mid' : Executor W} {v : Verdict},
      callCycleFn prog now i fn mid = .ok (v, mid') → v ≠ .poisoned := by
    rintro fn mid mid' v call rfl
    obtain ⟨answer, finished, after, -, -, ⟨control, no, -⟩ | ⟨no, -⟩⟩ :=
      callCycleFn_ok prog call <;> cases no
  obtain ⟨ctx, there, index, node, poisoned | spawned | built | dead⟩ := graphCycle_cases prog h
  · exact ⟨ctx, there, index, node, by simp [poisoned.1, poisoned.2.1]⟩
  · exact ⟨ctx, there, index, node, by simp [spawned.1, called spawned.2.2]⟩
  · obtain ⟨sound, -, -, mid, call, -⟩ := built
    exact ⟨ctx, there, index, node, by simp [sound, called call]⟩
  · exact ⟨ctx, there, index, node, by simp [dead.1, dead.2.2.2.1]⟩

/-- One turn that goes on: a pop, a run that does not end the cycle, its consequences. -/
theorem nodeStep_again {now : CycleTime} {ex ex' : Executor W} (h : nodeStep prog now ex = .ok (.again ex')) :
    ∃ i s run mid, ex.scheduler.pop = (some i, s) ∧
      graphCycle prog now i { ex with scheduler := s } = .ok (run, mid) ∧
      run.verdict.control ≠ .terminate ∧ handleControl run (mid.recordRun run) = .ok ex' := by
  unfold nodeStep at h
  split at h
  · cases h
  · rename_i i s popped
    obtain ⟨⟨run, mid⟩, ran, rest⟩ := Steps.bind_ok' h
    simp only at rest
    split at rest
    · cases rest
    · rename_i goesOn
      obtain ⟨last, handled, same⟩ := Steps.bind_ok' rest
      cases same
      exact ⟨i, s, run, mid, popped, ran, goesOn, handled⟩

theorem nodeStep_finished {now : CycleTime} {ex ex' : Executor W}
    (h : nodeStep prog now ex = .ok (.finished ex')) :
    ∃ s, ex.scheduler.pop = (none, s) ∧ ex' = { ex with scheduler := s } := by
  unfold nodeStep at h
  split at h
  · rename_i s popped
    cases h
    exact ⟨s, popped, rfl⟩
  · obtain ⟨⟨run, mid⟩, -, rest⟩ := Steps.bind_ok' h
    simp only at rest
    split at rest
    · cases rest
    · obtain ⟨last, -, same⟩ := Steps.bind_ok' rest
      cases same

theorem nodeStep_terminated {now : CycleTime} {ex ex' : Executor W}
    (h : nodeStep prog now ex = .ok (.terminated ex')) :
    ∃ i s run mid, ex.scheduler.pop = (some i, s) ∧
      graphCycle prog now i { ex with scheduler := s } = .ok (run, mid) ∧
      run.verdict.control = .terminate ∧ ex' = (mid.recordRun run).log .terminated := by
  unfold nodeStep at h
  split at h
  · cases h
  · rename_i i s popped
    obtain ⟨⟨run, mid⟩, ran, rest⟩ := Steps.bind_ok' h
    simp only at rest
    split at rest
    · rename_i ends
      cases rest
      exact ⟨i, s, run, mid, popped, ran, ends, rfl⟩
    · obtain ⟨last, -, same⟩ := Steps.bind_ok' rest
      cases same

/-- The turns of a node loop that comes to an end. -/
inductive Loop (now : CycleTime) : Executor W → Exit → Executor W → Prop
  | finished {ex ex'} : nodeStep prog now ex = .ok (.finished ex') → Loop now ex .running ex'
  | terminated {ex ex'} : nodeStep prog now ex = .ok (.terminated ex') → Loop now ex .terminated ex'
  | again {ex mid exit ex'} : nodeStep prog now ex = .ok (.again mid) → Loop now mid exit ex' →
      Loop now ex exit ex'

theorem loop_of_nodeLoop {now : CycleTime} {fuel : Nat} {ex ex' : Executor W} {exit : Exit}
    (h : nodeLoop prog now fuel ex = .ok (exit, ex')) : Loop prog now ex exit ex' := by
  induction fuel generalizing ex with
  | zero => cases h
  | succ fuel ih =>
    rw [nodeLoop] at h
    obtain ⟨turn, step, rest⟩ := Steps.bind_ok' h
    cases turn with
    | finished last => cases rest; exact .finished step
    | terminated last => cases rest; exact .terminated step
    | again mid => exact .again step (ih rest)

variable {prog}

theorem poisonAndSpread_path {c : NodeIndex} {ex ex' : Executor W}
    (h : ex.poisonAndSpread c = .ok ex') : Path ex ex' := by
  obtain ⟨mid, poisoned, spreads⟩ := Steps.bind_ok h
  exact .head (.poison c poisoned) (.single (.spread c spreads))

theorem handleControl_path {run : Run} {ex ex' : Executor W} (there : ex.keyAt run.index = some run.node)
    (recorded : .ran run ∈ ex.trace) (h : handleControl run ex = .ok ex') : Path ex ex' := by
  unfold handleControl at h
  split at h
  · exact Steps.foldlM_steps (fun s c s' _ spreads => .single (.spread c spreads)) h
  · rename_i swept
    exact .head (.mark run there swept recorded)
      (Steps.foldlM_steps (fun s c s' _ spreads => poisonAndSpread_path spreads) h)
  · cases h; exact .refl
  · cases h; exact .refl

/-- The run that one turn makes, up to where its control value is looked at. -/
theorem run_path {now : CycleTime} {i : NodeIndex} {s : Scheduler} {ex mid : Executor W} {run : Run}
    (popped : ex.scheduler.pop = (some i, s))
    (ran : graphCycle prog now i { ex with scheduler := s } = .ok (run, mid)) :
    Path ex (mid.recordRun run) ∧ (mid.recordRun run).keyAt run.index = some run.node := by
  obtain ⟨ctx, there, rfl, node, -⟩ := graphCycle_ok prog ran
  have code := graphCycle_run prog ran
  have placed : mid.keyAt run.index = some run.node := by
    rw [(frame_of_run code).keyAt, node, keyAt, there]; rfl
  exact ⟨.head (.pop _ s popped) ((CodeRun.path code).tail (.ran run placed)), placed⟩

theorem nodeStep_path {now : CycleTime} {ex ex' : Executor W}
    (h : nodeStep prog now ex = .ok (.finished ex') ∨ nodeStep prog now ex = .ok (.terminated ex') ∨
      nodeStep prog now ex = .ok (.again ex')) : Path ex ex' := by
  rcases h with finished | terminated | again
  · obtain ⟨s, popped, rfl⟩ := nodeStep_finished prog finished
    exact .single (.pop _ s popped)
  · obtain ⟨i, s, run, mid, popped, ran, -, rfl⟩ := nodeStep_terminated prog terminated
    exact (run_path popped ran).1.tail .terminated
  · obtain ⟨i, s, run, mid, popped, ran, -, handled⟩ := nodeStep_again prog again
    obtain ⟨path, placed⟩ := run_path popped ran
    exact path.trans (handleControl_path placed List.mem_cons_self handled)

theorem Loop.path {now : CycleTime} {exit : Exit} {ex ex' : Executor W}
    (h : Loop prog now ex exit ex') : Path ex ex' := by
  induction h with
  | finished step => exact nodeStep_path (.inl step)
  | terminated step => exact nodeStep_path (.inr (.inl step))
  | again step _ ih => exact (nodeStep_path (.inr (.inr step))).trans ih

/-- A loop that comes to its end leaves the scheduler as the pop that found nothing. -/
theorem Loop.drained {now : CycleTime} {ex ex' : Executor W} (h : Loop prog now ex .running ex') :
    ∃ last s, Path ex last ∧ last.scheduler.pop = (none, s) ∧ ex' = { last with scheduler := s } := by
  generalize exits : Exit.running = exit at h
  induction h with
  | finished step =>
    obtain ⟨s, popped, rfl⟩ := nodeStep_finished prog step
    exact ⟨_, s, .refl, popped, rfl⟩
  | terminated step => cases exits
  | again step _ ih =>
    obtain ⟨last, s, path, popped, same⟩ := ih exits
    exact ⟨last, s, (nodeStep_path (.inr (.inr step))).trans path, popped, same⟩

theorem Loop.exit_ne_err {now : CycleTime} {exit : Exit} {ex ex' : Executor W}
    (h : Loop prog now ex exit ex') : exit ≠ .err := by
  induction h with
  | finished _ => exact fun no => by cases no
  | terminated _ => exact fun no => by cases no
  | again _ _ ih => exact ih

/-! ## The scheduler along a run -/

theorem schedulerWF_offer {ex ex' : Executor W} {i : NodeIndex} {o : Offer} (h : ex.offer i = some (o, ex'))
    (wf : ex.scheduler.WF) : ex'.scheduler.WF := by
  rcases offer_cases h with ⟨-, rfl, -⟩ | ⟨_, -, -, -, rfl⟩ | ⟨_, -, -, -, -, rfl⟩ |
    ⟨ctx, -, -, low, bound, -, rfl⟩
  · exact wf
  · exact wf
  · exact wf
  · exact wf.enqueue low bound

theorem Code.schedulerWF {ex ex' : Executor W} (step : Code ex ex') (wf : ex.scheduler.WF) :
    ex'.scheduler.WF := by
  cases step with
  | handle step => rw [scheduler_of_handleRun (.single step)]; exact wf
  | manual k s held accepted =>
    obtain ⟨low, bound, rfl⟩ := Scheduler.schedule_eq_ok_iff.mp accepted
    exact wf.enqueue low bound
  | _ => exact wf

theorem Micro.schedulerWF {ex ex' : Executor W} (step : Micro ex ex') (wf : ex.scheduler.WF) :
    ex'.scheduler.WF := by
  cases step with
  | code step => exact step.schedulerWF wf
  | fire source driver r known sub takes fired =>
    obtain ⟨o, mid, offered, -, rfl⟩ := fire_ok fired
    exact show mid.scheduler.WF from schedulerWF_offer offered wf
  | pop o s popped =>
    cases o with
    | none => exact (Scheduler.pop_none wf popped).1.wf
    | some i => exact (Scheduler.pop_some wf popped).wf wf
  | poison i poisoned =>
    obtain ⟨ctx, -, rfl⟩ := markPoisoned_ok poisoned
    exact wf
  | spread child spreads =>
    obtain ⟨o, mid, offered, rfl⟩ := spread_ok spreads
    exact show mid.scheduler.WF from schedulerWF_offer offered wf
  | build args depth graph => exact wf.enableDepth depth
  | _ => exact wf

theorem Path.schedulerWF {ex ex' : Executor W} (path : Path ex ex') (wf : ex.scheduler.WF) :
    ex'.scheduler.WF :=
  Steps.run_inv (p := fun s : Executor W => s.scheduler.WF) (fun _ _ step => step.schedulerWF) path wf

/-- After a node loop that ran out of entries the scheduler is at rest. -/
theorem Loop.atRest {now : CycleTime} {ex ex' : Executor W} (wf : ex.scheduler.WF)
    (h : Loop prog now ex .running ex') :
    ex'.scheduler.AtRest := by
  obtain ⟨last, s, path, popped, rfl⟩ := h.drained
  exact (Scheduler.pop_none (path.schedulerWF wf) popped).1

/-! ## Sweeping and spawning -/

variable (prog)

/-- Taking one mark, with all that the removal of its node drops. -/
theorem removeNode_path {r : Ref} {rest : List Ref} {ex : Executor W} (front : ex.gc = r :: rest)
    (rests : ex.scheduler.AtRest) :
    Path ex (removeNode prog { ex with gc := rest } r.index) ∧
      (removeNode prog { ex with gc := rest } r.index).scheduler = ex.scheduler := by
  unfold removeNode
  split
  · rename_i vacant
    exact ⟨.single (.discard r rest front vacant), rfl⟩
  · rename_i k there
    have drops :=
      (dropOwner_run prog (log { ex with gc := rest, graph := ex.graph.removeNode r.index } (.removed k))
      (.graph k)).trans (dropOwner_run prog _ (.closure k))
    exact ⟨.head (.remove r rest k front there rests)
      (CodeRun.path (HandleRun.code drops)), by rw [scheduler_of_handleRun drops]; rfl⟩

theorem sweepLoop_path {fuel : Nat} {ex ex' : Executor W} (rests : ex.scheduler.AtRest)
    (h : sweepLoop prog fuel ex = .ok ex') : Path ex ex' ∧ ex'.scheduler = ex.scheduler ∧ ex'.gc = [] := by
  induction fuel generalizing ex with
  | zero => cases h
  | succ fuel ih =>
    rw [sweepLoop] at h
    split at h
    · rename_i empty
      cases h
      exact ⟨.refl, rfl, empty⟩
    · rename_i r rest front
      obtain ⟨first, same⟩ := removeNode_path prog front rests
      obtain ⟨path, scheduler, empty⟩ := ih (by rwa [same]) h
      exact ⟨first.trans path, scheduler.trans same, empty⟩

theorem addHandles_path {l : List Key} {o : Owner} {ex : Executor W} (alive : ∀ c ∈ l, ex.Alive c) :
    Path ex (l.foldl (fun ex c => ex.addHandle o c) ex) := by
  induction l generalizing ex with
  | nil => exact .refl
  | cons c rest ih =>
    refine .head (.code (.handle (.clone o c (alive c List.mem_cons_self)))) (ih fun d member => ?_)
    exact List.mem_cons_of_mem _ (alive d (List.mem_cons_of_mem _ member))

theorem alive_addHandles {l : List Key} {o : Owner} {ex : Executor W} {c : Key} (alive : ex.Alive c) :
    (l.foldl (fun ex c => ex.addHandle o c) ex).Alive c := by
  induction l generalizing ex with
  | nil => exact alive
  | cons d rest ih => exact ih (List.mem_cons_of_mem _ alive)

theorem addHandles_eq (l : List Key) (o : Owner) (ex : Executor W) :
    l.foldl (fun ex c => ex.addHandle o c) ex =
      { ex with handles := (l.map fun c => (o, c)).reverse ++ ex.handles } := by
  induction l generalizing ex with
  | nil => rfl
  | cons c rest ih =>
    rw [List.foldl_cons, ih, addHandle, List.map_cons, List.reverse_cons, List.append_assoc]
    rfl

/-- What `build` does: the node is inserted, then its closure and its data get handles. -/
theorem build_ok {args : BuildArgs} {ex ex' : Executor W} (h : ex.build args = .ok ex') :
    ∃ depth graph handles, ex.graph.nodeWeight args.index = none ∧ childDepth (ex.parents args) = some depth ∧
      addEdges args.index (ex.graph.addNode args.index
      (.new ⟨ex.inners.length, args.spawned, args.allowPanic⟩ depth))
        (args.order.order (ex.parents args)) = some graph ∧
      ex' = { ex.insertNode args depth graph with handles := handles } ∧
      Path (ex.insertNode args depth graph) ex' := by
  unfold build at h
  simp only at h
  split at h
  · cases h
  · rename_i free
    split at h
    · cases h
    · rename_i depth deep
      split at h
      · cases h
      · rename_i graph edges
        cases h
        have vacant : ex.graph.nodeWeight args.index = none := by simpa using free
        have stillAlive : ∀ c, ex.Alive c → (ex.insertNode args depth graph).Alive c :=
          fun c => List.mem_cons_of_mem _
        refine ⟨depth, graph, _, vacant, deep, edges, by rw [addHandles_eq, addHandles_eq], ?_⟩
        refine .trans (addHandles_path fun c member => ?_) (addHandles_path fun c member => ?_)
        · exact stillAlive c (by simpa using (List.mem_filter.mp member).2)
        · exact alive_addHandles (stillAlive c (by simpa using (List.mem_filter.mp member).2))

theorem build_path {args : BuildArgs} {ex ex' : Executor W} (h : ex.build args = .ok ex') : Path ex ex' := by
  obtain ⟨depth, graph, handles, vacant, deep, edges, -, path⟩ := build_ok h
  exact .head (.build args depth graph vacant deep edges) path

theorem execOp_path {op : ExecOp W} {ex ex' : Executor W} (h : ex.execOp prog op = .ok ex') :
    Path ex ex' := by
  cases op with
  | handle op => cases h; exact CodeRun.path (handleOp_run prog ex op).code
  | driver op =>
    simp only [execOp] at h
    split at h
    · rename_i next applied
      cases h
      exact CodeRun.path (driverOp_run applied)
    · cases h
  | build args => exact build_path h

theorem execOps_path {ops : List (ExecOp W)} {ex ex' : Executor W}
    (h : ex.execOps prog ops = .ok ex') : Path ex ex' :=
  Steps.foldlM_steps (fun _ _ _ _ applied => execOp_path prog applied) h

theorem runSpawn_path {ticket : Nat} {ex ex' : Executor W} (h : runSpawn prog ex ticket = .ok ex') :
    Path ex ex' := by
  obtain ⟨built, ops, rfl⟩ := Steps.map_ok h
  exact (execOps_path prog ops).trans (CodeRun.path (dropOwner_run prog built (.spawn ticket)).code)

theorem runSpawns_path {tickets : List Nat} {ex ex' : Executor W} (h : runSpawns prog tickets ex = .ok ex') :
    Path ex ex' := by
  induction tickets generalizing ex with
  | nil => cases h; exact .refl
  | cons ticket rest ih =>
    obtain ⟨mid, spawned, later⟩ := Steps.bind_ok h
    exact .head (.code (.spawns rest ex.tickets)) ((runSpawn_path prog spawned).trans (ih later))

/-! ## A whole cycle -/

/-- A cycle up to the end of its node loop: the I/O poll fails, or the loop runs. -/
theorem runNodes_ok {fuel : Nat} {input : CycleInput} {exit : Exit} {ex ex' : Executor W}
    (h : runNodes prog fuel input ex = .ok (exit, ex')) :
    (exit = .err ∧ poll input ex.beginCycle = .ok (none, ex')) ∨
    ∃ now polled, poll input ex.beginCycle = .ok (some now, polled) ∧ Loop prog now polled exit ex' := by
  obtain ⟨⟨t, polled⟩, polls, rest⟩ := Steps.bind_ok' h
  cases t with
  | none => cases rest; exact .inl ⟨rfl, polls⟩
  | some now => exact .inr ⟨now, polled, polls, loop_of_nodeLoop prog rest⟩

theorem runNodes_path {fuel : Nat} {input : CycleInput} {exit : Exit} {ex ex' : Executor W}
    (h : runNodes prog fuel input ex = .ok (exit, ex')) : Path ex ex' := by
  rcases runNodes_ok prog h with ⟨-, polls⟩ | ⟨now, polled, polls, loop⟩
  · exact .head .begin (poll_path polls)
  · exact .head .begin ((poll_path polls).trans loop.path)

theorem runNodes_atRest {fuel : Nat} {input : CycleInput} {ex ex' : Executor W} (wf : ex.scheduler.WF)
    (h : runNodes prog fuel input ex = .ok (.running, ex')) : ex'.scheduler.AtRest := by
  rcases runNodes_ok prog h with ⟨no, -⟩ | ⟨now, polled, polls, loop⟩
  · cases no
  · exact loop.atRest (Path.schedulerWF (.head .begin (poll_path polls)) wf)

/-- A cycle is its node loop, followed by the sweep and the spawns if it runs on. -/
theorem cycle_ok {fuel : Nat} {input : CycleInput} {exit : Exit} {ex ex' : Executor W}
    (h : cycle prog fuel input ex = .ok (exit, ex')) :
    (exit ≠ .running ∧ runNodes prog fuel input ex = .ok (exit, ex')) ∨
    exit = .running ∧ ∃ mid swept, runNodes prog fuel input ex = .ok (.running, mid) ∧
      sweepLoop prog fuel mid = .ok swept ∧ runSpawns prog swept.deferredSpawns swept = .ok ex' := by
  obtain ⟨⟨stop, mid⟩, nodes, rest⟩ := Steps.bind_ok' h
  cases stop with
  | running =>
    obtain ⟨swept, sweeps, spawning⟩ := Steps.bind_ok' rest
    obtain ⟨last, spawns, same⟩ := Steps.bind_ok' spawning
    cases same
    exact .inr ⟨rfl, mid, swept, nodes, sweeps, spawns⟩
  | terminated => cases rest; exact .inl ⟨by decide, nodes⟩
  | err => cases rest; exact .inl ⟨by decide, nodes⟩

theorem cycle_path {fuel : Nat} {input : CycleInput} {exit : Exit} {ex ex' : Executor W}
    (wf : ex.scheduler.WF) (h : cycle prog fuel input ex = .ok (exit, ex')) : Path ex ex' := by
  rcases cycle_ok prog h with ⟨-, nodes⟩ | ⟨-, mid, swept, nodes, sweeps, spawns⟩
  · exact runNodes_path prog nodes
  · exact (runNodes_path prog nodes).trans
      ((sweepLoop_path prog (runNodes_atRest prog wf nodes) sweeps).1.trans (runSpawns_path prog spawns))

end Executor
end Wavelet
