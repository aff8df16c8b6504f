import Wavelet.Cycle.Course
import Wavelet.Cycle.Order
import Wavelet.Cycle.Tally

/-!
# The scheduler between two cycles

A cycle that runs its node loop to the end leaves the scheduler at rest, a failed poll
leaves the cursor at the top, and the early return of a node that terminates leaves both as
they are. As long as every node that terminates lies at the top, is the last one queued and
queues no other, no poll is ever refused, and every event of a live node ends in a run of
that node.
-/

namespace Wavelet

/-- The panics of a source whose node the scheduler refuses. -/
def Failure.Refused (failure : Failure) : Prop := failure = .expectNotification ∨ failure = .unwrapIo

instance (failure : Failure) : Decidable failure.Refused := inferInstanceAs (Decidable (_ ∨ _))

namespace Executor

open Steps

variable {W : Type} {prog : Program W}

/-! ## No refusal from the top -/

theorem fire_unrefused {source : Source} {r : Ref} {ex : Executor W} (top : ex.scheduler.currDepth = 0) :
    Fails (fun f => ¬ f.Refused) (fire source ex r) := by
  unfold fire
  split
  · exact .error (by decide)
  · rename_i o mid offered
    split
    · rcases offer_cases offered with ⟨no, -⟩ | ⟨_, -, -, no, -⟩ | ⟨ctx, -, -, above, -⟩ |
        ⟨_, -, -, -, -, no, -⟩
      · cases no
      · cases no
      · rw [top] at above
        cases above
      · cases no
    · exact .ok _

/-- A poll that starts at the top does not panic on a refusal. -/
theorem poll_unrefused {input : CycleInput} {ex : Executor W} (top : ex.scheduler.currDepth = 0) :
    Fails (fun f => ¬ f.Refused) (poll input ex) := by
  refine poll_fails (p := fun s : Executor W => s.scheduler.currDepth = 0) (fun _ _ top => top)
    (fun source r s s' fired top => ?_)
    (fun source r s top => fire_unrefused top) (by decide) top
  rw [(Steady.of_fire fired).currDepth]
  exact top

/-! ## No refusal elsewhere -/

theorem code_unrefused (failure : Failure) (code : failure.OfCode) : ¬ failure.Refused := by
  rcases code with rfl | rfl | rfl | rfl <;> decide

theorem nodeLoop_unrefused {now : CycleTime} {fuel : Nat} {ex : Executor W} :
    Fails (fun f => ¬ f.Refused) (nodeLoop prog now fuel ex) := by
  induction fuel generalizing ex with
  | zero => exact .error (by decide)
  | succ fuel ih =>
    refine .bind (.mono ?_ nodeStep_fails) fun turn _ => ?_
    · rintro f (rfl | rfl | rfl) <;> decide
    · cases turn with
      | finished last => exact .ok _
      | terminated last => exact .ok _
      | again mid => exact ih

theorem sweepLoop_unrefused {fuel : Nat} {ex : Executor W} :
    Fails (fun f => ¬ f.Refused) (sweepLoop prog fuel ex) := by
  induction fuel generalizing ex with
  | zero => exact .error (by decide)
  | succ fuel ih =>
    rw [sweepLoop]
    split
    · exact .ok _
    · exact ih

/-- A cycle that starts with the cursor at the top does not panic on a refusal. -/
theorem cycle_unrefused {fuel : Nat} {input : CycleInput} {ex : Executor W}
    (top : ex.scheduler.currDepth = 0) :
    Fails (fun f => ¬ f.Refused) (cycle prog fuel input ex) := by
  refine .bind (.bind (poll_unrefused top) fun ⟨t, polled⟩ _ => ?_) fun ⟨exit, mid⟩ _ => ?_
  · cases t with
    | none => exact .ok _
    | some now => exact nodeLoop_unrefused
  · cases exit with
    | running =>
      exact .bind sweepLoop_unrefused fun _ _ => .bind (.mono code_unrefused runSpawns_fails) fun _ _ => .ok _
    | terminated => exact .ok _
    | err => exact .ok _

/-! ## A node that terminates -/

/-- The node that the next turn takes answers `Terminate`. -/
def Halts (prog : Program W) (now : CycleTime) (ex : Executor W) : Prop :=
  ∃ k s ctx, called k now ex = some (s, ctx) ∧ (s.applyEffects prog (prog.cycleFn s ctx k).1).1 = true ∧
    (prog.cycleFn s ctx k).2 = .ret .terminate

/-- That node is the only one queued, it lies at the top, and its cycle function queues no
other. -/
structure Alone (prog : Program W) (now : CycleTime) (ex : Executor W) : Prop where
  top : ex.scheduler.queue 0 ≠ []
  only : ex.scheduler.pendingEvents = 1
  hands : handedIn prog now ex = []

/-- In the cycle that starts in `ex`, a node answers `Terminate` only when it is alone. -/
def HaltsAlone (prog : Program W) (input : CycleInput) (ex : Executor W) : Prop :=
  ∀ now polled mid, poll input ex.beginCycle = .ok (some now, polled) → Turns prog now polled mid →
    Halts prog now mid →
    Alone prog now mid

/-- The loop returns early after the turn of a node that answers `Terminate`, and no other. -/
theorem nodeStep_terminated_iff {now : CycleTime} {ex : Executor W} :
    (∃ ex', nodeStep prog now ex = .ok (.terminated ex')) ↔ Halts prog now ex := by
  constructor
  · rintro ⟨ex', step⟩
    obtain ⟨i, s, run, mid, popped, ran, ends, -⟩ := nodeStep_terminated prog step
    have returned := returned_of_terminate ends
    have answers : ∀ {fn : CycleFn} {before after : Executor W}, callCycleFn prog now i fn before =
        .ok (run.verdict, after) →
        (before.applyEffects prog (prog.cycleFn before ⟨i, now, before.epoch⟩ fn.state).1).1 = true ∧
          (prog.cycleFn before ⟨i, now, before.epoch⟩ fn.state).2 = .ret .terminate := by
      intro fn before after call
      obtain ⟨answer, finished, applied, rfl, effects, ⟨control, same, whole, answered, -⟩ | ⟨no, -⟩⟩ :=
        callCycleFn_ok prog call
      · rw [returned] at same
        cases same
        exact ⟨by rw [effects]; exact whole, answered⟩
      · rw [returned] at no
        cases no
    obtain ⟨ctx, there, -, node, poisoned | spawned | built | dead⟩ := graphCycle_cases prog ran
    · rw [returned] at poisoned
      cases poisoned.2.1
    · replace there : ex.graph.nodeWeight i = some ctx := there
      refine ⟨ctx.cycleFn.state, { ex with scheduler := s }, ⟨i, now, ex.epoch⟩, ?_, answers spawned.2.2⟩
      simp [called, popped, there, spawned.1, spawned.2.1]
    · replace there : ex.graph.nodeWeight i = some ctx := there
      obtain ⟨sound, shared, alive, last, call, -⟩ := built
      rw [node] at alive call
      refine ⟨ctx.cycleFn.state, addHandle { ex with scheduler := s } .running ctx.cycleFn.state,
        ⟨i, now, ex.epoch⟩, ?_, answers call⟩
      simp [called, popped, there, sound, shared, alive]
    · rw [returned] at dead
      cases dead.2.2.2.1
  · rintro ⟨k, s, ctx, calls, whole, answered⟩
    have returns : ∀ {fn : CycleFn}, fn.state = k → ctx = ⟨ctx.current, now, s.epoch⟩ →
        ∃ after, callCycleFn prog now ctx.current fn s = .ok (.returned .terminate, after) := by
      rintro fn rfl same
      rw [same] at whole answered
      simp only [callCycleFn, whole, answered]
      exact ⟨_, rfl⟩
    obtain ⟨i, scheduler, last, popped, ran⟩ : ∃ i scheduler last, ex.scheduler.pop = (some i, scheduler) ∧
        graphCycle prog now i { ex with scheduler := scheduler } =
        .ok (⟨i, k, .returned .terminate⟩, last) := by
      unfold called at calls
      split at calls
      · cases calls
      · rename_i i scheduler popped
        split at calls
        · cases calls
        · rename_i weight there
          dsimp only at calls
          split at calls
          · rename_i own
            refine ⟨i, scheduler, ?_⟩
            rw [graphCycle]
            simp only [there, own.2, callClosure]
            split at calls
            · rename_i spawned
              cases calls
              obtain ⟨after, call⟩ := returns own.1 rfl
              exact ⟨after, popped, by simp [spawned, call, own.1, Except.map]⟩
            · rename_i shared
              split at calls
              · rename_i alive
                cases calls
                obtain ⟨after, call⟩ := returns own.1 rfl
                replace alive : Alive { ex with scheduler := scheduler } k := alive
                exact ⟨after.dropHandle prog .running k,
                  popped, by simp [shared, own.1, alive, call, Except.map]⟩
              · cases calls
          · cases calls
    refine ⟨(last.recordRun ⟨i, k, .returned .terminate⟩).log .terminated, ?_⟩
    simp only [nodeStep, popped, ran]
    rfl

/-- The early return leaves the scheduler at rest exactly if the node was alone. -/
theorem terminated_atRest_iff {now : CycleTime} {ex ex' : Executor W} (wf : ex.scheduler.WF)
    (step : nodeStep prog now ex = .ok (.terminated ex')) : ex'.scheduler.AtRest ↔ Alone prog now ex := by
  have wf' : ex'.scheduler.WF := Path.schedulerWF (nodeStep_path (.inr (.inl step))) wf
  obtain ⟨i, s, run, mid, popped, ran, -, rfl⟩ := nodeStep_terminated prog step
  have pop := Scheduler.pop_some wf popped
  have cursor : mid.scheduler.currDepth = s.currDepth := (Steady.of_code (graphCycle_run prog ran)).currDepth
  have counts := entries_graphCycle popped ran
  have one : ex.scheduler.pendingEvents = s.entries.length + 1 := by rw [wf.counted, pop.length_entries]
  constructor
  · intro rests
    replace rests : mid.scheduler.AtRest := rests
    have none : ∀ j, s.entries.count j = 0 ∧ (handedIn prog now ex).count j = 0 := by
      intro j
      have total := counts j
      rw [rests.entries_nil, List.count_nil] at total
      omega
    have left : s.entries = [] := List.eq_nil_iff_forall_not_mem.mpr fun j => List.count_eq_zero.mp (none j).1
    constructor
    case top =>
      have first := pop.first
      rw [← cursor, rests.top] at first
      rw [first]
      exact List.cons_ne_nil _ _
    case only => rw [one, left, List.length_nil]
    case hands => exact List.eq_nil_iff_forall_not_mem.mpr fun j => List.count_eq_zero.mp (none j).2
  · intro alone
    have left : s.entries = [] := List.eq_nil_of_length_eq_zero (by have := alone.only; omega)
    have empty : mid.scheduler.entries = [] := by
      refine List.eq_nil_iff_forall_not_mem.mpr fun j => List.count_eq_zero.mp ?_
      rw [counts, left, alone.hands]
      rfl
    have top : s.currDepth = 0 := by
      rcases Nat.eq_zero_or_pos s.currDepth with top | below
      · exact top
      · exact absurd (pop.above 0 below) alone.top
    refine wf'.atRest (cursor.trans top) ?_
    rw [wf'.counted]
    exact congrArg List.length empty

/-! ## At rest after every finished cycle -/

/-- The loop ends from each of its states as from the first. -/
theorem Loop.after {now : CycleTime} {exit : Exit} {ex mid ex' : Executor W} (h : Loop prog now ex exit ex')
    (turns : Turns prog now ex mid) : Loop prog now mid exit ex' := by
  induction turns with
  | refl => exact h
  | tail _ step ih =>
    cases ih with
    | finished other =>
      rw [other] at step
      cases step
    | terminated other =>
      rw [other] at step
      cases step
    | again other rest =>
      rw [other] at step
      cases step
      exact rest

/-- A cycle that returns `Ok` ends at rest exactly if the node that terminates it, if any, was
alone. -/
theorem finished_atRest_iff {fuel : Nat} {input : CycleInput} {exit : Exit} {ex ex' : Executor W}
    (wf : ex.scheduler.WF) (returned : cycle prog fuel input ex = .ok (exit, ex')) (finished : exit ≠ .err) :
    ex'.scheduler.AtRest ↔ HaltsAlone prog input ex := by
  obtain ⟨last, nodes⟩ : ∃ last, runNodes prog fuel input ex = .ok (exit, last) := by
    rcases cycle_ok prog returned with ⟨-, nodes⟩ | ⟨rfl, last, -, nodes, -⟩
    · exact ⟨_, nodes⟩
    · exact ⟨_, nodes⟩
  rcases runNodes_ok prog nodes with ⟨failed, -⟩ | ⟨now, polled, polls, loop⟩
  · exact absurd failed finished
  · have wf' : polled.scheduler.WF := Path.schedulerWF (.head .begin (poll_path polls)) wf
    constructor
    · intro rests now' polled' mid polls' turns halts
      rw [polls] at polls'
      cases polls'
      obtain ⟨ended, step⟩ := nodeStep_terminated_iff.mpr halts
      cases loop.after turns with
      | finished other =>
        rw [other] at step
        cases step
      | again other =>
        rw [other] at step
        cases step
      | terminated other =>
        rcases cycle_ok prog returned with ⟨-, nodes'⟩ | ⟨no, -⟩
        · rw [nodes] at nodes'
          cases nodes'
          exact (terminated_atRest_iff (Path.schedulerWF (Turns.path turns) wf') other).mp rests
        · cases no
    · intro alone
      cases exit with
      | running => exact cycle_atRest wf returned
      | err => exact absurd rfl finished
      | terminated =>
        rcases cycle_ok prog returned with ⟨-, nodes'⟩ | ⟨no, -⟩
        · rw [nodes] at nodes'
          cases nodes'
          obtain ⟨mid, turns, ⟨no, -⟩ | ⟨-, step⟩⟩ := loop.ends
          · cases no
          refine (terminated_atRest_iff (Path.schedulerWF (Turns.path turns) wf') step).mpr ?_
          exact alone now polled mid polls turns (nodeStep_terminated_iff.mp ⟨_, step⟩)
        · cases no

/-- Runs whose cycles all meet the condition. -/
inductive Tidy : Executor W → Prop
  | start (cfg : EventDriverConfig) (mode : ExecutionMode) (world : W) : Tidy (withConfig cfg mode world)
  | op (prog : Program W) (op : ExecOp W) {ex ex'} : Tidy ex → ex.execOp prog op = .ok ex' → Tidy ex'
  | cycle (prog : Program W) (fuel : Nat) (input : CycleInput) (exit : Exit) {ex ex'} : Tidy ex →
      HaltsAlone prog input ex →
      cycle prog fuel input ex = .ok (exit, ex') → Tidy ex'

theorem Tidy.reachable {ex : Executor W} (tidy : Tidy ex) : Reachable (fun _ => True) ex := by
  induction tidy with
  | start cfg mode world => exact .initial cfg mode world
  | op prog op _ applied ih =>
    obtain ⟨cfg, mode, world, run⟩ := ih
    exact ⟨cfg, mode, world, run.tail (.op prog op applied)⟩
  | cycle prog fuel input exit _ _ returned ih => exact ih.cycle trivial returned

theorem Tidy.ops {ops : List (ExecOp W)} {ex ex' : Executor W} (tidy : Tidy ex)
    (h : ex.execOps prog ops = .ok ex') : Tidy ex' :=
  foldlM_inv (p := Tidy) (fun _ op _ _ applied tidy => .op prog op tidy applied) h tidy

/-- Between two calls the cursor is at the top. -/
theorem Tidy.top {ex : Executor W} (tidy : Tidy ex) : ex.scheduler.currDepth = 0 := by
  induction tidy with
  | start => rfl
  | op prog op _ applied ih => exact execOp_top applied ih
  | cycle prog fuel input exit before alone returned ih =>
    by_cases failed : exit = .err
    · subst failed
      rcases cycle_ok prog returned with ⟨-, nodes⟩ | ⟨no, -⟩
      · rcases runNodes_ok prog nodes with ⟨-, polls⟩ | ⟨now, polled, -, loop⟩
        · rw [(Steady.of_poll polls).currDepth]
          exact ih
        · cases loop.exit_ne_err rfl
      · cases no
    · exact ((finished_atRest_iff before.reachable.schedulerWF returned failed).mpr alone).top

/-! ## No event is lost -/

/-- The node is queued or has run in this cycle. -/
def Served (ex : Executor W) (i : NodeIndex) : Prop := i ∈ ex.scheduler.entries ∨ i ∈ ex.runs.map (·.index)

/-- The node that a turn takes out of the queue runs in that turn. -/
theorem Served.run {now : CycleTime} {i j : NodeIndex} {s : Scheduler} {ex mid : Executor W} {run : Run}
    (served : ex.Served i) (wf : ex.scheduler.WF) (popped : ex.scheduler.pop = (some j, s))
    (ran : graphCycle prog now j { ex with scheduler := s } = .ok (run, mid)) :
    (mid.recordRun run).Served i := by
  have code := graphCycle_run prog ran
  have runs : mid.runs = ex.runs := (frame_of_run code).runs
  obtain ⟨ctx, -, rfl, -, -⟩ := graphCycle_ok prog ran
  have recorded : (mid.recordRun run).runs = run :: ex.runs := congrArg (run :: ·) runs
  rw [Served, recorded, List.map_cons, List.mem_cons]
  rcases served with queued | before
  · rcases ((Scheduler.pop_some wf popped).mem_iff i).mp queued with left | rfl
    · exact .inl (show i ∈ mid.scheduler.entries from mem_entries_code code left)
    · exact .inr (.inl rfl)
  · exact .inr (.inr before)

/-- A loop that ends with nothing queued has run every node it was to serve. -/
theorem Loop.serves {now : CycleTime} {exit : Exit} {i : NodeIndex} {ex ex' : Executor W}
    (h : Loop prog now ex exit ex') (wf : ex.scheduler.WF) (rests : ex'.scheduler.AtRest)
    (served : ex.Served i) : i ∈ ex'.runs.map (·.index) := by
  have settle : ∀ s : Executor W, s.scheduler.entries = [] → s.Served i → i ∈ s.runs.map (·.index) := by
    intro s empty served
    rcases served with queued | ran
    · rw [empty] at queued
      cases queued
    · exact ran
  induction h with
  | finished step =>
    obtain ⟨s, popped, rfl⟩ := nodeStep_finished prog step
    have settled := settle _ (Scheduler.pop_none wf popped).2 served
    exact settled
  | terminated step =>
    obtain ⟨j, s, run, mid, popped, ran, -, rfl⟩ := nodeStep_terminated prog step
    exact settle _ rests.entries_nil (served.run wf popped ran)
  | again step _ ih =>
    have path := nodeStep_path (.inr (.inr step))
    obtain ⟨j, s, run, mid, popped, ran, -, handled⟩ := nodeStep_again prog step
    apply ih (Path.schedulerWF path wf) rests
    have after := served.run wf popped ran
    rw [Served, (Steady.of_handleControl handled).runs]
    exact after.imp (mem_entries_of_queues (queue_handleControl handled)) id

/-- After a poll from the top with a new epoch, whatever was queued still is, and so is
every live node that an internal event woke. -/
theorem poll_queues {input : CycleInput} {t : Option CycleTime} {ex ex' : Executor W} {i : NodeIndex}
    (top : ex.scheduler.currDepth = 0)
    (fresh : ∀ i ctx, ex.beginCycle.graph.nodeWeight i = some ctx → ctx.schedEpoch ≠ ex.beginCycle.epoch)
    (h : poll input ex.beginCycle = .ok (t, ex'))
    (woken : i ∈ ex.scheduler.entries ∨ i ∈ (internalSeeds input ex).map (·.index) ∧
      (ex.graph.nodeWeight i).isSome) :
    i ∈ ex'.scheduler.entries := by
  have opening : Tally ex.scheduler.entries [] ex.beginCycle := Tally.start fresh rfl
  have tally := opening.poll top h
  have steady := Steady.of_poll h
  have idle : ex'.runs = [] := steady.runs
  have live : (ex'.graph.nodeWeight i).isSome = (ex.graph.nodeWeight i).isSome := by
    have same := steady.graph.core i
    simp only [Graph.core] at same
    rw [← Option.isSome_map, same, Option.isSome_map]
    rfl
  have total := tally.counted i
  rw [idle, live] at total
  simp only [List.map_nil, List.count_nil, Nat.add_zero, List.nil_append] at total
  rw [← List.count_pos_iff, total]
  rcases woken with before | ⟨seed, here⟩
  · have := List.count_pos_iff.mpr before
    omega
  · have offered : i ∈ (if t.isSome then seeds input ex.beginCycle else internalSeeds input ex.beginCycle).map
        (·.index) := by
      split
      · exact List.mem_map.mpr (by
          obtain ⟨r, member, same⟩ := List.mem_map.mp seed
          exact ⟨r, List.mem_append_left _ member, same⟩)
      · exact seed
    rw [if_pos ⟨offered, here⟩]
    omega

/-- In a run in which nodes terminate only when they are alone: no cycle panics on a refusal;
a cycle that returns `Ok` ends at rest, as long as it goes on like this; and then a node that
is queued already, or is woken by a notification, a yield or a timer, runs in that cycle, or
stays queued if the I/O poll fails. -/
theorem finished_cycles_rest {ex : Executor W} (tidy : Tidy ex) (prog : Program W) (fuel : Nat)
    (input : CycleInput) :
    Fails (fun f => ¬ f.Refused) (cycle prog fuel input ex) ∧
    ∀ exit ex', cycle prog fuel input ex = .ok (exit, ex') →
      (exit ≠ .err → (ex'.scheduler.AtRest ↔ HaltsAlone prog input ex)) ∧
      (HaltsAlone prog input ex → ex.cycles + 1 < 2 ^ 64 → ∀ i, i ∈ ex.scheduler.entries ∨
          i ∈ (internalSeeds input ex).map (·.index) ∧ (ex.graph.nodeWeight i).isSome →
        if exit = .err then i ∈ ex'.scheduler.entries else i ∈ ex'.runs.map (·.index)) := by
  have top := tidy.top
  have wf := tidy.reachable.schedulerWF
  refine ⟨cycle_unrefused top, fun exit ex' returned => ?_⟩
  have finishes := fun finished => finished_atRest_iff wf returned finished
  refine ⟨finishes, fun alone few i woken => ?_⟩
  have fresh := (tidy.reachable.stamped (by omega)).fresh few
  have serve : ∀ {exit : Exit} {last : Executor W}, runNodes prog fuel input ex = .ok (exit, last) →
      (exit ≠ .err → last.scheduler.AtRest) →
      if exit = .err then i ∈ last.scheduler.entries else i ∈ last.runs.map (·.index) := by
    intro exit last nodes rests
    rcases runNodes_ok prog nodes with ⟨rfl, polls⟩ | ⟨now, polled, polls, loop⟩
    · rw [if_pos rfl]
      exact poll_queues top fresh polls woken
    · rw [if_neg loop.exit_ne_err]
      have wf' := Path.schedulerWF (.head .begin (poll_path polls)) wf
      exact loop.serves wf' (rests loop.exit_ne_err) (.inl (poll_queues top fresh polls woken))
  rcases cycle_ok prog returned with ⟨-, nodes⟩ | ⟨rfl, mid, swept, nodes, sweeps, spawns⟩
  · exact serve nodes fun finished => (finishes finished).mpr alone
  · have served := serve nodes fun _ => runNodes_atRest prog wf nodes
    rw [if_neg (by decide)] at served ⊢
    rwa [runs_runSpawns spawns, runs_sweepLoop sweeps]

/-- A source that broadcasts; every other node terminates. -/
def halting : Program Unit where
  cycleFn _ _ k := ([], .ret (if k = 0 then .broadcast else .terminate))
  onDrop _ _ := []
  spawnFn _ _ := []

/-- A node at the top that terminates alone. -/
theorem halting_finished_cycles_rest :
    ∃ ex ex', bare.execOps halting [.build { index := 0 }, .build { index := 1 },
      .driver (.yieldNow (.node 1))] = .ok ex ∧
      cycle halting 3 instantly ex = .ok (.terminated, ex') ∧ HaltsAlone halting instantly ex ∧
      ex'.scheduler.AtRest ∧
      1 ∈ ex'.runs.map (·.index) := by
  obtain ⟨ex, ex', polled, last, built, returned, polls, step, alone⟩ : ∃ ex ex' polled last,
      bare.execOps halting [.build { index := 0 }, .build { index := 1 },
        .driver (.yieldNow (.node 1))] = .ok ex ∧
      cycle halting 3 instantly ex = .ok (.terminated, ex') ∧
      poll instantly ex.beginCycle = .ok (some instantly.first, polled) ∧
      nodeStep halting instantly.first polled = .ok (.terminated last) ∧
      Alone halting instantly.first polled :=
    ⟨_, _, _, _, rfl, rfl, rfl, rfl, by decide, rfl, rfl⟩
  have haltsAlone : HaltsAlone halting instantly ex := by
    intro now polled' mid polls' turns _
    rw [polls] at polls'
    cases polls'
    rcases turns.cases_head with rfl | ⟨next, again, -⟩
    · exact alone
    · rw [step] at again
      cases again
  have rests := (finished_cycles_rest (.ops (.start ..) built) halting 3 instantly).2 _ _ returned
  cases built
  exact ⟨_, ex', rfl, returned, haltsAlone, (rests.1 (by decide)).mpr haltsAlone,
    rests.2 haltsAlone (by decide) 1 (.inr ⟨by decide, rfl⟩)⟩

/-- A child terminates, which leaves the cursor below its parent. In the next cycle a
notification of the parent is a panic, and a yield of the parent is lost. -/
theorem terminated_child_blocks_parent :
    ∃ ex ex' : Executor Unit, Reachable (fun _ => True) ex ∧ ex.All Event.ParentsPresent ∧
      ex.All Event.ManualPresent ∧
      ¬ ex.scheduler.AtRest ∧
      (do cycle halting 3 instantly (← ex.execOps halting [.handle (.notify (.node 0))])) =
      .error .expectNotification ∧
      (do cycle halting 3 instantly (← ex.execOps halting [.driver (.yieldNow (.node 0))])) =
      .ok (.running, ex') ∧
      ex'.runs = [] :=
  have played : bare.play halting 3 [(relayOps, instantly)] = .ok ([.terminated], _) := rfl
  ⟨_, _, (Reachable.initial ..).play played (fun _ _ => trivial), by decide, by decide,
    fun rests => absurd rests.top (by decide),
    rfl, rfl, rfl⟩

end Executor
end Wavelet
