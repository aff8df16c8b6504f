import Wavelet.Cycle.Books
import Wavelet.Cycle.Life
import Wavelet.Runtime.World

/-!
# Mutation epochs

A node that returns `Broadcast` is stamped with the epoch of the cycle, and nothing else
writes the stamp. So as long as the epoch does not wrap around, `has_mutated` says in every
state of a node loop which nodes have broadcast in it.
-/

namespace Wavelet
namespace Executor

variable {W : Type} {prog : Program W}

/-- `ExecutionContext::has_mutated`. -/
def hasMutated (ex : Executor W) (ctx : ExecutionContext) (k : Key) : Bool :=
  decide ((ex.inner k).mutEpoch = ctx.epoch)

/-- Node `k` has broadcast in the current cycle. -/
def HasBroadcast (ex : Executor W) (k : Key) : Prop :=
  ∃ run ∈ ex.runs, run.node = k ∧ run.verdict = .returned .broadcast

instance (ex : Executor W) (k : Key) : Decidable (ex.HasBroadcast k) :=
  inferInstanceAs (Decidable (∃ run ∈ ex.runs, _))

/-! ## Who writes the stamp -/

theorem mutEpoch_callCycleFn {now : CycleTime} {i : NodeIndex} {fn : CycleFn} {ex ex' : Executor W}
    {v : Verdict} (h : callCycleFn prog now i fn ex = .ok (v, ex'))
    (built : fn.state < ex.inners.length) (k : Key) :
    (ex'.inner k).mutEpoch = if fn.state = k ∧
      v = .returned .broadcast then ex.epoch else (ex.inner k).mutEpoch := by
  obtain ⟨answer, finished, after, -, applied, ends⟩ := callCycleFn_ok prog h
  have same : after.inners = ex.inners := by
    have effects := @inners_applyEffects _ prog answer.1 ex
    rwa [applied] at effects
  have epoch : after.epoch = ex.epoch := by
    have frame := frame_of_run (applyEffects_run prog ex answer.1)
    rw [applied] at frame
    exact frame.epoch
  have kept := inner_of_inners same k
  rcases ends with ⟨control, rfl, -, -, rfl⟩ | ⟨rfl, rfl, -⟩
  · by_cases broadcast : control = .broadcast
    · subst broadcast
      rw [if_pos rfl, epoch]
      by_cases own : fn.state = k
      · subst own
        rw [if_pos ⟨rfl, rfl⟩]
        show ((after.inners.set fn.state _).getD fn.state .uninitialized).mutEpoch = _
        rw [List.getD_eq_getElem?_getD, List.getElem?_set_self (by rw [same]; exact built)]
        rfl
      · rw [if_neg fun both => own both.1]
        show ((after.inners.set fn.state _).getD k .uninitialized).mutEpoch = _
        rw [List.getD_eq_getElem?_getD, List.getElem?_set_ne own, ← List.getD_eq_getElem?_getD]
        exact congrArg NodeInner.mutEpoch kept
    · rw [if_neg broadcast, if_neg (fun both => broadcast (Verdict.returned.inj both.2)), kept]
  · rw [if_neg (fun both => by cases both.2), kept]

/-- A run stamps its own node, if it broadcasts. -/
theorem mutEpoch_graphCycle {now : CycleTime} {i : NodeIndex} {ex ex' : Executor W} {run : Run}
    (h : graphCycle prog now i ex = .ok (run, ex')) (built : run.node < ex.inners.length) (k : Key) :
    (ex'.inner k).mutEpoch =
      if run.node = k ∧ run.verdict = .returned .broadcast then ex.epoch else (ex.inner k).mutEpoch := by
  obtain ⟨ctx, -, -, node, poisoned | spawned | closed | dead⟩ := graphCycle_cases prog h
  · obtain ⟨-, verdict, rfl⟩ := poisoned
    rw [verdict, if_neg fun both => by cases both.2]
  · rw [node] at built ⊢
    exact mutEpoch_callCycleFn spawned.2.2 built k
  · obtain ⟨-, -, -, mid, called, rfl⟩ := closed
    rw [inner_of_inners (inners_of_handleRun (dropHandle_run prog ..))]
    rw [node] at built called ⊢
    exact mutEpoch_callCycleFn called built k
  · obtain ⟨-, -, -, verdict, rfl⟩ := dead
    rw [verdict, if_neg fun both => by cases both.2]

/-! ## Along a node loop -/

/-- The stamps of the current epoch are those of the nodes that have broadcast in it. -/
def Truthful (ex : Executor W) : Prop := ∀ k, (ex.inner k).mutEpoch = ex.epoch ↔ ex.HasBroadcast k

/-- No stamp is later than the epoch. -/
def Dated (ex : Executor W) : Prop := ∀ k, (ex.inner k).mutEpoch ≤ ex.epoch

theorem mutEpoch_turn {now : CycleTime} {ex ex' : Executor W} (inPlace : ex.InPlace)
    (h : nodeStep prog now ex = .ok (.again ex')) :
    ex'.epoch = ex.epoch ∧ ∃ run, ex'.runs = run :: ex.runs ∧ ∀ k, (ex'.inner k).mutEpoch =
      if run.node = k ∧ run.verdict = .returned .broadcast then ex.epoch else (ex.inner k).mutEpoch := by
  obtain ⟨i, s, run, mid, popped, ran, -, handled⟩ := nodeStep_again prog h
  have frame := frame_of_run (graphCycle_run prog ran)
  have steady := Steady.of_handleControl handled
  have built : run.node < ({ ex with scheduler := s } : Executor W).inners.length := by
    obtain ⟨ctx, there, -, node, -⟩ := graphCycle_ok prog ran
    have placed := inPlace _ _ _ (Graph.core_of_nodeWeight there)
    rw [node]
    exact placed.1
  refine ⟨steady.epoch.trans frame.epoch, run, ?_, fun k => ?_⟩
  · rw [steady.runs]
    exact congrArg (run :: ·) frame.runs
  · rw [inner_of_inners (inners_handleControl handled)]
    exact mutEpoch_graphCycle ran built k

theorem Truthful.turn {now : CycleTime} {ex ex' : Executor W} (truthful : ex.Truthful) (inPlace : ex.InPlace)
    (h : nodeStep prog now ex = .ok (.again ex')) : ex'.Truthful := by
  obtain ⟨epoch, run, runs, stamps⟩ := mutEpoch_turn inPlace h
  intro k
  have before := truthful k
  rw [stamps, epoch, HasBroadcast, runs]
  simp only [List.mem_cons, exists_eq_or_imp]
  split
  · rename_i own
    simp [own]
  · rename_i other
    rw [before, HasBroadcast]
    simp only [other, false_or]

theorem Dated.turn {now : CycleTime} {ex ex' : Executor W} (dated : ex.Dated) (inPlace : ex.InPlace)
    (h : nodeStep prog now ex = .ok (.again ex')) : ex'.Dated := by
  obtain ⟨epoch, run, -, stamps⟩ := mutEpoch_turn inPlace h
  intro k
  rw [stamps, epoch]
  split
  · exact Nat.le_refl _
  · exact dated k

theorem inners_poll {input : CycleInput} {t : Option CycleTime} {ex ex' : Executor W}
    (h : poll input ex = .ok (t, ex')) :
    ex'.inners = ex.inners := by
  refine poll_inv (p := fun s : Executor W => s.inners = ex.inners) (fun _ _ same => same)
    (fun source r s s' fired same => ?_) h rfl
  obtain ⟨o, mid, offered, -, rfl⟩ := fire_ok fired
  exact (inners_offer offered).trans same

theorem inners_sweepLoop {fuel : Nat} {ex ex' : Executor W} (h : sweepLoop prog fuel ex = .ok ex') :
    ex'.inners = ex.inners := by
  induction fuel generalizing ex with
  | zero => cases h
  | succ fuel ih =>
    rw [sweepLoop] at h
    split at h
    · cases h; rfl
    · rename_i r rest front
      rw [ih h]
      unfold removeNode
      split
      · rfl
      · rw [inners_of_handleRun (dropOwner_run ..), inners_of_handleRun (dropOwner_run ..)]
        rfl

theorem epoch_sweepLoop {fuel : Nat} {ex ex' : Executor W} (h : sweepLoop prog fuel ex = .ok ex') :
    ex'.epoch = ex.epoch := by
  induction fuel generalizing ex with
  | zero => cases h
  | succ fuel ih =>
    rw [sweepLoop] at h
    split at h
    · cases h; rfl
    · rename_i r rest front
      rw [ih h]
      unfold removeNode
      split
      · rfl
      · rw [(frame_of_run (dropOwner_run ..).code).epoch, (frame_of_run (dropOwner_run ..).code).epoch]
        rfl

theorem epoch_begin {ex : Executor W} (stamped : ex.Stamped) (few : ex.cycles + 1 < 2 ^ 64) :
    ex.beginCycle.epoch = ex.epoch + 1 :=
  Nat.mod_eq_of_lt (by rw [stamped.epoch]; exact few)

/-- A cycle of a new epoch starts with true stamps. -/
theorem Dated.begin {ex : Executor W} (dated : ex.Dated) (stamped : ex.Stamped)
    (few : ex.cycles + 1 < 2 ^ 64) :
    ex.beginCycle.Truthful := by
  intro k
  have old : (ex.beginCycle.inner k).mutEpoch ≤ ex.epoch := dated k
  constructor
  · intro same
    rw [epoch_begin stamped few] at same
    omega
  · rintro ⟨run, no, -⟩
    cases no

theorem Truthful.poll {input : CycleInput} {t : Option CycleTime} {ex ex' : Executor W}
    (truthful : ex.Truthful) (h : Executor.poll input ex = .ok (t, ex')) : ex'.Truthful := by
  have steady := Steady.of_poll h
  intro k
  rw [inner_of_inners (inners_poll h), steady.epoch, HasBroadcast, steady.runs]
  exact truthful k

theorem Turns.kept {p : Executor W → Prop} {now : CycleTime} {ex ex' : Executor W} (inPlace : ex.InPlace)
    (turn : ∀ s s', s.InPlace → nodeStep prog now s = .ok (.again s') → p s → p s')
    (turns : Turns prog now ex ex') (start : p ex) :
    p ex' := by
  induction turns with
  | refl => exact start
  | tail before step ih => exact turn _ _ (Path.inPlace (Turns.path before) inPlace) step ih

/-- What a loop has made turns to: it finds nothing more to pop, or a node terminates it. -/
theorem Loop.ends {now : CycleTime} {exit : Exit} {ex ex' : Executor W} (h : Loop prog now ex exit ex') :
    ∃ mid, Turns prog now ex mid ∧ (exit = .running ∧ nodeStep prog now mid = .ok (.finished ex') ∨
      exit = .terminated ∧ nodeStep prog now mid = .ok (.terminated ex')) := by
  induction h with
  | finished step => exact ⟨_, .refl, .inl ⟨rfl, step⟩⟩
  | terminated step => exact ⟨_, .refl, .inr ⟨rfl, step⟩⟩
  | again step _ ih =>
    obtain ⟨mid, turns, ends⟩ := ih
    exact ⟨mid, .head step turns, ends⟩

theorem Loop.turns {now : CycleTime} {ex ex' : Executor W} (h : Loop prog now ex .running ex') :
    ∃ mid s, Turns prog now ex mid ∧ mid.scheduler.pop = (none, s) ∧ ex' = { mid with scheduler := s } := by
  obtain ⟨mid, turns, ⟨-, step⟩ | ⟨no, -⟩⟩ := h.ends
  · obtain ⟨s, popped, same⟩ := nodeStep_finished prog step
    exact ⟨mid, s, turns, popped, same⟩
  · cases no

/-- A pass polls and makes turns until there is nothing more to pop. -/
theorem Pass.loop {fuel : Nat} {input : CycleInput} {ex last swept : Executor W}
    (pass : Pass prog fuel input ex last swept) :
    ∃ now polled final s, poll input ex.beginCycle = .ok (some now, polled) ∧ Turns prog now polled final ∧
      final.scheduler.pop = (none, s) ∧ last = { final with scheduler := s } := by
  rcases runNodes_ok prog pass.nodes with ⟨no, -⟩ | ⟨now, polled, polls, loop⟩
  · cases no
  · obtain ⟨final, s, turns, popped, same⟩ := loop.turns
    exact ⟨now, polled, final, s, polls, turns, popped, same⟩

theorem returned_of_terminate {v : Verdict} (h : v.control = .terminate) : v = .returned .terminate := by
  cases v with
  | returned control => exact congrArg _ h
  | _ => cases h

/-- The turn of the node that terminates a loop: the state right after its run, and the last one. -/
structure LastTurn (prog : Program W) (now : CycleTime) (before : Executor W) (run : Run)
    (ran last : Executor W) : Prop where
  step : nodeStep prog now before = .ok (.terminated last)
  cycled : ∃ s, before.scheduler.pop = (some run.index, s) ∧
    graphCycle prog now run.index { before with scheduler := s } = .ok (run, ran)
  verdict : run.verdict = .returned .terminate
  ended : last = (ran.recordRun run).log .terminated

theorem lastTurn_terminated {now : CycleTime} {before last : Executor W}
    (h : nodeStep prog now before = .ok (.terminated last)) :
    ∃ run ran, LastTurn prog now before run ran last := by
  obtain ⟨i, s, run, ran, popped, cycled, ends, ended⟩ := nodeStep_terminated prog h
  obtain ⟨ctx, -, rfl, -, -⟩ := graphCycle_ok prog cycled
  exact ⟨run, ran, h, ⟨s, popped, cycled⟩, returned_of_terminate ends, ended⟩

namespace LastTurn

variable {now : CycleTime} {before ran last : Executor W} {run : Run}

theorem runs (turn : LastTurn prog now before run ran last) : last.runs = run :: before.runs := by
  obtain ⟨-, ⟨s, -, cycled⟩, -, rfl⟩ := turn
  exact congrArg (run :: ·) (frame_of_run (graphCycle_run prog cycled)).runs

theorem epoch (turn : LastTurn prog now before run ran last) : last.epoch = before.epoch := by
  obtain ⟨-, ⟨s, -, cycled⟩, -, rfl⟩ := turn
  exact (frame_of_run (graphCycle_run prog cycled)).epoch

theorem occupant (turn : LastTurn prog now before run ran last) : before.keyAt run.index = some run.node := by
  obtain ⟨-, ⟨s, -, cycled⟩, -, -⟩ := turn
  obtain ⟨ctx, there, -, node, -⟩ := graphCycle_ok prog cycled
  replace there : before.graph.nodeWeight run.index = some ctx := there
  rw [keyAt, there, node]
  rfl

/-- It stamps no node. -/
theorem mutEpoch (turn : LastTurn prog now before run ran last) (inPlace : before.InPlace) (k : Key) :
    (last.inner k).mutEpoch = (before.inner k).mutEpoch := by
  have placed := (InPlace.of_keyAt inPlace turn.occupant).1
  obtain ⟨-, ⟨s, -, cycled⟩, verdict, rfl⟩ := turn
  exact (mutEpoch_graphCycle cycled placed k).trans (if_neg fun both => by simp [verdict] at both)

/-- Nobody broadcasts in it. -/
theorem hasBroadcast_iff (turn : LastTurn prog now before run ran last) (k : Key) :
    last.HasBroadcast k ↔ before.HasBroadcast k := by
  rw [HasBroadcast, turn.runs, HasBroadcast]
  simp [turn.verdict]

end LastTurn

/-- However a cycle ends its node loop, no stamp is later than the epoch. -/
theorem runNodes_dated {fuel : Nat} {input : CycleInput} {exit : Exit} {ex ex' : Executor W}
    (h : runNodes prog fuel input ex = .ok (exit, ex')) (inPlace : ex.InPlace)
    (stamped : ex.Stamped) (few : ex.cycles + 1 < 2 ^ 64) (dated : ex.Dated) : ex'.Dated := by
  have begun : ∀ {t polled}, poll input ex.beginCycle = .ok (t, polled) → polled.Dated := by
    intro t polled polls k
    rw [inner_of_inners (inners_poll polls), (Steady.of_poll polls).epoch, epoch_begin stamped few]
    exact Nat.le_succ_of_le (dated k)
  rcases runNodes_ok prog h with ⟨-, failed⟩ | ⟨now, polled, polls, loop⟩
  · exact begun failed
  · obtain ⟨mid, turns, ends⟩ := loop.ends
    have placed : polled.InPlace := Path.inPlace (.head .begin (poll_path polls)) inPlace
    have after : mid.Dated :=
      turns.kept placed (fun _ _ inPlace step dated => dated.turn inPlace step) (begun polls)
    rcases ends with ⟨-, finished⟩ | ⟨-, terminated⟩
    · obtain ⟨s, -, rfl⟩ := nodeStep_finished prog finished
      exact after
    · obtain ⟨run, ran, turn⟩ := lastTurn_terminated terminated
      intro k
      rw [turn.mutEpoch (Path.inPlace (Turns.path turns) placed), turn.epoch]
      exact after k

theorem Pass.dated {fuel : Nat} {input : CycleInput} {ex last swept : Executor W}
    (pass : Pass prog fuel input ex last swept) (inPlace : ex.InPlace) (stamped : ex.Stamped)
    (few : ex.cycles + 1 < 2 ^ 64) (dated : ex.Dated) : swept.Dated := by
  intro k
  rw [inner_of_inners (inners_sweepLoop pass.sweeps), epoch_sweepLoop pass.sweeps]
  exact runNodes_dated pass.nodes inPlace stamped few dated k

theorem Dated.op {op : ExecOp W} {ex ex' : Executor W} (dated : ex.Dated)
    (h : ex.execOp prog op = .ok ex') : ex'.Dated := by
  cases op with
  | handle op =>
    cases h
    have run := handleOp_run prog ex op
    intro k
    rw [inner_of_inners (inners_of_handleRun run), (frame_of_run run.code).epoch]
    exact dated k
  | driver op =>
    simp only [execOp] at h
    split at h
    · rename_i next applied
      cases h
      intro k
      rw [inner_of_inners (inners_driverOp applied), (frame_of_run (driverOp_run applied)).epoch]
      exact dated k
    · cases h
  | build args =>
    obtain ⟨depth, graph, handles, -, -, -, rfl, -⟩ := build_ok h
    intro k
    show ((ex.insertNode args depth graph).inner k).mutEpoch ≤ ex.epoch
    rw [inner_insertNode]
    split
    · exact Nat.zero_le _
    · exact dated k

/-- A node loop begins one cycle. -/
theorem runNodes_counted {fuel : Nat} {input : CycleInput} {exit : Exit} {ex ex' : Executor W}
    (h : runNodes prog fuel input ex = .ok (exit, ex')) : ex.cycles + 1 ≤ ex'.cycles := by
  have begun : ex.beginCycle.cycles = ex.cycles + 1 := List.count_cons_self
  rw [← begun]
  rcases runNodes_ok prog h with ⟨-, failed⟩ | ⟨now, polled, polls, loop⟩
  · exact Path.cycles_le (poll_path failed)
  · exact Path.cycles_le ((poll_path polls).trans loop.path)

theorem Pass.cycles_lt {fuel : Nat} {input : CycleInput} {ex last swept : Executor W}
    (pass : Pass prog fuel input ex last swept) (wf : ex.scheduler.WF) {n : Nat}
    (few : swept.cycles < n) : ex.cycles + 1 < n := by
  have counted := runNodes_counted pass.nodes
  have later : last.cycles ≤ swept.cycles := Path.cycles_le (pass.path wf).2
  omega

/-- Between two cycles there is no stamp of a cycle to come. -/
theorem From.dated {exits : Exit → Prop} {ex : Executor W} (here : ex.From exits)
    (few : ex.cycles < 2 ^ 64) : ex.Dated := by
  obtain ⟨history, life⟩ := here
  induction life with
  | start here =>
    obtain ⟨cfg, mode, world, rfl⟩ := here
    exact fun k => Nat.zero_le _
  | @op prog op history ex ex' before _ _ applied ih =>
    exact (ih (Nat.lt_of_le_of_lt (Path.cycles_le (execOp_path prog applied)) few)).op applied
  | opens tickets before ih => exact ih few
  | @closes prog ticket history ex before _ ih =>
    have run := dropOwner_run prog ex (.spawn ticket)
    have fewer := ih (Nat.lt_of_le_of_lt (Path.cycles_le (CodeRun.path run.code)) few)
    intro k
    rw [inner_of_inners (inners_of_handleRun run), (frame_of_run run.code).epoch]
    exact fewer k
  | @pass prog fuel input history ex last swept before _ pass _ ih =>
    have here : ex.From exits := ⟨_, before⟩
    have fewer := pass.cycles_lt here.wf few
    exact pass.dated here.inPlace (here.stamped (by omega)) (by omega) (ih (by omega))
  | @stopped prog fuel input exit history ex ex' before _ _ _ nodes _ ih =>
    have here : ex.From exits := ⟨_, before⟩
    have counted := runNodes_counted nodes
    exact runNodes_dated nodes here.inPlace (here.stamped (by omega)) (by omega) (ih (by omega))

end Executor
end Wavelet
