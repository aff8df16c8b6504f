import Wavelet.Cycle.Course

/-!
# The account of one node

What a node loop owes to a single node, whatever becomes of the others: the node has the
stamp of the epoch exactly if something woke it, an event of the cycle or a run with an edge
to it, and once it is stamped it is queued or has run, or the cursor is below it already. The
books of the whole loop need every edge to go down; the account needs it of none.
-/

namespace Wavelet
namespace Executor

variable {W : Type} {prog : Program W} {now : CycleTime}

/-- The node in slot `i` carries the stamp of the current epoch. -/
def StampedAt (ex : Executor W) (i : NodeIndex) : Prop :=
  ∃ ctx, ex.graph.nodeWeight i = some ctx ∧ ctx.schedEpoch = ex.epoch

/-- The index waits in the queues, or has run in this cycle. -/
def Attended (ex : Executor W) (i : NodeIndex) : Prop :=
  i ∈ ex.scheduler.entries ∨ ∃ run ∈ ex.runs, run.index = i

structure Account (i : NodeIndex) (woken : Prop) (ex : Executor W) : Prop where
  stamped : ex.StampedAt i ↔ woken
  served : woken → ex.Attended i ∨ ex.graph.depthAt i < ex.scheduler.currDepth

namespace Account

variable {i : NodeIndex} {woken : Prop} {ex ex' : Executor W}

theorem stampedAt_offer {c : NodeIndex} {o : Offer} (h : ex.offer c = some (o, ex'))
    (live : (ex.graph.nodeWeight i).isSome) :
    ex'.StampedAt i ↔ ex.StampedAt i ∨ c = i := by
  obtain ⟨w, here⟩ := Option.isSome_iff_exists.mp live
  have stamps : ∀ {ctx : NodeContext}, ex.graph.nodeWeight c = some ctx →
      ((∃ ctx', (ex.graph.setWeight c { ctx with schedEpoch := ex.epoch }).nodeWeight i = some ctx' ∧
        ctx'.schedEpoch = ex.epoch) ↔
        ex.StampedAt i ∨ c = i) := by
    intro ctx there
    rw [Graph.nodeWeight_setWeight there]
    by_cases same : i = c
    · subst same
      simp
    · simp [same, Ne.symm same, StampedAt]
  rcases offer_cases h with ⟨-, rfl, vacant⟩ | ⟨ctx, there, seen, -, rfl⟩ |
    ⟨ctx, there, -, -, -, rfl⟩ | ⟨ctx, there, -, -, -, -, rfl⟩
  · refine (or_iff_left ?_).symm
    rintro rfl
    rw [here] at vacant
    cases vacant
  · refine (or_iff_left_of_imp ?_).symm
    rintro rfl
    exact ⟨ctx, there, seen⟩
  · exact stamps there
  · exact stamps there

/-- An offer to the node wakes it; an offer to another one leaves it alone. -/
theorem offer {c : NodeIndex} {o : Offer} (account : Account i woken ex)
    (live : (ex.graph.nodeWeight i).isSome) (h : ex.offer c = some (o, ex')) :
    Account i (woken ∨ c = i) ex' := by
  obtain ⟨stamped, served⟩ := account
  obtain ⟨depth, -, runs, -⟩ := offer_rest h
  have kept : ex.Attended i ∨ ex.graph.depthAt i < ex.scheduler.currDepth →
      ex'.Attended i ∨ ex'.graph.depthAt i < ex'.scheduler.currDepth := by
    rw [depth, (offer_same h).depthAt]
    apply Or.imp_left
    rintro (queued | ran)
    · exact .inl (mem_entries_offer h queued)
    · right
      rwa [runs]
  constructor
  · rw [stampedAt_offer h live, stamped]
  · rintro (before | rfl)
    · exact kept (served before)
    · rcases offer_cases h with ⟨-, -, vacant⟩ | ⟨ctx, there, seen, -, -⟩ |
        ⟨ctx, there, -, above, -, -⟩ | ⟨ctx, there, -, -, bound, -, rfl⟩
      · rw [vacant] at live
        cases live
      · exact kept (served (stamped.mp ⟨ctx, there, seen⟩))
      · right
        rwa [depth, (offer_same h).depthAt, Graph.depthAt_of_core (Graph.core_of_nodeWeight there)]
      · exact .inl (.inl ((Scheduler.mem_enqueue bound ..).mpr (.inr rfl)))

/-- What the account reads is left alone. -/
theorem congr (account : Account i woken ex) (graph : ex'.graph = ex.graph) (epoch : ex'.epoch = ex.epoch)
    (scheduler : ex'.scheduler = ex.scheduler) (runs : ex'.runs = ex.runs) : Account i woken ex' := by
  obtain ⟨stamped, served⟩ := account
  constructor
  · rwa [StampedAt, graph, epoch]
  · rwa [Attended, graph, scheduler, runs]

theorem markPoisoned {c : NodeIndex} (account : Account i woken ex)
    (h : ex.markPoisoned c = .ok ex') : Account i woken ex' := by
  obtain ⟨stamped, served⟩ := account
  have same := (Steady.of_markPoisoned h).graph
  obtain ⟨ctx, there, rfl⟩ := markPoisoned_ok h
  constructor
  · rw [← stamped]
    show (∃ w, (ex.graph.setWeight c { ctx with poisoned := true }).nodeWeight i = some w ∧
        w.schedEpoch = ex.epoch) ↔ _
    rw [Graph.nodeWeight_setWeight there]
    split
    · rename_i same
      subst same
      simp [StampedAt, there]
    · rfl
  · rw [same.depthAt]
    exact served

theorem spread {c : NodeIndex} (account : Account i woken ex) (live : (ex.graph.nodeWeight i).isSome)
    (h : ex.spread c = .ok ex') : Account i (woken ∨ c = i) ex' := by
  obtain ⟨o, mid, offered, rfl⟩ := spread_ok h
  exact (account.offer live offered).congr rfl rfl rfl rfl

theorem handleControl {run : Run} (account : Account i woken ex) (live : (ex.graph.nodeWeight i).isSome)
    (h : handleControl run ex = .ok ex') : Account i (woken ∨ i ∈ ex.graph.scheduledBy run) ex' := by
  have alive : ∀ {s : Executor W}, Steady ex s → (s.graph.nodeWeight i).isSome := by
    intro s steady
    rw [← Graph.isSome_core, steady.graph.core, Graph.isSome_core]
    exact live
  -- the children still to come are the part of the list that is not yet offered
  have grow : ∀ {w : Prop} {done : List NodeIndex} {c : NodeIndex} {s : Executor W},
      Account i ((w ∨ i ∈ done) ∨ c = i) s → Account i (w ∨ i ∈ done ++ [c]) s := by
    intro w done c s grown
    have same : (w ∨ i ∈ done ++ [c]) ↔ ((w ∨ i ∈ done) ∨ c = i) := by simp [or_assoc, eq_comm]
    rwa [same]
  unfold Executor.handleControl at h
  cases control : run.verdict.control with
  | broadcast =>
    have list : ex.graph.scheduledBy run = ex.graph.triggeringEdges run.index := by
      rw [Graph.scheduledBy, control]
    simp only [control] at h
    rw [list]
    have rest := Steps.foldlM_rest (p := fun l (s : Executor W) => Steady ex s ∧
        ∃ done, done ++ l = ex.graph.triggeringEdges run.index ∧ Account i (woken ∨ i ∈ done) s)
      (fun s c l s' _ spreading before => by
        obtain ⟨steady, done, split, account⟩ := before
        refine ⟨steady.trans (Steady.of_spread spreading), done ++ [c], by simpa using split, grow ?_⟩
        exact account.spread (alive steady) spreading) h ⟨.refl ex, [], rfl, by simpa using account⟩
    obtain ⟨-, done, split, last⟩ := rest
    rw [List.append_nil] at split
    rwa [split] at last
  | sweep =>
    have list : ex.graph.scheduledBy run = ex.graph.edges run.index := by rw [Graph.scheduledBy, control]
    simp only [control] at h
    rw [list]
    have rest := Steps.foldlM_rest (p := fun l (s : Executor W) => Steady ex s ∧
        ∃ done, done ++ l = ex.graph.edges run.index ∧ Account i (woken ∨ i ∈ done) s)
      (fun s c l s' _ both before => by
        obtain ⟨steady, done, split, account⟩ := before
        obtain ⟨mid, poisoned, spreading⟩ := Steps.bind_ok both
        have steady' := steady.trans (Steady.of_markPoisoned poisoned)
        refine ⟨steady'.trans (Steady.of_spread spreading), done ++ [c], by simpa using split, grow ?_⟩
        exact (account.markPoisoned poisoned).spread (alive steady') spreading) h
      ⟨⟨.refl _, rfl, rfl, rfl, rfl⟩, [],
        rfl, by simp only [List.not_mem_nil, or_false]; exact account.congr rfl rfl rfl rfl⟩
    obtain ⟨-, done, split, last⟩ := rest
    rw [List.append_nil] at split
    rwa [split] at last
  | unchanged =>
    simp only [control] at h
    cases h
    have none : ex.graph.scheduledBy run = [] := by rw [Graph.scheduledBy, control]
    simpa [none] using account
  | terminate =>
    simp only [control] at h
    cases h
    have none : ex.graph.scheduledBy run = [] := by rw [Graph.scheduledBy, control]
    simpa [none] using account

end Account

/-! ## Along the loop -/

/-- What wakes the node in slot `i`: an event of the cycle, or a run of a parent. -/
def Woken (seeded : Prop) (i : NodeIndex) (ex : Executor W) : Prop :=
  seeded ∨ ∃ run ∈ ex.runs, i ∈ ex.graph.scheduledBy run

/-- A node that is queued or has run stays so. -/
theorem Attended.ran {i : NodeIndex} {before ran after : Executor W} {run : Run}
    (attended : before.Attended i) (wf : before.scheduler.WF)
    (turn : TurnOf prog now before run ran after) : (ran.recordRun run).Attended i := by
  obtain ⟨s, popped, cycled⟩ := turn.cycled
  have code := graphCycle_run prog cycled
  have runs : ran.runs = before.runs := (frame_of_run code).runs
  rcases attended with waiting | ⟨r, member, here⟩
  · rcases ((Scheduler.pop_some wf popped).mem_iff i).mp waiting with left | own
    · have kept : i ∈ ran.scheduler.entries :=
        mem_entries_code code (left : i ∈ ({ before with scheduler := s } : Executor W).scheduler.entries)
      exact .inl kept
    · exact .inr ⟨run, List.mem_cons_self, own.symm⟩
  · right
    refine ⟨r, List.mem_cons_of_mem _ ?_, here⟩
    rwa [runs]

theorem Attended.turn {i : NodeIndex} {before ran after : Executor W} {run : Run}
    (attended : before.Attended i) (wf : before.scheduler.WF)
    (turn : TurnOf prog now before run ran after) : after.Attended i := by
  apply handleControl_inv (p := fun s : Executor W => s.Attended i) _ _ _ turn.handled (attended.ran wf turn)
  · intro s attended
    exact attended
  · intro c s s' poisoned attended
    obtain ⟨ctx, -, rfl⟩ := markPoisoned_ok poisoned
    exact attended
  · intro c s s' spreads attended
    obtain ⟨o, mid, offered, rfl⟩ := spread_ok spreads
    rcases attended with queued | ran
    · have kept : i ∈ mid.scheduler.entries := mem_entries_offer offered queued
      exact .inl kept
    · right
      show ∃ run ∈ mid.runs, _
      rwa [(offer_rest offered).2.2.1]

theorem Attended.turns {i : NodeIndex} {a b : Executor W} (attended : a.Attended i) (wf : a.scheduler.WF)
    (turns : Turns prog now a b) : b.Attended i := by
  induction turns with
  | refl => exact attended
  | tail before step ih =>
    obtain ⟨run, ran, turn⟩ := turnOf_again step
    exact ih.turn ((Turns.path before).schedulerWF wf) turn

theorem Account.turn {i : NodeIndex} {seeded : Prop} {before ran after : Executor W} {run : Run}
    (account : Account i (Woken seeded i before) before) (live : (before.graph.nodeWeight i).isSome)
    (wf : before.scheduler.WF) (turn : TurnOf prog now before run ran after) :
    Account i (Woken seeded i after) after := by
  obtain ⟨s, popped, cycled⟩ := turn.cycled
  have code := graphCycle_run prog cycled
  have frame := frame_of_run code
  have graph : ran.graph = before.graph := frame.graph
  have epoch : ran.epoch = before.epoch := frame.epoch
  have recorded : Account i (Woken seeded i before) (ran.recordRun run) := by
    constructor
    · show (∃ ctx, ran.graph.nodeWeight i = some ctx ∧ ctx.schedEpoch = ran.epoch) ↔ _
      rw [graph, epoch]
      exact account.stamped
    · intro woken
      rcases account.served woken with attended | past
      · exact .inl (attended.ran wf turn)
      · right
        show ran.graph.depthAt i < ran.scheduler.currDepth
        rw [graph, (Steady.of_code code).currDepth]
        exact Nat.lt_of_lt_of_le past (Scheduler.pop_some wf popped).low
  have listed : (ran.recordRun run).graph.scheduledBy run = before.graph.scheduledBy run :=
    congrArg (fun g => Graph.scheduledBy g run) graph
  have last :=
    recorded.handleControl (by show (ran.graph.nodeWeight i).isSome; rw [graph]; exact live) turn.handled
  rw [listed] at last
  have same : Woken seeded i after ↔ (Woken seeded i before ∨ i ∈ before.graph.scheduledBy run) := by
    simp only [Woken, turn.runs, List.mem_cons, exists_eq_or_imp, turn.same.scheduledBy]
    rw [or_assoc, or_comm (a := ∃ r ∈ before.runs, i ∈ before.graph.scheduledBy r)]
  rwa [same]

/-- After the poll the account is that of the events. -/
theorem Account.start {input : CycleInput} {ex polled : Executor W} {i : NodeIndex}
    (rests : ex.scheduler.AtRest) (stamped : ex.Stamped) (few : ex.cycles + 1 < 2 ^ 64)
    (live : (ex.graph.nodeWeight i).isSome) (polls : poll input ex.beginCycle = .ok (some now, polled)) :
    Account i (Woken (i ∈ (seeds input ex).map (·.index)) i polled) polled := by
  have idle : ex.beginCycle.scheduler.entries = [] := rests.entries_nil
  have clean : Tally [] [] ex.beginCycle := by
    have start : Tally ex.beginCycle.scheduler.entries [] ex.beginCycle := Tally.start (stamped.fresh few) rfl
    rwa [idle] at start
  have tally := clean.poll rests.top polls
  have steady := Steady.of_poll polls
  have same : ex.graph.Same polled.graph := steady.graph
  have none : polled.runs = [] := steady.runs
  have seeded : ∀ j, j ∈ [] ++
      ((if (some now).isSome then seeds input ex.beginCycle else internalSeeds input ex.beginCycle).map (·.index)) ↔
      j ∈ (seeds input ex).map (·.index) := fun j => Iff.rfl
  have here : (polled.graph.nodeWeight i).isSome := by
    rw [← Graph.isSome_core, same.core, Graph.isSome_core]
    exact live
  have woken : Woken (i ∈ (seeds input ex).map (·.index)) i polled ↔ i ∈ (seeds input ex).map (·.index) := by
    simp [Woken, none]
  rw [woken]
  constructor
  · obtain ⟨ctx, there⟩ := Option.isSome_iff_exists.mp here
    rw [← seeded, ← tally.stamped i ctx there]
    simp [StampedAt, there]
  · intro member
    left
    left
    have counted := tally.counted i
    rw [if_pos ⟨(seeded i).mpr member, here⟩, none] at counted
    simp only [List.map_nil, List.count_nil] at counted
    exact List.count_pos_iff.mp (by omega)

/-- No event of the cycle and no call of `schedule_node` in it is for the node in slot `i`. -/
structure Unaddressed (prog : Program W) (input : CycleInput) (ex : Executor W) (i : NodeIndex) : Prop where
  events : i ∉ (seeds input ex).map (·.index)
  calls : ∀ now polled calls mid, poll input ex.beginCycle = .ok (some now, polled) →
    Turned prog now polled calls mid → i ∉ calls

theorem mem_handedIn {ex : Executor W} {i : NodeIndex} (member : i ∈ handedIn prog now ex) :
    ∃ k s ctx j, called k now ex = some (s, ctx) ∧ .scheduleNode j ∈ (prog.cycleFn s ctx k).1 ∧
      (ex.inner j).index = i := by
  unfold handedIn at member
  split at member
  · cases member
  · rename_i first scheduler popped
    split at member
    · cases member
    · rename_i weight there
      dsimp only at member
      split_ifs at member with poisoned spawned alive
      · cases member
      · obtain ⟨j, listed, index⟩ := mem_handed member
        refine ⟨weight.cycleFn.state, _, _, j, ?_, listed, index⟩
        simp only [called, popped, there]
        rw [if_pos ⟨trivial, by simpa using poisoned⟩, if_pos spawned]
      · obtain ⟨j, listed, index⟩ := mem_handed member
        refine ⟨weight.cycleFn.state, _, _, j, ?_, listed, index⟩
        simp only [called, popped, there]
        rw [if_pos ⟨trivial, by simpa using poisoned⟩, if_neg spawned, if_pos alive]
        rfl
      · cases member

/-- The turns of a node loop, for a node `c` of the given lineage. -/
structure Stretch (prog : Program W) (now : CycleTime) (rels : List (Key × Relationship)) (c : Key)
    (polled final : Executor W) : Prop where
  turns : Turns prog now polled final
  none : polled.runs = []
  wf : polled.scheduler.WF
  inPlace : polled.InPlace
  queued : polled.Queued
  truthful : polled.Truthful
  manuals : final.All Event.ManualPresent
  lineage : Lineage rels c polled

/-- The turns of a loop that starts between two cycles, whatever they have left queued. -/
theorem From.stretch {exits : Exit → Prop} {rels : List (Key × Relationship)} {c : Key}
    {input : CycleInput} {now : CycleTime} {ex polled final : Executor W} (here : ex.From exits)
    (few : ex.cycles + 1 < 2 ^ 64) (polls : poll input ex.beginCycle = .ok (some now, polled))
    (turns : Turns prog now polled final) (manuals : final.All Event.ManualPresent)
    (lineage : Lineage rels c ex) : Stretch prog now rels c polled final := by
  have begun : Path ex polled := .head .begin (poll_path polls)
  have manuals' : polled.All Event.ManualPresent := Path.all (Turns.path turns) manuals
  constructor
  case turns => exact turns
  case none => exact (Steady.of_poll polls).runs
  case wf => exact begun.schedulerWF here.wf
  case inPlace => exact begun.inPlace here.inPlace
  case queued => exact begun.queued manuals' here.wf here.inPlace (here.queued (Path.all begun manuals'))
  case truthful => exact ((here.dated (by omega)).begin (here.stamped (by omega)) few).poll polls
  case manuals => exact manuals
  case lineage => exact begun.lineage lineage

/-- A node loop that starts at rest and runs to its end, with node `c` in the graph. -/
structure Course (prog : Program W) (now : CycleTime) (rels : List (Key × Relationship)) (c : Key)
    (seeded : Prop) (polled final : Executor W) : Prop extends Stretch prog now rels c polled final where
  finished : final.scheduler.entries = []
  present : polled.Present c
  origins : Origins [] polled
  account : Account (polled.inner c).index (Woken seeded (polled.inner c).index polled) polled

theorem From.course {exits : Exit → Prop} {rels : List (Key × Relationship)} {c : Key}
    {input : CycleInput} {now : CycleTime} {ex polled final : Executor W} {s : Scheduler}
    (here : ex.From exits) (rests : ex.scheduler.AtRest) (few : ex.cycles + 1 < 2 ^ 64)
    (polls : poll input ex.beginCycle = .ok (some now, polled)) (turns : Turns prog now polled final)
    (popped : final.scheduler.pop = (none, s)) (manuals : final.All Event.ManualPresent)
    (lineage : Lineage rels c ex) (present : ex.Present c) :
    Course prog now rels c ((ex.inner c).index ∈ (seeds input ex).map (·.index)) polled final := by
  have steady := Steady.of_poll polls
  have index : (polled.inner c).index = (ex.inner c).index := by
    rw [inner_of_inners (inners_poll polls)]
    rfl
  have there : polled.keyAt (polled.inner c).index = some c := by
    rw [index, keyAt_of_same (steady.graph : ex.graph.Same polled.graph)]
    exact present
  have live : (ex.graph.nodeWeight (ex.inner c).index).isSome := by
    obtain ⟨ctx, weight, -⟩ := Option.map_eq_some_iff.mp present
    rw [weight]
    rfl
  have stretch := here.stretch few polls turns manuals lineage
  refine ⟨stretch, ?_, there, (Origins.start rests).poll polls, ?_⟩
  · exact (Scheduler.pop_none ((Turns.path turns).schedulerWF stretch.wf) popped).2
  · rw [index]
    exact Account.start rests (here.stamped (by omega)) few live polls

/-- Every node of the graph has its own course through the same turns. -/
theorem Pass.courses {fuel : Nat} {input : CycleInput} {ex last swept : Executor W}
    (pass : Pass prog fuel input ex last swept) (idle : ex.Idle) (few : ex.cycles + 1 < 2 ^ 64)
    (manuals : last.All Event.ManualPresent) :
    ∃ now polled final s, poll input ex.beginCycle = .ok (some now, polled) ∧
      last = { final with scheduler := s } ∧
      Turns prog now polled final ∧ final.scheduler.pop = (none, s) ∧
      ∀ rels c, Lineage rels c ex → ex.Present c →
        Course prog now rels c ((ex.inner c).index ∈ (seeds input ex).map (·.index)) polled final := by
  obtain ⟨now, polled, final, s, polls, turns, popped, rfl⟩ := pass.loop
  exact ⟨now, polled, final, s, polls, rfl, turns, popped,
    fun rels c => idle.course idle.atRest few polls turns popped manuals⟩

theorem Pass.course {rels : List (Key × Relationship)} {c : Key} {fuel : Nat} {input : CycleInput}
    {ex last swept : Executor W} (pass : Pass prog fuel input ex last swept) (idle : ex.Idle)
    (few : ex.cycles + 1 < 2 ^ 64) (manuals : last.All Event.ManualPresent)
    (lineage : Lineage rels c ex) (present : ex.Present c) :
    ∃ now polled final s, poll input ex.beginCycle = .ok (some now, polled) ∧
      last = { final with scheduler := s } ∧
      Course prog now rels c ((ex.inner c).index ∈ (seeds input ex).map (·.index)) polled final := by
  obtain ⟨now, polled, final, s, polls, same, -, -, courses⟩ := pass.courses idle few manuals
  exact ⟨now, polled, final, s, polls, same, courses rels c lineage present⟩

/-- A node that runs is in the graph. -/
theorem Pass.present_of_run {exits : Exit → Prop} {fuel : Nat} {input : CycleInput}
    {ex last swept : Executor W} (pass : Pass prog fuel input ex last swept) (here : ex.From exits)
    {run : Run} (member : run ∈ last.runs) :
    ex.keyAt run.index = some run.node ∧ (ex.inner run.node).index = run.index := by
  obtain ⟨now, polled, final, s, polls, turns, popped, rfl⟩ := pass.loop
  have begun : Path ex polled := .head .begin (poll_path polls)
  have steady := Steady.of_poll polls
  have none : polled.runs = [] := steady.runs
  have occupant := Turns.occupants turns (by rw [none]; exact fun _ no => by cases no) run member
  have placed := (InPlace.of_keyAt (begun.inPlace here.inPlace) occupant).2
  rw [inner_of_inners (inners_poll polls)] at placed
  rw [keyAt_of_same (steady.graph : ex.graph.Same polled.graph)] at occupant
  exact ⟨occupant, placed⟩

/-- A node that is in the graph after the sweep was there all along. -/
theorem Pass.present {exits : Exit → Prop} {c : Key} {fuel : Nat} {input : CycleInput}
    {ex last swept : Executor W} (pass : Pass prog fuel input ex last swept) (here : ex.From exits)
    (built : c < ex.inners.length) (survives : swept.Present c) : ex.Present c := by
  obtain ⟨first, second⟩ := pass.path here.wf
  exact Path.present (first.trans second) built survives

/-- Such a node was not swept. -/
theorem Pass.unswept {exits : Exit → Prop} {c : Key} {fuel : Nat} {input : CycleInput}
    {ex last swept : Executor W} (pass : Pass prog fuel input ex last swept) (here : ex.From exits)
    (built : c < ex.inners.length) (survives : swept.Present c) :
    ∀ run ∈ last.runs, run.node = c → ¬ run.Swept := by
  obtain ⟨first, second⟩ := pass.path here.wf
  have seated := Path.seated (first.trans second) built
  replace survives : swept.keyAt (swept.inner c).index = some c := survives
  rintro run member rfl swept'
  rw [seated.index, (pass.present_of_run here member).2] at survives
  have marked : run.index ∈ last.marks := by
    obtain ⟨now, polled, final, s, polls, turns, popped, rfl⟩ := pass.loop
    exact Turns.marked turns (Steady.of_poll polls).runs run member swept'
  rcases sweepLoop_clears pass.sweeps run.index with gone | ⟨-, unmarked⟩
  · rw [gone] at survives
    cases survives
  · exact unmarked marked

end Executor
end Wavelet
