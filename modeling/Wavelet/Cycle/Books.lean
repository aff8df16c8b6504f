import Wavelet.Cycle.Order
import Wavelet.Cycle.Tally

/-!
# One turn of the node loop

What a turn does to the books of a cycle whose nodes do not call `schedule_node`: the node
that ran is taken out of the entries and into the runs, its children are offered as its
control value says, and they are poisoned if it was swept.
-/

namespace Wavelet

/-- The cycle functions do not call `schedule_node`. -/
def Program.NoManual {W : Type} (prog : Program W) : Prop :=
  ∀ ex ctx k j, Effect.scheduleNode j ∉ (prog.cycleFn ex ctx k).1

/-- The children that a run schedules. -/
def Graph.scheduledBy (g : Graph) (run : Run) : List NodeIndex :=
  match run.verdict.control with
  | .broadcast => g.triggeringEdges run.index
  | .sweep => g.edges run.index
  | .unchanged | .terminate => []

theorem Graph.Same.scheduledBy {g g' : Graph} (same : g.Same g') (run : Run) :
    g'.scheduledBy run = g.scheduledBy run := by
  simp only [Graph.scheduledBy, Graph.triggeringEdges, Graph.edges, same.edges]

theorem Graph.adj_of_scheduledBy {g : Graph} {run : Run} {c : NodeIndex}
    (h : c ∈ g.scheduledBy run) : g.Adj run.index c := by
  unfold scheduledBy at h
  split at h
  · exact Graph.adj_of_mem_triggeringEdges h
  · exact Graph.mem_edges_iff.mp h
  · cases h
  · cases h

namespace Executor

variable {W : Type} {prog : Program W}

/-! ## Program code that does not schedule -/

theorem scheduler_applyEffects {ex : Executor W} {effects : List (Effect W)}
    (quiet : ∀ j, Effect.scheduleNode j ∉ effects) :
    (ex.applyEffects prog effects).2.scheduler = ex.scheduler := by
  induction effects generalizing ex with
  | nil => rfl
  | cons effect rest ih =>
    have quiet' : ∀ j, Effect.scheduleNode j ∉ rest := fun j member => quiet j (List.mem_cons_of_mem _ member)
    rw [applyEffects]
    split
    · rename_i next applied
      rw [ih quiet']
      cases effect with
      | handle op => cases applied; exact scheduler_of_handleRun (handleOp_run prog ex op)
      | driver op => exact scheduler_driverOp applied
      | scheduleNode k => exact absurd List.mem_cons_self (quiet k)
      | spawnSubgraph captures =>
        cases applied
        have clones :=
          Steps.foldl_steps (l := captures) (fun s k _ => cloneHandle_run s (.spawn ex.tickets) k)
          { ex with deferredSpawns := ex.deferredSpawns ++ [ex.tickets], tickets := ex.tickets + 1 }
        have same := scheduler_of_handleRun clones
        exact same
    · rfl

theorem scheduler_callCycleFn {now : CycleTime} {i : NodeIndex} {fn : CycleFn} {ex ex' : Executor W}
    {v : Verdict} (quiet : prog.NoManual) (h : callCycleFn prog now i fn ex = .ok (v, ex')) :
    ex'.scheduler = ex.scheduler := by
  obtain ⟨answer, finished, after, rfl, applied, ends⟩ := callCycleFn_ok prog h
  have same : after.scheduler = ex.scheduler := by
    have effects := @scheduler_applyEffects _ prog ex _ (quiet ex ⟨i, now, ex.epoch⟩ fn.state)
    rwa [applied] at effects
  rcases ends with ⟨control, -, -, -, rfl⟩ | ⟨-, rfl, -⟩
  · split
    · exact same
    · exact same
  · exact same

theorem scheduler_graphCycle {now : CycleTime} {i : NodeIndex} {ex ex' : Executor W} {run : Run}
    (quiet : prog.NoManual) (h : graphCycle prog now i ex = .ok (run, ex')) :
    ex'.scheduler = ex.scheduler := by
  obtain ⟨ctx, -, -, -, poisoned | spawned | built | dead⟩ := graphCycle_cases prog h
  · rw [poisoned.2.2]
  · exact scheduler_callCycleFn quiet spawned.2.2
  · obtain ⟨-, -, -, mid, called, rfl⟩ := built
    have same := scheduler_callCycleFn quiet called
    rw [scheduler_of_handleRun (dropHandle_run prog ..)]
    exact same
  · rw [dead.2.2.2.2]

/-! ## Poison -/

def Poisoned (ex : Executor W) (i : NodeIndex) : Prop :=
  ∃ ctx, ex.graph.nodeWeight i = some ctx ∧ ctx.poisoned = true

theorem poisoned_setWeight {g : Graph} {i : NodeIndex} {ctx ctx' : NodeContext}
    (there : g.nodeWeight i = some ctx) (j : NodeIndex) :
    (∃ w, (g.setWeight i ctx').nodeWeight j = some w ∧ w.poisoned = true) ↔
      if j = i then ctx'.poisoned = true else ∃ w, g.nodeWeight j = some w ∧ w.poisoned = true := by
  rw [Graph.nodeWeight_setWeight there]
  split <;> simp

theorem poisoned_offer {ex ex' : Executor W} {i : NodeIndex} {o : Offer}
    (h : ex.offer i = some (o, ex')) (j : NodeIndex) :
    ex'.Poisoned j ↔ ex.Poisoned j := by
  have set : ∀ ctx, ex.graph.nodeWeight i = some ctx →
      ((∃ w, (ex.graph.setWeight i { ctx with schedEpoch := ex.epoch }).nodeWeight j = some w ∧
        w.poisoned = true) ↔
        ex.Poisoned j) := by
    intro ctx there
    rw [poisoned_setWeight there]
    split
    · rename_i same
      subst same
      simp [Poisoned, there]
    · rfl
  rcases offer_cases h with ⟨-, rfl, -⟩ | ⟨_, -, -, -, rfl⟩ | ⟨ctx, there, -, -, -, rfl⟩ |
    ⟨ctx, there, -, -, -, -, rfl⟩
  · rfl
  · rfl
  · exact set ctx there
  · exact set ctx there

theorem poisoned_markPoisoned {ex ex' : Executor W} {i : NodeIndex}
    (h : ex.markPoisoned i = .ok ex') (j : NodeIndex) :
    ex'.Poisoned j ↔ ex.Poisoned j ∨ j = i := by
  obtain ⟨ctx, there, rfl⟩ := markPoisoned_ok h
  refine (poisoned_setWeight there j).trans ?_
  split
  · rename_i same; simp [same]
  · rename_i other; simp [other, Poisoned]

theorem poisoned_handleControl {run : Run} {ex ex' : Executor W}
    (h : handleControl run ex = .ok ex') (j : NodeIndex) :
    ex'.Poisoned j ↔ ex.Poisoned j ∨ run.Swept ∧ ex.graph.Adj run.index j := by
  have spreads : ∀ {c : NodeIndex} {s s' : Executor W}, s.spread c = .ok s' →
      (s'.Poisoned j ↔ s.Poisoned j) := by
    intro c s s' spreading
    obtain ⟨o, mid, offered, rfl⟩ := spread_ok spreading
    exact poisoned_offer offered j
  unfold handleControl at h
  unfold Run.Swept
  split at h
  · rename_i broadcast
    rw [broadcast]
    simp only [reduceCtorEq, false_and, or_false]
    exact Steps.foldlM_inv (p := fun s : Executor W => s.Poisoned j ↔ ex.Poisoned j)
      (fun s c s' _ spreading same => (spreads spreading).trans same) h Iff.rfl
  · rename_i swept
    rw [← Graph.mem_edges_iff]
    simp only [swept, true_and]
    have rest := Steps.foldlM_rest (p := fun l (s : Executor W) =>
        (s.Poisoned j ∨ j ∈ l) ↔ (ex.Poisoned j ∨ j ∈ ex.graph.edges run.index))
        (fun s c l s' _ both same => by
      obtain ⟨mid, poisoned, spreading⟩ := Steps.bind_ok both
      rw [spreads spreading, poisoned_markPoisoned poisoned, ← same, List.mem_cons, or_assoc]) h Iff.rfl
    simpa using rest
  · rename_i unchanged
    cases h
    simp [unchanged]
  · rename_i terminate
    cases h
    simp [terminate]

/-! ## A turn -/

/-- What the node loop keeps from turn to turn. -/
structure Books (base offered : List NodeIndex) (ex : Executor W) : Prop where
  wf : ex.scheduler.WF
  sound : ex.Sound
  queued : ex.Queued
  ordered : ex.Ordered
  tally : Tally base offered ex

theorem Steady.sound {ex ex' : Executor W} (steady : Steady ex ex')
    (nodes : ex'.inners.length = ex.inners.length)
    (index : ∀ k, (ex'.inner k).index = (ex.inner k).index)
    (depth : ∀ k, (ex'.inner k).depth = (ex.inner k).depth) (sound : ex.Sound) : ex'.Sound :=
  sound.congr steady.graph nodes index depth steady.queues

theorem inners_handleControl {run : Run} {ex ex' : Executor W} (h : handleControl run ex = .ok ex') :
    ex'.inners = ex.inners := by
  refine handleControl_inv (p := fun s : Executor W => s.inners = ex.inners) (fun _ same => same)
    (fun i s s' poisoned same => ?_) (fun c s s' spreading same => ?_) h rfl
  · obtain ⟨ctx, -, rfl⟩ := markPoisoned_ok poisoned
    exact same
  · obtain ⟨o, mid, offered, rfl⟩ := spread_ok spreading
    exact (inners_offer offered).trans same

theorem sound_handleControl {run : Run} {ex ex' : Executor W} (h : handleControl run ex = .ok ex')
    (sound : ex.Sound) :
    ex'.Sound := by
  have same := inners_handleControl h
  exact (Steady.of_handleControl h).sound (by rw [same]) (fun k => by rw [inner, same]; rfl)
    (fun k => by rw [inner, same]; rfl) sound

theorem queued_handleControl {run : Run} {ex ex' : Executor W} (h : handleControl run ex = .ok ex')
    (queued : ex.Queued) :
    ex'.Queued := by
  refine handleControl_inv (p := Queued) (fun _ good => good) (fun i s s' poisoned good => ?_)
    (fun c s s' spreading good => ?_) h queued
  · obtain ⟨ctx, there, rfl⟩ := markPoisoned_ok poisoned
    have same := Graph.setWeight_same there { ctx with poisoned := true } rfl rfl
    intro d j member
    obtain ⟨fn, core⟩ := good d j member
    exact ⟨fn, (same.core j).trans core⟩
  · obtain ⟨o, mid, offered, rfl⟩ := spread_ok spreading
    exact show mid.Queued from offer_queued offered good

theorem wf_handleControl {run : Run} {ex ex' : Executor W} (h : handleControl run ex = .ok ex')
    (wf : ex.scheduler.WF) :
    ex'.scheduler.WF := by
  refine handleControl_inv (p := fun s : Executor W => s.scheduler.WF) (fun _ good => good)
    (fun i s s' poisoned good => ?_)
    (fun c s s' spreading good => ?_) h wf
  · obtain ⟨ctx, -, rfl⟩ := markPoisoned_ok poisoned
    exact good
  · obtain ⟨o, mid, offered, rfl⟩ := spread_ok spreading
    exact show mid.scheduler.WF from schedulerWF_offer offered good

/-- The children of a node at the cursor lie below it, so none is refused. -/
theorem tally_spread {base offered : List NodeIndex} {c : NodeIndex} {ex ex' : Executor W}
    (tally : Tally base offered ex) (below : ex.scheduler.currDepth ≤ ex.graph.depthAt c)
    (h : ex.spread c = .ok ex') :
    Tally base (offered ++ [c]) ex' := by
  obtain ⟨o, mid, took, rfl⟩ := spread_ok h
  refine (tally.offer took ?_).congr rfl rfl rfl rfl
  rintro rfl
  rcases offer_cases took with ⟨no, -⟩ | ⟨_, -, -, no, -⟩ | ⟨ctx, there, -, above, -⟩ | ⟨_, -, -, -, -, no, -⟩
  · cases no
  · cases no
  · rw [Graph.depthAt_of_core (Graph.core_of_nodeWeight there)] at below
    omega
  · cases no

theorem tally_markPoisoned {base offered : List NodeIndex} {c : NodeIndex} {ex ex' : Executor W}
    (tally : Tally base offered ex) (h : ex.markPoisoned c = .ok ex') : Tally base offered ex' := by
  obtain ⟨ctx, there, rfl⟩ := markPoisoned_ok h
  have weight := Graph.nodeWeight_setWeight there { ctx with poisoned := true }
  constructor
  · intro j w here
    replace here : (ex.graph.setWeight c { ctx with poisoned := true }).nodeWeight j = some w := here
    rw [weight] at here
    split at here
    · rename_i same
      subst same
      cases here
      exact tally.stamped j ctx there
    · exact tally.stamped j w here
  · intro j
    show _ = base.count j + if j ∈ offered ∧
      ((ex.graph.setWeight c { ctx with poisoned := true }).nodeWeight j).isSome then 1 else 0
    have live : ((ex.graph.setWeight c { ctx with poisoned := true }).nodeWeight j).isSome =
        (ex.graph.nodeWeight j).isSome := by
      rw [weight]
      split
      · rename_i same; subst same; rw [there]; rfl
      · rfl
    rw [live]
    exact tally.counted j

theorem tally_handleControl {base offered : List NodeIndex} {run : Run} {ex ex' : Executor W}
    (tally : Tally base offered ex)
    (below : ∀ c, ex.graph.Adj run.index c → ex.scheduler.currDepth ≤ ex.graph.depthAt c)
    (h : handleControl run ex = .ok ex') : Tally base (offered ++ ex.graph.scheduledBy run) ex' := by
  unfold handleControl at h
  unfold Graph.scheduledBy
  cases control : run.verdict.control with
  | broadcast =>
    simp only [control] at h ⊢
    -- the children still to come are the part of the list that is not yet offered
    have rest := Steps.foldlM_rest (p := fun l (s : Executor W) => Steady ex s ∧
        ∃ done, done ++ l = ex.graph.triggeringEdges run.index ∧ Tally base (offered ++ done) s)
      (fun s c l s' member spreading ⟨steady, done, split, tally⟩ => by
        refine ⟨steady.trans (Steady.of_spread spreading), done ++ [c], by simpa using split, ?_⟩
        rw [← List.append_assoc]
        refine tally_spread tally ?_ spreading
        rw [steady.currDepth, steady.graph.depthAt]
        exact below c (Graph.adj_of_mem_triggeringEdges member)) h ⟨.refl ex, [], rfl, by simpa using tally⟩
    obtain ⟨-, done, split, last⟩ := rest
    rw [List.append_nil] at split
    rwa [split] at last
  | sweep =>
    simp only [control] at h ⊢
    have rest := Steps.foldlM_rest (p := fun l (s : Executor W) => Steady ex s ∧
        ∃ done, done ++ l = ex.graph.edges run.index ∧ Tally base (offered ++ done) s)
      (fun s c l s' member both ⟨steady, done, split, tally⟩ => by
        obtain ⟨mid, poisoned, spreading⟩ := Steps.bind_ok both
        have steady' := steady.trans (Steady.of_markPoisoned poisoned)
        refine ⟨steady'.trans (Steady.of_spread spreading), done ++ [c], by simpa using split, ?_⟩
        rw [← List.append_assoc]
        refine tally_spread (tally_markPoisoned tally poisoned) ?_ spreading
        rw [steady'.currDepth, steady'.graph.depthAt]
        exact below c (Graph.mem_edges_iff.mp member)) h
      ⟨⟨.refl _, rfl, rfl, rfl, rfl⟩, [], rfl, by rw [List.append_nil]; exact tally.congr rfl rfl rfl rfl⟩
    obtain ⟨-, done, split, last⟩ := rest
    rw [List.append_nil] at split
    rwa [split] at last
  | unchanged | terminate =>
    simp only [control] at h ⊢
    cases h
    simpa using tally

/-- Taking a node out of the queue and running it moves it from the entries to the runs. -/
theorem tally_recordRun {base offered : List NodeIndex} {now : CycleTime} {i : NodeIndex}
    {s : Scheduler} {ex mid : Executor W} {run : Run} (quiet : prog.NoManual) (wf : ex.scheduler.WF)
    (tally : Tally base offered ex) (popped : ex.scheduler.pop = (some i, s))
    (ran : graphCycle prog now i { ex with scheduler := s } = .ok (run, mid)) :
    Tally base offered (mid.recordRun run) := by
  have frame := frame_of_run (graphCycle_run prog ran)
  have scheduler : mid.scheduler = s := scheduler_graphCycle quiet ran
  have graph : mid.graph = ex.graph := frame.graph
  have runs : mid.runs = ex.runs := frame.runs
  obtain ⟨ctx, there, rfl, -, -⟩ := graphCycle_ok prog ran
  obtain ⟨stamped, counted⟩ := tally
  constructor
  case stamped =>
    intro j w here
    replace here : mid.graph.nodeWeight j = some w := here
    rw [graph] at here
    show w.schedEpoch = mid.epoch ↔ _
    rw [frame.epoch]
    exact stamped j w here
  case counted =>
    intro j
    have before := counted j
    have taken := (Scheduler.pop_some wf popped).count j
    show mid.scheduler.entries.count j + ((run :: mid.runs).map (·.index)).count j =
      base.count j + if j ∈ offered ∧ (mid.graph.nodeWeight j).isSome then 1 else 0
    rw [scheduler, graph, runs, List.map_cons, List.count_cons, ← before, taken]
    simp only [beq_iff_eq]
    omega

/-- A turn of a node loop without manual calls. -/
structure TurnSpec (base offered : List NodeIndex) (ex ex' : Executor W) (run : Run) : Prop where
  books : Books base (offered ++ ex.graph.scheduledBy run) ex'
  runs : ex'.runs = run :: ex.runs
  same : ex.graph.Same ex'.graph
  live : (ex.graph.nodeWeight run.index).isSome
  verdict : run.verdict = .poisoned ↔ ex.Poisoned run.index
  poison : ∀ j, ex'.Poisoned j ↔ ex.Poisoned j ∨ run.Swept ∧ ex.graph.Adj run.index j
  last : ∀ earlier ∈ ex.runs, ex.graph.depthAt earlier.index ≤ ex.graph.depthAt run.index
  offered : run.index ∈ base ∨ run.index ∈ offered

theorem Books.turn {base offered : List NodeIndex} {now : CycleTime} {ex ex' : Executor W}
    (quiet : prog.NoManual) (books : Books base offered ex) (h : nodeStep prog now ex = .ok (.again ex')) :
    ∃ run, TurnSpec base offered ex ex' run := by
  obtain ⟨i, s, run, mid, popped, ran, -, handled⟩ := nodeStep_again prog h
  have pop := Scheduler.pop_some books.wf popped
  have frame := frame_of_run (graphCycle_run prog ran)
  have scheduler : mid.scheduler = s := scheduler_graphCycle quiet ran
  have graph : mid.graph = ex.graph := frame.graph
  have runs : mid.runs = ex.runs := frame.runs
  have ordered := books.ordered.run books.wf books.queued popped ran
  obtain ⟨ctx, there, rfl, -, poisoned⟩ := graphCycle_ok prog ran
  replace there : ex.graph.nodeWeight run.index = some ctx := there
  obtain ⟨fn, core⟩ := books.queued s.currDepth run.index (by rw [pop.first]; exact List.mem_cons_self)
  have cursor : ex.graph.depthAt run.index = s.currDepth := Graph.depthAt_of_core core
  have sound : (mid.recordRun run).Sound :=
    books.sound.congr (by show ex.graph.Same mid.graph; rw [graph]; exact .refl _) frame.nodes frame.index frame.depth
      (by show mid.scheduler.multiQueue.length = _; rw [scheduler, pop.length])
  have queued : (mid.recordRun run).Queued := by
    intro d j member
    replace member : j ∈ mid.scheduler.queue d := member
    rw [scheduler] at member
    show ∃ fn, mid.graph.core j = _
    rw [graph]
    exact books.queued d j (pop.mem_queue_of member)
  have tally := tally_recordRun quiet books.wf books.tally popped ran
  have below : ∀ c, (mid.recordRun run).graph.Adj run.index c →
      (mid.recordRun run).scheduler.currDepth ≤ (mid.recordRun run).graph.depthAt c := by
    intro c edge
    have less := sound.depthAt_lt_of_adj edge
    show mid.scheduler.currDepth ≤ _
    rw [scheduler, ← cursor]
    refine Nat.le_of_lt (Nat.lt_of_le_of_lt (Nat.le_of_eq ?_) less)
    show _ = mid.graph.depthAt run.index
    rw [graph]
  refine ⟨run, ⟨⟨?_, ?_, ?_, ?_, ?_⟩, ?_, ?_, ?_, ?_, ?_, ?_, ?_⟩⟩
  · exact wf_handleControl handled (by show mid.scheduler.WF; rw [scheduler]; exact pop.wf books.wf)
  · exact sound_handleControl handled sound
  · exact queued_handleControl handled queued
  · exact ordered.steady (Steady.of_handleControl handled)
  · have last := tally_handleControl tally below handled
    have same : (mid.recordRun run).graph = ex.graph := graph
    rwa [same] at last
  · rw [(Steady.of_handleControl handled).runs, ← runs]; rfl
  · have steady := (Steady.of_handleControl handled).graph
    have same : (mid.recordRun run).graph = ex.graph := graph
    rwa [same] at steady
  · rw [there]; rfl
  · rw [poisoned]
    simp [Poisoned, there]
  · intro j
    rw [poisoned_handleControl handled]
    show (∃ w, mid.graph.nodeWeight j = some w ∧ w.poisoned = true) ∨ run.Swept ∧
      mid.graph.Adj run.index j ↔ _
    rw [graph]
    rfl
  · intro earlier member
    rw [cursor]
    exact Nat.le_trans (books.ordered.floor earlier member) pop.low
  · have counted := books.tally.counted run.index
    have taken := pop.count run.index
    simp only [if_true] at taken
    by_cases offered : run.index ∈ offered
    · exact .inr offered
    · refine .inl (List.count_pos_iff.mp ?_)
      simp only [offered, false_and, if_false] at counted
      omega

end Executor
end Wavelet
