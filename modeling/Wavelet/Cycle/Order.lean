import Wavelet.Runtime.Loop

/-!
# Parents before children

Within one cycle the depths of the nodes that run never decrease: a pop never goes back up,
and neither a broadcast, a sweep nor a manual call can queue a node above the cursor. Since
every edge goes down, no node runs after one of its descendants.
-/

namespace Wavelet

/-- `a` lies above `c`, over edges of either relationship. -/
def Graph.Ancestor (g : Graph) : NodeIndex → NodeIndex → Prop := Relation.TransGen g.Adj

def Graph.depthAt (g : Graph) (i : NodeIndex) : Nat := ((g.core i).map (·.2)).getD 0

theorem Graph.Same.depthAt {g g' : Graph} (same : g.Same g') (i : NodeIndex) :
    g'.depthAt i = g.depthAt i := by
  rw [Graph.depthAt, same.core]; rfl

theorem Graph.depthAt_of_core {g : Graph} {i : NodeIndex} {fn : CycleFn} {d : Nat}
    (h : g.core i = some (fn, d)) :
    g.depthAt i = d := by
  rw [depthAt, h]; rfl

namespace Executor

variable {W : Type} {prog : Program W}

theorem InPlace.depthAt {ex : Executor W} (inPlace : ex.InPlace) {i : NodeIndex} {k : Key}
    (here : ex.keyAt i = some k) :
    ex.graph.depthAt i = (ex.inner k).depth := by
  obtain ⟨ctx, there, rfl⟩ := Option.map_eq_some_iff.mp here
  have core := Graph.core_of_nodeWeight there
  rw [Graph.depthAt_of_core core]
  exact (inPlace _ _ _ core).2.2.symm

theorem Sound.depthAt_lt_of_adj {ex : Executor W} (sound : ex.Sound) {p c : NodeIndex}
    (h : ex.graph.Adj p c) :
    ex.graph.depthAt p < ex.graph.depthAt c := by
  obtain ⟨r, member⟩ := h
  obtain ⟨pc, cc, parent, child, less⟩ := sound.ascending _ member
  rwa [Graph.depthAt_of_core parent, Graph.depthAt_of_core child]

theorem Sound.depthAt_lt {ex : Executor W} (sound : ex.Sound) {a c : NodeIndex} (h : ex.graph.Ancestor a c) :
    ex.graph.depthAt a < ex.graph.depthAt c := by
  induction h with
  | single edge => exact sound.depthAt_lt_of_adj edge
  | tail _ edge ih => exact Nat.lt_trans ih (sound.depthAt_lt_of_adj edge)

/-- The runs so far go down, newest first, and none is below the cursor. -/
structure Ordered (ex : Executor W) : Prop where
  descending : ex.runs.Pairwise fun later earlier =>
    ex.graph.depthAt earlier.index ≤ ex.graph.depthAt later.index
  floor : ∀ run ∈ ex.runs, ex.graph.depthAt run.index ≤ ex.scheduler.currDepth

theorem Ordered.steady {ex ex' : Executor W} (ordered : ex.Ordered) (steady : Steady ex ex') :
    ex'.Ordered := by
  constructor
  · rw [steady.runs]
    apply ordered.descending.imp
    intro later earlier less
    rwa [steady.graph.depthAt, steady.graph.depthAt]
  · intro run member
    rw [steady.graph.depthAt, steady.currDepth]
    exact ordered.floor run (by rwa [steady.runs] at member)

/-- The node that a turn runs lies at the cursor, so it comes after all the others. -/
theorem Ordered.run {now : CycleTime} {i : NodeIndex} {s : Scheduler} {ex mid : Executor W} {run : Run}
    (ordered : ex.Ordered) (wf : ex.scheduler.WF) (queued : ex.Queued)
    (popped : ex.scheduler.pop = (some i, s))
    (ran : graphCycle prog now i { ex with scheduler := s } = .ok (run, mid)) :
    (mid.recordRun run).Ordered := by
  have pop := Scheduler.pop_some wf popped
  obtain ⟨ctx, -, rfl, -, -⟩ := graphCycle_ok prog ran
  have steady := Steady.of_code (graphCycle_run prog ran)
  obtain ⟨fn, core⟩ := queued s.currDepth run.index (by rw [pop.first]; exact List.mem_cons_self)
  have here : ex.graph.depthAt run.index = s.currDepth := Graph.depthAt_of_core core
  have before : ({ ex with scheduler := s } : Executor W).Ordered :=
    ⟨ordered.descending, fun r member => Nat.le_trans (ordered.floor r member) pop.low⟩
  have after := before.steady steady
  have cursor : mid.graph.depthAt run.index = mid.scheduler.currDepth := by
    rw [steady.graph.depthAt, steady.currDepth]; exact here
  constructor
  · refine List.Pairwise.cons (fun earlier member => ?_) after.descending
    show mid.graph.depthAt earlier.index ≤ mid.graph.depthAt run.index
    rw [cursor]
    exact after.floor earlier member
  · intro r member
    rcases List.mem_cons.mp member with rfl | old
    · exact Nat.le_of_eq cursor
    · exact after.floor r old

theorem Ordered.turn {now : CycleTime} {ex ex' : Executor W} (ordered : ex.Ordered) (wf : ex.scheduler.WF)
    (queued : ex.Queued) (h : nodeStep prog now ex = .ok (.again ex')) : ex'.Ordered := by
  obtain ⟨i, s, run, mid, popped, ran, -, handled⟩ := nodeStep_again prog h
  exact (ordered.run wf queued popped ran).steady (Steady.of_handleControl handled)

/-- The nodes of a cycle, and the edges between them, are those it started with. -/
theorem Turns.same {now : CycleTime} {ex ex' : Executor W} (h : Turns prog now ex ex') :
    ex.graph.Same ex'.graph := by
  induction h with
  | refl => exact .refl _
  | tail _ step ih =>
    obtain ⟨i, s, run, mid, popped, ran, -, handled⟩ := nodeStep_again prog step
    exact (ih.trans (Steady.of_code (graphCycle_run prog ran)).graph).trans
      (Steady.of_handleControl handled).graph

/-- The runs of every state of the loop go down. -/
theorem visits_descending {now : CycleTime} {start ex' : Executor W} (h : Visits prog now start ex')
    (manuals : ex'.All Event.ManualPresent) (wf : start.scheduler.WF) (inPlace : start.InPlace)
    (queued : start.Queued) (ordered : start.Ordered) :
    start.graph.Same ex'.graph ∧
      ex'.runs.Pairwise fun later earlier => start.graph.depthAt earlier.index ≤
      start.graph.depthAt later.index := by
  obtain ⟨mid, turns, last⟩ := h
  have rest : Path mid ex' := by
    rcases last with rfl | finished | terminated
    · exact .refl
    · exact nodeStep_path (.inl finished)
    · exact nodeStep_path (.inr (.inl terminated))
  have inv : mid.Ordered := by
    have manuals := Path.all rest manuals
    clear last rest
    induction turns with
    | refl => exact ordered
    | tail turns step ih =>
      have path := nodeStep_path (.inr (.inr step))
      have manuals' := Path.all path manuals
      exact (ih manuals').turn (Path.schedulerWF (Turns.path turns) wf)
        (Path.queued (Turns.path turns) manuals' wf inPlace queued) step
  have same := Turns.same turns
  have back : ∀ runs :
      List Run, (runs.Pairwise fun later earlier => mid.graph.depthAt earlier.index ≤
        mid.graph.depthAt later.index) →
      runs.Pairwise fun later earlier => start.graph.depthAt earlier.index ≤
      start.graph.depthAt later.index := by
    intro runs down
    apply down.imp
    intro later earlier less
    rwa [same.depthAt, same.depthAt] at less
  rcases last with rfl | finished | terminated
  · exact ⟨same, back _ inv.descending⟩
  · obtain ⟨s, -, rfl⟩ := nodeStep_finished prog finished
    exact ⟨same, back _ inv.descending⟩
  · obtain ⟨i, s, run, mid', popped, ran, -, rfl⟩ := nodeStep_terminated prog terminated
    have wf' := Path.schedulerWF (Turns.path turns) wf
    have queued' := Path.queued (Turns.path turns) (Path.all rest manuals) wf inPlace queued
    have after := inv.run wf' queued' popped ran
    have here := (Steady.of_code (graphCycle_run prog ran)).graph
    refine ⟨same.trans here, ?_⟩
    apply after.descending.imp
    intro later earlier less
    show start.graph.depthAt _ ≤ start.graph.depthAt _
    have less : mid'.graph.depthAt _ ≤ mid'.graph.depthAt _ := less
    rwa [(same.trans here).depthAt, (same.trans here).depthAt] at less

/-- No node ran after one of its descendants, over the edges that the cycle started with. -/
def Glitchless (start ex : Executor W) : Prop :=
  ex.runs.Pairwise fun later earlier => ¬ start.graph.Ancestor later.index earlier.index

theorem inCycle_glitchless {input : CycleInput} {ex ex' : Executor W} (reached : Reachable (fun _ => True) ex)
    (inside : InCycle prog input ex ex') (parents : ex'.All Event.ParentsPresent)
    (manuals : ex'.All Event.ManualPresent) :
    Glitchless ex ex' := by
  obtain ⟨now, polled, polls, visits⟩ := inside
  have path : Path ex polled := .head .begin (poll_path polls)
  have parents' := Path.all visits.path parents
  have manuals' := Path.all visits.path manuals
  have sound := reached.sound (Path.all path parents')
  have queued := reached.queued (Path.all path manuals')
  have steady := Steady.of_poll polls
  have ordered : polled.Ordered := Ordered.steady ⟨List.Pairwise.nil, fun _ member => by cases member⟩ steady
  obtain ⟨-, down⟩ := visits_descending visits manuals (Path.schedulerWF path reached.schedulerWF)
    (Path.inPlace path sound.placed)
    (Path.queued path manuals' reached.schedulerWF sound.placed queued) ordered
  refine down.imp fun {later earlier} less above => ?_
  have same : ex.graph.Same polled.graph := steady.graph
  have := sound.depthAt_lt above
  rw [same.depthAt, same.depthAt] at less
  omega

/-- Once a node has run, none of its ancestors runs later in the same cycle, in whatever
state the cycle found the executor: in every state of the node loop, also of a cycle that
never returns, and in what a cycle returns. -/
theorem parents_before_children {input : CycleInput} {ex ex' : Executor W}
    (reached : Reachable (fun _ => True) ex)
    (during : InCycle prog input ex ex' ∨ ∃ fuel exit, cycle prog fuel input ex = .ok (exit, ex'))
    (parents : ex'.All Event.ParentsPresent) (manuals : ex'.All Event.ManualPresent) : Glitchless ex ex' := by
  rcases during with inside | ⟨fuel, exit, returned⟩
  · exact inCycle_glitchless reached inside parents manuals
  · rcases runs_of_cycle reached.schedulerWF returned with ⟨-, none⟩ | ⟨last, inside, path, same⟩
    · rw [Glitchless, none]
      exact List.Pairwise.nil
    · have before := inCycle_glitchless reached inside (Path.all path parents) (Path.all path manuals)
      rwa [Glitchless, same]

/-- A source that broadcasts to its child. -/
def relay : Program Unit where
  cycleFn _ _ k := ([], .ret (if k = 0 then .broadcast else .unchanged))
  onDrop _ _ := []
  spawnFn _ _ := []

def relayOps : List (ExecOp Unit) :=
  [.build { index := 0 }, .build { index := 1, relationships := [(0, .trigger)] },
    .driver (.yieldNow (.node 0))]

/-- The executor and the input of small runs: nothing but yields and notifications. -/
def bare : Executor Unit := withConfig { ioEnabled := false, timerEnabled := false } .spin ()

def instantly : CycleInput := ⟨some 0, ⟨0, 0⟩, ⟨0, 0⟩, none⟩

theorem relay_parents_before_children :
    ∃ ex ex', bare.execOps relay relayOps = .ok ex ∧ cycle relay 3 instantly ex = .ok (.running, ex') ∧
      ex'.runs.map (·.index) = [1, 0] ∧ Glitchless ex ex' :=
  have built : bare.execOps relay relayOps = .ok _ := rfl
  ⟨_, _, built, rfl, rfl,
    @parents_before_children _ relay instantly _ _ (.ops (.initial ..) built)
      (.inr ⟨3, .running, rfl⟩) (by decide)
      (by decide)⟩

end Executor
end Wavelet
