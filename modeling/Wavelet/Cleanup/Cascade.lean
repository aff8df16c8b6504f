import Wavelet.Cycle.Books

/-!
# Poison

A node that is swept is marked, and its children are poisoned and scheduled, so that they
are swept in the same cycle. Between two turns of the node loop every poisoned node is
queued or marked, and every child of a node that was swept in this cycle is poisoned and is
queued or was swept itself. When nothing is queued any more, the whole cone below a swept
node is marked.
-/

namespace Wavelet
namespace Executor

variable {W : Type} {prog : Program W}

/-- Every poisoned node is queued or marked. -/
def Covered (ex : Executor W) : Prop := ∀ i, ex.Poisoned i → i ∈ ex.scheduler.entries ∨ i ∈ ex.marks

/-- The node was swept in this cycle. -/
def SweptNow (ex : Executor W) (i : NodeIndex) : Prop := ∃ run ∈ ex.runs, run.index = i ∧ run.Swept

/-- A node with the stamp of the epoch is queued or does not lie below the cursor. -/
def StampQueued (ex : Executor W) : Prop :=
  ∀ i ctx, ex.graph.nodeWeight i = some ctx → ctx.schedEpoch = ex.epoch →
  i ∈ ex.scheduler.entries ∨ ctx.depth ≤ ex.scheduler.currDepth

/-- The cascade in a cycle with a new epoch. The nodes of `out` are out of the queue and
have not been run yet, the children of `todo` have yet to be poisoned; between two turns
both are empty. -/
structure Cascade (out todo : List NodeIndex) (ex : Executor W) : Prop where
  covered : ∀ i, ex.Poisoned i → i ∈ out ∨ i ∈ ex.scheduler.entries ∨ i ∈ ex.marks
  stamped : ex.StampQueued
  marked : ∀ i, ex.SweptNow i → i ∈ ex.marks
  closed : ∀ i, ex.SweptNow i → ∀ c, ex.graph.Adj i c →
    c ∈ todo ∨ ex.Poisoned c ∧ (c ∈ out ∨ c ∈ ex.scheduler.entries ∨ ex.SweptNow c)

/-! ## Steps that keep poison covered -/

theorem marks_mono {ex ex' : Executor W} (grows : ex.gc <+: ex'.gc) {i : NodeIndex} (marked : i ∈ ex.marks) :
    i ∈ ex'.marks := by
  obtain ⟨r, member, same⟩ := List.mem_map.mp marked
  exact List.mem_map.mpr ⟨r, grows.mem member, same⟩

theorem mem_marks_markForSweep {ex : Executor W} {cause : Cause} {r : Ref} {i : NodeIndex} :
    i ∈ (ex.markForSweep cause r).marks ↔ i ∈ ex.marks ∨ i = r.index := by
  simp [marks, markForSweep, log]

theorem Covered.of_code {ex ex' : Executor W} (covered : ex.Covered) (run : CodeRun ex ex') :
    ex'.Covered := by
  have frame := frame_of_run run
  intro i poisoned
  have before : ex.Poisoned i := by rwa [Poisoned, frame.graph] at poisoned
  exact (covered i before).imp (mem_entries_code run) (marks_mono frame.marks)

theorem Covered.of_offer {ex ex' : Executor W} {i : NodeIndex} {o : Offer} (covered : ex.Covered)
    (h : ex.offer i = some (o, ex')) : ex'.Covered := by
  intro j poisoned
  rcases covered j ((poisoned_offer h j).mp poisoned) with queued | marked
  · exact .inl (mem_entries_offer h queued)
  · right
    rw [marks, gc_offer h]
    exact marked

theorem Covered.of_poll {input : CycleInput} {t : Option CycleTime} {ex ex' : Executor W}
    (covered : ex.Covered) (h : poll input ex = .ok (t, ex')) : ex'.Covered :=
  poll_inv (p := Covered) (fun _ _ covered => covered) (fun source r s s' fired covered => by
    obtain ⟨o, mid, offered, -, rfl⟩ := fire_ok fired
    exact show mid.Covered from covered.of_offer offered) h covered

theorem Covered.removeNode {ex : Executor W} {r : Ref} {rest : List Ref} (covered : ex.Covered)
    (front : ex.gc = r :: rest) :
    (Executor.removeNode prog { ex with gc := rest } r.index).Covered := by
  have left : ∀ i, i ≠ r.index → i ∈ ex.marks → i ∈ rest.map (·.index) := by
    intro i other marked
    rw [marks, front, List.map_cons] at marked
    exact (List.mem_cons.mp marked).resolve_left other
  unfold Executor.removeNode
  split
  · rename_i vacant
    intro i poisoned
    refine (covered i poisoned).imp id (left i ?_)
    rintro rfl
    obtain ⟨ctx, there, -⟩ := poisoned
    replace vacant : (ex.graph.nodeWeight r.index).map (·.cycleFn.state) = none := vacant
    rw [there] at vacant
    cases vacant
  · rename_i k there
    have removed :
        (log { ex with gc := rest, graph := ex.graph.removeNode r.index } (.removed k)).Covered := by
      rintro i ⟨ctx, here, poisoned⟩
      replace here : (ex.graph.removeNode r.index).nodeWeight i = some ctx := here
      rw [Graph.nodeWeight_removeNode] at here
      split at here
      · cases here
      · rename_i other
        exact (covered i ⟨ctx, here, poisoned⟩).imp id (left i other)
    exact (removed.of_code (dropOwner_run prog _ (.graph k)).code).of_code
      (dropOwner_run prog _ (.closure k)).code

theorem Covered.sweepLoop {fuel : Nat} {ex ex' : Executor W} (covered : ex.Covered)
    (h : Executor.sweepLoop prog fuel ex = .ok ex') : ex'.Covered := by
  induction fuel generalizing ex with
  | zero => cases h
  | succ fuel ih =>
    rw [Executor.sweepLoop] at h
    split at h
    · cases h; exact covered
    · rename_i r rest front
      exact ih (covered.removeNode front) h

theorem Covered.execOp {op : ExecOp W} {ex ex' : Executor W} (covered : ex.Covered)
    (h : ex.execOp prog op = .ok ex') :
    ex'.Covered := by
  cases op with
  | handle op => cases h; exact covered.of_code (handleOp_run prog ex op).code
  | driver op =>
    simp only [Executor.execOp] at h
    split at h
    · rename_i next applied
      cases h
      exact covered.of_code (driverOp_run applied)
    · cases h
  | build args =>
    obtain ⟨depth, graph, handles, -, -, edges, rfl, -⟩ := build_ok h
    -- a new node is not poisoned
    rintro i ⟨ctx, here, poisoned⟩
    replace here : graph.nodeWeight i = some ctx := here
    simp only [Graph.nodeWeight, (addEdges_some edges).1] at here
    replace here := (Graph.nodeWeight_addNode ..).symm.trans here
    split at here
    · cases here
      cases poisoned
    · refine (covered i ⟨ctx, here, poisoned⟩).imp (fun queued => ?_) id
      show i ∈ (ex.scheduler.enableDepth depth).entries
      rwa [Scheduler.enableDepth_entries]

theorem Covered.runSpawns {tickets : List Nat} {ex ex' : Executor W} (covered : ex.Covered)
    (h : Executor.runSpawns prog tickets ex = .ok ex') : ex'.Covered := by
  induction tickets generalizing ex with
  | nil => cases h; exact covered
  | cons ticket rest ih =>
    obtain ⟨mid, spawned, later⟩ := Steps.bind_ok h
    obtain ⟨built, ops, rfl⟩ := Steps.map_ok spawned
    have after : built.Covered :=
      Steps.foldlM_inv (p := Covered) (fun _ _ _ _ applied covered => covered.execOp applied) ops
      (show ({ ex with deferredSpawns := rest } : Executor W).Covered from covered)
    exact ih (after.of_code (dropOwner_run prog built (.spawn ticket)).code) later

/-! ## Poisoning a child -/

/-- An offer stamps a node and queues it, or refuses it because it lies above the cursor. -/
theorem StampQueued.of_offer {ex ex' : Executor W} {i : NodeIndex} {o : Offer} (stamped : ex.StampQueued)
    (h : ex.offer i = some (o, ex')) : ex'.StampQueued := by
  rcases offer_cases h with ⟨-, rfl, -⟩ | ⟨_, -, -, -, rfl⟩ | ⟨ctx, there, -, above, -, rfl⟩ |
    ⟨ctx, there, -, -, bound, -, rfl⟩
  · exact stamped
  · exact stamped
  · intro j w here seen
    replace here : (ex.graph.setWeight i { ctx with schedEpoch := ex.epoch }).nodeWeight j = some w := here
    rw [Graph.nodeWeight_setWeight there] at here
    split at here
    · cases here
      exact .inr (Nat.le_of_lt above)
    · exact stamped j w here seen
  · intro j w here seen
    replace here : (ex.graph.setWeight i { ctx with schedEpoch := ex.epoch }).nodeWeight j = some w := here
    rw [Graph.nodeWeight_setWeight there] at here
    show j ∈ (ex.scheduler.enqueue i ctx.depth).entries ∨ _
    rw [Scheduler.mem_enqueue bound]
    split at here
    · rename_i same
      exact .inl (.inr same)
    · exact (stamped j w here seen).imp .inl id

theorem StampQueued.of_markPoisoned {ex ex' : Executor W} {c : NodeIndex} (stamped : ex.StampQueued)
    (h : ex.markPoisoned c = .ok ex') : ex'.StampQueued := by
  obtain ⟨ctx, there, rfl⟩ := markPoisoned_ok h
  intro j w here seen
  replace here : (ex.graph.setWeight c { ctx with poisoned := true }).nodeWeight j = some w := here
  rw [Graph.nodeWeight_setWeight there] at here
  split at here
  · rename_i same
    subst same
    cases here
    exact stamped j ctx there seen
  · exact stamped j w here seen

/-- A node below the cursor that is offered is queued. -/
theorem StampQueued.queues {ex ex' : Executor W} {c : NodeIndex} {o : Offer} (stamped : ex.StampQueued)
    (below : ex.scheduler.currDepth < ex.graph.depthAt c) (h : ex.offer c = some (o, ex')) :
    c ∈ ex'.scheduler.entries := by
  have depth : ∀ ctx, ex.graph.nodeWeight c = some ctx → ex.scheduler.currDepth < ctx.depth := by
    intro ctx there
    rwa [Graph.depthAt_of_core (Graph.core_of_nodeWeight there)] at below
  rcases offer_cases h with ⟨-, rfl, vacant⟩ | ⟨ctx, there, seen, -, rfl⟩ |
    ⟨ctx, there, -, above, -⟩ | ⟨_, -, -, -, bound, -, rfl⟩
  · rw [Graph.depthAt, Graph.core, vacant] at below
    cases below
  · exact (stamped c ctx there seen).resolve_right (Nat.not_le_of_lt (depth ctx there))
  · exact absurd above (Nat.not_lt_of_lt (depth ctx there))
  · exact (Scheduler.mem_enqueue bound ..).mpr (.inr rfl)

/-- What poisoning and scheduling a child does. -/
structure Infects (c : NodeIndex) (ex ex' : Executor W) : Prop where
  steady : Steady ex ex'
  marks : ex'.marks = ex.marks
  poisoned : ∀ j, ex'.Poisoned j ↔ ex.Poisoned j ∨ j = c
  entries : ∀ j, j ∈ ex.scheduler.entries → j ∈ ex'.scheduler.entries
  queued : c ∈ ex'.scheduler.entries
  stamped : ex'.StampQueued

theorem poisonAndSpread_infects {c : NodeIndex} {ex ex' : Executor W} (stamped : ex.StampQueued)
    (below : ex.scheduler.currDepth < ex.graph.depthAt c) (h : ex.poisonAndSpread c = .ok ex') :
    Infects c ex ex' := by
  obtain ⟨mid, poisons, spreads⟩ := Steps.bind_ok h
  have poisoned := poisoned_markPoisoned poisons
  have steady := Steady.of_markPoisoned poisons
  have stamped' := stamped.of_markPoisoned poisons
  have spreading := Steady.of_spread spreads
  have before : mid.gc = ex.gc ∧ mid.scheduler = ex.scheduler := by
    obtain ⟨ctx, -, rfl⟩ := markPoisoned_ok poisons
    exact ⟨rfl, rfl⟩
  obtain ⟨o, last, offered, rfl⟩ := spread_ok spreads
  have below' : mid.scheduler.currDepth < mid.graph.depthAt c := by
    rwa [steady.currDepth, steady.graph.depthAt]
  exact {
    steady := steady.trans spreading
    marks := congrArg (·.map (·.index)) ((gc_offer offered).trans before.1)
    poisoned := fun j => (poisoned_offer offered j).trans (poisoned j)
    entries := fun j queued => show j ∈ last.scheduler.entries from mem_entries_offer offered
      (by rwa [before.2])
    queued := show c ∈ last.scheduler.entries from stamped'.queues below' offered
    stamped := show last.StampQueued from stamped'.of_offer offered }

/-! ## One turn -/

theorem sweptNow_congr {ex ex' : Executor W} (runs : ex'.runs = ex.runs) (i : NodeIndex) :
    ex'.SweptNow i ↔ ex.SweptNow i := by
  rw [SweptNow, runs]
  rfl

namespace Cascade

variable {out todo : List NodeIndex} {ex ex' : Executor W}

theorem spread {c : NodeIndex} (cascade : Cascade out todo ex) (h : ex.spread c = .ok ex') :
    Cascade out todo ex' := by
  obtain ⟨o, mid, offered, rfl⟩ := spread_ok h
  have swept := sweptNow_congr (offer_rest offered).2.2.1
  have same := offer_same offered
  have kept : ∀ j, j ∈ ex.scheduler.entries → j ∈ mid.scheduler.entries := fun j => mem_entries_offer offered
  refine ⟨fun j poisoned => ?_, show mid.StampQueued from cascade.stamped.of_offer offered, fun j now => ?_,
    fun j now d edge => ?_⟩
  · show j ∈ out ∨ j ∈ mid.scheduler.entries ∨ j ∈ mid.marks
    rw [marks, gc_offer offered]
    exact (cascade.covered j ((poisoned_offer offered j).mp poisoned)).imp id (Or.imp (kept j) id)
  · show j ∈ mid.marks
    rw [marks, gc_offer offered]
    exact cascade.marked j ((swept j).mp now)
  · replace edge : ex.graph.Adj j d := same.adj.mp edge
    show d ∈ todo ∨ mid.Poisoned d ∧ (d ∈ out ∨ d ∈ mid.scheduler.entries ∨ mid.SweptNow d)
    rw [poisoned_offer offered, swept]
    exact (cascade.closed j ((swept j).mp now) d edge).imp id (And.imp id (Or.imp id (Or.imp (kept d) id)))

theorem poisonAndSpread {c : NodeIndex} (cascade : Cascade out (c :: todo) ex)
    (below : ex.scheduler.currDepth < ex.graph.depthAt c) (h : ex.poisonAndSpread c = .ok ex') :
    Cascade out todo ex' := by
  have infects := poisonAndSpread_infects cascade.stamped below h
  have swept := sweptNow_congr infects.steady.runs
  constructor
  case covered =>
    intro j poisoned
    rw [infects.marks]
    rcases (infects.poisoned j).mp poisoned with before | rfl
    · exact (cascade.covered j before).imp id (Or.imp (infects.entries j) id)
    · exact .inr (.inl infects.queued)
  case stamped =>
    exact infects.stamped
  case marked =>
    intro j now
    rw [infects.marks]
    exact cascade.marked j ((swept j).mp now)
  case closed =>
    intro j now d edge
    rw [infects.poisoned, swept]
    rcases cascade.closed j ((swept j).mp now) d (infects.steady.graph.adj.mp edge) with waits |
      ⟨before, next⟩
    · rcases List.mem_cons.mp waits with rfl | later
      · exact .inr ⟨.inr rfl, .inr (.inl infects.queued)⟩
      · exact .inl later
    · exact .inr ⟨.inl before, next.imp id (Or.imp (infects.entries d) id)⟩

theorem code (cascade : Cascade out todo ex) (run : CodeRun ex ex') : Cascade out todo ex' := by
  have frame := frame_of_run run
  have swept := sweptNow_congr frame.runs
  have cursor := (Steady.of_code run).currDepth
  constructor
  case covered =>
    intro i poisoned
    rw [Poisoned, frame.graph] at poisoned
    exact (cascade.covered i poisoned).imp id (Or.imp (mem_entries_code run) (marks_mono frame.marks))
  case stamped =>
    intro i ctx there seen
    rw [frame.graph] at there
    rw [frame.epoch] at seen
    rw [cursor]
    exact (cascade.stamped i ctx there seen).imp (mem_entries_code run) id
  case marked =>
    intro i now
    exact marks_mono frame.marks (cascade.marked i ((swept i).mp now))
  case closed =>
    intro i now c edge
    rw [frame.graph] at edge
    rw [Poisoned, frame.graph, swept]
    exact (cascade.closed i ((swept i).mp now) c edge).imp id
      (And.imp id (Or.imp id (Or.imp (mem_entries_code run) id)))

theorem pop {i : NodeIndex} {s : Scheduler} (cascade : Cascade [] [] ex) (wf : ex.scheduler.WF)
    (queued : ex.Queued) (popped : ex.scheduler.pop = (some i, s)) :
    Cascade [i] [] { ex with scheduler := s } := by
  have pop := Scheduler.pop_some wf popped
  have taken : ∀ j, j ∈ ex.scheduler.entries → j ∈ [i] ∨ j ∈ s.entries := fun j member =>
    ((pop.mem_iff j).mp member).symm.imp List.mem_singleton.mpr id
  obtain ⟨fn, core⟩ := queued s.currDepth i (by rw [pop.first]; exact List.mem_cons_self)
  refine ⟨fun j poisoned => ?_, fun j ctx there seen => ?_, cascade.marked, fun j now c edge => .inr ?_⟩
  · rcases cascade.covered j poisoned with no | member | marked
    · cases no
    · exact (taken j member).imp id .inl
    · exact .inr (.inr marked)
  · rcases cascade.stamped j ctx there seen with member | above
    · rcases taken j member with here | member
      · -- the node that is popped lies at the cursor
        rw [List.mem_singleton.mp here] at there
        have depth := (Graph.core_of_nodeWeight there).symm.trans core
        simp only [Option.some.injEq, Prod.mk.injEq] at depth
        exact .inr (Nat.le_of_eq depth.2)
      · exact .inl member
    · exact .inr (Nat.le_trans above pop.low)
  · rcases cascade.closed j now c edge with no | ⟨poisoned, no | member | swept⟩
    · cases no
    · cases no
    · exact ⟨poisoned, (taken c member).imp id .inl⟩
    · exact ⟨poisoned, .inr (.inr swept)⟩

/-- A run that does not sweep was not of a poisoned node. -/
theorem record {run : Run} (cascade : Cascade [run.index] [] ex) (sound : ¬ ex.Poisoned run.index)
    (kept : ¬ run.Swept) :
    Cascade [] [] (ex.recordRun run) := by
  have swept : ∀ j, (ex.recordRun run).SweptNow j ↔ ex.SweptNow j := by
    intro j
    simp [SweptNow, recordRun, log, kept]
  refine ⟨fun j poisoned => .inr ?_, cascade.stamped,
    fun j now => cascade.marked j ((swept j).mp now), fun j now c edge => .inr ?_⟩
  · rcases cascade.covered j poisoned with here | covered
    · rw [List.mem_singleton.mp here] at poisoned
      exact absurd poisoned sound
    · exact covered
  · rw [swept]
    rcases cascade.closed j ((swept j).mp now) c edge with no | ⟨poisoned, here | next⟩
    · cases no
    · rw [List.mem_singleton.mp here] at poisoned
      exact absurd poisoned sound
    · exact ⟨poisoned, .inr next⟩

/-- A run that sweeps marks its node and has the children to poison. -/
theorem recordSwept {run : Run} (cascade : Cascade [run.index] [] ex) (sweeps : run.Swept) :
    Cascade [] (ex.graph.edges run.index)
      ((ex.recordRun run).markForSweep .swept ⟨run.index, some run.node⟩) := by
  have swept : ∀ j, ((ex.recordRun run).markForSweep .swept ⟨run.index, some run.node⟩).SweptNow j ↔
      run.index = j ∨ ex.SweptNow j := by
    intro j
    simp [SweptNow, markForSweep, recordRun, log, sweeps]
  refine ⟨fun j poisoned => .inr ?_, cascade.stamped, fun j now => mem_marks_markForSweep.mpr ?_,
    fun j now c edge => ?_⟩
  · rw [mem_marks_markForSweep]
    rcases cascade.covered j poisoned with here | queued | marked
    · exact .inr (.inr (List.mem_singleton.mp here))
    · exact .inl queued
    · exact .inr (.inl marked)
  · rcases (swept j).mp now with rfl | before
    · exact .inr rfl
    · exact .inl (cascade.marked j before)
  · rw [swept]
    rcases (swept j).mp now with rfl | before
    · exact .inl (Graph.mem_edges_iff.mpr edge)
    · rcases cascade.closed j before c edge with no | ⟨poisoned, here | queued | later⟩
      · cases no
      · exact .inr ⟨poisoned, .inr (.inr (.inl (List.mem_singleton.mp here).symm))⟩
      · exact .inr ⟨poisoned, .inr (.inl queued)⟩
      · exact .inr ⟨poisoned, .inr (.inr (.inr later))⟩

/-- What follows a run poisons all children of a node that was swept. -/
theorem handleControl {run : Run} (cascade : Cascade [run.index] [] ex)
    (verdict : ¬ run.Swept → ¬ ex.Poisoned run.index)
    (below : ∀ c, ex.graph.Adj run.index c → ex.scheduler.currDepth < ex.graph.depthAt c)
    (h : Executor.handleControl run (ex.recordRun run) = .ok ex') : Cascade [] [] ex' := by
  have other : run.verdict.control ≠ .sweep → Cascade [] [] (ex.recordRun run) :=
    fun kept => cascade.record (verdict kept) kept
  unfold Executor.handleControl at h
  split at h
  · rename_i broadcast
    have start := other (by rw [broadcast]; decide)
    exact Steps.foldlM_inv (p := Cascade [] [])
      (fun s c s' _ spreading cascade => cascade.spread spreading) h start
  · rename_i sweeps
    -- the children still to come are the part of the list that is not yet poisoned
    have start := cascade.recordSwept sweeps
    have rest := Steps.foldlM_rest (p := fun l (s : Executor W) => Cascade [] l s ∧
        Steady ((ex.recordRun run).markForSweep .swept ⟨run.index, some run.node⟩) s)
      (fun s c l s' member both ⟨cascade, steady⟩ => by
        have below' : s.scheduler.currDepth < s.graph.depthAt c := by
          rw [steady.currDepth, steady.graph.depthAt]
          exact below c (Graph.mem_edges_iff.mp member)
        exact ⟨cascade.poisonAndSpread below' both,
          steady.trans (poisonAndSpread_infects cascade.stamped below' both).steady⟩)
      h ⟨start, .refl _⟩
    exact rest.1
  · rename_i unchanged
    cases h
    exact other (by rw [unchanged]; decide)
  · rename_i terminate
    cases h
    exact other (by rw [terminate]; decide)

/-- The state in which a turn calls the node it has taken out of the queue. -/
theorem called {now : CycleTime} {i : NodeIndex} {s : Scheduler} {mid : Executor W} {run : Run}
    (cascade : Cascade [] [] ex) (wf : ex.scheduler.WF) (queued : ex.Queued)
    (popped : ex.scheduler.pop = (some i, s))
    (ran : graphCycle prog now i { ex with scheduler := s } = .ok (run, mid)) :
    Cascade [run.index] [] mid ∧ (¬ run.Swept → ¬ mid.Poisoned run.index) := by
  have code := graphCycle_run prog ran
  obtain ⟨ctx, there, rfl, -, poisoned⟩ := graphCycle_ok prog ran
  refine ⟨(cascade.pop wf queued popped).code code, fun kept bad => ?_⟩
  rw [Poisoned, (frame_of_run code).graph] at bad
  obtain ⟨w, here, bad⟩ := bad
  rw [there] at here
  cases here
  apply kept
  rw [Run.Swept, poisoned.mpr bad]
  rfl

theorem turn {now : CycleTime} (cascade : Cascade [] [] ex) (wf : ex.scheduler.WF)
    (sound : ex.Sound) (queued : ex.Queued) (h : nodeStep prog now ex = .ok (.again ex')) :
    Cascade [] [] ex' := by
  obtain ⟨i, s, run, mid, popped, ran, -, handled⟩ := nodeStep_again prog h
  obtain ⟨busy, verdict⟩ := cascade.called wf queued popped ran
  refine busy.handleControl verdict (fun c edge => ?_) handled
  have pop := Scheduler.pop_some wf popped
  have steady := Steady.of_code (graphCycle_run prog ran)
  obtain ⟨ctx, -, rfl, -, -⟩ := graphCycle_ok prog ran
  obtain ⟨fn, core⟩ := queued s.currDepth run.index (by rw [pop.first]; exact List.mem_cons_self)
  have edge' : ex.graph.Adj run.index c := (steady.graph.adj (p := run.index)).mp edge
  have less := sound.depthAt_lt_of_adj edge'
  rw [Graph.depthAt_of_core core] at less
  rw [steady.currDepth, steady.graph.depthAt]
  exact less

/-- A node that terminates is not poisoned, so the early return leaves no gap. -/
theorem terminated {now : CycleTime} (cascade : Cascade [] [] ex) (wf : ex.scheduler.WF) (queued : ex.Queued)
    (h : nodeStep prog now ex = .ok (.terminated ex')) : Cascade [] [] ex' := by
  obtain ⟨i, s, run, mid, popped, ran, ends, rfl⟩ := nodeStep_terminated prog h
  obtain ⟨busy, verdict⟩ := cascade.called wf queued popped ran
  have kept : ¬ run.Swept := by rw [Run.Swept, ends]; decide
  obtain ⟨covered, stamped, marked, closed⟩ := busy.record (verdict kept) kept
  exact ⟨covered, stamped, marked, closed⟩

end Cascade

/-- Between two cycles, and when the node loop ends: poison is covered, and what was swept
in the last cycle is marked and has its children queued or swept. -/
structure Cascaded (ex : Executor W) : Prop where
  covered : ex.Covered
  marked : ∀ i, ex.SweptNow i → i ∈ ex.marks
  closed : ∀ i, ex.SweptNow i → ∀ c, ex.graph.Adj i c → c ∈ ex.scheduler.entries ∨ ex.SweptNow c

theorem Cascade.cascaded {ex : Executor W} (cascade : Cascade [] [] ex) : ex.Cascaded where
  covered i poisoned := (cascade.covered i poisoned).resolve_left List.not_mem_nil
  marked := cascade.marked
  closed i now c edge :=
    ((cascade.closed i now c edge).resolve_left List.not_mem_nil).2.resolve_left List.not_mem_nil

/-- The turns of a loop keep the cascade. -/
theorem Loop.cascaded {now : CycleTime} {exit : Exit} {ex ex' : Executor W} (h : Loop prog now ex exit ex')
    (parents : ex'.All Event.ParentsPresent) (manuals : ex'.All Event.ManualPresent)
    (wf : ex.scheduler.WF) (sound : ex.Sound) (queued : ex.Queued) (cascade : Cascade [] [] ex) :
    ex'.Cascaded := by
  induction h with
  | finished step =>
    obtain ⟨s, popped, rfl⟩ := nodeStep_finished prog step
    obtain ⟨rests, empty⟩ := Scheduler.pop_none wf popped
    obtain ⟨covered, marked, closed⟩ := cascade.cascaded
    have gone : s.entries = [] := rests.entries_nil
    rw [Covered, empty] at covered
    rw [empty] at closed
    refine ⟨?_, marked, ?_⟩
    · show ∀ i, _ → i ∈ s.entries ∨ _
      rw [gone]
      exact covered
    · show ∀ i, _ → ∀ c, _ → c ∈ s.entries ∨ _
      rw [gone]
      exact closed
  | terminated step => exact (cascade.terminated wf queued step).cascaded
  | again step rest ih =>
    have path := nodeStep_path (.inr (.inr step))
    have parents' := Path.all rest.path parents
    have manuals' := Path.all rest.path manuals
    exact ih parents manuals (Path.schedulerWF path wf) (Path.sound path parents' sound)
      (Path.queued path manuals' wf sound.placed queued) (cascade.turn wf sound queued step)

/-- A poll with a new epoch starts a cascade. -/
theorem Covered.cascade {input : CycleInput} {t : Option CycleTime} {ex ex' : Executor W}
    (covered : ex.Covered)
    (fresh : ∀ i ctx, ex.beginCycle.graph.nodeWeight i = some ctx → ctx.schedEpoch ≠ ex.beginCycle.epoch)
    (h : poll input ex.beginCycle = .ok (t, ex')) : Cascade [] [] ex' := by
  have opening : ex.beginCycle.StampQueued := fun i ctx there seen => absurd seen (fresh i ctx there)
  have stamped := poll_inv (p := StampQueued) (fun _ _ stamped => stamped)
    (fun source r s s' fired stamped => by
    obtain ⟨o, mid, offered, -, rfl⟩ := fire_ok fired
    exact show mid.StampQueued from stamped.of_offer offered) h opening
  have covered' := (show ex.beginCycle.Covered from covered).of_poll h
  have idle : ex'.runs = [] := (Steady.of_poll h).runs
  have none : ∀ i, ¬ ex'.SweptNow i := by
    rintro i ⟨run, member, -⟩
    rw [idle] at member
    cases member
  exact ⟨fun i poisoned => .inr (covered' i poisoned), stamped, fun i now => absurd now (none i),
    fun i now => absurd now (none i)⟩

/-! ## Between cycles -/

theorem runNodes_cascaded {fuel : Nat} {input : CycleInput} {exit : Exit} {ex ex' : Executor W}
    (reached : Reachable (fun _ => True) ex) (covered : ex.Covered) (parents : ex'.All Event.ParentsPresent)
    (manuals : ex'.All Event.ManualPresent) (few : ex.cycles + 1 < 2 ^ 64)
    (h : runNodes prog fuel input ex = .ok (exit, ex')) : ex'.Cascaded := by
  have fresh := (reached.stamped (by omega)).fresh few
  rcases runNodes_ok prog h with ⟨-, polls⟩ | ⟨now, polled, polls, loop⟩
  · exact (covered.cascade fresh polls).cascaded
  · have path : Path ex polled := .head .begin (poll_path polls)
    have parents' := Path.all loop.path parents
    have manuals' := Path.all loop.path manuals
    have sound := reached.sound (Path.all path parents')
    have queued := reached.queued (Path.all path manuals')
    exact loop.cascaded parents manuals (Path.schedulerWF path reached.schedulerWF)
      (Path.sound path parents' sound)
      (Path.queued path manuals' reached.schedulerWF sound.placed queued) (covered.cascade fresh polls)

/-- Between two calls every poisoned node is queued or marked, in whatever way the cycles
before ended. -/
theorem Reachable.covered {ex : Executor W} (reached : Reachable (fun _ => True) ex)
    (parents : ex.All Event.ParentsPresent) (manuals : ex.All Event.ManualPresent)
    (few : ex.cycles < 2 ^ 64) : ex.Covered := by
  obtain ⟨cfg, mode, world, run⟩ := reached
  induction run with
  | refl =>
    rintro i ⟨ctx, there, -⟩
    cases there
  | tail run step ih =>
    rename_i before after
    have reached : Reachable (fun _ => True) before := ⟨cfg, mode, world, run⟩
    have path := step.path reached.schedulerWF
    have covered :=
      ih (Path.all path parents) (Path.all path manuals) (Nat.lt_of_le_of_lt (Path.cycles_le path) few)
    cases step with
    | op prog op applied => exact covered.execOp applied
    | cycle prog fuel input exit _ returned =>
      have began := cycles_of_cycle reached.schedulerWF returned
      rcases cycle_ok prog returned with ⟨-, nodes⟩ | ⟨-, mid, swept, nodes, sweeps, spawns⟩
      · exact (runNodes_cascaded reached covered parents manuals (by omega) nodes).covered
      · have swept' := sweepLoop_path prog (runNodes_atRest prog reached.schedulerWF nodes) sweeps
        have later := swept'.1.trans (runSpawns_path prog spawns)
        have cascaded :=
          runNodes_cascaded reached covered (Path.all later parents) (Path.all later manuals) (by omega) nodes
        exact (cascaded.covered.sweepLoop sweeps).runSpawns spawns

end Executor
end Wavelet
