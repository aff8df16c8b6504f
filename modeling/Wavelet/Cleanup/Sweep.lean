import Wavelet.Cleanup.Cascade
import Wavelet.Runtime.Ownership

/-!
# The sweep

Every node whose last handle is gone is marked. The sweep loop takes the marks one by one;
each either finds an empty slot or removes a node, and what the removed node held may add
marks, so the loop ends, and it ends when no mark is left. Together with the cascade of the
node loop this clears the graph of every node that has to go.
-/

namespace Wavelet
namespace Executor

variable {W : Type} {prog : Program W}

/-! ## Nodes without a handle -/

/-- A node of the graph has a handle left or is marked. -/
def DeadMarked (ex : Executor W) : Prop := ∀ i k, ex.keyAt i = some k → ex.Alive k ∨ i ∈ ex.marks

theorem alive_release {ex : Executor W} {o : Owner} {k j : Key} (other : j ≠ k) (alive : ex.Alive j) :
    (ex.release o k).Alive j := by
  obtain ⟨⟨p, l⟩, member, rfl⟩ := List.mem_map.mp alive
  refine List.mem_map.mpr ⟨(p, l), (List.mem_erase_of_ne ?_).mpr member, rfl⟩
  intro same
  cases same
  exact other rfl

theorem HandleStep.deadMarked {ex ex' : Executor W} (step : HandleStep ex ex')
    (inPlace : ex.InPlace) (dead : ex.DeadMarked) :
    ex'.DeadMarked := by
  cases step with
  | clone o k => exact fun i j here => (dead i j here).imp (List.mem_cons_of_mem _) id
  | release o k held left =>
    intro i j here
    by_cases same : j = k
    · exact .inl (same ▸ left)
    · exact (dead i j here).imp (alive_release same) id
  | expire o k held last =>
    intro i j here
    replace here : ex.keyAt i = some j := here
    show (ex.release o k).Alive j ∨
      i ∈ (((ex.release o k).log (.dropped k)).markForSweep .lastHandle ⟨(ex.inner k).index, some k⟩).marks
    rw [mem_marks_markForSweep]
    by_cases same : j = k
    · -- the node sits at the index that its own data names
      subst same
      exact .inr (.inr (inPlace.of_keyAt here).2.symm)
    · exact (dead i j here).imp (alive_release same) .inl
  | request t =>
    exact fun i k here => (dead i k here).imp id fun marked => mem_marks_markForSweep.mpr (.inl marked)
  | _ => exact dead

theorem DeadMarked.congr {ex ex' : Executor W} (dead : ex.DeadMarked) (slots : ∀ i, ex'.keyAt i = ex.keyAt i)
    (handles : ex'.handles = ex.handles) (marks : ex.gc <+: ex'.gc) : ex'.DeadMarked := by
  intro i k here
  rw [slots] at here
  rw [Alive, handles]
  exact (dead i k here).imp id (marks_mono marks)

theorem Micro.deadMarked {ex ex' : Executor W} (step : Micro ex ex') (inPlace : ex.InPlace)
    (dead : ex.DeadMarked) :
    ex'.DeadMarked := by
  cases step with
  | code step =>
    cases step with
    | handle step => exact step.deadMarked inPlace dead
    | _ => exact dead
  | fire source driver r known sub takes fired =>
    obtain ⟨o, mid, offered, -, rfl⟩ := fire_ok fired
    have slots := keyAt_of_same (offer_same offered)
    have handles := handles_offer offered
    have gc := gc_offer offered
    exact dead.congr slots handles (show ex.gc <+: mid.gc from gc ▸ List.prefix_refl _)
  | poison i poisoned =>
    obtain ⟨ctx, there, rfl⟩ := markPoisoned_ok poisoned
    exact dead.congr (keyAt_of_same (Graph.setWeight_same there _ rfl rfl)) rfl (List.prefix_refl _)
  | spread child spreads =>
    obtain ⟨o, mid, offered, rfl⟩ := spread_ok spreads
    have slots := keyAt_of_same (offer_same offered)
    have handles := handles_offer offered
    have gc := gc_offer offered
    exact dead.congr slots handles (show ex.gc <+: mid.gc from gc ▸ List.prefix_refl _)
  | mark run there swept ran => exact dead.congr (fun _ => rfl) rfl (List.prefix_append ..)
  | discard r rest front vacant =>
    intro i k here
    replace here : ex.keyAt i = some k := here
    refine (dead i k here).imp id fun marked => ?_
    rw [marks, front, List.map_cons] at marked
    refine (List.mem_cons.mp marked).resolve_left ?_
    rintro rfl
    rw [vacant] at here
    cases here
  | remove r rest j front there rests =>
    intro i k here
    obtain ⟨other, there⟩ := keyAt_of_removeNode here
    refine (dead i k there).imp id fun marked => ?_
    rw [marks, front, List.map_cons] at marked
    exact (List.mem_cons.mp marked).resolve_left other
  | build args depth graph vacant deep edges =>
    intro i k here
    rw [keyAt_insertNode edges] at here
    split at here
    · cases here
      exact .inl List.mem_cons_self
    · exact (dead i k here).imp (List.mem_cons_of_mem _) id
  | _ => exact dead

theorem Path.deadMarked {ex ex' : Executor W} (path : Path ex ex') (inPlace : ex.InPlace)
    (dead : ex.DeadMarked) :
    ex'.DeadMarked := by
  have both := Steps.run_inv (p := fun s : Executor W => s.InPlace ∧ s.DeadMarked)
    (fun _ _ step both => ⟨step.inPlace both.1, step.deadMarked both.1 both.2⟩) path ⟨inPlace, dead⟩
  exact both.2

theorem Reachable.deadMarked {allowed : Exit → Prop} {ex : Executor W}
    (reached : Reachable allowed ex) : ex.DeadMarked := by
  obtain ⟨cfg, mode, world, path⟩ := reached.path
  exact path.deadMarked (fun _ _ _ there => by cases there) fun i k here => by cases here

/-! ## The loop ends -/

variable (prog) in
/-- Removing a node drops what it holds. -/
theorem removeNode_run {ex : Executor W} {i : NodeIndex} {k : Key} (there : ex.keyAt i = some k) :
    HandleRun (log { ex with graph := ex.graph.removeNode i } (.removed k)) (removeNode prog ex i) := by
  unfold removeNode
  rw [there]
  exact (dropOwner_run prog _ (.graph k)).trans (dropOwner_run prog _ (.closure k))

theorem removeNode_vacant {ex : Executor W} {i : NodeIndex} (vacant : ex.keyAt i = none) :
    removeNode prog ex i = ex := by
  unfold removeNode
  rw [vacant]

theorem slots_removeNode (ex : Executor W) (i j : NodeIndex) :
    (removeNode prog ex i).keyAt j = if j = i then none else ex.keyAt j := by
  cases there : ex.keyAt i with
  | none =>
    rw [removeNode_vacant there]
    split
    · rename_i same
      rw [same, there]
    · rfl
  | some k =>
    rw [(frame_of_run (removeNode_run prog there).code).keyAt]
    exact keyAt_removeNode ex i j

theorem marks_removeNode (ex : Executor W) (i : NodeIndex) : ex.gc <+: (removeNode prog ex i).gc := by
  cases there : ex.keyAt i with
  | none =>
    exact (removeNode_vacant there).symm ▸ List.prefix_refl _
  | some k => exact (frame_of_run (removeNode_run prog there).code).marks

variable (prog) in
/-- Taking a mark lowers the number of nodes, or finds an empty slot. -/
theorem removeNode_lowers (ex : Executor W) (i : NodeIndex) :
    (removeNode prog ex i).graph.nodeCount < ex.graph.nodeCount ∨ removeNode prog ex i = ex := by
  cases there : ex.keyAt i with
  | none => exact .inr (removeNode_vacant there)
  | some k =>
    obtain ⟨ctx, here, -⟩ := Option.map_eq_some_iff.mp there
    rw [(frame_of_run (removeNode_run prog there).code).graph]
    exact .inl (Graph.nodeCount_removeNode here)

variable (prog) in
theorem sweepLoop_ends (ex : Executor W) : ∃ n swept, ∀ m, n ≤ m → sweepLoop prog m ex = .ok swept := by
  -- a removal lowers the number of nodes, a mark of an empty slot the number of marks
  induction nodes : ex.graph.nodeCount using Nat.strongRecOn generalizing ex with
  | _ nodes byNodes =>
    induction count : ex.gc.length generalizing ex with
    | zero =>
      refine ⟨1, ex, fun m enough => ?_⟩
      obtain ⟨m, rfl⟩ : ∃ m', m = m' + 1 := ⟨m - 1, by omega⟩
      rw [sweepLoop, List.eq_nil_of_length_eq_zero count]
    | succ count byMarks =>
      obtain ⟨r, rest, front⟩ : ∃ r rest, ex.gc = r :: rest := List.exists_cons_of_length_eq_add_one count
      have continued : ∃ n swept, ∀ m, n ≤ m →
          sweepLoop prog m (removeNode prog { ex with gc := rest } r.index) = .ok swept := by
        rcases removeNode_lowers prog { ex with gc := rest } r.index with less | same
        · exact byNodes _ (by rw [← nodes]; exact less) _ rfl
        · rw [same]
          exact byMarks { ex with gc := rest } nodes (by simpa [front] using count)
      obtain ⟨n, swept, ends⟩ := continued
      refine ⟨n + 1, swept, fun m enough => ?_⟩
      obtain ⟨m, rfl⟩ : ∃ m', m = m' + 1 := ⟨m - 1, by omega⟩
      rw [sweepLoop, front]
      exact ends m (by omega)

/-- The loop empties every marked slot and fills none. -/
theorem sweepLoop_clears {fuel : Nat} {ex swept : Executor W}
    (h : sweepLoop prog fuel ex = .ok swept) (i : NodeIndex) :
    swept.keyAt i = none ∨ swept.keyAt i = ex.keyAt i ∧ i ∉ ex.marks := by
  induction fuel generalizing ex with
  | zero => cases h
  | succ fuel ih =>
    rw [sweepLoop] at h
    split at h
    · rename_i empty
      cases h
      exact .inr ⟨rfl, by rw [marks, empty]; exact List.not_mem_nil⟩
    · rename_i r rest front
      rcases ih h with gone | ⟨same, unmarked⟩
      · exact .inl gone
      · rw [slots_removeNode] at same
        split at same
        · exact .inl same
        · rename_i other
          refine .inr ⟨same, fun marked => unmarked ?_⟩
          rw [marks, front, List.map_cons] at marked
          exact marks_mono (marks_removeNode { ex with gc := rest } r.index)
            ((List.mem_cons.mp marked).resolve_left other)

/-- A node whose last handle goes with another node is marked in time. -/
theorem sweepLoop_deadMarked {fuel : Nat} {ex swept : Executor W} (rests : ex.scheduler.AtRest)
    (h : sweepLoop prog fuel ex = .ok swept) (inPlace : ex.InPlace) (dead : ex.DeadMarked) :
    swept.DeadMarked :=
  Path.deadMarked (sweepLoop_path prog rests h).1 inPlace dead

/-! ## What the sweep leaves -/

/-- When nothing is queued any more, everything below a swept node was swept. -/
theorem Cascaded.cone {ex : Executor W} (cascaded : ex.Cascaded) (empty : ex.scheduler.entries = [])
    {i c : NodeIndex} (below : ex.graph.Ancestor i c) (now : ex.SweptNow i) : ex.SweptNow c := by
  have child : ∀ j d, ex.SweptNow j → ex.graph.Adj j d → ex.SweptNow d := by
    intro j d now edge
    rcases cascaded.closed j now d edge with queued | swept
    · rw [empty] at queued
      cases queued
    · exact swept
  induction below with
  | single edge => exact child _ _ now edge
  | tail _ edge ih => exact child _ _ ih edge

/-- After a node loop that runs to its end, the sweep loop ends. It leaves no mark, no
poisoned node, no node that was swept in this cycle, nothing below such a node, and no node
without a handle. The epoch must not have wrapped around. -/
theorem sweep_completes {fuel : Nat} {input : CycleInput} {ex mid : Executor W}
    (reached : Reachable (fun _ => True) ex) (parents : mid.All Event.ParentsPresent)
    (manuals : mid.All Event.ManualPresent) (few : ex.cycles + 1 < 2 ^ 64)
    (nodes : runNodes prog fuel input ex = .ok (.running, mid)) :
    ∃ n swept, (∀ m, n ≤ m → sweepLoop prog m mid = .ok swept) ∧ swept.gc = [] ∧ (∀ i, ¬ swept.Poisoned i) ∧
      (∀ run ∈ mid.runs, run.Swept → ∀ i, i = run.index ∨ mid.graph.Ancestor run.index i →
      swept.keyAt i = none) ∧
      ∀ i k, swept.keyAt i = some k → swept.Alive k := by
  have path := runNodes_path prog nodes
  have parents' := Path.all path parents
  have covered := reached.covered parents' (Path.all path manuals) (by omega)
  have cascaded := runNodes_cascaded reached covered parents manuals few nodes
  have rests := runNodes_atRest prog reached.schedulerWF nodes
  obtain ⟨n, swept, ends⟩ := sweepLoop_ends prog mid
  have last := ends n (Nat.le_refl n)
  obtain ⟨-, scheduler, empty⟩ := sweepLoop_path prog rests last
  refine ⟨n, swept, ends, empty, fun i poisoned => ?_, fun run member sweeps i below => ?_,
    fun i k here => ?_⟩
  · rcases cascaded.covered.sweepLoop last i poisoned with queued | marked
    · rw [scheduler, rests.entries_nil] at queued
      cases queued
    · rw [marks, empty] at marked
      cases marked
  · have now : mid.SweptNow i := by
      rcases below with rfl | below
      · exact ⟨run, member, rfl, sweeps⟩
      · exact cascaded.cone rests.entries_nil below ⟨run, member, rfl, sweeps⟩
    exact (sweepLoop_clears last i).resolve_right fun kept => kept.2 (cascaded.marked i now)
  · have inPlace := Path.inPlace path reached.inPlace
    have dead := sweepLoop_deadMarked rests last inPlace
      (Path.deadMarked path reached.inPlace reached.deadMarked)
    refine (dead i k here).resolve_right fun marked => ?_
    rw [marks, empty] at marked
    cases marked

/-- Node 1 holds the last handle of node 0 and has a child, node 2. -/
def holdingOps : List (ExecOp Unit) :=
  [.build { index := 0 }, .build { index := 1, captures := [0] },
    .build { index := 2, relationships := [(1, .observe)] },
    .handle (.drop 0 .user), .driver (.yieldNow (.node 1))]

/-- Every node that runs is swept. -/
def sweeping : Program Unit where
  cycleFn _ _ _ := ([], .ret .sweep)
  onDrop _ _ := []
  spawnFn _ _ := []

theorem sweeping_completes :
    ∃ ex mid, bare.execOps sweeping holdingOps = .ok ex ∧
      runNodes sweeping 4 instantly ex = .ok (.running, mid) ∧
      mid.graph.nodeCount = 3 ∧ mid.marks = [1, 2] ∧
      ∃ n swept, (∀ m, n ≤ m → sweepLoop sweeping m mid = .ok swept) ∧ swept.gc = [] ∧
      ∀ i, ¬ swept.Poisoned i :=
  have built : bare.execOps sweeping holdingOps = .ok _ := rfl
  have nodes : runNodes sweeping 4 instantly _ = .ok (.running, _) := rfl
  have ⟨n, swept, ends, empty, clean, _⟩ :=
    sweep_completes (.ops (.initial ..) built) (by decide) (by decide) (by decide) nodes
  ⟨_, _, built, nodes, rfl, rfl, n, swept, ends, empty, clean⟩

/-! ## The epoch wraps around -/

/-- Two nodes after idle cycles; the parent was scheduled in the first cycle, its child
never. -/
def lull (epoch : Nat) (trace : List Event) : Executor Unit :=
  { bare with
    graph := ⟨[some ⟨⟨0, false, false⟩, 1, 0, false⟩, some (.new ⟨1, false, false⟩ 1)], [⟨0, 1, .trigger⟩]⟩
    scheduler := ⟨[[], []], 0, 0⟩
    inners := [⟨0, 0, 0⟩, ⟨1, 1, 0⟩]
    handles := [(.user, 1), (.user, 0)]
    epoch := epoch
    trace := trace }

/-- Nothing happens. -/
def still : Program Unit where
  cycleFn _ _ _ := ([], .ret .unchanged)
  onDrop _ _ := []
  spawnFn _ _ := []

theorem lull_cycle (epoch : Nat) (trace : List Event) :
    cycle still 1 instantly (lull epoch trace) =
      .ok (.running, lull ((epoch + 1) % 2 ^ 64) (.began :: trace)) := rfl

theorem lull_reachable (n : Nat) :
    ∃ trace, Reachable (fun _ => True) (lull ((n + 2) % 2 ^ 64) trace) ∧
      ∀ event ∈ trace, event.ParentsPresent ∧ event.ManualPresent := by
  induction n with
  | zero =>
    have played : bare.play still 2 [(relayOps, instantly), ([], instantly)] =
        .ok ([.running, .running], lull 2 _) := rfl
    exact ⟨_, (Reachable.initial ..).play played (fun _ _ => trivial), by decide⟩
  | succ n ih =>
    obtain ⟨trace, reached, present⟩ := ih
    refine ⟨.began :: trace, ?_, fun event member => ?_⟩
    · rw [show n + 1 + 2 = n + 2 + 1 by omega, ← Nat.mod_add_mod]
      exact reached.cycle trivial (lull_cycle ..)
    · rcases List.mem_cons.mp member with rfl | old
      · exact ⟨trivial, trivial⟩
      · exact present event old

/-- The parent yields. -/
def roused (epoch : Nat) (trace : List Event) : Executor Unit :=
  { lull epoch (.registered ⟨0, some 0⟩ (some 0) :: trace) with
    eventDriver := { bare.eventDriver with yieldDriver := [⟨0, some 0⟩] } }

theorem lull_yields (epoch : Nat) (trace : List Event) :
    (lull epoch trace).execOps still [.driver (.yieldNow (.node 0))] = .ok (roused epoch trace) := rfl

/-- In the cycle of epoch 0 the child of a node that is swept counts as scheduled already:
it is poisoned, but neither runs nor goes. -/
theorem roused_sweeps {epoch : Nat} (wraps : (epoch + 1) % 2 ^ 64 = 0) (trace : List Event) :
    ∃ mid swept events, runNodes sweeping 2 instantly (roused epoch trace) = .ok (.running, mid) ∧
      mid.trace = events ++ trace ∧ (∀ event ∈ events, event.ParentsPresent ∧ event.ManualPresent) ∧
      sweepLoop sweeping 2 mid = .ok swept ∧ swept.gc = [] ∧ swept.Poisoned 1 := by
  unfold runNodes
  rw [@beginCycle_of_wraps _ (roused epoch trace) wraps]
  exact ⟨_, _, [.spread 1 false .stamped, .poisoned 1, .marked .swept ⟨0, some 0⟩ (some 0),
    .ran ⟨0, 0, .returned .sweep⟩,
    .fired .yield ⟨0, some 0⟩ (some 0) false .accepted, .began, .registered ⟨0, some 0⟩ (some 0)],
      rfl, rfl, by decide, rfl, rfl,
    _, rfl, rfl⟩

theorem wrapped_child_survives :
    ∃ ex mid swept, Reachable (fun _ => True) ex ∧ mid.All Event.ParentsPresent ∧
      mid.All Event.ManualPresent ∧
      runNodes sweeping 2 instantly ex = .ok (.running, mid) ∧
      sweepLoop sweeping 2 mid = .ok swept ∧ swept.gc = [] ∧
      swept.Poisoned 1 := by
  obtain ⟨trace, reached, present⟩ := lull_reachable (2 ^ 64 - 3)
  obtain ⟨mid, swept, events, nodes, logged, fine, sweeps, empty, poisoned⟩ :=
    roused_sweeps (show ((2 ^ 64 - 3 + 2) % 2 ^ 64 + 1) % 2 ^ 64 = 0 by omega) trace
  have all : ∀ event ∈ mid.trace, event.ParentsPresent ∧ event.ManualPresent := by
    intro event member
    rw [logged] at member
    exact (List.mem_append.mp member).elim (fine event) (present event)
  exact ⟨_, mid, swept, reached.ops (lull_yields ..), fun event member => (all event member).1,
    fun event member => (all event member).2, nodes, sweeps, empty, poisoned⟩

end Executor
end Wavelet
