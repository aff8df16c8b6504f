import Mathlib.Data.List.Nodup
import Wavelet.Cycle.Books
import Wavelet.Lib.Worklist

/-!
# Exactly the right nodes run

The node loop is a worklist: its items are the nodes of the graph, its seeds the nodes that
the events of the cycle woke, and a run tells which children it fires. So the nodes that
run in a cycle are the least set that contains the seeds and is closed under broadcasts and
sweeps, and each runs once.
-/

namespace Wavelet

/-- What the runs of a cycle ask of a set of nodes: a broadcast runs the children over
trigger edges, a sweep runs all children and sweeps them. -/
structure ClosedUnder (g : Graph) (runs : List Run) (S : Set NodeIndex) : Prop where
  broadcast : ∀ run ∈ runs, run.index ∈ S → run.verdict = .returned .broadcast →
    ∀ c ∈ g.triggeringEdges run.index, c ∈ S
  swept : ∀ run ∈ runs, run.index ∈ S → run.Swept →
    ∀ c, g.Adj run.index c → c ∈ S ∧ ∃ child ∈ runs, child.index = c ∧ child.Swept

namespace Executor

variable {W : Type} {prog : Program W}

/-- The nodes of the graph among the seeds. -/
def liveSeeds (input : CycleInput) (ex : Executor W) : Set NodeIndex :=
  { i | i ∈ (seeds input ex).map (·.index) ∧ (ex.graph.nodeWeight i).isSome }

/-- The rules found so far. -/
def Fires (g : Graph) (runs : List Run) (p c : NodeIndex) : Prop :=
  ∃ run ∈ runs, run.index = p ∧ c ∈ g.scheduledBy run

def ran (ex : Executor W) : Set NodeIndex := { i | i ∈ ex.runs.map (·.index) }

/-- The node loop as a worklist over the graph the cycle started with, with the nodes that
are poisoned. -/
structure Closing (start : Executor W) (seeds : Set NodeIndex) (offered : List NodeIndex)
    (ex : Executor W) : Prop where
  same : start.graph.Same ex.graph
  worklist : Worklist seeds (Fires start.graph ex.runs) ex.ran { i | i ∈ offered ∧
    (start.graph.core i).isSome }
  poison : ∀ i, ex.Poisoned i ↔ start.Poisoned i ∨ ∃ p ∈ ex.runs, p.Swept ∧ start.graph.Adj p.index i
  verdicts : ∀ run ∈ ex.runs, run.verdict = .poisoned ↔
    start.Poisoned run.index ∨ ∃ p ∈ ex.runs, p.Swept ∧ start.graph.Adj p.index run.index

theorem Closing.turn {start : Executor W} {seeds : Set NodeIndex} {offered : List NodeIndex}
    {ex ex' : Executor W} {run : Run} (sound : start.Sound)
    (closing : Closing start seeds offered ex) (turn : TurnSpec [] offered ex ex' run) :
    Closing start seeds (offered ++ start.graph.scheduledBy run) ex' := by
  have same := closing.same
  have here : (start.graph.core run.index).isSome := by
    have live := turn.live
    rw [← same.core, Graph.core, Option.isSome_map]
    exact live
  have known : run.index ∈ { i | i ∈ offered ∧ (start.graph.core i).isSome } := by
    rcases turn.offered with no | member
    · cases no
    · exact ⟨member, here⟩
  have poison : ∀ i, ex'.Poisoned i ↔ start.Poisoned i ∨ ∃ p ∈ ex'.runs, p.Swept ∧
      start.graph.Adj p.index i := by
    intro i
    rw [turn.poison, closing.poison, turn.runs, same.adj]
    simp only [List.mem_cons, exists_eq_or_imp]
    rw [or_assoc, or_comm (b := run.Swept ∧ _)]
  refine ⟨same.trans turn.same, ?_, poison, ?_⟩
  · have next :=
      closing.worklist.step known { c | c ∈ start.graph.scheduledBy run ∧ (start.graph.core c).isSome }
    have rules : Fires start.graph ex'.runs = fun p c => Fires start.graph ex.runs p c ∨
        p = run.index ∧ c ∈ { c | c ∈ start.graph.scheduledBy run ∧ (start.graph.core c).isSome } := by
      funext p c
      simp only [Fires, turn.runs, List.mem_cons, exists_eq_or_imp, Set.mem_ofPred_eq, eq_iff_iff]
      have live : c ∈ start.graph.scheduledBy run → (start.graph.core c).isSome := by
        intro member
        obtain ⟨r, edge⟩ := Graph.adj_of_scheduledBy member
        obtain ⟨pc, cc, -, child, -⟩ := sound.ascending _ edge
        rw [child]; rfl
      constructor
      · rintro (⟨rfl, member⟩ | old)
        · exact .inr ⟨rfl, member, live member⟩
        · exact .inl old
      · rintro (old | ⟨rfl, member, -⟩)
        · exact .inr old
        · exact .inl ⟨rfl, member⟩
    have done : ex'.ran = insert run.index ex.ran := by
      ext i
      simp [ran, turn.runs]
    have seen : { i | i ∈ offered ++ start.graph.scheduledBy run ∧ (start.graph.core i).isSome } =
        { i | i ∈ offered ∧ (start.graph.core i).isSome } ∪
          { c | c ∈ start.graph.scheduledBy run ∧ (start.graph.core c).isSome } := by
      ext i
      simp only [List.mem_append, Set.mem_ofPred_eq, Set.mem_union]
      tauto
    rw [rules, done, seen]
    exact next
  · intro r member
    rw [turn.runs] at member ⊢
    simp only [List.mem_cons, exists_eq_or_imp]
    -- a node that has run does not lie below the node that runs now
    have no : ¬ (run.Swept ∧ start.graph.Adj run.index r.index) := by
      rintro ⟨-, edge⟩
      have less := sound.depthAt_lt_of_adj edge
      rcases List.mem_cons.mp member with rfl | old
      · omega
      · have before := turn.last r old
        rw [same.depthAt, same.depthAt] at before
        omega
    simp only [no, false_or]
    rcases List.mem_cons.mp member with rfl | old
    · rw [turn.verdict, closing.poison]
    · exact closing.verdicts r old

/-- The rest of the loop, up to the pop that finds nothing. -/
theorem Closing.loop {start : Executor W} {seeds : Set NodeIndex} {offered : List NodeIndex} {now : CycleTime}
    {exit : Exit} {ex ex' : Executor W} (quiet : prog.NoManual) (sound : start.Sound)
    (h : Loop prog now ex exit ex') (runs : exit = .running) (books : Books [] offered ex)
    (closing : Closing start seeds offered ex) :
    ∃ offered' last, Books [] offered' last ∧ Closing start seeds offered' last ∧
      last.scheduler.entries = [] ∧
      ex'.runs = last.runs := by
  induction h generalizing offered with
  | finished step =>
    obtain ⟨s, popped, rfl⟩ := nodeStep_finished prog step
    exact ⟨offered, _, books, closing, (Scheduler.pop_none books.wf popped).2, rfl⟩
  | terminated step => cases runs
  | again step _ ih =>
    obtain ⟨run, turn⟩ := books.turn quiet step
    have next := closing.turn sound turn
    have books' := turn.books
    rw [closing.same.scheduledBy] at books'
    exact ih runs books' next

/-- Once nothing is queued, the runs are the least closed set, without repetition. -/
theorem Closing.finish {start : Executor W} {seeds : Set NodeIndex} {offered : List NodeIndex}
    {last : Executor W} (books : Books [] offered last) (closing : Closing start seeds offered last)
    (empty : last.scheduler.entries = []) :
    (last.runs.map (·.index)).Nodup ∧
      IsLeast { S : Set NodeIndex | seeds ⊆ S ∧ ClosedUnder start.graph last.runs S } last.ran := by
  have live : ∀ i, (last.graph.nodeWeight i).isSome = (start.graph.core i).isSome := by
    intro i
    rw [← closing.same.core, Graph.core, Option.isSome_map]
  have counted : ∀ i, (last.runs.map (·.index)).count i = if i ∈ offered ∧
      (start.graph.core i).isSome then 1 else 0 := by
    intro i
    have total := books.tally.counted i
    rw [empty] at total
    simpa [live] using total
  have exactly : last.ran = { i | i ∈ offered ∧ (start.graph.core i).isSome } := by
    ext i
    show i ∈ last.runs.map (·.index) ↔ _
    rw [← List.count_pos_iff, counted]
    split <;> simp_all
  refine ⟨List.nodup_iff_count_le_one.mpr fun i => ?_, ?_⟩
  · rw [counted]
    split <;> omega
  · have least := closing.worklist.finish exactly.superset exactly.subset
    constructor
    · refine ⟨least.1.1, fun run member _ verdict c edge => ?_, fun run member _ swept c edge => ?_⟩
      · exact least.1.2 run.index (List.mem_map.mpr ⟨run, member, rfl⟩) c
          ⟨run, member, rfl, by simpa [Graph.scheduledBy, verdict, Verdict.control] using edge⟩
      · have child : c ∈ last.ran := by
          refine least.1.2 run.index (List.mem_map.mpr ⟨run, member, rfl⟩) c ⟨run, member, rfl, ?_⟩
          have swept' : run.verdict.control = .sweep := swept
          simpa [Graph.scheduledBy, swept'] using Graph.mem_edges_iff.mpr edge
        obtain ⟨r, member', rfl⟩ := List.mem_map.mp child
        refine ⟨child, r, member', rfl, ?_⟩
        have poisoned := (closing.verdicts r member').mpr (.inr ⟨run, member, swept, edge⟩)
        rw [Run.Swept, poisoned]
        rfl
    · rintro S ⟨contains, closed⟩
      refine least.2 ⟨contains, ?_⟩
      rintro a inside b ⟨run, member, rfl, fires⟩
      unfold Graph.scheduledBy at fires
      split at fires
      · rename_i broadcast
        refine closed.broadcast run member inside ?_ b fires
        cases verdict : run.verdict with
        | returned c => rw [verdict] at broadcast; exact congrArg _ broadcast
        | _ => rw [verdict] at broadcast; cases broadcast
      · rename_i swept
        exact (closed.swept run member inside swept b (Graph.mem_edges_iff.mp fires)).1
      · cases fires
      · cases fires

theorem poisoned_poll {input : CycleInput} {t : Option CycleTime} {ex ex' : Executor W}
    (h : poll input ex = .ok (t, ex')) (i : NodeIndex) : ex'.Poisoned i ↔ ex.Poisoned i :=
  poll_inv (p := fun s : Executor W => s.Poisoned i ↔ ex.Poisoned i) (fun _ _ same => same)
    (fun source r s s' fired same => by
      obtain ⟨o, mid, offered, -, rfl⟩ := fire_ok fired
      exact (poisoned_offer offered i).trans same) h Iff.rfl

/-- The state after a poll that began at rest with a new epoch. -/
theorem poll_books {input : CycleInput} {t : Option CycleTime} {ex ex' : Executor W} (wf : ex.scheduler.WF)
    (sound : ex.Sound) (queued : ex.Queued) (top : ex.scheduler.currDepth = 0)
    (fresh : ∀ i ctx, ex.beginCycle.graph.nodeWeight i = some ctx → ctx.schedEpoch ≠ ex.beginCycle.epoch)
    (h : poll input ex.beginCycle = .ok (t, ex')) :
    Books ex.scheduler.entries ((if t.isSome then seeds input ex else internalSeeds input ex).map
      (·.index)) ex' := by
  have opening : Tally ex.scheduler.entries [] ex.beginCycle := Tally.start fresh rfl
  have tally := opening.poll top h
  have steady := Steady.of_poll h
  have inside := poll_inv (p := fun s : Executor W => s.scheduler.WF ∧ s.Queued ∧ s.inners = ex.inners)
    (fun _ _ good => good) (fun source r s s' fired ⟨wf, queued, inners⟩ => by
      obtain ⟨o, mid, offered, -, rfl⟩ := fire_ok fired
      exact ⟨show mid.scheduler.WF from schedulerWF_offer offered wf,
        show mid.Queued from offer_queued offered queued,
        (inners_offer offered).trans inners⟩) h
    ⟨wf, queued, rfl⟩
  obtain ⟨wf', queued', inners⟩ := inside
  refine ⟨wf', ?_, queued', ?_, tally⟩
  · exact steady.sound (by rw [inners]; rfl) (fun k => by rw [inner, inners]; rfl)
      (fun k => by rw [inner, inners]; rfl)
      (sound.congr (.refl _) rfl (fun _ => rfl) (fun _ => rfl) rfl)
  · exact Ordered.steady ⟨List.Pairwise.nil, fun _ member => by cases member⟩ steady

/-- A cycle that starts at rest and returns `Running` runs the least set of nodes that
contains the seeds and is closed under broadcasts and sweeps, each node once; a node runs
poisoned exactly if it was poisoned before or has a parent that was swept. The epoch must
not have wrapped around. -/
theorem runs_exactly_least {fuel : Nat} {input : CycleInput} {ex ex' : Executor W} (quiet : prog.NoManual)
    (reached : Reachable (· = .running) ex) (parents : ex.All Event.ParentsPresent)
    (few : ex.cycles + 1 < 2 ^ 64) (returned : cycle prog fuel input ex = .ok (.running, ex')) :
    (ex'.runs.map (·.index)).Nodup ∧
      IsLeast { S : Set NodeIndex | liveSeeds input ex ⊆ S ∧ ClosedUnder ex.graph ex'.runs S } ex'.ran ∧
      ∀ run ∈ ex'.runs, run.verdict = .poisoned ↔
        ex.Poisoned run.index ∨ ∃ p ∈ ex'.runs, p.Swept ∧ ex.graph.Adj p.index run.index := by
  have rests := reached.atRest
  have sound := reached.sound parents
  have fresh := (reached.stamped (by omega)).fresh few
  rcases cycle_ok prog returned with ⟨no, -⟩ | ⟨-, mid, swept, nodes, sweeps, spawns⟩
  · exact absurd rfl no
  rcases runNodes_ok prog nodes with ⟨no, -⟩ | ⟨now, polled, polls, loop⟩
  · cases no
  have books :=
    poll_books rests.wf sound (fun d i member => by rw [rests.drained d] at member; cases member) rests.top
    fresh polls
  rw [rests.entries_nil] at books
  have steady := Steady.of_poll polls
  have closing : Closing ex (liveSeeds input ex) ((seeds input ex).map (·.index)) polled := by
    have idle : polled.runs = [] := steady.runs
    refine ⟨steady.graph, ?_, fun i => ?_, fun run member => ?_⟩
    · have first := Worklist.start (liveSeeds input ex)
      have rules : Fires ex.graph polled.runs = fun _ _ => False := by
        funext p c
        simp [Fires, idle]
      have done : polled.ran = ∅ := by
        ext i
        simp [ran, idle]
      have seen : { i | i ∈ (seeds input ex).map (·.index) ∧ (ex.graph.core i).isSome } =
          liveSeeds input ex := by
        ext i
        simp only [liveSeeds, Graph.core, Option.isSome_map]
      rwa [rules, done, seen]
    · rw [poisoned_poll polls, idle]
      show ex.Poisoned i ↔ _
      simp
    · rw [idle] at member
      cases member
  obtain ⟨offered, last, books', closing', empty, same⟩ := closing.loop quiet sound loop rfl books
  obtain ⟨nodup, least⟩ := closing'.finish books' empty
  have runs : ex'.runs = last.runs := ((runs_runSpawns spawns).trans (runs_sweepLoop sweeps)).trans same
  rw [ran, runs]
  exact ⟨nodup, least, closing'.verdicts⟩

theorem relay_noManual : relay.NoManual := fun _ _ _ _ member => by cases member

theorem relay_runs_exactly_least :
    ∃ ex ex', bare.execOps relay relayOps = .ok ex ∧ cycle relay 3 instantly ex = .ok (.running, ex') ∧
      IsLeast { S : Set NodeIndex | liveSeeds instantly ex ⊆ S ∧ ClosedUnder ex.graph ex'.runs S } ex'.ran ∧
      ex'.runs.map (·.index) = [1, 0] :=
  have built : bare.execOps relay relayOps = .ok _ := rfl
  have returned : cycle relay 3 instantly _ = .ok (.running, _) := rfl
  ⟨_, _, built, returned,
    (runs_exactly_least relay_noManual (.ops (.initial ..) built) (by decide) (by decide) returned).2.1, rfl⟩

/-! ## The epoch wraps around -/

/-- An executor with one node, after idle cycles. -/
def idle (epoch : Nat) (trace : List Event) : Executor Unit :=
  { bare with
    graph := ⟨[some (.new ⟨0, false, false⟩ 0)], []⟩
    scheduler := ⟨[[]], 0, 0⟩
    inners := [⟨0, 0, 0⟩]
    handles := [(.user, 0)]
    epoch := epoch
    trace := trace }

theorem idle_built : bare.execOps relay [.build { index := 0 }] = .ok (idle 0 [.built 0 0 true true true]) :=
  rfl

theorem idle_cycle (epoch : Nat) (trace : List Event) :
    cycle relay 1 instantly (idle epoch trace) =
      .ok (.running, idle ((epoch + 1) % 2 ^ 64) (.began :: trace)) := rfl

/-- Idle cycles only count. -/
theorem idle_reachable (n : Nat) :
    ∃ trace, Reachable (· = .running) (idle (n % 2 ^ 64) trace) ∧ ∀ event ∈ trace, event.ParentsPresent := by
  induction n with
  | zero => exact ⟨_, .ops (.initial ..) idle_built, by decide⟩
  | succ n ih =>
    obtain ⟨trace, reached, present⟩ := ih
    refine ⟨.began :: trace, ?_, fun event member => ?_⟩
    · rw [← Nat.mod_add_mod]
      exact reached.cycle rfl (idle_cycle ..)
    · rcases List.mem_cons.mp member with rfl | old
      · trivial
      · exact present event old

/-- An idle executor whose node has yielded. -/
def yielded (epoch : Nat) (trace : List Event) : Executor Unit :=
  { idle epoch (.registered ⟨0, some 0⟩ (some 0) :: trace) with
    eventDriver := { bare.eventDriver with yieldDriver := [⟨0, some 0⟩] } }

theorem idle_yields (epoch : Nat) (trace : List Event) :
    (idle epoch trace).execOps relay [.driver (.yieldNow (.node 0))] = .ok (yielded epoch trace) := rfl

/-- In the cycle of epoch 0 the node counts as scheduled already. -/
theorem yielded_cycle {epoch : Nat} (wraps : (epoch + 1) % 2 ^ 64 = 0) (trace : List Event) :
    cycle relay 2 instantly (yielded epoch trace) = .ok (.running,
      idle 0 (.fired .yield ⟨0, some 0⟩ (some 0) false .stamped :: .began ::
      .registered ⟨0, some 0⟩ (some 0) :: trace)) := by
  unfold cycle runNodes
  rw [@beginCycle_of_wraps _ (yielded epoch trace) wraps]
  rfl

/-- After 2 ^ 64 cycles the epoch is again the stamp that a new node is born with: a node
that yielded then is a seed of its cycle and does not run. -/
theorem wrapped_seed_does_not_run :
    ∃ ex ex', Reachable (· = .running) ex ∧ ex.All Event.ParentsPresent ∧ relay.NoManual ∧
      cycle relay 2 instantly ex = .ok (.running, ex') ∧ 0 ∈ liveSeeds instantly ex ∧
      ¬ IsLeast { S : Set NodeIndex | liveSeeds instantly ex ⊆ S ∧ ClosedUnder ex.graph ex'.runs S } ex'.ran := by
  obtain ⟨trace, reached, present⟩ := idle_reachable (2 ^ 64 - 1)
  have seed : 0 ∈ liveSeeds instantly (yielded ((2 ^ 64 - 1) % 2 ^ 64) trace) :=
    ⟨List.mem_singleton.mpr rfl, rfl⟩
  refine ⟨_, _, reached.ops (idle_yields ..), fun event member => ?_, relay_noManual,
    yielded_cycle (by omega) trace, seed,
    fun least => ?_⟩
  · rcases List.mem_cons.mp member with rfl | old
    · trivial
    · exact present event old
  · exact absurd (least.1.1 seed) List.not_mem_nil

end Executor
end Wavelet
