import Wavelet.Cycle.Dedup
import Wavelet.Cycle.Order
import Wavelet.Runtime.Ownership

/-!
# What the node loop pops

The scheduler holds plain indices. While an index waits in it, its slot keeps its node: the
cleanup finds the scheduler at rest, and a builder takes a vacant slot. The events and the
broadcasts look a node up before they queue it. `schedule_node` does not: it takes index and
depth from a handle, which may have outlived its node's place in the graph.
-/

namespace Wavelet
namespace Executor

open Relation Steps

variable {W : Type}

/-- A small step that is not a call of `schedule_node` on a node that has left the graph, or
one that the scheduler refuses. -/
structure Heedful (ex ex' : Executor W) : Prop where
  step : Micro ex ex'
  heeds : Heeds ex ex'

/-- A run of the executor from its start. -/
def HeedfulRun (ex : Executor W) : Prop :=
  ∃ cfg mode world, ReflTransGen Heedful (withConfig cfg mode world) ex

theorem HeedfulRun.path {ex : Executor W} (run : HeedfulRun ex) :
    ∃ cfg mode world, Path (withConfig cfg mode world) ex := by
  obtain ⟨cfg, mode, world, steps⟩ := run
  exact ⟨cfg, mode, world, ReflTransGen.mono (fun _ _ step => step.step) _ _ steps⟩

/-- A run that calls `schedule_node` on nodes of the graph only. -/
theorem Path.heedful {ex ex' : Executor W} (path : Path ex ex') (manuals : ex'.All Event.ManualPresent) :
    ReflTransGen Heedful ex ex' := by
  induction path with
  | refl => exact .refl
  | tail _ step ih => exact (ih (manuals.earlier step)).tail ⟨step, heeds_of_manuals manuals⟩

theorem Heedful.queued {ex ex' : Executor W} (steps : ReflTransGen Heedful ex ex') (wf : ex.scheduler.WF)
    (inPlace : ex.InPlace) (queued : ex.Queued) : ex'.Queued := by
  induction steps with
  | refl => exact queued
  | tail steps step ih =>
    have path : Path _ _ := ReflTransGen.mono (fun _ _ step => step.step) _ _ steps
    exact step.step.queued step.heeds (path.schedulerWF wf) (path.inPlace inPlace) ih

/-! ## Whom an index waits for -/

/-- The call of `schedule_node` on `k` is accepted. -/
def Calls (k : Key) (ex ex' : Executor W) : Prop :=
  ∃ s, ex.scheduler.schedule (ex.inner k).index (ex.inner k).depth = .ok s ∧
    ex' = { ex.log (.manual k (decide (ex.Present k))) with scheduler := s }

/-- `can_schedule` finds node `k` in slot `i`, and the index is queued. -/
def Finds (k : Key) (i : NodeIndex) (ex ex' : Executor W) : Prop :=
  ex.keyAt i = some k ∧ ∃ driver mid event,
    offer { ex with eventDriver := driver } i = some (.accepted, mid) ∧ ex' = mid.log event

/-- Index `i` has waited in the scheduler since it was scheduled for node `k`. -/
inductive WaitsFor (k : Key) (i : NodeIndex) : Executor W → Prop
  | called {ex ex'} : Heedful ex ex' → Calls k ex ex' → (ex.inner k).index = i → WaitsFor k i ex'
  | found {ex ex'} : Heedful ex ex' → Finds k i ex ex' → WaitsFor k i ex'
  | waits {ex ex'} : WaitsFor k i ex → Heedful ex ex' → i ∈ ex.scheduler.entries →
      i ∈ ex'.scheduler.entries → WaitsFor k i ex'

theorem offer_enters {ex ex' : Executor W} {i j : NodeIndex} {o : Offer} (h : ex.offer i = some (o, ex'))
    (member : j ∈ ex'.scheduler.entries) : j ∈ ex.scheduler.entries ∨ j = i ∧ o = .accepted ∧
    ∃ k, ex.keyAt i = some k := by
  rcases offer_cases h with ⟨-, rfl, -⟩ | ⟨_, -, -, -, rfl⟩ | ⟨ctx, -, -, -, -, rfl⟩ |
    ⟨ctx, there, -, -, bound, rfl, rfl⟩
  · exact .inl member
  · exact .inl member
  · exact .inl member
  · rcases (Scheduler.mem_enqueue bound i j).mp member with old | rfl
    · exact .inl old
    · exact .inr ⟨rfl, rfl, ctx.cycleFn.state, congrArg _ there⟩

/-- What one step can put into the scheduler. -/
theorem Micro.enters {ex ex' : Executor W} (step : Micro ex ex') (wf : ex.scheduler.WF) {i : NodeIndex}
    (member : i ∈ ex'.scheduler.entries) :
    i ∈ ex.scheduler.entries ∨ (∃ k, Calls k ex ex' ∧ (ex.inner k).index = i) ∨ ∃ k, Finds k i ex ex' := by
  cases step with
  | code step =>
    cases step with
    | handle step =>
      rw [scheduler_of_handleRun (.single step)] at member
      exact .inl member
    | manual k s held accepted =>
      obtain ⟨-, bound, rfl⟩ := Scheduler.schedule_eq_ok_iff.mp accepted
      rcases (Scheduler.mem_enqueue bound (ex.inner k).index i).mp member with old | rfl
      · exact .inl old
      · exact .inr (.inl ⟨k, ⟨_, accepted, rfl⟩, rfl⟩)
    | _ => exact .inl member
  | fire source driver r known sub takes fired =>
    obtain ⟨o, mid, offered, -, rfl⟩ := fire_ok fired
    rcases offer_enters offered member with old | ⟨rfl, rfl, k, here⟩
    · exact .inl old
    · exact .inr (.inr ⟨k, here, driver, mid, _, offered, rfl⟩)
  | pop o s popped =>
    left
    cases o with
    | none =>
      have rest : s.entries = [] := (Scheduler.pop_none wf popped).1.entries_nil
      replace member : i ∈ s.entries := member
      rw [rest] at member
      cases member
    | some j => exact ((Scheduler.pop_some wf popped).mem_iff i).mpr (.inl member)
  | poison j poisoned =>
    obtain ⟨ctx, there, rfl⟩ := markPoisoned_ok poisoned
    exact .inl member
  | spread child spreads =>
    obtain ⟨o, mid, offered, rfl⟩ := spread_ok spreads
    rcases offer_enters offered member with old | ⟨rfl, rfl, k, here⟩
    · exact .inl old
    · exact .inr (.inr ⟨k, here, ex.eventDriver, mid, _, offered, rfl⟩)
  | build args depth graph vacant deep edges =>
    left
    replace member : i ∈ (ex.scheduler.enableDepth depth).entries := member
    rwa [Scheduler.enableDepth_entries] at member
  | _ => exact .inl member

/-- Whatever waits in the scheduler was scheduled for some node. -/
theorem waitsFor_of_run {ex ex' : Executor W} (steps : ReflTransGen Heedful ex ex') (wf : ex.scheduler.WF)
    (start : ∀ i ∈ ex.scheduler.entries, ∃ k, WaitsFor k i ex) :
    ∀ i ∈ ex'.scheduler.entries, ∃ k, WaitsFor k i ex' := by
  induction steps with
  | refl => exact start
  | tail steps step ih =>
    intro i member
    have path : Path _ _ := ReflTransGen.mono (fun _ _ step => step.step) _ _ steps
    rcases step.step.enters (path.schedulerWF wf) member with old | ⟨k, call, rfl⟩ | ⟨k, found⟩
    · obtain ⟨k, waits⟩ := ih i old
      exact ⟨k, .waits waits step old member⟩
    · exact ⟨k, .called step call rfl⟩
    · exact ⟨k, .found step found⟩

/-- An index that waits keeps its node. -/
theorem Micro.keeps {ex ex' : Executor W} (step : Micro ex ex') {i : NodeIndex} {k : Key}
    (waits : i ∈ ex.scheduler.entries) (here : ex.keyAt i = some k) : ex'.keyAt i = some k := by
  rcases step.slots with ⟨same, -⟩ | ⟨r, rest, j, -, -, rests, -⟩ | ⟨args, depth, graph, -, vacant, slots⟩
  · exact (keyAt_of_same same i).trans here
  · rw [rests.entries_nil] at waits
    cases waits
  · rw [slots, if_neg, here]
    rintro rfl
    rw [vacant] at here
    cases here

/-- The slot of an index that waits holds the node it was scheduled for. -/
theorem WaitsFor.keyAt {k : Key} {i : NodeIndex} {ex : Executor W} (waits : WaitsFor k i ex) :
    ex.keyAt i = some k := by
  induction waits with
  | called step call at_ =>
    obtain ⟨s, accepted, rfl⟩ := call
    subst at_
    exact step.heeds.present accepted rfl
  | found step found =>
    obtain ⟨here, driver, mid, event, offered, rfl⟩ := found
    exact (keyAt_of_same (offer_same offered) i).trans here
  | waits _ step member _ ih => exact step.step.keeps member ih

/-! ## The node loop -/

theorem poisonAndSpread_same {c : NodeIndex} {ex ex' : Executor W} (h : ex.poisonAndSpread c = .ok ex') :
    ex.graph.Same ex'.graph := by
  obtain ⟨mid, poisoned, spreads⟩ := bind_ok h
  obtain ⟨ctx, there, rfl⟩ := markPoisoned_ok poisoned
  obtain ⟨o, last, offered, rfl⟩ := spread_ok spreads
  exact (Graph.setWeight_same there { ctx with poisoned := true } rfl rfl).trans (offer_same offered)

/-- The children that a sweep marks are in the graph. -/
theorem handleControl_indexes {run : Run} {ex : Executor W} (linked : ex.graph.Linked) :
    Fails (· ≠ .missingNode) (handleControl run ex) := by
  have spreads : ∀ (s : Executor W) c, Fails (· ≠ .missingNode) (s.spread c) := by
    intro s c
    unfold spread
    split
    · exact .error (by simp)
    · exact .ok _
  unfold handleControl
  split
  · exact .foldlM (q := fun _ => True) (fun s c _ _ => spreads s c) (fun _ _ _ _ _ _ => trivial) trivial
  · refine .foldlM (q := fun s : Executor W => ex.graph.Same s.graph)
      (fun s c member same => .bind ?_ fun _ _ => spreads _ c)
      (fun s c s' _ same poisoned => same.trans (poisonAndSpread_same poisoned)) (.refl _)
    obtain ⟨r, edge⟩ := Graph.mem_edges_iff.mp member
    have child : (s.graph.nodeWeight c).isSome := (same.linked linked _ (by rw [same.edges]; exact edge)).2
    obtain ⟨ctx, there⟩ := Option.isSome_iff_exists.mp child
    unfold markPoisoned
    simp only [Graph.markPoisoned, there, Option.map_some]
    exact .ok _
  · exact .ok _
  · exact .ok _

/-- What the node loop may rely on: the index it pops is in the graph, at the depth of its
queue, and is the node it was scheduled for. No index is missing, and `schedule_node` has
returned an error for a node that has left the graph. -/
structure PopsOwn (ex : Executor W) : Prop where
  own : ∀ i s, ex.scheduler.pop = (some i, s) → ∃ fn, ex.graph.core i = some (fn, s.currDepth) ∧
    i ∈ ex.scheduler.queue s.currDepth ∧ WaitsFor fn.state i ex ∧ ∀ k, WaitsFor k i ex → k = fn.state
  indexes : ∀ prog now, nodeStep prog now ex ≠ .error .missingNode
  refuses : ∀ k ex', Heedful ex ex' → ex.scheduleNode k = some ex' → ¬ ex.Present k →
    ex.scheduler.schedule (ex.inner k).index (ex.inner k).depth = .error .schedulerError

theorem HeedfulRun.queued {ex : Executor W} (run : HeedfulRun ex) : ex.Queued := by
  obtain ⟨cfg, mode, world, steps⟩ := run
  exact Heedful.queued steps Scheduler.new_wf (fun _ _ _ there => by cases there)
    (fun _ _ member => by cases member)

theorem HeedfulRun.schedulerWF {ex : Executor W} (run : HeedfulRun ex) : ex.scheduler.WF := by
  obtain ⟨cfg, mode, world, path⟩ := run.path
  exact path.schedulerWF Scheduler.new_wf

theorem HeedfulRun.linked {ex : Executor W} (run : HeedfulRun ex) : ex.graph.Linked := by
  obtain ⟨cfg, mode, world, path⟩ := run.path
  exact path.linked fun _ member => by cases member

theorem HeedfulRun.waitsFor {ex : Executor W} (run : HeedfulRun ex) {i : NodeIndex}
    (waits : i ∈ ex.scheduler.entries) :
    ∃ k, WaitsFor k i ex := by
  obtain ⟨cfg, mode, world, steps⟩ := run
  exact waitsFor_of_run steps Scheduler.new_wf (fun _ member => by cases member) i waits

theorem nodeStep_indexes {prog : Program W} {now : CycleTime} {ex : Executor W} (linked : ex.graph.Linked)
    (there : ∀ i s, ex.scheduler.pop = (some i, s) → (ex.graph.nodeWeight i).isSome) :
    Fails (· ≠ .missingNode) (nodeStep prog now ex) := by
  unfold nodeStep
  split
  · exact .ok _
  · rename_i i s popped
    have here := there i s popped
    refine .bind (graphCycle_fails.mono ?_) fun ⟨run, mid⟩ ran => ?_
    · rintro failure (rfl | ⟨-, missing⟩)
      · simp
      · replace missing : ex.graph.nodeWeight i = none := missing
        rw [missing] at here
        cases here
    · have same := (Steady.of_code (graphCycle_run prog ran)).graph
      have after : mid.graph.Linked := same.linked linked
      dsimp only
      split
      · exact .ok _
      · exact .bind (handleControl_indexes after) fun _ _ => .ok _

/-- As long as `schedule_node` is called on nodes of the graph, or above the cursor, the node
loop pops the nodes that were scheduled. -/
theorem pops_own {ex : Executor W} (run : HeedfulRun ex) : ex.PopsOwn := by
  have first : ∀ i s, ex.scheduler.pop = (some i, s) → i ∈ ex.scheduler.queue s.currDepth := by
    intro i s popped
    rw [(Scheduler.pop_some run.schedulerWF popped).first]
    exact List.mem_cons_self
  constructor
  case own =>
    intro i s popped
    have waits := first i s popped
    obtain ⟨fn, core⟩ := run.queued _ _ waits
    have here : ex.keyAt i = some fn.state := by rw [keyAt_eq_core, core]; rfl
    have own : ∀ k, WaitsFor k i ex → k = fn.state := by
      intro k scheduled
      have there := scheduled.keyAt
      rw [here] at there
      exact (Option.some.inj there).symm
    obtain ⟨k, scheduled⟩ := run.waitsFor (Scheduler.mem_entries_iff.mpr ⟨_, waits⟩)
    refine ⟨fn, core, waits, ?_, own⟩
    rw [← own k scheduled]
    exact scheduled
  case indexes =>
    intro prog now failed
    refine nodeStep_indexes run.linked (fun i s popped => ?_) _ failed rfl
    obtain ⟨fn, core⟩ := run.queued _ _ (first i s popped)
    rw [← Graph.isSome_core, core]
    rfl
  case refuses =>
    intro k ex' step call absent
    rcases step.heeds k call with present | above
    · exact absurd present absent
    · exact Scheduler.schedule_eq_refused_iff.mpr above

/-- The states of a cycle whose calls of `schedule_node` are on nodes of the graph. -/
theorem HeedfulRun.of_inCycle {prog : Program W} {input : CycleInput} {ex ex' : Executor W}
    (reached : Reachable (fun _ => True) ex) (inside : InCycle prog input ex ex')
    (manuals : ex'.All Event.ManualPresent) :
    HeedfulRun ex' := by
  obtain ⟨now, polled, polls, visits⟩ := inside
  obtain ⟨cfg, mode, world, path⟩ := reached.path
  have whole := path.trans ((ReflTransGen.single .begin).trans ((poll_path polls).trans visits.path))
  exact ⟨cfg, mode, world, Path.heedful whole manuals⟩

/-- Node 1 is in the queue because node 0 has scheduled it by hand. -/
theorem nudging_pops_own :
    ∃ ex mid s, bare.execOps nudging nudgingOps = .ok ex ∧ InCycle nudging instantly ex mid ∧
      .manual 1 true ∈ mid.trace ∧
      mid.scheduler.pop = (some 1, s) ∧ mid.PopsOwn := by
  obtain ⟨ex, polled, mid, built, polls, turn⟩ : ∃ ex polled mid, bare.execOps nudging nudgingOps = .ok ex ∧
      poll instantly ex.beginCycle = .ok (some ⟨0, 0⟩, polled) ∧
      nodeStep nudging ⟨0, 0⟩ polled = .ok (.again mid) :=
    ⟨_, _, _, rfl, rfl, rfl⟩
  have reached : Reachable (fun _ => True) ex := .ops (.initial ..) built
  have inside : InCycle nudging instantly ex mid := ⟨_, polled, polls, mid, .single turn, .inl rfl⟩
  cases built
  cases polls
  cases turn
  exact ⟨_, _, _, rfl, inside, by decide, rfl, pops_own (.of_inCycle reached inside (by decide))⟩

/-- Node 0 is swept in its first run, node 1 schedules node 0 whenever it runs. -/
def nagging : Program Unit where
  cycleFn _ _ k :=
    if k = 0 then ([], .ret .sweep) else if k = 1 then ([.scheduleNode 0], .ret .unchanged) else
    ([], .ret .unchanged)
  onDrop _ _ := []
  spawnFn _ _ := []

def naggingOps : List (ExecOp Unit) :=
  [.build { index := 0 }, .build { index := 1 }, .driver (.yieldNow (.node 0))]

/-- `schedule_node` queues the index of a node that has been swept. The loop stops at the
vacant slot, or runs the node that has been put there. -/
theorem nagging_pops_stale :
    ∃ ex wakes reuses ex', bare.play nagging 4 [(naggingOps, instantly)] = .ok ([.running], ex) ∧
      ¬ ex.Present 0 ∧
      ex.execOps nagging [.driver (.yieldNow (.node 1))] = .ok wakes ∧ Reachable (· = .running) wakes ∧
      cycle nagging 4 instantly wakes = .error .missingNode ∧
      wakes.execOps nagging [.build { index := 0 }] = .ok reuses ∧
      cycle nagging 4 instantly reuses = .ok (.running, ex') ∧ ex'.runs.map (·.node) = [2, 1] := by
  obtain ⟨ex, wakes, played, woken⟩ : ∃ ex wakes, bare.play nagging 4 [(naggingOps, instantly)] =
      .ok ([.running], ex) ∧
      ex.execOps nagging [.driver (.yieldNow (.node 1))] = .ok wakes := ⟨_, _, rfl, rfl⟩
  have reached : Reachable (· = .running) ex := .play (.initial ..) played (by simp)
  have reached := reached.ops woken
  cases played
  cases woken
  exact ⟨_, _, _, _, rfl, by decide, rfl, reached, rfl, rfl, rfl, rfl⟩

end Executor
end Wavelet
