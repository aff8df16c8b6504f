import Wavelet.Cleanup.Sweep
import Wavelet.Cycle.Books

/-!
# Cycles that end

A turn of the node loop takes one entry out of the queues, and an entry that the runtime puts
in stamps a node that had not the stamp of the epoch. So without calls of `schedule_node` the
node loop ends from any state, at rest or not, and with it the cycle.
-/

namespace Wavelet

/-- The nodes without the stamp of the epoch. -/
def Graph.unstamped (g : Graph) (epoch : Nat) : Nat :=
  g.slots.countP fun slot => slot.any fun ctx => ctx.schedEpoch ≠ epoch

theorem Graph.unstamped_setWeight {g : Graph} {i : NodeIndex} {ctx : NodeContext}
    (there : g.nodeWeight i = some ctx) (ctx' : NodeContext) (epoch : Nat) :
    (g.setWeight i ctx').unstamped epoch + (if ctx.schedEpoch ≠ epoch then 1 else 0) =
      g.unstamped epoch + if ctx'.schedEpoch ≠ epoch then 1 else 0 := by
  have bound := Graph.lt_length_of_nodeWeight there
  have slot : g.slots[i] = some ctx := by
    rw [Graph.nodeWeight, List.getD_eq_getElem?_getD, List.getElem?_eq_getElem bound] at there
    exact there
  have positive : ctx.schedEpoch ≠ epoch → 0 < g.unstamped epoch := by
    intro stale
    exact List.countP_pos_iff.mpr ⟨some ctx, slot ▸ List.getElem_mem bound, by simpa using stale⟩
  unfold unstamped setWeight at *
  rw [List.countP_set bound, slot]
  simp only [Option.any_some, decide_eq_true_eq]
  split
  · rename_i stale
    have some := positive stale
    omega
  · omega

namespace Executor

variable {W : Type} {prog : Program W}

/-- The turns that the node loop can still take. -/
def turnsLeft (ex : Executor W) : Nat := ex.scheduler.entries.length + ex.graph.unstamped ex.epoch

theorem turnsLeft_offer {ex ex' : Executor W} {i : NodeIndex} {o : Offer} (h : ex.offer i = some (o, ex')) :
    ex'.turnsLeft ≤ ex.turnsLeft := by
  unfold turnsLeft
  rcases offer_cases h with ⟨-, rfl, -⟩ | ⟨_, -, -, -, rfl⟩ | ⟨ctx, there, stale, -, -, rfl⟩ |
    ⟨ctx, there, stale, -, bound, -, rfl⟩
  · exact Nat.le_refl _
  · exact Nat.le_refl _
  · have count := Graph.unstamped_setWeight there { ctx with schedEpoch := ex.epoch } ex.epoch
    rw [if_pos stale, if_neg (fun no => no rfl)] at count
    show ex.scheduler.entries.length +
      (ex.graph.setWeight i { ctx with schedEpoch := ex.epoch }).unstamped ex.epoch ≤ _
    omega
  · have count := Graph.unstamped_setWeight there { ctx with schedEpoch := ex.epoch } ex.epoch
    rw [if_pos stale, if_neg (fun no => no rfl)] at count
    show (ex.scheduler.enqueue i ctx.depth).entries.length +
      (ex.graph.setWeight i { ctx with schedEpoch := ex.epoch }).unstamped ex.epoch ≤ _
    rw [Scheduler.enqueue_length_entries bound]
    omega

theorem turnsLeft_handleControl {run : Run} {ex ex' : Executor W} (h : handleControl run ex = .ok ex') :
    ex'.turnsLeft ≤ ex.turnsLeft := by
  refine handleControl_inv (p := fun s : Executor W => s.turnsLeft ≤ ex.turnsLeft) (fun _ less => less)
    (fun i s s' poisoned less => ?_) (fun c s s' spreads less => ?_) h (Nat.le_refl _)
  · obtain ⟨ctx, there, rfl⟩ := markPoisoned_ok poisoned
    have count := Graph.unstamped_setWeight there { ctx with poisoned := true } s.epoch
    have same : (s.graph.setWeight i { ctx with poisoned := true }).unstamped s.epoch =
        s.graph.unstamped s.epoch :=
      Nat.add_right_cancel count
    show s.scheduler.entries.length +
      (s.graph.setWeight i { ctx with poisoned := true }).unstamped s.epoch ≤ _
    rw [same]
    exact less
  · obtain ⟨o, mid, offered, rfl⟩ := spread_ok spreads
    have fewer : mid.turnsLeft ≤ s.turnsLeft := turnsLeft_offer offered
    exact Nat.le_trans fewer less

/-- Each turn that goes on leaves fewer. -/
theorem turnsLeft_again (quiet : prog.NoManual) {now : CycleTime} {ex ex' : Executor W} (wf : ex.scheduler.WF)
    (h : nodeStep prog now ex = .ok (.again ex')) : ex'.turnsLeft < ex.turnsLeft := by
  obtain ⟨i, s, run, mid, popped, ran, -, handled⟩ := nodeStep_again prog h
  have after := turnsLeft_handleControl handled
  have frame := frame_of_run (graphCycle_run prog ran)
  have queues : mid.scheduler = s := scheduler_graphCycle quiet ran
  have fewer := (Scheduler.pop_some wf popped).length_entries
  have turn : (mid.recordRun run).turnsLeft = s.entries.length + ex.graph.unstamped ex.epoch := by
    show mid.scheduler.entries.length + mid.graph.unstamped mid.epoch = _
    rw [queues, frame.graph, frame.epoch]
  unfold turnsLeft at *
  omega

theorem nodeLoop_ends (quiet : prog.NoManual) (now : CycleTime) {ex : Executor W} (wf : ex.scheduler.WF) :
    ∃ result, result ≠ .error .outOfFuel ∧ ∀ fuel, ex.turnsLeft < fuel →
      nodeLoop prog now fuel ex = result := by
  induction count : ex.turnsLeft using Nat.strongRecOn generalizing ex with
  | _ left ih =>
    have continued : ∃ result : Except Failure (Exit × Executor W), result ≠ .error .outOfFuel ∧
        ∀ fuel, left ≤ fuel → nodeLoop prog now (fuel + 1) ex = result := by
      cases step : nodeStep prog now ex with
      | error failure =>
        refine ⟨.error failure, fun out => ?_, fun fuel _ => ?_⟩
        · cases out
          rcases nodeStep_fails _ step with no | no | no <;> cases no
        · rw [nodeLoop, step]
          rfl
      | ok turn =>
        cases turn with
        | finished last =>
          refine ⟨.ok (.running, last), fun no => (by cases no), fun fuel _ => ?_⟩
          rw [nodeLoop, step]
          rfl
        | terminated last =>
          refine ⟨.ok (.terminated, last), fun no => (by cases no), fun fuel _ => ?_⟩
          rw [nodeLoop, step]
          rfl
        | again mid =>
          have fewer := turnsLeft_again quiet wf step
          rw [count] at fewer
          have wf' := Path.schedulerWF (nodeStep_path (.inr (.inr step))) wf
          obtain ⟨result, fueled, ends⟩ := ih mid.turnsLeft fewer wf' rfl
          refine ⟨result, fueled, fun fuel enough => ?_⟩
          rw [nodeLoop, step]
          exact ends fuel (by omega)
    obtain ⟨result, fueled, ends⟩ := continued
    refine ⟨result, fueled, fun fuel enough => ?_⟩
    obtain ⟨fuel, rfl⟩ : ∃ n, fuel = n + 1 := ⟨fuel - 1, by omega⟩
    exact ends fuel (by omega)

/-- Without calls of `schedule_node` a cycle comes to an end. -/
theorem cycle_ends (quiet : prog.NoManual) (input : CycleInput) {ex : Executor W} (wf : ex.scheduler.WF) :
    ∃ result enough, result ≠ .error .outOfFuel ∧ ∀ fuel, enough ≤ fuel →
      cycle prog fuel input ex = result := by
  cases polls : poll input ex.beginCycle with
  | error failure =>
    refine ⟨.error failure, 0, fun out => ?_, fun fuel _ => ?_⟩
    · cases out
      exact poll_fueled _ polls rfl
    · rw [cycle, runNodes, polls]
      rfl
  | ok answer =>
    obtain ⟨t, polled⟩ := answer
    cases t with
    | none =>
      refine ⟨.ok (.err, polled), 0, fun no => (by cases no), fun fuel _ => ?_⟩
      rw [cycle, runNodes, polls]
      rfl
    | some now =>
      have wf' := Path.schedulerWF (.head .begin (poll_path polls)) wf
      obtain ⟨looped, fueled, ends⟩ := nodeLoop_ends quiet now wf'
      have reads : ∀ fuel, polled.turnsLeft < fuel → runNodes prog fuel input ex = looped := by
        intro fuel enough
        rw [runNodes, polls]
        exact ends fuel enough
      cases looped with
      | error failure =>
        refine ⟨.error failure, polled.turnsLeft + 1, fun out => fueled (by cases out; rfl),
          fun fuel enough => ?_⟩
        rw [cycle, reads fuel enough]
        rfl
      | ok last =>
        obtain ⟨exit, mid⟩ := last
        cases exit with
        | terminated =>
          refine ⟨.ok (.terminated, mid), polled.turnsLeft + 1, fun no => (by cases no),
            fun fuel enough => ?_⟩
          rw [cycle, reads fuel enough]
          rfl
        | err =>
          refine ⟨.ok (.err, mid), polled.turnsLeft + 1, fun no => (by cases no), fun fuel enough => ?_⟩
          rw [cycle, reads fuel enough]
          rfl
        | running =>
          obtain ⟨n, swept, sweeps⟩ := sweepLoop_ends prog mid
          refine ⟨(runSpawns prog swept.deferredSpawns swept).map fun ex => (.running, ex),
            max (polled.turnsLeft + 1) n,
            fun out => ?_, fun fuel enough => ?_⟩
          · have code : Steps.Fails Failure.OfCode
                ((runSpawns prog swept.deferredSpawns swept).map fun ex => (Exit.running, ex)) :=
              .map _ runSpawns_fails
            rcases code _ out with no | no | no | no <;> cases no
          · rw [cycle, reads fuel (by omega)]
            show (sweepLoop prog fuel mid).bind _ = _
            rw [sweeps fuel (by omega)]
            show (runSpawns prog swept.deferredSpawns swept).bind _ = _
            cases runSpawns prog swept.deferredSpawns swept with
            | error failure => rfl
            | ok last => rfl

end Executor
end Wavelet
