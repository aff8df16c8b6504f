import Wavelet.Cleanup.Holders
import Wavelet.Cycle.Spawns
import Wavelet.Lib.Supports

/-!
# Leaks

Between two calls every handle has a holder that is there. So a node that is kept has a reason: a
chain of handles leads to it from the program, from a spawned node, from a deferred subgraph that
waits or from a node that is marked for the next sweep, or handles that go round in a circle do. What
reference counting cannot free are circles, and the runtime adds no leak of its own.
-/

namespace Wavelet
namespace Executor

open Relation Steps Supports

variable {W : Type} {prog : Program W}

/-- Every handle has its holder. -/
def Grounded (ex : Executor W) : Prop := ex.Founded fun _ => False

/-! ## A run of a node -/

theorem Founded.spawnSubgraph {out : Owner → Prop} {ex : Executor W} (founded : ex.Founded out)
    (captures : List Key) :
    (ex.spawnSubgraph captures).Founded out := by
  have waits :
      ({ ex with deferredSpawns := ex.deferredSpawns ++ [ex.tickets], tickets := ex.tickets + 1 } : Executor
        W).Founded out := by
    refine founded.mono (fun h held => held) (fun o holds => ?_) fun _ present => present
    cases o with
    | spawn t => exact List.mem_append_left _ holds
    | _ => exact holds
  exact foldl_inv (p := Founded out) (fun s k _ founded => founded.cloneHandle) waits

theorem Founded.effect {out : Owner → Prop} {ex ex' : Executor W} {effect : Effect W}
    (founded : ex.Founded out) (h : ex.applyEffect prog effect = some ex') : ex'.Founded out := by
  cases effect with
  | handle op =>
    cases h
    exact founded.handleOp op
  | driver op => exact founded.same (same_driverOp h)
  | scheduleNode k =>
    simp only [applyEffect] at h
    split at h
    · exact founded.same (same_scheduleNode h)
    · cases h
      exact founded
  | spawnSubgraph captures =>
    cases h
    exact founded.spawnSubgraph captures

/-- The closure's own handle is not copied. -/
theorem running_effect {ex ex' : Executor W} {effect : Effect W} {j : Key} {n : Nat}
    (few : ex.handles.count (.running, j) ≤ n) (h : ex.applyEffect prog effect = some ex') :
    ex'.handles.count (.running, j) ≤ n := by
  have inv := gone_inv (W := W) .running j n
  cases effect with
  | handle op =>
    cases h
    exact (applyHandleOp_inv inv.same inv.clone (fun o k => inv.drop o k) op ⟨id, few⟩).2
  | driver op =>
    rw [(same_driverOp h).handles]
    exact few
  | scheduleNode k =>
    simp only [applyEffect] at h
    split at h
    · rw [(same_scheduleNode h).handles]
      exact few
    · cases h
      exact few
  | spawnSubgraph captures =>
    cases h
    have waits :
        ¬ ({ ex with deferredSpawns := ex.deferredSpawns ++ [ex.tickets], tickets := ex.tickets + 1 } :
          Executor W).Holds .running ∧
        ({ ex with deferredSpawns := ex.deferredSpawns ++ [ex.tickets], tickets := ex.tickets + 1 } :
          Executor W).handles.count (.running, j) ≤ n := ⟨id, few⟩
    have after :=
      foldl_inv (p := fun s : Executor W => ¬ s.Holds .running ∧ s.handles.count (.running, j) ≤ n)
        (l := captures) (fun s k _ => inv.clone (.spawn ex.tickets) k) waits
    exact after.2

theorem same_setMutEpoch (ex : Executor W) (k : Key) (epoch : Nat) :
    SameHolders ex (ex.setMutEpoch k epoch) where
  handles := rfl
  spawns := rfl
  present j := by
    rw [Present, (inner_setMutEpoch ex k j epoch).1]
    exact Iff.rfl

/-- What the effects of a cycle function keep, its call keeps. -/
theorem call_inv {p : Executor W → Prop}
    (effect : ∀ {ex ex' effect}, p ex → ex.applyEffect prog effect = some ex' → p ex')
    (same : ∀ {ex ex'}, SameHolders ex ex' → p ex → p ex') {now : CycleTime} {i : NodeIndex}
    {fn : CycleFn} {ex ex' : Executor W} {v : Verdict}
    (h : callCycleFn prog now i fn ex = .ok (v, ex')) (start : p ex) : p ex' := by
  obtain ⟨answer, finished, after, -, applied, ends⟩ := callCycleFn_ok prog h
  have done : p (ex.applyEffects prog answer.1).2 := effects_inv (fun _ _ => effect) start
  rw [applied] at done
  rcases ends with ⟨control, -, -, -, rfl⟩ | ⟨-, rfl, -⟩
  · split
    · exact same (same_setMutEpoch ..) done
    · exact done
  · exact done

theorem Grounded.graphCycle {now : CycleTime} {i : NodeIndex} {ex ex' : Executor W} {run : Run}
    (grounded : ex.Grounded) (h : graphCycle prog now i ex = .ok (run, ex')) : ex'.Grounded := by
  obtain ⟨ctx, -, -, -, poisoned | spawned | built | dead⟩ := graphCycle_cases prog h
  · rw [poisoned.2.2]
    exact grounded
  · exact call_inv (fun founded => Founded.effect founded)
      (fun same founded => founded.same same) spawned.2.2 grounded
  · obtain ⟨-, -, alive, mid, called, rfl⟩ := built
    have start : (ex.addHandle .running run.node).Founded fun o => False ∨ o = .running :=
      (grounded.weaken fun _ => .inl).addHandle alive (.inl (.inr rfl))
    have after := call_inv (fun founded => Founded.effect founded)
      (fun same founded => founded.same same) called start
    -- the closure has upgraded its weak handle once, and drops what it got
    have once : ∀ j, mid.handles.count (.running, j) ≤ if j = run.node then 1 else 0 := by
      intro j
      have none : ex.handles.count (.running, j) = 0 := by
        apply List.count_eq_zero.mpr
        intro member
        rcases grounded _ _ member with no | no | no
        · exact no
        · exact no
        · cases no.1
      refine call_inv (p := fun s : Executor W => s.handles.count (.running, j) ≤
          if j = run.node then 1 else 0)
        (fun few applied => running_effect few applied) (fun same few => by rwa [same.handles]) called ?_
      show ((Owner.running, run.node) :: ex.handles).count (Owner.running, j) ≤ _
      rw [List.count_cons, none]
      by_cases own : j = run.node
      · simp [own]
      · simp [own, Ne.symm own]
    refine (after.dropHandle .running run.node).without fun j member => ?_
    have left : (mid.dropHandle prog .running run.node).handles.count (.running, j) ≤ _ :=
      count_dropHandleWith (lives_card_handles mid) (o := .running) id run.node j
    have one := once j
    have some_left := List.count_pos_iff.mpr member
    omega
  · rw [dead.2.2.2.2]
    exact grounded

/-! ## A cycle -/

theorem same_spread {c : NodeIndex} {ex ex' : Executor W} (h : ex.spread c = .ok ex') :
    SameHolders ex ex' := by
  obtain ⟨o, mid, offered, rfl⟩ := spread_ok h
  have same := same_offer offered
  exact ⟨same.handles, same.spawns, same.present⟩

theorem same_markPoisoned {i : NodeIndex} {ex ex' : Executor W} (h : ex.markPoisoned i = .ok ex') :
    SameHolders ex ex' := by
  obtain ⟨ctx, there, rfl⟩ := markPoisoned_ok h
  refine ⟨rfl, rfl, fun k => ?_⟩
  have slots :
      keyAt { ex with graph := ex.graph.setWeight i { ctx with poisoned := true } } (ex.inner k).index =
      ex.keyAt (ex.inner k).index :=
    keyAt_of_same (Graph.setWeight_same there { ctx with poisoned := true } rfl rfl) _
  exact Iff.of_eq (congrArg (· = some k) slots)

namespace Grounded

variable {ex ex' : Executor W}

theorem handleControl {run : Run} (grounded : ex.Grounded) (h : handleControl run ex = .ok ex') :
    ex'.Grounded := by
  refine handleControl_inv (p := Grounded) (fun s grounded => ?_)
    (fun i s s' poisons grounded => ?_) (fun c s s' spreads grounded => ?_) h grounded
  · have marked : SameHolders s (s.markForSweep .swept ⟨run.index, some run.node⟩) :=
      ⟨rfl, rfl, fun _ => Iff.rfl⟩
    exact grounded.same marked
  · exact grounded.same (same_markPoisoned poisons)
  · exact grounded.same (same_spread spreads)

theorem turn {now : CycleTime} (grounded : ex.Grounded)
    (h : nodeStep prog now ex = .ok (.finished ex') ∨ nodeStep prog now ex = .ok (.terminated ex') ∨
    nodeStep prog now ex = .ok (.again ex')) : ex'.Grounded := by
  have popped : ∀ s, ({ ex with scheduler := s } : Executor W).Grounded :=
    fun s => grounded.same ⟨rfl, rfl, fun _ => Iff.rfl⟩
  rcases h with finished | terminated | again
  · obtain ⟨s, -, rfl⟩ := nodeStep_finished prog finished
    exact popped s
  · obtain ⟨i, s, run, mid, -, ran, -, rfl⟩ := nodeStep_terminated prog terminated
    exact ((popped s).graphCycle ran).same ⟨rfl, rfl, fun _ => Iff.rfl⟩
  · obtain ⟨i, s, run, mid, -, ran, -, handled⟩ := nodeStep_again prog again
    have recorded : (mid.recordRun run).Grounded :=
      ((popped s).graphCycle ran).same ⟨rfl, rfl, fun _ => Iff.rfl⟩
    exact recorded.handleControl handled

theorem loop {now : CycleTime} {exit : Exit} (loops : Loop prog now ex exit ex')
    (grounded : ex.Grounded) : ex'.Grounded := by
  induction loops with
  | finished step => exact grounded.turn (.inl step)
  | terminated step => exact grounded.turn (.inr (.inl step))
  | again step _ ih => exact ih (grounded.turn (.inr (.inr step)))

theorem runNodes {fuel : Nat} {input : CycleInput} {exit : Exit} (grounded : ex.Grounded)
    (h : runNodes prog fuel input ex = .ok (exit, ex')) :
    ex'.Grounded := by
  have polling : ∀ {t : Option CycleTime} {polled : Executor W}, poll input ex.beginCycle =
      .ok (t, polled) → polled.Grounded := by
    intro t polled polls
    refine poll_inv (p := Grounded) (fun s d grounded => ?_)
      (fun source r s s' fired grounded => grounded.same (same_fire fired)) polls ?_
    · exact grounded.same ⟨rfl, rfl, fun _ => Iff.rfl⟩
    · exact grounded.same ⟨rfl, rfl, fun _ => Iff.rfl⟩
  rcases runNodes_ok prog h with ⟨-, polls⟩ | ⟨now, polled, polls, loops⟩
  · exact polling polls
  · exact loop loops (polling polls)

/-- The node leaves the graph, then goes what it held there. -/
theorem removeNode (grounded : ex.Grounded) (inPlace : ex.InPlace) (i : NodeIndex) :
    (removeNode prog ex i).Grounded := by
  unfold Executor.removeNode
  split
  · exact grounded
  · rename_i k here
    have slots := keyAt_removeNode ex i
    have gone : ¬ (log { ex with graph := ex.graph.removeNode i } (.removed k)).Present k := by
      intro back
      replace back : ((ex.graph.removeNode i).nodeWeight (ex.inner k).index).map (·.cycleFn.state) = some k :=
        back
      rw [slots, (inPlace.of_keyAt here).2, if_pos rfl] at back
      cases back
    have others : ∀ j, j ≠ k → ex.Present j →
        (log { ex with graph := ex.graph.removeNode i } (.removed k)).Present j := by
      intro j other present
      show ((ex.graph.removeNode i).nodeWeight (ex.inner j).index).map (·.cycleFn.state) = some j
      rw [slots, if_neg]
      · exact present
      · intro same
        rw [Present, same, here] at present
        exact other (Option.some.inj present).symm
    have removed : (log { ex with graph := ex.graph.removeNode i } (.removed k)).Founded
        fun o => (False ∨ o = .closure k) ∨ o = .graph k := by
      intro o j member
      rcases grounded o j member with no | holds | ⟨rfl, present⟩
      · exact absurd no id
      · cases o with
        | closure c =>
          by_cases own : c = k
          · exact .inl (.inl (.inr (own ▸ rfl)))
          · exact .inr (.inl (others c own holds))
        | _ => exact .inr (.inl holds)
      · by_cases own : j = k
        · exact .inl (.inr (own ▸ rfl))
        · exact .inr (.inr ⟨rfl, others j own present⟩)
    exact (removed.dropOwner id).dropOwner (gone_dropOwner gone)

end Grounded

theorem InPlace.removeNode {ex : Executor W} (inPlace : ex.InPlace) (i : NodeIndex) :
    (Executor.removeNode prog ex i).InPlace := by
  cases here : ex.keyAt i with
  | none =>
    rw [removeNode_vacant here]
    exact inPlace
  | some k =>
    have frame := frame_of_run (removeNode_run prog here).code
    intro j fn d there
    rw [frame.graph] at there
    rw [frame.nodes, frame.index, frame.depth]
    replace there : (ex.graph.removeNode i).core j = some (fn, d) := there
    rw [Graph.core, Graph.nodeWeight_removeNode] at there
    split at there
    · cases there
    · exact inPlace j fn d there

theorem Grounded.sweepLoop {fuel : Nat} {ex ex' : Executor W} (grounded : ex.Grounded) (inPlace : ex.InPlace)
    (h : Executor.sweepLoop prog fuel ex = .ok ex') : ex'.Grounded := by
  induction fuel generalizing ex with
  | zero => cases h
  | succ fuel ih =>
    rw [Executor.sweepLoop] at h
    split at h
    · cases h
      exact grounded
    · rename_i r rest front
      have taken : ({ ex with gc := rest } : Executor W).Grounded :=
        grounded.same ⟨rfl, rfl, fun _ => Iff.rfl⟩
      have place : ({ ex with gc := rest } : Executor W).InPlace := inPlace
      exact ih (taken.removeNode place r.index) (place.removeNode r.index) h

/-! ## Between cycles -/

/-- A node is built with its own handle; everything that was there stays. -/
theorem present_insertNode {ex : Executor W} {args : BuildArgs} {depth : Nat} {graph : Graph}
    {ps : List ParentEntry} (vacant : ex.graph.nodeWeight args.index = none)
    (edges : addEdges args.index (ex.graph.addNode args.index
      (.new ⟨ex.inners.length, args.spawned, args.allowPanic⟩ depth)) ps = some graph) {k : Key}
    (here : k = ex.inners.length ∨ ex.Present k) : (ex.insertNode args depth graph).Present k := by
  rw [Present, keyAt_insertNode edges, inner_insertNode]
  by_cases new : k = ex.inners.length
  · rw [if_pos new, if_pos rfl, new]
  · have present := here.resolve_left new
    rw [if_neg new, if_neg]
    · exact present
    · intro same
      rw [Present, keyAt, same, vacant] at present
      cases present

theorem Founded.addHandles {out : Owner → Prop} {ex : Executor W} {o : Owner} {l : List Key}
    (founded : ex.Founded out) (alive : ∀ c ∈ l, ex.Alive c) (holds : ex.Holds o) :
    (l.foldl (fun ex c => ex.addHandle o c) ex).Founded out := by
  induction l generalizing ex with
  | nil => exact founded
  | cons c rest ih =>
    have first := alive c List.mem_cons_self
    apply ih (founded.addHandle first (.inr (.inl holds)))
    · exact fun d member => List.mem_cons_of_mem _ (alive d (List.mem_cons_of_mem _ member))
    · exact (holds_addHandle first).mpr holds

theorem Founded.build {out : Owner → Prop} {args : BuildArgs} {ex ex' : Executor W}
    (founded : ex.Founded out) (h : ex.build args = .ok ex') :
    ex'.Founded out := by
  unfold Executor.build at h
  simp only at h
  split at h
  · cases h
  · rename_i free
    split at h
    · cases h
    · rename_i depth deep
      split at h
      · cases h
      · rename_i graph edges
        cases h
        have vacant : ex.graph.nodeWeight args.index = none := by simpa using free
        have present := @present_insertNode W ex args depth graph _ vacant edges
        have inserted : (ex.insertNode args depth graph).Founded out := by
          intro o k member
          rcases List.mem_cons.mp member with new | old
          · cases new
            cases args.spawned with
            | true => exact .inr (.inr ⟨rfl, present (.inl rfl)⟩)
            | false => exact .inr (.inl trivial)
          · refine (founded o k old).imp id
              (founds_mono (fun p holds => ?_) fun j here => present (.inr here))
            cases p with
            | closure c => exact present (.inr holds)
            | inner c => exact List.mem_cons_of_mem _ holds
            | _ => exact holds
        have alive : ∀ l : List Key, ∀ c ∈ l.filter fun c =>
            ex.Alive c, (ex.insertNode args depth graph).Alive c := by
          intro l c member
          exact List.mem_cons_of_mem _ (of_decide_eq_true (List.mem_filter.mp member).2)
        have there : (ex.insertNode args depth graph).Holds (.closure ex.inners.length) := present (.inl rfl)
        refine (inserted.addHandles (alive args.captures) there).addHandles (fun c member => ?_) ?_
        · exact alive_addHandles (alive args.data c member)
        · exact alive_addHandles List.mem_cons_self

theorem Founded.execOp {out : Owner → Prop} {op : ExecOp W} {ex ex' : Executor W} (founded : ex.Founded out)
    (h : ex.execOp prog op = .ok ex') : ex'.Founded out := by
  cases op with
  | handle op =>
    cases h
    exact founded.handleOp op
  | driver op =>
    simp only [Executor.execOp] at h
    split at h
    · rename_i next applied
      cases h
      exact founded.same (same_driverOp applied)
    · cases h
  | build args => exact founded.build h

/-- What a deferred subgraph has captured goes when it has been called. -/
theorem Grounded.runSpawns {tickets : List Nat} {ex ex' : Executor W} (grounded : ex.Grounded)
    (waits : ex.deferredSpawns = tickets) (h : Executor.runSpawns prog tickets ex = .ok ex') :
    ex'.Grounded := by
  induction tickets generalizing ex with
  | nil =>
    cases h
    exact grounded
  | cons ticket rest ih =>
    obtain ⟨mid, spawned, later⟩ := bind_ok h
    obtain ⟨built, ops, rfl⟩ := map_ok spawned
    have taken : ({ ex with deferredSpawns := rest } : Executor W).Founded fun o => False ∨
        o = .spawn ticket := by
      intro o k member
      rcases grounded o k member with no | holds | own
      · exact absurd no id
      · cases o with
        | spawn t =>
          replace holds : t ∈ ex.deferredSpawns := holds
          rw [waits] at holds
          rcases List.mem_cons.mp holds with rfl | later
          · exact .inl (.inr rfl)
          · exact .inr (.inl later)
        | _ => exact .inr (.inl holds)
      · exact .inr (.inr own)
    have called : (built.Founded fun o => False ∨ o = .spawn ticket) ∧ built.spawning = (rest, ex.tickets) :=
      foldlM_inv (p := fun s : Executor W => (s.Founded fun o => False ∨ o = .spawn ticket) ∧
          s.spawning = (rest, ex.tickets))
        (fun _ _ _ _ applied before => ⟨before.1.execOp applied,
        (spawning_execOp applied).trans before.2⟩) ops ⟨taken, rfl⟩
    have queue : built.deferredSpawns = rest := congrArg Prod.fst called.2
    have same : (built.dropOwner prog (.spawn ticket)).deferredSpawns = rest :=
      (congrArg Prod.fst (spawning_of_handles (dropOwner_run prog built (.spawn ticket)))).trans queue
    refine ih ?_ same later
    by_cases again : ticket ∈ rest
    · -- the same ticket waits once more
      have founded : built.Grounded := by
        intro o k member
        rcases called.1 o k member with (no | rfl) | founds
        · exact absurd no id
        · exact .inr (.inl (show ticket ∈ built.deferredSpawns by rwa [queue]))
        · exact .inr founds
      exact foldl_inv (p := Grounded) (fun s k _ grounded => grounded.dropHandle (.spawn ticket) k) founded
    · exact called.1.dropOwner (show ticket ∉ built.deferredSpawns by rwa [queue])

theorem Grounded.cycle {fuel : Nat} {input : CycleInput} {exit : Exit} {ex ex' : Executor W}
    (reached : Reachable (fun _ => True) ex) (grounded : ex.Grounded)
    (h : Executor.cycle prog fuel input ex = .ok (exit, ex')) : ex'.Grounded := by
  rcases cycle_ok prog h with ⟨-, nodes⟩ | ⟨-, mid, swept, nodes, sweeps, spawns⟩
  · exact grounded.runNodes nodes
  · have place := Path.inPlace (runNodes_path prog nodes) reached.inPlace
    exact ((grounded.runNodes nodes).sweepLoop place sweeps).runSpawns rfl spawns

/-- Whatever the program does, and however its cycles end, no handle outlives its holder. -/
theorem Reachable.grounded {ex : Executor W} (reached : Reachable (fun _ => True) ex) : ex.Grounded := by
  obtain ⟨cfg, mode, world, run⟩ := reached
  induction run with
  | refl => exact fun _ _ none => by cases none
  | tail run step ih =>
    cases step with
    | op prog op applied => exact ih.execOp applied
    | cycle prog fuel input exit _ returned => exact ih.cycle ⟨cfg, mode, world, run⟩ returned

/-! ## Destructors -/

/-- The destructor of a node has run when its last handle is gone, and once only. -/
structure Destroyed (ex : Executor W) : Prop where
  built : ∀ o k, (o, k) ∈ ex.handles → k < ex.inners.length
  once : ∀ k, k < ex.inners.length → ¬ ex.Alive k → ex.trace.count (.dropped k) = 1
  never : ∀ k, ex.Alive k ∨ ex.inners.length ≤ k → ex.trace.count (.dropped k) = 0

theorem Destroyed.congr {ex ex' : Executor W} (destroyed : ex.Destroyed)
    (built : ∀ o k, (o, k) ∈ ex'.handles → k < ex.inners.length)
    (nodes : ex'.inners.length = ex.inners.length) (alive : ∀ k, ex'.Alive k ↔ ex.Alive k)
    (trace : ∀ k, ex'.trace.count (.dropped k) = ex.trace.count (.dropped k)) : ex'.Destroyed where
  built o k member := nodes ▸ built o k member
  once k old dead := by
    rw [trace]
    exact destroyed.once k (nodes ▸ old) (mt (alive k).mpr dead)
  never k spared := by
    rw [trace]
    exact destroyed.never k (by rwa [← nodes, ← alive])

theorem Destroyed.line {ex ex' : Executor W} (destroyed : ex.Destroyed) (handles : ex'.handles = ex.handles)
    (nodes : ex'.inners.length = ex.inners.length)
    (trace : ex'.trace = ex.trace ∨ ∃ event, ex'.trace = event :: ex.trace ∧ ∀ k, event ≠ .dropped k) :
    ex'.Destroyed := by
  apply destroyed.congr
  · intro o k member
    exact destroyed.built o k (handles ▸ member)
  · exact nodes
  · intro k
    show k ∈ ex'.handles.map (·.2) ↔ k ∈ ex.handles.map (·.2)
    rw [handles]
  · intro k
    rcases trace with same | ⟨event, more, other⟩
    · rw [same]
    · rw [more, List.count_cons_of_ne (other k)]

theorem alive_release_iff {ex : Executor W} {o : Owner} {k j : Key}
    (spared : j = k → (ex.release o k).Alive k) :
    (ex.release o k).Alive j ↔ ex.Alive j := by
  refine ⟨fun alive => holds_of_release (o := .inner j) alive, fun alive => ?_⟩
  by_cases own : j = k
  · exact own ▸ spared own
  · exact alive_release own alive

theorem HandleStep.destroyed {ex ex' : Executor W} (step : HandleStep ex ex')
    (destroyed : ex.Destroyed) : ex'.Destroyed := by
  cases step with
  | clone o k alive =>
    refine destroyed.congr (fun p j member => ?_) rfl
      (fun j => @holds_addHandle W ex (.inner j) o k alive) fun _ => rfl
    rcases List.mem_cons.mp member with same | old
    · cases same
      obtain ⟨h, held, rfl⟩ := List.mem_map.mp alive
      exact destroyed.built h.1 h.2 held
    · exact destroyed.built p j old
  | release o k held left =>
    exact destroyed.congr (fun p j member => destroyed.built p j (List.mem_of_mem_erase member)) rfl
      (fun j => alive_release_iff fun _ => left) fun _ => rfl
  | expire o k held last =>
    have alive : ex.Alive k := List.mem_map.mpr ⟨(o, k), held, rfl⟩
    have trace : ∀ j, ((ex.release o k).expire k).trace.count (.dropped j) =
        (Event.dropped k :: ex.trace).count (.dropped j) :=
      fun j => List.count_cons_of_ne (by simp)
    have others : ∀ j, j ≠ k → (((ex.release o k).expire k).Alive j ↔ ex.Alive j) ∧
        ((ex.release o k).expire k).trace.count (.dropped j) = ex.trace.count (.dropped j) := by
      intro j other
      refine ⟨@alive_release_iff W ex o k j fun same => absurd same other, ?_⟩
      rw [trace, List.count_cons_of_ne]
      intro same
      cases same
      exact other rfl
    refine ⟨fun p j member => destroyed.built p j (List.mem_of_mem_erase member),
      fun j old dead => ?_, fun j spared => ?_⟩
    · by_cases own : j = k
      · rw [own, trace, List.count_cons_self, destroyed.never k (.inl alive)]
      · obtain ⟨alike, count⟩ := others j own
        rw [count]
        exact destroyed.once j old (mt alike.mpr dead)
    · have own : j ≠ k := by
        rintro rfl
        rcases spared with back | past
        · exact last back
        · exact absurd (destroyed.built o j held) (Nat.not_lt.mpr past)
      obtain ⟨alike, count⟩ := others j own
      rw [count]
      exact destroyed.never j (spared.imp alike.mp id)
  | update f => exact destroyed.line rfl rfl (.inl rfl)
  | wake => exact destroyed.line rfl rfl (.inl rfl)
  | request t => exact destroyed.line rfl rfl (.inr ⟨_, rfl, by simp⟩)
  | register t driver => exact destroyed.line rfl rfl (.inr ⟨_, rfl, by simp⟩)
  | noted r kept => exact destroyed.line rfl rfl (.inr ⟨_, rfl, by simp⟩)

theorem Destroyed.of_offer {ex ex' : Executor W} {i : NodeIndex} {o : Offer}
    (destroyed : ex.Destroyed) (h : ex.offer i = some (o, ex')) {event : Event}
    (other : ∀ k, event ≠ .dropped k) : (ex'.log event).Destroyed := by
  have nodes : ex'.inners.length = ex.inners.length := congrArg List.length (inners_offer h)
  have handles := handles_offer h
  refine destroyed.line handles nodes (.inr ⟨event, ?_, other⟩)
  exact congrArg (event :: ·) (trace_offer h)

theorem Micro.destroyed {ex ex' : Executor W} (step : Micro ex ex') (destroyed : ex.Destroyed) :
    ex'.Destroyed := by
  cases step with
  | code step =>
    cases step with
    | handle step => exact step.destroyed destroyed
    | mutate k epoch => exact destroyed.line rfl (List.length_set ..) (.inl rfl)
    | refused k => exact destroyed.line rfl rfl (.inr ⟨_, rfl, by simp⟩)
    | manual k s => exact destroyed.line rfl rfl (.inr ⟨_, rfl, by simp⟩)
    | forget driver => exact destroyed.line rfl rfl (.inl rfl)
    | spawns ts n => exact destroyed.line rfl rfl (.inl rfl)
  | fire source driver r known sub takes fired =>
    obtain ⟨o, mid, offered, -, rfl⟩ := fire_ok fired
    have aside : ({ ex with eventDriver := driver } : Executor W).Destroyed :=
      destroyed.line rfl rfl (.inl rfl)
    exact aside.of_offer offered (by simp)
  | poison i poisoned =>
    obtain ⟨ctx, -, rfl⟩ := markPoisoned_ok poisoned
    exact destroyed.line rfl rfl (.inr ⟨_, rfl, by simp⟩)
  | spread child spreads =>
    obtain ⟨o, mid, offered, rfl⟩ := spread_ok spreads
    exact destroyed.of_offer offered (by simp)
  | build args depth graph vacant deep edges =>
    have nodes : (ex.insertNode args depth graph).inners.length = ex.inners.length + 1 :=
      List.length_append ..
    have trace : ∀ k, (ex.insertNode args depth graph).trace.count (.dropped k) =
        ex.trace.count (.dropped k) := fun k =>
      List.count_cons_of_ne (by simp)
    have alike : ∀ k, (ex.insertNode args depth graph).Alive k ↔ k = ex.inners.length ∨ ex.Alive k :=
      fun k => List.mem_cons
    constructor
    case built =>
      intro o k member
      rw [nodes]
      rcases List.mem_cons.mp member with same | old
      · cases same
        exact Nat.lt_succ_self _
      · exact Nat.lt_succ_of_lt (destroyed.built o k old)
    case once =>
      intro k old dead
      obtain ⟨new, gone⟩ := not_or.mp (mt (alike k).mpr dead)
      rw [trace]
      rw [nodes] at old
      exact destroyed.once k (Nat.lt_of_le_of_ne (Nat.le_of_lt_succ old) new) gone
    case never =>
      intro k spared
      rw [trace]
      apply destroyed.never
      rw [alike, nodes] at spared
      rcases spared with (rfl | alive) | past
      · exact .inr (Nat.le_refl _)
      · exact .inl alive
      · exact .inr (Nat.le_of_succ_le past)
  | begin => exact destroyed.line rfl rfl (.inr ⟨_, rfl, by simp⟩)
  | ran run there => exact destroyed.line rfl rfl (.inr ⟨_, rfl, by simp⟩)
  | mark run there swept ran => exact destroyed.line rfl rfl (.inr ⟨_, rfl, by simp⟩)
  | terminated => exact destroyed.line rfl rfl (.inr ⟨_, rfl, by simp⟩)
  | remove r rest k front there rests => exact destroyed.line rfl rfl (.inr ⟨_, rfl, by simp⟩)
  | pop o s popped => exact destroyed.line rfl rfl (.inl rfl)
  | discard r rest front vacant => exact destroyed.line rfl rfl (.inl rfl)

theorem Reachable.destroyed {allowed : Exit → Prop} {ex : Executor W}
    (reached : Reachable allowed ex) : ex.Destroyed := by
  obtain ⟨cfg, mode, world, path⟩ := reached.path
  refine run_inv (p := Destroyed) (fun _ _ step => step.destroyed) path
    ⟨fun _ _ none => ?_, fun _ none => ?_, fun _ _ => rfl⟩
  · cases none
  · cases none

/-! ## Why a node is kept -/

/-- The closure or the data of node `i` has a handle to `k`. -/
def Holder (ex : Executor W) (i k : Key) : Prop := (.closure i, k) ∈ ex.handles ∨ (.inner i, k) ∈ ex.handles

/-- The node is held from outside: by the program, by itself since it was spawned, or by a deferred
subgraph that waits. -/
def Anchored (ex : Executor W) (k : Key) : Prop :=
  (.user, k) ∈ ex.handles ∨ ((.graph k, k) ∈ ex.handles ∧ ex.Present k) ∨
  ∃ t ∈ ex.deferredSpawns, (.spawn t, k) ∈ ex.handles

/-- The node goes with the next sweep. -/
def Marked (ex : Executor W) (k : Key) : Prop := ex.Present k ∧ (ex.inner k).index ∈ ex.marks

/-- What has a handle or a place in the graph. -/
def Kept (ex : Executor W) : Set Key := {k | ex.Alive k ∨ ex.Present k}

theorem kept_finite {ex : Executor W} (inPlace : ex.InPlace) : ex.Kept.Finite := by
  refine Set.Finite.subset (ex.lives ∪ Finset.range ex.inners.length).finite_toSet fun k kept => ?_
  rw [Finset.mem_coe, Finset.mem_union, mem_lives, Finset.mem_range]
  exact kept.imp id fun present => (inPlace.of_keyAt present).1

theorem Grounded.support {ex : Executor W} (grounded : ex.Grounded) (dead : ex.DeadMarked) {k : Key}
    (kept : k ∈ ex.Kept) :
    (ex.Anchored k ∨ ex.Marked k) ∨ ∃ j ∈ ex.Kept, ex.Holder j k := by
  have alive : ex.Alive k → (ex.Anchored k ∨ ex.Marked k) ∨ ∃ j ∈ ex.Kept, ex.Holder j k := by
    intro alive
    obtain ⟨⟨o, j⟩, member, rfl⟩ := List.mem_map.mp alive
    rcases grounded o j member with no | holds | ⟨rfl, present⟩
    · exact absurd no id
    · cases o with
      | user => exact .inl (.inl (.inl member))
      | closure i => exact .inr ⟨i, .inr holds, .inl member⟩
      | inner i => exact .inr ⟨i, .inl holds, .inr member⟩
      | spawn t => exact .inl (.inl (.inr (.inr ⟨t, holds, member⟩)))
      | _ => exact absurd holds id
    · exact .inl (.inl (.inr (.inl ⟨member, present⟩)))
  rcases kept with here | present
  · exact alive here
  · rcases dead _ k present with here | marked
    · exact alive here
    · exact .inl (.inr ⟨present, marked⟩)

theorem Grounded.rooted_or_circular {ex : Executor W} (grounded : ex.Grounded)
    (dead : ex.DeadMarked) (inPlace : ex.InPlace) {k : Key} (kept : k ∈ ex.Kept) :
    Rooted (fun r => ex.Anchored r ∨ ex.Marked r) ex.Holder k ∨ Circular ex.Holder k :=
  Supports.rooted_or_circular (kept_finite inPlace) (fun _ kept => grounded.support dead kept) kept

/-- The node is out of the graph and out of memory: its destructor has run, once, and neither its
closure nor its data have left a handle behind. -/
structure Freed (ex : Executor W) (k : Key) : Prop where
  dead : ¬ ex.Alive k
  absent : ¬ ex.Present k
  destroyed : ex.trace.count (.dropped k) = 1
  closure : ex.heldBy (.closure k) = []
  data : ex.heldBy (.inner k) = []

theorem Grounded.nothing {ex : Executor W} (grounded : ex.Grounded) {o : Owner}
    (gone : ¬ ex.Holds o) (other : ∀ k, o ≠ .graph k) : ex.heldBy o = [] := by
  refine List.eq_nil_iff_forall_not_mem.mpr fun k member => ?_
  obtain ⟨h, inside, rfl⟩ := List.mem_map.mp member
  obtain ⟨inside, own⟩ := List.mem_filter.mp inside
  have owner : h.1 = o := of_decide_eq_true own
  rcases grounded h.1 h.2 inside with no | holds | spawned
  · exact no
  · exact gone (owner ▸ holds)
  · exact other h.2 (owner ▸ spawned.1)

theorem Grounded.account {ex : Executor W} (grounded : ex.Grounded) (dead : ex.DeadMarked)
    (inPlace : ex.InPlace) (destroyed : ex.Destroyed) {k : Key} (built : k < ex.inners.length) :
    ex.Freed k ∨ Rooted (fun r => ex.Anchored r ∨ ex.Marked r) ex.Holder k ∨ Circular ex.Holder k := by
  by_cases kept : k ∈ ex.Kept
  · exact .inr (grounded.rooted_or_circular dead inPlace kept)
  · obtain ⟨lost, absent⟩ := not_or.mp kept
    left
    constructor
    · exact lost
    · exact absent
    · exact destroyed.once k built lost
    · exact grounded.nothing (o := .closure k) absent fun _ => by simp
    · exact grounded.nothing (o := .inner k) lost fun _ => by simp

/-- No handle outlives its holder, and of every node ever built: it is freed, or a chain of handles
leads to it from outside or from a node that is marked, or from a circle of handles. -/
theorem freed_or_kept {ex : Executor W} (reached : Reachable (fun _ => True) ex) :
    ex.Grounded ∧ ∀ k < ex.inners.length,
      ex.Freed k ∨ Rooted (fun r => ex.Anchored r ∨ ex.Marked r) ex.Holder k ∨ Circular ex.Holder k :=
  ⟨reached.grounded,
    fun _ built => reached.grounded.account reached.deadMarked reached.inPlace reached.destroyed built⟩

/-- The closures of nodes 0 and 1 hold each other, and nothing else holds them. Nothing holds node 2. -/
def embracing : List (ExecOp Unit) :=
  [.build { index := 0 }, .build { index := 1, captures := [0] }, .build { index := 2 },
    .handle (.clone 1 (.closure 0)),
    .handle (.drop 0 .user), .handle (.drop 1 .user), .handle (.drop 2 .user)]

theorem embracing_kept :
    ∃ ex, bare.play still 4 [(embracing, instantly)] = .ok ([.running], ex) ∧ ex.heldBy .user = [] ∧
      ex.marks = [] ∧ ex.Present 0 ∧
      ¬ ex.Present 2 ∧ ex.Grounded ∧
      (ex.Freed 0 ∨ Rooted (fun r => ex.Anchored r ∨ ex.Marked r) ex.Holder 0 ∨ Circular ex.Holder 0) := by
  have played : bare.play still 4 [(embracing, instantly)] = .ok ([.running], _) := rfl
  have reached := (Reachable.initial ..).play played (fun _ _ => trivial)
  have facts := freed_or_kept reached
  exact ⟨_, played, rfl, rfl, by decide, by decide, facts.1, facts.2 0 (by decide)⟩

/-- When the sweep of a cycle is over, nothing is kept but what is grounded from outside, or by a circle. -/
theorem sweep_frees {fuel n : Nat} {input : CycleInput} {ex mid swept : Executor W}
    (reached : Reachable (fun _ => True) ex)
    (nodes : runNodes prog fuel input ex = .ok (.running, mid))
    (sweeps : sweepLoop prog n mid = .ok swept) {k : Key} (built : k < swept.inners.length) :
    swept.Freed k ∨ Rooted swept.Anchored swept.Holder k ∨ Circular swept.Holder k := by
  have path := runNodes_path prog nodes
  have rests := runNodes_atRest prog reached.schedulerWF nodes
  have inPlace := Path.inPlace path reached.inPlace
  obtain ⟨sweeping, -, empty⟩ := sweepLoop_path prog rests sweeps
  have grounded := (reached.grounded.runNodes nodes).sweepLoop inPlace sweeps
  have dead := sweepLoop_deadMarked rests sweeps inPlace
    (Path.deadMarked path reached.inPlace reached.deadMarked)
  have destroyed :=
    run_inv (p := Destroyed) (fun _ _ step => step.destroyed) (path.trans sweeping) reached.destroyed
  rcases grounded.account dead (Path.inPlace sweeping inPlace) destroyed built with freed |
    ⟨r, anchored | marked, chain⟩ | circular
  · exact .inl freed
  · exact .inr (.inl ⟨r, anchored, chain⟩)
  · have none : (swept.inner r).index ∈ swept.marks := marked.2
    rw [marks, empty] at none
    cases none
  · exact .inr (.inr circular)

theorem embracing_freed :
    ∃ ex mid swept, bare.execOps still embracing = .ok ex ∧
      runNodes still 4 instantly ex = .ok (.running, mid) ∧ mid.marks = [2] ∧
      sweepLoop still 4 mid = .ok swept ∧ swept.marks = [] ∧
      (swept.Freed 2 ∨ Rooted swept.Anchored swept.Holder 2 ∨ Circular swept.Holder 2) := by
  obtain ⟨ex, mid, swept, built, nodes, marked, sweeps, empty, old⟩ :
      ∃ ex mid swept, bare.execOps still embracing = .ok ex ∧
        runNodes still 4 instantly ex = .ok (.running, mid) ∧ mid.marks = [2] ∧
        sweepLoop still 4 mid = .ok swept ∧ swept.marks = [] ∧ 2 < swept.inners.length :=
        ⟨_, _, _, rfl, rfl, rfl, rfl, rfl, by decide⟩
  exact ⟨ex, mid, swept, built, nodes, marked, sweeps, empty,
    sweep_frees (.ops (.initial ..) built) nodes sweeps old⟩

end Executor
end Wavelet
