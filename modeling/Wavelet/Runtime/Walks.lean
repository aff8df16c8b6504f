import Wavelet.Runtime.Loop

/-!
# What program code does in a cycle

The event sources, the closures of deferred subgraphs, the handles and the data of the nodes are
reached through few operations: the effects of a cycle function, the handle that a closure takes
for its call, and the drop of a handle with the destructors that it sets off. What these respect, a
turn of the node loop and a sweep respect as well.
-/

namespace Wavelet
namespace Executor

open Steps

variable {W : Type}

/-- What the effects of a call keep, one after the other. -/
theorem effects_inv {prog : Program W} {p : Executor W → Prop} {effects : List (Effect W)}
    (step : ∀ {ex ex'}, ∀ effect ∈ effects, p ex → ex.applyEffect prog effect = some ex' → p ex')
    {ex : Executor W} (start : p ex) :
    p (ex.applyEffects prog effects).2 := by
  induction effects generalizing ex with
  | nil => exact start
  | cons first rest ih =>
    rw [applyEffects]
    split
    · rename_i next applied
      have moved := step first List.mem_cons_self start applied
      exact ih (fun effect member => step effect (List.mem_cons_of_mem _ member)) moved
    · exact start

/-- A preorder that the operations of a program go along, and that looks at what they reach
alone. -/
structure Walks (prog : Program W) (r : Executor W → Executor W → Prop) : Prop where
  trans : ∀ {a b c}, r a b → r b c → r a c
  same : ∀ {a b : Executor W}, b.eventDriver = a.eventDriver → b.deferredSpawns = a.deferredSpawns →
    b.tickets = a.tickets →
    b.handles = a.handles → b.world = a.world → r a b
  enter : ∀ {ex k}, ex.Alive k → r ex (ex.addHandle .running k)
  drop : ∀ ex o k, r ex (ex.dropHandle prog o k)
  runs : ∀ ex i now k, r ex (ex.applyEffects prog (prog.cycleFn ex ⟨i, now, ex.epoch⟩ k).1).2

namespace Walks

variable {prog : Program W} {r : Executor W → Executor W → Prop}

theorem refl (walks : Walks prog r) (ex : Executor W) : r ex ex := walks.same rfl rfl rfl rfl rfl

theorem owner (walks : Walks prog r) (ex : Executor W) (o : Owner) : r ex (ex.dropOwner prog o) :=
  foldl_inv (p := r ex) (fun _ k _ before => walks.trans before (walks.drop _ o k)) (walks.refl ex)

theorem call (walks : Walks prog r) {now : CycleTime} {i : NodeIndex} {fn : CycleFn}
    {ex ex' : Executor W} {v : Verdict} (h : callCycleFn prog now i fn ex = .ok (v, ex')) : r ex ex' := by
  obtain ⟨answer, finished, after, rfl, applied, ends⟩ := callCycleFn_ok prog h
  have made := walks.runs ex i now fn.state
  rw [applied] at made
  apply walks.trans made
  rcases ends with ⟨control, -, -, -, rfl⟩ | ⟨-, rfl, -⟩
  · split
    · exact walks.same rfl rfl rfl rfl rfl
    · exact walks.same rfl rfl rfl rfl rfl
  · exact walks.same rfl rfl rfl rfl rfl

theorem node (walks : Walks prog r) {now : CycleTime} {i : NodeIndex} {ex ex' : Executor W} {run : Run}
    (h : graphCycle prog now i ex = .ok (run, ex')) : r ex ex' := by
  obtain ⟨ctx, -, -, -, poisoned | spawned | built | dead⟩ := graphCycle_cases prog h
  · rw [poisoned.2.2]
    exact walks.same rfl rfl rfl rfl rfl
  · exact walks.call spawned.2.2
  · obtain ⟨-, -, alive, mid, called, rfl⟩ := built
    exact walks.trans (walks.enter alive) (walks.trans (walks.call called) (walks.drop mid _ _))
  · rw [dead.2.2.2.2]
    exact walks.same rfl rfl rfl rfl rfl

theorem turn (walks : Walks prog r) {now : CycleTime} {ex ex' : Executor W}
    (h : nodeStep prog now ex = .ok (.finished ex') ∨ nodeStep prog now ex = .ok (.terminated ex') ∨
      nodeStep prog now ex = .ok (.again ex')) : r ex ex' := by
  have popped : ∀ s, r ex { ex with scheduler := s } := fun s => walks.same rfl rfl rfl rfl rfl
  rcases h with finished | terminated | again
  · obtain ⟨s, -, rfl⟩ := nodeStep_finished prog finished
    exact popped s
  · obtain ⟨i, s, run, mid, -, ran, -, rfl⟩ := nodeStep_terminated prog terminated
    exact walks.trans (popped s) (walks.trans (walks.node ran) (walks.same rfl rfl rfl rfl rfl))
  · obtain ⟨i, s, run, mid, -, ran, -, handled⟩ := nodeStep_again prog again
    apply walks.trans (popped s)
    apply walks.trans (walks.node ran)
    refine handleControl_inv (p := r mid)
      (fun _ before => walks.trans before (walks.same rfl rfl rfl rfl rfl))
      (fun i s s' poisoned before => ?_) (fun c s s' spreads before => ?_) handled
      (walks.same rfl rfl rfl rfl rfl)
    · obtain ⟨ctx, -, rfl⟩ := markPoisoned_ok poisoned
      exact walks.trans before (walks.same rfl rfl rfl rfl rfl)
    · obtain ⟨o, last, offered, rfl⟩ := spread_ok spreads
      apply walks.trans before
      rcases offer_cases offered with ⟨-, rfl, -⟩ | ⟨_, -, -, -, rfl⟩ | ⟨_, -, -, -, -, rfl⟩ |
        ⟨_, -, -, -, -, -, rfl⟩ <;>
        exact walks.same rfl rfl rfl rfl rfl

theorem loop (walks : Walks prog r) {now : CycleTime} {exit : Exit} {ex ex' : Executor W}
    (loop : Loop prog now ex exit ex') : r ex ex' := by
  induction loop with
  | finished step => exact walks.turn (.inl step)
  | terminated step => exact walks.turn (.inr (.inl step))
  | again step _ ih => exact walks.trans (walks.turn (.inr (.inr step))) ih

theorem removeNode (walks : Walks prog r) (ex : Executor W) (rest : List Ref) (i : NodeIndex) :
    r ex (Executor.removeNode prog { ex with gc := rest } i) := by
  unfold Executor.removeNode
  split
  · exact walks.same rfl rfl rfl rfl rfl
  · rename_i k here
    have removed : r ex (log { ex with gc := rest, graph := ex.graph.removeNode i } (.removed k)) :=
      walks.same rfl rfl rfl rfl rfl
    exact walks.trans removed (walks.trans (walks.owner _ _) (walks.owner _ _))

theorem sweepLoop (walks : Walks prog r) {fuel : Nat} {ex ex' : Executor W}
    (h : Executor.sweepLoop prog fuel ex = .ok ex') : r ex ex' := by
  induction fuel generalizing ex with
  | zero => cases h
  | succ fuel ih =>
    rw [Executor.sweepLoop] at h
    split at h
    · cases h
      exact walks.same rfl rfl rfl rfl rfl
    · rename_i first rest marked
      exact walks.trans (walks.removeNode ex rest first.index) (ih h)

end Walks

end Executor
end Wavelet
