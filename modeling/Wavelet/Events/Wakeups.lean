import Wavelet.Cycle.Order
import Wavelet.Runtime.Ownership

/-!
# Whom an event wakes

A pending event is a bare index, and it wakes whatever node is in that slot when it fires.
As long as events are registered for nodes that are in the graph, or whose slot is empty,
and no node is built at an index that some event still waits for, every event wakes its
own node or nobody. Otherwise the events of a node that is gone wake the next node at its
index.
-/

namespace Wavelet

/-- An event is registered for the node in its slot, if there is one, and no event waits
for a new node. -/
def Event.RegistersOwn : Event → Prop
  | .registered r occupant => occupant = none ∨ occupant = r.node
  | .built _ _ _ _ quiet => quiet = true
  | _ => True

/-- An event that fires finds its own node or nobody. -/
def Event.WakesOwn : Event → Prop
  | .fired _ r occupant _ _ => occupant = none ∨ occupant = r.node
  | _ => True

instance : DecidablePred Event.RegistersOwn
  | .registered r occupant => inferInstanceAs (Decidable (occupant = none ∨ occupant = r.node))
  | .built _ _ _ _ quiet => inferInstanceAs (Decidable (quiet = true))
  | .began | .notified .. | .fired .. | .spread .. | .manual .. | .ran _ | .terminated
  | .poisoned _ | .dropped _ | .marked .. | .removed _ => .isTrue trivial

instance : DecidablePred Event.WakesOwn
  | .fired _ r occupant _ _ => inferInstanceAs (Decidable (occupant = none ∨ occupant = r.node))
  | .began | .built .. | .registered .. | .notified .. | .spread .. | .manual .. | .ran _
  | .terminated | .poisoned _ | .dropped _ | .marked .. | .removed _ => .isTrue trivial

namespace Executor

variable {W : Type}

/-- Every pending event is its node's own, and so were those that fired. -/
structure Waking (ex : Executor W) : Prop where
  own : ∀ r ∈ ex.eventDriver.refs, ex.Own r
  past : ex.All Event.WakesOwn

theorem All.cons {p : Event → Prop} {ex ex' : Executor W} {event : Event} (all : ex.All p)
    (trace : ex'.trace = event :: ex.trace) (new : p event) : ex'.All p := by
  intro line member
  rw [trace] at member
  rcases List.mem_cons.mp member with rfl | old
  · exact new
  · exact all line old

/-- A step that registers nothing and logs nothing. -/
theorem Waking.still {ex ex' : Executor W} (waking : ex.Waking) (slots : ∀ i, ex'.keyAt i = ex.keyAt i)
    (refs : ∀ r ∈ ex'.eventDriver.refs, r ∈ ex.eventDriver.refs) (trace : ex'.trace = ex.trace) :
    ex'.Waking where
  own r member m here := by
    rw [slots] at here
    exact waking.own r (refs r member) m here
  past event member := waking.past event (by rwa [trace] at member)

/-- A step that logs something else than an event that fires. -/
theorem Waking.line {ex ex' : Executor W} {event : Event} (waking : ex.Waking)
    (slots : ∀ i, ex'.keyAt i = ex.keyAt i) (driver : ex'.eventDriver = ex.eventDriver)
    (trace : ex'.trace = event :: ex.trace) (silent : event.WakesOwn) :
    ex'.Waking where
  own r member m here := by
    rw [slots] at here
    exact waking.own r (by rwa [driver] at member) m here
  past := waking.past.cons trace silent

theorem HandleStep.waking {ex ex' : Executor W} (step : HandleStep ex ex')
    (registersOwn : ex'.All Event.RegistersOwn) (waking : ex.Waking) : ex'.Waking := by
  cases step with
  | update f => exact waking.still (fun _ => rfl) (fun _ member => member) rfl
  | clone o k => exact waking.still (fun _ => rfl) (fun _ member => member) rfl
  | release o k => exact waking.still (fun _ => rfl) (fun _ member => member) rfl
  | expire o k =>
    have dropped : ((ex.release o k).log (.dropped k)).Waking := waking.line (fun _ => rfl) rfl rfl trivial
    exact dropped.line (fun _ => rfl) rfl rfl trivial
  | request t => exact waking.line (fun _ => rfl) rfl rfl trivial
  | register t driver known =>
    refine ⟨fun r member => ?_, waking.past.cons rfl trivial⟩
    rcases known r member with rfl | old
    · exact own_of_occupant (registersOwn _ List.mem_cons_self)
    · exact waking.own r old
  | noted r kept => exact waking.line (fun _ => rfl) rfl rfl trivial
  | wake => exact waking.still (fun _ => rfl) (fun _ member => member) rfl

/-- One step keeps every pending event its node's own. -/
theorem Micro.waking {ex ex' : Executor W} (step : Micro ex ex') (registersOwn : ex'.All Event.RegistersOwn)
    (waking : ex.Waking) : ex'.Waking := by
  cases step with
  | code step =>
    cases step with
    | handle step => exact step.waking registersOwn waking
    | forget driver known => exact waking.still (fun _ => rfl) known rfl
    | refused k => exact waking.line (fun _ => rfl) rfl rfl trivial
    | manual k s => exact waking.line (fun _ => rfl) rfl rfl trivial
    | spawns ts n => exact waking.still (fun _ => rfl) (fun _ member => member) rfl
    | mutate k epoch => exact waking.still (fun _ => rfl) (fun _ member => member) rfl
  | begin => exact waking.line (fun _ => rfl) rfl rfl trivial
  | fire source driver r known sub takes fired =>
    have driver' := eventDriver_fire fired
    obtain ⟨o, mid, offered, -, rfl⟩ := fire_ok fired
    have slots := keyAt_of_same (offer_same offered)
    constructor
    case own =>
      intro s member m here
      rw [driver'] at member
      replace here : mid.keyAt s.index = some m := here
      rw [slots] at here
      exact waking.own s (sub s member) m here
    case past =>
      refine waking.past.cons (congrArg _ (trace_offer offered)) ?_
      show ex.keyAt r.index = none ∨ ex.keyAt r.index = r.node
      cases occupant : ex.keyAt r.index with
      | none => exact .inl rfl
      | some m => exact .inr (waking.own r known m occupant).symm
  | pop o s popped => exact waking.still (fun _ => rfl) (fun _ member => member) rfl
  | ran run there => exact waking.line (fun _ => rfl) rfl rfl trivial
  | terminated => exact waking.line (fun _ => rfl) rfl rfl trivial
  | mark run there swept ran => exact waking.line (fun _ => rfl) rfl rfl trivial
  | poison i poisoned =>
    obtain ⟨ctx, there, rfl⟩ := markPoisoned_ok poisoned
    exact waking.line (keyAt_of_same (Graph.setWeight_same there _ rfl rfl)) rfl rfl trivial
  | spread child spreads =>
    obtain ⟨o, mid, offered, rfl⟩ := spread_ok spreads
    have slots : ∀ i, mid.keyAt i = ex.keyAt i := keyAt_of_same (offer_same offered)
    have driver := eventDriver_offer offered
    exact waking.line slots driver (congrArg _ (trace_offer offered)) trivial
  | discard r rest front vacant => exact waking.still (fun _ => rfl) (fun _ member => member) rfl
  | remove r rest k front there rests =>
    refine ⟨fun s member m here => ?_, waking.past.cons rfl trivial⟩
    exact waking.own s member m (keyAt_of_removeNode here).2
  | build args depth graph vacant deep edges =>
    have quiet : decide (args.index ∉ ex.eventDriver.refs.map (·.index)) = true :=
      registersOwn _ List.mem_cons_self
    refine ⟨fun r member m here => ?_, waking.past.cons rfl trivial⟩
    have apart : r.index ≠ args.index :=
      fun same => of_decide_eq_true quiet (List.mem_map.mpr ⟨r, member, same⟩)
    rw [keyAt_insertNode edges, if_neg apart] at here
    exact waking.own r member m here

/-- While events are registered for the node in their slot and new nodes get indices that
no event waits for, every event that ever fired found its own node or nobody. -/
theorem events_wake_own {ex : Executor W} (reached : Reachable (fun _ => True) ex)
    (registersOwn : ex.All Event.RegistersOwn) :
    ex.All Event.WakesOwn := by
  obtain ⟨cfg, mode, world, path⟩ := reached.path
  have start : (withConfig cfg mode world : Executor W).Waking :=
    ⟨fun r member => (by rw [withConfig, EventDriver.refs_withConfig] at member; cases member),
      fun _ member => by cases member⟩
  exact (Steps.run_inv_of (p := Waking) (fun _ _ step => All.earlier step)
    (fun _ _ step => step.waking) path registersOwn start).past

/-- Every node sweeps itself as soon as it runs. -/
def mayfly : Program Unit where
  cycleFn _ _ _ := ([], .ret .sweep)
  onDrop _ _ := []
  spawnFn _ _ := []

/-- A node that will run, and a timer that outlives it. -/
def mayflyOps : List (ExecOp Unit) :=
  [.build { index := 0 }, .driver (.yieldNow (.node 0)), .driver (.registerTimer (.node 0) 5)]

/-- Timers and no I/O. -/
def timed : Executor Unit := withConfig { ioEnabled := false } .spin ()

def later : CycleInput := ⟨some 0, ⟨10, 10⟩, ⟨10, 10⟩, none⟩

/-- The timer of a node that is gone finds an empty slot. -/
theorem mayfly_events_wake_own :
    ∃ ex : Executor Unit, timed.play mayfly 3 [(mayflyOps, instantly), ([.build { index := 1 }], later)] =
        .ok ([.running, .running], ex) ∧ .fired .timer ⟨0, some 0⟩ none false .vacant ∈ ex.trace ∧
          ex.All Event.WakesOwn :=
  have played : timed.play mayfly 3 [(mayflyOps, instantly), ([.build { index := 1 }], later)] =
      .ok ([.running, .running], _) := rfl
  ⟨_, played, by decide, events_wake_own ((Reachable.initial ..).play played (fun _ _ => trivial))
    (by decide)⟩

/-- The next node at that index is woken by the timer of the first, and runs. -/
theorem stale_timer_wakes_other :
    ∃ ex : Executor Unit, Reachable (· = .running) ex ∧ ex.All Event.ParentsPresent ∧
      ex.All Event.ManualPresent ∧
      .fired .timer ⟨0, some 0⟩ (some 1) false .accepted ∈ ex.trace ∧ ex.runs.map (·.node) = [1] ∧
      ¬ ex.All Event.WakesOwn :=
  have played : timed.play mayfly 3 [(mayflyOps, instantly), ([.build { index := 0 }], later)] =
      .ok ([.running, .running], _) := rfl
  ⟨_, (Reachable.initial ..).play played (by decide), by decide, by decide, by decide, by decide, by decide⟩

end Executor
end Wavelet
