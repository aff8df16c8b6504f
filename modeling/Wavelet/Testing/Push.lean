import Wavelet.Events.Precedence
import Wavelet.Wsnl.Construct

/-!
# Push nodes

`Push` and `push_node` of `testing.rs`. Every push leaves its value in the slot and a
notification in the queue; the node takes the value out of the slot when it runs. A poll
takes out a bounded number of notifications, so some may be left over after the run that
emptied the slot. The node shows the value of the last push that preceded one of its runs
as long as no such notification wakes it.
-/

namespace Wavelet

variable {W T : Type} [Inhabited T]

/-! ## The slot -/

/-- `PushInner<T>`. Ghost: `history` are the pushes, with their values, and the takes, newest
first; no operation reads it. -/
structure PushInner (T : Type) [Inhabited T] where
  data : T
  notifier : Option Target
  history : List (Option T)
  holds : data = history.head?.join.getD default

namespace PushInner

def new : PushInner T := ⟨default, none, [], rfl⟩

def push (p : PushInner T) (data : T) : PushInner T := ⟨data, p.notifier, some data :: p.history, rfl⟩

/-- `std::mem::take`. -/
def take (p : PushInner T) : T × PushInner T := (p.data, ⟨default, p.notifier, none :: p.history, rfl⟩)

/-- The value of the last push, or the initial one. -/
def lastPushed (initial : T) : List (Option T) → T
  | [] => initial
  | some v :: _ => v
  | none :: earlier => lastPushed initial earlier

/-- The value of the last push that preceded a take, or the initial one. -/
def lastTaken (initial : T) : List (Option T) → T
  | [] => initial
  | some _ :: earlier => lastTaken initial earlier
  | none :: earlier => lastPushed initial earlier

end PushInner

open PushInner

/-! ## The node -/

section Node

variable (own : Cell W T) (slot : Cell W (PushInner T))

/-- `Push::push`: what it does in a program whose data is `w`. -/
def push (w : W) (data : T) : List (HandleOp W) :=
  .update (fun w => slot.put ((slot.get w).push data) w) :: ((slot.get w).notifier.map HandleOp.notify).toList

/-- The cycle function of a push node. -/
def pushCycle (_ : Executor W) (_ : ExecutionContext) : List (Effect W) × Outcome :=
  ([.handle (.update fun w => own.put (slot.get w).take.1 (slot.put (slot.get w).take.2 w))], .ret .broadcast)

/-- The value of the node is left alone, the slot is left alone or pushed to. -/
def Pushed (w w' : W) : Prop :=
  own.get w' = own.get w ∧ (slot.get w' = slot.get w ∨ ∃ v, slot.get w' = (slot.get w).push v)

def HandleOp.Pushes : HandleOp W → Prop
  | .update f => ∀ w, Pushed own slot w (f w)
  | .clone .. | .drop .. | .markForSweep _ | .notify _ => True

def Effect.Pushes : Effect W → Prop
  | .handle op => op.Pushes own slot
  | .driver _ | .scheduleNode _ | .spawnSubgraph _ => True

def ExecOp.Pushes : ExecOp W → Prop
  | .handle op => op.Pushes own slot
  | .driver _ | .build _ => True

/-- Node `c` of the program is a push node, and the other code gets at its slot only through
`push`. -/
structure Program.PushNode (prog : Program W) (c : Key) : Prop where
  runs : ∀ ex ctx, prog.cycleFn ex ctx c = pushCycle own slot ex ctx
  others : ∀ ex ctx k, k ≠ c → ∀ effect ∈ (prog.cycleFn ex ctx k).1, effect.Pushes own slot
  drops : ∀ ex k, ∀ op ∈ prog.onDrop ex k, op.Pushes own slot
  apart : own.Apart slot ∧ slot.Apart own

/-- The node shows the value of the last push that preceded one of its runs. -/
def Shows (initial : T) (w : W) : Prop := own.get w = lastTaken initial (slot.get w).history

/-- The slot holds the value of the last push. -/
def Supplied (initial : T) (w : W) : Prop := (slot.get w).data = lastPushed initial (slot.get w).history

variable {own slot}

theorem Pushed.shows {initial : T} {w w' : W} (pushed : Pushed own slot w w')
    (shows_ : Shows own slot initial w) :
    Shows own slot initial w' := by
  obtain ⟨value, same | ⟨v, more⟩⟩ := pushed
  · rwa [Shows, value, same]
  · rw [Shows, value, more]
    exact shows_

theorem Pushed.supplied {initial : T} {w w' : W} (pushed : Pushed own slot w w')
    (supplied : Supplied slot initial w) :
    Supplied slot initial w' := by
  obtain ⟨-, same | ⟨v, more⟩⟩ := pushed
  · rwa [Supplied, same]
  · rw [Supplied, more]
    rfl

theorem HandleOp.Pushes.keeps {p : W → Prop} {op : HandleOp W} (pushes : op.Pushes own slot)
    (kept : ∀ w w', Pushed own slot w w' → p w → p w') : op.Keeps p := by
  cases op with
  | update f => exact fun w good => kept w (f w) (pushes w) good
  | _ => trivial

theorem ExecOp.Pushes.keeps {p : W → Prop} {op : ExecOp W} (pushes : op.Pushes own slot)
    (kept : ∀ w w', Pushed own slot w w' → p w → p w') : op.Keeps p := by
  cases op with
  | handle op => exact HandleOp.Pushes.keeps pushes kept
  | _ => trivial

namespace Program.PushNode

variable {prog : Program W} {c : Key} {p : W → Prop}

theorem dropsKeep (node : prog.PushNode own slot c)
    (kept : ∀ w w', Pushed own slot w w' → p w → p w') : prog.DropsKeep p :=
  fun ex k op member => (node.drops ex k op member).keeps kept

theorem runsKeep (node : prog.PushNode own slot c)
    (kept : ∀ w w', Pushed own slot w w' → p w → p w') {k : Key} (other : k ≠ c) :
    prog.RunsKeep p k := by
  intro ex ctx _ effect member
  have pushes := node.others ex ctx k other effect member
  cases effect with
  | handle op => exact HandleOp.Pushes.keeps pushes kept
  | _ => trivial

end Program.PushNode

end Node

namespace Executor

variable {own : Cell W T} {slot : Cell W (PushInner T)} {initial : T} {c : Key} {prog : Program W}
  {now : CycleTime}

/-! ## A node without parents in a node loop -/

section Parentless

omit [Inhabited T]

theorem entries_offer {ex ex' : Executor W} {i j : NodeIndex} {o : Offer}
    (h : ex.offer j = some (o, ex')) (other : j ≠ i) :
    ex'.scheduler.entries.count i = ex.scheduler.entries.count i := by
  rcases offer_cases h with ⟨-, rfl, -⟩ | ⟨_, -, -, -, rfl⟩ | ⟨_, -, -, -, -, rfl⟩ |
    ⟨_, -, -, -, bound, -, rfl⟩
  · rfl
  · rfl
  · rfl
  · exact (Scheduler.enqueue_count bound j i).trans (by rw [if_neg other]; rfl)

theorem entries_spread {ex ex' : Executor W} {i j : NodeIndex} (h : ex.spread j = .ok ex') (other : j ≠ i) :
    ex'.scheduler.entries.count i = ex.scheduler.entries.count i := by
  obtain ⟨o, mid, offered, rfl⟩ := spread_ok h
  have same : mid.scheduler.entries.count i = ex.scheduler.entries.count i := entries_offer offered other
  exact same

/-- What follows a run does not queue a node that is no child. -/
theorem entries_handleControl {run : Run} {ex ex' : Executor W} {i : NodeIndex}
    (h : handleControl run ex = .ok ex') (childless : ¬ ex.graph.Adj run.index i) :
    ex'.scheduler.entries.count i = ex.scheduler.entries.count i := by
  unfold handleControl at h
  split at h
  · refine Steps.foldlM_inv (p := fun s : Executor W => s.scheduler.entries.count i =
        ex.scheduler.entries.count i)
      (fun s j s' member spreads same => ?_) h rfl
    refine (entries_spread spreads ?_).trans same
    rintro rfl
    exact childless ⟨_, Graph.mem_triggeringEdges_iff.mp member⟩
  · refine Steps.foldlM_inv (p := fun s : Executor W => s.scheduler.entries.count i =
        ex.scheduler.entries.count i)
      (fun s j s' member both same => ?_) h rfl
    obtain ⟨mid, poisoned, spreads⟩ := Steps.bind_ok both
    obtain ⟨ctx, -, rfl⟩ := markPoisoned_ok poisoned
    refine (entries_spread spreads ?_).trans same
    rintro rfl
    exact childless (Graph.mem_edges_iff.mp member)
  · cases h; rfl
  · cases h; rfl

/-- A turn takes the index out of the queues if it is its own, and puts it in for a parent or
a call of `schedule_node` only. -/
theorem TurnOf.entries {before ran after : Executor W} {run : Run}
    (turn : TurnOf prog now before run ran after) (wf : before.scheduler.WF) {i : NodeIndex}
    (parentless : ∀ j, ¬ before.graph.Adj j i) (unhanded : i ∉ handedIn prog now before) :
    before.scheduler.entries.count i = after.scheduler.entries.count i + if run.index = i then 1 else 0 := by
  obtain ⟨s, popped, cycled⟩ := turn.cycled
  have graph : ran.graph = before.graph := (frame_of_run (graphCycle_run prog cycled)).graph
  have childless : ¬ (ran.recordRun run).graph.Adj run.index i := by
    show ¬ ran.graph.Adj run.index i
    rw [graph]
    exact parentless run.index
  have rest : after.scheduler.entries.count i = (ran.recordRun run).scheduler.entries.count i :=
    entries_handleControl turn.handled childless
  replace rest : after.scheduler.entries.count i = ran.scheduler.entries.count i := rest
  rw [rest, entries_graphCycle popped cycled, List.count_eq_zero.mpr unhanded, Nat.add_zero]
  exact (Scheduler.pop_some wf popped).count i

end Parentless

/-! ## One cycle -/

/-- The run of the node itself: it takes the slot's value, unless it is not called. -/
theorem TurnOf.takes {before ran after : Executor W} {run : Run} (turn : TurnOf prog now before run ran after)
    (node : prog.PushNode own slot c) (here : run.node = c) (shows_ : Shows own slot initial before.world)
    (supplied : Supplied slot initial before.world) : Shows own slot initial after.world := by
  obtain ⟨s, -, cycled⟩ := turn.cycled
  rw [turn.world]
  have fine : run.verdict ≠ .panicked := by
    apply unpanicked_graphCycle cycled
    · intro s ctx effect member
      rw [here, node.runs] at member
      exact ⟨_, List.mem_singleton.mp member⟩
    · intro s ctx
      rw [here, node.runs]
      exact fun no => by cases no
  cases verdict : run.verdict with
  | panicked => exact absurd verdict fine
  | poisoned =>
    rw [skipped_graphCycle cycled (.inl verdict)]
    exact shows_
  | noHandle =>
    rw [skipped_graphCycle cycled (.inr verdict)]
    exact shows_
  | returned control =>
    obtain ⟨m, world, -, -, -, leaves⟩ := returned_graphCycle cycled verdict
    replace world : m.world = before.world := world
    rw [here, node.runs] at leaves
    refine leaves ?_ (Shows own slot initial) (node.dropsKeep fun _ _ pushed => pushed.shows) ?_
    · intro effect member
      rw [List.mem_singleton.mp member]
      trivial
    · rw [world]
      show Shows own slot initial (own.put _ (slot.put _ before.world))
      rw [Shows, own.get_put, node.apart.1, slot.get_put]
      exact supplied

theorem TurnOf.others_keep {before ran after : Executor W} {run : Run}
    (turn : TurnOf prog now before run ran after) (node : prog.PushNode own slot c)
    (other : run.node ≠ c) {p : W → Prop} (kept : ∀ w w', Pushed own slot w w' → p w → p w')
    (start : p before.world) : p after.world := by
  obtain ⟨s, -, cycled⟩ := turn.cycled
  rw [turn.world]
  exact graphCycle_world (node.dropsKeep kept) cycled (node.runsKeep kept other) start

/-- The node in slot `i` of the graph waits at most once, and while it waits its slot holds
the last value pushed. -/
structure Attends (slot : Cell W (PushInner T)) (initial : T) (i : NodeIndex) (ex : Executor W) : Prop where
  once : ex.scheduler.entries.count i ≤ 1
  supplied : i ∈ ex.scheduler.entries → Supplied slot initial ex.world

theorem Attends.turn {before ran after : Executor W} {run : Run} {i : NodeIndex}
    (attends : Attends slot initial i before) (turn : TurnOf prog now before run ran after)
    (node : prog.PushNode own slot c) (wf : before.scheduler.WF) (own_ : before.keyAt i = some c)
    (inPlace : before.InPlace) (parentless : ∀ j, ¬ before.graph.Adj j i)
    (unhanded : i ∉ handedIn prog now before) (shows_ : Shows own slot initial before.world) :
    Attends slot initial i after ∧ Shows own slot initial after.world := by
  have counted := turn.entries wf parentless unhanded
  have once := attends.once
  by_cases here : run.node = c
  · have index : run.index = i := by
      have occupant := turn.occupant
      rw [here] at occupant
      rw [← (inPlace.of_keyAt occupant).2, (inPlace.of_keyAt own_).2]
    rw [if_pos index] at counted
    have waiting : i ∈ before.scheduler.entries := List.count_pos_iff.mp (by omega)
    refine ⟨⟨by omega, fun again => ?_⟩, turn.takes node here shows_ (attends.supplied waiting)⟩
    have := List.count_pos_iff.mpr again
    omega
  · have apart : run.index ≠ i := by
      intro index
      have occupant := turn.occupant
      rw [index, own_] at occupant
      exact here (Option.some.inj occupant).symm
    rw [if_neg apart, Nat.add_zero] at counted
    refine ⟨⟨by omega, fun waits => ?_⟩, turn.others_keep node here (fun _ _ pushed => pushed.shows) shows_⟩
    refine turn.others_keep node here (fun _ _ pushed => pushed.supplied) (attends.supplied ?_)
    rw [← List.count_pos_iff, counted]
    exact List.count_pos_iff.mpr waits

/-- Nothing but notifications wakes the node in slot `i` in the cycle. -/
structure WokenByNotices (prog : Program W) (input : CycleInput) (ex : Executor W) (i : NodeIndex) :
    Prop where
  events : i ∉ (ex.eventDriver.yieldDriver ++ ex.expired input ++ ioSeeds input ex).map (·.index)
  calls : ∀ now polled calls mid, poll input ex.beginCycle = .ok (some now, polled) →
    Turned prog now polled calls mid → i ∉ calls

/-- A pass in which a notification wakes the node only if its slot holds the last value pushed. -/
theorem Pass.shows {fuel : Nat} {input : CycleInput} {ex last swept : Executor W}
    (pass : Pass prog fuel input ex last swept) (idle : ex.Idle) (node : prog.PushNode own slot c)
    (only : Only [] c ex) (woken : ex.Present c → WokenByNotices prog input ex (ex.inner c).index)
    (supplied : ex.Present c → (ex.inner c).index ∈ ex.notified.map (·.index) →
      Supplied slot initial ex.world) (shows_ : Shows own slot initial ex.world) :
    Shows own slot initial last.world := by
  obtain ⟨now, polled, final, s, polls, turns, -, rfl⟩ := pass.loop
  clear pass
  have begun : Path ex polled := .head .begin (poll_path polls)
  have same : ex.graph.Same polled.graph := (Steady.of_poll polls).graph
  have world : polled.world = ex.world := (world_poll polls).trans rfl
  have wf := begun.schedulerWF idle.atRest.wf
  have inPlace := begun.inPlace idle.inPlace
  have keeps : ∀ {before}, Turns prog now polled before → before.InPlace ∧ before.scheduler.WF ∧
      polled.graph.Same before.graph := fun turns =>
    ⟨(Turns.path turns).inPlace inPlace, (Turns.path turns).schedulerWF wf, Turns.same turns⟩
  show Shows own slot initial final.world
  by_cases present : ex.Present c
  · have notices := woken present
    -- only notifications have put the node into the queues
    have attends : Attends slot initial (ex.inner c).index polled := by
      have origins := (Origins.start idle.atRest).poll polls
      constructor
      · have counted := origins.counted (ex.inner c).index
        have single := List.nodup_iff_count_le_one.mp origins.distinct (ex.inner c).index
        rw [List.count_nil] at counted
        omega
      · intro queued
        rw [world]
        apply supplied present
        obtain ⟨d, member⟩ := Scheduler.mem_entries_iff.mp queued
        have rests : ex.beginCycle.scheduler.AtRest := idle.atRest
        rw [queue_poll rests polls d, wokenAt, List.mem_eraseDups] at member
        have seed := (List.mem_filter.mp member).1
        rw [seeds_eq, List.append_assoc, List.map_append] at seed
        exact (List.mem_append.mp seed).resolve_right notices.events
    have index : polled.keyAt (ex.inner c).index = some c := by
      rw [keyAt_of_same same]
      exact present
    obtain ⟨calls, turned⟩ := Turns.turned turns
    have inv : Attends slot initial (ex.inner c).index final ∧ Shows own slot initial final.world := by
      clear turns
      induction turned with
      | start => exact ⟨attends, by rwa [world]⟩
      | @again calls before after turned step ih =>
        obtain ⟨attends, shows_⟩ := ih
        obtain ⟨run, ran, turn⟩ := turnOf_again step
        obtain ⟨placed, wf, graph⟩ := keeps turned.turns
        refine attends.turn turn node wf (by rw [keyAt_of_same graph]; exact index) placed ?_ ?_ shows_
        · intro j edge
          rw [graph.adj, same.adj] at edge
          obtain ⟨p, r, -, declared⟩ := only _ _ present edge
          cases declared
        · intro handed
          exact notices.calls now polled _ after polls (turned.again step) (List.mem_append_right _ handed)
    exact inv.2
  · -- a node that is not in the graph does not run
    induction turns with
    | refl => rwa [world]
    | @tail before after turns step ih =>
      obtain ⟨run, ran, turn⟩ := turnOf_again step
      refine turn.others_keep node ?_ (fun _ _ pushed => pushed.shows) ih
      intro here
      have occupant := turn.occupant
      rw [here, keyAt_of_same (keeps turns).2.2, keyAt_of_same same] at occupant
      apply present
      rw [Present, (idle.inPlace.of_keyAt occupant).2]
      exact occupant

end Executor

/-! ## Lives -/

namespace Executor

variable {own : Cell W T} {slot : Cell W (PushInner T)} {initial : T} {c : Key}

/-- The value of a push node, and its slot. -/
structure Inbox where
  value : Nat
  slot : PushInner Nat

def slotCell : Cell Inbox (PushInner Nat) :=
  ⟨Inbox.slot, fun slot inbox => { inbox with slot := slot }, fun _ _ => rfl⟩

/-- Calls of `push`, one after the other. -/
def pushes (w : Inbox) (values : List Nat) : List (ExecOp Inbox) :=
  values.flatMap fun v => (push slotCell w v).map .handle

/-- Before anything is built. -/
def vacant : Executor Inbox := withConfig { ioEnabled := false, timerEnabled := false } .spin ⟨0, .new⟩

end Executor
end Wavelet
