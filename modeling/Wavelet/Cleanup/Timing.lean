import Wavelet.Cleanup.Twin
import Wavelet.Cycle.Order
import Wavelet.Runtime.World

/-!
# When a dead node is scheduled

A dropped node is swept by the removal queue alone, or also by its own run when an event
reaches it in time. The run poisons the nodes below it, the removal queue does not. If the
nodes below it are dead as well, this makes no difference to what is left after the cycle;
a live one among them is removed in the one case and stays in the other.
-/

namespace Wavelet

/-- The node that an event wakes. -/
def Event.woken : Event → Option NodeIndex
  | .fired _ r _ _ _ => some r.index
  | _ => none

namespace Executor

open Pairs Relation

variable {W : Type} {p q prog : Program W} {silent : Key → Bool} {z : NodeIndex → Bool}
  {m : List Ref} {a b : Executor W}

/-! ## What turns leave alone -/

/-- A turn brings no node back to life. -/
theorem alive_of_turn {now : CycleTime} (h : nodeStep prog now a = .ok (.again b)) {k : Key}
    (alive : b.Alive k) : a.Alive k := by
  obtain ⟨i, s, run, mid, -, ran, -, handled⟩ := nodeStep_again prog h
  rw [Alive, handles_handleControl handled] at alive
  exact alive_of_code (graphCycle_run prog ran) alive

theorem Loop.same {now : CycleTime} {exit : Exit} (h : Loop prog now a exit b)
    (runs : exit = .running) : a.graph.Same b.graph := by
  induction h with
  | finished step =>
    obtain ⟨s, -, rfl⟩ := nodeStep_finished prog step
    exact .refl _
  | terminated _ => cases runs
  | again step _ ih => exact (Turns.same (.single step)).trans (ih runs)

/-- What both runs need along the node loop. -/
structure Ready (silent : Key → Bool) (z : NodeIndex → Bool) (ex : Executor W) : Prop where
  extinct : Extinct z ex
  whispers : Whispers silent z ex
  wf : ex.scheduler.WF

theorem Ready.turn (ready : Ready silent z a) {now : CycleTime} (h : nodeStep prog now a = .ok (.again b)) :
    Ready silent z b := by
  have same := Turns.same (.single h)
  refine ⟨⟨fun i fn d hidden there => ?_, fun p c hidden edge => ?_⟩, fun i k quiet here c child => ?_, ?_⟩
  · rw [same.core] at there
    obtain ⟨built, dead⟩ := ready.extinct.dead i fn d hidden there
    exact ⟨built, fun alive => dead (alive_of_turn h alive)⟩
  · exact ready.extinct.closed p c hidden (same.adj.mp edge)
  · rw [keyAt_of_same same] at here
    rw [Graph.triggeringEdges, same.edges] at child
    exact ready.whispers i k quiet here c child
  · exact (nodeStep_path (.inr (.inr h))).schedulerWF ready.wf

/-- Both schedulers are found empty. -/
theorem Twin.finish (twin : Twin silent z m a b) (wf : a.scheduler.WF) (wf' : b.scheduler.WF)
    {s t : Scheduler} (popped : a.scheduler.pop = (none, s)) (popped' : b.scheduler.pop = (none, t)) :
    Level silent z m { a with scheduler := s } { b with scheduler := t } := by
  have rests := (Scheduler.pop_none wf popped).1
  have rests' := (Scheduler.pop_none wf' popped').1
  obtain rfl := Scheduler.popLoop_none popped
  obtain rfl := Scheduler.popLoop_none popped'
  refine ⟨⟨twin.memory, twin.epoch, twin.core, twin.weight, twin.edges, twin.length, fun d => ?_, twin.marks⟩,
    rfl⟩
  rw [rests.drained d, rests'.drained d]

/-- A node outside `z` that is next in one is queued in the other. -/
theorem Twin.not_drained (twin : Twin silent z m a b) (wf : a.scheduler.WF) {i : NodeIndex} {s : Scheduler}
    (popped : a.scheduler.pop = (some i, s)) (plain : z i = false) : b.scheduler.entries ≠ [] := by
  have pops := Scheduler.pop_some wf popped
  have heads := twin.queues s.currDepth
  rw [pops.first, List.filter_cons, if_pos (by rw [plain]; rfl)] at heads
  have queued : i ∈ b.scheduler.queue s.currDepth :=
    List.mem_of_mem_filter (by rw [heads]; exact List.mem_cons_self)
  intro empty
  have entry := Scheduler.mem_entries_iff.mpr ⟨_, queued⟩
  rw [empty] at entry
  cases entry

/-- Node loops that start as twins and run to their end leave twins. Turns of nodes of `z`
come at other times and may come in one of the two only; all other turns pair up. -/
theorem Twin.loop (matched : Program.Matched silent p q) {now : CycleTime} {a' b' : Executor W}
    (left : Loop p now a .running a') (right : Loop q now b .running b')
    (twin : Twin silent z m a b) (ready : Ready silent z a) (ready' : Ready silent z b) :
    Level silent z m a' b' := by
  generalize exits : Exit.running = exit at left
  induction left generalizing b with
  | finished step =>
    obtain ⟨s, popped, rfl⟩ := nodeStep_finished p step
    generalize exits' : Exit.running = exit' at right
    induction right with
    | finished step' =>
      obtain ⟨t, popped', rfl⟩ := nodeStep_finished q step'
      exact twin.finish ready.wf ready'.wf popped popped'
    | terminated _ => cases exits'
    | again step' _ ih =>
      obtain ⟨j, t, -, -, popped', -⟩ := nodeStep_again q step'
      have hidden : z j = true := by
        by_contra plain
        exact twin.symm.not_drained ready'.wf popped' (by simpa using plain)
          (Scheduler.pop_none ready.wf popped).2
      have later : Twin silent z m _ _ :=
        twin_of_turn ready'.extinct ready'.wf twin.symm.front popped' hidden step'
      exact ih (twin.trans later) (ready'.turn step') exits'
  | terminated _ => cases exits
  | again step _ ih =>
    obtain ⟨i, s, -, -, popped, -⟩ := nodeStep_again p step
    cases plain : z i with
    | true =>
      have later : Twin silent z m _ _ := twin_of_turn ready.extinct ready.wf twin.front popped plain step
      exact ih right (later.symm.trans twin) (ready.turn step) ready' exits
    | false =>
      generalize exits' : Exit.running = exit' at right
      induction right with
      | finished step' =>
        obtain ⟨t, popped', -⟩ := nodeStep_finished q step'
        exact absurd (Scheduler.pop_none ready'.wf popped').2 (twin.not_drained ready.wf popped plain)
      | terminated _ => cases exits'
      | again step' rest ih' =>
        obtain ⟨j, t, -, -, popped', -⟩ := nodeStep_again q step'
        cases plain' : z j with
        | true =>
          have later : Twin silent z m _ _ :=
            twin_of_turn ready'.extinct ready'.wf twin.symm.front popped' plain' step'
          exact ih' ih (twin.trans later) (ready'.turn step') exits'
        | false =>
          subst exits'
          have both :=
            twin.turn matched ready.whispers ready.wf ready'.wf popped popped' plain plain' step step'
          exact ih rest both (ready.turn step) (ready'.turn step') exits

/-! ## The sweeps -/

/-- The nodes of `z` are gone. -/
def Cleared (z : NodeIndex → Bool) (ex : Executor W) : Prop := ∀ i, z i = true → ex.keyAt i = none

/-- Taking the same mark in both. -/
theorem Level.remove (matched : Program.Matched silent p q) (level : Level silent z m a b) (i : NodeIndex) :
    Level silent z m (removeNode p a i) (removeNode q b i) := by
  refine (respects_level matched).removeNode level fun event => ?_
  refine ⟨⟨level.memory, level.epoch, fun j => ?_, fun j plain => ?_, ?_, level.length,
    level.queues, level.marks⟩, level.cursor⟩
  · show (b.graph.removeNode i).core j = (a.graph.removeNode i).core j
    rw [Graph.core_removeNode, Graph.core_removeNode, level.core]
  · show (b.graph.removeNode i).nodeWeight j = (a.graph.removeNode i).nodeWeight j
    rw [Graph.nodeWeight_removeNode, Graph.nodeWeight_removeNode, level.weight j plain]
  · show (b.graph.removeNode i).edgeList = (a.graph.removeNode i).edgeList
    rw [Graph.removeNode, Graph.removeNode, level.edges]

/-- The next mark is taken off. -/
theorem Level.take {r : Ref} (level : Level silent z (r :: m) a b) : ∃ s t, a.gc = r :: s ∧ b.gc = r :: t ∧
    Level silent z m { a with gc := s } { b with gc := t } := by
  obtain ⟨s, t, left, right, same⟩ := level.marks
  refine ⟨m ++ s, m ++ t, left, right, ?_⟩
  exact ⟨⟨level.memory, level.epoch, level.core, level.weight, level.edges, level.length,
    level.queues, s, t, rfl, rfl, same⟩,
    level.cursor⟩

/-- A mark of a node of `z` that is gone is taken off in one. -/
theorem Level.skip {r : Ref} {rest : List Ref} (level : Level silent z [] a b) (front : a.gc = r :: rest)
    (hidden : z r.index = true) : Level silent z [] { a with gc := rest } b := by
  obtain ⟨s, t, left, right, same⟩ := level.marks
  rw [List.nil_append] at left
  rw [front] at left
  subst left
  refine ⟨⟨level.memory, level.epoch, level.core, level.weight, level.edges, level.length,
    level.queues, rest, t, rfl, right, ?_⟩,
    level.cursor⟩
  rw [same]
  simp [outside, hidden]

theorem sweepLoop_skip {n : Nat} {r : Ref} {rest : List Ref} (cleared : Cleared z a)
    (front : a.gc = r :: rest) (hidden : z r.index = true) :
    sweepLoop p (n + 1) a = sweepLoop p n { a with gc := rest } := by
  rw [sweepLoop, front]
  show sweepLoop p n (removeNode p { a with gc := rest } r.index) = _
  rw [removeNode_vacant]
  exact cleared r.index hidden

theorem Cleared.remove (cleared : Cleared z a) (i : NodeIndex) (rest : List Ref) :
    Cleared z (removeNode p { a with gc := rest } i) := by
  intro j hidden
  rw [slots_removeNode]
  split
  · rfl
  · exact cleared j hidden

/-- Once the nodes of `z` are gone, the sweep loops take the other marks in the same order. -/
theorem Level.sweepRest (matched : Program.Matched silent p q) {n n' : Nat} {a' b' : Executor W}
    (level : Level silent z [] a b) (cleared : Cleared z a) (h : sweepLoop p n a = .ok a')
    (h' : sweepLoop q n' b = .ok b') :
    Level silent z [] a' b' ∧ Cleared z a' := by
  induction n generalizing a b n' with
  | zero => cases h
  | succ n ih =>
    have cleared' : Cleared z b := fun i hidden => (level.keyAt i).trans (cleared i hidden)
    cases front : a.gc with
    | cons r rest =>
      cases hidden : z r.index with
      | true =>
        rw [sweepLoop_skip cleared front hidden] at h
        exact ih (level.skip front hidden) cleared h h'
      | false =>
        induction n' generalizing b with
        | zero => cases h'
        | succ n' ih' =>
          cases front' : b.gc with
          | nil =>
            -- the mark of `r` is in the other queue as well
            obtain ⟨s, t, left, right, same⟩ := level.marks
            rw [List.nil_append] at left right
            rw [← left, ← right, front, front'] at same
            simp [outside, hidden] at same
          | cons r' rest' =>
            cases hidden' : z r'.index with
            | true =>
              rw [sweepLoop_skip cleared' front' hidden'] at h'
              have skipped := (level.symm_level.skip front' hidden').symm_level
              exact ih' skipped h' fun i hidden => (skipped.keyAt i).trans (cleared i hidden)
            | false =>
              obtain ⟨s, t, left, right, same⟩ := level.marks
              rw [List.nil_append] at left right
              rw [← left, ← right, front, front'] at same
              simp only [outside, List.filter_cons, hidden, hidden', Bool.not_false, if_true] at same
              obtain ⟨rfl, rests⟩ := List.cons.inj same
              have taken : Level silent z [] { a with gc := rest } { b with gc := rest' } :=
                ⟨⟨level.memory, level.epoch, level.core, level.weight, level.edges, level.length,
                  level.queues, rest, rest',
                  rfl, rfl, rests⟩, level.cursor⟩
              rw [sweepLoop, front] at h
              rw [sweepLoop, front'] at h'
              exact ih (taken.remove matched r'.index) (cleared.remove r'.index rest) h h'
    | nil =>
      rw [sweepLoop, front] at h
      cases h
      induction n' generalizing b with
      | zero => cases h'
      | succ n' ih' =>
        cases front' : b.gc with
        | nil =>
          rw [sweepLoop, front'] at h'
          cases h'
          exact ⟨level, cleared⟩
        | cons r' rest' =>
          have hidden' : z r'.index = true := by
            obtain ⟨s, t, left, right, same⟩ := level.marks
            rw [List.nil_append] at left right
            rw [← left, ← right, front, front'] at same
            by_contra plain
            simp [outside, plain] at same
          rw [sweepLoop_skip cleared' front' hidden'] at h'
          have skipped := (level.symm_level.skip front' hidden').symm_level
          exact ih' h' (fun i hidden => (skipped.keyAt i).trans (cleared i hidden)) skipped

/-- The sweep loops take the common front first. If it marks all that is left of `z`, they
leave the same nodes. -/
theorem Level.sweep (matched : Program.Matched silent p q) {n n' : Nat} {a' b' : Executor W}
    (level : Level silent z m a b)
    (marked : ∀ i k, z i = true → a.keyAt i = some k → i ∈ m.map (·.index)) (h : sweepLoop p n a = .ok a')
    (h' : sweepLoop q n' b = .ok b') : Level silent z [] a' b' ∧ Cleared z a' := by
  induction m generalizing a b n n' with
  | nil =>
    refine level.sweepRest matched (fun i hidden => ?_) h h'
    cases here : a.keyAt i with
    | none => rfl
    | some k => cases marked i k hidden here
  | cons r m ih =>
    obtain ⟨s, t, left, right, taken⟩ := level.take
    cases n with
    | zero => cases h
    | succ n =>
      cases n' with
      | zero => cases h'
      | succ n' =>
        rw [sweepLoop, left] at h
        rw [sweepLoop, right] at h'
        refine ih (taken.remove matched r.index) (fun i k hidden here => ?_) h h'
        rw [slots_removeNode] at here
        split at here
        · cases here
        · rename_i other
          exact (List.mem_cons.mp (marked i k hidden here)).resolve_left other

/-! ## Deferred subgraphs -/

/-- Edges are added alike to graphs that hold the same. -/
theorem addEdges_both {g g' : Graph} (weight : ∀ i, g'.nodeWeight i = g.nodeWeight i)
    (edges : g'.edgeList = g.edgeList) (child : NodeIndex) (entries : List ParentEntry) :
    Option.Rel (fun s t => (∀ i, t.nodeWeight i = s.nodeWeight i) ∧ t.edgeList = s.edgeList)
      (addEdges child g entries)
      (addEdges child g' entries) := by
  induction entries generalizing g g' with
  | nil => exact .some ⟨weight, edges⟩
  | cons entry rest ih =>
    obtain ⟨⟨parent, depth⟩, r⟩ := entry
    rw [addEdges, addEdges, Graph.addEdge, Graph.addEdge, weight, weight]
    split
    · exact ih weight (congrArg (_ :: ·) edges)
    · exact .none

/-- No node is left out. -/
abbrev nowhere : NodeIndex → Bool := fun _ => false

/-- Nothing of `z` is left and nothing is queued. -/
theorem Level.settle (level : Level silent z [] a b) (cleared : Cleared z a) (rests : a.scheduler.AtRest)
    (rests' : b.scheduler.AtRest) (empty : a.gc = []) (empty' : b.gc = []) : Level silent nowhere [] a b := by
  refine ⟨⟨level.memory, level.epoch, level.core, fun i _ => ?_, level.edges, level.length, fun d => ?_, ?_⟩,
    level.cursor⟩
  · cases plain : z i with
    | false => exact level.weight i plain
    | true =>
      have gone : a.graph.nodeWeight i = none := Option.map_eq_none_iff.mp (cleared i plain)
      have gone' : b.graph.nodeWeight i = none :=
        Option.map_eq_none_iff.mp ((level.keyAt i).trans (cleared i plain))
      rw [gone, gone']
  · rw [rests.drained d, rests'.drained d]
  · exact ⟨[], [], empty, empty', rfl⟩

theorem Level.parents (level : Level silent z m a b) (args : BuildArgs) :
    b.parents args = a.parents args := by
  have index : ∀ k, (b.inner k).index = (a.inner k).index := level.memory.index
  have depth : ∀ k, (b.inner k).depth = (a.inner k).depth := level.memory.depth
  simp only [Executor.parents, index, depth]

theorem Level.insertNode (level : Level silent nowhere m a b) {args : BuildArgs} {depth : Nat}
    {graph graph' : Graph} (weight : ∀ i, graph'.nodeWeight i = graph.nodeWeight i)
    (edges : graph'.edgeList = graph.edgeList) :
    Level silent nowhere m (a.insertNode args depth graph) (b.insertNode args depth graph') := by
  have nodes : b.inners.length = a.inners.length := level.memory.nodes
  have handles : b.handles = a.handles := level.memory.handles
  refine ⟨⟨?_, level.epoch, fun i => ?_, fun i _ => weight i, edges, ?_, fun d => ?_, level.marks⟩, ?_⟩
  · have added := (level.memory.withNode ⟨args.index, depth, 0⟩).withHandles
      ((if args.spawned then .graph a.inners.length else .user, a.inners.length) :: a.handles)
    unfold Executor.insertNode
    simp only [nodes, handles]
    exact added
  · exact congrArg _ (weight i)
  · show (b.scheduler.enableDepth depth).multiQueue.length = (a.scheduler.enableDepth depth).multiQueue.length
    rw [Scheduler.enableDepth_length, Scheduler.enableDepth_length, level.length]
  · show ((b.scheduler.enableDepth depth).queue d).filter _ =
      ((a.scheduler.enableDepth depth).queue d).filter _
    rw [Scheduler.enableDepth_queue, Scheduler.enableDepth_queue]
    exact level.queues d
  · show (b.scheduler.enableDepth depth).currDepth = (a.scheduler.enableDepth depth).currDepth
    rw [Scheduler.enableDepth_currDepth, Scheduler.enableDepth_currDepth]
    exact level.cursor

/-- Both build the same node. -/
theorem Level.build (matched : Program.Matched silent p q) (level : Level silent nowhere m a b)
    (args : BuildArgs) :
    Both (Level silent nowhere m) (a.build args) (b.build args) := by
  have nodes : b.inners.length = a.inners.length := level.memory.nodes
  have alive : ∀ c, b.Alive c ↔ a.Alive c := (respects_level matched).alive level
  have weight : b.graph.nodeWeight args.index = a.graph.nodeWeight args.index := level.weight _ rfl
  unfold Executor.build
  simp only [weight, nodes, level.parents, alive]
  split
  · exact .error _
  · cases childDepth (a.parents args) with
    | none => exact .error _
    | some depth =>
      have weights (ctx : NodeContext) : ∀ i, (b.graph.addNode args.index ctx).nodeWeight i =
          (a.graph.addNode args.index ctx).nodeWeight i := by
        intro i
        rw [Graph.nodeWeight_addNode, Graph.nodeWeight_addNode, level.weight i rfl]
      have joined :=
        addEdges_both (weights (.new ⟨a.inners.length, args.spawned, args.allowPanic⟩ depth)) level.edges args.index
        (args.order.order (a.parents args))
      dsimp only
      generalize addEdges args.index (a.graph.addNode args.index _) _ = left at joined ⊢
      generalize addEdges args.index (b.graph.addNode args.index _) _ = right at joined ⊢
      cases joined with
      | none => exact .error _
      | some both =>
        have inserted : Level silent nowhere m (a.insertNode args depth _) (b.insertNode args depth _) :=
          level.insertNode both.1 both.2
        refine .ok (Pairs.foldl (r := Level silent nowhere m) (fun _ _ c level => ?_) _
          (Pairs.foldl (r := Level silent nowhere m) (fun _ _ c level => ?_) _ inserted))
        · exact (respects_level matched).addHandle level _ c
        · exact (respects_level matched).addHandle level _ c

/-! ## The polls -/

/-- The nodes that were woken by events in this cycle, newest first. -/
def woken (ex : Executor W) : List NodeIndex := (ex.trace.takeWhile (· ≠ .began)).filterMap Event.woken

/-- A poll that wakes the nodes of the list, in this order. -/
inductive Wakes : List NodeIndex → Executor W → Executor W → Prop
  | refl {ex} : Wakes [] ex ex
  | driver {d l ex ex'} : d.timerDriver.isSome = ex.eventDriver.timerDriver.isSome →
      d.ioDriver.isSome = ex.eventDriver.ioDriver.isSome →
      Wakes l { ex with eventDriver := d } ex' → Wakes l ex ex'
  | fire {source r l ex mid ex'} : fire source ex r = .ok mid → Wakes l mid ex' → Wakes (r.index :: l) ex ex'

theorem Wakes.trans {l l' : List NodeIndex} {ex mid ex' : Executor W} (first : Wakes l ex mid)
    (second : Wakes l' mid ex') :
    Wakes (l ++ l') ex ex' := by
  induction first with
  | refl => exact second
  | driver timers io _ ih => exact .driver timers io (ih second)
  | fire fired _ ih => exact .fire fired (ih second)

theorem Wakes.woken {l : List NodeIndex} {ex ex' : Executor W} (wakes : Wakes l ex ex') :
    ex'.woken = l.reverse ++ ex.woken := by
  induction wakes with
  | refl => rfl
  | driver _ _ _ ih => exact ih
  | fire fired _ ih =>
    obtain ⟨o, mid, offered, -, rfl⟩ := fire_ok fired
    have logged : ∀ event, event ≠ .began → (mid.log event).woken = event.woken.toList ++ mid.woken := by
      intro event other
      unfold Executor.woken Executor.log
      rw [List.takeWhile_cons_of_pos (by simpa using other), List.filterMap_cons]
      cases event.woken <;> rfl
    have kept : mid.woken = Executor.woken _ :=
      congrArg (fun t => (t.takeWhile (· ≠ .began)).filterMap Event.woken) (trace_offer offered)
    rw [ih, logged _ (by simp), kept, List.reverse_cons, List.append_assoc]
    rfl

theorem drainNotifications_wakes {n : Nat} {ex ex' : Executor W}
    (h : drainNotifications n ex = .ok ex') : ∃ l, Wakes l ex ex' := by
  induction n generalizing ex with
  | zero => cases h; exact ⟨_, .refl⟩
  | succ n ih =>
    rw [drainNotifications] at h
    split at h
    · cases h; exact ⟨_, .refl⟩
    · obtain ⟨mid, fired, rest⟩ := Steps.bind_ok h
      obtain ⟨l, wakes⟩ := ih rest
      refine ⟨_, .driver ?_ ?_ (.fire fired wakes)⟩
      · rfl
      · rfl

theorem drainYields_wakes {refs : List Ref} {ex ex' : Executor W}
    (h : drainYields refs ex = .ok ex') : ∃ l, Wakes l ex ex' := by
  induction refs generalizing ex with
  | nil => cases h; exact ⟨_, .refl⟩
  | cons r rest ih =>
    obtain ⟨mid, fired, later⟩ := Steps.bind_ok h
    obtain ⟨l, wakes⟩ := ih later
    refine ⟨_, .driver ?_ ?_ (.fire fired wakes)⟩
    · rfl
    · rfl

theorem expireTimers_wakes {now n : Nat} {timer : TimerDriver} {ex ex' : Executor W}
    (configured : ex.eventDriver.timerDriver.isSome) (h : expireTimers now n timer ex = .ok ex') :
    ∃ l, Wakes l ex ex' := by
  induction n generalizing timer ex with
  | zero => cases h; exact ⟨_, .refl⟩
  | succ n ih =>
    obtain ⟨-, rfl⟩ | ⟨source, r, rest, mid, -, -, fired, later⟩ := expireTimers_succ h
    · exact ⟨_, .refl⟩
    · obtain ⟨l, wakes⟩ := ih (by rw [eventDriver_fire fired]; rfl) later
      refine ⟨_, .driver ?_ ?_ (.fire fired wakes)⟩
      · exact configured.symm
      · rfl

theorem pollIo_wakes {io : IoDriver} {events : List IoEvent} {ex ex' : Executor W}
    (h : pollIo io events ex = .ok ex') :
    ∃ l, Wakes l ex ex' := by
  induction events generalizing ex with
  | nil => cases h; exact ⟨_, .refl⟩
  | cons event rest ih =>
    rw [pollIo, List.foldlM_cons] at h
    obtain ⟨mid, first, later⟩ := Steps.bind_ok' h
    obtain ⟨l, wakes⟩ := ih later
    split at first
    · cases first; exact ⟨l, wakes⟩
    · split at first
      · cases first
      · exact ⟨_, .fire first wakes⟩

theorem resetWaker_wakes (ex : Executor W) : Wakes [] ex ex.resetWaker := by
  refine .driver ?_ ?_ .refl
  · rfl
  · rfl

theorem poll_wakes {input : CycleInput} {t : Option CycleTime} {ex ex' : Executor W}
    (h : poll input ex = .ok (t, ex')) :
    ∃ l, Wakes l ex ex' := by
  obtain ⟨mid, internal, asks⟩ := poll_ok h
  obtain ⟨drained, yielded, notes, yields, timers⟩ := pollInternal_ok internal
  obtain ⟨first, notes⟩ := drainNotifications_wakes notes
  obtain ⟨second, yields⟩ := drainYields_wakes yields
  obtain ⟨third, timers⟩ : ∃ l, Wakes l yielded mid := by
    unfold pollTimers at timers
    split at timers
    · cases timers
      exact ⟨_, .refl⟩
    · rename_i timer configured
      exact expireTimers_wakes (by rw [configured]; rfl) timers
  have inside := notes.trans (yields.trans timers)
  rcases askIo_ok asks with ⟨-, rfl, -⟩ | ⟨_, -, -, rfl⟩ | ⟨_, io, events, -, -, -, polled⟩
  · exact ⟨_, inside⟩
  · exact ⟨_, inside⟩
  · obtain ⟨last, asked⟩ := pollIo_wakes polled
    exact ⟨_, inside.trans ((resetWaker_wakes mid).trans asked)⟩

/-- An event of a node of `z` in one of the two. -/
theorem Level.fire_hidden (level : Level silent z m a b) {source : Source} {r : Ref}
    (hidden : z r.index = true) {a' : Executor W} (h : Executor.fire source a r = .ok a') :
    Level silent z m a' b := by
  obtain ⟨o, mid, offered, -, rfl⟩ := fire_ok h
  have twin : Twin silent z m a mid := twin_of_offer hidden level.front offered
  have both := twin.symm.trans level.toTwin
  have cursor := (offer_rest offered).1
  exact ⟨⟨both.memory, both.epoch, both.core, both.weight, both.edges, both.length, both.queues, both.marks⟩,
    level.cursor.trans cursor.symm⟩

/-- Polls that wake the same nodes outside `z` in the same order. -/
theorem Level.wakes {l l' : List NodeIndex} {a' b' : Executor W} (left : Wakes l a a') (right : Wakes l' b b')
    (level : Level silent z m a b) (same : l'.filter (!z ·) = l.filter (!z ·)) : Level silent z m a' b' := by
  induction left generalizing b l' with
  | refl =>
    induction right with
    | refl => exact level
    | driver timers io _ ih => exact ih (level.sources _ _ rfl rfl timers io) same
    | @fire source r l b mid b' fired _ ih =>
      cases hidden : z r.index with
      | true =>
        refine ih (level.symm_level.fire_hidden hidden fired).symm_level ?_
        rw [← same]
        simp [hidden]
      | false => simp [hidden] at same
  | driver timers io _ ih => exact ih right (level.sources _ _ timers io rfl rfl) same
  | @fire source r l a mid a' fired rest ih =>
    cases plain : z r.index with
    | true => exact ih right (level.fire_hidden plain fired) (by rw [same]; simp [plain])
    | false =>
      induction right with
      | refl => simp [plain] at same
      | driver timers io _ ih' => exact ih' ih (level.sources _ _ rfl rfl timers io) same
      | @fire source' r' l' b mid' b' fired' rest' ih' =>
        cases plain' : z r'.index with
        | true =>
          refine ih' ih (level.symm_level.fire_hidden plain' fired').symm_level ?_
          rw [← same]
          simp [plain']
        | false =>
          simp only [List.filter_cons, plain, plain', Bool.not_false, if_true] at same
          obtain ⟨here, later⟩ := List.cons.inj same
          obtain ⟨o, s, offered, -, rfl⟩ := fire_ok fired
          obtain ⟨o', t, offered', -, rfl⟩ := fire_ok fired'
          have offers := level.offer plain
          rw [here] at offered'
          rw [offered, offered'] at offers
          cases offers with
          | some both =>
            have level := both.2
            exact ih rest' ⟨⟨level.memory, level.epoch, level.core, level.weight, level.edges,
              level.length, level.queues,
              level.marks⟩, level.cursor⟩ later

/-! ## Two ways for a cycle to go -/

/-- The same state, apart from what the event sources hold. -/
structure SameButEvents (silent : Key → Bool) (a b : Executor W) : Prop where
  graph : b.graph = a.graph
  scheduler : b.scheduler = a.scheduler
  gc : b.gc = a.gc
  epoch : b.epoch = a.epoch
  memory : a.memory.Same silent b.memory

/-- Two cycles from the state `ex`. The same events are due in both, apart from those of
node `i`, and the cycle functions give the same results, but a node that triggers no other
node than `i` may broadcast in one and not in the other. -/
structure TwoWays (ex : Executor W) (i : NodeIndex) where
  silent : Key → Bool
  p : Program W
  q : Program W
  matched : Program.Matched silent p q
  whispers : ∀ j k, silent k = true → ex.keyAt j = some k → ∀ c ∈ ex.graph.triggeringEdges j, c = i
  a : Executor W
  b : Executor W
  start : SameButEvents silent ex a
  start' : SameButEvents silent ex b
  input : CycleInput
  input' : CycleInput
  now : CycleTime
  polled : Executor W
  polled' : Executor W
  polls : poll input a.beginCycle = .ok (some now, polled)
  polls' : poll input' b.beginCycle = .ok (some now, polled')
  woken : polled'.woken.filter (· ≠ i) = polled.woken.filter (· ≠ i)
  fuel : Nat
  fuel' : Nat
  last : Executor W
  last' : Executor W
  returned : cycle p fuel input a = .ok (.running, last)
  returned' : cycle q fuel' input' b = .ok (.running, last')

/-- Both cycles leave the same nodes in the graph. -/
def TwoWays.Same {ex : Executor W} {i : NodeIndex} (ways : TwoWays ex i) : Prop :=
  ∀ j, ways.last'.keyAt j = ways.last.keyAt j

/-- No node at or below `i` has a strong handle left. One that was made by `spawn` has. -/
def DeadBelow (ex : Executor W) (i : NodeIndex) : Prop :=
  ∀ c fn depth, c = i ∨ ex.graph.Ancestor i c → ex.graph.core c = some (fn, depth) →
    fn.spawned = false ∧ ¬ ex.Alive fn.state

/-- A cycle that runs on, in its parts. -/
theorem cycle_parts {fuel : Nat} {input : CycleInput} {now : CycleTime} {ex polled ex' : Executor W}
    (polls : poll input ex.beginCycle = .ok (some now, polled))
    (h : cycle prog fuel input ex = .ok (.running, ex')) :
    ∃ mid swept, Loop prog now polled .running mid ∧ sweepLoop prog fuel mid = .ok swept ∧
      runSpawns prog swept.deferredSpawns swept = .ok ex' := by
  rcases cycle_ok prog h with ⟨no, -⟩ | ⟨-, mid, swept, nodes, sweeps, spawns⟩
  · exact absurd rfl no
  · rcases runNodes_ok prog nodes with ⟨no, -⟩ | ⟨now', polled', polls', loop⟩
    · cases no
    · rw [polls] at polls'
      cases polls'
      exact ⟨mid, swept, loop, sweeps, spawns⟩

/-- What the poll and the loop need of the state before. -/
theorem ready_of_poll {i : NodeIndex} {ex polled : Executor W} (dead : ex.DeadBelow i)
    (whispers : ∀ j k, silent k = true → ex.keyAt j = some k → ∀ c ∈ ex.graph.triggeringEdges j, c = i)
    (wf : ex.scheduler.WF) (hidden : ∀ c, z c = true ↔ c = i ∨ ex.graph.Ancestor i c)
    (start : SameButEvents silent ex a) {input : CycleInput} {t : Option CycleTime}
    (polls : poll input a.beginCycle = .ok (t, polled)) :
    Ready silent z polled := by
  have same : ex.graph.Same polled.graph := by
    have steady := (Steady.of_poll polls).graph
    rw [show a.beginCycle.graph = ex.graph from start.graph] at steady
    exact steady
  have handles : polled.handles = ex.handles := by
    refine (poll_inv (p := fun s => s.handles = a.handles) (fun _ _ same => same)
        (fun source r s s' fired same => ?_) polls
      rfl).trans start.memory.handles
    obtain ⟨o, mid, offered, -, rfl⟩ := fire_ok fired
    exact (handles_offer offered).trans same
  refine ⟨⟨fun c fn depth below there => ?_, fun p c below edge => ?_⟩, fun j k quiet here c child => ?_, ?_⟩
  · rw [same.core] at there
    rw [Alive, handles]
    exact dead c fn depth ((hidden c).mp below) there
  · rw [same.adj] at edge
    refine (hidden c).mpr (.inr ?_)
    rcases (hidden p).mp below with rfl | above
    · exact .single edge
    · exact above.tail edge
  · rw [keyAt_of_same same] at here
    rw [Graph.triggeringEdges, same.edges] at child
    rw [whispers j k quiet here c child]
    exact (hidden i).mpr (.inl rfl)
  · refine (poll_path polls).schedulerWF ?_
    show a.scheduler.WF
    rw [start.scheduler]
    exact wf

/-- If no node at or below a node has a strong handle left, it makes no difference to what
the cycle leaves whether the node itself has an event due. -/
theorem timing_does_not_matter {ex : Executor W} (reached : Reachable (fun _ => True) ex) {i : NodeIndex}
    (dead : ex.DeadBelow i) (ways : TwoWays ex i) : ways.Same := by
  classical
  let z : NodeIndex → Bool := fun c => decide (c = i ∨ ex.graph.Ancestor i c)
  have hidden : ∀ c, z c = true ↔ c = i ∨ ex.graph.Ancestor i c := fun c => decide_eq_true_iff
  have ready := ready_of_poll dead ways.whispers reached.schedulerWF hidden ways.start ways.polls
  have ready' := ready_of_poll dead ways.whispers reached.schedulerWF hidden ways.start' ways.polls'
  -- the polls
  have started : Level ways.silent z ex.gc ways.a.beginCycle ways.b.beginCycle := by
    have memory : ways.a.memory.Same ways.silent ways.b.memory :=
      ways.start.memory.symm.trans ways.start'.memory
    have graph : ways.b.graph = ways.a.graph := ways.start'.graph.trans ways.start.graph.symm
    have scheduler : ways.b.scheduler = ways.a.scheduler :=
      ways.start'.scheduler.trans ways.start.scheduler.symm
    have epoch : ways.b.epoch = ways.a.epoch := ways.start'.epoch.trans ways.start.epoch.symm
    refine ⟨⟨memory, congrArg (fun n => (n + 1) % 2 ^ 64) epoch, fun j => ?_, fun j _ => ?_,
      congrArg _ graph, ?_, fun d => ?_,
      [], [], ?_, ?_, rfl⟩, congrArg _ scheduler⟩
    · exact congrArg (fun g => Graph.core g j) graph
    · exact congrArg (fun g => Graph.nodeWeight g j) graph
    · exact congrArg (fun s => s.multiQueue.length) scheduler
    · exact congrArg (fun s => (s.queue d).filter (!z ·)) scheduler
    · exact ways.start.gc.trans (List.append_nil _).symm
    · exact ways.start'.gc.trans (List.append_nil _).symm
  obtain ⟨l, wakes⟩ := poll_wakes ways.polls
  obtain ⟨l', wakes'⟩ := poll_wakes ways.polls'
  have polled : Level ways.silent z ex.gc ways.polled ways.polled' := by
    refine started.wakes wakes wakes' ?_
    have same := ways.woken
    rw [wakes.woken, wakes'.woken] at same
    have cleared : ∀ s : Executor W, s.beginCycle.woken = [] := fun s => rfl
    rw [cleared, cleared, List.append_nil, List.append_nil, List.filter_reverse, List.filter_reverse] at same
    have apart : ∀ l : List NodeIndex, l.filter (!z ·) = (l.filter (· ≠ i)).filter (!z ·) := by
      intro l
      rw [List.filter_filter]
      refine List.filter_congr fun c _ => ?_
      cases below : z c with
      | true => simp
      | false =>
        have other : c ≠ i := by
          rintro rfl
          rw [(hidden c).mpr (.inl rfl)] at below
          cases below
        simp [other]
    rw [apart, apart l, List.reverse_injective same]
  -- the node loops and the sweeps
  obtain ⟨mid, swept, loop, sweeps, spawns⟩ := cycle_parts ways.polls ways.returned
  obtain ⟨mid', swept', loop', sweeps', spawns'⟩ := cycle_parts ways.polls' ways.returned'
  have looped := polled.toTwin.loop ways.matched loop loop' ready ready'
  have rests := loop.atRest ready.wf
  have rests' := loop'.atRest ready'.wf
  have marked : ∀ j k, z j = true → mid.keyAt j = some k → j ∈ ex.gc.map (·.index) := by
    intro j k below here
    have same : ex.graph.Same mid.graph := by
      have before := (Steady.of_poll ways.polls).graph
      rw [show ways.a.beginCycle.graph = ex.graph from ways.start.graph] at before
      exact before.trans (loop.same rfl)
    rw [keyAt_of_same same] at here
    refine (reached.deadMarked j k here).resolve_left ?_
    obtain ⟨ctx, there, rfl⟩ := Option.map_eq_some_iff.mp here
    exact (dead j _ _ ((hidden j).mp below) (Graph.core_of_nodeWeight there)).2
  obtain ⟨level, cleared⟩ := looped.sweep ways.matched marked sweeps sweeps'
  have done := sweepLoop_path ways.p rests sweeps
  have done' := sweepLoop_path ways.q rests' sweeps'
  have settled :=
    level.settle cleared (by rw [done.2.1]; exact rests) (by rw [done'.2.1]; exact rests') done.2.2 done'.2.2
  -- the deferred subgraphs
  have builds : ∀ {x y : BuildArgs} {s t : Executor W}, x = y → Level ways.silent nowhere [] s t →
      Both (Level ways.silent nowhere []) (s.build x) (t.build y) := by
    intro x y s t same level
    rw [← same]
    exact level.build ways.matched x
  have spawned :=
    (respects_level ways.matched).runSpawns builds (fun level t => ?_) swept.deferredSpawns settled
  · rw [spawns] at spawned
    rw [(respects_level ways.matched).deferredSpawns settled] at spawns'
    rw [spawns'] at spawned
    cases spawned with
    | ok level => exact level.keyAt
  · rw [ways.matched.spawnFn level.view]
    exact List.forall₂_same.mpr fun op _ => by cases op <;> rfl

/-! ## Both kinds of children -/

/-- Node 1 is a child of node 0. Node 0 may yield; then the handle of node 0 is dropped, and
perhaps that of node 1. -/
def orphanOps (yields dropsChild : Bool) : List (ExecOp Unit) :=
  [.build { index := 0 }, .build { index := 1, relationships := [(0, .trigger)] }] ++
    (if yields then [.driver (.yieldNow (.node 0))] else []) ++ [.handle (.drop 0 .user)] ++
    if dropsChild then [.handle (.drop 1 .user)] else []

/-- Nothing ever happens in it. -/
def dull : Program Unit where
  cycleFn _ _ _ := ([], .ret .unchanged)
  onDrop _ _ := []
  spawnFn _ _ := []

theorem dull_matched : Program.Matched (fun _ => false) dull dull where
  cycleFn _ _ _ := ⟨rfl, .inl rfl⟩
  onDrop _ _ := rfl
  spawnFn _ _ := rfl

def orphaned (yields dropsChild : Bool) : Executor Unit :=
  match bare.execOps dull (orphanOps yields dropsChild) with
  | .ok ex => ex
  | .error _ => bare

def afterPoll (ex : Executor Unit) : Executor Unit :=
  match poll instantly ex.beginCycle with
  | .ok (_, polled) => polled
  | .error _ => ex

def afterCycle (ex : Executor Unit) : Executor Unit :=
  match cycle dull 6 instantly ex with
  | .ok (_, last) => last
  | .error _ => ex

/-- Node 0 has a yield due or has not. -/
def orphanWays (dropsChild : Bool) : TwoWays (orphaned false dropsChild) 0 where
  silent _ := false
  p := dull
  q := dull
  matched := dull_matched
  whispers _ _ no := by cases no
  a := orphaned true dropsChild
  b := orphaned false dropsChild
  start := by
    cases dropsChild
    · exact ⟨rfl, rfl, rfl, rfl, ⟨rfl, rfl, rfl, rfl, rfl, rfl, rfl, fun _ => rfl, fun _ => rfl,
        fun _ _ => rfl⟩⟩
    · exact ⟨rfl, rfl, rfl, rfl, ⟨rfl, rfl, rfl, rfl, rfl, rfl, rfl, fun _ => rfl, fun _ => rfl,
        fun _ _ => rfl⟩⟩
  start' := ⟨rfl, rfl, rfl, rfl, .refl _⟩
  input := instantly
  input' := instantly
  now := ⟨0, 0⟩
  polled := afterPoll (orphaned true dropsChild)
  polled' := afterPoll (orphaned false dropsChild)
  polls := by cases dropsChild <;> rfl
  polls' := by cases dropsChild <;> rfl
  woken := by cases dropsChild <;> rfl
  fuel := 6
  fuel' := 6
  last := afterCycle (orphaned true dropsChild)
  last' := afterCycle (orphaned false dropsChild)
  returned := by cases dropsChild <;> rfl
  returned' := by cases dropsChild <;> rfl

theorem orphaned_reachable (yields dropsChild : Bool) :
    Reachable (· = .running) (orphaned yields dropsChild) := by
  cases yields
  · cases dropsChild
    · exact .ops (.initial ..) (rfl : bare.execOps dull (orphanOps false false) = .ok _)
    · exact .ops (.initial ..) (rfl : bare.execOps dull (orphanOps false true) = .ok _)
  · cases dropsChild
    · exact .ops (.initial ..) (rfl : bare.execOps dull (orphanOps true false) = .ok _)
    · exact .ops (.initial ..) (rfl : bare.execOps dull (orphanOps true true) = .ok _)

/-- The child has lost its handle too: it goes in any case. -/
theorem orphan_timing_does_not_matter :
    (orphaned false true).keyAt 0 = some 0 ∧ (orphaned false true).keyAt 1 = some 1 ∧
      (orphaned false true).DeadBelow 0 ∧
      (orphanWays true).Same ∧ (orphanWays true).last.graph.nodeCount = 0 := by
  have dead : (orphaned false true).DeadBelow 0 := by
    intro c fn depth _ there
    have nobody : (orphaned false true).handles = [] := rfl
    refine ⟨?_, by rw [Alive, nobody]; exact List.not_mem_nil⟩
    obtain ⟨ctx, here, rfl, -⟩ := Graph.nodeWeight_of_core there
    have bound := Graph.lt_length_of_nodeWeight here
    obtain rfl | rfl : c = 0 ∨ c = 1 := Nat.le_one_iff_eq_zero_or_eq_one.mp (Nat.le_of_lt_succ bound)
    · cases here
      rfl
    · cases here
      rfl
  exact ⟨rfl, rfl, dead, timing_does_not_matter
    ((orphaned_reachable false true).mono fun _ _ => trivial) dead (orphanWays true), rfl⟩

/-- The child is still held by the program. When a yield of its parent is due, the parent
runs once more and poisons it, and both are removed; otherwise the parent alone is. -/
theorem timing_matters :
    Reachable (· = .running) (orphanWays false).a ∧ Reachable (· = .running) (orphanWays false).b ∧
      (orphaned false false).Present 0 ∧ ¬ (orphaned false false).Alive 0 ∧ (orphaned false false).Alive 1 ∧
      ¬ (orphanWays false).last.Present 1 ∧ (orphanWays false).last'.Present 1 ∧ ¬ (orphanWays false).Same :=
  ⟨orphaned_reachable true false,
    orphaned_reachable false false, by decide, by decide, by decide, by decide, by decide,
    fun same => absurd (same 1) (by decide)⟩

end Executor
end Wavelet
