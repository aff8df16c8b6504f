import Mathlib.Data.List.GetD
import Wavelet.Cleanup.Sweep
import Wavelet.Runtime.Respects
import Wavelet.Runtime.Spelling

/-!
# Twins

Two states that differ in how far some dead nodes have got: whether they are queued, stamped
or poisoned, and how often they are marked behind a common front of the removal queue. Code
cannot tell them apart, a turn of such a node leaves twins, and both states run every other
node alike. So the sweep loops leave the same nodes.
-/

namespace Wavelet

/-- The same memory, apart from what the event sources hold and from when the silent nodes
last broadcast. -/
structure Memory.Same {W : Type} (silent : Key → Bool) (m m' : Memory W) : Prop where
  timers : m'.eventDriver.timerDriver.isSome = m.eventDriver.timerDriver.isSome
  io : m'.eventDriver.ioDriver.isSome = m.eventDriver.ioDriver.isSome
  deferredSpawns : m'.deferredSpawns = m.deferredSpawns
  handles : m'.handles = m.handles
  tickets : m'.tickets = m.tickets
  world : m'.world = m.world
  nodes : m'.inners.length = m.inners.length
  index : ∀ k, (m'.inners.getD k .uninitialized).index = (m.inners.getD k .uninitialized).index
  depth : ∀ k, (m'.inners.getD k .uninitialized).depth = (m.inners.getD k .uninitialized).depth
  mutEpoch : ∀ k, silent k = false →
    (m'.inners.getD k .uninitialized).mutEpoch = (m.inners.getD k .uninitialized).mutEpoch

theorem getD_set {α : Type*} (l : List α) (k j : Nat) (x d : α) :
    (l.set k x).getD j d = if j = k ∧ k < l.length then x else l.getD j d := by
  simp only [List.getD_eq_getElem?_getD, List.getElem?_set]
  by_cases same : k = j
  · subst same
    by_cases bound : k < l.length
    · simp [bound]
    · simp [bound]
  · simp [same, Ne.symm same]

namespace Memory.Same

variable {W : Type} {silent : Key → Bool} {l m n : Memory W}

theorem refl (m : Memory W) : m.Same silent m :=
  ⟨rfl, rfl, rfl, rfl, rfl, rfl, rfl, fun _ => rfl, fun _ => rfl, fun _ _ => rfl⟩

theorem symm (same : l.Same silent m) : m.Same silent l :=
  ⟨same.timers.symm, same.io.symm, same.deferredSpawns.symm, same.handles.symm, same.tickets.symm,
    same.world.symm,
    same.nodes.symm, fun k => (same.index k).symm, fun k => (same.depth k).symm,
      fun k loud => (same.mutEpoch k loud).symm⟩

theorem trans (first : l.Same silent m) (second : m.Same silent n) : l.Same silent n where
  timers := second.timers.trans first.timers
  io := second.io.trans first.io
  deferredSpawns := second.deferredSpawns.trans first.deferredSpawns
  handles := second.handles.trans first.handles
  tickets := second.tickets.trans first.tickets
  world := second.world.trans first.world
  nodes := second.nodes.trans first.nodes
  index k := (second.index k).trans (first.index k)
  depth k := (second.depth k).trans (first.depth k)
  mutEpoch k loud := (second.mutEpoch k loud).trans (first.mutEpoch k loud)

theorem withHandles (same : m.Same silent n) (handles : List (Owner × Key)) :
    Memory.Same silent { m with handles := handles } { n with handles := handles } :=
  { same with handles := rfl }

theorem withSpawns (same : m.Same silent n) (spawns : List Nat) (tickets : Nat) :
    Memory.Same silent { m with deferredSpawns := spawns, tickets := tickets }
      { n with deferredSpawns := spawns, tickets := tickets } :=
  { same with deferredSpawns := rfl, tickets := rfl }

theorem withWorld (same : m.Same silent n) (f : W → W) :
    Memory.Same silent { m with world := f m.world } { n with world := f n.world } :=
  { same with world := congrArg f same.world }

/-- A node gets the epoch of its broadcast. -/
theorem withMutEpoch (same : m.Same silent n) (k : Key) (epoch : Nat) :
    Memory.Same silent { m with inners := m.inners.set k { m.inners.getD k .uninitialized with mutEpoch := epoch } }
      { n with inners := n.inners.set k { n.inners.getD k .uninitialized with mutEpoch := epoch } } := by
  refine { same with nodes := ?_, index := fun j => ?_, depth := fun j => ?_, mutEpoch := fun j loud => ?_ }
  · exact (List.length_set ..).trans (same.nodes.trans (List.length_set ..).symm)
  all_goals
    simp only [getD_set, same.nodes]
    split
    · first | exact same.index _ | exact same.depth _ | rfl
    · first | exact same.index _ | exact same.depth _ | exact same.mutEpoch _ loud

/-- A new node. -/
theorem withNode (same : m.Same silent n) (node : NodeInner) :
    Memory.Same silent { m with inners := m.inners ++ [node] } { n with inners := n.inners ++ [node] } := by
  have nodes := same.nodes
  refine { same with nodes := ?_, index := fun k => ?_, depth := fun k => ?_, mutEpoch := fun k loud => ?_ }
  · rw [List.length_append, List.length_append, same.nodes]
  all_goals
    by_cases old : k < m.inners.length
    · have old' : k < n.inners.length := by rwa [nodes]
      rw [List.getD_append _ _ _ _ old, List.getD_append _ _ _ _ old']
      first | exact same.index k | exact same.depth k | exact same.mutEpoch k loud
    · have new : m.inners.length ≤ k := Nat.le_of_not_lt old
      have new' : n.inners.length ≤ k := by rwa [nodes]
      rw [List.getD_append_right _ _ _ _ new, List.getD_append_right _ _ _ _ new', nodes]

/-- A silent node gets it on one side. -/
theorem stamp (m : Memory W) {k : Key} (quiet : silent k = true) (epoch : Nat) :
    m.Same silent { m with inners := m.inners.set k { m.inners.getD k .uninitialized with mutEpoch := epoch } } := by
  refine ⟨rfl, rfl, rfl, rfl, rfl, rfl, List.length_set .., fun j => ?_, fun j => ?_, fun j loud => ?_⟩
  all_goals
    simp only [getD_set]
    split
    · rename_i here
      obtain ⟨rfl, -⟩ := here
      first | rfl | exact absurd (quiet.symm.trans loud) (by decide)
    · rfl

end Memory.Same

namespace Executor

open Pairs

variable {W : Type} {silent : Key → Bool} {z : NodeIndex → Bool} {m : List Ref} {a b c : Executor W}

/-! ## The relation -/

/-- The refs of the nodes outside `z`. -/
def outside (z : NodeIndex → Bool) (refs : List Ref) : List Ref := refs.filter fun r => !z r.index

/-- Twins up to the nodes of `z`, with the front `m` of both removal queues. -/
structure Twin (silent : Key → Bool) (z : NodeIndex → Bool) (m : List Ref) (a b : Executor W) : Prop where
  memory : a.memory.Same silent b.memory
  epoch : b.epoch = a.epoch
  core : ∀ i, b.graph.core i = a.graph.core i
  weight : ∀ i, z i = false → b.graph.nodeWeight i = a.graph.nodeWeight i
  edges : b.graph.edgeList = a.graph.edgeList
  length : b.scheduler.multiQueue.length = a.scheduler.multiQueue.length
  queues : ∀ d, (b.scheduler.queue d).filter (!z ·) = (a.scheduler.queue d).filter (!z ·)
  marks : ∃ s t, a.gc = m ++ s ∧ b.gc = m ++ t ∧ outside z t = outside z s

/-- Twins whose cursors are at the same depth. -/
structure Level (silent : Key → Bool) (z : NodeIndex → Bool) (m : List Ref) (a b : Executor W) :
    Prop extends Twin silent z m a b where
  cursor : b.scheduler.currDepth = a.scheduler.currDepth

theorem Twin.symm (twin : Twin silent z m a b) : Twin silent z m b a := by
  obtain ⟨s, t, left, right, same⟩ := twin.marks
  exact ⟨twin.memory.symm, twin.epoch.symm, fun i => (twin.core i).symm,
    fun i plain => (twin.weight i plain).symm,
    twin.edges.symm, twin.length.symm, fun d => (twin.queues d).symm, ⟨t, s, right, left, same.symm⟩⟩

theorem Level.symm_level (level : Level silent z m a b) : Level silent z m b a :=
  ⟨level.symm, level.cursor.symm⟩

theorem Twin.trans (first : Twin silent z m a b) (second : Twin silent z m b c) : Twin silent z m a c := by
  refine ⟨first.memory.trans second.memory, second.epoch.trans first.epoch,
    fun i => (second.core i).trans (first.core i),
    fun i plain => (second.weight i plain).trans (first.weight i plain), second.edges.trans first.edges,
    second.length.trans first.length, fun d => (second.queues d).trans (first.queues d), ?_⟩
  obtain ⟨s, t, left, middle, same⟩ := first.marks
  obtain ⟨t', u, middle', right, same'⟩ := second.marks
  rw [middle] at middle'
  rw [List.append_cancel_left middle'] at same
  exact ⟨s, u, left, right, same'.trans same⟩

theorem Twin.refl (front : m <+: a.gc) : Twin silent z m a a := by
  obtain ⟨s, rest⟩ := front
  exact ⟨.refl _, rfl, fun _ => rfl, fun _ _ => rfl, rfl, rfl, fun _ => rfl, s, s, rest.symm, rest.symm, rfl⟩

theorem Twin.front (twin : Twin silent z m a b) : m <+: a.gc := by
  obtain ⟨s, t, left, -, -⟩ := twin.marks
  exact ⟨s, left.symm⟩

theorem Twin.keyAt (twin : Twin silent z m a b) (i : NodeIndex) : b.keyAt i = a.keyAt i := by
  rw [keyAt_eq_core, keyAt_eq_core, twin.core]

/-! ## Code -/

/-- What code of any kind can see of the executor. -/
structure SameView (silent : Key → Bool) (a b : Executor W) : Prop where
  memory : a.memory.Same silent b.memory
  epoch : b.epoch = a.epoch
  keyAt : ∀ i, b.keyAt i = a.keyAt i
  cursor : b.scheduler.currDepth = a.scheduler.currDepth

end Executor

/-- Programs that do the same wherever their code sees the same, but for the broadcasts of
the silent nodes. -/
structure Program.Matched {W : Type} (silent : Key → Bool) (p q : Program W) : Prop where
  cycleFn : ∀ {a b}, Executor.SameView silent a b →
    ∀ ctx k, SameAnswer (silent k) (p.cycleFn a ctx k) (q.cycleFn b ctx k)
  onDrop : ∀ {a b}, Executor.SameView silent a b → ∀ k, q.onDrop b k = p.onDrop a k
  spawnFn : ∀ {a b}, Executor.SameView silent a b → ∀ t, q.spawnFn b t = p.spawnFn a t

namespace Executor

open Pairs

variable {W : Type} {p q prog : Program W} {silent : Key → Bool} {z : NodeIndex → Bool}
  {m : List Ref} {a b c : Executor W}

theorem Level.view (level : Level silent z m a b) : SameView silent a b :=
  ⟨level.memory, level.epoch, level.keyAt, level.cursor⟩

theorem outside_append (z : NodeIndex → Bool) (s t : List Ref) :
    outside z (s ++ t) = outside z s ++ outside z t :=
  List.filter_append ..

/-- Both push the same ref. -/
theorem Twin.push (twin : Twin silent z m a b) (r : Ref) :
    ∃ s t, a.gc ++ [r] = m ++ s ∧ b.gc ++ [r] = m ++ t ∧ outside z t = outside z s := by
  obtain ⟨s, t, left, right, same⟩ := twin.marks
  refine ⟨s ++ [r], t ++ [r], by rw [left, List.append_assoc], by rw [right, List.append_assoc], ?_⟩
  rw [outside_append, outside_append, same]

/-- Queueing a node in both. -/
theorem filter_enqueue {s t : Scheduler} (length : t.multiQueue.length = s.multiQueue.length)
    (same : ∀ d, (t.queue d).filter (!z ·) = (s.queue d).filter (!z ·)) {depth : Nat}
    (bound : depth < s.multiQueue.length) (i : NodeIndex) (d : Nat) :
    ((t.enqueue i depth).queue d).filter (!z ·) = ((s.enqueue i depth).queue d).filter (!z ·) := by
  rw [Scheduler.enqueue_queue bound, Scheduler.enqueue_queue (by omega)]
  split
  · rw [List.filter_append, List.filter_append, same]
  · exact same d

/-- Queueing a node of `z` in one. -/
theorem filter_enqueue_hidden {s : Scheduler} {i : NodeIndex} (hidden : z i = true) {depth : Nat}
    (bound : depth < s.multiQueue.length) (d : Nat) :
    ((s.enqueue i depth).queue d).filter (!z ·) = (s.queue d).filter (!z ·) := by
  rw [Scheduler.enqueue_queue bound]
  split
  · rename_i here
    subst here
    rw [List.filter_append]
    simp [hidden]
  · rfl

theorem Level.scheduleNode (level : Level silent z m a b) (k : Key) :
    Option.Rel (Level silent z m) (a.scheduleNode k) (b.scheduleNode k) := by
  have index : (b.inner k).index = (a.inner k).index := level.memory.index k
  have depth : (b.inner k).depth = (a.inner k).depth := level.memory.depth k
  have cursor := level.cursor
  have length := level.length
  cases outcome : a.scheduler.schedule (a.inner k).index (a.inner k).depth with
  | ok s =>
    obtain ⟨low, bound, rfl⟩ := Scheduler.schedule_eq_ok_iff.mp outcome
    have accepted : b.scheduler.schedule (b.inner k).index (b.inner k).depth =
        .ok (b.scheduler.enqueue (a.inner k).index (a.inner k).depth) := by
      rw [index, depth]
      exact Scheduler.schedule_eq_ok_iff.mpr ⟨by omega, by omega, rfl⟩
    rw [scheduleNode_accepted outcome, scheduleNode_accepted accepted]
    refine .some ⟨⟨level.memory, level.epoch, level.core, level.weight, level.edges, ?_, ?_, level.marks⟩,
      cursor⟩
    · show (Scheduler.enqueue _ _ _).multiQueue.length = (Scheduler.enqueue _ _ _).multiQueue.length
      rw [Scheduler.enqueue_length, Scheduler.enqueue_length, length]
    · exact filter_enqueue length level.queues bound _
  | error e =>
    cases e with
    | schedulerError =>
      have below := Scheduler.schedule_eq_refused_iff.mp outcome
      have refused : b.scheduler.schedule (b.inner k).index (b.inner k).depth = .error .schedulerError := by
        rw [index, depth]
        exact Scheduler.schedule_eq_refused_iff.mpr (by omega)
      rw [scheduleNode_refused outcome, scheduleNode_refused refused]
      exact .some ⟨⟨level.memory, level.epoch, level.core, level.weight, level.edges, length,
        level.queues, level.marks⟩, cursor⟩
    | indexOutOfBounds =>
      have deep := Scheduler.schedule_eq_outOfBounds_iff.mp outcome
      have past : b.scheduler.schedule (b.inner k).index (b.inner k).depth = .error .indexOutOfBounds := by
        rw [index, depth]
        exact Scheduler.schedule_eq_outOfBounds_iff.mpr (by omega)
      rw [scheduleNode_outOfBounds outcome, scheduleNode_outOfBounds past]
      exact .none

/-- A change of the memory. -/
theorem Level.withMemory (level : Level silent z m a b) {l n : Memory W} (same : l.Same silent n) :
    Level silent z m (a.withMemory l) (b.withMemory n) :=
  ⟨⟨same, level.epoch, level.core, level.weight, level.edges, level.length, level.queues, level.marks⟩,
    level.cursor⟩

/-- What registering and notifying do to the event sources. -/
theorem notify_sources (ex : Executor W) (t : Target) :
    ∃ d events, ex.notify t = { ex with eventDriver := d, trace := events } ∧
      d.timerDriver.isSome = ex.eventDriver.timerDriver.isSome ∧
      d.ioDriver.isSome = ex.eventDriver.ioDriver.isSome := by
  unfold Executor.notify pushNotification
  simp only
  split
  · exact ⟨_, _, rfl, rfl, rfl⟩
  · exact ⟨_, _, rfl, rfl, rfl⟩

theorem driverOp_sources (ex : Executor W) (op : DriverOp) :
    (∃ d events, ex.driverOp op = some { ex with eventDriver := d, trace := events } ∧
      d.timerDriver.isSome = ex.eventDriver.timerDriver.isSome ∧
      d.ioDriver.isSome = ex.eventDriver.ioDriver.isSome) ∨
    ex.driverOp op = none := by
  cases op with
  | yieldNow t => exact .inl ⟨_, _, rfl, rfl, rfl⟩
  | registerTimer t when =>
    unfold Executor.driverOp
    cases configured : ex.eventDriver.timerDriver with
    | none => exact .inr rfl
    | some timer => exact .inl ⟨_, _, rfl, rfl, rfl⟩
  | deregisterTimer source =>
    unfold Executor.driverOp
    cases configured : ex.eventDriver.timerDriver with
    | none => exact .inr rfl
    | some timer => exact .inl ⟨_, ex.trace, rfl, rfl, rfl⟩
  | registerIo t token =>
    unfold Executor.driverOp
    cases configured : ex.eventDriver.ioDriver with
    | none => exact .inr rfl
    | some io =>
      simp only [Option.map_some]
      split
      · exact .inl ⟨_, _, rfl, rfl, rfl⟩
      · exact .inl ⟨ex.eventDriver, ex.trace, rfl, rfl, by rw [configured]⟩
  | deregisterIo token =>
    unfold Executor.driverOp
    cases configured : ex.eventDriver.ioDriver with
    | none => exact .inr rfl
    | some io => exact .inl ⟨_, ex.trace, rfl, rfl, rfl⟩

theorem driverOp_eq_none {op : DriverOp}
    (timers : b.eventDriver.timerDriver.isSome = a.eventDriver.timerDriver.isSome)
    (io : b.eventDriver.ioDriver.isSome = a.eventDriver.ioDriver.isSome) (refused : a.driverOp op = none) :
    b.driverOp op = none := by
  cases op with
  | yieldNow t => cases refused
  | registerTimer t when | deregisterTimer source =>
    have missing := Option.map_eq_none_iff.mp refused
    rw [missing, Option.isSome_none, Option.isSome_eq_false_iff, Option.isNone_iff_eq_none] at timers
    exact Option.map_eq_none_iff.mpr timers
  | registerIo t token | deregisterIo token =>
    have missing := Option.map_eq_none_iff.mp refused
    rw [missing, Option.isSome_none, Option.isSome_eq_false_iff, Option.isNone_iff_eq_none] at io
    exact Option.map_eq_none_iff.mpr io

/-- Registrations and notifications on both sides. -/
theorem Level.sources (level : Level silent z m a b) {d d' : EventDriver} (events events' : List Event)
    (timers : d.timerDriver.isSome = a.eventDriver.timerDriver.isSome)
    (io : d.ioDriver.isSome = a.eventDriver.ioDriver.isSome)
    (timers' : d'.timerDriver.isSome = b.eventDriver.timerDriver.isSome)
    (io' : d'.ioDriver.isSome = b.eventDriver.ioDriver.isSome) :
    Level silent z m { a with eventDriver := d, trace := events } { b with eventDriver := d', trace := events' } := by
  have memory := level.memory
  refine ⟨⟨?_, level.epoch, level.core, level.weight, level.edges, level.length, level.queues, level.marks⟩,
    level.cursor⟩
  exact ⟨timers'.trans (memory.timers.trans timers.symm), io'.trans (memory.io.trans io.symm),
    memory.deferredSpawns,
    memory.handles, memory.tickets, memory.world, memory.nodes, memory.index, memory.depth, memory.mutEpoch⟩

theorem respects_level (matched : Program.Matched silent p q) : Respects silent p q (Level silent z m) where
  handles level := level.memory.handles
  index level := level.memory.index
  tickets level := level.memory.tickets
  deferredSpawns level := level.memory.deferredSpawns
  epoch level := level.epoch
  keyAt level := level.keyAt
  setHandles level l := level.withMemory (level.memory.withHandles l)
  setSpawns level l t := level.withMemory (level.memory.withSpawns l t)
  setWorld level f := level.withMemory (level.memory.withWorld f)
  setMutEpoch level k epoch := level.withMemory (level.memory.withMutEpoch k epoch)
  stampLeft quiet level epoch := level.withMemory ((Memory.Same.stamp _ quiet epoch).symm.trans level.memory)
  stampRight quiet level epoch := level.withMemory (level.memory.trans (.stamp _ quiet epoch))
  log level event :=
    ⟨⟨level.memory, level.epoch, level.core, level.weight, level.edges, level.length, level.queues,
      level.marks⟩, level.cursor⟩
  mark level r :=
    ⟨⟨level.memory, level.epoch, level.core, level.weight, level.edges, level.length, level.queues,
      level.push r⟩, level.cursor⟩
  notify {a b} level t := by
    obtain ⟨d, events, same, timers, io⟩ := notify_sources a t
    obtain ⟨d', events', same', timers', io'⟩ := notify_sources b t
    rw [same, same']
    exact level.sources events events' timers io timers' io'
  driverOp {a b} level op := by
    rcases driverOp_sources a op with ⟨d, events, same, timers, io⟩ | refused
    · rcases driverOp_sources b op with ⟨d', events', same', timers', io'⟩ | refused
      · rw [same, same']
        exact .some (level.sources events events' timers io timers' io')
      · rw [driverOp_eq_none level.symm.memory.timers level.symm.memory.io refused] at same
        cases same
    · rw [refused, driverOp_eq_none level.memory.timers level.memory.io refused]
      exact .none
  scheduleNode level k := level.scheduleNode k
  cycleFn level := matched.cycleFn level.view
  onDrop level := matched.onDrop level.view

/-! ## Offers and poison -/

/-- A change of the data of a node of `z` that leaves its place. -/
theorem Twin.setWeight {i : NodeIndex} (hidden : z i = true) {ctx : NodeContext}
    (there : a.graph.nodeWeight i = some ctx) (ctx' : NodeContext) (fn : ctx'.cycleFn = ctx.cycleFn)
    (depth : ctx'.depth = ctx.depth) (front : m <+: a.gc) :
    Twin silent z m a { a with graph := a.graph.setWeight i ctx' } := by
  have same := Graph.setWeight_same there ctx' fn depth
  have twin : Twin silent z m a a := .refl front
  refine ⟨.refl _, rfl, same.core, fun j plain => ?_, same.edges, rfl, twin.queues, twin.marks⟩
  show (a.graph.setWeight i ctx').nodeWeight j = _
  rw [Graph.nodeWeight_setWeight there, if_neg]
  rintro rfl
  rw [hidden] at plain
  cases plain

theorem twin_of_offer {i : NodeIndex} (hidden : z i = true) (front : m <+: a.gc) {o : Offer} {a' : Executor W}
    (h : a.offer i = some (o, a')) : Twin silent z m a a' := by
  rcases offer_cases h with ⟨-, rfl, -⟩ | ⟨_, -, -, -, rfl⟩ | ⟨ctx, there, -, -, -, rfl⟩ |
    ⟨ctx, there, -, -, bound, -, rfl⟩
  · exact .refl front
  · exact .refl front
  · exact .setWeight hidden there _ rfl rfl front
  · have stamped : Twin silent z m a _ :=
      .setWeight hidden there { ctx with schedEpoch := a.epoch } rfl rfl front
    refine ⟨.refl _, rfl, stamped.core, stamped.weight, rfl, ?_, ?_, stamped.marks⟩
    · exact Scheduler.enqueue_length ..
    · exact filter_enqueue_hidden hidden bound

theorem twin_of_spread {i : NodeIndex} (hidden : z i = true) (front : m <+: a.gc) {a' : Executor W}
    (h : a.spread i = .ok a') :
    Twin silent z m a a' := by
  obtain ⟨o, mid, offered, rfl⟩ := spread_ok h
  have twin : Twin silent z m a mid := twin_of_offer hidden front offered
  exact ⟨twin.memory, twin.epoch, twin.core, twin.weight, twin.edges, twin.length, twin.queues, twin.marks⟩

theorem twin_of_markPoisoned {i : NodeIndex} (hidden : z i = true) (front : m <+: a.gc) {a' : Executor W}
    (h : a.markPoisoned i = .ok a') : Twin silent z m a a' := by
  obtain ⟨ctx, there, rfl⟩ := markPoisoned_ok h
  have twin : Twin silent z m a _ := .setWeight hidden there { ctx with poisoned := true } rfl rfl front
  exact ⟨twin.memory, twin.epoch, twin.core, twin.weight, twin.edges, twin.length, twin.queues, twin.marks⟩

/-- The same change of the data of a node outside `z`. -/
theorem Twin.setBoth (twin : Twin silent z m a b) {i : NodeIndex} {ctx : NodeContext}
    (there : a.graph.nodeWeight i = some ctx) (there' : b.graph.nodeWeight i = some ctx)
    (ctx' : NodeContext) (fn : ctx'.cycleFn = ctx.cycleFn) (depth : ctx'.depth = ctx.depth) :
    Twin silent z m { a with graph := a.graph.setWeight i ctx' } { b with graph := b.graph.setWeight i ctx' } := by
  have same := Graph.setWeight_same there ctx' fn depth
  have same' := Graph.setWeight_same there' ctx' fn depth
  refine ⟨twin.memory, twin.epoch, fun j => ?_, fun j plain => ?_, twin.edges, twin.length,
    twin.queues, twin.marks⟩
  · exact (same'.core j).trans ((twin.core j).trans (same.core j).symm)
  · show (b.graph.setWeight i ctx').nodeWeight j = (a.graph.setWeight i ctx').nodeWeight j
    rw [Graph.nodeWeight_setWeight there, Graph.nodeWeight_setWeight there']
    split
    · rfl
    · exact twin.weight j plain

/-- A node outside `z` is offered alike. -/
theorem Level.offer (level : Level silent z m a b) {i : NodeIndex} (plain : z i = false) :
    Option.Rel (fun s t => s.1 = t.1 ∧ Level silent z m s.2 t.2) (a.offer i) (b.offer i) := by
  have weight := level.weight i plain
  have epoch := level.epoch
  have cursor := level.cursor
  have length := level.length
  unfold Executor.offer Graph.canSchedule
  rw [weight, epoch]
  cases there : a.graph.nodeWeight i with
  | none => exact .some ⟨rfl, level⟩
  | some ctx =>
    have there' := weight.trans there
    dsimp only
    by_cases stamped : ctx.schedEpoch = a.epoch
    · rw [if_pos stamped, if_pos stamped]
      exact .some ⟨rfl, level⟩
    · rw [if_neg stamped, if_neg stamped]
      have both := level.setBoth there there' { ctx with schedEpoch := a.epoch } rfl rfl
      dsimp only
      cases outcome : a.scheduler.schedule i ctx.depth with
      | ok s =>
        obtain ⟨low, bound, rfl⟩ := Scheduler.schedule_eq_ok_iff.mp outcome
        rw [Scheduler.schedule_eq_ok_iff.mpr ⟨by omega, by omega, rfl⟩]
        refine .some ⟨rfl, ⟨⟨level.memory, rfl, both.core, both.weight, level.edges, ?_, ?_, level.marks⟩, cursor⟩⟩
        · show (Scheduler.enqueue _ _ _).multiQueue.length = (Scheduler.enqueue _ _ _).multiQueue.length
          rw [Scheduler.enqueue_length, Scheduler.enqueue_length, length]
        · exact filter_enqueue length level.queues bound _
      | error e =>
        cases e with
        | schedulerError =>
          have refused := Scheduler.schedule_eq_refused_iff.mp outcome
          rw [Scheduler.schedule_eq_refused_iff.mpr (by omega)]
          exact .some
            ⟨rfl, ⟨⟨level.memory, rfl, both.core, both.weight, level.edges, length, level.queues,
            level.marks⟩, cursor⟩⟩
        | indexOutOfBounds =>
          have past := Scheduler.schedule_eq_outOfBounds_iff.mp outcome
          rw [Scheduler.schedule_eq_outOfBounds_iff.mpr (by omega)]
          exact .none

theorem cursor_spread {i : NodeIndex} {a' : Executor W} (h : a.spread i = .ok a') :
    a'.scheduler.currDepth = a.scheduler.currDepth := by
  obtain ⟨o, mid, offered, rfl⟩ := spread_ok h
  rcases offer_cases offered with ⟨-, rfl, -⟩ | ⟨_, -, -, -, rfl⟩ | ⟨_, -, -, -, -, rfl⟩ |
    ⟨_, -, -, -, -, -, rfl⟩ <;> rfl

theorem Level.spread (level : Level silent z m a b) {i : NodeIndex} {a' b' : Executor W}
    (h : a.spread i = .ok a') (h' : b.spread i = .ok b') : Level silent z m a' b' := by
  cases plain : z i with
  | true =>
    have twin := (twin_of_spread plain level.front h).symm.trans
      (level.toTwin.trans (twin_of_spread plain level.symm.front h'))
    exact ⟨twin, by rw [cursor_spread h, cursor_spread h', level.cursor]⟩
  | false =>
    have offers := level.offer plain
    obtain ⟨o, s, offered, rfl⟩ := spread_ok h
    obtain ⟨o', t, offered', rfl⟩ := spread_ok h'
    rw [offered, offered'] at offers
    cases offers with
    | some same =>
      have level := same.2
      exact ⟨⟨level.memory, level.epoch, level.core, level.weight, level.edges, level.length,
        level.queues, level.marks⟩, level.cursor⟩

theorem Level.markPoisoned (level : Level silent z m a b) {i : NodeIndex} {a' b' : Executor W}
    (h : a.markPoisoned i = .ok a') (h' : b.markPoisoned i = .ok b') : Level silent z m a' b' := by
  have cursor : a'.scheduler.currDepth = a.scheduler.currDepth ∧
      b'.scheduler.currDepth = b.scheduler.currDepth := by
    obtain ⟨ctx, -, rfl⟩ := markPoisoned_ok h
    obtain ⟨ctx', -, rfl⟩ := markPoisoned_ok h'
    exact ⟨rfl, rfl⟩
  refine ⟨?_, by rw [cursor.1, cursor.2, level.cursor]⟩
  cases plain : z i with
  | true =>
    exact (twin_of_markPoisoned plain level.front h).symm.trans
      (level.toTwin.trans (twin_of_markPoisoned plain level.symm.front h'))
  | false =>
    obtain ⟨ctx, there, rfl⟩ := markPoisoned_ok h
    obtain ⟨ctx', there', rfl⟩ := markPoisoned_ok h'
    have same := level.weight i plain
    rw [there, there'] at same
    cases same
    have twin := level.toTwin.setBoth there there' { ctx with poisoned := true } rfl rfl
    exact ⟨twin.memory, twin.epoch, twin.core, twin.weight, twin.edges, twin.length, twin.queues, twin.marks⟩

/-! ## What follows a run -/

/-- Two folds over the same list that both return. -/
theorem foldlM_both {r : Executor W → Executor W → Prop}
    {f : Executor W → NodeIndex → Except Failure (Executor W)}
    (turn : ∀ {a b a' b'} i, r a b → f a i = .ok a' → f b i = .ok b' → r a' b') {l : List NodeIndex}
    {a' b' : Executor W} (related : r a b) (h : l.foldlM f a = .ok a')
    (h' : l.foldlM f b = .ok b') : r a' b' := by
  induction l generalizing a b with
  | nil =>
    cases h
    cases h'
    exact related
  | cons i l ih =>
    rw [List.foldlM_cons] at h h'
    obtain ⟨mid, first, rest⟩ := Steps.bind_ok' h
    obtain ⟨mid', first', rest'⟩ := Steps.bind_ok' h'
    exact ih (turn i related first first') rest rest'

theorem Level.handleControl (level : Level silent z m a b) {run : Run} {a' b' : Executor W}
    (h : Executor.handleControl run a = .ok a') (h' : Executor.handleControl run b = .ok b') :
    Level silent z m a' b' := by
  have edges := level.edges
  unfold Executor.handleControl at h h'
  cases control : run.verdict.control with
  | broadcast =>
    rw [control] at h h'
    simp only [Graph.triggeringEdges, edges] at h h'
    exact foldlM_both (r := Level silent z m) (f := Executor.spread)
      (fun i level first first' => level.spread first first') level h h'
  | sweep =>
    rw [control] at h h'
    have marked : Level silent z m (a.markForSweep .swept ⟨run.index, some run.node⟩)
        (b.markForSweep .swept ⟨run.index, some run.node⟩) :=
      ⟨⟨level.memory, level.epoch, level.core, level.weight, edges, level.length, level.queues, level.push _⟩,
        level.cursor⟩
    have kept : (b.markForSweep .swept ⟨run.index, some run.node⟩).graph.edgeList = a.graph.edgeList := edges
    have kept' : (a.markForSweep .swept ⟨run.index, some run.node⟩).graph.edgeList = a.graph.edgeList := rfl
    simp only [Graph.edges, kept, kept'] at h h'
    refine foldlM_both (r := Level silent z m) (fun i level first first' => ?_) marked h h'
    obtain ⟨mid, poisoned, spreads⟩ := Steps.bind_ok first
    obtain ⟨mid', poisoned', spreads'⟩ := Steps.bind_ok first'
    exact (level.markPoisoned poisoned poisoned').spread spreads spreads'
  | unchanged =>
    rw [control] at h h'
    cases h
    cases h'
    exact level
  | terminate =>
    rw [control] at h h'
    cases h
    cases h'
    exact level

/-! ## Turns -/

/-- The nodes of `z` are dead, and so are their children. -/
structure Extinct (z : NodeIndex → Bool) (ex : Executor W) : Prop where
  dead : ∀ i fn d, z i = true → ex.graph.core i = some (fn, d) → fn.spawned = false ∧ ¬ ex.Alive fn.state
  closed : ∀ p c, z p = true → ex.graph.Adj p c → z c = true

/-- A turn of a node of `z`. -/
theorem twin_of_turn {now : CycleTime} {i : NodeIndex} {s : Scheduler} {a' : Executor W}
    (extinct : Extinct z a) (wf : a.scheduler.WF) (front : m <+: a.gc)
    (popped : a.scheduler.pop = (some i, s)) (hidden : z i = true)
    (h : nodeStep prog now a = .ok (.again a')) : Twin silent z m a a' := by
  obtain ⟨j, s', run, mid, popped', ran, -, handled⟩ := nodeStep_again prog h
  rw [popped] at popped'
  cases popped'
  obtain ⟨ctx, there, index, node, cases⟩ := graphCycle_cases prog ran
  obtain ⟨built, dead⟩ := extinct.dead i _ _ hidden (Graph.core_of_nodeWeight there)
  have verdict : run.Swept ∧ mid = { a with scheduler := s } := by
    rcases cases with poisoned | spawned | alive | gone
    · exact ⟨by rw [Run.Swept, poisoned.2.1]; rfl, poisoned.2.2⟩
    · rw [built] at spawned
      cases spawned.2.1
    · rw [node] at alive
      exact absurd alive.2.2.1 dead
    · exact ⟨by rw [Run.Swept, gone.2.2.2.1]; rfl, gone.2.2.2.2⟩
  obtain ⟨swept, rfl⟩ := verdict
  unfold Executor.handleControl at handled
  rw [show run.verdict.control = .sweep from swept] at handled
  -- the entry, the run and the mark
  have pops := Scheduler.pop_some wf popped
  have taken : Twin silent z m a ((recordRun run { a with scheduler := s }).markForSweep .swept
      ⟨run.index, some run.node⟩) := by
    have twin : Twin silent z m a a := .refl front
    refine ⟨.refl _, rfl, fun _ => rfl, fun _ _ => rfl, rfl, pops.length, fun d => ?_, ?_⟩
    · show (s.queue d).filter _ = _
      by_cases here : d = s.currDepth
      · subst here
        rw [pops.first, List.filter_cons]
        simp [hidden]
      · rw [pops.rest d here]
    · obtain ⟨t, rest⟩ := front
      refine ⟨t, t ++ [⟨run.index, some run.node⟩], rest.symm, ?_, ?_⟩
      · show a.gc ++ _ = _
        rw [← rest, List.append_assoc]
      · rw [outside_append]
        have mine : outside z [⟨run.index, some run.node⟩] = [] := by simp [outside, index, hidden]
        rw [mine, List.append_nil]
  simp only at handled
  have spreads : ∀ (l : List NodeIndex) {b c : Executor W}, (∀ child ∈ l, z child = true) →
      Twin silent z m a b →
      l.foldlM Executor.poisonAndSpread b = .ok c → Twin silent z m a c := by
    intro l b c hiddens twin folded
    refine Steps.foldlM_inv (p := fun c => Twin silent z m a c)
      (fun s child s' member stepped twin => ?_) folded twin
    obtain ⟨mid, poisoned, spread⟩ := Steps.bind_ok stepped
    have first : Twin silent z m s mid := twin_of_markPoisoned (hiddens child member) twin.symm.front poisoned
    exact (twin.trans first).trans (twin_of_spread (hiddens child member) first.symm.front spread)
  refine spreads _ (fun child member => ?_) taken handled
  have adj : a.graph.Adj run.index child := Graph.mem_edges_iff.mp member
  rw [index] at adj
  exact extinct.closed i child hidden adj

/-- What is taken from the queues next, when it is a node outside `z` in both. -/
theorem Twin.pop (twin : Twin silent z m a b) (wf : a.scheduler.WF) (wf' : b.scheduler.WF)
    {i j : NodeIndex} {s t : Scheduler} (popped : a.scheduler.pop = (some i, s))
    (popped' : b.scheduler.pop = (some j, t)) (plain : z i = false) (plain' : z j = false) :
    i = j ∧ Level silent z m { a with scheduler := s } { b with scheduler := t } := by
  have pops := Scheduler.pop_some wf popped
  have pops' := Scheduler.pop_some wf' popped'
  have here : (!z i) = true := by rw [plain]; rfl
  have here' : (!z j) = true := by rw [plain']; rfl
  have same : t.currDepth = s.currDepth := by
    have level := twin.queues s.currDepth
    have level' := twin.queues t.currDepth
    rw [pops.first, List.filter_cons, if_pos here] at level
    rw [pops'.first, List.filter_cons, if_pos here'] at level'
    rcases Nat.lt_trichotomy t.currDepth s.currDepth with less | same | more
    · rw [pops.above _ less] at level'
      cases level'
    · exact same
    · rw [pops'.above _ more] at level
      cases level
  have heads := twin.queues s.currDepth
  have first' : b.scheduler.queue s.currDepth = j :: t.queue s.currDepth := by rw [← same]; exact pops'.first
  rw [pops.first, first', List.filter_cons, List.filter_cons, if_pos here, if_pos here'] at heads
  obtain ⟨rfl, tails⟩ := List.cons.inj heads
  refine ⟨rfl, ⟨twin.memory, twin.epoch, twin.core, twin.weight, twin.edges, ?_, fun d => ?_, twin.marks⟩,
    same⟩
  · show t.multiQueue.length = s.multiQueue.length
    rw [pops.length, pops'.length, twin.length]
  · show (t.queue d).filter _ = (s.queue d).filter _
    by_cases there : d = s.currDepth
    · subst there
      exact tails
    · rw [pops.rest d there, pops'.rest d (by rw [same]; exact there)]
      exact twin.queues d

/-- The silent nodes trigger nothing but nodes of `z`. -/
def Whispers (silent : Key → Bool) (z : NodeIndex → Bool) (ex : Executor W) : Prop :=
  ∀ i k, silent k = true → ex.keyAt i = some k → ∀ c ∈ ex.graph.triggeringEdges i, z c = true

/-- What a run to tell of and one without have for a follow-up. -/
theorem twin_of_quiet {run : Run} (quiet : run.verdict.Quiet) (front : m <+: a.gc)
    (children : ∀ c ∈ a.graph.triggeringEdges run.index, z c = true) {a' : Executor W}
    (h : Executor.handleControl run a = .ok a') : Twin silent z m a a' := by
  unfold Executor.handleControl at h
  rcases quiet with broadcast | unchanged
  · rw [broadcast] at h
    refine Steps.foldlM_inv (p := fun s => Twin silent z m a s)
      (fun s child s' member spreads twin => ?_) h (.refl front)
    exact twin.trans (twin_of_spread (children child member) twin.symm.front spreads)
  · rw [unchanged] at h
    cases h
    exact .refl front

/-- A turn of a node outside `z` in both. -/
theorem Twin.turn (matched : Program.Matched silent p q) {now : CycleTime} (twin : Twin silent z m a b)
    (whispers : Whispers silent z a) (wf : a.scheduler.WF) (wf' : b.scheduler.WF) {i j : NodeIndex}
    {s t : Scheduler} (popped : a.scheduler.pop = (some i, s))
    (popped' : b.scheduler.pop = (some j, t)) (plain : z i = false) (plain' : z j = false)
    {a' b' : Executor W} (h : nodeStep p now a = .ok (.again a')) (h' : nodeStep q now b = .ok (.again b')) :
    Twin silent z m a' b' := by
  obtain ⟨rfl, level⟩ := twin.pop wf wf' popped popped' plain plain'
  obtain ⟨i', s', run, mid, again, ran, -, handled⟩ := nodeStep_again p h
  obtain ⟨j', t', run', mid', again', ran', -, handled'⟩ := nodeStep_again q h'
  rw [popped] at again
  rw [popped'] at again'
  cases again
  cases again'
  have both := (respects_level matched).graphCycle now level (level.weight i plain)
  rw [ran, ran'] at both
  cases both with
  | ok same =>
    obtain ⟨⟨index, index', node, verdicts⟩, level⟩ := same
    replace index : run.index = i := index
    replace index' : run'.index = i := index'
    replace node : run.node = run'.node := node
    have recorded : Level silent z m (mid.recordRun run) (mid'.recordRun run') :=
      ⟨⟨level.memory, level.epoch, level.core, level.weight, level.edges, level.length,
        level.queues, level.marks⟩, level.cursor⟩
    rcases verdicts with same | ⟨quiet, left, right⟩
    · obtain rfl : run' = run := by
        calc
          run' = ⟨run'.index, run'.node, run'.verdict⟩ := rfl
          _ = ⟨run.index, run.node, run.verdict⟩ := by rw [index, index', node, same]
      exact (recorded.handleControl handled handled').toTwin
    · -- one may have told its children, all of which are in `z`
      have frame := frame_of_run (graphCycle_run p ran)
      obtain ⟨ctx, there, -, key, -⟩ := graphCycle_ok p ran
      have here : a.keyAt i = some run.node := by rw [key, Executor.keyAt]; exact congrArg _ there
      have children : ∀ c ∈ mid.graph.triggeringEdges i, z c = true := by
        rw [frame.graph]
        exact whispers i _ quiet here
      have children' : ∀ c ∈ mid'.graph.triggeringEdges i, z c = true := by
        rw [Graph.triggeringEdges, level.edges]
        exact children
      have told : Twin silent z _ (mid.recordRun run) a' :=
        twin_of_quiet left recorded.front (by rw [index]; exact children) handled
      have told' : Twin silent z _ (mid'.recordRun run') b' :=
        twin_of_quiet right recorded.symm.front (by rw [index']; exact children') handled'
      exact told.symm.trans (recorded.toTwin.trans told')

end Executor
end Wavelet
