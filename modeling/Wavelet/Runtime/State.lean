import Wavelet.Runtime.EventDriver

/-!
# The executor and the memory around it

`Executor` of `executor.rs` together with the memory its nodes live in: the shared data of
every node ever built, the strong handles to it and the private data of the program. The
strong count of a node is the number of its handles. Two fields are ghosts that no
operation reads: the runs of the current cycle and the trace of the whole run, both newest
first.
-/

namespace Wavelet

/-- `NodeInner` without its data, its name and its destructor. -/
structure NodeInner where
  index : NodeIndex
  depth : Nat
  mutEpoch : Nat
  deriving DecidableEq, Repr

/-- `Node::uninitialized`. -/
def NodeInner.uninitialized : NodeInner := ⟨0, 0, 0⟩

/-- Who holds a strong handle: the program at large, the closure while it runs
(`state.upgrade()`), the closure of a node made by `spawn` (its own node), or a value that
captured it: a cycle function, the data or destructor of a node, a deferred subgraph. -/
inductive Owner where
  | user
  | running
  | graph (node : Key)
  | closure (node : Key)
  | inner (node : Key)
  | spawn (ticket : Nat)
  deriving DecidableEq, Repr

/-- Why a run of a node ended as it did. -/
inductive Verdict where
  | poisoned
  | noHandle
  | panicked
  | returned (control : Control)
  deriving DecidableEq, Repr

/-- What the executor sees of a run. -/
def Verdict.control : Verdict → Control
  | .returned c => c
  | _ => .sweep

structure Run where
  index : NodeIndex
  node : Key
  verdict : Verdict
  deriving DecidableEq, Repr

/-- The node is marked by its own run. -/
def Run.Swept (r : Run) : Prop := r.verdict.control = .sweep

instance (r : Run) : Decidable r.Swept := inferInstanceAs (Decidable (_ = _))

/-- How `can_schedule` and `schedule` answer for an index: it is queued, the node has the
epoch's stamp already, it lies above the cursor, or the slot is vacant. -/
inductive Offer where
  | accepted
  | stamped
  | refused
  | vacant
  deriving DecidableEq, Repr

/-- The three places that push to the removal queue. -/
inductive Cause where
  | swept
  | lastHandle
  | requested
  deriving DecidableEq, Repr

/-- The event sources. -/
inductive Source where
  | notification
  | yield
  | timer
  | io
  deriving DecidableEq, Repr

/-- The ghost trace. `occupant` is the node in the slot at that time, `queued` whether the
index was waiting in the scheduler, `kept` whether a notification of that node is in the
queue after the call. -/
inductive Event where
  | began
  | built (index : NodeIndex) (node : Key) (parentsPresent unmarked quiet : Bool)
  | registered (r : Ref) (occupant : Option Key)
  | notified (r : Ref) (occupant : Option Key) (kept : Bool)
  | fired (source : Source) (r : Ref) (occupant : Option Key) (queued : Bool) (offer : Offer)
  | spread (child : NodeIndex) (queued : Bool) (offer : Offer)
  | manual (node : Key) (present : Bool)
  | ran (run : Run)
  | terminated
  | poisoned (node : Key)
  | dropped (node : Key)
  | marked (cause : Cause) (r : Ref) (occupant : Option Key)
  | removed (node : Key)
  deriving DecidableEq, Repr

structure Executor (W : Type) where
  graph : Graph
  scheduler : Scheduler
  eventDriver : EventDriver
  deferredSpawns : List Nat
  gc : List Ref
  epoch : Nat
  inners : List NodeInner
  handles : List (Owner × Key)
  tickets : Nat
  world : W
  runs : List Run
  trace : List Event

/-- Where the code stops without a result. The first group are the panics of the runtime,
`user` is a panic that `allow_panic` lets through, `unavailable` a choice that is not the
graph's or the slab's to make, `outOfFuel` a loop cut short. -/
inductive Failure where
  | expectNotification
  | unwrapIo
  | missingNode
  | missingToken
  | indexOutOfBounds
  | noDriver
  | depthOverflow
  | user
  | unavailable
  | outOfFuel
  deriving DecidableEq, Repr

/-- The drain of the notifications and the I/O driver panic when the scheduler refuses a
node, the other two sources ignore it. -/
def Source.onRefusal : Source → Option Failure
  | .notification => some .expectNotification
  | .io => some .unwrapIo
  | .yield | .timer => none

/-- What a handle or a plain `NodeIndex` names. -/
inductive Target where
  | node (k : Key)
  | raw (i : NodeIndex)
  deriving DecidableEq, Repr

namespace Executor

variable {W : Type}

def withConfig (cfg : EventDriverConfig) (mode : ExecutionMode) (world : W) : Executor W where
  graph := .new
  scheduler := .new
  eventDriver := .withConfig cfg mode
  deferredSpawns := []
  gc := []
  epoch := 0
  inners := []
  handles := []
  tickets := 0
  world := world
  runs := []
  trace := []

def inner (ex : Executor W) (k : Key) : NodeInner := ex.inners.getD k .uninitialized

/-- The node in slot `i`. -/
def keyAt (ex : Executor W) (i : NodeIndex) : Option Key := (ex.graph.nodeWeight i).map (·.cycleFn.state)

/-- The node is in the graph, at its own index. -/
def Present (ex : Executor W) (k : Key) : Prop := ex.keyAt (ex.inner k).index = some k

instance (ex : Executor W) (k : Key) : Decidable (ex.Present k) := inferInstanceAs (Decidable (_ = _))

/-- Some strong handle is left. -/
def Alive (ex : Executor W) (k : Key) : Prop := k ∈ ex.handles.map (·.2)

instance (ex : Executor W) (k : Key) : Decidable (ex.Alive k) := inferInstanceAs (Decidable (_ ∈ _))

/-- The handles held by `o`. -/
def heldBy (ex : Executor W) (o : Owner) : List Key := (ex.handles.filter fun h => h.1 = o).map (·.2)

def ref (ex : Executor W) : Target → Ref
  | .node k => ⟨(ex.inner k).index, some k⟩
  | .raw i => ⟨i, ex.keyAt i⟩

/-- The notification queue as the code has it. -/
def notices (ex : Executor W) : List NodeIndex := ex.eventDriver.notifications.items.map (·.index)

/-- The removal queue as the code has it. -/
def marks (ex : Executor W) : List NodeIndex := ex.gc.map (·.index)

def log (ex : Executor W) (event : Event) : Executor W := { ex with trace := event :: ex.trace }

/-- `GarbageCollector::mark_for_sweep`. -/
def markForSweep (ex : Executor W) (cause : Cause) (r : Ref) : Executor W :=
  log { ex with gc := ex.gc ++ [r] } (.marked cause r (ex.keyAt r.index))

/-- A new pending event or registration is logged. -/
def register (ex : Executor W) (r : Ref) (driver : EventDriver) : Executor W :=
  log { ex with eventDriver := driver } (.registered r (ex.keyAt r.index))

end Executor

end Wavelet
