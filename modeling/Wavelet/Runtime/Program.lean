import Wavelet.Runtime.State

/-!
# Programs

What code outside the runtime can do: to handles, to the event sources, to the executor.
A program answers every call of a cycle function, of a destructor and of a deferred
subgraph with the operations that call performs. The answer may depend on the whole state,
the private data of the program included, so a call that reads what its own operations
return is covered.
-/

namespace Wavelet

/-- `clone` is `Node::clone` or `WeakNode::upgrade` into a holder, `drop` gives one handle
back, `markForSweep` and `notify` use a garbage collector or a notifier held by the
program. -/
inductive HandleOp (W : Type) where
  | update (f : W → W)
  | clone (k : Key) (o : Owner)
  | drop (k : Key) (o : Owner)
  | markForSweep (t : Target)
  | notify (t : Target)

/-- The registration methods; the slab's free token is a parameter. -/
inductive DriverOp where
  | yieldNow (t : Target)
  | registerTimer (t : Target) (when : Nat)
  | deregisterTimer (source : TimerSource)
  | registerIo (t : Target) (token : Nat)
  | deregisterIo (token : Nat)

/-- What a cycle function does through its `ExecutionContext` and its handles. A deferred
subgraph captures handles. -/
inductive Effect (W : Type) where
  | handle (op : HandleOp W)
  | driver (op : DriverOp)
  | scheduleNode (k : Key)
  | spawnSubgraph (captures : List Key)

inductive Outcome where
  | ret (control : Control)
  | panic
  deriving DecidableEq, Repr

/-- What a cycle function reads from its context. -/
structure ExecutionContext where
  current : NodeIndex
  cycleTime : CycleTime
  epoch : Nat
  deriving DecidableEq, Repr

/-- An entry of the builder's `parents` map. -/
abbrev ParentEntry := (NodeIndex × Nat) × Relationship

/-- The iteration order of a `HashMap`. -/
structure HashOrder where
  order : List ParentEntry → List ParentEntry
  perm : ∀ entries, (order entries).Perm entries

def HashOrder.insertion : HashOrder := ⟨id, fun _ => .refl _⟩

/-- A configured `NodeBuilder` at its call of `build` or `spawn`: the `add_relationship`
calls in order and the handles moved into the cycle function and into the data. `index` is
the free index that the graph gives the node. -/
structure BuildArgs where
  index : NodeIndex
  relationships : List (Key × Relationship) := []
  order : HashOrder := .insertion
  captures : List Key := []
  data : List Key := []
  spawned : Bool := false
  allowPanic : Bool := false

/-- What code with access to the executor does: `on_init`, a deferred subgraph, or the
program between two cycles. -/
inductive ExecOp (W : Type) where
  | handle (op : HandleOp W)
  | driver (op : DriverOp)
  | build (args : BuildArgs)

structure Program (W : Type) where
  cycleFn : Executor W → ExecutionContext → Key → List (Effect W) × Outcome
  onDrop : Executor W → Key → List (HandleOp W)
  spawnFn : Executor W → Nat → List (ExecOp W)

end Wavelet
