import Wavelet.Runtime.Program

/-!
# Handles and registrations

Cloning and dropping handles, with `Drop for NodeInner`: the last handle marks the node,
runs its destructor and then drops what its data holds. The registration methods of the
drivers, `Notifier::notify` and `ExecutionContext::schedule_node` follow.
-/

namespace Wavelet
namespace Executor

variable {W : Type}

/-- A handle can be put where its holder still exists; the runtime alone makes the handles
of a running closure and of a spawned node. -/
def Holds (ex : Executor W) : Owner → Prop
  | .user => True
  | .closure k => ex.Present k
  | .inner k => ex.Alive k
  | .spawn t => t ∈ ex.deferredSpawns
  | _ => False

instance (ex : Executor W) (o : Owner) : Decidable (ex.Holds o) := by
  cases o <;> unfold Holds <;> infer_instance

def addHandle (ex : Executor W) (o : Owner) (k : Key) : Executor W :=
  { ex with handles := (o, k) :: ex.handles }

def cloneHandle (ex : Executor W) (o : Owner) (k : Key) : Executor W :=
  if ex.Alive k ∧ ex.Holds o then ex.addHandle o k else ex

/-- The strong count goes down by one. -/
def release (ex : Executor W) (o : Owner) (k : Key) : Executor W :=
  { ex with handles := ex.handles.erase (o, k) }

/-- The mark that `NodeInner::drop` makes. -/
def expire (ex : Executor W) (k : Key) : Executor W :=
  (ex.log (.dropped k)).markForSweep .lastHandle ⟨(ex.inner k).index, some k⟩

/-- A notification of the node in slot `i`, if there is one, is in the queue after the push. -/
def Keeps (ex : Executor W) (i : NodeIndex) : Prop :=
  ex.keyAt i = none ∨ ¬ ex.eventDriver.notifications.Full ∨ i ∈ ex.notices

instance (ex : Executor W) (i : NodeIndex) : Decidable (ex.Keeps i) := inferInstanceAs (Decidable (_ ∨ _))

def noted (ex : Executor W) (r : Ref) (kept : Bool) : Executor W :=
  ex.log (.notified r (ex.keyAt r.index) kept)

/-- The push of a `notify`. A full queue refuses it, which is ignored. -/
def pushNotification (ex : Executor W) (t : Target) : Executor W :=
  let r := ex.ref t
  let kept := decide (ex.Keeps r.index)
  match ex.eventDriver.notifications.push r with
  | some queue => (ex.register r { ex.eventDriver with notifications := queue }).noted r kept
  | none => ex.noted r kept

/-- The wake of a `notify`; the waker is the I/O driver's. -/
def wake (ex : Executor W) : Executor W :=
  { ex with eventDriver := { ex.eventDriver with waker := ex.eventDriver.waker || ex.eventDriver.ioDriver.isSome } }

/-- `Notifier::notify`. -/
def notify (ex : Executor W) (t : Target) : Executor W := (ex.pushNotification t).wake

variable (prog : Program W)

def applyHandleOp (dropHandle : Executor W → Owner → Key → Executor W) (ex : Executor W) :
    HandleOp W → Executor W
  | .update f => { ex with world := f ex.world }
  | .clone k o => ex.cloneHandle o k
  | .drop k o =>
    match o with
    | .running | .graph _ => ex
    | o => dropHandle ex o k
  | .markForSweep t => ex.markForSweep .requested (ex.ref t)
  | .notify t => ex.notify t

/-- Dropping one handle. The first argument bounds how deep drops nest. -/
def dropHandleWith : Nat → Executor W → Owner → Key → Executor W
  | 0, ex, _, _ => ex
  | depth + 1, ex, o, k =>
    if (o, k) ∈ ex.handles then
      let ex := ex.release o k
      if ex.Alive k then ex
      else
        let ex := ex.expire k
        let ex := (prog.onDrop ex k).foldl (applyHandleOp (dropHandleWith depth)) ex
        (ex.heldBy (.inner k)).foldl (fun ex j => dropHandleWith depth ex (.inner k) j) ex
    else ex

/-- The bound is enough: each level ends the life of another node. -/
def dropHandle (ex : Executor W) (o : Owner) (k : Key) : Executor W :=
  dropHandleWith prog ex.handles.length ex o k

def handleOp (ex : Executor W) (op : HandleOp W) : Executor W := applyHandleOp (dropHandle prog) ex op

/-- The holder goes away with everything it holds. -/
def dropOwner (ex : Executor W) (o : Owner) : Executor W :=
  (ex.heldBy o).foldl (fun ex k => ex.dropHandle prog o k) ex

/-- The registration methods; `none` is the `expect` of a driver that is not configured.
Registering with a token in use is a refused registration. -/
def driverOp (ex : Executor W) : DriverOp → Option (Executor W)
  | .yieldNow t =>
    let r := ex.ref t
    some (ex.register r { ex.eventDriver with yieldDriver := ex.eventDriver.yieldDriver ++ [r] })
  | .registerTimer t when =>
    let r := ex.ref t
    ex.eventDriver.timerDriver.map fun timer =>
      ex.register r { ex.eventDriver with timerDriver := some (timer.registerTimer r when) }
  | .deregisterTimer source =>
    ex.eventDriver.timerDriver.map fun timer =>
      { ex with eventDriver := { ex.eventDriver with timerDriver := some (timer.deregisterTimer source) } }
  | .registerIo t token =>
    let r := ex.ref t
    ex.eventDriver.ioDriver.map fun io =>
      if io.lookup token = none then
        ex.register r { ex.eventDriver with ioDriver := some ⟨(token, r) :: io.indices⟩ }
      else ex
  | .deregisterIo token =>
    ex.eventDriver.ioDriver.map fun io =>
      { ex with eventDriver := { ex.eventDriver with ioDriver := some ⟨io.indices.filter fun e => e.1 ≠ token⟩ } }

/-- A registration changes the event driver and is logged. -/
theorem driverOp_ok {ex ex' : Executor W} {op : DriverOp} (h : ex.driverOp op = some ex') :
    ∃ driver trace, ex' = { ex with eventDriver := driver, trace := trace } := by
  cases op with
  | yieldNow t => cases h; exact ⟨_, _, rfl⟩
  | registerTimer t when => obtain ⟨timer, -, rfl⟩ := Option.map_eq_some_iff.mp h; exact ⟨_, _, rfl⟩
  | deregisterTimer source => obtain ⟨timer, -, rfl⟩ := Option.map_eq_some_iff.mp h; exact ⟨_, _, rfl⟩
  | registerIo t token =>
    obtain ⟨io, -, rfl⟩ := Option.map_eq_some_iff.mp h
    split
    · exact ⟨_, _, rfl⟩
    · exact ⟨_, _, rfl⟩
  | deregisterIo token => obtain ⟨io, -, rfl⟩ := Option.map_eq_some_iff.mp h; exact ⟨_, _, rfl⟩

/-- `ExecutionContext::schedule_node` on a handle the caller holds. The refusal is the
caller's to look at; an index past the queues panics. -/
def scheduleNode (ex : Executor W) (k : Key) : Option (Executor W) :=
  let ex := ex.log (.manual k (decide (ex.Present k)))
  match ex.scheduler.schedule (ex.inner k).index (ex.inner k).depth with
  | .ok s => some { ex with scheduler := s }
  | .error .schedulerError => some ex
  | .error .indexOutOfBounds => none

/-- The closure of a deferred subgraph is made with its captured handles. -/
def spawnSubgraph (ex : Executor W) (captures : List Key) : Executor W :=
  let ticket := ex.tickets
  let ex := { ex with deferredSpawns := ex.deferredSpawns ++ [ticket], tickets := ticket + 1 }
  captures.foldl (fun ex k => ex.cloneHandle (.spawn ticket) k) ex

/-- One effect of a cycle function, `none` when it panics. -/
def applyEffect (ex : Executor W) : Effect W → Option (Executor W)
  | .handle op => some (ex.handleOp prog op)
  | .driver op => ex.driverOp op
  | .scheduleNode k => if ex.Alive k then ex.scheduleNode k else some ex
  | .spawnSubgraph captures => some (ex.spawnSubgraph captures)

/-- The effects up to the first panic, and whether they all ran. -/
def applyEffects : Executor W → List (Effect W) → Bool × Executor W
  | ex, [] => (true, ex)
  | ex, effect :: rest =>
    match ex.applyEffect prog effect with
    | some ex => applyEffects ex rest
    | none => (false, ex)

end Executor
end Wavelet
