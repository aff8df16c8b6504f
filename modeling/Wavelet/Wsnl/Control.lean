import Mathlib.Data.List.AList
import Wavelet.Channel.State
import Wavelet.Runtime.World

/-!
# Routers

`Router` of `control.rs`, its outputs, and the three nodes that make one: two route the
batches of a source, one routes what it receives from a channel.
-/

namespace Wavelet

variable {W K T : Type}

/-! ## Cycle functions at work -/

/-- A cycle function at work: the data it found and its effects so far. -/
structure Draft (W : Type) where
  start : W
  effects : List (Effect W)
  plain : ∀ effect ∈ effects, effect.Plain

namespace Draft

def new (start : W) : Draft W := ⟨start, [], fun _ no => by cases no⟩

/-- The data as the effects leave it. -/
def world (d : Draft W) : W := d.effects.foldl Effect.onWorld d.start

def add (d : Draft W) (effect : Effect W) (plain : effect.Plain) : Draft W where
  start := d.start
  effects := d.effects ++ [effect]
  plain := by
    intro e member
    rcases List.mem_append.mp member with old | new
    · exact d.plain e old
    · rw [List.mem_singleton.mp new]
      exact plain

def update (d : Draft W) (f : W → W) : Draft W := d.add (.handle (.update f)) trivial

def scheduleNode (d : Draft W) (k : Key) : Draft W := d.add (.scheduleNode k) trivial

@[simp] theorem world_new (w : W) : (new w).world = w := rfl

@[simp] theorem world_update (d : Draft W) (f : W → W) : (d.update f).world = f d.world := by
  simp [world, update, add, Effect.onWorld]

@[simp] theorem world_scheduleNode (d : Draft W) (k : Key) : (d.scheduleNode k).world = d.world := by
  simp [world, scheduleNode, add, Effect.onWorld]

end Draft

/-- A draft that panics has run its effects before. -/
def Draft.answer : Except (Draft W) (Draft W × Control) → List (Effect W) × Outcome
  | .ok (d, control) => (d.effects, .ret control)
  | .error d => (d.effects, .panic)

/-! ## The router -/

/-- An entry of the cache: an output, which it holds weakly, and the epoch of its last batch. -/
structure RouterEntry where
  node : Key
  epoch : Nat
  deriving DecidableEq, Repr

/-- The cache of a router and the data of its outputs. -/
structure Router (K T : Type) where
  cache : AList fun _ : K => RouterEntry
  contents : Key → List T

namespace Router

variable [DecidableEq K]

/-- The first item for an output in a cycle clears it. -/
def clear (key : K) (node : Key) (epoch : Nat) (router : Router K T) : Router K T :=
  ⟨router.cache.insert key ⟨node, epoch⟩, Function.update router.contents node []⟩

def push (node : Key) (item : T) (router : Router K T) : Router K T :=
  { router with contents := Function.update router.contents node (router.contents node ++ [item]) }

end Router

variable [DecidableEq K] (cell : Cell W (Router K T))

/-- `on_drop` of a router: the outputs that are left are marked. -/
def routerOnDrop (ex : Executor W) : List (HandleOp W) :=
  ((((cell.get ex.world).cache.entries.map fun entry => entry.2.node).filter fun k => ex.Alive k).map fun k =>
    .markForSweep (.node k)) ++ [.update (cell.modify fun router => { router with cache := ∅ })]

/-- `on_drop` of the output for `key`. -/
def outputOnDrop (key : K) : List (HandleOp W) :=
  [.update (cell.modify fun router => { router with cache := router.cache.erase key })]

/-- `Router::route`: the output that is cached, if it is alive, or a new one. -/
def Router.route (parent : Option Key) (key : K) (index : NodeIndex) (ex : Executor W) : List (ExecOp W) :=
  let fresh : List (ExecOp W) :=
    [.build { index := index, relationships := parent.toList.map fun p => (p, .observe) },
      .handle (.update (cell.modify (Router.clear key ex.inners.length 0)))]
  match (cell.get ex.world).cache.lookup key with
  | some entry => if ex.Alive entry.node then [.handle (.clone entry.node .user)] else fresh
  | none => fresh

/-- The cycle function of an output. -/
def output (k : Key) (ex : Executor W) : List (Effect W) × Outcome :=
  ([], .ret (Control.from (!((cell.get ex.world).contents k).isEmpty)))

variable (route : T → K)

/-- One item of the batch; the `expect` panics when the scheduler refuses the output. -/
def routeItem (ex : Executor W) (ctx : ExecutionContext) (d : Draft W) (item : T) :
    Except (Draft W) (Draft W) :=
  match (cell.get d.world).cache.lookup (route item) with
  | none => .ok d
  | some entry =>
    if ex.Alive entry.node then
      if entry.epoch = ctx.epoch then .ok (d.update (cell.modify (Router.push entry.node item)))
      else
        let d := d.update (cell.modify (Router.clear (route item) entry.node ctx.epoch))
        if (ex.inner entry.node).depth < ex.scheduler.currDepth then .error d
        else .ok ((d.scheduleNode entry.node).update (cell.modify (Router.push entry.node item)))
    else .ok d

/-- The cycle function of `route_stream_node`. -/
def routeStream (source : Cell W (List T)) (ex : Executor W) (ctx : ExecutionContext) :
    List (Effect W) × Outcome :=
  Draft.answer
    (((source.get ex.world).foldlM (routeItem cell route ex ctx) (.new ex.world)).map fun d =>
      (d, .unchanged))

/-- The cycle function of `take_route_stream_node`: the source is drained. -/
def takeRouteStream (source : Cell W (List T)) (ex : Executor W) (ctx : ExecutionContext) :
    List (Effect W) × Outcome :=
  Draft.answer (((source.get ex.world).foldlM (routeItem cell route ex ctx)
    ((Draft.new ex.world).update (source.modify fun _ => []))).map fun d => (d, .unchanged))

/-! ## The channel router -/

namespace Channel

/-- The actions of the threads that send. -/
def Action.Sends : Action T → Prop
  | .receive | .dropReceiver => False
  | _ => True

instance : DecidablePred (Action.Sends (T := T))
  | .receive | .dropReceiver => .isFalse id
  | .start .. | .advance _ | .clone _ | .drop _ => .isTrue trivial

/-- The step goes on to a call of `notify`. -/
def Event.Notifies : Event T → Prop
  | .sent (.ok _) | .droppedSender true => True
  | _ => False

instance : DecidablePred (Event.Notifies (T := T))
  | .sent (.ok _) | .droppedSender true => .isTrue trivial
  | .sent (.error _) | .droppedSender false | .silent | .received _ => .isFalse id

namespace System

/-- What sending threads do while the receiver is at work. A notification is left for
later: the receiver does not look at the queue it goes to. -/
def interfere (s : System T) (actions : List (Action T)) : System T :=
  actions.foldl (fun s action =>
    match s.step action with
    | some (event, s') => if action.Sends ∧ ¬ event.Notifies then s' else s
    | none => s) s

/-- `try_receive`, with what other threads do before its pop and before its load. -/
def tryReceive (s : System T) (threads : List (Action T) × List (Action T)) :
    Except TryReceiveError T × System T :=
  match (s.interfere threads.1).receive with
  | some (.received result, s') => (result, s')
  | some (_, s') =>
    match (s'.interfere threads.2).receive with
    | some (.received result, s') => (result, s')
    | _ => (.error .empty, s')
  | none => (.error .empty, s)

end System
end Channel

variable (both : Cell W (Router K T × Channel.System T))

/-- The loop over `poll_limit`. -/
def channelRouteLoop (ex : Executor W) (ctx : ExecutionContext)
    (threads : Nat → List (Channel.Action T) × List (Channel.Action T)) :
    Nat → Draft W → Except (Draft W) (Draft W × Control)
  | 0, d => .ok (d, .unchanged)
  | n + 1, d =>
    let (result, s) := (both.snd.get d.world).tryReceive (threads n)
    let d := d.update (both.snd.modify fun _ => s)
    match result with
    | .ok item => (routeItem both.fst route ex ctx d item).bind (channelRouteLoop ex ctx threads n)
    | .error .empty => .ok (d, .unchanged)
    | .error .channelClosed => .ok (d, .sweep)

/-- The cycle function of `channel_route_stream_node`. -/
def channelRouteStream (pollLimit : Nat) (threads : Nat → List (Channel.Action T) × List (Channel.Action T))
    (ex : Executor W) (ctx : ExecutionContext) : List (Effect W) × Outcome :=
  Draft.answer (channelRouteLoop route both ex ctx threads pollLimit (.new ex.world))

/-- `channel_route_stream_node`; `build_with_channel` asserts that the capacity is not zero. -/
def channelRouteStreamNode (capacity : Nat) (index : NodeIndex) : Option (List (ExecOp W)) :=
  (Channel.System.new capacity).map fun s =>
    [.handle (.update (both.modify fun data => ({ data.1 with cache := ∅ }, s))), .build { index := index }]

end Wavelet
