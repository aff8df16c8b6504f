import Wavelet.Runtime.Handles

/-!
# Building nodes

`NodeBuilder` of `node.rs` and the operations of code that has the executor. `on_init` is
not a part of `build`: it runs right after the node is in the graph, so its operations are
the next ones of the same code.
-/

namespace Wavelet

/-- `add_relationship` on the `parents` map: a trigger is never weakened. -/
def addRelationship (parent : NodeIndex × Nat) (relationship : Relationship) :
    List ParentEntry → List ParentEntry
  | [] => [(parent, relationship)]
  | (other, r) :: rest =>
    if other = parent then (other, if relationship = .trigger then .trigger else r) :: rest
    else (other, r) :: addRelationship parent relationship rest

/-- One more than the deepest parent, 0 without parents; `none` is a `u32` overflow, here
or in `enable_depth`. -/
def childDepth (parents : List ParentEntry) : Option Nat :=
  match parents.map (·.1.2) with
  | [] => some 0
  | d :: ds =>
    let depth := ds.foldl max d + 1
    if depth + 1 < 2 ^ 32 then some depth else none

/-- The edges from the parents to the new node. -/
def addEdges (child : NodeIndex) : Graph → List ParentEntry → Option Graph
  | g, [] => some g
  | g, ((parent, _), r) :: rest => (g.addEdge parent child r).bind fun g => addEdges child g rest

namespace Executor

variable {W : Type}

def parents (ex : Executor W) (args : BuildArgs) : List ParentEntry :=
  args.relationships.foldl
    (fun ps kr => addRelationship ((ex.inner kr.1).index, (ex.inner kr.1).depth) kr.2 ps) []

/-- The node of a builder whose depth and edges are known. -/
def insertNode (ex : Executor W) (args : BuildArgs) (depth : Nat) (graph : Graph) : Executor W :=
  let k := ex.inners.length
  let built : Executor W := { ex with
    graph := graph
    scheduler := ex.scheduler.enableDepth depth
    inners := ex.inners ++ [⟨args.index, depth, 0⟩]
    handles := (if args.spawned then .graph k else .user, k) :: ex.handles }
  built.log (.built args.index k (decide (∀ kr ∈ args.relationships, ex.Present kr.1))
    (decide (args.index ∉ ex.marks)) (decide (args.index ∉ ex.eventDriver.refs.map (·.index))))

/-- `build`, or `spawn` when `args.spawned`. -/
def build (ex : Executor W) (args : BuildArgs) : Except Failure (Executor W) :=
  let k := ex.inners.length
  if (ex.graph.nodeWeight args.index).isSome then .error .unavailable
  else
    let parents := ex.parents args
    match childDepth parents with
    | none => .error .depthOverflow
    | some depth =>
      let weight := NodeContext.new ⟨k, args.spawned, args.allowPanic⟩ depth
      match addEdges args.index (ex.graph.addNode args.index weight) (args.order.order parents) with
      | none => .error .missingNode
      | some graph =>
        let built := ex.insertNode args depth graph
        let captured :=
          (args.captures.filter fun c => ex.Alive c).foldl (fun ex c => ex.addHandle (.closure k) c) built
        .ok ((args.data.filter fun c => ex.Alive c).foldl (fun ex c => ex.addHandle (.inner k) c) captured)

variable (prog : Program W)

def execOp (ex : Executor W) : ExecOp W → Except Failure (Executor W)
  | .handle op => .ok (ex.handleOp prog op)
  | .driver op =>
    match ex.driverOp op with
    | some ex => .ok ex
    | none => .error .noDriver
  | .build args => ex.build args

def execOps (ex : Executor W) (ops : List (ExecOp W)) : Except Failure (Executor W) :=
  ops.foldlM (fun ex op => ex.execOp prog op) ex

end Executor
end Wavelet
