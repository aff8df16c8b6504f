import Wavelet.Wsnl.Construct

/-!
# Accumulators

`accumulate_stream_node` of `transform.rs`. The node has no guard of its own against a
second run in a cycle or a batch that it has missed: that it folds every batch once follows
from what its lineage, its account and the origins of its entries say.
-/

namespace Wavelet

variable {W T A : Type}

section Cycle

variable (own : Cell W A) (parent : Node W (List T)) (fold : A → T → Except A A)

/-- The cycle function of `accumulate_stream_node`. A `fold_fn` that panics leaves the value
as it has made it by then. -/
def accumulateStream (ex : Executor W) (_ : ExecutionContext) : List (Effect W) × Outcome :=
  match (parent.borrow ex.world).foldlM fold (own.get ex.world) with
  | .ok value => ([.handle (.update (own.put value))], .ret .broadcast)
  | .error value => ([.handle (.update (own.put value))], .panic)

def accumulateArgs (index : NodeIndex) (order : HashOrder) : BuildArgs where
  index := index
  relationships := [parent.triggers]
  order := order
  captures := [parent.key]

end Cycle

namespace Executor

/-- The batch with which the parent has broadcast in a cycle. Only its own runs change its
data, so what it holds at the end of a node loop it held at the end of its run. -/
def batch (parent : Node W (List T)) (last : Executor W) : List T :=
  if last.HasBroadcast parent.key then parent.borrow last.world else []

variable {own : Cell W A} {parent : Node W (List T)} {fold : A → T → Except A A} {c : Key}
  {prog : Program W} {now : CycleTime}

/-! ## One cycle -/

/-- One run: the cycle function is called or it is not. -/
def Adds (fold : A → T → Except A A) (batch : List T) (before : A) (verdict : Verdict) (after : A) : Prop :=
  (verdict = .poisoned ∨ verdict = .noHandle) ∧ after = before ∨
    verdict = .returned .broadcast ∧ batch.foldlM fold before = .ok after

section Course

variable {seeded : Prop} {polled final : Executor W}

end Course

/-- The items of a parent, and their sum. -/
structure Sheet where
  items : List Nat
  total : Nat
  deriving DecidableEq, Repr

def addUp (total item : Nat) : Except Nat Nat := .ok (total + item)

/-- Before anything is built. -/
def blank (items : List Nat) :
    Executor Sheet := withConfig { ioEnabled := false, timerEnabled := false } .spin ⟨items, 0⟩

/-- The parent has run, its accumulator has not. -/
def untouched : Executor Sheet :=
  { blank [] with
    graph := ⟨[some ⟨⟨0, false, false⟩, 1, 0, false⟩, some (.new ⟨1, false, false⟩ 1)], [⟨0, 1, .trigger⟩]⟩
    scheduler := ⟨[[], []], 0, 0⟩
    inners := [⟨0, 0, 0⟩, ⟨1, 1, 0⟩]
    handles := [(.closure 1, 0), (.user, 1), (.user, 0)] }

end Executor
end Wavelet
