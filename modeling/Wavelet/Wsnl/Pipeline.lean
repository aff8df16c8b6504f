import Wavelet.Wsnl.Stream

/-!
# Pipelines

A source, filters and deduplications one after the other, and an accumulator at the end. Every
node reads the data of the node before it when it runs; what they come to, cycle by cycle, is a
plain function of the batch of the source.
-/

namespace Wavelet

variable {W T A : Type}

/-- A node between the source and the accumulator. -/
structure Stage (W T : Type) where
  node : Node W (List T)
  kind : StageKind T

namespace Stage

/-- The stages with the nodes that they read. -/
def feeds (source : Node W (List T)) : List (Stage W T) → List (Node W (List T) × Stage W T)
  | [] => []
  | stage :: rest => (source, stage) :: feeds stage.node rest

/-- The node at the end. -/
def outlet (source : Node W (List T)) : List (Stage W T) → Node W (List T)
  | [] => source
  | stage :: rest => outlet stage.node rest

/-- The stage is the node of the program that reads `parent`. -/
def Runs (prog : Program W) (parent : Node W (List T)) (stage : Stage W T) : Prop :=
  prog.Transforms stage.node.data parent stage.kind.transform streamAnswer stage.node.key

end Stage

section Manners

variable (own : Cell W A) (source : Node W (List T)) (stages : List (Stage W T))
  (fold : A → T → Except A A) (c : Key)

end Manners

/-- It was made, whatever happens after. -/
theorem TransformMade.later {B : Type} {own : Cell W B} {parent : Node W (List T)}
    {step : Transform T B} {answer : B → Control} {c : Key} {ex ex' : Executor W}
    (made : TransformMade own parent step answer c ex) (path : Executor.Path ex ex') :
    TransformMade own parent step answer c ex' := by
  obtain ⟨prog, initial, index, order, before, first, transforms, present, constructed, since⟩ := made
  exact ⟨prog, initial, index, order, before, first, transforms, present, constructed, since.trans path⟩

namespace Executor

variable {own : Cell W A} {source : Node W (List T)} {stages : List (Stage W T)}
  {fold : A → T → Except A A} {c : Key}

section Life

variable {initial : A} {history : List (Executor W)} {ex : Executor W}

end Life

end Executor
end Wavelet
