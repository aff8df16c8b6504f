import Mathlib.Tactic.TypeStar

/-!
# Wirings of gates

Gates with two inputs each, on places that hold values. A place unfolds into the formula
whose leaves are the free places that it depends on. If every gate agrees with its inputs, a
place holds the value of its formula, and in a wiring that only goes down every place has one.
-/

/-- An operation, the places of its two arguments, and the place of its result. -/
structure Gate (ι β : Type*) where
  op : β → β → β
  left : ι
  right : ι
  output : ι

inductive Formula (ι β : Type*) where
  | free (i : ι)
  | apply (op : β → β → β) (left right : Formula ι β)

variable {ι β : Type*}

def Formula.eval (v : ι → β) : Formula ι β → β
  | .free i => v i
  | .apply op left right => op (left.eval v) (right.eval v)

namespace Gate

/-- The result of the operation on what its inputs hold. -/
def value (g : Gate ι β) (v : ι → β) : β := g.op (v g.left) (v g.right)

/-- The same gate at other places. -/
def map {κ : Type*} (f : ι → κ) (g : Gate ι β) : Gate κ β := ⟨g.op, f g.left, f g.right, f g.output⟩

/-- The output holds the result. -/
def Agrees (g : Gate ι β) (v : ι → β) : Prop := v g.output = g.value v

/-- Place `i` is free, or it is the output of a gate. -/
def Wired (gates : Gate ι β → Prop) (free : ι → Prop) (i : ι) : Prop := free i ∨ ∃ g, gates g ∧ g.output = i

/-- What a place stands for. -/
inductive Unfolds (gates : Gate ι β → Prop) (free : ι → Prop) : ι → Formula ι β → Prop
  | free {i} : free i → Unfolds gates free i (.free i)
  | gate {g left right} : gates g → Unfolds gates free g.left left → Unfolds gates free g.right right →
      Unfolds gates free g.output (.apply g.op left right)

variable {gates : Gate ι β → Prop} {free : ι → Prop}

theorem Wired.map {κ : Type*} {f : ι → κ} {gates : List (Gate ι β)} {free : List ι} {i : ι}
    (wired : Wired (· ∈ gates) (· ∈ free) i) :
    Wired (· ∈ gates.map (Gate.map f)) (· ∈ free.map f) (f i) := by
  obtain leaf | ⟨g, member, rfl⟩ := wired
  · exact .inl (List.mem_map_of_mem leaf)
  · exact .inr ⟨g.map f, List.mem_map_of_mem member, rfl⟩

theorem Unfolds.eval {v : ι → β} {i : ι} {f : Formula ι β} (unfolds : Unfolds gates free i f)
    (agrees : ∀ g, gates g → g.Agrees v) :
    v i = f.eval v := by
  induction unfolds with
  | free _ => rfl
  | @gate g left right member _ _ first second =>
    rw [agrees g member, value, first, second]
    rfl

end Gate
