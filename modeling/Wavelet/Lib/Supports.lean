import Mathlib.Data.Set.Finite.Basic
import Mathlib.Logic.Relation
import Mathlib.Order.WellFounded

/-!
# Support in finite families

A member of a family is a root, or a member holds it. In a finite family there is no endless way
back: the holders of a member lead to a root, or they go round in a circle.
-/

namespace Supports

open Relation

variable {α : Type*} {root : α → Prop} {holds : α → α → Prop} {k : α}

/-- A chain from a root leads to `k`. -/
def Rooted (root : α → Prop) (holds : α → α → Prop) (k : α) : Prop := ∃ r, root r ∧ ReflTransGen holds r k

/-- A chain from a circle leads to `k`. -/
def Circular (holds : α → α → Prop) (k : α) : Prop := ∃ c, TransGen holds c c ∧ ReflTransGen holds c k

theorem rooted_or_circular {s : Set α} (finite : s.Finite)
    (kept : ∀ k ∈ s, root k ∨ ∃ j ∈ s, holds j k) (member : k ∈ s) :
    Rooted root holds k ∨ Circular holds k := by
  by_contra neither
  obtain ⟨unrooted, straight⟩ := not_or.mp neither
  -- among the members with a chain to `k` the relation has a first one
  have few : Finite {j // j ∈ s ∧ ReflTransGen holds j k} :=
    (finite.subset fun j before => before.1).to_subtype
  have trans : IsTrans {j // j ∈ s ∧ ReflTransGen holds j k} fun a b => TransGen holds a.1 b.1 :=
    ⟨fun _ _ _ => TransGen.trans⟩
  have irrefl : Std.Irrefl fun a b : {j // j ∈ s ∧ ReflTransGen holds j k} => TransGen holds a.1 b.1 :=
    ⟨fun a round => straight ⟨a.1, round, a.2.2⟩⟩
  have founded := Finite.wellFounded_of_trans_of_irrefl fun a b :
    {j // j ∈ s ∧ ReflTransGen holds j k} => TransGen holds a.1 b.1
  obtain ⟨first, -, least⟩ := founded.has_min Set.univ ⟨⟨k, member, .refl⟩, trivial⟩
  rcases kept first.1 first.2.1 with isRoot | ⟨j, inside, holder⟩
  · exact unrooted ⟨first.1, isRoot, first.2.2⟩
  · exact least ⟨j, inside, .head holder first.2.2⟩ trivial (.single holder)

end Supports
