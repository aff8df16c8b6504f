import Mathlib.Order.Bounds.Basic

/-!
# Worklists

A worklist algorithm whose rules are found out as it goes: processing an item tells which
items it fires. `done` are the items processed, `seen` those ever put on the list. Once
everything seen has been processed, `done` is the least set that contains the seeds and is
closed under the rules.
-/

/-- A worklist in progress. -/
structure Worklist {α : Type*} (seeds : Set α) (fires : α → α → Prop) (done seen : Set α) : Prop where
  seeded : seeds ⊆ seen
  discovered : ∀ a b, fires a b → a ∈ done
  closed : ∀ a ∈ done, ∀ b, fires a b → b ∈ seen
  least : ∀ S : Set α, seeds ⊆ S → (∀ a ∈ S, ∀ b, fires a b → b ∈ S) → seen ⊆ S

namespace Worklist

variable {α : Type*} {seeds done seen : Set α} {fires : α → α → Prop}

theorem start (seeds : Set α) : Worklist seeds (fun _ _ => False) ∅ seeds where
  seeded := subset_rfl
  discovered _ _ rule := rule.elim
  closed _ member := by cases member
  least _ start _ := start

/-- An item that was seen is processed and turns out to fire the items of `fired`. -/
theorem step {a : α} (list : Worklist seeds fires done seen) (known : a ∈ seen) (fired : Set α) :
    Worklist seeds (fun x y => fires x y ∨ x = a ∧ y ∈ fired) (insert a done) (seen ∪ fired) where
  seeded _ member := .inl (list.seeded member)
  discovered x y rule := by
    rcases rule with old | ⟨rfl, -⟩
    · exact .inr (list.discovered x y old)
    · exact .inl rfl
  closed x member y rule := by
    rcases rule with old | ⟨rfl, new⟩
    · exact .inl (list.closed x (list.discovered x y old) y old)
    · exact .inr new
  least S start keeps := by
    have below := list.least S start fun x member y rule => keeps x member y (.inl rule)
    rintro y (old | new)
    · exact below old
    · exact keeps a (below known) y (.inr ⟨rfl, new⟩)

theorem finish (list : Worklist seeds fires done seen) (all : seen ⊆ done) (seenFirst : done ⊆ seen) :
    IsLeast { S : Set α | seeds ⊆ S ∧ ∀ a ∈ S, ∀ b, fires a b → b ∈ S } done :=
  ⟨⟨fun _ member => all (list.seeded member), fun a member b rule => all (list.closed a member b rule)⟩,
    fun _ ⟨start, keeps⟩ _ member => list.least _ start keeps (seenFirst member)⟩

end Worklist
